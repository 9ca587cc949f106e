import Squid.DiskIO.IpcIoFile
import Squid.Library.Interleaving

/-!
# The shared pages of disk I/O

A page travels from the free pages of the pool into a write request or a read response, through the
queues and the disker, and back.  The steps below account for every page in every hand; the only
steps that lose a page are those that drop the message that names it.
-/

namespace Squid

open List Option

/-- How often a message names a page. -/
def IpcIoMsg.names (page : ℕ) (message : IpcIoMsg) : ℤ := if message.page = some page then 1 else 0

/-- How often the messages of a queue name a page. -/
def queueNames (page : ℕ) (queue : List IpcIoMsg) : ℤ := (queue.map (IpcIoMsg.names page)).sum

/-- How often the message under construction names a page. -/
def IpcIoSending.names (page : ℕ) : Option IpcIoSending → ℤ
  | some (.queue _ message) => message.names page
  | _ => 0

/-- How often a worker and its queues name a page. -/
def IpcIoChannel.names (page : ℕ) (channel : IpcIoChannel) : ℤ :=
  queueNames page channel.requests + queueNames page channel.responses +
    IpcIoSending.names page channel.worker.sending

@[simp]
theorem queueNames_append (page : ℕ) (front back : List IpcIoMsg) :
    queueNames page (front ++ back) = queueNames page front + queueNames page back := by
  simp [queueNames]

@[simp]
theorem queueNames_singleton (page : ℕ) (message : IpcIoMsg) :
    queueNames page [message] = message.names page := by
  simp [queueNames]

/-- A popped message takes its page along. -/
theorem queueNames_eraseIdx (page : ℕ) {queue : List IpcIoMsg} {index : ℕ} {message : IpcIoMsg}
    (here : queue[index]? = some message) :
    queueNames page (queue.eraseIdx index) + message.names page = queueNames page queue := by
  induction queue generalizing index with
  | nil => simp at here
  | cons head rest ih =>
      cases index with
      | zero =>
          cases here
          simp only [queueNames, eraseIdx_zero, tail_cons, List.map_cons, sum_cons]
          ring
      | succ index =>
          have later := ih here
          simp only [queueNames, eraseIdx_cons_succ, List.map_cons, sum_cons] at later ⊢
          omega

/-- A page in a message counts once. -/
theorem IpcIoMsg.names_eq_count (page : ℕ) (message : IpcIoMsg) :
    message.names page = (message.page.toList.count page : ℤ) := by
  cases held : message.page with
  | none => simp [names, held]
  | some number => simp [names, held, count_singleton]

/-- A message to the disker: a read brings no page. -/
def IpcIoMsg.IsRequest (message : IpcIoMsg) : Prop :=
  (message.command = .cmdRead ∧ message.page = none) ∨ message.command = .cmdWrite

/-- The message under construction is a request, and only writes ask for a page. -/
def IpcIoSending.WellFormed : Option IpcIoSending → Prop
  | none => True
  | some (.page pending _) => pending.isWrite = true
  | some (.queue _ message) => message.IsRequest

/-- What a worker has sent or is about to send are requests. -/
structure IpcIoChannel.WellFormed (channel : IpcIoChannel) : Prop where
  requests : ∀ message ∈ channel.requests, message.IsRequest
  sending : IpcIoSending.WellFormed channel.worker.sending

namespace IpcIoChannel

variable {channel after : IpcIoChannel}

/-- Steps that leave the queues and the message under construction alone. -/
theorem frame_names (requests : after.requests = channel.requests)
    (responses : after.responses = channel.responses)
    (sending : after.worker.sending = channel.worker.sending) (form : channel.WellFormed) :
    after.WellFormed ∧ ∀ page, after.names page = channel.names page := by
  refine ⟨⟨requests ▸ form.requests, sending ▸ form.sending⟩, fun page => ?_⟩
  rw [names, names, requests, responses, sending]

theorem call_names {isWrite : Bool} {offset len : ℕ} (form : channel.WellFormed)
    (step : channel.call isWrite offset len = some after) :
    after.WellFormed ∧ ∀ page, after.names page = channel.names page := by
  unfold call at step
  split at step
  · cases step
    exact frame_names rfl rfl rfl form
  · cases step

theorem callbackReturns_names (form : channel.WellFormed)
    (step : channel.callbackReturns = some after) :
    after.WellFormed ∧ ∀ page, after.names page = channel.names page := by
  unfold callbackReturns at step
  split at step
  · cases step
    exact frame_names rfl rfl rfl form
  · cases step

theorem notification_names (form : channel.WellFormed)
    (step : channel.notification = some after) :
    after.WellFormed ∧ ∀ page, after.names page = channel.names page := by
  unfold notification at step
  split at step
  · cases step
    exact frame_names rfl rfl rfl form
  · cases step

theorem checkTimeouts_names (form : channel.WellFormed)
    (step : channel.checkTimeouts = some after) :
    after.WellFormed ∧ ∀ page, after.names page = channel.names page := by
  unfold checkTimeouts at step
  split at step
  · cases step
    exact frame_names rfl rfl rfl form
  · cases step

theorem sweep_names (form : channel.WellFormed) (step : channel.sweep = some after) :
    after.WellFormed ∧ ∀ page, after.names page = channel.names page := by
  unfold sweep at step
  split at step
  · rename_i requestId _ _ _
    cases step
    refine frame_names rfl rfl ?_ form
    simp only [IpcIoWorker.sweepOn]
    split <;> rfl
  · cases step

theorem popFails_names {pageSize : ℕ} (form : channel.WellFormed)
    (step : channel.popFails pageSize = some after) :
    after.WellFormed ∧ ∀ page, after.names page = channel.names page := by
  unfold popFails at step
  split at step
  · split at step
    · rename_i _ pending rest idle _
      cases step
      have nothing : ∀ page, IpcIoSending.names page channel.worker.sending = 0 := by
        simp [idle, IpcIoSending.names]
      refine ⟨⟨form.requests, ?_⟩, fun page => ?_⟩
      · by_cases write : pending.isWrite = true
        · by_cases fits : pending.len ≤ pageSize
          · simp [IpcIoWorker.prepare, write, fits, IpcIoSending.WellFormed]
          · simp [IpcIoWorker.prepare, IpcIoWorker.complete, write, fits, idle,
              IpcIoSending.WellFormed]
        · simp [IpcIoWorker.prepare, write, IpcIoSending.WellFormed, IpcIoMsg.IsRequest,
            IpcIoWorker.requestMessage]
      · simp only [names, nothing, IpcIoWorker.prepare]
        split
        · split
          · simp [IpcIoSending.names]
          · simp [IpcIoWorker.complete, nothing]
        · simp [IpcIoSending.names, IpcIoMsg.names, IpcIoWorker.requestMessage]
    · cases step
      exact frame_names rfl rfl rfl form
    · cases step
      exact frame_names rfl rfl rfl form
    · cases step
  · cases step

theorem handleResponse_frame (channel : IpcIoChannel) (response : IpcIoMsg) :
    (channel.handleResponse response).requests = channel.requests ∧
      (channel.handleResponse response).responses = channel.responses ∧
      (channel.handleResponse response).worker.sending = channel.worker.sending := by
  unfold handleResponse
  split <;> exact ⟨rfl, rfl, rfl⟩

/-- A popped response gives its page back if it completes a read. -/
theorem pop_names {index : ℕ} {pages : List ℕ} (form : channel.WellFormed)
    (kept : ∀ response page, channel.responses[index]? = some response →
      response.page = some page → ∃ file pending,
        channel.worker.file.dequeueRequest response.requestId = some (file, pending) ∧
          pending.isWrite = false)
    (step : channel.pop index = some (after, pages)) :
    after.WellFormed ∧ ∀ page, after.names page + pages.count page = channel.names page := by
  unfold pop at step
  split at step
  · split at step
    · rename_i response popped
      split at step
      · cases step
        obtain ⟨requests, responses, sending⟩ := handleResponse_frame
          { channel with responses := channel.responses.eraseIdx index } response
        have released : channel.releasedPage response = response.page.toList := by
          unfold releasedPage
          cases held : response.page with
          | none => split <;> simp [IpcIoFile.returnedPage, held]
          | some number =>
              obtain ⟨file, pending, found, read⟩ := kept response number popped held
              simp [found, IpcIoFile.returnedPage, read, held]
        refine ⟨⟨?_, ?_⟩, fun page => ?_⟩
        · rw [requests]
          exact form.requests
        · rw [sending]
          exact form.sending
        have taken := queueNames_eraseIdx page popped
        rw [names, names, requests, responses, sending, released, ← IpcIoMsg.names_eq_count]
        dsimp only
        omega
      · cases step
    · cases step
  · cases step

/-- A write takes its page into the message under construction. -/
theorem getPage_names {taken : Option ℕ} (form : channel.WellFormed)
    (step : channel.getPage taken = some after) :
    after.WellFormed ∧ ∀ page, after.names page = channel.names page + taken.toList.count page := by
  unfold getPage at step
  split at step
  · rename_i pending requestId sending
    have write : pending.isWrite = true := by
      simpa [IpcIoSending.WellFormed, sending] using form.sending
    split at step
    · cases step
      refine ⟨⟨form.requests, ?_⟩, fun page => ?_⟩
      · exact Or.inr (by simp [IpcIoWorker.requestMessage, write])
      · simp only [names, sending, IpcIoSending.names, IpcIoMsg.names_eq_count]
        simp [IpcIoWorker.requestMessage]
    · cases step
      refine ⟨⟨form.requests, trivial⟩, fun page => ?_⟩
      simp [names, sending, IpcIoSending.names, IpcIoWorker.complete]
  · cases step

/-- A request enters the queue with its page; a full queue must not meet a page. -/
theorem queuePush_names {full : Bool} (form : channel.WellFormed)
    (kept : full = true → ∀ pending message,
      channel.worker.sending = some (.queue pending message) → message.page = none)
    (step : channel.queuePush full = some after) :
    after.WellFormed ∧ ∀ page, after.names page = channel.names page := by
  unfold queuePush at step
  split at step
  · rename_i pending message sending
    have request : message.IsRequest := by
      simpa [IpcIoSending.WellFormed, sending] using form.sending
    cases full with
    | true =>
        cases step
        refine ⟨⟨form.requests, trivial⟩, fun page => ?_⟩
        have unnamed : message.names page = 0 := by
          simp [IpcIoMsg.names, kept rfl pending message sending]
        simp [names, sending, IpcIoSending.names, IpcIoWorker.complete, unnamed]
    | false =>
        cases step
        refine ⟨⟨fun queued member => ?_, trivial⟩, fun page => ?_⟩
        · rcases mem_append.mp member with old | new
          · exact form.requests queued old
          · rw [mem_singleton.mp new]
            exact request
        · simp only [names, sending, IpcIoSending.names, queueNames_append, queueNames_singleton]
          ring
  · cases step

end IpcIoChannel

namespace IpcIoSystem

open LabelledRun

variable {W : Type*} [DecidableEq W] {pageSize : ℕ} {system after : IpcIoSystem W}

/-- How often the request that the disker is handling names a page. -/
def diskerNames (page : ℕ) (system : IpcIoSystem W) : ℤ :=
  match system.disker with
  | some operation => operation.message.names page
  | none => 0

/-- The steps that do not drop a message with a page. -/
def HandsOver (system : IpcIoSystem W) : IpcIoLabel W → Prop
  -- the response still finds its request, a read
  | .worker w (.pop index) =>
      ∀ response page, (system.channel w).responses[index]? = some response →
        response.page = some page → ∃ file pending,
          (system.channel w).worker.file.dequeueRequest response.requestId = some (file, pending) ∧
            pending.isWrite = false
  -- a full request queue meets no write
  | .worker w (.queuePush full) =>
      full = true → ∀ pending message,
        (system.channel w).worker.sending = some (.queue pending message) → message.page = none
  -- a full response queue meets no read that got a page
  | .disker (.queuePush full) =>
      full = true → ∀ operation, system.disker = some operation → operation.message.page = none
  | _ => True

/-- The messages in flight have the form that `push` gives them. -/
structure WellFormed (system : IpcIoSystem W) : Prop where
  channel : ∀ w, (system.channel w).WellFormed
  disker : ∀ operation, system.disker = some operation → operation.served = false →
    operation.message.IsRequest

section Counting

variable [Fintype W]

/-- How often messages and operations in progress name a page. -/
def names (page : ℕ) (system : IpcIoSystem W) : ℤ :=
  ∑ w, (system.channel w).names page + system.diskerNames page

/-- How often a page occurs at all: free, in the memory cache, or named. -/
def places (page : ℕ) (system : IpcIoSystem W) : ℤ :=
  system.freePages.count page + system.cachePages.count page + system.names page

/-- Every page of the pool is in its place. -/
structure PagesAccounted (pool : List ℕ) (system : IpcIoSystem W) : Prop where
  /-- No page is free twice. -/
  free : system.freePages.Nodup
  /-- No free page is named. -/
  unnamed : ∀ page ∈ system.freePages, system.names page = 0
  /-- A page used for I/O is named by exactly one message or operation. -/
  once : ∀ page ∈ pool, page ∉ system.freePages → page ∉ system.cachePages →
    system.names page = 1

/-- Only pages of the pool are around, each once, and requests are well formed. -/
structure Accounted (pool : List ℕ) (system : IpcIoSystem W) : Prop where
  form : system.WellFormed
  total : ∀ page, system.places page = pool.count page

omit [DecidableEq W] in
theorem names_nonneg (page : ℕ) (system : IpcIoSystem W) : 0 ≤ system.names page := by
  have message : ∀ message : IpcIoMsg, 0 ≤ message.names page := by
    intro message
    unfold IpcIoMsg.names
    split <;> omega
  have queue : ∀ queue, 0 ≤ queueNames page queue := by
    intro queue
    refine sum_nonneg fun count member => ?_
    obtain ⟨queued, _, rfl⟩ := List.mem_map.mp member
    exact message queued
  have sending : ∀ sending, 0 ≤ IpcIoSending.names page sending := by
    intro sending
    unfold IpcIoSending.names
    split
    · exact message _
    · exact le_refl 0
  have disker : 0 ≤ system.diskerNames page := by
    unfold diskerNames
    split
    · exact message _
    · exact le_refl 0
  refine add_nonneg (Finset.sum_nonneg fun w _ => ?_) disker
  exact add_nonneg (add_nonneg (queue _) (queue _)) (sending _)

variable {pool : List ℕ}

omit [DecidableEq W] in
theorem Accounted.pagesAccounted (distinct : pool.Nodup) (inv : Accounted pool system) :
    PagesAccounted pool system := by
  have total : ∀ page, (system.freePages.count page : ℤ) + system.cachePages.count page +
      system.names page = pool.count page := inv.total
  have nonneg := fun page => names_nonneg page system
  have bound := fun page => nodup_iff_count_le_one.mp distinct page
  refine ⟨nodup_iff_count_le_one.mpr fun page => ?_, ?_, ?_⟩
  · have sum := total page
    have names := nonneg page
    have most := bound page
    omega
  · intro page member
    have positive := count_pos_iff.mpr member
    have sum := total page
    have names := nonneg page
    have most := bound page
    omega
  · intro page member unfree uncached
    have sum := total page
    rw [count_eq_zero_of_not_mem unfree, count_eq_zero_of_not_mem uncached,
      count_eq_one_of_mem distinct member] at sum
    simpa using sum

variable {channel : IpcIoChannel} {w : W}

omit [Fintype W] in
theorem WellFormed.setChannel (form : system.WellFormed) (fits : channel.WellFormed) :
    (system.setChannel w channel).WellFormed := by
  refine ⟨fun v => ?_, form.disker⟩
  by_cases same : v = w
  · subst same
    simpa [IpcIoSystem.setChannel] using fits
  · simpa [IpcIoSystem.setChannel, Function.update_of_ne same] using form.channel v

variable {freePages : List ℕ}

/-- A step that moves pages between one worker with its queues, the disker and the pool. -/
theorem Accounted.exchange (inv : Accounted pool system) {disker : Option (DiskerOperation W)}
    (fits : channel.WellFormed)
    (request : ∀ operation, disker = some operation → operation.served = false →
      operation.message.IsRequest) (moved : ∀ page,
      channel.names page + diskerNames page { system with disker } + freePages.count page =
        (system.channel w).names page + system.diskerNames page + system.freePages.count page) :
    Accounted pool { system.setChannel w channel with disker, freePages } := by
  refine ⟨⟨(inv.form.setChannel fits).channel, request⟩, fun page => ?_⟩
  have total := inv.total page
  have exchanged := moved page
  have changed := Interleaving.sum_update (IpcIoChannel.names page) system.channel w channel
  have split : ({ system.setChannel w channel with disker, freePages } : IpcIoSystem W).names page =
    ∑ v, (Function.update system.channel w channel v).names page +
      diskerNames page { system with disker } := rfl
  rw [places, names] at total
  rw [places, split, changed]
  simp only [setChannel]
  omega

/-- A step of one worker that exchanges pages with the pool only. -/
theorem Accounted.setChannel (inv : Accounted pool system) (fits : channel.WellFormed)
    (moved : ∀ page, channel.names page + freePages.count page =
      (system.channel w).names page + system.freePages.count page) :
    Accounted pool { system.setChannel w channel with freePages := freePages } := by
  refine inv.exchange fits inv.form.disker fun page => ?_
  have exchanged := moved page
  have same : diskerNames page { system with disker := (system.setChannel w channel).disker } =
    system.diskerNames page := rfl
  omega

omit [DecidableEq W] [Fintype W] in
theorem take_count {taken : Option ℕ} (free : system.available taken = true) (page : ℕ) :
    (system.take taken).count page + taken.toList.count page = system.freePages.count page := by
  cases taken with
  | none => simp [take]
  | some number =>
      have member : number ∈ system.freePages := by simpa [available] using free
      simp only [take, toList_some, count_singleton, count_erase, beq_iff_eq]
      by_cases same : number = page
      · subst same
        have positive := count_pos_iff.mpr member
        simp
        omega
      · simp [same]

theorem workerStep_accounted (inv : Accounted pool system) {step : IpcIoWorkerStep}
    (kept : system.HandsOver (.worker w step))
    (taken : system.workerStep pageSize w step = some after) : Accounted pool after := by
  have form := inv.form.channel w
  have alone : ∀ {channel : IpcIoChannel}, (channel.WellFormed ∧ ∀ page, channel.names page =
      (system.channel w).names page) → Accounted pool (system.setChannel w channel) := by
    intro channel unchanged
    exact inv.setChannel unchanged.1 fun page => by rw [unchanged.2 page]
  cases step with
  | call isWrite offset len =>
      obtain ⟨channel, changed, rfl⟩ := map_eq_some_iff.mp taken
      exact alone (IpcIoChannel.call_names form changed)
  | callbackReturns =>
      obtain ⟨channel, changed, rfl⟩ := map_eq_some_iff.mp taken
      exact alone (IpcIoChannel.callbackReturns_names form changed)
  | notification =>
      obtain ⟨channel, changed, rfl⟩ := map_eq_some_iff.mp taken
      exact alone (IpcIoChannel.notification_names form changed)
  | checkTimeouts =>
      obtain ⟨channel, changed, rfl⟩ := map_eq_some_iff.mp taken
      exact alone (IpcIoChannel.checkTimeouts_names form changed)
  | pop index =>
      obtain ⟨⟨channel, pages⟩, changed, rfl⟩ := map_eq_some_iff.mp taken
      obtain ⟨fits, given⟩ := IpcIoChannel.pop_names form kept changed
      refine inv.setChannel fits fun page => ?_
      have released := given page
      rw [count_append]
      push_cast
      omega
  | popFails =>
      obtain ⟨channel, changed, rfl⟩ := map_eq_some_iff.mp taken
      exact alone (IpcIoChannel.popFails_names form changed)
  | sweep =>
      obtain ⟨channel, changed, rfl⟩ := map_eq_some_iff.mp taken
      exact alone (IpcIoChannel.sweep_names form changed)
  | getPage page =>
      simp only [workerStep] at taken
      split at taken
      · rename_i free
        obtain ⟨channel, changed, rfl⟩ := map_eq_some_iff.mp taken
        obtain ⟨fits, given⟩ := IpcIoChannel.getPage_names form changed
        refine inv.setChannel fits fun number => ?_
        have gained := given number
        have lost := take_count free number
        omega
      · cases taken
  | queuePush full =>
      obtain ⟨channel, changed, rfl⟩ := map_eq_some_iff.mp taken
      exact alone (IpcIoChannel.queuePush_names form kept changed)

/-- A step of the disker on the request that it is handling. -/
theorem Accounted.setDisker (inv : Accounted pool system) {operation : DiskerOperation W}
    (served : operation.served = true)
    (moved : ∀ page, operation.message.names page + freePages.count page =
      system.diskerNames page + system.freePages.count page) :
    Accounted pool { system with disker := some operation, freePages := freePages } := by
  have unchanged : system.setChannel operation.worker (system.channel operation.worker) =
      system := by
    simp [IpcIoSystem.setChannel]
  have exchanged : Accounted pool { system.setChannel operation.worker
      (system.channel operation.worker) with
      disker := some operation, freePages := freePages } := by
    refine inv.exchange (inv.form.channel _) ?_ fun page => ?_
    · intro other busy unserved
      cases some.inj busy
      exact absurd served (by simp [unserved])
    · have difference := moved page
      have now : diskerNames page { system with disker := some operation } =
        operation.message.names page := rfl
      omega
  rwa [unchanged] at exchanged

theorem diskerPop_accounted (inv : Accounted pool system) {index : ℕ}
    (taken : system.diskerStep (.pop w index) = some after) : Accounted pool after := by
  simp only [diskerStep] at taken
  split at taken
  · rename_i message free popped
    have request := (inv.form.channel w).requests message (mem_of_getElem? popped)
    split at taken
    · rename_i unknown
      rcases request with ⟨read, _⟩ | write
      · exact absurd read unknown.1
      · exact absurd write unknown.2
    · cases taken
      refine inv.exchange ⟨fun queued member => ?_, (inv.form.channel w).sending⟩ ?_ fun page => ?_
      · exact (inv.form.channel w).requests queued (mem_of_mem_eraseIdx member)
      · intro operation busy unserved
        cases some.inj busy
        exact request
      · have fewer := queueNames_eraseIdx page popped
        simp only [diskerNames, free, IpcIoChannel.names, setChannel]
        omega
  · cases taken

/-- The disker answers through the response queue. -/
theorem diskerPush_accounted (inv : Accounted pool system) {full : Bool}
    (kept : system.HandsOver (.disker (.queuePush full)))
    (taken : system.diskerStep (.queuePush full) = some after) : Accounted pool after := by
  simp only [diskerStep] at taken
  split at taken
  · rename_i w message busy
    split at taken
    · rename_i overflow
      cases taken
      have pageless : message.page = none := kept overflow _ busy
      refine ⟨⟨inv.form.channel, by simp⟩, fun page => ?_⟩
      have total := inv.total page
      simp only [places, names, diskerNames, busy, IpcIoMsg.names, pageless] at total ⊢
      simpa using total
    · cases taken
      refine inv.exchange ⟨(inv.form.channel w).requests, (inv.form.channel w).sending⟩ (by simp)
        fun page => ?_
      simp only [diskerNames, busy, IpcIoChannel.names, setChannel, queueNames_append,
        queueNames_singleton]
      omega
  · cases taken

theorem diskerStep_accounted (inv : Accounted pool system) {step : DiskerStep W}
    (kept : system.HandsOver (.disker step)) (taken : system.diskerStep step = some after) :
    Accounted pool after := by
  cases step with
  | pop w index => exact diskerPop_accounted inv taken
  | read page result =>
      simp only [diskerStep] at taken
      split at taken
      · rename_i w message busy
        split at taken
        · rename_i ready
          cases taken
          have pageless : message.page = none := by
            rcases inv.form.disker _ busy rfl with ⟨_, none⟩ | write
            · exact none
            · exact absurd (ready.1.symm.trans write) (by decide)
          have gained : (diskerRead message page result).page = page := by
            cases page <;> cases result <;> simp [diskerRead, pageless]
          refine inv.setDisker rfl fun number => ?_
          have lost := take_count ready.2 number
          simp only [diskerNames, busy, IpcIoMsg.names_eq_count, gained, pageless]
          simp only [toList_none, count_nil]
          omega
        · cases taken
      · cases taken
  | write result =>
      simp only [diskerStep] at taken
      split at taken
      · rename_i w message busy
        split at taken
        · cases taken
        · cases taken
          have dropped : (diskerWrite message result).page = none := by
            cases result <;> rfl
          refine inv.setDisker rfl fun number => ?_
          simp only [diskerNames, busy, IpcIoMsg.names_eq_count, dropped, count_append]
          simp
      · cases taken
  | queuePush full => exact diskerPush_accounted inv kept taken

omit [DecidableEq W] in
/-- A page passes from the free ones to the cached ones, or back. -/
theorem Accounted.trade {free cached : List ℕ} (inv : Accounted pool system)
    (perm : (free ++ cached).Perm (system.freePages ++ system.cachePages)) :
    Accounted pool { system with freePages := free, cachePages := cached } := by
  refine ⟨⟨inv.form.channel, inv.form.disker⟩, fun number => ?_⟩
  have total := inv.total number
  have counts := perm.count_eq number
  rw [count_append, count_append] at counts
  rw [places] at total ⊢
  change (free.count number + cached.count number + system.names number : ℤ) = _
  omega

/-- A step that drops no message with a page keeps the account of every page. -/
theorem next_accounted {label : IpcIoLabel W} (inv : Accounted pool system)
    (kept : system.HandsOver label) (taken : system.next pageSize label = some after) :
    Accounted pool after := by
  cases label with
  | worker w step => exact workerStep_accounted inv kept taken
  | disker step => exact diskerStep_accounted inv kept taken
  | cacheGet page =>
      simp only [next] at taken
      split at taken
      · rename_i member
        cases taken
        exact inv.trade (List.perm_middle.trans ((perm_cons_erase member).symm.append_right _))
      · cases taken
  | cachePut page =>
      simp only [next] at taken
      split at taken
      · rename_i member
        cases taken
        exact inv.trade (List.perm_middle.symm.trans
          ((perm_cons_erase member).symm.append_left _))
      · cases taken

omit [DecidableEq W] in
theorem initial_accounted (pool : List ℕ) : Accounted pool (initial pool : IpcIoSystem W) := by
  refine ⟨⟨fun w => ⟨?_, trivial⟩, ?_⟩, fun page => ?_⟩
  · simp [initial, IpcIoChannel.opened]
  · simp [initial]
  · simp [places, names, diskerNames, initial, IpcIoChannel.opened, IpcIoChannel.names,
      IpcIoWorker.opened, IpcIoSending.names, queueNames]

/-- **Page accounting.** In every run in which no step drops a message with a page, no page is
free twice or free and in use, and every page used for I/O is named exactly once. -/
theorem pages_of_handsOver {pool : List ℕ} {labels : List (IpcIoLabel W)} (distinct : pool.Nodup)
    (kept : Allowed (next pageSize) HandsOver (initial pool) labels)
    (run : exec (next pageSize) (initial pool) labels = some system) :
    PagesAccounted pool system := by
  have accounted : Accounted pool system :=
    invariant_of_allowed next_accounted (initial_accounted pool) kept run
  exact accounted.pagesAccounted distinct

end Counting

/-- A write goes to the disk and a read comes back, with one page. -/
def tidyRun : List (IpcIoLabel Unit) :=
  [.worker () (.call true 0 4), .worker () .popFails, .worker () (.getPage (some 1)),
    .worker () (.queuePush false), .disker (.pop () 0), .disker (.write (.bytes 4)),
    .disker (.queuePush false), .worker () .notification, .worker () (.pop 0),
    .worker () .callbackReturns, .worker () .popFails,
    .worker () (.call false 0 4), .worker () .popFails, .worker () (.queuePush false),
    .disker (.pop () 0), .disker (.read (some 1) (.bytes 4)), .disker (.queuePush false)]

theorem pages_tidyRun :
    ∃ system, exec (next 4096) (initial [1]) tidyRun = some system ∧
      system.freePages = [] ∧ PagesAccounted [1] system := by
  have kept : Allowed (next 4096) HandsOver (initial [1]) tidyRun := by
    repeat' refine Allowed.cons ?_ rfl ?_
    all_goals try trivial
    · intro full
      cases full
    · intro full
      cases full
    · intro response page popped named
      cases popped
      cases named
    · intro full
      cases full
    · intro full
      cases full
  exact ⟨_, rfl, rfl, pages_of_handsOver (by decide) kept rfl⟩

/-- The answer to a read comes after the read was given up. -/
def lateRun : List (IpcIoLabel Unit) :=
  [.worker () (.call false 0 4), .worker () .popFails, .worker () (.queuePush false),
    .worker () .checkTimeouts, .worker () .popFails, .worker () .sweep,
    .worker () .checkTimeouts, .worker () .popFails, .worker () .sweep,
    .worker () .callbackReturns, .worker () .sweep,
    .disker (.pop () 0), .disker (.read (some 1) (.bytes 4)), .disker (.queuePush false),
    .worker () .notification, .worker () (.pop 0)]

/-- A write finds the request queue full. -/
def overflowRun : List (IpcIoLabel Unit) :=
  [.worker () (.call true 0 4), .worker () .popFails, .worker () (.getPage (some 1)),
    .worker () (.queuePush true)]

/-- A late answer and a full request queue each lose the page: it is not free, and nothing names
it. -/
theorem pages_lateRun_overflowRun :
    (∃ system, exec (next 4096) (initial [1]) lateRun = some system ∧
      ¬PagesAccounted [1] system) ∧
    ∃ system, exec (next 4096) (initial [1]) overflowRun = some system ∧
      ¬PagesAccounted [1] system := by
  constructor
  · refine ⟨_, rfl, fun accounted => ?_⟩
    have once := accounted.once 1 (by decide) (by decide) (by decide)
    exact absurd once (by decide)
  · refine ⟨_, rfl, fun accounted => ?_⟩
    have once := accounted.once 1 (by decide) (by decide) (by decide)
    exact absurd once (by decide)

end IpcIoSystem

end Squid
