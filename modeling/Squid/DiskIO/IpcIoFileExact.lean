import Squid.DiskIO.IpcIoFileIds
import Mathlib.Tactic.Tauto

/-!
# One completion for every request

Every step of the system keeps the books of every worker, provided that it is orderly: a call finds
no request or message as old as a round of the id counter, no callback makes a request while
`push` pops responses, and no response takes out a request that the running timeout check has
already completed.  The code guards against none of the three.
-/

namespace Squid

open List Option

/-- The id of a message and the request it belongs to. -/
def IpcIoMsg.tag (message : IpcIoMsg) : ℕ × ℕ := (message.requestId, message.request)

namespace IpcIoChannel

open IpcIoWorker

variable {channel after : IpcIoChannel} {held : List (ℕ × ℕ)}

/-- The messages in the two queues. -/
def tags (channel : IpcIoChannel) : List (ℕ × ℕ) :=
  (channel.requests ++ channel.responses).map IpcIoMsg.tag

/-- The bookkeeping of the worker, given the messages held by the disker. -/
def Booked (channel : IpcIoChannel) (held : List (ℕ × ℕ)) : Prop :=
  Tracked channel.worker (channel.tags ++ held)

section

variable (inv : channel.Booked held)
include inv

theorem call_booked {isWrite : Bool} {offset len : ℕ}
    (fits : ∀ serial ∈ channel.worker.openSerials ++ (channel.tags ++ held).map Prod.snd,
      channel.worker.file.made + 1 < serial + IpcIoFile.idPeriod)
    (step : channel.call isWrite offset len = some after) : after.Booked held := by
  unfold call at step
  split at step
  · rename_i ready
    cases step
    have idle : channel.worker.sending = none := by
      have running := ready.1
      unfold inRequestor at running
      split at running <;> simp_all
    exact Tracked.call inv isWrite offset len idle fits
  · cases step

theorem callbackReturns_booked (step : channel.callbackReturns = some after) :
    after.Booked held := by
  unfold callbackReturns at step
  split at step
  · rename_i rest idle stack
    cases step
    refine Tracked.move inv rfl rfl ?_ (fun tag member => member) (by simp [SendingOk, idle])
    simp [waitingSerials, stack, IpcIoFrame.serials]
  · cases step

theorem notification_booked (step : channel.notification = some after) : after.Booked held := by
  unfold notification at step
  split at step
  · rename_i idle stack event
    cases step
    refine Tracked.move inv rfl ?_ (List.Perm.refl _) (fun tag member => member)
      (by simp [SendingOk, idle])
    simp [unswept, event]
  · cases step

theorem checkTimeouts_booked (step : channel.checkTimeouts = some after) : after.Booked held := by
  unfold checkTimeouts at step
  split at step
  · rename_i idle stack event
    cases step
    refine Tracked.transfer inv [] [] rfl rfl (fun entry member => member) rfl
      (List.Perm.refl _) ?_ (by simp) (by simp) (fun tag member => member)
      (by simp [SendingOk, idle])
    have unswept_before : channel.worker.unswept = channel.worker.file.olderRequests.entries := by
      simp only [unswept, event]
    rw [liveSerials, unswept_before]
    exact List.Perm.refl _
  · cases step

theorem pop_booked {index : ℕ} {pages : List ℕ}
    (unswept : ∀ requestId response, channel.worker.event = .sweep requestId →
      channel.responses[index]? = some response →
      response.requestId ∈ channel.worker.file.olderRequests.keys → requestId < response.requestId)
    (step : channel.pop index = some (after, pages)) : after.Booked held := by
  unfold pop at step
  split at step
  · rename_i running
    have idle : channel.worker.sending = none := by
      unfold inHandleResponses at running
      split at running <;> simp_all
    split at step
    · rename_i response popped
      split at step
      · cases step
        have less : ∀ tag ∈ ({ channel with
            responses := channel.responses.eraseIdx index } : IpcIoChannel).tags ++ held,
            tag ∈ channel.tags ++ held := by
          intro tag member
          rcases mem_append.mp member with queued | other
          · refine mem_append_left _ ?_
            refine map_subset _ (append_subset.mpr ⟨?_, ?_⟩) queued
            · exact subset_append_left _ _
            · exact fun entry inside => mem_append_right _ (mem_of_mem_eraseIdx inside)
          · exact mem_append_right _ other
        unfold handleResponse
        split
        · rename_i file pending found
          refine Tracked.complete_response inv found ?_
            (fun requestId sweeping => unswept requestId response sweeping popped) idle less
          refine mem_append_left _ (List.mem_map_of_mem (mem_append_right _ ?_))
          exact mem_of_getElem? popped
        · exact Tracked.move inv rfl rfl (List.Perm.refl _) less (by simp [SendingOk, idle])
      · cases step
    · cases step
  · cases step

theorem popFails_booked {pageSize : ℕ}
    (latest : ∀ pending rest, channel.worker.stack = .push pending :: rest →
      pending.serial = channel.worker.file.made) (step : channel.popFails pageSize = some after) :
    after.Booked held := by
  unfold popFails at step
  split at step
  · split at step
    · rename_i _ pending rest idle stack
      cases step
      have newest := latest pending rest stack
      have waiting : channel.worker.waitingSerials =
          pending.serial :: ({ channel.worker with stack := rest } : IpcIoWorker).waitingSerials := by
        simp only [waitingSerials, stack, idle]
        rfl
      have own_id : channel.worker.file.lastRequestId = IpcIoFile.idOf pending.serial := by
        rw [Tracked.counter inv, newest]
      have to_sending : ∀ sending, IpcIoSending.serials (some sending) = [pending.serial] →
          channel.worker.waitingSerials.Perm ({ channel.worker with
            stack := rest, sending := some sending } : IpcIoWorker).waitingSerials := by
        intro sending serials
        rw [waiting]
        simp only [waitingSerials, serials, idle]
        simpa [IpcIoSending.serials] using (perm_append_singleton _ _).symm
      show Tracked (prepare pageSize { channel.worker with stack := rest } pending) _
      unfold prepare
      split
      · split
        · exact Tracked.move inv rfl rfl (to_sending _ rfl) (fun tag member => member)
            ⟨newest, own_id⟩
        · exact Tracked.complete_none inv _ rfl rfl idle (waiting ▸ List.Perm.refl _)
            (fun tag member => member)
      · exact Tracked.move inv rfl rfl (to_sending _ rfl) (fun tag member => member)
          ⟨newest, own_id, rfl⟩
    · rename_i idle stack event
      cases step
      refine Tracked.move inv rfl ?_ (List.Perm.refl _) (fun tag member => member)
        (by simp [SendingOk, idle])
      simp [unswept, event]
    · rename_i idle stack event
      cases step
      refine Tracked.move inv rfl ?_ (List.Perm.refl _) (fun tag member => member)
        (by simp [SendingOk, idle])
      simp only [unswept, event]
      refine filter_eq_self.mpr fun entry inside => ?_
      have member : entry ∈ channel.worker.file.tracked := mem_append_left _ inside
      rw [Tracked.keys inv entry member]
      simpa using IpcIoFile.idOf_pos (Tracked.recent_tracked inv member).positive
    · cases step
  · cases step

theorem sweep_booked (step : channel.sweep = some after) : after.Booked held := by
  unfold sweep at step
  split at step
  · rename_i requestId idle stack event
    cases step
    exact Tracked.sweepOn inv event idle
  · cases step

theorem getPage_booked {page : Option ℕ} (step : channel.getPage page = some after) :
    after.Booked held := by
  unfold getPage at step
  split at step
  · rename_i pending requestId sending
    have ready : pending.serial = channel.worker.file.made ∧
        requestId = IpcIoFile.idOf pending.serial := by
      simpa [SendingOk, sending] using Tracked.sending inv
    split at step
    · cases step
      refine Tracked.move inv rfl rfl ?_ (fun tag member => member) ⟨ready.1, ready.2, rfl⟩
      simp [waitingSerials, sending, IpcIoSending.serials]
    · cases step
      refine Tracked.complete_none inv _ rfl rfl rfl ?_ (fun tag member => member)
      simp only [waitingSerials, sending, IpcIoSending.serials, append_nil]
      exact perm_append_singleton _ _
  · cases step

theorem queuePush_booked {full : Bool} (step : channel.queuePush full = some after) :
    after.Booked held := by
  unfold queuePush at step
  split at step
  · rename_i pending message sending
    cases full with
    | true =>
        cases step
        refine Tracked.complete_none inv { channel.worker with sending := none } rfl rfl rfl ?_
          (fun tag member => member)
        simp only [waitingSerials, sending, IpcIoSending.serials, append_nil]
        exact perm_append_singleton _ _
    | false =>
        cases step
        refine Tracked.track inv sending fun tag member => ?_
        simp only [tags, map_append, map_cons, map_nil, mem_append,
          mem_singleton, IpcIoMsg.tag] at member ⊢
        tauto
  · cases step

/-- The same worker with fewer messages on their way. -/
theorem Booked.fewer {elsewhere : List (ℕ × ℕ)} (worker : after.worker = channel.worker)
    (less : ∀ tag ∈ after.tags ++ elsewhere, tag ∈ channel.tags ++ held) : after.Booked elsewhere :=
  Tracked.move inv (by rw [worker]) (by rw [worker]) (by rw [worker]) less
    (by rw [worker]; exact Tracked.sending inv)

end

end IpcIoChannel

@[simp]
theorem diskerRead_tag (message : IpcIoMsg) (page : Option ℕ) (result : DiskResult) :
    (diskerRead message page result).tag = message.tag := by
  cases page <;> cases result <;> rfl

@[simp]
theorem diskerWrite_tag (message : IpcIoMsg) (result : DiskResult) :
    (diskerWrite message result).tag = message.tag := by
  cases result <;> rfl

namespace IpcIoSystem

open LabelledRun

variable {W : Type*} [DecidableEq W] {pageSize : ℕ} {system after : IpcIoSystem W}

/-- The message of a worker that the disker is handling. -/
def diskerTags (system : IpcIoSystem W) (w : W) : List (ℕ × ℕ) :=
  match system.disker with
  | some operation => if operation.worker = w then [operation.message.tag] else []
  | none => []

/-- The messages of a worker that are on their way to the disker or back. -/
def flight (system : IpcIoSystem W) (w : W) : List (ℕ × ℕ) :=
  (system.channel w).tags ++ system.diskerTags w

/-- The steps that keep requests and responses together. -/
def Orderly (system : IpcIoSystem W) : IpcIoLabel W → Prop
  -- the counter has not come round to a request or message that is still about
  | .worker w (.call _ _ _) =>
      ∀ serial ∈ (system.channel w).worker.openSerials ++ (system.flight w).map Prod.snd,
        (system.channel w).worker.file.made + 1 < serial + IpcIoFile.idPeriod
  -- no callback made a request while `push` was popping responses
  | .worker w .popFails =>
      ∀ pending rest, (system.channel w).worker.stack = .push pending :: rest →
        pending.serial = (system.channel w).worker.file.made
  -- the response is not for a request that the running timeout check has completed
  | .worker w (.pop index) =>
      ∀ requestId response, (system.channel w).worker.event = .sweep requestId →
        (system.channel w).responses[index]? = some response →
        response.requestId ∈ (system.channel w).worker.file.olderRequests.keys →
        requestId < response.requestId
  | _ => True

/-- The books of every worker are in order. -/
def Booked (system : IpcIoSystem W) : Prop :=
  ∀ w, (system.channel w).Booked (system.diskerTags w)

theorem Booked.setChannel (inv : system.Booked) {w : W} {channel : IpcIoChannel}
    (booked : channel.Booked (system.diskerTags w)) : (system.setChannel w channel).Booked := by
  intro v
  by_cases same : v = w
  · subst same
    simpa [IpcIoSystem.setChannel, diskerTags] using booked
  · simpa [IpcIoSystem.setChannel, diskerTags, Function.update_of_ne same] using inv v

theorem workerStep_booked (inv : system.Booked) {w : W} {step : IpcIoWorkerStep}
    (orderly : system.Orderly (.worker w step))
    (taken : system.workerStep pageSize w step = some after) : after.Booked := by
  cases step with
  | call isWrite offset len =>
      obtain ⟨channel, changed, rfl⟩ := map_eq_some_iff.mp taken
      exact inv.setChannel (IpcIoChannel.call_booked (inv w) orderly changed)
  | callbackReturns =>
      obtain ⟨channel, changed, rfl⟩ := map_eq_some_iff.mp taken
      exact inv.setChannel (IpcIoChannel.callbackReturns_booked (inv w) changed)
  | notification =>
      obtain ⟨channel, changed, rfl⟩ := map_eq_some_iff.mp taken
      exact inv.setChannel (IpcIoChannel.notification_booked (inv w) changed)
  | checkTimeouts =>
      obtain ⟨channel, changed, rfl⟩ := map_eq_some_iff.mp taken
      exact inv.setChannel (IpcIoChannel.checkTimeouts_booked (inv w) changed)
  | pop index =>
      obtain ⟨⟨channel, pages⟩, changed, rfl⟩ := map_eq_some_iff.mp taken
      exact inv.setChannel (IpcIoChannel.pop_booked (inv w) orderly changed)
  | popFails =>
      obtain ⟨channel, changed, rfl⟩ := map_eq_some_iff.mp taken
      exact inv.setChannel (IpcIoChannel.popFails_booked (inv w) orderly changed)
  | sweep =>
      obtain ⟨channel, changed, rfl⟩ := map_eq_some_iff.mp taken
      exact inv.setChannel (IpcIoChannel.sweep_booked (inv w) changed)
  | getPage page =>
      simp only [workerStep] at taken
      split at taken
      · obtain ⟨channel, changed, rfl⟩ := map_eq_some_iff.mp taken
        exact inv.setChannel (IpcIoChannel.getPage_booked (inv w) changed)
      · cases taken
  | queuePush full =>
      obtain ⟨channel, changed, rfl⟩ := map_eq_some_iff.mp taken
      exact inv.setChannel (IpcIoChannel.queuePush_booked (inv w) changed)

/-- The steps of the disker only pass messages on, answer them or lose them. -/
theorem diskerStep_flight {step : DiskerStep W} (taken : system.diskerStep step = some after)
    (w : W) : (after.channel w).worker = (system.channel w).worker ∧
      ∀ tag ∈ after.flight w, tag ∈ system.flight w := by
  cases step with
  | pop v index =>
      simp only [diskerStep] at taken
      split at taken
      · rename_i message free popped
        have queued : message.tag ∈ (system.channel v).requests.map IpcIoMsg.tag :=
          List.mem_map_of_mem (mem_of_getElem? popped)
        have fewer : ∀ tag ∈ ((system.channel v).requests.eraseIdx index).map IpcIoMsg.tag,
            tag ∈ (system.channel v).requests.map IpcIoMsg.tag := by
          intro tag member
          obtain ⟨inside, left, rfl⟩ := List.mem_map.mp member
          exact List.mem_map_of_mem (mem_of_mem_eraseIdx left)
        by_cases same : w = v
        · subst same
          split at taken <;> cases taken <;>
            refine ⟨by simp [setChannel], fun tag member => ?_⟩ <;>
            simp only [flight, IpcIoChannel.tags, diskerTags, setChannel, free,
              Function.update_self, if_pos, map_append, mem_append, append_nil,
              mem_singleton] at member ⊢
          · exact member.imp_left (fewer tag)
          · rcases member with (left | answered) | rfl
            · exact Or.inl (fewer tag left)
            · exact Or.inr answered
            · exact Or.inl queued
        · split at taken <;> cases taken <;>
            simp [flight, diskerTags, setChannel, free, Function.update_of_ne same, Ne.symm same]
      · cases taken
  | read page result =>
      simp only [diskerStep] at taken
      split at taken
      · rename_i v message busy
        split at taken
        · cases taken
          simp [flight, diskerTags, busy]
        · cases taken
      · cases taken
  | write result =>
      simp only [diskerStep] at taken
      split at taken
      · rename_i v message busy
        split at taken
        · cases taken
        · cases taken
          simp [flight, diskerTags, busy]
      · cases taken
  | queuePush full =>
      simp only [diskerStep] at taken
      split at taken
      · rename_i v message busy
        split at taken
        · cases taken
          refine ⟨rfl, fun tag member => ?_⟩
          simp only [flight, diskerTags, append_nil] at member ⊢
          exact mem_append_left _ member
        · cases taken
          by_cases same : w = v
          · subst same
            refine ⟨by simp [setChannel], fun tag member => ?_⟩
            simp only [flight, IpcIoChannel.tags, diskerTags, setChannel, busy, if_pos,
              Function.update_self, map_append, map_cons, map_nil,
              mem_append, mem_singleton, not_mem_nil, or_false] at member ⊢
            tauto
          · simp [flight, diskerTags, setChannel, busy, Function.update_of_ne same, Ne.symm same]
      · cases taken

/-- One orderly step keeps the books of every worker. -/
theorem next_booked {label : IpcIoLabel W} (inv : system.Booked) (orderly : system.Orderly label)
    (taken : system.next pageSize label = some after) : after.Booked := by
  cases label with
  | worker w step => exact workerStep_booked inv orderly taken
  | disker step =>
      intro w
      obtain ⟨worker, less⟩ := diskerStep_flight taken w
      exact (inv w).fewer worker less
  | cacheGet page | cachePut page =>
      simp only [next] at taken
      split at taken
      · cases taken
        exact inv
      · cases taken

theorem initial_booked (pool : List ℕ) : (initial pool : IpcIoSystem W).Booked := by
  intro w
  constructor <;>
    simp [initial, IpcIoChannel.opened, IpcIoWorker.opened, IpcIoFile.opened, diskerTags,
      IpcIoChannel.tags, IpcIoFile.idOf, IpcIoFile.tracked, IpcIoFile.olderRequests,
      IpcIoFile.newerRequests, IpcIoWorker.openSerials, IpcIoWorker.liveSerials,
      IpcIoWorker.unswept, IpcIoWorker.waitingSerials, IpcIoSending.serials,
      IpcIoFile.completedSerials, IpcIoWorker.SendingOk]

/-- **Exact completion.** In every run of orderly steps, the requests of a worker's maps have
different ids, no request is completed twice, and a response completes the request it answers. -/
theorem exact_of_orderly {pool : List ℕ} {labels : List (IpcIoLabel W)}
    (orderly : Allowed (next pageSize) Orderly (initial pool) labels)
    (run : exec (next pageSize) (initial pool) labels = some system) (w : W) :
    (system.channel w).worker.file.Exact := by
  have booked : system.Booked :=
    invariant_of_allowed next_booked (initial_booked pool) orderly run
  exact (booked w).exact_file

/-- A worker reads, the disker answers and the worker pops the answer. -/
def answeredRun : List (IpcIoLabel Unit) :=
  [.worker () (.call false 0 4), .worker () .popFails, .worker () (.queuePush false),
    .disker (.pop () 0), .disker (.read (some 1) (.bytes 4)), .disker (.queuePush false),
    .worker () .notification, .worker () (.pop 0)]

theorem exact_answeredRun :
    ∃ system, exec (next 4096) (initial [1]) answeredRun = some system ∧
      (system.channel ()).worker.file.completedSerials = [1] ∧
      (system.channel ()).worker.file.Exact := by
  have orderly : Allowed (next 4096) Orderly (initial [1]) answeredRun := by
    repeat' refine Allowed.cons ?_ rfl ?_
    -- only the call, the end of the pops before it and the pop of the answer have a condition
    · intro serial member
      cases member
    · intro pending rest stack
      cases stack
      rfl
    all_goals try trivial
    intro requestId response sweeping
    cases sweeping
  exact ⟨_, rfl, rfl, exact_of_orderly orderly rfl ()⟩

/-- The second timeout check gives up a read whose callback reads again; the `push` of the new
read pops the answer to the old one, which completes a second time. -/
def sweptRun : List (IpcIoLabel Unit) :=
  [.worker () (.call false 0 4), .worker () .popFails, .worker () (.queuePush false),
    .worker () .checkTimeouts, .worker () .popFails, .worker () .sweep,
    .worker () .checkTimeouts, .worker () .popFails, .worker () .sweep,
    .disker (.pop () 0), .disker (.read (some 1) (.bytes 4)), .disker (.queuePush false),
    .worker () (.call false 4 4), .worker () (.pop 0)]

/-- A read pops the answer to an earlier one, whose callback reads again.  The two new requests
share an id; the answer to the inner one is lost to a full queue, and the answer to the outer one
completes the inner one. -/
def mixedRun : List (IpcIoLabel Unit) :=
  [.worker () (.call false 0 4), .worker () .popFails, .worker () (.queuePush false),
    .disker (.pop () 0), .disker (.read (some 1) (.bytes 4)), .disker (.queuePush false),
    .worker () (.call false 4 4), .worker () (.pop 0), .worker () (.call false 8 4),
    .worker () .popFails, .worker () (.queuePush false), .worker () .callbackReturns,
    .worker () .popFails, .worker () (.queuePush false),
    .disker (.pop () 0), .disker (.read (some 1) (.bytes 4)), .disker (.queuePush true),
    .disker (.pop () 0), .disker (.read (some 2) (.bytes 4)), .disker (.queuePush false),
    .worker () .notification, .worker () (.pop 0)]

/-- A request is completed twice, and a request gets the answer to another one. -/
theorem not_exact_sweptRun_mixedRun :
    (∃ system, exec (next 4096) (initial [1]) sweptRun = some system ∧
      (system.channel ()).worker.file.completedSerials = [1, 1] ∧
      ¬(system.channel ()).worker.file.Exact) ∧
    (∃ system, exec (next 4096) (initial [1, 2]) mixedRun = some system ∧
      ¬(system.channel ()).worker.file.Exact) := by
  refine ⟨⟨_, rfl, rfl, fun exact_file => ?_⟩, ⟨_, rfl, fun exact_file => ?_⟩⟩
  · have once : [1, 1].Nodup := exact_file.once
    exact absurd once (by decide)
  · have answer := exact_file.own _ mem_cons_self _ rfl
    exact absurd answer (by decide)

end IpcIoSystem

end Squid
