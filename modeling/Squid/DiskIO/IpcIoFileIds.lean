import Squid.DiskIO.IpcIoFile
import Mathlib.Data.List.Nodup

/-!
# Requests and their answers

The requests of a worker are numbered in the order in which they are made, and request number `n`
should travel under the id that the counter had at that moment.  As long as it does, as long as no
request or message outlives a whole round of the counter, and as long as no response takes out a
request that the timeout check has already completed, ids separate the outstanding requests and
every completion is the only one of its request.
-/

namespace Squid

namespace IpcIoFile

/-- Number of ids before the counter repeats. -/
def idPeriod : ℕ := 2 ^ 32 - 1

/-- The counter after `made` requests. -/
def idOf : ℕ → ℕ
  | 0 => 0
  | earlier + 1 => earlier % idPeriod + 1

theorem nextRequestId_idOf (made : ℕ) : nextRequestId (idOf made) = idOf (made + 1) := by
  cases made with
  | zero => decide
  | succ earlier =>
      have current : idOf (earlier + 1) = earlier % idPeriod + 1 := rfl
      have following : idOf (earlier + 1 + 1) = (earlier + 1) % idPeriod + 1 := rfl
      rw [nextRequestId, current, following, idModulus, idPeriod]
      split <;> omega

theorem idOf_pos {serial : ℕ} (positive : 0 < serial) : 0 < idOf serial := by
  cases serial with
  | zero => exact absurd positive (lt_irrefl 0)
  | succ earlier => exact Nat.succ_pos _

/-- Two requests within one round of the counter have different ids. -/
theorem idOf_injective {made first second : ℕ} (first_pos : 0 < first) (second_pos : 0 < second)
    (first_le : first ≤ made) (second_le : second ≤ made) (first_near : made < first + idPeriod)
    (second_near : made < second + idPeriod) (same : idOf first = idOf second) :
    first = second := by
  obtain ⟨a, rfl⟩ := Nat.exists_eq_succ_of_ne_zero first_pos.ne'
  obtain ⟨b, rfl⟩ := Nat.exists_eq_succ_of_ne_zero second_pos.ne'
  simp only [idOf, idPeriod] at *
  omega

/-- All requests in the two maps. -/
def tracked (file : IpcIoFile) : List (ℕ × IpcIoPendingRequest) :=
  file.olderRequests.entries ++ file.newerRequests.entries

/-- The dequeued request comes out of the older or of the newer requests. -/
theorem dequeueRequest_cases {file rest : IpcIoFile} {requestId : ℕ}
    {pending : IpcIoPendingRequest} (found : file.dequeueRequest requestId = some (rest, pending)) :
    (file.olderRequests.find requestId = some pending ∧
        rest.olderRequests = file.olderRequests.erase requestId ∧
        rest.newerRequests = file.newerRequests) ∨
      (file.newerRequests.find requestId = some pending ∧
        rest.newerRequests = file.newerRequests.erase requestId ∧
        rest.olderRequests = file.olderRequests) := by
  unfold dequeueRequest at found
  split at found
  · rename_i stored here
    cases found
    cases first : file.olderIsFirst <;> simp [olderRequests, newerRequests, first, here]
  · split at found
    · rename_i stored here
      cases found
      cases first : file.olderIsFirst <;> simp [olderRequests, newerRequests, first, here]
    · cases found

/-- Dequeuing touches nothing but the maps. -/
theorem dequeueRequest_frame {file rest : IpcIoFile} {requestId : ℕ}
    {pending : IpcIoPendingRequest} (found : file.dequeueRequest requestId = some (rest, pending)) :
    rest.made = file.made ∧ rest.lastRequestId = file.lastRequestId ∧
      rest.completed = file.completed := by
  unfold dequeueRequest at found
  split at found
  · cases found
    exact ⟨rfl, rfl, rfl⟩
  · split at found
    · cases found
      exact ⟨rfl, rfl, rfl⟩
    · cases found

theorem dequeueRequest_tracked {file rest : IpcIoFile} {requestId : ℕ}
    {pending : IpcIoPendingRequest} (found : file.dequeueRequest requestId = some (rest, pending)) :
    file.tracked.Perm ((requestId, pending) :: rest.tracked) := by
  rcases dequeueRequest_cases found with ⟨here, older, newer⟩ | ⟨here, newer, older⟩
  · rw [tracked, tracked, older, newer]
    exact (OrderedMap.erase_perm here).append_right _
  · rw [tracked, tracked, older, newer]
    exact ((OrderedMap.erase_perm here).append_left _).trans List.perm_middle

/-- The numbers of the completed requests, once for every completion. -/
def completedSerials (file : IpcIoFile) : List ℕ :=
  file.completed.map fun completion => completion.pending.serial

section

variable (file : IpcIoFile)
include file

/-- After a check the newer requests are the older ones. -/
@[simp]
theorem finishCheck_olderRequests : file.finishCheck.olderRequests = file.newerRequests := by
  cases first : file.olderIsFirst <;> simp [finishCheck, olderRequests, newerRequests, first]

@[simp]
theorem finishCheck_newerRequests : file.finishCheck.newerRequests = OrderedMap.empty := by
  cases first : file.olderIsFirst <;> simp [finishCheck, newerRequests, first]

theorem finishCheck_frame :
    file.finishCheck.made = file.made ∧ file.finishCheck.lastRequestId = file.lastRequestId ∧
      file.finishCheck.completed = file.completed := by
  cases first : file.olderIsFirst <;> simp [finishCheck, first]

/-- A tracked request enters the newer ones under the last id. -/
theorem trackPendingRequest_maps (pending : IpcIoPendingRequest) :
    (file.trackPendingRequest pending).olderRequests = file.olderRequests ∧
      (file.trackPendingRequest pending).newerRequests =
        file.newerRequests.insert file.lastRequestId pending := by
  cases first : file.olderIsFirst <;>
    simp [trackPendingRequest, olderRequests, newerRequests, first]

theorem trackPendingRequest_frame (pending : IpcIoPendingRequest) :
    (file.trackPendingRequest pending).made = file.made ∧
      (file.trackPendingRequest pending).lastRequestId = file.lastRequestId ∧
      (file.trackPendingRequest pending).completed = file.completed := by
  cases first : file.olderIsFirst <;> simp [trackPendingRequest, first]

/-- Completing a request adds one record about it. -/
theorem completeIo_completed (pending : IpcIoPendingRequest) (response : Option IpcIoMsg) :
    ∃ completion, (file.completeIo pending response).completed = [completion] ++ file.completed ∧
      completion.pending = pending ∧ completion.response = response :=
  ⟨_, rfl, rfl, rfl⟩

end

/-- The file's bookkeeping: different ids, one completion each, the right answers. -/
structure Exact (file : IpcIoFile) : Prop where
  /-- No two requests in the maps share an id. -/
  distinct : (file.requestMap1.keys ++ file.requestMap2.keys).Nodup
  /-- No request is completed twice. -/
  once : file.completedSerials.Nodup
  /-- A response completes the request that it answers. -/
  own : ∀ completion ∈ file.completed, ∀ response, completion.response = some response →
    response.request = completion.pending.serial

end IpcIoFile

/-- The requests held by an activation. -/
def IpcIoFrame.serials : IpcIoFrame → List ℕ
  | .callback => []
  | .push pending => [pending.serial]

/-- The request being sent. -/
def IpcIoSending.serials : Option IpcIoSending → List ℕ
  | none => []
  | some (.page pending _) => [pending.serial]
  | some (.queue pending _) => [pending.serial]

namespace IpcIoWorker

/-- The older requests that a running timeout check has not completed yet. -/
def unswept (worker : IpcIoWorker) : List (ℕ × IpcIoPendingRequest) :=
  match worker.event with
  | .sweep requestId => worker.file.olderRequests.beyond requestId
  | _ => worker.file.olderRequests.entries

/-- The requests inside calls of `push`. -/
def waitingSerials (worker : IpcIoWorker) : List ℕ :=
  worker.stack.flatMap IpcIoFrame.serials ++ IpcIoSending.serials worker.sending

/-- The requests in the maps and inside calls of `push`. -/
def openSerials (worker : IpcIoWorker) : List ℕ :=
  worker.file.tracked.map (fun entry => entry.2.serial) ++ worker.waitingSerials

/-- The requests that are still to be completed. -/
def liveSerials (worker : IpcIoWorker) : List ℕ :=
  (worker.unswept ++ worker.file.newerRequests.entries).map (fun entry => entry.2.serial) ++
    worker.waitingSerials

/-- The id taken by the `push` in its last part is the one of its request. -/
def SendingOk (worker : IpcIoWorker) : Prop :=
  match worker.sending with
  | none => True
  | some (.page pending requestId) =>
      pending.serial = worker.file.made ∧ requestId = IpcIoFile.idOf pending.serial
  | some (.queue pending message) =>
      pending.serial = worker.file.made ∧ message.requestId = IpcIoFile.idOf pending.serial ∧
        message.request = pending.serial

/-- A request number that the counter has not come round to again. -/
structure Recent (worker : IpcIoWorker) (serial : ℕ) : Prop where
  positive : 0 < serial
  made : serial ≤ worker.file.made
  near : worker.file.made < serial + IpcIoFile.idPeriod

/-- The bookkeeping of a worker with messages in flight, each given by its id and its request. -/
structure Tracked (worker : IpcIoWorker) (flight : List (ℕ × ℕ)) : Prop where
  /-- The counter follows the number of requests. -/
  counter : worker.file.lastRequestId = IpcIoFile.idOf worker.file.made
  /-- Requests are tracked under their ids. -/
  keys : ∀ entry ∈ worker.file.tracked, entry.1 = IpcIoFile.idOf entry.2.serial
  /-- Messages carry the ids of their requests. -/
  messages : ∀ tag ∈ flight, tag.1 = IpcIoFile.idOf tag.2
  /-- Nothing outstanding is older than a round of the counter. -/
  recent : ∀ serial ∈ worker.openSerials ++ flight.map Prod.snd, worker.Recent serial
  /-- Completed requests were made. -/
  past : ∀ serial ∈ worker.file.completedSerials, serial ≤ worker.file.made
  /-- The message under construction has the right id. -/
  sending : worker.SendingOk
  /-- The outstanding requests are different. -/
  separate : worker.openSerials.Nodup
  /-- A request is completed once or still to be completed. -/
  account : (worker.file.completedSerials ++ worker.liveSerials).Nodup
  /-- Responses went to the requests they answer. -/
  own : ∀ completion ∈ worker.file.completed, ∀ response,
    completion.response = some response → response.request = completion.pending.serial

namespace Tracked

variable {worker after : IpcIoWorker} {flight remaining : List (ℕ × ℕ)}

theorem Recent.eq_of_id {first second : ℕ} (left : worker.Recent first)
    (right : worker.Recent second) (same : IpcIoFile.idOf first = IpcIoFile.idOf second) :
    first = second :=
  IpcIoFile.idOf_injective left.positive right.positive left.made right.made left.near right.near
    same

section

variable (inv : Tracked worker flight)
include inv

theorem recent_tracked {entry : ℕ × IpcIoPendingRequest} (member : entry ∈ worker.file.tracked) :
    worker.Recent entry.2.serial := by
  refine inv.recent _ (List.mem_append_left _ (List.mem_append_left _ ?_))
  exact List.mem_map_of_mem member

theorem recent_flight {tag : ℕ × ℕ} (member : tag ∈ flight) : worker.Recent tag.2 :=
  inv.recent _ (List.mem_append_right _ (List.mem_map_of_mem member))

/-- Requests tracked under one id are the same. -/
theorem serial_eq_of_key {first second : ℕ × IpcIoPendingRequest}
    (left : first ∈ worker.file.tracked) (right : second ∈ worker.file.tracked)
    (same : first.1 = second.1) : first.2.serial = second.2.serial := by
  apply Recent.eq_of_id (inv.recent_tracked left) (inv.recent_tracked right)
  rw [← inv.keys first left, ← inv.keys second right, same]

/-- The bookkeeping makes the file's record exact. -/
theorem exact_file : worker.file.Exact := by
  refine ⟨?_, (List.nodup_append.mp inv.account).1, inv.own⟩
  have serials : (worker.file.tracked.map fun entry => entry.2.serial).Nodup :=
    (List.nodup_append.mp inv.separate).1
  have across : (worker.file.tracked.map Prod.fst).Nodup := by
    refine List.Nodup.map_on ?_ (List.Nodup.of_map _ serials)
    intro first left second right same
    exact List.inj_on_of_nodup_map serials left right (inv.serial_eq_of_key left right same)
  simp only [IpcIoFile.tracked, IpcIoFile.olderRequests, IpcIoFile.newerRequests,
    List.map_append] at across
  split at across
  · exact across
  · exact List.nodup_append_comm.mp across

/-- Steps that complete some requests and otherwise only move or drop them keep the books. -/
theorem transfer (done : List IpcIoCompletion) (gone : List ℕ)
    (made : after.file.made = worker.file.made)
    (counter : after.file.lastRequestId = worker.file.lastRequestId)
    (entries : ∀ entry ∈ after.file.tracked, entry ∈ worker.file.tracked)
    (completed : after.file.completed = done ++ worker.file.completed)
    (opened : worker.openSerials.Perm (gone ++ after.openSerials)) (live : worker.liveSerials.Perm
      (done.map (fun completion => completion.pending.serial) ++ after.liveSerials))
    (own : ∀ completion ∈ done, ∀ response, completion.response = some response →
      response.request = completion.pending.serial)
    (past : ∀ completion ∈ done, completion.pending.serial ≤ worker.file.made)
    (less : ∀ tag ∈ remaining, tag ∈ flight) (sending : after.SendingOk) :
    Tracked after remaining where
  counter := by rw [counter, made, inv.counter]
  keys := fun entry member => inv.keys entry (entries entry member)
  messages := fun tag member => inv.messages tag (less tag member)
  recent := by
    intro serial member
    have old : serial ∈ worker.openSerials ++ flight.map Prod.snd := by
      rcases List.mem_append.mp member with here | there
      · exact List.mem_append_left _ (opened.mem_iff.mpr (List.mem_append_right _ here))
      · obtain ⟨tag, inside, rfl⟩ := List.mem_map.mp there
        exact List.mem_append_right _ (List.mem_map_of_mem (less tag inside))
    obtain ⟨positive, before, near⟩ := inv.recent serial old
    exact ⟨positive, made ▸ before, made ▸ near⟩
  past := by
    intro serial member
    rw [IpcIoFile.completedSerials, completed, List.map_append] at member
    rw [made]
    rcases List.mem_append.mp member with new | old
    · obtain ⟨completion, inside, rfl⟩ := List.mem_map.mp new
      exact past completion inside
    · exact inv.past serial old
  sending := sending
  separate := (List.nodup_append.mp (opened.nodup_iff.mp inv.separate)).2.1
  account := by
    have moved := (live.append_left worker.file.completedSerials).nodup_iff.mp inv.account
    rw [← List.append_assoc] at moved
    have order : (worker.file.completedSerials ++
        done.map fun completion => completion.pending.serial).Perm
        ((done.map fun completion => completion.pending.serial) ++ worker.file.completedSerials) :=
      List.perm_append_comm
    rw [IpcIoFile.completedSerials, completed, List.map_append]
    exact (order.append_right after.liveSerials).nodup_iff.mp moved
  own := by
    intro completion member response answered
    rw [completed] at member
    rcases List.mem_append.mp member with new | old
    · exact own completion new response answered
    · exact inv.own completion old response answered

/-- Completing a request that was waiting inside `push`, without a response. -/
theorem complete_none {pending : IpcIoPendingRequest} (rest : IpcIoWorker)
    (file : rest.file = worker.file) (event : rest.event = worker.event)
    (idle : rest.sending = none)
    (waiting : worker.waitingSerials.Perm (pending.serial :: rest.waitingSerials))
    (less : ∀ tag ∈ remaining, tag ∈ flight) : Tracked (rest.complete pending none) remaining := by
  have unswept : (rest.complete pending none).unswept = worker.unswept := by
    simp only [IpcIoWorker.unswept, IpcIoWorker.complete, event, file]
    rfl
  have held : (rest.complete pending none).waitingSerials = rest.waitingSerials := rfl
  have entries : (rest.complete pending none).file.tracked = worker.file.tracked := by
    rw [← file]
    rfl
  have newer : (rest.complete pending none).file.newerRequests = worker.file.newerRequests := by
    rw [← file]
    rfl
  have made : pending.serial ≤ worker.file.made := by
    refine (inv.recent _ (List.mem_append_left _ (List.mem_append_right _ ?_))).made
    exact waiting.mem_iff.mpr List.mem_cons_self
  obtain ⟨completion, record, about, unanswered⟩ :=
    IpcIoFile.completeIo_completed worker.file pending none
  refine inv.transfer [completion] [pending.serial] (by rw [← file]; rfl)
    (by rw [← file]; rfl) (fun entry member => entries ▸ member)
    (by rw [← record, ← file]; rfl) ?_ ?_
    (by simp [unanswered]) (by simpa [about] using made) less
    (by simp [SendingOk, IpcIoWorker.complete, idle])
  · simp only [openSerials, entries, held]
    exact (waiting.append_left _).trans List.perm_middle
  · simp only [liveSerials, unswept, newer, held, List.map_cons, List.map_nil, about]
    exact (waiting.append_left _).trans List.perm_middle

/-- Completing a request with a response to it. -/
theorem complete_response {response : IpcIoMsg} {file : IpcIoFile} {pending : IpcIoPendingRequest}
    (found : worker.file.dequeueRequest response.requestId = some (file, pending))
    (arrived : (response.requestId, response.request) ∈ flight)
    (unswept : ∀ requestId, worker.event = .sweep requestId →
      response.requestId ∈ worker.file.olderRequests.keys → requestId < response.requestId)
    (idle : worker.sending = none) (less : ∀ tag ∈ remaining, tag ∈ flight) :
    Tracked ({ worker with file := file }.complete pending (some response)) remaining := by
  have entries := IpcIoFile.dequeueRequest_tracked found
  have member : (response.requestId, pending) ∈ worker.file.tracked :=
    entries.mem_iff.mpr List.mem_cons_self
  have answers : response.request = pending.serial := by
    apply Recent.eq_of_id (inv.recent_flight arrived) (inv.recent_tracked member)
    rw [← inv.messages _ arrived, ← inv.keys _ member]
  have made := (inv.recent_tracked member).made
  obtain ⟨same_made, same_counter, same_completed⟩ := IpcIoFile.dequeueRequest_frame found
  let after := { worker with file := file }.complete pending (some response)
  have live : (worker.unswept ++ worker.file.newerRequests.entries).Perm
      ((response.requestId, pending) :: (after.unswept ++ after.file.newerRequests.entries)) := by
    rcases IpcIoFile.dequeueRequest_cases found with ⟨here, older, newer⟩ | ⟨here, newer, older⟩
    · have newer' : after.file.newerRequests = worker.file.newerRequests := newer
      have taken : worker.unswept.Perm ((response.requestId, pending) :: after.unswept) := by
        have older' : after.file.olderRequests =
            worker.file.olderRequests.erase response.requestId := older
        have same_event : after.event = worker.event := rfl
        simp only [IpcIoWorker.unswept, same_event, older']
        split
        · rename_i requestId sweeping
          have listed : response.requestId ∈ worker.file.olderRequests.keys :=
            List.mem_map_of_mem (OrderedMap.mem_of_find here)
          exact OrderedMap.beyond_erase_perm here (unswept requestId sweeping listed)
        · exact OrderedMap.erase_perm here
      rw [newer']
      exact taken.append_right _
    · have newer' : after.file.newerRequests =
          worker.file.newerRequests.erase response.requestId := newer
      have older' : after.file.olderRequests = worker.file.olderRequests := older
      have same : after.unswept = worker.unswept := by
        have same_event : after.event = worker.event := rfl
        simp only [IpcIoWorker.unswept, same_event, older']
      rw [newer', same]
      exact ((OrderedMap.erase_perm here).append_left _).trans List.perm_middle
  obtain ⟨completion, record, about, answer⟩ :=
    IpcIoFile.completeIo_completed file pending (some response)
  rw [same_completed] at record
  refine inv.transfer [completion] [pending.serial] same_made same_counter
    (fun entry inside => entries.mem_iff.mpr (List.mem_cons_of_mem _ inside)) record ?_ ?_
    (by simpa [about, answer] using answers) (by simpa [about] using made) less
    (by simp [SendingOk, IpcIoWorker.complete, idle])
  · exact (entries.map _).append_right _
  · rw [List.map_singleton, about]
    exact (live.map _).append_right _

/-- A step that neither makes nor completes a request. -/
theorem move (file : after.file = worker.file) (unswept : after.unswept = worker.unswept)
    (waiting : worker.waitingSerials.Perm after.waitingSerials)
    (less : ∀ tag ∈ remaining, tag ∈ flight) (sending : after.SendingOk) :
    Tracked after remaining := by
  refine inv.transfer [] [] (by rw [file]) (by rw [file]) (fun entry member => file ▸ member)
    (by rw [file]; rfl) ?_ ?_ (by simp) (by simp) less sending
  · rw [openSerials, openSerials, file]
    exact waiting.append_left _
  · rw [liveSerials, liveSerials, file, unswept]
    exact waiting.append_left _

/-- One turn of the timeout check. -/
theorem sweepOn {requestId : ℕ} (sweeping : worker.event = .sweep requestId)
    (idle : worker.sending = none) : Tracked (worker.sweepOn requestId) flight := by
  have before : worker.unswept = worker.file.olderRequests.beyond requestId := by
    simp only [IpcIoWorker.unswept, sweeping]
  unfold IpcIoWorker.sweepOn
  split
  · rename_i following pending found
    have split_off := OrderedMap.beyond_eq_cons found
    have member : (following, pending) ∈ worker.file.tracked := by
      refine List.mem_append_left _ ?_
      exact List.mem_of_find?_eq_some found
    obtain ⟨completion, record, about, unanswered⟩ :=
      IpcIoFile.completeIo_completed worker.file pending none
    have later : ({ worker with event := .sweep following }.complete pending none).unswept =
        worker.file.olderRequests.beyond following := rfl
    refine inv.transfer [completion] [] rfl rfl (fun entry inside => inside) record
      (List.Perm.refl _) ?_ (by simp [unanswered])
      (by simpa [about] using (inv.recent_tracked member).made) (fun tag inside => inside)
      (by simp [SendingOk, IpcIoWorker.complete, idle])
    rw [liveSerials, liveSerials, before, later, split_off, List.map_singleton, about]
    exact List.Perm.refl _
  · rename_i ended
    have all_swept := OrderedMap.beyond_eq_nil ended
    obtain ⟨made, counter, completed⟩ := worker.file.finishCheck_frame
    refine inv.transfer [] (worker.file.olderRequests.entries.map fun entry => entry.2.serial)
      made counter ?_ completed ?_ ?_ (by simp) (by simp) (fun tag inside => inside)
      (by simp [SendingOk, idle])
    · intro entry inside
      rw [IpcIoFile.tracked, IpcIoFile.finishCheck_olderRequests,
        IpcIoFile.finishCheck_newerRequests, OrderedMap.entries_empty, List.append_nil] at inside
      exact List.mem_append_right _ inside
    · simp only [openSerials, IpcIoFile.tracked, IpcIoFile.finishCheck_olderRequests,
        IpcIoFile.finishCheck_newerRequests, OrderedMap.entries_empty, List.append_nil,
        List.map_append, List.append_assoc]
      exact List.Perm.refl _
    · rw [liveSerials, liveSerials, before, all_swept]
      simp only [IpcIoWorker.unswept, IpcIoFile.finishCheck_olderRequests,
        IpcIoFile.finishCheck_newerRequests, OrderedMap.entries_empty, List.append_nil,
        List.nil_append, List.map_nil]
      exact List.Perm.refl _

end

theorem liveSerials_subset (worker : IpcIoWorker) {serial : ℕ}
    (member : serial ∈ worker.liveSerials) : serial ∈ worker.openSerials := by
  rcases List.mem_append.mp member with mapped | waiting
  · refine List.mem_append_left _ ?_
    obtain ⟨entry, inside, rfl⟩ := List.mem_map.mp mapped
    refine List.mem_map_of_mem ?_
    rcases List.mem_append.mp inside with older | newer
    · refine List.mem_append_left _ ?_
      unfold IpcIoWorker.unswept at older
      split at older
      · exact (List.mem_filter.mp older).1
      · exact older
    · exact List.mem_append_right _ newer
  · exact List.mem_append_right _ waiting

/-- Making a request while nothing outstanding is a round of the counter old. -/
theorem call (inv : Tracked worker flight) (isWrite : Bool) (offset len : ℕ)
    (idle : worker.sending = none)
    (fits : ∀ serial ∈ worker.openSerials ++ flight.map Prod.snd,
      worker.file.made + 1 < serial + IpcIoFile.idPeriod) :
    Tracked { worker with
      file := (worker.file.newPendingRequest isWrite offset len).1
      stack := .push (worker.file.newPendingRequest isWrite offset len).2 :: worker.stack }
      flight := by
  let new : IpcIoWorker := { worker with
    file := (worker.file.newPendingRequest isWrite offset len).1
    stack := .push (worker.file.newPendingRequest isWrite offset len).2 :: worker.stack }
  have made : new.file.made = worker.file.made + 1 := rfl
  have waiting : new.waitingSerials = (worker.file.made + 1) :: worker.waitingSerials := rfl
  have opened : new.openSerials.Perm ((worker.file.made + 1) :: worker.openSerials) := by
    have unchanged : new.file.tracked = worker.file.tracked := rfl
    rw [openSerials, waiting, unchanged]
    exact List.perm_middle
  have live : new.liveSerials.Perm ((worker.file.made + 1) :: worker.liveSerials) := by
    have unchanged : new.unswept ++ new.file.newerRequests.entries =
      worker.unswept ++ worker.file.newerRequests.entries := rfl
    rw [liveSerials, waiting, unchanged]
    exact List.perm_middle
  have older : ∀ serial ∈ worker.openSerials, serial ≤ worker.file.made := fun serial member =>
    (inv.recent serial (List.mem_append_left _ member)).made
  refine ⟨?_, inv.keys, inv.messages, ?_, ?_, ?_, ?_, ?_, inv.own⟩
  · calc
      IpcIoFile.nextRequestId worker.file.lastRequestId
        = IpcIoFile.nextRequestId (IpcIoFile.idOf worker.file.made) := by rw [inv.counter]
      _ = IpcIoFile.idOf (worker.file.made + 1) := IpcIoFile.nextRequestId_idOf _
  · intro serial member
    rcases List.mem_append.mp ((opened.append_right _).mem_iff.mp member) with own | far
    · rcases List.mem_cons.mp own with rfl | old
      · exact ⟨Nat.succ_pos _, le_refl _, by rw [made, IpcIoFile.idPeriod]; omega⟩
      · obtain ⟨positive, before, _⟩ := inv.recent serial (List.mem_append_left _ old)
        exact ⟨positive, before.trans (Nat.le_succ _), fits serial (List.mem_append_left _ old)⟩
    · obtain ⟨positive, before, _⟩ := inv.recent serial (List.mem_append_right _ far)
      exact ⟨positive, before.trans (Nat.le_succ _), fits serial (List.mem_append_right _ far)⟩
  · intro serial member
    exact (inv.past serial member).trans (Nat.le_succ _)
  · simp [SendingOk, idle]
  · refine opened.nodup_iff.mpr (List.nodup_cons.mpr ⟨fun member => ?_, inv.separate⟩)
    have bound := older _ member
    omega
  · have order : (new.file.completedSerials ++ new.liveSerials).Perm
        ((worker.file.made + 1) :: (worker.file.completedSerials ++ worker.liveSerials)) :=
      (live.append_left _).trans List.perm_middle
    refine order.nodup_iff.mpr (List.nodup_cons.mpr ⟨fun member => ?_, inv.account⟩)
    rcases List.mem_append.mp member with done | waits
    · have bound := inv.past _ done
      omega
    · have bound := older _ (liveSerials_subset worker waits)
      omega

/-- Sending a message and tracking its request. -/
theorem track (inv : Tracked worker flight) {pending : IpcIoPendingRequest} {message : IpcIoMsg}
    (sending : worker.sending = some (.queue pending message))
    (more : ∀ tag ∈ remaining, tag ∈ flight ∨ tag = (message.requestId, message.request)) :
    Tracked { worker with
      sending := none, file := worker.file.trackPendingRequest pending } remaining := by
  let new : IpcIoWorker := { worker with
    sending := none, file := worker.file.trackPendingRequest pending }
  obtain ⟨latest, own_id, own_request⟩ : pending.serial = worker.file.made ∧
      message.requestId = IpcIoFile.idOf pending.serial ∧ message.request = pending.serial := by
    simpa [SendingOk, sending] using inv.sending
  obtain ⟨made, counter, completed⟩ := worker.file.trackPendingRequest_frame pending
  obtain ⟨older, newer⟩ := worker.file.trackPendingRequest_maps pending
  have key : worker.file.lastRequestId = IpcIoFile.idOf pending.serial := by
    rw [inv.counter, latest]
  have waiting : worker.waitingSerials.Perm (pending.serial :: new.waitingSerials) := by
    simp only [waitingSerials, sending, IpcIoSending.serials, List.append_nil, new]
    exact List.perm_append_singleton _ _
  have waits : pending.serial ∈ worker.waitingSerials := waiting.mem_iff.mpr List.mem_cons_self
  have recent : worker.Recent pending.serial :=
    inv.recent _ (List.mem_append_left _ (List.mem_append_right _ waits))
  have untracked : worker.file.lastRequestId ∉ worker.file.newerRequests.keys := by
    intro taken
    obtain ⟨entry, inside, same⟩ := List.mem_map.mp taken
    have member : entry ∈ worker.file.tracked := List.mem_append_right _ inside
    have equal : entry.2.serial = pending.serial := by
      apply Recent.eq_of_id (inv.recent_tracked member) recent
      rw [← inv.keys entry member, same, key]
    have apart := (List.nodup_append.mp inv.separate).2.2
    exact apart _ (List.mem_map_of_mem member) _ waits equal
  have inserted := @OrderedMap.insert_perm _ _ _ _ _ pending untracked
  rw [← newer] at inserted
  have entries : new.file.tracked.Perm
      ((worker.file.lastRequestId, pending) :: worker.file.tracked) := by
    rw [IpcIoFile.tracked, IpcIoFile.tracked, older]
    exact (inserted.append_left _).trans List.perm_middle
  have opened : worker.openSerials.Perm new.openSerials := by
    refine (waiting.append_left _).trans (List.perm_middle.trans ?_)
    exact ((entries.map fun entry => entry.2.serial).append_right _).symm
  have live : worker.liveSerials.Perm new.liveSerials := by
    have unswept : new.unswept = worker.unswept := by
      simp only [IpcIoWorker.unswept, new, older]
    have listed : (new.unswept ++ new.file.newerRequests.entries).Perm
        ((worker.file.lastRequestId, pending) ::
          (worker.unswept ++ worker.file.newerRequests.entries)) := by
      rw [unswept]
      exact (inserted.append_left _).trans List.perm_middle
    refine (waiting.append_left _).trans (List.perm_middle.trans ?_)
    exact ((listed.map fun entry => entry.2.serial).append_right _).symm
  have same_completed : new.file.completedSerials = worker.file.completedSerials := by
    rw [IpcIoFile.completedSerials, completed, IpcIoFile.completedSerials]
  refine ⟨?_, ?_, ?_, ?_, ?_, trivial, opened.nodup_iff.mp inv.separate, ?_, ?_⟩
  · rw [counter, made, inv.counter]
  · intro entry member
    rcases List.mem_cons.mp (entries.mem_iff.mp member) with rfl | old
    · exact key
    · exact inv.keys entry old
  · intro tag member
    rcases more tag member with old | rfl
    · exact inv.messages tag old
    · rw [own_id, own_request]
  · intro serial member
    have old : worker.Recent serial := by
      rcases List.mem_append.mp member with here | there
      · exact inv.recent serial (List.mem_append_left _ (opened.mem_iff.mpr here))
      · obtain ⟨tag, inside, rfl⟩ := List.mem_map.mp there
        rcases more tag inside with before | rfl
        · exact inv.recent_flight before
        · rw [own_request]
          exact recent
    exact ⟨old.positive, made ▸ old.made, made ▸ old.near⟩
  · intro serial member
    rw [made]
    exact inv.past serial (same_completed ▸ member)
  · rw [same_completed]
    exact (live.append_left _).nodup_iff.mp inv.account
  · rw [completed]
    exact inv.own

end Tracked

end IpcIoWorker

end Squid
