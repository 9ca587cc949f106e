import Squid.DiskIO.IpcIoFile
import Squid.Library.CRuntime

/-!
# The bytes of a read

A read request goes to the disker with its length; the disker reads into a shared page, at most a
page full, and tells how many bytes it got.  `readCompleted` copies that many bytes from the page
but reports the length of the request.
-/

namespace Squid

open CRuntime List

namespace IpcIoFile

variable {file buffer page : Bytes} {pageSize offset len count : ℕ}

/-- What becomes of a read request. -/
inductive ReadOutcome
  /-- The request could not be sent, or timed out. -/
  | noResponse
  /-- The disker got this page, if any, and `pread` had this result. -/
  | served (page : Option ℕ) (result : DiskResult)

/-- The results that `pread` may have: no more bytes than asked for, and than there are. -/
def ReadOutcome.Possible (file : Bytes) (pageSize : ℕ) (request : IpcIoPendingRequest) :
    ReadOutcome → Prop
  | .served _ (.bytes count) =>
      count ≤ min request.len pageSize ∧ count ≤ file.length - request.offset
  | .served _ (.error errno) => errno ≠ 0
  | .noResponse => True

/-- The disker's response to a request that `push` has sent. -/
def ReadOutcome.response (request : IpcIoPendingRequest) (requestId : ℕ) :
    ReadOutcome → Option IpcIoMsg
  | .served page result =>
      some (diskerRead (IpcIoWorker.requestMessage requestId request none) page result)
  | .noResponse => none

/-- What `pread` leaves in the page of the disker. -/
def pread (file : Bytes) (offset : ℕ) (page : Bytes) : ReadOutcome → Bytes
  | .served _ (.bytes count) => (file.drop offset).take count ++ page.drop count
  | .served _ (.error _) | .noResponse => page

/-- The `memcpy` of `readCompleted` from the page of the response to the buffer of the request. -/
def copyRead (buffer page : Bytes) : Option IpcIoMsg → Bytes
  | some response =>
      if response.xerrno ≠ 0 then buffer
      else if response.page = none then buffer
      else page.take response.len ++ buffer.drop response.len
  | none => buffer

/-- The length that `readCompleted` reports, and `DISK_OK` or `DISK_ERROR`. -/
def reported (error : Bool) (request : IpcIoPendingRequest) (requestId : ℕ)
    (outcome : ReadOutcome) : ℤ × ℤ :=
  (readCompleted error request (outcome.response request requestId)).2

/-- The buffer of the request when its completion is reported. -/
def received (file : Bytes) (request : IpcIoPendingRequest) (requestId : ℕ) (buffer page : Bytes)
    (outcome : ReadOutcome) : Bytes :=
  copyRead buffer (pread file request.offset page outcome) (outcome.response request requestId)

/-- `DISK_OK`. -/
def diskOk : ℤ := 0

/-- The first bytes of the buffer, as many as are reported, are those of the file. -/
def Truthful (file : Bytes) (error : Bool) (request : IpcIoPendingRequest) (requestId : ℕ)
    (buffer page : Bytes) (outcome : ReadOutcome) : Prop :=
  (reported error request requestId outcome).2 = diskOk →
    ∃ n : ℕ, (reported error request requestId outcome).1 = n ∧
      ((file.drop request.offset).take n).length = n ∧
      (received file request requestId buffer page outcome).take n =
        (file.drop request.offset).take n

/-- No bytes are missing where the disker has read some. -/
def Complete (request : IpcIoPendingRequest) (outcome : ReadOutcome) : Prop :=
  ∀ page count, outcome = .served (some page) (.bytes count) → count = request.len

/-- A read of which some bytes, or none, have come. -/
theorem served_reported (error : Bool) (request : IpcIoPendingRequest)
    (requestId number count : ℕ) :
    reported error request requestId (.served (some number) (.bytes count)) =
      ((request.len : ℤ), diskOk) := by
  simp [reported, ReadOutcome.response, diskerRead, readCompleted, diskOk]

theorem served_received (file : Bytes) (request : IpcIoPendingRequest) (requestId : ℕ)
    (buffer page : Bytes) {number : ℕ} (there : count ≤ file.length - request.offset) :
    received file request requestId buffer page (.served (some number) (.bytes count)) =
      (file.drop request.offset).take count ++ buffer.drop count := by
  have read : ((file.drop request.offset).take count).length = count := by
    rw [length_take, length_drop]
    omega
  have copied : ((file.drop request.offset).take count ++ page.drop count).take count =
      (file.drop request.offset).take count := take_left' read
  simp only [received, ReadOutcome.response, diskerRead, copyRead, pread, copied]
  rfl

variable {error : Bool} {outcome : ReadOutcome} {request : IpcIoPendingRequest} {requestId : ℕ}

/-- Everything else is reported as an error. -/
theorem served_of_diskOk (possible : outcome.Possible file pageSize request)
    (success : (reported error request requestId outcome).2 = diskOk) :
    ∃ number count, outcome = .served (some number) (.bytes count) := by
  rcases outcome with _ | ⟨_ | number, count | errno⟩
  · simp [reported, ReadOutcome.response, readCompleted, diskOk] at success
  · simp [reported, ReadOutcome.response, readCompleted, diskerRead, diskOk,
      IpcIoWorker.requestMessage] at success
  · simp [reported, ReadOutcome.response, readCompleted, diskerRead, diskOk,
      IpcIoWorker.requestMessage] at success
  · exact ⟨number, count, rfl⟩
  · have failed : errno ≠ 0 := possible
    simp [reported, ReadOutcome.response, readCompleted, diskerRead, diskOk, failed] at success

theorem truthful_of_complete (possible : outcome.Possible file pageSize request)
    (complete : Complete request outcome) (buffer page : Bytes) :
    Truthful file error request requestId buffer page outcome := by
  intro success
  obtain ⟨number, count, rfl⟩ := served_of_diskOk possible success
  obtain rfl := complete number count rfl
  obtain ⟨-, there⟩ := possible
  have read : ((file.drop request.offset).take request.len).length = request.len := by
    rw [length_take, length_drop]
    omega
  refine ⟨request.len, by rw [served_reported], read, ?_⟩
  rw [served_received file request requestId buffer page there, take_left' read]

/-- Where bytes are missing, what was in the buffer shows. -/
theorem not_truthful_of_short {error : Bool} {request : IpcIoPendingRequest} {requestId number : ℕ}
    (there : count ≤ file.length - request.offset) (short : count < request.len) (page : Bytes) :
    ∃ buffer : Bytes, buffer.length = request.len ∧
      ¬ Truthful file error request requestId buffer page (.served (some number) (.bytes count)) := by
  let stale := (file.getD (request.offset + count) 0) + 1
  refine ⟨List.replicate request.len stale, length_replicate, fun told => ?_⟩
  obtain ⟨n, length, whole, same⟩ := told (by rw [served_reported])
  rw [served_reported, Nat.cast_inj] at length
  subst length
  rw [served_received file request requestId _ page there] at same
  have read : ((file.drop request.offset).take count).length = count := by
    rw [length_take, length_drop]
    omega
  have here := congrArg (fun bytes => bytes[count]?) same
  have whole_length : request.offset + request.len ≤ file.length := by
    rw [length_take, length_drop] at whole
    omega
  have left : 0 < request.len - count := Nat.sub_pos_of_lt short
  simp only [List.getElem?_take_of_lt short, List.getElem?_append_right read.le, read, Nat.sub_self,
    drop_replicate, List.getElem?_replicate_of_lt left, List.getElem?_drop] at here
  have byte : file.getD (request.offset + count) 0 = stale := by
    rw [getD_eq_getElem?_getD, ← here, Option.getD_some]
  exact absurd byte (by simp [stale])

/-- Whatever was in the buffer and in the page, what is reported as read has been read, just when
the disker has read as many bytes as it was asked for. -/
theorem truthful_iff_complete (file : Bytes) (pageSize : ℕ) (error : Bool)
    (request : IpcIoPendingRequest) (requestId : ℕ) (outcome : ReadOutcome)
    (possible : outcome.Possible file pageSize request) :
    (∀ buffer page : Bytes, buffer.length = request.len → page.length = pageSize →
        Truthful file error request requestId buffer page outcome) ↔
      Complete request outcome := by
  constructor
  · intro always number count same
    subst same
    by_contra other
    obtain ⟨asked, there⟩ := possible
    have short : count < request.len := by omega
    obtain ⟨buffer, length,
      wrong⟩ := @not_truthful_of_short file count error request requestId number
      there short (List.replicate pageSize 0)
    exact wrong (always buffer _ length length_replicate)
  · exact fun complete buffer page _ _ => truthful_of_complete possible complete buffer page

/-- A read inside the file. -/
theorem truthful_iff_complete_inside :
    Truthful [1, 2, 3] false ⟨1, false, 1, 2⟩ 1 [8, 9] [2, 3, 0, 0]
      (.served (some 7) (.bytes 2)) :=
  (truthful_iff_complete [1, 2, 3] 4 false ⟨1, false, 1, 2⟩ 1 (.served (some 7) (.bytes 2))
    (by simp [ReadOutcome.Possible])).2 (by rintro page count ⟨⟩; rfl) [8, 9] [2, 3, 0, 0] rfl rfl

/-- A read across the end of the file: two bytes of something else are reported as read. -/
theorem not_truthful_atEnd :
    (ReadOutcome.served (some 7) (.bytes 3)).Possible [1, 2, 3] 4096 ⟨1, false, 0, 5⟩ ∧
      reported false ⟨1, false, 0, 5⟩ 1 (.served (some 7) (.bytes 3)) = (5, diskOk) ∧
      received [1, 2, 3] ⟨1, false, 0, 5⟩ 1 [9, 9, 9, 9, 9] (List.replicate 4096 0)
        (.served (some 7) (.bytes 3)) = [1, 2, 3, 9, 9] ∧
      ¬ Truthful [1, 2, 3] false ⟨1, false, 0, 5⟩ 1 [9, 9, 9, 9, 9] (List.replicate 4096 0)
        (.served (some 7) (.bytes 3)) := by
  have got : received [1, 2, 3] ⟨1, false, 0, 5⟩ 1 [9, 9, 9, 9, 9] (List.replicate 4096 0)
      (.served (some 7) (.bytes 3)) = [1, 2, 3, 9, 9] :=
    served_received [1, 2, 3] ⟨1, false, 0, 5⟩ 1 _ _ (by decide)
  refine ⟨by simp [ReadOutcome.Possible], by decide, got, fun told => ?_⟩
  obtain ⟨n, length, whole, -⟩ := told (by decide)
  rw [served_reported] at length
  obtain rfl : 5 = n := Nat.cast_inj.1 length
  exact absurd whole (by decide)

end IpcIoFile
end Squid
