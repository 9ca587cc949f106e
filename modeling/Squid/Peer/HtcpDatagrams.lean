import Squid.Peer.Htcp
import Squid.Peer.Icp

/-!
# Peer datagrams are judged by their own bytes

The decoders test a length after they have read it, so a message whose data end where a length is
expected is refused whatever is read there; but the read itself, and the read of the reason of a
purge, can go beyond the datagram.
-/

namespace Squid
namespace Htcp

open CRuntime Datagram Traced

/-! ## The length fields of a message -/

/-- Where the lengths of counted strings are expected, up to one that does not fit. -/
def lengthFields (d : Bytes) (pos : ℕ) (sz : ℤ) : ℕ → List ℕ
  | 0 => []
  | count + 1 =>
      pos :: if sz - 2 < word d pos then []
        else lengthFields d (pos + 2 + word d pos) (sz - 2 - word d pos) count

/-- Where an accepted message makes its handler read a length, or a reason for a purge. -/
def fields (queried : ℕ → Bool) (d : Bytes) (hdr : HtcpDataHeader) : List ℕ :=
  let hsz : ℤ := hdr.length - 8
  if hdr.opcode = opTst then
    if hdr.RR = rrRequest then
      if hsz = 0 ∨ hdr.F1 = 0 then [] else lengthFields d 12 hsz 4
    else if queried hdr.msg_id = false ∨ hdr.F1 = 1 then [] else lengthFields d 12 hsz 3
  else if hdr.opcode = opClr then
    12 :: if hsz - 2 = 0 then [] else lengthFields d 14 (hsz - 2) 4
  else []

/-- Every such field starts before the end of the datagram. -/
def Complete (queried : ℕ → Bool) (d : Bytes) : Prop :=
  ∀ hdr, (htcpUnpackMsg d d.length).result = .ok hdr → ∀ p ∈ fields queried d hdr, p < d.length

/-! ## Unpacking in two buffers -/

section Unpacking

variable {len : ℕ} {buf other : Bytes} {pos : ℕ} {sz : ℤ}

/-- What unpacking leaves in two buffers: the same bytes, and terminated strings. -/
def Alike (len : ℕ) (unpacked unpacked' : Bytes × Option (List ℕ)) : Prop :=
  Agree len unpacked.1 unpacked'.1 ∧ unpacked.2 = unpacked'.2 ∧
    ∀ starts, unpacked.2 = some starts → ∃ last ≤ len, octetAt unpacked.1 last = 0 ∧
      octetAt unpacked'.1 last = 0 ∧ ∀ i ∈ starts, i ≤ last

theorem result_unpackCountstr (buf : Bytes) (pos : ℕ) (sz : ℤ) :
    (unpackCountstr buf pos sz).result = if sz - 2 < word buf pos then none
      else some (pos + 2 + word buf pos, sz - 2 - word buf pos) := rfl

theorem all_unpackCountstr {property : Access → Prop} :
    (unpackCountstr buf pos sz).All property ↔ property (.read pos 2) := by
  simp [unpackCountstr]

theorem unpackCountstr_alike (agree : Agree len buf other) (inside : pos + sz ≤ len) :
    (unpackCountstr buf pos sz).result = (unpackCountstr other pos sz).result := by
  rw [result_unpackCountstr, result_unpackCountstr]
  by_cases room : 2 ≤ sz
  · rw [agree.word (by omega)]
  · rw [if_pos (by omega), if_pos (by omega)]

theorem unpackCountstr_some {next : ℕ} {left : ℤ}
    (found : (unpackCountstr buf pos sz).result = some (next, left)) :
    0 ≤ left ∧ (next : ℤ) + left = pos + sz ∧ pos + 2 ≤ next ∧ ¬sz - 2 < word buf pos ∧
      next = pos + 2 + word buf pos ∧ left = sz - 2 - word buf pos := by
  rw [result_unpackCountstr] at found
  split at found
  next => simp at found
  next fits =>
    rw [Option.some.injEq, Prod.mk.injEq] at found
    omega

theorem unpackMore_alike (agree : Agree len buf other) (inside : pos + sz ≤ len) (low : pos ≤ len)
    {starts : List ℕ} (started : ∀ i ∈ starts, i ≤ pos) (count : ℕ) :
    Alike len (unpackMore buf pos sz starts count).result
      (unpackMore other pos sz starts count).result := by
  induction count generalizing buf other pos sz starts with
  | zero =>
      refine ⟨agree.set pos, rfl, fun found eq => ⟨pos, low, ?_, ?_, ?_⟩⟩
      · exact (octetAt_set buf pos pos).trans (if_pos rfl)
      · exact (octetAt_set other pos pos).trans (if_pos rfl)
      · obtain rfl := Option.some.inj eq
        exact started
  | succ count ih =>
      have same := unpackCountstr_alike agree inside
      rw [unpackMore, unpackMore, result_bind, result_bind, ← same]
      cases found : (unpackCountstr buf pos sz).result with
      | none => exact ⟨agree, rfl, fun _ eq => by simp at eq⟩
      | some result =>
          obtain ⟨next, left⟩ := result
          obtain ⟨_, total, further, _⟩ := unpackCountstr_some found
          simp only [result_bind, result_terminate]
          refine ih (agree.set pos) (by omega) (by omega) fun i member => ?_
          rcases List.mem_append.mp member with earlier | last
          · have := started i earlier
            omega
          · rw [List.mem_singleton.mp last]
            exact further

theorem unpackStrings_alike (agree : Agree len buf other) (inside : pos + sz ≤ len) (count : ℕ) :
    Alike len (unpackStrings buf pos sz count).result (unpackStrings other pos sz count).result := by
  have same := unpackCountstr_alike agree inside
  rw [unpackStrings, unpackStrings, result_bind, result_bind, ← same]
  cases found : (unpackCountstr buf pos sz).result with
  | none => exact ⟨agree, rfl, fun _ eq => by simp at eq⟩
  | some result =>
      obtain ⟨next, left⟩ := result
      obtain ⟨_, total, further, _⟩ := unpackCountstr_some found
      refine unpackMore_alike agree (by omega) (by omega) (fun i member => ?_) _
      rw [List.mem_singleton.mp member]
      exact further

/-! ### What unpacking touches -/

theorem lengthFields_congr (same : ∀ i, pos ≤ i → octetAt buf i = octetAt other i) (count : ℕ) :
    lengthFields buf pos sz count = lengthFields other pos sz count := by
  induction count generalizing pos sz with
  | zero => rfl
  | succ count ih =>
      have length : word buf pos = word other pos := by
        rw [word, word, same pos le_rfl, same (pos + 1) (by omega)]
      rw [lengthFields, lengthFields, length, ih fun i later => same i (by omega)]

/-- Unpacking stays within the datagram if all the lengths are expected there. -/
theorem unpackMore_within_iff (inside : pos + sz ≤ len) (low : pos ≤ len) (starts : List ℕ)
    (count : ℕ) : (unpackMore buf pos sz starts count).All (Access.Within len) ↔
      ∀ p ∈ lengthFields buf pos sz count, p < len := by
  induction count generalizing buf pos sz starts with
  | zero =>
      simp only [unpackMore, lengthFields, Traced.all_bind, all_terminate, all_pure]
      exact iff_of_true ⟨low, trivial⟩ (by simp)
  | succ count ih =>
      rw [unpackMore, Traced.all_bind, all_unpackCountstr, lengthFields, List.forall_mem_cons]
      refine and_congr (show pos + 2 ≤ len + 1 ↔ pos < len by omega) ?_
      have later : lengthFields (buf.set pos 0) (pos + 2 + word buf pos) (sz - 2 - word buf pos)
          count = lengthFields buf (pos + 2 + word buf pos) (sz - 2 - word buf pos) count := by
        refine lengthFields_congr (fun i beyond => ?_) count
        rw [octetAt_set, if_neg (by omega)]
      rw [result_unpackCountstr]
      by_cases short : sz - 2 < word buf pos
      · rw [if_pos short, if_pos short]
        exact iff_of_true (all_pure _ _) (by simp)
      · rw [if_neg short, if_neg short]
        simp only [Traced.all_bind, all_terminate, result_terminate]
        rw [ih (by omega) (by omega), later]
        exact and_iff_right low

theorem unpackStrings_within_iff (inside : pos + sz ≤ len) (count : ℕ) :
    (unpackStrings buf pos sz (count + 1)).All (Access.Within len) ↔
      ∀ p ∈ lengthFields buf pos sz (count + 1), p < len := by
  rw [unpackStrings, Traced.all_bind, all_unpackCountstr, lengthFields, List.forall_mem_cons]
  refine and_congr (show pos + 2 ≤ len + 1 ↔ pos < len by omega) ?_
  rw [result_unpackCountstr]
  by_cases short : sz - 2 < word buf pos
  · rw [if_pos short, if_pos short]
    exact iff_of_true (all_pure _ _) (by simp)
  · rw [if_neg short, if_neg short]
    exact unpackMore_within_iff (by omega) (by omega) _ count

/-- The strings of a message are read within it. -/
theorem judge_alike {hdr : HtcpDataHeader} (accept : List Bytes → HtcpDecision)
    {unpacked unpacked' : Bytes × Option (List ℕ)} (alike : Alike len unpacked unpacked') :
    (judge hdr accept unpacked).result = (judge hdr accept unpacked').result ∧
      (judge hdr accept unpacked).All (Access.Within len) := by
  obtain ⟨buf, found⟩ := unpacked
  obtain ⟨buf', found'⟩ := unpacked'
  obtain ⟨agree, rfl, ends⟩ := alike
  cases found with
  | none => exact ⟨rfl, all_pure _ _⟩
  | some starts =>
      obtain ⟨last, inside, zero, zero', before⟩ := ends starts rfl
      have same (k : ℕ) (le : k ≤ last) : octetAt buf k = octetAt buf' k := by
        rcases Nat.lt_or_eq_of_le le with lower | rfl
        · exact agree k (by omega)
        · rw [zero, zero']
      have strings (i : ℕ) (member : i ∈ starts) := stringAt_congr same zero (before i member)
      simp only [judge, result_bind, Traced.all_bind, result_readStrings, all_readStrings,
        result_pure, all_pure, and_true]
      refine ⟨congrArg accept (List.map_congr_left fun i member => (strings i member).1), ?_⟩
      intro i member
      have short := (strings i member).2
      exact (show i + (_ + 1) ≤ len + 1 by omega)

end Unpacking

/-! ## Handling a message -/

section Handling

variable {len : ℕ} {buf other : Bytes} {pos : ℕ} {sz : ℤ} {hdr : HtcpDataHeader}

/-- The handler decides alike in both buffers and, under a condition, stays within the datagram. -/
def HandledAlike (len : ℕ) (handled handled' : Traced Access (HtcpDecision × Bytes))
    (complete : Prop) : Prop :=
  handled.result.1 = handled'.result.1 ∧ Agree len handled.result.2 handled'.result.2 ∧
    (handled.All (Access.Within len) ↔ complete)

theorem lengthFields_agree (agree : Agree len buf other) (inside : pos + sz ≤ len) (count : ℕ) :
    lengthFields buf pos sz count = lengthFields other pos sz count := by
  induction count generalizing pos sz with
  | zero => rfl
  | succ count ih =>
      rw [lengthFields, lengthFields]
      by_cases room : 2 ≤ sz
      · rw [agree.word (by omega), ih (by omega)]
      · rw [if_pos (by omega), if_pos (by omega)]

theorem handledAlike_pure (agree : Agree len buf other) (decision : HtcpDecision) :
    HandledAlike len (pure (decision, buf)) (pure (decision, other)) (∀ p ∈ ([] : List ℕ),
      p < len) :=
  ⟨rfl, agree, iff_of_true (all_pure _ _) (by simp)⟩

/-- Unpacking counted strings and deciding about them. -/
theorem handledAlike_unpack (agree : Agree len buf other) (inside : pos + sz ≤ len) (count : ℕ)
    (accept : List Bytes → HtcpDecision) :
    HandledAlike len
      (unpackStrings buf pos sz (count + 1) >>= fun unpacked =>
        judge hdr accept unpacked >>= fun decision => pure (decision, unpacked.1))
      (unpackStrings other pos sz (count + 1) >>= fun unpacked =>
        judge hdr accept unpacked >>= fun decision => pure (decision, unpacked.1))
      (∀ p ∈ lengthFields buf pos sz (count + 1), p < len) := by
  have alike := unpackStrings_alike agree inside (count + 1)
  obtain ⟨same, within⟩ := @judge_alike len hdr accept _ _ alike
  refine ⟨same, alike.1, ?_⟩
  rw [Traced.all_bind, unpackStrings_within_iff inside, Traced.all_bind]
  exact and_iff_left ⟨within, all_pure _ _⟩

theorem htcpHandleTstRequest_alike (agree : Agree len buf other) (inside : pos + sz ≤ len) :
    HandledAlike len (htcpHandleTstRequest hdr buf pos sz) (htcpHandleTstRequest hdr other pos sz)
      (∀ p ∈ if sz = 0 ∨ hdr.F1 = 0 then [] else lengthFields buf pos sz 4, p < len) := by
  unfold htcpHandleTstRequest
  by_cases ignored : sz = 0 ∨ hdr.F1 = 0
  · simp only [if_pos ignored]
    exact handledAlike_pure agree _
  · simp only [if_neg ignored]
    exact handledAlike_unpack agree inside 3 _

theorem htcpHandleTstResponse_alike (queried : ℕ → Bool) (agree : Agree len buf other)
    (inside : pos + sz ≤ len) :
    HandledAlike len (htcpHandleTstResponse queried hdr buf pos sz)
      (htcpHandleTstResponse queried hdr other pos sz)
      (∀ p ∈ if queried hdr.msg_id = false ∨ hdr.F1 = 1 then [] else lengthFields buf pos sz 3,
        p < len) := by
  unfold htcpHandleTstResponse
  by_cases unexpected : queried hdr.msg_id = false ∨ hdr.F1 = 1
  · simp only [if_pos unexpected]
    exact handledAlike_pure agree _
  · simp only [if_neg unexpected]
    exact handledAlike_unpack agree inside 2 _

theorem htcpHandleClr_alike (agree : Agree len buf other) (inside : pos + sz ≤ len) :
    HandledAlike len (htcpHandleClr hdr buf pos sz) (htcpHandleClr hdr other pos sz)
      (∀ p ∈ pos :: if sz - 2 = 0 then [] else lengthFields buf (pos + 2) (sz - 2) 4, p < len) := by
  have reason : Access.Within len (.read (pos + 1) 1) ↔ pos < len :=
    (show pos + 1 + 1 ≤ len + 1 ↔ pos < len by omega)
  have handled (rest rest' : Traced Access (HtcpDecision × Bytes)) (complete : Prop)
      (alike : HandledAlike len rest rest' complete) :
      HandledAlike len (readBytes (pos + 1) 1 () >>= fun _ => rest)
        (readBytes (pos + 1) 1 () >>= fun _ => rest') (pos < len ∧ complete) := by
    refine ⟨alike.1, alike.2.1, ?_⟩
    rw [Traced.all_bind, all_readBytes, reason, alike.2.2]
  rw [List.forall_mem_cons]
  refine handled _ _ _ ?_
  by_cases ignored : sz - 2 = 0
  · simp only [if_pos ignored]
    exact handledAlike_pure agree _
  · simp only [if_neg ignored]
    exact handledAlike_unpack agree (by push_cast; omega) 3 _

/-! ### The message -/

variable {d : Bytes}

theorem checkHeader_none {length : ℕ} {major : UInt8}
    (checked : checkHeader sz length major = none) : 12 ≤ sz := by
  unfold checkHeader at checked
  split at checked
  next => simp at checked
  next =>
    split at checked
    next => simp at checked
    next =>
      split at checked
      next => simp at checked
      next => omega

theorem checkDataHeader_ok {checked : HtcpDataHeader} (ok : checkDataHeader sz hdr = .ok checked) :
    4 + (checked.length : ℤ) ≤ sz := by
  unfold checkDataHeader at ok
  split at ok
  next => simp at ok
  next =>
    split at ok
    next => simp at ok
    next =>
      obtain rfl := Except.ok.inj ok
      omega

/-- The headers of a message are made of its own bytes. -/
theorem htcpUnpackMsg_append (d rest : Bytes) :
    (htcpUnpackMsg (d ++ rest) d.length).result = (htcpUnpackMsg d d.length).result ∧
      (htcpUnpackMsg (d ++ rest) d.length).All (Access.Within d.length) := by
  have agree := agree_append d rest []
  rw [List.append_nil] at agree
  unfold htcpUnpackMsg
  by_cases small : (d.length : ℤ) < 4
  · rw [if_pos small, if_pos small]
    exact ⟨rfl, all_pure _ _⟩
  rw [if_neg small, if_neg small, agree.word (by omega), agree 2 (by omega), agree 3 (by omega)]
  simp only [result_bind, Traced.all_bind, result_readBytes, all_readBytes]
  have first : Access.Within d.length (.read 0 4) := (show 0 + 4 ≤ d.length + 1 by omega)
  cases checked : checkHeader d.length (word d 0) (octetAt d 2) with
  | some why => exact ⟨rfl, first, all_pure _ _⟩
  | none =>
      have large := checkHeader_none checked
      have same : unpackDataHeader (octetAt d 3 == 0) (d ++ rest) =
          unpackDataHeader (octetAt d 3 == 0) d := by
        unfold unpackDataHeader
        rw [agree 6 (by omega), agree 7 (by omega), agree.word (by omega), agree.long (by omega)]
      simp only [result_bind, Traced.all_bind, all_readBytes, same]
      exact ⟨trivial, first, (show 4 + 8 ≤ d.length + 1 by omega), all_pure _ _⟩

/-- The data of an accepted message lie within it. -/
theorem htcpUnpackMsg_ok (accepted : (htcpUnpackMsg d d.length).result = .ok hdr) :
    4 + (hdr.length : ℤ) ≤ d.length := by
  unfold htcpUnpackMsg at accepted
  split at accepted
  next => simp at accepted
  next =>
    simp only [result_bind, result_readBytes] at accepted
    cases checked : checkHeader d.length (word d 0) (octetAt d 2) with
    | some why => simp [checked] at accepted
    | none =>
        rw [checked] at accepted
        exact checkDataHeader_ok accepted

/-- A message in a buffer with other bytes behind it. -/
theorem htcpHandleMsg_alike (queried : ℕ → Bool) (d rest rest' : Bytes) :
    (htcpHandleMsg queried (d ++ rest) d.length).result =
        (htcpHandleMsg queried (d ++ rest') d.length).result ∧
      ((htcpHandleMsg queried (d ++ rest) d.length).All (Access.Within d.length) ↔
        Complete queried d) := by
  obtain ⟨same, within⟩ := htcpUnpackMsg_append d rest
  obtain ⟨same', _⟩ := htcpUnpackMsg_append d rest'
  have agree := agree_append d rest rest'
  unfold htcpHandleMsg Complete
  rw [result_bind, result_bind, Traced.all_bind, same, same']
  simp only [within, true_and]
  cases accepted : (htcpUnpackMsg d d.length).result with
  | error why => exact ⟨rfl, iff_of_true (all_pure _ _) (by simp)⟩
  | ok hdr =>
      have inside := htcpUnpackMsg_ok accepted
      have data : ((12 : ℕ) : ℤ) + ((hdr.length : ℤ) - 8) ≤ d.length := by omega
      simp only [Except.ok.injEq, forall_eq']
      unfold fields
      dsimp only
      have own := agree_append d [] rest
      rw [List.append_nil] at own
      by_cases tst : hdr.opcode = opTst
      · rw [if_pos tst, if_pos tst, if_pos tst]
        by_cases request : hdr.RR = rrRequest
        · rw [if_pos request, if_pos request, if_pos request, lengthFields_agree own data]
          obtain ⟨decision, _, touched⟩ := @htcpHandleTstRequest_alike _ _ _ _ _ hdr agree data
          simp only [result_bind, Traced.all_bind]
          rw [← touched, decision]
          exact ⟨rfl, and_iff_left (all_pure _ _)⟩
        · rw [if_neg request, if_neg request, if_neg request, lengthFields_agree own data]
          obtain ⟨decision, _, touched⟩ :=
            @htcpHandleTstResponse_alike _ _ _ _ _ hdr queried agree data
          simp only [result_bind, Traced.all_bind]
          rw [← touched, decision]
          exact ⟨rfl, and_iff_left (all_pure _ _)⟩
      · rw [if_neg tst, if_neg tst, if_neg tst]
        by_cases clr : hdr.opcode = opClr
        · rw [if_pos clr, if_pos clr, if_pos clr]
          have later : ((14 : ℕ) : ℤ) + ((hdr.length : ℤ) - 8 - 2) ≤ d.length := by
            push_cast
            omega
          obtain ⟨decision, after, touched⟩ := @htcpHandleClr_alike _ _ _ _ _ hdr agree data
          simp only [result_bind, Traced.all_bind, result_readBytes, all_readBytes]
          rw [lengthFields_agree own later, ← touched, decision]
          have sent : (List.range (d.length : ℤ).toNat).map
              (octetAt (htcpHandleClr hdr (d ++ rest) 12 (hdr.length - 8)).result.2) =
                (List.range (d.length : ℤ).toNat).map
                  (octetAt (htcpHandleClr hdr (d ++ rest') 12 (hdr.length - 8)).result.2) := by
            refine List.map_congr_left fun i member => after i ?_
            have := List.mem_range.mp member
            omega
          rw [sent]
          refine ⟨rfl, and_iff_left ⟨?_, all_pure _ _⟩⟩
          exact (show 0 + (d.length : ℤ).toNat ≤ d.length + 1 by omega)
        · rw [if_neg clr, if_neg clr, if_neg clr]
          exact ⟨rfl, iff_of_true (all_pure _ _) (by simp)⟩

/-- `sizeof(buf)` in `htcpRecv`. -/
def bufSize : ℕ := 8192

/-- An HTCP datagram is judged by its own bytes if every length is expected before its end. -/
theorem htcp_judgedAlone_iff (queried : ℕ → Bool) (fits : d.length < bufSize) :
    JudgedAlone bufSize (fun buf => htcpHandleMsg queried buf d.length) d ↔ Complete queried d := by
  constructor
  · rintro ⟨_, within⟩
    have size : d.length + (List.replicate (bufSize - d.length) (0 : UInt8)).length = bufSize := by
      rw [List.length_replicate]
      omega
    exact (htcpHandleMsg_alike queried d _ []).2.mp (within _ size)
  · intro complete
    exact ⟨fun rest rest' _ _ => (htcpHandleMsg_alike queried d rest rest').1,
      fun rest _ => (htcpHandleMsg_alike queried d rest []).2.mpr complete⟩

end Handling

end Htcp

/-! ## Both protocols -/

/--
A peer datagram is judged by its own bytes exactly if it is not an ICP query that ends before its
URL, and not an HTCP message in which a length is expected at the end or behind it.
-/
theorem datagrams_judgedAlone_iff (queried : ℕ → Bool) (d : CRuntime.Bytes) :
    (d.length < Icp.bufSize →
      (Datagram.JudgedAlone Icp.bufSize (Icp.icpReceive d.length) d ↔ ¬Icp.ShortQuery d)) ∧
    (d.length < Htcp.bufSize →
      (Datagram.JudgedAlone Htcp.bufSize (fun buf => Htcp.htcpHandleMsg queried buf d.length) d ↔
        Htcp.Complete queried d)) :=
  ⟨Icp.icp_judgedAlone_iff, Htcp.htcp_judgedAlone_iff queried⟩

/-- An ICP query for "a". -/
def icpQuery : CRuntime.Bytes := [1, 2, 0, 26] ++ List.replicate 20 0 ++ [97, 0]

/-- An HTCP request with four empty strings and an authenticator. -/
def htcpRequest : CRuntime.Bytes :=
  [0, 22, 0, 1, 0, 16, 16, 2, 0, 0, 0, 1] ++ List.replicate 8 0 ++ [0, 2]

theorem datagrams_judgedAlone : Datagram.JudgedAlone Icp.bufSize (Icp.icpReceive 26) icpQuery ∧
    Datagram.JudgedAlone Htcp.bufSize (fun buf => Htcp.htcpHandleMsg (fun _ => true) buf 22)
      htcpRequest := by
  refine ⟨((datagrams_judgedAlone_iff (fun _ => true) icpQuery).1 (by decide)).mpr fun short => ?_,
    ((datagrams_judgedAlone_iff (fun _ => true) htcpRequest).2 (by decide)).mpr fun hdr ok => ?_⟩
  · exact absurd short.2.1 (by decide)
  · have header : (Htcp.htcpUnpackMsg htcpRequest htcpRequest.length).result =
        .ok ⟨16, 1, 0, 1, 0, 1⟩ := by decide
    obtain rfl := Except.ok.inj (header.symm.trans ok)
    decide

/-- An ICP query that is a header only. -/
def cutQuery : CRuntime.Bytes := [1, 2, 0, 20] ++ List.replicate 16 0

/-- An HTCP request that ends with its first string. -/
def cutRequest : CRuntime.Bytes := [0, 14, 0, 1, 0, 10, 16, 2, 0, 0, 0, 1, 0, 0]

theorem not_judgedAlone : ¬Datagram.JudgedAlone Icp.bufSize (Icp.icpReceive 20) cutQuery ∧
    ¬Datagram.JudgedAlone Htcp.bufSize (fun buf => Htcp.htcpHandleMsg (fun _ => true) buf 14)
      cutRequest := by
  refine ⟨fun alone => ?_, fun alone => ?_⟩
  · exact (Icp.icp_judgedAlone_iff (by decide)).mp alone ⟨by decide, by decide, by decide,
      by decide⟩
  · have complete := (Htcp.htcp_judgedAlone_iff (fun _ => true) (by decide)).mp alone
    have touched := complete ⟨10, 1, 0, 1, 0, 1⟩ (by decide) 14 (by decide)
    exact absurd touched (by decide)

end Squid
