import Squid.Peer.Htcp

/-!
# HTCP messages on the wire

A message that fits is built as header, data header, operation data and authenticator, and is taken
apart again.  Three things go wrong on the way: the old format leaves out the message number, and
a purge takes an error of its specifier for a size and does not check the room for its reason.
-/

namespace Squid
namespace Htcp

open CRuntime Datagram Writes List HtcpStuff

/-! ## What a packet should be -/

/-- Counted strings. -/
def wire (strings : List Bytes) : Bytes := strings.flatMap fun s => net16 s.length ++ s

/-- The strings that a message carries. -/
def HtcpStuff.carried (stuff : HtcpStuff) : List (Option Text) :=
  if stuff.op = opClr ∨ stuff.rr = rrRequest then
    [stuff.S.method, stuff.S.uri, stuff.S.version, stuff.S.req_hdrs]
  else if stuff.f1 ≠ 0 then []
  else [stuff.D.resp_hdrs, stuff.D.entity_hdrs, stuff.D.cache_hdrs]

/-- Their bytes. -/
def HtcpStuff.strings (stuff : HtcpStuff) : List Bytes := stuff.carried.map text

/-- The operation data. -/
def HtcpStuff.opData (stuff : HtcpStuff) : Bytes :=
  (if stuff.op = opClr then net16 (stuff.reason % 2 ^ 16).toNat else []) ++ wire stuff.strings

/-- The length of the packet. -/
def HtcpStuff.size (stuff : HtcpStuff) : ℕ := 14 + stuff.opData.length

/-- The packet. -/
def HtcpStuff.packet (old_squid_format : Bool) (reserved : ℕ) (stuff : HtcpStuff) : Bytes :=
  net16 stuff.size ++ [0, if old_squid_format then 0 else 1] ++
    (dataHeader old_squid_format reserved stuff (8 + stuff.opData.length) ++ stuff.opData) ++ net16 2

/-- A `TST` or `CLR` request, or a `TST` response. -/
def HtcpStuff.Sent (stuff : HtcpStuff) : Prop :=
  stuff.op = opTst ∧ (stuff.rr = rrRequest ∨ stuff.rr = rrResponse) ∨
    stuff.op = opClr ∧ stuff.rr = rrRequest

/-! ## Building -/

section Building

variable {pkt : Packet} {buf buflen : ℕ} {stuff : HtcpStuff}

@[simp]
theorem length_net16 (x : ℕ) : (net16 x).length = 2 := rfl

@[simp]
theorem length_dataHeader (old_squid_format : Bool) (reserved : ℕ) (stuff : HtcpStuff)
    (length : ℕ) : (dataHeader old_squid_format reserved stuff length).length = 8 := by
  unfold dataHeader
  split <;> rfl

theorem text_short (s : Option Text) : (text s).length + 2 < 2 ^ 31 := by
  cases s with
  | none => decide
  | some s => exact s.short

theorem sizeSub_eq {off : ℕ} (inside : off ≤ buflen) (size : buflen < 2 ^ 64) :
    sizeSub buflen off = buflen - off := by
  unfold sizeSub
  omega

theorem htcpBuildCountstr_fits (s : Option Text) (size : buflen < 2 ^ 64)
    (room : 2 + (text s).length ≤ buflen) :
    htcpBuildCountstr pkt buf buflen s =
      (((2 + (text s).length : ℕ) : ℤ), write pkt buf (net16 (text s).length ++ text s)) := by
  have short := text_short s
  have left : sizeSub buflen 2 = buflen - 2 := @sizeSub_eq buflen 2 (by omega) size
  unfold htcpBuildCountstr
  rw [if_neg (by omega)]
  dsimp only
  rw [left, if_neg (by omega), int32_eq (by omega) (by omega),
    show buf + 2 = buf + (net16 (text s).length).length from rfl, write_append]
  congr 1

theorem htcpBuildCountstr_short (s : Option Text) (size : buflen < 2 ^ 64)
    (full : buflen < 2 + (text s).length) :
    ∃ after, htcpBuildCountstr pkt buf buflen s = (-1, after) := by
  unfold htcpBuildCountstr
  split
  · exact ⟨_, rfl⟩
  · have left : sizeSub buflen 2 = buflen - 2 := @sizeSub_eq buflen 2 (by omega) size
    dsimp only
    rw [left, if_pos (by omega)]
    exact ⟨_, rfl⟩

theorem wire_cons (s : Bytes) (strings : List Bytes) :
    wire (s :: strings) = net16 s.length ++ s ++ wire strings := flatMap_cons

theorem length_wire_cons (s : Bytes) (strings : List Bytes) :
    (wire (s :: strings)).length = 2 + s.length + (wire strings).length := by
  rw [wire_cons, length_append, length_append, length_net16]

/-- Strings that fit are written one after the other. -/
theorem buildCountstrs_fits (size : buflen < 2 ^ 64) (strings : List (Option Text)) {off : ℕ}
    (room : off + (wire (strings.map text)).length ≤ buflen) :
    buildCountstrs buf buflen pkt off strings =
      (((off + (wire (strings.map text)).length : ℕ) : ℤ),
        write pkt (buf + off) (wire (strings.map text))) := by
  induction strings generalizing pkt off with
  | nil => simp [buildCountstrs, wire]
  | cons s strings ih =>
      rw [List.map_cons, length_wire_cons] at room
      have left : sizeSub buflen off = buflen - off := sizeSub_eq (by omega) size
      have again := @ih (write pkt (buf + off) (net16 (text s).length ++ text s))
        (off + (2 + (text s).length)) (by omega)
      rw [buildCountstrs, Int.toNat_natCast, left, htcpBuildCountstr_fits s (by omega) (by omega)]
      dsimp only
      rw [if_neg (by omega), ← Nat.cast_add, again, List.map_cons, length_wire_cons, wire_cons,
        ← @write_append _ _ _ (net16 (text s).length ++ text s), length_append, length_net16]
      simp only [Nat.add_assoc]

/-- Strings that do not fit are an error. -/
theorem buildCountstrs_short (size : buflen < 2 ^ 64) (strings : List (Option Text)) {off : ℕ}
    (inside : off ≤ buflen) (full : buflen < off + (wire (strings.map text)).length) :
    ∃ after, buildCountstrs buf buflen pkt off strings = (-1, after) := by
  induction strings generalizing pkt off with
  | nil => simp [wire] at full; omega
  | cons s strings ih =>
      rw [List.map_cons, length_wire_cons] at full
      have left : sizeSub buflen off = buflen - off := sizeSub_eq inside size
      rw [buildCountstrs, Int.toNat_natCast, left]
      rcases Nat.lt_or_ge (buflen - off) (2 + (text s).length) with short | enough
      · obtain ⟨after, failed⟩ := @htcpBuildCountstr_short pkt (buf + off) (buflen - off) s
          (by omega) short
        rw [failed]
        exact ⟨after, rfl⟩
      · rw [htcpBuildCountstr_fits s (by omega) enough]
        dsimp only
        rw [if_neg (by omega), ← Nat.cast_add]
        exact ih (by omega) (by omega)

theorem not_clr (tst : stuff.op = opTst) : stuff.op ≠ opClr := by
  rw [tst]
  decide

theorem opData_tst (tst : stuff.op = opTst) : stuff.opData = wire stuff.strings := by
  rw [opData, if_neg (not_clr tst), List.nil_append]

theorem length_opData_clr (clr : stuff.op = opClr) :
    stuff.opData.length = 2 + (wire stuff.strings).length := by
  rw [opData, if_pos clr, length_append, length_net16]

theorem htcpBuildOpData_tst (tst : stuff.op = opTst)
    (kinds : stuff.rr = rrRequest ∨ stuff.rr = rrResponse) :
    htcpBuildOpData pkt buf buflen stuff = some (buildCountstrs buf buflen pkt 0 stuff.carried) := by
  have other := not_clr tst
  unfold htcpBuildOpData htcpBuildTstOpData carried
  rw [if_pos tst]
  rcases kinds with request | response
  · rw [if_pos request, if_pos (.inr request)]
    rfl
  · have asked : stuff.rr ≠ rrRequest := by rw [response]; decide
    rw [if_neg asked, if_pos response, if_neg (not_or.mpr ⟨other, asked⟩)]
    split <;> rfl

theorem htcpBuildOpData_clr (clr : stuff.op = opClr) (request : stuff.rr = rrRequest) :
    htcpBuildOpData pkt buf buflen stuff =
      let built := buildCountstrs (buf + 2) (sizeSub buflen 2)
        (write pkt buf (net16 (stuff.reason % 2 ^ 16).toNat)) 0 stuff.carried
      some (built.1 + 2, built.2) := by
  have other : stuff.op ≠ opTst := by rw [clr]; decide
  unfold htcpBuildOpData htcpBuildClrOpData carried
  rw [if_neg other, if_pos clr, if_pos request, if_pos (.inl clr)]
  rfl

/-- The operation data are written if the strings fit in what the builder takes for the room. -/
theorem htcpBuildOpData_fits (sent : stuff.Sent) (size : buflen < 2 ^ 64)
    (room : stuff.op = opTst ∧ stuff.opData.length ≤ buflen ∨
      stuff.op = opClr ∧ stuff.opData.length ≤ sizeSub buflen 2 + 2) :
    htcpBuildOpData pkt buf buflen stuff =
      some ((stuff.opData.length : ℤ), write pkt buf stuff.opData) := by
  rcases sent with ⟨tst, kinds⟩ | ⟨clr, request⟩
  · have fits := (room.resolve_right fun wrong => not_clr tst wrong.1).2
    rw [opData_tst tst] at fits ⊢
    have built := @buildCountstrs_fits pkt buf buflen size stuff.carried 0
      (by rw [Nat.zero_add]; exact fits)
    rw [Nat.zero_add, Nat.add_zero] at built
    rw [htcpBuildOpData_tst tst kinds]
    exact congrArg some built
  · have fits := (room.resolve_left fun wrong => not_clr wrong.1 clr).2
    rw [length_opData_clr clr] at fits
    have bound : sizeSub buflen 2 < 2 ^ 64 := by
      unfold sizeSub
      omega
    have built := @buildCountstrs_fits (write pkt buf (net16 (stuff.reason % 2 ^ 16).toNat))
      (buf + 2) (sizeSub buflen 2) bound stuff.carried 0
      (by rw [Nat.zero_add]; unfold strings at fits; omega)
    rw [Nat.zero_add, Nat.add_zero] at built
    rw [htcpBuildOpData_clr clr request, opData, if_pos clr, ← write_append,
      length_append, length_net16]
    simp only [Nat.cast_zero] at built
    simp only [built]
    congr 2
    push_cast
    exact add_comm _ _

/-- Operation data that do not fit: an error, which a purge turns into a size. -/
theorem htcpBuildOpData_short (sent : stuff.Sent) (size : buflen < 2 ^ 64)
    (full : stuff.op = opTst ∧ buflen < stuff.opData.length ∨
      stuff.op = opClr ∧ sizeSub buflen 2 + 2 < stuff.opData.length) :
    ∃ after, htcpBuildOpData pkt buf buflen stuff =
      some (if stuff.op = opClr then 1 else -1, after) := by
  rcases sent with ⟨tst, kinds⟩ | ⟨clr, request⟩
  · have short := (full.resolve_right fun wrong => not_clr tst wrong.1).2
    rw [opData_tst tst] at short
    obtain ⟨after, built⟩ := @buildCountstrs_short pkt buf buflen size stuff.carried 0
      (Nat.zero_le _) (by rw [Nat.zero_add]; exact short)
    rw [htcpBuildOpData_tst tst kinds, if_neg (not_clr tst)]
    exact ⟨after, congrArg some built⟩
  · have short := (full.resolve_left fun wrong => not_clr wrong.1 clr).2
    rw [length_opData_clr clr] at short
    have bound : sizeSub buflen 2 < 2 ^ 64 := by
      unfold sizeSub
      omega
    obtain ⟨after, built⟩ := @buildCountstrs_short
      (write pkt buf (net16 (stuff.reason % 2 ^ 16).toNat)) (buf + 2) (sizeSub buflen 2) bound
      stuff.carried 0 (Nat.zero_le _) (by rw [Nat.zero_add]; unfold strings at short; omega)
    rw [htcpBuildOpData_clr clr request, if_pos clr]
    simp only [Nat.cast_zero] at built
    simp only [built]
    exact ⟨after, rfl⟩

/-! ### The packet -/

/-- The room that the operation data seem to have. -/
def Roomy (stuff : HtcpStuff) (buflen : ℕ) : Prop :=
  stuff.op = opTst ∧ stuff.opData.length ≤ buflen ∨
    stuff.op = opClr ∧ stuff.opData.length ≤ sizeSub buflen 2 + 2

variable {old : Bool} {reserved : ℕ} {room : UInt64}

theorem htcpBuildPacket_small (small : room.toNat < 12) :
    ∃ after, htcpBuildPacket old reserved room stuff = some (0, after) := by
  unfold htcpBuildPacket
  dsimp only
  split
  next => exact ⟨_, rfl⟩
  next header =>
    have left : sizeSub room.toNat 4 = room.toNat - 4 :=
      @sizeSub_eq _ 4 (by omega) room.toNat_lt
    have data : htcpBuildData old reserved (fun _ => none) 4 (sizeSub room.toNat 4) stuff =
        some (-1, fun _ => none) := by
      rw [left]
      exact if_pos (by omega)
    rw [data]
    exact ⟨_, rfl⟩

/-- The end of `htcpBuildPacket`, from the operation data on. -/
theorem htcpBuildPacket_opData {result : ℤ × Packet} (large : 12 ≤ room.toNat)
    (built : htcpBuildOpData (fun _ => none) 12 (room.toNat - 12) stuff = some result) :
    htcpBuildPacket old reserved room stuff =
      if result.1 < 0 then some (0, result.2)
      else
        let data := write result.2 4 (dataHeader old reserved stuff (8 + result.1).toNat)
        let auth := htcpBuildAuth data (12 + result.1).toNat (sizeSub room.toNat (12 + result.1))
        if auth.1 < 0 then some (0, auth.2)
        else some (12 + result.1 + auth.1, write auth.2 0
          (net16 (12 + result.1 + auth.1).toNat ++ [0, if old then 0 else 1])) := by
  have header : sizeSub room.toNat 4 = room.toNat - 4 :=
    @sizeSub_eq _ 4 (by omega) room.toNat_lt
  have left : sizeSub (room.toNat - 4) 8 = room.toNat - 12 := by
    rw [show (8 : ℤ) = (8 : ℕ) from rfl, sizeSub_eq (by omega) (by have := room.toNat_lt; omega)]
    omega
  have data : htcpBuildData old reserved (fun _ => none) 4 (room.toNat - 4) stuff =
      some (if result.1 < 0 then result
        else (8 + result.1, write result.2 4 (dataHeader old reserved stuff (8 + result.1).toNat))) := by
    unfold htcpBuildData
    rw [if_neg (by omega), left, built]
    rfl
  unfold htcpBuildPacket
  dsimp only
  rw [if_neg (by omega), header, data, Option.map_some]
  by_cases failed : result.1 < 0
  · simp only [failed, if_true]
  · simp only [failed, if_false]
    rw [if_neg (by omega), ← add_assoc, show (4 : ℤ) + 8 = 12 from rfl]
    by_cases auth : (htcpBuildAuth (write result.2 4 (dataHeader old reserved stuff
        (8 + result.1).toNat)) (12 + result.1).toNat (sizeSub room.toNat (12 + result.1))).1 < 0
    · simp only [auth, if_true]
    · simp only [auth, if_false]

/-- What seems to have room is written, and so is the authenticator if it seems to have room. -/
theorem htcpBuildPacket_roomy (sent : stuff.Sent) (large : 12 ≤ room.toNat)
    (roomy : Roomy stuff (room.toNat - 12)) :
    (2 ≤ sizeSub room.toNat (12 + stuff.opData.length : ℕ) →
      htcpBuildPacket old reserved room stuff =
        some ((stuff.size : ℤ), write (fun _ => none) 0 (stuff.packet old reserved))) ∧
    (sizeSub room.toNat (12 + stuff.opData.length : ℕ) < 2 →
      ∃ after, htcpBuildPacket old reserved room stuff = some (0, after)) := by
  have bound := room.toNat_lt
  have built := @htcpBuildOpData_fits (fun _ => none) 12 (room.toNat - 12) stuff sent
    (by omega) roomy
  have whole := @htcpBuildPacket_opData stuff old reserved room _ large built
  rw [if_neg (by dsimp only; omega)] at whole
  dsimp only at whole
  have data : (12 + (stuff.opData.length : ℤ)) = (12 + stuff.opData.length : ℕ) := by push_cast; rfl
  have header : (8 + (stuff.opData.length : ℤ)).toNat = 8 + stuff.opData.length := by omega
  rw [data, header, Int.toNat_natCast] at whole
  refine ⟨fun enough => ?_, fun short => ?_⟩
  · have auth (pkt : Packet) : htcpBuildAuth pkt (12 + stuff.opData.length)
        (sizeSub room.toNat (12 + stuff.opData.length : ℕ)) =
          (2, write pkt (12 + stuff.opData.length) (net16 2)) := if_neg (by omega)
    have total : ((12 + stuff.opData.length : ℕ) : ℤ) + 2 = (stuff.size : ℕ) := by
      rw [size]
      omega
    have front := @write_prepend _ (fun _ => none) 4
      (dataHeader old reserved stuff (8 + stuff.opData.length)) stuff.opData
    have middle := @write_append _ (fun _ => none) 4
      (dataHeader old reserved stuff (8 + stuff.opData.length) ++ stuff.opData) (net16 2)
    have start := @write_prepend _ (fun _ => none) 0
      (net16 stuff.size ++ [0, if old then 0 else 1])
      (dataHeader old reserved stuff (8 + stuff.opData.length) ++ stuff.opData ++ net16 2)
    rw [length_dataHeader] at front
    rw [length_append, length_dataHeader, ← Nat.add_assoc] at middle
    simp only [auth] at whole
    rw [if_neg (by omega), total, Int.toNat_natCast, front, middle] at whole
    rw [whole, packet, List.append_assoc (net16 stuff.size ++ _)]
    exact congrArg (fun pkt => some ((stuff.size : ℤ), pkt)) start
  · have auth (pkt : Packet) : htcpBuildAuth pkt (12 + stuff.opData.length)
        (sizeSub room.toNat (12 + stuff.opData.length : ℕ)) = (-1, pkt) := if_pos short
    simp only [auth] at whole
    exact ⟨_, whole.trans (if_pos (by decide))⟩

/-- What does not fit is an error, which a purge hides. -/
theorem htcpBuildPacket_short (sent : stuff.Sent) (large : 12 ≤ room.toNat)
    (short : ¬Roomy stuff (room.toNat - 12)) :
    ∃ after, htcpBuildPacket old reserved room stuff =
      some (if stuff.op = opClr ∧ 2 ≤ sizeSub room.toNat 13 then 15 else 0, after) := by
  have bound := room.toNat_lt
  have full : stuff.op = opTst ∧ room.toNat - 12 < stuff.opData.length ∨
      stuff.op = opClr ∧ sizeSub (room.toNat - 12) 2 + 2 < stuff.opData.length := by
    unfold Roomy at short
    rcases sent with ⟨tst, _⟩ | ⟨clr, _⟩
    · exact .inl ⟨tst, by by_contra fits; exact short (.inl ⟨tst, by omega⟩)⟩
    · exact .inr ⟨clr, by by_contra fits; exact short (.inr ⟨clr, by omega⟩)⟩
  obtain ⟨after, built⟩ := @htcpBuildOpData_short (fun _ => none) 12 (room.toNat - 12) stuff sent
    (by omega) full
  rw [htcpBuildPacket_opData large built]
  by_cases clr : stuff.op = opClr
  · simp only [clr, if_true, true_and]
    rw [if_neg (by decide), show (12 + 1 : ℤ) = 13 from rfl]
    by_cases enough : 2 ≤ sizeSub room.toNat 13
    · simp only [htcpBuildAuth, if_neg (show ¬sizeSub room.toNat 13 < 2 by omega), if_pos enough]
      exact ⟨_, if_neg (by decide)⟩
    · simp only [htcpBuildAuth, if_pos (show sizeSub room.toNat 13 < 2 by omega), if_neg enough]
      exact ⟨_, if_pos (by decide)⟩
  · simp only [clr, if_false, false_and]
    exact ⟨_, if_pos (by decide)⟩

/-- A purge that does not fit is noticed by chance only. -/
def HtcpStuff.Noticed (stuff : HtcpStuff) (room : ℕ) : Prop :=
  stuff.op = opClr → room < 12 ∨ room = 14 ∨ stuff.size ≤ room + 2

theorem htcpBuildPacket_fits (sent : stuff.Sent) (fits : stuff.size ≤ room.toNat) :
    htcpBuildPacket old reserved room stuff =
      some ((stuff.size : ℤ), write (fun _ => none) 0 (stuff.packet old reserved)) := by
  have bound := room.toNat_lt
  unfold size at fits
  refine (htcpBuildPacket_roomy sent (by omega) ?_).1 ?_
  · rcases sent with ⟨tst, _⟩ | ⟨clr, _⟩
    · exact .inl ⟨tst, by omega⟩
    · have length := length_opData_clr clr
      have left : sizeSub (room.toNat - 12) 2 = room.toNat - 12 - 2 :=
        @sizeSub_eq _ 2 (by omega) (by omega)
      exact .inr ⟨clr, by omega⟩
  · rw [sizeSub_eq (by omega) bound]
    omega

theorem length_opData_le (sent : stuff.Sent) : stuff.opData.length < 2 ^ 40 := by
  have four (a b c d : Option Text) : (wire [text a, text b, text c, text d]).length < 2 ^ 39 := by
    have := text_short a
    have := text_short b
    have := text_short c
    have := text_short d
    simp only [wire, flatMap_cons, flatMap_nil, length_append, length_net16, length_nil]
    omega
  have three (a b c : Option Text) : (wire [text a, text b, text c]).length < 2 ^ 39 := by
    have := four a b c none
    rw [length_wire_cons, length_wire_cons, length_wire_cons] at this ⊢
    simp only [wire, flatMap_cons, flatMap_nil, length_append, length_net16, length_nil] at this ⊢
    omega
  have strings : (wire stuff.strings).length < 2 ^ 39 := by
    unfold strings carried
    split
    · exact four _ _ _ _
    · split
      · decide
      · exact three _ _ _
  rcases sent with ⟨tst, _⟩ | ⟨clr, _⟩
  · rw [opData_tst tst]
    omega
  · rw [length_opData_clr clr]
    omega

theorem length_opData_ge (clr : stuff.op = opClr) : 10 ≤ stuff.opData.length := by
  rw [length_opData_clr clr, strings, carried, if_pos (.inl clr)]
  simp only [List.map_cons, length_wire_cons]
  omega

/-- A message that does not fit is refused, unless it is a purge that is not noticed. -/
theorem htcpBuildPacket_refused (sent : stuff.Sent) (full : room.toNat < stuff.size)
    (noticed : stuff.Noticed room.toNat) :
    ∃ after, htcpBuildPacket old reserved room stuff = some (0, after) := by
  have bound := room.toNat_lt
  rcases Nat.lt_or_ge room.toNat 12 with small | large
  · exact htcpBuildPacket_small small
  · by_cases roomy : Roomy stuff (room.toNat - 12)
    · refine (htcpBuildPacket_roomy sent large roomy).2 ?_
      have inside : 12 + stuff.opData.length ≤ room.toNat := by
        rcases roomy with ⟨_, fits⟩ | ⟨clr, fits⟩
        · omega
        · have length := length_opData_ge clr
          have cases := noticed clr
          unfold size at cases
          rcases Nat.lt_or_ge room.toNat 14 with tiny | enough
          · omega
          · have left : sizeSub (room.toNat - 12) 2 = room.toNat - 12 - 2 :=
              @sizeSub_eq _ 2 (by omega) (by omega)
            omega
      rw [sizeSub_eq inside bound]
      unfold size at full
      omega
    · obtain ⟨after, built⟩ := @htcpBuildPacket_short stuff old reserved room sent large roomy
      rw [if_neg] at built
      · exact ⟨after, built⟩
      · rintro ⟨clr, enough⟩
        have length := length_opData_ge clr
        have cases := noticed clr
        have left (at_least : 13 ≤ room.toNat) : sizeSub room.toNat 13 = room.toNat - 13 :=
          @sizeSub_eq _ 13 at_least bound
        refine roomy (.inr ⟨clr, ?_⟩)
        unfold size at cases
        have room_left : sizeSub (room.toNat - 12) 2 = room.toNat - 12 - 2 :=
          @sizeSub_eq _ 2 (by omega) (by omega)
        omega

/-- A purge that is not noticed gives a packet. -/
theorem htcpBuildPacket_unnoticed (sent : stuff.Sent)
    (unnoticed : ¬stuff.Noticed room.toNat) :
    ∃ n after, 0 < n ∧ htcpBuildPacket old reserved room stuff = some (n, after) := by
  have bound := room.toNat_lt
  unfold Noticed at unnoticed
  rw [Classical.not_imp] at unnoticed
  obtain ⟨clr, cases⟩ := unnoticed
  have length := length_opData_ge clr
  have short := length_opData_le sent
  have size : stuff.size = 14 + stuff.opData.length := rfl
  rcases Nat.lt_or_ge room.toNat 14 with tiny | enough
  · refine ⟨stuff.size, _, by omega, (htcpBuildPacket_roomy sent (by omega) ?_).1 ?_⟩
    · refine .inr ⟨clr, ?_⟩
      unfold sizeSub
      omega
    · unfold sizeSub
      omega
  · have left : sizeSub (room.toNat - 12) 2 = room.toNat - 12 - 2 :=
      @sizeSub_eq _ 2 (by omega) (by omega)
    have rest : sizeSub room.toNat 13 = room.toNat - 13 := @sizeSub_eq _ 13 (by omega) bound
    obtain ⟨after, built⟩ := @htcpBuildPacket_short stuff old reserved room sent (by omega) (by
      rintro (⟨tst, _⟩ | ⟨_, fits⟩)
      · exact not_clr tst clr
      · omega)
    rw [if_pos ⟨clr, by omega⟩] at built
    exact ⟨15, after, by decide, built⟩

end Building

/-! ## Taking apart -/

theorem word_net16 (front back : Bytes) (x : ℕ) :
    word (front ++ (net16 x ++ back)) front.length = x % 2 ^ 16 := by
  have first := octetAt_append front (net16 x ++ back) 0
  have second := octetAt_append front (net16 x ++ back) 1
  rw [Nat.add_zero] at first
  rw [word, first, second]
  simp only [net16, octetAt, cons_append, List.nil_append, getD_cons_zero,
    getD_cons_succ, UInt8.toNat_ofNat']
  omega

/-- A counted string where there is one. -/
theorem unpackCountstr_wire {front s back : Bytes} {sz : ℤ} (short : s.length < 2 ^ 16)
    (room : 2 + (s.length : ℤ) ≤ sz) :
    (unpackCountstr (front ++ (net16 s.length ++ back)) front.length sz).result =
      some (front.length + 2 + s.length, sz - 2 - s.length) := by
  simp only [unpackCountstr, Traced.result_bind, readBytes, word_net16, Nat.mod_eq_of_lt short]
  exact if_neg (by omega)

/-- Counted strings are found where they are, and the byte behind each of them becomes zero. -/
theorem unpackMore_wire {front : Bytes} {c : UInt8} {back : Bytes} (strings : List Bytes)
    (plain : ∀ s ∈ strings, 0 ∉ s) (short : ∀ s ∈ strings, s.length < 2 ^ 16) (starts : List ℕ) :
    ∃ tail found, (unpackMore (front ++ (wire strings ++ c :: back)) front.length
        (wire strings).length starts strings.length).result =
          (front ++ 0 :: tail, some (starts ++ found)) ∧
      found.map (stringAt (front ++ 0 :: tail)) = strings := by
  induction strings generalizing front starts with
  | nil =>
      refine ⟨back, [], ?_, rfl⟩
      simp [unpackMore, terminate, wire]
  | cons s strings ih =>
      have first := @unpackCountstr_wire front s (s ++ (wire strings ++ c :: back))
        (wire (s :: strings)).length (short s (by simp)) (by rw [length_wire_cons]; omega)
      have buffer : front ++ (wire (s :: strings) ++ c :: back) =
          front ++ (net16 s.length ++ (s ++ (wire strings ++ c :: back))) := by
        rw [wire_cons]
        simp only [List.append_assoc]
      have ended : (front ++ (net16 s.length ++ (s ++ (wire strings ++ c :: back)))).set
          front.length 0 = (front ++ (0 :: UInt8.ofNat s.length :: s)) ++
            (wire strings ++ c :: back) := by
        simp [net16]
      have next : (front ++ (0 :: UInt8.ofNat s.length :: s)).length =
          front.length + 2 + s.length := by
        simp only [length_append, length_cons]
        omega
      have left : (((wire (s :: strings)).length : ℤ) - 2 - s.length) = (wire strings).length := by
        rw [length_wire_cons]
        omega
      obtain ⟨tail, found, done, same⟩ := @ih (front ++ (0 :: UInt8.ofNat s.length :: s))
        (fun t member => plain t (by simp [member])) (fun t member => short t (by simp [member]))
        (starts ++ [front.length + 2])
      refine ⟨UInt8.ofNat s.length :: (s ++ 0 :: tail), (front.length + 2) :: found, ?_, ?_⟩
      · rw [buffer, length_cons, unpackMore]
        simp only [Traced.result_bind, first, terminate, ended]
        rw [← next, left, done]
        simp
      · have string := @stringAt_append (front ++ [0, UInt8.ofNat s.length]) s tail
          (plain s (by simp))
        simp only [List.append_assoc, cons_append, List.nil_append, length_append,
          length_cons, length_nil] at string same
        rw [List.map_cons]
        exact congrArg₂ _ string same

/-- Counted strings are unpacked as they were packed. -/
theorem unpackStrings_wire {front : Bytes} {c : UInt8} {back : Bytes} {strings : List Bytes}
    (some_strings : strings ≠ []) (plain : ∀ s ∈ strings, 0 ∉ s)
    (short : ∀ s ∈ strings, s.length < 2 ^ 16) :
    ∃ buf starts, (unpackStrings (front ++ (wire strings ++ c :: back)) front.length
        (wire strings).length strings.length).result = (buf, some starts) ∧
      starts.map (stringAt buf) = strings := by
  obtain ⟨s, more, rfl⟩ := exists_cons_of_ne_nil some_strings
  have first := @unpackCountstr_wire front s (s ++ (wire more ++ c :: back))
    (wire (s :: more)).length (short s (by simp)) (by rw [length_wire_cons]; omega)
  have buffer : front ++ (wire (s :: more) ++ c :: back) =
      front ++ (net16 s.length ++ (s ++ (wire more ++ c :: back))) := by
    rw [wire_cons]
    simp only [List.append_assoc]
  have split : front ++ (net16 s.length ++ (s ++ (wire more ++ c :: back))) =
      (front ++ (net16 s.length ++ s)) ++ (wire more ++ c :: back) := by
    simp only [List.append_assoc]
  have next : (front ++ (net16 s.length ++ s)).length = front.length + 2 + s.length := by
    simp only [length_append, length_net16]
    omega
  have left : (((wire (s :: more)).length : ℤ) - 2 - s.length) = (wire more).length := by
    rw [length_wire_cons]
    omega
  obtain ⟨tail, found, done, same⟩ := @unpackMore_wire (front ++ (net16 s.length ++ s)) c back more
    (fun t member => plain t (by simp [member])) (fun t member => short t (by simp [member]))
    [front.length + 2]
  refine ⟨front ++ (net16 s.length ++ s) ++ 0 :: tail, (front.length + 2) :: found, ?_, ?_⟩
  · rw [buffer, unpackStrings]
    simp only [Traced.result_bind, first, length_cons, Nat.add_sub_cancel]
    rw [← next, left, split, done]
    rfl
  · have string := @stringAt_append (front ++ net16 s.length) s tail (plain s (by simp))
    rw [length_append, length_net16] at string
    simp only [List.append_assoc] at string same ⊢
    rw [List.map_cons]
    exact congrArg₂ _ string same

/-- The strings that a handler finds in a message, whether or not it goes on to use them. -/
def unpacked (hdr : HtcpDataHeader) (buf : Bytes) : Option (List Bytes) :=
  let hsz : ℤ := hdr.length - 8
  let found : Bytes × Option (List ℕ) :=
    if hdr.opcode = opClr then (htcpUnpackSpecifier buf 14 (hsz - 2)).result
    else if hdr.RR = rrRequest then (htcpUnpackSpecifier buf 12 hsz).result
    else if hdr.F1 = 1 then (buf, some [])
    else (htcpUnpackDetail buf 12 hsz).result
  found.2.map fun starts => starts.map (stringAt found.1)

/-- An accepted message: its header and its strings. -/
def decode (buf : Bytes) (sz : ℤ) : Option (HtcpDataHeader × List Bytes) :=
  match (htcpUnpackMsg buf sz).result with
  | .error _ => none
  | .ok hdr => (unpacked hdr buf).map fun strings => (hdr, strings)

section Decoding

variable {old : Bool} {reserved : ℕ} {stuff : HtcpStuff} {rest : Bytes}

theorem bits_lt (width : ℕ) (x : ℤ) : bits width x < 2 ^ width := by
  have positive : (0 : ℤ) < 2 ^ width := pow_pos (by decide) width
  have low := Int.emod_nonneg x positive.ne'
  have high := Int.emod_lt_of_pos x positive
  have same : ((bits width x : ℕ) : ℤ) = x % 2 ^ width := Int.toNat_of_nonneg low
  exact_mod_cast same.trans_lt high

/-- The data header that arrives. -/
def HtcpStuff.header (old_squid_format : Bool) (stuff : HtcpStuff) : HtcpDataHeader :=
  { length := (8 + stuff.opData.length) % 2 ^ 16
    opcode := bits 4 stuff.op
    response := bits 4 stuff.response
    F1 := bits 1 stuff.f1
    RR := bits 1 stuff.rr
    msg_id := if old_squid_format then 0 else stuff.msg_id.toNat }

theorem unpackDataHeader_packet :
    unpackDataHeader old (stuff.packet old reserved ++ rest) = stuff.header old := by
  have op := bits_lt 4 stuff.op
  have response := bits_lt 4 stuff.response
  have f1 := bits_lt 1 stuff.f1
  have rr := bits_lt 1 stuff.rr
  have id := stuff.msg_id.toNat_lt
  cases old
  · simp only [unpackDataHeader, packet, dataHeader, header, octetAt, word,
      long, net16, net32, cons_append, List.nil_append, getD_cons_zero, getD_cons_succ,
      UInt8.toNat_ofNat', Bool.false_eq_true, if_false, HtcpDataHeader.mk.injEq]
    omega
  · simp only [unpackDataHeader, packet, dataHeader, header, octetAt, word,
      long, net16, net32, cons_append, List.nil_append, getD_cons_zero, getD_cons_succ,
      UInt8.toNat_ofNat', if_true, HtcpDataHeader.mk.injEq]
    omega

theorem length_packet : (stuff.packet old reserved).length = stuff.size := by
  simp only [packet, size, length_append, length_net16, length_dataHeader,
    length_cons, length_nil]
  omega

theorem htcpUnpackMsg_packet (sent : stuff.Sent) :
    (htcpUnpackMsg (stuff.packet old reserved ++ rest) stuff.size).result =
      if stuff.size < 2 ^ 16 then .ok (stuff.header old) else .error .length := by
  have size : stuff.size = 14 + stuff.opData.length := rfl
  have first : word (stuff.packet old reserved ++ rest) 0 = stuff.size % 2 ^ 16 := by
    simp only [packet, List.append_assoc]
    exact word_net16 [] _ stuff.size
  have major : octetAt (stuff.packet old reserved ++ rest) 2 = 0 := by
    simp [packet, octetAt, net16]
  have minor : (octetAt (stuff.packet old reserved ++ rest) 3 == 0) = old := by
    cases old <;> simp [packet, octetAt, net16]
  have opcode : (stuff.header old).opcode < opEnd := by
    rcases sent with ⟨op, _⟩ | ⟨op, _⟩
    · simp only [header, op]
      decide
    · simp only [header, op]
      decide
  unfold htcpUnpackMsg
  rw [if_neg (by omega)]
  simp only [Traced.result_bind, result_readBytes, first, major]
  by_cases small : stuff.size < 2 ^ 16
  · have checked : checkHeader stuff.size (stuff.size % 2 ^ 16) 0 = none := by
      unfold checkHeader
      rw [if_neg (by omega), if_neg (by simp), if_neg (by omega)]
    have length : (stuff.header old).length = 8 + stuff.opData.length := by
      simp only [header]
      omega
    rw [checked, if_pos small]
    simp only [Traced.result_bind, result_readBytes, minor, unpackDataHeader_packet,
      Traced.result_pure]
    unfold checkDataHeader
    rw [if_neg (by omega), if_neg (by omega)]
  · have checked : checkHeader stuff.size (stuff.size % 2 ^ 16) 0 = some .length :=
      if_pos (by omega)
    rw [checked, if_neg small]
    rfl

theorem text_plain (s : Option Text) : 0 ∉ text s := by
  cases s with
  | none => simp [text]
  | some s => exact s.plain

theorem plain_strings (s : Bytes) (member : s ∈ stuff.strings) : 0 ∉ s := by
  obtain ⟨t, _, rfl⟩ := List.mem_map.mp member
  exact text_plain t

theorem length_le_wire {s : Bytes} {strings : List Bytes} (member : s ∈ strings) :
    s.length ≤ (wire strings).length := by
  induction strings with
  | nil => simp at member
  | cons t strings ih =>
      rw [length_wire_cons]
      rcases mem_cons.mp member with rfl | later
      · omega
      · have := ih later
        omega

/-- The bytes before the operation data. -/
def HtcpStuff.front (old_squid_format : Bool) (reserved : ℕ) (stuff : HtcpStuff) : Bytes :=
  net16 stuff.size ++ [0, if old_squid_format then 0 else 1] ++
    dataHeader old_squid_format reserved stuff (8 + stuff.opData.length)

theorem length_front : (stuff.front old reserved).length = 12 := by
  simp only [front, length_append, length_net16, length_dataHeader,
    length_cons, length_nil]

theorem packet_append : stuff.packet old reserved ++ rest =
    stuff.front old reserved ++ (stuff.opData ++ 0 :: 2 :: rest) := by
  simp only [packet, front, List.append_assoc]
  rfl

/-- Strings that a handler looks for where they are. -/
theorem unpackStrings_packet {front : Bytes} {pos count : ℕ} {sz : ℤ}
    (small : stuff.size < 2 ^ 16) (place : front.length = pos)
    (room : sz = (wire stuff.strings).length) (number : stuff.strings.length = count)
    (some_strings : count ≠ 0) :
    ((unpackStrings (front ++ (wire stuff.strings ++ 0 :: 2 :: rest)) pos sz count).result.2.map
      fun starts => starts.map (stringAt
        (unpackStrings (front ++ (wire stuff.strings ++ 0 :: 2 :: rest)) pos sz count).result.1)) =
      some stuff.strings := by
  subst place room number
  have size : stuff.size = 14 + stuff.opData.length := rfl
  have within : (wire stuff.strings).length ≤ stuff.opData.length := by
    rw [opData, length_append]
    exact Nat.le_add_left _ _
  have short (s : Bytes) (member : s ∈ stuff.strings) : s.length < 2 ^ 16 := by
    have := length_le_wire member
    omega
  obtain ⟨buf, starts, done, same⟩ := @unpackStrings_wire front 0 (2 :: rest) stuff.strings
    (fun none => some_strings (by rw [none]; rfl)) plain_strings short
  rw [done]
  exact congrArg some same

/-- The strings of a message arrive. -/
theorem unpacked_packet (sent : stuff.Sent) (small : stuff.size < 2 ^ 16)
    (flag : stuff.f1 = 0 ∨ stuff.f1 = 1) :
    unpacked (stuff.header old) (stuff.packet old reserved ++ rest) = some stuff.strings := by
  have size : stuff.size = 14 + stuff.opData.length := rfl
  have length : ((stuff.header old).length : ℤ) = 8 + stuff.opData.length := by
    simp only [header]
    omega
  have place := @length_front old reserved stuff
  rw [packet_append]
  unfold unpacked
  rcases sent with ⟨tst, request | response⟩ | ⟨clr, request⟩
  · have opcode : (stuff.header old).opcode ≠ opClr := by
      simp only [header, tst]
      decide
    have rr : (stuff.header old).RR = rrRequest := by
      simp only [header, request]
      decide
    have number : stuff.strings.length = 4 := by
      rw [strings, carried, if_pos (.inr request)]
      rfl
    simp only [opcode, rr, if_true, if_false]
    rw [opData_tst tst] at length ⊢
    exact unpackStrings_packet small place (by omega) number (by decide)
  · have opcode : (stuff.header old).opcode ≠ opClr := by
      simp only [header, tst]
      decide
    have rr : (stuff.header old).RR ≠ rrRequest := by
      simp only [header, response]
      decide
    have asked : stuff.rr ≠ rrRequest := by
      rw [response]
      decide
    simp only [opcode, rr, if_false]
    rcases flag with hit | miss
    · have f1 : (stuff.header old).F1 ≠ 1 := by
        simp only [header, hit]
        decide
      have number : stuff.strings.length = 3 := by
        rw [strings, carried, if_neg (not_or.mpr ⟨not_clr tst, asked⟩),
          if_neg (not_not.mpr hit)]
        rfl
      simp only [f1, if_false]
      rw [opData_tst tst] at length ⊢
      exact unpackStrings_packet small place (by omega) number (by decide)
    · have f1 : (stuff.header old).F1 = 1 := by
        simp only [header, miss]
        decide
      have none : stuff.strings = [] := by
        rw [strings, carried, if_neg (not_or.mpr ⟨not_clr tst, asked⟩),
          if_pos (by rw [miss]; decide)]
        rfl
      simp only [f1, if_true, none]
      rfl
  · have opcode : (stuff.header old).opcode = opClr := by
      simp only [header, clr]
      decide
    have number : stuff.strings.length = 4 := by
      rw [strings, carried, if_pos (.inl clr)]
      rfl
    have longer := length_opData_clr clr
    have split : stuff.front old reserved ++ (stuff.opData ++ 0 :: 2 :: rest) =
        (stuff.front old reserved ++ net16 (stuff.reason % 2 ^ 16).toNat) ++
          (wire stuff.strings ++ 0 :: 2 :: rest) := by
      rw [opData, if_pos clr]
      simp only [List.append_assoc]
    simp only [opcode, if_true]
    rw [split]
    refine unpackStrings_packet small ?_ (by omega) number (by decide)
    rw [length_append, place, length_net16]

end Decoding

/-! ## The round trip -/

/--
What is expected of `htcpBuildPacket`: a packet lies within its buffer and is taken apart to the
message, and there is none exactly when the message does not fit.
-/
def RoundTrips (old_squid_format : Bool) (reserved : ℕ) (room : UInt64) (stuff : HtcpStuff)
    (before : ℕ → UInt8) (rest : Bytes) : Prop :=
  ∃ n pkt, htcpBuildPacket old_squid_format reserved room stuff = some (n, pkt) ∧
    (0 < n → n ≤ room.toNat ∧ (∀ i, room.toNat ≤ i → pkt i = none) ∧
      ∃ hdr strings, decode (segment pkt before n.toNat ++ rest) n = some (hdr, strings) ∧
        (hdr.opcode : ℤ) = stuff.op ∧ (hdr.RR : ℤ) = stuff.rr ∧ (hdr.F1 : ℤ) = stuff.f1 ∧
        (hdr.response : ℤ) = stuff.response ∧ hdr.msg_id = stuff.msg_id.toNat ∧
        strings = stuff.strings) ∧
    (n = 0 ↔ room.toNat < stuff.size)

/-- When it does what is expected. -/
def HtcpStuff.Sound (stuff : HtcpStuff) (old_squid_format : Bool) (room : ℕ) : Prop :=
  stuff.Noticed room ∧ (stuff.size ≤ room → stuff.size < 2 ^ 16 ∧
    (0 ≤ stuff.response ∧ stuff.response < 16) ∧ (stuff.f1 = 0 ∨ stuff.f1 = 1) ∧
    (old_squid_format = true → stuff.msg_id = 0))

section RoundTrip

variable {old : Bool} {reserved : ℕ} {room : UInt64} {stuff : HtcpStuff} {before : ℕ → UInt8}
  {rest : Bytes}

theorem segment_packet : segment (write (fun _ => none) 0 (stuff.packet old reserved)) before
    ((stuff.size : ℤ)).toNat = stuff.packet old reserved := by
  rw [Int.toNat_natCast, ← @length_packet old reserved stuff]
  exact segment_write_zero _ before

theorem roundTrips_of_sound (sent : stuff.Sent) (sound : stuff.Sound old room.toNat) :
    RoundTrips old reserved room stuff before rest := by
  obtain ⟨noticed, fields⟩ := sound
  have size : stuff.size = 14 + stuff.opData.length := rfl
  rcases Nat.lt_or_ge room.toNat stuff.size with full | fits
  · obtain ⟨after, built⟩ := @htcpBuildPacket_refused stuff old reserved room sent full noticed
    exact ⟨0, after, built, fun positive => absurd positive (by decide), iff_of_true rfl full⟩
  · obtain ⟨small, response, flag, id⟩ := fields fits
    refine ⟨_, _, htcpBuildPacket_fits sent fits, fun _ => ⟨by omega, fun i outside => ?_, ?_⟩, ?_⟩
    · rw [write_zero, List.getElem?_eq_none (by rw [length_packet]; omega)]
    · refine ⟨stuff.header old, stuff.strings, ?_, ?_, ?_, ?_, ?_, ?_, rfl⟩
      · rw [segment_packet, decode, htcpUnpackMsg_packet sent, if_pos small]
        dsimp only
        rw [unpacked_packet sent small flag]
        rfl
      · rcases sent with ⟨op, _⟩ | ⟨op, _⟩
        · rw [header, op]
          rfl
        · rw [header, op]
          rfl
      · rcases sent with ⟨_, rr | rr⟩ | ⟨_, rr⟩
        all_goals
          rw [header, rr]
          rfl
      · rcases flag with f1 | f1
        all_goals
          rw [header, f1]
          rfl
      · simp only [header, bits]
        omega
      · cases old
        · rfl
        · rw [id rfl]
          rfl
    · exact iff_of_false (by omega) (by omega)

theorem sound_of_roundTrips (sent : stuff.Sent)
    (works : RoundTrips old reserved room stuff before rest) : stuff.Sound old room.toNat := by
  obtain ⟨n, pkt, built, arrives, zero⟩ := works
  refine ⟨?_, fun fits => ?_⟩
  · by_contra unnoticed
    obtain ⟨m, after, positive, packed⟩ := @htcpBuildPacket_unnoticed stuff old reserved
      room sent unnoticed
    rw [built, Option.some.injEq, Prod.mk.injEq] at packed
    have full : room.toNat < stuff.size := by
      unfold Noticed at unnoticed
      omega
    have none := zero.mpr full
    omega
  · have size : stuff.size = 14 + stuff.opData.length := rfl
    rw [htcpBuildPacket_fits sent fits, Option.some.injEq, Prod.mk.injEq] at built
    obtain ⟨rfl, rfl⟩ := built
    obtain ⟨_, _, hdr, strings, decoded, _, _, f1, response, id, _⟩ := arrives (by omega)
    rw [segment_packet, decode, htcpUnpackMsg_packet sent] at decoded
    by_cases small : stuff.size < 2 ^ 16
    · rw [if_pos small] at decoded
      obtain ⟨found, _, same⟩ := Option.map_eq_some_iff.mp decoded
      obtain ⟨rfl, rfl⟩ := Prod.mk.injEq .. ▸ same
      have flag := bits_lt 1 stuff.f1
      have code := bits_lt 4 stuff.response
      simp only [header] at f1 response id
      refine ⟨small, by omega, by omega, ?_⟩
      rintro rfl
      exact UInt32.toNat_inj.mp id.symm
    · rw [if_neg small] at decoded
      simp at decoded

/--
A message makes the round trip exactly if, when it fits, it is shorter than 64 KB, its fields are
in their ranges and its number is zero in the old format, and if, when it is a purge that does not
fit, the buffer has a size at which this is noticed.
-/
theorem htcpBuildPacket_roundTrips_iff (sent : stuff.Sent) :
    RoundTrips old reserved room stuff before rest ↔ stuff.Sound old room.toNat :=
  ⟨sound_of_roundTrips sent, roundTrips_of_sound sent⟩

end RoundTrip

/-- The string "GET". -/
def get : Text := ⟨[71, 69, 84], by decide, by decide⟩

/-- The first query for "/". -/
def firstQuery : HtcpStuff :=
  { op := 1, rr := 0, f1 := 1, response := 0, reason := 0, msg_id := 1
    S := ⟨some get, some ⟨[47], by decide, by decide⟩, none, none⟩, D := ⟨none, none, none⟩ }

theorem firstQuery_roundTrips : RoundTrips false 0 8192 firstQuery (fun _ => 0) [] :=
  (htcpBuildPacket_roundTrips_iff (.inl ⟨rfl, .inl rfl⟩)).mpr
    ⟨fun clr => absurd clr (by decide), fun _ => by decide⟩

/-- A string of a given length. -/
def filler (n : ℕ) (short : n + 2 < 2 ^ 31) : Text :=
  ⟨List.replicate n 97, fun zero => absurd (eq_of_mem_replicate zero) (by decide),
    length_replicate.symm ▸ short⟩

theorem length_filler (n : ℕ) (short : n + 2 < 2 ^ 31) :
    (text (some (filler n short))).length = n :=
  length_replicate

/-- A purge of "/" with 8200 bytes of request headers. -/
def longPurge : HtcpStuff :=
  { op := 4, rr := 0, f1 := 0, response := 0, reason := 0, msg_id := 1
    S := ⟨some get, some ⟨[47], by decide, by decide⟩, none, some (filler 8200 (by decide))⟩
    D := ⟨none, none, none⟩ }

theorem size_longPurge : longPurge.size = 8228 := by
  have wired : longPurge.strings = [text (some get), [47], [],
    text (some (filler 8200 (by decide)))] :=
    rfl
  rw [size, length_opData_clr rfl, wired]
  simp only [length_wire_cons, length_filler]
  rfl

/-- The number of a query gets lost in the old format, and a part of a purge is sent. -/
theorem not_roundTrips : ¬RoundTrips true 0 8192 firstQuery (fun _ => 0) [] ∧
    ¬RoundTrips false 0 8192 longPurge (fun _ => 0) [] := by
  refine ⟨fun works => ?_, fun works => ?_⟩
  · have sound := sound_of_roundTrips (.inl ⟨rfl, .inl rfl⟩) works
    exact absurd ((sound.2 (by decide)).2.2.2 rfl) (by decide)
  · have cases := (sound_of_roundTrips (.inr ⟨rfl, rfl⟩) works).1 rfl
    rw [size_longPurge] at cases
    exact absurd cases (by decide)

end Htcp
end Squid
