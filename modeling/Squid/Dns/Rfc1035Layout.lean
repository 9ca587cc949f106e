import Squid.Dns.Rfc1035
import Mathlib.Logic.Relation

/-!
# Where the parts of a DNS message lie

The layout is described on the bytes of the message alone: the places that the decoding of a
name comes to, where the name ends, and where the answers start.  Offsets wrap around at 2 ^ 32
as in the source.
-/

namespace Squid
namespace Rfc1035

open CRuntime

/-! ## Names -/

/-- A place that the decoding of a name comes to. -/
structure Place where
  /-- Position in the message. -/
  off : ℕ
  /-- Bytes left in the buffer for the name. -/
  room : ℕ
  /-- Number of compression pointers followed. -/
  rdepth : ℕ

/-- A label that lies inside the message and fits into the buffer. -/
structure Label (buf : Memory) (sz : ℕ) (p : Place) : Prop where
  inside : p.off < sz
  pos : (buf p.off).toNat ≠ 0
  short : (buf p.off).toNat ≤ maxLabelSz
  fits : (buf p.off).toNat < p.room
  ends : uint32 (p.off + 1) + (buf p.off).toNat < sz

/-- A compression pointer to another place of the message. -/
structure Pointer (buf : Memory) (sz : ℕ) (p : Place) : Prop where
  inside : p.off < sz
  marked : 191 < (buf p.off).toNat
  shallow : p.rdepth ≤ 64
  ends : uint32 (p.off + 2) ≤ sz
  target : word buf p.off % 2 ^ 14 < sz

/-- The place behind a label. -/
def Place.skip (buf : Memory) (p : Place) : Place :=
  ⟨uint32 (uint32 (p.off + 1) + (buf p.off).toNat), p.room - ((buf p.off).toNat + 1), p.rdepth⟩

/-- The place a compression pointer leads to. -/
def Place.jump (buf : Memory) (p : Place) : Place :=
  ⟨word buf p.off % 2 ^ 14, p.room, p.rdepth + 1⟩

/-- The decoding of a name goes on at another place. -/
inductive Follows (buf : Memory) (sz : ℕ) : Place → Place → Prop
  | label {p : Place} : Label buf sz p → (p.skip buf).room ≠ 0 → Follows buf sz p (p.skip buf)
  | pointer {p : Place} : Pointer buf sz p → Follows buf sz p (p.jump buf)

/-- The decoding of a name succeeds, and what is encoded at the place itself ends at an offset. -/
inductive Ends (buf : Memory) (sz : ℕ) : Place → ℕ → Prop
  | root {p : Place} : p.off < sz → (buf p.off).toNat = 0 → Ends buf sz p (uint32 (p.off + 1))
  | full {p : Place} : Label buf sz p → (p.skip buf).room = 0 → Ends buf sz p (p.skip buf).off
  | label {p : Place} {off : ℕ} : Label buf sz p → (p.skip buf).room ≠ 0 →
      Ends buf sz (p.skip buf) off → Ends buf sz p off
  | pointer {p : Place} {off : ℕ} : Pointer buf sz p → Ends buf sz (p.jump buf) off →
      Ends buf sz p (uint32 (p.off + 2))

/-- A compression pointer of which only the first byte lies inside the message. -/
structure Dangling (buf : Memory) (sz : ℕ) (p : Place) : Prop where
  last : p.off + 1 = sz
  marked : 191 < (buf p.off).toNat
  shallow : p.rdepth ≤ 64

/-- Decoding a name that starts at the place comes to a dangling pointer. -/
def Dangles (buf : Memory) (sz : ℕ) (p : Place) : Prop :=
  ∃ q, Relation.ReflTransGen (Follows buf sz) p q ∧ Dangling buf sz q

/-- Where the decoding of a name starts. -/
def nameAt (off : ℕ) : Place := ⟨off, maxHostNameSz, 0⟩

variable {buf : Memory} {p : Place} {sz : ℕ}

theorem dangles_iff :
    Dangles buf sz p ↔ Dangling buf sz p ∨ ∃ q, Follows buf sz p q ∧ Dangles buf sz q := by
  constructor
  · rintro ⟨q, reach, dangling⟩
    obtain rfl | ⟨r, step, rest⟩ := Relation.ReflTransGen.cases_head reach
    · exact .inl dangling
    · exact .inr ⟨r, step, q, rest, dangling⟩
  · rintro (dangling | ⟨r, step, q, rest, dangling⟩)
    · exact ⟨p, .refl, dangling⟩
    · exact ⟨q, .head step rest, dangling⟩

theorem follows_pointer_iff {q : Place} (marked : 191 < (buf p.off).toNat) :
    Follows buf sz p q ↔ Pointer buf sz p ∧ q = p.jump buf := by
  constructor
  · intro step
    cases step with
    | label label => exact absurd label.short (by simp only [maxLabelSz]; omega)
    | pointer pointer => exact ⟨pointer, rfl⟩
  · rintro ⟨pointer, rfl⟩
    exact .pointer pointer

theorem follows_label_iff {q : Place} (unmarked : ¬ 191 < (buf p.off).toNat) :
    Follows buf sz p q ↔ Label buf sz p ∧ (p.skip buf).room ≠ 0 ∧ q = p.skip buf := by
  constructor
  · intro step
    cases step with
    | label label room => exact ⟨label, room, rfl⟩
    | pointer pointer => exact absurd pointer.marked unmarked
  · rintro ⟨label, room, rfl⟩
    exact .label label room

theorem dangles_pointer_iff (marked : 191 < (buf p.off).toNat) :
    Dangles buf sz p ↔ Dangling buf sz p ∨ Pointer buf sz p ∧ Dangles buf sz (p.jump buf) := by
  rw [dangles_iff]
  simp only [follows_pointer_iff marked, and_assoc, exists_and_left, exists_eq_left]

theorem dangles_label_iff (unmarked : ¬ 191 < (buf p.off).toNat) :
    Dangles buf sz p ↔
      Label buf sz p ∧ (p.skip buf).room ≠ 0 ∧ Dangles buf sz (p.skip buf) := by
  have safe : ¬ Dangling buf sz p := fun dangling => unmarked dangling.marked
  rw [dangles_iff]
  simp only [follows_label_iff unmarked, and_assoc, exists_and_left, exists_eq_left, safe, false_or]

variable {off : ℕ}

theorem ends_pointer_iff (marked : 191 < (buf p.off).toNat) :
    Ends buf sz p off ↔
      Pointer buf sz p ∧ off = uint32 (p.off + 2) ∧ ∃ inner, Ends buf sz (p.jump buf) inner := by
  constructor
  · intro ends
    cases ends with
    | root inside zero => omega
    | full label | label label => exact absurd label.short (by simp only [maxLabelSz]; omega)
    | pointer pointer inner => exact ⟨pointer, rfl, _, inner⟩
  · rintro ⟨pointer, rfl, inner, ends⟩
    exact .pointer pointer ends

theorem ends_label_iff (unmarked : ¬ 191 < (buf p.off).toNat) (pos : (buf p.off).toNat ≠ 0) :
    Ends buf sz p off ↔ Label buf sz p ∧
      ((p.skip buf).room = 0 ∧ off = (p.skip buf).off ∨
        (p.skip buf).room ≠ 0 ∧ Ends buf sz (p.skip buf) off) := by
  constructor
  · intro ends
    cases ends with
    | root inside zero => exact absurd zero pos
    | full label full => exact ⟨label, .inl ⟨full, rfl⟩⟩
    | label label room rest => exact ⟨label, .inr ⟨room, rest⟩⟩
    | pointer pointer => exact absurd pointer.marked unmarked
  · rintro ⟨label, ⟨full, rfl⟩ | ⟨room, rest⟩⟩
    · exact .full label full
    · exact .label label room rest

theorem ends_root_iff (zero : (buf p.off).toNat = 0) :
    Ends buf sz p off ↔ p.off < sz ∧ off = uint32 (p.off + 1) := by
  constructor
  · intro ends
    cases ends with
    | root inside => exact ⟨inside, rfl⟩
    | full label => exact absurd zero label.pos
    | label label => exact absurd zero label.pos
    | pointer pointer =>
        have := pointer.marked
        omega
  · rintro ⟨inside, rfl⟩
    exact .root inside zero

theorem Ends.lt (ends : Ends buf sz p off) : off < 2 ^ 32 := by
  induction ends with
  | root => exact uint32_lt _
  | full => exact uint32_lt _
  | label _ _ _ ih => exact ih
  | pointer => exact uint32_lt _

/-! ## Records -/

/--
One of the fields, each given by its distance and its width, starts below 2 ^ 32 and ends
behind the message.
-/
def Straddles (sz off : ℕ) (fields : List (ℕ × ℕ)) : Prop :=
  ∃ field ∈ fields, off + field.1 < 2 ^ 32 ∧ sz < off + field.1 + field.2

/-- Distances and widths of the fields of a query. -/
def queryFields : List (ℕ × ℕ) := [(0, 2), (2, 2)]

/-- Distances and widths of the fixed fields of a record. -/
def recordFields : List (ℕ × ℕ) := [(0, 2), (2, 2), (4, 4), (8, 2)]

/-- A record whose data starts at an offset holds a name there that ends inside the data. -/
def NameInside (dnsCname : Bool) (buf : Memory) (sz type data rdlength : ℕ) : Prop :=
  holdsName dnsCname type →
    ∃ inner, Ends buf sz (nameAt data) inner ∧ inner ≤ uint32 (data + rdlength)

/-- The record at an offset is accepted and ends at another one. -/
def RecordEnds (dnsCname : Bool) (buf : Memory) (sz off next : ℕ) : Prop :=
  ∃ mid, Ends buf sz (nameAt off) mid ∧ uint32 (mid + 10) ≤ sz ∧
    uint32 (uint32 (mid + 10) + word buf (uint32 (mid + 8))) ≤ sz ∧
    NameInside dnsCname buf sz (word buf mid) (uint32 (mid + 10)) (word buf (uint32 (mid + 8))) ∧
    next = uint32 (uint32 (mid + 10) + word buf (uint32 (mid + 8)))

/--
The data of a record goes beyond the message: its name has a dangling pointer, or its other
data is longer than what is left although the sum of offset and length, once wrapped, is not.
-/
def DataOverruns (dnsCname : Bool) (buf : Memory) (sz type data rdlength : ℕ) : Prop :=
  uint32 (data + rdlength) ≤ sz ∧
    if holdsName dnsCname type then Dangles buf sz (nameAt data) else sz < data + rdlength

/-- The record at an offset goes beyond the message. -/
def RecordOverruns (dnsCname : Bool) (buf : Memory) (sz off : ℕ) : Prop :=
  Dangles buf sz (nameAt off) ∨
    ∃ mid, Ends buf sz (nameAt off) mid ∧ uint32 (mid + 10) ≤ sz ∧
      (Straddles sz mid recordFields ∨
        DataOverruns dnsCname buf sz (word buf mid) (uint32 (mid + 10))
          (word buf (uint32 (mid + 8))))

/-! ## Messages -/

/-- Behind an accepted record comes the next one, while there are any left. -/
inductive NextAnswer (dnsCname : Bool) (buf : Memory) (sz : ℕ) : ℕ × ℕ → ℕ × ℕ → Prop
  | next {left off next : ℕ} : off < sz → RecordEnds dnsCname buf sz off next →
      NextAnswer dnsCname buf sz (left + 1, off) (left, next)

/-- One of the answers that are left, of which the first starts at an offset, goes beyond. -/
def AnswersOverrun (dnsCname : Bool) (buf : Memory) (sz left off : ℕ) : Prop :=
  ∃ answer, Relation.ReflTransGen (NextAnswer dnsCname buf sz) (left, off) answer ∧
    answer.1 ≠ 0 ∧ answer.2 < sz ∧ RecordOverruns dnsCname buf sz answer.2

/-- The query of a message or one of its answers goes beyond the message. -/
def MessageOverruns (dnsCname : Bool) (buf : Memory) (sz : ℕ) : Prop :=
  12 ≤ sz ∧ (header buf).qdcount = 1 ∧
    (Dangles buf sz (nameAt 12) ∨
      ∃ mid, Ends buf sz (nameAt 12) mid ∧ uint32 (mid + 4) ≤ sz ∧
        (Straddles sz mid queryFields ∨
          (header buf).rcode = 0 ∧
            AnswersOverrun dnsCname buf sz (header buf).ancount (uint32 (mid + 4))))

theorem answersOverrun_zero {dnsCname : Bool} : ¬ AnswersOverrun dnsCname buf sz 0 off := by
  rintro ⟨answer, reach, some, -⟩
  obtain rfl | ⟨next, step, -⟩ := Relation.ReflTransGen.cases_head reach
  · exact some rfl
  · cases step

theorem answersOverrun_succ_iff {dnsCname : Bool} {left : ℕ} :
    AnswersOverrun dnsCname buf sz (left + 1) off ↔ off < sz ∧
      (RecordOverruns dnsCname buf sz off ∨
        ∃ next, RecordEnds dnsCname buf sz off next ∧
          AnswersOverrun dnsCname buf sz left next) := by
  constructor
  · rintro ⟨answer, reach, some, inside, overruns⟩
    obtain rfl | ⟨next, step, rest⟩ := Relation.ReflTransGen.cases_head reach
    · exact ⟨inside, .inl overruns⟩
    · cases step with
      | next start ends => exact ⟨start, .inr ⟨_, ends, answer, rest, some, inside, overruns⟩⟩
  · rintro ⟨inside, overruns | ⟨next, ends, answer, rest, last⟩⟩
    · exact ⟨_, .refl, Nat.succ_ne_zero left, inside, overruns⟩
    · exact ⟨answer, .head (.next inside ends) rest, last⟩

end Rfc1035
end Squid
