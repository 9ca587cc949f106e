import Squid.Library.CRuntime
import Squid.Library.Traced
import Mathlib.Data.List.GetD

/-!
# Datagrams in a receive buffer

A decoder reads and writes a static buffer, a list that goes on behind the datagram, and logs what
it touches.
-/

namespace Squid
namespace Datagram

open CRuntime List

/-- What a decoder does to the receive buffer. -/
inductive Access
  | read (first count : ℕ)
  | write (first : ℕ)

/-- `buf[i]`. -/
def octetAt (buf : Bytes) (i : ℕ) : UInt8 := buf.getD i 0

/-- `ntohs(*(uint16_t *) buf)`. -/
def word (buf : Bytes) (i : ℕ) : ℕ := (octetAt buf i).toNat * 2 ^ 8 + (octetAt buf (i + 1)).toNat

/-- `ntohl` of four bytes. -/
def long (buf : Bytes) (i : ℕ) : ℕ := word buf i * 2 ^ 16 + word buf (i + 2)

/-- Read bytes, for a value made of them. -/
def readBytes {α : Type} (first count : ℕ) (value : α) : Traced Access α :=
  ⟨value, [.read first count]⟩

/-- `*buf = '\0'`. -/
def terminate (buf : Bytes) (i : ℕ) : Traced Access Bytes := ⟨buf.set i 0, [.write i]⟩

/-- The C string at a position. -/
def stringAt (buf : Bytes) (i : ℕ) : Bytes := cstr (buf.drop i)

/-- Read the C strings at some positions. -/
def readStrings (buf : Bytes) (starts : List ℕ) : Traced Access (List Bytes) :=
  ⟨starts.map (stringAt buf), starts.map fun i => .read i ((stringAt buf i).length + 1)⟩

/-! ## Bytes at known places -/

theorem octetAt_append (front back : Bytes) (i : ℕ) :
    octetAt (front ++ back) (front.length + i) = octetAt back i := by
  rw [octetAt, octetAt, getD_eq_getElem?_getD, getD_eq_getElem?_getD,
    List.getElem?_append_right (Nat.le_add_right _ _), Nat.add_sub_cancel_left]

theorem stringAt_append {front s back : Bytes} (plain : 0 ∉ s) :
    stringAt (front ++ (s ++ 0 :: back)) front.length = s := by
  have all (b : UInt8) (member : b ∈ s) : (b != 0) = true := by
    rw [bne_iff_ne]
    rintro rfl
    exact plain member
  rw [stringAt, drop_left, cstr, takeWhile_append_of_pos all,
    takeWhile_cons_of_neg (by decide), List.append_nil]

/-! ## What a decoder depends on -/

/-- The access stays within a datagram of a length and the byte behind it. -/
def Access.Within (len : ℕ) : Access → Prop
  | .read first count => first + count ≤ len + 1
  | .write first => first ≤ len

/--
A datagram is judged by its own bytes: whatever else a buffer of the size holds, the decision is the
same and nothing behind the datagram and one more byte is touched.
-/
def JudgedAlone {δ : Type} (size : ℕ) (handle : Bytes → Traced Access δ) (d : Bytes) : Prop :=
  (∀ rest rest' : Bytes, d.length + rest.length = size → d.length + rest'.length = size →
    (handle (d ++ rest)).result = (handle (d ++ rest')).result) ∧
  ∀ rest : Bytes, d.length + rest.length = size → (handle (d ++ rest)).All (Access.Within d.length)

@[simp]
theorem result_readBytes {α : Type} (first count : ℕ) (value : α) :
    (readBytes first count value).result = value := rfl

variable {property : Access → Prop}

@[simp]
theorem all_readBytes {α : Type} (first count : ℕ) (value : α) :
    (readBytes first count value).All property ↔ property (.read first count) := by
  simp [readBytes, Traced.All]

@[simp]
theorem result_terminate (buf : Bytes) (i : ℕ) : (terminate buf i).result = buf.set i 0 := rfl

@[simp]
theorem all_terminate (buf : Bytes) (i : ℕ) :
    (terminate buf i).All property ↔ property (.write i) := by
  simp [terminate, Traced.All]

@[simp]
theorem result_readStrings (buf : Bytes) (starts : List ℕ) :
    (readStrings buf starts).result = starts.map (stringAt buf) := rfl

@[simp]
theorem all_readStrings (buf : Bytes) (starts : List ℕ) :
    (readStrings buf starts).All property ↔
      ∀ i ∈ starts, property (.read i ((stringAt buf i).length + 1)) := by
  simp [readStrings, Traced.All]

/-- The buffers hold the same bytes up to an index. -/
def Agree (len : ℕ) (buf other : Bytes) : Prop := ∀ i < len, octetAt buf i = octetAt other i

section Agree

variable {len i j : ℕ} {buf other : Bytes}

theorem agree_append (d rest rest' : Bytes) : Agree d.length (d ++ rest) (d ++ rest') := by
  intro i inside
  rw [octetAt, octetAt, getD_append _ _ _ _ inside, getD_append _ _ _ _ inside]

theorem octetAt_set (buf : Bytes) (i j : ℕ) :
    octetAt (buf.set i 0) j = if j = i then 0 else octetAt buf j := by
  simp only [octetAt, getD_eq_getElem?_getD, List.getElem?_set]
  by_cases same : i = j
  · rw [if_pos same, if_pos same.symm]
    split <;> rfl
  · rw [if_neg same, if_neg (Ne.symm same)]

theorem Agree.set (agree : Agree len buf other) (i : ℕ) :
    Agree len (buf.set i 0) (other.set i 0) := by
  intro j inside
  rw [octetAt_set, octetAt_set, agree j inside]

theorem Agree.word (agree : Agree len buf other) (inside : i + 2 ≤ len) :
    word buf i = word other i := by
  rw [Datagram.word, Datagram.word, agree i (by omega), agree (i + 1) (by omega)]

theorem Agree.long (agree : Agree len buf other) (inside : i + 4 ≤ len) :
    long buf i = long other i := by
  rw [Datagram.long, Datagram.long, agree.word (by omega), agree.word (by omega)]

theorem drop_cons_of_ne (nonzero : octetAt buf i ≠ 0) :
    buf.drop i = octetAt buf i :: buf.drop (i + 1) := by
  have inside : i < buf.length := by
    by_contra outside
    exact nonzero (getD_eq_default _ _ (by omega))
  rw [drop_eq_getElem_cons inside, octetAt, getD_eq_getElem _ _ inside]

theorem stringAt_of_eq (zero : octetAt buf i = 0) : stringAt buf i = [] := by
  rw [stringAt, cstr]
  rcases Nat.lt_or_ge i buf.length with inside | outside
  · rw [octetAt, getD_eq_getElem _ _ inside] at zero
    rw [drop_eq_getElem_cons inside, takeWhile_cons_of_neg (by simp [zero])]
  · rw [drop_eq_nil_of_le outside]
    rfl

theorem stringAt_of_ne (nonzero : octetAt buf i ≠ 0) :
    stringAt buf i = octetAt buf i :: stringAt buf (i + 1) := by
  rw [stringAt, cstr, drop_cons_of_ne nonzero, takeWhile_cons_of_pos (by simpa using nonzero)]
  rfl

/-- A string with a terminator in a segment depends on the segment only, and ends there. -/
theorem stringAt_congr (agree : ∀ k ≤ j, octetAt buf k = octetAt other k) (zero : octetAt buf j = 0)
    (le : i ≤ j) : stringAt buf i = stringAt other i ∧ i + (stringAt buf i).length ≤ j := by
  obtain ⟨steps, rfl⟩ := Nat.exists_eq_add_of_le le
  induction steps generalizing i with
  | zero =>
      rw [Nat.add_zero] at zero agree
      rw [stringAt_of_eq zero, stringAt_of_eq ((agree i le_rfl).symm.trans zero)]
      exact ⟨rfl, by simp⟩
  | succ steps ih =>
      by_cases ended : octetAt buf i = 0
      · rw [stringAt_of_eq ended, stringAt_of_eq ((agree i (by omega)).symm.trans ended)]
        exact ⟨rfl, by simp⟩
      · have same := agree i (by omega)
        obtain ⟨eq, short⟩ := @ih (i + 1)
          (fun k inside => agree k (by omega)) (by rw [← zero]; congr 1; omega) (by omega)
        have other_ended : octetAt other i ≠ 0 := by rwa [← same]
        rw [stringAt_of_ne ended, stringAt_of_ne other_ended, same, eq]
        rw [eq] at short
        refine ⟨rfl, ?_⟩
        rw [length_cons]
        omega

end Agree

end Datagram
end Squid
