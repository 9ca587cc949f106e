import Mathlib.Data.List.Nodup
import Mathlib.Data.List.Perm.Subperm
import Mathlib.Algebra.BigOperators.Group.List.Basic
import Mathlib.Algebra.Order.Group.Int
import Mathlib.Algebra.Ring.Int.Defs

/-!
# Tables of rows with unique names

A table lists its rows, the latest first.  A row is replaced or removed by name, and a search finds
the latest row with some property.  The total of a weight over the rows changes by the weight of
the row that is changed.
-/

/-- Rows with unique names. -/
structure Table (ι ν : Type*) where
  /-- The rows, the latest first. -/
  rows : List (ι × ν)
  /-- No two rows have the same name. -/
  nodup : (rows.map Prod.fst).Nodup

namespace Table

open List

variable {ι ν : Type*} [DecidableEq ι]

/-- The table without rows. -/
def empty : Table ι ν := ⟨[], List.nodup_nil⟩

/-- The row of a name. -/
def find (table : Table ι ν) (name : ι) : Option ν :=
  (table.rows.find? fun row => row.1 = name).map Prod.snd

/-- The latest row with a property. -/
def search (table : Table ι ν) (property : ν → Bool) : Option (ι × ν) :=
  table.rows.find? fun row => property row.2

/-- Replace the row of a name. -/
def set (table : Table ι ν) (name : ι) (value : ν) : Table ι ν where
  rows := table.rows.map fun row => if row.1 = name then (name, value) else row
  nodup := by
    rw [List.map_map]
    convert table.nodup using 1
    refine map_congr_left fun row _ => ?_
    by_cases same : row.1 = name
    · simp [same]
    · simp [same]

/-- Remove the row of a name. -/
def erase (table : Table ι ν) (name : ι) : Table ι ν where
  rows := table.rows.filter fun row => row.1 ≠ name
  nodup := table.nodup.sublist (filter_sublist.map Prod.fst)

/-- Add a row, in place of one with its name. -/
def insert (table : Table ι ν) (name : ι) (value : ν) : Table ι ν where
  rows := (name, value) :: (table.erase name).rows
  nodup := by
    rw [List.map_cons, nodup_cons]
    refine ⟨?_, (table.erase name).nodup⟩
    simp [erase]

/-- The total of a weight. -/
def total (table : Table ι ν) (weight : ν → ℤ) : ℤ := (table.rows.map fun row => weight row.2).sum

variable {table : Table ι ν} {name other : ι} {value new : ν}

/-- A row stands in one place. -/
theorem split_of_find (found : table.find name = some value) :
    ∃ front back, table.rows = front ++ (name, value) :: back ∧
      (∀ row ∈ front, row.1 ≠ name) ∧ ∀ row ∈ back, row.1 ≠ name := by
  rw [find, Option.map_eq_some_iff] at found
  obtain ⟨row, located, rfl⟩ := found
  obtain ⟨same, front, back, rows, before⟩ := List.find?_eq_some_iff_append.mp located
  simp only [decide_eq_true_eq] at same
  subst same
  refine ⟨front, back, rows, ?_, ?_⟩
  · simpa using before
  · intro later member clash
    have nodup := table.nodup
    rw [rows, List.map_append, List.map_cons, nodup_middle, nodup_cons] at nodup
    refine nodup.1 (List.mem_append_right _ ?_)
    rw [← clash]
    exact List.mem_map_of_mem member

theorem mem_rows_iff : (name, value) ∈ table.rows ↔ table.find name = some value := by
  constructor
  · intro member
    have nodup := table.nodup
    obtain ⟨front, back, rows⟩ := append_of_mem member
    rw [rows, List.map_append, List.map_cons, nodup_middle, nodup_cons] at nodup
    have absent : ∀ row ∈ front, ¬ decide (row.1 = name) = true := by
      intro row earlier same
      refine nodup.1 (List.mem_append_left _ (List.mem_map.mpr ⟨row, earlier, ?_⟩))
      exact of_decide_eq_true same
    rw [find, rows, List.find?_append, List.find?_eq_none.mpr absent]
    simp
  · intro found
    obtain ⟨front, back, rows, -, -⟩ := split_of_find found
    rw [rows]
    simp

theorem find_eq_none_iff : table.find name = none ↔ ∀ row ∈ table.rows, row.1 ≠ name := by
  rw [find, Option.map_eq_none_iff, List.find?_eq_none]
  simp

theorem find_set_self (found : table.find name = some value) :
    (table.set name new).find name = some new := by
  rw [← mem_rows_iff]
  exact List.mem_map.mpr ⟨_, mem_rows_iff.mpr found, by simp⟩

theorem find_set_ne (ne : other ≠ name) : (table.set name new).find other = table.find other := by
  ext result
  rw [← mem_rows_iff, ← mem_rows_iff, set, List.mem_map]
  constructor
  · rintro ⟨row, member, image⟩
    by_cases same : row.1 = name
    · rw [if_pos same] at image
      exact (ne (Prod.mk.inj image).1.symm).elim
    · rw [if_neg same] at image
      rwa [← image]
  · intro member
    exact ⟨_, member, by simp [ne]⟩

@[simp] theorem find_set_eq_none_iff :
    (table.set name new).find other = none ↔ table.find other = none := by
  by_cases same : other = name
  · subst same
    rw [find_eq_none_iff, find_eq_none_iff, set]
    dsimp only
    rw [List.forall_mem_map]
    refine forall₂_congr fun row _ => not_congr ?_
    by_cases same : row.1 = other
    · simp [same]
    · simp [same]
  · rw [find_set_ne same]

@[simp] theorem find_erase_self : (table.erase name).find name = none := by
  rw [find_eq_none_iff]
  intro row member
  simpa using of_mem_filter member

theorem find_erase_ne (ne : other ≠ name) : (table.erase name).find other = table.find other := by
  ext result
  rw [← mem_rows_iff, ← mem_rows_iff, erase, mem_filter]
  simp [ne]

@[simp] theorem find_insert_self : (table.insert name value).find name = some value := by
  rw [← mem_rows_iff]
  exact List.mem_cons_self

theorem find_erase_of_none (absent : table.find other = none) :
    (table.erase name).find other = none := by
  by_cases same : other = name
  · rw [same, find_erase_self]
  · rwa [find_erase_ne same]

theorem find_insert_ne (ne : other ≠ name) :
    (table.insert name value).find other = table.find other := by
  rw [← @find_erase_ne _ _ _ table _ _ ne, find, find, insert,
    List.find?_cons_of_neg (by simp [Ne.symm ne])]

variable {back front : List (ι × ν)}

theorem set_eq (rows : table.rows = front ++ (name, value) :: back)
    (before : ∀ row ∈ front, row.1 ≠ name) (after : ∀ row ∈ back, row.1 ≠ name) :
    (table.set name new).rows = front ++ (name, new) :: back := by
  have same : ∀ {list : List (ι × ν)}, (∀ row ∈ list, row.1 ≠ name) →
      list.map (fun row => if row.1 = name then (name, new) else row) = list := by
    intro list absent
    refine (map_congr_left fun row member => ?_).trans (List.map_id list)
    rw [if_neg (absent row member), id]
  rw [set]
  dsimp only
  rw [rows, List.map_append, List.map_cons, same before, same after, if_pos rfl]

theorem erase_eq (rows : table.rows = front ++ (name, value) :: back)
    (before : ∀ row ∈ front, row.1 ≠ name) (after : ∀ row ∈ back, row.1 ≠ name) :
    (table.erase name).rows = front ++ back := by
  rw [erase]
  dsimp only
  rw [rows, filter_append, filter_cons_of_neg (by simp),
    filter_eq_self.mpr fun row member => by simpa using before row member,
    filter_eq_self.mpr fun row member => by simpa using after row member]

/-- Replacing a row before it is removed makes no difference. -/
theorem erase_set : (table.set name new).erase name = table.erase name := by
  have rows : ((table.set name new).erase name).rows = (table.erase name).rows := by
    rw [erase, set, erase]
    dsimp only
    induction table.rows with
    | nil => rfl
    | cons row rows ih =>
        by_cases same : row.1 = name
        · rw [List.map_cons, if_pos same, filter_cons_of_neg (by simp),
            filter_cons_of_neg (by simp [same]), ih]
        · rw [List.map_cons, if_neg same, filter_cons_of_pos (by simp [same]),
            filter_cons_of_pos (by simp [same]), ih]
  cases left : (table.set name new).erase name
  cases right : table.erase name
  rw [left, right] at rows
  cases rows
  rfl

variable {last : ν}

/-- The later of two replacements counts. -/
theorem set_set : (table.set name new).set name last = table.set name last := by
  have rows : ((table.set name new).set name last).rows = (table.set name last).rows := by
    rw [set, set, set]
    dsimp only
    rw [List.map_map]
    refine map_congr_left fun row _ => ?_
    by_cases same : row.1 = name
    · simp [same]
    · simp [same]
  cases left : (table.set name new).set name last
  cases right : table.set name last
  rw [left, right] at rows
  cases rows
  rfl

/-- A new row is replaced. -/
theorem set_insert : (table.insert name value).set name last = table.insert name last := by
  have rows : ((table.insert name value).set name last).rows = (table.insert name last).rows := by
    rw [set, insert, insert]
    dsimp only
    rw [List.map_cons, if_pos rfl, map_congr_left (g := id), List.map_id]
    intro row member
    rw [if_neg (by simpa using of_mem_filter member), id]
  cases left : (table.insert name value).set name last
  cases right : table.insert name last
  rw [left, right] at rows
  cases rows
  rfl

variable {weight : ν → ℤ}

omit [DecidableEq ι] in
theorem total_nonneg (nonneg : ∀ value, 0 ≤ weight value) : 0 ≤ table.total weight := by
  unfold total
  induction table.rows with
  | nil => exact le_rfl
  | cons row rows ih =>
      rw [List.map_cons, sum_cons]
      exact Int.add_nonneg (nonneg row.2) ih

theorem total_set (found : table.find name = some value) :
    (table.set name new).total weight = table.total weight - weight value + weight new := by
  obtain ⟨front, back, rows, before, after⟩ := split_of_find found
  rw [total, set_eq rows before after, total, rows]
  simp only [List.map_append, List.map_cons, sum_append, sum_cons]
  omega

theorem total_erase (found : table.find name = some value) :
    (table.erase name).total weight = table.total weight - weight value := by
  obtain ⟨front, back, rows, before, after⟩ := split_of_find found
  rw [total, erase_eq rows before after, total, rows]
  simp only [List.map_append, List.map_cons, sum_append, sum_cons]
  omega

theorem total_insert (absent : table.find name = none) :
    (table.insert name value).total weight = table.total weight + weight value := by
  have rows : (table.erase name).rows = table.rows := by
    rw [erase]
    dsimp only
    exact filter_eq_self.mpr fun row member => by
      simpa using find_eq_none_iff.mp absent row member
  rw [total, insert]
  dsimp only
  rw [rows, List.map_cons, sum_cons, total, Int.add_comm]

variable {property : ν → Bool}

theorem find_of_search (found : table.search property = some (name, value)) :
    table.find name = some value ∧ property value = true := by
  rw [search] at found
  have holds := List.find?_some found
  exact ⟨mem_rows_iff.mp (mem_of_find?_eq_some found), holds⟩

theorem search_eq_none_iff :
    table.search property = none ↔
      ∀ name value, table.find name = some value → property value = false := by
  rw [search, List.find?_eq_none]
  constructor
  · intro absent name value found
    simpa using absent _ (mem_rows_iff.mpr found)
  · rintro absent ⟨name, value⟩ member
    simpa using absent name value (mem_rows_iff.mp member)

/-! ## Counting rows -/

omit [DecidableEq ι] in
/-- The total of an indicator counts rows. -/
theorem total_indicator (property : ν → Bool) :
    table.total (fun value => if property value then 1 else 0) =
      (table.rows.filter fun row => property row.2).length := by
  rw [total]
  induction table.rows with
  | nil => rfl
  | cons row rows ih =>
      rw [List.map_cons, sum_cons, ih]
      by_cases holds : property row.2 = true
      · rw [if_pos holds, filter_cons_of_pos (by exact holds), length_cons]
        omega
      · rw [if_neg holds, filter_cons_of_neg (by exact holds), Int.zero_add]

/-- Rows are few if they have different numbers below a bound. -/
theorem length_filter_le {property : ν → Bool} {number : ν → ℕ} {bound : ℕ}
    (below : ∀ name value, table.find name = some value → property value = true →
      number value < bound)
    (differ : ∀ name other value new, table.find name = some value → table.find other = some new →
      property value = true → property new = true → number value = number new → name = other) :
    (table.rows.filter fun row => property row.2).length ≤ bound := by
  have rows : (table.rows.filter fun row => property row.2).Nodup :=
    (List.Nodup.of_map Prod.fst table.nodup).filter _
  have numbers : ((table.rows.filter fun row => property row.2).map
      fun row => number row.2).Nodup := by
    refine rows.map_on ?_
    rintro ⟨name, value⟩ first ⟨other, new⟩ second same
    rw [mem_filter] at first second
    have one := mem_rows_iff.mp first.1
    have two := mem_rows_iff.mp second.1
    cases differ name other value new one two first.2 second.2 same
    cases one.symm.trans two
    rfl
  have sub : ((table.rows.filter fun row => property row.2).map fun row => number row.2) ⊆
      List.range bound := by
    intro filed member
    obtain ⟨⟨name, value⟩, kept, rfl⟩ := List.mem_map.mp member
    rw [mem_filter] at kept
    exact mem_range.mpr (below name value (mem_rows_iff.mp kept.1) kept.2)
  simpa using (numbers.subperm sub).length_le

end Table
