import Mathlib.Data.List.Basic
import Mathlib.Data.List.Perm.Basic
import Mathlib.Order.Lattice

/-!
# Maps ordered by key

A map with unique keys, kept as the list of its entries in increasing key order.  Insertion leaves
an existing entry alone, and `above` finds the entry an iterator moves to from a given key.
-/

/-- A finite map whose entries are listed by increasing key. -/
structure OrderedMap (κ ν : Type*) [LinearOrder κ] where
  /-- The entries, by increasing key. -/
  entries : List (κ × ν)
  /-- Keys increase strictly along the list. -/
  sorted : entries.Pairwise fun first second => first.1 < second.1

namespace OrderedMap

open List

variable {κ ν : Type*} [LinearOrder κ]

instance [DecidableEq ν] : DecidableEq (OrderedMap κ ν) := fun first second =>
  decidable_of_iff (first.entries = second.entries) (by cases first; cases second; simp)

/-- The map without entries. -/
def empty : OrderedMap κ ν := ⟨[], List.Pairwise.nil⟩

/-- The keys in increasing order. -/
def keys (map : OrderedMap κ ν) : List κ := map.entries.map Prod.fst

/-- The value stored under a key. -/
def find (map : OrderedMap κ ν) (key : κ) : Option ν :=
  (map.entries.find? fun entry => entry.1 = key).map Prod.snd

/-- Put an entry at its place in a sorted list, unless its key is already there. -/
def insertEntry (key : κ) (value : ν) : List (κ × ν) → List (κ × ν)
  | [] => [(key, value)]
  | entry :: rest =>
      if key < entry.1 then (key, value) :: entry :: rest
      else if key = entry.1 then entry :: rest
      else entry :: insertEntry key value rest

variable {key : κ} {list : List (κ × ν)} {value : ν}

theorem mem_insertEntry {entry : κ × ν} (member : entry ∈ insertEntry key value list) :
    entry = (key, value) ∨ entry ∈ list := by
  induction list with
  | nil => simpa [insertEntry] using member
  | cons head rest ih =>
      simp only [insertEntry] at member
      split at member
      · simpa using member
      split at member
      · exact Or.inr member
      · rcases mem_cons.mp member with rfl | later
        · exact Or.inr List.mem_cons_self
        · rcases ih later with new | old
          · exact Or.inl new
          · exact Or.inr (List.mem_cons_of_mem head old)

theorem insertEntry_sorted (sorted : list.Pairwise fun first second => first.1 < second.1) :
    (insertEntry key value list).Pairwise fun first second => first.1 < second.1 := by
  induction list with
  | nil => simp [insertEntry]
  | cons head rest ih =>
      obtain ⟨smallest, rest_sorted⟩ := pairwise_cons.mp sorted
      simp only [insertEntry]
      split
      · rename_i less
        refine pairwise_cons.mpr ⟨fun entry member => ?_, sorted⟩
        rcases mem_cons.mp member with rfl | later
        · exact less
        · exact less.trans (smallest entry later)
      split
      · exact sorted
      · rename_i not_less different
        refine pairwise_cons.mpr ⟨fun entry member => ?_, ih rest_sorted⟩
        rcases mem_insertEntry member with rfl | later
        · exact lt_of_le_of_ne (not_lt.mp not_less) (Ne.symm different)
        · exact smallest entry later

theorem insertEntry_perm (fresh : key ∉ list.map Prod.fst) :
    (insertEntry key value list).Perm ((key,
      value) :: list) := by
  induction list with
  | nil => exact List.Perm.refl _
  | cons head rest ih =>
      simp only [List.map_cons, mem_cons, not_or] at fresh
      simp only [insertEntry]
      split
      · exact List.Perm.refl _
      · rw [if_neg fresh.1]
        exact ((ih fresh.2).cons head).trans (List.Perm.swap _ _ _)

/-- Add an entry unless the key is taken. -/
def insert (map : OrderedMap κ ν) (key : κ) (value : ν) : OrderedMap κ ν :=
  ⟨insertEntry key value map.entries, insertEntry_sorted map.sorted⟩

/-- Remove the entry of a key. -/
def erase (map : OrderedMap κ ν) (key : κ) : OrderedMap κ ν :=
  ⟨map.entries.filter fun entry => entry.1 ≠ key, map.sorted.filter _⟩

/-- The entry with the least key above `key`. -/
def above (map : OrderedMap κ ν) (key : κ) : Option (κ × ν) :=
  map.entries.find? fun entry => key < entry.1

/-- The entries with a key above `key`. -/
def beyond (map : OrderedMap κ ν) (key : κ) : List (κ × ν) :=
  map.entries.filter fun entry => key < entry.1

@[simp]
theorem entries_empty : (empty : OrderedMap κ ν).entries = [] := rfl

theorem insert_perm {map : OrderedMap κ ν} {key : κ} {value : ν} (fresh : key ∉ map.keys) :
    (map.insert key value).entries.Perm ((key, value) :: map.entries) :=
  insertEntry_perm fresh

theorem insertEntry_last (last : ∀ entry ∈ list, entry.1 < key) :
    insertEntry key value list = list ++ [(key,
      value)] := by
  induction list with
  | nil => rfl
  | cons head rest ih =>
      have less := last head List.mem_cons_self
      rw [insertEntry, if_neg less.not_gt, if_neg less.ne',
        ih fun entry member => last entry (List.mem_cons_of_mem head member), cons_append]

/-- A key above all others goes to the end. -/
theorem insert_last {map : OrderedMap κ ν} {key : κ} {value : ν}
    (last : ∀ entry ∈ map.entries, entry.1 < key) :
    (map.insert key value).entries = map.entries ++ [(key, value)] :=
  insertEntry_last last

variable {map : OrderedMap κ ν}

theorem mem_of_find (found : map.find key = some value) : (key, value) ∈ map.entries := by
  simp only [find, Option.map_eq_some_iff] at found
  obtain ⟨⟨other, stored⟩, here, rfl⟩ := found
  have same : other = key := by simpa using List.find?_some here
  exact same ▸ mem_of_find?_eq_some here

theorem keys_nodup (map : OrderedMap κ ν) : map.keys.Nodup := by
  refine pairwise_map.mpr ?_
  exact map.sorted.imp fun less => ne_of_lt less

/-- The entry found under a key is the only one that erasing the key removes. -/
theorem erase_perm (found : map.find key = some value) :
    map.entries.Perm ((key, value) :: (map.erase key).entries) := by
  have member := mem_of_find found
  obtain ⟨front, back, split⟩ := append_of_mem member
  have distinct := map.keys_nodup
  simp only [keys, split, List.map_append, List.map_cons, nodup_append, nodup_cons,
    List.mem_map, mem_cons, not_exists, not_and] at distinct
  have in_front : front.filter (fun entry => entry.1 ≠ key) = front := by
    refine filter_eq_self.mpr fun entry inside => ?_
    have different := distinct.2.2 entry.1 ⟨entry, inside, rfl⟩ key (Or.inl rfl)
    simpa using different
  have in_back : back.filter (fun entry => entry.1 ≠ key) = back := by
    refine filter_eq_self.mpr fun entry inside => ?_
    have different := distinct.2.1.1 entry inside
    simpa using different
  simp only [erase, split, filter_append, filter_cons, in_front, in_back]
  simp

/-- The entry found above a key is the first of those beyond it. -/
theorem beyond_eq_cons {next : κ} (found : map.above key = some (next, value)) :
    map.beyond key = (next, value) :: map.beyond next := by
  obtain ⟨entries, sorted⟩ := map
  simp only [above, beyond] at found ⊢
  induction entries with
  | nil => simp at found
  | cons head rest ih =>
      obtain ⟨smallest, rest_sorted⟩ := pairwise_cons.mp sorted
      by_cases inside : key < head.1
      · rw [List.find?_cons_of_pos (by simpa using inside)] at found
        cases Option.some.inj found
        have all_later : ∀ entry ∈ rest, key < entry.1 ∧ next < entry.1 := fun entry member =>
          ⟨inside.trans (smallest entry member), smallest entry member⟩
        rw [filter_cons_of_pos (by simpa using inside), filter_cons_of_neg (by simp),
          filter_eq_self.mpr fun entry member => by simpa using (all_later entry member).1,
          filter_eq_self.mpr fun entry member => by simpa using (all_later entry member).2]
      · rw [List.find?_cons_of_neg (by simpa using inside)] at found
        have later : key < next := by simpa using List.find?_some found
        have skipped : ¬next < head.1 := fun less => inside (later.trans less)
        rw [filter_cons_of_neg (by simpa using inside), filter_cons_of_neg (by simpa using skipped)]
        exact ih rest_sorted found

/-- Erasing a key that lies beyond another removes exactly its entry. -/
theorem beyond_erase_perm {lower : κ} (found : map.find key = some value) (above : lower < key) :
    (map.beyond lower).Perm ((key, value) :: (map.erase key).beyond lower) := by
  have filtered := (erase_perm found).filter fun entry => decide (lower < entry.1)
  rwa [filter_cons_of_pos (by simpa using above)] at filtered

theorem beyond_eq_nil (missing : map.above key = none) : map.beyond key = [] := by
  refine filter_eq_nil_iff.mpr fun entry member => ?_
  simpa using List.find?_eq_none.mp missing entry member

end OrderedMap
