import Mathlib.Algebra.Order.Group.Int
import Mathlib.Data.List.Flatten
import Squid.Library.LinkedList
import Squid.Library.LabelledRun

/-!
# Hash tables

`lib/hash.cc` chains the links of a bucket through their `next` pointers.  A walk over the table is
a raw pointer to the link that `hash_next` returns next, together with the slot of that link, and
`hash_remove_link` moves the pointer on when it removes that very link.
-/

namespace Squid.Base

open List Option Function

structure hash_link (ρ κ : Type) where
  key : κ
  next : Option ρ

/-- `hash_table`, with the memory of the links. -/
structure hash_table (ρ κ : Type) where
  buckets : ℕ → Option ρ
  /-- `hid->hash(key, hid->size)`. -/
  hash : κ → ℕ
  size : ℕ
  current_slot : ℕ
  next : Option ρ
  count : ℤ
  /-- The link at an address. -/
  link : ρ → hash_link ρ κ

namespace hash_table

variable {ρ κ : Type}

def DEFAULT_HASH_SIZE : ℕ := 7951

/-- `hash_create`; a hash function gives slots of the table for every size. -/
def hash_create (hash_sz : ℕ) (hash_func : κ → ℕ → ℕ) (link : ρ → hash_link ρ κ) :
    hash_table ρ κ where
  size := if hash_sz = 0 then DEFAULT_HASH_SIZE else hash_sz
  hash := fun key => hash_func key (if hash_sz = 0 then DEFAULT_HASH_SIZE else hash_sz)
  buckets := fun _ => none
  next := none
  current_slot := 0
  count := 0
  link := link

/-- Read the head of a bucket. -/
def bucket (hid : hash_table ρ κ) (slot : ℕ) : Option (Option ρ) :=
  if slot < hid.size then some (hid.buckets slot) else none

def hash_next_bucket (hid : hash_table ρ κ) : hash_table ρ κ :=
  if hid.next = none then
    if hid.current_slot + 1 < hid.size then
      hash_next_bucket { hid with
        current_slot := hid.current_slot + 1
        next := hid.buckets (hid.current_slot + 1) }
    else { hid with current_slot := hid.current_slot + 1 }
  else hid
termination_by hid.size - hid.current_slot

def hash_first (hid : hash_table ρ κ) : Option (hash_table ρ κ) :=
  if hid.next = none then do
    let head ← hid.bucket 0
    let hid := { hid with current_slot := 0, next := head }
    if hid.next = none then some hid.hash_next_bucket else some hid
  else none

/-- `hash_next`: the link returned and the table left. -/
def hash_next (hid : hash_table ρ κ) : Option ρ × hash_table ρ κ :=
  match hid.next with
  | none => (none, hid)
  | some p =>
      let hid := { hid with next := (hid.link p).next }
      (some p, if hid.next = none then hid.hash_next_bucket else hid)

def hash_last (hid : hash_table ρ κ) : hash_table ρ κ := { hid with next := none, current_slot := 0 }

/-! ### The chains of a table -/

variable {hid hid' : hash_table ρ κ} {chains : ℕ → List ρ} {rest : List ρ} {hl : ρ} {i : ℕ}

/-- The `next` fields of the links. -/
abbrev nexts (hid : hash_table ρ κ) (p : ρ) : Option ρ := (hid.link p).next

/-- The links of the buckets, each in the slot of its key. -/
structure Chained (hid : hash_table ρ κ) (chains : ℕ → List ρ) : Prop where
  size_pos : 0 < hid.size
  hash_lt : ∀ key, hid.hash key < hid.size
  links : ∀ i < hid.size, LinkedList.Links hid.nexts (hid.buckets i) (chains i)
  slot : ∀ i < hid.size, ∀ p ∈ chains i, hid.hash (hid.link p).key = i

/-- `count` is the number of links. -/
def Counted (hid : hash_table ρ κ) (chains : ℕ → List ρ) : Prop :=
  hid.count = ((List.range hid.size).flatMap chains).length

/-- The links in the buckets behind a slot. -/
def later (size : ℕ) (chains : ℕ → List ρ) (slot : ℕ) : List ρ :=
  (List.range' (slot + 1) (size - (slot + 1))).flatMap chains

variable {size : ℕ}

theorem later_of_lt {slot : ℕ} (more : slot + 1 < size) :
    later size chains slot = chains (slot + 1) ++ later size chains (slot + 1) := by
  rw [later, later, show size - (slot + 1) = size - (slot + 1 + 1) + 1 by omega, List.range'_succ,
    flatMap_cons]

theorem later_of_le {slot : ℕ} (no_more : size ≤ slot + 1) : later size chains slot = [] := by
  rw [later, show size - (slot + 1) = 0 by omega]
  rfl

theorem flatMap_range_eq (positive : 0 < size) :
    (List.range size).flatMap chains = chains 0 ++ later size chains 0 := by
  rw [later, range_eq_range', show size = size - (0 + 1) + 1 by omega, List.range'_succ,
    flatMap_cons]
  rfl

/-- What a walk still has to return: from the link that the cursor points at to the end of its
bucket, and then the later buckets. -/
def Cursor (hid : hash_table ρ κ) (chains : ℕ → List ρ) (rest : List ρ) : Prop :=
  (hid.next = none ∧ rest = []) ∨
    ∃ p front back, hid.next = some p ∧ hid.current_slot < hid.size ∧
      chains hid.current_slot = front ++ p :: back ∧
      rest = p :: back ++ later hid.size chains hid.current_slot

/-- The two tables differ in the walk only. -/
structure SameLinks (hid hid' : hash_table ρ κ) : Prop where
  buckets_eq : hid'.buckets = hid.buckets
  hash_eq : hid'.hash = hid.hash
  size_eq : hid'.size = hid.size
  count_eq : hid'.count = hid.count
  link_eq : hid'.link = hid.link

theorem SameLinks.refl (hid : hash_table ρ κ) : SameLinks hid hid := ⟨rfl, rfl, rfl, rfl, rfl⟩

theorem SameLinks.trans {middle : hash_table ρ κ} (first : SameLinks hid middle)
    (second : SameLinks middle hid') : SameLinks hid hid' where
  buckets_eq := second.buckets_eq.trans first.buckets_eq
  hash_eq := second.hash_eq.trans first.hash_eq
  size_eq := second.size_eq.trans first.size_eq
  count_eq := second.count_eq.trans first.count_eq
  link_eq := second.link_eq.trans first.link_eq

theorem Chained.same (chained : hid.Chained chains) (same : SameLinks hid hid') :
    hid'.Chained chains := by
  obtain ⟨buckets_eq, hash_eq, size_eq, -, link_eq⟩ := same
  have nexts_eq : hid'.nexts = hid.nexts := by
    funext p
    rw [nexts, link_eq]
  refine ⟨?_, fun key => ?_, fun i below => ?_, fun i below p member => ?_⟩
  · rw [size_eq]
    exact chained.size_pos
  · rw [size_eq, hash_eq]
    exact chained.hash_lt key
  · rw [nexts_eq, buckets_eq]
    exact chained.links i (size_eq ▸ below)
  · rw [hash_eq, link_eq]
    exact chained.slot i (size_eq ▸ below) p member

theorem Counted.same (counted : hid.Counted chains) (same : SameLinks hid hid') :
    hid'.Counted chains := by
  rw [Counted, same.count_eq, same.size_eq]
  exact counted

variable {p : ρ}

theorem hash_next_bucket_of_some (at_link : hid.next = some p) : hid.hash_next_bucket = hid := by
  rw [hash_next_bucket, at_link, if_neg (some_ne_none p)]

theorem hash_next_bucket_of_none (at_end : hid.next = none) :
    hid.hash_next_bucket =
      if hid.current_slot + 1 < hid.size then
        hash_next_bucket { hid with
          current_slot := hid.current_slot + 1
          next := hid.buckets (hid.current_slot + 1) }
      else { hid with current_slot := hid.current_slot + 1 } := by
  rw [hash_next_bucket, if_pos at_end]

/-- At the end of a bucket the cursor moves on to the next bucket that is not empty. -/
theorem next_bucket_spec (chained : hid.Chained chains) (at_end : hid.next = none) :
    SameLinks hid hid.hash_next_bucket ∧
      hid.hash_next_bucket.Cursor chains (later hid.size chains hid.current_slot) := by
  induction hid using hash_next_bucket.induct with
  | case1 hid _ more ih =>
      rw [hash_next_bucket_of_none at_end, if_pos more, later_of_lt more]
      have links := chained.links _ more
      cases head : hid.buckets (hid.current_slot + 1) with
      | none =>
          rw [head] at links ih
          rw [LinkedList.links_none_iff.mp links, nil_append]
          obtain ⟨same, cursor⟩ := ih (chained.same ⟨rfl, rfl, rfl, rfl, rfl⟩) rfl
          exact ⟨⟨same.1, same.2, same.3, same.4, same.5⟩, cursor⟩
      | some p =>
          rw [head] at links
          obtain ⟨back, chain, -⟩ := LinkedList.links_some_iff.mp links
          rw [hash_next_bucket_of_some rfl, chain]
          exact ⟨⟨rfl, rfl, rfl, rfl, rfl⟩, .inr ⟨p, [], back, rfl, more, chain, rfl⟩⟩
  | case2 hid _ no_more =>
      rw [hash_next_bucket_of_none at_end, if_neg no_more, later_of_le (Nat.le_of_not_lt no_more)]
      exact ⟨⟨rfl, rfl, rfl, rfl, rfl⟩, .inl ⟨at_end, rfl⟩⟩
  | case3 hid at_link => exact absurd at_end at_link

/-- What `hash_first`, `hash_next` and `hash_remove_link` end with: the next bucket, if the cursor
has come to the end of its own. -/
def settle (hid : hash_table ρ κ) : hash_table ρ κ :=
  if hid.next = none then hid.hash_next_bucket else hid

theorem settle_spec (front : List ρ) {back : List ρ} (chained : hid.Chained chains)
    (inside : hid.current_slot < hid.size) (chain : chains hid.current_slot = front ++ back)
    (links : LinkedList.Links hid.nexts hid.next back) :
    SameLinks hid hid.settle ∧
      hid.settle.Cursor chains (back ++ later hid.size chains hid.current_slot) := by
  rw [settle]
  cases head : hid.next with
  | none =>
      rw [head] at links
      rw [if_pos rfl, LinkedList.links_none_iff.mp links, nil_append]
      exact next_bucket_spec chained head
  | some p =>
      rw [head] at links
      obtain ⟨behind, rfl, -⟩ := LinkedList.links_some_iff.mp links
      rw [if_neg (some_ne_none p)]
      exact ⟨.refl hid, .inr ⟨p, front, behind, head, inside, chain, rfl⟩⟩

/-- `hash_first` sets out to return all links. -/
theorem first_spec (chained : hid.Chained chains) (idle : hid.next = none) :
    ∃ hid', hid.hash_first = some hid' ∧ SameLinks hid hid' ∧
      hid'.Cursor chains ((List.range hid.size).flatMap chains) := by
  have positive := chained.size_pos
  have start : SameLinks hid { hid with current_slot := 0, next := hid.buckets 0 } :=
    ⟨rfl, rfl, rfl, rfl, rfl⟩
  obtain ⟨same, cursor⟩ := settle_spec [] (chained.same start) positive
    (nil_append (chains 0)).symm (chained.links 0 positive)
  refine ⟨_, ?_, start.trans same, ?_⟩
  · rw [hash_first, if_pos idle, bucket, if_pos positive]
    simp only [bind_eq_bind, bind_some]
    rw [settle]
    split <;> rfl
  · rw [flatMap_range_eq positive]
    exact cursor

theorem next_of_nil (cursor : hid.Cursor chains []) : hid.hash_next = (none, hid) := by
  obtain ⟨at_end, -⟩ | ⟨p, front, back, -, -, -, more⟩ := cursor
  · rw [hash_next, at_end]
  · cases more

/-- `hash_next` returns the first of the links that are left. -/
theorem next_of_cons (chained : hid.Chained chains) (cursor : hid.Cursor chains (p :: rest)) :
    ∃ hid', hid.hash_next = (some p, hid') ∧ SameLinks hid hid' ∧ hid'.Cursor chains rest := by
  obtain ⟨-, nothing⟩ | ⟨q, front, back, at_link, inside, chain, same⟩ := cursor
  · cases nothing
  · rw [cons_append, List.cons.injEq] at same
    obtain ⟨rfl, rfl⟩ := same
    have links := chained.links _ inside
    rw [chain] at links
    have moved : SameLinks hid { hid with next := (hid.link p).next } := ⟨rfl, rfl, rfl, rfl, rfl⟩
    obtain ⟨same, cursor⟩ := settle_spec (front ++ [p]) (chained.same moved) inside
      (chain.trans (append_cons front p back)) links.behind
    refine ⟨_, ?_, moved.trans same, cursor⟩
    rw [hash_next, at_link]
    rfl

variable [DecidableEq ρ]

/-- `hash_join` of a link with the given key. -/
def hash_join (hid : hash_table ρ κ) (lnk : ρ) (key : κ) : Option (hash_table ρ κ) := do
  let i := hid.hash key
  let head ← hid.bucket i
  some { hid with
    link := update hid.link lnk ⟨key, head⟩
    buckets := update hid.buckets i (some lnk)
    count := hid.count + 1 }

/-- What the pointer `P` of `hash_remove_link` points at: the head of a bucket or the `next` field
of a link. -/
inductive Place (ρ : Type) where
  | bucket (slot : ℕ)
  | next (p : ρ)

/-- `*P`. -/
def deref (hid : hash_table ρ κ) : Place ρ → Option (Option ρ)
  | .bucket slot => hid.bucket slot
  | .next p => some (hid.link p).next

/-- `*P = target`. -/
def assign (hid : hash_table ρ κ) (target : Option ρ) : Place ρ → hash_table ρ κ
  | .bucket slot => { hid with buckets := update hid.buckets slot target }
  | .next p =>
      { hid with link := update hid.link p { hid.link p with next := target } }

/-- The loop of `hash_remove_link`, given the number of turns that it may take. -/
def unlink (hid : hash_table ρ κ) (hl : ρ) : ℕ → Place ρ → Option (hash_table ρ κ)
  | 0, _ => none
  | turns + 1, P => do
      match ← hid.deref P with
      -- `assert(0)` behind the loop
      | none => none
      | some p =>
          if p ≠ hl then hid.unlink hl turns (.next p)
          else
            let hid := hid.assign (hid.link hl).next P
            let hid :=
              if hid.next = some hl then
                let hid := { hid with next := (hid.link hl).next }
                if hid.next = none then hid.hash_next_bucket else hid
              else hid
            some { hid with count := hid.count - 1 }

/-- `hash_remove_link`; no chain is longer than the number of links. -/
def hash_remove_link (hid : hash_table ρ κ) (hl : ρ) : Option (hash_table ρ κ) :=
  hid.unlink hl (hid.count.toNat + 1) (.bucket (hid.hash (hid.link hl).key))

/-! ### Joining and removing links -/

omit [DecidableEq ρ] in
theorem Chained.same_slot {j : ℕ} (chained : hid.Chained chains) (hi : i < hid.size)
    (hj : j < hid.size) (at_i : p ∈ chains i) (at_j : p ∈ chains j) : i = j := by
  rw [← chained.slot i hi p at_i, chained.slot j hj p at_j]

omit [DecidableEq ρ] in
theorem range_split (inside : i < size) :
    ∃ low high, List.range size = low ++ i :: high ∧ (∀ j ∈ low, j < size ∧ j ≠ i) ∧
      ∀ j ∈ high, j < size ∧ j ≠ i := by
  obtain ⟨low, high, slots⟩ := append_of_mem (mem_range.mpr inside)
  have distinct := nodup_range (n := size)
  rw [slots, nodup_middle, nodup_cons, mem_append, not_or] at distinct
  have below {j : ℕ} (member : j ∈ low ++ i :: high) : j < size := by
    rw [← slots] at member
    exact mem_range.mp member
  refine ⟨low, high, slots, fun j member => ⟨below (by simp [member]), ?_⟩,
    fun j member => ⟨below (by simp [member]), ?_⟩⟩
  · rintro rfl
    exact distinct.1.1 member
  · rintro rfl
    exact distinct.1.2 member

omit [DecidableEq ρ] in
/-- The number of links after one chain has changed. -/
theorem length_flatMap_range {size : ℕ} (inside : i < size) {others : ℕ → List ρ}
    (same : ∀ j < size, j ≠ i → others j = chains j) :
    ((List.range size).flatMap others).length + (chains i).length =
      ((List.range size).flatMap chains).length + (others i).length := by
  obtain ⟨low, high, slots, low_lt, high_lt⟩ := range_split inside
  have low_same : low.flatMap others = low.flatMap chains :=
    flatMap_congr fun j member => same j (low_lt j member).1 (low_lt j member).2
  have high_same : high.flatMap others = high.flatMap chains :=
    flatMap_congr fun j member => same j (high_lt j member).1 (high_lt j member).2
  rw [slots, flatMap_append, flatMap_append, flatMap_cons, flatMap_cons, low_same, high_same,
    length_append, length_append, length_append, length_append]
  omega

omit [DecidableEq ρ] in
theorem chain_length_le {size : ℕ} (inside : i < size) :
    (chains i).length ≤ ((List.range size).flatMap chains).length := by
  obtain ⟨low, high, slots, -, -⟩ := range_split inside
  rw [slots, flatMap_append, flatMap_cons, length_append, length_append]
  omega

/-- The table with one more link. -/
def joined (hid : hash_table ρ κ) (lnk : ρ) (key : κ) : hash_table ρ κ :=
  { hid with
    link := update hid.link lnk ⟨key, hid.buckets (hid.hash key)⟩
    buckets := update hid.buckets (hid.hash key) (some lnk)
    count := hid.count + 1 }

/-- `hash_join` puts a new link in front of the chain of its slot. -/
theorem join_spec {lnk : ρ} (chained : hid.Chained chains) (key : κ)
    (fresh : ∀ j < hid.size, lnk ∉ chains j) :
    hid.hash_join lnk key = some (hid.joined lnk key) ∧
      (hid.joined lnk key).Chained
        (update chains (hid.hash key) (lnk :: chains (hid.hash key))) := by
  have inside := chained.hash_lt key
  have link_ne {p : ρ} (differ : p ≠ lnk) :
      update hid.link lnk ⟨key, hid.buckets (hid.hash key)⟩ p = hid.link p :=
    update_of_ne differ ..
  have kept {j : ℕ} (hj : j < hid.size) : LinkedList.Links
      (fun p => (update hid.link lnk ⟨key, hid.buckets (hid.hash key)⟩ p).next)
      (hid.buckets j) (chains j) := by
    refine (chained.links j hj).congr fun p member => ?_
    have differ : p ≠ lnk := by
      rintro rfl
      exact fresh j hj member
    rw [link_ne differ]
  have run : hid.hash_join lnk key = some (hid.joined lnk key) := by
    rw [hash_join, bucket, if_pos inside]
    rfl
  refine ⟨run, chained.size_pos, chained.hash_lt, fun j hj => ?_, fun j hj p member => ?_⟩
  · change LinkedList.Links _ (update hid.buckets (hid.hash key) (some lnk) j)
      (update chains (hid.hash key) (lnk :: chains (hid.hash key)) j)
    rcases eq_or_ne j (hid.hash key) with rfl | differ
    · rw [update_self, update_self]
      refine ⟨rfl, ?_⟩
      have own : (hid.joined lnk key).link lnk = ⟨key, hid.buckets (hid.hash key)⟩ :=
        update_self ..
      rw [nexts, own]
      exact kept hj
    · rw [update_of_ne differ, update_of_ne differ]
      exact kept hj
  · change hid.hash (update hid.link lnk ⟨key, hid.buckets (hid.hash key)⟩ p).key = j
    rcases eq_or_ne j (hid.hash key) with rfl | differ
    · rw [update_self, mem_cons] at member
      rcases eq_or_ne p lnk with rfl | other
      · rw [update_self]
      · rw [link_ne other]
        exact chained.slot _ hj p (member.resolve_left other)
    · rw [update_of_ne differ] at member
      have other : p ≠ lnk := by
        rintro rfl
        exact fresh j hj member
      rw [link_ne other]
      exact chained.slot j hj p member

theorem Counted.joined (counted : hid.Counted chains) (lnk : ρ) {key : κ}
    (inside : hid.hash key < hid.size) : (hid.joined lnk key).Counted
      (update chains (hid.hash key) (lnk :: chains (hid.hash key))) := by
  have lengths := @length_flatMap_range ρ chains (hid.hash key) hid.size inside
    (update chains (hid.hash key) (lnk :: chains (hid.hash key)))
    fun j _ differ => update_of_ne differ ..
  rw [update_self, length_cons] at lengths
  change hid.count + 1 = (((List.range hid.size).flatMap (update chains
    (hid.hash key) (lnk :: chains (hid.hash key)))).length : ℤ)
  rw [Counted] at counted
  omega

/-- The pointer of the loop of `hash_remove_link` behind the links it has passed. -/
def placeAfter (slot : ℕ) (passed : List ρ) : Place ρ :=
  match passed.getLast? with
  | none => .bucket slot
  | some q => .next q

variable {behind : List ρ}

omit [DecidableEq ρ] in
theorem deref_placeAfter {passed : List ρ} (hi : i < hid.size)
    (links : LinkedList.Links hid.nexts (hid.buckets i) (passed ++ behind)) :
    hid.deref (placeAfter i passed) = some behind.head? := by
  rcases eq_nil_or_concat passed with rfl | ⟨front, q, rfl⟩
  · rw [nil_append] at links
    change hid.bucket i = _
    rw [bucket, if_pos hi, links.head_eq]
  · rw [concat_eq_append] at links ⊢
    rw [placeAfter, List.getLast?_concat]
    change some (hid.nexts q) = _
    rw [append_assoc, singleton_append] at links
    rw [links.behind.head_eq]

/-- What `hash_remove_link` does when it has found the link. -/
def cutOut (hid : hash_table ρ κ) (hl : ρ) (P : Place ρ) : hash_table ρ κ :=
  let hid := hid.assign (hid.link hl).next P
  let hid := if hid.next = some hl then settle { hid with next := (hid.link hl).next } else hid
  { hid with count := hid.count - 1 }

/-- The loop of `hash_remove_link` finds the link in its chain. -/
theorem unlink_eq {passed ahead behind : List ρ} (hi : i < hid.size)
    (links : LinkedList.Links hid.nexts (hid.buckets i) (passed ++ ahead ++ hl :: behind))
    {turns : ℕ} (enough : ahead.length < turns) :
    hid.unlink hl turns (placeAfter i passed) =
      some (hid.cutOut hl (placeAfter i (passed ++ ahead))) := by
  induction turns generalizing passed ahead with
  | zero => cases enough
  | succ turns ih =>
      rw [append_assoc] at links
      cases ahead with
      | nil =>
          simp only [unlink, deref_placeAfter hi links, nil_append, List.head?_cons, bind_eq_bind,
            bind_some, ne_eq, not_true_eq_false, if_false, append_nil]
          rfl
      | cons p ahead =>
          have other : p ≠ hl := by
            rintro rfl
            have distinct := links.nodup
            rw [nodup_append] at distinct
            exact (nodup_cons.mp distinct.2.1).1 (by simp)
          have at_p : placeAfter i (passed ++ [p]) = .next p := by
            rw [placeAfter, List.getLast?_append, List.getLast?_singleton]
            rfl
          simp only [unlink, deref_placeAfter hi links, cons_append, List.head?_cons,
            bind_eq_bind, bind_some, ne_eq, other, not_false_eq_true, if_true]
          rw [← at_p, append_cons passed p ahead]
          refine ih ?_ (by rw [length_cons] at enough; omega)
          simpa using links

/-- The chains without one link. -/
def without (chains : ℕ → List ρ) (hl : ρ) (j : ℕ) : List ρ := (chains j).filter (· != hl)

theorem filter_ne_of_notMem {nodes : List ρ} (absent : hl ∉ nodes) :
    nodes.filter (· != hl) = nodes := by
  rw [filter_eq_self]
  intro p member
  rw [bne_iff_ne]
  rintro rfl
  exact absent member

variable {front : List ρ}

theorem filter_ne_split (distinct : (front ++ hl :: behind).Nodup) :
    hl ∉ front ∧ hl ∉ behind ∧ (front ++ hl :: behind).filter (· != hl) = front ++ behind := by
  rw [nodup_middle, nodup_cons, mem_append, not_or] at distinct
  refine ⟨distinct.1.1, distinct.1.2, ?_⟩
  rw [filter_append, filter_ne_of_notMem distinct.1.1, filter_cons_of_neg (by simp),
    filter_ne_of_notMem distinct.1.2]

theorem filter_flatMap (chains : ℕ → List ρ) (hl : ρ) (slots : List ℕ) :
    (slots.flatMap chains).filter (· != hl) = slots.flatMap (without chains hl) := by
  induction slots with
  | nil => rfl
  | cons slot slots ih =>
      rw [flatMap_cons, flatMap_cons, filter_append, ih]
      rfl

/-- Writing past a link takes it out of its chain and leaves the other chains. -/
theorem assign_links (chained : hid.Chained chains) (hi : i < hid.size)
    (chain : chains i = front ++ hl :: behind) {j : ℕ} (hj : j < hid.size) :
    LinkedList.Links (hid.assign (hid.link hl).next (placeAfter i front)).nexts
      ((hid.assign (hid.link hl).next (placeAfter i front)).buckets j) (without chains hl j) := by
  have links_i := chained.links i hi
  rw [chain] at links_i
  obtain ⟨-, -, cut⟩ := filter_ne_split links_i.nodup
  have here : without chains hl i = front ++ behind := by
    rw [without, chain, cut]
  have elsewhere (differ : j ≠ i) : without chains hl j = chains j := by
    refine filter_ne_of_notMem fun at_j => differ ?_
    exact chained.same_slot hj hi at_j (by simp [chain])
  rcases eq_nil_or_concat front with rfl | ⟨before, q, rfl⟩
  · change LinkedList.Links hid.nexts
      (update hid.buckets i (hid.link hl).next j) (without chains hl j)
    rcases eq_or_ne j i with rfl | differ
    · rw [update_self, here]
      exact links_i.behind
    · rw [update_of_ne differ, elsewhere differ]
      exact chained.links j hj
  · rw [concat_eq_append] at *
    have place : placeAfter i (before ++ [q]) = .next q := by
      rw [placeAfter, List.getLast?_concat]
    have nexts_eq : (hid.assign (hid.link hl).next (.next q)).nexts =
        update hid.nexts q (hid.nexts hl) := by
      funext p
      change (update hid.link q { hid.link q with next := (hid.link hl).next } p).next = _
      rcases eq_or_ne p q with rfl | other
      · rw [update_self, update_self]
      · rw [update_of_ne other, update_of_ne other]
    rw [place, nexts_eq]
    change LinkedList.Links _ (hid.buckets j) _
    rcases eq_or_ne j i with rfl | differ
    · rw [here, append_assoc]
      rw [append_assoc] at links_i
      exact links_i.remove
    · rw [elsewhere differ]
      refine (chained.links j hj).congr fun p member => update_of_ne ?_ ..
      rintro rfl
      exact differ (chained.same_slot hj hi member (by simp [chain]))

theorem assign_key (target : Option ρ) (P : Place ρ) (p : ρ) :
    ((hid.assign target P).link p).key = (hid.link p).key := by
  cases P with
  | bucket slot => rfl
  | next q =>
      change (update hid.link q { hid.link q with next := target } p).key = _
      rcases eq_or_ne p q with rfl | other
      · rw [update_self]
      · rw [update_of_ne other]

theorem assign_rest (target : Option ρ) (P : Place ρ) :
    (hid.assign target P).size = hid.size ∧ (hid.assign target P).hash = hid.hash ∧
      (hid.assign target P).next = hid.next ∧
      (hid.assign target P).current_slot = hid.current_slot ∧
      (hid.assign target P).count = hid.count := by
  cases P <;> exact ⟨rfl, rfl, rfl, rfl, rfl⟩

/-- The `next` field of a removed link keeps its value. -/
theorem assign_next (chained : hid.Chained chains) (hi : i < hid.size)
    (chain : chains i = front ++ hl :: behind) :
    ((hid.assign (hid.link hl).next (placeAfter i front)).link hl).next = (hid.link hl).next := by
  have distinct := (chained.links i hi).nodup
  rw [chain] at distinct
  rcases eq_nil_or_concat front with rfl | ⟨before, q, rfl⟩
  · rfl
  · rw [concat_eq_append] at *
    have place : placeAfter i (before ++ [q]) = .next q := by
      rw [placeAfter, List.getLast?_concat]
    have other : hl ≠ q := by
      rintro rfl
      exact (filter_ne_split distinct).1 (by simp)
    rw [place]
    change (update hid.link q { hid.link q with next := (hid.link hl).next } hl).next = _
    rw [update_of_ne other]

theorem filter_later (size : ℕ) (chains : ℕ → List ρ) (hl : ρ) (slot : ℕ) :
    (later size chains slot).filter (· != hl) = later size (without chains hl) slot :=
  filter_flatMap chains hl _

theorem Chained.assign (chained : hid.Chained chains) (hi : i < hid.size)
    (chain : chains i = front ++ hl :: behind) :
    (hid.assign (hid.link hl).next (placeAfter i front)).Chained (without chains hl) := by
  obtain ⟨size_eq, hash_eq, -⟩ := @assign_rest _ _ hid _ (hid.link hl).next (placeAfter i front)
  refine ⟨?_, fun key => ?_, fun j hj => ?_, fun j hj p member => ?_⟩
  · rw [size_eq]
    exact chained.size_pos
  · rw [size_eq, hash_eq]
    exact chained.hash_lt key
  · exact assign_links chained hi chain (size_eq ▸ hj)
  · rw [hash_eq, assign_key]
    exact chained.slot j (size_eq ▸ hj) p (mem_of_mem_filter member)

/-- The cursor after a link has been taken out of its chain: the one on that very link moves on. -/
theorem moved_spec (chained : hid.Chained chains) (hi : i < hid.size)
    (chain : chains i = front ++ hl :: behind) (cursor : hid.Cursor chains rest)
    {hid₁ : hash_table ρ κ} (assigned : hid.assign (hid.link hl).next (placeAfter i front) = hid₁) :
    ∃ moved, (if hid₁.next = some hl then settle { hid₁ with next := (hid₁.link hl).next }
        else hid₁) = moved ∧ SameLinks hid₁ moved ∧
      moved.Cursor (without chains hl) (rest.filter (· != hl)) := by
  have chained₁ := chained.assign hi chain
  obtain ⟨size_eq, -, next_eq, slot_eq, -⟩ :=
    @assign_rest _ _ hid _ (hid.link hl).next (placeAfter i front)
  have kept_next := assign_next chained hi chain
  rw [assigned] at chained₁ size_eq next_eq slot_eq kept_next
  obtain ⟨at_end, rfl⟩ | ⟨p, passed, back, at_link, inside, chain_p, rfl⟩ := cursor
  · rw [next_eq, at_end, if_neg (some_ne_none hl).symm]
    exact ⟨hid₁, rfl, .refl hid₁, .inl ⟨next_eq.trans at_end, rfl⟩⟩
  have links_p := chained.links _ inside
  rw [chain_p] at links_p
  have inside₁ : hid₁.current_slot < hid₁.size := by rwa [slot_eq, size_eq]
  rw [next_eq, at_link, filter_append, filter_later]
  rcases eq_or_ne p hl with rfl | differ
  · obtain ⟨-, not_back, cut⟩ := filter_ne_split links_p.nodup
    have chain₁ : without chains p hid₁.current_slot = passed ++ back := by
      rw [without, slot_eq, chain_p, cut]
    have links₁ := chained₁.links _ inside₁
    rw [chain₁] at links₁
    obtain ⟨middle, later_links⟩ := links₁.suffix
    have starts : (hid₁.link p).next = middle := by
      rw [kept_next, later_links.head_eq]
      exact links_p.behind.head_eq
    rw [← starts] at later_links
    have start : SameLinks hid₁ { hid₁ with next := (hid₁.link p).next } :=
      ⟨rfl, rfl, rfl, rfl, rfl⟩
    obtain ⟨same, cursor⟩ := settle_spec passed (chained₁.same start) inside₁ chain₁ later_links
    rw [if_pos rfl, filter_cons_of_neg (by simp), filter_ne_of_notMem not_back, ← size_eq,
      ← slot_eq]
    exact ⟨_, rfl, start.trans same, cursor⟩
  · rw [if_neg fun same => differ (some.inj same)]
    refine ⟨hid₁, rfl, .refl hid₁, .inr ⟨p, passed.filter (· != hl), back.filter (· != hl),
      next_eq.trans at_link, inside₁, ?_, ?_⟩⟩
    · rw [without, slot_eq, chain_p, filter_append, filter_cons_of_pos (by simp [differ])]
    · rw [size_eq, slot_eq, filter_cons_of_pos (by simp [differ])]

/-- `hash_remove_link` takes the link out of its chain and out of what the walk still has to
return. -/
theorem remove_spec (chained : hid.Chained chains) (counted : hid.Counted chains)
    (hi : i < hid.size) (member : hl ∈ chains i) (cursor : hid.Cursor chains rest) :
    ∃ hid', hid.hash_remove_link hl = some hid' ∧ hid'.size = hid.size ∧
      hid'.Chained (without chains hl) ∧ hid'.Counted (without chains hl) ∧
      hid'.Cursor (without chains hl) (rest.filter (· != hl)) := by
  obtain ⟨front, behind, chain⟩ := append_of_mem member
  have links := chained.links i hi
  rw [chain] at links
  obtain ⟨-, not_behind, cut⟩ := filter_ne_split links.nodup
  have lengths := @length_flatMap_range ρ chains i hid.size hi (without chains hl)
    fun j hj differ => filter_ne_of_notMem fun at_j =>
      differ (chained.same_slot hj hi at_j member)
  rw [without, chain, cut, length_append, length_append, length_cons] at lengths
  rw [Counted] at counted
  have few : front.length < hid.count.toNat + 1 := by
    have bound := @chain_length_le _ chains _ _ hi
    rw [chain, length_append] at bound
    omega
  have found := @unlink_eq _ _ _ hl i _ [] front behind hi links _ few
  have slot : hid.hash (hid.link hl).key = i := chained.slot i hi hl member
  obtain ⟨size_eq, -, -, -, count_eq⟩ :=
    @assign_rest _ _ hid _ (hid.link hl).next (placeAfter i front)
  obtain ⟨moved, run, same, cursor'⟩ := moved_spec chained hi chain cursor rfl
  have chained' := (chained.assign hi chain).same same
  have moved_size : moved.size = hid.size := same.size_eq.trans size_eq
  refine ⟨{ moved with count := hid.count - 1 }, ?_, moved_size,
    ⟨chained'.size_pos, chained'.hash_lt, chained'.links, chained'.slot⟩, ?_, cursor'⟩
  · rw [hash_remove_link, slot]
    refine found.trans (congrArg Option.some ?_)
    rw [nil_append]
    change (fun moved : hash_table ρ κ => { moved with count := moved.count - 1 }) (if _ then _
      else _) = _
    rw [run]
    exact congrArg (fun n => { moved with count := n - 1 }) (same.count_eq.trans count_eq)
  · change hid.count - 1 = (((List.range moved.size).flatMap (without chains hl)).length : ℤ)
    rw [moved_size]
    omega

end hash_table

end Squid.Base
