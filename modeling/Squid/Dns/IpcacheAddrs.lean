import Squid.Ip.Address
import Squid.Library.CRuntime
import Squid.Library.LabelledRun
import Squid.Library.RoundRobin
import Mathlib.Logic.Function.Basic

/-!
# Bad addresses of the IP cache

The calls of `src/ipcache.cc` that mark the addresses of a cached name bad or good, and that move on
to the next address.  An access outside of `bad_mask` stops the program.
-/

namespace Squid.Ipcache

open CRuntime LabelledRun List Option Function

/-- `ipcache_addrs`. -/
structure IpcacheAddrs where
  in_addrs : List Ip.Address
  bad_mask : List Bool
  count : ℕ
  cur : ℕ
  badcount : ℕ

/-- `ipcache_entry`, as far as addresses are concerned. -/
structure IpcacheEntry where
  expires : ℤ
  negcached : Bool
  addrs : IpcacheAddrs
  error_message : Option String

/-! ## Addresses -/

/-- The first loop of `ipcacheCycleAddr` for the last so many values of `k`: whether it breaks, and
`cur`. -/
def cycleLoop (bad_mask : List Bool) (count : ℕ) : ℕ → ℕ → Option (Bool × ℕ)
  | 0, cur => some (false, cur)
  | left + 1, cur => do
      let next := (cur + 1) % 256
      let cur := if next = count then 0 else next
      if ← bad_mask[cur]? then cycleLoop bad_mask count left cur else some (true, cur)

/-- The loop that resets the marks. -/
def clearMask (bad_mask : List Bool) (count : ℕ) : Option (List Bool) :=
  if count ≤ bad_mask.length then some (List.replicate count false ++ bad_mask.drop count) else none

/-- `ipcacheCycleAddr`, once `ia` is known. -/
def cycleAddr (ia : IpcacheAddrs) : Option IpcacheAddrs := do
  let (found, cur) ← cycleLoop ia.bad_mask ia.count ia.count ia.cur
  if found then
    some { ia with cur }
  else
    some { ia with bad_mask := ← clearMask ia.bad_mask ia.count, badcount := 0, cur := 0 }

/-- The loops that search for an address. -/
def addrIndex (ia : IpcacheAddrs) (addr : Ip.Address) : Option ℕ :=
  (ia.in_addrs.take ia.count).findIdx? fun a => addr.matchIPAddr a = 0

/-- `ipcacheMarkBadAddr`, for an entry. -/
def markBadAddr (i : IpcacheEntry) (addr : Ip.Address) (squid_curtime negativeDnsTtl : ℤ) :
    Option IpcacheEntry :=
  match addrIndex i.addrs addr with
  | none => some i
  | some k => do
      let marked :=
        if ← i.addrs.bad_mask[k]? then i
        else
          { i with
            addrs := { i.addrs with
              bad_mask := i.addrs.bad_mask.set k true
              badcount := (i.addrs.badcount + 1) % 256 }
            expires := min (squid_curtime + max 60 negativeDnsTtl) i.expires }
      some { marked with addrs := ← cycleAddr marked.addrs }

/-- `ipcacheMarkAllGood`, for an entry. -/
def markAllGood (i : IpcacheEntry) : Option IpcacheEntry := do
  let bad_mask ← clearMask i.addrs.bad_mask i.addrs.count
  some { i with addrs := { i.addrs with bad_mask, badcount := 0 } }

/-- `ipcacheMarkGoodAddr`, for an entry. -/
def markGoodAddr (i : IpcacheEntry) (addr : Ip.Address) : Option IpcacheEntry :=
  match addrIndex i.addrs addr with
  | none => some i
  | some k => do
      if ← i.addrs.bad_mask[k]? then
        some { i with addrs := { i.addrs with
          bad_mask := i.addrs.bad_mask.set k false
          badcount := (i.addrs.badcount + 255) % 256 } }
      else some i

/-! ## Calls -/

/-- `ip_table`. -/
abbrev IpTable := Bytes → Option IpcacheEntry

/-- A call, with the clock and the configuration that it reads. -/
inductive Call where
  | ipcacheCycleAddr (name : Bytes)
  | ipcacheMarkBadAddr (name : Bytes) (addr : Ip.Address) (squid_curtime negativeDnsTtl : ℤ)
  | ipcacheMarkAllGood (name : Bytes)
  | ipcacheMarkGoodAddr (name : Bytes) (addr : Ip.Address)

/-- The name that a call looks up. -/
def Call.name : Call → Bytes
  | .ipcacheCycleAddr name | .ipcacheMarkBadAddr name _ _ _ | .ipcacheMarkAllGood name
  | .ipcacheMarkGoodAddr name _ => name

/-- What a call does with the entry. -/
def Call.change : Call → IpcacheEntry → Option IpcacheEntry
  | .ipcacheCycleAddr _, i =>
      if i.negcached then some i
      else (cycleAddr i.addrs).map fun addrs => { i with addrs }
  | .ipcacheMarkBadAddr _ addr squid_curtime negativeDnsTtl, i =>
      markBadAddr i addr squid_curtime negativeDnsTtl
  | .ipcacheMarkAllGood _, i => markAllGood i
  | .ipcacheMarkGoodAddr _ addr, i => markGoodAddr i addr

/-- Make a call; nothing happens for a name without an entry. -/
def call (ip_table : IpTable) (label : Call) : Option IpTable :=
  match ip_table label.name with
  | none => some ip_table
  | some i => (label.change i).map fun i' => update ip_table label.name (some i')

/-! ## Consistency -/

/-- The marks, their number and the cursor belong together. -/
structure IpcacheAddrs.Consistent (ia : IpcacheAddrs) : Prop where
  count_le : ia.count ≤ 255
  stored : ia.count ≤ ia.in_addrs.length
  masked : ia.bad_mask.length = ia.in_addrs.length
  cur_lt : ia.cur < ia.count
  badcount : ia.badcount = ia.bad_mask.count true
  /-- Nothing behind the addresses is marked. -/
  behind : ∀ k, ia.count ≤ k → ia.bad_mask[k]? ≠ some true

/-- An entry with addresses. -/
structure IpcacheEntry.Consistent (i : IpcacheEntry) : Prop where
  positive : i.negcached = false
  addrs : i.addrs.Consistent

/-- The address at an index is not marked bad. -/
def IpcacheAddrs.good (ia : IpcacheAddrs) (k : ℕ) : Bool := ia.bad_mask[k]? = some false

/-- The good addresses, in the order in which the cursor meets them. -/
def IpcacheAddrs.goodAfter (ia : IpcacheAddrs) : List ℕ :=
  (RoundRobin.after ia.count ia.cur).filter ia.good

/-- New addresses without marks are consistent. -/
theorem consistent_of_new {in_addrs : List Ip.Address} {count cur : ℕ} (count_le : count ≤ 255)
    (stored : count ≤ in_addrs.length) (cur_lt : cur < count) :
    IpcacheAddrs.Consistent
      ⟨in_addrs, List.replicate in_addrs.length false, count, cur, 0⟩ where
  count_le := count_le
  stored := stored
  masked := length_replicate
  cur_lt := cur_lt
  badcount := by simp [count_replicate]
  behind := by
    intro k beyond marked
    have member := mem_of_getElem? marked
    rw [mem_replicate] at member
    cases member.2

section Addrs

variable {ia : IpcacheAddrs}

section

variable (consistent : ia.Consistent)
include consistent

theorem IpcacheAddrs.Consistent.drop_count : (ia.bad_mask.drop ia.count).count true = 0 := by
  rw [count_eq_zero]
  intro member
  obtain ⟨k, at_k⟩ := mem_iff_getElem?.mp member
  rw [List.getElem?_drop] at at_k
  exact consistent.behind _ (Nat.le_add_right _ _) at_k

theorem IpcacheAddrs.Consistent.count_le_mask : ia.count ≤ ia.bad_mask.length :=
  consistent.masked ▸ consistent.stored

/-- The number of the marks fits a byte. -/
theorem IpcacheAddrs.Consistent.badcount_le : ia.badcount ≤ ia.count := by
  have bound : (ia.bad_mask.take ia.count).count true ≤ (ia.bad_mask.take ia.count).length :=
    count_le_length
  rw [consistent.badcount, ← take_append_drop ia.count ia.bad_mask, count_append,
    consistent.drop_count]
  rw [length_take] at bound
  omega

theorem clearMask_eq :
    clearMask ia.bad_mask ia.count =
      some (List.replicate ia.count false ++ ia.bad_mask.drop ia.count) :=
  if_pos consistent.count_le_mask

/-- Without marks the addresses are consistent. -/
theorem IpcacheAddrs.Consistent.cleared {cur : ℕ} (cur_lt : cur < ia.count) :
    IpcacheAddrs.Consistent { ia with
      bad_mask := List.replicate ia.count false ++ ia.bad_mask.drop ia.count, badcount := 0, cur } where
  count_le := consistent.count_le
  stored := consistent.stored
  masked := by
    have stored := consistent.count_le_mask
    have masked := consistent.masked
    simp only [length_append, length_replicate, length_drop]
    omega
  cur_lt := cur_lt
  badcount := by simp [consistent.drop_count, count_replicate]
  behind := by
    intro k beyond marked
    rw [List.getElem?_append_right (by rwa [length_replicate]), length_replicate,
      List.getElem?_drop] at marked
    exact consistent.behind _ (Nat.le_add_right _ _) marked

end

end Addrs

/-! ## The cursor -/

/-- The loop stops at the first good address, or it meets none. -/
theorem cycleLoop_spec {bad_mask : List Bool} {count : ℕ} (count_le : count ≤ 255)
    (stored : count ≤ bad_mask.length) (left cur : ℕ) (inside : cur < count) :
    (∃ k < left, (∀ j < k, bad_mask[(j + (cur + 1)) % count]? = some true) ∧
      bad_mask[(k + (cur + 1)) % count]? = some false ∧
      cycleLoop bad_mask count left cur = some (true, (k + (cur + 1)) % count)) ∨
    (∀ j < left, bad_mask[(j + (cur + 1)) % count]? = some true) ∧
      ∃ last, cycleLoop bad_mask count left cur = some (false, last) := by
  induction left generalizing cur with
  | zero => exact Or.inr ⟨by simp, cur, rfl⟩
  | succ left ih =>
      have wrap : (if (cur + 1) % 256 = count then 0 else (cur + 1) % 256) = (cur + 1) % count := by
        rw [Nat.mod_eq_of_lt (by omega : cur + 1 < 256)]
        split
        · next full => rw [full, Nat.mod_self]
        · next free => rw [Nat.mod_eq_of_lt (by omega)]
      have next_lt : (cur + 1) % count < count := Nat.mod_lt _ (by omega)
      have shift : ∀ j, (j + ((cur + 1) % count + 1)) % count = (j + 1 + (cur + 1)) % count := by
        intro j
        rw [show j + ((cur + 1) % count + 1) = j + 1 + (cur + 1) % count by omega, Nat.add_mod_mod]
      have step : cycleLoop bad_mask count (left + 1) cur =
          if bad_mask[(cur + 1) % count] then cycleLoop bad_mask count left ((cur + 1) % count)
          else some (true, (cur + 1) % count) := by
        simp only [cycleLoop, wrap, List.getElem?_eq_getElem (next_lt.trans_le stored),
          bind_eq_bind, bind_some]
      have first : bad_mask[(0 + (cur + 1)) % count]? = some bad_mask[(cur + 1) % count] := by
        rw [Nat.zero_add, List.getElem?_eq_getElem (next_lt.trans_le stored)]
      rw [step]
      cases mark : bad_mask[(cur + 1) % count] with
      | false =>
          rw [mark] at first
          exact Or.inl ⟨0, Nat.succ_pos left, by simp, first, by rw [Nat.zero_add]; rfl⟩
      | true =>
          rw [mark] at first
          rw [if_pos rfl]
          obtain ⟨k, small, passed, found, result⟩ | ⟨passed, last, result⟩ := ih _ next_lt
          · refine Or.inl ⟨k + 1, by omega, ?_, by rw [← shift, found], by rw [← shift, result]⟩
            intro j below
            cases j with
            | zero => exact first
            | succ j => rw [← shift, passed j (by omega)]
          · refine Or.inr ⟨?_, last, result⟩
            intro j below
            cases j with
            | zero => exact first
            | succ j => rw [← shift, passed j (by omega)]

section Addrs

variable {ia : IpcacheAddrs}

variable {k : ℕ}

theorem mem_goodAfter_iff : k ∈ ia.goodAfter ↔ k < ia.count ∧ ia.bad_mask[k]? = some false := by
  rw [IpcacheAddrs.goodAfter, mem_filter, RoundRobin.mem_after_iff, IpcacheAddrs.good,
    decide_eq_true_iff]

/-- With a good address, the cursor moves to the next one; else all are good again. -/
theorem cycleAddr_spec (consistent : ia.Consistent) :
    ∃ ia', cycleAddr ia = some ia' ∧ ia'.Consistent ∧ ia'.in_addrs = ia.in_addrs ∧
      ia'.count = ia.count ∧ ia'.bad_mask[ia'.cur]? = some false ∧
      (ia.goodAfter ≠ [] → ia.goodAfter.head? = some ia'.cur ∧ ia'.bad_mask = ia.bad_mask ∧
        ia'.goodAfter = ia.goodAfter.rotate 1) := by
  have inside := consistent.cur_lt
  obtain ⟨k, small, passed, found, result⟩ | ⟨passed, last, result⟩ :=
    cycleLoop_spec consistent.count_le consistent.count_le_mask ia.count ia.cur inside
  · have next_lt : (k + (ia.cur + 1)) % ia.count < ia.count := Nat.mod_lt _ (by omega)
    refine ⟨{ ia with cur := (k + (ia.cur + 1)) % ia.count }, ?_,
      { consistent with cur_lt := next_lt }, rfl, rfl, found, fun _ => ?_⟩
    · simp only [cycleAddr, result, bind_eq_bind, bind_some, if_true]
    · obtain ⟨bound, at_k⟩ :=
        List.getElem?_eq_some_iff.mp (@RoundRobin.after_getElem? ia.count ia.cur k small)
      have split : RoundRobin.after ia.count ia.cur =
          (RoundRobin.after ia.count ia.cur).take k ++ (k + (ia.cur + 1)) % ia.count ::
            (RoundRobin.after ia.count ia.cur).drop (k + 1) := by
        rw [← at_k, cons_getElem_drop_succ, take_append_drop]
      have bad : ∀ p ∈ (RoundRobin.after ia.count ia.cur).take k, ia.good p = false := by
        intro p member
        obtain ⟨j, below, rfl⟩ := mem_take_iff_getElem.mp member
        have marked := passed j (by omega)
        have place := @RoundRobin.after_getElem? ia.count ia.cur j (by omega)
        rw [List.getElem?_eq_getElem (by omega), some_inj] at place
        rw [IpcacheAddrs.good, place, marked]
        rfl
      have good : ia.good ((k + (ia.cur + 1)) % ia.count) = true := decide_eq_true found
      have turned := RoundRobin.filter_after_of_split split bad good
      refine ⟨?_, rfl, turned⟩
      have nothing : ((RoundRobin.after ia.count ia.cur).take k).filter ia.good = [] :=
        filter_eq_nil_iff.mpr fun p member => by simp [bad p member]
      rw [IpcacheAddrs.goodAfter, split, filter_append, nothing, List.nil_append,
        filter_cons_of_pos good, List.head?_cons]
  · refine ⟨_, ?_, consistent.cleared (by omega : 0 < ia.count), rfl, rfl, ?_, fun some_good => ?_⟩
    · simp only [cycleAddr, result, clearMask_eq consistent, bind_eq_bind, bind_some,
        Bool.false_eq_true, if_false]
    · have positive : 0 < ia.count := by omega
      change (List.replicate ia.count false ++ ia.bad_mask.drop ia.count)[0]? = some false
      rw [List.getElem?_append_left (by rwa [length_replicate]),
        List.getElem?_replicate_of_lt positive]
    · obtain ⟨p, member⟩ := exists_mem_of_ne_nil _ some_good
      obtain ⟨small, good⟩ := mem_goodAfter_iff.mp member
      obtain ⟨j, at_p⟩ := mem_iff_getElem?.mp
        (@RoundRobin.mem_after_iff ia.count ia.cur p |>.mpr small)
      have below := (List.getElem?_eq_some_iff.mp at_p).1
      rw [RoundRobin.after_length] at below
      rw [RoundRobin.after_getElem? below, some_inj] at at_p
      rw [← at_p, passed j below] at good
      cases good

theorem addrIndex_lt {addr : Ip.Address} (found : addrIndex ia addr = some k) : k < ia.count := by
  have bound := (List.findIdx?_eq_some_iff_getElem.mp found).1
  rw [length_take] at bound
  omega

/-- Changing one mark changes the number of marks by one. -/
theorem IpcacheAddrs.Consistent.marked (consistent : ia.Consistent) (bad : Bool) (badcount : ℕ)
    (small : k < ia.count) (old : ia.bad_mask[k]? = some !bad)
    (counted : badcount + (!bad).toNat = ia.badcount + bad.toNat) :
    IpcacheAddrs.Consistent { ia with bad_mask := ia.bad_mask.set k bad, badcount } where
  count_le := consistent.count_le
  stored := consistent.stored
  masked := by rw [length_set]; exact consistent.masked
  cur_lt := consistent.cur_lt
  badcount := by
    obtain ⟨bound, at_k⟩ := List.getElem?_eq_some_iff.mp old
    have number := consistent.badcount
    change badcount = (ia.bad_mask.set k bad).count true
    rw [count_set bound, at_k]
    cases bad <;> simp at counted ⊢ <;> omega
  behind := by
    intro j (beyond : ia.count ≤ j)
    rw [List.getElem?_set_ne (by omega)]
    exact consistent.behind j beyond

end Addrs

/-! ## Changes of an entry -/

/-- What no call does to an entry: lose addresses, or let it expire later. -/
structure Kept (i i' : IpcacheEntry) : Prop where
  in_addrs : i'.addrs.in_addrs = i.addrs.in_addrs
  count : i'.addrs.count = i.addrs.count
  expires : i'.expires ≤ i.expires

theorem Kept.refl (i : IpcacheEntry) : Kept i i := ⟨rfl, rfl, le_rfl⟩

theorem Kept.trans {i i' i'' : IpcacheEntry} (first : Kept i i') (second : Kept i' i'') :
    Kept i i'' :=
  ⟨second.in_addrs.trans first.in_addrs, second.count.trans first.count,
    second.expires.trans first.expires⟩

/-- The calls that move on to the next address. -/
def Call.Advances (i : IpcacheEntry) : Call → Prop
  | .ipcacheCycleAddr _ => True
  | .ipcacheMarkBadAddr _ addr _ _ => (addrIndex i.addrs addr).isSome
  | .ipcacheMarkAllGood _ | .ipcacheMarkGoodAddr _ _ => False

/-- The current address is not marked bad. -/
def IpcacheAddrs.CurrentGood (ia : IpcacheAddrs) : Prop := ia.bad_mask[ia.cur]? = some false

section Changes

variable {i : IpcacheEntry}

section

variable (consistent : i.Consistent)
include consistent

theorem markBadAddr_spec (addr : Ip.Address) (squid_curtime negativeDnsTtl : ℤ) :
    ∃ i', markBadAddr i addr squid_curtime negativeDnsTtl = some i' ∧ i'.Consistent ∧ Kept i i' ∧
      ((addrIndex i.addrs addr).isSome → i'.addrs.CurrentGood) := by
  cases found : addrIndex i.addrs addr with
  | none => exact ⟨i, by rw [markBadAddr, found], consistent, Kept.refl i, by simp⟩
  | some k =>
      have small := addrIndex_lt found
      have bound := small.trans_le consistent.addrs.count_le_mask
      have old := List.getElem?_eq_getElem bound
      cases mark : i.addrs.bad_mask[k] with
      | true =>
          rw [mark] at old
          obtain ⟨ia', cycled, consistent', in_addrs, count, good, -⟩ :=
            cycleAddr_spec consistent.addrs
          refine ⟨{ i with addrs := ia' }, ?_, ⟨consistent.positive, consistent'⟩,
            ⟨in_addrs, count, le_rfl⟩, fun _ => good⟩
          simp only [markBadAddr, found, old, bind_eq_bind, bind_some, if_true, cycled]
      | false =>
          rw [mark] at old
          have consistent' := consistent.addrs.marked true (i.addrs.badcount + 1) small old rfl
          have room : i.addrs.badcount + 1 ≤ i.addrs.count := consistent'.badcount_le
          have limit := consistent.addrs.count_le
          obtain ⟨ia', cycled, consistent'', in_addrs, count, good, -⟩ := cycleAddr_spec consistent'
          refine ⟨{ i with
            addrs := ia', expires := min (squid_curtime + max 60 negativeDnsTtl) i.expires }, ?_,
            ⟨consistent.positive, consistent''⟩, ⟨in_addrs, count, min_le_right _ _⟩, fun _ => good⟩
          simp only [markBadAddr, found, old, bind_eq_bind, bind_some, Bool.false_eq_true, if_false,
            Nat.mod_eq_of_lt (by omega : i.addrs.badcount + 1 < 256), cycled]

theorem markGoodAddr_spec (addr : Ip.Address) :
    ∃ i', markGoodAddr i addr = some i' ∧ i'.Consistent ∧ Kept i i' := by
  cases found : addrIndex i.addrs addr with
  | none => exact ⟨i, by rw [markGoodAddr, found], consistent, Kept.refl i⟩
  | some k =>
      have small := addrIndex_lt found
      have bound := small.trans_le consistent.addrs.count_le_mask
      have old := List.getElem?_eq_getElem bound
      cases mark : i.addrs.bad_mask[k] with
      | false =>
          rw [mark] at old
          refine ⟨i, ?_, consistent, Kept.refl i⟩
          simp only [markGoodAddr, found, old, bind_eq_bind, bind_some,
            Bool.false_eq_true, if_false]
      | true =>
          rw [mark] at old
          have some_bad : 0 < i.addrs.badcount := by
            rw [consistent.addrs.badcount, count_pos_iff]
            exact mem_of_getElem? old
          have most := consistent.addrs.badcount_le
          have limit := consistent.addrs.count_le
          have wrap : (i.addrs.badcount + 255) % 256 = i.addrs.badcount - 1 := by omega
          have consistent' := consistent.addrs.marked false (i.addrs.badcount - 1) small old
            (Nat.sub_add_cancel some_bad)
          refine ⟨{ i with addrs := { i.addrs with
              bad_mask := i.addrs.bad_mask.set k false, badcount := i.addrs.badcount - 1 } }, ?_,
            ⟨consistent.positive, consistent'⟩, ⟨rfl, rfl, le_rfl⟩⟩
          simp only [markGoodAddr, found, old, bind_eq_bind, bind_some, if_true, wrap]

theorem markAllGood_spec : ∃ i', markAllGood i = some i' ∧ i'.Consistent ∧ Kept i i' := by
  refine ⟨{ i with addrs := { i.addrs with
      bad_mask := List.replicate i.addrs.count false ++ i.addrs.bad_mask.drop i.addrs.count,
      badcount := 0 } }, ?_,
    ⟨consistent.positive, consistent.addrs.cleared consistent.addrs.cur_lt⟩, ⟨rfl, rfl, le_rfl⟩⟩
  rw [markAllGood, clearMask_eq consistent.addrs]
  rfl

/-- A call keeps an entry consistent; one that moves on ends at an address that is not bad. -/
theorem change_spec (label : Call) :
    ∃ i', label.change i = some i' ∧ i'.Consistent ∧ Kept i i' ∧
      (label.Advances i → i'.addrs.CurrentGood) := by
  cases label with
  | ipcacheCycleAddr name =>
      obtain ⟨ia', cycled, consistent', in_addrs, count, good, -⟩ := cycleAddr_spec consistent.addrs
      refine ⟨{ i with addrs := ia' }, ?_, ⟨consistent.positive, consistent'⟩,
        ⟨in_addrs, count, le_rfl⟩, fun _ => good⟩
      rw [Call.change, consistent.positive, cycled]
      rfl
  | ipcacheMarkBadAddr name addr squid_curtime negativeDnsTtl =>
      exact markBadAddr_spec consistent addr squid_curtime negativeDnsTtl
  | ipcacheMarkAllGood name =>
      obtain ⟨i', changed, consistent', kept⟩ := markAllGood_spec consistent
      exact ⟨i', changed, consistent', kept, False.elim⟩
  | ipcacheMarkGoodAddr name addr =>
      obtain ⟨i', changed, consistent', kept⟩ := markGoodAddr_spec consistent addr
      exact ⟨i', changed, consistent', kept, False.elim⟩

end

end Changes

/-! ## Runs -/

/-- All entries are consistent. -/
def IpTable.Consistent (ip_table : IpTable) : Prop :=
  ∀ name i, ip_table name = some i → i.Consistent

/-- Entries are kept, with their addresses. -/
def IpTable.Kept (ip_table ip_table' : IpTable) : Prop :=
  ∀ name i, ip_table name = some i → ∃ i', ip_table' name = some i' ∧ Ipcache.Kept i i'

variable {ip_table : IpTable}

/-- A call changes the entry of its name only. -/
theorem call_spec (consistent : ip_table.Consistent) (label : Call) :
    ∃ ip_table', call ip_table label = some ip_table' ∧ ip_table'.Consistent ∧
      ip_table.Kept ip_table' ∧
      ∀ i, ip_table label.name = some i → label.Advances i →
        ∃ i', ip_table' label.name = some i' ∧ i'.addrs.CurrentGood := by
  cases present : ip_table label.name with
  | none =>
      refine ⟨ip_table, by rw [call, present], consistent, fun name i at_i => ⟨i, at_i, .refl i⟩, ?_⟩
      intro i at_i
      cases at_i
  | some i =>
      obtain ⟨i', changed, consistent', kept, good⟩ := change_spec (consistent _ _ present) label
      refine ⟨update ip_table label.name (some i'), by rw [call, present]; simp [changed],
        ?_, ?_, ?_⟩
      · intro name j at_j
        by_cases same : name = label.name
        · rw [same, update_self] at at_j
          cases at_j
          exact consistent'
        · rw [update_of_ne same] at at_j
          exact consistent name j at_j
      · intro name j at_j
        by_cases same : name = label.name
        · rw [same, present] at at_j
          cases at_j
          exact ⟨i', by rw [same, update_self], kept⟩
        · exact ⟨j, by rw [update_of_ne same, at_j], .refl j⟩
      · intro j at_j advances
        cases at_j
        exact ⟨i', update_self .., good advances⟩

/-- Calls can be made one after the other. -/
theorem exec_spec (calls : List Call) (consistent : ip_table.Consistent) :
    ∃ ip_table', exec call ip_table calls = some ip_table' ∧ ip_table'.Consistent ∧
      ip_table.Kept ip_table' := by
  induction calls generalizing ip_table with
  | nil => exact ⟨ip_table, rfl, consistent, fun name i at_i => ⟨i, at_i, .refl i⟩⟩
  | cons label calls ih =>
      obtain ⟨middle, step, consistent', kept, -⟩ := call_spec consistent label
      obtain ⟨last, rest, consistent'', kept'⟩ := ih consistent'
      refine ⟨last, by rw [exec_cons, step, bind_some, rest], consistent'', ?_⟩
      intro name i at_i
      obtain ⟨i', at_i', first⟩ := kept name i at_i
      obtain ⟨i'', at_i'', second⟩ := kept' name i' at_i'
      exact ⟨i'', at_i'', first.trans second⟩

theorem call_cycle {name : Bytes} {i : IpcacheEntry} {ia' : IpcacheAddrs}
    (present : ip_table name = some i) (consistent : i.Consistent)
    (cycled : cycleAddr i.addrs = some ia') :
    call ip_table (.ipcacheCycleAddr name) =
      some (update ip_table name (some { i with addrs := ia' })) := by
  simp [call, Call.name, present, Call.change, consistent.positive, cycled]

/-- Cycling without marking takes the good addresses in turn. -/
theorem cycle_visits {ip_table : IpTable} {name : Bytes} {i : IpcacheEntry}
    (present : ip_table name = some i) (consistent : i.Consistent)
    (some_good : i.addrs.goodAfter ≠ []) (n : ℕ) :
    ∃ ip_table' i', exec call ip_table (List.replicate (n + 1) (.ipcacheCycleAddr name)) =
        some ip_table' ∧ ip_table' name = some i' ∧
      i.addrs.goodAfter[n % i.addrs.goodAfter.length]? = some i'.addrs.cur := by
  induction n generalizing ip_table i with
  | zero =>
      obtain ⟨ia', cycled, -, -, -, -, visit⟩ := cycleAddr_spec consistent.addrs
      refine ⟨update ip_table name (some { i with addrs := ia' }), { i with addrs := ia' }, ?_,
        update_self .., ?_⟩
      · rw [replicate_one, exec_cons, call_cycle present consistent cycled]
        rfl
      · rw [Nat.zero_mod, ← List.head?_eq_getElem?]
        exact (visit some_good).1
  | succ n ih =>
      obtain ⟨ia', cycled, consistent', -, -, -, visit⟩ := cycleAddr_spec consistent.addrs
      have turned : ia'.goodAfter = i.addrs.goodAfter.rotate 1 := (visit some_good).2.2
      obtain ⟨ip_table', i', run, present', at_cur⟩ :=
        @ih (update ip_table name (some { i with addrs := ia' })) { i with addrs := ia' }
          (update_self ..) ⟨consistent.positive, consistent'⟩
          (by rw [turned, Ne, rotate_eq_nil_iff]; exact some_good)
      refine ⟨ip_table', i', ?_, present', ?_⟩
      · rw [replicate_succ, exec_cons, call_cycle present consistent cycled]
        exact run
      · have positive := length_pos_iff.mpr some_good
        rw [turned, length_rotate, List.getElem?_rotate (Nat.mod_lt _ positive),
          Nat.mod_add_mod] at at_cur
        exact at_cur

/-- For any calls: the entries keep their addresses and stay consistent, they never expire later,
after a call that moves on the current address is not bad, and cycling from there takes the good
addresses in turn. -/
theorem bookkeeping_consistent {ip_table : IpTable} (consistent : ip_table.Consistent)
    (before calls : List Call) :
    ∃ middle ip_table', exec call ip_table before = some middle ∧
      exec call middle calls = some ip_table' ∧
      ∀ name i, middle name = some i → ∃ i', ip_table' name = some i' ∧ Kept i i' ∧
        i'.addrs.cur < i'.addrs.count ∧ i'.addrs.badcount = i'.addrs.bad_mask.count true ∧
        (∀ label, calls = [label] → label.name = name → label.Advances i →
          i'.addrs.CurrentGood) ∧
        (i'.addrs.goodAfter ≠ [] → ∀ n, ∃ ip_table'' i'',
          exec call ip_table' (List.replicate (n + 1) (.ipcacheCycleAddr name)) = some ip_table'' ∧
          ip_table'' name = some i'' ∧
          i'.addrs.goodAfter[n % i'.addrs.goodAfter.length]? = some i''.addrs.cur) := by
  obtain ⟨middle, run, consistent', -⟩ := exec_spec before consistent
  obtain ⟨ip_table', run', consistent'', kept⟩ := exec_spec calls consistent'
  refine ⟨middle, ip_table', run, run', fun name i at_i => ?_⟩
  obtain ⟨i', at_i', kept'⟩ := kept name i at_i
  have state := consistent'' name i' at_i'
  refine ⟨i', at_i', kept', state.addrs.cur_lt, state.addrs.badcount, ?_,
    fun some_good => cycle_visits at_i' state some_good⟩
  rintro label rfl rfl advances
  obtain ⟨last, step, -, -, good⟩ := call_spec consistent' label
  rw [exec_cons, step, bind_some, exec_nil, some_inj] at run'
  obtain ⟨i'', at_i'', current⟩ := good i at_i advances
  rw [run', at_i'] at at_i''
  cases at_i''
  exact current

/-- A name with three addresses. -/
def threeAddrs : IpTable := fun name =>
  if name = [97] then
    some { expires := 300, negcached := false, error_message := none,
           addrs := ⟨[1, 2, 3], List.replicate 3 false, 3, 0, 0⟩ }
  else none

theorem threeAddrs_consistent : threeAddrs.Consistent := by
  intro name i at_i
  simp only [threeAddrs] at at_i
  split at at_i
  · cases at_i
    exact ⟨rfl, consistent_of_new (by decide) (by decide) (by decide)⟩
  · cases at_i

/-- After the second address is marked bad, the cursor takes the third and the first in turn. -/
theorem bookkeeping_consistent_sample :
    ∃ middle ip_table', exec call threeAddrs [.ipcacheMarkBadAddr [97] 2 100 60] = some middle ∧
      exec call middle [.ipcacheCycleAddr [97]] = some ip_table' ∧
      ∀ i, middle [97] = some i → ∃ i', ip_table' [97] = some i' ∧ Kept i i' ∧
        i'.addrs.CurrentGood := by
  obtain ⟨middle, ip_table', first, second, after⟩ := bookkeeping_consistent threeAddrs_consistent
    [.ipcacheMarkBadAddr [97] 2 100 60] [.ipcacheCycleAddr [97]]
  refine ⟨middle, ip_table', first, second, fun i at_i => ?_⟩
  obtain ⟨i', at_i', kept, -, -, current, -⟩ := after [97] i at_i
  exact ⟨i', at_i', kept, current _ rfl rfl trivial⟩

end Squid.Ipcache
