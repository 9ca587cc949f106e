import Squid.Ssl.LocalContextStorage

/-!
# The TLS context caches of all ports

`GlobalContextStorage` of `src/ssl/context_storage.cc`.  `configureStorage` is never cleared, and
`insert` keeps what it holds already.

The order of the keys is left out: the maps are over any addresses that are told apart, which is
what a `std::map` asks of its order.  `Ip::Address::operator<` does not give that for all addresses:
as it puts an address that `IsAnyAddr` first, `0.0.0.0` and `::1` are each less than the other one.
-/

namespace Squid.Ssl

open Option Table

structure GlobalContextStorage (α κ : Type) where
  reconfiguring : Bool
  configureStorage : Table α ℕ
  storage : Table α (LocalContextStorage κ)

namespace GlobalContextStorage

variable {α κ : Type} [DecidableEq α]

/-- The constructor. -/
def new : GlobalContextStorage α κ := ⟨true, .empty, .empty⟩

/-- `addLocalStorage`, with its assertion. -/
def addLocalStorage (g : GlobalContextStorage α κ) (address : α) (size_of_store : ℕ) :
    Option (GlobalContextStorage α κ) :=
  if g.reconfiguring then
    match g.configureStorage.find address with
    | some _ => some g
    | none => some { g with configureStorage := g.configureStorage.insert address size_of_store }
  else none

def reconfigureStart (g : GlobalContextStorage α κ) : GlobalContextStorage α κ :=
  { g with reconfiguring := true }

/-- The loop over the old local storages.  Where it erases one, it goes on from an iterator that is
not valid any more. -/
def changeOld (configureStorage : Table α ℕ) :
    List (α × LocalContextStorage κ) → Table α (LocalContextStorage κ) →
    Option (Table α (LocalContextStorage κ))
  | [], storage => some storage
  | (address, local_storage) :: rows, storage =>
      match configureStorage.find address with
      | none => none
      | some size => changeOld configureStorage rows (storage.set address (local_storage.SetSize size))

/-- The loop over the configured sizes. -/
def addNew : List (α × ℕ) → Table α (LocalContextStorage κ) → Table α (LocalContextStorage κ)
  | [], storage => storage
  | (address, size) :: rows, storage =>
      if (storage.find address).isNone then addNew rows (storage.insert address (.new size))
      else addNew rows storage

def reconfigureFinish (g : GlobalContextStorage α κ) : Option (GlobalContextStorage α κ) :=
  if g.reconfiguring then do
    let storage ← changeOld g.configureStorage g.storage.rows g.storage
    some { g with reconfiguring := false, storage := addNew g.configureStorage.rows storage }
  else some g

/-- `getLocalStorage`, with its assertion, and the calls that its caller makes on the result. -/
def getLocalStorage (g : GlobalContextStorage α κ) (address : α)
    (calls : List (LocalContextStorage.Call κ)) : Option (GlobalContextStorage α κ) := do
  let g ← g.reconfigureFinish
  let local_storage ← g.storage.find address
  let (local_storage, _) ← local_storage.run [] calls
  some { g with storage := g.storage.set address local_storage }

/-! ## Histories -/

/-- A reconfiguration: distinct addresses with their sizes, and what is done with the storages. -/
structure Reconfiguration (α κ : Type) where
  adds : List (α × ℕ)
  distinct : (adds.map Prod.fst).Nodup
  gets : List (α × List (LocalContextStorage.Call κ))

/-- `addLocalStorage` for some addresses. -/
def addAll : GlobalContextStorage α κ → List (α × ℕ) → Option (GlobalContextStorage α κ)
  | g, [] => some g
  | g, (address, size) :: adds => do addAll (← g.addLocalStorage address size) adds

/-- `getLocalStorage` for some addresses. -/
def getAll : GlobalContextStorage α κ → List (α × List (LocalContextStorage.Call κ)) →
    Option (GlobalContextStorage α κ)
  | g, [] => some g
  | g, (address, calls) :: gets => do getAll (← g.getLocalStorage address calls) gets

/-- Reconfigure and use the storages. -/
def run : GlobalContextStorage α κ → List (Reconfiguration α κ) → Option (GlobalContextStorage α κ)
  | g, [] => some g
  | g, r :: rounds => do
      run (← (← g.reconfigureStart.addAll r.adds).getAll r.gets) rounds

/-- The size that is first given for an address. -/
def firstSize (adds : List (α × ℕ)) (address : α) : Option ℕ :=
  (adds.find? fun add => add.1 = address).map Prod.snd

/-- A reconfiguration gives every address the storage that it was configured with: after
`reconfigureFinish` the storages are those of the reconfiguration, with its sizes, older ones with
their contents; and the assertion of `getLocalStorage` holds for exactly its addresses. -/
structure GivesConfigured (g : GlobalContextStorage α κ) (r : Reconfiguration α κ)
    (finished : GlobalContextStorage α κ) : Prop where
  sizes : ∀ address, (finished.storage.find address).map (·.max_memory) = firstSize r.adds address
  retained : ∀ address old size, g.storage.find address = some old → (address, size) ∈ r.adds →
    finished.storage.find address = some (old.SetSize size)
  found : ∀ gets used, finished.getAll gets = some used → ∀ address,
    (used.getLocalStorage address []).isSome ↔ address ∈ r.adds.map Prod.fst

/-- The condition on the history: every address that was ever added is added again, with the size
that it was first added with. -/
def RepeatsAll (earlier : List (Reconfiguration α κ)) (r : Reconfiguration α κ) : Prop :=
  ∀ address size, firstSize (earlier.flatMap (·.adds) ++ r.adds) address = some size →
    (address, size) ∈ r.adds

/-! ## First sizes -/

section FirstSize

variable {adds adds' : List (α × ℕ)} {address : α} {size : ℕ}

theorem firstSize_append :
    firstSize (adds ++ adds') address = (firstSize adds address).or (firstSize adds' address) := by
  rw [firstSize, List.find?_append, map_or]
  rfl

theorem firstSize_isSome_iff : (firstSize adds address).isSome ↔ address ∈ adds.map Prod.fst := by
  simp [firstSize]

theorem firstSize_eq_some_iff (distinct : (adds.map Prod.fst).Nodup) :
    firstSize adds address = some size ↔ (address, size) ∈ adds :=
  (@mem_rows_iff α ℕ _ ⟨adds, distinct⟩ address size).symm

end FirstSize

/-! ## Reconfiguring -/

/-- What the maps hold once some addresses were added. -/
structure Inv (g : GlobalContextStorage α κ) (adds : List (α × ℕ)) : Prop where
  configured : ∀ address, g.configureStorage.find address = firstSize adds address
  known : ∀ address local_storage, g.storage.find address = some local_storage →
    (firstSize adds address).isSome

section Reconfiguring

variable {g : GlobalContextStorage α κ} {adds : List (α × ℕ)}

theorem inv_new : (new : GlobalContextStorage α κ).Inv [] where
  configured address := rfl
  known address local_storage found := by cases found

theorem addLocalStorage_spec (inv : g.Inv adds) (reconfiguring : g.reconfiguring = true)
    (address : α) (size : ℕ) :
    ∃ g', g.addLocalStorage address size = some g' ∧ g'.Inv (adds ++ [(address, size)]) ∧
      g'.reconfiguring = true ∧ g'.storage = g.storage := by
  have known : ∀ other local_storage, g.storage.find other = some local_storage →
      (firstSize (adds ++ [(address, size)]) other).isSome := by
    intro other local_storage found
    rw [firstSize_append, isSome_or, inv.known other local_storage found, Bool.true_or]
  rw [addLocalStorage, if_pos reconfiguring]
  cases present : g.configureStorage.find address with
  | some old =>
      refine ⟨g, rfl, ⟨fun other => ?_, known⟩, reconfiguring, rfl⟩
      rw [inv.configured, firstSize_append]
      by_cases same : other = address
      · rw [same, ← inv.configured, present, some_or]
      · simp [firstSize, Ne.symm same]
  | none =>
      refine ⟨_, rfl, ⟨fun other => ?_, known⟩, reconfiguring, rfl⟩
      rw [firstSize_append]
      by_cases same : other = address
      · rw [same, find_insert_self, ← inv.configured, present, none_or]
        simp [firstSize]
      · rw [find_insert_ne same, inv.configured]
        simp [firstSize, Ne.symm same]

theorem addAll_spec (inv : g.Inv adds) (reconfiguring : g.reconfiguring = true)
    (more : List (α × ℕ)) :
    ∃ g', g.addAll more = some g' ∧ g'.Inv (adds ++ more) ∧ g'.reconfiguring = true ∧
      g'.storage = g.storage := by
  induction more generalizing g adds with
  | nil => exact ⟨g, rfl, by rwa [List.append_nil], reconfiguring, rfl⟩
  | cons add more ih =>
      obtain ⟨middle, first, inv', reconfiguring', storage⟩ :=
        addLocalStorage_spec inv reconfiguring add.1 add.2
      obtain ⟨g', rest, inv'', reconfiguring'', storage'⟩ := ih inv' reconfiguring'
      rw [List.append_assoc] at inv''
      refine ⟨g', ?_, inv'', reconfiguring'', storage'.trans storage⟩
      simp only [addAll, first, bind_eq_bind, bind_some, rest]

theorem changeOld_spec {configureStorage : Table α ℕ} {rows : List (α × LocalContextStorage κ)}
    (distinct : (rows.map Prod.fst).Nodup)
    (known : ∀ row ∈ rows, (configureStorage.find row.1).isSome)
    {storage : Table α (LocalContextStorage κ)}
    (present : ∀ row ∈ rows, storage.find row.1 = some row.2) :
    ∃ storage', changeOld configureStorage rows storage = some storage' ∧
      (∀ row ∈ rows, storage'.find row.1 =
        (configureStorage.find row.1).map fun size => row.2.SetSize size) ∧
      ∀ address, (∀ row ∈ rows, row.1 ≠ address) → storage'.find address = storage.find address := by
  induction rows generalizing storage with
  | nil => exact ⟨storage, rfl, by simp, fun _ _ => rfl⟩
  | cons row rows ih =>
      obtain ⟨size, configured⟩ := isSome_iff_exists.mp (known row (by simp))
      rw [List.map_cons, List.nodup_cons] at distinct
      have others : ∀ other ∈ rows, other.1 ≠ row.1 := by
        intro other member same
        exact distinct.1 (same ▸ List.mem_map_of_mem member)
      obtain ⟨storage', changed, sized, kept⟩ :=
        @ih distinct.2 (fun other member => known other (List.mem_cons_of_mem _ member))
          (storage.set row.1 (row.2.SetSize size)) fun other member => by
            rw [find_set_ne (others other member)]
            exact present other (List.mem_cons_of_mem _ member)
      refine ⟨storage', by rw [changeOld, configured]; exact changed, ?_, ?_⟩
      · refine List.forall_mem_cons.mpr ⟨?_, sized⟩
        rw [kept row.1 others, find_set_self (present row (by simp)), configured]
        rfl
      · intro address absent
        obtain ⟨first, rest⟩ := List.forall_mem_cons.mp absent
        rw [kept address rest, find_set_ne (Ne.symm first)]

theorem addNew_spec (rows : List (α × ℕ)) (storage : Table α (LocalContextStorage κ))
    (address : α) : (addNew rows storage).find address =
      (storage.find address).or ((firstSize rows address).map .new) := by
  induction rows generalizing storage with
  | nil => simp [addNew, firstSize]
  | cons row rows ih =>
      obtain ⟨name, size⟩ := row
      rw [addNew]
      by_cases same : name = address
      · subst same
        cases found : storage.find name with
        | none =>
            rw [if_pos isNone_none, ih, find_insert_self]
            simp [firstSize]
        | some old =>
            rw [if_neg (by simp), ih, found]
            rfl
      · have skip : firstSize ((name, size) :: rows) address = firstSize rows address := by
          simp [firstSize, same]
        rw [skip]
        split
        · rw [ih, find_insert_ne (Ne.symm same)]
        · exact ih storage

/-- After `reconfigureFinish` there is a storage for every address that was ever added. -/
theorem reconfigureFinish_spec (inv : g.Inv adds) (reconfiguring : g.reconfiguring = true) :
    ∃ finished, g.reconfigureFinish = some finished ∧ finished.reconfiguring = false ∧
      finished.configureStorage = g.configureStorage ∧
      ∀ address, finished.storage.find address = (firstSize adds address).map fun size =>
        ((g.storage.find address).map fun old => old.SetSize size).getD (.new size) := by
  have known : ∀ row ∈ g.storage.rows, (g.configureStorage.find row.1).isSome := by
    intro row member
    rw [inv.configured]
    exact inv.known row.1 row.2 (mem_rows_iff.mp member)
  obtain ⟨storage', changed, sized, kept⟩ := changeOld_spec g.storage.nodup known
    fun row member => mem_rows_iff.mp member
  refine ⟨⟨false, g.configureStorage, addNew g.configureStorage.rows storage'⟩, ?_, rfl, rfl, ?_⟩
  · rw [reconfigureFinish, if_pos reconfiguring, changed]
    rfl
  · intro address
    have size : firstSize g.configureStorage.rows address = firstSize adds address :=
      inv.configured address
    dsimp only
    rw [addNew_spec, size]
    cases old : g.storage.find address with
    | none =>
        rw [kept address (Table.find_eq_none_iff.mp old), old]
        rfl
    | some local_storage =>
        obtain ⟨n, given⟩ := isSome_iff_exists.mp (inv.known address local_storage old)
        have changed' := sized (address, local_storage) (mem_rows_iff.mpr old)
        rw [inv.configured, given] at changed'
        rw [given, changed']
        rfl

variable {g' : GlobalContextStorage α κ}

/-- `getLocalStorage` finds what `reconfigureFinish` leaves, and keeps the addresses. -/
theorem getLocalStorage_spec {finished : GlobalContextStorage α κ} {address : α}
    {calls : List (LocalContextStorage.Call κ)} (finish : g.reconfigureFinish = some finished)
    (done : finished.reconfiguring = false) (got : g.getLocalStorage address calls = some g') :
    g'.reconfiguring = false ∧ g'.configureStorage = finished.configureStorage ∧
      ∀ other, (g'.storage.find other).isSome ↔ (finished.storage.find other).isSome := by
  simp only [getLocalStorage, finish, bind_eq_bind, bind_some] at got
  obtain ⟨old, found, got⟩ := bind_eq_some_iff.mp got
  obtain ⟨⟨new, history⟩, -, got⟩ := bind_eq_some_iff.mp got
  cases got
  refine ⟨done, rfl, fun other => ?_⟩
  by_cases same : other = address
  · subst same
    rw [find_set_self found, found]
    rfl
  · rw [find_set_ne same]

theorem getLocalStorage_isSome_iff (done : g.reconfiguring = false) (address : α) :
    (g.getLocalStorage address []).isSome ↔ (g.storage.find address).isSome := by
  simp only [getLocalStorage, reconfigureFinish, done, Bool.false_eq_true, if_false,
    bind_eq_bind, bind_some]
  cases g.storage.find address <;> simp [LocalContextStorage.run]

variable {gets : List (α × List (LocalContextStorage.Call κ))}

/-- Using the storages keeps the addresses. -/
theorem getAll_spec (done : g.reconfiguring = false) (got : g.getAll gets = some g') :
    g'.reconfiguring = false ∧ g'.configureStorage = g.configureStorage ∧
      ∀ other, (g'.storage.find other).isSome ↔ (g.storage.find other).isSome := by
  induction gets generalizing g with
  | nil =>
      cases got
      exact ⟨done, rfl, fun _ => Iff.rfl⟩
  | cons get gets ih =>
      simp only [getAll, bind_eq_bind, bind_eq_some_iff] at got
      obtain ⟨middle, first, rest⟩ := got
      have finish : g.reconfigureFinish = some g := if_neg (by simp [done])
      obtain ⟨done', configured, names⟩ := getLocalStorage_spec finish done first
      obtain ⟨done'', configured', names'⟩ := ih done' rest
      exact ⟨done'', configured'.trans configured, fun other => (names' other).trans (names other)⟩

/-- The storages after a reconfiguration are used. -/
theorem getAll_inv (inv : g.Inv adds) (reconfiguring : g.reconfiguring = true)
    (got : g.getAll gets = some g') : g'.Inv adds := by
  cases gets with
  | nil =>
      cases got
      exact inv
  | cons get gets =>
      simp only [getAll, bind_eq_bind, bind_eq_some_iff] at got
      obtain ⟨middle, first, rest⟩ := got
      obtain ⟨finished, finish, done, configured, storages⟩ :=
        reconfigureFinish_spec inv reconfiguring
      obtain ⟨done', configured', names⟩ := getLocalStorage_spec finish done first
      obtain ⟨-, configured'', names'⟩ := getAll_spec done' rest
      refine ⟨fun address => ?_, fun address local_storage found => ?_⟩
      · rw [configured'', configured', configured]
        exact inv.configured address
      · have known := (names address).mp ((names' address).mp (by rw [found]; rfl))
        rw [storages, isSome_map] at known
        exact known

/-- After a history, the maps hold all addresses that were added in it. -/
theorem run_inv {rounds : List (Reconfiguration α κ)} (inv : g.Inv adds)
    (ran : g.run rounds = some g') : g'.Inv (adds ++ rounds.flatMap (·.adds)) := by
  induction rounds generalizing g adds with
  | nil =>
      cases ran
      simpa using inv
  | cons r rounds ih =>
      simp only [run, bind_eq_bind, bind_eq_some_iff] at ran
      obtain ⟨added, add, used, get, rest⟩ := ran
      have started : g.reconfigureStart.Inv adds := ⟨inv.configured, inv.known⟩
      obtain ⟨added', add', inv', reconfiguring, -⟩ := addAll_spec started rfl r.adds
      cases add.symm.trans add'
      have last := ih (getAll_inv inv' reconfiguring get) rest
      rwa [List.append_assoc, ← List.flatMap_cons] at last

/-- A reconfiguration gives what was configured exactly if it repeats all that was. -/
theorem givesConfigured_iff {earlier : List (Reconfiguration α κ)}
    (inv : g.Inv (earlier.flatMap (·.adds))) (r : Reconfiguration α κ) :
    (∃ added finished, g.reconfigureStart.addAll r.adds = some added ∧
      added.reconfigureFinish = some finished ∧ GivesConfigured g r finished) ↔
      RepeatsAll earlier r := by
  have started : g.reconfigureStart.Inv (earlier.flatMap (·.adds)) := ⟨inv.configured, inv.known⟩
  obtain ⟨added, add, inv', reconfiguring, storage⟩ := addAll_spec started rfl r.adds
  obtain ⟨finished, finish, done, configured, storages⟩ := reconfigureFinish_spec inv' reconfiguring
  have same_storage : added.storage = g.storage := storage
  rw [same_storage] at storages
  have sizes : ∀ address, (finished.storage.find address).map (·.max_memory) =
      firstSize (earlier.flatMap (·.adds) ++ r.adds) address := by
    intro address
    rw [storages]
    cases firstSize (earlier.flatMap (·.adds) ++ r.adds) address with
    | none => rfl
    | some size => cases g.storage.find address <;> rfl
  constructor
  · rintro ⟨added', finished', add', finish', gives⟩ address size first
    cases add.symm.trans add'
    cases finish.symm.trans finish'
    rw [← firstSize_eq_some_iff r.distinct, ← gives.sizes, sizes, first]
  · intro repeats
    have same : ∀ address, firstSize (earlier.flatMap (·.adds) ++ r.adds) address =
        firstSize r.adds address := by
      intro address
      cases first : firstSize (earlier.flatMap (·.adds) ++ r.adds) address with
      | none =>
          rw [firstSize_append, or_eq_none_iff] at first
          exact first.2.symm
      | some size => exact ((firstSize_eq_some_iff r.distinct).mpr (repeats address size first)).symm
    refine ⟨added, finished, add, finish, ?_, ?_, ?_⟩
    · intro address
      rw [sizes, same]
    · intro address old size found member
      rw [storages, same, (firstSize_eq_some_iff r.distinct).mpr member, found]
      rfl
    · intro gets used got address
      obtain ⟨done', -, names⟩ := getAll_spec done got
      rw [getLocalStorage_isSome_iff done', names, storages, isSome_map, same, firstSize_isSome_iff]

end Reconfiguring

/-- In a history, every reconfiguration gives the addresses the storages that they were configured with
exactly if every one repeats what was configured before. -/
theorem configured_iff (rounds : List (Reconfiguration α κ)) :
    (∀ earlier r later, rounds = earlier ++ r :: later →
      ∀ g, (new : GlobalContextStorage α κ).run earlier = some g →
      ∃ added finished, g.reconfigureStart.addAll r.adds = some added ∧
        added.reconfigureFinish = some finished ∧ GivesConfigured g r finished) ↔
    ∀ earlier r later, rounds = earlier ++ r :: later →
      ((new : GlobalContextStorage α κ).run earlier).isSome → RepeatsAll earlier r := by
  refine forall_congr' fun earlier => forall_congr' fun r => forall_congr' fun later =>
    forall_congr' fun split => ?_
  constructor
  · intro gives alive
    obtain ⟨g, ran⟩ := isSome_iff_exists.mp alive
    exact (givesConfigured_iff (run_inv inv_new ran) r).mp (gives g ran)
  · intro repeats g ran
    exact (givesConfigured_iff (run_inv inv_new ran) r).mpr (repeats (by rw [ran]; rfl))

/-- The second reconfiguration asks for another size, which the storage does not get. -/
theorem not_configured :
    ¬ ∀ (rounds : List (Reconfiguration ℕ ℕ)) earlier r later, rounds = earlier ++ r :: later →
      ∀ g, (new : GlobalContextStorage ℕ ℕ).run earlier = some g →
      ∃ added finished, g.reconfigureStart.addAll r.adds = some added ∧
        added.reconfigureFinish = some finished ∧ GivesConfigured g r finished := by
  intro gives
  have ran : ∃ g, (new : GlobalContextStorage ℕ ℕ).run [⟨[(1, 4096)], by decide, [(1, [])]⟩] =
      some g ∧ (g.reconfigureStart.addAll [(1, 8192)]).map
        (fun added => added.reconfigureFinish.map
          fun finished => (finished.storage.find 1).map (·.max_memory)) =
      some (some (some 4096)) := by
    refine ⟨_, rfl, by decide⟩
  obtain ⟨g, ran, sizes⟩ := ran
  obtain ⟨added, finished, add, finish, configured⟩ :=
    gives _ _ ⟨[(1, 8192)], by decide, []⟩ [] rfl g ran
  rw [add, map_some, finish, map_some, configured.sizes] at sizes
  revert sizes
  decide

end GlobalContextStorage

end Squid.Ssl
