import Squid.Library.CRuntime
import Squid.Library.Recency
import Squid.Library.Table

/-!
# The cache of TLS contexts of a port

`LocalContextStorage` of `src/ssl/context_storage.cc`.  Iterators of `lru_queue` are numbers, and its
rows stand in the order of the queue.  Using an iterator that is not valid any more stops the
program, and so does a loop that purges nothing.  The contexts need not share the memory of the
machine: sizes are unbounded.
-/

namespace Squid.Ssl

open CRuntime List Option Table

/-- `LocalContextStorage::Item`. -/
structure Item (κ : Type) where
  ssl_ctx : κ
  host_name : Bytes

/-- `LocalContextStorage`, with the iterator of the next new item. -/
structure LocalContextStorage (κ : Type) where
  max_memory : ℕ
  memory_used : ℕ
  storage : Table Bytes ℕ
  lru_queue : Table ℕ (Item κ)
  next : ℕ

def SSL_CTX_SIZE : ℕ := 1024

namespace LocalContextStorage

variable {κ : Type}

/-- The constructor. -/
def new (aMax_memory : ℕ) : LocalContextStorage κ := ⟨aMax_memory, 0, .empty, .empty, 0⟩

/-- `std::map::insert`: a key that is there keeps its value. -/
def mapInsert (map : Table Bytes ℕ) (host_name : Bytes) (i : ℕ) : Table Bytes ℕ :=
  if (map.find host_name).isSome then map else map.insert host_name i

/-- `remove`, with `deleteAt`. -/
def remove (s : LocalContextStorage κ) (host_name : Bytes) : Option (LocalContextStorage κ) :=
  match s.storage.find host_name with
  | none => some s
  | some i => do
      let _item ← s.lru_queue.find i
      some { s with
        lru_queue := s.lru_queue.erase i
        storage := s.storage.erase host_name
        memory_used := s.memory_used - SSL_CTX_SIZE }

/-- `purgeOne`, with the name that it removes. -/
def purgeOne (s : LocalContextStorage κ) : Option (LocalContextStorage κ × Bytes) := do
  let (_, item) ← s.lru_queue.rows.getLast?
  some (← s.remove item.host_name, item.host_name)

/-- The loop of `add`, with the names that it purges. -/
def purge : ℕ → LocalContextStorage κ → Option (LocalContextStorage κ × List Bytes)
  | fuel, s =>
      if s.max_memory < SSL_CTX_SIZE + s.memory_used then
        match fuel with
        | 0 => none
        | fuel + 1 => do
            let (s, host_name) ← s.purgeOne
            let (s, host_names) ← purge fuel s
            some (s, host_name :: host_names)
      else some (s, [])

/-- `add`: what it returns, and the names that it purges. -/
def add (s : LocalContextStorage κ) (host_name : Bytes) (ssl_ctx : κ) :
    Option (LocalContextStorage κ × Option κ × List Bytes) :=
  if s.max_memory < SSL_CTX_SIZE then some (s, none, [])
  else do
    let s ← s.remove host_name
    let (s, evicted) ← s.purge s.lru_queue.rows.length
    some ({ s with
      lru_queue := s.lru_queue.insert s.next ⟨ssl_ctx, host_name⟩
      storage := mapInsert s.storage host_name s.next
      memory_used := s.memory_used + SSL_CTX_SIZE
      next := s.next + 1 }, some ssl_ctx, evicted)

def find (s : LocalContextStorage κ) (host_name : Bytes) :
    Option (LocalContextStorage κ × Option κ) :=
  match s.storage.find host_name with
  | none => some (s, none)
  | some i => do
      let item ← s.lru_queue.find i
      some ({ s with
        lru_queue := (s.lru_queue.insert s.next item).erase i
        storage := s.storage.set host_name s.next
        next := s.next + 1 }, some item.ssl_ctx)

def SetSize (s : LocalContextStorage κ) (aMax_memory : ℕ) : LocalContextStorage κ :=
  { s with max_memory := aMax_memory }

/-! ## Calls -/

/-- A call. -/
inductive Call (κ : Type) where
  | add (host_name : Bytes) (ssl_ctx : κ)
  | find (host_name : Bytes)
  | remove (host_name : Bytes)
  | SetSize (aMax_memory : ℕ)

/-- A call that was made, with what it returned and the names that it purged. -/
structure Event (κ : Type) where
  call : Call κ
  result : Option κ
  evicted : List Bytes

/-- Make a call. -/
def call (s : LocalContextStorage κ) : Call κ → Option (LocalContextStorage κ × Event κ)
  | .add host_name ssl_ctx => do
      let (s, result, evicted) ← s.add host_name ssl_ctx
      some (s, ⟨.add host_name ssl_ctx, result, evicted⟩)
  | .find host_name => do
      let (s, result) ← s.find host_name
      some (s, ⟨.find host_name, result, []⟩)
  | .remove host_name => do
      some (← s.remove host_name, ⟨.remove host_name, none, []⟩)
  | .SetSize aMax_memory => some (s.SetSize aMax_memory, ⟨.SetSize aMax_memory, none, []⟩)

/-- Make calls; the history has the latest one first. -/
def run (s : LocalContextStorage κ) (history : List (Event κ)) :
    List (Call κ) → Option (LocalContextStorage κ × List (Event κ))
  | [] => some (s, history)
  | label :: calls => do
      let (s, event) ← s.call label
      run s (event :: history) calls

/-! ## What a history says -/

/-- The context that was added last for a name, if it was neither removed nor purged since. -/
def content (host_name : Bytes) : List (Event κ) → Option κ
  | [] => none
  | event :: history =>
      match event.call with
      | .add name ssl_ctx =>
          if event.result.isNone then content host_name history
          else if name = host_name then some ssl_ctx
          else if host_name ∈ event.evicted then none
          else content host_name history
      | .remove name => if name = host_name then none else content host_name history
      | .find _ | .SetSize _ => content host_name history

/-- The size that calls leave: what the last `SetSize` sets. -/
def lastSize (max_memory : ℕ) (calls : List (Call κ)) : ℕ :=
  calls.foldl (fun size call =>
    match call with
    | .SetSize aMax_memory => aMax_memory
    | _ => size) max_memory

/-- The name that an event adds or finds. -/
def used (event : Event κ) : Option Bytes :=
  match event.call, event.result with
  | .add host_name _, some _ | .find host_name, some _ => some host_name
  | _, _ => none

/-! ## Consistency -/

/-- `storage` and `lru_queue` hold the same entries, and `memory_used` is their size. -/
structure Linked (s : LocalContextStorage κ) : Prop where
  fresh : ∀ i item, s.lru_queue.find i = some item → i < s.next
  own : ∀ host_name i, s.storage.find host_name = some i →
    ∃ item, s.lru_queue.find i = some item ∧ item.host_name = host_name
  back : ∀ i item, s.lru_queue.find i = some item → s.storage.find item.host_name = some i
  same : s.storage.rows.length = s.lru_queue.rows.length
  memory : s.memory_used = SSL_CTX_SIZE * s.lru_queue.rows.length

/-- The entries in the order of the queue. -/
def entries (s : LocalContextStorage κ) : List (Bytes × κ) :=
  s.lru_queue.rows.map fun row => (row.2.host_name, row.2.ssl_ctx)

/-- The names in the order of the queue. -/
def names (s : LocalContextStorage κ) : List Bytes := s.entries.map Prod.fst

/-- The entries of other names. -/
def others (host_name : Bytes) (entries : List (Bytes × κ)) : List (Bytes × κ) :=
  entries.filter fun entry => entry.1 ≠ host_name

variable {host_name : Bytes}

theorem others_of_absent {entries : List (Bytes × κ)}
    (absent : ∀ entry ∈ entries, entry.1 ≠ host_name) : others host_name entries = entries :=
  filter_eq_self.mpr fun entry member => by simpa using absent entry member

theorem others_of_split {ssl_ctx : κ} {front back : List (Bytes × κ)}
    (before : ∀ entry ∈ front, entry.1 ≠ host_name) (after : ∀ entry ∈ back, entry.1 ≠ host_name) :
    others host_name (front ++ (host_name, ssl_ctx) :: back) = front ++ back := by
  have front_kept := others_of_absent before
  have back_kept := others_of_absent after
  rw [others] at front_kept back_kept
  rw [others, filter_append, filter_cons_of_neg (by simp), front_kept, back_kept]

theorem rows_length_erase {ι ν : Type*} [DecidableEq ι] {table : Table ι ν} {name : ι} {value : ν}
    (found : table.find name = some value) :
    table.rows.length = (table.erase name).rows.length + 1 := by
  obtain ⟨front, back, rows, before, after⟩ := split_of_find found
  rw [erase_eq rows before after, rows, length_append, length_append, length_cons, Nat.add_assoc]

section Linked

variable {s : LocalContextStorage κ} {host_name : Bytes}

theorem linked_new (aMax_memory : ℕ) : (new aMax_memory : LocalContextStorage κ).Linked where
  fresh i item found := by simp [new, Table.find, Table.empty] at found
  own host_name i found := by simp [new, Table.find, Table.empty] at found
  back i item found := by simp [new, Table.find, Table.empty] at found
  same := rfl
  memory := rfl

variable {i : ℕ}

theorem Linked.name_ne (linked : s.Linked) {j : ℕ} {item : Item κ}
    (found : s.storage.find host_name = some i) (located : s.lru_queue.find j = some item)
    (ne : j ≠ i) : item.host_name ≠ host_name := by
  intro same
  have named := linked.back j item located
  rw [same, found] at named
  exact ne (some.inj named).symm

/-- The entry of a name stands in one place of the queue. -/
theorem Linked.split (linked : s.Linked) (found : s.storage.find host_name = some i) :
    ∃ item front back, s.lru_queue.find i = some item ∧ item.host_name = host_name ∧
      s.lru_queue.rows = front ++ (i, item) :: back ∧ (s.lru_queue.erase i).rows = front ++ back ∧
      (∀ row ∈ front, row.2.host_name ≠ host_name) ∧ ∀ row ∈ back, row.2.host_name ≠ host_name := by
  obtain ⟨item, located, rfl⟩ := linked.own host_name i found
  obtain ⟨front, back, rows, before, after⟩ := split_of_find located
  have other : ∀ row ∈ s.lru_queue.rows, row.1 ≠ i → row.2.host_name ≠ item.host_name :=
    fun row member => linked.name_ne found (mem_rows_iff.mp member)
  refine ⟨item, front, back, located, rfl, rows, erase_eq rows before after, ?_, ?_⟩
  · exact fun row member => other row (by rw [rows]; simp [member]) (before row member)
  · exact fun row member => other row (by rw [rows]; simp [member]) (after row member)

theorem Linked.absent (linked : s.Linked) (absent : s.storage.find host_name = none) :
    ∀ entry ∈ s.entries, entry.1 ≠ host_name := by
  intro entry member same
  obtain ⟨row, in_rows, rfl⟩ := List.mem_map.mp member
  have named := linked.back row.1 row.2 (mem_rows_iff.mp in_rows)
  rw [show row.2.host_name = host_name from same, absent] at named
  cases named

/-- Removing a name leaves the entries of the others. -/
theorem remove_spec (linked : s.Linked) (host_name : Bytes) :
    ∃ s', s.remove host_name = some s' ∧ s'.Linked ∧ s'.entries = others host_name s.entries ∧
      s'.max_memory = s.max_memory ∧ s'.storage.find host_name = none := by
  cases found : s.storage.find host_name with
  | none =>
      exact ⟨s, by rw [remove, found], linked, (others_of_absent (linked.absent found)).symm, rfl,
        found⟩
  | some i =>
      obtain ⟨item, front, back, located, named, rows, erased, before, after⟩ := linked.split found
      have shorter := rows_length_erase located
      refine ⟨{ s with
          lru_queue := s.lru_queue.erase i
          storage := s.storage.erase host_name
          memory_used := s.memory_used - SSL_CTX_SIZE }, ?_, ?_, ?_, rfl, find_erase_self⟩
      · rw [remove, found]
        simp only [located, bind_eq_bind, bind_some]
      · constructor
        case fresh =>
          intro j other found'
          by_cases same : j = i
          · rw [same, find_erase_self] at found'
            cases found'
          · rw [find_erase_ne same] at found'
            exact linked.fresh j other found'
        case own =>
          intro name j found'
          by_cases same : name = host_name
          · rw [same, find_erase_self] at found'
            cases found'
          · rw [find_erase_ne same] at found'
            obtain ⟨other, located', named'⟩ := linked.own name j found'
            have ne : j ≠ i := by
              rintro rfl
              rw [located] at located'
              cases located'
              exact same (named'.symm.trans named)
            exact ⟨other, by rw [find_erase_ne ne, located'], named'⟩
        case back =>
          intro j other found'
          have ne : j ≠ i := by
            rintro rfl
            rw [find_erase_self] at found'
            cases found'
          rw [find_erase_ne ne] at found'
          rw [find_erase_ne (linked.name_ne found found' ne), linked.back j other found']
        case same =>
          have shorter' := rows_length_erase found
          have same := linked.same
          dsimp only
          omega
        case memory =>
          have memory := linked.memory
          dsimp only
          rw [shorter, Nat.mul_add] at memory
          omega
      · rw [entries, entries, erased, rows, List.map_append, List.map_append, List.map_cons, named,
          others_of_split (List.forall_mem_map.mpr before) (List.forall_mem_map.mpr after)]

theorem entries_length : s.entries.length = s.lru_queue.rows.length := List.length_map ..

/-- No name has two entries. -/
theorem Linked.names_nodup (linked : s.Linked) : s.names.Nodup := by
  have ids := s.lru_queue.nodup
  rw [names, entries, List.map_map]
  refine List.Nodup.map_on ?_ ids.of_map
  intro row member other member' same
  have named := linked.back row.1 row.2 (mem_rows_iff.mp member)
  have named' := linked.back other.1 other.2 (mem_rows_iff.mp member')
  have same_name : row.2.host_name = other.2.host_name := same
  rw [same_name, named'] at named
  exact (List.inj_on_of_nodup_map ids) member member' (some.inj named).symm

/-- The last entry of the queue is purged. -/
theorem purgeOne_spec (linked : s.Linked) {front : List (Bytes × κ)} {ssl_ctx : κ}
    (split : s.entries = front ++ [(host_name, ssl_ctx)]) :
    ∃ s', s.purgeOne = some (s', host_name) ∧ s'.Linked ∧ s'.entries = front ∧
      s'.max_memory = s.max_memory := by
  have last : s.lru_queue.rows.getLast?.map (fun row => (row.2.host_name, row.2.ssl_ctx)) =
      some (host_name, ssl_ctx) := by
    rw [← List.getLast?_map, ← entries, split, List.getLast?_append_cons, List.getLast?_singleton]
  obtain ⟨row, at_last, same⟩ := map_eq_some_iff.mp last
  obtain ⟨rfl, rfl⟩ := Prod.mk.inj same
  obtain ⟨s', removed, linked', entries', max_memory, -⟩ := remove_spec linked row.2.host_name
  refine ⟨s', ?_, linked', ?_, max_memory⟩
  · simp only [purgeOne, at_last, bind_eq_bind, bind_some, removed]
  · have nodup := linked.names_nodup
    rw [names, split, List.map_append, nodup_append] at nodup
    have absent : ∀ entry ∈ front, entry.1 ≠ row.2.host_name := by
      intro entry member
      exact nodup.2.2 entry.1 (List.mem_map_of_mem member) _ (by simp)
    rw [entries', split, others_of_split absent (by simp), List.append_nil]

theorem Linked.find_eq_none_iff (linked : s.Linked) :
    s.storage.find host_name = none ↔ host_name ∉ s.names := by
  constructor
  · intro absent member
    obtain ⟨entry, in_entries, same⟩ := List.mem_map.mp member
    exact linked.absent absent entry in_entries same
  · intro absent
    refine eq_none_iff_forall_ne_some.mpr fun i found => absent ?_
    obtain ⟨item, front, back, -, named, rows, -⟩ := linked.split found
    rw [names, entries, rows]
    simp [named]

/-- The loop of `add` purges as many entries from the end of the queue as it takes to make room. -/
theorem purge_spec (linked : s.Linked) (room : SSL_CTX_SIZE ≤ s.max_memory) {fuel : ℕ}
    (enough : s.entries.length ≤ fuel) :
    ∃ s', s.purge fuel = some (s', ((s.entries.drop (s.max_memory / SSL_CTX_SIZE - 1)).map
        Prod.fst).reverse) ∧ s'.Linked ∧
      s'.entries = s.entries.take (s.max_memory / SSL_CTX_SIZE - 1) ∧
      s'.max_memory = s.max_memory := by
  induction fuel generalizing s with
  | zero =>
      have empty : s.entries = [] := eq_nil_of_length_eq_zero (by omega)
      have memory := linked.memory
      rw [← entries_length, empty] at memory
      refine ⟨s, ?_, linked, by rw [empty, take_nil], rfl⟩
      rw [purge, if_neg (by rw [memory, length_nil]; omega), empty, drop_nil]
      rfl
  | succ fuel ih =>
      have memory := linked.memory
      rw [← entries_length] at memory
      have full_iff : s.max_memory < SSL_CTX_SIZE + s.memory_used ↔
          s.max_memory / SSL_CTX_SIZE - 1 < s.entries.length := by
        rw [memory]
        simp only [SSL_CTX_SIZE] at room ⊢
        omega
      by_cases full : s.max_memory < SSL_CTX_SIZE + s.memory_used
      · have more := full_iff.mp full
        obtain empty | ⟨front, ⟨host_name, ssl_ctx⟩, split⟩ := eq_nil_or_concat s.entries
        · rw [empty] at more
          cases more
        · rw [concat_eq_append] at split
          rw [split, length_append, length_singleton] at more enough
          obtain ⟨middle, purged, linked', entries', max_memory⟩ := purgeOne_spec linked split
          obtain ⟨s', rest, linked'', entries'', max_memory'⟩ :=
            @ih middle linked' (by rwa [max_memory]) (by rw [entries']; omega)
          rw [max_memory, entries'] at rest entries''
          refine ⟨s', ?_, linked'', ?_, max_memory'.trans max_memory⟩
          · rw [purge, if_pos full]
            simp only [purged, rest, bind_eq_bind, bind_some, split,
              drop_append_of_le_length (Nat.le_of_lt_succ more), List.map_append, List.map_cons,
              List.map_nil, reverse_append, reverse_singleton, singleton_append]
          · rw [entries'', split, take_append_of_le_length (Nat.le_of_lt_succ more)]
      · have fits := full_iff.not.mp full
        refine ⟨s, ?_, linked, by rw [take_of_length_le (by omega)], rfl⟩
        rw [purge, if_neg full, drop_eq_nil_of_le (by omega)]
        rfl

theorem rows_insert {ι ν : Type*} [DecidableEq ι] {table : Table ι ν} {name : ι} {value : ν}
    (absent : table.find name = none) :
    (table.insert name value).rows = (name, value) :: table.rows := by
  refine congrArg (List.cons (name, value)) (filter_eq_self.mpr fun row member => ?_)
  simpa using Table.find_eq_none_iff.mp absent row member

theorem Linked.next_absent (linked : s.Linked) : s.lru_queue.find s.next = none := by
  cases found : s.lru_queue.find s.next with
  | none => rfl
  | some item => exact absurd (linked.fresh _ _ found) (lt_irrefl _)

/-- A new entry is linked. -/
theorem Linked.pushed (linked : s.Linked) (absent : s.storage.find host_name = none) (item : Item κ)
    (named : item.host_name = host_name) :
    Linked { s with
      lru_queue := s.lru_queue.insert s.next item
      storage := s.storage.insert host_name s.next
      memory_used := s.memory_used + SSL_CTX_SIZE
      next := s.next + 1 } where
  fresh j other found := by
    by_cases same : j = s.next
    · rw [same]
      exact Nat.lt_succ_self _
    · rw [find_insert_ne same] at found
      exact (linked.fresh j other found).trans (Nat.lt_succ_self _)
  own name j found := by
    by_cases same : name = host_name
    · rw [same, find_insert_self] at found
      cases found
      exact ⟨item, find_insert_self, named.trans same.symm⟩
    · rw [find_insert_ne same] at found
      obtain ⟨other, located, named'⟩ := linked.own name j found
      exact ⟨other, by rw [find_insert_ne (linked.fresh j other located).ne, located], named'⟩
  back j other found := by
    by_cases same : j = s.next
    · rw [same, find_insert_self] at found
      cases found
      rw [named, find_insert_self, same]
    · rw [find_insert_ne same] at found
      have named' := linked.back j other found
      have ne : other.host_name ≠ host_name := by
        rintro clash
        rw [clash, absent] at named'
        cases named'
      rw [find_insert_ne ne, named']
  same := by
    have same := linked.same
    rw [rows_insert absent, rows_insert linked.next_absent]
    simpa using same
  memory := by
    rw [rows_insert linked.next_absent, length_cons, Nat.mul_add, ← linked.memory, Nat.mul_one]

/-- A successful `add` keeps the entries used last, as far as there is room beside the new one. -/
theorem add_spec (linked : s.Linked) (room : SSL_CTX_SIZE ≤ s.max_memory) (host_name : Bytes)
    (ssl_ctx : κ) :
    ∃ s', s.add host_name ssl_ctx = some (s', some ssl_ctx,
        (((others host_name s.entries).drop (s.max_memory / SSL_CTX_SIZE - 1)).map
          Prod.fst).reverse) ∧ s'.Linked ∧
      s'.entries = (host_name, ssl_ctx) ::
        (others host_name s.entries).take (s.max_memory / SSL_CTX_SIZE - 1) ∧
      s'.max_memory = s.max_memory := by
  obtain ⟨middle, removed, linked', entries', max_memory, -⟩ := remove_spec linked host_name
  obtain ⟨purged, purge, linked'', entries'', max_memory'⟩ :=
    @purge_spec κ middle linked' (by rwa [max_memory]) middle.lru_queue.rows.length
      entries_length.le
  rw [max_memory, entries'] at purge entries''
  have absent : purged.storage.find host_name = none := by
    refine linked''.find_eq_none_iff.mpr fun member => ?_
    rw [names, entries''] at member
    obtain ⟨entry, kept, same⟩ := List.mem_map.mp member
    simpa [same] using of_mem_filter (mem_of_mem_take kept)
  refine ⟨{ purged with
      lru_queue := purged.lru_queue.insert purged.next ⟨ssl_ctx, host_name⟩
      storage := purged.storage.insert host_name purged.next
      memory_used := purged.memory_used + SSL_CTX_SIZE
      next := purged.next + 1 }, ?_, ?_, ?_, max_memory'.trans max_memory⟩
  · rw [add, if_neg (by omega)]
    simp only [removed, purge, bind_eq_bind, bind_some, mapInsert, absent,
      isSome_none, Bool.false_eq_true, if_false]
  · exact linked''.pushed absent ⟨ssl_ctx, host_name⟩ rfl
  · rw [entries, rows_insert linked''.next_absent, List.map_cons, ← entries, entries'']

/-- A name that is found moves to the front of the queue. -/
theorem find_spec (linked : s.Linked) (host_name : Bytes) :
    s.storage.find host_name = none ∧ s.find host_name = some (s, none) ∨
    ∃ s' ssl_ctx, s.find host_name = some (s', some ssl_ctx) ∧ s'.Linked ∧
      (host_name, ssl_ctx) ∈ s.entries ∧
      s'.entries = (host_name, ssl_ctx) :: others host_name s.entries ∧
      s'.max_memory = s.max_memory := by
  cases found : s.storage.find host_name with
  | none => exact Or.inl ⟨rfl, by rw [find, found]⟩
  | some i =>
      right
      obtain ⟨item, front, back, located, named, rows, erased, before, after⟩ := linked.split found
      have old := linked.fresh i item located
      have moved : ((s.lru_queue.insert s.next item).erase i).rows =
          (s.next, item) :: (s.lru_queue.erase i).rows := by
        have erase_rows : ((s.lru_queue.insert s.next item).erase i).rows =
            (s.lru_queue.insert s.next item).rows.filter fun row => row.1 ≠ i := rfl
        rw [erase_rows, rows_insert linked.next_absent, filter_cons_of_pos (by simpa using old.ne')]
        rfl
      have entries_split : s.entries =
          front.map (fun row => (row.2.host_name, row.2.ssl_ctx)) ++ (host_name, item.ssl_ctx) ::
            back.map (fun row => (row.2.host_name, row.2.ssl_ctx)) := by
        rw [entries, rows, List.map_append, List.map_cons, named]
      refine ⟨{ s with
          lru_queue := (s.lru_queue.insert s.next item).erase i
          storage := s.storage.set host_name s.next
          next := s.next + 1 }, item.ssl_ctx, ?_, ?_, ?_, ?_, rfl⟩
      · rw [find, found]
        simp only [located, bind_eq_bind, bind_some]
      · have kept : ∀ j, j ≠ i → j ≠ s.next →
            ((s.lru_queue.insert s.next item).erase i).find j = s.lru_queue.find j :=
          fun j ne ne' => by rw [find_erase_ne ne, find_insert_ne ne']
        have at_next : ((s.lru_queue.insert s.next item).erase i).find s.next = some item := by
          rw [find_erase_ne old.ne', find_insert_self]
        constructor
        case fresh =>
          intro j other found'
          by_cases same : j = s.next
          · rw [same]
            exact Nat.lt_succ_self _
          · have ne : j ≠ i := by
              rintro rfl
              rw [find_erase_self] at found'
              cases found'
            rw [kept j ne same] at found'
            exact (linked.fresh j other found').trans (Nat.lt_succ_self _)
        case own =>
          intro name j found'
          by_cases same : name = host_name
          · rw [same, find_set_self found] at found'
            cases found'
            exact ⟨item, at_next, named.trans same.symm⟩
          · rw [find_set_ne same] at found'
            obtain ⟨other, located', named'⟩ := linked.own name j found'
            have ne : j ≠ i := by
              rintro rfl
              rw [located] at located'
              cases located'
              exact same (named'.symm.trans named)
            exact ⟨other, by rw [kept j ne (linked.fresh j other located').ne, located'], named'⟩
        case back =>
          intro j other found'
          by_cases same : j = s.next
          · rw [same, at_next] at found'
            cases found'
            rw [named, find_set_self found, same]
          · have ne : j ≠ i := by
              rintro rfl
              rw [find_erase_self] at found'
              cases found'
            rw [kept j ne same] at found'
            rw [find_set_ne (linked.name_ne found found' ne), linked.back j other found']
        case same =>
          have shorter := rows_length_erase located
          have same := linked.same
          dsimp only
          rw [moved, length_cons, ← shorter, Table.set]
          simpa using same
        case memory =>
          have shorter := rows_length_erase located
          dsimp only
          rw [moved, length_cons, ← shorter]
          exact linked.memory
      · rw [entries_split]
        simp
      · rw [entries, moved, erased, List.map_cons, named, entries_split,
          others_of_split (List.forall_mem_map.mpr before) (List.forall_mem_map.mpr after),
          List.map_append]

end Linked

/-! ## Runs -/

/-- What the history of the calls says about a storage. -/
structure Inv (s : LocalContextStorage κ) (history : List (Event κ)) : Prop where
  linked : s.Linked
  /-- The queue has the name first that was used last. -/
  ordered : Recency.Ordered used history s.names
  /-- The entries are what was added last, and not removed or purged since. -/
  remembered : ∀ host_name ssl_ctx,
    content host_name history = some ssl_ctx ↔ (host_name, ssl_ctx) ∈ s.entries

/-- The entries that an `add` purges are those used least recently, and no more than have to be. -/
structure Evicts (s s' : LocalContextStorage κ) (history : List (Event κ)) (host_name : Bytes)
    (evicted : List Bytes) : Prop where
  fits : s'.memory_used ≤ s'.max_memory
  split : ∀ name, name ∈ s.names → name ≠ host_name → name ∈ evicted ∨ name ∈ s'.names
  gone : ∀ name ∈ evicted, name ∈ s.names ∧ name ≠ host_name ∧ name ∉ s'.names
  oldest : ∀ old ∈ evicted, ∀ kept ∈ s'.names, kept ≠ host_name →
    Recency.age used kept history < Recency.age used old history
  full : evicted ≠ [] → s'.max_memory < s'.memory_used + SSL_CTX_SIZE

section Calls

variable {s : LocalContextStorage κ} {history : List (Event κ)} {host_name : Bytes}

theorem mem_others_iff {entries : List (Bytes × κ)} {entry : Bytes × κ} :
    entry ∈ others host_name entries ↔ entry ∈ entries ∧ entry.1 ≠ host_name := by
  simp [others]

theorem names_others_sublist :
    ((others host_name s.entries).map Prod.fst).Sublist s.names :=
  List.Sublist.map Prod.fst filter_sublist

theorem not_mem_names_others : host_name ∉ (others host_name s.entries).map Prod.fst := by
  intro member
  obtain ⟨entry, in_others, same⟩ := List.mem_map.mp member
  exact (mem_others_iff.mp in_others).2 same

/-- The other entries are either kept or purged. -/
theorem Linked.rest_apart (linked : s.Linked) (kept : ℕ) :
    ∀ old ∈ (others host_name s.entries).drop kept,
      ∀ new ∈ (others host_name s.entries).take kept, old.1 ≠ new.1 := by
  intro old purged new stays same
  have nodup := linked.names_nodup.sublist (@names_others_sublist κ s host_name)
  rw [← take_append_drop kept (others host_name s.entries), List.map_append, nodup_append] at nodup
  exact nodup.2.2 new.1 (List.mem_map_of_mem stays) old.1 (List.mem_map_of_mem purged) same.symm

theorem call_add (inv : s.Inv history) (ssl_ctx : κ) :
    ∃ s' event, s.call (.add host_name ssl_ctx) = some (s', event) ∧ s'.Inv (event :: history) ∧
      (event.result = none ∧ s.max_memory < SSL_CTX_SIZE ∧ s' = s ∨
        event.result = some ssl_ctx ∧ Evicts s s' history host_name event.evicted) := by
  by_cases room : SSL_CTX_SIZE ≤ s.max_memory
  · obtain ⟨s', added, linked, entries', max_memory⟩ :=
      add_spec inv.linked room host_name ssl_ctx
    have apart := @Linked.rest_apart κ s host_name inv.linked (s.max_memory / SSL_CTX_SIZE - 1)
    have parts := take_append_drop (s.max_memory / SSL_CTX_SIZE - 1)
      (others host_name s.entries)
    have ordered := inv.ordered.sublist (@names_others_sublist κ s host_name)
    have fresh := @not_mem_names_others κ s host_name
    have mem_parts : ∀ entry,
        entry ∈ (others host_name s.entries).take (s.max_memory / SSL_CTX_SIZE - 1) ∨
          entry ∈ (others host_name s.entries).drop (s.max_memory / SSL_CTX_SIZE - 1) ↔
        entry ∈ s.entries ∧ entry.1 ≠ host_name := fun entry => by
      rw [← mem_append, parts, mem_others_iff]
    rw [← parts, List.map_append] at ordered fresh
    have many : (others host_name s.entries).drop (s.max_memory / SSL_CTX_SIZE - 1) ≠ [] →
        ((others host_name s.entries).take (s.max_memory / SSL_CTX_SIZE - 1)).length =
          s.max_memory / SSL_CTX_SIZE - 1 := by
      intro some_purged
      have length := length_pos_iff.mpr some_purged
      rw [length_drop] at length
      rw [length_take]
      omega
    have few := length_take_le (s.max_memory / SSL_CTX_SIZE - 1) (others host_name s.entries)
    generalize (others host_name s.entries).take (s.max_memory / SSL_CTX_SIZE - 1) = kept at *
    generalize (others host_name s.entries).drop (s.max_memory / SSL_CTX_SIZE - 1) = purged at *
    have names' : s'.names = host_name :: kept.map Prod.fst := by
      rw [names, entries', List.map_cons]
    have memory := linked.memory
    rw [← entries_length, entries', length_cons] at memory
    refine ⟨s', ⟨.add host_name ssl_ctx, some ssl_ctx, (purged.map Prod.fst).reverse⟩, ?_,
      ⟨linked, ?_, ?_⟩, Or.inr ⟨rfl, ?_⟩⟩
    · simp only [call, added, bind_eq_bind, bind_some]
    · rw [names']
      exact (ordered.sublist (sublist_append_left _ _)).use rfl
        fun member => fresh (List.mem_append_left _ member)
    · intro name ssl_ctx'
      rw [entries', mem_cons, Prod.mk.injEq]
      simp only [content, isNone_some, Bool.false_eq_true, if_false, mem_reverse]
      by_cases same : host_name = name
      · have absent : (name, ssl_ctx') ∉ kept := fun stays =>
          ((mem_parts _).mp (Or.inl stays)).2 same.symm
        simp [same, absent, eq_comm]
      · rw [if_neg same]
        by_cases gone : name ∈ purged.map Prod.fst
        · obtain ⟨old, old_gone, named⟩ := List.mem_map.mp gone
          have absent : (name, ssl_ctx') ∉ kept := fun stays => apart old old_gone _ stays named
          simp [gone, absent, Ne.symm same]
        · rw [if_neg gone, inv.remembered]
          constructor
          · intro member
            obtain stays | old := (mem_parts _).mpr ⟨member, Ne.symm same⟩
            · exact Or.inr stays
            · exact absurd (List.mem_map_of_mem old) gone
          · rintro (⟨clash, -⟩ | stays)
            · exact absurd clash.symm same
            · exact ((mem_parts _).mp (Or.inl stays)).1
    · constructor
      case fits =>
        rw [memory, max_memory]
        simp only [SSL_CTX_SIZE] at *
        omega
      case split =>
        intro name member ne
        obtain ⟨entry, in_entries, rfl⟩ := List.mem_map.mp member
        obtain stays | gone := (mem_parts entry).mpr ⟨in_entries, ne⟩
        · right
          rw [names']
          exact List.mem_cons_of_mem _ (List.mem_map_of_mem stays)
        · left
          exact mem_reverse.mpr (List.mem_map_of_mem gone)
      case gone =>
        intro name member
        obtain ⟨entry, gone, rfl⟩ := List.mem_map.mp (mem_reverse.mp member)
        obtain ⟨in_entries, ne⟩ := (mem_parts entry).mp (Or.inr gone)
        refine ⟨List.mem_map_of_mem in_entries, ne, fun stays => ?_⟩
        rw [names', mem_cons] at stays
        obtain ⟨new, new_stays, same⟩ := List.mem_map.mp (stays.resolve_left ne)
        exact apart entry gone new new_stays same.symm
      case oldest =>
        intro old gone name stays ne
        rw [names', mem_cons] at stays
        exact ordered.lt_of_append (stays.resolve_left ne) (mem_reverse.mp gone)
      case full =>
        intro some_evicted
        have length := many fun empty => some_evicted (by rw [empty]; rfl)
        rw [memory, max_memory, length]
        simp only [SSL_CTX_SIZE] at *
        omega
  · refine ⟨s, ⟨.add host_name ssl_ctx, none, []⟩, ?_, ?_, Or.inl ⟨rfl, not_le.mp room, rfl⟩⟩
    · simp only [call, add, if_pos (not_le.mp room), bind_eq_bind, bind_some]
    · exact ⟨inv.linked, inv.ordered.skip fun name _ => nofun, inv.remembered⟩

theorem call_find (inv : s.Inv history) :
    ∃ s' event, s.call (.find host_name) = some (s', event) ∧ s'.Inv (event :: history) ∧
      event.result = content host_name history := by
  obtain ⟨absent, nothing⟩ | ⟨s', ssl_ctx, found, linked, member, entries', -⟩ :=
    find_spec inv.linked host_name
  · refine ⟨s, ⟨.find host_name, none, []⟩, ?_, ?_, ?_⟩
    · simp only [call, nothing, bind_eq_bind, bind_some]
    · exact ⟨inv.linked, inv.ordered.skip fun name _ => nofun, inv.remembered⟩
    · refine (eq_none_iff_forall_ne_some.mpr fun ssl_ctx same => ?_).symm
      exact inv.linked.find_eq_none_iff.mp absent
        (List.mem_map_of_mem ((inv.remembered host_name ssl_ctx).mp same))
  · refine ⟨s', ⟨.find host_name, some ssl_ctx, []⟩, ?_, ⟨linked, ?_, ?_⟩, ?_⟩
    · simp only [call, found, bind_eq_bind, bind_some]
    · rw [names, entries', List.map_cons]
      exact (inv.ordered.sublist names_others_sublist).use rfl not_mem_names_others
    · intro name ssl_ctx'
      refine (inv.remembered name ssl_ctx').trans ?_
      rw [entries', mem_cons, mem_others_iff]
      by_cases same : name = host_name
      · have unique : (name, ssl_ctx') ∈ s.entries ↔ ssl_ctx' = ssl_ctx := by
          rw [same, ← inv.remembered, (inv.remembered host_name ssl_ctx).mpr member, some_inj,
            eq_comm]
        rw [unique]
        simp [same]
      · simp [same]
    · exact ((inv.remembered host_name ssl_ctx).mpr member).symm

theorem call_remove (inv : s.Inv history) :
    ∃ s' event, s.call (.remove host_name) = some (s', event) ∧ s'.Inv (event :: history) := by
  obtain ⟨s', removed, linked, entries', -⟩ := remove_spec inv.linked host_name
  refine ⟨s', ⟨.remove host_name, none, []⟩, ?_, linked, ?_, ?_⟩
  · simp only [call, removed, bind_eq_bind, bind_some]
  · rw [names, entries']
    exact (inv.ordered.sublist names_others_sublist).skip fun name _ => nofun
  · intro name ssl_ctx
    rw [entries', mem_others_iff, ← inv.remembered]
    by_cases same : host_name = name
    · simp [content, same]
    · simp [content, same, Ne.symm same]

/-- Every call succeeds and keeps the history right. -/
theorem call_spec (inv : s.Inv history) (label : Call κ) :
    ∃ s' event, s.call label = some (s', event) ∧ s'.Inv (event :: history) := by
  cases label with
  | add host_name ssl_ctx =>
      obtain ⟨s', event, called, inv', -⟩ := @call_add κ s history host_name inv ssl_ctx
      exact ⟨s', event, called, inv'⟩
  | find host_name =>
      obtain ⟨s', event, called, inv', -⟩ := @call_find κ s history host_name inv
      exact ⟨s', event, called, inv'⟩
  | remove host_name => exact call_remove inv
  | SetSize aMax_memory =>
      refine ⟨s.SetSize aMax_memory, _, rfl, ?_, ?_, inv.remembered⟩
      · exact ⟨inv.linked.fresh, inv.linked.own, inv.linked.back, inv.linked.same,
          inv.linked.memory⟩
      · exact inv.ordered.skip fun name _ => nofun

/-- Only `SetSize` changes the size. -/
theorem call_max_memory (linked : s.Linked) {label : Call κ} {s' : LocalContextStorage κ}
    {event : Event κ} (called : s.call label = some (s', event)) :
    s'.max_memory = lastSize s.max_memory [label] := by
  cases label with
  | add host_name ssl_ctx =>
      by_cases room : SSL_CTX_SIZE ≤ s.max_memory
      · obtain ⟨after, added, -, -, max_memory⟩ := add_spec linked room host_name ssl_ctx
        rw [call, added] at called
        cases called
        exact max_memory
      · rw [call, add, if_pos (not_le.mp room)] at called
        cases called
        rfl
  | find host_name =>
      rw [call] at called
      obtain ⟨-, nothing⟩ | ⟨after, ssl_ctx, found, -, -, -, max_memory⟩ :=
        find_spec linked host_name
      · rw [nothing] at called
        cases called
        rfl
      · rw [found] at called
        cases called
        exact max_memory
  | remove host_name =>
      obtain ⟨after, removed, -, -, max_memory, -⟩ := remove_spec linked host_name
      rw [call, removed] at called
      cases called
      exact max_memory
  | SetSize aMax_memory =>
      cases called
      rfl

theorem run_spec (inv : s.Inv history) (calls : List (Call κ)) :
    ∃ s' history', s.run history calls = some (s', history') ∧ s'.Inv history' ∧
      s'.max_memory = lastSize s.max_memory calls := by
  induction calls generalizing s history with
  | nil => exact ⟨s, history, rfl, inv, rfl⟩
  | cons label calls ih =>
      obtain ⟨middle, event, called, inv'⟩ := call_spec inv label
      obtain ⟨s', history', rest, inv'', size⟩ := ih inv'
      refine ⟨s', history', ?_, inv'', ?_⟩
      · simp only [run, called, bind_eq_bind, bind_some, rest]
      · rw [size, call_max_memory inv.linked called]
        rfl

end Calls

theorem inv_new (aMax_memory : ℕ) : (new aMax_memory : LocalContextStorage κ).Inv [] where
  linked := linked_new aMax_memory
  ordered := List.Pairwise.nil
  remembered host_name ssl_ctx := by simp [content, entries, new, Table.empty]

/-- After any calls, the cache is linked and `memory_used` is right.  The next call succeeds as well: an
`add` into a cache with room for a context purges the entries that were used least recently, and
no more than it has to; a `find` returns what was added last and neither removed nor purged.  The
size is that of the last `SetSize`, or of the constructor. -/
theorem bounded_lru (aMax_memory : ℕ) (calls : List (Call κ)) (label : Call κ) :
    ∃ s history s' event, (new aMax_memory).run [] calls = some (s, history) ∧
      s.call label = some (s', event) ∧
      s.max_memory = lastSize aMax_memory calls ∧
      s'.max_memory = lastSize aMax_memory (calls ++ [label]) ∧
      s'.memory_used = SSL_CTX_SIZE * s'.storage.rows.length ∧
      (∀ host_name i, s'.storage.find host_name = some i ↔
        ∃ item, s'.lru_queue.find i = some item ∧ item.host_name = host_name) ∧
      s'.storage.rows.length = s'.lru_queue.rows.length ∧
      (∀ host_name ssl_ctx, label = .add host_name ssl_ctx →
        event.result = none ∧ s.max_memory < SSL_CTX_SIZE ∧ s' = s ∨
        event.result = some ssl_ctx ∧ Evicts s s' history host_name event.evicted) ∧
      (∀ host_name, label = .find host_name → event.result = content host_name history) := by
  obtain ⟨s, history, ran, inv, size⟩ := run_spec (@inv_new κ aMax_memory) calls
  have step : ∃ s' event, s.call label = some (s', event) ∧ s'.Inv (event :: history) ∧
      (∀ host_name ssl_ctx, label = .add host_name ssl_ctx →
        event.result = none ∧ s.max_memory < SSL_CTX_SIZE ∧ s' = s ∨
        event.result = some ssl_ctx ∧ Evicts s s' history host_name event.evicted) ∧
      (∀ host_name, label = .find host_name → event.result = content host_name history) := by
    cases label with
    | add host_name ssl_ctx =>
        obtain ⟨s', event, called, inv', added⟩ := @call_add κ s history host_name inv ssl_ctx
        refine ⟨s', event, called, inv', ?_, nofun⟩
        rintro _ _ ⟨⟩
        exact added
    | find host_name =>
        obtain ⟨s', event, called, inv', found⟩ := @call_find κ s history host_name inv
        refine ⟨s', event, called, inv', nofun, ?_⟩
        rintro _ ⟨⟩
        exact found
    | remove host_name =>
        obtain ⟨s', event, called, inv'⟩ := call_spec inv (.remove host_name)
        exact ⟨s', event, called, inv', nofun, nofun⟩
    | SetSize aMax_memory =>
        obtain ⟨s', event, called, inv'⟩ := call_spec inv (.SetSize aMax_memory)
        exact ⟨s', event, called, inv', nofun, nofun⟩
  obtain ⟨s', event, called, inv', results⟩ := step
  have size' : s'.max_memory = lastSize aMax_memory (calls ++ [label]) := by
    rw [call_max_memory inv.linked called, size]
    exact foldl_append.symm
  refine ⟨s, history, s', event, ran, called, size, size', ?_, ?_, inv'.linked.same, results⟩
  · rw [inv'.linked.same]
    exact inv'.linked.memory
  · intro host_name i
    refine ⟨inv'.linked.own host_name i, ?_⟩
    rintro ⟨item, located, rfl⟩
    exact inv'.linked.back i item located

end LocalContextStorage

end Squid.Ssl
