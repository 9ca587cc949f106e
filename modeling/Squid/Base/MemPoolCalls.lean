import Squid.Base.MemPoolObjects

/-!
# Allocating from a chunked pool

`get` takes an object from the cache, or from the first chunk that has one, or from a new chunk;
`push` puts an object into the cache.
-/

namespace Squid.Base

open LinkedList List Option Function

namespace MemPoolChunked

variable {ρ : Type} {pool : MemPoolChunked ρ} {c : ρ} {obj : ℕ}
  {chunks chain : List ρ} {free : ρ → List ℕ} {cache allocated rest : List ℕ}

/-- The invariants of a pool between two calls. -/
structure Intact (pool : MemPoolChunked ρ) (chunks : List ρ) (free : ρ → List ℕ)
    (cache : List ℕ) (chain : List ρ) (allocated : List ℕ) : Prop where
  chunked : Chunked pool chunks
  placed : Placed pool chunks free cache allocated
  chained : Chained pool chunks free chain

theorem write_eq {value : Option ℕ} (mapped : pool.mapped obj = true) :
    pool.write obj value = some { pool with word := update pool.word obj value } :=
  if_pos mapped

theorem read_eq (mapped : pool.mapped obj = true) : pool.read obj = some (pool.word obj) :=
  if_pos mapped

/-- The object at the head of the cache is handed out. -/
theorem Placed.pop (placed : Placed pool chunks free (obj :: cache) allocated) :
    Placed { pool with freeCache := pool.word obj, word := update pool.word obj none }
      chunks free cache (obj :: allocated) where
  listed c member :=
    links_write (placed.listed c member) (placed.not_free member (by simp))
  cached :=
    links_write placed.cached.2 (nodup_cons.mp placed.cached.nodup).1
  home := placed.home
  placed c member q inside := by
    rw [placed.placed c member q inside, mem_cons, mem_cons]
    tauto
  distinct := perm_middle.nodup_iff.mp placed.distinct
  owned q member := placed.owned q (perm_middle.mem_iff.mpr member)
  counted := placed.counted

/-- A user gives an object back to the cache. -/
theorem Placed.push (placed : Placed pool chunks free cache allocated) (user : obj ∈ allocated) :
    Placed { pool with
        word := update pool.word obj pool.freeCache
        freeCache := some obj }
      chunks free (obj :: cache) (allocated.erase obj) := by
  have distinct := placed.distinct
  have apart := disjoint_of_nodup_append distinct user
  have moves : (allocated.erase obj ++ obj :: cache).Perm (allocated ++ cache) :=
    perm_middle.trans ((perm_cons_erase user).symm.append_right cache)
  constructor
  case listed =>
    exact fun c member => links_write (placed.listed c member)
      (placed.not_free member (mem_append_left cache user))
  case cached =>
    refine ⟨rfl, ?_⟩
    dsimp only
    rw [update_self]
    exact links_write placed.cached apart
  case home => exact placed.home
  case placed =>
    intro c member q inside
    rw [placed.placed c member q inside, mem_cons,
      (List.Nodup.of_append_left distinct).mem_erase_iff]
    by_cases same : q = obj
    · subst same
      tauto
    · tauto
  case distinct => exact moves.nodup_iff.mpr distinct
  case owned => exact fun q taken => placed.owned q (moves.mem_iff.mp taken)
  case counted => exact placed.counted

variable [DecidableEq ρ]

/-- The first free object of a chunk is handed out. -/
theorem Placed.take (placed : Placed pool chunks free cache allocated)
    (chunked : Chunked pool chunks) (member : c ∈ chunks) (first : free c = obj :: rest)
    (lastref : ρ → ℤ) :
    Placed { pool with
        freeList := update pool.freeList c (pool.word obj)
        word := update pool.word obj none
        inuse_count := update pool.inuse_count c (pool.inuse_count c + 1)
        lastref := lastref }
      chunks (update free c rest) cache (obj :: allocated) := by
  have free_obj : obj ∈ free c := by
    rw [first]
    exact mem_cons_self
  have inside := placed.home c member obj free_obj
  have unused := placed.not_taken member free_obj
  have links := placed.listed c member
  rw [first] at links
  have unlisted : obj ∉ rest := (nodup_cons.mp links.nodup).1
  constructor
  case listed =>
    intro d known
    by_cases same : d = c
    · subst same
      simp only [update_self]
      exact links_write links.2 unlisted
    · simp only [update_of_ne same]
      exact links_write (placed.listed d known)
        (placed.not_free_elsewhere chunked member inside known same)
  case cached => exact links_write placed.cached unused.2
  case home =>
    intro d known q listed
    by_cases same : d = c
    · subst same
      rw [update_self] at listed
      exact placed.home d known q (by rw [first]; exact mem_cons_of_mem obj listed)
    · rw [update_of_ne same] at listed
      exact placed.home d known q listed
  case placed =>
    intro d known q within
    have before := placed.placed d known q within
    by_cases same : d = c
    · subst same
      rw [first, mem_cons] at before
      rw [update_self, mem_cons]
      by_cases moved : q = obj
      · subst moved
        tauto
      · tauto
    · have other : q ≠ obj := by
        rintro rfl
        exact same (chunked.eq_of_range known member (chunked.range within)
          (chunked.range inside))
      rw [update_of_ne same, mem_cons, before]
      tauto
  case distinct =>
    refine nodup_cons.mpr ⟨?_, placed.distinct⟩
    exact fun again => (mem_append.mp again).elim unused.1 unused.2
  case owned =>
    intro q taken
    rcases mem_cons.mp taken with rfl | earlier
    · exact ⟨c, member, inside⟩
    · exact placed.owned q earlier
  case counted =>
    intro d known
    have before := placed.counted d known
    by_cases same : d = c
    · subst same
      rw [first, length_cons] at before
      simp only [update_self]
      omega
    · simp only [update_of_ne same]
      exact before

/-! ## New chunks -/

variable {d : ρ}

omit [DecidableEq ρ] in
theorem memCompChunks_neg_iff : pool.memCompChunks c d < 0 ↔ pool.objCache c < pool.objCache d := by
  rw [memCompChunks]
  split_ifs <;> omega

omit [DecidableEq ρ] in
theorem memCompChunks_pos_iff : 0 < pool.memCompChunks c d ↔ pool.objCache d < pool.objCache c := by
  rw [memCompChunks]
  split_ifs <;> omega

/-- Memory that the pool may be given for a new chunk: no chunk is at the address, and the arena is
outside the others. -/
def Available (pool : MemPoolChunked ρ) (newChunk : ρ) (base : ℕ) : Prop :=
  pool.live newChunk = false ∧
    ∀ arena ∈ pool.arenas, base + pool.chunk_size ≤ arena ∨ arena + pool.chunk_size ≤ base

/-- Where the loop of `createChunk` puts the chunk. -/
theorem insertChunk_eq {newChunk q : ρ} {passed back : List ρ} {turns : ℕ}
    (links : Links pool.next (some c) (passed ++ q :: back)) (enough : passed.length < turns)
    (alive : ∀ d ∈ passed ++ q :: back, pool.live d = true) (fresh : pool.next newChunk = none)
    (below : ∀ d ∈ passed ++ [q], pool.objCache d < pool.objCache newChunk)
    (above : ∀ d ∈ back, pool.objCache newChunk < pool.objCache d) :
    pool.insertChunk newChunk turns c = some { pool with
      next := update (update pool.next newChunk (pool.next q)) q
        (some newChunk) } := by
  induction turns generalizing passed c with
  | zero => exact absurd enough (Nat.not_lt_zero _)
  | succ turns ih =>
      rw [insertChunk]
      cases passed with
      | nil =>
          obtain ⟨here, later⟩ := links
          cases some.inj here
          cases back with
          | nil =>
              rw [Links] at later
              have same : update pool.next newChunk (pool.next q) = pool.next := by
                rw [later, ← fresh, update_eq_self]
              rw [same, later]
          | cons d back =>
              have head := later.1
              rw [head]
              dsimp only
              rw [deref, bind_some, if_pos (alive d (by simp)), bind_eq_bind,
                bind_some, if_pos (above d mem_cons_self)]
      | cons p passed =>
          obtain ⟨here, later⟩ := links
          cases some.inj here
          change Links pool.next (pool.next c) (passed ++ q :: back) at later
          obtain ⟨d, first⟩ : ∃ d, (passed ++ [q]).head? = some d := by
            cases passed with
            | nil => exact ⟨q, rfl⟩
            | cons d passed => exact ⟨d, rfl⟩
          have head : pool.next c = some d := by
            rw [later.head_eq, append_cons, List.head?_append, first, some_or]
          have known := mem_of_mem_head? first
          have lower := below d (mem_cons_of_mem c known)
          have alive_d : pool.live d = true := by
            refine alive d (mem_cons_of_mem c ?_)
            have longer := mem_append_left back known
            rwa [← append_cons] at longer
          rw [head] at later ⊢
          dsimp only
          rw [deref, bind_some, if_pos alive_d, bind_eq_bind, bind_some,
            if_neg (Nat.not_lt.mpr (Nat.le_of_lt lower))]
          exact ih later (Nat.lt_of_succ_lt_succ enough)
            (fun e member => alive e (mem_cons_of_mem c member))
            fun e member => below e (mem_cons_of_mem c member)

omit [DecidableEq ρ] in
theorem consistent_memCompChunks
    (sorted : chunks.Pairwise fun a b => pool.objCache a ≤ pool.objCache b) :
    SplayNode.Consistent (pool.memCompChunks c) chunks := by
  refine sorted.imp fun order => ⟨fun first => ?_, fun first => ?_⟩
  · rw [← not_lt, memCompChunks_pos_iff] at first ⊢
    omega
  · rw [memCompChunks_neg_iff] at first ⊢
    omega

section Construction

variable {newChunk : ρ} {base : ℕ} {front back : List ρ} {squid_curtime : ℤ}

section

variable (chunked : Chunked pool chunks)
include chunked

omit [DecidableEq ρ] in
theorem Chunked.fresh (available : Available pool newChunk base) : newChunk ∉ chunks := by
  intro member
  rw [← chunked.alive, available.1] at member
  cases member

omit [DecidableEq ρ] in
theorem Chunked.chunk_size_pos : 0 < pool.chunk_size :=
  Nat.lt_of_lt_of_le (Nat.mul_pos chunked.capacity chunked.positive) chunked.fits

omit [DecidableEq ρ] in
/-- The new arena is outside the arenas of the chunks. -/
theorem Chunked.outside (available : Available pool newChunk base) (member : c ∈ chunks) :
    base + pool.chunk_size ≤ pool.objCache c ∨
      pool.objCache c + pool.chunk_size ≤ base :=
  available.2 _ (chunked.bases.mem_iff.mpr (List.mem_map_of_mem member))

theorem objCache_initChunk (available : Available pool newChunk base) (member : c ∈ chunks) :
    (pool.initChunk squid_curtime newChunk base).objCache c = pool.objCache c := by
  refine update_of_ne ?_ ..
  rintro rfl
  exact chunked.fresh available member

end

theorem objCache_initChunk_self :
    (pool.initChunk squid_curtime newChunk base).objCache newChunk = base :=
  update_self ..

section

variable (chunked : Chunked pool chunks)
include chunked

theorem objects_initChunk (available : Available pool newChunk base) (member : c ∈ chunks) :
    (pool.initChunk squid_curtime newChunk base).objects c = pool.objects c := by
  rw [objects, objCache_initChunk chunked available member]
  rfl

/-- The entry of a new chunk in the tree. -/
theorem newMemChunk_spec (available : Available pool newChunk base) (squid_curtime : ℤ) :
    ∃ allChunks front back,
      pool.newMemChunk squid_curtime newChunk base =
        some { pool.initChunk squid_curtime newChunk base with allChunks := allChunks } ∧
      chunks = front ++ back ∧ allChunks.toList = front ++ newChunk :: back ∧
      (∀ c ∈ front, pool.objCache c + pool.chunk_size ≤ base) ∧
      ∀ c ∈ back, base + pool.chunk_size ≤ pool.objCache c := by
  have size := chunked.chunk_size_pos
  let next := pool.initChunk squid_curtime newChunk base
  have tree : next.tree = some pool.allChunks := by
    refine if_pos (all_eq_true.mpr fun c member => ?_)
    rw [show next.allChunks.toList = chunks from chunked.tree_eq] at member
    have alive := (chunked.alive c).mpr member
    by_cases same : c = newChunk
    · rw [same]
      exact update_self ..
    · exact (update_of_ne same ..).trans alive
  have old (c : ρ) (member : c ∈ chunks) : next.objCache c = pool.objCache c :=
    objCache_initChunk chunked available member
  have new : next.objCache newChunk = base := objCache_initChunk_self
  have consistent : SplayNode.Consistent (next.memCompChunks newChunk) pool.allChunks.toList := by
    rw [chunked.tree_eq]
    refine consistent_memCompChunks (chunked.sorted.imp_of_mem fun first second order => ?_)
    rw [old _ first, old _ second]
    omega
  have apart (c : ρ) (member : c ∈ chunks) := chunked.outside available member
  obtain ⟨allChunks, front, back, inserted, values, split, -, before, after⟩ :=
    Splay.insert_spec newChunk consistent fun c member zero => by
      rw [chunked.tree_eq] at member
      have below : next.memCompChunks newChunk c < 0 ↔ _ := memCompChunks_neg_iff
      have above : 0 < next.memCompChunks newChunk c ↔ _ := memCompChunks_pos_iff
      rw [zero, new, old c member] at below above
      have := apart c member
      omega
  rw [chunked.tree_eq] at split
  refine ⟨allChunks, front, back, ?_, split, values, fun c member => ?_, fun c member => ?_⟩
  · rw [newMemChunk]
    simp only [show pool.initChunk squid_curtime newChunk base = next from rfl, tree,
      bind_eq_bind, bind_some, inserted]
  · have known : c ∈ chunks := by
      rw [split]
      exact mem_append_left back member
    have order := memCompChunks_pos_iff.mp (before c member)
    rw [new, old c known] at order
    have := apart c known
    omega
  · have known : c ∈ chunks := by
      rw [split]
      exact mem_append_right front member
    have order := memCompChunks_neg_iff.mp (after c member)
    rw [new, old c known] at order
    have := apart c known
    omega

/-- The chunks with the new one among them. -/
theorem Chunked.grow (available : Available pool newChunk base) {allChunks : Splay ρ}
    (split : chunks = front ++ back) (values : allChunks.toList = front ++ newChunk :: back)
    (before : ∀ c ∈ front, pool.objCache c + pool.chunk_size ≤ base)
    (after : ∀ c ∈ back, base + pool.chunk_size ≤ pool.objCache c) {Chunks : Option ρ}
    {next : ρ → Option ρ} (links : Links next Chunks (front ++ newChunk :: back)) :
    Chunked { pool.initChunk squid_curtime newChunk base with
        allChunks := allChunks
        next := next
        Chunks := Chunks }
      (front ++ newChunk :: back) := by
  have old {c : ρ} (member : c ∈ front ++ back) :
      (pool.initChunk squid_curtime newChunk base).objCache c = pool.objCache c :=
    objCache_initChunk chunked available (by rwa [split])
  have new : (pool.initChunk squid_curtime newChunk base).objCache newChunk = base :=
    objCache_initChunk_self
  have sorted := chunked.sorted
  rw [split, pairwise_append] at sorted
  constructor
  case positive => exact chunked.positive
  case capacity => exact chunked.capacity
  case fits => exact chunked.fits
  case linked => exact links
  case alive =>
    intro c
    change update pool.live newChunk true c = true ↔ _
    rw [perm_middle.mem_iff, mem_cons, ← split, ← chunked.alive]
    by_cases same : c = newChunk
    · rw [same, update_self]
      exact iff_of_true rfl (Or.inl rfl)
    · rw [update_of_ne same]
      exact (or_iff_right same).symm
  case sorted =>
    dsimp only [initChunk] at old new ⊢
    rw [pairwise_append, pairwise_cons]
    refine ⟨sorted.1.imp_of_mem fun first second order => ?_, ⟨fun d member => ?_,
      sorted.2.1.imp_of_mem fun first second order => ?_⟩, fun c first d second => ?_⟩
    · rwa [old (mem_append_left back first), old (mem_append_left back second)]
    · rw [new, old (mem_append_right front member)]
      exact after d member
    · rwa [old (mem_append_right front first), old (mem_append_right front second)]
    · rw [old (mem_append_left back first)]
      rcases mem_cons.mp second with rfl | later
      · rw [new]
        exact before c first
      · rw [old (mem_append_right front later)]
        exact sorted.2.2 c first d later
  case tree_eq => exact values
  case bases =>
    have same : (front ++ back).map
        (pool.initChunk squid_curtime newChunk base).objCache = chunks.map pool.objCache := by
      rw [split]
      exact map_congr_left fun c member => old member
    have moves : (front ++ newChunk :: back).Perm (newChunk :: (front ++ back)) :=
      perm_middle
    have moved := moves.map (pool.initChunk squid_curtime newChunk base).objCache
    rw [map_cons, same, new] at moved
    exact (chunked.bases.cons base).trans moved.symm
  case count =>
    have longer := congrArg List.length split
    change pool.chunkCount + 1 = _
    rw [chunked.count, longer]
    simp only [length_append, length_cons]
    omega

omit [DecidableEq ρ] in
/-- An object of an old chunk is outside the new arena. -/
theorem Chunked.object_outside (available : Available pool newChunk base) (member : c ∈ chunks)
    (inside : obj ∈ pool.objects c) : obj < base ∨ base + pool.chunk_size ≤ obj := by
  have := chunked.outside available member
  have := chunked.range inside
  omega

omit [DecidableEq ρ] in
/-- The last object of a chunk ends inside the arena. -/
theorem Chunked.last_fits :
    (pool.chunk_capacity - 1) * pool.obj_size + pool.obj_size ≤ pool.chunk_size := by
  rw [← Nat.succ_mul, Nat.succ_eq_add_one, Nat.sub_add_cancel chunked.capacity]
  exact chunked.fits

theorem word_initChunk (far : obj < base ∨ base + pool.chunk_size ≤ obj) :
    (pool.initChunk squid_curtime newChunk base).word obj = pool.word obj := by
  have last := chunked.last_fits
  have positive := chunked.positive
  dsimp only [initChunk]
  rcases far with below | above
  · rw [thread_of_lt below, if_neg (by omega)]
  · rw [thread_of_le positive (by omega), if_neg (by omega)]

/-- The constructor links all objects of the new chunk. -/
theorem links_initChunk :
    Links (pool.initChunk squid_curtime newChunk base).word
      ((pool.initChunk squid_curtime newChunk base).freeList newChunk)
      ((pool.initChunk squid_curtime newChunk base).objects newChunk) := by
  have last := chunked.last_fits
  have positive := chunked.positive
  have head : (pool.initChunk squid_curtime newChunk base).freeList newChunk = some base :=
    update_self ..
  have capacity : (pool.initChunk squid_curtime newChunk base).chunk_capacity =
      pool.chunk_capacity - 1 + 1 := (Nat.sub_add_cancel chunked.capacity).symm
  rw [objects, objCache_initChunk_self, head, capacity]
  exact links_thread positive (if_pos (by omega))

end

/-- The objects of the new chunk are free in its list. -/
theorem Placed.grow (placed : Placed pool chunks free cache allocated)
    (chunked : Chunked pool chunks) (available : Available pool newChunk base)
    (squid_curtime : ℤ) (split : chunks = front ++ back) (allChunks : Splay ρ) (next : ρ → Option ρ)
    (Chunks : Option ρ) :
    Placed { pool.initChunk squid_curtime newChunk base with
        allChunks := allChunks
        next := next
        Chunks := Chunks }
      (front ++ newChunk :: back)
      (update free newChunk
        ((pool.initChunk squid_curtime newChunk base).objects newChunk)) cache allocated := by
  have members {c : ρ} : c ∈ front ++ newChunk :: back ↔ c = newChunk ∨ c ∈ chunks := by
    rw [perm_middle.mem_iff, mem_cons, split]
  have old {c : ρ} (member : c ∈ chunks) :
      (pool.initChunk squid_curtime newChunk base).objects c = pool.objects c :=
    objects_initChunk chunked available member
  constructor
  case listed =>
    intro c member
    by_cases same : c = newChunk
    · subst same
      rw [update_self]
      exact links_initChunk chunked
    · have known := (members.mp member).resolve_left same
      rw [update_of_ne same]
      have head : (pool.initChunk squid_curtime newChunk base).freeList c = pool.freeList c :=
        update_of_ne same ..
      dsimp only
      rw [head]
      exact (placed.listed c known).congr fun obj inside =>
        word_initChunk chunked (chunked.object_outside available known
          (placed.home c known obj inside))
  case cached =>
    refine placed.cached.congr fun obj inside => ?_
    obtain ⟨c, known, owner⟩ := placed.owned obj (mem_append_right allocated inside)
    dsimp only
    exact word_initChunk chunked (chunked.object_outside available known owner)
  case home =>
    intro c member obj inside
    by_cases same : c = newChunk
    · subst same
      rwa [update_self] at inside
    · have known := (members.mp member).resolve_left same
      rw [update_of_ne same] at inside
      exact (old known).symm ▸ placed.home c known obj inside
  case placed =>
    intro c member obj inside
    by_cases same : c = newChunk
    · subst same
      rw [update_self]
      have bounds := @objects_range _ (pool.initChunk squid_curtime c base) _ _
        chunked.positive chunked.fits inside
      rw [objCache_initChunk_self] at bounds
      have untaken : obj ∉ allocated ++ cache := by
        intro taken
        obtain ⟨d, known, owner⟩ := placed.owned obj taken
        have apart := chunked.object_outside available known owner
        change base ≤ obj ∧ obj < base + pool.chunk_size at bounds
        omega
      rw [mem_append, not_or] at untaken
      exact iff_of_true inside untaken
    · have known := (members.mp member).resolve_left same
      rw [update_of_ne same]
      exact placed.placed c known obj (old known ▸ inside)
  case distinct => exact placed.distinct
  case owned =>
    intro obj taken
    obtain ⟨c, known, owner⟩ := placed.owned obj taken
    exact ⟨c, members.mpr (Or.inr known), (old known).symm ▸ owner⟩
  case counted =>
    intro c member
    by_cases same : c = newChunk
    · subst same
      rw [update_self, length_objects]
      dsimp only [initChunk]
      rw [update_self, zero_add]
    · have known := (members.mp member).resolve_left same
      rw [update_of_ne same]
      dsimp only [initChunk]
      rw [update_of_ne same]
      exact placed.counted c known

/-- A new chunk comes between the chunks below and the chunks above it. -/
theorem createChunk_spec (chunked : Chunked pool chunks)
    (available : Available pool newChunk base) (squid_curtime : ℤ) :
    ∃ allChunks next Chunks front back,
      pool.createChunk squid_curtime newChunk base =
        some { pool.initChunk squid_curtime newChunk base with
          allChunks := allChunks
          next := next
          Chunks := Chunks } ∧
      chunks = front ++ back ∧
      Chunked { pool.initChunk squid_curtime newChunk base with
          allChunks := allChunks
          next := next
          Chunks := Chunks }
        (front ++ newChunk :: back) := by
  obtain ⟨allChunks, front, back, built, split, values, before, after⟩ :=
    newMemChunk_spec chunked available squid_curtime
  have size := chunked.chunk_size_pos
  let init := pool.initChunk squid_curtime newChunk base
  have fresh := chunked.fresh available
  have ends : init.next newChunk = none := update_self ..
  have linked : Links init.next pool.Chunks chunks := by
    refine chunked.linked.congr fun c member => update_of_ne ?_ ..
    rintro rfl
    exact fresh member
  have old {c : ρ} (member : c ∈ chunks) : init.objCache c = pool.objCache c :=
    objCache_initChunk chunked available member
  have new : init.objCache newChunk = base := objCache_initChunk_self
  have alive {c : ρ} (member : c ∈ chunks) : init.live c = true := by
    have known := (chunked.alive c).mpr member
    have other : c ≠ newChunk := by
      rintro rfl
      exact fresh member
    exact (update_of_ne other ..).trans known
  have begins_none (empty : pool.Chunks = none) :
      pool.createChunk squid_curtime newChunk base =
        some { init with allChunks := allChunks, Chunks := some newChunk } := by
    have same : (pool.initChunk squid_curtime newChunk base).Chunks = none := empty
    simp only [createChunk, built, bind_eq_bind, bind_some, same]
    rfl
  have begins_some {chunk : ρ} (head : pool.Chunks = some chunk) :
      pool.createChunk squid_curtime newChunk base =
        (({ init with allChunks := allChunks } : MemPoolChunked ρ).deref (some chunk)).bind
          fun chunk =>
            if init.objCache newChunk < init.objCache chunk then
              some { init with
                allChunks := allChunks
                next := update init.next newChunk (some chunk)
                Chunks := some newChunk }
            else ({ init with allChunks := allChunks } : MemPoolChunked ρ).insertChunk newChunk
              (pool.chunkCount + 1).toNat chunk := by
    have same : (pool.initChunk squid_curtime newChunk base).Chunks = some chunk := head
    simp only [createChunk, built, bind_eq_bind, bind_some, same]
    rw [← same]
    rfl
  cases front with
  | nil =>
      cases back with
      | nil =>
          subst split
          have empty : pool.Chunks = none := linked
          refine ⟨allChunks, init.next, some newChunk, [], [], ?_, rfl, ?_⟩
          · exact begins_none empty
          · exact chunked.grow available rfl values before after ⟨rfl, ends⟩
      | cons d back =>
          subst split
          have head : pool.Chunks = some d := linked.1
          have higher : init.objCache newChunk < init.objCache d := by
            have := after d mem_cons_self
            rw [new, old mem_cons_self]
            omega
          refine ⟨allChunks, update init.next newChunk (some d), some newChunk, [],
            d :: back, ?_, rfl, ?_⟩
          · rw [begins_some head, deref, bind_some, if_pos (alive mem_cons_self),
              bind_some, if_pos higher]
          · refine chunked.grow available rfl values before after ⟨rfl, ?_⟩
            rw [update_self, ← head]
            refine linked.congr fun c member => update_of_ne ?_ ..
            rintro rfl
            exact fresh member
  | cons p passed =>
      obtain ⟨q, last⟩ : ∃ q, (p :: passed).getLast? = some q :=
        ⟨_, List.getLast?_eq_some_getLast (cons_ne_nil p passed)⟩
      obtain ⟨initial, shape⟩ := List.getLast?_eq_some_iff.mp last
      subst split
      have head : pool.Chunks = some p := linked.1
      have lower {c : ρ} (member : c ∈ p :: passed) :
          init.objCache c < init.objCache newChunk := by
        have := before c member
        rw [new, old (mem_append_left back member)]
        omega
      have order : p :: passed ++ back = initial ++ q :: back := by
        rw [shape, append_assoc, singleton_append]
      have enough : initial.length < (pool.chunkCount + 1).toNat := by
        have longer := congrArg List.length order
        rw [length_append, length_append, length_cons, length_cons] at longer
        rw [chunked.count, length_append, length_cons]
        omega
      have inserted := @insertChunk_eq _ { init with allChunks := allChunks } _ _ _ _ _ _ _
        (by rw [← order]; exact head ▸ linked) enough
        (fun d member => alive (by rwa [order])) ends
        (fun d member => lower (by rwa [shape]))
        fun d member => by
          have := after d member
          change init.objCache newChunk < init.objCache d
          rw [new, old (mem_append_right (p :: passed) member)]
          omega
      refine ⟨allChunks, update (update init.next newChunk (init.next q)) q
        (some newChunk), pool.Chunks, p :: passed, back, ?_, rfl, ?_⟩
      · rw [begins_some head, deref, bind_some, if_pos (alive (by simp)), bind_some,
          if_neg (Nat.not_lt.mpr (Nat.le_of_lt (lower mem_cons_self))), inserted]
        rfl
      · refine chunked.grow available rfl values before after ?_
        rw [shape, append_assoc, singleton_append]
        rw [order] at linked fresh
        exact linked.insert fresh

end Construction

/-! ## The calls -/

section

variable (intact : Intact pool chunks free cache chain allocated)
include intact

/-- The first chunk of the chain hands out its first free object. -/
theorem getFromChunk_spec (metered : Metered pool chunks allocated) (more : chain ≠ [])
    (squid_curtime : ℤ) :
    ∃ obj pool' free' chain', pool.getFromChunk squid_curtime = some (obj, pool') ∧
      Intact pool' chunks free' cache chain' (obj :: allocated) ∧
      Metered pool' chunks allocated := by
  obtain ⟨chunked, placed, chained⟩ := intact
  cases chain with
  | nil => exact absurd rfl more
  | cons c chain =>
      obtain ⟨head, later⟩ := chained.linked
      obtain ⟨member, nonempty⟩ := (chained.mem_iff c).mp mem_cons_self
      obtain ⟨obj, rest, first⟩ := exists_cons_of_ne_nil nonempty
      have links := placed.listed c member
      rw [first] at links
      have inside : obj ∈ pool.objects c := placed.home c member obj (by
        rw [first]
        exact mem_cons_self)
      have mapped := chunked.mapped member inside
      have taken := placed.take chunked member first
        (update pool.lastref c squid_curtime)
      have distinct := nodup_cons.mp chained.linked.nodup
      -- the other chunks keep their free objects
      have others (d : ρ) (other : d ≠ c) :
          d ∈ c :: chain ↔ d ∈ chunks ∧ update free c rest d ≠ [] := by
        rw [update_of_ne other]
        exact chained.mem_iff d
      have reached : pool.deref pool.nextFreeChunk = some c := by
        rw [head, chunked.deref member]
      have remaining := links.2.head_eq
      simp only [getFromChunk, reached, links.1, read_eq mapped, bind_eq_bind, bind_some]
      rw [write_eq (by exact mapped), bind_some]
      dsimp only
      cases rest with
      | nil =>
          rw [if_pos (by exact remaining)]
          refine ⟨obj, _, _, chain, rfl, ⟨chunked.relist, taken.relink, later, fun d => ?_⟩,
            metered.idle, metered.inuse⟩
          by_cases same : d = c
          · subst same
            rw [update_self]
            exact iff_of_false distinct.1 fun both => both.2 rfl
          · rw [← others d same, mem_cons]
            exact (or_iff_right same).symm
      | cons next rest =>
          rw [if_neg (by rw [remaining]; exact some_ne_none next)]
          refine ⟨obj, _, _, c :: chain, rfl, ⟨chunked.relist, taken, chained.linked,
            fun d => ?_⟩, metered.idle, metered.inuse⟩
          by_cases same : d = c
          · subst same
            rw [update_self]
            exact iff_of_true mem_cons_self ⟨member, cons_ne_nil next rest⟩
          · exact others d same

variable {base : ℕ} {newChunk : ρ}

/-- `get` hands out an object that was free. -/
theorem get_spec (metered : Metered pool chunks allocated)
    (available : Available pool newChunk base) (squid_curtime : ℤ) :
    ∃ obj pool' chunks' free' cache' chain',
      pool.get squid_curtime newChunk base = some (obj, pool') ∧
      Intact pool' chunks' free' cache' chain' (obj :: allocated) ∧
      Metered pool' chunks' allocated := by
  obtain ⟨chunked, placed, chained⟩ := intact
  have head := placed.cached.head_eq
  cases cache with
  | cons obj cache =>
      obtain ⟨c, member, inside⟩ := placed.owned obj (by simp)
      have mapped := chunked.mapped member inside
      rw [get, head]
      dsimp only [List.head?_cons]
      simp only [read_eq mapped, bind_eq_bind, bind_some]
      rw [write_eq (by exact mapped), bind_some]
      exact ⟨obj, _, chunks, free, cache, chain, rfl,
        ⟨chunked.relist, placed.pop, chained.linked, chained.mem_iff⟩, metered.idle,
        metered.inuse⟩
  | nil =>
      rw [get, head]
      dsimp only [List.head?_nil]
      by_cases empty : pool.nextFreeChunk = none
      · obtain ⟨allChunks, next, Chunks, front, back, created, split, chunked'⟩ :=
          createChunk_spec chunked available squid_curtime
        have placed' := placed.grow chunked available squid_curtime split allChunks next Chunks
        simp only [if_pos empty, created, bind_eq_bind, bind_some]
        have no_chain : chain = [] := by
          have linked := chained.linked
          rw [empty] at linked
          exact links_none_iff.mp linked
        have members {c : ρ} : c ∈ front ++ newChunk :: back ↔ c = newChunk ∨ c ∈ chunks := by
          rw [perm_middle.mem_iff, mem_cons, split]
        have full : (pool.initChunk squid_curtime newChunk base).objects newChunk ≠ [] := by
          apply ne_nil_of_length_pos
          rw [length_objects]
          exact chunked.capacity
        have links : Links (pool.initChunk squid_curtime newChunk base).nextFree (some newChunk)
            [newChunk] := ⟨rfl, (update_self ..).trans empty⟩
        have chained' (c : ρ) : c ∈ [newChunk] ↔ c ∈ front ++ newChunk :: back ∧
            update free newChunk
              ((pool.initChunk squid_curtime newChunk base).objects newChunk) c ≠ [] := by
          by_cases same : c = newChunk
          · subst same
            rw [update_self]
            exact iff_of_true (mem_singleton_self c) ⟨members.mpr (Or.inl rfl), full⟩
          · rw [mem_singleton, update_of_ne same, members, or_iff_right same,
              ← chained.mem_iff, no_chain]
            exact iff_of_false same not_mem_nil
        have idle : pool.idle + pool.chunk_capacity + allocated.length =
            (front ++ newChunk :: back).length * pool.chunk_capacity := by
          have before := metered.idle
          rw [split, length_append] at before
          rw [length_append, length_cons, ← add_assoc]
          push_cast at before ⊢
          rw [add_mul, one_mul, ← before, add_right_comm]
        obtain ⟨obj, pool', free', chain', taken, intact', metered'⟩ :=
          getFromChunk_spec ⟨chunked', placed', links, chained'⟩ ⟨idle, metered.inuse⟩
            (cons_ne_nil newChunk []) squid_curtime
        exact ⟨obj, pool', _, free', [], chain', taken, intact', metered'⟩
      · simp only [if_neg empty, bind_eq_bind, bind_some]
        have more : chain ≠ [] := by
          rintro rfl
          exact empty chained.linked
        obtain ⟨obj, pool', free', chain', taken, intact', metered'⟩ :=
          getFromChunk_spec ⟨chunked, placed, chained⟩ metered more squid_curtime
        exact ⟨obj, pool', chunks, free', [], chain', taken, intact', metered'⟩

/-- `allocate` hands out an object that was not allocated; its assertion holds. -/
theorem allocate_spec (metered : Metered pool chunks allocated)
    (available : Available pool newChunk base) (squid_curtime : ℤ) :
    ∃ obj pool' chunks' free' cache' chain',
      pool.allocate squid_curtime newChunk base = some (obj, pool') ∧
      Intact pool' chunks' free' cache' chain' (obj :: allocated) ∧
      Metered pool' chunks' (obj :: allocated) := by
  obtain ⟨obj, pool', chunks', free', cache', chain', taken, intact', metered'⟩ :=
    get_spec intact metered available squid_curtime
  have room := intact'.placed.bound
  have idle := metered'.idle
  have inuse := metered'.inuse
  rw [length_cons] at room
  push_cast at room
  have positive : 0 < pool'.idle := by omega
  obtain ⟨chunked, placed, chained⟩ := intact'
  refine ⟨obj, { pool' with idle := pool'.idle - 1, inuse := pool'.inuse + 1 }, chunks', free',
    cache', chain', ?_, ⟨chunked.relist, placed.relink, chained.linked, chained.mem_iff⟩,
    ?_, ?_⟩
  · rw [allocate, taken, bind_eq_bind, bind_some]
    exact if_pos positive
  · rw [length_cons]
    push_cast
    omega
  · rw [length_cons]
    push_cast
    omega

omit [DecidableEq ρ] in
/-- An object that is given back goes to the cache; the assertion of `deallocate` holds. -/
theorem deallocate_spec (metered : Metered pool chunks allocated) (user : obj ∈ allocated) :
    ∃ pool', pool.deallocate obj = some pool' ∧
      Intact pool' chunks free (obj :: cache) chain (allocated.erase obj) ∧
      Metered pool' chunks (allocated.erase obj) := by
  obtain ⟨chunked, placed, chained⟩ := intact
  obtain ⟨c, member, inside⟩ := placed.owned obj (mem_append_left cache user)
  have mapped := chunked.mapped member inside
  have idle := metered.idle
  have inuse := metered.inuse
  have shorter := length_erase_of_mem user
  have some_user := length_pos_of_mem user
  have positive : 0 < pool.inuse := by omega
  refine ⟨{ pool with
      word := update pool.word obj pool.freeCache
      freeCache := some obj
      inuse := pool.inuse - 1
      idle := pool.idle + 1 }, ?_,
    ⟨chunked.relist, (placed.push user).relink, chained.linked, chained.mem_iff⟩, ?_, ?_⟩
  · rw [deallocate, MemPoolChunked.push, write_eq mapped]
    exact if_pos positive
  · dsimp only
    omega
  · dsimp only
    omega

end

end MemPoolChunked

end Squid.Base
