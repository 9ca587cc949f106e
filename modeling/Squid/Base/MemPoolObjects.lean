import Mathlib.Data.List.Pairwise
import Mathlib.Data.List.Perm.Subperm
import Squid.Base.MemPoolChunked

/-!
# The objects of a chunked pool

Every object of a chunk is free in the list of its chunk, free in the cache of the pool, or
allocated.
-/

namespace Squid.Base

open LinkedList List Function

namespace MemPoolChunked

variable {ρ : Type} {pool : MemPoolChunked ρ} {c d : ρ} {obj : ℕ}

/-! ## The objects of a chunk -/

/-- The objects that a chunk is cut into. -/
def objects (pool : MemPoolChunked ρ) (chunk : ρ) : List ℕ :=
  (List.range pool.chunk_capacity).map fun i => pool.objCache chunk + i * pool.obj_size

theorem mem_objects :
    obj ∈ pool.objects c ↔
      ∃ i < pool.chunk_capacity, pool.objCache c + i * pool.obj_size = obj := by
  simp only [objects, List.mem_map, mem_range]

theorem length_objects : (pool.objects c).length = pool.chunk_capacity := by
  rw [objects, length_map, length_range]

theorem objects_nodup (positive : 0 < pool.obj_size) : (pool.objects c).Nodup := by
  refine List.Nodup.map (fun i j same => ?_) nodup_range
  exact Nat.eq_of_mul_eq_mul_right positive (Nat.add_left_cancel same)

/-- An object begins inside the arena of its chunk. -/
theorem objects_range (positive : 0 < pool.obj_size)
    (fits : pool.chunk_capacity * pool.obj_size ≤ pool.chunk_size) (member : obj ∈ pool.objects c) :
    pool.objCache c ≤ obj ∧ obj < pool.objCache c + pool.chunk_size := by
  obtain ⟨i, bound, rfl⟩ := mem_objects.mp member
  have step : (i + 1) * pool.obj_size ≤ pool.chunk_capacity * pool.obj_size :=
    Nat.mul_le_mul_right pool.obj_size bound
  rw [Nat.add_mul, Nat.one_mul] at step
  omega

/-- What stays the same: how chunks are cut into objects, and where they lie. -/
structure SameShape (pool pool' : MemPoolChunked ρ) : Prop where
  obj_size : pool'.obj_size = pool.obj_size
  chunk_size : pool'.chunk_size = pool.chunk_size
  chunk_capacity : pool'.chunk_capacity = pool.chunk_capacity
  objCache : pool'.objCache = pool.objCache

theorem SameShape.refl (pool : MemPoolChunked ρ) : SameShape pool pool := ⟨rfl, rfl, rfl, rfl⟩

theorem SameShape.trans {pool₁ pool₂ pool₃ : MemPoolChunked ρ} (first : SameShape pool₁ pool₂)
    (second : SameShape pool₂ pool₃) : SameShape pool₁ pool₃ :=
  ⟨second.obj_size.trans first.obj_size, second.chunk_size.trans first.chunk_size,
    second.chunk_capacity.trans first.chunk_capacity, second.objCache.trans first.objCache⟩

theorem SameShape.objects {pool' : MemPoolChunked ρ} (shape : SameShape pool pool') (c : ρ) :
    pool'.objects c = pool.objects c := by
  rw [MemPoolChunked.objects, shape.chunk_capacity, shape.obj_size, shape.objCache]
  rfl

section Thread

variable [DecidableEq ρ] {obj_size : ℕ}

variable {base n : ℕ} {word : ℕ → Option ℕ}

variable {q : ℕ}

theorem thread_of_lt (below : q < base) : thread obj_size n base word q = word q := by
  induction n generalizing base word with
  | zero => rfl
  | succ n ih =>
      rw [thread, ih (Nat.lt_add_right obj_size below), update_of_ne (Nat.ne_of_lt below)]

theorem thread_of_le (positive : 0 < obj_size) (above : base + n * obj_size ≤ q) :
    thread obj_size n base word q = word q := by
  induction n generalizing base word with
  | zero => rfl
  | succ n ih =>
      rw [Nat.add_mul, Nat.one_mul] at above
      rw [thread, ih (by omega), update_of_ne (by omega)]

/-- The constructor of a chunk links its objects in the order of their addresses. -/
theorem links_thread (positive : 0 < obj_size) (ends : word (base + n * obj_size) = none) :
    Links (thread obj_size n base word) (some base)
      ((List.range (n + 1)).map fun i => base + i * obj_size) := by
  induction n generalizing base word with
  | zero =>
      rw [Nat.zero_mul] at ends
      simpa [Links, thread] using ends
  | succ n ih =>
      rw [range_succ_eq_map, map_cons, List.map_map]
      refine ⟨by rw [Nat.zero_mul, Nat.add_zero], ?_⟩
      rw [thread, Nat.zero_mul, Nat.add_zero, thread_of_lt (Nat.lt_add_of_pos_right positive),
        update_self]
      have shift : (fun i => base + i * obj_size) ∘ Nat.succ =
          fun i => base + obj_size + i * obj_size := by
        funext i
        rw [comp_apply, Nat.succ_mul, Nat.add_assoc, Nat.add_comm obj_size]
      rw [shift]
      refine ih ?_
      rw [Nat.add_mul, Nat.one_mul] at ends
      rw [update_of_ne (by omega), ← ends]
      congr 1
      omega

end Thread

/-! ## The invariants -/

/-- The chunks of the pool, in the order of their addresses. -/
structure Chunked (pool : MemPoolChunked ρ) (chunks : List ρ) : Prop where
  positive : 0 < pool.obj_size
  capacity : 0 < pool.chunk_capacity
  fits : pool.chunk_capacity * pool.obj_size ≤ pool.chunk_size
  linked : Links pool.next pool.Chunks chunks
  alive : ∀ c, pool.live c = true ↔ c ∈ chunks
  sorted : chunks.Pairwise fun a b => pool.objCache a + pool.chunk_size ≤ pool.objCache b
  tree_eq : pool.allChunks.toList = chunks
  bases : pool.arenas.Perm (chunks.map pool.objCache)
  count : pool.chunkCount = chunks.length

/-- Where the objects of the chunks are: an object that is neither allocated nor cached is free in
the list of its chunk. -/
structure Placed (pool : MemPoolChunked ρ) (chunks : List ρ) (free : ρ → List ℕ)
    (cache allocated : List ℕ) : Prop where
  listed : ∀ c ∈ chunks, Links pool.word (pool.freeList c) (free c)
  cached : Links pool.word pool.freeCache cache
  home : ∀ c ∈ chunks, ∀ obj ∈ free c, obj ∈ pool.objects c
  placed : ∀ c ∈ chunks, ∀ obj ∈ pool.objects c, obj ∈ free c ↔ obj ∉ allocated ∧ obj ∉ cache
  distinct : (allocated ++ cache).Nodup
  owned : ∀ obj ∈ allocated ++ cache, ∃ c ∈ chunks, obj ∈ pool.objects c
  counted : ∀ c ∈ chunks, pool.inuse_count c + (free c).length = pool.chunk_capacity

/-- The levels of the meter. -/
structure Metered (pool : MemPoolChunked ρ) (chunks : List ρ) (allocated : List ℕ) : Prop where
  idle : pool.idle + allocated.length = chunks.length * pool.chunk_capacity
  inuse : pool.inuse = allocated.length

/-- The chain of the chunks with free objects. -/
structure Chained (pool : MemPoolChunked ρ) (chunks : List ρ) (free : ρ → List ℕ)
    (chain : List ρ) : Prop where
  linked : Links pool.nextFree pool.nextFreeChunk chain
  mem_iff : ∀ c, c ∈ chain ↔ c ∈ chunks ∧ free c ≠ []

variable {chunks : List ρ} {free : ρ → List ℕ} {cache allocated : List ℕ}

theorem Chunked.nodup (chunked : Chunked pool chunks) : chunks.Nodup := chunked.linked.nodup

variable {idle inuse : ℤ} {nextFree : ρ → Option ρ} {nextFreeChunk : Option ρ} {word : ℕ → Option ℕ}

/-- The chunks do not depend on the lists of free objects. -/
theorem Chunked.relist (chunked : Chunked pool chunks) {freeCache : Option ℕ}
    {freeList : ρ → Option ℕ} {inuse_count lastref : ρ → ℤ} :
    Chunked { pool with
        freeCache := freeCache
        nextFreeChunk := nextFreeChunk
        idle := idle
        inuse := inuse
        freeList := freeList
        inuse_count := inuse_count
        nextFree := nextFree
        lastref := lastref
        word := word }
      chunks :=
  ⟨chunked.positive, chunked.capacity, chunked.fits, chunked.linked, chunked.alive,
    chunked.sorted, chunked.tree_eq, chunked.bases, chunked.count⟩

/-- The places of the objects do not depend on the links between the chunks. -/
theorem Placed.relink (placed : Placed pool chunks free cache allocated) {Chunks : Option ρ}
    {next : ρ → Option ρ} :
    Placed { pool with
        nextFreeChunk := nextFreeChunk
        Chunks := Chunks
        idle := idle
        inuse := inuse
        nextFree := nextFree
        next := next }
      chunks free cache allocated :=
  ⟨placed.listed, placed.cached, placed.home, placed.placed, placed.distinct, placed.owned,
    placed.counted⟩

/-- The arenas of two chunks are disjoint. -/
theorem Chunked.apart (chunked : Chunked pool chunks) (first : c ∈ chunks) (second : d ∈ chunks)
    (other : c ≠ d) : pool.objCache c + pool.chunk_size ≤ pool.objCache d ∨
      pool.objCache d + pool.chunk_size ≤ pool.objCache c := by
  let apart := fun a b => pool.objCache a + pool.chunk_size ≤ pool.objCache b ∨
    pool.objCache b + pool.chunk_size ≤ pool.objCache a
  have symmetric : Std.Symm apart := ⟨fun a b => Or.symm⟩
  have either : chunks.Pairwise apart := chunked.sorted.imp Or.inl
  exact either.forall first second other

theorem Chunked.range (chunked : Chunked pool chunks) (member : obj ∈ pool.objects c) :
    pool.objCache c ≤ obj ∧ obj < pool.objCache c + pool.chunk_size :=
  objects_range chunked.positive chunked.fits member

section

variable (chunked : Chunked pool chunks)
include chunked

/-- An address lies in the arena of one chunk only. -/
theorem Chunked.eq_of_range (first : c ∈ chunks) (second : d ∈ chunks)
    (inside : pool.objCache c ≤ obj ∧ obj < pool.objCache c + pool.chunk_size)
    (inside' : pool.objCache d ≤ obj ∧ obj < pool.objCache d + pool.chunk_size) : c = d := by
  by_contra other
  have := chunked.apart first second other
  omega

theorem Chunked.mapped (member : c ∈ chunks) (inside : obj ∈ pool.objects c) :
    pool.mapped obj = true := by
  rw [MemPoolChunked.mapped, List.any_eq_true]
  refine ⟨pool.objCache c, ?_, decide_eq_true (chunked.range inside)⟩
  exact chunked.bases.mem_iff.mpr (List.mem_map_of_mem member)

theorem Chunked.deref (member : c ∈ chunks) :
    pool.deref (some c) = some c := if_pos ((chunked.alive c).mpr member)

theorem Chunked.tree : pool.tree = some pool.allChunks := by
  refine if_pos (all_eq_true.mpr fun c member => (chunked.alive c).mpr ?_)
  rwa [chunked.tree_eq] at member

end

/-- The chunks have room for as many objects. -/
theorem length_flatMap_objects (chunks : List ρ) :
    (chunks.flatMap pool.objects).length = chunks.length * pool.chunk_capacity := by
  rw [length_flatMap, funext fun c => length_objects, map_const', sum_replicate_nat]

section

variable (placed : Placed pool chunks free cache allocated)
include placed

theorem Placed.bound :
    (allocated.length + cache.length : ℤ) ≤ chunks.length * pool.chunk_capacity := by
  rw [← Nat.cast_mul, ← length_flatMap_objects, ← Nat.cast_add, ← length_append, Int.ofNat_le]
  refine (subperm_of_subset placed.distinct fun obj member => ?_).length_le
  exact mem_flatMap.mpr (placed.owned obj member)

theorem Placed.free_nodup (member : c ∈ chunks) :
    (free c).Nodup := (placed.listed c member).nodup

/-- An object that is not in the list of its chunk is counted as in use. -/
theorem Placed.inuse_pos (member : c ∈ chunks) (inside : obj ∈ pool.objects c)
    (taken : obj ∉ free c) : 0 < pool.inuse_count c := by
  have room : (obj :: free c).length ≤ (pool.objects c).length := by
    refine (subperm_of_subset ?_ (cons_subset.mpr ⟨inside, ?_⟩)).length_le
    · exact nodup_cons.mpr ⟨taken, placed.free_nodup member⟩
    · exact placed.home c member
  rw [length_cons, length_objects] at room
  have := placed.counted c member
  omega

/-- The number of objects outside the list of the chunk. -/
theorem Placed.inuse_eq [DecidableEq ρ] (positive : 0 < pool.obj_size) (member : c ∈ chunks) :
    pool.inuse_count c = ((pool.objects c).filter fun obj => decide (obj ∉ free c)).length := by
  have inner : ((pool.objects c).filter fun obj => decide (obj ∈ free c)).Perm (free c) := by
    refine (perm_ext_iff_of_nodup ((objects_nodup positive).filter _)
      (placed.free_nodup member)).mpr fun obj => ?_
    rw [mem_filter, decide_eq_true_iff]
    exact and_iff_right_of_imp (placed.home c member obj)
  have sum := @length_eq_length_filter_add _ (pool.objects c)
    fun obj => decide (obj ∈ free c)
  rw [length_objects, inner.length_eq] at sum
  have := placed.counted c member
  simp only [decide_not]
  omega

end

/-- Writing the first word of an object changes no list that does not hold it. -/
theorem links_write {head : Option ℕ} {nodes : List ℕ} {value : Option ℕ}
    (links : Links word head nodes) (absent : obj ∉ nodes) :
    Links (update word obj value) head nodes := by
  refine links.congr fun q member => update_of_ne ?_ ..
  rintro rfl
  exact absent member

section

variable (placed : Placed pool chunks free cache allocated)
include placed

theorem Placed.not_free (member : c ∈ chunks) (taken : obj ∈ allocated ++ cache) :
    obj ∉ free c := by
  intro inside
  have outside := (placed.placed c member obj (placed.home c member obj inside)).mp inside
  rcases mem_append.mp taken with user | pooled
  · exact outside.1 user
  · exact outside.2 pooled

/-- An object that is free in the list of its chunk is nowhere else. -/
theorem Placed.not_taken (member : c ∈ chunks) (inside : obj ∈ free c) :
    obj ∉ allocated ∧ obj ∉ cache :=
  (placed.placed c member obj (placed.home c member obj inside)).mp inside

theorem Placed.not_free_elsewhere (chunked : Chunked pool chunks) (member : c ∈ chunks)
    (inside : obj ∈ pool.objects c) (elsewhere : d ∈ chunks) (other : d ≠ c) : obj ∉ free d := by
  intro again
  have range := chunked.range (placed.home d elsewhere obj again)
  exact other (chunked.eq_of_range elsewhere member range (chunked.range inside))

end

/-- The user of an object may write into it. -/
theorem Placed.store (placed : Placed pool chunks free cache allocated) (user : obj ∈ allocated)
    (value : Option ℕ) :
    Placed { pool with word := update pool.word obj value } chunks free cache
      allocated where
  listed c member :=
    links_write (placed.listed c member)
      (placed.not_free member (mem_append_left cache user))
  cached :=
    links_write placed.cached (disjoint_of_nodup_append placed.distinct user)
  home := placed.home
  placed := placed.placed
  distinct := placed.distinct
  owned := placed.owned
  counted := placed.counted

end MemPoolChunked

end Squid.Base
