import Squid.Base.MemPoolClean

/-!
# Runs of a chunked pool

Any sequence of calls keeps every object of every chunk in exactly one place.
-/

namespace Squid.Base

open LinkedList List

namespace MemPoolChunked

variable {ρ : Type} {pool : MemPoolChunked ρ} {c d : ρ} {obj : ℕ} {chunks chain : List ρ}
  {free : ρ → List ℕ} {cache allocated : List ℕ}

/-! ## Pools without chunks -/

/-- A pool without chunks. -/
structure Pristine (pool : MemPoolChunked ρ) : Prop where
  positive : 0 < pool.obj_size
  listed : pool.Chunks = none
  alive : ∀ c, pool.live c = false
  tree_eq : pool.allChunks.toList = []
  bases : pool.arenas = []
  count : pool.chunkCount = 0
  cached : pool.freeCache = none
  chained : pool.nextFreeChunk = none
  idle : pool.idle = 0
  inuse : pool.inuse = 0

/-- `setChunkSize` chooses sizes that leave room for an object. -/
theorem Pristine.setChunkSize (pristine : Pristine pool) (chunksize : ℕ) (free : ρ → List ℕ) :
    Intact (pool.setChunkSize chunksize) [] free [] [] [] ∧
      Metered (pool.setChunkSize chunksize) [] [] := by
  rw [MemPoolChunked.setChunkSize, pristine.listed]
  dsimp only
  generalize capacity : (if _ < 1 then 1 else _ : ℕ) = cap
  have some_object : 1 ≤ cap := by
    split_ifs at capacity <;> omega
  have whole : 1 * pool.obj_size ≤ cap * pool.obj_size := Nat.mul_le_mul_right _ some_object
  refine ⟨⟨⟨pristine.positive, Nat.div_pos ?_ pristine.positive, Nat.div_mul_le_self _ _,
    rfl, fun c => ?_, List.Pairwise.nil, pristine.tree_eq, ?_, pristine.count⟩,
    ⟨?_, pristine.cached, ?_, ?_, nodup_nil, ?_, ?_⟩, pristine.chained, fun c => ?_⟩,
    ?_, pristine.inuse⟩
  · omega
  · dsimp only
    rw [pristine.alive]
    exact iff_of_false Bool.false_ne_true not_mem_nil
  · dsimp only
    rw [pristine.bases]
    exact List.Perm.nil
  all_goals simp [pristine.idle]

/-- `setChunkSize` does not tamper with a pool that has chunks. -/
theorem setChunkSize_spec (intact : Intact pool chunks free cache chain allocated)
    (metered : Metered pool chunks allocated) (chunksize : ℕ) :
    Intact (pool.setChunkSize chunksize) chunks free cache chain allocated ∧
      Metered (pool.setChunkSize chunksize) chunks allocated := by
  obtain ⟨chunked, placed, chained⟩ := intact
  have head := chunked.linked.head_eq
  cases chunks with
  | cons first back =>
      rw [setChunkSize, head]
      exact ⟨⟨chunked, placed, chained⟩, metered⟩
  | nil =>
      have taken : allocated ++ cache = [] :=
        eq_nil_iff_forall_not_mem.mpr fun obj member => by
          obtain ⟨c, none_known, -⟩ := placed.owned obj member
          cases none_known
      obtain ⟨rfl, rfl⟩ := append_eq_nil_iff.mp taken
      have no_chain : chain = [] :=
        eq_nil_iff_forall_not_mem.mpr fun c member => by
          cases ((chained.mem_iff c).mp member).1
      subst no_chain
      have no_arena : pool.arenas = [] := perm_nil.mp chunked.bases
      refine Pristine.setChunkSize ⟨chunked.positive, head, fun c => ?_, chunked.tree_eq, no_arena,
        chunked.count, placed.cached, chained.linked, ?_, metered.inuse⟩ chunksize free
      · rw [← Bool.not_eq_true, chunked.alive]
        exact not_mem_nil
      · simpa using metered.idle

/-! ## Runs -/

/-- A pool with the objects that its users hold. -/
structure Run (ρ : Type) where
  pool : MemPoolChunked ρ
  allocated : List ℕ

/-- The calls on a pool, each with the clock, or what the user of an object writes into it.  A chunk
that has to be created comes at the address `newChunk` with the arena at `base`. -/
inductive Call (ρ : Type) where
  | setChunkSize (chunksize : ℕ)
  | allocate (squid_curtime : ℤ) (newChunk : ρ) (base : ℕ)
  | deallocate (obj : ℕ)
  | clean (squid_curtime maxage : ℤ)
  | store (obj : ℕ) (value : Option ℕ)

variable [DecidableEq ρ]

/-- One call; it fails at an assertion or an access outside the memory of the pool. -/
def Run.step (run : Run ρ) : Call ρ → Option (Run ρ)
  | .setChunkSize chunksize => some { run with pool := run.pool.setChunkSize chunksize }
  | .allocate squid_curtime newChunk base =>
      (run.pool.allocate squid_curtime newChunk base).map fun (obj, pool) =>
        ⟨pool, obj :: run.allocated⟩
  | .deallocate obj =>
      (run.pool.deallocate obj).map fun pool => ⟨pool, run.allocated.erase obj⟩
  | .clean squid_curtime maxage =>
      (run.pool.clean squid_curtime maxage).map fun pool => { run with pool := pool }
  | .store obj value => (run.pool.write obj value).map fun pool => { run with pool := pool }

/-- Users deallocate and write what they hold, and a new chunk lies in unused memory. -/
def Run.Proper (run : Run ρ) : Call ρ → Prop
  | .allocate _ newChunk base => run.pool.Available newChunk base
  | .deallocate obj | .store obj _ => obj ∈ run.allocated
  | .setChunkSize _ | .clean _ _ => True

omit [DecidableEq ρ] in
/-- Whether a call is proper can be tested. -/
instance Run.Proper.decidable (run : Run ρ) : ∀ call, Decidable (run.Proper call)
  | .allocate _ _ _ => inferInstanceAs (Decidable (_ ∧ _))
  | .deallocate _ | .store _ _ => inferInstanceAs (Decidable (_ ∈ _))
  | .setChunkSize _ | .clean _ _ => .isTrue trivial

omit [DecidableEq ρ] in
/-- The pool at the start, with the allocated objects of nobody. -/
theorem pristine_create {obj_size : ℕ} (positive : 0 < obj_size) (freeList : ρ → Option ℕ)
    (objCache : ρ → ℕ) (inuse_count : ρ → ℤ) (nextFree next : ρ → Option ρ) (lastref : ρ → ℤ)
    (word : ℕ → Option ℕ) :
    Intact (create obj_size freeList objCache inuse_count nextFree next lastref word) []
        (fun _ => []) [] [] [] ∧
      Metered (create obj_size freeList objCache inuse_count nextFree next lastref word) [] [] :=
  Pristine.setChunkSize ⟨positive, rfl, fun _ => rfl, rfl, rfl, rfl, rfl, rfl, rfl, rfl⟩ _ _

/-- A call keeps the invariants. -/
theorem step_spec {run : Run ρ} (intact : Intact run.pool chunks free cache chain run.allocated)
    (metered : Metered run.pool chunks run.allocated) {call : Call ρ} (ok : run.Proper call) :
    ∃ run' chunks' free' cache' chain', run.step call = some run' ∧
      Intact run'.pool chunks' free' cache' chain' run'.allocated ∧
      Metered run'.pool chunks' run'.allocated := by
  cases call with
  | setChunkSize chunksize =>
      have kept := setChunkSize_spec intact metered chunksize
      exact ⟨_, chunks, free, cache, chain, rfl, kept.1, kept.2⟩
  | allocate squid_curtime newChunk base =>
      obtain ⟨obj, pool', chunks', free', cache', chain', taken, intact', metered'⟩ :=
        allocate_spec intact metered ok squid_curtime
      exact ⟨⟨pool', obj :: run.allocated⟩, chunks', free', cache', chain',
        by rw [Run.step, taken, Option.map_some], intact', metered'⟩
  | deallocate obj =>
      obtain ⟨pool', given, intact', metered'⟩ := deallocate_spec intact metered ok
      exact ⟨⟨pool', run.allocated.erase obj⟩, chunks, free, obj :: cache, chain,
        by rw [Run.step, given, Option.map_some], intact', metered'⟩
  | clean squid_curtime maxage =>
      obtain ⟨pool', chunks', free', cache', chain', cleaned, intact', metered', -, -⟩ :=
        clean_spec intact metered squid_curtime maxage
      exact ⟨{ run with pool := pool' }, chunks', free', cache', chain',
        by rw [Run.step, cleaned, Option.map_some], intact', metered'⟩
  | store obj value =>
      obtain ⟨c, member, inside⟩ := intact.placed.owned obj (mem_append_left cache ok)
      have mapped := intact.chunked.mapped member inside
      exact ⟨{ run with pool := { run.pool with
          word := Function.update run.pool.word obj value } }, chunks, free, cache, chain,
        by rw [Run.step, write_eq mapped, Option.map_some],
        ⟨intact.chunked.relist, intact.placed.store ok value, intact.chained.linked,
          intact.chained.mem_iff⟩, metered.idle, metered.inuse⟩

/-- Every run of calls succeeds and keeps the invariants. -/
theorem exec_spec {run : Run ρ} {calls : List (Call ρ)}
    (intact : Intact run.pool chunks free cache chain run.allocated)
    (metered : Metered run.pool chunks run.allocated)
    (ok : LabelledRun.Allowed Run.step Run.Proper run calls) :
    ∃ run' chunks' free' cache' chain', LabelledRun.exec Run.step run calls = some run' ∧
      Intact run'.pool chunks' free' cache' chain' run'.allocated ∧
      Metered run'.pool chunks' run'.allocated := by
  induction calls generalizing run chunks free cache chain with
  | nil => exact ⟨run, chunks, free, cache, chain, rfl, intact, metered⟩
  | cons call calls ih =>
      obtain ⟨middle, chunks₁, free₁, cache₁, chain₁, taken, intact₁, metered₁⟩ :=
        step_spec intact metered ok.1
      rw [LabelledRun.exec_cons, taken, Option.bind_some]
      exact ih intact₁ metered₁ (ok.2 middle taken)

/-- Every object of the chunks is in exactly one place, and what the chunks record about their
objects is true. -/
structure Kept (pool : MemPoolChunked ρ) (allocated : List ℕ) (chunks : List ρ)
    (free : ρ → List ℕ) (cache : List ℕ) (chain : List ρ) : Prop where
  alive : ∀ c, pool.live c = true ↔ c ∈ chunks
  cached : Links pool.word pool.freeCache cache
  listed : ∀ c ∈ chunks, Links pool.word (pool.freeList c) (free c)
  distinct : allocated.Nodup
  owned : ∀ obj ∈ allocated ++ cache, ∃ c ∈ chunks, obj ∈ pool.objects c
  home : ∀ c ∈ chunks, ∀ obj ∈ free c, obj ∈ pool.objects c
  apart : ∀ c ∈ chunks, ∀ d ∈ chunks, c ≠ d → (pool.objects c).Disjoint (pool.objects d)
  once : ∀ c ∈ chunks, ∀ obj ∈ pool.objects c, (allocated ++ cache ++ free c).count obj = 1
  counted : ∀ c ∈ chunks, pool.inuse_count c =
    ((pool.objects c).filter fun obj => decide (obj ∉ free c)).length
  chained : Links pool.nextFree pool.nextFreeChunk chain
  chain_nodup : chain.Nodup
  mem_chain_iff : ∀ c, c ∈ chain ↔ c ∈ chunks ∧ pool.freeList c ≠ none

theorem Intact.kept (intact : Intact pool chunks free cache chain allocated) :
    Kept pool allocated chunks free cache chain := by
  obtain ⟨chunked, placed, chained⟩ := intact
  refine ⟨chunked.alive, placed.cached, placed.listed, List.Nodup.of_append_left placed.distinct,
    placed.owned, placed.home, fun c first d second other obj inside inside' => ?_,
    fun c member obj inside => ?_, fun c member => placed.inuse_eq chunked.positive member,
    chained.linked, chained.linked.nodup, fun c => ?_⟩
  · exact other (chunked.eq_of_range first second (chunked.range inside)
      (chunked.range inside'))
  · have disjoint : (allocated ++ cache).Disjoint (free c) :=
      fun q taken listed => placed.not_free member taken listed
    refine count_eq_one_of_mem
      (placed.distinct.append (placed.free_nodup member) disjoint) ?_
    have where_it_is := placed.placed c member obj inside
    simp only [mem_append]
    tauto
  · rw [chained.mem_iff]
    refine and_congr_right fun member => not_congr ?_
    rw [(placed.listed c member).head_eq, List.head?_eq_none_iff]

/-- No object is handed out twice: after any run of calls every object of every chunk is in exactly
one place, the next call succeeds, `allocate` returns an object that is not allocated, and `clean`
deletes no chunk with an allocated object. -/
theorem chunked_pool {obj_size : ℕ} (positive : 0 < obj_size) (freeList : ρ → Option ℕ)
    (objCache : ρ → ℕ) (inuse_count : ρ → ℤ) (nextFree next : ρ → Option ρ) (lastref : ρ → ℤ)
    (word : ℕ → Option ℕ) (calls : List (Call ρ))
    (ok : LabelledRun.Allowed Run.step Run.Proper
      ⟨create obj_size freeList objCache inuse_count nextFree next lastref word, []⟩ calls) :
    ∃ run chunks free cache chain,
      LabelledRun.exec Run.step
        ⟨create obj_size freeList objCache inuse_count nextFree next lastref word, []⟩ calls =
        some run ∧
      Kept run.pool run.allocated chunks free cache chain ∧
      (∀ squid_curtime newChunk base, run.pool.Available newChunk base →
        ∃ obj pool, run.pool.allocate squid_curtime newChunk base = some (obj, pool) ∧
          obj ∉ run.allocated) ∧
      (∀ obj ∈ run.allocated, run.pool.deallocate obj ≠ none) ∧
      ∀ squid_curtime maxage, ∃ pool, run.pool.clean squid_curtime maxage = some pool ∧
        ∀ c ∈ chunks, (∃ obj ∈ run.allocated, obj ∈ run.pool.objects c) → pool.live c = true := by
  have start := pristine_create positive freeList objCache inuse_count nextFree next lastref word
  obtain ⟨run, chunks, free, cache, chain, result, intact, metered⟩ :=
    exec_spec start.1 start.2 ok
  refine ⟨run, chunks, free, cache, chain, result, intact.kept,
    fun squid_curtime newChunk base available => ?_, fun obj user => ?_,
    fun squid_curtime maxage => ?_⟩
  · obtain ⟨obj, pool', chunks', free', cache', chain', taken, intact', -⟩ :=
      allocate_spec intact metered available squid_curtime
    have distinct := List.Nodup.of_append_left intact'.placed.distinct
    exact ⟨obj, pool', taken, (nodup_cons.mp distinct).1⟩
  · obtain ⟨pool', given, -⟩ := deallocate_spec intact metered user
    rw [given]
    exact Option.some_ne_none pool'
  · obtain ⟨pool', chunks', free', cache', chain', cleaned, intact', -, shape, sublist⟩ :=
      clean_spec intact metered squid_curtime maxage
    refine ⟨pool', cleaned, fun c member ⟨obj, user, inside⟩ => ?_⟩
    obtain ⟨d, kept, owner⟩ := intact'.placed.owned obj (mem_append_left cache' user)
    rw [shape.objects] at owner
    have same := intact.chunked.eq_of_range member (sublist.subset kept)
      (intact.chunked.range inside) (intact.chunked.range owner)
    rw [same]
    exact (intact'.chunked.alive d).mpr kept

/-- A pool with two objects to a chunk. -/
def emptyPool : Run ℕ :=
  ⟨create 131072 (fun _ => none) (fun _ => 0) (fun _ => 0) (fun _ => none) (fun _ => none)
    (fun _ => 0) fun _ => none, []⟩

/-- Three objects, of which the second and the third are given back, and two cleanings. -/
def poolSample : List (Call ℕ) :=
  [.allocate 10 1 4096, .allocate 10 2 1000000, .allocate 10 2 1000000, .store 135168 none,
    .deallocate 135168, .deallocate 1000000, .clean 100 50,
    .clean 200 50]

/-- The second cleaning deletes the second chunk. -/
theorem chunked_pool_sample :
    (LabelledRun.exec Run.step emptyPool (poolSample.take 7)).map (·.pool.live 2) = some true ∧
    ∃ run chunks free cache chain, LabelledRun.exec Run.step emptyPool poolSample = some run ∧
      Kept run.pool run.allocated chunks free cache chain ∧
      run.allocated = [4096] ∧ run.pool.live 1 = true ∧ run.pool.live 2 = false := by
  have ok : LabelledRun.Allowed Run.step Run.Proper emptyPool poolSample := by decide +kernel
  obtain ⟨run, chunks, free, cache, chain, result, kept, -⟩ :=
    chunked_pool (by decide) _ _ _ _ _ _ _ poolSample ok
  have left : (LabelledRun.exec Run.step emptyPool poolSample).map (fun run =>
      (run.allocated, run.pool.live 1, run.pool.live 2)) = some ([4096], true, false) := by
    decide +kernel
  rw [show LabelledRun.exec Run.step emptyPool poolSample = _ from result] at left
  simp only [Option.map_some, Option.some.injEq, Prod.mk.injEq] at left
  exact ⟨by decide +kernel, run, chunks, free, cache, chain, result, kept, left⟩

end MemPoolChunked

end Squid.Base
