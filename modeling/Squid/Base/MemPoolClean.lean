import Squid.Base.MemPoolCalls
import Squid.Library.LabelledRun

/-!
# Cleaning a chunked pool

`clean` moves the cached objects back to their chunks, deletes chunks that are not in use, and
rebuilds the chain of the chunks with free objects.
-/

namespace Squid.Base

open LinkedList List Option Function

namespace MemPoolChunked

variable {ρ : Type} {pool : MemPoolChunked ρ} {c : ρ} {obj : ℕ} {chunks chain back : List ρ}
  {free : ρ → List ℕ} {cache allocated rest : List ℕ} {squid_curtime maxage : ℤ}

/-! ## Returning the cache -/

theorem memCompObjChunks_eq_zero_iff : pool.memCompObjChunks obj c = 0 ↔
    pool.objCache c ≤ obj ∧ obj < pool.objCache c + pool.chunk_size := by
  rw [memCompObjChunks]
  split_ifs with below inside
  · exact iff_of_false (by decide) fun range => by omega
  · exact iff_of_true rfl ⟨Nat.not_lt.mp below, inside⟩
  · exact iff_of_false (by decide) fun range => inside range.2

theorem consistent_memCompObjChunks (sorted : chunks.Pairwise fun a b =>
    pool.objCache a + pool.chunk_size ≤ pool.objCache b) :
    SplayNode.Consistent (pool.memCompObjChunks obj) chunks := by
  refine sorted.imp fun order => ?_
  simp only [memCompObjChunks]
  constructor
  · intro first
    split_ifs at first ⊢ <;> omega
  · intro first
    split_ifs at first ⊢ <;> omega

/-- The chunk of an object is found. -/
theorem Chunked.find (chunked : Chunked pool chunks) (member : c ∈ chunks)
    (inside : obj ∈ pool.objects c) :
    ∃ allChunks, pool.allChunks.find (pool.memCompObjChunks obj) = (some c, allChunks) ∧
      allChunks.toList = chunks := by
  have range := chunked.range inside
  have consistent : SplayNode.Consistent (pool.memCompObjChunks obj) pool.allChunks.toList := by
    rw [chunked.tree_eq]
    exact consistent_memCompObjChunks chunked.sorted
  obtain ⟨values, -, found⟩ := Splay.find_spec consistent
  rw [chunked.tree_eq] at values found
  generalize pool.allChunks.find (pool.memCompObjChunks obj) = result at values found ⊢
  obtain ⟨_ | d, allChunks⟩ := result
  · exact absurd (memCompObjChunks_eq_zero_iff.mpr range) (found c member)
  · have within := memCompObjChunks_eq_zero_iff.mp found.2
    rw [chunked.eq_of_range found.1 member within range]
    exact ⟨allChunks, rfl, values⟩

variable [DecidableEq ρ]

/-- An object of the cache goes to the list of its chunk. -/
theorem Placed.put (placed : Placed pool chunks free (obj :: cache) allocated)
    (chunked : Chunked pool chunks) (member : c ∈ chunks) (inside : obj ∈ pool.objects c)
    (lastref : ρ → ℤ) (allChunks : Splay ρ) :
    Placed { pool with
        allChunks := allChunks
        inuse_count := update pool.inuse_count c (pool.inuse_count c - 1)
        freeCache := pool.word obj
        word := update pool.word obj (pool.freeList c)
        freeList := update pool.freeList c (some obj)
        lastref := lastref }
      chunks (update free c (obj :: free c)) cache allocated := by
  have pooled := nodup_cons.mp placed.cached.nodup
  have unlisted {d : ρ} (known : d ∈ chunks) : obj ∉ free d := placed.not_free known (by simp)
  have distinct := perm_middle.nodup_iff.mp placed.distinct
  constructor
  case listed =>
    intro d known
    by_cases same : d = c
    · subst same
      simp only [update_self]
      refine ⟨rfl, ?_⟩
      rw [update_self]
      exact links_write (placed.listed d known) (unlisted known)
    · simp only [update_of_ne same]
      exact links_write (placed.listed d known) (unlisted known)
  case cached => exact links_write placed.cached.2 pooled.1
  case home =>
    intro d known q listed
    by_cases same : d = c
    · subst same
      rw [update_self] at listed
      rcases mem_cons.mp listed with rfl | earlier
      · exact inside
      · exact placed.home d known q earlier
    · rw [update_of_ne same] at listed
      exact placed.home d known q listed
  case placed =>
    intro d known q within
    have before := placed.placed d known q within
    rw [mem_cons] at before
    by_cases same : d = c
    · subst same
      rw [update_self, mem_cons, before]
      by_cases moved : q = obj
      · subst moved
        have user : q ∉ allocated := fun user =>
          (nodup_cons.mp distinct).1 (mem_append_left cache user)
        tauto
      · tauto
    · have other : q ≠ obj := by
        rintro rfl
        exact same (chunked.eq_of_range known member (chunked.range within)
          (chunked.range inside))
      rw [update_of_ne same, before]
      tauto
  case distinct => exact (nodup_cons.mp distinct).2
  case owned =>
    intro q taken
    exact placed.owned q (perm_middle.mem_iff.mpr (mem_cons_of_mem obj taken))
  case counted =>
    intro d known
    have before := placed.counted d known
    by_cases same : d = c
    · subst same
      simp only [update_self, length_cons]
      omega
    · simp only [update_of_ne same]
      exact before

/-- A turn of the loop moves the head of the cache; its assertions hold. -/
theorem returnToChunk_spec (chunked : Chunked pool chunks)
    (placed : Placed pool chunks free (obj :: cache) allocated)
    (metered : Metered pool chunks allocated) (squid_curtime : ℤ) :
    ∃ pool' free', pool.returnToChunk squid_curtime obj = some pool' ∧ Chunked pool' chunks ∧
      Placed pool' chunks free' cache allocated ∧ Metered pool' chunks allocated ∧
      SameShape pool pool' := by
  obtain ⟨c, member, inside⟩ := placed.owned obj (by simp)
  obtain ⟨allChunks, found, values⟩ := chunked.find member inside
  have mapped := chunked.mapped member inside
  have used := placed.inuse_pos member inside (placed.not_free member (by simp))
  refine ⟨_, _, ?_, ?_, placed.put chunked member inside
    (update pool.lastref c squid_curtime) allChunks, ⟨metered.idle, metered.inuse⟩,
    ⟨rfl, rfl, rfl, rfl⟩⟩
  · simp only [returnToChunk, chunked.tree, bind_eq_bind, bind_some, found,
      if_pos used, read_eq mapped]
    rw [write_eq (by exact mapped), bind_some]
  · exact ⟨chunked.positive, chunked.capacity, chunked.fits, chunked.linked, chunked.alive,
      chunked.sorted, values, chunked.bases, chunked.count⟩

variable {turns : ℕ}

/-- `convertFreeCacheToChunkFreeCache` empties the cache. -/
theorem convert_spec (chunked : Chunked pool chunks)
    (placed : Placed pool chunks free cache allocated) (metered : Metered pool chunks allocated)
    (enough : cache.length ≤ turns) (squid_curtime : ℤ) :
    ∃ pool' free', pool.convertFreeCacheToChunkFreeCache squid_curtime turns = some pool' ∧
      Chunked pool' chunks ∧ Placed pool' chunks free' [] allocated ∧
      Metered pool' chunks allocated ∧ SameShape pool pool' := by
  induction cache generalizing pool free turns with
  | nil =>
      refine ⟨pool, free, ?_, chunked, placed, metered, SameShape.refl pool⟩
      rw [convertFreeCacheToChunkFreeCache.eq_def]
      dsimp only
      rw [placed.cached.head_eq]
      rfl
  | cons obj cache ih =>
      obtain ⟨middle, free₁, moved, chunked₁, placed₁, metered₁, shape₁⟩ :=
        returnToChunk_spec chunked placed metered squid_curtime
      cases turns with
      | zero => exact absurd enough (Nat.not_succ_le_zero _)
      | succ turns =>
          obtain ⟨pool', free', run, chunked', placed', metered', shape'⟩ :=
            ih chunked₁ placed₁ metered₁ (Nat.le_of_succ_le_succ enough)
          refine ⟨pool', free', ?_, chunked', placed', metered', shape₁.trans shape'⟩
          rw [convertFreeCacheToChunkFreeCache.eq_def]
          dsimp only
          rw [placed.cached.head_eq]
          dsimp only [List.head?_cons]
          rw [moved, bind_eq_bind, bind_some, run]

/-! ## Releasing chunks -/

omit [DecidableEq ρ] in
/-- All objects of a chunk that is not in use are in its list. -/
theorem Placed.mem_free (placed : Placed pool chunks free cache allocated)
    (member : c ∈ chunks) (unused : pool.inuse_count c = 0) (inside : obj ∈ pool.objects c) :
    obj ∈ free c := by
  have full := placed.counted c member
  have all : (free c).Perm (pool.objects c) := by
    refine List.Subperm.perm_of_length_le (subperm_of_subset (placed.free_nodup member)
      (placed.home c member)) ?_
    rw [length_objects]
    omega
  exact all.mem_iff.mpr inside

section Deletion

variable {f : ρ} {front : List ρ} {allChunks : Splay ρ} {next nextFree : ρ → Option ρ}
  {alloc idle : ℤ}

/-- The pool without one of its chunks. -/
theorem Chunked.shrink (chunked : Chunked pool (front ++ f :: back))
    (links : Links next pool.Chunks (front ++ back)) (values : allChunks.toList = front ++ back) :
    Chunked { pool with
        next := next
        nextFree := nextFree
        alloc := alloc
        idle := idle
        chunkCount := pool.chunkCount - 1
        allChunks := allChunks
        arenas := pool.arenas.erase (pool.objCache f)
        live := update pool.live f false }
      (front ++ back) := by
  have sublist : (front ++ back).Sublist (front ++ f :: back) :=
    (sublist_cons_self f back).append_left front
  have distinct := perm_middle.nodup_iff.mp chunked.nodup
  have moves : (front ++ f :: back).Perm (f :: (front ++ back)) := perm_middle
  constructor
  case positive => exact chunked.positive
  case capacity => exact chunked.capacity
  case fits => exact chunked.fits
  case linked => exact links
  case alive =>
    intro c
    dsimp only
    by_cases same : c = f
    · subst same
      rw [update_self]
      exact iff_of_false Bool.false_ne_true (nodup_cons.mp distinct).1
    · rw [update_of_ne same, chunked.alive, moves.mem_iff, mem_cons]
      exact or_iff_right same
  case sorted => exact chunked.sorted.sublist sublist
  case tree_eq => exact values
  case bases =>
    have arenas := chunked.bases.trans (moves.map pool.objCache)
    rw [map_cons] at arenas
    have erased := arenas.erase (pool.objCache f)
    rwa [erase_cons_head] at erased
  case count =>
    have count := chunked.count
    rw [moves.length_eq, length_cons] at count
    dsimp only
    rw [count]
    omega

variable {arenas : List ℕ} {chunkCount : ℤ} {live : ρ → Bool}

omit [DecidableEq ρ] in
/-- The objects of a chunk that is not in use go with it. -/
theorem Placed.shrink (placed : Placed pool (front ++ f :: back) free cache allocated)
    (unused : pool.inuse_count f = 0) :
    Placed { pool with
        next := next
        nextFree := nextFree
        alloc := alloc
        idle := idle
        chunkCount := chunkCount
        allChunks := allChunks
        arenas := arenas
        live := live }
      (front ++ back) free cache allocated := by
  have moves : (front ++ f :: back).Perm (f :: (front ++ back)) := perm_middle
  have known {c : ρ} (member : c ∈ front ++ back) : c ∈ front ++ f :: back :=
    moves.mem_iff.mpr (mem_cons_of_mem f member)
  refine ⟨fun c member => placed.listed c (known member), placed.cached,
    fun c member => placed.home c (known member), fun c member => placed.placed c (known member),
    placed.distinct, fun obj taken => ?_, fun c member => placed.counted c (known member)⟩
  obtain ⟨c, member, inside⟩ := placed.owned obj taken
  rcases mem_cons.mp (moves.mem_iff.mp member) with rfl | kept
  · exact absurd (placed.mem_free member unused inside) (placed.not_free member taken)
  · exact ⟨c, kept, inside⟩

omit [DecidableEq ρ] in
theorem Metered.shrink (metered : Metered pool (front ++ f :: back) allocated) :
    Metered { pool with
        next := next
        nextFree := nextFree
        alloc := alloc
        idle := pool.idle - pool.chunk_capacity
        chunkCount := chunkCount
        allChunks := allChunks
        arenas := arenas
        live := live }
      (front ++ back) allocated := by
  refine ⟨?_, metered.inuse⟩
  have idle := metered.idle
  rw [perm_middle.length_eq, length_cons] at idle
  push_cast at idle ⊢
  rw [add_mul, one_mul] at idle
  omega

/-- A chunk that was taken out of the list is deleted. -/
theorem deleteChunk_eq (chunked : Chunked pool (front ++ f :: back)) (next : ρ → Option ρ)
    (nextFree : ρ → Option ρ) :
    ∃ allChunks, ({ pool with next := next, nextFree := nextFree } :
        MemPoolChunked ρ).deleteChunk f = some { pool with
          next := next
          nextFree := nextFree
          alloc := pool.alloc - pool.chunk_capacity
          idle := pool.idle - pool.chunk_capacity
          chunkCount := pool.chunkCount - 1
          allChunks := allChunks
          arenas := pool.arenas.erase (pool.objCache f)
          live := update pool.live f false } ∧
      allChunks.toList = front ++ back := by
  have size := chunked.chunk_size_pos
  have sorted := chunked.sorted
  rw [pairwise_append, pairwise_cons] at sorted
  have zero : pool.memCompChunks f f = 0 := by
    rw [memCompChunks, if_neg (Nat.lt_irrefl _), if_neg (Nat.lt_irrefl _)]
  obtain ⟨allChunks, removed, values, -⟩ := Splay.remove_spec chunked.tree_eq zero
    (fun c member => by
      have order := sorted.2.2 c member f mem_cons_self
      rw [memCompChunks_pos_iff]
      omega)
    fun c member => by
      have order := sorted.2.1.1 c member
      rw [memCompChunks_neg_iff]
      omega
  refine ⟨allChunks, ?_, values⟩
  have tree : ({ pool with next := next, nextFree := nextFree } : MemPoolChunked ρ).tree =
      some pool.allChunks := chunked.tree
  have compare : ({ pool with next := next, nextFree := nextFree } :
      MemPoolChunked ρ).memCompChunks f = pool.memCompChunks f := rfl
  rw [deleteChunk, tree, bind_eq_bind, bind_some, compare, removed]
  rfl

end Deletion

variable {front : List ρ}

/-- A turn deletes the chunk behind or keeps it. -/
theorem releaseBehind_spec {f : ρ} (chunked : Chunked pool (front ++ c :: f :: back))
    (placed : Placed pool (front ++ c :: f :: back) free cache allocated)
    (metered : Metered pool (front ++ c :: f :: back) allocated) (squid_curtime maxage : ℤ) :
    ∃ pool' kept, pool.releaseBehind squid_curtime maxage c f = some pool' ∧
      kept.Sublist (f :: back) ∧ back.Sublist kept ∧ Chunked pool' (front ++ c :: kept) ∧
      Placed pool' (front ++ c :: kept) free cache allocated ∧
      Metered pool' (front ++ c :: kept) allocated ∧ SameShape pool pool' := by
  rw [releaseBehind]
  dsimp only
  split_ifs with release
  · have links := chunked.linked.remove
    have order : front ++ c :: f :: back = front ++ [c] ++ f :: back := append_cons ..
    rw [order] at chunked placed metered
    obtain ⟨allChunks, deleted, values⟩ := deleteChunk_eq chunked
      (update pool.next c (pool.next f)) (update pool.nextFree f none)
    rw [append_cons] at links
    refine ⟨_, back, deleted, sublist_cons_self f back, List.Sublist.refl back, ?_, ?_, ?_,
      ⟨rfl, rfl, rfl, rfl⟩⟩
    · rw [append_cons]
      exact chunked.shrink links values
    · rw [append_cons]
      exact placed.shrink release.1
    · rw [append_cons]
      exact metered.shrink
  · exact ⟨_, f :: back, rfl, List.Sublist.refl _, sublist_cons_self f back,
      chunked.relist, placed.relink, ⟨metered.idle, metered.inuse⟩, ⟨rfl, rfl, rfl, rfl⟩⟩

/-- The first loop of `clean` only deletes chunks that are not in use. -/
theorem releaseLoop_spec (chunked : Chunked pool (front ++ c :: back))
    (placed : Placed pool (front ++ c :: back) free cache allocated)
    (metered : Metered pool (front ++ c :: back) allocated) (enough : back.length < turns)
    (squid_curtime maxage : ℤ) :
    ∃ pool' kept, pool.releaseLoop squid_curtime maxage turns c = some pool' ∧
      kept.Sublist back ∧ Chunked pool' (front ++ c :: kept) ∧
      Placed pool' (front ++ c :: kept) free cache allocated ∧
      Metered pool' (front ++ c :: kept) allocated ∧ SameShape pool pool' := by
  induction turns generalizing pool front c back with
  | zero => exact absurd enough (Nat.not_lt_zero _)
  | succ turns ih =>
      rw [releaseLoop]
      have head := chunked.linked.behind.head_eq
      cases back with
      | nil =>
          rw [head]
          exact ⟨pool, [], rfl, List.Sublist.refl [], chunked, placed, metered,
            SameShape.refl pool⟩
      | cons f back =>
          obtain ⟨middle, kept, turn, shorter, -, chunked₁, placed₁, metered₁, shape₁⟩ :=
            releaseBehind_spec chunked placed metered squid_curtime maxage
          have next := chunked₁.linked.behind.head_eq
          have reached : pool.deref (some f) = some f := chunked.deref (by simp)
          simp only [head, List.head?_cons, reached, bind_eq_bind, bind_some, turn, next]
          cases kept with
          | nil =>
              exact ⟨middle, [], rfl, nil_sublist _, chunked₁, placed₁, metered₁, shape₁⟩
          | cons d kept =>
              have fewer := shorter.length_le
              rw [length_cons] at fewer enough
              have alive := chunked₁.deref (c := d) (by simp)
              rw [append_cons] at chunked₁ placed₁ metered₁
              obtain ⟨pool', later, run, sublist, chunked', placed', metered', shape'⟩ :=
                ih chunked₁ placed₁ metered₁
                  (by rw [length_cons] at fewer; omega)
              rw [← append_cons] at chunked' placed' metered'
              simp only [List.head?_cons, alive, bind_some]
              exact ⟨pool', d :: later, run, (sublist.cons_cons d).trans shorter, chunked',
                placed', metered', shape₁.trans shape'⟩

/-! ## Rebuilding the chain -/

omit [DecidableEq ρ] in
/-- The place in the chain is behind one of its chunks. -/
theorem findTail_spec {chunk t : ρ} (links : Links pool.nextFree (some t) (t :: chain))
    (alive : ∀ d ∈ chain, pool.live d = true) (enough : chain.length < turns) :
    ∃ front q back, t :: chain = front ++ q :: back ∧ pool.findTail chunk turns t = some q := by
  induction turns generalizing t chain with
  | zero => exact absurd enough (Nat.not_lt_zero _)
  | succ turns ih =>
      rw [findTail]
      have head := links.2.head_eq
      cases chain with
      | nil =>
          rw [head]
          exact ⟨[], t, [], rfl, rfl⟩
      | cons d chain =>
          have reached : pool.deref (some d) = some d := if_pos (alive d mem_cons_self)
          simp only [head, List.head?_cons, reached, bind_eq_bind, bind_some]
          split_ifs
          · exact ⟨[], t, d :: chain, rfl, rfl⟩
          · exact ⟨[], t, d :: chain, rfl, rfl⟩
          · have later := links.2
            rw [head, List.head?_cons] at later
            obtain ⟨front, q, back, split, found⟩ :=
              ih later (fun e member => alive e (mem_cons_of_mem d member))
                (Nat.lt_of_succ_lt_succ enough)
            exact ⟨t :: front, q, back, by rw [split, cons_append], found⟩

variable {first : ρ}

/-- A chunk with free objects enters the chain behind the first chunk. -/
theorem enterChain_spec {after : ρ} (linked : Links pool.nextFree (some first) (first :: chain))
    (alive : ∀ d ∈ chain, pool.live d = true) (fresh : after ∉ first :: chain)
    (room : chain.length < pool.chunkCount.toNat) :
    ∃ nextFree chain', pool.enterChain first after = some { pool with nextFree := nextFree } ∧
      Links nextFree (some first) (first :: chain') ∧
      chain'.Perm
        (if pool.inuse_count after < pool.chunk_capacity then after :: chain else chain) := by
  have kept : Links (update pool.nextFree after none) (some first) (first :: chain) := by
    refine linked.congr fun d member => update_of_ne ?_ ..
    rintro rfl
    exact fresh member
  rw [enterChain]
  dsimp only
  split_ifs
  · obtain ⟨front, q, back, split, found⟩ := @findTail_spec _
      { pool with nextFree := update pool.nextFree after none } _ _ after first kept
      alive room
    rw [split] at kept fresh
    have inserted := kept.insert fresh
    obtain ⟨chain', shape⟩ := List.head?_eq_some_iff.mp inserted.head_eq.symm
    rw [shape] at inserted
    refine ⟨_, chain', by rw [found]; rfl, inserted, ?_⟩
    have moved : (front ++ q :: after :: back).Perm (after :: first :: chain) := by
      rw [split, append_cons front q (after :: back), append_cons front q back]
      exact perm_middle
    rw [shape] at moved
    exact (moved.trans (List.Perm.swap first after chain)).cons_inv
  · exact ⟨_, chain, rfl, kept, List.Perm.refl chain⟩

/-- The second loop of `clean` chains the chunks that have free objects behind the first one. -/
theorem rebuildLoop_spec (listed : Links pool.next (pool.next c) back)
    (linked : Links pool.nextFree (some first) (first :: chain))
    (alive : ∀ d ∈ chain ++ back, pool.live d = true) (distinct : (first :: (chain ++ back)).Nodup)
    (enough : back.length < turns) (room : (chain ++ back).length < pool.chunkCount.toNat) :
    ∃ nextFree chain', pool.rebuildLoop first turns c = some { pool with nextFree := nextFree } ∧
      Links nextFree (some first) (first :: chain') ∧
      chain'.Perm
        ((back.filter fun d => decide (pool.inuse_count d < pool.chunk_capacity)) ++ chain) := by
  induction turns generalizing pool c back chain with
  | zero => exact absurd enough (Nat.not_lt_zero _)
  | succ turns ih =>
      rw [rebuildLoop]
      have head := listed.head_eq
      cases back with
      | nil =>
          rw [head]
          exact ⟨pool.nextFree, chain, rfl, linked, List.Perm.refl chain⟩
      | cons d back =>
          have known : d ∈ chain ++ d :: back := by simp
          have reached : pool.deref (some d) = some d := if_pos (alive d known)
          have moves : (chain ++ d :: back).Perm (d :: (chain ++ back)) := perm_middle
          have distinct' := (moves.cons first).nodup_iff.mp distinct
          rw [nodup_cons, mem_cons, not_or, nodup_cons] at distinct'
          obtain ⟨⟨other, absent⟩, fresh, apart⟩ := distinct'
          have unchained : d ∉ first :: chain := fun again =>
            (mem_cons.mp again).elim (fun same => other same.symm)
              fun inner => fresh (mem_append_left back inner)
          rw [length_append, length_cons] at room
          obtain ⟨nextFree₁, chain₁, entered, linked₁, shuffled⟩ := enterChain_spec linked
            (fun e member => alive e (mem_append_left _ member)) unchained (by omega)
          have fewer : (chain₁ ++ back).Subperm (d :: (chain ++ back)) := by
            split_ifs at shuffled
            · exact (shuffled.append_right back).subperm
            · exact (shuffled.append_right back).subperm.cons_right d
          have shorter := fewer.length_le
          rw [length_cons, @length_append _ chain back] at shorter
          obtain ⟨inner, same, sublist⟩ := fewer
          have distinct₁ : (first :: (chain₁ ++ back)).Nodup := by
            refine nodup_cons.mpr ⟨fun again => ?_, ?_⟩
            · rcases mem_cons.mp (sublist.subset (same.mem_iff.mpr again)) with same | inner
              · exact other same
              · exact absent inner
            · exact same.nodup_iff.mp ((nodup_cons.mpr ⟨fresh, apart⟩).sublist sublist)
          have later : Links pool.next (pool.next d) back := by
            rw [head] at listed
            exact listed.2
          obtain ⟨nextFree, chain', run, linked', perm⟩ :=
            @ih { pool with nextFree := nextFree₁ } d chain₁ back later linked₁
              (fun e member => alive e (moves.mem_iff.mpr
                (sublist.subset (same.mem_iff.mpr member))))
              distinct₁ (Nat.lt_of_succ_lt_succ enough)
              (Nat.lt_of_le_of_lt shorter (by dsimp only; omega))
          refine ⟨nextFree, chain', ?_, linked', perm.trans ?_⟩
          · simp only [head, List.head?_cons, reached, bind_eq_bind, bind_some, entered, run]
          · refine (shuffled.append_left _).trans ?_
            rw [filter_cons]
            by_cases more : pool.inuse_count d < pool.chunk_capacity
            · rw [if_pos more, if_pos (decide_eq_true more)]
              exact perm_middle
            · rw [if_neg more, if_neg (by rw [decide_eq_true_iff]; exact more)]

omit [DecidableEq ρ] in
/-- A chunk has free objects if not all of its objects are in use. -/
theorem Placed.free_ne_nil_iff (placed : Placed pool chunks free cache allocated)
    (member : c ∈ chunks) : free c ≠ [] ↔ pool.inuse_count c < pool.chunk_capacity := by
  have counted := placed.counted c member
  rw [← length_pos_iff]
  omega

/-- The chain is rebuilt from the chunks that have free objects. -/
theorem rebuild_spec (chunked : Chunked pool (first :: back))
    (placed : Placed pool (first :: back) free cache allocated) :
    ∃ nextFreeChunk nextFree chain, pool.rebuild first = some { pool with
        nextFreeChunk := nextFreeChunk
        nextFree := nextFree } ∧
      Links nextFree nextFreeChunk chain ∧
      ∀ c, c ∈ chain ↔ c ∈ first :: back ∧ free c ≠ [] := by
  have count := chunked.count
  rw [length_cons] at count
  have filtered (c : ρ) : c ∈ (back.filter fun d =>
      decide (pool.inuse_count d < pool.chunk_capacity)) ++ [] ↔ c ∈ back ∧ free c ≠ [] := by
    rw [append_nil, mem_filter, decide_eq_true_iff]
    refine and_congr_right fun member => ?_
    rw [placed.free_ne_nil_iff (mem_cons_of_mem first member)]
  obtain ⟨nextFree, chain, run, linked, perm⟩ := @rebuildLoop_spec _
    { pool with nextFreeChunk := some first, nextFree := update pool.nextFree first none }
    first [] back _ pool.chunkCount.toNat first chunked.linked.2
    ⟨rfl, update_self ..⟩
    (fun d member => (chunked.alive d).mpr (mem_cons_of_mem first member)) chunked.nodup
    (by omega) (by dsimp only; rw [nil_append]; omega)
  rw [rebuild, bind_eq_bind, run, bind_some]
  dsimp only
  have full := placed.free_ne_nil_iff (c := first) mem_cons_self
  have counted := placed.counted first mem_cons_self
  split_ifs with all
  · refine ⟨nextFree first, nextFree, chain, rfl, linked.2, fun c => ?_⟩
    rw [perm.mem_iff, filtered, mem_cons]
    constructor
    · exact fun both => ⟨Or.inr both.1, both.2⟩
    · rintro ⟨rfl | member, more⟩
      · rw [full] at more
        omega
      · exact ⟨member, more⟩
  · refine ⟨some first, nextFree, first :: chain, rfl, linked, fun c => ?_⟩
    rw [mem_cons, perm.mem_iff, filtered, mem_cons]
    constructor
    · rintro (rfl | both)
      · exact ⟨Or.inl rfl, full.mpr (by omega)⟩
      · exact ⟨Or.inr both.1, both.2⟩
    · rintro ⟨rfl | member, more⟩
      · exact Or.inl rfl
      · exact Or.inr ⟨member, more⟩

/-! ## Cleaning -/

/-- `clean` keeps the invariants and the chunks with allocated objects; its assertions hold. -/
theorem clean_spec (intact : Intact pool chunks free cache chain allocated)
    (metered : Metered pool chunks allocated) (squid_curtime maxage : ℤ) :
    ∃ pool' chunks' free' cache' chain', pool.clean squid_curtime maxage = some pool' ∧
      Intact pool' chunks' free' cache' chain' allocated ∧ Metered pool' chunks' allocated ∧
      SameShape pool pool' ∧ chunks'.Sublist chunks := by
  obtain ⟨chunked, placed, chained⟩ := intact
  rw [clean]
  have head := chunked.linked.head_eq
  cases chunks with
  | nil =>
      rw [head]
      exact ⟨pool, [], free, cache, chain, rfl, ⟨chunked, placed, chained⟩, metered,
        SameShape.refl pool, List.Sublist.refl []⟩
  | cons first back =>
      have room := placed.bound
      have idle := metered.idle
      have enough : cache.length ≤ pool.idle.toNat := by omega
      obtain ⟨pool₁, free₁, converted, chunked₁, placed₁, metered₁, shape₁⟩ :=
        convert_spec chunked placed metered enough squid_curtime
      have count := chunked₁.count
      rw [length_cons] at count
      obtain ⟨pool₂, kept, released, sublist, chunked₂, placed₂, metered₂, shape₂⟩ :=
        @releaseLoop_spec _ pool₁ first back free₁ [] allocated _ pool₁.chunkCount.toNat []
          chunked₁ placed₁ metered₁ (by omega) squid_curtime maxage
      obtain ⟨nextFreeChunk, nextFree, chain', rebuilt, linked, members⟩ :=
        rebuild_spec chunked₂ placed₂
      simp only [head, List.head?_cons, chunked.deref mem_cons_self, bind_eq_bind,
        bind_some, converted, released]
      exact ⟨_, first :: kept, free₁, [], chain', rebuilt,
        ⟨chunked₂.relist, placed₂.relink, linked, members⟩, ⟨metered₂.idle, metered₂.inuse⟩,
        (shape₁.trans shape₂).trans ⟨rfl, rfl, rfl, rfl⟩, sublist.cons_cons first⟩

end MemPoolChunked

end Squid.Base
