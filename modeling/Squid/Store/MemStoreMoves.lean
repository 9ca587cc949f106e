import Squid.Store.MemStore

/-!
# The moves of the shared memory cache

Every step of a process is one of ten moves, which say which of the two shared structures the
step touches, under what condition, and where the page of a running call goes.  A process is always
in one of six stages: it rests, or it is inside one operation of the map or the page stack.
-/

namespace Squid
namespace Ipc
namespace PageStack

variable {params : Params}

/-! ## Positions of the stack operations -/

/-- The process is inside `pop`. -/
def Pc.popping : Pc → Bool
  | .popTest | .popRead | .popTake _ | .popHint _ _ | .popMark _ _ | .popFail => true
  | .idle | .pushTest _ | .pushRead _ | .pushStore _ _ | .pushHint _ _ _ | .pushMark _ => false
  | .pushCount | .invalid _ | .exhausted _ => false

/-- The process is inside `push`. -/
def Pc.pushing : Pc → Bool
  | .pushTest _ | .pushRead _ | .pushStore _ _ | .pushHint _ _ _ | .pushMark _ => true
  | .pushCount | .invalid _ | .exhausted _ => true
  | .idle | .popTest | .popRead | .popTake _ | .popHint _ _ | .popMark _ _ | .popFail => false

variable {own' : Process} {stack stack' : Shared params}

variable {own : Process}

/-- `pop` either goes on or returns, with a page or without. -/
theorem proceed_popping (popping : own.pc.popping = true)
    (step : proceed stack own = some (stack', own')) :
    (own'.held = own.held ∧ (own'.pc.popping = true ∨ own'.pc = .idle)) ∨
      ∃ page, own' = { pc := .idle, held := page :: own.held } := by
  obtain ⟨pc, held⟩ := own
  cases pc with
  | popTest =>
      cases step
      refine .inl ⟨rfl, .inl ?_⟩
      simp only
      split <;> rfl
  | popRead =>
      cases step
      exact .inl ⟨rfl, .inl rfl⟩
  | popTake idx =>
      simp only [proceed, Option.map_eq_some_iff] at step
      obtain ⟨i, -, moved⟩ := step
      cases moved
      exact .inl ⟨rfl, .inl rfl⟩
  | popHint idx value =>
      cases step
      refine .inl ⟨rfl, .inl ?_⟩
      simp only
      split <;> rfl
  | popMark idx value =>
      cases step
      exact .inr ⟨_, rfl⟩
  | popFail =>
      cases step
      exact .inl ⟨rfl, .inr rfl⟩
  | _ => simp [Pc.popping] at popping

/-- `push` either goes on or returns. -/
theorem proceed_pushing (pushing : own.pc.pushing = true)
    (step : proceed stack own = some (stack', own')) :
    own'.held = own.held ∧ (own'.pc = .idle ∨ own'.pc.pushing = true) := by
  obtain ⟨pc, held⟩ := own
  cases pc with
  | pushTest page =>
      cases step
      refine ⟨rfl, .inr ?_⟩
      simp only
      split <;> rfl
  | pushRead page | pushMark idx =>
      cases step
      exact ⟨rfl, .inr rfl⟩
  | pushStore page idx =>
      simp only [proceed, Option.map_eq_some_iff] at step
      obtain ⟨i, -, moved⟩ := step
      split at moved <;> cases moved <;> exact ⟨rfl, .inr rfl⟩
  | pushHint page idx pushed =>
      cases step
      cases pushed <;> exact ⟨rfl, .inr rfl⟩
  | pushCount =>
      cases step
      exact ⟨rfl, .inl rfl⟩
  | invalid page | exhausted page => simp [proceed] at step
  | _ => simp [Pc.pushing] at pushing

/-- Entering `push` with the only page that is held. -/
theorem localStep_push {page : PageId} (set : page.isSet = true)
    (step : localStep stack { pc := .idle, held := [page] } (.push page) = some (stack', own')) :
    own'.held = [] ∧ own'.pc.pushing = true := by
  simp only [localStep, List.mem_singleton, if_true, set, Option.some.injEq, Prod.mk.injEq] at step
  obtain ⟨-, rfl⟩ := step
  refine ⟨by simp, ?_⟩
  simp only
  split <;> rfl

end PageStack
end Ipc

namespace MemStore

open Ipc Interleaving LabelledRun

variable {config : Config}

/-! ## What one step can do -/

/-- The page in the hands of a `keep`, from `GetPage` until the slot that names it is `Readable`. -/
def Pc.page : Pc config → Option PageId
  | .keepLevel _ _ page | .keepCopy _ _ page | .keepSet _ _ page | .keepClose _ page => some page
  | .idle | .keepOpen _ | .keepAvailable _ _ | .keepGet _ _ | .keepPop _ _ | .keepPut _ => none
  | .keepAbort _ | .keepEnd | .getOpen _ | .getCopy _ | .getClose _ _ | .freeing => none
  | .mustFailed => none

/-- `copyToShm` has stored the page in the slot, which is not `Readable` yet. -/
def Pc.Stores (pc : Pc config) (i : Fin config.entryLimit) (page : PageId) : Prop :=
  (∃ e, pc = .keepSet e i page) ∨ pc = .keepClose i page

/-- The process may be inside a map operation. -/
def Pc.callsMap : Pc config → Bool
  | .keepOpen _ | .keepEnd | .getOpen _ | .getClose _ _ | .freeing => true
  | .idle | .keepAvailable _ _ | .keepGet _ _ | .keepPop _ _ | .keepLevel _ _ _ => false
  | .keepCopy _ _ _ | .keepPut _ | .keepSet _ _ _ | .keepClose _ _ | .keepAbort _ => false
  | .getCopy _ | .mustFailed => false

/-- The process may be inside `pop` or the `PutPage` of `copyToShm`. -/
def Pc.callsStack : Pc config → Bool
  | .keepPop _ _ | .keepPut _ => true
  | .idle | .keepOpen _ | .keepAvailable _ _ | .keepGet _ _ | .keepLevel _ _ _ => false
  | .keepCopy _ _ _ | .keepSet _ _ _ | .keepClose _ _ | .keepAbort _ | .keepEnd => false
  | .getOpen _ | .getCopy _ | .getClose _ _ | .freeing | .mustFailed => false

/-- What a process that rests at a position relies on. -/
def Pc.Fits (map : StoreMap.Process config.entryLimit) : Pc config → Prop
  | .getCopy i => 0 < map.reading i
  | .mustFailed => False
  | .idle | .keepOpen _ | .keepAvailable _ _ | .keepGet _ _ | .keepPop _ _ | .keepPut _ => True
  | .keepLevel _ _ _ | .keepCopy _ _ _ | .keepSet _ _ _ | .keepClose _ _ | .keepAbort _ => True
  | .keepEnd | .getOpen _ | .getClose _ _ | .freeing => True

variable {pc : Pc config}

variable {i : Fin config.entryLimit}

theorem Pc.Stores.page_eq {page : PageId} (stores : pc.Stores i page) : pc.page = some page := by
  rcases stores with ⟨e, rfl⟩ | rfl <;> rfl

theorem not_stores_of_page (empty : pc.page = none) (i : Fin config.entryLimit) (page : PageId) :
    ¬ pc.Stores i page := by
  intro stores
  simp [stores.page_eq] at empty

theorem page_of_callsMap (call : pc.callsMap = true) : pc.page = none := by
  cases pc with
  | keepOpen | keepEnd | getOpen | getClose | freeing => rfl
  | _ => cases call

/-- What a process is in the middle of, besides its position. -/
inductive Stage (own : Process config) : Prop
  /-- Nothing, or the copy of an entry that it has open for reading. -/
  | rested (map : own.map.pc = none) (stack : own.stack = {}) (cleaning : own.cleaning = none)
      (fits : own.pc.Fits own.map)
  /-- A map operation. -/
  | mapping (call : own.pc.callsMap = true) (stack : own.stack = {})
      (cleaning : own.cleaning = none)
  /-- The `PutPage` of `cleanReadable`. -/
  | cleaning (call : own.pc.callsMap = true) (i : Fin config.entryLimit) (keepLocked : Bool)
      (map : own.map.pc = some (i, .freeLocked keepLocked .clean)) (page : PageId)
      (cleaning : own.cleaning = some page) (held : own.stack.held = [])
      (stack : own.stack.pc = .idle ∨ own.stack.pc.pushing = true)
  /-- `GetPage`. -/
  | popping (e : StoreEntry) (i : Fin config.entryLimit) (pc : own.pc = .keepPop e i)
      (map : own.map.pc = none) (cleaning : own.cleaning = none) (held : own.stack.held = [])
      (stack : own.stack.pc.popping = true)
  /-- `GetPage`, which has just popped a page. -/
  | popped (e : StoreEntry) (i : Fin config.entryLimit) (pc : own.pc = .keepPop e i)
      (map : own.map.pc = none) (cleaning : own.cleaning = none) (page : PageId)
      (stack : own.stack = { pc := .idle, held := [page] })
  /-- The `PutPage` of `copyToShm`. -/
  | putting (i : Fin config.entryLimit) (pc : own.pc = .keepPut i) (map : own.map.pc = none)
      (cleaning : own.cleaning = none) (held : own.stack.held = [])
      (stack : own.stack.pc = .idle ∨ own.stack.pc.pushing = true)

variable {own : Process config}

/-- At the other positions a process is in the middle of nothing. -/
theorem Stage.resting (stage : Stage own) (map : own.pc.callsMap = false)
    (stack : own.pc.callsStack = false) :
    own.map.pc = none ∧ own.stack = {} ∧ own.cleaning = none := by
  cases stage with
  | rested map stack cleaning => exact ⟨map, stack, cleaning⟩
  | mapping call => simp [map] at call
  | cleaning call => simp [map] at call
  | popping e i pc | popped e i pc | putting i pc => simp [pc, Pc.callsStack] at stack

theorem Stage.opened (stage : Stage own) (copying : own.pc = .getCopy i) :
    0 < own.map.reading i := by
  cases stage with
  | rested map stack cleaning fits => simpa [copying, Pc.Fits] using fits
  | mapping call | cleaning call => simp [copying, Pc.callsMap] at call
  | popping e j pc | popped e j pc | putting j pc => simp [copying] at pc

/-- No `Must` of `pagePointer` has failed. -/
theorem Stage.not_mustFailed (stage : Stage own) : own.pc ≠ .mustFailed := by
  intro failed
  cases stage with
  | rested map stack cleaning fits => simp [failed, Pc.Fits] at fits
  | mapping call | cleaning call => simp [failed, Pc.callsMap] at call
  | popping e j pc | popped e j pc | putting j pc => simp [failed] at pc

/-- The map part of a step. -/
def MapMove (shared : Shared config) (own : Process config)
    (action : StoreMap.Action config.entryLimit Extras) (shared' : Shared config)
    (own' : Process config) : Prop :=
  StoreMap.localStep config.entryLimit_pos (some cleanReadable) shared.map own.map action =
      some (shared'.map, own'.map) ∧
    shared'.stack = shared.stack ∧ own'.stack = own.stack

/-- The stack part of a step that enters `push` with a page taken from elsewhere. -/
def PutMove (shared : Shared config) (own : Process config) (page : PageId)
    (shared' : Shared config) (own' : Process config) : Prop :=
  PageStack.localStep shared.stack { own.stack with held := page :: own.stack.held } (.push page) =
      some (shared'.stack, own'.stack) ∧
    shared'.map = shared.map ∧ own'.map = own.map

/-- The page that the process is about to pass to `pagePointer`. -/
def Points (shared : Shared config) (own : Process config) (page : PageId) : Prop :=
  own.pc.page = some page ∨ ∃ i, own.pc = .getCopy i ∧ (shared.map.slots i).extras.page = page

/-- Everything one step can do, and when. -/
inductive Move (shared : Shared config) (own : Process config) (shared' : Shared config)
    (own' : Process config) : Prop
  /-- Only the position changes. -/
  | position (map : shared'.map = shared.map) (stack : shared'.stack = shared.stack)
      (own_map : own'.map = own.map) (own_stack : own'.stack = own.stack)
      (cleaning : own'.cleaning = own.cleaning) (page : own'.pc.page = own.pc.page)
      (stores : ∀ i page, own'.pc.Stores i page → own.pc.Stores i page)
  /-- `GetPage` returns a page. -/
  | popped (page : PageId) (map : shared'.map = shared.map) (stack : shared'.stack = shared.stack)
      (own_map : own'.map = own.map) (own_stack : own.stack = { pc := .idle, held := [page] })
      (own_stack' : own'.stack = {}) (cleaning : own'.cleaning = own.cleaning)
      (page_before : own.pc.page = none) (page_after : own'.pc.page = some page)
      (stores : ∀ i page, ¬ own'.pc.Stores i page)
  /-- A step inside `pop` or `push`, or into `pop`. -/
  | stack (action : PageStack.Action)
      (step : PageStack.localStep shared.stack own.stack action = some (shared'.stack, own'.stack))
      (map : shared'.map = shared.map) (own_map : own'.map = own.map)
      (cleaning : own'.cleaning = own.cleaning) (page : own'.pc.page = own.pc.page)
      (stores : ∀ i page, ¬ own'.pc.Stores i page)
  /-- The copy was incomplete, and `copyToShm` returns its page. -/
  | put (page : PageId) (step : PutMove shared own page shared' own')
      (valid : PageStack.pageIdIsValid config.pool page = true)
      (cleaning : own'.cleaning = own.cleaning) (page_before : own.pc.page = some page)
      (page_after : own'.pc.page = none) (stores : ∀ i page, ¬ own'.pc.Stores i page)
  /-- `cleanReadable` returns the page of a `Readable` slot. -/
  | clean (i : Fin config.entryLimit) (keepLocked : Bool)
      (at_clean : own.map.pc = some (i, .freeLocked keepLocked .clean))
      (readable : (shared.map.slots i).state = .Readable) (none_before : own.cleaning = none)
      (cleaning : own'.cleaning = some (shared.map.slots i).extras.page)
      (step : (shared.map.slots i).extras.page.isSet = true →
        PutMove shared own (shared.map.slots i).extras.page shared' own')
      (unset : (shared.map.slots i).extras.page.isSet = false →
        shared'.map = shared.map ∧ shared'.stack = shared.stack ∧ own'.map = own.map ∧
          own'.stack = own.stack)
      (pc : own'.pc = own.pc)
  /-- `freeLocked` goes on after `cleanReadable`. -/
  | cleaned (i : Fin config.entryLimit) (keepLocked : Bool) (page : PageId)
      (at_clean : own.map.pc = some (i, .freeLocked keepLocked .clean))
      (before : own.cleaning = some page) (after : own'.cleaning = none)
      (step : MapMove shared own .proceed shared' own') (pc : own'.pc = own.pc)
  /-- A map operation goes on. -/
  | proceedMap (i : Fin config.entryLimit) (map_pc : StoreMap.Pc)
      (at_pc : own.map.pc = some (i, map_pc))
      (unread : ∀ keepLocked, map_pc = .freeLocked keepLocked .clean →
        (shared.map.slots i).state ≠ .Readable)
      (none_before : own.cleaning = none) (cleaning : own'.cleaning = none)
      (step : MapMove shared own .proceed shared' own') (pc : own'.pc = own.pc)
  /-- A map operation that leaves pages and states alone is entered. -/
  | enter (action : StoreMap.Action config.entryLimit Extras)
      (harmless : (∀ i extras, action ≠ .setExtras i extras) ∧
        ∀ i lockForReading, action ≠ .closeForWriting i lockForReading)
      (idle : own.map.pc = none) (cleaning : own'.cleaning = own.cleaning)
      (step : MapMove shared own action shared' own') (page : own'.pc.page = own.pc.page)
      (stores : ∀ i page, own'.pc.Stores i page → own.pc.Stores i page ∧ own'.map = own.map)
  /-- `copyToShm` remembers its page in the slot. -/
  | store (i : Fin config.entryLimit) (extras : Extras) (idle : own.map.pc = none)
      (cleaning : own'.cleaning = own.cleaning)
      (step : MapMove shared own (.setExtras i extras) shared' own')
      (before : own.pc.page = some extras.page) (after : own'.pc.page = some extras.page)
      (stores : ∀ j page, own'.pc.Stores j page → j = i ∧ page = extras.page)
  /-- The slot becomes `Readable`. -/
  | close (i : Fin config.entryLimit) (page : PageId) (idle : own.map.pc = none)
      (cleaning : own'.cleaning = own.cleaning)
      (step : MapMove shared own (.closeForWriting i false) shared' own')
      (before : own.pc = .keepClose i page) (after : own'.pc = .keepEnd)

section Inversion

variable {shared shared' : Shared config} {own own' : Process config}

variable {action : StoreMap.Action config.entryLimit Extras}

theorem mapStep_eq_some (step : mapStep shared own action = some (shared', own')) :
    ∃ map own_map, StoreMap.localStep config.entryLimit_pos (some cleanReadable) shared.map own.map
        action = some (map, own_map) ∧
      shared' = { shared with map } ∧ own' = { own with map := own_map } := by
  simp only [mapStep, Option.map_eq_some_iff, Prod.exists, Prod.mk.injEq] at step
  obtain ⟨map, own_map, local_step, rfl, rfl⟩ := step
  exact ⟨map, own_map, local_step, rfl, rfl⟩

theorem stackStep_eq_some {action : PageStack.Action}
    (step : stackStep shared own action = some (shared', own')) :
    ∃ stack own_stack, PageStack.localStep shared.stack own.stack action = some (stack, own_stack) ∧
      shared' = { shared with stack } ∧ own' = { own with stack := own_stack } := by
  simp only [stackStep, Option.map_eq_some_iff, Prod.exists, Prod.mk.injEq] at step
  obtain ⟨stack, own_stack, local_step, rfl, rfl⟩ := step
  exact ⟨stack, own_stack, local_step, rfl, rfl⟩

variable {pc : Pc config}

/-- Between operations only `set` and `setExtras` leave the process there. -/
theorem mapping_of_enter (rested : own.stack = {} ∧ own.cleaning = none) (call : pc.callsMap = true)
    (step : mapStep shared { own with pc } action = some (shared', own')) : Stage own' := by
  obtain ⟨map, own_map, local_step, rfl, rfl⟩ := mapStep_eq_some step
  exact .mapping call rested.1 rested.2

theorem move_of_enter (idle : own.map.pc = none) (page : pc.page = own.pc.page)
    (stores : ∀ i page, ¬ pc.Stores i page) (harmless : (∀ i extras, action ≠ .setExtras i extras) ∧
      ∀ i lockForReading, action ≠ .closeForWriting i lockForReading)
    (step : mapStep shared { own with pc } action = some (shared', own')) :
    Move shared own shared' own' := by
  obtain ⟨map, own_map, local_step, rfl, rfl⟩ := mapStep_eq_some step
  exact .enter action harmless idle rfl ⟨local_step, rfl, rfl⟩ page
    fun i page now => absurd now (stores i page)

variable {i : Fin config.entryLimit}

/-- `cleanReadable` of a process that holds nothing. -/
theorem clean_move {keepLocked : Bool}
    (at_clean : own.map.pc = some (i, .freeLocked keepLocked .clean))
    (call : own.pc.callsMap = true) (rested : own.stack = {}) (none_before : own.cleaning = none)
    (readable : (shared.map.slots i).state = .Readable)
    (step : putPage shared { own with cleaning := some (shared.map.slots i).extras.page }
      (shared.map.slots i).extras.page = some (shared', own')) :
    Move shared own shared' own' ∧ Stage own' := by
  unfold putPage at step
  split at step
  · rename_i set
    obtain ⟨stack, own_stack, local_step, rfl, rfl⟩ := stackStep_eq_some step
    refine ⟨.clean i keepLocked at_clean readable none_before rfl
      (fun _ => ⟨local_step, rfl, rfl⟩) (by simp [set]) rfl, ?_⟩
    simp only [rested] at local_step
    obtain ⟨held, pushing⟩ := PageStack.localStep_push set local_step
    exact .cleaning call i keepLocked at_clean _ rfl held (.inr pushing)
  · rename_i unset
    cases step
    refine ⟨.clean i keepLocked at_clean readable none_before rfl
      (fun set => absurd set unset) (fun _ => ⟨rfl, rfl, rfl, rfl⟩) rfl, ?_⟩
    refine .cleaning call i keepLocked at_clean _ rfl ?_ (.inl ?_) <;> simp [rested]

variable {page : PageId}

theorem isSet_of_valid (valid : PageStack.pageIdIsValid config.pool page = true) :
    page.isSet = true := by
  have positive := config.pool.poolId_pos
  simp only [PageStack.pageIdIsValid, Bool.and_eq_true, beq_iff_eq, bne_iff_ne, ne_eq] at valid
  simp [PageId.isSet, valid.1.1, valid.1.2]
  omega

/-- `copyToShm` gives its page back. -/
theorem put_move {index : Fin config.entryLimit} (idle : own.map.pc = none)
    (rested : own.stack = {} ∧ own.cleaning = none) (mine : own.pc.page = some page)
    (valid : PageStack.pageIdIsValid config.pool page = true)
    (step : putPage shared { own with pc := .keepPut index } page = some (shared', own')) :
    Move shared own shared' own' ∧ Stage own' := by
  have set := isSet_of_valid valid
  rw [putPage, if_pos set] at step
  obtain ⟨stack, own_stack, local_step, rfl, rfl⟩ := stackStep_eq_some step
  refine ⟨.put page ⟨local_step, rfl, rfl⟩ valid rfl mine rfl (not_stores_of_page rfl), ?_⟩
  simp only [rested.1] at local_step
  obtain ⟨held, pushing⟩ := PageStack.localStep_push set local_step
  exact .putting index rfl idle rested.2 held (.inr pushing)

theorem proceedMap_move {map_pc : StoreMap.Pc} (at_pc : own.map.pc = some (i, map_pc))
    (stage : Stage own) (step : proceedMap shared own i map_pc = some (shared', own')) :
    Move shared own shared' own' ∧ Stage own' := by
  cases stage with
  | rested map | popping e j pc map | popped e j pc map | putting j pc map => simp [map] at at_pc
  | mapping call stack cleaning =>
      have go_on : (∀ keepLocked, map_pc = .freeLocked keepLocked .clean →
            (shared.map.slots i).state ≠ .Readable) →
          mapStep shared own .proceed = some (shared', own') →
          Move shared own shared' own' ∧ Stage own' := by
        intro unread moved
        obtain ⟨map, own_map, local_step, rfl, rfl⟩ := mapStep_eq_some moved
        exact ⟨.proceedMap i map_pc at_pc unread cleaning cleaning ⟨local_step, rfl, rfl⟩ rfl,
          .mapping call stack cleaning⟩
      unfold proceedMap at step
      split at step
      · simp only [cleaning] at step
        split at step
        · exact clean_move at_pc call stack cleaning ‹_› step
        · rename_i unread
          exact go_on (fun _ _ => unread) step
      · rename_i other
        refine go_on ?_ step
        rintro keepLocked rfl
        exact absurd rfl (other keepLocked)
  | cleaning call j keepLocked map page cleaning held stack =>
      rw [map, Option.some.injEq, Prod.mk.injEq] at at_pc
      obtain ⟨rfl, rfl⟩ := at_pc
      simp only [proceedMap, cleaning] at step
      split at step
      · rename_i returned
        obtain ⟨map', own_map, local_step, rfl, rfl⟩ := mapStep_eq_some step
        refine ⟨.cleaned j keepLocked page map cleaning rfl ⟨local_step, rfl, rfl⟩ rfl, ?_⟩
        refine .mapping call ?_ rfl
        cases own_stack : own.stack with
        | mk pc held' => simp_all
      · rename_i busy
        obtain ⟨stack', own_stack, local_step, rfl, rfl⟩ := stackStep_eq_some step
        have pushing := stack.resolve_left busy
        obtain ⟨same, later⟩ := PageStack.proceed_pushing pushing local_step
        exact ⟨.stack .proceed local_step rfl rfl rfl rfl (not_stores_of_page (page_of_callsMap call)),
          .cleaning call j keepLocked map page cleaning (same.trans held) later⟩

/-- The process goes to a position that holds the same page and stores none. -/
theorem position_move {level : ℤ} (idle : own.map.pc = none)
    (rested : own.stack = {} ∧ own.cleaning = none) (page : pc.page = own.pc.page)
    (stores : ∀ i page, ¬ pc.Stores i page) (fits : pc.Fits own.map) :
    Move shared own { shared with level } { own with pc } ∧ Stage { own with pc } :=
  ⟨.position rfl rfl rfl rfl rfl page fun i page now => absurd now (stores i page),
    .rested idle rested.1 rested.2 fits⟩

/-- The next step of a call that is not inside an operation of the map or the stack. -/
theorem rested_move (idle : own.map.pc = none) (rested : own.stack = {} ∧ own.cleaning = none)
    (step : proceedCall shared own = some (shared', own')) :
    Move shared own shared' own' ∧ Stage own' := by
  have enter : ∀ {pc : Pc config} {action : StoreMap.Action config.entryLimit Extras},
      pc.callsMap = true → own.pc.page = none →
      ((∀ i extras, action ≠ .setExtras i extras) ∧
        ∀ i lockForReading, action ≠ .closeForWriting i lockForReading) →
      mapStep shared { own with pc } action = some (shared', own') →
      Move shared own shared' own' ∧ Stage own' := by
    intro pc action call empty harmless moved
    have empty' := page_of_callsMap call
    exact ⟨move_of_enter idle (empty'.trans empty.symm) (not_stores_of_page empty') harmless moved,
      mapping_of_enter rested call moved⟩
  have stack_idle : own.stack.pc = .idle := by rw [rested.1]
  have unheld : own.stack.held = [] := by rw [rested.1]
  have quiet : ∀ {pc : Pc config}, own.pc.page = none → pc.page = none →
      pc.Fits own.map →
      Move shared own shared { own with pc } ∧ Stage { own with pc } := by
    intro pc before after fits
    exact position_move idle rested (after.trans before.symm) (not_stores_of_page after) fits
  cases at_pc : own.pc with
  | idle | mustFailed | keepCopy | getCopy => simp [proceedCall, at_pc] at step
  | keepOpen e | keepAvailable e index =>
      simp only [proceedCall, at_pc, Option.some.injEq, Prod.mk.injEq] at step
      obtain ⟨rfl, rfl⟩ := step
      refine quiet (by rw [at_pc]; rfl) ?_ ?_ <;> split <;> simp [Pc.page, Pc.Fits]
  | getOpen key =>
      simp only [proceedCall, at_pc, Option.some.injEq, Prod.mk.injEq] at step
      obtain ⟨rfl, rfl⟩ := step
      refine quiet (by rw [at_pc]; rfl) ?_ ?_
      · split <;> rfl
      · split
        · assumption
        · trivial
  | keepEnd | freeing =>
      simp only [proceedCall, at_pc, Option.some.injEq, Prod.mk.injEq] at step
      obtain ⟨rfl, rfl⟩ := step
      exact quiet (by rw [at_pc]; rfl) rfl trivial
  | keepPut index =>
      simp only [proceedCall, at_pc, stack_idle, Option.some.injEq, Prod.mk.injEq] at step
      obtain ⟨rfl, rfl⟩ := step
      exact quiet (by rw [at_pc]; rfl) rfl trivial
  | keepPop e index =>
      simp only [proceedCall, at_pc, stack_idle, unheld, Option.some.injEq, Prod.mk.injEq] at step
      obtain ⟨rfl, rfl⟩ := step
      exact quiet (by rw [at_pc]; rfl) rfl trivial
  | keepLevel e index page =>
      simp only [proceedCall, at_pc, Option.some.injEq, Prod.mk.injEq] at step
      obtain ⟨rfl, rfl⟩ := step
      refine position_move idle rested (by rw [at_pc]; rfl) ?_ trivial
      rintro i page (⟨e, other⟩ | other) <;> cases other
  | keepAbort index =>
      simp only [proceedCall, at_pc] at step
      exact enter rfl (by rw [at_pc]; rfl) (by simp) step
  | getClose index copied =>
      simp only [proceedCall, at_pc] at step
      split at step
      · cases step
        exact quiet (by rw [at_pc]; rfl) rfl trivial
      · exact enter rfl (by rw [at_pc]; rfl) (by simp) step
  | keepGet e index =>
      simp only [proceedCall, at_pc] at step
      obtain ⟨stack, own_stack, local_step, rfl, rfl⟩ := stackStep_eq_some step
      refine ⟨.stack .pop local_step rfl rfl rfl (by rw [at_pc]; rfl)
        (not_stores_of_page rfl), ?_⟩
      simp only [rested.1, PageStack.localStep, Option.some.injEq, Prod.mk.injEq] at local_step
      obtain ⟨-, rfl⟩ := local_step
      exact .popping e index rfl idle rested.2 rfl rfl
  | keepSet e index page =>
      simp only [proceedCall, at_pc] at step
      obtain ⟨map, own_map, local_step, rfl, rfl⟩ := mapStep_eq_some step
      have same : own_map = own.map := by
        simp only [StoreMap.localStep, idle, Option.ite_none_right_eq_some, Option.some.injEq,
          Prod.mk.injEq] at local_step
        exact local_step.2.2.symm
      refine ⟨.enter _ (by simp) idle rfl ⟨local_step, rfl, rfl⟩ (by rw [at_pc]; rfl) ?_,
        .rested (same ▸ idle) rested.1 rested.2 trivial⟩
      rintro i page' (⟨e, other⟩ | other)
      · cases other
      · cases other
        exact ⟨.inl ⟨e, at_pc⟩, same⟩
  | keepClose index page =>
      simp only [proceedCall, at_pc] at step
      refine ⟨?_, mapping_of_enter rested rfl step⟩
      obtain ⟨map, own_map, local_step, rfl, rfl⟩ := mapStep_eq_some step
      exact .close index page idle rfl ⟨local_step, rfl, rfl⟩ at_pc rfl

theorem proceedCall_move (idle : own.map.pc = none) (stage : Stage own)
    (step : proceedCall shared own = some (shared', own')) :
    Move shared own shared' own' ∧ Stage own' := by
  cases stage with
  | rested map stack cleaning => exact rested_move idle ⟨stack, cleaning⟩ step
  | mapping call stack cleaning => exact rested_move idle ⟨stack, cleaning⟩ step
  | cleaning call i keepLocked map => simp [map] at idle
  | popping e i pc map cleaning held stack =>
      have busy : own.stack.pc ≠ .idle := by
        intro same
        simp [same, PageStack.Pc.popping] at stack
      simp only [proceedCall, pc] at step
      obtain ⟨stack', own_stack, local_step, rfl, rfl⟩ := stackStep_eq_some step
      refine ⟨.stack .proceed local_step rfl rfl rfl rfl (not_stores_of_page (by rw [pc]; rfl)),
        ?_⟩
      obtain ⟨same, later | later⟩ | ⟨page, rfl⟩ := PageStack.proceed_popping stack local_step
      · exact .popping e i pc map cleaning (same.trans held) later
      · refine .rested map ?_ cleaning (by simp [pc, Pc.Fits])
        cases own_stack with
        | mk pc' held' => simp_all
      · exact .popped e i pc map cleaning page (by simp [held])
  | popped e i pc map cleaning page stack =>
      simp only [proceedCall, pc, stack, Option.some.injEq, Prod.mk.injEq] at step
      obtain ⟨rfl, rfl⟩ := step
      refine ⟨.popped page rfl rfl rfl stack rfl rfl (by rw [pc]; rfl) rfl ?_,
        .rested map rfl cleaning trivial⟩
      rintro j page' (⟨e', other⟩ | other) <;> cases other
  | putting i pc map cleaning held stack =>
      simp only [proceedCall, pc] at step
      split at step
      · rename_i returned
        refine rested_move idle ⟨?_, cleaning⟩ (by simpa only [proceedCall, pc,
          returned] using step)
        cases own_stack : own.stack with
        | mk pc' held' => simp_all
      · rename_i busy
        obtain ⟨stack', own_stack, local_step, rfl, rfl⟩ := stackStep_eq_some step
        obtain ⟨same, later⟩ := PageStack.proceed_pushing (stack.resolve_left busy) local_step
        exact ⟨.stack .proceed local_step rfl rfl rfl rfl (not_stores_of_page (by rw [pc]; rfl)),
          .putting i pc map cleaning (same.trans held) later⟩

/-- Every step of a process is one of the moves, and leaves it in one of the stages. -/
theorem localStep_move {action : Action config} (stage : Stage own)
    (points : ∀ page, Points shared own page → PageStack.pageIdIsValid config.pool page = true)
    (step : localStep shared own action = some (shared', own')) :
    Move shared own shared' own' ∧ Stage own' := by
  cases action with
  | proceed =>
      simp only [localStep] at step
      split at step
      · exact proceedMap_move ‹_› stage step
      · exact proceedCall_move ‹_› stage step
  | considerKeeping e =>
      simp only [localStep] at step
      split at step
      · rename_i at_idle
        obtain ⟨idle, rested⟩ := stage.resting (by rw [at_idle]; rfl) (by rw [at_idle]; rfl)
        split at step
        · exact ⟨move_of_enter idle (by rw [at_idle]; rfl) (not_stores_of_page rfl) (by simp) step,
            mapping_of_enter rested rfl step⟩
        · cases step
          exact ⟨.position rfl rfl rfl rfl rfl rfl fun _ _ => id, stage⟩
      · cases step
  | get key | free fileno =>
      simp only [localStep] at step
      split at step
      · rename_i at_idle
        obtain ⟨idle, rested⟩ := stage.resting (by rw [at_idle]; rfl) (by rw [at_idle]; rfl)
        exact ⟨move_of_enter idle (by rw [at_idle]; rfl) (not_stores_of_page rfl) (by simp) step,
          mapping_of_enter rested rfl step⟩
      · cases step
  | copied size =>
      simp only [localStep] at step
      split at step
      · rename_i e index page at_copy
        obtain ⟨idle, rested⟩ := stage.resting (by rw [at_copy]; rfl) (by rw [at_copy]; rfl)
        have mine : own.pc.page = some page := by rw [at_copy]; rfl
        have valid := points page (.inl mine)
        simp only [valid, Bool.not_true, Bool.false_eq_true, if_false] at step
        split at step
        · exact put_move idle rested mine valid step
        · obtain ⟨map, own_map, local_step, rfl, rfl⟩ := mapStep_eq_some step
          have same : own_map = own.map := by
            simp only [StoreMap.localStep, idle, Option.ite_none_right_eq_some, Option.some.injEq,
              Prod.mk.injEq] at local_step
            exact local_step.2.2.symm
          refine ⟨.store index _ idle rfl ⟨local_step, rfl, rfl⟩ mine rfl ?_,
            .rested (same ▸ idle) rested.1 rested.2 trivial⟩
          rintro j page' (⟨e', now⟩ | now)
          · cases now
            exact ⟨rfl, rfl⟩
          · cases now
      · cases step
  | parsed success =>
      simp only [localStep] at step
      split at step
      · rename_i index at_copy
        obtain ⟨idle, rested⟩ := stage.resting (by rw [at_copy]; rfl) (by rw [at_copy]; rfl)
        have valid := points _ (.inr ⟨index, at_copy, rfl⟩)
        simp only [valid, Bool.not_true, Bool.false_eq_true, if_false] at step
        exact ⟨move_of_enter idle (by rw [at_copy]; rfl) (not_stores_of_page rfl) (by simp) step,
          mapping_of_enter rested rfl step⟩
      · cases step

end Inversion

end MemStore
end Squid
