import Squid.Repl.Heap
import Squid.Repl.RemovalPolicy

/-!
# The heap removal policy

`src/repl/heap/store_repl_heap.cc` keeps one heap node for each entry it manages and lets the policy
node of the entry name it.  A purge session takes locked entries out of the heap, locks them once
more and puts them back at its end.  `StoreEntry::lock` leaves the policy alone: its callbacks test
`Referenced`, which is `NULL` in a heap policy.  The age of the heap only enters the keys, which the
calls carry.
-/

namespace Squid.Repl

variable {ρ κ ε : Type} [DecidableEq ρ] [DecidableEq ε] [LinearOrder κ]

/-- `HeapPolicyData`, with the members `data` of the policy nodes. -/
structure HeapPolicyData (ρ κ ε : Type) where
  theHeap : Heap ρ κ ε
  count : ℤ
  nwalkers : ℤ
  type : heap_entry_type
  data : RemovalPolicyNode ε → Option ρ

/-- `createRemovalPolicy_heap`; the array and the blocks hold anything. -/
def createRemovalPolicy_heap (nodes : ℕ → ρ) (block : ρ → heap_node κ ε) :
    HeapPolicyData ρ κ ε where
  theHeap := Heap.new_heap 1000 nodes block
  count := 0
  nwalkers := 0
  type := .TYPE_UNKNOWN
  data := fun _ => none

namespace HeapPolicyData

omit [DecidableEq ρ] [LinearOrder κ] in
/-- `HeapPolicyData::setPolicyNode`. -/
def setPolicyNode (heap : HeapPolicyData ρ κ ε) (entry : ε) (value : Option ρ) :
    HeapPolicyData ρ κ ε :=
  { heap with data := updateNode heap.type heap.data entry value }

/-- `heap_add`, where `xmalloc` returns `elm` and the key function the key; `special` is the flag
`ENTRY_SPECIAL`. -/
def heap_add (heap : HeapPolicyData ρ κ ε) (entry : ε) (node : RemovalPolicyNode ε)
    (special : Bool) (elm : ρ) (key : κ) : Option (HeapPolicyData ρ κ ε) :=
  if (heap.data node).isSome then none
  else if special then some heap
  else do
    let theHeap ← heap.theHeap.heap_insert elm key entry
    let type ← (if heap.type = .TYPE_UNKNOWN then repl_guessType entry node else some heap.type)
    some { heap with
      theHeap := theHeap
      count := heap.count + 1
      type := type
      data := Function.update heap.data node (some elm) }

def heap_remove (heap : HeapPolicyData ρ κ ε) (node : RemovalPolicyNode ε) :
    Option (HeapPolicyData ρ κ ε) :=
  match heap.data node with
  | none => some heap
  | some hnode => do
      let (_, theHeap) ← heap.theHeap.heap_delete hnode
      some { heap with
        theHeap := theHeap
        count := heap.count - 1
        data := Function.update heap.data node none }

def heap_referenced (heap : HeapPolicyData ρ κ ε) (entry : ε) (node : RemovalPolicyNode ε)
    (key : κ) : Option (HeapPolicyData ρ κ ε) :=
  match heap.data node with
  | none => some heap
  | some hnode => do
      let (_, theHeap) ← heap.theHeap.heap_update hnode key entry
      some { heap with theHeap := theHeap }

/-- The loop of `heap_purgeNext`, given the number of turns that it may take; `locked_entries` is
that of the walker. -/
def purgeLoop (locked : ε → Bool) :
    ℕ → HeapPolicyData ρ κ ε → List ε → Option (Option ε × HeapPolicyData ρ κ ε × List ε)
  | 0, _, _ => none
  | turns + 1, heap, locked_entries =>
      if heap.theHeap.last = 0 then some (none, heap, locked_entries)
      else do
        let (min, theHeap) ← heap.theHeap.heap_extractmin
        let entry ← min
        let heap := { heap with theHeap := theHeap }
        if locked entry then heap.purgeLoop locked turns (locked_entries ++ [entry])
        else some (some entry, heap.setPolicyNode entry none, locked_entries)

def heap_purgeNext (locked : ε → Bool) (heap : HeapPolicyData ρ κ ε) (locked_entries : List ε) :
    Option (Option ε × HeapPolicyData ρ κ ε × List ε) :=
  heap.purgeLoop locked (heap.theHeap.last + 1) locked_entries

/-- The loop of `heap_purgeDone`, with the blocks that `xmalloc` returns and the keys. -/
def reinsert (heap : HeapPolicyData ρ κ ε) :
    List ε → List (ρ × κ) → Option (HeapPolicyData ρ κ ε)
  | [], _ => some heap
  | _ :: _, [] => none
  | entry :: locked_entries, (node, key) :: blocks => do
      let theHeap ← heap.theHeap.heap_insert node key entry
      ({ heap with theHeap := theHeap }.setPolicyNode entry (some node)).reinsert
        locked_entries blocks

def heap_purgeDone (heap : HeapPolicyData ρ κ ε) (locked_entries : List ε)
    (blocks : List (ρ × κ)) : Option (HeapPolicyData ρ κ ε) :=
  if 0 < heap.nwalkers then
    { heap with nwalkers := heap.nwalkers - 1 }.reinsert locked_entries blocks
  else none

end HeapPolicyData

/-- The calls of a policy. -/
inductive HeapPolicyCall (ρ κ ε : Type) where
  | add (entry : ε) (special : Bool) (elm : ρ) (key : κ)
  | remove (entry : ε)
  | referenced (entry : ε) (key : κ)
  | purgeInit
  | purgeNext (locked : ε → Bool)
  | purgeDone (blocks : List (ρ × κ))

/-- A policy and the walker of the active session, with its `locked_entries`. -/
structure HeapPolicyState (ρ κ ε : Type) where
  heap : HeapPolicyData ρ κ ε
  walker : Option (List ε)

namespace HeapPolicyState

/-- One call on a policy that is given the one kind of policy nodes, and what it returns. -/
def next (memory : Bool) (state : HeapPolicyState ρ κ ε) :
    HeapPolicyCall ρ κ ε → Option (Option ε × HeapPolicyState ρ κ ε)
  | .add entry special elm key =>
      (state.heap.heap_add entry (policyNode memory entry) special elm key).map fun heap =>
        (none, { state with heap := heap })
  | .remove entry =>
      (state.heap.heap_remove (policyNode memory entry)).map fun heap =>
        (none, { state with heap := heap })
  | .referenced entry key =>
      (state.heap.heap_referenced entry (policyNode memory entry) key).map fun heap =>
        (none, { state with heap := heap })
  | .purgeInit =>
      some (none, ⟨{ state.heap with nwalkers := state.heap.nwalkers + 1 }, some []⟩)
  | .purgeNext locked => do
      let locked_entries ← state.walker
      let (result, heap, locked_entries) ← state.heap.heap_purgeNext locked locked_entries
      some (result, ⟨heap, some locked_entries⟩)
  | .purgeDone blocks => do
      let locked_entries ← state.walker
      let heap ← state.heap.heap_purgeDone locked_entries blocks
      some (none, ⟨heap, none⟩)

/-- The state after one call. -/
def step (memory : Bool) (state : HeapPolicyState ρ κ ε) (call : HeapPolicyCall ρ κ ε) :
    Option (HeapPolicyState ρ κ ε) :=
  (state.next memory call).map Prod.snd

/-- A run of calls with the results. -/
def execute (memory : Bool) (state : HeapPolicyState ρ κ ε) :
    List (HeapPolicyCall ρ κ ε) → Option (List (Option ε) × HeapPolicyState ρ κ ε)
  | [] => some ([], state)
  | call :: calls =>
      (state.next memory call).bind fun (result, state) =>
        (state.execute memory calls).map fun (results, state) => (result :: results, state)

end HeapPolicyState

end Squid.Repl
