import Mathlib.Logic.Function.Basic

/-!
# Policy nodes

An entry names what a removal policy keeps for it through a `RemovalPolicyNode`, of which it has one
for the policy of its swap directory and one, in its memory object, for the policy of the memory
cache.  The purge walkers find the node of an entry through the type that the first `Add` guessed.
-/

namespace Squid.Repl

/-- `heap_entry_type` of `LruPolicyData` and `HeapPolicyData`. -/
inductive heap_entry_type
  | TYPE_UNKNOWN
  | TYPE_STORE_ENTRY
  | TYPE_STORE_MEM
  deriving DecidableEq

/-- A `RemovalPolicyNode`: the member `repl` of an entry or of its memory object. -/
inductive RemovalPolicyNode (ε : Type)
  | repl (entry : ε)
  | mem_obj_repl (entry : ε)
  deriving DecidableEq

variable {ε α : Type} [DecidableEq ε]

/-- `repl_guessType`; `none` for the fatal error. -/
def repl_guessType (entry : ε) (node : RemovalPolicyNode ε) : Option heap_entry_type :=
  if node = .repl entry then some .TYPE_STORE_ENTRY
  else if node = .mem_obj_repl entry then some .TYPE_STORE_MEM
  else none

/-- What `setPolicyNode` does to the members `data` of the policy nodes. -/
def updateNode (type : heap_entry_type) (data : RemovalPolicyNode ε → Option α) (entry : ε)
    (value : Option α) : RemovalPolicyNode ε → Option α :=
  match type with
  | .TYPE_STORE_ENTRY => Function.update data (.repl entry) value
  | .TYPE_STORE_MEM => Function.update data (.mem_obj_repl entry) value
  | .TYPE_UNKNOWN => data

/-- The node that a policy is given with an entry: that of the memory object for the policy of the
memory cache, that of the entry for the policy of a swap directory. -/
def policyNode (memory : Bool) (entry : ε) : RemovalPolicyNode ε :=
  if memory then .mem_obj_repl entry else .repl entry

/-- The type of a policy that is given such nodes. -/
def policyType (memory : Bool) : heap_entry_type :=
  if memory then .TYPE_STORE_MEM else .TYPE_STORE_ENTRY

omit [DecidableEq ε] in
theorem policyNode_injective (memory : Bool) :
    Function.Injective (policyNode memory : ε → RemovalPolicyNode ε) := by
  intro entry other same
  cases memory with
  | false => exact RemovalPolicyNode.repl.inj same
  | true => exact RemovalPolicyNode.mem_obj_repl.inj same

theorem repl_guessType_policyNode (memory : Bool) (entry : ε) :
    repl_guessType entry (policyNode memory entry) = some (policyType memory) := by
  cases memory with
  | false => exact if_pos rfl
  | true => exact (if_neg (by intro same; cases same)).trans (if_pos rfl)

theorem updateNode_policyType (memory : Bool) (data : RemovalPolicyNode ε → Option α) (entry : ε)
    (value : Option α) :
    updateNode (policyType memory) data entry value =
      Function.update data (policyNode memory entry) value := by
  cases memory <;> rfl

end Squid.Repl
