import Squid.Library.CRuntime
import Mathlib.Logic.Function.Basic

/-!
# Access checks

The evaluation of an access list, as in `src/acl/Checklist.cc` and `src/acl/Acl.cc`.  Some ACLs need
a lookup before they can tell whether they match.  Every such ACL marks an operation as in progress
and starts it; one that cannot be started has ended at once.  A check that waits for an operation
continues when it ends, from the rule where it was.  The list and the caller stay valid.
-/

namespace Squid
namespace Acl

/-- `allow_t`, as far as rules and checks set it. -/
inductive Allow where
  | ACCESS_DENIED
  | ACCESS_ALLOWED
  | ACCESS_DUNNO

/-- `ACLList`: an ACL of a rule, negated unless `op`. -/
structure Node (α : Type) where
  op : Bool := true
  acl : α

/-- `acl_access`: a rule. -/
structure Rule (α : Type) where
  allow : Allow
  aclList : List (Node α)

/-- What an ACL does before it knows its value. -/
inductive Lookup where
  /-- It needs no lookup. -/
  | fast
  /-- Its lookup ends later. -/
  | later
  /-- Its lookup has ended when it was to be started. -/
  | atOnce
  /-- Its lookup cannot be done: it fails to start, and the ACL asks for it again. -/
  | undone
  deriving DecidableEq

/-- The ACLs, with their values. -/
structure Acls (α : Type) where
  value : α → Bool
  lookup : α → Lookup

/-- An assertion fails, or a null callback is called. -/
inductive Fault where
  | asyncInProgress
  | markFinished
  | changeState
  | matchNodes
  | matchNode
  | lookupDone
  | callback
  | destructor
  /-- A lookup ends in `checkForAsync` while no list is being checked. -/
  | reentered

/-- `ACLChecklist`. -/
structure Checklist (α : Type) where
  /-- The rules from the current one on. -/
  accessList : List (Rule α) := []
  /-- `callback` is not null. -/
  callback : Bool := false
  async_ : Bool := false
  finished_ : Bool := false
  allow_ : Allow := .ACCESS_DENIED
  /-- The ACL that has changed the state, unless it is `NullState`. -/
  state_ : Option α := none
  checking_ : Bool := false
  /-- Which ACLs have got their lookup; not a field of the source. -/
  known : α → Bool := fun _ => false
  /-- The answers that the callback has got; not a field of the source. -/
  answers : List Allow := []

inductive NodeMatchingResult where
  | nmrMatch
  | nmrMismatch
  | nmrFinished
  | nmrNeedsAsync
  deriving DecidableEq

namespace Checklist

variable {α : Type} [DecidableEq α] (acls : Acls α) (s : Checklist α)

def asyncNeeded : Bool := s.state_.isSome

def asyncInProgress (newAsync : Bool) : Except Fault (Checklist α) :=
  if s.finished_ ∨ (s.async_ ∧ newAsync) then .error .asyncInProgress
  else .ok { s with async_ := newAsync }

def markFinished (finalAnswer : Allow) : Except Fault (Checklist α) :=
  if s.finished_ ∨ s.async_ then .error .markFinished
  else .ok { s with finished_ := true, allow_ := finalAnswer }

def changeState (newState : Option α) : Except Fault (Checklist α) :=
  if s.state_.isSome ∧ newState.isSome then .error .changeState
  else .ok { s with state_ := newState }

/-- `match` of an ACL. -/
def aclMatch (a : α) : Except Fault (Bool × Checklist α) :=
  if acls.lookup a = .fast ∨ s.known a then .ok (acls.value a, s)
  else (s.changeState (some a)).map fun s => (false, s)

/-- `ACLList::matches`. -/
def nodeMatches (node : Node α) : Except Fault (Bool × Checklist α) :=
  (s.aclMatch acls node.acl).map fun (matched, s) =>
    (if matched then node.op
      else if s.finished_ then false
      else if s.asyncNeeded then false
      else !node.op, s)

def matchNode (node : Node α) (fast : Bool) :
    Except Fault (NodeMatchingResult × Checklist α) :=
  (s.nodeMatches acls node).bind fun (nodeMatched, s) =>
    if nodeMatched then
      if s.asyncNeeded ∨ s.finished_ then .error .matchNode else .ok (.nmrMatch, s)
    else if s.finished_ then
      if s.asyncNeeded then .error .matchNode else .ok (.nmrFinished, s)
    else if ¬ s.asyncNeeded then .ok (.nmrMismatch, s)
    else if fast then
      (s.changeState none).bind fun s =>
        (s.markFinished .ACCESS_DUNNO).map fun s => (.nmrFinished, s)
    else .ok (.nmrNeedsAsync, s)

/-- `LookupDone` of an ACL, up to the call of `matchNonBlocking`. -/
def lookupDone : Except Fault (Checklist α) :=
  match s.state_ with
  | none => .error .lookupDone
  | some a =>
      ({ s with known := Function.update s.known a (acls.lookup a ≠ Lookup.undone) }.asyncInProgress
        false).bind fun s => s.changeState none

/-- `checkForAsync` of the state.  A lookup that ends at once calls `matchNonBlocking`, which
returns because the list is being checked. -/
def checkForAsync : Except Fault (Checklist α) :=
  match s.state_ with
  | none => .ok s
  | some a =>
      (s.asyncInProgress true).bind fun s =>
        if acls.lookup a = .later then .ok s
        else
          (s.lookupDone acls).bind fun s => if s.checking_ then .ok s else .error .reentered

/-- The loop of `matchNodes`. -/
def matchNodes (fast : Bool) : List (Node α) → Checklist α → Except Fault (Bool × Checklist α)
  | [], s => .ok (true, s)
  | node :: nodes, s =>
      (s.matchNode acls node fast).bind fun (resultBeforeAsync, s) =>
        match resultBeforeAsync with
        | .nmrMatch => matchNodes fast nodes s
        | .nmrMismatch => .ok (false, s)
        | .nmrFinished => .ok (false, s)
        | .nmrNeedsAsync =>
            (s.checkForAsync acls).bind fun s =>
              if ¬ s.async_ then
                if s.finished_ then .ok (false, s)
                else
                  (s.matchNode acls node true).bind fun (resultAfterAsync, s) =>
                    match resultAfterAsync with
                    | .nmrNeedsAsync => .error .matchNodes
                    | .nmrMatch => matchNodes fast nodes s
                    | .nmrMismatch => .ok (false, s)
                    | .nmrFinished => .ok (false, s)
              else if s.finished_ then .error .matchNodes
              else .ok (false, s)

def matchAclList (head : List (Node α)) (fast : Bool) : Except Fault (Bool × Checklist α) :=
  if s.finished_ then .error .matchNodes else matchNodes acls fast head s

/-- `checkAccessList`, for the current rule. -/
def checkAccessList (rule : Rule α) : Except Fault (Checklist α) :=
  (s.matchAclList acls rule.aclList false).bind fun (matched, s) =>
    if matched then s.markFinished rule.allow else .ok s

def checkCallback (answer : Allow) : Except Fault (Checklist α) :=
  if ¬ s.callback then .error .callback
  else if s.async_ then .error .destructor
  else .ok { s with callback := false, answers := s.answers ++ [answer] }

/-- The answer when no rule has matched. -/
def implicitAnswer (lastSeenAction : Allow) : Allow :=
  match lastSeenAction with
  | .ACCESS_DENIED => .ACCESS_ALLOWED
  | .ACCESS_ALLOWED => .ACCESS_DENIED
  | .ACCESS_DUNNO => .ACCESS_DUNNO

def calcImplicitAnswer (lastSeenAction : Allow) : Except Fault (Checklist α) :=
  s.markFinished (implicitAnswer lastSeenAction)

/-- The loop of `matchNonBlocking`. -/
def matchRules : List (Rule α) → Allow → Checklist α → Except Fault (Checklist α)
  | [], lastSeenKeyword, s =>
      (s.calcImplicitAnswer lastSeenKeyword).bind fun s => s.checkCallback s.allow_
  | rule :: rules, _, s =>
      ({ s with accessList := rule :: rules, checking_ := true }.checkAccessList acls rule).bind
        fun s =>
          let s := { s with checking_ := false }
          if s.async_ then .ok s
          else if s.finished_ then { s with accessList := [] }.checkCallback s.allow_
          else matchRules rules rule.allow { s with accessList := rules }

def matchNonBlocking : Except Fault (Checklist α) :=
  if s.checking_ then .ok s
  else if s.accessList = [] then s.checkCallback .ACCESS_DUNNO
  else matchRules acls s.accessList .ACCESS_DUNNO s

/-- `nonBlockingCheck` of a new checklist. -/
def nonBlockingCheck (accessList : List (Rule α)) : Except Fault (Checklist α) :=
  matchNonBlocking acls { accessList, callback := true }

/-- The lookup that a checklist is waiting for ends. -/
def resume : Except Fault (Checklist α) :=
  (s.lookupDone acls).bind fun s => s.matchNonBlocking acls

/-- A check in which so many lookups have ended since it started to wait. -/
def checkAfter (accessList : List (Rule α)) : ℕ → Except Fault (Checklist α)
  | 0 => nonBlockingCheck acls accessList
  | ended + 1 => (checkAfter accessList ended).bind fun s => s.resume acls

/-- The loop of `fastCheck`. -/
def fastRules : List (Rule α) → Allow → Checklist α → Except Fault (Checklist α)
  | [], lastSeenKeyword, s => s.calcImplicitAnswer lastSeenKeyword
  | rule :: rules, _, s =>
      (s.matchAclList acls rule.aclList true).bind fun (matched, s) =>
        (if matched then s.markFinished rule.allow else .ok s).bind fun s =>
          if s.finished_ then .ok s else fastRules rules rule.allow s

/-- `fastCheck` of a new checklist. -/
def fastCheck (accessList : List (Rule α)) : Except Fault Allow :=
  (fastRules acls accessList .ACCESS_DUNNO { accessList }).map fun s => s.allow_

end Checklist

/-! ## The first match -/

variable {α : Type}

/-- The ACL of a node, perhaps negated, holds. -/
def Node.holds (value : α → Bool) (node : Node α) : Bool := value node.acl == node.op

/-- All ACLs of a rule hold. -/
def Rule.holds (value : α → Bool) (rule : Rule α) : Bool := rule.aclList.all (Node.holds value)

/-- The action of the first rule that holds, or the inverse of the last rule's action. -/
def firstMatch (value : α → Bool) (rules : List (Rule α)) : Allow :=
  match rules.find? (Rule.holds value) with
  | some rule => rule.allow
  | none =>
      match rules.getLast? with
      | some rule => Checklist.implicitAnswer rule.allow
      | none => .ACCESS_DUNNO

/-- The ACLs of a rule up to the first that does not hold. -/
def reachedNodes (value : α → Bool) : List (Node α) → List α
  | [] => []
  | node :: nodes => node.acl :: if node.holds value then reachedNodes value nodes else []

/-- The ACLs that decide about the first match, up to the end of the first rule that holds. -/
def reached (value : α → Bool) : List (Rule α) → List α
  | [] => []
  | rule :: rules =>
      reachedNodes value rule.aclList ++ if rule.holds value then [] else reached value rules

end Acl
end Squid
