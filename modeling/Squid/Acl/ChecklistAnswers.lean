import Squid.Acl.Checklist
import Mathlib.Data.List.Basic

/-!
# The answers of access checks

A rule is evaluated to one of four results, which depend on the values and on which ACLs have got
their lookup.  A check follows that evaluation, so that it goes on from the same rule with one more
ACL known until it has an answer, and the answer is that of the first match.
-/

namespace Squid
namespace Acl

open List Function

variable {α : Type}

/-- What the evaluation of a rule gives. -/
inductive Result (α : Type) where
  | matched
  | mismatched
  /-- A lookup cannot be done. -/
  | failed
  /-- A lookup ends later. -/
  | waits (a : α)

/-- Evaluate the nodes of a rule. -/
def evalNodes (acls : Acls α) (known : α → Bool) : List (Node α) → Result α
  | [] => .matched
  | node :: nodes =>
      if acls.lookup node.acl = .undone then .failed
      else if acls.lookup node.acl = .later ∧ known node.acl = false then .waits node.acl
      else if node.holds acls.value then evalNodes acls known nodes
      else .mismatched

/-- What a run through the rules gives. -/
inductive Progress (α : Type) where
  | answer (allow : Allow)
  /-- A lookup ends later, and then the run goes on from a rule. -/
  | waits (a : α) (rest : List (Rule α))

/-- Evaluate rules after a rule with an action. -/
def evalRules (acls : Acls α) (known : α → Bool) : List (Rule α) → Allow → Progress α
  | [], lastSeenKeyword => .answer (Checklist.implicitAnswer lastSeenKeyword)
  | rule :: rules, _ =>
      match evalNodes acls known rule.aclList with
      | .matched => .answer rule.allow
      | .mismatched => evalRules acls known rules rule.allow
      | .failed => .answer .ACCESS_DUNNO
      | .waits a => .waits a (rule :: rules)

/-! ## A check follows the evaluation -/

namespace Checklist

/-- Only the lookups that end later matter. -/
structure Agrees (acls : Acls α) (known after : α → Bool) : Prop where
  later : ∀ a, acls.lookup a = .later → after a = known a
  undone : ∀ a, acls.lookup a = .undone → after a = false

variable {after known : α → Bool}

theorem Agrees.trans {acls : Acls α} {middle : α → Bool} (first : Agrees acls known middle)
    (second : Agrees acls middle after) : Agrees acls known after :=
  ⟨fun a later => (second.later a later).trans (first.later a later), second.undone⟩

theorem evalNodes_agrees {acls : Acls α} (agrees : Agrees acls known after)
    (nodes : List (Node α)) : evalNodes acls after nodes = evalNodes acls known nodes := by
  induction nodes with
  | nil => rfl
  | cons node nodes ih =>
      simp only [evalNodes, ih]
      by_cases later : acls.lookup node.acl = .later
      · rw [agrees.later node.acl later]
      · simp [later]

theorem evalRules_agrees {acls : Acls α} (agrees : Agrees acls known after) (rules : List (Rule α))
    (last : Allow) : evalRules acls after rules last = evalRules acls known rules last := by
  induction rules generalizing last with
  | nil => rfl
  | cons rule rules ih => simp only [evalRules, evalNodes_agrees agrees, ih]

/-- Nothing is going on. -/
structure Idle (acls : Acls α) (s : Checklist α) : Prop where
  async_ : s.async_ = false
  finished_ : s.finished_ = false
  state_ : s.state_ = none
  undone : ∀ a, acls.lookup a = .undone → s.known a = false

variable {acls : Acls α} {s : Checklist α}

theorem Idle.agrees (idle : Idle acls s) : Agrees acls s.known s.known :=
    ⟨fun _ _ => rfl, idle.undone⟩

/-- An ACL that knows its value gives it. -/
theorem matchNode_known (idle : Idle acls s) {node : Node α}
    (known : acls.lookup node.acl = .fast ∨ s.known node.acl) (fast : Bool) :
    s.matchNode acls node fast =
      .ok (if node.holds acls.value then .nmrMatch else .nmrMismatch, s) := by
  unfold matchNode nodeMatches aclMatch asyncNeeded Node.holds
  rw [if_pos known]
  cases acls.value node.acl <;> cases node.op <;>
    simp [Except.map, Except.bind, idle.finished_, idle.state_]

variable {node : Node α}

/-- One that does not know it asks for a lookup, or ends a check that may not wait. -/
theorem matchNode_unknown (idle : Idle acls s)
    (unknown : ¬ (acls.lookup node.acl = .fast ∨ s.known node.acl)) (fast : Bool) :
    s.matchNode acls node fast =
      if fast then
        .ok (.nmrFinished, { s with state_ := none, finished_ := true, allow_ := .ACCESS_DUNNO })
      else .ok (.nmrNeedsAsync, { s with state_ := some node.acl }) := by
  unfold matchNode nodeMatches aclMatch changeState asyncNeeded markFinished
  rw [if_neg unknown]
  cases fast <;> simp [Except.map, Except.bind, idle.finished_, idle.state_, idle.async_]

/-- What `matchNodes` gives for a result of the evaluation. -/
def outcomeOf (s : Checklist α) (known : α → Bool) :
    Result α → Except Fault (Bool × Checklist α)
  | .matched => .ok (true, { s with known })
  | .mismatched => .ok (false, { s with known })
  | .failed => .ok (false, { s with known, finished_ := true, allow_ := .ACCESS_DUNNO })
  | .waits a => .ok (false, { s with known, async_ := true, state_ := some a })

theorem outcomeOf_known (s : Checklist α) (known after : α → Bool) (result : Result α) :
    outcomeOf { s with known } after result = outcomeOf s after result := by
  cases result <;> rfl

/-- After a node whose value is known. -/
theorem evalNodes_known (idle : Idle acls s)
    (known : acls.lookup node.acl = .fast ∨ s.known node.acl) (nodes : List (Node α)) :
    evalNodes acls s.known (node :: nodes) =
      if node.holds acls.value then evalNodes acls s.known nodes else .mismatched := by
  have done : acls.lookup node.acl ≠ .undone := by
    intro undone
    rcases known with fast | known
    · exact absurd (fast.symm.trans undone) (by decide)
    · exact absurd ((idle.undone _ undone).symm.trans known) (by decide)
  have ready : ¬ (acls.lookup node.acl = .later ∧ s.known node.acl = false) := by
    rintro ⟨later, unknown⟩
    rcases known with fast | known
    · exact absurd (fast.symm.trans later) (by decide)
    · exact absurd (unknown.symm.trans known) (by decide)
  rw [evalNodes, if_neg done, if_neg ready]

theorem evalNodes_waits {nodes : List (Node α)} {a : α}
    (waits : evalNodes acls known nodes = .waits a) :
    acls.lookup a = .later ∧ known a = false ∧ a ∈ nodes.map Node.acl := by
  induction nodes with
  | nil => cases waits
  | cons node nodes ih =>
      simp only [evalNodes] at waits
      split at waits
      · cases waits
      · split at waits
        · next blocked =>
            cases waits
            exact ⟨blocked.1, blocked.2, by simp⟩
        · split at waits
          · obtain ⟨later, unknown, member⟩ := ih waits
            exact ⟨later, unknown, by simp [member]⟩
          · cases waits

variable [DecidableEq α]

/-- Starting the lookup that was asked for. -/
theorem checkForAsync_eq (idle : Idle acls s) (checking : s.checking_ = true) (a : α) :
    { s with state_ := some a }.checkForAsync acls =
      if acls.lookup a = .later then .ok { s with state_ := some a, async_ := true }
      else .ok { s with known := update s.known a (acls.lookup a ≠ Lookup.undone) } := by
  unfold checkForAsync lookupDone asyncInProgress changeState
  by_cases later : acls.lookup a = .later
  · simp [Except.bind, idle.finished_, idle.async_, later]
  · have state := idle.state_
    simp [Except.bind, idle.finished_, idle.async_, later, checking]
    rw [← state]

/-- A lookup that ends at once is followed by a second match of the node. -/
theorem matchNodes_retry (idle : Idle acls s) (checking : s.checking_ = true)
    (unknown : ¬ (acls.lookup node.acl = .fast ∨ s.known node.acl))
    (ended : acls.lookup node.acl ≠ .later) {result : NodeMatchingResult} {after : Checklist α}
    (again : { s with
      known := update s.known node.acl (acls.lookup node.acl ≠ Lookup.undone) }.matchNode
        acls node true = .ok (result, after)) (answered : result ≠ .nmrNeedsAsync)
    (nodes : List (Node α)) :
    matchNodes acls false (node :: nodes) s =
      if result = .nmrMatch then matchNodes acls false nodes after else .ok (false, after) := by
  have asks := matchNode_unknown idle unknown false
  rw [if_neg (by decide)] at asks
  have starts := checkForAsync_eq idle checking node.acl
  rw [if_neg ended] at starts
  rw [matchNodes, asks]
  change (Except.bind (checkForAsync acls { s with state_ := some node.acl }) _) = _
  rw [starts]
  change (if ¬ s.async_ then (if s.finished_ then _ else
    (matchNode acls _ node true).bind _) else _ : Except Fault _) = _
  rw [if_pos (by simp [idle.async_]), if_neg (by simp [idle.finished_]), again]
  cases result with
  | nmrNeedsAsync => exact absurd rfl answered
  | _ => rfl

/-- A check that may wait follows the evaluation of a rule. -/
theorem matchNodes_eq (idle : Idle acls s) (checking : s.checking_ = true) (nodes : List (Node α)) :
    ∃ known, Agrees acls s.known known ∧
      matchNodes acls false nodes s = outcomeOf s known (evalNodes acls s.known nodes) := by
  induction nodes generalizing s with
  | nil => exact ⟨s.known, idle.agrees, rfl⟩
  | cons node nodes ih =>
      by_cases known : acls.lookup node.acl = .fast ∨ s.known node.acl
      · rw [evalNodes_known idle known, matchNodes, matchNode_known idle known]
        by_cases holds : node.holds acls.value
        · rw [if_pos holds, if_pos holds]
          exact ih idle checking
        · rw [if_neg holds, if_neg holds]
          exact ⟨s.known, idle.agrees, rfl⟩
      · have asks := matchNode_unknown idle known false
        rw [if_neg (by decide)] at asks
        have starts := checkForAsync_eq idle checking node.acl
        obtain ⟨slow, unknown⟩ := not_or.mp known
        rw [Bool.not_eq_true] at unknown
        cases kind : acls.lookup node.acl with
        | fast => exact absurd kind slow
        | later =>
            refine ⟨s.known, idle.agrees, ?_⟩
            rw [if_pos kind] at starts
            rw [evalNodes, if_neg (by simp [kind]), if_pos ⟨kind, unknown⟩, matchNodes, asks]
            change (Except.bind (checkForAsync acls { s with state_ := some node.acl }) _) = _
            rw [starts]
            simp [Except.bind, idle.finished_, outcomeOf]
        | atOnce =>
            have told : Idle acls { s with
                known := update s.known node.acl true } := by
              refine ⟨idle.async_, idle.finished_, idle.state_, fun a undone => ?_⟩
              have other : a ≠ node.acl := by
                rintro rfl
                exact absurd (kind.symm.trans undone) (by decide)
              exact (update_of_ne other _ _).trans (idle.undone a undone)
            have agrees : Agrees acls s.known (update s.known node.acl true) := by
              refine ⟨fun a later => ?_, told.undone⟩
              have other : a ≠ node.acl := by
                rintro rfl
                exact absurd (kind.symm.trans later) (by decide)
              exact update_of_ne other _ _
            have again := @matchNode_known α acls _ told node
              (.inr (update_self node.acl true s.known)) true
            have retry := matchNodes_retry idle checking known (by simp [kind])
              (by simpa [kind] using again) (by split <;> decide) nodes
            rw [evalNodes, if_neg (by simp [kind]), if_neg (by simp [kind]), retry]
            by_cases holds : node.holds acls.value
            · obtain ⟨known, later, follows⟩ := ih told checking
              rw [evalNodes_agrees agrees, outcomeOf_known] at follows
              rw [if_pos holds, if_pos rfl, if_pos holds]
              exact ⟨known, agrees.trans later, follows⟩
            · rw [if_neg holds, if_neg (by decide), if_neg holds]
              exact ⟨_, agrees, rfl⟩
        | undone =>
            refine ⟨s.known, idle.agrees, ?_⟩
            have same : update s.known node.acl false = s.known := by
              rw [← unknown]
              exact update_eq_self _ _
            have again := matchNode_unknown idle known true
            rw [if_pos rfl] at again
            have retry := matchNodes_retry idle checking known (by simp [kind])
              (by simpa [kind, same] using again) (by decide) nodes
            rw [evalNodes, if_pos kind, retry, if_neg (by decide), ← idle.state_]
            rfl

/-! ## A check from rule to rule -/

/-- A check that is neither waiting nor over. -/
structure Ready (acls : Acls α) (s : Checklist α) : Prop extends Idle acls s where
  callback : s.callback = true
  checking_ : s.checking_ = false
  answers : s.answers = []

/-- A check that waits for the lookup of an ACL, after which it goes on with some rules. -/
structure Waiting (acls : Acls α) (s : Checklist α) (a : α) (rest : List (Rule α)) : Prop where
  later : acls.lookup a = .later
  unknown : s.known a = false
  accessList : s.accessList = rest
  async_ : s.async_ = true
  finished_ : s.finished_ = false
  state_ : s.state_ = some a
  undone : ∀ a, acls.lookup a = .undone → s.known a = false
  callback : s.callback = true
  checking_ : s.checking_ = false
  answers : s.answers = []

/-- A check that has called back once. -/
structure Answered (s : Checklist α) (answer : Allow) : Prop where
  callback : s.callback = false
  async_ : s.async_ = false
  answers : s.answers = [answer]

/-- What a check is after a run through the rules. -/
def Follows (acls : Acls α) (known : α → Bool) (s : Checklist α) : Progress α → Prop
  | .answer allow => Answered s allow
  | .waits a rest => Waiting acls s a rest ∧ Agrees acls known s.known

omit [DecidableEq α] in
theorem Follows.of_agrees {middle : α → Bool} {progress : Progress α}
    (follows : Follows acls middle s progress) (agrees : Agrees acls known middle) :
    Follows acls known s progress := by
  cases progress with
  | answer allow => exact follows
  | waits a rest => exact ⟨follows.1, agrees.trans follows.2⟩

/-- The run through the rules follows their evaluation. -/
theorem matchRules_follows (ready : Ready acls s) (rules : List (Rule α)) (last : Allow) :
    ∃ after, matchRules acls rules last s = .ok after ∧
      Follows acls s.known after (evalRules acls s.known rules last) := by
  induction rules generalizing s last with
  | nil =>
      refine ⟨{ s with
        finished_ := true
        allow_ := implicitAnswer last
        callback := false
        answers := [implicitAnswer last] }, ?_, rfl, ready.async_, rfl⟩
      simp [matchRules, calcImplicitAnswer, markFinished, checkCallback, Except.bind,
        ready.finished_, ready.async_, ready.callback, ready.answers]
  | cons rule rules ih =>
      have idle : Idle acls { s with accessList := rule :: rules, checking_ := true } :=
        ⟨ready.async_, ready.finished_, ready.state_, ready.undone⟩
      obtain ⟨known, agrees, follows⟩ := matchNodes_eq idle rfl rule.aclList
      rw [evalRules, matchRules, checkAccessList, matchAclList, if_neg (by simp [ready.finished_]),
        follows]
      dsimp only
      cases evaluated : evalNodes acls s.known rule.aclList with
      | matched =>
          refine ⟨{ s with
            accessList := []
            known
            finished_ := true
            allow_ := rule.allow
            callback := false
            answers := [rule.allow]
            checking_ := false }, ?_, rfl, ready.async_, rfl⟩
          simp [outcomeOf, markFinished, checkCallback, Except.bind, ready.finished_, ready.async_,
            ready.callback, ready.answers]
      | mismatched =>
          have next : Ready acls { s with accessList := rules, known, checking_ := false } :=
            ⟨⟨ready.async_, ready.finished_, ready.state_, agrees.undone⟩, ready.callback, rfl,
              ready.answers⟩
          obtain ⟨after, runs, last⟩ := ih next rule.allow
          refine ⟨after, ?_, ?_⟩
          · simpa [outcomeOf, Except.bind, ready.finished_, ready.async_] using runs
          · rw [evalRules_agrees agrees] at last
            exact last.of_agrees agrees
      | failed =>
          refine ⟨{ s with
            accessList := []
            known
            finished_ := true
            allow_ := .ACCESS_DUNNO
            callback := false
            answers := [.ACCESS_DUNNO]
            checking_ := false }, ?_, rfl, ready.async_, rfl⟩
          simp [outcomeOf, checkCallback, Except.bind, ready.async_, ready.callback, ready.answers]
      | waits a =>
          obtain ⟨later, unknown, -⟩ := evalNodes_waits evaluated
          refine ⟨{ s with
            accessList := rule :: rules
            known
            async_ := true
            state_ := some a
            checking_ := false }, ?_, ?_, agrees⟩
          · simp [outcomeOf, Except.bind]
          · exact ⟨later, (agrees.later a later).trans unknown, rfl, rfl, ready.finished_, rfl,
              agrees.undone, ready.callback, rfl, ready.answers⟩

/-- When its lookup ends, a check goes on from the rule where it was. -/
theorem resume_follows {a : α} {rest : List (Rule α)} (waiting : Waiting acls s a rest)
    (some : rest ≠ []) (last : Allow) :
    ∃ after, s.resume acls = .ok after ∧
      Follows acls (update s.known a true) after
        (evalRules acls (update s.known a true) rest last) := by
  obtain rfl := waiting.accessList
  have ready : Ready acls { s with
      known := update s.known a true, async_ := false, state_ := none } := by
    refine ⟨⟨rfl, waiting.finished_, rfl, fun b undone => ?_⟩, waiting.callback,
      waiting.checking_, waiting.answers⟩
    have other : b ≠ a := by
      rintro rfl
      exact absurd (waiting.later.symm.trans undone) (by decide)
    exact (update_of_ne other _ _).trans (waiting.undone b undone)
  have done : s.lookupDone acls = .ok { s with
      known := update s.known a true, async_ := false, state_ := none } := by
    simp [lookupDone, waiting.state_, asyncInProgress, changeState, Except.bind,
      waiting.finished_, waiting.later]
  obtain ⟨after, runs, follows⟩ := matchRules_follows ready s.accessList .ACCESS_DUNNO
  refine ⟨after, ?_, ?_⟩
  · rw [resume, done]
    change matchNonBlocking acls _ = _
    rw [matchNonBlocking, if_neg (by simp [waiting.checking_])]
    dsimp only
    rw [if_neg some]
    exact runs
  · obtain ⟨rule, rules, same⟩ := exists_cons_of_ne_nil some
    rw [same] at follows ⊢
    exact follows

end Checklist

/-! ## The answer of the evaluation -/

/-- The answer when some lookups cannot be done. -/
def expectedAnswer (acls : Acls α) (rules : List (Rule α)) : Allow :=
  if ∃ a ∈ reached acls.value rules, acls.lookup a = .undone then .ACCESS_DUNNO
  else firstMatch acls.value rules

/-- The answer from some rule on, after a rule with an action. -/
def expectedFrom (acls : Acls α) : List (Rule α) → Allow → Allow
  | [], last => Checklist.implicitAnswer last
  | rule :: rules, _ =>
      if ∃ a ∈ reachedNodes acls.value rule.aclList, acls.lookup a = .undone then .ACCESS_DUNNO
      else if rule.holds acls.value then rule.allow
      else expectedFrom acls rules rule.allow

section Answers

variable {acls : Acls α} {known : α → Bool}

theorem expectedFrom_eq (rules : List (Rule α)) (last : Allow) :
    expectedFrom acls rules last =
      if ∃ a ∈ reached acls.value rules, acls.lookup a = .undone then .ACCESS_DUNNO
      else if rules = [] then Checklist.implicitAnswer last
      else firstMatch acls.value rules := by
  induction rules generalizing last with
  | nil => simp [expectedFrom, reached]
  | cons rule rules ih =>
      rw [expectedFrom, ih, reached, if_neg (cons_ne_nil rule rules)]
      by_cases undone : ∃ a ∈ reachedNodes acls.value rule.aclList, acls.lookup a = .undone
      · obtain ⟨a, member, cannot⟩ := undone
        rw [if_pos ⟨a, member, cannot⟩, if_pos ⟨a, mem_append_left _ member, cannot⟩]
      · by_cases holds : rule.holds acls.value
        · rw [if_neg undone, if_pos holds, if_pos holds, append_nil, if_neg undone, firstMatch,
            List.find?_cons_of_pos holds]
        · have later : (∃ a ∈ reachedNodes acls.value rule.aclList ++ reached acls.value rules,
              acls.lookup a = .undone) ↔
                ∃ a ∈ reached acls.value rules, acls.lookup a = .undone := by
            simp only [mem_append, or_and_right, exists_or, undone, false_or]
          rw [if_neg undone, if_neg holds, if_neg holds]
          simp only [later]
          congr 1
          rw [firstMatch, firstMatch, List.find?_cons_of_neg holds]
          cases rules with
          | nil => simp
          | cons next rules => simp

theorem expectedFrom_start (rules : List (Rule α)) :
    expectedFrom acls rules .ACCESS_DUNNO = expectedAnswer acls rules := by
  rw [expectedFrom_eq, expectedAnswer]
  congr 1
  split
  · next empty =>
      subst empty
      rfl
  · rfl

/-- What a result says about the first match. -/
def Result.Means (acls : Acls α) (nodes : List (Node α)) : Result α → Prop
  | .matched => nodes.all (Node.holds acls.value) = true ∧
      ∀ a ∈ reachedNodes acls.value nodes, acls.lookup a ≠ .undone
  | .mismatched => nodes.all (Node.holds acls.value) = false ∧
      ∀ a ∈ reachedNodes acls.value nodes, acls.lookup a ≠ .undone
  | .failed => ∃ a ∈ reachedNodes acls.value nodes, acls.lookup a = .undone
  | .waits _ => True

/-- A node that holds leaves the rest of the rule to decide. -/
theorem Result.Means.cons {node : Node α} {nodes : List (Node α)} {result : Result α}
    (means : result.Means acls nodes) (holds : node.holds acls.value = true)
    (done : acls.lookup node.acl ≠ .undone) : result.Means acls (node :: nodes) := by
  have reaches : reachedNodes acls.value (node :: nodes) =
      node.acl :: reachedNodes acls.value nodes := by
    rw [reachedNodes, if_pos holds]
  cases result with
  | waits a => trivial
  | failed =>
      obtain ⟨a, member, undone⟩ := means
      exact ⟨a, by rw [reaches]; exact mem_cons_of_mem _ member, undone⟩
  | matched | mismatched =>
      refine ⟨by rw [all_cons, holds, means.1]; rfl, ?_⟩
      rw [reaches, forall_mem_cons]
      exact ⟨done, means.2⟩

theorem evalNodes_means (nodes : List (Node α)) :
    (evalNodes acls known nodes).Means acls nodes := by
  induction nodes with
  | nil => exact ⟨rfl, by simp [reachedNodes]⟩
  | cons node nodes ih =>
      rw [evalNodes]
      split
      · next undone => exact ⟨node.acl, by simp [reachedNodes], undone⟩
      · next done =>
          split
          · trivial
          · split
            · next holds => exact ih.cons holds done
            · next fails =>
                rw [Bool.not_eq_true] at fails
                refine ⟨by rw [all_cons, fails]; rfl, ?_⟩
                simpa [reachedNodes, fails] using done

/-- What is left to be looked up, counted with multiplicity. -/
def blocked (acls : Acls α) (known : α → Bool) (rules : List (Rule α)) : ℕ :=
  (rules.flatMap Rule.aclList).countP fun node =>
    acls.lookup node.acl = .later ∧ known node.acl = false

/-- Where a run stops: with the expected answer, or at a rule that is still blocked. -/
def Progress.Means (acls : Acls α) (known : α → Bool) (rules : List (Rule α)) (last : Allow) :
    Progress α → Prop
  | .answer allow => allow = expectedFrom acls rules last
  | .waits a rest => rest ≠ [] ∧ (∀ other,
    expectedFrom acls rest other = expectedFrom acls rules last)
      ∧ blocked acls known rest ≤ blocked acls known rules ∧
      acls.lookup a = .later ∧ known a = false ∧ ∃ node ∈ rest.flatMap Rule.aclList, node.acl = a

theorem evalRules_means (rules : List (Rule α)) (last : Allow) :
    (evalRules acls known rules last).Means acls known rules last := by
  induction rules generalizing last with
  | nil => rfl
  | cons rule rules ih =>
      have means := @evalNodes_means α acls known rule.aclList
      rw [evalRules]
      cases evaluated : evalNodes acls known rule.aclList with
      | matched =>
          rw [evaluated] at means
          have none : ¬ ∃ a ∈ reachedNodes acls.value rule.aclList, acls.lookup a = .undone := by
            rintro ⟨a, member, undone⟩
            exact means.2 a member undone
          change rule.allow = expectedFrom acls (rule :: rules) last
          rw [expectedFrom, if_neg none, Rule.holds, if_pos means.1]
      | mismatched =>
          rw [evaluated] at means
          have none : ¬ ∃ a ∈ reachedNodes acls.value rule.aclList, acls.lookup a = .undone := by
            rintro ⟨a, member, undone⟩
            exact means.2 a member undone
          have same : expectedFrom acls (rule :: rules) last =
              expectedFrom acls rules rule.allow := by
            rw [expectedFrom, if_neg none, if_neg]
            rw [Bool.not_eq_true]
            exact means.1
          have later := ih rule.allow
          dsimp only
          cases progress : evalRules acls known rules rule.allow with
          | answer allow =>
              rw [progress] at later
              exact later.trans same.symm
          | waits a rest =>
              rw [progress] at later
              obtain ⟨some, expected, fewer, blocks⟩ := later
              refine ⟨some, fun other => (expected other).trans same.symm, fewer.trans ?_, blocks⟩
              unfold blocked
              rw [flatMap_cons, countP_append]
              exact Nat.le_add_left _ _
      | failed =>
          rw [evaluated] at means
          exact (if_pos means).symm
      | waits a =>
          obtain ⟨later, unknown, member⟩ := Checklist.evalNodes_waits evaluated
          obtain ⟨node, there, rfl⟩ := List.mem_map.mp member
          refine ⟨cons_ne_nil rule rules, fun other => rfl, le_rfl, later, unknown, node, ?_,
            rfl⟩
          rw [flatMap_cons]
          exact mem_append_left _ there

/-- Another ACL that is known leaves less to be looked up, if it is missing. -/
theorem blocked_update [DecidableEq α] {rules : List (Rule α)} {a : α}
    (later : acls.lookup a = .later) (unknown : known a = false)
    (there : ∃ node ∈ rules.flatMap Rule.aclList, node.acl = a) :
    blocked acls (update known a true) rules < blocked acls known rules := by
  obtain ⟨node, member, rfl⟩ := there
  have fewer (nodes : List (Node α)) :
      nodes.countP (fun other => acls.lookup other.acl = .later ∧
        update known node.acl true other.acl = false) ≤
      nodes.countP (fun other => acls.lookup other.acl = .later ∧ known other.acl = false) := by
    refine countP_mono_left fun other _ still => ?_
    simp only [decide_eq_true_eq] at still ⊢
    refine ⟨still.1, ?_⟩
    by_cases same : other.acl = node.acl
    · rw [same, update_self] at still
      exact absurd still.2 (by decide)
    · rw [update_of_ne same] at still
      exact still.2
  obtain ⟨front, back, nodes⟩ := append_of_mem member
  have first := fewer front
  have second := fewer back
  unfold blocked
  rw [nodes, countP_append, countP_append, countP_cons_of_neg (by simp),
    countP_cons_of_pos (by simp [later, unknown])]
  omega

theorem blocked_agrees {after : α → Bool} (agrees : Checklist.Agrees acls known after)
    (rules : List (Rule α)) : blocked acls after rules = blocked acls known rules := by
  refine countP_congr fun node _ => ?_
  simp only [decide_eq_true_eq, and_congr_right_iff]
  intro later
  rw [agrees.later node.acl later]

end Answers

/-! ## Waiting for all lookups -/

namespace Checklist

variable [DecidableEq α] {acls : Acls α} {rules : List (Rule α)}

/-- After so many lookups, a check waits for another one. -/
structure Stalled (acls : Acls α) (rules : List (Rule α)) (ended : ℕ) (s : Checklist α) (a : α)
    (rest : List (Rule α)) : Prop where
  reached : checkAfter acls rules ended = .ok s
  waiting : Waiting acls s a rest
  some : rest ≠ []
  expected : ∀ last, expectedFrom acls rest last = expectedAnswer acls rules
  there : ∃ node ∈ rest.flatMap Rule.aclList, node.acl = a
  fewer : blocked acls s.known rest + ended ≤ (rules.flatMap Rule.aclList).length

/-- After so many lookups, a check has called back with the expected answer. -/
def Ends (acls : Acls α) (rules : List (Rule α)) (ended : ℕ) : Prop :=
  ∃ s, checkAfter acls rules ended = .ok s ∧ Answered s (expectedAnswer acls rules)

variable {ended : ℕ} {s : Checklist α}

/-- A check that follows an evaluation has ended or stalls. -/
theorem ends_or_stalled {known : α → Bool} {from_ : List (Rule α)} {last : Allow}
    (reached : checkAfter acls rules ended = .ok s)
    (follows : Follows acls known s (evalRules acls known from_ last))
    (expected : expectedFrom acls from_ last = expectedAnswer acls rules)
    (fewer : blocked acls known from_ + ended ≤ (rules.flatMap Rule.aclList).length) :
    Ends acls rules ended ∨ ∃ s a rest, Stalled acls rules ended s a rest := by
  have means := @evalRules_means α acls known from_ last
  cases progress : evalRules acls known from_ last with
  | answer allow =>
      rw [progress] at follows means
      refine .inl ⟨s, reached, ?_⟩
      rw [← expected, ← means]
      exact follows
  | waits a rest =>
      rw [progress] at follows means
      obtain ⟨waiting, agrees⟩ := follows
      obtain ⟨some, same, less, -, -, there⟩ := means
      refine .inr ⟨s, a, rest, reached, waiting, some, fun last => (same last).trans expected,
        there, ?_⟩
      rw [blocked_agrees agrees]
      omega

theorem starts : Ends acls rules 0 ∨ ∃ s a rest, Stalled acls rules 0 s a rest := by
  by_cases empty : rules = []
  · subst empty
    exact .inl ⟨_, rfl, rfl, rfl, rfl⟩
  · have ready : Ready acls { accessList := rules, callback := true } :=
      ⟨⟨rfl, rfl, rfl, fun _ _ => rfl⟩, rfl, rfl, rfl⟩
    obtain ⟨after, runs, follows⟩ := matchRules_follows ready rules .ACCESS_DUNNO
    have reached : checkAfter acls rules 0 = .ok after := by
      rw [checkAfter, nonBlockingCheck, matchNonBlocking, if_neg (by simp), if_neg empty]
      exact runs
    refine ends_or_stalled reached follows (expectedFrom_start rules) ?_
    exact countP_le_length

variable {a : α} {rest : List (Rule α)}

theorem Stalled.next (stalled : Stalled acls rules ended s a rest) :
    Ends acls rules (ended + 1) ∨ ∃ s a rest, Stalled acls rules (ended + 1) s a rest := by
  obtain ⟨after, resumes, follows⟩ :=
    resume_follows stalled.waiting stalled.some .ACCESS_DUNNO
  have reached : checkAfter acls rules (ended + 1) = .ok after := by
    rw [checkAfter, stalled.reached]
    exact resumes
  have less := blocked_update stalled.waiting.later stalled.waiting.unknown stalled.there
  have fewer := stalled.fewer
  exact ends_or_stalled reached follows (stalled.expected _) (by omega)

/-- As long as it waits, a check has not called back. -/
def Waits (acls : Acls α) (rules : List (Rule α)) (ended : ℕ) : Prop :=
  ∃ s, checkAfter acls rules ended = .ok s ∧ s.async_ = true ∧ s.answers = []

theorem Stalled.waits (stalled : Stalled acls rules ended s a rest) : Waits acls rules ended :=
  ⟨s, stalled.reached, stalled.waiting.async_, stalled.waiting.answers⟩

/-- A stalled check ends, as there is less left to be looked up each time. -/
theorem Stalled.ends (stalled : Stalled acls rules ended s a rest)
    (before : ∀ earlier < ended, Waits acls rules earlier) :
    ∃ final, Ends acls rules final ∧ ∀ earlier < final, Waits acls rules earlier := by
  induction left : (rules.flatMap Rule.aclList).length - ended generalizing ended s a rest with
  | zero =>
      have fewer := stalled.fewer
      have less := blocked_update stalled.waiting.later stalled.waiting.unknown stalled.there
      omega
  | succ left ih =>
      have waits : ∀ earlier < ended + 1, Waits acls rules earlier := by
        intro earlier early
        rcases Nat.lt_succ_iff_lt_or_eq.mp early with earlier | rfl
        · exact before _ earlier
        · exact stalled.waits
      rcases stalled.next with ends | ⟨s, a, rest, stalls⟩
      · exact ⟨ended + 1, ends, waits⟩
      · exact ih stalls waits (by omega)

theorem nonBlockingCheck_ends (acls : Acls α) (rules : List (Rule α)) :
    ∃ final, Ends acls rules final ∧ ∀ earlier < final, Waits acls rules earlier := by
  rcases @starts α _ acls rules with ends | ⟨s, a, rest, stalled⟩
  · exact ⟨0, ends, by simp⟩
  · exact stalled.ends (by simp)

end Checklist

/-! ## Checks that may not wait -/

/-- The ACLs, where no lookup can be done. -/
def Acls.fastOnly (acls : Acls α) : Acls α where
  value := acls.value
  lookup a := if acls.lookup a = .fast then .fast else .undone

namespace Checklist

variable {acls : Acls α} {s : Checklist α}

theorem lookup_fastOnly {a : α} : acls.fastOnly.lookup a = .undone ↔ acls.lookup a ≠ .fast := by
  unfold Acls.fastOnly
  dsimp only
  split <;> simp_all

variable [DecidableEq α]

/-- A fast check follows the evaluation in which no lookup can be done. -/
theorem matchNodes_fast (idle : Idle acls.fastOnly s) (nodes : List (Node α)) :
    matchNodes acls true nodes s =
      outcomeOf s s.known (evalNodes acls.fastOnly s.known nodes) := by
  have unknown (a : α) (slow : acls.lookup a ≠ .fast) : s.known a = false :=
    idle.undone a (lookup_fastOnly.mpr slow)
  have same : Idle acls s := by
    refine ⟨idle.async_, idle.finished_, idle.state_, fun a undone => unknown a ?_⟩
    rw [undone]
    decide
  induction nodes with
  | nil => rfl
  | cons node nodes ih =>
      by_cases fast : acls.lookup node.acl = .fast
      · have kind : acls.fastOnly.lookup node.acl = .fast := if_pos fast
        rw [evalNodes_known idle (.inl kind), matchNodes, matchNode_known same (.inl fast)]
        change _ = outcomeOf s s.known (if node.holds acls.value then _ else _)
        by_cases holds : node.holds acls.value
        · rw [if_pos holds, if_pos holds]
          exact ih
        · rw [if_neg holds, if_neg holds]
          rfl
      · have asks := matchNode_unknown same
          (by simp [fast, unknown node.acl fast] :
            ¬ (acls.lookup node.acl = .fast ∨ s.known node.acl)) true
        rw [if_pos rfl] at asks
        rw [evalNodes, if_pos (lookup_fastOnly.mpr fast), matchNodes, asks, ← idle.state_]
        rfl

theorem fastRules_answer (idle : Idle acls.fastOnly s) (rules : List (Rule α)) (last : Allow) :
    ∃ after, fastRules acls rules last s = .ok after ∧
      evalRules acls.fastOnly s.known rules last = .answer after.allow_ := by
  induction rules generalizing last with
  | nil =>
      refine ⟨{ s with finished_ := true, allow_ := implicitAnswer last }, ?_, rfl⟩
      simp [fastRules, calcImplicitAnswer, markFinished, idle.finished_, idle.async_]
  | cons rule rules ih =>
      have follows := matchNodes_fast idle rule.aclList
      rw [fastRules, evalRules, matchAclList, if_neg (by simp [idle.finished_]), follows]
      cases evaluated : evalNodes acls.fastOnly s.known rule.aclList with
      | matched =>
          refine ⟨{ s with finished_ := true, allow_ := rule.allow }, ?_, rfl⟩
          simp [outcomeOf, markFinished, Except.bind, idle.finished_, idle.async_]
      | mismatched =>
          obtain ⟨after, runs, answers⟩ := ih rule.allow
          refine ⟨after, ?_, answers⟩
          change (if s.finished_ then _ else fastRules acls rules rule.allow s) = _
          rw [if_neg (by simp [idle.finished_])]
          exact runs
      | failed =>
          refine ⟨{ s with finished_ := true, allow_ := .ACCESS_DUNNO }, ?_, rfl⟩
          simp [outcomeOf, Except.bind]
      | waits a =>
          obtain ⟨later, -, -⟩ := evalNodes_waits evaluated
          unfold Acls.fastOnly at later
          dsimp only at later
          split at later <;> cases later

theorem fastCheck_eq (acls : Acls α) (rules : List (Rule α)) :
    fastCheck acls rules = .ok (expectedAnswer acls.fastOnly rules) := by
  have idle : Idle acls.fastOnly { accessList := rules } := ⟨rfl, rfl, rfl, fun _ _ => rfl⟩
  obtain ⟨after, runs, answers⟩ := fastRules_answer idle rules .ACCESS_DUNNO
  have means := @evalRules_means α acls.fastOnly (fun _ => false) rules .ACCESS_DUNNO
  rw [answers] at means
  rw [fastCheck, runs, ← expectedFrom_start, ← show after.allow_ = _ from means]
  rfl

end Checklist

/-- A slow check calls back once, when all lookups that it has waited for have ended, and then with
the answer of the first match unless a lookup cannot be done; a fast check gives the same answer
unless it reaches an ACL that needs a lookup.  No assertion fails. -/
theorem checks_answer_firstMatch [DecidableEq α] (acls : Acls α) (rules : List (Rule α)) :
    (∃ final,
      (∃ s, Checklist.checkAfter acls rules final = .ok s ∧ s.callback = false ∧
        s.async_ = false ∧ s.answers =
          [if ∃ a ∈ reached acls.value rules, acls.lookup a = .undone then .ACCESS_DUNNO
            else firstMatch acls.value rules]) ∧
      ∀ earlier < final, ∃ s, Checklist.checkAfter acls rules earlier = .ok s ∧
        s.async_ = true ∧ s.answers = []) ∧
    Checklist.fastCheck acls rules =
      .ok (if ∃ a ∈ reached acls.value rules, acls.lookup a ≠ .fast then .ACCESS_DUNNO
        else firstMatch acls.value rules) := by
  obtain ⟨final, ⟨s, reached, answered⟩, waits⟩ := Checklist.nonBlockingCheck_ends acls rules
  refine ⟨⟨final, ⟨s, reached, answered.callback, answered.async_, answered.answers⟩, waits⟩, ?_⟩
  rw [Checklist.fastCheck_eq, expectedAnswer]
  simp only [Checklist.lookup_fastOnly]
  rfl

end Acl
end Squid
