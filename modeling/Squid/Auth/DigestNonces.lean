import Squid.Auth.Digest

/-!
# References to Digest nonces

The references that a nonce counts are those of the nonce cache, of the nonce lists of users and of
requests, as long as no nonce gets more of them than a `short` can count.  In the middle of an
operation a nonce may count references that are owed: they are dropped, or taken, by what follows.
-/

namespace Squid
namespace Digest

open CRuntime List Table Option

variable {s t : State} {owed : ℕ → ℤ} {name owner id : ℕ} {nonce : Nonce}

/-- How often a user holds a nonce. -/
def User.holds (name : ℕ) (user : User) : ℤ := user.nonces.count name

/-- How often a request holds a nonce. -/
def UserRequest.holds (name : ℕ) (request : UserRequest) : ℤ :=
  if request.nonce = some name then 1 else 0

/-- The holders of a nonce among the users and the requests. -/
def uses (s : State) (name : ℕ) : ℤ :=
  s.users.total (User.holds name) + s.requests.total (UserRequest.holds name)

/-- The link of the nonce cache. -/
def cacheLink (nonce : Nonce) : ℤ := if nonce.incache then 1 else 0

/-- Every nonce counts its holders and has one; a nonce that has been freed has none. -/
structure Exact (s : State) : Prop where
  counted : ∀ {name nonce}, s.nonces.find name = some nonce →
    nonce.references = cacheLink nonce + uses s name
  used : ∀ {name nonce}, s.nonces.find name = some nonce → 0 < nonce.references
  freed : ∀ {name}, s.nonces.find name = none → uses s name = 0
  deletes : s.deleteFailed = false

/-- The same with some references owed, and with names given in order. -/
structure Balanced (s : State) (owed : ℕ → ℤ) : Prop where
  counted : ∀ {name nonce}, s.nonces.find name = some nonce →
    nonce.references = cacheLink nonce + uses s name + owed name
  used : ∀ {name nonce}, s.nonces.find name = some nonce →
    0 < nonce.references ∧ nonce.references < 2 ^ 15
  freed : ∀ {name}, s.nonces.find name = none → uses s name + owed name = 0
  deletes : s.deleteFailed = false
  nonceNames : ∀ {n}, s.nonceCount ≤ n → s.nonces.find n = none
  userNames : ∀ {n}, s.userCount ≤ n → s.users.find n = none
  requestNames : ∀ {n}, s.requestCount ≤ n → s.requests.find n = none

/-- Some more references to a nonce are owed. -/
def owe (owed : ℕ → ℤ) (name : ℕ) (more : ℤ) : ℕ → ℤ :=
  fun n => if n = name then owed n + more else owed n

@[simp] theorem owe_self (owed : ℕ → ℤ) (name : ℕ) (more : ℤ) :
    owe owed name more name = owed name + more := if_pos rfl

theorem owe_ne (owed : ℕ → ℤ) (more : ℤ) {n : ℕ} (ne : n ≠ name) :
    owe owed name more n = owed n := if_neg ne

theorem owe_owe (owed : ℕ → ℤ) (name : ℕ) (more less : ℤ) :
    owe (owe owed name more) name less = owe owed name (more + less) := by
  funext n
  unfold owe
  split
  · exact Int.add_assoc _ _ _
  · rfl

@[simp] theorem owe_zero (owed : ℕ → ℤ) (name : ℕ) : owe owed name 0 = owed := by
  funext n
  unfold owe
  split
  · exact Int.add_zero _
  · rfl

theorem uses_nonneg (s : State) (name : ℕ) : 0 ≤ uses s name := by
  refine Int.add_nonneg (total_nonneg fun user => ?_) (total_nonneg fun request => ?_)
  · exact Int.natCast_nonneg _
  · unfold UserRequest.holds
    split <;> decide

theorem cacheLink_nonneg (nonce : Nonce) : 0 ≤ cacheLink nonce := by
  unfold cacheLink
  split <;> decide

namespace Balanced

theorem initial : Balanced {} 0 where
  counted := nofun
  used := nofun
  freed := fun _ => rfl
  deletes := rfl
  nonceNames := fun _ => rfl
  userNames := fun _ => rfl
  requestNames := fun _ => rfl

section

variable (balanced : Balanced s owed)
include balanced

theorem exact (settled : owed = 0) : Exact s := by
  subst settled
  constructor
  · intro name nonce found
    exact (balanced.counted found).trans (Int.add_zero _)
  · exact fun found => (balanced.used found).1
  · intro name absent
    exact (Int.add_zero _).symm.trans (balanced.freed absent)
  · exact balanced.deletes

/-- A nonce is changed together with what is owed for it. -/
theorem shiftNonce {new : Nonce} {change : ℤ} (found : s.nonces.find name = some nonce)
    (references : new.references - cacheLink new = nonce.references - cacheLink nonce + change)
    (used : 0 < new.references ∧ new.references < 2 ^ 15) :
    Balanced { s with nonces := s.nonces.set name new } (owe owed name change) where
  counted := by
    intro other changed present
    by_cases same : other = name
    · subst same
      cases (find_set_self found).symm.trans present
      have counted := balanced.counted found
      change _ = _ + uses s other + owe owed other change other
      rw [owe_self]
      omega
    · have counted := balanced.counted ((find_set_ne same).symm.trans present)
      change _ = _ + uses s other + owe owed name change other
      rw [owe_ne _ _ same]
      omega
  used := by
    intro other changed present
    by_cases same : other = name
    · subst same
      cases (find_set_self found).symm.trans present
      exact used
    · exact balanced.used ((find_set_ne same).symm.trans present)
  freed := by
    intro other absent
    have before := find_set_eq_none_iff.mp absent
    have freed := balanced.freed before
    change uses s other + owe owed name change other = 0
    rw [owe_ne _ _ fun same => by rw [same, found] at before; cases before]
    exact freed
  deletes := balanced.deletes
  nonceNames := fun beyond => find_set_eq_none_iff.mpr (balanced.nonceNames beyond)
  userNames := balanced.userNames
  requestNames := balanced.requestNames

/-- A nonce is changed, but neither its references nor its link to the cache. -/
theorem setNonce {new : Nonce} (found : s.nonces.find name = some nonce)
    (references : new.references = nonce.references) (incache : new.incache = nonce.incache) :
    Balanced { s with nonces := s.nonces.set name new } owed := by
  have moved : Balanced { s with nonces := s.nonces.set name new } (owe owed name 0) := by
    refine balanced.shiftNonce found ?_ ?_
    · rw [cacheLink, incache, references, Int.add_zero]
      rfl
    · rw [references]
      exact balanced.used found
  rwa [owe_zero] at moved

/-- Users and requests are changed, and what they hold no more is owed. -/
theorem shiftUses {after : ℕ → ℤ} (nonces : t.nonces = s.nonces)
    (shift : ∀ n, uses t n + after n = uses s n + owed n)
    (deletes : t.deleteFailed = s.deleteFailed) (nonceCount : t.nonceCount = s.nonceCount)
    (userNames : ∀ {n}, t.userCount ≤ n → t.users.find n = none)
    (requestNames : ∀ {n}, t.requestCount ≤ n → t.requests.find n = none) : Balanced t after where
  counted := by
    intro name nonce found
    have counted := balanced.counted (nonces ▸ found)
    have moved := shift name
    omega
  used := fun found => balanced.used (nonces ▸ found)
  freed := fun absent => (shift _).trans (balanced.freed (nonces ▸ absent))
  deletes := deletes.trans balanced.deletes
  nonceNames := fun beyond => nonces ▸ balanced.nonceNames (nonceCount ▸ beyond)
  userNames := userNames
  requestNames := requestNames

end

/-! ## The life of a nonce -/

/-- A nonce with a last reference is freed when that is dropped. -/
theorem eraseNonce (balanced : Balanced s owed) (found : s.nonces.find name = some nonce)
    (last : nonce.references = 1) (unlinked : cacheLink nonce = 0) :
    Balanced { s with nonces := s.nonces.erase name } (owe owed name (-1)) where
  counted := by
    intro other kept present
    have ne : other ≠ name := fun same => by
      rw [same, find_erase_self] at present
      cases present
    have counted := balanced.counted ((find_erase_ne ne).symm.trans present)
    change _ = _ + uses s other + owe owed name (-1) other
    rw [owe_ne _ _ ne]
    exact counted
  used := by
    intro other kept present
    have ne : other ≠ name := fun same => by
      rw [same, find_erase_self] at present
      cases present
    exact balanced.used ((find_erase_ne ne).symm.trans present)
  freed := by
    intro other absent
    change uses s other + owe owed name (-1) other = 0
    by_cases same : other = name
    · subst same
      have counted := balanced.counted found
      rw [owe_self]
      omega
    · rw [owe_ne _ _ same]
      exact balanced.freed ((find_erase_ne same).symm.trans absent)
  deletes := balanced.deletes
  nonceNames := fun beyond => find_erase_of_none (balanced.nonceNames beyond)
  userNames := balanced.userNames
  requestNames := balanced.requestNames

theorem link (balanced : Balanced s owed) (found : s.nonces.find name = some nonce)
    (room : nonce.references + 1 < 2 ^ 15) (happens : s.authDigestNonceLink name = some t) :
    Balanced t (owe owed name 1) := by
  obtain ⟨other, there, happens⟩ := bind_eq_some_iff.mp happens
  cases found.symm.trans there
  cases happens
  have used := balanced.used found
  have counts : int16 (nonce.references + 1) = nonce.references + 1 :=
    int16_eq (by omega) (by omega)
  refine balanced.shiftNonce found ?_ ?_
  · dsimp only [cacheLink]
    omega
  · dsimp only
    omega

theorem unlink (balanced : Balanced s owed) (debt : 0 < owed name)
    (happens : s.authDigestNonceUnlink name = some t) :
    Balanced t (owe owed name (-1)) := by
  obtain ⟨nonce, found, happens⟩ := bind_eq_some_iff.mp happens
  obtain ⟨positive, range⟩ := balanced.used found
  have counted := balanced.counted found
  have users := uses_nonneg s name
  have cache := cacheLink_nonneg nonce
  have lowered : State.lower nonce = { nonce with references := nonce.references - 1 } :=
    if_pos positive
  rw [← some.inj happens, lowered]
  unfold State.deleteUnused
  split
  next last =>
    dsimp only at last
    have unlinked : nonce.incache = false := by
      by_contra linked
      rw [Bool.not_eq_false] at linked
      rw [cacheLink, if_pos linked] at counted
      omega
    rw [State.authenticateDigestNonceDelete, if_pos ⟨last, unlinked⟩]
    dsimp only
    rw [erase_set]
    exact balanced.eraseNonce found (by omega) (if_neg (by rw [unlinked]; nofun))
  next more =>
    refine balanced.shiftNonce found ?_ ?_
    · dsimp only [cacheLink]
      omega
    · dsimp only at more ⊢
      omega

theorem purge (balanced : Balanced s owed) (nonneg : 0 ≤ owed name)
    (happens : s.authDigestNoncePurge name = some t) : Balanced t owed := by
  obtain ⟨nonce, found, happens⟩ := bind_eq_some_iff.mp happens
  split at happens
  next linked =>
    have out : Balanced { s with nonces := s.nonces.set name { nonce with incache := false } }
        (owe owed name 1) := by
      have used := balanced.used found
      refine balanced.shiftNonce found ?_ used
      rw [cacheLink, cacheLink, if_neg nofun, if_pos linked]
      dsimp only
      omega
    have debt : 0 < owe owed name 1 name := by
      rw [owe_self]
      omega
    have dropped := out.unlink debt happens
    rwa [owe_owe, Int.add_right_neg, owe_zero] at dropped
  next unlinked =>
    cases happens
    exact balanced

end Balanced

/-! ## Users and requests -/

variable {user new : User} {request changed : UserRequest}

theorem uses_setUser (found : s.users.find owner = some user) (n : ℕ) :
    uses { s with users := s.users.set owner new } n = uses s n - user.holds n + new.holds n := by
  unfold uses
  dsimp only
  rw [total_set found]
  simp only [User.holds]
  omega

theorem uses_eraseUser (found : s.users.find owner = some user) (n : ℕ) :
    uses { s with users := s.users.erase owner } n = uses s n - user.holds n := by
  unfold uses
  dsimp only
  rw [total_erase found]
  simp only [User.holds]
  omega

theorem uses_newUser (absent : s.users.find s.userCount = none) (n : ℕ) :
    uses (s.newUser new) n = uses s n + new.holds n := by
  unfold uses State.newUser
  dsimp only
  rw [total_insert absent]
  simp only [User.holds]
  omega

theorem uses_setRequest (found : s.requests.find id = some request) (n : ℕ) :
    uses { s with requests := s.requests.set id changed } n =
      uses s n - request.holds n + changed.holds n := by
  unfold uses
  dsimp only
  rw [total_set found]
  simp only [UserRequest.holds]
  omega

theorem uses_eraseRequest (found : s.requests.find id = some request) (n : ℕ) :
    uses { s with requests := s.requests.erase id } n = uses s n - request.holds n := by
  unfold uses
  dsimp only
  rw [total_erase found]
  simp only [UserRequest.holds]
  omega

theorem uses_newRequest (absent : s.requests.find s.requestCount = none) (n : ℕ) :
    uses (s.newRequest request) n = uses s n + request.holds n := by
  unfold uses State.newRequest
  dsimp only
  rw [total_insert absent]
  simp only [UserRequest.holds]
  omega

namespace Balanced

variable {after : ℕ → ℤ}

section

variable (balanced : Balanced s owed)
include balanced

/-- A user is changed, and drops or takes nonces that are owed. -/
theorem setUser (found : s.users.find owner = some user)
    (shift : ∀ n, new.holds n + after n = user.holds n + owed n) :
    Balanced { s with users := s.users.set owner new } after := by
  refine balanced.shiftUses rfl (fun n => ?_) rfl rfl ?_ balanced.requestNames
  · have held := shift n
    rw [uses_setUser found]
    omega
  · exact fun beyond => find_set_eq_none_iff.mpr (balanced.userNames beyond)

theorem newUser (idle : new.nonces = []) : Balanced (s.newUser new) owed := by
  have absent := balanced.userNames le_rfl
  refine balanced.shiftUses rfl (fun n => ?_) rfl rfl ?_ balanced.requestNames
  · rw [uses_newUser absent, User.holds, idle]
    exact congrArg (· + owed n) (Int.add_zero _)
  · intro n beyond
    have further : s.userCount + 1 ≤ n := beyond
    exact (find_insert_ne (by omega)).trans (balanced.userNames (by omega))

/-- A new request takes a reference that is owed. -/
theorem newRequest (shift : ∀ n, request.holds n + after n = owed n) :
    Balanced (s.newRequest request) after := by
  have absent := balanced.requestNames le_rfl
  refine balanced.shiftUses rfl (fun n => ?_) rfl rfl balanced.userNames ?_
  · have held := shift n
    rw [uses_newRequest absent]
    omega
  · intro n beyond
    have further : s.requestCount + 1 ≤ n := beyond
    exact (find_insert_ne (by omega)).trans (balanced.requestNames (by omega))

theorem setRequest (found : s.requests.find id = some request)
    (same : changed.nonce = request.nonce) :
    Balanced { s with requests := s.requests.set id changed } owed := by
  refine balanced.shiftUses rfl (fun n => ?_) rfl rfl balanced.userNames ?_
  · rw [uses_setRequest found, UserRequest.holds, UserRequest.holds, same]
    omega
  · exact fun beyond => find_set_eq_none_iff.mpr (balanced.requestNames beyond)

theorem eraseRequest (found : s.requests.find id = some request)
    (shift : ∀ n, after n = request.holds n + owed n) :
    Balanced { s with requests := s.requests.erase id } after := by
  refine balanced.shiftUses rfl (fun n => ?_) rfl rfl balanced.userNames ?_
  · have held := shift n
    rw [uses_eraseRequest found]
    omega
  · exact fun beyond => find_erase_of_none (balanced.requestNames beyond)

theorem eraseUser (found : s.users.find owner = some user)
    (shift : ∀ n, after n = user.holds n + owed n) :
    Balanced { s with users := s.users.erase owner } after := by
  refine balanced.shiftUses rfl (fun n => ?_) rfl rfl ?_ balanced.requestNames
  · have held := shift n
    rw [uses_eraseUser found]
    omega
  · exact fun beyond => find_erase_of_none (balanced.userNames beyond)

end

/-! ## The cache -/

theorem dropFromUser (balanced : Balanced s owed) (nonneg : 0 ≤ owed name)
    (happens : s.dropFromUser owner name = some t) : Balanced t owed := by
  obtain ⟨user, found, happens⟩ := bind_eq_some_iff.mp happens
  dsimp only at happens
  split at happens
  next held =>
    have dropped : Balanced { s with
        users := s.users.set owner { user with nonces := user.nonces.erase name } }
        (owe owed name 1) := balanced.setUser found fun n => by
        simp only [User.holds]
        by_cases same : n = name
        · subst same
          have some := count_pos_iff.mpr held
          rw [owe_self, count_erase_self]
          omega
        · rw [owe_ne _ _ same, count_erase_of_ne same]
    have debt : 0 < owe owed name 1 name := by
      rw [owe_self]
      omega
    have unlinked := dropped.unlink debt happens
    rwa [owe_owe, Int.add_right_neg, owe_zero] at unlinked
  next free =>
    cases happens
    exact balanced

theorem userUnlink (balanced : Balanced s owed) (nonneg : 0 ≤ owed name)
    (happens : s.authDigestNonceUserUnlink name = some t) : Balanced t owed := by
  obtain ⟨nonce, found, happens⟩ := bind_eq_some_iff.mp happens
  split at happens
  · cases happens
    exact balanced
  · obtain ⟨middle, dropped, happens⟩ := bind_eq_some_iff.mp happens
    obtain ⟨left, there, happens⟩ := bind_eq_some_iff.mp happens
    cases happens
    exact (balanced.dropFromUser nonneg dropped).setNonce there rfl rfl

theorem cleanupNonce {config : Config} (balanced : Balanced s owed) (nonneg : 0 ≤ owed name)
    (happens : s.cleanupNonce config name = some t) : Balanced t owed := by
  obtain ⟨nonce, found, happens⟩ := bind_eq_some_iff.mp happens
  have same : (authDigestNonceIsStale config s.current_time nonce).2.references = nonce.references ∧
      (authDigestNonceIsStale config s.current_time nonce).2.incache = nonce.incache := by
    unfold authDigestNonceIsStale
    split
    · exact ⟨rfl, rfl⟩
    · exact ⟨rfl, rfl⟩
  have aged := balanced.setNonce found same.1 same.2
  split at happens
  · dsimp only at happens
    split at happens
    · obtain ⟨middle, unlinked, purged⟩ := bind_eq_some_iff.mp happens
      exact (aged.userUnlink nonneg unlinked).purge nonneg purged
    · cases happens
      exact aged
  · cases happens
    exact balanced

variable {names : List ℕ}

/-- A loop that owes nothing after any turn. -/
theorem foldlM {f : State → ℕ → Option State}
    (each : ∀ {s t name}, Balanced s owed → f s name = some t → Balanced t owed)
    (balanced : Balanced s owed) (happens : names.foldlM f s = some t) : Balanced t owed := by
  induction names generalizing s with
  | nil =>
      cases happens
      exact balanced
  | cons name names ih =>
      obtain ⟨middle, first, later⟩ := bind_eq_some_iff.mp happens
      exact ih (each balanced first) later

/-- A new nonce has the link of the cache. -/
theorem insertNonce {new : Nonce} (balanced : Balanced s 0) (references : new.references = 1)
    (incache : new.incache = true) :
    Balanced { s with nonces := s.nonces.insert s.nonceCount new, nonceCount := s.nonceCount + 1 }
      0 where
  counted := by
    intro other nonce present
    by_cases same : other = s.nonceCount
    · subst same
      cases find_insert_self.symm.trans present
      have unused := balanced.freed (balanced.nonceNames le_rfl)
      change _ = _ + uses s s.nonceCount + _
      rw [references, cacheLink, if_pos incache]
      omega
    · exact balanced.counted ((find_insert_ne same).symm.trans present)
  used := by
    intro other nonce present
    by_cases same : other = s.nonceCount
    · subst same
      cases find_insert_self.symm.trans present
      rw [references]
      decide
    · exact balanced.used ((find_insert_ne same).symm.trans present)
  freed := by
    intro other absent
    by_cases same : other = s.nonceCount
    · subst same
      cases find_insert_self.symm.trans absent
    · exact balanced.freed ((find_insert_ne same).symm.trans absent)
  deletes := balanced.deletes
  nonceNames := by
    intro n beyond
    have further : s.nonceCount + 1 ≤ n := beyond
    exact (find_insert_ne (by omega)).trans (balanced.nonceNames (by omega))
  userNames := balanced.userNames
  requestNames := balanced.requestNames

theorem nonceNew {key : Bytes} {tries : ℕ} (balanced : Balanced s 0)
    (happens : s.authenticateDigestNonceNew key tries = some t) : Balanced t 0 := by
  unfold State.authenticateDigestNonceNew State.authDigestNonceLink at happens
  split at happens
  · simp only [find_insert_self, bind_eq_bind, bind_some, set_insert] at happens
    rw [← some.inj happens]
    exact balanced.insertNonce rfl rfl
  · cases happens

/-! ## The end of requests and users -/

theorem destroyRequest (balanced : Balanced s 0) (happens : s.destroyRequest id = some t) :
    Balanced t 0 := by
  obtain ⟨request, found, happens⟩ := bind_eq_some_iff.mp happens
  split at happens
  next none =>
    cases happens
    refine balanced.eraseRequest found fun n => ?_
    rw [UserRequest.holds, none, if_neg nofun]
    rfl
  next name held =>
    have released : Balanced { s with requests := s.requests.erase id } (owe 0 name 1) :=
      balanced.eraseRequest found fun n => by
      rw [UserRequest.holds, held]
      by_cases same : n = name
      · subst same
        rw [owe_self, if_pos rfl]
        rfl
      · rw [owe_ne _ _ same, if_neg fun equal => same (some.inj equal).symm]
        rfl
    have unlinked := released.unlink (by rw [owe_self, Pi.zero_apply]; decide) happens
    rwa [owe_owe, Int.add_right_neg, owe_zero] at unlinked

/-- What a list of nonces holds is released. -/
theorem releaseNonces (balanced : Balanced s fun n => names.count n)
    (happens : names.foldlM State.releaseNonce s = some t) : Balanced t 0 := by
  induction names generalizing s with
  | nil =>
      cases happens
      exact balanced
  | cons name names ih =>
      obtain ⟨middle, first, later⟩ := bind_eq_some_iff.mp happens
      obtain ⟨purged, out, unlinked⟩ := bind_eq_some_iff.mp first
      have kept := balanced.purge (Int.natCast_nonneg _) out
      have debt : (0 : ℤ) < ((name :: names).count name : ℕ) := by
        rw [count_cons_self]
        omega
      have released := kept.unlink debt unlinked
      have rest : owe (fun n => ((name :: names).count n : ℤ)) name (-1) =
          fun n => (names.count n : ℤ) := by
        funext n
        by_cases same : n = name
        · subst same
          rw [owe_self, count_cons_self]
          omega
        · rw [owe_ne _ _ same, count_cons_of_ne fun equal => same equal.symm]
      rw [rest] at released
      exact ih released later

theorem destroyUser (balanced : Balanced s 0) (happens : s.destroyUser owner = some t) :
    Balanced t 0 := by
  obtain ⟨user, found, happens⟩ := bind_eq_some_iff.mp happens
  split at happens
  · exact releaseNonces (balanced.eraseUser found fun n => (Int.add_zero _).symm) happens
  · cases happens

end Balanced

/-! ## Decoding -/

theorem link_found (found : s.nonces.find name = some nonce)
    (happens : s.authDigestNonceLink name = some t) :
    t = { s with
      nonces := s.nonces.set name
        { nonce with references := int16 (nonce.references + 1) } } := by
  obtain ⟨other, there, happens⟩ := bind_eq_some_iff.mp happens
  cases found.symm.trans there
  exact (some.inj happens).symm

/-- A user without nonces takes one, which refers to no other user. -/
theorem userLink_found (known : s.users.find owner = some user) (idle : user.nonces = [])
    (found : s.nonces.find name = some nonce)
    (happens : s.authDigestUserLinkNonce owner name = some t) :
    (nonce.user = none ∨ nonce.user = some owner) ∧
      t = { s with
        users := s.users.set owner { user with nonces := [name] }
        nonces := s.nonces.set name
          { nonce with references := int16 (nonce.references + 1), user := some owner } } := by
  obtain ⟨other, there, happens⟩ := bind_eq_some_iff.mp happens
  cases known.symm.trans there
  rw [if_neg (by rw [idle]; exact not_mem_nil), idle] at happens
  obtain ⟨middle, linked, happens⟩ := bind_eq_some_iff.mp happens
  have eq := link_found (by exact found) linked
  subst eq
  dsimp only at happens
  rw [find_set_self found] at happens
  simp only [bind_eq_bind, bind_some, Table.set_set] at happens
  obtain ⟨free, happens⟩ := ite_none_right_eq_some.mp happens
  exact ⟨free, (some.inj happens).symm⟩

variable {fields : Fields}

/-- What `findUser` leaves of a nonce: it is linked once more if the user is new. -/
theorem findUser_found {username : Bytes} (found : s.nonces.find name = some nonce)
    (happens : s.findUser fields username name = some t) :
    ∃ left, t.nonces.find name = some left ∧
      (s.authDigestUserFindUsername username = none →
        (nonce.user = none ∨ nonce.user = some s.userCount) ∧
          left.references = int16 (nonce.references + 1)) ∧
      (s.authDigestUserFindUsername username ≠ none → left.references = nonce.references) := by
  unfold State.findUser at happens
  split at happens
  next unknown =>
    obtain ⟨middle, linked, happens⟩ := bind_eq_some_iff.mp happens
    have known : (s.newUser { username := some username, incache := true }).users.find s.userCount =
        some { username := some username, incache := true } := find_insert_self
    obtain ⟨free, rfl⟩ := userLink_found known rfl (by exact found) linked
    cases happens
    exact ⟨_, find_set_self found, fun _ => ⟨free, rfl⟩, fun known => (known unknown).elim⟩
  next owner user known =>
    cases happens
    refine ⟨nonce, found, fun unknown => ?_, fun _ => rfl⟩
    rw [known] at unknown
    cases unknown

/-- How many references `decode` takes to a nonce that it finds. -/
def decodeLinks (s : State) (fields : Fields) (nonce : Nonce) : ℤ :=
  if nonce.user = none ∧ s.authDigestUserFindUsername (fields.username.getD []) = none then 2 else 1

/-- The references that `decode` leaves. -/
theorem decode_found (ok : checkFields fields = none)
    (userNames : ∀ {n}, s.userCount ≤ n → s.users.find n = none)
    (lookup : s.authenticateDigestNonceFindNonce (fields.nonceb64.getD []) = some (name, nonce))
    (happens : s.decode fields = some t) :
    ∃ left, t.nonces.find name = some left ∧
      (decodeLinks s fields nonce = 1 → left.references = int16 (nonce.references + 1)) ∧
      (decodeLinks s fields nonce = 2 →
        left.references = int16 (int16 (nonce.references + 1) + 1)) := by
  have found := (find_of_search lookup).1
  unfold State.decode at happens
  rw [ok] at happens
  dsimp only at happens
  rw [lookup] at happens
  obtain ⟨username, given, happens⟩ := bind_eq_some_iff.mp happens
  obtain ⟨middle, linked, happens⟩ := bind_eq_some_iff.mp happens
  have eq := link_found found linked
  subst eq
  unfold decodeLinks
  rw [given, getD_some]
  split at happens
  next anyone =>
    obtain ⟨left, there, new, old⟩ := findUser_found (find_set_self found) happens
    refine ⟨left, there, ?_, ?_⟩
    · intro once
      refine old fun unknown => ?_
      rw [if_pos ⟨anyone, unknown⟩] at once
      cases once
    · intro twice
      split at twice
      next unknown => exact (new unknown.2).2
      next => cases twice
  next owner held =>
    have single : ¬ (nonce.user = none ∧ s.authDigestUserFindUsername username = none) := by
      rw [held]
      exact fun none => nomatch none.1
    rw [if_neg single]
    obtain ⟨user, known, happens⟩ := bind_eq_some_iff.mp happens
    split at happens
    · cases happens
      exact ⟨_, find_set_self found, fun _ => rfl, nofun⟩
    · obtain ⟨left, there, new, old⟩ := findUser_found (find_set_self found) happens
      refine ⟨left, there, fun _ => old fun unknown => ?_, nofun⟩
      rcases (new unknown).1 with free | mine
      · rw [show nonce.user = none from free] at held
        cases held
      · rw [show nonce.user = some s.userCount from mine] at held
        obtain rfl := some.inj held
        have absent : s.users.find s.userCount = none := userNames le_rfl
        cases absent.symm.trans known

namespace Balanced

variable {fields : Fields} {username : Bytes}

/-- What a new request with a nonce holds is no more owed. -/
theorem requestWith (balanced : Balanced s (owe 0 name 1)) (held : request.nonce = some name) :
    Balanced (s.newRequest request) 0 := by
  refine balanced.newRequest fun n => ?_
  rw [UserRequest.holds, held]
  by_cases same : n = name
  · subst same
    rw [owe_self, if_pos rfl]
    rfl
  · rw [owe_ne _ _ same, if_neg fun equal => same (some.inj equal).symm]
    rfl

/-- A request without a nonce holds none. -/
theorem requestWithout (balanced : Balanced s 0) (none : request.nonce = none) :
    Balanced (s.newRequest request) 0 := by
  refine balanced.newRequest fun n => ?_
  rw [UserRequest.holds, none, if_neg nofun]
  rfl

/-- A user takes a first nonce. -/
theorem userLink (balanced : Balanced s owed) (known : s.users.find owner = some user)
    (idle : user.nonces = []) (found : s.nonces.find name = some nonce)
    (room : nonce.references + 1 < 2 ^ 15)
    (happens : s.authDigestUserLinkNonce owner name = some t) : Balanced t owed := by
  obtain ⟨-, rfl⟩ := userLink_found known idle found happens
  have used := balanced.used found
  have counts : int16 (nonce.references + 1) = nonce.references + 1 :=
    int16_eq (by omega) (by omega)
  have taken : Balanced { s with users := s.users.set owner { user with nonces := [name] } }
      (owe owed name (-1)) := balanced.setUser known fun n => by
      simp only [User.holds, idle, count_nil]
      by_cases same : n = name
      · subst same
        rw [owe_self, count_singleton_self]
        omega
      · rw [owe_ne _ _ same, count_singleton, if_neg (by simpa using Ne.symm same)]
  have settled : owe (owe owed name (-1)) name 1 = owed := by
    rw [owe_owe, Int.add_left_neg, owe_zero]
  rw [← settled]
  refine taken.shiftNonce found ?_ (by dsimp only; omega)
  dsimp only [cacheLink]
  omega

theorem findUser (balanced : Balanced s (owe 0 name 1)) (found : s.nonces.find name = some nonce)
    (room : s.authDigestUserFindUsername username = none → nonce.references + 1 < 2 ^ 15)
    (happens : s.findUser fields username name = some t) : Balanced t 0 := by
  unfold State.findUser at happens
  split at happens
  next unknown =>
    obtain ⟨middle, linked, happens⟩ := bind_eq_some_iff.mp happens
    have known : (s.newUser { username := some username, incache := true }).users.find s.userCount =
        some { username := some username, incache := true } := find_insert_self
    have made : Balanced (s.newUser { username := some username, incache := true })
        (owe 0 name 1) := balanced.newUser rfl
    have taken := made.userLink known rfl (by exact found) (room unknown) linked
    cases happens
    exact taken.requestWith rfl
  next owner user known =>
    cases happens
    have unchecked : Balanced { s with
        users := s.users.set owner { user with credentials := .Unchecked } } (owe 0 name 1) :=
      balanced.setUser (find_of_search known).1 fun n => rfl
    exact unchecked.requestWith rfl

theorem logUsername (balanced : Balanced s 0) :
    Balanced (s.authDigestLogUsername fields none) 0 :=
  (balanced.newUser rfl).requestWithout rfl

theorem decode (balanced : Balanced s 0)
    (room : checkFields fields = none → ∀ {name nonce},
      s.authenticateDigestNonceFindNonce (fields.nonceb64.getD []) = some (name, nonce) →
      nonce.references + decodeLinks s fields nonce < 2 ^ 15)
    (happens : s.decode fields = some t) : Balanced t 0 := by
  unfold State.decode at happens
  split at happens
  · cases happens
    exact balanced.logUsername
  next ok =>
    dsimp only at happens
    split at happens
    · cases happens
      exact balanced.logUsername
    next name nonce lookup =>
      have found := (find_of_search lookup).1
      have bound := room ok lookup
      obtain ⟨username, given, happens⟩ := bind_eq_some_iff.mp happens
      obtain ⟨middle, linked, happens⟩ := bind_eq_some_iff.mp happens
      have one : nonce.references + 1 < 2 ^ 15 := by
        unfold decodeLinks at bound
        split at bound <;> omega
      have used := balanced.used found
      have counts : int16 (nonce.references + 1) = nonce.references + 1 :=
        int16_eq (by omega) (by omega)
      have held := balanced.link found one linked
      have eq := link_found found linked
      subst eq
      split at happens
      next anyone =>
        refine held.findUser (find_set_self found) (fun unknown => ?_) happens
        have twice : decodeLinks s fields nonce = 2 := by
          rw [decodeLinks, given, getD_some]
          exact if_pos ⟨anyone, unknown⟩
        dsimp only
        omega
      next owner mine =>
        obtain ⟨user, known, happens⟩ := bind_eq_some_iff.mp happens
        split at happens
        · cases happens
          exact (held.newUser rfl).requestWith rfl
        · refine held.findUser (find_set_self found) (fun unknown => ?_) happens
          obtain ⟨left, -, new, -⟩ := findUser_found (find_set_self found) happens
          rcases (new unknown).1 with free | mine'
          · rw [show nonce.user = none from free] at mine
            cases mine
          · rw [show nonce.user = some s.userCount from mine'] at mine
            obtain rfl := some.inj mine
            have absent : s.users.find s.userCount = none := balanced.userNames le_rfl
            cases absent.symm.trans known

end Balanced

/-! ## Authentication -/

namespace Balanced

variable {config : Config} {md5 : Bytes → Bytes} {method : Bytes}

section

variable (balanced : Balanced s owed)
include balanced

/-- Other fields do not matter. -/
theorem congr (nonces : t.nonces = s.nonces) (users : t.users = s.users)
    (requests : t.requests = s.requests)
    (counts : t.nonceCount = s.nonceCount ∧ t.userCount = s.userCount ∧
      t.requestCount = s.requestCount) (deletes : t.deleteFailed = s.deleteFailed) :
    Balanced t owed := by
  obtain ⟨nonceCount, userCount, requestCount⟩ := counts
  refine balanced.shiftUses nonces (fun n => ?_) deletes nonceCount ?_ ?_
  · rw [uses, uses, users, requests]
  · exact fun beyond => users ▸ balanced.userNames (userCount ▸ beyond)
  · exact fun beyond => requests ▸ balanced.requestNames (requestCount ▸ beyond)

/-- The credentials of a user are set, and maybe its `HA1`. -/
theorem setCredentials (found : s.users.find owner = some user) (same : new.nonces = user.nonces)
    (credentials : CredentialState) : Balanced (s.setCredentials owner new credentials) owed :=
  balanced.setUser found fun n => by simp only [User.holds, same]

theorem accept (found : s.users.find owner = some user) (same : new.nonces = user.nonces)
    (acceptance : Acceptance) : Balanced (s.accept owner new acceptance) owed :=
  (balanced.setCredentials found same .Ok).congr rfl rfl rfl ⟨rfl, rfl, rfl⟩ rfl

theorem denyPassword (asked : s.requests.find id = some request)
    (found : s.users.find owner = some user) (same : new.nonces = user.nonces) :
    Balanced (s.denyPassword id request owner new) owed :=
  (balanced.setCredentials found same .Failed).setRequest asked rfl

theorem workaround (found : s.users.find owner = some user) (same : new.nonces = user.nonces)
    (there : s.nonces.find name = some nonce) :
    Balanced (s.workaround config id request owner new name nonce) owed := by
  have kept : (authDigestNonceIsValid config nonce request.fields.nc).2.references =
        nonce.references ∧
      (authDigestNonceIsValid config nonce request.fields.nc).2.incache = nonce.incache := by
    unfold authDigestNonceIsValid
    dsimp only
    split_ifs
    · exact ⟨rfl, rfl⟩
    · exact ⟨rfl, rfl⟩
    · exact ⟨rfl, rfl⟩
    · exact ⟨rfl, rfl⟩
  have checked := balanced.setNonce there kept.1 kept.2
  unfold State.workaround
  dsimp only
  split
  · exact checked.accept found same _
  · exact checked.setCredentials found same _

theorem checkResponse {HA1 : Bytes} (asked : s.requests.find id = some request)
    (found : s.users.find request.user = some user) (there : s.nonces.find name = some nonce)
    (happens : s.checkResponse config md5 id method request user HA1 name nonce = some t) :
    Balanced t owed := by
  obtain ⟨algorithm, _, happens⟩ := bind_eq_some_iff.mp happens
  obtain ⟨⟨HA1', SESSIONKEY⟩, _, happens⟩ := bind_eq_some_iff.mp happens
  obtain ⟨right, _, happens⟩ := bind_eq_some_iff.mp happens
  cases right with
  | true =>
      cases happens
      exact balanced.accept found (by rfl) _
  | false =>
      simp only [Bool.false_eq_true, if_false] at happens
      split at happens
      · cases happens
        exact (balanced.setCredentials found (by rfl) .Pending).setRequest asked (by rfl)
      · split at happens
        · obtain ⟨right, _, happens⟩ := bind_eq_some_iff.mp happens
          cases right with
          | true =>
              rw [if_pos rfl] at happens
              cases happens
              exact balanced.workaround found (by rfl) there
          | false =>
              cases happens
              exact balanced.denyPassword asked found (by rfl)
        · cases happens
          exact balanced.denyPassword asked found (by rfl)

theorem authenticate (happens : s.authenticate config md5 id method = some t) :
    Balanced t owed := by
  obtain ⟨request, asked, happens⟩ := bind_eq_some_iff.mp happens
  obtain ⟨user, found, happens⟩ := bind_eq_some_iff.mp happens
  split at happens
  · cases happens
    exact balanced
  · split at happens
    · cases happens
      exact balanced.setCredentials found rfl _
    · cases happens
      exact balanced.setCredentials found rfl _
    · obtain ⟨nonce, there, happens⟩ := bind_eq_some_iff.mp happens
      exact balanced.checkResponse asked found there happens

theorem handleReply {reply : State.Reply} (happens : s.HandleReply id reply = some t) :
    Balanced t owed := by
  obtain ⟨request, asked, happens⟩ := bind_eq_some_iff.mp happens
  obtain ⟨user, found, happens⟩ := bind_eq_some_iff.mp happens
  cases reply with
  | empty =>
      cases happens
      exact balanced
  | err =>
      cases happens
      exact balanced.denyPassword asked found rfl
  | HA1 hash =>
      cases happens
      exact balanced.setUser found fun n => rfl

theorem expireUser (happens : s.expireUser owner = some t) : Balanced t owed := by
  obtain ⟨user, found, happens⟩ := bind_eq_some_iff.mp happens
  split at happens
  · cases happens
    exact balanced.setUser found fun n => rfl
  · cases happens

end

end Balanced

/-! ## Runs -/

/-- What an event needs so that the references of a nonce do not overflow. -/
def Roomy (s : State) : Event → Prop
  | .decode fields => checkFields fields = none → ∀ {name nonce},
      s.authenticateDigestNonceFindNonce (fields.nonceb64.getD []) = some (name, nonce) →
      nonce.references + decodeLinks s fields nonce < 2 ^ 15
  | _ => True

variable {config : Config} {md5 : Bytes → Bytes}

variable {event : Event}

theorem Balanced.next (balanced : Balanced s 0) (roomy : Roomy s event)
    (happens : s.next config md5 event = some t) : Balanced t 0 := by
  obtain ⟨-, happens⟩ := ite_none_left_eq_some.mp happens
  cases event with
  | fixHeader key tries => exact balanced.nonceNew happens
  | decode fields => exact balanced.decode roomy happens
  | authenticate id method => exact balanced.authenticate happens
  | handleReply id reply => exact balanced.handleReply happens
  | cacheCleanup =>
      exact foldlM (fun balanced step => balanced.cleanupNonce le_rfl step) balanced happens
  | shutdown => exact foldlM (fun balanced step => balanced.purge le_rfl step) balanced happens
  | expireUser owner => exact balanced.expireUser happens
  | destroyRequest id => exact balanced.destroyRequest happens
  | destroyUser owner => exact balanced.destroyUser happens
  | tick seconds =>
      cases happens
      exact balanced.congr rfl rfl rfl ⟨rfl, rfl, rfl⟩ rfl

/-- An overflow leaves a nonce that counts fewer than no references. -/
theorem Balanced.roomy_of_exact (balanced : Balanced s 0)
    (happens : s.next config md5 event = some t) (exact : Exact t) : Roomy s event := by
  obtain ⟨-, happens⟩ := ite_none_left_eq_some.mp happens
  cases event with
  | decode fields =>
      intro ok name nonce lookup
      by_contra full
      obtain ⟨positive, range⟩ := balanced.used (find_of_search lookup).1
      obtain ⟨left, there, once, twice⟩ := decode_found ok balanced.userNames lookup happens
      have used := exact.used there
      unfold int16 at once twice
      have links : decodeLinks s fields nonce = 2 ∨ decodeLinks s fields nonce = 1 := by
        unfold decodeLinks
        split
        · exact .inl rfl
        · exact .inr rfl
      omega
  | _ => trivial

/-- Nonces count their holders exactly, and are freed when they have none, in every state of a run if
and only if no `decode` of the run takes a nonce that has no room for the references it needs. -/
theorem exact_iff_roomy (config : Config) (md5 : Bytes → Bytes) (events : List Event) :
    LabelledRun.Allowed (State.next config md5)
        (fun s event => ∀ t, s.next config md5 event = some t → Exact t) {} events ↔
      LabelledRun.Allowed (State.next config md5)
        (fun s event => s.next config md5 event ≠ none → Roomy s event) {} events := by
  have balanced : Balanced {} 0 := Balanced.initial
  generalize ({} : State) = s at balanced
  induction events generalizing s with
  | nil => exact Iff.rfl
  | cons event events ih =>
      constructor
      · rintro ⟨exact, later⟩
        have roomy : s.next config md5 event ≠ none → Roomy s event := fun takes => by
          obtain ⟨t, happens⟩ := ne_none_iff_exists'.mp takes
          exact balanced.roomy_of_exact happens (exact t happens)
        refine ⟨roomy, fun t happens => (ih t ?_).mp (later t happens)⟩
        exact balanced.next (roomy (by rw [happens]; nofun)) happens
      · rintro ⟨roomy, later⟩
        have kept : ∀ t, s.next config md5 event = some t → Balanced t 0 := fun t happens =>
          balanced.next (roomy (by rw [happens]; nofun)) happens
        refine ⟨fun t happens => (kept t happens).exact rfl, fun t happens => ?_⟩
        exact (ih t (kept t happens)).mpr (later t happens)

/-! ## Too many requests -/

/-- A request with the nonce that all share. -/
def sharedRequest : Fields where
  username := some [77]
  realm := some [114]
  uri := some [47]
  nonceb64 := some (List.replicate 32 65)
  response := some (List.replicate 32 48)

/-- A nonce, its user and the requests that share it. -/
def crowd (requests : Table ℕ UserRequest) (requestCount : ℕ) (references : ℤ) : State where
  nonces := Table.empty.insert 0
    { key := List.replicate 32 65, creationtime := 0, references, user := some 0, incache := true }
  users := Table.empty.insert 0 { username := some [77], nonces := [0], incache := true }
  requests := requests
  nonceCount := 1
  userCount := 1
  requestCount := requestCount

theorem decode_crowd (requests : Table ℕ UserRequest) (requestCount : ℕ) (references : ℤ) :
    (crowd requests requestCount references).next {} (fun _ => []) (.decode sharedRequest) =
      some (crowd (requests.insert requestCount
        { fields := { sharedRequest with algorithm := some (ascii "MD5") }, user := 0,
          nonce := some 0 })
        (requestCount + 1) (int16 (references + 1))) := rfl

theorem exec_crowd (n : ℕ) {references : ℤ} (positive : 0 ≤ references)
    (room : references + n < 2 ^ 15) (requests : Table ℕ UserRequest) (requestCount : ℕ) :
    ∃ more count, LabelledRun.exec (State.next {} fun _ => []) (crowd requests requestCount references)
      (List.replicate n (.decode sharedRequest)) = some (crowd more count (references + n)) := by
  induction n generalizing references requests requestCount with
  | zero => exact ⟨requests, requestCount, by rw [Nat.cast_zero, Int.add_zero]; rfl⟩
  | succ n ih =>
      have counts : int16 (references + 1) = references + 1 :=
        int16_eq (by omega) (by omega)
      rw [replicate_succ, LabelledRun.exec_cons, decode_crowd, bind_some, counts]
      obtain ⟨more, count, run⟩ := ih (by omega : 0 ≤ references + 1)
        (by push_cast at room; omega) (requests.insert requestCount _) (requestCount + 1)
      refine ⟨more, count, run.trans ?_⟩
      rw [show references + 1 + n = references + (n + 1 : ℕ) by push_cast; omega]

/-- With the cache, the user and 32766 requests the count of references overflows. -/
theorem not_exact_crowd : ∃ s, LabelledRun.exec (State.next {} fun _ => []) {}
    (.fixHeader (List.replicate 32 65) 0 :: List.replicate 32766 (.decode sharedRequest)) = some s ∧
    ¬ Exact s := by
  have first : LabelledRun.exec (State.next {} fun _ => []) {}
      [.fixHeader (List.replicate 32 65) 0, .decode sharedRequest] =
        some (crowd (Table.empty.insert 0
          { fields := { sharedRequest with algorithm := some (ascii "MD5") }, user := 0,
            nonce := some 0 }) 1 3) := rfl
  obtain ⟨more, count, next⟩ := exec_crowd 32764 (by decide : (0 : ℤ) ≤ 3) (by decide)
    (Table.empty.insert 0 _) 1
  have last := decode_crowd more count (3 + (32764 : ℕ))
  have run := LabelledRun.exec_trans first (LabelledRun.exec_trans next
    (by rw [LabelledRun.exec_cons, last]; rfl : LabelledRun.exec _ _ [.decode sharedRequest] = _))
  have split : List.replicate 32766 (Event.decode sharedRequest) =
      [.decode sharedRequest] ++
        (List.replicate 32764 (.decode sharedRequest) ++ [.decode sharedRequest]) := by
    rw [show 32766 = 1 + (32764 + 1) from rfl, replicate_add, replicate_add]
    rfl
  rw [split]
  refine ⟨_, run, fun exact => ?_⟩
  exact absurd (exact.used find_insert_self) (by decide)

end Digest
end Squid
