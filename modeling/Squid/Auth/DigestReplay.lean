import Squid.Auth.Digest

/-!
# Replayed Digest requests

The nonce count is looked at only where a response is right with the method `GET` instead of that of
the request.  A run is free of replays if and only if no other request is accepted that is a replay.
-/

namespace Squid
namespace Digest

open CRuntime Table List Option

variable {s t u : State} {name id owner : ℕ} {nonce : Nonce}

/-- No two requests are accepted with the same nonce and `nc`, and none with an invalid nonce. -/
structure NoReplay (s : State) : Prop where
  distinct : s.accepted.Pairwise fun a b => a.request ≠ b.request → a.nonce = b.nonce → a.nc ≠ b.nc
  valid : ∀ a ∈ s.accepted, a.valid = true

/-! ## Steps that accept nothing -/

/-- Nothing is accepted, no nonce is counted, new nonces have not been used, and the requests that
have a nonce have passed the checks. -/
structure Quiet (s t : State) : Prop where
  accepted : t.accepted = s.accepted
  nonceCount : s.nonceCount ≤ t.nonceCount
  nonces : ∀ {name nonce}, t.nonces.find name = some nonce →
    (∃ before, s.nonces.find name = some before ∧ nonce.nc = before.nc) ∨
      s.nonceCount ≤ name ∧ name < t.nonceCount ∧ nonce.nc = 0
  requests : ∀ {id request}, t.requests.find id = some request → request.nonce ≠ none →
    (∃ before, s.requests.find id = some before ∧ request.nonce = before.nonce ∧
      request.fields = before.fields) ∨
    ∃ fields, checkFields fields = none ∧ request.fields.nc = fields.nc

namespace Quiet

theorem refl (s : State) : Quiet s s :=
  ⟨rfl, le_rfl, fun found => .inl ⟨_, found, rfl⟩, fun found _ => .inl ⟨_, found, rfl, rfl⟩⟩

theorem trans (first : Quiet s t) (second : Quiet t u) : Quiet s u where
  accepted := second.accepted.trans first.accepted
  nonceCount := first.nonceCount.trans second.nonceCount
  nonces := by
    intro name nonce found
    have firstCount := first.nonceCount
    have secondCount := second.nonceCount
    rcases second.nonces found with ⟨middle, there, same⟩ | ⟨new, below, unused⟩
    · rcases first.nonces there with ⟨before, here, equal⟩ | ⟨new, below, unused⟩
      · exact .inl ⟨before, here, same.trans equal⟩
      · exact .inr ⟨new, by omega, same.trans unused⟩
    · exact .inr ⟨by omega, below, unused⟩
  requests := by
    intro id request found holds
    rcases second.requests found holds with ⟨middle, there, same, fields⟩ | checked
    · rcases first.requests there (same ▸ holds) with ⟨before, here, equal, kept⟩ | ⟨_, ok, kept⟩
      · exact .inl ⟨before, here, same.trans equal, fields.trans kept⟩
      · exact .inr ⟨_, ok, by rw [fields, kept]⟩
    · exact .inr checked

theorem of_eq (accepted : t.accepted = s.accepted) (nonceCount : t.nonceCount = s.nonceCount)
    (nonces : t.nonces = s.nonces) (requests : t.requests = s.requests) : Quiet s t where
  accepted := accepted
  nonceCount := nonceCount.ge
  nonces := fun found => .inl ⟨_, nonces ▸ found, rfl⟩
  requests := fun found _ => .inl ⟨_, requests ▸ found, rfl, rfl⟩

/-- The users do not matter. -/
theorem users_trans {users : Table ℕ User} (later : Quiet { s with users } t) : Quiet s t :=
  (of_eq rfl rfl rfl rfl : Quiet s { s with users }).trans later

theorem insertNonce (s : State) (unused : nonce.nc = 0) :
    Quiet s { s with
      nonces := s.nonces.insert s.nonceCount nonce, nonceCount := s.nonceCount + 1 } where
  accepted := rfl
  nonceCount := Nat.le_succ _
  nonces := by
    intro other kept present
    by_cases same : other = s.nonceCount
    · subst same
      cases find_insert_self.symm.trans present
      exact .inr ⟨le_rfl, Nat.lt_succ_self _, unused⟩
    · exact .inl ⟨kept, (find_insert_ne same).symm.trans present, rfl⟩
  requests := fun found _ => .inl ⟨_, found, rfl, rfl⟩

/-- A nonce is changed, but for its count. -/
theorem setNonce {new : Nonce} (found : s.nonces.find name = some nonce) (nc : new.nc = nonce.nc) :
    Quiet s { s with nonces := s.nonces.set name new } where
  accepted := rfl
  nonceCount := le_rfl
  nonces := by
    intro other changed present
    by_cases same : other = name
    · subst same
      rw [find_set_self found] at present
      cases present
      exact .inl ⟨nonce, found, nc⟩
    · rw [find_set_ne same] at present
      exact .inl ⟨changed, present, rfl⟩
  requests := fun found _ => .inl ⟨_, found, rfl, rfl⟩

theorem eraseNonce (s : State) (name : ℕ) :
    Quiet s { s with nonces := s.nonces.erase name } where
  accepted := rfl
  nonceCount := le_rfl
  nonces := by
    intro other kept present
    by_cases same : other = name
    · subst same
      rw [find_erase_self] at present
      cases present
    · rw [find_erase_ne same] at present
      exact .inl ⟨kept, present, rfl⟩
  requests := fun found _ => .inl ⟨_, found, rfl, rfl⟩

/-- A request is changed, but for its fields and its nonce. -/
theorem setRequest {request new : UserRequest} (found : s.requests.find id = some request)
    (same : new.nonce = request.nonce) (fields : new.fields = request.fields) :
    Quiet s { s with requests := s.requests.set id new } where
  accepted := rfl
  nonceCount := le_rfl
  nonces := fun found => .inl ⟨_, found, rfl⟩
  requests := by
    intro other changed present _
    by_cases equal : other = id
    · subst equal
      rw [find_set_self found] at present
      cases present
      exact .inl ⟨request, found, same, fields⟩
    · rw [find_set_ne equal] at present
      exact .inl ⟨changed, present, rfl, rfl⟩

theorem eraseRequest (s : State) (id : ℕ) :
    Quiet s { s with requests := s.requests.erase id } where
  accepted := rfl
  nonceCount := le_rfl
  nonces := fun found => .inl ⟨_, found, rfl⟩
  requests := by
    intro other kept present _
    by_cases equal : other = id
    · subst equal
      rw [find_erase_self] at present
      cases present
    · rw [find_erase_ne equal] at present
      exact .inl ⟨kept, present, rfl, rfl⟩

/-- A request comes that has no nonce, or has passed the checks. -/
theorem newRequest (request : UserRequest) (checked : request.nonce ≠ none →
    ∃ fields, checkFields fields = none ∧ request.fields.nc = fields.nc) :
    Quiet s (s.newRequest request) where
  accepted := rfl
  nonceCount := le_rfl
  nonces := fun found => .inl ⟨_, found, rfl⟩
  requests := by
    intro other kept present holds
    by_cases equal : other = s.requestCount
    · subst equal
      cases find_insert_self.symm.trans present
      exact .inr (checked holds)
    · refine .inl ⟨kept, ?_, rfl, rfl⟩
      exact (find_insert_ne equal).symm.trans present

end Quiet

/-! ## The life of a nonce -/

theorem quiet_link (happens : s.authDigestNonceLink name = some t) : Quiet s t := by
  obtain ⟨nonce, found, happens⟩ := bind_eq_some_iff.mp happens
  cases happens
  exact Quiet.setNonce found rfl

theorem quiet_delete (s : State) (name : ℕ) (nonce : Nonce) :
    Quiet s (s.authenticateDigestNonceDelete name nonce) := by
  unfold State.authenticateDigestNonceDelete
  split
  · exact Quiet.eraseNonce s name
  · exact Quiet.of_eq rfl rfl rfl rfl

theorem quiet_unlink (happens : s.authDigestNonceUnlink name = some t) : Quiet s t := by
  obtain ⟨nonce, found, happens⟩ := bind_eq_some_iff.mp happens
  rw [← some.inj happens]
  have lowered : Quiet s { s with nonces := s.nonces.set name (State.lower nonce) } := by
    refine Quiet.setNonce found ?_
    unfold State.lower
    split <;> rfl
  unfold State.deleteUnused
  split
  · exact lowered.trans (quiet_delete _ _ _)
  · exact lowered

theorem quiet_purge (happens : s.authDigestNoncePurge name = some t) : Quiet s t := by
  obtain ⟨nonce, found, happens⟩ := bind_eq_some_iff.mp happens
  have out : Quiet s { s with nonces := s.nonces.set name { nonce with incache := false } } :=
    Quiet.setNonce found rfl
  split at happens
  · exact out.trans (quiet_unlink happens)
  · cases happens
    exact Quiet.refl s

theorem quiet_dropFromUser (happens : s.dropFromUser owner name = some t) : Quiet s t := by
  obtain ⟨user, _, happens⟩ := bind_eq_some_iff.mp happens
  dsimp only at happens
  split at happens
  · exact Quiet.users_trans (quiet_unlink happens)
  · cases happens
    exact Quiet.refl s

theorem quiet_userUnlink (happens : s.authDigestNonceUserUnlink name = some t) : Quiet s t := by
  obtain ⟨nonce, found, happens⟩ := bind_eq_some_iff.mp happens
  split at happens
  · cases happens
    exact Quiet.refl s
  · obtain ⟨middle, dropped, happens⟩ := bind_eq_some_iff.mp happens
    obtain ⟨left, there, happens⟩ := bind_eq_some_iff.mp happens
    cases happens
    exact (quiet_dropFromUser dropped).trans (Quiet.setNonce there rfl)

theorem quiet_userLink (happens : s.authDigestUserLinkNonce owner name = some t) : Quiet s t := by
  obtain ⟨user, _, happens⟩ := bind_eq_some_iff.mp happens
  split at happens
  · cases happens
    exact Quiet.refl s
  · obtain ⟨middle, linked, happens⟩ := bind_eq_some_iff.mp happens
    obtain ⟨nonce, there, happens⟩ := bind_eq_some_iff.mp happens
    split at happens
    · cases happens
      have first : Quiet s middle := Quiet.users_trans (quiet_link linked)
      exact first.trans (Quiet.setNonce there rfl)
    · cases happens

theorem quiet_cleanupNonce {config : Config} (happens : s.cleanupNonce config name = some t) :
    Quiet s t := by
  obtain ⟨nonce, found, happens⟩ := bind_eq_some_iff.mp happens
  have aged : Quiet s { s with
      nonces := s.nonces.set name (authDigestNonceIsStale config s.current_time nonce).2 } := by
    refine Quiet.setNonce found ?_
    unfold authDigestNonceIsStale
    split <;> rfl
  split at happens
  · dsimp only at happens
    split at happens
    · obtain ⟨middle, unlinked, purged⟩ := bind_eq_some_iff.mp happens
      exact (aged.trans (quiet_userUnlink unlinked)).trans (quiet_purge purged)
    · cases happens
      exact aged
  · cases happens
    exact Quiet.refl s

/-- A loop over nonces, every turn of which is quiet. -/
theorem quiet_foldlM {f : State → ℕ → Option State}
    (each : ∀ {s t name}, f s name = some t → Quiet s t) {names : List ℕ}
    (happens : names.foldlM f s = some t) : Quiet s t := by
  induction names generalizing s with
  | nil =>
      cases happens
      exact Quiet.refl _
  | cons name names ih =>
      obtain ⟨middle, first, later⟩ := bind_eq_some_iff.mp happens
      exact (each first).trans (ih later)

variable {key : Bytes}

theorem quiet_nonceNew {tries : ℕ} (happens : s.authenticateDigestNonceNew key tries = some t) :
    Quiet s t := by
  unfold State.authenticateDigestNonceNew at happens
  split at happens
  · dsimp only at happens
    obtain ⟨middle, linked, happens⟩ := bind_eq_some_iff.mp happens
    obtain ⟨nonce, there, happens⟩ := bind_eq_some_iff.mp happens
    cases happens
    have made := quiet_link linked
    exact ((Quiet.insertNonce s rfl).trans made).trans (Quiet.setNonce there rfl)
  · cases happens

/-! ## Requests and users -/

theorem quiet_destroyRequest (happens : s.destroyRequest id = some t) : Quiet s t := by
  obtain ⟨request, _, happens⟩ := bind_eq_some_iff.mp happens
  split at happens
  · cases happens
    exact Quiet.eraseRequest s id
  · exact (Quiet.eraseRequest s id).trans (quiet_unlink happens)

theorem quiet_releaseNonce (happens : s.releaseNonce name = some t) : Quiet s t := by
  obtain ⟨middle, purged, unlinked⟩ := bind_eq_some_iff.mp happens
  exact (quiet_purge purged).trans (quiet_unlink unlinked)

theorem quiet_destroyUser (happens : s.destroyUser owner = some t) : Quiet s t := by
  obtain ⟨user, _, happens⟩ := bind_eq_some_iff.mp happens
  split at happens
  · exact Quiet.users_trans (quiet_foldlM quiet_releaseNonce happens)
  · cases happens

theorem quiet_expireUser (happens : s.expireUser owner = some t) : Quiet s t := by
  obtain ⟨user, _, happens⟩ := bind_eq_some_iff.mp happens
  split at happens
  · cases happens
    exact Quiet.of_eq rfl rfl rfl rfl
  · cases happens

theorem quiet_newUser (s : State) (user : User) : Quiet s (s.newUser user) :=
  Quiet.of_eq rfl rfl rfl rfl

variable {fields : Fields}

theorem quiet_logUsername (s : State) {checked : Fields} (nonce : Option ℕ)
    (ok : nonce ≠ none → checkFields checked = none) (nc : fields.nc = checked.nc) :
    Quiet s (s.authDigestLogUsername fields nonce) :=
  (quiet_newUser s _).trans (Quiet.newRequest _ fun held => ⟨checked, ok held, nc⟩)

theorem quiet_findUser {checked : Fields} {username : Bytes} (ok : checkFields checked = none)
    (happens : s.findUser fields username name = some t) (nc : fields.nc = checked.nc) :
    Quiet s t := by
  unfold State.findUser at happens
  split at happens
  · obtain ⟨middle, linked, happens⟩ := bind_eq_some_iff.mp happens
    cases happens
    exact ((quiet_newUser s _).trans (quiet_userLink linked)).trans
      (Quiet.newRequest _ fun _ => ⟨checked, ok, nc⟩)
  · cases happens
    exact Quiet.users_trans (Quiet.newRequest _ fun _ => ⟨checked, ok, nc⟩)

theorem quiet_decode (happens : s.decode fields = some t) : Quiet s t := by
  unfold State.decode at happens
  split at happens
  · cases happens
    exact quiet_logUsername s none (fun held => (held rfl).elim) rfl
  next ok =>
    dsimp only at happens
    split at happens
    · cases happens
      exact quiet_logUsername s none (fun held => (held rfl).elim) rfl
    · obtain ⟨username, _, happens⟩ := bind_eq_some_iff.mp happens
      obtain ⟨middle, linked, happens⟩ := bind_eq_some_iff.mp happens
      split at happens
      · exact (quiet_link linked).trans (quiet_findUser ok happens rfl)
      · obtain ⟨user, _, happens⟩ := bind_eq_some_iff.mp happens
        split at happens
        · cases happens
          exact (quiet_link linked).trans (quiet_logUsername _ _ (fun _ => ok) rfl)
        · exact (quiet_link linked).trans (quiet_findUser ok happens rfl)

variable {request : UserRequest}

theorem quiet_denyPassword (found : s.requests.find id = some request) (owner : ℕ) (user : User) :
    Quiet s (s.denyPassword id request owner user) := by
  have credentials : Quiet s (s.setCredentials owner user .Failed) := Quiet.of_eq rfl rfl rfl rfl
  exact credentials.trans (Quiet.setRequest found rfl rfl)

theorem quiet_handleReply {reply : State.Reply} (happens : s.HandleReply id reply = some t) :
    Quiet s t := by
  obtain ⟨request, found, happens⟩ := bind_eq_some_iff.mp happens
  obtain ⟨user, _, happens⟩ := bind_eq_some_iff.mp happens
  cases reply with
  | empty =>
      cases happens
      exact Quiet.refl s
  | err =>
      cases happens
      exact quiet_denyPassword found _ _
  | HA1 hash =>
      cases happens
      exact Quiet.of_eq rfl rfl rfl rfl

/-! ## Accepting -/

variable {config : Config} {md5 : Bytes → Bytes} {method : Bytes}

/-- `authenticate` comes to comparing the response of a request. -/
structure Compares (md5 : Bytes → Bytes) (s : State) (id : ℕ) (request : UserRequest) (name : ℕ)
    (nonce : Nonce) (SESSIONKEY : Bytes) : Prop where
  found : s.requests.find id = some request
  keyed : ∃ user HA1 algorithm, s.users.find request.user = some user ∧
    user.credentials ≠ .Failed ∧ user.HA1 = some HA1 ∧ request.fields.algorithm = some algorithm ∧
    (DigestCalcHA1 md5 algorithm nonce.key request.fields.cnonce HA1).map Prod.snd = some SESSIONKEY
  named : request.nonce = some name
  there : s.nonces.find name = some nonce

/-- The response is right. -/
def Direct (md5 : Bytes → Bytes) (request : UserRequest) (nonce : Nonce)
    (SESSIONKEY method : Bytes) : Prop :=
  State.responds md5 SESSIONKEY nonce request.fields method = some true

/-- The response is wrong, but right for `GET`, and the nonce count is checked. -/
structure Counted (config : Config) (md5 : Bytes → Bytes) (request : UserRequest) (nonce : Nonce)
    (SESSIONKEY method : Bytes) : Prop where
  wrong : State.responds md5 SESSIONKEY nonce request.fields method = some false
  queried : request.helper_queried = true
  works : config.PostWorkaround = true ∧ method ≠ ascii "GET"
  right : State.responds md5 SESSIONKEY nonce request.fields (ascii "GET") = some true
  isValid : (authDigestNonceIsValid config nonce request.fields.nc).1 = true

/-- What is compared is determined by the state. -/
theorem Compares.unique {other : UserRequest} {name' : ℕ} {nonce' : Nonce} {key' : Bytes}
    (first : Compares md5 s id request name nonce key)
    (second : Compares md5 s id other name' nonce' key') :
    request = other ∧ name = name' ∧ nonce = nonce' ∧ key = key' := by
  obtain rfl := some.inj (first.found.symm.trans second.found)
  obtain rfl := some.inj (first.named.symm.trans second.named)
  obtain rfl := some.inj (first.there.symm.trans second.there)
  obtain ⟨user, HA1, algorithm, known, -, created, given, calculated⟩ := first.keyed
  obtain ⟨user', HA1', algorithm', known', -, created', given', calculated'⟩ := second.keyed
  obtain rfl := some.inj (known.symm.trans known')
  obtain rfl := some.inj (created.symm.trans created')
  obtain rfl := some.inj (given.symm.trans given')
  exact ⟨rfl, rfl, rfl, some.inj (calculated.symm.trans calculated')⟩

/-- Nothing is compared that would be accepted. -/
def Idle (config : Config) (md5 : Bytes → Bytes) (s : State) (id : ℕ) (method : Bytes) : Prop :=
  ∀ {request name nonce SESSIONKEY}, Compares md5 s id request name nonce SESSIONKEY →
    ¬ Direct md5 request nonce SESSIONKEY method ∧
      ¬ Counted config md5 request nonce SESSIONKEY method

theorem Compares.idle (compares : Compares md5 s id request name nonce key)
    (wrong : State.responds md5 key nonce request.fields method = some false)
    (uncounted : ¬ Counted config md5 request nonce key method) : Idle config md5 s id method := by
  intro other name' nonce' key' second
  obtain ⟨rfl, rfl, rfl, rfl⟩ := compares.unique second
  refine ⟨fun right => ?_, uncounted⟩
  cases wrong.symm.trans right

/-- What a call of `authenticate` comes to. -/
inductive Authenticates (config : Config) (md5 : Bytes → Bytes) (s : State) (id : ℕ)
    (method : Bytes) (t : State) : Prop where
  | quiet (kept : Quiet s t) (idle : Idle config md5 s id method)
  | direct {request name nonce SESSIONKEY}
      (compares : Compares md5 s id request name nonce SESSIONKEY)
      (right : Direct md5 request nonce SESSIONKEY method)
      (nonces : t.nonces = s.nonces) (requests : t.requests = s.requests)
      (nonceCount : t.nonceCount = s.nonceCount)
      (accepted : t.accepted = acceptance id request name nonce false :: s.accepted)
  | counted {request name nonce SESSIONKEY}
      (compares : Compares md5 s id request name nonce SESSIONKEY)
      (right : Counted config md5 request nonce SESSIONKEY method)
      (nonces : t.nonces =
        s.nonces.set name (authDigestNonceIsValid config nonce request.fields.nc).2)
      (requests : t.requests = s.requests) (nonceCount : t.nonceCount = s.nonceCount)
      (accepted : t.accepted = acceptance id request name nonce true :: s.accepted)

theorem authDigestNonceIsValid_refuses {nc : Bytes}
    (refused : (authDigestNonceIsValid config nonce nc).1 ≠ true) :
    (authDigestNonceIsValid config nonce nc).2.nc = nonce.nc := by
  unfold authDigestNonceIsValid at refused ⊢
  dsimp only at refused ⊢
  split_ifs at refused ⊢
  · rfl
  · exact (refused rfl).elim
  · rfl
  · exact (refused rfl).elim

theorem checkResponse_authenticates {user : User} {HA1 : Bytes}
    (found : s.requests.find id = some request) (known : s.users.find request.user = some user)
    (credentials : user.credentials ≠ .Failed) (created : user.HA1 = some HA1)
    (named : request.nonce = some name) (there : s.nonces.find name = some nonce)
    (happens : s.checkResponse config md5 id method request user HA1 name nonce = some t) :
    Authenticates config md5 s id method t := by
  obtain ⟨algorithm, given, happens⟩ := bind_eq_some_iff.mp happens
  obtain ⟨⟨changed, SESSIONKEY⟩, calculated, happens⟩ := bind_eq_some_iff.mp happens
  obtain ⟨right, compared, happens⟩ := bind_eq_some_iff.mp happens
  have compares : Compares md5 s id request name nonce SESSIONKEY :=
    ⟨found, ⟨user, HA1, algorithm, known, credentials, created, given, by rw [calculated]; rfl⟩,
      named, there⟩
  cases right with
  | true =>
      cases happens
      exact .direct compares compared rfl rfl rfl rfl
  | false =>
      simp only [Bool.false_eq_true, if_false] at happens
      split at happens
      next unqueried =>
        cases happens
        refine .quiet (Quiet.users_trans (Quiet.setRequest found rfl rfl)) (compares.idle compared ?_)
        intro counted
        rw [counted.queried] at unqueried
        cases unqueried
      next queried =>
        split at happens
        next works =>
          obtain ⟨right, again, happens⟩ := bind_eq_some_iff.mp happens
          cases right with
          | true =>
              rw [if_pos rfl] at happens
              cases happens
              unfold State.workaround
              dsimp only
              split
              next isValid =>
                rw [Bool.not_eq_false] at queried
                exact .counted compares ⟨compared, queried, works, again, isValid⟩ rfl rfl rfl rfl
              next refused =>
                have kept := Quiet.setNonce there (authDigestNonceIsValid_refuses refused)
                refine .quiet (kept.trans (Quiet.of_eq rfl rfl rfl rfl)) (compares.idle compared ?_)
                exact fun counted => refused counted.isValid
          | false =>
              cases happens
              refine .quiet (quiet_denyPassword found _ _) (compares.idle compared fun counted => ?_)
              cases again.symm.trans counted.right
        next fails =>
          cases happens
          exact .quiet (quiet_denyPassword found _ _)
            (compares.idle compared fun counted => fails counted.works)

theorem authenticate_authenticates (happens : s.authenticate config md5 id method = some t) :
    Authenticates config md5 s id method t := by
  obtain ⟨request, found, happens⟩ := bind_eq_some_iff.mp happens
  obtain ⟨user, known, happens⟩ := bind_eq_some_iff.mp happens
  /- A request whose user cannot be authenticated now is not compared. -/
  have early : (user.credentials = .Failed ∨ user.HA1 = none ∨ request.nonce = none) →
      Idle config md5 s id method := by
    intro stops other name nonce key compares
    obtain rfl := some.inj (compares.found.symm.trans found)
    obtain ⟨owner, HA1, algorithm, same, credentials, created, -, -⟩ := compares.keyed
    obtain rfl := some.inj (same.symm.trans known)
    rcases stops with failed | none | none
    · exact (credentials failed).elim
    · cases created.symm.trans none
    · cases compares.named.symm.trans none
  split at happens
  next failed =>
    cases happens
    exact .quiet (Quiet.refl _) (early (.inl failed))
  next credentials =>
    split at happens
    next none =>
      cases happens
      exact .quiet (Quiet.of_eq rfl rfl rfl rfl) (early (.inr (.inl none)))
    next none =>
      cases happens
      exact .quiet (Quiet.of_eq rfl rfl rfl rfl) (early (.inr (.inr none)))
    next created named =>
      obtain ⟨nonce, there, happens⟩ := bind_eq_some_iff.mp happens
      exact checkResponse_authenticates found known credentials created named there happens

theorem next_quiet {event : Event} (other : ∀ id method, event ≠ .authenticate id method)
    (happens : s.next config md5 event = some t) : Quiet s t := by
  obtain ⟨-, happens⟩ := ite_none_left_eq_some.mp happens
  cases event with
  | fixHeader key tries => exact quiet_nonceNew happens
  | decode fields => exact quiet_decode happens
  | authenticate id method => exact (other id method rfl).elim
  | handleReply id reply => exact quiet_handleReply happens
  | cacheCleanup => exact quiet_foldlM quiet_cleanupNonce happens
  | shutdown => exact quiet_foldlM quiet_purge happens
  | expireUser owner => exact quiet_expireUser happens
  | destroyRequest id => exact quiet_destroyRequest happens
  | destroyUser owner => exact quiet_destroyUser happens
  | tick seconds =>
      cases happens
      exact Quiet.of_eq rfl rfl rfl rfl

/-! ## The nonce count -/

/-- The count of a request that has passed the checks is a number of 32 bits. -/
theorem ncValue_lt (ok : checkFields fields = none) : ncValue fields.nc < 2 ^ 32 := by
  have count : fields.nc = [] ∨ fields.nc.length = 8 ∧ ∀ b ∈ fields.nc, isDigit 16 b = true := by
    have qop : checkQop fields = none := by
      unfold checkFields at ok
      split_ifs at ok
      exact ok
    unfold checkQop at qop
    split at qop
    · split_ifs at qop with _ _ digits
      simp only [not_or, not_not] at digits
      exact .inr ⟨digits.1, all_eq_true.mp digits.2⟩
    · split_ifs at qop with given
      exact .inl (not_not.mp (not_or.mp given).2)
  rcases count with empty | ⟨length, digits⟩
  · rw [empty]
    decide
  · have read : strtoll 16 (fields.nc ++ []) = (saturate false (magnitude 16 fields.nc), []) :=
      strtoll_hex (ne_nil_of_length_pos (by omega)) digits rfl
        (by rw [append_nil, skipHexMark_of_all digits])
    have bounded := magnitude_lt (by decide : 0 < 16) fields.nc
    rw [length] at bounded
    rw [append_nil] at read
    rw [ncValue, read, saturate]
    simp only [Bool.false_eq_true, if_false]
    omega

/-- A count that is accepted is greater than the ones before. -/
theorem authDigestNonceIsValid_accepts {nc : Bytes} (checks : config.CheckNonceCount = true)
    (small : nonce.nc < 2 ^ 32) (isValid : (authDigestNonceIsValid config nonce nc).1 = true) :
    nonce.valid = true ∧ nonce.nc < ncValue nc ∧
      (authDigestNonceIsValid config nonce nc).2.nc = ncValue nc := by
  have expected : (nonce.nc + 1) % 2 ^ 64 = nonce.nc + 1 := Nat.mod_eq_of_lt (by omega)
  unfold authDigestNonceIsValid at isValid ⊢
  rw [expected, checks] at isValid ⊢
  dsimp only at isValid ⊢
  split at isValid
  · cases isValid
  next valid =>
    rw [if_neg valid]
    rw [if_neg nofun] at isValid ⊢
    split at isValid
    · cases isValid
    next fine =>
      rw [if_neg fine]
      exact ⟨Bool.eq_true_of_not_eq_false valid, by omega, rfl⟩

/-! ## Runs -/

/-- What an event needs so that it accepts no replay.  A right response is accepted whatever the
nonce is.  A response that is right for `GET` is not told from those accepted without counting. -/
def Fresh (config : Config) (md5 : Bytes → Bytes) (s : State) : Event → Prop
  | .authenticate id method => ∀ {request name nonce SESSIONKEY},
      Compares md5 s id request name nonce SESSIONKEY →
      (Direct md5 request nonce SESSIONKEY method → nonce.valid = true ∧
        ∀ a ∈ s.accepted, id ≠ a.request → name = a.nonce → ncValue request.fields.nc ≠ a.nc) ∧
      (Counted config md5 request nonce SESSIONKEY method →
        ∀ a ∈ s.accepted, a.counted = false → id ≠ a.request → name = a.nonce →
          ncValue request.fields.nc ≠ a.nc)
  | _ => True

/-- Nothing has been accepted that is a replay, and the nonces count what is counted. -/
structure Sound (s : State) : Prop where
  noReplay : NoReplay s
  named : ∀ {name nonce}, s.nonces.find name = some nonce → name < s.nonceCount
  past : ∀ a ∈ s.accepted, a.nonce < s.nonceCount
  counted : ∀ a ∈ s.accepted, a.counted = true → ∀ {nonce},
    s.nonces.find a.nonce = some nonce → a.nc ≤ nonce.nc
  small : ∀ {name nonce}, s.nonces.find name = some nonce → nonce.nc < 2 ^ 32
  requests : ∀ {id request}, s.requests.find id = some request → request.nonce ≠ none →
    ncValue request.fields.nc < 2 ^ 32

theorem noReplay_cons_iff {a : Acceptance} (accepted : t.accepted = a :: s.accepted)
    (before : NoReplay s) :
    NoReplay t ↔ a.valid = true ∧
      ∀ b ∈ s.accepted, a.request ≠ b.request → a.nonce = b.nonce → a.nc ≠ b.nc := by
  constructor
  · rintro ⟨distinct, valid⟩
    rw [accepted] at distinct valid
    exact ⟨valid a mem_cons_self, (pairwise_cons.mp distinct).1⟩
  · rintro ⟨valid, fresh⟩
    constructor
    · rw [accepted]
      exact pairwise_cons.mpr ⟨fresh, before.distinct⟩
    · rw [accepted]
      exact forall_mem_cons.mpr ⟨valid, before.valid⟩

namespace Sound

theorem initial : Sound {} := ⟨⟨List.Pairwise.nil, nofun⟩, nofun, nofun, nofun, nofun, nofun⟩

theorem quiet (sound : Sound s) (kept : Quiet s t) : Sound t where
  noReplay := by
    constructor
    · rw [kept.accepted]
      exact sound.noReplay.distinct
    · rw [kept.accepted]
      exact sound.noReplay.valid
  named := by
    intro name nonce found
    have more := kept.nonceCount
    rcases kept.nonces found with ⟨before, there, _⟩ | ⟨_, below, _⟩
    · exact (sound.named there).trans_le more
    · exact below
  past := by
    intro a member
    rw [kept.accepted] at member
    exact (sound.past a member).trans_le kept.nonceCount
  counted := by
    intro a member counted nonce found
    rw [kept.accepted] at member
    rcases kept.nonces found with ⟨before, there, same⟩ | ⟨new, _, _⟩
    · rw [same]
      exact sound.counted a member counted there
    · exact absurd (sound.past a member) new.not_gt
  small := by
    intro name nonce found
    rcases kept.nonces found with ⟨before, there, same⟩ | ⟨_, _, unused⟩
    · rw [same]
      exact sound.small there
    · rw [unused]
      decide
  requests := by
    intro id request found held
    rcases kept.requests found held with ⟨before, there, same, fields⟩ | ⟨fields, ok, same⟩
    · rw [fields]
      exact sound.requests there (same ▸ held)
    · rw [same]
      exact ncValue_lt ok

/-- What `authenticate` accepts is no replay if and only if it is fresh. -/
theorem noReplay_iff (checks : config.CheckNonceCount = true) (sound : Sound s)
    (authenticates : Authenticates config md5 s id method t) :
    NoReplay t ↔ Fresh config md5 s (.authenticate id method) := by
  cases authenticates with
  | quiet kept idle =>
      refine iff_of_true (sound.quiet kept).noReplay fun compares => ?_
      exact ⟨fun right => ((idle compares).1 right).elim,
        fun right => ((idle compares).2 right).elim⟩
  | direct compares right nonces requests nonceCount accepted =>
      rw [noReplay_cons_iff accepted sound.noReplay]
      constructor
      · intro fresh other name' nonce' key' second
        obtain ⟨rfl, rfl, rfl, rfl⟩ := compares.unique second
        refine ⟨fun _ => fresh, fun counted => ?_⟩
        cases right.symm.trans counted.wrong
      · exact fun fresh => (fresh compares).1 right
  | counted compares right nonces requests nonceCount accepted =>
      rename_i request name nonce key
      obtain ⟨valid, greater, -⟩ :=
        authDigestNonceIsValid_accepts checks (sound.small compares.there) right.isValid
      rw [noReplay_cons_iff accepted sound.noReplay]
      constructor
      · intro fresh other name' nonce' key' second
        obtain ⟨rfl, rfl, rfl, rfl⟩ := compares.unique second
        refine ⟨fun direct => ?_, fun _ a member _ => fresh.2 a member⟩
        cases direct.symm.trans right.wrong
      · intro fresh
        refine ⟨valid, fun a member differs same => ?_⟩
        cases counted : a.counted with
        | false => exact (fresh compares).2 right a member counted differs same
        | true =>
            have there : s.nonces.find a.nonce = some nonce := same ▸ compares.there
            exact ((sound.counted a member counted there).trans_lt greater).ne'

theorem authenticates (checks : config.CheckNonceCount = true) (sound : Sound s)
    (authenticates : Authenticates config md5 s id method t) (noReplay : NoReplay t) : Sound t := by
  cases authenticates with
  | quiet kept idle => exact sound.quiet kept
  | direct compares right nonces requests nonceCount accepted =>
      refine ⟨noReplay, ?_, ?_, ?_, ?_, ?_⟩
      · rw [nonces, nonceCount]
        exact sound.named
      · rw [accepted, nonceCount]
        exact forall_mem_cons.mpr ⟨sound.named compares.there, sound.past⟩
      · rw [accepted, nonces]
        exact forall_mem_cons.mpr ⟨nofun, sound.counted⟩
      · rw [nonces]
        exact sound.small
      · rw [requests]
        exact sound.requests
  | counted compares right nonces requests nonceCount accepted =>
      rename_i request name nonce key
      obtain ⟨_, greater, counts⟩ :=
        authDigestNonceIsValid_accepts checks (sound.small compares.there) right.isValid
      have held : request.nonce ≠ none := by rw [compares.named]; nofun
      have self : (s.nonces.set name
          (authDigestNonceIsValid config nonce request.fields.nc).2).find name =
          some (authDigestNonceIsValid config nonce request.fields.nc).2 :=
        find_set_self compares.there
      refine ⟨noReplay, ?_, ?_, ?_, ?_, ?_⟩
      · intro other changed found
        rw [nonces] at found
        rw [nonceCount]
        by_cases same : other = name
        · rw [same]
          exact sound.named compares.there
        · exact sound.named ((find_set_ne same).symm.trans found)
      · rw [accepted, nonceCount]
        exact forall_mem_cons.mpr ⟨sound.named compares.there, sound.past⟩
      · intro a member counted changed found
        rw [nonces] at found
        rw [accepted, mem_cons] at member
        by_cases same : a.nonce = name
        · rw [same] at found
          cases self.symm.trans found
          rw [counts]
          rcases member with rfl | earlier
          · exact le_rfl
          · exact (sound.counted a earlier counted (same ▸ compares.there)).trans greater.le
        · have there := (find_set_ne same).symm.trans found
          rcases member with rfl | earlier
          · exact (same rfl).elim
          · exact sound.counted a earlier counted there
      · intro other changed found
        rw [nonces] at found
        by_cases same : other = name
        · subst same
          cases self.symm.trans found
          rw [counts]
          exact sound.requests compares.found held
        · exact sound.small ((find_set_ne same).symm.trans found)
      · rw [requests]
        exact sound.requests

end Sound

/-- After an event there is no replay if and only if the event was fresh. -/
theorem Sound.next_iff {event : Event} (checks : config.CheckNonceCount = true) (sound : Sound s)
    (happens : s.next config md5 event = some t) :
    (NoReplay t ↔ Fresh config md5 s event) ∧ (NoReplay t → Sound t) := by
  cases event with
  | authenticate id method =>
      obtain ⟨-, happens⟩ := ite_none_left_eq_some.mp happens
      have authenticates := authenticate_authenticates happens
      exact ⟨sound.noReplay_iff checks authenticates, sound.authenticates checks authenticates⟩
  | _ =>
      have kept := sound.quiet (next_quiet (by intro _ _ same; cases same) happens)
      exact ⟨iff_of_true kept.noReplay trivial, fun _ => kept⟩

/-- With `CheckNonceCount` on, a run accepts no replay if and only if every event that takes place is
fresh. -/
theorem noReplay_iff_fresh (config : Config) (md5 : Bytes → Bytes)
    (checks : config.CheckNonceCount = true) (events : List Event) :
    LabelledRun.Allowed (State.next config md5)
        (fun s event => ∀ t, s.next config md5 event = some t → NoReplay t) {} events ↔
      LabelledRun.Allowed (State.next config md5)
        (fun s event => s.next config md5 event ≠ none → Fresh config md5 s event) {} events := by
  have sound : Sound {} := Sound.initial
  generalize ({} : State) = s at sound
  induction events generalizing s with
  | nil => exact Iff.rfl
  | cons event events ih =>
      constructor
      · rintro ⟨free, later⟩
        refine ⟨fun takes => ?_, fun t happens => ?_⟩
        · obtain ⟨t, happens⟩ := ne_none_iff_exists'.mp takes
          exact (sound.next_iff checks happens).1.mp (free t happens)
        · exact (ih t ((sound.next_iff checks happens).2 (free t happens))).mp (later t happens)
      · rintro ⟨fresh, later⟩
        have free : ∀ t, s.next config md5 event = some t → NoReplay t := fun t happens =>
          (sound.next_iff checks happens).1.mpr (fresh (by rw [happens]; nofun))
        refine ⟨free, fun t happens => ?_⟩
        exact (ih t ((sound.next_iff checks happens).2 (free t happens))).mpr (later t happens)

/-- A request with the right response. -/
def indexRequest : Fields where
  username := some (ascii "Mufasa")
  realm := some (ascii "testrealm@host.com")
  qop := some (ascii "auth")
  uri := some (ascii "/dir/index.html")
  nonceb64 := some (ascii "dcd98b7102dd2f0e8b11d0f600bfb0c093")
  nc := ascii "00000001"
  cnonce := some (ascii "0a4f113b")
  response := some (ascii "6629fae49393a05397450978507c4ef1")

/-- The MD5 of what is hashed for it. -/
def indexMd5 (text : Bytes) : Bytes :=
  if text = ascii "GET:/dir/index.html" then
    [57, 175, 243, 162, 186, 182, 18, 111, 51, 43, 148, 42, 249, 109, 51, 102]
  else [102, 41, 250, 228, 147, 147, 160, 83, 151, 69, 9, 120, 80, 124, 78, 241]

/-- The request comes twice. -/
def replayed : List Event :=
  [.fixHeader (ascii "dcd98b7102dd2f0e8b11d0f600bfb0c093") 0, .decode indexRequest,
    .handleReply 0 (.HA1 [147, 158, 117, 120, 237, 158, 60, 81, 138, 69, 42, 206, 231, 99, 188,
      233]),
    .authenticate 0 (ascii "GET"), .decode indexRequest, .authenticate 1 (ascii "GET")]

theorem replayed_accepted :
    (LabelledRun.exec (State.next {} indexMd5) {} replayed).map State.accepted =
      some [{ request := 1, nonce := 0, nc := 1, valid := true, counted := false },
        { request := 0, nonce := 0, nc := 1, valid := true, counted := false }] := by
  decide +kernel

/-- Both times it is accepted. -/
theorem accepted_twice : ∃ s, LabelledRun.exec (State.next {} indexMd5) {} replayed = some s ∧
    ¬ NoReplay s := by
  obtain ⟨s, run, accepted⟩ := map_eq_some_iff.mp replayed_accepted
  refine ⟨s, run, fun free => ?_⟩
  have distinct := free.distinct
  rw [accepted] at distinct
  exact absurd distinct (by decide)

theorem not_fresh_replayed : ¬ LabelledRun.Allowed (State.next {} indexMd5)
    (fun s event => s.next {} indexMd5 event ≠ none → Fresh {} indexMd5 s event) {} replayed := by
  intro fresh
  have free := (noReplay_iff_fresh {} indexMd5 rfl replayed).mpr fresh
  obtain ⟨s, run, accepted⟩ := map_eq_some_iff.mp replayed_accepted
  have last : NoReplay s := LabelledRun.invariant_of_allowed
    (fun _ free happens => free _ happens) Sound.initial.noReplay free run
  have distinct := last.distinct
  rw [accepted] at distinct
  exact absurd distinct (by decide)

end Digest
end Squid
