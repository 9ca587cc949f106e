import Mathlib.Data.Nat.ModEq
import Mathlib.Order.Defs.LinearOrder
import Squid.Http.Url

/-!
# Selection of a CARP parent

`src/carp.cc` hashes the key of a request together with the name of every peer and selects the
peer with the highest score.  The key may differ from peer to peer, and the running hash
`user_hash` is not set back between two peers.
-/

namespace Squid.Peer

open CRuntime Url List Option

/-- `options.carp_key`. -/
structure CarpKey where
  set : Bool
  scheme : Bool
  host : Bool
  port : Bool
  path : Bool
  params : Bool
  deriving DecidableEq

/-- What `carpSelectParent` reads of a peer. -/
structure CarpPeer (μ : Type) where
  name : Bytes
  carp_key : CarpKey
  load_multiplier : μ
  deriving DecidableEq

namespace Carp

def ROTATE_LEFT (x : BitVec 32) (n : ℕ) : BitVec 32 := x <<< n ||| x >>> (32 - n)

/-- A `char`, converted to `unsigned int`. -/
def charValue (c : UInt8) : BitVec 32 := c.toBitVec.signExtend 32

/-- The loops over the characters of a name or a key. -/
def hashText (hash : BitVec 32) (text : Bytes) : BitVec 32 :=
  text.foldl (fun hash c => hash + (ROTATE_LEFT hash 19 + charValue c)) hash

/-- The mixing of a hash. -/
def mix (hash : BitVec 32) : BitVec 32 := ROTATE_LEFT (hash + hash * 0x62531965) 21

/-- `carp.hash`, as `carpInit` computes it. -/
def peerHash (name : Bytes) : BitVec 32 := mix (hashText 0 name)

/-- `String::substr`, where `none` is a failed `Must`. -/
def substr (s : Bytes) (first last : ℕ) : Option Bytes :=
  if first < s.length ∧ 0 < last ∧ last ≤ s.length ∧ first < last then
    some ((s.drop first).take (last - first))
  else none

/-- `String::find` of a question mark. -/
def findQuery (s : Bytes) : Option ℕ :=
  if s.contains 63 then some (s.takeWhile (· != 63)).length else none

/-- The key of a request for a peer. -/
def requestKey (method : UrlMethod) (request : UrlRequest) (carp_key : CarpKey) : Option Bytes := do
  let key ←
    (if carp_key.set then do
      let key := if carp_key.scheme then const_str request.protocol else []
      let key := if carp_key.scheme ∧ key.length ≠ 0 then key ++ ascii "://" else key
      let key := if carp_key.host then key ++ request.host else key
      let key := if carp_key.port then key ++ (58 :: digits request.port).take 6 else key
      let path ←
        (if carp_key.path then
          match findQuery request.urlpath with
          | some pos => substr request.urlpath 0 pos
          | none => some request.urlpath
        else some [])
      let params ←
        (if carp_key.params then
          match findQuery request.urlpath with
          | some pos => substr request.urlpath pos request.urlpath.length
          | none => some []
        else some [])
      some (key ++ path ++ params)
    else some [])
  if key.length = 0 then some (urlCanonical method request) else some key

variable {μ σ : Type}

/-- `combined_hash`. -/
def combine (user_hash : BitVec 32) (tp : CarpPeer μ) : BitVec 32 :=
  mix (user_hash ^^^ peerHash tp.name)

section Selection

variable [LT σ] [DecidableLT σ] (key : CarpKey → Option Bytes) (score : BitVec 32 → μ → σ)
  (peerHTTPOkay : CarpPeer μ → Bool)

/-- The loop of `carpSelectParent`, with the combined hashes that it prints. -/
def selectLoop : BitVec 32 → Option (CarpPeer μ) → σ → List (CarpPeer μ) →
    Option (Option (CarpPeer μ) × List (BitVec 32))
  | _, p, _, [] => some (p, [])
  | user_hash, p, high_score, tp :: peers => do
      let user_hash := hashText user_hash (← key tp.carp_key)
      let combined_hash := combine user_hash tp
      let score' := score combined_hash tp.load_multiplier
      let (parent, hashes) ←
        (if high_score < score' ∧ peerHTTPOkay tp then selectLoop user_hash (some tp) score' peers
        else selectLoop user_hash p high_score peers)
      some (parent, combined_hash :: hashes)

/-- `carpSelectParent`; it throws if a key cannot be made. -/
def carpSelectParent [Zero σ] (method : UrlMethod) (request : UrlRequest)
    (carp_peers : List (CarpPeer μ)) : Option (Option (CarpPeer μ) × List (BitVec 32)) :=
  selectLoop (requestKey method request) score peerHTTPOkay 0 none 0 carp_peers

end Selection

/-! ## Hashes -/

/-- `ROTATE_LEFT` loses no bit. -/
theorem ROTATE_LEFT_injective : Function.Injective fun x => ROTATE_LEFT x 21 := by
  intro x y same
  ext i bound
  by_cases low : i < 11
  · have bit := congrArg (fun z => z.getLsbD (i + 21)) same
    have inside : i + 21 < 32 := by omega
    have outside : ∀ z : BitVec 32, z.getLsbD (11 + (i + 21)) = false :=
      fun z => BitVec.getLsbD_of_ge _ _ (by omega)
    simpa [ROTATE_LEFT, inside, outside] using bit
  · have bit := congrArg (fun z => z.getLsbD (i - 11)) same
    have inside : i - 11 < 32 := by omega
    have left : i - 11 < 21 := by omega
    have back : 11 + (i - 11) = i := by omega
    rw [← BitVec.getLsbD_eq_getElem, ← BitVec.getLsbD_eq_getElem]
    simpa [ROTATE_LEFT, inside, left, back] using bit

/-- Only the highest bit of a hash gets lost in the mixing. -/
theorem mix_eq_iff (x y : BitVec 32) : mix x = mix y ↔ x.setWidth 31 = y.setWidth 31 := by
  have scaled : ∀ z : BitVec 32, (z + z * 0x62531965).toNat =
      2 * (0x31298CB3 * z.toNat) % (2 * 2 ^ 31) := by
    intro z
    have factor : BitVec.toNat (0x62531965 : BitVec 32) = 0x62531965 := rfl
    rw [BitVec.toNat_add, BitVec.toNat_mul, factor]
    omega
  have odd : Nat.gcd (2 ^ 31) 0x31298CB3 = 1 := by decide
  calc mix x = mix y
      ↔ x + x * 0x62531965 = y + y * 0x62531965 := ROTATE_LEFT_injective.eq_iff
    _ ↔ 2 * (0x31298CB3 * x.toNat) ≡ 2 * (0x31298CB3 * y.toNat) [MOD 2 * 2 ^ 31] := by
        rw [← BitVec.toNat_inj, scaled, scaled, Nat.ModEq]
    _ ↔ 0x31298CB3 * x.toNat ≡ 0x31298CB3 * y.toNat [MOD 2 ^ 31] :=
        Nat.ModEq.mul_left_cancel_iff' (by decide)
    _ ↔ x.toNat ≡ y.toNat [MOD 2 ^ 31] :=
        ⟨Nat.ModEq.cancel_left_of_coprime odd, Nat.ModEq.mul_left _⟩
    _ ↔ x.setWidth 31 = y.setWidth 31 := by
        rw [← BitVec.toNat_inj, BitVec.toNat_setWidth, BitVec.toNat_setWidth, Nat.ModEq]

theorem combine_eq_iff (hash hash' : BitVec 32) (tp : CarpPeer μ) :
    combine hash tp = combine hash' tp ↔ hash.setWidth 31 = hash'.setWidth 31 := by
  rw [combine, combine, mix_eq_iff, BitVec.setWidth_xor, BitVec.setWidth_xor]
  exact BitVec.xor_left_inj _

theorem hashText_append (hash : BitVec 32) (text text' : Bytes) :
    hashText hash (text ++ text') = hashText (hashText hash text) text' :=
  foldl_append

/-! ## Selection -/

/-- The combined hashes of the peers with their keys. -/
def combinedHashes : BitVec 32 → List (CarpPeer μ) → List Bytes → List (BitVec 32)
  | hash, tp :: peers, text :: keys =>
      combine (hashText hash text) tp :: combinedHashes (hashText hash text) peers keys
  | _, _, _ => []

/-- The peer with the highest score. -/
def choose [LT σ] [DecidableLT σ] (score : BitVec 32 → μ → σ) (peerHTTPOkay : CarpPeer μ → Bool) :
    Option (CarpPeer μ) → σ → List (CarpPeer μ × BitVec 32) → Option (CarpPeer μ)
  | p, _, [] => p
  | p, high_score, (tp, hash) :: peers =>
      if high_score < score hash tp.load_multiplier ∧ peerHTTPOkay tp then
        choose score peerHTTPOkay (some tp) (score hash tp.load_multiplier) peers
      else choose score peerHTTPOkay p high_score peers

/-- A combined hash depends on the keys up to its peer. -/
theorem combinedHashes_getElem? (hash : BitVec 32) (peers : List (CarpPeer μ)) (keys : List Bytes)
    (lengths : keys.length = peers.length) (i : ℕ) :
    (combinedHashes hash peers keys)[i]? =
      peers[i]?.map (combine (hashText hash (keys.take (i + 1)).flatten)) := by
  induction peers generalizing hash keys i with
  | nil => simp [combinedHashes]
  | cons tp peers ih =>
      cases keys with
      | nil => simp at lengths
      | cons text keys =>
          cases i with
          | zero => simp [combinedHashes]
          | succ i =>
              have rest := ih (hashText hash text) keys (by simpa using lengths) i
              simp only [combinedHashes, List.getElem?_cons_succ, rest, take_succ_cons,
                flatten_cons, hashText_append]

theorem combinedHashes_length (hash : BitVec 32) (peers : List (CarpPeer μ)) (keys : List Bytes)
    (lengths : keys.length = peers.length) :
    (combinedHashes hash peers keys).length = peers.length := by
  induction peers generalizing hash keys with
  | nil => simp [combinedHashes]
  | cons tp peers ih =>
      cases keys with
      | nil => simp at lengths
      | cons text keys =>
          simp [combinedHashes, ih _ keys (by simpa using lengths)]

/-- The keys of a request for the peers of a list. -/
def peerKeys (key : CarpKey → Option Bytes) (peers : List (CarpPeer μ)) : Option (List Bytes) :=
  peers.mapM fun tp => key tp.carp_key

theorem peerKeys_length {key : CarpKey → Option Bytes} {peers : List (CarpPeer μ)}
    {keys : List Bytes} (made : peerKeys key peers = some keys) : keys.length = peers.length := by
  induction peers generalizing keys with
  | nil =>
      cases made
      rfl
  | cons tp peers ih =>
      simp only [peerKeys, mapM_cons, bind_eq_bind, bind_eq_some_iff,
        Option.pure_def, some.injEq] at made
      obtain ⟨text, -, rest, made', rfl⟩ := made
      simp [ih made']

/-- The loop hashes the keys one after the other, and chooses by score. -/
theorem selectLoop_eq [LT σ] [DecidableLT σ] (key : CarpKey → Option Bytes)
    (score : BitVec 32 → μ → σ) (peerHTTPOkay : CarpPeer μ → Bool) (hash : BitVec 32)
    (p : Option (CarpPeer μ)) (high_score : σ) (peers : List (CarpPeer μ)) :
    selectLoop key score peerHTTPOkay hash p high_score peers =
      (peerKeys key peers).map fun keys =>
        (choose score peerHTTPOkay p high_score (peers.zip (combinedHashes hash peers keys)),
          combinedHashes hash peers keys) := by
  induction peers generalizing hash p high_score with
  | nil => rfl
  | cons tp peers ih =>
      simp only [selectLoop, peerKeys, mapM_cons, bind_eq_bind, Option.pure_def]
      cases key tp.carp_key with
      | none => rfl
      | some text =>
          simp only [bind_some, ih, peerKeys]
          cases List.mapM (fun tp => key tp.carp_key) peers with
          | none => simp
          | some keys =>
              simp only [map_some, bind_some, combinedHashes, zip_cons_cons, choose]
              split <;> rfl

section Stability

variable [LinearOrder σ] (score : BitVec 32 → μ → σ) (peerHTTPOkay : CarpPeer μ → Bool)

/-- A peer that has to be beaten stays chosen, unless the choice does not depend on it. -/
theorem choose_of_le (q : CarpPeer μ) (p : Option (CarpPeer μ)) (high_score high_score' : σ)
    (below : high_score ≤ high_score') (peers : List (CarpPeer μ × BitVec 32)) :
    choose score peerHTTPOkay (some q) high_score' peers = some q ∨
      choose score peerHTTPOkay (some q) high_score' peers =
        choose score peerHTTPOkay p high_score peers := by
  induction peers generalizing p high_score with
  | nil => exact Or.inl rfl
  | cons scored peers ih =>
      obtain ⟨tp, hash⟩ := scored
      simp only [choose]
      by_cases beats : high_score' < score hash tp.load_multiplier ∧ peerHTTPOkay tp
      · rw [if_pos beats, if_pos ⟨below.trans_lt beats.1, beats.2⟩]
        exact Or.inr rfl
      · rw [if_neg beats]
        split
        · next wins =>
            exact ih (some tp) _ (not_lt.mp fun more => beats ⟨more, wins.2⟩)
        · exact ih p high_score below

/-- One more peer is chosen itself, or it does not change the choice. -/
theorem choose_insert (q : CarpPeer μ) (hash : BitVec 32) (p : Option (CarpPeer μ))
    (high_score : σ) (before after : List (CarpPeer μ × BitVec 32)) :
    choose score peerHTTPOkay p high_score (before ++ (q, hash) :: after) = some q ∨
      choose score peerHTTPOkay p high_score (before ++ (q, hash) :: after) =
        choose score peerHTTPOkay p high_score (before ++ after) := by
  induction before generalizing p high_score with
  | nil =>
      simp only [List.nil_append, choose]
      split
      · next wins =>
          exact choose_of_le score peerHTTPOkay q p high_score _ wins.1.le after
      · exact Or.inr rfl
  | cons scored before ih =>
      obtain ⟨tp, hash'⟩ := scored
      simp only [cons_append, choose]
      split <;> exact ih _ _

/-- The combined hashes of the peers that two lists have in common agree. -/
def SameHashes (peers peers' : List (CarpPeer μ)) (hashes hashes' : List (BitVec 32)) : Prop :=
  ∀ (i j : ℕ) tp, peers[i]? = some tp → peers'[j]? = some tp → hashes[i]? = hashes'[j]?

/-- Only requests for the peer that one list has and the other does not change their parent. -/
def StableParent (peers peers' : List (CarpPeer μ)) (parent parent' : Option (CarpPeer μ)) : Prop :=
  ∀ q before after,
    (peers = before ++ q :: after → peers' = before ++ after → parent ≠ parent' → parent = some q) ∧
    (peers' = before ++ q :: after → peers = before ++ after → parent ≠ parent' → parent' = some q)

/-- The keys before two peers, and their own keys, hash alike but for the highest bit. -/
def KeysAgree (peers peers' : List (CarpPeer μ)) (keys keys' : List Bytes) : Prop :=
  ∀ (i j : ℕ) tp, peers[i]? = some tp → peers'[j]? = some tp →
    (hashText 0 (keys.take (i + 1)).flatten).setWidth 31 =
      (hashText 0 (keys'.take (j + 1)).flatten).setWidth 31

variable {peers peers' : List (CarpPeer μ)}

theorem sameHashes_iff {keys keys' : List Bytes} (lengths : keys.length = peers.length)
    (lengths' : keys'.length = peers'.length) :
    SameHashes peers peers' (combinedHashes 0 peers keys) (combinedHashes 0 peers' keys') ↔
      KeysAgree peers peers' keys keys' := by
  have entry : ∀ (i j : ℕ) tp, peers[i]? = some tp → peers'[j]? = some tp →
      ((combinedHashes 0 peers keys)[i]? = (combinedHashes 0 peers' keys')[j]? ↔
        (hashText 0 (keys.take (i + 1)).flatten).setWidth 31 =
          (hashText 0 (keys'.take (j + 1)).flatten).setWidth 31) := by
    intro i j tp at_i at_j
    rw [combinedHashes_getElem? 0 peers keys lengths, combinedHashes_getElem? 0 peers' keys' lengths',
      at_i, at_j, map_some, map_some, some_inj, combine_eq_iff]
  exact ⟨fun same i j tp at_i at_j => (entry i j tp at_i at_j).mp (same i j tp at_i at_j),
    fun agree i j tp at_i at_j => (entry i j tp at_i at_j).mpr (agree i j tp at_i at_j)⟩

variable {hashes hashes' : List (BitVec 32)}

/-- Without one peer, the other peers keep their hashes. -/
theorem zip_without {before after : List (CarpPeer μ)} {q : CarpPeer μ}
    (lengths : hashes.length = (before ++ q :: after).length)
    (lengths' : hashes'.length = (before ++ after).length)
    (same : SameHashes (before ++ q :: after) (before ++ after) hashes hashes') :
    ∃ front hash back, (before ++ q :: after).zip hashes = front ++ (q, hash) :: back ∧
      (before ++ after).zip hashes' = front ++ back := by
  simp only [length_append, length_cons] at lengths lengths'
  obtain ⟨front, rest, rfl, front_length⟩ : ∃ front rest, hashes = front ++ rest ∧
      before.length = front.length :=
    ⟨hashes.take before.length, hashes.drop before.length, (take_append_drop _ _).symm,
      by rw [length_take]; omega⟩
  cases rest with
  | nil =>
      simp only [List.append_nil] at lengths
      omega
  | cons hash back =>
      have kept : hashes' = front ++ back := by
        apply ext_getElem?
        intro k
        obtain inside | outside := Nat.lt_or_ge k before.length
        · have found := same k k before[k]
            (by rw [List.getElem?_append_left inside, List.getElem?_eq_getElem inside])
            (by rw [List.getElem?_append_left inside, List.getElem?_eq_getElem inside])
          rw [← found, List.getElem?_append_left (by omega), List.getElem?_append_left (by omega)]
        obtain inside' | beyond := Nat.lt_or_ge (k - before.length) after.length
        · have step : k + 1 - before.length = k - before.length + 1 := by omega
          have found := same (k + 1) k (after[k - before.length])
            (by rw [List.getElem?_append_right (by omega), step, List.getElem?_cons_succ]
                exact List.getElem?_eq_getElem inside')
            (by rw [List.getElem?_append_right outside]
                exact List.getElem?_eq_getElem inside')
          rw [← found, List.getElem?_append_right (by omega),
            List.getElem?_append_right (by omega), ← front_length, step, List.getElem?_cons_succ]
        · simp only [length_append, length_cons] at lengths
          rw [List.getElem?_eq_none (by omega),
            List.getElem?_eq_none (by rw [length_append]; omega)]
      refine ⟨before.zip front, hash, after.zip back, ?_, ?_⟩
      · rw [zip_append front_length, zip_cons_cons]
      · rw [kept, zip_append front_length]

theorem stableParent_of_sameHashes (p : Option (CarpPeer μ)) (high_score : σ)
    (lengths : hashes.length = peers.length) (lengths' : hashes'.length = peers'.length)
    (same : SameHashes peers peers' hashes hashes') :
    StableParent peers peers' (choose score peerHTTPOkay p high_score (peers.zip hashes))
      (choose score peerHTTPOkay p high_score (peers'.zip hashes')) := by
  intro q before after
  constructor
  · rintro rfl rfl changed
    obtain ⟨front, hash, back, whole, without⟩ := zip_without lengths lengths' same
    rw [whole, without] at changed
    rw [whole]
    exact (choose_insert score peerHTTPOkay q hash p high_score front back).resolve_right changed
  · rintro rfl rfl changed
    have same' : SameHashes (before ++ q :: after) (before ++ after) hashes' hashes :=
      fun i j tp at_i at_j => (same j i tp at_j at_i).symm
    obtain ⟨front, hash, back, whole, without⟩ := zip_without lengths' lengths same'
    rw [whole, without] at changed
    rw [whole]
    exact (choose_insert score peerHTTPOkay q hash p high_score front back).resolve_right
      changed.symm

/-- A request is routed stably between two lists of peers exactly if, for every peer that the lists
have in common, the keys up to the peer hash alike in both lists, but for the highest bit. -/
theorem routing_stable_iff [Zero σ] (method : UrlMethod) (request : UrlRequest)
    (peers peers' : List (CarpPeer μ)) :
    (∀ parent hashes parent' hashes',
      carpSelectParent score peerHTTPOkay method request peers = some (parent, hashes) →
      carpSelectParent score peerHTTPOkay method request peers' = some (parent', hashes') →
      SameHashes peers peers' hashes hashes' ∧ StableParent peers peers' parent parent') ↔
    ∀ keys keys', peerKeys (requestKey method request) peers = some keys →
      peerKeys (requestKey method request) peers' = some keys' →
      KeysAgree peers peers' keys keys' := by
  simp only [carpSelectParent, selectLoop_eq]
  constructor
  · intro stable keys keys' made made'
    rw [made, made'] at stable
    exact (sameHashes_iff (peerKeys_length made) (peerKeys_length made')).mp
      (stable _ _ _ _ rfl rfl).1
  · intro agree parent hashes parent' hashes' selected selected'
    obtain ⟨keys, made, result⟩ := map_eq_some_iff.mp selected
    obtain ⟨keys', made', result'⟩ := map_eq_some_iff.mp selected'
    cases result
    cases result'
    have same := (sameHashes_iff (peerKeys_length made) (peerKeys_length made')).mpr
      (agree keys keys' made made')
    exact ⟨same, stableParent_of_sameHashes score peerHTTPOkay none 0
      (combinedHashes_length 0 peers keys (peerKeys_length made))
      (combinedHashes_length 0 peers' keys' (peerKeys_length made')) same⟩

end Stability

/-- A peer of weight one whose key is the URL. -/
def plainPeer (name : String) : CarpPeer ℕ where
  name := ascii name
  carp_key := ⟨false, false, false, false, false, false⟩
  load_multiplier := 1

/-- `http://a/`. -/
def plainRequest : UrlRequest where
  protocol := .PROTO_HTTP
  login := []
  host := ascii "a"
  port := 80
  urlpath := ascii "/"

/-- Without the peer `a`, a request that `b` served goes to `c`. -/
theorem routing_unstable :
    ∃ parent hashes parent' hashes',
      carpSelectParent (fun hash multiplier => hash.toNat * multiplier) (fun _ => true) .other
        plainRequest [plainPeer "a", plainPeer "c", plainPeer "b"] = some (parent, hashes) ∧
      carpSelectParent (fun hash multiplier => hash.toNat * multiplier) (fun _ => true) .other
        plainRequest [plainPeer "c", plainPeer "b"] = some (parent', hashes') ∧
      ¬ SameHashes [plainPeer "a", plainPeer "c", plainPeer "b"] [plainPeer "c", plainPeer "b"]
        hashes hashes' ∧
      ¬ StableParent [plainPeer "a", plainPeer "c", plainPeer "b"] [plainPeer "c", plainPeer "b"]
        parent parent' := by
  refine ⟨some (plainPeer "b"), [3688132550, 3477961753, 3926948295], some (plainPeer "c"),
    [2231607952, 1099815704], by decide +kernel, by decide +kernel, ?_, ?_⟩
  · intro same
    have moved := same 1 0 (plainPeer "c") rfl rfl
    revert moved
    decide
  · intro stable
    have moved := (stable (plainPeer "a") [] [plainPeer "c", plainPeer "b"]).1 rfl rfl (by decide)
    revert moved
    decide

end Carp

end Squid.Peer
