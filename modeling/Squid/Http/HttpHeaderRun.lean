import Squid.Http.HttpHeaderLoops

/-!
# Runs of header operations

The operations that change a header, and the headers that are reached by them from empty ones.  An
operation that copies from another header takes one that is reached as well, so that a run goes
through all the headers of a program.

`Rules` collects what the basic operations do to an invariant; the rules of the operations built
from them follow.
-/

namespace Squid
namespace HttpHeader

open CRuntime List

/-! ## Operations -/

/-- An operation on a header. -/
inductive Op
  | addEntry (e : HttpHeaderEntry)
  | insertEntry (e : HttpHeaderEntry)
  | putInt (id : HdrType) (number : ℤ)
  | putInt64 (id : HdrType) (number : ℤ)
  | putTime (id : HdrType) (htime : ℤ) (text : Bytes)
  | insertTime (id : HdrType) (htime : ℤ) (text : Bytes)
  | putStr (id : HdrType) (str : Bytes)
  | putAuth (authScheme realm : Bytes)
  | putWarning (visibleAppname : Bytes) (code : ℤ) (text : Bytes)
  | putExt (name value : Bytes)
  | putCc (packed : Bytes)
  | putContRange (packed : Bytes)
  | putRange (packed : Bytes)
  | putSc (packed : Bytes)
  | delById (id : HdrType)
  | delByName (name : Bytes)
  /-- Calls of `delAt`, followed by one of `refreshMask`. -/
  | delAt (positions : List ℕ)
  | append (src : HttpHeader)
  | update (fresh : HttpHeader) (denied : HdrType → Bool)
  | parse (relaxed : Bool) (block : Bytes)
  | clean
  /-- Copy construction of a new header. -/
  | copy (source : HttpHeader)
  | assign (source : HttpHeader)
  | removeConnectionHeaderEntries
  | removeHopByHopEntries
  | mangleList (mangle : ℕ → HttpHeaderEntry → Mangling)

/-- The header after an operation. -/
def Op.run (h : HttpHeader) : Op → Except Abort HttpHeader
  | .addEntry e => h.addEntry e
  | .insertEntry e => .ok (h.insertEntry e)
  | .putInt id number => h.putInt id number
  | .putInt64 id number => h.putInt64 id number
  | .putTime id htime text => h.putTime id htime text
  | .insertTime id htime text => h.insertTime id htime text
  | .putStr id str => h.putStr id str
  | .putAuth authScheme realm => h.putAuth authScheme realm
  | .putWarning visibleAppname code text => h.putWarning visibleAppname code text
  | .putExt name value => h.putExt name value
  | .putCc packed => h.putCc packed
  | .putContRange packed => h.putContRange packed
  | .putRange packed => h.putRange packed
  | .putSc packed => h.putSc packed
  | .delById id => do return (← h.delById id).1
  | .delByName name => do return (← h.delByName name).1
  | .delAt positions => do return (← positions.foldlM HttpHeader.delAt h).refreshMask
  | .append src => h.append src
  | .update fresh denied => h.update fresh denied
  | .parse relaxed block => do return (← h.parse relaxed block).1
  | .clean => h.clean
  | .copy source => source.copy
  | .assign source => h.assign source
  | .removeConnectionHeaderEntries => h.removeConnectionHeaderEntries
  | .removeHopByHopEntries => h.removeHopByHopEntries
  | .mangleList mangle => h.mangleList mangle

/-- The other header that an operation reads. -/
def Op.source : Op → Option HttpHeader
  | .append src => some src
  | .update fresh _ => some fresh
  | .copy source => some source
  | .assign source => some source
  | .addEntry _ | .insertEntry _ | .putInt _ _ | .putInt64 _ _ | .putTime _ _ _
  | .insertTime _ _ _ | .putStr _ _ | .putAuth _ _ | .putWarning _ _ _ | .putExt _ _ | .putCc _
  | .putContRange _ | .putRange _ | .putSc _ | .delById _ | .delByName _ | .delAt _ | .parse _ _
  | .clean | .removeConnectionHeaderEntries | .removeHopByHopEntries | .mangleList _ => none

/-- The headers that are reached by operations which are allowed where they happen. -/
inductive Reachable (allowed : HttpHeader → Op → Prop) : HttpHeader → Prop
  | empty (owner : Owner) : Reachable allowed (HttpHeader.empty owner)
  | step {h after : HttpHeader} {op : Op} : Reachable allowed h →
      (∀ other, op.source = some other → Reachable allowed other) → allowed h op →
      op.run h = .ok after → Reachable allowed after

/-! ## How much a block can add -/

/-- The bytes that the entries of lines can have when packed. -/
def lineBudget (lines : List Bytes) : ℕ := (lines.map fun line => line.length + 4).sum

theorem scanLine_length {relaxed first : Bool} {owner : Owner} {line body cr : Bytes}
    (scanned : scanLine relaxed owner first line = some (body, cr)) :
    body.length + cr.length = line.length := by
  unfold scanLine at scanned
  split at scanned
  rename_i front back divided
  have whole : front.length + back.length = line.length := by
    split at divided
    · rename_i ends
      obtain ⟨rfl, rfl⟩ := Prod.mk.inj divided
      have : line ≠ [] := by
        rintro rfl
        simp at ends
      have := length_pos_iff.2 this
      simp only [length_dropLast, length_singleton]
      omega
    · obtain ⟨rfl, rfl⟩ := Prod.mk.inj divided
      simp
  split at scanned
  · cases scanned
  · split at scanned
    · cases scanned
    · split at scanned
      · cases scanned
      · obtain ⟨rfl, rfl⟩ := Prod.mk.inj (Option.some.inj scanned)
        simpa using whole

/-- A parsed entry has at most three bytes more than the field when it is packed. -/
theorem size_of_parse {relaxed : Bool} {field : Bytes} {e : HttpHeaderEntry}
    (parsed : HttpHeaderEntry.parse relaxed field = some e) : e.size ≤ field.length + 3 := by
  unfold HttpHeaderEntry.parse at parsed
  extract_lets found name id value at parsed
  split at parsed
  · cases parsed
  · rename_i accepted
    push Not at accepted
    obtain rfl := Option.some.inj parsed
    have colon : found.length < field.length := by
      have start : found <+: field := takeWhile_prefix _
      by_contra whole
      have all : found = field := start.eq_of_length (le_antisymm start.length_le (by omega))
      have := mem_takeWhile_imp (all ▸ accepted.1 : (58 : UInt8) ∈ found)
      simp at this
    have short : name.length ≤ found.length := by
      by_cases strict : relaxed = true
      · simp only [name, strict, if_true]
        exact (List.rdropWhile_prefix _ _).length_le
      · simp [name, strict]
    have trimmed : value.length ≤ field.length - (found.length + 1) := by
      calc value.length ≤ ((field.drop (found.length + 1)).dropWhile isSpace).length :=
            (List.rdropWhile_prefix _ _).length_le
        _ ≤ (field.drop (found.length + 1)).length := length_dropWhile_le _ _
        _ = field.length - (found.length + 1) := length_drop
    have named : (if id = .other then name else id.name).length ≤ name.length := by
      split
      · exact le_rfl
      · rename_i known
        cases lookup : HdrType.idByName name with
        | none => simp [id, lookup] at known
        | some found =>
            have : id = found := by simp [id, lookup]
            rw [this, HdrType.length_of_idByName lookup]
    simp only [HttpHeaderEntry.size]
    omega

/-! ## What does not look at the length or the mask -/

/-- An argument is wrong or a `String` is too long. -/
def Refused (a : Abort) : Prop := a = .contract ∨ a = .stringSize

theorem create_outcome (id : HdrType) (name value : Bytes) :
    Outcome (fun _ => True) Refused (HttpHeaderEntry.create id name value) := by
  unfold HttpHeaderEntry.create
  split
  · exact .inr rfl
  · exact trivial

theorem strListAdd_outcome (str item : Bytes) (del : UInt8) :
    Outcome (fun _ => True) Refused (strListAdd str item del) := by
  unfold strListAdd
  extract_lets joined
  split
  · exact .inr rfl
  · exact trivial

theorem getList_outcome (h : HttpHeader) (id : HdrType) :
    Outcome (fun _ => True) Refused (h.getList id) := by
  unfold getList
  split
  · exact .inl rfl
  · split
    · exact trivial
    · exact Outcome.foldlM trivial fun s e _ _ => strListAdd_outcome s e.value 44

theorem chunked_outcome (h : HttpHeader) : Outcome (fun _ => True) Refused h.chunked := by
  have listed : HdrType.transferEncoding ∈ HdrType.listHeaders := by decide
  unfold chunked hasListMember getStrOrList has
  simp only [listed, if_true, reduceCtorEq, if_false]
  show Outcome _ _ (if h.mask .transferEncoding = true then _ else _)
  split
  · exact (getList_outcome h _).bind fun header _ => trivial
  · exact trivial

/-! ## Rules for an invariant -/

/--
What the basic operations do to an invariant, which may depend on the number of bytes that are
still to be added.
-/
structure Rules (inv : ℕ → HttpHeader → Prop) (fail : Abort → Prop) : Prop where
  refused : ∀ a, Refused a → fail a
  mono : ∀ {n m : ℕ} {h : HttpHeader}, inv (n + m) h → inv n h
  empty : ∀ {owner : Owner}, inv 0 (HttpHeader.empty owner)
  addEntry : ∀ {n : ℕ} {h : HttpHeader} {e : HttpHeaderEntry}, inv (n + e.size) h →
    Outcome (inv n) fail (h.addEntry e)
  insertEntry : ∀ {n : ℕ} {h : HttpHeader} {e : HttpHeaderEntry}, inv (n + e.size) h →
    inv n (h.insertEntry e)
  findEntry : ∀ {n : ℕ} {h : HttpHeader} (id : HdrType), inv n h →
    Outcome (fun _ => True) fail (h.findEntry id)
  delById : ∀ {n : ℕ} {h : HttpHeader} (id : HdrType), inv n h →
    Outcome (fun result => inv n result.1) fail (h.delById id)
  delByName : ∀ {n : ℕ} {h : HttpHeader} (name : Bytes), inv n h →
    Outcome (fun result => inv n result.1) fail (h.delByName name)

namespace Rules

variable {inv : ℕ → HttpHeader → Prop} {fail : Abort → Prop} (rules : Rules inv fail)
include rules

theorem clean (h : HttpHeader) : Outcome (inv 0) fail h.clean := by
  unfold HttpHeader.clean
  split
  · exact rules.refused _ (.inl rfl)
  · exact rules.empty

theorem create (id : HdrType) (name value : Bytes) :
    Outcome (fun _ => True) fail (HttpHeaderEntry.create id name value) :=
  (create_outcome id name value).imp (fun _ done => done) rules.refused

variable {h : HttpHeader} {n : ℕ}

theorem addAll (entries : List HttpHeaderEntry) (holds : inv (n + sizes entries) h) :
    Outcome (inv n) fail (h.addAll entries) := by
  unfold HttpHeader.addAll
  induction entries generalizing h with
  | nil => exact holds
  | cons e entries ih =>
      rw [foldlM_cons]
      rw [sizes_cons, Nat.add_left_comm, Nat.add_comm] at holds
      exact (rules.addEntry holds).bind fun after added => ih added

theorem delLike (e : HttpHeaderEntry) (holds : inv n h) : Outcome (inv n) fail (h.delLike e) := by
  unfold HttpHeader.delLike
  split
  · exact (rules.delById e.id holds).bind fun result kept => kept
  · exact (rules.delByName e.name holds).bind fun result kept => kept

theorem update {fresh : HttpHeader} {denied : HdrType → Bool}
    (holds : inv (n + sizes (fresh.live.filter fun e => !denied e.id)) h) :
    Outcome (inv n) fail (h.update fresh denied) := by
  unfold HttpHeader.update
  apply Outcome.bind (Outcome.foldlM holds fun after e _ kept => rules.delLike e kept)
  intro after kept
  exact rules.addAll _ kept

theorem addParsed (relaxed : Bool) {e : HttpHeaderEntry} (holds : inv (n + e.size) h) :
    Outcome (fun result => ∀ after ∈ result, inv n after) fail (h.addParsed relaxed e) := by
  have found : Outcome (fun _ => True) fail (h.earlierLength e) := by
    unfold earlierLength
    split
    · exact rules.findEntry e.id holds
    · exact trivial
  have added : ∀ {g : HttpHeader}, inv (n + e.size) g →
      Outcome (fun result => ∀ after ∈ result, inv n after) fail (some <$> g.addEntry e) := by
    intro g counted
    refine (rules.addEntry counted).bind fun after kept => ?_
    rintro _ ⟨⟩
    exact kept
  unfold HttpHeader.addParsed
  apply found.bind
  rintro (_ | e2) -
  · dsimp only
    split
    · exact Outcome.ok (by simp)
    · exact added holds
  · dsimp only
    split
    · exact Outcome.ok (by simp)
    · split
      · exact (rules.delById e2.id holds).bind fun result kept => added kept
      · refine Outcome.ok ?_
        rintro _ ⟨⟩
        exact rules.mono holds

/-- By induction on the lines; what is left of the block pays for the entries. -/
theorem parseLines {relaxed : Bool} {tail : Bytes} {lines : List Bytes} {field : Option Bytes}
    (holds : inv (n + ((field.getD []).length + lineBudget lines)) h) :
    Outcome (fun result => ∀ after ∈ result, inv n after) fail
      (parseLines relaxed tail lines field h) := by
  induction lines generalizing field h with
  | nil =>
      cases field with
      | none =>
          refine Outcome.ok fun after member => ?_
          split at member
          · obtain rfl := Option.mem_some_iff.1 member
            exact rules.mono holds
          · cases member
      | some text => exact Outcome.ok (by simp)
  | cons line lines ih =>
      have more : lineBudget (line :: lines) = line.length + 4 + lineBudget lines := by
        simp [lineBudget]
      have spend : ∀ {k : ℕ} {g : HttpHeader},
          k ≤ (field.getD []).length + lineBudget (line :: lines) →
          inv (n + ((field.getD []).length + lineBudget (line :: lines))) g → inv (n + k) g := by
        intro k g less full
        obtain ⟨rest, total⟩ := Nat.exists_eq_add_of_le less
        rw [total, ← Nat.add_assoc] at full
        exact rules.mono full
      rw [HttpHeader.parseLines]
      split
      · exact Outcome.ok (by simp)
      · rename_i body cr scanned
        have length := scanLine_length scanned
        extract_lets text
        have long : text.length = (field.getD []).length + body.length := by simp [text]
        split
        · apply ih
          refine spend ?_ holds
          simp only [Option.getD_some, length_append, length_singleton]
          omega
        · split
          · refine Outcome.ok fun after member => ?_
            split at member
            · obtain rfl := Option.mem_some_iff.1 member
              exact rules.mono holds
            · cases member
          · split
            · split
              · exact ih (spend (by simp; omega) holds)
              · exact Outcome.ok (by simp)
            · rename_i e parsed
              have size := size_of_parse parsed
              have paid : inv (n + (([] : Bytes).length + lineBudget lines) + e.size) h := by
                rw [Nat.add_assoc]
                exact spend (by simp; omega) holds
              apply (rules.addParsed relaxed paid).bind
              rintro (_ | after) kept
              · exact Outcome.ok (by simp)
              · exact ih (kept after rfl)

theorem parse {relaxed : Bool} {block : Bytes} (holds : inv (lineBudget (splitLines block).1) h) :
    Outcome (fun result => inv 0 result.1) fail (h.parse relaxed block) := by
  have parsed : Outcome (fun result => ∀ after ∈ result, inv 0 after) fail
      (h.parseBlock relaxed block) := by
    unfold parseBlock
    split
    · exact Outcome.ok (by simp)
    · exact rules.parseLines (by simpa using holds)
  unfold HttpHeader.parse
  apply parsed.bind
  rintro (_ | after) kept
  · exact (rules.clean h).bind fun cleaned empty => empty
  · apply ((chunked_outcome after).imp (fun _ done => done) rules.refused).bind
    intro chunked _
    split
    · exact (rules.delById _ (kept after rfl)).bind fun result left => left
    · exact kept after rfl

end Rules

/-! ## One operation -/

/-- The operations that do more than the basic ones, each in its own way. -/
def Op.Special : Op → Prop
  | .delAt _ | .copy _ | .assign _ | .removeConnectionHeaderEntries | .removeHopByHopEntries
  | .mangleList _ => True
  | .addEntry _ | .insertEntry _ | .putInt _ _ | .putInt64 _ _ | .putTime _ _ _
  | .insertTime _ _ _ | .putStr _ _ | .putAuth _ _ | .putWarning _ _ _ | .putExt _ _ | .putCc _
  | .putContRange _ | .putRange _ | .putSc _ | .delById _ | .delByName _ | .append _
  | .update _ _ | .parse _ _ | .clean => False

namespace Rules

section Steady

variable {inv : HttpHeader → Prop} {fail : Abort → Prop} (rules : Rules (fun _ => inv) fail)
  {h : HttpHeader}
include rules

theorem putField (type : FieldType) (id : HdrType) (text : Bytes) (holds : inv h) :
    Outcome inv fail (HttpHeader.putField type h id text) := by
  unfold HttpHeader.putField
  split
  · exact rules.refused _ (.inl rfl)
  · exact (rules.create id [] text).bind fun e _ => rules.addEntry (n := 0) holds

theorem insertTime (id : HdrType) (htime : ℤ) (text : Bytes) (holds : inv h) :
    Outcome inv fail (h.insertTime id htime text) := by
  unfold HttpHeader.insertTime
  split
  · exact rules.refused _ (.inl rfl)
  · exact (rules.create id [] text).bind fun e _ => rules.insertEntry (n := 0) holds

theorem putPacked (id : HdrType) (packed : Bytes) (holds : inv h) :
    Outcome inv fail (HttpHeader.putPacked id h packed) := by
  unfold HttpHeader.putPacked
  apply (rules.delById (n := 0) id holds).bind
  intro result kept
  exact (rules.create id [] packed).bind fun e _ => rules.addEntry (n := 0) kept

/-- An invariant of the basic operations is one of all operations that are not special. -/
theorem run (op : Op) (holds : inv h) (special : op.Special → Outcome inv fail (op.run h)) :
    Outcome inv fail (op.run h) := by
  have zero : ∀ {number : ℤ} {x : Except Abort HttpHeader}, Outcome inv fail x →
      Outcome inv fail (if number < 0 then .error .contract else x) := by
    intro number x outcome
    split
    · exact rules.refused _ (.inl rfl)
    · exact outcome
  cases op with
  | addEntry e => exact rules.addEntry (n := 0) holds
  | insertEntry e => exact rules.insertEntry (n := 0) holds
  | putInt id number => exact zero (rules.putField .int id _ holds)
  | putInt64 id number => exact zero (rules.putField .int64 id _ holds)
  | putTime id htime text => exact zero (rules.putField .date1123 id text holds)
  | insertTime id htime text => exact rules.insertTime id htime text holds
  | putStr id str => exact rules.putField .str id str holds
  | putAuth authScheme realm => exact rules.putField .str .wwwAuthenticate _ holds
  | putWarning visibleAppname code text => exact rules.putField .str .warning _ holds
  | putExt name value =>
      exact (rules.create _ name value).bind fun e _ => rules.addEntry (n := 0) holds
  | putCc packed => exact rules.putPacked .cacheControl packed holds
  | putContRange packed => exact rules.putPacked .contentRange packed holds
  | putRange packed => exact rules.putPacked .range packed holds
  | putSc packed => exact rules.putPacked .surrogateControl packed holds
  | delById id => exact (rules.delById (n := 0) id holds).bind fun result kept => kept
  | delByName name => exact (rules.delByName (n := 0) name holds).bind fun result kept => kept
  | append src => exact rules.addAll (n := 0) src.live holds
  | update fresh denied => exact rules.update (n := 0) holds
  | parse relaxed block => exact (rules.parse holds).bind fun result kept => kept
  | clean => exact rules.clean h
  | delAt positions | copy source | assign source | removeConnectionHeaderEntries
  | removeHopByHopEntries | mangleList mangle => exact special trivial

end Steady

end Rules
end HttpHeader
end Squid
