import Squid.Http.HttpHeader
import Squid.Library.Outcome

/-!
# Loops over the entries of a header

Deleting an entry leaves a gap, so that the positions ahead of a loop stay what they are.  The
length is an `int`: the sizes are taken off modulo 2 ^ 32, and `delAt` stops where the length of
a header with less than 2 ^ 31 bytes was not counted right.
-/

namespace Squid
namespace HttpHeader

open CRuntime

/-! ## Sizes -/

/-- Number of bytes that entries have when packed. -/
def sizes (entries : List HttpHeaderEntry) : ℕ := (entries.map HttpHeaderEntry.size).sum

@[simp] theorem sizes_nil : sizes [] = 0 := rfl

@[simp] theorem sizes_cons (e : HttpHeaderEntry) (entries : List HttpHeaderEntry) :
    sizes (e :: entries) = e.size + sizes entries := by
  simp [sizes]

@[simp] theorem sizes_append (front back : List HttpHeaderEntry) :
    sizes (front ++ back) = sizes front + sizes back := by
  simp [sizes]

theorem length_packInto (h : HttpHeader) : h.packInto.length = sizes h.live := by
  unfold packInto
  induction h.live with
  | nil => rfl
  | cons e entries ih =>
      rw [List.flatMap_cons, List.length_append, ih, sizes_cons]
      simp only [HttpHeaderEntry.packInto, HttpHeaderEntry.size, List.length_append,
        List.length_cons, List.length_nil]

/-- A length that an `int` can hold is large enough for the entries. -/
def Covers (len : ℤ) (entries : List HttpHeaderEntry) : Prop := sizes entries ≤ len ∧ len < 2 ^ 31

variable {e : HttpHeaderEntry}

variable {entries : List HttpHeaderEntry} {len : ℤ}

theorem Covers.tail (covers : Covers len (e :: entries)) : Covers len entries := by
  obtain ⟨enough, small⟩ := covers
  rw [sizes_cons] at enough
  exact ⟨by omega, small⟩

theorem Covers.delete (covers : Covers len (e :: entries)) :
    0 ≤ int32 (len - e.size) ∧ Covers (int32 (len - e.size)) entries := by
  obtain ⟨enough, small⟩ := covers
  rw [sizes_cons] at enough
  rw [int32_eq (by omega) (by omega)]
  exact ⟨by omega, by omega, by omega⟩

theorem int32_add (x y : ℤ) : int32 (int32 x + y) = int32 (x + y) := by
  unfold int32
  omega

theorem int32_sub (x y : ℤ) : int32 (int32 x - y) = int32 (x - y) := by
  unfold int32
  omega

/-! ## Deleting entries -/

/-- What is left of the entries when some are deleted. -/
def without (del : HttpHeaderEntry → Bool) (entries : List (Option HttpHeaderEntry)) :
    List (Option HttpHeaderEntry) :=
  entries.map (Option.filter fun e => !del e)

theorem reduceOption_without (del : HttpHeaderEntry → Bool)
    (entries : List (Option HttpHeaderEntry)) :
    (without del entries).reduceOption = entries.reduceOption.filter fun e => !del e := by
  induction entries with
  | nil => rfl
  | cons entry entries ih =>
      cases entry with
      | none => simpa [without] using ih
      | some e =>
          cases deleted : del e with
          | true | false => simpa [without, Option.filter_some, deleted] using ih

/-- `delAt` replaces an entry by a gap and takes its size off the length. -/
theorem delAt_spec (h : HttpHeader) {front back : List (Option HttpHeaderEntry)}
    (split : h.entries = front ++ some e :: back) :
    h.delAt front.length =
      if int32 (h.len - e.size) < 0 then .error .negativeLen
      else .ok { h with entries := front ++ none :: back, len := int32 (h.len - e.size) } := by
  simp [delAt, split]

/-- The bits after a loop that met the entries. -/
def bitsAfter (del : HttpHeaderEntry → Bool)
    (gone kept : (HdrType → Bool) → HdrType → HdrType → Bool)
    (entries : List HttpHeaderEntry) (mask : HdrType → Bool) : HdrType → Bool :=
  entries.foldl (fun mask e => if del e then gone mask e.id else kept mask e.id) mask

/-- What a deleting loop leaves behind. -/
structure Deleted (del : HttpHeaderEntry → Bool)
    (gone kept : (HdrType → Bool) → HdrType → HdrType → Bool)
    (front back : List (Option HttpHeaderEntry)) (h : HttpHeader) (count : ℕ)
    (result : HttpHeader × ℕ) : Prop where
  entries : result.1.entries = front ++ without del back
  mask : result.1.mask = bitsAfter del gone kept back.reduceOption h.mask
  owner : result.1.owner = h.owner
  count : result.2 = count + back.reduceOption.countP del
  len : ∀ total : ℤ, h.len = int32 total →
    result.1.len = int32 (total - sizes (back.reduceOption.filter del))

/--
By induction on the entries that are left.  The length covers them unless it was wrong before, so
`delAt` does not stop.
-/
theorem delLoop_outcome (del : HttpHeaderEntry → Bool)
    (gone kept : (HdrType → Bool) → HdrType → HdrType → Bool)
    (front back : List (Option HttpHeaderEntry)) (h : HttpHeader) (count : ℕ)
    (split : h.entries = front ++ back) :
    Outcome (Deleted del gone kept front back h count)
      (fun a => a = .negativeLen ∧ ¬ Covers h.len back.reduceOption)
      (delLoop del gone kept back front.length h count) := by
  induction back generalizing front h count with
  | nil => exact ⟨by simpa [without] using split, rfl, rfl, rfl,
    fun total same => by simpa using same⟩
  | cons entry back ih =>
      have next : ∀ entry : Option HttpHeaderEntry, front.length + 1 = (front ++ [entry]).length := by
        simp
      cases entry with
      | none =>
          rw [delLoop, next none]
          refine (ih (front ++ [none]) h count (by simpa using split)).mono ?_
          rintro result ⟨entries, mask, owner, number, len⟩
          exact ⟨by simpa [without] using entries, by simpa using mask, owner,
            by simpa using number,
            by simpa using len⟩
      | some e =>
          rw [delLoop, List.reduceOption_cons_of_some]
          cases deleted : del e with
          | true =>
              rw [if_pos rfl, delAt_spec h split]
              split
              · rename_i negative
                exact Outcome.error ⟨rfl, fun covers => absurd covers.delete.1 (by omega)⟩
              · let after : HttpHeader :=
                  { h with
                    entries := front ++ none :: back
                    mask := gone h.mask e.id
                    len := int32 (h.len - e.size) }
                show Outcome _ _ (delLoop del gone kept back (front.length + 1) after (count + 1))
                rw [next none]
                refine (ih (front ++ [none]) after (count + 1) (by simp [after])).imp ?_ ?_
                · rintro result ⟨entries, mask, owner, number, len⟩
                  refine ⟨by simpa [without, Option.filter_some, deleted] using entries,
                    by simpa [bitsAfter, deleted, after] using mask, owner,
                    by simp [number, deleted]; omega, fun total same => ?_⟩
                  rw [len (total - e.size) (by simp only [after, same, int32_sub])]
                  simp only [List.reduceOption_cons_of_some, List.filter_cons, deleted, if_true,
                    sizes_cons]
                  push_cast
                  rw [sub_sub]
                · rintro a ⟨rfl, short⟩
                  exact ⟨rfl, fun covers => short covers.delete.2⟩
          | false =>
              let after : HttpHeader := { h with mask := kept h.mask e.id }
              show Outcome _ _ (delLoop del gone kept back (front.length + 1) after count)
              rw [next (some e)]
              refine (ih (front ++ [some e]) after count (by simpa [after] using split)).imp ?_ ?_
              · rintro result ⟨entries, mask, owner, number, len⟩
                refine ⟨by simpa [without, Option.filter_some, deleted] using entries,
                  by simpa [bitsAfter, deleted, after] using mask, owner,
                  by simp [number, deleted], fun total same => ?_⟩
                rw [len total same]
                simp [deleted]
              · rintro a ⟨rfl, short⟩
                exact ⟨rfl, fun covers => short covers.tail⟩

/-! ## Mangling entries -/

/-- What the anonymizer leaves of an entry. -/
def Mangling.apply (e : HttpHeaderEntry) : Mangling → Option HttpHeaderEntry
  | .allow => some e
  | .deny => none
  | .replace replacement => some { e with value := cstr replacement }

/-- What the anonymizer leaves of the entries from a position on. -/
def mangled (mangle : ℕ → HttpHeaderEntry → Mangling) :
    ℕ → List (Option HttpHeaderEntry) → List (Option HttpHeaderEntry)
  | _, [] => []
  | pos, none :: rest => none :: mangled mangle (pos + 1) rest
  | pos, some e :: rest => (mangle pos e).apply e :: mangled mangle (pos + 1) rest

/-- The entries from a position on that the anonymizer denies. -/
def denied (mangle : ℕ → HttpHeaderEntry → Mangling) :
    ℕ → List (Option HttpHeaderEntry) → List HttpHeaderEntry
  | _, [] => []
  | pos, none :: rest => denied mangle (pos + 1) rest
  | pos, some e :: rest =>
      if (mangle pos e).apply e = none then e :: denied mangle (pos + 1) rest
      else denied mangle (pos + 1) rest

/-- What a mangling loop leaves behind. -/
structure Mangled (mangle : ℕ → HttpHeaderEntry → Mangling)
    (front back : List (Option HttpHeaderEntry)) (h : HttpHeader) (count : ℕ)
    (result : HttpHeader × ℕ) : Prop where
  entries : result.1.entries = front ++ mangled mangle front.length back
  mask : result.1.mask = h.mask
  owner : result.1.owner = h.owner
  count : result.2 = count + (denied mangle front.length back).length
  len : ∀ total : ℤ, h.len = int32 total →
    result.1.len = int32 (total - sizes (denied mangle front.length back))

theorem mangleLoop_outcome (mangle : ℕ → HttpHeaderEntry → Mangling)
    (front back : List (Option HttpHeaderEntry)) (h : HttpHeader) (count : ℕ)
    (split : h.entries = front ++ back) :
    Outcome (Mangled mangle front back h count)
      (fun a => a = .stringSize ∨ a = .negativeLen ∧ ¬ Covers h.len back.reduceOption)
      (mangleLoop mangle back front.length h count) := by
  induction back generalizing front h count with
  | nil => exact ⟨by simpa [mangled] using split, rfl, rfl, rfl,
    fun total same => by simpa [denied] using same⟩
  | cons entry back ih =>
      have next : ∀ entry : Option HttpHeaderEntry, front.length + 1 = (front ++ [entry]).length := by
        simp
      cases entry with
      | none =>
          rw [mangleLoop, next none]
          refine (ih (front ++ [none]) h count (by simpa using split)).mono ?_
          rintro result ⟨entries, mask, owner, number, len⟩
          exact ⟨by simpa [mangled] using entries, mask, owner, by simpa [denied] using number,
            by simpa [denied] using len⟩
      | some e =>
          rw [mangleLoop, List.reduceOption_cons_of_some]
          cases decision : mangle front.length e with
          | allow =>
              dsimp only
              rw [next (some e)]
              refine (ih (front ++ [some e]) h count (by simpa using split)).imp ?_ ?_
              · rintro result ⟨entries, mask, owner, number, len⟩
                exact ⟨by simpa [mangled, decision, Mangling.apply] using entries, mask, owner,
                  by simpa [denied, decision, Mangling.apply] using number,
                  by simpa [denied, decision, Mangling.apply] using len⟩
              · rintro a (long | ⟨negative, short⟩)
                · exact .inl long
                · exact .inr ⟨negative, fun covers => short covers.tail⟩
          | deny =>
              dsimp only
              rw [delAt_spec h split]
              split
              · rename_i negative
                exact Outcome.error (.inr ⟨rfl, fun covers => absurd covers.delete.1 (by omega)⟩)
              · let after : HttpHeader :=
                  { h with entries := front ++ none :: back, len := int32 (h.len - e.size) }
                show Outcome _ _ (mangleLoop mangle back (front.length + 1) after (count + 1))
                rw [next none]
                refine (ih (front ++ [none]) after (count + 1) (by simp [after])).imp ?_ ?_
                · rintro result ⟨entries, mask, owner, number, len⟩
                  refine ⟨by simpa [mangled, decision, Mangling.apply] using entries, mask, owner,
                    by simp [number, denied, decision, Mangling.apply]; omega, fun total same => ?_⟩
                  rw [len (total - e.size) (by simp only [after, same, int32_sub])]
                  simp only [denied, decision, Mangling.apply, if_true, sizes_cons,
                    List.length_append, List.length_singleton]
                  push_cast
                  rw [sub_sub]
                · rintro a (long | ⟨negative, short⟩)
                  · exact .inl long
                  · exact .inr ⟨negative, fun covers => short covers.delete.2⟩
          | replace replacement =>
              dsimp only
              split
              · exact Outcome.error (.inl rfl)
              · let other : HttpHeaderEntry := { e with value := cstr replacement }
                let after : HttpHeader :=
                  { h with entries := h.entries.set front.length (some other) }
                show Outcome _ _ (mangleLoop mangle back (front.length + 1) after count)
                rw [next (some other)]
                refine (ih (front ++ [some other]) after count
                  (by simp [after, split])).imp ?_ ?_
                · rintro result ⟨entries, mask, owner, number, len⟩
                  exact ⟨by simpa [mangled, decision, Mangling.apply, other] using entries, mask,
                    owner,
                    by simpa [denied, decision, Mangling.apply] using number,
                    by simpa [denied, decision, Mangling.apply] using len⟩
                · rintro a (long | ⟨negative, short⟩)
                  · exact .inl long
                  · exact .inr ⟨negative, fun covers => short covers.tail⟩

end HttpHeader
end Squid
