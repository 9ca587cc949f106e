import Squid.Http.ChunkedCodingParser

/-!
# A byte-by-byte chunked decoder

What the chunked coding of a message means, one byte at a time and without buffers: a size of
hexadecimal digits, a line of extensions that is skipped, the body, an empty line; after a zero
size the lines of the trailer up to an empty one.  Inside a quoted string a line feed does not end
a line.  A state does not depend on how the bytes before it arrived.
-/

namespace Squid
namespace Chunked

open CRuntime

/-- Where a line is with respect to quoted strings. -/
structure Quote where
  quoted : Bool := false
  slashed : Bool := false
  deriving DecidableEq

/-- One byte of a line; `none` at its end. -/
def Quote.feed (quote : Quote) (b : UInt8) : Option Quote :=
  if quote.slashed then
    some { quote with slashed := false }
  else if quote.quoted then
    if b = 92 then
      some { quoted := true, slashed := true }
    else if b = 34 then
      some {}
    else
      some { quoted := true }
  else if b = 34 then
    some { quoted := true }
  else if b = 10 then
    none
  else
    some {}

/-- Size of a chunk, as far as an `int64_t` can hold it. -/
def chunkSize (digits : Bytes) : ℕ := min (2 ^ 63 - 1) (magnitude 16 digits)

/-- State of the decoder. -/
inductive Decoder
  /-- In a chunk size. -/
  | size (digits : Bytes)
  /-- In the extensions of a chunk with a body. -/
  | extension (left : ℕ) (quote : Quote)
  /-- In the extensions of the last chunk. -/
  | lastExtension (quote : Quote)
  /-- In a body. -/
  | body (left : ℕ)
  /-- After a body; `blank` while the line has CR bytes only. -/
  | chunkEnd (quote : Quote) (blank : Bool)
  /-- In the trailer. -/
  | trailer (quote : Quote) (blank : Bool)
  /-- After the message. -/
  | done (suffix : Bytes)
  /-- After an error. -/
  | failed

/-- The line is still blank after another byte. -/
def staysBlank (quote : Quote) (blank : Bool) (b : UInt8) : Bool :=
  blank && !quote.quoted && !quote.slashed && b == 13

/-- One byte of the message, and the content it gives. -/
def Decoder.feed : Decoder → UInt8 → Decoder × Bytes
  | size digits, b =>
      if isDigit 16 b then
        (size (digits ++ [b]), [])
      else if digits = [] then
        (failed, [])
      else if chunkSize digits = 0 then
        match ({} : Quote).feed b with
        | none => (trailer {} true, [])
        | some quote => (lastExtension quote, [])
      else
        match ({} : Quote).feed b with
        | none => (body (chunkSize digits), [])
        | some quote => (extension (chunkSize digits) quote, [])
  | extension left quote, b =>
      match quote.feed b with
      | none => (body left, [])
      | some quote => (extension left quote, [])
  | lastExtension quote, b =>
      match quote.feed b with
      | none => (trailer {} true, [])
      | some quote => (lastExtension quote, [])
  | body left, b => (if left ≤ 1 then chunkEnd {} true else body (left - 1), [b])
  | chunkEnd quote blank, b =>
      match quote.feed b with
      | none => (if blank then size [] else failed, [])
      | some after => (chunkEnd after (staysBlank quote blank b), [])
  | trailer quote blank, b =>
      match quote.feed b with
      | none => (if blank then done [] else trailer {} true, [])
      | some after => (trailer after (staysBlank quote blank b), [])
  | done suffix, b => (done (suffix ++ [b]), [])
  | failed, _ => (failed, [])

/-- Content given before a result. -/
def before (content : Bytes) (result : Decoder × Bytes) : Decoder × Bytes :=
  (result.1, content ++ result.2)

/-- The bytes of the message one after the other. -/
def decode : Decoder → Bytes → Decoder × Bytes
  | decoder, [] => (decoder, [])
  | decoder, b :: bytes => before (decoder.feed b).2 (decode (decoder.feed b).1 bytes)

@[simp]
theorem decode_nil (decoder : Decoder) : decode decoder [] = (decoder, []) := rfl

@[simp]
theorem before_nil (result : Decoder × Bytes) : before [] result = result := rfl

theorem decode_cons (decoder : Decoder) (b : UInt8) (bytes : Bytes) :
    decode decoder (b :: bytes) =
      before (decoder.feed b).2 (decode (decoder.feed b).1 bytes) := rfl

theorem decode_append (decoder : Decoder) (front back : Bytes) :
    decode decoder (front ++ back) =
      before (decode decoder front).2 (decode (decode decoder front).1 back) := by
  induction front generalizing decoder with
  | nil => simp
  | cons b front ih => simp [decode_cons, ih, before]

/-- Wherever a chunk size starts, `holds` is true of the bytes from there on. -/
def AtSizes (holds : Bytes → Prop) : Decoder → Bytes → Prop
  | _, [] => True
  | decoder, b :: bytes =>
      (decoder = .size [] → holds (b :: bytes)) ∧ AtSizes holds (decoder.feed b).1 bytes

variable {holds : Bytes → Prop}

theorem atSizes_append (decoder : Decoder) (front back : Bytes) :
    AtSizes holds decoder (front ++ back) ↔
      AtSizes (fun bytes => holds (bytes ++ back)) decoder front ∧
        AtSizes holds (decode decoder front).1 back := by
  induction front generalizing decoder with
  | nil => simp [AtSizes]
  | cons b front ih =>
      simp only [List.cons_append, AtSizes, ih, decode_cons, before]
      tauto

variable {decoder : Decoder}

theorem atSizes_iff {bytes : Bytes} :
    AtSizes holds decoder bytes ↔ ∀ front b back, bytes = front ++ b :: back →
      (decode decoder front).1 = .size [] → holds (b :: back) := by
  induction bytes generalizing decoder with
  | nil => simp [AtSizes]
  | cons c bytes ih =>
      rw [AtSizes, ih]
      constructor
      · rintro ⟨first, later⟩ front b back split starts
        cases front with
        | nil =>
            rw [List.nil_append] at split
            exact split ▸ first starts
        | cons d front =>
            obtain ⟨rfl, rest⟩ := List.cons.inj split
            exact later front b back rest starts
      · intro all
        refine ⟨fun starts => all [] c bytes rfl starts, ?_⟩
        rintro front b back rfl starts
        exact all (c :: front) b back rfl starts

theorem length_decode_le (decoder : Decoder) (bytes : Bytes) :
    (decode decoder bytes).2.length ≤ bytes.length := by
  induction bytes generalizing decoder with
  | nil => simp
  | cons b bytes ih =>
      have rest := ih (decoder.feed b).1
      have one : (decoder.feed b).2.length ≤ 1 := by
        unfold Decoder.feed
        repeat' split
        all_goals simp
      simp only [decode_cons, before, List.length_append, List.length_cons]
      omega

/-! ## Outcomes -/

/-- What a reader of the message sees in the end. -/
inductive Outcome
  | thrown
  | unfinished (output : Bytes)
  | complete (output suffix : Bytes)
  deriving DecidableEq

/-- Outcome after `emitted` has been given and the decoder has seen the rest. -/
def conclude (emitted : Bytes) : Decoder × Bytes → Outcome
  | (.failed, _) => .thrown
  | (.done suffix, output) => .complete (emitted ++ output) suffix
  | (_, output) => .unfinished (emitted ++ output)

@[simp]
theorem conclude_before (emitted content : Bytes) (result : Decoder × Bytes) :
    conclude emitted (before content result) = conclude (emitted ++ content) result := by
  obtain ⟨decoder, output⟩ := result
  cases decoder <;> simp [before, conclude]

theorem conclude_eq_thrown {emitted : Bytes} {result : Decoder × Bytes} :
    conclude emitted result = .thrown ↔ result.1 = .failed := by
  obtain ⟨decoder, output⟩ := result
  cases decoder <;> simp [conclude]

/-- The decoder has met neither the end of the message nor an error. -/
def Decoder.Undecided : Decoder → Prop
  | .done _ | .failed => False
  | _ => True

theorem conclude_undecided (undecided : decoder.Undecided) (emitted output : Bytes) :
    conclude emitted (decoder, output) = .unfinished (emitted ++ output) := by
  cases decoder <;> first | exact undecided.elim | rfl

/-! ## States that stay -/

@[simp]
theorem decode_done (suffix bytes : Bytes) :
    decode (.done suffix) bytes = (.done (suffix ++ bytes), []) := by
  induction bytes generalizing suffix with
  | nil => simp
  | cons b bytes ih => simp [decode_cons, Decoder.feed, ih]

@[simp]
theorem decode_failed (bytes : Bytes) : decode .failed bytes = (.failed, []) := by
  induction bytes with
  | nil => rfl
  | cons b bytes ih => simp [decode_cons, Decoder.feed, ih]

theorem decode_size_digits {digits : Bytes} (all : ∀ b ∈ digits, isDigit 16 b = true)
    (front : Bytes) : decode (.size front) digits = (.size (front ++ digits), []) := by
  induction digits generalizing front with
  | nil => simp
  | cons b digits ih =>
      have digit := all b (by simp)
      rw [decode_cons, Decoder.feed, if_pos digit, ih fun c member => all c (by simp [member])]
      simp

variable {content : Bytes}

/-- A body takes its bytes as they are. -/
theorem decode_body {left : ℕ} (short : content.length < left) :
    decode (.body left) content = (.body (left - content.length), content) := by
  induction content generalizing left with
  | nil => simp
  | cons b content ih =>
      simp only [List.length_cons] at short
      rw [decode_cons, Decoder.feed, if_neg (by omega), ih (by omega)]
      simp only [before, List.length_cons, List.singleton_append, Prod.mk.injEq, and_true,
        Decoder.body.injEq]
      omega

theorem decode_body_all (ne : content ≠ []) :
    decode (.body content.length) content = (.chunkEnd {} true, content) := by
  induction content with
  | nil => exact absurd rfl ne
  | cons b content ih =>
      rw [decode_cons, Decoder.feed]
      by_cases last : content = []
      · simp [last, before]
      · have positive := List.length_pos_iff.mpr last
        rw [if_neg (by simp only [List.length_cons]; omega), List.length_cons,
          Nat.add_sub_cancel, ih last]
        rfl

/-! ## Lines -/

/-- A state that waits for the end of a line. -/
def IsLine (stay : Quote → Bool → Decoder) (eol : Bool → Decoder) : Prop :=
  ∀ quote blank b, (stay quote blank).feed b =
    match quote.feed b with
    | none => (eol blank, [])
    | some after => (stay after (staysBlank quote blank b), [])

theorem isLine_extension (left : ℕ) :
    IsLine (fun quote _ => .extension left quote) fun _ => .body left := fun _ _ _ => rfl

theorem isLine_lastExtension :
    IsLine (fun quote _ => .lastExtension quote) fun _ => .trailer {} true := fun _ _ _ => rfl

theorem isLine_chunkEnd :
    IsLine .chunkEnd fun blank => if blank then .size [] else .failed := fun _ _ _ => rfl

theorem isLine_trailer :
    IsLine .trailer fun blank => if blank then .done [] else .trailer {} true := fun _ _ _ => rfl

end Chunked
end Squid
