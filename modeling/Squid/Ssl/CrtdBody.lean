import Squid.Ssl.CrtdMessage

/-!
# Bodies of certificate helper messages

The body of a message has a line `parameter=value` for every parameter, and then the other part,
which may have many lines.  `CrtdMessage::parseBody` takes it apart with `strtok`.
-/

namespace Squid
namespace Ssl

open CRuntime List

instance instLinearOrderByte : LinearOrder UInt8 where
  le_refl _ := UInt8.le_refl _
  le_trans _ _ _ := UInt8.le_trans
  le_antisymm _ _ := UInt8.le_antisymm
  le_total _ _ := UInt8.le_total _ _
  lt_iff_le_not_ge _ _ := by
    simp only [UInt8.lt_iff_toNat_lt, UInt8.le_iff_toNat_le]
    omega
  toDecidableLE := inferInstance

/-- `CrtdMessage::BodyParams`. -/
abbrev BodyParams := OrderedMap Bytes Bytes

/-- The delimiters `"\r\n"`. -/
def isEol (b : UInt8) : Bool := b == 13 || b == 10

namespace CrtdMessage

/-- The loop of `CrtdMessage::parseBody`, with `strtok` at `s`. -/
def parseParams (body : Bytes) (map : BodyParams) (s : Bytes) : BodyParams × Bytes :=
  match _found : strtok isEol s with
  | none => (map, [])
  | some (current_string, rest) =>
      if 61 ∈ current_string then
        let param := current_string.takeWhile (· != 61)
        let value := (current_string.dropWhile (· != 61)).tail
        parseParams body (map.insert param value) rest
      else
        let offset_body_part := (cstr body).length - (s.dropWhile isEol).length
        (map, body.drop offset_body_part)
termination_by s.length
decreasing_by exact strtok_shorter _found

/-- `CrtdMessage::parseBody`: the parameters, added to a map, and the other part. -/
def parseBody (msg : CrtdMessage) (map : BodyParams) : BodyParams × Bytes :=
  parseParams msg.body map (cstr msg.body)

/-- The line of a parameter. -/
def paramLine (param : Bytes × Bytes) : Bytes := param.1 ++ 61 :: param.2

/-- `CrtdMessage::composeBody`. -/
def composeBody (msg : CrtdMessage) (map : BodyParams) (other_part : Bytes) : CrtdMessage :=
  { msg with
    body := List.intercalate [10] (map.entries.map paramLine) ++
      if other_part = [] then [] else 10 :: other_part }

/-! ## What was composed -/

/-- The text of parameters: no byte ends the string or the line, and keys have no `=`. -/
structure IsParam (param : Bytes × Bytes) : Prop where
  /-- The line does not end. -/
  plain : ∀ b ∈ param.1 ++ param.2, b ≠ 0 ∧ isEol b = false
  /-- The key has no `=`. -/
  key : 61 ∉ param.1

/-- The other part: empty, or a text with a first line that is not that of a parameter. -/
structure IsOther (other : Bytes) : Prop where
  /-- It does not start with the end of a line. -/
  text : ∀ b ∈ other.head?, isEol b = false
  /-- Its first line has no `=`. -/
  first : 61 ∉ other.takeWhile (!isEol ·)

/-- Lines of parameters, each after the end of another one, and what comes after them. -/
def lines (params : List (Bytes × Bytes)) (tail : Bytes) : Bytes :=
  params.flatMap (fun param => 10 :: paramLine param) ++ tail

variable {b : UInt8}

theorem strtok_of_isEol (eol : isEol b = true) (s : Bytes) :
    strtok isEol (b :: s) = strtok isEol s := by
  simp only [strtok, dropWhile_cons, eol, if_true]

variable {tail : Bytes}

/-- A token up to the end of its line. -/
theorem strtok_line {token : Bytes} (some : token ≠ []) (plain : ∀ b ∈ token, isEol b = false)
    (ends : ∀ b ∈ tail.head?, isEol b = true) :
    strtok isEol (token ++ tail) = .some (token, tail.tail) := by
  have start : (token ++ tail).dropWhile isEol = token ++ tail := by
    obtain ⟨b, rest, rfl⟩ := exists_cons_of_ne_nil some
    rw [cons_append, dropWhile_cons_of_neg]
    rw [plain b List.mem_cons_self]
    exact Bool.false_ne_true
  have all : ∀ b ∈ token, (!isEol b) = true := fun b member => by rw [plain b member]; rfl
  have stop : tail.takeWhile (!isEol ·) = [] ∧ tail.dropWhile (!isEol ·) = tail := by
    cases tail with
    | nil => exact ⟨rfl, rfl⟩
    | cons b rest =>
        have eol := ends b rfl
        simp [eol]
  rw [strtok, start, if_neg (by simp [some]), takeWhile_append_of_pos all,
    dropWhile_append_of_pos all, stop.1, stop.2, List.append_nil]

/-- The end of a line before a token is skipped. -/
theorem parseParams_of_isEol (eol : isEol b = true) (body : Bytes) (map : BodyParams) (s : Bytes) :
    parseParams body map (b :: s) = parseParams body map s := by
  have dropped : (b :: s).dropWhile isEol = s.dropWhile isEol := by
    rw [dropWhile_cons, if_pos eol]
  rw [parseParams, parseParams, strtok_of_isEol eol, dropped]

theorem parseParams_tail (ends : ∀ b ∈ tail.head?, isEol b = true) (body : Bytes)
    (map : BodyParams) : parseParams body map tail.tail = parseParams body map tail := by
  cases tail with
  | nil => rfl
  | cons b rest => exact (parseParams_of_isEol (ends b rfl) body map rest).symm

variable {param : Bytes × Bytes}

theorem paramLine_plain (isParam : IsParam param) :
    ∀ b ∈ paramLine param, b ≠ 0 ∧ isEol b = false := by
  intro b member
  rcases mem_append.mp member with inKey | rest
  · exact isParam.plain b (List.mem_append_left _ inKey)
  · rcases mem_cons.mp rest with rfl | inValue
    · decide
    · exact isParam.plain b (List.mem_append_right _ inValue)

theorem paramLine_split (key : 61 ∉ param.1) :
    (paramLine param).takeWhile (· != 61) = param.1 ∧
      ((paramLine param).dropWhile (· != 61)).tail = param.2 := by
  have all : ∀ b ∈ param.1, (b != 61) = true := fun b member =>
    bne_iff_ne.mpr fun same => key (same ▸ member)
  rw [paramLine, takeWhile_append_of_pos all, dropWhile_append_of_pos all]
  exact ⟨List.append_nil _, rfl⟩

/-- A line of a parameter is added to the map. -/
theorem parseParams_line (isParam : IsParam param) (ends : ∀ b ∈ tail.head?, isEol b = true)
    (body : Bytes) (map : BodyParams) :
    parseParams body map (paramLine param ++ tail) =
      parseParams body (map.insert param.1 param.2) tail := by
  have token := strtok_line (by simp [paramLine])
    (fun b member => (paramLine_plain isParam b member).2) ends
  rw [parseParams]
  split
  · next none => cases token.symm.trans none
  · next found =>
      cases token.symm.trans found
      rw [if_pos (by simp [paramLine]), (paramLine_split isParam.key).1,
        (paramLine_split isParam.key).2, parseParams_tail ends]

theorem lines_ends (ends : ∀ b ∈ tail.head?, isEol b = true) (params : List (Bytes × Bytes)) :
    ∀ b ∈ (lines params tail).head?, isEol b = true := by
  cases params with
  | nil => exact ends
  | cons param params =>
      intro b first
      cases Option.some.inj first
      rfl

variable {map : BodyParams} {params : List (Bytes × Bytes)}

/-- The lines of parameters above those of the map are added to it. -/
theorem parseParams_lines {map' : BodyParams} (all : ∀ param ∈ params, IsParam param)
    (entries : map'.entries = map.entries ++ params) (ends : ∀ b ∈ tail.head?, isEol b = true)
    (body : Bytes) : parseParams body map (lines params tail) = parseParams body map' tail := by
  induction params generalizing map with
  | nil =>
      have same : map' = map := by
        cases map; cases map'; simpa using entries
      rw [same]
      rfl
  | cons param params ih =>
      have sorted := map'.sorted
      rw [entries, pairwise_append] at sorted
      have last : ∀ entry ∈ map.entries, entry.1 < param.1 := fun entry member =>
        sorted.2.2 entry member param List.mem_cons_self
      have inserted := @OrderedMap.insert_last _ _ _ map param.1 param.2 last
      have split : lines (param :: params) tail = 10 :: (paramLine param ++ lines params tail) := by
        simp only [lines, flatMap_cons, cons_append, List.append_assoc]
      rw [split, parseParams_of_isEol rfl,
        parseParams_line (all param List.mem_cons_self) (lines_ends ends params)]
      apply ih fun other member => all other (List.mem_cons_of_mem param member)
      rw [entries, inserted, List.append_assoc, singleton_append]

theorem intercalate_lines (param : Bytes × Bytes) (params : List (Bytes × Bytes)) (tail : Bytes) :
    List.intercalate [10] ((param :: params).map paramLine) ++ tail =
      (lines (param :: params) tail).tail := by
  induction params generalizing param with
  | nil => simp [lines]
  | cons next params ih =>
      have later := ih next
      simp only [List.map_cons, lines, flatMap_cons, cons_append, tail_cons,
        List.append_assoc] at later ⊢
      rw [intercalate_cons_cons, List.append_assoc, List.append_assoc, later]
      rfl

/-- The composed lines are read like lines that each follow the end of another one. -/
theorem parseParams_intercalate (params : List (Bytes × Bytes))
    (ends : ∀ b ∈ tail.head?, isEol b = true) (body : Bytes) (map : BodyParams) :
    parseParams body map (List.intercalate [10] (params.map paramLine) ++ tail) =
      parseParams body map (lines params tail) := by
  cases params with
  | nil => rfl
  | cons param params =>
      rw [intercalate_lines, parseParams_tail (lines_ends ends (param :: params))]

theorem intercalate_plain (all : ∀ param ∈ params, IsParam param) :
    ∀ b ∈ List.intercalate [10] (params.map paramLine), b ≠ 0 := by
  cases params with
  | nil => exact fun b member => absurd member not_mem_nil
  | cons param params =>
      intro b member
      have inside : b ∈ lines (param :: params) [] := by
        apply mem_of_mem_tail
        rw [← intercalate_lines, List.append_nil]
        exact member
      rw [lines, List.append_nil, mem_flatMap] at inside
      obtain ⟨other, isOne, here⟩ := inside
      rcases mem_cons.mp here with rfl | here
      · decide
      · exact (paramLine_plain (all other isOne) b here).1

variable {other : Bytes}

/-- Behind the parameters is the other part, unless it starts with a zero byte. -/
theorem parseParams_other {front : Bytes} (isOther : IsOther other) (some : other ≠ [])
    (text : 0 ∉ other.head?) (plain : ∀ b ∈ front, b ≠ 0) (map : BodyParams) :
    parseParams (front ++ 10 :: other) map (cstr (10 :: other)) = (map, other) := by
  obtain ⟨b, rest, rfl⟩ := exists_cons_of_ne_nil some
  have notNull : b ≠ 0 := fun null => text (null ▸ rfl)
  have notEol : isEol b = false := isOther.text b rfl
  have opened : cstr (b :: rest) = b :: cstr rest := by
    simp [cstr, notNull]
  have behind : cstr (10 :: b :: rest) = 10 :: cstr (b :: rest) := by
    rw [cstr, takeWhile_cons_of_pos (by decide), cstr]
  have start : (cstr (b :: rest)).dropWhile isEol = cstr (b :: rest) := by
    rw [opened, dropWhile_cons_of_neg]
    rw [notEol]
    exact Bool.false_ne_true
  have token : strtok isEol (cstr (b :: rest)) = .some ((cstr (b :: rest)).takeWhile (!isEol ·),
      ((cstr (b :: rest)).dropWhile (!isEol ·)).tail) := by
    rw [strtok, start, if_neg]
    rw [opened]
    exact cons_ne_nil b _
  have noEquals : 61 ∉ (cstr (b :: rest)).takeWhile (!isEol ·) := by
    intro member
    rw [cstr, takeWhile_takeWhile] at member
    simp only [and_comm] at member
    rw [← takeWhile_takeWhile] at member
    exact isOther.first ((List.takeWhile_prefix _).subset member)
  have offset : (cstr (front ++ 10 :: b :: rest)).length - (cstr (b :: rest)).length =
      (front ++ [10]).length := by
    rw [cstr_append_of_plain fun member => plain 0 member rfl, behind, length_append, length_cons,
      length_append, length_singleton]
    omega
  rw [behind, parseParams_of_isEol rfl, parseParams]
  split
  · next none => cases token.symm.trans none
  · next found =>
      cases token.symm.trans found
      rw [if_neg noEquals, start]
      simp only [offset]
      rw [append_cons front 10 (b :: rest), drop_left]

theorem parseBody_composeBody (msg : CrtdMessage) (isMap : ∀ param ∈ map.entries, IsParam param)
    (isOther : IsOther other) (text : 0 ∉ other.head?) :
    (msg.composeBody map other).parseBody .empty = (map, other) := by
  have plain := intercalate_plain isMap
  obtain ⟨tail, isTail⟩ : ∃ tail, tail = if other = [] then [] else 10 :: other := ⟨_, rfl⟩
  have ends : ∀ b ∈ (cstr tail).head?, isEol b = true := by
    by_cases none : other = []
    · rw [isTail, if_pos none]
      exact fun b member => absurd member (by simp [cstr])
    · rw [isTail, if_neg none]
      exact fun b member => by cases Option.some.inj member; rfl
  rw [parseBody, composeBody, ← isTail, cstr_append_of_plain fun member => plain 0 member rfl,
    parseParams_intercalate _ ends, parseParams_lines isMap rfl ends]
  by_cases none : other = []
  · rw [isTail, if_pos none, none, parseParams]
    rfl
  · rw [isTail, if_neg none, parseParams_other isOther none text plain]

/-- A message is read as it was composed, in whatever pieces it comes; and its parameters and its
other part are those it was composed of, when that part does not start with a zero byte. -/
theorem message_survives :
    (∀ (code body : Bytes) (pieces : List Bytes), IsCode code → IsBody body →
      (∀ piece ∈ pieces, piece ≠ []) → pieces.flatten = compose { code := code, body := body } →
        (feed {} pieces).1 = List.replicate (pieces.length - 1) .INCOMPLETE ++ [.OK] ∧
          (feed {} pieces).2.code = code ∧ (feed {} pieces).2.body = body) ∧
    (∀ (msg : CrtdMessage) (map : BodyParams) (other : Bytes),
      (∀ param ∈ map.entries, IsParam param) → IsOther other → 0 ∉ other.head? →
        (msg.composeBody map other).parseBody .empty = (map, other)) :=
  ⟨fun _ _ _ isCode isBody nonempty whole => feed_composed isCode isBody nonempty whole,
    fun msg _ _ isMap isOther text => parseBody_composeBody msg isMap isOther text⟩

/-- The parameter `"host"` with the value `"a=b"`. -/
def hostParam : BodyParams := .insert .empty [104, 111, 115, 116] [97, 61, 98]

/-- The message `"ok 3 a=b"` in two pieces, and the other part `"x"` behind a parameter. -/
theorem message_survives_ok :
    (feed {} [[111, 107, 32], [51, 32, 97, 61, 98]]).1 = [.INCOMPLETE, .OK] ∧
      hostParam.entries = [([104, 111, 115, 116], [97, 61, 98])] ∧
      (CrtdMessage.composeBody {} hostParam [120]).parseBody .empty = (hostParam, [120]) := by
  have isCode : IsCode [111, 107] :=
    ⟨rfl, fun b member => by cases mem_singleton.mp member; rfl⟩
  have isBody : IsBody [97, 61, 98] := ⟨by simp, fun b first => by cases first; rfl⟩
  have isParam : ∀ param ∈ hostParam.entries, IsParam param := by
    intro param member
    cases mem_singleton.mp member
    exact ⟨by decide +kernel, by decide +kernel⟩
  have isOther : IsOther [120] := ⟨fun b first => by cases first; rfl, by decide⟩
  exact ⟨(message_survives.1 [111, 107] [97, 61, 98] _ isCode isBody (by decide) (by decide)).1,
    rfl, message_survives.2 {} hostParam [120] isParam isOther (by decide)⟩

/-- For `strtok` the body `"\n\0x"` ends at its zero byte: the other part `"\0x"` is lost. -/
theorem message_loses_null :
    ¬∀ (msg : CrtdMessage) (map : BodyParams) (other : Bytes),
      (∀ param ∈ map.entries, IsParam param) → IsOther other →
        (msg.composeBody map other).parseBody .empty = (map, other) := by
  intro survives
  have isOther : IsOther [0, 120] := ⟨fun b first => by cases first; rfl, by decide⟩
  have lost : (CrtdMessage.composeBody {} .empty [0, 120]).parseBody .empty =
      (.empty, ([] : Bytes)) := by
    change parseParams _ .empty [10] = _
    rw [parseParams_of_isEol rfl, parseParams]
    rfl
  have kept := survives {} .empty [0, 120] (fun _ member => absurd member not_mem_nil) isOther
  cases lost.symm.trans kept

end CrtdMessage
end Ssl
end Squid
