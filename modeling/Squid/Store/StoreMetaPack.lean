import Squid.Store.StoreMetaBounds
import Mathlib.Data.List.GetD

/-!
# Packing swap meta data

`storeSwapMetaBuild` collects the fields that describe an entry about to be swapped out, and
`storeSwapMetaPack` writes them behind a mark and the length of it all.  What is written is what
`StoreMetaUnpacker` reads back, whatever follows it in the file.
-/

namespace Squid
namespace StoreMeta

open CRuntime List

/-! ## Numbers -/

/-- The bytes of a number, the lowest first. -/
def littleBytes : ℕ → ℕ → Bytes
  | 0, _ => []
  | width + 1, number => UInt8.ofNat number :: littleBytes width (number / 256)

@[simp] theorem length_littleBytes (width number : ℕ) :
    (littleBytes width number).length = width := by
  induction width generalizing number with
  | zero => rfl
  | succ width ih => rw [littleBytes, length_cons, ih]

theorem little_littleBytes (width number : ℕ) :
    little (littleBytes width number) = number % 256 ^ width := by
  induction width generalizing number with
  | zero => simp [little, littleBytes, Nat.mod_one]
  | succ width ih =>
      have later : little (littleBytes width (number / 256)) = number / 256 % 256 ^ width := ih _
      rw [little] at later
      have split : 256 ^ (width + 1) = 256 * 256 ^ width := by rw [Nat.pow_succ, Nat.mul_comm]
      rw [littleBytes, little, foldr_cons, later, UInt8.toNat_ofNat', split, Nat.mod_mul]

/-! ## Building -/

/-- The value of `STORE_META_*` of a class. -/
def Kind.type : Kind → ℤ
  | .md5 => metaKeyMd5
  | .url => metaUrl
  | .std => metaStd
  | .stdLfs => metaStdLfs
  | .objSize => metaObjSize
  | .vary => metaVaryHeaders

theorem accepts_type {kind : Kind} {length : ℤ} (valid : kind.validLength length = true) :
    accepts kind.type length = some kind := by
  have chosen : validType kind.type = true ∧ kindOf kind.type = some kind := by
    cases kind <;> decide
  rw [accepts, if_pos chosen.1, chosen.2, Option.filter_some, if_pos valid]

/-- `StoreMeta::Factory`, with a value of its own. -/
def newField (type : ℤ) (value : Bytes) : Option Field :=
  match accepted : accepts type value.length with
  | none => none
  | some kind => some ⟨kind, value, accepts_valid accepted⟩

/-- The part of a `StoreEntry` and its `MemObject` that `storeSwapMetaBuild` reads. -/
structure SwappedEntry where
  key : Bytes
  /-- A key is an MD5 digest. -/
  key_length : (key.length : ℤ) = md5DigestLength
  /-- The fields from `timestamp` on. -/
  data : EntryData
  url : Bytes
  /-- `mem_obj->vary_headers`, unless it is null. -/
  vary_headers : Option Bytes
  /-- `mem_obj->expectedReplySize()`. -/
  expectedReplySize : ℤ

/-- The memory of a `StoreEntry` from `timestamp` on. -/
def EntryData.bytes (data : EntryData) : Bytes :=
  littleBytes 8 (data.timestamp % 2 ^ 64).toNat ++ littleBytes 8 (data.lastref % 2 ^ 64).toNat ++
    littleBytes 8 (data.expires % 2 ^ 64).toNat ++ littleBytes 8 (data.lastmod % 2 ^ 64).toNat ++
    littleBytes 8 data.swapFileSz ++ littleBytes 2 data.refcount ++ littleBytes 2 data.flags

/-- The bytes of a C string with the zero byte at its end. -/
def terminated (s : Bytes) : Bytes := cstr s ++ [0]

/-- `storeSwapMetaBuild`; each `StoreMeta::Add` puts a field at the end of the list. -/
def storeSwapMetaBuild (e : SwappedEntry) : Option (List Field) := do
  let t ← newField metaKeyMd5 e.key
  let list := [t]
  let t ← newField metaStdLfs e.data.bytes
  let list := list ++ [t]
  let t ← newField metaUrl (terminated e.url)
  let (list, t) ←
    if 0 ≤ e.expectedReplySize then do
      let list := list ++ [t]
      let t ← newField metaObjSize (littleBytes 8 e.expectedReplySize.toNat)
      pure (list, t)
    else pure (list, t)
  let list := list ++ [t]
  match e.vary_headers with
  | none => return list
  | some vary => do
      let t ← newField metaVaryHeaders (terminated vary)
      return list ++ [t]

/-! ## Packing -/

/-- A field as it is written: the type, the length and the value. -/
def Field.bytes (x : Field) : Bytes :=
  UInt8.ofNat x.kind.type.toNat :: (littleBytes 4 x.value.length ++ x.value)

/-- `buflen` of `storeSwapMetaPack`. -/
def packedLength (list : List Field) : ℕ :=
  list.foldl (fun buflen t => buflen + (1 + 4 + t.value.length)) (1 + 4)

def storeSwapMetaPack (list : List Field) : Bytes :=
  metaOk :: (littleBytes 4 (packedLength list) ++ (list.map Field.bytes).flatten)

@[simp] theorem Field.length_bytes (x : Field) : x.bytes.length = 5 + x.value.length := by
  simp [Field.bytes]
  omega

theorem foldl_packedLength (list : List Field) (start : ℕ) :
    list.foldl (fun buflen t => buflen + (1 + 4 + t.value.length)) start =
      start + (list.map Field.bytes).flatten.length := by
  induction list generalizing start with
  | nil => simp
  | cons x list ih =>
      rw [foldl_cons, ih, List.map_cons, flatten_cons, length_append, Field.length_bytes]
      omega

theorem packedLength_eq (list : List Field) :
    packedLength list = 5 + (list.map Field.bytes).flatten.length := foldl_packedLength list 5

theorem length_storeSwapMetaPack (list : List Field) :
    (storeSwapMetaPack list).length = packedLength list := by
  simp [storeSwapMetaPack, packedLength_eq]
  omega

/-- A buffer that holds a file. -/
def fileBuffer (file : Bytes) : Memory := fun position => file.getD position.toNat 0

/-! ## Reading back -/

theorem load_eq_map (buf : Memory) (first : ℤ) (count : ℕ) :
    load buf first count = (List.range count).map fun k : ℕ => buf (first + k) := by
  simp [load, map_eq_flatMap, flatMap_assoc]

theorem load_eq {buf : Memory} {front value back : Bytes} {first : ℤ}
    (holds : ∀ i : ℕ, buf i = (front ++ value ++ back).getD i 0)
    (start : first = front.length) : load buf first value.length = value := by
  refine ext_getElem (by simp) fun i _ inside => ?_
  have at_i : buf (first + i) = value[i] := by
    have place := holds (front.length + i)
    rw [List.append_assoc, getD_append_right _ _ _ _ (by omega), Nat.add_sub_cancel_left,
      getD_append _ _ _ _ inside, getD_eq_getElem _ _ inside] at place
    rw [start, ← place]
    push_cast
    rfl
  rw [← at_i]
  simp [load_eq_map]

variable {buf : Memory} {position : ℤ}

theorem result_factory {type length : ℤ} {x : Field} (accepted : accepts type length = some x.kind)
    (value : load buf position length.toNat = x.value) :
    (factory type length buf position).result = some x := by
  unfold factory
  split
  next rejected =>
    rw [accepted] at rejected
    cases rejected
  next kind chosen =>
    rw [accepted] at chosen
    cases chosen
    simp only [Traced.result_bind, Traced.result_pure, value]

theorem doOneEntry_of_le {hdrLen : ℤ} (within : fieldEnd buf position ≤ hdrLen) :
    (doOneEntry buf hdrLen position).result =
      some ((factory (charAt buf position) (fieldLength buf position) buf
        (fieldStart position)).result, fieldEnd buf position) := by
  simp [doOneEntry, not_lt.2 within]

section Reading

variable {buf : Memory} {front back : Bytes} {x : Field}

/-- The field at a position is the one that was written there. -/
theorem doOneEntry_of_bytes {hdrLen : ℤ} (holds : ∀ i : ℕ,
    buf i = (front ++ x.bytes ++ back).getD i 0)
    (within : front.length + x.bytes.length ≤ hdrLen) (short : hdrLen < 2 ^ 31) :
    (doOneEntry buf hdrLen front.length).result =
      some (some x, ((front ++ x.bytes).length : ℤ)) := by
  have size := Kind.validLength_bounds x.valid
  rw [Field.length_bytes] at within
  push_cast at within
  have next : int32 ((front.length : ℤ) + 1) = front.length + 1 := int32_eq (by omega) (by omega)
  have start : fieldStart front.length = front.length + 5 := by
    rw [fieldStart, next, int32_eq (by omega) (by omega)]
    omega
  have length : fieldLength buf front.length = x.value.length := by
    have four : load buf (front.length + 1) (littleBytes 4 x.value.length).length =
        littleBytes 4 x.value.length := by
      refine @load_eq buf (front ++ [UInt8.ofNat x.kind.type.toNat]) _ (x.value ++ back) _ ?_ (by simp)
      intro i
      rw [holds, Field.bytes]
      simp
    rw [length_littleBytes] at four
    rw [fieldLength, intAt, next, four, little_littleBytes, Nat.mod_eq_of_lt (by omega)]
    exact int32_eq (by omega) (by omega)
  have ends : fieldEnd buf front.length = front.length + 5 + x.value.length := by
    rw [fieldEnd, start, length, int32_eq (by omega) (by omega)]
  have type : charAt buf front.length = x.kind.type := by
    have first : buf front.length = UInt8.ofNat x.kind.type.toNat := by
      rw [holds, List.append_assoc, getD_append_right _ _ _ _ le_rfl, Nat.sub_self, Field.bytes,
        cons_append, getD_cons_zero]
    rw [charAt, first]
    cases x.kind <;> decide
  have value : load buf (front.length + 5) x.value.length = x.value := by
    refine @load_eq buf (front ++ UInt8.ofNat x.kind.type.toNat :: littleBytes 4 x.value.length) _
      back _ ?_ (by simp)
    intro i
    rw [holds, Field.bytes]
    simp
  have made : (factory x.kind.type x.value.length buf (front.length + 5)).result = some x :=
    result_factory (accepts_type x.valid) (by simpa using value)
  have stays : fieldEnd buf front.length ≤ hdrLen := by
    rw [ends]
    omega
  have behind : fieldEnd buf front.length = ((front ++ x.bytes).length : ℤ) := by
    rw [ends, length_append, Field.length_bytes]
    push_cast
    omega
  rw [doOneEntry_of_le stays, type, length, start, made, behind]

end Reading

theorem result_unpack_succ {hdrLen : ℤ} {turns : ℕ} (goes : moreToProcess hdrLen position = true) :
    (unpack buf hdrLen (turns + 1) position).result =
      (unpackTurn (doOneEntry buf hdrLen position).result (unpack buf hdrLen turns)).result := by
  simp [unpack, goes]

theorem result_unpackTurn {newNode : Option Field} {next : ℤ}
    {others : ℤ → Traced Access (Option (List Field))} :
    (unpackTurn (some (newNode, next)) others).result =
      (others next).result.map (newNode.toList ++ ·) := rfl

/-- The loop reads the fields that were written, and then stops. -/
theorem unpack_of_bytes {buf : Memory} {front back : Bytes} {list : List Field} {turns : ℕ}
    {hdrLen : ℤ}
    (holds : ∀ i : ℕ, buf i = (front ++ (list.map Field.bytes).flatten ++ back).getD i 0)
    (enough : list.length < turns) (long : 5 ≤ hdrLen) (short : hdrLen < 2 ^ 31)
    (total : hdrLen = front.length + (list.map Field.bytes).flatten.length) :
    (unpack buf hdrLen turns front.length).result = some list := by
  induction list generalizing front turns with
  | nil =>
      obtain ⟨turns, rfl⟩ := Nat.exists_eq_succ_of_ne_zero (Nat.ne_zero_of_lt enough)
      have same : hdrLen = front.length := by simpa using total
      have stops : ¬ moreToProcess hdrLen front.length = true := by
        rw [moreToProcess_iff long short (by omega) (by omega)]
        omega
      rw [unpack, if_neg stops]
      rfl
  | cons x list ih =>
      obtain ⟨turns, rfl⟩ := Nat.exists_eq_succ_of_ne_zero (Nat.ne_zero_of_lt enough)
      rw [List.map_cons, flatten_cons] at holds total
      rw [length_append] at total
      push_cast at total
      have size := x.length_bytes
      have entry : (doOneEntry buf hdrLen front.length).result =
          some (some x, ((front ++ x.bytes).length : ℤ)) := by
        refine @doOneEntry_of_bytes buf front ((list.map Field.bytes).flatten ++ back) x hdrLen ?_
          (by omega) short
        intro i
        rw [holds]
        simp only [List.append_assoc]
      have later : (unpack buf hdrLen turns (front ++ x.bytes).length).result = some list := by
        refine ih ?_ (Nat.lt_of_succ_lt_succ enough) ?_
        · intro i
          rw [holds]
          simp only [List.append_assoc]
        · rw [length_append]
          push_cast
          omega
      have goes : moreToProcess hdrLen front.length = true := by
        rw [moreToProcess_iff long short (by omega) (by omega)]
        omega
      rw [result_unpack_succ goes, entry, result_unpackTurn, later]
      rfl

/-- What was packed is read back, whatever comes behind it. -/
theorem createStoreMeta_pack {list : List Field} {turns : ℕ} (more : Bytes)
    (short : packedLength list < 2 ^ 31) (enough : list.length < turns) :
    hdrLen (fileBuffer (storeSwapMetaPack list ++ more)) = packedLength list ∧
      (createStoreMeta turns (fileBuffer (storeSwapMetaPack list ++ more))
        (storeSwapMetaPack list ++ more).length 5).result = some list := by
  have holds (i : ℕ) : fileBuffer (storeSwapMetaPack list ++ more) i =
      (storeSwapMetaPack list ++ more).getD i 0 := by
    rw [fileBuffer, Int.toNat_natCast]
  have length : hdrLen (fileBuffer (storeSwapMetaPack list ++ more)) = packedLength list := by
    have four : load (fileBuffer (storeSwapMetaPack list ++ more)) 1
        (littleBytes 4 (packedLength list)).length = littleBytes 4 (packedLength list) := by
      refine @load_eq _ [metaOk] _ ((list.map Field.bytes).flatten ++ more) _ ?_ (by simp)
      intro i
      rw [holds, storeSwapMetaPack]
      simp
    rw [length_littleBytes] at four
    rw [hdrLen, intAt, four, little_littleBytes, Nat.mod_eq_of_lt (by omega)]
    exact int32_eq (by omega) (by omega)
  have size := packedLength_eq list
  have sane : (isBufferSane (fileBuffer (storeSwapMetaPack list ++ more))
      (storeSwapMetaPack list ++ more).length).result = true := by
    rw [result_isBufferSane, length, minimumBufferLength, length_append, length_storeSwapMetaPack]
    refine ⟨?_, by omega, by omega⟩
    exact holds 0
  refine ⟨length, (createStoreMeta_of_sane turns sane).1.trans ?_⟩
  have front : (metaOk :: littleBytes 4 (packedLength list)).length = 5 := by simp
  have five : (5 : ℤ) = (metaOk :: littleBytes 4 (packedLength list)).length := by
    rw [front]
    rfl
  rw [length, five]
  refine @unpack_of_bytes _ _ more _ _ _ ?_ enough (by omega) (by omega) (by rw [front]; omega)
  intro i
  rw [holds, storeSwapMetaPack, cons_append]
  rfl

/-! ## The round trip -/

/-- A string whose terminator still fits into a field. -/
def Fits (s : Bytes) : Prop := (terminated s).length ≤ 2 ^ 16

instance (s : Bytes) : Decidable (Fits s) := inferInstanceAs (Decidable (_ ≤ _))

theorem newField_eq {type : ℤ} {value : Bytes} {kind : Kind}
    (accepted : accepts type value.length = some kind) :
    newField type value = some ⟨kind, value, accepts_valid accepted⟩ := by
  unfold newField
  split
  next rejected => cases accepted.symm.trans rejected
  next other chosen =>
    cases accepted.symm.trans chosen
    rfl

theorem EntryData.length_bytes (data : EntryData) : (data.bytes.length : ℤ) = hdrMetaSize := by
  simp [EntryData.bytes, hdrMetaSize]

/-- The fields that describe an entry, in the order in which they are written. -/
def SwappedEntry.fields (e : SwappedEntry) : List (Kind × Bytes) :=
  [(.md5, e.key), (.stdLfs, e.data.bytes), (.url, terminated e.url)] ++
    (if 0 ≤ e.expectedReplySize then [(.objSize,
      littleBytes 8 e.expectedReplySize.toNat)] else []) ++
    e.vary_headers.toList.map fun vary => (.vary, terminated vary)

/-- No field is lost. -/
theorem storeSwapMetaBuild_fields {e : SwappedEntry} (url : Fits e.url)
    (vary : ∀ s ∈ e.vary_headers, Fits s) :
    ∃ list, storeSwapMetaBuild e = some list ∧ list.map (fun x => (x.kind,
      x.value)) = e.fields := by
  have text {kind : Kind} {s : Bytes} (fits : Fits s) (textual : kind = .url ∨ kind = .vary) :
      accepts kind.type (terminated s).length = some kind := by
    refine accepts_type ?_
    rcases textual with rfl | rfl
    · exact decide_eq_true ⟨by omega, by rw [maximumTlvLength]; exact_mod_cast fits⟩
    · exact decide_eq_true ⟨by omega, by rw [maximumTlvLength]; exact_mod_cast fits⟩
  have key : accepts metaKeyMd5 e.key.length = some .md5 :=
    @accepts_type .md5 _ (decide_eq_true e.key_length)
  have std : accepts metaStdLfs e.data.bytes.length = some .stdLfs :=
    @accepts_type .stdLfs _ (decide_eq_true e.data.length_bytes)
  have objSize : accepts metaObjSize (littleBytes 8 e.expectedReplySize.toNat).length =
      some .objSize := by
    rw [length_littleBytes]
    decide
  have first : newField metaUrl (terminated e.url) = _ := newField_eq (text url (.inl rfl))
  unfold storeSwapMetaBuild
  rw [newField_eq key, newField_eq std, first, newField_eq objSize, SwappedEntry.fields]
  by_cases known : 0 ≤ e.expectedReplySize
  · cases varies : e.vary_headers with
    | none => simp [known]
    | some s =>
        have last : newField metaVaryHeaders (terminated s) = _ :=
          newField_eq (text (vary s varies) (.inr rfl))
        simp [known, last]
  · cases varies : e.vary_headers with
    | none => simp [known]
    | some s =>
        have last : newField metaVaryHeaders (terminated s) = _ :=
          newField_eq (text (vary s varies) (.inr rfl))
        simp [known, last]

theorem length_flatten_bytes_le (list : List Field) :
    (list.map Field.bytes).flatten.length ≤ list.length * (5 + 2 ^ 16) := by
  induction list with
  | nil => simp
  | cons x list ih =>
      have size := Kind.validLength_bounds x.valid
      have bytes := x.length_bytes
      rw [List.map_cons, flatten_cons, length_append, length_cons, Nat.succ_mul]
      omega

theorem SwappedEntry.length_fields_le (e : SwappedEntry) : e.fields.length ≤ 5 := by
  unfold fields
  cases e.vary_headers <;> split_ifs <;> simp

/--
The fields built for an entry are all written, and are what is read back from the file, with the
length of the header, whatever comes behind the header.
-/
theorem unpack_pack_build (e : SwappedEntry) (url : Fits e.url)
    (vary : ∀ s ∈ e.vary_headers, Fits s) :
    ∃ list, storeSwapMetaBuild e = some list ∧
      list.map (fun x => (x.kind, x.value)) = e.fields ∧
      ∀ more turns, list.length < turns →
        hdrLen (fileBuffer (storeSwapMetaPack list ++ more)) = (storeSwapMetaPack list).length ∧
          (createStoreMeta turns (fileBuffer (storeSwapMetaPack list ++ more))
            (storeSwapMetaPack list ++ more).length 5).result = some list := by
  obtain ⟨list, built, fields⟩ := storeSwapMetaBuild_fields url vary
  refine ⟨list, built, fields, fun more turns enough => ?_⟩
  have few : list.length ≤ 5 := by
    rw [← length_map (fun x : Field => (x.kind, x.value)), fields]
    exact e.length_fields_le
  have bytes := length_flatten_bytes_le list
  have short : packedLength list < 2 ^ 31 := by
    rw [packedLength_eq]
    omega
  rw [length_storeSwapMetaPack]
  exact createStoreMeta_pack more short enough

/-- An entry with all the fields. -/
def varyingEntry : SwappedEntry where
  key := List.replicate 16 7
  key_length := rfl
  data := ⟨1, 2, 3, -1, 0, 1, 0⟩
  url := [104, 116, 116, 112, 58, 47, 47, 97, 47]
  vary_headers := some [97]
  expectedReplySize := 300

theorem unpack_pack_build_varyingEntry :
    ∃ list, storeSwapMetaBuild varyingEntry = some list ∧
      list.map (fun x => (x.kind, x.value)) = varyingEntry.fields ∧
      ∀ more turns, list.length < turns →
        hdrLen (fileBuffer (storeSwapMetaPack list ++ more)) = (storeSwapMetaPack list).length ∧
          (createStoreMeta turns (fileBuffer (storeSwapMetaPack list ++ more))
            (storeSwapMetaPack list ++ more).length 5).result = some list :=
  unpack_pack_build varyingEntry (by decide) fun s varies => by cases varies; decide

end StoreMeta
end Squid
