import Squid.Dns.Rfc1035Names
import Squid.Library.CaseCompare
import Mathlib.Data.List.DropRight

/-!
# Packing DNS queries

The functions of `rfc1035.c` and `rfc2671.c` that write a query.  Each returns the octets that it
writes behind each other; where an assertion fails, the program stops and there are none.
-/

namespace Squid
namespace Rfc1035

open CRuntime List Traced

/-! ## Packing -/

/-- `htons` and `memcpy` of two bytes. -/
def packWord (x : ℕ) : Bytes := [UInt8.ofNat (uint16 x / 256), UInt8.ofNat x]

/-- `htonl` and `memcpy` of four bytes. -/
def packLong (x : ℕ) : Bytes := packWord (x / 2 ^ 16) ++ packWord x

/-- `RFC1035_TYPE_A`. -/
def typeA : ℕ := 1

/-- `RFC1035_CLASS_IN`. -/
def classIn : ℕ := 1

/-- `RFC1035_TYPE_OPT`. -/
def typeOpt : ℕ := 41

/-- `rfc1035HeaderPack`. -/
def headerPack (sz : ℕ) (hdr : Header) : Option Bytes :=
  if 12 ≤ sz then
    let t := hdr.qr <<< 15 ||| hdr.opcode <<< 11 ||| hdr.aa <<< 10 ||| hdr.tc <<< 9 |||
      hdr.rd <<< 8 ||| hdr.ra <<< 7 ||| hdr.rcode
    some (packWord hdr.id ++ packWord t ++ packWord hdr.qdcount ++ packWord hdr.ancount ++
      packWord hdr.nscount ++ packWord hdr.arcount)
  else
    none

/-- `rfc1035LabelPack`; a null pointer is no label. -/
def labelPack (sz : ℕ) (label : Option Bytes) : Option Bytes :=
  let text := label.getD []
  let len := min text.length maxLabelSz
  if 46 ∈ text ∨ sz < len + 1 then none else some (UInt8.ofNat len :: text.take len)

/-- The loop of `rfc1035NamePack`, with what is left of the copy and the octets so far. -/
def namePackLoop (sz : ℕ) (copy out : Bytes) : Option Bytes :=
  match _token : strtok (· == 46) copy with
  | none => some out
  | some (t, rest) =>
      match labelPack (sz - out.length) (some t) with
      | none => none
      | some label => namePackLoop sz rest (out ++ label)
termination_by copy.length
decreasing_by exact strtok_shorter _token

/-- `rfc1035NamePack`. -/
def namePack (sz : ℕ) (name : Bytes) : Option Bytes := do
  let labels ← namePackLoop sz name []
  let root ← labelPack (sz - labels.length) none
  if (labels ++ root).length ≤ sz then some (labels ++ root) else none

/-- `rfc1035QuestionPack`. -/
def questionPack (sz : ℕ) (name : Bytes) (type cls : ℕ) : Option Bytes := do
  let name ← namePack sz name
  let question := name ++ packWord type ++ packWord cls
  if question.length ≤ sz then some question else none

/--
`rfc1035RRPack`; nothing is packed where it does not fit.  `rdata` stands for the octets at the
address of the field `rdata`.
-/
def rrPack (sz : ℕ) (name : Bytes) (type cls ttl : ℕ) (rdata : Bytes) : Option Bytes := do
  let name ← namePack sz name
  if sz < name.length + 2 * 3 + 4 + rdata.length then
    some []
  else
    some (name ++ packWord type ++ packWord cls ++ packLong ttl ++ packWord rdata.length ++ rdata)

/-- `rfc2671RROptPack`; `rcvbuf` is `SQUID_UDP_SO_RCVBUF`. -/
def rrOptPack (rcvbuf : ℤ) (sz : ℕ) (edns_sz : ℤ) : Option Bytes :=
  rrPack sz [46] typeOpt ((min edns_sz (rcvbuf - 1)) % 2 ^ 16).toNat 0 []

def xstrncpy (dst : Memory) (src : Bytes) (n : ℕ) : Memory :=
  if n = 0 then dst else store dst 0 (src.take (n - 1) ++ [0])

/--
`rfc1035BuildAQuery`: the octets of the query and the query that is filled in, whose fields held
`query`.
-/
def buildAQuery (rcvbuf : ℤ) (hostname : Bytes) (sz qid : ℕ) (query : Query) (edns_sz : ℤ) :
    Option (Bytes × Query) := do
  let h : Header :=
    { id := qid, qr := 0, opcode := 0, aa := 0, tc := 0, rd := 1, ra := 0, rcode := 0, qdcount := 1
      ancount := 0, nscount := 0, arcount := if 0 < edns_sz then 1 else 0 }
  let header ← headerPack sz h
  let question ← questionPack (sz - header.length) hostname typeA classIn
  let message := header ++ question
  let opt ← (if 0 < edns_sz then rrOptPack rcvbuf (sz - message.length) edns_sz else some [])
  let message := message ++ opt
  if message.length ≤ sz then
    some (message, { name := xstrncpy query.name hostname maxHostNameSz, qtype := typeA
                     qclass := classIn })
  else
    none

/-! ## Comparing -/

/-- The C string in an array of `RFC1035_MAXHOSTNAMESZ` bytes. -/
def text (name : Memory) : Bytes := cstr (load name 0 maxHostNameSz)

/-- The loops of `rfc1035QueryCompare` that trim root labels. -/
def trimRoot (name : Bytes) : ℕ → ℕ
  | 0 => 0
  | la + 1 => if name.getD la 0 = 46 then trimRoot name la else la + 1

/-- `rfc1035QueryCompare`. -/
def queryCompare (a b : Query) : ℤ :=
  if a.qtype ≠ b.qtype then 1
  else if a.qclass ≠ b.qclass then 1
  else
    let la := (text a.name).length
    let lb := (text b.name).length
    let (la, lb) := if la ≠ lb then (trimRoot (text a.name) la, trimRoot (text b.name) lb)
      else (la, lb)
    if la ≠ lb then 1 else strncasecmp la (text a.name) (text b.name)

/-! ## The labels of a host name -/

/-- The texts between the dots of a name. -/
def parts (name : Bytes) : List Bytes := name.splitOn 46

/-- The labels of a name, which are its parts that are not empty. -/
def labels (name : Bytes) : List Bytes := (parts name).filter (· ≠ [])

/-- What is packed for some labels. -/
def encoded (labels : List Bytes) : Bytes :=
  labels.flatMap fun label => UInt8.ofNat label.length :: label

theorem parts_cons (b : UInt8) (name : Bytes) :
    parts (b :: name) = if b = 46 then [] :: parts name else (parts name).modifyHead (b :: ·) := by
  simp [parts, splitOn_cons_eq_if_modifyHead]

theorem parts_ne_nil (name : Bytes) : parts name ≠ [] := List.splitOn_ne_nil 46 name

/-- No part has a dot. -/
theorem dot_notMem_parts (name : Bytes) : ∀ part ∈ parts name, 46 ∉ part := by
  induction name with
  | nil => simp [parts]
  | cons b name ih =>
      rw [parts_cons]
      split
      · simpa using ih
      · rename_i other
        obtain ⟨first, others, split⟩ := exists_cons_of_ne_nil (parts_ne_nil name)
        rw [split] at ih ⊢
        intro part member
        rcases mem_cons.mp member with rfl | member
        · simpa [Ne.symm other] using ih first (by simp)
        · exact ih part (by simp [member])

theorem labels_dropWhile (name : Bytes) : labels (name.dropWhile (· == 46)) = labels name := by
  induction name with
  | nil => rfl
  | cons b name ih =>
      by_cases dot : b = 46
      · rw [dropWhile_cons_of_pos (by simpa using dot), ih, labels, labels, parts_cons, if_pos dot]
        simp
      · rw [dropWhile_cons_of_neg (by simpa using dot)]

/-- The first label ends at a dot or with the name. -/
theorem labels_append {word after : Bytes} (ne : word ≠ []) (plain : 46 ∉ word)
    (stop : after = [] ∨ ∃ tail, after = 46 :: tail) :
    labels (word ++ after) = word :: labels after.tail := by
  rcases stop with rfl | ⟨tail, rfl⟩
  · rw [List.append_nil, labels, parts, splitOn_eq_singleton plain]
    simp [ne, labels, parts]
  · rw [labels, parts, splitOn_append_cons_self_of_not_mem plain]
    simp [ne, labels, parts]

/-- The tokens of a name are its labels. -/
theorem labels_strtok (name : Bytes) :
    (strtok (· == 46) name = none ∧ labels name = []) ∨
      ∃ label rest, strtok (· == 46) name = some (label, rest) ∧ label ≠ [] ∧ 46 ∉ label ∧
        labels name = label :: labels rest := by
  rw [← labels_dropWhile, strtok]
  generalize start : name.dropWhile (· == 46) = text
  cases text with
  | nil => exact .inl ⟨by simp, by simp [labels, parts]⟩
  | cons b tail =>
      have first : (!b == 46) = true := by
        have kept := head_dropWhile_not (· == 46) (l := name) (by simp [start])
        simpa [start] using kept
      refine .inr ⟨_, _, by rw [if_neg (cons_ne_nil b tail)], ?_, ?_, ?_⟩
      · simp [first]
      · intro dot
        simpa using mem_takeWhile_imp dot
      · conv_lhs => rw [← takeWhile_append_dropWhile (p := (!· == 46)) (l := b :: tail)]
        apply labels_append
        · simp [first]
        · intro dot
          simpa using mem_takeWhile_imp dot
        · cases after : (b :: tail).dropWhile (!· == 46) with
          | nil => exact .inl rfl
          | cons c rest =>
              have stop := head_dropWhile_not (!· == 46) (l := b :: tail) (by simp [after])
              simp only [after, head_cons, Bool.not_eq_false', beq_iff_eq] at stop
              exact .inr ⟨rest, by rw [stop]⟩

theorem length_encoded (labels : List Bytes) : (encoded labels).length = size labels := by
  induction labels with
  | nil => rfl
  | cons label labels ih =>
      rw [encoded, flatMap_cons, length_append, ← encoded, ih, size_cons, length_cons]

variable {sz : ℕ}

theorem labelPack_some {label : Bytes} (plain : 46 ∉ label) (short : label.length ≤ maxLabelSz)
    (fits : label.length + 1 ≤ sz) :
    labelPack sz (some label) = some (UInt8.ofNat label.length :: label) := by
  rw [labelPack, Option.getD_some]
  simp only [plain, min_eq_left short, false_or, take_length]
  rw [if_neg (by omega)]

variable {name : Bytes}

theorem namePackLoop_of_none {out : Bytes} (token : strtok (· == 46) name = none) :
    namePackLoop sz name out = some out := by
  rw [namePackLoop]
  split
  · rfl
  · simp_all

theorem namePackLoop_of_some {out label rest octets : Bytes}
    (token : strtok (· == 46) name = some (label, rest))
    (packed : labelPack (sz - out.length) (some label) = some octets) :
    namePackLoop sz name out = namePackLoop sz rest (out ++ octets) := by
  rw [namePackLoop]
  split
  · simp_all
  · rename_i found
    obtain ⟨rfl, rfl⟩ := Prod.mk.inj (Option.some.inj (token.symm.trans found))
    simp only [packed]

/-- All labels are packed if they fit. -/
theorem namePackLoop_eq (name out : Bytes)
    (short : ∀ label ∈ labels name, label.length ≤ maxLabelSz)
    (fits : out.length + size (labels name) ≤ sz) :
    namePackLoop sz name out = some (out ++ encoded (labels name)) := by
  induction less : name.length using Nat.strong_induction_on generalizing name out with
  | _ n ih =>
      obtain ⟨token, none⟩ | ⟨label, rest, token, -, plain, all⟩ := labels_strtok name
      · rw [namePackLoop_of_none token, none]
        simp [encoded]
      · rw [all] at short fits ⊢
        rw [size_cons] at fits
        have packed := labelPack_some plain (short label (by simp))
          (show label.length + 1 ≤ sz - out.length by omega)
        have left := strtok_shorter token
        rw [namePackLoop_of_some token packed,
          ih rest.length (by omega) rest _ (fun other member => short other (by simp [member]))
            (by simp only [length_append, length_cons]; omega) rfl]
        simp [encoded]

theorem namePack_eq (short : ∀ label ∈ labels name, label.length ≤ maxLabelSz)
    (fits : size (labels name) + 1 ≤ sz) :
    namePack sz name = some (encoded (labels name) ++ [0]) := by
  have root : labelPack (sz - (encoded (labels name)).length) none = some [0] := by
    rw [labelPack, if_neg (by simp [length_encoded]; omega)]
    rfl
  rw [namePack, namePackLoop_eq name [] short (by simp; omega), List.nil_append]
  change (do
    let root ← labelPack (sz - (encoded (labels name)).length) none
    if (encoded (labels name) ++ root).length ≤ sz then some (encoded (labels name) ++ root)
    else none) = _
  rw [root]
  exact if_pos (by simpa [length_encoded] using fits)

theorem size_parts (name : Bytes) : size (parts name) = name.length + 1 := by
  have whole : dotted (parts name) = name := intercalate_splitOn 46
  rw [size, dots_eq (parts_ne_nil name), whole, length_append, length_singleton]

theorem size_filter_le (parts : List Bytes) : size (parts.filter (· ≠ [])) ≤ size parts := by
  induction parts with
  | nil => rfl
  | cons part parts ih =>
      by_cases empty : part = []
      · rw [filter_cons_of_neg (by simpa using empty), size_cons]
        omega
      · rw [filter_cons_of_pos (by simpa using empty), size_cons, size_cons]
        omega

theorem size_labels_le (name : Bytes) : size (labels name) ≤ name.length + 1 := by
  rw [← size_parts]
  exact size_filter_le _

/-! ## The message -/

/-- The header of a query. -/
def queryHeader (qid : ℕ) (edns_sz : ℤ) : Header :=
  { id := qid, qr := 0, opcode := 0, aa := 0, tc := 0, rd := 1, ra := 0, rcode := 0, qdcount := 1
    ancount := 0, nscount := 0, arcount := if 0 < edns_sz then 1 else 0 }

/-- The octets of a header without its record counts. -/
def headerOctets (qid : ℕ) (edns_sz : ℤ) : Bytes :=
  packWord qid ++ (packWord 256 ++ (packWord 1 ++ (packWord 0 ++ (packWord 0 ++
    packWord (if 0 < edns_sz then 1 else 0)))))

/-- The octets of a question. -/
def questionOctets (name : Bytes) : Bytes :=
  encoded (labels name) ++ [0] ++ (packWord typeA ++ packWord classIn)

theorem rrOptPack_some (rcvbuf : ℤ) (edns_sz : ℤ) (room : 11 ≤ sz) :
    ∃ opt, rrOptPack rcvbuf sz edns_sz = some opt ∧ opt.length = 11 := by
  have root : labels [46] = [] := by decide
  have name : namePack sz [46] = some [0] := by
    rw [namePack_eq (by simp [root]) (by rw [root, size_nil]; omega), root]
    rfl
  rw [rrOptPack, rrPack, name]
  refine ⟨_, if_neg ?_, ?_⟩
  · simp only [length_singleton, length_nil]
    omega
  · simp [packWord, packLong]

/-- A query that fits is built. -/
theorem buildAQuery_eq (rcvbuf : ℤ) {name : Bytes} {sz : ℕ} (qid : ℕ) (query : Query)
    (edns_sz : ℤ) (short : ∀ label ∈ labels name, label.length ≤ maxLabelSz)
    (fits : name.length + 29 ≤ sz) :
    ∃ opt, buildAQuery rcvbuf name sz qid query edns_sz =
        some (headerOctets qid edns_sz ++ (questionOctets name ++ opt),
          { name := xstrncpy query.name name maxHostNameSz, qtype := typeA, qclass := classIn }) ∧
      opt.length ≤ 11 := by
  have bound := size_labels_le name
  have header : headerPack sz (queryHeader qid edns_sz) = some (headerOctets qid edns_sz) := by
    rw [headerPack, if_pos (by omega)]
    simp [queryHeader, headerOctets]
  have headerLength : (headerOctets qid edns_sz).length = 12 := rfl
  have questionLength : (questionOctets name).length = size (labels name) + 5 := by
    simp [questionOctets, length_encoded, packWord]
  have question : questionPack (sz - 12) name typeA classIn = some (questionOctets name) := by
    rw [questionPack, namePack_eq short (by omega)]
    refine (if_pos ?_).trans ?_
    · simp only [length_append, length_encoded, packWord, length_cons, length_nil]
      omega
    · simp [questionOctets]
  have opt : ∃ opt, (if 0 < edns_sz then
        rrOptPack rcvbuf (sz - (headerOctets qid edns_sz ++ questionOctets name).length) edns_sz
      else some []) = some opt ∧ opt.length ≤ 11 := by
    split
    · have room : 11 ≤ sz - (headerOctets qid edns_sz ++ questionOctets name).length := by
        rw [length_append, headerLength, questionLength]
        omega
      obtain ⟨opt, packed, length⟩ := rrOptPack_some rcvbuf edns_sz room
      exact ⟨opt, packed, length.le⟩
    · exact ⟨[], rfl, by simp⟩
  obtain ⟨opt, packed, length⟩ := opt
  refine ⟨opt, ?_, length⟩
  rw [buildAQuery]
  change (headerPack sz (queryHeader qid edns_sz) >>= _) = _
  rw [header]
  change (questionPack (sz - 12) name typeA classIn >>= _) = _
  rw [question]
  change ((if 0 < edns_sz then
        rrOptPack rcvbuf (sz - (headerOctets qid edns_sz ++ questionOctets name).length) edns_sz
      else some []) >>= _) = _
  rw [packed]
  refine (if_pos ?_).trans ?_
  · simp only [length_append, headerLength, questionLength]
    omega
  · simp

/-! ## Unpacking -/

/-- The octets are in memory from a position on. -/
def Stored (buf : Memory) (off : ℕ) (octets : Bytes) : Prop := load buf off octets.length = octets

section Unpack

variable {buf : Memory} {off sz : ℕ}

theorem load_add (buf : Memory) (first m n : ℕ) :
    load buf first (m + n) = load buf first m ++ load buf (first + m) n := by
  simp [load, range_add, Nat.add_assoc]

theorem stored_append {front back : Bytes} :
    Stored buf off (front ++ back) ↔
      Stored buf off front ∧ Stored buf (off + front.length) back := by
  rw [Stored, length_append, load_add]
  exact ⟨fun same => append_inj same (length_load _ _ _),
    fun same => congrArg₂ (· ++ ·) same.1 same.2⟩

theorem stored_cons {b : UInt8} {octets : Bytes} :
    Stored buf off (b :: octets) ↔ buf off = b ∧ Stored buf (off + 1) octets := by
  rw [← singleton_append, stored_append]
  simp [Stored, load]

theorem word_of_stored {x : ℕ} (small : x < 2 ^ 16) (stored : Stored buf off (packWord x)) :
    word buf off = x := by
  obtain ⟨high, low, -⟩ := (stored_cons.trans (and_congr_right fun _ => stored_cons)).mp stored
  rw [word, high, low]
  simp only [UInt8.toNat_ofNat', uint16]
  omega

/-- The labels of a name are unpacked one behind the other. -/
theorem nameLoop_labels (small : sz < 2 ^ 32) {ns : ℕ} (rdepth : ℕ) {labels : List Bytes}
    {no : ℕ} {name : Memory} (valid : ∀ label ∈ labels, label ≠ [] ∧ label.length ≤ maxLabelSz)
    (stored : Stored buf off (encoded labels ++ [0])) (room : no + size labels < ns)
    (inside : off + size labels + 1 ≤ sz) :
    (nameLoop buf sz off none name 0 ns no rdepth).result =
      ⟨false, off + size labels + 1, none,
        store (store name no (dots labels)) (no + size labels - 1) [0]⟩ := by
  induction labels generalizing off no name with
  | nil =>
      have zero := (stored_cons.mp stored).1
      rw [nameLoop_of_root (by rw [size_nil] at inside; omega) (by rw [zero]; rfl)]
      rw [size_nil] at inside
      have last : (if no ≠ 0 then 0 + no - 1 else 0) = no + 0 - 1 := by
        split <;> omega
      simp only [nameEnd, result_bind, result_pure, size_nil, dots_nil, store_nil, last]
      rw [uint32_eq (by omega)]
  | cons label labels ih =>
      obtain ⟨ne, short⟩ := valid label (by simp)
      have positive := length_pos_iff.mpr ne
      rw [size_cons] at room inside
      simp only [maxLabelSz] at short
      rw [encoded, flatMap_cons, cons_append, cons_append, List.append_assoc,
        stored_cons, stored_append] at stored
      obtain ⟨length, text, later⟩ := stored
      have count : (buf off).toNat = label.length := by
        rw [length, UInt8.toNat_ofNat']
        omega
      have start : uint32 (off + 1) = off + 1 := uint32_eq (by omega)
      have isLabel : Label buf sz ⟨off, ns - no, rdepth⟩ := by
        constructor <;> simp only [count, start, maxLabelSz] <;> omega
      have next := @ih (off + 1 + label.length) (no + label.length + 1)
        (store name no (label ++ [46])) (fun other member => valid other (by simp [member]))
        later (by omega) (by omega)
      have behind : no + label.length + 1 = no + (label ++ [46]).length := by simp; omega
      rw [nameLoop_of_label isLabel]
      simp only [result_bind, count, start, Nat.zero_add, Option.map_none]
      rw [if_pos (by omega), uint32_eq (show off + 1 + label.length < 2 ^ 32 by omega), text, next,
        dots_cons, size_cons, behind, store_append]
      simp only [NameResult.mk.injEq, true_and]
      refine ⟨by omega, ?_⟩
      congr 2
      · simp
      · simp
        omega

theorem header_of_stored {qid : ℕ} {edns_sz : ℤ} (small : qid < 2 ^ 16)
    (stored : Stored buf 0 (headerOctets qid edns_sz)) : header buf = queryHeader qid edns_sz := by
  obtain ⟨id, stored⟩ := stored_append.mp stored
  obtain ⟨flags, stored⟩ := stored_append.mp stored
  obtain ⟨queries, stored⟩ := stored_append.mp stored
  obtain ⟨answers, stored⟩ := stored_append.mp stored
  obtain ⟨servers, additional⟩ := stored_append.mp stored
  have id := word_of_stored small id
  have flags : word buf 2 = 256 := word_of_stored (by decide) flags
  have queries : word buf 4 = 1 := word_of_stored (by decide) queries
  have answers : word buf 6 = 0 := word_of_stored (by decide) answers
  have servers : word buf 8 = 0 := word_of_stored (by decide) servers
  have additional : word buf 10 = if 0 < edns_sz then 1 else 0 :=
    word_of_stored (by split <;> decide) additional
  simp only [header, id, flags, queries, answers, servers, additional, queryHeader]
  rfl

/-- A name that was packed is unpacked as its labels with dots between them. -/
theorem nameUnpack_labels (small : sz < 2 ^ 32) {labels : List Bytes}
    (valid : ∀ label ∈ labels, label ≠ [] ∧ label.length ≤ maxLabelSz)
    (stored : Stored buf off (encoded labels ++ [0])) (room : size labels < maxHostNameSz)
    (inside : off + size labels + 1 ≤ sz) :
    (nameUnpack buf sz off none (fun _ => 0) maxHostNameSz 0).result.failed = false ∧
      (nameUnpack buf sz off none (fun _ => 0) maxHostNameSz 0).result.off =
        off + size labels + 1 ∧
      Holds (nameUnpack buf sz off none (fun _ => 0) maxHostNameSz 0).result.name
        (dotted labels) := by
  have unpacked : (nameUnpack buf sz off none (fun _ => 0) maxHostNameSz 0).result = _ :=
    @nameLoop_labels buf off sz small maxHostNameSz 0 labels 0 (fun _ => 0) valid stored
      (by omega) inside
  rw [unpacked]
  refine ⟨rfl, rfl, ?_⟩
  dsimp only
  rw [Nat.zero_add]
  by_cases some : labels = []
  · rw [some]
    exact ⟨rfl, by simp [dotted, store_one]⟩
  · have positive : size labels ≠ 0 := size_eq_zero_iff.not.mpr some
    exact holds_of_filled _ some (by omega)

/-- A query is unpacked as its header and its question. -/
theorem messageUnpack_query (dnsCname : Bool) (fresh : Memory) (before : Option Message)
    (small : sz < 2 ^ 32) {qid : ℕ} {edns_sz : ℤ} {name opt : Bytes} (id : qid < 2 ^ 16)
    (short : ∀ label ∈ labels name, label.length ≤ maxLabelSz)
    (room : size (labels name) < maxHostNameSz)
    (stored : Stored buf 0 (headerOctets qid edns_sz ++ (questionOctets name ++ opt)))
    (length : (headerOctets qid edns_sz ++ (questionOctets name ++ opt)).length = sz) :
    ∃ question, (messageUnpack dnsCname fresh buf sz before).result =
        (0, some ⟨queryHeader qid edns_sz, question, []⟩) ∧
      Holds question.name (dotted (labels name)) ∧ question.qtype = typeA ∧
        question.qclass = classIn := by
  obtain ⟨first, stored⟩ := stored_append.mp stored
  have header := header_of_stored id first
  have headerLength : (headerOctets qid edns_sz).length = 12 := rfl
  have nameLength : (encoded (labels name) ++ [0]).length = size (labels name) + 1 := by
    rw [length_append, length_encoded, length_singleton]
  have total : 12 + size (labels name) + 5 ≤ sz := by
    rw [← length, length_append, headerLength, questionOctets, length_append,
      length_append, nameLength]
    simp only [packWord, length_append, length_cons, length_nil]
    omega
  rw [headerLength, Nat.zero_add, questionOctets, List.append_assoc, stored_append, nameLength]
    at stored
  obtain ⟨second, third⟩ := stored
  have valid : ∀ label ∈ labels name, label ≠ [] ∧ label.length ≤ maxLabelSz := fun label member =>
    ⟨by simpa using (mem_filter.mp member).2, short label member⟩
  obtain ⟨accepted, next, holds⟩ := nameUnpack_labels small valid second room (by omega)
  obtain ⟨fields, -⟩ := stored_append.mp third
  obtain ⟨type, cls⟩ := stored_append.mp fields
  have type := word_of_stored (show typeA < 2 ^ 16 by decide) type
  have cls : word buf (12 + (size (labels name) + 1) + 2) = classIn :=
    word_of_stored (by decide) cls
  have behind : uint32 (12 + size (labels name) + 1 + 4) = 12 + size (labels name) + 5 :=
    uint32_eq (by omega)
  have query : (queryUnpack buf sz 12).result = (some
      { name := (nameUnpack buf sz 12 none (fun _ => 0) maxHostNameSz 0).result.name
        qtype := typeA, qclass := classIn }, 12 + size (labels name) + 5) := by
    simp only [queryUnpack, result_bind, accepted, next, behind]
    rw [if_neg (by decide), if_neg (by omega), uint32_eq (by omega)]
    simp only [result_bind, result_pure]
    rw [show 12 + size (labels name) + 1 = 12 + (size (labels name) + 1) by omega, type, cls]
  have headed : (headerUnpack buf sz).result = some (queryHeader qid edns_sz, 12) := by
    rw [headerUnpack, if_neg (by omega), ← header]
    rfl
  refine ⟨{ name := _, qtype := typeA, qclass := classIn }, ?_, holds, rfl, rfl⟩
  rw [messageUnpack, result_bind, headed]
  simp only [queryHeader, ne_eq, not_true_eq_false, if_false, result_bind, query, if_true,
    result_pure]

end Unpack

/-! ## The comparison -/

/-- No empty part stands before a part that is not empty. -/
def Rooted (name : Bytes) : Prop := (parts name).Pairwise fun part later => part = [] → later = []

/-- A name without the dots at its end. -/
def trimmed (name : Bytes) : Bytes := name.rdropWhile (· == 46)

theorem prefix_trimmed (name : Bytes) : trimmed name <+: name :=
  rdropWhile_prefix (· == 46) (l := name)

theorem trimRoot_eq (name : Bytes) : trimRoot name name.length = (trimmed name).length := by
  have part : ∀ la, la ≤ name.length →
      trimRoot name la = ((name.take la).rdropWhile (· == 46)).length := by
    intro la
    induction la with
    | zero => simp [trimRoot]
    | succ la ih =>
        intro inside
        have last : name.take (la + 1) = name.take la ++ [name.getD la 0] := by
          rw [take_add_one, getD_eq_getElem?_getD, List.getElem?_eq_getElem (by omega)]
          rfl
        rw [trimRoot, last]
        by_cases dot : name.getD la 0 = 46
        · rw [if_pos dot, rdropWhile_concat_pos _ _ _ (by simpa using dot)]
          exact ih (by omega)
        · rw [if_neg dot, rdropWhile_concat_neg _ _ _ (by simpa using dot),
            length_append, length_take, length_singleton]
          omega
  rw [part _ le_rfl, take_length, trimmed]

theorem dotted_concat (front : List Bytes) (last : Bytes) :
    dotted (front ++ [last]) = dots front ++ last := by
  by_cases some : front = []
  · simp [some, dotted]
  · rw [dotted_append some (by simp)]
    simp [dotted]

theorem trimmed_concat_nil {front : List Bytes} (some : front ≠ []) :
    trimmed (dotted (front ++ [[]])) = trimmed (dotted front) := by
  rw [dotted_concat, List.append_nil, dots_eq some]
  exact rdropWhile_concat_pos _ _ _ rfl

theorem trimmed_concat (front : List Bytes) {last : Bytes} (ne : last ≠ []) (plain : 46 ∉ last) :
    trimmed (dotted (front ++ [last])) = dotted (front ++ [last]) := by
  obtain ⟨init, b, rfl⟩ := (eq_nil_or_concat last).resolve_left ne
  rw [concat_eq_append] at plain ⊢
  have other : b ≠ 46 := by
    rintro rfl
    exact plain (by simp)
  rw [dotted_concat, ← List.append_assoc]
  exact rdropWhile_concat_neg _ _ _ (by simpa using other)

/-- Without the empty parts there are fewer octets, unless there are none. -/
theorem size_filter_eq_iff (parts : List Bytes) :
    size (parts.filter (· ≠ [])) = size parts ↔ [] ∉ parts := by
  induction parts with
  | nil => simp
  | cons part parts ih =>
      have less := size_filter_le parts
      by_cases empty : part = []
      · rw [filter_cons_of_neg (by simpa using empty), size_cons, empty]
        exact iff_of_false (by omega) (by simp)
      · rw [filter_cons_of_pos (by simpa using empty), size_cons, size_cons, mem_cons, not_or, ← ih]
        exact ⟨fun same => ⟨Ne.symm empty, by omega⟩, fun same => by omega⟩

/--
The labels with dots between them are not longer than the parts without the dots at their end, and
as long only if no empty part stands before another one.
-/
theorem dotted_filter {list : List Bytes} (ne : list ≠ []) (plain : ∀ part ∈ list, 46 ∉ part) :
    (dotted (list.filter (· ≠ []))).length ≤ (trimmed (dotted list)).length ∧
      ((dotted (list.filter (· ≠ []))).length = (trimmed (dotted list)).length ↔
        list.Pairwise fun part later => part = [] → later = []) ∧
      ((list.Pairwise fun part later => part = [] → later = []) →
        trimmed (dotted list) = dotted (list.filter (· ≠ []))) := by
  induction list using List.reverseRecOn with
  | nil => exact absurd rfl ne
  | append_singleton list last ih =>
      by_cases empty : last = []
      · have kept : (list ++ [last]).filter (· ≠ []) = list.filter (· ≠ []) := by
          simp [empty]
        have ordered : (list ++ [last]).Pairwise (fun part later => part = [] → later = []) ↔
            list.Pairwise fun part later => part = [] → later = [] := by
          simp [pairwise_append, empty]
        rw [kept, ordered, empty]
        by_cases none : list = []
        · simp [none, dotted, trimmed]
        · rw [trimmed_concat_nil none]
          exact ih none fun part member => plain part (by simp [member])
      · have kept : (list ++ [last]).filter (· ≠ []) = list.filter (· ≠ []) ++ [last] := by
          simp [empty]
        have ordered : (list ++ [last]).Pairwise (fun part later => part = [] → later = []) ↔
            [] ∉ list := by
          rw [pairwise_append]
          constructor
          · rintro ⟨-, -, before⟩ inside
            exact empty (before [] inside last (by simp) rfl)
          · intro all
            refine ⟨pairwise_of_forall_mem_list ?_, by simp, ?_⟩
            · rintro part member _ _ rfl
              exact absurd member all
            · rintro part member _ _ rfl
              exact absurd member all
        rw [kept, ordered, trimmed_concat list empty (plain last (by simp)), dotted_concat,
          dotted_concat, length_append, length_append]
        change size _ + _ ≤ size _ + _ ∧ (size _ + _ = size _ + _ ↔ _) ∧ _
        refine ⟨Nat.add_le_add_right (size_filter_le list) _, ?_, ?_⟩
        · rw [Nat.add_right_cancel_iff]
          exact size_filter_eq_iff list
        · intro all
          rw [filter_eq_self.mpr]
          intro part member
          simpa using fun empty : part = [] => all (empty ▸ member)

/-- The array holds a C string. -/
theorem text_of_holds {name : Memory} {string : Bytes} (holds : Holds name string)
    (nul : 0 ∉ string) (short : string.length < maxHostNameSz) : text name = string := by
  obtain ⟨left, more⟩ := Nat.exists_eq_add_of_lt short
  rw [text, more, Nat.add_assoc, load_add, holds.1, cstr_append_of_plain nul, Nat.zero_add,
    Nat.add_comm left, load_add]
  simp [load, cstr, holds.2]

theorem holds_xstrncpy (dst : Memory) {string : Bytes} (short : string.length < maxHostNameSz) :
    Holds (xstrncpy dst string maxHostNameSz) string := by
  rw [xstrncpy, if_neg (by decide), take_of_length_le (by simp only [maxHostNameSz] at *; omega)]
  refine ⟨load_eq_iff.mpr fun i inside => ?_, ?_⟩
  · rw [store_at _ _ (by rw [length_append]; omega), getElem_append_left inside]
  · rw [store_at _ _ (by simp)]
    simp

/-- The labels of a string have no zero byte. -/
theorem zero_notMem_dotted (nul : 0 ∉ name) : 0 ∉ dotted (labels name) := by
  intro zero
  by_cases some : labels name = []
  · simp [some, dotted] at zero
  · have inside : 0 ∈ dots (labels name) := by
      rw [dots_eq some]
      exact List.mem_append_left _ zero
    obtain ⟨octets, member, zero⟩ := mem_flatten.mp inside
    obtain ⟨label, isLabel, rfl⟩ := List.mem_map.mp member
    have whole : dots (parts name) = name ++ [46] := by
      rw [dots_eq (parts_ne_nil name)]
      exact congrArg (· ++ [46]) (intercalate_splitOn 46)
    have all : 0 ∈ name ++ [46] := by
      rw [← whole]
      exact mem_flatten.mpr
        ⟨_, List.mem_map_of_mem (mem_of_mem_filter isLabel), zero⟩
    simp [nul] at all

theorem trimmed_labels (name : Bytes) :
    trimmed (dotted (labels name)) = dotted (labels name) := by
  by_cases some : labels name = []
  · rw [some]
    rfl
  · obtain ⟨front, last, split⟩ := (eq_nil_or_concat (labels name)).resolve_left some
    have member : last ∈ labels name := by simp [split]
    obtain ⟨isPart, ne⟩ := mem_filter.mp member
    rw [split, concat_eq_append]
    exact trimmed_concat front (by simpa using ne) (dot_notMem_parts name last isPart)

/-- A name is compared with its labels. -/
theorem queryCompare_labels {a b : Query} (type : a.qtype = b.qtype) (cls : a.qclass = b.qclass)
    (string : text a.name = name) (unpacked : text b.name = dotted (labels name)) :
    queryCompare a b = 0 ↔ Rooted name := by
  have whole : dotted (parts name) = name := intercalate_splitOn 46
  obtain ⟨le, same, equal⟩ := dotted_filter (parts_ne_nil name) (dot_notMem_parts name)
  rw [whole] at le same equal
  change (dotted (labels name)).length ≤ _ at le
  change (dotted (labels name)).length = _ ↔ Rooted name at same
  change Rooted name → _ = dotted (labels name) at equal
  have cut := (prefix_trimmed name).length_le
  rw [queryCompare, if_neg (not_not.mpr type), if_neg (not_not.mpr cls), string, unpacked]
  by_cases lengths : name.length = (dotted (labels name)).length
  · have rooted : Rooted name := same.mp (by omega)
    have kept : trimmed name = name :=
      (prefix_trimmed name).eq_of_length (by rw [equal rooted]; omega)
    have letters : name = dotted (labels name) := by rw [← equal rooted, kept]
    simp only [ne_eq, lengths, not_true_eq_false, if_false, rooted, iff_true]
    exact strncasecmp_of_take_eq (by rw [← letters])
  · simp only [ne_eq, lengths, not_false_eq_true, if_true, trimRoot_eq, trimmed_labels]
    by_cases rooted : Rooted name
    · have start := prefix_trimmed name
      rw [equal rooted] at start ⊢
      simp only [not_true_eq_false, if_false, rooted, iff_true]
      exact strncasecmp_of_take_eq (by rw [← prefix_iff_eq_take.mp start, take_length])
    · rw [if_pos fun equalLength => rooted (same.mp equalLength.symm)]
      simp [rooted]

/-! ## The query comes back -/

/--
A query that was built is read as a query with its identifier, and the question that is read equals
the one that was filled in if and only if the name has no empty part before another one.
-/
theorem messageUnpack_buildAQuery (rcvbuf : ℤ) {name : Bytes} {sz qid : ℕ} (edns_sz : ℤ)
    (query : Query) (string : 0 ∉ name)
    (short : ∀ label ∈ labels name, label.length ≤ maxLabelSz)
    (length : name.length < maxHostNameSz - 1) (room : 512 ≤ sz) (id : qid < 2 ^ 16) :
    ∃ message filled, buildAQuery rcvbuf name sz qid query edns_sz = some (message, filled) ∧
      ∀ dnsCname fresh buf before, Stored buf 0 message → ∃ header question,
        (messageUnpack dnsCname fresh buf message.length before).result =
            (0, some ⟨header, question, []⟩) ∧
          header.id = qid ∧ header.qr = 0 ∧ header.rd = 1 ∧ header.qdcount = 1 ∧
          (queryCompare filled question = 0 ↔ Rooted name) := by
  simp only [maxHostNameSz] at length
  obtain ⟨opt, built, optLength⟩ := buildAQuery_eq rcvbuf qid query edns_sz short
    (show name.length + 29 ≤ sz by omega)
  have bound := size_labels_le name
  have total : (headerOctets qid edns_sz ++ (questionOctets name ++ opt)).length < 2 ^ 32 := by
    simp only [headerOctets, questionOctets, length_append, length_encoded, packWord,
      length_cons, length_nil]
    omega
  refine ⟨_, _, built, fun dnsCname fresh buf before stored => ?_⟩
  obtain ⟨question, unpacked, holds, type, cls⟩ := messageUnpack_query dnsCname fresh before total
    id short (by simp only [maxHostNameSz]; omega) stored rfl
  refine ⟨_, question, unpacked, rfl, rfl, rfl, rfl, ?_⟩
  have shorter : (dotted (labels name)).length < maxHostNameSz := by
    have le := (dotted_filter (parts_ne_nil name) (dot_notMem_parts name)).1
    rw [show dotted (parts name) = name from intercalate_splitOn 46] at le
    exact Nat.lt_of_le_of_lt (le.trans (prefix_trimmed name).length_le)
      (by simp only [maxHostNameSz]; omega)
  have filled := holds_xstrncpy query.name (show name.length < maxHostNameSz by
    simp only [maxHostNameSz]; omega)
  exact queryCompare_labels type.symm cls.symm
    (text_of_holds filled string (by simp only [maxHostNameSz]; omega))
    (text_of_holds holds (zero_notMem_dotted string) shorter)

theorem messageUnpack_buildAQuery_root :
    ∃ message filled, buildAQuery 16384 [97, 46, 98, 46] 512 7 ⟨fun _ => 0, 0, 0⟩ 1024 =
        some (message, filled) ∧
      ∀ dnsCname fresh buf before, Stored buf 0 message → ∃ header question,
        (messageUnpack dnsCname fresh buf message.length before).result =
            (0, some ⟨header, question, []⟩) ∧
          header.id = 7 ∧ header.qr = 0 ∧ header.rd = 1 ∧ header.qdcount = 1 ∧
          (queryCompare filled question = 0 ↔ Rooted [97, 46, 98, 46]) :=
  messageUnpack_buildAQuery 16384 1024 _ (by decide) (by decide) (by decide) (by decide)
    (by decide)

/-- The question for a name that starts with a dot is not recognized. -/
theorem queryCompare_leading_dot :
    ¬ ∀ rcvbuf name sz qid edns_sz query, 0 ∉ name →
      (∀ label ∈ labels name, label.length ≤ maxLabelSz) → name.length < maxHostNameSz - 1 →
      512 ≤ sz → qid < 2 ^ 16 → (∀ part ∈ (parts name).tail.dropLast, part ≠ []) →
      ∀ message filled, buildAQuery rcvbuf name sz qid query edns_sz = some (message, filled) →
      ∀ dnsCname fresh buf before header question, Stored buf 0 message →
        (messageUnpack dnsCname fresh buf message.length before).result =
          (0, some ⟨header, question, []⟩) →
        queryCompare filled question = 0 := by
  intro all
  have labels : labels [46, 97] = [[97]] := by decide
  obtain ⟨opt, built, length⟩ := @buildAQuery_eq 16384 [46, 97] 512 7 ⟨fun _ => 0, 0, 0⟩ 0
    (by decide) (by decide)
  have stored : ∀ message : Bytes, Stored (fun i => message.getD i 0) 0 message := fun message =>
    load_eq_iff.mpr fun i inside => by simp [getD_eq_getElem?_getD, inside]
  have small : (headerOctets 7 0 ++ (questionOctets [46, 97] ++ opt)).length < 2 ^ 32 := by
    simp only [headerOctets, questionOctets, labels, length_append, packWord, encoded,
      length_cons, length_nil, flatMap_cons, flatMap_nil]
    omega
  obtain ⟨question, unpacked, holds, type, cls⟩ := messageUnpack_query false (fun _ => 0) none small
    (by decide) (by decide) (by decide) (stored _) rfl
  have zero := all 16384 [46, 97] 512 7 0 _ (by decide) (by decide) (by decide) (by decide)
    (by decide) (by decide) _ _ built false (fun _ => 0) _ none _ question (stored _) unpacked
  have rooted := (queryCompare_labels type.symm cls.symm
    (text_of_holds (holds_xstrncpy _ (by decide)) (by decide) (by decide))
    (text_of_holds holds (by decide) (by decide))).mp zero
  exact absurd rooted (by simp only [Rooted]; decide)

end Rfc1035
end Squid
