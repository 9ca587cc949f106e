import Squid.Dns.Rfc1035Bounds

/-!
# What a decoded name says

The encoding of a name is a list of labels that ends at a zero octet; instead of the rest of the
list, a compression pointer may stand for a list that is encoded elsewhere.  `rfc1035NameUnpack`
writes a dot behind every label and replaces the dot behind the last label of the list that it has
come to.  If a pointer leads to a list without labels, no dot is replaced, and if the labels fill
the buffer, the decoding stops before the end of the list.
-/

namespace Squid
namespace Rfc1035

open CRuntime List

/-! ## Encodings -/

/-- The labels joined by dots. -/
def dotted (labels : List Bytes) : Bytes := List.intercalate [46] labels

/-- The labels with a dot behind each. -/
def dots (labels : List Bytes) : Bytes := (labels.map (· ++ [46])).flatten

/-- The number of octets that labels take in the buffer. -/
def size (labels : List Bytes) : ℕ := (dots labels).length

/--
Following the encoding at a position gives the labels `own` and then, through each compression
pointer, one more list; what is encoded at the position itself stops at `stop`.  The labels are all
there are or, if not `whole`, the first ones.  Positions are `unsigned int`.
-/
inductive Encodes (buf : Memory) (whole : Bool) : ℕ → List Bytes → List (List Bytes) → ℕ → Prop
  | root {off : ℕ} (zero : (buf off).toNat = 0) (ended : whole = true) :
      Encodes buf whole off [] [] (uint32 (off + 1))
  | cut {off : ℕ} (left : whole = false) : Encodes buf whole off [] [] off
  | label {off : ℕ} {own : List Bytes} {rest : List (List Bytes)} {stop : ℕ}
      (pos : (buf off).toNat ≠ 0) (short : (buf off).toNat ≤ maxLabelSz)
      (later : Encodes buf whole (uint32 (uint32 (off + 1) + (buf off).toNat)) own rest stop) :
      Encodes buf whole off (load buf (uint32 (off + 1)) (buf off).toNat :: own) rest stop
  | pointer {off : ℕ} {own : List Bytes} {rest : List (List Bytes)} {stop : ℕ}
      (marked : 191 < (buf off).toNat)
      (later : Encodes buf whole (word buf off % 2 ^ 14) own rest stop) :
      Encodes buf whole off [] (own :: rest) (uint32 (off + 2))

/-- The list of labels that comes last holds a label; `no` octets precede the first list. -/
def LastFilled (no : ℕ) (own : List Bytes) (rest : List (List Bytes)) : Prop :=
  match rest.getLast? with
  | none => no + size own ≠ 0
  | some last => last ≠ []

/-- The buffer holds the text and a terminating zero. -/
def Holds (name : Memory) (text : Bytes) : Prop :=
  load name 0 text.length = text ∧ name text.length = 0

/-- The offset is the one behind the encoding, and the name is that of the labels. -/
def Faithful (buf : Memory) (off : ℕ) (result : NameResult) : Prop :=
  ∃ own rest stop, Encodes buf true off own rest stop ∧ result.off = stop ∧
    Holds result.name (dotted (own ++ rest.flatten))

/--
The labels leave room in the buffer and the last list holds one, unless there are none at all; or
they fill the buffer, but not before the first compression pointer.
-/
def Unambiguous (buf : Memory) (off : ℕ) : Prop :=
  ∃ own rest stop, Encodes buf true off own rest stop ∧
    (size (own ++ rest.flatten) < maxHostNameSz ∧
        (own ++ rest.flatten = [] ∨ (own :: rest).getLast? ≠ some []) ∨
      size (own ++ rest.flatten) = maxHostNameSz ∧ size own < maxHostNameSz)

@[simp] theorem dots_nil : dots [] = [] := rfl

@[simp] theorem dots_cons (label : Bytes) (labels : List Bytes) :
    dots (label :: labels) = label ++ 46 :: dots labels := by
  simp [dots]

@[simp] theorem dots_append (front back : List Bytes) :
    dots (front ++ back) = dots front ++ dots back := by
  simp [dots]

@[simp] theorem size_nil : size [] = 0 := rfl

@[simp] theorem size_cons (label : Bytes) (labels : List Bytes) :
    size (label :: labels) = label.length + 1 + size labels := by
  simp [size]
  omega

@[simp] theorem size_append (front back : List Bytes) :
    size (front ++ back) = size front + size back := by
  simp [size]

variable {labels : List Bytes}

theorem dots_eq (some : labels ≠ []) : dots labels = dotted labels ++ [46] := by
  induction labels with
  | nil => exact (some rfl).elim
  | cons label labels ih =>
      cases labels with
      | nil => simp [dotted]
      | cons next labels =>
          rw [dots_cons, ih (by simp)]
          simp [dotted]

theorem size_eq_zero_iff : size labels = 0 ↔ labels = [] := by
  cases labels with
  | nil => simp
  | cons label labels => simp

variable {own : List Bytes} {rest : List (List Bytes)}

theorem lastFilled_iff : LastFilled 0 own rest ↔ (own :: rest).getLast? ≠ some [] := by
  rw [List.getLast?_cons, LastFilled]
  cases rest.getLast? with
  | none => simp [size_eq_zero_iff]
  | some last => simp

variable {no : ℕ}

theorem lastFilled_label {label : Bytes} :
    LastFilled no (label :: own) rest ↔ LastFilled (no + label.length + 1) own rest := by
  unfold LastFilled
  cases rest.getLast? with
  | none =>
      rw [size_cons]
      exact iff_of_true (by omega) (by omega)
  | some last => rfl

theorem lastFilled_pointer : LastFilled no [] (own :: rest) ↔ LastFilled 0 own rest := by
  rw [LastFilled, LastFilled, List.getLast?_cons]
  cases rest.getLast? with
  | none => simp [size_eq_zero_iff]
  | some last => simp

theorem LastFilled.flatten_ne_nil (filled : LastFilled no own rest) (pointed : rest ≠ []) :
    rest.flatten ≠ [] := by
  intro none
  rw [flatten_eq_nil_iff] at none
  rw [LastFilled, List.getLast?_eq_some_getLast pointed] at filled
  exact filled (none _ (getLast_mem pointed))

/-! ## The buffer -/

theorem store_nil (memory : Memory) (first : ℕ) : store memory first [] = memory := by
  funext index
  simp [store]

theorem store_append (memory : Memory) (first : ℕ) (front back : Bytes) :
    store (store memory first front) (first + front.length) back =
      store memory first (front ++ back) := by
  funext index
  unfold store
  by_cases low : first ≤ index
  · by_cases inside : index - first < front.length
    · rw [if_neg (by omega), if_pos low, if_pos low, List.getElem?_append_left inside]
    · rw [if_pos (by omega), if_pos low, if_pos low,
        List.getElem?_append_right (by omega), List.getElem?_eq_none (by omega : front.length ≤ _)]
      rw [show index - (first + front.length) = index - first - front.length by omega]
      rfl
  · rw [if_neg (by omega), if_neg low, if_neg low]

theorem length_load (buf : Memory) (first count : ℕ) : (load buf first count).length = count := by
  simp [load]

theorem load_eq_iff {memory : Memory} {bytes : Bytes} :
    load memory 0 bytes.length = bytes ↔ ∀ i (inside : i < bytes.length), memory i = bytes[i] := by
  constructor
  · intro same i inside
    have entry := congrArg (fun list => list[i]?) same
    simpa [load, inside, eq_comm] using entry
  · intro each
    refine ext_getElem (by simp [load]) fun i _ inside => ?_
    simp [load, each i inside]

theorem store_at (memory : Memory) (bytes : Bytes) {i : ℕ} (inside : i < bytes.length) :
    store memory 0 bytes i = bytes[i] := by
  simp [store, inside]

theorem store_one (memory : Memory) (last i : ℕ) (b : UInt8) :
    store memory last [b] i = if i = last then b else memory i := by
  unfold store
  by_cases same : i = last
  · simp [same]
  · rw [if_neg same]
    by_cases low : last ≤ i
    · rw [if_pos low, List.getElem?_eq_none (by simp; omega)]
      rfl
    · rw [if_neg low]

/-- If the dot behind the last label is replaced, the buffer holds the labels joined by dots. -/
theorem holds_of_filled (name : Memory) {last : ℕ} (some : labels ≠ [])
    (replaced : last + 1 = size labels) :
    Holds (store (store name 0 (dots labels)) last [0]) (dotted labels) := by
  have split := dots_eq some
  have length : (dotted labels).length = last := by
    rw [size, split, length_append] at replaced
    simpa using replaced.symm
  refine ⟨load_eq_iff.mpr fun i inside => ?_, ?_⟩
  · rw [store_one, if_neg (by omega), store_at _ _ (by rw [split, length_append]; omega)]
    simp only [split, getElem_append_left inside]
  · rw [store_one, if_pos length]

/-- If the end is put behind the dots, the last dot is left. -/
theorem not_holds_of_behind (name : Memory) (some : labels ≠ []) :
    ¬ Holds (store (store name 0 (dots labels)) (size labels) [0]) (dotted labels) := by
  rintro ⟨-, ended⟩
  have split := dots_eq some
  have short : (dotted labels).length < (dots labels).length := by
    rw [split, length_append]
    simp
  rw [store_one, if_neg (by rw [size]; omega), store_at _ _ short] at ended
  simp only [split, getElem_concat_length] at ended
  exact absurd ended (by decide)

theorem dotted_append {front back : List Bytes} (some : front ≠ []) (more : back ≠ []) :
    dotted (front ++ back) = dots front ++ dotted back := by
  have whole : dots (front ++ back) = dotted (front ++ back) ++ [46] := dots_eq (by simp [some])
  rw [dots_append, dots_eq more, ← List.append_assoc] at whole
  exact (append_cancel_right whole).symm

/-! ## The loop -/

/-- What an accepted name is, from a turn of the loop on. -/
structure Written (buf : Memory) (off base ns no : ℕ) (name : Memory) (result : NameResult)
    (whole : Bool) (own : List Bytes) (rest : List (List Bytes)) (last : ℕ) : Prop where
  encodes : Encodes buf whole off own rest result.off
  fits : whole = true → size (own ++ rest.flatten) < ns - no
  fills : whole = false → size (own ++ rest.flatten) = ns - no ∧ LastFilled no own rest
  name : result.name = store (store name (base + no) (dots (own ++ rest.flatten))) last [0]
  replaced : LastFilled no own rest → last + 1 = base + no + size (own ++ rest.flatten)
  behind : ¬ LastFilled no own rest → last = base + no + size (own ++ rest.flatten)

variable {buf : Memory} {off : ℕ}

theorem nameLoop_written {sz : ℕ} {rdlength : Option ℕ} {name : Memory} {base ns rdepth : ℕ}
    (room : no < ns)
    (accepted : (nameLoop buf sz off rdlength name base ns no rdepth).result.failed = false) :
    ∃ whole own rest last, Written buf off base ns no name
      (nameLoop buf sz off rdlength name base ns no rdepth).result whole own rest last := by
  induction off, rdlength, name, base, ns, no, rdepth using nameLoop.induct buf sz with
  | case1 off rdlength name base ns no rdepth past =>
      rw [nameLoop, if_pos past] at accepted
      cases accepted
  | case2 off rdlength name base ns no rdepth inside jump skip =>
      by_cases marked : 191 < (buf off).toNat
      · by_cases pointer : Pointer buf sz ⟨off, ns - no, rdepth⟩
        · rw [nameLoop_of_pointer pointer] at accepted ⊢
          simp only [Traced.result_bind, Traced.result_pure] at accepted ⊢
          obtain ⟨whole, own, rest, last, inner⟩ :=
            jump (Nat.not_lt.2 pointer.shallow) (by omega) accepted
          refine ⟨whole, [], own :: rest, last, .pointer marked inner.encodes, ?_, ?_, ?_, ?_, ?_⟩
          · simpa using inner.fits
          · simpa [lastFilled_pointer] using inner.fills
          · simpa using inner.name
          · simpa [lastFilled_pointer] using inner.replaced
          · simpa [lastFilled_pointer] using inner.behind
        · rw [(nameLoop_of_marked (by omega) marked pointer).1] at accepted
          cases accepted
      · by_cases zero : (buf off).toNat = 0
        · rw [nameLoop_of_root (by omega) zero] at accepted ⊢
          simp only [nameEnd, Traced.result_bind, Traced.result_pure] at accepted ⊢
          refine ⟨true, [], [], if no ≠ 0 then base + no - 1 else base, .root zero rfl, fun _ => ?_,
            by simp, ?_, ?_, ?_⟩
          · simp
            omega
          · simp [store_nil]
          · intro filled
            have some : no ≠ 0 := by simpa [LastFilled] using filled
            rw [if_pos some]
            simp
            omega
          · intro fresh
            have none : no = 0 := by simpa [LastFilled] using fresh
            simp [none]
        by_cases label : Label buf sz ⟨off, ns - no, rdepth⟩
        · have short := label.short
          have fits := label.fits
          dsimp only at short fits
          rw [nameLoop_of_label label] at accepted ⊢
          simp only [Traced.result_bind] at accepted ⊢
          have length := length_load buf (uint32 (off + 1)) (buf off).toNat
          have text : (load buf (uint32 (off + 1)) (buf off).toNat ++ [46]).length =
              (buf off).toNat + 1 := by simp [length]
          by_cases more : no + (buf off).toNat + 1 < ns
          · rw [if_pos more] at accepted ⊢
            obtain ⟨whole, own, rest, last, inner⟩ := skip marked more more accepted
            refine ⟨whole, _ :: own, rest, last, .label zero short inner.encodes, ?_, ?_, ?_, ?_,
              ?_⟩
            · intro done
              have left := inner.fits done
              simp only [cons_append, size_cons, length]
              omega
            · intro cut
              obtain ⟨fills, filled⟩ := inner.fills cut
              rw [lastFilled_label, length]
              refine ⟨?_, filled⟩
              simp only [cons_append, size_cons, length]
              omega
            · have behind : base + (no + (buf off).toNat + 1) = base + no +
                  (load buf (uint32 (off + 1)) (buf off).toNat ++ [46]).length := by omega
              rw [inner.name, behind, store_append, cons_append, dots_cons, List.append_assoc,
                singleton_append]
            · rw [lastFilled_label, length]
              intro filled
              have at_dot := inner.replaced filled
              simp only [cons_append, size_cons, length]
              omega
            · rw [lastFilled_label, length]
              intro empty
              have at_end := inner.behind empty
              simp only [cons_append, size_cons, length]
              omega
          · rw [if_neg more] at accepted ⊢
            simp only [nameEnd, Traced.result_bind, Traced.result_pure] at accepted ⊢
            have filled : LastFilled no [load buf (uint32 (off + 1)) (buf off).toNat] [] := by
              simp [LastFilled]
            rw [if_pos (by omega : no + (buf off).toNat + 1 ≠ 0)]
            refine ⟨false, [_], [], base + (no + (buf off).toNat + 1) - 1,
              .label zero short (.cut rfl), by simp, ?_, ?_, ?_, ?_⟩
            · intro _
              refine ⟨?_, filled⟩
              simp [length]
              omega
            · simp
            · intro _
              simp [length]
              omega
            · intro empty
              exact (empty filled).elim
        · rw [(nameLoop_of_unmarked (by omega) marked zero label).1] at accepted
          cases accepted

/-! ## The name and its encoding -/

theorem uint32_ne_succ (off : ℕ) : off ≠ uint32 (off + 1) := by
  unfold uint32
  omega

theorem uint32_ne_add_two (off : ℕ) : off ≠ uint32 (off + 2) := by
  unfold uint32
  omega

variable {own' : List Bytes} {rest' : List (List Bytes)} {stop stop' : ℕ}

/-- What has been read of an encoding is the first part of all there is. -/
theorem Encodes.compare (first : Encodes buf false off own rest stop)
    (all : Encodes buf true off own' rest' stop') :
    ∃ tail, own' ++ rest'.flatten = own ++ rest.flatten ++ tail ∧
      (rest = [] → own <+: own' ∧ (tail = [] → stop ≠ stop')) ∧
      (rest ≠ [] → own' = own ∧ stop = stop') := by
  induction first generalizing own' rest' stop' with
  | root zero ended => cases ended
  | cut left =>
      refine ⟨own' ++ rest'.flatten, by simp, fun _ => ⟨List.nil_prefix, fun none => ?_⟩, by simp⟩
      cases all with
      | root zero ended => exact uint32_ne_succ _
      | cut left => cases left
      | label pos short later => simp at none
      | pointer marked later => exact uint32_ne_add_two _
  | label pos short later ih =>
      cases all with
      | root zero ended => exact (pos zero).elim
      | cut left => cases left
      | label pos' short' later' =>
          obtain ⟨tail, labels, same, jumped⟩ := ih later'
          refine ⟨tail, by simp [labels], fun direct => ?_, fun pointed => ?_⟩
          · exact ⟨cons_prefix_cons.mpr ⟨rfl, (same direct).1⟩, (same direct).2⟩
          · rw [(jumped pointed).1]
            exact ⟨rfl, (jumped pointed).2⟩
      | pointer marked later' =>
          simp only [maxLabelSz] at short
          omega
  | pointer marked later ih =>
      cases all with
      | root zero ended => omega
      | cut left => cases left
      | label pos' short' later' =>
          simp only [maxLabelSz] at short'
          omega
      | pointer marked' later' =>
          obtain ⟨tail, labels, -, -⟩ := ih later'
          exact ⟨tail, by simpa using labels, by simp, by simp⟩

/-- There is one way to follow an encoding to its end. -/
theorem Encodes.unique (all : Encodes buf true off own rest stop)
    (other : Encodes buf true off own' rest' stop') : own' = own ∧ rest' = rest ∧ stop' = stop := by
  induction all generalizing own' rest' stop' with
  | root zero ended =>
      cases other with
      | root zero' ended' => exact ⟨rfl, rfl, rfl⟩
      | cut left => cases left
      | label pos short later => exact (pos zero).elim
      | pointer marked later => omega
  | cut left => cases left
  | label pos short later ih =>
      cases other with
      | root zero ended => exact (pos zero).elim
      | cut left => cases left
      | label pos' short' later' =>
          obtain ⟨rfl, rfl, rfl⟩ := ih later'
          exact ⟨rfl, rfl, rfl⟩
      | pointer marked later' =>
          simp only [maxLabelSz] at short
          omega
  | pointer marked later ih =>
      cases other with
      | root zero ended => omega
      | cut left => cases left
      | label pos' short' later' =>
          simp only [maxLabelSz] at short'
          omega
      | pointer marked' later' =>
          obtain ⟨rfl, rfl, rfl⟩ := ih later'
          exact ⟨rfl, rfl, rfl⟩

section Whole

variable {buf : Memory} {off last : ℕ} {name : Memory} {result : NameResult} {own : List Bytes}
  {rest : List (List Bytes)}

/-- A name that was read to its end. -/
theorem Written.faithful_iff_of_whole
    (written : Written buf off 0 maxHostNameSz 0 name result true own rest last) :
    Faithful buf off result ↔ Unambiguous buf off := by
  have room := written.fits rfl
  have text : Holds result.name (dotted (own ++ rest.flatten)) ↔
      own ++ rest.flatten = [] ∨ (own :: rest).getLast? ≠ some [] := by
    rw [written.name, Nat.zero_add]
    by_cases filled : LastFilled 0 own rest
    · have replaced := written.replaced filled
      rw [Nat.zero_add] at replaced
      have some : own ++ rest.flatten ≠ [] := by
        intro none
        rw [none, size_nil] at replaced
        omega
      exact iff_of_true (holds_of_filled name some replaced) (.inr (lastFilled_iff.mp filled))
    · have behind := written.behind filled
      rw [Nat.zero_add] at behind
      rw [behind]
      by_cases none : own ++ rest.flatten = []
      · refine iff_of_true ?_ (.inl none)
        rw [none]
        exact ⟨rfl, by simp [dotted, store_one]⟩
      · refine iff_of_false (not_holds_of_behind name none) ?_
        exact not_or.mpr ⟨none, fun filled' => filled (lastFilled_iff.mpr filled')⟩
  constructor
  · rintro ⟨own', rest', stop, all, -, holds⟩
    obtain ⟨rfl, rfl, -⟩ := written.encodes.unique all
    exact ⟨_, _, _, all, .inl ⟨room, text.mp holds⟩⟩
  · rintro ⟨own', rest', stop, all, condition⟩
    obtain ⟨rfl, rfl, rfl⟩ := written.encodes.unique all
    refine ⟨_, _, _, all, rfl, text.mpr ?_⟩
    rcases condition with ⟨-, last⟩ | ⟨full, -⟩
    · exact last
    · rw [Nat.sub_zero] at room
      omega

/-- A name whose decoding was stopped by the end of the buffer. -/
theorem Written.faithful_iff_of_cut
    (written : Written buf off 0 maxHostNameSz 0 name result false own rest last) :
    Faithful buf off result ↔ Unambiguous buf off := by
  obtain ⟨full, filled⟩ := written.fills rfl
  rw [Nat.sub_zero] at full
  have replaced := written.replaced filled
  rw [Nat.zero_add] at replaced
  have some : own ++ rest.flatten ≠ [] := by
    intro none
    rw [none] at full
    cases full
  have text : Holds result.name (dotted (own ++ rest.flatten)) := by
    rw [written.name]
    exact holds_of_filled name some replaced
  constructor
  · rintro ⟨own', rest', stop, all, stops, holds⟩
    obtain ⟨tail, labels, direct, jumped⟩ := written.encodes.compare all
    have whole : tail = [] := by
      by_contra more
      rw [labels, dotted_append some more, written.name, Nat.zero_add] at holds
      have inside : last < (dots (own ++ rest.flatten) ++ dotted tail).length := by
        rw [length_append]
        rw [size] at replaced
        omega
      have zero := load_eq_iff.mp holds.1 last inside
      rw [store_one, if_pos rfl, getElem_append_left (by rw [size] at replaced; omega)] at zero
      have split := dots_eq some
      have at_dot : last = (dotted (own ++ rest.flatten)).length := by
        rw [size, split, length_append] at replaced
        simpa using replaced
      simp only [split, at_dot, getElem_concat_length] at zero
      exact absurd zero (by decide)
    rw [whole, List.append_nil] at labels
    have pointed : rest ≠ [] := fun none => (direct none).2 whole stops
    refine ⟨own', rest', stop, all, .inr ⟨by rw [labels, full], ?_⟩⟩
    rw [(jumped pointed).1]
    rw [size_append] at full
    have later : size rest.flatten ≠ 0 := size_eq_zero_iff.not.mpr (filled.flatten_ne_nil pointed)
    omega
  · rintro ⟨own', rest', stop, all, condition⟩
    obtain ⟨tail, labels, direct, jumped⟩ := written.encodes.compare all
    rw [labels, size_append, full] at condition
    rcases condition with ⟨short, -⟩ | ⟨same, early⟩
    · omega
    · have whole : tail = [] := size_eq_zero_iff.mp (by omega)
      have pointed : rest ≠ [] := by
        intro none
        obtain ⟨more, parts⟩ := (direct none).1
        rw [← parts, size_append] at early
        rw [none] at full
        simp at full
        omega
      refine ⟨own', rest', stop, all, (jumped pointed).2, ?_⟩
      rwa [labels, whole, List.append_nil]

end Whole

/--
An accepted name is that of its encoding, with the offset behind it, exactly if the decoding does
not end at a pointer to a name without labels and does not come to the end of the buffer, unless it
does so behind a pointer and with the last label.
-/
theorem nameUnpack_faithful_iff (buf : Memory) (sz off : ℕ) (rdlength : Option ℕ) (name : Memory)
    (rdepth : ℕ)
    (accepted : (nameUnpack buf sz off rdlength name maxHostNameSz rdepth).result.failed = false) :
    Faithful buf off (nameUnpack buf sz off rdlength name maxHostNameSz rdepth).result ↔
      Unambiguous buf off := by
  have loop : (nameUnpack buf sz off rdlength name maxHostNameSz rdepth).result =
      (nameLoop buf sz off rdlength name 0 maxHostNameSz 0 rdepth).result := rfl
  rw [loop] at accepted ⊢
  obtain ⟨whole, own, rest, last, written⟩ := nameLoop_written (by decide) accepted
  cases whole with
  | true => exact written.faithful_iff_of_whole
  | false => exact written.faithful_iff_of_cut

/-- The message `"\x03bar\x00\x03foo\xc0\x00"`. -/
def pointedName : Memory := fun i => ([3, 98, 97, 114, 0, 3, 102, 111, 111, 192, 0] : Bytes).getD i 0

/-- The name at the offset 5 is `foo.bar`, with the last label behind the pointer. -/
theorem nameUnpack_faithful_pointedName :
    Faithful pointedName 5 (nameUnpack pointedName 11 5 none (fun _ => 0) maxHostNameSz 0).result := by
  have target : Encodes pointedName true 0 [[98, 97, 114]] [] 5 :=
    .label (by decide) (by decide) (.root (by decide) rfl)
  have pointer : Encodes pointedName true 9 [] [[[98, 97, 114]]] 11 :=
    .pointer (by decide) (by rwa [show word pointedName 9 % 2 ^ 14 = 0 by decide])
  have encodes : Encodes pointedName true 5 [[102, 111, 111]] [[[98, 97, 114]]] 11 :=
    .label (by decide) (by decide) pointer
  exact (nameUnpack_faithful_iff pointedName 11 5 none (fun _ => 0) 0 (by decide +kernel)).mpr
    ⟨_, _, _, encodes, .inl ⟨by decide, .inr (by decide)⟩⟩

/-- The message `"\x00\x03foo\xc0\x00"`. -/
def pointedRoot : Memory := fun i => ([0, 3, 102, 111, 111, 192, 0] : Bytes).getD i 0

theorem encodes_pointedRoot : Encodes pointedRoot true 1 [[102, 111, 111]] [[]] 7 :=
  .label (by decide) (by decide) (.pointer (by decide) (.root (by decide) rfl))

/-- The name at the offset 1 is accepted with a dot at its end. -/
theorem not_faithful_pointedRoot :
    (nameUnpack pointedRoot 7 1 none (fun _ => 0) maxHostNameSz 0).result.failed = false ∧
      ¬ Faithful pointedRoot 1
        (nameUnpack pointedRoot 7 1 none (fun _ => 0) maxHostNameSz 0).result := by
  refine ⟨by decide +kernel, ?_⟩
  rintro ⟨own, rest, stop, all, -, -, zero⟩
  obtain ⟨rfl, rfl, rfl⟩ := encodes_pointedRoot.unique all
  have dot : (nameUnpack pointedRoot 7 1 none (fun _ => 0) maxHostNameSz 0).result.name 3 = 46 := by
    decide +kernel
  exact absurd (dot.symm.trans zero) (by decide)

end Rfc1035
end Squid
