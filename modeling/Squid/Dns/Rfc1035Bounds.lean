import Squid.Dns.Rfc1035Layout

/-!
# What unpacking a DNS message touches

Each function is compared with the layout: it stays inside the message and the buffers unless
the part it unpacks goes beyond the message, and it accepts the part exactly where it ends at the
offset returned.  A pointer is copied before its second byte is known to be there, so a message
whose last byte starts one is read beyond its end.
-/

namespace Squid
namespace Rfc1035

open CRuntime Traced

variable {count first sz : ℕ}

theorem safe_read_iff : (Access.read first count).Safe sz ↔ count = 0 ∨ first + count ≤ sz := by
  constructor
  · intro safe
    by_contra outside
    have := safe (first + count - 1) (by omega) (by omega)
    omega
  · intro inside index _ _
    omega

theorem safe_write (fits : first + count ≤ maxHostNameSz) : (Access.write first count).Safe sz := by
  intro index _ _
  omega

theorem safe_assertion {condition : Prop} [Decidable condition] (holds : condition) :
    (Access.assertion (decide condition)).Safe sz := decide_eq_true holds

/-! ## Names -/

section Names

variable {buf : Memory} {sz off : ℕ} {rdlength : Option ℕ} {name : Memory} {base ns no rdepth : ℕ}

theorem all_nameEnd (counted : no ≤ ns) (pos : 0 < ns) (fits : base + ns ≤ maxHostNameSz) :
    (nameEnd off rdlength name base ns no).All (Access.Safe sz) := by
  have last : (if no ≠ 0 then base + no - 1 else base) + 1 ≤ maxHostNameSz := by
    split <;> omega
  simp only [nameEnd, Traced.all_bind, all_emit, all_pure, and_true]
  exact ⟨safe_write last, safe_assertion counted⟩

variable {p : Place}

/-- Nothing is decoded behind the message. -/
theorem not_dangles_of_le (past : sz ≤ p.off) : ¬ Dangles buf sz p := by
  rw [dangles_iff]
  rintro (dangling | ⟨q, step, -⟩)
  · have := dangling.last
    omega
  · cases step with
    | label label => exact absurd label.inside (by omega)
    | pointer pointer => exact absurd pointer.inside (by omega)

theorem not_ends_of_le {e : ℕ} (past : sz ≤ p.off) : ¬ Ends buf sz p e := by
  intro ends
  cases ends with
  | root inside => omega
  | full label => exact absurd label.inside (by omega)
  | label label => exact absurd label.inside (by omega)
  | pointer pointer => exact absurd pointer.inside (by omega)

/-- Both bytes of a compression pointer can be read unless it is dangling. -/
theorem safe_second_iff (room : ℕ) (inside : off < sz) (marked : 191 < (buf off).toNat)
    (shallow : rdepth ≤ 64) :
    (Access.read off 2).Safe sz ↔ ¬ Dangling buf sz ⟨off, room, rdepth⟩ := by
  rw [safe_read_iff]
  constructor
  · intro read dangling
    have last := dangling.last
    dsimp only at last
    omega
  · intro complete
    by_contra cut
    exact complete ⟨by dsimp only; omega, marked, shallow⟩

/-! ### One turn of the loop -/

theorem nameLoop_of_pointer (pointer : Pointer buf sz ⟨off, ns - no, rdepth⟩) :
    nameLoop buf sz off rdlength name base ns no rdepth = (do
      Traced.emit (.read off 1)
      Traced.emit (.read off 2)
      Traced.emit (.assertion (0 < ns - no))
      let inner ← nameLoop buf sz (word buf off % 2 ^ 14) rdlength name (base + no) (ns - no) 0
        (rdepth + 1)
      return { inner with off := uint32 (off + 2) }) := by
  obtain ⟨inside, marked, shallow, ends, target⟩ := pointer
  dsimp only at inside marked shallow ends target
  rw [nameLoop, if_neg (by omega)]
  simp only [if_pos marked, if_neg (show ¬ 64 < rdepth by omega),
    if_neg (show ¬ sz < uint32 (off + 2) by omega),
    if_neg (show ¬ sz ≤ word buf off % 2 ^ 14 by omega)]

/-- Behind a marked byte that is no pointer, the decoding fails. -/
theorem nameLoop_of_marked (inside : off < sz) (marked : 191 < (buf off).toNat)
    (broken : ¬ Pointer buf sz ⟨off, ns - no, rdepth⟩) :
    (nameLoop buf sz off rdlength name base ns no rdepth).result.failed = true ∧
      ((nameLoop buf sz off rdlength name base ns no rdepth).All (Access.Safe sz) ↔
        ¬ Dangling buf sz ⟨off, ns - no, rdepth⟩) := by
  have first : (Access.read off 1).Safe sz := safe_read_iff.2 (by omega)
  rw [nameLoop, if_neg (by omega)]
  simp only [if_pos marked]
  by_cases deep : 64 < rdepth
  · have safe : ¬ Dangling buf sz ⟨off, ns - no, rdepth⟩ := by
      intro dangling
      exact absurd dangling.shallow (by simp only; omega)
    simp [deep, first, safe]
  · have second := safe_second_iff (ns - no) inside marked (Nat.le_of_not_lt deep)
    simp only [if_neg deep]
    by_cases short : sz < uint32 (off + 2)
    · simp [short, first, second]
    · have far : sz ≤ word buf off % 2 ^ 14 := by
        by_contra near
        exact broken ⟨inside, marked, by dsimp only; omega, by dsimp only; omega,
          by dsimp only; omega⟩
      simp only [if_neg short, if_pos far]
      simp [first, second]

theorem nameLoop_of_root (inside : off < sz) (zero : (buf off).toNat = 0) :
    nameLoop buf sz off rdlength name base ns no rdepth = (do
      Traced.emit (.read off 1)
      nameEnd (uint32 (off + 1)) rdlength name base ns no) := by
  rw [nameLoop, if_neg (by omega)]
  simp only [zero, maxLabelSz, if_true, if_neg (show ¬ 191 < 0 by omega),
    if_neg (show ¬ 63 < 0 by omega)]

theorem nameLoop_of_label (label : Label buf sz ⟨off, ns - no, rdepth⟩) :
    nameLoop buf sz off rdlength name base ns no rdepth = (do
      Traced.emit (.read off 1)
      Traced.emit (.read (uint32 (off + 1)) (buf off).toNat)
      Traced.emit (.write (base + no) (buf off).toNat)
      Traced.emit (.write (base + no + (buf off).toNat) 1)
      let name := store name (base + no) (load buf (uint32 (off + 1)) (buf off).toNat ++ [46])
      let rdlength := rdlength.map fun length => uint16 (length + (buf off).toNat + 1)
      if no + (buf off).toNat + 1 < ns then
        nameLoop buf sz (uint32 (uint32 (off + 1) + (buf off).toNat)) rdlength name base ns
          (no + (buf off).toNat + 1) rdepth
      else
        nameEnd (uint32 (uint32 (off + 1) + (buf off).toNat)) rdlength name base ns
          (no + (buf off).toNat + 1)) := by
  obtain ⟨inside, pos, short, fits, ends⟩ := label
  dsimp only at inside pos short fits ends
  rw [nameLoop, if_neg (by omega)]
  simp only [maxLabelSz] at short ⊢
  simp only [if_neg (show ¬ 191 < (buf off).toNat by omega),
    if_neg (show ¬ 63 < (buf off).toNat by omega), if_neg pos,
    if_neg (show ¬ ns - no - 1 < (buf off).toNat by omega),
    if_neg (show ¬ sz ≤ uint32 (off + 1) + (buf off).toNat by omega)]

/-- Behind any other byte, the decoding fails. -/
theorem nameLoop_of_unmarked (inside : off < sz) (unmarked : ¬ 191 < (buf off).toNat)
    (pos : (buf off).toNat ≠ 0) (broken : ¬ Label buf sz ⟨off, ns - no, rdepth⟩) :
    (nameLoop buf sz off rdlength name base ns no rdepth).result.failed = true ∧
      (nameLoop buf sz off rdlength name base ns no rdepth).All (Access.Safe sz) := by
  have first : (Access.read off 1).Safe sz := safe_read_iff.2 (by omega)
  rw [nameLoop, if_neg (by omega)]
  simp only [if_neg unmarked, if_neg pos]
  by_cases reserved : maxLabelSz < (buf off).toNat
  · simp [reserved, first]
  · simp only [if_neg reserved]
    by_cases large : ns - no - 1 < (buf off).toNat
    · simp [large, first]
    · have long : sz ≤ uint32 (off + 1) + (buf off).toNat := by
        by_contra inner
        exact broken ⟨inside, pos, by dsimp only; omega, by dsimp only; omega, by dsimp only; omega⟩
      simp [large, long, first]

section

variable (label : Label buf sz ⟨off, ns - no, rdepth⟩)
include label

theorem safe_label : (Access.read (uint32 (off + 1)) (buf off).toNat).Safe sz :=
  safe_read_iff.2 (.inr (Nat.le_of_lt label.ends))

theorem safe_label_text (room : no < ns) (fits : base + ns ≤ maxHostNameSz) :
    (Access.write (base + no) (buf off).toNat).Safe sz := by
  have used := label.fits
  dsimp only at used
  exact safe_write (by omega)

theorem safe_label_dot (room : no < ns) (fits : base + ns ≤ maxHostNameSz) :
    (Access.write (base + no + (buf off).toNat) 1).Safe sz := by
  have used := label.fits
  dsimp only at used
  exact safe_write (by omega)

end

/-! ### The whole name -/

/-- A name is decoded inside the message and the buffer, unless it comes to a dangling pointer. -/
theorem all_nameLoop_iff (room : no < ns) (fits : base + ns ≤ maxHostNameSz) :
    (nameLoop buf sz off rdlength name base ns no rdepth).All (Access.Safe sz) ↔
      ¬ Dangles buf sz ⟨off, ns - no, rdepth⟩ := by
  induction off, rdlength, name, base, ns, no, rdepth using nameLoop.induct buf sz with
  | case1 off rdlength name base ns no rdepth past =>
      rw [nameLoop, if_pos past]
      simpa using not_dangles_of_le past
  | case2 off rdlength name base ns no rdepth inside jump skip =>
      have first : (Access.read off 1).Safe sz := safe_read_iff.2 (by omega)
      by_cases marked : 191 < (buf off).toNat
      · rw [dangles_pointer_iff marked]
        by_cases pointer : Pointer buf sz ⟨off, ns - no, rdepth⟩
        · have inner := jump (Nat.not_lt.2 pointer.shallow) (by omega) (by omega)
          have second := safe_second_iff (ns - no) pointer.inside marked pointer.shallow
          have asserted : (Access.assertion (0 < ns - no)).Safe sz := safe_assertion (by omega)
          rw [nameLoop_of_pointer pointer]
          simp only [Traced.all_bind, all_emit, all_pure, first, asserted, inner,
            second, pointer, true_and, and_true, not_or, Place.jump, Nat.sub_zero]
        · rw [(nameLoop_of_marked (by omega) marked pointer).2]
          simp [pointer]
      · rw [dangles_label_iff marked]
        by_cases zero : (buf off).toNat = 0
        · have none : ¬ Label buf sz ⟨off, ns - no, rdepth⟩ := fun label => label.pos zero
          have ended : (nameEnd (uint32 (off + 1)) rdlength name base ns no).All (Access.Safe sz) :=
            all_nameEnd (Nat.le_of_lt room) (by omega) fits
          rw [nameLoop_of_root (by omega) zero]
          simp [first, none, ended]
        by_cases label : Label buf sz ⟨off, ns - no, rdepth⟩
        · rw [nameLoop_of_label label]
          simp only [Traced.all_bind, all_emit, first, label, true_and,
            safe_label label, safe_label_text label room fits, safe_label_dot label room fits]
          by_cases more : no + (buf off).toNat + 1 < ns
          · have same : ns - (no + (buf off).toNat + 1) = ns - no - ((buf off).toNat + 1) :=
              by omega
            rw [if_pos more, skip marked more more fits, same]
            exact ⟨fun safe left => safe left.2,
              fun safe left => safe ⟨by simp [Place.skip]; omega, left⟩⟩
          · rw [if_neg more]
            have used := label.fits
            dsimp only at used
            have full : (Place.skip buf ⟨off, ns - no, rdepth⟩).room = 0 := by
              simp only [Place.skip]
              omega
            simp only [full, ne_eq, not_true_eq_false, false_and, not_false_eq_true, iff_true]
            exact all_nameEnd (by omega) (by omega) fits
        · simpa [label] using (nameLoop_of_unmarked (by omega) marked zero label).2

/-- A name is accepted exactly where it ends, at the offset returned. -/
theorem nameLoop_ends_iff {next : ℕ} (room : no < ns) :
    (nameLoop buf sz off rdlength name base ns no rdepth).result.failed = false ∧
        (nameLoop buf sz off rdlength name base ns no rdepth).result.off = next ↔
      Ends buf sz ⟨off, ns - no, rdepth⟩ next := by
  induction off, rdlength, name, base, ns, no, rdepth using nameLoop.induct buf sz
    generalizing next with
  | case1 off rdlength name base ns no rdepth past =>
      rw [nameLoop, if_pos past]
      simpa using not_ends_of_le past
  | case2 off rdlength name base ns no rdepth inside jump skip =>
      by_cases marked : 191 < (buf off).toNat
      · rw [ends_pointer_iff marked]
        by_cases pointer : Pointer buf sz ⟨off, ns - no, rdepth⟩
        · have inner : ∀ e, _ ↔ Ends buf sz (Place.jump buf ⟨off, ns - no, rdepth⟩) e :=
            fun e => jump (Nat.not_lt.2 pointer.shallow) (by omega)
          rw [nameLoop_of_pointer pointer]
          simp only [result_bind, result_pure, pointer, true_and, ← inner,
            exists_and_left, exists_eq', and_true]
          exact ⟨fun ⟨accepted, stop⟩ => ⟨stop.symm, accepted⟩,
            fun ⟨stop, accepted⟩ => ⟨accepted, stop.symm⟩⟩
        · simp [(nameLoop_of_marked (by omega) marked pointer).1, pointer]
      · by_cases zero : (buf off).toNat = 0
        · rw [nameLoop_of_root (by omega) zero, ends_root_iff zero]
          simp [nameEnd, Nat.lt_of_not_le inside, eq_comm]
        by_cases label : Label buf sz ⟨off, ns - no, rdepth⟩
        · rw [nameLoop_of_label label, ends_label_iff marked zero]
          simp only [result_bind, label, true_and]
          by_cases more : no + (buf off).toNat + 1 < ns
          · have same : ns - (no + (buf off).toNat + 1) = ns - no - ((buf off).toNat + 1) :=
              by omega
            have left : (Place.skip buf ⟨off, ns - no, rdepth⟩).room ≠ 0 := by
              simp only [Place.skip]
              omega
            rw [if_pos more, skip marked more more, same]
            simp only [left, false_and, ne_eq, not_false_eq_true, true_and, false_or]
            rfl
          · have full : (Place.skip buf ⟨off, ns - no, rdepth⟩).room = 0 := by
              simp only [Place.skip]
              omega
            rw [if_neg more]
            simp only [full, true_and, ne_eq, not_true_eq_false, false_and, or_false]
            simp [nameEnd, Place.skip, eq_comm]
        · rw [ends_label_iff marked zero]
          simp [(nameLoop_of_unmarked (by omega) marked zero label).1, label]

theorem all_nameUnpack_iff :
    (nameUnpack buf sz off rdlength name maxHostNameSz 0).All (Access.Safe sz) ↔
      ¬ Dangles buf sz (nameAt off) := by
  have asserted : (Access.assertion (0 < maxHostNameSz)).Safe sz := safe_assertion (by decide)
  simp only [nameUnpack, Traced.all_bind, all_emit, asserted, true_and]
  exact all_nameLoop_iff (by decide) (by decide)

theorem nameUnpack_ends_iff (rdlength : Option ℕ) (name : Memory) {next : ℕ} :
    (nameUnpack buf sz off rdlength name maxHostNameSz 0).result.failed = false ∧
        (nameUnpack buf sz off rdlength name maxHostNameSz 0).result.off = next ↔
      Ends buf sz (nameAt off) next :=
  nameLoop_ends_iff (by decide)

/-- What depends on the offset behind a name, where the name is accepted. -/
theorem exists_ends_iff (rdlength : Option ℕ) (name : Memory) {property : ℕ → Prop} :
    (∃ next, Ends buf sz (nameAt off) next ∧ property next) ↔
      (nameUnpack buf sz off rdlength name maxHostNameSz 0).result.failed = false ∧
        property (nameUnpack buf sz off rdlength name maxHostNameSz 0).result.off := by
  constructor
  · rintro ⟨next, ends, holds⟩
    obtain ⟨accepted, rfl⟩ := (nameUnpack_ends_iff rdlength name).2 ends
    exact ⟨accepted, holds⟩
  · rintro ⟨accepted, holds⟩
    exact ⟨_, (nameUnpack_ends_iff rdlength name).1 ⟨accepted, rfl⟩, holds⟩

end Names

/-! ## Fields -/

section Fields

variable {buf : Memory} {sz off : ℕ}

/-- Fields are read at their wrapped offsets, inside the message unless one straddles 2 ^ 32. -/
theorem safe_fields_iff {total : ℕ} {fields : List (ℕ × ℕ)} (start : off < 2 ^ 32)
    (small : total ≤ 10) (inside : uint32 (off + total) ≤ sz)
    (within : ∀ field ∈ fields, field.1 + field.2 ≤ total ∧ field.2 ≠ 0) :
    (∀ field ∈ fields, (Access.read (uint32 (off + field.1)) field.2).Safe sz) ↔
      ¬ Straddles sz off fields := by
  simp only [Straddles, not_exists, not_and]
  refine forall₂_congr fun field member => ?_
  obtain ⟨bound, pos⟩ := within field member
  rw [safe_read_iff]
  unfold uint32 at inside ⊢
  omega

theorem safe_queryFields_iff (start : off < 2 ^ 32) (inside : uint32 (off + 4) ≤ sz) :
    (Access.read off 2).Safe sz ∧ (Access.read (uint32 (off + 2)) 2).Safe sz ↔
      ¬ Straddles sz off queryFields := by
  rw [← safe_fields_iff start (by omega) inside (by decide)]
  simp [queryFields, uint32_eq start]

theorem safe_recordFields_iff (start : off < 2 ^ 32) (inside : uint32 (off + 10) ≤ sz) :
    (Access.read off 2).Safe sz ∧ (Access.read (uint32 (off + 2)) 2).Safe sz ∧
        (Access.read (uint32 (off + 4)) 4).Safe sz ∧ (Access.read (uint32 (off + 8)) 2).Safe sz ↔
      ¬ Straddles sz off recordFields := by
  rw [← safe_fields_iff start (by omega) inside (by decide)]
  simp [recordFields, uint32_eq start]

end Fields

/-! ## Queries and records -/

section Records

variable {dnsCname : Bool} {fresh buf : Memory} {sz off : ℕ}

theorem all_queryUnpack_iff :
    (queryUnpack buf sz off).All (Access.Safe sz) ↔
      ¬ (Dangles buf sz (nameAt off) ∨
        ∃ mid, Ends buf sz (nameAt off) mid ∧ uint32 (mid + 4) ≤ sz ∧
          Straddles sz mid queryFields) := by
  have start := fun accepted =>
    ((@nameUnpack_ends_iff buf sz off none (fun _ => 0) _).1 ⟨accepted, rfl⟩).lt
  rw [exists_ends_iff none fun _ => 0]
  simp only [queryUnpack, Traced.all_bind, all_nameUnpack_iff, not_or]
  refine and_congr_right fun _ => ?_
  generalize (nameUnpack buf sz off none (fun _ => 0) maxHostNameSz 0).result = name at start ⊢
  cases failed : name.failed with
  | true => simp
  | false =>
      by_cases short : sz < uint32 (name.off + 4)
      · simp [short]
      · have inside := Nat.le_of_not_lt short
        have fields := safe_queryFields_iff (start failed) inside
        simp only [short, inside, ite_false, Bool.false_eq_true, Traced.all_bind, all_emit,
          all_pure, and_true, true_and, fields]

variable {property : ℕ → Prop}

/-- What depends on the offset behind the query, where the query is accepted. -/
theorem exists_queryEnds_iff :
    (∃ mid, Ends buf sz (nameAt off) mid ∧ uint32 (mid + 4) ≤ sz ∧ property (uint32 (mid + 4))) ↔
      (queryUnpack buf sz off).result.1.isSome ∧ property (queryUnpack buf sz off).result.2 := by
  rw [exists_ends_iff none fun _ => 0]
  simp only [queryUnpack, result_bind]
  generalize (nameUnpack buf sz off none (fun _ => 0) maxHostNameSz 0).result = name
  cases failed : name.failed with
  | true => simp
  | false =>
      by_cases short : sz < uint32 (name.off + 4)
      · simp [short]
      · simp [short, Nat.le_of_not_lt short]

variable {fields : ℕ → Bytes → Record} {rdlength type : ℕ}

theorem all_rdataUnpack_iff (start : off < 2 ^ 32) (inside : uint32 (off + rdlength) ≤ sz) :
    (rdataUnpack dnsCname fresh buf sz off rdlength fields type).All (Access.Safe sz) ↔
      ¬ DataOverruns dnsCname buf sz type off rdlength := by
  have asserted : (Access.assertion (uint32 (off + rdlength) ≤ sz)).Safe sz := safe_assertion inside
  unfold rdataUnpack
  by_cases named : holdsName dnsCname type
  · have data : DataOverruns dnsCname buf sz type off rdlength ↔ Dangles buf sz (nameAt off) := by
      simp only [DataOverruns, inside, if_pos named, true_and]
    rw [if_pos named, Traced.all_bind, all_nameUnpack_iff, data]
    refine and_iff_left ?_
    split
    · exact all_pure _ _
    · split
      · exact all_pure _ _
      · exact Traced.all_bind.2 ⟨all_emit.2 asserted, all_pure _ _⟩
  · have empty : rdlength = 0 → off ≤ sz := by
      rintro rfl
      rwa [Nat.add_zero, uint32_eq start] at inside
    simp only [if_neg named, Traced.all_bind, all_emit, all_pure, asserted, and_true]
    simp only [DataOverruns, inside, if_neg named, true_and, safe_read_iff]
    omega

variable {next : ℕ}

theorem rdataUnpack_some_iff :
    (rdataUnpack dnsCname fresh buf sz off rdlength fields type).result.1.isSome ∧
        (rdataUnpack dnsCname fresh buf sz off rdlength fields type).result.2 = next ↔
      NameInside dnsCname buf sz type off rdlength ∧ next = uint32 (off + rdlength) := by
  unfold rdataUnpack NameInside
  by_cases named : holdsName dnsCname type
  · rw [exists_ends_iff (some 0) fresh, if_pos named, result_bind]
    simp only [named, true_imp_iff]
    generalize (nameUnpack buf sz off (some 0) fresh maxHostNameSz 0).result = name
    cases failed : name.failed with
    | true => simp
    | false =>
        by_cases beyond : uint32 (off + rdlength) < name.off
        · simp [beyond]
        · simp [beyond, Nat.le_of_not_lt beyond, eq_comm]
  · rw [if_neg named]
    simp [named, eq_comm]

theorem all_rrUnpack_iff :
    (rrUnpack dnsCname fresh buf sz off).All (Access.Safe sz) ↔
      ¬ RecordOverruns dnsCname buf sz off := by
  have start := fun accepted =>
    ((@nameUnpack_ends_iff buf sz off none (fun _ => 0) _).1 ⟨accepted, rfl⟩).lt
  rw [RecordOverruns, exists_ends_iff none fun _ => 0]
  simp only [rrUnpack, Traced.all_bind, all_nameUnpack_iff, not_or]
  refine and_congr_right fun _ => ?_
  generalize (nameUnpack buf sz off none (fun _ => 0) maxHostNameSz 0).result = name at start ⊢
  cases failed : name.failed with
  | true => simp
  | false =>
      by_cases short : sz < uint32 (name.off + 10)
      · simp [short]
      · have inside := Nat.le_of_not_lt short
        have fields := safe_recordFields_iff (start failed) inside
        simp only [short, inside, ite_false, Bool.false_eq_true, Traced.all_bind, all_emit,
          true_and, not_or]
        rw [← fields, and_assoc, and_assoc, and_assoc]
        refine and_congr_right fun _ => and_congr_right fun _ => and_congr_right fun _ =>
          and_congr_right fun _ => ?_
        split
        · rename_i truncated
          simp [DataOverruns, Nat.not_le.2 truncated]
        · rename_i whole
          exact all_rdataUnpack_iff (uint32_lt _) (Nat.le_of_not_lt whole)

theorem rrUnpack_some_iff :
    (rrUnpack dnsCname fresh buf sz off).result.1.isSome ∧
        (rrUnpack dnsCname fresh buf sz off).result.2 = next ↔
      RecordEnds dnsCname buf sz off next := by
  rw [RecordEnds, exists_ends_iff none fun _ => 0]
  simp only [rrUnpack, result_bind]
  generalize (nameUnpack buf sz off none (fun _ => 0) maxHostNameSz 0).result = name
  cases failed : name.failed with
  | true => simp
  | false =>
      by_cases short : sz < uint32 (name.off + 10)
      · simp [short]
      · simp only [short, Nat.le_of_not_lt short, ite_false, Bool.false_eq_true, result_bind,
          true_and]
        split
        · rename_i truncated
          simp [Nat.not_le.2 truncated]
        · rename_i whole
          rw [rdataUnpack_some_iff]
          simp [Nat.le_of_not_lt whole]

/-- What depends on the offset behind a record, where the record is accepted. -/
theorem exists_recordEnds_iff (fresh : Memory) :
    (∃ next, RecordEnds dnsCname buf sz off next ∧ property next) ↔
      (rrUnpack dnsCname fresh buf sz off).result.1.isSome ∧
        property (rrUnpack dnsCname fresh buf sz off).result.2 := by
  constructor
  · rintro ⟨next, ends, holds⟩
    obtain ⟨accepted, rfl⟩ := (@rrUnpack_some_iff dnsCname fresh buf sz off next).2 ends
    exact ⟨accepted, holds⟩
  · rintro ⟨accepted, holds⟩
    exact ⟨_, rrUnpack_some_iff.1 ⟨accepted, rfl⟩, holds⟩

end Records

/-! ## Messages -/

section Messages

variable {dnsCname : Bool} {fresh buf : Memory} {sz : ℕ}

/-- By induction on the number of answers left: each is a record, and the next one follows it. -/
theorem all_answersUnpack_iff {left off : ℕ} :
    (answersUnpack dnsCname fresh buf sz left off).All (Access.Safe sz) ↔
      ¬ AnswersOverrun dnsCname buf sz left off := by
  induction left generalizing off with
  | zero => simpa [answersUnpack] using answersOverrun_zero
  | succ left ih =>
      rw [answersUnpack, answersOverrun_succ_iff]
      by_cases past : sz ≤ off
      · simp [past, Nat.not_lt.2 past]
      · rw [exists_recordEnds_iff fresh]
        simp only [past, ite_false, Nat.lt_of_not_le past, true_and, not_or, Traced.all_bind,
          all_rrUnpack_iff]
        refine and_congr_right fun _ => ?_
        generalize (rrUnpack dnsCname fresh buf sz off).result = record
        obtain ⟨rr, next⟩ := record
        cases rr with
        | none => simp
        | some rr => simp [ih]

theorem all_headerUnpack : (headerUnpack buf sz).All (Access.Safe sz) := by
  have asserted : (Access.assertion true).Safe sz := rfl
  unfold headerUnpack
  split
  · simp [asserted]
  · simp [asserted, safe_read_iff]
    omega

/--
Unpacking a message reads only inside the message, writes only inside the buffers for names and
fails no assertion, exactly if neither the query nor an answer goes beyond the message.
-/
theorem all_messageUnpack_iff (dnsCname : Bool) (fresh buf : Memory) (sz : ℕ)
    (before : Option Message) :
    (messageUnpack dnsCname fresh buf sz before).All (Access.Safe sz) ↔
      ¬ MessageOverruns dnsCname buf sz := by
  rw [messageUnpack, Traced.all_bind, MessageOverruns]
  simp only [all_headerUnpack, true_and]
  by_cases short : sz < 12
  · simp [headerUnpack, short, Nat.not_le.2 short]
  · simp only [headerUnpack, short, ite_false, result_bind, result_pure,
      Nat.le_of_not_lt short, true_and]
    by_cases single : (header buf).qdcount = 1
    · have answers := @exists_queryEnds_iff buf sz 12 fun next =>
        (header buf).rcode = 0 ∧ AnswersOverrun dnsCname buf sz (header buf).ancount next
      simp only [single, ne_eq, not_true_eq_false, ite_false, Traced.all_bind, all_queryUnpack_iff,
        true_and, and_or_left, exists_or, ← or_assoc]
      rw [answers]
      simp only [not_or, and_assoc]
      refine and_congr_right fun _ => and_congr_right fun _ => ?_
      generalize (queryUnpack buf sz 12).result = query
      obtain ⟨question, next⟩ := query
      cases question with
      | none => simp
      | some question =>
          by_cases answered : (header buf).rcode = 0
          · by_cases none : (header buf).ancount = 0
            · simp [answered, none, answersOverrun_zero]
            · simp only [answered, none, ite_false, not_true_eq_false, Traced.all_bind,
                all_answersUnpack_iff, Option.isSome_some, true_and]
              refine and_iff_left ?_
              split <;> exact all_pure _ _
          · simp [answered]
    · simp [single]

/-- A reply that ends behind the first byte of a compression pointer. -/
def cutReply : Memory := fun index => [0, 0, 128, 0, 0, 1, 0, 0, 0, 0, 0, 0, 192].getD index 0

/-- The byte behind the reply is read. -/
theorem messageUnpack_cutReply :
    ¬ (messageUnpack false (fun _ => 0) cutReply 13 none).All (Access.Safe 13) := by
  have dangles : Dangles cutReply 13 (nameAt 12) := ⟨nameAt 12, .refl, rfl, by decide, by decide⟩
  have query : ¬ (queryUnpack cutReply 13 12).All (Access.Safe 13) := by
    rw [all_queryUnpack_iff]
    exact not_not_intro (.inl dangles)
  have single : (header cutReply).qdcount = 1 := by decide
  intro safe
  rw [messageUnpack, Traced.all_bind] at safe
  have rest := safe.2
  simp only [headerUnpack, result_bind, result_pure, single, ne_eq, not_true_eq_false,
    ite_false, Traced.all_bind, show ¬ 13 < 12 by omega] at rest
  exact query rest.1

end Messages
end Rfc1035
end Squid
