import Squid.Http.HttpHeaderKeep

/-!
# Packing and parsing again

A parsed header is read back from what it packs, unless a field behind another one has a name that
starts with a blank: its line then continues the field before it.
-/

namespace Squid
namespace HttpHeader

open CRuntime List

/-! ## Names that start with a blank -/

/--
An entry with a name that starts with a blank is behind an entry that is kept: one that is no
`Content-Length`, or one that no later `Content-Length` exceeds in a message that is not chunked.
-/
def Displaced (entries : List HttpHeaderEntry) : Prop :=
  ∃ front g back, entries = front ++ g :: back ∧ startsBlank g.name = true ∧
    ((∃ f ∈ front, isLength f = false) ∨
      chunkedBy entries = false ∧ ∃ f ∈ front, isLength f = true ∧
        ∀ c ∈ back, isLength c = true → lengthOf c ≤ lengthOf f)

/-- A `Content-Length` among some entries is exceeded later. -/
def Exceeded (entries later : List HttpHeaderEntry) : Prop :=
  ∃ f ∈ entries, isLength f = true ∧ ∃ c ∈ later, isLength c = true ∧ lengthOf f < lengthOf c

/-- Later entries change earlier ones only by a greater `Content-Length`. -/
theorem foldl_keepLength_append {front back later : List HttpHeaderEntry}
    (single : Single (front ++ back)) :
    ∃ first new, later.foldl keepLength (front ++ back) = first ++ new ∧
      (∀ e ∈ new, e ∈ back ∨ e ∈ later) ∧
      (first = front ∧ ¬ Exceeded front later ∨
        first = front.filter (fun e => !isLength e) ∧ Exceeded front later) := by
  induction later generalizing front back with
  | nil =>
      refine ⟨front, back, rfl, fun e member => .inl member, .inl ⟨rfl, ?_⟩⟩
      rintro ⟨f, -, -, c, member, -⟩
      cases member
  | cons e later ih =>
      rw [foldl_cons]
      have after := single_keepLength e single
      rcases keepLength_cases (front ++ back) e with ⟨other, keeps⟩ | ⟨length, ⟨c, inKept, isLength,
        less⟩, keeps⟩ | ⟨length, less, keeps⟩
      · rw [keeps, List.append_assoc] at after ⊢
        obtain ⟨first, new, run, members, result⟩ := ih after
        refine ⟨first, new, run, ?_, ?_⟩
        · intro f member
          rcases members f member with member | member
          · rcases mem_append.1 member with member | member
            · exact .inl member
            · exact .inr (by simp [mem_singleton.1 member])
          · exact .inr (by simp [member])
        · have same : Exceeded front (e :: later) ↔ Exceeded front later := by
            simp [Exceeded, other]
          rwa [same]
      · rw [keeps]
        obtain ⟨first, new, run, members, result⟩ := ih single
        refine ⟨first, new, run, fun f member => ?_, ?_⟩
        · exact (members f member).imp_right fun member => by simp [member]
        · have same : Exceeded front (e :: later) ↔ Exceeded front later := by
            refine ⟨?_, ?_⟩
            · rintro ⟨f, inFront, lengthFront, d, member, lengthLater, greater⟩
              rcases mem_cons.1 member with rfl | member
              · obtain rfl := single.eq inKept (List.mem_append_left _ inFront) isLength lengthFront
                exact absurd greater (not_lt.2 less)
              · exact ⟨f, inFront, lengthFront, d, member, lengthLater, greater⟩
            · rintro ⟨f, inFront, lengthFront, d, member, rest⟩
              exact ⟨f, inFront, lengthFront, d, List.mem_cons_of_mem e member, rest⟩
          rwa [same]
      · rw [keeps, filter_append, List.append_assoc] at after ⊢
        obtain ⟨first, new, run, members, result⟩ := ih after
        refine ⟨first, new, run, ?_, ?_⟩
        · intro f member
          rcases members f member with member | member
          · rcases mem_append.1 member with member | member
            · exact .inl (mem_of_mem_filter member)
            · exact .inr (by simp [mem_singleton.1 member])
          · exact .inr (by simp [member])
        · have filtered : first = front.filter fun e => !isLength e := by
            rcases result with ⟨same, -⟩ | ⟨same, -⟩
            · exact same
            · rw [same, List.filter_filter]
              simp
          by_cases some : ∃ f ∈ front, isLength f = true
          · obtain ⟨f, inFront, isLength⟩ := some
            exact .inr ⟨filtered, f, inFront, isLength, e, by simp, length,
              less f (List.mem_append_left _ inFront) isLength⟩
          · push Not at some
            refine .inl ⟨?_, fun ⟨f, inFront, isLength, _⟩ => some f inFront isLength⟩
            rw [filtered, filter_eq_self.2 fun f inFront => by simpa using some f inFront]

/-- The `Content-Length` that is kept is the greatest so far. -/
theorem exists_le_of_mem {kept entries : List HttpHeaderEntry} {f : HttpHeaderEntry}
    (member : f ∈ kept ∨ f ∈ entries) (length : isLength f = true) :
    ∃ c ∈ entries.foldl keepLength kept, isLength c = true ∧ lengthOf f ≤ lengthOf c := by
  induction entries generalizing kept f with
  | nil => exact ⟨f, by simpa using member, length, le_refl _⟩
  | cons e entries ih =>
      rw [mem_cons] at member
      -- The entry itself, or a greater one that takes its place.
      obtain ⟨c, inKept, isLength, less⟩ : ∃ c, (c ∈ keepLength kept e ∨ c ∈ entries) ∧
          isLength c = true ∧ lengthOf f ≤ lengthOf c := by
        rcases keepLength_cases kept e with ⟨other, keeps⟩ | ⟨-, greater, keeps⟩ | ⟨isLength, less,
          keeps⟩
        · refine ⟨f, ?_, length, le_refl _⟩
          rw [keeps]
          grind
        · rcases member with member | rfl | member
          · exact ⟨f, .inl (by rwa [keeps]), length, le_refl _⟩
          · obtain ⟨c, inKept, isLength, less⟩ := greater
            exact ⟨c, .inl (by rwa [keeps]), isLength, less⟩
          · exact ⟨f, .inr member, length, le_refl _⟩
        · rcases member with member | rfl | member
          · exact ⟨e, .inl (by simp [keeps]), isLength, (less f member length).le⟩
          · exact ⟨f, .inl (by simp [keeps]), length, le_refl _⟩
          · exact ⟨f, .inr member, length, le_refl _⟩
      obtain ⟨d, inRun, isLengthRun, lessRun⟩ := ih inKept isLength
      exact ⟨d, inRun, isLengthRun, less.trans lessRun⟩

/-- What is kept before and behind an entry that is no `Content-Length`. -/
theorem keptEntries_split {front back : List HttpHeaderEntry} {g : HttpHeaderEntry}
    (other : isLength g = false) :
    ∃ first new, keptEntries (front ++ g :: back) = first ++ g :: new ∧ (∀ e ∈ new, e ∈ back) ∧
      (first = front.foldl keepLength [] ∧ chunkedBy (front ++ g :: back) = false ∧
          ¬ Exceeded (front.foldl keepLength []) back ∨
        first = (front.foldl keepLength []).filter (fun e => !isLength e) ∧
          (chunkedBy (front ++ g :: back) = true ∨ Exceeded (front.foldl keepLength []) back)) := by
  have single : Single (front.foldl keepLength [] ++ [g] ++ []) := by
    have kept : Single (front.foldl keepLength []) := single_foldl_keepLength single_nil
    have added := single_keepLength g kept
    rwa [keepLength_of_other other, ← List.append_nil (_ ++ _)] at added
  have same : Exceeded (front.foldl keepLength [] ++ [g]) back ↔
      Exceeded (front.foldl keepLength []) back := by
    simp [Exceeded, or_and_right, exists_or, other]
  obtain ⟨first, new, run, members, result⟩ := @foldl_keepLength_append _ _ back single
  rw [List.append_nil] at run
  rw [same] at result
  have whole : (front ++ g :: back).foldl keepLength [] = first ++ new := by
    rw [foldl_append, foldl_cons, keepLength_of_other other, run]
  have inBack : ∀ e ∈ new, e ∈ back := fun e member => by simpa using members e member
  have left : ((front.foldl keepLength [] ++ [g]).filter fun e => !isLength e) =
      (front.foldl keepLength []).filter (fun e => !isLength e) ++ [g] := by
    simp [filter_append, other]
  unfold keptEntries
  rw [whole]
  cases chunked : chunkedBy (front ++ g :: back) with
  | true =>
      refine ⟨_, new.filter fun e => !isLength e, ?_, ?_, .inr ⟨rfl, .inl rfl⟩⟩
      · rw [if_pos rfl, filter_append]
        rcases result with ⟨rfl, -⟩ | ⟨rfl, -⟩
        · rw [left, List.append_assoc, singleton_append]
        · rw [List.filter_filter]
          simp only [Bool.and_self]
          rw [left, List.append_assoc, singleton_append]
      · exact fun e member => inBack e (mem_of_mem_filter member)
  | false =>
      rw [if_neg (by simp)]
      rcases result with ⟨rfl, kept⟩ | ⟨rfl, exceeded⟩
      · exact ⟨_, new, by simp, inBack, .inl ⟨rfl, rfl, kept⟩⟩
      · refine ⟨_, new, ?_, inBack, .inr ⟨rfl, .inr exceeded⟩⟩
        rw [left, List.append_assoc, singleton_append]

variable {entries : List HttpHeaderEntry}

/-- An entry is displaced where it is kept behind another one. -/
theorem displaced_iff (other : ∀ e ∈ entries, startsBlank e.name = true → isLength e = false) :
    Displaced entries ↔ ∃ g ∈ (keptEntries entries).tail, startsBlank g.name = true := by
  refine ⟨?_, ?_⟩
  · rintro ⟨front, g, back, rfl, blank, before⟩
    obtain ⟨first, new, kept, -, result⟩ :=
      @keptEntries_split front back g (other g (by simp) blank)
    have nonempty : first ≠ [] := by
      rcases before with ⟨f, member, isOther⟩ | ⟨notChunked, f, member, length, less⟩
      · have stays : f ∈ (front.foldl keepLength []).filter fun e => !isLength e := by
          rw [filter_foldl_keepLength (by simp)]
          exact mem_filter.2 ⟨member, by simp [isOther]⟩
        rcases result with ⟨rfl, -⟩ | ⟨rfl, -⟩
        · exact ne_nil_of_mem (mem_of_mem_filter stays)
        · exact ne_nil_of_mem stays
      · obtain ⟨c, inRun, isLength, atMost⟩ :=
          @exists_le_of_mem [] front f (.inr member) length
        rcases result with ⟨rfl, -⟩ | ⟨-, chunked | ⟨d, inFront, lengthFront, e, later, lengthLater,
          greater⟩⟩
        · exact ne_nil_of_mem inRun
        · rw [notChunked] at chunked
          cases chunked
        · obtain rfl := (single_foldl_keepLength single_nil).eq inFront inRun lengthFront isLength
          exact absurd greater (not_lt.2 ((less e later lengthLater).trans atMost))
    obtain ⟨head, rest, rfl⟩ := exists_cons_of_ne_nil nonempty
    exact ⟨g, by simp [kept], blank⟩
  · rintro ⟨g, inTail, blank⟩
    by_contra notDisplaced
    have inEntries := mem_of_mem_keptEntries (mem_of_mem_tail inTail)
    obtain ⟨first, found⟩ : ∃ first, entries.find? (fun e => startsBlank e.name) = some first :=
      Option.isSome_iff_exists.1 (List.find?_isSome.2 ⟨g, inEntries, blank⟩)
    obtain ⟨blankFirst, front, back, rfl, -⟩ := List.find?_eq_some_iff_append.1 found
    have otherFirst := other first (by simp) blankFirst
    obtain ⟨before, new, kept, members, result⟩ := @keptEntries_split front back first otherFirst
    -- The first such entry is kept at the front, or it is displaced.
    have none : before = [] := by
      have lengths : ∀ f ∈ front, isLength f = true := fun f member => by
        by_contra isOther
        exact notDisplaced ⟨front, first, back, rfl, blankFirst,
          .inl ⟨f, member, by simpa using isOther⟩⟩
      have inFront : ∀ f ∈ front.foldl keepLength [], f ∈ front := fun f member => by
        simpa using mem_of_mem_foldl_keepLength member
      rcases result with ⟨rfl, notChunked, within⟩ | ⟨rfl, -⟩
      · refine eq_nil_iff_forall_not_mem.2 fun f member => ?_
        have length := lengths f (inFront f member)
        refine notDisplaced ⟨front, first, back, rfl, blankFirst,
          .inr ⟨notChunked, f, inFront f member,
          length, fun c later lengthLater => ?_⟩⟩
        by_contra greater
        exact within ⟨f, member, length, c, later, lengthLater, not_le.1 greater⟩
      · refine filter_eq_nil_iff.2 fun f member => ?_
        simp [lengths f (inFront f member)]
    rw [kept, none, List.nil_append, tail_cons] at inTail
    obtain ⟨middle, rest, rfl⟩ := append_of_mem (members g inTail)
    exact notDisplaced ⟨front ++ first :: middle, g, rest, by simp, blank,
      .inl ⟨first, by simp, otherFirst⟩⟩

/-! ## Reading a packed field -/

variable {text : Bytes}

/-- A folded text is one line, or a line before a folded text that continues it. -/
theorem Folded.lines (folded : Folded text) :
    10 ∉ text ∧ 13 ∉ text ∨
      ∃ body cr later, text = body ++ cr ++ 10 :: later ∧ 10 ∉ body ++ cr ∧ 13 ∉ body ∧
        (cr = [] ∨ cr = [13]) ∧ Continued later ∧ Folded later := by
  by_cases feed : 10 ∈ text
  · obtain ⟨line, later, rfl, plain⟩ := eq_append_cons_of_mem feed
    have continued := (folded line 10 later rfl).2.2 rfl
    have foldedLater : Folded later := by
      rw [← singleton_append, ← List.append_assoc] at folded
      exact folded.behind
    refine .inr ?_
    by_cases stray : 13 ∈ line
    · obtain ⟨body, back, rfl, noCr⟩ := eq_append_cons_of_mem stray
      have next := (folded body 13 (back ++ 10 :: later) (by simp)).2.1 rfl
      obtain rfl : back = [] := by
        cases back with
        | nil => rfl
        | cons c back =>
            obtain rfl : c = 10 := by simpa using next
            simp at plain
      exact ⟨body, [13], later, rfl, plain, noCr, .inr rfl, continued, foldedLater⟩
    · exact ⟨line, [], later, by simp, by simpa using plain, stray, .inl rfl, continued,
        foldedLater⟩
  · refine .inl ⟨feed, fun stray => ?_⟩
    obtain ⟨front, back, rfl⟩ := append_of_mem stray
    have next := (folded front 13 back rfl).2.1 rfl
    exact feed (by simp [mem_of_mem_head? next])

theorem splitLines_tail (front rest : Bytes) : ∃ line lines,
    splitLines (front ++ 10 :: rest) = (line :: lines, (splitLines rest).2) := by
  induction front with
  | nil => exact ⟨[], (splitLines rest).1, by simp [splitLines]⟩
  | cons b front ih =>
      obtain ⟨line, lines, same⟩ := ih
      rw [cons_append, splitLines, same]
      by_cases feed : b = 10
      · exact ⟨[], line :: lines, by simp [feed]⟩
      · exact ⟨b :: line, lines, by simp [feed]⟩

theorem splitLines_snd (front rest : Bytes) :
    (splitLines (front ++ 10 :: rest)).2 = (splitLines rest).2 := by
  obtain ⟨line, lines, same⟩ := splitLines_tail front rest
  rw [same]

/-- What the loop does with an entry before it goes on. -/
def addAndGoOn (relaxed : Bool) (rest : Bytes) (h : HttpHeader) (e : HttpHeaderEntry) :
    Except Abort (Option HttpHeader) := do
  match (← addParsed relaxed h e) with
  | none => return none
  | some after => parseLines relaxed (splitLines rest).2 (splitLines rest).1 none after

variable {e : HttpHeaderEntry} {relaxed : Bool}

variable {field : Option Bytes} {h : HttpHeader}

/-- A packed field is read as it was written, if the next line does not continue it. -/
theorem parseLines_folded {rest : Bytes} (folded : Folded text)
    (started : field = none ∨ Continued text) (stop : startsBlank rest = false)
    (parsed : HttpHeaderEntry.parse relaxed (field.getD [] ++ text) = some e) :
    parseLines relaxed (splitLines rest).2 (splitLines (text ++ 13 :: 10 :: rest)).1 field h =
      addAndGoOn relaxed rest h e := by
  induction size : text.length using Nat.strong_induction_on generalizing text field with
  | _ n ih =>
      rcases folded.lines with ⟨lf, cr⟩ | ⟨body, cr, later, rfl, lf, noCr, ending, continued,
        later_⟩
      · have long : field.isNone = false → text.length ≠ 1 := by
          intro later one
          rcases started with rfl | ⟨x, y, more, rfl, -⟩
          · cases later
          · simp at one
        have nonempty : field.getD [] ++ text ≠ [] := by
          intro none
          rw [none] at parsed
          cases relaxed <;> cases parsed
        have lines : (splitLines (text ++ 13 :: 10 :: rest)).1 =
            (text ++ [13]) :: (splitLines rest).1 := by
          have divided := @splitLines_append (text ++ [13]) (by simpa using lf) rest
          rw [List.append_assoc] at divided
          exact congrArg Prod.fst divided
        rw [lines, parseLines, scanLine_of_plain cr (.inr rfl) long]
        dsimp only
        rw [continues_splitLines, stop, if_neg (by simp), if_neg nonempty, parsed]
        rfl
      · have long : field.isNone = false → body.length ≠ 1 := by
          intro goesOn one
          obtain ⟨b, rfl⟩ := length_eq_one_iff.1 one
          rcases started with rfl | ⟨x, y, more, same, -, notLf, notCr⟩
          · cases goesOn
          · rcases ending with rfl | rfl
            · simp at same
              exact notLf same.2.1.symm
            · simp at same
              exact notCr same.2.1.symm
        have lines : (splitLines (body ++ cr ++ 10 :: later ++ 13 :: 10 :: rest)).1 =
            (body ++ cr) :: (splitLines (later ++ 13 :: 10 :: rest)).1 := by
          rw [List.append_assoc, cons_append, splitLines_append lf]
        have tail : (splitLines rest).2 = (splitLines (later ++ 13 :: 10 :: rest)).2 := by
          have same := splitLines_snd (later ++ [13]) rest
          rw [List.append_assoc] at same
          exact same.symm
        have goesOn : continues (splitLines (later ++ 13 :: 10 :: rest)).1 (splitLines rest).2 =
            true := by
          rw [tail, continues_splitLines]
          exact (continued.append _).startsBlank
        rw [lines, parseLines, scanLine_of_plain noCr ending long]
        dsimp only
        rw [goesOn, if_pos rfl]
        refine ih later.length ?_ later_ (.inr continued) ?_ rfl
        · rw [← size]
          simp
          omega
        · rw [← parsed]
          simp

/-! ## Reading a packed header -/

/-- What a list of entries packs. -/
def packAll (entries : List HttpHeaderEntry) : Bytes := entries.flatMap HttpHeaderEntry.packInto

theorem packAll_cons (e : HttpHeaderEntry) (entries : List HttpHeaderEntry) :
    packAll (e :: entries) = e.text ++ 13 :: 10 :: packAll entries := by
  simp [packAll, HttpHeaderEntry.packInto_eq]

/-- An entry whose packed field gives the entry again. -/
structure Packable (relaxed : Bool) (e : HttpHeaderEntry) : Prop where
  readable : e.Readable relaxed
  allowed : Allowed relaxed e
  folded : Folded e.text

theorem Packable.startsBlank (packable : Packable relaxed e) (rest : Bytes) :
    startsBlank (e.text ++ rest) = startsBlank e.name := by
  obtain ⟨b, name, same⟩ := exists_cons_of_ne_nil packable.readable.named
  simp [HttpHeaderEntry.text, HttpHeader.startsBlank, same]

theorem zero_notMem_packAll (packable : ∀ e ∈ entries, Packable relaxed e) :
    0 ∉ packAll entries := by
  induction entries with
  | nil => simp [packAll]
  | cons e entries ih =>
      rw [forall_mem_cons] at packable
      simp [packAll_cons, packable.1.folded.zero_notMem, ih packable.2]

theorem splitLines_packAll_snd (entries : List HttpHeaderEntry) :
    (splitLines (packAll entries)).2 = [] := by
  induction entries with
  | nil => rfl
  | cons e entries ih =>
      have same := splitLines_snd (e.text ++ [13]) (packAll entries)
      rw [List.append_assoc] at same
      rw [packAll_cons]
      exact same.trans ih

/-- An entry is added, unless it is another `Content-Length`. -/
theorem addParsed_packable (exact : h.MaskExact) (packable : Packable relaxed e)
    (single : Single (h.live ++ [e])) :
    ∃ after, h.addParsed relaxed e = .ok (some after) ∧ after.MaskExact ∧
      after.live = h.live ++ [e] := by
  have lookup : h.earlierLength e = .ok none := by
    unfold earlierLength
    split
    · rename_i length
      rw [exact.findEntry_eq (by rw [length]; decide), List.find?_eq_none.2]
      intro f member same
      have isLength : HttpHeader.isLength e = true := decide_eq_true length
      have isLengthKept : HttpHeader.isLength f = true :=
        decide_eq_true ((of_decide_eq_true same).trans length)
      have two : 0 < (h.live.filter HttpHeader.isLength).length :=
        length_pos_of_mem (mem_filter.2 ⟨member, isLengthKept⟩)
      unfold Single at single
      rw [filter_append, length_append, filter_cons_of_pos isLength, length_cons] at single
      omega
    · rfl
  have added : h.addEntry e = .ok { h with
      entries := h.entries ++ [some e]
      mask := setBit h.mask e.id
      len := int32 (h.len + e.size) } := if_neg packable.readable.named
  refine ⟨_, ?_, exact.addEntry.of_ok added, (addEntry_live h e).of_ok added |>.1⟩
  unfold HttpHeader.addParsed
  rw [lookup]
  show (if _ then _ else _) = _
  rw [if_neg packable.allowed, added]
  rfl

/-- By induction on the entries: each packed field adds its entry. -/
theorem parseLines_packAll {relaxed : Bool} {entries : List HttpHeaderEntry} {h : HttpHeader}
    (exact : h.MaskExact) (packable : ∀ e ∈ entries, Packable relaxed e)
    (single : Single (h.live ++ entries))
    (plain : ∀ e ∈ entries.tail, startsBlank e.name = false) :
    ∃ after, parseLines relaxed [] (splitLines (packAll entries)).1 none h = .ok (some after) ∧
      after.MaskExact ∧ after.live = h.live ++ entries := by
  induction entries generalizing h with
  | nil => exact ⟨h, rfl, exact, by simp⟩
  | cons e entries ih =>
      rw [forall_mem_cons] at packable
      rw [tail_cons] at plain
      have stop : startsBlank (packAll entries) = false := by
        cases entries with
        | nil => rfl
        | cons f entries =>
            rw [packAll_cons, (packable.2 f (by simp)).startsBlank]
            exact plain f (by simp)
      have first : Single (h.live ++ [e]) := by
        unfold Single at single ⊢
        rw [append_cons, filter_append, length_append] at single
        omega
      obtain ⟨between, added, exactBetween, live⟩ := addParsed_packable exact packable.1 first
      have read : parseLines relaxed [] (splitLines (packAll (e :: entries))).1 none h =
          parseLines relaxed [] (splitLines (packAll entries)).1 none between := by
        have turn := parseLines_folded (h := h) packable.1.folded (.inl rfl) stop
          packable.1.readable.parse_text
        rw [addAndGoOn, added, splitLines_packAll_snd] at turn
        rw [packAll_cons]
        exact turn
      have rest : Single (between.live ++ entries) := by
        rwa [live, List.append_assoc, singleton_append]
      obtain ⟨after, run, exactAfter, liveAfter⟩ := ih exactBetween packable.2 rest
        fun f member => plain f (mem_of_mem_tail member)
      refine ⟨after, read.trans run, exactAfter, ?_⟩
      rw [liveAfter, live, List.append_assoc, singleton_append]

/-! ## Counting the lines of a packed header -/

/-- The lines that do not continue a field. -/
def plainLines (block : Bytes) : ℕ := (splitLines block).1.countP fun line => !startsBlank line

/-- Only the first line of a packed field may start with something else than a blank. -/
theorem plainLines_folded (rest : Bytes) (folded : Folded text) :
    plainLines (text ++ 13 :: 10 :: rest) =
      (if startsBlank text then 0 else 1) + plainLines rest := by
  have counted : ∀ {line later : Bytes}, 10 ∉ line →
      plainLines (line ++ 10 :: later) = (if startsBlank line then 0 else 1) + plainLines later := by
    intro line later plain
    rw [plainLines, splitLines_append plain, countP_cons, Nat.add_comm]
    cases startsBlank line <;> rfl
  induction size : text.length using Nat.strong_induction_on generalizing text with
  | _ n ih =>
      rcases folded.lines with ⟨lf, -⟩ | ⟨body, cr, later, rfl, lf, -, -, continued, foldedLater⟩
      · have line : startsBlank (text ++ [13]) = startsBlank text := by
          cases text <;> rfl
        rw [append_cons, counted (by simpa using lf), line]
      · have line : startsBlank (body ++ cr ++ 10 :: later) = startsBlank (body ++ cr) := by
          cases body ++ cr <;> rfl
        have shorter : later.length < n := by
          rw [← size]
          simp
          omega
        rw [List.append_assoc, cons_append, counted lf, line,
          ih later.length shorter foldedLater rfl, continued.startsBlank, if_pos rfl, Nat.zero_add]

variable {owner : Owner}

/-- There are not more fields than first lines. -/
theorem length_fieldTexts_le {tail : Bytes} {lines : List Bytes} (ne : lines ≠ []) :
    (fieldTexts relaxed owner tail lines field).length ≤
      1 + lines.tail.countP fun line => !startsBlank line := by
  induction lines generalizing field with
  | nil => exact absurd rfl ne
  | cons line lines ih =>
      rw [fieldTexts, tail_cons]
      split
      · simp
      · extract_lets text
        cases lines with
        | nil => split <;> simp [fieldTexts]
        | cons next lines =>
            rw [tail_cons] at ih
            split
            · refine (ih (by simp)).trans ?_
              rw [countP_cons]
              omega
            · rename_i stop
              have plain : startsBlank next = false := by simpa [continues, startsBlank] using stop
              rw [length_cons, countP_cons_of_pos (by simp [plain])]
              have := @ih none (by simp)
              omega

theorem plainLines_packAll (packable : ∀ e ∈ entries, Packable relaxed e) :
    plainLines (packAll entries) = entries.countP fun e => !startsBlank e.name := by
  induction entries with
  | nil => rfl
  | cons e entries ih =>
      rw [forall_mem_cons] at packable
      have first : startsBlank e.text = startsBlank e.name := by
        simpa using packable.1.startsBlank []
      rw [packAll_cons, plainLines_folded _ packable.1.folded, ih packable.2, first,
        countP_cons, Nat.add_comm]
      cases startsBlank e.name <;> rfl

/-- There are not more packed fields than entries that do not continue one. -/
theorem length_blockEntries_packAll (owner : Owner)
    (packable : ∀ f ∈ e :: entries, Packable relaxed f) :
    (blockEntries relaxed owner (packAll (e :: entries))).length ≤
      1 + entries.countP fun f => !startsBlank f.name := by
  obtain ⟨line, lines, divided⟩ : ∃ line lines,
      splitLines (packAll (e :: entries)) = (line :: lines, (splitLines (packAll entries)).2) := by
    rw [packAll_cons, append_cons]
    exact splitLines_tail _ _
  have first : startsBlank line = startsBlank e.name := by
    have same := continues_splitLines (packAll (e :: entries))
    rw [divided, packAll_cons, (packable e (by simp)).startsBlank] at same
    exact same
  have count := plainLines_packAll packable
  rw [plainLines, divided, countP_cons, countP_cons, first, Nat.add_right_cancel_iff] at count
  calc (blockEntries relaxed owner (packAll (e :: entries))).length
      ≤ (fieldTexts relaxed owner (splitLines (packAll (e :: entries))).2
          (splitLines (packAll (e :: entries))).1 none).length := length_filterMap_le ..
    _ ≤ 1 + (splitLines (packAll (e :: entries))).1.tail.countP fun line => !startsBlank line :=
        length_fieldTexts_le (by simp [divided])
    _ = 1 + entries.countP fun f => !startsBlank f.name := by rw [divided, ← count, tail_cons]

/-- There are not more entries than are read. -/
theorem length_keptEntries_le (entries : List HttpHeaderEntry) :
    (keptEntries entries).length ≤ entries.length := by
  have step : ∀ (kept : List HttpHeaderEntry) (e : HttpHeaderEntry),
      (keepLength kept e).length ≤ kept.length + 1 := by
    intro kept e
    rcases keepLength_cases kept e with ⟨-, keeps⟩ | ⟨-, -, keeps⟩ | ⟨-, -, keeps⟩
    · simp [keeps]
    · simp [keeps]
    · simpa [keeps] using List.length_filter_le _ _
  have run : ∀ kept : List HttpHeaderEntry,
      (entries.foldl keepLength kept).length ≤ kept.length + entries.length := by
    induction entries with
    | nil => simp
    | cons e entries ih =>
        intro kept
        have := ih (keepLength kept e)
        have := step kept e
        simp only [foldl_cons, length_cons]
        omega
  have all := run []
  rw [length_nil, Nat.zero_add] at all
  unfold keptEntries
  split
  · exact (List.length_filter_le _ _).trans all
  · exact all

/-! ## The normal form -/

theorem packable_of_blockEntries {block : Bytes} (nul : 0 ∉ block)
    (allowed : ∀ e ∈ blockEntries relaxed owner block, Allowed relaxed e) :
    ∀ e ∈ blockEntries relaxed owner block, Packable relaxed e := by
  intro e member
  obtain ⟨text, inTexts, parsed⟩ := mem_filterMap.1 member
  have folded : Folded text := by
    refine folded_of_mem_fieldTexts (fun line inLines => ?_) Carried.none text inTexts
    obtain ⟨lf, inside⟩ := mem_splitLines inLines
    exact ⟨fun inLine => nul (inside 0 inLine), lf⟩
  exact ⟨HttpHeaderEntry.readable_of_parse parsed, allowed e member,
    HttpHeaderEntry.folded_text parsed folded (allowed e member)⟩

theorem other_of_startsBlank (blank : startsBlank e.name = true) : isLength e = false := by
  by_contra length
  have id_eq : e.id = .contentLength := by simpa [isLength] using length
  rw [e.named (by simp [id_eq]), id_eq] at blank
  exact absurd blank (by decide)

/-- Entries without a displaced name are read back from what they pack. -/
theorem parse_packAll {relaxed : Bool} {owner : Owner} {entries : List HttpHeaderEntry}
    {chunked : Bool} (packable : ∀ e ∈ entries, Packable relaxed e) (single : Single entries)
    (coded : (ofEntries entries).chunked = .ok chunked)
    (dropped : chunked = true → ∀ e ∈ entries, isLength e = false)
    (plain : ∀ e ∈ entries.tail, startsBlank e.name = false) :
    ∃ again, (empty owner).parse relaxed (packAll entries) = .ok (again, true) ∧
      again.live = entries := by
  obtain ⟨after, run, exact, live⟩ :=
    @parseLines_packAll relaxed entries (empty owner) maskRules.empty packable single plain
  have loop : (empty owner).parseBlock relaxed (packAll entries) = .ok (some after) := by
    rw [parseBlock, if_neg (zero_notMem_packAll packable), splitLines_packAll_snd, run]
  have same : after.chunked = .ok chunked := by
    rw [← coded]
    refine chunked_congr exact (refreshMask_exact _) ?_
    rw [ofEntries_live, live]
    rfl
  refine ⟨after, ?_, live⟩
  unfold parse
  rw [loop]
  show (after.chunked >>= _) = _
  rw [same]
  cases chunked with
  | false => rfl
  | true =>
      have absent : after.mask .contentLength = false := by
        by_contra present
        obtain ⟨e, member, id_eq⟩ := (exact .contentLength).1 (by simpa using present)
        rw [show after.live = entries from live] at member
        have isOther := dropped rfl e member
        simp [isLength, id_eq] at isOther
      have deleted : after.delById .contentLength = .ok (after, 0) := by
        rw [delById, if_neg (by decide), if_pos (by simp [absent])]
      show (after.delById .contentLength >>= _) = _
      rw [deleted]
      rfl

/--
For a block that `HttpHeader::parse` accepts, packing the header and parsing again gives the same
entries, exactly if no field with a name that starts with a blank is kept behind another field.
-/
theorem parse_normal {relaxed : Bool} {owner : Owner} {block : Bytes} {h : HttpHeader}
    (accepted : (empty owner).parse relaxed block = .ok (h, true)) :
    (∃ again, (empty owner).parse relaxed h.packInto = .ok (again, true) ∧ again.live = h.live) ↔
      ¬ Displaced (blockEntries relaxed owner block) := by
  obtain ⟨live, coded, nul, allowed⟩ := (parse_live relaxed owner block).of_ok accepted rfl
  have packableBlock := packable_of_blockEntries nul allowed
  have packable : ∀ e ∈ h.live, Packable relaxed e := by
    rw [live]
    exact fun e member => packableBlock e (mem_of_mem_keptEntries member)
  rw [displaced_iff fun e _ => other_of_startsBlank, ← live]
  refine ⟨?_, ?_⟩
  · rintro ⟨again, parsed, same⟩ ⟨g, inTail, blank⟩
    obtain ⟨liveAgain, -⟩ := (parse_live relaxed owner _).of_ok parsed rfl
    obtain ⟨e, entries, entries_eq⟩ : ∃ e entries, h.live = e :: entries := by
      cases shape : h.live with
      | nil => simp [shape] at inTail
      | cons e entries => exact ⟨e, entries, rfl⟩
    have packed : h.packInto = packAll (e :: entries) := by
      rw [← entries_eq]
      rfl
    rw [entries_eq] at packable inTail same
    have fewer : again.live.length ≤ 1 + entries.countP fun f => !startsBlank f.name := by
      rw [liveAgain, packed]
      exact (length_keptEntries_le _).trans (length_blockEntries_packAll owner packable)
    have less : entries.countP (fun f => !startsBlank f.name) < entries.length := by
      refine lt_of_le_of_ne countP_le_length fun all => ?_
      have plain := countP_eq_length.1 all g (by simpa using inTail)
      simp [blank] at plain
    rw [same, length_cons] at fewer
    omega
  · intro none
    have coding : h.live.filter (·.id = .transferEncoding) =
        (blockEntries relaxed owner block).filter (·.id = .transferEncoding) := by
      rw [live, filter_keptEntries]
      intro e coded
      simp [isLength, of_decide_eq_true coded]
    apply @parse_packAll relaxed owner h.live (chunkedBy (blockEntries relaxed owner block)) packable
    · rw [live]
      exact single_keptEntries _
    · rw [← coded]
      refine chunked_congr (refreshMask_exact _) (refreshMask_exact _) ?_
      rw [ofEntries_live, ofEntries_live, coding]
    · intro chunked e member
      rw [live, keptEntries, if_pos chunked] at member
      simpa using (mem_filter.1 member).2
    · intro e member
      by_contra blank
      exact none ⟨e, member, by simpa using blank⟩

theorem parse_normal_hostHeader :
    (empty .request).parse true (ascii "Host: a\r\n") = .ok (hostHeader, true) ∧
      ∃ again, (empty .request).parse true hostHeader.packInto = .ok (again, true) ∧
        again.live = hostHeader.live := by
  have once : ¬ Displaced (blockEntries true .request (ascii "Host: a\r\n")) := by
    rintro ⟨front, g, back, split, blank, -⟩
    have plain : ∀ e ∈ blockEntries true .request (ascii "Host: a\r\n"),
        startsBlank e.name = false := by decide +kernel
    simp [plain g (by simp [split])] at blank
  exact ⟨rfl, (parse_normal rfl).mpr once⟩

/-- The line of the second field starts with a stray carriage return. -/
def strayBlock : Bytes := ascii "A: x\r\n\rfoo: bar\r\n"

/-- Whether a block is accepted, the number of entries, and what they pack. -/
def parsedFields (block : Bytes) : Option (Bool × ℕ × Bytes) :=
  ((empty .request).parse true block).toOption.map fun result =>
    (result.2, result.1.live.length, result.1.packInto)

/-- Two fields are parsed; packed and parsed again they are one. -/
theorem parse_strayBlock : ∃ h, (empty .request).parse true strayBlock = .ok (h, true) ∧
    ¬ ∃ again, (empty .request).parse true h.packInto = .ok (again,
      true) ∧ again.live = h.live := by
  have first : parsedFields strayBlock = some (true, 2, ascii "A: x\r\n foo: bar\r\n") := by
    decide +kernel
  have second : parsedFields (ascii "A: x\r\n foo: bar\r\n") =
      some (true, 1, ascii "A: x\r\n foo: bar\r\n") := by
    decide +kernel
  unfold parsedFields at first
  cases parsed : (empty .request).parse true strayBlock with
  | error a => simp [parsed, Except.toOption] at first
  | ok result =>
      obtain ⟨h, accepted⟩ := result
      obtain ⟨rfl, two, packed⟩ : accepted = true ∧ h.live.length = 2 ∧
          h.packInto = ascii "A: x\r\n foo: bar\r\n" := by
        simpa [parsed, Except.toOption] using first
      refine ⟨h, rfl, ?_⟩
      rintro ⟨again, parsedAgain, same⟩
      rw [packed] at parsedAgain
      have one : again.live.length = 1 := by
        have counted := second
        unfold parsedFields at counted
        rw [parsedAgain] at counted
        exact (Prod.mk.inj (Prod.mk.inj (Option.some.inj counted)).2).1
      rw [same, two] at one
      cases one

end HttpHeader
end Squid
