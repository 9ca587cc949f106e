import Squid.Http.Url

/-!
# Escaping of URLs

`lib/rfc1738.c` escapes into a static buffer that grows with its arguments, and unescapes in place
with one cursor for reading and one for writing.  A string to escape may lie in the static buffer,
which is then freed, or written to, while it is read.  The memory of the string to unescape is an
array that ends where the string ends, so that a read past the terminator fails.
-/

namespace Squid.Rfc1738

open CRuntime Url List Option

def RFC1738_ESCAPE_CTRLS : ℕ := 1

def RFC1738_ESCAPE_UNSAFE : ℕ := 2

def RFC1738_ESCAPE_RESERVED : ℕ := 4

def RFC1738_ESCAPE_ALL : ℕ :=
  RFC1738_ESCAPE_UNSAFE ||| RFC1738_ESCAPE_RESERVED ||| RFC1738_ESCAPE_CTRLS

def RFC1738_ESCAPE_NOSPACE : ℕ := 128

def RFC1738_ESCAPE_NOPERCENT : ℕ := 256

def rfc1738_reserved_chars : Bytes := ascii ";/?:@=&"

/-- Whether the loop of `rfc1738_do_escape` escapes a character; `char` is signed. -/
def do_escape (flags : ℕ) (src : UInt8) : Bool :=
  if 97 ≤ src ∧ src ≤ 122 ∨ 65 ≤ src ∧ src ≤ 90 ∨ 48 ≤ src ∧ src ≤ 57 then false
  else
    let unsafe_char := decide (flags &&& RFC1738_ESCAPE_UNSAFE ≠ 0) &&
      (rfc1738_unsafe_chars.contains src ||
        if flags &&& RFC1738_ESCAPE_NOPERCENT = 0 ∧ src = 37 then true
        else decide (flags &&& RFC1738_ESCAPE_NOSPACE = 0) && decide (src.toInt8 ≤ 32))
    let reserved_char := decide (flags &&& RFC1738_ESCAPE_RESERVED ≠ 0) &&
      rfc1738_reserved_chars.contains src
    let ctrl_char := decide (flags &&& RFC1738_ESCAPE_CTRLS ≠ 0) &&
      (decide (src ≤ 0x1F) || decide (src = 0x7F) || decide (0x80 ≤ src))
    unsafe_char || reserved_char || ctrl_char

/-- Where a string lies: outside the static buffer, or at an offset in it. -/
inductive Pointer where
  | outside (text : Bytes)
  | inside (offset : ℕ)

namespace Pointer

/-- A byte of the string. -/
def read (buf : Bytes) (n : ℕ) : Pointer → Option UInt8
  | outside text => some (text.getD n 0)
  | inside offset => buf[offset + n]?

/-- The string. -/
def string (buf : Bytes) : Pointer → Bytes
  | outside text => cstr text
  | inside offset => cstr (buf.drop offset)

/-- The string begins in the buffer. -/
def Valid (buf : Bytes) : Pointer → Prop
  | outside _ => True
  | inside offset => offset < buf.length

end Pointer

/-- The write of a turn of `rfc1738_do_escape`: the buffer and where the text ends.  `snprintf` puts
a terminator behind a triplet; `none` where that does not fit, so that the end of the text lies
outside the buffer. -/
def storeByte (flags : ℕ) (buf : Bytes) (dst : ℕ) (src : UInt8) : Option (Bytes × ℕ) :=
  if do_escape flags src then
    if dst + 4 ≤ buf.length then
      some (buf.take dst ++ [37, hexDigit (src / 16), hexDigit (src % 16), 0] ++ buf.drop (dst + 4),
        dst + 3)
    else none
  else some (buf.set dst src, dst + 1)

variable {buf : Bytes} {dst flags : ℕ} {src : UInt8}

variable {buf' : Bytes} {dst' : ℕ}

theorem storeByte_forward (inside : dst < buf.length - 1)
    (store : storeByte flags buf dst src = some (buf', dst')) :
    buf'.length = buf.length ∧ dst < dst' ∧ dst' < buf.length := by
  rw [storeByte] at store
  split_ifs at store with escape room
  · cases store
    simp only [length_append, length_take, length_cons, length_nil, length_drop]
    omega
  · cases store
    exact ⟨length_set, Nat.lt_succ_self dst, by omega⟩

/-- The loop of `rfc1738_do_escape`, in front of a byte of the string. -/
def escapeLoop (flags : ℕ) (url : Pointer) (buf : Bytes) (n dst : ℕ) : Option Bytes :=
  match url.read buf n with
  | none => none
  | some src =>
      if _more : src ≠ 0 ∧ dst < buf.length - 1 then
        match _again : storeByte flags buf dst src with
        | none => none
        | some (buf, dst) => escapeLoop flags url buf (n + 1) dst
      else if dst < buf.length then some (buf.set dst 0)
      else none
termination_by buf.length - dst
decreasing_by
  obtain ⟨same, forward, -⟩ := storeByte_forward _more.2 _again
  omega

/-- `rfc1738_do_escape`: the static buffer, with the text at its front.  An empty one stands for
`NULL`; `none` where the string lies in the buffer that is freed. -/
def rfc1738_do_escape (buf : Bytes) (url : Pointer) (flags : ℕ) : Option Bytes :=
  if buf.length = 0 ∨ (url.string buf).length * 3 > buf.length then
    match url with
    | .outside _ =>
        escapeLoop flags url (List.replicate ((url.string buf).length * 3 + 1) 0) 0 0
    | .inside _ => none
  else escapeLoop flags url buf 0 0

def rfc1738_escape (buf : Bytes) (x : Pointer) : Option Bytes :=
  rfc1738_do_escape buf x (RFC1738_ESCAPE_UNSAFE ||| RFC1738_ESCAPE_CTRLS)

def rfc1738_escape_part (buf : Bytes) (x : Pointer) : Option Bytes :=
  rfc1738_do_escape buf x RFC1738_ESCAPE_ALL

def RFC1738_ESCAPE_UNESCAPED : ℕ :=
  RFC1738_ESCAPE_UNSAFE ||| RFC1738_ESCAPE_CTRLS ||| RFC1738_ESCAPE_NOPERCENT

def rfc1738_escape_unescaped (buf : Bytes) (x : Pointer) : Option Bytes :=
  rfc1738_do_escape buf x RFC1738_ESCAPE_UNESCAPED

/-- The static buffer after strings were escaped one after the other. -/
def bufferAfter (calls : List (Pointer × ℕ)) : Option Bytes :=
  calls.foldlM (fun buf call => rfc1738_do_escape buf call.1 call.2) []

def fromhex (ch : UInt8) : ℤ :=
  if 48 ≤ ch ∧ ch ≤ 57 then ch.toNat - 48
  else if 97 ≤ ch ∧ ch ≤ 102 then ch.toNat - 97 + 10
  else if 65 ≤ ch ∧ ch ≤ 70 then ch.toNat - 65 + 10
  else -1

/-- `v1 << 4 | v2` of two hexadecimal digits. -/
def hexPair (v1 v2 : ℤ) : ℕ := v1.toNat <<< 4 ||| v2.toNat

/-- The part of a turn of `rfc1738_unescape` behind a `%` at `j` that was copied to `i`: the memory
and how far `j` moves. -/
def decodeAt (s : Bytes) (i j : ℕ) : Option (Bytes × ℕ) := do
  let first ← s[j + 1]?
  if first = 37 then some (s, 1)
  else
    let v1 := fromhex first
    if v1 < 0 then some (s, 0)
    else
      let second ← s[j + 2]?
      let v2 := fromhex second
      if v2 < 0 then some (s, 0)
      else
        let x := hexPair v1 v2
        if 0 < x ∧ x ≤ 255 then some (s.set i (UInt8.ofNat x), 2) else some (s, 0)

/-- One turn of the loop of `rfc1738_unescape`: the memory and the two cursors, or the memory at
the end of the string. -/
def unescapeTurn (s : Bytes) (i j : ℕ) : Option (Bytes ⊕ Bytes × ℕ × ℕ) := do
  let c ← s[j]?
  if c = 0 then
    if i < s.length then some (.inl (s.set i 0)) else none
  else
    let s := s.set i c
    if c ≠ 37 then some (.inr (s, i + 1, j + 1))
    else
      let (s, skip) ← decodeAt s i j
      some (.inr (s, i + 1, j + skip + 1))

variable {i j : ℕ} {s : Bytes}

variable {t : Bytes}

theorem length_decodeAt {skip : ℕ} (decode : decodeAt s i j = some (t, skip)) :
    t.length = s.length := by
  simp only [decodeAt, bind_eq_bind, bind_eq_some_iff] at decode
  obtain ⟨first, -, decode⟩ := decode
  split at decode
  · cases decode
    rfl
  · split at decode
    · cases decode
      rfl
    · obtain ⟨second, -, decode⟩ := bind_eq_some_iff.mp decode
      split at decode
      · cases decode
        rfl
      · split at decode <;> cases decode
        · exact length_set
        · rfl

/-- A turn that does not end the loop moves the cursor for reading inside the string. -/
theorem unescapeTurn_forward {i' j' : ℕ} (turn : unescapeTurn s i j = some (.inr (t, i', j'))) :
    t.length = s.length ∧ j < j' ∧ j < s.length := by
  simp only [unescapeTurn, bind_eq_bind, bind_eq_some_iff] at turn
  obtain ⟨c, read, turn⟩ := turn
  have inside : j < s.length := (List.getElem?_eq_some_iff.mp read).1
  split at turn
  · split at turn <;> cases turn
  · split at turn
    · cases turn
      exact ⟨length_set, Nat.lt_succ_self j, inside⟩
    · obtain ⟨⟨u, skip⟩, decode, turn⟩ := bind_eq_some_iff.mp turn
      cases turn
      exact ⟨(length_decodeAt decode).trans length_set, by omega, inside⟩

/-- The loop of `rfc1738_unescape`. -/
def unescapeLoop (s : Bytes) (i j : ℕ) : Option Bytes :=
  match _again : unescapeTurn s i j with
  | none => none
  | some (.inl s) => some s
  | some (.inr (s, i, j)) => unescapeLoop s i j
termination_by s.length - j
decreasing_by
  obtain ⟨same, forward, inside⟩ := unescapeTurn_forward _again
  omega

/-- `rfc1738_unescape` of the memory of a string, the terminator included. -/
def rfc1738_unescape (s : Bytes) : Option Bytes := unescapeLoop s 0 0

/-! ### Escaping -/

/-- The text written for a byte. -/
def escapedByte (flags : ℕ) (src : UInt8) : Bytes :=
  if do_escape flags src then [37, hexDigit (src / 16), hexDigit (src % 16)] else [src]

/-- The text that stands for a string. -/
def escaped (flags : ℕ) (url : Bytes) : Bytes := url.flatMap (escapedByte flags)

theorem length_escapedByte (flags : ℕ) (src : UInt8) :
    (escapedByte flags src).length = if do_escape flags src then 3 else 1 := by
  rw [escapedByte]
  split <;> rfl

theorem escaped_cons (flags : ℕ) (src : UInt8) (url : Bytes) :
    escaped flags (src :: url) = escapedByte flags src ++ escaped flags url := flatMap_cons

theorem escaped_concat (flags : ℕ) (url : Bytes) (src : UInt8) :
    escaped flags (url ++ [src]) = escaped flags url ++ escapedByte flags src := by
  rw [escaped, flatMap_append, flatMap_singleton, escaped]

/-- An escaped byte takes two bytes more than another one. -/
theorem length_escaped (flags : ℕ) (url : Bytes) :
    (escaped flags url).length = url.length + 2 * url.countP (do_escape flags) := by
  induction url with
  | nil => rfl
  | cons src url ih =>
      rw [escaped_cons, length_append, ih, length_escapedByte, length_cons, countP_cons]
      split <;> omega

theorem length_escaped_le (flags : ℕ) (url : Bytes) :
    (escaped flags url).length ≤ 3 * url.length := by
  have := @countP_le_length _ (do_escape flags) url
  rw [length_escaped]
  omega

/-! #### The static buffer -/

/-- The buffers that calls leave: their last byte is never overwritten. -/
def Sized (buf : Bytes) : Prop := buf = [] ∨ buf.length % 3 = 1 ∧ buf.getLast? = some 0

/-- A write leaves the last byte of the buffer. -/
theorem storeByte_last (inside : dst < buf.length - 1) (last : buf.getLast? = some 0)
    (store : storeByte flags buf dst src = some (buf', dst')) : buf'.getLast? = some 0 := by
  rw [storeByte] at store
  split_ifs at store with escape room
  · cases store
    rw [getLast?_append, getLast?_drop, last, getLast?_append]
    split <;> rfl
  · cases store
    rw [getLast?_eq_getElem?, length_set, getElem?_set_ne (by omega), ← getLast?_eq_getElem?, last]

variable {after : Bytes}

theorem escapeLoop_last {n : ℕ} {url : Pointer} (last : buf.getLast? = some 0)
    (run : escapeLoop flags url buf n dst = some after) :
    after.getLast? = some 0 ∧ after.length = buf.length := by
  fun_induction escapeLoop flags url buf n dst with
  | case1 | case2 | case5 => cases run
  | case3 _ _ _ _ _ more _ _ store ih =>
      obtain ⟨last', same⟩ := ih (storeByte_last more.2 last store) run
      exact ⟨last', same.trans (storeByte_forward more.2 store).1⟩
  | case4 buf n dst src read stop room =>
      cases run
      refine ⟨?_, length_set⟩
      rw [getLast?_eq_getElem?, length_set] at *
      by_cases ends : dst = buf.length - 1
      · rw [← ends, getElem?_set_self room]
      · rw [getElem?_set_ne ends, last]

theorem sized_do_escape {url : Pointer} (sized : Sized buf)
    (run : rfc1738_do_escape buf url flags = some after) : Sized after ∧ 0 < after.length := by
  have ended {before : Bytes} (third : before.length % 3 = 1) (last : before.getLast? = some 0)
      (loop : escapeLoop flags url before 0 0 = some after) : Sized after ∧ 0 < after.length := by
    obtain ⟨last', same⟩ := escapeLoop_last last loop
    rw [Sized, same]
    exact ⟨.inr ⟨third, last'⟩, by omega⟩
  unfold rfc1738_do_escape at run
  split_ifs at run with grows
  · cases url with
    | outside text =>
        refine ended ?_ ?_ run
        · rw [length_replicate]
          omega
        · rw [getLast?_replicate, if_neg (Nat.succ_ne_zero _)]
    | inside offset => cases run
  · rcases sized with rfl | ⟨third, last⟩
    · exact absurd (.inl rfl) grows
    · exact ended third last run

theorem sized_bufferAfter {calls : List (Pointer × ℕ)} (reached : bufferAfter calls = some buf) :
    Sized buf := by
  have kept : ∀ {before : Bytes}, Sized before → calls.foldlM (fun buf call =>
      rfc1738_do_escape buf call.1 call.2) before = some buf → Sized buf := by
    clear reached
    induction calls with
    | nil =>
        intro before sized run
        cases run
        exact sized
    | cons call calls ih =>
        intro before sized run
        rw [foldlM_cons, bind_eq_bind, bind_eq_some_iff] at run
        obtain ⟨middle, first, later⟩ := run
        exact ih (sized_do_escape sized first).1 later
  exact kept (.inl rfl) reached

/-! #### A turn of the loop

The buffer is the text so far and what is behind it. -/

/-- What is behind the text when a byte was stored. -/
def behind (flags : ℕ) (src : UInt8) (back : Bytes) : Bytes :=
  if do_escape flags src then 0 :: back.drop 4 else back.drop 1

section

variable {flags offset n gap : ℕ} {url : Pointer} {src c : UInt8} {text back rest tail : Bytes}

theorem storeByte_eq (room : 3 < back.length ∨ ¬ do_escape flags src ∧ 0 < back.length) :
    storeByte flags (text ++ back) text.length src =
      some (text ++ escapedByte flags src ++ behind flags src back,
        (text ++ escapedByte flags src).length) := by
  rw [storeByte, escapedByte, behind]
  by_cases escape : do_escape flags src
  · have fits : 3 < back.length := room.resolve_right fun plain => plain.1 escape
    rw [if_pos escape, if_pos escape, if_pos escape, if_pos, take_left', drop_length_add_append]
    · simp
    · rfl
    · rw [length_append]
      omega
  · rw [if_neg escape, if_neg escape, if_neg escape, set_append_right _ _ le_rfl, Nat.sub_self,
      set_eq_take_append_cons_drop, if_pos (by omega)]
    simp

/-- A turn at a byte of the string. -/
theorem escapeLoop_turn (read : url.read (text ++ back) n = some src) (nonzero : src ≠ 0)
    (room : 3 < back.length ∨ ¬ do_escape flags src ∧ 1 < back.length) :
    escapeLoop flags url (text ++ back) n text.length =
      escapeLoop flags url (text ++ escapedByte flags src ++ behind flags src back) (n + 1)
        (text ++ escapedByte flags src).length := by
  have store := @storeByte_eq flags src text back
    (room.imp_right fun plain => ⟨plain.1, by omega⟩)
  rw [escapeLoop, read]
  dsimp only
  rw [dif_pos ⟨nonzero, by rw [length_append]; omega⟩]
  split
  · rename_i failed
    rw [store] at failed
    cases failed
  · rename_i stored
    cases stored.symm.trans store
    rfl

/-- The end of the loop, at the terminator of the string or with a full buffer. -/
theorem escapeLoop_end (read : url.read (text ++ back) n = some src) (room : 0 < back.length)
    (ends : src = 0 ∨ back.length = 1) :
    escapeLoop flags url (text ++ back) n text.length = some (text ++ 0 :: back.drop 1) := by
  rw [escapeLoop, read]
  dsimp only
  rw [dif_neg, if_pos, set_append_right _ _ le_rfl, Nat.sub_self,
    set_eq_take_append_cons_drop, if_pos room, take_zero, List.nil_append, Nat.zero_add]
  · rw [length_append]
    omega
  · rintro ⟨nonzero, more⟩
    rw [length_append] at more
    rcases ends with zero | full
    · exact nonzero zero
    · omega

theorem length_behind (room : 3 < back.length ∨ ¬ do_escape flags src ∧ 0 < back.length) :
    (escapedByte flags src).length + (behind flags src back).length = back.length := by
  rw [length_escapedByte, behind]
  split_ifs with escape
  · have fits : 3 < back.length := room.resolve_right fun plain => plain.1 escape
    rw [length_cons, length_drop]
    omega
  · rw [length_drop]
    omega

theorem length_escapedByte_le (flags : ℕ) (src : UInt8) : (escapedByte flags src).length ≤ 3 := by
  rw [length_escapedByte]
  split <;> omega

/-- The loop goes on with `rest`: behind the text it writes what stands for it, and a terminator. -/
def Escapes (flags : ℕ) (url : Pointer) (text back : Bytes) (n : ℕ) (rest : Bytes) : Prop :=
  ∃ left, escapeLoop flags url (text ++ back) n text.length =
      some (text ++ escaped flags rest ++ 0 :: left) ∧
    (escaped flags rest).length + left.length + 1 = back.length

theorem Escapes.nil (read : url.read (text ++ back) n = some src) (room : 0 < back.length)
    (ends : src = 0 ∨ back.length = 1) : Escapes flags url text back n [] := by
  refine ⟨back.drop 1, ?_, ?_⟩
  · rw [escapeLoop_end read room ends, escaped, flatMap_nil, List.append_nil]
  · rw [length_drop]
    change 0 + _ + 1 = _
    omega

theorem Escapes.cons (read : url.read (text ++ back) n = some c) (nonzero : c ≠ 0)
    (room : 3 < back.length) (later : Escapes flags url (text ++ escapedByte flags c)
      (behind flags c back) (n + 1) rest) : Escapes flags url text back n (c :: rest) := by
  have size := @length_behind flags c back (.inl room)
  obtain ⟨left, run, count⟩ := later
  refine ⟨left, ?_, ?_⟩
  · rw [escapeLoop_turn read nonzero (.inl room), run, escaped_cons, ← List.append_assoc]
  · rw [escaped_cons, length_append]
    omega

theorem cstr_eq_cons {l : Bytes} (string : cstr l = c :: rest) :
    ∃ later, l = c :: later ∧ c ≠ 0 ∧ cstr later = rest := by
  cases l with
  | nil => cases string
  | cons c' later =>
      by_cases zero : c' = 0
      · subst zero
        cases string
      · rw [cstr_cons zero] at string
        cases string
        exact ⟨later, rfl, zero, rfl⟩

theorem read_outside (source buf : Bytes) (n : ℕ) :
    (Pointer.outside source).read buf n = some ((source.drop n).headD 0) := by
  rw [headD_eq_head?_getD, List.head?_drop, ← getD_eq_getElem?_getD]
  rfl

/-- A string outside the buffer is escaped. -/
theorem escapeLoop_outside {source : Bytes} (rest : Bytes)
    (unread : cstr (source.drop n) = rest) (room : 3 * rest.length < back.length) :
    Escapes flags (.outside source) text back n rest := by
  have front := read_outside source (text ++ back) n
  induction rest generalizing n text back with
  | nil =>
      have ends : (source.drop n).headD 0 = 0 := by
        cases left : source.drop n with
        | nil => rfl
        | cons c later =>
            by_contra nonzero
            rw [headD_cons] at nonzero
            rw [left, cstr_cons nonzero] at unread
            cases unread
      exact .nil front (by omega) (.inl ends)
  | cons c rest ih =>
      obtain ⟨later, here, nonzero, unread'⟩ := cstr_eq_cons unread
      rw [length_cons] at room
      have next : source.drop (n + 1) = later := by
        rw [← drop_drop, here]
        rfl
      rw [here, headD_cons] at front
      have size := @length_behind flags c back (.inl (by omega))
      have shorter := length_escapedByte_le flags c
      exact .cons front nonzero (by omega)
        (ih (next ▸ unread') (by omega) (read_outside _ _ _))

/-! #### A string in the buffer -/

/-- No byte of a string in the static buffer is overwritten before it is read: `gap` is how far the
next byte is behind the end of the text, `dst`.  Behind the last one, the terminator that follows a
triplet may end the string, or the end of the buffer. -/
def Spared (flags bufsize : ℕ) : ℕ → ℕ → Bytes → Prop
  | _, _, [] => True
  | gap, dst, src :: rest =>
      if do_escape flags src then
        (2 < gap ∨ rest = [] ∧ (gap = 2 ∨ dst + 4 = bufsize)) ∧
          Spared flags bufsize (gap - 2) (dst + 3) rest
      else Spared flags bufsize gap (dst + 1) rest

instance Spared.decidable (flags bufsize : ℕ) :
    ∀ (gap dst : ℕ) (url : Bytes), Decidable (Spared flags bufsize gap dst url)
  | _, _, [] => .isTrue trivial
  | gap, dst, src :: rest =>
      have _later := Spared.decidable flags bufsize (gap - 2) (dst + 3) rest
      have _next := Spared.decidable flags bufsize gap (dst + 1) rest
      inferInstanceAs (Decidable (if do_escape flags src then _ ∧ _ else _))

theorem read_inside (at_gap : offset + n = text.length + gap) :
    (Pointer.inside offset).read (text ++ back) n = back[gap]? := by
  rw [Pointer.read, at_gap, List.getElem?_append_right (Nat.le_add_right _ _),
    Nat.add_sub_cancel_left]

theorem read_unread (at_gap : offset + n = text.length + gap) (unread : back.drop gap = c :: rest) :
    (Pointer.inside offset).read (text ++ back) n = some c := by
  rw [read_inside at_gap, ← Nat.add_zero gap, ← List.getElem?_drop, unread]
  rfl

/-- The terminator of the string is in the buffer, so that there is a byte behind one of it. -/
theorem read_next {new : Bytes} (at_gap : offset + n = text.length + gap)
    (unread : back.drop gap = c :: (rest ++ 0 :: tail))
    (total : new.length = (text ++ back).length) :
    ∃ c', (Pointer.inside offset).read new (n + 1) = some c' := by
  have length := congrArg List.length unread
  simp only [length_drop, length_cons, length_append] at length total
  exact ⟨_, List.getElem?_eq_getElem (show offset + (n + 1) < new.length by omega)⟩

theorem drop_succ_of_drop (unread : back.drop gap = c :: rest) : back.drop (gap + 1) = rest := by
  rw [← drop_drop, unread]
  rfl

/-- Behind a byte that is not escaped, the distance to the unread part stays. -/
theorem drop_behind_plain (plain : ¬ do_escape flags src) :
    (behind flags src back).drop gap = back.drop (gap + 1) := by
  rw [behind, if_neg plain, drop_drop, Nat.add_comm]

/-- Behind a triplet, it is shorter by two. -/
theorem drop_behind_escape (escape : do_escape flags src) (far : 2 < gap) :
    (behind flags src back).drop (gap - 2) = back.drop (gap + 1) := by
  obtain ⟨more, rfl⟩ := Nat.exists_eq_add_of_lt far
  rw [behind, if_pos escape, show 2 + more + 1 - 2 = more + 1 by omega, drop_succ_cons, drop_drop]
  congr 1
  omega

/-- The buffer keeps its length. -/
theorem length_turn (room : 3 < back.length) :
    (text ++ escapedByte flags c ++ behind flags c back).length = (text ++ back).length := by
  have size := @length_behind flags c back (.inl room)
  rw [length_append, length_append, length_append]
  omega

/-- A string in the buffer is escaped if none of its bytes is overwritten before it is read. -/
theorem escapeLoop_inside (rest : Bytes) (nonzero : 0 ∉ rest)
    (at_gap : offset + n = text.length + gap) (unread : back.drop gap = rest ++ 0 :: tail)
    (room : 3 * rest.length < back.length)
    (spared : Spared flags (text ++ back).length gap text.length rest) :
    Escapes flags (.inside offset) text back n rest := by
  induction rest generalizing n gap text back tail with
  | nil => exact .nil (read_unread at_gap unread) (by omega) (.inl rfl)
  | cons c rest ih =>
      rw [mem_cons, not_or] at nonzero
      rw [length_cons] at room
      have next := drop_succ_of_drop unread
      have fits : 3 < back.length := by omega
      have size := @length_behind flags c back (.inl fits)
      have total := @length_turn flags c text back fits
      have shorter := length_escapedByte_le flags c
      refine .cons (read_unread at_gap unread) (Ne.symm nonzero.1) fits ?_
      rw [Spared] at spared
      have width := length_escapedByte flags c
      have end_text : (text ++ escapedByte flags c).length =
          text.length + (escapedByte flags c).length := length_append
      by_cases escape : do_escape flags c
      · rw [if_pos escape] at spared width
        rw [width] at end_text
        obtain ⟨far | ⟨rfl, near | full⟩, later⟩ := spared
        · refine ih nonzero.2 ?_ (next ▸ drop_behind_escape escape far) (by omega) ?_
          · rw [end_text]
            omega
          · rwa [total, end_text]
        · -- the terminator behind the triplet ends the string
          refine @ih (n + 1) 0 _ _ (back.drop 4) nonzero.2 ?_ ?_ (by omega) trivial
          · rw [end_text]
            omega
          · rw [behind, if_pos escape]
            rfl
        · -- the text fills the buffer
          obtain ⟨c', read'⟩ := read_next at_gap unread total
          rw [length_append] at full
          exact .nil read' (by omega) (.inr (by omega))
      · rw [if_neg escape] at spared width
        rw [width] at end_text
        refine ih nonzero.2 ?_ (next ▸ drop_behind_plain escape) (by omega) ?_
        · rw [end_text]
          omega
        · rwa [total, end_text]

end

/-! ### Unescaping -/

/-- The byte that the two characters behind a `%` stand for. -/
def decoded (first second : UInt8) : Option UInt8 :=
  if fromhex first < 0 ∨ fromhex second < 0 then none
  else
    let x := hexPair (fromhex first) (fromhex second)
    if x = 0 then none else some (UInt8.ofNat x)

/-- The byte that the front of a text stands for, and how many characters behind the first one it
takes up. -/
def readUnit (c : UInt8) (rest : Bytes) : UInt8 × ℕ :=
  if c ≠ 37 then (c, 0)
  else
    match rest with
    | [] => (37, 0)
    | first :: rest =>
        if first = 37 then (37, 1)
        else
          match rest with
          | [] => (37, 0)
          | second :: _ =>
              match decoded first second with
              | some x => (x, 2)
              | none => (37, 0)

variable {c : UInt8}

theorem readUnit_plain (plain : c ≠ 37) (rest : Bytes) : readUnit c rest = (c, 0) :=
  if_pos plain

/-- A byte stands for itself, in front of a second `%` or for a decoded byte. -/
theorem readUnit_cases (c : UInt8) (rest : Bytes) :
    readUnit c rest = (c, 0) ∨ (∃ left, rest = 37 :: left ∧ readUnit c rest = (37, 1)) ∨
      ∃ first second x left, rest = first :: second :: left ∧ decoded first second = some x ∧
        readUnit c rest = (x, 2) := by
  by_cases plain : c ≠ 37
  · exact .inl (readUnit_plain plain rest)
  · rw [not_not] at plain
    subst plain
    rw [readUnit.eq_def, if_neg (fun h => h rfl)]
    cases rest with
    | nil => exact .inl rfl
    | cons first rest =>
        dsimp only
        by_cases percent : first = 37
        · subst percent
          exact .inr (.inl ⟨rest, rfl, if_pos rfl⟩)
        · rw [if_neg percent]
          cases rest with
          | nil => exact .inl rfl
          | cons second rest =>
              dsimp only
              cases found : decoded first second with
              | none => exact .inl rfl
              | some x => exact .inr (.inr ⟨first, second, x, rest, rfl, found, rfl⟩)

theorem readUnit_le (c : UInt8) (rest : Bytes) : (readUnit c rest).2 ≤ rest.length := by
  rcases readUnit_cases c rest with unit | ⟨left, rfl, unit⟩ | ⟨_, _, _, left, rfl, -, unit⟩ <;>
    rw [unit]
  · exact Nat.zero_le _
  · exact Nat.succ_le_succ (Nat.zero_le _)
  · exact Nat.succ_le_succ (Nat.succ_le_succ (Nat.zero_le _))

/-- The string that a text stands for. -/
def unescaped : Bytes → Bytes
  | [] => []
  | c :: rest => (readUnit c rest).1 :: unescaped (rest.drop (readUnit c rest).2)
termination_by text => text.length
decreasing_by
  rw [length_drop, length_cons]
  omega

theorem length_unescaped_le (text : Bytes) : (unescaped text).length ≤ text.length := by
  induction text using unescaped.induct with
  | case1 => rw [unescaped]
  | case2 c rest ih =>
      rw [length_drop] at ih
      rw [unescaped, length_cons, length_cons]
      omega

theorem fromhex_le (ch : UInt8) : fromhex ch ≤ 15 := by
  have := ch.toNat_lt
  simp only [fromhex, UInt8.le_iff_toNat_le, UInt8.reduceToNat]
  split
  · omega
  · split
    · omega
    · split <;> omega

theorem hexPair_le (first second : UInt8) : hexPair (fromhex first) (fromhex second) ≤ 255 := by
  have high := fromhex_le first
  have low := fromhex_le second
  have small : (fromhex first).toNat <<< 4 < 2 ^ 8 := by
    rw [Nat.shiftLeft_eq]
    omega
  have small' : (fromhex second).toNat < 2 ^ 8 := by omega
  exact Nat.lt_succ_iff.mp (Nat.or_lt_two_pow small small')

variable {rest : Bytes}

/-- The part of a turn behind a `%` reads what is left of the string, and its terminator. -/
theorem decodeAt_eq (unread : s.drop (j + 1) = rest ++ [0]) (copied : s[i]? = some 37) :
    decodeAt s i j = some (s.set i (readUnit 37 rest).1, (readUnit 37 rest).2) := by
  have same : s.set i 37 = s := by
    obtain ⟨inside, value⟩ := List.getElem?_eq_some_iff.mp copied
    rw [← value]
    exact set_getElem_self inside
  have read (k : ℕ) : s[j + 1 + k]? = (rest ++ [0])[k]? := by
    rw [← unread, List.getElem?_drop]
  have front : s[j + 1]? = (rest ++ [0])[0]? := read 0
  have next : s[j + 2]? = (rest ++ [0])[1]? := read 1
  cases rest with
  | nil =>
      rw [decodeAt, front]
      exact congrArg (fun t => some (t, 0)) same.symm
  | cons first rest =>
      rw [decodeAt, front]
      simp only [cons_append, List.getElem?_cons_zero, bind_eq_bind,
        bind_some, readUnit, if_neg (fun h : (37 : UInt8) ≠ 37 => h rfl)]
      by_cases percent : first = 37
      · simp only [if_pos percent, same]
      · simp only [if_neg percent]
        cases rest with
        | nil =>
            rw [next, same]
            by_cases digit : fromhex first < 0
            · rw [if_pos digit]
            · rw [if_neg digit]
              rfl
        | cons second rest =>
            rw [next]
            simp only [cons_append, List.getElem?_cons_succ, List.getElem?_cons_zero,
              bind_some, decoded]
            by_cases digit : fromhex first < 0
            · rw [if_pos digit, if_pos (.inl digit), same]
            · by_cases digit' : fromhex second < 0
              · rw [if_neg digit, if_pos digit', if_pos (.inr digit'), same]
              · rw [if_neg digit, if_neg digit', if_neg (not_or.mpr ⟨digit, digit'⟩)]
                by_cases zero : hexPair (fromhex first) (fromhex second) = 0
                · rw [if_neg (by omega), if_pos zero, same]
                · rw [if_pos ⟨by omega, hexPair_le first second⟩, if_neg zero]

/-- One turn writes the byte that the front of the text stands for. -/
theorem unescapeTurn_eq (behind : i ≤ j) (unread : s.drop j = c :: (rest ++ [0]))
    (nonzero : c ≠ 0) :
    unescapeTurn s i j =
      some (.inr (s.set i (readUnit c rest).1, i + 1, j + (readUnit c rest).2 + 1)) := by
  have inside : j < s.length := by
    apply Nat.lt_of_not_le
    intro outside
    rw [drop_eq_nil_of_le outside] at unread
    cases unread
  have read : s[j]? = some c := by
    rw [← Nat.add_zero j, ← List.getElem?_drop, unread]
    rfl
  rw [unescapeTurn, read]
  simp only [bind_eq_bind, bind_some, if_neg nonzero]
  by_cases plain : c ≠ 37
  · rw [if_pos plain, readUnit_plain plain]
    rfl
  · rw [not_not] at plain
    subst plain
    have unread' : (s.set i 37).drop (j + 1) = rest ++ [0] := by
      rw [drop_set_of_lt (Nat.lt_succ_of_le behind), Nat.succ_eq_add_one, ← drop_drop, unread]
      rfl
    have copied : (s.set i 37)[i]? = some 37 :=
      List.getElem?_set_self (Nat.lt_of_le_of_lt behind inside)
    rw [if_neg (fun h => h rfl), decodeAt_eq unread' copied, bind_some, List.set_set]

/-- The loop writes the string that the unread text stands for behind what it has written. -/
theorem unescapeLoop_eq {s written : Bytes} (text : Bytes) (nonzero : 0 ∉ text) {j : ℕ}
    (front : s.take written.length = written) (behind : written.length ≤ j)
    (unread : s.drop j = text ++ [0]) :
    ∃ left, unescapeLoop s written.length j = some (written ++ unescaped text ++ 0 :: left) ∧
      (written ++ unescaped text ++ 0 :: left).length = s.length := by
  have inside : j < s.length := by
    have length := congrArg List.length unread
    rw [length_drop, length_append, length_singleton] at length
    omega
  induction text using unescaped.induct generalizing s written j with
  | case1 =>
      have read : s[j]? = some 0 := by
        rw [← Nat.add_zero j, ← List.getElem?_drop, unread]
        rfl
      have turn : unescapeTurn s written.length j = some (.inl (s.set written.length 0)) := by
        rw [unescapeTurn, read]
        exact if_pos (Nat.lt_of_le_of_lt behind inside)
      refine ⟨s.drop (written.length + 1), ?_, ?_⟩
      · rw [unescapeLoop, turn, unescaped, List.append_nil,
          set_eq_take_append_cons_drop, if_pos (Nat.lt_of_le_of_lt behind inside), front]
      · rw [unescaped, List.append_nil, length_append, length_cons, length_drop]
        omega
  | case2 c rest ih =>
      rw [mem_cons, not_or] at nonzero
      have turn := unescapeTurn_eq behind unread (Ne.symm nonzero.1)
      have skip := readUnit_le c rest
      have inside' : written.length < s.length := Nat.lt_of_le_of_lt behind inside
      have longer : (written ++ [(readUnit c rest).1]).length = written.length + 1 := by
        rw [length_append, length_singleton]
      have front' : (s.set written.length (readUnit c rest).1).take
          (written ++ [(readUnit c rest).1]).length = written ++ [(readUnit c rest).1] := by
        rw [longer, set_eq_take_append_cons_drop, if_pos inside', front, take_length_add_append]
        rfl
      have unread' : (s.set written.length (readUnit c rest).1).drop
          (j + (readUnit c rest).2 + 1) = rest.drop (readUnit c rest).2 ++ [0] := by
        rw [drop_set_of_lt (by omega), Nat.add_assoc, ← drop_drop, unread,
          cons_append, drop_succ_cons, drop_append_of_le_length skip]
      have nonzero' : 0 ∉ rest.drop (readUnit c rest).2 := fun zero =>
        nonzero.2 (mem_of_mem_drop zero)
      have inside'' : j + (readUnit c rest).2 + 1 <
          (s.set written.length (readUnit c rest).1).length := by
        have length := congrArg List.length unread'
        rw [length_drop, length_append, length_singleton] at length
        omega
      obtain ⟨left, result, size⟩ := ih nonzero' front' (by omega) unread' inside''
      rw [longer] at result
      rw [length_set] at size
      have whole : written ++ [(readUnit c rest).1] ++
          unescaped (rest.drop (readUnit c rest).2) = written ++ unescaped (c :: rest) := by
        rw [unescaped, List.append_assoc, singleton_append]
      rw [whole] at result size
      refine ⟨left, ?_, size⟩
      rw [unescapeLoop, turn]
      exact result

/-- Unescaping writes the string that the text stands for, and its terminator, into the memory of
the text. -/
theorem rfc1738_unescape_eq (text : Bytes) (nonzero : 0 ∉ text) :
    ∃ left, rfc1738_unescape (text ++ [0]) = some (unescaped text ++ 0 :: left) ∧
      (unescaped text ++ 0 :: left).length = (text ++ [0]).length :=
  @unescapeLoop_eq (text ++ [0]) [] text nonzero 0 rfl (Nat.le_refl 0) rfl

/-! ### Round trips -/

variable {n : UInt8}

/-- A digit of a triplet is read back, and is one of the characters that are never escaped. -/
theorem hexDigit_spec (small : n < 16) :
    fromhex (hexDigit n) = n.toNat ∧ hexDigit n ≠ 37 ∧
      (97 ≤ hexDigit n ∧ hexDigit n ≤ 122 ∨ 65 ≤ hexDigit n ∧ hexDigit n ≤ 90 ∨
        48 ≤ hexDigit n ∧ hexDigit n ≤ 57) := by
  have all : ∀ i : Fin 16, fromhex (hexDigit (UInt8.ofNat i)) = (UInt8.ofNat i).toNat ∧
      hexDigit (UInt8.ofNat i) ≠ 37 ∧
      (97 ≤ hexDigit (UInt8.ofNat i) ∧ hexDigit (UInt8.ofNat i) ≤ 122 ∨
        65 ≤ hexDigit (UInt8.ofNat i) ∧ hexDigit (UInt8.ofNat i) ≤ 90 ∨
        48 ≤ hexDigit (UInt8.ofNat i) ∧ hexDigit (UInt8.ofNat i) ≤ 57) := by
    decide
  have lt : n.toNat < 16 := UInt8.lt_iff_toNat_lt.mp small
  have found := all ⟨n.toNat, lt⟩
  rwa [UInt8.ofNat_toNat] at found

theorem digits_small (src : UInt8) : src / 16 < 16 ∧ src % 16 < 16 := by
  rw [UInt8.lt_iff_toNat_lt, UInt8.lt_iff_toNat_lt, UInt8.toNat_div, UInt8.toNat_mod]
  have := src.toNat_lt
  exact ⟨Nat.div_lt_of_lt_mul this, Nat.mod_lt _ (by decide)⟩

/-- A triplet stands for its byte. -/
theorem readUnit_triplet (nonzero : src ≠ 0) (rest : Bytes) :
    readUnit 37 (hexDigit (src / 16) :: hexDigit (src % 16) :: rest) = (src, 2) := by
  obtain ⟨high, plain, -⟩ := hexDigit_spec (digits_small src).1
  obtain ⟨low, -, -⟩ := hexDigit_spec (digits_small src).2
  have pair : hexPair (fromhex (hexDigit (src / 16))) (fromhex (hexDigit (src % 16))) =
      src.toNat := by
    have small : src.toNat % 16 < 2 ^ 4 := Nat.mod_lt _ (by decide)
    rw [hexPair, high, low, Int.toNat_natCast, Int.toNat_natCast, UInt8.toNat_div, UInt8.toNat_mod]
    change (src.toNat / 16) <<< 4 ||| src.toNat % 16 = src.toNat
    rw [← Nat.shiftLeft_add_eq_or_of_lt small, Nat.shiftLeft_eq]
    omega
  have nonzero' : src.toNat ≠ 0 := fun zero => nonzero (UInt8.toNat_inj.mp zero)
  have digits : decoded (hexDigit (src / 16)) (hexDigit (src % 16)) = some src := by
    rw [decoded, if_neg (by omega), pair, if_neg nonzero', UInt8.ofNat_toNat]
  rw [readUnit.eq_def, if_neg (fun h => h rfl)]
  simp only [if_neg plain, digits]

/-- The front of a text stands for the string that it was made of where each `%` was escaped. -/
theorem unescaped_escaped_append (percent : do_escape flags 37) (url more : Bytes)
    (nonzero : 0 ∉ url) : unescaped (escaped flags url ++ more) = url ++ unescaped more := by
  induction url with
  | nil => rw [escaped, flatMap_nil, List.nil_append, List.nil_append]
  | cons src url ih =>
      rw [mem_cons, not_or] at nonzero
      rw [escaped_cons, escapedByte]
      by_cases escape : do_escape flags src
      · rw [if_pos escape, List.append_assoc]
        change unescaped (37 :: _ :: _ :: (escaped flags url ++ more)) = _
        rw [unescaped, readUnit_triplet (Ne.symm nonzero.1)]
        exact congrArg (src :: ·) (ih nonzero.2)
      · have plain : src ≠ 37 := by
          rintro rfl
          exact escape percent
        rw [if_neg escape, singleton_append, cons_append, unescaped, readUnit_plain plain]
        exact congrArg (src :: ·) (ih nonzero.2)

theorem unescaped_escaped (percent : do_escape flags 37) (url : Bytes) (nonzero : 0 ∉ url) :
    unescaped (escaped flags url) = url := by
  have whole := unescaped_escaped_append percent url [] nonzero
  rwa [List.append_nil, unescaped, List.append_nil] at whole

theorem length_le_unescaped (text : Bytes) : text.length ≤ 3 * (unescaped text).length := by
  induction text using unescaped.induct with
  | case1 => exact Nat.zero_le _
  | case2 c rest ih =>
      have short : (readUnit c rest).2 ≤ 2 := by
        rcases readUnit_cases c rest with unit | ⟨_, -, unit⟩ | ⟨_, _, _, _, -, -, unit⟩ <;>
          rw [unit] <;> exact Nat.le_of_ble_eq_true rfl
      rw [length_drop] at ih
      rw [unescaped, length_cons, length_cons]
      omega

theorem do_escape_hexDigit (flags : ℕ) (small : n < 16) : ¬ do_escape flags (hexDigit n) := by
  rw [do_escape, if_pos (hexDigit_spec small).2.2]
  exact Bool.false_ne_true

variable {url : Bytes}

/-- No byte of a text is escaped again where `%` is not escaped. -/
theorem do_escape_of_mem_escaped (percent : ¬ do_escape flags 37) (member : c ∈ escaped flags url) :
    ¬ do_escape flags c := by
  obtain ⟨src, -, member⟩ := mem_flatMap.mp member
  rw [escapedByte] at member
  by_cases escape : do_escape flags src
  · rw [if_pos escape] at member
    simp only [mem_cons, not_mem_nil, or_false] at member
    rcases member with rfl | rfl | rfl
    · exact percent
    · exact do_escape_hexDigit flags (digits_small src).1
    · exact do_escape_hexDigit flags (digits_small src).2
  · rw [if_neg escape, mem_singleton] at member
    rwa [member]

theorem escaped_of_plain (url : Bytes) (plain : ∀ c ∈ url, ¬ do_escape flags c) :
    escaped flags url = url := by
  induction url with
  | nil => rfl
  | cons src url ih =>
      rw [escaped, flatMap_cons, ← escaped, escapedByte, if_neg (plain src (by simp)),
        ih fun c member => plain c (List.mem_cons_of_mem src member)]
      rfl

/-! ### The functions on strings -/

/-- The string that `rfc1738_unescape` leaves in the memory of a string. -/
def unescapedString (s : Bytes) : Option Bytes := (rfc1738_unescape (s ++ [0])).map cstr

theorem decoded_ne_zero {first second x : UInt8} (found : decoded first second = some x) :
    x ≠ 0 := by
  simp only [decoded, ite_none_left_eq_some, some.injEq] at found
  obtain ⟨-, positive, rfl⟩ := found
  have small := hexPair_le first second
  intro zero
  have value := congrArg UInt8.toNat zero
  rw [UInt8.toNat_ofNat_of_lt' (Nat.lt_succ_iff.mpr small)] at value
  exact positive value

theorem readUnit_ne_zero (nonzero : c ≠ 0) (rest : Bytes) : (readUnit c rest).1 ≠ 0 := by
  rcases readUnit_cases c rest with unit | ⟨_, -, unit⟩ | ⟨_, _, x, _, -, found, unit⟩ <;>
    rw [unit]
  · exact nonzero
  · decide
  · exact decoded_ne_zero found

/-- `%00` is not decoded. -/
theorem zero_notMem_unescaped (text : Bytes) (nonzero : 0 ∉ text) : 0 ∉ unescaped text := by
  induction text using unescaped.induct with
  | case1 => rwa [unescaped]
  | case2 c rest ih =>
      rw [mem_cons, not_or] at nonzero
      rw [unescaped, mem_cons, not_or]
      exact ⟨(readUnit_ne_zero (Ne.symm nonzero.1) rest).symm,
        ih fun zero => nonzero.2 (mem_of_mem_drop zero)⟩

theorem hexDigit_ne_zero (small : n < 16) : hexDigit n ≠ 0 := by
  intro absent
  have range := (hexDigit_spec small).2.2
  rw [absent] at range
  revert range
  decide

theorem zero_notMem_escapedByte (flags : ℕ) (nonzero : src ≠ 0) : 0 ∉ escapedByte flags src := by
  intro zero
  rw [escapedByte] at zero
  by_cases escape : do_escape flags src
  · rw [if_pos escape] at zero
    simp only [mem_cons, not_mem_nil, or_false] at zero
    rcases zero with percent | high | low
    · exact absurd percent (by decide)
    · exact hexDigit_ne_zero (digits_small src).1 high.symm
    · exact hexDigit_ne_zero (digits_small src).2 low.symm
  · rw [if_neg escape, mem_singleton] at zero
    exact nonzero zero.symm

theorem zero_notMem_escaped (flags : ℕ) (nonzero : 0 ∉ url) : 0 ∉ escaped flags url := by
  intro zero
  obtain ⟨src, member, zero⟩ := mem_flatMap.mp zero
  exact zero_notMem_escapedByte flags (fun absent => nonzero (absent ▸ member)) zero

theorem unescapedString_eq (text : Bytes) (nonzero : 0 ∉ text) :
    unescapedString text = some (unescaped text) := by
  obtain ⟨left, result, -⟩ := rfc1738_unescape_eq text nonzero
  rw [unescapedString, result, map_some, cstr_append_of_plain (zero_notMem_unescaped text nonzero)]
  exact congrArg some (List.append_nil _)

theorem zero_notMem_cstr (l : Bytes) : 0 ∉ cstr l := fun zero =>
  absurd (mem_takeWhile_imp zero) (by decide)

theorem cstr_split {l : Bytes} (terminated : 0 ∈ l) : ∃ tail, l = cstr l ++ 0 :: tail := by
  induction l with
  | nil => cases terminated
  | cons c l ih =>
      by_cases zero : c = 0
      · subst zero
        exact ⟨l, rfl⟩
      · obtain ⟨tail, rest⟩ := ih ((mem_cons.mp terminated).resolve_left (Ne.symm zero))
        exact ⟨tail, by rw [cstr_cons zero, cons_append, ← rest]⟩

/-- The size of the static buffer after it was made large enough for a string. -/
def grownSize (bufsize len : ℕ) : ℕ :=
  if bufsize = 0 ∨ len * 3 > bufsize then len * 3 + 1 else bufsize

/-- The string lies outside the static buffer, or in it such that the buffer is not freed and no
byte is overwritten before it is read. -/
def Pointer.Intact (flags : ℕ) (buf : Bytes) : Pointer → Prop
  | .outside _ => True
  | .inside offset => (cstr (buf.drop offset)).length * 3 ≤ buf.length ∧
      Spared flags buf.length offset 0 (cstr (buf.drop offset))

instance (flags : ℕ) (buf : Bytes) : ∀ url : Pointer, Decidable (url.Intact flags buf)
  | .outside _ => .isTrue trivial
  | .inside _ => inferInstanceAs (Decidable (_ ∧ _))

/-- The string in the buffer, and its terminator. -/
theorem unread_inside {offset : ℕ} (sized : Sized buf) (valid : offset < buf.length) :
    buf.length % 3 = 1 ∧ ∃ tail, buf.drop offset = cstr (buf.drop offset) ++ 0 :: tail := by
  rcases sized with rfl | ⟨third, last⟩
  · cases valid
  · refine ⟨third, cstr_split (mem_of_getLast? ?_)⟩
    rw [getLast?_drop, if_neg (by omega), last]

theorem cstr_ended {text left : Bytes} (plain : 0 ∉ text) : cstr (text ++ 0 :: left) = text :=
  (cstr_append_of_plain plain _).trans (List.append_nil _)

theorem zero_notMem_string (buf : Bytes) (url : Pointer) : 0 ∉ url.string buf := by
  cases url <;> exact zero_notMem_cstr _

/-- What the buffer holds after a string was escaped. -/
theorem rfc1738_do_escape_eq {flags : ℕ} {buf : Bytes} {url : Pointer} (sized : Sized buf)
    (valid : url.Valid buf) (intact : url.Intact flags buf) :
    ∃ after, rfc1738_do_escape buf url flags = some after ∧
      cstr after = escaped flags (url.string buf) ∧
      after.length = grownSize buf.length (url.string buf).length := by
  have held {before : Bytes} (escapes : Escapes flags url [] before 0 (url.string buf)) :
      ∃ after, escapeLoop flags url before 0 0 = some after ∧
        cstr after = escaped flags (url.string buf) ∧ after.length = before.length := by
    obtain ⟨left, run, count⟩ := escapes
    refine ⟨_, run, cstr_ended (zero_notMem_escaped flags (zero_notMem_string buf url)), ?_⟩
    rwa [length_append, length_cons, ← Nat.add_assoc]
  unfold rfc1738_do_escape grownSize
  cases url with
  | outside source =>
      rw [show (Pointer.outside source).string buf = cstr source from rfl] at held ⊢
      split_ifs with grows
      · have room : 3 * (cstr source).length <
            (List.replicate ((cstr source).length * 3 + 1) (0 : UInt8)).length := by
          rw [length_replicate]
          omega
        have found := held (escapeLoop_outside _ rfl room)
        rwa [length_replicate] at found
      · rcases sized with rfl | ⟨third, -⟩
        · exact absurd (.inl rfl) grows
        · exact held (escapeLoop_outside _ rfl (show 3 * (cstr source).length < _ by omega))
  | inside offset =>
      obtain ⟨third, tail, unread⟩ := unread_inside sized valid
      have positive : offset < buf.length := valid
      obtain ⟨fits, spared⟩ := intact
      have stays : ¬ (buf.length = 0 ∨
          ((Pointer.inside offset).string buf).length * 3 > buf.length) := by
        rw [Pointer.string]
        omega
      rw [if_neg stays, if_neg stays]
      exact held (escapeLoop_inside _ (zero_notMem_cstr _)
        (show offset + 0 = 0 + offset by omega) unread (by omega) spared)

/-! ### A string that is overwritten -/

section

variable {flags offset n gap : ℕ} {c : UInt8} {text back rest tail after front : Bytes}

/-- A triplet that does not fit ends outside the buffer. -/
theorem escapeLoop_overflow {url : Pointer} (read : url.read (text ++ back) n = some c)
    (nonzero : c ≠ 0) (escape : do_escape flags c) (more : 1 < back.length)
    (short : back.length ≤ 3) : escapeLoop flags url (text ++ back) n text.length = none := by
  have failed : storeByte flags (text ++ back) text.length c = none := by
    rw [storeByte, if_pos escape, if_neg]
    rw [length_append]
    omega
  rw [escapeLoop, read]
  dsimp only
  rw [dif_pos ⟨nonzero, by rw [length_append]; omega⟩]
  split
  · rfl
  · rename_i stored
    cases failed.symm.trans stored

/-- Once the loop reads what it has written, it goes on until the buffer is full. -/
theorem escapeLoop_overtaken (nonzero : 0 ∉ text) (passed : offset + n < text.length)
    (some_room : 0 < back.length)
    (run : escapeLoop flags (.inside offset) (text ++ back) n text.length = some after) :
    ∃ more, 0 ∉ more ∧ after = text ++ more ++ [0] ∧ more.length + 1 = back.length := by
  induction left : back.length using Nat.strong_induction_on generalizing n text back with
  | _ left ih =>
      subst left
      have read : (Pointer.inside offset).read (text ++ back) n = some text[offset + n] := by
        rw [Pointer.read, List.getElem?_append_left passed, List.getElem?_eq_getElem]
      have nonzero' : text[offset + n] ≠ 0 := fun zero => nonzero (zero ▸ getElem_mem passed)
      generalize text[offset + n] = c at read nonzero'
      by_cases full : back.length = 1
      · rw [escapeLoop_end read some_room (.inr full), drop_eq_nil_of_le full.le] at run
        cases run
        exact ⟨[], nofun, by rw [List.append_nil], full.symm⟩
      · have room : 3 < back.length ∨ ¬ do_escape flags c ∧ 1 < back.length := by
          by_cases escape : do_escape flags c
          · refine .inl (Nat.lt_of_not_le fun short => ?_)
            rw [escapeLoop_overflow read nonzero' escape (by omega) short] at run
            cases run
          · exact .inr ⟨escape, by omega⟩
        have size := length_behind (room.imp_right fun plain => ⟨plain.1, by omega⟩)
        have width := length_escapedByte flags c
        have progress : 0 < (escapedByte flags c).length ∧ 0 < (behind flags c back).length := by
          rcases room with fits | ⟨plain, more⟩
          · split at width <;> omega
          · rw [if_neg plain] at width
            omega
        rw [escapeLoop_turn read nonzero' room] at run
        obtain ⟨more, plain, ended, count⟩ := ih _ (by omega) (fun zero =>
          (mem_append.mp zero).elim nonzero (zero_notMem_escapedByte flags nonzero'))
          (by rw [length_append]; omega) progress.2 run rfl
        refine ⟨escapedByte flags c ++ more, fun zero => ?_, ?_, ?_⟩
        · exact (mem_append.mp zero).elim (zero_notMem_escapedByte flags nonzero') plain
        · rw [ended, List.append_assoc text]
        · rw [length_append]
          omega

/-- The byte that is read next is a digit of the triplet: the loop goes on until the buffer is full,
and the text is too long. -/
theorem unescaped_ne_of_overtaken (percent : do_escape flags 37) (escape : do_escape flags c)
    (nonzero : 0 ∉ front ++ [c]) (near : gap < 2)
    (at_gap : offset + n = (escaped flags front).length + gap)
    (room : 1 < (behind flags c back).length)
    (fits : 3 * (front ++ [c] ++ rest).length <
      (escaped flags (front ++ [c]) ++ behind flags c back).length)
    (run : escapeLoop flags (.inside offset) (escaped flags (front ++ [c]) ++ behind flags c back)
      (n + 1) (escaped flags (front ++ [c])).length = some after) :
    unescaped (cstr after) ≠ front ++ [c] ++ rest := by
  have end_text : (escaped flags (front ++ [c])).length = (escaped flags front).length + 3 := by
    rw [escaped_concat, length_append, length_escapedByte, if_pos escape]
  obtain ⟨x, plain, percent', nonzero_x, read⟩ : ∃ x, ¬ do_escape flags x ∧ x ≠ 37 ∧ x ≠ 0 ∧
      (Pointer.inside offset).read (escaped flags (front ++ [c]) ++ behind flags c back) (n + 1) =
        some x := by
    rw [escaped_concat, List.append_assoc, @read_inside offset (n + 1) (gap + 1) _ _ (by omega),
      escapedByte, if_pos escape]
    obtain ⟨high, low⟩ := digits_small c
    obtain rfl | rfl : gap = 0 ∨ gap = 1 := by omega
    · exact ⟨_, do_escape_hexDigit flags high, (hexDigit_spec high).2.1, hexDigit_ne_zero high, rfl⟩
    · exact ⟨_, do_escape_hexDigit flags low, (hexDigit_spec low).2.1, hexDigit_ne_zero low, rfl⟩
  have single : escapedByte flags x = [x] := if_neg plain
  have size := @length_behind flags x (behind flags c back) (.inr ⟨plain, by omega⟩)
  rw [escapeLoop_turn read nonzero_x (.inr ⟨plain, room⟩), single] at run
  rw [single, length_singleton] at size
  have nonzero_text : 0 ∉ escaped flags (front ++ [c]) ++ [x] := fun zero =>
    (mem_append.mp zero).elim (zero_notMem_escaped flags nonzero)
      fun at_x => nonzero_x (mem_singleton.mp at_x).symm
  obtain ⟨more, nonzero_more, ended, count⟩ := escapeLoop_overtaken nonzero_text
    (by rw [length_append, end_text, length_singleton]; omega) (by omega) run
  have whole : cstr after = escaped flags (front ++ [c]) ++ x :: more := by
    rw [ended, List.append_assoc, cstr_append_of_plain nonzero_text,
      cstr_append_of_plain nonzero_more, List.append_assoc]
    exact congrArg (_ ++ x :: ·) (List.append_nil _)
  rw [whole, unescaped_escaped_append percent _ _ nonzero, unescaped, readUnit_plain percent',
    drop_zero]
  intro same
  have long := length_le_unescaped more
  have text_le := length_escaped_le flags (front ++ [c])
  have lengths := congrArg List.length same
  simp only [length_append, length_cons, length_nil] at lengths fits text_le
  omega

/-- The text of a string that is overwritten before it is read stands for another one: it ends
early, or the loop is overtaken. -/
theorem unescaped_ne_of_overwritten (percent : do_escape flags 37) (front rest : Bytes)
    (nonzero : 0 ∉ front ++ rest) (at_gap : offset + n = (escaped flags front).length + gap)
    (unread : back.drop gap = rest ++ 0 :: tail) (room : 3 * rest.length < back.length)
    (fits : 3 * (front ++ rest).length < (escaped flags front ++ back).length)
    (overwritten : ¬ Spared flags (escaped flags front ++ back).length gap
      (escaped flags front).length rest)
    (run : escapeLoop flags (.inside offset) (escaped flags front ++ back) n
      (escaped flags front).length = some after) : unescaped (cstr after) ≠ front ++ rest := by
  induction rest generalizing front n gap back tail with
  | nil => exact absurd trivial overwritten
  | cons c rest ih =>
      rw [append_cons] at nonzero fits ⊢
      have nonzero_front : 0 ∉ front ++ [c] := fun zero =>
        nonzero (List.mem_append_left _ zero)
      have nonzero_c : c ≠ 0 := fun zero => nonzero_front (by simp [zero])
      rw [length_cons] at room
      have next := drop_succ_of_drop unread
      have enough : 3 < back.length := by omega
      have size := @length_behind flags c back (.inl enough)
      have width := length_escapedByte flags c
      have total : (escaped flags (front ++ [c]) ++ behind flags c back).length =
          (escaped flags front ++ back).length := by
        rw [escaped_concat, length_turn enough]
      have end_text : (escaped flags (front ++ [c])).length =
          (escaped flags front).length + (escapedByte flags c).length := by
        rw [escaped_concat, length_append]
      rw [escapeLoop_turn (read_unread at_gap unread) nonzero_c (.inl enough),
        ← escaped_concat] at run
      rw [← total] at fits
      rw [Spared] at overwritten
      by_cases escape : do_escape flags c
      · rw [if_pos escape] at overwritten width
        rw [width] at end_text
        have early {x : UInt8} (some_left : rest ≠ [])
            (read : (Pointer.inside offset).read
              (escaped flags (front ++ [c]) ++ behind flags c back) (n + 1) = some x)
            (ends : x = 0 ∨ (behind flags c back).length = 1) :
            unescaped (cstr after) ≠ front ++ [c] ++ rest := by
          rw [escapeLoop_end read (by omega) ends] at run
          rw [← some.inj run, cstr_ended (zero_notMem_escaped flags nonzero_front),
            unescaped_escaped percent _ nonzero_front]
          exact fun same => some_left (self_eq_append_right.mp same)
        by_cases far : 2 < gap
        · refine ih (front ++ [c]) nonzero ?_ (next ▸ drop_behind_escape escape far) (by omega)
            fits ?_ run
          · rw [end_text]
            omega
          · rw [total, end_text]
            exact fun later => overwritten ⟨.inl far, later⟩
        · by_cases ends : gap = 2 ∨
              (escaped flags front).length + 4 = (escaped flags front ++ back).length
          · have some_left : rest ≠ [] := by
              rintro rfl
              exact overwritten ⟨.inr ⟨rfl, ends⟩, trivial⟩
            rcases ends with rfl | full
            · refine @early 0 some_left ?_ (.inl rfl)
              rw [@read_inside offset (n + 1) 0 _ _ (by rw [end_text]; omega), behind,
                if_pos escape]
              rfl
            · obtain ⟨x, read⟩ := read_next at_gap unread total
              rw [length_append] at full
              exact early some_left read (.inr (by omega))
          · rw [not_or, length_append] at ends
            exact unescaped_ne_of_overtaken percent escape nonzero_front (by omega) at_gap
              (by omega) fits run
      · rw [if_neg escape] at overwritten width
        rw [width] at end_text
        refine ih (front ++ [c]) nonzero ?_ (next ▸ drop_behind_plain escape) (by omega)
          fits ?_ run
        · rw [end_text]
          omega
        · rwa [total, end_text]

end

/-! ### The laws -/

/-- Escaping with `%` among the unsafe characters is undone by unescaping if and only if the string
is intact. -/
theorem undone_iff {flags : ℕ} {buf : Bytes} {url : Pointer} (percent : do_escape flags 37)
    (sized : Sized buf) (valid : url.Valid buf) :
    (∃ after, rfc1738_do_escape buf url flags = some after ∧
      unescapedString (cstr after) = some (url.string buf)) ↔ url.Intact flags buf := by
  have plain := zero_notMem_string buf url
  constructor
  · rintro ⟨after, run, undone⟩
    rw [unescapedString_eq _ (zero_notMem_cstr _), some.injEq] at undone
    cases url with
    | outside source => exact trivial
    | inside offset =>
        obtain ⟨third, tail, unread⟩ := unread_inside sized valid
        unfold rfc1738_do_escape at run
        split_ifs at run with grows
        rw [not_or, Pointer.string] at grows
        refine ⟨by omega, ?_⟩
        by_contra overwritten
        have room : 3 * (cstr (buf.drop offset)).length < buf.length := by omega
        exact unescaped_ne_of_overwritten percent [] _ plain
          (show offset + 0 = 0 + offset by omega) unread room room overwritten run undone
  · intro intact
    obtain ⟨after, run, text, -⟩ := rfc1738_do_escape_eq sized valid intact
    refine ⟨after, run, ?_⟩
    rw [unescapedString_eq _ (zero_notMem_cstr _), text, unescaped_escaped percent _ plain]

/-- Where fewer bytes are escaped, the unread part is farther away. -/
theorem Spared.mono {flags flags' bufsize : ℕ}
    (fewer : ∀ src, do_escape flags src → do_escape flags' src) (url : Bytes)
    {gap gap' dst dst' : ℕ} (spared : Spared flags' bufsize gap dst url)
    (ahead : gap' = gap ∧ dst' = dst ∨ gap + 2 ≤ gap') : Spared flags bufsize gap' dst' url := by
  induction url generalizing gap gap' dst dst' with
  | nil => exact trivial
  | cons src rest ih =>
      rw [Spared] at spared ⊢
      by_cases escape' : do_escape flags' src
      · rw [if_pos escape'] at spared
        obtain ⟨far | ⟨rfl, last⟩, later⟩ := spared
        · split
          · exact ⟨.inl (by omega), ih later (by omega)⟩
          · exact ih later (.inr (by omega))
        · split
          · refine ⟨?_, trivial⟩
            by_cases more : 2 < gap'
            · exact .inl more
            · exact .inr ⟨rfl, by omega⟩
          · exact trivial
      · rw [if_neg escape'] at spared
        rw [if_neg fun escape => escape' (fewer src escape)]
        exact ih spared (by omega)

theorem Pointer.Intact.mono {flags flags' : ℕ}
    (fewer : ∀ src, do_escape flags src → do_escape flags' src) {buf : Bytes} {url : Pointer}
    (intact : url.Intact flags' buf) : url.Intact flags buf := by
  cases url with
  | outside source => exact trivial
  | inside offset => exact ⟨intact.1, intact.2.mono fewer _ (.inl ⟨rfl, rfl⟩)⟩

theorem spared_of_plain (bufsize : ℕ) (url : Bytes) (plain : ∀ c ∈ url, ¬ do_escape flags c)
    (gap dst : ℕ) : Spared flags bufsize gap dst url := by
  induction url generalizing dst with
  | nil => exact trivial
  | cons src rest ih =>
      rw [Spared, if_neg (plain src List.mem_cons_self)]
      exact ih (fun c member => plain c (List.mem_cons_of_mem src member)) _

/-- `rfc1738_escape_part` escapes all that the other two functions escape. -/
theorem do_escape_all (src : UInt8) :
    (do_escape (RFC1738_ESCAPE_UNSAFE ||| RFC1738_ESCAPE_CTRLS) src →
        do_escape RFC1738_ESCAPE_ALL src) ∧
      (do_escape RFC1738_ESCAPE_UNESCAPED src → do_escape RFC1738_ESCAPE_ALL src) := by
  have all : ∀ i : Fin 256,
      (do_escape (RFC1738_ESCAPE_UNSAFE ||| RFC1738_ESCAPE_CTRLS) (UInt8.ofNat i) →
        do_escape RFC1738_ESCAPE_ALL (UInt8.ofNat i)) ∧
      (do_escape RFC1738_ESCAPE_UNESCAPED (UInt8.ofNat i) →
        do_escape RFC1738_ESCAPE_ALL (UInt8.ofNat i)) := by
    decide +kernel
  have found := all ⟨src.toNat, src.toNat_lt⟩
  rwa [UInt8.ofNat_toNat] at found

/-- The flags of `rfc1738_escape_unescaped` choose the bytes that the URL parser's model of it
escapes. -/
theorem do_escape_eq_escapes (src : UInt8) :
    do_escape RFC1738_ESCAPE_UNESCAPED src = escapes src := by
  have all : ∀ i : Fin 256,
      do_escape RFC1738_ESCAPE_UNESCAPED (UInt8.ofNat i) = escapes (UInt8.ofNat i) := by
    decide +kernel
  have found := all ⟨src.toNat, src.toNat_lt⟩
  rwa [UInt8.ofNat_toNat] at found

/-- The text of `rfc1738_escape_unescaped` is what the URL parser takes for it. -/
theorem rfc1738_escape_unescaped_eq (sized : Sized buf) (nonzero : 0 ∉ url) :
    ∃ after, rfc1738_escape_unescaped buf (.outside url) = some after ∧
      cstr after = Url.rfc1738_escape_unescaped url := by
  obtain ⟨after, run, text, -⟩ := @rfc1738_do_escape_eq RFC1738_ESCAPE_UNESCAPED buf (.outside url)
    sized trivial trivial
  refine ⟨after, run, text.trans ?_⟩
  rw [Pointer.string, cstr_of_plain nonzero]
  refine congrArg (url.flatMap ·) (funext fun src => ?_)
  rw [escapedByte, do_escape_eq_escapes]

/-- The text in the buffer is not changed by `rfc1738_escape_unescaped`, neither where it lies nor
as a copy, after any other calls. -/
def Fixed (after : Bytes) (copied : Bool) : Prop :=
  if copied then ∀ calls later, bufferAfter calls = some later → ∃ again,
    rfc1738_escape_unescaped later (.outside (cstr after)) = some again ∧ cstr again = cstr after
  else ∃ again,
    rfc1738_escape_unescaped after (.inside 0) = some again ∧ cstr again = cstr after

theorem fixed_iff {text : Bytes} (sized : Sized after) (some_after : 0 < after.length)
    (holds : cstr after = escaped RFC1738_ESCAPE_UNESCAPED text) (copied : Bool) :
    Fixed after copied ↔ copied = true ∨ (cstr after).length * 3 ≤ after.length := by
  have plain : ∀ c ∈ cstr after, ¬ do_escape RFC1738_ESCAPE_UNESCAPED c := fun c member =>
    do_escape_of_mem_escaped (by decide) (holds ▸ member)
  cases copied with
  | true =>
      refine iff_of_true ?_ (.inl rfl)
      intro calls later reached
      obtain ⟨again, run, same, -⟩ := @rfc1738_do_escape_eq RFC1738_ESCAPE_UNESCAPED later
        (.outside (cstr after)) (sized_bufferAfter reached) trivial trivial
      refine ⟨again, run, same.trans ?_⟩
      rw [Pointer.string, cstr_of_plain (zero_notMem_cstr _), escaped_of_plain _ plain]
  | false =>
      simp only [Fixed, Bool.false_eq_true, if_false, false_or]
      constructor
      · rintro ⟨buf, run, -⟩
        unfold rfc1738_escape_unescaped rfc1738_do_escape at run
        split_ifs at run with grows
        rw [Pointer.string, drop_zero] at grows
        omega
      · intro fits
        obtain ⟨again, run, same, -⟩ := @rfc1738_do_escape_eq RFC1738_ESCAPE_UNESCAPED after
          (.inside 0) sized some_after ⟨fits, spared_of_plain _ _ plain _ _⟩
        exact ⟨again, run, same.trans (escaped_of_plain _ plain)⟩

/-- The laws of escaping for a string: both ways of escaping it are undone, and what
`rfc1738_escape_unescaped` makes of it is fixed. -/
structure Laws (buf : Bytes) (url : Pointer) (copied : Bool) : Prop where
  escape : ∃ after, rfc1738_escape buf url = some after ∧
    unescapedString (cstr after) = some (url.string buf)
  escape_part : ∃ after, rfc1738_escape_part buf url = some after ∧
    unescapedString (cstr after) = some (url.string buf)
  escape_unescaped : ∃ after, rfc1738_escape_unescaped buf url = some after ∧ Fixed after copied

/-- After any strings went through the static buffer, the laws hold of a string if and only if it is
intact and its text is copied before it is escaped again, or is so short that the buffer is not
freed then.  Unescaping stays inside the string, and does not make it longer. -/
theorem escaping_laws {calls : List (Pointer × ℕ)} {buf : Bytes}
    (reached : bufferAfter calls = some buf) {url : Pointer} (valid : url.Valid buf)
    (copied : Bool) :
    (Laws buf url copied ↔ url.Intact RFC1738_ESCAPE_ALL buf ∧ (copied = true ∨
      ((url.string buf).length +
          2 * (url.string buf).countP (do_escape RFC1738_ESCAPE_UNESCAPED)) * 3 ≤
        grownSize buf.length (url.string buf).length)) ∧
    ∀ s, 0 ∉ s → ∃ t left, rfc1738_unescape (s ++ [0]) = some (t ++ 0 :: left) ∧ 0 ∉ t ∧
      t.length ≤ s.length ∧ (t ++ 0 :: left).length = (s ++ [0]).length := by
  have sized := sized_bufferAfter reached
  refine ⟨?_, fun s nonzero => ?_⟩
  · have fixed (intact : url.Intact RFC1738_ESCAPE_ALL buf) :
        ∃ after, rfc1738_escape_unescaped buf url = some after ∧
          (Fixed after copied ↔ copied = true ∨ ((url.string buf).length +
              2 * (url.string buf).countP (do_escape RFC1738_ESCAPE_UNESCAPED)) * 3 ≤
            grownSize buf.length (url.string buf).length) := by
      obtain ⟨after, run, text, size⟩ :=
        rfc1738_do_escape_eq sized valid (intact.mono fun src => (do_escape_all src).2)
      obtain ⟨sized', some_after⟩ := sized_do_escape sized run
      refine ⟨after, run, (fixed_iff sized' some_after text copied).trans ?_⟩
      rw [text, size, length_escaped]
    constructor
    · rintro ⟨-, escape_part, after, run, same⟩
      have intact := (undone_iff (by decide) sized valid).mp escape_part
      obtain ⟨after', run', iff⟩ := fixed intact
      cases run.symm.trans run'
      exact ⟨intact, iff.mp same⟩
    · rintro ⟨intact, room⟩
      obtain ⟨after, run, iff⟩ := fixed intact
      have fewer := intact.mono fun src => (do_escape_all src).1
      exact ⟨(undone_iff (by decide) sized valid).mpr fewer,
        (undone_iff (by decide) sized valid).mpr intact, after, run, iff.mpr room⟩
  · obtain ⟨left, result, size⟩ := rfc1738_unescape_eq s nonzero
    exact ⟨_, left, result, zero_notMem_unescaped s nonzero, length_unescaped_le s, size⟩

theorem escaping_laws_percent : Laws [] (.outside [97, 37, 32]) true ∧
    (¬ Laws [] (.outside [97, 37, 32]) false) ∧
    ∃ buf, bufferAfter [(.outside (ascii "aaaaaaaaa"), RFC1738_ESCAPE_ALL)] = some buf ∧
      Laws buf (.inside 0) true := by
  have laws := fun copied =>
    (@escaping_laws [] [] rfl (.outside [97, 37, 32]) trivial copied).1
  refine ⟨(laws true).mpr (by decide), fun holds => absurd ((laws false).mp holds) (by decide), ?_⟩
  obtain ⟨buf, run, text, size⟩ := @rfc1738_do_escape_eq RFC1738_ESCAPE_ALL []
    (.outside (ascii "aaaaaaaaa")) (.inl rfl) trivial trivial
  have reached : bufferAfter [(.outside (ascii "aaaaaaaaa"), RFC1738_ESCAPE_ALL)] = some buf := by
    simpa [bufferAfter] using run
  have string : cstr (buf.drop 0) = ascii "aaaaaaaaa" := text
  have size : buf.length = 28 := size
  refine ⟨buf, reached, (escaping_laws reached (by rw [Pointer.Valid, size]; decide) true).1.mpr ?_⟩
  rw [Pointer.Intact, size, string]
  exact ⟨by decide, .inl rfl⟩

/-- An escaped string is escaped again: a buffer of 10 bytes is freed while its text is read, and
one of 28 bytes is overwritten, and then holds another text than one that stands for `a%20b`. -/
theorem escaped_twice :
    (∃ buf, rfc1738_escape [] (.outside (ascii "a b")) = some buf ∧
      (Pointer.inside 0).string buf = ascii "a%20b" ∧ rfc1738_escape buf (.inside 0) = none) ∧
    ∃ before buf, rfc1738_escape [] (.outside (ascii "aaaaaaaaa")) = some before ∧
      rfc1738_escape before (.outside (ascii "a b")) = some buf ∧
      (Pointer.inside 0).string buf = ascii "a%20b" ∧
      ¬ ∃ after, rfc1738_escape buf (.inside 0) = some after ∧
        unescapedString (cstr after) = some (ascii "a%20b") := by
  have outside {buf : Bytes} (sized : Sized buf) (source : Bytes) :=
    @rfc1738_do_escape_eq (RFC1738_ESCAPE_UNSAFE ||| RFC1738_ESCAPE_CTRLS) buf (.outside source)
      sized trivial trivial
  constructor
  · obtain ⟨buf, run, text, size⟩ := outside (.inl rfl) (ascii "a b")
    refine ⟨buf, run, text, ?_⟩
    unfold rfc1738_escape rfc1738_do_escape
    rw [if_pos (.inr (by rw [Pointer.string, drop_zero, text, size]; decide))]
  · obtain ⟨before, run, -, size⟩ := outside (.inl rfl) (ascii "aaaaaaaaa")
    obtain ⟨sized, -⟩ := sized_do_escape (.inl rfl) run
    obtain ⟨buf, run', text, size'⟩ := outside sized (ascii "a b")
    obtain ⟨sized', some_buf⟩ := sized_do_escape sized run'
    have string : (Pointer.inside 0).string buf = ascii "a%20b" := text
    have size : buf.length = 28 := by rw [size', size]; rfl
    refine ⟨before, buf, run, run', string, ?_⟩
    rw [← string]
    refine (@undone_iff _ buf (.inside 0) (by decide) sized' some_buf).not.mpr ?_
    rw [Pointer.Intact, size, show cstr (buf.drop 0) = _ from string]
    decide

end Squid.Rfc1738
