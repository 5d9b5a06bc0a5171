import Mathlib.Data.List.TakeWhile
import Mathlib.Data.List.TakeDrop

/-!
# Config text and the cursors that scan it

The config driver walks a NUL-terminated byte string with `const char *` cursors.
A cursor is modelled by the memory from it on, so advancing drops bytes and two
cursors into one string compare by the length of what is left. Nothing in the
scanners knows where the string ends: they test for the NUL byte as the source
does, and memory may go on after it.
-/

namespace RiscvLinux.Config

/-- Characters are unsigned bytes, as on RISC-V. -/
abbrev Byte := UInt8

abbrev Bytes := List Byte

/-- A `const char *`, given by the memory from it on. -/
abbrev Cursor := List Byte

/-- `*str`. -/
def deref : Cursor → Byte
  | [] => 0
  | c :: _ => c

/-- `str + 1`. -/
def inc (str : Cursor) : Cursor := str.tail

@[simp] theorem deref_nil : deref [] = 0 := rfl

@[simp] theorem deref_cons (c : Byte) (s : Cursor) : deref (c :: s) = c := rfl

@[simp] theorem inc_cons (c : Byte) (s : Cursor) : inc (c :: s) = s := rfl

/-! ## Characters with a role in the syntax -/

/-- `'\n'` -/
abbrev newline : Byte := 10
/-- `'"'` -/
abbrev quote : Byte := 34
/-- `'.'` -/
abbrev dot : Byte := 46
/-- `';'` -/
abbrev semicolon : Byte := 59
/-- `'{'` -/
abbrev openBrace : Byte := 123
/-- `'}'` -/
abbrev closeBrace : Byte := 125

/-- The test `*str && *str <= ' '`. -/
def isSpace (c : Byte) : Bool := c != 0 && decide (c ≤ 32)

/-- The test `*str >= 35 && *str <= 122 && *str != ';'`. -/
def isKeyChar (c : Byte) : Bool := decide (35 ≤ c) && decide (c ≤ 122) && c != semicolon

/-! ## The scanners -/

/-- `while (*str && *str <= ' ') ++str;` -/
def skipWhitespace (str : Cursor) : Cursor := str.dropWhile isSpace

/-- `while (*str && *str <= ' ') if (*str++ == '\n') break;` -/
def skipNewline : Cursor → Cursor
  | [] => []
  | c :: s => if isSpace c then (if c = newline then s else skipNewline s) else c :: s

/-- `while (*str && *str++ != '"');` -/
def skipString : Cursor → Cursor
  | [] => []
  | c :: s => if c = 0 then c :: s else if c = quote then s else skipString s

/-- `while (*str >= 35 && *str <= 122 && *str != ';') ++str;` -/
def skipKey (str : Cursor) : Cursor := str.dropWhile isKeyChar

/-- `if (*str == c) ++str;` -/
def skipChar (c : Byte) (str : Cursor) : Cursor := if deref str = c then inc str else str

/-! ## The scanners only move forward -/

theorem inc_suffix (str : Cursor) : inc str <:+ str := List.tail_suffix str

theorem skipWhitespace_suffix (str : Cursor) : skipWhitespace str <:+ str :=
  List.dropWhile_suffix _

theorem skipKey_suffix (str : Cursor) : skipKey str <:+ str := List.dropWhile_suffix _

theorem skipString_suffix (str : Cursor) : skipString str <:+ str := by
  induction str with
  | nil => exact List.suffix_rfl
  | cons c s ih =>
    simp only [skipString]
    split
    · exact List.suffix_rfl
    · split
      · exact List.suffix_cons c s
      · exact ih.trans (List.suffix_cons c s)

theorem skipChar_suffix (c : Byte) (str : Cursor) : skipChar c str <:+ str := by
  unfold skipChar
  split
  · exact inc_suffix str
  · exact List.suffix_rfl

theorem length_inc_lt {str : Cursor} (nonempty : str ≠ []) : (inc str).length < str.length := by
  obtain ⟨c, s, rfl⟩ := List.exists_cons_of_ne_nil nonempty
  simp

/-- Stopping early at a newline makes no difference to a caller that goes on to
skip white space. -/
theorem skipWhitespace_skipNewline (str : Cursor) :
    skipWhitespace (skipNewline str) = skipWhitespace str := by
  induction str with
  | nil => rfl
  | cons c s ih =>
    by_cases space : isSpace c = true
    · have skipped : skipWhitespace (c :: s) = skipWhitespace s :=
        List.dropWhile_cons_of_pos space
      rw [skipped, skipNewline, if_pos space]
      split
      · rfl
      · exact ih
    · rw [skipNewline, if_neg space]

/-! ## Text before a NUL

The scanners do the same whatever follows the NUL of a text. -/

section Extend

variable (text junk : Bytes)

theorem deref_extend : deref (text ++ 0 :: junk) = deref text := by
  cases text <;> rfl

theorem inc_extend (nonzero : deref text ≠ 0) :
    inc (text ++ 0 :: junk) = inc text ++ 0 :: junk := by
  cases text with
  | nil => exact absurd rfl nonzero
  | cons c s => rfl

theorem dropWhile_extend {p : Byte → Bool} (atNul : p 0 = false) :
    (text ++ 0 :: junk).dropWhile p = text.dropWhile p ++ 0 :: junk := by
  rw [List.dropWhile_append]
  split
  · next empty => simp [List.isEmpty_iff.mp empty, atNul]
  · rfl

theorem skipWhitespace_extend :
    skipWhitespace (text ++ 0 :: junk) = skipWhitespace text ++ 0 :: junk :=
  dropWhile_extend text junk rfl

theorem skipKey_extend : skipKey (text ++ 0 :: junk) = skipKey text ++ 0 :: junk :=
  dropWhile_extend text junk rfl

theorem skipNewline_extend :
    skipNewline (text ++ 0 :: junk) = skipNewline text ++ 0 :: junk := by
  induction text with
  | nil => rfl
  | cons c s ih =>
    simp only [List.cons_append, skipNewline]
    split
    · split
      · rfl
      · exact ih
    · rfl

theorem skipString_extend : skipString (text ++ 0 :: junk) = skipString text ++ 0 :: junk := by
  induction text with
  | nil => rfl
  | cons c s ih =>
    simp only [List.cons_append, skipString]
    split
    · rfl
    · split
      · rfl
      · exact ih

theorem skipChar_extend {c : Byte} (notNul : c ≠ 0) :
    skipChar c (text ++ 0 :: junk) = skipChar c text ++ 0 :: junk := by
  unfold skipChar
  rw [deref_extend]
  split
  · next at_c => exact inc_extend text junk (at_c ▸ notNul)
  · rfl

end Extend

/-! ## Cursors inside a NUL-terminated string -/

/-- `str` points at a byte of a string, or at its NUL, with the memory `junk`
after the NUL. -/
def WithinText (junk : Bytes) (str : Cursor) : Prop :=
  ∃ text : Bytes, 0 ∉ text ∧ str = text ++ 0 :: junk

namespace WithinText

variable {junk : Bytes} {str : Cursor}

theorem of_text {text : Bytes} (nulFree : 0 ∉ text) : WithinText junk (text ++ 0 :: junk) :=
  ⟨text, nulFree, rfl⟩

/-- `*str` tests exactly whether the cursor is still before the NUL. -/
theorem deref_ne_zero_iff (within : WithinText junk str) :
    deref str ≠ 0 ↔ (0 :: junk).length < str.length := by
  rcases within with ⟨text, nulFree, rfl⟩
  cases text with
  | nil => simp
  | cons c s =>
    have nonzero : c ≠ 0 := fun eq => nulFree (by simp [eq])
    simp only [deref_cons, ne_eq, nonzero, not_false_eq_true, List.length_cons, List.length_append,
      List.cons_append, true_iff]
    omega

theorem inc (within : WithinText junk str) (nonzero : deref str ≠ 0) :
    WithinText junk (Config.inc str) := by
  rcases within with ⟨text, nulFree, rfl⟩
  cases text with
  | nil => simp at nonzero
  | cons c s => exact ⟨s, fun mem => nulFree (List.mem_cons_of_mem c mem), rfl⟩

/-- A scanner that ignores what follows the NUL stays within the string. -/
theorem of_extend {scan : Cursor → Cursor}
    (extend : ∀ text, scan (text ++ 0 :: junk) = scan text ++ 0 :: junk)
    (suffix : ∀ text, scan text <:+ text) (within : WithinText junk str) :
    WithinText junk (scan str) := by
  rcases within with ⟨text, nulFree, rfl⟩
  exact ⟨scan text, fun mem => nulFree ((suffix text).mem mem), extend text⟩

theorem skipWhitespace (within : WithinText junk str) :
    WithinText junk (Config.skipWhitespace str) :=
  within.of_extend (skipWhitespace_extend · junk) skipWhitespace_suffix

theorem skipKey (within : WithinText junk str) : WithinText junk (Config.skipKey str) :=
  within.of_extend (skipKey_extend · junk) skipKey_suffix

theorem skipString (within : WithinText junk str) :
    WithinText junk (Config.skipString str) :=
  within.of_extend (skipString_extend · junk) skipString_suffix

theorem skipChar {c : Byte} (notNul : c ≠ 0) (within : WithinText junk str) :
    WithinText junk (Config.skipChar c str) :=
  within.of_extend (skipChar_extend · junk notNul) (skipChar_suffix c)

end WithinText

end RiscvLinux.Config
