import RiscvLinux.Config.Numeral
import RiscvLinux.Config.Strings

/-!
# Quoted strings

A text between quotes spells bytes, a byte standing for itself or written as `\x` and two hex
digits (`Spells`). `parseString_spells` says that `parse_string` reads back what is spelled, for
every size of the buffer, and that its scan and that of `skip_string` end at the same quote.
-/

namespace RiscvLinux.Config

/-- `'\\'` -/
abbrev backslash : Byte := 92

/-- A text spells bytes between quotes. A byte that stands for itself does not start an escape. -/
inductive Spells : Bytes → Bytes → Prop
  | nil : Spells [] []
  | raw {c : Byte} {text bytes : Bytes} (notNul : c ≠ 0) (notQuote : c ≠ quote)
      (noEscape : ∀ a more, c = backslash → text = letterX :: a :: more → isHex a = false)
      (rest : Spells text bytes) : Spells (c :: text) (c :: bytes)
  | escape {a b : Byte} {high low : Nat} {text bytes : Bytes} (first : Base.hex.digit a = some high)
      (second : Base.hex.digit b = some low) (rest : Spells text bytes) :
      Spells (backslash :: letterX :: a :: b :: text) (UInt8.ofNat (16 * high + low) :: bytes)

/-- The cursor at which the loop of `parse_quoted_string` ends. -/
def quotedEnd : Cursor → Cursor
  | [] => []
  | c :: s =>
    if c = 0 ∨ c = quote then c :: s
    else
      match c, s with
      | 92, 120 :: a :: b :: s =>
        if isHex a then
          if isHex b then quotedEnd s else quotedEnd (b :: s)
        else quotedEnd (120 :: a :: b :: s)
      | 92, [120, a] => if isHex a then [] else quotedEnd [120, a]
      | _, s => quotedEnd s

/-! ## The bytes that a text spells -/

theorem hexDigit {c : Byte} {d : Nat} (spells : Base.hex.digit c = some d) :
    isHex c = true ∧ (parseHex c).toNat = d := by
  rw [digit_hex_eq] at spells
  split at spells
  · next hex => exact ⟨hex, Option.some.inj spells⟩
  · cases spells

/-- `(parse_hex(s[2]) << 4) + parse_hex(s[3])` -/
theorem parseHex_pair {a b : Byte} {high low : Nat} (first : Base.hex.digit a = some high)
    (second : Base.hex.digit b = some low) :
    (parseHex a <<< 4) + parseHex b = UInt8.ofNat (16 * high + low) := by
  have highBound := (Base.of_digit first).1
  obtain ⟨-, highEq⟩ := hexDigit first
  obtain ⟨-, lowEq⟩ := hexDigit second
  subst highEq lowEq
  simp only [Base.radix] at highBound
  have shift : (parseHex a <<< 4).toNat = (parseHex a).toNat * 16 := by
    rw [UInt8.toNat_shiftLeft, show (4 : UInt8).toNat % 8 = 4 from rfl, Nat.shiftLeft_eq,
      Nat.mod_eq_of_lt (by omega)]
  rw [← UInt8.toNat_inj, UInt8.toNat_add, shift, UInt8.toNat_ofNat', Nat.mul_comm]

namespace Spells

variable {text bytes : Bytes}

/-- No byte of the text ends a string. -/
theorem plain (spells : Spells text bytes) : ∀ c ∈ text, c ≠ 0 ∧ c ≠ quote := by
  induction spells with
  | nil => nofun
  | raw notNul notQuote _ _ ih => exact List.forall_mem_cons.mpr ⟨⟨notNul, notQuote⟩, ih⟩
  | @escape a b high low text bytes first second _ ih =>
    have digit : ∀ {c : Byte} {d : Nat}, Base.hex.digit c = some d → c ≠ 0 ∧ c ≠ quote := by
      intro c d spells
      constructor
      · intro same
        subst same
        cases spells
      · intro same
        subst same
        cases spells
    refine List.forall_mem_cons.mpr ⟨by decide, List.forall_mem_cons.mpr ⟨by decide, ?_⟩⟩
    exact List.forall_mem_cons.mpr ⟨digit first, List.forall_mem_cons.mpr ⟨digit second, ih⟩⟩

theorem unescape_eq (spells : Spells text bytes) : unescape text = bytes := by
  induction spells with
  | nil => rfl
  | raw notNul notQuote noEscape _ ih =>
    rw [unescape_other (not_or.mpr ⟨notNul, notQuote⟩) noEscape, ih]
  | escape first second _ ih =>
    rw [unescape_digits (hexDigit first).1 (hexDigit second).1, parseHex_pair first second, ih]

end Spells

/-! ## Where the scans end -/

theorem skipString_append (text rest : Cursor) (plain : ∀ c ∈ text, c ≠ 0 ∧ c ≠ quote) :
    skipString (text ++ quote :: rest) = rest := by
  induction text with
  | nil => rfl
  | cons c s ih =>
    obtain ⟨⟨notNul, notQuote⟩, later⟩ := List.forall_mem_cons.mp plain
    rw [List.cons_append, skipString, if_neg notNul, if_neg notQuote, ih later]

theorem skipString_cons {c : Byte} (s : Cursor) (inside : ¬(c = 0 ∨ c = quote)) :
    skipString (c :: s) = skipString s := by
  obtain ⟨notNul, notQuote⟩ := not_or.mp inside
  rw [skipString, if_neg notNul, if_neg notQuote]

theorem inside_of_isHex {c : Byte} (hex : isHex c = true) : ¬(c = 0 ∨ c = quote) := by
  intro either
  rcases either with rfl | rfl
  · cases hex
  · cases hex

/-- The escapes hide no quote: the loop of `parse_quoted_string` ends at the quote or NUL at which
`skip_string` ends its scan. -/
theorem skipString_eq (str : Cursor) : skipString str = skipChar quote (quotedEnd str) := by
  have letterInside : ¬(letterX = 0 ∨ letterX = quote) := by decide
  induction length : str.length using Nat.strong_induction_on generalizing str with
  | _ n ih =>
    subst length
    cases str with
    | nil => rfl
    | cons c s =>
      have later (t : Cursor) (shorter : t.length ≤ s.length) :
          skipString t = skipChar quote (quotedEnd t) :=
        ih t.length (Nat.lt_succ_of_le shorter) t rfl
      by_cases stop : c = 0 ∨ c = quote
      · rw [quotedEnd.eq_def]
        dsimp only
        rw [if_pos stop, skipString]
        rcases stop with rfl | rfl
        · rfl
        · rfl
      · rw [skipString_cons _ stop, quotedEnd.eq_def]
        dsimp only
        rw [if_neg stop]
        split
        -- two characters after `\x`, then one, then no escape
        · next a b t =>
          split
          · next first =>
            rw [skipString_cons _ letterInside, skipString_cons _ (inside_of_isHex first)]
            split
            · next second =>
              rw [skipString_cons _ (inside_of_isHex second)]
              exact later t (by simp only [List.length_cons]; omega)
            · exact later (b :: t) (by simp only [List.length_cons]; omega)
          · exact later _ le_rfl
        · next a =>
          split
          · next first =>
            rw [skipString_cons _ letterInside, skipString_cons _ (inside_of_isHex first)]
            rfl
          · exact later _ le_rfl
        · exact later s le_rfl

theorem quotedEnd_other {c : Byte} {s : Cursor} (inside : ¬(c = 0 ∨ c = quote))
    (other : ∀ a t, c = 92 → s = 120 :: a :: t → isHex a = false) :
    quotedEnd (c :: s) = quotedEnd s := by
  rw [quotedEnd.eq_def]
  dsimp only
  rw [if_neg inside]
  split
  · next a b t => rw [if_neg (by rw [other a _ rfl rfl]; decide)]
  · next a => rw [if_neg (by rw [other a _ rfl rfl]; decide)]
  · rfl

/-- The loop of `parse_quoted_string` ends at the closing quote. -/
theorem Spells.quotedEnd_append {text bytes : Bytes} (spells : Spells text bytes) (rest : Cursor) :
    quotedEnd (text ++ quote :: rest) = quote :: rest := by
  induction spells with
  | nil =>
    rw [List.nil_append, quotedEnd.eq_def]
    dsimp only
    rw [if_pos (.inr rfl)]
  | raw notNul notQuote noEscape _ ih =>
    rw [List.cons_append, quotedEnd_other (not_or.mpr ⟨notNul, notQuote⟩)
      (noEscape_append rest noEscape), ih]
  | escape first second _ ih =>
    refine Eq.trans ?_ ih
    simp [quotedEnd, (hexDigit first).1, (hexDigit second).1, quote]

/-- `parse_string` reads back the bytes that a quoted text spells. It returns their number with the
NUL whatever the size of the buffer, stores as many of them as fit with the NUL if that fits too,
and its scan ends at the closing quote, as that of `skip_string` does. -/
theorem parseString_spells {text bytes : Bytes} (spells : Spells text bytes) (rest : Cursor)
    (maxlen : Nat) :
    (parseString (quote :: (text ++ quote :: rest)) maxlen).1 = bytes.length + 1 ∧
      (parseString (quote :: (text ++ quote :: rest)) maxlen).2 =
        bytes.take (min bytes.length maxlen) ++ (if bytes.length < maxlen then [0] else []) ∧
      (parseString (quote :: (text ++ quote :: rest)) maxlen).2.length ≤ maxlen ∧
      quotedEnd (text ++ quote :: rest) = quote :: rest ∧
      skipString (text ++ quote :: rest) = rest := by
  have value : stringValue (quote :: (text ++ quote :: rest)) = bytes := by
    rw [stringValue, deref_cons, if_pos rfl, inc_cons, unescape_append text rest spells.plain,
      spells.unescape_eq]
  rw [parseString_eq, value]
  refine ⟨rfl, ?_, List.length_take_le _ _, spells.quotedEnd_append rest, ?_⟩
  · rw [copyOf, List.take_append]
    split
    · next room =>
      have nul : [(0 : Byte)].take (maxlen - bytes.length) = [0] :=
        List.take_of_length_le (by rw [List.length_singleton]; omega)
      rw [Nat.min_eq_left room.le, List.take_length, List.take_of_length_le room.le, nul]
    · next full =>
      rw [Nat.min_eq_right (by omega), Nat.sub_eq_zero_of_le (by omega), List.take_zero]
  · rw [skipString_eq, spells.quotedEnd_append rest]
    rfl

/-- A text of `a` and the escape of `}`, in a buffer of one byte. -/
theorem parseString_spells_escape :
    (parseString [quote, 97, 92, 120, 55, 100, quote, 0] 1).1 = 3 ∧
      (parseString [quote, 97, 92, 120, 55, 100, quote, 0] 1).2 = [97] ∧
      (parseString [quote, 97, 92, 120, 55, 100, quote, 0] 1).2.length ≤ 1 ∧
      quotedEnd [97, 92, 120, 55, 100, quote, 0] = [quote, 0] ∧
      skipString [97, 92, 120, 55, 100, quote, 0] = [0] :=
  parseString_spells (.raw (by decide) (by decide) (fun _ _ eq => absurd eq (by decide))
    (@Spells.escape 55 100 7 13 [] [] (by decide) (by decide) .nil)) [0] 1

end RiscvLinux.Config
