import RiscvLinux.Config.Numeral
import RiscvLinux.Config.FindKey
import RiscvLinux.Config.Parser

/-!
# Decimal numerals

`parse_u64` on a text that starts with a decimal numeral is to read the whole of it if its value
fits 64 bits, and to stop inside it otherwise, so that the callers reject it. The test for
overflow takes the remainder that `do_div` returns for its quotient, and `parseU64_exact_iff`
says for which numerals the rest of the code is right all the same.
-/

namespace RiscvLinux.Config

/-! ## What the digit loops do with a numeral -/

/-- A digit loop reads the whole of a numeral below its limit, and stops inside any other. -/
theorem DigitLoop.reads {base : Base} {loop : Cursor → UInt64 → Cursor × UInt64}
    (turns : DigitLoop base loop) {rest : Cursor} (noSeparator : deref rest ≠ underscore)
    (noDigit : base.digit (deref rest) = none) (s : Bytes) {acc : UInt64} {v : Nat}
    (small : acc.toNat < readLimit base) (spells : base.value acc.toNat s = some v) :
    ∃ left res, left <:+ s ∧ loop (s ++ rest) acc = (left ++ rest, res) ∧
      if v < readLimit base then left = [] ∧ res = UInt64.ofNat v else left ≠ [] := by
  induction s generalizing acc with
  | nil =>
    obtain rfl := Option.some.inj spells
    refine ⟨[], acc, List.suffix_rfl, ?_, ?_⟩
    · cases rest with
      | nil => exact turns.done acc
      | cons c rest => exact turns.stop rest acc noSeparator noDigit
    · rw [if_pos small, UInt64.ofNat_toNat]
      exact ⟨rfl, rfl⟩
  | cons c s ih =>
    rw [Base.value] at spells
    by_cases separator : c = underscore
    · rw [if_pos separator] at spells
      obtain ⟨left, res, inside, reads⟩ := ih small spells
      refine ⟨left, res, inside.trans (List.suffix_cons c s), ?_⟩
      rwa [separator, List.cons_append, turns.separator]
    · rw [if_neg separator] at spells
      obtain ⟨d, digit, later⟩ := Option.bind_eq_some_iff.mp spells
      rcases Nat.lt_or_ge (acc.toNat * base.radix) (readLimit base) with fits | above
      · obtain ⟨next, value, nextSmall, goes⟩ := turns.digit (s ++ rest) digit fits
        obtain ⟨left, res, inside, reads⟩ := ih nextSmall (value ▸ later)
        refine ⟨left, res, inside.trans (List.suffix_cons c s), ?_⟩
        rwa [List.cons_append, goes]
      · have grows := Base.le_of_value later
        refine ⟨c :: s, acc, List.suffix_rfl, turns.full (s ++ rest) digit above, ?_⟩
        rw [if_neg (by omega)]
        exact List.cons_ne_nil c s

/-! ## Numerals -/

/-- A decimal numeral with its value. Zeros may lead, and `_` may stand anywhere. -/
structure Decimal (digits : Bytes) (n : Nat) : Prop where
  nonempty : digits ≠ []
  value : Base.dec.value 0 digits = some n

/-- What follows a numeral: no digit and no `_`, and no `x`, which would make a hexadecimal one of
a `0`. -/
structure EndsNumeral (rest : Cursor) : Prop where
  digit : isDec (deref rest) = false
  separator : deref rest ≠ underscore
  letterX : deref rest ≠ letterX

/-- The callers of `parse_u64` report the text and take no number from it. -/
structure Rejected (text : Cursor) : Prop where
  configStringU64 : ∀ start stop key : Cursor, findKey start stop key true = some text →
    stop.length < text.length →
    configStringU64 ⟨some start, some stop⟩ key = some (0, some .couldNotParseU64)
  rangeKey : ∀ (state : ParserState) (heap : Heap) (parent : List Frame) (flags : Nat)
    (target : Option Nat), state.keyStart = text → state.keyEnd = skipKey text →
    parseRange state heap parent flags target =
      .ok (state, heap.notice (heap.lastPass target)
        (.invalidKey (span state.keyStart state.keyEnd)))
  rangeValue : ∀ (state : ParserState) (heap : Heap) (parent : List Frame) (flags : Nat)
    (target : Option Nat), state.config = text →
    ∃ line, parseRange state heap parent flags target =
      .ok (state, heap.notice (heap.lastPass target) line)
  single : ∀ (state : ParserState) (heap : Heap) (parent : List Frame) (flags : Nat)
    (target : Option Nat), state.config = text →
    parseSingle state heap parent flags target =
      (state, heap.notice (heap.lastPass target) (.invalidValue (span text (skipKey text))))

/-- What `parse_u64` is to do with a numeral: read it if it fits, and have it rejected if not. -/
structure ExactDecimal (digits : Bytes) (rest : Cursor) (n : Nat) : Prop where
  fits : n < 2 ^ 64 → parseU64 (digits ++ rest) = (rest, UInt64.ofNat n)
  overflows : 2 ^ 64 ≤ n → rest.length < (parseU64 (digits ++ rest)).1.length ∧
    Rejected (digits ++ rest)

section Numeral

variable {digits : Bytes} {rest : Cursor} {n : Nat}

/-- A character of a numeral is a `_` or a digit. -/
theorem Base.cons_of_value {base : Base} {acc v : Nat} {c : Byte} {s : Bytes}
    (spells : base.value acc (c :: s) = some v) :
    (c = underscore ∨ (base.digit c).isSome = true) ∧ ∃ acc', base.value acc' s = some v := by
  rw [Base.value] at spells
  split at spells
  · next separator => exact ⟨.inl separator, acc, spells⟩
  · obtain ⟨d, digit, later⟩ := Option.bind_eq_some_iff.mp spells
    exact ⟨.inr (by rw [digit]; rfl), _, later⟩

/-- The characters of a decimal numeral. -/
theorem decimalChar {c : Byte} (char : c = underscore ∨ (Base.dec.digit c).isSome = true) :
    c ≠ minus ∧ c ≠ letterX ∧ isKeyChar c = true := by
  rcases char with rfl | digit
  · decide
  · obtain ⟨d, spells⟩ := Option.isSome_iff_exists.mp digit
    refine ⟨?_, ?_, (Base.of_digit spells).2⟩
    · intro same
      subst same
      cases spells
    · intro same
      subst same
      cases spells

theorem skipKey_append_of_value {acc v : Nat} (spells : Base.dec.value acc digits = some v)
    (rest : Cursor) : skipKey (digits ++ rest) = skipKey rest := by
  induction digits generalizing acc with
  | nil => rfl
  | cons c s ih =>
    obtain ⟨char, acc', later⟩ := Base.cons_of_value spells
    have keyChar := (decimalChar char).2.2
    rw [List.cons_append, skipKey, List.dropWhile_cons_of_pos keyChar]
    exact ih later

/-- `parse_u64` runs the decimal loop on a decimal numeral. -/
theorem parseU64_decimal (numeral : Decimal digits n) (ends : EndsNumeral rest) :
    parseU64 (digits ++ rest) = parseU64Dec (digits ++ rest) 0 := by
  obtain ⟨c, s, rfl⟩ := List.exists_cons_of_ne_nil numeral.nonempty
  obtain ⟨char, acc, later⟩ := Base.cons_of_value numeral.value
  have noSign : signOf (c :: s ++ rest) = (false, c :: s ++ rest) :=
    if_neg (decimalChar char).1
  have second : deref (s ++ rest) ≠ letterX := by
    cases s with
    | nil => exact ends.letterX
    | cons d s => exact (decimalChar (Base.cons_of_value later).1).2.1
  have decimal : baseOf (c :: s ++ rest) = (.dec, c :: s ++ rest) := if_neg fun hex => second hex.2
  rw [parseU64_eq, noSign]
  dsimp only
  rw [decimal]
  rfl

/-- A numeral is read whole if it is less than ten, and otherwise not. -/
theorem parseU64_decimal_reads (numeral : Decimal digits n) (ends : EndsNumeral rest) :
    if n < 10 then parseU64 (digits ++ rest) = (rest, UInt64.ofNat n)
    else rest.length < (parseU64 (digits ++ rest)).1.length := by
  have noDigit : Base.dec.digit (deref rest) = none := by
    rw [digit_dec_eq, if_neg (by rw [ends.digit]; decide)]
  obtain ⟨left, res, -, eq, reads⟩ :=
    parseU64Dec_turns.reads ends.separator noDigit digits (by decide : (0 : UInt64).toNat < _)
      numeral.value
  rw [parseU64_decimal numeral ends, eq]
  by_cases small : n < 10
  · rw [if_pos (show n < readLimit .dec from small)] at reads
    rcases reads with ⟨rfl, rfl⟩
    rw [if_pos small]
    rfl
  · rw [if_neg (show ¬n < readLimit .dec from small)] at reads
    rw [if_neg small, List.length_append]
    exact Nat.lt_add_of_pos_left (List.length_pos_iff.mpr reads)

/-- A numeral in which `parse_u64` stops is rejected. -/
theorem Decimal.rejected (numeral : Decimal digits n)
    (stops : rest.length < (parseU64 (digits ++ rest)).1.length) : Rejected (digits ++ rest) := by
  have tail : (skipKey (digits ++ rest)).length ≤ rest.length := by
    rw [skipKey_append_of_value numeral.value]
    exact (skipKey_suffix rest).length_le
  have differ : (parseU64 (digits ++ rest)).1.length ≠ (skipKey (digits ++ rest)).length := by
    omega
  refine ⟨fun start stop key find before => ?_, fun state heap parent flags target start stop => ?_,
    fun state heap parent flags target here => ?_, fun state heap parent flags target here => ?_⟩
  · simp only [Config.configStringU64, find, Option.map_some, if_neg (Nat.not_le.mpr before),
      if_pos differ.symm]
  · simp only [parseRange, start, stop, if_pos differ]
  · simp only [parseRange, here, if_pos differ]
    split
    · exact ⟨_, rfl⟩
    · exact ⟨_, rfl⟩
  · simp only [parseSingle, here, if_pos differ]

/-- `parse_u64` is exact on a decimal numeral if it is less than ten, or too large. -/
theorem parseU64_exact_iff (numeral : Decimal digits n) (ends : EndsNumeral rest) :
    ExactDecimal digits rest n ↔ n < 10 ∨ 2 ^ 64 ≤ n := by
  have reads := parseU64_decimal_reads numeral ends
  rcases Nat.lt_or_ge n 10 with small | large
  · rw [if_pos small] at reads
    exact iff_of_true ⟨fun _ => reads, fun above => absurd above (by omega)⟩ (.inl small)
  · rw [if_neg (by omega)] at reads
    constructor
    · intro exactly
      refine .inr (Nat.le_of_not_lt fun fits => ?_)
      rw [exactly.fits fits] at reads
      exact Nat.lt_irrefl _ reads
    · intro either
      rcases either with small | above
      · omega
      · exact ⟨fun fits => absurd above (by omega), fun _ => ⟨reads, numeral.rejected reads⟩⟩

end Numeral

/-- `0_7;` is read. -/
theorem parseU64_exact_iff_seven : ExactDecimal [48, 95, 55] [59, 0] 7 :=
  (parseU64_exact_iff ⟨by decide, by decide⟩ ⟨by decide, by decide, by decide⟩).mpr
    (.inl (by decide))

/-- `12;` is not: `parse_u64` stops at the `2`. -/
theorem not_exact_twelve :
    Decimal [49, 50] 12 ∧ EndsNumeral [59, 0] ∧ ¬ ExactDecimal [49, 50] [59, 0] 12 := by
  refine ⟨⟨by decide, by decide⟩, ⟨by decide, by decide, by decide⟩, fun exactly => ?_⟩
  have stops : parseU64 ([49, 50] ++ [59, 0]) = ([50, 59, 0], 1) := by decide
  have whole := exactly.fits (by decide)
  rw [stops] at whole
  cases whole

end RiscvLinux.Config
