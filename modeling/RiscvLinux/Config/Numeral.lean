import Mathlib.Algebra.Ring.Nat
import RiscvLinux.Config.Text
import RiscvLinux.Config.Number

/-!
# What a token spells

A numeral is an optional `-`, and then `0x` and hexadecimal digits, or decimal digits; `_` may
stand anywhere among the digits, and a numeral without digits is zero. `numeral` reads it as it is
meant, up to `2^64`. `readNumber` is what a caller of `parse_u64` gets out of a token, and
`readNumber_eq` compares the two: they differ on decimal numerals from 10 on.
-/

namespace RiscvLinux.Config

/-! ## Digits -/

inductive Base where
  | hex
  | dec
  deriving DecidableEq, Repr

namespace Base

def radix : Base → Nat
  | .hex => 16
  | .dec => 10

/-- The digit that a character is. -/
def digit (base : Base) (c : Byte) : Option Nat :=
  if 48 ≤ c ∧ c ≤ 57 then some (c.toNat - 48)
  else if base = .hex ∧ 97 ≤ c ∧ c ≤ 102 then some (c.toNat - 97 + 10)
  else if base = .hex ∧ 65 ≤ c ∧ c ≤ 70 then some (c.toNat - 65 + 10)
  else none

/-- The value of digits that follow digits of the value `acc`. -/
def value (base : Base) (acc : Nat) : Bytes → Option Nat
  | [] => some acc
  | c :: s =>
    if c = underscore then base.value acc s
    else (base.digit c).bind fun d => base.value (acc * base.radix + d) s

/-- A digit is below its base, and can stand in a token. -/
theorem of_digit {base : Base} {c : Byte} {d : Nat} (spells : base.digit c = some d) :
    d < base.radix ∧ isKeyChar c = true := by
  have small := c.toNat_lt
  simp only [digit, UInt8.le_iff_toNat_le] at spells
  simp only [isKeyChar, UInt8.le_iff_toNat_le, Bool.and_eq_true, decide_eq_true_eq, bne_iff_ne,
    ne_eq, ← UInt8.toNat_inj, show UInt8.toNat semicolon = 59 from rfl]
  cases base <;> simp only [radix] at * <;> split_ifs at spells <;> simp_all <;> omega

/-- More digits make no value smaller. -/
theorem le_of_value {base : Base} {acc v : Nat} {s : Bytes} (spells : base.value acc s = some v) :
    acc ≤ v := by
  induction s generalizing acc with
  | nil => exact (Option.some.inj spells).le
  | cons c s ih =>
    rw [value] at spells
    split at spells
    · exact ih spells
    · obtain ⟨d, -, later⟩ := Option.bind_eq_some_iff.mp spells
      have grows : acc ≤ acc * base.radix := Nat.le_mul_of_pos_right acc (by cases base <;> decide)
      have := ih later
      omega

end Base

/-! ## Numerals -/

/-- Whether a numeral is negated, and what follows the sign. -/
def signOf (text : Bytes) : Bool × Bytes :=
  if deref text = minus then (true, inc text) else (false, text)

/-- The base of a numeral without its sign, and its digits. -/
def baseOf (body : Bytes) : Base × Bytes :=
  if deref body = zeroDigit ∧ deref (inc body) = letterX then (.hex, inc (inc body))
  else (.dec, body)

/-- The number that a text spells, if it is a numeral and its digits are below a limit. A numeral
may have no digits, and then it spells zero: the empty text, `-`, `_` and `0x` do. -/
def numeralBelow (limit : Base → Nat) (text : Bytes) : Option UInt64 :=
  let (neg, body) := signOf text
  let (base, digits) := baseOf body
  ((base.value 0 digits).filter fun v => decide (v < limit base)).map fun v =>
    if neg then -UInt64.ofNat v else UInt64.ofNat v

/-- The number that a text spells. -/
def numeral : Bytes → Option UInt64 := numeralBelow fun _ => 2 ^ 64

/-- The number that a caller of `parse_u64` reads, which asks that nothing of the text is left. -/
def readNumber (text : Bytes) : Option UInt64 :=
  if (parseU64 text).1 = [] then some (parseU64 text).2 else none

/-- What the digit loops of `parse_u64` accept. -/
def readLimit : Base → Nat
  | .hex => 2 ^ 64
  | .dec => 10

/-! ## The digit loops -/

theorem digit_hex_eq {c : Byte} :
    Base.hex.digit c = if isHex c then some (parseHex c).toNat else none := by
  have small := c.toNat_lt
  simp only [Base.digit, isHex, parseHex, UInt8.le_iff_toNat_le, Bool.or_eq_true, Bool.and_eq_true,
    decide_eq_true_eq, true_and]
  split_ifs <;> simp_all [UInt8.toNat_sub, UInt8.toNat_add] <;> omega

theorem digit_dec_eq {c : Byte} :
    Base.dec.digit c = if isDec c then some (parseDec c).toNat else none := by
  have small := c.toNat_lt
  simp only [Base.digit, isDec, parseDec, UInt8.le_iff_toNat_le, Bool.and_eq_true,
    decide_eq_true_eq]
  split_ifs <;> simp_all [UInt8.toNat_sub]
  omega

/-- One turn of a digit loop of `parse_u64`, which goes on as long as the value that it has read,
times the base, is below its limit. -/
structure DigitLoop (base : Base) (loop : Cursor → UInt64 → Cursor × UInt64) : Prop where
  done (acc : UInt64) : loop [] acc = ([], acc)
  separator (s : Cursor) (acc : UInt64) : loop (underscore :: s) acc = loop s acc
  digit {c : Byte} {d : Nat} (s : Cursor) {acc : UInt64} (spells : base.digit c = some d)
    (fits : acc.toNat * base.radix < readLimit base) :
    ∃ next : UInt64, next.toNat = acc.toNat * base.radix + d ∧ next.toNat < readLimit base ∧
      loop (c :: s) acc = loop s next
  full {c : Byte} {d : Nat} (s : Cursor) {acc : UInt64} (spells : base.digit c = some d)
    (above : readLimit base ≤ acc.toNat * base.radix) : loop (c :: s) acc = (c :: s, acc)
  stop {c : Byte} (s : Cursor) (acc : UInt64) (other : c ≠ underscore)
      (none : base.digit c = none) :
    loop (c :: s) acc = (c :: s, acc)

namespace DigitLoop

variable {base : Base} {loop : Cursor → UInt64 → Cursor × UInt64}

/-- A digit loop accepts a text with the value that the text spells, below its limit. -/
theorem accepts (turns : DigitLoop base loop) (s : Bytes) {acc : UInt64}
    (small : acc.toNat < readLimit base) :
    (if (loop s acc).1 = [] then some (loop s acc).2.toNat else none) =
      (base.value acc.toNat s).filter fun v => decide (v < readLimit base) := by
  induction s generalizing acc with
  | nil => simp [turns.done, Base.value, Option.filter_some, small]
  | cons c s ih =>
    rw [Base.value]
    by_cases separator : c = underscore
    · subst separator
      rw [turns.separator, if_pos rfl, ih small]
    · rw [if_neg separator]
      cases spells : base.digit c with
      | none => simp [turns.stop s acc separator spells]
      | some d =>
        rw [Option.bind_some]
        rcases Nat.lt_or_ge (acc.toNat * base.radix) (readLimit base) with fits | above
        · obtain ⟨next, value, nextSmall, goes⟩ := turns.digit s spells fits
          rw [goes, ih nextSmall, value]
        · rw [turns.full s spells above, if_neg (List.cons_ne_nil c s), eq_comm,
            Option.filter_eq_none_iff]
          intro v later
          have := Base.le_of_value later
          simp only [decide_eq_true_eq]
          omega

/-- What a digit loop does to a text does not depend on what follows the text, if that is no
digit. -/
theorem append (turns : DigitLoop base loop) (s : Bytes) {rest : Cursor}
    (apart : isKeyChar (deref rest) = false) {acc : UInt64} (small : acc.toNat < readLimit base) :
    loop (s ++ rest) acc = ((loop s acc).1 ++ rest, (loop s acc).2) := by
  induction s generalizing acc with
  | nil =>
    rw [turns.done, List.nil_append]
    cases rest with
    | nil => exact turns.done acc
    | cons c rest =>
      rw [deref_cons] at apart
      have noDigit : base.digit c = none := by
        cases spells : base.digit c with
        | none => rfl
        | some d => rw [(Base.of_digit spells).2] at apart; cases apart
      refine turns.stop rest acc (fun eq => ?_) noDigit
      rw [eq] at apart
      exact absurd apart (by decide)
  | cons c s ih =>
    rw [List.cons_append]
    by_cases separator : c = underscore
    · subst separator
      rw [turns.separator, turns.separator, ih small]
    · cases spells : base.digit c with
      | none => rw [turns.stop _ acc separator spells, turns.stop _ acc separator spells,
          List.cons_append]
      | some d =>
        rcases Nat.lt_or_ge (acc.toNat * base.radix) (readLimit base) with fits | above
        · obtain ⟨next, value, nextSmall, goes⟩ := turns.digit (s ++ rest) spells fits
          obtain ⟨other, same, -, goesAlone⟩ := turns.digit s spells fits
          have eq : other = next := UInt64.toNat_inj.mp (same.trans value.symm)
          rw [goes, goesAlone, eq, ih nextSmall]
        · rw [turns.full (s ++ rest) spells above, turns.full s spells above, List.cons_append]

end DigitLoop

/-- The overflow test of `parse_u64_hex`. -/
theorem hexOverflow_iff (acc : UInt64) : (acc <<< 4) >>> 4 ≠ acc ↔ 2 ^ 64 ≤ acc.toNat * 16 := by
  have small := acc.toNat_lt
  rw [Ne, ← UInt64.toNat_inj, UInt64.toNat_shiftRight, UInt64.toNat_shiftLeft, Nat.shiftLeft_eq,
    Nat.shiftRight_eq_div_pow]
  simp
  omega

/-- The overflow test of `parse_u64_dec`: the remainder of `res * 10` is `res` itself only if both
are zero. -/
theorem decOverflow_iff (acc : UInt64) :
    (doDiv (acc * 10) 10).2.toUInt64 ≠ acc ↔ 10 ≤ acc.toNat * 10 := by
  have remainder : (doDiv (acc * 10) 10).2.toUInt64.toNat = acc.toNat * 10 % 2 ^ 64 % 10 := by
    simp [doDiv, UInt64.toNat_mul]
    omega
  have remainder_lt : acc.toNat * 10 % 2 ^ 64 % 10 < 10 := Nat.mod_lt _ (by decide)
  rw [Ne, ← UInt64.toNat_inj, remainder]
  rcases Nat.lt_or_ge acc.toNat 10 with small | large
  · rw [Nat.mod_eq_of_lt (b := 2 ^ 64) (by omega)]
    omega
  · omega

theorem ne_zero_of_digit {base : Base} {c : Byte} {d : Nat} (spells : base.digit c = some d) :
    c ≠ 0 := by
  intro same
  subst same
  cases (Base.of_digit spells).2

theorem parseU64Hex_turns : DigitLoop .hex parseU64Hex where
  done acc := rfl
  separator s acc := rfl
  digit {c d} s {acc} spells fits := by
    have nonzero := ne_zero_of_digit spells
    have d_lt := (Base.of_digit spells).1
    rw [digit_hex_eq] at spells
    obtain ⟨hex, spells⟩ := Option.ite_none_right_eq_some.mp spells
    obtain rfl := Option.some.inj spells
    simp only [Base.radix, readLimit] at fits d_lt ⊢
    have next :
        (acc <<< 4 + (parseHex c).toUInt64).toNat = acc.toNat * 16 + (parseHex c).toNat := by
      rw [UInt64.toNat_add, UInt64.toNat_shiftLeft, Nat.shiftLeft_eq, UInt8.toNat_toUInt64]
      simp
      omega
    refine ⟨_, next, by omega, ?_⟩
    rw [parseU64Hex, if_neg nonzero, if_pos hex,
      if_neg fun above => absurd ((hexOverflow_iff acc).mp above) (by omega)]
  full {c d} s {acc} spells above := by
    have nonzero := ne_zero_of_digit spells
    rw [digit_hex_eq] at spells
    obtain ⟨hex, -⟩ := Option.ite_none_right_eq_some.mp spells
    rw [parseU64Hex, if_neg nonzero, if_pos hex, if_pos ((hexOverflow_iff acc).mpr above)]
  stop {c} s acc other none := by
    rw [digit_hex_eq] at none
    rw [parseU64Hex, if_pos other]
    split_ifs at * <;> rfl

theorem parseU64Dec_turns : DigitLoop .dec parseU64Dec where
  done acc := rfl
  separator s acc := rfl
  digit {c d} s {acc} spells fits := by
    have nonzero := ne_zero_of_digit spells
    have d_lt := (Base.of_digit spells).1
    rw [digit_dec_eq] at spells
    obtain ⟨dec, spells⟩ := Option.ite_none_right_eq_some.mp spells
    obtain rfl := Option.some.inj spells
    simp only [Base.radix, readLimit] at fits d_lt ⊢
    have next : (acc * 10 + (parseDec c).toUInt64).toNat = acc.toNat * 10 + (parseDec c).toNat := by
      rw [UInt64.toNat_add, UInt64.toNat_mul, UInt8.toNat_toUInt64]
      simp
      omega
    refine ⟨_, next, by omega, ?_⟩
    rw [parseU64Dec, if_neg nonzero, if_pos dec,
      if_neg fun above => absurd ((decOverflow_iff acc).mp above) (by omega)]
  full {c d} s {acc} spells above := by
    have nonzero := ne_zero_of_digit spells
    rw [digit_dec_eq] at spells
    obtain ⟨dec, -⟩ := Option.ite_none_right_eq_some.mp spells
    rw [parseU64Dec, if_neg nonzero, if_pos dec, if_pos ((decOverflow_iff acc).mpr above)]
  stop {c} s acc other none := by
    rw [digit_dec_eq] at none
    rw [parseU64Dec, if_pos other]
    split_ifs at * <;> rfl

/-! ## Tokens -/

/-- The digit loop of a base. -/
def Base.loop : Base → Cursor → UInt64 → Cursor × UInt64
  | .hex => parseU64Hex
  | .dec => parseU64Dec

theorem Base.loop_turns (base : Base) : DigitLoop base base.loop := by
  cases base with
  | hex => exact parseU64Hex_turns
  | dec => exact parseU64Dec_turns

/-- `parse_u64` runs the digit loop of the base on the digits. -/
theorem parseU64_eq (text : Cursor) :
    parseU64 text =
      let (neg, body) := signOf text
      let (base, digits) := baseOf body
      ((base.loop digits 0).1,
        if neg then -(base.loop digits 0).2 else (base.loop digits 0).2) := by
  unfold parseU64 signOf
  by_cases neg : deref text = minus
  · simp only [neg, if_true, baseOf]
    split <;> rfl
  · simp only [neg, if_false, baseOf, Bool.false_eq_true]
    split <;> rfl

theorem zero_lt_readLimit (base : Base) : (0 : UInt64).toNat < readLimit base := by
  cases base <;> decide

theorem inc_append {s : Bytes} (rest : Cursor) {c : Byte} (keyChar : isKeyChar c = true)
    (eq : deref s = c) :
    inc (s ++ rest) = inc s ++ rest := by
  cases s with
  | nil =>
    rw [← eq] at keyChar
    cases keyChar
  | cons d s => rfl

section Append

variable {rest : Cursor} (apart : isKeyChar (deref rest) = false)

include apart

/-- A character of a token is at the start of a text if it is at the start of the token. -/
theorem deref_append_eq_iff (s : Bytes) {c : Byte} (keyChar : isKeyChar c = true) :
    deref (s ++ rest) = c ↔ deref s = c := by
  cases s with
  | nil =>
    refine ⟨fun eq => ?_, fun eq => ?_⟩
    · rw [List.nil_append] at eq
      rw [eq, keyChar] at apart
      cases apart
    · rw [← eq] at keyChar
      cases keyChar
  | cons d s => exact Iff.rfl

theorem signOf_append (text : Bytes) :
    signOf (text ++ rest) = ((signOf text).1, (signOf text).2 ++ rest) := by
  unfold signOf
  by_cases neg : deref text = minus
  · rw [if_pos neg, if_pos ((deref_append_eq_iff apart text (by decide)).mpr neg),
      inc_append rest (by decide) neg]
  · rw [if_neg neg, if_neg (mt (deref_append_eq_iff apart text (by decide)).mp neg)]

theorem baseOf_append (body : Bytes) :
    baseOf (body ++ rest) = ((baseOf body).1, (baseOf body).2 ++ rest) := by
  unfold baseOf
  have hex_iff : (deref (body ++ rest) = zeroDigit ∧ deref (inc (body ++ rest)) = letterX) ↔
      (deref body = zeroDigit ∧ deref (inc body) = letterX) := by
    rw [deref_append_eq_iff apart body (by decide)]
    refine and_congr_right fun zero => ?_
    rw [inc_append rest (by decide) zero, deref_append_eq_iff apart (inc body) (by decide)]
  by_cases hex : deref body = zeroDigit ∧ deref (inc body) = letterX
  · rw [if_pos hex, if_pos (hex_iff.mpr hex), inc_append rest (by decide) hex.1,
      inc_append rest (by decide) hex.2]
  · rw [if_neg hex, if_neg (mt hex_iff.mp hex)]

/-- What `parse_u64` does to a token, it does to the token in a text. -/
theorem parseU64_append (text : Bytes) :
    parseU64 (text ++ rest) = ((parseU64 text).1 ++ rest, (parseU64 text).2) := by
  rw [parseU64_eq, parseU64_eq text, signOf_append apart]
  dsimp only
  rw [baseOf_append apart]
  dsimp only
  rw [(Base.loop_turns _).append _ apart (zero_lt_readLimit _)]

end Append

/-- A token reads as its numeral below the limits of the digit loops. -/
theorem readNumber_eq (text : Bytes) : readNumber text = numeralBelow readLimit text := by
  have accepts := (Base.loop_turns (baseOf (signOf text).2).1).accepts (baseOf (signOf text).2).2
    (zero_lt_readLimit _)
  rw [UInt64.toNat_zero] at accepts
  unfold readNumber numeralBelow
  rw [parseU64_eq]
  dsimp only
  rw [← accepts]
  split
  · rw [Option.map_some, UInt64.ofNat_toNat]
  · rfl

/-- The text is hexadecimal, or its decimal digits spell less than ten. -/
def HexOrBelowTen (text : Bytes) : Prop :=
  let (base, digits) := baseOf (signOf text).2
  base = .hex ∨ ∃ v < 10, base.value 0 digits = some v

/-- A token reads as the number that it spells, unless that is a decimal numeral from 10 on. -/
theorem readNumber_eq_some_iff {text : Bytes} {v : UInt64} :
    readNumber text = some v ↔ numeral text = some v ∧ HexOrBelowTen text := by
  rw [readNumber_eq]
  unfold numeral numeralBelow HexOrBelowTen
  dsimp only
  generalize baseOf (signOf text).2 = body
  rcases body with ⟨base, digits⟩
  simp only [Option.map_eq_some_iff, Option.filter_eq_some_iff, decide_eq_true_eq]
  cases base with
  | hex => simp [readLimit]
  | dec =>
    constructor
    · intro given
      rcases given with ⟨n, ⟨spells, small⟩, eq⟩
      exact ⟨⟨n, ⟨spells, by simp only [readLimit] at small; omega⟩, eq⟩, .inr ⟨n, small, spells⟩⟩
    · intro given
      rcases given with ⟨⟨n, ⟨spells, -⟩, eq⟩, hex | ⟨m, small, same⟩⟩
      · cases hex
      · rw [spells] at same
        exact ⟨n, ⟨spells, Option.some.inj same ▸ small⟩, eq⟩

end RiscvLinux.Config
