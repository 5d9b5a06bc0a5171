import RiscvLinux.Config.Decimal

/-!
# Hexadecimal numerals

`parse_u64` on a text that starts with a hexadecimal numeral. `parseU64_exactHex` says that it
reads the whole of the numeral exactly if the value fits 64 bits, and stops inside it otherwise.

A cursor here has the bytes of the text and nothing after them, so that a read beyond the end can
be told: `parseU64Within` is `parse_u64` with the bytes that it looks at.
-/

namespace RiscvLinux.Config

/-! ## The bytes that are looked at -/

/-- `parse_u64_hex`, in memory that ends where the text does: nothing comes of a read of what is not
there. -/
def parseU64HexWithin : Cursor → UInt64 → Option (Cursor × UInt64)
  | [], _ => none
  | c :: s, res =>
    if c = 0 then some (c :: s, res)
    else if isHex c then
      if (res <<< 4) >>> 4 ≠ res then some (c :: s, res)
      else parseU64HexWithin s ((res <<< 4) + (parseHex c).toUInt64)
    else if c ≠ underscore then some (c :: s, res)
    else parseU64HexWithin s res

/-- `parse_u64_dec` there. -/
def parseU64DecWithin : Cursor → UInt64 → Option (Cursor × UInt64)
  | [], _ => none
  | c :: s, res =>
    if c = 0 then some (c :: s, res)
    else if isDec c then
      if (doDiv (res * 10) 10).2.toUInt64 ≠ res then some (c :: s, res)
      else parseU64DecWithin s (res * 10 + (parseDec c).toUInt64)
    else if c ≠ underscore then some (c :: s, res)
    else parseU64DecWithin s res

/-- `parse_u64` there, behind the sign. `str[1]` is looked at only after a `0`. -/
def parseUnsignedWithin : Cursor → Option (Cursor × UInt64)
  | [] => none
  | c :: s =>
    if c ≠ zeroDigit then parseU64DecWithin (c :: s) 0
    else
      match s with
      | [] => none
      | d :: t => if d = letterX then parseU64HexWithin t 0 else parseU64DecWithin (c :: s) 0

/-- `parse_u64` there. -/
def parseU64Within : Cursor → Option (Cursor × UInt64)
  | [] => none
  | c :: s =>
    if c = minus then (parseUnsignedWithin s).map fun r => (r.1, -r.2)
    else parseUnsignedWithin (c :: s)

/-- What is read without going beyond the end is the same with more memory after it. -/
theorem parseU64HexWithin_eq {s : Cursor} {acc : UInt64} {r : Cursor × UInt64} (junk : Cursor)
    (within : parseU64HexWithin s acc = some r) :
    parseU64Hex (s ++ junk) acc = (r.1 ++ junk, r.2) := by
  induction s generalizing acc with
  | nil => cases within
  | cons c s ih =>
    rw [parseU64HexWithin] at within
    rw [List.cons_append, parseU64Hex]
    split_ifs at within ⊢
    · cases within
      rfl
    · cases within
      rfl
    · exact ih within
    · cases within
      rfl
    · exact ih within

theorem parseU64DecWithin_eq {s : Cursor} {acc : UInt64} {r : Cursor × UInt64} (junk : Cursor)
    (within : parseU64DecWithin s acc = some r) :
    parseU64Dec (s ++ junk) acc = (r.1 ++ junk, r.2) := by
  induction s generalizing acc with
  | nil => cases within
  | cons c s ih =>
    rw [parseU64DecWithin] at within
    rw [List.cons_append, parseU64Dec]
    split_ifs at within ⊢
    · cases within
      rfl
    · cases within
      rfl
    · exact ih within
    · cases within
      rfl
    · exact ih within

theorem parseUnsignedWithin_eq {s : Cursor} {r : Cursor × UInt64} (junk : Cursor)
    (within : parseUnsignedWithin s = some r) :
    (if deref (s ++ junk) = zeroDigit ∧ deref (inc (s ++ junk)) = letterX then
      parseU64Hex (inc (inc (s ++ junk))) 0
    else parseU64Dec (s ++ junk) 0) = (r.1 ++ junk, r.2) := by
  cases s with
  | nil => cases within
  | cons c s =>
    rw [parseUnsignedWithin.eq_def] at within
    dsimp only at within
    rw [List.cons_append, deref_cons, inc_cons]
    split at within
    · next other =>
      rw [if_neg fun hex => other hex.1]
      exact parseU64DecWithin_eq junk within
    · cases s with
      | nil => cases within
      | cons d t =>
        dsimp only at within
        rw [List.cons_append, deref_cons, inc_cons]
        split at within
        · next zero letter =>
          rw [if_pos ⟨Classical.not_not.mp zero, letter⟩]
          exact parseU64HexWithin_eq junk within
        · next other =>
          rw [if_neg fun hex => other hex.2]
          exact parseU64DecWithin_eq junk within

/-- `parse_u64` does the same in a text that goes on. -/
theorem parseU64Within_eq {s : Cursor} {r : Cursor × UInt64} (junk : Cursor)
    (within : parseU64Within s = some r) : parseU64 (s ++ junk) = (r.1 ++ junk, r.2) := by
  cases s with
  | nil => cases within
  | cons c s =>
    rw [parseU64Within] at within
    unfold parseU64
    rw [List.cons_append, deref_cons, inc_cons]
    split at within
    · next negative =>
      obtain ⟨r, unsigned, rfl⟩ := Option.map_eq_some_iff.mp within
      simp only [if_pos negative, parseUnsignedWithin_eq junk unsigned]
    · next positive =>
      have unsigned := parseUnsignedWithin_eq junk within
      rw [List.cons_append] at unsigned
      simp only [if_neg positive, unsigned]

/-! ## Numerals -/

/-- A text that spells a hexadecimal numeral: perhaps a sign, `0x`, and the digits. -/
def hexText (neg : Bool) (digits : Bytes) : Bytes :=
  (if neg then [minus] else []) ++ zeroDigit :: letterX :: digits

/-- The loop of `parse_u64_hex` does not go beyond a byte that is no digit and no `_`. -/
theorem parseU64HexWithin_isSome (s : Bytes) {c : Byte} (acc : UInt64) (noDigit : isHex c = false)
    (noSeparator : c ≠ underscore) : (parseU64HexWithin (s ++ [c]) acc).isSome = true := by
  induction s generalizing acc with
  | nil =>
    rw [List.nil_append, parseU64HexWithin, if_neg (by rw [noDigit]; decide : ¬isHex c = true),
      if_pos noSeparator]
    split
    · rfl
    · rfl
  | cons d s ih =>
    rw [List.cons_append, parseU64HexWithin]
    split_ifs
    · rfl
    · rfl
    · exact ih _
    · rfl
    · exact ih _

/-- What `parse_u64` is to do with a numeral of the value `v` before a byte `c`: read the whole of
it exactly if the value fits, stop inside it otherwise, and look at nothing after the byte. -/
structure ExactHex (neg : Bool) (digits : Bytes) (v : Nat) (c : Byte) (junk : Cursor) : Prop where
  whole : (parseU64 (hexText neg digits ++ c :: junk)).1 = c :: junk ↔ v < 2 ^ 64
  value : v < 2 ^ 64 → (parseU64 (hexText neg digits ++ c :: junk)).2.toNat =
    if neg then (2 ^ 64 - v) % 2 ^ 64 else v
  stops : 2 ^ 64 ≤ v → ∃ read left, read ++ left = hexText neg digits ∧ left ≠ [] ∧
    (parseU64 (hexText neg digits ++ c :: junk)).1 = left ++ c :: junk
  within : (parseU64Within (hexText neg digits ++ [c])).isSome = true

section Hex

variable {digits : Bytes} {v : Nat} {c : Byte}

/-- `parse_u64` runs the hexadecimal loop on the digits. -/
theorem parseU64_hexText (neg : Bool) (rest : Cursor) :
    parseU64 (hexText neg digits ++ rest) =
      ((parseU64Hex (digits ++ rest) 0).1,
        if neg then -(parseU64Hex (digits ++ rest) 0).2
        else (parseU64Hex (digits ++ rest) 0).2) := by
  cases neg with
  | false => rfl
  | true => rfl

theorem parseU64Within_hexText (neg : Bool) (rest : Cursor) :
    parseU64Within (hexText neg digits ++ rest) =
      (parseU64HexWithin (digits ++ rest) 0).map fun r => (r.1, if neg then -r.2 else r.2) := by
  cases neg with
  | false => exact Option.map_id.symm ▸ rfl
  | true => rfl

theorem suffix_hexText (neg : Bool) (digits : Bytes) : digits <:+ hexText neg digits := by
  cases neg with
  | false => exact ⟨[zeroDigit, letterX], rfl⟩
  | true => exact ⟨[minus, zeroDigit, letterX], rfl⟩

/-- `parse_u64` is exact on hexadecimal numerals, of any length and with any zeros in front. -/
theorem parseU64_exactHex (neg : Bool) (junk : Cursor) (spells : Base.hex.value 0 digits = some v)
    (noDigit : isHex c = false) (noSeparator : c ≠ underscore) :
    ExactHex neg digits v c junk := by
  have noHexDigit : Base.hex.digit (deref (c :: junk)) = none := by
    rw [digit_hex_eq, deref_cons, if_neg (by rw [noDigit]; decide)]
  obtain ⟨left, res, inside, eq, reads⟩ :=
    parseU64Hex_turns.reads (show deref (c :: junk) ≠ underscore from noSeparator) noHexDigit
      digits (by decide : (0 : UInt64).toNat < _) spells
  have parsed := @parseU64_hexText digits neg (c :: junk)
  rw [eq] at parsed
  have whole : left = [] ↔ v < 2 ^ 64 := by
    split at reads
    · next small => exact iff_of_true reads.1 small
    · next large => exact iff_of_false reads large
  refine ⟨?_, fun small => ?_, fun large => ?_, ?_⟩
  · rw [parsed]
    exact List.append_left_eq_self.trans whole
  · rw [if_pos (show v < readLimit .hex from small)] at reads
    rw [parsed, reads.2]
    cases neg with
    | false => exact Nat.mod_eq_of_lt small
    | true =>
      exact (UInt64.toNat_neg _).trans
        (congrArg (fun n => (2 ^ 64 - n) % 2 ^ 64) (UInt64.toNat_ofNat_of_lt' small))
  · obtain ⟨sign, text⟩ := inside.trans (suffix_hexText neg digits)
    exact ⟨sign, left, text, mt whole.mp (by omega), by rw [parsed]⟩
  · rw [parseU64Within_hexText, Option.isSome_map]
    exact parseU64HexWithin_isSome digits 0 noDigit noSeparator

end Hex

/-- `-0xF_f;` is read whole, with nothing after the semicolon looked at. -/
theorem parseU64_exactHex_fF : ExactHex true [70, 95, 102] 255 59 [0] :=
  parseU64_exactHex true [0] (by decide) (by decide) (by decide)

end RiscvLinux.Config
