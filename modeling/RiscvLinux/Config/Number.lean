import RiscvLinux.Config.Text

/-!
# Numerals of the config text

`parse_u64` with its two digit loops. It returns the cursor where it stopped, and
its callers decide by that cursor alone whether a token was a number.
-/

namespace RiscvLinux.Config

/-! ## Digits -/

/-- `is_hex` -/
def isHex (c : Byte) : Bool :=
  (decide (48 ≤ c) && decide (c ≤ 57)) ||
  (decide (97 ≤ c) && decide (c ≤ 102)) ||
  (decide (65 ≤ c) && decide (c ≤ 70))

/-- `parse_hex` -/
def parseHex (c : Byte) : Byte :=
  if 48 ≤ c ∧ c ≤ 57 then c - 48
  else if 97 ≤ c ∧ c ≤ 102 then c - 97 + 10
  else c - 65 + 10

/-- `is_dec` -/
def isDec (c : Byte) : Bool := decide (48 ≤ c) && decide (c ≤ 57)

/-- `parse_dec` -/
def parseDec (c : Byte) : Byte := c - 48

/-- `'_'` -/
abbrev underscore : Byte := 95
/-- `'-'` -/
abbrev minus : Byte := 45
/-- `'0'` -/
abbrev zeroDigit : Byte := 48
/-- `'x'` -/
abbrev letterX : Byte := 120

/-- `do_div(n, base)` leaves the quotient in its first argument; the value of
the expression, second here, is the remainder. -/
def doDiv (n : UInt64) (base : UInt32) : UInt64 × UInt32 :=
  (n / base.toUInt64, (n % base.toUInt64).toUInt32)

/-! ## `parse_u64` -/

/-- The loop of `parse_u64_hex`, from the cursor `str` and the value read so far. -/
def parseU64Hex : Cursor → UInt64 → Cursor × UInt64
  | [], res => ([], res)
  | c :: s, res =>
    if c = 0 then (c :: s, res)
    else if isHex c then
      if (res <<< 4) >>> 4 ≠ res then (c :: s, res)
      else parseU64Hex s ((res <<< 4) + (parseHex c).toUInt64)
    else if c ≠ underscore then (c :: s, res)
    else parseU64Hex s res

/-- The loop of `parse_u64_dec`. -/
def parseU64Dec : Cursor → UInt64 → Cursor × UInt64
  | [], res => ([], res)
  | c :: s, res =>
    if c = 0 then (c :: s, res)
    else if isDec c then
      -- the overflow test uses the value of `do_div`, which is the remainder
      if (doDiv (res * 10) 10).2.toUInt64 ≠ res then (c :: s, res)
      else parseU64Dec s (res * 10 + (parseDec c).toUInt64)
    else if c ≠ underscore then (c :: s, res)
    else parseU64Dec s res

/-- `parse_u64`: the cursor after the numeral and the value stored. -/
def parseU64 (str : Cursor) : Cursor × UInt64 :=
  let neg := deref str = minus
  let str := if neg then inc str else str
  let (str, res) :=
    if deref str = zeroDigit ∧ deref (inc str) = letterX then parseU64Hex (inc (inc str)) 0
    else parseU64Dec str 0
  (str, if neg then -res else res)

end RiscvLinux.Config
