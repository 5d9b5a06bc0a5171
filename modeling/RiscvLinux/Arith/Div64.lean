import RiscvLinux.Lib.Reciprocal

/-!
# `do_div`

`arch/riscv/include/asm/div64.h` of a 32-bit kernel. A constant divisor becomes a multiplier, a
scale and a bias, which are chosen at compile time, and the product with the multiplier is put
together from products of 32-bit halves.
-/

namespace RiscvLinux.Arith

open Lib

/-- `ilog2`, for a number that is not zero -/
def ilog2 (n : UInt32) : Nat := Nat.log2 n.toNat

/-- `is_power_of_2` -/
def isPowerOf2 (n : UInt32) : Bool := n ≠ 0 ∧ n &&& (n - 1) = 0

/-! ## `__arch_xprod_64` -/

/-- The overflow tests of the product: bits 63 and 31 of the multiplier -/
def overflowBits : UInt64 := ((1 : UInt64) <<< 63) ||| ((1 : UInt64) <<< 31)

/-- A sum of two numbers is shifted down with the bit that it carries. -/
def carried (res tmp : UInt64) : UInt64 :=
  let carry : UInt64 := if res < tmp then (1 : UInt64) <<< 32 else 0
  (res >>> 32) + carry

/-- `__arch_xprod_64` -/
def archXprod64 (m n : UInt64) (bias : Bool) : UInt64 :=
  let mLo := m.toUInt32.toUInt64
  let mHi := (m >>> 32).toUInt32.toUInt64
  let nLo := n.toUInt32.toUInt64
  let nHi := (n >>> 32).toUInt32.toUInt64
  let res :=
    if !bias then (mLo * nLo) >>> 32
    else if m &&& overflowBits = 0 then (m + mLo * nLo) >>> 32
    else carried (m + mLo * nLo) m
  let res :=
    if m &&& overflowBits = 0 then (res + mLo * nHi + mHi * nLo) >>> 32
    else carried (res + mLo * nHi + mHi * nLo) (res + mLo * nHi)
  res + mHi * nHi

/-! ## `__div64_const32` -/

/-- `___p` -/
def scaleOf (b : UInt32) : UInt32 := 1 <<< UInt32.ofNat (ilog2 b)

/-- `___m`, which is `((p << 64) + b - 1) / b` -/
def multiplierOf (b : UInt32) : UInt64 :=
  (~~~0 / b.toUInt64) * (scaleOf b).toUInt64 +
    ((~~~0 % b.toUInt64 + 1) * (scaleOf b).toUInt64 + b.toUInt64 - 1) / b.toUInt64

/-- `___x`, one less than the dividend with the highest result -/
def testDividend (b : UInt32) : UInt64 := ~~~0 / b.toUInt64 * b.toUInt64 - 1

/-- `___res`, what the multiplier makes of the dividend `x` -/
def testResult (m x : UInt64) (p : UInt32) : UInt64 :=
  let low : UInt64 := 0xffffffff
  let res := ((m &&& low) * (x &&& low)) >>> 32
  let t := res + (m &&& low) * (x >>> 32)
  let res := carried (t + (x &&& low) * (m >>> 32)) t
  let res := res + (m >>> 32) * (x >>> 32)
  res / p.toUInt64

/-- `___n`, `___m`, `___p` and `___bias` before the product -/
structure Plan where
  n : UInt64
  m : UInt64
  p : UInt32
  bias : Bool

/-- `___b & -___b` -/
def lowestBit (b : UInt32) : UInt32 := b &&& -b

/-- The multiplier where `b` without its powers of two divides all ones -/
def specialPlan (n : UInt64) (b : UInt32) : Plan :=
  ⟨n / (lowestBit b).toUInt64, ~~~0 / (b / lowestBit b).toUInt64, 1, true⟩

/-- The multiplier rounded down, with a bias -/
def biasedPlan (n : UInt64) (b : UInt32) : Plan :=
  ⟨n, (~~~0 / b.toUInt64) * (scaleOf b).toUInt64 +
    ((~~~0 % b.toUInt64 + 1) * (scaleOf b).toUInt64) / b.toUInt64, scaleOf b, true⟩

/-- `___bits` -/
def reductionBits (m : UInt64) : UInt32 :=
  (~~~((-(m &&& -m)).toUInt32 ||| (m >>> 32).toUInt32)) <<< 1

/-- The multiplier reduced, without a bias -/
def reducedPlan (n m : UInt64) (p : UInt32) : Plan :=
  let bits := reductionBits m
  if bits = 0 then ⟨n, m / (m &&& -m), (p.toUInt64 / (m &&& -m)).toUInt32, false⟩
  else ⟨n, m >>> UInt64.ofNat (ilog2 bits), p >>> UInt32.ofNat (ilog2 bits), false⟩

/-- What `__div64_const32` chooses at compile time -/
def planOf (n : UInt64) (b : UInt32) : Plan :=
  let m := multiplierOf b
  let x := testDividend b
  let res := testResult m x (scaleOf b)
  if ~~~0 % (b / lowestBit b).toUInt64 = 0 then specialPlan n b
  else if res ≠ x / b.toUInt64 then biasedPlan n b
  else reducedPlan n m (scaleOf b)

/-- `__div64_const32` -/
def div64Const32 (n : UInt64) (b : UInt32) : UInt64 :=
  let plan := planOf n b
  archXprod64 plan.m plan.n plan.bias / plan.p.toUInt64

/-- `do_div`: what `n` holds afterwards, and the value of the expression. `constant` is what
`__builtin_constant_p` says of the base, and `div64_32` the routine for all other divisors. -/
def doDiv (constant : Bool) (div64_32 : UInt64 → UInt32 → UInt64 × UInt32) (n : UInt64)
    (base : UInt32) : UInt64 × UInt32 :=
  if constant && isPowerOf2 base then
    (n >>> UInt64.ofNat (ilog2 base), (n &&& (base - 1).toUInt64).toUInt32)
  else if constant && base ≠ 0 then
    let q := div64Const32 n base
    (q, n.toUInt32 - q.toUInt32 * base)
  else if n >>> 32 = 0 then
    ((n.toUInt32 / base).toUInt64, n.toUInt32 % base)
  else div64_32 n base

/-! ## The product -/

theorem toNat_add_of_lt {a b : UInt64} (fits : a.toNat + b.toNat < 2 ^ 64) :
    (a + b).toNat = a.toNat + b.toNat := by
  rw [UInt64.toNat_add, Nat.mod_eq_of_lt fits]

theorem toNat_mul_of_lt {a b : UInt64} (fits : a.toNat * b.toNat < 2 ^ 64) :
    (a * b).toNat = a.toNat * b.toNat := by
  rw [UInt64.toNat_mul, Nat.mod_eq_of_lt fits]

theorem toNat_shiftRight_half (a : UInt64) : (a >>> 32).toNat = a.toNat / 2 ^ 32 := by
  rw [UInt64.toNat_shiftRight, Nat.shiftRight_eq_div_pow]
  rfl

theorem toNat_and_half (a : UInt64) : (a &&& 0xffffffff).toNat = a.toNat % 2 ^ 32 := by
  rw [UInt64.toNat_and]
  exact Nat.and_two_pow_sub_one_eq_mod a.toNat 32

/-- The sum of two numbers, shifted down, with its carry. -/
theorem toNat_carried (a b : UInt64) :
    (carried (a + b) a).toNat = (a.toNat + b.toNat) / 2 ^ 32 := by
  have smallA := a.toNat_lt
  have smallB := b.toNat_lt
  rw [carried]
  rcases Nat.lt_or_ge (a.toNat + b.toNat) (2 ^ 64) with fits | wraps
  · have sum := toNat_add_of_lt fits
    rw [if_neg (by rw [UInt64.lt_iff_toNat_lt, sum]; omega), UInt64.add_zero,
      toNat_shiftRight_half, sum]
  · have sum : (a + b).toNat = a.toNat + b.toNat - 2 ^ 64 := by
      rw [UInt64.toNat_add]
      omega
    have carry : ((1 : UInt64) <<< 32).toNat = 2 ^ 32 := by decide
    rw [if_pos (by rw [UInt64.lt_iff_toNat_lt, sum]; omega), UInt64.toNat_add,
      toNat_shiftRight_half, sum, carry]
    omega

/-- The parts of a product of two numbers in two halves -/
theorem halves_product (c m n : Nat) {R : Nat} (positive : 0 < R) :
    ((c + m % R * (n % R)) / R + m % R * (n / R) + m / R * (n % R)) / R + m / R * (n / R) =
      (c + m * n) / (R * R) := by
  have parts : c + m * n = c + m % R * (n % R) + R * (m % R * (n / R) + m / R * (n % R)) +
      R * (R * (m / R * (n / R))) := by
    calc c + m * n = c + (R * (m / R) + m % R) * (R * (n / R) + n % R) := by
          rw [Nat.div_add_mod, Nat.div_add_mod]
      _ = _ := by ring
  rw [parts, ← Nat.div_div_eq_div_mul, Nat.add_mul_div_left _ _ positive,
    Nat.add_mul_div_left _ _ positive, Nat.add_mul_div_left _ _ positive, Nat.add_assoc _ (_ * _)]

theorem mul_half_le {a b : Nat} (smallA : a < 2 ^ 32) (smallB : b < 2 ^ 32) :
    a * b ≤ (2 ^ 32 - 1) * (2 ^ 32 - 1) :=
  Nat.mul_le_mul (by omega) (by omega)

/-- No bit that the overflow tests look at is set. -/
theorem half_lt_of_and_overflowBits {m : UInt64} (clear : m &&& overflowBits = 0) :
    m.toNat % 2 ^ 32 < 2 ^ 31 ∧ m.toNat / 2 ^ 32 < 2 ^ 31 := by
  have bits : m.toNat &&& overflowBits.toNat = 0 := by
    rw [← UInt64.toNat_and, clear]
    rfl
  have unset : ∀ i, overflowBits.toNat.testBit i = true → m.toNat.testBit i = false := by
    intro i set
    have bit := congrArg (Nat.testBit · i) bits
    simpa only [Nat.testBit_and, set, Bool.and_true, Nat.zero_testBit] using bit
  have top := unset 63 (by decide)
  have middle := unset 31 (by decide)
  have size := m.toNat_lt
  rw [Nat.testBit_eq_decide_div_mod_eq, decide_eq_false_iff_not] at top middle
  omega

/-- The first stage: the bias and the lowest product. -/
theorem toNat_lowStage {m a b : UInt64} (bias : Bool) (low : a.toNat = m.toNat % 2 ^ 32)
    (half : b.toNat < 2 ^ 32) :
    (if !bias then (a * b) >>> 32
      else if m &&& overflowBits = 0 then (m + a * b) >>> 32 else carried (m + a * b) m).toNat =
      ((if bias then m.toNat else 0) + a.toNat * b.toNat) / 2 ^ 32 := by
  have halfA : a.toNat < 2 ^ 32 := by omega
  have bound := mul_half_le halfA half
  have product : (a * b).toNat = a.toNat * b.toNat := toNat_mul_of_lt (by omega)
  cases bias with
  | false =>
    rw [if_pos (by rfl), if_neg Bool.false_ne_true, toNat_shiftRight_half, product, Nat.zero_add]
  | true =>
    rw [if_neg (by decide), if_pos rfl]
    by_cases clear : m &&& overflowBits = 0
    · have small := half_lt_of_and_overflowBits clear
      have sharp : a.toNat * b.toNat ≤ (2 ^ 31 - 1) * (2 ^ 32 - 1) :=
        Nat.mul_le_mul (by omega) (by omega)
      rw [if_pos clear, toNat_shiftRight_half, toNat_add_of_lt (by rw [product]; omega), product]
    · rw [if_neg clear, toNat_carried, product]

/-- The second stage: the two cross products. -/
theorem toNat_crossStage (res : UInt64) {a b c d m : UInt64} (low : a.toNat = m.toNat % 2 ^ 32)
    (high : c.toNat = m.toNat / 2 ^ 32) (halfB : b.toNat < 2 ^ 32) (halfD : d.toNat < 2 ^ 32)
    (first : res.toNat ≤ 2 * 2 ^ 32 - 2)
    (small : m &&& overflowBits = 0 → res.toNat ≤ 2 ^ 32) :
    (if m &&& overflowBits = 0 then (res + a * b + c * d) >>> 32
      else carried (res + a * b + c * d) (res + a * b)).toNat =
      (res.toNat + a.toNat * b.toNat + c.toNat * d.toNat) / 2 ^ 32 := by
  have size := m.toNat_lt
  have boundAB := mul_half_le (show a.toNat < 2 ^ 32 by omega) halfB
  have boundCD := mul_half_le (show c.toNat < 2 ^ 32 by omega) halfD
  have productAB : (a * b).toNat = a.toNat * b.toNat := toNat_mul_of_lt (by omega)
  have productCD : (c * d).toNat = c.toNat * d.toNat := toNat_mul_of_lt (by omega)
  have sum : (res + a * b).toNat = res.toNat + a.toNat * b.toNat := by
    rw [toNat_add_of_lt (by rw [productAB]; omega), productAB]
  by_cases clear : m &&& overflowBits = 0
  · have halves := half_lt_of_and_overflowBits clear
    have sharpAB : a.toNat * b.toNat ≤ (2 ^ 31 - 1) * (2 ^ 32 - 1) :=
      Nat.mul_le_mul (by omega) (by omega)
    have sharpCD : c.toNat * d.toNat ≤ (2 ^ 31 - 1) * (2 ^ 32 - 1) :=
      Nat.mul_le_mul (by omega) (by omega)
    have start := small clear
    rw [if_pos clear, toNat_shiftRight_half, toNat_add_of_lt (by rw [sum, productCD]; omega), sum,
      productCD]
  · rw [if_neg clear, toNat_carried, sum, productCD]

/-- `__arch_xprod_64` is exact, in both regimes. -/
theorem toNat_archXprod64 (m n : UInt64) (bias : Bool) :
    (archXprod64 m n bias).toNat =
      ((if bias then m.toNat else 0) + m.toNat * n.toNat) / 2 ^ 64 := by
  have sizeM := m.toNat_lt
  have sizeN := n.toNat_lt
  have low : ∀ a : UInt64, a.toUInt32.toUInt64.toNat = a.toNat % 2 ^ 32 := fun _ => rfl
  have high : ∀ a : UInt64, (a >>> 32).toUInt32.toUInt64.toNat = a.toNat / 2 ^ 32 := by
    intro a
    have size := a.toNat_lt
    rw [low, toNat_shiftRight_half, Nat.mod_eq_of_lt (by omega)]
  have lowHalf : ∀ a : UInt64, a.toUInt32.toUInt64.toNat < 2 ^ 32 := fun a => by
    rw [low]
    omega
  have highHalf : ∀ a : UInt64, (a >>> 32).toUInt32.toUInt64.toNat < 2 ^ 32 := fun a => by
    have size := a.toNat_lt
    rw [high]
    omega
  have bound := mul_half_le (lowHalf m) (lowHalf n)
  have first := toNat_lowStage bias (low m) (lowHalf n)
  have added : (if bias then m.toNat else 0) ≤ m.toNat := by
    cases bias with
    | false => exact Nat.zero_le _
    | true => exact Nat.le_refl _
  rw [archXprod64]
  set res := if !bias then (m.toUInt32.toUInt64 * n.toUInt32.toUInt64) >>> 32
    else if m &&& overflowBits = 0 then (m + m.toUInt32.toUInt64 * n.toUInt32.toUInt64) >>> 32
    else carried (m + m.toUInt32.toUInt64 * n.toUInt32.toUInt64) m
  have second := toNat_crossStage res (low m) (high m) (highHalf n) (lowHalf n)
    (by omega) fun clear => by
      have halves := half_lt_of_and_overflowBits clear
      have sharp : m.toUInt32.toUInt64.toNat * n.toUInt32.toUInt64.toNat ≤
          (2 ^ 31 - 1) * (2 ^ 32 - 1) :=
        Nat.mul_le_mul (by rw [low]; omega) (Nat.le_pred_of_lt (lowHalf n))
      omega
  have total : (if bias then m.toNat else 0) + m.toNat * n.toNat ≤ (2 ^ 64 - 1) * 2 ^ 64 := by
    calc _ ≤ m.toNat * (n.toNat + 1) := by rw [Nat.mul_succ, Nat.add_comm]; omega
      _ ≤ _ := Nat.mul_le_mul (by omega) (by omega)
  have whole := halves_product (if bias then m.toNat else 0) m.toNat n.toNat (Nat.two_pow_pos 32)
  rw [first, low m, low n, high m, high n] at second
  have productHigh : ((m >>> 32).toUInt32.toUInt64 * (n >>> 32).toUInt32.toUInt64).toNat =
      m.toNat / 2 ^ 32 * (n.toNat / 2 ^ 32) := by
    have bound := mul_half_le (highHalf m) (highHalf n)
    rw [toNat_mul_of_lt (by omega), high, high]
  rw [← second, ← productHigh] at whole
  exact (toNat_add_of_lt (by omega)).trans whole

/-! ## The test -/

theorem toNat_testResult (m x : UInt64) (p : UInt32) :
    (testResult m x p).toNat = m.toNat * x.toNat / 2 ^ 64 / p.toNat := by
  have sizeM := m.toNat_lt
  have sizeX := x.toNat_lt
  have halfM : m.toNat % 2 ^ 32 < 2 ^ 32 := Nat.mod_lt _ (Nat.two_pow_pos 32)
  have halfX : x.toNat % 2 ^ 32 < 2 ^ 32 := Nat.mod_lt _ (Nat.two_pow_pos 32)
  have highM : m.toNat / 2 ^ 32 < 2 ^ 32 := by omega
  have highX : x.toNat / 2 ^ 32 < 2 ^ 32 := by omega
  have boundLow := mul_half_le halfM halfX
  have boundMX := mul_half_le halfM highX
  have boundXM := mul_half_le halfX highM
  have boundHigh := mul_half_le highM highX
  have first : (((m &&& 0xffffffff) * (x &&& 0xffffffff)) >>> 32).toNat =
      m.toNat % 2 ^ 32 * (x.toNat % 2 ^ 32) / 2 ^ 32 := by
    rw [toNat_shiftRight_half, toNat_mul_of_lt, toNat_and_half, toNat_and_half]
    rw [toNat_and_half, toNat_and_half]
    omega
  have crossM : ((m &&& (0xffffffff : UInt64)) * (x >>> 32)).toNat =
      m.toNat % 2 ^ 32 * (x.toNat / 2 ^ 32) := by
    rw [toNat_mul_of_lt, toNat_and_half, toNat_shiftRight_half]
    rw [toNat_and_half, toNat_shiftRight_half]
    omega
  have crossX : ((x &&& (0xffffffff : UInt64)) * (m >>> 32)).toNat =
      m.toNat / 2 ^ 32 * (x.toNat % 2 ^ 32) := by
    rw [toNat_mul_of_lt, toNat_and_half, toNat_shiftRight_half, Nat.mul_comm]
    rw [toNat_and_half, toNat_shiftRight_half]
    omega
  have high : ((m >>> 32) * (x >>> 32)).toNat = m.toNat / 2 ^ 32 * (x.toNat / 2 ^ 32) := by
    rw [toNat_mul_of_lt, toNat_shiftRight_half, toNat_shiftRight_half]
    rw [toNat_shiftRight_half, toNat_shiftRight_half]
    omega
  have whole := halves_product 0 m.toNat x.toNat (Nat.two_pow_pos 32)
  rw [Nat.zero_add, Nat.zero_add] at whole
  have total : m.toNat * x.toNat ≤ (2 ^ 64 - 1) * (2 ^ 64 - 1) :=
    Nat.mul_le_mul (by omega) (by omega)
  rw [testResult, UInt64.toNat_div, toNat_add_of_lt, toNat_carried, toNat_add_of_lt, first, crossM,
    crossX, high, whole]
  · rfl
  · rw [first, crossM]
    omega
  · rw [toNat_carried, toNat_add_of_lt, first, crossM, crossX, high, whole]
    · omega
    · rw [first, crossM]
      omega

/-! ## The choice of the multiplier -/

theorem isPowerOf2_iff (b : UInt32) : isPowerOf2 b = true ↔ ∃ k, b.toNat = 2 ^ k := by
  have zero : b = 0 ↔ b.toNat = 0 := UInt32.toNat_inj.symm
  rw [isPowerOf2, decide_eq_true_eq, ← Nat.isPowerOfTwo,
    Nat.ne_zero_and_sub_one_eq_zero_iff_isPowerOfTwo.symm, Ne, zero]
  refine and_congr_right fun nonzero => ?_
  have one : (1 : UInt32) ≤ b := Nat.pos_of_ne_zero nonzero
  rw [← UInt32.toNat_inj, UInt32.toNat_and, UInt32.toNat_sub_of_le b 1 one]
  rfl

theorem toNat_not_zero : (~~~0 : UInt64).toNat = 2 ^ 64 - 1 := by
  decide

/-- A divisor that `do_div` does not take for a power of two -/
structure Divisor (b : UInt32) : Prop where
  nonzero : b ≠ 0
  noPower : isPowerOf2 b = false

section Divisor

variable {b : UInt32} (divisor : Divisor b)
include divisor

theorem Divisor.pos : 0 < b.toNat :=
  Nat.pos_of_ne_zero fun zero => divisor.nonzero (UInt32.toNat_inj.mp zero)

theorem Divisor.no_two_pow : ¬ ∃ k, b.toNat = 2 ^ k := by
  rw [← isPowerOf2_iff, divisor.noPower]
  exact Bool.false_ne_true

theorem Divisor.scale : (scaleOf b).toNat = 2 ^ ilog2 b ∧ ilog2 b < 32 ∧
    2 ^ ilog2 b < b.toNat ∧ b.toNat < 2 * 2 ^ ilog2 b := by
  have nonzero := Nat.pos_iff_ne_zero.mp divisor.pos
  have lower := Nat.log2_self_le nonzero
  have upper : b.toNat < 2 ^ (ilog2 b + 1) := Nat.lt_log2_self
  have bits : ilog2 b < 32 := (Nat.log2_lt nonzero).mpr b.toNat_lt
  refine ⟨?_, bits, Nat.lt_of_le_of_ne lower fun eq => divisor.no_two_pow ⟨_, eq.symm⟩, ?_⟩
  · have count : (UInt32.ofNat (ilog2 b)).toNat = ilog2 b :=
      UInt32.toNat_ofNat_of_lt' (Nat.lt_trans bits (by decide))
    have fits : 2 ^ ilog2 b < 2 ^ 32 := Nat.pow_lt_pow_right (by decide) bits
    rw [scaleOf, UInt32.toNat_shiftLeft, count, Nat.mod_eq_of_lt bits, Nat.shiftLeft_eq]
    exact (Nat.mod_eq_of_lt (by rw [UInt32.toNat_one, Nat.one_mul]; exact fits)).trans
      (Nat.one_mul _)
  · rw [Nat.pow_succ] at upper
    omega

/-- The divisor does not divide the scaled word. -/
theorem Divisor.rest : ¬ b.toNat ∣ (scaleOf b).toNat * 2 ^ 64 := by
  rw [divisor.scale.1, ← Nat.pow_add]
  exact not_dvd_two_pow divisor.no_two_pow _

theorem Divisor.scale_lt : (scaleOf b).toNat < b.toNat ∧ b.toNat ≤ 2 * (scaleOf b).toNat ∧
    0 < (scaleOf b).toNat := by
  obtain ⟨scale, -, lower, upper⟩ := divisor.scale
  have one := Nat.two_pow_pos (ilog2 b)
  omega

/-- The quotient of all ones, scaled. -/
theorem Divisor.toNat_whole : ((~~~0 / b.toUInt64) * (scaleOf b).toUInt64).toNat =
    (2 ^ 64 - 1) / b.toNat * (scaleOf b).toNat := by
  have quotient : (~~~0 / b.toUInt64).toNat = (2 ^ 64 - 1) / b.toNat := by
    rw [UInt64.toNat_div, toNat_not_zero, UInt32.toNat_toUInt64]
  have bound : (2 ^ 64 - 1) / b.toNat * (scaleOf b).toNat ≤ 2 ^ 64 - 1 :=
    Nat.le_trans (Nat.mul_le_mul_left _ (Nat.le_of_lt divisor.scale_lt.1)) (Nat.div_mul_le_self _ _)
  rw [toNat_mul_of_lt, quotient, UInt32.toNat_toUInt64]
  rw [quotient, UInt32.toNat_toUInt64]
  omega

/-- What is left of all ones and one more, scaled. -/
theorem Divisor.toNat_rest :
    ((~~~0 % b.toUInt64 + 1) * (scaleOf b).toUInt64).toNat =
        ((2 ^ 64 - 1) % b.toNat + 1) * (scaleOf b).toNat ∧
      ((2 ^ 64 - 1) % b.toNat + 1) * (scaleOf b).toNat + b.toNat < 2 ^ 64 := by
  have size := b.toNat_lt
  have below := Nat.mod_lt (2 ^ 64 - 1) divisor.pos
  have remainder : (~~~0 % b.toUInt64).toNat = (2 ^ 64 - 1) % b.toNat := by
    rw [UInt64.toNat_mod, toNat_not_zero, UInt32.toNat_toUInt64]
  have more : (~~~0 % b.toUInt64 + 1).toNat = (2 ^ 64 - 1) % b.toNat + 1 := by
    rw [toNat_add_of_lt, remainder, UInt64.toNat_one]
    rw [remainder, UInt64.toNat_one]
    omega
  have bound : ((2 ^ 64 - 1) % b.toNat + 1) * (scaleOf b).toNat ≤ (2 ^ 32 - 1) * (2 ^ 32 - 1) :=
    Nat.mul_le_mul (by omega) (Nat.le_pred_of_lt (scaleOf b).toNat_lt)
  refine ⟨?_, by omega⟩
  rw [toNat_mul_of_lt, more, UInt32.toNat_toUInt64]
  rw [more, UInt32.toNat_toUInt64]
  omega

/-- `___m` is the reciprocal rounded up. -/
theorem Divisor.roundedUp :
    ∃ e, RoundedUp (2 ^ 64) (scaleOf b).toNat b.toNat (multiplierOf b).toNat e := by
  obtain ⟨e, up⟩ := RoundedUp.of_parts divisor.pos (Nat.two_pow_pos 64) divisor.rest
  have whole := divisor.toNat_whole
  obtain ⟨rest, fits⟩ := divisor.toNat_rest
  have some_b := divisor.pos
  have sum : ((~~~0 % b.toUInt64 + 1) * (scaleOf b).toUInt64 + b.toUInt64).toNat =
      ((2 ^ 64 - 1) % b.toNat + 1) * (scaleOf b).toNat + b.toNat := by
    rw [toNat_add_of_lt, rest, UInt32.toNat_toUInt64]
    rwa [rest, UInt32.toNat_toUInt64]
  have numerator : ((~~~0 % b.toUInt64 + 1) * (scaleOf b).toUInt64 + b.toUInt64 - 1).toNat =
      ((2 ^ 64 - 1) % b.toNat + 1) * (scaleOf b).toNat + b.toNat - 1 := by
    rw [UInt64.toNat_sub_of_le, sum, UInt64.toNat_one]
    rw [UInt64.le_iff_toNat_le, sum, UInt64.toNat_one]
    omega
  have multiplier : (multiplierOf b).toNat = (2 ^ 64 - 1) / b.toNat * (scaleOf b).toNat +
      (((2 ^ 64 - 1) % b.toNat + 1) * (scaleOf b).toNat + b.toNat - 1) / b.toNat := by
    have product := up.product
    have bounded := up.bounded
    have lower := divisor.scale_lt.1
    have size := b.toNat_lt
    rw [multiplierOf, toNat_add_of_lt, whole, UInt64.toNat_div, numerator, UInt32.toNat_toUInt64]
    rw [whole, UInt64.toNat_div, numerator, UInt32.toNat_toUInt64]
    -- `p < b`, so that the reciprocal stays below the word
    refine Nat.lt_of_mul_lt_mul_right (a := b.toNat) ?_
    rw [product]
    omega
  exact ⟨e, multiplier ▸ up⟩

/-- With the bias, `___m` is the reciprocal rounded down, where rounding up comes to too much. -/
theorem Divisor.roundedDown {e : Nat} (n : UInt64)
    (up : RoundedUp (2 ^ 64) (scaleOf b).toNat b.toNat (multiplierOf b).toNat e)
    (large : (scaleOf b).toNat < e) :
    ∃ f, RoundedDown (2 ^ 64) (scaleOf b).toNat b.toNat (biasedPlan n b).m.toNat f := by
  obtain ⟨f, down⟩ := RoundedDown.of_parts (Nat.two_pow_pos 64) divisor.rest up
    divisor.scale_lt.2.1 large
  have whole := divisor.toNat_whole
  have multiplier : (biasedPlan n b).m.toNat = (2 ^ 64 - 1) / b.toNat * (scaleOf b).toNat +
      ((2 ^ 64 - 1) % b.toNat + 1) * (scaleOf b).toNat / b.toNat := by
    have lower := divisor.scale_lt.1
    have product := down.product
    rw [biasedPlan, toNat_add_of_lt, whole, UInt64.toNat_div, divisor.toNat_rest.1,
      UInt32.toNat_toUInt64]
    rw [whole, UInt64.toNat_div, divisor.toNat_rest.1, UInt32.toNat_toUInt64]
    refine Nat.lt_of_mul_lt_mul_right (a := b.toNat) ?_
    omega
  exact ⟨f, multiplier ▸ down⟩

/-- `___x` -/
theorem Divisor.toNat_testDividend :
    (testDividend b).toNat = (2 ^ 64 - 1) / b.toNat * b.toNat - 1 := by
  have quotient : (~~~0 / b.toUInt64).toNat = (2 ^ 64 - 1) / b.toNat := by
    rw [UInt64.toNat_div, toNat_not_zero, UInt32.toNat_toUInt64]
  have bound : (2 ^ 64 - 1) / b.toNat * b.toNat ≤ 2 ^ 64 - 1 := Nat.div_mul_le_self _ _
  have size := b.toNat_lt
  have large : 0 < (2 ^ 64 - 1) / b.toNat := Nat.div_pos (by omega) divisor.pos
  have multiple : b.toNat ≤ (2 ^ 64 - 1) / b.toNat * b.toNat := Nat.le_mul_of_pos_left _ large
  have product : (~~~0 / b.toUInt64 * b.toUInt64).toNat = (2 ^ 64 - 1) / b.toNat * b.toNat := by
    rw [toNat_mul_of_lt, quotient, UInt32.toNat_toUInt64]
    rw [quotient, UInt32.toNat_toUInt64]
    omega
  have some_b := divisor.pos
  rw [testDividend, UInt64.toNat_sub_of_le, product, UInt64.toNat_one]
  rw [UInt64.le_iff_toNat_le, product, UInt64.toNat_one]
  omega

/-- What the test compares. -/
theorem Divisor.test_iff : testResult (multiplierOf b) (testDividend b) (scaleOf b) =
      testDividend b / b.toUInt64 ↔
    (multiplierOf b).toNat * ((2 ^ 64 - 1) / b.toNat * b.toNat - 1) /
        ((scaleOf b).toNat * 2 ^ 64) =
      ((2 ^ 64 - 1) / b.toNat * b.toNat - 1) / b.toNat := by
  rw [← UInt64.toNat_inj, toNat_testResult, UInt64.toNat_div, divisor.toNat_testDividend,
    UInt32.toNat_toUInt64, Nat.div_div_eq_div_mul, Nat.mul_comm (2 ^ 64)]

end Divisor

/-! ## The reduction -/

/-- `x & -x` is the lowest bit that is set. -/
theorem toNat_and_neg {m : UInt64} (some_m : 0 < m.toNat) :
    ∃ t, t < 64 ∧ 2 ^ t ∣ m.toNat ∧ (m &&& -m).toNat = 2 ^ t := by
  obtain ⟨t, small, divides, bit⟩ := exists_and_sub_eq some_m m.toNat_lt
  refine ⟨t, small, divides, ?_⟩
  rw [UInt64.toNat_and, UInt64.toNat_neg, Nat.mod_eq_of_lt]
  · exact bit
  · exact Nat.sub_lt (by decide) some_m

theorem toNat_lowestBit {b : UInt32} (some_b : 0 < b.toNat) :
    ∃ t, t < 32 ∧ 2 ^ t ∣ b.toNat ∧ (lowestBit b).toNat = 2 ^ t := by
  obtain ⟨t, small, divides, bit⟩ := exists_and_sub_eq some_b b.toNat_lt
  refine ⟨t, small, divides, ?_⟩
  rw [lowestBit, UInt32.toNat_and, UInt32.toNat_neg, Nat.mod_eq_of_lt]
  · exact bit
  · exact Nat.sub_lt (by decide) some_b

/-- The bits of the negated lowest bit start with it. -/
theorem testBit_neg_two_pow {a : UInt64} {t i : Nat} (bit : a.toNat = 2 ^ t) (here : t ≤ i)
    (inside : i < 32) : (-a).toUInt32.toNat.testBit i = true := by
  have one := Nat.two_pow_pos t
  have word : 2 ^ t < 2 ^ 64 := Nat.pow_lt_pow_right (by decide) (by omega)
  have negated : (-a).toNat = 2 ^ 64 - (2 ^ t - 1 + 1) := by
    rw [UInt64.toNat_neg, bit, Nat.sub_add_cancel one]
    exact Nat.mod_eq_of_lt (Nat.sub_lt (by decide) one)
  rw [UInt64.toNat_toUInt32, Nat.testBit_mod_two_pow, negated,
    Nat.testBit_two_pow_sub_succ (by omega), Nat.testBit_two_pow_sub_one,
    decide_eq_true inside, decide_eq_true (show i < 64 by omega),
    decide_eq_false (show ¬ i < t by omega)]
  rfl

/-- The highest bit of `___bits` is no higher than the lowest of the multiplier. -/
theorem ilog2_reductionBits_le {m : UInt64} {t : Nat} (bit : (m &&& -m).toNat = 2 ^ t)
    (some_bits : reductionBits m ≠ 0) :
    ilog2 (reductionBits m) ≤ t ∧ ilog2 (reductionBits m) < 32 := by
  have nonzero : (reductionBits m).toNat ≠ 0 := fun zero =>
    some_bits (UInt32.toNat_inj.mp zero)
  have top : (reductionBits m).toNat.testBit (ilog2 (reductionBits m)) = true :=
    Nat.testBit_log2 nonzero
  have small : ilog2 (reductionBits m) < 32 := (Nat.log2_lt nonzero).mpr (reductionBits m).toNat_lt
  refine ⟨Nat.le_of_not_lt fun above => ?_, small⟩
  have size := ((-(m &&& -m)).toUInt32 ||| (m >>> 32).toUInt32).toNat_lt
  have flipped : UInt32.size - 1 - ((-(m &&& -m)).toUInt32 ||| (m >>> 32).toUInt32).toNat =
      2 ^ 32 - (((-(m &&& -m)).toUInt32 ||| (m >>> 32).toUInt32).toNat + 1) := by
    change 2 ^ 32 - 1 - _ = _
    omega
  -- the bit comes from one below, which is set before the complement
  rw [reductionBits, UInt32.toNat_shiftLeft, UInt32.toNat_not, flipped, ← reductionBits,
    Nat.testBit_mod_two_pow, UInt32.toNat_one, Nat.testBit_shiftLeft,
    Nat.testBit_two_pow_sub_succ size, UInt32.toNat_or, Nat.testBit_or,
    testBit_neg_two_pow bit (by omega) (by omega)] at top
  simp at top

/-- What the reduction comes to: both numbers lose the same power of two. -/
theorem reducedPlan_eq (n : UInt64) {m : UInt64} {p : UInt32} (some_m : 0 < m.toNat) :
    ∃ s t, s ≤ t ∧ 2 ^ t ∣ m.toNat ∧ (reducedPlan n m p).n = n ∧
      (reducedPlan n m p).bias = false ∧ (reducedPlan n m p).m.toNat = m.toNat / 2 ^ s ∧
      (reducedPlan n m p).p.toNat = p.toNat / 2 ^ s := by
  obtain ⟨t, small, divides, bit⟩ := toNat_and_neg some_m
  by_cases none : reductionBits m = 0
  · refine ⟨t, t, Nat.le_refl t, divides, ?_⟩
    rw [reducedPlan, if_pos none]
    refine ⟨rfl, rfl, ?_, ?_⟩
    · rw [UInt64.toNat_div, bit]
    · have size := p.toNat_lt
      rw [UInt64.toNat_toUInt32, UInt64.toNat_div, bit, UInt32.toNat_toUInt64]
      exact Nat.mod_eq_of_lt (Nat.lt_of_le_of_lt (Nat.div_le_self _ _) size)
  · obtain ⟨below, bits⟩ := ilog2_reductionBits_le bit none
    refine ⟨ilog2 (reductionBits m), t, below, divides, ?_⟩
    rw [reducedPlan, if_neg none]
    refine ⟨rfl, rfl, ?_, ?_⟩
    · rw [UInt64.toNat_shiftRight, UInt64.toNat_ofNat_of_lt' (Nat.lt_trans bits (by decide)),
        Nat.mod_eq_of_lt (Nat.lt_trans bits (by decide)), Nat.shiftRight_eq_div_pow]
    · rw [UInt32.toNat_shiftRight, UInt32.toNat_ofNat_of_lt' (Nat.lt_trans bits (by decide)),
        Nat.mod_eq_of_lt bits, Nat.shiftRight_eq_div_pow]

/-- Numbers that lose a common factor keep their quotient. -/
theorem div_reduced {m p s N : Nat} (n : Nat) (dividesM : 2 ^ s ∣ m) (dividesP : 2 ^ s ∣ p) :
    m / 2 ^ s * n / N / (p / 2 ^ s) = m * n / (p * N) := by
  rcases dividesM with ⟨m', rfl⟩
  rcases dividesP with ⟨p', rfl⟩
  have factor := Nat.two_pow_pos s
  rw [Nat.mul_div_cancel_left _ factor, Nat.mul_div_cancel_left _ factor, Nat.div_div_eq_div_mul,
    Nat.mul_assoc, Nat.mul_assoc, Nat.mul_div_mul_left _ _ factor, Nat.mul_comm p']

/-! ## The quotient -/

/-- No divisor of the computation is zero. -/
structure NoZero (n : UInt64) (b : UInt32) : Prop where
  base : b ≠ 0
  bit : lowestBit b ≠ 0
  rest : b / lowestBit b ≠ 0
  scale : scaleOf b ≠ 0
  multiplierBit : multiplierOf b &&& -multiplierOf b ≠ 0
  plan : (planOf n b).p ≠ 0

/-- The product with the multiplier, scaled down, is the quotient. -/
structure ExactPlan (n b : Nat) (plan : Plan) : Prop where
  scale : plan.p ≠ 0
  quotient : (archXprod64 plan.m plan.n plan.bias).toNat / plan.p.toNat = n / b

section Divisor

variable {b : UInt32} (divisor : Divisor b)
include divisor

theorem Divisor.toNat_rest_lowestBit : ∃ t, 2 ^ t ∣ b.toNat ∧ (lowestBit b).toNat = 2 ^ t ∧
    (b / lowestBit b).toNat = b.toNat / 2 ^ t ∧ 0 < b.toNat / 2 ^ t := by
  obtain ⟨t, -, divides, bit⟩ := toNat_lowestBit divisor.pos
  refine ⟨t, divides, bit, ?_, ?_⟩
  · rw [UInt32.toNat_div, bit]
  · exact Nat.div_pos (Nat.le_of_dvd divisor.pos divides) (Nat.two_pow_pos t)

theorem Divisor.special_exact (n : UInt64) (whole : ~~~0 % (b / lowestBit b).toUInt64 = 0) :
    ExactPlan n.toNat b.toNat (specialPlan n b) := by
  obtain ⟨t, divides, bit, rest, some_rest⟩ := divisor.toNat_rest_lowestBit
  have multiple := congrArg UInt64.toNat whole
  rw [UInt64.toNat_mod, toNat_not_zero, UInt32.toNat_toUInt64, rest, UInt64.toNat_zero] at multiple
  have exact := Nat.div_mul_cancel (Nat.dvd_of_mod_eq_zero multiple)
  have dividend : (specialPlan n b).n.toNat = n.toNat / 2 ^ t := by
    rw [specialPlan, UInt64.toNat_div, UInt32.toNat_toUInt64, bit]
  have multiplier : (specialPlan n b).m.toNat = (2 ^ 64 - 1) / (b.toNat / 2 ^ t) := by
    rw [specialPlan, UInt64.toNat_div, toNat_not_zero, UInt32.toNat_toUInt64, rest]
  refine ⟨show (1 : UInt32) ≠ 0 by decide, ?_⟩
  have below : n.toNat / 2 ^ t < 2 ^ 64 := Nat.lt_of_le_of_lt (Nat.div_le_self _ _) n.toNat_lt
  have quotient := div_eq_of_dvd_pred some_rest
    (show (2 ^ 64 - 1) / (b.toNat / 2 ^ t) * (b.toNat / 2 ^ t) + 1 = 2 ^ 64 by rw [exact]; rfl)
    below
  rw [Nat.div_div_eq_div_mul, Nat.mul_div_cancel' divides] at quotient
  rw [toNat_archXprod64, dividend, multiplier, ← quotient]
  exact Nat.div_one _

theorem Divisor.some_multiplier : 0 < (multiplierOf b).toNat := by
  obtain ⟨e, up⟩ := divisor.roundedUp
  refine Nat.pos_of_ne_zero fun zero => ?_
  have product := up.product
  have excess := up.excess
  rw [zero] at product
  omega

/-- The scale has all the powers of two that the multiplier has. -/
theorem Divisor.dvd_scale {e t : Nat}
    (up : RoundedUp (2 ^ 64) (scaleOf b).toNat b.toNat (multiplierOf b).toNat e)
    (divides : 2 ^ t ∣ (multiplierOf b).toNat) : 2 ^ t ∣ (scaleOf b).toNat := by
  have bounded := up.bounded
  obtain ⟨scale, -, -, upper⟩ := divisor.scale
  have word : t ≤ 64 := by
    have most := Nat.le_of_dvd divisor.some_multiplier divides
    exact Nat.le_of_lt ((Nat.pow_lt_pow_iff_right (by decide : 1 < 2)).mp
      (Nat.lt_of_le_of_lt most (multiplierOf b).toNat_lt))
  have excess := up.le_excess (Nat.pow_dvd_pow 2 word) divides
  have below : 2 ^ t < 2 ^ (ilog2 b + 1) := by
    rw [Nat.pow_succ]
    omega
  rw [scale]
  exact Nat.pow_dvd_pow 2 (Nat.le_of_lt_succ ((Nat.pow_lt_pow_iff_right (by decide)).mp below))

theorem Divisor.biased_exact {e : Nat} (n : UInt64)
    (up : RoundedUp (2 ^ 64) (scaleOf b).toNat b.toNat (multiplierOf b).toNat e)
    (test : testResult (multiplierOf b) (testDividend b) (scaleOf b) ≠
      testDividend b / b.toUInt64) :
    ExactPlan n.toNat b.toNat (biasedPlan n b) := by
  obtain ⟨-, -, some_scale⟩ := divisor.scale_lt
  have size := b.toNat_lt
  have large : 0 < (2 ^ 64 - 1) / b.toNat := Nat.div_pos (by omega) divisor.pos
  have below : (2 ^ 64 - 1) / b.toNat * b.toNat ≤ 2 ^ 64 - 1 := Nat.div_mul_le_self _ _
  have excess := up.lt_of_test (Nat.mul_pos some_scale (Nat.two_pow_pos 64))
    (pred_mul_mod large divisor.pos) (by omega) (mt divisor.test_iff.mpr test)
  obtain ⟨f, down⟩ := divisor.roundedDown n up excess
  refine ⟨fun zero => Nat.ne_of_gt some_scale (UInt32.toNat_inj.mpr zero), ?_⟩
  rw [toNat_archXprod64, Nat.div_div_eq_div_mul, Nat.mul_comm (2 ^ 64)]
  exact down.div_eq divisor.pos n.toNat_lt

theorem Divisor.reduced_exact {e : Nat} (n : UInt64)
    (up : RoundedUp (2 ^ 64) (scaleOf b).toNat b.toNat (multiplierOf b).toNat e)
    (test : testResult (multiplierOf b) (testDividend b) (scaleOf b) =
      testDividend b / b.toUInt64) :
    ExactPlan n.toNat b.toNat (reducedPlan n (multiplierOf b) (scaleOf b)) := by
  obtain ⟨lower, upper, some_scale⟩ := divisor.scale_lt
  have size := b.toNat_lt
  have scaled : 0 < (scaleOf b).toNat * 2 ^ 64 := Nat.mul_pos some_scale (Nat.two_pow_pos 64)
  have quotient := up.div_eq scaled upper (not_dvd_two_pow divisor.no_two_pow 64) (by omega)
    (divisor.test_iff.mp test) n.toNat_lt
  obtain ⟨s, t, below, divides, dividend, bias, multiplier, scale⟩ :=
    reducedPlan_eq n (p := scaleOf b) divisor.some_multiplier
  have dividesScale := divisor.dvd_scale up divides
  have less : 2 ^ s ∣ 2 ^ t := Nat.pow_dvd_pow 2 below
  refine ⟨fun zero => ?_, ?_⟩
  · have whole := congrArg UInt32.toNat zero
    rw [scale, UInt32.toNat_zero] at whole
    exact Nat.ne_of_gt (Nat.div_pos (Nat.le_of_dvd some_scale (less.trans dividesScale))
      (Nat.two_pow_pos s)) whole
  · rw [toNat_archXprod64, bias, if_neg Bool.false_ne_true, Nat.zero_add, dividend, multiplier,
      scale, div_reduced _ (less.trans divides) (less.trans dividesScale), quotient]

theorem Divisor.plan_exact (n : UInt64) : ExactPlan n.toNat b.toNat (planOf n b) := by
  obtain ⟨e, up⟩ := divisor.roundedUp
  rw [planOf]
  split
  · next whole => exact divisor.special_exact n whole
  · split
    · next test => exact divisor.biased_exact n up test
    · next test => exact divisor.reduced_exact n up (Classical.not_not.mp test)

theorem Divisor.noZero (n : UInt64) : NoZero n b := by
  obtain ⟨t, -, bit, rest, some_rest⟩ := divisor.toNat_rest_lowestBit
  obtain ⟨s, -, -, multiplierBit⟩ := toNat_and_neg divisor.some_multiplier
  refine ⟨divisor.nonzero, fun zero => ?_, fun zero => ?_, fun zero => ?_, fun zero => ?_,
    (divisor.plan_exact n).scale⟩
  · rw [zero] at bit
    exact Nat.ne_of_lt (Nat.two_pow_pos t) bit
  · rw [zero] at rest
    exact Nat.ne_of_lt some_rest rest
  · exact Nat.ne_of_gt divisor.scale_lt.2.2 (UInt32.toNat_inj.mpr zero)
  · rw [zero] at multiplierBit
    exact Nat.ne_of_lt (Nat.two_pow_pos s) multiplierBit

end Divisor

/-! ## `do_div` -/

variable {base : UInt32}

theorem toNat_div64Const32 (divisor : Divisor base) (n : UInt64) :
    (div64Const32 n base).toNat = n.toNat / base.toNat := by
  rw [div64Const32, UInt64.toNat_div, UInt32.toNat_toUInt64]
  exact (divisor.plan_exact n).quotient

/-- The remainder computed with 32-bit numbers -/
theorem toNat_sub_mul {n q : UInt64} (quotient : q.toNat = n.toNat / base.toNat)
    (some_base : 0 < base.toNat) :
    (n.toUInt32 - q.toUInt32 * base).toNat = n.toNat % base.toNat := by
  have split := Nat.div_add_mod n.toNat base.toNat
  have below := Nat.mod_lt n.toNat some_base
  have size := base.toNat_lt
  have product : (q.toUInt32 * base).toNat = base.toNat * (n.toNat / base.toNat) % 2 ^ 32 := by
    rw [UInt32.toNat_mul, UInt64.toNat_toUInt32, quotient, Nat.mod_mul_mod, Nat.mul_comm]
  rw [UInt32.toNat_sub, product, UInt64.toNat_toUInt32]
  omega

/-- The path of a power of two -/
theorem doDiv_two_pow (n : UInt64) {k : Nat} (power : base.toNat = 2 ^ k) :
    (n >>> UInt64.ofNat (ilog2 base)).toNat = n.toNat / base.toNat ∧
      (n &&& (base - 1).toUInt64).toUInt32.toNat = n.toNat % base.toNat := by
  have bits : k < 32 := by
    refine (Nat.pow_lt_pow_iff_right (by decide : 1 < 2)).mp ?_
    rw [← power]
    exact base.toNat_lt
  have log : ilog2 base = k := by rw [ilog2, power, Nat.log2_two_pow]
  constructor
  · rw [log, UInt64.toNat_shiftRight, UInt64.toNat_ofNat_of_lt' (Nat.lt_trans bits (by decide)),
      Nat.mod_eq_of_lt (Nat.lt_trans bits (by decide)), Nat.shiftRight_eq_div_pow, power]
  · have one : (1 : UInt32) ≤ base := by
      rw [UInt32.le_iff_toNat_le, power]
      exact Nat.two_pow_pos k
    have mask : (base - 1).toUInt64.toNat = 2 ^ k - 1 := by
      rw [UInt32.toNat_toUInt64, UInt32.toNat_sub_of_le _ _ one, power, UInt32.toNat_one]
    have small : n.toNat % 2 ^ k < 2 ^ 32 :=
      Nat.lt_trans (Nat.mod_lt _ (Nat.two_pow_pos k)) (Nat.pow_lt_pow_right (by decide) bits)
    rw [UInt64.toNat_toUInt32, UInt64.toNat_and, mask, Nat.and_two_pow_sub_one_eq_mod, power,
      Nat.mod_eq_of_lt small]

/-- `do_div` with a constant base that is not zero -/
theorem toNat_doDiv_constant (div64_32 : UInt64 → UInt32 → UInt64 × UInt32) (n : UInt64)
    (nonzero : base ≠ 0) : (doDiv true div64_32 n base).1.toNat = n.toNat / base.toNat ∧
      (doDiv true div64_32 n base).2.toNat = n.toNat % base.toNat := by
  have some_base : 0 < base.toNat :=
    Nat.pos_of_ne_zero fun zero => nonzero (UInt32.toNat_inj.mp zero)
  rw [doDiv, Bool.true_and, Bool.true_and]
  by_cases power : isPowerOf2 base = true
  · obtain ⟨k, eq⟩ := (isPowerOf2_iff base).mp power
    rw [if_pos power]
    exact doDiv_two_pow n eq
  · have quotient := toNat_div64Const32 ⟨nonzero, Bool.eq_false_iff.mpr power⟩ n
    rw [if_neg power, if_pos (decide_eq_true nonzero)]
    exact ⟨quotient, toNat_sub_mul quotient some_base⟩

/-- What `do_div` is to do with a constant base -/
structure ExactDivision (n : UInt64) (base : UInt32) : Prop where
  quotient : ∀ div64_32, (doDiv true div64_32 n base).1.toNat = n.toNat / base.toNat
  remainder : ∀ div64_32, (doDiv true div64_32 n base).2.toNat = n.toNat % base.toNat
  reciprocal : isPowerOf2 base = false → ExactPlan n.toNat base.toNat (planOf n base)
  noZero : isPowerOf2 base = false → NoZero n base

/-- The multiplier, scale and bias that are chosen at compile time give the exact quotient. -/
theorem doDiv_constant_exact (n : UInt64) (nonzero : base ≠ 0) : ExactDivision n base := by
  refine ⟨fun other => (toNat_doDiv_constant other n nonzero).1,
    fun other => (toNat_doDiv_constant other n nonzero).2, fun noPower => ?_, fun noPower => ?_⟩
  · exact Divisor.plan_exact ⟨nonzero, noPower⟩ n
  · exact Divisor.noZero ⟨nonzero, noPower⟩ n

/-- `do_div(n, 1000000)`, for the greatest `n` -/
theorem doDiv_constant_exact_million : ExactDivision 0xffffffffffffffff 1000000 :=
  doDiv_constant_exact _ (by decide)

end RiscvLinux.Arith
