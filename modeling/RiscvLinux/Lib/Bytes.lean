import Mathlib.Data.BitVec
import RiscvLinux.Lib.Bits

/-!
# Arithmetic on all bytes of a word

The bytes of a word, the lowest first. Where no byte has to borrow, a difference of words is that of
their bytes (`byteAt_sub`); and the bits below the lowest one that is set are what subtracting one
turns over (`getLsbD_sub_one_and_not`).
-/

namespace RiscvLinux.Lib

variable {w : Nat} {v u : BitVec w} {i j s : Nat}

/-! ## Bytes -/

/-- The byte of a word with this index, the lowest first -/
def byteAt (v : BitVec w) (i : Nat) : BitVec 8 := v.extractLsb' (8 * i) 8

theorem getLsbD_byteAt (v : BitVec w) (i : Nat) (small : j < 8) :
    (byteAt v i).getLsbD j = v.getLsbD (8 * i + j) := by
  rw [byteAt, BitVec.getLsbD_extractLsb', decide_eq_true small, Bool.true_and]

/-- A bit is in a byte. -/
theorem getLsbD_eq_byteAt (v : BitVec w) (j : Nat) :
    v.getLsbD j = (byteAt v (j / 8)).getLsbD (j % 8) := by
  rw [getLsbD_byteAt v _ (Nat.mod_lt j (by decide)), Nat.div_add_mod]

theorem toNat_byteAt (v : BitVec w) (i : Nat) :
    (byteAt v i).toNat = v.toNat / 2 ^ (8 * i) % 2 ^ 8 := by
  rw [byteAt, BitVec.extractLsb'_toNat, Nat.shiftRight_eq_div_pow]

theorem byteAt_and (v u : BitVec w) (i : Nat) : byteAt (v &&& u) i = byteAt v i &&& byteAt u i :=
  BitVec.extractLsb'_and

theorem byteAt_not (inside : 8 * i + 8 ≤ w) (v : BitVec w) : byteAt (~~~v) i = ~~~byteAt v i := by
  refine BitVec.eq_of_getLsbD_eq fun j small => ?_
  rw [getLsbD_byteAt _ _ small, BitVec.getLsbD_not, BitVec.getLsbD_not, getLsbD_byteAt _ _ small,
    decide_eq_true small, decide_eq_true (show 8 * i + j < w by omega)]

/-- A word whose bytes are zero is zero. -/
theorem eq_zero_of_byteAt (zero : ∀ i, 8 * i < w → byteAt v i = 0) : v = 0 := by
  refine BitVec.eq_of_getLsbD_eq fun j inside => ?_
  rw [getLsbD_eq_byteAt, zero (j / 8) (by omega)]
  exact (BitVec.getLsbD_zero).trans (BitVec.getLsbD_zero).symm

/-! ## Differences -/

/-- The low bytes of a word, with one more -/
theorem mod_succ_byteAt (v : BitVec w) (i : Nat) :
    v.toNat % 2 ^ (8 * (i + 1)) = v.toNat % 2 ^ (8 * i) + 2 ^ (8 * i) * (byteAt v i).toNat := by
  rw [Nat.mul_succ, Nat.pow_add, Nat.mod_mul, toNat_byteAt]

/-- Where every byte below is at least the other, nothing is borrowed. -/
theorem mod_le_mod_of_byteAt (below : ∀ j < i, byteAt u j ≤ byteAt v j) :
    u.toNat % 2 ^ (8 * i) ≤ v.toNat % 2 ^ (8 * i) := by
  induction i with
  | zero => rw [Nat.mul_zero, Nat.pow_zero, Nat.mod_one, Nat.mod_one]
  | succ i ih =>
    rw [mod_succ_byteAt, mod_succ_byteAt]
    refine Nat.add_le_add (ih fun j low => below j (Nat.lt_succ_of_lt low)) ?_
    exact Nat.mul_le_mul_left _ (BitVec.le_def.mp (below i (Nat.lt_succ_self i)))

/-- A byte of a difference is the difference of the bytes, if nothing is borrowed below. -/
theorem byteAt_sub (inside : 8 * i + 8 ≤ w) (below : ∀ j < i, byteAt u j ≤ byteAt v j) :
    byteAt (v - u) i = byteAt v i - byteAt u i := by
  have low := mod_le_mod_of_byteAt below
  have room : 2 ^ w = 2 ^ (8 * i) * (2 ^ 8 * 2 ^ (w - 8 * i - 8)) := by
    rw [← Nat.pow_add, ← Nat.pow_add]
    congr 1
    omega
  have hv := Nat.div_add_mod v.toNat (2 ^ (8 * i))
  have hu := Nat.div_add_mod u.toNat (2 ^ (8 * i))
  have bound : u.toNat / 2 ^ (8 * i) ≤ 2 ^ 8 * 2 ^ (w - 8 * i - 8) :=
    Nat.div_le_of_le_mul (room ▸ Nat.le_of_lt u.isLt)
  refine BitVec.eq_of_toNat_eq ?_
  rw [toNat_byteAt, BitVec.toNat_sub, BitVec.toNat_sub, toNat_byteAt, toNat_byteAt, room,
    Nat.mod_mul_right_div_self, Nat.mod_mul_right_mod]
  generalize v.toNat / 2 ^ (8 * i) = a at *
  generalize u.toNat / 2 ^ (8 * i) = b at *
  generalize 2 ^ (w - 8 * i - 8) = c at *
  have some_bytes := Nat.two_pow_pos (8 * i)
  have less := Nat.mod_lt v.toNat some_bytes
  have whole := Nat.mul_le_mul_left (2 ^ (8 * i)) bound
  have high :
      (2 ^ (8 * i) * (2 ^ 8 * c) - u.toNat + v.toNat) / 2 ^ (8 * i) = 2 ^ 8 * c - b + a := by
    have fits : u.toNat < 2 ^ (8 * i) * (2 ^ 8 * c) := room ▸ u.isLt
    have split : 2 ^ (8 * i) * (2 ^ 8 * c) - u.toNat + v.toNat
        = v.toNat % 2 ^ (8 * i) - u.toNat % 2 ^ (8 * i) + 2 ^ (8 * i) * (2 ^ 8 * c - b + a) := by
      rw [Nat.mul_add, Nat.mul_sub]
      omega
    rw [split, Nat.add_mul_div_left _ _ some_bytes, Nat.div_eq_of_lt (by omega), Nat.zero_add]
  rw [high]
  omega

/-! ## The lowest bit -/

/-- A number whose lowest bit is known, in the bits above it -/
theorem toNat_of_lowest (bit : v.getLsbD s = true) (below : ∀ j < s, v.getLsbD j = false) :
    v.toNat = 2 ^ (s + 1) * (v.toNat / 2 ^ (s + 1)) + 2 ^ s := by
  have low : v.toNat % 2 ^ s = 0 := by
    refine Nat.eq_of_testBit_eq fun j => ?_
    rw [Nat.testBit_mod_two_pow, Nat.zero_testBit]
    by_cases small : j < s
    · rw [decide_eq_true small, Bool.true_and]
      exact below j small
    · rw [decide_eq_false small, Bool.false_and]
  have here : v.toNat % 2 ^ (s + 1) = 2 ^ s := by
    rw [Nat.mod_pow_succ, low, ← Nat.toNat_testBit, show v.toNat.testBit s = true from bit,
      Bool.toNat_true, Nat.mul_one, Nat.zero_add]
  exact here ▸ (Nat.div_add_mod v.toNat (2 ^ (s + 1))).symm

/-- Taking one away sets the bits below the lowest one and clears that, and nothing else changes. -/
theorem getLsbD_sub_one_and_not (bit : v.getLsbD s = true) (below : ∀ j < s, v.getLsbD j = false)
    (j : Nat) : ((v - 1) &&& ~~~v).getLsbD j = decide (j < s) := by
  have inside : s < w := BitVec.lt_of_getLsbD bit
  have value := toNat_of_lowest bit below
  generalize v.toNat / 2 ^ (s + 1) = q at value
  have positive := Nat.two_pow_pos s
  have power : 2 ^ s < 2 ^ (s + 1) := Nat.pow_lt_pow_right (by decide) (Nat.lt_succ_self s)
  have one : (1 : BitVec w).toNat = 1 := BitVec.toNat_one (by omega)
  have less : (v - 1).toNat = 2 ^ (s + 1) * q + (2 ^ s - 1) := by
    rw [BitVec.toNat_sub_of_le (by rw [BitVec.le_def, one]; omega), one, value]
    omega
  have first :
      (v - 1).getLsbD j = if j < s + 1 then decide (j < s) else q.testBit (j - (s + 1)) := by
    rw [BitVec.getLsbD, less, Nat.testBit_two_pow_mul_add _ (by omega), Nat.testBit_two_pow_sub_one]
  have second : v.getLsbD j = if j < s + 1 then decide (s = j) else q.testBit (j - (s + 1)) := by
    rw [BitVec.getLsbD, value, Nat.testBit_two_pow_mul_add _ power, Nat.testBit_two_pow]
  rw [BitVec.getLsbD_and, BitVec.getLsbD_not, first, second]
  by_cases low : j < s + 1
  · rw [if_pos low, if_pos low, decide_eq_true (show j < w by omega), Bool.true_and]
    rcases Nat.lt_or_eq_of_le (Nat.le_of_lt_succ low) with under | rfl
    · rw [decide_eq_true under, decide_eq_false (show ¬ s = j by omega)]
      rfl
    · rw [decide_eq_false (Nat.lt_irrefl j), Bool.false_and]
  · rw [if_neg low, if_neg low, decide_eq_false (show ¬ j < s by omega)]
    cases q.testBit (j - (s + 1)) <;> simp

end RiscvLinux.Lib
