import Mathlib.Data.BitVec

/-!
# Setting and clearing bits under a mask

`setBits` and `clearBits` are what a control register does with a mask of bits.
What either does to the bits under another mask is said by the rules here, so that a
proof about one flag of a status word never looks at single bits.
-/

namespace RiscvLinux.Lib

variable {w : Nat}

/-- The word with the bits of the mask set. -/
def setBits (s m : BitVec w) : BitVec w := s ||| m

/-- The word with the bits of the mask cleared. -/
def clearBits (s m : BitVec w) : BitVec w := s &&& ~~~m

/-- Bits that the mask does not touch stay under `setBits`. -/
theorem setBits_and_of_disjoint {s m k : BitVec w} (disjoint : m &&& k = 0) :
    setBits s m &&& k = s &&& k := by
  refine BitVec.eq_of_getLsbD_eq fun i _ => ?_
  have here := congrArg (BitVec.getLsbD · i) disjoint
  simp only [BitVec.getLsbD_and, BitVec.ofNat_eq_ofNat, BitVec.getLsbD_zero] at here
  simp only [setBits, BitVec.getLsbD_and, BitVec.getLsbD_or]
  cases hk : k.getLsbD i
  · simp
  · simp_all

/-- Bits that the mask does not touch stay under `clearBits`. -/
theorem clearBits_and_of_disjoint {s m k : BitVec w} (disjoint : m &&& k = 0) :
    clearBits s m &&& k = s &&& k := by
  refine BitVec.eq_of_getLsbD_eq fun i inside => ?_
  have here := congrArg (BitVec.getLsbD · i) disjoint
  simp only [BitVec.getLsbD_and, BitVec.ofNat_eq_ofNat, BitVec.getLsbD_zero] at here
  simp only [clearBits, BitVec.getLsbD_and, BitVec.getLsbD_not, inside, decide_true, Bool.true_and]
  cases hk : k.getLsbD i
  · simp
  · simp_all

/-- Bits that the mask covers are set afterwards. -/
theorem setBits_and_of_covered {s m k : BitVec w} (covered : m &&& k = k) :
    setBits s m &&& k = k := by
  refine BitVec.eq_of_getLsbD_eq fun i _ => ?_
  have here := congrArg (BitVec.getLsbD · i) covered
  simp only [BitVec.getLsbD_and] at here
  simp only [setBits, BitVec.getLsbD_and, BitVec.getLsbD_or]
  cases hk : k.getLsbD i
  · simp
  · simp_all

/-- Bits that the mask covers are clear afterwards. -/
theorem clearBits_and_of_covered {s m k : BitVec w} (covered : m &&& k = k) :
    clearBits s m &&& k = 0 := by
  refine BitVec.eq_of_getLsbD_eq fun i inside => ?_
  have here := congrArg (BitVec.getLsbD · i) covered
  simp only [BitVec.getLsbD_and] at here
  simp only [clearBits, BitVec.getLsbD_and, BitVec.getLsbD_not, inside, decide_true,
    Bool.true_and, BitVec.ofNat_eq_ofNat, BitVec.getLsbD_zero]
  cases hk : k.getLsbD i
  · simp
  · simp_all

/-- Setting nothing changes nothing. -/
@[simp] theorem setBits_zero (s : BitVec w) : setBits s 0 = s := by
  simp [setBits]

/-- Clearing bits that are not set changes nothing. -/
theorem clearBits_eq_self {s m : BitVec w} (disjoint : s &&& m = 0) : clearBits s m = s := by
  refine BitVec.eq_of_getLsbD_eq fun i inside => ?_
  have here := congrArg (BitVec.getLsbD · i) disjoint
  simp only [BitVec.getLsbD_and, BitVec.ofNat_eq_ofNat, BitVec.getLsbD_zero] at here
  simp only [clearBits, BitVec.getLsbD_and, BitVec.getLsbD_not, inside, decide_true, Bool.true_and]
  cases hs : s.getLsbD i
  · simp
  · simp_all

/-- Two words have a bit of the mask together when one of them has. -/
theorem or_and_bne_zero (a b m : BitVec w) :
    ((a ||| b) &&& m != 0) = (a &&& m != 0 || b &&& m != 0) := by
  rw [Bool.eq_iff_iff, Bool.or_eq_true, bne_iff_ne, bne_iff_ne, bne_iff_ne,
    BitVec.and_or_distrib_right, ← not_and_or]
  exact not_congr BitVec.or_eq_zero_iff

/-- A single bit under its mask -/
theorem and_twoPow_bne_zero (v : BitVec w) {i : Nat} (inside : i < w) :
    (v &&& BitVec.twoPow w i != 0) = v.getLsbD i := by
  rw [BitVec.ofNat_eq_ofNat, BitVec.and_twoPow]
  cases v.getLsbD i with
  | false => exact bne_self_eq_false _
  | true =>
    refine bne_iff_ne.mpr fun zero => ?_
    have value := congrArg BitVec.toNat zero
    rw [if_pos rfl, BitVec.toNat_twoPow_of_lt inside] at value
    exact absurd value (Nat.two_pow_pos i).ne'

/-- Below the shift, bits can be set without a trace. -/
theorem setBits_ushiftRight_of_low {s m : BitVec w} {n : Nat} (low : m >>> n = 0) :
    setBits s m >>> n = s >>> n := by
  rw [setBits, BitVec.ushiftRight_or_distrib, low]
  exact BitVec.or_zero

/-- Below the shift, bits can be cleared without a trace. -/
theorem clearBits_ushiftRight_of_low {s m : BitVec w} {n : Nat} (low : m >>> n = 0) :
    clearBits s m >>> n = s >>> n := by
  refine BitVec.eq_of_getLsbD_eq fun i inside => ?_
  have here := congrArg (BitVec.getLsbD · i) low
  simp only [BitVec.getLsbD_ushiftRight, BitVec.ofNat_eq_ofNat, BitVec.getLsbD_zero] at here
  rw [BitVec.getLsbD_ushiftRight, BitVec.getLsbD_ushiftRight, clearBits, BitVec.getLsbD_and,
    BitVec.getLsbD_not, here, Bool.not_false, Bool.and_true]
  rcases Nat.lt_or_ge (n + i) w with within | beyond
  · rw [decide_eq_true within, Bool.and_true]
  · rw [BitVec.getLsbD_of_ge s _ beyond, Bool.false_and]

/-! ## Fields -/

/-- What lies under the low bits is the remainder. -/
theorem toNat_and_low {k : Nat} (inside : k ≤ w) (v : BitVec w) :
    (v &&& BitVec.ofNat w (2 ^ k - 1)).toNat = v.toNat % 2 ^ k := by
  have fits : 2 ^ k - 1 < 2 ^ w :=
    Nat.lt_of_lt_of_le (Nat.sub_lt (Nat.two_pow_pos k) Nat.one_pos)
      (Nat.pow_le_pow_right Nat.two_pos inside)
  rw [BitVec.toNat_and, BitVec.toNat_ofNat, Nat.mod_eq_of_lt fits, Nat.and_two_pow_sub_one_eq_mod]

/-- Without the low bits a word is rounded down. -/
theorem toNat_and_not_low {k : Nat} (inside : k ≤ w) (v : BitVec w) :
    (v &&& ~~~BitVec.ofNat w (2 ^ k - 1)).toNat = v.toNat - v.toNat % 2 ^ k := by
  have low := toNat_and_low inside v
  generalize BitVec.ofNat w (2 ^ k - 1) = m at low ⊢
  have apart : (v &&& ~~~m) &&& (v &&& m) = 0#w := by
    refine BitVec.eq_of_getLsbD_eq fun i small => ?_
    simp only [BitVec.getLsbD_and, BitVec.getLsbD_not, small, decide_true, Bool.true_and,
      BitVec.getLsbD_zero]
    cases m.getLsbD i <;> simp
  have split : (v &&& ~~~m) + (v &&& m) = v := by
    rw [BitVec.add_eq_or_of_and_eq_zero _ _ apart, ← BitVec.and_or_distrib_left, BitVec.not_or_self,
      BitVec.and_allOnes]
  have below : v &&& m ≤ v := by
    rw [BitVec.le_def, low]
    exact Nat.mod_le ..
  rw [← low, ← BitVec.toNat_sub_of_le below]
  congr 1
  exact BitVec.eq_sub_iff_add_eq.mpr split

/-- The word rounded up to a multiple of `2 ^ k` -/
def alignUp (k : Nat) (v : BitVec w) : BitVec w :=
  (v + BitVec.ofNat w (2 ^ k - 1)) &&& ~~~BitVec.ofNat w (2 ^ k - 1)

theorem toNat_alignUp {k : Nat} (inside : k ≤ w) {v : BitVec w}
    (fits : v.toNat + (2 ^ k - 1) < 2 ^ w) :
    (alignUp k v).toNat = v.toNat + (2 ^ k - 1) - (v.toNat + (2 ^ k - 1)) % 2 ^ k := by
  rw [alignUp, toNat_and_not_low inside, BitVec.toNat_add, BitVec.toNat_ofNat,
    Nat.mod_eq_of_lt (a := 2 ^ k - 1) (by omega), Nat.mod_eq_of_lt fits]

/-- Past the last multiple it wraps to zero. -/
theorem alignUp_of_wraps {k : Nat} (inside : k ≤ w) {v : BitVec w}
    (wraps : 2 ^ w ≤ v.toNat + (2 ^ k - 1)) : alignUp k v = 0 := by
  have bound := v.isLt
  have block : 2 ^ k ≤ 2 ^ w := Nat.pow_le_pow_right Nat.two_pos inside
  have some_bytes := Nat.two_pow_pos k
  have sum : (v + BitVec.ofNat w (2 ^ k - 1)).toNat = v.toNat + (2 ^ k - 1) - 2 ^ w := by
    rw [BitVec.toNat_add, BitVec.toNat_ofNat, Nat.mod_eq_of_lt (a := 2 ^ k - 1) (by omega),
      Nat.mod_eq_sub_mod wraps, Nat.mod_eq_of_lt (by omega)]
  refine BitVec.eq_of_toNat_eq ?_
  rw [alignUp, toNat_and_not_low inside, sum, Nat.mod_eq_of_lt (by omega), Nat.sub_self]
  exact BitVec.toNat_zero.symm

/-- Where a range ends at the end of all words, its end is zero. -/
theorem add_eq_zero_of_wraps {a n : BitVec w} (wraps : a.toNat + n.toNat = 2 ^ w) : a + n = 0 := by
  refine BitVec.eq_of_toNat_eq ?_
  rw [BitVec.toNat_add, wraps, Nat.mod_self]
  exact BitVec.toNat_zero.symm

/-- What is shifted up leaves the bits below alone. -/
theorem shiftLeft_and_of_low {v k : BitVec w} {n : Nat} (low : k >>> n = 0) :
    v <<< n &&& k = 0 := by
  refine BitVec.eq_of_getLsbD_eq fun i _ => ?_
  rw [BitVec.getLsbD_and, BitVec.getLsbD_shiftLeft, BitVec.ofNat_eq_ofNat, BitVec.getLsbD_zero]
  rcases Nat.lt_or_ge i n with below | above
  · simp only [below, decide_true, Bool.not_true, Bool.and_false, Bool.false_and]
  · have bit := congrArg (BitVec.getLsbD · (i - n)) low
    rw [BitVec.getLsbD_ushiftRight, Nat.add_sub_cancel' above, BitVec.ofNat_eq_ofNat,
      BitVec.getLsbD_zero] at bit
    rw [bit, Bool.and_false]

/-- A number below `2 ^ n` has no bit from `n` on. -/
theorem getLsbD_of_lt {v : BitVec w} {n i : Nat} (small : v.toNat < 2 ^ n) (above : n ≤ i) :
    v.getLsbD i = false :=
  Nat.testBit_lt_two_pow (Nat.lt_of_lt_of_le small (Nat.pow_le_pow_right Nat.two_pos above))

/-! ## Signs -/

/-- What is extended and cut down is extended less far. -/
theorem setWidth_signExtend {n k : Nat} (narrow : k ≤ n) (v : BitVec w) :
    (v.signExtend n).setWidth k = v.signExtend k := by
  refine BitVec.eq_of_getLsbD_eq fun i inside => ?_
  rw [BitVec.getLsbD_setWidth, BitVec.getLsbD_signExtend, BitVec.getLsbD_signExtend]
  simp only [inside, Nat.lt_of_lt_of_le inside narrow, decide_true, Bool.true_and]

/-- The sign makes no difference exactly when it is clear or has no room. -/
theorem signExtend_eq_setWidth_iff {n : Nat} (v : BitVec w) :
    v.signExtend n = v.setWidth n ↔ n ≤ w ∨ v.msb = false := by
  constructor
  · intro same
    refine or_iff_not_imp_left.mpr fun wide => ?_
    have bit := congrArg (BitVec.getLsbD · w) same
    rw [BitVec.getLsbD_signExtend, BitVec.getLsbD_setWidth, if_neg (Nat.lt_irrefl w),
      BitVec.getLsbD_of_ge v w (Nat.le_refl w), Bool.and_false] at bit
    simpa only [Nat.not_le.mp wide, decide_true, Bool.true_and] using bit
  · intro either
    rcases either with narrow | positive
    · exact BitVec.signExtend_eq_setWidth_of_le v narrow
    · exact BitVec.signExtend_eq_setWidth_of_msb_false positive

end RiscvLinux.Lib
