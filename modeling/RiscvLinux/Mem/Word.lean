import RiscvLinux.Lib.Asm
import RiscvLinux.Uaccess.CopyUser

/-!
# Counts of words

What `memset.S` and `memcpy.S` share: multiples of `SZREG`, and counts of bytes under a mask.
-/

namespace RiscvLinux.Mem

open Lib Lib.Asm Trap Uaccess

variable {x : XLen}

/-- `n*SZREG` -/
def szreg (x : XLen) (n : Nat) : Word x := BitVec.ofNat _ (n * x.szreg)

theorem add_szreg_zero (a : Word x) : a + szreg x 0 = a := by
  rw [szreg, Nat.zero_mul]
  exact BitVec.add_zero a

theorem toNat_szreg {n : Nat} (small : n ≤ 32) : (szreg x n).toNat = n * x.szreg := by
  have most := Nat.mul_le_mul_right x.szreg small
  have fits : 32 * x.szreg < 2 ^ x.bits := by cases x <;> decide
  rw [szreg, BitVec.toNat_ofNat, Nat.mod_eq_of_lt (by omega)]

theorem word_one_ne_zero (x : XLen) : (1 : Word x) ≠ 0 := by
  cases x <;> decide

/-- A count is zero as a word only if it is zero. -/
theorem ofNat_eq_zero {n : Nat} (small : n < 2 ^ x.bits) (zero : BitVec.ofNat x.bits n = 0) :
    n = 0 := by
  have same := congrArg BitVec.toNat zero
  rw [BitVec.toNat_ofNat, Nat.mod_eq_of_lt small] at same
  exact same.trans BitVec.toNat_zero

/-- The whole units of a count -/
theorem count_and_not {n u : Nat} {mask : Word x} (small : n < 2 ^ x.bits)
    (rounds : ∀ v : Word x, (v &&& ~~~mask).toNat = v.toNat - v.toNat % u) :
    BitVec.ofNat x.bits n &&& ~~~mask = BitVec.ofNat _ (n / u * u) := by
  have split := Nat.div_add_mod' n u
  have fits : n / u * u < 2 ^ x.bits := by omega
  refine BitVec.eq_of_toNat_eq ?_
  rw [rounds, BitVec.toNat_ofNat, BitVec.toNat_ofNat, Nat.mod_eq_of_lt small,
    Nat.mod_eq_of_lt fits]
  omega

/-- What is left of a count -/
theorem count_and {n u : Nat} {mask : Word x} (small : n < 2 ^ x.bits)
    (remains : ∀ v : Word x, (v &&& mask).toNat = v.toNat % u) :
    BitVec.ofNat x.bits n &&& mask = BitVec.ofNat _ (n - n / u * u) := by
  have split := Nat.div_add_mod' n u
  have fits : n - n / u * u < 2 ^ x.bits := by omega
  refine BitVec.eq_of_toNat_eq ?_
  rw [remains, BitVec.toNat_ofNat, BitVec.toNat_ofNat, Nat.mod_eq_of_lt small,
    Nat.mod_eq_of_lt fits]
  omega

/-- A range that ends at the end of the address space has its last aligned address there. -/
theorem mod_of_wraps {a n h : Nat} (wraps : a + n = 2 ^ x.bits) (below : h < x.szreg)
    (inside : h ≤ n) (aligned : x.szreg ∣ a + h) : n % x.szreg = h := by
  have whole : x.szreg ∣ 2 ^ x.bits := by cases x <;> decide
  obtain ⟨W, words⟩ : x.szreg ∣ n - h := by
    have left : n - h = 2 ^ x.bits - (a + h) := by omega
    rw [left]
    exact Nat.dvd_sub whole aligned
  have split : n = h + x.szreg * W := by omega
  rw [split, Nat.add_mul_mod_self_left, Nat.mod_eq_of_lt below]

end RiscvLinux.Mem
