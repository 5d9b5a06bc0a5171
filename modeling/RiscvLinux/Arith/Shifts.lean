import Mathlib.Data.BitVec

/-!
# Shifts of 64 bits by halves

`__ashldi3`, `__lshrdi3` and `__ashrdi3` of `arch/riscv/lib`, which a kernel of 32 bits has for the
shifts of a `long long`. They put the result together from its halves, and what one half gives to
the other is shifted the other way.
-/

namespace RiscvLinux.Arith.Shifts

/-! ## The code -/

/-- `DWstruct`, in the order of a little-endian machine -/
structure DWstruct where
  low : BitVec 32
  high : BitVec 32

/-- `DWunion`, from `ll` to `s` -/
def DWstruct.ofLl (u : BitVec 64) : DWstruct := ⟨u.extractLsb' 0 32, u.extractLsb' 32 32⟩

/-- `DWunion`, from `s` to `ll` -/
def DWstruct.ll (w : DWstruct) : BitVec 64 := w.high ++ w.low

/-- `__ashldi3` -/
def ashldi3 (u : BitVec 64) (b : Int) : BitVec 64 :=
  if b = 0 then u
  else
    let uu := DWstruct.ofLl u
    let bm := 32 - b
    if bm ≤ 0 then DWstruct.ll ⟨0, uu.low <<< (-bm).toNat⟩
    else
      let carries := uu.low >>> bm.toNat
      DWstruct.ll ⟨uu.low <<< b.toNat, uu.high <<< b.toNat ||| carries⟩

/-- `__lshrdi3` -/
def lshrdi3 (u : BitVec 64) (b : Int) : BitVec 64 :=
  if b = 0 then u
  else
    let uu := DWstruct.ofLl u
    let bm := 32 - b
    if bm ≤ 0 then DWstruct.ll ⟨uu.high >>> (-bm).toNat, 0⟩
    else
      let carries := uu.high <<< bm.toNat
      DWstruct.ll ⟨uu.low >>> b.toNat ||| carries, uu.high >>> b.toNat⟩

/-- `__ashrdi3` -/
def ashrdi3 (u : BitVec 64) (b : Int) : BitVec 64 :=
  if b = 0 then u
  else
    let uu := DWstruct.ofLl u
    let bm := 32 - b
    if bm ≤ 0 then DWstruct.ll ⟨uu.high.sshiftRight (-bm).toNat, uu.high.sshiftRight 31⟩
    else
      let carries := uu.high <<< bm.toNat
      DWstruct.ll ⟨uu.low >>> b.toNat ||| carries, uu.high.sshiftRight b.toNat⟩

/-! ## Halves -/

/-- A number with these halves -/
theorem ll_eq {w : DWstruct} {v : BitVec 64}
    (low : ∀ i < 32, w.low.getLsbD i = v.getLsbD i)
    (high : ∀ i < 32, w.high.getLsbD i = v.getLsbD (32 + i)) : w.ll = v := by
  refine BitVec.eq_of_getLsbD_eq fun i inside => ?_
  rw [DWstruct.ll, BitVec.getLsbD_append]
  split
  · next first => exact low i first
  · next second =>
    have back : 32 + (i - 32) = i := by omega
    rw [high (i - 32) (by omega), back]

theorem getLsbD_low (u : BitVec 64) (i : Nat) :
    (DWstruct.ofLl u).low.getLsbD i = (decide (i < 32) && u.getLsbD i) := by
  rw [DWstruct.ofLl, BitVec.getLsbD_extractLsb', Nat.zero_add]

theorem getLsbD_high (u : BitVec 64) (i : Nat) :
    (DWstruct.ofLl u).high.getLsbD i = (decide (i < 32) && u.getLsbD (32 + i)) := by
  rw [DWstruct.ofLl, BitVec.getLsbD_extractLsb']

theorem msb_high (u : BitVec 64) : (DWstruct.ofLl u).high.msb = u.msb := by
  rw [BitVec.msb_eq_getLsbD_last, BitVec.msb_eq_getLsbD_last, getLsbD_high]
  rfl

variable (u : BitVec 64) {b : Nat}

/-- What a shift to the right makes of the lower half, when some of it stays -/
theorem getLsbD_right (short : b < 32) {i : Nat} (inside : i < 32) :
    ((DWstruct.ofLl u).low >>> b ||| (DWstruct.ofLl u).high <<< (32 - b)).getLsbD i
      = u.getLsbD (b + i) := by
  rw [BitVec.getLsbD_or, BitVec.getLsbD_ushiftRight, BitVec.getLsbD_shiftLeft, getLsbD_low,
    getLsbD_high]
  rcases Nat.lt_or_ge (b + i) 32 with own | carried
  · have before : i < 32 - b := by omega
    simp [own, before]
  · have back : 32 + (i - (32 - b)) = b + i := by omega
    have after : ¬ i < 32 - b := by omega
    have within : i - (32 - b) < 32 := by omega
    simp [Nat.not_lt.mpr carried, inside, after, within, back]

/-- The halves of a shift to the left -/
theorem ashldi3_eq (count : b < 64) : ashldi3 u b = u <<< b := by
  simp only [ashldi3]
  split
  · next zero =>
    obtain rfl : b = 0 := by omega
    rw [BitVec.shiftLeft_zero]
  · split
    · have far : (-(32 - (b : Int))).toNat = b - 32 := by omega
      rw [far]
      refine ll_eq (fun i inside => ?_) fun i inside => ?_
      · have before : i < b := by omega
        simp [before]
      · rw [BitVec.getLsbD_shiftLeft, BitVec.getLsbD_shiftLeft, getLsbD_low]
        rcases Nat.lt_or_ge i (b - 32) with empty | moved
        · have before : 32 + i < b := by omega
          simp [empty, before]
        · have same : i - (b - 32) = 32 + i - b := by omega
          have within : 32 + i - b < 32 := by omega
          have bound : 32 + i < 64 := by omega
          have after : ¬ 32 + i < b := by omega
          simp [same, within, inside, bound, after, Nat.not_lt.mpr moved]
    · have near : (32 - (b : Int)).toNat = 32 - b := by omega
      rw [near, Int.toNat_natCast]
      refine ll_eq (fun i inside => ?_) fun i inside => ?_
      · rw [BitVec.getLsbD_shiftLeft, BitVec.getLsbD_shiftLeft, getLsbD_low]
        have within : i - b < 32 := by omega
        have bound : i < 64 := by omega
        simp [inside, within, bound]
      · rw [BitVec.getLsbD_or, BitVec.getLsbD_shiftLeft, BitVec.getLsbD_ushiftRight,
          BitVec.getLsbD_shiftLeft, getLsbD_low, getLsbD_high]
        have bound : 32 + i < 64 := by omega
        have after : ¬ 32 + i < b := by omega
        rcases Nat.lt_or_ge i b with carried | own
        · have same : 32 - b + i = 32 + i - b := by omega
          have within : 32 + i - b < 32 := by omega
          simp [carried, same, within, bound, after]
        · have same : 32 + (i - b) = 32 + i - b := by omega
          have within : i - b < 32 := by omega
          have beyond : ¬ 32 - b + i < 32 := by omega
          simp [Nat.not_lt.mpr own, same, within, beyond, inside, bound, after]

/-- The halves of a shift of an unsigned number to the right -/
theorem lshrdi3_eq (count : b < 64) : lshrdi3 u b = u >>> b := by
  simp only [lshrdi3]
  split
  · next zero =>
    obtain rfl : b = 0 := by omega
    rw [BitVec.ushiftRight_zero]
  · split
    · have far : (-(32 - (b : Int))).toNat = b - 32 := by omega
      rw [far]
      refine ll_eq (fun i inside => ?_) fun i inside => ?_
      · rw [BitVec.getLsbD_ushiftRight, BitVec.getLsbD_ushiftRight, getLsbD_high]
        have same : 32 + (b - 32 + i) = b + i := by omega
        rw [same]
        rcases Nat.lt_or_ge (b + i) 64 with within | beyond
        · have short : b - 32 + i < 32 := by omega
          simp [short]
        · rw [BitVec.getLsbD_of_ge u _ beyond, Bool.and_false]
      · rw [BitVec.getLsbD_ushiftRight, BitVec.getLsbD_of_ge u _ (by omega)]
        simp
    · have near : (32 - (b : Int)).toNat = 32 - b := by omega
      rw [near, Int.toNat_natCast]
      refine ll_eq (fun i inside => ?_) fun i inside => ?_
      · rw [getLsbD_right u (by omega) inside, BitVec.getLsbD_ushiftRight]
      · rw [BitVec.getLsbD_ushiftRight, BitVec.getLsbD_ushiftRight, getLsbD_high]
        have same : 32 + (b + i) = b + (32 + i) := by omega
        rw [same]
        rcases Nat.lt_or_ge (b + i) 32 with within | beyond
        · simp [within]
        · rw [BitVec.getLsbD_of_ge u _ (by omega), Bool.and_false]

/-- The halves of a shift of a signed number to the right -/
theorem ashrdi3_eq (count : b < 64) : ashrdi3 u b = u.sshiftRight b := by
  simp only [ashrdi3]
  split
  · next zero =>
    obtain rfl : b = 0 := by omega
    rw [BitVec.sshiftRight_zero]
  · split
    · have far : (-(32 - (b : Int))).toNat = b - 32 := by omega
      rw [far]
      refine ll_eq (fun i inside => ?_) fun i inside => ?_
      · rw [BitVec.getLsbD_sshiftRight, BitVec.getLsbD_sshiftRight, getLsbD_high, msb_high]
        have same : 32 + (b - 32 + i) = b + i := by omega
        have bound : i < 64 := by omega
        rw [same]
        rcases Nat.lt_or_ge (b + i) 64 with within | beyond
        · have short : b - 32 + i < 32 := by omega
          simp [short, within, Nat.not_le.mpr inside, Nat.not_le.mpr bound]
        · have long : ¬ b - 32 + i < 32 := by omega
          simp [long, Nat.not_lt.mpr beyond, Nat.not_le.mpr inside, Nat.not_le.mpr bound]
      · rw [BitVec.getLsbD_sshiftRight, BitVec.getLsbD_sshiftRight, getLsbD_high, msb_high]
        have bound : 32 + i < 64 := by omega
        have beyond : ¬ b + (32 + i) < 64 := by omega
        rcases Nat.eq_zero_or_pos i with rfl | positive
        · have last : b + 32 ≥ 64 := by omega
          simp [Nat.not_lt.mpr last, BitVec.msb_eq_getLsbD_last]
        · have beyond' : ¬ 31 + i < 32 := by omega
          simp [beyond', Nat.not_le.mpr inside, Nat.not_le.mpr bound, beyond]
    · have near : (32 - (b : Int)).toNat = 32 - b := by omega
      rw [near, Int.toNat_natCast]
      refine ll_eq (fun i inside => ?_) fun i inside => ?_
      · rw [getLsbD_right u (by omega) inside, BitVec.getLsbD_sshiftRight]
        have within : b + i < 64 := by omega
        have bound : i < 64 := by omega
        simp [within, bound]
      · rw [BitVec.getLsbD_sshiftRight, BitVec.getLsbD_sshiftRight, getLsbD_high, msb_high]
        have same : 32 + (b + i) = b + (32 + i) := by omega
        have bound : 32 + i < 64 := by omega
        rw [same]
        rcases Nat.lt_or_ge (b + i) 32 with within | beyond
        · have short : b + (32 + i) < 64 := by omega
          simp [within, short, Nat.not_le.mpr inside, Nat.not_le.mpr bound]
        · have long : ¬ b + (32 + i) < 64 := by omega
          simp [Nat.not_lt.mpr beyond, long, Nat.not_le.mpr inside, Nat.not_le.mpr bound]

/-- The three functions shift as one instruction of a machine of 64 bits does, by every count. -/
theorem shifts_whole (count : b < 64) :
    ashldi3 u b = u <<< b ∧ lshrdi3 u b = u >>> b ∧ ashrdi3 u b = u.sshiftRight b :=
  ⟨ashldi3_eq u count, lshrdi3_eq u count, ashrdi3_eq u count⟩

theorem shifts_whole_forty : ashldi3 0x1234 40 = 0x1234 <<< 40 ∧
    lshrdi3 0x1234 40 = 0x1234 >>> 40 ∧ ashrdi3 0x1234 40 = BitVec.sshiftRight 0x1234 40 :=
  shifts_whole 0x1234 (by decide)

end RiscvLinux.Arith.Shifts
