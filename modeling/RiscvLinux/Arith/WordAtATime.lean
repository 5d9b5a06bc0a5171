import RiscvLinux.Lib.Bytes
import RiscvLinux.Trap.PtRegs

/-!
# Zero bytes, a word at a time

`arch/riscv/include/asm/word-at-a-time.h`: whether a word has a zero byte, and which is the first.
Above that byte a borrow can mark others that are not zero, but none below it; what is made of the
marks depends on the lowest one alone.
-/

namespace RiscvLinux.Arith.WordAtATime

open Lib Trap

variable {x : XLen}

/-! ## The code -/

/-- `REPEAT_BYTE` and `fls64`, which are not the header's own -/
structure Headers (x : XLen) where
  repeatByte : BitVec 8 → Word x
  fls64 : BitVec 64 → Int

/-- Every byte is the one that is to be repeated, and the last bit that is set is found: its index
and one more, or zero if there is none. -/
structure Headers.Documented (H : Headers x) : Prop where
  repeatByte : ∀ b, ∀ i < x.szreg, byteAt (H.repeatByte b) i = b
  fls64_zero : H.fls64 0 = 0
  fls64_last : ∀ (v : BitVec 64) (i : Nat), v.getLsbD i = true → (∀ j > i, v.getLsbD j = false) →
    H.fls64 v = i + 1

/-- `struct word_at_a_time` -/
structure Constants (x : XLen) where
  oneBits : Word x
  highBits : Word x

/-- `WORD_AT_A_TIME_CONSTANTS` -/
def Headers.constants (H : Headers x) : Constants x := ⟨H.repeatByte 0x01, H.repeatByte 0x80⟩

/-- `has_zero`: what it returns, and what it stores to `bits` -/
def hasZero (val : Word x) (c : Constants x) : Word x × Word x :=
  let mask := ((val - c.oneBits) &&& ~~~val) &&& c.highBits
  (mask, mask)

def prepZeroMask (_val bits : Word x) (_c : Constants x) : Word x := bits

def createZeroMask (bits : Word x) : Word x :=
  let bits := (bits - 1) &&& ~~~bits
  bits >>> 7

def findZero (H : Headers x) (mask : Word x) : Word x :=
  BitVec.ofInt _ (H.fls64 (mask.setWidth 64) >>> (3 : Nat))

def zeroBytemask (mask : Word x) : Word x := mask

/-! ## What is to be found -/

/-- The mask that is made of a word -/
def zeroMask (H : Headers x) (val : Word x) : Word x :=
  createZeroMask (prepZeroMask val (hasZero val H.constants).2 H.constants)

/-- The byte with this index is the first that is zero. -/
structure FirstZero (val : Word x) (i : Nat) : Prop where
  inside : i < x.szreg
  zero : byteAt val i = 0
  below : ∀ j < i, byteAt val j ≠ 0

/-- A zero byte is seen exactly when there is one, the mask has the bytes below the first, and its
index is found. -/
structure Exact (H : Headers x) (val : Word x) : Prop where
  seen : (hasZero val H.constants).1 ≠ 0 ↔ ∃ i < x.szreg, byteAt val i = 0
  mask : ∀ i, FirstZero val i → ∀ j < x.szreg,
    byteAt (zeroMask H val) j = if j < i then 0xff else 0
  found : ∀ i, FirstZero val i → (findZero H (zeroMask H val)).toNat = i

/-! ## Marks -/

/-- What `has_zero` makes of a byte when nothing is borrowed below it -/
theorem byte_marked (b : BitVec 8) :
    (b - 1) &&& ~~~b &&& 0x80 = if b = 0 then 0x80 else 0 := by
  revert b
  decide +kernel

variable {H : Headers x} {val : Word x} {i j : Nat}

/-- Up to the first zero byte the marks are right. -/
theorem byteAt_hasZero (documented : H.Documented) (inside : i < x.szreg)
    (below : ∀ j < i, byteAt val j ≠ 0) :
    byteAt (hasZero val H.constants).2 i = if byteAt val i = 0 then 0x80 else 0 := by
  have room : 8 * i + 8 ≤ x.bits := by
    rw [x.bits_eq]
    omega
  have ones : ∀ j < x.szreg, byteAt H.constants.oneBits j = 1 := documented.repeatByte 0x01
  have lent : ∀ j < i, byteAt H.constants.oneBits j ≤ byteAt val j := by
    intro j low
    rw [ones j (Nat.lt_trans low inside)]
    exact Nat.one_le_iff_ne_zero.mpr fun zero => below j low (BitVec.eq_of_toNat_eq zero)
  have high : byteAt H.constants.highBits i = 0x80 := documented.repeatByte 0x80 i inside
  rw [hasZero, byteAt_and, byteAt_and, byteAt_not room, byteAt_sub room lent, ones i inside, high]
  exact byte_marked _

/-- The lowest mark is that of the first zero byte. -/
theorem FirstZero.marked (documented : H.Documented) (first : FirstZero val i) :
    (hasZero val H.constants).2.getLsbD (8 * i + 7) = true := by
  rw [← getLsbD_byteAt _ i (by decide), byteAt_hasZero documented first.inside first.below,
    if_pos first.zero]
  decide

theorem FirstZero.unmarked (documented : H.Documented) (first : FirstZero val i)
    (low : j < 8 * i + 7) : (hasZero val H.constants).2.getLsbD j = false := by
  have inside : j / 8 < x.szreg := Nat.lt_of_le_of_lt (by omega) first.inside
  have below : ∀ k < j / 8, byteAt val k ≠ 0 := fun k small => first.below k (by omega)
  rw [getLsbD_eq_byteAt, byteAt_hasZero documented inside below]
  rcases Nat.lt_or_ge (j / 8) i with under | at_byte
  · rw [if_neg (first.below _ under)]
    exact BitVec.getLsbD_zero
  · have other_bit : j % 8 < 7 := by omega
    rw [show j / 8 = i by omega, if_pos first.zero]
    generalize j % 8 = k at other_bit
    revert k
    decide

/-- A zero byte is the first, or there is one below it. -/
theorem FirstZero.exists (inside : i < x.szreg) (zero : byteAt val i = 0) :
    ∃ i, FirstZero val i := by
  induction i using Nat.strongRecOn with
  | ind i ih =>
    by_cases below : ∃ j < i, byteAt val j = 0
    · rcases below with ⟨j, low, zero⟩
      exact ih j low (Nat.lt_trans low inside) zero
    · exact ⟨i, inside, zero, fun j low zero => below ⟨j, low, zero⟩⟩

/-- A word is marked exactly when it has a zero byte. -/
theorem hasZero_ne_zero_iff (documented : H.Documented) :
    (hasZero val H.constants).1 ≠ 0 ↔ ∃ i < x.szreg, byteAt val i = 0 := by
  constructor
  · intro marked
    by_contra none_zero
    have other : ∀ i < x.szreg, byteAt val i ≠ 0 :=
      fun i inside zero => none_zero ⟨i, inside, zero⟩
    refine marked (eq_zero_of_byteAt fun i inside => ?_)
    rw [x.bits_eq] at inside
    have here : i < x.szreg := by omega
    exact (byteAt_hasZero documented here fun j low => other j (Nat.lt_trans low here)).trans
      (if_neg (other i here))
  · intro some_zero unmarked
    rcases some_zero with ⟨i, inside, zero⟩
    obtain ⟨i, first⟩ := FirstZero.exists inside zero
    have marked := first.marked documented
    rw [show (hasZero val H.constants).2 = 0 from unmarked, BitVec.ofNat_eq_ofNat,
      BitVec.getLsbD_zero] at marked
    exact Bool.false_ne_true marked

/-! ## The mask -/

/-- The mask has the bits of the bytes below the first zero byte. -/
theorem FirstZero.getLsbD_zeroMask (documented : H.Documented) (first : FirstZero val i) (j : Nat) :
    (zeroMask H val).getLsbD j = decide (j < 8 * i) := by
  rw [zeroMask, prepZeroMask, createZeroMask, BitVec.getLsbD_ushiftRight,
    getLsbD_sub_one_and_not (first.marked documented) fun _ low => first.unmarked documented low]
  exact decide_eq_decide.mpr (by omega)

theorem FirstZero.byteAt_zeroMask (documented : H.Documented) (first : FirstZero val i) :
    byteAt (zeroMask H val) j = if j < i then 0xff else 0 := by
  refine BitVec.eq_of_getLsbD_eq fun k small => ?_
  rw [getLsbD_byteAt _ _ small, first.getLsbD_zeroMask documented]
  split
  · next low =>
    rw [decide_eq_true (by omega)]
    revert k
    decide
  · next high =>
    rw [decide_eq_false (by omega)]
    exact BitVec.getLsbD_zero.symm

/-- The last bit of the mask is just below the first zero byte. -/
theorem FirstZero.fls64_zeroMask (documented : H.Documented) (first : FirstZero val i) :
    H.fls64 ((zeroMask H val).setWidth 64) = 8 * i := by
  have bits : ∀ j, ((zeroMask H val).setWidth 64).getLsbD j = decide (j < 8 * i) := by
    intro j
    have room : 8 * i < 64 := by
      have inside := first.inside
      have most : x.szreg ≤ 8 := by cases x <;> decide
      omega
    rw [BitVec.getLsbD_setWidth, first.getLsbD_zeroMask documented, ← Bool.decide_and]
    exact decide_eq_decide.mpr (by omega)
  cases i with
  | zero =>
    have none_set : (zeroMask H val).setWidth 64 = 0 := by
      refine BitVec.eq_of_getLsbD_eq fun j _ => ?_
      rw [bits, decide_eq_false (Nat.not_lt_zero j)]
      exact BitVec.getLsbD_zero.symm
    rw [none_set, documented.fls64_zero]
    rfl
  | succ i =>
    have last := documented.fls64_last _ (8 * i + 7)
      ((bits _).trans (decide_eq_true (by omega)))
      fun j above => (bits j).trans (decide_eq_false (by omega))
    rw [last]
    omega

theorem FirstZero.findZero_zeroMask (documented : H.Documented) (first : FirstZero val i) :
    (findZero H (zeroMask H val)).toNat = i := by
  have fits : i < 2 ^ x.bits := by
    have inside := first.inside
    have most : x.szreg < 2 ^ x.bits := by cases x <;> decide
    omega
  have eighth : (8 * i : Int) >>> (3 : Nat) = i := by
    rw [Int.shiftRight_eq_div_pow]
    omega
  rw [findZero, first.fls64_zeroMask documented, eighth, BitVec.ofInt_natCast, BitVec.toNat_ofNat,
    Nat.mod_eq_of_lt fits]

/-- The search is exact for every word. -/
theorem wordAtATime_exact (H : Headers x) (documented : H.Documented) (val : Word x) :
    Exact H val :=
  ⟨hasZero_ne_zero_iff documented, fun _ first _ _ => first.byteAt_zeroMask documented,
    fun _ first => first.findZero_zeroMask documented⟩

/-- The definitions of the kernel's own headers -/
def kernelHeaders (x : XLen) : Headers x where
  repeatByte b := BitVec.allOnes _ / 0xff * b.setWidth _
  fls64 v := if v = 0 then 0 else v.toNat.log2 + 1

theorem kernelHeaders_documented (x : XLen) : (kernelHeaders x).Documented := by
  refine ⟨?_, rfl, fun v i bit above => ?_⟩
  · cases x <;> decide +kernel
  · have nonzero : v ≠ 0 := by
      intro zero
      rw [zero, BitVec.ofNat_eq_ofNat, BitVec.getLsbD_zero] at bit
      exact Bool.false_ne_true bit
    have index : v.toNat.log2 = i := by
      refine (Nat.log2_eq_iff fun zero => nonzero (BitVec.eq_of_toNat_eq zero)).mpr ⟨?_, ?_⟩
      · exact Nat.ge_two_pow_of_testBit bit
      · exact Nat.lt_pow_two_of_testBit _ fun j high => above j high
    exact (if_neg nonzero).trans (congrArg (fun n : Nat => (n : Int) + 1) index)

/-- Two characters and a zero byte; the byte behind them is marked too. -/
theorem wordAtATime_exact_borrowed :
    (findZero (kernelHeaders .rv32) (zeroMask (kernelHeaders .rv32) 0x01006261)).toNat = 2 ∧
      byteAt (hasZero (0x01006261 : Word .rv32) (kernelHeaders .rv32).constants).2 3 = 0x80 :=
  ⟨(wordAtATime_exact (kernelHeaders .rv32) (kernelHeaders_documented .rv32) 0x01006261).found 2
    ⟨by decide, by decide, by decide⟩, by decide⟩

/-- The mask takes what is before the zero byte out of the word, as `zero_bytemask` has it. -/
theorem FirstZero.byteAt_and_zeroBytemask (documented : H.Documented) (first : FirstZero val i) :
    byteAt (val &&& zeroBytemask (zeroMask H val)) j = if j < i then byteAt val j else 0 := by
  rw [byteAt_and, zeroBytemask, first.byteAt_zeroMask documented]
  split
  · exact BitVec.and_allOnes
  · exact BitVec.and_zero

end RiscvLinux.Arith.WordAtATime
