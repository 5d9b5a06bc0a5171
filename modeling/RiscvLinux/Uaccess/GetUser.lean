import RiscvLinux.Signal.Task

/-!
# `get_user` and `put_user`

The macros of `arch/riscv/include/asm/uaccess.h` for a value that one instruction moves. The loads
`lb`, `lh`, `lw` and `ld` extend the sign to the whole register. The code in `.fixup`, where a
fault leads, sets the register to zero and the error to `-EFAULT`, and so does an address that
`access_ok` refuses.
-/

namespace RiscvLinux.Uaccess

open Lib Trap Signal

variable {x : XLen}

/-- `access_ok`, for an address limit. -/
def AccessOk (fs addr : Word x) (size : Nat) : Prop :=
  size ≤ fs.toNat ∧ addr.toNat ≤ fs.toNat - size

instance (fs addr : Word x) (size : Nat) : Decidable (AccessOk fs addr size) :=
  inferInstanceAs (Decidable (_ ∧ _))

/-- An access of `n` bytes is allowed, and none of them faults. -/
def UserOk (fs : Word x) (ok : Word x → Bool) (addr : Word x) (n : Nat) : Prop :=
  AccessOk fs addr n ∧ ∀ i < n, ok (addr + BitVec.ofNat x.bits i) = true

instance (fs : Word x) (ok : Word x → Bool) (addr : Word x) (n : Nat) :
    Decidable (UserOk fs ok addr n) :=
  inferInstanceAs (Decidable (_ ∧ ∀ i < n, _))

/-- The value of `n` bytes at an address. -/
def value (m : UserMem x) (addr : Word x) (n : Nat) : BitVec (8 * n) :=
  ofBytes (8 * n) (m.bytes.read addr n)

/-- The memory with a value of `n` bytes stored. -/
def stored (m : UserMem x) (addr : Word x) (n : Nat) (v : BitVec (8 * n)) : UserMem x :=
  { m with bytes := m.bytes.write addr (toBytes n v) }

/-- `-EFAULT` -/
def eFault : Int := -14

/-- `get_user` of `n` bytes: what `x` is set to, and what the macro returns. -/
def getUser (fs : Word x) (m : UserMem x) (ptr : Word x) (n : Nat) : Word x × Int :=
  if UserOk fs m.readable ptr n then ((value m ptr n).signExtend x.bits, 0) else (0, eFault)

/-- `put_user` of `n` bytes: the memory, and what the macro returns. -/
def putUser (fs : Word x) (m : UserMem x) (v ptr : Word x) (n : Nat) : UserMem x × Int :=
  if UserOk fs m.writable ptr n then (stored m ptr n (v.setWidth (8 * n)), 0) else (m, eFault)

variable {fs : Word x} {m : UserMem x} {ptr : Word x} {n : Nat}

theorem getUser_of_ok (ok : UserOk fs m.readable ptr n) :
    getUser fs m ptr n = ((value m ptr n).signExtend x.bits, 0) :=
  if_pos ok

theorem putUser_of_ok (ok : UserOk fs m.writable ptr n) (v : Word x) :
    putUser fs m v ptr n = (stored m ptr n (v.setWidth (8 * n)), 0) :=
  if_pos ok

/-- A value that is stored is there. -/
theorem value_stored (m : UserMem x) (ptr : Word x) (fits : n ≤ 2 ^ x.bits) (v : BitVec (8 * n)) :
    value (stored m ptr n v) ptr n = v := by
  have back : (m.bytes.write ptr (toBytes n v)).read ptr (toBytes n v).length = toBytes n v :=
    Memory.read_write_same (by rwa [length_toBytes])
  rw [length_toBytes] at back
  rw [value, stored, back, ofBytes_toBytes (Nat.le_refl _)]

/-! ## The sign -/

/-- The register is no wider than the four bytes, or their sign bit is clear. -/
def SignFree (x : XLen) (v : BitVec (8 * 4)) : Prop :=
  x = .rv64 → v.toNat < 2 ^ 31

instance (x : XLen) (v : BitVec (8 * 4)) : Decidable (SignFree x v) :=
  inferInstanceAs (Decidable (_ → _))

theorem toNat_signExtend {v : BitVec (8 * 4)} (free : SignFree x v) :
    (v.signExtend x.bits).toNat = v.toNat := by
  cases x with
  | rv32 => rw [show XLen.rv32.bits = 8 * 4 by rfl, BitVec.signExtend_eq]
  | rv64 =>
    have small := free rfl
    have positive : v.msb = false := by
      rw [BitVec.msb_eq_decide, decide_eq_false_iff_not]
      omega
    have width := v.isLt
    rw [BitVec.toNat_signExtend, positive, BitVec.toNat_setWidth]
    exact Nat.mod_eq_of_lt (Nat.lt_trans width (by decide))

/-- Otherwise the register is set to a number near its greatest. -/
theorem toNat_signExtend_ge {v : BitVec (8 * 4)} (signed : ¬ SignFree x v) :
    x = .rv64 ∧ 2 ^ 64 - 2 ^ 31 ≤ (v.signExtend x.bits).toNat := by
  rw [SignFree, Classical.not_imp, Nat.not_lt] at signed
  rcases signed with ⟨rfl, large⟩
  have negative : v.msb = true := by
    rw [BitVec.msb_eq_decide, decide_eq_true_eq]
    exact large
  refine ⟨rfl, ?_⟩
  rw [BitVec.toNat_signExtend, negative, BitVec.toNat_setWidth,
    Nat.mod_eq_of_lt (Nat.lt_trans v.isLt (by decide))]
  change 2 ^ 64 - 2 ^ 31 ≤ v.toNat + (2 ^ 64 - 2 ^ 32)
  omega

end RiscvLinux.Uaccess
