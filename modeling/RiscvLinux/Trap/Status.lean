import RiscvLinux.Lib.Bits
import RiscvLinux.Trap.PtRegs

/-!
# The status register

The flags of `sstatus` that the kernel names (`csr.h`), what the hart does to the
register on a trap and on `sret`, and what the kernel's own writers of a saved
`sstatus` do to it: `SAVE_ALL`, `start_thread`, `__fstate_clean`.
-/

namespace RiscvLinux.Trap

open Lib

variable {x : XLen}

/-- The two privilege modes the kernel runs code in. -/
inductive Mode
  | user
  | supervisor
  deriving DecidableEq, Repr

/-! ## Flags -/

/-- `SR_IE`: interrupts are enabled. -/
def srIe : Word x := 0x2

/-- `SR_PIE`: interrupts were enabled before the trap. -/
def srPie : Word x := 0x20

/-- `SR_PS`: the trap came from supervisor mode. -/
def srPs : Word x := 0x100

/-- `SR_FS`: the floating-point status. -/
def srFs : Word x := 0x6000

def srFsOff : Word x := 0

def srFsInitial : Word x := 0x2000

def srFsClean : Word x := 0x4000

def srFsDirty : Word x := 0x6000

/-- `SR_PUM`: the kernel may not touch user memory. -/
def srPum : Word x := 0x40000

/-- `SR_SD`: floating-point or extension state is dirty. -/
def srSd : Word x := BitVec.twoPow x.bits (x.bits - 1)

/-- `EXC_SYSCALL`, the cause of an `ecall` from user mode. -/
def excSyscall : Word x := 8

/-- `user_mode(regs)`. -/
def userMode (sstatus : Word x) : Bool :=
  sstatus &&& srPs == 0

/-! ## The hart -/

/-- What a trap taken in the given mode does to `sstatus`: the interrupt enable moves to
`SR_PIE` and the mode to `SR_PS`. -/
def trapStatus (mode : Mode) (s : Word x) : Word x :=
  let pie := if s &&& srIe = 0 then 0 else srPie
  let ps := match mode with
    | .user => 0
    | .supervisor => srPs
  setBits (setBits (clearBits s (srIe ||| srPie ||| srPs)) pie) ps

/-- What `sret` does to `sstatus`: the interrupt enable comes back from `SR_PIE`. -/
def sretStatus (s : Word x) : Word x :=
  let ie := if s &&& srPie = 0 then 0 else srIe
  setBits (setBits (clearBits s (srIe ||| srPs)) ie) srPie

/-- The mode that `sret` returns to. -/
def sretMode (s : Word x) : Mode :=
  if s &&& srPs = 0 then .user else .supervisor

theorem srPs_ne_zero : (srPs : Word x) ≠ 0 := by
  cases x <;> decide

theorem pie_and_srPs (s : Word x) :
    (if s &&& srIe = 0 then 0 else srPie) &&& (srPs : Word x) = 0 := by
  split <;> cases x <;> decide

/-- The saved status tells the mode the trap came from. -/
theorem sretMode_trapStatus (mode : Mode) (s : Word x) : sretMode (trapStatus mode s) = mode := by
  cases mode with
  | user =>
    have covered : (srIe ||| srPie ||| srPs : Word x) &&& srPs = srPs := by cases x <;> decide
    have clear : trapStatus .user s &&& srPs = 0 := by
      rw [trapStatus, setBits_zero, setBits_and_of_disjoint (pie_and_srPs s),
        clearBits_and_of_covered covered]
    rw [sretMode, if_pos clear]
  | supervisor =>
    have set : trapStatus .supervisor s &&& srPs = srPs :=
      setBits_and_of_covered BitVec.and_self
    rw [sretMode, if_neg (by rw [set]; exact srPs_ne_zero)]

/-- A trap leaves the bits alone that are neither the interrupt enables nor the mode. -/
theorem trapStatus_and (mode : Mode) (s : Word x) {k : Word x} (ie : srIe &&& k = 0)
    (pie : srPie &&& k = 0) (ps : srPs &&& k = 0) : trapStatus mode s &&& k = s &&& k := by
  have zero : (0 : Word x) &&& k = 0 := BitVec.zero_and
  have cleared : (srIe ||| srPie ||| srPs : Word x) &&& k = 0 := by
    rw [BitVec.and_or_distrib_right, BitVec.and_or_distrib_right, ie, pie, ps, BitVec.or_self,
      BitVec.or_self]
  have enable : (if s &&& srIe = 0 then 0 else srPie) &&& k = 0 := by
    split
    · exact zero
    · exact pie
  unfold trapStatus
  cases mode with
  | user =>
    rw [setBits_and_of_disjoint zero, setBits_and_of_disjoint enable,
      clearBits_and_of_disjoint cleared]
  | supervisor =>
    rw [setBits_and_of_disjoint ps, setBits_and_of_disjoint enable,
      clearBits_and_of_disjoint cleared]

/-- So does `sret`. -/
theorem sretStatus_and (s : Word x) {k : Word x} (ie : srIe &&& k = 0) (pie : srPie &&& k = 0)
    (ps : srPs &&& k = 0) : sretStatus s &&& k = s &&& k := by
  have cleared : (srIe ||| srPs : Word x) &&& k = 0 := by
    rw [BitVec.and_or_distrib_right, ie, ps, BitVec.or_self]
  have enable : (if s &&& srPie = 0 then 0 else srIe) &&& k = 0 := by
    split
    · exact BitVec.zero_and
    · exact ie
  rw [sretStatus, setBits_and_of_disjoint pie, setBits_and_of_disjoint enable,
    clearBits_and_of_disjoint cleared]

/-! ## The writers of a saved status -/

/-- What `SAVE_ALL` leaves in `sstatus`: the floating-point unit is off. -/
def saveAllStatus (s : Word x) : Word x :=
  clearBits s srFs

/-- `start_thread`: user mode, interrupts on. -/
def startThreadStatus : Word x :=
  srPie ||| srFsInitial

/-- `copy_thread` of a kernel thread: supervisor, interrupts on. -/
def kernelThreadStatus : Word x :=
  srPs ||| srPie

/-- `__fstate_clean`. -/
def fstateClean (s : Word x) : Word x :=
  s ||| (clearBits s srFs ||| srFsClean)

/-- `__fstate_clean` only ever sets a floating-point flag. -/
theorem fstateClean_eq (s : Word x) : fstateClean s = setBits s srFsClean := by
  refine BitVec.eq_of_getLsbD_eq fun i inside => ?_
  simp only [fstateClean, setBits, clearBits, BitVec.getLsbD_or, BitVec.getLsbD_and,
    BitVec.getLsbD_not, inside, decide_true, Bool.true_and]
  cases s.getLsbD i <;> simp

/-- Outside the floating-point flags `__fstate_clean` changes nothing. -/
theorem fstateClean_and {s k : Word x} (disjoint : srFs &&& k = 0) :
    fstateClean s &&& k = s &&& k := by
  have part : (srFsClean : Word x) &&& srFs = srFsClean := by cases x <;> decide
  rw [fstateClean_eq]
  refine setBits_and_of_disjoint ?_
  rw [← part, BitVec.and_assoc, disjoint, BitVec.ofNat_eq_ofNat, BitVec.and_zero]

/-! ## Protected user memory -/

/-- The kernel may not touch user memory. -/
def Pum (s : Word x) : Prop :=
  s &&& srPum = srPum

instance (s : Word x) : Decidable (Pum s) :=
  inferInstanceAs (Decidable (_ = _))

theorem pum_setBits {s m : Word x} (disjoint : m &&& srPum = 0) : Pum (setBits s m) ↔ Pum s := by
  rw [Pum, setBits_and_of_disjoint disjoint, Pum]

theorem pum_clearBits {s m : Word x} (disjoint : m &&& srPum = 0) :
    Pum (clearBits s m) ↔ Pum s := by
  rw [Pum, clearBits_and_of_disjoint disjoint, Pum]

/-- A trap keeps the flag. -/
theorem pum_trapStatus (mode : Mode) (s : Word x) : Pum (trapStatus mode s) ↔ Pum s := by
  rw [Pum, trapStatus_and mode s (by cases x <;> decide) (by cases x <;> decide)
    (by cases x <;> decide), Pum]

/-- `SAVE_ALL` keeps the flag: it does not set it. -/
theorem pum_saveAllStatus (s : Word x) : Pum (saveAllStatus s) ↔ Pum s :=
  pum_clearBits (by cases x <;> decide)

/-- `sret` keeps the flag. -/
theorem pum_sretStatus (s : Word x) : Pum (sretStatus s) ↔ Pum s := by
  rw [Pum, sretStatus_and s (by cases x <;> decide) (by cases x <;> decide)
    (by cases x <;> decide), Pum]

end RiscvLinux.Trap
