import Mathlib.Data.List.TakeWhile
import Mathlib.Logic.Function.Basic
import Mathlib.Tactic.SplitIfs
import RiscvLinux.Trap.Status

/-!
# What the signal code reads and writes

The part of a task that `arch/riscv/kernel/signal.c` works on: its `struct pt_regs`, its
user memory, its signal masks and its alternate signal stack, with the helpers of the
generic kernel that the file calls. The helpers follow Linux 4.6, where they are not under
`arch/riscv`.
-/

namespace RiscvLinux.Signal

open Lib Trap

variable {x : XLen}

/-! ## User memory -/

/-- User memory: its bytes, and which of them can be read and written without a fault. -/
structure UserMem (x : XLen) where
  bytes : Memory x.bits
  readable : Word x → Bool
  writable : Word x → Bool

/-- How many of the `n` bytes from `a` an access gets through before it faults. -/
def reach (ok : Word x → Bool) (a : Word x) (n : Nat) : Nat :=
  ((List.range n).takeWhile fun i => ok (a + BitVec.ofNat x.bits i)).length

/-- `__copy_from_user`: the bytes that were copied, and whether a fault cut them short. -/
def UserMem.copyFrom (m : UserMem x) (a : Word x) (n : Nat) : List UInt8 × Bool :=
  (m.bytes.read a (reach m.readable a n), reach m.readable a n < n)

/-- `__copy_to_user`, with the same flag. -/
def UserMem.copyTo (m : UserMem x) (a : Word x) (bs : List UInt8) : UserMem x × Bool :=
  ({ m with bytes := m.bytes.write a (bs.take (reach m.writable a bs.length)) },
    reach m.writable a bs.length < bs.length)

theorem reach_le (ok : Word x → Bool) (a : Word x) (n : Nat) : reach ok a n ≤ n := by
  have length := (List.takeWhile_prefix (fun i => ok (a + BitVec.ofNat x.bits i))
    (l := List.range n)).length_le
  rwa [List.length_range] at length

theorem reach_eq {ok : Word x → Bool} {a : Word x} {n : Nat}
    (all : ∀ i < n, ok (a + BitVec.ofNat x.bits i) = true) : reach ok a n = n := by
  rw [reach, List.takeWhile_eq_self_iff.mpr fun i hi => all i (List.mem_range.mp hi),
    List.length_range]

theorem UserMem.length_copyFrom_le (m : UserMem x) (a : Word x) (n : Nat) :
    (m.copyFrom a n).1.length ≤ n := by
  rw [copyFrom, Memory.length_read]
  exact reach_le m.readable a n

/-- A copy from readable memory is a read. -/
theorem UserMem.copyFrom_eq {m : UserMem x} {a : Word x} {n : Nat}
    (readable : ∀ i < n, m.readable (a + BitVec.ofNat x.bits i) = true) :
    m.copyFrom a n = (m.bytes.read a n, false) := by
  rw [copyFrom, reach_eq readable]
  simp

/-- A copy that reports no fault has written everything. -/
theorem UserMem.copyTo_bytes {m : UserMem x} {a : Word x} {bs : List UInt8}
    (done : (m.copyTo a bs).2 = false) : (m.copyTo a bs).1.bytes = m.bytes.write a bs := by
  have all : bs.length ≤ reach m.writable a bs.length := by simpa [copyTo] using done
  simp [copyTo, List.take_of_length_le all]

/-! ## Signal sets -/

/-- `sigset_t`. -/
abbrev SigSet : Type := BitVec 64

/-- `sigmask(sig)`. -/
def sigmask (sig : Nat) : SigSet := 1 <<< (sig - 1)

def sigKill : Nat := 9

def sigSegv : Nat := 11

def sigStop : Nat := 19

/-- The signals that no task can block. -/
def unblockable : SigSet := sigmask sigKill ||| sigmask sigStop

/-! ## Constants -/

/-- An error number as the kernel returns it. -/
def errno (k : Nat) : Word x := -BitVec.ofNat x.bits k

def eIntr : Word x := errno 4

def eRestartSys : Word x := errno 512

def eRestartNoIntr : Word x := errno 513

def eRestartNoHand : Word x := errno 514

def eRestartRestartBlock : Word x := errno 516

def eFault : Word x := errno 14

/-- `__NR_restart_syscall`. -/
def nrRestartSyscall : Word x := 128

def saOnStack : Word x := 0x08000000

def saRestart : Word x := 0x10000000

def saNoDefer : Word x := 0x40000000

def ssOnStack : BitVec 32 := 1

def ssDisable : BitVec 32 := 2

/-- `MINSIGSTKSZ`. -/
def minSigStkSz : Word x := 2048

/-! ## The task -/

/-- `struct user_fpregs_struct`, as bytes. -/
structure FpRegs where
  bytes : List UInt8
  length_eq : bytes.length = 264

/-- `restart_block.fn`. -/
inductive RestartFn (x : XLen)
  | doNoRestartSyscall
  | other (f : Word x)
  deriving DecidableEq

/-- `struct ksignal`: the signal to deliver and the action for it. -/
structure KSignal (x : XLen) where
  sig : Nat
  sig_le : sig ≤ 64
  handler : Word x
  flags : Word x
  mask : SigSet
  info : List UInt8

/-- The part of `struct task_struct` that the signal code uses. -/
structure TaskStruct (x : XLen) where
  regs : PtRegs x
  mem : UserMem x
  blocked : SigSet
  savedSigmask : SigSet
  restoreSigmask : Bool
  sasSsSp : Word x
  sasSsSize : Word x
  fstate : FpRegs
  restartFn : RestartFn x

namespace TaskStruct

/-- An assignment to a field of `struct pt_regs`. -/
def setReg (t : TaskStruct x) (r : PtReg) (v : Word x) : TaskStruct x :=
  { t with regs := Function.update t.regs r v }

@[simp] theorem setReg_regs (t : TaskStruct x) (r : PtReg) (v : Word x) :
    (t.setReg r v).regs = Function.update t.regs r v :=
  rfl

theorem setReg_same (t : TaskStruct x) (r : PtReg) (v : Word x) : (t.setReg r v).regs r = v :=
  Function.update_self ..

theorem setReg_ne (t : TaskStruct x) {r r' : PtReg} (v : Word x) (differ : r' ≠ r) :
    (t.setReg r v).regs r' = t.regs r' :=
  Function.update_of_ne differ ..

/-! ## Masks -/

/-- `set_current_blocked`. -/
def setCurrentBlocked (t : TaskStruct x) (set : SigSet) : TaskStruct x :=
  { t with blocked := clearBits set unblockable }

/-- `sigmask_to_save`. -/
def sigmaskToSave (t : TaskStruct x) : SigSet :=
  if t.restoreSigmask then t.savedSigmask else t.blocked

/-- `restore_saved_sigmask`. -/
def restoreSavedSigmask (t : TaskStruct x) : TaskStruct x :=
  if t.restoreSigmask then { t with restoreSigmask := false, blocked := t.savedSigmask } else t

/-- `signal_delivered`. -/
def signalDelivered (t : TaskStruct x) (k : KSignal x) : TaskStruct x :=
  let blocked := t.blocked ||| k.mask
  let blocked := if k.flags &&& saNoDefer = 0 then blocked ||| sigmask k.sig else blocked
  { t with restoreSigmask := false }.setCurrentBlocked blocked

/-- `force_sig` of `SIGSEGV`: a task cannot keep it blocked. -/
def forceSigsegv (t : TaskStruct x) : TaskStruct x :=
  { t with blocked := clearBits t.blocked (sigmask sigSegv) }

/-! ## The alternate stack -/

/-- `on_sig_stack`. -/
def onSigStack (t : TaskStruct x) (sp : Word x) : Bool :=
  t.sasSsSp < sp && sp - t.sasSsSp ≤ t.sasSsSize

/-- `sas_ss_flags`. -/
def sasSsFlags (t : TaskStruct x) (sp : Word x) : BitVec 32 :=
  if t.sasSsSize = 0 then ssDisable
  else if t.onSigStack sp then ssOnStack
  else 0

/-- `sigsp`. -/
def sigsp (t : TaskStruct x) (sp : Word x) (k : KSignal x) : Word x :=
  if k.flags &&& saOnStack ≠ 0 ∧ t.sasSsFlags sp = 0 then t.sasSsSp + t.sasSsSize else sp

/-- `do_sigaltstack` with new settings that have been read from user memory: the task as it is
when it refuses them. -/
def doSigaltstack (t : TaskStruct x) (ssSp : Word x) (ssFlags : BitVec 32) (ssSize : Word x)
    (sp : Word x) : TaskStruct x :=
  if t.onSigStack sp then t
  else if ssFlags ≠ ssDisable ∧ ssFlags ≠ ssOnStack ∧ ssFlags ≠ 0 then t
  else if ssFlags = ssDisable then { t with sasSsSp := 0, sasSsSize := 0 }
  else if ssSize < minSigStkSz then t
  else { t with sasSsSp := ssSp, sasSsSize := ssSize }

@[simp] theorem doSigaltstack_regs (t : TaskStruct x) (ssSp : Word x) (ssFlags : BitVec 32)
    (ssSize sp : Word x) : (t.doSigaltstack ssSp ssFlags ssSize sp).regs = t.regs := by
  simp only [doSigaltstack]
  split_ifs <;> rfl

@[simp] theorem doSigaltstack_blocked (t : TaskStruct x) (ssSp : Word x) (ssFlags : BitVec 32)
    (ssSize sp : Word x) : (t.doSigaltstack ssSp ssFlags ssSize sp).blocked = t.blocked := by
  simp only [doSigaltstack]
  split_ifs <;> rfl

end TaskStruct

end RiscvLinux.Signal
