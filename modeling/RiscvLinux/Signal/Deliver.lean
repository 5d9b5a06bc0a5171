import RiscvLinux.Signal.Frame
import RiscvLinux.Trap.Hart

/-!
# System calls and the delivery of signals

The way of a system call through `handle_syscall` and `ret_from_syscall`, and the two
places that decide on its restart: `handle_signal`, when a handler is to run, and
`do_signal`, when none is.
-/

namespace RiscvLinux.Signal

open Lib Trap

variable {x : XLen}

/-! ## User registers -/

/-- The registers of user code. -/
structure UserRegs (x : XLen) where
  pc : Word x
  gpr : Gpr → Word x

/-- The structure that a trap from user code fills in. -/
def trapRegs (u : UserRegs x) (sstatus sbadaddr scause : Word x) : PtRegs x := fun r =>
  match r.source with
  | .inl g => u.gpr g
  | .inr .sepc => u.pc
  | .inr .sstatus => sstatus
  | .inr .sbadaddr => sbadaddr
  | .inr .scause => scause
  | .inr .sscratch => 0

/-- The registers that user code gets back. -/
def userRegs (regs : PtRegs x) : UserRegs x where
  pc := regs .sepc
  gpr g := regs g.slot

@[simp] theorem userRegs_trapRegs (u : UserRegs x) (sstatus sbadaddr scause : Word x) :
    userRegs (trapRegs u sstatus sbadaddr scause) = u := by
  have gpr : (fun g : Gpr => trapRegs u sstatus sbadaddr scause g.slot) = u.gpr := by
    funext g
    rw [trapRegs, Gpr.source_slot]
  rw [userRegs, gpr]
  rfl

@[simp] theorem trapRegs_scause (u : UserRegs x) (sstatus sbadaddr scause : Word x) :
    trapRegs u sstatus sbadaddr scause .scause = scause :=
  rfl

/-! ## System calls -/

/-- What the system call path takes from elsewhere: the table with its size, `sys_ni_syscall`,
and the stops of a tracer, which do nothing when `_TIF_SYSCALL_TRACE` is clear. -/
structure Syscalls (x : XLen) where
  nrSyscalls : Nat
  sysCallTable : Nat → (Fin 6 → Word x) → TaskStruct x → TaskStruct x × Word x
  sysNiSyscall : (Fin 6 → Word x) → TaskStruct x → TaskStruct x × Word x
  traceEnter : TaskStruct x → TaskStruct x
  traceExit : TaskStruct x → TaskStruct x

/-- The arguments of a system call. -/
def callArgs (regs : PtRegs x) : Fin 6 → Word x
  | 0 => regs .a0
  | 1 => regs .a1
  | 2 => regs .a2
  | 3 => regs .a3
  | 4 => regs .a4
  | 5 => regs .a5

/-- `handle_syscall` up to the call: past the `ecall`, and through the stop of the tracer. -/
def enterSyscall (S : Syscalls x) (t : TaskStruct x) : TaskStruct x :=
  S.traceEnter (t.setReg .sepc (t.regs .sepc + 4))

/-- `check_syscall_nr` and the call. -/
def callSyscall (S : Syscalls x) (t : TaskStruct x) : TaskStruct x × Word x :=
  let nr := (t.regs .a7).toNat
  if S.nrSyscalls ≤ nr then S.sysNiSyscall (callArgs t.regs) t
  else S.sysCallTable nr (callArgs t.regs) t

/-- `handle_syscall` and `ret_from_syscall`. -/
def handleSyscall (S : Syscalls x) (t : TaskStruct x) : TaskStruct x :=
  let r := callSyscall S (enterSyscall S t)
  S.traceExit (r.1.setReg .a0 r.2)

/-- The system call `rt_sigreturn`, from its `ecall` to the return to user code. -/
def sigreturnSyscall (P : Platform x) (t : TaskStruct x) : TaskStruct x :=
  let r := rtSigreturn P (t.setReg .sepc (t.regs .sepc + 4))
  r.1.setReg .a0 r.2

/-! ## Delivery -/

/-- `regs->sepc -= 0x4`. -/
def rewind (t : TaskStruct x) : TaskStruct x :=
  t.setReg .sepc (t.regs .sepc - 4)

/-- The restart of a system call in `handle_signal`. -/
def handleSignalRestart (t : TaskStruct x) (k : KSignal x) : TaskStruct x :=
  if t.regs .scause = excSyscall then
    if t.regs .a0 = eRestartRestartBlock ∨ t.regs .a0 = eRestartNoHand then t.setReg .a0 eIntr
    else if t.regs .a0 = eRestartSys then
      if k.flags &&& saRestart = 0 then t.setReg .a0 eIntr else rewind t
    else if t.regs .a0 = eRestartNoIntr then rewind t
    else t
  else t

/-- `signal_setup_done`. -/
def signalSetupDone (failed : Bool) (t : TaskStruct x) (k : KSignal x) : TaskStruct x :=
  if failed then t.forceSigsegv else t.signalDelivered k

/-- `handle_signal`. -/
def handleSignal (P : Platform x) (t : TaskStruct x) (k : KSignal x) : TaskStruct x :=
  let oldset := t.sigmaskToSave
  let t := handleSignalRestart t k
  let r := setupRtFrame P t k oldset
  signalSetupDone r.2 r.1 k

/-- The restart of a system call in `do_signal`. -/
def doSignalRestart (t : TaskStruct x) : TaskStruct x :=
  if t.regs .scause = excSyscall then
    if t.regs .a0 = eRestartNoHand ∨ t.regs .a0 = eRestartSys ∨ t.regs .a0 = eRestartNoIntr then
      rewind t
    else if t.regs .a0 = eRestartRestartBlock then rewind (t.setReg .a7 nrRestartSyscall)
    else t
  else t

/-- `do_signal`, with what `get_signal` finds. -/
def doSignal (P : Platform x) (t : TaskStruct x) : Option (KSignal x) → TaskStruct x
  | some k => handleSignal P t k
  | none => (doSignalRestart t).restoreSavedSigmask

/-- `_TIF_SIGPENDING`. -/
def tifSigpending : Word x := 0b0100

/-- `do_notify_resume`: `tracehook_notify_resume` does not touch what is modelled here. -/
def doNotifyResume (P : Platform x) (t : TaskStruct x) (flags : Word x)
    (sig : Option (KSignal x)) : TaskStruct x :=
  if flags &&& tifSigpending = 0 then t else doSignal P t sig

/-! ## Coming back from a handler -/

/-- Two register structures with the same fields of `struct user_regs_struct` give user code the
same registers. -/
theorem userRegs_congr {regs regs' : PtRegs x} (same : ∀ r, UserField r → regs r = regs' r) :
    userRegs regs = userRegs regs' := by
  have gpr : (fun g : Gpr => regs g.slot) = fun g => regs' g.slot :=
    funext fun g => same g.slot (by cases g <;> decide)
  rw [userRegs, userRegs, gpr, same .sepc (by decide)]

theorem restoredRegs_user (saved regs : PtRegs x) {r : PtReg} (user : UserField r) :
    restoredRegs saved regs r = saved r := by
  have notStatus : r ≠ .sstatus := by
    intro same
    subst same
    exact absurd user (by decide)
  rw [restoredRegs, fstateRestore_apply _ notStatus, if_pos user]

section

variable {P : Platform x} {t t' v : TaskStruct x} {k : KSignal x} {set : SigSet}

/-- The system call through an intact frame: `a0` comes back on the way of every result. -/
theorem SetUp.sigreturnSyscall (setUp : SetUp P t k set t')
    (sp : v.regs .sp = getSigframe P t k)
    (intact : Intact (getSigframe P t k) P.layout.size t'.mem v.mem) :
    ∃ fp regs, userRegs regs = userRegs t.regs ∧
      sigreturnSyscall P v = TaskStruct.setReg
        (TaskStruct.doSigaltstack
          { v with
            restartFn := .doNoRestartSyscall
            blocked := clearBits set unblockable
            regs := regs
            fstate := fp }
          t.sasSsSp (t.sasSsFlags (t.regs .sp)) t.sasSsSize (t.regs .sp)) .a0 (t.regs .a0) := by
  have sp' : (v.setReg .sepc (v.regs .sepc + 4)).regs .sp = getSigframe P t k := sp
  obtain ⟨fp, returned⟩ := setUp.rtSigreturn sp' intact
  refine ⟨fp, restoredRegs t.regs (v.setReg .sepc (v.regs .sepc + 4)).regs,
    userRegs_congr fun r user => restoredRegs_user _ _ user, ?_⟩
  rw [Signal.sigreturnSyscall, returned]
  rfl

/-- User code gets the registers back that it had when the signal was set up. -/
theorem SetUp.userRegs_sigreturnSyscall (setUp : SetUp P t k set t')
    (sp : v.regs .sp = getSigframe P t k)
    (intact : Intact (getSigframe P t k) P.layout.size t'.mem v.mem) :
    userRegs (Signal.sigreturnSyscall P v).regs = userRegs t.regs := by
  obtain ⟨fp, regs, same, returned⟩ := setUp.sigreturnSyscall sp intact
  rw [returned, TaskStruct.setReg, TaskStruct.doSigaltstack_regs]
  have a0 : regs .a0 = t.regs .a0 := congrFun (congrArg UserRegs.gpr same) .a0
  rw [← a0, Function.update_eq_self, same]

end

/-! ## A platform for runs on fixed inputs -/

/-- The frame of `rv64`. -/
def plainLayout : FrameLayout .rv64 where
  info := 0
  uc := 128
  ucFlags := 128
  ucLink := 136
  ssSp := 144
  ssFlags := 152
  ssSize := 160
  scRegs := 168
  scFpregs := 424
  ucSigmask := 688
  size := 696
  ucFlags_le := by decide
  ucLink_le := by decide
  ssSp_le := by decide
  ssFlags_le := by decide
  ssSize_le := by decide
  scRegs_le := by decide
  scFpregs_le := by decide
  ucSigmask_le := by decide
  size_le := by decide

def plainPlatform : Platform .rv64 where
  layout := plainLayout
  userDs := 0xffffffff78000000
  vdsoRtSigreturn := 0x7fff0000
  copySiginfoToUser := fun m _ _ => (m, false)

/-- A task with the given registers, all of whose memory can be read and written. -/
def plainTask (regs : PtRegs .rv64) : TaskStruct .rv64 where
  regs := regs
  mem := ⟨fun _ => 0, fun _ => true, fun _ => true⟩
  blocked := 0
  savedSigmask := 0
  restoreSigmask := false
  sasSsSp := 0
  sasSsSize := 0
  fstate := ⟨List.replicate 264 0, List.length_replicate⟩
  restartFn := .doNoRestartSyscall

end RiscvLinux.Signal
