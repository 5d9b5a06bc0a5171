import RiscvLinux.Signal.Deliver
import RiscvLinux.Trap.Entry

/-!
# Restarted system calls

A system call whose handler asks for a restart comes back to its `ecall`, in one of two ways: when
no handler is to run, and through `rt_sigreturn` after one has. Either way user code has the
registers of before but for `a0`, which `ret_from_syscall` has put the result in, so
`restarted_iff` says that the call is made again exactly if its first argument was the restart
code itself.
-/

namespace RiscvLinux.Signal

open Lib Trap

variable {x : XLen}

/-! ## The registers of the hart -/

/-- The registers that user code has on a hart. -/
def hartRegs (h : Hart x) : UserRegs x := ⟨h.pc, h.gpr⟩

/-- What `SAVE_ALL` finds after a trap are the registers of user code. -/
theorem userRegs_context_trap (h : Hart x) (stvec cause badaddr : Word x) :
    userRegs (context (h.trap stvec cause badaddr)) = hartRegs h := by
  have gpr : (fun g : Gpr => context (h.trap stvec cause badaddr) g.slot) = h.gpr := by
    funext g
    rw [context, Gpr.source_slot]
    rfl
  rw [userRegs, gpr]
  rfl

/-- What `RESTORE_ALL` and `sret` give to user code is what the frame holds. -/
theorem hartRegs_sret_restoreAll {h : Hart x} {regs : PtRegs x}
    (held : ∀ r, frameWord h.mem (h.gpr .sp) r = regs r) :
    hartRegs (restoreAll h).sret = userRegs regs := by
  obtain ⟨gpr, pc, -⟩ := sret_restoreAll (h := h) (g := h) rfl rfl
  rw [hartRegs, userRegs, pc, held, funext gpr]
  simp only [held]

/-! ## The same call -/

/-- The registers of a system call: its arguments and its number. -/
def callRegs : List Gpr := [.x10, .x11, .x12, .x13, .x14, .x15, .x17]

/-- Both are the same system call, at the same `ecall`. -/
def SameCall (u w : UserRegs x) : Prop :=
  w.pc = u.pc ∧ ∀ g ∈ callRegs, w.gpr g = u.gpr g

/-- The results that ask for a restart with the same arguments. -/
def RestartCode (r : Word x) : Prop :=
  r = eRestartSys ∨ r = eRestartNoIntr ∨ r = eRestartNoHand

/-- The system call of `t` has the result `r`, and neither its handler nor a tracer writes
`struct pt_regs`. -/
structure CallReturns (S : Syscalls x) (t : TaskStruct x) (r : Word x) : Prop where
  traceEnter : ∀ t, (S.traceEnter t).regs = t.regs
  traceExit : ∀ t, (S.traceExit t).regs = t.regs
  regs : (callSyscall S (enterSyscall S t)).1.regs = (enterSyscall S t).regs
  value : (callSyscall S (enterSyscall S t)).2 = r

/-- The `struct pt_regs` that user code gets back after a restart, from the state at
`ret_from_syscall`: with no signal to deliver, and after a handler for whose signal
`handle_signal` has rewound the call. The handler has returned with `sp` at its frame and has left
the frame alone. -/
inductive Restarted (P : Platform x) (t : TaskStruct x) : PtRegs x → Prop
  | noSignal {flags : Word x} (pending : flags &&& tifSigpending ≠ 0)
    (code : RestartCode (t.regs .a0)) :
    Restarted P t (doNotifyResume P t flags none).regs
  | handler (k : KSignal x) {t' v : TaskStruct x}
    (code : t.regs .a0 = eRestartNoIntr ∨
      t.regs .a0 = eRestartSys ∧ k.flags &&& saRestart ≠ 0)
    (done : setupRtFrame P (handleSignalRestart t k) k t.sigmaskToSave = (t', false))
    (sp : v.regs .sp = getSigframe P (handleSignalRestart t k) k)
    (intact : Intact (getSigframe P (handleSignalRestart t k) k) P.layout.size t'.mem v.mem) :
    Restarted P t (sigreturnSyscall P v).regs

/-! ## The registers on the way -/

section

variable {P : Platform x} {S : Syscalls x} {t : TaskStruct x} {u : UserRegs x} {r : Word x}
  {regs : PtRegs x}

/-- At `ret_from_syscall` the pc is past the `ecall` and `a0` is the result. -/
theorem CallReturns.regs_handleSyscall (returns : CallReturns S t r) :
    (handleSyscall S t).regs
      = Function.update (Function.update t.regs .sepc (t.regs .sepc + 4)) .a0 r := by
  have entered : (enterSyscall S t).regs = Function.update t.regs .sepc (t.regs .sepc + 4) :=
    returns.traceEnter _
  rw [handleSyscall, returns.traceExit, TaskStruct.setReg_regs, returns.regs, returns.value,
    entered]

/-- The registers of a call that is made again with `r` for its first argument. -/
def UserRegs.again (u : UserRegs x) (r : Word x) : UserRegs x where
  pc := u.pc
  gpr := Function.update u.gpr .x10 r

/-- Rewound, the task is at its `ecall` again, with the result in `a0`. -/
theorem userRegs_rewind (trapped : userRegs t.regs = u) (returns : CallReturns S t r) :
    userRegs (rewind (handleSyscall S t)).regs = u.again r := by
  subst trapped
  have pc : (rewind (handleSyscall S t)).regs .sepc = t.regs .sepc := by
    rw [rewind, TaskStruct.setReg_regs, Function.update_self, returns.regs_handleSyscall]
    exact BitVec.add_sub_cancel ..
  have gpr : ∀ g : Gpr, (rewind (handleSyscall S t)).regs g.slot
      = Function.update (fun g : Gpr => t.regs g.slot) .x10 r g := by
    intro g
    have notPc : g.slot ≠ .sepc := by cases g <;> decide
    rw [rewind, TaskStruct.setReg_regs, Function.update_of_ne notPc, returns.regs_handleSyscall]
    by_cases first : g = .x10
    · subst first
      rw [Function.update_self]
      exact Function.update_self ..
    · have notFirst : g.slot ≠ .a0 := by
        revert first
        cases g <;> decide
      rw [Function.update_of_ne notFirst, Function.update_of_ne notPc,
        Function.update_of_ne first]
  rw [userRegs, pc, funext gpr]
  rfl

theorem restartCodes_ne : (eRestartSys : Word x) ≠ eRestartRestartBlock ∧
    (eRestartSys : Word x) ≠ eRestartNoHand ∧ (eRestartNoIntr : Word x) ≠ eRestartRestartBlock ∧
    (eRestartNoIntr : Word x) ≠ eRestartNoHand ∧ (eRestartNoIntr : Word x) ≠ eRestartSys := by
  cases x <;> decide

/-- With no signal a restart code rewinds. -/
theorem doSignalRestart_of_code (call : t.regs .scause = excSyscall)
    (code : RestartCode (t.regs .a0)) : doSignalRestart t = rewind t := by
  rw [doSignalRestart, if_pos call, if_pos]
  rcases code with sys | noIntr | noHand
  · exact .inr (.inl sys)
  · exact .inr (.inr noIntr)
  · exact .inl noHand

/-- The rewinding branch of `handle_signal`. -/
theorem handleSignalRestart_of_code {k : KSignal x} (call : t.regs .scause = excSyscall)
    (code : t.regs .a0 = eRestartNoIntr ∨
      t.regs .a0 = eRestartSys ∧ k.flags &&& saRestart ≠ 0) :
    handleSignalRestart t k = rewind t := by
  obtain ⟨h₁, h₂, h₃, h₄, h₅⟩ := restartCodes_ne (x := x)
  rw [handleSignalRestart, if_pos call]
  rcases code with noIntr | ⟨sys, restart⟩
  · rw [noIntr, if_neg (not_or.mpr ⟨h₃, h₄⟩), if_neg h₅, if_pos rfl]
  · rw [sys, if_neg (not_or.mpr ⟨h₁, h₂⟩), if_pos rfl, if_neg restart]

/-- Putting the saved mask back changes no register. -/
theorem restoreSavedSigmask_regs (t : TaskStruct x) : t.restoreSavedSigmask.regs = t.regs := by
  rw [TaskStruct.restoreSavedSigmask]
  split <;> rfl

/-- Both ways lead to the call with its result for the first argument. -/
theorem Restarted.userRegs_eq (trapped : userRegs t.regs = u) (call : t.regs .scause = excSyscall)
    (returns : CallReturns S t r) (restarted : Restarted P (handleSyscall S t) regs) :
    userRegs regs = u.again r := by
  have call' : (handleSyscall S t).regs .scause = excSyscall := by
    rw [returns.regs_handleSyscall, Function.update_of_ne (by decide),
      Function.update_of_ne (by decide), call]
  cases restarted with
  | noSignal pending code =>
    rw [doNotifyResume, if_neg pending, doSignal, restoreSavedSigmask_regs,
      doSignalRestart_of_code call' code]
    exact userRegs_rewind trapped returns
  | handler k code done sp intact =>
    rw [(setupRtFrame_done done).userRegs_sigreturnSyscall sp intact,
      handleSignalRestart_of_code call' code]
    exact userRegs_rewind trapped returns

theorem sameCall_again : SameCall u (u.again r) ↔ u.gpr .x10 = r := by
  constructor
  · intro given
    rcases given with ⟨-, same⟩
    have first : Function.update u.gpr .x10 r .x10 = u.gpr .x10 := same .x10 (.head _)
    rw [Function.update_self] at first
    exact first.symm
  · intro same
    subst same
    exact ⟨rfl, fun g _ => congrFun (Function.update_eq_self Gpr.x10 u.gpr) g⟩

/-- A hart `h` makes a system call that is restarted, and `g` is the hart that returns to user code
with the registers of the restart in its frame. The call that is made again is the one of `h`
exactly if its first argument was the restart code that its handler returned. -/
theorem restarted_iff {h g : Hart x} {stvec badaddr : Word x}
    (trapped : t.regs = context (h.trap stvec excSyscall badaddr)) (returns : CallReturns S t r)
    (restarted : Restarted P (handleSyscall S t) regs)
    (held : ∀ f, frameWord g.mem (g.gpr .sp) f = regs f) :
    SameCall (hartRegs h) (hartRegs (restoreAll g).sret) ↔ h.gpr .x10 = r := by
  have regs_eq : userRegs t.regs = hartRegs h := by
    rw [trapped]
    exact userRegs_context_trap ..
  have call : t.regs .scause = excSyscall := by
    rw [trapped]
    rfl
  rw [hartRegs_sret_restoreAll held, restarted.userRegs_eq regs_eq call returns]
  exact sameCall_again

end

/-! ## A call on fixed inputs -/

/-- A kernel whose `read`, number 63, is interrupted, and which has no other call: `-38` is
`-ENOSYS`. -/
def interrupted : Syscalls .rv64 where
  nrSyscalls := 64
  sysCallTable := fun nr _ t => (t, if nr = 63 then eRestartSys else -38)
  sysNiSyscall := fun _ t => (t, -38)
  traceEnter := id
  traceExit := id

theorem interrupted_returns {t : TaskStruct .rv64} (read : t.regs .a7 = 63) :
    CallReturns interrupted t eRestartSys := by
  have call : callSyscall interrupted (enterSyscall interrupted t)
      = (enterSyscall interrupted t, eRestartSys) := by
    have number : (enterSyscall interrupted t).regs .a7 = 63 :=
      (t.setReg_ne _ (by decide)).trans read
    rw [callSyscall, number]
    rfl
  refine ⟨fun _ => rfl, fun _ => rfl, ?_, ?_⟩ <;> rw [call]

/-- A hart in front of the `ecall` of a `read` with the given first argument and otherwise
zeroes. -/
def atEcall (a0 : Word .rv64) : Hart .rv64 where
  mode := .user
  pc := 0x10000
  gpr := Function.update (Function.update (fun _ => 0) .x10 a0) .x17 63
  csr := fun _ => 0
  mem := fun _ => 0

/-- The task after that `ecall`. -/
def ecallTask (a0 : Word .rv64) : TaskStruct .rv64 :=
  plainTask (context ((atEcall a0).trap 0 excSyscall 0))

/-- The registers after the restart. -/
def restartRegs (a0 : Word .rv64) : PtRegs .rv64 :=
  (doNotifyResume plainPlatform (handleSyscall interrupted (ecallTask a0)) tifSigpending none).regs

theorem ecallTask_returns (a0 : Word .rv64) : CallReturns interrupted (ecallTask a0) eRestartSys :=
  interrupted_returns rfl

theorem restartRegs_restarted (a0 : Word .rv64) :
    Restarted plainPlatform (handleSyscall interrupted (ecallTask a0)) (restartRegs a0) := by
  have result : (handleSyscall interrupted (ecallTask a0)).regs .a0 = eRestartSys := by
    rw [(ecallTask_returns a0).regs_handleSyscall, Function.update_self]
  exact .noSignal (by decide) (.inl result)

/-- A hart that has the given registers in its frame. -/
def withFrame (regs : PtRegs .rv64) : Hart .rv64 :=
  saveAll
    { mode := .supervisor
      pc := 0
      gpr := fun g => regs g.slot
      csr := fun
        | .sepc => regs .sepc
        | .sstatus => regs .sstatus
        | .sbadaddr => regs .sbadaddr
        | .scause => regs .scause
        | .sscratch => 0
      mem := fun _ => 0 }

theorem frameWord_withFrame (regs : PtRegs .rv64) (f : PtReg) :
    frameWord (withFrame regs).mem ((withFrame regs).gpr .sp) f = regs f := by
  rw [withFrame, saveAll_sp, saveAll_frame]
  cases f <;> rfl

/-- A call whose first argument is the restart code is made again, by the theorem. -/
theorem restarted_iff_code : SameCall (hartRegs (atEcall eRestartSys))
    (hartRegs (restoreAll (withFrame (restartRegs eRestartSys))).sret) :=
  (restarted_iff rfl (ecallTask_returns _) (restartRegs_restarted eRestartSys)
    (frameWord_withFrame _)).mpr rfl

/-- A read from descriptor zero is restarted as one from descriptor -512. -/
theorem not_sameCall_read : ¬SameCall (hartRegs (atEcall 0))
    (hartRegs (restoreAll (withFrame (restartRegs 0))).sret) := by
  have trapped : userRegs (ecallTask 0).regs = hartRegs (atEcall 0) :=
    userRegs_context_trap ..
  rw [hartRegs_sret_restoreAll (frameWord_withFrame _),
    (restartRegs_restarted 0).userRegs_eq trapped rfl (ecallTask_returns _), sameCall_again]
  decide

end RiscvLinux.Signal
