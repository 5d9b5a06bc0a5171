import RiscvLinux.Trap.Nesting

/-!
# A new task

The way of a new user task to its first instruction: the parent's `ecall` through `handle_syscall`
(`entry.S`), `copy_thread` (`process.c`), `__switch_to`, `ret_from_fork` and `ret_from_exception`.
Between these any kernel code runs, with traps of its own and other tasks, by the steps of the trap
path.

`clone_iff` says when the child has the registers it is to have: `copy_thread` takes the new thread
pointer out of `a5`, where under `CONFIG_CLONE_BACKWARDS` it is the fourth argument.
-/

namespace RiscvLinux.Trap

open Lib

variable {x : XLen} {Task : Type}

/-! ## The code -/

/-- `CLONE_SETTLS` -/
def cloneSettls : Word x := 0x80000

/-- The members of `struct thread_struct` that `__switch_to` moves -/
inductive ThreadReg
  | ra | sp | s0 | s1 | s2 | s3 | s4 | s5 | s6 | s7 | s8 | s9 | s10 | s11
  deriving DecidableEq

/-- `struct thread_struct`, but for the floating-point state -/
abbrev Thread (x : XLen) : Type := ThreadReg → Word x

/-- The labels that a new task comes by -/
structure ForkSymbols (x : XLen) extends Symbols x where
  retFromFork : Word x
  retFromKernelThread : Word x
  scheduleTail : Word x

/-- Where `handle_exception` goes on -/
inductive Handler
  | doIrq
  | handleSyscall
  | excpVect
  deriving DecidableEq

/-- `bge s4, zero` and `beq s4, t0, handle_syscall` -/
def handler (h : Hart x) : Handler :=
  if (h.gpr .s4).slt 0 then .doIrq
  else if h.gpr .s4 = excSyscall then .handleSyscall
  else .excpVect

/-- `handle_syscall`, up to the tests of the thread flags -/
def handleSyscall (h : Hart x) : Hart x :=
  let h := h.set .s2 (h.gpr .s2 + 4)
  let h := h.regS .s2 .sepc
  h.csrs .sstatus srIe

/-- The registers of a new user task, from those of its parent -/
def childRegs (flags usp : Word x) (regs : PtRegs x) : PtRegs x :=
  let regs := if usp ≠ 0 then Function.update regs .sp usp else regs
  let regs := if flags &&& cloneSettls ≠ 0 then Function.update regs .tp (regs .a5) else regs
  Function.update regs .a0 0

/-- `copy_thread` of `p`, with the value of the register `gp`: memory and `p->thread` -/
def copyThread (st : Stacks x Task) (sym : ForkSymbols x) (current p : Task) (kthread : Bool)
    (flags usp arg gp : Word x) (m : Memory x.bits) (thread : Thread x) :
    Memory x.bits × Thread x :=
  let childregs := taskPtRegs st p
  let assign (regs : PtRegs x) : Memory x.bits :=
    m.storeFields x.szreg childregs (PtReg.all.map fun r => (r.index, regs r))
  let (mem, thread) :=
    if kthread then
      (assign (Function.update (Function.update (fun _ => 0) .gp gp) .sstatus kernelThreadStatus),
        Function.update (Function.update (Function.update thread .ra sym.retFromKernelThread)
          .s0 usp) .s1 arg)
    else
      (assign (childRegs flags usp (frameWord m (taskPtRegs st current))),
        Function.update thread .ra sym.retFromFork)
  (mem, Function.update thread .sp childregs)

/-- The stores and the loads of `__switch_to` -/
def switchToRegs : List (Gpr × ThreadReg) :=
  [(.x1, .ra), (.x2, .sp), (.x8, .s0), (.x9, .s1), (.x18, .s2), (.x19, .s3), (.x20, .s4),
    (.x21, .s5), (.x22, .s6), (.x23, .s7), (.x24, .s8), (.x25, .s9), (.x26, .s10), (.x27, .s11)]

variable [DecidableEq Task]

/-- The threads after the stores of `__switch_to` -/
def switchToSave (thread : Task → Thread x) (prev : Task) (h : Hart x) : Task → Thread x :=
  Function.update thread prev
    (switchToRegs.foldl (fun th p => Function.update th p.2 (h.gpr p.1)) (thread prev))

/-- The hart after `__switch_to`, from its loads on -/
def switchToLoad (next : Thread x) (h : Hart x) : Hart x :=
  let h := switchToRegs.foldl (fun h p => h.set p.1 (next p.2)) h
  let h := h.set .tp (h.gpr .a1)
  { h with pc := h.gpr .ra }

/-- `__switch_to` -/
def switchTo (thread : Task → Thread x) (prev next : Task) (h : Hart x) :
    (Task → Thread x) × Hart x :=
  let saved := switchToSave thread prev h
  (saved, switchToLoad (saved next) h)

/-- `ret_from_fork`, where `__switch_to` returned to it -/
def retFromFork (sym : ForkSymbols x) (h : Hart x) : Option (Hart x) :=
  if h.pc = sym.retFromFork then
    some { h.set .ra sym.retFromException with pc := sym.scheduleTail }
  else none

/-! ## The way of the child -/

section

variable (st : Stacks x Task) (sym : ForkSymbols x)

/-- The trap of an `ecall` from user mode, after the write of `handle_syscall` -/
def System.ecallFrame (s : System x Task) (stvec badaddr : Word x) : Frame x :=
  let h := s.hart.trap stvec excSyscall badaddr
  ⟨(frameAddr h - st.page s.current).toNat, context h, [(.sepc, h.csr .sepc + 4)]⟩

/-- The state after an `ecall` from user mode, up to the tests of the thread flags -/
def System.ecall (s : System x Task) (stvec badaddr : Word x) : System x Task :=
  { s with
    hart := handleSyscall (handleException sym.toSymbols (s.hart.trap stvec excSyscall badaddr))
    frames := Function.update s.frames s.current [s.ecallFrame st stvec badaddr] }

/-- The writes are of the floating-point state, and so of the status alone. -/
def OnlyStatus (writes : List (PtReg × Word x)) : Prop :=
  ∀ w ∈ writes, w.1 = .sstatus

/-- The parent comes to `copy_thread` in the system call: nothing but `handle_syscall` and
`fstate_save` has written to its `struct pt_regs`. -/
structure Copies (s : System x Task) (stvec badaddr : Word x) (u : System x Task) : Prop where
  run : Run (Inside st sym.toSymbols s.current 0) (s.ecall st sym stvec badaddr) u
  current : u.current = s.current
  kernel : u.hart.mode = .supervisor
  regs : ∃ f ws, u.frames s.current = [f] ∧ OnlyStatus ws ∧
    f.writes = ws ++ [(.sepc, s.hart.pc + 4)]

/-- Kernel code of a task that is called and returns -/
structure Returns (t : Task) (s u : System x Task) : Prop where
  run : Run (Inside st sym.toSymbols t 0) s u
  current : u.current = t
  kernel : u.hart.mode = .supervisor
  sp : u.hart.gpr .sp = s.hart.gpr .sp
  pc : u.hart.pc = s.hart.gpr .ra

/-- From `ret_from_exception` to user mode, with the work there is to do before it: the state in
which there is none left, and the hart after `sret` -/
inductive Resumes (t : Task) : System x Task → System x Task → Hart x → Prop
  | left {s : System x Task} {h : Hart x} :
    s.hart.pc = sym.retFromException → retFromException sym.toSymbols s.hart = .left h →
    Resumes t s s h
  | work {s s' u : System x Task} {w h : Hart x} :
    s.hart.pc = sym.retFromException → retFromException sym.toSymbols s.hart = .work w →
    Returns st sym t { s with hart := w } s' → Resumes t s' u h → Resumes t s u h

/-- Steps before the new task runs -/
def Before (t : Task) : System x Task → System x Task → Prop :=
  Guarded (Step st sym.toSymbols) fun s _ => s.current ≠ t

/-- The first return of a new task to user mode, from the state after `copy_thread`: at last
another task switches to it, it comes through `ret_from_fork` and `schedule_tail`, and until it is
left nothing but `fstate_restore` writes to its `struct pt_regs`. -/
inductive FirstReturn (t : Task) (thread : Thread x) (s : System x Task) : Hart x → Prop
  | intro {u v w : System x Task} {h h' : Hart x} {threads : Task → Thread x} {f : Frame x} :
    Run (Before st sym t) s u → u.current ≠ t → u.hart.mode = .supervisor → threads t = thread →
    retFromFork sym (switchTo threads u.current t u.hart).2 = some h' →
    Returns st sym t { u with hart := h', current := t } v → Resumes st sym t v w h →
    w.frames t = [f] → OnlyStatus f.writes → h.mode = .user → FirstReturn t thread s h

/-- The whole way, from the parent's user code -/
structure Clones (s : System x Task) (child : Task) (flags usp : Word x) (h : Hart x) : Prop where
  other : child ≠ s.current
  path : ∃ stvec badaddr u arg gp thread, Copies st sym s stvec badaddr u ∧ u.frames child = [] ∧
    let copied := copyThread st sym u.current child false flags usp arg gp u.hart.mem thread
    FirstReturn st sym child copied.2
      { u with
        hart := { u.hart with mem := copied.1 }
        frames := Function.update u.frames child [⟨threadSize - ptSize x,
          childRegs flags usp (frameWord u.hart.mem (taskPtRegs st u.current)), []⟩] } h

end

/-- What the child is to have when it comes to user mode: the registers of the parent at the `ecall`
but for `a0`, a stack pointer that is given, and the thread pointer in the fourth argument; and an
empty kernel stack. -/
structure ChildResumes (st : Stacks x Task) (s : System x Task) (child : Task) (flags usp : Word x)
    (h : Hart x) : Prop where
  pc : h.pc = s.hart.pc + 4
  a0 : h.gpr .a0 = 0
  sp : h.gpr .sp = if usp ≠ 0 then usp else s.hart.gpr .sp
  tp : h.gpr .tp = if flags &&& cloneSettls ≠ 0 then s.hart.gpr .x13 else s.hart.gpr .tp
  others : ∀ r, r ≠ .a0 → r ≠ .sp → r ≠ .tp → h.gpr r = s.hart.gpr r
  sscratch : h.csr .sscratch = st.top child

/-! ## The instructions -/

section

variable {sym : ForkSymbols x} {h : Hart x}

/-- `SAVE_ALL` leaves the program counter and the cause in `s2` and `s4`. -/
theorem handleException_saved (sym : Symbols x) (h : Hart x) :
    (handleException sym h).gpr .s2 = h.csr .sepc ∧
      (handleException sym h).gpr .s4 = h.csr .scause := by
  simp [handleException, saveAll, foldl_regS, Hart.csrr, Hart.csrrc, Hart.gpr_set_ne,
    Hart.csr_csrw_ne, saveAllStack_csr]

theorem handleSyscall_mem (h : Hart x) : (handleSyscall h).mem
    = h.mem.writeWord x.szreg (field x.szreg (h.gpr .sp) PtReg.sepc.index) (h.gpr .s2 + 4) := by
  simp [handleSyscall, Hart.csrs, Hart.regS, Hart.gpr_set_ne]

theorem handleSyscall_mode (h : Hart x) : (handleSyscall h).mode = h.mode := by
  simp [handleSyscall, Hart.csrs]

theorem handleSyscall_sscratch (h : Hart x) :
    (handleSyscall h).csr .sscratch = h.csr .sscratch := by
  simp [handleSyscall, Hart.csrs, Hart.csr_csrw_ne]

omit [DecidableEq Task] in
/-- A user task starts at `ret_from_fork`, with its structure on top of its stack. -/
theorem copyThread_thread (st : Stacks x Task) (sym : ForkSymbols x) (current p : Task)
    (flags usp arg gp : Word x) (m : Memory x.bits) (thread : Thread x) :
    (copyThread st sym current p false flags usp arg gp m thread).2 .ra = sym.retFromFork ∧
      (copyThread st sym current p false flags usp arg gp m thread).2 .sp = taskPtRegs st p := by
  simp [copyThread]

/-- `__switch_to` returns to the `ra` of the next thread, on its stack. -/
theorem switchToLoad_spec (next : Thread x) (h : Hart x) :
    (switchToLoad next h).pc = next .ra ∧ (switchToLoad next h).gpr .sp = next .sp ∧
      (switchToLoad next h).mode = h.mode ∧ (switchToLoad next h).csr = h.csr ∧
      (switchToLoad next h).mem = h.mem := by
  simp [switchToLoad, switchToRegs, Hart.gpr_set_ne]

theorem switchTo_load {thread : Task → Thread x} {prev next : Task} (other : prev ≠ next)
    (h : Hart x) : (switchTo thread prev next h).2 = switchToLoad (thread next) h := by
  rw [switchTo, switchToSave, Function.update_of_ne other.symm]

theorem retFromFork_keeps {h' : Hart x} (forked : retFromFork sym h = some h') :
    h'.gpr .ra = sym.retFromException ∧ h'.gpr .sp = h.gpr .sp ∧ h'.mode = h.mode ∧
      h'.csr = h.csr ∧ h'.mem = h.mem := by
  rw [retFromFork, Option.ite_none_right_eq_some, Option.some.injEq] at forked
  rcases forked with ⟨-, rfl⟩
  simp [Hart.gpr_set_ne]

/-- Before the work there is to do, the stack pointer is where it was. -/
theorem retFromException_work_sp {sym : Symbols x} {w : Hart x}
    (exit : retFromException sym h = .work w) : w.gpr .sp = h.gpr .sp := by
  have sp := (retFromExceptionTest_keeps h).1
  simp only [retFromException] at exit
  split at exit
  · cases exit
  · simp only [resumeUserspace, Hart.gpr_set_same] at exit
    split at exit
    · rw [Exit.work.injEq] at exit
      subst exit
      simp only [workPending, Hart.gpr_set_same]
      split <;> simp [Hart.csrs, Hart.gpr_set_ne, sp]
    · cases exit

end

/-! ## The registers of the child -/

section

variable (flags usp : Word x) {regs regs' : PtRegs x}

/-- The structure of the child is a copy, but for three fields. -/
theorem childRegs_apply (regs : PtRegs x) (r : PtReg) : childRegs flags usp regs r
    = if r = .a0 then 0
      else if r = .tp ∧ flags &&& cloneSettls ≠ 0 then regs .a5
      else if r = .sp ∧ usp ≠ 0 then usp
      else regs r := by
  by_cases settls : flags &&& cloneSettls = 0 <;> by_cases none : usp = 0 <;>
    simp only [childRegs, settls, none, ne_eq, not_true_eq_false, not_false_eq_true, if_true,
      if_false, and_true, and_false, Function.update_apply, reduceCtorEq]

theorem childRegs_sepc (regs : PtRegs x) : childRegs flags usp regs .sepc = regs .sepc := by
  simp only [childRegs_apply, reduceCtorEq, if_false, false_and]

theorem childRegs_congr {r : PtReg} (same : ∀ r, r ≠ .sstatus → regs r = regs' r)
    (other : r ≠ .sstatus) : childRegs flags usp regs r = childRegs flags usp regs' r := by
  rw [childRegs_apply, childRegs_apply, same r other, same .a5 (by decide)]

end

/-! ## The parent -/

section

variable {st : Stacks x Task} {sym : ForkSymbols x} {s u : System x Task} {t : Task}
  {stvec badaddr : Word x}

omit [DecidableEq Task] in
/-- Writes of the status leave the other fields. -/
theorem rewritten_onlyStatus {ws : List (PtReg × Word x)} (only : OnlyStatus ws) {regs : PtRegs x}
    {r : PtReg} (other : r ≠ .sstatus) : rewritten ws regs r = regs r := by
  refine rewritten_of_notMem fun member => ?_
  obtain ⟨w, written, rfl⟩ := List.mem_map.mp member
  exact other (only w written)

/-- `handle_syscall` is a write to the `struct pt_regs` and kernel code. -/
theorem run_handleSyscall (sym : Symbols x) {f : Frame x} (kernel : s.hart.mode = .supervisor)
    (frames : s.frames s.current = [f]) (sp : s.hart.gpr .sp = st.at s.current f.off) :
    Run (Step st sym) s { s with
      hart := handleSyscall s.hart
      frames := Function.update s.frames s.current
        [{ f with writes := (.sepc, s.hart.gpr .s2 + 4) :: f.writes }] } := by
  have write : Step st sym s (s.written st s.current [] f [] .sepc (s.hart.gpr .s2 + 4)) :=
    .write s.current [] f [] .sepc (s.hart.gpr .s2 + 4) kernel frames nofun
  refine .tail (.single write) (.kernel (handleSyscall s.hart) kernel ?_ ?_ fun t f' _ => ?_)
  · rw [handleSyscall_mode, kernel]
  · exact handleSyscall_sscratch s.hart
  · rw [handleSyscall_mem, sp]
    rfl

variable (sym) in
/-- The `ecall` is a trap and `handle_syscall`. -/
theorem run_ecall (nested : Nested st s) (user : s.hart.mode = .user) (stvec badaddr : Word x) :
    Run (Step st sym.toSymbols) s (s.ecall st sym stvec badaddr) := by
  have none := (nested.user user).2
  have trap : Step st sym.toSymbols s (s.trapped st sym.toSymbols stvec excSyscall badaddr) :=
    .trap stvec excSyscall badaddr fun supervisor => absurd (user.symm.trans supervisor) nofun
  have frames : (s.trapped st sym.toSymbols stvec excSyscall badaddr).frames s.current
      = [⟨(frameAddr (s.hart.trap stvec excSyscall badaddr) - st.page s.current).toNat,
          context (s.hart.trap stvec excSyscall badaddr), []⟩] := by
    simp only [System.trapped, Function.update_self, none]
  have handled := run_handleSyscall sym.toSymbols
    (handleException_mode sym.toSymbols (s.hart.trap stvec excSyscall badaddr)) frames
    ((handleException_sp sym.toSymbols _).trans (st.at_sub s.current _).symm)
  have sepc : (s.trapped st sym.toSymbols stvec excSyscall badaddr).hart.gpr .s2
      = (s.hart.trap stvec excSyscall badaddr).csr .sepc := (handleException_saved ..).1
  rw [sepc] at handled
  simp only [System.trapped, Function.update_idem] at trap handled
  exact .head trap handled

variable (st sym) in
theorem ecall_mode (s : System x Task) (stvec badaddr : Word x) :
    (s.ecall st sym stvec badaddr).hart.mode = .supervisor := by
  rw [System.ecall, handleSyscall_mode, handleException_mode]
  rfl

theorem forked_frames (s : System x Task) (t : Task) (regs : PtRegs x) :
    (s.forked st t regs).frames t = [⟨threadSize - ptSize x, regs, []⟩] :=
  Function.update_self ..

variable (st) in
/-- `copy_thread` is code of the parent. -/
theorem forked_keeps (s : System x Task) (t : Task) (regs : PtRegs x) :
    (s.forked st t regs).hart.mode = s.hart.mode ∧ (s.forked st t regs).current = s.current :=
  ⟨rfl, rfl⟩

variable (st sym) in
theorem ecall_frames (s : System x Task) (stvec badaddr : Word x) :
    (s.ecall st sym stvec badaddr).frames s.current = [s.ecallFrame st stvec badaddr] :=
  Function.update_self ..

omit [DecidableEq Task] in
/-- The trap from user mode is at `task_pt_regs`. -/
theorem at_ecallFrame (nested : Nested st s) (user : s.hart.mode = .user)
    (stvec badaddr : Word x) :
    st.at s.current (s.ecallFrame st stvec badaddr).off = taskPtRegs st s.current := by
  rw [System.ecallFrame, st.at_sub]
  exact (nested.frameAddr_trap stvec excSyscall badaddr
    fun kernel => absurd (user.symm.trans kernel) nofun).2 user

variable (sym) in
/-- After `handle_syscall` the parent's `struct pt_regs` has its context, at the next
instruction. -/
theorem frameWord_ecall (nested : Nested st s) (user : s.hart.mode = .user)
    (stvec badaddr : Word x) (r : PtReg) :
    frameWord (s.ecall st sym stvec badaddr).hart.mem (taskPtRegs st s.current) r
      = Function.update (context (s.hart.trap stvec excSyscall badaddr)) .sepc
          (s.hart.pc + 4) r := by
  have later := Run.keeps nested_step nested (run_ecall sym nested user stvec badaddr)
  have held := later.suspended.holds s.current _
    (ecall_frames st sym s stvec badaddr ▸ List.mem_singleton_self _) r
  rwa [at_ecallFrame nested user] at held

omit [DecidableEq Task] in
theorem context_trap_sstatus (h : Hart x) (stvec cause badaddr : Word x) :
    context (h.trap stvec cause badaddr) .sstatus = trapStatus h.mode (h.csr .sstatus) :=
  rfl

variable (st sym) in
/-- The parent at `copy_thread` when nothing else happens before -/
theorem copies_ecall (s : System x Task) (stvec badaddr : Word x) :
    Copies st sym s stvec badaddr (s.ecall st sym stvec badaddr) :=
  ⟨.refl, rfl, ecall_mode .., _, [], ecall_frames .., nofun, rfl⟩

/-- At `copy_thread` the parent's `struct pt_regs` has its registers at the `ecall`, and the
instruction after it. -/
theorem Copies.frameWord_eq (nested : Nested st s) (user : s.hart.mode = .user)
    (copies : Copies st sym s stvec badaddr u) {r : PtReg} (other : r ≠ .sstatus) :
    Nested st u ∧ frameWord u.hart.mem (taskPtRegs st s.current) r
      = Function.update (context (s.hart.trap stvec excSyscall badaddr)) .sepc
          (s.hart.pc + 4) r := by
  rcases copies with ⟨run, -, -, f, ws, frames, only, writes⟩
  have started : Nested st (s.ecall st sym stvec badaddr) :=
    Run.keeps nested_step nested (run_ecall sym nested user stvec badaddr)
  have later : Nested st u := Run.keeps nested_inside started run
  obtain ⟨off, entry⟩ := mark_of_inside run (ecall_frames st sym s stvec badaddr) frames rfl
  have holds := later.suspended.holds s.current f (frames ▸ List.mem_singleton_self f) r
  rw [off, at_ecallFrame nested user, Frame.now, writes, entry, rewritten, List.foldr_append]
    at holds
  exact ⟨later, holds.trans (rewritten_onlyStatus only other)⟩

/-! ## The child -/

/-- Only the task that runs leaves its traps. -/
theorem entries_of_not_current (away : s.current ≠ t) {s' : System x Task}
    (step : Step st sym.toSymbols s s') (some_traps : 0 < (s.entries t).length) :
    0 < (s'.entries t).length := by
  cases step with
  | user | kernel | switchTo | work => exact some_traps
  | trap stvec cause badaddr =>
    simpa only [System.entries, System.trapped, Function.update_of_ne away.symm] using some_traps
  | leave f outer h =>
    simpa only [System.entries, Function.update_of_ne away.symm] using some_traps
  | write u inner f outer r v =>
    by_cases here : t = u
    · subst here
      simp [System.entries, System.written]
    · simpa only [System.entries, System.written, Function.update_of_ne here] using some_traps
  | fork u regs =>
    by_cases here : t = u
    · subst here
      simp [System.entries, System.forked]
    · simpa only [System.entries, System.forked, Function.update_of_ne here] using some_traps

/-- A task that is inside a trap before a run in which it is inside one is so afterwards. -/
theorem entries_of_inside {sym : Symbols x} (run : Run (Inside st sym t 0) s u)
    (some_traps : 0 < (s.entries t).length) : 0 < (u.entries t).length := by
  cases run with
  | refl => exact some_traps
  | tail _ step => exact step.2

/-- Before it runs, a new task has its first trap. -/
theorem inside_of_before (run : Run (Before st sym t) s u) (some_traps : 0 < (s.entries t).length) :
    Run (Inside st sym.toSymbols t 0) s u := by
  induction run with
  | refl => exact .refl
  | tail _ step ih =>
    have more := entries_of_not_current step.2 step.1 (entries_of_inside ih some_traps)
    exact ih.tail ⟨step.1, more⟩

/-- `__switch_to` and `ret_from_fork` -/
theorem inside_of_switch {h' : Hart x} {thread : Thread x} (kernel : u.hart.mode = .supervisor)
    (some_traps : 0 < (u.entries t).length)
    (forked : retFromFork sym (switchToLoad thread u.hart) = some h') :
    Run (Inside st sym.toSymbols t 0) u { u with hart := h', current := t } ∧
      h'.gpr .sp = thread .sp ∧ h'.mode = .supervisor := by
  obtain ⟨-, sp, mode, csr, mem⟩ := retFromFork_keeps forked
  obtain ⟨-, sp', mode', csr', mem'⟩ := switchToLoad_spec thread u.hart
  have supervisor : h'.mode = .supervisor := by rw [mode, mode', kernel]
  refine ⟨?_, sp.trans sp', supervisor⟩
  refine .tail (.single ⟨.switchTo t h'.gpr kernel, some_traps⟩)
    ⟨.kernel h' kernel supervisor ?_ fun v f _ => ?_, some_traps⟩
  · rw [csr, csr']
  · rw [mem, mem']

/-- Through `ret_from_exception` the task stays inside its trap, and on its stack. -/
theorem Resumes.inside {h : Hart x} (resumes : Resumes st sym t s u h) (current : s.current = t)
    (kernel : s.hart.mode = .supervisor) (some_traps : 0 < (s.entries t).length) :
    Run (Inside st sym.toSymbols t 0) s u ∧ u.current = t ∧ u.hart.mode = .supervisor ∧
      u.hart.gpr .sp = s.hart.gpr .sp ∧ retFromException sym.toSymbols u.hart = .left h := by
  induction resumes with
  | left _ exit => exact ⟨.refl, current, kernel, rfl, exit⟩
  | @work s s' u w h _ exit returns _ ih =>
    have work : Run (Inside st sym.toSymbols t 0) s { s with hart := w } :=
      .single ⟨.work w kernel exit, some_traps⟩
    obtain ⟨run, current', kernel', sp, exit'⟩ := ih returns.current returns.kernel
      (entries_of_inside returns.run some_traps)
    refine ⟨(work.trans returns.run).trans run, current', kernel', ?_, exit'⟩
    rw [sp, returns.sp, retFromException_work_sp exit]

omit [DecidableEq Task] in
theorem Gpr.slot_ne_sstatus (r : Gpr) : r.slot ≠ .sstatus := by
  cases r <;> decide

/-- A new task comes to user mode with the registers of its structure, and leaves its stack
empty. -/
theorem FirstReturn.resumes {thread : Thread x} {regs : PtRegs x} {h : Hart x}
    (nested : Nested st s) (new : s.frames t = [⟨threadSize - ptSize x, regs, []⟩])
    (stack : thread .sp = taskPtRegs st t) (first : FirstReturn st sym t thread s h) :
    (∀ r, h.gpr r = regs r.slot) ∧ h.pc = regs .sepc ∧ h.csr .sscratch = st.top t := by
  rcases first with ⟨before, away, kernel, thread_eq, forked, tail, resumes, frames, only, user⟩
  next u v w h' threads f =>
  rw [switchTo_load away, thread_eq] at forked
  have started : 0 < (s.entries t).length := by
    rw [System.entries, new]
    exact Nat.one_pos
  have waits := inside_of_before before started
  have switched := entries_of_inside waits started
  obtain ⟨switches, sp, supervisor⟩ := inside_of_switch kernel switched forked
  obtain ⟨leaves, current, -, sp', exit⟩ := resumes.inside tail.current tail.kernel
    (entries_of_inside tail.run switched)
  have whole := ((waits.trans switches).trans tail.run).trans leaves
  obtain ⟨off, entry⟩ := mark_of_inside whole new frames rfl
  have later : Nested st w := Run.keeps nested_inside nested whole
  have top : w.hart.gpr .sp = taskPtRegs st t := by
    rw [sp', tail.sp, sp, stack]
  have here : w.hart.gpr .sp = st.at w.current f.off := by
    rw [top, current, off, taskPtRegs_eq]
  obtain ⟨gpr, pc, -⟩ := later.restores (current.symm ▸ frames) here exit
  have scratch := (retFromException_left exit).sscratch
  rw [user] at scratch
  refine ⟨fun r => ?_, ?_, ?_⟩
  · rw [gpr, Frame.now, entry, rewritten_onlyStatus only r.slot_ne_sstatus]
  · rw [pc, Frame.now, entry, rewritten_onlyStatus only (by decide)]
  · rw [scratch]
    simp only [top, taskPtRegs, BitVec.sub_add_cancel]
    rfl

theorem Copies.clones {child : Task} {flags usp arg gp : Word x} {thread : Thread x} {h : Hart x}
    (copies : Copies st sym s stvec badaddr u) (other : child ≠ s.current)
    (fresh : u.frames child = [])
    (first : FirstReturn st sym child
      (copyThread st sym u.current child false flags usp arg gp u.hart.mem thread).2
      (u.forked st child (childRegs flags usp (frameWord u.hart.mem (taskPtRegs st u.current))))
      h) :
    Clones st sym s child flags usp h :=
  ⟨other, stvec, badaddr, u, arg, gp, thread, copies, fresh, first⟩

/-- What the child comes to user mode with -/
theorem Clones.resumes {child : Task} {flags usp : Word x} {h : Hart x} (nested : Nested st s)
    (user : s.hart.mode = .user) (clones : Clones st sym s child flags usp h) :
    ∃ stvec badaddr,
      (∀ r, h.gpr r = childRegs flags usp (Function.update
        (context (s.hart.trap stvec excSyscall badaddr)) .sepc (s.hart.pc + 4)) r.slot)
      ∧ h.pc = s.hart.pc + 4 ∧ h.csr .sscratch = st.top child := by
  rcases clones with ⟨other, stvec, badaddr, u, arg, gp, thread, copies, fresh, first⟩
  have words := fun r (differ : r ≠ PtReg.sstatus) => (copies.frameWord_eq nested user differ).2
  have later := (copies.frameWord_eq (r := .sepc) nested user (by decide)).1
  have current := copies.current
  have forks : Step st sym.toSymbols u (u.forked st child _) :=
    .fork child (childRegs flags usp (frameWord u.hart.mem (taskPtRegs st u.current)))
      copies.kernel (current ▸ other) fresh
  have fork := nested_step later forks
  obtain ⟨gpr, pc, scratch⟩ := first.resumes fork (forked_frames ..)
    (copyThread_thread ..).2
  rw [current] at gpr pc
  have copied := fun r differ => childRegs_congr flags usp words (r := r) differ
  refine ⟨stvec, badaddr, fun r => ?_, ?_, scratch⟩
  · rw [gpr, copied _ r.slot_ne_sstatus]
  · rw [pc, copied _ (by decide), childRegs_sepc, Function.update_self]

omit [DecidableEq Task] in
theorem Gpr.slot_inj {r q : Gpr} (same : r.slot = q.slot) : r = q := by
  have sources := congrArg PtReg.source same
  rw [Gpr.source_slot, Gpr.source_slot] at sources
  exact Sum.inl.inj sources

omit [DecidableEq Task] in
theorem Gpr.slot_ne_sepc (r : Gpr) : r.slot ≠ .sepc := by
  cases r <;> decide

/-- The registers of the child in user mode -/
theorem Clones.gpr_eq {child : Task} {flags usp : Word x} {h : Hart x} (nested : Nested st s)
    (user : s.hart.mode = .user) (clones : Clones st sym s child flags usp h) (r : Gpr) :
    h.gpr r = if r = .a0 then 0
      else if r = .tp ∧ flags &&& cloneSettls ≠ 0 then s.hart.gpr .x15
      else if r = .sp ∧ usp ≠ 0 then usp
      else s.hart.gpr r := by
  obtain ⟨stvec, badaddr, gpr, -, -⟩ := clones.resumes nested user
  have slots : ∀ q : Gpr, r.slot = q.slot ↔ r = q := fun q => ⟨Gpr.slot_inj, congrArg _⟩
  have saved : ∀ q : Gpr, Function.update (context (s.hart.trap stvec excSyscall badaddr)) .sepc
      (s.hart.pc + 4) q.slot = s.hart.gpr q := fun q => by
    rw [Function.update_of_ne q.slot_ne_sepc, context, Gpr.source_slot]
    rfl
  have a0 : r.slot = .a0 ↔ r = .a0 := slots .a0
  have tp : r.slot = .tp ↔ r = .tp := slots .tp
  have sp : r.slot = .sp ↔ r = .sp := slots .sp
  rw [gpr, childRegs_apply, saved, show PtReg.a5 = Gpr.x15.slot from rfl, saved]
  simp only [a0, tp, sp]

/-- The child has the registers it is to have exactly when no thread pointer is given, or `a5` is
the fourth argument. -/
theorem Clones.childResumes_iff {child : Task} {flags usp : Word x} {h : Hart x}
    (nested : Nested st s) (user : s.hart.mode = .user)
    (clones : Clones st sym s child flags usp h) : ChildResumes st s child flags usp h ↔
      flags &&& cloneSettls = 0 ∨ s.hart.gpr .x15 = s.hart.gpr .x13 := by
  have gpr := clones.gpr_eq nested user
  obtain ⟨-, -, -, pc, scratch⟩ := clones.resumes nested user
  have tp : h.gpr .tp = if flags &&& cloneSettls ≠ 0 then s.hart.gpr .x15 else s.hart.gpr .tp := by
    simp [gpr]
  constructor
  · intro resumes
    by_cases none : flags &&& cloneSettls = 0
    · exact .inl none
    · have same := tp.symm.trans resumes.tp
      rw [if_pos none, if_pos none] at same
      exact .inr same
  · intro meets
    refine ⟨pc, by simp [gpr], by simp [gpr], ?_, fun r a0 sp tp => ?_, scratch⟩
    · rcases meets with none | same
      · rw [tp, if_neg (not_not_intro none), if_neg (not_not_intro none)]
      · rw [tp, same]
    · simp [gpr, a0, sp, tp]

/-- In every run of the kernel, a child comes to user mode as it is to exactly when no thread
pointer is given, or `a5` is the fourth argument. -/
theorem clone_iff {boot : System x Task} {child : Task} {flags usp : Word x} {h : Hart x}
    (booted : Booted boot) (run : Run (Step st sym.toSymbols) boot s)
    (user : s.hart.mode = .user) (clones : Clones st sym s child flags usp h) :
    ChildResumes st s child flags usp h ↔
      flags &&& cloneSettls = 0 ∨ s.hart.gpr .x15 = s.hart.gpr .x13 :=
  clones.childResumes_iff (Run.keeps nested_step booted.nested run) user

end

/-! ## A task that clones itself -/

/-- Labels for the run below -/
def forkLabels : ForkSymbols .rv64 := { nowhere with
  retFromFork := 0x100
  retFromKernelThread := 0x200
  scheduleTail := 0x300 }

/-- Memory with no flags for a task at address zero -/
def noFlags (m : Memory XLen.rv64.bits) : Memory XLen.rv64.bits := m.write 0 (List.replicate 16 0)

theorem readWord_noFlags (m : Memory XLen.rv64.bits) {a : Nat} (inside : a + 8 ≤ 16) :
    (noFlags m).readWord 8 (0 + BitVec.ofNat XLen.rv64.bits a) = 0 := by
  have zeros : (noFlags m).read (0 + BitVec.ofNat XLen.rv64.bits a) 8 = List.replicate 8 0 := by
    rw [noFlags, Memory.read_write_within (by rwa [List.length_replicate]) (by decide),
      List.drop_replicate, List.take_replicate, Nat.min_eq_left (by omega)]
  rw [Memory.readWord, zeros]
  decide

theorem read_noFlags (m : Memory XLen.rv64.bits) (t : Bool) {off : Nat}
    (inside : off + ptSize .rv64 ≤ threadSize) :
    (noFlags m).read (twoStacks.at t off) (ptSize .rv64)
      = m.read (twoStacks.at t off) (ptSize .rv64) := by
  have apart : Apart (0 : Word .rv64) 16 (twoStacks.page t) threadSize := by cases t <;> decide
  refine Memory.read_write_apart ?_
  rw [List.length_replicate]
  exact apart.part inside (ptSize_pos .rv64)

/-- A new task that has no work to do before it comes to user mode -/
theorem exists_firstReturn {s : System .rv64 Bool} {thread : Thread .rv64} {regs : PtRegs .rv64}
    (nested : Nested twoStacks s) (kernel : s.hart.mode = .supervisor) (current : s.current = true)
    (new : s.frames false = [⟨threadSize - ptSize .rv64, regs, []⟩])
    (user : regs .sstatus &&& srPs = 0) (ra : thread .ra = forkLabels.retFromFork)
    (stack : thread .sp = taskPtRegs twoStacks false) :
    ∃ h, FirstReturn twoStacks forkLabels false thread s h := by
  have away : s.current ≠ false := by rw [current]; decide
  have started : 0 < (s.entries false).length := by
    rw [System.entries, new]
    exact Nat.one_pos
  have load : (switchTo (fun _ => thread) s.current false s.hart).2 = switchToLoad thread s.hart :=
    switchTo_load away s.hart
  obtain ⟨h, forked⟩ : ∃ h, retFromFork forkLabels (switchToLoad thread s.hart) = some h :=
    ⟨_, if_pos ((switchToLoad_spec thread s.hart).1.trans ra)⟩
  obtain ⟨switches, sp, supervisor⟩ := inside_of_switch kernel started forked
  have switched := Run.keeps nested_inside nested switches
  -- `schedule_tail` returns, and the task has no flags.
  let g : Hart .rv64 := { h with
    pc := h.gpr .ra
    gpr := Function.update h.gpr .tp 0
    mem := noFlags h.mem }
  have tail : Step twoStacks forkLabels.toSymbols { s with hart := h, current := false }
      { s with hart := g, current := false } :=
    .kernel g supervisor supervisor rfl fun t f member =>
      read_noFlags h.mem t (switched.suspended.offs_le member)
  have later := nested_step switched tail
  have sameSp : g.gpr .sp = h.gpr .sp := 
    @Function.update_of_ne Gpr _ _ .sp .tp (by decide) (0 : Word .rv64) h.gpr
  have top : g.gpr .sp = twoStacks.at false (threadSize - ptSize .rv64) := by
    rw [← taskPtRegs_eq, ← stack, ← sp]
    exact sameSp
  have status : frameWord g.mem (g.gpr .sp) .sstatus &&& srPs = 0 := by
    rw [top]
    have held := later.suspended.holds false _ (new ▸ List.mem_singleton_self _) .sstatus
    exact (congrArg (· &&& srPs) held).trans user
  have idle : threadFlags forkLabels.toSymbols g &&& tifWorkMask = 0 := by
    have info : g.mem.readWord XLen.rv64.szreg (g.gpr .tp + forkLabels.taskThreadInfo) = 0 :=
      readWord_noFlags h.mem (a := 0) (by omega)
    have flags : g.mem.readWord XLen.rv64.szreg (0 + tiFlags) = 0 :=
      readWord_noFlags h.mem (a := 8) (by omega)
    rw [threadFlags, info, flags]
    decide
  obtain ⟨h', exit⟩ := retFromException_leaves status idle
  have mode := (retFromException_left exit).mode
  rw [sretMode, if_pos status] at mode
  have returns : Returns twoStacks forkLabels false { s with hart := h, current := false }
      { s with hart := g, current := false } :=
    ⟨.single ⟨tail, started⟩, rfl, supervisor, sameSp, rfl⟩
  exact ⟨h', .intro .refl away kernel rfl (load ▸ forked) returns
    (.left (retFromFork_keeps forked).1 exit) new (List.forall_mem_nil _) mode⟩

/-- A child of a task that has no work to do before it comes to user mode -/
theorem exists_clones {s : System .rv64 Bool} (nested : Nested twoStacks s)
    (user : s.hart.mode = .user) (current : s.current = true) (new : s.frames false = [])
    (flags usp : Word .rv64) : ∃ h, Clones twoStacks forkLabels s false flags usp h := by
  have other : false ≠ s.current := by rw [current]; decide
  have entered := Run.keeps nested_step nested (run_ecall forkLabels nested user 0 0)
  have kernel := ecall_mode twoStacks forkLabels s 0 0
  have fresh : (s.ecall twoStacks forkLabels 0 0).frames false = [] :=
    (Function.update_of_ne other ..).trans new
  have copies := copies_ecall twoStacks forkLabels s 0 0
  have status := frameWord_ecall forkLabels nested user 0 0 .sstatus
  rw [Function.update_of_ne (by decide)] at status
  have same := copies.current
  generalize s.ecall twoStacks forkLabels 0 0 = u at *
  have forks : Step twoStacks forkLabels.toSymbols u (u.forked twoStacks false _) :=
    .fork false (childRegs flags usp (frameWord u.hart.mem (taskPtRegs twoStacks u.current)))
      kernel (same ▸ other) fresh
  have fork := nested_step entered forks
  have trapped : context (s.hart.trap 0 excSyscall 0) .sstatus
      = trapStatus .user (s.hart.csr .sstatus) := user ▸ context_trap_sstatus ..
  have fromUser : childRegs flags usp
      (frameWord u.hart.mem (taskPtRegs twoStacks u.current)) .sstatus &&& srPs = 0 := by
    rw [childRegs_apply, same]
    simp only [reduceCtorEq, if_false, false_and, status, trapped]
    have mode := sretMode_trapStatus .user (s.hart.csr .sstatus)
    rw [sretMode] at mode
    by_contra kernel
    rw [if_neg kernel] at mode
    cases mode
  have mode := (forked_keeps twoStacks u false (childRegs flags usp
    (frameWord u.hart.mem (taskPtRegs twoStacks u.current)))).1.trans kernel
  have task := (forked_keeps twoStacks u false (childRegs flags usp
    (frameWord u.hart.mem (taskPtRegs twoStacks u.current)))).2.trans (same.trans current)
  obtain ⟨h, first⟩ : ∃ h, FirstReturn twoStacks forkLabels false (copyThread twoStacks forkLabels
      u.current false false flags usp 0 0 u.hart.mem fun _ => 0).2 _ h :=
    exists_firstReturn fork mode task (forked_frames ..) fromUser (copyThread_thread ..).1
      (copyThread_thread ..).2
  exact ⟨h, copies.clones other fresh first⟩

/-- User code of a task that has no child yet -/
theorem exists_user (gpr : Gpr → Word .rv64) : ∃ s : System .rv64 Bool,
    Run (Step twoStacks forkLabels.toSymbols) started s ∧ s.hart.mode = .user ∧
      s.current = true ∧ s.frames false = [] ∧ s.hart.gpr = gpr := by
  rcases exit_switched with ⟨h, exit⟩
  have left : Step twoStacks nowhere switched _ :=
    .leave ⟨threadSize - ptSize .rv64, fun _ => 0, []⟩ [] h rfl rfl
      (taskPtRegs_eq twoStacks true) exit
  have mode : h.mode = .user := by
    rw [(retFromException_left exit).mode]
    exact congrArg sretMode (switched_readWord _)
  exact ⟨_, (run_switched.tail left).tail (.user gpr 0 mode), mode, rfl, rfl, rfl⟩

/-- A clone without a thread pointer, and one with a thread pointer that is in `a5` too, by the
theorem. -/
theorem clone_iff_settls : ∃ (s : System .rv64 Bool) (plain settls : Hart .rv64),
    Clones twoStacks forkLabels s false 0 0 plain ∧ ChildResumes twoStacks s false 0 0 plain ∧
    Clones twoStacks forkLabels s false cloneSettls 0 settls ∧
    ChildResumes twoStacks s false cloneSettls 0 settls ∧ settls.gpr .tp = 0x5000 := by
  have booted : Booted started := ⟨rfl, rfl, fun _ => rfl⟩
  obtain ⟨s, run, user, current, new, gpr⟩ := exists_user fun _ => 0x5000
  have nested := Run.keeps nested_step booted.nested run
  obtain ⟨plain, clones⟩ := exists_clones nested user current new 0 0
  obtain ⟨settls, clones'⟩ := exists_clones nested user current new cloneSettls 0
  have same : s.hart.gpr .x15 = s.hart.gpr .x13 := by rw [gpr]
  have resumes := (clone_iff booted run user clones').mpr (.inr same)
  refine ⟨s, plain, settls, clones, (clone_iff booted run user clones).mpr (.inl (by decide)),
    clones', resumes, ?_⟩
  rw [resumes.tp, if_pos (by decide), gpr]

/-- A clone with its thread pointer in the fourth argument, and something else in `a5` -/
theorem not_childResumes_settls : ¬ ∀ (boot s : System .rv64 Bool) (flags usp : Word .rv64)
    (h : Hart .rv64), Booted boot → Run (Step twoStacks forkLabels.toSymbols) boot s →
      s.hart.mode = .user → Clones twoStacks forkLabels s false flags usp h →
        ChildResumes twoStacks s false flags usp h := by
  intro always
  have booted : Booted started := ⟨rfl, rfl, fun _ => rfl⟩
  obtain ⟨s, run, user, current, new, gpr⟩ := exists_user fun r => if r = .x13 then 1 else 0
  have nested : Nested twoStacks s := Run.keeps nested_step booted.nested run
  obtain ⟨h, clones⟩ := exists_clones nested user current new cloneSettls 0
  have resumes := always started s cloneSettls 0 h booted run user clones
  rcases (clones.childResumes_iff nested user).mp resumes with none | same
  · exact absurd none (by decide)
  · rw [gpr] at same
    exact absurd same (by decide)

end RiscvLinux.Trap
