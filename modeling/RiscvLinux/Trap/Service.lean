import RiscvLinux.Trap.Contexts

/-!
# What a trap asks the kernel for

`handle_exception` from the choice of the handler to `sret`: the vector table, the table of the
system calls with the paths of a tracer, and the work that is done before the return to user mode.
The functions in C do what they like with the memory and with the `struct pt_regs`; they keep to the
calling convention.

`Ask` is the same without registers: what the kernel is asked for, from the `struct pt_regs`, the
flags of the thread and the results of the system calls. `service_refines` says that the code asks
for just that.
-/

namespace RiscvLinux.Trap.Service

open Lib Trap Contexts

variable {x : XLen}

/-! ## The code -/

/-- `__NR_syscalls`, and the labels of `entry.S`, with those that its calls return to -/
structure Labels (x : XLen) extends Symbols x where
  nrSyscalls : Nat
  nr_lt : nrSyscalls < 2 ^ x.bits
  excpVectTable : Word x
  table_fits : excpVectTable.toNat + x.szreg * 16 < 2 ^ x.bits
  sysCallTable : Word x
  sysNiSyscall : Word x
  doIrq : Word x
  doTrapUnknown : Word x
  doTrapInsnMisaligned : Word x
  doTrapInsnIllegal : Word x
  doTrapAmoMisaligned : Word x
  doTrapBreak : Word x
  doPageFault : Word x
  doSyscallTraceEnter : Word x
  doSyscallTraceExit : Word x
  doNotifyResume : Word x
  schedule : Word x
  traceEntered : Word x
  retFromSyscall : Word x
  traceExited : Word x

/-- `LGPTR` -/
def lgPtr : XLen → Nat
  | .rv32 => 2
  | .rv64 => 3

/-- `_TIF_SYSCALL_TRACE` -/
def tifSyscallTrace : Word x := 1

/-- The functions in C that `entry.S` goes to -/
inductive Callee
  | doIrq
  | trap
  | traceEnter
  | syscall
  | traceExit
  | schedule
  | doNotifyResume
  deriving DecidableEq

/-- Where the hart is: at the start of a function in C, at `ret_from_exception`, or behind `sret` -/
inductive At (x : XLen)
  | called (callee : Callee) (h : Hart x)
  | exit (h : Hart x)
  | left (h : Hart x)

section

variable (sym : Labels x)

/-- `handle_exception` for interrupts -/
def toIrq (h : Hart x) : Hart x :=
  let h := h.set .a0 (h.gpr .s4 <<< 1)
  let h := h.set .a0 (h.gpr .a0 >>> 1)
  let h := h.set .a1 (h.gpr .sp)
  { h with pc := sym.doIrq }

/-- `excp_vect_table` -/
def Labels.excpVect : List (Word x) :=
  [sym.doTrapInsnMisaligned, sym.doPageFault, sym.doTrapInsnIllegal, sym.doTrapUnknown,
    sym.doTrapUnknown, sym.doPageFault, sym.doTrapAmoMisaligned, sym.doPageFault,
    0, -- `handle_syscall`
    sym.doTrapBreak]

/-- `excp_vect_table_end` -/
def Labels.excpVectTableEnd : Word x := sym.excpVectTable + BitVec.ofNat _ (x.szreg * 10)

/-- `handle_exception` for the other exceptions -/
def toVector (h : Hart x) : Hart x :=
  let h := h.set .t0 (h.gpr .s4 <<< lgPtr x)
  let h := h.set .x6 sym.excpVectTable
  let h := h.set .x7 sym.excpVectTableEnd
  let h := h.set .a0 (h.gpr .sp)
  let h := h.set .t0 (h.gpr .x6 + h.gpr .t0)
  if h.gpr .x7 ≤ h.gpr .t0 then { h with pc := sym.doTrapUnknown }
  else
    let h := h.set .t0 (h.mem.readWord x.szreg (h.gpr .t0))
    { h with pc := h.gpr .t0 }

/-- The test of `_TIF_SYSCALL_TRACE`, before and after a system call -/
def testTrace (h : Hart x) : Hart x :=
  let h := h.set .t0 (h.mem.readWord x.szreg (h.gpr .tp + sym.taskThreadInfo))
  let h := h.set .t0 (h.mem.readWord x.szreg (h.gpr .t0 + tiFlags))
  h.set .t0 (h.gpr .t0 &&& tifSyscallTrace)

/-- `check_syscall_nr` -/
def checkSyscallNr (h : Hart x) : Hart x :=
  let h := h.set .t0 (BitVec.ofNat _ sym.nrSyscalls)
  let h := h.set .s0 sym.sysNiSyscall
  let h :=
    if h.gpr .t0 ≤ h.gpr .x17 then h
    else
      let h := h.set .s0 sym.sysCallTable
      let h := h.set .t0 (h.gpr .x17 <<< lgPtr x)
      let h := h.set .s0 (h.gpr .s0 + h.gpr .t0)
      h.set .s0 (h.mem.readWord x.szreg (h.gpr .s0))
  { h.set .ra sym.retFromSyscall with pc := h.gpr .s0 }

/-- `handle_syscall_trace_enter`, up to its call -/
def traceEnter (h : Hart x) : Hart x :=
  let h := h.set .a0 (h.gpr .sp)
  { h.set .ra sym.traceEntered with pc := sym.doSyscallTraceEnter }

/-- The registers that it loads again -/
def argumentRegs : List (Gpr × PtReg) :=
  [(.x10, .a0), (.x11, .a1), (.x12, .a2), (.x13, .a3), (.x14, .a4), (.x15, .a5), (.x16, .a6),
    (.x17, .a7)]

/-- `handle_syscall_trace_enter`, from there on -/
def traceEntered (h : Hart x) : Hart x :=
  checkSyscallNr sym (argumentRegs.foldl (fun h p => h.regL p.1 p.2) h)

/-- `handle_syscall` -/
def toSyscall (h : Hart x) : At x :=
  let h := testTrace sym (handleSyscall h)
  if h.gpr .t0 ≠ 0 then .called .traceEnter (traceEnter sym h)
  else .called .syscall (checkSyscallNr sym h)

/-- `handle_syscall_trace_exit`, up to its call -/
def traceExit (h : Hart x) : Hart x :=
  let h := h.set .a0 (h.gpr .sp)
  { h.set .ra sym.traceExited with pc := sym.doSyscallTraceExit }

/-- `ret_from_syscall` -/
def retFromSyscall (h : Hart x) : At x :=
  let h := testTrace sym (h.regS .a0 .a0)
  if h.gpr .t0 ≠ 0 then .called .traceExit (traceExit sym h) else .exit h

/-- `handle_exception`, from the choice of the handler on -/
def dispatch (h : Hart x) : At x :=
  match handler h with
  | .doIrq => .called .doIrq (toIrq sym h)
  | .handleSyscall => toSyscall sym h
  | .excpVect => .called .trap (toVector sym h)

/-- A function in C has returned. -/
def resume : Callee → Hart x → At x
  | .traceEnter, h => .called .syscall (traceEntered sym h)
  | .syscall, h => retFromSyscall sym h
  | .doIrq, h | .trap, h | .traceExit, h | .schedule, h | .doNotifyResume, h => .exit h

/-- `ret_from_exception`, to `sret` or to the work that there is to do -/
def leave (h : Hart x) : At x :=
  match retFromException sym.toSymbols h with
  | .left h => .left h
  | .work h =>
    if h.gpr .s1 ≠ 0 then .called .schedule { h with pc := sym.schedule }
    else .called .doNotifyResume { h with pc := sym.doNotifyResume }

/-- The tables are constants. -/
structure Rodata (sysCall : Nat → Word x) (m : Memory x.bits) : Prop where
  excp : ∀ i < 10, m.readWord x.szreg (field x.szreg sym.excpVectTable i)
    = sym.excpVect.getD i sym.doTrapUnknown
  sys : ∀ i < sym.nrSyscalls, m.readWord x.szreg (field x.szreg sym.sysCallTable i) = sysCall i

end

/-- The labels, and the functions in `sys_call_table` -/
structure Kernel (x : XLen) extends Labels x where
  sysCall : Nat → Word x

/-- What a function in C may do: it returns, with the task pointer, and leaves the constants. -/
structure Serves (k : Kernel x) (called returned : Hart x) : Prop where
  returns : CallReturns called returned
  tp : returned.gpr .tp = called.gpr .tp
  rodata : Rodata k.toLabels k.sysCall returned.mem

/-- What the other harts may do to the memory: not to the structure at `sp`, nor to constants -/
structure Shares (k : Kernel x) (sp : Word x) (m m' : Memory x.bits) : Prop where
  frame : frameWord m' sp = frameWord m sp
  rodata : Rodata k.toLabels k.sysCall m'

/-- What the kernel finds when it goes on: the structure, the result of the function, the flags -/
structure Seen (x : XLen) where
  regs : PtRegs x
  result : Word x
  flags : Word x

/-- What it finds when a function has returned. `ret_from_syscall` reads the flags after its
store. -/
def seen (sym : Symbols x) (callee : Callee) (h : Hart x) : Seen x where
  regs := frameWord h.mem (h.gpr .sp)
  result := h.gpr .a0
  flags := threadFlags sym (if callee = .syscall then h.regS .a0 .a0 else h)

/-- A step, with what has been found so far: a function in C runs and returns, or the way out is
taken. -/
inductive Step (k : Kernel x) : At x × List (Seen x) → At x × List (Seen x) → Prop
  | serve (callee : Callee) {h g : Hart x} {found : List (Seen x)} (serves : Serves k h g) :
    Step k (.called callee h, found)
      (resume k.toLabels callee g, found ++ [seen k.toSymbols callee g])
  | exit {h : Hart x} {m : Memory x.bits} {found : List (Seen x)}
    (shares : Shares k (h.gpr .sp) h.mem m) :
    Step k (.exit h, found)
      (leave k.toLabels { h with mem := m }, found ++
        [⟨frameWord m (h.gpr .sp), h.gpr .a0, threadFlags k.toSymbols { h with mem := m }⟩])

/-! ## Without registers -/

/-- What the kernel is asked for. A handler is named by its address. -/
inductive Request (x : XLen)
  | doIrq (cause : Word x)
  | trap (handler : Word x)
  | traceEnter
  | syscall (function : Word x) (arguments : List (Word x))
  | traceExit
  | schedule
  | doNotifyResume (flags : Word x)

/-- The kernel is asked for something, with a `struct pt_regs`; nothing is left to ask for but the
work before the return; or the task goes on with these registers. -/
inductive Ask (x : XLen)
  | asked (request : Request x) (regs : PtRegs x)
  | exiting (regs : PtRegs x)
  | done (regs : PtRegs x)

namespace Ask

variable (k : Kernel x)

/-- The handler of an exception -/
def vector (cause : Word x) : Word x :=
  k.excpVect.getD cause.toNat k.doTrapUnknown

/-- The function of a system call -/
def function (nr : Word x) : Word x :=
  if nr.toNat < k.nrSyscalls then k.sysCall nr.toNat else k.sysNiSyscall

/-- A system call, with the number and the arguments that the structure has -/
def syscall (regs : PtRegs x) : Ask x :=
  .asked (.syscall (function k (regs .a7)) [regs .a0, regs .a1, regs .a2, regs .a3, regs .a4,
    regs .a5]) regs

/-- What a trap starts with -/
def start (regs : PtRegs x) (flags : Word x) : Ask x :=
  if (regs .scause).slt 0 then
    .asked (.doIrq (BitVec.ofNat _ ((regs .scause).toNat % 2 ^ (x.bits - 1)))) regs
  else if regs .scause = excSyscall then
    let regs := Function.update regs .sepc (regs .sepc + 4)
    if flags &&& tifSyscallTrace ≠ 0 then .asked .traceEnter regs else syscall k regs
  else .asked (.trap (vector k (regs .scause))) regs

/-- What comes after a request -/
def next (found : Seen x) : Request x → Ask x
  | .traceEnter => syscall k found.regs
  | .syscall .. =>
    let regs := Function.update found.regs .a0 found.result
    if found.flags &&& tifSyscallTrace ≠ 0 then .asked .traceExit regs else .exiting regs
  | .doIrq _ | .trap _ | .traceExit | .schedule | .doNotifyResume _ => .exiting found.regs

/-- The way out: to the kernel at once, to user mode when no work is left -/
def leave (regs : PtRegs x) (flags : Word x) : Ask x :=
  if regs .sstatus &&& srPs ≠ 0 ∨ flags &&& tifWorkMask = 0 then .done regs
  else if flags &&& tifNeedResched ≠ 0 then .asked .schedule regs
  else .asked (.doNotifyResume flags) regs

/-- What comes next, with what is found then -/
def step : Ask x → Seen x → Ask x
  | .asked request _, found => next k found request
  | .exiting regs, found => leave regs found.flags
  | .done regs, _ => .done regs

end Ask

/-! ## The instructions -/

section

variable (k : Kernel x) (h : Hart x)

/-- A shift by `LGPTR` is the offset of an entry. -/
theorem shift_lgPtr (v : Word x) : v <<< lgPtr x = BitVec.ofNat x.bits (x.szreg * v.toNat) := by
  refine BitVec.eq_of_toNat_eq ?_
  rw [BitVec.toNat_shiftLeft, BitVec.toNat_ofNat, Nat.shiftLeft_eq, Nat.mul_comm]
  cases x <;> rfl

/-- The test of the flag changes one temporary. -/
theorem testTrace_spec (sym : Labels x) : (testTrace sym h).mem = h.mem ∧
    (testTrace sym h).gpr .t0 = threadFlags sym.toSymbols h &&& tifSyscallTrace ∧
    ∀ r, r ≠ .t0 → (testTrace sym h).gpr r = h.gpr r := by
  refine ⟨rfl, ?_, fun r other => ?_⟩
  · simp [testTrace, threadFlags]
  · simp [testTrace, Hart.gpr_set_ne _ _ other]

theorem toIrq_spec (sym : Labels x) : (toIrq sym h).mem = h.mem ∧ (toIrq sym h).pc = sym.doIrq ∧
    (toIrq sym h).gpr .a0 = BitVec.ofNat _ ((h.gpr .s4).toNat % 2 ^ (x.bits - 1)) ∧
    (toIrq sym h).gpr .a1 = h.gpr .sp ∧ ∀ r, r ≠ .a0 → r ≠ .a1 → (toIrq sym h).gpr r = h.gpr r := by
  refine ⟨rfl, rfl, ?_, ?_, fun r first second => ?_⟩
  · have cause : h.gpr .s4 <<< 1 >>> 1
        = BitVec.ofNat _ ((h.gpr .s4).toNat % 2 ^ (x.bits - 1)) := by
      refine BitVec.eq_of_toNat_eq ?_
      have below := (h.gpr .s4).isLt
      rw [BitVec.toNat_ushiftRight, BitVec.toNat_shiftLeft, BitVec.toNat_ofNat, Nat.shiftLeft_eq,
        Nat.shiftRight_eq_div_pow]
      cases x
      · change _ * 2 ^ 1 % 2 ^ 32 / 2 ^ 1 = _ % 2 ^ 31 % 2 ^ 32
        omega
      · change _ * 2 ^ 1 % 2 ^ 64 / 2 ^ 1 = _ % 2 ^ 63 % 2 ^ 64
        omega
    simpa [toIrq, Hart.gpr_set_ne] using cause
  · simp [toIrq, Hart.gpr_set_ne]
  · simp [toIrq, Hart.gpr_set_ne _ _ first, Hart.gpr_set_ne _ _ second]

variable {k h}

/-- The way through the vector table: a cause has four bits. -/
theorem toVector_spec (rodata : Rodata k.toLabels k.sysCall h.mem)
    (cause : (h.gpr .s4).toNat < 16) : (toVector k.toLabels h).mem = h.mem ∧
    (toVector k.toLabels h).pc = Ask.vector k (h.gpr .s4) ∧
    (toVector k.toLabels h).gpr .a0 = h.gpr .sp ∧
    ∀ r, r ≠ .t0 → r ≠ .x6 → r ≠ .x7 → r ≠ .a0 → (toVector k.toLabels h).gpr r = h.gpr r := by
  have fits := k.table_fits
  have entry : k.excpVectTable + h.gpr .s4 <<< lgPtr x
      = field x.szreg k.excpVectTable (h.gpr .s4).toNat := by rw [shift_lgPtr, field]
  have inside (i : Nat) (small : i < 16) :
      (field x.szreg k.excpVectTable i).toNat = k.excpVectTable.toNat + x.szreg * i := by
    have less : x.szreg * i < x.szreg * 16 := Nat.mul_lt_mul_of_pos_left small x.szreg_pos
    have offset : x.szreg * i % 2 ^ x.bits = x.szreg * i := Nat.mod_eq_of_lt (by omega)
    rw [field, BitVec.toNat_add, BitVec.toNat_ofNat, offset, Nat.mod_eq_of_lt (by omega)]
  have bound : k.excpVectTableEnd ≤ field x.szreg k.excpVectTable (h.gpr .s4).toNat ↔
      10 ≤ (h.gpr .s4).toNat := by
    have last : k.excpVectTableEnd = field x.szreg k.excpVectTable 10 := rfl
    rw [BitVec.le_def, last, inside 10 (by decide), inside _ cause, Nat.add_le_add_iff_left]
    exact Nat.mul_le_mul_left_iff x.szreg_pos
  rw [← entry] at bound
  rcases Nat.lt_or_ge (h.gpr .s4).toNat 10 with small | large
  · have read := rodata.excp _ small
    have within := mt bound.mp (Nat.not_le.mpr small)
    rw [← entry] at read
    refine ⟨?_, ?_, ?_, fun r t0 x6 x7 a0 => ?_⟩
    · simp [toVector, Hart.gpr_set_ne, within]
    · simp [toVector, Hart.gpr_set_ne, within, read, Ask.vector]
    · simp [toVector, Hart.gpr_set_ne, within]
    · simp [toVector, Hart.gpr_set_ne, within, t0, x6, x7, a0]
  · have beyond := bound.mpr large
    refine ⟨?_, ?_, ?_, fun r t0 x6 x7 a0 => ?_⟩
    · simp [toVector, Hart.gpr_set_ne, beyond]
    · rw [Ask.vector, List.getD_eq_default _ _ large]
      simp [toVector, Hart.gpr_set_ne, beyond]
    · simp [toVector, Hart.gpr_set_ne, beyond]
    · simp [toVector, Hart.gpr_set_ne, beyond, t0, x6, x7, a0]

/-- The choice of the function of a system call -/
theorem checkSyscallNr_spec (rodata : Rodata k.toLabels k.sysCall h.mem) :
    (checkSyscallNr k.toLabels h).mem = h.mem ∧
    (checkSyscallNr k.toLabels h).pc = Ask.function k (h.gpr .x17) ∧
    (checkSyscallNr k.toLabels h).gpr .ra = k.retFromSyscall ∧
    ∀ r, r ≠ .t0 → r ≠ .s0 → r ≠ .ra → (checkSyscallNr k.toLabels h).gpr r = h.gpr r := by
  have entry : k.sysCallTable + h.gpr .x17 <<< lgPtr x
      = field x.szreg k.sysCallTable (h.gpr .x17).toNat := by rw [shift_lgPtr, field]
  have bound : BitVec.ofNat x.bits k.nrSyscalls ≤ h.gpr .x17 ↔
      k.nrSyscalls ≤ (h.gpr .x17).toNat := by
    rw [BitVec.le_def, BitVec.toNat_ofNat, Nat.mod_eq_of_lt k.nr_lt]
  rcases Nat.lt_or_ge (h.gpr .x17).toNat k.nrSyscalls with small | large
  · have read := rodata.sys _ small
    have within := mt bound.mp (Nat.not_le.mpr small)
    rw [← entry] at read
    refine ⟨?_, ?_, ?_, fun r t0 s0 ra => ?_⟩
    · simp [checkSyscallNr, Hart.gpr_set_ne, within]
    · simp [checkSyscallNr, Hart.gpr_set_ne, within, read, Ask.function, small]
    · simp [checkSyscallNr]
    · simp [checkSyscallNr, Hart.gpr_set_ne, within, t0, s0, ra]
  · have beyond := bound.mpr large
    refine ⟨?_, ?_, ?_, fun r t0 s0 ra => ?_⟩
    · simp [checkSyscallNr, Hart.gpr_set_ne, beyond]
    · simp [checkSyscallNr, Hart.gpr_set_ne, beyond, Ask.function, Nat.not_lt.mpr large]
    · simp [checkSyscallNr]
    · simp [checkSyscallNr, Hart.gpr_set_ne, beyond, t0, s0, ra]

/-- The registers that come back from the structure after a tracer has been there -/
theorem traceEntered_loads : let g := argumentRegs.foldl (fun h p => h.regL p.1 p.2) h
    g.mem = h.mem ∧ (∀ p ∈ argumentRegs, g.gpr p.1 = frameWord h.mem (h.gpr .sp) p.2) ∧
    g.gpr .sp = h.gpr .sp ∧ g.gpr .tp = h.gpr .tp := by
  have fields : ∀ p ∈ argumentRegs, p.1 ≠ .sp ∧ p.2 = p.1.slot := by decide
  obtain ⟨loaded, sp, -, mem⟩ := foldl_regL fields h
  refine ⟨mem, fun p member => ?_, sp, ?_⟩
  · rw [loaded p.1 (.inl (List.mem_map_of_mem member)), ← (fields p member).2]
  · simp [argumentRegs, Hart.regL, Hart.gpr_set_ne]

/-- The work before the return: `schedule` is called, or `do_notify_resume` with the structure and
the flags. -/
theorem workPending_spec (sym : Symbols x) (h : Hart x) : (workPending sym h).mem = h.mem ∧
    (workPending sym h).gpr .sp = h.gpr .sp ∧ (workPending sym h).gpr .tp = h.gpr .tp ∧
    (workPending sym h).gpr .ra = sym.retFromException ∧
    (workPending sym h).gpr .s1 = h.gpr .s0 &&& tifNeedResched ∧
    (h.gpr .s0 &&& tifNeedResched = 0 →
      (workPending sym h).gpr .a0 = h.gpr .sp ∧ (workPending sym h).gpr .a1 = h.gpr .s0) := by
  simp only [workPending, Hart.gpr_set_same, ne_eq,
    Hart.gpr_set_ne h sym.retFromException (by decide : Gpr.s0 ≠ .ra)]
  by_cases resched : h.gpr .s0 &&& tifNeedResched = 0
  · rw [if_neg (not_not.mpr resched)]
    simp [Hart.gpr_set_ne, Hart.csrs, resched]
  · rw [if_pos resched]
    refine ⟨rfl, ?_, ?_, ?_, ?_, fun none => absurd none resched⟩
    all_goals simp [Hart.gpr_set_ne]

/-- The flags as `resume_userspace` leaves them in registers -/
def flagsRead (sym : Symbols x) (h : Hart x) : Hart x :=
  let h := h.set .s0 (h.mem.readWord x.szreg (h.gpr .tp + sym.taskThreadInfo))
  let h := h.set .s0 (h.mem.readWord x.szreg (h.gpr .s0 + tiFlags))
  h.set .s1 (h.gpr .s0 &&& tifWorkMask)

theorem flagsRead_spec (sym : Symbols x) (h : Hart x) : (flagsRead sym h).mem = h.mem ∧
    (flagsRead sym h).gpr .s0 = threadFlags sym h ∧
    (flagsRead sym h).gpr .s1 = threadFlags sym h &&& tifWorkMask ∧
    (flagsRead sym h).gpr .sp = h.gpr .sp ∧ (flagsRead sym h).gpr .tp = h.gpr .tp := by
  simp [flagsRead, threadFlags, Hart.gpr_set_ne]

/-- How `ret_from_exception` ends: it leaves the trap, or goes on to the work that there is. -/
theorem retFromException_cases (sym : Symbols x) (h : Hart x) :
    ((frameWord h.mem (h.gpr .sp) .sstatus &&& srPs ≠ 0 ∨ threadFlags sym h &&& tifWorkMask = 0) ∧
      ∃ h', retFromException sym h = .left h') ∨
    (frameWord h.mem (h.gpr .sp) .sstatus &&& srPs = 0 ∧ threadFlags sym h &&& tifWorkMask ≠ 0 ∧
      ∃ g, retFromException sym h = .work (workPending sym g) ∧ g.mem = h.mem ∧
        g.gpr .sp = h.gpr .sp ∧ g.gpr .tp = h.gpr .tp ∧ g.gpr .s0 = threadFlags sym h) := by
  obtain ⟨sp, mem, -⟩ := retFromExceptionTest_keeps h
  have status := retFromExceptionTest_s0 h
  have tp : (retFromExceptionTest h).gpr .tp = h.gpr .tp := by
    simp [retFromExceptionTest, Hart.regL, Hart.csrc, Hart.gpr_set_ne]
  by_cases kernel : frameWord h.mem (h.gpr .sp) .sstatus &&& srPs = 0
  · by_cases idle : threadFlags sym h &&& tifWorkMask = 0
    · exact .inl ⟨.inr idle, retFromException_leaves kernel idle⟩
    · obtain ⟨mem', s0, s1, sp', tp'⟩ := flagsRead_spec sym (retFromExceptionTest h)
      have flags : threadFlags sym (retFromExceptionTest h) = threadFlags sym h := by
        rw [threadFlags, threadFlags, mem, tp]
      rw [flags] at s0 s1
      refine .inr ⟨kernel, idle, flagsRead sym (retFromExceptionTest h), ?_, mem'.trans mem,
        sp'.trans sp, tp'.trans tp, s0⟩
      rw [retFromException, if_neg (by rw [status]; exact not_not.mpr kernel)]
      exact if_pos (by rwa [← s1] at idle)
  · exact .inl ⟨.inl kernel, _, if_pos (by rwa [status])⟩

end

/-! ## What the hart has to do with what is asked for -/

namespace Request

/-- The function that it asks for -/
def callee : Request x → Callee
  | .doIrq _ => .doIrq
  | .trap _ => .trap
  | .traceEnter => .traceEnter
  | .syscall .. => .syscall
  | .traceExit => .traceExit
  | .schedule => .schedule
  | .doNotifyResume _ => .doNotifyResume

/-- Its address -/
def target (k : Kernel x) : Request x → Word x
  | .doIrq _ => k.doIrq
  | .trap handler => handler
  | .traceEnter => k.doSyscallTraceEnter
  | .syscall function _ => function
  | .traceExit => k.doSyscallTraceExit
  | .schedule => k.schedule
  | .doNotifyResume _ => k.doNotifyResume

/-- Its arguments, with the `struct pt_regs` at `p` -/
def arguments (p : Word x) : Request x → List (Word x)
  | .doIrq cause => [cause, p]
  | .trap _ | .traceEnter | .traceExit => [p]
  | .syscall _ arguments => arguments
  | .schedule => []
  | .doNotifyResume flags => [p, flags]

end Request

/-- Where the code that goes on after a function is -/
def link (sym : Labels x) : Callee → Word x
  | .traceEnter => sym.traceEntered
  | .syscall => sym.retFromSyscall
  | .traceExit => sym.traceExited
  | .doIrq | .trap | .schedule | .doNotifyResume => sym.retFromException

/-- The hart is in the kernel, with the structure at `p` on its stack. -/
structure On (k : Kernel x) (p t : Word x) (regs : PtRegs x) (h : Hart x) : Prop where
  sp : h.gpr .sp = p
  tp : h.gpr .tp = t
  frame : frameWord h.mem p = regs
  rodata : Rodata k.toLabels k.sysCall h.mem

/-- The hart is at the start of a function, as its caller. -/
structure Calls (k : Kernel x) (p : Word x) (request : Request x) (callee : Callee) (h : Hart x) :
    Prop where
  function : callee = request.callee
  pc : h.pc = request.target k
  arguments : request.arguments p <+: [Gpr.x10, .x11, .x12, .x13, .x14, .x15].map h.gpr
  ra : h.gpr .ra = link k.toLabels callee

/-- The hart has gone on with these registers. -/
structure Resumed (p : Word x) (regs : PtRegs x) (h : Hart x) : Prop where
  gpr : ∀ r, h.gpr r = regs r.slot
  pc : h.pc = regs .sepc
  mode : h.mode = sretMode (regs .sstatus)
  sstatus : h.csr .sstatus = sretStatus (regs .sstatus)
  sscratch : h.mode = .user → h.csr .sscratch = p + BitVec.ofNat x.bits (ptSize x)

/-- The hart does what is asked for. -/
inductive Sim (k : Kernel x) (p t : Word x) : At x → Ask x → Prop
  | asked {callee : Callee} {h : Hart x} {request : Request x} {regs : PtRegs x}
    (on : On k p t regs h) (calls : Calls k p request callee h) :
    Sim k p t (.called callee h) (.asked request regs)
  | exiting {h : Hart x} {regs : PtRegs x} (on : On k p t regs h) :
    Sim k p t (.exit h) (.exiting regs)
  | done {h : Hart x} {regs : PtRegs x} (resumed : Resumed p regs h) :
    Sim k p t (.left h) (.done regs)

/-- The structure is not where the tables are. -/
structure Placed (k : Kernel x) (p : Word x) : Prop where
  excp : Apart p (ptSize x) k.excpVectTable (x.szreg * 10)
  sys : Apart p (ptSize x) k.sysCallTable (x.szreg * k.nrSyscalls)

section

variable {k : Kernel x} {p t : Word x} {regs : PtRegs x} {h g : Hart x}

/-- Writes to the structure leave the tables. -/
theorem Rodata.of_same {sym : Labels x} {sysCall : Nat → Word x} {m m' : Memory x.bits}
    (rodata : Rodata sym sysCall m)
    (excp : m'.read sym.excpVectTable (x.szreg * 10) = m.read sym.excpVectTable (x.szreg * 10))
    (sys : m'.read sym.sysCallTable (x.szreg * sym.nrSyscalls)
      = m.read sym.sysCallTable (x.szreg * sym.nrSyscalls)) : Rodata sym sysCall m' := by
  refine ⟨fun i small => ?_, fun i small => ?_⟩
  · rw [← rodata.excp i small, Memory.readWord, Memory.readWord, m'.read_field _ small,
      m.read_field _ small, excp]
  · rw [← rodata.sys i small, Memory.readWord, Memory.readWord, m'.read_field _ small,
      m.read_field _ small, sys]

/-- A store to a field of the structure -/
theorem On.regS (placed : Placed k p) (on : On k p t regs h) (rs : Gpr) (r : PtReg) :
    On k p t (Function.update regs r (h.gpr rs)) (h.regS rs r) := by
  have apart {b : Word x} {n : Nat} (far : Apart p (ptSize x) b n) :
      (h.regS rs r).mem.read b n = h.mem.read b n := by
    have here : Apart (field x.szreg p r.index) x.szreg b n := far.field x.szreg_pos r.index_lt
    rw [Hart.regS, on.sp]
    exact Memory.read_write_apart (by rwa [length_toBytes])
  refine ⟨on.sp, on.tp, ?_, on.rodata.of_same (apart placed.excp) (apart placed.sys)⟩
  rw [← on.frame, ← on.sp]
  exact frameWord_writeWord h.mem (h.gpr .sp) (h.gpr rs) r

/-- Other registers do not matter. -/
theorem On.of_same (on : On k p t regs h) (mem : g.mem = h.mem) (sp : g.gpr .sp = h.gpr .sp)
    (tp : g.gpr .tp = h.gpr .tp) : On k p t regs g :=
  ⟨sp.trans on.sp, tp.trans on.tp, by rw [mem, on.frame], by rw [mem]; exact on.rodata⟩

/-- The choice of the function of a system call, with the arguments in the registers -/
theorem sim_syscall (on : On k p t regs h)
    (loaded : ∀ q ∈ argumentRegs, h.gpr q.1 = regs q.2) :
    Sim k p t (.called .syscall (checkSyscallNr k.toLabels h)) (Ask.syscall k regs) := by
  obtain ⟨mem, pc, ra, kept⟩ := checkSyscallNr_spec on.rodata
  have number := loaded (.x17, .a7) (by decide)
  refine .asked (on.of_same mem (kept _ (by decide) (by decide) (by decide))
    (kept _ (by decide) (by decide) (by decide))) ⟨rfl, ?_, ?_, ra⟩
  · rw [pc, number]
    rfl
  · refine ⟨[], ?_⟩
    rw [List.append_nil]
    have same : ∀ q ∈ argumentRegs.take 6, (checkSyscallNr k.toLabels h).gpr q.1 = regs q.2 := by
      intro q member
      obtain ⟨t0, s0, ra⟩ := (by decide : ∀ q ∈ argumentRegs.take 6,
        q.1 ≠ .t0 ∧ q.1 ≠ .s0 ∧ q.1 ≠ .ra) q member
      exact (kept q.1 t0 s0 ra).trans (loaded q (List.mem_of_mem_take member))
    exact (List.map_congr_left same).symm

/-- A tracer is called, before or after a system call. -/
theorem sim_trace {callee : Callee} {request : Request x} {target back : Word x}
    (on : On k p t regs h) (function : callee = request.callee) (entry : target = request.target k)
    (one : request.arguments p = [p]) (returns : back = link k.toLabels callee) :
    Sim k p t (.called callee { (h.set .a0 (h.gpr .sp)).set .ra back with pc := target })
      (.asked request regs) := by
  refine .asked (on.of_same rfl ?_ ?_) ⟨function, entry, ?_, ?_⟩
  · simp [Hart.gpr_set_ne]
  · simp [Hart.gpr_set_ne]
  · rw [one, ← on.sp]
    simp [Hart.gpr_set_ne]
  · rw [← returns]
    simp

/-- `handle_syscall`, up to the tests of the thread flags -/
theorem on_handleSyscall (placed : Placed k p) (on : On k p t regs h)
    (sepc : h.gpr .s2 = regs .sepc) :
    On k p t (Function.update regs .sepc (regs .sepc + 4)) (handleSyscall h) ∧
      ∀ r, r ≠ .s2 → (handleSyscall h).gpr r = h.gpr r := by
  have moved : On k p t regs (h.set .s2 (h.gpr .s2 + 4)) :=
    on.of_same rfl (Hart.gpr_set_ne h _ (by decide)) (Hart.gpr_set_ne h _ (by decide))
  have stored := moved.regS placed .s2 .sepc
  rw [Hart.gpr_set_same, sepc] at stored
  refine ⟨stored.of_same ?_ ?_ ?_, fun r other => ?_⟩
  · rw [handleSyscall, sepc]
    rfl
  · rw [handleSyscall, sepc]
    rfl
  · rw [handleSyscall, sepc]
    rfl
  · exact Hart.gpr_set_ne h _ other

/-- The way of a system call through `handle_exception` -/
theorem sim_toSyscall (placed : Placed k p) (on : On k p t regs h)
    (saved : ∀ q ∈ argumentRegs, h.gpr q.1 = regs q.2) (sepc : h.gpr .s2 = regs .sepc) :
    Sim k p t (toSyscall k.toLabels h)
      (if threadFlags k.toSymbols (handleSyscall h) &&& tifSyscallTrace ≠ 0 then
        .asked .traceEnter (Function.update regs .sepc (regs .sepc + 4))
      else Ask.syscall k (Function.update regs .sepc (regs .sepc + 4))) := by
  obtain ⟨handled, kept⟩ := on_handleSyscall placed on sepc
  obtain ⟨mem, flags, others⟩ := testTrace_spec (handleSyscall h) k.toLabels
  have tested := handled.of_same mem (others _ (by decide)) (others _ (by decide))
  rw [toSyscall]
  simp only [flags]
  split
  · exact sim_trace tested rfl rfl rfl rfl
  · refine sim_syscall tested fun q member => ?_
    obtain ⟨t0, s2, differ⟩ := (by decide : ∀ q ∈ argumentRegs,
      q.1 ≠ .t0 ∧ q.1 ≠ .s2 ∧ q.2 ≠ .sepc) q member
    rw [others _ t0, kept _ s2, Function.update_of_ne differ]
    exact saved q member

/-- The way through `handle_exception` -/
theorem sim_dispatch (placed : Placed k p) (on : On k p t regs h)
    (saved : ∀ q ∈ argumentRegs, h.gpr q.1 = regs q.2) (sepc : h.gpr .s2 = regs .sepc)
    (scause : h.gpr .s4 = regs .scause) (ra : h.gpr .ra = k.retFromException)
    (codes : (regs .scause).slt 0 = false → (regs .scause).toNat < 16) :
    Sim k p t (dispatch k.toLabels h)
      (Ask.start k regs (threadFlags k.toSymbols (handleSyscall h))) := by
  rw [dispatch, handler, Ask.start, scause]
  by_cases interrupt : (regs .scause).slt 0 = true
  · rw [if_pos interrupt, if_pos interrupt]
    obtain ⟨mem, pc, a0, a1, others⟩ := toIrq_spec h k.toLabels
    have kept {r : Gpr} (first : r ≠ .a0) (second : r ≠ .a1) :
        (toIrq k.toLabels h).gpr r = h.gpr r := others r first second
    refine .asked (on.of_same mem (kept (by decide) (by decide)) (kept (by decide) (by decide)))
      ⟨rfl, pc, ?_, (kept (by decide) (by decide)).trans ra⟩
    rw [scause] at a0
    rw [on.sp] at a1
    exact ⟨_, by rw [Request.arguments, List.map_cons, List.map_cons, a0, a1]; rfl⟩
  rw [if_neg interrupt, if_neg interrupt]
  by_cases ecall : regs .scause = excSyscall
  · rw [if_pos ecall, if_pos ecall]
    exact sim_toSyscall placed on saved sepc
  · rw [if_neg ecall, if_neg ecall]
    have code := codes (Bool.eq_false_iff.mpr interrupt)
    obtain ⟨mem, pc, a0, others⟩ := toVector_spec on.rodata (scause ▸ code)
    have kept {r : Gpr} (t0 : r ≠ .t0) (x6 : r ≠ .x6) (x7 : r ≠ .x7) (a0 : r ≠ .a0) :
        (toVector k.toLabels h).gpr r = h.gpr r := others r t0 x6 x7 a0
    refine .asked (on.of_same mem (kept (by decide) (by decide) (by decide) (by decide))
      (kept (by decide) (by decide) (by decide) (by decide)))
      ⟨rfl, ?_, ?_, (kept (by decide) (by decide) (by decide) (by decide)).trans ra⟩
    · rw [pc, scause]
      rfl
    · rw [on.sp] at a0
      exact ⟨_, by rw [Request.arguments, List.map_cons, a0]; rfl⟩

/-- What comes after a function -/
theorem sim_resume (placed : Placed k p) (on : On k p t regs h) {request : Request x}
    {callee : Callee} (calls : Calls k p request callee h) (serves : Serves k h g) :
    Sim k p t (resume k.toLabels callee g) (Ask.next k (seen k.toSymbols callee g) request) := by
  have sp : g.gpr .sp = p :=
    (serves.returns.saved (.sp, .sp) (by decide) (by decide)).trans on.sp
  have back : On k p t (frameWord g.mem (g.gpr .sp)) g :=
    ⟨sp, serves.tp.trans on.tp, by rw [sp], serves.rodata⟩
  rcases calls with ⟨rfl, -, -, -⟩
  cases request with
  | doIrq | trap | traceExit | schedule | doNotifyResume => exact .exiting back
  | traceEnter =>
    obtain ⟨mem, loaded, sp', tp'⟩ := traceEntered_loads (h := g)
    exact sim_syscall (back.of_same mem sp' tp') loaded
  | syscall function arguments =>
    have stored := back.regS placed .a0 .a0
    obtain ⟨mem, flags, others⟩ := testTrace_spec (g.regS .a0 .a0) k.toLabels
    have tested := stored.of_same mem (others _ (by decide)) (others _ (by decide))
    have found : (seen k.toSymbols .syscall g).flags = threadFlags k.toSymbols (g.regS .a0 .a0) :=
      rfl
    simp only [Request.callee, resume, retFromSyscall, Ask.next, flags, found]
    split
    · exact sim_trace tested rfl rfl rfl rfl
    · exact .exiting tested

/-- The way out -/
theorem sim_leave (on : On k p t regs h) :
    Sim k p t (leave k.toLabels h) (Ask.leave regs (threadFlags k.toSymbols h)) := by
  have status : frameWord h.mem (h.gpr .sp) = regs := by rw [on.sp, on.frame]
  rcases retFromException_cases k.toSymbols h with ⟨out, h', exit⟩ | ⟨user, busy, g, exit, rest⟩
  · rw [status] at out
    obtain ⟨gpr, pc, mode, sstatus, sscratch, -⟩ := retFromException_left exit
    rw [status] at gpr pc mode sstatus
    rw [leave, exit, Ask.leave, if_pos out]
    refine .done ⟨gpr, pc, mode, sstatus, fun user => ?_⟩
    rw [sscratch, user, on.sp]
  · rw [status] at user
    rcases rest with ⟨mem, sp, tp, flags⟩
    obtain ⟨mem', sp', tp', ra, s1, arguments⟩ := workPending_spec k.toSymbols g
    have stays := on.of_same (mem'.trans mem) (sp'.trans sp) (tp'.trans tp)
    rw [flags] at s1 arguments
    rw [leave, exit, Ask.leave, if_neg (not_or.mpr ⟨not_not.mpr user, busy⟩)]
    simp only [s1]
    split
    · exact .asked (stays.of_same rfl rfl rfl) ⟨rfl, rfl, List.nil_prefix, ra⟩
    · next resched =>
      obtain ⟨a0, a1⟩ := arguments (not_not.mp resched)
      rw [sp, on.sp] at a0
      refine .asked (stays.of_same rfl rfl rfl) ⟨rfl, rfl, ?_, ra⟩
      exact ⟨_, by rw [Request.arguments, List.map_cons, List.map_cons, a0, a1]; rfl⟩

/-- A step does what is asked for next. -/
theorem sim_step (placed : Placed k p) {s s' : At x} {found found' : List (Seen x)} {ask : Ask x}
    (sim : Sim k p t s (found.foldl (Ask.step k) ask))
    (stepped : Step k (s, found) (s', found')) :
    Sim k p t s' (found'.foldl (Ask.step k) ask) := by
  generalize done : found.foldl (Ask.step k) ask = now at sim
  cases stepped with
  | serve callee serves =>
    rw [List.foldl_append, done]
    cases sim with
    | asked on calls => exact sim_resume placed on calls serves
  | exit shares =>
    rw [List.foldl_append, done]
    cases sim with
    | exiting on =>
      refine sim_leave ⟨on.sp, on.tp, ?_, shares.rodata⟩
      rw [← on.sp, shares.frame, on.sp, on.frame]

/-- The hart at the choice of the handler -/
theorem on_handleException (placed : Placed k (frameAddr h))
    (rodata : Rodata k.toLabels k.sysCall h.mem) :
    On k (frameAddr h) ((handleException k.toSymbols h).gpr .tp) (context h)
      (handleException k.toSymbols h) :=
  ⟨handleException_sp k.toSymbols h, rfl, funext (saveAll_frame h),
    rodata.of_same (saveAll_apart h placed.excp) (saveAll_apart h placed.sys)⟩

theorem handleException_arguments (sym : Symbols x) (h : Hart x) :
    ∀ q ∈ argumentRegs, (handleException sym h).gpr q.1 = context h q.2 := by
  simp [argumentRegs, handleException, saveAll, foldl_regS, Hart.csrr, Hart.csrrc,
    Hart.gpr_set_ne, saveAllStack_gpr, context, PtReg.source]

end

/-- From a trap on, whatever the functions in C do to the memory and to the `struct pt_regs`: the
hart goes to the functions that are asked for and to no others, in their order and with their
arguments, each returns to where the code goes on, and when the trap is left the task has the
registers that the structure had last. -/
theorem service_refines {k : Kernel x} {h : Hart x} {stvec cause badaddr : Word x} {s : At x}
    {found : List (Seen x)} (placed : Placed k (frameAddr (h.trap stvec cause badaddr)))
    (rodata : Rodata k.toLabels k.sysCall h.mem)
    (codes : cause.slt 0 = false → cause.toNat < 16)
    (run : Run (Step k)
      (dispatch k.toLabels (handleException k.toSymbols (h.trap stvec cause badaddr)), [])
      (s, found)) :
    let entered := handleException k.toSymbols (h.trap stvec cause badaddr)
    Sim k (frameAddr (h.trap stvec cause badaddr)) (entered.gpr .tp) s
      (found.foldl (Ask.step k) (Ask.start k (context (h.trap stvec cause badaddr))
        (threadFlags k.toSymbols (handleSyscall entered)))) := by
  intro entered
  have on := on_handleException (h := h.trap stvec cause badaddr) placed rodata
  obtain ⟨sepc, scause⟩ := handleException_saved k.toSymbols (h.trap stvec cause badaddr)
  have ra : entered.gpr .ra = k.retFromException := by simp [entered, handleException]
  have first := sim_dispatch placed on (handleException_arguments k.toSymbols _) sepc scause ra
    codes
  have kept : Keeps (Step k) fun s => Sim k (frameAddr (h.trap stvec cause badaddr))
      (entered.gpr .tp) s.1 (s.2.foldl (Ask.step k) (Ask.start k
        (context (h.trap stvec cause badaddr))
        (threadFlags k.toSymbols (handleSyscall entered)))) :=
    fun _ _ sim stepped => sim_step placed sim stepped
  exact Run.keeps kept first run

/-! ## An illegal instruction -/

/-- Tables of zeros in empty memory -/
def emptyTables : Kernel .rv64 where
  globalPointer := 0
  retFromException := 0x8000
  taskThreadInfo := 8
  nrSyscalls := 2
  nr_lt := by decide
  excpVectTable := 0x1000
  table_fits := by decide
  sysCallTable := 0x2000
  sysNiSyscall := 0x9000
  doIrq := 0x9100
  doTrapUnknown := 0
  doTrapInsnMisaligned := 0
  doTrapInsnIllegal := 0
  doTrapAmoMisaligned := 0
  doTrapBreak := 0
  doPageFault := 0
  doSyscallTraceEnter := 0x9300
  doSyscallTraceExit := 0x9400
  doNotifyResume := 0x9500
  schedule := 0x9600
  traceEntered := 0x8100
  retFromSyscall := 0x8200
  traceExited := 0x8300
  sysCall _ := 0

/-- A task in user mode, with its kernel stack from 0x10000 on -/
def userTask : Hart .rv64 where
  mode := .user
  pc := 0x400
  gpr _ := 0
  csr
    | .sscratch => 0x12000
    | _ => 0
  mem _ := 0

theorem readWord_empty (a : Word .rv64) : Memory.readWord (fun _ => 0) 8 a = 0 := by
  have zeros : Memory.read (fun _ => 0) a 8 = toBytes 8 (0 : Word .rv64) := by
    rw [toBytes_zero]
    exact List.map_const' ..
  rw [Memory.readWord, zeros]
  exact ofBytes_toBytes (Nat.le_refl 64) 0

theorem rodata_empty : Rodata emptyTables.toLabels emptyTables.sysCall fun _ => 0 :=
  ⟨fun i small => (readWord_empty _).trans
    ((by decide : ∀ i < 10, 0 = emptyTables.excpVect.getD i emptyTables.doTrapUnknown) i small),
    fun _ _ => readWord_empty _⟩

/-- The handler is found and returns, and the trap is left. -/
theorem illegal_leaves {entered : Hart .rv64} (cause : entered.gpr .s4 = 2) : ∃ h found,
    Run (Step emptyTables) (dispatch emptyTables.toLabels entered, []) (.left h, found) := by
  have chosen : dispatch emptyTables.toLabels entered
      = .called .trap (toVector emptyTables.toLabels entered) := by
    rw [dispatch, handler, cause]
    rfl
  rw [chosen]
  generalize toVector emptyTables.toLabels entered = called
  let returned : Hart .rv64 := { called with pc := called.gpr .ra, mem := fun _ => 0 }
  have status : frameWord returned.mem (returned.gpr .sp) .sstatus = 0 := readWord_empty _
  have flags : threadFlags emptyTables.toSymbols returned = 0 := readWord_empty _
  obtain ⟨h, exit⟩ : ∃ h, retFromException emptyTables.toSymbols returned = .left h := by
    refine retFromException_leaves ?_ ?_
    · rw [status, BitVec.ofNat_eq_ofNat, BitVec.zero_and]
    · rw [flags, BitVec.ofNat_eq_ofNat, BitVec.zero_and]
  have left : leave emptyTables.toLabels returned = .left h := by rw [leave, exit]
  refine ⟨h, _, .tail (.single (.serve .trap (g := returned) ?_))
    (left ▸ Step.exit (m := fun _ => 0) (h := returned) ⟨rfl, rodata_empty⟩)⟩
  exact ⟨⟨rfl, fun _ _ _ => rfl⟩, rfl, rodata_empty⟩

theorem service_refines_illegal : ∃ h found,
    let entered := handleException emptyTables.toSymbols (userTask.trap 0x8400 2 0)
    Run (Step emptyTables) (dispatch emptyTables.toLabels entered, []) (.left h, found) ∧
      Sim emptyTables (frameAddr (userTask.trap 0x8400 2 0)) (entered.gpr .tp) (.left h)
        (found.foldl (Ask.step emptyTables) (Ask.start emptyTables
          (context (userTask.trap 0x8400 2 0))
          (threadFlags emptyTables.toSymbols (handleSyscall entered)))) := by
  obtain ⟨h, found, run⟩ := illegal_leaves
    (handleException_saved emptyTables.toSymbols (userTask.trap 0x8400 2 0)).2
  have placed : Placed emptyTables (frameAddr (userTask.trap 0x8400 2 0)) :=
    ⟨by decide, by decide⟩
  exact ⟨h, found, run, service_refines placed rodata_empty (fun _ => by decide) run⟩

end RiscvLinux.Trap.Service
