import RiscvLinux.Lib.Run
import RiscvLinux.Signal.Restart

/-!
# The passes before a return to user mode

On its way back to user mode a trap goes round `work_pending`: it schedules, and it calls
`do_notify_resume`, with interrupts enabled, until no work is left. Each call of `do_signal`
decides on the restart of the system call again, from `scause` and `a0`.

A state counts how often the call has been rewound and whether it has been reported as
interrupted. `passes_iff` gives the condition on a pass under which a call is rewound at most once,
and only for its own result.
-/

namespace RiscvLinux.Signal

open Lib Trap

variable {x : XLen}

/-! ## States and passes -/

/-- What the trap was: a system call with its own result, a return from a handler, or no system
call. -/
inductive TrapKind (x : XLen)
  | call (result : Word x)
  | sigreturn
  | other
  deriving DecidableEq

/-- A trap in the loop, with what has been done about its restart so far. -/
structure Passing (x : XLen) where
  kind : TrapKind x
  task : TaskStruct x
  rewinds : Nat
  reported : Bool

/-- A pass: `schedule`, while which other threads may write to the memory, or
`do_notify_resume` with the flags of the thread and what `get_signal` finds. -/
inductive WorkEvent (x : XLen)
  | schedule (mem : UserMem x)
  | notifyResume (flags : Word x) (sig : Option (KSignal x))

/-- What `do_signal` makes of the registers for the restart. -/
def signalRestart (t : TaskStruct x) : Option (KSignal x) → TaskStruct x
  | some k => handleSignalRestart t k
  | none => doSignalRestart t

/-- `do_signal` takes `sepc` back. -/
def Rewinds (t : TaskStruct x) (sig : Option (KSignal x)) : Prop :=
  (signalRestart t sig).regs .sepc ≠ t.regs .sepc

/-- `do_signal` replaces the result by `-EINTR`. -/
def Reports (t : TaskStruct x) (sig : Option (KSignal x)) : Prop :=
  (signalRestart t sig).regs .a0 ≠ t.regs .a0

instance (t : TaskStruct x) (sig : Option (KSignal x)) : Decidable (Rewinds t sig) :=
  inferInstanceAs (Decidable (_ ≠ _))

instance (t : TaskStruct x) (sig : Option (KSignal x)) : Decidable (Reports t sig) :=
  inferInstanceAs (Decidable (_ ≠ _))

/-- The state after a pass. -/
def Passing.pass (P : Platform x) (s : Passing x) : WorkEvent x → Option (Passing x)
  | .schedule mem => some { s with task := { s.task with mem := mem } }
  | .notifyResume flags sig =>
    let t := doNotifyResume P s.task flags sig
    if flags &&& tifSigpending = 0 then some { s with task := t }
    else some { s with
      task := t
      rewinds := if Rewinds s.task sig then s.rewinds + 1 else s.rewinds
      reported := s.reported || decide (Reports s.task sig) }

/-- The results that ask for a restart of any kind. -/
def AnyRestartCode (r : Word x) : Prop :=
  RestartCode r ∨ r = eRestartRestartBlock

instance (r : Word x) : Decidable (AnyRestartCode r) :=
  inferInstanceAs (Decidable ((_ ∨ _ ∨ _) ∨ _))

/-- The state at `ret_from_syscall`, or where another trap is done. -/
structure Passing.Start (s : Passing x) : Prop where
  rewinds : s.rewinds = 0
  reported : s.reported = false
  call : ∀ r, s.kind = .call r → s.task.regs .a0 = r
  other : s.kind = .other → s.task.regs .scause ≠ excSyscall

/-- The call has been rewound at most once, and only for its own result, and if so it has not been
reported as interrupted. -/
structure Passing.Restarts (s : Passing x) : Prop where
  once : s.rewinds ≤ 1
  own : 0 < s.rewinds → ∃ r, s.kind = .call r ∧ AnyRestartCode r
  silent : 0 < s.rewinds → s.reported = false

/-! ## What one call of `do_signal` does -/

/-- `do_signal` finds a restart code of a system call. -/
def Meets (t : TaskStruct x) : Prop :=
  t.regs .scause = excSyscall ∧ AnyRestartCode (t.regs .a0)

instance (t : TaskStruct x) : Decidable (Meets t) :=
  inferInstanceAs (Decidable (_ ∧ _))

/-- A restart is due with the code `a0`: there is no signal to deliver, or one that does not
interrupt the call for good. -/
def RestartDue (a0 : Word x) : Option (KSignal x) → Prop
  | none => True
  | some k => a0 = eRestartNoIntr ∨ a0 = eRestartSys ∧ k.flags &&& saRestart ≠ 0

section

variable {P : Platform x} {t : TaskStruct x} {sig : Option (KSignal x)}

theorem eIntr_not_restart : ¬AnyRestartCode (eIntr : Word x) := by
  cases x <;> decide

/-- Without a restart code the registers stay. -/
theorem signalRestart_of_not (notMet : ¬Meets t) (sig : Option (KSignal x)) :
    signalRestart t sig = t := by
  by_cases call : t.regs .scause = excSyscall
  · have code : ¬AnyRestartCode (t.regs .a0) := fun code => notMet ⟨call, code⟩
    simp only [AnyRestartCode, RestartCode, not_or] at code
    rcases code with ⟨⟨sys, noIntr, noHand⟩, block⟩
    cases sig with
    | none =>
      simp only [signalRestart, doSignalRestart, call, sys, noIntr, noHand, block, or_self, if_true,
        if_false]
    | some k =>
      simp only [signalRestart, handleSignalRestart, call, sys, noIntr, noHand, block, or_self,
        if_true, if_false]
  · cases sig with
    | none => exact if_neg call
    | some k => exact if_neg call

theorem rewind_sepc_ne (t : TaskStruct x) : (rewind t).regs .sepc ≠ t.regs .sepc := by
  have four : (4 : Word x) ≠ 0 := by cases x <;> decide
  rw [rewind, TaskStruct.setReg_same]
  exact fun same => four (sub_eq_self.mp same)

theorem rewind_a0 (t : TaskStruct x) : (rewind t).regs .a0 = t.regs .a0 :=
  t.setReg_ne _ (by decide)

/-- A restart code that is due is rewound, and stays in `a0`. -/
theorem signalRestart_due (meets : Meets t) (due : RestartDue (t.regs .a0) sig) :
    (signalRestart t sig).regs .sepc ≠ t.regs .sepc ∧
      (signalRestart t sig).regs .a0 = t.regs .a0 := by
  rcases meets with ⟨call, code⟩
  cases sig with
  | none =>
    rcases code with code | block
    · rw [signalRestart, doSignalRestart_of_code call code]
      exact ⟨rewind_sepc_ne t, rewind_a0 t⟩
    · have notCode : ¬(t.regs .a0 = eRestartNoHand ∨ t.regs .a0 = eRestartSys ∨
          t.regs .a0 = eRestartNoIntr) := by
        rw [block]
        cases x <;> decide
      rw [signalRestart, doSignalRestart, if_pos call, if_neg notCode, if_pos block]
      -- `a7` is set first, which changes neither `sepc` nor `a0`.
      have sepc : (t.setReg .a7 nrRestartSyscall).regs .sepc = t.regs .sepc :=
        t.setReg_ne _ (by decide)
      have a0 : (t.setReg .a7 nrRestartSyscall).regs .a0 = t.regs .a0 := t.setReg_ne _ (by decide)
      exact ⟨sepc ▸ rewind_sepc_ne _, (rewind_a0 _).trans a0⟩
  | some k =>
    rw [signalRestart, handleSignalRestart_of_code call due]
    exact ⟨rewind_sepc_ne t, rewind_a0 t⟩

/-- One that is not due is replaced by `-EINTR`. -/
theorem signalRestart_of_notDue (meets : Meets t) (notDue : ¬RestartDue (t.regs .a0) sig) :
    (signalRestart t sig).regs .sepc = t.regs .sepc ∧
      (signalRestart t sig).regs .a0 = eIntr := by
  rcases meets with ⟨call, code⟩
  cases sig with
  | none => exact absurd trivial notDue
  | some k =>
    have intr : signalRestart t (some k) = t.setReg .a0 eIntr := by
      rw [signalRestart, handleSignalRestart, if_pos call]
      rcases code with (sys | noIntr | noHand) | block
      · have none : k.flags &&& saRestart = 0 := by
          by_contra some
          exact notDue (.inr ⟨sys, some⟩)
        rw [if_pos sys, if_pos none, ite_self]
      · exact absurd (.inl noIntr) notDue
      · exact if_pos (.inr noHand)
      · exact if_pos (.inl block)
    rw [intr]
    exact ⟨t.setReg_ne _ (by decide), t.setReg_same _ _⟩

theorem rewinds_iff_due (meets : Meets t) : Rewinds t sig ↔ RestartDue (t.regs .a0) sig := by
  by_cases due : RestartDue (t.regs .a0) sig
  · exact iff_of_true (signalRestart_due meets due).1 due
  · exact iff_of_false (not_not_intro (signalRestart_of_notDue meets due).1) due

/-- Of a restart code `do_signal` does one of the two. -/
theorem reports_iff_rewinds (meets : Meets t) (sig : Option (KSignal x)) :
    Reports t sig ↔ ¬Rewinds t sig := by
  rw [rewinds_iff_due meets]
  by_cases due : RestartDue (t.regs .a0) sig
  · exact iff_of_false (not_not_intro (signalRestart_due meets due).2) (not_not_intro due)
  · refine iff_of_true (fun same => ?_) due
    have intr := (signalRestart_of_notDue meets due).2
    exact eIntr_not_restart (intr ▸ same ▸ meets.2)

theorem signalRestart_scause (t : TaskStruct x) (sig : Option (KSignal x)) :
    (signalRestart t sig).regs .scause = t.regs .scause := by
  have rewound : ∀ t : TaskStruct x, (rewind t).regs .scause = t.regs .scause := fun t =>
    t.setReg_ne _ (by decide)
  have intr : (t.setReg .a0 eIntr).regs .scause = t.regs .scause := t.setReg_ne _ (by decide)
  have number : (t.setReg .a7 nrRestartSyscall).regs .scause = t.regs .scause :=
    t.setReg_ne _ (by decide)
  cases sig with
  | none =>
    simp only [signalRestart, doSignalRestart]
    split_ifs
    · exact rewound t
    · exact (rewound _).trans number
    · rfl
    · rfl
  | some k =>
    simp only [signalRestart, handleSignalRestart]
    split_ifs
    · exact intr
    · exact intr
    · exact rewound t
    · exact rewound t
    · rfl
    · rfl

/-- A failed `setup_rt_frame` leaves `a0`, and one that succeeds puts the number of the signal
there. -/
theorem setupRtFrame_regs (P : Platform x) (t : TaskStruct x) (k : KSignal x) (set : SigSet) :
    (setupRtFrame P t k set).1.regs .scause = t.regs .scause ∧
      ((setupRtFrame P t k set).1.regs .a0 = t.regs .a0 ∨
        (setupRtFrame P t k set).1.regs .a0 = BitVec.ofNat x.bits k.sig) := by
  have saved : ∀ r ≠ PtReg.sstatus, fstateSave t.regs r = t.regs r := fun r other =>
    fstateSave_apply t.regs other
  simp only [setupRtFrame]
  split
  · exact ⟨rfl, .inl rfl⟩
  split
  · exact ⟨saved .scause (by decide), .inl (saved .a0 (by decide))⟩
  · refine ⟨?_, .inr ?_⟩
    · simp only [enterHandler, TaskStruct.setReg_regs]
      iterate 6 rw [Function.update_of_ne (by decide)]
      exact saved .scause (by decide)
    · simp only [enterHandler, TaskStruct.setReg_regs]
      iterate 2 rw [Function.update_of_ne (by decide)]
      exact Function.update_self ..

theorem signalSetupDone_regs (failed : Bool) (t : TaskStruct x) (k : KSignal x) :
    (signalSetupDone failed t k).regs = t.regs := by
  cases failed <;> rfl

/-- After `do_signal` the cause is the same, and `a0` holds what the restart has left there or the
number of a signal. -/
theorem doSignal_regs (P : Platform x) (t : TaskStruct x) (sig : Option (KSignal x)) :
    (doSignal P t sig).regs .scause = t.regs .scause ∧
      ((doSignal P t sig).regs .a0 = (signalRestart t sig).regs .a0 ∨
        ∃ n ≤ 64, (doSignal P t sig).regs .a0 = BitVec.ofNat x.bits n) := by
  have cause := signalRestart_scause t sig
  cases sig with
  | none =>
    rw [doSignal, restoreSavedSigmask_regs]
    exact ⟨cause, .inl rfl⟩
  | some k =>
    obtain ⟨scause, a0⟩ := setupRtFrame_regs P (handleSignalRestart t k) k t.sigmaskToSave
    rw [doSignal, handleSignal, signalSetupDone_regs]
    exact ⟨scause.trans cause, a0.imp id fun number => ⟨k.sig, k.sig_le, number⟩⟩

/-- The number of a signal is no restart code. -/
theorem sig_not_restart {n : Nat} (small : n ≤ 64) :
    ¬AnyRestartCode (BitVec.ofNat x.bits n) := by
  have large : ∀ r : Word x, AnyRestartCode r → 64 < r.toNat := by
    rintro r ((rfl | rfl | rfl) | rfl) <;> cases x <;> decide
  intro code
  have bound := large _ code
  rw [BitVec.toNat_ofNat] at bound
  exact absurd (Nat.lt_of_lt_of_le bound (Nat.mod_le ..)) (Nat.not_lt.mpr small)

/-- A restart code that is met after `do_signal` has been met before, and has not been
reported. -/
theorem Meets.of_doSignal (meets : Meets (doSignal P t sig)) :
    Meets t ∧ (doSignal P t sig).regs .a0 = t.regs .a0 ∧ ¬Reports t sig := by
  rcases meets with ⟨call, code⟩
  obtain ⟨scause, kept | ⟨n, small, number⟩⟩ := doSignal_regs P t sig
  · by_cases before : Meets t
    · by_cases due : RestartDue (t.regs .a0) sig
      · have same := (signalRestart_due before due).2
        exact ⟨before, kept.trans same, not_not_intro same⟩
      · rw [kept, (signalRestart_of_notDue before due).2] at code
        exact (eIntr_not_restart code).elim
    · rw [signalRestart_of_not before sig] at kept
      exact (before ⟨scause ▸ call, kept ▸ code⟩).elim
  · rw [number] at code
    exact (sig_not_restart small code).elim

end

/-! ## Runs -/

section

variable {P : Platform x} {s t : Passing x} {e : WorkEvent x}

/-- The condition on a pass: when `do_signal` finds a restart code, the call has not been rewound,
and where a restart is due the trap is a call and no return from a handler. -/
def Clean (s : Passing x) : WorkEvent x → Prop
  | .schedule _ => True
  | .notifyResume flags sig =>
    flags &&& tifSigpending ≠ 0 → Meets s.task →
      s.rewinds = 0 ∧ (RestartDue (s.task.regs .a0) sig → ∃ r, s.kind = .call r)

/-- What holds between two passes: the property, and that a restart code is still the result of the
call and has not been reported. -/
structure Passing.Invariant (s : Passing x) : Prop where
  restarts : s.Restarts
  own : ∀ r, s.kind = .call r → Meets s.task → s.task.regs .a0 = r
  other : s.kind = .other → ¬Meets s.task
  silent : s.reported = true → ¬Meets s.task

theorem Passing.Start.invariant (start : s.Start) : s.Invariant := by
  have none : ¬0 < s.rewinds := by
    rw [start.rewinds]
    exact Nat.lt_irrefl 0
  refine ⟨⟨?_, fun some => absurd some none, fun some => absurd some none⟩, ?_, ?_, ?_⟩
  · rw [start.rewinds]
    exact Nat.zero_le 1
  · exact fun r kind _ => start.call r kind
  · exact fun kind meets => start.other kind meets.1
  · intro reported
    rw [start.reported] at reported
    cases reported

/-- A pass either decides on no restart, or it calls `do_signal` with a restart code in `a0`. -/
theorem Passing.pass_cases (next : s.pass P e = some t) :
    (∃ task, t = { s with task := task } ∧ Clean s e ∧
      (Meets task → Meets s.task ∧ task.regs .a0 = s.task.regs .a0)) ∨
    (∃ sig, Meets s.task ∧
      (Clean s e ↔ s.rewinds = 0 ∧ (Rewinds s.task sig → ∃ r, s.kind = .call r)) ∧
      t = { s with
        task := doSignal P s.task sig
        rewinds := if Rewinds s.task sig then s.rewinds + 1 else s.rewinds
        reported := s.reported || decide (Reports s.task sig) }) := by
  cases e with
  | schedule mem =>
    cases next
    exact .inl ⟨_, rfl, trivial, fun meets => ⟨meets, rfl⟩⟩
  | notifyResume flags sig =>
    by_cases none : flags &&& tifSigpending = 0
    · simp only [Passing.pass, doNotifyResume, none, if_true] at next
      cases next
      exact .inl ⟨_, rfl, fun pending => absurd none pending, fun meets => ⟨meets, rfl⟩⟩
    · simp only [Passing.pass, doNotifyResume, none, if_false] at next
      cases next
      by_cases meets : Meets s.task
      · refine .inr ⟨sig, meets, ?_, rfl⟩
        rw [rewinds_iff_due meets]
        exact ⟨fun clean => clean none meets, fun clean _ _ => clean⟩
      · have same := signalRestart_of_not meets sig
        have stays : ¬Rewinds s.task sig := not_not_intro (by rw [same])
        have kept : ¬Reports s.task sig := not_not_intro (by rw [same])
        refine .inl ⟨doSignal P s.task sig, ?_, fun _ met => absurd met meets, ?_⟩
        · rw [if_neg stays, decide_eq_false kept, Bool.or_false]
        · exact fun after => absurd after.of_doSignal.1 meets

/-- A pass under the condition is just a pass to a state with the property. -/
theorem Passing.Invariant.restarts_iff (inv : s.Invariant) (next : s.pass P e = some t) :
    t.Restarts ↔ Clean s e := by
  obtain ⟨task, rfl, clean, _⟩ | ⟨sig, meets, clean, rfl⟩ := Passing.pass_cases next
  · exact iff_of_true ⟨inv.restarts.once, inv.restarts.own, inv.restarts.silent⟩ clean
  · have unreported : s.reported = false :=
      Bool.eq_false_iff.mpr fun reported => inv.silent reported meets
    rw [clean]
    by_cases rewinds : Rewinds s.task sig
    · have kept : ¬Reports s.task sig := fun reports =>
        (reports_iff_rewinds meets sig).mp reports rewinds
      rw [if_pos rewinds, decide_eq_false kept, Bool.or_false, imp_iff_right rewinds]
      constructor
      · intro restarts
        have once := restarts.once
        simp only at once
        obtain ⟨r, kind, _⟩ := restarts.own (Nat.succ_pos _)
        exact ⟨by omega, r, kind⟩
      · intro given
        rcases given with ⟨zero, r, kind⟩
        refine ⟨by simp only; omega, fun _ => ⟨r, kind, ?_⟩, fun _ => unreported⟩
        exact inv.own r kind meets ▸ meets.2
    · have reports : Reports s.task sig := (reports_iff_rewinds meets sig).mpr rewinds
      rw [if_neg rewinds, decide_eq_true reports, Bool.or_true,
        and_iff_left (fun now => absurd now rewinds)]
      constructor
      · intro restarts
        refine Nat.eq_zero_of_not_pos fun some => ?_
        cases restarts.silent some
      · intro zero
        have none : ¬0 < s.rewinds := by
          rw [zero]
          exact Nat.lt_irrefl 0
        exact ⟨inv.restarts.once, inv.restarts.own, fun some => absurd some none⟩

theorem Passing.Invariant.kept : Keeps (Taken (Passing.pass P) Clean) Passing.Invariant := by
  intro s t inv taken
  rcases taken with ⟨e, allowed, next⟩
  have restarts := (inv.restarts_iff next).mpr allowed
  obtain ⟨task, rfl, _, before⟩ | ⟨sig, _, _, rfl⟩ := Passing.pass_cases next
  · refine ⟨restarts, fun r kind after => ?_, fun kind after => ?_, fun reported after => ?_⟩
    · exact (before after).2.trans (inv.own r kind (before after).1)
    · exact inv.other kind (before after).1
    · exact inv.silent reported (before after).1
  · refine ⟨restarts, fun r kind after => ?_, fun kind after => ?_, fun reported after => ?_⟩
    · obtain ⟨met, same, _⟩ := Meets.of_doSignal after
      exact same.trans (inv.own r kind met)
    · exact inv.other kind (Meets.of_doSignal after).1
    · obtain ⟨met, _, kept⟩ := Meets.of_doSignal after
      simp only [decide_eq_false kept, Bool.or_false] at reported
      exact inv.silent reported met

/-- From the end of a trap's own work, the passes under the condition lead only to states in which
the call has been rewound at most once, only for its own result, and without a report. The runs
all of whose states are such are those under the condition. -/
theorem passes_iff (P : Platform x) (start : s.Start) :
    (Run (Taken (Passing.pass P) Clean) s t → t.Restarts) ∧
      (Run (Guarded (Any (Passing.pass P)) fun _ t => t.Restarts) s t ↔
        Run (Taken (Passing.pass P) Clean) s t) :=
  Run.exact (fun _ inv => inv.restarts) (fun _ _ _ inv next => inv.restarts_iff next)
    Passing.Invariant.kept start.invariant

end

/-! ## A call on fixed inputs -/

/-- A system call at `ret_from_syscall` that asks for a restart. -/
def restarting : Passing .rv64 where
  kind := .call eRestartSys
  task := handleSyscall interrupted (ecallTask 0)
  rewinds := 0
  reported := false

theorem restarting_start : restarting.Start where
  rewinds := rfl
  reported := rfl
  call := by
    intro r kind
    cases kind
    rfl
  other := nofun

/-- `do_signal` is called, and finds no signal. -/
def noSignalPass : WorkEvent .rv64 := .notifyResume tifSigpending none

/-- The state after that pass. -/
def rewoundOnce : Passing .rv64 :=
  { restarting with
    task := doSignal plainPlatform restarting.task none
    rewinds := 1 }

theorem rewinds_of_code {t : TaskStruct x} (call : t.regs .scause = excSyscall)
    (code : RestartCode (t.regs .a0)) : Rewinds t none := by
  rw [Rewinds, signalRestart, doSignalRestart_of_code call code]
  exact rewind_sepc_ne t

theorem restarting_pass : restarting.pass plainPlatform noSignalPass = some rewoundOnce := by
  have rewinds : Rewinds restarting.task none := rewinds_of_code rfl (.inl rfl)
  have meets : Meets restarting.task := ⟨rfl, .inl (.inl rfl)⟩
  have kept : ¬Reports restarting.task none := fun reports =>
    (reports_iff_rewinds meets none).mp reports rewinds
  have pending : (tifSigpending : Word .rv64) &&& tifSigpending ≠ 0 := by decide
  simp only [Passing.pass, noSignalPass, doNotifyResume, if_neg pending, if_pos rewinds,
    decide_eq_false kept]
  rfl

/-- One such pass rewinds the call once, by the theorem. -/
theorem passes_iff_oneSignal : rewoundOnce.Restarts :=
  (passes_iff plainPlatform restarting_start).1
    (.single ⟨noSignalPass, fun _ _ => ⟨rfl, fun _ => ⟨eRestartSys, rfl⟩⟩, restarting_pass⟩)

/-- Two such passes rewind it twice. -/
theorem not_restarts_twoSignals : ∃ t, restarting.Start ∧
    Run (Any (Passing.pass plainPlatform)) restarting t ∧ ¬t.Restarts := by
  have rewinds : Rewinds rewoundOnce.task none := rewinds_of_code rfl (.inl rfl)
  have pending : (tifSigpending : Word .rv64) &&& tifSigpending ≠ 0 := by decide
  have next : rewoundOnce.pass plainPlatform noSignalPass = some
      { rewoundOnce with
        task := doSignal plainPlatform rewoundOnce.task none
        rewinds := 2
        reported := rewoundOnce.reported || decide (Reports rewoundOnce.task none) } := by
    simp only [Passing.pass, noSignalPass, doNotifyResume, if_neg pending, if_pos rewinds]
    rfl
  refine ⟨_, restarting_start,
    .head ⟨noSignalPass, trivial, restarting_pass⟩ (.single ⟨noSignalPass, trivial, next⟩), ?_⟩
  exact fun restarts => absurd restarts.once (by decide)

end RiscvLinux.Signal
