import Mathlib.Data.Fintype.Basic
import RiscvLinux.Lib.Run
import RiscvLinux.Trap.Entry

/-!
# The protection of user memory

With `CONFIG_RV_PUM` kernel code runs with `SR_PUM` set, but for the windows that
`__copy_user`, `__clear_user`, `__get_user` and `__put_user` open: they clear the flag
before the access and set it after, on the way of `.fixup` too. This module follows the
flag through everything that writes a status word: `_start`, traps and `SAVE_ALL`,
`RESTORE_ALL` and `sret`, `start_thread`, `copy_thread`, `__fstate_clean`, and
`__switch_to`, which does not touch the register.

`Protected` is the state the kernel wants and `Disciplined` the condition on a step that
keeps it: `protected_step` says that from a protected state a step is disciplined exactly
when it leads to one.
-/

namespace RiscvLinux.Trap.UserAccess

open Lib Trap

variable {x : XLen} {n : Nat} {Task : Type} [DecidableEq Task]

/-! ## States -/

/-- A suspended trap as far as its status goes: the word in its `struct pt_regs`, whether the
structure is the one at `task_pt_regs`, and whether the trap interrupted an open window. -/
structure Saved (x : XLen) where
  status : Word x
  atTop : Bool
  window : Bool
  deriving DecidableEq

/-- A task: its suspended traps, innermost first, and whether its code is in a window. -/
structure Thread (x : XLen) where
  saved : List (Saved x)
  window : Bool
  deriving DecidableEq

/-- A hart: its mode, its `sstatus`, the task it runs, and whether it is between the `csrw sstatus`
of `RESTORE_ALL` and `sret`. -/
structure Core (x : XLen) (Task : Type) where
  mode : Mode
  sstatus : Word x
  task : Task
  leaving : Bool

/-- The hart runs kernel code that is not on its way out. -/
def Core.Kernel (c : Core x Task) : Prop := c.mode = .supervisor ∧ c.leaving = false

omit [DecidableEq Task] in
instance (c : Core x Task) : Decidable c.Kernel := inferInstanceAs (Decidable (_ ∧ _))

/-- All harts and all tasks. -/
structure Machine (x : XLen) (n : Nat) (Task : Type) where
  cores : Fin n → Core x Task
  threads : Task → Thread x

/-- No hart runs the task. -/
def Machine.Idle (m : Machine x n Task) (t : Task) : Prop :=
  ∀ h, (m.cores h).task ≠ t

instance (m : Machine x n Task) (t : Task) : Decidable (m.Idle t) :=
  inferInstanceAs (Decidable (∀ _, _))

/-- The task that a hart runs. -/
def Machine.running (m : Machine x n Task) (h : Fin n) : Thread x :=
  m.threads (m.cores h).task

/-- The state after a hart has changed its mode and status, and the task it runs. -/
def Machine.put (m : Machine x n Task) (h : Fin n) (mode : Mode) (s : Word x) (thread : Thread x) :
    Machine x n Task :=
  { cores := Function.update m.cores h { m.cores h with mode := mode, sstatus := s }
    threads := Function.update m.threads (m.cores h).task thread }

/-- The state after `sstatus` of a hart has changed. -/
def Machine.setStatus (m : Machine x n Task) (h : Fin n) (s : Word x) : Machine x n Task :=
  m.put h (m.cores h).mode s (m.running h)

/-- The state after a hart has started to leave the kernel, or has left it. -/
def Machine.setLeaving (m : Machine x n Task) (h : Fin n) (leaving : Bool) : Machine x n Task :=
  { m with cores := Function.update m.cores h { m.cores h with leaving := leaving } }

/-- The state after a hart has changed its task: `__switch_to` leaves `sstatus` alone. -/
def Machine.switch (m : Machine x n Task) (h : Fin n) (t : Task) : Machine x n Task :=
  { m with cores := Function.update m.cores h { m.cores h with task := t } }

/-- A change of the status in the structure at `task_pt_regs`. -/
def Thread.rewriteTop (th : Thread x) (g : Word x → Word x) : Thread x :=
  { th with saved := th.saved.map fun f => if f.atTop then { f with status := g f.status } else f }

/-! ## Steps -/

/-- What can happen. -/
inductive Event (x : XLen) (n : Nat) (Task : Type)
  /-- User code computes; the hart marks the floating-point state. -/
  | user (h : Fin n) (s : Word x)
  /-- `csrs sstatus` and `csrc sstatus` of other flags, such as `local_irq_enable`. -/
  | set (h : Fin n) (mask : Word x)
  | clear (h : Fin n) (mask : Word x)
  /-- `csrc sstatus, SR_PUM` at the start of a user access. -/
  | openWindow (h : Fin n)
  /-- `csrs sstatus, SR_PUM` at its end, or in its fixup. -/
  | closeWindow (h : Fin n)
  /-- A trap from either mode, through `SAVE_ALL`. -/
  | trap (h : Fin n)
  /-- `RESTORE_ALL` up to its `csrw sstatus`. From there on to `sret` the hart is still in the
  kernel, with interrupts off and loads from its stack to do. -/
  | restore (h : Fin n)
  /-- The rest of `RESTORE_ALL`, and `sret`. -/
  | sret (h : Fin n)
  /-- `start_thread`, on the structure of the current task. -/
  | startThread (h : Fin n)
  /-- `__fstate_clean`, on the structure of a task. -/
  | fstateClean (h : Fin n) (t : Task)
  /-- `copy_thread` of a user task and of a kernel thread. -/
  | fork (h : Fin n) (t : Task)
  | forkKernel (h : Fin n) (t : Task)
  /-- `__switch_to`, out of `schedule`. -/
  | switchTo (h : Fin n) (t : Task)

/-- The flags that the hart changes by itself while user code runs. -/
def hartFlags : Word x := srFs ||| srSd

/-- One step; `none` when it cannot happen. -/
def step (m : Machine x n Task) : Event x n Task → Option (Machine x n Task)
  | .user h s =>
    let c := m.cores h
    if c.mode = .user ∧ clearBits s hartFlags = clearBits c.sstatus hartFlags then
      some (m.setStatus h s)
    else none
  | .set h mask =>
    let c := m.cores h
    if c.Kernel ∧ mask &&& srPum = 0 then
      some (m.setStatus h (setBits c.sstatus mask))
    else none
  | .clear h mask =>
    let c := m.cores h
    if c.Kernel ∧ mask &&& srPum = 0 then
      some (m.setStatus h (clearBits c.sstatus mask))
    else none
  | .openWindow h =>
    let c := m.cores h
    if c.Kernel ∧ (m.running h).window = false then
      some (m.put h c.mode (clearBits c.sstatus srPum)
        { m.running h with window := true })
    else none
  | .closeWindow h =>
    let c := m.cores h
    if c.Kernel ∧ (m.running h).window = true then
      some (m.put h c.mode (setBits c.sstatus srPum)
        { m.running h with window := false })
    else none
  | .trap h =>
    let c := m.cores h
    let th := m.running h
    let s := trapStatus c.mode c.sstatus
    if c.leaving = false then
      some (m.put h .supervisor (saveAllStatus s)
        { saved := ⟨s, c.mode = .user, th.window⟩ :: th.saved, window := false })
    else none
  | .restore h =>
    match (m.running h).saved with
    | [] => none
    | f :: _ =>
      if (m.cores h).Kernel ∧ (m.running h).window = false then
        some ((m.setStatus h f.status).setLeaving h true)
      else none
  | .sret h =>
    let c := m.cores h
    match (m.running h).saved with
    | [] => none
    | f :: outer =>
      if c.mode = .supervisor ∧ c.leaving = true ∧ (m.running h).window = false then
        some ((m.put h (sretMode c.sstatus) (sretStatus c.sstatus)
          { saved := outer, window := f.window }).setLeaving h false)
      else none
  | .startThread h =>
    let c := m.cores h
    if c.Kernel then
      some (m.put h c.mode c.sstatus ((m.running h).rewriteTop fun _ => startThreadStatus))
    else none
  | .fstateClean h t =>
    if (m.cores h).Kernel then
      some { m with
        threads := Function.update m.threads t ((m.threads t).rewriteTop Trap.fstateClean) }
    else none
  | .fork h t =>
    match (m.running h).saved.find? Saved.atTop with
    | none => none
    | some regs =>
      if (m.cores h).Kernel ∧ m.Idle t then
        some { m with
          threads := Function.update m.threads t ⟨[{ regs with window := false }], false⟩ }
      else none
  | .forkKernel h t =>
    if (m.cores h).Kernel ∧ m.Idle t then
      some { m with
        threads := Function.update m.threads t ⟨[⟨kernelThreadStatus, true, false⟩], false⟩ }
    else none
  | .switchTo h t =>
    let c := m.cores h
    if c.Kernel ∧ (m.running h).window = false ∧ m.Idle t then
      some (m.switch h t)
    else none

/-- `_start` on every hart: the floating-point unit off and the protection on. -/
structure Booted (m : Machine x n Task) : Prop where
  kernel : ∀ h, (m.cores h).Kernel
  sstatus : ∀ h, ∃ s, (m.cores h).sstatus = setBits (clearBits s srFs) srPum
  threads : ∀ t, m.threads t = ⟨[], false⟩
  distinct : ∀ h k, h ≠ k → (m.cores h).task ≠ (m.cores k).task

/-! ## The state the kernel wants -/

/-- Every hart that runs kernel code outside the windows has `SR_PUM` set. -/
def Protected (m : Machine x n Task) : Prop :=
  ∀ h, (m.cores h).mode = .supervisor → (m.running h).window = false → Pum (m.cores h).sstatus

/-- The condition on a step that keeps it: a trap is taken with `SR_PUM` set, and the status that
`RESTORE_ALL` restores has it, be it of user code or of the kernel's. -/
def Disciplined (m : Machine x n Task) : Event x n Task → Prop
  | .trap h => Pum (m.cores h).sstatus
  | .restore h => ∀ f ∈ (m.running h).saved.head?, Pum f.status
  | _ => True

/-- Two harts run different tasks. -/
def Distinct (m : Machine x n Task) : Prop :=
  ∀ h k, h ≠ k → (m.cores h).task ≠ (m.cores k).task

/-! ## One step -/

variable {m m' : Machine x n Task}

/-- After a change of one hart and its task only that hart is to be looked at. -/
theorem protected_put (distinct : Distinct m) (safe : Protected m) (h : Fin n) {mode : Mode}
    {s : Word x} {thread : Thread x} :
    Protected (m.put h mode s thread)
      ↔ (mode = .supervisor → thread.window = false → Pum s) := by
  have here : (m.put h mode s thread).cores h = { m.cores h with mode := mode, sstatus := s } :=
    Function.update_self ..
  have running : (m.put h mode s thread).running h = thread := by
    simp [Machine.running, Machine.put]
  constructor
  · intro safe'
    have at_h := safe' h
    rwa [here, running] at at_h
  · intro local_h k
    by_cases other : k = h
    · subst other
      rwa [here, running]
    · have core_k : (m.put h mode s thread).cores k = m.cores k := Function.update_of_ne other ..
      have thread_k : (m.put h mode s thread).running k = m.running k := by
        rw [Machine.running, core_k]
        exact Function.update_of_ne (distinct k h other) ..
      rw [core_k, thread_k]
      exact safe k

theorem distinct_put (distinct : Distinct m) (h : Fin n) {mode : Mode} {s : Word x}
    {thread : Thread x} : Distinct (m.put h mode s thread) := by
  have tasks : ∀ k, ((m.put h mode s thread).cores k).task = (m.cores k).task := by
    intro k
    by_cases here : k = h
    · simp [Machine.put, here]
    · simp [Machine.put, here]
  intro k l differ
  rw [tasks, tasks]
  exact distinct k l differ

omit [DecidableEq Task] in
/-- The way out is kernel code. -/
theorem protected_setLeaving (h : Fin n) (leaving : Bool) :
    Protected (m.setLeaving h leaving) ↔ Protected m := by
  refine forall_congr' fun k => ?_
  by_cases here : k = h
  · subst here
    simp [Machine.setLeaving, Machine.running]
  · simp [Machine.setLeaving, Machine.running, here]

omit [DecidableEq Task] in
theorem distinct_setLeaving (distinct : Distinct m) (h : Fin n) (leaving : Bool) :
    Distinct (m.setLeaving h leaving) := by
  have tasks : ∀ k, ((m.setLeaving h leaving).cores k).task = (m.cores k).task := by
    intro k
    by_cases here : k = h
    · simp [Machine.setLeaving, here]
    · simp [Machine.setLeaving, here]
  intro k l differ
  rw [tasks, tasks]
  exact distinct k l differ

omit [DecidableEq Task] in
/-- A change of suspended traps alone keeps the protection. -/
theorem protected_threads {threads : Task → Thread x}
    (windows : ∀ h, (threads (m.cores h).task).window = (m.running h).window) :
    Protected { m with threads := threads } ↔ Protected m := by
  refine forall_congr' fun h => ?_
  change _ → (threads (m.cores h).task).window = false → _ ↔ _
  rw [windows h]

theorem window_update_idle {t : Task} {th : Thread x} (idle : m.Idle t) (h : Fin n) :
    (Function.update m.threads t th (m.cores h).task).window = (m.running h).window := by
  rw [Function.update_of_ne (idle h)]
  rfl

/-- From a protected state, a step leads to a protected state exactly when it is disciplined. -/
theorem protected_step (distinct : Distinct m) (safe : Protected m) {e : Event x n Task}
    (next : step m e = some m') : Protected m' ↔ Disciplined m e := by
  cases e with
  | user h s =>
    simp only [step, Option.ite_none_right_eq_some, Option.some.injEq] at next
    rcases next with ⟨⟨user, -⟩, rfl⟩
    rw [Machine.setStatus, protected_put distinct safe h]
    refine iff_of_true (fun supervisor => ?_) trivial
    exact absurd (user.symm.trans supervisor) nofun
  | set h mask =>
    simp only [step, Option.ite_none_right_eq_some, Option.some.injEq] at next
    rcases next with ⟨⟨-, other⟩, rfl⟩
    rw [Machine.setStatus, protected_put distinct safe h]
    exact iff_of_true (fun supervisor closed =>
      (pum_setBits other).mpr (safe h supervisor closed)) trivial
  | clear h mask =>
    simp only [step, Option.ite_none_right_eq_some, Option.some.injEq] at next
    rcases next with ⟨⟨-, other⟩, rfl⟩
    rw [Machine.setStatus, protected_put distinct safe h]
    exact iff_of_true (fun supervisor closed =>
      (pum_clearBits other).mpr (safe h supervisor closed)) trivial
  | openWindow h =>
    simp only [step, Option.ite_none_right_eq_some, Option.some.injEq] at next
    rcases next with ⟨-, rfl⟩
    rw [protected_put distinct safe h]
    exact iff_of_true (fun _ closed => absurd closed nofun) trivial
  | closeWindow h =>
    simp only [step, Option.ite_none_right_eq_some, Option.some.injEq] at next
    rcases next with ⟨-, rfl⟩
    rw [protected_put distinct safe h]
    exact iff_of_true (fun _ _ => setBits_and_of_covered BitVec.and_self) trivial
  | trap h =>
    simp only [step, Option.ite_none_right_eq_some, Option.some.injEq] at next
    rcases next with ⟨-, rfl⟩
    rw [protected_put distinct safe h]
    simp [Disciplined, pum_saveAllStatus, pum_trapStatus]
  | restore h =>
    simp only [step] at next
    split at next
    · exact absurd next nofun
    · rename_i f outer suspended
      simp only [Option.ite_none_right_eq_some, Option.some.injEq] at next
      rcases next with ⟨⟨⟨supervisor, -⟩, closed⟩, rfl⟩
      rw [protected_setLeaving, Machine.setStatus, protected_put distinct safe h]
      simp [Disciplined, suspended, supervisor, closed]
  | sret h =>
    simp only [step] at next
    split at next
    · exact absurd next nofun
    · simp only [Option.ite_none_right_eq_some, Option.some.injEq] at next
      rcases next with ⟨⟨supervisor, -, closed⟩, rfl⟩
      rw [protected_setLeaving, protected_put distinct safe h]
      exact iff_of_true (fun _ _ => (pum_sretStatus _).mpr (safe h supervisor closed)) trivial
  | startThread h =>
    simp only [step, Option.ite_none_right_eq_some, Option.some.injEq] at next
    rcases next with ⟨-, rfl⟩
    rw [protected_put distinct safe h]
    exact iff_of_true (safe h) trivial
  | fstateClean h t =>
    simp only [step, Option.ite_none_right_eq_some, Option.some.injEq] at next
    rcases next with ⟨-, rfl⟩
    refine iff_of_true ((protected_threads fun k => ?_).mpr safe) trivial
    by_cases here : (m.cores k).task = t
    · rw [Machine.running, here, Function.update_self]
      rfl
    · rw [Function.update_of_ne here]
      rfl
  | fork h t =>
    simp only [step] at next
    split at next
    · exact absurd next nofun
    · simp only [Option.ite_none_right_eq_some, Option.some.injEq] at next
      rcases next with ⟨⟨-, idle⟩, rfl⟩
      exact iff_of_true ((protected_threads (window_update_idle idle)).mpr safe) trivial
  | forkKernel h t =>
    simp only [step, Option.ite_none_right_eq_some, Option.some.injEq] at next
    rcases next with ⟨⟨-, idle⟩, rfl⟩
    exact iff_of_true ((protected_threads (window_update_idle idle)).mpr safe) trivial
  | switchTo h t =>
    simp only [step, Option.ite_none_right_eq_some, Option.some.injEq] at next
    rcases next with ⟨⟨⟨supervisor, -⟩, closed, -⟩, rfl⟩
    refine iff_of_true (fun k => ?_) trivial
    by_cases here : k = h
    · simpa [Machine.switch, here] using fun _ _ => safe h supervisor closed
    · simpa [Machine.switch, Machine.running, here] using safe k

/-- Every step keeps the harts on different tasks. -/
theorem distinct_step (distinct : Distinct m) {e : Event x n Task}
    (next : step m e = some m') : Distinct m' := by
  cases e with
  | switchTo h t =>
    simp only [step, Option.ite_none_right_eq_some, Option.some.injEq] at next
    rcases next with ⟨⟨-, -, idle⟩, rfl⟩
    intro k l differ
    by_cases hk : k = h
    · have hl : l ≠ h := fun same => differ (hk.trans same.symm)
      simpa [Machine.switch, hk, hl] using Ne.symm (idle l)
    · by_cases hl : l = h
      · simpa [Machine.switch, hk, hl] using idle k
      · simpa [Machine.switch, hk, hl] using distinct k l differ
  | restore h | sret h =>
    simp only [step] at next
    split at next
    · exact absurd next nofun
    · simp only [Option.ite_none_right_eq_some, Option.some.injEq] at next
      rcases next with ⟨-, rfl⟩
      exact distinct_setLeaving (distinct_put distinct h) _ _
  | fork h t =>
    simp only [step] at next
    split at next
    · exact absurd next nofun
    · simp only [Option.ite_none_right_eq_some, Option.some.injEq] at next
      rcases next with ⟨-, rfl⟩
      exact distinct
  | fstateClean | forkKernel =>
    simp only [step, Option.ite_none_right_eq_some, Option.some.injEq] at next
    rcases next with ⟨-, rfl⟩
    exact distinct
  | user h | set h | clear h | openWindow h | closeWindow h | trap h | startThread h =>
    simp only [step, Option.ite_none_right_eq_some, Option.some.injEq] at next
    rcases next with ⟨-, rfl⟩
    exact distinct_put distinct h

/-! ## The steps and `entry.S` -/

/-- The hart of the entry code is in the state that a core describes. -/
def Describes (core : Core x Task) (h : Hart x) : Prop :=
  core.mode = h.mode ∧ core.sstatus = h.csr .sstatus

/-- The trap step does with the status what the hart and `SAVE_ALL` do, and saves the word that
`SAVE_ALL` stores. -/
theorem step_trap_describes {i : Fin n} {h : Hart x} {stvec cause badaddr : Word x}
    (sym : Symbols x) (before : Describes (m.cores i) h) (next : step m (.trap i) = some m') :
    Describes (m'.cores i) (handleException sym (h.trap stvec cause badaddr))
      ∧ ∃ f ∈ (m'.running i).saved.head?,
        f.status = context (h.trap stvec cause badaddr) .sstatus := by
  rcases before with ⟨mode, status⟩
  simp only [step, Option.ite_none_right_eq_some, Option.some.injEq] at next
  rcases next with ⟨-, rfl⟩
  refine ⟨⟨?_, ?_⟩, ?_⟩
  · rw [handleException_mode]
    simp [Machine.put, Hart.trap]
  · rw [handleException_sstatus]
    simp [Machine.put, Hart.trap, mode, status]
  · simp [Machine.put, Machine.running, context, PtReg.source, Hart.trap, mode, status]

/-- The two steps of a return do with the status what `RESTORE_ALL` and `sret` do with the word of
the frame, whatever other harts do between them. -/
theorem step_sret_describes {m₁ m₂ : Machine x n Task} {i : Fin n} {h h' : Hart x}
    {sym : Symbols x} {f : Saved x} (innermost : f ∈ (m.running i).saved.head?)
    (frame : frameWord h.mem (h.gpr .sp) .sstatus = f.status)
    (exit : retFromException sym h = .left h') (restore : step m (.restore i) = some m₁)
    (same : m₂.cores i = m₁.cores i) (sret : step m₂ (.sret i) = some m') :
    Describes (m'.cores i) h' := by
  have restored := retFromException_left exit
  have status : (m₁.cores i).sstatus = f.status := by
    simp only [step] at restore
    split at restore
    · exact absurd restore nofun
    · rename_i g outer suspended
      rw [suspended, List.head?_cons, Option.mem_some_iff] at innermost
      subst innermost
      simp only [Option.ite_none_right_eq_some, Option.some.injEq] at restore
      rcases restore with ⟨-, rfl⟩
      simp [Machine.setLeaving, Machine.setStatus, Machine.put]
  simp only [step] at sret
  split at sret
  · exact absurd sret nofun
  · simp only [Option.ite_none_right_eq_some, Option.some.injEq] at sret
    rcases sret with ⟨-, rfl⟩
    rw [Describes, restored.mode, restored.sstatus, frame, ← status, ← same]
    simp [Machine.setLeaving, Machine.put]

/-! ## Runs -/

omit [DecidableEq Task] in
theorem Booted.protected (booted : Booted m) : Protected m := by
  intro h _ _
  obtain ⟨s, status⟩ := booted.sstatus h
  rw [status]
  exact setBits_and_of_covered BitVec.and_self

/-- Disciplined steps keep the protection, and the harts on different tasks. -/
theorem keeps_disciplined :
    Keeps (Taken step Disciplined) fun m : Machine x n Task => Distinct m ∧ Protected m := by
  intro m m' given both
  rcases given with ⟨distinct, safe⟩
  rcases both with ⟨e, allowed, next⟩
  exact ⟨distinct_step distinct next, (protected_step distinct safe next).mpr allowed⟩

/-- From the start of the kernel, a run of disciplined steps comes to protected states only, and
the runs along which every state is protected are just the runs of disciplined steps. -/
theorem protected_iff {boot : Machine x n Task} (booted : Booted boot) :
    (Run (Taken step Disciplined) boot m → Protected m)
    ∧ (Run (Guarded (Any step) fun _ m' => Protected m') boot m
        ↔ Run (Taken step Disciplined) boot m) := by
  have start : Distinct boot ∧ Protected boot := ⟨booted.distinct, booted.protected⟩
  exact Run.exact (fun _ inv => inv.2) (fun _ _ _ inv next => protected_step inv.1 inv.2 next)
    keeps_disciplined start

/-! ## A program that `start_thread` sets up -/

/-- One hart, at the end of `_start`. -/
def oneHart : Machine .rv64 1 Bool where
  cores _ := ⟨.supervisor, srPum, false, false⟩
  threads _ := ⟨[], false⟩

theorem booted_oneHart : Booted oneHart where
  kernel _ := ⟨rfl, rfl⟩
  sstatus _ := ⟨0, rfl⟩
  threads _ := rfl
  distinct h k differ := absurd (Subsingleton.elim h k) differ

/-- A trap of the kernel and the return from it, after a user access has opened and closed its
window. -/
theorem protected_iff_trap :
    ∃ m, [.openWindow 0, .closeWindow 0, .trap 0, .restore 0, .sret 0].foldlM step oneHart = some m
      ∧ Protected m := by
  refine ⟨_, rfl, (protected_iff booted_oneHart).1 ?_⟩
  exact .tail (.tail (.tail (.tail (.single ⟨.openWindow 0, trivial, rfl⟩)
    ⟨.closeWindow 0, trivial, rfl⟩) ⟨.trap 0, by change Pum _; decide, rfl⟩)
    ⟨.restore 0, by unfold Disciplined; decide, rfl⟩) ⟨.sret 0, trivial, rfl⟩

/-- A kernel thread is started, executes a program and enters user mode, and the program makes
its first system call. -/
def firstProgram (i : Fin 1) : List (Event .rv64 1 Bool) :=
  [.forkKernel i true, .switchTo i true, .startThread i, .restore i, .sret i, .trap i]

/-- The kernel code that handles the first trap of a program runs without the protection, as did
the way out to the program. -/
theorem unprotected_firstProgram :
    ¬ ∀ (boot m : Machine .rv64 1 Bool), Booted boot → Run (Any step) boot m → Protected m := by
  intro always
  have fails : ((firstProgram 0).foldlM step oneHart).any (fun m =>
      (m.cores 0).mode = .supervisor ∧ (m.running 0).window = false ∧
        ¬ Pum (m.cores 0).sstatus) := by
    decide
  obtain ⟨m, leads, found⟩ := (Option.any_eq_true _ _).mp fails
  obtain ⟨supervisor, closed, clear⟩ := of_decide_eq_true found
  exact clear (always oneHart m booted_oneHart (.of_foldlM leads) 0 supervisor closed)

end RiscvLinux.Trap.UserAccess
