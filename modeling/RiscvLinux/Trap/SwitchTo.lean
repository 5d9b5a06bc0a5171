import Mathlib.Data.Fintype.Basic
import RiscvLinux.Lib.Run
import RiscvLinux.Trap.Status

/-!
# The floating-point state across context switches

`__switch_to_aux` with `fstate_save` and `fstate_restore` (`switch_to.h`), and what else writes
the floating-point field of a user status: user code, `start_thread`, `arch_dup_task_struct`
and `copy_thread`. `__fstate_clean` sets the bit of CLEAN and clears none, so that INITIAL and
DIRTY both become DIRTY.

`switchedOver_iff` says when one switch does what it is to do, and `switched_iff` carries that
over runs.
-/

namespace RiscvLinux.Trap.SwitchTo

open Lib Trap

variable {x : XLen} {n : Nat} {Task : Type}

/-! ## The code -/

/-- The routines of `entry.S` that move the registers. -/
inductive Call (Task : Type*)
  | save (task : Task)
  | restore (task : Task)
  deriving DecidableEq

/-- `fstate_save`, on the status in the task's `struct pt_regs`. -/
def fstateSave (task : Task) (s : Word x) : Word x × List (Call Task) :=
  if s &&& srFs = srFsDirty then (fstateClean s, [.save task]) else (s, [])

/-- `fstate_restore`. -/
def fstateRestore (task : Task) (s : Word x) : Word x × List (Call Task) :=
  if s &&& srFs ≠ srFsOff then (fstateClean s, [.restore task]) else (s, [])

/-- `if (unlikely(regs->sstatus & SR_SD)) fstate_save(prev, regs);` -/
def saveDirty (prev : Task) (s : Word x) : Word x × List (Call Task) :=
  if s &&& srSd ≠ 0 then fstateSave prev s else (s, [])

/-- `__switch_to_aux`, on the status words of all tasks. -/
def switchToAux [DecidableEq Task] (prev next : Task) (status : Task → Word x) :
    (Task → Word x) × List (Call Task) :=
  let saved := saveDirty prev (status prev)
  let status := Function.update status prev saved.1
  let restored := fstateRestore next (status next)
  (Function.update status next restored.1, saved.2 ++ restored.2)

/-! ## The field -/

/-- The four states of the unit. -/
theorem fs_cases (s : Word x) :
    s &&& srFs = srFsOff ∨ s &&& srFs = srFsInitial ∨ s &&& srFs = srFsClean
      ∨ s &&& srFs = srFsDirty := by
  have low : (srFsInitial : Word x) = BitVec.twoPow x.bits 13 := by cases x <;> decide
  have high : (srFsClean : Word x) = BitVec.twoPow x.bits 14 := by cases x <;> decide
  have parts : (srFs : Word x) = BitVec.twoPow x.bits 13 ||| BitVec.twoPow x.bits 14 := by
    cases x <;> decide
  rw [parts, BitVec.and_or_distrib_left, BitVec.and_twoPow, BitVec.and_twoPow, ← low, ← high]
  cases s.getLsbD 13 <;> cases s.getLsbD 14
  · exact .inl (by cases x <;> decide)
  · exact .inr (.inr (.inl (by cases x <;> decide)))
  · exact .inr (.inl (by cases x <;> decide))
  · exact .inr (.inr (.inr (by cases x <;> decide)))

theorem fs_fstateClean (s : Word x) : fstateClean s &&& srFs = s &&& srFs ||| srFsClean := by
  have part : (srFsClean : Word x) &&& srFs = srFsClean := by cases x <;> decide
  rw [fstateClean_eq, setBits, BitVec.and_or_distrib_right, part]

/-- Only OFF and CLEAN become CLEAN. -/
theorem fs_fstateClean_eq_clean {s : Word x} :
    fstateClean s &&& srFs = srFsClean ↔ s &&& srFs = srFsOff ∨ s &&& srFs = srFsClean := by
  rw [fs_fstateClean]
  rcases fs_cases s with fs | fs | fs | fs <;> rw [fs] <;> cases x <;> decide

/-- `__fstate_clean` changes nothing but the field. -/
theorem clearBits_fstateClean (s : Word x) : clearBits (fstateClean s) srFs = clearBits s srFs := by
  have outside : (srFs : Word x) &&& ~~~srFs = 0 := by cases x <;> decide
  rw [clearBits, fstateClean_and outside, clearBits]

/-! ## The routines -/

theorem fstateSave_of_not_dirty {task : Task} {w : Word x} (clean : w &&& srFs ≠ srFsDirty) :
    fstateSave task w = (w, []) :=
  if_neg clean

/-- Whether `fstate_restore` runs or not, what it leaves is what it should exactly for OFF and
CLEAN. -/
theorem fstateRestore_fs (task : Task) (w : Word x) :
    ((fstateRestore task w).1 &&& srFs = if w &&& srFs = srFsOff then srFsOff else srFsClean)
      ↔ w &&& srFs = srFsOff ∨ w &&& srFs = srFsClean := by
  by_cases off : w &&& srFs = srFsOff
  · rw [fstateRestore, if_neg (not_not_intro off), if_pos off]
    exact ⟨fun _ => .inl off, fun _ => off⟩
  · rw [fstateRestore, if_pos off, if_neg off]
    exact fs_fstateClean_eq_clean

/-- Neither routine touches the other bits. -/
theorem clearBits_fstateSave (task : Task) (w : Word x) :
    clearBits (fstateSave task w).1 srFs = clearBits w srFs := by
  rw [fstateSave]
  split
  · exact clearBits_fstateClean w
  · rfl

theorem clearBits_fstateRestore (task : Task) (w : Word x) :
    clearBits (fstateRestore task w).1 srFs = clearBits w srFs := by
  rw [fstateRestore]
  split
  · exact clearBits_fstateClean w
  · rfl

/-- A status that is not dirty is not saved. -/
theorem saveDirty_of_not_dirty {prev : Task} {w : Word x} (clean : w &&& srFs ≠ srFsDirty) :
    saveDirty prev w = (w, []) := by
  rw [saveDirty, fstateSave_of_not_dirty clean, ite_self]

/-- A dirty status stays dirty, saved or not. -/
theorem saveDirty_of_dirty {prev : Task} {w : Word x} (dirty : w &&& srFs = srFsDirty) :
    (saveDirty prev w).1 &&& srFs = srFsDirty := by
  rw [saveDirty]
  split
  · rw [fstateSave, if_pos dirty, fs_fstateClean, dirty]
    cases x <;> decide
  · exact dirty

theorem clearBits_saveDirty (prev : Task) (w : Word x) :
    clearBits (saveDirty prev w).1 srFs = clearBits w srFs := by
  rw [saveDirty]
  split
  · exact clearBits_fstateSave prev w
  · rfl

/-- Only the tasks of the switch are saved and restored. -/
theorem save_mem_saveDirty {prev task : Task} {w : Word x}
    (saved : Call.save task ∈ (saveDirty prev w).2) : task = prev ∧ w &&& srFs = srFsDirty := by
  rw [saveDirty] at saved
  split at saved
  · rw [fstateSave] at saved
    split at saved
    · rename_i dirty
      rw [List.mem_singleton] at saved
      cases saved
      exact ⟨rfl, dirty⟩
    · cases saved
  · cases saved

theorem save_not_mem_fstateRestore (next task : Task) (w : Word x) :
    Call.save task ∉ (fstateRestore next w).2 := by
  intro saved
  rw [fstateRestore] at saved
  split at saved
  · rw [List.mem_singleton] at saved
    cases saved
  · cases saved

variable [DecidableEq Task]

/-! ## States and steps -/

/-- The task that each hart runs and the status of every task: the one in its
`struct pt_regs` while the kernel runs. `wrote` tells whether the task wrote a floating-point
register since it was last restored. `switched` and `calls` are of the last step. -/
structure System (x : XLen) (n : Nat) (Task : Type) where
  running : Fin n → Task
  status : Task → Word x
  wrote : Task → Bool
  switched : Option (Task × Task)
  calls : List (Call Task)

/-- What can happen: the kernel returns to the user code of the running task, which may write a
floating-point register before it traps; a switch; `start_thread`; and a fork. -/
inductive Event (n : Nat) (Task : Type)
  | user (h : Fin n) (writes : Bool)
  | switchTo (h : Fin n) (next : Task)
  | startThread (h : Fin n)
  | fork (h : Fin n) (child : Task)

/-- No hart runs the task. -/
def System.Idle (s : System x n Task) (t : Task) : Prop :=
  ∀ h, s.running h ≠ t

instance (s : System x n Task) (t : Task) : Decidable (s.Idle t) :=
  inferInstanceAs (Decidable (∀ _, _))

/-- User code writes a floating-point register: the hart takes it if the unit is on. -/
def takesWrite (writes : Bool) (s : Word x) : Bool :=
  writes && s &&& srFs != srFsOff

/-- What becomes of a user status between `sret` and the next trap. -/
def userStatus (writes : Bool) (s : Word x) : Word x :=
  let running := sretStatus s
  trapStatus .user (if takesWrite writes s then setBits running (srFs ||| srSd) else running)

/-- One step; `none` when it cannot happen. -/
def step (s : System x n Task) : Event n Task → Option (System x n Task)
  | .user h writes =>
    let t := s.running h
    some { s with
      status := Function.update s.status t (userStatus writes (s.status t))
      wrote := Function.update s.wrote t (s.wrote t || takesWrite writes (s.status t))
      switched := none
      calls := [] }
  | .switchTo h next =>
    if s.Idle next then
      let r := switchToAux (s.running h) next s.status
      some {
        running := Function.update s.running h next
        status := r.1
        wrote := Function.update s.wrote next
          (s.wrote next && !decide (Call.restore next ∈ r.2))
        switched := some (s.running h, next)
        calls := r.2 }
    else none
  | .startThread h =>
    some { s with
      status := Function.update s.status (s.running h) startThreadStatus
      switched := none
      calls := [] }
  -- `arch_dup_task_struct` and `copy_thread`
  | .fork h child =>
    if s.Idle child then
      let r := fstateSave (s.running h) (s.status (s.running h))
      some { s with
        status := Function.update (Function.update s.status (s.running h) r.1) child r.1
        wrote := Function.update s.wrote child false
        switched := none
        calls := r.2 }
    else none

/-- After user code the state is dirty if it wrote, and as before if it did not. -/
theorem fs_userStatus (writes : Bool) (s : Word x) :
    userStatus writes s &&& srFs = if takesWrite writes s then srFsDirty else s &&& srFs := by
  have kept : sretStatus s &&& srFs = s &&& srFs :=
    sretStatus_and s (by cases x <;> decide) (by cases x <;> decide) (by cases x <;> decide)
  rw [userStatus, trapStatus_and .user _ (by cases x <;> decide) (by cases x <;> decide)
    (by cases x <;> decide)]
  cases takesWrite writes s with
  | false => exact kept
  | true => exact setBits_and_of_covered (by cases x <;> decide)

/-! ## What a switch is to do -/

/-- What a switch is to do to the status words. -/
structure SwitchedOver (s t : System x n Task) (prev next : Task) : Prop where
  incoming : t.status next &&& srFs =
    if s.status next &&& srFs = srFsOff then srFsOff else srFsClean
  saved : s.status prev &&& srFs = srFsDirty → Call.save prev ∈ t.calls
  outgoing : s.status prev &&& srFs = srFsDirty → t.status prev &&& srFs = srFsClean
  others : ∀ task, clearBits (t.status task) srFs = clearBits (s.status task) srFs
  rest : ∀ task, task ≠ prev → task ≠ next → t.status task = s.status task

/-- A step is as it is to be: if it was a switch, it did what a switch is to do, and a task was
saved only if it had written a register. -/
structure Kept (s t : System x n Task) : Prop where
  switched : ∀ prev next, t.switched = some (prev, next) → SwitchedOver s t prev next
  saves : ∀ task, Call.save task ∈ t.calls → s.wrote task = true

/-- A running task whose state is dirty has written a register. -/
def Marked (s : System x n Task) : Prop :=
  ∀ h, s.status (s.running h) &&& srFs = srFsDirty → s.wrote (s.running h) = true

/-- The condition: a switch leaves a task whose state is not dirty, for one whose unit is off or
whose state is clean. -/
def Clean (s : System x n Task) : Event n Task → Prop
  | .switchTo h next =>
    s.status (s.running h) &&& srFs ≠ srFsDirty
      ∧ (s.status next &&& srFs = srFsOff ∨ s.status next &&& srFs = srFsClean)
  | _ => True

instance (s : System x n Task) (e : Event n Task) : Decidable (Clean s e) := by
  cases e <;> (unfold Clean; infer_instance)

/-! ## One switch -/

variable {s t : System x n Task}

section Aux

variable {prev next : Task} {status : Task → Word x}

theorem switchToAux_next (differ : prev ≠ next) :
    (switchToAux prev next status).1 next = (fstateRestore next (status next)).1 := by
  simp only [switchToAux, Function.update_self, Function.update_of_ne differ.symm]

theorem switchToAux_prev (differ : prev ≠ next) :
    (switchToAux prev next status).1 prev = (saveDirty prev (status prev)).1 := by
  simp only [switchToAux, Function.update_self, Function.update_of_ne differ]

theorem switchToAux_of_ne {task : Task} (notPrev : task ≠ prev) (notNext : task ≠ next) :
    (switchToAux prev next status).1 task = status task := by
  simp only [switchToAux, Function.update_of_ne notPrev, Function.update_of_ne notNext]

theorem switchToAux_calls (differ : prev ≠ next) :
    (switchToAux prev next status).2
      = (saveDirty prev (status prev)).2 ++ (fstateRestore next (status next)).2 := by
  simp only [switchToAux, Function.update_of_ne differ.symm]

end Aux

theorem idle_of_switchTo {h : Fin n} {next : Task} (stepped : step s (.switchTo h next) = some t) :
    s.Idle next := by
  by_contra busy
  rw [step, if_neg busy] at stepped
  cases stepped

/-- The words after a switch are as they should be exactly when the task that leaves was not
dirty and the one that comes in is off or clean. -/
theorem switchedOver_iff {h : Fin n} {next : Task} (idle : s.Idle next)
    (stepped : step s (.switchTo h next) = some t) :
    SwitchedOver s t (s.running h) next ↔ Clean s (.switchTo h next) := by
  have differ : s.running h ≠ next := idle h
  rw [step, if_pos idle] at stepped
  cases stepped
  constructor
  · intro switched
    have incoming := switched.incoming
    have outgoing := switched.outgoing
    simp only [switchToAux_next differ, switchToAux_prev differ] at incoming outgoing
    refine ⟨fun dirty => ?_, (fstateRestore_fs next _).mp incoming⟩
    have still := outgoing dirty
    rw [saveDirty_of_dirty dirty] at still
    exact absurd still (by cases x <;> decide)
  · intro given
    rcases given with ⟨left, entered⟩
    refine ⟨?_, fun dirty => (left dirty).elim, fun dirty => (left dirty).elim, fun task => ?_,
      fun task notPrev notNext => switchToAux_of_ne notPrev notNext⟩
    · simp only [switchToAux_next differ]
      exact (fstateRestore_fs next _).mpr entered
    · rcases eq_or_ne task next with rfl | notNext
      · simp only [switchToAux_next differ]
        exact clearBits_fstateRestore ..
      rcases eq_or_ne task (s.running h) with rfl | notPrev
      · simp only [switchToAux_prev differ]
        exact clearBits_saveDirty ..
      · simp only [switchToAux_of_ne notPrev notNext]

/-- Whatever the step is, a task is saved only if it had written a register. -/
theorem saves_step (marked : Marked s) {e : Event n Task} (stepped : step s e = some t)
    (task : Task)
    (saved : Call.save task ∈ t.calls) : s.wrote task = true := by
  cases e with
  | user h writes =>
    cases stepped
    cases saved
  | startThread h =>
    cases stepped
    cases saved
  | switchTo h next =>
    rw [step] at stepped
    split at stepped
    · rename_i idle
      cases stepped
      simp only [switchToAux_calls (idle h), List.mem_append] at saved
      rcases saved with saved | saved
      · obtain ⟨rfl, dirty⟩ := save_mem_saveDirty saved
        exact marked h dirty
      · exact (save_not_mem_fstateRestore next task _ saved).elim
    · cases stepped
  | fork h child =>
    rw [step] at stepped
    split at stepped
    · cases stepped
      simp only [fstateSave] at saved
      split at saved
      · rename_i dirty
        rw [List.mem_singleton] at saved
        cases saved
        exact marked h dirty
      · cases saved
    · cases stepped

/-- A step is as it is to be exactly under the condition. -/
theorem kept_iff (marked : Marked s) {e : Event n Task} (stepped : step s e = some t) :
    Kept s t ↔ Clean s e := by
  have saves := saves_step marked stepped
  cases e with
  | switchTo h next =>
    have idle := idle_of_switchTo stepped
    have last : t.switched = some (s.running h, next) := by
      rw [step, if_pos idle] at stepped
      cases stepped
      rfl
    rw [← switchedOver_iff idle stepped]
    refine ⟨fun kept => kept.switched _ _ last, fun goes => ⟨fun prev next' here => ?_, saves⟩⟩
    rw [last] at here
    cases here
    exact goes
  | user h writes =>
    cases stepped
    exact ⟨fun _ => trivial, fun _ => ⟨nofun, saves⟩⟩
  | startThread h =>
    cases stepped
    exact ⟨fun _ => trivial, fun _ => ⟨nofun, saves⟩⟩
  | fork h child =>
    rw [step] at stepped
    split at stepped
    · cases stepped
      exact ⟨fun _ => trivial, fun _ => ⟨nofun, saves⟩⟩
    · cases stepped

/-- A task that the step does not touch stays marked. -/
theorem Marked.of_update (marked : Marked s) {task : Task} {w : Word x} {wrote : Bool}
    (here : w &&& srFs = srFsDirty → wrote = true) (h : Fin n) :
    Function.update s.status task w (s.running h) &&& srFs = srFsDirty →
      Function.update s.wrote task wrote (s.running h) = true := by
  rcases eq_or_ne (s.running h) task with same | differ
  · rw [same, Function.update_self, Function.update_self]
    exact here
  · rw [Function.update_of_ne differ, Function.update_of_ne differ]
    exact marked h

/-- Under the condition a running task whose state is dirty has written a register. -/
theorem marked_kept : Keeps (Taken step Clean) (Marked : System x n Task → Prop) := by
  intro s t marked taken
  rcases taken with ⟨e, clean, stepped⟩
  cases e with
  | user h writes =>
    cases stepped
    refine marked.of_update fun dirty => ?_
    rw [fs_userStatus] at dirty
    cases takes : takesWrite writes (s.status (s.running h)) with
    | true => exact Bool.or_true _
    | false =>
      rw [takes, if_neg Bool.false_ne_true] at dirty
      rw [Bool.or_false]
      exact marked h dirty
  | startThread h =>
    cases stepped
    intro k dirty
    rcases eq_or_ne (s.running k) (s.running h) with same | differ
    · simp only [same, Function.update_self] at dirty
      exact absurd dirty (by cases x <;> decide)
    · simp only [Function.update_of_ne differ] at dirty
      exact marked k dirty
  | switchTo h next =>
    have idle := idle_of_switchTo stepped
    have goes := (switchedOver_iff idle stepped).mpr clean
    rcases clean with ⟨left, entered⟩
    have differ : s.running h ≠ next := idle h
    rw [step, if_pos idle] at stepped
    cases stepped
    intro k dirty
    simp only at dirty ⊢
    rcases eq_or_ne k h with rfl | other
    · have incoming := goes.incoming
      simp only at incoming
      rw [Function.update_self] at dirty
      rw [dirty] at incoming
      split at incoming <;> exact absurd incoming (by cases x <;> decide)
    · rw [Function.update_of_ne other] at dirty ⊢
      have notNext : s.running k ≠ next := idle k
      rw [Function.update_of_ne notNext]
      refine marked k ?_
      rcases eq_or_ne (s.running k) (s.running h) with same | notPrev
      · rwa [same, switchToAux_prev differ, saveDirty_of_not_dirty left, ← same] at dirty
      · rwa [switchToAux_of_ne notPrev notNext] at dirty
  | fork h child =>
    rw [step] at stepped
    split at stepped
    · rename_i idle
      cases stepped
      intro k dirty
      have notChild : s.running k ≠ child := idle k
      simp only [Function.update_of_ne notChild] at dirty ⊢
      refine marked k ?_
      rcases eq_or_ne (s.running k) (s.running h) with same | differ
      · rw [same, Function.update_self, fstateSave] at dirty
        rw [same]
        split at dirty
        · assumption
        · exact dirty
      · rwa [Function.update_of_ne differ] at dirty
    · cases stepped

/-! ## Runs -/

/-- From a state in which a running task that is dirty has written, the runs all of whose steps
are as they are to be are those whose switches leave no dirty task and enter an off or a clean
one. -/
theorem switched_iff (marked : Marked s) :
    Run (Guarded (Any step) Kept) s t ↔ Run (Taken step Clean) s t :=
  Run.guarded_iff (fun _ _ _ marked stepped => kept_iff marked stepped) marked_kept marked

/-- A kernel thread runs, and a program whose state is clean waits. -/
def cleanProgram : System .rv64 1 Bool where
  running _ := false
  status t := if t then setBits (clearBits startThreadStatus srFs) srFsClean else kernelThreadStatus
  wrote _ := false
  switched := none
  calls := []

theorem marked_cleanProgram : Marked cleanProgram := by
  intro h dirty
  have dirty : kernelThreadStatus &&& srFs = (srFsDirty : Word .rv64) := dirty
  exact absurd dirty (by decide)

/-- The program is switched to, writes a register, and forks. -/
def writing : List (Event 1 Bool) := [.switchTo 0 true, .user 0 true, .fork 0 false]

/-- It is dirty then, and has been saved, having written. -/
theorem switched_iff_cleanProgram : ∃ t : System .rv64 1 Bool,
    t.status true &&& srFs = srFsDirty ∧ t.calls = [.save true] ∧
      Run (Guarded (Any step) Kept) cleanProgram t := by
  have leads : (writing.foldlM (fun s e => if Clean s e then step s e else none) cleanProgram).any
      fun t => t.status true &&& srFs = srFsDirty ∧ t.calls = [.save true] := by
    decide
  obtain ⟨t, taken, found⟩ := (Option.any_eq_true _ _).mp leads
  obtain ⟨dirty, saved⟩ := of_decide_eq_true found
  have run : Run (Taken step Clean) cleanProgram t := .of_foldlM_allowed taken
  exact ⟨t, dirty, saved, (switched_iff marked_cleanProgram).mpr run⟩

/-- A kernel thread runs, and a program that `start_thread` set up has not run yet. -/
def newProgram : System .rv64 1 Bool :=
  ⟨fun _ => false, fun t => if t then startThreadStatus else kernelThreadStatus, fun _ => false,
    none, []⟩

theorem marked_newProgram : Marked newProgram := by
  intro h dirty
  have dirty : kernelThreadStatus &&& srFs = (srFsDirty : Word .rv64) := dirty
  exact absurd dirty (by decide)

/-- The first switch to a program that `start_thread` set up makes its state dirty. -/
theorem not_kept_newProgram :
    ¬ ∀ s₀ s t : System .rv64 1 Bool,
      Marked s₀ → Run (Any step) s₀ s → Any step s t → Kept s t := by
  intro always
  have stepped : (step newProgram (.switchTo 0 true)).isSome := rfl
  obtain ⟨t, stepped⟩ := Option.isSome_iff_exists.mp stepped
  have kept := always newProgram newProgram t marked_newProgram .refl ⟨_, trivial, stepped⟩
  cases stepped
  exact absurd (kept.switched false true rfl).incoming (by decide)

end RiscvLinux.Trap.SwitchTo
