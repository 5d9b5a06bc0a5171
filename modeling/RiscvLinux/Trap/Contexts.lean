import RiscvLinux.Trap.Fork

/-!
# Tasks that switch

`__switch_to` (`entry.S`) between the tasks of any number of harts. To the task that calls it, it is
a function that returns: much later, on any hart, and after any number of switches between others.

`switchTo_returns` says what it returns with, and `newTask_starts` what a task starts with that
`copy_thread` has made.
-/

namespace RiscvLinux.Trap.Contexts

open Lib Trap

variable {x : XLen} {Task η : Type} [DecidableEq Task] [DecidableEq η]

/-! ## Switches -/

/-- A hart, and the task that it runs -/
structure Core (x : XLen) (Task : Type) where
  task : Task
  hart : Hart x

/-- The harts, `task->thread` of every task, and the tasks that there are -/
structure System (η : Type) (x : XLen) (Task : Type) where
  core : η → Core x Task
  thread : Task → Thread x
  live : Task → Bool

/-- What can happen: any code of a task, a call of `__switch_to`, a new task, or the end of one -/
inductive Event (η : Type) (x : XLen) (Task : Type)
  | code (i : η) (hart : Hart x)
  | switchTo (i : η) (next : Task)
  | copyThread (i : η) (p : Task) (kthread : Bool) (flags usp arg : Word x)
  | free (p : Task)

/-- No hart runs the task. -/
def System.Idle (s : System η x Task) (t : Task) : Prop :=
  ∀ i, (s.core i).task ≠ t

instance [Fintype η] (s : System η x Task) (t : Task) : Decidable (s.Idle t) :=
  inferInstanceAs (Decidable (∀ _, _))

/-- What is in place before the switches: where the stacks and the `task_struct` of the tasks are,
and the labels -/
structure Kernel (x : XLen) (Task : Type) where
  stack : Stacks x Task
  sym : ForkSymbols x
  taskStruct : Task → Word x

/-- One step -/
def step [Fintype η] (k : Kernel x Task) (s : System η x Task) :
    Event η x Task → Option (System η x Task)
  | .code i hart => some { s with core := Function.update s.core i ⟨(s.core i).task, hart⟩ }
  | .switchTo i next =>
    let prev := (s.core i).task
    let hart := (s.core i).hart
    if hart.gpr .a0 = k.taskStruct prev ∧ hart.gpr .a1 = k.taskStruct next ∧ s.live next = true ∧
        s.Idle next then
      let r := switchTo s.thread prev next hart
      some { s with core := Function.update s.core i ⟨next, r.2⟩, thread := r.1 }
    else none
  | .copyThread i p kthread flags usp arg =>
    let current := (s.core i).task
    let hart := (s.core i).hart
    if s.live p = false ∧ s.Idle p then
      -- `*dst = *src` of `arch_dup_task_struct` comes before
      let r := copyThread k.stack k.sym current p kthread flags usp arg (hart.gpr .gp) hart.mem
        (s.thread current)
      some {
        core := Function.update s.core i ⟨current, { hart with mem := r.1 }⟩
        thread := Function.update s.thread p r.2
        live := Function.update s.live p true }
    else none
  | .free p => if s.Idle p then some { s with live := Function.update s.live p false } else none

/-! ## The instructions -/

/-- The stores of `__switch_to` -/
theorem foldl_save (l : List (Gpr × ThreadReg)) (distinct : (l.map Prod.snd).Nodup)
    (thread : Thread x) (gpr : Gpr → Word x) :
    (∀ p ∈ l, l.foldl (fun th p => Function.update th p.2 (gpr p.1)) thread p.2 = gpr p.1) ∧
      ∀ r ∉ l.map Prod.snd,
        l.foldl (fun th p => Function.update th p.2 (gpr p.1)) thread r = thread r := by
  induction l generalizing thread with
  | nil => exact ⟨List.forall_mem_nil _, fun _ _ => rfl⟩
  | cons q l ih =>
    obtain ⟨new, distinct⟩ := List.nodup_cons.mp distinct
    obtain ⟨stored, others⟩ := ih distinct (Function.update thread q.2 (gpr q.1))
    refine ⟨List.forall_mem_cons.mpr ⟨?_, stored⟩, fun r absent => ?_⟩
    · exact (others q.2 new).trans (Function.update_self ..)
    · rw [List.map_cons, List.mem_cons, not_or] at absent
      exact (others r absent.2).trans (Function.update_of_ne absent.1 ..)

/-- The loads -/
theorem foldl_load (l : List (Gpr × ThreadReg)) (distinct : (l.map Prod.fst).Nodup)
    (thread : Thread x) (h : Hart x) :
    (∀ p ∈ l, (l.foldl (fun h p => h.set p.1 (thread p.2)) h).gpr p.1 = thread p.2) ∧
      ∀ r ∉ l.map Prod.fst, (l.foldl (fun h p => h.set p.1 (thread p.2)) h).gpr r = h.gpr r := by
  induction l generalizing h with
  | nil => exact ⟨List.forall_mem_nil _, fun _ _ => rfl⟩
  | cons q l ih =>
    obtain ⟨new, distinct⟩ := List.nodup_cons.mp distinct
    obtain ⟨loaded, others⟩ := ih distinct (h.set q.1 (thread q.2))
    refine ⟨List.forall_mem_cons.mpr ⟨?_, loaded⟩, fun r absent => ?_⟩
    · exact (others q.1 new).trans (Hart.gpr_set_same ..)
    · rw [List.map_cons, List.mem_cons, not_or] at absent
      exact (others r absent.2).trans (Hart.gpr_set_ne _ _ absent.1)

/-- The registers that `__switch_to` returns with -/
theorem switchToLoad_gpr (thread : Thread x) (h : Hart x) :
    (∀ p ∈ switchToRegs, (switchToLoad thread h).gpr p.1 = thread p.2) ∧
      (switchToLoad thread h).gpr .a0 = h.gpr .a0 ∧
      (switchToLoad thread h).gpr .tp = h.gpr .a1 := by
  obtain ⟨loaded, others⟩ := foldl_load switchToRegs (by decide) thread h
  rw [switchToLoad]
  generalize switchToRegs.foldl (fun h p => h.set p.1 (thread p.2)) h = g at loaded others
  refine ⟨fun p member => ?_, ?_, ?_⟩
  · have other : p.1 ≠ .tp := (by decide : ∀ p ∈ switchToRegs, p.1 ≠ Gpr.tp) p member
    exact (Hart.gpr_set_ne g _ other).trans (loaded p member)
  · have kept := Hart.gpr_set_ne g (g.gpr .a1) (by decide : Gpr.a0 ≠ .tp)
    exact kept.trans (others .a0 (by decide))
  · exact (Hart.gpr_set_same g .tp _).trans (others .a1 (by decide))

/-! ## One switch -/

variable [Fintype η] {k : Kernel x Task} {a b c d : System η x Task} {i j : η} {t next : Task}

/-- What a call of `__switch_to` does: the registers are in the thread of the task that called, and
the hart has those of the thread of the next. -/
theorem step_switchTo (switches : step k a (.switchTo i next) = some b) :
    (a.core i).task ≠ next ∧ (b.core i).task = next ∧
      (∀ p ∈ switchToRegs, b.thread (a.core i).task p.2 = (a.core i).hart.gpr p.1) ∧
      (∀ p ∈ switchToRegs, (b.core i).hart.gpr p.1 = a.thread next p.2) ∧
      (b.core i).hart.pc = a.thread next .ra ∧
      (b.core i).hart.gpr .a0 = k.taskStruct (a.core i).task ∧
      (b.core i).hart.gpr .tp = k.taskStruct next := by
  simp only [step, Option.ite_none_right_eq_some] at switches
  rcases switches with ⟨⟨prev, arg, -, idle⟩, switches⟩
  cases switches
  have differ := idle i
  obtain ⟨stored, -⟩ := foldl_save switchToRegs (by decide) (a.thread (a.core i).task)
    (a.core i).hart.gpr
  obtain ⟨loaded, a0, tp⟩ := switchToLoad_gpr (a.thread next) (a.core i).hart
  simp only [Function.update_self, switchTo_load differ]
  refine ⟨differ, trivial, fun p member => ?_, loaded, (switchToLoad_spec _ _).1, a0.trans prev,
    tp.trans arg⟩
  have saved : (switchTo a.thread (a.core i).task next (a.core i).hart).1 (a.core i).task
      = switchToRegs.foldl (fun th p => Function.update th p.2 ((a.core i).hart.gpr p.1))
        (a.thread (a.core i).task) := Function.update_self ..
  rw [saved]
  exact stored p member

/-- Steps while a task is on no hart, and has not come to its end -/
def Away (k : Kernel x Task) (t : Task) : System η x Task → System η x Task → Prop :=
  Guarded (Any (step k)) fun s _ => s.Idle t ∧ s.live t = true

/-- The thread of a task that is on no hart stays. -/
theorem thread_away (away : Run (Away k t) a b) : b.thread t = a.thread t := by
  induction away with
  | refl => rfl
  | @tail u v _ stepped ih =>
    rw [← ih]
    rcases stepped with ⟨⟨e, -, next⟩, idle, live⟩
    cases e with
    | code => cases next; rfl
    | switchTo i next' =>
      simp only [step, Option.ite_none_right_eq_some] at next
      rcases next with ⟨-, next⟩
      cases next
      exact Function.update_of_ne (idle i).symm ..
    | copyThread i p =>
      simp only [step, Option.ite_none_right_eq_some] at next
      rcases next with ⟨⟨fresh, -⟩, next⟩
      cases next
      refine Function.update_of_ne ?_ ..
      rintro rfl
      cases live.symm.trans fresh
    | free =>
      rw [step, Option.ite_none_right_eq_some] at next
      rcases next with ⟨-, next⟩
      cases next
      rfl

/-! ## Calls that return -/

/-- What the ABI lets a caller rely on: a function is at its return address when it returns, and has
the registers again that it has to save. -/
structure CallReturns (called returned : Hart x) : Prop where
  pc : returned.pc = called.gpr .ra
  saved : ∀ p ∈ switchToRegs, p.2 ≠ .ra → returned.gpr p.1 = called.gpr p.1

/-- A task that has called `__switch_to` returns from it when another switches to it, wherever and
however much later: with the registers that it has to save, and with the task that was there before
it on the hart that it is on now. -/
theorem switchTo_returns (out : step k a (.switchTo i next) = some b)
    (away : Run (Away k (a.core i).task) b c)
    (back : step k c (.switchTo j (a.core i).task) = some d) :
    (d.core j).task = (a.core i).task ∧ CallReturns (a.core i).hart (d.core j).hart ∧
      (d.core j).hart.gpr .ra = (a.core i).hart.gpr .ra ∧
      (d.core j).hart.gpr .a0 = k.taskStruct (c.core j).task ∧
      (d.core j).hart.gpr .tp = k.taskStruct (a.core i).task := by
  obtain ⟨-, -, stored, -⟩ := step_switchTo out
  obtain ⟨-, task, -, loaded, pc, prev, current⟩ := step_switchTo back
  have waits := congrFun (thread_away away)
  have same : ∀ p ∈ switchToRegs, (d.core j).hart.gpr p.1 = (a.core i).hart.gpr p.1 := by
    intro p member
    rw [loaded p member, waits, stored p member]
  refine ⟨task, ⟨?_, fun p member _ => same p member⟩, same (.ra, .ra) (by decide), prev, current⟩
  exact pc.trans ((waits .ra).trans (stored (.ra, .ra) (by decide)))

/-! ## New tasks -/

/-- `ret_from_kernel_thread`, where `__switch_to` returned to it, up to the call of `schedule_tail`,
which returns to `link` -/
def retFromKernelThread (sym : ForkSymbols x) (link : Word x) (h : Hart x) : Option (Hart x) :=
  if h.pc = sym.retFromKernelThread then
    some { h.set .ra link with pc := sym.scheduleTail }
  else none

/-- `ret_from_kernel_thread` from there on -/
def callFn (sym : ForkSymbols x) (h : Hart x) : Hart x :=
  let h := h.set .ra sym.retFromException
  let h := h.set .a0 (h.gpr .s1)
  { h with pc := h.gpr .s0 }

/-- A user task goes through `schedule_tail`, with the task before it as its argument, to
`ret_from_exception`, with its `struct pt_regs` on the stack. -/
def StartsUser (k : Kernel x Task) (p prev : Task) (h : Hart x) : Prop :=
  ∃ tail, retFromFork k.sym h = some tail ∧ tail.pc = k.sym.scheduleTail ∧
    tail.gpr .a0 = k.taskStruct prev ∧ tail.gpr .tp = k.taskStruct p ∧
    ∀ g, CallReturns tail g → g.pc = k.sym.retFromException ∧ g.gpr .sp = taskPtRegs k.stack p

/-- A kernel thread goes through `schedule_tail` to its function, which returns to
`ret_from_exception`, with the `struct pt_regs` on the stack. -/
def StartsKernel (k : Kernel x Task) (fn arg : Word x) (p prev : Task) (h : Hart x) : Prop :=
  ∀ link, ∃ tail, retFromKernelThread k.sym link h = some tail ∧ tail.pc = k.sym.scheduleTail ∧
    tail.gpr .a0 = k.taskStruct prev ∧ tail.gpr .tp = k.taskStruct p ∧
    ∀ g, CallReturns tail g → g.pc = link ∧ (callFn k.sym g).pc = fn ∧
      (callFn k.sym g).gpr .a0 = arg ∧ (callFn k.sym g).gpr .ra = k.sym.retFromException ∧
      (callFn k.sym g).gpr .sp = taskPtRegs k.stack p

omit [DecidableEq Task] in
/-- The thread of a new kernel thread -/
theorem copyThread_kthread (st : Stacks x Task) (sym : ForkSymbols x) (current p : Task)
    (flags fn arg gp : Word x) (m : Memory x.bits) (thread : Thread x) :
    let new := (copyThread st sym current p true flags fn arg gp m thread).2
    new .ra = sym.retFromKernelThread ∧ new .s0 = fn ∧ new .s1 = arg ∧
      new .sp = taskPtRegs st p := by
  simp [copyThread]

omit [DecidableEq Task] in
theorem startsUser_of_thread {thread : Thread x} {h : Hart x} {p prev : Task}
    (ra : thread .ra = k.sym.retFromFork) (sp : thread .sp = taskPtRegs k.stack p)
    (loaded : ∀ q ∈ switchToRegs, h.gpr q.1 = thread q.2) (pc : h.pc = thread .ra)
    (a0 : h.gpr .a0 = k.taskStruct prev) (tp : h.gpr .tp = k.taskStruct p) :
    StartsUser k p prev h := by
  have kept {r : Gpr} (other : r ≠ .ra) : (h.set .ra k.sym.retFromException).gpr r = h.gpr r :=
    Hart.gpr_set_ne h k.sym.retFromException other
  refine ⟨_, if_pos (pc.trans ra), rfl, (kept (by decide)).trans a0, (kept (by decide)).trans tp,
    fun g returns => ⟨returns.pc.trans (Hart.gpr_set_same h .ra k.sym.retFromException), ?_⟩⟩
  have saved := returns.saved (.sp, .sp) (by decide) (by decide)
  exact saved.trans ((kept (by decide)).trans ((loaded (.sp, .sp) (by decide)).trans sp))

omit [DecidableEq Task] in
theorem startsKernel_of_thread {thread : Thread x} {h : Hart x} {fn arg : Word x} {p prev : Task}
    (ra : thread .ra = k.sym.retFromKernelThread) (s0 : thread .s0 = fn) (s1 : thread .s1 = arg)
    (sp : thread .sp = taskPtRegs k.stack p)
    (loaded : ∀ q ∈ switchToRegs, h.gpr q.1 = thread q.2) (pc : h.pc = thread .ra)
    (a0 : h.gpr .a0 = k.taskStruct prev) (tp : h.gpr .tp = k.taskStruct p) :
    StartsKernel k fn arg p prev h := by
  intro link
  have kept {r : Gpr} (other : r ≠ .ra) : (h.set .ra link).gpr r = h.gpr r :=
    Hart.gpr_set_ne h link other
  refine ⟨_, if_pos (pc.trans ra), rfl, (kept (by decide)).trans a0, (kept (by decide)).trans tp,
    fun g returns => ?_⟩
  have held {r : Gpr} {q : ThreadReg} (member : (r, q) ∈ switchToRegs) (other : q ≠ .ra)
      (differ : r ≠ .ra) : g.gpr r = thread q :=
    (returns.saved (r, q) member other).trans ((kept differ).trans (loaded (r, q) member))
  have function := held (r := .s0) (q := .s0) (by decide) (by decide) (by decide)
  have argument := held (r := .s1) (q := .s1) (by decide) (by decide) (by decide)
  have stack := held (r := .sp) (q := .sp) (by decide) (by decide) (by decide)
  refine ⟨returns.pc.trans (Hart.gpr_set_same h .ra link), ?_, ?_, ?_, ?_⟩
  · simpa [callFn, Hart.gpr_set_ne, s0] using function
  · simpa [callFn, Hart.gpr_set_ne, s1] using argument
  · simp [callFn, Hart.gpr_set_ne]
  · simpa [callFn, Hart.gpr_set_ne, sp] using stack

/-- A task that `copy_thread` has made starts when another first switches to it, wherever and
however much later: a user task as one that returns from its system call, and a kernel thread with
its function. -/
theorem newTask_starts {p : Task} {kthread : Bool} {flags usp arg : Word x}
    (made : step k a (.copyThread i p kthread flags usp arg) = some b) (away : Run (Away k p) b c)
    (first : step k c (.switchTo j p) = some d) :
    (kthread = false → StartsUser k p (c.core j).task (d.core j).hart) ∧
      (kthread = true → StartsKernel k usp arg p (c.core j).task (d.core j).hart) := by
  obtain ⟨-, -, -, loaded, pc, prev, current⟩ := step_switchTo first
  have waits := thread_away away
  simp only [step, Option.ite_none_right_eq_some] at made
  rcases made with ⟨-, made⟩
  cases made
  rw [waits] at loaded pc
  simp only [Function.update_self] at loaded pc
  refine ⟨?_, ?_⟩
  · rintro rfl
    obtain ⟨ra, sp⟩ := copyThread_thread k.stack k.sym (a.core i).task p flags usp arg
      ((a.core i).hart.gpr .gp) (a.core i).hart.mem (a.thread (a.core i).task)
    exact startsUser_of_thread ra sp loaded pc prev current
  · rintro rfl
    obtain ⟨ra, s0, s1, sp⟩ := copyThread_kthread k.stack k.sym (a.core i).task p flags usp arg
      ((a.core i).hart.gpr .gp) (a.core i).hart.mem (a.thread (a.core i).task)
    exact startsKernel_of_thread ra s0 s1 sp loaded pc prev current

/-! ## Two tasks on one hart -/

/-- The labels and the stacks of the kernel -/
def twoTasks : Kernel .rv64 Bool := ⟨twoStacks, forkLabels, fun t => if t then 0x4000 else 0x3000⟩

/-- A hart at a call of `__switch_to` by a task, with a value in all the other registers -/
def calling (prev next : Word .rv64) (v : Word .rv64) : Hart .rv64 where
  mode := .supervisor
  pc := 0
  gpr r := if r = .a0 then prev else if r = .a1 then next else v
  csr _ := 0
  mem _ := 0

/-- The first task is about to switch to the second, which is new. -/
def first : System Unit .rv64 Bool where
  core _ := ⟨false, calling 0x3000 0x4000 7⟩
  thread _ _ := 9
  live _ := true

/-- It switches. -/
def second : System Unit .rv64 Bool where
  core := Function.update first.core () ⟨true, (switchTo first.thread false true
    (first.core ()).hart).2⟩
  thread := (switchTo first.thread false true (first.core ()).hart).1
  live := first.live

theorem step_first : step twoTasks first (.switchTo () true) = some second := by
  rw [step]
  exact if_pos (by decide)

/-- The second task is about to switch back. -/
def third : System Unit .rv64 Bool :=
  { second with core := Function.update second.core () ⟨true, calling 0x4000 0x3000 8⟩ }

theorem switchTo_returns_twoTasks : ∃ d, step twoTasks third (.switchTo () false) = some d ∧
    (d.core ()).hart.gpr .s0 = 7 ∧ (d.core ()).hart.gpr .a0 = 0x4000 := by
  have runs : Run (Away twoTasks false) second third :=
    .single ⟨⟨.code () (calling 0x4000 0x3000 8), trivial, rfl⟩, by decide, rfl⟩
  have back : (step twoTasks third (.switchTo () false)).isSome = true := by decide
  obtain ⟨d, back⟩ := Option.isSome_iff_exists.mp back
  obtain ⟨-, returns, -, prev, -⟩ := switchTo_returns step_first runs back
  exact ⟨d, back, returns.saved (.s0, .s0) (by decide) (by decide), prev⟩

/-- Before there is a second task -/
def alone : System Unit .rv64 Bool := { first with live := fun t => !t }

theorem newTask_starts_twoTasks : ∃ d : System Unit .rv64 Bool,
    (d.core ()).task = true ∧ StartsKernel twoTasks 0x5000 3 true false (d.core ()).hart := by
  have made : (step twoTasks alone (.copyThread () true true 0 0x5000 3)).any (fun b =>
      (step twoTasks b (.switchTo () true)).isSome && (b.core ()).task == false) = true := by
    decide
  obtain ⟨b, made, next⟩ := (Option.any_eq_true _ _).mp made
  obtain ⟨next, here⟩ := (Bool.and_eq_true_iff.mp next)
  obtain ⟨d, next⟩ := Option.isSome_iff_exists.mp next
  have starts := (newTask_starts made .refl next).2 rfl
  rw [beq_iff_eq.mp here] at starts
  exact ⟨d, (step_switchTo next).2.1, starts⟩

end RiscvLinux.Trap.Contexts
