import RiscvLinux.Lib.Stack
import RiscvLinux.Signal.Deliver

/-!
# Nested signals

A task with the signals whose handlers have not returned, innermost first. Between two steps of the
kernel user code does to its registers and its memory what it likes, also to the frames on its
stack; it may call `rt_sigreturn` with a frame of its own, and leave a handler without a return.

`returns_restore` follows one signal from its delivery to the return that matches it, through any
signals in between, and `rtSigreturn_supervisor` holds for every return.
-/

namespace RiscvLinux.Signal

open Lib Trap

variable {x : XLen}

/-! ## Tasks with handlers under way -/

/-- A signal whose handler has not returned: the task when its frame was set up, and after that. -/
structure Handling (x : XLen) where
  signal : KSignal x
  before : TaskStruct x
  after : TaskStruct x

/-- Where its frame is. -/
def Handling.frame (P : Platform x) (h : Handling x) : Word x :=
  getSigframe P h.before h.signal

/-- A task and the signals it is handling, the last one first. -/
structure Signalled (x : XLen) where
  task : TaskStruct x
  handling : List (Handling x)

/-- The signal `k` is delivered. -/
def Delivers (P : Platform x) (k : KSignal x) (s t : Signalled x) : Prop :=
  ∃ after, setupRtFrame P (handleSignalRestart s.task k) k s.task.sigmaskToSave = (after, false) ∧
    t = ⟨doSignal P s.task (some k),
      ⟨k, handleSignalRestart s.task k, after⟩ :: s.handling⟩

/-- The innermost handler returns: `sp` is at its frame, and the frame is as it was set up. -/
def Returns (P : Platform x) (s t : Signalled x) : Prop :=
  ∃ h rest, s.handling = h :: rest ∧ s.task.regs .sp = h.frame P ∧
    Intact (h.frame P) P.layout.size h.after.mem s.task.mem ∧
    t = ⟨sigreturnSyscall P s.task, rest⟩

/-- What happens to a task. -/
inductive Step (P : Platform x) : Signalled x → Signalled x → Prop
  /-- User code runs up to a trap, or another thread writes to the memory. -/
  | user (s : Signalled x) (regs : PtRegs x) (mem : UserMem x) :
    Step P s { s with task := { s.task with regs := regs, mem := mem } }
  /-- Work of the kernel that this module is not about. -/
  | kernel (s : Signalled x) (fstate : FpRegs) (fn : RestartFn x) :
    Step P s { s with task := { s.task with fstate := fstate, restartFn := fn } }
  | sigprocmask (s : Signalled x) (set : SigSet) :
    Step P s { s with task := s.task.setCurrentBlocked set }
  | sigsuspend (s : Signalled x) (set : SigSet) :
    Step P s { s with
      task := { s.task.setCurrentBlocked set with
        savedSigmask := s.task.blocked
        restoreSigmask := true } }
  | sigaltstack (s : Signalled x) (ssSp : Word x) (ssFlags : BitVec 32) (ssSize : Word x) :
    Step P s { s with task := s.task.doSigaltstack ssSp ssFlags ssSize (s.task.regs .sp) }
  | noSignal (s : Signalled x) : Step P s { s with task := doSignal P s.task none }
  /-- The frame of a signal cannot be set up. -/
  | badFrame (s : Signalled x) (k : KSignal x)
    (failed : (setupRtFrame P (handleSignalRestart s.task k) k s.task.sigmaskToSave).2 = true) :
    Step P s { s with task := doSignal P s.task (some k) }
  | deliver {s t : Signalled x} (k : KSignal x) (delivers : Delivers P k s t) : Step P s t
  | ret {s t : Signalled x} (returns : Returns P s t) : Step P s t
  /-- A call of `rt_sigreturn` that is no return of the innermost handler. -/
  | sigreturn (s : Signalled x) : Step P s { s with task := sigreturnSyscall P s.task }
  /-- The innermost handler is left without a return. -/
  | longjmp (s : Signalled x) (h : Handling x) (rest : List (Handling x))
    (handling : s.handling = h :: rest) : Step P s { s with handling := rest }

/-! ## What every step keeps -/

/-- The signals that cannot be blocked are not, and the alternate stack is either none or large
enough. -/
structure TaskStruct.Sane (t : TaskStruct x) : Prop where
  blocked : t.blocked &&& unblockable = 0
  saved : t.savedSigmask &&& unblockable = 0
  altstack : t.sasSsSize = 0 ∧ t.sasSsSp = 0 ∨ minSigStkSz ≤ t.sasSsSize

/-- The task is sane, and every frame has been set up for a sane one. -/
structure Signalled.Invariant (P : Platform x) (s : Signalled x) : Prop where
  sane : s.task.Sane
  setUp : ∀ h ∈ s.handling,
    h.before.Sane ∧ SetUp P h.before h.signal h.before.sigmaskToSave h.after

namespace TaskStruct.Sane

variable {t : TaskStruct x}

theorem setCurrentBlocked (sane : t.Sane) (set : SigSet) : (t.setCurrentBlocked set).Sane :=
  ⟨clearBits_and_of_covered BitVec.and_self, sane.saved, sane.altstack⟩

theorem restoreSavedSigmask (sane : t.Sane) : t.restoreSavedSigmask.Sane := by
  unfold TaskStruct.restoreSavedSigmask
  split
  · exact ⟨sane.saved, sane.saved, sane.altstack⟩
  · exact sane

theorem forceSigsegv (sane : t.Sane) : t.forceSigsegv.Sane := by
  refine ⟨?_, sane.saved, sane.altstack⟩
  have apart : (sigmask sigSegv : SigSet) &&& unblockable = 0 := by decide
  rw [TaskStruct.forceSigsegv, clearBits_and_of_disjoint apart]
  exact sane.blocked

theorem doSigaltstack (sane : t.Sane) (ssSp : Word x) (ssFlags : BitVec 32) (ssSize sp : Word x) :
    (t.doSigaltstack ssSp ssFlags ssSize sp).Sane := by
  unfold TaskStruct.doSigaltstack
  split_ifs with onStack unknown disable small
  · exact sane
  · exact sane
  · exact ⟨sane.blocked, sane.saved, .inl ⟨rfl, rfl⟩⟩
  · exact sane
  · exact ⟨sane.blocked, sane.saved, .inr (BitVec.not_lt.mp small)⟩

theorem sigmaskToSave (sane : t.Sane) : t.sigmaskToSave &&& unblockable = 0 := by
  unfold TaskStruct.sigmaskToSave
  split
  · exact sane.saved
  · exact sane.blocked

/-- Registers and memory do not matter. -/
theorem withRegs (sane : t.Sane) (regs : PtRegs x) (mem : UserMem x) :
    { t with regs := regs, mem := mem }.Sane :=
  ⟨sane.blocked, sane.saved, sane.altstack⟩

end TaskStruct.Sane

section

variable {P : Platform x} {t : TaskStruct x}

/-- The restart of a system call changes nothing but registers. -/
theorem handleSignalRestart_eq (t : TaskStruct x) (k : KSignal x) :
    ∃ regs, handleSignalRestart t k = { t with regs := regs } := by
  unfold handleSignalRestart
  split_ifs <;> exact ⟨_, rfl⟩

theorem sigmaskToSave_handleSignalRestart (t : TaskStruct x) (k : KSignal x) :
    (handleSignalRestart t k).sigmaskToSave = t.sigmaskToSave := by
  obtain ⟨regs, restarted⟩ := handleSignalRestart_eq t k
  rw [restarted]
  rfl

theorem TaskStruct.Sane.handleSignalRestart (sane : t.Sane) (k : KSignal x) :
    (Signal.handleSignalRestart t k).Sane := by
  obtain ⟨regs, restarted⟩ := handleSignalRestart_eq t k
  rw [restarted]
  exact sane.withRegs regs _

theorem doSignalRestart_eq (t : TaskStruct x) :
    ∃ regs, doSignalRestart t = { t with regs := regs } := by
  unfold doSignalRestart
  split_ifs <;> exact ⟨_, rfl⟩

/-- `setup_rt_frame` changes nothing but registers and memory. -/
theorem setupRtFrame_eq (P : Platform x) (t : TaskStruct x) (k : KSignal x) (set : SigSet) :
    ∃ regs mem, (setupRtFrame P t k set).1 = { t with regs := regs, mem := mem } := by
  simp only [setupRtFrame]
  split_ifs <;> exact ⟨_, _, rfl⟩

/-- The delivery of a signal leaves the settings of the alternate stack. -/
theorem doSignal_altstack (P : Platform x) (t : TaskStruct x) (k : KSignal x) :
    ((doSignal P t (some k)).sasSsSp, (doSignal P t (some k)).sasSsSize)
      = (t.sasSsSp, t.sasSsSize) := by
  obtain ⟨regs, restarted⟩ := handleSignalRestart_eq t k
  obtain ⟨regs', mem, setUp⟩ := setupRtFrame_eq P (handleSignalRestart t k) k t.sigmaskToSave
  rw [doSignal, Signal.handleSignal, setUp, restarted]
  cases (setupRtFrame P { t with regs := regs } k t.sigmaskToSave).2 <;> rfl

/-- Where a frame goes depends on the stacks alone. -/
theorem getSigframe_congr {t u : TaskStruct x} {k : KSignal x} (sp : t.regs .sp = u.regs .sp)
    (altstack : (t.sasSsSp, t.sasSsSize) = (u.sasSsSp, u.sasSsSize)) :
    getSigframe P t k = getSigframe P u k := by
  obtain ⟨start, size⟩ := Prod.mk.inj altstack
  have on : t.onSigStack = u.onSigStack := by
    funext a
    rw [TaskStruct.onSigStack, TaskStruct.onSigStack, start, size]
  have flags : t.sasSsFlags = u.sasSsFlags := by
    funext a
    rw [TaskStruct.sasSsFlags, TaskStruct.sasSsFlags, on, size]
  rw [getSigframe, getSigframe, TaskStruct.sigsp, TaskStruct.sigsp, sp, on, flags, start, size]

theorem TaskStruct.Sane.handleSignal (sane : t.Sane) (k : KSignal x) :
    (handleSignal P t k).Sane := by
  obtain ⟨regs, restarted⟩ := handleSignalRestart_eq t k
  obtain ⟨regs', mem, setUp⟩ :=
    setupRtFrame_eq P (Signal.handleSignalRestart t k) k t.sigmaskToSave
  rw [Signal.handleSignal, setUp, restarted]
  cases (setupRtFrame P { t with regs := regs } k t.sigmaskToSave).2 with
  | true => exact (sane.withRegs regs' mem).forceSigsegv
  | false =>
    refine ⟨clearBits_and_of_covered BitVec.and_self, sane.saved, sane.altstack⟩

theorem TaskStruct.Sane.rtSigreturn (sane : t.Sane) : (rtSigreturn P t).1.Sane := by
  have context : ∀ {t : TaskStruct x} {frame : Word x}, t.Sane →
      (restoreSigcontext P.layout t frame).1.Sane := by
    intro t frame sane
    simp only [restoreSigcontext]
    split <;> exact ⟨sane.blocked, sane.saved, sane.altstack⟩
  have unblocked : { t with restartFn := .doNoRestartSyscall }.Sane :=
    ⟨sane.blocked, sane.saved, sane.altstack⟩
  simp only [Signal.rtSigreturn]
  split
  · exact unblocked.forceSigsegv
  split
  · exact unblocked.forceSigsegv
  split
  · exact (context (unblocked.setCurrentBlocked _)).forceSigsegv
  split
  · exact (context (unblocked.setCurrentBlocked _)).forceSigsegv
  · rename_i restored
    simp only [restoreAltstack] at restored
    split at restored
    · cases restored
    split at restored
    · cases restored
    cases restored
    exact (context (unblocked.setCurrentBlocked _)).doSigaltstack ..

theorem TaskStruct.Sane.sigreturnSyscall (sane : t.Sane) : (sigreturnSyscall P t).Sane := by
  have entered : (t.setReg .sepc (t.regs .sepc + 4)).Sane := sane.withRegs _ t.mem
  have returned := entered.rtSigreturn (P := P)
  exact returned.withRegs _ _

theorem Signalled.Invariant.step : Keeps (Step P) (Signalled.Invariant P) := by
  intro s t inv step
  rcases inv with ⟨sane, setUp⟩
  cases step with
  | user regs mem => exact ⟨sane.withRegs regs mem, setUp⟩
  | kernel fstate fn => exact ⟨⟨sane.blocked, sane.saved, sane.altstack⟩, setUp⟩
  | sigprocmask set => exact ⟨sane.setCurrentBlocked set, setUp⟩
  | sigsuspend set =>
    exact ⟨⟨(sane.setCurrentBlocked set).blocked, sane.blocked, sane.altstack⟩, setUp⟩
  | sigaltstack ssSp ssFlags ssSize => exact ⟨sane.doSigaltstack .., setUp⟩
  | noSignal =>
    obtain ⟨regs, restarted⟩ := doSignalRestart_eq s.task
    have kept : (doSignalRestart s.task).Sane := by
      rw [restarted]
      exact sane.withRegs regs _
    exact ⟨kept.restoreSavedSigmask, setUp⟩
  | badFrame k => exact ⟨sane.handleSignal k, setUp⟩
  | deliver k delivers =>
    rcases delivers with ⟨after, done, rfl⟩
    refine ⟨sane.handleSignal k, fun h member => ?_⟩
    rcases List.mem_cons.mp member with rfl | earlier
    · have mask := sigmaskToSave_handleSignalRestart s.task k
      exact ⟨sane.handleSignalRestart k, mask ▸ setupRtFrame_done done⟩
    · exact setUp h earlier
  | ret returns =>
    rcases returns with ⟨h, rest, handling, _, _, rfl⟩
    exact ⟨sane.sigreturnSyscall, fun h' member => setUp h' (handling ▸ .tail _ member)⟩
  | sigreturn => exact ⟨sane.sigreturnSyscall, setUp⟩
  | longjmp h rest handling =>
    exact ⟨sane, fun h' member => setUp h' (handling ▸ .tail _ member)⟩

/-- A step puts at most one signal on the list, or takes one off. -/
theorem Step.pushPop ⦃s t : Signalled x⦄ (step : Step P s t) : PushPop s.handling t.handling := by
  cases step with
  | user | kernel | sigprocmask | sigsuspend | sigaltstack | noSignal | badFrame | sigreturn =>
    exact .same _
  | deliver k delivers =>
    rcases delivers with ⟨after, _, rfl⟩
    exact .push _ _
  | ret returns =>
    rcases returns with ⟨h, rest, handling, _, _, rfl⟩
    rw [handling]
    exact .pop _ _
  | longjmp h rest handling =>
    rw [handling]
    exact .pop _ _

end

/-! ## What a return restores -/

/-- `v` is what `t` was when its frame was set up, after a return from `u`: the registers of user
code and the mask that was to be restored, and the settings of the alternate stack unless the
stack of `t` is on the one that is in force. -/
structure Restores (t u v : TaskStruct x) : Prop where
  regs : userRegs v.regs = userRegs t.regs
  blocked : v.blocked = t.sigmaskToSave
  altstack : (v.sasSsSp, v.sasSsSize) =
    if u.onSigStack (t.regs .sp) then (u.sasSsSp, u.sasSsSize) else (t.sasSsSp, t.sasSsSize)

/-- The settings that were saved are taken, unless the stack pointer is on the stack in force. -/
theorem doSigaltstack_saved {t u : TaskStruct x} (sane : t.Sane) :
    ((u.doSigaltstack t.sasSsSp (t.sasSsFlags (t.regs .sp)) t.sasSsSize (t.regs .sp)).sasSsSp,
      (u.doSigaltstack t.sasSsSp (t.sasSsFlags (t.regs .sp)) t.sasSsSize (t.regs .sp)).sasSsSize)
      = if u.onSigStack (t.regs .sp) then (u.sasSsSp, u.sasSsSize)
        else (t.sasSsSp, t.sasSsSize) := by
  unfold TaskStruct.doSigaltstack
  by_cases onStack : u.onSigStack (t.regs .sp) = true
  · rw [if_pos onStack, if_pos onStack]
  · rw [if_neg onStack, if_neg onStack]
    by_cases none : t.sasSsSize = 0
    · have flags : t.sasSsFlags (t.regs .sp) = ssDisable := if_pos none
      have zero : t.sasSsSp = 0 := by
        rcases sane.altstack with ⟨_, zero⟩ | large
        · exact zero
        · rw [none] at large
          exact absurd large (by cases x <;> decide)
      rw [flags, if_neg (fun unknown => unknown.1 rfl), if_pos rfl, none, zero]
    · have flags : t.sasSsFlags (t.regs .sp) = ssOnStack ∨ t.sasSsFlags (t.regs .sp) = 0 := by
        rw [TaskStruct.sasSsFlags, if_neg none]
        split
        · exact .inl rfl
        · exact .inr rfl
      have large : ¬t.sasSsSize < minSigStkSz :=
        BitVec.not_lt.mpr (sane.altstack.resolve_left fun both => none both.1)
      have known : ¬(t.sasSsFlags (t.regs .sp) ≠ ssDisable ∧
          t.sasSsFlags (t.regs .sp) ≠ ssOnStack ∧ t.sasSsFlags (t.regs .sp) ≠ 0) := by
        intro given
        rcases given with ⟨_, notOn, notZero⟩
        exact flags.elim notOn notZero
      have enabled : t.sasSsFlags (t.regs .sp) ≠ ssDisable := by
        rcases flags with on | zero
        · rw [on]
          decide
        · rw [zero]
          decide
      rw [if_neg known, if_neg enabled, if_neg large]

/-- A return through an intact frame restores what the frame was set up from. -/
theorem SetUp.restores {P : Platform x} {t t' u : TaskStruct x} {k : KSignal x}
    (setUp : SetUp P t k t.sigmaskToSave t') (sane : t.Sane)
    (sp : u.regs .sp = getSigframe P t k)
    (intact : Intact (getSigframe P t k) P.layout.size t'.mem u.mem) :
    Restores t u (Signal.sigreturnSyscall P u) := by
  obtain ⟨fp, regs, _, returned⟩ := setUp.sigreturnSyscall sp intact
  refine ⟨setUp.userRegs_sigreturnSyscall sp intact, ?_, ?_⟩
  · rw [returned]
    exact (TaskStruct.doSigaltstack_blocked ..).trans (clearBits_eq_self sane.sigmaskToSave)
  · rw [returned]
    exact doSigaltstack_saved (u := { u with
      restartFn := .doNoRestartSyscall
      blocked := clearBits t.sigmaskToSave unblockable
      regs := regs
      fstate := fp }) sane

/-- A return through the frame that is on top. -/
theorem Returns.restores {P : Platform x} {t after : TaskStruct x} {u v : Signalled x}
    {k : KSignal x} {rest : List (Handling x)} (returns : Returns P u v) (sane : t.Sane)
    (done : setupRtFrame P (handleSignalRestart t k) k t.sigmaskToSave = (after, false))
    (top : u.handling = ⟨k, handleSignalRestart t k, after⟩ :: rest) :
    Restores (handleSignalRestart t k) u.task v.task := by
  rcases returns with ⟨h, rest', handling, sp, intact, rfl⟩
  obtain ⟨rfl, -⟩ := List.cons.inj (handling.symm.trans top)
  have setUp := setupRtFrame_done done
  rw [← sigmaskToSave_handleSignalRestart t k] at setUp
  exact setUp.restores (sane.handleSignalRestart k) sp intact

/-- No `rt_sigreturn` takes a supervisor field from user memory, on its way through the system call
path either. -/
theorem sigreturnSyscall_supervisor (P : Platform x) (t : TaskStruct x) :
    supervisorPart (sigreturnSyscall P t).regs = supervisorPart t.regs := by
  have kept : ∀ (t : TaskStruct x) (v : Word x) {r : PtReg}, UserField r →
      supervisorPart (t.setReg r v).regs = supervisorPart t.regs := by
    intro t v r user
    have differ : ∀ r', ¬UserField r' → (t.setReg r v).regs r' = t.regs r' := fun r' not =>
      t.setReg_ne v fun same => not (same ▸ user)
    rw [supervisorPart, supervisorPart, differ .sstatus (by decide), differ .sbadaddr (by decide),
      differ .scause (by decide)]
  rw [sigreturnSyscall, kept _ _ (by decide), rtSigreturn_supervisor, kept _ _ (by decide)]

/-- A signal is delivered in any state that a task comes to, and `Returns` is the return that brings
the list of signals back to its length, and in between the list is longer. Then the return
restores what the signal interrupted. And whatever user code has written to its memory, no
`rt_sigreturn` takes a supervisor field from it. -/
theorem returns_restore {P : Platform x} {s₀ s s₁ s₂ s₃ : Signalled x} {k : KSignal x}
    (sane : s₀.task.Sane) (fresh : s₀.handling = []) (before : Run (Step P) s₀ s)
    (delivers : Delivers P k s s₁)
    (inside : Run (Guarded (Step P) fun _ t => s.handling.length < t.handling.length) s₁ s₂)
    (returns : Returns P s₂ s₃) (matching : s₃.handling.length = s.handling.length) :
    Restores (handleSignalRestart s.task k) s₂.task s₃.task ∧
      ∀ t : TaskStruct x,
        supervisorPart (sigreturnSyscall P t).regs = supervisorPart t.regs := by
  refine ⟨?_, sigreturnSyscall_supervisor P⟩
  have start : s₀.Invariant P := ⟨sane, fun h member => by
    rw [fresh] at member
    cases member⟩
  have inv : s.Invariant P := Run.keeps Signalled.Invariant.step start before
  rcases delivers with ⟨after, done, rfl⟩
  -- The signal on top is the one that was put there.
  obtain ⟨h, rest, handling, _, _, rfl⟩ := id returns
  have top : h = ⟨k, handleSignalRestart s.task k, after⟩ := by
    have same := (Run.atHeight_eq Signalled.handling Step.pushPop (Nat.lt_succ_self _) inside).1
    have height : rest.length = s.handling.length := matching
    rw [handling, ← height, atHeight_cons_length, height, atHeight_cons_length] at same
    exact Option.some.inj same
  exact returns.restores inv.sane done (handling.trans (congrArg (· :: rest) top))

/-! ## Deliveries on fixed inputs -/

section

variable {t : TaskStruct .rv64} {k : KSignal .rv64} {s : Signalled .rv64}

/-- Copies to memory that can all be written do not fail. -/
theorem Copies.putAll_writable {c : Copies x} {a : Word x} {rs : List (Nat × List UInt8)}
    (writable : ∀ p, c.mem.writable p = true) :
    (c.putAll a rs).err = c.err ∧ (c.putAll a rs).mem.readable = c.mem.readable ∧
      (c.putAll a rs).mem.writable = c.mem.writable := by
  induction rs generalizing c with
  | nil => exact ⟨rfl, rfl, rfl⟩
  | cons r rs ih =>
    have all : reach c.mem.writable (fieldAt a r.1) r.2.length = r.2.length :=
      reach_eq fun _ _ => writable _
    have done : (c.put (fieldAt a r.1) r.2).err = c.err := by
      simp only [Copies.put, UserMem.copyTo, all, Nat.lt_irrefl, decide_false, Bool.or_false]
    obtain ⟨err, kept⟩ := ih (c := c.put (fieldAt a r.1) r.2) writable
    exact ⟨err.trans done, kept⟩

/-- A task whose memory can all be written gets its frame, and can read what it could. -/
theorem setupRtFrame_writable (set : SigSet)
    (ok : accessOk plainPlatform (getSigframe plainPlatform t k) plainLayout.size)
    (writable : ∀ p, t.mem.writable p = true) :
    ∃ after, setupRtFrame plainPlatform t k set = (after, false) ∧
      after.mem.readable = t.mem.readable ∧ after.mem.writable = t.mem.writable ∧
      after.regs .sp = getSigframe plainPlatform t k := by
  have copied : (Copies.putAll ⟨t.mem, false⟩ (getSigframe plainPlatform t k)
      (frameFields plainLayout t set)).err = false ∧ _ := Copies.putAll_writable writable
  rcases copied with ⟨err, readable, writable'⟩
  have kept : ¬(Copies.putAll ⟨t.mem, false⟩ (getSigframe plainPlatform t k)
      (frameFields plainLayout t set)).err = true := by
    rw [err]
    exact Bool.false_ne_true
  refine ⟨_, (if_neg (not_not_intro ok)).trans (if_neg kept), readable, writable', ?_⟩
  simp only [enterHandler, TaskStruct.setReg_regs]
  iterate 3 rw [Function.update_of_ne (by decide)]
  exact Function.update_self ..

/-- A signal that such a task gets, and whose handler returns at once. -/
theorem delivers_returns (s : Signalled .rv64) (k : KSignal .rv64)
    (ok : accessOk plainPlatform
      (getSigframe plainPlatform (handleSignalRestart s.task k) k) plainLayout.size)
    (readable : ∀ p, s.task.mem.readable p = true) (writable : ∀ p, s.task.mem.writable p = true) :
    ∃ s₁ s₂, Delivers plainPlatform k s s₁ ∧ Returns plainPlatform s₁ s₂ ∧
      s₂.handling = s.handling ∧ (∀ p, s₁.task.mem.readable p = true) ∧
      ∀ p, s₁.task.mem.writable p = true := by
  obtain ⟨regs, restarted⟩ := handleSignalRestart_eq s.task k
  have memory : (handleSignalRestart s.task k).mem = s.task.mem := by rw [restarted]
  obtain ⟨after, done, readable', writable', sp⟩ :=
    setupRtFrame_writable s.task.sigmaskToSave ok (by rw [memory]; exact writable)
  rw [memory] at readable' writable'
  have delivered : doSignal plainPlatform s.task (some k) = after.signalDelivered k := by
    rw [doSignal, handleSignal, done]
    rfl
  refine ⟨_, _, ⟨after, done, rfl⟩, ⟨_, s.handling, rfl, ?_, ⟨?_, ?_⟩, rfl⟩, rfl, ?_, ?_⟩ <;>
    simp only [delivered]
  · exact sp
  · rfl
  · exact fun i _ => (congrFun readable' _).trans (readable _)
  · exact fun p => (congrFun readable' p).trans (readable p)
  · exact fun p => (congrFun writable' p).trans (writable p)

end

theorem sigusr_le : 12 ≤ 64 := by decide

/-- A signal with a handler that blocks nothing else. -/
def sigusr (sig : Nat) (sig_le : sig ≤ 12) : KSignal .rv64 where
  sig := sig
  sig_le := Nat.le_trans sig_le sigusr_le
  handler := 0x20000
  flags := 0
  mask := 0
  info := []

/-- `SIGUSR1`. -/
def sigusr1 : KSignal .rv64 := sigusr 10 (by decide)

/-- `SIGUSR2`. -/
def sigusr2 : KSignal .rv64 := sigusr 12 (by decide)

/-- The registers of user code with its stack below an address. -/
def stackBelow (sp : Word .rv64) : PtRegs .rv64 := Function.update (fun _ => 0) .sp sp

/-- A task in user code. -/
def running : Signalled .rv64 :=
  ⟨plainTask (stackBelow 0x40000), []⟩

theorem running_sane : running.task.Sane :=
  ⟨by decide, by decide, .inl ⟨rfl, rfl⟩⟩

/-- The handler of a signal has called functions. -/
def Signalled.deeper (s : Signalled .rv64) : Signalled .rv64 :=
  { s with task := { s.task with regs := stackBelow 0x30000 } }

/-- The frame of a second signal is where the memory of user code is. -/
theorem accessOk_deeper {s : Signalled .rv64}
    (altstack : (s.task.sasSsSp, s.task.sasSsSize) = (0, 0)) :
    accessOk plainPlatform (getSigframe plainPlatform
      (handleSignalRestart s.deeper.task sigusr2) sigusr2) plainLayout.size := by
  have noCall : handleSignalRestart s.deeper.task sigusr2 = s.deeper.task :=
    if_neg (by decide : ¬stackBelow 0x30000 .scause = excSyscall)
  have place : getSigframe plainPlatform s.deeper.task sigusr2
      = getSigframe plainPlatform (plainTask (stackBelow 0x30000)) sigusr2 :=
    getSigframe_congr rfl altstack
  rw [noCall, place]
  decide

/-- A second signal while the handler of the first runs, by the theorem. -/
theorem returns_restore_nested : ∃ s₁ s₂ s₃ s₄, Delivers plainPlatform sigusr1 running s₁ ∧
    Delivers plainPlatform sigusr2 s₁.deeper s₂ ∧ s₂.handling.length = 2 ∧
    Returns plainPlatform s₃ s₄ ∧
    Restores (handleSignalRestart running.task sigusr1) s₃.task s₄.task := by
  obtain ⟨s₁, _, delivers, ⟨h, rest, handling, sp, intact, -⟩, -, readable, writable⟩ :=
    delivers_returns running sigusr1 (by decide) (fun _ => rfl) fun _ => rfl
  have altstack : (s₁.task.sasSsSp, s₁.task.sasSsSize) = (0, 0) := by
    rcases delivers with ⟨after, -, rfl⟩
    exact (doSignal_altstack plainPlatform running.task sigusr1).trans rfl
  have none : rest = [] := by
    rcases delivers with ⟨after, -, rfl⟩
    exact (List.cons.inj handling).2.symm
  subst none
  obtain ⟨s₂, s₂', delivers', returns', matching, -, -⟩ :=
    delivers_returns s₁.deeper sigusr2 (accessOk_deeper altstack) readable writable
  have two : s₂.handling.length = 2 := by
    rcases delivers' with ⟨after, -, rfl⟩
    simp only [Signalled.deeper, handling, List.length_cons, List.length_nil]
  have one : s₂'.handling = [h] := by rw [matching, Signalled.deeper, handling]
  -- the handler comes back from its functions
  let s₃ := { s₂' with task := { s₂'.task with regs := s₁.task.regs, mem := s₁.task.mem } }
  have inside : Run (Guarded (Step plainPlatform)
      fun _ t => running.handling.length < t.handling.length) s₁ s₃ := by
    refine .head ⟨.user s₁ (stackBelow 0x30000) s₁.task.mem, ?_⟩
      (.head ⟨.deliver sigusr2 delivers', ?_⟩
        (.head ⟨.ret returns', ?_⟩ (.single ⟨.user s₂' s₁.task.regs s₁.task.mem, ?_⟩)))
    · exact Nat.lt_of_lt_of_eq Nat.zero_lt_one (congrArg List.length handling).symm
    · exact Nat.lt_of_lt_of_eq Nat.zero_lt_two two.symm
    · exact Nat.lt_of_lt_of_eq Nat.zero_lt_one (congrArg List.length one).symm
    · exact Nat.lt_of_lt_of_eq Nat.zero_lt_one (congrArg List.length one).symm
  have returns : Returns plainPlatform s₃ ⟨sigreturnSyscall plainPlatform s₃.task, []⟩ :=
    ⟨h, [], one, sp, intact, rfl⟩
  exact ⟨s₁, s₂, s₃, _, delivers, delivers', two, returns,
    (returns_restore running_sane rfl .refl delivers inside returns rfl).1⟩

/-- The same task in `sigsuspend`, with one signal blocked. -/
def suspended : Signalled .rv64 :=
  { running with
    task := { running.task.setCurrentBlocked 1 with
      savedSigmask := running.task.blocked
      restoreSigmask := true } }

/-- The mask that a return restores is not always the one when the frame was set up: after
`sigsuspend` it is the one of before the call. -/
theorem blocked_sigsuspend : ∃ s s₁ s₂, Run (Step plainPlatform) running s ∧
    Delivers plainPlatform sigusr1 s s₁ ∧ Returns plainPlatform s₁ s₂ ∧
    s₂.task.blocked ≠ s.task.blocked := by
  obtain ⟨s₁, s₂, delivers, returns, -⟩ := delivers_returns suspended sigusr1 (by decide)
    (fun _ => rfl) fun _ => rfl
  refine ⟨suspended, s₁, s₂, .single (.sigsuspend running 1), delivers, returns, ?_⟩
  have sane : suspended.task.Sane := ⟨by decide, by decide, .inl ⟨rfl, rfl⟩⟩
  rcases delivers with ⟨after, done, rfl⟩
  rw [(returns.restores sane done rfl).blocked, sigmaskToSave_handleSignalRestart]
  decide

end RiscvLinux.Signal
