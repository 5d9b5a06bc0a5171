import RiscvLinux.Lib.Stack
import RiscvLinux.Trap.Frames

/-!
# Every trap returns to what it interrupted

From the invariant `Nested` and the fact that the contexts of the traps not yet left are
a stack: a trap is matched with the return that brings the stack of its task back to the
height it had, and that return restores the context the trap interrupted, with the
writes of handlers to the structure of that trap carried out.
-/

namespace RiscvLinux.Trap

open Lib

variable {x : XLen} {Task : Type} [DecidableEq Task] {st : Stacks x Task} {sym : Symbols x}

/-- The contexts that the traps of a task interrupted, innermost first. -/
def System.entries (s : System x Task) (t : Task) : List (PtRegs x) :=
  (s.frames t).map Frame.entry

/-- Where the traps of a task are, and the contexts they interrupted. -/
def System.marks (s : System x Task) (t : Task) : List (Nat × PtRegs x) :=
  (s.frames t).map fun f => (f.off, f.entry)

/-- A step pushes or pops at most one trap of a task, and neither moves one nor changes what it
interrupted. -/
theorem Step.pushPop_marks (t : Task) {s s' : System x Task} (step : Step st sym s s') :
    PushPop (s.marks t) (s'.marks t) := by
  cases step with
  | user | kernel | switchTo | work => exact .same _
  | trap stvec cause badaddr =>
    by_cases here : t = s.current
    · subst here
      simp only [System.marks, System.trapped, Function.update_self, List.map_cons]
      exact .push _ _
    · simp only [System.marks, System.trapped, Function.update_of_ne here]
      exact .same _
  | write u inner f outer r v _ frames =>
    by_cases here : t = u
    · subst here
      simp only [System.marks, System.written, Function.update_self, frames, List.map_append,
        List.map_cons]
      exact .same _
    · simp only [System.marks, System.written, Function.update_of_ne here]
      exact .same _
  | fork u regs _ _ fresh =>
    by_cases here : t = u
    · subst here
      simp only [System.marks, System.forked, Function.update_self, fresh, List.map_cons]
      exact .push _ _
    · simp only [System.marks, System.forked, Function.update_of_ne here]
      exact .same _
  | leave f outer h _ frames =>
    by_cases here : t = s.current
    · subst here
      simp only [System.marks, Function.update_self, frames, List.map_cons]
      exact .pop _ _
    · simp only [System.marks, Function.update_of_ne here]
      exact .same _

/-- The steps after which a task has more than `n` traps not yet left. -/
def Inside (st : Stacks x Task) (sym : Symbols x) (t : Task) (n : Nat) :
    System x Task → System x Task → Prop :=
  Guarded (Step st sym) fun _ s => n < (s.entries t).length

theorem nested_inside {t : Task} {n : Nat} : Keeps (Inside st sym t n) (Nested st) :=
  fun _ _ nested step => nested_step nested step.1

/-- A trap stays where it is, with the context it interrupted, while its task has more than `n`
traps, if it is the one above `n` others. -/
theorem mark_of_inside {s u : System x Task} {t : Task} {f g : Frame x}
    {outer others : List (Frame x)}
    (run : Run (Inside st sym t others.length) s u) (start : s.frames t = g :: others)
    (frames : u.frames t = f :: outer) (height : outer.length = others.length) :
    f.off = g.off ∧ f.entry = g.entry := by
  have marks : ∀ {v : System x Task} {h : Frame x} {rest : List (Frame x)},
      v.frames t = h :: rest → v.marks t = (h.off, h.entry) :: rest.map fun f => (f.off, f.entry) :=
    fun here => by rw [System.marks, here, List.map_cons]
  have lengths : ∀ v : System x Task, (v.marks t).length = (v.entries t).length := fun v => by
    rw [System.marks, System.entries, List.length_map, List.length_map]
  have above : others.length < (s.marks t).length := by
    rw [marks start, List.length_cons, List.length_map]
    exact Nat.lt_succ_self _
  have guarded : Run (Guarded (Step st sym) fun _ v => others.length < (v.marks t).length) s u :=
    Relation.ReflTransGen.mono (fun _ v step =>
      ⟨step.1, Nat.lt_of_lt_of_eq step.2 (lengths v).symm⟩) s u run
  obtain ⟨same, -⟩ := Run.atHeight_eq (System.marks · t)
    (fun _ _ step => step.pushPop_marks t) above guarded
  have bottom := atHeight_cons_length (f.off, f.entry) (outer.map fun f => (f.off, f.entry))
  have top := atHeight_cons_length (g.off, g.entry) (others.map fun f => (f.off, f.entry))
  rw [List.length_map, height] at bottom
  rw [List.length_map] at top
  rw [marks frames, marks start, bottom, top] at same
  exact Prod.mk.inj (Option.some.inj same)

/-- The interrupted context of a trap stays with its frame until the trap is left. -/
theorem entry_of_inside {s u : System x Task} {stvec cause badaddr : Word x} {f : Frame x}
    {outer : List (Frame x)}
    (run : Run (Inside st sym s.current (s.frames s.current).length)
      (s.trapped st sym stvec cause badaddr) u)
    (frames : u.frames s.current = f :: outer)
    (height : outer.length = (s.frames s.current).length) :
    f.entry = context (s.hart.trap stvec cause badaddr) :=
  (mark_of_inside run (Function.update_self ..) frames height).2

/-- Traps over traps of any depth, in every run of the kernel from its start: `sscratch` is
zero in kernel code and the end of the task's kernel stack in user code; a trap from user mode
puts its structure, with the interrupted context, at `task_pt_regs`; every return gives the
program counter and the general registers of the innermost frame; and the return that matches a
trap leaves them as they were at the trap, up to the writes of handlers to the structure of that
trap. -/
theorem traps_nest {boot s : System x Task} (booted : Booted boot)
    (run : Run (Step st sym) boot s) :
    (s.hart.mode = .supervisor → s.hart.csr .sscratch = 0)
    ∧ (s.hart.mode = .user → s.hart.csr .sscratch = st.top s.current)
    ∧ (∀ stvec cause badaddr, s.hart.mode = .user →
        let s' := s.trapped st sym stvec cause badaddr
        s'.hart.gpr .sp = taskPtRegs st s.current
        ∧ ∀ r, frameWord s'.hart.mem (taskPtRegs st s.current) r
            = context (s.hart.trap stvec cause badaddr) r)
    ∧ (∀ f outer h, s.frames s.current = f :: outer → s.hart.gpr .sp = st.at s.current f.off →
        retFromException sym s.hart = .left h →
        (∀ r, h.gpr r = rewritten f.writes f.entry r.slot)
        ∧ h.pc = rewritten f.writes f.entry .sepc)
    ∧ ∀ stvec cause badaddr u f outer h,
        (s.hart.mode = .supervisor → Room st s) →
        Run (Inside st sym s.current (s.frames s.current).length)
          (s.trapped st sym stvec cause badaddr) u →
        u.current = s.current → u.frames s.current = f :: outer →
        outer.length = (s.frames s.current).length →
        u.hart.gpr .sp = st.at s.current f.off → retFromException sym u.hart = .left h →
        (∀ r, h.gpr r = rewritten f.writes (context (s.hart.trap stvec cause badaddr)) r.slot)
        ∧ h.pc = rewritten f.writes (context (s.hart.trap stvec cause badaddr)) .sepc
        ∧ (∀ r, r.slot ∉ f.writes.map Prod.fst → h.gpr r = s.hart.gpr r)
        ∧ (PtReg.sepc ∉ f.writes.map Prod.fst → h.pc = s.hart.pc) := by
  have nested : Nested st s := Run.keeps nested_step booted.nested run
  refine ⟨nested.kernel, fun user => (nested.user user).1, ?_, ?_, ?_⟩
  · intro stvec cause badaddr user s'
    obtain ⟨-, top⟩ := nested.frameAddr_trap stvec cause badaddr
      fun kernel => absurd (user.symm.trans kernel) nofun
    have addr := top user
    refine ⟨(handleException_sp sym _).trans addr, fun r => ?_⟩
    rw [← addr]
    exact saveAll_frame (s.hart.trap stvec cause badaddr) r
  · intro f outer h frames sp exit
    obtain ⟨gpr, pc, -⟩ := nested.restores frames sp exit
    exact ⟨gpr, pc⟩
  · intro stvec cause badaddr u f outer h room inside task frames height sp exit
    have trapped : Nested st (s.trapped st sym stvec cause badaddr) :=
      nested_step nested (Step.trap stvec cause badaddr room)
    have later : Nested st u := Run.keeps nested_inside trapped inside
    have entry := entry_of_inside inside frames height
    obtain ⟨gpr, pc, -⟩ := later.restores (task ▸ frames) (task ▸ sp) exit
    rw [Frame.now, entry] at pc
    simp only [Frame.now, entry] at gpr
    refine ⟨gpr, pc, fun r untouched => ?_, fun untouched => ?_⟩
    · rw [gpr, rewritten_of_notMem untouched, context, Gpr.source_slot]
      rfl
    · rw [pc, rewritten_of_notMem untouched]
      rfl

/-! ## A task of user mode -/

/-- Two stacks. -/
def twoStacks : Stacks .rv64 Bool where
  page
    | false => 0x10000
    | true => 0x20000
  apart := by decide
  top_ne_zero := by decide

/-- Labels that the run below does not come to. -/
def nowhere : Symbols .rv64 := ⟨0, 0, 0⟩

/-- A kernel that has started, with empty memory. -/
def started : System .rv64 Bool where
  hart := ⟨.supervisor, 0, fun _ => 0, fun _ => 0, fun _ => 0⟩
  current := false
  frames _ := []

/-- The kernel has forked a task with a structure of zeros and switched to it. -/
def switched : System .rv64 Bool where
  hart := { (started.forked twoStacks true fun _ => 0).hart with
    gpr := fun r => if r = .sp then taskPtRegs twoStacks true else 0 }
  current := true
  frames := (started.forked twoStacks true fun _ => 0).frames

theorem toBytes_zero {w : Nat} (n : Nat) : toBytes n (0 : BitVec w) = List.replicate n 0 := by
  simp [toBytes, List.map_const']

/-- Storing zeros into empty memory leaves it empty. -/
theorem storeFields_zero {w n : Nat} (base : BitVec w) (is : List Nat) :
    Memory.storeFields (fun _ => 0) n base (is.map fun i => (i, 0)) = fun _ => 0 := by
  induction is with
  | nil => rfl
  | cons i is ih =>
    have first : Memory.writeWord (fun _ => 0) n (field n base i) 0 = fun _ => 0 := by
      funext p
      rw [Memory.writeWord, toBytes_zero, Memory.write, List.getD_eq_getElem?_getD,
        List.getElem?_replicate]
      split <;> rfl
    exact (congrArg (Memory.storeFields · n base _) first).trans ih

theorem switched_mem : switched.hart.mem = fun _ => 0 :=
  storeFields_zero (taskPtRegs twoStacks true) (PtReg.all.map PtReg.index)

theorem switched_readWord (a : Word .rv64) : switched.hart.mem.readWord 8 a = 0 := by
  have zeros : Memory.read (fun _ => 0) a 8 = toBytes 8 (0 : Word .rv64) := by
    rw [toBytes_zero]
    exact List.map_const' ..
  rw [switched_mem, Memory.readWord, zeros]
  exact ofBytes_toBytes (Nat.le_refl 64) 0

theorem run_switched : Run (Step twoStacks nowhere) started switched :=
  .tail (.single (.fork true _ rfl (by decide) rfl)) (.switchTo true _ rfl)

theorem exit_switched : ∃ h, retFromException nowhere switched.hart = .left h := by
  have status : frameWord switched.hart.mem (switched.hart.gpr .sp) .sstatus = 0 :=
    switched_readWord _
  have flags : threadFlags nowhere switched.hart = 0 := switched_readWord _
  exact retFromException_leaves (by rw [status, BitVec.ofNat_eq_ofNat, BitVec.zero_and])
    (by rw [flags, BitVec.ofNat_eq_ofNat, BitVec.zero_and])

/-- Kernel code has used every register but the stack pointer. -/
def System.used (s : System x Task) : System x Task :=
  { s with hart := { s.hart with gpr := Function.update (fun _ => 7) .sp (s.hart.gpr .sp) } }

omit [DecidableEq Task] in
theorem System.used_sp (s : System x Task) : s.used.hart.gpr .sp = s.hart.gpr .sp := by
  simp [System.used]

omit [DecidableEq Task] in
theorem System.used_frames (s : System x Task) : s.used.frames = s.frames := rfl

omit [DecidableEq Task] in
theorem System.used_mem (s : System x Task) : s.used.hart.mem = s.hart.mem := rfl

theorem step_used {s : System x Task} (kernel : s.hart.mode = .supervisor) :
    Step st sym s s.used :=
  .kernel s.used.hart kernel kernel rfl fun _ _ _ => rfl

theorem System.trapped_sp (s : System x Task) (stvec cause badaddr : Word x) :
    (s.trapped st sym stvec cause badaddr).hart.gpr .sp
      = frameAddr (s.hart.trap stvec cause badaddr) :=
  handleException_sp sym (s.hart.trap stvec cause badaddr)

theorem System.trapped_frames (s : System x Task) (stvec cause badaddr : Word x) :
    (s.trapped st sym stvec cause badaddr).frames s.current
      = ⟨(frameAddr (s.hart.trap stvec cause badaddr) - st.page s.current).toNat,
          context (s.hart.trap stvec cause badaddr), []⟩ :: s.frames s.current :=
  Function.update_self ..

theorem run_used (s : System x Task) (stvec cause badaddr : Word x) :
    Run (Inside st sym s.current (s.frames s.current).length)
      (s.trapped st sym stvec cause badaddr) (s.trapped st sym stvec cause badaddr).used := by
  have mode : (s.trapped st sym stvec cause badaddr).hart.mode = .supervisor :=
    handleException_mode sym (s.hart.trap stvec cause badaddr)
  refine .single ⟨step_used mode, ?_⟩
  change _ < ((s.trapped st sym stvec cause badaddr).used.entries s.current).length
  rw [System.entries, System.used_frames, s.trapped_frames, List.map_cons, List.length_cons,
    List.length_map]
  exact Nat.lt_succ_self _

/-- A trap over kernel code is left with its own stack pointer. -/
theorem exit_used {s : System x Task} (kernel : s.hart.mode = .supervisor)
    (stvec cause badaddr : Word x) :
    ∃ h, retFromException sym (s.trapped st sym stvec cause badaddr).used.hart = .left h := by
  have status : frameWord (s.trapped st sym stvec cause badaddr).hart.mem
      (frameAddr (s.hart.trap stvec cause badaddr)) .sstatus
        = trapStatus s.hart.mode (s.hart.csr .sstatus) := by
    rw [System.trapped, handleException_mem, saveAll_frame]
    rfl
  refine retFromException_leaves_kernel fun zero => ?_
  rw [System.used_sp, System.trapped_sp, System.used_mem, status] at zero
  have mode := sretMode_trapStatus s.hart.mode (s.hart.csr .sstatus)
  rw [sretMode, if_pos zero, kernel] at mode
  cases mode

theorem room_switched : Room twoStacks switched := by
  unfold Room
  decide

/-- The task comes to user mode with the end of its stack in `sscratch`, and a trap over its kernel
code, whose handler has used every register, gives that code its registers back. -/
theorem traps_nest_switched :
    (∃ s : System .rv64 Bool, s.hart.mode = .user ∧
      s.hart.csr .sscratch = twoStacks.top true) ∧
    ∃ h, retFromException nowhere (switched.trapped twoStacks nowhere 0x100 5 0).used.hart
        = .left h ∧
      (∀ r, h.gpr r = switched.hart.gpr r) ∧ h.pc = switched.hart.pc := by
  constructor
  · rcases exit_switched with ⟨h, exit⟩
    have left : Step twoStacks nowhere switched _ :=
      .leave ⟨threadSize - ptSize .rv64, fun _ => 0, []⟩ [] h rfl rfl
        (taskPtRegs_eq twoStacks true) exit
    have mode : h.mode = .user := by
      rw [(retFromException_left exit).mode]
      exact congrArg sretMode (switched_readWord _)
    exact ⟨_, mode, (traps_nest ⟨rfl, rfl, fun _ => rfl⟩ (run_switched.tail left)).2.1 mode⟩
  · obtain ⟨h, exit⟩ : ∃ h, retFromException nowhere
        (switched.trapped twoStacks nowhere 0x100 5 0).used.hart = .left h :=
      exit_used rfl 0x100 5 0
    obtain ⟨-, -, -, -, matched⟩ := traps_nest ⟨rfl, rfl, fun _ => rfl⟩ run_switched
    have sp : (switched.trapped twoStacks nowhere 0x100 5 0).used.hart.gpr .sp = twoStacks.at true
        (frameAddr (switched.hart.trap 0x100 5 0) - twoStacks.page true).toNat := by
      rw [System.used_sp, System.trapped_sp, Stacks.at_sub]
    have frames : (switched.trapped twoStacks nowhere 0x100 5 0).frames switched.current = _ :=
      switched.trapped_frames 0x100 5 0
    rw [← System.used_frames] at frames
    obtain ⟨-, -, gpr, pc⟩ := matched 0x100 5 0 _ _ _ h (fun _ => room_switched)
      (run_used switched 0x100 5 0) rfl frames rfl sp exit
    exact ⟨h, exit, fun r => gpr r List.not_mem_nil, pc List.not_mem_nil⟩

end RiscvLinux.Trap
