import RiscvLinux.Lib.Run
import RiscvLinux.Trap.Entry

/-!
# Traps over traps

A hart that runs user code, takes traps from user mode and from the kernel code of
other traps, switches tasks and returns. The concrete part of a state is the hart and
the current task. Beside it stands, for every task, the list of its traps that are not
yet left, innermost first: the context each interrupted and what handlers have since
written to its `struct pt_regs`. The list is the specification; the invariant `Nested`
says that the memory and `sscratch` follow it.

Kernel code is any code that keeps to the calling convention: it leaves `sscratch` and
the frames of traps not yet left alone, but for writes to fields of `struct pt_regs`,
which are steps of their own; it runs on the stack of its task, below the innermost
frame, and comes to `ret_from_exception` with the stack pointer it was called with.
-/

namespace RiscvLinux.Trap

open Lib

variable {x : XLen} {Task : Type}

/-! ## Stacks and frames -/

/-- The kernel stacks of the tasks: `task_stack_page` of each, with `THREAD_SIZE` bytes. -/
structure Stacks (x : XLen) (Task : Type) where
  page : Task → Word x
  apart : ∀ s t, s ≠ t → Apart (page s) threadSize (page t) threadSize
  top_ne_zero : ∀ t, page t + BitVec.ofNat x.bits threadSize ≠ 0

/-- The end of the kernel stack of a task. -/
def Stacks.top (st : Stacks x Task) (t : Task) : Word x :=
  st.page t + BitVec.ofNat x.bits threadSize

/-- The address at a place of the kernel stack. -/
def Stacks.at (st : Stacks x Task) (t : Task) (off : Nat) : Word x :=
  st.page t + BitVec.ofNat x.bits off

/-- `task_pt_regs`. -/
def taskPtRegs (st : Stacks x Task) (t : Task) : Word x :=
  st.page t + BitVec.ofNat x.bits threadSize - BitVec.ofNat x.bits (ptSize x)

/-- A trap that is not yet left: where on the stack its `struct pt_regs` is, the context
it interrupted, and the writes of handlers to the structure since, the last one first. -/
structure Frame (x : XLen) where
  off : Nat
  entry : PtRegs x
  writes : List (PtReg × Word x)

/-- The fields of `struct pt_regs` after writes to it, the last one first. -/
def rewritten (writes : List (PtReg × Word x)) (regs : PtRegs x) : PtRegs x :=
  writes.foldr (fun w regs => Function.update regs w.1 w.2) regs

/-- The structure as it is now. -/
def Frame.now (f : Frame x) : PtRegs x :=
  rewritten f.writes f.entry

/-- A field that is not written stays. -/
theorem rewritten_of_notMem {writes : List (PtReg × Word x)} {regs : PtRegs x} {r : PtReg}
    (untouched : r ∉ writes.map Prod.fst) : rewritten writes regs r = regs r := by
  induction writes with
  | nil => rfl
  | cons w writes ih =>
    rw [List.map_cons, List.mem_cons, not_or] at untouched
    exact (Function.update_of_ne untouched.1 ..).trans (ih untouched.2)

/-- The lowest place of the stack that frames at these places use. -/
def low : List Nat → Nat
  | [] => threadSize
  | off :: _ => off

/-- Each frame is below the one it interrupts. -/
def Stacked (x : XLen) : List Nat → Prop
  | [] => True
  | off :: outer => off + ptSize x ≤ low outer ∧ Stacked x outer

/-- The state: the hart, its task, and the traps of every task not yet left. -/
structure System (x : XLen) (Task : Type) where
  hart : Hart x
  current : Task
  frames : Task → List (Frame x)

/-- Where the traps of a task are, innermost first. -/
def System.offs (s : System x Task) (t : Task) : List Nat :=
  (s.frames t).map Frame.off

/-- The frames of all tasks are as they were. -/
def Untouched (st : Stacks x Task) (frames : Task → List (Frame x)) (m m' : Memory x.bits) : Prop :=
  ∀ t, ∀ f ∈ frames t, m'.read (st.at t f.off) (ptSize x) = m.read (st.at t f.off) (ptSize x)

/-- Kernel code can be interrupted: it is on the stack of its task, below the innermost
frame, and a frame has room below it. -/
def Room (st : Stacks x Task) (s : System x Task) : Prop :=
  let depth := (s.hart.gpr .sp - st.page s.current).toNat
  ptSize x ≤ depth ∧ depth ≤ low (s.offs s.current)

/-! ## Frames apart -/

theorem threadSize_le (x : XLen) : threadSize ≤ 2 ^ x.bits := by
  cases x <;> decide

theorem ptSize_pos (x : XLen) : 0 < ptSize x := by
  cases x <;> decide

/-- Frames at places of one stack that do not overlap are apart. -/
theorem Stacks.apart_of_le (st : Stacks x Task) (t : Task) {i j : Nat}
    (below : i + ptSize x ≤ j) (inside : j + ptSize x ≤ threadSize) :
    Apart (st.at t i) (ptSize x) (st.at t j) (ptSize x) := by
  have bound := threadSize_le x
  have some_bytes := ptSize_pos x
  exact apart_of_offsets below some_bytes (by omega) (by omega)

/-- Frames on the stacks of different tasks are apart. -/
theorem Stacks.apart_of_ne (st : Stacks x Task) {s t : Task} (differ : s ≠ t) {i j : Nat}
    (hi : i + ptSize x ≤ threadSize) (hj : j + ptSize x ≤ threadSize) :
    Apart (st.at s i) (ptSize x) (st.at t j) (ptSize x) :=
  ((((st.apart s t differ).part hj (ptSize_pos x)).symm).part hi (ptSize_pos x)).symm

theorem Stacks.at_sub (st : Stacks x Task) (t : Task) (a : Word x) :
    st.at t (a - st.page t).toNat = a := by
  rw [Stacks.at, BitVec.ofNat_toNat, BitVec.setWidth_eq, BitVec.add_comm, BitVec.sub_add_cancel]

theorem Stacked.low_le {offs : List Nat} (stacked : Stacked x offs) :
    (∀ off ∈ offs, low offs ≤ off ∧ off + ptSize x ≤ threadSize) ∧ low offs ≤ threadSize := by
  induction offs with
  | nil => exact ⟨nofun, Nat.le_refl _⟩
  | cons off outer ih =>
    rcases stacked with ⟨below, rest⟩
    obtain ⟨places, limit⟩ := ih rest
    refine ⟨fun other member => ?_, show off ≤ threadSize by omega⟩
    rcases List.mem_cons.mp member with rfl | later
    · exact ⟨Nat.le_refl _, by omega⟩
    · obtain ⟨above, inside⟩ := places other later
      exact ⟨show off ≤ other by omega, inside⟩

theorem Stacked.pairwise {offs : List Nat} (stacked : Stacked x offs) :
    offs.Pairwise fun i j => i + ptSize x ≤ j := by
  induction offs with
  | nil => exact .nil
  | cons off outer ih =>
    rcases stacked with ⟨below, rest⟩
    exact .cons (fun other later => Nat.le_trans below (rest.low_le.1 other later).1) (ih rest)

/-- A frame at `task_pt_regs` is the outermost. -/
theorem Stacked.outermost {off : Nat} {outer : List Nat} (stacked : Stacked x (off :: outer))
    (top : off = threadSize - ptSize x) : outer = [] := by
  cases outer with
  | nil => rfl
  | cons other outer =>
    rcases stacked with ⟨below, rest⟩
    have inside := (rest.low_le.1 other List.mem_cons_self).2
    have some_bytes := ptSize_pos x
    simp only [low] at below
    omega

theorem ptSize_le_threadSize (x : XLen) : ptSize x ≤ threadSize := by
  cases x <;> decide

theorem taskPtRegs_eq (st : Stacks x Task) (t : Task) :
    taskPtRegs st t = st.at t (threadSize - ptSize x) := by
  have split : BitVec.ofNat x.bits threadSize
      = BitVec.ofNat x.bits (threadSize - ptSize x) + BitVec.ofNat x.bits (ptSize x) := by
    rw [← BitVec.ofNat_add, Nat.sub_add_cancel (ptSize_le_threadSize x)]
  rw [taskPtRegs, split, Stacks.at]
  ring

theorem taskPtRegs_off {st : Stacks x Task} {t : Task} {off : Nat} (inside : off < threadSize)
    (top : st.at t off = taskPtRegs st t) : off = threadSize - ptSize x := by
  have bound := threadSize_le x
  have some_bytes := ptSize_pos x
  have fits := ptSize_le_threadSize x
  have same : BitVec.ofNat x.bits off = BitVec.ofNat x.bits (threadSize - ptSize x) := by
    rw [taskPtRegs_eq] at top
    exact add_left_cancel top
  have value := congrArg BitVec.toNat same
  rwa [BitVec.toNat_ofNat, BitVec.toNat_ofNat, Nat.mod_eq_of_lt (by omega),
    Nat.mod_eq_of_lt (by omega)] at value

/-! ## The invariant -/

/-- Memory follows the traps not yet left: their structures do not overlap and hold what the
list says, and one that says it comes from user mode is at `task_pt_regs`. -/
structure Suspended (st : Stacks x Task) (frames : Task → List (Frame x)) (m : Memory x.bits) :
    Prop where
  stacked : ∀ t, Stacked x ((frames t).map Frame.off)
  holds : ∀ t, ∀ f ∈ frames t, ∀ r, frameWord m (st.at t f.off) r = f.now r
  fromUser : ∀ t, ∀ f ∈ frames t, sretMode (f.now .sstatus) = .user →
    st.at t f.off = taskPtRegs st t

/-- Memory and `sscratch` follow the traps not yet left. -/
structure Nested (st : Stacks x Task) (s : System x Task) : Prop where
  kernel : s.hart.mode = .supervisor → s.hart.csr .sscratch = 0
  user : s.hart.mode = .user → s.hart.csr .sscratch = st.top s.current ∧ s.frames s.current = []
  suspended : Suspended st s.frames s.hart.mem

variable {st : Stacks x Task} {frames : Task → List (Frame x)} {m m' : Memory x.bits}

theorem Suspended.offs_le (suspended : Suspended st frames m) {t : Task} {f : Frame x}
    (member : f ∈ frames t) : f.off + ptSize x ≤ threadSize :=
  ((suspended.stacked t).low_le.1 f.off (List.mem_map_of_mem member)).2

/-- What the memory has for a frame does not change when the frame's bytes do not. -/
theorem Suspended.holds_of_same (suspended : Suspended st frames m) {t : Task} {f : Frame x}
    (member : f ∈ frames t)
    (same : m'.read (st.at t f.off) (ptSize x) = m.read (st.at t f.off) (ptSize x)) (r : PtReg) :
    frameWord m' (st.at t f.off) r = f.now r :=
  (frameWord_congr same r).trans (suspended.holds t f member r)

/-- Kernel code that leaves the frames alone keeps them. -/
theorem Suspended.untouched (suspended : Suspended st frames m)
    (untouched : Untouched st frames m m') : Suspended st frames m' :=
  ⟨suspended.stacked,
    fun t f member => suspended.holds_of_same member (untouched t f member),
    suspended.fromUser⟩

/-- The frames of one task change, and memory with them: what is to be shown is about the new
frames of that task, and that the frames of the others are not written. -/
theorem Suspended.update [DecidableEq Task] (suspended : Suspended st frames m) {t : Task}
    {fs : List (Frame x)} (stacked : Stacked x (fs.map Frame.off))
    (holds : ∀ f ∈ fs, ∀ r, frameWord m' (st.at t f.off) r = f.now r)
    (fromUser : ∀ f ∈ fs, sretMode (f.now .sstatus) = .user → st.at t f.off = taskPtRegs st t)
    (others : ∀ u, u ≠ t → ∀ f ∈ frames u,
      m'.read (st.at u f.off) (ptSize x) = m.read (st.at u f.off) (ptSize x)) :
    Suspended st (Function.update frames t fs) m' := by
  refine ⟨fun u => ?_, fun u f => ?_, fun u f => ?_⟩
  all_goals by_cases here : u = t
  · subst here
    rwa [Function.update_self]
  · rw [Function.update_of_ne here]
    exact suspended.stacked u
  · subst here
    rw [Function.update_self]
    exact holds f
  · rw [Function.update_of_ne here]
    exact fun member => suspended.holds_of_same member (others u here f member)
  · subst here
    rw [Function.update_self]
    exact fromUser f
  · rw [Function.update_of_ne here]
    exact suspended.fromUser u f

variable {s : System x Task}

/-- `SAVE_ALL` puts the frame of a trap below the frames that are there; the frame of a trap
from user mode goes to `task_pt_regs`. -/
theorem Nested.frameAddr_trap (nested : Nested st s) (stvec cause badaddr : Word x)
    (room : s.hart.mode = .supervisor → Room st s) :
    (frameAddr (s.hart.trap stvec cause badaddr) - st.page s.current).toNat + ptSize x
        ≤ low (s.offs s.current)
      ∧ (s.hart.mode = .user →
        frameAddr (s.hart.trap stvec cause badaddr) = taskPtRegs st s.current) := by
  have bound := threadSize_le x
  have fits := ptSize_le_threadSize x
  have some_bytes := ptSize_pos x
  cases hm : s.hart.mode with
  | user =>
    obtain ⟨sscratch, none⟩ := nested.user hm
    have scratch : (s.hart.trap stvec cause badaddr).csr .sscratch = st.top s.current := sscratch
    have addr : frameAddr (s.hart.trap stvec cause badaddr) = taskPtRegs st s.current := by
      rw [frameAddr, kernelSp, scratch, if_neg (show ¬ st.top s.current = 0 from st.top_ne_zero _)]
      rfl
    refine ⟨?_, fun _ => addr⟩
    have empty : s.offs s.current = [] := by rw [System.offs, none, List.map_nil]
    rw [addr, taskPtRegs_eq, Stacks.at, toNat_add_ofNat_sub (by omega), empty]
    exact Nat.le_of_eq (Nat.sub_add_cancel fits)
  | supervisor =>
    refine ⟨?_, fun user => absurd user (by decide)⟩
    obtain ⟨enough, below⟩ := room hm
    have scratch : (s.hart.trap stvec cause badaddr).csr .sscratch = 0 := nested.kernel hm
    have shift : frameAddr (s.hart.trap stvec cause badaddr) - st.page s.current
        = s.hart.gpr .sp - st.page s.current - BitVec.ofNat x.bits (ptSize x) := by
      rw [frameAddr, kernelSp, if_pos scratch]
      exact sub_right_comm ..
    have small : ptSize x % 2 ^ x.bits = ptSize x := Nat.mod_eq_of_lt (by omega)
    have no_borrow : BitVec.ofNat x.bits (ptSize x) ≤ s.hart.gpr .sp - st.page s.current := by
      rw [BitVec.le_def, BitVec.toNat_ofNat, small]
      exact enough
    rw [shift, BitVec.toNat_sub_of_le no_borrow, BitVec.toNat_ofNat, small]
    omega

variable [DecidableEq Task]

/-! ## Steps -/

/-- The state after a trap and `handle_exception`. -/
def System.trapped (st : Stacks x Task) (sym : Symbols x) (s : System x Task)
    (stvec cause badaddr : Word x) : System x Task :=
  let h := s.hart.trap stvec cause badaddr
  { s with
    hart := handleException sym h
    frames := Function.update s.frames s.current
      (⟨(frameAddr h - st.page s.current).toNat, context h, []⟩ :: s.frames s.current) }

/-- A handler writes a field of `struct pt_regs`. -/
def System.written (st : Stacks x Task) (s : System x Task) (t : Task)
    (inner : List (Frame x)) (f : Frame x) (outer : List (Frame x)) (r : PtReg) (v : Word x) :
    System x Task :=
  { s with
    hart := { s.hart with
      mem := s.hart.mem.writeWord x.szreg (field x.szreg (st.at t f.off) r.index) v }
    frames := Function.update s.frames t
      (inner ++ { f with writes := (r, v) :: f.writes } :: outer) }

/-- The state after `copy_thread` has filled in the structure of a new task. -/
def System.forked (st : Stacks x Task) (s : System x Task) (t : Task) (regs : PtRegs x) :
    System x Task :=
  { s with
    hart := { s.hart with
      mem := s.hart.mem.storeFields x.szreg (taskPtRegs st t)
        (PtReg.all.map fun r => (r.index, regs r)) }
    frames := Function.update s.frames t [⟨threadSize - ptSize x, regs, []⟩] }

/-- One step of the hart. -/
inductive Step (st : Stacks x Task) (sym : Symbols x) : System x Task → System x Task → Prop
  /-- User code computes. -/
  | user {s : System x Task} (gpr : Gpr → Word x) (pc : Word x) :
    s.hart.mode = .user →
    Step st sym s { s with hart := { s.hart with gpr := gpr, pc := pc } }
  /-- A trap, from user mode or over kernel code. -/
  | trap {s : System x Task} (stvec cause badaddr : Word x) :
    (s.hart.mode = .supervisor → Room st s) →
    Step st sym s (s.trapped st sym stvec cause badaddr)
  /-- Kernel code computes. -/
  | kernel {s : System x Task} (h : Hart x) :
    s.hart.mode = .supervisor → h.mode = .supervisor →
    h.csr .sscratch = s.hart.csr .sscratch → Untouched st s.frames s.hart.mem h.mem →
    Step st sym s { s with hart := h }
  /-- A handler writes to a `struct pt_regs`; only the one at `task_pt_regs` is ever made to
  say that the trap came from user mode. -/
  | write {s : System x Task} (t : Task) (inner : List (Frame x)) (f : Frame x)
      (outer : List (Frame x)) (r : PtReg) (v : Word x) :
    s.hart.mode = .supervisor → s.frames t = inner ++ f :: outer →
    (r = .sstatus → sretMode v = .user → st.at t f.off = taskPtRegs st t) →
    Step st sym s (s.written st t inner f outer r v)
  /-- `__switch_to` another task. -/
  | switchTo {s : System x Task} (t : Task) (gpr : Gpr → Word x) :
    s.hart.mode = .supervisor →
    Step st sym s { s with hart := { s.hart with gpr := gpr }, current := t }
  /-- `copy_thread` of a task that has no traps of its own. -/
  | fork {s : System x Task} (t : Task) (regs : PtRegs x) :
    s.hart.mode = .supervisor → t ≠ s.current → s.frames t = [] →
    Step st sym s (s.forked st t regs)
  /-- `ret_from_exception` leaves the innermost trap. -/
  | leave {s : System x Task} (f : Frame x) (outer : List (Frame x)) (h : Hart x) :
    s.hart.mode = .supervisor → s.frames s.current = f :: outer →
    s.hart.gpr .sp = st.at s.current f.off → retFromException sym s.hart = .left h →
    Step st sym s { s with hart := h, frames := Function.update s.frames s.current outer }
  /-- `ret_from_exception` finds work to do first. -/
  | work {s : System x Task} (h : Hart x) :
    s.hart.mode = .supervisor → retFromException sym s.hart = .work h →
    Step st sym s { s with hart := h }

/-- The kernel has started: `trap_init` has cleared `sscratch` and nothing is interrupted. -/
structure Booted (s : System x Task) : Prop where
  mode : s.hart.mode = .supervisor
  sscratch : s.hart.csr .sscratch = 0
  frames : ∀ t, s.frames t = []

/-! ## Every step keeps the invariant -/

variable {sym : Symbols x}

/-- A trap adds its frame to those of its task. -/
theorem Nested.trapped (nested : Nested st s) (stvec cause badaddr : Word x)
    (room : s.hart.mode = .supervisor → Room st s) :
    Nested st (s.trapped st sym stvec cause badaddr) := by
  obtain ⟨below, fromUser⟩ := nested.frameAddr_trap stvec cause badaddr room
  rcases nested with ⟨-, -, suspended⟩
  have addr := st.at_sub s.current (frameAddr (s.hart.trap stvec cause badaddr))
  have inside := (suspended.stacked s.current).low_le.2
  have written : ∀ {b : Word x},
      Apart (frameAddr (s.hart.trap stvec cause badaddr)) (ptSize x) b (ptSize x) →
      (handleException sym (s.hart.trap stvec cause badaddr)).mem.read b (ptSize x)
        = s.hart.mem.read b (ptSize x) := fun apart => by
    rw [handleException_mem, saveAll_apart _ apart]
    rfl
  refine ⟨fun _ => handleException_sscratch sym _, fun user => ?_, ?_⟩
  · rw [System.trapped, handleException_mode] at user
    exact absurd user nofun
  refine suspended.update ⟨below, suspended.stacked s.current⟩ ?_ ?_ ?_
  · intro f member r
    rcases List.mem_cons.mp member with rfl | member
    · simp only [addr]
      exact saveAll_frame (s.hart.trap stvec cause badaddr) r
    · have above := (suspended.stacked s.current).low_le.1 f.off (List.mem_map_of_mem member)
      have apart := st.apart_of_le s.current (Nat.le_trans below above.1) above.2
      rw [addr] at apart
      exact suspended.holds_of_same member (written apart) r
  · intro f member user
    rcases List.mem_cons.mp member with rfl | member
    · have mode : s.hart.mode = .user := by
        rw [← sretMode_trapStatus s.hart.mode (s.hart.csr .sstatus)]
        exact user
      simp only [addr]
      exact fromUser mode
    · exact suspended.fromUser s.current f member user
  · intro u differ f member
    have apart := st.apart_of_ne (Ne.symm differ) (Nat.le_trans below inside)
      (suspended.offs_le member)
    rw [addr] at apart
    exact written apart

/-- A write to a field of a frame is a write of the handler of that trap. -/
theorem Nested.written (nested : Nested st s) {t : Task} {inner outer : List (Frame x)}
    {f : Frame x} {r : PtReg} {v : Word x} (kernel : s.hart.mode = .supervisor)
    (here : s.frames t = inner ++ f :: outer)
    (mode : r = .sstatus → sretMode v = .user → st.at t f.off = taskPtRegs st t) :
    Nested st (s.written st t inner f outer r v) := by
  rcases nested with ⟨scratch, -, suspended⟩
  refine ⟨fun _ => scratch kernel, fun user => absurd (kernel.symm.trans user) nofun, ?_⟩
  have stacked := suspended.stacked t
  have pairwise := stacked.pairwise
  rw [here, List.map_append, List.map_cons] at stacked pairwise
  have member : f ∈ s.frames t := by rw [here]; simp
  have inside := suspended.offs_le member
  have written : ∀ {b : Word x}, Apart (st.at t f.off) (ptSize x) b (ptSize x) →
      (s.written st t inner f outer r v).hart.mem.read b (ptSize x)
        = s.hart.mem.read b (ptSize x) := fun apart => by
    refine Memory.read_write_apart ?_
    rw [length_toBytes]
    exact apart.field x.szreg_pos r.index_lt
  -- the other frames of the task are on either side of this one
  have sides : ∀ g ∈ inner ++ outer,
      Apart (st.at t f.off) (ptSize x) (st.at t g.off) (ptSize x) ∧ g ∈ s.frames t := by
    intro g other
    have among : g ∈ s.frames t := by
      rw [here]
      rcases List.mem_append.mp other with first | last
      · exact List.mem_append_left _ first
      · exact List.mem_append_right _ (List.mem_cons_of_mem f last)
    refine ⟨?_, among⟩
    have limit := suspended.offs_le among
    rw [List.pairwise_append, List.pairwise_cons] at pairwise
    rcases List.mem_append.mp other with first | last
    · have below := pairwise.2.2 g.off (List.mem_map_of_mem first) f.off List.mem_cons_self
      exact (st.apart_of_le t below inside).symm
    · have above := pairwise.2.1.1 g.off (List.mem_map_of_mem last)
      exact st.apart_of_le t above limit
  have fields : frameWord (s.written st t inner f outer r v).hart.mem (st.at t f.off)
      = Function.update f.now r v := by
    rw [← funext (suspended.holds t f member)]
    exact frameWord_writeWord s.hart.mem (st.at t f.off) v r
  have split : ∀ g, g ∈ inner ++ { f with writes := (r, v) :: f.writes } :: outer →
      g = { f with writes := (r, v) :: f.writes } ∨ g ∈ inner ++ outer := by
    intro g among
    rw [List.mem_append, List.mem_cons] at among
    rw [List.mem_append]
    exact or_left_comm.mp among
  refine suspended.update ?_ ?_ ?_ ?_
  · rwa [List.map_append, List.map_cons]
  · intro g among k
    rcases split g among with rfl | other
    · exact congrFun fields k
    · exact suspended.holds_of_same (sides g other).2 (written (sides g other).1) k
  · intro g among user
    rcases split g among with rfl | other
    · by_cases status : r = .sstatus
      · subst status
        exact mode rfl (by simpa [Frame.now, rewritten] using user)
      · refine suspended.fromUser t f member ?_
        rwa [Frame.now, rewritten, List.foldr_cons, Function.update_of_ne (Ne.symm status)] at user
    · exact suspended.fromUser t g (sides g other).2 user
  · intro u differ g among
    exact written (st.apart_of_ne (Ne.symm differ) inside (suspended.offs_le among))

/-- The structure of a new task is its outermost frame. -/
theorem Nested.forked (nested : Nested st s) {t : Task} {regs : PtRegs x}
    (kernel : s.hart.mode = .supervisor) : Nested st (s.forked st t regs) := by
  rcases nested with ⟨scratch, -, suspended⟩
  refine ⟨fun _ => scratch kernel, fun user => absurd (kernel.symm.trans user) nofun, ?_⟩
  have fits := ptSize_le_threadSize x
  have stored : ∀ f ∈ PtReg.all.map (fun r => (r.index, regs r)), f.1 < 35 := by
    intro f member
    obtain ⟨r, -, rfl⟩ := List.mem_map.mp member
    exact r.index_lt
  have once : ((PtReg.all.map fun r => (r.index, regs r)).map Prod.fst).Nodup := by
    rw [List.map_map, show Prod.fst ∘ (fun r => (r.index, regs r)) = PtReg.index from rfl]
    decide
  refine suspended.update ⟨Nat.le_of_eq (Nat.sub_add_cancel fits), trivial⟩ ?_ ?_ ?_
  · intro f member r
    rw [List.mem_singleton] at member
    subst member
    rw [← taskPtRegs_eq]
    exact Memory.readWord_storeFields_of_mem x.szreg_pos (ptSize_le x) (Nat.le_of_eq x.bits_eq)
      stored once (List.mem_map.mpr ⟨r, r.mem_all, rfl⟩) s.hart.mem
  · intro f member _
    rw [List.mem_singleton] at member
    subst member
    exact (taskPtRegs_eq st t).symm
  · intro u differ f member
    have apart := st.apart_of_ne (Ne.symm differ) (Nat.le_of_eq (Nat.sub_add_cancel fits))
      (suspended.offs_le member)
    rw [← taskPtRegs_eq] at apart
    exact Memory.read_storeFields_apart x.szreg_pos stored apart s.hart.mem

omit [DecidableEq Task] in
/-- What leaving the innermost trap restores: the context with the writes of the handlers. -/
theorem Nested.restores (nested : Nested st s) {f : Frame x} {outer : List (Frame x)}
    {h : Hart x} (here : s.frames s.current = f :: outer)
    (sp : s.hart.gpr .sp = st.at s.current f.off) (exit : retFromException sym s.hart = .left h) :
    (∀ r, h.gpr r = f.now r.slot) ∧ h.pc = f.now .sepc
      ∧ h.mode = sretMode (f.now .sstatus) := by
  obtain ⟨gpr, pc, mode, -, -, -⟩ := retFromException_left exit
  have holds := nested.suspended.holds s.current f (here ▸ List.mem_cons_self)
  rw [sp] at gpr pc mode
  exact ⟨fun r => (gpr r).trans (holds r.slot), pc.trans (holds .sepc), by rw [mode, holds]⟩

/-- Leaving the innermost trap takes its frame off; a return to user mode leaves none. -/
theorem Nested.left (nested : Nested st s) {f : Frame x} {outer : List (Frame x)} {h : Hart x}
    (kernel : s.hart.mode = .supervisor) (here : s.frames s.current = f :: outer)
    (sp : s.hart.gpr .sp = st.at s.current f.off) (exit : retFromException sym s.hart = .left h) :
    Nested st { s with hart := h, frames := Function.update s.frames s.current outer } := by
  obtain ⟨-, -, mode⟩ := nested.restores here sp exit
  obtain ⟨-, -, -, -, sscratch, mem⟩ := retFromException_left exit
  rcases nested with ⟨scratch, -, suspended⟩
  have member : f ∈ s.frames s.current := here ▸ List.mem_cons_self
  have outerMember : ∀ g ∈ outer, g ∈ s.frames s.current := fun g among =>
    here ▸ List.mem_cons_of_mem f among
  have stacked := suspended.stacked s.current
  rw [here, List.map_cons] at stacked
  refine ⟨fun supervisor => ?_, fun user => ?_, ?_⟩
  · have supervisor : h.mode = .supervisor := supervisor
    rw [supervisor] at sscratch
    exact sscratch.trans (scratch kernel)
  · have user : h.mode = .user := user
    have top := suspended.fromUser s.current f member (mode ▸ user)
    have limit := suspended.offs_le member
    have place := taskPtRegs_off (by have := ptSize_pos x; omega) top
    rw [user] at sscratch
    refine ⟨?_, ?_⟩
    · refine sscratch.trans ?_
      rw [sp, top, taskPtRegs, BitVec.sub_add_cancel]
      rfl
    · exact (Function.update_self ..).trans (List.map_eq_nil_iff.mp (stacked.outermost place))
  · change Suspended st (Function.update s.frames s.current outer) h.mem
    rw [mem]
    refine suspended.update stacked.2 ?_ ?_ fun _ _ _ _ => rfl
    · exact fun g among => suspended.holds s.current g (outerMember g among)
    · exact fun g among => suspended.fromUser s.current g (outerMember g among)

/-- Every step keeps the invariant. -/
theorem nested_step : Keeps (Step st sym) (Nested st) := by
  intro s s' nested step
  cases step with
  | user gpr pc mode =>
    exact ⟨fun kernel => absurd (mode.symm.trans kernel) nofun, nested.user, nested.suspended⟩
  | trap stvec cause badaddr room => exact nested.trapped stvec cause badaddr room
  | kernel h mode mode' scratch untouched =>
    exact ⟨fun _ => scratch.trans (nested.kernel mode),
      fun user => absurd (mode'.symm.trans user) nofun, nested.suspended.untouched untouched⟩
  | write t inner f outer r v mode here legal => exact nested.written mode here legal
  | switchTo t gpr mode =>
    exact ⟨nested.kernel, fun user => absurd (mode.symm.trans user) nofun, nested.suspended⟩
  | fork t regs mode other fresh => exact nested.forked mode
  | leave f outer h mode here sp exit => exact nested.left mode here sp exit
  | work h mode exit =>
    obtain ⟨mode', mem, scratch⟩ := retFromException_work exit
    refine ⟨fun _ => scratch.trans (nested.kernel mode),
      fun user => absurd ((mode'.trans mode).symm.trans user) nofun, ?_⟩
    change Suspended st s.frames h.mem
    rw [mem]
    exact nested.suspended

omit [DecidableEq Task] in
theorem Booted.nested (booted : Booted s) : Nested st s := by
  refine ⟨fun _ => booted.sscratch, fun user => absurd (booted.mode.symm.trans user) nofun, ?_⟩
  refine ⟨fun t => ?_, fun t f member => ?_, fun t f member => ?_⟩
  · rw [booted.frames t]
    trivial
  · exact absurd (booted.frames t ▸ member) List.not_mem_nil
  · exact absurd (booted.frames t ▸ member) List.not_mem_nil

end RiscvLinux.Trap
