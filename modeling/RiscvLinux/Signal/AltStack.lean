import RiscvLinux.Signal.Deliver

/-!
# Where the frame is placed

`get_sigframe` of `arch/riscv/kernel/signal.c` puts the frame of a handler below the stack pointer
or at the top of the alternate stack, and `setup_rt_frame` asks `access_ok` about the result. A
task that is on its alternate stack and would overflow it gets an address that cannot be used; but
the address is rounded down after that has been looked at.

`placed_iff` says when the frame is where it is to be.
-/

namespace RiscvLinux.Signal

open Lib Trap

variable {x : XLen}

/-- `TASK_SIZE`: `PGDIR_SIZE * PTRS_PER_PGD / 2`, and `VMALLOC_START` on a 32-bit kernel -/
def taskSize : (x : XLen) → Word x
  | .rv32 => 0xc0000000 - 0x8000000
  | .rv64 => 0x40000000 * 512 / 2

/-- The handler runs on the alternate stack: the task is on it, or switches to it. -/
def OnAltStack (t : TaskStruct x) (k : KSignal x) : Prop :=
  t.onSigStack (t.regs .sp) ∨ k.flags &&& saOnStack ≠ 0 ∧ t.sasSsFlags (t.regs .sp) = 0

/-- The address of a byte of the alternate stack -/
def InAltStack (t : TaskStruct x) (a : Word x) : Prop :=
  (a - t.sasSsSp).toNat < t.sasSsSize.toNat

/-- A frame of the given size is aligned, and inside the alternate stack or below the stack
pointer. -/
structure Safe (t : TaskStruct x) (k : KSignal x) (frame : Word x) (size : Nat) : Prop where
  aligned : frame.toNat % 16 = 0
  inside : OnAltStack t k → ∀ i < size, InAltStack t (fieldAt frame i)
  below : ¬ OnAltStack t k → frame.toNat + size ≤ (t.regs .sp).toNat

/-- What `get_sigframe` is to do: its result is refused, or safe. -/
def Placed (P : Platform x) (t : TaskStruct x) (k : KSignal x) : Prop :=
  ¬ accessOk P (getSigframe P t k) P.layout.size ∨ Safe t k (getSigframe P t k) P.layout.size

/-- The stack pointer less the frame is on the alternate stack, but rounded down it is not. -/
def Undercut (P : Platform x) (t : TaskStruct x) : Prop :=
  t.sasSsSp.toNat + P.layout.size < (t.regs .sp).toNat ∧
    (t.regs .sp).toNat < (t.sasSsSp.toNat + 15) / 16 * 16 + P.layout.size

/-! ## The address -/

variable {P : Platform x} {t : TaskStruct x} {k : KSignal x}

theorem size_ge (P : Platform x) : 272 ≤ P.layout.size := by
  have fpregs := P.layout.scFpregs_le
  have sigmask := P.layout.ucSigmask_le
  omega

theorem toNat_align (a : Word x) : (a &&& ~~~15).toNat = a.toNat - a.toNat % 16 :=
  toNat_and_not_low (k := 4) (by cases x <;> decide) a

theorem taskSize_lt (x : XLen) : (taskSize x).toNat + 15 < 2 ^ x.bits := by
  cases x <;> decide

theorem toNat_sub_size {sp : Word x} (small : P.layout.size < 2 ^ x.bits)
    (room : P.layout.size ≤ sp.toNat) :
    (sp - BitVec.ofNat x.bits P.layout.size).toNat = sp.toNat - P.layout.size := by
  have value : (BitVec.ofNat x.bits P.layout.size).toNat = P.layout.size := by
    rw [BitVec.toNat_ofNat, Nat.mod_eq_of_lt small]
  rw [BitVec.toNat_sub_of_le (BitVec.le_def.mpr (by rwa [value])), value]

/-- Where a frame below `sp` is, when it is not below zero. -/
theorem toNat_frame {sp : Word x} (small : P.layout.size < 2 ^ x.bits)
    (room : P.layout.size ≤ sp.toNat) :
    ((sp - BitVec.ofNat x.bits P.layout.size) &&& ~~~15).toNat
      = sp.toNat - P.layout.size - (sp.toNat - P.layout.size) % 16 := by
  rw [toNat_align, toNat_sub_size small room]

section

variable (userDs : P.userDs = taskSize x)
include userDs

/-- A frame that is not refused ends well before the end of the address space. -/
theorem add_size_lt {a : Word x} (ok : accessOk P a P.layout.size) :
    a.toNat + P.layout.size + 15 < 2 ^ x.bits := by
  have limit := taskSize_lt x
  rw [← userDs] at limit
  rcases ok with ⟨room, most⟩
  omega

theorem not_accessOk_neg_one : ¬ accessOk P (-1) P.layout.size := by
  intro ok
  have limit := add_size_lt userDs ok
  have top : (-1 : Word x).toNat = 2 ^ x.bits - 1 := by cases x <;> decide
  omega

/-- A frame below `sp` that is not refused is not below zero. -/
theorem size_le_of_accessOk {sp : Word x} (small : P.layout.size < 2 ^ x.bits)
    (ok : accessOk P ((sp - BitVec.ofNat x.bits P.layout.size) &&& ~~~15) P.layout.size) :
    P.layout.size ≤ sp.toNat := by
  have limit := add_size_lt userDs ok
  have below := sp.isLt
  by_contra wraps
  rw [toNat_align, BitVec.toNat_sub, BitVec.toNat_ofNat, Nat.mod_eq_of_lt small,
    Nat.mod_eq_of_lt (by omega)] at limit
  omega

end

/-! ## The alternate stack -/

theorem onSigStack_iff {sp : Word x} : t.onSigStack sp = true ↔
    t.sasSsSp.toNat < sp.toNat ∧ sp.toNat ≤ t.sasSsSp.toNat + t.sasSsSize.toNat := by
  rw [TaskStruct.onSigStack, Bool.and_eq_true, decide_eq_true_eq, decide_eq_true_eq,
    BitVec.lt_def, BitVec.le_def]
  refine and_congr_right fun above => ?_
  rw [BitVec.toNat_sub_of_le (BitVec.le_def.mpr (Nat.le_of_lt above))]
  omega

/-- A run is on the alternate stack when it starts far enough from its end. -/
theorem inAltStack_of_distance {a : Word x} {n : Nat}
    (room : (a - t.sasSsSp).toNat + n ≤ t.sasSsSize.toNat) :
    ∀ i < n, InAltStack t (fieldAt a i) := by
  intro i inside
  have small := t.sasSsSize.isLt
  have shift : fieldAt a i - t.sasSsSp = a - t.sasSsSp + BitVec.ofNat x.bits i := by
    rw [fieldAt]
    ring
  rw [InAltStack, shift, BitVec.toNat_add, BitVec.toNat_ofNat,
    Nat.mod_eq_of_lt (show i < 2 ^ x.bits by omega), Nat.mod_eq_of_lt (by omega)]
  omega

/-- A run that starts closely below the alternate stack is not on it. -/
theorem not_inAltStack {a : Word x} {n : Nat} (starts : a.toNat < t.sasSsSp.toNat)
    (reaches : t.sasSsSp.toNat ≤ a.toNat + n) : ¬ ∀ i < n, InAltStack t (fieldAt a i) := by
  intro inside
  have last := inside (t.sasSsSp.toNat - a.toNat - 1) (by omega)
  have small := t.sasSsSize.isLt
  have stack := t.sasSsSp.isLt
  have address : (fieldAt a (t.sasSsSp.toNat - a.toNat - 1)).toNat = t.sasSsSp.toNat - 1 := by
    have offset : t.sasSsSp.toNat - a.toNat - 1 < 2 ^ x.bits := by omega
    rw [fieldAt, BitVec.toNat_add, BitVec.toNat_ofNat, Nat.mod_eq_of_lt offset,
      Nat.mod_eq_of_lt (by omega)]
    omega
  rw [InAltStack, BitVec.toNat_sub, address, Nat.mod_eq_of_lt (by omega)] at last
  omega

/-! ## The cases -/

theorem safe_of_inside {a : Word x} {n : Nat} (aligned : a.toNat % 16 = 0) (runs : OnAltStack t k)
    (inside : ∀ i < n, InAltStack t (fieldAt a i)) : Safe t k a n :=
  ⟨aligned, fun _ => inside, fun not_runs => (not_runs runs).elim⟩

section

variable (big : P.layout.size + 16 < t.sasSsSize.toNat)
include big

theorem size_lt : P.layout.size < 2 ^ x.bits := by
  have bound := t.sasSsSize.isLt
  omega

/-- An undercut frame starts where the start of the alternate stack is rounded down to. -/
theorem frame_of_undercut (undercut : Undercut P t) :
    (t.regs .sp - BitVec.ofNat x.bits P.layout.size) &&& ~~~15 = t.sasSsSp &&& ~~~15 := by
  rcases undercut with ⟨above, below⟩
  refine BitVec.eq_of_toNat_eq ?_
  rw [toNat_frame (size_lt big) (by omega), toNat_align]
  omega

/-- A task that is and stays on its alternate stack -/
theorem placed_onSigStack (userDs : P.userDs = taskSize x) (on : t.onSigStack (t.regs .sp))
    (stays : t.onSigStack (t.regs .sp - BitVec.ofNat x.bits P.layout.size)) :
    Placed P t k ↔ ¬(Undercut P t ∧ accessOk P (t.sasSsSp &&& ~~~15) P.layout.size) := by
  have enough := size_ge P
  have some_room : t.sasSsSize ≠ 0 := fun none => by
    rw [none] at big
    exact Nat.not_lt_zero _ big
  have flags : t.sasSsFlags (t.regs .sp) ≠ 0 := by
    rw [TaskStruct.sasSsFlags, if_neg some_room, if_pos on]
    decide
  have stack : t.sigsp (t.regs .sp) k = t.regs .sp := if_neg fun switches => flags switches.2
  have small := size_lt big
  have runs : OnAltStack t k := .inl on
  rw [Placed, getSigframe, if_neg (not_and_not_right.mpr fun _ => stays), stack]
  by_cases ok : accessOk P ((t.regs .sp - BitVec.ofNat x.bits P.layout.size) &&& ~~~15)
      P.layout.size
  · have room := size_le_of_accessOk userDs small ok
    have place := toNat_frame small room
    rw [onSigStack_iff, toNat_sub_size small room] at stays
    rw [onSigStack_iff] at on
    rw [or_iff_right (not_not_intro ok)]
    constructor
    · intro safe ⟨undercut, _⟩
      rcases undercut with ⟨above, below⟩
      exact not_inAltStack (by omega) (by omega) (safe.inside runs)
    · intro not_undercut
      have high : t.sasSsSp.toNat
          ≤ ((t.regs .sp - BitVec.ofNat x.bits P.layout.size) &&& ~~~15).toNat := by
        by_contra low
        have undercut : Undercut P t := ⟨by omega, by omega⟩
        rw [frame_of_undercut big undercut] at ok
        exact not_undercut ⟨undercut, ok⟩
      refine safe_of_inside (by omega) runs (inAltStack_of_distance ?_)
      rw [BitVec.toNat_sub_of_le (BitVec.le_def.mpr high)]
      omega
  · rw [iff_true_left (.inl ok)]
    intro given
    rcases given with ⟨undercut, lower⟩
    rw [frame_of_undercut big undercut] at ok
    exact ok lower

/-- A task that switches to its alternate stack -/
theorem placed_switch (userDs : P.userDs = taskSize x) (off : ¬ t.onSigStack (t.regs .sp))
    (switches : k.flags &&& saOnStack ≠ 0 ∧ t.sasSsFlags (t.regs .sp) = 0) : Placed P t k := by
  have small := size_lt big
  have runs : OnAltStack t k := .inr switches
  have stack : t.sigsp (t.regs .sp) k = t.sasSsSp + t.sasSsSize := if_pos switches
  have size := t.sasSsSize.isLt
  have start := t.sasSsSp.isLt
  rw [Placed, getSigframe, if_neg fun leaves => off leaves.1, stack]
  refine or_iff_not_imp_left.mpr fun accepted => ?_
  have room := size_le_of_accessOk userDs small (not_not.mp accepted)
  have place := toNat_frame small room
  refine safe_of_inside (by omega) runs (inAltStack_of_distance ?_)
  rw [BitVec.toNat_add] at room place
  rcases Nat.lt_or_ge (t.sasSsSp.toNat + t.sasSsSize.toNat) (2 ^ x.bits) with fits | wraps
  · rw [Nat.mod_eq_of_lt fits] at room place
    rw [BitVec.toNat_sub_of_le (BitVec.le_def.mpr (by omega))]
    omega
  · -- The alternate stack goes on at address zero, and the frame is in that part.
    rw [Nat.mod_eq_sub_mod wraps, Nat.mod_eq_of_lt (by omega)] at room place
    rw [BitVec.toNat_sub, Nat.mod_eq_of_lt (by omega)]
    omega

omit big in
/-- A task that stays on its normal stack -/
theorem placed_normal (userDs : P.userDs = taskSize x) (small : P.layout.size < 2 ^ x.bits)
    (off : ¬ t.onSigStack (t.regs .sp))
    (stays : ¬(k.flags &&& saOnStack ≠ 0 ∧ t.sasSsFlags (t.regs .sp) = 0)) : Placed P t k := by
  have normal : ¬ OnAltStack t k := not_or.mpr ⟨off, stays⟩
  have stack : t.sigsp (t.regs .sp) k = t.regs .sp := if_neg stays
  rw [Placed, getSigframe, if_neg fun leaves => off leaves.1, stack]
  refine or_iff_not_imp_left.mpr fun accepted => ?_
  have room := size_le_of_accessOk userDs small (not_not.mp accepted)
  have place := toNat_frame small room
  exact ⟨by omega, fun runs => (normal runs).elim, fun _ => by omega⟩

/-- An undercut frame is that of a task on its alternate stack. -/
theorem Undercut.on (undercut : Undercut P t) : t.onSigStack (t.regs .sp) ∧
    t.onSigStack (t.regs .sp - BitVec.ofNat x.bits P.layout.size) := by
  rcases undercut with ⟨above, below⟩
  rw [onSigStack_iff, onSigStack_iff, toNat_sub_size (size_lt big) (by omega)]
  omega

/-- The frame is placed as it is to be exactly when it is not undercut, or what it would start at is
refused. -/
theorem placed_iff (userDs : P.userDs = taskSize x) : Placed P t k ↔
    ¬(Undercut P t ∧ accessOk P (t.sasSsSp &&& ~~~15) P.layout.size) := by
  by_cases on : t.onSigStack (t.regs .sp)
  · by_cases stays : t.onSigStack (t.regs .sp - BitVec.ofNat x.bits P.layout.size)
    · exact placed_onSigStack big userDs on stays
    · -- It would overflow the alternate stack, and gets the address that is refused.
      have bogus : getSigframe P t k = -1 := if_pos ⟨on, stays⟩
      have refused : ¬ accessOk P (getSigframe P t k) P.layout.size := by
        rw [bogus]
        exact not_accessOk_neg_one userDs
      exact iff_of_true (.inl refused) fun undercut => stays (undercut.1.on big).2
  · refine iff_of_true ?_ fun undercut => on (undercut.1.on big).1
    by_cases switches : k.flags &&& saOnStack ≠ 0 ∧ t.sasSsFlags (t.regs .sp) = 0
    · exact placed_switch big userDs on switches
    · exact placed_normal userDs (size_lt big) on switches

end

/-! ## Two tasks -/

/-- A 64-bit kernel with the limit of user tasks -/
def userPlatform : Platform .rv64 := { plainPlatform with userDs := taskSize .rv64 }

/-- A task with an alternate stack of the smallest size -/
def withAltStack (ssSp sp : Word .rv64) : TaskStruct .rv64 :=
  { plainTask (Function.update (fun _ => 0) .sp sp) with sasSsSp := ssSp, sasSsSize := minSigStkSz }

/-- A signal whose handler is to run on the alternate stack -/
def onStackSignal : KSignal .rv64 := ⟨10, by decide, 0x20000, saOnStack, 0, []⟩

/-- The task switches to an alternate stack at an odd address, by the theorem. -/
theorem placed_iff_odd : Placed userPlatform (withAltStack 0x40001 0x80000) onStackSignal :=
  (placed_iff (by decide) rfl).mpr fun undercut => absurd undercut.1.2 (by decide)

/-- The task is on that stack, and the frame just fits until it is rounded down. -/
theorem not_placed_odd : ¬ ∀ (x : XLen) (P : Platform x) (t : TaskStruct x) (k : KSignal x),
    P.userDs = taskSize x → P.layout.size + 16 < t.sasSsSize.toNat → Placed P t k := by
  intro always
  have placed := always .rv64 userPlatform (withAltStack 0x40001 (0x40002 + 696)) onStackSignal rfl
    (by decide)
  rcases placed with refused | safe
  · exact refused (by decide)
  · exact not_inAltStack (by decide) (by decide) (safe.inside (.inl (by decide)))

end RiscvLinux.Signal
