import RiscvLinux.Trap.Fork

/-!
# The walk over the frames of a stack

`walk_stackframe` of `arch/riscv/kernel/stacktrace.c` with `CONFIG_FRAME_POINTER`. The next frame
pointer comes from memory that nothing vouches for; what bounds the walk is that the stack pointer
grows by a frame at least with every turn and never leaves the range that it started in.

`walkStackframe_safe` is that bound, for any memory and any callback.
-/

namespace RiscvLinux.Stacktrace

open Lib Trap

variable {x : XLen} {σ : Type}

/-- `sizeof(struct stackframe)` -/
def frameSize (x : XLen) : Nat := 2 * x.szreg

/-- `ALIGN(v, THREAD_SIZE)` -/
def alignThread (v : Word x) : Word x :=
  (v + BitVec.ofNat _ (threadSize - 1)) &&& ~~~BitVec.ofNat _ (threadSize - 1)

/-- What the walk calls: `__kernel_text_address`, and `fn` on its argument; with the memory that it
finds when the argument is as it is -/
structure Callback (x : XLen) (σ : Type) where
  kernelTextAddress : Word x → Bool
  fn : Word x → σ → Bool × σ
  mem : σ → Memory x.bits

/-- The locals of the loop, and the argument of `fn` -/
structure Cursor (x : XLen) (σ : Type) where
  fp : Word x
  sp : Word x
  pc : Word x
  arg : σ

/-- Whose stack is walked: that of a trap, the own one with what the registers have, or the one of a
task that is blocked in `__switch_to` -/
inductive Origin (x : XLen)
  | regs (regs : PtRegs x)
  | current (fp sp walkStackframe : Word x)
  | blocked (thread : Thread x)

/-- The locals before the loop -/
def Origin.start (arg : σ) : Origin x → Cursor x σ
  | .regs r => ⟨r .s0, r .sp, r .sepc, arg⟩
  | .current fp sp walkStackframe => ⟨fp, sp, walkStackframe, arg⟩
  | .blocked thread => ⟨thread .s0, thread .sp, thread .ra, arg⟩

/-- How a turn of the loop ends; with the counter that `fn` was called with, if it was, and the
frame that was read -/
inductive Turn (x : XLen) (σ : Type)
  | last (called : Option (Word x)) (arg : σ)
  | next (called frame : Word x) (c : Cursor x σ)

/-- The validation of the frame pointer and the unwinding of the stack frame: the frame, and the
frame pointer and the counter in it -/
def unwind (m : Memory x.bits) (fp sp : Word x) : Option (Word x × Word x × Word x) :=
  let low := sp + BitVec.ofNat _ (frameSize x)
  let high := alignThread sp
  if fp < low ∨ high < fp ∨ fp &&& 7 ≠ 0 then none
  else
    let frame := fp - BitVec.ofNat _ (frameSize x)
    some (frame, m.readWord x.szreg (field x.szreg frame 0),
      m.readWord x.szreg (field x.szreg frame 1) - 4)

/-- A turn of the loop -/
def turn (U : Callback x σ) (c : Cursor x σ) : Turn x σ :=
  if U.kernelTextAddress c.pc then
    let (stop, arg) := U.fn c.pc c.arg
    if stop then .last (some c.pc) arg
    else
      match unwind (U.mem arg) c.fp c.sp with
      | none => .last (some c.pc) arg
      | some (frame, fp, pc) => .next c.pc frame ⟨fp, c.fp, pc, arg⟩
  else .last none c.arg

/-- What a walk did: the counters that `fn` was called with, the frames that were read, and the
argument at its end -/
structure Walked (x : XLen) (σ : Type) where
  calls : List (Word x)
  frames : List (Word x)
  arg : σ

/-- `walk_stackframe`, in at most so many turns -/
def walkStackframe (U : Callback x σ) : Nat → Cursor x σ → Option (Walked x σ)
  | 0, _ => none
  | fuel + 1, c =>
    match turn U c with
    | .last called arg => some ⟨called.toList, [], arg⟩
    | .next called frame c =>
      (walkStackframe U fuel c).map fun w =>
        ⟨called :: w.calls, frame :: w.frames, w.arg⟩

/-! ## One turn -/

theorem frameSize_cases (x : XLen) : frameSize x = 8 ∨ frameSize x = 16 := by
  cases x
  · exact .inl rfl
  · exact .inr rfl

theorem bits_cases (x : XLen) : 2 ^ 32 ≤ 2 ^ x.bits := by
  cases x <;> decide

theorem toNat_frameSize (x : XLen) : (BitVec.ofNat x.bits (frameSize x)).toNat = frameSize x := by
  cases x <;> rfl

theorem alignThread_eq (v : Word x) : alignThread v = alignUp 13 v := rfl

theorem thirteen_le_bits (x : XLen) : 13 ≤ x.bits := by
  cases x <;> decide

/-- The end of the part of the stack that an address is in -/
theorem toNat_alignThread {v : Word x} (fits : v.toNat + threadSize ≤ 2 ^ x.bits) :
    (alignThread v).toNat = (v.toNat + 8191) / 8192 * 8192 := by
  have size : threadSize = 8192 := rfl
  have rounded := toNat_alignUp (thirteen_le_bits x) (v := v) (by omega)
  rw [alignThread_eq, rounded]
  omega

section

variable {U : Callback x σ} {c c' : Cursor x σ} {called frame : Word x}

theorem walkStackframe_last {called : Option (Word x)} {arg : σ}
    (last : turn U c = .last called arg) (fuel : Nat) :
    walkStackframe U (fuel + 1) c = some ⟨called.toList, [], arg⟩ := by
  rw [walkStackframe, last]

theorem walkStackframe_next (next : turn U c = .next called frame c') (fuel : Nat) :
    walkStackframe U (fuel + 1) c = (walkStackframe U fuel c').map fun w =>
      ⟨called :: w.calls, frame :: w.frames, w.arg⟩ := by
  rw [walkStackframe, next]

/-- A frame pointer is valid when it is in the range of the stack pointer. -/
theorem unwind_some {m : Memory x.bits} {fp sp fp' pc : Word x}
    (unwound : unwind m fp sp = some (frame, fp', pc)) :
    ¬ fp < sp + BitVec.ofNat _ (frameSize x) ∧ ¬ alignThread sp < fp ∧
      frame = fp - BitVec.ofNat _ (frameSize x) := by
  rw [unwind, Option.ite_none_left_eq_some, not_or, not_or, Option.some.injEq, Prod.mk.injEq]
    at unwound
  exact ⟨unwound.1.1, unwound.1.2.1, unwound.2.1.symm⟩

/-- Where a turn that goes on finds the frame pointer, and what it reads -/
theorem turn_next (next : turn U c = .next called frame c') :
    ¬ c'.sp < c.sp + BitVec.ofNat _ (frameSize x) ∧ ¬ alignThread c.sp < c'.sp ∧
      frame = c'.sp - BitVec.ofNat _ (frameSize x) := by
  simp only [turn] at next
  split at next
  · split at next
    · cases next
    · split at next
      · cases next
      · next unwound =>
        rw [Turn.next.injEq] at next
        rcases next with ⟨-, rfl, rfl⟩
        exact unwind_some unwound
  · cases next

/-- The stack pointer grows by a frame at least, the frame is between the old one and the new, and
the end of the range stays. -/
theorem turn_grows (fits : c.sp.toNat + threadSize ≤ 2 ^ x.bits)
    (next : turn U c = .next called frame c') :
    c.sp.toNat + frameSize x ≤ c'.sp.toNat ∧ frame.toNat + frameSize x = c'.sp.toNat ∧
      alignThread c'.sp = alignThread c.sp ∧ c'.sp.toNat + threadSize ≤ 2 ^ x.bits ∧
      c'.sp.toNat ≤ (alignThread c.sp).toNat := by
  obtain ⟨low, high, frame_eq⟩ := turn_next next
  have size : threadSize = 8192 := rfl
  have pages : 8192 ∣ 2 ^ x.bits := by cases x <;> decide
  have frames := frameSize_cases x
  have top := toNat_alignThread fits
  rw [BitVec.lt_def, BitVec.toNat_add, toNat_frameSize, Nat.mod_eq_of_lt (by omega)] at low
  rw [BitVec.lt_def] at high
  have fits' : c'.sp.toNat + threadSize ≤ 2 ^ x.bits := by omega
  refine ⟨by omega, ?_, ?_, fits', by omega⟩
  · rw [frame_eq, BitVec.toNat_sub_of_le, toNat_frameSize]
    · omega
    · rw [BitVec.le_def, toNat_frameSize]
      omega
  · refine BitVec.eq_of_toNat_eq ?_
    rw [toNat_alignThread fits', top]
    omega

/-! ## The walk -/

/-- With more turns the walk is the same. -/
theorem walkStackframe_mono {fuel more : Nat} {w : Walked x σ}
    (walked : walkStackframe U fuel c = some w) (enough : fuel ≤ more) :
    walkStackframe U more c = some w := by
  induction fuel generalizing more c w with
  | zero => cases walked
  | succ fuel ih =>
    obtain ⟨more, rfl⟩ := Nat.exists_eq_add_of_le' enough
    rw [← Nat.add_assoc]
    cases step : turn U c with
    | last called arg =>
      rw [walkStackframe_last step] at walked ⊢
      exact walked
    | next called frame c' =>
      rw [walkStackframe_next step] at walked ⊢
      obtain ⟨rest, further, rfl⟩ := Option.map_eq_some_iff.mp walked
      rw [ih further (Nat.le_add_left ..), Option.map_some]

/-- A walk whose range has room for less than so many frames ends in so many turns, and reads frames
of the range alone. -/
theorem walkStackframe_ends {fuel : Nat} (fits : c.sp.toNat + threadSize ≤ 2 ^ x.bits)
    (enough : (alignThread c.sp).toNat < c.sp.toNat + fuel * frameSize x) :
    ∃ w, (∀ turns, fuel ≤ turns → walkStackframe U turns c = some w) ∧ w.calls.length ≤ fuel ∧
      ∀ a ∈ w.frames, c.sp.toNat ≤ a.toNat ∧ a.toNat + frameSize x ≤ (alignThread c.sp).toNat := by
  induction fuel generalizing c with
  | zero =>
    have size : threadSize = 8192 := rfl
    rw [toNat_alignThread fits] at enough
    omega
  | succ fuel ih =>
    cases step : turn U c with
    | last called arg =>
      refine ⟨⟨called.toList, [], arg⟩, fun turns enough => ?_, ?_, fun a member => ?_⟩
      · obtain ⟨more, rfl⟩ := Nat.exists_eq_add_of_le' enough
        exact walkStackframe_last step (more + fuel)
      · cases called
        · exact Nat.zero_le _
        · exact Nat.succ_le_succ (Nat.zero_le _)
      · cases member
    | next called frame c' =>
      obtain ⟨grows, inside, top, fits', below⟩ := turn_grows fits step
      rw [← top] at enough
      obtain ⟨w, walked, few, within⟩ := ih fits' (by rw [Nat.succ_mul] at enough; omega)
      rw [top] at within
      refine ⟨⟨called :: w.calls, frame :: w.frames, w.arg⟩, fun turns enough => ?_,
        Nat.succ_le_succ few, fun a member => ?_⟩
      · obtain ⟨more, rfl⟩ := Nat.exists_eq_add_of_le' enough
        rw [← Nat.add_assoc, walkStackframe_next step, walked _ (Nat.le_add_left ..),
          Option.map_some]
      · rcases List.mem_cons.mp member with rfl | later
        · omega
        · have bounds := within a later
          omega

/-- A stack has room for so many frames, less one byte. -/
theorem alignThread_lt {v : Word x} (fits : v.toNat + threadSize ≤ 2 ^ x.bits) :
    (alignThread v).toNat < v.toNat + threadSize / frameSize x * frameSize x := by
  have room : threadSize / frameSize x * frameSize x = 8192 := by cases x <;> rfl
  rw [toNat_alignThread fits, room]
  omega

/-- Whatever is in memory and whatever the callback does, the walk ends after no more calls than
there are frames on a stack, and reads nothing outside the stack that it started on. -/
theorem walkStackframe_safe (U : Callback x σ) (c : Cursor x σ)
    (fits : c.sp.toNat + threadSize ≤ 2 ^ x.bits) :
    ∃ w, (∀ fuel, threadSize / frameSize x + 1 ≤ fuel → walkStackframe U fuel c = some w) ∧
      w.calls.length ≤ threadSize / frameSize x + 1 ∧
      ∀ a ∈ w.frames, c.sp.toNat ≤ a.toNat ∧
        a.toNat + frameSize x ≤ (alignThread c.sp).toNat := by
  obtain ⟨w, walked, few, within⟩ := walkStackframe_ends (U := U) fits (alignThread_lt fits)
  exact ⟨w, fun fuel enough => walked fuel (Nat.le_of_succ_le enough), Nat.le_succ_of_le few,
    within⟩

/-- A stack with two frames, the second of them without a frame pointer to go on with -/
def twoFrames : Memory XLen.rv64.bits :=
  Memory.storeFields (fun _ => 0) 8 0x40f0
    [(0, 0x4200), (1, 0x80000104), (32, 0), (33, 0x80000204)]

/-- A callback that only counts -/
def countCalls : Callback .rv64 Nat where
  kernelTextAddress _ := true
  fn _ calls := (false, calls + 1)
  mem _ := twoFrames

/-- The walk from inside a page reads both frames, by the theorem between the stack pointer and the
end of the stack. -/
theorem walkStackframe_safe_twoFrames : ∃ w,
    walkStackframe countCalls 513 ⟨0x4100, 0x4080, 0x80000000, 0⟩ = some w ∧
      w.frames = [0x40f0, 0x41f0] ∧ w.calls.length ≤ 513 ∧
      ∀ a ∈ w.frames, 0x4080 ≤ a.toNat ∧ a.toNat + 16 ≤ 0x6000 := by
  obtain ⟨w, walked, few, within⟩ :=
    walkStackframe_safe countCalls ⟨0x4100, 0x4080, 0x80000000, 0⟩ (by decide)
  have walks := walked 513 (by decide)
  have frames : (walkStackframe countCalls 513 ⟨0x4100, 0x4080, 0x80000000, 0⟩).map Walked.frames
      = some [0x40f0, 0x41f0] := by
    decide +kernel
  rw [walks, Option.map_some, Option.some.injEq] at frames
  exact ⟨w, walks, frames, few, within⟩

/-! ## Any start -/

/-- Close to the end of the address space the end of the range wraps to zero. -/
theorem alignThread_of_wraps {v : Word x} (wraps : 2 ^ x.bits < v.toNat + threadSize) :
    alignThread v = 0 := by
  have size : threadSize = 8192 := rfl
  rw [alignThread_eq]
  exact alignUp_of_wraps (thirteen_le_bits x) (show 2 ^ x.bits ≤ v.toNat + 8191 by omega)

/-- The walk ends from any start: where the range wraps, it has one more turn at most before it is
at address zero. -/
theorem walkStackframe_ends_any (U : Callback x σ) (c : Cursor x σ) :
    ∃ w least, ∀ fuel, least ≤ fuel → walkStackframe U fuel c = some w := by
  rcases Nat.lt_or_ge (2 ^ x.bits) (c.sp.toNat + threadSize) with wraps | fits
  · cases step : turn U c with
    | last called arg =>
      refine ⟨⟨called.toList, [], arg⟩, 1, fun fuel enough => ?_⟩
      obtain ⟨more, rfl⟩ := Nat.exists_eq_add_of_le' enough
      exact walkStackframe_last step more
    | next called frame c' =>
      have high := (turn_next step).2.1
      rw [alignThread_of_wraps wraps, BitVec.lt_def, BitVec.ofNat_eq_ofNat,
        BitVec.toNat_zero] at high
      have fits : c'.sp.toNat + threadSize ≤ 2 ^ x.bits := by
        have least := bits_cases x
        have size : threadSize = 8192 := rfl
        omega
      obtain ⟨w, walked, -⟩ := walkStackframe_ends (U := U) fits (alignThread_lt fits)
      refine ⟨⟨called :: w.calls, frame :: w.frames, w.arg⟩, threadSize / frameSize x + 1,
        fun fuel enough => ?_⟩
      obtain ⟨more, rfl⟩ := Nat.exists_eq_add_of_le' enough
      rw [← Nat.add_assoc, walkStackframe_next step, walked _ (Nat.le_add_left ..), Option.map_some]
  · obtain ⟨w, walked, -⟩ := walkStackframe_ends (U := U) fits (alignThread_lt fits)
    exact ⟨w, _, walked⟩

end

end RiscvLinux.Stacktrace
