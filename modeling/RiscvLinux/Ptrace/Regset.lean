import RiscvLinux.Signal.Frame

/-!
# The general registers as a debugger sees them

`riscv_gpr_get` and `riscv_gpr_set` of `arch/riscv/kernel/ptrace.c`. The set collects what the
debugger supplies in a local `struct pt_regs` and stores the whole of it in the task; nothing
has put the registers of the task into the local before, so what the debugger did not supply
is what was on the kernel stack.

`riscvGprSet_iff` says when that does no harm.
-/

namespace RiscvLinux.Ptrace

open Lib Trap Signal

variable {x : XLen}

/-- `user_regset_copyin` and `user_regset_copyout` of the generic kernel, for a window from 0 to
the end of the data: given the data, the position and the buffer, and the data, the position
and the count, they return an error number and the data after it or what was copied out. When
there is no error, just the overlap of the two windows was copied. -/
structure UserRegset where
  copyin : List UInt8 → Nat → List UInt8 → Int × List UInt8
  copyout : List UInt8 → Nat → Nat → Int × List UInt8
  copyin_eq : ∀ d pos bs, (copyin d pos bs).1 = 0 → (copyin d pos bs).2 = patch pos bs d
  copyout_eq : ∀ d pos count, (copyout d pos count).1 = 0 →
    (copyout d pos count).2 = (d.drop pos).take count

/-- `getregs`. -/
def getregs (child : PtRegs x) : PtRegs x := child

/-- `putregs`: what the task has afterwards. -/
def putregs (uregs : PtRegs x) : PtRegs x := uregs

/-- `riscv_gpr_get`, on the registers of the task. -/
def riscvGprGet (U : UserRegset) (target : PtRegs x) (pos count : Nat) : Int × List UInt8 :=
  U.copyout (ptRegsBytes (getregs target)) pos count

/-- `riscv_gpr_set`, with what is on the stack where the local `regs` is: the value returned and
the registers of the task. -/
def riscvGprSet (U : UserRegset) (stack target : PtRegs x) (pos : Nat) (buf : List UInt8) :
    Int × PtRegs x :=
  let (ret, regs) := U.copyin (ptRegsBytes stack) pos buf
  if ret ≠ 0 then (ret, target) else (0, putregs (ptRegsOfBytes regs))

/-- What a set is to do: on success the task has the supplied bytes in their place and its own
elsewhere, so that a register that they cover has the supplied value, one that they do not
touch and a supervisor register are unchanged, and a get returns that merged state; on failure
nothing changes. -/
structure Merged (U : UserRegset) (target : PtRegs x) (pos : Nat) (buf : List UInt8)
    (r : Int × PtRegs x) : Prop where
  bytes : r.1 = 0 → ptRegsBytes r.2 = patch pos buf (ptRegsBytes target)
  supplied : r.1 = 0 → ∀ reg, pos ≤ x.szreg * reg.index →
    x.szreg * reg.index + x.szreg ≤ pos + buf.length →
      r.2 reg = ofBytes x.bits ((buf.drop (x.szreg * reg.index - pos)).take x.szreg)
  others : r.1 = 0 → ∀ reg, x.szreg * reg.index + x.szreg ≤ pos
    ∨ pos + buf.length ≤ x.szreg * reg.index → r.2 reg = target reg
  supervisor : ∀ reg, ¬ UserField reg → r.2 reg = target reg
  get : r.1 = 0 → ∀ pos' count, (riscvGprGet U r.2 pos' count).1 = 0 →
    (riscvGprGet U r.2 pos' count).2
      = ((patch pos buf (ptRegsBytes target)).drop pos').take count
  failure : r.1 ≠ 0 → r.2 = target

/-- The condition: what is on the stack outside the bytes that the debugger supplies is what the
task has there. -/
def Harmless (stack target : PtRegs x) (pos : Nat) (buf : List UInt8) : Prop :=
  (ptRegsBytes stack).take pos = (ptRegsBytes target).take pos
    ∧ (ptRegsBytes stack).drop (pos + buf.length) = (ptRegsBytes target).drop (pos + buf.length)

/-! ## The bytes of the structure -/

/-- The structure has no bytes but those of its fields. -/
theorem ptRegsBytes_ptRegsOfBytes {bs : List UInt8} (length : bs.length = ptSize x) :
    ptRegsBytes (ptRegsOfBytes bs : PtRegs x) = bs := by
  have indices : PtReg.all.map PtReg.index = List.range 35 := by decide
  have words : PtReg.all.map (ptRegsOfBytes bs : PtRegs x)
      = (List.range 35).map (wordAt x.bits x.szreg bs) := by
    rw [← indices, List.map_map]
    rfl
  rw [ptRegsBytes, words]
  exact wordsBytes_wordAt (Nat.le_of_eq x.bits_eq.symm) length

variable {U : UserRegset} {stack target : PtRegs x} {pos : Nat} {buf : List UInt8}

theorem inside_pt_regs (inside : pos + buf.length ≤ scRegsSize x) (regs : PtRegs x) :
    pos + buf.length ≤ (ptRegsBytes regs).length := by
  refine Nat.le_trans inside ?_
  rw [length_ptRegsBytes]
  cases x <;> decide

theorem riscvGprSet_failed {ret : Int} {data : List UInt8}
    (copied : U.copyin (ptRegsBytes stack) pos buf = (ret, data)) (failed : ret ≠ 0) :
    riscvGprSet U stack target pos buf = (ret, target) := by
  rw [riscvGprSet, copied]
  exact if_pos failed

theorem riscvGprSet_done (done : (U.copyin (ptRegsBytes stack) pos buf).1 = 0) :
    riscvGprSet U stack target pos buf
      = (0, ptRegsOfBytes (patch pos buf (ptRegsBytes stack))) := by
  have data := U.copyin_eq _ _ _ done
  rw [riscvGprSet]
  simp only [done, data, ne_eq, not_true_eq_false, if_false, putregs]

/-- The registers of the task after a set that went through. -/
theorem ptRegsBytes_set (inside : pos + buf.length ≤ scRegsSize x) :
    ptRegsBytes (ptRegsOfBytes (patch pos buf (ptRegsBytes stack)) : PtRegs x)
      = patch pos buf (ptRegsBytes stack) := by
  refine ptRegsBytes_ptRegsOfBytes ?_
  rw [length_patch (inside_pt_regs inside stack), length_ptRegsBytes]

/-- A failed set changes nothing. -/
theorem merged_failed {ret : Int} (failed : ret ≠ 0) : Merged U target pos buf (ret, target) where
  bytes done := (failed done).elim
  supplied done := (failed done).elim
  others done := (failed done).elim
  supervisor _ _ := rfl
  get done := (failed done).elim
  failure _ := rfl

/-- Merged bytes are all that a set that went through is to bring about. -/
theorem merged_of_bytes (inside : pos + buf.length ≤ scRegsSize x) {regs : PtRegs x}
    (bytes : ptRegsBytes regs = patch pos buf (ptRegsBytes target)) :
    Merged U target pos buf (0, regs) := by
  have within := inside_pt_regs inside target
  have word : ∀ reg : PtReg, regs reg
      = wordAt x.bits x.szreg (patch pos buf (ptRegsBytes target)) reg.index := fun reg => by
    rw [← bytes, wordAt_ptRegsBytes]
  have after : ∀ reg : PtReg, pos + buf.length ≤ x.szreg * reg.index → regs reg = target reg :=
    fun reg beyond => by
      rw [word, wordAt_patch_of_ge within beyond, wordAt_ptRegsBytes]
  refine ⟨fun _ => bytes, fun _ reg starts ends => ?_, fun _ reg apart => ?_,
    fun reg supervisor => after reg ?_, fun _ pos' count done => ?_,
    fun failed => (failed rfl).elim⟩
  · exact (word reg).trans (wordAt_patch_of_mem within starts ends)
  · rcases apart with before | beyond
    · exact (word reg).trans
        ((wordAt_patch_of_le within before).trans (wordAt_ptRegsBytes target reg))
    · exact after reg beyond
  · exact Nat.le_trans inside (Nat.mul_le_mul_left x.szreg (Nat.le_of_not_lt supervisor))
  · rw [riscvGprGet, U.copyout_eq _ _ _ done, getregs, bytes]

/-- A set of no more than the user registers does what it is to do exactly when it fails or when
the stack is harmless. -/
theorem riscvGprSet_iff (inside : pos + buf.length ≤ scRegsSize x) :
    Merged U target pos buf (riscvGprSet U stack target pos buf)
      ↔ ((U.copyin (ptRegsBytes stack) pos buf).1 = 0 → Harmless stack target pos buf) := by
  have length : (ptRegsBytes stack).length = (ptRegsBytes target).length := by
    rw [length_ptRegsBytes, length_ptRegsBytes]
  by_cases done : (U.copyin (ptRegsBytes stack) pos buf).1 = 0
  · rw [riscvGprSet_done done, Harmless, ← patch_inj length (inside_pt_regs inside stack)]
    constructor
    · intro merged _
      rw [← ptRegsBytes_set inside]
      exact merged.bytes rfl
    · intro same
      refine merged_of_bytes inside ?_
      rw [ptRegsBytes_set inside]
      exact same done
  · rw [riscvGprSet_failed rfl done]
    exact ⟨fun _ success => (done success).elim, fun _ => merged_failed done⟩

/-- Copies that never fail. -/
def plainRegset : UserRegset where
  copyin d pos bs := (0, patch pos bs d)
  copyout d pos count := (0, (d.drop pos).take count)
  copyin_eq _ _ _ _ := rfl
  copyout_eq _ _ _ _ := rfl

/-- A task whose registers are all zero. -/
def zeroRegs : PtRegs .rv64 := fun _ => 0

/-- Eight bytes for a task whose registers happen to be on the stack. -/
theorem riscvGprSet_iff_zeroRegs :
    Merged plainRegset zeroRegs 8 (List.replicate 8 1)
      (riscvGprSet plainRegset zeroRegs zeroRegs 8 (List.replicate 8 1)) :=
  (riscvGprSet_iff (by decide)).mpr fun _ => ⟨rfl, rfl⟩

/-- All user registers of a task in user mode with interrupts on, over a stack of zeroes: the
status that the task returns with is zero. -/
theorem not_merged_allRegs :
    ¬ ∀ (U : UserRegset) (stack target : PtRegs .rv64) (pos : Nat) (buf : List UInt8),
      pos + buf.length ≤ scRegsSize .rv64 →
        Merged U target pos buf (riscvGprSet U stack target pos buf) := by
  intro always
  let target : PtRegs .rv64 := Function.update zeroRegs .sstatus srPie
  let buf : List UInt8 := List.replicate 256 0
  have size : buf.length = 256 := List.length_replicate
  have inside : 0 + buf.length ≤ scRegsSize .rv64 := by
    rw [size]
    decide
  have merged := always plainRegset zeroRegs target 0 buf inside
  have kept := merged.supervisor .sstatus (by decide)
  have stale : (riscvGprSet plainRegset zeroRegs target 0 buf).2 .sstatus = zeroRegs .sstatus := by
    rw [riscvGprSet_done rfl]
    refine (wordAt_patch_of_ge (inside_pt_regs inside zeroRegs) ?_).trans
      (wordAt_ptRegsBytes zeroRegs .sstatus)
    rw [size]
    decide
  have status : target .sstatus = srPie := Function.update_self ..
  rw [stale, status] at kept
  exact absurd kept (by decide)

end RiscvLinux.Ptrace
