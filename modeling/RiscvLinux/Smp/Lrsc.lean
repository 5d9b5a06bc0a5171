import RiscvLinux.Lib.Bits
import RiscvLinux.Trap.PtRegs

/-!
# Loads reserved, stores conditional and atomic operations

The instructions of the `asm` statements of `atomic.h`, `atomic64.h` and `cmpxchg.h`, on a counter
of `n` bits and the registers of one hart. A reservation is the number of stores to the counter at
the time of the load; a store-conditional stores only when nothing was stored since, and may fail
without a reason.
-/

namespace RiscvLinux.Smp.Lrsc

open Lib Trap

variable {x : XLen} {n : Nat}

/-! ## Instructions -/

/-- The operands of a statement: what is loaded, what the store-conditional answers, and two
inputs. -/
inductive Operand
  | out
  | rc
  | left
  | right
  deriving DecidableEq, Repr

/-- The operations of `amo*`. -/
inductive Amo
  | add
  | swap
  | and
  | or
  | xor
  deriving DecidableEq, Repr

/-- What an operation leaves in the counter. -/
def Amo.apply : Amo → (old value : BitVec n) → BitVec n
  | .add, old, value => old + value
  | .swap, _, value => value
  | .and, old, value => old &&& value
  | .or, old, value => old ||| value
  | .xor, old, value => old ^^^ value

/-- The instructions. A branch gives the index of the instruction it goes to. -/
inductive Instr
  /-- `lr rd, counter` -/
  | lr (rd : Operand)
  /-- `beq rs, rt, target` -/
  | beq (rs rt : Operand) (target : Nat)
  /-- `bne rs, rt, target` -/
  | bne (rs rt : Operand) (target : Nat)
  /-- `bnez rs, target` -/
  | bnez (rs : Operand) (target : Nat)
  /-- `add rd, rs, rt` -/
  | add (rd rs rt : Operand)
  /-- `sc rd, rs, counter` -/
  | sc (rd rs : Operand)
  /-- `amo rd, rs, counter`; with `zero` for `rd` the old value is dropped. -/
  | amo (op : Amo) (rd : Option Operand) (rs : Operand)
  deriving DecidableEq, Repr

/-! ## States -/

/-- The counter, and how often it was stored to. -/
structure Counter (n : Nat) where
  counter : BitVec n
  stores : Nat
  deriving DecidableEq

/-- A store to the counter. -/
def Counter.store (c : Counter n) (v : BitVec n) : Counter n :=
  ⟨v, c.stores + 1⟩

/-- A hart in a statement: the index of its next instruction, its registers and its
reservation. -/
structure Core (x : XLen) where
  pc : Nat
  regs : Operand → Word x
  reservation : Option Nat

/-- A register gets a value. -/
def Core.set (k : Core x) (rd : Operand) (v : Word x) : Core x :=
  { k with regs := Function.update k.regs rd v }

/-- On to the next instruction. -/
def Core.next (k : Core x) : Core x :=
  { k with pc := k.pc + 1 }

/-- A branch to the target if the condition holds, and on to the next instruction otherwise. -/
def Core.branch (k : Core x) (taken : Prop) [Decidable taken] (target : Nat) : Core x :=
  { k with pc := if taken then target else k.pc + 1 }

/-- Nothing was stored to the counter since the hart reserved it. -/
def Core.Reserved (k : Core x) (c : Counter n) : Prop :=
  k.reservation = some c.stores

instance (k : Core x) (c : Counter n) : Decidable (k.Reserved c) :=
  inferInstanceAs (Decidable (_ = _))

/-! ## Steps -/

/-- One instruction. What is loaded is sign-extended, and the low bits of a register are stored.
`status` is what a store-conditional leaves in its register: zero when it stores, which takes a
reservation that nothing has broken. -/
def exec (status : BitVec 32) (c : Counter n) (k : Core x) : Instr → Option (Counter n × Core x)
  | .lr rd =>
    some (c, { k.set rd (c.counter.signExtend x.bits) with reservation := some c.stores }.next)
  | .beq rs rt target => some (c, k.branch (k.regs rs = k.regs rt) target)
  | .bne rs rt target => some (c, k.branch (k.regs rs ≠ k.regs rt) target)
  | .bnez rs target => some (c, k.branch (k.regs rs ≠ 0) target)
  | .add rd rs rt => some (c, (k.set rd (k.regs rs + k.regs rt)).next)
  | .sc rd rs =>
    if status = 0 then
      if k.Reserved c then
        some (c.store ((k.regs rs).setWidth n), { k.set rd 0 with reservation := none }.next)
      else none
    else some (c, { k.set rd (status.signExtend x.bits) with reservation := none }.next)
  | .amo op rd rs =>
    let k' := rd.elim k fun rd => k.set rd (c.counter.signExtend x.bits)
    some (c.store (op.apply c.counter ((k.regs rs).setWidth n)), k'.next)

/-- A store-conditional stores under a reservation that nothing has broken, or leaves something
that is not zero. -/
theorem exec_sc_cases {status : BitVec 32} {c c' : Counter n} {k k' : Core x} {rd rs : Operand}
    (next : exec status c k (.sc rd rs) = some (c', k')) :
    (k.Reserved c ∧ c' = c.store ((k.regs rs).setWidth n) ∧
        k' = { k.set rd 0 with reservation := none }.next) ∨
      status ≠ 0 ∧ c' = c ∧
        k' = { k.set rd (status.signExtend x.bits) with reservation := none }.next := by
  rw [exec] at next
  split at next
  · split at next
    · next reserved =>
      cases next
      exact .inl ⟨reserved, rfl, rfl⟩
    · cases next
  · next failed =>
    cases next
    exact .inr ⟨failed, rfl, rfl⟩

/-! ## What a register holds -/

@[simp] theorem regs_set_same (k : Core x) (rd : Operand) (v : Word x) :
    (k.set rd v).regs rd = v :=
  Function.update_self ..

theorem thirtyTwo_le_bits (x : XLen) : 32 ≤ x.bits := by
  cases x <;> decide

/-- The low bits of what was sign-extended are what was. -/
theorem setWidth_signExtend_self (narrow : n ≤ x.bits) (v : BitVec n) :
    (v.signExtend x.bits).setWidth n = v :=
  (setWidth_signExtend narrow v).trans (BitVec.signExtend_eq v)

/-- Registers that hold sign-extended values are equal when the values are. -/
theorem signExtend_inj (narrow : n ≤ x.bits) {v u : BitVec n} :
    v.signExtend x.bits = u.signExtend x.bits ↔ v = u := by
  refine ⟨fun same => ?_, congrArg _⟩
  rw [← setWidth_signExtend_self narrow v, same, setWidth_signExtend_self narrow u]

/-- The low bits of a sum in registers are the sum of the values. -/
theorem setWidth_add_signExtend (narrow : n ≤ x.bits) (v u : BitVec n) :
    (v.signExtend x.bits + u.signExtend x.bits).setWidth n = v + u := by
  rw [BitVec.setWidth_add _ _ narrow, setWidth_signExtend_self narrow,
    setWidth_signExtend_self narrow]

/-- A store-conditional that fails leaves something else than zero. -/
theorem status_ne_zero {status : BitVec 32} (failed : status ≠ 0) :
    status.signExtend x.bits ≠ 0 := by
  intro zero
  have back := setWidth_signExtend_self (thirtyTwo_le_bits x) status
  rw [zero] at back
  exact failed (back.symm.trans (BitVec.setWidth_zero ..))

end RiscvLinux.Smp.Lrsc
