import RiscvLinux.Lib.Interleave
import RiscvLinux.Lib.Linearize
import RiscvLinux.Smp.Lrsc

/-!
# 32-bit atomics

The functions of `arch/riscv/include/asm/atomic.h` and the `cmpxchg` of `cmpxchg.h`, instruction by
instruction, run by any number of harts on one counter. `linearizable` explains every run by one
sequence of the operations.

An operation takes effect with its last access to the counter: an atomic operation, the
store-conditional that stores, or the load of an attempt that gives up. From there on its hart only
has branches to go through.
-/

namespace RiscvLinux.Smp.Atomic

open Lib Trap Lrsc

variable {x : XLen}

/-! ## The code -/

/-- An `asm` statement with the values of its inputs, and what the function makes of the `int` that
is in `%0` after it: nothing if it returns nothing. -/
structure Statement where
  code : List Instr
  left : BitVec 32
  right : BitVec 32
  result : BitVec 32 → Option (BitVec 32)

/-- A function that returns whether the value of another passes a test. -/
def Statement.test (s : Statement) (passes : BitVec 32 → Bool) : Statement :=
  { s with result := fun c => (s.result c).map fun r => if passes r then 1 else 0 }

def atomicAdd (i : BitVec 32) : Statement :=
  ⟨[.amo .add none .left], i, 0, fun _ => none⟩

def atomicSub (i : BitVec 32) : Statement := atomicAdd (-i)

def atomicAddReturn (i : BitVec 32) : Statement :=
  ⟨[.amo .add (some .out) .left], i, 0, fun c => some (c + i)⟩

def atomicSubReturn (i : BitVec 32) : Statement := atomicAddReturn (-i)

def atomicInc : Statement := atomicAdd 1

def atomicDec : Statement := atomicAdd (-1)

def atomicIncReturn : Statement := atomicAddReturn 1

def atomicDecReturn : Statement := atomicSubReturn 1

def atomicSubAndTest (i : BitVec 32) : Statement := (atomicSubReturn i).test (· == 0)

def atomicIncAndTest : Statement := atomicIncReturn.test (· == 0)

def atomicDecAndTest : Statement := atomicDecReturn.test (· == 0)

def atomicAddNegative (i : BitVec 32) : Statement := (atomicAddReturn i).test (·.toInt < 0)

def atomicXchg (n : BitVec 32) : Statement :=
  ⟨[.amo .swap (some .out) .left], n, 0, some⟩

/-- `__cmpxchg` of four bytes. The barriers that `cmpxchg` adds order nothing here. -/
def cmpxchg (o n : BitVec 32) : Statement :=
  ⟨[.lr .out, .bne .out .left 4, .sc .rc .right, .bnez .rc 0], o, n, some⟩

def atomicCmpxchg (o n : BitVec 32) : Statement := cmpxchg o n

/-- `__atomic_add_unless` -/
def atomicAddUnless (a u : BitVec 32) : Statement :=
  ⟨[.lr .out, .beq .out .right 5, .add .rc .out .left, .sc .rc .rc, .bnez .rc 0], a, u, some⟩

def atomicAnd (mask : BitVec 32) : Statement :=
  ⟨[.amo .and none .left], mask, 0, fun _ => none⟩

def atomicOr (mask : BitVec 32) : Statement :=
  ⟨[.amo .or none .left], mask, 0, fun _ => none⟩

def atomicXor (mask : BitVec 32) : Statement :=
  ⟨[.amo .xor none .left], mask, 0, fun _ => none⟩

/-- The functions, with their arguments. -/
inductive Op
  | add (i : BitVec 32)
  | sub (i : BitVec 32)
  | addReturn (i : BitVec 32)
  | subReturn (i : BitVec 32)
  | inc
  | dec
  | incReturn
  | decReturn
  | subAndTest (i : BitVec 32)
  | incAndTest
  | decAndTest
  | addNegative (i : BitVec 32)
  | xchg (n : BitVec 32)
  | cmpxchg (o n : BitVec 32)
  | addUnless (a u : BitVec 32)
  | and (mask : BitVec 32)
  | or (mask : BitVec 32)
  | xor (mask : BitVec 32)
  deriving DecidableEq, Repr

def Op.statement : Op → Statement
  | .add i => atomicAdd i
  | .sub i => atomicSub i
  | .addReturn i => atomicAddReturn i
  | .subReturn i => atomicSubReturn i
  | .inc => atomicInc
  | .dec => atomicDec
  | .incReturn => atomicIncReturn
  | .decReturn => atomicDecReturn
  | .subAndTest i => atomicSubAndTest i
  | .incAndTest => atomicIncAndTest
  | .decAndTest => atomicDecAndTest
  | .addNegative i => atomicAddNegative i
  | .xchg n => atomicXchg n
  | .cmpxchg o n => atomicCmpxchg o n
  | .addUnless a u => atomicAddUnless a u
  | .and mask => atomicAnd mask
  | .or mask => atomicOr mask
  | .xor mask => atomicXor mask

/-! ## What the operations are for -/

/-- `int` of a condition. -/
def truth (holds : Prop) [Decidable holds] : BitVec 32 := if holds then 1 else 0

/-- An operation on its own: what it makes of the counter, and what it returns. -/
def Op.apply : Op → BitVec 32 → BitVec 32 × Option (BitVec 32)
  | .add i, v => (v + i, none)
  | .sub i, v => (v - i, none)
  | .addReturn i, v => (v + i, some (v + i))
  | .subReturn i, v => (v - i, some (v - i))
  | .inc, v => (v + 1, none)
  | .dec, v => (v - 1, none)
  | .incReturn, v => (v + 1, some (v + 1))
  | .decReturn, v => (v - 1, some (v - 1))
  | .subAndTest i, v => (v - i, some (truth (v - i = 0)))
  | .incAndTest, v => (v + 1, some (truth (v + 1 = 0)))
  | .decAndTest, v => (v - 1, some (truth (v - 1 = 0)))
  | .addNegative i, v => (v + i, some (truth ((v + i).toInt < 0)))
  | .xchg n, v => (n, some v)
  | .cmpxchg o n, v => (if v = o then n else v, some v)
  | .addUnless a u, v => (if v = u then v else v + a, some v)
  | .and mask, v => (v &&& mask, none)
  | .or mask, v => (v ||| mask, none)
  | .xor mask, v => (v ^^^ mask, none)

/-! ## Harts -/

/-- A hart: the function it is in, its registers, and the calls that have returned, with what they
returned. -/
structure Hart (x : XLen) where
  call : Option Op
  core : Core x
  done : List (Op × Option (BitVec 32))

/-- The `int` in `%0`. -/
def Hart.out (h : Hart x) : BitVec 32 := (h.core.regs .out).setWidth 32

/-- The registers at the start of a statement: the inputs sign-extended, and anything in the
others. -/
def Statement.enter (s : Statement) (junk : Operand → Word x) : Operand → Word x
  | .left => s.left.signExtend x.bits
  | .right => s.right.signExtend x.bits
  | r => junk r

/-- What a hart can do: call any of the functions, execute the next instruction of the call, and
return from it. -/
inductive Event (x : XLen)
  | call (op : Op) (junk : Operand → Word x)
  | instr (status : BitVec 32)
  | ret

/-- One step of a hart. -/
def step (c : Counter 32) (h : Hart x) : Event x → Option (Counter 32 × Hart x)
  | .call op junk =>
    match h.call with
    | some _ => none
    | none => some (c, { h with
        call := some op, core := { h.core with pc := 0, regs := op.statement.enter junk } })
  | .instr status =>
    h.call.bind fun op => op.statement.code[h.core.pc]?.bind fun i =>
      (exec status c h.core i).map fun r => (r.1, { h with core := r.2 })
  | .ret =>
    h.call.bind fun op =>
      if h.core.pc = op.statement.code.length then
        some (c, { h with
          call := none, done := h.done ++ [(op, op.statement.result h.out)] })
      else none

/-- Whatever step a hart can take. -/
def Act (c : Counter 32) (h : Hart x) (c' : Counter 32) (h' : Hart x) : Prop :=
  ∃ e, step c h e = some (c', h')

/-- The counter and the harts. -/
abbrev System (ι : Type*) (x : XLen) : Type _ := Parties ι (Counter 32) (Hart x)

/-- No hart has called any of the functions yet. Reservations may be left from before. -/
structure Starts {ι : Type*} (s : System ι x) : Prop where
  idle : ∀ i, (s.party i).call = none
  fresh : ∀ i, (s.party i).done = []
  past : ∀ i n, (s.party i).core.reservation = some n → n ≤ s.shared.stores

/-! ## When an operation is over -/

/-- The call makes no more access to the counter: it is at its end, or at a branch that goes
there. -/
def Past (regs : Operand → Word x) : Option Instr → Prop
  | none => True
  | some (.bnez rs _) => regs rs = 0
  | some (.beq rs rt _) => regs rs = regs rt
  | some (.bne rs rt _) => regs rs ≠ regs rt
  | some _ => False

instance (regs : Operand → Word x) (i : Option Instr) : Decidable (Past regs i) := by
  unfold Past
  split <;> infer_instance

/-- The call that a hart is in, with what it is to return, if it makes no more access to the
counter. -/
def Hart.over (h : Hart x) : List (Op × Option (BitVec 32)) :=
  match h.call with
  | none => []
  | some op =>
    if Past h.core.regs op.statement.code[h.core.pc]? then [(op, op.statement.result h.out)] else []

/-- The operations that a hart has completed, in its order: those that have returned, and the one
that it only has to return from. -/
def Hart.completed (h : Hart x) : List (Op × Option (BitVec 32)) := h.done ++ h.over

/-- The counter, and the completed operations of every hart. -/
def seen {ι : Type*} (s : System ι x) : View ι (BitVec 32) Op (Option (BitVec 32)) where
  value := s.shared.counter
  effects := fun i => (s.party i).completed

/-! ## The three kinds of functions -/

/-- A function that is one atomic operation. If it does not keep the old value, it does not look at
it. -/
structure Op.Single (op : Op) (a : Amo) (rd : Option Operand) : Prop where
  code : op.statement.code = [.amo a rd .left]
  apply : ∀ v, op.apply v = (a.apply v op.statement.left, op.statement.result v)
  out : rd = some .out ∨ rd = none ∧ ∀ c v, op.statement.result c = op.statement.result v

theorem truth_eq (p : Prop) [Decidable p] : truth p = if decide p = true then 1 else 0 := by
  by_cases holds : p
  · rw [truth, if_pos holds, if_pos (decide_eq_true holds)]
  · rw [truth, if_neg holds, if_neg (by rw [decide_eq_false holds]; decide)]

/-- A function is one atomic operation, or the loop of `cmpxchg` or of `__atomic_add_unless`. -/
theorem Op.kinds (op : Op) :
    (∃ a rd, op.Single a rd) ∨ (∃ o n, op = .cmpxchg o n) ∨ ∃ a u, op = .addUnless a u := by
  cases op with
  | cmpxchg o n => exact .inr (.inl ⟨o, n, rfl⟩)
  | addUnless a u => exact .inr (.inr ⟨a, u, rfl⟩)
  | add i | inc => exact .inl ⟨.add, none, rfl, fun v => rfl, .inr ⟨rfl, fun _ _ => rfl⟩⟩
  | sub i | dec =>
    refine .inl ⟨.add, none, rfl, fun v => ?_, .inr ⟨rfl, fun _ _ => rfl⟩⟩
    exact congrArg (·, none) (BitVec.sub_eq_add_neg v _)
  | addReturn i | incReturn => exact .inl ⟨.add, some .out, rfl, fun v => rfl, .inl rfl⟩
  | subReturn i | decReturn =>
    refine .inl ⟨.add, some .out, rfl, fun v => ?_, .inl rfl⟩
    exact congrArg (fun r => (r, some r)) (BitVec.sub_eq_add_neg v _)
  | subAndTest i | decAndTest =>
    refine .inl ⟨.add, some .out, rfl, fun v => ?_, .inl rfl⟩
    rw [Op.apply, truth_eq, BitVec.sub_eq_add_neg]
    rfl
  | incAndTest | addNegative i =>
    refine .inl ⟨.add, some .out, rfl, fun v => ?_, .inl rfl⟩
    rw [Op.apply, truth_eq]
    rfl
  | xchg n => exact .inl ⟨.swap, some .out, rfl, fun v => rfl, .inl rfl⟩
  | and mask => exact .inl ⟨.and, none, rfl, fun v => rfl, .inr ⟨rfl, fun _ _ => rfl⟩⟩
  | or mask => exact .inl ⟨.or, none, rfl, fun v => rfl, .inr ⟨rfl, fun _ _ => rfl⟩⟩
  | xor mask => exact .inl ⟨.xor, none, rfl, fun v => rfl, .inr ⟨rfl, fun _ _ => rfl⟩⟩

/-! ## What a hart knows in the middle of a call -/

/-- The inputs are in their registers. -/
structure Inputs (s : Statement) (k : Core x) : Prop where
  left : k.regs .left = s.left.signExtend x.bits
  right : k.regs .right = s.right.signExtend x.bits

/-- The hart has the value of the counter that it has reserved. -/
def Same (c : Counter 32) (k : Core x) : Prop :=
  k.Reserved c → k.regs .out = c.counter.signExtend x.bits

/-- What holds before the instruction with this index. -/
def Within (c : Counter 32) (k : Core x) : Op → Nat → Prop
  | .cmpxchg _ _, 1 => Same c k
  | .cmpxchg _ _, 2 => Same c k ∧ k.regs .out = k.regs .left
  | .addUnless _ _, 1 => Same c k
  | .addUnless _ _, 2 => Same c k ∧ k.regs .out ≠ k.regs .right
  | .addUnless _ _, 3 =>
    Same c k ∧ k.regs .out ≠ k.regs .right ∧ k.regs .rc = k.regs .out + k.regs .left
  | _, _ => True

/-- A hart knows what its call has done, and has no reservation from the future. -/
structure Knows (c : Counter 32) (h : Hart x) : Prop where
  past : ∀ n, h.core.reservation = some n → n ≤ c.stores
  inputs : ∀ op, h.call = some op → Inputs op.statement h.core
  within : ∀ op, h.call = some op → Within c h.core op h.core.pc

/-- What a step does: no operation takes effect and the counter stays, or one operation does. -/
inductive Change (c : Counter 32) (h : Hart x) (c' : Counter 32) (h' : Hart x) : Prop
  | quiet (counter : c' = c) (completed : h'.completed = h.completed)
  | effect (op : Op) (counter : c' = c ∨ ∃ v, c' = c.store v)
      (value : c'.counter = (op.apply c.counter).1)
      (completed : h'.completed = h.completed ++ [(op, (op.apply c.counter).2)])

variable {c c' : Counter 32} {h h' : Hart x} {k' : Core x} {op : Op} {status : BitVec 32}

/-- A hart in the middle of a call knows it when it knows it of that call. -/
theorem Knows.of_call (here : h.call = some op)
    (past : ∀ n, k'.reservation = some n → n ≤ c.stores) (inputs : Inputs op.statement k')
    (within : Within c k' op k'.pc) : Knows c { h with core := k' } := by
  refine ⟨past, fun other there => ?_, fun other there => ?_⟩
  · obtain rfl : op = other := Option.some.inj (here.symm.trans there)
    exact inputs
  · obtain rfl : op = other := Option.some.inj (here.symm.trans there)
    exact within

theorem over_of_call (here : h.call = some op) :
    h.over = if Past h.core.regs op.statement.code[h.core.pc]?
      then [(op, op.statement.result h.out)] else [] := by
  rw [Hart.over, here]

/-- A step between two places from which no access to the counter follows, or between two from
which one does, completes nothing. -/
theorem Change.of_past_iff (here : h.call = some op)
    (out : Past h.core.regs op.statement.code[h.core.pc]? → k'.regs .out = h.core.regs .out)
    (same : Past k'.regs op.statement.code[k'.pc]? ↔
      Past h.core.regs op.statement.code[h.core.pc]?) :
    Change c h c { h with core := k' } := by
  refine .quiet rfl (congrArg (h.done ++ ·) ?_)
  rw [over_of_call here, over_of_call (h := { h with core := k' }) here]
  by_cases past : Past h.core.regs op.statement.code[h.core.pc]?
  · rw [if_pos past, if_pos (same.mpr past), Hart.out, Hart.out, out past]
  · rw [if_neg past, if_neg (mt same.mp past)]

/-- The last access to the counter completes the operation. -/
theorem Change.of_past (here : h.call = some op)
    (before : ¬ Past h.core.regs op.statement.code[h.core.pc]?)
    (after : Past k'.regs op.statement.code[k'.pc]?) (counter : c' = c ∨ ∃ v, c' = c.store v)
    (value : c'.counter = (op.apply c.counter).1)
    (result : op.statement.result ((k'.regs .out).setWidth 32) = (op.apply c.counter).2) :
    Change c h c' { h with core := k' } := by
  refine .effect op counter value ?_
  have none : h.over = [] := by rw [over_of_call here, if_neg before]
  rw [Hart.completed, Hart.completed, none, List.append_nil,
    over_of_call (h := { h with core := k' }) here, if_pos after, Hart.out, result]

/-! ## One instruction -/

/-- What an instruction of the call of a hart does. -/
def Executes (c : Counter 32) (h : Hart x) (op : Op) (c' : Counter 32) (k' : Core x) : Prop :=
  ∃ status, op.statement.code[h.core.pc]?.bind (exec status c h.core) = some (c', k')

/-- A place in the code of the call of a hart that executes an instruction. -/
theorem Executes.lt (executes : Executes c h op c' k') :
    h.core.pc < op.statement.code.length := by
  rcases executes with ⟨status, next⟩
  refine Nat.lt_of_not_le fun beyond => ?_
  rw [List.getElem?_eq_none beyond] at next
  cases next

theorem Op.Single.within {a : Amo} {rd : Option Operand} (single : op.Single a rd) (n : Nat) :
    Within c k' op n := by
  have code := single.code
  cases op with
  | cmpxchg o n => cases code
  | addUnless a u => cases code
  | _ => exact trivial

/-- Registers that an instruction does not write keep the inputs. -/
theorem Inputs.congr {s : Statement} {k : Core x} (inputs : Inputs s k)
    (left : k'.regs .left = k.regs .left) (right : k'.regs .right = k.regs .right) :
    Inputs s k' :=
  ⟨left.trans inputs.left, right.trans inputs.right⟩

theorem single_executes {a : Amo} {rd : Option Operand} (single : op.Single a rd)
    (knows : Knows c h) (here : h.call = some op) (executes : Executes c h op c' k') :
    Knows c' { h with core := k' } ∧ Change c h c' { h with core := k' } := by
  have inputs := knows.inputs op here
  have past : ∀ n, h.core.reservation = some n → n ≤ c.stores + 1 :=
    fun n reserved => Nat.le_succ_of_le (knows.past n reserved)
  have start : h.core.pc = 0 := by
    have inside := executes.lt
    rw [single.code] at inside
    exact Nat.lt_one_iff.mp inside
  rcases executes with ⟨status, next⟩
  have left : (h.core.regs .left).setWidth 32 = op.statement.left := by
    rw [inputs.left]
    exact setWidth_signExtend_self (thirtyTwo_le_bits x) _
  have before : ¬ Past h.core.regs op.statement.code[h.core.pc]? := by
    rw [start, single.code]
    exact id
  rw [start, single.code] at next
  cases next
  have value := single.apply c.counter
  have after (regs : Operand → Word x) :
      Past regs op.statement.code[h.core.pc + 1]? := by
    rw [start, single.code]
    exact trivial
  have stored : (c.store (a.apply c.counter ((h.core.regs .left).setWidth 32))).counter
      = (op.apply c.counter).1 := by
    rw [left, value]
    rfl
  rcases single.out with rfl | ⟨rfl, ignores⟩
  · refine ⟨.of_call here past (inputs.congr rfl rfl) (single.within _),
      .of_past here before (after _) (.inr ⟨_, rfl⟩) stored ?_⟩
    show op.statement.result ((c.counter.signExtend x.bits).setWidth 32) = _
    rw [setWidth_signExtend_self (thirtyTwo_le_bits x), value]
  · refine ⟨.of_call here past (inputs.congr rfl rfl) (single.within _),
      .of_past here before (after _) (.inr ⟨_, rfl⟩) stored ?_⟩
    rw [value]
    exact ignores ..

/-- The load of a loop. Whether it completes the operation is for the branch after it. -/
theorem knows_load (knows : Knows c h) (here : h.call = some op) (start : h.core.pc = 0)
    (within : ∀ k : Core x, Same c k → Within c k op 1) :
    Knows c { h with
      core := { h.core.set .out (c.counter.signExtend x.bits) with
        reservation := some c.stores }.next } := by
  have inputs := knows.inputs op here
  refine .of_call here ?_ (inputs.congr rfl rfl) ?_
  · intro v reserved
    cases reserved
    exact Nat.le_refl _
  · show Within c _ op (h.core.pc + 1)
    rw [start]
    exact within _ fun _ => rfl

/-- A store-conditional that fails. -/
theorem Knows.failed (knows : Knows c h) (here : h.call = some op)
    (within : ∀ k : Core x, Within c k op (h.core.pc + 1)) :
    Knows c { h with
      core := { h.core.set .rc (status.signExtend x.bits) with reservation := none }.next } :=
  .of_call here nofun ((knows.inputs op here).congr rfl rfl) (within _)

/-- A store-conditional that stores. -/
theorem Knows.stored (knows : Knows c h) (here : h.call = some op) (v : BitVec 32)
    (within : ∀ k : Core x, Within (c.store v) k op (h.core.pc + 1)) :
    Knows (c.store v) { h with
      core := { h.core.set .rc 0 with reservation := none }.next } :=
  .of_call here nofun ((knows.inputs op here).congr rfl rfl) (within _)

/-- What a hart knows is in its registers and its reservation. -/
theorem Within.branch {k : Core x} {m target : Nat} {taken : Prop} [Decidable taken]
    (within : Within c k op m) : Within c (k.branch taken target) op m := by
  unfold Within at within ⊢
  split at within
  all_goals exact within

/-- A branch, by where it goes: each way it is known what is to be known there, and there follows an
access to the counter there if one follows here. -/
theorem branched {taken : Prop} [Decidable taken] {target : Nat} (knows : Knows c h)
    (here : h.call = some op)
    (goes : taken → Within c h.core op target ∧
      (Past h.core.regs op.statement.code[target]? ↔
        Past h.core.regs op.statement.code[h.core.pc]?))
    (falls : ¬ taken → Within c h.core op (h.core.pc + 1) ∧
      (Past h.core.regs op.statement.code[h.core.pc + 1]? ↔
        Past h.core.regs op.statement.code[h.core.pc]?)) :
    Knows c { h with core := h.core.branch taken target } ∧
      Change c h c { h with core := h.core.branch taken target } := by
  have ways : Within c h.core op (h.core.branch taken target).pc ∧
      (Past h.core.regs op.statement.code[(h.core.branch taken target).pc]? ↔
        Past h.core.regs op.statement.code[h.core.pc]?) := by
    rw [Core.branch]
    by_cases holds : taken
    · rw [if_pos holds]
      exact goes holds
    · rw [if_neg holds]
      exact falls holds
  exact ⟨.of_call here knows.past ((knows.inputs op here).congr rfl rfl) ways.1.branch,
    .of_past_iff here (fun _ => rfl) ways.2⟩

theorem cmpxchg_executes {o n : BitVec 32} (knows : Knows c h) (here : h.call = some (.cmpxchg o n))
    (executes : Executes c h (.cmpxchg o n) c' k') :
    Knows c' { h with core := k' } ∧ Change c h c' { h with core := k' } := by
  have within := knows.within _ here
  have inside := executes.lt
  have left : h.core.regs .left = o.signExtend x.bits := (knows.inputs _ here).left
  have right : h.core.regs .right = n.signExtend x.bits := (knows.inputs _ here).right
  have narrow := thirtyTwo_le_bits x
  rcases executes with ⟨status, next⟩
  generalize hpc : h.core.pc = pc at next within inside
  have code (k : Nat) : (Op.cmpxchg o n).statement.code[h.core.pc + k]?
      = (Op.cmpxchg o n).statement.code[pc + k]? := by rw [hpc]
  match pc with
  | 0 =>
    cases next
    have before : ¬ Past h.core.regs (Op.cmpxchg o n).statement.code[h.core.pc]? :=
      (code 0).symm ▸ id
    refine ⟨knows_load knows here hpc fun _ same => same, ?_⟩
    by_cases found : c.counter = o
    · refine .of_past_iff here (absurd · before) (iff_of_false ?_ before)
      refine (code 1).symm ▸ not_not_intro (Eq.trans ?_ left.symm)
      exact congrArg (BitVec.signExtend x.bits) found
    · refine .of_past here before ?_ (.inl rfl) (if_neg found).symm ?_
      · exact (code 1).symm ▸ fun same => found ((signExtend_inj narrow).mp (same.trans left))
      · exact congrArg some (setWidth_signExtend_self narrow c.counter)
  | 1 =>
    cases next
    refine branched knows here (fun differ => ⟨trivial, ?_⟩) fun equal => ⟨?_, ?_⟩
    · exact iff_of_true trivial ((code 0).symm ▸ differ)
    · rw [hpc]
      exact ⟨within, not_not.mp equal⟩
    · exact iff_of_false ((code 1).symm ▸ id) ((code 0).symm ▸ equal)
  | 2 =>
    rcases within with ⟨same, out⟩
    have before : ¬ Past h.core.regs (Op.cmpxchg o n).statement.code[h.core.pc]? :=
      (code 0).symm ▸ id
    have quiet (c : Counter 32) (k : Core x) : Within c k (.cmpxchg o n) (h.core.pc + 1) := by
      rw [hpc]
      exact trivial
    rcases exec_sc_cases next with ⟨reserved, rfl, rfl⟩ | ⟨failed, rfl, rfl⟩
    · have found : c.counter = o :=
        (signExtend_inj narrow).mp ((same reserved).symm.trans (out.trans left))
      have stored : (h.core.regs .right).setWidth 32 = n := by
        rw [right, setWidth_signExtend_self narrow]
      refine ⟨knows.stored here _ (quiet _), .of_past here before ?_ (.inr ⟨_, rfl⟩) ?_ ?_⟩
      · exact (code 1).symm ▸ rfl
      · exact stored.trans (if_pos found).symm
      · refine congrArg some (Eq.trans ?_ (setWidth_signExtend_self narrow c.counter))
        exact congrArg (BitVec.setWidth 32) (same reserved)
    · refine ⟨knows.failed here (quiet _),
        .of_past_iff here (absurd · before) (iff_of_false ?_ before)⟩
      exact (code 1).symm ▸ status_ne_zero failed
  | 3 =>
    cases next
    refine branched knows here (fun failed => ⟨trivial, ?_⟩) fun zero => ⟨?_, ?_⟩
    · exact iff_of_false id ((code 0).symm ▸ failed)
    · rw [hpc]
      exact trivial
    · exact iff_of_true ((code 1).symm ▸ trivial) ((code 0).symm ▸ not_not.mp zero)
  | k + 4 => exact absurd inside (Nat.not_lt.mpr (Nat.le_add_left 4 k))

theorem addUnless_executes {a u : BitVec 32} (knows : Knows c h)
    (here : h.call = some (.addUnless a u)) (executes : Executes c h (.addUnless a u) c' k') :
    Knows c' { h with core := k' } ∧ Change c h c' { h with core := k' } := by
  have within := knows.within _ here
  have inside := executes.lt
  have left : h.core.regs .left = a.signExtend x.bits := (knows.inputs _ here).left
  have right : h.core.regs .right = u.signExtend x.bits := (knows.inputs _ here).right
  have narrow := thirtyTwo_le_bits x
  rcases executes with ⟨status, next⟩
  generalize hpc : h.core.pc = pc at next within inside
  have code (k : Nat) : (Op.addUnless a u).statement.code[h.core.pc + k]?
      = (Op.addUnless a u).statement.code[pc + k]? := by rw [hpc]
  match pc with
  | 0 =>
    cases next
    have before : ¬ Past h.core.regs (Op.addUnless a u).statement.code[h.core.pc]? :=
      (code 0).symm ▸ id
    refine ⟨knows_load knows here hpc fun _ same => same, ?_⟩
    by_cases found : c.counter = u
    · refine .of_past here before ?_ (.inl rfl) (if_pos found).symm ?_
      · refine (code 1).symm ▸ Eq.trans ?_ right.symm
        exact congrArg (BitVec.signExtend x.bits) found
      · exact congrArg some (setWidth_signExtend_self narrow c.counter)
    · refine .of_past_iff here (absurd · before) (iff_of_false ?_ before)
      exact (code 1).symm ▸ fun same => found ((signExtend_inj narrow).mp (same.trans right))
  | 1 =>
    cases next
    refine branched knows here (fun equal => ⟨trivial, ?_⟩) fun differ => ⟨?_, ?_⟩
    · exact iff_of_true trivial ((code 0).symm ▸ equal)
    · rw [hpc]
      exact ⟨within, differ⟩
    · exact iff_of_false ((code 1).symm ▸ id) ((code 0).symm ▸ differ)
  | 2 =>
    rcases within with ⟨same, differ⟩
    cases next
    refine ⟨.of_call here knows.past ((knows.inputs _ here).congr rfl rfl) ?_,
      .of_past_iff here (fun _ => rfl) (iff_of_false ?_ ?_)⟩
    · show Within c _ (.addUnless a u) (h.core.pc + 1)
      rw [hpc]
      exact ⟨same, differ, rfl⟩
    · exact (code 1).symm ▸ id
    · exact (code 0).symm ▸ id
  | 3 =>
    rcases within with ⟨same, differ, sum⟩
    have before : ¬ Past h.core.regs (Op.addUnless a u).statement.code[h.core.pc]? :=
      (code 0).symm ▸ id
    have quiet (c : Counter 32) (k : Core x) : Within c k (.addUnless a u) (h.core.pc + 1) := by
      rw [hpc]
      exact trivial
    rcases exec_sc_cases next with ⟨reserved, rfl, rfl⟩ | ⟨failed, rfl, rfl⟩
    · have other : c.counter ≠ u := fun found =>
        differ ((same reserved).trans ((congrArg _ found).trans right.symm))
      have stored : (h.core.regs .rc).setWidth 32 = c.counter + a := by
        rw [sum, same reserved, left, setWidth_add_signExtend narrow]
      refine ⟨knows.stored here _ (quiet _), .of_past here before ?_ (.inr ⟨_, rfl⟩) ?_ ?_⟩
      · exact (code 1).symm ▸ rfl
      · exact stored.trans (if_neg other).symm
      · refine congrArg some (Eq.trans ?_ (setWidth_signExtend_self narrow c.counter))
        exact congrArg (BitVec.setWidth 32) (same reserved)
    · refine ⟨knows.failed here (quiet _),
        .of_past_iff here (absurd · before) (iff_of_false ?_ before)⟩
      exact (code 1).symm ▸ status_ne_zero failed
  | 4 =>
    cases next
    refine branched knows here (fun failed => ⟨trivial, ?_⟩) fun zero => ⟨?_, ?_⟩
    · exact iff_of_false id ((code 0).symm ▸ failed)
    · rw [hpc]
      exact trivial
    · exact iff_of_true ((code 1).symm ▸ trivial) ((code 0).symm ▸ not_not.mp zero)
  | k + 5 => exact absurd inside (Nat.not_lt.mpr (Nat.le_add_left 5 k))

/-! ## One step -/

/-- At its start a call has its last access to the counter before it. -/
theorem not_past_start (regs : Operand → Word x) (op : Op) :
    ¬ Past regs op.statement.code[0]? := by
  cases op <;> exact id

theorem within_start (k : Core x) (op : Op) : Within c k op 0 := by
  cases op <;> exact trivial

theorem Executes.cases (knows : Knows c h) (here : h.call = some op)
    (executes : Executes c h op c' k') :
    Knows c' { h with core := k' } ∧ Change c h c' { h with core := k' } := by
  rcases op.kinds with ⟨a, rd, single⟩ | ⟨o, n, rfl⟩ | ⟨a, u, rfl⟩
  · exact single_executes single knows here executes
  · exact cmpxchg_executes knows here executes
  · exact addUnless_executes knows here executes

/-- A hart that knows what its call has done knows it after its next step. -/
theorem act_cases (knows : Knows c h) (act : Act c h c' h') : Knows c' h' ∧ Change c h c' h' := by
  rcases act with ⟨e, next⟩
  cases e with
  | call op junk =>
    rw [step] at next
    split at next
    · cases next
    · next idle =>
      cases next
      refine ⟨⟨knows.past, fun other there => ?_, fun other there => ?_⟩, .quiet rfl ?_⟩
      · cases there
        exact ⟨rfl, rfl⟩
      · exact within_start _ other
      · have before : h.over = [] := by rw [Hart.over, idle]
        rw [Hart.completed, Hart.completed, before]
        exact congrArg (h.done ++ ·) ((over_of_call rfl).trans (if_neg (not_past_start _ op)))
  | instr status =>
    rw [step, Option.bind_eq_some_iff] at next
    rcases next with ⟨op, here, next⟩
    rw [Option.bind_eq_some_iff] at next
    rcases next with ⟨i, found, next⟩
    rw [Option.map_eq_some_iff] at next
    rcases next with ⟨⟨c'', k'⟩, executed, result⟩
    cases result
    refine Executes.cases knows here ⟨status, ?_⟩
    rw [found]
    exact executed
  | ret =>
    rw [step, Option.bind_eq_some_iff] at next
    rcases next with ⟨op, here, next⟩
    split at next
    · next ended =>
      cases next
      refine ⟨⟨knows.past, nofun, nofun⟩, .quiet rfl ?_⟩
      have last : h.over = [(op, op.statement.result h.out)] := by
        rw [over_of_call here, ended, List.getElem?_eq_none (Nat.le_refl _)]
        rfl
      rw [Hart.completed, Hart.completed, last]
      exact List.append_nil _
    · cases next

/-- A store breaks the reservations of the other harts. -/
theorem Knows.store (knows : Knows c h) (v : BitVec 32) : Knows (c.store v) h := by
  have same (known : Same c h.core) : Same (c.store v) h.core := fun reserved =>
    absurd (knows.past _ reserved) (Nat.not_succ_le_self _)
  refine ⟨fun n reserved => Nat.le_succ_of_le (knows.past n reserved), knows.inputs,
    fun op here => ?_⟩
  have within := knows.within op here
  unfold Within at within ⊢
  split at within
  · exact same within
  · exact ⟨same within.1, within.2⟩
  · exact same within
  · exact ⟨same within.1, within.2⟩
  · exact ⟨same within.1, within.2⟩
  · exact within

/-- What a hart knows, it knows after the step of another. -/
theorem Knows.other {g : Hart x} (knows : Knows c g) (change : Change c h c' h') : Knows c' g := by
  cases change with
  | quiet counter =>
    rw [counter]
    exact knows
  | effect op counter =>
    rcases counter with rfl | ⟨v, rfl⟩
    · exact knows
    · exact knows.store v

/-! ## Runs -/

variable {ι : Type*} [DecidableEq ι] {s t u : System ι x}

theorem knows_kept : Keeps (Interleave Act) (Everywhere (ι := ι) (Knows (x := x))) :=
  Interleave.keeps (fun _ _ _ _ knows act => (act_cases knows act).1)
    fun _ _ _ _ _ knows others act => others.other (act_cases knows act).2

/-- A step of the system is the effect of one operation at most. -/
theorem effects_step (knows : Everywhere Knows s) (stepped : Interleave Act s t) :
    Effects Op.apply (seen s) (seen t) := by
  rcases stepped with ⟨i, h, act, moved⟩
  have party (j : ι) (differ : j ≠ i) : (t.party j).completed = (s.party j).completed := by
    rw [moved, Function.update_of_ne differ]
  have own : (t.party i).completed = h.completed := by
    rw [moved, Function.update_self]
  cases (act_cases (knows i) act).2 with
  | quiet counter completed =>
    have same : seen t = seen s := by
      refine View.mk.injEq _ _ _ _ ▸ ⟨congrArg _ counter, funext fun j => ?_⟩
      rcases eq_or_ne j i with rfl | differ
      · exact own.trans completed
      · exact party j differ
    rw [same]
    exact .quiet _
  | effect op _ value completed =>
    have same : seen t = ⟨(op.apply (seen s).value).1, Function.update (seen s).effects i
        ((seen s).effects i ++ [(op, (op.apply (seen s).value).2)])⟩ := by
      refine View.mk.injEq _ _ _ _ ▸ ⟨value, funext fun j => ?_⟩
      rcases eq_or_ne j i with rfl | differ
      · rw [Function.update_self]
        exact own.trans completed
      · rw [Function.update_of_ne differ]
        exact party j differ
    rw [same]
    exact .effect _ i op

/-- The operations that any number of harts have completed in a run have a sequence that has the
operations of every hart in its order, and in which, applied one by one, they return what they
returned and leave the counter as it is. The sequence of a longer run continues that of a shorter
one, so that an operation comes after those that were over when it was called. -/
theorem linearizable (starts : Starts s) (run : Run (Interleave Act) s t)
    (later : Run (Interleave Act) t u) :
    ∃ order order', order <+: order' ∧
      Linearized Op.apply s.shared.counter (seen t) order ∧
      Linearized Op.apply s.shared.counter (seen u) order' := by
  have knows : Everywhere Knows s := fun i =>
    ⟨starts.past i, fun op here => absurd (here.symm.trans (starts.idle i)) nofun,
      fun op here => absurd (here.symm.trans (starts.idle i)) nofun⟩
  have fresh : ∀ i, (seen s).effects i = [] := by
    intro i
    show (s.party i).done ++ (s.party i).over = []
    rw [starts.fresh i, Hart.over, starts.idle i]
    rfl
  exact linearized_of_run knows_kept (fun _ _ => effects_step) knows fresh run later

/-- One hart takes a step. -/
def move (s : System ι x) (e : ι × Event x) : Option (System ι x) :=
  (step s.shared (s.party e.1) e.2).map fun r => ⟨r.1, Function.update s.party e.1 r.2⟩

theorem interleave_of_move {e : ι × Event x} (moved : move s e = some t) :
    Interleave Act s t := by
  rw [move, Option.map_eq_some_iff] at moved
  rcases moved with ⟨r, acts, result⟩
  cases result
  exact ⟨e.1, r.2, ⟨e.2, acts⟩, rfl⟩

/-- Two harts, and a counter that is five. -/
def twoHarts : System Bool .rv64 where
  shared := ⟨5, 0⟩
  party := fun _ => ⟨none, ⟨0, fun _ => 0, none⟩, []⟩

/-- The second hart increments the counter between a load and the store-conditional for it, which
fails, and the first hart tries again. -/
def contended : List (Bool × Event .rv64) :=
  [(false, .call (.addUnless 2 0) fun _ => 9), (false, .instr 0),
    (true, .call .incReturn fun _ => 9), (true, .instr 0), (false, .instr 0), (false, .instr 0),
    (false, .instr 1), (false, .instr 0), (false, .instr 0), (false, .instr 0), (false, .instr 0),
    (false, .instr 0), (true, .ret), (false, .instr 0), (false, .ret)]

theorem linearizable_contended :
    ∃ t : System Bool .rv64, (t.party false).done = [(.addUnless 2 0, some 6)] ∧
      (t.party true).done = [(.incReturn, some 6)] ∧
      ∃ order order', order <+: order' ∧ Linearized Op.apply 5 (seen t) order ∧
        Linearized Op.apply 5 (seen t) order' := by
  have leads : (contended.foldlM move twoHarts).any fun t =>
      (t.party false).done = [(.addUnless 2 0, some 6)] ∧
      (t.party true).done = [(.incReturn, some 6)] := by
    decide
  obtain ⟨t, moves, found⟩ := (Option.any_eq_true _ _).mp leads
  obtain ⟨first, second⟩ := of_decide_eq_true found
  have run : Run (Interleave Act) twoHarts t :=
    (Run.of_foldlM moves).lift id fun _ _ ⟨_, _, moved⟩ => interleave_of_move moved
  exact ⟨t, first, second, linearizable ⟨fun _ => rfl, fun _ => rfl, nofun⟩ run .refl⟩

end RiscvLinux.Smp.Atomic
