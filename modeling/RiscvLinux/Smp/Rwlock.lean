import RiscvLinux.Lib.Interleave

/-!
# Reader-writer locks

`arch_read_lock`, `arch_write_lock`, the two trylocks and the two unlocks of
`arch/riscv/include/asm/spinlock.h`, instruction by instruction, run by any number of harts
at once. A store-conditional stores only when nothing was stored to the word since the
load-reserved of its hart, and may fail without a reason. That is modelled by counting the
stores to the word: a reservation is the count at the time of the load.

A hart holds the lock from the store-conditional that took it to the atomic operation that
gives it up; it may hold the lock for reading any number of times over.
-/

namespace RiscvLinux.Smp.Rwlock

open Lib

/-! ## The code -/

/-- The instructions of the six functions. The only register is the one the compiler puts in
the place of `%1`, an `int`; a branch gives the index of the instruction it goes to. -/
inductive Instr
  /-- `lr.w %1, %0` -/
  | lr
  /-- `bltz %1, target` -/
  | bltz (target : Nat)
  /-- `bnez %1, target` -/
  | bnez (target : Nat)
  /-- `addi %1, %1, imm` -/
  | addi (imm : BitVec 32)
  /-- `li %1, imm` -/
  | li (imm : BitVec 32)
  /-- `sc.w.aq %1, %1, %0` -/
  | sc
  /-- `amoadd.w.rl x0, value, %0` -/
  | amoadd (value : BitVec 32)
  /-- `amoswap.w.rl x0, x0, %0` -/
  | amoswap
  deriving DecidableEq

/-- The loop of the four functions that acquire: when the word is busy they go to `out`, and
else they store the word they want, and start again if the store fails. -/
def attempt (busy : Nat → Instr) (out : Nat) (want : Instr) : List Instr :=
  [.lr, busy out, want, .sc, .bnez 0]

def archReadLock : List Instr := attempt .bltz 0 (.addi 1)

def archWriteLock : List Instr := attempt .bnez 0 (.li (-1))

def archReadTrylock : List Instr := attempt .bltz 5 (.addi 1)

def archWriteTrylock : List Instr := attempt .bnez 5 (.li (-1))

def archReadUnlock : List Instr := [.amoadd (-1)]

def archWriteUnlock : List Instr := [.amoswap]

/-- The functions. -/
inductive Op
  | readLock
  | writeLock
  | readTrylock
  | writeTrylock
  | readUnlock
  | writeUnlock
  deriving DecidableEq

def Op.code : Op → List Instr
  | .readLock => archReadLock
  | .writeLock => archWriteLock
  | .readTrylock => archReadTrylock
  | .writeTrylock => archWriteTrylock
  | .readUnlock => archReadUnlock
  | .writeUnlock => archWriteUnlock

/-! ## States -/

/-- `arch_rwlock_t`, and how often it was stored to. -/
structure RwLock where
  lock : BitVec 32
  stores : Nat
  deriving DecidableEq

/-- A store to the word. -/
def RwLock.store (l : RwLock) (v : BitVec 32) : RwLock :=
  ⟨v, l.stores + 1⟩

/-- How often a hart holds the lock. -/
structure Held where
  readers : Nat
  writers : Nat
  deriving DecidableEq

/-- What a call that goes through does to it. -/
def Op.settle : Op → Held → Held
  | .readLock, k | .readTrylock, k => { k with readers := k.readers + 1 }
  | .writeLock, k | .writeTrylock, k => { k with writers := k.writers + 1 }
  | .readUnlock, k => { k with readers := k.readers - 1 }
  | .writeUnlock, k => { k with writers := k.writers - 1 }

/-- A hart: the call it is in with the index of its next instruction, the register, the
reservation, and what it holds. `stored` and `before` are of the call: how often it has stored
to the word, and what the hart held when it started. -/
structure Hart where
  call : Option (Op × Nat)
  reg : BitVec 32
  reservation : Option Nat
  held : Held
  stored : Nat
  before : Held
  deriving DecidableEq

/-- An unlock is for a holder. -/
def Op.May : Op → Held → Prop
  | .readUnlock, k => 0 < k.readers
  | .writeUnlock, k => 0 < k.writers
  | _, _ => True

instance (op : Op) (k : Held) : Decidable (op.May k) := by
  cases op <;> (unfold Op.May; infer_instance)

/-! ## Steps -/

/-- A store of the call of a hart, with what it settles. -/
def Hart.storing (h : Hart) (op : Op) : Hart :=
  { h with held := op.settle h.held, stored := h.stored + 1 }

/-- One instruction. `status` is what a store-conditional leaves in the register: zero when it
stores, which takes a reservation that nothing has broken. -/
def exec (op : Op) (pc : Nat) (status : BitVec 32) (l : RwLock) (h : Hart) :
    Instr → Option (RwLock × Hart)
  | .lr =>
    some (l, { h with reg := l.lock, reservation := some l.stores, call := some (op, pc + 1) })
  | .bltz target =>
    some (l, { h with call := some (op, if h.reg.toInt < 0 then target else pc + 1) })
  | .bnez target =>
    some (l, { h with call := some (op, if h.reg ≠ 0 then target else pc + 1) })
  | .addi imm => some (l, { h with reg := h.reg + imm, call := some (op, pc + 1) })
  | .li imm => some (l, { h with reg := imm, call := some (op, pc + 1) })
  | .sc =>
    if status = 0 then
      if h.reservation = some l.stores then
        some (l.store h.reg,
          { h.storing op with reg := 0, reservation := none, call := some (op, pc + 1) })
      else none
    else some (l, { h with reg := status, reservation := none, call := some (op, pc + 1) })
  | .amoadd value =>
    some (l.store (l.lock + value), { h.storing op with call := some (op, pc + 1) })
  | .amoswap => some (l.store 0, { h.storing op with call := some (op, pc + 1) })

/-- What a hart can do: call a function, with whatever is in the register, execute the next
instruction of the call, and return from it. -/
inductive Event
  | call (op : Op) (reg : BitVec 32)
  | instr (status : BitVec 32)
  | ret

/-- One step of a hart. -/
def step (l : RwLock) (h : Hart) : Event → Option (RwLock × Hart)
  | .call op reg =>
    if h.call = none ∧ op.May h.held then
      some (l, { h with call := some (op, 0), reg := reg, stored := 0, before := h.held })
    else none
  | .instr status =>
    match h.call with
    | none => none
    | some (op, pc) => op.code[pc]?.bind (exec op pc status l h)
  | .ret =>
    match h.call with
    | none => none
    | some (op, pc) => if pc = op.code.length then some (l, { h with call := none }) else none

/-- Whatever step a hart can take. -/
def Act (l : RwLock) (h : Hart) (l' : RwLock) (h' : Hart) : Prop :=
  ∃ e, step l h e = some (l', h')

/-- The lock and the harts. -/
abbrev System (ι : Type*) : Type _ := Parties ι RwLock Hart

/-- `__ARCH_RW_LOCK_UNLOCKED`, and no hart in a call. -/
structure Unlocked {ι : Type*} (s : System ι) : Prop where
  lock : s.shared.lock = 0
  idle : ∀ i, (s.party i).call = none
  free : ∀ i, (s.party i).held = ⟨0, 0⟩
  reservation : ∀ i, (s.party i).reservation = none

/-- The call of a trylock has come to its end with this value: it returns `!busy`. -/
def Hart.Returning (h : Hart) (op : Op) (acquired : Bool) : Prop :=
  (op = .readTrylock ∨ op = .writeTrylock) ∧ h.call = some (op, op.code.length)
    ∧ acquired = decide (h.reg = 0)

/-- How many readers and writers hold the lock. -/
def readers {ι : Type*} [Fintype ι] (s : System ι) : Nat :=
  total (fun h => h.held.readers) s.party

def writers {ι : Type*} [Fintype ι] (s : System ι) : Nat :=
  total (fun h => h.held.writers) s.party

/-! ## What a hart knows in the middle of a call -/

/-- The call has stored nothing so far. -/
structure Hart.Untouched (h : Hart) : Prop where
  stored : h.stored = 0
  held : h.held = h.before

/-- The call has stored once, and settled what it is for. -/
structure Hart.Settled (h : Hart) (op : Op) : Prop where
  stored : h.stored = 1
  held : h.held = op.settle h.before

/-- The value of the word that lets the function through. -/
def Op.Free : Op → BitVec 32 → Prop
  | .readLock, v | .readTrylock, v => 0 ≤ v.toInt
  | .writeLock, v | .writeTrylock, v => v = 0
  | .readUnlock, _ | .writeUnlock, _ => True

/-- What it stores over that. -/
def Op.wanted : Op → BitVec 32 → BitVec 32
  | .readLock, v | .readTrylock, v => v + 1
  | .writeLock, _ | .writeTrylock, _ => -1
  | .readUnlock, v => v - 1
  | .writeUnlock, _ => 0

/-- The function does not come back without the lock. -/
def Op.Waits : Op → Prop
  | .readLock | .writeLock => True
  | _ => False

/-- Nothing was stored to the word since the hart reserved it. -/
def Hart.Reserved (h : Hart) (l : RwLock) : Prop :=
  h.reservation = some l.stores

/-- In the loop of an acquiring function: what holds before the instruction with this index. -/
def Attempting (l : RwLock) (h : Hart) (op : Op) : Nat → Prop
  | 0 => h.Untouched
  | 1 => h.Untouched ∧ (h.Reserved l → h.reg = l.lock)
  | 2 => h.Untouched ∧ op.Free h.reg ∧ (h.Reserved l → h.reg = l.lock)
  | 3 => h.Untouched ∧ (h.Reserved l → op.Free l.lock ∧ h.reg = op.wanted l.lock)
  | 4 => h.reg = 0 ∧ h.Settled op ∨ h.reg ≠ 0 ∧ h.Untouched
  | 5 => h.reg = 0 ∧ h.Settled op ∨ h.reg ≠ 0 ∧ h.Untouched ∧ ¬ op.Waits
  | _ => False

/-- In an unlock. -/
def Releasing (h : Hart) (op : Op) : Nat → Prop
  | 0 => h.Untouched ∧ op.May h.held
  | 1 => h.Settled op
  | _ => False

/-- What holds before the next instruction of a call. -/
def Within (l : RwLock) (h : Hart) (op : Op) (pc : Nat) : Prop :=
  match op with
  | .readUnlock | .writeUnlock => Releasing h op pc
  | _ => Attempting l h op pc

/-- A hart knows what its call has done, and has no reservation from the future. -/
structure Knows (l : RwLock) (h : Hart) : Prop where
  past : ∀ v, h.reservation = some v → v ≤ l.stores
  call : ∀ op pc, h.call = some (op, pc) → Within l h op pc

/-! ## One step -/

/-- What a step does to the word and to what the hart holds: nothing, or it is the store of
the call. -/
inductive Change (l : RwLock) (h : Hart) (l' : RwLock) (h' : Hart) : Prop
  | quiet (word : l' = l) (held : h'.held = h.held)
  | store (op : Op) (word : l' = l.store (op.wanted l.lock)) (free : op.Free l.lock)
      (may : op.May h.held) (held : h'.held = op.settle h.held) (stored : h'.stored = h.stored + 1)

/-- The branch of an acquiring function, where it goes when the word is busy, and what it does
to the register when it is not. -/
def Op.busy : Op → Nat → Instr
  | .readLock | .readTrylock => .bltz
  | _ => .bnez

def Op.out : Op → Nat
  | .readLock | .writeLock => 0
  | _ => 5

def Op.want : Op → Instr
  | .readLock | .readTrylock => .addi 1
  | _ => .li (-1)

/-- The four functions that take the lock. -/
def Op.Acquires : Op → Prop
  | .readUnlock | .writeUnlock => False
  | _ => True

variable {l l' : RwLock} {h h' : Hart} {op : Op} {pc : Nat} {status : BitVec 32}

theorem Op.code_of_acquires (acquires : op.Acquires) :
    op.code = attempt op.busy op.out op.want := by
  cases op <;> first | rfl | exact acquires.elim

theorem within_iff (acquires : op.Acquires) : Within l h op pc ↔ Attempting l h op pc := by
  cases op <;> first | rfl | exact acquires.elim

theorem may_of_acquires (acquires : op.Acquires) (k : Held) : op.May k := by
  cases op <;> first | exact acquires.elim | trivial

instance (v : BitVec 32) : Decidable (op.Free v) := by
  cases op <;> (unfold Op.Free; infer_instance)

/-- The branch falls through when the register is free. -/
theorem exec_busy (acquires : op.Acquires) (target : Nat) :
    exec op pc status l h (op.busy target)
      = some (l, { h with call := some (op, if op.Free h.reg then pc + 1 else target) }) := by
  cases op with
  | readLock | readTrylock =>
    rcases Int.lt_or_le h.reg.toInt 0 with below | above
    · simp only [Op.busy, exec, Op.Free, below, Int.not_le.mpr below, if_true, if_false]
    · simp only [Op.busy, exec, Op.Free, above, Int.not_lt.mpr above, if_true, if_false]
  | writeLock | writeTrylock =>
    by_cases zero : h.reg = 0
    · simp only [Op.busy, exec, Op.Free, zero, ne_eq, not_true_eq_false, if_true, if_false]
    · simp only [Op.busy, exec, Op.Free, zero, ne_eq, not_false_eq_true, if_true, if_false]
  | readUnlock | writeUnlock => exact acquires.elim

/-- The next instruction makes of the register what is to be stored. -/
theorem exec_want (acquires : op.Acquires) :
    exec op pc status l h op.want
      = some (l, { h with reg := op.wanted h.reg, call := some (op, pc + 1) }) := by
  cases op <;> first | rfl | exact acquires.elim

/-- Where the branch goes when the word is busy. -/
theorem attempting_out (acquires : op.Acquires) (untouched : h.Untouched) (busy : ¬ op.Free h.reg) :
    Attempting l { h with call := some (op, op.out) } op op.out := by
  have differ : op = .readTrylock ∨ op = .writeTrylock → h.reg ≠ 0 := by
    intro either zero
    rcases either with rfl | rfl
    · exact busy (by rw [zero]; decide)
    · exact busy zero
  cases op with
  | readLock | writeLock => exact ⟨untouched.stored, untouched.held⟩
  | readTrylock => exact .inr ⟨differ (.inl rfl), ⟨untouched.stored, untouched.held⟩, id⟩
  | writeTrylock => exact .inr ⟨differ (.inr rfl), ⟨untouched.stored, untouched.held⟩, id⟩
  | readUnlock | writeUnlock => exact acquires.elim

/-- A hart in the middle of a call knows it when it knows it of that call. -/
theorem Knows.of_call (op : Op) (pc : Nat) (past : ∀ v, h.reservation = some v → v ≤ l.stores)
    (here : h.call = some (op, pc)) (within : Within l h op pc) : Knows l h := by
  refine ⟨past, fun op' pc' there => ?_⟩
  rw [here] at there
  cases there
  exact within

/-- What each instruction of the loop does -/
inductive Attempted (op : Op) (l : RwLock) (h : Hart) : Nat → RwLock → Hart → Prop
  | load : Attempted op l h 0 l
      { h with reg := l.lock, reservation := some l.stores, call := some (op, 1) }
  | branch : Attempted op l h 1 l
      { h with call := some (op, if op.Free h.reg then 2 else op.out) }
  | want : Attempted op l h 2 l { h with reg := op.wanted h.reg, call := some (op, 3) }
  | store (reserved : h.Reserved l) : Attempted op l h 3 (l.store h.reg)
      { h.storing op with reg := 0, reservation := none, call := some (op, 4) }
  | fail (status : BitVec 32) (failed : status ≠ 0) : Attempted op l h 3 l
      { h with reg := status, reservation := none, call := some (op, 4) }
  | retry : Attempted op l h 4 l { h with call := some (op, if h.reg ≠ 0 then 0 else 5) }

theorem attempted_of_exec (acquires : op.Acquires)
    (next : op.code[pc]?.bind (exec op pc status l h) = some (l', h')) :
    Attempted op l h pc l' h' := by
  rw [Op.code_of_acquires acquires] at next
  match pc with
  | 0 =>
    cases next
    exact .load
  | 1 =>
    have run : exec op 1 status l h (op.busy op.out) = _ := exec_busy acquires op.out
    cases run.symm.trans next
    exact .branch
  | 2 =>
    have run : exec op 2 status l h op.want = _ := exec_want acquires
    cases run.symm.trans next
    exact .want
  | 3 =>
    have run : exec op 3 status l h .sc = some (l', h') := next
    rw [exec] at run
    split at run
    · split at run
      · next reserved =>
        cases run
        exact .store reserved
      · cases run
    · next failed =>
      cases run
      exact .fail status failed
  | 4 =>
    cases next
    exact .retry
  | n + 5 => cases next

/-- An instruction of the loop. -/
theorem attempt_step (knows : Knows l h) (acquires : op.Acquires) (here : h.call = some (op, pc))
    (next : op.code[pc]?.bind (exec op pc status l h) = some (l', h')) :
    Knows l' h' ∧ Change l h l' h' := by
  have known := (within_iff acquires).mp (knows.call op pc here)
  have past := knows.past
  cases attempted_of_exec acquires next with
  | load =>
    have untouched : h.Untouched := known
    refine ⟨.of_call op 1 ?_ rfl ((within_iff acquires).mpr ?_), .quiet rfl rfl⟩
    · intro v rfl_v
      cases rfl_v
      exact Nat.le_refl _
    · exact ⟨⟨untouched.stored, untouched.held⟩, fun _ => rfl⟩
  | branch =>
    rcases known with ⟨untouched, same⟩
    refine ⟨?_, .quiet rfl rfl⟩
    by_cases free : op.Free h.reg
    · rw [if_pos free]
      exact .of_call op 2 past rfl
        ((within_iff acquires).mpr ⟨⟨untouched.stored, untouched.held⟩, free, same⟩)
    · rw [if_neg free]
      exact .of_call op op.out past rfl
        ((within_iff acquires).mpr (attempting_out acquires untouched free))
  | want =>
    rcases known with ⟨untouched, free, same⟩
    refine ⟨.of_call op 3 past rfl ((within_iff acquires).mpr ?_), .quiet rfl rfl⟩
    refine ⟨⟨untouched.stored, untouched.held⟩, fun reserved => ?_⟩
    have now : h.reg = l.lock := same reserved
    exact ⟨now ▸ free, congrArg op.wanted now⟩
  | store reserved =>
    rcases known with ⟨untouched, ready⟩
    obtain ⟨free, value⟩ := ready reserved
    refine ⟨.of_call op 4 (by rintro v ⟨⟩) rfl ((within_iff acquires).mpr ?_),
      .store op (by rw [value]) free (may_of_acquires acquires _) rfl rfl⟩
    refine .inl ⟨rfl, ?_, ?_⟩
    · exact congrArg (· + 1) untouched.stored
    · exact congrArg op.settle untouched.held
  | fail status failed =>
    rcases known with ⟨untouched, -⟩
    refine ⟨.of_call op 4 (by rintro v ⟨⟩) rfl ((within_iff acquires).mpr ?_), .quiet rfl rfl⟩
    exact .inr ⟨failed, untouched.stored, untouched.held⟩
  | retry =>
    refine ⟨?_, .quiet rfl rfl⟩
    rcases known with ⟨zero, settled⟩ | ⟨failed, untouched⟩
    · rw [if_neg (by rw [zero]; exact not_not_intro rfl)]
      exact .of_call op 5 past rfl
        ((within_iff acquires).mpr (.inl ⟨zero, settled.stored, settled.held⟩))
    · rw [if_pos failed]
      exact .of_call op 0 past rfl
        ((within_iff acquires).mpr ⟨untouched.stored, untouched.held⟩)

/-- The instruction of an unlock. -/
theorem release_step (knows : Knows l h) (releases : ¬ op.Acquires) (here : h.call = some (op, pc))
    (next : op.code[pc]?.bind (exec op pc status l h) = some (l', h')) :
    Knows l' h' ∧ Change l h l' h' := by
  have past : ∀ v, h.reservation = some v → v ≤ l.stores + 1 :=
    fun v reserved => Nat.le_succ_of_le (knows.past v reserved)
  have known := knows.call op pc here
  cases op with
  | readUnlock =>
    match pc with
    | 0 =>
      rcases known with ⟨untouched, may⟩
      have run : exec .readUnlock 0 status l h (.amoadd (-1)) = some (l', h') := next
      have value : l.lock + -1 = l.lock - 1 := (BitVec.sub_eq_add_neg l.lock 1).symm
      rw [exec, value] at run
      cases run
      refine ⟨.of_call .readUnlock 1 past rfl ⟨?_, ?_⟩,
        .store .readUnlock rfl trivial may rfl rfl⟩
      · exact congrArg (· + 1) untouched.stored
      · exact congrArg (Op.settle .readUnlock) untouched.held
    | 1 => cases next
    | n + 2 => exact known.elim
  | writeUnlock =>
    match pc with
    | 0 =>
      rcases known with ⟨untouched, may⟩
      cases next
      refine ⟨.of_call .writeUnlock 1 past rfl ⟨?_, ?_⟩,
        .store .writeUnlock rfl trivial may rfl rfl⟩
      · exact congrArg (· + 1) untouched.stored
      · exact congrArg (Op.settle .writeUnlock) untouched.held
    | 1 => cases next
    | n + 2 => exact known.elim
  | readLock | writeLock | readTrylock | writeTrylock => exact (releases trivial).elim

/-- A hart that knows what its call has done knows it after its next step. -/
theorem act_cases (knows : Knows l h) (act : Act l h l' h') : Knows l' h' ∧ Change l h l' h' := by
  rcases act with ⟨e, next⟩
  cases e with
  | call op reg =>
    rw [step] at next
    split at next
    · rename_i starts
      cases next
      refine ⟨.of_call op 0 knows.past rfl ?_, .quiet rfl rfl⟩
      cases op with
      | readUnlock | writeUnlock => exact ⟨⟨rfl, rfl⟩, starts.2⟩
      | readLock | writeLock | readTrylock | writeTrylock => exact ⟨rfl, rfl⟩
    · cases next
  | instr status =>
    rw [step] at next
    split at next
    · cases next
    · rename_i op pc here
      by_cases acquires : op.Acquires
      · exact attempt_step knows acquires here next
      · exact release_step knows acquires here next
  | ret =>
    rw [step] at next
    split at next
    · cases next
    · split at next
      · cases next
        exact ⟨⟨knows.past, fun _ _ there => nomatch there⟩, .quiet rfl rfl⟩
      · cases next

/-- The steps of other harts do not change what a hart knows. -/
theorem Knows.of_other {k : Hart} (knows : Knows l k) (change : Change l h l' h') : Knows l' k := by
  cases change with
  | quiet word =>
    rw [word]
    exact knows
  | store op word =>
    have broken : ¬ k.Reserved l' := by
      intro reserved
      have early := knows.past _ reserved
      rw [word] at early
      exact Nat.not_succ_le_self _ early
    refine ⟨fun v reserved => ?_, fun op' pc here => ?_⟩
    · rw [word]
      exact Nat.le_succ_of_le (knows.past v reserved)
    · have known := knows.call op' pc here
      by_cases acquires : op'.Acquires
      · rw [within_iff acquires] at known ⊢
        match pc with
        | 0 => exact known
        | 1 => exact ⟨known.1, fun reserved => (broken reserved).elim⟩
        | 2 => exact ⟨known.1, known.2.1, fun reserved => (broken reserved).elim⟩
        | 3 => exact ⟨known.1, fun reserved => (broken reserved).elim⟩
        | 4 | 5 => exact known
        | n + 6 => exact known
      · cases op' with
        | readUnlock | writeUnlock => exact known
        | readLock | writeLock | readTrylock | writeTrylock => exact (acquires trivial).elim

/-! ## Runs -/

variable {ι : Type*} [Fintype ι] {s t : System ι}

/-- The word counts the readers, or is -1 for a writer, who is alone. -/
structure Counted (s : System ι) : Prop where
  writers_le : writers s ≤ 1
  alone : writers s = 1 → readers s = 0
  word : s.shared.lock = BitVec.ofInt 32 (readers s - writers s)

/-- Fewer readers than an `int` counts. -/
def Countable (s : System ι) : Prop :=
  readers s < 2 ^ 31

instance (s : System ι) : Decidable (Countable s) :=
  inferInstanceAs (Decidable (_ < _))

/-- What holds in every state that is reached. -/
structure Invariant (s : System ι) : Prop where
  knows : Everywhere Knows s
  counted : Counted s
  countable : Countable s

theorem Unlocked.invariant (unlocked : Unlocked s) : Invariant s := by
  have none_read : readers s = 0 :=
    Finset.sum_eq_zero fun i _ => congrArg (·.readers) (unlocked.free i)
  have none_write : writers s = 0 :=
    Finset.sum_eq_zero fun i _ => congrArg (·.writers) (unlocked.free i)
  refine ⟨fun i => ⟨fun v reserved => ?_, fun op pc here => ?_⟩, ⟨?_, ?_, ?_⟩, ?_⟩
  · rw [unlocked.reservation] at reserved
    cases reserved
  · rw [unlocked.idle] at here
    cases here
  · omega
  · omega
  · rw [unlocked.lock, none_read, none_write]
    rfl
  · rw [Countable, none_read]
    decide

/-- The word as a number. -/
theorem Counted.toInt (counted : Counted s) (small : Countable s) :
    s.shared.lock.toInt = readers s - writers s := by
  have bound := counted.writers_le
  rw [Countable] at small
  rw [counted.word, BitVec.toInt_ofInt, Int.bmod_eq_of_le] <;> omega

variable [DecidableEq ι]

/-- A store keeps the count. -/
theorem counted_store (counted : Counted s) (small : Countable s) {i : ι} {a : Hart} {op : Op}
    (word : t.shared = s.shared.store (op.wanted s.shared.lock)) (free : op.Free s.shared.lock)
    (may : op.May (s.party i).held) (held : a.held = op.settle (s.party i).held)
    (moved : t.party = Function.update s.party i a) : Counted t := by
  have reads := total_update (fun h => h.held.readers) s.party i a
  have writes := total_update (fun h => h.held.writers) s.party i a
  have read_le := le_total (fun h => h.held.readers) s.party i
  have write_le := le_total (fun h => h.held.writers) s.party i
  rw [← moved] at reads writes
  simp only [held] at reads writes
  have value := counted.toInt small
  have bound := counted.writers_le
  have alone := counted.alone
  change readers t + _ = readers s + _ at reads
  change writers t + _ = writers s + _ at writes
  change _ ≤ readers s at read_le
  change _ ≤ writers s at write_le
  have after : t.shared.lock = op.wanted s.shared.lock := by rw [word]; rfl
  cases op with
  | readLock | readTrylock =>
    have free : 0 ≤ s.shared.lock.toInt := free
    simp only [Op.settle] at reads writes
    have more : (readers t : Int) - writers t = readers s - writers s + 1 := by omega
    refine ⟨by omega, by omega, ?_⟩
    rw [after, more, BitVec.ofInt_add, ← counted.word]
    rfl
  | writeLock | writeTrylock =>
    have free : s.shared.lock = 0 := free
    rw [free] at value
    simp only [Op.settle] at reads writes
    have zero : (0 : BitVec 32).toInt = 0 := rfl
    have more : (readers t : Int) - writers t = -1 := by omega
    refine ⟨by omega, by omega, ?_⟩
    rw [after, more]
    rfl
  | readUnlock =>
    have may : 0 < (s.party i).held.readers := may
    simp only [Op.settle] at reads writes
    have less : (readers t : Int) - writers t = readers s - writers s + -1 := by omega
    refine ⟨by omega, by omega, ?_⟩
    rw [after, less, BitVec.ofInt_add, ← counted.word]
    exact BitVec.sub_eq_add_neg s.shared.lock 1
  | writeUnlock =>
    have may : 0 < (s.party i).held.writers := may
    simp only [Op.settle] at reads writes
    have less : (readers t : Int) - writers t = 0 := by omega
    refine ⟨by omega, by omega, ?_⟩
    rw [after, less]
    rfl

/-- A step that stores nothing keeps the count. -/
theorem counted_quiet (counted : Counted s) {i : ι} {a : Hart} (word : t.shared = s.shared)
    (held : a.held = (s.party i).held) (moved : t.party = Function.update s.party i a) :
    Counted t := by
  have reads := total_update (fun h => h.held.readers) s.party i a
  have writes := total_update (fun h => h.held.writers) s.party i a
  rw [← moved] at reads writes
  simp only [held, Nat.add_right_cancel_iff] at reads writes
  have reads : readers t = readers s := reads
  have writes : writers t = writers s := writes
  refine ⟨?_, ?_, ?_⟩
  · rw [writes]
    exact counted.writers_le
  · rw [writes, reads]
    exact counted.alone
  · rw [word, writes, reads]
    exact counted.word

/-- A step keeps the invariant. -/
theorem invariant_kept :
    Keeps (Guarded (Interleave Act) fun _ t => Countable t) (Invariant (ι := ι)) := by
  intro s t given both
  rcases given with ⟨knows, counted, small⟩
  rcases both with ⟨step, small'⟩
  have local_kept : Keeps (Interleave Act) (Everywhere (ι := ι) Knows) :=
    Interleave.keeps (fun _ _ _ _ mine act => (act_cases mine act).1)
      fun _ _ _ _ _ mine other act => other.of_other (act_cases mine act).2
  refine ⟨local_kept knows step, ?_, small'⟩
  rcases step with ⟨i, a, act, moved⟩
  rcases (act_cases (knows i) act).2 with ⟨word, held⟩ | ⟨op, word, free, may, held, -⟩
  · exact counted_quiet counted word held moved
  · exact counted_store counted small word free may held moved

/-! ## Exclusion -/

/-- The word tells who holds the lock. -/
structure Exclusive (s : System ι) : Prop where
  writer : s.shared.lock = -1 ↔ writers s = 1 ∧ readers s = 0
  others : s.shared.lock ≠ -1 → writers s = 0 ∧ s.shared.lock.toInt = readers s

omit [DecidableEq ι] in
theorem Invariant.exclusive (inv : Invariant s) : Exclusive s := by
  have value := inv.counted.toInt inv.countable
  have bound := inv.counted.writers_le
  have alone := inv.counted.alone
  have least : (-1 : BitVec 32).toInt = -1 := rfl
  have iff_writer : s.shared.lock = -1 ↔ writers s = 1 := by
    rw [← BitVec.toInt_inj, value, least]
    omega
  constructor
  · rw [iff_writer]
    exact ⟨fun one => ⟨one, alone one⟩, And.left⟩
  · rw [Ne, iff_writer, value]
    omega

/-- What the value that a trylock returns tells: `true` that the call has stored once and taken
the lock, `false` that it has neither stored nor taken it. -/
structure Reported (h : Hart) (op : Op) (acquired : Bool) : Prop where
  taken : acquired = true ↔ h.held = op.settle h.before
  stored : h.stored = if acquired then 1 else 0
  refused : acquired = false → h.held = h.before

theorem settle_ne (acquires : op.Acquires) (k : Held) : op.settle k ≠ k := by
  intro same
  cases op with
  | readLock | readTrylock => exact Nat.succ_ne_self _ (congrArg Held.readers same)
  | writeLock | writeTrylock => exact Nat.succ_ne_self _ (congrArg Held.writers same)
  | readUnlock | writeUnlock => exact acquires.elim

theorem Knows.reported (knows : Knows l h) {acquired : Bool} (returning : h.Returning op acquired) :
    Reported h op acquired := by
  rcases returning with ⟨trylock, here, rfl⟩
  have acquires : op.Acquires := by rcases trylock with rfl | rfl <;> trivial
  have length : op.code.length = 5 := by rcases trylock with rfl | rfl <;> rfl
  rw [length] at here
  rcases (within_iff acquires).mp (knows.call op 5 here) with ⟨zero, settled⟩ | ⟨busy, untouched, -⟩
  · refine ⟨?_, ?_, ?_⟩
    · simp only [zero, decide_true, settled.held]
    · rw [zero]
      exact settled.stored
    · simp [zero]
  · refine ⟨?_, ?_, fun _ => untouched.held⟩
    · rw [decide_eq_true_iff, untouched.held]
      exact ⟨fun zero => (busy zero).elim, fun same => (settle_ne acquires _ same.symm).elim⟩
    · rw [decide_eq_false busy]
      exact untouched.stored

/-- In every state that is reached the word is -1 exactly when one writer and no reader holds
the lock, and is the number of readers else; the value of a trylock tells whether the call took
the lock; and the word changes only by a store that the hart that steps counts to its call, so
that a trylock that returns `false` has left it alone. -/
theorem exclusion (unlocked : Unlocked s)
    (run : Run (Guarded (Interleave Act) fun _ t => Countable t) s t) :
    Exclusive t
      ∧ (∀ i op acquired, (t.party i).Returning op acquired → Reported (t.party i) op acquired)
      ∧ ∀ i a l, Act t.shared (t.party i) l a →
          l.lock = t.shared.lock ∨ a.stored = (t.party i).stored + 1 := by
  have inv : Invariant t := Run.keeps invariant_kept unlocked.invariant run
  refine ⟨inv.exclusive, fun i op acquired => (inv.knows i).reported, fun i a l act => ?_⟩
  rcases (act_cases (inv.knows i) act).2 with ⟨word, -⟩ | ⟨op, -, -, -, -, stored⟩
  · exact .inl (congrArg RwLock.lock word)
  · exact .inr stored

/-! ## A writer and a reader -/

/-- Two harts and a lock that nobody holds. -/
def twoHarts : System Bool :=
  ⟨⟨0, 0⟩, fun _ => ⟨none, 0, none, ⟨0, 0⟩, 0, ⟨0, 0⟩⟩⟩

theorem unlocked_twoHarts : Unlocked twoHarts :=
  ⟨rfl, fun _ => rfl, fun _ => rfl, fun _ => rfl⟩

/-- One hart takes a step. -/
def move (s : System Bool) (e : Bool × Event) : Option (System Bool) :=
  (step s.shared (s.party e.1) e.2).map fun r => ⟨r.1, Function.update s.party e.1 r.2⟩

theorem interleave_of_move {s t : System Bool} {e : Bool × Event} (moved : move s e = some t) :
    Interleave Act s t := by
  rw [move, Option.map_eq_some_iff] at moved
  rcases moved with ⟨r, steps, rfl⟩
  exact ⟨e.1, r.2, ⟨e.2, steps⟩, rfl⟩

/-- The first hart takes the lock for writing, at its second store-conditional, and the second has
come to the end of a trylock. -/
def contended : List (Bool × Event) :=
  [(false, .call .writeLock 7), (false, .instr 0), (false, .instr 0), (true, .call .readTrylock 7),
    (false, .instr 0), (false, .instr 1), (false, .instr 0), (false, .instr 0), (false, .instr 0),
    (false, .instr 0), (false, .instr 0), (true, .instr 0), (false, .instr 0), (false, .ret),
    (true, .instr 0)]

/-- The writer holds the lock, the trylock reports `false`, and the word is as the writer has left
it. -/
theorem exclusion_contended : ∃ t : System Bool, (t.party false).held = ⟨0, 1⟩ ∧
    (t.party true).Returning .readTrylock false ∧ Exclusive t ∧
    Reported (t.party true) .readTrylock false := by
  have leads : (contended.foldlM (fun s e => (move s e).filter fun t => Countable t) twoHarts).any
      fun t => (t.party false).held = ⟨0, 1⟩ ∧ (t.party true).call = some (.readTrylock, 5) ∧
        (t.party true).reg ≠ 0 := by
    decide
  obtain ⟨t, moves, found⟩ := (Option.any_eq_true _ _).mp leads
  obtain ⟨held, there, busy⟩ := of_decide_eq_true found
  have run : Run (Guarded (Interleave Act) fun _ t => Countable t) twoHarts t := by
    refine (Run.of_foldlM moves).lift id ?_
    rintro s u ⟨e, -, taken⟩
    obtain ⟨moved, countable⟩ := Option.filter_eq_some_iff.mp taken
    exact ⟨interleave_of_move moved, of_decide_eq_true countable⟩
  have returning : (t.party true).Returning .readTrylock false :=
    ⟨.inl rfl, there, (decide_eq_false busy).symm⟩
  obtain ⟨exclusive, reported, -⟩ := exclusion unlocked_twoHarts run
  exact ⟨t, held, returning, exclusive, reported true .readTrylock false returning⟩

end RiscvLinux.Smp.Rwlock
