import RiscvLinux.Smp.Rwlock

/-!
# Whether a reader-writer lock can be taken

`arch_read_can_lock` and `arch_write_can_lock` of `arch/riscv/include/asm/spinlock.h`, and what the
trylocks return when no other hart comes between their instructions. The word is an
`unsigned int`, so that the first of them is true of every word; the trylock looks at the sign of
the register that the word was loaded into (`agrees_iff_nonneg`).
-/

namespace RiscvLinux.Smp.CanLock

open Lib Rwlock

/-! ## The code -/

/-- The comparison is one of `unsigned int`. -/
def archReadCanLock (l : RwLock) : Bool := decide (0 ≤ l.lock)

def archWriteCanLock (l : RwLock) : Bool := decide (l.lock = 0)

/-- The values that the operations make: -1 for a writer, or a number of readers. -/
def Produced (v : BitVec 32) : Prop := v = -1 ∨ v.toNat < 2 ^ 31

/-! ## Undisturbed calls -/

/-- The hart executes the next instruction of its call, and no other hart does anything. -/
def Onward (s t : RwLock × Hart) : Prop :=
  ∃ status, step s.1 s.2 (.instr status) = some t

/-- The hart calls the function, and it comes to its end with this value undisturbed. -/
def Undisturbed (op : Op) (l : RwLock) (h : Hart) (acquired : Bool) : Prop :=
  ∃ reg s t, step l h (.call op reg) = some s ∧ Run Onward s t ∧ t.2.Returning op acquired

/-- Whatever hart asks, the helpers say what the trylocks would return. -/
def Agrees (l : RwLock) : Prop :=
  ∀ h : Hart, h.call = none → ∀ acquired,
    (Undisturbed .readTrylock l h acquired ↔ archReadCanLock l = acquired) ∧
      (Undisturbed .writeTrylock l h acquired ↔ archWriteCanLock l = acquired)

/-- Before the instruction with this index of an undisturbed call on a word `v` -/
def Alone (op : Op) (v : BitVec 32) (l : RwLock) (h : Hart) : Nat → Prop
  | 0 => l.lock = v
  | 1 => l.lock = v ∧ h.reg = v
  | 2 | 3 => l.lock = v ∧ op.Free v
  | 4 => op.Free v ∧ (h.reg = 0 ∨ l.lock = v)
  | 5 => h.reg = 0 ↔ op.Free v
  | _ => False

def Calling (op : Op) (v : BitVec 32) (s : RwLock × Hart) : Prop :=
  ∃ pc, s.2.call = some (op, pc) ∧ Alone op v s.1 s.2 pc

/-- The functions that give up when the word is busy -/
def Trylock (op : Op) : Prop := op = .readTrylock ∨ op = .writeTrylock

variable {op : Op} {v : BitVec 32} {l : RwLock} {h : Hart}

theorem Trylock.acquires (trylock : Trylock op) : op.Acquires := by
  rcases trylock with rfl | rfl <;> trivial

theorem Trylock.out (trylock : Trylock op) : op.out = 5 := by
  rcases trylock with rfl | rfl <;> rfl

theorem Trylock.free_zero (trylock : Trylock op) : op.Free 0 := by
  rcases trylock with rfl | rfl
  · exact Int.le_refl 0
  · rfl

/-- An instruction of an undisturbed call -/
theorem calling_onward (trylock : Trylock op) : Keeps Onward (Calling op v) := by
  intro s t calling onward
  rcases calling with ⟨pc, here, alone⟩
  rcases onward with ⟨status, next⟩
  rcases s with ⟨l, h⟩
  rcases t with ⟨l', h'⟩
  rw [step, here] at next
  cases attempted_of_exec trylock.acquires next with
  | load => exact ⟨1, rfl, alone, alone⟩
  | branch =>
    rcases alone with ⟨word, loaded⟩
    rw [trylock.out, loaded]
    by_cases free : op.Free v
    · exact ⟨2, by rw [if_pos free], word, free⟩
    · refine ⟨5, by rw [if_neg free], ?_⟩
      -- What is busy is not zero, and stays in the register that is tested.
      have differ : v ≠ 0 := fun zero => free (zero ▸ trylock.free_zero)
      exact iff_of_false differ free
  | want => exact ⟨3, rfl, alone⟩
  | store => exact ⟨4, rfl, alone.2, .inl rfl⟩
  | fail => exact ⟨4, rfl, alone.2, .inr alone.1⟩
  | retry =>
    rcases alone with ⟨free, stored⟩
    by_cases zero : h.reg = 0
    · exact ⟨5, by rw [if_neg (not_not_intro zero)], iff_of_true zero free⟩
    · exact ⟨0, by rw [if_pos zero], stored.resolve_left zero⟩

theorem onward_of {s t : RwLock × Hart} {pc : Nat} (status : BitVec 32) (trylock : Trylock op)
    (here : s.2.call = some (op, pc))
    (run : (attempt op.busy 5 op.want)[pc]?.bind (exec op pc status s.1 s.2) = some t) :
    Onward s t := by
  rw [← trylock.out, ← Op.code_of_acquires trylock.acquires] at run
  refine ⟨status, ?_⟩
  rw [step, here]
  exact run

/-- A call comes to its end, by the store that does not fail without a reason. -/
theorem onward_to_end (trylock : Trylock op) (here : h.call = some (op, 0)) :
    ∃ t, Run Onward (l, h) t ∧ t.2.call = some (op, 5) := by
  have acquires := trylock.acquires
  let loaded : Hart :=
    { h with reg := l.lock, reservation := some l.stores, call := some (op, 1) }
  have load : Onward (l, h) (l, loaded) := onward_of 0 trylock here rfl
  have branch : Onward (l, loaded)
      (l, { loaded with call := some (op, if op.Free l.lock then 2 else 5) }) :=
    onward_of 0 trylock rfl (exec_busy acquires 5)
  by_cases free : op.Free l.lock
  · rw [if_pos free] at branch
    let wanted : Hart := { loaded with reg := op.wanted l.lock, call := some (op, 3) }
    have want : Onward (l, { loaded with call := some (op, 2) }) (l, wanted) :=
      onward_of 0 trylock rfl (exec_want acquires)
    let stored : Hart :=
      { wanted.storing op with reg := 0, reservation := none, call := some (op, 4) }
    have store : Onward (l, wanted) (l.store wanted.reg, stored) :=
      onward_of 0 trylock rfl (if_pos rfl)
    have last : Onward (l.store wanted.reg, stored)
        (l.store wanted.reg, { stored with call := some (op, 5) }) :=
      onward_of 0 trylock rfl rfl
    exact ⟨_, .head load (.head branch (.head want (.head store (.single last)))), rfl⟩
  · rw [if_neg free] at branch
    exact ⟨_, .head load (.single branch), rfl⟩

/-- What is in the register at the end -/
theorem Calling.reg_eq_zero_iff {s : RwLock × Hart} (calling : Calling op v s)
    (ending : s.2.call = some (op, 5)) : s.2.reg = 0 ↔ op.Free v := by
  rcases calling with ⟨pc, here, alone⟩
  cases here.symm.trans ending
  exact alone

/-- The hart at the start of a call -/
def started (op : Op) (h : Hart) (reg : BitVec 32) : Hart :=
  { h with call := some (op, 0), reg := reg, stored := 0, before := h.held }

theorem calling_started (op : Op) (l : RwLock) (h : Hart) (reg : BitVec 32) :
    Calling op l.lock (l, started op h reg) :=
  ⟨0, rfl, rfl⟩

/-- An undisturbed trylock takes the lock exactly when the word is free. -/
theorem undisturbed_iff (trylock : Trylock op) (idle : h.call = none) {acquired : Bool} :
    Undisturbed op l h acquired ↔ decide (op.Free l.lock) = acquired := by
  have length : op.code.length = 5 := by rcases trylock with rfl | rfl <;> rfl
  have call : ∀ reg, step l h (.call op reg) = some (l, started op h reg) :=
    fun reg => if_pos ⟨idle, may_of_acquires trylock.acquires _⟩
  constructor
  · intro undisturbed
    rcases undisturbed with ⟨reg, s, t, calls, run, -, ending, rfl⟩
    cases (call reg).symm.trans calls
    have calling := Run.keeps (calling_onward trylock) (calling_started op l h reg) run
    exact decide_eq_decide.mpr (calling.reg_eq_zero_iff (length ▸ ending)).symm
  · intro same
    obtain ⟨t, run, ending⟩ := onward_to_end (l := l) (h := started op h 0) trylock rfl
    have calling := Run.keeps (calling_onward trylock) (calling_started op l h 0) run
    refine ⟨0, _, t, call 0, run, trylock, length.symm ▸ ending, same.symm.trans ?_⟩
    exact decide_eq_decide.mpr (calling.reg_eq_zero_iff ending).symm

/-! ## The helpers -/

theorem archReadCanLock_eq (l : RwLock) : archReadCanLock l = true :=
  decide_eq_true (Nat.zero_le _)

/-- Any hart that is in no call -/
def idleHart : Hart := ⟨none, 0, none, ⟨0, 0⟩, 0, ⟨0, 0⟩⟩

/-- The helpers agree with the trylocks exactly when the word is not negative as an `int`, whatever
else it is: `arch_write_can_lock` always does. -/
theorem agrees_iff_nonneg (l : RwLock) : Agrees l ↔ 0 ≤ l.lock.toInt := by
  have read : ∀ h : Hart, h.call = none → ∀ acquired,
      (Undisturbed .readTrylock l h acquired ↔ decide (0 ≤ l.lock.toInt) = acquired) :=
    fun h idle acquired => undisturbed_iff (.inl rfl) idle
  constructor
  · intro agrees
    have both := (agrees idleHart rfl _).1.mpr (archReadCanLock_eq l)
    exact of_decide_eq_true ((read idleHart rfl true).mp both)
  · intro above h idle acquired
    refine ⟨?_, undisturbed_iff (.inr rfl) idle⟩
    rw [read h idle, archReadCanLock_eq, decide_eq_true above]

/-- Of the values that the operations make, the one that is negative is that of a writer. -/
theorem Produced.nonneg_iff (produced : Produced v) : 0 ≤ v.toInt ↔ v ≠ -1 := by
  rcases produced with rfl | small
  · decide
  · rw [BitVec.toInt_eq_toNat_of_lt (by omega)]
    refine iff_of_true (Int.natCast_nonneg _) fun same => ?_
    rw [same] at small
    exact absurd small (by decide)

/-- On the values that the operations make, the helpers agree with the trylocks exactly when no
writer holds the lock. -/
theorem agrees_iff_ne_writer (l : RwLock) (produced : Produced l.lock) :
    Agrees l ↔ l.lock ≠ -1 :=
  (agrees_iff_nonneg l).trans produced.nonneg_iff

theorem agrees_iff_ne_writer_readers : Agrees ⟨2, 7⟩ :=
  (agrees_iff_ne_writer ⟨2, 7⟩ (.inr (by decide))).mpr (by decide)

/-- While a writer holds the lock, `arch_read_can_lock` says that it can be read. -/
theorem not_agrees_writer : Produced (-1) ∧ ¬ Agrees ⟨-1, 0⟩ := by
  refine ⟨.inl rfl, fun agrees => ?_⟩
  have refused := (undisturbed_iff (l := ⟨-1, 0⟩) (h := idleHart) (.inl rfl) rfl).mpr
    (decide_eq_false (show ¬ Op.Free .readTrylock (-1) by decide))
  exact absurd ((agrees idleHart rfl false).1.mp refused) (by decide)

/-! ## In a run -/

/-- In every state that is reached the helpers agree with the trylocks exactly when no writer holds
the lock. -/
theorem agrees_iff_of_run {ι : Type*} [Fintype ι] [DecidableEq ι] {s t : System ι}
    (unlocked : Unlocked s) (run : Run (Guarded (Interleave Act) fun _ t => Countable t) s t) :
    Agrees t.shared ↔ writers t = 0 := by
  have inv : Invariant t := Run.keeps invariant_kept unlocked.invariant run
  have bound := inv.counted.writers_le
  have alone := inv.counted.alone
  rw [agrees_iff_nonneg, inv.counted.toInt inv.countable]
  omega

end RiscvLinux.Smp.CanLock
