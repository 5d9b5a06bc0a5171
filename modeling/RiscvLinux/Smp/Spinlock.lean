import RiscvLinux.Lib.Lock

/-!
# Spin locks

`arch_spin_lock`, `arch_spin_trylock`, `arch_spin_unlock`, `arch_spin_is_locked` and
`arch_spin_unlock_wait` of `arch/riscv/include/asm/spinlock.h`, run by any number of harts at once.
A hart that finds the lock taken stores a one over the one that is there, which is why the word can
be taken for its being zero or not (`spinlock_linearizable`). `spinLock_owned` says that the lock
is one, and `spinLock_returns_iff` what the loop of `arch_spin_lock` waits for.
-/

namespace RiscvLinux.Smp.Spinlock

open Lib

/-! ## The code -/

/-- The statements of the functions. The only variable is what was last loaded, an `int`; a branch
gives the index of the statement it goes to. -/
inductive Stmt
  /-- `lock->lock` -/
  | load
  /-- `amoswap.w`, with the value that it stores -/
  | amoswap (value : BitVec 32)
  /-- A branch that is taken when what was loaded is not zero -/
  | bnez (target : Nat)
  /-- `cpu_relax` -/
  | relax
  deriving DecidableEq

def archSpinIsLocked : List Stmt := [.load]

def archSpinUnlockWait : List Stmt := [.relax, .load, .bnez 0]

def archSpinUnlock : List Stmt := [.amoswap 0]

def archSpinTrylock : List Stmt := [.amoswap 1]

def archSpinLock : List Stmt := archSpinIsLocked ++ .bnez 0 :: archSpinTrylock ++ [.bnez 0]

/-- The functions -/
inductive Op
  | isLocked
  | lock
  | trylock
  | unlock
  | unlockWait
  deriving DecidableEq

def Op.code : Op → List Stmt
  | .isLocked => archSpinIsLocked
  | .lock => archSpinLock
  | .trylock => archSpinTrylock
  | .unlock => archSpinUnlock
  | .unlockWait => archSpinUnlockWait

/-- What a function returns, with this loaded last. For those that return nothing it is that they
return. -/
def Op.result : Op → BitVec 32 → Bool
  | .isLocked, reg => reg ≠ 0
  | .trylock, reg => reg = 0
  | _, _ => true

/-! ## Harts -/

/-- A hart: the function it is in with the index of its next statement, what it loaded last, and
the calls that have returned, with what they returned. -/
structure Hart where
  call : Option (Op × Nat)
  reg : BitVec 32
  done : List (Op × Bool)

/-- What a hart can do. When it calls a function, anything may be in its register. -/
inductive Event
  | call (op : Op) (reg : BitVec 32)
  | stmt
  | ret
  deriving DecidableEq

/-- One statement of the function that a hart is in -/
def exec (lock : BitVec 32) (h : Hart) (op : Op) (pc : Nat) : Stmt → BitVec 32 × Hart
  | .load => (lock, { h with reg := lock, call := some (op, pc + 1) })
  | .amoswap value => (value, { h with reg := lock, call := some (op, pc + 1) })
  | .bnez target => (lock, { h with call := some (op, if h.reg ≠ 0 then target else pc + 1) })
  | .relax => (lock, { h with call := some (op, pc + 1) })

/-- The next statement of the function that a hart is in, while there is one -/
def stmt (s : BitVec 32 × Hart) : Option (BitVec 32 × Hart) :=
  s.2.call.bind fun c => c.1.code[c.2]?.map (exec s.1 s.2 c.1 c.2)

/-- One step of a hart -/
def step (lock : BitVec 32) (h : Hart) : Event → Option (BitVec 32 × Hart)
  | .call op reg =>
    if h.call = none then some (lock, { h with call := some (op, 0), reg := reg }) else none
  | .stmt => stmt (lock, h)
  | .ret => h.call.bind fun c =>
    if c.2 = c.1.code.length then
      some (lock, { h with call := none, done := h.done ++ [(c.1, c.1.result h.reg)] })
    else none

def Act (lock : BitVec 32) (h : Hart) (lock' : BitVec 32) (h' : Hart) : Prop :=
  ∃ e, step lock h e = some (lock', h')

/-- The word and the harts -/
abbrev System (ι : Type*) : Type _ := Parties ι (BitVec 32) Hart

/-- `__ARCH_SPIN_LOCK_UNLOCKED`, and no hart has called any of the functions. -/
structure Starts {ι : Type*} (s : System ι) : Prop where
  unlocked : s.shared = 0
  idle : ∀ i, (s.party i).call = none
  fresh : ∀ i, (s.party i).done = []

/-! ## Operations -/

/-- What the word says -/
def Locked (lock : BitVec 32) : Bool := lock ≠ 0

/-- An operation on its own. `arch_spin_lock` and `arch_spin_unlock_wait` do not return before they
find the lock free. -/
def Op.apply : Op → Bool → Bool × Bool
  | .isLocked, locked => (locked, locked)
  | .lock, locked => (true, !locked)
  | .trylock, locked => (true, !locked)
  | .unlock, _ => (false, true)
  | .unlockWait, locked => (locked, !locked)

/-- The function that a hart is in has only to return, or to branch out of its loop. -/
def Hart.over (h : Hart) : List (Op × Bool) :=
  match h.call with
  | some (.isLocked, 1) => [(.isLocked, Op.result .isLocked h.reg)]
  | some (.lock, 3) => if h.reg = 0 then [(.lock, true)] else []
  | some (.lock, 4) => [(.lock, true)]
  | some (.trylock, 1) => [(.trylock, Op.result .trylock h.reg)]
  | some (.unlock, 1) => [(.unlock, true)]
  | some (.unlockWait, 2) => if h.reg = 0 then [(.unlockWait, true)] else []
  | some (.unlockWait, 3) => [(.unlockWait, true)]
  | _ => []

/-- The operations of a hart that have taken effect, in its order, with what they return -/
def Hart.completed (h : Hart) : List (Op × Bool) := h.done ++ h.over

/-- Whether the lock is taken, and the completed operations of every hart -/
def seen {ι : Type*} (s : System ι) : View ι Bool Op Bool where
  value := Locked s.shared
  effects := fun i => (s.party i).completed

/-! ## Steps -/

section

variable {lock lock' : BitVec 32} {h h' : Hart} {op : Op} {pc : Nat}

theorem locked_eq_false_iff : Locked lock = false ↔ lock = 0 :=
  decide_eq_false_iff_not.trans not_not

/-- A statement leaves what the word says and the completed operations as they are, or is one
operation. -/
theorem stmt_cases (next : stmt (lock, h) = some (lock', h')) :
    (Locked lock' = Locked lock ∧ h'.completed = h.completed) ∨
      ∃ op : Op, Locked lock' = (op.apply (Locked lock)).1 ∧
        h'.completed = h.completed ++ [(op, (op.apply (Locked lock)).2)] := by
  rcases h with ⟨call, reg, done⟩
  rcases call with _ | ⟨op, pc⟩
  · cases next
  have past (e : Op × Bool) : (done ++ []) ++ [e] = done ++ [e] := by rw [List.append_nil]
  cases op with
  | isLocked =>
    match pc with
    | 0 =>
      cases next
      exact .inr ⟨.isLocked, rfl, (past _).symm⟩
    | _ + 1 => cases next
  | lock =>
    match pc with
    | 0 =>
      cases next
      exact .inl ⟨rfl, rfl⟩
    | 1 =>
      cases next
      refine .inl ⟨rfl, ?_⟩
      show Hart.completed ⟨some (.lock, if reg ≠ 0 then 0 else 2), reg, done⟩ = done ++ []
      by_cases taken : reg ≠ 0
      · rw [if_pos taken]
        rfl
      · rw [if_neg taken]
        rfl
    | 2 =>
      cases next
      by_cases free : lock = 0
      · refine .inr ⟨.lock, rfl, ?_⟩
        rw [locked_eq_false_iff.mpr free]
        exact (congrArg (done ++ ·) (if_pos free)).trans (past _).symm
      · -- The one that is stored says of the lock what was there.
        refine .inl ⟨(decide_eq_true free).symm, ?_⟩
        exact congrArg (done ++ ·) (if_neg free)
    | 3 =>
      cases next
      refine .inl ⟨rfl, ?_⟩
      show Hart.completed ⟨some (.lock, if reg ≠ 0 then 0 else 4), reg, done⟩
        = done ++ if reg = 0 then [(.lock, true)] else []
      by_cases taken : reg ≠ 0
      · rw [if_pos taken, if_neg taken]
        rfl
      · rw [if_neg taken, if_pos (not_not.mp taken)]
        rfl
    | _ + 4 => cases next
  | trylock =>
    match pc with
    | 0 =>
      cases next
      refine .inr ⟨.trylock, rfl, past _ ▸ congrArg (fun r => done ++ [(.trylock, r)]) ?_⟩
      exact (decide_not.symm.trans (decide_eq_decide.mpr not_not)).symm
    | _ + 1 => cases next
  | unlock =>
    match pc with
    | 0 =>
      cases next
      exact .inr ⟨.unlock, rfl, (past _).symm⟩
    | _ + 1 => cases next
  | unlockWait =>
    match pc with
    | 0 =>
      cases next
      exact .inl ⟨rfl, rfl⟩
    | 1 =>
      cases next
      by_cases free : lock = 0
      · refine .inr ⟨.unlockWait, rfl, ?_⟩
        rw [locked_eq_false_iff.mpr free]
        exact (congrArg (done ++ ·) (if_pos free)).trans (past _).symm
      · exact .inl ⟨rfl, congrArg (done ++ ·) (if_neg free)⟩
    | 2 =>
      cases next
      refine .inl ⟨rfl, ?_⟩
      show Hart.completed ⟨some (.unlockWait, if reg ≠ 0 then 0 else 3), reg, done⟩
        = done ++ if reg = 0 then [(.unlockWait, true)] else []
      by_cases taken : reg ≠ 0
      · rw [if_pos taken, if_neg taken]
        rfl
      · rw [if_neg taken, if_pos (not_not.mp taken)]
        rfl
    | _ + 3 => cases next

theorem act_cases (act : Act lock h lock' h') :
    (Locked lock' = Locked lock ∧ h'.completed = h.completed) ∨
      ∃ op : Op, Locked lock' = (op.apply (Locked lock)).1 ∧
        h'.completed = h.completed ++ [(op, (op.apply (Locked lock)).2)] := by
  rcases act with ⟨e, next⟩
  cases e with
  | call op reg =>
    rw [step, Option.ite_none_right_eq_some] at next
    rcases next with ⟨idle, next⟩
    cases next
    refine .inl ⟨rfl, congrArg (h.done ++ ·) ?_⟩
    rw [Hart.over, Hart.over, idle]
    cases op <;> rfl
  | stmt => exact stmt_cases next
  | ret =>
    rw [step, Option.bind_eq_some_iff] at next
    rcases next with ⟨⟨op, pc⟩, calling, next⟩
    rw [Option.ite_none_right_eq_some] at next
    rcases next with ⟨ending, next⟩
    cases next
    obtain rfl : pc = op.code.length := ending
    refine .inl ⟨rfl, ?_⟩
    rw [Hart.completed, Hart.completed, Hart.over, Hart.over, calling]
    cases op <;> exact List.append_nil _

end

/-! ## Runs -/

variable {ι : Type*} [DecidableEq ι] {s t u : System ι}

/-- The operations that any number of harts have completed in a run have a sequence that has the
operations of every hart in its order, and in which, applied one by one to a lock that is free,
they return what they returned and leave the lock as it is. The sequence of a longer run continues
that of a shorter one. -/
theorem spinlock_linearizable (starts : Starts s) (run : Run (Interleave Act) s t)
    (later : Run (Interleave Act) t u) :
    ∃ order order', order <+: order' ∧ Linearized Op.apply false (seen t) order ∧
      Linearized Op.apply false (seen u) order' := by
  have fresh : ∀ i, (seen s).effects i = [] := by
    intro i
    show (s.party i).done ++ (s.party i).over = []
    rw [starts.fresh i, Hart.over, starts.idle i]
    rfl
  have kept : Keeps (Interleave Act) fun _ : System ι => True := fun _ _ _ _ => trivial
  have effects : ∀ ⦃v w : System ι⦄, True → Interleave Act v w →
      Effects Op.apply (seen v) (seen w) :=
    fun _ _ _ stepped => stepped.effects fun _ _ => act_cases
  have unlocked : (seen s).value = false := locked_eq_false_iff.mpr starts.unlocked
  exact unlocked ▸ linearized_of_run kept effects trivial fresh run later

/-! ## Holders -/

/-- What an operation is to the lock -/
def lockUse : Op × Bool → Use
  | (.lock, true) | (.trylock, true) => .takes
  | (.unlock, _) => .gives
  | _ => .other

theorem isLock_spinlock : IsLock Op.apply lockUse fun locked => locked = true := by
  refine ⟨fun op locked => ?_, fun op locked => ?_, fun op locked => ?_⟩ <;>
    cases op <;> cases locked <;> decide

/-- A hart that holds the lock, or is on its way out of a function that took it -/
def Hart.holds (h : Hart) : Bool := Lib.holds lockUse h.completed

/-- When every hart unlocks only what it has locked, at most one holds the lock, and the word is
not zero exactly while one does. -/
theorem spinLock_owned (starts : Starts s) (run : Run (Interleave Act) s t)
    (disciplined : ∀ i, Disciplined lockUse (t.party i).completed) :
    Owned (t.shared ≠ 0) fun i => (t.party i).holds := by
  obtain ⟨order, -, -, linearized, -⟩ := spinlock_linearizable starts run .refl
  have owned := linearized.owned isLock_spinlock Bool.false_ne_true disciplined
  have word : (seen t).value = true ↔ t.shared ≠ 0 := decide_eq_true_iff
  exact ⟨owned.alone, word.symm.trans owned.locked⟩

/-! ## The loop -/

/-- A hart in `arch_spin_lock` comes to its end while the other harts do nothing. -/
def Returns (lock : BitVec 32) (h : Hart) : Prop :=
  ∃ t, Run (Steps stmt) (lock, h) t ∧ t.2.call = some (.lock, 4)

/-- In the loop, with the lock taken by another -/
def Spins (s : BitVec 32 × Hart) : Prop :=
  s.1 ≠ 0 ∧ ∃ pc, s.2.call = some (.lock, pc) ∧ (pc < 3 ∨ pc = 3 ∧ s.2.reg ≠ 0)

/-- A hart is in a function as long as it has statements. -/
def Within (h : Hart) : Prop := ∀ op pc, h.call = some (op, pc) → pc ≤ op.code.length

section

variable {lock : BitVec 32} {h : Hart} {pc : Nat}

theorem Spins.stmt {s : BitVec 32 × Hart} (spins : Spins s) :
    ∃ t, Spinlock.stmt s = some t ∧ Spins t := by
  rcases s with ⟨lock, call, reg, done⟩
  rcases spins with ⟨taken, pc, calling, place⟩
  obtain rfl : call = some (.lock, pc) := calling
  rcases place with before | ⟨rfl, failed⟩
  · match pc with
    | 0 => exact ⟨_, rfl, taken, 1, rfl, .inl (by decide)⟩
    | 1 =>
      refine ⟨_, rfl, taken, _, rfl, .inl ?_⟩
      show (if reg ≠ 0 then 0 else 2) < 3
      split <;> decide
    | 2 => exact ⟨_, rfl, (by decide : (1 : BitVec 32) ≠ 0), 3, rfl, .inr ⟨rfl, taken⟩⟩
    | _ + 3 => exact absurd before (by omega)
  · refine ⟨_, rfl, taken, 0, ?_, .inl (by decide)⟩
    exact congrArg (fun n => some (Op.lock, n)) (if_pos failed)

theorem Returns.of_step {s : BitVec 32 × Hart} (next : stmt (lock, h) = some s)
    (returns : Returns s.1 s.2) : Returns lock h := by
  rcases returns with ⟨t, run, ending⟩
  exact ⟨t, .head next run, ending⟩

/-- The atomic operation finds the lock free. -/
theorem returns_of_taken (reg : BitVec 32) (done : List (Op × Bool)) (lock : BitVec 32)
    (taken : reg = 0) : Returns lock ⟨some (.lock, 3), reg, done⟩ := by
  refine ⟨_, .single rfl, ?_⟩
  exact congrArg (fun n => some (Op.lock, n)) (if_neg (not_not_intro taken))

theorem returns_of_attempt (reg : BitVec 32) (done : List (Op × Bool)) :
    Returns 0 ⟨some (.lock, 2), reg, done⟩ :=
  .of_step rfl (returns_of_taken 0 done 1 rfl)

theorem returns_of_free (reg : BitVec 32) (done : List (Op × Bool)) :
    Returns 0 ⟨some (.lock, 0), reg, done⟩ :=
  .of_step rfl (.of_step rfl (returns_of_attempt 0 done))

/-- A hart in `arch_spin_lock` that has not taken the lock comes out of it when it is free, and
only then. -/
theorem returns_iff (calling : h.call = some (.lock, pc)) (within : Within h) :
    Returns lock h ↔ lock = 0 ∨ h.over ≠ [] := by
  rcases h with ⟨call, reg, done⟩
  obtain rfl : call = some (.lock, pc) := calling
  have inside : pc ≤ 4 := within .lock pc rfl
  constructor
  · intro returns
    rcases returns with ⟨t, run, ending⟩
    by_contra neither
    obtain ⟨taken, not_over⟩ := not_or.mp neither
    have spins : Spins (lock, ⟨some (.lock, pc), reg, done⟩) := by
      refine ⟨taken, pc, rfl, ?_⟩
      rcases Nat.lt_or_ge pc 3 with before | after
      · exact .inl before
      · rcases Nat.eq_or_lt_of_le after with rfl | last
        · refine .inr ⟨rfl, fun zero => not_over ?_⟩
          show (if reg = 0 then [(Op.lock, true)] else []) ≠ []
          rw [if_pos zero]
          exact List.cons_ne_nil _ _
        · obtain rfl : pc = 4 := by omega
          exact absurd (List.cons_ne_nil _ _) not_over
    have again : ∀ s, Spins s → ∃ t, stmt s = some t ∧ ∃ u, Run (Steps stmt) t u ∧ Spins u := by
      intro s spins
      obtain ⟨t, next, still⟩ := spins.stmt
      exact ⟨t, next, t, .refl, still⟩
    refine Run.never_halts again spins run ?_
    rw [stmt, ending]
    rfl
  · intro ready
    match pc with
    | 0 =>
      obtain rfl := ready.resolve_right (not_not_intro rfl)
      exact returns_of_free reg done
    | 1 =>
      obtain rfl := ready.resolve_right (not_not_intro rfl)
      refine .of_step rfl ?_
      show Returns 0 ⟨some (.lock, if reg ≠ 0 then 0 else 2), reg, done⟩
      split
      · exact returns_of_free reg done
      · exact returns_of_attempt reg done
    | 2 =>
      obtain rfl := ready.resolve_right (not_not_intro rfl)
      exact returns_of_attempt reg done
    | 3 =>
      by_cases taken : reg = 0
      · exact returns_of_taken reg done lock taken
      · have none : (⟨some (.lock, 3), reg, done⟩ : Hart).over = [] := if_neg taken
        obtain rfl := ready.resolve_right (not_not_intro none)
        refine .of_step rfl ?_
        show Returns 0 ⟨some (.lock, if reg ≠ 0 then 0 else 4), reg, done⟩
        rw [if_pos taken]
        exact returns_of_free reg done
    | 4 => exact ⟨_, .refl, rfl⟩
    | _ + 5 => exact absurd inside (by omega)

/-- A hart on its way out of `arch_spin_lock` has the lock. -/
theorem holds_of_over (calling : h.call = some (.lock, pc)) (done : h.over ≠ []) :
    h.holds = true := by
  have one : h.over = [(.lock, true)] := by
    rw [Hart.over, calling] at done ⊢
    match pc with
    | 0 | 1 | 2 => exact absurd rfl done
    | 3 => exact if_pos (by_contra fun failed => done (if_neg failed))
    | 4 => rfl
    | _ + 5 => exact absurd rfl done
  rw [Hart.holds, Hart.completed, one, holds_snoc]
  rfl

/-- The branches go back to the start. -/
theorem bnez_back {op : Op} {target : Nat} (among : .bnez target ∈ op.code) : target = 0 := by
  cases op with
  | lock =>
    rcases List.mem_append.mp among with first | last
    · simpa [archSpinIsLocked, archSpinTrylock] using first
    · simpa using last
  | unlockWait => simpa [Op.code, archSpinUnlockWait] using among
  | isLocked | trylock | unlock => cases List.mem_singleton.mp among

theorem within_of_act {lock' : BitVec 32} {h' : Hart} (act : Act lock h lock' h') : Within h' := by
  rcases act with ⟨e, next⟩
  cases e with
  | call op reg =>
    rw [step, Option.ite_none_right_eq_some] at next
    rcases next with ⟨-, next⟩
    cases next
    rintro op' pc' calling
    cases calling
    exact Nat.zero_le _
  | stmt =>
    rw [step, stmt, Option.bind_eq_some_iff] at next
    rcases next with ⟨⟨op, pc⟩, -, next⟩
    obtain ⟨statement, here, next⟩ := Option.map_eq_some_iff.mp next
    obtain ⟨before, -⟩ := List.getElem?_eq_some_iff.mp here
    rintro op' pc' calling
    have onward : pc + 1 ≤ op.code.length := before
    cases statement with
    | load | amoswap | relax =>
      cases next
      cases calling
      exact onward
    | bnez target =>
      cases next
      cases calling
      split
      · exact bnez_back (List.mem_of_getElem? here) ▸ Nat.zero_le _
      · exact onward
  | ret =>
    rw [step, Option.bind_eq_some_iff] at next
    rcases next with ⟨⟨op, pc⟩, -, next⟩
    rw [Option.ite_none_right_eq_some] at next
    rcases next with ⟨-, next⟩
    cases next
    rintro op' pc' calling
    cases calling

end

/-- When every hart unlocks only what it has locked, a hart in `arch_spin_lock` comes to its end,
while the other harts do nothing, if no hart has the lock but this one by this call, and only
then. -/
theorem spinLock_returns_iff (starts : Starts s) (run : Run (Interleave Act) s t)
    (disciplined : ∀ i, Disciplined lockUse (t.party i).completed) {i : ι} {pc : Nat}
    (calling : (t.party i).call = some (.lock, pc)) :
    Returns t.shared (t.party i) ↔
      ∀ j, (t.party j).holds = true → j = i ∧ (t.party i).over ≠ [] := by
  have within : Everywhere (fun _ h => Within h) t := by
    refine Run.keeps ?_ (fun j op pc calling => ?_) run
    · exact Interleave.keeps (fun _ _ _ _ _ act => within_of_act act) fun _ _ _ _ _ _ own _ => own
    · exact absurd (calling.symm.trans (starts.idle j)) nofun
  have owned := spinLock_owned starts run disciplined
  rw [returns_iff calling (within i)]
  constructor
  · intro ready j had
    rcases ready with free | done
    · exact absurd free (owned.locked.mpr ⟨j, had⟩)
    · exact ⟨owned.alone j i had (holds_of_over calling done), done⟩
  · intro others
    by_cases free : t.shared = 0
    · exact .inl free
    · obtain ⟨j, had⟩ := owned.locked.mp free
      exact .inr (others j had).2

/-! ## Two harts -/

/-- One hart takes a step. -/
def move (s : System ι) (e : ι × Event) : Option (System ι) :=
  (step s.shared (s.party e.1) e.2).map fun r => ⟨r.1, Function.update s.party e.1 r.2⟩

theorem interleave_of_move {e : ι × Event} (moved : move s e = some t) : Interleave Act s t := by
  rw [move, Option.map_eq_some_iff] at moved
  rcases moved with ⟨r, acts, result⟩
  cases result
  exact ⟨e.1, r.2, ⟨e.2, acts⟩, rfl⟩

/-- A lock that is free, and two harts that have called nothing -/
def twoHarts : System Bool := ⟨0, fun _ => ⟨none, 0, []⟩⟩

theorem starts_twoHarts : Starts twoHarts := ⟨rfl, fun _ => rfl, fun _ => rfl⟩

/-- Both call `arch_spin_lock` and find the lock free, and the first takes it. -/
def contended : List (Bool × Event) :=
  [(true, .call .lock 7), (false, .call .lock 0), (true, .stmt), (false, .stmt), (false, .stmt),
    (false, .stmt)]

theorem contended_run : ∃ t : System Bool, Run (Interleave Act) twoHarts t ∧
    (t.party false).completed = [(.lock, true)] ∧ (t.party true).completed = [] ∧
    (t.party true).call = some (.lock, 1) := by
  have leads : (contended.foldlM move twoHarts).any fun t =>
      (t.party false).completed = [(.lock, true)] ∧ (t.party true).completed = [] ∧
      (t.party true).call = some (.lock, 1) := by
    decide
  obtain ⟨t, moves, found⟩ := (Option.any_eq_true _ _).mp leads
  have run : Run (Interleave Act) twoHarts t :=
    (Run.of_foldlM moves).lift id fun _ _ ⟨_, _, moved⟩ => interleave_of_move moved
  exact ⟨t, run, of_decide_eq_true found⟩

theorem spinlock_linearizable_contended : ∃ (t : System Bool) (order : List (Bool × Op × Bool)),
    (t.party false).completed = [(.lock, true)] ∧ (t.party true).completed = [] ∧
    Linearized Op.apply false (seen t) order := by
  rcases contended_run with ⟨t, run, first, second, -⟩
  obtain ⟨order, -, -, linearized, -⟩ := spinlock_linearizable starts_twoHarts run .refl
  exact ⟨t, order, first, second, linearized⟩

theorem contended_disciplined {t : System Bool}
    (first : (t.party false).completed = [(.lock, true)]) (second : (t.party true).completed = []) :
    ∀ i, Disciplined lockUse (t.party i).completed := by
  intro i
  cases i with
  | false =>
    rw [first]
    exact (disciplined_snoc _ [] _).mpr ⟨disciplined_nil _, by decide⟩
  | true =>
    rw [second]
    exact disciplined_nil _

theorem spinLock_owned_contended : ∃ t : System Bool, (t.party false).holds = true ∧
    Owned (t.shared ≠ 0) fun i => (t.party i).holds := by
  rcases contended_run with ⟨t, run, first, second, -⟩
  have holds : (t.party false).holds = true := congrArg (Lib.holds lockUse) first
  exact ⟨t, holds, spinLock_owned starts_twoHarts run (contended_disciplined first second)⟩

theorem spinLock_returns_iff_contended : ∃ t : System Bool,
    (t.party true).call = some (.lock, 1) ∧ ¬ Returns t.shared (t.party true) := by
  rcases contended_run with ⟨t, run, first, second, waits⟩
  have disciplined := contended_disciplined first second
  refine ⟨t, waits, fun returns => ?_⟩
  have others := (spinLock_returns_iff starts_twoHarts run disciplined waits).mp returns
  have holds : (t.party false).holds = true := congrArg (Lib.holds lockUse) first
  exact absurd (others false holds).1 Bool.false_ne_true

end RiscvLinux.Smp.Spinlock
