import RiscvLinux.Lib.Interleave
import RiscvLinux.Lib.Lock
import RiscvLinux.Smp.Lrsc

/-!
# Atomic bit operations

The functions of `arch/riscv/include/asm/bitops.h` on an array of words, run by any number of harts
at once. Each is one atomic operation on the word that its bit is in, and those that test look at
the old word afterwards.

`bitops_linearizable` takes the words away: what the harts do is what they would do one after the
other on a sequence of bits. `bitLock_owned` is for the bits that are used as locks.
-/

namespace RiscvLinux.Smp.Bitops

open Lib Trap Lrsc

variable {x : XLen}

/-! ## The code -/

/-- The number of a bit: an `int` that is not negative, as those are no shift counts. -/
abbrev BitNr : Type := Fin (2 ^ 31)

/-- `BIT_MASK` -/
def bitMask (nr : BitNr) : Word x := (1 : Word x) <<< (nr.val % x.bits)

/-- `BIT_WORD` -/
def bitWord (x : XLen) (nr : BitNr) : Nat := nr.val / x.bits

/-- An `asm` statement with its operand and the index of its word, and what the function makes of
the old word: nothing if it returns nothing. -/
structure Statement (x : XLen) where
  op : Amo
  value : Word x
  word : Nat
  result : Word x → Option Bool

/-- `__test_and_op_bit` -/
def testAndOpBit (op : Amo) (mod : Word x → Word x) (nr : BitNr) : Statement x :=
  ⟨op, mod (bitMask nr), bitWord x nr, fun res => some (res &&& bitMask nr != 0)⟩

/-- `__op_bit` -/
def opBit (op : Amo) (mod : Word x → Word x) (nr : BitNr) : Statement x :=
  ⟨op, mod (bitMask nr), bitWord x nr, fun _ => none⟩

/-- `__NOP` -/
def nop (v : Word x) : Word x := v

/-- `__NOT` -/
def not (v : Word x) : Word x := ~~~v

def testAndSetBit (nr : BitNr) : Statement x := testAndOpBit .or nop nr

def testAndClearBit (nr : BitNr) : Statement x := testAndOpBit .and not nr

def testAndChangeBit (nr : BitNr) : Statement x := testAndOpBit .xor nop nr

def setBit (nr : BitNr) : Statement x := opBit .or nop nr

def clearBit (nr : BitNr) : Statement x := opBit .and not nr

def changeBit (nr : BitNr) : Statement x := opBit .xor nop nr

def testAndSetBitLock (nr : BitNr) : Statement x := testAndSetBit nr

def clearBitUnlock (nr : BitNr) : Statement x := clearBit nr

/-- `__clear_bit_unlock`: it is atomic too. -/
def clearBitUnlockAlone (nr : BitNr) : Statement x := clearBit nr

/-- The functions, with the number of their bit -/
inductive Op
  | testAndSetBit (nr : BitNr)
  | testAndClearBit (nr : BitNr)
  | testAndChangeBit (nr : BitNr)
  | setBit (nr : BitNr)
  | clearBit (nr : BitNr)
  | changeBit (nr : BitNr)
  | testAndSetBitLock (nr : BitNr)
  | clearBitUnlock (nr : BitNr)
  | clearBitUnlockAlone (nr : BitNr)
  deriving DecidableEq

def Op.statement : Op → Statement x
  | .testAndSetBit nr => Bitops.testAndSetBit nr
  | .testAndClearBit nr => Bitops.testAndClearBit nr
  | .testAndChangeBit nr => Bitops.testAndChangeBit nr
  | .setBit nr => Bitops.setBit nr
  | .clearBit nr => Bitops.clearBit nr
  | .changeBit nr => Bitops.changeBit nr
  | .testAndSetBitLock nr => Bitops.testAndSetBitLock nr
  | .clearBitUnlock nr => Bitops.clearBitUnlock nr
  | .clearBitUnlockAlone nr => Bitops.clearBitUnlockAlone nr

/-! ## Harts -/

/-- The words from `addr` on -/
abbrev Words (x : XLen) : Type := Nat → Word x

/-- A hart: the function it is in, the old word once the atomic operation is done, and the calls
that have returned, with what they returned. -/
structure Hart (x : XLen) where
  call : Option Op
  res : Option (Word x)
  done : List (Op × Option Bool)

/-- What a hart can do -/
inductive Event
  | call (op : Op)
  | amo
  | ret
  deriving DecidableEq

/-- The atomic operation of a statement -/
def Statement.exec (s : Statement x) (addr : Words x) : Words x :=
  Function.update addr s.word (s.op.apply (addr s.word) s.value)

/-- One step of a hart -/
def step (addr : Words x) (h : Hart x) : Event → Option (Words x × Hart x)
  | .call op => if h.call = none then some (addr, { h with call := some op, res := none }) else none
  | .amo =>
    match h.call, h.res with
    | some op, none =>
      let s : Statement x := op.statement
      some (s.exec addr, { h with res := some (addr s.word) })
    | _, _ => none
  | .ret =>
    match h.call, h.res with
    | some op, some res =>
      some (addr, ⟨none, none, h.done ++ [(op, (op.statement (x := x)).result res)]⟩)
    | _, _ => none

def Act (addr : Words x) (h : Hart x) (addr' : Words x) (h' : Hart x) : Prop :=
  ∃ e, step addr h e = some (addr', h')

/-- The words and the harts -/
abbrev System (ι : Type*) (x : XLen) : Type _ := Parties ι (Words x) (Hart x)

/-- No hart has called any of the functions yet. -/
def Starts {ι : Type*} (s : System ι x) : Prop := ∀ i, s.party i = ⟨none, none, []⟩

/-! ## Bits -/

/-- The bits that the words hold -/
def bitsOf (addr : Words x) (n : Nat) : Bool := (addr (n / x.bits)).getLsbD (n % x.bits)

def Op.nr : Op → BitNr
  | .testAndSetBit nr | .testAndClearBit nr | .testAndChangeBit nr | .setBit nr | .clearBit nr
  | .changeBit nr | .testAndSetBitLock nr | .clearBitUnlock nr | .clearBitUnlockAlone nr => nr

/-- What becomes of the bit -/
def Op.made : Op → Bool → Bool
  | .testAndSetBit _, _ | .setBit _, _ | .testAndSetBitLock _, _ => true
  | .testAndChangeBit _, bit | .changeBit _, bit => !bit
  | _, _ => false

/-- The function returns the old value of the bit. -/
def Op.tests : Op → Bool
  | .testAndSetBit _ | .testAndClearBit _ | .testAndChangeBit _ | .testAndSetBitLock _ => true
  | _ => false

/-- An operation on its own -/
def Op.apply (op : Op) (bits : Nat → Bool) : (Nat → Bool) × Option Bool :=
  (Function.update bits op.nr (op.made (bits op.nr)), if op.tests then some (bits op.nr) else none)

/-- The operations of a hart that have taken effect, in its order, with what they return -/
def Hart.completed (h : Hart x) : List (Op × Option Bool) :=
  match h.call, h.res with
  | some op, some res => h.done ++ [(op, (op.statement (x := x)).result res)]
  | _, _ => h.done

/-- The bits, and the completed operations of every hart -/
def seen {ι : Type*} (s : System ι x) : View ι (Nat → Bool) Op (Option Bool) where
  value := bitsOf s.shared
  effects := fun i => (s.party i).completed

/-! ## One operation -/

theorem bits_pos (x : XLen) : 0 < x.bits := by
  cases x <;> decide

theorem bitMask_eq (nr : BitNr) : (bitMask nr : Word x) = BitVec.twoPow _ (nr.val % x.bits) := by
  rw [bitMask, BitVec.twoPow_eq]
  rfl

/-- The bit in its word -/
theorem and_bitMask (v : Word x) (nr : BitNr) :
    (v &&& bitMask nr != 0) = v.getLsbD (nr.val % x.bits) := by
  rw [bitMask_eq]
  exact and_twoPow_bne_zero v (Nat.mod_lt _ (bits_pos x))

/-- What the atomic operation of a function leaves of each bit of the word -/
theorem Op.getLsbD_apply (op : Op) (v : Word x) {j : Nat} (inside : j < x.bits) :
    ((op.statement : Statement x).op.apply v (op.statement : Statement x).value).getLsbD j
      = if j = op.nr.val % x.bits then op.made (v.getLsbD j) else v.getLsbD j := by
  have small (nr : BitNr) : nr.val % x.bits < x.bits := Nat.mod_lt _ (bits_pos x)
  have mask (nr : BitNr) : (bitMask nr : Word x).getLsbD j = decide (j = nr.val % x.bits) := by
    rw [bitMask_eq, BitVec.getLsbD_twoPow, decide_eq_true (small nr), Bool.true_and]
    exact decide_eq_decide.mpr eq_comm
  have masked (nr : BitNr) : (~~~(bitMask nr) : Word x).getLsbD j
      = !decide (j = nr.val % x.bits) := by
    rw [BitVec.getLsbD_not, mask, decide_eq_true inside, Bool.true_and]
  cases op with
  | testAndSetBit nr | setBit nr | testAndSetBitLock nr =>
    change (v ||| bitMask nr).getLsbD j = _
    rw [BitVec.getLsbD_or, mask]
    by_cases here : j = nr.val % x.bits <;> simp [here, Op.made, Op.nr]
  | testAndClearBit nr | clearBit nr | clearBitUnlock nr | clearBitUnlockAlone nr =>
    change (v &&& ~~~(bitMask nr)).getLsbD j = _
    rw [BitVec.getLsbD_and, masked]
    by_cases here : j = nr.val % x.bits <;> simp [here, Op.made, Op.nr]
  | testAndChangeBit nr | changeBit nr =>
    change (v ^^^ bitMask nr).getLsbD j = _
    rw [BitVec.getLsbD_xor, mask]
    by_cases here : j = nr.val % x.bits <;> simp [here, Op.made, Op.nr]

theorem Op.word_eq (op : Op) : (op.statement : Statement x).word = bitWord x op.nr := by
  cases op <;> rfl

/-- The atomic operation changes one bit. -/
theorem bitsOf_exec (op : Op) (addr : Words x) :
    bitsOf ((op.statement : Statement x).exec addr) = (op.apply (bitsOf addr)).1 := by
  funext n
  have small : n % x.bits < x.bits := Nat.mod_lt _ (bits_pos x)
  change _ = Function.update (bitsOf addr) op.nr (op.made (bitsOf addr op.nr)) n
  rw [bitsOf, Statement.exec, op.word_eq, bitWord]
  by_cases word : n / x.bits = op.nr.val / x.bits
  · rw [word, Function.update_self, op.getLsbD_apply _ small]
    by_cases place : n % x.bits = op.nr.val % x.bits
    · have here : n = op.nr.val := by
        rw [← Nat.div_add_mod n x.bits, word, place, Nat.div_add_mod]
      rw [if_pos place, here, Function.update_self, bitsOf]
    · have other : n ≠ op.nr.val := fun same => place (congrArg (· % x.bits) same)
      rw [if_neg place, Function.update_of_ne other, bitsOf, word]
  · have other : n ≠ op.nr.val := fun same => word (congrArg (· / x.bits) same)
    rw [Function.update_of_ne word, Function.update_of_ne other, bitsOf]

/-- A test returns the old bit. -/
theorem result_eq (op : Op) (addr : Words x) :
    (op.statement : Statement x).result (addr (op.statement : Statement x).word)
      = (op.apply (bitsOf addr)).2 := by
  have old (nr : BitNr) : some (addr (bitWord x nr) &&& bitMask nr != 0)
      = some (bitsOf addr nr) := by
    rw [and_bitMask, bitsOf, bitWord]
  cases op with
  | testAndSetBit nr | testAndClearBit nr | testAndChangeBit nr | testAndSetBitLock nr =>
    exact old nr
  | setBit nr | clearBit nr | changeBit nr | clearBitUnlock nr | clearBitUnlockAlone nr => rfl

/-! ## Runs -/

section

variable {addr addr' : Words x} {h h' : Hart x}

/-- A step leaves the words and the completed operations, or is one operation. -/
theorem act_cases (act : Act addr h addr' h') :
    (addr' = addr ∧ h'.completed = h.completed) ∨
      ∃ op : Op, bitsOf addr' = (op.apply (bitsOf addr)).1 ∧
        h'.completed = h.completed ++ [(op, (op.apply (bitsOf addr)).2)] := by
  rcases act with ⟨e, next⟩
  rcases h with ⟨call, res, done⟩
  cases e with
  | call op =>
    rw [step, Option.ite_none_right_eq_some] at next
    rcases next with ⟨idle, next⟩
    cases next
    cases idle
    exact .inl ⟨rfl, rfl⟩
  | amo =>
    cases call with
    | none => cases next
    | some op =>
      cases res with
      | some res => cases next
      | none =>
        cases next
        refine .inr ⟨op, bitsOf_exec op addr, ?_⟩
        exact congrArg (fun r => done ++ [(op, r)]) (result_eq op addr)
  | ret =>
    cases call with
    | none => cases next
    | some op =>
      cases res with
      | none => cases next
      | some res =>
        cases next
        exact .inl ⟨rfl, rfl⟩

end

variable {ι : Type*} [DecidableEq ι] {s t u : System ι x}

theorem effects_step (stepped : Interleave Act s t) : Effects Op.apply (seen s) (seen t) :=
  stepped.effects fun _ _ act => (act_cases act).imp_left (And.imp_left (congrArg bitsOf))

/-- The operations that any number of harts have completed in a run have a sequence that has the
operations of every hart in its order, and in which, applied one by one to the bits, they return
what they returned and leave the bits as they are. The sequence of a longer run continues that of a
shorter one. -/
theorem bitops_linearizable (starts : Starts s) (run : Run (Interleave Act) s t)
    (later : Run (Interleave Act) t u) :
    ∃ order order', order <+: order' ∧
      Linearized Op.apply (bitsOf s.shared) (seen t) order ∧
      Linearized Op.apply (bitsOf s.shared) (seen u) order' := by
  have fresh : ∀ i, (seen s).effects i = [] := fun i =>
    congrArg Hart.completed (starts i)
  have kept : Keeps (Interleave Act) fun _ : System ι x => True := fun _ _ _ _ => trivial
  exact linearized_of_run kept (fun _ _ _ => effects_step) trivial fresh run later

/-! ## Bit locks -/

/-- What an operation is to the lock in a bit: `test_and_set_bit_lock` takes it when it returns
zero, the two unlocks give it back, and the other functions are not for that bit. -/
def lockUse (n : BitNr) : Op × Option Bool → Use
  | (.testAndSetBitLock nr, old) => if nr = n ∧ old = some false then .takes else .other
  | (.clearBitUnlock nr, _) | (.clearBitUnlockAlone nr, _) => if nr = n then .gives else .other
  | (op, _) => if op.nr = n then .breaks else .other

theorem apply_of_ne {op : Op} {n : BitNr} (other : op.nr ≠ n) (bits : Nat → Bool) :
    (op.apply bits).1 n = bits n :=
  Function.update_of_ne (fun same => other (Fin.ext same).symm) ..

theorem apply_self (op : Op) (bits : Nat → Bool) :
    (op.apply bits).1 op.nr = op.made (bits op.nr) :=
  Function.update_self ..

section

variable {n : BitNr} {op : Op} {old : Option Bool}

theorem eq_of_takes (takes : lockUse n (op, old) = .takes) :
    op = .testAndSetBitLock n ∧ old = some false := by
  cases op with
  | testAndSetBitLock nr =>
    rw [lockUse, ite_eq_left_iff] at takes
    obtain ⟨rfl, clear⟩ := Decidable.not_imp_symm takes nofun
    exact ⟨rfl, clear⟩
  | _ =>
    simp only [lockUse] at takes
    split at takes <;> cases takes

theorem eq_of_gives (gives : lockUse n (op, old) = .gives) :
    op = .clearBitUnlock n ∨ op = .clearBitUnlockAlone n := by
  cases op with
  | clearBitUnlock nr =>
    rw [lockUse, ite_eq_left_iff] at gives
    exact .inl (congrArg _ (Decidable.not_imp_symm gives nofun))
  | clearBitUnlockAlone nr =>
    rw [lockUse, ite_eq_left_iff] at gives
    exact .inr (congrArg _ (Decidable.not_imp_symm gives nofun))
  | _ =>
    simp only [lockUse] at gives
    split at gives <;> cases gives

theorem eq_of_other (other : lockUse n (op, old) = .other) :
    op.nr ≠ n ∨ op = .testAndSetBitLock n ∧ old ≠ some false := by
  by_cases here : op.nr = n
  · refine .inr ?_
    subst here
    cases op with
    | testAndSetBitLock nr =>
      refine ⟨rfl, fun clear => ?_⟩
      rw [lockUse, if_pos ⟨rfl, clear⟩] at other
      cases other
    | _ =>
      simp [lockUse, Op.nr] at other
  · exact .inl here

end

/-- A bit is a lock that is free while it is clear. -/
theorem isLock_bit (n : BitNr) : IsLock Op.apply (lockUse n) fun bits => bits n = true := by
  refine ⟨fun op bits takes => ?_, fun op bits gives => ?_, fun op bits other => ?_⟩
  · obtain ⟨rfl, found⟩ := eq_of_takes takes
    have clear : bits n = false := Option.some.inj found
    exact ⟨Bool.eq_false_iff.mp clear, apply_self (.testAndSetBitLock n) bits⟩
  · refine Bool.eq_false_iff.mp ?_
    rcases eq_of_gives gives with rfl | rfl
    · exact apply_self (.clearBitUnlock n) bits
    · exact apply_self (.clearBitUnlockAlone n) bits
  · rcases eq_of_other other with elsewhere | ⟨rfl, found⟩
    · rw [apply_of_ne elsewhere]
    · have set : bits n = true := by
        by_contra clear
        exact found (congrArg some (Bool.eq_false_iff.mpr clear))
      exact iff_of_true (apply_self (.testAndSetBitLock n) bits) set

/-- The bits that are used as locks: when every hart gives back only the locks that it has, and
uses no other function on their bits, each of them has one holder at most, and is set exactly while
it has one. The other bits of their words may be used in any way. -/
theorem bitLock_owned (starts : Starts s) (run : Run (Interleave Act) s t) (n : BitNr)
    (free : bitsOf s.shared n = false)
    (disciplined : ∀ i, Disciplined (lockUse n) (t.party i).completed) :
    Owned (bitsOf t.shared n = true) fun i => holds (lockUse n) (t.party i).completed := by
  obtain ⟨order, -, -, linearized, -⟩ := bitops_linearizable starts run .refl
  exact linearized.owned (isLock_bit n) (Bool.eq_false_iff.mp free) disciplined

/-! ## Two harts -/

/-- One hart takes a step. -/
def move (s : System ι x) (e : ι × Event) : Option (System ι x) :=
  (step s.shared (s.party e.1) e.2).map fun r => ⟨r.1, Function.update s.party e.1 r.2⟩

theorem interleave_of_move {e : ι × Event} (moved : move s e = some t) : Interleave Act s t := by
  rw [move, Option.map_eq_some_iff] at moved
  rcases moved with ⟨r, acts, result⟩
  cases result
  exact ⟨e.1, r.2, ⟨e.2, acts⟩, rfl⟩

/-- Words of zeros, and two harts that have called nothing -/
def twoHarts : System Bool .rv64 := ⟨fun _ => 0, fun _ => ⟨none, none, []⟩⟩

theorem starts_twoHarts : Starts twoHarts := fun _ => rfl

/-- Both try to take the lock in bit 67, and then the second changes the bit beside it. -/
def contended : List (Bool × Event) :=
  [(true, .call (.testAndSetBitLock 67)), (false, .call (.testAndSetBitLock 67)), (false, .amo),
    (true, .amo), (true, .ret), (false, .ret), (true, .call (.changeBit 66)), (true, .amo)]

theorem contended_run : ∃ t : System Bool .rv64, Run (Interleave Act) twoHarts t ∧
    (t.party false).completed = [(.testAndSetBitLock 67, some false)] ∧
    (t.party true).completed = [(.testAndSetBitLock 67, some true), (.changeBit 66, none)] := by
  have leads : (contended.foldlM move twoHarts).any fun t =>
      (t.party false).completed = [(.testAndSetBitLock 67, some false)] ∧
      (t.party true).completed
        = [(.testAndSetBitLock 67, some true), (.changeBit 66, none)] := by
    decide
  obtain ⟨t, moves, found⟩ := (Option.any_eq_true _ _).mp leads
  have run : Run (Interleave Act) twoHarts t :=
    (Run.of_foldlM moves).lift id fun _ _ ⟨_, _, moved⟩ => interleave_of_move moved
  exact ⟨t, run, of_decide_eq_true found⟩

theorem bitops_linearizable_contended : ∃ (t : System Bool .rv64) (order : List (Bool × Op × _)),
    (t.party false).completed = [(.testAndSetBitLock 67, some false)] ∧
    (t.party true).completed = [(.testAndSetBitLock 67, some true), (.changeBit 66, none)] ∧
    Linearized Op.apply (bitsOf twoHarts.shared) (seen t) order := by
  rcases contended_run with ⟨t, run, first, second⟩
  obtain ⟨order, -, -, linearized, -⟩ := bitops_linearizable starts_twoHarts run .refl
  exact ⟨t, order, first, second, linearized⟩

theorem bitLock_owned_contended : ∃ t : System Bool .rv64,
    (t.party true).completed = [(.testAndSetBitLock 67, some true), (.changeBit 66, none)] ∧
    Owned (bitsOf t.shared 67 = true) fun i => holds (lockUse 67) (t.party i).completed := by
  rcases contended_run with ⟨t, run, first, second⟩
  have disciplined : ∀ i, Disciplined (lockUse 67) (t.party i).completed := by
    intro i
    cases i with
    | false =>
      rw [first]
      exact (disciplined_snoc _ [] _).mpr ⟨disciplined_nil _, by decide⟩
    | true =>
      rw [second]
      refine (disciplined_snoc _ [(Op.testAndSetBitLock 67, some true)] _).mpr ⟨?_, by decide⟩
      exact (disciplined_snoc _ [] _).mpr ⟨disciplined_nil _, by decide⟩
  exact ⟨t, second, bitLock_owned starts_twoHarts run 67 rfl disciplined⟩

end RiscvLinux.Smp.Bitops
