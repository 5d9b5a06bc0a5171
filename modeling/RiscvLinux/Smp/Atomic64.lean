import Mathlib.Data.BitVec
import RiscvLinux.Lib.Run

/-!
# `atomic64_dec_if_positive`

`arch/riscv/include/asm/atomic64.h`, instruction by instruction, on a counter that other harts
store to at any time. As for the reader-writer locks, a reservation is the number of stores to the
counter at the time of the load, and a store-conditional may fail without a reason.

The loop loads 64 bits and stores 32. `decIfPositive_exact` says for which values of the counter
it is right all the same.
-/

namespace RiscvLinux.Smp.Atomic64

open Lib

/-! ## The code -/

/-- The instructions, with `%0` and `%1` for the registers of `prev` and `rc`. A branch gives the
index of the instruction it goes to. -/
inductive Instr
  /-- `lr.d %0, %2` -/
  | lrD
  /-- `add %0, %0, imm` -/
  | add (imm : BitVec 64)
  /-- `bltz %0, target` -/
  | bltz (target : Nat)
  /-- `sc.w %1, %0, %2` -/
  | scW
  /-- `bnez %1, target` -/
  | bnez (target : Nat)
  deriving DecidableEq

/-- `atomic64_dec_if_positive` -/
def atomic64DecIfPositive : List Instr := [.lrD, .add (-1), .bltz 5, .scW, .bnez 0]

/-! ## States -/

/-- `atomic64_t`, and how often it was stored to. -/
structure Counter where
  counter : BitVec 64
  stores : Nat
  deriving DecidableEq

/-- A store to the counter. -/
def Counter.store (c : Counter) (v : BitVec 64) : Counter :=
  ⟨v, c.stores + 1⟩

/-- What a store of the low 32 bits of a register makes of the counter. -/
def storeWord (old reg : BitVec 64) : BitVec 64 :=
  old.extractLsb' 32 32 ++ reg.setWidth 32

/-- A call: the index of its next instruction, its registers, the reservation, and of the call
what the counter was at its last load, and what its stores found and left there. -/
structure Call where
  counter : Counter
  pc : Nat
  prev : BitVec 64
  rc : BitVec 64
  reservation : Option Nat
  loaded : BitVec 64
  stored : List (BitVec 64 × BitVec 64)
  deriving DecidableEq

/-! ## Steps -/

/-- One instruction. `status` is what a store-conditional leaves in `rc`: zero when it stores,
which takes a reservation that nothing has broken. -/
def exec (status : BitVec 64) (s : Call) : Instr → Option Call
  | .lrD => some { s with
      prev := s.counter.counter, loaded := s.counter.counter,
      reservation := some s.counter.stores, pc := s.pc + 1 }
  | .add imm => some { s with prev := s.prev + imm, pc := s.pc + 1 }
  | .bltz target => some { s with pc := if s.prev.toInt < 0 then target else s.pc + 1 }
  | .scW =>
    if status = 0 then
      if s.reservation = some s.counter.stores then
        let v := storeWord s.counter.counter s.prev
        some { s with
          counter := s.counter.store v, stored := s.stored ++ [(s.counter.counter, v)],
          rc := 0, reservation := none, pc := s.pc + 1 }
      else none
    else some { s with rc := status, reservation := none, pc := s.pc + 1 }
  | .bnez target => some { s with pc := if s.rc ≠ 0 then target else s.pc + 1 }

/-- The next instruction of the call, or a store of another hart. -/
inductive Event
  | instr (status : BitVec 64)
  | other (value : BitVec 64)

/-- One step. -/
def step (s : Call) : Event → Option Call
  | .instr status => atomic64DecIfPositive[s.pc]?.bind (exec status s)
  | .other value => some { s with counter := s.counter.store value }

/-- A call at its start. Anything may be in the registers, and the hart may have a reservation from
before. -/
structure Starts (s : Call) : Prop where
  pc : s.pc = 0
  stored : s.stored = []
  past : ∀ n, s.reservation = some n → n ≤ s.counter.stores

/-- The call is over, and returns `prev`. -/
def Call.Returns (s : Call) : Prop := s.pc = atomic64DecIfPositive.length

/-! ## What is to hold -/

/-- The call takes effect at one point, where the counter is `v`: it stores `v - 1` there if `v` is
greater than zero, and it only loads it there otherwise. -/
inductive Effect (s : Call) (v : BitVec 64) : Prop
  | decrement (positive : 0 < v.toInt) (stored : s.stored = [(v, v - 1)])
  | unchanged (notPositive : v.toInt ≤ 0) (loaded : s.loaded = v) (stored : s.stored = [])

/-- Whatever the call has stored is its effect, and when it is over it has taken effect. -/
structure Right (s : Call) : Prop where
  stored : s.stored ≠ [] → ∃ v, Effect s v
  returns : s.Returns → ∃ v, Effect s v ∧ s.prev = v - 1

/-- A value of the counter that the store-conditional makes one less: the borrow stays in the low
32 bits, and one less than the value is not negative because the value is positive. -/
def Fits (v : BitVec 64) : Prop :=
  v ≠ BitVec.intMin 64 ∧ (0 < v.toInt → v.setWidth 32 ≠ 0)

instance (v : BitVec 64) : Decidable (Fits v) :=
  inferInstanceAs (Decidable (_ ∧ _))

/-- The store-conditional is not to store over another value. -/
def Allowed (s : Call) : Event → Prop
  | .instr status => s.pc = 3 → status = 0 → Fits s.counter.counter
  | .other _ => True

instance (s : Call) (e : Event) : Decidable (Allowed s e) := by
  cases e with
  | instr status => exact inferInstanceAs (Decidable (_ → _ → _))
  | other value => exact .isTrue trivial

/-! ## The values -/

theorem toNat_storeWord (v p : BitVec 64) :
    (storeWord v p).toNat = v.toNat / 2 ^ 32 * 2 ^ 32 + p.toNat % 2 ^ 32 := by
  have size := v.isLt
  rw [storeWord, BitVec.toNat_append, BitVec.extractLsb'_toNat, BitVec.toNat_setWidth,
    ← Nat.shiftLeft_add_eq_or_of_lt (Nat.mod_lt _ (Nat.two_pow_pos 32)), Nat.shiftLeft_eq,
    Nat.shiftRight_eq_div_pow]
  omega

theorem toInt_eq (v : BitVec 64) :
    v.toInt = if v.toNat < 2 ^ 63 then (v.toNat : Int) else v.toNat - 2 ^ 64 := by
  rw [BitVec.toInt_eq_toNat_cond]
  have size := v.isLt
  split <;> split <;> omega

/-- One less than a positive value is in the word exactly if nothing is borrowed. -/
theorem storeWord_sub_one_iff {v : BitVec 64} (positive : 0 < v.toInt) :
    storeWord v (v - 1) = v - 1 ↔ v.setWidth 32 ≠ 0 := by
  have size := v.isLt
  rw [toInt_eq] at positive
  have less : (v - 1).toNat = v.toNat - 1 := by
    rw [BitVec.toNat_sub, show (1 : BitVec 64).toNat = 1 by rfl]
    split at positive <;> omega
  rw [← BitVec.toNat_inj, toNat_storeWord, less, Ne, ← BitVec.toNat_inj, BitVec.toNat_setWidth,
    show (0 : BitVec 32).toNat = 0 by rfl]
  split at positive <;> omega

/-- Where one less is not negative, the value is positive or the most negative one. -/
theorem positive_iff {v : BitVec 64} (above : 0 ≤ (v - 1).toInt) :
    0 < v.toInt ↔ v ≠ BitVec.intMin 64 := by
  have size := v.isLt
  have least : (BitVec.intMin 64).toNat = 2 ^ 63 := by decide
  have less : (v - 1).toNat = (2 ^ 64 - 1 + v.toNat) % 2 ^ 64 := by
    rw [BitVec.toNat_sub]
    rfl
  rw [toInt_eq, less] at above
  rw [toInt_eq, Ne, ← BitVec.toNat_inj, least]
  split at above <;> split <;> omega

theorem notPositive_of_lt {v : BitVec 64} (below : (v - 1).toInt < 0) : v.toInt ≤ 0 := by
  have size := v.isLt
  have less : (v - 1).toNat = (2 ^ 64 - 1 + v.toNat) % 2 ^ 64 := by
    rw [BitVec.toNat_sub]
    rfl
  rw [toInt_eq, less] at below
  rw [toInt_eq]
  split at below <;> split <;> omega

/-! ## One step -/

/-- Nothing was stored to the counter since the call reserved it. -/
def Call.Reserved (s : Call) : Prop := s.reservation = some s.counter.stores

/-- What holds before the instruction with this index. -/
def Within (s : Call) : Nat → Prop
  | 0 => s.stored = []
  | 1 => s.stored = [] ∧ s.prev = s.loaded ∧ (s.Reserved → s.loaded = s.counter.counter)
  | 2 => s.stored = [] ∧ s.prev = s.loaded - 1 ∧ (s.Reserved → s.loaded = s.counter.counter)
  | 3 => s.stored = [] ∧ s.prev = s.loaded - 1 ∧ (s.Reserved → s.loaded = s.counter.counter) ∧
      0 ≤ s.prev.toInt
  | 4 => s.rc = 0 ∧ (∃ v, Effect s v ∧ s.prev = v - 1) ∨ s.rc ≠ 0 ∧ s.stored = []
  | 5 => ∃ v, Effect s v ∧ s.prev = v - 1
  | _ => False

/-- The call knows where it is, and has no reservation from the future. -/
structure Knows (s : Call) : Prop where
  past : ∀ n, s.reservation = some n → n ≤ s.counter.stores
  within : Within s s.pc

theorem Knows.right {s : Call} (knows : Knows s) : Right s := by
  have within := knows.within
  refine ⟨fun some_stored => ?_, fun ended => ?_⟩
  · match hpc : s.pc with
    | 0 =>
      rw [hpc] at within
      exact absurd within some_stored
    | 1 | 2 | 3 =>
      rw [hpc] at within
      exact absurd within.1 some_stored
    | 4 =>
      rw [hpc] at within
      rcases within with ⟨-, v, effect, -⟩ | ⟨-, none⟩
      · exact ⟨v, effect⟩
      · exact absurd none some_stored
    | 5 =>
      rw [hpc] at within
      rcases within with ⟨v, effect, -⟩
      exact ⟨v, effect⟩
    | n + 6 =>
      rw [hpc] at within
      exact within.elim
  · rw [show s.pc = 5 from ended] at within
    exact within

/-- An effect is of what the call loaded and stored. -/
theorem Effect.congr {s t : Call} {v : BitVec 64} (loaded : t.loaded = s.loaded)
    (stored : t.stored = s.stored) (effect : Effect s v) : Effect t v := by
  cases effect with
  | decrement positive pair => exact .decrement positive (stored.trans pair)
  | unchanged notPositive found none =>
    exact .unchanged notPositive (loaded.trans found) (stored.trans none)

/-- The store-conditional that stores. -/
theorem effect_stored {s : Call} (knows : Within s 3) (reserved : s.Reserved)
    (fits : Fits s.counter.counter) :
    0 < s.counter.counter.toInt ∧ s.prev = s.counter.counter - 1 ∧
      s.stored ++ [(s.counter.counter, storeWord s.counter.counter s.prev)] =
        [(s.counter.counter, s.counter.counter - 1)] := by
  rcases knows with ⟨none, prev, same, above⟩
  have value := same reserved
  rw [prev, value] at above
  have positive := (positive_iff above).mpr fits.1
  rw [none, prev, value, (storeWord_sub_one_iff positive).mpr (fits.2 positive)]
  exact ⟨positive, rfl, rfl⟩

/-- What the call knows, it knows after a store of another hart. -/
theorem Within.other {s : Call} {pc : Nat} (value : BitVec 64)
    (past : ∀ n, s.reservation = some n → n ≤ s.counter.stores) (within : Within s pc) :
    Within { s with counter := s.counter.store value } pc := by
  have broken : ¬ Call.Reserved { s with counter := s.counter.store value } :=
    fun reserved => Nat.not_succ_le_self _ (past _ reserved)
  match pc with
  | 0 => exact within
  | 1 | 2 => exact ⟨within.1, within.2.1, fun reserved => absurd reserved broken⟩
  | 3 => exact ⟨within.1, within.2.1, fun reserved => absurd reserved broken, within.2.2.2⟩
  | 4 =>
    rcases within with ⟨done, v, effect, prev⟩ | failed
    · exact .inl ⟨done, v, Effect.congr (s := s) rfl rfl effect, prev⟩
    · exact .inr failed
  | 5 =>
    rcases within with ⟨v, effect, prev⟩
    exact ⟨v, Effect.congr (s := s) rfl rfl effect, prev⟩
  | n + 6 => exact within

/-- What the call knows, it knows after its next instruction. -/
theorem Knows.instr {s t : Call} {status : BitVec 64} (knows : Knows s)
    (fits : s.pc = 3 → status = 0 → Fits s.counter.counter)
    (next : step s (.instr status) = some t) : Knows t := by
  rcases knows with ⟨past, within⟩
  rw [step] at next
  match hpc : s.pc with
  | 0 =>
    rw [hpc] at next within
    cases next
    refine ⟨?_, ?_⟩
    · intro n reserved
      cases reserved
      exact Nat.le_refl _
    · rw [hpc]
      exact ⟨within, rfl, fun _ => rfl⟩
  | 1 =>
    rw [hpc] at next within
    rcases within with ⟨none, prev, same⟩
    cases next
    refine ⟨past, ?_⟩
    rw [hpc]
    exact ⟨none, by rw [prev, BitVec.sub_eq_add_neg], same⟩
  | 2 =>
    rw [hpc] at next within
    rcases within with ⟨none, prev, same⟩
    cases next
    refine ⟨past, ?_⟩
    rw [hpc]
    by_cases negative : s.prev.toInt < 0
    · rw [if_pos negative]
      rw [prev] at negative
      exact ⟨s.loaded, .unchanged (notPositive_of_lt negative) rfl none, prev⟩
    · rw [if_neg negative]
      exact ⟨none, prev, same, Int.not_lt.mp negative⟩
  | 3 =>
    rw [hpc] at next within
    change exec status s .scW = some t at next
    rw [exec] at next
    split at next
    · next success =>
      split at next
      · next reserved =>
        cases next
        obtain ⟨positive, prev, stored⟩ := effect_stored within reserved (fits hpc success)
        refine ⟨nofun, ?_⟩
        rw [hpc]
        exact .inl ⟨rfl, s.counter.counter, .decrement positive stored, prev⟩
      · cases next
    · next failed =>
      cases next
      refine ⟨nofun, ?_⟩
      rw [hpc]
      exact .inr ⟨failed, within.1⟩
  | 4 =>
    rw [hpc] at next within
    cases next
    refine ⟨past, ?_⟩
    rw [hpc]
    rcases within with ⟨done, v, effect, prev⟩ | ⟨failed, none⟩
    · rw [if_neg (not_not_intro done)]
      exact ⟨v, Effect.congr (s := s) rfl rfl effect, prev⟩
    · rw [if_pos failed]
      exact none
  | 5 =>
    rw [hpc] at next
    cases next
  | n + 6 =>
    rw [hpc] at within
    exact within.elim

/-- Where the condition is not met, what is stored is not what is to be. -/
theorem fits_of_right {s t : Call} (knows : Knows s) (here : s.pc = 3)
    (next : step s (.instr 0) = some t) (right : Right t) : Fits s.counter.counter := by
  have within := knows.within
  rw [here] at within
  rcases within with ⟨none, prev, same, above⟩
  rw [step, here] at next
  change exec 0 s .scW = some t at next
  rw [exec, if_pos rfl] at next
  split at next
  · next reserved =>
    cases next
    have value := same reserved
    have some_stored : s.stored ++ [(s.counter.counter, storeWord s.counter.counter s.prev)] ≠ [] :=
      List.append_ne_nil_of_right_ne_nil _ (List.cons_ne_nil _ _)
    obtain ⟨v, effect⟩ := right.stored some_stored
    cases effect with
    | decrement positive stored =>
      rw [none, List.nil_append, List.cons.injEq, Prod.mk.injEq] at stored
      rcases stored with ⟨⟨rfl, word⟩, -⟩
      rw [prev, value] at above word
      exact ⟨(positive_iff above).mp positive, fun _ => (storeWord_sub_one_iff positive).mp word⟩
    | unchanged _ _ none => exact absurd none some_stored
  · cases next

theorem Knows.step {s t : Call} {e : Event} (knows : Knows s) (allowed : Allowed s e)
    (next : step s e = some t) : Knows t := by
  cases e with
  | instr status => exact knows.instr allowed next
  | other value =>
    cases next
    exact ⟨fun n reserved => Nat.le_succ_of_le (knows.past n reserved),
      knows.within.other value knows.past⟩

/-- The condition is just what keeps the call right. -/
theorem right_iff_allowed {s t : Call} {e : Event} (knows : Knows s) (next : step s e = some t) :
    Right t ↔ Allowed s e := by
  refine ⟨fun right => ?_, fun allowed => (knows.step allowed next).right⟩
  cases e with
  | instr status =>
    intro here same
    subst same
    exact fits_of_right knows here next right
  | other value => exact trivial

/-! ## Runs -/

/-- With any stores of other harts and any store-conditionals failing, the call is right in every
state if the values that it stores over fit, and only then. -/
theorem decIfPositive_exact {s t : Call} (starts : Starts s) :
    (Run (Taken step Allowed) s t → Right t) ∧
      (Run (Guarded (Any step) fun _ t => Right t) s t ↔ Run (Taken step Allowed) s t) := by
  have knows : Knows s := by
    refine ⟨starts.past, ?_⟩
    rw [starts.pc]
    exact starts.stored
  have exactly : ∀ ⦃u e v⦄, Knows u → step u e = some v → (Right v ↔ Allowed u e) :=
    fun _ _ _ known next => right_iff_allowed known next
  have kept : Keeps (Taken step Allowed) Knows := by
    intro u v known taken
    rcases taken with ⟨e, allowed, next⟩
    exact known.step allowed next
  have right : ∀ ⦃u⦄, Knows u → Right u := fun _ known => known.right
  exact Run.exact right exactly kept knows

/-- A call on a counter with this value. -/
def called (value : BitVec 64) : Call := ⟨⟨value, 0⟩, 0, 0, 0, none, 0, []⟩

theorem starts_called (value : BitVec 64) : Starts (called value) := ⟨rfl, rfl, nofun⟩

/-- Another hart stores one in between, so that the first store-conditional fails. -/
def contended : List Event :=
  [.instr 0, .other 1, .instr 0, .instr 0, .instr 1, .instr 0, .instr 0, .instr 0, .instr 0,
    .instr 0, .instr 0]

theorem decIfPositive_exact_one :
    ∃ t, Run (Taken step Allowed) (called 5) t ∧ t.counter.counter = 0 ∧ t.Returns ∧ Right t := by
  have run : Run (Taken step Allowed) (called 5) ⟨⟨0, 2⟩, 5, 0, 0, none, 1, [(1, 0)]⟩ :=
    Run.of_foldlM_allowed (show contended.foldlM _ _ = _ by decide)
  exact ⟨_, run, rfl, rfl, (decIfPositive_exact (starts_called 5)).1 run⟩

/-- The word that is stored leaves the upper half of the counter as it was. -/
theorem decIfPositive_not_right :
    ¬ ∀ s t : Call, Starts s → Run (Any step) s t → Right t := by
  intro always
  have leads : [Event.instr 0, .instr 0, .instr 0, .instr 0, .instr 0].foldlM step
      (called 0x100000000) = some ⟨⟨0x1ffffffff, 1⟩, 5, 0xffffffff, 0, none, 0x100000000,
        [(0x100000000, 0x1ffffffff)]⟩ := by
    decide
  have right := always _ _ (starts_called _) (.of_foldlM leads)
  obtain ⟨v, effect⟩ := right.stored (List.cons_ne_nil _ _)
  cases effect with
  | decrement positive stored =>
    rw [List.cons.injEq, Prod.mk.injEq] at stored
    rcases stored with ⟨⟨rfl, word⟩, -⟩
    exact absurd word (by decide)
  | unchanged _ _ none => cases none

end RiscvLinux.Smp.Atomic64
