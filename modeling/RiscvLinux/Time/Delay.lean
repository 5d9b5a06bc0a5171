import RiscvLinux.Arith.Div64
import RiscvLinux.Config.Number
import RiscvLinux.Trap.PtRegs

/-!
# `udelay` and `ndelay`

`arch/riscv/lib/delay.c`. A wait reads the cycle counter until enough cycles have gone by since it
was first read. The two callers wait for the value of `do_div`, which is the remainder: the
quotient is left in `dt`, and nobody looks at it. `delay_onTime_iff` says for which readings that
is as good as the quotient.
-/

namespace RiscvLinux.Time

open Trap

variable {x : XLen}

/-! ## The code -/

/-- The loop of `__delay`, over the readings that `get_cycles` gives: the one it ends with. -/
def delayLoop (t0 : UInt64) (cycles : Word x) : List UInt64 → Option Nat
  | [] => none
  | now :: later =>
    if (now - t0).toBitVec.setWidth x.bits < cycles then (delayLoop t0 cycles later).map (· + 1)
    else some 0

/-- What the cycle counter goes through from the entry on. A reading has its lowest 64 bits. -/
structure Readings (x : XLen) where
  first : Nat
  later : List Nat
  ordered : (first :: later).Pairwise (· ≤ ·)
  within : ∀ t ∈ later, t - first < 2 ^ x.bits

/-- `__delay` -/
def delay (cycles : Word x) (r : Readings x) : Option Nat :=
  delayLoop (UInt64.ofNat r.first) cycles (r.later.map UInt64.ofNat)

/-- `do_div` with a constant base. A 64-bit kernel has the macro from the generic headers. -/
def doDiv (x : XLen) (n : UInt64) (base : UInt32) : UInt64 × UInt32 :=
  match x with
  | .rv32 => Arith.doDiv true Config.doDiv n base
  | .rv64 => Config.doDiv n base

/-- The body of `udelay` and `ndelay` -/
def delayFor (base : UInt32) (timebase count : Word x) (r : Readings x) : Option Nat :=
  let dt := UInt64.ofNat count.toNat * UInt64.ofNat timebase.toNat
  delay (BitVec.ofNat x.bits (doDiv x dt base).2.toNat) r

/-- `udelay` -/
def udelay (timebase usecs : Word x) (r : Readings x) : Option Nat :=
  delayFor 1000000 timebase usecs r

/-- `ndelay` -/
def ndelay (timebase nsecs : Word x) (r : Readings x) : Option Nat :=
  delayFor 1000000000 timebase nsecs r

/-! ## The wait -/

/-- The reading `i` is the first one with that many cycles gone by. -/
def Readings.FirstAfter (r : Readings x) (cycles i : Nat) : Prop :=
  ∃ here : i < r.later.length, cycles ≤ r.later[i] - r.first ∧
    ∀ j, ∀ before : j < i, r.later[j] - r.first < cycles

/-- A wait that is over with the first reading with that many cycles gone by, and never earlier. -/
def OnTime (cycles : Nat) (r : Readings x) (ended : Option Nat) : Prop :=
  ∀ i, ended = some i ↔ r.FirstAfter cycles i

/-- The difference of two readings is the number of cycles between them, also where the counter
wraps. -/
theorem toNat_elapsed {first t : Nat} (ordered : first ≤ t) (within : t - first < 2 ^ x.bits) :
    ((UInt64.ofNat t - UInt64.ofNat first).toBitVec.setWidth x.bits).toNat = t - first := by
  have width : 2 ^ x.bits ≤ 2 ^ 64 := by cases x <;> decide
  have difference : (UInt64.ofNat t - UInt64.ofNat first).toNat = t - first := by
    rw [UInt64.toNat_sub, UInt64.toNat_ofNat', UInt64.toNat_ofNat']
    omega
  rw [BitVec.toNat_setWidth, UInt64.toNat_toBitVec, difference, Nat.mod_eq_of_lt within]

theorem delayLoop_eq (first : Nat) (cycles : Word x) {later : List Nat}
    (inside : ∀ t ∈ later, first ≤ t ∧ t - first < 2 ^ x.bits) :
    delayLoop (UInt64.ofNat first) cycles (later.map UInt64.ofNat) =
      later.findIdx? fun t => cycles.toNat ≤ t - first := by
  induction later with
  | nil => rfl
  | cons t later ih =>
    obtain ⟨ordered, within⟩ := inside t List.mem_cons_self
    have short : (UInt64.ofNat t - UInt64.ofNat first).toBitVec.setWidth x.bits < cycles ↔
        ¬ cycles.toNat ≤ t - first := by
      rw [BitVec.lt_def, toNat_elapsed ordered within, Nat.not_le]
    rw [List.map_cons, delayLoop, List.findIdx?_cons,
      ih fun s hs => inside s (List.mem_cons_of_mem t hs)]
    by_cases enough : cycles.toNat ≤ t - first
    · rw [if_neg (mt short.mp (not_not_intro enough)), if_pos (decide_eq_true enough)]
    · rw [if_pos (short.mpr enough), if_neg (by rw [decide_eq_true_eq]; exact enough)]

/-- The wait ends with the first reading after so many cycles. -/
theorem delay_onTime (cycles : Word x) (r : Readings x) :
    OnTime cycles.toNat r (delay cycles r) := by
  intro i
  have inside : ∀ t ∈ r.later, r.first ≤ t ∧ t - r.first < 2 ^ x.bits := fun t ht =>
    ⟨List.rel_of_pairwise_cons r.ordered ht, r.within t ht⟩
  rw [delay, delayLoop_eq r.first cycles inside, List.findIdx?_eq_some_iff_getElem]
  simp only [decide_eq_true_eq, Nat.not_le]
  rfl

/-- A reading after `a` cycles is one after `b` cycles, where a wait for both is over with one. -/
theorem OnTime.le_of_le {r : Readings x} {a b : Nat} {ended : Option Nat}
    (onA : OnTime a r ended) (onB : OnTime b r ended) {t : Nat} (read : t ∈ r.later)
    (enough : a ≤ t - r.first) : b ≤ t - r.first := by
  obtain ⟨k, inside, rfl⟩ := List.getElem_of_mem read
  have some_reading : ∃ i, ∃ here : i < r.later.length, a ≤ r.later[i] - r.first :=
    ⟨k, inside, enough⟩
  obtain ⟨here, reached⟩ := Nat.find_spec some_reading
  have first : r.FirstAfter a (Nat.find some_reading) := by
    refine ⟨here, reached, fun j before => Nat.lt_of_not_le fun early => ?_⟩
    exact Nat.find_min some_reading before ⟨_, early⟩
  obtain ⟨_, after, -⟩ := (onB _).mp ((onA _).mpr first)
  have index : Nat.find some_reading ≤ k := Nat.find_min' some_reading ⟨inside, enough⟩
  have later : r.later[Nat.find some_reading] ≤ r.later[k] := by
    rcases Nat.lt_or_eq_of_le index with before | same
    · exact List.pairwise_iff_getElem.mp r.ordered.of_cons _ _ here inside before
    · simp only [same, Nat.le_refl]
  omega

/-- A wait of `a` cycles is one of `b` cycles exactly if no reading is between the two. -/
theorem OnTime.iff {r : Readings x} {a b : Nat} {ended : Option Nat} (onTime : OnTime a r ended) :
    OnTime b r ended ↔ ∀ t ∈ r.later, a ≤ t - r.first ↔ b ≤ t - r.first := by
  constructor
  · intro both t read
    exact ⟨onTime.le_of_le both read, both.le_of_le onTime read⟩
  · intro same i
    rw [onTime i]
    have one : ∀ j, ∀ here : j < r.later.length,
        a ≤ r.later[j] - r.first ↔ b ≤ r.later[j] - r.first :=
      fun j here => same _ (List.getElem_mem here)
    refine exists_congr fun here => and_congr (one i here) (forall₂_congr fun j before => ?_)
    rw [← Nat.not_le, ← Nat.not_le, one j (Nat.lt_trans before here)]

/-! ## The callers -/

theorem toNat_doDiv_snd (n : UInt64) {base : UInt32} (nonzero : base ≠ 0) :
    (doDiv x n base).2.toNat = n.toNat % base.toNat := by
  cases x with
  | rv32 => exact (Arith.toNat_doDiv_constant Config.doDiv n nonzero).2
  | rv64 =>
    have some_base : 0 < base.toNat :=
      Nat.pos_of_ne_zero fun zero => nonzero (UInt32.toNat_inj.mp zero)
    have small := Nat.mod_lt n.toNat some_base
    have size := base.toNat_lt
    rw [doDiv, Config.doDiv, UInt64.toNat_toUInt32, UInt64.toNat_mod, UInt32.toNat_toUInt64]
    exact Nat.mod_eq_of_lt (by omega)

/-- What the callers wait for. -/
theorem delayFor_onTime {base : UInt32} (nonzero : base ≠ 0) {timebase count : Word x}
    (fits : count.toNat * timebase.toNat < 2 ^ 64) (r : Readings x) :
    OnTime (count.toNat * timebase.toNat % base.toNat) r (delayFor base timebase count r) := by
  have dt : (UInt64.ofNat count.toNat * UInt64.ofNat timebase.toNat).toNat =
      count.toNat * timebase.toNat := by
    rw [UInt64.toNat_mul, UInt64.toNat_ofNat', UInt64.toNat_ofNat', ← Nat.mul_mod,
      Nat.mod_eq_of_lt fits]
  have some_base : 0 < base.toNat :=
    Nat.pos_of_ne_zero fun zero => nonzero (UInt32.toNat_inj.mp zero)
  have small := Nat.mod_lt (count.toNat * timebase.toNat) some_base
  have size := base.toNat_lt
  have width : 2 ^ 32 ≤ 2 ^ x.bits := by cases x <;> decide
  have waits := delay_onTime
    (BitVec.ofNat x.bits (count.toNat * timebase.toNat % base.toNat)) r
  rw [BitVec.toNat_ofNat, Nat.mod_eq_of_lt (by omega)] at waits
  rw [delayFor, toNat_doDiv_snd _ nonzero, dt]
  exact waits

/-- The wait for the remainder is the wait for the quotient exactly if no reading is between the
two. -/
theorem delay_onTime_iff (timebase count : Word x)
    (fits : count.toNat * timebase.toNat < 2 ^ 64) (r : Readings x) :
    (OnTime (count.toNat * timebase.toNat / 1000000) r (udelay timebase count r) ↔
      ∀ t ∈ r.later, count.toNat * timebase.toNat % 1000000 ≤ t - r.first ↔
        count.toNat * timebase.toNat / 1000000 ≤ t - r.first) ∧
    (OnTime (count.toNat * timebase.toNat / 1000000000) r (ndelay timebase count r) ↔
      ∀ t ∈ r.later, count.toNat * timebase.toNat % 1000000000 ≤ t - r.first ↔
        count.toNat * timebase.toNat / 1000000000 ≤ t - r.first) :=
  ⟨(delayFor_onTime (by decide) fits r).iff, (delayFor_onTime (by decide) fits r).iff⟩

/-- A counter of 10 MHz, read at once and again after one microsecond -/
def readings (x : XLen) : Readings x := ⟨0, [0, 10], by decide, by cases x <;> decide⟩

/-- Nothing is between 1000003 modulo and divided by a million, which are 3 and 1. -/
theorem delay_onTime_iff_three :
    OnTime 1 (readings .rv64) (udelay 1000003 1 (readings .rv64)) ∧
      OnTime 0 (readings .rv64) (ndelay 0 1 (readings .rv64)) := by
  refine ⟨(delay_onTime_iff 1000003 1 (by decide) (readings .rv64)).1.mpr ?_,
    (delay_onTime_iff 0 1 (by decide) (readings .rv64)).2.mpr ?_⟩
  · decide
  · decide

/-- The wait for one microsecond is over at once. -/
theorem not_onTime_atOnce (x : XLen) :
    ¬ OnTime (1 * 10000000 / 1000000) (readings x) (udelay 10000000 1 (readings x)) := by
  have modulo : OnTime 0 (readings x) (udelay 10000000 1 (readings x)) := by
    cases x <;> exact delayFor_onTime (by decide) (by decide) _
  intro onTime
  have enough : 10 ≤ 0 := (modulo.iff.mp onTime 0 List.mem_cons_self).mp (Nat.le_refl 0)
  exact absurd enough (by decide)

theorem udelay_not_onTime :
    ¬ OnTime (1 * 10000000 / 1000000) (readings .rv32) (udelay 10000000 1 (readings .rv32)) ∧
    ¬ OnTime (1 * 10000000 / 1000000) (readings .rv64) (udelay 10000000 1 (readings .rv64)) :=
  ⟨not_onTime_atOnce .rv32, not_onTime_atOnce .rv64⟩

end RiscvLinux.Time
