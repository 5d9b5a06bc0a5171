import RiscvLinux.Lib.Run
import RiscvLinux.Trap.PtRegs

/-!
# `get_cycles`

`arch/riscv/include/asm/timex.h`. On RV32 the counter is read in two halves, and it counts on
between the instructions; the loop reads the upper half once more, and starts again when it has
changed.

`getCycles_readings` says that the calls read the counter as if in one step, so that the readings
are in order, and `getCycles_ends` how long a call takes.
-/

namespace RiscvLinux.Time.Cycles

open Lib Trap

/-! ## The code -/

/-- The operands of `get_cycles` -/
structure Regs where
  hi : UInt32
  lo : UInt32
  tmp : UInt32

/-- The instructions of `get_cycles`, the one of RV64 and the four of RV32 -/
inductive Pc
  | rdtime64
  | rdtimeh
  | rdtime
  | rdtimehTmp
  | bne
  deriving DecidableEq

def Pc.start : XLen → Pc
  | .rv32 => .rdtimeh
  | .rv64 => .rdtime64

/-- The upper half of the counter, which is 64 bits wide -/
def upper (time : Nat) : UInt32 := UInt32.ofNat (time / 2 ^ 32)

/-- The lower half -/
def lower (time : Nat) : UInt32 := UInt32.ofNat time

/-- `((u64)hi << 32) | lo` -/
def Regs.value (regs : Regs) : UInt64 := regs.hi.toUInt64 <<< 32 ||| regs.lo.toUInt64

/-- One instruction: what is next, or the value that is returned -/
def instr (time : Nat) (regs : Regs) : Pc → Regs × (Pc ⊕ UInt64)
  | .rdtime64 => (regs, .inr (UInt64.ofNat time))
  | .rdtimeh => ({ regs with hi := upper time }, .inl .rdtime)
  | .rdtime => ({ regs with lo := lower time }, .inl .rdtimehTmp)
  | .rdtimehTmp => ({ regs with tmp := upper time }, .inl .bne)
  | .bne => if regs.hi ≠ regs.tmp then (regs, .inl .rdtimeh) else (regs, .inr regs.value)

/-! ## Runs -/

/-- A call under way: where it is, what the counter was when it began, and how many instructions
it has taken so far -/
structure Active where
  pc : Pc
  began : Nat
  taken : Nat
  deriving DecidableEq

/-- A call that has come to its end -/
structure Call where
  began : Nat
  ended : Nat
  taken : Nat
  value : UInt64
  deriving DecidableEq

/-- The counter, without a bound, and a hart with its calls, the first one first -/
structure System where
  time : Nat
  regs : Regs
  active : Option Active
  calls : List Call

/-- The counter goes on, a call begins, or it takes an instruction. -/
inductive Event
  | tick (n : Nat)
  | getCycles
  | instr

/-- What an instruction makes of a call -/
def proceed (s : System) (a : Active) : System :=
  match instr s.time s.regs a.pc with
  | (regs, .inl pc) => { s with regs, active := some ⟨pc, a.began, a.taken + 1⟩ }
  | (regs, .inr value) =>
    { s with regs, active := none, calls := s.calls ++ [⟨a.began, s.time, a.taken + 1, value⟩] }

/-- One step -/
def step (x : XLen) (s : System) : Event → Option System
  | .tick n => some { s with time := s.time + n }
  | .getCycles =>
    if s.active.isSome then none else some { s with active := some ⟨.start x, s.time, 0⟩ }
  | .instr => s.active.map (proceed s)

/-- No call has begun. -/
structure Starts (s : System) : Prop where
  active : s.active = none
  calls : s.calls = []

/-! ## Readings -/

/-- The call returns what the counter was at some time between its beginning and its end. -/
structure Reads (t : Nat) (c : Call) : Prop where
  began : c.began ≤ t
  ended : t ≤ c.ended
  value : c.value = UInt64.ofNat t

/-- The upper half, without a bound -/
def epoch (time : Nat) : Nat := time / 2 ^ 32

theorem epoch_mono {s t : Nat} (le : s ≤ t) : epoch s ≤ epoch t := Nat.div_le_div_right le

theorem toNat_upper (time : Nat) : (upper time).toNat = epoch time % 2 ^ 32 := UInt32.toNat_ofNat'

/-- The two halves of one time are the time. -/
theorem value_halves {regs : Regs} {t : Nat} (hi : regs.hi = upper t) (lo : regs.lo = lower t) :
    regs.value = UInt64.ofNat t := by
  have low : t % 2 ^ 32 < 2 ^ 32 := Nat.mod_lt _ (by decide)
  have high : epoch t % 2 ^ 32 < 2 ^ 32 := Nat.mod_lt _ (by decide)
  refine UInt64.toNat_inj.mp ?_
  rw [Regs.value, UInt64.toNat_or, UInt64.toNat_shiftLeft, UInt32.toNat_toUInt64,
    UInt32.toNat_toUInt64, hi, lo, toNat_upper, lower, UInt32.toNat_ofNat', UInt64.toNat_ofNat']
  have amount : (32 : UInt64).toNat % 64 = 32 := rfl
  rw [amount, Nat.shiftLeft_eq, Nat.mod_eq_of_lt (by omega), Nat.mul_comm,
    ← Nat.two_pow_add_eq_or_of_lt low, epoch]
  omega

/-- When the upper half is the same before and after, it has been the same in between, unless the
counter has gone around. -/
theorem epoch_eq {s t : Nat} (same : upper s = upper t) (le : s ≤ t)
    (short : t - s ≤ 2 ^ 64 - 2 ^ 32) : epoch s = epoch t := by
  have numbers := congrArg UInt32.toNat same
  rw [toNat_upper, toNat_upper] at numbers
  rw [epoch, epoch] at *
  omega

/-- When it is not, it has changed in between. -/
theorem epoch_lt {s t : Nat} (differ : upper s ≠ upper t) (le : s ≤ t) : epoch s < epoch t := by
  refine Nat.lt_of_le_of_ne (epoch_mono le) fun same => differ ?_
  exact congrArg UInt32.ofNat same

/-! ## One call -/

/-- The times that the registers are from, as far as a call has come. Of the instructions, all but
those of the present pass are paid for: four for each change of the upper half. -/
inductive Sampled (time : Nat) (regs : Regs) (began taken : Nat) : Pc → Prop
  | rdtime64 (before : began ≤ time) (none : taken = 0) : Sampled time regs began taken .rdtime64
  | rdtimeh (before : began ≤ time) (paid : taken + 4 * epoch began ≤ 4 * epoch time) :
    Sampled time regs began taken .rdtimeh
  | rdtime (t : Nat) (before : began ≤ t) (now : t ≤ time) (hi : regs.hi = upper t)
    (paid : taken + 4 * epoch began ≤ 4 * epoch t + 1) : Sampled time regs began taken .rdtime
  | rdtimehTmp (t u : Nat) (before : began ≤ t) (after : t ≤ u) (now : u ≤ time)
    (hi : regs.hi = upper t) (lo : regs.lo = lower u)
    (paid : taken + 4 * epoch began ≤ 4 * epoch t + 2) : Sampled time regs began taken .rdtimehTmp
  | bne (t u v : Nat) (before : began ≤ t) (after : t ≤ u) (last : u ≤ v) (now : v ≤ time)
    (hi : regs.hi = upper t) (lo : regs.lo = lower u) (tmp : regs.tmp = upper v)
    (paid : taken + 4 * epoch began ≤ 4 * epoch t + 3) : Sampled time regs began taken .bne

/-- During the call the counter does not go on so far that its upper half comes back to a value that
it has left. -/
def Call.Short (c : Call) : Prop := c.ended - c.began ≤ 2 ^ 64 - 2 ^ 32

/-- What is true of a call at its end -/
structure Call.Good (c : Call) : Prop where
  before : c.began ≤ c.ended
  paid : c.taken ≤ 4 * (1 + (epoch c.ended - epoch c.began))
  reads : c.Short → ∃ t, Reads t c

theorem Sampled.tick {time : Nat} {regs : Regs} {began taken : Nat} {pc : Pc}
    (sampled : Sampled time regs began taken pc) (n : Nat) :
    Sampled (time + n) regs began taken pc := by
  have on : time ≤ time + n := Nat.le_add_right time n
  cases sampled with
  | rdtime64 before none => exact .rdtime64 (before.trans on) none
  | rdtimeh before paid =>
    exact .rdtimeh (before.trans on) (paid.trans (Nat.mul_le_mul_left 4 (epoch_mono on)))
  | rdtime t before now hi paid => exact .rdtime t before (now.trans on) hi paid
  | rdtimehTmp t u before after now hi lo paid =>
    exact .rdtimehTmp t u before after (now.trans on) hi lo paid
  | bne t u v before after last now hi lo tmp paid =>
    exact .bne t u v before after last (now.trans on) hi lo tmp paid

/-- The end of a pass: the upper half has changed, or the two halves are of one time. -/
theorem sampled_bne {time : Nat} {regs : Regs} {began taken t u v : Nat} (before : began ≤ t)
    (after : t ≤ u) (last : u ≤ v) (now : v ≤ time) (hi : regs.hi = upper t)
    (lo : regs.lo = lower u) (tmp : regs.tmp = upper v)
    (paid : taken + 4 * epoch began ≤ 4 * epoch t + 3) :
    (regs.hi ≠ regs.tmp → Sampled time regs began (taken + 1) .rdtimeh) ∧
      (regs.hi = regs.tmp → Call.Good ⟨began, time, taken + 1, regs.value⟩) := by
  have whole : began ≤ time := ((before.trans after).trans last).trans now
  rw [tmp, hi]
  refine ⟨fun differ => .rdtimeh whole ?_, fun same => ⟨whole, ?_, fun short => ?_⟩⟩
  · have changed := epoch_lt differ (after.trans last)
    have onward := epoch_mono now
    omega
  · have onward := epoch_mono ((after.trans last).trans now)
    have start := epoch_mono before
    change taken + 1 ≤ 4 * (1 + (epoch time - epoch began))
    omega
  · have within : v - t ≤ 2 ^ 64 - 2 ^ 32 := by
      have bound : time - began ≤ 2 ^ 64 - 2 ^ 32 := short
      omega
    have lasts := epoch_eq same (after.trans last) within
    have first := epoch_mono after
    have second := epoch_mono last
    have between : upper t = upper u := congrArg UInt32.ofNat (by omega : epoch t = epoch u)
    exact ⟨u, before.trans after, last.trans now, value_halves (hi.trans between) lo⟩

/-- What an instruction does to a call -/
theorem sampled_instr {time : Nat} {regs regs' : Regs} {began taken : Nat} {pc : Pc}
    {next : Pc ⊕ UInt64} (sampled : Sampled time regs began taken pc)
    (takes : instr time regs pc = (regs', next)) :
    (∀ pc', next = .inl pc' → Sampled time regs' began (taken + 1) pc') ∧
      ∀ value, next = .inr value → Call.Good ⟨began, time, taken + 1, value⟩ := by
  cases sampled with
  | rdtime64 before none =>
    cases takes
    refine ⟨nofun, fun value returns => ?_⟩
    cases returns
    refine ⟨before, ?_, fun _ => ⟨time, before, Nat.le_refl time, rfl⟩⟩
    change taken + 1 ≤ 4 * (1 + (epoch time - epoch began))
    omega
  | rdtimeh before paid =>
    cases takes
    refine ⟨fun pc' goes => ?_, nofun⟩
    cases goes
    exact .rdtime time before (Nat.le_refl time) rfl (by omega)
  | rdtime t before now hi paid =>
    cases takes
    refine ⟨fun pc' goes => ?_, nofun⟩
    cases goes
    exact .rdtimehTmp t time before now (Nat.le_refl time) hi rfl (by omega)
  | rdtimehTmp t u before after now hi lo paid =>
    cases takes
    refine ⟨fun pc' goes => ?_, nofun⟩
    cases goes
    exact .bne t u time before after now (Nat.le_refl time) hi lo rfl (by omega)
  | bne t u v before after last now hi lo tmp paid =>
    obtain ⟨again, ends⟩ := sampled_bne before after last now hi lo tmp paid
    rw [instr] at takes
    by_cases differ : regs.hi ≠ regs.tmp
    · rw [if_pos differ] at takes
      cases takes
      refine ⟨fun pc' goes => ?_, nofun⟩
      cases goes
      exact again differ
    · rw [if_neg differ] at takes
      cases takes
      refine ⟨nofun, fun value returns => ?_⟩
      cases returns
      exact ends (not_ne_iff.mp differ)

/-! ## Calls after calls -/

/-- The call under way is sampled, the calls before it are good, and none begins before the one
before it has come to its end. -/
structure Inv (s : System) : Prop where
  active : ∀ a, s.active = some a → Sampled s.time s.regs a.began a.taken a.pc
  good : ∀ c ∈ s.calls, c.Good
  ordered : s.calls.Pairwise fun c d => c.ended ≤ d.began
  past : ∀ c ∈ s.calls, c.ended ≤ s.time
  before : ∀ c ∈ s.calls, ∀ a, s.active = some a → c.ended ≤ a.began

theorem Starts.inv {s : System} (starts : Starts s) : Inv s := by
  rcases starts with ⟨active, calls⟩
  refine ⟨fun a calling => ?_, ?_, ?_, ?_, ?_⟩
  · cases active.symm.trans calling
  all_goals rw [calls]
  · exact List.forall_mem_nil _
  · exact .nil
  · exact List.forall_mem_nil _
  · exact List.forall_mem_nil _

theorem Inv.proceed {s : System} (inv : Inv s) {a : Active} (active : s.active = some a) :
    Inv (proceed s a) := by
  have sampled := inv.active a active
  rcases takes : instr s.time s.regs a.pc with ⟨regs, pc | value⟩
  · rw [Cycles.proceed, takes]
    refine ⟨fun b calling => ?_, inv.good, inv.ordered, inv.past, fun c before b calling => ?_⟩
    · cases calling
      exact (sampled_instr sampled takes).1 pc rfl
    · cases calling
      exact inv.before c before a active
  · have good := (sampled_instr sampled takes).2 value rfl
    rw [Cycles.proceed, takes]
    refine ⟨nofun, ?_, ?_, ?_, fun _ _ => nofun⟩
    · exact List.forall_mem_append.mpr ⟨inv.good, List.forall_mem_singleton.mpr good⟩
    · refine List.pairwise_append.mpr ⟨inv.ordered, List.pairwise_singleton .., fun c before => ?_⟩
      exact List.forall_mem_singleton.mpr (inv.before c before a active)
    · exact List.forall_mem_append.mpr
        ⟨inv.past, List.forall_mem_singleton.mpr (Nat.le_refl s.time)⟩

theorem inv_kept (x : XLen) : Keeps (Any (step x)) Inv := by
  intro s t inv taken
  rcases taken with ⟨e, -, next⟩
  cases e with
  | tick n =>
    cases next
    refine ⟨fun a active => (inv.active a active).tick n, inv.good, inv.ordered, ?_, inv.before⟩
    exact fun c before => (inv.past c before).trans (Nat.le_add_right s.time n)
  | getCycles =>
    rw [step] at next
    split at next
    · cases next
    · cases next
      refine ⟨fun a active => ?_, inv.good, inv.ordered, inv.past, fun c before a active => ?_⟩
      · cases active
        cases x with
        | rv32 => exact .rdtimeh (Nat.le_refl s.time) (Nat.le_of_eq (Nat.zero_add _))
        | rv64 => exact .rdtime64 (Nat.le_refl s.time) rfl
      · cases active
        exact inv.past c before
  | instr =>
    rw [step, Option.map_eq_some_iff] at next
    rcases next with ⟨a, active, rfl⟩
    exact inv.proceed active

/-- Calls that read the counter one after the other read it in order. -/
theorem readings_ordered {calls : List Call} (good : ∀ c ∈ calls, c.Good)
    (ordered : calls.Pairwise fun c d => c.ended ≤ d.began) (short : ∀ c ∈ calls, c.Short) :
    ∃ times : List Nat, times.Pairwise (· ≤ ·) ∧ List.Forall₂ Reads times calls ∧
      ∀ t ∈ times, ∃ c ∈ calls, Reads t c := by
  induction calls with
  | nil => exact ⟨[], .nil, .nil, List.forall_mem_nil _⟩
  | cons c calls ih =>
    obtain ⟨first, others⟩ := List.forall_mem_cons.mp good
    obtain ⟨brief, rest⟩ := List.forall_mem_cons.mp short
    obtain ⟨after, ordered⟩ := List.pairwise_cons.mp ordered
    obtain ⟨t, reads⟩ := first.reads brief
    obtain ⟨times, sorted, all, within⟩ := ih others ordered rest
    refine ⟨t :: times, List.pairwise_cons.mpr ⟨fun u later => ?_, sorted⟩, .cons reads all,
      List.forall_mem_cons.mpr ⟨⟨c, List.mem_cons_self, reads⟩, fun u later => ?_⟩⟩
    · obtain ⟨d, there, reading⟩ := within u later
      exact (reads.ended.trans (after d there)).trans reading.began
    · obtain ⟨d, there, reading⟩ := within u later
      exact ⟨d, List.mem_cons_of_mem c there, reading⟩

/-- However fast the counter goes on between the instructions: every call returns what the counter
was at one time between its beginning and its end, and the times of the calls are in their order. -/
theorem getCycles_readings {x : XLen} {s t : System} (starts : Starts s)
    (run : Run (Any (step x)) s t) (short : ∀ c ∈ t.calls, c.Short) :
    ∃ times : List Nat, times.Pairwise (· ≤ ·) ∧ List.Forall₂ Reads times t.calls := by
  have inv := Run.keeps (inv_kept x) starts.inv run
  obtain ⟨times, sorted, reads, -⟩ := readings_ordered inv.good inv.ordered short
  exact ⟨times, sorted, reads⟩

/-- A call takes four instructions at most for each change of the upper half and four more, and one
that is under way has taken fewer. -/
theorem getCycles_ends {x : XLen} {s t : System} (starts : Starts s)
    (run : Run (Any (step x)) s t) :
    (∀ c ∈ t.calls, c.taken ≤ 4 * (1 + (epoch c.ended - epoch c.began))) ∧
      ∀ a, t.active = some a → a.taken < 4 * (1 + (epoch t.time - epoch a.began)) := by
  have inv := Run.keeps (inv_kept x) starts.inv run
  refine ⟨fun c called => (inv.good c called).paid, fun a active => ?_⟩
  have sampled := inv.active a active
  rcases a with ⟨pc, began, taken⟩
  cases sampled with
  | rdtime64 | rdtimeh => omega
  | rdtime t _ now _ paid => have onward := epoch_mono now; omega
  | rdtimehTmp t u _ after now _ _ paid => have onward := epoch_mono (after.trans now); omega
  | bne t u v _ after last now _ _ _ paid =>
    have onward := epoch_mono ((after.trans last).trans now)
    omega

/-- The lower half overflows between the first two instructions. -/
def overflow : List Event :=
  [.getCycles, .instr, .tick 1, .instr, .instr, .instr, .instr, .instr, .instr, .instr]

theorem overflow_run : ∃ t, Run (Any (step .rv32)) ⟨0xffffffff, ⟨0, 0, 0⟩, none, []⟩ t ∧
    t.calls = [⟨0xffffffff, 0x100000000, 8, 0x100000000⟩] := by
  have leads : (overflow.foldlM (step .rv32) ⟨0xffffffff, ⟨0, 0, 0⟩, none, []⟩).any
      (fun t => t.calls = [⟨0xffffffff, 0x100000000, 8, 0x100000000⟩]) = true := by
    decide
  obtain ⟨t, leads, calls⟩ := (Option.any_eq_true _ _).mp leads
  exact ⟨t, .of_foldlM leads, of_decide_eq_true calls⟩

theorem getCycles_readings_overflow : ∃ (t : System) (times : List Nat),
    t.calls = [⟨0xffffffff, 0x100000000, 8, 0x100000000⟩] ∧ List.Forall₂ Reads times t.calls := by
  rcases overflow_run with ⟨t, run, calls⟩
  have short : ∀ c ∈ t.calls, c.Short := by
    rw [calls]
    exact List.forall_mem_singleton.mpr (by decide : 0x100000000 - 0xffffffff ≤ 2 ^ 64 - 2 ^ 32)
  obtain ⟨times, -, reads⟩ := getCycles_readings ⟨rfl, rfl⟩ run short
  exact ⟨t, times, calls, reads⟩

/-- A second call, whose first pass sees the upper half change -/
def again : List Event :=
  overflow ++ [.getCycles, .instr, .tick 0xffffffff, .instr, .tick 1, .instr, .instr, .instr]

theorem getCycles_ends_again : ∃ t : System,
    t.calls = [⟨0xffffffff, 0x100000000, 8, 0x100000000⟩] ∧
    (∀ c ∈ t.calls, c.taken ≤ 4 * (1 + (epoch c.ended - epoch c.began))) ∧
    t.active = some ⟨.rdtime, 0x100000000, 5⟩ ∧
    5 < 4 * (1 + (epoch t.time - epoch 0x100000000)) := by
  have leads : (again.foldlM (step .rv32) ⟨0xffffffff, ⟨0, 0, 0⟩, none, []⟩).any
      (fun t => t.calls = [⟨0xffffffff, 0x100000000, 8, 0x100000000⟩] ∧
        t.active = some ⟨.rdtime, 0x100000000, 5⟩) = true := by
    decide
  obtain ⟨t, leads, found⟩ := (Option.any_eq_true _ _).mp leads
  obtain ⟨calls, active⟩ := of_decide_eq_true found
  have ends := getCycles_ends ⟨rfl, rfl⟩ (.of_foldlM leads)
  exact ⟨t, calls, ends.1, active, ends.2 _ active⟩

end RiscvLinux.Time.Cycles
