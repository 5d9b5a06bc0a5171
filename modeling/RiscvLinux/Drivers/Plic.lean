import Mathlib.Logic.Function.Basic
import RiscvLinux.Lib.Run

/-!
# External interrupts

`plic_interrupt` of `arch/riscv/drivers/plic.c` on any number of harts, down to the handlers that it
goes to: `rv_uart_console_isr` of `arch/riscv/drivers/uart.c` for the receivers of any number of
UARTs, and others. The interrupt controller and the devices do what they do at any time in between.

`plic_exclusive` says that the harts do not get in each other's way, `uart_received` that every
character which arrives is handed on once and in order, and `uart_drains` that none is stuck.
-/

namespace RiscvLinux.Drivers.Plic

open Lib

variable {η : Type*} [DecidableEq η]

/-! ## The system -/

/-- Where a handler is: `rv_uart_console_isr` between its accesses to what it shares, with what it
has in `ch` -/
inductive Isr
  | entered
  | available
  | read (ch : UInt8)
  | locked (ch : UInt8)
  | pushed
  | returned
  deriving DecidableEq, Repr

/-- Where a hart is in `plic_interrupt`, with what it has in `irq`. Interrupts are off, so that it
is there once. -/
inductive Core
  | idle
  | handling (irq : Nat) (isr : Isr)
  deriving DecidableEq, Repr

/-- The receiver of a `struct riscv_uart` and its `rv_uart_tty_port_lock`, with all the characters
that have come into its FIFO and all that `tty_insert_flip_char` was called with -/
structure Uart where
  fifo : List UInt8
  lock : Bool
  arrived : List UInt8
  handed : List UInt8

/-- The harts, the UARTs by their interrupt in Linux, and the interrupt controller: which interrupts
are pending, and for which it waits until they are complete. It counts from 1. -/
structure System (η : Type*) where
  core : η → Core
  uart : Nat → Uart
  pending : Nat → Bool
  claimed : Nat → Bool

/-- Which harts have a `plic_context`, which interrupts are of UARTs, and how much a FIFO holds -/
structure Setup (η : Type*) where
  context : η → Bool
  isUart : Nat → Bool
  capacity : BitVec 32

/-- What happens: a character comes in, the controller takes a request, a hart begins
`plic_interrupt` with what the controller lets it claim, or goes on. From an empty FIFO it reads
`junk`. -/
inductive Event (η : Type*)
  | arrive (n : Nat) (ch : UInt8)
  | request (irq : Nat)
  | interrupt (i : η) (irq : Nat)
  | next (i : η) (junk : UInt8)

/-- A hart has claimed an interrupt. -/
def System.claim (s : System η) (i : η) (irq : Nat) : System η :=
  { s with
    core := Function.update s.core i (.handling irq .entered)
    pending := Function.update s.pending irq false
    claimed := Function.update s.claimed irq true }

/-- A hart has completed its interrupt. -/
def System.complete (s : System η) (i : η) (irq : Nat) : System η :=
  { s with
    core := Function.update s.core i .idle
    claimed := Function.update s.claimed irq false }

/-- A hart has done its next access. -/
def System.moved (s : System η) (i : η) (irq : Nat) (isr : Isr) (u : Uart) : System η :=
  { s with
    core := Function.update s.core i (.handling irq isr)
    uart := Function.update s.uart (irq - 1) u }

/-- One step -/
def step (c : Setup η) (s : System η) : Event η → Option (System η)
  | .arrive n ch =>
    let u := s.uart n
    if u.fifo.length < c.capacity.toNat then
      some { s with
        uart := Function.update s.uart n
          { u with fifo := u.fifo ++ [ch], arrived := u.arrived ++ [ch] } }
    else none
  | .request irq =>
    if irq ≠ 0 ∧ s.pending irq = false ∧ s.claimed irq = false then
      some { s with pending := Function.update s.pending irq true }
    else none
  | .interrupt i irq =>
    if s.core i = .idle then
      -- `if (plic)` and `if (irq)`
      if c.context i = false ∨ irq = 0 then some s
      else if s.pending irq = true then some (s.claim i irq)
      else none
    else none
  | .next i junk =>
    match s.core i with
    | .idle => none
    | .handling irq isr =>
      -- `generic_handle_irq(irq-1)`
      let u := s.uart (irq - 1)
      match isr with
      | .entered =>
        if c.isUart (irq - 1) = true ∧ BitVec.ofNat 32 u.fifo.length ≠ 0 then
          some (s.moved i irq .available u)
        else some (s.moved i irq .returned u)
      | .available =>
        some (s.moved i irq (.read (u.fifo.headD junk)) { u with fifo := u.fifo.tail })
      | .read ch =>
        if u.lock = false then some (s.moved i irq (.locked ch) { u with lock := true }) else none
      | .locked ch => some (s.moved i irq .pushed { u with handed := u.handed ++ [ch] })
      | .pushed => some (s.moved i irq .returned { u with lock := false })
      | .returned => some (s.complete i irq)

/-- Nothing has come in, and no hart is in a handler. -/
structure Booted (s : System η) : Prop where
  core : ∀ i, s.core i = .idle
  uart : ∀ n, s.uart n = ⟨[], false, [], []⟩
  pending : ∀ irq, s.pending irq = false
  claimed : ∀ irq, s.claimed irq = false

/-! ## The invariant -/

/-- The characters that a handler has read and not handed on -/
def Isr.held : Isr → List UInt8
  | .read ch | .locked ch => [ch]
  | .entered | .available | .pushed | .returned => []

/-- A handler has the lock. -/
def Isr.locks : Isr → Bool
  | .locked _ | .pushed => true
  | .entered | .available | .read _ | .returned => false

/-- What a UART is like when nobody is in its handler, or somebody is there -/
structure Fits (c : Setup η) (u : Uart) (isr : Option Isr) : Prop where
  received : u.handed ++ (isr.elim [] Isr.held) ++ u.fifo = u.arrived
  lock : u.lock = isr.elim false Isr.locks
  waits : isr = some .available → u.fifo ≠ []
  room : u.fifo.length ≤ c.capacity.toNat

/-- Every interrupt that is claimed has one hart, which is `who`. -/
structure Inv (c : Setup η) (s : System η) (who : Nat → Option (η × Isr)) : Prop where
  core : ∀ i irq isr, s.core i = .handling irq isr ↔ who irq = some (i, isr)
  zero : who 0 = none
  claimed : ∀ irq, s.claimed irq = (who irq).isSome
  pending : ∀ irq, s.pending irq = true → irq ≠ 0 ∧ who irq = none
  uart : ∀ n, Fits c (s.uart n) ((who (n + 1)).map Prod.snd)

variable {c : Setup η} {s t : System η} {who : Nat → Option (η × Isr)}

omit [DecidableEq η] in
theorem Booted.inv (booted : Booted s) : Inv c s fun _ => none := by
  refine ⟨fun i irq isr => ?_, rfl, booted.claimed, fun irq asked => ?_, fun n => ?_⟩
  · rw [booted.core]
    simp
  · rw [booted.pending] at asked
    cases asked
  · rw [booted.uart]
    exact ⟨rfl, rfl, nofun, Nat.zero_le _⟩

omit [DecidableEq η] in
theorem Inv.ne_zero (inv : Inv c s who) {irq : Nat} {i : η} {isr : Isr}
    (here : who irq = some (i, isr)) : irq ≠ 0 := by
  rintro rfl
  cases inv.zero.symm.trans here

/-- The hart of a claimed interrupt goes on. -/
theorem Inv.moved (inv : Inv c s who) {irq : Nat} {i : η} {isr isr' : Isr} {u : Uart}
    (here : who irq = some (i, isr)) (fits : Fits c u (some isr')) :
    Inv c (s.moved i irq isr' u) (Function.update who irq (some (i, isr'))) := by
  have at_irq := (inv.core i irq isr).mpr here
  have positive := inv.ne_zero here
  refine ⟨fun j irq' p => ?_, ?_, fun irq' => ?_, fun irq' asked => ?_, fun n => ?_⟩
  · have before := inv.core j irq' p
    simp only [System.moved, Function.update_apply]
    grind
  · rw [Function.update_of_ne positive.symm]
    exact inv.zero
  · have before := inv.claimed irq'
    simp only [System.moved, Function.update_apply]
    grind
  · obtain ⟨positive', free⟩ := inv.pending irq' asked
    refine ⟨positive', ?_⟩
    rwa [Function.update_of_ne]
    rintro rfl
    cases free.symm.trans here
  · simp only [System.moved]
    rcases eq_or_ne n (irq - 1) with rfl | other
    · rw [Function.update_self, Nat.sub_add_cancel (Nat.pos_of_ne_zero positive),
        Function.update_self]
      exact fits
    · rw [Function.update_of_ne other, Function.update_of_ne (by omega)]
      exact inv.uart n

/-- A hart claims an interrupt. -/
theorem Inv.claims (inv : Inv c s who) {irq : Nat} {i : η} (idle : s.core i = .idle)
    (asked : s.pending irq = true) :
    Inv c (s.claim i irq) (Function.update who irq (some (i, .entered))) := by
  obtain ⟨positive, free⟩ := inv.pending irq asked
  refine ⟨fun j irq' p => ?_, ?_, fun irq' => ?_, fun irq' asked' => ?_, fun n => ?_⟩
  · have before := inv.core j irq' p
    simp only [System.claim, Function.update_apply]
    grind
  · rw [Function.update_of_ne positive.symm]
    exact inv.zero
  · have before := inv.claimed irq'
    simp only [System.claim, Function.update_apply]
    grind
  · have before := inv.pending irq'
    simp only [System.claim, Function.update_apply] at asked'
    grind [Function.update_apply]
  · have before := inv.uart n
    rcases eq_or_ne (n + 1) irq with rfl | other
    · rw [free] at before
      rw [Function.update_self]
      exact ⟨before.received, before.lock, nofun, before.room⟩
    · rwa [Function.update_of_ne other]

/-- A hart completes its interrupt. -/
theorem Inv.completes (inv : Inv c s who) {irq : Nat} {i : η}
    (here : who irq = some (i, .returned)) :
    Inv c (s.complete i irq) (Function.update who irq none) := by
  have at_irq := (inv.core i irq .returned).mpr here
  have positive := inv.ne_zero here
  refine ⟨fun j irq' p => ?_, ?_, fun irq' => ?_, fun irq' asked => ?_, fun n => ?_⟩
  · have before := inv.core j irq' p
    simp only [System.complete, Function.update_apply]
    grind
  · rw [Function.update_of_ne positive.symm]
    exact inv.zero
  · have before := inv.claimed irq'
    simp only [System.complete, Function.update_apply]
    grind
  · obtain ⟨positive', free⟩ := inv.pending irq' asked
    refine ⟨positive', ?_⟩
    grind [Function.update_apply]
  · have before := inv.uart n
    rcases eq_or_ne (n + 1) irq with rfl | other
    · rw [here] at before
      rw [Function.update_self]
      exact ⟨before.received, before.lock, nofun, before.room⟩
    · rwa [Function.update_of_ne other]

/-! ## Steps -/

/-- How many steps a handler has still to take, at most -/
def Isr.left : Isr → Nat
  | .entered => 6
  | .available => 5
  | .read _ => 4
  | .locked _ => 3
  | .pushed => 2
  | .returned => 1

omit [DecidableEq η] in
theorem Inv.fits (inv : Inv c s who) {irq : Nat} {i : η} {isr : Isr}
    (here : who irq = some (i, isr)) : Fits c (s.uart (irq - 1)) (some isr) := by
  have fits := inv.uart (irq - 1)
  rwa [Nat.sub_add_cancel (Nat.pos_of_ne_zero (inv.ne_zero here)), here] at fits

/-- What a handler does with its next access: it goes from `isr` to `isr'`, and leaves its UART as
`v`, which was `u`. -/
structure Goes (c : Setup η) (n : Nat) (u : Uart) (isr : Isr) (v : Uart) (isr' : Isr) : Prop where
  fits : Fits c v (some isr')
  left : isr'.left < isr.left
  arrived : v.arrived = u.arrived
  fifo : v.fifo.length ≤ u.fifo.length
  enters : isr = .entered → c.isUart n = true → u.fifo ≠ [] → isr' = .available
  takes : isr = .available → v.fifo.length < u.fifo.length

/-- A handler is never stuck: when it comes to the lock, nobody has it, and when it comes to the
FIFO, a character is there. -/
theorem step_next (inv : Inv c s who) {irq : Nat} {i : η} {isr : Isr}
    (here : who irq = some (i, isr)) (goes : isr ≠ .returned) (junk : UInt8) :
    ∃ isr' u, step c s (.next i junk) = some (s.moved i irq isr' u) ∧
      Goes c (irq - 1) (s.uart (irq - 1)) isr u isr' := by
  have at_irq := (inv.core i irq isr).mpr here
  obtain ⟨received, lock, waits, room⟩ := inv.fits here
  cases isr with
  | entered =>
    have same : BitVec.ofNat 32 (s.uart (irq - 1)).fifo.length ≠ 0 ↔
        (s.uart (irq - 1)).fifo ≠ [] := by
      have small := c.capacity.isLt
      rw [ne_eq, ← BitVec.toNat_inj, BitVec.toNat_ofNat, Nat.mod_eq_of_lt (by omega), ne_eq,
        ← List.length_eq_zero_iff]
      rfl
    simp only [step, at_irq, same]
    split
    · next some_waits =>
      exact ⟨_, _, rfl, ⟨received, lock, fun _ => some_waits.2, room⟩, by decide, rfl,
        Nat.le_refl _, fun _ _ _ => rfl, nofun⟩
    · next nothing =>
      exact ⟨_, _, rfl, ⟨received, lock, nofun, room⟩, by decide, rfl, Nat.le_refl _,
        fun _ uart waits => absurd ⟨uart, waits⟩ nothing, nofun⟩
  | available =>
    obtain ⟨ch, fifo, same⟩ := List.exists_cons_of_ne_nil (waits rfl)
    simp only [step, at_irq]
    rw [same] at received room ⊢
    refine ⟨_, _, rfl, ⟨?_, lock, nofun, ?_⟩, Nat.lt_succ_self 4, rfl, ?_, nofun, fun _ => ?_⟩
    · rw [← received]
      simp [Isr.held]
    · exact Nat.le_of_succ_le room
    · rw [same]
      exact Nat.le_succ _
    · rw [same]
      exact Nat.lt_succ_self _
  | read ch =>
    have free : (s.uart (irq - 1)).lock = false := lock
    simp only [step, at_irq]
    rw [if_pos free]
    exact ⟨_, _, rfl, ⟨received, rfl, nofun, room⟩, Nat.lt_succ_self 3, rfl, Nat.le_refl _, nofun,
      nofun⟩
  | locked ch =>
    simp only [step, at_irq]
    refine ⟨_, _, rfl, ⟨?_, lock, nofun, room⟩, Nat.lt_succ_self 2, rfl, Nat.le_refl _, nofun,
      nofun⟩
    rw [← received]
    simp [Isr.held]
  | pushed =>
    simp only [step, at_irq]
    exact ⟨_, _, rfl, ⟨received, rfl, nofun, room⟩, by decide, rfl, Nat.le_refl _, nofun, nofun⟩
  | returned => exact absurd rfl goes

/-- Every step keeps the invariant. -/
theorem inv_step {e : Event η} (inv : Inv c s who) (next : step c s e = some t) :
    ∃ who', Inv c t who' := by
  cases e with
  | arrive n ch =>
    simp only [step, Option.ite_none_right_eq_some, Option.some.injEq] at next
    rcases next with ⟨room, rfl⟩
    refine ⟨who, inv.core, inv.zero, inv.claimed, inv.pending, fun m => ?_⟩
    have before := inv.uart m
    rcases eq_or_ne m n with rfl | other
    · simp only [Function.update_self]
      refine ⟨?_, before.lock, fun waits => ?_, ?_⟩
      · rw [← before.received, List.append_assoc _ _ [ch]]
      · exact List.append_ne_nil_of_right_ne_nil _ (List.cons_ne_nil ch [])
      · rw [List.length_append]
        exact room
    · simp only [Function.update_of_ne other]
      exact before
  | request irq =>
    rw [step, Option.ite_none_right_eq_some, Option.some.injEq] at next
    rcases next with ⟨⟨positive, -, free⟩, rfl⟩
    refine ⟨who, inv.core, inv.zero, inv.claimed, fun irq' asked => ?_, inv.uart⟩
    rcases eq_or_ne irq' irq with rfl | other
    · rw [inv.claimed, Option.isSome_eq_false_iff, Option.isNone_iff_eq_none] at free
      exact ⟨positive, free⟩
    · simp only [Function.update_of_ne other] at asked
      exact inv.pending irq' asked
  | interrupt i irq =>
    rw [step, Option.ite_none_right_eq_some] at next
    rcases next with ⟨idle, next⟩
    split at next
    · cases next
      exact ⟨who, inv⟩
    · rw [Option.ite_none_right_eq_some, Option.some.injEq] at next
      rcases next with ⟨asked, rfl⟩
      exact ⟨_, inv.claims idle asked⟩
  | next i junk =>
    cases at_irq : s.core i with
    | idle => simp [step, at_irq] at next
    | handling irq isr =>
      have here := (inv.core i irq isr).mp at_irq
      by_cases goes : isr = .returned
      · subst goes
        simp only [step, at_irq, Option.some.injEq] at next
        subst next
        exact ⟨_, inv.completes here⟩
      · obtain ⟨isr', u, stepped, done⟩ := step_next inv here goes junk
        cases next.symm.trans stepped
        exact ⟨_, inv.moved here done.fits⟩

theorem Booted.run (booted : Booted s) (run : Run (Any (step c)) s t) : ∃ who, Inv c t who := by
  have kept : Keeps (Any (step c)) fun s => ∃ who, Inv c s who := by
    rintro s t ⟨who, inv⟩ ⟨e, -, next⟩
    exact inv_step inv next
  exact Run.keeps kept ⟨_, booted.inv⟩ run

/-! ## What the harts do -/

/-- In every run a claimed interrupt has one hart in its handler, and the others have none. -/
theorem plic_exclusive (booted : Booted s) (run : Run (Any (step c)) s t) (irq : Nat) :
    (∀ i j isr isr', t.core i = .handling irq isr → t.core j = .handling irq isr' → i = j) ∧
      (t.claimed irq = true ↔ ∃ i isr, t.core i = .handling irq isr) := by
  obtain ⟨who, inv⟩ := booted.run run
  refine ⟨fun i j isr isr' first second => ?_, ?_⟩
  · have same := ((inv.core i irq isr).mp first).symm.trans ((inv.core j irq isr').mp second)
    exact congrArg Prod.fst (Option.some.inj same)
  · rw [inv.claimed, Option.isSome_iff_exists]
    constructor
    · rintro ⟨⟨i, isr⟩, here⟩
      exact ⟨i, isr, (inv.core i irq isr).mpr here⟩
    · rintro ⟨i, isr, at_irq⟩
      exact ⟨_, (inv.core i irq isr).mp at_irq⟩

/-- In every run each UART has handed on the characters that came in, in their order and none twice,
up to one that is with a handler and those that wait in the FIFO. No handler reads from an empty
FIFO or waits for the lock. -/
theorem uart_received (booted : Booted s) (run : Run (Any (step c)) s t) (n : Nat) :
    (∃ flight, (t.uart n).handed ++ flight ++ (t.uart n).fifo = (t.uart n).arrived ∧
      flight.length ≤ 1 ∧ (flight ≠ [] → ∃ i isr, t.core i = .handling (n + 1) isr)) ∧
    ∀ i, (t.core i = .handling (n + 1) .available → (t.uart n).fifo ≠ []) ∧
      ∀ ch, t.core i = .handling (n + 1) (.read ch) → (t.uart n).lock = false := by
  obtain ⟨who, inv⟩ := booted.run run
  have fits := inv.uart n
  refine ⟨⟨_, fits.received, ?_, fun some_flies => ?_⟩, fun i => ⟨fun at_irq => ?_, ?_⟩⟩
  · rcases who (n + 1) with _ | ⟨i, _ | _ | _ | _ | _ | _⟩
    all_goals simp [Isr.held]
  · cases here : who (n + 1) with
    | none =>
      rw [here] at some_flies
      exact absurd rfl some_flies
    | some h => exact ⟨h.1, h.2, (inv.core ..).mpr here⟩
  · refine fits.waits ?_
    rw [(inv.core ..).mp at_irq]
    rfl
  · intro ch at_irq
    have lock := fits.lock
    rw [(inv.core ..).mp at_irq] at lock
    exact lock

/-! ## No character is stuck -/

/-- Hart `i` goes on and takes the interrupt of UART `n`. Of the other harts only one that is in the
handler of that interrupt goes on, and nothing comes in. -/
def Drains (i : η) (n : Nat) (s : System η) : Event η → Prop
  | .arrive .. => False
  | .request irq => irq = n + 1
  | .interrupt j irq => j = i ∧ irq = n + 1
  | .next j _ => j = i ∨ ∃ isr, s.core j = .handling (n + 1) isr

/-- The harts have gone on, and have not put anything into a FIFO. -/
structure Works (c : Setup η) (i : η) (n : Nat) (s t : System η) : Prop where
  run : Run (Taken (step c) (Drains i n)) s t
  arrived : ∀ n, (t.uart n).arrived = (s.uart n).arrived
  fifo : ∀ n, (t.uart n).fifo.length ≤ (s.uart n).fifo.length

variable {i : η} {n : Nat}

theorem Works.refl (s : System η) : Works c i n s s :=
  ⟨.refl, fun _ => rfl, fun _ => Nat.le_refl _⟩

theorem Works.trans {u : System η} (first : Works c i n s t) (second : Works c i n t u) :
    Works c i n s u :=
  ⟨first.run.trans second.run, fun n => (second.arrived n).trans (first.arrived n),
    fun n => Nat.le_trans (second.fifo n) (first.fifo n)⟩

omit [DecidableEq η] in
/-- A hart in a handler may go on. -/
theorem Inv.drains (inv : Inv c s who) {irq : Nat} {j : η} {isr : Isr}
    (here : who irq = some (j, isr)) (may : j = i ∨ irq = n + 1) (junk : UInt8) :
    Drains i n s (.next j junk) := by
  rcases may with own | of_uart
  · exact .inl own
  · exact .inr ⟨isr, (inv.core ..).mpr (of_uart ▸ here)⟩

/-- A step of a handler -/
theorem works_next (inv : Inv c s who) {irq : Nat} {j : η} {isr : Isr}
    (here : who irq = some (j, isr)) (goes : isr ≠ .returned) (may : j = i ∨ irq = n + 1) :
    ∃ isr' u, Works c i n s (s.moved j irq isr' u) ∧
      Inv c (s.moved j irq isr' u) (Function.update who irq (some (j, isr'))) ∧
      Goes c (irq - 1) (s.uart (irq - 1)) isr u isr' := by
  obtain ⟨isr', u, stepped, done⟩ := step_next inv here goes 0
  refine ⟨isr', u, ⟨.single ⟨.next j 0, inv.drains here may 0, stepped⟩, fun n => ?_, fun n => ?_⟩,
    inv.moved here done.fits, done⟩
  all_goals
    simp only [System.moved, Function.update_apply]
    split
  · next same => rw [done.arrived, same]
  · rfl
  · next same => rw [same]; exact done.fifo
  · exact Nat.le_refl _

/-- A handler comes to its end, and its interrupt is complete. -/
theorem works_finish (inv : Inv c s who) {irq : Nat} {j : η} {isr : Isr}
    (here : who irq = some (j, isr)) (may : j = i ∨ irq = n + 1) :
    ∃ t, Works c i n s t ∧ Inv c t (Function.update who irq none) := by
  induction steps : isr.left using Nat.strongRecOn generalizing s who isr with
  | ind left ih =>
  by_cases goes : isr = .returned
  · subst goes
    have stepped : step c s (.next j 0) = some (s.complete j irq) := by
      simp only [step, (inv.core ..).mpr here]
    exact ⟨_, ⟨.single ⟨.next j 0, inv.drains here may 0, stepped⟩, fun _ => rfl,
      fun _ => Nat.le_refl _⟩, inv.completes here⟩
  · obtain ⟨isr', u, works, inv', done⟩ := works_next inv here goes may
    obtain ⟨t, further, inv''⟩ :=
      ih isr'.left (steps ▸ done.left) inv' (Function.update_self ..) rfl
    rw [Function.update_idem] at inv''
    exact ⟨t, works.trans further, inv''⟩

/-- The controller takes the request of a UART. -/
theorem works_request (inv : Inv c s who) (free : who (n + 1) = none) :
    ∃ t, Works c i n s t ∧ Inv c t who ∧ t.pending (n + 1) = true ∧ t.uart = s.uart := by
  cases asked : s.pending (n + 1) with
  | true => exact ⟨s, .refl s, inv, asked, rfl⟩
  | false =>
    have positive : n + 1 ≠ 0 := Nat.succ_ne_zero n
    have unclaimed : s.claimed (n + 1) = false := by rw [inv.claimed, free, Option.isSome_none]
    refine ⟨{ s with pending := Function.update s.pending (n + 1) true },
      ⟨.single ⟨.request (n + 1), rfl, if_pos ⟨positive, asked, unclaimed⟩⟩, fun _ => rfl,
        fun _ => Nat.le_refl _⟩, ⟨inv.core, inv.zero, inv.claimed, fun irq' asked' => ?_, inv.uart⟩,
      Function.update_self .., rfl⟩
    rcases eq_or_ne irq' (n + 1) with rfl | other
    · exact ⟨positive, free⟩
    · simp only [Function.update_of_ne other] at asked'
      exact inv.pending irq' asked'

omit [DecidableEq η] in
/-- A hart that has no interrupt is not in `plic_interrupt`. -/
theorem Inv.idle (inv : Inv c s who) {i : η} (none : ∀ irq isr, who irq ≠ some (i, isr)) :
    s.core i = .idle := by
  cases at_irq : s.core i with
  | idle => rfl
  | handling irq isr => exact absurd ((inv.core i irq isr).mp at_irq) (none irq isr)

/-- A hart takes one character more. -/
theorem works_one (inv : Inv c s who) (context : c.context i = true)
    (uart : c.isUart n = true) (none : ∀ irq isr, who irq ≠ some (i, isr))
    (free : who (n + 1) = .none) (waits : (s.uart n).fifo ≠ []) :
    ∃ t, Works c i n s t ∧ Inv c t who ∧ (t.uart n).fifo.length < (s.uart n).fifo.length := by
  obtain ⟨a, asks, inv_a, asked, uart_a⟩ := works_request inv free
  have idle_a : a.core i = .idle := inv_a.idle none
  have inv_b := inv_a.claims idle_a asked
  have claims : step c a (.interrupt i (n + 1)) = some (a.claim i (n + 1)) := by
    rw [step, if_pos idle_a, if_neg (by simp [context]), if_pos asked]
  have works_b : Works c i n a (a.claim i (n + 1)) :=
    ⟨.single ⟨.interrupt i (n + 1), ⟨rfl, rfl⟩, claims⟩, fun _ => rfl, fun _ => Nat.le_refl _⟩
  have waits_b : ((a.claim i (n + 1)).uart n).fifo ≠ [] := by
    rw [← uart_a] at waits
    exact waits
  obtain ⟨isr', u, works_d, inv_d, enters⟩ :=
    works_next inv_b (Function.update_self ..) nofun (.inl rfl)
  obtain rfl := enters.enters rfl uart waits_b
  obtain ⟨isr'', v, works_e, inv_e, takes⟩ :=
    works_next inv_d (Function.update_self ..) nofun (.inl rfl)
  obtain ⟨t, works_t, inv_t⟩ := works_finish inv_e (Function.update_self ..) (.inl rfl)
  refine ⟨t, asks.trans (works_b.trans (works_d.trans (works_e.trans works_t))), ?_, ?_⟩
  · rwa [Function.update_idem, Function.update_idem, Function.update_idem, ← free,
      Function.update_eq_self] at inv_t
  · have first := (asks.trans (works_b.trans works_d)).fifo n
    have taken := takes.takes rfl
    have last := works_t.fifo n
    have here : (((a.claim i (n + 1)).moved i (n + 1) .available u).moved i (n + 1) isr'' v).uart n
        = v := Function.update_self ..
    rw [here] at last
    exact Nat.lt_of_le_of_lt last (Nat.lt_of_lt_of_le taken first)

/-- A hart takes all characters. -/
theorem works_all (inv : Inv c s who) (context : c.context i = true)
    (uart : c.isUart n = true) (none : ∀ irq isr, who irq ≠ some (i, isr))
    (free : who (n + 1) = .none) :
    ∃ t, Works c i n s t ∧ (t.uart n).handed = (s.uart n).arrived := by
  induction length : (s.uart n).fifo.length using Nat.strongRecOn generalizing s with
  | ind left ih =>
  by_cases nothing : (s.uart n).fifo = []
  · have received := (inv.uart n).received
    rw [free, nothing, List.append_nil] at received
    exact ⟨s, .refl s, (List.append_nil _).symm.trans received⟩
  · obtain ⟨t, works, inv', less⟩ := works_one inv context uart none free nothing
    obtain ⟨u, further, handed⟩ := ih _ (length ▸ less) inv' rfl
    exact ⟨u, works.trans further, handed.trans (works.arrived n)⟩

/-- A hart comes to the end of what it is at. -/
theorem works_leave (inv : Inv c s who) (i : η) (n : Nat) :
    ∃ t who', Works c i n s t ∧ Inv c t who' ∧ ∀ irq isr, who' irq ≠ some (i, isr) := by
  cases at_irq : s.core i with
  | idle =>
    refine ⟨s, who, .refl s, inv, fun irq isr here => ?_⟩
    cases at_irq.symm.trans ((inv.core ..).mpr here)
  | handling irq isr =>
    obtain ⟨t, works, inv'⟩ := works_finish inv ((inv.core ..).mp at_irq) (.inl rfl)
    refine ⟨t, _, works, inv', fun irq' isr' here => ?_⟩
    rcases eq_or_ne irq' irq with rfl | other
    · rw [Function.update_self] at here
      cases here
    · rw [Function.update_of_ne other] at here
      cases at_irq.symm.trans ((inv.core ..).mpr here)
      exact other rfl

/-- From every state of a run, a hart with a `plic_context` can do what is left to do, once the hart
that is in the handler of the UART, if there is one, has come to its end: all the characters that
have come in are handed on. -/
theorem uart_drains (booted : Booted s) (run : Run (Any (step c)) s t)
    (context : c.context i = true) (uart : c.isUart n = true) :
    ∃ u, Run (Taken (step c) (Drains i n)) t u ∧ (u.uart n).handed = (t.uart n).arrived := by
  obtain ⟨who, inv⟩ := booted.run run
  obtain ⟨a, who', leaves, inv_a, none⟩ := works_leave inv i n
  cases here : who' (n + 1) with
  | none =>
    obtain ⟨u, works, handed⟩ := works_all inv_a context uart none here
    exact ⟨u, (leaves.trans works).run, handed.trans (leaves.arrived n)⟩
  | some h =>
    -- another hart is in the handler of the UART
    obtain ⟨b, ends, inv_b⟩ := works_finish inv_a here (.inr rfl)
    have still : ∀ irq isr, Function.update who' (n + 1) .none irq ≠ some (i, isr) := by
      intro irq isr held
      rcases eq_or_ne irq (n + 1) with rfl | other
      · rw [Function.update_self] at held
        cases held
      · rw [Function.update_of_ne other] at held
        exact none irq isr held
    obtain ⟨u, works, handed⟩ := works_all inv_b context uart still (Function.update_self ..)
    exact ⟨u, (leaves.trans (ends.trans works)).run,
      handed.trans ((leaves.trans ends).arrived n)⟩

/-! ## Two harts -/

/-- Two harts, and a UART with the interrupt 0 of Linux -/
def twoHarts : Setup Bool := ⟨fun _ => true, fun n => n == 0, 16⟩

def quiet : System Bool :=
  ⟨fun _ => .idle, fun _ => ⟨[], false, [], []⟩, fun _ => false, fun _ => false⟩

theorem booted_quiet : Booted quiet :=
  ⟨fun _ => rfl, fun _ => rfl, fun _ => rfl, fun _ => rfl⟩

/-- Two characters come in. A hart has read the first and has the lock, and the other finds nothing
to claim. -/
def twoCharacters : List (Event Bool) :=
  [.arrive 0 65, .arrive 0 66, .request 1, .interrupt false 1, .next false 0, .next false 0,
    .next false 0, .interrupt true 0]

theorem run_twoCharacters : ∃ t, Run (Any (step twoHarts)) quiet t ∧
    t.core false = .handling 1 (.locked 65) ∧ (t.uart 0).fifo = [66] := by
  have leads : ∃ t, twoCharacters.foldlM (step twoHarts) quiet = some t ∧
      t.core false = .handling 1 (.locked 65) ∧ (t.uart 0).fifo = [66] := by
    refine ⟨_, rfl, ?_⟩
    decide
  rcases leads with ⟨t, leads, shown⟩
  exact ⟨t, Run.of_foldlM leads, shown⟩

theorem plic_exclusive_twoHarts : ∃ t : System Bool, t.core false = .handling 1 (.locked 65) ∧
    (∀ i j isr isr', t.core i = .handling 1 isr → t.core j = .handling 1 isr' → i = j) ∧
      (t.claimed 1 = true ↔ ∃ i isr, t.core i = .handling 1 isr) := by
  rcases run_twoCharacters with ⟨t, run, at_irq, -⟩
  exact ⟨t, at_irq, plic_exclusive booted_quiet run 1⟩

theorem uart_received_twoHarts : ∃ t : System Bool, (t.uart 0).fifo = [66] ∧
    (∃ flight, (t.uart 0).handed ++ flight ++ (t.uart 0).fifo = (t.uart 0).arrived ∧
      flight.length ≤ 1 ∧ (flight ≠ [] → ∃ i isr, t.core i = .handling 1 isr)) ∧
    ∀ i, (t.core i = .handling 1 .available → (t.uart 0).fifo ≠ []) ∧
      ∀ ch, t.core i = .handling 1 (.read ch) → (t.uart 0).lock = false := by
  rcases run_twoCharacters with ⟨t, run, -, fifo⟩
  exact ⟨t, fifo, uart_received booted_quiet run 0⟩

theorem uart_drains_twoHarts : ∃ t u : System Bool, (t.uart 0).fifo = [66] ∧
    Run (Taken (step twoHarts) (Drains true 0)) t u ∧
      (u.uart 0).handed = (t.uart 0).arrived := by
  rcases run_twoCharacters with ⟨t, run, -, fifo⟩
  obtain ⟨u, works, handed⟩ := uart_drains (i := true) (n := 0) booted_quiet run rfl rfl
  exact ⟨t, u, fifo, works, handed⟩

end RiscvLinux.Drivers.Plic
