import RiscvLinux.Lib.Run
import RiscvLinux.Trap.PtRegs

/-!
# Interrupts between harts

`send_ipi_message` and `handle_ipi` of `arch/riscv/kernel/smp.c`, and
`riscv_software_interrupt` of `irq.c`, as a system of any number of harts and any number of
senders (a sender is any thread of control that is in `send_ipi_message`), at the
granularity of single accesses to shared state: `set_bit` and `xchg` on a word of
`ipi_data`, `sbi_send_ipi` and `sbi_clear_ipi` on the pending interrupt of a hart.

A sender sets all its bits before it sends the first interrupt, and a handler clears the
interrupt before it takes the bits; `Covered` says why no bit is left behind.
-/

namespace RiscvLinux.Smp.Ipi

open Lib Trap

variable {x : XLen} {ι σ : Type*} [DecidableEq ι] [DecidableEq σ]

/-! ## States -/

/-- `enum ipi_message_type`. -/
inductive IpiMessageType
  | reschedule
  | callFunc
  deriving DecidableEq, Repr

def IpiMessageType.number : IpiMessageType → Nat
  | .reschedule => 0
  | .callFunc => 1

/-- `IPI_MAX`. -/
def ipiMax : Nat := 2

/-- `1 << operation`. -/
def bitMask (m : IpiMessageType) : Word x :=
  1 <<< m.number

/-- `ops & (1 << operation)`. -/
def Has (ops : Word x) (m : IpiMessageType) : Prop :=
  ops &&& bitMask m ≠ 0

instance (ops : Word x) (m : IpiMessageType) : Decidable (Has ops m) :=
  inferInstanceAs (Decidable (_ ≠ _))

/-- The messages in the order in which `handle_ipi` looks for them. -/
def messages : List IpiMessageType :=
  [.reschedule, .callFunc]

/-- Where a hart is in its software interrupt. -/
inductive Handler (x : XLen)
  /-- Not in it. -/
  | idle
  /-- The trap is taken; `sbi_clear_ipi` comes next. -/
  | entered
  /-- The `xchg` comes next. -/
  | looping
  /-- The callbacks of these messages are still to be looked at, and then the `BUG_ON`. -/
  | running (ops : Word x) (left : List IpiMessageType)
  /-- `BUG()`, of `riscv_software_interrupt` or of the `BUG_ON`. -/
  | bug
  deriving DecidableEq

/-- A hart: its word of `ipi_data`, its pending software interrupt, and where its handler is.
The two counters say how often a bit was cleared and how often its callback was run. -/
structure Cpu (x : XLen) where
  bits : Word x
  pending : Bool
  handler : Handler x
  cleared : IpiMessageType → Nat
  ran : IpiMessageType → Nat

/-- Where a sender is in `send_ipi_message`: in its first loop, with what is left of the mask
and the mask, or in its second. -/
inductive Send (ι : Type*)
  | idle
  | setting (operation : IpiMessageType) (left whom : List ι)
  | sending (left : List ι)

/-- All harts and senders. -/
structure System (x : XLen) (ι σ : Type*) where
  cpus : ι → Cpu x
  send : σ → Send ι

def System.putCpu (s : System x ι σ) (i : ι) (c : Cpu x) : System x ι σ :=
  { s with cpus := Function.update s.cpus i c }

def System.putSend (s : System x ι σ) (k : σ) (p : Send ι) : System x ι σ :=
  { s with send := Function.update s.send k p }

section Put

variable {s : System x ι σ}

omit [DecidableEq σ] in
@[simp] theorem System.putCpu_self (i : ι) (c : Cpu x) : (s.putCpu i c).cpus i = c :=
  Function.update_self ..

omit [DecidableEq σ] in
theorem System.putCpu_of_ne {i j : ι} (differ : j ≠ i) (c : Cpu x) :
    (s.putCpu i c).cpus j = s.cpus j :=
  Function.update_of_ne differ ..

omit [DecidableEq ι] in
@[simp] theorem System.putSend_self (k : σ) (p : Send ι) : (s.putSend k p).send k = p :=
  Function.update_self ..

omit [DecidableEq ι] in
theorem System.putSend_of_ne {k k' : σ} (differ : k' ≠ k) (p : Send ι) :
    (s.putSend k p).send k' = s.send k' :=
  Function.update_of_ne differ ..

end Put

/-! ## Steps -/

/-- What can happen: a sender starts or goes on, and a hart takes the interrupt or its handler
goes on. -/
inductive Event (ι σ : Type*)
  | send (k : σ) (operation : IpiMessageType) (whom : List ι)
  | sender (k : σ)
  | trap (i : ι)
  | handler (i : ι)

/-- `set_bit(operation, &ipi_data[i].bits)`. -/
def Cpu.setBit (c : Cpu x) (operation : IpiMessageType) : Cpu x :=
  { c with bits := c.bits ||| bitMask operation }

/-- `sbi_send_ipi`. -/
def Cpu.sendIpi (c : Cpu x) : Cpu x :=
  { c with pending := true }

/-- The next step of `send_ipi_message`. -/
def sendIpiMessage (s : System x ι σ) (k : σ) : Option (System x ι σ) :=
  match s.send k with
  | .idle => none
  | .setting _ [] whom => some (s.putSend k (.sending whom))
  | .setting operation (i :: left) whom =>
    some ((s.putCpu i ((s.cpus i).setBit operation)).putSend k (.setting operation left whom))
  | .sending [] => some (s.putSend k .idle)
  | .sending (i :: left) => some ((s.putCpu i (s.cpus i).sendIpi).putSend k (.sending left))

/-- The next step of `riscv_software_interrupt` and the `handle_ipi` it calls. -/
def handleIpi (c : Cpu x) : Option (Cpu x) :=
  match c.handler with
  | .idle | .bug => none
  -- `if (!sbi_clear_ipi()) return IRQ_NONE;` and the caller's `BUG()`
  | .entered => some { c with pending := false, handler := if c.pending then .looping else .bug }
  -- `while ((ops = xchg(pending_ipis, 0)) != 0)`
  | .looping =>
    some { c with
      bits := 0
      handler := if c.bits ≠ 0 then .running c.bits messages else .idle
      cleared := fun m => c.cleared m + if Has c.bits m then 1 else 0 }
  | .running ops (m :: left) =>
    some { c with
      handler := .running ops left
      ran := Function.update c.ran m (c.ran m + if Has ops m then 1 else 0) }
  -- `BUG_ON((ops >> IPI_MAX) != 0);`
  | .running ops [] => some { c with handler := if ops >>> ipiMax ≠ 0 then .bug else .looping }

/-- One step; `none` when it cannot happen. -/
def step (s : System x ι σ) : Event ι σ → Option (System x ι σ)
  | .send k operation whom =>
    match s.send k with
    | .idle => some (s.putSend k (.setting operation whom whom))
    | _ => none
  | .sender k => sendIpiMessage s k
  | .trap i =>
    if (s.cpus i).pending ∧ (s.cpus i).handler = .idle then
      some (s.putCpu i { s.cpus i with handler := .entered })
    else none
  | .handler i => (handleIpi (s.cpus i)).map (s.putCpu i)

/-- No bit set, nobody sending, no hart in the interrupt. An interrupt may be pending. -/
structure Boot (s : System x ι σ) : Prop where
  bits : ∀ i, (s.cpus i).bits = 0
  handler : ∀ i, (s.cpus i).handler = .idle
  counters : ∀ i m, (s.cpus i).cleared m = 0 ∧ (s.cpus i).ran m = 0
  send : ∀ k, s.send k = .idle

/-! ## What keeps a message -/

/-- The harts that a sender has still to send an interrupt to. -/
def Send.yetToSend : Send ι → List ι
  | .idle => []
  | .setting _ _ whom => whom
  | .sending left => left

/-- The handler has yet to do its final `xchg`. -/
def Handler.YetToXchg : Handler x → Prop
  | .looping | .running .. => True
  | _ => False

/-- Every set bit is covered by a pending interrupt, by a handler that has yet to do its final
`xchg`, or by a sender that has still to send to the hart. -/
def Covered (s : System x ι σ) : Prop :=
  ∀ i m, Has (s.cpus i).bits m →
    (s.cpus i).pending = true ∨ (s.cpus i).handler.YetToXchg ∨ ∃ k, i ∈ (s.send k).yetToSend

/-- How many callbacks of a message the handler has still to run. -/
def Handler.owes : Handler x → IpiMessageType → Nat
  | .running ops left, m => if Has ops m then left.count m else 0
  | _, _ => 0

/-- The messages whose callbacks the handler has still to look at. -/
def Handler.left : Handler x → List IpiMessageType
  | .running _ left => left
  | _ => []

/-- The handler has not met a bit that no message has, and has no more callbacks to look at than
there are messages. -/
def Handler.Sound : Handler x → Prop
  | .running ops left => ops >>> ipiMax = 0 ∧ left.length ≤ messages.length
  | .bug => False
  | _ => True

/-- A hart in order: only message bits, an interrupt pending when its handler starts, and every
cleared bit accounted for. -/
structure Cpu.Sound (c : Cpu x) : Prop where
  bits : c.bits >>> ipiMax = 0
  handler : c.handler.Sound
  raised : c.handler = .entered → c.pending = true
  ledger : ∀ m, c.cleared m = c.ran m + c.handler.owes m

/-- A sender sets bits only of harts that it will send to. -/
def Send.Sound : Send ι → Prop
  | .setting _ left whom => ∀ i ∈ left, i ∈ whom
  | _ => True

/-- What holds in every state that is reached. -/
structure Invariant (s : System x ι σ) : Prop where
  cpu : ∀ i, (s.cpus i).Sound
  send : ∀ k, (s.send k).Sound
  covered : Covered s

/-! ## Bits -/

theorem not_has_zero (m : IpiMessageType) : ¬ Has (0 : Word x) m := by
  rw [Has, BitVec.ofNat_eq_ofNat, BitVec.zero_and]
  exact not_not_intro rfl

theorem bitMask_known (m : IpiMessageType) : (bitMask m : Word x) >>> ipiMax = 0 := by
  cases m <;> cases x <;> decide

/-- Setting the bit of a message sets no other bit. -/
theorem known_setBit {ops : Word x} (known : ops >>> ipiMax = 0) (m : IpiMessageType) :
    (ops ||| bitMask m) >>> ipiMax = 0 := by
  rw [BitVec.ushiftRight_or_distrib, known, bitMask_known]
  exact BitVec.or_self

/-! ## The handler -/

variable {c c' : Cpu x}

/-- A callback that the handler looks at is run if it is owed. -/
theorem handleIpi_running {ops : Word x} {m : IpiMessageType} {left : List IpiMessageType}
    (running : c.handler = .running ops (m :: left)) (next : handleIpi c = some c')
    (m' : IpiMessageType) :
    c'.ran m' + c'.handler.owes m' = c.ran m' + c.handler.owes m' ∧ c'.handler.left = left := by
  rw [handleIpi, running] at next
  cases next
  refine ⟨?_, rfl⟩
  simp only [running, Handler.owes]
  rcases eq_or_ne m' m with rfl | differ
  · rw [Function.update_self, List.count_cons_self]
    split <;> omega
  · rw [Function.update_of_ne differ, List.count_cons_of_ne differ.symm]

/-- A step of the handler leaves the hart in order, and either no bit is set after it or the
handler has yet to do its final `xchg`. -/
theorem handleIpi_sound (sound : c.Sound) (next : handleIpi c = some c') :
    c'.Sound ∧ (c'.bits = 0 ∨ c'.handler.YetToXchg) := by
  rcases sound with ⟨known, handler, raised, ledger⟩
  have whole := next
  rw [handleIpi] at next
  split at next
  · cases next
  · cases next
  · rename_i entered
    rw [entered] at ledger
    rw [if_pos (raised entered)] at next
    cases next
    exact ⟨⟨known, trivial, nofun, ledger⟩, .inr trivial⟩
  · rename_i looping
    rw [looping] at ledger
    have paid : ∀ m, c.cleared m = c.ran m := ledger
    cases next
    by_cases empty : c.bits = 0
    · rw [if_neg (not_not_intro empty)]
      refine ⟨⟨BitVec.zero_ushiftRight, trivial, nofun, fun m => ?_⟩, .inl rfl⟩
      simp only [empty, if_neg (not_has_zero m), Nat.add_zero, paid m, Handler.owes]
    · rw [if_pos empty]
      refine ⟨⟨BitVec.zero_ushiftRight, ⟨known, Nat.le_refl _⟩, nofun, fun m => ?_⟩, .inr trivial⟩
      have once : messages.count m = 1 := by cases m <;> rfl
      simp only [Handler.owes, once, paid m]
  · rename_i ops m left running
    have paid : ∀ m', c'.ran m' + c'.handler.owes m' = c.ran m' + c.handler.owes m' :=
      fun m' => (handleIpi_running running whole m').1
    rw [running] at handler
    cases next
    exact ⟨⟨known, ⟨handler.1, Nat.le_of_succ_le handler.2⟩, nofun,
      fun m' => (ledger m').trans (paid m').symm⟩, .inr trivial⟩
  · rename_i ops running
    rw [running] at ledger handler
    have handler : ops >>> ipiMax = 0 := handler.1
    rw [if_neg (not_not_intro handler)] at next
    cases next
    refine ⟨⟨known, trivial, nofun, fun m => ?_⟩, .inr trivial⟩
    rw [ledger m]
    simp only [Handler.owes, List.count_nil, ite_self]

/-! ## One step -/

variable {s t : System x ι σ}

omit [DecidableEq σ] in
/-- After a change of one hart only its bits are to be looked at. -/
theorem covered_putCpu (covered : Covered s) (i : ι)
    (here : ∀ m, Has c.bits m →
      c.pending = true ∨ c.handler.YetToXchg ∨ ∃ k, i ∈ (s.send k).yetToSend) :
    Covered (s.putCpu i c) := by
  intro j m set
  rcases eq_or_ne j i with rfl | differ
  · rw [System.putCpu_self] at set ⊢
    exact here m set
  · rw [System.putCpu_of_ne differ] at set ⊢
    exact covered j m set

omit [DecidableEq ι] in
/-- A sender may forget the harts that have an interrupt pending. -/
theorem covered_putSend (covered : Covered s) {k : σ} {p : Send ι}
    (keeps : ∀ i ∈ (s.send k).yetToSend, i ∈ p.yetToSend ∨ (s.cpus i).pending = true) :
    Covered (s.putSend k p) := by
  intro i m set
  rcases covered i m set with pending | yet | ⟨k', member⟩
  · exact .inl pending
  · exact .inr (.inl yet)
  · rcases eq_or_ne k' k with rfl | differ
    · rcases keeps i member with still | pending
      · exact .inr (.inr ⟨k', by rwa [System.putSend_self]⟩)
      · exact .inl pending
    · exact .inr (.inr ⟨k', by rwa [System.putSend_of_ne differ]⟩)

omit [DecidableEq σ] in
theorem Invariant.putCpu (inv : Invariant s) {i : ι} (sound : c.Sound)
    (here : ∀ m, Has c.bits m →
      c.pending = true ∨ c.handler.YetToXchg ∨ ∃ k, i ∈ (s.send k).yetToSend) :
    Invariant (s.putCpu i c) := by
  refine ⟨fun j => ?_, inv.send, covered_putCpu inv.covered i here⟩
  rcases eq_or_ne j i with rfl | differ
  · rwa [System.putCpu_self]
  · rw [System.putCpu_of_ne differ]
    exact inv.cpu j

omit [DecidableEq ι] in
theorem Invariant.putSend (inv : Invariant s) {k : σ} {p : Send ι} (sound : p.Sound)
    (keeps : ∀ i ∈ (s.send k).yetToSend, i ∈ p.yetToSend ∨ (s.cpus i).pending = true) :
    Invariant (s.putSend k p) := by
  refine ⟨inv.cpu, fun k' => ?_, covered_putSend inv.covered keeps⟩
  rcases eq_or_ne k' k with rfl | differ
  · rwa [System.putSend_self]
  · rw [System.putSend_of_ne differ]
    exact inv.send k'

/-- A step of a sender keeps the invariant. -/
theorem sendIpiMessage_invariant {k : σ} (inv : Invariant s)
    (next : sendIpiMessage s k = some t) : Invariant t := by
  rw [sendIpiMessage] at next
  split at next
  · cases next
  · rename_i operation whom here
    cases next
    refine inv.putSend trivial fun i member => .inl ?_
    rwa [here] at member
  · rename_i operation i left whom here
    cases next
    have sound := inv.send k
    rw [here] at sound
    have inside : i ∈ whom := sound i List.mem_cons_self
    have set : Invariant (s.putCpu i ((s.cpus i).setBit operation)) := by
      obtain ⟨known, handler, raised, ledger⟩ := inv.cpu i
      refine inv.putCpu ⟨known_setBit known operation, handler, raised, ledger⟩ fun m _ => ?_
      refine .inr (.inr ⟨k, ?_⟩)
      rwa [here]
    refine set.putSend (fun j member => sound j (List.mem_cons_of_mem i member)) ?_
    intro j member
    have member : j ∈ (s.send k).yetToSend := member
    rw [here] at member
    exact .inl member
  · cases next
    rename_i here
    refine inv.putSend trivial fun i member => ?_
    rw [here] at member
    cases member
  · rename_i i left here
    cases next
    have sent : Invariant (s.putCpu i (s.cpus i).sendIpi) := by
      obtain ⟨known, handler, -, ledger⟩ := inv.cpu i
      exact inv.putCpu ⟨known, handler, fun _ => rfl, ledger⟩ fun m _ => .inl rfl
    refine sent.putSend trivial fun j member => ?_
    have member : j ∈ (s.send k).yetToSend := member
    rw [here] at member
    rcases List.mem_cons.mp member with rfl | later
    · refine .inr ?_
      rw [System.putCpu_self, Cpu.sendIpi]
    · exact .inl later

/-- Every step keeps the invariant. -/
theorem invariant_kept : Keeps (Any step) (Invariant (x := x) (ι := ι) (σ := σ)) := by
  intro s t inv taken
  rcases taken with ⟨e, -, next⟩
  cases e with
  | send k operation whom =>
    rw [step] at next
    split at next
    · rename_i idle
      cases next
      refine inv.putSend (fun i member => member) fun i member => ?_
      rw [idle] at member
      cases member
    · cases next
  | sender k => exact sendIpiMessage_invariant inv next
  | trap i =>
    rw [step] at next
    split at next
    · rename_i raised
      cases next
      obtain ⟨known, -, -, ledger⟩ := inv.cpu i
      rw [raised.2] at ledger
      exact inv.putCpu ⟨known, trivial, fun _ => raised.1, ledger⟩ fun m _ => .inl raised.1
    · cases next
  | handler i =>
    rw [step, Option.map_eq_some_iff] at next
    rcases next with ⟨c, moves, rfl⟩
    obtain ⟨sound, empty | yet⟩ := handleIpi_sound (inv.cpu i) moves
    · refine inv.putCpu sound fun m set => ?_
      rw [empty] at set
      exact (not_has_zero m set).elim
    · exact inv.putCpu sound fun m _ => .inr (.inl yet)

/-! ## Runs -/

omit [DecidableEq ι] [DecidableEq σ] in
theorem Boot.invariant (boot : Boot s) : Invariant s := by
  refine ⟨fun i => ⟨?_, ?_, ?_, fun m => ?_⟩, fun k => ?_, fun i m set => ?_⟩
  · rw [boot.bits]
    exact BitVec.zero_ushiftRight
  · rw [boot.handler]
    trivial
  · rw [boot.handler]
    nofun
  · rw [boot.handler, (boot.counters i m).1, (boot.counters i m).2]
    rfl
  · rw [boot.send]
    trivial
  · rw [boot.bits] at set
    exact (not_has_zero m set).elim

/-- The handler takes back neither a bit that was counted nor a callback. -/
theorem handleIpi_counts_le (next : handleIpi c = some c') (m : IpiMessageType) :
    c.cleared m ≤ c'.cleared m ∧ c.ran m ≤ c'.ran m := by
  rw [handleIpi] at next
  split at next
  · cases next
  · cases next
  · cases next
    exact ⟨Nat.le_refl _, Nat.le_refl _⟩
  · cases next
    exact ⟨Nat.le_add_right .., Nat.le_refl _⟩
  · rename_i ops m' left running
    cases next
    refine ⟨Nat.le_refl _, ?_⟩
    dsimp only
    rcases eq_or_ne m m' with rfl | differ
    · rw [Function.update_self]
      exact Nat.le_add_right ..
    · rw [Function.update_of_ne differ]
  · cases next
    exact ⟨Nat.le_refl _, Nat.le_refl _⟩

/-- Between two steps of its handler a hart keeps its counts, and takes at most a trap. -/
structure Cpu.Waits (c c' : Cpu x) : Prop where
  cleared : c'.cleared = c.cleared
  ran : c'.ran = c.ran
  handler : c'.handler = c.handler ∨ c.handler = .idle

theorem Cpu.Waits.refl (c : Cpu x) : c.Waits c := ⟨rfl, rfl, .inl rfl⟩

omit [DecidableEq σ] in
theorem waits_putCpu {i : ι} (waits : (s.cpus i).Waits c) (j : ι) :
    (s.cpus j).Waits ((s.putCpu i c).cpus j) := by
  rcases eq_or_ne j i with rfl | differ
  · rwa [System.putCpu_self]
  · rw [System.putCpu_of_ne differ]
    exact .refl _

/-- The event is a step of the handler of a hart. -/
def Event.handles (i : ι) : Event ι σ → Bool
  | .handler j => decide (j = i)
  | _ => false

/-- What a step does to a hart. -/
theorem step_cpus {e : Event ι σ} (next : step s e = some t) (j : ι) :
    (e.handles j = true ∧ handleIpi (s.cpus j) = some (t.cpus j)) ∨
      (e.handles j = false ∧ (s.cpus j).Waits (t.cpus j)) := by
  cases e with
  | send k operation whom =>
    rw [step] at next
    split at next
    · cases next
      exact .inr ⟨rfl, .refl _⟩
    · cases next
  | sender k =>
    rw [step, sendIpiMessage] at next
    refine .inr ⟨rfl, ?_⟩
    split at next
    · cases next
    · cases next
      exact .refl _
    · rename_i operation i left whom _
      cases next
      have waits : (s.cpus i).Waits ((s.cpus i).setBit operation) := ⟨rfl, rfl, .inl rfl⟩
      exact waits_putCpu waits j
    · cases next
      exact .refl _
    · rename_i i left _
      cases next
      have waits : (s.cpus i).Waits (s.cpus i).sendIpi := ⟨rfl, rfl, .inl rfl⟩
      exact waits_putCpu waits j
  | trap i =>
    rw [step] at next
    split at next
    · rename_i raised
      cases next
      have waits : (s.cpus i).Waits { s.cpus i with handler := .entered } :=
        ⟨rfl, rfl, .inr raised.2⟩
      exact .inr ⟨rfl, waits_putCpu waits j⟩
    · cases next
  | handler i =>
    rw [step, Option.map_eq_some_iff] at next
    rcases next with ⟨c, moves, rfl⟩
    rcases eq_or_ne j i with rfl | differ
    · rw [System.putCpu_self]
      exact .inl ⟨decide_eq_true rfl, moves⟩
    · rw [System.putCpu_of_ne differ]
      exact .inr ⟨decide_eq_false differ.symm, .refl _⟩

/-- No count goes down. -/
theorem counts_kept (n : Nat) (j : ι) (m : IpiMessageType) :
    Keeps (Any step) (fun s : System x ι σ => n ≤ (s.cpus j).cleared m) ∧
      Keeps (Any step) fun s : System x ι σ => n ≤ (s.cpus j).ran m := by
  have grows : ∀ {s t : System x ι σ}, Any step s t →
      (s.cpus j).cleared m ≤ (t.cpus j).cleared m ∧ (s.cpus j).ran m ≤ (t.cpus j).ran m := by
    intro s t taken
    rcases taken with ⟨e, -, next⟩
    rcases step_cpus next j with ⟨-, moves⟩ | ⟨-, waits⟩
    · exact handleIpi_counts_le moves m
    · rw [waits.cleared, waits.ran]
      exact ⟨Nat.le_refl _, Nat.le_refl _⟩
  exact ⟨fun _ _ least taken => Nat.le_trans least (grows taken).1,
    fun _ _ least taken => Nat.le_trans least (grows taken).2⟩

theorem owes_of_left (handler : Handler x) (none : handler.left = []) (m : IpiMessageType) :
    handler.owes m = 0 := by
  cases handler with
  | running ops left =>
    obtain rfl : left = [] := none
    exact ite_self 0
  | idle | entered | looping | bug => rfl

/-- After as many steps of the handler as it has callbacks to look at, what it owed has been run. -/
theorem callbacks_run {events : List (Event ι σ)} {n : Nat} {i : ι} {m : IpiMessageType}
    (run : events.foldlM step s = some t)
    (owed : n ≤ (s.cpus i).ran m + (s.cpus i).handler.owes m)
    (enough : (s.cpus i).handler.left.length ≤ events.countP (Event.handles i)) :
    n ≤ (t.cpus i).ran m := by
  induction events generalizing s with
  | nil =>
    cases run
    have none := List.eq_nil_of_length_eq_zero (Nat.le_zero.mp enough)
    rwa [owes_of_left _ none] at owed
  | cons e events ih =>
    by_cases none : (s.cpus i).handler.left = []
    · rw [owes_of_left _ none] at owed
      exact Run.keeps (counts_kept n i m).2 owed (Run.of_foldlM run)
    · rw [List.foldlM_cons, Option.bind_eq_bind, Option.bind_eq_some_iff] at run
      rcases run with ⟨u, next, later⟩
      rcases step_cpus next i with ⟨here, moves⟩ | ⟨other, waits⟩
      · rw [List.countP_cons_of_pos here] at enough
        cases handler : (s.cpus i).handler with
        | running ops left =>
          cases left with
          | nil => exact absurd (by rw [handler]; rfl) none
          | cons m' left =>
            obtain ⟨same, rest⟩ := handleIpi_running handler moves m
            refine ih later (same ▸ owed) ?_
            rw [handler] at enough
            rw [rest]
            exact Nat.le_of_succ_le_succ enough
        | idle | entered | looping | bug => exact absurd (by rw [handler]; rfl) none
      · rw [List.countP_cons_of_neg (by rw [other]; exact Bool.false_ne_true)] at enough
        have same : (u.cpus i).handler = (s.cpus i).handler :=
          waits.handler.resolve_right fun idle => none (by rw [idle]; rfl)
        refine ih later ?_ (same ▸ enough)
        rwa [waits.ran, same]

/-- A handler that has not come to `BUG()` can go on. -/
theorem handleIpi_isSome (entered : c.handler ≠ .idle) (sound : c.Sound) :
    (handleIpi c).isSome := by
  have alive : c.handler ≠ .bug := fun bug => by
    have handler := sound.handler
    rwa [bug] at handler
  rw [handleIpi]
  split
  · rename_i idle
    exact (entered idle).elim
  · rename_i bug
    exact (alive bug).elim
  all_goals rfl

/-- In every state that is reached each set bit is covered; no hart has come to `BUG()`; the
bits cleared on a hart are those whose callback was run and those whose callback its handler has
still to run; a handler can go on until it returns; and whatever happens from there on, when the
handler has made as many steps as there are messages, or has returned, the callback of every bit
cleared before was run. -/
theorem nothing_lost (boot : Boot s) (run : Run (Any step) s t) :
    Covered t ∧ (∀ i, (t.cpus i).handler ≠ .bug)
      ∧ (∀ i m, (t.cpus i).cleared m = (t.cpus i).ran m + (t.cpus i).handler.owes m)
      ∧ (∀ i, (t.cpus i).handler ≠ .idle → (handleIpi (t.cpus i)).isSome)
      ∧ ∀ u i m (events : List (Event ι σ)), events.foldlM step t = some u →
          messages.length ≤ events.countP (Event.handles i) ∨ (u.cpus i).handler = .idle →
          (t.cpus i).cleared m ≤ (u.cpus i).ran m := by
  have inv : Invariant t := Run.keeps invariant_kept boot.invariant run
  refine ⟨inv.covered, fun i bug => ?_, fun i => (inv.cpu i).ledger,
    fun i entered => handleIpi_isSome entered (inv.cpu i), fun u i m events more far => ?_⟩
  · have handler := (inv.cpu i).handler
    rwa [bug] at handler
  · rcases far with enough | returned
    · refine callbacks_run more (Nat.le_of_eq ((inv.cpu i).ledger m)) (Nat.le_trans ?_ enough)
      have handler := (inv.cpu i).handler
      cases here : (t.cpus i).handler with
      | running ops left =>
        rw [here] at handler
        exact handler.2
      | idle | entered | looping | bug => exact Nat.zero_le _
    · have later : Invariant u := Run.keeps invariant_kept inv (Run.of_foldlM more)
      have least := Run.keeps (counts_kept _ i m).1 (Nat.le_refl ((t.cpus i).cleared m))
        (Run.of_foldlM more)
      have ledger := (later.cpu i).ledger m
      rw [returned] at ledger
      exact Nat.le_trans least (Nat.le_of_eq ledger)

/-- One hart and one sender after boot. -/
def booted : System .rv64 Unit Unit :=
  ⟨fun _ => ⟨0, false, .idle, fun _ => 0, fun _ => 0⟩, fun _ => .idle⟩

/-- The sender sends a message, and the hart takes the interrupt and the bit. -/
def oneMessage : List (Event Unit Unit) :=
  [.send () .callFunc [()], .sender (), .sender (), .sender (), .trap (), .handler (), .handler ()]

/-- The handler then runs the callback. -/
theorem nothing_lost_oneMessage :
    ∃ t u, oneMessage.foldlM step booted = some t ∧
      [.handler (), .handler ()].foldlM step t = some u ∧
      (t.cpus ()).cleared .callFunc = 1 ∧ (t.cpus ()).ran .callFunc = 0 ∧
      1 ≤ (u.cpus ()).ran .callFunc := by
  have boot : Boot booted := ⟨fun _ => rfl, fun _ => rfl, fun _ _ => ⟨rfl, rfl⟩, fun _ => rfl⟩
  refine ⟨_, _, rfl, rfl, rfl, rfl, ?_⟩
  obtain ⟨-, -, -, -, runs⟩ := nothing_lost boot
    (Run.of_foldlM (show oneMessage.foldlM step booted = some _ from rfl))
  exact runs _ () .callFunc [.handler (), .handler ()] rfl (.inl (Nat.le_refl 2))

end RiscvLinux.Smp.Ipi
