import Mathlib.Logic.Function.Basic
import RiscvLinux.Lib.Run
import RiscvLinux.Trap.PtRegs

/-!
# Transmitting on the Frenox Ethernet device

`frenox_eth_xmit` of `arch/riscv/drivers/frenox_eth.c`, access by access, and the transmit side of
the device, which puts the bytes of its buffer on the wire one at a time while it is busy. The
network stack has one call at a time.

`xmit_sends` says that the frames on the wire are those that the driver was given, in their order
and with their bytes, and `xmit_finishes` that every frame gets there.
-/

namespace RiscvLinux.Drivers.FrenoxEth.Transmit

open Lib Trap

variable {x : XLen}

/-! ## The device -/

/-- `FRENOX_ETH_MAPPING_TX_BUFFER_SIZE` -/
def txBufferSize : Nat := 0x800

/-- A frame to send, which the buffer has room for -/
structure Skb where
  data : List UInt8
  fits : data.length ≤ txBufferSize
  deriving DecidableEq

/-- The transmit side of the device: its buffer, `TX_LEN`, the next byte to send while it is busy,
what it has sent of the frame, and the frames before -/
structure Device where
  txBuffer : Nat → UInt8
  txLen : BitVec 32
  sending : Option Nat
  frame : List UInt8
  wire : List (List UInt8)

/-- `TX_BUSY` -/
def Device.txBusy (d : Device) : BitVec 32 :=
  if d.sending.isSome then 1 else 0

/-- A write to `TX_SEND_NOW`. The device starts over if it is busy. -/
def Device.txSendNow (d : Device) : Device :=
  { d with sending := some 0, frame := [] }

/-- The device puts the next byte on the wire, or is at the end of the frame. -/
def Device.transmit (d : Device) : Option Device :=
  d.sending.map fun k =>
    if k < d.txLen.toNat then
      { d with sending := some (k + 1), frame := d.frame ++ [d.txBuffer k] }
    else { d with sending := none, frame := [], wire := d.wire ++ [d.frame] }

/-! ## The driver -/

/-- Where a call of `frenox_eth_xmit` is, with its `skb` -/
inductive Xmit
  | idle
  | wait (skb : Skb)
  | check (skb : Skb)
  | copy (skb : Skb) (i : Nat)
  | length (skb : Skb)
  | send (skb : Skb)
  deriving DecidableEq

/-- `dev->stats` -/
structure Stats (x : XLen) where
  txPackets : Word x
  txBytes : Word x
  txDropped : Word x

/-- The device, the driver, and the frames that `NETDEV_TX_OK` was returned for -/
structure Eth (x : XLen) where
  device : Device
  xmit : Xmit
  stats : Stats x
  sent : List Skb

/-- The counters after one frame more -/
def Stats.sent (s : Stats x) (skb : Skb) : Stats x :=
  { s with
    txPackets := s.txPackets + 1
    txBytes := s.txBytes + BitVec.ofNat x.bits skb.data.length }

/-- The network stack calls `frenox_eth_xmit`, the call does its next access, or the device goes
on. -/
inductive Event
  | call (skb : Skb)
  | next
  | transmit

/-- The next access of a call -/
def Eth.next (s : Eth x) : Option (Eth x) :=
  match s.xmit with
  | .idle => none
  | .wait skb => some (if s.device.txBusy ≠ 0 then s else { s with xmit := .check skb })
  | .check skb =>
    if s.device.txBusy ≠ 0 then
      -- `NETDEV_TX_BUSY`
      some { s with xmit := .idle, stats := { s.stats with txDropped := s.stats.txDropped + 1 } }
    else some { s with xmit := .copy skb 0 }
  | .copy skb i =>
    match skb.data[i]? with
    | some b => some { s with
        device := { s.device with txBuffer := Function.update s.device.txBuffer i b }
        xmit := .copy skb (i + 1) }
    | none => some { s with xmit := .length skb }
  | .length skb => some { s with
      device := { s.device with txLen := BitVec.ofNat 32 skb.data.length }
      xmit := .send skb }
  | .send skb => some {
      device := s.device.txSendNow
      xmit := .idle
      stats := s.stats.sent skb
      sent := s.sent ++ [skb] }

/-- One step -/
def step (s : Eth x) : Event → Option (Eth x)
  | .call skb => if s.xmit = .idle then some { s with xmit := .wait skb } else none
  | .next => s.next
  | .transmit => s.device.transmit.map fun d => { s with device := d }

/-- The device has been set up. Anything may be in its buffer. -/
structure Starts (s : Eth x) : Prop where
  quiet : s.device.sending = none ∧ s.device.frame = [] ∧ s.device.wire = []
  idle : s.xmit = .idle
  stats : s.stats = ⟨0, 0, 0⟩
  fresh : s.sent = []

/-! ## The invariant -/

/-- The buffer starts with these bytes. -/
def Device.Holds (d : Device) (bytes : List UInt8) : Prop :=
  ∀ i b, bytes[i]? = some b → d.txBuffer i = b

/-- The device has sent all the frames, or all but the last, which it is at. -/
inductive Device.Sends (d : Device) (frames : List (List UInt8)) : Prop
  | quiet (sending : d.sending = none) (frame : d.frame = []) (wire : d.wire = frames)
  | busy (k : Nat) (last : List UInt8) (sending : d.sending = some k)
    (frame : d.frame = last.take k) (within : k ≤ last.length)
    (length : d.txLen.toNat = last.length) (holds : d.Holds last)
    (wire : d.wire ++ [last] = frames)

/-- What the call has done: it leaves the device alone while that is busy. -/
def Xmit.Ready (d : Device) : Xmit → Prop
  | .idle | .wait _ => True
  | .check _ => d.sending = none
  | .copy skb i => d.sending = none ∧ i ≤ skb.data.length ∧ d.Holds (skb.data.take i)
  | .length skb => d.sending = none ∧ d.Holds skb.data
  | .send skb => d.sending = none ∧ d.Holds skb.data ∧ d.txLen.toNat = skb.data.length

/-- The counters say what was sent. -/
structure Counted (stats : Stats x) (sent : List Skb) : Prop where
  packets : stats.txPackets = BitVec.ofNat x.bits sent.length
  bytes : stats.txBytes = BitVec.ofNat x.bits (sent.map fun skb => skb.data.length).sum
  dropped : stats.txDropped = 0

structure Inv (s : Eth x) : Prop where
  sends : s.device.Sends (s.sent.map Skb.data)
  ready : s.xmit.Ready s.device
  counted : Counted s.stats s.sent

variable {s t : Eth x} {d : Device}

theorem Starts.inv (starts : Starts s) : Inv s := by
  rcases starts with ⟨⟨sending, frame, wire⟩, idle, stats, fresh⟩
  refine ⟨.quiet sending frame ?_, ?_, ?_⟩
  · rw [wire, fresh]
    rfl
  · rw [idle]
    trivial
  · rw [stats, fresh]
    exact ⟨rfl, rfl, rfl⟩

/-! ## Steps -/

theorem txBusy_ne_zero : d.txBusy ≠ 0 ↔ d.sending ≠ none := by
  rw [Device.txBusy]
  cases d.sending with
  | none => decide
  | some k => simp

/-- A device that is not busy has sent all the frames. -/
theorem Device.Sends.wire_of_quiet {frames : List (List UInt8)} (sends : d.Sends frames)
    (quiet : d.sending = none) : d.frame = [] ∧ d.wire = frames := by
  cases sends with
  | quiet _ frame wire => exact ⟨frame, wire⟩
  | busy k last sending => cases quiet.symm.trans sending

/-- The device goes on with what is in its buffer. -/
theorem Device.Sends.transmit {frames : List (List UInt8)} (sends : d.Sends frames) {d' : Device}
    (next : d.transmit = some d') : d'.Sends frames := by
  rw [Device.transmit, Option.map_eq_some_iff] at next
  rcases next with ⟨k, sending, rfl⟩
  cases sends with
  | quiet quiet => cases quiet.symm.trans sending
  | busy k' last sending' frame within length holds wire =>
    obtain rfl : k = k' := Option.some.inj (sending.symm.trans sending')
    rw [length]
    split
    · next more =>
      refine .busy (k + 1) last rfl ?_ more length holds wire
      rw [frame, holds k _ (List.getElem?_eq_getElem more), List.take_succ_eq_append_getElem more]
    · next ends =>
      refine .quiet rfl rfl ?_
      rw [frame, List.take_of_length_le (Nat.not_lt.mp ends), wire]

/-- A call that has seen the device quiet keeps it quiet. -/
theorem Xmit.Ready.of_sending {xmit : Xmit} (ready : xmit.Ready d) {k : Nat}
    (sending : d.sending = some k) (d' : Device) : xmit.Ready d' := by
  cases xmit with
  | idle | wait => trivial
  | check => cases ready.symm.trans sending
  | copy | length | send => cases ready.1.symm.trans sending

/-- One byte more is in the buffer. -/
theorem Device.Holds.copied {bytes : List UInt8} {i : Nat} {b : UInt8}
    (holds : d.Holds (bytes.take i)) (here : bytes[i]? = some b) :
    ({ d with txBuffer := Function.update d.txBuffer i b } : Device).Holds
      (bytes.take (i + 1)) := by
  intro j b' there
  rw [List.getElem?_take] at there
  rcases Nat.lt_or_ge j (i + 1) with before | after
  · rw [if_pos before] at there
    rcases eq_or_ne j i with rfl | other
    · exact (Function.update_self ..).trans (Option.some.inj (here.symm.trans there))
    · refine (Function.update_of_ne other ..).trans (holds j b' ?_)
      rw [List.getElem?_take, if_pos (by omega), there]
  · rw [if_neg (Nat.not_lt.mpr after)] at there
    cases there

/-- A device that is not busy sends the frame that is in its buffer. -/
theorem Device.Sends.sendNow {frames : List (List UInt8)} (sends : d.Sends frames)
    (quiet : d.sending = none) {bytes : List UInt8} (holds : d.Holds bytes)
    (length : d.txLen.toNat = bytes.length) : d.txSendNow.Sends (frames ++ [bytes]) := by
  obtain ⟨-, wire⟩ := sends.wire_of_quiet quiet
  refine .busy 0 bytes rfl rfl (Nat.zero_le _) length holds ?_
  rw [← wire]
  rfl

/-- What is done to a device that is not busy does not matter to what it has sent. -/
theorem Device.Sends.of_quiet {frames : List (List UInt8)} (sends : d.Sends frames)
    (quiet : d.sending = none) (txBuffer : Nat → UInt8) (txLen : BitVec 32) :
    ({ d with txBuffer := txBuffer, txLen := txLen } : Device).Sends frames := by
  obtain ⟨frame, wire⟩ := sends.wire_of_quiet quiet
  exact .quiet quiet frame wire

theorem Counted.sent {stats : Stats x} {sent : List Skb} (counted : Counted stats sent)
    (skb : Skb) : Counted (stats.sent skb) (sent ++ [skb]) := by
  refine ⟨?_, ?_, counted.dropped⟩
  · rw [List.length_append, Stats.sent, counted.packets, BitVec.ofNat_add]
    rfl
  · rw [List.map_append, List.sum_append, Stats.sent, BitVec.ofNat_add, counted.bytes]
    rfl

/-- The next access of a call keeps the invariant. -/
theorem inv_next (inv : Inv s) (next : s.next = some t) : Inv t := by
  rcases inv with ⟨sends, ready, counted⟩
  rw [Eth.next] at next
  cases here : s.xmit with
  | idle =>
    rw [here] at next
    cases next
  | wait skb =>
    simp only [here, Option.some.injEq] at next
    subst next
    split
    · next busy => exact ⟨sends, ready, counted⟩
    · next quiet => exact ⟨sends, not_not.mp (mt txBusy_ne_zero.mpr quiet), counted⟩
  | check skb =>
    rw [here] at ready
    have quiet : ¬ s.device.txBusy ≠ 0 := fun busy => txBusy_ne_zero.mp busy ready
    simp only [here, if_neg quiet, Option.some.injEq] at next
    subst next
    exact ⟨sends, ⟨ready, Nat.zero_le _, nofun⟩, counted⟩
  | copy skb i =>
    rw [here] at ready
    rcases ready with ⟨quiet, within, holds⟩
    simp only [here] at next
    split at next
    · next b there =>
      cases next
      have more : i < skb.data.length := (List.getElem?_eq_some_iff.mp there).1
      exact ⟨sends.of_quiet quiet _ _, ⟨quiet, more, holds.copied there⟩, counted⟩
    · next ends =>
      cases next
      rw [List.take_of_length_le (List.getElem?_eq_none_iff.mp ends)] at holds
      exact ⟨sends, ⟨quiet, holds⟩, counted⟩
  | length skb =>
    rw [here] at ready
    rcases ready with ⟨quiet, holds⟩
    simp only [here, Option.some.injEq] at next
    subst next
    refine ⟨sends.of_quiet quiet _ _, ⟨quiet, holds, ?_⟩, counted⟩
    exact Nat.mod_eq_of_lt (Nat.lt_of_le_of_lt skb.fits (by decide))
  | send skb =>
    rw [here] at ready
    rcases ready with ⟨quiet, holds, length⟩
    simp only [here, Option.some.injEq] at next
    subst next
    refine ⟨?_, trivial, counted.sent skb⟩
    rw [List.map_append]
    exact sends.sendNow quiet holds length

theorem inv_step : Keeps (Any (step (x := x))) Inv := by
  rintro s t inv ⟨e, -, next⟩
  cases e with
  | call skb =>
    rw [step, Option.ite_none_right_eq_some, Option.some.injEq] at next
    rcases next with ⟨-, rfl⟩
    exact ⟨inv.sends, trivial, inv.counted⟩
  | next => exact inv_next inv next
  | transmit =>
    rw [step, Option.map_eq_some_iff] at next
    rcases next with ⟨d, goes, rfl⟩
    obtain ⟨k, sending, -⟩ := Option.map_eq_some_iff.mp goes
    exact ⟨inv.sends.transmit goes, inv.ready.of_sending sending d, inv.counted⟩

/-! ## What is sent -/

/-- In every run the frames on the wire are those that were given to the driver, each once, in their
order and with their bytes, up to the last, of which the first bytes may be there. The driver never
finds the device busy after it has waited, and the counters have what was sent. -/
theorem xmit_sends (starts : Starts s) (run : Run (Any step) s t) :
    (t.device.sending = none ∧ t.device.wire = t.sent.map Skb.data ∨
      ∃ last, t.device.sending ≠ none ∧ t.device.frame <+: last ∧
        t.device.wire ++ [last] = t.sent.map Skb.data) ∧ Counted t.stats t.sent := by
  obtain ⟨sends, -, counted⟩ := Run.keeps inv_step starts.inv run
  refine ⟨?_, counted⟩
  rcases sends with ⟨sending, -, wire⟩ | ⟨k, last, sending, frame, -, -, -, wire⟩
  · exact .inl ⟨sending, wire⟩
  · refine .inr ⟨last, ?_, ?_, wire⟩
    · rw [sending]
      exact Option.some_ne_none k
    · rw [frame]
      exact List.take_prefix k last

/-! ## Every frame gets there -/

/-- The network stack does not call. -/
def Event.Works : Event → Prop
  | .call _ => False
  | .next | .transmit => True

/-- The driver and the device go on. -/
abbrev Works (s t : Eth x) : Prop :=
  Run (Taken step fun _ e => e.Works) s t

/-- The frame that a call is for -/
def Xmit.pending : Xmit → List Skb
  | .idle => []
  | .wait skb | .check skb | .copy skb _ | .length skb | .send skb => [skb]

/-- How many accesses a call has still to make, on a device that is not busy -/
def Xmit.left : Xmit → Nat
  | .idle => 0
  | .wait skb => skb.data.length + 5
  | .check skb => skb.data.length + 4
  | .copy skb i => skb.data.length - i + 3
  | .length _ => 2
  | .send _ => 1

/-- The device comes to the end of its frame. -/
theorem works_transmit (s : Eth x) :
    ∃ d, Works s { s with device := d } ∧ d.sending = none := by
  cases sending : s.device.sending with
  | none => exact ⟨s.device, .refl, sending⟩
  | some k =>
    induction rest : s.device.txLen.toNat - k generalizing s k with
    | zero =>
      have ends : ¬ k < s.device.txLen.toNat := by omega
      let d : Device := { s.device with
        sending := none, frame := [], wire := s.device.wire ++ [s.device.frame] }
      have goes : step s .transmit = some { s with device := d } := by
        rw [step, Device.transmit, sending, Option.map_some, if_neg ends]
        rfl
      exact ⟨d, .single ⟨.transmit, trivial, goes⟩, rfl⟩
    | succ n ih =>
      have more : k < s.device.txLen.toNat := by omega
      let d : Device := { s.device with
        sending := some (k + 1), frame := s.device.frame ++ [s.device.txBuffer k] }
      have goes : step s .transmit = some { s with device := d } := by
        rw [step, Device.transmit, sending, Option.map_some, if_pos more]
        rfl
      obtain ⟨d', works, quiet⟩ := ih { s with device := d } (k + 1) rfl
        (by change s.device.txLen.toNat - (k + 1) = n; omega)
      exact ⟨d', .head ⟨.transmit, trivial, goes⟩ works, quiet⟩

/-- An access of a call that has a device that is not busy -/
theorem next_of_quiet (quiet : s.device.sending = none) (calls : s.xmit ≠ .idle) :
    ∃ t, s.next = some t ∧ t.xmit.left < s.xmit.left ∧
      t.sent ++ t.xmit.pending = s.sent ++ s.xmit.pending ∧
      (t.xmit ≠ .idle → t.device.sending = none) := by
  have free : ¬ s.device.txBusy ≠ 0 := fun busy => txBusy_ne_zero.mp busy quiet
  cases here : s.xmit with
  | idle => exact absurd here calls
  | wait skb =>
    simp only [Eth.next, here, if_neg free]
    exact ⟨_, rfl, Nat.lt_succ_self _, rfl, fun _ => quiet⟩
  | check skb =>
    simp only [Eth.next, here, if_neg free]
    exact ⟨_, rfl, Nat.lt_succ_self _, rfl, fun _ => quiet⟩
  | copy skb i =>
    simp only [Eth.next, here]
    cases there : skb.data[i]? with
    | none => exact ⟨_, rfl, by simp only [Xmit.left]; omega, rfl, fun _ => quiet⟩
    | some b =>
      have more : i < skb.data.length := (List.getElem?_eq_some_iff.mp there).1
      exact ⟨_, rfl, by simp only [Xmit.left]; omega, rfl, fun _ => quiet⟩
  | length skb =>
    simp only [Eth.next, here]
    exact ⟨_, rfl, Nat.lt_succ_self _, rfl, fun _ => quiet⟩
  | send skb =>
    simp only [Eth.next, here]
    refine ⟨_, rfl, Nat.lt_succ_self _, ?_, fun calls => absurd rfl calls⟩
    exact List.append_nil _

/-- A call comes to its end. -/
theorem works_call (quiet : s.device.sending = none) :
    ∃ t, Works s t ∧ t.xmit = .idle ∧ t.sent = s.sent ++ s.xmit.pending := by
  induction left : s.xmit.left using Nat.strongRecOn generalizing s with
  | ind n ih =>
  by_cases idle : s.xmit = .idle
  · refine ⟨s, .refl, idle, ?_⟩
    rw [idle]
    exact (List.append_nil _).symm
  · obtain ⟨t, next, less, same, still⟩ := next_of_quiet quiet idle
    by_cases ends : t.xmit = .idle
    · refine ⟨t, .single ⟨.next, trivial, next⟩, ends, ?_⟩
      rw [← same, ends]
      exact (List.append_nil _).symm
    · obtain ⟨u, works, idle', sent⟩ := ih _ (left ▸ less) (still ends) rfl
      exact ⟨u, .head ⟨.next, trivial, next⟩ works, idle', sent.trans same⟩

/-- From every state of a run the driver and the device can do what is left to do: the call ends,
and the frames that the driver was given are on the wire, that of the call as the last. -/
theorem xmit_finishes (starts : Starts s) (run : Run (Any step) s t) :
    ∃ u, Works t u ∧ u.xmit = .idle ∧
      u.device.wire = (t.sent ++ t.xmit.pending).map Skb.data := by
  obtain ⟨d, first, quiet⟩ := works_transmit t
  obtain ⟨u, second, idle, sent⟩ := works_call (s := { t with device := d }) quiet
  obtain ⟨d', third, quiet'⟩ := works_transmit u
  have works : Works t { u with device := d' } := first.trans (second.trans third)
  have any : Run (Any step) t { u with device := d' } :=
    Relation.ReflTransGen.mono (fun _ _ ⟨e, _, next⟩ => ⟨e, trivial, next⟩) _ _ works
  have inv := Run.keeps inv_step starts.inv (run.trans any)
  refine ⟨_, works, idle, ?_⟩
  rw [(inv.sends.wire_of_quiet quiet').2, ← sent]

/-! ## Two frames -/

def hello : Skb := ⟨[0x68, 0x69], by decide⟩

def bye : Skb := ⟨[0x62], by decide⟩

def started : Eth .rv64 :=
  ⟨⟨fun _ => 0xff, 0, none, [], []⟩, .idle, ⟨0, 0, 0⟩, []⟩

theorem starts_started : Starts started :=
  ⟨⟨rfl, rfl, rfl⟩, rfl, rfl, rfl⟩

/-- The second call waits while the device is at the first frame. -/
def twoFrames : List Event :=
  .call hello :: List.replicate 7 .next ++ [.transmit, .call bye, .next]

theorem run_twoFrames : ∃ t, Run (Any step) started t ∧ t.xmit = .wait bye ∧
    t.device.frame = [0x68] := by
  have leads : ∃ t, twoFrames.foldlM step started = some t ∧ t.xmit = .wait bye ∧
      t.device.frame = [0x68] := by
    refine ⟨_, rfl, ?_⟩
    decide
  rcases leads with ⟨t, leads, shown⟩
  exact ⟨t, Run.of_foldlM leads, shown⟩

theorem xmit_sends_twoFrames : ∃ t : Eth .rv64, t.device.frame = [0x68] ∧
    (t.device.sending = none ∧ t.device.wire = t.sent.map Skb.data ∨
      ∃ last, t.device.sending ≠ none ∧ t.device.frame <+: last ∧
        t.device.wire ++ [last] = t.sent.map Skb.data) ∧ Counted t.stats t.sent := by
  rcases run_twoFrames with ⟨t, run, -, frame⟩
  exact ⟨t, frame, xmit_sends starts_started run⟩

theorem xmit_finishes_twoFrames : ∃ t u : Eth .rv64, t.xmit = .wait bye ∧ Works t u ∧
    u.xmit = .idle ∧ u.device.wire = (t.sent ++ t.xmit.pending).map Skb.data := by
  rcases run_twoFrames with ⟨t, run, waits, -⟩
  obtain ⟨u, finishes⟩ := xmit_finishes starts_started run
  exact ⟨t, u, waits, finishes⟩

end RiscvLinux.Drivers.FrenoxEth.Transmit
