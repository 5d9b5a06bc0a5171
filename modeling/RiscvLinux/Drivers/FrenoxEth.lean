import RiscvLinux.Lib.Run
import RiscvLinux.Trap.PtRegs

/-!
# Receiving on the Frenox Ethernet device

`frenox_eth_rx_isr` of `arch/riscv/drivers/frenox_eth.c` and the receive side of the device:
it presents one packet at a time, and goes on to the next when `RX_ACK_PKT` is written.

`Accounted` is what the counters are to say, and `rxIsr_accounted` when one invocation of the
handler keeps it: the way out when there is no memory counts a packet that it does not
acknowledge.
-/

namespace RiscvLinux.Drivers.FrenoxEth

open Lib Trap

variable {x : XLen}

/-! ## The device -/

/-- A packet that the device presents. The last four bytes are its checksum, and its length is one
that an `int` can be. What the receive buffer holds is a bound of its own, which is looked at with
the registers. -/
structure Packet where
  bytes : List UInt8
  checksum : 4 ≤ bytes.length
  fits : bytes.length < 2 ^ 31
  deriving DecidableEq

/-- What a packet holds besides the checksum. -/
def Packet.payload (p : Packet) : List UInt8 :=
  p.bytes.take (p.bytes.length - 4)

theorem Packet.length_payload (p : Packet) : p.payload.length = p.bytes.length - 4 := by
  rw [payload, List.length_take, Nat.min_eq_left (Nat.sub_le ..)]

/-- The receive side of the device: the packets that are there, the one it presents first, and
those that were acknowledged. -/
structure Device where
  fifo : List Packet
  acked : List Packet
  deriving DecidableEq

/-- `RX_NEW_PKT`. -/
def Device.rxNewPkt (d : Device) : BitVec 32 :=
  if d.fifo.isEmpty then 0 else 1

/-- `RX_LEN`. -/
def Device.rxLen (d : Device) : BitVec 32 :=
  BitVec.ofNat 32 (d.fifo.head?.elim 0 (·.bytes.length))

/-- The receive buffer. -/
def Device.rxBuffer (d : Device) : List UInt8 :=
  d.fifo.head?.elim [] Packet.bytes

/-- A write to `RX_ACK_PKT`. -/
def Device.rxAckPkt (d : Device) : Device :=
  ⟨d.fifo.tail, d.acked ++ d.fifo.head?.toList⟩

/-! ## The driver -/

/-- What becomes of a packet: it goes to the network stack, or it is counted as dropped. -/
inductive Fate
  | received
  | dropped
  deriving DecidableEq

/-- `irqreturn_t`. -/
inductive IrqReturn
  | none
  | handled
  deriving DecidableEq

/-- The device, `dev->stats`, and what `netif_rx` was given. `accounts` has an entry for every
packet that the handler has counted, and `presented` one for every invocation that found a
packet. -/
structure Eth (x : XLen) where
  device : Device
  rxPackets : Word x
  rxBytes : Word x
  rxDropped : Word x
  netifRx : List (List UInt8)
  accounts : List (Packet × Fate)
  presented : List Packet
  deriving DecidableEq

/-- The packet that the device presents, with what becomes of it. -/
def Eth.account (s : Eth x) (fate : Fate) : List (Packet × Fate) :=
  s.accounts ++ s.device.fifo.head?.toList.map (·, fate)

/-- `frenox_eth_rx_isr`, when `netdev_alloc_skb` finds memory or not. -/
def frenoxEthRxIsr (allocates : Bool) (s : Eth x) : IrqReturn × Eth x :=
  if s.device.rxNewPkt = 0 then (.none, s)
  else
    -- the register is unsigned and `packet_len` is an `int`
    let packetLen := (s.device.rxLen - 4).toInt
    if allocates = false then
      (.handled, { s with rxDropped := s.rxDropped + 1, accounts := s.account .dropped })
    else
      let skb := s.device.rxBuffer.take packetLen.toNat
      (.handled, { s with
        device := s.device.rxAckPkt
        rxPackets := s.rxPackets + 1
        rxBytes := s.rxBytes + BitVec.ofInt x.bits packetLen
        netifRx := s.netifRx ++ [skb]
        accounts := s.account .received })

/-- A packet arrives, or the interrupt is handled. -/
inductive Event
  | arrive (p : Packet)
  | rxIsr (allocates : Bool)

/-- One step. -/
def step (s : Eth x) : Event → Option (Eth x)
  | .arrive p => some { s with device := { s.device with fifo := s.device.fifo ++ [p] } }
  | .rxIsr allocates =>
    let s' := (frenoxEthRxIsr allocates s).2
    some { s' with presented := s.presented ++ s.device.fifo.head?.toList }

/-- The driver before the first packet. -/
def opened : Eth x :=
  ⟨⟨[], []⟩, 0, 0, 0, [], [], []⟩

/-! ## What the counters say -/

/-- The packets with this fate. -/
def fated (accounts : List (Packet × Fate)) (fate : Fate) : List Packet :=
  (accounts.filter (·.2 = fate)).map Prod.fst

/-- How many bytes the packets hold. -/
def payloads (ps : List Packet) : Nat :=
  (ps.map (·.payload.length)).sum

/-- Every packet that was presented to the handler is accounted for once and acknowledged, the
counters count the packets of either fate, and together they count the packets taken from the
device. -/
structure Accounted (s : Eth x) : Prop where
  once : s.accounts.map Prod.fst = s.presented
  acked : s.device.acked = s.presented
  rxPackets : s.rxPackets = BitVec.ofNat x.bits (fated s.accounts .received).length
  rxBytes : s.rxBytes = BitVec.ofNat x.bits (payloads (fated s.accounts .received))
  rxDropped : s.rxDropped = BitVec.ofNat x.bits (fated s.accounts .dropped).length
  netifRx : s.netifRx = (fated s.accounts .received).map Packet.payload
  taken : s.rxPackets + s.rxDropped = BitVec.ofNat x.bits s.device.acked.length

/-- The condition: there is memory when a packet is presented. -/
def Allocates (s : Eth x) : Event → Prop
  | .arrive _ => True
  | .rxIsr allocates => s.device.fifo = [] ∨ allocates = true

/-! ## One invocation -/

/-- `packet_len` of a packet. -/
theorem packetLen_eq (p : Packet) :
    (BitVec.ofNat 32 p.bytes.length - 4 : BitVec 32).toInt = (p.payload.length : Int) := by
  have least := p.checksum
  have most := p.fits
  have length := p.length_payload
  have number : (BitVec.ofNat 32 p.bytes.length - 4 : BitVec 32).toNat = p.bytes.length - 4 := by
    rw [BitVec.toNat_sub_of_le (by rw [BitVec.le_def, BitVec.toNat_ofNat]; simp; omega),
      BitVec.toNat_ofNat]
    simp
    omega
  rw [BitVec.toInt_eq_toNat_of_lt (by omega), number, length]

variable {s t : Eth x}

/-- What an invocation does when no packet is there. -/
theorem rxIsr_empty (allocates : Bool) (empty : s.device.fifo = []) :
    frenoxEthRxIsr allocates s = (.none, s) := by
  rw [frenoxEthRxIsr, Device.rxNewPkt, empty]
  rfl

/-- What it does when there is no memory for the packet: the packet stays. -/
theorem rxIsr_dropped {p : Packet} {rest : List Packet} (there : s.device.fifo = p :: rest) :
    frenoxEthRxIsr false s
      = (.handled, { s with
          rxDropped := s.rxDropped + 1
          accounts := s.accounts ++ [(p, .dropped)] }) := by
  rw [frenoxEthRxIsr, Device.rxNewPkt, Eth.account, there]
  rfl

/-- What it does with a packet when there is memory. -/
theorem rxIsr_received {p : Packet} {rest : List Packet} (there : s.device.fifo = p :: rest) :
    frenoxEthRxIsr true s
      = (.handled, { s with
          device := ⟨rest, s.device.acked ++ [p]⟩
          rxPackets := s.rxPackets + 1
          rxBytes := s.rxBytes + BitVec.ofNat x.bits p.payload.length
          netifRx := s.netifRx ++ [p.payload]
          accounts := s.accounts ++ [(p, .received)] }) := by
  have length : (s.device.rxLen - 4).toInt = p.payload.length := by
    rw [Device.rxLen, there]
    exact packetLen_eq p
  have data : s.device.rxBuffer.take (p.payload.length : Int).toNat = p.payload := by
    have least := p.checksum
    rw [Device.rxBuffer, there, Int.toNat_natCast]
    change p.bytes.take (p.bytes.take _).length = p.bytes.take _
    rw [List.length_take, Nat.min_eq_left (Nat.sub_le ..)]
  rw [frenoxEthRxIsr, Device.rxNewPkt]
  simp only [length, data, Device.rxAckPkt, Eth.account, there, BitVec.ofInt_natCast]
  rfl

/-- An arrival changes no account. -/
theorem accounted_arrive (accounted : Accounted s) (p : Packet) :
    Accounted { s with device := { s.device with fifo := s.device.fifo ++ [p] } } :=
  ⟨accounted.once, accounted.acked, accounted.rxPackets, accounted.rxBytes, accounted.rxDropped,
    accounted.netifRx, accounted.taken⟩

/-- A packet that is counted as dropped and not acknowledged is one too many. -/
theorem not_accounted_dropped (accounted : Accounted s) (p : Packet) :
    ¬ Accounted { s with
        rxDropped := s.rxDropped + 1
        accounts := s.accounts ++ [(p, .dropped)]
        presented := s.presented ++ [p] } := by
  intro after
  have same : s.device.acked = s.presented ++ [p] := after.acked
  rw [accounted.acked] at same
  have length := congrArg List.length same
  rw [List.length_append] at length
  exact Nat.succ_ne_self _ length.symm

/-- One more packet that was received. -/
theorem fated_received (accounts : List (Packet × Fate)) (p : Packet) :
    fated (accounts ++ [(p, .received)]) .received = fated accounts .received ++ [p] := by
  rw [fated, List.filter_append, List.map_append]
  rfl

theorem fated_dropped (accounts : List (Packet × Fate)) (p : Packet) :
    fated (accounts ++ [(p, .received)]) .dropped = fated accounts .dropped := by
  rw [fated, List.filter_append, List.map_append]
  exact List.append_nil _

theorem payloads_append (ps : List Packet) (p : Packet) :
    payloads (ps ++ [p]) = payloads ps + p.payload.length := by
  rw [payloads, List.map_append, List.sum_append]
  rfl

/-- A packet that is received and acknowledged keeps the accounts. -/
theorem accounted_received (accounted : Accounted s) (p : Packet) (rest : List Packet) :
    Accounted { s with
        device := ⟨rest, s.device.acked ++ [p]⟩
        rxPackets := s.rxPackets + 1
        rxBytes := s.rxBytes + BitVec.ofNat x.bits p.payload.length
        netifRx := s.netifRx ++ [p.payload]
        accounts := s.accounts ++ [(p, .received)]
        presented := s.presented ++ [p] } where
  once := by
    rw [List.map_append, accounted.once]
    rfl
  acked := congrArg (· ++ [p]) accounted.acked
  rxPackets := by
    rw [fated_received, List.length_append, accounted.rxPackets, BitVec.ofNat_add]
    rfl
  rxBytes := by
    rw [fated_received, payloads_append, accounted.rxBytes, BitVec.ofNat_add]
  rxDropped := by
    rw [fated_dropped]
    exact accounted.rxDropped
  netifRx := by
    rw [fated_received, List.map_append, accounted.netifRx]
    rfl
  taken := by
    have taken := accounted.taken
    simp only [List.length_append, BitVec.ofNat_add]
    rw [← taken, BitVec.add_assoc, BitVec.add_comm 1, ← BitVec.add_assoc]
    rfl

/-- An invocation keeps the accounts exactly when there is memory for the packet. -/
theorem rxIsr_accounted (accounted : Accounted s) {allocates : Bool}
    (next : step s (.rxIsr allocates) = some t) :
    Accounted t ↔ s.device.fifo = [] ∨ allocates = true := by
  cases next
  cases there : s.device.fifo with
  | nil =>
    rw [rxIsr_empty allocates there]
    simp only [List.head?_nil, Option.toList_none, List.append_nil, true_or, iff_true]
    exact accounted
  | cons p rest =>
    cases allocates with
    | false =>
      rw [rxIsr_dropped there]
      refine ⟨fun after => (not_accounted_dropped accounted p after).elim, ?_⟩
      intro either
      rcases either with empty | memory
      · cases empty
      · cases memory
    | true =>
      rw [rxIsr_received there]
      exact ⟨fun _ => .inr rfl, fun _ => accounted_received accounted p rest⟩

theorem step_accounted (accounted : Accounted s) {e : Event} (next : step s e = some t) :
    Accounted t ↔ Allocates s e := by
  cases e with
  | arrive p =>
    cases next
    exact ⟨fun _ => trivial, fun _ => accounted_arrive accounted p⟩
  | rxIsr allocates => exact rxIsr_accounted accounted next

/-! ## Runs -/

theorem accounted_opened : Accounted (opened : Eth x) := by
  refine ⟨rfl, rfl, rfl, rfl, rfl, rfl, ?_⟩
  exact BitVec.add_zero 0

theorem accounted_kept : Keeps (Taken step Allocates) (Accounted (x := x)) := by
  intro s t accounted taken
  rcases taken with ⟨e, allows, next⟩
  exact (step_accounted accounted next).mpr allows

/-- While there is memory for every packet that is presented the accounts are right, and the
runs along which they are right are just those. -/
theorem accounted_iff :
    (Run (Taken step Allocates) opened s → Accounted s)
    ∧ (Run (Guarded (Any step) fun _ t => Accounted t) opened s
        ↔ Run (Taken step Allocates) opened s) :=
  Run.exact (fun _ accounted => accounted) (fun _ _ _ accounted => step_accounted accounted)
    accounted_kept accounted_opened

/-- A packet that is presented to two invocations, the first of which finds no memory. -/
def retried : List Event :=
  let p : Packet := ⟨List.replicate 64 0, by decide, by decide⟩
  [.arrive p, .rxIsr false, .rxIsr true]

/-- It is counted twice. -/
theorem unaccounted_retried :
    ¬ ∀ s : Eth .rv64, Run (Any step) opened s → Accounted s := by
  intro always
  have counted : (retried.foldlM step (opened : Eth .rv64)).any (fun s =>
      s.accounts.length = 2 ∧ s.device.acked.length = 1) := by
    decide
  obtain ⟨s, leads, found⟩ := (Option.any_eq_true _ _).mp counted
  obtain ⟨two, one⟩ := of_decide_eq_true found
  have accounted := always s (.of_foldlM leads)
  have lengths := congrArg List.length (accounted.once.trans accounted.acked.symm)
  rw [List.length_map] at lengths
  omega

end RiscvLinux.Drivers.FrenoxEth
