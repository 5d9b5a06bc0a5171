import RiscvLinux.Drivers.FrenoxEth

/-!
# The length of a received frame

`frenox_eth_rx_isr` again, for any value of its registers: the length it reads, what it asks
`netdev_alloc_skb` for, and what it copies with `memcpy_fromio`. `frenoxEthRxIsr_eq` says that the
handler of `RiscvLinux.Drivers.FrenoxEth` is this one, on the registers of a device that presents a
packet.

The length is not checked. `contained_iff` says for which lengths the copy stays inside the receive
buffer and the allocated memory.
-/

namespace RiscvLinux.Drivers.FrenoxEth.Registers

open Lib Trap

variable {x : XLen}

/-- `FRENOX_ETH_MAPPING_RX_BUFFER_SIZE` -/
def rxBufferSize : Nat := 0x800

/-- `NET_IP_ALIGN` -/
def netIpAlign : BitVec 32 := 2

/-! ## The handler -/

/-- The registers that the handler reads. -/
structure RxRegs where
  rxNewPkt : BitVec 32
  rxLen : BitVec 32

/-- `memcpy_fromio` of `count` bytes from the start of the receive buffer to `skb->data`, which is
`reserved` bytes after the start of the memory that was allocated. -/
structure Copy (x : XLen) where
  allocated : BitVec 32
  reserved : BitVec 32
  count : Word x

/-- `dev->stats` -/
structure Stats (x : XLen) where
  rxPackets : Word x
  rxBytes : Word x
  rxDropped : Word x

/-- What the handler does. -/
structure Outcome (x : XLen) where
  ret : IrqReturn
  copy : Option (Copy x)
  stats : Stats x
  acked : Bool

/-- `packet_len`, an `int`. -/
def RxRegs.packetLen (regs : RxRegs) : BitVec 32 := regs.rxLen - 4

/-- The length that `netdev_alloc_skb` is called with, an `unsigned int`. -/
def RxRegs.requested (regs : RxRegs) : BitVec 32 := regs.packetLen + netIpAlign

/-- `frenox_eth_rx_isr`, where `netdevAllocSkb` says for which lengths memory is found. -/
def frenoxEthRxIsr (netdevAllocSkb : BitVec 32 → Bool) (regs : RxRegs) (stats : Stats x) :
    Outcome x :=
  if regs.rxNewPkt = 0 then ⟨.none, none, stats, false⟩
  else if netdevAllocSkb regs.requested = false then
    ⟨.handled, none, { stats with rxDropped := stats.rxDropped + 1 }, false⟩
  else
    -- an `int` becomes a `size_t`, and is added to an `unsigned long`
    let packetLen := regs.packetLen.signExtend x.bits
    ⟨.handled, some ⟨regs.requested, netIpAlign, packetLen⟩,
      { stats with
        rxPackets := stats.rxPackets + 1
        rxBytes := stats.rxBytes + packetLen },
      true⟩

/-! ## What the copy is to stay inside -/

/-- A byte of the receive buffer is copied to a byte of the memory. -/
def Copy.Moves (c : Copy x) (src dst : Nat) : Prop :=
  ∃ i < c.count.toNat, src = i ∧ dst = c.reserved.toNat + i

/-- Only bytes of the buffer are copied, and only to the memory after the reserved bytes. A length
that no frame in the buffer has leads to no copy, and `rx_bytes` grows by the length of a frame
without its checksum, when it is copied. -/
structure Contained (regs : RxRegs) (stats : Stats x) (o : Outcome x) : Prop where
  inside : ∀ c, o.copy = some c → ∀ src dst, c.Moves src dst →
    src < rxBufferSize ∧ c.reserved.toNat ≤ dst ∧ dst < c.allocated.toNat
  refused : regs.rxLen.toNat < 4 ∨ rxBufferSize < regs.rxLen.toNat → o.copy = none
  received : ∀ c, o.copy = some c →
    o.stats.rxBytes = stats.rxBytes + BitVec.ofNat x.bits (regs.rxLen.toNat - 4)
  unchanged : o.copy = none → o.stats.rxBytes = stats.rxBytes

/-- The condition: there is no packet, or no memory, or the length is that of a frame that the
buffer has room for. -/
def Fits (netdevAllocSkb : BitVec 32 → Bool) (regs : RxRegs) : Prop :=
  regs.rxNewPkt = 0 ∨ netdevAllocSkb regs.requested = false ∨
    4 ≤ regs.rxLen.toNat ∧ regs.rxLen.toNat ≤ rxBufferSize

/-! ## Lengths -/

variable {netdevAllocSkb : BitVec 32 → Bool} {regs : RxRegs} {stats : Stats x}

theorem toNat_packetLen (least : 4 ≤ regs.rxLen.toNat) :
    regs.packetLen.toNat = regs.rxLen.toNat - 4 :=
  BitVec.toNat_sub_of_le (BitVec.le_def.mpr least)

theorem toNat_requested (least : 4 ≤ regs.rxLen.toNat) :
    regs.requested.toNat = regs.rxLen.toNat - 4 + 2 := by
  have small := regs.rxLen.isLt
  rw [RxRegs.requested, BitVec.toNat_add, toNat_packetLen least]
  exact Nat.mod_eq_of_lt (show regs.rxLen.toNat - 4 + 2 < 2 ^ 32 by omega)

/-- A length that is not negative as an `int` is the same `size_t`. -/
theorem signExtend_packetLen (least : 4 ≤ regs.rxLen.toNat) (most : regs.rxLen.toNat < 2 ^ 31) :
    regs.packetLen.signExtend x.bits = BitVec.ofNat x.bits (regs.rxLen.toNat - 4) := by
  have positive : regs.packetLen.toInt = (regs.rxLen.toNat - 4 : Nat) := by
    have length := toNat_packetLen least
    rw [BitVec.toInt_eq_toNat_of_lt (by omega), length]
  rw [BitVec.signExtend, positive, BitVec.ofInt_natCast]

theorem toNat_count (least : 4 ≤ regs.rxLen.toNat) (most : regs.rxLen.toNat < 2 ^ 31) :
    (regs.packetLen.signExtend x.bits).toNat = regs.rxLen.toNat - 4 := by
  have wide : 2 ^ 32 ≤ 2 ^ x.bits := by
    cases x <;> decide
  rw [signExtend_packetLen least most, BitVec.toNat_ofNat]
  exact Nat.mod_eq_of_lt (by omega)

/-! ## One invocation -/

theorem rxIsr_none (empty : regs.rxNewPkt = 0) :
    frenoxEthRxIsr netdevAllocSkb regs stats = ⟨.none, none, stats, false⟩ :=
  if_pos empty

theorem rxIsr_dropped (there : regs.rxNewPkt ≠ 0) (full : netdevAllocSkb regs.requested = false) :
    frenoxEthRxIsr netdevAllocSkb regs stats
      = ⟨.handled, none, { stats with rxDropped := stats.rxDropped + 1 }, false⟩ := by
  rw [frenoxEthRxIsr, if_neg there, if_pos full]

theorem rxIsr_copied (there : regs.rxNewPkt ≠ 0) (memory : netdevAllocSkb regs.requested = true) :
    frenoxEthRxIsr netdevAllocSkb regs stats
      = ⟨.handled, some ⟨regs.requested, netIpAlign, regs.packetLen.signExtend x.bits⟩,
        { stats with
          rxPackets := stats.rxPackets + 1
          rxBytes := stats.rxBytes + regs.packetLen.signExtend x.bits },
        true⟩ := by
  rw [frenoxEthRxIsr, if_neg there, if_neg (by rw [memory]; decide)]

/-- Nothing is copied. -/
theorem contained_of_none {o : Outcome x} (none : o.copy = none)
    (unchanged : o.stats.rxBytes = stats.rxBytes) : Contained regs stats o where
  inside c some := absurd (none.symm.trans some) (by simp)
  refused _ := none
  received c some := absurd (none.symm.trans some) (by simp)
  unchanged _ := unchanged

/-- A frame that the buffer has room for is copied within the bounds. -/
theorem contained_of_fits (there : regs.rxNewPkt ≠ 0)
    (memory : netdevAllocSkb regs.requested = true) (least : 4 ≤ regs.rxLen.toNat)
    (most : regs.rxLen.toNat ≤ rxBufferSize) :
    Contained regs stats (frenoxEthRxIsr netdevAllocSkb regs stats) := by
  have small : regs.rxLen.toNat < 2 ^ 31 := Nat.lt_of_le_of_lt most (by decide)
  rw [rxIsr_copied there memory]
  refine ⟨?_, ?_, fun c _ => ?_, nofun⟩
  · intro c copied src dst given
    rcases given with ⟨i, below, rfl, rfl⟩
    obtain rfl := Option.some.inj copied
    rw [toNat_count least small] at below
    have reserved : netIpAlign.toNat = 2 := rfl
    rw [toNat_requested least, reserved]
    exact ⟨by omega, by omega, by omega⟩
  · intro either
    rcases either with short | long
    · omega
    · omega
  · exact congrArg (stats.rxBytes + ·) (signExtend_packetLen least small)

/-- An invocation copies only what it may exactly if there is no packet or no memory, or the length
is that of a frame that the buffer has room for. -/
theorem contained_iff :
    Contained regs stats (frenoxEthRxIsr netdevAllocSkb regs stats) ↔ Fits netdevAllocSkb regs := by
  rw [Fits]
  rcases eq_or_ne regs.rxNewPkt 0 with empty | there
  · refine iff_of_true ?_ (.inl empty)
    rw [rxIsr_none empty]
    exact contained_of_none rfl rfl
  · rw [or_iff_right there]
    cases memory : netdevAllocSkb regs.requested with
    | false =>
      refine iff_of_true ?_ (.inl rfl)
      rw [rxIsr_dropped there memory]
      exact contained_of_none rfl rfl
    | true =>
      rw [or_iff_right (by decide)]
      constructor
      · intro contained
        by_contra misfit
        have none := contained.refused (by omega)
        rw [rxIsr_copied there memory] at none
        cases none
      · intro given
        rcases given with ⟨least, most⟩
        exact contained_of_fits there memory least most

/-- A length of two asks for no memory at all, and then copies as many bytes as there are addresses
but two. -/
theorem not_contained_two :
    ¬ Contained (x := .rv64) ⟨1, 2⟩ ⟨0, 0, 0⟩
      (frenoxEthRxIsr (·.toNat ≤ 0x1000) ⟨1, 2⟩ ⟨0, 0, 0⟩) := by
  intro contained
  have none := contained.refused (.inl (by decide))
  cases none

/-! ## The device with its packets -/

section Device

variable {s : Eth x} {p : Packet} {rest : List Packet}

/-- The registers of a device. -/
def regsOf (d : Device) : RxRegs := ⟨d.rxNewPkt, d.rxLen⟩

/-- The counters of a device. -/
def statsOf (s : Eth x) : Stats x := ⟨s.rxPackets, s.rxBytes, s.rxDropped⟩

theorem rxNewPkt_ne_zero (there : s.device.fifo = p :: rest) : (regsOf s.device).rxNewPkt ≠ 0 := by
  rw [regsOf, Device.rxNewPkt, there]
  exact show (1 : BitVec 32) ≠ 0 by decide

theorem toNat_rxLen (there : s.device.fifo = p :: rest) :
    (regsOf s.device).rxLen.toNat = p.bytes.length := by
  have fits := p.fits
  rw [regsOf, Device.rxLen, there]
  exact Nat.mod_eq_of_lt (show p.bytes.length < 2 ^ 32 by omega)

/-- What is copied of a packet is its payload. -/
theorem copied_of_packet (there : s.device.fifo = p :: rest) :
    (regsOf s.device).packetLen.signExtend x.bits = BitVec.ofNat x.bits p.payload.length
      ∧ s.device.rxBuffer.take ((regsOf s.device).packetLen.signExtend x.bits).toNat
        = p.payload := by
  have least := p.checksum
  have most := p.fits
  have length := toNat_rxLen there
  constructor
  · rw [signExtend_packetLen (by omega) (by omega), length, p.length_payload]
  · rw [toNat_count (by omega) (by omega), length, Device.rxBuffer, there]
    rfl

/-- The handler of a device with packets is this one, on its registers: what it hands on is what is
copied out of the receive buffer. -/
theorem frenoxEthRxIsr_eq (allocates : Bool) (s : Eth x) :
    let o := frenoxEthRxIsr (fun _ => allocates) (regsOf s.device) (statsOf s)
    let r := FrenoxEth.frenoxEthRxIsr allocates s
    r.1 = o.ret ∧ statsOf r.2 = o.stats
      ∧ r.2.device = (if o.acked then s.device.rxAckPkt else s.device)
      ∧ r.2.netifRx
        = s.netifRx ++ o.copy.toList.map fun c => s.device.rxBuffer.take c.count.toNat := by
  cases there : s.device.fifo with
  | nil =>
    have empty : (regsOf s.device).rxNewPkt = 0 := by
      rw [regsOf, Device.rxNewPkt, there]
      rfl
    rw [rxIsr_none empty, rxIsr_empty allocates there]
    exact ⟨rfl, rfl, rfl, (List.append_nil _).symm⟩
  | cons p rest =>
    have present := rxNewPkt_ne_zero there
    cases allocates with
    | false =>
      rw [rxIsr_dropped present rfl, FrenoxEth.rxIsr_dropped there]
      exact ⟨rfl, rfl, rfl, (List.append_nil _).symm⟩
    | true =>
      obtain ⟨count, payload⟩ := copied_of_packet there
      rw [rxIsr_copied present rfl, rxIsr_received there]
      refine ⟨rfl, ?_, ?_, ?_⟩
      · rw [count]
        rfl
      · rw [Device.rxAckPkt, there]
        rfl
      · exact congrArg (fun data => s.netifRx ++ [data]) payload.symm

/-- A packet that fits the receive buffer is copied within the bounds. -/
theorem contained_of_packet (there : s.device.fifo = p :: rest)
    (fits : p.bytes.length ≤ rxBufferSize) (allocates : Bool) :
    Contained (regsOf s.device) (statsOf s)
      (frenoxEthRxIsr (fun _ => allocates) (regsOf s.device) (statsOf s)) := by
  have length := toNat_rxLen there
  cases allocates with
  | false =>
    rw [rxIsr_dropped (rxNewPkt_ne_zero there) rfl]
    exact contained_of_none rfl rfl
  | true =>
    refine contained_of_fits (rxNewPkt_ne_zero there) rfl ?_ ?_
    · rw [length]
      exact p.checksum
    · rwa [length]

end Device

end RiscvLinux.Drivers.FrenoxEth.Registers
