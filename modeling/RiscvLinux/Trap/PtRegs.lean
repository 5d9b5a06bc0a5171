import RiscvLinux.Lib.Memory

/-!
# Registers and `struct pt_regs`

The word of the machine, the general registers, the control registers the trap
path uses, and `struct pt_regs` with the offsets that `asm-offsets.c` makes of it
(`arch/riscv/include/asm/ptrace.h`, `csr.h`, `asm.h`, `thread_info.h`). Everything
is stated for both word lengths the kernel can be built for.
-/

namespace RiscvLinux.Trap

open Lib

/-- `CONFIG_32BIT` or `CONFIG_64BIT`. -/
inductive XLen
  | rv32
  | rv64
  deriving DecidableEq, Repr

/-- The number of bits of `unsigned long`. -/
def XLen.bits : XLen → Nat
  | .rv32 => 32
  | .rv64 => 64

/-- `SZREG`, the number of bytes that `REG_S` and `REG_L` move. -/
def XLen.szreg : XLen → Nat
  | .rv32 => 4
  | .rv64 => 8

/-- `unsigned long`. -/
abbrev Word (x : XLen) : Type := BitVec x.bits

theorem XLen.bits_eq (x : XLen) : x.bits = 8 * x.szreg := by
  cases x <;> rfl

theorem XLen.szreg_pos (x : XLen) : 0 < x.szreg := by
  cases x <;> decide

/-- The general registers; `x0` reads as zero and is not stored anywhere. -/
inductive Gpr
  | x1 | x2 | x3 | x4 | x5 | x6 | x7 | x8 | x9 | x10 | x11 | x12 | x13 | x14 | x15 | x16
  | x17 | x18 | x19 | x20 | x21 | x22 | x23 | x24 | x25 | x26 | x27 | x28 | x29 | x30 | x31
  deriving DecidableEq, Repr

namespace Gpr

/-! The names of the calling convention that `entry.S` uses. -/

abbrev ra : Gpr := .x1
abbrev sp : Gpr := .x2
abbrev gp : Gpr := .x3
abbrev tp : Gpr := .x4
abbrev t0 : Gpr := .x5
abbrev s0 : Gpr := .x8
abbrev s1 : Gpr := .x9
abbrev a0 : Gpr := .x10
abbrev a1 : Gpr := .x11
abbrev a2 : Gpr := .x12
abbrev s2 : Gpr := .x18
abbrev s3 : Gpr := .x19
abbrev s4 : Gpr := .x20

end Gpr

/-- The supervisor control registers of the trap path. -/
inductive Csr
  | sstatus | sepc | sbadaddr | scause | sscratch
  deriving DecidableEq, Repr

/-- The fields of `struct pt_regs`, in its order. -/
inductive PtReg
  | sepc | ra | sp | gp | tp | t0 | t1 | t2 | s0 | s1
  | a0 | a1 | a2 | a3 | a4 | a5 | a6 | a7
  | s2 | s3 | s4 | s5 | s6 | s7 | s8 | s9 | s10 | s11
  | t3 | t4 | t5 | t6
  | sstatus | sbadaddr | scause
  deriving DecidableEq, Repr

namespace PtReg

/-- The fields as the structure declares them. -/
def all : List PtReg :=
  [sepc, ra, sp, gp, tp, t0, t1, t2, s0, s1, a0, a1, a2, a3, a4, a5, a6, a7,
    s2, s3, s4, s5, s6, s7, s8, s9, s10, s11, t3, t4, t5, t6, sstatus, sbadaddr, scause]

/-- How many words stand before the field: `PT_SEPC`, `PT_RA`, … count in bytes. -/
def index (r : PtReg) : Nat :=
  all.idxOf r

theorem mem_all (r : PtReg) : r ∈ all := by
  cases r <;> simp [all]

theorem length_all : all.length = 35 :=
  rfl

theorem index_lt (r : PtReg) : r.index < 35 :=
  List.idxOf_lt_length_of_mem (mem_all r)

theorem index_inj {r s : PtReg} (same : r.index = s.index) : r = s :=
  (List.idxOf_inj (mem_all r)).mp same

end PtReg

/-- `struct pt_regs`: a word for every field. -/
abbrev PtRegs (x : XLen) : Type := PtReg → Word x

/-- `PT_SIZE`, the size of `struct pt_regs`. -/
def ptSize (x : XLen) : Nat := x.szreg * 35

theorem ptSize_le (x : XLen) : ptSize x ≤ 2 ^ x.bits := by
  cases x <;> decide

/-- Where the trap path takes a field from: a general register or a control register. -/
def PtReg.source : PtReg → Gpr ⊕ Csr
  | .sepc => .inr .sepc
  | .ra => .inl .x1
  | .sp => .inl .x2
  | .gp => .inl .x3
  | .tp => .inl .x4
  | .t0 => .inl .x5
  | .t1 => .inl .x6
  | .t2 => .inl .x7
  | .s0 => .inl .x8
  | .s1 => .inl .x9
  | .a0 => .inl .x10
  | .a1 => .inl .x11
  | .a2 => .inl .x12
  | .a3 => .inl .x13
  | .a4 => .inl .x14
  | .a5 => .inl .x15
  | .a6 => .inl .x16
  | .a7 => .inl .x17
  | .s2 => .inl .x18
  | .s3 => .inl .x19
  | .s4 => .inl .x20
  | .s5 => .inl .x21
  | .s6 => .inl .x22
  | .s7 => .inl .x23
  | .s8 => .inl .x24
  | .s9 => .inl .x25
  | .s10 => .inl .x26
  | .s11 => .inl .x27
  | .t3 => .inl .x28
  | .t4 => .inl .x29
  | .t5 => .inl .x30
  | .t6 => .inl .x31
  | .sstatus => .inr .sstatus
  | .sbadaddr => .inr .sbadaddr
  | .scause => .inr .scause

/-- The field that keeps a general register. -/
def Gpr.slot : Gpr → PtReg
  | .x1 => .ra
  | .x2 => .sp
  | .x3 => .gp
  | .x4 => .tp
  | .x5 => .t0
  | .x6 => .t1
  | .x7 => .t2
  | .x8 => .s0
  | .x9 => .s1
  | .x10 => .a0
  | .x11 => .a1
  | .x12 => .a2
  | .x13 => .a3
  | .x14 => .a4
  | .x15 => .a5
  | .x16 => .a6
  | .x17 => .a7
  | .x18 => .s2
  | .x19 => .s3
  | .x20 => .s4
  | .x21 => .s5
  | .x22 => .s6
  | .x23 => .s7
  | .x24 => .s8
  | .x25 => .s9
  | .x26 => .s10
  | .x27 => .s11
  | .x28 => .t3
  | .x29 => .t4
  | .x30 => .t5
  | .x31 => .t6

@[simp] theorem Gpr.source_slot (r : Gpr) : r.slot.source = .inl r := by
  cases r <;> rfl

end RiscvLinux.Trap
