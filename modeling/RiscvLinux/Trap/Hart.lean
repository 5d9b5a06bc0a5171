import Mathlib.Logic.Function.Basic
import RiscvLinux.Trap.Status

/-!
# A hart and its instructions

The state of one hart as the trap path sees it, with the memory of the kernel, and
one function for each instruction that `entry.S` uses, so that a macro of `entry.S` is
written below as the same instructions in the same order.
-/

namespace RiscvLinux.Trap

open Lib

variable {x : XLen}

/-- A hart: its mode, its registers and the kernel memory it sees. -/
structure Hart (x : XLen) where
  mode : Mode
  pc : Word x
  gpr : Gpr → Word x
  csr : Csr → Word x
  mem : Memory x.bits

namespace Hart

/-- `rd` gets a value. -/
def set (h : Hart x) (rd : Gpr) (v : Word x) : Hart x :=
  { h with gpr := Function.update h.gpr rd v }

/-- `csrw csr, v`. -/
def csrw (h : Hart x) (c : Csr) (v : Word x) : Hart x :=
  { h with csr := Function.update h.csr c v }

/-- `csrr rd, csr`. -/
def csrr (h : Hart x) (rd : Gpr) (c : Csr) : Hart x :=
  h.set rd (h.csr c)

/-- `csrrw rd, csr, rs`: the two values change places. -/
def csrrw (h : Hart x) (rd : Gpr) (c : Csr) (rs : Gpr) : Hart x :=
  (h.csrw c (h.gpr rs)).set rd (h.csr c)

/-- `csrrc rd, csr, rs`: the bits of `rs` are cleared and the old value is read. -/
def csrrc (h : Hart x) (rd : Gpr) (c : Csr) (rs : Gpr) : Hart x :=
  (h.csrw c (clearBits (h.csr c) (h.gpr rs))).set rd (h.csr c)

/-- `csrc csr, mask`. -/
def csrc (h : Hart x) (c : Csr) (mask : Word x) : Hart x :=
  h.csrw c (clearBits (h.csr c) mask)

/-- `csrs csr, mask`. -/
def csrs (h : Hart x) (c : Csr) (mask : Word x) : Hart x :=
  h.csrw c (setBits (h.csr c) mask)

/-- `REG_S rs, PT_r(sp)`. -/
def regS (h : Hart x) (rs : Gpr) (r : PtReg) : Hart x :=
  { h with mem := h.mem.writeWord x.szreg (field x.szreg (h.gpr .sp) r.index) (h.gpr rs) }

/-- `REG_L rd, PT_r(sp)`. -/
def regL (h : Hart x) (rd : Gpr) (r : PtReg) : Hart x :=
  h.set rd (h.mem.readWord x.szreg (field x.szreg (h.gpr .sp) r.index))

/-! ## What the instructions leave alone -/

@[simp] theorem gpr_set_same (h : Hart x) (rd : Gpr) (v : Word x) : (h.set rd v).gpr rd = v :=
  Function.update_self ..

theorem gpr_set_ne (h : Hart x) {rd r : Gpr} (v : Word x) (differ : r ≠ rd) :
    (h.set rd v).gpr r = h.gpr r :=
  Function.update_of_ne differ ..

@[simp] theorem csr_set (h : Hart x) (rd : Gpr) (v : Word x) : (h.set rd v).csr = h.csr := rfl

@[simp] theorem mem_set (h : Hart x) (rd : Gpr) (v : Word x) : (h.set rd v).mem = h.mem := rfl

@[simp] theorem pc_set (h : Hart x) (rd : Gpr) (v : Word x) : (h.set rd v).pc = h.pc := rfl

@[simp] theorem mode_set (h : Hart x) (rd : Gpr) (v : Word x) : (h.set rd v).mode = h.mode := rfl

@[simp] theorem csr_csrw_same (h : Hart x) (c : Csr) (v : Word x) : (h.csrw c v).csr c = v :=
  Function.update_self ..

theorem csr_csrw_ne (h : Hart x) {c d : Csr} (v : Word x) (differ : d ≠ c) :
    (h.csrw c v).csr d = h.csr d :=
  Function.update_of_ne differ ..

@[simp] theorem gpr_csrw (h : Hart x) (c : Csr) (v : Word x) : (h.csrw c v).gpr = h.gpr := rfl

@[simp] theorem mem_csrw (h : Hart x) (c : Csr) (v : Word x) : (h.csrw c v).mem = h.mem := rfl

@[simp] theorem pc_csrw (h : Hart x) (c : Csr) (v : Word x) : (h.csrw c v).pc = h.pc := rfl

@[simp] theorem mode_csrw (h : Hart x) (c : Csr) (v : Word x) : (h.csrw c v).mode = h.mode := rfl

@[simp] theorem gpr_regS (h : Hart x) (rs : Gpr) (r : PtReg) : (h.regS rs r).gpr = h.gpr := rfl

@[simp] theorem mode_regS (h : Hart x) (rs : Gpr) (r : PtReg) : (h.regS rs r).mode = h.mode := rfl

@[simp] theorem csr_regS (h : Hart x) (rs : Gpr) (r : PtReg) : (h.regS rs r).csr = h.csr := rfl

/-! ## Traps and returns -/

/-- A trap: the hart keeps where and in which mode it was, and enters the kernel at
`stvec`, which `trap_init` sets to `handle_exception`. -/
def trap (h : Hart x) (stvec cause badaddr : Word x) : Hart x :=
  { h with
    mode := .supervisor
    pc := stvec
    csr := fun
      | .sstatus => trapStatus h.mode (h.csr .sstatus)
      | .sepc => h.pc
      | .scause => cause
      | .sbadaddr => badaddr
      | .sscratch => h.csr .sscratch }

/-- `sret`. -/
def sret (h : Hart x) : Hart x :=
  { h.csrw .sstatus (sretStatus (h.csr .sstatus)) with
    mode := sretMode (h.csr .sstatus)
    pc := h.csr .sepc }

@[simp] theorem gpr_sret (h : Hart x) : h.sret.gpr = h.gpr := rfl

@[simp] theorem mem_sret (h : Hart x) : h.sret.mem = h.mem := rfl

@[simp] theorem pc_sret (h : Hart x) : h.sret.pc = h.csr .sepc := rfl

@[simp] theorem mode_sret (h : Hart x) : h.sret.mode = sretMode (h.csr .sstatus) := rfl

@[simp] theorem sstatus_sret (h : Hart x) :
    h.sret.csr .sstatus = sretStatus (h.csr .sstatus) := by
  simp [sret]

@[simp] theorem sscratch_sret (h : Hart x) : h.sret.csr .sscratch = h.csr .sscratch := rfl

end Hart

end RiscvLinux.Trap
