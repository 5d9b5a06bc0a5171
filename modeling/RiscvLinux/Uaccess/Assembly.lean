import RiscvLinux.Lib.Asm
import RiscvLinux.Uaccess.CopyUser

/-!
# The text of `uaccess.S`

`__copy_user`, `__clear_user` and the code in `.fixup` that both share, instruction by instruction,
and what becomes of a fault.
-/

namespace RiscvLinux.Uaccess.Assembly

open Lib Lib.Asm Trap

variable {x : XLen}

/-! ## The text -/

/-- The numbered labels of a routine -/
inductive Local
  | one | two | three | four | five
  deriving DecidableEq, Repr

/-- The labels of `uaccess.S`. The macro `fixup` makes up a label of its own for every access. -/
inductive Label
  | copyUser
  | copy (l : Local)
  | clearUser
  | clear (l : Local)
  | ten
  | epc (k : Nat)
  deriving DecidableEq, Repr

/-- The macro `fixup` -/
def fixup (k : Nat) (i : Asm.Insn Label x.bits) : Text Label x.bits := [.label (.epc k), .insn i]

/-- Enable access to user memory. -/
def enable (rvPum : Bool) : Text Label x.bits :=
  if rvPum then insns [.li .t6 srPum, .csrc .t6] else []

/-- Disable access to user memory. -/
def disable (rvPum : Bool) : Text Label x.bits :=
  if rvPum then insns [.csrs .t6] else []

/-- `SZREG` -/
def szreg : Word x := BitVec.ofNat _ x.szreg

/-! The steps of the loops -/

theorem szreg_eq_ofNat (x : XLen) : (szreg : Word x) = BitVec.ofNat _ x.szreg := rfl

theorem one_eq_ofNat (x : XLen) : (1 : Word x) = BitVec.ofNat _ 1 := rfl

/-- `__copy_user` -/
def copyUser (x : XLen) (rvPum : Bool) : Text Label x.bits := List.flatten [
  [.label .copyUser],
  enable rvPum,
  insns [
    .op .add .a3 .a1 .a2,
    .opi .and .t0 .a0 szregMask,
    .opi .and .t1 .a1 szregMask,
    .branch .ne .t0 .t1 (.copy .two),
    .opi .add .t0 .a1 szregMask,
    .opi .and .t1 .a3 (~~~szregMask),
    .opi .and .t0 .t0 (~~~szregMask),
    .branch .geu .t0 .t1 (.copy .two),
    .branch .ltu .a1 .t0 (.copy .four)],
  [.label (.copy .one)],
  fixup 0 (.load x.szreg true .t2 0 .a1),
  fixup 1 (.store x.szreg .t2 0 .a0),
  insns [
    .opi .add .a1 .a1 szreg,
    .opi .add .a0 .a0 szreg,
    .branch .ltu .a1 .t1 (.copy .one)],
  [.label (.copy .two)],
  insns [
    .branch .ltu .a1 .a3 (.copy .five)],
  [.label (.copy .three)],
  disable rvPum,
  insns [
    .li .a0 0,
    .ret],
  [.label (.copy .four)],
  fixup 2 (.load 1 false .t2 0 .a1),
  fixup 3 (.store 1 .t2 0 .a0),
  insns [
    .opi .add .a1 .a1 1,
    .opi .add .a0 .a0 1,
    .branch .ltu .a1 .t0 (.copy .four),
    .j (.copy .one)],
  [.label (.copy .five)],
  fixup 4 (.load 1 false .t2 0 .a1),
  fixup 5 (.store 1 .t2 0 .a0),
  insns [
    .opi .add .a1 .a1 1,
    .opi .add .a0 .a0 1,
    .branch .ltu .a1 .a3 (.copy .five),
    .j (.copy .three)]]

/-- `__clear_user` -/
def clearUser (x : XLen) (rvPum : Bool) : Text Label x.bits := List.flatten [
  [.label .clearUser],
  enable rvPum,
  insns [
    .op .add .a3 .a0 .a1,
    .opi .add .t0 .a0 szregMask,
    .opi .and .t1 .a3 (~~~szregMask),
    .opi .and .t0 .t0 (~~~szregMask),
    .branch .geu .t0 .t1 (.clear .two),
    .branch .ltu .a0 .t0 (.clear .four)],
  [.label (.clear .one)],
  fixup 6 (.store x.szreg .zero 0 .a0),
  insns [
    .opi .add .a0 .a0 szreg,
    .branch .ltu .a0 .t1 (.clear .one)],
  [.label (.clear .two)],
  insns [
    .branch .ltu .a0 .a3 (.clear .five)],
  [.label (.clear .three)],
  disable rvPum,
  insns [
    .li .a0 0,
    .ret],
  [.label (.clear .four)],
  fixup 7 (.store 1 .zero 0 .a0),
  insns [
    .opi .add .a0 .a0 1,
    .branch .ltu .a0 .t0 (.clear .four),
    .j (.clear .one)],
  [.label (.clear .five)],
  fixup 8 (.store 1 .zero 0 .a0),
  insns [
    .opi .add .a0 .a0 1,
    .branch .ltu .a0 .a3 (.clear .five),
    .j (.clear .three)]]

/-- `uaccess.S`, with its `.fixup` -/
def uaccess (x : XLen) (rvPum : Bool) : Text Label x.bits := List.flatten [
  copyUser x rvPum,
  clearUser x rvPum,
  [.label .ten],
  disable rvPum,
  insns [
    .op .sub .a0 .a3 .a0,
    .ret]]

/-- What the macro `fixup` writes to `__ex_table` -/
def exTable : List (Label × Label) := (List.range 9).map fun k => (.epc k, .ten)

/-- The text, and `fixup_exception` by its table -/
def machine (e : Env x) (base : Word x) : Machine Label x.bits :=
  ⟨uaccess x e.rvPum, base, e.loadFault, e.storeFault, (uaccess x e.rvPum).fixup exTable⟩

/-! ## Faults -/

/-- The code in `.fixup` -/
theorem after_ten (rvPum : Bool) : (uaccess x rvPum).after .ten =
    disable rvPum ++ insns [.op .sub .a0 .a3 .a0, .ret] := by
  cases rvPum <;> rfl

/-- An instruction with the macro goes on at `10:`. -/
theorem handler_epc (rvPum : Bool) {k : Nat} (entry : k < 9) :
    (uaccess x rvPum).fixup exTable ((uaccess x rvPum).index (.epc k)) =
      some ((uaccess x rvPum).index .ten) := by
  refine Text.fixup_of_mem (List.mem_map.mpr ⟨k, List.mem_range.mpr entry, rfl⟩) fun e member => ?_
  obtain ⟨j, -, rfl⟩ := List.mem_map.mp member
  rfl

theorem skip_ten (rvPum : Bool) : (uaccess x rvPum).skip ((uaccess x rvPum).index .ten) =
    .label .ten :: (uaccess x rvPum).after .ten := by
  cases rvPum <;> rfl

section Rules

variable {e : Env x} {base : Word x} {c : Core x.bits} {rest : Text Label x.bits}
  {Q : Asm.State Label x.bits → Prop}

theorem leads_ten (leads : Leads (machine e base) ⟨disable e.rvPum ++
    insns [.op .sub .a0 .a3 .a0, .ret], c⟩ Q) :
    Leads (machine e base)
      ⟨(machine e base).text.skip ((machine e base).text.index .ten), c⟩ Q := by
  have here : (machine e base).text.skip ((machine e base).text.index .ten) = _ :=
    skip_ten e.rvPum
  rw [here, after_ten]
  exact .label leads

/-- A load with the macro that faults -/
theorem leads_load_fault {k len : Nat} {signed : Bool} {rd rs : Reg} {offset : Word x}
    (entry : k < 9)
    (here : (uaccess x e.rvPum).after (.epc k) = .insn (.load len signed rd offset rs) :: rest)
    (a : Word x) (addr : c.get rs + offset = a) (faults : touches e.loadFault a len = true)
    (leads : Leads (machine e base) ⟨disable e.rvPum ++ insns [.op .sub .a0 .a3 .a0, .ret],
      c.note (.fault a len)⟩ Q) :
    Leads (machine e base) ⟨.insn (.load len signed rd offset rs) :: rest, c⟩ Q := by
  have handled := handler_epc (x := x) e.rvPum entry
  rw [Text.index, here] at handled
  exact .load_fault a addr faults handled (leads_ten leads)

theorem leads_store_fault {k len : Nat} {rs rd : Reg} {offset : Word x} (entry : k < 9)
    (here : (uaccess x e.rvPum).after (.epc k) = .insn (.store len rs offset rd) :: rest)
    (a : Word x) (addr : c.get rd + offset = a) (faults : touches e.storeFault a len = true)
    (leads : Leads (machine e base) ⟨disable e.rvPum ++ insns [.op .sub .a0 .a3 .a0, .ret],
      c.note (.fault a len)⟩ Q) :
    Leads (machine e base) ⟨.insn (.store len rs offset rd) :: rest, c⟩ Q := by
  have handled := handler_epc (x := x) e.rvPum entry
  rw [Text.index, here] at handled
  exact .store_fault a addr faults handled (leads_ten leads)

/-! ## Access to user memory -/

theorem leads_enable (leads : ∀ c', (e.rvPum = true → c'.get .t6 = srPum) → c.Keeps c' [.t6] →
      c'.mem = c.mem → c'.log = c.log → Leads (machine e base) ⟨rest, c'⟩ Q) :
    Leads (machine e base) ⟨enable e.rvPum ++ rest, c⟩ Q := by
  unfold enable
  cases pum : e.rvPum with
  | false =>
    refine leads c (fun on => ?_) (fun _ _ => rfl) rfl rfl
    rw [pum] at on
    exact absurd on Bool.false_ne_true
  | true =>
    refine .li (.csrc _ rfl (leads _ (fun _ => rfl) (fun q other => ?_) rfl rfl))
    exact Core.get_set_of_ne _ _ (List.ne_of_not_mem_cons other)

/-- The flag is set again. -/
theorem leads_disable (flag : e.rvPum = true → c.get .t6 = srPum)
    (leads : ∀ s, (e.rvPum = true → s &&& srPum = srPum) →
      Leads (machine e base) ⟨rest, c.setStatus s⟩ Q) :
    Leads (machine e base) ⟨disable e.rvPum ++ rest, c⟩ Q := by
  unfold disable
  cases pum : e.rvPum with
  | false =>
    refine leads c.sstatus fun on => ?_
    rw [pum] at on
    exact absurd on Bool.false_ne_true
  | true =>
    have set : setBits c.sstatus (c.get .t6) &&& srPum = srPum := by
      rw [flag pum]
      exact setBits_and_of_covered (BitVec.and_self)
    exact .csrs _ rfl (leads _ fun _ => set)

end Rules

/-! ## What a log has stored -/

/-- The bytes that were stored, each with its address, in their order -/
def storedBytes (log : List (Access x.bits)) : List (Word x × UInt8) :=
  log.flatMap fun access => match access with
    | .store a bs => placed a bs
    | _ => []

theorem storedBytes_append (log log' : List (Access x.bits)) :
    storedBytes (log ++ log') = storedBytes log ++ storedBytes log' :=
  List.flatMap_append

@[simp] theorem storedBytes_store (log : List (Access x.bits)) (a : Word x) (bs : List UInt8) :
    storedBytes (log ++ [.store a bs]) = storedBytes log ++ placed a bs := by
  rw [storedBytes_append]
  exact congrArg (storedBytes log ++ ·) (List.append_nil _)

@[simp] theorem storedBytes_load (log : List (Access x.bits)) (a : Word x) (len : Nat) :
    storedBytes (log ++ [.load a len]) = storedBytes log := by
  rw [storedBytes_append]
  exact List.append_nil _

@[simp] theorem storedBytes_fault (log : List (Access x.bits)) (a : Word x) (len : Nat) :
    storedBytes (log ++ [.fault a len]) = storedBytes log := by
  rw [storedBytes_append]
  exact List.append_nil _

/-- What has been stored stays stored. -/
theorem storedBytes_grows {log log' : List (Access x.bits)} (grows : log <+: log') :
    storedBytes log <+: storedBytes log' := by
  rcases grows with ⟨more, rfl⟩
  exact ⟨storedBytes more, (storedBytes_append ..).symm⟩

/-! ## Rounding -/

/-- The lowest aligned address from `a` on, as the code finds it -/
def roundUp (a : Word x) : Word x := a + szregMask &&& ~~~szregMask

/-- The highest aligned address up to `a` -/
def roundDown (a : Word x) : Word x := a &&& ~~~szregMask

theorem toNat_roundUp {a : Word x} (inside : a.toNat + x.szreg ≤ 2 ^ x.bits) :
    (roundUp a).toNat = a.toNat + (x.szreg - 1) - (a.toNat + (x.szreg - 1)) % x.szreg :=
  toNat_roundUp_szreg inside

/-- Where rounding up leaves the address space, it is below the start and below the end. -/
theorem roundUp_of_beyond {a n : Word x} (room : a.toNat + n.toNat < 2 ^ x.bits)
    (beyond : 2 ^ x.bits < a.toNat + x.szreg) :
    ¬roundDown (a + n) ≤ roundUp a ∧ ¬a < roundUp a := by
  have small : 2 * x.szreg < 2 ^ x.bits := by cases x <;> decide
  have low : roundUp a = 0 := roundUp_szreg_of_wraps beyond
  have remainder := Nat.mod_lt (a.toNat + n.toNat) x.szreg_pos
  rw [low, BitVec.le_def, roundDown, toNat_roundDown, BitVec.toNat_add, Nat.mod_eq_of_lt room,
    BitVec.ofNat_eq_ofNat, BitVec.toNat_zero]
  exact ⟨by omega, BitVec.not_lt_zero⟩

/-- The end of a range that ends at the end of the address space rounds to zero. -/
theorem roundDown_of_wraps {a n : Word x} (wraps : a.toNat + n.toNat = 2 ^ x.bits) :
    roundDown (a + n) = 0 := by
  rw [add_eq_zero_of_wraps wraps]
  exact BitVec.zero_and

/-- The whole words of a range: how far the first is from its start, and how many there are -/
theorem exists_words {a n : Word x} (room : a.toNat + n.toNat < 2 ^ x.bits)
    (inside : a.toNat + x.szreg ≤ 2 ^ x.bits) (whole : roundUp a < roundDown (a + n)) :
    ∃ h turns, h + (turns + 1) * x.szreg ≤ n.toNat ∧ roundUp a = a + BitVec.ofNat _ h ∧
      roundDown (a + n) = a + BitVec.ofNat _ (h + (turns + 1) * x.szreg) ∧
      x.szreg ∣ (roundUp a).toNat := by
  have positive := x.szreg_pos
  have low := toNat_roundUp inside
  have high : (roundDown (a + n)).toNat
      = a.toNat + n.toNat - (a.toNat + n.toNat) % x.szreg := by
    rw [roundDown, toNat_roundDown, BitVec.toNat_add, Nat.mod_eq_of_lt room]
  have remainder := Nat.mod_lt (a.toNat + (x.szreg - 1)) positive
  have start : a.toNat ≤ (roundUp a).toNat := by omega
  have ordered : (roundUp a).toNat < (roundDown (a + n)).toNat := BitVec.lt_def.mp whole
  have low' : x.szreg ∣ (roundUp a).toNat := low ▸ Nat.dvd_sub_mod _
  have high' : x.szreg ∣ (roundDown (a + n)).toNat := high ▸ Nat.dvd_sub_mod _
  obtain ⟨words, apart⟩ := Nat.dvd_sub high' low'
  obtain ⟨turns, rfl⟩ : ∃ turns, words = turns + 1 := by
    refine Nat.exists_eq_add_one_of_ne_zero fun none => ?_
    rw [none, Nat.mul_zero] at apart
    omega
  rw [Nat.mul_comm] at apart
  have distance : (roundUp a).toNat - a.toNat + (turns + 1) * x.szreg
      = (roundDown (a + n)).toNat - a.toNat := by
    rw [← apart]
    omega
  refine ⟨(roundUp a).toNat - a.toNat, turns, by omega, (add_ofNat_sub start).symm, ?_, low'⟩
  rw [distance]
  exact (add_ofNat_sub (by omega)).symm

end RiscvLinux.Uaccess.Assembly
