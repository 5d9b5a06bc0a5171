import RiscvLinux.Lib.Bits
import RiscvLinux.Lib.Memory
import RiscvLinux.Lib.Run

/-!
# Assembly text and its runs

Texts of RISC-V instructions with labels, the machine that runs them, and the rules by which a
proof goes through a text: one rule for every instruction, and one for loops. Where a hart is in a
text is what is left of it from there on. Loads and stores are kept in a log, and those of given
bytes fault; what becomes of a fault is up to a handler, which knows the number of the instruction.
-/

namespace RiscvLinux.Lib.Asm

variable {lab : Type} {w : Nat}

/-! ## Texts -/

/-- The registers, by the names of the calling convention -/
inductive Reg
  | zero | ra | sp | gp | tp | t0 | t1 | t2 | s0 | s1
  | a0 | a1 | a2 | a3 | a4 | a5 | a6 | a7
  | s2 | s3 | s4 | s5 | s6 | s7 | s8 | s9 | s10 | s11
  | t3 | t4 | t5 | t6
  deriving DecidableEq, Repr

/-- The operations on two words -/
inductive Alu
  | add | sub | and | or | sll | srl | sltu
  deriving DecidableEq, Repr

/-- A shift goes by its second word modulo the width. -/
def Alu.eval : Alu → BitVec w → BitVec w → BitVec w
  | .add, a, b => a + b
  | .sub, a, b => a - b
  | .and, a, b => a &&& b
  | .or, a, b => a ||| b
  | .sll, a, b => a <<< (b.toNat % w)
  | .srl, a, b => a >>> (b.toNat % w)
  | .sltu, a, b => if a < b then 1 else 0

/-- The conditions of a branch -/
inductive Cond
  | eq | ne | ltu | geu
  deriving DecidableEq, Repr

def Cond.Holds : Cond → BitVec w → BitVec w → Prop
  | .eq, a, b => a = b
  | .ne, a, b => a ≠ b
  | .ltu, a, b => a < b
  | .geu, a, b => b ≤ a

instance (c : Cond) (a b : BitVec w) : Decidable (c.Holds a b) := by
  cases c <;> (unfold Cond.Holds; infer_instance)

/-- The instructions, with the pseudo-instructions of an assembler. A load of less than a word
extends the sign if `signed` says so. -/
inductive Insn (lab : Type) (w : Nat)
  | li (rd : Reg) (imm : BitVec w)
  | op (f : Alu) (rd rs1 rs2 : Reg)
  | opi (f : Alu) (rd rs1 : Reg) (imm : BitVec w)
  | load (len : Nat) (signed : Bool) (rd : Reg) (offset : BitVec w) (base : Reg)
  | store (len : Nat) (rs : Reg) (offset : BitVec w) (base : Reg)
  | branch (c : Cond) (rs1 rs2 : Reg) (target : lab)
  | j (target : lab)
  | la (rd : Reg) (target : lab)
  | jr (rs : Reg)
  | ret
  /-- Set or clear bits of `sstatus`. -/
  | csrs (rs : Reg)
  | csrc (rs : Reg)

/-- `move` -/
abbrev Insn.move (rd rs : Reg) : Insn lab w := .opi .add rd rs 0

/-- `neg` -/
abbrev Insn.neg (rd rs : Reg) : Insn lab w := .op .sub rd .zero rs

/-- `beqz` and `bnez` -/
abbrev Insn.beqz (rs : Reg) (target : lab) : Insn lab w := .branch .eq rs .zero target

abbrev Insn.bnez (rs : Reg) (target : lab) : Insn lab w := .branch .ne rs .zero target

inductive Line (lab : Type) (w : Nat)
  | label (l : lab)
  | insn (i : Insn lab w)

/-- A text, or what is left of it -/
abbrev Text (lab : Type) (w : Nat) : Type := List (Line lab w)

/-- Instructions without a label among them -/
abbrev insns (is : List (Insn lab w)) : Text lab w := is.map .insn

/-- What follows a label -/
def Text.after [DecidableEq lab] (l : lab) : Text lab w → Text lab w
  | [] => []
  | .label k :: rest => if k = l then rest else after l rest
  | .insn _ :: rest => after l rest

/-- How many instructions there are -/
def Text.count : Text lab w → Nat
  | [] => 0
  | .label _ :: rest => count rest
  | .insn _ :: rest => count rest + 1

/-- The text without its first instructions -/
def Text.skip : Nat → Text lab w → Text lab w
  | 0, text => text
  | _, [] => []
  | n + 1, .label _ :: rest => skip (n + 1) rest
  | n + 1, .insn _ :: rest => skip n rest

/-- The number of the first instruction after a label -/
def Text.index [DecidableEq lab] (text : Text lab w) (l : lab) : Nat :=
  text.count - (text.after l).count

/-- What a table makes of the number of an instruction. An entry has the label of the instruction
and the label to go on at. -/
def Text.fixup [DecidableEq lab] (text : Text lab w) (table : List (lab × lab)) (k : Nat) :
    Option Nat :=
  (table.find? fun entry => text.index entry.1 == k).map fun entry => text.index entry.2

/-! ## Machines -/

/-- An access to memory, as the log has it. A load and a store are ones that went through. -/
inductive Access (w : Nat)
  | load (addr : BitVec w) (len : Nat)
  | store (addr : BitVec w) (bytes : List UInt8)
  | fault (addr : BitVec w) (len : Nat)

/-- What a hart has but for its place in the text -/
structure Core (w : Nat) where
  reg : Reg → BitVec w
  sstatus : BitVec w
  mem : Memory w
  log : List (Access w)

/-- What a register reads as -/
def Core.get (c : Core w) (r : Reg) : BitVec w := if r = .zero then 0 else c.reg r

/-- The register gets a value. -/
def Core.set (c : Core w) (r : Reg) (v : BitVec w) : Core w :=
  { c with reg := fun q => if q = r then v else c.reg q }

def Core.setStatus (c : Core w) (v : BitVec w) : Core w := { c with sstatus := v }

/-- An access goes into the log. -/
def Core.note (c : Core w) (a : Access w) : Core w := { c with log := c.log ++ [a] }

/-- Bytes are stored. -/
def Core.stored (c : Core w) (a : BitVec w) (bs : List UInt8) : Core w :=
  { c with mem := c.mem.write a bs, log := c.log ++ [.store a bs] }

/-- The value that a load gives -/
def Core.value (c : Core w) (len : Nat) (signed : Bool) (a : BitVec w) : BitVec w :=
  if signed then (ofBytes (8 * len) (c.mem.read a len)).signExtend w
  else ofBytes w (c.mem.read a len)

/-- A hart in a text -/
structure State (lab : Type) (w : Nat) where
  code : Text lab w
  core : Core w

/-- A text at an address, which bytes fault, and what the handler of faults makes of the number of
an instruction: the number of the instruction to go on with. Instructions have four bytes. -/
structure Machine (lab : Type) (w : Nat) where
  text : Text lab w
  base : BitVec w
  loadFault : BitVec w → Bool
  storeFault : BitVec w → Bool
  handler : Nat → Option Nat

/-- An access to `len` bytes touches one of the given bytes. -/
def touches (bytes : BitVec w → Bool) (a : BitVec w) (len : Nat) : Bool :=
  (List.range len).any fun i => bytes (a + BitVec.ofNat w i)

/-- The number of the first instruction -/
def Machine.index (m : Machine lab w) (code : Text lab w) : Nat := m.text.count - code.count

/-- What the handler makes of a fault -/
def Machine.fault (m : Machine lab w) (code : Text lab w) (c : Core w) (a : BitVec w) (len : Nat) :
    Option (State lab w) :=
  (m.handler (m.index code)).map fun k => ⟨m.text.skip k, c.note (.fault a len)⟩

section

variable [DecidableEq lab]

/-- The address of a label -/
def Machine.address (m : Machine lab w) (l : lab) : BitVec w :=
  m.base + BitVec.ofNat w (4 * m.index (m.text.after l))

/-- One instruction, with the text after it -/
def Machine.exec (m : Machine lab w) (i : Insn lab w) (rest : Text lab w) (c : Core w) :
    Option (State lab w) :=
  match i with
  | .li rd imm => some ⟨rest, c.set rd imm⟩
  | .op f rd rs1 rs2 => some ⟨rest, c.set rd (f.eval (c.get rs1) (c.get rs2))⟩
  | .opi f rd rs1 imm => some ⟨rest, c.set rd (f.eval (c.get rs1) imm)⟩
  | .load len signed rd offset base =>
    let a := c.get base + offset
    if touches m.loadFault a len then m.fault (.insn i :: rest) c a len
    else some ⟨rest, (c.note (.load a len)).set rd (c.value len signed a)⟩
  | .store len rs offset base =>
    let a := c.get base + offset
    if touches m.storeFault a len then m.fault (.insn i :: rest) c a len
    else some ⟨rest, c.stored a (toBytes len (c.get rs))⟩
  | .branch cond rs1 rs2 target =>
    some ⟨if cond.Holds (c.get rs1) (c.get rs2) then m.text.after target else rest, c⟩
  | .j target => some ⟨m.text.after target, c⟩
  | .la rd target => some ⟨rest, c.set rd (m.address target)⟩
  | .jr rs =>
    let distance := (c.get rs - m.base).toNat
    if distance % 4 = 0 ∧ distance / 4 < m.text.count then some ⟨m.text.skip (distance / 4), c⟩
    else none
  | .ret => some ⟨[], c⟩
  | .csrs rs => some ⟨rest, c.setStatus (setBits c.sstatus (c.get rs))⟩
  | .csrc rs => some ⟨rest, c.setStatus (clearBits c.sstatus (c.get rs))⟩

/-- What a hart does next. Nothing is left after a return. -/
def Machine.step (m : Machine lab w) (s : State lab w) : Option (State lab w) :=
  match s.code with
  | [] => none
  | .label _ :: rest => some ⟨rest, s.core⟩
  | .insn i :: rest => m.exec i rest s.core

/-! ## Registers -/

end

@[simp] theorem Core.get_zero (c : Core w) : c.get .zero = 0 := rfl

theorem Core.get_set (c : Core w) (r q : Reg) (v : BitVec w) :
    (c.set r v).get q = if q = .zero then 0 else if q = r then v else c.get q := by
  unfold get set
  split
  · rfl
  · rfl

@[simp] theorem Core.get_note (c : Core w) (a : Access w) (q : Reg) : (c.note a).get q = c.get q :=
  rfl

@[simp] theorem Core.get_stored (c : Core w) (a : BitVec w) (bs : List UInt8) (q : Reg) :
    (c.stored a bs).get q = c.get q := rfl

@[simp] theorem Core.get_setStatus (c : Core w) (v : BitVec w) (q : Reg) :
    (c.setStatus v).get q = c.get q := rfl

@[simp] theorem Core.mem_set (c : Core w) (r : Reg) (v : BitVec w) : (c.set r v).mem = c.mem := rfl

@[simp] theorem Core.mem_note (c : Core w) (a : Access w) : (c.note a).mem = c.mem := rfl

@[simp] theorem Core.mem_setStatus (c : Core w) (v : BitVec w) : (c.setStatus v).mem = c.mem := rfl

@[simp] theorem Core.log_set (c : Core w) (r : Reg) (v : BitVec w) : (c.set r v).log = c.log := rfl

@[simp] theorem Core.log_setStatus (c : Core w) (v : BitVec w) : (c.setStatus v).log = c.log := rfl

@[simp] theorem Core.sstatus_set (c : Core w) (r : Reg) (v : BitVec w) :
    (c.set r v).sstatus = c.sstatus := rfl

@[simp] theorem Core.sstatus_note (c : Core w) (a : Access w) : (c.note a).sstatus = c.sstatus :=
  rfl

@[simp] theorem Core.sstatus_stored (c : Core w) (a : BitVec w) (bs : List UInt8) :
    (c.stored a bs).sstatus = c.sstatus := rfl

@[simp] theorem Core.log_note (c : Core w) (a : Access w) : (c.note a).log = c.log ++ [a] := rfl

@[simp] theorem Core.mem_stored (c : Core w) (a : BitVec w) (bs : List UInt8) :
    (c.stored a bs).mem = c.mem.write a bs := rfl

@[simp] theorem Core.log_stored (c : Core w) (a : BitVec w) (bs : List UInt8) :
    (c.stored a bs).log = c.log ++ [.store a bs] := rfl

@[simp] theorem Core.sstatus_setStatus (c : Core w) (v : BitVec w) :
    (c.setStatus v).sstatus = v := rfl

/-- Only the given registers are different. -/
def Core.Keeps (c c' : Core w) (changed : List Reg) : Prop :=
  ∀ q, q ∉ changed → c'.get q = c.get q

theorem Core.get_set_of_ne (c : Core w) {r q : Reg} (v : BitVec w) (differ : q ≠ r) :
    (c.set r v).get q = c.get q := by
  rw [get_set]
  by_cases zero : q = .zero
  · rw [if_pos zero, zero, get_zero]
  · rw [if_neg zero, if_neg differ]

/-- What a load of at most a word gives has the bytes that are there. -/
theorem Core.toBytes_value (c : Core w) {len : Nat} (room : 8 * len ≤ w) (signed : Bool)
    (a : BitVec w) : toBytes len (c.value len signed a) = c.mem.read a len := by
  have length := Memory.length_read c.mem a len
  unfold value
  cases signed with
  | false =>
    have back := @toBytes_ofBytes w (c.mem.read a len) (by rwa [length])
    rwa [length] at back
  | true =>
    have back := @toBytes_ofBytes (8 * len) (c.mem.read a len)
      (Nat.le_of_eq (congrArg (8 * ·) length))
    rw [length] at back
    generalize ofBytes (8 * len) (c.mem.read a len) = v at back ⊢
    have same : (v.signExtend w).setWidth (8 * len) = v := by
      refine BitVec.eq_of_getLsbD_eq fun i inside => ?_
      rw [BitVec.getLsbD_setWidth, BitVec.getLsbD_signExtend, if_pos inside]
      simp only [inside, decide_true, Bool.true_and, Nat.lt_of_lt_of_le inside room]
    rw [if_pos rfl, ← toBytes_setWidth (Nat.le_refl (8 * len)), same, back]

/-! ## Addresses -/

theorem add_ofNat_add (a : BitVec w) (i j : Nat) :
    a + BitVec.ofNat w i + BitVec.ofNat w j = a + BitVec.ofNat w (i + j) := by
  rw [BitVec.add_assoc, ← BitVec.ofNat_add]

theorem add_ofNat_succ (a : BitVec w) (i : Nat) :
    a + BitVec.ofNat w i + 1 = a + BitVec.ofNat w (i + 1) :=
  add_ofNat_add a i 1

/-- No address up to the end of a range wraps. -/
theorem toNat_add_ofNat {a : BitVec w} {n i : Nat} (room : a.toNat + n < 2 ^ w) (within : i ≤ n) :
    (a + BitVec.ofNat w i).toNat = a.toNat + i := by
  rw [BitVec.toNat_add, BitVec.toNat_ofNat, Nat.add_mod_mod, Nat.mod_eq_of_lt (by omega)]

/-- Two addresses of a range are in order as their distances are. -/
theorem add_ofNat_lt_iff {a : BitVec w} {n i j : Nat} (room : a.toNat + n < 2 ^ w) (first : i ≤ n)
    (second : j ≤ n) : a + BitVec.ofNat w i < a + BitVec.ofNat w j ↔ i < j := by
  rw [BitVec.lt_def, toNat_add_ofNat room first, toNat_add_ofNat room second]
  exact Nat.add_lt_add_iff_left

/-- An address at a distance from another -/
theorem add_ofNat_sub {a b : BitVec w} (after : a.toNat ≤ b.toNat) :
    a + BitVec.ofNat w (b.toNat - a.toNat) = b := by
  refine BitVec.eq_of_toNat_eq ?_
  rw [BitVec.toNat_add, BitVec.toNat_ofNat, Nat.add_mod_mod, Nat.add_sub_cancel' after,
    Nat.mod_eq_of_lt b.isLt]

@[simp] theorem touches_none (a : BitVec w) (len : Nat) : touches (fun _ => false) a len = false :=
  List.any_eq_false.mpr fun _ _ => Bool.false_ne_true

theorem touches_eq_false {bytes : BitVec w → Bool} {a : BitVec w} {len : Nat} :
    touches bytes a len = false ↔ ∀ i < len, bytes (a + BitVec.ofNat w i) = false := by
  unfold touches
  rw [List.any_eq_false]
  simp only [List.mem_range, Bool.not_eq_true]

/-! ## Places in a text -/

@[simp] theorem Text.skip_zero (text : Text lab w) : text.skip 0 = text := by
  cases text <;> rfl

/-- Skipping ends among the instructions. -/
theorem Text.skip_insns (is : List (Insn lab w)) (text : Text lab w) {k : Nat}
    (inside : k ≤ is.length) : skip k (insns is ++ text) = insns (is.drop k) ++ text := by
  induction k generalizing is with
  | zero => rw [skip_zero, List.drop_zero]
  | succ k ih =>
    cases is with
    | nil => exact absurd inside (Nat.not_succ_le_zero k)
    | cons i is => exact ih is (Nat.le_of_succ_le_succ inside)

/-- A label is not among the instructions. -/
theorem Text.after_insns [DecidableEq lab] (l : lab) (is : List (Insn lab w)) (text : Text lab w) :
    after l (insns is ++ text) = after l text := by
  induction is with
  | nil => rfl
  | cons i is ih => exact ih

theorem Text.after_label [DecidableEq lab] (l k : lab) (text : Text lab w) :
    after l (.label k :: text) = if k = l then text else after l text := rfl

/-- An entry of a table all of whose entries go on at one label -/
theorem Text.fixup_of_mem [DecidableEq lab] {text : Text lab w} {table : List (lab × lab)}
    {l l' : lab} (entry : (l, l') ∈ table) (one : ∀ e ∈ table, e.2 = l') :
    text.fixup table (text.index l) = some (text.index l') := by
  have found : (table.find? fun e => text.index e.1 == text.index l).isSome :=
    List.find?_isSome.mpr ⟨(l, l'), entry, beq_self_eq_true _⟩
  obtain ⟨e, here⟩ := Option.isSome_iff_exists.mp found
  rw [fixup, here, Option.map_some, one e (List.mem_of_find?_eq_some here)]

/-! ## Runs -/

section

variable [DecidableEq lab] {m : Machine lab w} {s t : State lab w} {c : Core w}
  {rest : Text lab w} {P Q : State lab w → Prop}

/-- The hart comes from a state to one with a property. -/
def Leads (m : Machine lab w) (s : State lab w) (Q : State lab w → Prop) : Prop :=
  ∃ t, Run (Steps m.step) s t ∧ Q t

namespace Leads

theorem here (holds : Q s) : Leads m s Q := ⟨s, .refl, holds⟩

theorem of_step (next : m.step s = some t) (leads : Leads m t Q) : Leads m s Q := by
  rcases leads with ⟨u, run, holds⟩
  exact ⟨u, .head next run, holds⟩

theorem bind (leads : Leads m s P) (after : ∀ t, P t → Leads m t Q) : Leads m s Q := by
  rcases leads with ⟨t, run, holds⟩
  obtain ⟨u, further, ends⟩ := after t holds
  exact ⟨u, run.trans further, ends⟩

theorem mono (leads : Leads m s P) (implies : ∀ t, P t → Q t) : Leads m s Q :=
  leads.bind fun t holds => here (implies t holds)

/-! One rule for every kind of line, from its end to its start. A rule is given the values that
the instruction works on, so that the terms stay small. -/

theorem label {l : lab} (leads : Leads m ⟨rest, c⟩ Q) : Leads m ⟨.label l :: rest, c⟩ Q :=
  of_step rfl leads

theorem li {rd : Reg} {imm : BitVec w} (leads : Leads m ⟨rest, c.set rd imm⟩ Q) :
    Leads m ⟨.insn (.li rd imm) :: rest, c⟩ Q :=
  of_step rfl leads

theorem op {f : Alu} {rd rs1 rs2 : Reg} (v : BitVec w)
    (value : f.eval (c.get rs1) (c.get rs2) = v) (leads : Leads m ⟨rest, c.set rd v⟩ Q) :
    Leads m ⟨.insn (.op f rd rs1 rs2) :: rest, c⟩ Q :=
  of_step (by rw [← value]; rfl) leads

theorem opi {f : Alu} {rd rs1 : Reg} {imm : BitVec w} (v : BitVec w)
    (value : f.eval (c.get rs1) imm = v) (leads : Leads m ⟨rest, c.set rd v⟩ Q) :
    Leads m ⟨.insn (.opi f rd rs1 imm) :: rest, c⟩ Q :=
  of_step (by rw [← value]; rfl) leads

section Access

variable {len k : Nat} {signed : Bool} {rd rs base : Reg} {offset : BitVec w} (a : BitVec w)
  (addr : c.get base + offset = a)
include addr

theorem load (v : BitVec w) (value : c.value len signed a = v)
    (clean : touches m.loadFault a len = false)
    (leads : Leads m ⟨rest, (c.note (.load a len)).set rd v⟩ Q) :
    Leads m ⟨.insn (.load len signed rd offset base) :: rest, c⟩ Q := by
  subst addr value
  exact of_step (if_neg (by rw [clean]; exact Bool.false_ne_true)) leads

theorem store (bs : List UInt8) (bytes : toBytes len (c.get rs) = bs)
    (clean : touches m.storeFault a len = false) (leads : Leads m ⟨rest, c.stored a bs⟩ Q) :
    Leads m ⟨.insn (.store len rs offset base) :: rest, c⟩ Q := by
  subst addr bytes
  exact of_step (if_neg (by rw [clean]; exact Bool.false_ne_true)) leads

theorem load_fault (faults : touches m.loadFault a len = true)
    (handled : m.handler (m.index (.insn (.load len signed rd offset base) :: rest)) = some k)
    (leads : Leads m ⟨m.text.skip k, c.note (.fault a len)⟩ Q) :
    Leads m ⟨.insn (.load len signed rd offset base) :: rest, c⟩ Q := by
  subst addr
  exact of_step ((if_pos faults).trans (by rw [Machine.fault, handled]; rfl)) leads

theorem step_store_fault (faults : touches m.storeFault a len = true)
    (handled : m.handler (m.index (.insn (.store len rs offset base) :: rest)) = some k) :
    m.step ⟨.insn (.store len rs offset base) :: rest, c⟩
      = some ⟨m.text.skip k, c.note (.fault a len)⟩ := by
  subst addr
  refine (if_pos faults).trans ?_
  rw [Machine.fault, handled]
  rfl

theorem store_fault (faults : touches m.storeFault a len = true)
    (handled : m.handler (m.index (.insn (.store len rs offset base) :: rest)) = some k)
    (leads : Leads m ⟨m.text.skip k, c.note (.fault a len)⟩ Q) :
    Leads m ⟨.insn (.store len rs offset base) :: rest, c⟩ Q :=
  of_step (step_store_fault a addr faults handled) leads

end Access

theorem branch {cond : Cond} {rs1 rs2 : Reg} {target : lab} (a b : BitVec w)
    (left : c.get rs1 = a) (right : c.get rs2 = b)
    (taken : cond.Holds a b → Leads m ⟨m.text.after target, c⟩ Q)
    (passed : ¬ cond.Holds a b → Leads m ⟨rest, c⟩ Q) :
    Leads m ⟨.insn (.branch cond rs1 rs2 target) :: rest, c⟩ Q := by
  subst left right
  refine of_step rfl ?_
  split
  · next holds => exact taken holds
  · next fails => exact passed fails

theorem j {target : lab} (leads : Leads m ⟨m.text.after target, c⟩ Q) :
    Leads m ⟨.insn (.j target) :: rest, c⟩ Q :=
  of_step rfl leads

theorem la {rd : Reg} {target : lab} (leads : Leads m ⟨rest, c.set rd (m.address target)⟩ Q) :
    Leads m ⟨.insn (.la rd target) :: rest, c⟩ Q :=
  of_step rfl leads

/-- A jump to an instruction -/
theorem jr {rs : Reg} {k : Nat} (inside : k < m.text.count) (small : 4 * k < 2 ^ w)
    (target : c.get rs = m.base + BitVec.ofNat w (4 * k))
    (leads : Leads m ⟨m.text.skip k, c⟩ Q) : Leads m ⟨.insn (.jr rs) :: rest, c⟩ Q := by
  have distance : (c.get rs - m.base).toNat = 4 * k := by
    rw [target, toNat_add_ofNat_sub small]
  have number : (c.get rs - m.base).toNat / 4 = k := by omega
  refine of_step (t := ⟨m.text.skip k, c⟩) ?_ leads
  have whole : (c.get rs - m.base).toNat % 4 = 0 := by omega
  exact (if_pos ⟨whole, number.symm ▸ inside⟩).trans (by rw [number])

/-- A jump to a label through a register -/
theorem jump {rt : Reg} {l : lab} (register : rt ≠ .zero) (inside : m.text.index l < m.text.count)
    (small : 4 * m.text.index l < 2 ^ w)
    (leads : Leads m ⟨m.text.skip (m.text.index l), c.set rt (m.address l)⟩ Q) :
    Leads m ⟨.insn (.la rt l) :: .insn (.jr rt) :: rest, c⟩ Q := by
  refine la (jr inside small ?_ leads)
  rw [Core.get_set, if_neg register, if_pos rfl]
  rfl

theorem ret (leads : Leads m ⟨[], c⟩ Q) : Leads m ⟨.insn .ret :: rest, c⟩ Q :=
  of_step rfl leads

theorem csrs {rs : Reg} (v : BitVec w) (value : setBits c.sstatus (c.get rs) = v)
    (leads : Leads m ⟨rest, c.setStatus v⟩ Q) : Leads m ⟨.insn (.csrs rs) :: rest, c⟩ Q :=
  of_step (by rw [← value]; rfl) leads

theorem csrc {rs : Reg} (v : BitVec w) (value : clearBits c.sstatus (c.get rs) = v)
    (leads : Leads m ⟨rest, c.setStatus v⟩ Q) : Leads m ⟨.insn (.csrc rs) :: rest, c⟩ Q :=
  of_step (by rw [← value]; rfl) leads

/-! Loops -/

/-- A loop of `n` turns, each of which goes on with the next or leaves in some other way. -/
theorem iterate {n : Nat} {inv : Nat → State lab w → Prop}
    (turn : ∀ i < n, ∀ s, inv i s → Leads m s fun t => Q t ∨ inv (i + 1) t)
    (start : inv 0 s) : Leads m s fun t => Q t ∨ inv n t := by
  induction n with
  | zero => exact here (.inr start)
  | succ n ih =>
    refine (ih fun i below => turn i (Nat.lt_succ_of_lt below)).bind fun t reached => ?_
    rcases reached with left | on
    · exact here (.inl left)
    · exact turn n (Nat.lt_succ_self n) t on

/-- A loop from `i` up to `stop`. -/
theorem upto {i stop : Nat} {inv : Nat → State lab w → Prop} (ordered : i ≤ stop)
    (turn : ∀ j, i ≤ j → j < stop → ∀ s, inv j s → Leads m s (inv (j + 1))) (start : inv i s) :
    Leads m s (inv stop) := by
  induction stop, ordered using Nat.le_induction with
  | base => exact here start
  | succ stop after ih =>
    refine (ih fun j first last => turn j first (Nat.lt_succ_of_lt last)).bind fun t on => ?_
    exact turn stop after (Nat.lt_succ_self stop) t on

end Leads

/-! ## The end of a run -/

theorem step_nil (m : Machine lab w) (c : Core w) : m.step ⟨[], c⟩ = none := rfl

/-- A hart comes to one end only. -/
theorem Leads.of_run {u : State lab w} (leads : Leads m s fun t => t.code = [] ∧ Q t)
    (run : Run (Steps m.step) s u) (ended : u.code = []) : Q u := by
  rcases leads with ⟨t, run', ended', holds⟩
  rcases t with ⟨code, c⟩
  rcases u with ⟨code', c'⟩
  obtain rfl : code = [] := ended'
  obtain rfl : code' = [] := ended
  rwa [Run.end_unique run (step_nil m c') run' (step_nil m c)]

omit [DecidableEq lab] in
theorem log_prefix_of_fault {code : Text lab w} {a : BitVec w} {len : Nat}
    (next : m.fault code c a len = some t) : c.log <+: t.core.log := by
  obtain ⟨k, -, rfl⟩ := Option.map_eq_some_iff.mp next
  exact ⟨[.fault a len], rfl⟩

/-- The log only grows. -/
theorem log_prefix_of_exec {i : Insn lab w} (next : m.exec i rest c = some t) :
    c.log <+: t.core.log := by
  cases i with
  | load len signed rd offset base =>
    rw [Machine.exec] at next
    split at next
    · exact log_prefix_of_fault next
    · cases next
      exact ⟨[.load _ _], rfl⟩
  | store len rs offset base =>
    rw [Machine.exec] at next
    split at next
    · exact log_prefix_of_fault next
    · cases next
      exact ⟨[.store _ _], rfl⟩
  | jr rs =>
    rw [Machine.exec] at next
    split at next
    · cases next
      exact List.prefix_rfl
    · cases next
  | li | op | opi | branch | j | la | ret | csrs | csrc =>
    cases next
    exact List.prefix_rfl

theorem log_prefix_of_step (next : m.step s = some t) : s.core.log <+: t.core.log := by
  rcases s with ⟨code, c⟩
  match code with
  | [] => cases next
  | .label l :: rest =>
    cases next
    exact List.prefix_rfl
  | .insn i :: rest => exact log_prefix_of_exec next

theorem log_grows (run : Run (Steps m.step) s t) : s.core.log <+: t.core.log := by
  induction run with
  | refl => exact List.prefix_rfl
  | tail _ next ih => exact ih.trans (log_prefix_of_step next)

/-- A hart that comes back again and again does not come to an end. -/
theorem Leads.not_ends (reached : Leads m s P)
    (again : ∀ s, P s → ∃ t, m.step s = some t ∧ Leads m t P) :
    ¬Leads m s fun t => t.code = [] ∧ Q t := by
  intro given
  rcases given with ⟨u, whole, ended, -⟩
  rcases reached with ⟨t, run, holds⟩
  rcases u with ⟨code, c⟩
  obtain rfl : code = [] := ended
  exact Run.never_halts again holds (run.through whole (step_nil m c)) (step_nil m c)

/-- What a hart has logged on its way is logged at the end. -/
theorem Leads.log_grows (reached : Leads m s P) (ends : Leads m s fun t => t.code = [] ∧ Q t) :
    ∃ t u, P t ∧ Q u ∧ t.core.log <+: u.core.log := by
  rcases reached with ⟨t, run, holds⟩
  rcases ends with ⟨u, whole, ended, holds'⟩
  rcases u with ⟨code, c⟩
  obtain rfl : code = [] := ended
  exact ⟨t, ⟨[], c⟩, holds, holds', Asm.log_grows (run.through whole (step_nil m c))⟩

end

end RiscvLinux.Lib.Asm
