import RiscvLinux.Uaccess.CopyText

/-!
# The blocks of `__copy_user` and its text

A step from a label of `__copy_user` to the next is a run of the instructions between them, and what
a call does step by step its instructions do. So what is known of the calls holds of the text.
-/

namespace RiscvLinux.Uaccess.Assembly.CopyUser

open Lib Lib.Asm Trap

variable {x : XLen} {e : Env x} {base : Word x}

/-- The text at a label -/
def code (e : Env x) : Uaccess.Label → Text Label x.bits
  | .entry => (uaccess x e.rvPum).after .copyUser
  | .one => (uaccess x e.rvPum).after (.copy .one)
  | .two => (uaccess x e.rvPum).after (.copy .two)
  | .three => (uaccess x e.rvPum).after (.copy .three)
  | .four => (uaccess x e.rvPum).after (.copy .four)
  | .five => (uaccess x e.rvPum).after (.copy .five)
  | .ten => (uaccess x e.rvPum).after .ten
  | .caller => []

/-- A hart has the registers and the memory of a state, and has stored the same bytes. -/
structure Represents (s : Uaccess.State x) (c : Core x.bits) : Prop where
  a0 : c.get .a0 = s.a0
  a1 : c.get .a1 = s.a1
  a2 : c.get .a2 = s.a2
  a3 : c.get .a3 = s.a3
  t0 : c.get .t0 = s.t0
  t1 : c.get .t1 = s.t1
  t2 : c.get .t2 = s.t2
  t6 : c.get .t6 = s.t6
  sstatus : c.sstatus = s.sstatus
  mem : c.mem = s.mem
  stores : storedBytes c.log = s.stores

/-- A hart at the text of a state -/
def At (e : Env x) (s : Uaccess.State x) (t : Asm.State Label x.bits) : Prop :=
  t.code = code e s.pc ∧ Represents s t.core

variable {s t : Uaccess.State x} {c : Core x.bits} {rest : Text Label x.bits}
  {Q : Asm.State Label x.bits → Prop}

/-! ## Access to user memory -/

theorem Represents.enable (represents : Represents s c)
    (leads : ∀ c', Represents (enableUserAccess e s) c' → Leads (machine e base) ⟨rest, c'⟩ Q) :
    Leads (machine e base) ⟨Assembly.enable e.rvPum ++ rest, c⟩ Q := by
  rcases represents with ⟨a0, a1, a2, a3, t0, t1, t2, t6, sstatus, mem, stores⟩
  unfold Assembly.enable
  unfold enableUserAccess at leads
  cases pum : e.rvPum with
  | false =>
    rw [pum] at leads
    exact leads c ⟨a0, a1, a2, a3, t0, t1, t2, t6, sstatus, mem, stores⟩
  | true =>
    rw [pum] at leads
    refine .li (.csrc (clearBits s.sstatus srPum) (congrArg (clearBits · _) sstatus) ?_)
    exact leads _ ⟨a0, a1, a2, a3, t0, t1, t2, rfl, rfl, mem, stores⟩

theorem Represents.disable (represents : Represents s c)
    (leads : ∀ c', Represents (disableUserAccess e s) c' → Leads (machine e base) ⟨rest, c'⟩ Q) :
    Leads (machine e base) ⟨Assembly.disable e.rvPum ++ rest, c⟩ Q := by
  rcases represents with ⟨a0, a1, a2, a3, t0, t1, t2, t6, sstatus, mem, stores⟩
  unfold Assembly.disable
  unfold disableUserAccess at leads
  cases pum : e.rvPum with
  | false =>
    rw [pum] at leads
    exact leads c ⟨a0, a1, a2, a3, t0, t1, t2, t6, sstatus, mem, stores⟩
  | true =>
    rw [pum] at leads
    refine .csrs (setBits s.sstatus s.t6) (by rw [sstatus, t6]) ?_
    exact leads _ ⟨a0, a1, a2, a3, t0, t1, t2, t6, rfl, mem, stores⟩

/-! ## The loops -/

/-- What a load of a whole word gives does not go by its sign. -/
theorem value_szreg (c : Core x.bits) (signed : Bool) (a : Word x) :
    c.value x.szreg signed a = c.mem.readWord x.szreg a := by
  cases signed with
  | false => rfl
  | true => cases x <;> exact BitVec.signExtend_eq _

/-- A fault changes nothing that a state has. -/
theorem Represents.fault (represents : Represents s c) (a : Word x) (len : Nat) :
    Represents s (c.note (.fault a len)) := by
  rcases represents with ⟨a0, a1, a2, a3, t0, t1, t2, t6, sstatus, mem, stores⟩
  exact ⟨a0, a1, a2, a3, t0, t1, t2, t6, sstatus, mem, (storedBytes_fault ..).trans stores⟩

theorem Represents.load (represents : Represents s c) (a : Word x) (len : Nat) (v : Word x) :
    Represents { s with t2 := v } ((c.note (.load a len)).set .t2 v) := by
  rcases represents with ⟨a0, a1, a2, a3, t0, t1, t2, t6, sstatus, mem, stores⟩
  exact ⟨a0, a1, a2, a3, t0, t1, rfl, t6, sstatus, mem, (storedBytes_load ..).trans stores⟩

theorem Represents.store (represents : Represents s c) (a : Word x) (bs : List UInt8) :
    Represents { s with mem := s.mem.write a bs, stores := s.stores ++ placed a bs }
      (c.stored a bs) := by
  rcases represents with ⟨a0, a1, a2, a3, t0, t1, t2, t6, sstatus, mem, stores⟩
  refine ⟨a0, a1, a2, a3, t0, t1, t2, t6, sstatus, congrArg (·.write a bs) mem, ?_⟩
  exact (storedBytes_store ..).trans (congrArg (· ++ placed a bs) stores)

theorem Represents.advance (represents : Represents s c) (v w : Word x) :
    Represents { s with a1 := v, a0 := w } ((c.set .a1 v).set .a0 w) := by
  rcases represents with ⟨-, -, a2, a3, t0, t1, t2, t6, sstatus, mem, stores⟩
  exact ⟨rfl, rfl, a2, a3, t0, t1, t2, t6, sstatus, mem, stores⟩

/-- The handler goes on at the fixup. -/
theorem Represents.ten (represents : Represents s c) (a : Word x) (len : Nat) :
    At e { s with pc := .ten }
      ⟨Assembly.disable e.rvPum ++ insns [.op .sub .a0 .a3 .a0, .ret], c.note (.fault a len)⟩ := by
  obtain ⟨a0, a1, a2, a3, t0, t1, t2, t6, sstatus, mem, stores⟩ := represents.fault a len
  exact ⟨(after_ten e.rvPum).symm, a0, a1, a2, a3, t0, t1, t2, t6, sstatus, mem, stores⟩

/-- The body of a loop in the text: the numbers of its accesses, its bound, and what follows it -/
structure Body (e : Env x) (len : Nat) (here exit : Uaccess.Label) where
  number : Nat
  signed : Bool
  bound : Reg
  step : Word x
  label : Label
  rest : Text Label x.bits
  inside : number + 1 < 9
  enters : code e here = .label (.epc number) :: (uaccess x e.rvPum).after (.epc number)
  loads : (uaccess x e.rvPum).after (.epc number) = .insn (.load len signed .t2 0 .a1) ::
    .label (.epc (number + 1)) :: (uaccess x e.rvPum).after (.epc (number + 1))
  stores : (uaccess x e.rvPum).after (.epc (number + 1)) = .insn (.store len .t2 0 .a0) ::
    .insn (.opi .add .a1 .a1 step) :: .insn (.opi .add .a0 .a0 step) ::
    .insn (.branch .ltu .a1 bound label) :: rest
  step_eq : step = BitVec.ofNat _ len
  back : (uaccess x e.rvPum).after label = code e here
  leaves : ∀ base c, Leads (machine e base) ⟨rest, c⟩ fun t => t = ⟨code e exit, c⟩
  value : ∀ (c : Core x.bits) a, c.value len signed a = c.mem.readWord len a
  other : bound ≠ .a0 ∧ bound ≠ .a1 ∧ bound ≠ .t2

/-- One turn of a loop -/
theorem Represents.unit {len : Nat} {here exit : Uaccess.Label} {load store : Uaccess.Insn}
    (body : Body e len here exit) (pc : s.pc = here) (represents : Represents s c)
    (unit : copyUnit e len load store (c.get body.bound) exit s = some t) :
    Leads (machine e base) ⟨code e here, c⟩ (At e t) := by
  have source : c.get .a1 + 0 = s.a1 := (BitVec.add_zero _).trans represents.a1
  rw [body.enters, body.loads]
  unfold copyUnit at unit
  split at unit
  · next faults =>
    rw [fixupException_eq] at unit
    cases unit
    exact .label (leads_load_fault (Nat.lt_of_succ_lt body.inside) body.loads _ source faults
      (.here (represents.ten ..)))
  next loads =>
  have loaded := represents.load s.a1 len (s.mem.readWord len s.a1)
  have value : c.value len body.signed s.a1 = s.mem.readWord len s.a1 := by
    rw [body.value, represents.mem]
  refine .label (.load _ source _ value (Bool.eq_false_of_not_eq_true loads) (.label ?_))
  have target : ((c.note (.load s.a1 len)).set .t2 (s.mem.readWord len s.a1)).get .a0 + 0 = s.a0 :=
    (BitVec.add_zero _).trans loaded.a0
  rw [body.stores]
  dsimp only at unit
  split at unit
  · next faults =>
    rw [fixupException_eq] at unit
    cases unit
    exact leads_store_fault body.inside body.stores _ target faults (.here (loaded.ten ..))
  next clean =>
  have stored := (loaded.store s.a0 (toBytes len (s.mem.readWord len s.a1))).advance
    (s.a1 + BitVec.ofNat _ len) (s.a0 + BitVec.ofNat _ len)
  cases unit
  refine .store _ target _ rfl (Bool.eq_false_of_not_eq_true clean) ?_
  refine .opi (s.a1 + BitVec.ofNat _ len) ?_ (.opi (s.a0 + BitVec.ofNat _ len) ?_ ?_)
  · rw [body.step_eq]
    exact congrArg (· + BitVec.ofNat _ len) represents.a1
  · rw [body.step_eq]
    exact congrArg (· + BitVec.ofNat _ len) represents.a0
  rcases stored with ⟨a0, a1, a2, a3, t0, t1, t2, t6, sstatus, mem, stores⟩
  refine .branch (s.a1 + BitVec.ofNat _ len) (c.get body.bound) a1 ?_ (fun less => ?_)
    fun none => ?_
  · rw [Core.get_set_of_ne _ _ body.other.1, Core.get_set_of_ne _ _ body.other.2.1,
      Core.get_stored, Core.get_set_of_ne _ _ body.other.2.2, Core.get_note]
  · refine .here ⟨?_, a0, a1, a2, a3, t0, t1, t2, t6, sstatus, mem, stores⟩
    exact body.back.trans (congrArg (code e) (pc.symm.trans (if_pos less).symm))
  · refine (body.leaves base _).mono fun u there => ?_
    obtain rfl := there
    refine ⟨congrArg (code e) (if_neg none).symm, ?_⟩
    exact ⟨a0, a1, a2, a3, t0, t1, t2, t6, sstatus, mem, stores⟩

/-- `1:` -/
def wordBody : Body e x.szreg .one .two where
  number := 0
  signed := true
  bound := .t1
  step := szreg
  label := .copy .one
  rest := .label (.copy .two) :: (uaccess x e.rvPum).after (.copy .two)
  inside := by decide
  enters := by unfold code; cases e.rvPum <;> rfl
  loads := by cases e.rvPum <;> rfl
  stores := by cases e.rvPum <;> rfl
  step_eq := szreg_eq_ofNat x
  back := rfl
  leaves _ _ := .label (.here rfl)
  value c a := value_szreg c true a
  other := by decide

/-- `4:` -/
def headBody : Body e 1 .four .one where
  number := 2
  signed := false
  bound := .t0
  step := 1
  label := .copy .four
  rest := .insn (.j (.copy .one)) :: .label (.copy .five) ::
    (uaccess x e.rvPum).after (.copy .five)
  inside := by decide
  enters := by unfold code; cases e.rvPum <;> rfl
  loads := by cases e.rvPum <;> rfl
  stores := by cases e.rvPum <;> rfl
  step_eq := one_eq_ofNat x
  back := rfl
  leaves _ _ := .j (.here rfl)
  value _ _ := rfl
  other := by decide

/-- `5:` -/
def tailBody : Body e 1 .five .three where
  number := 4
  signed := false
  bound := .a3
  step := 1
  label := .copy .five
  rest := .insn (.j (.copy .three)) :: .label .clearUser ::
    (uaccess x e.rvPum).after .clearUser
  inside := by decide
  enters := by unfold code; cases e.rvPum <;> rfl
  loads := by cases e.rvPum <;> rfl
  stores := by cases e.rvPum <;> rfl
  step_eq := one_eq_ofNat x
  back := rfl
  leaves _ _ := .j (.here rfl)
  value _ _ := rfl
  other := by decide

/-! ## The steps -/

/-- From the entry to the first label -/
theorem Represents.entry (represents : Represents s c) :
    Leads (machine e base) ⟨(uaccess x e.rvPum).after .copyUser, c⟩
      (At e (Uaccess.entry e s)) := by
  rw [after_copyUser]
  refine represents.enable fun c' represents' => ?_
  unfold Uaccess.entry
  generalize enableUserAccess e s = u at represents' ⊢
  rcases represents' with ⟨a0, a1, a2, a3, t0, t1, t2, t6, sstatus, mem, stores⟩
  refine .op (u.a1 + u.a2) (by rw [a1, a2]; rfl) ?_
  refine .opi (u.a0 &&& szregMask) (congrArg (· &&& szregMask) a0) ?_
  refine .opi (u.a1 &&& szregMask) (congrArg (· &&& szregMask) a1) ?_
  dsimp only
  generalize low : u.a1 + szregMask &&& ~~~szregMask = lo
  generalize high : u.a1 + u.a2 &&& ~~~szregMask = hi
  refine .branch (u.a0 &&& szregMask) (u.a1 &&& szregMask) rfl rfl
    (fun (differ : u.a0 &&& szregMask ≠ u.a1 &&& szregMask) => ?_)
    fun (alike : ¬u.a0 &&& szregMask ≠ u.a1 &&& szregMask) => ?_
  · rw [if_pos differ]
    exact .here ⟨rfl, a0, a1, a2, rfl, rfl, rfl, t2, t6, sstatus, mem, stores⟩
  rw [if_neg alike]
  refine .opi (u.a1 + szregMask) (congrArg (· + szregMask) a1) (.opi hi high (.opi lo low ?_))
  refine .branch lo hi rfl rfl (fun (small : hi ≤ lo) => ?_) fun (whole : ¬hi ≤ lo) => ?_
  · rw [if_pos small]
    exact .here ⟨rfl, a0, a1, a2, rfl, rfl, rfl, t2, t6, sstatus, mem, stores⟩
  rw [if_neg whole]
  refine .branch u.a1 lo a1 rfl (fun (unaligned : u.a1 < lo) => ?_)
    fun (aligned : ¬u.a1 < lo) => ?_
  · rw [if_pos unaligned]
    exact .here ⟨rfl, a0, a1, a2, rfl, rfl, rfl, t2, t6, sstatus, mem, stores⟩
  · rw [if_neg aligned]
    exact .label (.here ⟨rfl, a0, a1, a2, rfl, rfl, rfl, t2, t6, sstatus, mem, stores⟩)

/-- The test for a tail -/
theorem Represents.two (represents : Represents s c) :
    Leads (machine e base) ⟨(uaccess x e.rvPum).after (.copy .two), c⟩
      (At e { s with pc := if s.a1 < s.a3 then .five else .three }) := by
  rcases represents with ⟨a0, a1, a2, a3, t0, t1, t2, t6, sstatus, mem, stores⟩
  rw [after_two]
  refine .branch s.a1 s.a3 a1 a3 (fun (less : s.a1 < s.a3) => ?_)
    fun (none : ¬s.a1 < s.a3) => ?_
  · rw [if_pos less]
    exact .here ⟨rfl, a0, a1, a2, a3, t0, t1, t2, t6, sstatus, mem, stores⟩
  · rw [if_neg none]
    exact .label (.here ⟨rfl, a0, a1, a2, a3, t0, t1, t2, t6, sstatus, mem, stores⟩)

/-- The end without a fault -/
theorem Represents.three (represents : Represents s c) :
    Leads (machine e base) ⟨(uaccess x e.rvPum).after (.copy .three), c⟩
      (At e { disableUserAccess e s with a0 := 0, pc := .caller }) := by
  rw [after_three, List.append_assoc]
  refine represents.disable fun c' represents' => ?_
  rcases represents' with ⟨-, a1, a2, a3, t0, t1, t2, t6, sstatus, mem, stores⟩
  exact .li (.ret (.here ⟨rfl, rfl, a1, a2, a3, t0, t1, t2, t6, sstatus, mem, stores⟩))

/-- The end with one -/
theorem Represents.fixup (represents : Represents s c) :
    Leads (machine e base) ⟨(uaccess x e.rvPum).after .ten, c⟩
      (At e { disableUserAccess e s with a0 := s.a3 - s.a0, pc := .caller }) := by
  rw [after_ten]
  refine represents.disable fun c' represents' => ?_
  rcases represents' with ⟨a0, a1, a2, a3, t0, t1, t2, t6, sstatus, mem, stores⟩
  have kept : ∀ u : Uaccess.State x, (disableUserAccess e u).a3 - (disableUserAccess e u).a0
      = u.a3 - u.a0 := fun u => by unfold disableUserAccess; split <;> rfl
  refine .op (s.a3 - s.a0) ?_ ?_
  · rw [a3, a0]
    exact kept s
  · exact .ret (.here ⟨rfl, rfl, a1, a2, a3, t0, t1, t2, t6, sstatus, mem, stores⟩)

/-- A step from a label to the next is a run of the instructions between them. -/
theorem Represents.step (represents : Represents s c) (stepped : next e s = some t) :
    Leads (machine e base) ⟨code e s.pc, c⟩ (At e t) := by
  unfold next at stepped
  split at stepped <;> rename_i pc <;> rw [pc]
  · cases stepped
    exact represents.entry
  · rw [← represents.t1] at stepped
    exact represents.unit wordBody pc stepped
  · cases stepped
    exact represents.two
  · cases stepped
    exact represents.three
  · rw [← represents.t0] at stepped
    exact represents.unit headBody pc stepped
  · rw [← represents.a3] at stepped
    exact represents.unit tailBody pc stepped
  · cases stepped
    exact represents.fixup
  · cases stepped

/-- And so is every run. -/
theorem Represents.run (represents : Represents s c) (run : Run (Steps (next e)) s t) :
    Leads (machine e base) ⟨code e s.pc, c⟩ (At e t) := by
  induction run with
  | refl => exact .here ⟨rfl, represents⟩
  | tail _ stepped ih =>
    refine ih.bind fun u there => ?_
    rcases u with ⟨here, core⟩
    rcases there with ⟨place, represents'⟩
    obtain rfl : here = _ := place
    exact represents'.step stepped

/-! ## Calls -/

/-- What a state has of a hart -/
def view (c : Core x.bits) : Uaccess.State x where
  pc := .caller
  a0 := c.get .a0
  a1 := c.get .a1
  a2 := c.get .a2
  a3 := c.get .a3
  t0 := c.get .t0
  t1 := c.get .t1
  t2 := c.get .t2
  t6 := c.get .t6
  sstatus := c.sstatus
  mem := c.mem
  stores := storedBytes c.log

theorem Represents.view_eq (represents : Represents s c) (pc : s.pc = .caller) : view c = s := by
  rcases represents with ⟨a0, a1, a2, a3, t0, t1, t2, t6, sstatus, mem, stores⟩
  unfold view
  rw [a0, a1, a2, a3, t0, t1, t2, t6, sstatus, mem, stores, ← pc]

/-- A call of the text, as one of the blocks -/
def Call.blocks (k : Call x) : Uaccess.Call x := ⟨k.target, k.source, k.n, view k.before⟩

theorem Call.represents_start (k : Call x) : Represents k.blocks.start k.start :=
  ⟨rfl, rfl, rfl, rfl, rfl, rfl, rfl, rfl, rfl, rfl, rfl⟩

/-- A call that returns has its text come to an end, with what it returns. -/
theorem Call.leads_view {k : Call x} (run : Run (Steps (next e)) k.blocks.start s)
    (pc : s.pc = .caller) :
    Leads (machine e base) ⟨(uaccess x e.rvPum).after .copyUser, k.start⟩ fun u =>
      u.code = [] ∧ view u.core = s := by
  refine (k.represents_start.run run).mono fun u there => ?_
  exact ⟨there.1.trans (congrArg (code e) pc), there.2.view_eq pc⟩

/-- So the instructions of a harmless call copy and report what they should. -/
theorem Call.reports_of_harmless {k : Call x} (base : Word x) (disjoint : k.blocks.Disjoint)
    (fits : k.blocks.Fits) (harmless : Harmless e k.blocks) :
    Leads (machine e base) ⟨(uaccess x e.rvPum).after .copyUser, k.start⟩ fun u =>
      u.code = [] ∧ Reports k.blocks (view u.core) := by
  obtain ⟨s, run, pc, reports⟩ := (reported_iff_harmless disjoint fits).mpr harmless
  refine (Call.leads_view run pc).mono fun u ended => ?_
  rcases ended with ⟨code, same⟩
  exact ⟨code, same ▸ reports⟩

end RiscvLinux.Uaccess.Assembly.CopyUser
