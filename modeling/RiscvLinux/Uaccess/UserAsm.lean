import RiscvLinux.Lib.Asm
import RiscvLinux.Uaccess.CopyUser
import RiscvLinux.Uaccess.GetUser

/-!
# The inline assembly of `__get_user` and `__put_user`

The macros of `arch/riscv/include/asm/uaccess.h`, with their `.fixup` and their part of
`__ex_table`. `right_iff` says when a macro comes to its end on a 32-bit hart with what it should: a
fault of `__put_user` of eight bytes resumes between its two stores.
-/

namespace RiscvLinux.Uaccess.UserAsm

open Lib Lib.Asm Trap

variable {x : XLen}

/-! ## The text -/

/-- The numbered labels -/
inductive Label
  | one | two | three | four
  deriving DecidableEq, Repr

/-- `sizeof(*(ptr))` -/
inductive Size
  | one | two | four | eight
  deriving DecidableEq, Repr

def Size.bytes : Size → Nat
  | .one => 1
  | .two => 2
  | .four => 4
  | .eight => 8

abbrev Code (x : XLen) : Type := Text Label x.bits

/-- `-EFAULT` -/
def efault : Word x := BitVec.ofInt _ eFault

/-! The registers are all different: `err` is `a0`, `x` or its low half `a1`, its high half `a4`,
`ptr` is `a2` and `__tmp` is `a3`. -/

/-- `__enable_user_access` -/
def enableUserAccess (rvPum : Bool) : Code x :=
  if rvPum then insns [.li .t6 srPum, .csrc .t6] else []

/-- `__disable_user_access` -/
def disableUserAccess (rvPum : Bool) : Code x :=
  if rvPum then insns [.li .t6 srPum, .csrs .t6] else []

/-- `jump l, __tmp` -/
def jump (l : Label) : Code x := insns [.la .a3 l, .jr .a3]

/-- Inline assembly, with what it puts into other sections. What follows it is taken to return. -/
structure Block (x : XLen) where
  code : Code x
  fixup : Code x
  exTable : List (Label × Label)

/-- `__get_user_asm`, for a load of `len` bytes -/
def getUserAsm (rvPum : Bool) (len : Nat) : Block x where
  code := List.flatten [
    enableUserAccess rvPum,
    [.label .one],
    insns [.load len true .a1 0 .a2],
    [.label .two],
    disableUserAccess rvPum]
  fixup := List.flatten [
    [.label .three],
    insns [.li .a0 efault, .li .a1 0],
    jump .two]
  exTable := [(.one, .three)]

/-- `__get_user_8` without `CONFIG_64BIT`. The order of the bytes is `__LITTLE_ENDIAN`. -/
def getUser8 (rvPum : Bool) : Block .rv32 where
  code := List.flatten [
    enableUserAccess rvPum,
    [.label .one],
    insns [.load 4 true .a1 0 .a2],
    [.label .two],
    insns [.load 4 true .a4 4 .a2],
    [.label .three],
    disableUserAccess rvPum]
  fixup := List.flatten [
    [.label .four],
    insns [.li .a0 efault, .li .a1 0, .li .a4 0],
    jump .three]
  exTable := [(.one, .four), (.two, .four)]

/-- `__put_user_asm`, for a store of `len` bytes -/
def putUserAsm (rvPum : Bool) (len : Nat) : Block x where
  code := List.flatten [
    enableUserAccess rvPum,
    [.label .one],
    insns [.store len .a1 0 .a2],
    [.label .two],
    disableUserAccess rvPum]
  fixup := List.flatten [
    [.label .three],
    insns [.li .a0 efault],
    jump .two]
  exTable := [(.one, .three)]

/-- `__put_user_8` without `CONFIG_64BIT` -/
def putUser8 (rvPum : Bool) : Block .rv32 where
  code := List.flatten [
    enableUserAccess rvPum,
    [.label .one],
    insns [.store 4 .a1 0 .a2],
    [.label .two],
    insns [.store 4 .a4 4 .a2],
    [.label .three],
    disableUserAccess rvPum]
  fixup := List.flatten [
    [.label .four],
    insns [.li .a0 efault],
    jump .two]
  exTable := [(.one, .four), (.two, .four)]

/-- The two macros -/
inductive Macro
  | getUser | putUser
  deriving DecidableEq, Repr

/-- `__get_user` and `__put_user` -/
def Macro.block (rvPum : Bool) : (x : XLen) → Macro → Size → Block x
  | .rv32, .getUser, .eight => getUser8 rvPum
  | _, .getUser, s => getUserAsm rvPum s.bytes
  | .rv32, .putUser, .eight => putUser8 rvPum
  | _, .putUser, s => putUserAsm rvPum s.bytes

/-- From `__gu_err = 0` to what follows the macro -/
def Block.run (b : Block x) : Code x := .insn (.li .a0 0) :: (b.code ++ insns [.ret])

/-- The text, and `fixup_exception` by its table -/
def Block.machine (b : Block x) (e : Env x) (base : Word x) : Machine Label x.bits :=
  ⟨b.fixup ++ b.run, base, e.loadFault, e.storeFault, (b.fixup ++ b.run).fixup b.exTable⟩

/-- A use of a macro: the pointer, the value that is stored or that `x` has before, and the hart -/
structure Call (x : XLen) where
  ptr : Word x
  value : BitVec 64
  before : Core x.bits

/-- The operands are in their registers. -/
def Call.start (k : Call x) : Core x.bits :=
  { ((k.before.set .a2 k.ptr).set .a1 (k.value.setWidth _)).set .a4 ((k.value >>> 32).setWidth _)
    with log := [] }

/-- What `__get_user` sets `x` to on a 32-bit hart -/
def result (c : Core XLen.rv32.bits) : Size → BitVec 64
  | .eight => (c.get .a4).setWidth 64 <<< 32 ||| (c.get .a1).setWidth 64
  | _ => (c.get .a1).setWidth 64

/-- What `__get_user` should leave -/
structure Got (e : Env .rv32) (k : Call .rv32) (s : Size) (c : Core XLen.rv32.bits) : Prop where
  error : c.get .a0 = if touches e.loadFault k.ptr s.bytes then efault else 0
  value : touches e.loadFault k.ptr s.bytes = false →
    toBytes s.bytes (result c s) = k.before.mem.read k.ptr s.bytes
  zero : touches e.loadFault k.ptr s.bytes = true → result c s = 0

/-- What `__put_user` should leave -/
structure Put (e : Env .rv32) (k : Call .rv32) (s : Size) (c : Core XLen.rv32.bits) : Prop where
  error : c.get .a0 = if touches e.storeFault k.ptr s.bytes then efault else 0
  mem : touches e.storeFault k.ptr s.bytes = false →
    c.mem = k.before.mem.write k.ptr (toBytes s.bytes k.value)
  after : ∀ earlier later a len, c.log = earlier ++ .fault a len :: later →
    ∀ b bs, .store b bs ∉ later

/-- A macro comes to its end, in a state with a property. -/
def Ends (e : Env x) (base : Word x) (k : Call x) (m : Macro) (s : Size)
    (Q : Core x.bits → Prop) : Prop :=
  Leads ((m.block e.rvPum x s).machine e base) ⟨(m.block e.rvPum x s).run, k.start⟩ fun t =>
    t.code = [] ∧ Q t.core

/-- A macro comes to its end, with what it should leave. -/
def Right (e : Env .rv32) (base : Word .rv32) (k : Call .rv32) (m : Macro) (s : Size) : Prop :=
  Ends e base k m s fun c => match m with
    | .getUser => Got e k s c
    | .putUser => Put e k s c

/-! ## Access to user memory -/

section Rules

variable {m : Machine Label x.bits} {c : Core x.bits} {rest : Code x}
  {Q : Asm.State Label x.bits → Prop}

theorem leads_enable {rvPum : Bool} (leads : ∀ c', c.Keeps c' [.t6] → c'.mem = c.mem →
      c'.log = c.log → Leads m ⟨rest, c'⟩ Q) :
    Leads m ⟨enableUserAccess rvPum ++ rest, c⟩ Q := by
  cases rvPum with
  | false => exact leads c (fun _ _ => rfl) rfl rfl
  | true =>
    refine .li (.csrc _ rfl (leads _ (fun q other => ?_) rfl rfl))
    exact Core.get_set_of_ne _ _ (List.ne_of_not_mem_cons other)

/-- What follows a macro -/
theorem leads_end {rvPum : Bool} (holds : ∀ c', c.Keeps c' [.t6] → c'.mem = c.mem →
      c'.log = c.log → Q ⟨[], c'⟩) :
    Leads m ⟨disableUserAccess rvPum ++ insns [.ret], c⟩ Q := by
  cases rvPum with
  | false => exact .ret (.here (holds c (fun _ _ => rfl) rfl rfl))
  | true =>
    refine .li (.csrs _ rfl (.ret (.here (holds _ (fun q other => ?_) rfl rfl))))
    exact Core.get_set_of_ne _ _ (List.ne_of_not_mem_cons other)

/-- At the first label -/
structure Ready (k : Call x) (c : Core x.bits) : Prop where
  a0 : c.get .a0 = 0
  a1 : c.get .a1 = k.value.setWidth _
  a2 : c.get .a2 = k.ptr
  a4 : c.get .a4 = (k.value >>> 32).setWidth _
  mem : c.mem = k.before.mem
  log : c.log = []

theorem leads_ready {k : Call x} {rvPum : Bool}
    (leads : ∀ c, Ready k c → Leads m ⟨rest, c⟩ Q) :
    Leads m ⟨.insn (.li .a0 0) :: (enableUserAccess rvPum ++ rest), k.start⟩ Q := by
  refine .li (leads_enable fun c keeps mem log => leads c ⟨?_, ?_, ?_, ?_, mem, log⟩)
  · exact keeps .a0 (by decide)
  · exact keeps .a1 (by decide)
  · exact keeps .a2 (by decide)
  · exact keeps .a4 (by decide)

end Rules

/-! ## The fixups -/

/-- The text of a block, its `.fixup` first -/
abbrev Block.text (b : Block x) : Code x := b.fixup ++ b.run

/-- The fixup at `f` goes on at `r`, with what is left of the block. -/
structure Block.Resumes (b : Block x) (f r : Label) (rest : Code x) : Prop where
  table : ∀ entry ∈ b.exTable, entry.2 = f
  first : b.text.skip (b.text.index f) = b.text
  back : b.text.skip (b.text.index r) = .label r :: rest
  inside : b.text.index r < b.text.count
  small : 4 * b.text.index r < 2 ^ x.bits

section Fixup

variable {e : Env x} {base : Word x} {c : Core x.bits} {b : Block x} {f r l : Label}
  {rest code : Code x} {Q : Asm.State Label x.bits → Prop} {len : Nat}

theorem Block.Resumes.handled (resumes : b.Resumes f r rest) (entry : (l, f) ∈ b.exTable)
    (here : b.text.after l = code) :
    (b.machine e base).handler ((b.machine e base).index code) = some (b.text.index f) := by
  rw [← here]
  exact Text.fixup_of_mem entry resumes.table

theorem Block.Resumes.load_fault (resumes : b.Resumes f r rest) (entry : (l, f) ∈ b.exTable)
    {signed : Bool} {rd rs : Reg} {offset : Word x}
    (here : b.text.after l = .insn (.load len signed rd offset rs) :: code) (a : Word x)
    (addr : c.get rs + offset = a) (faults : touches e.loadFault a len = true)
    (leads : Leads (b.machine e base) ⟨b.text, c.note (.fault a len)⟩ Q) :
    Leads (b.machine e base) ⟨.insn (.load len signed rd offset rs) :: code, c⟩ Q := by
  refine .load_fault a addr faults (resumes.handled entry here) ?_
  show Leads _ ⟨b.text.skip (b.text.index f), _⟩ Q
  rwa [resumes.first]

theorem Block.Resumes.store_fault (resumes : b.Resumes f r rest) (entry : (l, f) ∈ b.exTable)
    {rs rd : Reg} {offset : Word x}
    (here : b.text.after l = .insn (.store len rs offset rd) :: code) (a : Word x)
    (addr : c.get rd + offset = a) (faults : touches e.storeFault a len = true)
    (leads : Leads (b.machine e base) ⟨b.text, c.note (.fault a len)⟩ Q) :
    Leads (b.machine e base) ⟨.insn (.store len rs offset rd) :: code, c⟩ Q := by
  refine .store_fault a addr faults (resumes.handled entry here) ?_
  show Leads _ ⟨b.text.skip (b.text.index f), _⟩ Q
  rwa [resumes.first]

theorem Block.Resumes.jump (resumes : b.Resumes f r rest)
    (leads : ∀ v, Leads (b.machine e base) ⟨rest, c.set .a3 v⟩ Q) :
    Leads (b.machine e base) ⟨UserAsm.jump r ++ code, c⟩ Q := by
  refine .jump (by decide) resumes.inside resumes.small ?_
  show Leads _ ⟨b.text.skip (b.text.index r), _⟩ Q
  rw [resumes.back]
  exact .label (leads _)

end Fixup

/-! ## One access -/

section Single

variable {rvPum : Bool} {len : Nat}

theorem getUserAsm_resumes (x : XLen) (rvPum : Bool) (len : Nat) :
    (getUserAsm (x := x) rvPum len).Resumes .three .two
      (disableUserAccess rvPum ++ insns [.ret]) where
  table := (by decide : ∀ entry ∈ [(Label.one, Label.three)], entry.2 = Label.three)
  first := by cases rvPum <;> rfl
  back := by cases rvPum <;> rfl
  inside := by cases rvPum <;> exact Nat.le_of_ble_eq_true rfl
  small := by cases rvPum <;> cases x <;> exact Nat.le_of_ble_eq_true rfl

theorem putUserAsm_resumes (rvPum : Bool) (len : Nat) :
    (putUserAsm (x := .rv32) rvPum len).Resumes .three .two
      (disableUserAccess rvPum ++ insns [.ret]) where
  table := (by decide : ∀ entry ∈ [(Label.one, Label.three)], entry.2 = Label.three)
  first := by cases rvPum <;> rfl
  back := by cases rvPum <;> rfl
  inside := by cases rvPum <;> exact Nat.le_of_ble_eq_true rfl
  small := by cases rvPum <;> exact Nat.le_of_ble_eq_true rfl

theorem getUserAsm_run (x : XLen) : (getUserAsm (x := x) rvPum len).run = .insn (.li .a0 0) ::
    (enableUserAccess rvPum ++ (.label .one :: .insn (.load len true .a1 0 .a2) :: .label .two ::
      (disableUserAccess rvPum ++ insns [.ret]))) := by
  cases rvPum <;> rfl

theorem putUserAsm_run : (putUserAsm (x := .rv32) rvPum len).run = .insn (.li .a0 0) ::
    (enableUserAccess rvPum ++ (.label .one :: .insn (.store len .a1 0 .a2) :: .label .two ::
      (disableUserAccess rvPum ++ insns [.ret]))) := by
  cases rvPum <;> rfl

/-- A load that does not fault -/
theorem getUserAsm_loads {e : Env x} {base : Word x} {k : Call x}
    {Q : Asm.State Label x.bits → Prop} (clean : touches e.loadFault k.ptr len = false)
    (holds : ∀ c c', Ready k c → c'.get .a0 = 0 → c'.get .a1 = c.value len true k.ptr →
      c'.get .a4 = (k.value >>> 32).setWidth _ → Q ⟨[], c'⟩) :
    Leads ((getUserAsm e.rvPum len).machine e base) ⟨(getUserAsm e.rvPum len).run, k.start⟩ Q := by
  rw [getUserAsm_run]
  refine leads_ready fun c ready => .label ?_
  refine .load k.ptr ((BitVec.add_zero _).trans ready.a2) (c.value len true k.ptr) rfl clean
    (.label (leads_end fun c' keeps _ _ => holds c c' ready ?_ ?_ ?_))
  · exact (keeps .a0 (by decide)).trans ready.a0
  · exact keeps .a1 (by decide)
  · exact (keeps .a4 (by decide)).trans ready.a4

end Single

variable {e : Env .rv32} {base : Word .rv32} {k : Call .rv32} {c : Core XLen.rv32.bits}

/-- `__get_user` of at most a word -/
theorem getUserAsm_right {s : Size} (small : s.bytes ≤ 4)
    (word : ∀ c, result c s = (c.get .a1).setWidth 64) :
    Leads ((getUserAsm e.rvPum s.bytes).machine e base)
      ⟨(getUserAsm e.rvPum s.bytes).run, k.start⟩ fun t => t.code = [] ∧ Got e k s t.core := by
  cases faults : touches e.loadFault k.ptr s.bytes with
  | true =>
    rw [getUserAsm_run]
    refine leads_ready fun c ready => .label ?_
    have addr : c.get .a2 + 0 = k.ptr := (BitVec.add_zero _).trans ready.a2
    refine (getUserAsm_resumes _ e.rvPum s.bytes).load_fault List.mem_cons_self
      (by cases e.rvPum <;> rfl) _ addr faults (.label (.li (.li ?_)))
    refine (getUserAsm_resumes _ e.rvPum s.bytes).jump fun v =>
      leads_end fun c' keeps _ _ => ⟨rfl, ?_, ?_, ?_⟩
    · rw [faults, if_pos rfl]
      exact keeps .a0 (by decide)
    · intro clean
      exact absurd (clean.symm.trans faults) Bool.noConfusion
    · intro _
      have zero : c'.get .a1 = 0 := keeps .a1 (by decide)
      rw [word, zero]
      rfl
  | false =>
    refine getUserAsm_loads faults fun c c' ready a0 a1 _ => ⟨rfl, ?_, ?_, ?_⟩
    · rw [faults, if_neg Bool.false_ne_true]
      exact a0
    · intro _
      have low : 8 * s.bytes ≤ XLen.rv32.bits := by
        show 8 * s.bytes ≤ 32
        omega
      rw [word, a1, ← ready.mem]
      exact (toBytes_setWidth (by omega) _).trans (c.toBytes_value low true k.ptr)
    · intro fault
      exact absurd (faults.symm.trans fault) Bool.noConfusion

/-- Nothing comes after an access that is the only one. -/
theorem eq_nil_of_single {log earlier later : List (Access XLen.rv32.bits)}
    {x y : Access XLen.rv32.bits} (only : log = [x]) (split : log = earlier ++ y :: later) :
    later = [] := by
  have length := congrArg List.length (only.symm.trans split)
  rw [List.length_singleton, List.length_append, List.length_cons] at length
  exact List.eq_nil_of_length_eq_zero (by omega)

/-- `__put_user` of at most a word -/
theorem putUserAsm_right {s : Size} (small : s.bytes ≤ 4) :
    Leads ((putUserAsm e.rvPum s.bytes).machine e base)
      ⟨(putUserAsm e.rvPum s.bytes).run, k.start⟩ fun t => t.code = [] ∧ Put e k s t.core := by
  rw [putUserAsm_run]
  refine leads_ready fun c ready => .label ?_
  have addr : c.get .a2 + 0 = k.ptr := (BitVec.add_zero _).trans ready.a2
  cases faults : touches e.storeFault k.ptr s.bytes with
  | true =>
    refine (putUserAsm_resumes e.rvPum s.bytes).store_fault List.mem_cons_self
      (by cases e.rvPum <;> rfl) _ addr faults (.label (.li ?_))
    refine (putUserAsm_resumes e.rvPum s.bytes).jump fun v =>
      leads_end fun c' keeps _ log => ⟨rfl, ?_, ?_, ?_⟩
    · rw [faults, if_pos rfl]
      exact keeps .a0 (by decide)
    · intro clean
      exact absurd (clean.symm.trans faults) Bool.noConfusion
    · intro earlier later a len split b bs
      have only : c'.log = [.fault k.ptr s.bytes] :=
        log.trans (congrArg (· ++ [Access.fault k.ptr s.bytes]) ready.log)
      rw [eq_nil_of_single only split]
      exact List.not_mem_nil
  | false =>
    have low : toBytes s.bytes (c.get .a1) = toBytes s.bytes k.value := by
      rw [ready.a1]
      exact toBytes_setWidth (by show 8 * s.bytes ≤ 32; omega) _
    refine .store _ addr _ low faults (.label ?_)
    refine leads_end fun c' keeps mem log => ⟨rfl, ?_, ?_, ?_⟩
    · rw [faults, if_neg Bool.false_ne_true]
      exact (keeps .a0 (by decide)).trans ready.a0
    · intro _
      exact mem.trans (congrArg (·.write k.ptr (toBytes s.bytes k.value)) ready.mem)
    · intro earlier later a len split b bs
      have only : c'.log = [.store k.ptr (toBytes s.bytes k.value)] :=
        log.trans (congrArg (· ++ [Access.store k.ptr _]) ready.log)
      rw [eq_nil_of_single only split]
      exact List.not_mem_nil

/-! ## Two accesses -/

theorem touches_add {fault : Word x → Bool} {a : Word x} (n len : Nat) :
    touches fault a (n + len) =
      (touches fault a n || touches fault (a + BitVec.ofNat _ n) len) := by
  simp only [touches, List.range_add, List.any_append, List.any_map, Function.comp_def,
    add_ofNat_add]

section Double

variable {rvPum : Bool}

theorem getUser8_resumes (rvPum : Bool) : (getUser8 rvPum).Resumes .four .three
    (disableUserAccess rvPum ++ insns [.ret]) where
  table := (by decide :
    ∀ entry ∈ [(Label.one, Label.four), (Label.two, Label.four)], entry.2 = Label.four)
  first := by cases rvPum <;> rfl
  back := by cases rvPum <;> rfl
  inside := by cases rvPum <;> exact Nat.le_of_ble_eq_true rfl
  small := by cases rvPum <;> exact Nat.le_of_ble_eq_true rfl

/-- A fault goes on before the second store. -/
theorem putUser8_resumes (rvPum : Bool) : (putUser8 rvPum).Resumes .four .two
    (.insn (.store 4 .a4 4 .a2) :: .label .three ::
      (disableUserAccess rvPum ++ insns [.ret])) where
  table := (by decide :
    ∀ entry ∈ [(Label.one, Label.four), (Label.two, Label.four)], entry.2 = Label.four)
  first := by cases rvPum <;> rfl
  back := by cases rvPum <;> rfl
  inside := by cases rvPum <;> exact Nat.le_of_ble_eq_true rfl
  small := by cases rvPum <;> exact Nat.le_of_ble_eq_true rfl

theorem getUser8_run : (getUser8 rvPum).run = .insn (.li .a0 0) ::
    (enableUserAccess rvPum ++ (.label .one :: .insn (.load 4 true .a1 0 .a2) :: .label .two ::
      .insn (.load 4 true .a4 4 .a2) :: .label .three ::
      (disableUserAccess rvPum ++ insns [.ret]))) := by
  cases rvPum <;> rfl

theorem putUser8_run : (putUser8 rvPum).run = .insn (.li .a0 0) ::
    (enableUserAccess rvPum ++ (.label .one :: .insn (.store 4 .a1 0 .a2) :: .label .two ::
      .insn (.store 4 .a4 4 .a2) :: .label .three ::
      (disableUserAccess rvPum ++ insns [.ret]))) := by
  cases rvPum <;> rfl

end Double

/-- The halves of a value, as `__get_user_8` puts them together -/
theorem toBytes_halves (lo hi : Word .rv32) :
    toBytes 8 (hi.setWidth 64 <<< 32 ||| lo.setWidth 64 : BitVec 64)
      = toBytes 4 lo ++ toBytes 4 hi := by
  have bits : XLen.rv32.bits = 32 := rfl
  have low : (hi.setWidth 64 <<< 32 ||| lo.setWidth 64 : BitVec 64).setWidth XLen.rv32.bits
      = lo := by
    refine BitVec.eq_of_getLsbD_eq fun i inside => ?_
    rw [bits] at inside
    simp [inside, bits]
  have high : ((hi.setWidth 64 <<< 32 ||| lo.setWidth 64 : BitVec 64) >>> 32).setWidth
      XLen.rv32.bits = hi := by
    refine BitVec.eq_of_getLsbD_eq fun i inside => ?_
    rw [bits] at inside
    have first : 32 + i < 64 := by omega
    have second : i < 64 := by omega
    simp [inside, first, second, bits]
  have cut : ∀ v : BitVec 64, toBytes 4 (v.setWidth XLen.rv32.bits) = toBytes 4 v :=
    toBytes_setWidth (by decide)
  refine (toBytes_add 4 4 _).trans ?_
  rw [← cut, ← cut (_ >>> _), low, high]

/-- `__get_user` of eight bytes -/
theorem getUser8_right :
    Leads ((getUser8 e.rvPum).machine e base) ⟨(getUser8 e.rvPum).run, k.start⟩ fun t =>
      t.code = [] ∧ Got e k .eight t.core := by
  have split : touches e.loadFault k.ptr Size.eight.bytes = _ := touches_add 4 4
  rw [getUser8_run]
  refine leads_ready fun c ready => .label ?_
  have addr : c.get .a2 + 0 = k.ptr := (BitVec.add_zero _).trans ready.a2
  -- Both fixups are one.
  have fixup : ∀ (c' : Core XLen.rv32.bits) (a : Word .rv32) (n : Nat),
      touches e.loadFault k.ptr Size.eight.bytes = true →
      Leads ((getUser8 e.rvPum).machine e base) ⟨(getUser8 e.rvPum).text, c'.note (.fault a n)⟩
        fun t => t.code = [] ∧ Got e k .eight t.core := by
    intro c' a n faults
    refine .label (.li (.li (.li ((getUser8_resumes e.rvPum).jump fun v =>
      leads_end fun c'' keeps _ _ => ⟨rfl, ?_, ?_, ?_⟩))))
    · rw [faults, if_pos rfl]
      exact keeps .a0 (by decide)
    · intro clean
      exact absurd (clean.symm.trans faults) Bool.noConfusion
    · intro _
      have lo : c''.get .a1 = 0 := keeps .a1 (by decide)
      have hi : c''.get .a4 = 0 := keeps .a4 (by decide)
      rw [result, lo, hi]
      rfl
  cases first : touches e.loadFault k.ptr 4 with
  | true =>
    refine (getUser8_resumes e.rvPum).load_fault List.mem_cons_self
      (by cases e.rvPum <;> rfl) _ addr first (fixup c _ _ ?_)
    rw [split, first, Bool.true_or]
  | false =>
    refine .load _ addr (c.value 4 true k.ptr) rfl first (.label ?_)
    have addr' : ((c.note (.load k.ptr 4)).set .a1 (c.value 4 true k.ptr)).get .a2 + 4
        = k.ptr + BitVec.ofNat _ 4 := congrArg (· + 4) ready.a2
    cases second : touches e.loadFault (k.ptr + BitVec.ofNat _ 4) 4 with
    | true =>
      refine (getUser8_resumes e.rvPum).load_fault (l := .two)
        (List.mem_cons_of_mem _ List.mem_cons_self) (by cases e.rvPum <;> rfl) _ addr' second
        (fixup _ _ _ ?_)
      rw [split, second, Bool.or_true]
    | false =>
      have clean : touches e.loadFault k.ptr Size.eight.bytes = false := by
        rw [split, first, second, Bool.or_false]
      refine .load _ addr' (c.value 4 true (k.ptr + BitVec.ofNat _ 4)) rfl second (.label ?_)
      refine leads_end fun c' keeps mem _ => ⟨rfl, ?_, ?_, ?_⟩
      · rw [clean, if_neg Bool.false_ne_true]
        exact (keeps .a0 (by decide)).trans ready.a0
      · intro _
        have lo : c'.get .a1 = c.value 4 true k.ptr := keeps .a1 (by decide)
        have hi : c'.get .a4 = c.value 4 true (k.ptr + BitVec.ofNat _ 4) := keeps .a4 (by decide)
        have word : 8 * 4 ≤ XLen.rv32.bits := Nat.le_refl _
        rw [result, lo, hi, ← ready.mem]
        refine (toBytes_halves ..).trans ?_
        rw [c.toBytes_value word, c.toBytes_value word]
        exact (Memory.read_add ..).symm
      · intro fault
        exact absurd (clean.symm.trans fault) Bool.noConfusion

section PutUser8

/-- Before the second store, where every fault goes on -/
abbrev second (rvPum : Bool) : Code .rv32 :=
  .insn (.store 4 .a4 4 .a2) :: .label .three :: (disableUserAccess rvPum ++ insns [.ret])

theorem after_two (rvPum : Bool) : (putUser8 rvPum).text.after .two = second rvPum := by
  cases rvPum <;> rfl

/-- The fixup changes the error only. -/
theorem leads_fixup {Q : Asm.State Label XLen.rv32.bits → Prop}
    (leads : ∀ c', c'.get .a0 = efault → c'.get .a2 = c.get .a2 → c'.get .a4 = c.get .a4 →
      c'.mem = c.mem → c'.log = c.log →
      Leads ((putUser8 e.rvPum).machine e base) ⟨second e.rvPum, c'⟩ Q) :
    Leads ((putUser8 e.rvPum).machine e base) ⟨(putUser8 e.rvPum).text, c⟩ Q :=
  .label (.li ((putUser8_resumes e.rvPum).jump fun _ => leads _ rfl rfl rfl rfl rfl))

/-- What the first store leads to -/
theorem leads_second {Q : Asm.State Label XLen.rv32.bits → Prop}
    (faulty : touches e.storeFault k.ptr 4 = true → ∀ c, c.get .a2 = k.ptr →
      c.log = [.fault k.ptr 4] →
      Leads ((putUser8 e.rvPum).machine e base) ⟨second e.rvPum, c⟩ Q)
    (clean : touches e.storeFault k.ptr 4 = false → ∀ c, Ready k c →
      Leads ((putUser8 e.rvPum).machine e base)
        ⟨second e.rvPum, c.stored k.ptr (toBytes 4 (c.get .a1))⟩ Q) :
    Leads ((putUser8 e.rvPum).machine e base) ⟨(putUser8 e.rvPum).run, k.start⟩ Q := by
  rw [putUser8_run]
  refine leads_ready fun c ready => .label ?_
  have addr : c.get .a2 + 0 = k.ptr := (BitVec.add_zero _).trans ready.a2
  cases first : touches e.storeFault k.ptr 4 with
  | true =>
    refine (putUser8_resumes e.rvPum).store_fault List.mem_cons_self
      (by cases e.rvPum <;> rfl) _ addr first (leads_fixup fun c' _ a2 _ _ log => ?_)
    exact faulty first c' (a2.trans ready.a2)
      (log.trans (congrArg (· ++ [Access.fault k.ptr 4]) ready.log))
  | false => exact .store _ addr _ rfl first (.label (clean first c ready))

theorem putUser8_right (faults : touches e.storeFault k.ptr Size.eight.bytes = false) :
    Leads ((putUser8 e.rvPum).machine e base) ⟨(putUser8 e.rvPum).run, k.start⟩ fun t =>
      t.code = [] ∧ Put e k .eight t.core := by
  have split : touches e.storeFault k.ptr Size.eight.bytes = _ := touches_add 4 4
  rw [faults] at split
  obtain ⟨first, second⟩ := Bool.or_eq_false_iff.mp split.symm
  refine leads_second (fun fault => absurd (first.symm.trans fault) Bool.noConfusion)
    fun _ c ready => ?_
  have addr : c.get .a2 + 4 = k.ptr + BitVec.ofNat _ 4 := congrArg (· + 4) ready.a2
  refine .store _ addr _ rfl second (.label (leads_end fun c' keeps mem log => ⟨rfl, ?_, ?_, ?_⟩))
  · rw [faults, if_neg Bool.false_ne_true]
    exact (keeps .a0 (by decide)).trans ready.a0
  · intro _
    have cut : ∀ v : BitVec 64, toBytes 4 (v.setWidth XLen.rv32.bits) = toBytes 4 v :=
      toBytes_setWidth (by decide)
    have written := @Memory.write_write _ k.before.mem k.ptr (toBytes 4 k.value)
      (toBytes 4 (k.value >>> (8 * 4))) (by simp only [length_toBytes]; decide)
    rw [length_toBytes, ← toBytes_add] at written
    refine mem.trans (Eq.trans ?_ written)
    show (c.mem.write _ (toBytes 4 (c.get .a1))).write _ (toBytes 4 (c.get .a4)) = _
    rw [ready.mem, ready.a1, ready.a4, cut, cut]
  · intro earlier later a len parts
    have member : .fault a len ∈ c'.log := by
      rw [parts]
      exact List.mem_append_right _ List.mem_cons_self
    rw [log, Core.log_stored, Core.log_stored, ready.log] at member
    simp only [List.nil_append, List.cons_append, List.mem_cons, List.not_mem_nil, or_false,
      reduceCtorEq] at member

/-- A fault of the second store is retried. -/
theorem putUser8_not_ends {Q : Asm.State Label XLen.rv32.bits → Prop}
    (faults : touches e.storeFault (k.ptr + BitVec.ofNat _ 4) 4 = true) :
    ¬Leads ((putUser8 e.rvPum).machine e base) ⟨(putUser8 e.rvPum).run, k.start⟩ fun t =>
      t.code = [] ∧ Q t := by
  refine Leads.not_ends (P := fun s => s.code = second e.rvPum ∧ s.core.get .a2 = k.ptr)
    (leads_second (fun _ c a2 _ => .here ⟨rfl, a2⟩) fun _ c ready => .here ⟨rfl, ready.a2⟩) ?_
  intro s here
  rcases s with ⟨code, c⟩
  rcases here with ⟨here, a2⟩
  obtain rfl : code = _ := here
  have addr : c.get .a2 + 4 = k.ptr + BitVec.ofNat _ 4 := congrArg (· + 4) a2
  refine ⟨_, Leads.step_store_fault _ addr faults ((putUser8_resumes e.rvPum).handled (l := .two)
    (List.mem_cons_of_mem _ List.mem_cons_self) (after_two e.rvPum)), ?_⟩
  show Leads _ ⟨(putUser8 e.rvPum).text.skip ((putUser8 e.rvPum).text.index .four), _⟩ _
  rw [(putUser8_resumes e.rvPum).first]
  exact leads_fixup fun c' _ a2' _ _ _ => .here ⟨rfl, a2'.trans a2⟩

/-- After a fault of the first store the second is made. -/
theorem putUser8_stores (first : touches e.storeFault k.ptr 4 = true)
    (clean : touches e.storeFault (k.ptr + BitVec.ofNat _ 4) 4 = false) :
    Leads ((putUser8 e.rvPum).machine e base) ⟨(putUser8 e.rvPum).run, k.start⟩ fun t =>
      t.code = [] ∧ ∃ bs, t.core.log = [.fault k.ptr 4, .store (k.ptr + BitVec.ofNat _ 4) bs] := by
  refine leads_second (fun _ c a2 log => ?_)
    fun fault => absurd (first.symm.trans fault) Bool.noConfusion
  have addr : c.get .a2 + 4 = k.ptr + BitVec.ofNat _ 4 := congrArg (· + 4) a2
  refine .store _ addr (toBytes 4 (c.get .a4)) rfl clean (.label (leads_end fun c' _ _ log' =>
    ⟨rfl, toBytes 4 (c.get .a4), log'.trans ?_⟩))
  rw [Core.log_stored, log]
  rfl

theorem putUser8_wrong (faults : touches e.storeFault k.ptr Size.eight.bytes = true) :
    ¬Leads ((putUser8 e.rvPum).machine e base) ⟨(putUser8 e.rvPum).run, k.start⟩ fun t =>
      t.code = [] ∧ Put e k .eight t.core := by
  have split : touches e.storeFault k.ptr Size.eight.bytes = _ := touches_add 4 4
  cases second : touches e.storeFault (k.ptr + BitVec.ofNat _ 4) 4 with
  | true => exact putUser8_not_ends second
  | false =>
    rw [faults, second, Bool.or_false] at split
    intro right
    obtain ⟨t, run, ended, bs, log⟩ := @putUser8_stores e base k split.symm second
    exact (right.of_run run ended).after [] _ _ _ log _ bs List.mem_cons_self

end PutUser8

/-! ## The macros -/

/-- A macro comes to its end with what it should leave, unless a byte that `__put_user` stores as a
part of eight faults. -/
theorem right_iff (e : Env .rv32) (base : Word .rv32) (k : Call .rv32) (m : Macro) (s : Size) :
    Right e base k m s ↔
      ¬(m = .putUser ∧ s = .eight ∧ touches e.storeFault k.ptr Size.eight.bytes = true) := by
  cases m with
  | getUser =>
    refine ⟨fun _ => fun wrong => Macro.noConfusion wrong.1, fun _ => ?_⟩
    cases s with
    | one => exact getUserAsm_right (s := .one) (by decide) fun _ => rfl
    | two => exact getUserAsm_right (s := .two) (by decide) fun _ => rfl
    | four => exact getUserAsm_right (s := .four) (by decide) fun _ => rfl
    | eight => exact getUser8_right
  | putUser =>
    cases s with
    | one => exact ⟨fun _ => nofun, fun _ => putUserAsm_right (s := .one) (by decide)⟩
    | two => exact ⟨fun _ => nofun, fun _ => putUserAsm_right (s := .two) (by decide)⟩
    | four => exact ⟨fun _ => nofun, fun _ => putUserAsm_right (s := .four) (by decide)⟩
    | eight =>
      refine ⟨fun right wrong => putUser8_wrong wrong.2.2 right, fun fine => putUser8_right ?_⟩
      exact Bool.eq_false_of_not_eq_true fun faults => fine ⟨rfl, rfl, faults⟩

/-- Eight bytes of which the last four cannot be written -/
def half : Env .rv32 := ⟨false, fun _ => false, fun a => decide (0x1000 ≤ a.toNat)⟩

def crossing : Call .rv32 := ⟨0xffc, 0x1122334455667788, ⟨fun _ => 0, 0, fun _ => 0, []⟩⟩

/-- The store is retried for ever. -/
theorem not_right_crossing : ¬Right half 0 crossing .putUser .eight :=
  putUser8_not_ends (k := crossing) (by decide)

end RiscvLinux.Uaccess.UserAsm
