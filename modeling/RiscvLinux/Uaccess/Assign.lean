import RiscvLinux.Uaccess.UserAsm

/-!
# `__get_user` as an assignment

What `__get_user(x, ptr)` sets `x` to, and what the assignment `x = *ptr` would. `agrees_iff` says
when both are the same: the loads extend the sign, whatever the type of `*ptr` is.
-/

namespace RiscvLinux.Uaccess.UserAsm

open Lib Lib.Asm Trap

variable {x : XLen}

/-- An integer type of C -/
structure IntType where
  size : Size
  signed : Bool
  deriving DecidableEq, Repr

/-- `*ptr` -/
def IntType.load (t : IntType) (m : Memory x.bits) (ptr : Word x) : BitVec (8 * t.size.bytes) :=
  ofBytes _ (m.read ptr t.size.bytes)

/-- What an assignment of a value of the type gives a variable of `d` bytes -/
def IntType.assign (t : IntType) (d : Size) (v : BitVec (8 * t.size.bytes)) :
    BitVec (8 * d.bytes) :=
  if t.signed then v.signExtend _ else v.setWidth _

/-- What a variable of `d` bytes has after the macro: what is in its register, or in two registers
if one is too narrow for it -/
def assigned : (x : XLen) → Size → (d : Size) → Core x.bits → BitVec (8 * d.bytes)
  | .rv32, .eight, _, c => (result c .eight).setWidth _
  | _, _, _, c => (c.get .a4 ++ c.get .a1).setWidth _

/-- The macro leaves in a variable of `d` bytes what the assignment would, whatever is in the
registers before. -/
def Agrees (e : Env x) (base ptr : Word x) (m : Memory x.bits) (t : IntType) (d : Size) : Prop :=
  ∀ k : Call x, k.ptr = ptr → k.before.mem = m →
    Ends e base k .getUser t.size fun c => assigned x t.size d c = t.assign d (t.load m ptr)

variable {e : Env x} {base ptr : Word x} {m : Memory x.bits} {t : IntType} {d : Size}

/-- The register is wide enough for the variable, or the macro goes by both halves. -/
def Room (x : XLen) (t : IntType) (d : Size) : Prop := 8 * d.bytes ≤ x.bits ∨ t.size = .eight

/-- The sign makes no difference. -/
def SignSafe (t : IntType) (d : Size) (v : BitVec (8 * t.size.bytes)) : Prop :=
  t.signed = true ∨ d = t.size ∨ v.msb = false

theorem signExtend_eq_assign_iff (wide : t.size.bytes ≤ d.bytes) (v : BitVec (8 * t.size.bytes)) :
    v.signExtend (8 * d.bytes) = t.assign d v ↔ SignSafe t d v := by
  have same : 8 * d.bytes ≤ 8 * t.size.bytes ↔ d = t.size := by
    cases d <;> cases size : t.size <;> rw [size] at wide <;> revert wide <;> decide
  unfold IntType.assign SignSafe
  cases t.signed with
  | true => simp only [if_true, true_or]
  | false =>
    rw [if_neg Bool.false_ne_true, signExtend_eq_setWidth_iff, same]
    simp only [Bool.false_eq_true, false_or]

/-- A variable that one register holds -/
theorem assigned_of_single {c : Core x.bits} (room : 8 * d.bytes ≤ x.bits)
    (single : ∀ c', assigned x t.size d c' = (c'.get .a4 ++ c'.get .a1).setWidth _)
    {v : BitVec (8 * t.size.bytes)} (a1 : c.get .a1 = v.signExtend _) :
    assigned x t.size d c = v.signExtend _ := by
  rw [single, a1]
  refine BitVec.eq_of_getLsbD_eq fun i inside => ?_
  have low : i < x.bits := Nat.lt_of_lt_of_le inside room
  rw [BitVec.getLsbD_setWidth, BitVec.getLsbD_append, BitVec.getLsbD_signExtend,
    BitVec.getLsbD_signExtend]
  simp only [inside, low, decide_true, Bool.true_and, if_true]

/-! ## Runs -/

/-- A macro comes to one end. -/
theorem Ends.both {k : Call x} {kind : Macro} {s : Size} {P Q : Core x.bits → Prop}
    (first : Ends e base k kind s P) (second : Ends e base k kind s Q) : ∃ c, P c ∧ Q c := by
  rcases first with ⟨t, run, ended, holds⟩
  exact ⟨t.core, holds, second.of_run run ended⟩

/-- What one load leaves -/
theorem ends_single {k : Call x} {Q : Core x.bits → Prop}
    (block : Macro.getUser.block e.rvPum x t.size = getUserAsm e.rvPum t.size.bytes)
    (clean : touches e.loadFault k.ptr t.size.bytes = false)
    (holds : ∀ c, c.get .a1 = (t.load k.before.mem k.ptr).signExtend _ →
      c.get .a4 = (k.value >>> 32).setWidth _ → Q c) :
    Ends e base k .getUser t.size Q := by
  rw [Ends, block]
  refine getUserAsm_loads clean fun c c' ready _ a1 a4 => ⟨rfl, holds c' ?_ a4⟩
  rw [a1, ← ready.mem]
  rfl

/-- What two loads leave -/
theorem ends_double {e : Env .rv32} {base : Word .rv32} {k : Call .rv32} {t : IntType}
    (eight : t.size = .eight) (clean : touches e.loadFault k.ptr t.size.bytes = false) :
    Ends e base k .getUser t.size fun c =>
      assigned .rv32 t.size .eight c = t.assign .eight (t.load k.before.mem k.ptr) := by
  rcases t with ⟨size, signed⟩
  obtain rfl : size = .eight := eight
  refine Leads.mono getUser8_right fun u ⟨ended, got⟩ => ⟨ended, ?_⟩
  have value : result u.core .eight = IntType.load ⟨.eight, signed⟩ k.before.mem k.ptr := by
    rw [IntType.load, ← got.value clean]
    exact (ofBytes_toBytes (show 64 ≤ 8 * 8 by decide) _).symm
  have same : ∀ v : BitVec (8 * Size.eight.bytes),
      v.setWidth (8 * Size.eight.bytes) = IntType.assign ⟨.eight, signed⟩ .eight v := by
    intro v
    unfold IntType.assign
    cases signed with
    | true => exact (BitVec.setWidth_eq v).trans (BitVec.signExtend_eq v).symm
    | false => rfl
  exact (congrArg (BitVec.setWidth _) value).trans (same _)

/-- The registers of `x` before, from a value -/
def holding (ptr : Word x) (m : Memory x.bits) (value : BitVec 64) : Call x :=
  ⟨ptr, value, ⟨fun _ => 0, 0, m, []⟩⟩

section Single

variable (clean : touches e.loadFault ptr t.size.bytes = false)
  (block : Macro.getUser.block e.rvPum x t.size = getUserAsm e.rvPum t.size.bytes)
  (single : ∀ c, assigned x t.size d c = (c.get .a4 ++ c.get .a1).setWidth _)
include clean block single

/-- One register for the variable -/
theorem agrees_iff_of_single (base : Word x) (wide : t.size.bytes ≤ d.bytes)
    (room : 8 * d.bytes ≤ x.bits) :
    Agrees e base ptr m t d ↔ SignSafe t d (t.load m ptr) := by
  have extended : ∀ k : Call x, k.ptr = ptr → k.before.mem = m →
      Ends e base k .getUser t.size fun c =>
        assigned x t.size d c = (t.load m ptr).signExtend _ := by
    intro k same eq
    subst same
    subst eq
    exact ends_single block clean fun c a1 _ => assigned_of_single room single a1
  rw [← signExtend_eq_assign_iff wide]
  constructor
  · intro agrees
    obtain ⟨c, extended, right⟩ :=
      (extended (holding ptr m 0) rfl rfl).both (agrees (holding ptr m 0) rfl rfl)
    exact extended.symm.trans right
  · intro same k here mem
    refine (extended k here mem).mono fun u ⟨ended, extended⟩ => ⟨ended, ?_⟩
    exact extended.trans same

end Single

/-- Two registers for the variable, of which a load writes one -/
theorem not_agrees_of_wide {e : Env .rv32} {base ptr : Word .rv32} {m : Memory XLen.rv32.bits}
    (clean : touches e.loadFault ptr t.size.bytes = false)
    (block : Macro.getUser.block e.rvPum .rv32 t.size = getUserAsm e.rvPum t.size.bytes)
    (single : ∀ c, assigned .rv32 t.size .eight c = (c.get .a4 ++ c.get .a1).setWidth _) :
    ¬Agrees e base ptr m t .eight := by
  intro agrees
  have upper : ∀ value : BitVec 64, ∃ lo : Word .rv32, lo = (t.load m ptr).signExtend _ ∧
      (((value >>> 32).setWidth 32 ++ lo).setWidth 64 : BitVec 64)
        = t.assign .eight (t.load m ptr) := by
    intro value
    have loads : Ends e base (holding ptr m value) .getUser t.size fun c =>
        c.get .a1 = (t.load m ptr).signExtend _ ∧ c.get .a4 = (value >>> 32).setWidth _ :=
      ends_single block clean fun c a1 a4 => ⟨a1, a4⟩
    obtain ⟨c, ⟨a1, a4⟩, right⟩ := loads.both (agrees (holding ptr m value) rfl rfl)
    refine ⟨c.get .a1, a1, ?_⟩
    rw [single, a4] at right
    exact right
  obtain ⟨lo, low, zero⟩ := upper 0
  obtain ⟨lo', low', one⟩ := upper 0x100000000
  obtain rfl : lo = lo' := low.trans low'.symm
  have bit := congrArg (BitVec.getLsbD · 32) (zero.trans one.symm)
  simp only [BitVec.getLsbD_setWidth, BitVec.getLsbD_append] at bit
  simp only [show ¬32 < XLen.rv32.bits by decide, if_false] at bit
  exact absurd bit (by decide)

/-- `__get_user(x, ptr)` is the assignment `x = *ptr` exactly when one register holds `x`, or eight
bytes are read, and the type of `*ptr` is signed, or as wide as `x`, or its value has no sign. -/
theorem agrees_iff (e : Env x) (base ptr : Word x) (m : Memory x.bits) (t : IntType) (d : Size)
    (wide : t.size.bytes ≤ d.bytes) (clean : touches e.loadFault ptr t.size.bytes = false) :
    Agrees e base ptr m t d ↔ Room x t d ∧ SignSafe t d (t.load m ptr) := by
  cases x with
  | rv64 =>
    have room : 8 * d.bytes ≤ XLen.rv64.bits := by cases d <;> decide
    rw [agrees_iff_of_single clean rfl (fun _ => rfl) base wide room]
    exact ⟨fun safe => ⟨.inl room, safe⟩, fun both => both.2⟩
  | rv32 =>
    by_cases eight : t.size = .eight
    · obtain rfl : d = .eight := by
        rw [eight] at wide
        cases d <;> revert wide <;> decide
      refine ⟨fun _ => ⟨.inr eight, .inr (.inl eight.symm)⟩, fun _ k here mem => ?_⟩
      subst here mem
      exact ends_double eight clean
    · have block : Macro.getUser.block e.rvPum .rv32 t.size = getUserAsm e.rvPum t.size.bytes := by
        cases size : t.size with
        | eight => exact absurd size eight
        | one | two | four => rfl
      have single : ∀ (d : Size) (c : Core XLen.rv32.bits),
          assigned .rv32 t.size d c = (c.get .a4 ++ c.get .a1).setWidth _ := by
        intro d c
        cases size : t.size with
        | eight => exact absurd size eight
        | one | two | four => rfl
      by_cases room : 8 * d.bytes ≤ XLen.rv32.bits
      · rw [agrees_iff_of_single clean block (single d) base wide room]
        exact ⟨fun safe => ⟨.inl room, safe⟩, fun both => both.2⟩
      · obtain rfl : d = .eight := by cases d <;> revert room <;> decide
        refine ⟨fun agrees => absurd agrees (not_agrees_of_wide clean block (single .eight)), ?_⟩
        intro given
        rcases given with ⟨wide' | eight', -⟩
        · exact absurd wide' room
        · exact absurd eight' eight

/-- An `unsigned int` at its greatest, read into an `unsigned long` -/
def unsignedInt : IntType := ⟨.four, false⟩

def nowhere : Env .rv64 := ⟨false, fun _ => false, fun _ => false⟩

def full : Memory XLen.rv64.bits := fun _ => 0xff

/-- One without the upper bit -/
def positive : Memory XLen.rv64.bits := fun _ => 0x7f

theorem agrees_iff_positive : Agrees nowhere 0 0x1000 positive unsignedInt .eight ∧
    ¬Agrees nowhere 0 0x1000 full unsignedInt .eight := by
  constructor
  · exact (agrees_iff nowhere 0 0x1000 positive unsignedInt .eight (by decide)
      (touches_none _ _)).mpr ⟨.inl (by decide), .inr (.inr (by decide))⟩
  · intro agrees
    obtain ⟨-, signed | same | upper⟩ := (agrees_iff nowhere 0 0x1000 full unsignedInt .eight
      (by decide) (touches_none _ _)).mp agrees
    · cases signed
    · cases same
    · exact absurd upper (by decide)

theorem not_agrees_full : unsignedInt.size.bytes ≤ Size.eight.bytes ∧
    touches nowhere.loadFault 0x1000 unsignedInt.size.bytes = false ∧
    ¬Agrees nowhere 0 0x1000 full unsignedInt .eight := by
  have clean : touches nowhere.loadFault 0x1000 unsignedInt.size.bytes = false := touches_none _ _
  refine ⟨by decide, clean, fun agrees => ?_⟩
  have safe := (agrees_iff_of_single (t := unsignedInt) (d := .eight) clean rfl (fun _ => rfl) 0
    (by decide) (by decide)).mp agrees
  rcases safe with signed | same | positive
  · cases signed
  · cases same
  · exact absurd positive (by decide)

end RiscvLinux.Uaccess.UserAsm
