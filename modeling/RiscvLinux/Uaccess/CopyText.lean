import RiscvLinux.Uaccess.Assembly

/-!
# The accesses of `__copy_user`

What a call loads and stores of which no byte faults, instruction by instruction. `copies_iff` says
when that is what it should be.
-/

namespace RiscvLinux.Uaccess.Assembly.CopyUser

open Lib Lib.Asm Trap

variable {x : XLen}

/-- A call, and the hart before it -/
structure Call (x : XLen) where
  target : Word x
  source : Word x
  n : Word x
  before : Core x.bits

/-- `__copy_user(target, source, n)` at its entry -/
def Call.start (k : Call x) : Core x.bits :=
  { ((k.before.set .a0 k.target).set .a1 k.source).set .a2 k.n with log := [] }

/-- The ranges do not wrap and do not overlap, and none of their bytes faults. -/
structure Fair (e : Env x) (k : Call x) : Prop where
  source : k.source.toNat + k.n.toNat ≤ 2 ^ x.bits
  target : k.target.toNat + k.n.toNat ≤ 2 ^ x.bits
  apart : Apart k.target k.n.toNat k.source k.n.toNat
  clean : ∀ i < k.n.toNat, e.loadFault (k.source + BitVec.ofNat _ i) = false ∧
    e.storeFault (k.target + BitVec.ofNat _ i) = false

/-- The access is a load inside the source or a store inside the target, and aligned. -/
def Call.Proper (k : Call x) : Access x.bits → Prop
  | .load a len => (a - k.source).toNat + len ≤ k.n.toNat ∧ len ∣ a.toNat
  | .store a bs => (a - k.target).toNat + bs.length ≤ k.n.toNat ∧ bs.length ∣ a.toNat
  | .fault _ _ => False

/-- What a call leaves that has copied all bytes in order -/
structure Copied (k : Call x) (c : Core x.bits) : Prop where
  a0 : c.get .a0 = 0
  mem : c.mem = k.before.mem.write k.target (k.before.mem.read k.source k.n.toNat)
  stores : storedBytes c.log = placed k.target (k.before.mem.read k.source k.n.toNat)
  proper : ∀ a ∈ c.log, k.Proper a

/-- A call comes to its end, and has copied what it should. -/
def Copies (e : Env x) (base : Word x) (k : Call x) : Prop :=
  Leads (machine e base) ⟨(uaccess x e.rvPum).after .copyUser, k.start⟩ fun t =>
    t.code = [] ∧ Copied k t.core

/-- The low bits of both addresses match. -/
def Call.SameAlign (k : Call x) : Prop := k.target &&& szregMask = k.source &&& szregMask

instance (k : Call x) : Decidable k.SameAlign := inferInstanceAs (Decidable (_ = _))

variable {e : Env x} {base : Word x} {k : Call x} {c : Core x.bits} {i len : Nat} {lo hi : Word x}

/-- The first `i` bytes have been copied. `lo` and `hi` are the bounds that the loops use. -/
structure Progress (e : Env x) (k : Call x) (lo hi : Word x) (i : Nat) (c : Core x.bits) :
    Prop where
  a0 : c.get .a0 = k.target + BitVec.ofNat _ i
  a1 : c.get .a1 = k.source + BitVec.ofNat _ i
  a3 : c.get .a3 = k.source + k.n
  t0 : c.get .t0 = lo
  t1 : c.get .t1 = hi
  t6 : e.rvPum = true → c.get .t6 = srPum
  mem : c.mem = k.before.mem.write k.target (k.before.mem.read k.source i)
  stores : storedBytes c.log = placed k.target (k.before.mem.read k.source i)
  proper : ∀ a ∈ c.log, k.Proper a

/-! ## The loops -/

/-- Both addresses at a distance are aligned. -/
def Aligned (k : Call x) (len i : Nat) : Prop :=
  len ∣ (k.source + BitVec.ofNat _ i).toNat ∧ len ∣ (k.target + BitVec.ofNat _ i).toNat

/-- A load goes into the log. -/
theorem Progress.proper_load (progress : Progress e k lo hi i c) (within : i + len ≤ k.n.toNat)
    (some_bytes : 0 < len) (aligned : Aligned k len i) :
    ∀ a ∈ (c.note (.load (k.source + BitVec.ofNat _ i) len)).log, k.Proper a := by
  intro a member
  have size := k.n.isLt
  rw [Core.log_note, List.mem_append, List.mem_singleton] at member
  rcases member with before | rfl
  · exact progress.proper a before
  · refine ⟨?_, aligned.1⟩
    rw [toNat_add_ofNat_sub (by omega)]
    exact within

/-- One access more. -/
theorem Progress.copied (progress : Progress e k lo hi i c) (within : i + len ≤ k.n.toNat)
    (some_bytes : 0 < len) (aligned : Aligned k len i) (v : Word x) :
    Progress e k lo hi (i + len)
      ((((((c.note (.load (k.source + BitVec.ofNat _ i) len)).set .t2 v).stored
        (k.target + BitVec.ofNat _ i)
        (k.before.mem.read (k.source + BitVec.ofNat _ i) len)).set .a1
        (k.source + BitVec.ofNat _ (i + len))).set .a0 (k.target + BitVec.ofNat _ (i + len)))) := by
  have proper := progress.proper_load within some_bytes aligned
  rcases progress with ⟨-, -, a3, t0, t1, t6, mem, stores, -⟩
  have size := k.n.isLt
  have length := Memory.length_read k.before.mem (k.source + BitVec.ofNat _ i) len
  refine ⟨rfl, rfl, a3, t0, t1, t6, ?_, ?_, ?_⟩
  · show c.mem.write _ _ = _
    rw [mem]
    exact Memory.copied_next (by omega)
  · show storedBytes ((c.log ++ [.load _ _]) ++ [.store _ _]) = _
    rw [storedBytes_store, storedBytes_load, stores, Memory.read_add, placed_append,
      Memory.length_read]
  · intro a member
    rw [Core.log_set, Core.log_set, Core.log_stored, List.mem_append, List.mem_singleton] at member
    rcases member with before | rfl
    · exact proper a before
    · rw [Call.Proper, length, toNat_add_ofNat_sub (by omega)]
      exact ⟨within, aligned.2⟩

/-- A loop at a label: its load and its store of `len` bytes, with the macro, and its bound -/
structure Loop (e : Env x) (k : Call x) (lo hi : Word x) (len stop : Nat) (l : Label)
    (rest : Text Label x.bits) where
  load : Nat
  store : Nat
  signed : Bool
  bound : Reg
  step : Word x
  code : (uaccess x e.rvPum).after l = .label (.epc load) ::
    .insn (.load len signed .t2 0 .a1) :: .label (.epc store) :: .insn (.store len .t2 0 .a0) ::
    .insn (.opi .add .a1 .a1 step) :: .insn (.opi .add .a0 .a0 step) ::
    .insn (.branch .ltu .a1 bound l) :: rest
  step_eq : step = BitVec.ofNat _ len
  bound_eq : ∀ i c, Progress e k lo hi i c → c.get bound = k.source + BitVec.ofNat _ stop

/-- The bytes of an access do not fault. -/
theorem Fair.touches (fair : Fair e k) (within : i + len ≤ k.n.toNat) :
    touches e.loadFault (k.source + BitVec.ofNat _ i) len = false ∧
      touches e.storeFault (k.target + BitVec.ofNat _ i) len = false := by
  constructor <;> refine touches_eq_false.mpr fun j below => ?_ <;> rw [add_ofNat_add]
  · exact (fair.clean (i + j) (by omega)).1
  · exact (fair.clean (i + j) (by omega)).2

/-- A turn of a loop -/
theorem Progress.turn {stop : Nat} {l : Label} {rest : Text Label x.bits} (fair : Fair e k)
    (loop : Loop e k lo hi len stop l rest) (some_bytes : 0 < len) (small : len ≤ x.szreg)
    (room : k.source.toNat + k.n.toNat < 2 ^ x.bits) (inside : stop ≤ k.n.toNat)
    (short : i + len ≤ stop) (aligned : Aligned k len i) (progress : Progress e k lo hi i c) :
    Leads (machine e base) ⟨(uaccess x e.rvPum).after l, c⟩ fun t =>
      t.code = (if i + len < stop then (uaccess x e.rvPum).after l else rest) ∧
        Progress e k lo hi (i + len) t.core := by
  have within : i + len ≤ k.n.toNat := short.trans inside
  obtain ⟨loads, stores⟩ := fair.touches within
  have bytes : toBytes len (c.value len loop.signed (k.source + BitVec.ofNat _ i))
      = k.before.mem.read (k.source + BitVec.ofNat _ i) len := by
    have room : 8 * len ≤ x.bits := by
      rw [x.bits_eq]
      exact Nat.mul_le_mul_left 8 small
    rw [Core.toBytes_value _ room, progress.mem]
    exact Memory.read_copied fair.apart (by omega) within
  rw [loop.code]
  refine .label (.load _ ((BitVec.add_zero _).trans progress.a1) _ rfl loads (.label ?_))
  refine .store (k.target + BitVec.ofNat _ i) ((BitVec.add_zero _).trans progress.a0) _ bytes
    stores ?_
  refine .opi (k.source + BitVec.ofNat _ (i + len)) ?_ ?_
  · rw [loop.step_eq]
    exact (congrArg (· + BitVec.ofNat _ len) progress.a1).trans (add_ofNat_add ..)
  refine .opi (k.target + BitVec.ofNat _ (i + len)) ?_ ?_
  · rw [loop.step_eq]
    exact (congrArg (· + BitVec.ofNat _ len) progress.a0).trans (add_ofNat_add ..)
  have after := progress.copied within some_bytes aligned
    (c.value len loop.signed (k.source + BitVec.ofNat _ i))
  have order := add_ofNat_lt_iff (i := i + len) (j := stop) room within inside
  refine .branch _ _ after.a1 (loop.bound_eq _ _ after) (fun less => .here ⟨?_, after⟩)
    fun more => .here ⟨?_, after⟩
  · rw [if_pos (order.mp less), ← loop.code]
    rfl
  · rw [if_neg (mt order.mpr more)]

/-- A whole loop -/
theorem Progress.loop {start stop turns : Nat} {l : Label} {rest : Text Label x.bits}
    (fair : Fair e k) (loop : Loop e k lo hi len stop l rest) (some_bytes : 0 < len)
    (small : len ≤ x.szreg) (room : k.source.toNat + k.n.toNat < 2 ^ x.bits)
    (inside : stop ≤ k.n.toNat) (whole : stop = start + turns * len) (some_turns : 0 < turns)
    (aligned : ∀ q < turns, Aligned k len (start + q * len))
    (progress : Progress e k lo hi start c) :
    Leads (machine e base) ⟨(uaccess x e.rvPum).after l, c⟩ fun t =>
      t.code = rest ∧ Progress e k lo hi stop t.core := by
  have turn : ∀ q, 0 ≤ q → q < turns → ∀ s : Asm.State Label x.bits,
      (s.code = (if q < turns then (uaccess x e.rvPum).after l else rest) ∧
        Progress e k lo hi (start + q * len) s.core) →
      Leads (machine e base) s fun t =>
        t.code = (if q + 1 < turns then (uaccess x e.rvPum).after l else rest) ∧
          Progress e k lo hi (start + (q + 1) * len) t.core := by
    intro q _ below s on
    rcases s with ⟨code, c'⟩
    rcases on with ⟨here, progress⟩
    rw [if_pos below] at here
    obtain rfl : code = _ := here
    have next : start + q * len + len = start + (q + 1) * len := by
      rw [Nat.succ_mul, Nat.add_assoc]
    have most : (q + 1) * len ≤ turns * len := Nat.mul_le_mul_right len below
    have order : start + (q + 1) * len < stop ↔ q + 1 < turns := by
      rw [whole, Nat.add_lt_add_iff_left, Nat.mul_lt_mul_right some_bytes]
    have stepped : Leads (machine e base) ⟨(uaccess x e.rvPum).after l, c'⟩ _ :=
      progress.turn fair loop some_bytes small room inside (by omega) (aligned q below)
    rw [next] at stepped
    simp only [order] at stepped
    exact stepped
  have start' : Progress e k lo hi (start + 0 * len) c := by rwa [Nat.zero_mul]
  refine (Leads.upto (Nat.zero_le turns) turn ⟨(if_pos some_turns).symm, start'⟩).mono
    fun t ended => ?_
  rcases ended with ⟨code, done⟩
  rw [if_neg (Nat.lt_irrefl turns)] at code
  exact ⟨code, whole ▸ done⟩

/-! ## The whole call -/

theorem after_three (rvPum : Bool) : (uaccess x rvPum).after (.copy .three) =
    disable rvPum ++ insns [.li .a0 0, .ret] ++
      (.label (.copy .four) :: (uaccess x rvPum).after (.copy .four)) := by
  cases rvPum <;> rfl

theorem after_two (rvPum : Bool) : (uaccess x rvPum).after (.copy .two) =
    .insn (.branch .ltu .a1 .a3 (.copy .five)) :: .label (.copy .three) ::
      (uaccess x rvPum).after (.copy .three) := by
  cases rvPum <;> rfl

theorem after_one (rvPum : Bool) : (uaccess x rvPum).after (.copy .one) =
    .label (.epc 0) :: .insn (.load x.szreg true .t2 0 .a1) :: .label (.epc 1) ::
      .insn (.store x.szreg .t2 0 .a0) :: .insn (.opi .add .a1 .a1 szreg) ::
      .insn (.opi .add .a0 .a0 szreg) :: .insn (.branch .ltu .a1 .t1 (.copy .one)) ::
      .label (.copy .two) :: (uaccess x rvPum).after (.copy .two) := by
  cases rvPum <;> rfl

theorem after_copyUser (rvPum : Bool) : (uaccess x rvPum).after .copyUser =
    enable rvPum ++ (insns [
      .op .add .a3 .a1 .a2,
      .opi .and .t0 .a0 szregMask,
      .opi .and .t1 .a1 szregMask,
      .branch .ne .t0 .t1 (.copy .two),
      .opi .add .t0 .a1 szregMask,
      .opi .and .t1 .a3 (~~~szregMask),
      .opi .and .t0 .t0 (~~~szregMask),
      .branch .geu .t0 .t1 (.copy .two),
      .branch .ltu .a1 .t0 (.copy .four)] ++
    .label (.copy .one) :: (uaccess x rvPum).after (.copy .one)) := by
  cases rvPum <;> rfl

/-- `1:` -/
def wordLoop {stop : Nat} (bound : hi = k.source + BitVec.ofNat _ stop) :
    Loop e k lo hi x.szreg stop (.copy .one)
      (.label (.copy .two) :: (uaccess x e.rvPum).after (.copy .two)) where
  load := 0
  store := 1
  signed := true
  bound := .t1
  step := szreg
  code := after_one e.rvPum
  step_eq := szreg_eq_ofNat x
  bound_eq _ _ progress := progress.t1.trans bound

/-- `4:` -/
def headLoop {stop : Nat} (bound : lo = k.source + BitVec.ofNat _ stop) :
    Loop e k lo hi 1 stop (.copy .four) (.insn (.j (.copy .one)) :: .label (.copy .five) ::
      (uaccess x e.rvPum).after (.copy .five)) where
  load := 2
  store := 3
  signed := false
  bound := .t0
  step := 1
  code := by cases e.rvPum <;> rfl
  step_eq := one_eq_ofNat x
  bound_eq _ _ progress := progress.t0.trans bound

/-- `5:` -/
def tailLoop : Loop e k lo hi 1 k.n.toNat (.copy .five) (.insn (.j (.copy .three)) ::
    .label .clearUser :: (uaccess x e.rvPum).after .clearUser) where
  load := 4
  store := 5
  signed := false
  bound := .a3
  step := 1
  code := by cases e.rvPum <;> rfl
  step_eq := one_eq_ofNat x
  bound_eq _ _ progress := by rw [progress.a3, BitVec.ofNat_toNat, BitVec.setWidth_eq]

/-- The end without a fault -/
theorem leads_three {Q : Asm.State Label x.bits → Prop}
    (t6 : e.rvPum = true → c.get .t6 = srPum) (holds : ∀ s, Q ⟨[], (c.setStatus s).set .a0 0⟩) :
    Leads (machine e base) ⟨(uaccess x e.rvPum).after (.copy .three), c⟩ Q := by
  rw [after_three, List.append_assoc]
  exact leads_disable t6 fun s _ => .li (.ret (.here (holds s)))

theorem Progress.three (progress : Progress e k lo hi k.n.toNat c) :
    Leads (machine e base) ⟨(uaccess x e.rvPum).after (.copy .three), c⟩ fun t =>
      t.code = [] ∧ Copied k t.core :=
  leads_three progress.t6 fun _ => ⟨rfl, rfl, progress.mem, progress.stores, progress.proper⟩

/-- Single bytes are always aligned. -/
theorem aligned_one (k : Call x) (i : Nat) : Aligned k 1 i := ⟨one_dvd _, one_dvd _⟩

/-- The next words are aligned if the first is. -/
theorem Aligned.add {q : Nat} (fair : Fair e k) (within : i + (q + 1) * x.szreg ≤ k.n.toNat)
    (aligned : Aligned k x.szreg i) : Aligned k x.szreg (i + q * x.szreg) := by
  have positive := x.szreg_pos
  rw [Nat.succ_mul] at within
  have step : ∀ a : Word x, a.toNat + k.n.toNat ≤ 2 ^ x.bits →
      x.szreg ∣ (a + BitVec.ofNat _ i).toNat →
      x.szreg ∣ (a + BitVec.ofNat _ (i + q * x.szreg)).toNat := by
    intro a fits divides
    have inside : a.toNat + (i + q * x.szreg) < 2 ^ x.bits := by omega
    rw [toNat_add_ofNat inside (Nat.le_add_right ..)] at divides
    rw [toNat_add_ofNat inside (Nat.le_refl _), ← Nat.add_assoc]
    exact Nat.dvd_add divides (Nat.dvd_mul_left ..)
  exact ⟨step _ fair.source aligned.1, step _ fair.target aligned.2⟩

section Room

variable (fair : Fair e k) (room : k.source.toNat + k.n.toNat < 2 ^ x.bits)
include fair room

/-- From `2:` on -/
theorem Progress.two (within : i ≤ k.n.toNat) (progress : Progress e k lo hi i c) :
    Leads (machine e base) ⟨(uaccess x e.rvPum).after (.copy .two), c⟩ fun t =>
      t.code = [] ∧ Copied k t.core := by
  have a3 : c.get .a3 = k.source + BitVec.ofNat _ k.n.toNat := tailLoop.bound_eq _ _ progress
  have order := add_ofNat_lt_iff room within (Nat.le_refl _)
  rw [after_two]
  refine .branch _ _ progress.a1 a3 (fun less => ?_) fun none => .label ?_
  · have short := order.mp less
    have whole : k.n.toNat = i + (k.n.toNat - i) * 1 := by omega
    refine (progress.loop fair tailLoop Nat.one_pos x.szreg_pos room (Nat.le_refl _) whole
      (by omega) fun _ _ => aligned_one ..).bind fun t ended => ?_
    rcases t with ⟨code, c'⟩
    rcases ended with ⟨here, done⟩
    obtain rfl : code = _ := here
    exact .j done.three
  · have done : i = k.n.toNat := Nat.le_antisymm within (Nat.not_lt.mp (mt order.mpr none))
    exact (done ▸ progress).three

/-- From `1:` on -/
theorem Progress.one {turns : Nat} (within : i + (turns + 1) * x.szreg ≤ k.n.toNat)
    (bound : hi = k.source + BitVec.ofNat _ (i + (turns + 1) * x.szreg))
    (aligned : Aligned k x.szreg i) (progress : Progress e k lo hi i c) :
    Leads (machine e base) ⟨(uaccess x e.rvPum).after (.copy .one), c⟩ fun t =>
      t.code = [] ∧ Copied k t.core := by
  refine (progress.loop fair (wordLoop bound) x.szreg_pos (Nat.le_refl _) room within rfl
    (Nat.succ_pos turns) fun q below => ?_).bind fun t ended => ?_
  · have most : (q + 1) * x.szreg ≤ (turns + 1) * x.szreg := Nat.mul_le_mul_right _ below
    exact aligned.add fair (by omega)
  · rcases t with ⟨code, c'⟩
    rcases ended with ⟨here, done⟩
    obtain rfl : code = _ := here
    exact .label (done.two fair room within)

end Room

/-- What the entry leads to -/
theorem leads_entry {Q : Asm.State Label x.bits → Prop}
    (two : (k.SameAlign → roundDown (k.source + k.n) ≤ roundUp k.source) → ∀ lo hi c,
      Progress e k lo hi 0 c →
      Leads (machine e base) ⟨(uaccess x e.rvPum).after (.copy .two), c⟩ Q)
    (four : k.SameAlign → roundUp k.source < roundDown (k.source + k.n) →
      k.source < roundUp k.source → ∀ c,
      Progress e k (roundUp k.source) (roundDown (k.source + k.n)) 0 c →
      Leads (machine e base) ⟨(uaccess x e.rvPum).after (.copy .four), c⟩ Q)
    (one : k.SameAlign → roundUp k.source < roundDown (k.source + k.n) →
      ¬k.source < roundUp k.source → ∀ c,
      Progress e k (roundUp k.source) (roundDown (k.source + k.n)) 0 c →
      Leads (machine e base) ⟨(uaccess x e.rvPum).after (.copy .one), c⟩ Q) :
    Leads (machine e base) ⟨(uaccess x e.rvPum).after .copyUser, k.start⟩ Q := by
  rw [after_copyUser]
  refine leads_enable fun c t6 keeps mem log => ?_
  have a0 : c.get .a0 = k.target := keeps .a0 (by decide)
  have a1 : c.get .a1 = k.source := keeps .a1 (by decide)
  have a2 : c.get .a2 = k.n := keeps .a2 (by decide)
  have proper : ∀ a ∈ c.log, k.Proper a := by
    intro a member
    rw [log] at member
    exact absurd member List.not_mem_nil
  have start : Progress e k (k.target &&& szregMask) (k.source &&& szregMask) 0
      (((c.set .a3 (k.source + k.n)).set .t0 (k.target &&& szregMask)).set .t1
        (k.source &&& szregMask)) :=
    ⟨a0.trans (BitVec.add_zero _).symm, a1.trans (BitVec.add_zero _).symm, rfl, rfl, rfl, t6, mem,
      congrArg storedBytes log, proper⟩
  refine .op (k.source + k.n) (by rw [a1, a2]; rfl) ?_
  refine .opi (k.target &&& szregMask) (by rw [Core.get_set_of_ne _ _ (by decide), a0]; rfl) ?_
  refine .opi (k.source &&& szregMask) ?_ ?_
  · rw [Core.get_set_of_ne _ _ (by decide), Core.get_set_of_ne _ _ (by decide), a1]
    rfl
  refine .branch _ _ start.t0 start.t1 (fun differ => ?_) fun alike => ?_
  · exact two (fun same => absurd same differ) _ _ _ start
  have same : k.SameAlign := Decidable.not_not.mp alike
  have a1' : (((c.set .a3 (k.source + k.n)).set .t0 (k.target &&& szregMask)).set .t1
      (k.source &&& szregMask)).get .a1 = k.source := a1
  refine .opi (k.source + szregMask) (congrArg (· + szregMask) a1') ?_
  refine .opi (roundDown (k.source + k.n)) rfl (.opi (roundUp k.source) rfl ?_)
  have progress : Progress e k (roundUp k.source) (roundDown (k.source + k.n)) 0
      ((((((c.set .a3 (k.source + k.n)).set .t0 (k.target &&& szregMask)).set .t1
        (k.source &&& szregMask)).set .t0 (k.source + szregMask)).set .t1
        (roundDown (k.source + k.n))).set .t0 (roundUp k.source)) :=
    ⟨start.a0, start.a1, rfl, rfl, rfl, t6, start.mem, start.stores, start.proper⟩
  refine .branch _ _ progress.t0 progress.t1 (fun less => two (fun _ => less) _ _ _ progress)
    fun more => ?_
  have whole := BitVec.not_le.mp more
  refine .branch k.source _ a1 progress.t0
    (fun unaligned => four same whole unaligned _ progress)
    fun aligned => .label (one same whole aligned _ progress)

/-- The first whole word is aligned in both ranges. -/
theorem aligned_roundUp {h : Nat} (fair : Fair e k) (same : k.SameAlign)
    (room : k.source.toNat + k.n.toNat < 2 ^ x.bits) (within : h + x.szreg ≤ k.n.toNat)
    (low : roundUp k.source = k.source + BitVec.ofNat _ h)
    (divides : x.szreg ∣ (roundUp k.source).toNat) : Aligned k x.szreg h := by
  have positive := x.szreg_pos
  have target := fair.target
  have alike := congrArg BitVec.toNat same
  rw [toNat_and_szregMask, toNat_and_szregMask] at alike
  have inside : k.target.toNat + h < 2 ^ x.bits := by omega
  refine ⟨low ▸ divides, ?_⟩
  rw [low, toNat_add_ofNat room (by omega)] at divides
  rw [toNat_add_ofNat inside (Nat.le_refl _)]
  have congruent : k.target.toNat + h ≡ k.source.toNat + h [MOD x.szreg] :=
    Nat.ModEq.add_right h alike
  exact (congruent.dvd_iff (Nat.dvd_refl _)).mpr divides

/-- Rounding up stays inside the address space, or does not matter. -/
theorem copies_of_inside (base : Word x) (fair : Fair e k)
    (room : k.source.toNat + k.n.toNat < 2 ^ x.bits)
    (inside : k.SameAlign → k.source.toNat + x.szreg ≤ 2 ^ x.bits) : Copies e base k := by
  refine leads_entry (fun _ _ _ c progress => progress.two fair room (Nat.zero_le _)) ?_ ?_
  · intro same whole unaligned c progress
    obtain ⟨h, turns, within, low, high, divides⟩ := exists_words room (inside same) whole
    have aligned := aligned_roundUp fair same room
      (by rw [Nat.succ_mul] at within; omega) low divides
    have some_bytes : 0 < h := by
      refine Nat.pos_of_ne_zero fun none => ?_
      rw [low, none] at unaligned
      exact BitVec.lt_irrefl _ ((BitVec.add_zero _).symm ▸ unaligned)
    have bytes : h = 0 + h * 1 := by omega
    refine (progress.loop fair (headLoop low) Nat.one_pos x.szreg_pos room (by omega) bytes
      some_bytes fun _ _ => aligned_one ..).bind fun t ended => ?_
    rcases t with ⟨code, c'⟩
    rcases ended with ⟨here, done⟩
    obtain rfl : code = _ := here
    exact .j (done.one fair room within high aligned)
  · intro same whole aligned c progress
    obtain ⟨h, turns, within, low, high, divides⟩ := exists_words room (inside same) whole
    have first := aligned_roundUp fair same room
      (by rw [Nat.succ_mul] at within; omega) low divides
    have none : h = 0 := by
      refine Nat.eq_zero_of_not_pos fun some_bytes => aligned ?_
      have order := add_ofNat_lt_iff (i := 0) (j := h) room (Nat.zero_le _) (by omega)
      rw [BitVec.add_zero] at order
      rw [low]
      exact order.mpr some_bytes
    subst none
    exact progress.one fair room within high first

/-! ## Where it goes wrong -/

/-- When the end is no address, nothing is copied. -/
theorem not_copies_of_wraps (wraps : k.source.toNat + k.n.toNat = 2 ^ x.bits) :
    ¬Copies e base k := by
  intro copies
  have some_bytes : 0 < k.n.toNat := by
    have address := k.source.isLt
    omega
  have stops : Leads (machine e base) ⟨(uaccess x e.rvPum).after .copyUser, k.start⟩ fun t =>
      t.code = [] ∧ storedBytes t.core.log = [] := by
    refine leads_entry (fun _ lo hi c progress => ?_) (fun _ less => ?_) fun _ less => ?_
    · rw [after_two]
      refine .branch k.source 0 ?_ ?_ (fun less => absurd less BitVec.not_lt_zero) fun _ => ?_
      · exact progress.a1.trans (BitVec.add_zero _)
      · exact progress.a3.trans (add_eq_zero_of_wraps wraps)
      · exact .label (leads_three progress.t6 fun _ => ⟨rfl, progress.stores⟩)
    all_goals
      rw [roundDown_of_wraps wraps] at less
      exact absurd less BitVec.not_lt_zero
  rcases stops with ⟨t, run, ended, nothing⟩
  have copied := copies.of_run run ended
  have length := congrArg List.length (nothing.symm.trans copied.stores)
  rw [length_placed, Memory.length_read, List.length_nil] at length
  omega

/-- When rounding up leaves the address space, the first load is of a word, which is more than there
is to copy. -/
theorem not_copies_of_beyond (same : k.SameAlign)
    (room : k.source.toNat + k.n.toNat < 2 ^ x.bits)
    (beyond : 2 ^ x.bits < k.source.toNat + x.szreg) : ¬Copies e base k := by
  intro copies
  obtain ⟨whole, aligned⟩ := roundUp_of_beyond room beyond
  have first : Leads (machine e base) ⟨(uaccess x e.rvPum).after .copyUser, k.start⟩ fun t =>
      ∃ a ∈ t.core.log, ¬k.Proper a := by
    refine leads_entry (fun none => absurd (none same) whole)
      (fun _ _ less => absurd less aligned) fun _ _ _ c progress => ?_
    · have addr : c.get .a1 + 0 = k.source := by
        rw [progress.a1]
        exact (BitVec.add_zero _).trans (BitVec.add_zero _)
      rw [after_one]
      refine .label ?_
      cases faults : touches e.loadFault k.source x.szreg with
      | true =>
        refine leads_load_fault (k := 0) (by decide) (by cases e.rvPum <;> rfl) _ addr faults
          (.here ⟨_, List.mem_append_right _ List.mem_cons_self, id⟩)
      | false =>
        refine .load _ addr _ rfl faults
          (.here ⟨_, List.mem_append_right _ List.mem_cons_self, fun proper => ?_⟩)
        have inside := proper.1
        rw [BitVec.sub_self] at inside
        have none : (0 : Word x).toNat = 0 := BitVec.toNat_zero
        omega
  obtain ⟨t, u, ⟨a, member, improper⟩, copied, grows⟩ := first.log_grows copies
  exact improper (copied.proper a (grows.subset member))

/-- `__copy_user` does what it should exactly when the end of the source is an address and rounding
the source up stays inside the address space, or the code does not go by it. -/
theorem copies_iff (e : Env x) (base : Word x) (k : Call x) (fair : Fair e k) :
    Copies e base k ↔ k.source.toNat + k.n.toNat < 2 ^ x.bits ∧
      (k.SameAlign → k.source.toNat + x.szreg ≤ 2 ^ x.bits) := by
  constructor
  · intro copies
    have room : k.source.toNat + k.n.toNat < 2 ^ x.bits :=
      Nat.lt_of_le_of_ne fair.source fun wraps => not_copies_of_wraps wraps copies
    exact ⟨room, fun same => Nat.not_lt.mp fun beyond =>
      not_copies_of_beyond same room beyond copies⟩
  · intro given
    rcases given with ⟨room, inside⟩
    exact copies_of_inside base fair room inside

/-- Two of the last four bytes, to an address aligned alike -/
def top : Call .rv64 := ⟨0x1004, 0xfffffffffffffffc, 2, ⟨fun _ => 0, 0, fun _ => 7, []⟩⟩

/-- A machine on which nothing faults -/
def mapped : Env .rv64 := ⟨true, fun _ => false, fun _ => false⟩

/-- Twenty bytes between addresses aligned alike -/
def middle : Call .rv64 := ⟨0x1004, 0x2004, 20, ⟨fun _ => 0, 0, fun _ => 7, []⟩⟩

/-- A machine on which loads fault from an address on -/
def partly : Env .rv64 := ⟨true, fun a => decide (0x2018 ≤ a), fun _ => false⟩

theorem copies_iff_middle : Copies partly 0 middle ∧ ¬Copies mapped 0 top := by
  constructor
  · exact (copies_iff partly 0 middle ⟨by decide, by decide, by decide, by decide⟩).mpr
      ⟨by decide, fun _ => by decide⟩
  · intro copies
    have inside := ((copies_iff mapped 0 top
      ⟨by decide, by decide, by decide, fun _ _ => ⟨rfl, rfl⟩⟩).mp copies).2 (by decide)
    exact absurd inside (by decide)

theorem not_copies_top : Fair mapped top ∧ ¬Copies mapped 0 top :=
  ⟨⟨by decide, by decide, by decide, fun _ _ => ⟨rfl, rfl⟩⟩,
    not_copies_of_beyond (by decide) (by decide) (by decide)⟩

end RiscvLinux.Uaccess.Assembly.CopyUser
