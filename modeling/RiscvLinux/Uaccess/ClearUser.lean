import RiscvLinux.Uaccess.Assembly

/-!
# `__clear_user`

What a call has cleared when it comes to its end, whichever bytes fault. `clears_iff` says when what
it returns is right: the code rounds the address up, which must not leave the address space.
-/

namespace RiscvLinux.Uaccess.Assembly.ClearUser

open Lib Lib.Asm Trap

variable {x : XLen}

/-- A call, and the hart before it -/
structure Call (x : XLen) where
  target : Word x
  n : Word x
  before : Core x.bits

/-- `__clear_user(target, n)` at its entry -/
def Call.start (k : Call x) : Core x.bits :=
  { (k.before.set .a0 k.target).set .a1 k.n with log := [] }

/-- The range does not wrap. -/
def Call.Fits (k : Call x) : Prop := k.target.toNat + k.n.toNat ≤ 2 ^ x.bits

instance (k : Call x) : Decidable k.Fits := inferInstanceAs (Decidable (_ ≤ _))

/-- What a call leaves that returns in `a0` how many bytes it has not cleared -/
structure Cleared (e : Env x) (k : Call x) (c : Core x.bits) : Prop where
  le : (c.get .a0).toNat ≤ k.n.toNat
  mem : c.mem = k.before.mem.write k.target (List.replicate (k.n.toNat - (c.get .a0).toNat) 0)
  stores : storedBytes c.log =
    placed k.target (List.replicate (k.n.toNat - (c.get .a0).toNat) 0)
  fault : c.get .a0 = 0 ↔ ∀ a len, .fault a len ∉ c.log
  sstatus : e.rvPum = true → c.sstatus &&& srPum = srPum

/-- A call comes to its end, and returns what is right. -/
def Clears (e : Env x) (base : Word x) (k : Call x) : Prop :=
  Leads (machine e base) ⟨(uaccess x e.rvPum).after .clearUser, k.start⟩ fun t =>
    t.code = [] ∧ Cleared e k t.core

variable {e : Env x} {base : Word x} {k : Call x} {c : Core x.bits} {i len : Nat} {lo hi : Word x}

/-- The first `i` bytes have been cleared, and nothing has faulted. `lo` and `hi` are the bounds
that the loops use. -/
structure Progress (e : Env x) (k : Call x) (lo hi : Word x) (i : Nat) (c : Core x.bits) :
    Prop where
  a0 : c.get .a0 = k.target + BitVec.ofNat _ i
  a3 : c.get .a3 = k.target + k.n
  t0 : c.get .t0 = lo
  t1 : c.get .t1 = hi
  t6 : e.rvPum = true → c.get .t6 = srPum
  mem : c.mem = k.before.mem.write k.target (List.replicate i 0)
  stores : storedBytes c.log = placed k.target (List.replicate i 0)
  clean : ∀ a len, .fault a len ∉ c.log

/-! ## The ends -/

/-- After a fault -/
theorem Progress.ten (progress : Progress e k lo hi i c) (short : i < k.n.toNat) (a : Word x)
    (len : Nat) :
    Leads (machine e base) ⟨disable e.rvPum ++ insns [.op .sub .a0 .a3 .a0, .ret],
      c.note (.fault a len)⟩ fun t => t.code = [] ∧ Cleared e k t.core := by
  rcases progress with ⟨a0, a3, -, -, t6, mem, stores, -⟩
  have size := k.n.isLt
  have left : c.get .a3 - c.get .a0 = BitVec.ofNat _ (k.n.toNat - i) := by
    have split : k.n = BitVec.ofNat _ i + BitVec.ofNat _ (k.n.toNat - i) := by
      rw [← BitVec.ofNat_add, Nat.add_sub_cancel' (Nat.le_of_lt short), BitVec.ofNat_toNat,
        BitVec.setWidth_eq]
    rw [a3, a0]
    conv_lhs => rw [split]
    ring
  have count : (BitVec.ofNat x.bits (k.n.toNat - i)).toNat = k.n.toNat - i := by
    rw [BitVec.toNat_ofNat, Nat.mod_eq_of_lt (by omega)]
  refine leads_disable t6 fun s set => .op (BitVec.ofNat _ (k.n.toNat - i)) left (.ret (.here ?_))
  have done : k.n.toNat - (BitVec.ofNat x.bits (k.n.toNat - i)).toNat = i := by omega
  refine ⟨rfl, ?_, ?_, ?_, ?_, set⟩
  · exact count.trans_le (Nat.sub_le ..)
  · show c.mem = k.before.mem.write k.target
      (List.replicate (k.n.toNat - (BitVec.ofNat x.bits (k.n.toNat - i)).toNat) 0)
    rw [done, mem]
  · show storedBytes (c.log ++ [.fault a len]) = placed k.target
      (List.replicate (k.n.toNat - (BitVec.ofNat x.bits (k.n.toNat - i)).toNat) 0)
    rw [done, storedBytes_fault, stores]
  · constructor
    · intro zero
      have none : BitVec.ofNat x.bits (k.n.toNat - i) = 0 := zero
      rw [none] at count
      exact absurd (count.symm.trans BitVec.toNat_zero) (by omega)
    · exact fun clean => absurd (List.mem_append_right _ List.mem_cons_self) (clean a len)

theorem after_three (rvPum : Bool) : (uaccess x rvPum).after (.clear .three) =
    disable rvPum ++ insns [.li .a0 0, .ret] ++
      (.label (.clear .four) :: (uaccess x rvPum).after (.clear .four)) := by
  cases rvPum <;> rfl

/-- The end without a fault -/
theorem leads_three {Q : Asm.State Label x.bits → Prop}
    (t6 : e.rvPum = true → c.get .t6 = srPum)
    (holds : ∀ s, (e.rvPum = true → s &&& srPum = srPum) → Q ⟨[], (c.setStatus s).set .a0 0⟩) :
    Leads (machine e base) ⟨(uaccess x e.rvPum).after (.clear .three), c⟩ Q := by
  rw [after_three, List.append_assoc]
  exact leads_disable t6 fun s set => .li (.ret (.here (holds s set)))

/-- After all bytes -/
theorem Progress.three (progress : Progress e k lo hi k.n.toNat c) :
    Leads (machine e base) ⟨(uaccess x e.rvPum).after (.clear .three), c⟩ fun t =>
      t.code = [] ∧ Cleared e k t.core := by
  rcases progress with ⟨-, -, -, -, t6, mem, stores, clean⟩
  have none : (0 : Word x).toNat = 0 := BitVec.toNat_zero
  refine leads_three t6 fun s set => ⟨rfl, ?_, ?_, ?_, ?_, set⟩
  · exact none.trans_le (Nat.zero_le _)
  · show c.mem = k.before.mem.write k.target (List.replicate (k.n.toNat - (0 : Word x).toNat) 0)
    rw [none, Nat.sub_zero, mem]
  · show storedBytes c.log = placed k.target (List.replicate (k.n.toNat - (0 : Word x).toNat) 0)
    rw [none, Nat.sub_zero, stores]
  · exact ⟨fun _ => clean, fun _ => rfl⟩

/-! ## The loops -/

theorem toBytes_zero (len : Nat) : toBytes len (0 : Word x) = List.replicate len 0 := by
  refine List.ext_getElem (by rw [length_toBytes, List.length_replicate]) fun j _ _ => ?_
  have none : (0 : Word x).toNat = 0 := BitVec.toNat_zero
  simp only [toBytes, none, Nat.zero_div, List.getElem_map, List.getElem_replicate]
  rfl

/-- One store more. -/
theorem Progress.stored (progress : Progress e k lo hi i c) (within : i + len ≤ k.n.toNat) :
    Progress e k lo hi (i + len)
      ((c.stored (k.target + BitVec.ofNat _ i) (List.replicate len 0)).set .a0
        (k.target + BitVec.ofNat _ (i + len))) := by
  rcases progress with ⟨-, a3, t0, t1, t6, mem, stores, clean⟩
  have size := k.n.isLt
  refine ⟨rfl, a3, t0, t1, t6, ?_, ?_, ?_⟩
  · have written := @Memory.write_write _ k.before.mem k.target (List.replicate i 0)
      (List.replicate len 0) (by simp only [List.length_replicate]; omega)
    rw [List.length_replicate, List.replicate_append_replicate] at written
    rw [Core.mem_set, Core.mem_stored, mem, written]
  · rw [Core.log_set, Core.log_stored, storedBytes_store, stores,
      ← List.replicate_append_replicate, placed_append, List.length_replicate]
  · intro a n member
    rw [Core.log_set, Core.log_stored, List.mem_append, List.mem_singleton] at member
    rcases member with before | store
    · exact clean a n before
    · cases store

/-- A loop at a label: its store of `len` zeros, with the macro, and its bound -/
structure Loop (e : Env x) (k : Call x) (lo hi : Word x) (len stop : Nat) (l : Label)
    (rest : Text Label x.bits) where
  number : Nat
  entry : number < 9
  bound : Reg
  step : Word x
  code : (uaccess x e.rvPum).after l = .label (.epc number) ::
    .insn (.store len .zero 0 .a0) :: .insn (.opi .add .a0 .a0 step) ::
    .insn (.branch .ltu .a0 bound l) :: rest
  access : (uaccess x e.rvPum).after (.epc number) = .insn (.store len .zero 0 .a0) ::
    .insn (.opi .add .a0 .a0 step) :: .insn (.branch .ltu .a0 bound l) :: rest
  step_eq : step = BitVec.ofNat _ len
  bound_eq : ∀ i c, Progress e k lo hi i c → c.get bound = k.target + BitVec.ofNat _ stop

/-- A turn of a loop comes to the end of the call, or to the next turn. -/
theorem Progress.turn {stop : Nat} {l : Label} {rest : Text Label x.bits}
    (loop : Loop e k lo hi len stop l rest) (some_bytes : 0 < len)
    (room : k.target.toNat + k.n.toNat < 2 ^ x.bits) (inside : stop ≤ k.n.toNat)
    (short : i + len ≤ stop) (progress : Progress e k lo hi i c) :
    Leads (machine e base) ⟨(uaccess x e.rvPum).after l, c⟩ fun t =>
      (t.code = [] ∧ Cleared e k t.core) ∨
      (t.code = (if i + len < stop then (uaccess x e.rvPum).after l else rest) ∧
        Progress e k lo hi (i + len) t.core) := by
  have addr : c.get .a0 + 0 = k.target + BitVec.ofNat _ i := (BitVec.add_zero _).trans progress.a0
  have within : i + len ≤ k.n.toNat := short.trans inside
  rw [loop.code]
  refine .label ?_
  cases faults : touches e.storeFault (k.target + BitVec.ofNat _ i) len with
  | true =>
    refine leads_store_fault loop.entry loop.access _ addr faults ?_
    exact (progress.ten (by omega) _ _).mono fun t ended => .inl ended
  | false =>
    refine .store _ addr (List.replicate len 0) (toBytes_zero len) faults ?_
    refine .opi (k.target + BitVec.ofNat _ (i + len)) ?_ ?_
    · rw [Core.get_stored, progress.a0, loop.step_eq]
      exact add_ofNat_add ..
    have after := progress.stored within
    have order := add_ofNat_lt_iff (i := i + len) (j := stop) room within inside
    refine .branch _ _ after.a0 (loop.bound_eq _ _ after) (fun less => .here (.inr ⟨?_, after⟩))
      fun more => .here (.inr ⟨?_, after⟩)
    · rw [if_pos (order.mp less), ← loop.code]
      rfl
    · rw [if_neg (mt order.mpr more)]

/-- A whole loop -/
theorem Progress.loop {start stop turns : Nat} {l : Label} {rest : Text Label x.bits}
    (loop : Loop e k lo hi len stop l rest) (some_bytes : 0 < len)
    (room : k.target.toNat + k.n.toNat < 2 ^ x.bits) (inside : stop ≤ k.n.toNat)
    (whole : stop = start + turns * len) (some_turns : 0 < turns)
    (progress : Progress e k lo hi start c) :
    Leads (machine e base) ⟨(uaccess x e.rvPum).after l, c⟩ fun t =>
      (t.code = [] ∧ Cleared e k t.core) ∨ (t.code = rest ∧ Progress e k lo hi stop t.core) := by
  have turn : ∀ q < turns, ∀ s : Asm.State Label x.bits,
      (s.code = (if q < turns then (uaccess x e.rvPum).after l else rest) ∧
        Progress e k lo hi (start + q * len) s.core) →
      Leads (machine e base) s fun t => (t.code = [] ∧ Cleared e k t.core) ∨
        (t.code = (if q + 1 < turns then (uaccess x e.rvPum).after l else rest) ∧
          Progress e k lo hi (start + (q + 1) * len) t.core) := by
    intro q below s on
    rcases s with ⟨code, c'⟩
    rcases on with ⟨here, progress⟩
    rw [if_pos below] at here
    obtain rfl : code = _ := here
    have next : start + q * len + len = start + (q + 1) * len := by
      rw [Nat.succ_mul, Nat.add_assoc]
    have most : (q + 1) * len ≤ turns * len := Nat.mul_le_mul_right len below
    have order : start + (q + 1) * len < stop ↔ q + 1 < turns := by
      rw [whole, Nat.add_lt_add_iff_left, Nat.mul_lt_mul_right some_bytes]
    have stepped : Leads (machine e base) ⟨(uaccess x e.rvPum).after l, c'⟩ _ :=
      progress.turn loop some_bytes room inside (by omega)
    rw [next] at stepped
    simp only [order] at stepped
    exact stepped
  have start' : Progress e k lo hi (start + 0 * len) c := by rwa [Nat.zero_mul]
  refine (Leads.iterate turn ⟨(if_pos some_turns).symm, start'⟩).mono fun t ended => ?_
  rcases ended with left | ⟨code, done⟩
  · exact .inl left
  · rw [if_neg (Nat.lt_irrefl turns)] at code
    exact .inr ⟨code, whole ▸ done⟩

/-! ## The whole call -/

theorem after_two (rvPum : Bool) : (uaccess x rvPum).after (.clear .two) =
    .insn (.branch .ltu .a0 .a3 (.clear .five)) :: .label (.clear .three) ::
      (uaccess x rvPum).after (.clear .three) := by
  cases rvPum <;> rfl

theorem after_clearUser (rvPum : Bool) : (uaccess x rvPum).after .clearUser =
    enable rvPum ++ (insns [
      .op .add .a3 .a0 .a1,
      .opi .add .t0 .a0 szregMask,
      .opi .and .t1 .a3 (~~~szregMask),
      .opi .and .t0 .t0 (~~~szregMask),
      .branch .geu .t0 .t1 (.clear .two),
      .branch .ltu .a0 .t0 (.clear .four)] ++
    .label (.clear .one) :: (uaccess x rvPum).after (.clear .one)) := by
  cases rvPum <;> rfl

theorem after_six (rvPum : Bool) : (uaccess x rvPum).after (.epc 6) =
    .insn (.store x.szreg .zero 0 .a0) :: .insn (.opi .add .a0 .a0 szreg) ::
      .insn (.branch .ltu .a0 .t1 (.clear .one)) :: .label (.clear .two) ::
      (uaccess x rvPum).after (.clear .two) := by
  cases rvPum <;> rfl

theorem after_one (rvPum : Bool) : (uaccess x rvPum).after (.clear .one) =
    .label (.epc 6) :: (uaccess x rvPum).after (.epc 6) := by
  cases rvPum <;> rfl

/-- `1:` -/
def wordLoop {stop : Nat} (bound : hi = k.target + BitVec.ofNat _ stop) :
    Loop e k lo hi x.szreg stop (.clear .one)
      (.label (.clear .two) :: (uaccess x e.rvPum).after (.clear .two)) where
  number := 6
  entry := by decide
  bound := .t1
  step := szreg
  code := by rw [after_one, after_six]
  access := after_six e.rvPum
  step_eq := szreg_eq_ofNat x
  bound_eq _ _ progress := progress.t1.trans bound

/-- `4:` -/
def headLoop {stop : Nat} (bound : lo = k.target + BitVec.ofNat _ stop) :
    Loop e k lo hi 1 stop (.clear .four) (.insn (.j (.clear .one)) :: .label (.clear .five) ::
      (uaccess x e.rvPum).after (.clear .five)) where
  number := 7
  entry := by decide
  bound := .t0
  step := 1
  code := by cases e.rvPum <;> rfl
  access := by cases e.rvPum <;> rfl
  step_eq := one_eq_ofNat x
  bound_eq _ _ progress := progress.t0.trans bound

/-- `5:` -/
def tailLoop : Loop e k lo hi 1 k.n.toNat (.clear .five) (.insn (.j (.clear .three)) ::
    .label .ten :: (uaccess x e.rvPum).after .ten) where
  number := 8
  entry := by decide
  bound := .a3
  step := 1
  code := by cases e.rvPum <;> rfl
  access := by cases e.rvPum <;> rfl
  step_eq := one_eq_ofNat x
  bound_eq _ _ progress := by rw [progress.a3, BitVec.ofNat_toNat, BitVec.setWidth_eq]

section Room

variable (room : k.target.toNat + k.n.toNat < 2 ^ x.bits)
include room

/-- From `2:` on -/
theorem Progress.two (within : i ≤ k.n.toNat) (progress : Progress e k lo hi i c) :
    Leads (machine e base) ⟨(uaccess x e.rvPum).after (.clear .two), c⟩ fun t =>
      t.code = [] ∧ Cleared e k t.core := by
  have a3 : c.get .a3 = k.target + BitVec.ofNat _ k.n.toNat := tailLoop.bound_eq _ _ progress
  have order := add_ofNat_lt_iff room within (Nat.le_refl _)
  rw [after_two]
  refine .branch _ _ progress.a0 a3 (fun less => ?_) fun none => .label ?_
  · have short := order.mp less
    have whole : k.n.toNat = i + (k.n.toNat - i) * 1 := by omega
    refine (progress.loop tailLoop Nat.one_pos room (Nat.le_refl _) whole (by omega)).bind
      fun t ended => ?_
    rcases t with ⟨code, c'⟩
    rcases ended with left | ⟨here, done⟩
    · exact .here left
    · obtain rfl : code = _ := here
      exact .j done.three
  · have done : i = k.n.toNat := Nat.le_antisymm within (Nat.not_lt.mp (mt order.mpr none))
    exact (done ▸ progress).three

/-- From `1:` on -/
theorem Progress.one {turns : Nat} (within : i + (turns + 1) * x.szreg ≤ k.n.toNat)
    (bound : hi = k.target + BitVec.ofNat _ (i + (turns + 1) * x.szreg))
    (progress : Progress e k lo hi i c) :
    Leads (machine e base) ⟨(uaccess x e.rvPum).after (.clear .one), c⟩ fun t =>
      t.code = [] ∧ Cleared e k t.core := by
  refine (progress.loop (wordLoop bound) x.szreg_pos room within rfl
    (Nat.succ_pos turns)).bind fun t ended => ?_
  rcases t with ⟨code, c'⟩
  rcases ended with left | ⟨here, done⟩
  · exact .here left
  · obtain rfl : code = _ := here
    exact .label (done.two room within)

end Room

/-- What the entry leads to -/
theorem leads_entry {Q : Asm.State Label x.bits → Prop}
    (two : roundDown (k.target + k.n) ≤ roundUp k.target → ∀ c,
      Progress e k (roundUp k.target) (roundDown (k.target + k.n)) 0 c →
      Leads (machine e base) ⟨(uaccess x e.rvPum).after (.clear .two), c⟩ Q)
    (four : roundUp k.target < roundDown (k.target + k.n) → k.target < roundUp k.target → ∀ c,
      Progress e k (roundUp k.target) (roundDown (k.target + k.n)) 0 c →
      Leads (machine e base) ⟨(uaccess x e.rvPum).after (.clear .four), c⟩ Q)
    (one : roundUp k.target < roundDown (k.target + k.n) → ¬k.target < roundUp k.target → ∀ c,
      Progress e k (roundUp k.target) (roundDown (k.target + k.n)) 0 c →
      Leads (machine e base) ⟨(uaccess x e.rvPum).after (.clear .one), c⟩ Q) :
    Leads (machine e base) ⟨(uaccess x e.rvPum).after .clearUser, k.start⟩ Q := by
  rw [after_clearUser]
  refine leads_enable fun c t6 keeps mem log => ?_
  have a0 : c.get .a0 = k.target := keeps .a0 (by decide)
  have a1 : c.get .a1 = k.n := keeps .a1 (by decide)
  refine .op (k.target + k.n) (by rw [a0, a1]; rfl) ?_
  refine .opi (k.target + szregMask) (by rw [Core.get_set_of_ne _ _ (by decide), a0]; rfl) ?_
  refine .opi (roundDown (k.target + k.n)) rfl (.opi (roundUp k.target) rfl ?_)
  have progress : Progress e k (roundUp k.target) (roundDown (k.target + k.n)) 0
      ((((c.set .a3 (k.target + k.n)).set .t0 (k.target + szregMask)).set .t1
        (roundDown (k.target + k.n))).set .t0 (roundUp k.target)) := by
    refine ⟨?_, rfl, rfl, rfl, t6, mem, ?_, ?_⟩
    · exact a0.trans (BitVec.add_zero _).symm
    · exact congrArg storedBytes log
    · intro a len member
      have none : Access.fault a len ∈ k.start.log := log ▸ member
      exact absurd none List.not_mem_nil
  refine .branch _ _ progress.t0 progress.t1 (fun less => two less _ progress) fun more => ?_
  have whole := BitVec.not_le.mp more
  refine .branch k.target _ a0 progress.t0 (fun unaligned => four whole unaligned _ progress)
    fun aligned => .label (one whole aligned _ progress)

/-- Rounding up stays inside the address space. -/
theorem clears_of_inside (base : Word x) (room : k.target.toNat + k.n.toNat < 2 ^ x.bits)
    (inside : k.target.toNat + x.szreg ≤ 2 ^ x.bits) : Clears e base k := by
  refine leads_entry (fun _ c progress => progress.two room (Nat.zero_le _)) ?_ ?_
  · intro whole unaligned c progress
    obtain ⟨h, turns, within, low, high, -⟩ := exists_words room inside whole
    have some_bytes : 0 < h := by
      refine Nat.pos_of_ne_zero fun none => ?_
      rw [low, none] at unaligned
      exact BitVec.lt_irrefl _ ((BitVec.add_zero _).symm ▸ unaligned)
    have bytes : h = 0 + h * 1 := by omega
    refine (progress.loop (headLoop low) Nat.one_pos room (by omega) bytes some_bytes).bind
      fun t ended => ?_
    rcases t with ⟨code, c'⟩
    rcases ended with left | ⟨here, done⟩
    · exact .here left
    · obtain rfl : code = _ := here
      exact .j (done.one room within high)
  · intro whole aligned c progress
    obtain ⟨h, turns, within, low, high, -⟩ := exists_words room inside whole
    have none : h = 0 := by
      refine Nat.eq_zero_of_not_pos fun some_bytes => aligned ?_
      have order := add_ofNat_lt_iff (i := 0) (j := h) room (Nat.zero_le _) (by omega)
      rw [BitVec.add_zero] at order
      rw [low]
      exact order.mpr some_bytes
    subst none
    exact progress.one room within high

/-- When rounding up leaves the address space, the code goes to the words, with none to clear. -/
theorem leads_one {Q : Asm.State Label x.bits → Prop}
    (room : k.target.toNat + k.n.toNat < 2 ^ x.bits)
    (beyond : 2 ^ x.bits < k.target.toNat + x.szreg)
    (one : ∀ lo hi c, Progress e k lo hi 0 c →
      Leads (machine e base) ⟨(uaccess x e.rvPum).after (.clear .one), c⟩ Q) :
    Leads (machine e base) ⟨(uaccess x e.rvPum).after .clearUser, k.start⟩ Q := by
  obtain ⟨whole, aligned⟩ := roundUp_of_beyond room beyond
  exact leads_entry (fun none => absurd none whole) (fun _ less => absurd less aligned)
    fun _ _ => one _ _

/-! ## Where it goes wrong -/

/-- When the end is no address, nothing is cleared. -/
theorem not_clears_of_wraps (wraps : k.target.toNat + k.n.toNat = 2 ^ x.bits) :
    ¬Clears e base k := by
  intro clears
  have some_bytes : 0 < k.n.toNat := by
    have address := k.target.isLt
    omega
  have stops : Leads (machine e base) ⟨(uaccess x e.rvPum).after .clearUser, k.start⟩ fun t =>
      t.code = [] ∧ t.core.get .a0 = 0 ∧ storedBytes t.core.log = [] := by
    refine leads_entry (fun _ c progress => ?_) (fun less => ?_) fun less => ?_
    · rw [after_two]
      refine .branch k.target 0 ?_ ?_ (fun less => absurd less BitVec.not_lt_zero) fun _ => ?_
      · exact progress.a0.trans (BitVec.add_zero _)
      · exact progress.a3.trans (add_eq_zero_of_wraps wraps)
      · exact .label (leads_three progress.t6 fun s _ => ⟨rfl, rfl, progress.stores⟩)
    all_goals
      rw [roundDown_of_wraps wraps] at less
      exact absurd less BitVec.not_lt_zero
  rcases stops with ⟨t, run, ended, zero, nothing⟩
  have cleared := clears.of_run run ended
  have none : (t.core.get .a0).toNat = 0 := (congrArg BitVec.toNat zero).trans BitVec.toNat_zero
  have length := congrArg List.length (nothing.symm.trans cleared.stores)
  rw [length_placed, List.length_replicate, none, List.length_nil] at length
  omega

/-- When rounding up leaves the address space, the first store is of a word. If it does not fault,
it is more than there is to clear. -/
theorem of_clears_of_beyond (room : k.target.toNat + k.n.toNat < 2 ^ x.bits)
    (beyond : 2 ^ x.bits < k.target.toNat + x.szreg) (clears : Clears e base k) :
    0 < k.n.toNat ∧ touches e.storeFault k.target x.szreg = true := by
  have first : Leads (machine e base) ⟨(uaccess x e.rvPum).after .clearUser, k.start⟩ fun t =>
      if touches e.storeFault k.target x.szreg then .fault k.target x.szreg ∈ t.core.log
      else storedBytes t.core.log = placed k.target (List.replicate x.szreg 0) := by
    refine leads_one room beyond fun lo hi c progress => ?_
    have addr : c.get .a0 + 0 = k.target := by
      rw [progress.a0]
      exact (BitVec.add_zero _).trans (BitVec.add_zero _)
    rw [after_one, after_six]
    refine .label ?_
    cases faults : touches e.storeFault k.target x.szreg with
    | true =>
      refine leads_store_fault (by decide) (after_six e.rvPum) _ addr faults (.here ?_)
      exact List.mem_append_right _ List.mem_cons_self
    | false =>
      refine .store _ addr (List.replicate x.szreg 0) (toBytes_zero _) faults (.here ?_)
      show storedBytes (c.log ++ [.store k.target (List.replicate x.szreg 0)]) = _
      rw [storedBytes_store, progress.stores]
      rfl
  obtain ⟨t, u, reached, cleared, grows⟩ := first.log_grows clears
  cases faults : touches e.storeFault k.target x.szreg with
  | true =>
    rw [faults, if_pos rfl] at reached
    refine ⟨Nat.pos_of_ne_zero fun none => ?_, rfl⟩
    have zero : u.core.get .a0 = 0 := by
      refine BitVec.eq_of_toNat_eq (Eq.trans ?_ BitVec.toNat_zero.symm)
      have le := cleared.le
      omega
    exact cleared.fault.mp zero _ _ (grows.subset reached)
  | false =>
    rw [faults, if_neg Bool.false_ne_true] at reached
    have most := (storedBytes_grows grows).length_le
    rw [reached, cleared.stores, length_placed, length_placed, List.length_replicate,
      List.length_replicate] at most
    omega

/-- `__clear_user` returns what is right exactly when the end is an address and, unless rounding up
stays inside the address space, there is something to clear and the first word faults. -/
theorem clears_iff (e : Env x) (base : Word x) (k : Call x) (fits : k.Fits) :
    Clears e base k ↔ k.target.toNat + k.n.toNat < 2 ^ x.bits ∧
      (2 ^ x.bits < k.target.toNat + x.szreg →
        0 < k.n.toNat ∧ touches e.storeFault k.target x.szreg = true) := by
  constructor
  · intro clears
    have room : k.target.toNat + k.n.toNat < 2 ^ x.bits :=
      Nat.lt_of_le_of_ne fits fun wraps => not_clears_of_wraps wraps clears
    exact ⟨room, fun beyond => of_clears_of_beyond room beyond clears⟩
  · intro given
    rcases given with ⟨room, rounds⟩
    rcases Nat.lt_or_ge (2 ^ x.bits) (k.target.toNat + x.szreg) with beyond | inside
    · obtain ⟨some_bytes, faults⟩ := rounds beyond
      refine leads_one room beyond fun lo hi c progress => ?_
      have addr : c.get .a0 + 0 = k.target := by
        rw [progress.a0]
        exact (BitVec.add_zero _).trans (BitVec.add_zero _)
      rw [after_one, after_six]
      exact .label (leads_store_fault (by decide) (after_six e.rvPum) _ addr faults
        (progress.ten some_bytes _ _))
    · exact clears_of_inside base room inside

/-- Two of the last four bytes, none of which faults -/
def top : Call .rv64 := ⟨0xfffffffffffffffc, 2, ⟨fun _ => 0, 0, fun _ => 7, []⟩⟩

/-- A machine on which nothing faults -/
def mapped : Env .rv64 := ⟨true, fun _ => false, fun _ => false⟩

/-- Twenty bytes that are not aligned -/
def middle : Call .rv64 := ⟨0x2004, 20, ⟨fun _ => 0, 0, fun _ => 7, []⟩⟩

/-- A machine on which stores fault from an address on -/
def partly : Env .rv64 := ⟨true, fun _ => false, fun a => decide (0x2010 ≤ a)⟩

theorem clears_iff_middle : Clears partly 0 middle ∧ ¬Clears mapped 0 top := by
  constructor
  · exact (clears_iff partly 0 middle (by decide)).mpr
      ⟨by decide, fun beyond => absurd beyond (by decide)⟩
  · intro clears
    obtain ⟨-, faults⟩ := ((clears_iff mapped 0 top (by decide)).mp clears).2 (by decide)
    exact absurd (faults.symm.trans (touches_none _ _)) Bool.noConfusion

theorem not_clears_top : top.Fits ∧ ¬Clears mapped 0 top := by
  refine ⟨by decide, fun clears => ?_⟩
  have faults := (of_clears_of_beyond (by decide) (by decide) clears).2
  exact absurd (faults.symm.trans (touches_none _ _)) Bool.noConfusion

/-- `clear_user`, under an address limit that leaves the last word out -/
theorem clears_of_accessOk {fs : Word x} (base : Word x) (limit : fs.toNat + x.szreg ≤ 2 ^ x.bits)
    (ok : accessOk fs k.target k.n = true) : Clears e base k := by
  simp only [accessOk, Bool.and_eq_true, decide_eq_true_eq, BitVec.le_def] at ok
  rcases ok with ⟨size, address⟩
  have positive := x.szreg_pos
  rw [BitVec.toNat_sub_of_le (BitVec.le_def.mpr size)] at address
  exact clears_of_inside base (by omega) (by omega)

end RiscvLinux.Uaccess.Assembly.ClearUser
