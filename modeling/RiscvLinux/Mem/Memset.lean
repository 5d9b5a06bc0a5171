import RiscvLinux.Mem.Word

/-!
# `memset`

`arch/riscv/lib/memset.S`, instruction by instruction.
-/

namespace RiscvLinux.Mem.Memset

open Lib Lib.Asm Trap Uaccess

variable {x : XLen}

/-! ## The text -/

/-- The labels of `memset.S` -/
inductive Label
  | one | two | three | four | five | six
  deriving DecidableEq, Repr

/-- `#ifdef CONFIG_64BIT` -/
def if64 (is : List (Insn Label x.bits)) : List (Insn Label x.bits) :=
  match x with
  | .rv32 => []
  | .rv64 => is

/-- `REG_S a1, i*SZREG(t0)` -/
def regS (i : Nat) : Insn Label x.bits := .store x.szreg .a1 (szreg x i) .t0

/-- From the entry to the first label -/
def entry (x : XLen) : List (Insn Label x.bits) := [
  .move .t0 .a0,
  .opi .sltu .a3 .a2 16,
  .bnez .a3 .four,
  .opi .add .a3 .t0 szregMask,
  .opi .and .a3 .a3 (~~~szregMask),
  .branch .eq .a3 .t0 .two,
  .op .sub .a4 .a3 .t0]

/-- `1:` handles initial misalignment. -/
def head (x : XLen) : List (Insn Label x.bits) := [
  .store 1 .a1 0 .t0,
  .opi .add .t0 .t0 1,
  .branch .ltu .t0 .a3 .one,
  .op .sub .a2 .a2 .a4]

/-- `2:` broadcasts the value into all bytes. -/
def broadcast (x : XLen) : List (Insn Label x.bits) := [
  .opi .and .a1 .a1 0xff,
  .opi .sll .a3 .a1 8,
  .op .or .a1 .a3 .a1,
  .opi .sll .a3 .a1 16,
  .op .or .a1 .a3 .a1] ++
  if64 [
  .opi .sll .a3 .a1 32,
  .op .or .a1 .a3 .a1]

/-- The end address, and the jump into the loop body -/
def duff (x : XLen) : List (Insn Label x.bits) := [
  .opi .and .a4 .a2 (~~~szregMask),
  .op .add .a3 .t0 .a4,
  .opi .and .a4 .a4 (szreg x 31),
  .beqz .a4 .three,
  .neg .a4 .a4,
  .opi .add .a4 .a4 (szreg x 32),
  .op .sub .t0 .t0 .a4,
  .la .a5 .three] ++
  if64 [
  .opi .srl .a4 .a4 1] ++ [
  .op .add .a5 .a5 .a4,
  .jr .a5]

/-- `3:` after its 32 stores -/
def back (x : XLen) : List (Insn Label x.bits) := [
  .opi .add .t0 .t0 (szreg x 32),
  .branch .ltu .t0 .a3 .three,
  .opi .and .a2 .a2 szregMask]

/-- `4:` handles trailing misalignment. -/
def trailing (x : XLen) : List (Insn Label x.bits) := [
  .beqz .a2 .six,
  .op .add .a3 .t0 .a2]

/-- `5:` -/
def tail (x : XLen) : List (Insn Label x.bits) := [
  .store 1 .a1 0 .t0,
  .opi .add .t0 .t0 1,
  .branch .ltu .t0 .a3 .five]

/-- `memset` -/
def memset (x : XLen) : Text Label x.bits :=
  insns (entry x) ++ .label .one :: (insns (head x) ++ .label .two :: (insns (broadcast x ++ duff x)
    ++ .label .three :: (insns ((List.range 32).map regS) ++ (insns (back x) ++ .label .four ::
    (insns (trailing x) ++ .label .five :: (insns (tail x) ++ .label .six :: insns [.ret]))))))

/-- Kernel memory, in which nothing faults -/
def machine (base : Word x) : Machine Label x.bits :=
  ⟨memset x, base, fun _ => false, fun _ => false, fun _ => none⟩

/-- A call, and the hart before it -/
structure Call (x : XLen) where
  s : Word x
  c : Word x
  n : Word x
  before : Core x.bits

/-- `memset(s, c, n)` at its entry -/
def Call.start (k : Call x) : Core x.bits :=
  { ((k.before.set .a0 k.s).set .a1 k.c).set .a2 k.n with log := [] }

/-- `c` mod 256 -/
def Call.byte (k : Call x) : UInt8 := UInt8.ofNat k.c.toNat

/-- The access stores bytes of the range. -/
def Call.Within (k : Call x) : Access x.bits → Prop
  | .store a bs => (a - k.s).toNat + bs.length ≤ k.n.toNat
  | _ => False

/-- The first `i` bytes have been set, and nothing was stored outside the range. -/
structure Filled (k : Call x) (i : Nat) (c : Core x.bits) : Prop where
  a0 : c.get .a0 = k.s
  mem : c.mem = k.before.mem.write k.s (List.replicate i k.byte)
  log : ∀ a ∈ c.log, k.Within a

/-- `memset` comes to its end with `i` bytes set. -/
def Call.Stops (k : Call x) (base : Word x) (i : Nat) (s : Asm.State Label x.bits) : Prop :=
  Leads (machine base) s fun t => t.code = [] ∧ Filled k i t.core

/-- `memset` comes to its end with all bytes set. -/
def Call.Ends (k : Call x) (base : Word x) (s : Asm.State Label x.bits) : Prop :=
  k.Stops base k.n.toNat s

variable {k : Call x} {base : Word x} {c : Core x.bits} {i len stop : Nat}

/-- One store more. -/
theorem Filled.stored (filled : Filled k i c) (some_bytes : 0 < len)
    (within : i + len ≤ k.n.toNat) :
    Filled k (i + len) (c.stored (k.s + BitVec.ofNat _ i) (List.replicate len k.byte)) := by
  rcases filled with ⟨a0, mem, log⟩
  have size := k.n.isLt
  refine ⟨a0, ?_, ?_⟩
  · have written := @Memory.write_write _ k.before.mem k.s (List.replicate i k.byte)
      (List.replicate len k.byte) (by simp only [List.length_replicate]; omega)
    rw [List.length_replicate, List.replicate_append_replicate] at written
    rw [Core.mem_stored, mem, written]
  · intro a member
    rw [Core.log_stored, List.mem_append, List.mem_singleton] at member
    rcases member with before | rfl
    · exact log a before
    · rw [Call.Within, toNat_add_ofNat_sub (by omega), List.length_replicate]
      exact within

theorem Filled.set (filled : Filled k i c) {r : Reg} (differ : .a0 ≠ r) (v : Word x) :
    Filled k i (c.set r v) :=
  ⟨(c.get_set_of_ne v differ).trans filled.a0, filled.mem, filled.log⟩

/-- Where a loop is that stores byte by byte up to `stop` -/
structure Bytes (k : Call x) (before : Core x.bits) (stop i : Nat) (c : Core x.bits) : Prop where
  filled : Filled k i c
  t0 : c.get .t0 = k.s + BitVec.ofNat _ i
  a3 : c.get .a3 = k.s + BitVec.ofNat _ stop
  a1 : toBytes 1 (c.get .a1) = [k.byte]
  keeps : before.Keeps c [.t0]

/-- Where a loop at a label is before its turn for the byte `i`. After the last it goes on with what
follows. -/
def ByteLoop (k : Call x) (before : Core x.bits) (l : Label) (rest : Text Label x.bits)
    (stop i : Nat) (s : Asm.State Label x.bits) : Prop :=
  s.code = (if i < stop then (memset x).after l else rest) ∧ Bytes k before stop i s.core

section Turns

variable {l : Label} {rest : Text Label x.bits} {before : Core x.bits}
  (code : (memset x).after l = .insn (.store 1 .a1 0 .t0) :: .insn (.opi .add .t0 .t0 1) ::
    .insn (.branch .ltu .t0 .a3 l) :: rest)
include code

/-- A turn of the loops at `1:` and `5:`, up to its branch -/
theorem Bytes.turn (short : i < k.n.toNat) (bytes : Bytes k before stop i c)
    {Q : Asm.State Label x.bits → Prop}
    (leads : ∀ c', Bytes k before stop (i + 1) c' →
      Leads (machine base) ⟨.insn (.branch .ltu .t0 .a3 l) :: rest, c'⟩ Q) :
    Leads (machine base) ⟨(memset x).after l, c⟩ Q := by
  rcases bytes with ⟨filled, t0, a3, a1, keeps⟩
  rw [code]
  refine .store (k.s + BitVec.ofNat _ i) ((BitVec.add_zero _).trans t0) [k.byte] a1
    (touches_none _ _) ?_
  refine .opi (k.s + BitVec.ofNat _ (i + 1)) ?_ (leads _ ⟨?_, rfl, a3, a1, ?_⟩)
  · rw [Core.get_stored, ← add_ofNat_succ]
    exact congrArg (· + 1) t0
  · exact (filled.stored Nat.one_pos short).set (by decide) _
  · intro q unchanged
    rw [Core.get_set_of_ne _ _ (List.ne_of_not_mem_cons unchanged), Core.get_stored]
    exact keeps q unchanged

theorem ByteLoop.turn (room : k.s.toNat + stop < 2 ^ x.bits) (within : stop ≤ k.n.toNat)
    (short : i < stop) {s : Asm.State Label x.bits}
    (loop : ByteLoop k before l rest stop i s) :
    Leads (machine base) s (ByteLoop k before l rest stop (i + 1)) := by
  rcases s with ⟨code', c'⟩
  rcases loop with ⟨here, bytes⟩
  rw [if_pos short] at here
  obtain rfl : code' = _ := here
  refine bytes.turn code (by omega) fun c' after => ?_
  have order := add_ofNat_lt_iff (i := i + 1) (j := stop) room short (Nat.le_refl stop)
  refine .branch _ _ after.t0 after.a3 (fun less => .here ⟨?_, after⟩) fun more =>
    .here ⟨?_, after⟩
  · rw [if_pos (order.mp less)]
    rfl
  · rw [if_neg (mt order.mpr more)]

/-- A loop that stores byte by byte -/
theorem Bytes.loop (room : k.s.toNat + stop < 2 ^ x.bits) (within : stop ≤ k.n.toNat)
    (short : i < stop) (bytes : Bytes k before stop i c) :
    Leads (machine base) ⟨(memset x).after l, c⟩ fun t =>
      t.code = rest ∧ Bytes k before stop stop t.core := by
  refine (Leads.upto (Nat.le_of_lt short) (fun j _ below s => ByteLoop.turn code room within below)
    ⟨(if_pos short).symm, bytes⟩).mono fun t loop => ?_
  exact ⟨loop.1.trans (if_neg (Nat.lt_irrefl stop)), loop.2⟩

end Turns

/-! ## The last bytes -/

theorem after_four : (memset x).after .four = insns (trailing x) ++ .label .five ::
    (insns (tail x) ++ .label .six :: insns [.ret]) := by
  simp only [memset, Text.after_insns, Text.after_label, reduceCtorEq, reduceIte]

theorem after_five : (memset x).after .five = insns (tail x) ++ .label .six :: insns [.ret] := by
  simp only [memset, Text.after_insns, Text.after_label, reduceCtorEq, reduceIte]

theorem after_six : (memset x).after .six = insns [.ret] := by
  simp only [memset, Text.after_insns, Text.after_label, reduceCtorEq, reduceIte]

/-- Before `4:`, where `i` bytes have been set -/
structure Rest (k : Call x) (i : Nat) (c : Core x.bits) : Prop where
  filled : Filled k i c
  t0 : c.get .t0 = k.s + BitVec.ofNat _ i
  a1 : toBytes 1 (c.get .a1) = [k.byte]
  a2 : c.get .a2 = BitVec.ofNat _ (k.n.toNat - i)

theorem Rest.set_a3 (rest : Rest k i c) (v : Word x) : Rest k i (c.set .a3 v) :=
  ⟨rest.filled.set (by decide) v, rest.t0, rest.a1, rest.a2⟩

theorem Rest.set_a4 (rest : Rest k i c) (v : Word x) : Rest k i (c.set .a4 v) :=
  ⟨rest.filled.set (by decide) v, rest.t0, rest.a1, rest.a2⟩

/-- With nothing left there is nothing more to store. -/
theorem Filled.stops (filled : Filled k i c) (none : c.get .a2 = 0) :
    k.Stops base i ⟨(memset x).after .four, c⟩ := by
  rw [Call.Stops, after_four]
  refine .branch 0 0 none c.get_zero (fun _ => ?_) fun some => absurd rfl some
  rw [machine, after_six]
  exact .ret (.here ⟨rfl, filled⟩)

/-- With something left the code goes on at `5:`. -/
theorem Rest.leads_five (short : i < k.n.toNat) (rest : Rest k i c)
    {Q : Asm.State Label x.bits → Prop}
    (leads : ∀ c', Bytes k c' k.n.toNat i c' →
      Leads (machine base) ⟨(memset x).after .five, c'⟩ Q) :
    Leads (machine base) ⟨(memset x).after .four, c⟩ Q := by
  have size := k.n.isLt
  rw [after_four]
  refine .branch _ 0 rest.a2 c.get_zero (fun none => ?_) fun _ => ?_
  · have zero := ofNat_eq_zero (by omega) none
    omega
  · refine .op (k.s + BitVec.ofNat _ k.n.toNat) ?_ (.label ?_)
    · rw [rest.t0, rest.a2]
      exact (add_ofNat_add ..).trans (by rw [Nat.add_sub_cancel' (Nat.le_of_lt short)])
    rw [← after_five]
    exact leads _ ⟨rest.filled.set (by decide) _, rest.t0, rfl, rest.a1, fun _ _ => rfl⟩

theorem Rest.ends (room : k.s.toNat + k.n.toNat < 2 ^ x.bits) (within : i ≤ k.n.toNat)
    (rest : Rest k i c) : k.Ends base ⟨(memset x).after .four, c⟩ := by
  rcases Nat.eq_or_lt_of_le within with rfl | short
  · refine rest.filled.stops (rest.a2.trans ?_)
    rw [Nat.sub_self]
    rfl
  · refine rest.leads_five short fun c' bytes => ?_
    refine (bytes.loop after_five room (Nat.le_refl _) short).bind fun t ⟨code, ended⟩ => ?_
    rcases t with ⟨code', c'⟩
    obtain rfl : code' = _ := code
    exact .label (.ret (.here ⟨rfl, ended.filled⟩))

/-- No address is below an end that has wrapped, and one byte is all that is set. -/
theorem Rest.stops_one (wraps : k.s.toNat + k.n.toNat = 2 ^ x.bits) (rest : Rest k 0 c) :
    k.Stops base 1 ⟨(memset x).after .four, c⟩ := by
  have address := k.s.isLt
  refine rest.leads_five (by omega) fun c' bytes => ?_
  refine bytes.turn after_five (by omega) fun c' after => ?_
  have top : c'.get .a3 = 0 := by
    rw [after.a3, BitVec.ofNat_toNat, BitVec.setWidth_eq]
    exact add_eq_zero_of_wraps wraps
  refine .branch _ 0 rfl top (fun less => absurd less BitVec.not_lt_zero) fun _ => ?_
  exact .label (.ret (.here ⟨rfl, after.filled⟩))

/-! ## The words -/

/-- Before a store of the loop at `3:`, the first `j` of which are behind: `h` bytes and `u` words
have been set, of `W`. The pointer may be below the range, but not the store. -/
structure Words (k : Call x) (h W j u : Nat) (c : Core x.bits) : Prop where
  filled : Filled k (h + u * x.szreg) c
  t0 : c.get .t0 + szreg x j = k.s + BitVec.ofNat _ (h + u * x.szreg)
  a3 : c.get .a3 = k.s + BitVec.ofNat _ (h + W * x.szreg)
  a1 : toBytes x.szreg (c.get .a1) = List.replicate x.szreg k.byte
  a2 : c.get .a2 = BitVec.ofNat _ (k.n.toNat - h)

variable {h W j u : Nat}

theorem Words.store (within : h + (u + 1) * x.szreg ≤ k.n.toNat) (words : Words k h W j u c)
    {rest : Text Label x.bits} {Q : Asm.State Label x.bits → Prop}
    (leads : ∀ c', Words k h W (j + 1) (u + 1) c' → Leads (machine base) ⟨rest, c'⟩ Q) :
    Leads (machine base) ⟨.insn (regS j) :: rest, c⟩ Q := by
  rcases words with ⟨filled, t0, a3, a1, a2⟩
  have next : h + u * x.szreg + x.szreg = h + (u + 1) * x.szreg := by
    rw [Nat.succ_mul, Nat.add_assoc]
  refine .store _ t0 _ a1 (touches_none _ _) (leads _ ⟨?_, ?_, a3, a1, a2⟩)
  · have stored := filled.stored x.szreg_pos (by rwa [next])
    rwa [next] at stored
  · rw [Core.get_stored, ← next, ← add_ofNat_add, ← t0, szreg, Nat.succ_mul, ← add_ofNat_add]
    rfl

/-- The stores from the one numbered `j` on -/
theorem Words.stores {left : Nat} (last : j + left = 32)
    (within : h + (u + left) * x.szreg ≤ k.n.toNat) (words : Words k h W j u c)
    {rest : Text Label x.bits} {Q : Asm.State Label x.bits → Prop}
    (leads : ∀ c', Words k h W 32 (u + left) c' → Leads (machine base) ⟨rest, c'⟩ Q) :
    Leads (machine base) ⟨insns (((List.range 32).drop j).map regS) ++ rest, c⟩ Q := by
  induction left generalizing j u c with
  | zero =>
    obtain rfl : j = 32 := last
    exact leads c words
  | succ left ih =>
    have here : (List.range 32).drop j = j :: (List.range 32).drop (j + 1) := by
      rw [List.drop_eq_getElem_cons (by rw [List.length_range]; omega), List.getElem_range]
    rw [here]
    refine words.store ?_ fun c' stored => ih (by omega) ?_ stored ?_
    · exact (Nat.add_le_add_left (Nat.mul_le_mul_right _ (by omega)) h).trans within
    · rwa [Nat.add_right_comm]
    · rwa [Nat.add_right_comm]

theorem after_three : (memset x).after .three = insns ((List.range 32).map regS) ++
    (insns (back x) ++ .label .four :: (memset x).after .four) := by
  simp only [memset, Text.after_insns, Text.after_label, reduceCtorEq, reduceIte]

/-- Where the loop at `3:` goes on after `u` words: if they are all, with the count of what is
left. -/
def WordLoop (k : Call x) (h W u : Nat) (s : Asm.State Label x.bits) : Prop :=
  s.code = (if u < W then (memset x).after .three
    else .insn (.opi .and .a2 .a2 szregMask) :: .label .four :: (memset x).after .four) ∧
  Words k h W 0 u s.core

/-- A turn of the loop at `3:`, or what the jump leaves of it, up to its branch -/
theorem Words.pass {left : Nat} (within : h + (u + left) * x.szreg ≤ k.n.toNat)
    (last : j + left = 32) (words : Words k h W j u c) {Q : Asm.State Label x.bits → Prop}
    (leads : ∀ c', Words k h W 0 (u + left) c' → Leads (machine base)
      ⟨.insn (.branch .ltu .t0 .a3 .three) :: .insn (.opi .and .a2 .a2 szregMask) ::
        .label .four :: (memset x).after .four, c'⟩ Q) :
    Leads (machine base) ⟨insns (((List.range 32).drop j).map regS) ++
      (insns (back x) ++ .label .four :: (memset x).after .four), c⟩ Q := by
  refine words.stores last within fun c' stored => ?_
  rcases stored with ⟨filled, t0, a3, a1, a2⟩
  exact .opi _ t0 (leads _ ⟨filled.set (by decide) _, add_szreg_zero _, a3, a1, a2⟩)

theorem Words.block {left : Nat} (room : k.s.toNat + k.n.toNat < 2 ^ x.bits)
    (within : h + W * x.szreg ≤ k.n.toNat) (last : j + left = 32) (some_left : u + left ≤ W)
    (words : Words k h W j u c) :
    Leads (machine base) ⟨insns (((List.range 32).drop j).map regS) ++
      (insns (back x) ++ .label .four :: (memset x).after .four), c⟩
      (WordLoop k h W (u + left)) := by
  have inside : h + (u + left) * x.szreg ≤ k.n.toNat :=
    (Nat.add_le_add_left (Nat.mul_le_mul_right _ some_left) h).trans within
  have order := add_ofNat_lt_iff room inside within
  refine words.pass inside last fun c' after => ?_
  have t0 : c'.get .t0 = _ := (add_szreg_zero _).symm.trans after.t0
  refine .branch _ _ t0 after.a3 (fun less => .here ⟨?_, after⟩) fun more => .here ⟨?_, after⟩
  · have behind := Nat.lt_of_mul_lt_mul_right (Nat.lt_of_add_lt_add_left (order.mp less))
    exact (if_pos behind).symm
  · have all : ¬u + left < W := fun behind =>
      more (order.mpr (Nat.add_lt_add_left (Nat.mul_lt_mul_of_pos_right behind x.szreg_pos) h))
    exact (if_neg all).symm

theorem WordLoop.ends (room : k.s.toNat + k.n.toNat < 2 ^ x.bits) (inside : h ≤ k.n.toNat)
    (all : W = (k.n.toNat - h) / x.szreg) {blocks : Nat} (whole : W = u + 32 * blocks)
    {s : Asm.State Label x.bits} (loop : WordLoop k h W u s) : k.Ends base s := by
  have size := k.n.isLt
  have split := Nat.div_add_mod' (k.n.toNat - h) x.szreg
  rw [← all] at split
  have within : h + W * x.szreg ≤ k.n.toNat := by omega
  have turn : ∀ q, 0 ≤ q → q < blocks → ∀ t : Asm.State Label x.bits,
      WordLoop k h W (u + 32 * q) t →
        Leads (machine base) t (WordLoop k h W (u + 32 * (q + 1))) := by
    intro q _ below t on
    rcases t with ⟨code, c'⟩
    rcases on with ⟨here, words⟩
    rw [if_pos (by omega), after_three] at here
    obtain rfl : code = _ := here
    rw [Nat.mul_succ, ← Nat.add_assoc]
    exact words.block room within (show 0 + 32 = 32 from rfl) (by omega)
  have turns := Leads.upto (Nat.zero_le blocks) turn loop
  refine turns.bind fun t ended => ?_
  rcases t with ⟨code, c'⟩
  rcases ended with ⟨here, filled, t0, a3, a1, a2⟩
  rw [if_neg (by omega)] at here
  obtain rfl : code = _ := here
  rw [← whole] at filled t0
  have rest := count_and (u := x.szreg) (show k.n.toNat - h < 2 ^ x.bits by omega)
    toNat_and_szregMask
  rw [← all, Nat.sub_sub] at rest
  refine .opi _ ((congrArg (· &&& szregMask) a2).trans rest) (.label ?_)
  refine Rest.ends room within ⟨filled.set (by decide) _, ?_, ?_, rfl⟩
  · rwa [add_szreg_zero] at t0
  · have first : toBytes 1 (c'.get .a1) = (toBytes x.szreg (c'.get .a1)).take 1 := by
      cases x <;> rfl
    rw [a1] at first
    exact first.trans (by cases x <;> rfl)

/-! ## The jump into the loop -/

/-- The value is in the low `m` bytes of `a1`, and nowhere else in it. -/
structure Spread (k : Call x) (h m : Nat) (c : Core x.bits) : Prop where
  filled : Filled k h c
  t0 : c.get .t0 = k.s + BitVec.ofNat _ h
  a2 : c.get .a2 = BitVec.ofNat _ (k.n.toNat - h)
  small : (c.get .a1).toNat < 2 ^ (8 * m)
  bytes : toBytes m (c.get .a1) = List.replicate m k.byte

/-- A shift and an `or` double it. -/
theorem Spread.double {m : Nat} (spread : Spread k h m c) (room : 8 * (m + m) ≤ x.bits)
    {amount : Word x} (shift : amount.toNat % x.bits = 8 * m) {rest : Text Label x.bits}
    {Q : Asm.State Label x.bits → Prop}
    (leads : ∀ c', Spread k h (m + m) c' → Leads (machine base) ⟨rest, c'⟩ Q) :
    Leads (machine base)
      ⟨.insn (.opi .sll .a3 .a1 amount) :: .insn (.op .or .a1 .a3 .a1) :: rest, c⟩ Q := by
  rcases spread with ⟨filled, t0, a2, small, bytes⟩
  obtain ⟨small', bytes'⟩ := toBytes_double room small bytes
  refine .opi (c.get .a1 <<< (8 * m)) ?_ (.op (c.get .a1 <<< (8 * m) ||| c.get .a1) rfl ?_)
  · rw [← shift]
    rfl
  · exact leads _ ⟨(filled.set (by decide) _).set (by decide) _, t0, a2, small', bytes'⟩

/-- The code at `2:` spreads the value all over `a1`. -/
theorem Rest.broadcast (rest : Rest k h c) {code : Text Label x.bits}
    {Q : Asm.State Label x.bits → Prop}
    (leads : ∀ c', Spread k h x.szreg c' → Leads (machine base) ⟨code, c'⟩ Q) :
    Leads (machine base) ⟨insns (broadcast x) ++ code, c⟩ Q := by
  rcases rest with ⟨filled, t0, a1, a2⟩
  have low : (c.get .a1 &&& 0xff).toNat = (c.get .a1).toNat % 2 ^ 8 := by
    cases x <;> exact toNat_and_low (k := 8) (by decide) _
  have spread : Spread k h 1 (c.set .a1 (c.get .a1 &&& 0xff)) := by
    refine ⟨filled.set (by decide) _, t0, a2, ?_, ?_⟩
    · exact low.trans_lt (Nat.mod_lt _ (by decide))
    · have same : (c.get .a1 &&& 0xff).setWidth (8 * 1) = (c.get .a1).setWidth (8 * 1) := by
        refine BitVec.eq_of_toNat_eq ?_
        rw [BitVec.toNat_setWidth, BitVec.toNat_setWidth, low, Nat.mod_mod]
      rw [← toBytes_setWidth (Nat.le_refl _)] at a1
      have byte := toBytes_setWidth (Nat.le_refl (8 * 1)) (c.get .a1 &&& 0xff)
      rw [same] at byte
      exact byte.symm.trans a1
  cases x with
  | rv32 =>
    exact .opi _ rfl (spread.double (by decide) rfl fun c' twice =>
      twice.double (by decide) rfl leads)
  | rv64 =>
    exact .opi _ rfl (spread.double (by decide) rfl fun c' twice =>
      twice.double (by decide) rfl fun c' fourfold => fourfold.double (by decide) rfl leads)

theorem after_two : (memset x).after .two =
    insns (broadcast x) ++ (insns (duff x) ++ .label .three :: (memset x).after .three) := by
  cases x <;> rfl

/-- The number of the first store -/
theorem index_three_lt (base : Word x) :
    (machine base).index ((memset x).after .three) + 32 < (memset x).count := by
  show (memset x).count - ((memset x).after .three).count + 32 < (memset x).count
  cases x <;> decide

/-- What the jump skips -/
theorem skip_three (base : Word x) {j : Nat} (some_skipped : 0 < j) (inside : j ≤ 32) :
    (memset x).skip ((machine base).index ((memset x).after .three) + j) =
      insns (((List.range 32).drop j).map regS) ++
        (insns (back x) ++ .label .four :: (memset x).after .four) := by
  obtain ⟨i, rfl⟩ := Nat.exists_eq_add_one_of_ne_zero (Nat.pos_iff_ne_zero.mp some_skipped)
  have skipped := Text.skip_insns ((List.range 32).map regS)
    (insns (back x) ++ .label .four :: (memset x).after .four) (k := i + 1) (by simpa using inside)
  rw [← List.map_drop] at skipped
  rw [← skipped, Nat.add_comm]
  cases x <;> rfl

/-- The words modulo the length of the loop -/
theorem words_and (fits : W * x.szreg < 2 ^ x.bits) :
    BitVec.ofNat x.bits (W * x.szreg) &&& szreg x 31 = szreg x (W % 32) := by
  refine BitVec.eq_of_toNat_eq ?_
  obtain ⟨n, -, size⟩ := szreg_eq_two_pow x
  have remainder : W % 32 ≤ 32 := Nat.le_of_lt (Nat.mod_lt W (by decide))
  rw [BitVec.toNat_and, toNat_szreg (by decide), toNat_szreg remainder, BitVec.toNat_ofNat,
    Nat.mod_eq_of_lt fits, size, ← Nat.shiftLeft_eq, ← Nat.shiftLeft_eq, ← Nat.shiftLeft_eq,
    ← Nat.shiftLeft_and_distrib]
  exact congrArg (· <<< n) (Nat.and_two_pow_sub_one_eq_mod W 5)

/-- The distance in the code of a distance in words, which is the same on a 32-bit hart -/
theorem leads_distance {j : Nat} (small : j ≤ 32) (a4 : c.get .a4 = szreg x j)
    {code : Text Label x.bits} {Q : Asm.State Label x.bits → Prop}
    (leads : Leads (machine base) ⟨code, c.set .a4 (BitVec.ofNat _ (4 * j))⟩ Q) :
    Leads (machine base) ⟨insns (if64 [.opi .srl .a4 .a4 1]) ++ code, c⟩ Q := by
  cases x with
  | rv32 =>
    have same : c.set .a4 (BitVec.ofNat _ (4 * j)) = c := by
      have value : c.reg .a4 = BitVec.ofNat _ (4 * j) := a4.trans (by rw [szreg, Nat.mul_comm]; rfl)
      unfold Core.set
      congr 1
      funext q
      split
      · next here => rw [here, value]
      · rfl
    rwa [same] at leads
  | rv64 =>
    refine .opi _ ?_ leads
    rw [a4]
    refine BitVec.eq_of_toNat_eq ?_
    rw [Alu.eval, BitVec.toNat_ushiftRight, toNat_szreg small, BitVec.toNat_ofNat]
    show (j * 8) >>> 1 = 4 * j % 2 ^ 64
    omega

theorem Words.set (words : Words k h W j u c) {r : Reg} (other : r ∉ [.a0, .t0, .a3, .a1, .a2])
    (v : Word x) : Words k h W j u (c.set r v) := by
  simp only [List.mem_cons, List.not_mem_nil, or_false, not_or] at other
  rcases other with ⟨not_a0, not_t0, not_a3, not_a1, not_a2⟩
  rcases words with ⟨filled, t0, a3, a1, a2⟩
  refine ⟨filled.set (Ne.symm not_a0) v, ?_, ?_, ?_, ?_⟩
  · rwa [c.get_set_of_ne v (Ne.symm not_t0)]
  · rwa [c.get_set_of_ne v (Ne.symm not_a3)]
  · rwa [c.get_set_of_ne v (Ne.symm not_a1)]
  · rwa [c.get_set_of_ne v (Ne.symm not_a2)]

/-- From the remainder to the jump -/
theorem Words.jump (words : Words k h W 0 0 c) {r : Nat} (a4 : c.get .a4 = szreg x r)
    (some_left : 0 < r) (partial_turn : r < 32) {rest : Text Label x.bits}
    {Q : Asm.State Label x.bits → Prop}
    (leads : ∀ c', Words k h W (32 - r) 0 c' → Leads (machine base)
      ⟨insns (((List.range 32).drop (32 - r)).map regS) ++
        (insns (back x) ++ .label .four :: (memset x).after .four), c'⟩ Q) :
    Leads (machine base) ⟨insns [.neg .a4 .a4, .opi .add .a4 .a4 (szreg x 32),
      .op .sub .t0 .t0 .a4, .la .a5 .three] ++ (insns (if64 [.opi .srl .a4 .a4 1]) ++
      (insns [.op .add .a5 .a5 .a4, .jr .a5] ++ rest)), c⟩ Q := by
  -- The pointer goes back by the words that the jump skips.
  have total : szreg x (32 - r) + szreg x r = szreg x 32 := by
    rw [szreg, szreg, ← BitVec.ofNat_add, ← Nat.add_mul, Nat.sub_add_cancel (by omega), szreg]
  have skipped : 0 - szreg x r + szreg x 32 = szreg x (32 - r) := by
    rw [← total]
    ring
  refine .op (0 - szreg x r) (congrArg (0 - ·) a4) (.opi _ skipped ?_)
  have words' := (words.set (r := .a4) (by decide) (0 - szreg x r)).set (r := .a4) (by decide)
    (szreg x (32 - r))
  have a4' : ((c.set .a4 (0 - szreg x r)).set .a4 (szreg x (32 - r))).get .a4
      = szreg x (32 - r) := rfl
  generalize (c.set .a4 (0 - szreg x r)).set .a4 (szreg x (32 - r)) = c' at words' a4'
  rcases words' with ⟨filled, t0, a3, a1, a2⟩
  rw [add_szreg_zero] at t0
  refine .op (k.s + BitVec.ofNat _ (h + 0 * x.szreg) - szreg x (32 - r)) ?_ ?_
  · rw [t0, a4']
    rfl
  have lowered : Words k h W (32 - r) 0
      (c'.set .t0 (k.s + BitVec.ofNat _ (h + 0 * x.szreg) - szreg x (32 - r))) :=
    ⟨filled.set (by decide) _, BitVec.sub_add_cancel _ _, a3, a1, a2⟩
  refine .la (leads_distance (j := 32 - r) (by omega) ?_ ?_)
  · exact a4'
  have first : (machine base).index ((memset x).after .three) + 32 < (machine base).text.count :=
    index_three_lt base
  refine .op ((machine base).address .three + BitVec.ofNat _ (4 * (32 - r))) rfl ?_
  refine .jr (k := (machine base).index ((memset x).after .three) + (32 - r)) (by omega) ?_ ?_ ?_
  · have length : 4 * (machine base).text.count < 2 ^ x.bits := by
      show 4 * (memset x).count < 2 ^ x.bits
      cases x <;> decide
    omega
  · rw [Nat.mul_add]
    exact add_ofNat_add ..
  · have skips := skip_three base (j := 32 - r) (by omega) (by omega)
    show Leads (machine base) ⟨(memset x).skip _, _⟩ Q
    rw [skips]
    exact leads _ (((lowered.set (by decide) _).set (by decide) _).set (by decide) _)

theorem duff_append (rest : Text Label x.bits) : insns (duff x) ++ rest =
    insns [.opi .and .a4 .a2 (~~~szregMask), .op .add .a3 .t0 .a4, .opi .and .a4 .a4 (szreg x 31),
      .beqz .a4 .three] ++ (insns [.neg .a4 .a4, .opi .add .a4 .a4 (szreg x 32),
      .op .sub .t0 .t0 .a4, .la .a5 .three] ++ (insns (if64 [.opi .srl .a4 .a4 1]) ++
      (insns [.op .add .a5 .a5 .a4, .jr .a5] ++ rest))) := by
  cases x <;> rfl

/-- How many words the first turn of the loop at `3:` stores -/
def firstTurn (W : Nat) : Nat := if W % 32 = 0 then 32 else W % 32

theorem firstTurn_le (W : Nat) : firstTurn W ≤ 32 := by
  unfold firstTurn
  split <;> omega

/-- What the first turn leaves is whole turns. -/
theorem exists_turns {W : Nat} (some_words : 0 < W) : ∃ turns, W = firstTurn W + 32 * turns := by
  unfold firstTurn
  split
  · exact ⟨W / 32 - 1, by omega⟩
  · exact ⟨W / 32, by omega⟩

/-- The first turn is all of them. -/
theorem firstTurn_eq_iff {W : Nat} (some_words : 0 < W) : firstTurn W = W ↔ W ≤ 32 := by
  unfold firstTurn
  split
  · next whole =>
    have least := Nat.le_of_dvd some_words (Nat.dvd_of_mod_eq_zero whole)
    omega
  · omega

/-- Before `3:` the words are counted, and the first turn is cut down to what is left of them. -/
theorem Spread.leads_first (within : h + W * x.szreg ≤ k.n.toNat)
    (all : W = (k.n.toNat - h) / x.szreg) (spread : Spread k h x.szreg c)
    {Q : Asm.State Label x.bits → Prop}
    (leads : ∀ c', Words k h W (32 - firstTurn W) 0 c' → Leads (machine base)
      ⟨insns (((List.range 32).drop (32 - firstTurn W)).map regS) ++
        (insns (back x) ++ .label .four :: (memset x).after .four), c'⟩ Q) :
    Leads (machine base) ⟨insns (duff x) ++ .label .three :: (memset x).after .three, c⟩ Q := by
  rcases spread with ⟨filled, t0, a2, -, bytes⟩
  have size := k.n.isLt
  have positive := x.szreg_pos
  have fits : W * x.szreg < 2 ^ x.bits := by omega
  have small : W % 32 < 32 := Nat.mod_lt W (by decide)
  have count : c.get .a2 &&& ~~~szregMask = BitVec.ofNat _ (W * x.szreg) := by
    rw [a2, count_and_not (show k.n.toNat - h < 2 ^ x.bits by omega) toNat_roundDown, ← all]
  rw [duff_append]
  refine .opi _ count (.op (k.s + BitVec.ofNat _ (h + W * x.szreg)) ?_ ?_)
  · rw [← add_ofNat_add, ← t0]
    rfl
  have start : Words k h W 0 0 ((c.set .a4 (BitVec.ofNat _ (W * x.szreg))).set .a3
      (k.s + BitVec.ofNat _ (h + W * x.szreg))) := by
    refine ⟨?_, ?_, rfl, bytes, a2⟩
    · rw [Nat.zero_mul]
      exact (filled.set (by decide) _).set (by decide) _
    · rw [add_szreg_zero, Nat.zero_mul]
      exact t0
  have start' := start.set (r := .a4) (by decide) (szreg x (W % 32))
  refine .opi (szreg x (W % 32)) (words_and fits) (.branch _ 0 rfl (Core.get_zero _) ?_ ?_)
  · intro none
    have whole : W % 32 = 0 := by
      have fewer : W % 32 * x.szreg ≤ W * x.szreg := Nat.mul_le_mul_right _ (Nat.mod_le ..)
      have zero : W % 32 * x.szreg = 0 := ofNat_eq_zero (Nat.lt_of_le_of_lt fewer fits) none
      exact (Nat.mul_eq_zero.mp zero).resolve_right (Nat.pos_iff_ne_zero.mp positive)
    have first : firstTurn W = 32 := if_pos whole
    rw [first, Nat.sub_self] at leads
    have three : (machine base).text.after .three = _ := after_three
    rw [three]
    exact leads _ start'
  · intro some
    have left : 0 < W % 32 := by
      refine Nat.pos_of_ne_zero fun none => some ?_
      rw [none, szreg, Nat.zero_mul]
      rfl
    have first : firstTurn W = W % 32 := if_neg (Nat.pos_iff_ne_zero.mp left)
    rw [first] at leads
    exact start'.jump rfl left small leads

theorem Spread.ends (room : k.s.toNat + k.n.toNat < 2 ^ x.bits)
    (word : h + x.szreg ≤ k.n.toNat) (spread : Spread k h x.szreg c) :
    k.Ends base ⟨insns (duff x) ++ .label .three :: (memset x).after .three, c⟩ := by
  have positive := x.szreg_pos
  generalize words : (k.n.toNat - h) / x.szreg = W
  have split := Nat.div_add_mod' (k.n.toNat - h) x.szreg
  rw [words] at split
  have some_words : 0 < W := words ▸ Nat.div_pos (by omega) positive
  have within : h + W * x.szreg ≤ k.n.toNat := by omega
  obtain ⟨turns, whole⟩ := exists_turns some_words
  have last := Nat.sub_add_cancel (firstTurn_le W)
  refine spread.leads_first within words.symm fun c' first => ?_
  refine (first.block room within last (by omega)).bind fun t loop => ?_
  rw [Nat.zero_add] at loop
  exact loop.ends room (by omega) words.symm whole

/-- No address is below an end that has wrapped, and the first turn is the only one. -/
theorem Spread.stops_first (wraps : k.s.toNat + k.n.toNat = 2 ^ x.bits) (some_words : 0 < W)
    (whole : h + W * x.szreg = k.n.toNat) (spread : Spread k h x.szreg c) :
    k.Stops base (h + firstTurn W * x.szreg)
      ⟨insns (duff x) ++ .label .three :: (memset x).after .three, c⟩ := by
  have size := k.n.isLt
  have positive := x.szreg_pos
  have words : k.n.toNat - h = W * x.szreg := by omega
  have all : W = (k.n.toNat - h) / x.szreg := by rw [words, Nat.mul_div_cancel W positive]
  obtain ⟨turns, first⟩ := exists_turns some_words
  have less : firstTurn W * x.szreg ≤ W * x.szreg := Nat.mul_le_mul_right _ (by omega)
  have last := Nat.sub_add_cancel (firstTurn_le W)
  refine spread.leads_first (Nat.le_of_eq whole) all fun c' first => ?_
  refine first.pass (by rw [Nat.zero_add]; omega) last fun c' after => ?_
  rw [Nat.zero_add] at after
  rcases after with ⟨filled, -, a3, -, a2⟩
  have top : c'.get .a3 = 0 := by
    rw [a3, whole, BitVec.ofNat_toNat, BitVec.setWidth_eq]
    exact add_eq_zero_of_wraps wraps
  refine .branch _ 0 rfl top (fun less => absurd less BitVec.not_lt_zero) fun _ => ?_
  have none : BitVec.ofNat x.bits (k.n.toNat - h) &&& szregMask = 0 := by
    rw [count_and (by omega) toNat_and_szregMask, ← all, words, Nat.sub_self]
    rfl
  refine .opi 0 ((congrArg (· &&& szregMask) a2).trans none) (.label ?_)
  exact (filled.set (by decide) _).stops rfl

/-! ## The entry -/

theorem toNat_sixteen (x : XLen) : (16 : Word x).toNat = 16 := by
  cases x <;> rfl

/-- The distance up to the next aligned address -/
theorem exists_distance (fits : k.s.toNat + k.n.toNat ≤ 2 ^ x.bits) (long : 16 ≤ k.n.toNat) :
    ∃ h < x.szreg, (k.s + szregMask &&& ~~~szregMask) = k.s + BitVec.ofNat _ h ∧
      x.szreg ∣ k.s.toNat + h := by
  have positive := x.szreg_pos
  have word : x.szreg ≤ 8 := by cases x <;> decide
  have upper : (k.s + szregMask).toNat = k.s.toNat + (x.szreg - 1) := by
    rw [BitVec.toNat_add, toNat_szregMask, Nat.mod_eq_of_lt (by omega)]
  have rounded := toNat_roundDown (k.s + szregMask)
  rw [upper] at rounded
  have remainder := Nat.mod_lt (k.s.toNat + (x.szreg - 1)) positive
  refine ⟨_, ?_, (add_ofNat_sub ?_).symm, ?_⟩
  · omega
  · omega
  · rw [rounded, Nat.add_sub_cancel' (by omega)]
    exact Nat.dvd_sub_mod _

theorem after_one : (memset x).after .one = insns (head x) ++ .label .two ::
    (memset x).after .two := by
  simp only [memset, Text.after_insns, Text.after_label, reduceCtorEq, reduceIte]

theorem memset_eq : memset x = insns (entry x) ++ .label .one :: (memset x).after .one := by
  cases x <;> rfl

/-- From `1:` on, up to the first aligned address -/
theorem Rest.leads_two (room : k.s.toNat + h < 2 ^ x.bits) (some_bytes : 0 < h)
    (inside : h ≤ k.n.toNat) (rest : Rest k 0 c) (a3 : c.get .a3 = k.s + BitVec.ofNat _ h)
    (a4 : c.get .a4 = BitVec.ofNat _ h) {Q : Asm.State Label x.bits → Prop}
    (leads : ∀ c', Rest k h c' → Leads (machine base) ⟨(memset x).after .two, c'⟩ Q) :
    Leads (machine base) ⟨(memset x).after .one, c⟩ Q := by
  rcases rest with ⟨filled, t0, a1, a2⟩
  have bytes : Bytes k c h 0 c := ⟨filled, t0, a3, a1, fun _ _ => rfl⟩
  refine (bytes.loop after_one room inside some_bytes).bind fun t ⟨code, ended⟩ => ?_
  rcases t with ⟨code', c'⟩
  obtain rfl : code' = _ := code
  have count : c'.get .a2 - c'.get .a4 = BitVec.ofNat _ (k.n.toNat - h) := by
    have split : k.n.toNat = k.n.toNat - h + h := by omega
    rw [ended.keeps .a2 (by decide), ended.keeps .a4 (by decide), a2, a4, Nat.sub_zero, split,
      BitVec.ofNat_add, BitVec.add_sub_cancel, Nat.add_sub_cancel]
  refine .op _ count (.label (leads _ ?_))
  exact ⟨ended.filled.set (by decide) _, ended.t0, ended.a1, rfl⟩

/-- What the entry leads to: the bytes of a short range, or the first aligned address. -/
theorem leads_entry (fits : k.s.toNat + k.n.toNat ≤ 2 ^ x.bits) {Q : Asm.State Label x.bits → Prop}
    (four : k.n.toNat < 16 → ∀ c, Rest k 0 c →
      Leads (machine base) ⟨(memset x).after .four, c⟩ Q)
    (two : 16 ≤ k.n.toNat → ∀ h < x.szreg, x.szreg ∣ k.s.toNat + h → ∀ c, Rest k h c →
      Leads (machine base) ⟨(memset x).after .two, c⟩ Q) :
    Leads (machine base) ⟨memset x, k.start⟩ Q := by
  have size := k.n.isLt
  have word : 2 * x.szreg ≤ 16 := by cases x <;> decide
  have byte : toBytes 1 (k.start.get .a1) = [k.byte] := by
    rw [toBytes, List.range_one, List.map_singleton, Nat.pow_zero, Nat.div_one]
    rfl
  have start : Rest k 0 (k.start.set .t0 k.s) := by
    refine ⟨⟨rfl, rfl, fun a member => absurd member List.not_mem_nil⟩, ?_, byte, ?_⟩
    · exact (BitVec.add_zero _).symm
    · rw [Nat.sub_zero, BitVec.ofNat_toNat, BitVec.setWidth_eq]
      rfl
  have less : k.n < 16 ↔ k.n.toNat < 16 := by rw [BitVec.lt_def, toNat_sixteen]
  rw [memset_eq]
  refine .opi k.s (BitVec.add_zero _) ?_
  refine .opi (if k.n < 16 then 1 else 0) rfl (.branch _ 0 rfl (Core.get_zero _) ?_ ?_)
  · intro short
    refine four (Nat.not_le.mp fun long => short ?_) _ (start.set_a3 _)
    exact if_neg (mt less.mp (Nat.not_lt.mpr long))
  · intro not_short
    have long : 16 ≤ k.n.toNat := by
      refine Nat.not_lt.mp fun short => not_short ?_
      rw [if_pos (less.mpr short)]
      exact word_one_ne_zero x
    obtain ⟨h, below, rounded, aligned⟩ := exists_distance fits long
    refine .opi (k.s + szregMask) rfl (.opi (k.s + BitVec.ofNat _ h) rounded ?_)
    have rest := ((start.set_a3 (if k.n < 16 then 1 else 0)).set_a3 (k.s + szregMask)).set_a3
      (k.s + BitVec.ofNat _ h)
    refine .branch (k.s + BitVec.ofNat _ h) k.s rfl rfl (fun same => ?_) fun unaligned => ?_
    · have none : h = 0 := by
        refine ofNat_eq_zero (x := x) (by omega) ?_
        exact (BitVec.add_right_eq_self).mp same
      subst none
      exact two long 0 below aligned _ rest
    · have some_bytes : 0 < h := by
        refine Nat.pos_of_ne_zero fun none => unaligned ?_
        rw [none]
        exact BitVec.add_zero _
      refine .op (BitVec.ofNat _ h) ?_ (.label ?_)
      · show k.s + BitVec.ofNat _ h - k.s = _
        ring
      exact (rest.set_a4 _).leads_two (by omega) some_bytes (by omega) rfl rfl
        fun c' rest' => two long h below aligned c' rest'

/-- Where the end of the range is an address, `memset` sets the `n` bytes from `s` on to `c` modulo
256, and nothing else, and returns `s`. -/
theorem ends_of_room (k : Call x) (base : Word x) (room : k.s.toNat + k.n.toNat < 2 ^ x.bits) :
    k.Ends base ⟨memset x, k.start⟩ := by
  have word : 2 * x.szreg ≤ 16 := by cases x <;> decide
  refine leads_entry (Nat.le_of_lt room) (fun _ c rest => rest.ends room (Nat.zero_le _)) ?_
  intro long h below _ c rest
  rw [after_two]
  exact rest.broadcast fun c' spread => spread.ends room (by omega)

/-- How many bytes `memset` sets where the end of the range is no address -/
def Call.reached (k : Call x) : Nat :=
  if k.n.toNat < 16 then 1
  else k.n.toNat % x.szreg + firstTurn (k.n.toNat / x.szreg) * x.szreg

theorem stops_reached (k : Call x) (base : Word x) (wraps : k.s.toNat + k.n.toNat = 2 ^ x.bits) :
    k.Stops base k.reached ⟨memset x, k.start⟩ := by
  have word : 2 * x.szreg ≤ 16 := by cases x <;> decide
  unfold Call.reached
  refine leads_entry (Nat.le_of_eq wraps) (fun short c rest => ?_)
    fun long h below aligned c rest => ?_
  · rw [if_pos short]
    exact rest.stops_one wraps
  · have remainder := mod_of_wraps wraps below (by omega) aligned
    have split := Nat.mod_add_div' k.n.toNat x.szreg
    have some_words : 0 < k.n.toNat / x.szreg := Nat.div_pos (by omega) x.szreg_pos
    rw [remainder] at split
    rw [if_neg (Nat.not_lt.mpr long), after_two, remainder]
    exact rest.broadcast fun c' spread => spread.stops_first wraps some_words split

theorem Call.reached_eq (k : Call x) (long : 16 ≤ k.n.toNat) :
    0 < k.n.toNat / x.szreg ∧
      k.reached = k.n.toNat % x.szreg + firstTurn (k.n.toNat / x.szreg) * x.szreg := by
  have word : x.szreg ≤ 8 := by cases x <;> decide
  exact ⟨Nat.div_pos (by omega) x.szreg_pos, if_neg (Nat.not_lt.mpr long)⟩

/-- They are never more than there are. -/
theorem Call.reached_le (k : Call x) (some_bytes : 0 < k.n.toNat) : k.reached ≤ k.n.toNat := by
  rcases Nat.lt_or_ge k.n.toNat 16 with short | long
  · exact (if_pos short).trans_le some_bytes
  · obtain ⟨some_words, reached⟩ := k.reached_eq long
    obtain ⟨turns, first⟩ := exists_turns some_words
    have split := Nat.mod_add_div' k.n.toNat x.szreg
    have less : firstTurn (k.n.toNat / x.szreg) * x.szreg ≤ k.n.toNat / x.szreg * x.szreg :=
      Nat.mul_le_mul_right _ (by omega)
    omega

/-- They are all there are for one byte, and for as many words as one turn of the loop stores. -/
theorem Call.reached_eq_iff (k : Call x) : k.reached = k.n.toNat ↔
    k.n.toNat = 1 ∨ 16 ≤ k.n.toNat ∧ k.n.toNat / x.szreg ≤ 32 := by
  rcases Nat.lt_or_ge k.n.toNat 16 with short | long
  · have one : k.reached = 1 := if_pos short
    omega
  · obtain ⟨some_words, reached⟩ := k.reached_eq long
    have split := Nat.mod_add_div' k.n.toNat x.szreg
    have same : k.reached = k.n.toNat ↔ firstTurn (k.n.toNat / x.szreg) = k.n.toNat / x.szreg := by
      refine Iff.trans ?_ (Nat.mul_left_inj (Nat.pos_iff_ne_zero.mp x.szreg_pos))
      omega
    rw [same, firstTurn_eq_iff some_words]
    omega

/-- The first byte that is not set shows it, unless it was right before. -/
theorem not_ends_of_reached (wraps : k.s.toNat + k.n.toNat = 2 ^ x.bits)
    (short : k.reached < k.n.toNat)
    (other : k.before.mem (k.s + BitVec.ofNat _ k.reached) ≠ k.byte) :
    ¬k.Ends base ⟨memset x, k.start⟩ := by
  intro ends
  have size := k.n.isLt
  obtain ⟨t, run, ended, filled⟩ := stops_reached k base wraps
  have all := ends.of_run run ended
  have byte := congrFun (filled.mem.symm.trans all.mem) (k.s + BitVec.ofNat _ k.reached)
  rw [Memory.write, Memory.write, toNat_add_ofNat_sub (by omega),
    List.getD_eq_default _ _ (by simp), List.getD_replicate _ short] at byte
  exact other byte

theorem complement_ne (b : UInt8) : ~~~b ≠ b := by
  intro same
  exact BitVec.ne_not_self (by decide) (congrArg UInt8.toBitVec same).symm

/-- `memset(s, c, n)` is right on every hart. -/
def Sets (base s c n : Word x) : Prop :=
  ∀ before, (Call.mk s c n before).Ends base ⟨memset x, (Call.mk s c n before).start⟩

/-- `memset` sets the `n` bytes from `s` on to `c` modulo 256, and nothing else, and returns `s`,
exactly when the end of the range is an address, or there is one byte, or the words are no more than
one turn of the loop stores. -/
theorem sets_iff (base s c n : Word x) (fits : s.toNat + n.toNat ≤ 2 ^ x.bits) :
    Sets base s c n ↔ s.toNat + n.toNat < 2 ^ x.bits ∨ n.toNat = 1 ∨
      16 ≤ n.toNat ∧ n.toNat / x.szreg ≤ 32 := by
  constructor
  · intro sets
    rcases Nat.lt_or_eq_of_le fits with room | wraps
    · exact .inl room
    · refine .inr (by_contra fun none => ?_)
      have address := s.isLt
      have ends := sets ⟨fun _ => 0, 0, fun _ => ~~~UInt8.ofNat c.toNat, []⟩
      refine not_ends_of_reached wraps (Nat.lt_of_le_of_ne ?_ ?_) ?_ ends
      · exact Call.reached_le _ (show 0 < n.toNat by omega)
      · exact mt (Call.reached_eq_iff _).mp none
      · exact complement_ne _
  · intro given before
    rcases Nat.lt_or_eq_of_le fits with room | wraps
    · exact ends_of_room _ base room
    · have all := (Call.reached_eq_iff (Call.mk s c n before)).mpr
        (given.resolve_left (Nat.not_lt.mpr (Nat.le_of_eq wraps.symm)))
      have stops := stops_reached (Call.mk s c n before) base wraps
      rwa [all] at stops

/-- 300 bytes from an unaligned address on, and the last 8 bytes there are -/
theorem sets_iff_top : @Sets .rv64 0xffffffff80000000 0x1003 0x1a5 300 ∧
    ¬@Sets .rv64 0xffffffff80000000 0xfffffffffffffff8 0 8 :=
  ⟨(sets_iff _ _ _ _ (by decide)).mpr (.inl (by decide)),
    mt (sets_iff _ _ _ _ (by decide)).mp (by decide)⟩

/-- The last 8 bytes, of which the first one only is cleared -/
def top : Call .rv64 := ⟨0xfffffffffffffff8, 0, 8, ⟨fun _ => 0, 0, fun _ => 7, []⟩⟩

theorem not_sets_top : top.s.toNat + top.n.toNat ≤ 2 ^ XLen.rv64.bits ∧
    ¬top.Ends 0xffffffff80000000 ⟨memset .rv64, top.start⟩ :=
  ⟨by decide, not_ends_of_reached (by decide) (by decide) (by decide)⟩

end RiscvLinux.Mem.Memset
