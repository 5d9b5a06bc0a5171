import RiscvLinux.Mem.Word

/-!
# `memcpy`

`arch/riscv/lib/memcpy.S`, instruction by instruction.
-/

namespace RiscvLinux.Mem.Memcpy

open Lib Lib.Asm Trap Uaccess

variable {x : XLen}

/-! ## The text -/

/-- The labels of `memcpy.S` -/
inductive Label
  | one | two | three | four | five | six
  deriving DecidableEq, Repr

/-- `(16*SZREG)-1` -/
def blockMask : Word x := BitVec.ofNat _ (16 * x.szreg - 1)

/-- `REG_L r, i*SZREG(a1)` -/
def regL (p : Nat × Reg) : Insn Label x.bits := .load x.szreg true p.2 (szreg x p.1) .a1

/-- `REG_S r, i*SZREG(t6)` -/
def regS (p : Nat × Reg) : Insn Label x.bits := .store x.szreg p.2 (szreg x p.1) .t6

/-- The words of a block, and the registers they go through -/
def low : List (Nat × Reg) :=
  [(0, .a4), (1, .a5), (2, .a6), (3, .a7), (4, .t0), (5, .t1), (6, .t2), (7, .t3), (8, .t4),
    (9, .t5)]

def high : List (Nat × Reg) :=
  [(10, .a4), (11, .a5), (12, .a6), (13, .a7), (14, .t0), (15, .t1)]

/-- From the entry to the first label -/
def entry (x : XLen) : List (Insn Label x.bits) := [
  .move .t6 .a0,
  .opi .sltu .a3 .a2 128,
  .bnez .a3 .four,
  .opi .and .a3 .t6 szregMask,
  .opi .and .a4 .a1 szregMask,
  .branch .ne .a3 .a4 .four,
  .beqz .a3 .two,
  .opi .and .a3 .a1 (~~~szregMask),
  .opi .add .a3 .a3 (szreg x 1),
  .op .sub .a4 .a3 .a1]

/-- The loops at `1:` and `5:`, byte by byte -/
def bytes (r : Reg) (l : Label) : List (Insn Label x.bits) := [
  .load 1 true r 0 .a1,
  .opi .add .a1 .a1 1,
  .store 1 r 0 .t6,
  .opi .add .t6 .t6 1,
  .branch .ltu .a1 .a3 l]

/-- `2:` -/
def middle (x : XLen) : List (Insn Label x.bits) := [
  .opi .and .a4 .a2 (~~~blockMask),
  .beqz .a4 .four,
  .op .add .a3 .a1 .a4]

/-- `3:` -/
def block (x : XLen) : List (Insn Label x.bits) :=
  low.map regL ++ low.map regS ++ high.map regL ++ [
  .opi .add .a1 .a1 (szreg x 16)] ++ high.map regS ++ [
  .opi .add .t6 .t6 (szreg x 16),
  .branch .ltu .a1 .a3 .three]

/-- `4:` handles trailing misalignment. -/
def trailing (x : XLen) : List (Insn Label x.bits) := [
  .beqz .a2 .six,
  .op .add .a3 .a1 .a2]

/-- `memcpy` -/
def memcpy (x : XLen) : Text Label x.bits :=
  insns (entry x) ++ .label .one :: (insns (bytes .a5 .one ++ [.op .sub .a2 .a2 .a4]) ++
    .label .two :: (insns (middle x) ++ .label .three ::
    (insns (block x ++ [.opi .and .a2 .a2 blockMask]) ++ .label .four :: (insns (trailing x) ++
    .label .five :: (insns (bytes .a4 .five) ++ .label .six :: insns [.ret])))))

/-- Kernel memory, in which nothing faults -/
def machine (base : Word x) : Machine Label x.bits :=
  ⟨memcpy x, base, fun _ => false, fun _ => false, fun _ => none⟩

/-- A call, and the hart before it -/
structure Call (x : XLen) where
  dst : Word x
  src : Word x
  n : Word x
  before : Core x.bits

/-- `memcpy(dst, src, n)` at its entry -/
def Call.start (k : Call x) : Core x.bits :=
  { ((k.before.set .a0 k.dst).set .a1 k.src).set .a2 k.n with log := [] }

/-- The access loads bytes of the source, or stores bytes of the destination. -/
def Call.Within (k : Call x) : Access x.bits → Prop
  | .load a len => (a - k.src).toNat + len ≤ k.n.toNat
  | .store a bs => (a - k.dst).toNat + bs.length ≤ k.n.toNat
  | .fault _ _ => False

/-- The first `i` bytes have been copied, and nothing outside the ranges was touched. -/
structure Copied (k : Call x) (i : Nat) (c : Core x.bits) : Prop where
  a0 : c.get .a0 = k.dst
  mem : c.mem = k.before.mem.write k.dst (k.before.mem.read k.src i)
  log : ∀ a ∈ c.log, k.Within a

/-- `memcpy` comes to its end with `i` bytes copied. -/
def Call.Stops (k : Call x) (base : Word x) (i : Nat) (s : Asm.State Label x.bits) : Prop :=
  Leads (machine base) s fun t => t.code = [] ∧ Copied k i t.core

/-- `memcpy` comes to its end with all bytes copied. -/
def Call.Ends (k : Call x) (base : Word x) (s : Asm.State Label x.bits) : Prop :=
  k.Stops base k.n.toNat s

/-- The ranges do not overlap, and no address of the source wraps. -/
structure Call.Fair (k : Call x) : Prop where
  apart : Apart k.dst k.n.toNat k.src k.n.toNat
  fits : k.src.toNat + k.n.toNat ≤ 2 ^ x.bits

variable {k : Call x} {base : Word x} {c : Core x.bits} {i len stop : Nat}

/-! ## Single accesses -/

theorem Copied.set (copied : Copied k i c) {r : Reg} (differ : .a0 ≠ r) (v : Word x) :
    Copied k i (c.set r v) :=
  ⟨(c.get_set_of_ne v differ).trans copied.a0, copied.mem, copied.log⟩

/-- What has been copied is not what is still to be copied. -/
theorem Copied.read (fair : k.Fair) (copied : Copied k i c) {j : Nat} (done : i ≤ k.n.toNat)
    (within : j + len ≤ k.n.toNat) :
    c.mem.read (k.src + BitVec.ofNat _ j) len
      = k.before.mem.read (k.src + BitVec.ofNat _ j) len := by
  rw [copied.mem]
  exact Memory.read_copied fair.apart done within

/-- One load more. -/
theorem Copied.loaded (copied : Copied k i c) {j : Nat} (some_bytes : 0 < len)
    (within : j + len ≤ k.n.toNat) :
    Copied k i (c.note (.load (k.src + BitVec.ofNat _ j) len)) := by
  rcases copied with ⟨a0, mem, log⟩
  have size := k.n.isLt
  refine ⟨a0, mem, fun a member => ?_⟩
  rw [Core.log_note, List.mem_append, List.mem_singleton] at member
  rcases member with before | rfl
  · exact log a before
  · rw [Call.Within, toNat_add_ofNat_sub (by omega)]
    exact within

/-- One store more. -/
theorem Copied.stored (copied : Copied k i c) (some_bytes : 0 < len)
    (within : i + len ≤ k.n.toNat) {bs : List UInt8}
    (next : bs = k.before.mem.read (k.src + BitVec.ofNat _ i) len) :
    Copied k (i + len) (c.stored (k.dst + BitVec.ofNat _ i) bs) := by
  rcases copied with ⟨a0, mem, log⟩
  have size := k.n.isLt
  have length : bs.length = len := by rw [next, Memory.length_read]
  refine ⟨a0, ?_, fun a member => ?_⟩
  · rw [Core.mem_stored, mem, next]
    exact Memory.copied_next (by omega)
  · rw [Core.log_stored, List.mem_append, List.mem_singleton] at member
    rcases member with before | rfl
    · exact log a before
    · rw [Call.Within, toNat_add_ofNat_sub (by omega), length]
      exact within

/-- The register has the bytes at a distance in the source. -/
def Holds (k : Call x) (len i : Nat) (c : Core x.bits) (r : Reg) : Prop :=
  toBytes len (c.get r) = k.before.mem.read (k.src + BitVec.ofNat _ i) len

theorem Holds.of_load (signed : Bool) (fair : k.Fair) (copied : Copied k i c) {j : Nat} {r : Reg}
    (done : i ≤ k.n.toNat) (within : j + len ≤ k.n.toNat) (short : len ≤ x.szreg)
    (register : r ≠ .zero) :
    Holds k len j ((c.note (.load (k.src + BitVec.ofNat _ j) len)).set r
      (c.value len signed (k.src + BitVec.ofNat _ j))) r := by
  have room : 8 * len ≤ x.bits := by
    rw [x.bits_eq]
    exact Nat.mul_le_mul_left 8 short
  rw [Holds, Core.get_set, if_neg register, if_pos rfl, Core.toBytes_value _ room,
    copied.read fair done within]

/-! ## Byte by byte -/

/-- Where a loop is that copies byte by byte up to `stop` -/
structure Bytes (k : Call x) (before : Core x.bits) (r : Reg) (stop i : Nat) (c : Core x.bits) :
    Prop where
  copied : Copied k i c
  t6 : c.get .t6 = k.dst + BitVec.ofNat _ i
  a1 : c.get .a1 = k.src + BitVec.ofNat _ i
  a3 : c.get .a3 = k.src + BitVec.ofNat _ stop
  keeps : before.Keeps c [.t6, .a1, r]

/-- Where a loop at a label is before its turn for the byte `i`. After the last it goes on with what
follows. -/
def ByteLoop (k : Call x) (before : Core x.bits) (r : Reg) (l : Label) (rest : Text Label x.bits)
    (stop i : Nat) (s : Asm.State Label x.bits) : Prop :=
  s.code = (if i < stop then (memcpy x).after l else rest) ∧ Bytes k before r stop i s.core

section Turns

variable {r : Reg} {l : Label} {rest : Text Label x.bits} {before : Core x.bits}
  (fair : k.Fair) (temporary : r ∉ [.zero, .a0, .a1, .a2, .a3, .t6])
  (code : (memcpy x).after l = insns (bytes r l) ++ rest)
include fair temporary code

/-- A turn of the loops at `1:` and `5:`, up to its branch -/
theorem Bytes.turn (short : i < k.n.toNat) (start : Bytes k before r stop i c)
    {Q : Asm.State Label x.bits → Prop}
    (leads : ∀ c', Bytes k before r stop (i + 1) c' →
      Leads (machine base) ⟨.insn (.branch .ltu .a1 .a3 l) :: rest, c'⟩ Q) :
    Leads (machine base) ⟨(memcpy x).after l, c⟩ Q := by
  rcases start with ⟨copied, t6, a1, a3, keeps⟩
  simp only [List.mem_cons, List.not_mem_nil, or_false, not_or] at temporary
  rcases temporary with ⟨not_zero, not_a0, not_a1, not_a2, not_a3, not_t6⟩
  have holds := Holds.of_load true fair copied (Nat.le_of_lt short)
    (show i + 1 ≤ k.n.toNat by omega) x.szreg_pos not_zero
  have loaded := (copied.loaded Nat.one_pos (show i + 1 ≤ k.n.toNat by omega)).set
    (Ne.symm not_a0) (c.value 1 true (k.src + BitVec.ofNat _ i))
  rw [code]
  refine .load (k.src + BitVec.ofNat _ i) ((BitVec.add_zero _).trans a1) _ rfl (touches_none _ _) ?_
  have others : ∀ q, q ≠ r → ((c.note (.load (k.src + BitVec.ofNat _ i) 1)).set r
      (c.value 1 true (k.src + BitVec.ofNat _ i))).get q = c.get q :=
    fun q other => Core.get_set_of_ne _ _ other
  generalize (c.note (.load (k.src + BitVec.ofNat _ i) 1)).set r
    (c.value 1 true (k.src + BitVec.ofNat _ i)) = c₁ at holds loaded others ⊢
  rw [← others .t6 (Ne.symm not_t6)] at t6
  rw [← others .a1 (Ne.symm not_a1)] at a1
  rw [← others .a3 (Ne.symm not_a3)] at a3
  refine .opi (k.src + BitVec.ofNat _ (i + 1)) ?_ ?_
  · rw [a1]
    exact add_ofNat_succ ..
  refine .store (k.dst + BitVec.ofNat _ i) ((BitVec.add_zero _).trans t6)
    (k.before.mem.read (k.src + BitVec.ofNat _ i) 1) ?_ (touches_none _ _) ?_
  · rw [Core.get_set_of_ne _ _ not_a1]
    exact holds
  refine .opi (k.dst + BitVec.ofNat _ (i + 1)) ?_ (leads _ ⟨?_, rfl, rfl, a3, ?_⟩)
  · exact (congrArg (· + 1) t6).trans (add_ofNat_succ ..)
  · exact ((loaded.set (by decide) _).stored Nat.one_pos (by omega) rfl).set (by decide) _
  · intro q unchanged
    simp only [List.mem_cons, List.not_mem_nil, or_false, not_or] at unchanged
    rcases unchanged with ⟨q_t6, q_a1, q_r⟩
    rw [Core.get_set_of_ne _ _ q_t6, Core.get_stored, Core.get_set_of_ne _ _ q_a1, others q q_r]
    exact keeps q (by simp only [List.mem_cons, List.not_mem_nil, or_false, not_or]; tauto)

theorem ByteLoop.turn (room : k.src.toNat + stop < 2 ^ x.bits) (within : stop ≤ k.n.toNat)
    (short : i < stop) {s : Asm.State Label x.bits}
    (loop : ByteLoop k before r l rest stop i s) :
    Leads (machine base) s (ByteLoop k before r l rest stop (i + 1)) := by
  rcases s with ⟨code', c'⟩
  rcases loop with ⟨here, start⟩
  rw [if_pos short] at here
  obtain rfl : code' = _ := here
  refine start.turn fair temporary code (by omega) fun c' after => ?_
  have order := add_ofNat_lt_iff (i := i + 1) (j := stop) room short (Nat.le_refl stop)
  refine .branch _ _ after.a1 after.a3 (fun less => .here ⟨?_, after⟩) fun more =>
    .here ⟨?_, after⟩
  · rw [if_pos (order.mp less)]
    rfl
  · rw [if_neg (mt order.mpr more)]

/-- A loop that copies byte by byte -/
theorem Bytes.loop (room : k.src.toNat + stop < 2 ^ x.bits) (within : stop ≤ k.n.toNat)
    (short : i < stop) (start : Bytes k before r stop i c) :
    Leads (machine base) ⟨(memcpy x).after l, c⟩ fun t =>
      t.code = rest ∧ Bytes k before r stop stop t.core := by
  refine (Leads.upto (Nat.le_of_lt short)
    (fun j _ below s => ByteLoop.turn fair temporary code room within below)
    ⟨(if_pos short).symm, start⟩).mono fun t loop => ?_
  exact ⟨loop.1.trans (if_neg (Nat.lt_irrefl stop)), loop.2⟩

end Turns

/-! ## The last bytes -/

theorem after_five : (memcpy x).after .five = insns (bytes .a4 .five) ++
    .label .six :: insns [.ret] := by
  simp only [memcpy, Text.after_insns, Text.after_label, reduceCtorEq, reduceIte]

theorem after_six : (memcpy x).after .six = insns [.ret] := by
  simp only [memcpy, Text.after_insns, Text.after_label, reduceCtorEq, reduceIte]

theorem after_four : (memcpy x).after .four = insns (trailing x) ++ .label .five ::
    (memcpy x).after .five := by
  simp only [memcpy, Text.after_insns, Text.after_label, reduceCtorEq, reduceIte]

/-- Before `2:` and `4:`, where `i` bytes have been copied -/
structure Rest (k : Call x) (i : Nat) (c : Core x.bits) : Prop where
  copied : Copied k i c
  t6 : c.get .t6 = k.dst + BitVec.ofNat _ i
  a1 : c.get .a1 = k.src + BitVec.ofNat _ i
  a2 : c.get .a2 = BitVec.ofNat _ (k.n.toNat - i)

theorem Rest.set (rest : Rest k i c) {r : Reg} (other : r ∉ [.a0, .t6, .a1, .a2]) (v : Word x) :
    Rest k i (c.set r v) := by
  simp only [List.mem_cons, List.not_mem_nil, or_false, not_or] at other
  rcases other with ⟨not_a0, not_t6, not_a1, not_a2⟩
  rcases rest with ⟨copied, t6, a1, a2⟩
  refine ⟨copied.set (Ne.symm not_a0) v, ?_, ?_, ?_⟩
  · rwa [c.get_set_of_ne v (Ne.symm not_t6)]
  · rwa [c.get_set_of_ne v (Ne.symm not_a1)]
  · rwa [c.get_set_of_ne v (Ne.symm not_a2)]

/-- With nothing left there is nothing more to copy. -/
theorem Copied.stops (copied : Copied k i c) (none : c.get .a2 = 0) :
    k.Stops base i ⟨(memcpy x).after .four, c⟩ := by
  rw [Call.Stops, after_four]
  refine .branch 0 0 none c.get_zero (fun _ => ?_) fun some => absurd rfl some
  rw [machine, after_six]
  exact .ret (.here ⟨rfl, copied⟩)

/-- With something left the code goes on at `5:`. -/
theorem Rest.leads_five (short : i < k.n.toNat) (rest : Rest k i c)
    {Q : Asm.State Label x.bits → Prop}
    (leads : ∀ c', Bytes k c' .a4 k.n.toNat i c' →
      Leads (machine base) ⟨(memcpy x).after .five, c'⟩ Q) :
    Leads (machine base) ⟨(memcpy x).after .four, c⟩ Q := by
  have size := k.n.isLt
  rw [after_four]
  refine .branch _ 0 rest.a2 c.get_zero (fun none => ?_) fun _ => ?_
  · have zero := ofNat_eq_zero (by omega) none
    omega
  · have rest' := rest.set (r := .a3) (by decide) (k.src + BitVec.ofNat _ k.n.toNat)
    refine .op (k.src + BitVec.ofNat _ k.n.toNat) ?_ (.label (leads _ ?_))
    · rw [rest.a1, rest.a2]
      exact (add_ofNat_add ..).trans (by rw [Nat.add_sub_cancel' (Nat.le_of_lt short)])
    · exact ⟨rest'.copied, rest'.t6, rest'.a1, rfl, fun _ _ => rfl⟩

theorem Rest.ends (fair : k.Fair) (room : k.src.toNat + k.n.toNat < 2 ^ x.bits)
    (within : i ≤ k.n.toNat) (rest : Rest k i c) : k.Ends base ⟨(memcpy x).after .four, c⟩ := by
  rcases Nat.eq_or_lt_of_le within with rfl | short
  · refine rest.copied.stops (rest.a2.trans ?_)
    rw [Nat.sub_self]
    rfl
  · refine rest.leads_five short fun c' start => ?_
    refine (start.loop fair (by decide) after_five room (Nat.le_refl _) short).bind
      fun t ended => ?_
    rcases t with ⟨code', c'⟩
    rcases ended with ⟨code, ended⟩
    obtain rfl : code' = _ := code
    exact .label (.ret (.here ⟨rfl, ended.copied⟩))

/-- No address is below an end that has wrapped, and one byte more is all that is copied. -/
theorem Rest.stops_next (fair : k.Fair) (wraps : k.src.toNat + k.n.toNat = 2 ^ x.bits)
    (short : i < k.n.toNat) (rest : Rest k i c) :
    k.Stops base (i + 1) ⟨(memcpy x).after .four, c⟩ := by
  refine rest.leads_five short fun c' start => ?_
  refine start.turn fair (by decide) after_five short fun c' after => ?_
  have top : c'.get .a3 = 0 := by
    rw [after.a3, BitVec.ofNat_toNat, BitVec.setWidth_eq]
    exact add_eq_zero_of_wraps wraps
  refine .branch _ 0 rfl top (fun less => absurd less BitVec.not_lt_zero) fun _ => ?_
  exact .label (.ret (.here ⟨rfl, after.copied⟩))

/-! ## Words -/

section Words

variable {rest : Text Label x.bits} {Q : Asm.State Label x.bits → Prop}

/-- Loads of words, each into a register of its own -/
theorem Copied.loads {ps : List (Nat × Reg)} {b : Nat} (fair : k.Fair) (done : i ≤ k.n.toNat)
    (within : ∀ p ∈ ps, b + (p.1 + 1) * x.szreg ≤ k.n.toNat)
    (temporary : ∀ p ∈ ps, p.2 ∉ [.zero, .a0, .a1]) (distinct : (ps.map Prod.snd).Nodup)
    (copied : Copied k i c) (a1 : c.get .a1 = k.src + BitVec.ofNat _ b)
    (leads : ∀ c', Copied k i c' → c.Keeps c' (ps.map Prod.snd) →
      (∀ p ∈ ps, Holds k x.szreg (b + p.1 * x.szreg) c' p.2) → Leads (machine base) ⟨rest, c'⟩ Q) :
    Leads (machine base) ⟨insns (ps.map regL) ++ rest, c⟩ Q := by
  induction ps generalizing c with
  | nil => exact leads c copied (fun _ _ => rfl) fun p member => absurd member List.not_mem_nil
  | cons p ps ih =>
    have here := within p List.mem_cons_self
    have register := temporary p List.mem_cons_self
    simp only [List.mem_cons, List.not_mem_nil, or_false, not_or] at register
    rcases register with ⟨not_zero, not_a0, not_a1⟩
    rw [Nat.succ_mul, ← Nat.add_assoc] at here
    rw [List.map_cons, List.nodup_cons] at distinct
    rcases distinct with ⟨fresh, distinct⟩
    have addr : c.get .a1 + szreg x p.1 = k.src + BitVec.ofNat _ (b + p.1 * x.szreg) := by
      rw [a1]
      exact add_ofNat_add ..
    refine .load _ addr _ rfl (touches_none _ _) ?_
    have holds := Holds.of_load true fair copied done here (Nat.le_refl _) not_zero
    have loaded := (copied.loaded x.szreg_pos here).set (Ne.symm not_a0)
      (c.value x.szreg true (k.src + BitVec.ofNat _ (b + p.1 * x.szreg)))
    refine ih (fun q member => within q (List.mem_cons_of_mem p member))
      (fun q member => temporary q (List.mem_cons_of_mem p member)) distinct loaded ?_ ?_
    · rw [Core.get_set_of_ne _ _ (Ne.symm not_a1)]
      exact a1
    · intro c' copied' keeps holds'
      refine leads c' copied' (fun q unchanged => ?_) fun q member => ?_
      · rw [List.map_cons, List.mem_cons, not_or] at unchanged
        rw [keeps q unchanged.2, Core.get_set_of_ne _ _ unchanged.1]
        rfl
      · rcases List.mem_cons.mp member with rfl | later
        · rw [Holds, keeps _ fresh]
          exact holds
        · exact holds' q later

/-- Stores of the next words -/
theorem Copied.stores {ps : List (Nat × Reg)} {b j : Nat}
    (numbers : ps.map Prod.fst = List.range' j ps.length)
    (within : b + (j + ps.length) * x.szreg ≤ k.n.toNat) (copied : Copied k (b + j * x.szreg) c)
    (t6 : c.get .t6 = k.dst + BitVec.ofNat _ b)
    (holds : ∀ p ∈ ps, Holds k x.szreg (b + p.1 * x.szreg) c p.2)
    (leads : ∀ c', Copied k (b + (j + ps.length) * x.szreg) c' → c.Keeps c' [] →
      Leads (machine base) ⟨rest, c'⟩ Q) :
    Leads (machine base) ⟨insns (ps.map regS) ++ rest, c⟩ Q := by
  induction ps generalizing j c with
  | nil => exact leads c copied fun _ _ => rfl
  | cons p ps ih =>
    rw [List.map_cons, List.length_cons, List.range'_succ, List.cons.injEq] at numbers
    rcases numbers with ⟨rfl, numbers⟩
    have here := holds p List.mem_cons_self
    have count : p.1 + 1 + ps.length = p.1 + (p :: ps).length := by
      rw [List.length_cons, Nat.add_assoc, Nat.add_comm 1]
    have next : b + p.1 * x.szreg + x.szreg = b + (p.1 + 1) * x.szreg := by
      rw [Nat.succ_mul, Nat.add_assoc]
    have most : (p.1 + 1) * x.szreg ≤ (p.1 + (p :: ps).length) * x.szreg :=
      Nat.mul_le_mul_right _ (by omega)
    have stored := @Copied.stored _ _ _ _ x.szreg copied x.szreg_pos (by omega) _ rfl
    rw [next] at stored
    refine .store (k.dst + BitVec.ofNat _ (b + p.1 * x.szreg)) ?_ _ here (touches_none _ _) ?_
    · rw [t6]
      exact add_ofNat_add ..
    · refine ih numbers (by rwa [count]) stored t6
        (fun q member => holds q (List.mem_cons_of_mem p member)) ?_
      rw [count]
      exact fun c' copied' keeps => leads c' copied' keeps

end Words

/-! ## Blocks of 16 words -/

/-- Before a turn of the loop at `3:`, where `h` bytes and `u` blocks have been copied, of `B` -/
structure Blocks (k : Call x) (h B u : Nat) (c : Core x.bits) : Prop where
  copied : Copied k (h + u * (16 * x.szreg)) c
  t6 : c.get .t6 = k.dst + BitVec.ofNat _ (h + u * (16 * x.szreg))
  a1 : c.get .a1 = k.src + BitVec.ofNat _ (h + u * (16 * x.szreg))
  a3 : c.get .a3 = k.src + BitVec.ofNat _ (h + B * (16 * x.szreg))
  a2 : c.get .a2 = BitVec.ofNat _ (k.n.toNat - h)

variable {h B u : Nat}

theorem after_three : (memcpy x).after .three = insns (low.map regL) ++ (insns (low.map regS) ++
    (insns (high.map regL) ++ (.insn (.opi .add .a1 .a1 (szreg x 16)) ::
    (insns (high.map regS) ++ (.insn (.opi .add .t6 .t6 (szreg x 16)) ::
    .insn (.branch .ltu .a1 .a3 .three) :: .insn (.opi .and .a2 .a2 blockMask) ::
    .label .four :: (memcpy x).after .four))))) := by
  simp only [memcpy, Text.after_insns, Text.after_label, reduceCtorEq, reduceIte]
  rfl

/-- Where the loop at `3:` goes on after `u` blocks: if they are all, with the count of what is
left. -/
def BlockLoop (k : Call x) (h B u : Nat) (s : Asm.State Label x.bits) : Prop :=
  s.code = (if u < B then (memcpy x).after .three
    else .insn (.opi .and .a2 .a2 blockMask) :: .label .four :: (memcpy x).after .four) ∧
  Blocks k h B u s.core

/-- A turn of the loop at `3:`, up to its branch -/
theorem Blocks.copy (fair : k.Fair) (within : h + (u + 1) * (16 * x.szreg) ≤ k.n.toNat)
    (blocks : Blocks k h B u c) {Q : Asm.State Label x.bits → Prop}
    (leads : ∀ c', Blocks k h B (u + 1) c' → Leads (machine base)
      ⟨.insn (.branch .ltu .a1 .a3 .three) :: .insn (.opi .and .a2 .a2 blockMask) ::
        .label .four :: (memcpy x).after .four, c'⟩ Q) :
    Leads (machine base) ⟨(memcpy x).after .three, c⟩ Q := by
  rcases blocks with ⟨copied, t6, a1, a3, a2⟩
  have next : h + u * (16 * x.szreg) + 16 * x.szreg = h + (u + 1) * (16 * x.szreg) := by
    rw [Nat.succ_mul u, Nat.add_assoc]
  have room := within
  rw [← next] at room
  rw [after_three]
  generalize h + u * (16 * x.szreg) = b at *
  have inside : ∀ j ≤ 16, b + j * x.szreg ≤ k.n.toNat := fun j small =>
    (Nat.add_le_add_left (Nat.mul_le_mul_right _ small) b).trans room
  refine copied.loads fair (b := b) (by omega) ?_ (by decide) (by decide) a1 ?_
  · exact fun p member => inside _ (by revert p; decide)
  intro c₁ copied₁ keeps₁ holds₁
  refine Copied.stores (b := b) (j := 0) rfl (inside 10 (by decide)) ?_ ?_ holds₁ ?_
  · rwa [Nat.zero_mul]
  · rwa [keeps₁ _ (by decide)]
  intro c₂ copied₂ keeps₂
  refine copied₂.loads fair (b := b) (inside 10 (by decide)) ?_ (by decide) (by decide) ?_ ?_
  · exact fun p member => inside _ (by revert p; decide)
  · rwa [keeps₂ _ (by decide), keeps₁ _ (by decide)]
  intro c₃ copied₃ keeps₃ holds₃
  have kept : ∀ q, q ∉ low.map Prod.snd → c₃.get q = c.get q := by
    intro q other
    have again : ∀ q ∈ high.map Prod.snd, q ∈ low.map Prod.snd := by decide
    rw [keeps₃ q (mt (again q) other), keeps₂ q List.not_mem_nil, keeps₁ q other]
  refine .opi (k.src + BitVec.ofNat _ (b + 16 * x.szreg)) ?_ ?_
  · rw [kept _ (by decide), a1]
    exact add_ofNat_add ..
  refine Copied.stores (b := b) (j := 10) rfl (inside 16 (by decide))
    (copied₃.set (by decide) _) ?_ ?_ ?_
  · exact (kept .t6 (by decide)).trans t6
  · intro p member
    have other : ∀ p ∈ high, p.2 ≠ .a1 := by decide
    rw [Holds, Core.get_set_of_ne _ _ (other p member)]
    exact holds₃ p member
  intro c₄ copied₄ keeps₄
  refine .opi (k.dst + BitVec.ofNat _ (b + 16 * x.szreg)) ?_ ?_
  · rw [keeps₄ _ List.not_mem_nil, Core.get_set_of_ne _ _ (by decide), kept _ (by decide), t6]
    exact add_ofNat_add ..
  refine leads _ ⟨?_, ?_, ?_, ?_, ?_⟩
  · rw [← next]
    exact copied₄.set (by decide) _
  · rw [← next]
    rfl
  · rw [← next, Core.get_set_of_ne _ _ (by decide), keeps₄ _ List.not_mem_nil]
    rfl
  · rw [Core.get_set_of_ne _ _ (by decide), keeps₄ _ List.not_mem_nil,
      Core.get_set_of_ne _ _ (by decide), kept _ (by decide), a3]
  · rw [Core.get_set_of_ne _ _ (by decide), keeps₄ _ List.not_mem_nil,
      Core.get_set_of_ne _ _ (by decide), kept _ (by decide), a2]

theorem Blocks.turn (fair : k.Fair) (room : k.src.toNat + (h + B * (16 * x.szreg)) < 2 ^ x.bits)
    (within : h + B * (16 * x.szreg) ≤ k.n.toNat) (more : u < B) (blocks : Blocks k h B u c) :
    Leads (machine base) ⟨(memcpy x).after .three, c⟩ (BlockLoop k h B (u + 1)) := by
  have unit : 0 < 16 * x.szreg := Nat.mul_pos (by decide) x.szreg_pos
  have most : h + (u + 1) * (16 * x.szreg) ≤ h + B * (16 * x.szreg) :=
    Nat.add_le_add_left (Nat.mul_le_mul_right _ more) h
  have order := add_ofNat_lt_iff room most (Nat.le_refl _)
  refine blocks.copy fair (most.trans within) fun c' after => ?_
  refine .branch _ _ after.a1 after.a3 (fun less => .here ⟨?_, after⟩) fun none =>
    .here ⟨?_, after⟩
  · have behind := Nat.lt_of_mul_lt_mul_right (Nat.lt_of_add_lt_add_left (order.mp less))
    exact (if_pos behind).symm
  · have all : ¬u + 1 < B := fun behind =>
      none (order.mpr (Nat.add_lt_add_left (Nat.mul_lt_mul_of_pos_right behind unit) h))
    exact (if_neg all).symm

theorem exists_blockMask (x : XLen) : ∃ k ≤ x.bits, 16 * x.szreg = 2 ^ k := by
  cases x
  · exact ⟨6, by decide, rfl⟩
  · exact ⟨7, by decide, rfl⟩

/-- The count that the code takes for the loop, and what it leaves -/
theorem count_blockMask {n : Nat} (small : n < 2 ^ x.bits) :
    BitVec.ofNat x.bits n &&& ~~~blockMask
        = BitVec.ofNat _ (n / (16 * x.szreg) * (16 * x.szreg)) ∧
      BitVec.ofNat x.bits n &&& blockMask
        = BitVec.ofNat _ (n - n / (16 * x.szreg) * (16 * x.szreg)) := by
  obtain ⟨k, inside, size⟩ := exists_blockMask x
  rw [blockMask, size]
  exact ⟨count_and_not small (toNat_and_not_low inside), count_and small (toNat_and_low inside)⟩

/-- After the last block -/
theorem Blocks.leads_four (all : B = (k.n.toNat - h) / (16 * x.szreg)) (inside : h ≤ k.n.toNat)
    (blocks : Blocks k h B u c) {Q : Asm.State Label x.bits → Prop}
    (leads : ∀ c', Copied k (h + u * (16 * x.szreg)) c' →
      c'.get .t6 = k.dst + BitVec.ofNat _ (h + u * (16 * x.szreg)) →
      c'.get .a1 = k.src + BitVec.ofNat _ (h + u * (16 * x.szreg)) →
      c'.get .a2 = BitVec.ofNat _ (k.n.toNat - (h + B * (16 * x.szreg))) →
      Leads (machine base) ⟨(memcpy x).after .four, c'⟩ Q) :
    Leads (machine base) ⟨.insn (.opi .and .a2 .a2 blockMask) :: .label .four ::
      (memcpy x).after .four, c⟩ Q := by
  have size := k.n.isLt
  rcases blocks with ⟨copied, t6, a1, -, a2⟩
  have left := (count_blockMask (show k.n.toNat - h < 2 ^ x.bits by omega)).2
  rw [← all, Nat.sub_sub] at left
  refine .opi _ ((congrArg (· &&& blockMask) a2).trans left) (.label ?_)
  exact leads _ (copied.set (by decide) _) t6 a1 rfl

/-- From `3:` on, as long as the end of the last block is an address -/
theorem Blocks.leads_rest (fair : k.Fair)
    (room : k.src.toNat + (h + B * (16 * x.szreg)) < 2 ^ x.bits) (inside : h ≤ k.n.toNat)
    (all : B = (k.n.toNat - h) / (16 * x.szreg)) (some_blocks : 0 < B) (blocks : Blocks k h B 0 c)
    {Q : Asm.State Label x.bits → Prop}
    (leads : ∀ c', Rest k (h + B * (16 * x.szreg)) c' →
      Leads (machine base) ⟨(memcpy x).after .four, c'⟩ Q) :
    Leads (machine base) ⟨(memcpy x).after .three, c⟩ Q := by
  have split := Nat.div_add_mod' (k.n.toNat - h) (16 * x.szreg)
  rw [← all] at split
  have within : h + B * (16 * x.szreg) ≤ k.n.toNat := by omega
  have turn : ∀ q, 0 ≤ q → q < B → ∀ t : Asm.State Label x.bits, BlockLoop k h B q t →
      Leads (machine base) t (BlockLoop k h B (q + 1)) := by
    intro q _ below t on
    rcases t with ⟨code, c'⟩
    rcases on with ⟨here, blocks⟩
    rw [if_pos below] at here
    obtain rfl : code = _ := here
    exact blocks.turn fair room within below
  refine (Leads.upto (Nat.zero_le B) turn ⟨(if_pos some_blocks).symm, blocks⟩).bind
    fun t ended => ?_
  rcases t with ⟨code, c'⟩
  rcases ended with ⟨here, ended⟩
  rw [if_neg (Nat.lt_irrefl B)] at here
  obtain rfl : code = _ := here
  exact ended.leads_four all inside fun c' copied t6 a1 a2 => leads c' ⟨copied, t6, a1, a2⟩

/-- From `2:` on, with a block to copy or without -/
theorem Rest.leads_three (inside : h ≤ k.n.toNat) (all : B = (k.n.toNat - h) / (16 * x.szreg))
    (rest : Rest k h c) {Q : Asm.State Label x.bits → Prop}
    (four : B = 0 → ∀ c', Rest k h c' → Leads (machine base) ⟨(memcpy x).after .four, c'⟩ Q)
    (three : 0 < B → ∀ c', Blocks k h B 0 c' →
      Leads (machine base) ⟨(memcpy x).after .three, c'⟩ Q) :
    Leads (machine base) ⟨(memcpy x).after .two, c⟩ Q := by
  have size := k.n.isLt
  have count := (count_blockMask (show k.n.toNat - h < 2 ^ x.bits by omega)).1
  rw [← all] at count
  have rest' := rest.set (r := .a4) (by decide) (BitVec.ofNat _ (B * (16 * x.szreg)))
  refine .opi _ ((congrArg (· &&& ~~~blockMask) rest.a2).trans count)
    (.branch _ 0 rfl (Core.get_zero _) (fun none => four ?_ _ rest') fun some => ?_)
  · have unit : 0 < 16 * x.szreg := Nat.mul_pos (by decide) x.szreg_pos
    have split := Nat.div_mul_le_self (k.n.toNat - h) (16 * x.szreg)
    rw [← all] at split
    have zero : B * (16 * x.szreg) = 0 := ofNat_eq_zero (by omega) none
    exact (Nat.mul_eq_zero.mp zero).resolve_right (Nat.pos_iff_ne_zero.mp unit)
  rcases rest' with ⟨copied, t6, a1, a2⟩
  have some_blocks : 0 < B := by
    refine Nat.pos_of_ne_zero fun none => some ?_
    rw [none, Nat.zero_mul]
    rfl
  refine .op (k.src + BitVec.ofNat _ (h + B * (16 * x.szreg))) ?_
    (.label (three some_blocks _ ⟨?_, ?_, ?_, rfl, a2⟩))
  · rw [a1]
    exact add_ofNat_add ..
  all_goals rw [Nat.zero_mul]
  · exact copied.set (by decide) _
  · exact t6
  · exact a1

theorem Rest.two (fair : k.Fair) (room : k.src.toNat + k.n.toNat < 2 ^ x.bits)
    (inside : h ≤ k.n.toNat) (rest : Rest k h c) : k.Ends base ⟨(memcpy x).after .two, c⟩ := by
  have split := Nat.div_add_mod' (k.n.toNat - h) (16 * x.szreg)
  refine rest.leads_three inside rfl (fun _ c' rest' => rest'.ends fair room inside)
    fun some_blocks c' blocks => ?_
  refine blocks.leads_rest fair (by omega) inside rfl some_blocks fun c' rest' => ?_
  exact rest'.ends fair room (by omega)

/-- With the end of the last block at the end of the address space, the first block is the only
one. -/
theorem Blocks.stops_first (fair : k.Fair) (wraps : k.src.toNat + k.n.toNat = 2 ^ x.bits)
    (whole : h + B * (16 * x.szreg) = k.n.toNat) (some_blocks : 0 < B)
    (blocks : Blocks k h B 0 c) :
    k.Stops base (h + 16 * x.szreg) ⟨(memcpy x).after .three, c⟩ := by
  have unit : 0 < 16 * x.szreg := Nat.mul_pos (by decide) x.szreg_pos
  have count : k.n.toNat - h = B * (16 * x.szreg) := by omega
  have all : B = (k.n.toNat - h) / (16 * x.szreg) := by rw [count, Nat.mul_div_cancel B unit]
  have first : (0 + 1) * (16 * x.szreg) ≤ B * (16 * x.szreg) := Nat.mul_le_mul_right _ some_blocks
  refine blocks.copy fair (by omega) fun c' after => ?_
  have top : c'.get .a3 = 0 := by
    rw [after.a3, whole, BitVec.ofNat_toNat, BitVec.setWidth_eq]
    exact add_eq_zero_of_wraps wraps
  refine .branch _ 0 rfl top (fun less => absurd less BitVec.not_lt_zero) fun _ => ?_
  refine after.leads_four all (by omega) fun c' copied _ _ a2 => ?_
  rw [Nat.zero_add, Nat.one_mul] at copied
  refine copied.stops (a2.trans ?_)
  rw [whole, Nat.sub_self]
  rfl

/-! ## The entry -/

theorem after_one : (memcpy x).after .one = insns (bytes .a5 .one) ++
    (.insn (.op .sub .a2 .a2 .a4) :: .label .two :: (memcpy x).after .two) := by
  simp only [memcpy, Text.after_insns, Text.after_label, reduceCtorEq, reduceIte]
  rfl

/-- From `1:` on, up to the first aligned address -/
theorem Rest.leads_two (fair : k.Fair) (room : k.src.toNat + h < 2 ^ x.bits) (some_bytes : 0 < h)
    (inside : h ≤ k.n.toNat) (rest : Rest k 0 c) (a3 : c.get .a3 = k.src + BitVec.ofNat _ h)
    (a4 : c.get .a4 = BitVec.ofNat _ h) {Q : Asm.State Label x.bits → Prop}
    (leads : ∀ c', Rest k h c' → Leads (machine base) ⟨(memcpy x).after .two, c'⟩ Q) :
    Leads (machine base) ⟨(memcpy x).after .one, c⟩ Q := by
  rcases rest with ⟨copied, t6, a1, a2⟩
  have start : Bytes k c .a5 h 0 c := ⟨copied, t6, a1, a3, fun _ _ => rfl⟩
  refine (start.loop fair (by decide) after_one room inside some_bytes).bind fun t ended => ?_
  rcases t with ⟨code', c'⟩
  rcases ended with ⟨code, ended⟩
  obtain rfl : code' = _ := code
  have count : c'.get .a2 - c'.get .a4 = BitVec.ofNat _ (k.n.toNat - h) := by
    have split : k.n.toNat = k.n.toNat - h + h := by omega
    rw [ended.keeps .a2 (by decide), ended.keeps .a4 (by decide), a2, a4, Nat.sub_zero, split,
      BitVec.ofNat_add, BitVec.add_sub_cancel, Nat.add_sub_cancel]
  refine .op _ count (.label (leads _ ?_))
  exact ⟨ended.copied.set (by decide) _, ended.t6, ended.a1, rfl⟩

theorem toNat_128 (x : XLen) : (128 : Word x).toNat = 128 := by
  cases x <;> rfl

/-- The first aligned address after an unaligned one -/
theorem next_aligned {a : Word x} (room : a.toNat + x.szreg < 2 ^ x.bits) :
    (a &&& ~~~szregMask) + szreg x 1 = a + BitVec.ofNat _ (x.szreg - a.toNat % x.szreg) := by
  have remainder := Nat.mod_lt a.toNat x.szreg_pos
  have least := Nat.mod_le a.toNat x.szreg
  refine BitVec.eq_of_toNat_eq ?_
  rw [toNat_add_ofNat room (by omega), BitVec.toNat_add, toNat_roundDown,
    toNat_szreg (by decide), Nat.mod_eq_of_lt (by omega)]
  omega

/-- The low bits are those of a remainder. -/
theorem and_szregMask_eq_iff (a b : Word x) :
    a &&& szregMask = b &&& szregMask ↔ a.toNat % x.szreg = b.toNat % x.szreg := by
  rw [← BitVec.toNat_inj, toNat_and_szregMask, toNat_and_szregMask]

/-- The ranges are long, and their addresses have the same low bits. -/
def Call.Wordwise (k : Call x) : Prop :=
  128 ≤ k.n.toNat ∧ k.dst.toNat % x.szreg = k.src.toNat % x.szreg

instance (k : Call x) : Decidable k.Wordwise := inferInstanceAs (Decidable (_ ∧ _))

/-- What the entry leads to: all bytes one by one, or the first aligned address. -/
theorem leads_entry (fair : k.Fair) {Q : Asm.State Label x.bits → Prop}
    (four : ¬k.Wordwise → ∀ c, Rest k 0 c → Leads (machine base) ⟨(memcpy x).after .four, c⟩ Q)
    (two : k.Wordwise → ∀ h < x.szreg, x.szreg ∣ k.src.toNat + h → ∀ c, Rest k h c →
      Leads (machine base) ⟨(memcpy x).after .two, c⟩ Q) :
    Leads (machine base) ⟨memcpy x, k.start⟩ Q := by
  have fits := fair.fits
  have word : x.szreg ≤ 8 := by cases x <;> decide
  have start : Rest k 0 (k.start.set .t6 k.dst) := by
    refine ⟨⟨rfl, rfl, fun a member => absurd member List.not_mem_nil⟩, ?_, ?_, ?_⟩
    · exact (BitVec.add_zero _).symm
    · exact (BitVec.add_zero _).symm
    · rw [Nat.sub_zero, BitVec.ofNat_toNat, BitVec.setWidth_eq]
      rfl
  have less : k.n < 128 ↔ k.n.toNat < 128 := by rw [BitVec.lt_def, toNat_128]
  refine .opi k.dst (BitVec.add_zero _) ?_
  have rest := start.set (r := .a3) (by decide) (if k.n < 128 then 1 else 0)
  refine .opi (if k.n < 128 then 1 else 0) rfl (.branch _ 0 rfl (Core.get_zero _) ?_ ?_)
  · intro short
    refine four (fun wordwise => short ?_) _ rest
    exact if_neg (mt less.mp (Nat.not_lt.mpr wordwise.1))
  intro not_short
  have long : 128 ≤ k.n.toNat := by
    refine Nat.not_lt.mp fun short => not_short ?_
    rw [if_pos (less.mpr short)]
    exact word_one_ne_zero x
  have rest := (rest.set (r := .a3) (by decide) (k.dst &&& szregMask)).set (r := .a4) (by decide)
    (k.src &&& szregMask)
  refine .opi (k.dst &&& szregMask) rfl (.opi (k.src &&& szregMask) rfl ?_)
  refine .branch (k.dst &&& szregMask) (k.src &&& szregMask) rfl rfl ?_ fun same => ?_
  · exact fun differ => four (fun wordwise =>
      differ ((and_szregMask_eq_iff k.dst k.src).mpr wordwise.2)) _ rest
  have alike : k.dst &&& szregMask = k.src &&& szregMask := of_not_not same
  have wordwise : k.Wordwise := ⟨long, (and_szregMask_eq_iff k.dst k.src).mp alike⟩
  have remainder := Nat.mod_lt k.src.toNat x.szreg_pos
  refine .branch (k.dst &&& szregMask) 0 rfl (Core.get_zero _) (fun zero => ?_) fun unaligned => ?_
  · refine two wordwise 0 x.szreg_pos (Nat.dvd_of_mod_eq_zero ?_) _ rest
    rw [Nat.add_zero, ← toNat_and_szregMask, ← alike, zero]
    exact BitVec.toNat_zero
  have some_bytes : 0 < k.src.toNat % x.szreg := by
    refine Nat.pos_of_ne_zero fun none => unaligned ?_
    rw [alike]
    refine BitVec.eq_of_toNat_eq ?_
    rw [toNat_and_szregMask, none]
    exact BitVec.toNat_zero.symm
  have aligned := next_aligned (show k.src.toNat + x.szreg < 2 ^ x.bits by omega)
  have whole : x.szreg ∣ k.src.toNat + (x.szreg - k.src.toNat % x.szreg) := by
    refine ⟨k.src.toNat / x.szreg + 1, ?_⟩
    have split := Nat.div_add_mod k.src.toNat x.szreg
    rw [Nat.mul_succ]
    omega
  have below : x.szreg - k.src.toNat % x.szreg < x.szreg := by omega
  have some_left : 0 < x.szreg - k.src.toNat % x.szreg := by omega
  generalize x.szreg - k.src.toNat % x.szreg = h at aligned whole below some_left
  have rest := ((rest.set (r := .a3) (by decide) (k.src &&& ~~~szregMask)).set (r := .a3)
    (by decide) (k.src + BitVec.ofNat _ h)).set (r := .a4) (by decide) (BitVec.ofNat _ h)
  refine .opi (k.src &&& ~~~szregMask) rfl (.opi (k.src + BitVec.ofNat _ h) aligned ?_)
  refine .op (BitVec.ofNat _ h) ?_ (.label (rest.leads_two fair (by omega) some_left (by omega)
    rfl rfl fun c' rest' => two wordwise h below whole c' rest'))
  show k.src + BitVec.ofNat _ h - k.src = _
  ring

/-- Where the end of the source is an address, `memcpy` copies the `n` bytes from `src` on to `dst`,
changes nothing else, touches nothing outside the ranges, and returns `dst`. -/
theorem ends_of_room (base : Word x) (fair : k.Fair)
    (room : k.src.toNat + k.n.toNat < 2 ^ x.bits) : k.Ends base ⟨memcpy x, k.start⟩ := by
  have word : x.szreg ≤ 8 := by cases x <;> decide
  refine leads_entry fair (fun _ c rest => rest.ends fair room (Nat.zero_le _)) ?_
  intro wordwise h below _ c rest
  have long := wordwise.1
  exact rest.two fair room (by omega)

/-- How many bytes `memcpy` copies where the end of the source is no address -/
def Call.reached (k : Call x) : Nat :=
  if k.Wordwise then
    if k.n.toNat / x.szreg % 16 = 0 then k.n.toNat % x.szreg + 16 * x.szreg
    else k.n.toNat - k.n.toNat / x.szreg % 16 * x.szreg + 1
  else 1

theorem Call.Wordwise.blocks (wordwise : k.Wordwise) : 16 ≤ k.n.toNat / x.szreg := by
  have word : x.szreg ≤ 8 := by cases x <;> decide
  have long := wordwise.1
  rw [Nat.le_div_iff_mul_le x.szreg_pos]
  omega

theorem stops_reached (base : Word x) (fair : k.Fair)
    (wraps : k.src.toNat + k.n.toNat = 2 ^ x.bits) :
    k.Stops base k.reached ⟨memcpy x, k.start⟩ := by
  have address := k.src.isLt
  have word : x.szreg ≤ 8 := by cases x <;> decide
  unfold Call.reached
  refine leads_entry fair (fun bytewise c rest => ?_) fun wordwise h below aligned c rest => ?_
  · rw [if_neg bytewise]
    exact rest.stops_next fair wraps (by omega)
  have long := wordwise.1
  have blocks := wordwise.blocks
  have remainder := mod_of_wraps wraps below (by omega) aligned
  have split := Nat.mod_add_div' k.n.toNat x.szreg
  rw [if_pos wordwise, remainder]
  rw [remainder] at split
  generalize k.n.toNat / x.szreg = W at split blocks ⊢
  have count : (k.n.toNat - h) / (16 * x.szreg) = W / 16 := by
    rw [← split, Nat.add_sub_cancel_left, Nat.mul_div_mul_right W 16 x.szreg_pos]
  have words : W * x.szreg = W % 16 * x.szreg + W / 16 * (16 * x.szreg) := by
    rw [← Nat.mul_assoc, ← Nat.add_mul, Nat.mod_add_div']
  refine rest.leads_three (by omega) count.symm (fun none => by omega)
    fun some_blocks c' first => ?_
  split
  · next whole =>
    rw [whole, Nat.zero_mul, Nat.zero_add] at words
    exact first.stops_first fair wraps (by omega) some_blocks
  · next some_words =>
    have left := Nat.mul_pos (Nat.pos_of_ne_zero some_words) x.szreg_pos
    have copied : k.n.toNat - W % 16 * x.szreg = h + W / 16 * (16 * x.szreg) := by omega
    rw [copied]
    exact first.leads_rest fair (by omega) (by omega) count.symm some_blocks
      fun c' rest' => rest'.stops_next fair wraps (by omega)

/-- They are never more than there are. -/
theorem Call.reached_le (k : Call x) (some_bytes : 0 < k.n.toNat) : k.reached ≤ k.n.toNat := by
  have split := Nat.mod_add_div' k.n.toNat x.szreg
  unfold Call.reached
  split
  · next wordwise =>
    have most := Nat.mul_le_mul_right x.szreg wordwise.blocks
    split
    · omega
    · next some_words =>
      have left := Nat.mul_pos (Nat.pos_of_ne_zero some_words) x.szreg_pos
      have less := Nat.mul_le_mul_right x.szreg (Nat.mod_le (k.n.toNat / x.szreg) 16)
      omega
  · exact some_bytes

/-- They are all there are for one byte, and for a single block copied word by word. -/
theorem Call.reached_eq_iff (k : Call x) :
    k.reached = k.n.toNat ↔ k.n.toNat = 1 ∨ k.Wordwise ∧ k.n.toNat / x.szreg = 16 := by
  have split := Nat.mod_add_div' k.n.toNat x.szreg
  have word : 4 ≤ x.szreg := by cases x <;> decide
  unfold Call.reached
  split
  · next wordwise =>
    have long := wordwise.1
    have same : k.n.toNat / x.szreg = 16 ↔ k.n.toNat / x.szreg * x.szreg = 16 * x.szreg :=
      (Nat.mul_left_inj (Nat.pos_iff_ne_zero.mp x.szreg_pos)).symm
    rw [and_iff_right wordwise]
    split
    · omega
    · next some_words =>
      have left := Nat.mul_le_mul (Nat.pos_of_ne_zero some_words) word
      have less := Nat.mul_le_mul_right x.szreg (Nat.mod_le (k.n.toNat / x.szreg) 16)
      omega
  · next bytewise =>
    have never : ¬(k.Wordwise ∧ k.n.toNat / x.szreg = 16) := fun both => bytewise both.1
    rw [or_iff_left never]
    exact eq_comm

/-- The first byte that is not copied shows it, unless it was right before. -/
theorem not_ends_of_reached (fair : k.Fair) (wraps : k.src.toNat + k.n.toNat = 2 ^ x.bits)
    (short : k.reached < k.n.toNat)
    (other : k.before.mem (k.dst + BitVec.ofNat _ k.reached) ≠
      k.before.mem (k.src + BitVec.ofNat _ k.reached)) :
    ¬k.Ends base ⟨memcpy x, k.start⟩ := by
  intro ends
  have size := k.n.isLt
  obtain ⟨t, run, ended, copied⟩ := stops_reached base fair wraps
  have all := ends.of_run run ended
  have byte := congrFun (copied.mem.symm.trans all.mem) (k.dst + BitVec.ofNat _ k.reached)
  rw [Memory.write, Memory.write, toNat_add_ofNat_sub (by omega),
    List.getD_eq_default _ _ (by simp)] at byte
  have here : (k.before.mem.read k.src k.n.toNat).getD k.reached
      (k.before.mem (k.dst + BitVec.ofNat _ k.reached)) =
      k.before.mem (k.src + BitVec.ofNat _ k.reached) := by
    rw [List.getD_eq_getElem _ _ (by simpa using short)]
    simp [Memory.read]
  exact other (byte.trans here)

/-- `memcpy(dst, src, n)` is right on every hart. -/
def CopiesAll (base dst src n : Word x) : Prop :=
  ∀ before, (Call.mk dst src n before).Ends base ⟨memcpy x, (Call.mk dst src n before).start⟩

/-- `memcpy` copies the `n` bytes from `src` on to `dst`, changes nothing else, touches nothing
outside the ranges, and returns `dst`, exactly when the end of the source is an address, or there is
one byte, or a single block that is copied word by word. -/
theorem copiesAll_iff (base dst src n : Word x) (apart : Apart dst n.toNat src n.toNat)
    (fits : src.toNat + n.toNat ≤ 2 ^ x.bits) :
    CopiesAll base dst src n ↔ src.toNat + n.toNat < 2 ^ x.bits ∨ n.toNat = 1 ∨
      128 ≤ n.toNat ∧ dst.toNat % x.szreg = src.toNat % x.szreg ∧ n.toNat / x.szreg = 16 := by
  have fair : ∀ before, (Call.mk dst src n before).Fair := fun before => ⟨apart, fits⟩
  rw [← and_assoc]
  constructor
  · intro copies
    rcases Nat.lt_or_eq_of_le fits with room | wraps
    · exact .inl room
    · refine .inr (by_contra fun none => ?_)
      have address := src.isLt
      have differ : dst ≠ src := by
        rintro rfl
        rw [Apart, BitVec.sub_self, BitVec.toNat_zero] at apart
        omega
      -- A memory in which the first byte that is not copied is unlike its source
      generalize first : (Call.mk dst src n ⟨fun _ => 0, 0, fun _ => 0, []⟩).reached = i
      let before : Core x.bits :=
        ⟨fun _ => 0, 0, fun a => if a = dst + BitVec.ofNat _ i then 1 else 0, []⟩
      have here : (Call.mk dst src n before).reached = i := first
      refine not_ends_of_reached (fair before) wraps (Nat.lt_of_le_of_ne ?_ ?_) ?_ (copies before)
      · exact Call.reached_le _ (show 0 < n.toNat by omega)
      · exact mt (Call.reached_eq_iff _).mp none
      · rw [here]
        show (if dst + BitVec.ofNat _ i = dst + BitVec.ofNat _ i then (1 : UInt8) else 0) ≠
          if src + BitVec.ofNat _ i = dst + BitVec.ofNat _ i then 1 else 0
        rw [if_pos rfl, if_neg fun same => differ ((BitVec.add_left_inj _).mp same).symm]
        decide
  · intro given before
    rcases Nat.lt_or_eq_of_le fits with room | wraps
    · exact ends_of_room base (fair before) room
    · have all := (Call.reached_eq_iff (Call.mk dst src n before)).mpr
        (given.resolve_left (Nat.not_lt.mpr (Nat.le_of_eq wraps.symm)))
      have stops := stops_reached base (fair before) wraps
      rwa [all] at stops

/-- 200 bytes to right behind them, and the last 16 bytes there are -/
theorem copiesAll_iff_top : @CopiesAll .rv64 0xffffffff80000000 0x2003 0x1f3b 200 ∧
    ¬@CopiesAll .rv64 0xffffffff80000000 0x1000 0xfffffffffffffff0 16 :=
  ⟨(copiesAll_iff _ _ _ _ (by decide) (by decide)).mpr (.inl (by decide)),
    mt (copiesAll_iff _ _ _ _ (by decide) (by decide)).mp (by decide)⟩

/-- The last 16 bytes, of which the first one only is copied -/
def top : Call .rv64 :=
  ⟨0x1000, 0xfffffffffffffff0, 16, ⟨fun _ => 0, 0, fun a => if a = 0x1001 then 0 else 7, []⟩⟩

theorem not_copiesAll_top : top.Fair ∧ ¬top.Ends 0xffffffff80000000 ⟨memcpy .rv64, top.start⟩ :=
  have fair : top.Fair := ⟨by decide, by decide⟩
  ⟨fair, not_ends_of_reached fair (by decide) (by decide) (by decide)⟩

end RiscvLinux.Mem.Memcpy
