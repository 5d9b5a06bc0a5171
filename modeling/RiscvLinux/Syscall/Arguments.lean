import RiscvLinux.Trap.Entry

/-!
# The arguments of a system call

`syscall_get_arguments` and `syscall_set_arguments` of `arch/riscv/include/asm/syscall.h`, on a
`struct pt_regs` in memory. Both copy from or to `&regs->a0 + i * sizeof(regs->a0)`, where the sum
is one of a pointer to words and already counts words.

`addresses_iff` says for which `i` and `n` they work on the registers `a_i` to `a_(i+n-1)`.
-/

namespace RiscvLinux.Syscall

open Lib Trap

variable {x : XLen}

/-- `memcpy`, as the C code relies on it -/
def memcpy (m : Memory x.bits) (dest src n : Word x) : Memory x.bits :=
  m.write dest (m.read src n.toNat)

/-- `n * sizeof(unsigned long)` -/
def sizeofLongs (x : XLen) (n : UInt32) : Word x :=
  BitVec.ofNat _ n.toNat * BitVec.ofNat _ x.szreg

/-- `&regs->a0 + i * sizeof(regs->a0)` -/
def argumentsFrom (regs : Word x) (i : UInt32) : Word x :=
  field x.szreg (field x.szreg regs PtReg.a0.index) (sizeofLongs x i).toNat

/-- `syscall_get_arguments`; there is no memory after `BUG_ON`. -/
def syscallGetArguments (m : Memory x.bits) (regs : Word x) (i n : UInt32) (args : Word x) :
    Option (Memory x.bits) :=
  if i + n > 6 then none
  else some (memcpy m args (argumentsFrom regs i) (sizeofLongs x n))

/-- `syscall_set_arguments` -/
def syscallSetArguments (m : Memory x.bits) (regs : Word x) (i n : UInt32) (args : Word x) :
    Option (Memory x.bits) :=
  if i + n > 6 then none
  else some (memcpy m (argumentsFrom regs i) args (sizeofLongs x n))

/-! ## What they are for -/

/-- The array of `n` words at `a` -/
def longs (m : Memory x.bits) (a : Word x) (n : Nat) : List (Word x) :=
  (List.range n).map fun k => m.readWord x.szreg (field x.szreg a k)

/-- The registers that the arguments are in -/
def argumentRegs : List PtReg := [.a0, .a1, .a2, .a3, .a4, .a5]

/-- `a_i` to `a_(i+n-1)` -/
def argumentWindow (i n : Nat) : List PtReg := (argumentRegs.drop i).take n

/-- An array of `n` words has no byte in common with the registers. -/
def Elsewhere (regs a : Word x) (n : Nat) : Prop := Apart regs (ptSize x) a (x.szreg * n)

/-- The accesses address the argument registers: a get returns them, a set stores just them, and a
get after a set returns what was set. -/
structure Addresses (x : XLen) (i n : UInt32) : Prop where
  get : ∀ (m : Memory x.bits) (regs args : Word x), Elsewhere regs args n.toNat →
    ∃ m', syscallGetArguments m regs i n args = some m' ∧
      longs m' args n.toNat = (argumentWindow i.toNat n.toNat).map (frameWord m regs)
  set : ∀ (m : Memory x.bits) (regs args : Word x), Elsewhere regs args n.toNat →
    ∃ m', syscallSetArguments m regs i n args = some m' ∧
      (argumentWindow i.toNat n.toNat).map (frameWord m' regs) = longs m args n.toNat ∧
      ∀ r ∉ argumentWindow i.toNat n.toNat, frameWord m' regs r = frameWord m regs r
  getSet : ∀ (m : Memory x.bits) (regs args out : Word x), Elsewhere regs args n.toNat →
    Elsewhere regs out n.toNat →
    ∃ m' m'', syscallSetArguments m regs i n args = some m' ∧
      syscallGetArguments m' regs i n out = some m'' ∧
      longs m'' out n.toNat = longs m args n.toNat

/-! ## Arrays of words -/

theorem field_field (n : Nat) (base : Word x) (i j : Nat) :
    field n (field n base i) j = field n base (i + j) := by
  rw [field, field, field, BitVec.add_assoc, ← BitVec.ofNat_add, ← Nat.mul_add]

/-- What is copied is there afterwards. -/
theorem longs_memcpy {m : Memory x.bits} {dest src count : Word x} {n : Nat}
    (size : count.toNat = x.szreg * n) :
    longs (memcpy m dest src count) dest n = longs m src n := by
  have fits : x.szreg * n ≤ 2 ^ x.bits := size ▸ Nat.le_of_lt count.isLt
  refine List.map_congr_left fun k inside => ?_
  have within : x.szreg * k + x.szreg ≤ x.szreg * n :=
    Nat.mul_le_mul_left x.szreg (Nat.succ_le_of_lt (List.mem_range.mp inside))
  have copied : (memcpy m dest src count).read (field x.szreg dest k) x.szreg
      = m.read (field x.szreg src k) x.szreg := by
    rw [memcpy, size, field, Memory.read_write_within (by rwa [Memory.length_read])
      (by rwa [Memory.length_read]), field, m.read_part src within]
  rw [Memory.readWord, Memory.readWord, copied]

/-! ## Where the copies are -/

theorem toNat_sizeofLongs {k : UInt32} (small : k.toNat ≤ 6) :
    (sizeofLongs x k).toNat = x.szreg * k.toNat := by
  rw [sizeofLongs, BitVec.toNat_mul, BitVec.toNat_ofNat, BitVec.toNat_ofNat]
  cases x <;> simp only [XLen.bits, XLen.szreg] <;> omega

theorem index_a0 : PtReg.a0.index = 10 := by
  decide

section

variable {i n : UInt32} (few : i.toNat + n.toNat ≤ 6)
include few

theorem not_bug : ¬ i + n > 6 := by
  rw [gt_iff_lt, UInt32.lt_iff_toNat_lt, UInt32.toNat_add]
  have six : (6 : UInt32).toNat = 6 := rfl
  omega

theorem syscallGetArguments_eq (m : Memory x.bits) (regs args : Word x) :
    syscallGetArguments m regs i n args
      = some (memcpy m args (field x.szreg regs (10 + x.szreg * i.toNat)) (sizeofLongs x n)) := by
  rw [syscallGetArguments, if_neg (not_bug few), argumentsFrom,
    toNat_sizeofLongs (by omega), field_field, index_a0]

theorem syscallSetArguments_eq (m : Memory x.bits) (regs args : Word x) :
    syscallSetArguments m regs i n args
      = some (memcpy m (field x.szreg regs (10 + x.szreg * i.toNat)) args (sizeofLongs x n)) := by
  rw [syscallSetArguments, if_neg (not_bug few), argumentsFrom,
    toNat_sizeofLongs (by omega), field_field, index_a0]

end

/-! ## Where the argument registers are -/

theorem index_argumentWindow {i n : Nat} (few : i + n ≤ 6) :
    (argumentWindow i n).map PtReg.index = (List.range n).map fun k => 10 + i + k := by
  have all : ∀ i < 7, ∀ n < 7, i + n ≤ 6 →
      (argumentWindow i n).map PtReg.index = (List.range n).map fun k => 10 + i + k := by decide
  exact all i (by omega) n (by omega) few

/-- The argument registers are an array in the frame. -/
theorem map_argumentWindow {i n : Nat} (few : i + n ≤ 6) (m : Memory x.bits) (regs : Word x) :
    (argumentWindow i n).map (frameWord m regs)
      = longs m (field x.szreg regs (10 + i)) n := by
  have word : frameWord m regs
      = (fun k => m.readWord x.szreg (field x.szreg regs k)) ∘ PtReg.index := rfl
  rw [word, ← List.map_map, index_argumentWindow few, List.map_map, longs]
  refine List.map_congr_left fun k _ => ?_
  rw [field_field, Function.comp_apply]

/-- A field that is none of them is before them or after them. -/
theorem index_of_notMem {i n : Nat} (few : i + n ≤ 6) {r : PtReg}
    (other : r ∉ argumentWindow i n) : r.index < 10 + i ∨ 10 + i + n ≤ r.index := by
  by_contra between
  have member : r.index ∈ (List.range n).map fun k => 10 + i + k :=
    List.mem_map.mpr ⟨r.index - (10 + i), List.mem_range.mpr (by omega), by omega⟩
  rw [← index_argumentWindow few] at member
  obtain ⟨s, inside, same⟩ := List.mem_map.mp member
  exact other (PtReg.index_inj same ▸ inside)

/-- The first arguments are inside the frame, and the other fields are apart from them. -/
theorem apart_of_notMem (regs : Word x) {n : Nat} (few : n ≤ 6) (some_words : 0 < n) {r : PtReg}
    (other : r ∉ argumentWindow 0 n) :
    Apart (field x.szreg regs 10) (x.szreg * n) (field x.szreg regs r.index) x.szreg := by
  have fits : x.szreg * 35 ≤ 2 ^ x.bits := ptSize_le x
  have bytes := x.szreg_pos
  have words : ∀ {k}, k ≤ 35 → x.szreg * k ≤ 2 ^ x.bits := fun small =>
    Nat.le_trans (Nat.mul_le_mul_left x.szreg small) fits
  have last := r.index_lt
  have here : x.szreg * 10 + x.szreg * n = x.szreg * (10 + n) := (Nat.mul_add ..).symm
  have there : x.szreg * r.index + x.szreg = x.szreg * (r.index + 1) := (Nat.mul_succ ..).symm
  have copied := words (k := 10 + n) (by omega)
  have field := words (k := r.index + 1) (by omega)
  have length : 0 < x.szreg * n := Nat.mul_pos bytes some_words
  rcases index_of_notMem (by omega) other with before | after
  · have le : x.szreg * (r.index + 1) ≤ x.szreg * 10 := Nat.mul_le_mul_left _ (by omega)
    exact (apart_of_offsets (by omega) bytes (by omega) (by omega)).symm
  · have le : x.szreg * (10 + n) ≤ x.szreg * r.index := Nat.mul_le_mul_left _ (by omega)
    exact apart_of_offsets (by omega) length (by omega) (by omega)

/-! ## When they do -/

/-- From the first argument on, the two ways to count agree. -/
theorem addresses_zero {n : UInt32} (few : n.toNat ≤ 6) : Addresses x 0 n := by
  have fewer : (0 : UInt32).toNat + n.toNat ≤ 6 := by rwa [UInt32.toNat_zero, Nat.zero_add]
  have size := toNat_sizeofLongs (x := x) few
  have window := map_argumentWindow (x := x) (i := 0) (n := n.toNat) (by omega)
  refine ⟨fun m regs args _ => ⟨_, syscallGetArguments_eq fewer m regs args, ?_⟩,
    fun m regs args _ => ⟨_, syscallSetArguments_eq fewer m regs args, ?_, fun r other => ?_⟩,
    fun m regs args out _ _ => ⟨_, _, syscallSetArguments_eq fewer m regs args,
      syscallGetArguments_eq fewer _ regs out, ?_⟩⟩
  · rw [longs_memcpy size, UInt32.toNat_zero, window]
    rfl
  · rw [UInt32.toNat_zero, window]
    exact longs_memcpy size
  · rcases Nat.eq_zero_or_pos n.toNat with none | some_words
    · rw [memcpy, size, none]
      rfl
    · have apart := apart_of_notMem regs few some_words other
      rw [frameWord, frameWord, memcpy, Memory.readWord, Memory.readWord]
      congr 1
      refine Memory.read_write_apart ?_
      rwa [Memory.length_read, size]
  · rw [longs_memcpy size]
    exact longs_memcpy size

/-- Without arguments nothing is copied. -/
theorem addresses_none {i : UInt32} (few : i.toNat ≤ 6) : Addresses x i 0 := by
  have fewer : i.toNat + (0 : UInt32).toNat ≤ 6 := few
  have size : (sizeofLongs x 0).toNat = 0 := toNat_sizeofLongs (k := 0) (Nat.zero_le 6)
  refine ⟨fun m regs args _ => ⟨_, syscallGetArguments_eq fewer m regs args, ?_⟩,
    fun m regs args _ => ⟨_, syscallSetArguments_eq fewer m regs args, ?_, fun r _ => ?_⟩,
    fun m regs args out _ _ => ⟨_, _, syscallSetArguments_eq fewer m regs args,
      syscallGetArguments_eq fewer _ regs out, rfl⟩⟩
  · rfl
  · rfl
  · rw [memcpy, size]
    rfl

/-- Registers in which just one argument is not zero -/
def onlyArgument (x : XLen) (i : Nat) : Memory x.bits :=
  Memory.writeWord (fun _ => 0) x.szreg (field x.szreg 0 (10 + i)) 1

theorem readWord_zero (x : XLen) (a : Word x) :
    Memory.readWord (fun _ => 0) x.szreg a = 0 := by
  have bytes : Memory.read (fun _ => 0) a x.szreg = List.replicate x.szreg 0 := by
    cases x <;> rfl
  rw [Memory.readWord, bytes]
  cases x <;> decide

theorem longs_onlyArgument {i j n : Nat} (small : i < 100) (other : j < 100) (differ : i ≠ j)
    (some_words : 0 < n) :
    longs (onlyArgument x i) (field x.szreg 0 (10 + j)) n
      ≠ longs (onlyArgument x i) (field x.szreg 0 (10 + i)) n := by
  intro same
  obtain ⟨rest, rfl⟩ := Nat.exists_eq_succ_of_ne_zero some_words.ne'
  have fits : x.szreg * 110 ≤ 2 ^ x.bits := by cases x <;> decide
  have wordFits : x.szreg ≤ 2 ^ x.bits := by cases x <;> decide
  have first := List.map_inj_left.mp same 0 (List.mem_range.mpr rest.succ_pos)
  have apart : Apart (field x.szreg (0 : Word x) (10 + i)) x.szreg
      (field x.szreg 0 (10 + j)) x.szreg :=
    apart_field x.szreg_pos fits (by omega) (by omega) (by omega)
  rw [field_field, field_field, Nat.add_zero, Nat.add_zero, onlyArgument,
    Memory.readWord_writeWord_same (Nat.le_of_eq x.bits_eq) wordFits,
    Memory.readWord_writeWord_apart apart, readWord_zero] at first
  cases x <;> exact absurd first (by decide)

/-- An array a page away from the frame -/
theorem elsewhere_page {n : Nat} (few : n ≤ 6) : Elsewhere (0 : Word x) 4096 n := by
  cases x with
  | rv32 =>
    have back : ((0 : Word .rv32) - 4096).toNat = 4294963200 := by decide
    refine ⟨by decide, ?_⟩
    simp only [back, XLen.szreg]
    omega
  | rv64 =>
    have back : ((0 : Word .rv64) - 4096).toNat = 18446744073709547520 := by decide
    refine ⟨by decide, ?_⟩
    simp only [back, XLen.szreg]
    omega

/-- From a later argument on, the copy starts four or eight times as far behind `a0`. -/
theorem not_addresses {i n : UInt32} (few : i.toNat + n.toNat ≤ 6) (later : 0 < i.toNat)
    (some_words : 0 < n.toNat) : ¬ Addresses x i n := by
  intro addresses
  obtain ⟨m', got, args⟩ :=
    addresses.get (onlyArgument x i.toNat) 0 4096 (elsewhere_page (by omega))
  obtain rfl := Option.some.inj ((syscallGetArguments_eq few ..).symm.trans got)
  rw [longs_memcpy (toNat_sizeofLongs (by omega)), map_argumentWindow few] at args
  refine longs_onlyArgument (by omega) ?_ ?_ some_words args
  · cases x <;> simp only [XLen.szreg] <;> omega
  · cases x <;> simp only [XLen.szreg] <;> omega

/-- The accesses address the argument registers exactly from the first argument on, or for no
arguments. -/
theorem addresses_iff (x : XLen) (i n : UInt32) (few : i.toNat + n.toNat ≤ 6) :
    Addresses x i n ↔ i = 0 ∨ n = 0 := by
  constructor
  · intro addresses
    by_contra neither
    rw [not_or, ← UInt32.toNat_inj, ← UInt32.toNat_inj] at neither
    exact not_addresses few (Nat.pos_of_ne_zero neither.1) (Nat.pos_of_ne_zero neither.2) addresses
  · intro either
    rcases either with rfl | rfl
    · exact addresses_zero (by omega)
    · exact addresses_none (by omega)

/-- All six arguments. -/
theorem addresses_iff_all : Addresses .rv64 0 6 :=
  (addresses_iff .rv64 0 6 (by decide)).mpr (.inl rfl)

/-- The second argument alone. -/
theorem not_addresses_second : ¬ ∀ (x : XLen) (i n : UInt32), i.toNat + n.toNat ≤ 6 →
    Addresses x i n := by
  intro always
  exact not_addresses (by decide) (by decide) (by decide) (always .rv64 1 1 (by decide))

end RiscvLinux.Syscall
