import RiscvLinux.Lib.Preorder
import RiscvLinux.Mm.PteFlags
import RiscvLinux.Mm.VmallocFault

/-!
# The boot page table

`reserve_boot_page_table` of `arch/riscv/kernel/setup.c` keeps the pages of the table that the
kernel was started with from the allocator. It goes through the entries of a page by its address in
the linear mapping and calls itself for those that point to another page; the pages themselves are
known by their physical addresses, and `reserveBootPageTable_eq` takes one view to the other.
-/

namespace RiscvLinux.Mm.BootTable

open Lib Trap VmallocFault

variable {x : XLen}

/-! ## The code -/

/-- `PAGE_SIZE` -/
def pageSize : Word x := 1 <<< pageShift

/-- `PTRS_PER_PTE` -/
def ptrsPerPte (x : XLen) : Nat := 4096 / x.szreg

/-- `__pa` -/
def pa (k : Context x) (addr : Word x) : Word x := addr - k.vaPaOffset

/-- `__va` -/
def va (k : Context x) (addr : Word x) : Word x := addr + k.vaPaOffset

def pteHuge (pte : Word x) : Bool := ptePresent pte && pteLeaf pte

/-- What `memblock_reserve` is called with -/
structure Reservation (x : XLen) where
  base : Word x
  size : Word x
  deriving DecidableEq, Repr

/-- `memblock_reserve`, after other calls -/
def memblockReserve (calls : List (Reservation x)) (base size : Word x) : List (Reservation x) :=
  calls ++ [⟨base, size⟩]

/-- The fuel is how deep the calls may be nested. -/
def reserveBootPageTable (k : Context x) (m : Tables x) :
    Nat → (table : Word x) → List (Reservation x) → Option (List (Reservation x))
  | 0, _, _ => none
  | fuel + 1, table, calls =>
    (List.range (ptrsPerPte x)).foldlM (fun calls i =>
        let pte := m (entryAt table (BitVec.ofNat _ i))
        if ptePresent pte && !pteHuge pte then
          reserveBootPageTable k m fuel (k.pfnToVirt (ptePfn pte)) calls
        else some calls)
      (memblockReserve calls (pa k table) pageSize)

/-! ## The table -/

/-- An entry that points to the next table page: it is present, and the page cannot be read,
written or executed. -/
def IsPointer (pte : Word x) : Prop :=
  pte.getLsbD 0 = true ∧ pte.getLsbD 1 = false ∧ pte.getLsbD 2 = false ∧ pte.getLsbD 3 = false

instance (pte : Word x) : Decidable (IsPointer pte) :=
  inferInstanceAs (Decidable (_ ∧ _))

/-- An entry that maps a page. -/
def IsLeaf (pte : Word x) : Prop :=
  pte.getLsbD 0 = true ∧ (pte.getLsbD 1 = true ∨ pte.getLsbD 2 = true ∨ pte.getLsbD 3 = true)

/-- The physical address of the page whose number is in an entry -/
def framePage (pte : Word x) : Word x := pte >>> pagePfnShift <<< pageShift

/-- The table pages, with the entries of physical memory -/
def tablePages (mem : Tables x) : Slotted (Word x) Nat where
  slots := List.range (ptrsPerPte x)
  distinct := List.nodup_range
  child page i :=
    let pte := mem (entryAt page (BitVec.ofNat _ i))
    if IsPointer pte then some (framePage pte) else none

/-- What the kernel reads through the linear mapping -/
def linear (k : Context x) (mem : Tables x) : Tables x := fun addr => mem (pa k addr)

/-- The calls are for the table pages below the root, one for each, and so for no page that is only
mapped by a leaf. -/
structure Reserved (mem : Tables x) (root : Word x) (calls : List (Reservation x)) : Prop where
  tables : ∀ page, (tablePages mem).Below root page → calls.count ⟨page, pageSize⟩ = 1
  only : ∀ call ∈ calls, (tablePages mem).Below root call.base ∧ call.size = pageSize
  leaves : ∀ page i, (tablePages mem).Below root page →
    IsLeaf (mem (entryAt page (BitVec.ofNat _ i))) →
    ¬ (tablePages mem).Below root (framePage (mem (entryAt page (BitVec.ofNat _ i)))) →
    ∀ call ∈ calls, call.base ≠ framePage (mem (entryAt page (BitVec.ofNat _ i)))

/-! ## Entries -/

/-- The function goes on at the entries that point to a table page. -/
theorem isPointer_iff (pte : Word x) :
    (ptePresent pte && !pteHuge pte) = true ↔ IsPointer pte := by
  have flags : (pagePresent : Word x) = .twoPow _ 0 ∧ (pageRead : Word x) = .twoPow _ 1 ∧
      (pageWrite : Word x) = .twoPow _ 2 ∧ (pageExec : Word x) = .twoPow _ 3 := by
    cases x <;> decide
  have inside : ∀ i < 4, (pte &&& .twoPow _ i != 0) = pte.getLsbD i := by
    intro i small
    refine and_twoPow_bne_zero pte ?_
    cases x <;> exact Nat.lt_trans small (by decide)
  have present : ptePresent pte = pte.getLsbD 0 := by
    rw [ptePresent, flags.1, inside 0 (by decide)]
  have leaf : pteLeaf pte = (pte.getLsbD 1 || pte.getLsbD 2 || pte.getLsbD 3) := by
    rw [pteLeaf, BitVec.and_comm, or_and_bne_zero, or_and_bne_zero, BitVec.and_comm,
      BitVec.and_comm pageWrite, BitVec.and_comm pageExec, flags.2.1, flags.2.2.1, flags.2.2.2,
      inside 1 (by decide), inside 2 (by decide), inside 3 (by decide)]
  rw [pteHuge, leaf, present, IsPointer]
  cases pte.getLsbD 0 <;> cases pte.getLsbD 1 <;> cases pte.getLsbD 2 <;> cases pte.getLsbD 3 <;>
    decide

theorem points_iff {mem : Tables x} {page next : Word x} {i : Nat} :
    (tablePages mem).Points page i next ↔ i < ptrsPerPte x ∧
      IsPointer (mem (entryAt page (BitVec.ofNat _ i))) ∧
      framePage (mem (entryAt page (BitVec.ofNat _ i))) = next := by
  refine and_congr List.mem_range ?_
  simp only [tablePages, Option.ite_none_right_eq_some, Option.some.injEq]

theorem pa_va (k : Context x) (page : Word x) : pa k (va k page) = page :=
  BitVec.add_sub_cancel page k.vaPaOffset

/-- An entry is read where it is in physical memory. -/
theorem linear_entryAt (k : Context x) (mem : Tables x) (page index : Word x) :
    linear k mem (entryAt (va k page) index) = mem (entryAt page index) := by
  have place : pa k (entryAt (va k page) index) = entryAt page index := by
    rw [pa, va, entryAt, entryAt]
    ring
  rw [linear, place]

/-! ## The calls -/

/-- The function by the physical addresses of the pages -/
theorem reserveBootPageTable_eq (k : Context x) (mem : Tables x) (fuel : Nat) (page : Word x)
    (calls : List (Reservation x)) :
    reserveBootPageTable k (linear k mem) fuel (va k page) calls
      = (tablePages mem).visit (memblockReserve · · pageSize) fuel page calls := by
  induction fuel generalizing page calls with
  | zero => rfl
  | succ fuel ih =>
    rw [reserveBootPageTable, Slotted.visit, pa_va]
    congr 1
    funext calls i
    simp only [linear_entryAt, isPointer_iff, tablePages]
    split
    · exact ih ..
    · rfl

theorem foldl_memblockReserve (pages : List (Word x)) (calls : List (Reservation x)) :
    pages.foldl (memblockReserve · · pageSize) calls = calls ++ pages.map (⟨·, pageSize⟩) := by
  induction pages generalizing calls with
  | nil => exact (List.append_nil calls).symm
  | cons page pages ih =>
    rw [List.foldl_cons, ih, memblockReserve, List.append_assoc, List.map_cons]
    rfl

/-- One call for each of the pages -/
theorem reserved_map {mem : Tables x} {root : Word x} {pages : List (Word x)}
    (distinct : pages.Nodup) (all : ∀ page, page ∈ pages ↔ (tablePages mem).Below root page) :
    Reserved mem root (pages.map (⟨·, pageSize⟩)) := by
  have bases : ∀ call ∈ pages.map (Reservation.mk · pageSize),
      (tablePages mem).Below root call.base ∧ call.size = pageSize := by
    intro call member
    obtain ⟨page, here, rfl⟩ := List.mem_map.mp member
    exact ⟨(all page).mp here, rfl⟩
  refine ⟨fun page below => ?_, bases, fun page i _ _ other call member same => ?_⟩
  · have injective : Function.Injective (Reservation.mk · (pageSize : Word x)) :=
      fun _ _ same => congrArg Reservation.base same
    exact (List.count_map_of_injective pages _ injective page).trans
      (List.count_eq_one_of_mem distinct ((all page).mpr below))
  · exact other (same ▸ (bases call member).1)

instance : Finite (Word x) := Finite.of_injective BitVec.toFin fun _ _ => BitVec.eq_of_toFin_eq

/-- The function ends for every table that is a tree of pages, wherever the kernel has mapped
physical memory and whatever was reserved before, with a call for each page of the tree. -/
theorem reserveBootPageTable_reserved (k : Context x) (mem : Tables x) {root : Word x}
    (tree : (tablePages mem).IsTree root) :
    ∃ calls, Reserved mem root calls ∧ ∃ enough, ∀ fuel ≥ enough, ∀ before,
      reserveBootPageTable k (linear k mem) fuel (va k root) before = some (before ++ calls) := by
  obtain ⟨pages, visits⟩ := tree.visits (memblockReserve · · pageSize)
  obtain ⟨enough, walks⟩ := visits.visit
  refine ⟨pages.map (⟨·, pageSize⟩), reserved_map visits.nodup visits.mem, enough,
    fun fuel more before => ?_⟩
  rw [reserveBootPageTable_eq, walks fuel more, foldl_memblockReserve]

/-- A page whose first entry points to another page, and whose second maps a third. -/
def twoPages : Tables .rv32 := fun a =>
  if a = 0x1000 then 0x801 else if a = 0x1004 then 0xc0f else 0

theorem twoPages_points {page next : Word .rv32} {i : Nat}
    (points : (tablePages twoPages).Points page i next) :
    i < 1024 ∧ entryAt page (BitVec.ofNat _ i) = 0x1000 ∧ next = 0x2000 := by
  obtain ⟨inside, pointer, rfl⟩ := points_iff.mp points
  refine ⟨Nat.lt_of_lt_of_eq inside (by decide), ?_⟩
  generalize entryAt page (BitVec.ofNat _ i) = a at pointer ⊢
  by_cases first : a = 0x1000
  · exact ⟨first, by rw [first]; decide⟩
  · rw [twoPages, if_neg first] at pointer
    split at pointer <;> exact absurd pointer (by decide)

theorem twoPages_below {page : Word .rv32} (below : (tablePages twoPages).Below 0x1000 page) :
    page = 0x1000 ∨ page = 0x2000 := by
  rcases below.cases_tail with same | ⟨_, _, i, points⟩
  · exact .inl same
  · exact .inr (twoPages_points points).2.2

/-- The first entry of the first page is the only one that points to a page. -/
theorem twoPages_slot {page next : Word .rv32} {i : Nat}
    (below : (tablePages twoPages).Below 0x1000 page)
    (points : (tablePages twoPages).Points page i next) : page = 0x1000 ∧ i = 0 := by
  obtain ⟨small, place, -⟩ := twoPages_points points
  have offset : (page.toNat + i * 4) % 2 ^ 32 = 0x1000 := by
    have value := congrArg BitVec.toNat place
    rwa [entryAt, BitVec.toNat_add, BitVec.toNat_mul, BitVec.toNat_ofNat, BitVec.toNat_ofNat,
      Nat.mod_eq_of_lt (a := i) (Nat.lt_trans small (by decide)), Nat.add_mod_mod] at value
  rcases twoPages_below below with rfl | rfl
  · change (0x1000 + i * 4) % 2 ^ 32 = 0x1000 at offset
    exact ⟨rfl, by omega⟩
  · change (0x2000 + i * 4) % 2 ^ 32 = 0x1000 at offset
    omega

theorem twoPages_isTree : (tablePages twoPages).IsTree 0x1000 := by
  refine ⟨fun a below edge => ?_, fun a b i j c ha hb first second => ?_⟩
  · rcases edge with ⟨i, points⟩
    exact absurd (twoPages_points points).2.2 (by decide)
  · obtain ⟨rfl, rfl⟩ := twoPages_slot ha first
    obtain ⟨rfl, rfl⟩ := twoPages_slot hb second
    exact ⟨rfl, rfl⟩

theorem reserveBootPageTable_reserved_twoPages :
    ∃ calls, Reserved twoPages 0x1000 calls ∧ ∃ enough, ∀ fuel ≥ enough, ∀ before,
      reserveBootPageTable ⟨0xbf000000, 1, 0⟩ (linear ⟨0xbf000000, 1, 0⟩ twoPages) fuel
        (va ⟨0xbf000000, 1, 0⟩ 0x1000) before = some (before ++ calls) :=
  reserveBootPageTable_reserved _ twoPages twoPages_isTree

end RiscvLinux.Mm.BootTable
