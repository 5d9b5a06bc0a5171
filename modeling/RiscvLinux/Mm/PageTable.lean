import RiscvLinux.Lib.Forest
import RiscvLinux.Mm.BootTable

/-!
# Page tables that are written

The functions of `arch/riscv/include/asm/pgalloc.h` and `pgtable.h` that make the tables of a
process and write their entries, on the words of memory, and what they do to the tables taken as
pages with an entry for every index. A pointer to a page that `pmd_populate` or `pud_populate`
writes is read back as that page (`child_tableEntry`).
-/

namespace RiscvLinux.Mm.PageTable

open Lib Trap VmallocFault BootTable

variable {x : XLen}

/-! ## The code -/

/-- `_PAGE_TABLE` -/
def pageTable : Word x := pagePresent

/-- `virt_to_pfn` -/
def virtToPfn (k : Context x) (vaddr : Word x) : Word x := pa k vaddr >>> pageShift

/-- What `pmd_populate`, `pmd_populate_kernel` and `pud_populate` write for a page -/
def tableEntry (k : Context x) (vaddr : Word x) : Word x :=
  virtToPfn k vaddr <<< pagePfnShift ||| pageTable

/-- `pmd_populate`, with the address of the page, and `pmd_populate_kernel` -/
def pmdPopulate (k : Context x) (m : Tables x) (pmd pte : Word x) : Tables x :=
  setPmd m pmd (tableEntry k pte)

/-- `pud_populate`, where the middle directory is not folded -/
def pudPopulate (k : Context x) (m : Tables x) (pud pmd : Word x) : Tables x :=
  setPud m pud (tableEntry k pmd)

def pmdClear (m : Tables x) (pmdp : Word x) : Tables x := setPmd m pmdp 0

def pudClear (m : Tables x) (pudp : Word x) : Tables x := setPud m pudp 0

def pmdNone (pmd : Word x) : Bool := pmd == 0

def pudNone (pud : Word x) : Bool := pud == 0

/-- `set_pte` -/
def setPte (m : Tables x) (ptep pteval : Word x) : Tables x := Function.update m ptep pteval

/-- `set_pte_at`; `pte_clear` sets it to zero. -/
def setPteAt (m : Tables x) (_addr ptep pteval : Word x) : Tables x := setPte m ptep pteval

/-- `USER_PTRS_PER_PGD` -/
def userPtrsPerPgd : XLen → Nat
  | .rv32 => ((Fault.vmallocStart : Word .rv32) >>> pgdirShift .rv32).toNat
  | .rv64 => ptrsPerPte .rv64 / 2

/-- Stores to entries of a page, one after the other -/
def storeEntries (m : Tables x) (page : Word x) (from' len : Nat) (v : Nat → Word x) : Tables x :=
  (List.range len).foldl
    (fun m i => Function.update m (entryAt page (BitVec.ofNat _ (from' + i))) (v (from' + i))) m

/-- What the allocator leaves of a page for `__GFP_ZERO` -/
def zeroPage (m : Tables x) (page : Word x) : Tables x :=
  storeEntries m page 0 (ptrsPerPte x) fun _ => 0

/-- `pgd_alloc` with this page of the allocator: `memset` and `memcpy` -/
def pgdAlloc (k : Context x) (m : Tables x) (pgd : Word x) : Tables x :=
  let m := storeEntries m pgd 0 (userPtrsPerPgd x) fun _ => 0
  storeEntries m pgd (userPtrsPerPgd x) (ptrsPerPte x - userPtrsPerPgd x)
    fun i => m (entryAt k.initPgd (BitVec.ofNat _ i))

/-- `pgd_offset` -/
def pgdOffset (pgd addr : Word x) : Word x := entryAt pgd (pgdIndex addr)

/-! ## Pages -/

/-- A page, by its address -/
@[ext]
structure Page (x : XLen) where
  addr : Word x
  aligned : addr.toNat % 4096 = 0
  deriving DecidableEq

/-- An index of an entry in its table -/
abbrev Index (x : XLen) : Type := Fin (ptrsPerPte x)

/-- The address of an entry -/
def slot (p : Page x) (i : Index x) : Word x := entryAt p.addr (BitVec.ofNat _ i)

/-- The entries of the pages -/
def tables (m : Tables x) : Page x → Index x → Word x := fun p i => m (slot p i)

/-- How many levels there are above the lowest -/
def depth : XLen → Nat
  | .rv32 => 1
  | .rv64 => 2

/-- A page ends before the last word. -/
theorem Page.fits (p : Page x) : p.addr.toNat + 4096 ≤ 2 ^ x.bits := by
  have aligned := p.aligned
  have bound := p.addr.isLt
  have whole : 2 ^ x.bits % 4096 = 0 := by cases x <;> decide
  omega

theorem Index.fits (i : Index x) : i.val * x.szreg < 4096 := by
  have inside := i.isLt
  cases x with
  | rv32 | rv64 =>
    simp only [ptrsPerPte, XLen.szreg] at inside ⊢
    omega

theorem toNat_slot (p : Page x) (i : Index x) :
    (slot p i).toNat = p.addr.toNat + i.val * x.szreg := by
  have page := p.fits
  have offset := Index.fits i
  have size : x.szreg < 2 ^ x.bits := by cases x <;> decide
  have index : i.val < 2 ^ x.bits := by
    have positive := x.szreg_pos
    have below := Nat.le_mul_of_pos_right i.val positive
    omega
  rw [slot, entryAt, BitVec.toNat_add, BitVec.toNat_mul, BitVec.toNat_ofNat, BitVec.toNat_ofNat,
    Nat.mod_eq_of_lt index, Nat.mod_eq_of_lt size,
    Nat.mod_eq_of_lt (a := i.val * x.szreg) (by omega), Nat.mod_eq_of_lt (by omega)]

theorem slot_inj {p q : Page x} {i j : Index x} (same : slot p i = slot q j) : p = q ∧ i = j := by
  have equal := congrArg BitVec.toNat same
  rw [toNat_slot, toNat_slot] at equal
  have first := p.aligned
  have second := q.aligned
  have offset := Index.fits i
  have offset' := Index.fits j
  have one_page : p.addr.toNat = q.addr.toNat := by omega
  have index : i.val = j.val :=
    Nat.eq_of_mul_eq_mul_right x.szreg_pos (by omega)
  exact ⟨Page.ext (BitVec.eq_of_toNat_eq one_page), Fin.ext index⟩

/-- A write to an entry -/
theorem tables_update (m : Tables x) (p : Page x) (i : Index x) (v : Word x) :
    tables (Function.update m (slot p i) v) = putEntry (tables m) p i v := by
  funext q j
  rw [tables]
  by_cases here : (q, j) = (p, i)
  · obtain ⟨rfl, rfl⟩ := Prod.mk.inj here
    rw [Function.update_self, putEntry_self]
  · have elsewhere : slot q j ≠ slot p i := fun same => by
      obtain ⟨rfl, rfl⟩ := slot_inj same
      exact here rfl
    rw [Function.update_of_ne elsewhere, putEntry_of_ne here, tables]

/-- The stores to entries of a page -/
theorem tables_storeEntries (m : Tables x) (p q : Page x) (from' len : Nat)
    (inside : from' + len ≤ ptrsPerPte x) (v : Nat → Word x) (j : Index x) :
    tables (storeEntries m p.addr from' len v) q j
      = if q = p ∧ from' ≤ j.val ∧ j.val < from' + len then v j else tables m q j := by
  induction len with
  | zero =>
    rw [if_neg (by omega)]
    rfl
  | succ len ih =>
    have last : from' + len < ptrsPerPte x := by omega
    have one : storeEntries m p.addr from' (len + 1) v
        = Function.update (storeEntries m p.addr from' len v) (slot p ⟨from' + len, last⟩)
          (v (from' + len)) := by
      rw [storeEntries, List.range_succ, List.foldl_append]
      rfl
    rw [one, tables_update]
    by_cases here : (q, j) = (p, ⟨from' + len, last⟩)
    · obtain ⟨rfl, rfl⟩ := Prod.mk.inj here
      rw [putEntry_self, if_pos ⟨rfl, Nat.le_add_right .., by simp⟩]
    · rw [putEntry_of_ne here, ih (by omega)]
      have other : ¬ (q = p ∧ j.val = from' + len) := by
        rintro ⟨rfl, index⟩
        exact here (congrArg _ (Fin.ext index))
      congr 1
      grind

theorem tables_zeroPage (m : Tables x) (p q : Page x) (j : Index x) :
    tables (zeroPage m p.addr) q j = if q = p then 0 else tables m q j := by
  rw [zeroPage, tables_storeEntries m p q 0 (ptrsPerPte x) (by omega)]
  have inside := j.isLt
  congr 1
  grind

theorem userPtrsPerPgd_le (x : XLen) : userPtrsPerPgd x ≤ ptrsPerPte x := by
  cases x <;> decide

/-- The new table has the entries of `init_mm` for the kernel, and none for the process. -/
theorem tables_pgdAlloc (k : Context x) (m : Tables x) {init r : Page x}
    (base : k.initPgd = init.addr) (apart : init ≠ r) (q : Page x) (j : Index x) :
    tables (pgdAlloc k m r.addr) q j
      = if q = r then (if j.val < userPtrsPerPgd x then 0 else tables m init j)
        else tables m q j := by
  have within := userPtrsPerPgd_le x
  have inside := j.isLt
  have kept : ∀ i : Index x, tables (storeEntries m r.addr 0 (userPtrsPerPgd x) fun _ => 0) init i
      = tables m init i := by
    intro i
    rw [tables_storeEntries m r init 0 _ (by omega), if_neg fun both => apart both.1]
  rw [pgdAlloc, tables_storeEntries _ r q _ _ (by omega), tables_storeEntries m r q 0 _ (by omega),
    base]
  by_cases here : q = r
  · rw [if_pos here]
    by_cases user : j.val < userPtrsPerPgd x
    · rw [if_pos user, if_neg (by omega), if_pos ⟨here, by omega, by omega⟩]
    · rw [if_neg user, if_pos ⟨here, by omega, by omega⟩]
      exact kept j
  · rw [if_neg here, if_neg fun both => here both.1, if_neg fun both => here both.1]

/-! ## Pointers to pages -/

/-- Where the kernel maps memory, and the table of `init_mm` -/
structure Mapping (x : XLen) where
  vaPaOffset : Word x
  aligned : vaPaOffset.toNat % 4096 = 0
  initPgd : Page x

/-- The context of a hart with this page frame in `sptbr` -/
def Mapping.context (K : Mapping x) (sptbr : Word x) : Context x :=
  ⟨K.vaPaOffset, sptbr, K.initPgd.addr⟩

section

variable (K : Mapping x) (sptbr : Word x)

theorem pageVaddr_aligned (entry : Word x) :
    ((K.context sptbr).pageVaddr entry).toNat % 4096 = 0 := by
  have whole : 4096 ∣ 2 ^ x.bits := by cases x <;> decide
  have aligned := K.aligned
  rw [Context.pageVaddr, Context.pfnToVirt, BitVec.toNat_add, Nat.mod_mod_of_dvd _ whole,
    BitVec.toNat_shiftLeft, Nat.shiftLeft_eq, Nat.add_mod, Nat.mod_mod_of_dvd _ whole]
  have size : 2 ^ pageShift = 4096 := rfl
  rw [size, Nat.mul_mod_left, Mapping.context, aligned]

/-- The page that an entry names -/
def pageOf (entry : Word x) : Page x :=
  ⟨(K.context 0).pageVaddr entry, pageVaddr_aligned K 0 entry⟩

/-- The page that an entry points to: it is present, and is no leaf. -/
def child (entry : Word x) : Option (Page x) :=
  if ptePresent entry && !pteLeaf entry then some (pageOf K entry) else none

theorem child_zero : child K 0 = none := by
  refine if_neg ?_
  cases x <;> decide

/-- The entries of the tables -/
def entries : TableEntries (Page x) (Word x) := ⟨child K, 0, child_zero K⟩

/-- The address of a page in physical memory -/
theorem pa_aligned (p : Page x) : (pa (K.context sptbr) p.addr).toNat % 4096 = 0 := by
  have whole : 4096 ∣ 2 ^ x.bits := by cases x <;> decide
  have page := p.aligned
  have offset := K.aligned
  have bound := K.vaPaOffset.isLt
  change (p.addr - K.vaPaOffset).toNat % 4096 = 0
  rw [BitVec.toNat_sub, Nat.mod_mod_of_dvd _ whole]
  omega

/-- The bits of a pointer: that it is present, and the page frame -/
theorem getLsbD_tableEntry (vaddr : Word x) {i : Nat} (inside : i < x.bits) :
    (tableEntry (K.context sptbr) vaddr).getLsbD i
      = if i < 10 then decide (i = 0) else (pa (K.context sptbr) vaddr).getLsbD (i + 2) := by
  have one : (pagePresent : Word x).getLsbD i = decide (i = 0) := by
    have bit : (pagePresent : Word x) = BitVec.twoPow _ 0 := by cases x <;> rfl
    rw [bit, BitVec.getLsbD_twoPow,
      decide_eq_true (Nat.lt_of_le_of_lt (Nat.zero_le i) inside), Bool.true_and]
    exact decide_eq_decide.mpr eq_comm
  rw [tableEntry, virtToPfn, BitVec.getLsbD_or, BitVec.getLsbD_shiftLeft,
    BitVec.getLsbD_ushiftRight, pageTable, one]
  have frame : pagePfnShift = 10 := rfl
  have page : pageShift = 12 := rfl
  rw [frame, page, decide_eq_true inside]
  by_cases low : i < 10
  · rw [if_pos low, decide_eq_true low]
    rfl
  · rw [if_neg low, decide_eq_false low, decide_eq_false (by omega : ¬ i = 0), Bool.or_false,
      show 12 + (i - 10) = i + 2 by omega]
    rfl

theorem getLsbD_pa (p : Page x) {i : Nat} (low : i < 12) :
    (pa (K.context sptbr) p.addr).getLsbD i = false := by
  have bits := Nat.testBit_mod_two_pow (pa (K.context sptbr) p.addr).toNat 12 i
  rw [show 2 ^ 12 = 4096 from rfl, pa_aligned K sptbr p, Nat.zero_testBit, decide_eq_true low,
    Bool.true_and] at bits
  exact bits.symm

/-- The page frame of a pointer leads back to the page. -/
theorem pageVaddr_tableEntry (p : Page x) :
    (K.context 0).pageVaddr (tableEntry (K.context sptbr) p.addr) = p.addr := by
  have frame : pagePfnShift = 10 := rfl
  have page : pageShift = 12 := rfl
  have physical : tableEntry (K.context sptbr) p.addr >>> pagePfnShift <<< pageShift
      = pa (K.context sptbr) p.addr := by
    refine BitVec.eq_of_getLsbD_eq fun i inside => ?_
    rw [BitVec.getLsbD_shiftLeft, BitVec.getLsbD_ushiftRight, frame, page, decide_eq_true inside]
    by_cases low : i < 12
    · rw [decide_eq_true low, getLsbD_pa K sptbr p low]
      rfl
    · rw [decide_eq_false low, show 10 + (i - 12) = i - 2 by omega,
        getLsbD_tableEntry K sptbr p.addr (by omega), if_neg (by omega),
        show i - 2 + 2 = i by omega]
      rfl
  rw [Context.pageVaddr, Context.pfnToVirt, physical]
  exact BitVec.sub_add_cancel ..

/-- A page is read back from the pointer to it. -/
theorem child_tableEntry (p : Page x) : child K (tableEntry (K.context sptbr) p.addr) = some p := by
  have room : 3 < x.bits := by cases x <;> decide
  have low (i : Nat) (small : i < 4) :
      (tableEntry (K.context sptbr) p.addr).getLsbD i = decide (i = 0) := by
    rw [getLsbD_tableEntry K sptbr p.addr (by omega), if_pos (by omega)]
  have pointer : IsPointer (tableEntry (K.context sptbr) p.addr) :=
    ⟨low 0 (by decide), low 1 (by decide), low 2 (by decide), low 3 (by decide)⟩
  have inner := (isPointer_iff _).mpr pointer
  rw [pteHuge, Bool.not_and, Bool.and_or_distrib_left, Bool.and_not_self, Bool.false_or] at inner
  rw [child, if_pos inner]
  exact congrArg some (Page.ext (pageVaddr_tableEntry K sptbr p))

end

/-! ## The way to an entry -/

theorem toNat_and_ptrsMask_lt (v : Word x) : (v &&& ptrsMask).toNat < ptrsPerPte x := by
  have below : (v &&& ptrsMask).toNat ≤ (ptrsMask : Word x).toNat := by
    rw [BitVec.toNat_and]
    exact Nat.and_le_right
  have mask : (ptrsMask : Word x).toNat < ptrsPerPte x := by cases x <;> decide
  omega

/-- The index that an address has in the tables of a level -/
def index (shift : Nat) (addr : Word x) : Index x :=
  ⟨(addr >>> shift &&& ptrsMask).toNat, toNat_and_ptrsMask_lt _⟩

theorem ofNat_index (shift : Nat) (addr : Word x) :
    BitVec.ofNat x.bits (index shift addr).val = addr >>> shift &&& ptrsMask := by
  rw [index, BitVec.ofNat_toNat, BitVec.setWidth_eq]

/-- The index of an address in the highest table -/
def topIndex (addr : Word x) : Index x := index (pgdirShift x) addr

/-- Its indices in the others, from above -/
def lowerIndices : {x : XLen} → (addr : Word x) → List (Index x)
  | .rv32, addr => [index pageShift addr]
  | .rv64, addr => [index pmdShift addr, index pageShift addr]

theorem length_lowerIndices (addr : Word x) : (lowerIndices addr).length = depth x := by
  cases x <;> rfl

/-- `pgd_offset`, `pud_offset`: the upper directory is folded. -/
def pudAt (pgd addr : Word x) : Word x := pudOffset (pgdOffset pgd addr) addr

/-- The entry of the middle directory, or the one above where it is folded -/
def pmdAt (k : Context x) (m : Tables x) (pgd addr : Word x) : Word x :=
  pmdOffset k m (pudAt pgd addr) addr

/-- `pte_offset_map` -/
def pteAt (k : Context x) (m : Tables x) (pgd addr : Word x) : Word x :=
  pteOffsetKernel k m (pmdAt k m pgd addr) addr

/-- An entry points to a table. -/
def hasTable (entry : Word x) : Bool := ptePresent entry && !pteLeaf entry

/-- There is a middle directory for the address, or it is folded. -/
def hasPmd : {x : XLen} → (m : Tables x) → (pgd addr : Word x) → Bool
  | .rv32, _, _, _ => true
  | .rv64, m, pgd, addr => hasTable (m (pudAt pgd addr))

/-- There is a lowest table for the address. -/
def hasPte (k : Context x) (m : Tables x) (pgd addr : Word x) : Bool :=
  hasPmd m pgd addr && hasTable (m (pmdAt k m pgd addr))

section

variable (K : Mapping x) {m : Tables x} {r : Page x} {addr : Word x}

theorem child_of_hasTable {entry : Word x} (table : hasTable entry = true) :
    ∃ q, child K entry = some q ∧ q.addr = (K.context 0).pageVaddr entry :=
  ⟨_, if_pos table, rfl⟩

theorem hasTable_of_child {entry : Word x} {q : Page x} (below : child K entry = some q) :
    hasTable entry = true ∧ q.addr = (K.context 0).pageVaddr entry := by
  rw [child, Option.ite_none_right_eq_some] at below
  rcases below with ⟨table, same⟩
  cases same
  exact ⟨table, rfl⟩

/-- The entry at an index of an address in a page -/
theorem entryAt_index (q : Page x) (shift : Nat) (addr : Word x) :
    entryAt q.addr (addr >>> shift &&& ptrsMask) = slot q (index shift addr) := by
  rw [slot, ofNat_index]

theorem pudAt_eq (r : Page x) (addr : Word x) : pudAt r.addr addr = slot r (topIndex addr) :=
  entryAt_index r _ addr

/-- The entry for the lowest table is one of the highest table, or of one below it. -/
theorem pmdAt_cases (table : hasPmd m r.addr addr = true) :
    ∃ q i, pmdAt (K.context 0) m r.addr addr = slot q i ∧
      (depth x = 1 ∧ q = r ∧ i = topIndex addr ∧ lowerIndices addr = [index pageShift addr] ∨
        depth x = 2 ∧ child K (tables m r (topIndex addr)) = some q ∧
          lowerIndices addr = [i, index pageShift addr]) := by
  cases x with
  | rv32 => exact ⟨r, topIndex addr, pudAt_eq r addr, .inl ⟨rfl, rfl, rfl, rfl⟩⟩
  | rv64 =>
    obtain ⟨q, below, page⟩ := child_of_hasTable K table
    rw [pudAt_eq r addr] at below page
    refine ⟨q, index pmdShift addr, ?_, .inr ⟨rfl, below, rfl⟩⟩
    rw [pmdAt, pmdOffset, pudAt_eq, ← page]
    exact entryAt_index q pmdShift addr

/-- The walk of the code comes to the entry that the walk down the tables finds. -/
theorem find_pteAt (table : hasPte (K.context 0) m r.addr addr = true) :
    ∃ q j, pteAt (K.context 0) m r.addr addr = slot q j ∧
      (entries K).find (tables m) r (topIndex addr) (lowerIndices addr) = some (q, j) := by
  rw [hasPte, Bool.and_eq_true] at table
  rcases table with ⟨middle, lowest⟩
  obtain ⟨p, i, there, place⟩ := pmdAt_cases K middle
  rw [there] at lowest
  obtain ⟨q, below, page⟩ := child_of_hasTable K lowest
  refine ⟨q, index pageShift addr, ?_, ?_⟩
  · rw [pteAt, there, pteOffsetKernel, ← page]
    exact entryAt_index q pageShift addr
  · rcases place with ⟨-, rfl, rfl, indices⟩ | ⟨-, above, indices⟩
    · rw [indices]
      exact Option.bind_eq_some_iff.mpr ⟨q, below, rfl⟩
    · rw [indices]
      exact Option.bind_eq_some_iff.mpr ⟨p, above, Option.bind_eq_some_iff.mpr ⟨q, below, rfl⟩⟩

/-- `virt_to_pfn` and back -/
theorem pfnToVirt_virtToPfn (sptbr : Word x) (p : Page x) :
    (K.context sptbr).pfnToVirt (virtToPfn (K.context sptbr) p.addr) = p.addr := by
  have page : pageShift = 12 := rfl
  have physical : virtToPfn (K.context sptbr) p.addr <<< pageShift
      = pa (K.context sptbr) p.addr := by
    refine BitVec.eq_of_getLsbD_eq fun i inside => ?_
    rw [virtToPfn, BitVec.getLsbD_shiftLeft, BitVec.getLsbD_ushiftRight, page,
      decide_eq_true inside]
    by_cases low : i < 12
    · rw [decide_eq_true low, getLsbD_pa K sptbr p low]
      rfl
    · rw [decide_eq_false low, show 12 + (i - 12) = i by omega]
      rfl
  rw [Context.pfnToVirt, physical]
  exact BitVec.sub_add_cancel ..

/-! ## The walk of the hardware -/

/-- What a hart translates by: an entry that is present -/
def present : Option (Nat × Word x) → Option (Word x)
  | some (_, e) => if ptePresent e then some e else none
  | none => none

theorem ptePresent_zero : ptePresent (0 : Word x) = false := by
  cases x <;> decide

theorem present_seen (l : Nat) (e : Word x) :
    present ((entries K).seen l e) = if ptePresent e then some e else none := by
  rw [TableEntries.seen]
  by_cases empty : e = (entries K).empty
  · rw [if_pos empty, empty]
    exact (if_neg (ptePresent_zero ▸ Bool.false_ne_true)).symm
  · rw [if_neg empty]
    rfl

/-- A hart stops at an entry that points to no table. -/
theorem walk_slot_none (sptbr : Word x) {p : Page x} {i : Index x} (l : Nat)
    (next : Word x → Word x) (below : List (Word x → Word x))
    (down : child K (tables m p i) = none) :
    ((K.context sptbr).radix.walk m (slot p i) (next :: below)).map m
      = present ((entries K).seen l (tables m p i)) := by
  rw [present_seen]
  change child K (m (slot p i)) = none at down
  change _ = if ptePresent (m (slot p i)) then some (m (slot p i)) else none
  cases there : ptePresent (m (slot p i)) with
  | false =>
    rw [Radix.walk_absent there]
    rfl
  | true =>
    have leaf : pteLeaf (m (slot p i)) = true := by
      rw [child, there, Bool.true_and] at down
      cases inner : pteLeaf (m (slot p i)) with
      | true => rfl
      | false =>
        rw [inner] at down
        cases down
    have shown : (K.context sptbr).radix.present (m (slot p i)) = true := there
    have ends : (K.context sptbr).radix.leaf (m (slot p i)) = true := leaf
    rw [Radix.walk, shown, ends]
    rfl

/-- It goes on from one that does. -/
theorem walk_slot_some (sptbr : Word x) {p q : Page x} {i : Index x} (next : Word x → Word x)
    (below : List (Word x → Word x)) (down : child K (tables m p i) = some q) :
    (K.context sptbr).radix.walk m (slot p i) (next :: below)
      = (K.context sptbr).radix.walk m (next q.addr) below := by
  obtain ⟨table, page⟩ := hasTable_of_child K down
  rw [hasTable, Bool.and_eq_true, Bool.not_eq_true'] at table
  have shown : (K.context sptbr).radix.present (m (slot p i)) = true := table.1
  have inner : (K.context sptbr).radix.leaf (m (slot p i)) = false := table.2
  rw [Radix.walk_inner shown inner]
  exact congrArg (fun a => (K.context sptbr).radix.walk m (next a) below) page.symm

theorem walk_last (sptbr : Word x) (p : Page x) (i : Index x) :
    ((K.context sptbr).radix.walk m (slot p i) []).map m
      = present ((entries K).read (tables m) p i []) := by
  rw [TableEntries.read, present_seen]
  change (if ptePresent (m (slot p i)) then some (slot p i) else none).map m = _
  split
  · next there => exact (if_pos there).symm
  · next absent => exact (if_neg absent).symm

/-- A hart with this table comes to the entry that is read, if it is present. -/
theorem walk_eq_read (sptbr : Word x) (m : Tables x) (r : Page x) (addr : Word x) :
    ((K.context sptbr).radix.walk m (pgdOffset r.addr addr) (levels addr)).map m
      = present ((entries K).read (tables m) r (topIndex addr) (lowerIndices addr)) := by
  have start : pgdOffset r.addr addr = slot r (topIndex addr) := pudAt_eq r addr
  have lowest (q : Page x) : entryAt q.addr (pteIndex addr) = slot q (index pageShift addr) :=
    entryAt_index q pageShift addr
  have last (p : Page x) (i : Index x) :
      ((K.context sptbr).radix.walk m (slot p i) [(entryAt · (pteIndex addr))]).map m
        = present ((entries K).read (tables m) p i [index pageShift addr]) := by
    cases down : child K (tables m p i) with
    | none => rw [walk_slot_none K sptbr 1 _ _ down, (entries K).read_of_none down]; rfl
    | some q =>
      rw [walk_slot_some K sptbr _ _ down, (entries K).read_of_child down, lowest]
      exact walk_last K sptbr q _
  rw [start]
  cases x with
  | rv32 => exact last r _
  | rv64 =>
    have middle (q : Page .rv64) : entryAt q.addr (pmdIndex addr) = slot q (index pmdShift addr) :=
      entryAt_index q pmdShift addr
    rw [levels, lowerIndices]
    cases down : child K (tables m r (topIndex addr)) with
    | none => rw [walk_slot_none K sptbr 2 _ _ down, (entries K).read_of_none down]; rfl
    | some q =>
      rw [walk_slot_some K sptbr _ _ down, (entries K).read_of_child down, middle]
      exact last q _

end

end RiscvLinux.Mm.PageTable
