import RiscvLinux.Lib.Radix
import RiscvLinux.Mm.Fault
import RiscvLinux.Mm.Pgtable

/-!
# Faults in the `vmalloc` area

`vmalloc_fault` of `arch/riscv/mm/fault.c` on the tables themselves, for both layouts: that of
`pgtable-32.h` has the upper and the middle level folded, that of `pgtable-64.h` the upper one. It
copies the entry of the top level from the table of `init_mm` into the current one; behind that
entry the two tables are the same, so that what it writes in the middle level is there already
(`vmallocFault_tables`).
-/

namespace RiscvLinux.Mm.VmallocFault

open Lib Trap

variable {x : XLen}

/-! ## Entries -/

/-- The entries of tables, by their addresses -/
abbrev Tables (x : XLen) : Type := Word x → Word x

def pgdirShift : XLen → Nat
  | .rv32 => 22
  | .rv64 => 30

def pmdShift : Nat := 21

def pageShift : Nat := 12

/-- `PTRS_PER_PGD`, `PTRS_PER_PMD` and `PTRS_PER_PTE`, less one -/
def ptrsMask : Word x := BitVec.ofNat _ (4096 / x.szreg - 1)

def pgdIndex (addr : Word x) : Word x := addr >>> pgdirShift x &&& ptrsMask

def pmdIndex (addr : Word x) : Word x := addr >>> pmdShift &&& ptrsMask

def pteIndex (addr : Word x) : Word x := addr >>> pageShift &&& ptrsMask

/-- The sum of a pointer to an entry and an index -/
def entryAt (table index : Word x) : Word x := table + index * BitVec.ofNat _ x.szreg

/-- `va_pa_offset`, `sptbr` and `init_mm.pgd` -/
structure Context (x : XLen) where
  vaPaOffset : Word x
  sptbr : Word x
  initPgd : Word x

/-- `pfn_to_virt` -/
def Context.pfnToVirt (k : Context x) (pfn : Word x) : Word x :=
  pfn <<< pageShift + k.vaPaOffset

/-- `pmd_page_vaddr` and `pud_page_vaddr` -/
def Context.pageVaddr (k : Context x) (entry : Word x) : Word x :=
  k.pfnToVirt (entry >>> pagePfnShift)

/-- `pgd_present` of `pgtable-nopud.h`: the upper directory is folded in both layouts. -/
def pgdPresent (_ : Word x) : Bool := true

/-- `pud_present`: that of `pgtable-nopmd.h` where the middle directory is folded -/
def pudPresent : {x : XLen} → Word x → Bool
  | .rv32, _ => true
  | .rv64, pud => pud &&& pagePresent != 0

def pmdPresent (pmd : Word x) : Bool :=
  pmd &&& pagePresent != 0

/-- `pte_huge`, less the test that it is present -/
def pteLeaf (pte : Word x) : Bool :=
  pte &&& (pageRead ||| pageWrite ||| pageExec) != 0

def setPmd (m : Tables x) (pmdp pmd : Word x) : Tables x := Function.update m pmdp pmd

/-- `set_pud`: that of `pgtable-nopmd.h` is `set_pmd`. -/
def setPud : {x : XLen} → (m : Tables x) → (pudp pud : Word x) → Tables x
  | .rv32, m, pudp, pud => setPmd m pudp pud
  | .rv64, m, pudp, pud => Function.update m pudp pud

/-- `set_pgd` of `pgtable-nopud.h` -/
def setPgd (m : Tables x) (pgdp pgd : Word x) : Tables x := setPud m pgdp pgd

/-- `pud_offset` of `pgtable-nopud.h` -/
def pudOffset (pgd _addr : Word x) : Word x := pgd

/-- `pmd_offset`: that of `pgtable-nopmd.h` where the middle directory is folded -/
def pmdOffset : {x : XLen} → Context x → Tables x → (pud addr : Word x) → Word x
  | .rv32, _, _, pud, _ => pud
  | .rv64, k, m, pud, addr => entryAt (k.pageVaddr (m pud)) (pmdIndex addr)

def pteOffsetKernel (k : Context x) (m : Tables x) (pmd addr : Word x) : Word x :=
  entryAt (k.pageVaddr (m pmd)) (pteIndex addr)

/-! ## The fault -/

/-- How `vmalloc_fault` is left -/
inductive Ended
  | badArea
  | noContext
  | returned
  deriving DecidableEq, Repr

/-- The entry of the top level of the current table -/
def Context.pgd (k : Context x) (addr : Word x) : Word x :=
  entryAt (k.pfnToVirt k.sptbr) (pgdIndex addr)

/-- That of the reference table -/
def Context.pgdK (k : Context x) (addr : Word x) : Word x :=
  entryAt k.initPgd (pgdIndex addr)

/-- `vmalloc_fault:` from the test of `pud_k` on -/
def pmdFault (k : Context x) (addr : Word x) (m : Tables x) : Tables x × Ended :=
  let pud := pudOffset (k.pgd addr) addr
  let pudK := pudOffset (k.pgdK addr) addr
  if !pudPresent (m pudK) then (m, .noContext)
  else
    let pmd := pmdOffset k m pud addr
    let pmdK := pmdOffset k m pudK addr
    if !pmdPresent (m pmdK) then (m, .noContext)
    else
      let m := setPmd m pmd (m pmdK)
      let pteK := pteOffsetKernel k m pmdK addr
      if !ptePresent (m pteK) then (m, .noContext) else (m, .returned)

/-- `vmalloc_fault:` -/
def vmallocFault (k : Context x) (sstatus addr : Word x) (m : Tables x) : Tables x × Ended :=
  if userMode sstatus then (m, .badArea)
  else if !pgdPresent (m (k.pgdK addr)) then (m, .noContext)
  else pmdFault k addr (setPgd m (k.pgd addr) (m (k.pgdK addr)))

/-! ## The walk -/

/-- The entries of the tables: a page is mapped by one that can be read, written or executed. -/
def Context.radix (k : Context x) : Radix (Word x) (Word x) :=
  ⟨ptePresent, pteLeaf, k.pageVaddr⟩

/-- The levels below the top one -/
def levels : {x : XLen} → (addr : Word x) → List (Word x → Word x)
  | .rv32, addr => [(entryAt · (pteIndex addr))]
  | .rv64, addr => [(entryAt · (pmdIndex addr)), (entryAt · (pteIndex addr))]

/-- The tables after a fault of the kernel, from what they were before: `init_mm` maps the address
where the fault returns, and the current table then maps it by the same entry; nothing is changed
but the entries of the current table on the way to the address, and they are as in `init_mm`. -/
structure Synced (k : Context x) (addr : Word x) (m : Tables x) (r : Tables x × Ended) : Prop where
  returned : r.2 = .returned → ∃ pte, k.radix.walk r.1 (k.pgdK addr) (levels addr) = some pte ∧
    k.radix.walk r.1 (k.pgd addr) (levels addr) = some pte ∧ ptePresent (r.1 pte) = true
  changed : ∀ a, r.1 a ≠ m a → a ∈ k.radix.path r.1 (k.pgd addr) (levels addr)
  equal : (k.radix.path r.1 (k.pgd addr) (levels addr)).map r.1
    = (k.radix.path r.1 (k.pgdK addr) (levels addr)).map r.1
  reference : r.1 (k.pgdK addr) = m (k.pgdK addr)

/-! ## The copies -/

section

variable {k : Context x} {addr : Word x} {m : Tables x}

theorem setPgd_eq (m : Tables x) (pgdp pgd : Word x) :
    setPgd m pgdp pgd = Function.update m pgdp pgd := by
  cases x <;> rfl

/-- The tables with the entry of the top level copied -/
def copied (k : Context x) (addr : Word x) (m : Tables x) : Tables x :=
  setPgd m (k.pgd addr) (m (k.pgdK addr))

theorem copied_of_ne {a : Word x} (other : a ≠ k.pgd addr) : copied k addr m a = m a := by
  rw [copied, setPgd_eq, Function.update_of_ne other]

theorem copied_pgd : copied k addr m (k.pgd addr) = m (k.pgdK addr) := by
  rw [copied, setPgd_eq, Function.update_self]

/-- Whether or not the reference table is the current one, its entry stays. -/
theorem copied_pgdK : copied k addr m (k.pgdK addr) = m (k.pgdK addr) := by
  by_cases one : k.pgdK addr = k.pgd addr
  · rw [one, copied_pgd, one]
  · exact copied_of_ne one

variable (k addr) in
/-- Below entries with the same contents there is one middle directory, and the copy in it changes
nothing. -/
theorem setPmd_pmdOffset {pud pudK : Word x} (same : m pud = m pudK) :
    setPmd m (pmdOffset k m pud addr) (m (pmdOffset k m pudK addr)) = m := by
  cases x with
  | rv32 => exact (congrArg (Function.update m pud) same.symm).trans (Function.update_eq_self pud m)
  | rv64 =>
    have one : pmdOffset k m pud addr = pmdOffset k m pudK addr := by
      rw [pmdOffset, pmdOffset, same]
    rw [one]
    exact Function.update_eq_self _ m

theorem pmdFault_tables (same : m (k.pgd addr) = m (k.pgdK addr)) : (pmdFault k addr m).1 = m := by
  have copy := setPmd_pmdOffset k addr same
  simp only [pmdFault, pudOffset, copy]
  split
  · rfl
  · split
    · rfl
    · split <;> rfl

/-- A fault of the kernel copies the entry of the top level, and no other. -/
theorem vmallocFault_tables {sstatus : Word x} (kernel : userMode sstatus = false) :
    (vmallocFault k sstatus addr m).1 = copied k addr m := by
  rw [vmallocFault, kernel, if_neg Bool.false_ne_true, pgdPresent, if_neg (by decide)]
  exact pmdFault_tables (copied_pgd.trans copied_pgdK.symm)

/-! ## The tests -/

/-- The fault returns when every test finds its entry. -/
theorem pmdFault_returned_iff (same : m (k.pgd addr) = m (k.pgdK addr)) :
    (pmdFault k addr m).2 = .returned ↔
      (pudPresent (m (k.pgdK addr)) && (pmdPresent (m (pmdOffset k m (k.pgdK addr) addr)) &&
        ptePresent (m (pteOffsetKernel k m (pmdOffset k m (k.pgdK addr) addr) addr)))) = true := by
  have copy := setPmd_pmdOffset k addr same
  simp only [pmdFault, pudOffset, copy]
  cases pudPresent (m (k.pgdK addr)) with
  | false => exact iff_of_false nofun nofun
  | true =>
    cases pmdPresent (m (pmdOffset k m (k.pgdK addr) addr)) with
    | false => exact iff_of_false nofun nofun
    | true =>
      cases ptePresent (m (pteOffsetKernel k m (pmdOffset k m (k.pgdK addr) addr) addr)) with
      | false => exact iff_of_false nofun nofun
      | true => exact iff_of_true rfl rfl

/-- Without a leaf above the last level, the tests are those of a walk of the reference table: the
one of `pud_k` is the one of the top level or nothing, and then that of `pmd_k` is. -/
theorem isSome_walk_pgdK (deep : k.radix.Deep m (k.pgdK addr) (levels addr)) :
    (k.radix.walk m (k.pgdK addr) (levels addr)).isSome
      = (pudPresent (m (k.pgdK addr)) && (pmdPresent (m (pmdOffset k m (k.pgdK addr) addr)) &&
        ptePresent (m (pteOffsetKernel k m (pmdOffset k m (k.pgdK addr) addr) addr)))) := by
  cases x with
  | rv32 =>
    rw [levels, Radix.isSome_walk_cons deep.1, Radix.isSome_walk_nil, pudPresent, Bool.true_and]
    rfl
  | rv64 =>
    have top : k.radix.present (m (k.pgdK addr)) = pudPresent (m (k.pgdK addr)) := rfl
    rw [levels, Radix.isSome_walk_cons deep.1, top]
    cases present : pudPresent (m (k.pgdK addr)) with
    | false => rw [Bool.false_and, Bool.false_and]
    | true =>
      rw [Radix.isSome_walk_cons (deep.2 (top.trans present)).1, Radix.isSome_walk_nil]
      rfl

/-- Where the copy is in the middle directory of the reference table, it is of an entry that is no
leaf either. -/
theorem deep_copied (deep : k.radix.Deep m (k.pgdK addr) (levels addr)) :
    k.radix.Deep (copied k addr m) (k.pgdK addr) (levels addr) := by
  cases x with
  | rv32 => exact ⟨copied_pgdK ▸ deep.1, fun _ => trivial⟩
  | rv64 =>
    rcases deep with ⟨inner, below⟩
    refine ⟨copied_pgdK.symm ▸ inner, fun present => ⟨?_, fun _ => trivial⟩⟩
    rw [copied_pgdK] at present ⊢
    change k.radix.leaf (copied k addr m (entryAt (k.radix.table (m (k.pgdK addr))) _)) = false
    by_cases one : entryAt (k.radix.table (m (k.pgdK addr))) (pmdIndex addr) = k.pgd addr
    · rw [one, copied_pgd]
      exact inner
    · rw [copied_of_ne one]
      exact (below present).1

/-! ## The tables after the fault -/

/-- A fault of the kernel returns exactly when `init_mm` maps the address. -/
theorem vmallocFault_returned_iff {sstatus : Word x} (kernel : userMode sstatus = false)
    (deep : k.radix.Deep m (k.pgdK addr) (levels addr)) :
    (vmallocFault k sstatus addr m).2 = .returned ↔
      (k.radix.walk (copied k addr m) (k.pgdK addr) (levels addr)).isSome = true := by
  rw [vmallocFault, kernel, if_neg Bool.false_ne_true, pgdPresent, if_neg (by decide),
    isSome_walk_pgdK (deep_copied deep)]
  exact pmdFault_returned_iff (copied_pgd.trans copied_pgdK.symm)

/-- The two walks meet below the top level. -/
theorem walk_pgd_eq (same : m (k.pgd addr) = m (k.pgdK addr))
    (deep : k.radix.Deep m (k.pgdK addr) (levels addr)) :
    k.radix.walk m (k.pgd addr) (levels addr) = k.radix.walk m (k.pgdK addr) (levels addr) := by
  cases x with
  | rv32 => exact Radix.walk_eq_of_same same (same ▸ deep.1)
  | rv64 => exact Radix.walk_eq_of_same same (same ▸ deep.1)

/-- A fault of the kernel at any address, with any tables that have no huge page there in `init_mm`:
when it returns, both tables map the address by one entry that is present, and nothing is changed
but what is on the way of the current table to the address. -/
theorem vmallocFault_synced (k : Context x) (sstatus addr : Word x) (m : Tables x)
    (kernel : userMode sstatus = false) (deep : k.radix.Deep m (k.pgdK addr) (levels addr)) :
    Synced k addr m (vmallocFault k sstatus addr m) := by
  have same : copied k addr m (k.pgd addr) = copied k addr m (k.pgdK addr) :=
    copied_pgd.trans copied_pgdK.symm
  refine ⟨fun returned => ?_, ?_, ?_, ?_⟩ <;> rw [vmallocFault_tables kernel]
  · rw [vmallocFault_returned_iff kernel deep, Option.isSome_iff_exists] at returned
    rcases returned with ⟨pte, ends⟩
    rw [walk_pgd_eq same (deep_copied deep)]
    exact ⟨pte, ends, ends, Radix.present_of_walk ends⟩
  · intro a changed
    by_cases top : a = k.pgd addr
    · exact top ▸ Radix.mem_path
    · exact absurd (copied_of_ne top) changed
  · exact Radix.map_path_eq_of_same same
  · exact copied_pgdK

/-- The current table is in the second page frame, that of `init_mm` in the third. -/
def secondFrame : Context .rv64 := ⟨0, 1, 0x2000⟩

/-- The table of `init_mm` maps the first page of the area, and the current one nothing. -/
def firstMapped : Tables .rv64 := fun a =>
  if a = 0x2fe8 then 0xc01 else if a = 0x3e00 then 0x1001 else if a = 0x4000 then 0x1407 else 0

/-- The first access to that page, by the theorem. -/
theorem vmallocFault_synced_first :
    (vmallocFault secondFrame srPs Fault.vmallocStart firstMapped).2 = .returned ∧
      ∃ pte, secondFrame.radix.walk (vmallocFault secondFrame srPs Fault.vmallocStart firstMapped).1
        (secondFrame.pgd Fault.vmallocStart) (levels Fault.vmallocStart) = some pte := by
  have synced := vmallocFault_synced secondFrame srPs Fault.vmallocStart firstMapped (by decide)
    ⟨by decide, fun _ => ⟨by decide, fun _ => trivial⟩⟩
  have returned : (vmallocFault secondFrame srPs Fault.vmallocStart firstMapped).2 = .returned := by
    decide
  obtain ⟨pte, -, ends, -⟩ := synced.returned returned
  exact ⟨returned, pte, ends⟩

/-- The walk of the reference table is the one before the fault, entry by entry, unless the entry of
the current table is on it. -/
theorem vmallocFault_reference {sstatus : Word x} (kernel : userMode sstatus = false)
    (apart : k.pgd addr ∉ k.radix.path m (k.pgdK addr) (levels addr)) :
    k.radix.path (vmallocFault k sstatus addr m).1 (k.pgdK addr) (levels addr)
        = k.radix.path m (k.pgdK addr) (levels addr) ∧
      k.radix.walk (vmallocFault k sstatus addr m).1 (k.pgdK addr) (levels addr)
        = k.radix.walk m (k.pgdK addr) (levels addr) := by
  rw [vmallocFault_tables kernel]
  have same : ∀ a ∈ k.radix.path m (k.pgdK addr) (levels addr), copied k addr m a = m a :=
    fun a member => copied_of_ne (ne_of_mem_of_not_mem member apart)
  exact ⟨Radix.path_congr same, Radix.walk_congr same⟩

/-! ## The handler -/

/-- The tables answer what the handler asks on its way. -/
structure Answers (k : Context x) (m : Tables x) (w : Fault.World x) : Prop where
  pgd : w.pgdPresent = pgdPresent (m (k.pgdK w.sbadaddr))
  pud : w.pudPresent = pudPresent (copied k w.sbadaddr m (k.pgdK w.sbadaddr))
  pmd : w.pmdPresent = pmdPresent (copied k w.sbadaddr m
    (pmdOffset k (copied k w.sbadaddr m) (k.pgdK w.sbadaddr) w.sbadaddr))
  pte : w.ptePresent = ptePresent (copied k w.sbadaddr m
    (pteOffsetKernel k (copied k w.sbadaddr m)
      (pmdOffset k (copied k w.sbadaddr m) (k.pgdK w.sbadaddr) w.sbadaddr) w.sbadaddr))

theorem noContext_events_ne (w : Fault.World x) :
    (Fault.noContext w).events ≠ [] ∧ (Fault.noContext w).events ≠ [.setPmd] := by
  rw [Fault.noContext]
  cases w.exceptionTable <;> exact ⟨nofun, nofun⟩

/-- The handler's run of the fault ends with both entries set exactly when it does on the tables. -/
theorem vmallocFault_run_iff {w : Fault.World x} (answers : Answers k m w)
    (kernel : userMode w.sstatus = false) :
    Fault.vmallocFault w = ⟨[.setPgd, .setPmd], .returns⟩ ↔
      (vmallocFault k w.sstatus w.sbadaddr m).2 = .returned := by
  obtain ⟨no_events, no_set⟩ := noContext_events_ne w
  rw [vmallocFault, kernel, if_neg Bool.false_ne_true, pgdPresent, if_neg (by decide)]
  refine Iff.trans ?_ (pmdFault_returned_iff (copied_pgd.trans copied_pgdK.symm)).symm
  rw [← answers.pud, ← answers.pmd, ← answers.pte, Fault.vmallocFault, kernel,
    if_neg Bool.false_ne_true, answers.pgd, pgdPresent, if_neg (by decide)]
  cases w.pudPresent with
  | false =>
    refine iff_of_false (fun run => no_set ?_) Bool.false_ne_true
    exact (List.cons.inj (congrArg Fault.Outcome.events run)).2
  | true =>
    cases w.pmdPresent with
    | false =>
      refine iff_of_false (fun run => no_set ?_) Bool.false_ne_true
      exact (List.cons.inj (congrArg Fault.Outcome.events run)).2
    | true =>
      cases w.ptePresent with
      | false =>
        refine iff_of_false (fun run => no_events ?_) Bool.false_ne_true
        exact (List.cons.inj (List.cons.inj (congrArg Fault.Outcome.events run)).2).2
      | true => exact iff_of_true rfl rfl

end

end RiscvLinux.Mm.VmallocFault
