import RiscvLinux.Lib.Bits
import RiscvLinux.Trap.PtRegs

/-!
# Page table entries

The three things that an entry of a page table can say (`arch/riscv/include/asm/pgtable.h`,
`pgtable-bits.h`): nothing, where a page is mapped, and where it was swapped to. They share one
word and are told apart by `_PAGE_PRESENT`, which is in every protection but `PAGE_NONE`.

`mappedPte_and_presentRead` follows the two lowest bits through everything that makes a mapped
entry; `distinct_iff` draws the conclusion.
-/

namespace RiscvLinux.Mm

open Lib Trap

variable {x : XLen}

/-! ## Bits -/

def pagePresent : Word x := 1 <<< 0

def pageRead : Word x := 1 <<< 1

def pageWrite : Word x := 1 <<< 2

def pageExec : Word x := 1 <<< 3

def pageUser : Word x := 1 <<< 4

def pageGlobal : Word x := 1 <<< 5

def pageAccessed : Word x := 1 <<< 6

def pageDirty : Word x := 1 <<< 7

def pageSpecial : Word x := 1 <<< 8

/-- `_PAGE_PFN_SHIFT`. -/
def pagePfnShift : Nat := 10

/-- What `_PAGE_CHG_MASK` is the complement of: the bits that `pte_modify` takes away. -/
def pageChanged : Word x :=
  pagePresent ||| pageRead ||| pageWrite ||| pageExec ||| pageUser ||| pageGlobal

/-! ## Protections -/

/-- `_PAGE_BASE`. -/
def pageBase : Word x := pagePresent ||| pageAccessed ||| pageUser

/-- The protections of user mappings. -/
inductive Pgprot
  | none
  | read
  | write
  | exec
  | readExec
  | writeExec
  deriving DecidableEq, Repr

/-- `pgprot_val`. -/
def Pgprot.val : Pgprot → Word x
  | .none => 0
  | .read => pageBase ||| pageRead
  | .write => pageBase ||| pageRead ||| pageWrite
  | .exec => pageBase ||| pageExec
  | .readExec => pageBase ||| pageRead ||| pageExec
  | .writeExec => pageBase ||| pageRead ||| pageExec ||| pageWrite

/-- `__P000` to `__P111`, by the permissions to execute, write and read. -/
def protectionPrivate : (exec write read : Bool) → Pgprot
  | false, false, false => .none
  | false, false, true => .read
  | false, true, false => .read
  | false, true, true => .read
  | true, false, false => .exec
  | true, false, true => .readExec
  | true, true, false => .exec
  | true, true, true => .readExec

/-- `__S000` to `__S111`. -/
def protectionShared : (exec write read : Bool) → Pgprot
  | false, false, false => .none
  | false, false, true => .read
  | false, true, false => .write
  | false, true, true => .write
  | true, false, false => .exec
  | true, false, true => .readExec
  | true, true, false => .writeExec
  | true, true, true => .writeExec

/-- The permissions of a mapping. -/
structure VmProt where
  shared : Bool
  exec : Bool
  write : Bool
  read : Bool
  deriving DecidableEq, Repr

/-- The protection of a mapping. -/
def VmProt.pgprot (p : VmProt) : Pgprot :=
  if p.shared then protectionShared p.exec p.write p.read
  else protectionPrivate p.exec p.write p.read

/-! ## Mapped pages -/

def pfnPte (pfn : Word x) (prot : Pgprot) : Word x :=
  pfn <<< pagePfnShift ||| prot.val

def ptePresent (pte : Word x) : Bool :=
  pte &&& pagePresent != 0

def pteNone (pte : Word x) : Bool :=
  pte == 0

def pteWrprotect (pte : Word x) : Word x := clearBits pte pageWrite

def pteMkwrite (pte : Word x) : Word x := setBits pte pageWrite

def pteMkdirty (pte : Word x) : Word x := setBits pte pageDirty

def pteMkclean (pte : Word x) : Word x := clearBits pte pageDirty

/-- It clears the flag that `pte_young` looks for, and `pte_mkold` sets it. -/
def pteMkyoung (pte : Word x) : Word x := clearBits pte pageAccessed

def pteMkold (pte : Word x) : Word x := setBits pte pageAccessed

def pteMkspecial (pte : Word x) : Word x := setBits pte pageSpecial

def pteModify (pte : Word x) (newprot : Pgprot) : Word x :=
  clearBits pte pageChanged ||| newprot.val

/-- The functions that make one entry of another. -/
inductive Change
  | wrprotect
  | mkwrite
  | mkdirty
  | mkclean
  | mkyoung
  | mkold
  | mkspecial
  | modify (newprot : VmProt)
  deriving DecidableEq, Repr

def Change.apply (pte : Word x) : Change → Word x
  | .wrprotect => pteWrprotect pte
  | .mkwrite => pteMkwrite pte
  | .mkdirty => pteMkdirty pte
  | .mkclean => pteMkclean pte
  | .mkyoung => pteMkyoung pte
  | .mkold => pteMkold pte
  | .mkspecial => pteMkspecial pte
  | .modify newprot => pteModify pte newprot.pgprot

/-- The entry of a page after a history of changes. -/
def mappedPte (pfn : Word x) (prot : VmProt) (history : List Change) : Word x :=
  history.foldl Change.apply (pfnPte pfn prot.pgprot)

/-- The protection that the page was given last. -/
def Change.lastProt (prot : VmProt) : Change → VmProt
  | .modify newprot => newprot
  | _ => prot

def lastProt (prot : VmProt) (history : List Change) : VmProt :=
  history.foldl Change.lastProt prot

/-! ## Swap entries -/

def swpTypeShift : Nat := 2

def swpTypeBits : Nat := 5

/-- `(1UL << __SWP_TYPE_BITS) - 1`. -/
def swpTypeMask : Word x := BitVec.ofNat x.bits (2 ^ swpTypeBits - 1)

def swpOffsetShift : Nat := swpTypeBits + swpTypeShift

def swpType (entry : Word x) : Word x := entry >>> swpTypeShift &&& swpTypeMask

def swpOffset (entry : Word x) : Word x := entry >>> swpOffsetShift

def swpEntry (type offset : Word x) : Word x :=
  type <<< swpTypeShift ||| offset <<< swpOffsetShift

/-- `__pte_to_swp_entry`, which keeps the word. -/
def pteToSwpEntry (pte : Word x) : Word x := pte

/-- `__swp_entry_to_pte`. -/
def swpEntryToPte (entry : Word x) : Word x := entry

/-- The entry is told apart from an empty one and from every swap entry. -/
def Distinct (pte : Word x) : Prop :=
  pteNone pte = false ∧ ∀ type offset : Word x, type.toNat < 2 ^ swpTypeBits →
    offset.toNat < 2 ^ (x.bits - swpOffsetShift) → pte ≠ swpEntryToPte (swpEntry type offset)

/-! ## Swap entries come back -/

theorem swpOffsetShift_lt (x : XLen) : swpOffsetShift < x.bits := by
  cases x <;> decide

theorem getLsbD_swpTypeMask (i : Nat) :
    (swpTypeMask : Word x).getLsbD i = decide (i < swpTypeBits) := by
  have wide : swpTypeBits < x.bits := Nat.lt_of_le_of_lt (Nat.le_add_right ..) (swpOffsetShift_lt x)
  rw [swpTypeMask, BitVec.getLsbD_ofNat, Nat.testBit_two_pow_sub_one]
  rcases Nat.lt_or_ge i swpTypeBits with below | above
  · simp only [below, decide_true, Bool.and_true, decide_eq_true_eq]
    omega
  · simp only [Nat.not_lt.mpr above, decide_false, Bool.and_false]

theorem getLsbD_swpEntry (type offset : Word x) {i : Nat} (inside : i < x.bits) :
    (swpEntry type offset).getLsbD i
      = (decide (swpTypeShift ≤ i) && type.getLsbD (i - swpTypeShift)
        || decide (swpOffsetShift ≤ i) && offset.getLsbD (i - swpOffsetShift)) := by
  rw [swpEntry, BitVec.getLsbD_or, BitVec.getLsbD_shiftLeft, BitVec.getLsbD_shiftLeft]
  simp only [inside, decide_true, Bool.true_and, ← Nat.not_lt, decide_not]

/-- The type comes back. -/
theorem swpType_swpEntry {type : Word x} (offset : Word x) (small : type.toNat < 2 ^ swpTypeBits) :
    swpType (swpEntry type offset) = type := by
  have wide := swpOffsetShift_lt x
  refine BitVec.eq_of_getLsbD_eq fun i inside => ?_
  rw [swpType, BitVec.getLsbD_and, BitVec.getLsbD_ushiftRight, getLsbD_swpTypeMask]
  rcases Nat.lt_or_ge i swpTypeBits with below | above
  · have low : ¬ swpOffsetShift ≤ swpTypeShift + i := by
      rw [swpOffsetShift]
      omega
    have within : swpTypeShift + i < x.bits := by
      rw [swpOffsetShift] at wide low
      omega
    rw [getLsbD_swpEntry _ _ within]
    simp only [Nat.le_add_right, decide_true, Bool.true_and, low, decide_false, Bool.false_and,
      Bool.or_false, below, Bool.and_true, Nat.add_sub_cancel_left]
  · simp only [Nat.not_lt.mpr above, decide_false, Bool.and_false]
    exact (getLsbD_of_lt small above).symm

/-- The offset comes back. -/
theorem swpOffset_swpEntry {type offset : Word x} (small : type.toNat < 2 ^ swpTypeBits)
    (fits : offset.toNat < 2 ^ (x.bits - swpOffsetShift)) :
    swpOffset (swpEntry type offset) = offset := by
  refine BitVec.eq_of_getLsbD_eq fun i inside => ?_
  rw [swpOffset, BitVec.getLsbD_ushiftRight]
  rcases Nat.lt_or_ge (swpOffsetShift + i) x.bits with within | beyond
  · have high : swpTypeBits ≤ swpOffsetShift + i - swpTypeShift := by
      rw [swpOffsetShift]
      omega
    rw [getLsbD_swpEntry _ _ within, getLsbD_of_lt small high]
    simp only [Bool.and_false, Bool.false_or, Nat.le_add_right, decide_true, Bool.true_and,
      Nat.add_sub_cancel_left]
  · rw [BitVec.getLsbD_of_ge _ _ beyond]
    exact (getLsbD_of_lt fits (by omega)).symm

/-- The two lowest bits of a swap entry are clear. -/
theorem swpEntry_and_presentRead (type offset : Word x) :
    swpEntry type offset &&& (pagePresent ||| pageRead) = 0 := by
  have typeLow : type <<< swpTypeShift &&& (pagePresent ||| pageRead) = 0 :=
    shiftLeft_and_of_low (by cases x <;> decide)
  have offsetLow : offset <<< swpOffsetShift &&& (pagePresent ||| pageRead) = 0 :=
    shiftLeft_and_of_low (by cases x <;> decide)
  rw [swpEntry, BitVec.and_or_distrib_right, typeLow, offsetLow]
  exact BitVec.or_self

/-- A word whose two lowest bits are clear is a swap entry. -/
theorem swpEntry_of_presentRead {pte : Word x} (clear : pte &&& (pagePresent ||| pageRead) = 0) :
    swpEntry (swpType pte) (swpOffset pte) = pte := by
  refine BitVec.eq_of_getLsbD_eq fun i inside => ?_
  rw [getLsbD_swpEntry _ _ inside, swpType, swpOffset, BitVec.getLsbD_and,
    BitVec.getLsbD_ushiftRight, BitVec.getLsbD_ushiftRight, getLsbD_swpTypeMask]
  rcases Nat.lt_or_ge i swpTypeShift with low | high
  · have bit := congrArg (BitVec.getLsbD · i) clear
    have masked : (pagePresent ||| pageRead : Word x).getLsbD i = true := by
      match i, low with
      | 0, _ => cases x <;> decide
      | 1, _ => cases x <;> decide
    rw [BitVec.getLsbD_and, masked, Bool.and_true, BitVec.ofNat_eq_ofNat,
      BitVec.getLsbD_zero] at bit
    rw [bit, swpOffsetShift]
    simp only [Nat.not_le.mpr low, show ¬ swpTypeBits + swpTypeShift ≤ i by omega, decide_false,
      Bool.false_and, Bool.or_false]
  · rw [Nat.add_sub_cancel' high]
    rcases Nat.lt_or_ge i swpOffsetShift with middle | upper
    · have typed : i - swpTypeShift < swpTypeBits := by
        rw [swpOffsetShift] at middle
        omega
      simp only [high, typed, Nat.not_le.mpr middle, decide_true, decide_false, Bool.true_and,
        Bool.and_true, Bool.false_and, Bool.or_false]
    · have untyped : ¬ i - swpTypeShift < swpTypeBits := by
        rw [swpOffsetShift] at upper
        omega
      simp only [high, untyped, upper, decide_true, decide_false, Bool.and_false, Bool.true_and,
        Bool.false_or, Nat.add_sub_cancel' upper]

theorem toNat_swpType_lt (pte : Word x) : (swpType pte).toNat < 2 ^ swpTypeBits := by
  have least : (swpType pte).toNat ≤ (swpTypeMask : Word x).toNat := by
    rw [swpType, BitVec.toNat_and]
    exact Nat.and_le_right
  refine Nat.lt_of_le_of_lt least ?_
  cases x <;> decide

theorem toNat_swpOffset_lt (pte : Word x) :
    (swpOffset pte).toNat < 2 ^ (x.bits - swpOffsetShift) := by
  have wide := swpOffsetShift_lt x
  have small := pte.isLt
  rw [swpOffset, BitVec.toNat_ushiftRight, Nat.shiftRight_eq_div_pow]
  refine Nat.div_lt_of_lt_mul ?_
  rwa [← Nat.pow_add, Nat.add_sub_cancel' (Nat.le_of_lt wide)]

/-! ## The two lowest bits of a mapped entry -/

/-- A protection other than `PAGE_NONE` has `_PAGE_PRESENT`. -/
theorem Pgprot.val_and_present {prot : Pgprot} (mapped : prot ≠ .none) :
    (prot.val : Word x) &&& pagePresent = pagePresent := by
  cases prot with
  | none => exact (mapped rfl).elim
  | read | write | exec | readExec | writeExec => cases x <;> decide

/-- No change but that of the protection touches the two lowest bits. -/
theorem Change.apply_and_presentRead (pte : Word x) (c : Change) :
    c.apply pte &&& (pagePresent ||| pageRead)
      = match c with
        | .modify newprot => newprot.pgprot.val &&& (pagePresent ||| pageRead)
        | _ => pte &&& (pagePresent ||| pageRead) := by
  cases c with
  | wrprotect | mkclean | mkyoung => exact clearBits_and_of_disjoint (by cases x <;> decide)
  | mkwrite | mkdirty | mkold | mkspecial => exact setBits_and_of_disjoint (by cases x <;> decide)
  | modify newprot =>
    have gone : clearBits pte pageChanged &&& (pagePresent ||| pageRead) = 0 :=
      clearBits_and_of_covered (by cases x <;> decide)
    rw [Change.apply, pteModify, BitVec.and_or_distrib_right, gone]
    exact BitVec.zero_or

/-- They are those of the protection that the page was given last. -/
theorem mappedPte_and_presentRead (pfn : Word x) (prot : VmProt) (history : List Change) :
    mappedPte pfn prot history &&& (pagePresent ||| pageRead)
      = (lastProt prot history).pgprot.val &&& (pagePresent ||| pageRead) := by
  have start : pfnPte pfn prot.pgprot &&& (pagePresent ||| pageRead)
      = prot.pgprot.val &&& (pagePresent ||| pageRead) := by
    have high : pfn <<< pagePfnShift &&& (pagePresent ||| pageRead) = 0 :=
      shiftLeft_and_of_low (by cases x <;> decide)
    rw [pfnPte, BitVec.and_or_distrib_right, high]
    exact BitVec.zero_or
  rw [mappedPte, lastProt]
  generalize pfnPte pfn prot.pgprot = pte at start
  induction history generalizing pte prot with
  | nil => exact start
  | cons c history ih =>
    rw [List.foldl_cons, List.foldl_cons]
    refine ih _ _ ?_
    rw [Change.apply_and_presentRead]
    cases c with
    | modify newprot => rfl
    | wrprotect | mkwrite | mkdirty | mkclean | mkyoung | mkold | mkspecial => exact start

/-! ## The encodings -/

/-- A present entry is neither empty nor a swap entry. -/
theorem distinct_of_present {pte : Word x} (present : pte &&& pagePresent = pagePresent) :
    Distinct pte := by
  have bit : (pagePresent : Word x) ≠ 0 := by cases x <;> decide
  have part : (pagePresent ||| pageRead : Word x) &&& pagePresent = pagePresent := by
    cases x <;> decide
  refine ⟨?_, fun type offset _ _ same => ?_⟩
  · rw [pteNone, beq_eq_false_iff_ne]
    intro same
    subst same
    exact bit (present.symm.trans BitVec.zero_and)
  · have clear := swpEntry_and_presentRead type offset
    rw [swpEntryToPte] at same
    rw [same, ← part, ← BitVec.and_assoc, clear] at present
    exact bit (part.symm.trans (present.symm.trans BitVec.zero_and))

/-- An entry whose two lowest bits are clear is a swap entry. -/
theorem not_distinct_of_clear {pte : Word x} (clear : pte &&& (pagePresent ||| pageRead) = 0) :
    ¬ Distinct pte := fun distinct =>
  distinct.2 (swpType pte) (swpOffset pte) (toNat_swpType_lt pte) (toNat_swpOffset_lt pte)
    (swpEntry_of_presentRead clear).symm

/-- The entry of a mapped page is told apart from the others exactly when the protection it was
given last is not `PAGE_NONE`. -/
theorem distinct_iff (pfn : Word x) (prot : VmProt) (history : List Change) :
    Distinct (mappedPte pfn prot history) ↔ (lastProt prot history).pgprot ≠ .none := by
  have low := mappedPte_and_presentRead pfn prot history
  constructor
  · intro distinct unmapped
    rw [unmapped] at low
    exact not_distinct_of_clear (low.trans BitVec.zero_and) distinct
  · intro mapped
    have part : (pagePresent ||| pageRead : Word x) &&& pagePresent = pagePresent := by
      cases x <;> decide
    refine distinct_of_present ?_
    rw [← part, ← BitVec.and_assoc, low, BitVec.and_assoc, part]
    exact Pgprot.val_and_present mapped

/-- A swap entry comes back from its page table entry, which is not present; and the entry of a
mapped page collides with neither kind of other entry exactly when the protection it was given
last is not `PAGE_NONE`. -/
theorem encodings_apart_iff :
    (∀ type offset : Word x, type.toNat < 2 ^ swpTypeBits →
      offset.toNat < 2 ^ (x.bits - swpOffsetShift) →
        swpType (pteToSwpEntry (swpEntryToPte (swpEntry type offset))) = type
        ∧ swpOffset (pteToSwpEntry (swpEntryToPte (swpEntry type offset))) = offset
        ∧ ptePresent (swpEntryToPte (swpEntry type offset)) = false)
    ∧ ∀ (pfn : Word x) (prot : VmProt) (history : List Change),
        Distinct (mappedPte pfn prot history) ↔ (lastProt prot history).pgprot ≠ .none := by
  refine ⟨fun type offset small fits => ⟨?_, ?_, ?_⟩, distinct_iff⟩
  · exact swpType_swpEntry offset small
  · exact swpOffset_swpEntry small fits
  · have part : (pagePresent ||| pageRead : Word x) &&& pagePresent = pagePresent := by
      cases x <;> decide
    have absent : swpEntry type offset &&& pagePresent = 0 := by
      rw [← part, ← BitVec.and_assoc, swpEntry_and_presentRead]
      exact BitVec.zero_and
    rw [ptePresent, swpEntryToPte, absent]
    rfl

theorem encodings_apart_iff_swapped :
    swpType (pteToSwpEntry (swpEntryToPte (swpEntry 3 5 : Word .rv64))) = 3 :=
  (encodings_apart_iff.1 3 5 (by decide) (by decide)).1

/-- The second page, mapped to be read and then protected with `PROT_NONE`, is taken for offset 8
of swap type 16. -/
theorem collision_protNone :
    ¬ ∀ (pfn : Word .rv64) (prot : VmProt) (history : List Change),
      Distinct (mappedPte pfn prot history) := by
  intro always
  have distinct := always 1 ⟨false, false, false, true⟩ [.modify ⟨false, false, false, false⟩]
  exact distinct.2 16 8 (by decide) (by decide) (by decide)

end RiscvLinux.Mm
