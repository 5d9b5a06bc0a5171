import RiscvLinux.Mm.Pgtable

/-!
# Flags of page table entries

`pte_write`, `pte_dirty`, `pte_young` and `pte_special` after any sequence of the functions that
change an entry (`arch/riscv/include/asm/pgtable.h`). `reports_iff` says after which sequences each
of them reports what the last operation that concerns its flag established.
-/

namespace RiscvLinux.Mm

open Lib Trap

variable {x : XLen}

/-! ## The code -/

/-- The flags that can be asked for. -/
inductive PteFlag
  | write
  | dirty
  | young
  | special
  deriving DecidableEq, Repr

/-- The bit that says so: `_PAGE_ACCESSED` is the one of a page that is young. -/
def PteFlag.bit : PteFlag → Word x
  | .write => pageWrite
  | .dirty => pageDirty
  | .young => pageAccessed
  | .special => pageSpecial

/-- `pte_write`, `pte_dirty`, `pte_young` and `pte_special`. -/
def PteFlag.reads (f : PteFlag) (pte : Word x) : Bool :=
  pte &&& f.bit != 0

def pteWrite (pte : Word x) : Bool := PteFlag.write.reads pte

def pteDirty (pte : Word x) : Bool := PteFlag.dirty.reads pte

def pteYoung (pte : Word x) : Bool := PteFlag.young.reads pte

def pteSpecial (pte : Word x) : Bool := PteFlag.special.reads pte

/-- `pte_pfn` -/
def ptePfn (pte : Word x) : Word x := pte >>> pagePfnShift

/-- A protection: its bits are below the page frame number. -/
structure Protection (x : XLen) where
  val : Word x
  low : val >>> pagePfnShift = 0

/-- `pte_modify`, with any protection. -/
def pteModifyTo (pte : Word x) (newprot : Protection x) : Word x :=
  clearBits pte pageChanged ||| newprot.val

/-- The functions that make one entry of another. -/
inductive PteOp (x : XLen)
  | wrprotect
  | mkwrite
  | mkdirty
  | mkclean
  | mkyoung
  | mkold
  | mkspecial
  | modify (newprot : Protection x)

def PteOp.apply (pte : Word x) : PteOp x → Word x
  | .wrprotect => pteWrprotect pte
  | .mkwrite => pteMkwrite pte
  | .mkdirty => pteMkdirty pte
  | .mkclean => pteMkclean pte
  | .mkyoung => pteMkyoung pte
  | .mkold => pteMkold pte
  | .mkspecial => pteMkspecial pte
  | .modify newprot => pteModifyTo pte newprot

/-- An entry after operations, the last one first. -/
def pteAfter (pte : Word x) : List (PteOp x) → Word x
  | [] => pte
  | op :: before => op.apply (pteAfter pte before)

/-! ## What is to hold -/

/-- What an operation establishes of a flag, if it concerns it. -/
def PteOp.establishes : PteOp x → PteFlag → Option Bool
  | .wrprotect, .write => some false
  | .mkwrite, .write => some true
  | .mkdirty, .dirty => some true
  | .mkclean, .dirty => some false
  | .mkyoung, .young => some true
  | .mkold, .young => some false
  | .mkspecial, .special => some true
  | .modify newprot, .write => some (PteFlag.write.reads newprot.val)
  | _, _ => none

/-- What the last operation that concerns a flag established, and what the entry had at first if
there is none. -/
def established (f : PteFlag) (pte : Word x) : List (PteOp x) → Bool
  | [] => f.reads pte
  | op :: before => (op.establishes f).getD (established f pte before)

/-- The page frame number is as it was, and every flag is as established. -/
structure Reports (pte : Word x) (ops : List (PteOp x)) : Prop where
  pfn : ptePfn (pteAfter pte ops) = ptePfn pte
  write : pteWrite (pteAfter pte ops) = established .write pte ops
  dirty : pteDirty (pteAfter pte ops) = established .dirty pte ops
  young : pteYoung (pteAfter pte ops) = established .young pte ops
  special : pteSpecial (pteAfter pte ops) = established .special pte ops

/-- The last operation that has to do with a flag does to it what it should. It is not
`pte_mkyoung` or `pte_mkold`; and if it is a `pte_modify` whose protection has the bit of a flag
that the function is to keep, the flag is established already. -/
def Meets (f : PteFlag) (pte : Word x) : List (PteOp x) → Prop
  | [] => True
  | .mkyoung :: before | .mkold :: before => f ≠ .young ∧ Meets f pte before
  | .modify newprot :: before =>
    f = .write ∨
      if f.reads newprot.val then established f pte before = true else Meets f pte before
  | op :: before => op.establishes f ≠ none ∨ Meets f pte before

/-! ## One operation -/

theorem PteFlag.bit_and_ne {f g : PteFlag} (differ : f ≠ g) : (f.bit : Word x) &&& g.bit = 0 := by
  cases f <;> cases g <;> first | exact (differ rfl).elim | (cases x <;> decide)

/-- Setting the bit of one flag sets that flag and leaves the others. -/
theorem PteFlag.reads_setBits (f g : PteFlag) (pte : Word x) :
    f.reads (setBits pte g.bit) = if g = f then true else f.reads pte := by
  rw [PteFlag.reads]
  split
  · next same =>
    have some_bit : (f.bit : Word x) ≠ 0 := by cases f <;> cases x <;> decide
    rw [same, setBits_and_of_covered BitVec.and_self]
    exact bne_iff_ne.mpr some_bit
  · next differ => rw [setBits_and_of_disjoint (PteFlag.bit_and_ne differ), PteFlag.reads]

theorem PteFlag.reads_clearBits (f g : PteFlag) (pte : Word x) :
    f.reads (clearBits pte g.bit) = if g = f then false else f.reads pte := by
  rw [PteFlag.reads]
  split
  · next same =>
    rw [same, clearBits_and_of_covered BitVec.and_self]
    rfl
  · next differ => rw [clearBits_and_of_disjoint (PteFlag.bit_and_ne differ), PteFlag.reads]

/-- `pte_modify` takes the permission to write from the protection, and adds the other flags of the
protection to those of the entry. -/
theorem PteFlag.reads_modify (f : PteFlag) (pte : Word x) (newprot : Protection x) :
    f.reads (pteModifyTo pte newprot)
      = ((if f = .write then false else f.reads pte) || f.reads newprot.val) := by
  rw [PteFlag.reads, pteModifyTo, or_and_bne_zero]
  congr 1
  cases f with
  | write =>
    rw [clearBits_and_of_covered (by cases x <;> decide)]
    rfl
  | dirty | young | special =>
    rw [clearBits_and_of_disjoint (by cases x <;> decide)]
    rfl

/-- No operation touches the page frame number. -/
theorem PteOp.ptePfn_apply (pte : Word x) (op : PteOp x) : ptePfn (op.apply pte) = ptePfn pte := by
  cases op with
  | wrprotect | mkclean | mkyoung => exact clearBits_ushiftRight_of_low (by cases x <;> decide)
  | mkwrite | mkdirty | mkold | mkspecial =>
    exact setBits_ushiftRight_of_low (by cases x <;> decide)
  | modify newprot =>
    rw [PteOp.apply, ptePfn, pteModifyTo]
    refine (setBits_ushiftRight_of_low newprot.low).trans ?_
    exact clearBits_ushiftRight_of_low (by cases x <;> decide)

theorem ptePfn_pteAfter (pte : Word x) (ops : List (PteOp x)) :
    ptePfn (pteAfter pte ops) = ptePfn pte := by
  induction ops with
  | nil => rfl
  | cons op before ih => exact (op.ptePfn_apply _).trans ih

/-! ## Sequences -/

/-- An operation that does to one flag what it establishes of it, and nothing to the others. -/
theorem reads_iff_of_establishes {f g : PteFlag} {pte : Word x} {op : PteOp x}
    {before : List (PteOp x)} {v : Bool}
    (reads : f.reads (op.apply (pteAfter pte before))
      = if g = f then v else f.reads (pteAfter pte before))
    (establishes : op.establishes f = if g = f then some v else none)
    (ih : f.reads (pteAfter pte before) = established f pte before ↔ Meets f pte before) :
    f.reads (pteAfter pte (op :: before)) = established f pte (op :: before) ↔
      op.establishes f ≠ none ∨ Meets f pte before := by
  rw [pteAfter, established, reads, establishes]
  by_cases same : g = f
  · rw [if_pos same, if_pos same]
    exact iff_of_true rfl (.inl nofun)
  · rw [if_neg same, if_neg same, Option.getD_none, ih]
    exact (or_iff_right (not_not_intro rfl)).symm

/-- An operation that does to the flag of a young page the opposite of what it establishes. -/
theorem reads_iff_of_young {f : PteFlag} {pte : Word x} {op : PteOp x} {before : List (PteOp x)}
    {v : Bool}
    (reads : f.reads (op.apply (pteAfter pte before))
      = if PteFlag.young = f then v else f.reads (pteAfter pte before))
    (establishes : op.establishes f = if PteFlag.young = f then some !v else none)
    (ih : f.reads (pteAfter pte before) = established f pte before ↔ Meets f pte before) :
    f.reads (pteAfter pte (op :: before)) = established f pte (op :: before) ↔
      f ≠ .young ∧ Meets f pte before := by
  rw [pteAfter, established, reads, establishes]
  by_cases same : PteFlag.young = f
  · rw [if_pos same, if_pos same, Option.getD_some]
    exact iff_of_false (by cases v <;> decide) fun meets => meets.1 same.symm
  · rw [if_neg same, if_neg same, Option.getD_none, ih]
    exact (and_iff_right (Ne.symm same)).symm

/-- A flag reads as established exactly after the sequences that meet its condition. -/
theorem reads_pteAfter_iff (f : PteFlag) (pte : Word x) (ops : List (PteOp x)) :
    f.reads (pteAfter pte ops) = established f pte ops ↔ Meets f pte ops := by
  induction ops with
  | nil => exact iff_of_true rfl trivial
  | cons op before ih =>
    cases op with
    | wrprotect =>
      exact reads_iff_of_establishes (PteFlag.reads_clearBits f .write _) (by cases f <;> rfl) ih
    | mkwrite =>
      exact reads_iff_of_establishes (PteFlag.reads_setBits f .write _) (by cases f <;> rfl) ih
    | mkdirty =>
      exact reads_iff_of_establishes (PteFlag.reads_setBits f .dirty _) (by cases f <;> rfl) ih
    | mkclean =>
      exact reads_iff_of_establishes (PteFlag.reads_clearBits f .dirty _) (by cases f <;> rfl) ih
    | mkspecial =>
      exact reads_iff_of_establishes (PteFlag.reads_setBits f .special _) (by cases f <;> rfl) ih
    | mkyoung =>
      exact reads_iff_of_young (PteFlag.reads_clearBits f .young _) (by cases f <;> rfl) ih
    | mkold =>
      exact reads_iff_of_young (PteFlag.reads_setBits f .young _) (by cases f <;> rfl) ih
    | modify newprot =>
      rw [pteAfter, PteOp.apply, PteFlag.reads_modify, established, Meets]
      by_cases isWrite : f = .write
      · subst isWrite
        exact iff_of_true (Bool.false_or _) (.inl rfl)
      · have keeps : (PteOp.modify newprot).establishes f = none := by
          cases f <;> first | rfl | exact (isWrite rfl).elim
        rw [if_neg isWrite, keeps, Option.getD_none, or_iff_right isWrite]
        cases added : f.reads newprot.val with
        | true =>
          rw [Bool.or_true, if_pos rfl]
          exact eq_comm
        | false =>
          rw [Bool.or_false, if_neg Bool.false_ne_true]
          exact ih

/-- The page frame number stays, and the flags are as established exactly after the sequences that
meet the condition for every flag. -/
theorem reports_iff (pte : Word x) (ops : List (PteOp x)) :
    Reports pte ops ↔ ∀ f, Meets f pte ops := by
  constructor
  · intro reports f
    rw [← reads_pteAfter_iff]
    cases f with
    | write => exact reports.write
    | dirty => exact reports.dirty
    | young => exact reports.young
    | special => exact reports.special
  · intro meets
    have reads : ∀ f, f.reads (pteAfter pte ops) = established f pte ops :=
      fun f => (reads_pteAfter_iff f pte ops).mpr (meets f)
    exact ⟨ptePfn_pteAfter pte ops, reads .write, reads .dirty, reads .young, reads .special⟩

/-- A page that is made young is old. -/
theorem not_reports_mkyoung : ¬ ∀ (pte : Word .rv64) (ops : List (PteOp .rv64)),
    Reports pte ops := by
  intro always
  have young := (always pagePresent [.mkyoung]).young
  exact absurd young (by decide)

end RiscvLinux.Mm
