import RiscvLinux.Mm.PageTable

/-!
# Address spaces

All page tables of a system in one memory: that of `init_mm` and those of the processes. Tables are
allocated and freed, entries are written, and a fault in the `vmalloc` area copies an entry, in any
order. Over it stands what the tables are for: every process has its own map of user addresses, and
there is one map of kernel addresses (`Maps`).

`step_maps` says what a step of the tables is to the maps, and `spaces_refine` that in every run the
tables are the maps, and that a hart with the table of any process translates by them: user
addresses by the map of the process alone, kernel addresses by that of the kernel or, before the
first fault, not at all.
-/

namespace RiscvLinux.Mm.Spaces

open Lib Trap VmallocFault BootTable PageTable

variable {x : XLen} {ι : Type*}

/-! ## The system -/

/-- The memory, `mm->pgd` of every process that has one, and the pages that are not free -/
structure System (ι : Type*) (x : XLen) where
  mem : Tables x
  pgd : ι → Option (Page x)
  used : Page x → Bool

/-- The table of a process, or of `init_mm` -/
def System.root (K : Mapping x) (s : System ι x) : Option ι → Option (Page x)
  | none => some K.initPgd
  | some mm => s.pgd mm

theorem root_some {K : Mapping x} {s : System ι x} {mm : ι} {r : Page x}
    (pgd : s.pgd mm = some r) : s.root K (some mm) = some r :=
  pgd

/-- Processes have the user part of their tables, `init_mm` has the rest. -/
def Side (who : Option ι) (i : Index x) : Prop := who.isSome = decide (i.val < userPtrsPerPgd x)

instance (who : Option ι) (i : Index x) : Decidable (Side who i) :=
  inferInstanceAs (Decidable (_ = _))

/-- What is done to the tables. The pages are those that the allocator gives. -/
inductive Event (ι : Type*) (x : XLen)
  | pgdAlloc (mm : ι) (page : Page x)
  | pgdFree (mm : ι)
  /-- `pmd_alloc_one` and `pud_populate` -/
  | pudPopulate (who : Option ι) (addr : Word x) (page : Page x)
  /-- `pte_alloc_one` and `pmd_populate`, or the two for the kernel -/
  | pmdPopulate (who : Option ι) (addr : Word x) (page : Page x)
  | setPteAt (who : Option ι) (addr pteval : Word x)
  /-- `pmd_clear` and `pte_free` -/
  | pteFree (mm : ι) (addr : Word x)
  /-- `pud_clear` and `pmd_free` -/
  | pmdFree (mm : ι) (addr : Word x)
  | vmallocFault (mm : ι) (addr : Word x)

/-- The entries of the table that an entry points to say nothing. -/
def Clear (K : Mapping x) (m : Tables x) (entry : Word x) : Prop :=
  ∀ i : Index x, m (entryAt ((K.context 0).pageVaddr entry) (BitVec.ofNat _ i)) = 0

instance (K : Mapping x) (m : Tables x) (entry : Word x) : Decidable (Clear K m entry) :=
  inferInstanceAs (Decidable (∀ _, _))

variable [DecidableEq ι]

/-- One step. Tables are put in where there are none, entries are written in tables that are there,
tables are freed when their entries are clear, and a process has no other table for its user
addresses, nor `init_mm` for those of the kernel. -/
def step (K : Mapping x) (s : System ι x) : Event ι x → Option (System ι x)
  | .pgdAlloc mm page =>
    if s.pgd mm = none ∧ s.used page = false then
      some ⟨pgdAlloc (K.context 0) s.mem page.addr, Function.update s.pgd mm (some page),
        Function.update s.used page true⟩
    else none
  | .pgdFree mm =>
    (s.pgd mm).map fun r =>
      ⟨s.mem, Function.update s.pgd mm none, Function.update s.used r false⟩
  | .pudPopulate who addr page =>
    (s.root K who).bind fun r =>
      if depth x = 2 ∧ Side who (topIndex addr) ∧ pudNone (s.mem (pudAt r.addr addr)) ∧
          s.used page = false then
        some { s with
          mem := pudPopulate (K.context 0) (zeroPage s.mem page.addr) (pudAt r.addr addr) page.addr
          used := Function.update s.used page true }
      else none
  | .pmdPopulate who addr page =>
    (s.root K who).bind fun r =>
      if Side who (topIndex addr) ∧ hasPmd s.mem r.addr addr ∧
          pmdNone (s.mem (pmdAt (K.context 0) s.mem r.addr addr)) ∧ s.used page = false then
        some { s with
          mem := pmdPopulate (K.context 0) (zeroPage s.mem page.addr)
            (pmdAt (K.context 0) s.mem r.addr addr) page.addr
          used := Function.update s.used page true }
      else none
  | .setPteAt who addr pteval =>
    (s.root K who).bind fun r =>
      if Side who (topIndex addr) ∧ hasPte (K.context 0) s.mem r.addr addr then
        some { s with
          mem := setPteAt s.mem addr (pteAt (K.context 0) s.mem r.addr addr) pteval }
      else none
  | .pteFree mm addr =>
    (s.pgd mm).bind fun r =>
      let pmd := pmdAt (K.context 0) s.mem r.addr addr
      if Side (some mm) (topIndex addr) ∧ hasPte (K.context 0) s.mem r.addr addr ∧
          Clear K s.mem (s.mem pmd) then
        some { s with
          mem := pmdClear s.mem pmd
          used := Function.update s.used (pageOf K (s.mem pmd)) false }
      else none
  | .pmdFree mm addr =>
    (s.pgd mm).bind fun r =>
      let pud := pudAt r.addr addr
      if depth x = 2 ∧ Side (some mm) (topIndex addr) ∧ hasTable (s.mem pud) ∧
          Clear K s.mem (s.mem pud) then
        some { s with
          mem := pudClear s.mem pud
          used := Function.update s.used (pageOf K (s.mem pud)) false }
      else none
  | .vmallocFault mm addr =>
    (s.pgd mm).bind fun r =>
      if Side (none : Option ι) (topIndex addr) then
        some { s with
          mem := (vmallocFault (K.context (virtToPfn (K.context 0) r.addr)) srPs addr s.mem).1 }
      else none

/-! ## Maps -/

/-- What the tables are for: for every process, and for the kernel, the entries of its addresses,
with their levels. An address is the list of its indices, the first of them apart. -/
abbrev Maps (ι : Type*) (x : XLen) : Type _ :=
  Option ι → Option (Index x → List (Index x) → Option (Nat × Word x))

/-- A map with another entry for one address -/
def mapTo (map : Index x → List (Index x) → Option (Nat × Word x)) (addr : Word x)
    (entry : Option (Nat × Word x)) : Index x → List (Index x) → Option (Nat × Word x) :=
  fun i rest => if i = topIndex addr ∧ rest = lowerIndices addr then entry else map i rest

/-- What is done to the maps: a new process has an empty map, and an entry is written for one
address of one of them. -/
def Maps.apply (maps : Maps ι x) : Event ι x → Maps ι x
  | .pgdAlloc mm _ => Function.update maps (some mm) (some fun _ _ => none)
  | .pgdFree mm => Function.update maps (some mm) none
  | .setPteAt who addr pteval =>
    Function.update maps who
      ((maps who).map fun map => mapTo map addr (if pteval = 0 then none else some (0, pteval)))
  | _ => maps

/-- The map that a table is to a process, or to the kernel -/
def mapOf (K : Mapping x) (m : Tables x) (who : Option ι) (r : Page x) (i : Index x)
    (rest : List (Index x)) : Option (Nat × Word x) :=
  if Side who i ∧ rest.length = depth x then (entries K).read (tables m) r i rest else none

/-- The maps that the tables are -/
def view (K : Mapping x) (s : System ι x) : Maps ι x := fun who =>
  (s.root K who).map (mapOf K s.mem who)

/-! ## The invariant -/

/-- The slots of the highest level at which the walks for a process or for the kernel start -/
def head (K : Mapping x) (s : System ι x) (p : Page x) (i : Index x) : Prop :=
  ∃ who, s.root K who = some p ∧ Side who i

/-- The tables in use are a forest, in which every process and the kernel have their own heads; and
for the addresses of the kernel the table of a process says what that of `init_mm` says, or
nothing. -/
structure Inv (K : Mapping x) (s : System ι x) (level : Page x → Option Nat) : Prop where
  forest : Forest (entries K) (depth x) (tables s.mem) level (head K s)
  used : ∀ p k, level p = some k → s.used p = true
  roots : ∀ who r, s.root K who = some r → level r = some (depth x)
  distinct : ∀ who who' r, s.root K who = some r → s.root K who' = some r → who = who'
  copies : ∀ mm r i, s.pgd mm = some r → Side (none : Option ι) i →
    tables s.mem r i = 0 ∨ tables s.mem r i = tables s.mem K.initPgd i

section

variable {K : Mapping x} {s t : System ι x} {level : Page x → Option Nat}

omit [DecidableEq ι]

theorem depth_pos (x : XLen) : 0 < depth x := by
  cases x <;> decide

/-- No process has the side of the kernel. -/
theorem not_side {i : Index x} (kernel : Side (none : Option ι) i) (mm : ι) :
    ¬ Side (some mm) i := by
  intro user
  exact Bool.false_ne_true (kernel.trans user.symm)

/-- A walk for an address of a process or of the kernel -/
theorem Inv.counted (inv : Inv K s level) {who : Option ι} {r : Page x}
    (root : s.root K who = some r) {i : Index x} (side : Side who i) {rest : List (Index x)}
    (length : rest.length = depth x) :
    Counted (depth x) level (head K s) r i rest :=
  ⟨length ▸ inv.roots who r root, fun _ => ⟨who, root, side⟩⟩

/-- The roots are those of the processes. -/
theorem root_congr (pgd : t.pgd = s.pgd) : t.root K = s.root K := by
  funext who
  cases who with
  | none => rfl
  | some mm => exact congrFun pgd mm

/-- A map is what the walks of its side read. -/
theorem mapOf_congr {m m' : Tables x} {who : Option ι} {r : Page x}
    (same : ∀ i rest, Side who i → rest.length = depth x →
      (entries K).read (tables m') r i rest = (entries K).read (tables m) r i rest) :
    mapOf K m' who r = mapOf K m who r := by
  funext i rest
  rw [mapOf, mapOf]
  by_cases counted : Side who i ∧ rest.length = depth x
  · rw [if_pos counted, if_pos counted, same i rest counted.1 counted.2]
  · rw [if_neg counted, if_neg counted]

/-- The maps are what the walks read. -/
theorem view_congr (pgd : t.pgd = s.pgd)
    (same : ∀ who r i rest, s.root K who = some r → Side who i → rest.length = depth x →
      (entries K).read (tables t.mem) r i rest = (entries K).read (tables s.mem) r i rest) :
    view K t = view K s := by
  funext who
  rw [view, view, root_congr pgd]
  cases here : s.root K who with
  | none => rfl
  | some r => exact congrArg some (mapOf_congr fun i rest => same who r i rest here)

/-- A free page is in no table. -/
theorem Inv.fresh (inv : Inv K s level) {page : Page x} (free : s.used page = false) :
    level page = none := by
  cases used : level page with
  | none => rfl
  | some k => exact absurd (free.symm.trans (inv.used page k used)) Bool.false_ne_true

/-- The slot of a process for an address of the kernel does not count. -/
theorem Inv.uncounted (inv : Inv K s level) {mm : ι} {r : Page x} (pgd : s.pgd mm = some r)
    {i : Index x} (kernel : Side (none : Option ι) i) : ¬ head K s r i := by
  rintro ⟨who, root, side⟩
  obtain rfl := inv.distinct who (some mm) r root pgd
  exact not_side kernel mm side

theorem Inv.ne_init (inv : Inv K s level) {mm : ι} {r : Page x} (pgd : s.pgd mm = some r) :
    r ≠ K.initPgd := by
  rintro rfl
  cases inv.distinct (some mm) none _ pgd rfl

/-- Writes that leave the roots, with the forest after them -/
theorem Inv.keep (inv : Inv K s level) {level' : Page x → Option Nat} (pgd : t.pgd = s.pgd)
    (forest : Forest (entries K) (depth x) (tables t.mem) level' (head K s))
    (used : ∀ p k, level' p = some k → t.used p = true)
    (roots : ∀ who r, s.root K who = some r → level' r = some (depth x))
    (copies : ∀ mm r i, s.pgd mm = some r → Side (none : Option ι) i →
      tables t.mem r i = 0 ∨ tables t.mem r i = tables t.mem K.initPgd i) : Inv K t level' := by
  have root := root_congr (K := K) pgd
  refine ⟨?_, used, ?_, ?_, ?_⟩
  · have heads : head K t = head K s := by
      funext p i
      rw [head, head, root]
    rwa [heads]
  · rwa [root]
  · rw [root]
    exact inv.distinct
  · rwa [pgd]

end

section

variable {K : Mapping x} {s : System ι x} {level : Page x → Option Nat}

/-- A write to the lowest table for an address -/
theorem Inv.setPteAt (inv : Inv K s level) {who : Option ι} {r : Page x}
    (root : s.root K who = some r) {addr : Word x} (side : Side who (topIndex addr))
    (table : hasPte (K.context 0) s.mem r.addr addr = true) (pteval : Word x) :
    Inv K { s with
      mem := PageTable.setPteAt s.mem addr (pteAt (K.context 0) s.mem r.addr addr) pteval } level ∧
    ∀ who' r' i rest, s.root K who' = some r' → Side who' i → rest.length = depth x →
      (entries K).read (tables (PageTable.setPteAt s.mem addr
        (pteAt (K.context 0) s.mem r.addr addr) pteval)) r' i rest
      = if who' = who ∧ i = topIndex addr ∧ rest = lowerIndices addr then
          (entries K).seen 0 pteval
        else (entries K).read (tables s.mem) r' i rest := by
  obtain ⟨q, j, there, ends⟩ := find_pteAt K table
  have starts := inv.counted root side (length_lowerIndices addr)
  have lowest := inv.forest.find_level starts ends
  have written : tables (PageTable.setPteAt s.mem addr
      (pteAt (K.context 0) s.mem r.addr addr) pteval) = putEntry (tables s.mem) q j pteval := by
    rw [PageTable.setPteAt, setPte, there, tables_update]
  have top (who : Option ι) {p : Page x} (root : s.root K who = some p) : p ≠ q := by
    rintro rfl
    have levels := Option.some.inj (lowest.symm.trans (inv.roots who p root))
    exact Nat.ne_of_lt (depth_pos x) levels
  refine ⟨inv.keep rfl ?_ inv.used inv.roots fun mm r' i pgd kernel => ?_, ?_⟩
  · rw [written]
    exact inv.forest.putEntry_uncounted fun k up => by cases lowest.symm.trans up
  · rw [written, putEntry_of_ne_table (top (some mm) pgd),
      putEntry_of_ne_table (top none rfl)]
    exact inv.copies mm r' i pgd kernel
  · intro who' r' i rest root' side' length
    rw [written, inv.forest.read_putEntry starts ends (inv.counted root' side' length)
      ((length_lowerIndices addr).trans length.symm)]
    by_cases same : who' = who
    · obtain rfl := same
      obtain rfl : r' = r := Option.some.inj (root'.symm.trans root)
      simp only [true_and]
    · have apart : r' ≠ r := by
        rintro rfl
        exact same (inv.distinct who' who r' root' root)
      simp only [apart, same, false_and, if_false]

omit [DecidableEq ι] in
/-- A new page of zeros: it is in no table. -/
theorem Inv.zeroPage (inv : Inv K s level) {page : Page x} (free : s.used page = false) :
    Inv K { s with mem := PageTable.zeroPage s.mem page.addr } level ∧
    (∀ p, p ≠ page → tables (PageTable.zeroPage s.mem page.addr) p = tables s.mem p) ∧
    (∀ j, tables (PageTable.zeroPage s.mem page.addr) page j = 0) ∧
    ∀ who r i rest, s.root K who = some r → Side who i → rest.length = depth x →
      (entries K).read (tables (PageTable.zeroPage s.mem page.addr)) r i rest
        = (entries K).read (tables s.mem) r i rest := by
  have fresh := inv.fresh free
  have others (p : Page x) (other : p ≠ page) :
      tables (PageTable.zeroPage s.mem page.addr) p = tables s.mem p := by
    funext j
    rw [tables_zeroPage, if_neg other]
  have in_use {p : Page x} {k : Nat} (up : level p = some k) : p ≠ page := by
    rintro rfl
    cases fresh.symm.trans up
  refine ⟨inv.keep rfl ?_ inv.used inv.roots fun mm r i pgd kernel => ?_, others, fun j => ?_, ?_⟩
  · exact inv.forest.congr fun p i k up _ => congrFun (others p (in_use up)) i
  · rw [others r (in_use (inv.roots (some mm) r pgd)), others _ (in_use (inv.roots none _ rfl))]
    exact inv.copies mm r i pgd kernel
  · rw [tables_zeroPage, if_pos rfl]
  · exact fun who r i rest root side length =>
      inv.forest.read_plant fresh others (inv.counted root side length)

omit [DecidableEq ι] in
/-- A new table for an entry that says nothing -/
theorem Inv.populate (inv : Inv K s level) {page q : Page x} {i : Index x} {k : Nat}
    (free : s.used page = false) (up : level q = some (k + 1))
    (counted : k + 1 = depth x → head K s q i) (none_there : tables s.mem q i = 0) :
    Inv K ⟨Function.update (PageTable.zeroPage s.mem page.addr) (slot q i)
        (tableEntry (K.context 0) page.addr), s.pgd, Function.update s.used page true⟩
      (Function.update level page (some k)) ∧
    ∀ who r i' rest, s.root K who = some r → Side who i' → rest.length = depth x →
      (entries K).read (tables (Function.update (PageTable.zeroPage s.mem page.addr) (slot q i)
        (tableEntry (K.context 0) page.addr))) r i' rest
        = (entries K).read (tables s.mem) r i' rest := by
  obtain ⟨zeroed, others, clear, reads⟩ := inv.zeroPage free
  have fresh := inv.fresh free
  have in_use {p : Page x} {k : Nat} (up : level p = some k) : p ≠ page := by
    rintro rfl
    cases fresh.symm.trans up
  have empty : tables (PageTable.zeroPage s.mem page.addr) q i = 0 := by
    rw [others q (in_use up), none_there]
  have below : (entries K).child (tableEntry (K.context 0) page.addr) = some page :=
    child_tableEntry K 0 page
  refine ⟨?_, fun who r i' rest root side length => ?_⟩
  · refine inv.keep rfl ?_ (fun p l above => ?_) (fun who r root => ?_) fun mm r j pgd kernel => ?_
    · rw [tables_update]
      exact zeroed.forest.grow up counted fresh clear below
    · rcases eq_or_ne p page with rfl | other
      · exact Function.update_self ..
      · rw [Function.update_of_ne other] at above
        exact (Function.update_of_ne other ..).trans (inv.used p l above)
    · rw [Function.update_of_ne (in_use (inv.roots who r root))]
      exact inv.roots who r root
    · -- The entry is not one that a process has for the kernel, but may be one of `init_mm`.
      have apart : (r, j) ≠ (q, i) := by
        intro same
        obtain ⟨rfl, rfl⟩ := Prod.mk.inj same
        have top := Option.some.inj (up.symm.trans (inv.roots (some mm) r pgd))
        exact inv.uncounted pgd kernel (counted top)
      rw [tables_update, putEntry_of_ne apart]
      rcases zeroed.copies mm r j pgd kernel with nothing | same
      · exact .inl nothing
      · by_cases init : (K.initPgd, j) = (q, i)
        · obtain ⟨rfl, rfl⟩ := Prod.mk.inj init
          exact .inl (same.trans empty)
        · rw [putEntry_of_ne init]
          exact .inr same
  · rw [tables_update, zeroed.forest.read_grow up empty fresh clear below
      (zeroed.counted root side length)]
    exact reads who r i' rest root side length

omit [DecidableEq ι] in
/-- A table of entries that say nothing is taken out. -/
theorem Inv.remove (inv : Inv K s level) {c q : Page x} {i : Index x} {k : Nat}
    (up : level q = some (k + 1)) (counted : k + 1 = depth x → head K s q i)
    (apart : q ≠ K.initPgd) (below : child K (tables s.mem q i) = some c)
    (clear : ∀ j, tables s.mem c j = 0) :
    Inv K ⟨Function.update s.mem (slot q i) 0, s.pgd, Function.update s.used c false⟩
      (Function.update level c none) ∧
    ∀ who r i' rest, s.root K who = some r → Side who i' → rest.length = depth x →
      (entries K).read (tables (Function.update s.mem (slot q i) 0)) r i' rest
        = (entries K).read (tables s.mem) r i' rest := by
  have lower := inv.forest.below q i k c up counted below
  have inside := inv.forest.bound q _ up
  have top {who : Option ι} {r : Page x} (root : s.root K who = some r) : r ≠ c := by
    rintro rfl
    have levels := Option.some.inj (lower.symm.trans (inv.roots who r root))
    omega
  refine ⟨?_, fun who r i' rest root side length => ?_⟩
  · refine inv.keep rfl ?_ (fun p l above => ?_) (fun who r root => ?_) fun mm r j pgd kernel => ?_
    · rw [tables_update]
      exact inv.forest.prune up counted below
    · have other : p ≠ c := by
        rintro rfl
        rw [Function.update_self] at above
        cases above
      rw [Function.update_of_ne other] at above
      exact (Function.update_of_ne other ..).trans (inv.used p l above)
    · rw [Function.update_of_ne (top root)]
      exact inv.roots who r root
    · have other : (r, j) ≠ (q, i) := by
        intro same
        obtain ⟨rfl, rfl⟩ := Prod.mk.inj same
        have high := Option.some.inj (up.symm.trans (inv.roots (some mm) r pgd))
        exact inv.uncounted pgd kernel (counted high)
      rw [tables_update, putEntry_of_ne other,
        putEntry_of_ne_table (Ne.symm apart)]
      exact inv.copies mm r j pgd kernel
  · rw [tables_update]
    exact inv.forest.read_prune up counted below clear (inv.counted root side length) (top root)

/-- A new process: its table has nothing for its own addresses, and for those of the kernel what
that of `init_mm` has. -/
theorem Inv.pgdAlloc (inv : Inv K s level) {mm : ι} {page : Page x} (new : s.pgd mm = none)
    (free : s.used page = false) :
    Inv K ⟨PageTable.pgdAlloc (K.context 0) s.mem page.addr,
        Function.update s.pgd mm (some page), Function.update s.used page true⟩
      (Function.update level page (some (depth x))) ∧
    (∀ i, i.val < userPtrsPerPgd x →
      tables (PageTable.pgdAlloc (K.context 0) s.mem page.addr) page i = 0) ∧
    ∀ who r i rest, s.root K who = some r → Side who i → rest.length = depth x →
      (entries K).read (tables (PageTable.pgdAlloc (K.context 0) s.mem page.addr)) r i rest
        = (entries K).read (tables s.mem) r i rest := by
  have fresh := inv.fresh free
  have in_use {p : Page x} {k : Nat} (up : level p = some k) : p ≠ page := by
    rintro rfl
    cases fresh.symm.trans up
  have init := in_use (inv.roots none _ rfl)
  have made := tables_pgdAlloc (K.context 0) s.mem (r := page) rfl init
  have others (p : Page x) (other : p ≠ page) :
      tables (PageTable.pgdAlloc (K.context 0) s.mem page.addr) p = tables s.mem p := by
    funext j
    rw [made, if_neg other]
  have empty (i : Index x) (user : i.val < userPtrsPerPgd x) :
      tables (PageTable.pgdAlloc (K.context 0) s.mem page.addr) page i = 0 := by
    rw [made, if_pos rfl, if_pos user]
  have root (who : Option ι) (other : who ≠ some mm) :
      System.root K ⟨PageTable.pgdAlloc (K.context 0) s.mem page.addr,
        Function.update s.pgd mm (some page), Function.update s.used page true⟩ who
        = s.root K who := by
    cases who with
    | none => rfl
    | some mm' => exact Function.update_of_ne (fun same => other (congrArg some same)) ..
  have own : System.root K ⟨PageTable.pgdAlloc (K.context 0) s.mem page.addr,
      Function.update s.pgd mm (some page), Function.update s.used page true⟩ (some mm)
      = some page := Function.update_self ..
  have none_before {who : Option ι} {r : Page x} (here : s.root K who = some r) :
      who ≠ some mm := by
    rintro rfl
    cases new.symm.trans here
  refine ⟨⟨?_, fun p l above => ?_, fun who r here => ?_, fun who who' r here here' => ?_,
    fun mm' r i pgd kernel => ?_⟩, empty, fun who r i rest here side length => ?_⟩
  · have heads : head K ⟨PageTable.pgdAlloc (K.context 0) s.mem page.addr,
        Function.update s.pgd mm (some page), Function.update s.used page true⟩
        = fun p i => head K s p i ∨ p = page ∧ i.val < userPtrsPerPgd x := by
      funext p i
      refine propext ⟨?_, ?_⟩
      · rintro ⟨who, here, side⟩
        by_cases this : who = some mm
        · obtain rfl := this
          obtain rfl := Option.some.inj (own.symm.trans here)
          exact .inr ⟨rfl, of_decide_eq_true side.symm⟩
        · exact .inl ⟨who, (root who this).symm.trans here, side⟩
      · rintro (⟨who, here, side⟩ | ⟨rfl, user⟩)
        · exact ⟨who, (root who (none_before here)).trans here, side⟩
        · exact ⟨some mm, own, (decide_eq_true user).symm⟩
    rw [heads]
    exact inv.forest.plant fresh others empty
  · rcases eq_or_ne p page with rfl | other
    · exact Function.update_self ..
    · rw [Function.update_of_ne other] at above
      exact (Function.update_of_ne other ..).trans (inv.used p l above)
  · by_cases this : who = some mm
    · obtain rfl := this
      obtain rfl := Option.some.inj (own.symm.trans here)
      exact Function.update_self ..
    · rw [root who this] at here
      rw [Function.update_of_ne (in_use (inv.roots who r here))]
      exact inv.roots who r here
  · by_cases this : who = some mm <;> by_cases that : who' = some mm
    · exact this.trans that.symm
    · obtain rfl := this
      obtain rfl := Option.some.inj (own.symm.trans here)
      rw [root who' that] at here'
      exact absurd rfl (in_use (inv.roots who' page here'))
    · obtain rfl := that
      obtain rfl := Option.some.inj (own.symm.trans here')
      rw [root who this] at here
      exact absurd rfl (in_use (inv.roots who page here))
    · rw [root who this] at here
      rw [root who' that] at here'
      exact inv.distinct who who' r here here'
  · rw [others _ init]
    by_cases this : mm' = mm
    · obtain rfl := this
      obtain rfl := Option.some.inj (own.symm.trans pgd)
      refine .inr ?_
      rw [made, if_pos rfl, if_neg fun user => not_side kernel mm' (decide_eq_true user).symm]
    · have before : s.pgd mm' = some r := (Function.update_of_ne this ..).symm.trans pgd
      rw [others r (in_use (inv.roots (some mm') r before))]
      exact inv.copies mm' r i before kernel
  · exact inv.forest.read_plant fresh others (inv.counted here side length)

/-- A process comes to its end. -/
theorem Inv.pgdFree (inv : Inv K s level) {mm : ι} {r : Page x} (pgd : s.pgd mm = some r) :
    Inv K ⟨s.mem, Function.update s.pgd mm none, Function.update s.used r false⟩
      (Function.update level r none) := by
  have own : System.root K (⟨s.mem, Function.update s.pgd mm none, Function.update s.used r false⟩)
      (some mm) = none := Function.update_self ..
  have root (who : Option ι) (other : who ≠ some mm) :
      System.root K ⟨s.mem, Function.update s.pgd mm none, Function.update s.used r false⟩ who
        = s.root K who := by
    cases who with
    | none => rfl
    | some mm' => exact Function.update_of_ne (fun same => other (congrArg some same)) ..
  have before (who : Option ι) {p : Page x}
      (here : System.root K ⟨s.mem, Function.update s.pgd mm none, Function.update s.used r false⟩
        who = some p) : s.root K who = some p ∧ p ≠ r := by
    have other : who ≠ some mm := by
      rintro rfl
      cases own.symm.trans here
    rw [root who other] at here
    refine ⟨here, ?_⟩
    rintro rfl
    exact other (inv.distinct who (some mm) p here pgd)
  refine ⟨?_, fun p l above => ?_, fun who p here => ?_, fun who who' p here here' => ?_,
    fun mm' p i here kernel => ?_⟩
  · have heads : head K ⟨s.mem, Function.update s.pgd mm none, Function.update s.used r false⟩
        = fun p i => head K s p i ∧ p ≠ r := by
      funext p i
      refine propext ⟨?_, ?_⟩
      · rintro ⟨who, here, side⟩
        exact ⟨⟨who, (before _ here).1, side⟩, (before _ here).2⟩
      · rintro ⟨⟨who, here, side⟩, other⟩
        refine ⟨who, (root who ?_).trans here, side⟩
        rintro rfl
        exact other (Option.some.inj (here.symm.trans pgd))
    rw [heads]
    exact inv.forest.fell (inv.roots (some mm) r pgd)
  · have other : p ≠ r := by
      rintro rfl
      rw [Function.update_self] at above
      cases above
    rw [Function.update_of_ne other] at above
    exact (Function.update_of_ne other ..).trans (inv.used p l above)
  · rw [Function.update_of_ne (before _ here).2]
    exact inv.roots who p (before _ here).1
  · exact inv.distinct who who' p (before _ here).1 (before _ here').1
  · exact inv.copies mm' p i (before (some mm') here).1 kernel

omit [DecidableEq ι] in
/-- What a fault in the `vmalloc` area writes -/
theorem tables_vmallocFault (m : Tables x) (r : Page x) (addr : Word x) :
    tables (vmallocFault (K.context (virtToPfn (K.context 0) r.addr)) srPs addr m).1
      = putEntry (tables m) r (topIndex addr) (tables m K.initPgd (topIndex addr)) := by
  have kernel : userMode (srPs : Word x) = false := by cases x <;> decide
  have own : (K.context (virtToPfn (K.context 0) r.addr)).pgd addr = slot r (topIndex addr) := by
    have page : (K.context (virtToPfn (K.context 0) r.addr)).pfnToVirt
        (virtToPfn (K.context 0) r.addr) = r.addr := pfnToVirt_virtToPfn K _ r
    exact (congrArg (entryAt · (pgdIndex addr)) page).trans (entryAt_index r _ addr)
  have reference : (K.context (virtToPfn (K.context 0) r.addr)).pgdK addr
      = slot K.initPgd (topIndex addr) := entryAt_index K.initPgd _ addr
  rw [vmallocFault_tables kernel, copied, setPgd_eq, own, reference, tables_update]
  rfl

omit [DecidableEq ι] in
theorem Inv.vmallocFault (inv : Inv K s level) {mm : ι} {r : Page x} (pgd : s.pgd mm = some r)
    {addr : Word x} (kernel : Side (none : Option ι) (topIndex addr)) :
    Inv K { s with mem := (VmallocFault.vmallocFault
      (K.context (virtToPfn (K.context 0) r.addr)) srPs addr s.mem).1 } level ∧
    ∀ who r' i rest, s.root K who = some r' → Side who i → rest.length = depth x →
      (entries K).read (tables (VmallocFault.vmallocFault
        (K.context (virtToPfn (K.context 0) r.addr)) srPs addr s.mem).1) r' i rest
        = (entries K).read (tables s.mem) r' i rest := by
  have uncounted : ¬ head K s r (topIndex addr) := inv.uncounted pgd kernel
  have top := inv.roots (some mm) r pgd
  have apart : K.initPgd ≠ r := Ne.symm (inv.ne_init pgd)
  have others (p : Page x) (i : Index x) (k : Nat) (up : level p = some (k + 1))
      (counted : k + 1 = depth x → head K s p i) :
      putEntry (tables s.mem) r (topIndex addr) (tables s.mem K.initPgd (topIndex addr)) p i
        = tables s.mem p i := by
    refine putEntry_of_ne fun same => ?_
    obtain ⟨rfl, rfl⟩ := Prod.mk.inj same
    exact uncounted (counted (Option.some.inj (up.symm.trans top)))
  refine ⟨inv.keep rfl ?_ inv.used inv.roots fun mm' r' i pgd' side => ?_, ?_⟩
  · rw [tables_vmallocFault]
    exact inv.forest.congr others
  · rw [tables_vmallocFault, putEntry_of_ne_table apart]
    by_cases here : (r', i) = (r, topIndex addr)
    · obtain ⟨rfl, rfl⟩ := Prod.mk.inj here
      exact .inr (putEntry_self ..)
    · rw [putEntry_of_ne here]
      exact inv.copies mm' r' i pgd' side
  · intro who r' i rest root side length
    rw [tables_vmallocFault]
    refine inv.forest.read_congr (inv.counted root side length) others fun q j low => ?_
    refine congrFun (putEntry_of_ne_table ?_) j
    rintro rfl
    exact Nat.ne_of_lt (depth_pos x) (Option.some.inj (low.symm.trans top))

end

/-! ## Steps -/

section

variable {K : Mapping x} {s t : System ι x} {level : Page x → Option Nat}

omit [DecidableEq ι] in
/-- A map with what is read at one address -/
theorem mapOf_setPteAt {m m' : Tables x} {who : Option ι} {r : Page x} {addr pteval : Word x}
    (side : Side who (topIndex addr))
    (reads : ∀ i rest, Side who i → rest.length = depth x →
      (entries K).read (tables m') r i rest
        = if i = topIndex addr ∧ rest = lowerIndices addr then (entries K).seen 0 pteval
          else (entries K).read (tables m) r i rest) :
    mapOf K m' who r
      = mapTo (mapOf K m who r) addr (if pteval = 0 then none else some (0, pteval)) := by
  funext i rest
  rw [mapTo, mapOf, mapOf]
  by_cases counted : Side who i ∧ rest.length = depth x
  · rw [if_pos counted, if_pos counted, reads i rest counted.1 counted.2]
    rfl
  · have other : ¬ (i = topIndex addr ∧ rest = lowerIndices addr) := by
      rintro ⟨rfl, rfl⟩
      exact counted ⟨side, length_lowerIndices addr⟩
    rw [if_neg counted, if_neg other, if_neg counted]

omit [DecidableEq ι] in
/-- The map of a process, or of the kernel -/
theorem view_of_root {who : Option ι} {r : Page x} (root : s.root K who = some r) :
    view K s who = some (mapOf K s.mem who r) := by
  rw [view, root]
  rfl

omit [DecidableEq ι] in
/-- The entry for the lowest table is one that counts. -/
theorem Inv.slot_pmd (inv : Inv K s level) {who : Option ι} {r : Page x}
    (root : s.root K who = some r) {addr : Word x} (side : Side who (topIndex addr))
    (middle : hasPmd s.mem r.addr addr = true) :
    ∃ q i, pmdAt (K.context 0) s.mem r.addr addr = slot q i ∧ level q = some (0 + 1) ∧
      (0 + 1 = depth x → head K s q i) ∧ (q = K.initPgd → who = none) := by
  obtain ⟨q, i, there, place⟩ := pmdAt_cases K middle
  refine ⟨q, i, there, ?_⟩
  have top := inv.roots who r root
  rcases place with ⟨one, rfl, rfl, -⟩ | ⟨two, below, -⟩
  · rw [one] at top
    refine ⟨top, fun _ => ⟨who, root, side⟩, ?_⟩
    rintro rfl
    exact inv.distinct who none _ root rfl
  · rw [two] at top
    have lower := inv.forest.below r (topIndex addr) 1 q top (fun _ => ⟨who, root, side⟩) below
    refine ⟨lower, fun one => ?_, ?_⟩
    · omega
    · rintro rfl
      have high := Option.some.inj (lower.symm.trans (inv.roots none _ rfl))
      omega

omit [DecidableEq ι] in
/-- A page whose entries say nothing -/
theorem clear_tables {entry : Word x} (clear : Clear K s.mem entry) (j : Index x) :
    tables s.mem (pageOf K entry) j = 0 :=
  clear j

/-- A write to one entry, on the maps -/
theorem view_setPteAt (inv : Inv K s level) {who : Option ι} {r : Page x}
    (root : s.root K who = some r) {addr pteval : Word x} (side : Side who (topIndex addr))
    (table : hasPte (K.context 0) s.mem r.addr addr = true) :
    view K { s with
      mem := PageTable.setPteAt s.mem addr (pteAt (K.context 0) s.mem r.addr addr) pteval }
      = (view K s).apply (.setPteAt who addr pteval) := by
  obtain ⟨-, reads⟩ := inv.setPteAt root side table pteval
  have roots : System.root K { s with
      mem := PageTable.setPteAt s.mem addr (pteAt (K.context 0) s.mem r.addr addr) pteval }
      = s.root K := root_congr rfl
  funext who'
  rw [Maps.apply]
  by_cases same : who' = who
  · obtain rfl := same
    rw [Function.update_self, view_of_root root, view_of_root ((congrFun roots who').trans root)]
    refine congrArg some (mapOf_setPteAt side fun i rest side' length => ?_)
    simpa only [true_and] using reads who' r i rest root side' length
  · rw [Function.update_of_ne same, view, view, roots]
    cases here : s.root K who' with
    | none => rfl
    | some r' =>
      refine congrArg some (mapOf_congr fun i rest side' length => ?_)
      exact (reads who' r' i rest here side' length).trans (if_neg fun both => same both.1)

/-- A new process, on the maps -/
theorem view_pgdAlloc (inv : Inv K s level) {mm : ι} {page : Page x} (new : s.pgd mm = none)
    (free : s.used page = false) :
    view K ⟨PageTable.pgdAlloc (K.context 0) s.mem page.addr,
        Function.update s.pgd mm (some page), Function.update s.used page true⟩
      = (view K s).apply (.pgdAlloc mm page) := by
  obtain ⟨-, empty, reads⟩ := inv.pgdAlloc new free
  funext who
  rw [Maps.apply]
  by_cases this : who = some mm
  · obtain rfl := this
    have own : System.root K ⟨PageTable.pgdAlloc (K.context 0) s.mem page.addr,
        Function.update s.pgd mm (some page), Function.update s.used page true⟩ (some mm)
        = some page := Function.update_self ..
    rw [Function.update_self]
    refine (view_of_root own).trans (congrArg some ?_)
    funext i rest
    rw [mapOf]
    by_cases counted : Side (some mm) i ∧ rest.length = depth x
    · rw [if_pos counted]
      exact (entries K).read_of_empty (empty i (of_decide_eq_true counted.1.symm)) rest
    · rw [if_neg counted]
  · have root : System.root K ⟨PageTable.pgdAlloc (K.context 0) s.mem page.addr,
        Function.update s.pgd mm (some page), Function.update s.used page true⟩ who
        = s.root K who := by
      cases who with
      | none => rfl
      | some mm' => exact Function.update_of_ne (fun same => this (congrArg some same)) ..
    rw [Function.update_of_ne this, view, view, root]
    cases here : s.root K who with
    | none => rfl
    | some r => exact congrArg some (mapOf_congr fun i rest => reads who r i rest here)

/-- The end of a process, on the maps -/
theorem view_pgdFree (K : Mapping x) (s : System ι x) (mm : ι) (r : Page x) :
    view K ⟨s.mem, Function.update s.pgd mm none, Function.update s.used r false⟩
      = (view K s).apply (.pgdFree mm) := by
  funext who
  rw [Maps.apply]
  by_cases this : who = some mm
  · obtain rfl := this
    have own : System.root K ⟨s.mem, Function.update s.pgd mm none, Function.update s.used r false⟩
        (some mm) = none := Function.update_self ..
    rw [Function.update_self, view, own]
    rfl
  · rw [Function.update_of_ne this, view, view]
    refine congrArg (Option.map (mapOf K s.mem who)) ?_
    cases who with
    | none => rfl
    | some mm' => exact Function.update_of_ne (fun same => this (congrArg some same)) ..

/-- A step of the tables is a step of the maps, and keeps what holds. -/
theorem step_maps (inv : Inv K s level) {e : Event ι x} (next : step K s e = some t) :
    view K t = (view K s).apply e ∧ ∃ level', Inv K t level' := by
  cases e with
  | pgdAlloc mm page =>
    rw [step, Option.ite_none_right_eq_some] at next
    rcases next with ⟨⟨new, free⟩, next⟩
    cases next
    exact ⟨view_pgdAlloc inv new free, _, (inv.pgdAlloc new free).1⟩
  | pgdFree mm =>
    obtain ⟨r, pgd, next⟩ := Option.map_eq_some_iff.mp next
    cases next
    exact ⟨view_pgdFree K s mm r, _, inv.pgdFree pgd⟩
  | pudPopulate who addr page =>
    obtain ⟨r, root, next⟩ := Option.bind_eq_some_iff.mp next
    rw [Option.ite_none_right_eq_some] at next
    rcases next with ⟨⟨two, side, nothing, free⟩, next⟩
    cases next
    have up := inv.roots who r root
    rw [two] at up
    rw [pudAt_eq] at nothing ⊢
    obtain ⟨kept, reads⟩ := inv.populate free up (fun _ => ⟨who, root, side⟩)
      (beq_iff_eq.mp nothing)
    have write := setPgd_eq (zeroPage s.mem page.addr) (slot r (topIndex addr))
      (tableEntry (K.context 0) page.addr)
    have mem : pudPopulate (K.context 0) (zeroPage s.mem page.addr) (slot r (topIndex addr))
        page.addr = _ := write
    rw [mem]
    exact ⟨view_congr rfl reads, _, kept⟩
  | pmdPopulate who addr page =>
    obtain ⟨r, root, next⟩ := Option.bind_eq_some_iff.mp next
    rw [Option.ite_none_right_eq_some] at next
    rcases next with ⟨⟨side, middle, nothing, free⟩, next⟩
    cases next
    obtain ⟨q, i, there, up, counted, -⟩ := inv.slot_pmd root side middle
    rw [there] at nothing ⊢
    obtain ⟨kept, reads⟩ := inv.populate free up counted (beq_iff_eq.mp nothing)
    exact ⟨view_congr rfl reads, _, kept⟩
  | setPteAt who addr pteval =>
    obtain ⟨r, root, next⟩ := Option.bind_eq_some_iff.mp next
    rw [Option.ite_none_right_eq_some] at next
    rcases next with ⟨⟨side, table⟩, next⟩
    cases next
    exact ⟨view_setPteAt inv root side table, level, (inv.setPteAt root side table pteval).1⟩
  | pteFree mm addr =>
    obtain ⟨r, pgd, next⟩ := Option.bind_eq_some_iff.mp next
    rw [Option.ite_none_right_eq_some] at next
    rcases next with ⟨⟨side, table, clear⟩, next⟩
    cases next
    rw [hasPte, Bool.and_eq_true] at table
    obtain ⟨q, i, there, up, counted, init⟩ := inv.slot_pmd (root_some pgd) side table.1
    rw [there] at table clear ⊢
    have apart : q ≠ K.initPgd := fun same => Option.some_ne_none mm (init same)
    obtain ⟨kept, reads⟩ := inv.remove up counted apart (if_pos table.2) (clear_tables clear)
    exact ⟨view_congr rfl reads, _, kept⟩
  | pmdFree mm addr =>
    obtain ⟨r, pgd, next⟩ := Option.bind_eq_some_iff.mp next
    rw [Option.ite_none_right_eq_some] at next
    rcases next with ⟨⟨two, side, table, clear⟩, next⟩
    cases next
    have up := inv.roots (some mm) r pgd
    rw [two] at up
    rw [pudAt_eq] at table clear ⊢
    obtain ⟨kept, reads⟩ := inv.remove up (fun _ => ⟨some mm, pgd, side⟩) (inv.ne_init pgd)
      (if_pos table) (clear_tables clear)
    have mem : pudClear s.mem (slot r (topIndex addr)) = _ :=
      setPgd_eq s.mem (slot r (topIndex addr)) 0
    rw [mem]
    exact ⟨view_congr rfl reads, _, kept⟩
  | vmallocFault mm addr =>
    obtain ⟨r, pgd, next⟩ := Option.bind_eq_some_iff.mp next
    rw [Option.ite_none_right_eq_some] at next
    rcases next with ⟨kernel, next⟩
    cases next
    obtain ⟨kept, reads⟩ := inv.vmallocFault pgd kernel
    exact ⟨view_congr rfl reads, level, kept⟩

end

/-! ## Runs -/

section

variable {K : Mapping x} {s t : System ι x}

/-- The kernel has its table, in which what is below the entries for its addresses is a tree of
tables, and there are no processes yet. -/
structure Boots (K : Mapping x) (s : System ι x) : Prop where
  pgd : ∀ mm, s.pgd mm = none
  tables : ∃ level, Forest (entries K) (depth x) (tables s.mem) level
      (fun p i => p = K.initPgd ∧ Side (none : Option ι) i) ∧
    level K.initPgd = some (depth x) ∧ ∀ p k, level p = some k → s.used p = true

omit [DecidableEq ι] in
theorem Boots.inv (boots : Boots K s) : ∃ level, Inv K s level := by
  obtain ⟨level, forest, top, used⟩ := boots.tables
  have only {who : Option ι} {r : Page x} (root : s.root K who = some r) :
      who = none ∧ r = K.initPgd := by
    cases who with
    | none => exact ⟨rfl, (Option.some.inj root).symm⟩
    | some mm => cases (boots.pgd mm).symm.trans root
  have heads : head K s = fun p i => p = K.initPgd ∧ Side (none : Option ι) i := by
    funext p i
    refine propext ⟨?_, ?_⟩
    · rintro ⟨who, root, side⟩
      obtain ⟨rfl, rfl⟩ := only root
      exact ⟨rfl, side⟩
    · rintro ⟨rfl, side⟩
      exact ⟨none, rfl, side⟩
  refine ⟨level, heads ▸ forest, used, fun who r root => ?_, fun who who' r root root' => ?_,
    fun mm r i pgd => ?_⟩
  · obtain ⟨-, rfl⟩ := only root
    exact top
  · exact (only root).1.trans (only root').1.symm
  · cases (boots.pgd mm).symm.trans pgd

end

/-! ## One process -/

/-- Memory is mapped where it is, and `init_mm` has its table in the second page. -/
def identity : Mapping .rv64 := ⟨0, rfl, ⟨0x1000, rfl⟩⟩

/-- All pages but that one are free. -/
def emptyMemory : System Bool .rv64 := ⟨fun _ => 0, fun _ => none, fun p => p == ⟨0x1000, rfl⟩⟩

theorem child_nothing (p : Page .rv64) (i : Index .rv64) :
    (entries identity).child (tables emptyMemory.mem p i) = none := by
  have nothing : tables emptyMemory.mem p i = 0 := rfl
  rw [nothing]
  exact child_zero identity

theorem boots_emptyMemory : Boots identity emptyMemory := by
  refine ⟨fun _ => rfl, fun p => if p = identity.initPgd then some 2 else none,
    ⟨fun p k up => ?_, fun p i top => if_pos top.1, fun p i k q _ _ below => ?_,
      fun p i k p' i' k' q _ _ _ _ below => ?_⟩, rfl, fun p k up => ?_⟩
  · rw [Option.ite_none_right_eq_some] at up
    exact Nat.le_of_eq (Option.some.inj up.2).symm
  · cases (child_nothing p i).symm.trans below
  · cases (child_nothing p i).symm.trans below
  · rw [Option.ite_none_right_eq_some] at up
    exact beq_iff_eq.mpr up.1

/-- A process gets its tables for the second page of its addresses, and an entry in the last. -/
def onePage : List (Event Bool .rv64) :=
  [.pgdAlloc true ⟨0x5000, rfl⟩, .pudPopulate (some true) 0x1000 ⟨0x6000, rfl⟩,
    .pmdPopulate (some true) 0x1000 ⟨0x7000, rfl⟩, .setPteAt (some true) 0x1000 0x2017]

end RiscvLinux.Mm.Spaces
