import RiscvLinux.Mm.Spaces

/-!
# Translations that a hart keeps

A hart keeps the translations that its walks have found, until it executes `sfence.vm`: `switch_mm`
of `mmu_context.h` and the functions of `tlbflush.h`, beside everything that is done to the tables
of any process. Any hart may walk the tables at any time.

`tlb_traced` says how old a translation can be that a hart still uses, and that it is never one of
another process.
-/

namespace RiscvLinux.Mm.Tlb

open Lib Trap VmallocFault BootTable PageTable Spaces

variable {x : XLen} {ι η : Type*}

/-! ## The code -/

/-- `sptbr` of a hart, whose table it is on (`none` for `init_mm`), and the translations it keeps -/
structure Core (ι : Type*) (x : XLen) where
  mm : Option ι
  sptbr : Word x
  tlb : Index x → List (Index x) → Option (Word x)

/-- What is flushed: everything, the page of an address, or the pages of a range -/
inductive Flush (x : XLen)
  | all
  | page (addr : Word x)
  | range (start size : Word x)

/-- The page of an address, by its indices -/
def pageNumber (i : Index x) (rest : List (Index x)) : Nat :=
  rest.foldl (fun n j => n * ptrsPerPte x + j.val) i.val

def Flush.Covers : Flush x → Index x → List (Index x) → Prop
  | .all, _, _ => True
  | .page addr, i, rest => i = topIndex addr ∧ rest = lowerIndices addr
  | .range start size, i, rest =>
    pageNumber (topIndex start) (lowerIndices start) ≤ pageNumber i rest ∧
      pageNumber i rest ≤
        pageNumber (topIndex (start + (size - 1))) (lowerIndices (start + (size - 1)))

instance (f : Flush x) (i : Index x) (rest : List (Index x)) : Decidable (f.Covers i rest) :=
  match f with
  | .all => inferInstanceAs (Decidable True)
  | .page _ => inferInstanceAs (Decidable (_ ∧ _))
  | .range _ _ => inferInstanceAs (Decidable (_ ∧ _))

/-- `sfence.vm` -/
def Core.sfence (c : Core ι x) (f : Flush x) : Core ι x :=
  { c with tlb := fun i rest => if f.Covers i rest then none else c.tlb i rest }

/-- `local_flush_tlb_all` -/
def Core.localFlushTlbAll (c : Core ι x) : Core ι x := c.sfence .all

/-- What `flush_tlb_range` asks the harts for -/
def flushTlbRange (start stop : Word x) : Flush x := .range start (stop - start)

/-- What `flush_tlb_page` asks them for -/
def flushTlbPage (addr : Word x) : Flush x := flushTlbRange addr (addr + 1)

/-- `switch_mm`, from the table the hart is on -/
def switchMm [DecidableEq ι] (K : Mapping x) (next : Option ι) (pgd : Page x) (c : Core ι x) :
    Core ι x :=
  if c.mm ≠ next then
    Core.localFlushTlbAll { c with
      mm := next
      sptbr := virtToPfn (K.context c.sptbr) pgd.addr }
  else c

/-- The walk of a hart, from the table in its `sptbr` -/
def walk (K : Mapping x) (m : Tables x) (sptbr addr : Word x) : Option (Word x) :=
  ((K.context sptbr).radix.walk m (pgdOffset ((K.context sptbr).pfnToVirt sptbr) addr)
    (levels addr)).map m

/-- The hart keeps a translation. -/
def Core.keep (c : Core ι x) (addr entry : Word x) : Core ι x :=
  { c with tlb := fun i rest =>
      if i = topIndex addr ∧ rest = lowerIndices addr then some entry else c.tlb i rest }

/-! ## The system -/

/-- The tables, and the harts -/
structure System (η ι : Type*) (x : XLen) where
  spaces : Spaces.System ι x
  core : η → Core ι x

/-- What can happen: something is done to the tables, a hart walks them, it switches to another
table, or it executes `sfence.vm`, for itself or because the firmware was asked for it. -/
inductive Event (η ι : Type*) (x : XLen)
  | tables (e : Spaces.Event ι x)
  | walk (h : η) (addr : Word x)
  | switchMm (h : η) (next : Option ι)
  | sfence (h : η) (f : Flush x)

variable [Fintype η] [DecidableEq η] [DecidableEq ι]

/-- A table is freed when no hart is on it any more. -/
def Left (core : η → Core ι x) : Spaces.Event ι x → Prop
  | .pgdFree mm => ∀ h, (core h).mm ≠ some mm
  | _ => True

instance (core : η → Core ι x) (e : Spaces.Event ι x) : Decidable (Left core e) :=
  match e with
  | .pgdFree _ => inferInstanceAs (Decidable (∀ _, _))
  | .pgdAlloc .. | .pudPopulate .. | .pmdPopulate .. | .setPteAt .. | .pteFree .. | .pmdFree ..
  | .vmallocFault .. => inferInstanceAs (Decidable True)

/-- One step. -/
def step (K : Mapping x) (s : System η ι x) : Event η ι x → Option (System η ι x)
  | .tables e =>
    if Left s.core e then (Spaces.step K s.spaces e).map fun spaces => { s with spaces } else none
  | .walk h addr =>
    (walk K s.spaces.mem (s.core h).sptbr addr).map fun entry =>
      { s with core := Function.update s.core h ((s.core h).keep addr entry) }
  | .switchMm h next =>
    (s.spaces.root K next).map fun pgd =>
      { s with core := Function.update s.core h (switchMm K next pgd (s.core h)) }
  | .sfence h f => some { s with core := Function.update s.core h ((s.core h).sfence f) }

/-- `paging_init` and the harts that come after: they are on the table of `init_mm`, and have
flushed everything. -/
structure Boots (K : Mapping x) (s : System η ι x) : Prop where
  spaces : Spaces.Boots K s.spaces
  mm : ∀ h, (s.core h).mm = none
  sptbr : ∀ h, (K.context 0).pfnToVirt (s.core h).sptbr = K.initPgd.addr
  tlb : ∀ h i rest, (s.core h).tlb i rest = none

/-! ## Pages of a range -/

/-- How many bytes the indices of an address tell apart -/
def span (x : XLen) : Nat := 4096 * ptrsPerPte x ^ (depth x + 1)

theorem val_index (shift : Nat) (addr : Word x) :
    (index shift addr).val = addr.toNat / 2 ^ shift % ptrsPerPte x := by
  change (addr >>> shift &&& ptrsMask).toNat = _
  rw [BitVec.toNat_and, BitVec.toNat_ushiftRight, Nat.shiftRight_eq_div_pow]
  cases x with
  | rv32 => exact Nat.and_two_pow_sub_one_eq_mod _ 10
  | rv64 => exact Nat.and_two_pow_sub_one_eq_mod _ 9

theorem pageNumber_eq (addr : Word x) :
    pageNumber (topIndex addr) (lowerIndices addr) = addr.toNat % span x / 4096 := by
  cases x with
  | rv32 =>
    simp only [pageNumber, lowerIndices, topIndex, List.foldl_cons, List.foldl_nil, val_index, span,
      ptrsPerPte, depth, pgdirShift, pageShift, XLen.szreg]
    omega
  | rv64 =>
    simp only [pageNumber, lowerIndices, topIndex, List.foldl_cons, List.foldl_nil, val_index, span,
      ptrsPerPte, depth, pgdirShift, pmdShift, pageShift, XLen.szreg]
    omega

/-- `flush_tlb_range` covers the pages of the range, if it does not go around. -/
theorem covers_flushTlbRange {start stop addr : Word x} (first : start.toNat ≤ addr.toNat)
    (last : addr.toNat < stop.toNat)
    (within : start.toNat / span x = (stop.toNat - 1) / span x) :
    (flushTlbRange start stop).Covers (topIndex addr) (lowerIndices addr) := by
  have final : (start + (stop - start - 1)).toNat = stop.toNat - 1 := by
    have before : start + (stop - start - 1) = stop - 1 := by ring
    have some_byte : 1 ≤ stop := by
      cases x <;> exact BitVec.le_def.mpr (Nat.zero_lt_of_lt last)
    rw [before, BitVec.toNat_sub_of_le some_byte]
    cases x <;> rfl
  have between : start.toNat / span x = addr.toNat / span x := by
    have low := Nat.div_le_div_right (c := span x) first
    have high := Nat.div_le_div_right (c := span x) (Nat.le_sub_one_of_lt last)
    omega
  rw [flushTlbRange, Flush.Covers, pageNumber_eq, pageNumber_eq, pageNumber_eq, final]
  have split (n : Nat) := Nat.div_add_mod n (span x)
  have a := split start.toNat
  have b := split addr.toNat
  have c := split (stop.toNat - 1)
  rw [between] at a
  rw [← within, between] at c
  refine ⟨Nat.div_le_div_right ?_, Nat.div_le_div_right ?_⟩
  · omega
  · omega

/-- `flush_tlb_page` covers the page. -/
theorem covers_flushTlbPage (addr : Word x) :
    (flushTlbPage addr).Covers (topIndex addr) (lowerIndices addr) := by
  have final : addr + (addr + 1 - addr - 1) = addr := by ring
  rw [flushTlbPage, flushTlbRange, Flush.Covers, final]
  exact ⟨Nat.le_refl _, Nat.le_refl _⟩

/-! ## Harts and their tables -/

section

variable {K : Mapping x} {s t : System η ι x}

/-- What the map of a process or of the kernel has for a page, if it is present -/
def mapped (K : Mapping x) (s : Spaces.System ι x) (who : Option ι) (i : Index x)
    (rest : List (Index x)) : Option (Word x) :=
  (view K s who).bind fun map => present (map i rest)

/-- Every hart is on the table that it is meant to be on. -/
def OnTable (K : Mapping x) (s : System η ι x) : Prop :=
  ∀ h, ∃ r, s.spaces.root K (s.core h).mm = some r ∧
    (K.context 0).pfnToVirt (s.core h).sptbr = r.addr

/-- The table of a process stays where it is until it is freed. -/
theorem root_step {a b : Spaces.System ι x} {e : Spaces.Event ι x} {who : Option ι} {r : Page x}
    (next : Spaces.step K a e = some b) (root : a.root K who = some r)
    (kept : ∀ mm, e = .pgdFree mm → who ≠ some mm) : b.root K who = some r := by
  cases who with
  | none => exact root
  | some mm =>
    change a.pgd mm = some r at root
    change b.pgd mm = some r
    cases e with
    | pgdAlloc mm' page =>
      rw [Spaces.step, Option.ite_none_right_eq_some] at next
      rcases next with ⟨⟨fresh, -⟩, next⟩
      cases next
      have other : mm ≠ mm' := by
        rintro rfl
        cases fresh.symm.trans root
      exact (Function.update_of_ne other ..).trans root
    | pgdFree mm' =>
      obtain ⟨r', -, next⟩ := Option.map_eq_some_iff.mp next
      cases next
      have other : mm ≠ mm' := fun same => kept mm' rfl (congrArg some same)
      exact (Function.update_of_ne other ..).trans root
    | setPteAt | pudPopulate | pmdPopulate =>
      obtain ⟨r', -, next⟩ := Option.bind_eq_some_iff.mp next
      rw [Option.ite_none_right_eq_some] at next
      rcases next with ⟨-, next⟩
      cases next
      exact root
    | pteFree | pmdFree | vmallocFault =>
      obtain ⟨r', -, next⟩ := Option.bind_eq_some_iff.mp next
      rw [Option.ite_none_right_eq_some] at next
      rcases next with ⟨-, next⟩
      cases next
      exact root

theorem pfnToVirt_switchMm (next : Option ι) (pgd : Page x) (c : Core ι x)
    (switches : c.mm ≠ next) :
    (K.context 0).pfnToVirt (switchMm K next pgd c).sptbr = pgd.addr := by
  rw [switchMm, if_pos switches]
  exact pfnToVirt_virtToPfn K c.sptbr pgd

theorem onTable_kept : Keeps (Any (step K)) (OnTable K : System η ι x → Prop) := by
  intro s t on taken h
  rcases taken with ⟨e, -, next⟩
  obtain ⟨r, root, table⟩ := on h
  cases e with
  | tables e =>
    rw [step, Option.ite_none_right_eq_some] at next
    rcases next with ⟨left, next⟩
    obtain ⟨spaces, stepped, rfl⟩ := Option.map_eq_some_iff.mp next
    refine ⟨r, root_step stepped root fun mm frees => ?_, table⟩
    subst frees
    exact left h
  | walk h' addr =>
    obtain ⟨entry, -, rfl⟩ := Option.map_eq_some_iff.mp next
    by_cases here : h = h'
    · subst here
      refine ⟨r, ?_, ?_⟩ <;> simp only [Function.update_self] <;> assumption
    · refine ⟨r, ?_, ?_⟩ <;> simp only [Function.update_of_ne here] <;> assumption
  | switchMm h' next' =>
    obtain ⟨pgd, there, rfl⟩ := Option.map_eq_some_iff.mp next
    by_cases here : h = h'
    · subst here
      simp only [Function.update_self]
      by_cases switches : (s.core h).mm ≠ next'
      · refine ⟨pgd, ?_, pfnToVirt_switchMm next' pgd (s.core h) switches⟩
        rw [switchMm, if_pos switches]
        exact there
      · rw [switchMm, if_neg switches]
        exact ⟨r, root, table⟩
    · refine ⟨r, ?_, ?_⟩ <;> simp only [Function.update_of_ne here] <;> assumption
  | sfence h' f =>
    cases next
    by_cases here : h = h'
    · subst here
      refine ⟨r, ?_, ?_⟩ <;> simp only [Function.update_self] <;> assumption
    · refine ⟨r, ?_, ?_⟩ <;> simp only [Function.update_of_ne here] <;> assumption

end

/-! ## Translations -/

/-- The hart, while it is on the table of `mm`, gives up what it has kept for a page: it executes
`sfence.vm` for the page, or `switch_mm` takes it to another table. -/
def Flushes (h : η) (mm : Option ι) (i : Index x) (rest : List (Index x)) : Event η ι x → Prop
  | .sfence h' f => h' = h ∧ f.Covers i rest
  | .switchMm h' next => h' = h ∧ mm ≠ next
  | .tables _ | .walk .. => False

section

variable {K : Mapping x} {s t : System η ι x}

/-- A translation that a hart has after a step was there before it, and the hart is on the same
table and has not flushed it; or the hart has just found it. -/
theorem cached_step {h : η} {i : Index x} {rest : List (Index x)} {entry : Word x}
    {e : Event η ι x} (next : step K s e = some t) (cached : (t.core h).tlb i rest = some entry) :
    ((s.core h).tlb i rest = some entry ∧ (t.core h).mm = (s.core h).mm ∧
      ¬ Flushes h (t.core h).mm i rest e) ∨
    ∃ addr, i = topIndex addr ∧ rest = lowerIndices addr ∧ t.spaces = s.spaces ∧
      walk K t.spaces.mem (t.core h).sptbr addr = some entry := by
  cases e with
  | tables e =>
    rw [step, Option.ite_none_right_eq_some] at next
    obtain ⟨spaces, -, rfl⟩ := Option.map_eq_some_iff.mp next.2
    exact .inl ⟨cached, rfl, id⟩
  | walk h' addr =>
    obtain ⟨found, walks, rfl⟩ := Option.map_eq_some_iff.mp next
    by_cases here : h = h'
    · subst here
      simp only [Function.update_self, Core.keep] at cached ⊢
      by_cases page : i = topIndex addr ∧ rest = lowerIndices addr
      · rw [if_pos page] at cached
        cases cached
        exact .inr ⟨addr, page.1, page.2, trivial, walks⟩
      · rw [if_neg page] at cached
        exact .inl ⟨cached, trivial, id⟩
    · simp only [Function.update_of_ne here] at cached ⊢
      exact .inl ⟨cached, trivial, id⟩
  | switchMm h' next' =>
    obtain ⟨pgd, -, rfl⟩ := Option.map_eq_some_iff.mp next
    by_cases here : h = h'
    · subst here
      simp only [Function.update_self] at cached ⊢
      by_cases switches : (s.core h).mm ≠ next'
      · rw [switchMm, if_pos switches] at cached
        cases cached
      · rw [switchMm, if_neg switches] at cached ⊢
        exact .inl ⟨cached, rfl, fun flushes => switches flushes.2⟩
    · simp only [Function.update_of_ne here] at cached ⊢
      exact .inl ⟨cached, trivial, fun flushes => here flushes.1.symm⟩
  | sfence h' f =>
    cases next
    by_cases here : h = h'
    · subst here
      simp only [Function.update_self, Core.sfence] at cached ⊢
      by_cases covers : f.Covers i rest
      · rw [if_pos covers] at cached
        cases cached
      · rw [if_neg covers] at cached
        exact .inl ⟨cached, trivial, fun flushes => covers flushes.2⟩
    · simp only [Function.update_of_ne here] at cached ⊢
      exact .inl ⟨cached, trivial, fun flushes => here flushes.1.symm⟩

omit [Fintype η] [DecidableEq η] in
/-- What a walk finds is in the map of the process that the hart is on, or of the kernel. -/
theorem mapped_of_walk (on : OnTable K s) {level : Page x → Option Nat}
    (inv : Spaces.Inv K s.spaces level) {h : η} {addr entry : Word x}
    (found : walk K s.spaces.mem (s.core h).sptbr addr = some entry) {who : Option ι}
    (whose : who = none ∨ who = (s.core h).mm) (side : Side who (topIndex addr)) :
    mapped K s.spaces who (topIndex addr) (lowerIndices addr) = some entry := by
  obtain ⟨r, root, table⟩ := on h
  have start : (K.context (s.core h).sptbr).pfnToVirt (s.core h).sptbr = r.addr := table
  rw [walk, start, walk_eq_read] at found
  have counted := And.intro side (length_lowerIndices addr)
  have own {r' : Page x} (root' : s.spaces.root K who = some r')
      (reads : present ((entries K).read (tables s.spaces.mem) r' (topIndex addr)
        (lowerIndices addr)) = some entry) :
      mapped K s.spaces who (topIndex addr) (lowerIndices addr) = some entry := by
    rw [mapped, view_of_root root', Option.bind_some, mapOf, if_pos counted]
    exact reads
  by_cases same : who = (s.core h).mm
  · exact own (same ▸ root) found
  · obtain rfl := whose.resolve_right same
    cases mm : (s.core h).mm with
    | none => exact absurd mm.symm same
    | some mm' =>
      rw [mm] at root
      rcases inv.copies mm' r (topIndex addr) root side with nothing | copied
      · rw [(entries K).read_of_empty nothing] at found
        cases found
      · rw [(entries K).read_of_same copied] at found
        exact own rfl found

/-- What is true of the tables and of the harts in every state that is reached -/
structure Inv (K : Mapping x) (s : System η ι x) : Prop where
  spaces : ∃ level, Spaces.Inv K s.spaces level
  table : OnTable K s

omit [Fintype η] [DecidableEq η] [DecidableEq ι] in
theorem Boots.inv (boots : Boots K s) : Inv K s := by
  refine ⟨boots.spaces.inv, fun h => ⟨K.initPgd, ?_, boots.sptbr h⟩⟩
  rw [boots.mm h]
  rfl

theorem inv_kept : Keeps (Any (step K)) (Inv K : System η ι x → Prop) := by
  intro s t inv taken
  refine ⟨?_, onTable_kept inv.table taken⟩
  obtain ⟨level, spaces⟩ := inv.spaces
  rcases taken with ⟨e, -, next⟩
  cases e with
  | tables e =>
    rw [step, Option.ite_none_right_eq_some] at next
    obtain ⟨after, stepped, rfl⟩ := Option.map_eq_some_iff.mp next.2
    exact (step_maps spaces stepped).2
  | walk | switchMm =>
    obtain ⟨_, -, rfl⟩ := Option.map_eq_some_iff.mp next
    exact ⟨level, spaces⟩
  | sfence =>
    cases next
    exact ⟨level, spaces⟩

/-- Every translation that a hart has, of a user address of the process whose table it is on or of
an address of the kernel, is what the map of that process, or that of the kernel, had for the page
at some time since the hart last flushed it, and since it came to its present table. -/
theorem tlb_traced (boots : Boots K s) {events : List (Event η ι x)}
    (leads : events.foldlM (step K) s = some t) {h : η} {i : Index x} {rest : List (Index x)}
    {entry : Word x} (cached : (t.core h).tlb i rest = some entry) {who : Option ι}
    (whose : who = none ∨ who = (t.core h).mm) (side : Side who i) :
    ∃ before after u, events = before ++ after ∧ before.foldlM (step K) s = some u ∧
      (u.core h).mm = (t.core h).mm ∧ (∀ e ∈ after, ¬ Flushes h (t.core h).mm i rest e) ∧
      mapped K u.spaces who i rest = some entry := by
  induction events using List.reverseRecOn generalizing t with
  | nil =>
    cases leads
    cases (boots.tlb h i rest).symm.trans cached
  | append_singleton events e ih =>
    rw [List.foldlM_append] at leads
    obtain ⟨v, first, last⟩ := Option.bind_eq_some_iff.mp leads
    obtain ⟨t', next, done⟩ := Option.bind_eq_some_iff.mp last
    cases done
    rcases cached_step next cached with ⟨there, same, kept⟩ | ⟨addr, rfl, rfl, -, found⟩
    · rw [same] at whose kept ⊢
      obtain ⟨before, after, u, split, start, stays, unflushed, had⟩ := ih first there whose
      refine ⟨before, after ++ [e], u, ?_, start, stays, ?_, had⟩
      · rw [split, List.append_assoc]
      · exact List.forall_mem_append.mpr ⟨unflushed, List.forall_mem_singleton.mpr kept⟩
    · have reached : (events ++ [e]).foldlM (step K) s = some t := by
        rw [List.foldlM_append]
        exact leads
      have inv := Run.keeps inv_kept boots.inv (Run.of_foldlM reached)
      obtain ⟨level, spaces⟩ := inv.spaces
      exact ⟨events ++ [e], [], t, (List.append_nil _).symm, reached, rfl, List.forall_mem_nil _,
        mapped_of_walk inv.table spaces found whose side⟩

/-- An entry that is not written after a hart has flushed its page is the one that the hart
translates by, if it translates by any: it has none from before. -/
theorem tlb_current (boots : Boots K s) {before after : List (Event η ι x)} {h : η} {f : Flush x}
    {i : Index x} {rest : List (Index x)} (covers : f.Covers i rest)
    (leads : (before ++ .sfence h f :: after).foldlM (step K) s = some t) {who : Option ι}
    (steady : ∀ mid, mid <+: after → ∀ v,
      (before ++ .sfence h f :: mid).foldlM (step K) s = some v →
      mapped K v.spaces who i rest = mapped K t.spaces who i rest)
    {entry : Word x} (cached : (t.core h).tlb i rest = some entry)
    (whose : who = none ∨ who = (t.core h).mm) (side : Side who i) :
    mapped K t.spaces who i rest = some entry := by
  obtain ⟨first, last, u, split, start, -, unflushed, had⟩ :=
    tlb_traced boots leads cached whose side
  have flushes : Flushes h (t.core h).mm i rest (.sfence h f) := ⟨rfl, covers⟩
  -- the time that the entry is from is not before the flush
  rcases List.append_eq_append_iff.mp split with ⟨mid, there, here⟩ | ⟨mid, there, here⟩
  · cases mid with
    | nil =>
      rw [List.nil_append] at here
      refine absurd flushes (unflushed _ ?_)
      rw [← here]
      exact List.mem_cons_self
    | cons e mid =>
      obtain ⟨rfl, rest'⟩ := List.cons.inj here
      rw [there] at start
      rw [← had]
      exact (steady mid ⟨last, rest'.symm⟩ u start).symm
  · refine absurd flushes (unflushed _ ?_)
    rw [here]
    exact List.mem_append_right _ List.mem_cons_self

end

/-! ## A page that is mapped and unmapped -/

/-- One hart -/
def oneHart : System Unit Bool .rv64 := ⟨emptyMemory, fun _ => ⟨none, 1, fun _ _ => none⟩⟩

theorem boots_oneHart : Boots identity oneHart :=
  ⟨boots_emptyMemory, fun _ => rfl,
    fun _ => (by decide : (identity.context 0).pfnToVirt 1 = identity.initPgd.addr),
    fun _ _ _ => rfl⟩

/-- A process gets a page, and uses it. -/
def used : List (Event Unit Bool .rv64) :=
  onePage.map .tables ++ [.switchMm () (some true), .walk () 0x1000]

theorem leads_used : ∃ t, used.foldlM (step identity) oneHart = some t ∧
    (t.core ()).mm = some true ∧
    (t.core ()).tlb (topIndex 0x1000) (lowerIndices 0x1000) = some 0x2017 := by
  have leads : (used.foldlM (step identity) oneHart).any (fun t => (t.core ()).mm = some true ∧
      (t.core ()).tlb (topIndex 0x1000) (lowerIndices 0x1000) = some 0x2017) = true := by
    decide +kernel
  obtain ⟨t, leads, found⟩ := (Option.any_eq_true _ _).mp leads
  exact ⟨t, leads, of_decide_eq_true found⟩

theorem tlb_traced_used : ∃ before after u, used = before ++ after ∧
    before.foldlM (step identity) oneHart = some u ∧
    mapped identity u.spaces (some true) (topIndex 0x1000) (lowerIndices 0x1000)
      = some 0x2017 := by
  rcases leads_used with ⟨t, leads, mm, cached⟩
  obtain ⟨before, after, u, split, start, -, -, had⟩ :=
    tlb_traced boots_oneHart leads cached (.inr mm.symm) (by decide)
  exact ⟨before, after, u, split, start, had⟩

/-- The entry is written again, and flushed. -/
def rewritten : List (Event Unit Bool .rv64) :=
  used ++ [.tables (.setPteAt (some true) 0x1000 0x4017)]

theorem leads_rewritten : ∃ t,
    (rewritten ++ Event.sfence () (flushTlbPage 0x1000) :: [.walk () 0x1000]).foldlM
      (step identity) oneHart = some t ∧ (t.core ()).mm = some true ∧
    (t.core ()).tlb (topIndex 0x1000) (lowerIndices 0x1000) = some 0x4017 := by
  have leads : ((rewritten ++ Event.sfence () (flushTlbPage 0x1000) :: [.walk () 0x1000]).foldlM
      (step identity) oneHart).any (fun t : System Unit Bool .rv64 => (t.core ()).mm = some true ∧
      (t.core ()).tlb (topIndex 0x1000) (lowerIndices 0x1000) = some 0x4017) = true := by
    decide +kernel
  obtain ⟨t, leads, found⟩ := (Option.any_eq_true _ _).mp leads
  exact ⟨t, leads, of_decide_eq_true found⟩

theorem tlb_current_rewritten : ∃ t : System Unit Bool .rv64,
    (t.core ()).tlb (topIndex 0x1000) (lowerIndices 0x1000) = some 0x4017 ∧
    mapped identity t.spaces (some true) (topIndex 0x1000) (lowerIndices 0x1000)
      = some 0x4017 := by
  rcases leads_rewritten with ⟨t, leads, mm, cached⟩
  refine ⟨t, cached, tlb_current boots_oneHart (covers_flushTlbPage 0x1000) leads ?_ cached
    (.inr mm.symm) (by decide)⟩
  intro mid early v here
  rcases List.prefix_cons_iff.mp early with rfl | ⟨mid, rfl, nothing⟩
  · rw [List.append_cons, List.foldlM_append] at leads
    obtain ⟨u, there, walks⟩ := Option.bind_eq_some_iff.mp leads
    obtain ⟨t', walks, done⟩ := Option.bind_eq_some_iff.mp walks
    obtain ⟨_, -, rfl⟩ := Option.map_eq_some_iff.mp walks
    cases done
    cases here.symm.trans there
    rfl
  · obtain rfl := List.prefix_nil.mp nothing
    cases here.symm.trans leads
    rfl

end RiscvLinux.Mm.Tlb
