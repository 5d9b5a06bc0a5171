import RiscvLinux.Lib.Bits
import RiscvLinux.Mm.Fault
import RiscvLinux.Mm.Pgtable

/-!
# Remapping of device memory

`ioremap` and `iounmap` of `arch/riscv/mm/ioremap.c`. What they call is a parameter, `Vmalloc`, and
`Documented` is what is promised of it. The size of the area that is asked for can wrap only to
zero (`pageAlign_cases`), and for zero there is no area.
-/

namespace RiscvLinux.Mm.Ioremap

open Lib Trap

variable {x : XLen}

/-! ## What is called -/

/-- `struct vm_struct`; the size is without the guard page. -/
structure VmStruct (x : XLen) where
  addr : Word x
  size : Word x

/-- The areas that are allocated, by their addresses with their sizes, and where every byte of the
kernel's address space is mapped to, with its protection -/
structure Kernel (x : XLen) where
  areas : Word x → Option (Word x)
  mapped : Word x → Option (Word x × Word x)

/-- The area is freed, and nothing is mapped in it. -/
def Kernel.without (s : Kernel x) (area : VmStruct x) : Kernel x where
  areas := Function.update s.areas area.addr none
  mapped v := if v - area.addr < area.size then none else s.mapped v

/-- `get_vm_area_caller` for `VM_IOREMAP`, `ioremap_page_range`, `free_vm_area` and `vunmap` -/
structure Vmalloc (x : XLen) where
  getVmAreaCaller : Kernel x → (size caller : Word x) → Kernel x × Option (VmStruct x)
  ioremapPageRange : Kernel x → (addr last physAddr prot : Word x) → Kernel x × Int
  freeVmArea : Kernel x → VmStruct x → Kernel x
  vunmap : Kernel x → Word x → Kernel x

/-- `PAGE_MASK` -/
def pageMask : Word x := ~~~BitVec.ofNat _ (2 ^ 12 - 1)

/-- `PAGE_ALIGN` -/
def pageAlign (v : Word x) : Word x := (v + BitVec.ofNat _ (2 ^ 12 - 1)) &&& pageMask

def PageAligned (v : Word x) : Prop := 2 ^ 12 ∣ v.toNat

/-- The answer of `get_vm_area_caller`: an area in the range for `vmalloc` that was free -/
structure NewArea (s : Kernel x) (size : Word x) (s' : Kernel x) (area : VmStruct x) : Prop where
  size_eq : area.size = size
  aligned : PageAligned area.addr
  start : Fault.vmallocStart ≤ area.addr
  inside : area.addr.toNat + size.toNat ≤ (Fault.vmallocEnd : Word x).toNat
  free : s.areas area.addr = none
  allocated : s'.areas = Function.update s.areas area.addr (some size)
  mapped : s'.mapped = s.mapped

/-- The answer of `ioremap_page_range`: the pages of the range are mapped, or it fails on the
way. -/
structure RangeMapped (s : Kernel x) (addr last physAddr prot : Word x) (r : Kernel x × Int) :
    Prop where
  areas : r.1.areas = s.areas
  outside : ∀ v, v < addr ∨ last ≤ v → r.1.mapped v = s.mapped v
  mapped : r.2 = 0 → ∀ v, addr ≤ v → v < last → r.1.mapped v = some (physAddr + (v - addr), prot)

/-- What is promised of the functions that are called -/
structure Vmalloc.Documented (V : Vmalloc x) : Prop where
  no_area : ∀ s size caller, (V.getVmAreaCaller s size caller).2 = none →
    (V.getVmAreaCaller s size caller).1 = s
  no_size : ∀ s caller, (V.getVmAreaCaller s 0 caller).2 = none
  new_area : ∀ s size caller area, PageAligned size →
    (V.getVmAreaCaller s size caller).2 = some area →
      NewArea s size (V.getVmAreaCaller s size caller).1 area
  range : ∀ s addr last physAddr prot, PageAligned addr → PageAligned last →
    PageAligned physAddr → addr < last →
      RangeMapped s addr last physAddr prot (V.ioremapPageRange s addr last physAddr prot)
  free : ∀ s area, s.areas area.addr = some area.size → V.freeVmArea s area = s.without area
  unmap : ∀ s area, s.areas area.addr = some area.size → V.vunmap s area.addr = s.without area

/-! ## The code -/

/-- `__ioremap_caller` -/
def ioremapCaller (V : Vmalloc x) (s : Kernel x) (addr size prot caller : Word x) :
    Kernel x × Option (Word x) :=
  let lastAddr := addr + size - 1
  if size = 0 ∨ lastAddr < addr then (s, none)
  else
    let offset := addr &&& ~~~pageMask
    let addr := addr &&& pageMask
    let size := pageAlign (size + offset)
    match V.getVmAreaCaller s size caller with
    | (s, none) => (s, none)
    | (s, some area) =>
      let vaddr := area.addr
      let mapped := V.ioremapPageRange s vaddr (vaddr + size) addr prot
      if mapped.2 ≠ 0 then (V.freeVmArea mapped.1 area, none)
      else (mapped.1, some (vaddr + offset))

/-- `PAGE_KERNEL` -/
def pageKernel : Word x := pageRead ||| pageWrite ||| pagePresent ||| pageAccessed

/-- `ioremap` -/
def ioremap (V : Vmalloc x) (s : Kernel x) (offset size caller : Word x) :
    Kernel x × Option (Word x) :=
  ioremapCaller V s offset size pageKernel caller

/-- `iounmap` -/
def iounmap (V : Vmalloc x) (s : Kernel x) (addr : Word x) : Kernel x :=
  V.vunmap s (addr &&& pageMask)

/-! ## Rounding -/

theorem twelve_le_bits (x : XLen) : 12 ≤ x.bits := by
  cases x <;> decide

theorem pageAlign_eq (v : Word x) : pageAlign v = alignUp 12 v := rfl

theorem toNat_pageMask (v : Word x) : (v &&& pageMask).toNat = v.toNat - v.toNat % 4096 :=
  toNat_and_not_low (twelve_le_bits x) v

theorem toNat_offset (v : Word x) : (v &&& ~~~pageMask).toNat = v.toNat % 4096 := by
  rw [pageMask, BitVec.not_not]
  exact toNat_and_low (twelve_le_bits x) v

/-- A range wraps exactly when its last byte is below its first. -/
theorem lastAddr_lt_iff {addr size : Word x} (some_bytes : size ≠ 0) :
    addr + size - 1 < addr ↔ 2 ^ x.bits < addr.toNat + size.toNat := by
  have first := addr.isLt
  have bound := size.isLt
  have positive := BitVec.toNat_pos_of_ne_zero some_bytes
  have one : (1 : Word x).toNat = 1 := by cases x <;> rfl
  have wide : 1 < 2 ^ x.bits := by cases x <;> decide
  rw [BitVec.lt_def, BitVec.toNat_sub, BitVec.toNat_add, one]
  rcases Nat.lt_trichotomy (addr.toNat + size.toNat) (2 ^ x.bits) with below | end_of_range | beyond
  · rw [Nat.mod_eq_of_lt below, Nat.mod_eq_sub_mod (by omega), Nat.mod_eq_of_lt (by omega)]
    omega
  · rw [end_of_range, Nat.mod_self, Nat.add_zero, Nat.mod_eq_of_lt (by omega)]
    omega
  · rw [Nat.mod_eq_sub_mod (a := addr.toNat + size.toNat) (by omega),
      Nat.mod_eq_of_lt (a := addr.toNat + size.toNat - 2 ^ x.bits) (by omega),
      Nat.mod_eq_sub_mod (by omega), Nat.mod_eq_of_lt (by omega)]
    omega

/-- The rounded size of a range that does not wrap has room for it, or it is zero: what is rounded
is the distance from the page of the first byte to the end, which is the end of the address space
at most. -/
theorem pageAlign_cases {addr size : Word x} (some_bytes : size ≠ 0)
    (fits : addr.toNat + size.toNat ≤ 2 ^ x.bits) :
    pageAlign (size + (addr &&& ~~~pageMask)) = 0 ∨
      size.toNat + addr.toNat % 4096 ≤ (pageAlign (size + (addr &&& ~~~pageMask))).toNat := by
  have offset := toNat_offset addr
  have inside := twelve_le_bits x
  have bound := size.isLt
  rw [pageAlign_eq]
  rcases Nat.lt_or_ge (size.toNat + addr.toNat % 4096) (2 ^ x.bits) with less | whole
  · have sum : (size + (addr &&& ~~~pageMask)).toNat = size.toNat + addr.toNat % 4096 := by
      rw [BitVec.toNat_add, offset, Nat.mod_eq_of_lt less]
    rcases Nat.lt_or_ge (size.toNat + addr.toNat % 4096 + (2 ^ 12 - 1)) (2 ^ x.bits) with
      room | wraps
    · right
      rw [toNat_alignUp inside (by rw [sum]; exact room), sum]
      omega
    · exact .inl (alignUp_of_wraps inside (by rw [sum]; exact wraps))
  · left
    have rest := Nat.mod_le addr.toNat 4096
    rw [add_eq_zero_of_wraps (show size.toNat + (addr &&& ~~~pageMask).toNat = 2 ^ x.bits by omega)]
    cases x <;> rfl

theorem pageAligned_pageMask (v : Word x) : PageAligned (v &&& pageMask) := by
  have rounded := toNat_pageMask v
  rw [PageAligned]
  omega

theorem pageAligned_add {v w : Word x} (left : PageAligned v) (right : PageAligned w)
    (fits : v.toNat + w.toNat < 2 ^ x.bits) : PageAligned (v + w) := by
  rw [PageAligned, BitVec.toNat_add, Nat.mod_eq_of_lt fits]
  exact Nat.dvd_add left right

/-- The page of an address in the first page of an area is where the area starts. -/
theorem add_offset_pageMask {vaddr offset : Word x} (aligned : PageAligned vaddr)
    (small : offset.toNat < 4096) : (vaddr + offset) &&& pageMask = vaddr := by
  have pages : 4096 ∣ 2 ^ x.bits := by cases x <;> decide
  have bound := vaddr.isLt
  rw [PageAligned] at aligned
  have sum : (vaddr + offset).toNat = vaddr.toNat + offset.toNat := by
    rw [BitVec.toNat_add, Nat.mod_eq_of_lt (by omega)]
  refine BitVec.eq_of_toNat_eq ?_
  rw [toNat_pageMask, sum]
  omega

theorem pageMask_add_offset (v : Word x) : (v &&& pageMask) + (v &&& ~~~pageMask) = v := by
  have bound := v.isLt
  have rest := Nat.mod_le v.toNat 4096
  refine BitVec.eq_of_toNat_eq ?_
  rw [BitVec.toNat_add, toNat_pageMask, toNat_offset, Nat.mod_eq_of_lt (by omega)]
  omega

/-- In a range that does not wrap, a byte is one less than so many bytes from the start. -/
theorem sub_lt_iff {v start size : Word x} (fits : start.toNat + size.toNat < 2 ^ x.bits) :
    v - start < size ↔ start ≤ v ∧ v < start + size := by
  have bound := v.isLt
  have last : (start + size).toNat = start.toNat + size.toNat := by
    rw [BitVec.toNat_add, Nat.mod_eq_of_lt fits]
  rw [BitVec.lt_def, BitVec.lt_def, BitVec.le_def, last, BitVec.toNat_sub]
  rcases Nat.lt_or_ge v.toNat start.toNat with before | after
  · rw [Nat.mod_eq_of_lt (by omega)]
    omega
  · rw [Nat.mod_eq_sub_mod (by omega), Nat.mod_eq_of_lt (by omega)]
    omega

theorem vmallocStart_pos (x : XLen) : 0 < (Fault.vmallocStart : Word x).toNat := by
  cases x <;> decide

/-! ## The mapping -/

/-- A range is mapped by what was returned: an area was allocated for it, and `iounmap` of what was
returned frees that area, whenever it is called. -/
structure Remapped (V : Vmalloc x) (s s' : Kernel x) (addr size prot v : Word x) : Prop where
  nonnull : v ≠ 0
  mapped : ∀ k, k < size → s'.mapped (v + k) = some (addr + k, prot)
  area : ∃ area : VmStruct x, s.areas area.addr = none ∧
    s'.areas = Function.update s.areas area.addr (some area.size) ∧
    ∀ t : Kernel x, t.areas area.addr = some area.size → iounmap V t v = t.without area

/-- Nothing is returned: no area is left, and nothing is mapped that was not. -/
structure Failed (s s' : Kernel x) : Prop where
  areas : s'.areas = s.areas
  mapped : ∀ v, s'.mapped v = s.mapped v ∨ s'.mapped v = none

section

variable {V : Vmalloc x} {s s' : Kernel x} {addr size prot caller : Word x}

theorem Failed.refl (s : Kernel x) : Failed s s := ⟨rfl, fun _ => .inl rfl⟩

/-- An area that was allocated and freed leaves nothing. -/
theorem NewArea.failed {area : VmStruct x} {t : Kernel x} (new : NewArea s size s' area)
    (areas : t.areas = s'.areas)
    (outside : ∀ v, ¬ v - area.addr < area.size → t.mapped v = s'.mapped v) :
    Failed s (t.without area) := by
  refine ⟨?_, fun v => ?_⟩
  · rw [Kernel.without, areas, new.allocated, Function.update_idem, ← new.free,
      Function.update_eq_self]
  · by_cases within : v - area.addr < area.size
    · exact .inr (if_pos within)
    · left
      rw [← new.mapped, ← outside v within]
      exact if_neg within

/-- A range that is empty or wraps is refused. -/
theorem ioremapCaller_refuses (wrong : size = 0 ∨ 2 ^ x.bits < addr.toNat + size.toNat) :
    ioremapCaller V s addr size prot caller = (s, none) := by
  refine if_pos ?_
  by_cases none : size = 0
  · exact .inl none
  · exact .inr ((lastAddr_lt_iff none).mpr (wrong.resolve_left none))

/-- The area that is asked for is not empty, since something was returned for it. -/
theorem Vmalloc.Documented.size_ne {V : Vmalloc x} (doc : V.Documented) {n : Word x}
    {area : VmStruct x} (got : (V.getVmAreaCaller s n caller).2 = some area) : n ≠ 0 := by
  intro same
  subst same
  rw [doc.no_size] at got
  cases got

/-- What the range that is mapped has to do with the one that was asked for -/
structure Rounded (addr size : Word x) (area : VmStruct x) : Prop where
  aligned : PageAligned area.addr
  start : (Fault.vmallocStart : Word x).toNat ≤ area.addr.toNat
  room : size.toNat + addr.toNat % 4096 ≤ area.size.toNat
  inside : area.addr.toNat + area.size.toNat < 2 ^ x.bits

/-- Every byte that was asked for is in the range that was mapped, in its place. -/
theorem Rounded.mapped {area : VmStruct x} {r : Kernel x × Int} {k : Word x}
    (rounded : Rounded addr size area)
    (range : RangeMapped s' area.addr (area.addr + area.size) (addr &&& pageMask) prot r)
    (done : r.2 = 0) (less : k < size) :
    r.1.mapped (area.addr + (addr &&& ~~~pageMask) + k) = some (addr + k, prot) := by
  have offset := toNat_offset addr
  have room := rounded.room
  have inside := rounded.inside
  rw [BitVec.lt_def] at less
  have place : area.addr + (addr &&& ~~~pageMask) + k - area.addr = (addr &&& ~~~pageMask) + k := by
    rw [BitVec.add_assoc, BitVec.add_comm, BitVec.add_sub_cancel]
  have within : area.addr + (addr &&& ~~~pageMask) + k - area.addr < area.size := by
    rw [place, BitVec.lt_def, BitVec.toNat_add, offset, Nat.mod_eq_of_lt (by omega)]
    omega
  obtain ⟨first, last⟩ := (sub_lt_iff inside).mp within
  rw [range.mapped done _ first last, place, ← BitVec.add_assoc, pageMask_add_offset]

theorem Rounded.nonnull {area : VmStruct x} (rounded : Rounded addr size area) :
    area.addr + (addr &&& ~~~pageMask) ≠ 0 := by
  have offset := toNat_offset addr
  have room := rounded.room
  have inside := rounded.inside
  have start := rounded.start
  have positive := vmallocStart_pos x
  intro null
  have sum := congrArg BitVec.toNat null
  rw [BitVec.toNat_add, offset, Nat.mod_eq_of_lt (by omega), BitVec.ofNat_eq_ofNat,
    BitVec.toNat_zero] at sum
  omega

/-- What `iounmap` is given back is where the area starts. -/
theorem Rounded.iounmap {area : VmStruct x} (rounded : Rounded addr size area) (doc : V.Documented)
    {t : Kernel x} (allocated : t.areas area.addr = some area.size) :
    iounmap V t (area.addr + (addr &&& ~~~pageMask)) = t.without area := by
  have small : (addr &&& ~~~pageMask).toNat < 4096 := by
    rw [toNat_offset]
    exact Nat.mod_lt _ (by decide)
  rw [Ioremap.iounmap, add_offset_pageMask rounded.aligned small]
  exact doc.unmap t area allocated

/-- A range that neither is empty nor wraps: it is mapped, or nothing is left of the try. -/
theorem ioremapCaller_fits (doc : V.Documented) (some_bytes : size ≠ 0)
    (fits : addr.toNat + size.toNat ≤ 2 ^ x.bits) :
    (∃ v, (ioremapCaller V s addr size prot caller).2 = some v ∧
        Remapped V s (ioremapCaller V s addr size prot caller).1 addr size prot v) ∨
      ((ioremapCaller V s addr size prot caller).2 = none ∧
        Failed s (ioremapCaller V s addr size prot caller).1) := by
  have right : ¬ (size = 0 ∨ addr + size - 1 < addr) :=
    not_or.mpr ⟨some_bytes, fun wraps =>
      Nat.not_lt.mpr fits ((lastAddr_lt_iff some_bytes).mp wraps)⟩
  have room := pageAlign_cases some_bytes fits
  rw [ioremapCaller, if_neg right]
  dsimp only
  generalize size_eq : pageAlign (size + (addr &&& ~~~pageMask)) = n at room
  have pages : PageAligned n := size_eq ▸ pageAligned_pageMask _
  have no_area := doc.no_area s n caller
  have new_area := doc.new_area s n caller
  rcases answer : V.getVmAreaCaller s n caller with ⟨s₁, _ | area⟩
  · rw [answer] at no_area
    exact .inr ⟨rfl, no_area rfl ▸ Failed.refl s⟩
  · have new : NewArea s n s₁ area := by
      rw [answer] at new_area
      exact new_area area pages rfl
    have some_pages : n ≠ 0 := doc.size_ne (congrArg Prod.snd answer)
    obtain rfl := new.size_eq
    have below := (Fault.vmallocEnd : Word x).isLt
    have inside := new.inside
    have rounded : Rounded addr size area :=
      ⟨new.aligned, BitVec.le_def.mp new.start, room.resolve_left some_pages, by omega⟩
    have last : area.addr < area.addr + area.size := by
      refine ((sub_lt_iff rounded.inside).mp ?_).2
      rw [BitVec.sub_self]
      exact (BitVec.pos_iff_ne_zero area.size).mpr some_pages
    have range := doc.range s₁ area.addr (area.addr + area.size) (addr &&& pageMask) prot
      new.aligned (pageAligned_add new.aligned pages rounded.inside) (pageAligned_pageMask addr)
      last
    dsimp only
    generalize V.ioremapPageRange s₁ area.addr (area.addr + area.size) (addr &&& pageMask) prot = r
      at range
    have allocated : r.1.areas area.addr = some area.size := by
      rw [range.areas, new.allocated, Function.update_self]
    by_cases done : r.2 = 0
    · rw [if_neg (not_not.mpr done)]
      refine .inl ⟨_, rfl, rounded.nonnull, fun k less => rounded.mapped range done less, area,
        new.free, ?_, fun t there => rounded.iounmap doc there⟩
      rw [range.areas, new.allocated]
    · rw [if_pos done]
      refine .inr ⟨rfl, ?_⟩
      rw [doc.free r.1 area allocated]
      refine new.failed range.areas fun v beyond => range.outside v ?_
      rw [sub_lt_iff rounded.inside] at beyond
      rcases not_and_or.mp beyond with before | after
      · exact .inl (BitVec.not_le.mp before)
      · exact .inr (BitVec.not_lt.mp after)

/-- For every range: what is returned maps it and can be unmapped, or nothing is left of the try;
and nothing is returned for a range that is empty or wraps. -/
theorem ioremapCaller_spec (V : Vmalloc x) (doc : V.Documented) (s : Kernel x)
    (addr size prot caller : Word x) :
    ((∃ v, (ioremapCaller V s addr size prot caller).2 = some v ∧
        Remapped V s (ioremapCaller V s addr size prot caller).1 addr size prot v) ∨
      ((ioremapCaller V s addr size prot caller).2 = none ∧
        Failed s (ioremapCaller V s addr size prot caller).1)) ∧
    (size = 0 ∨ 2 ^ x.bits < addr.toNat + size.toNat →
      (ioremapCaller V s addr size prot caller).2 = none) := by
  by_cases wrong : size = 0 ∨ 2 ^ x.bits < addr.toNat + size.toNat
  · rw [ioremapCaller_refuses wrong]
    exact ⟨.inr ⟨rfl, Failed.refl s⟩, fun _ => rfl⟩
  · obtain ⟨some_bytes, fits⟩ := not_or.mp wrong
    exact ⟨ioremapCaller_fits doc some_bytes (Nat.not_lt.mp fits), fun bad => absurd bad wrong⟩

end

/-- An allocator that has room for one area, at the start of the range -/
def oneArea : Vmalloc x where
  getVmAreaCaller s size _ :=
    if size ≠ 0 ∧ size < Fault.vmallocSize ∧ s.areas Fault.vmallocStart = none then
      ({ s with areas := Function.update s.areas Fault.vmallocStart (some size) },
        some ⟨Fault.vmallocStart, size⟩)
    else (s, none)
  ioremapPageRange s addr last physAddr prot :=
    ({ s with mapped := fun v =>
        if addr ≤ v ∧ v < last then some (physAddr + (v - addr), prot) else s.mapped v }, 0)
  freeVmArea s area := s.without area
  vunmap s addr :=
    match s.areas addr with
    | none => s
    | some size => s.without ⟨addr, size⟩

theorem vmallocRange (x : XLen) : PageAligned (Fault.vmallocStart : Word x) ∧
    (Fault.vmallocStart : Word x).toNat + (Fault.vmallocSize : Word x).toNat
      = (Fault.vmallocEnd : Word x).toNat + 1 := by
  cases x
  · exact ⟨⟨0xb8000, rfl⟩, rfl⟩
  · exact ⟨⟨0xffffffff78000, rfl⟩, rfl⟩

theorem oneArea_documented : (oneArea : Vmalloc x).Documented := by
  obtain ⟨aligned, all⟩ := vmallocRange x
  refine ⟨fun s size caller none => ?_, fun s caller => ?_, fun s size caller area pages got => ?_,
    fun s addr last physAddr prot _ _ _ less => ⟨rfl, fun v beyond => if_neg ?_,
      fun _ v first last => if_pos ⟨first, last⟩⟩, fun s area _ => rfl, fun s area there => ?_⟩
  · simp only [oneArea] at none ⊢
    split at none
    · cases none
    · next no_room => rw [if_neg no_room]
  · exact congrArg Prod.snd (if_neg fun room => room.1 rfl)
  · simp only [oneArea] at got ⊢
    split at got
    · next room =>
      rw [if_pos room]
      rcases room with ⟨-, small, free⟩
      obtain rfl := Option.some.inj got
      rw [BitVec.lt_def] at small
      exact ⟨rfl, aligned, BitVec.le_refl _, by dsimp only; omega, free, rfl, rfl⟩
    · cases got
  · intro given
    rcases given with ⟨first, inside⟩
    rcases beyond with before | after
    · exact BitVec.not_le.mpr before first
    · exact BitVec.not_le.mpr inside after
  · simp only [oneArea, there]

/-- Sixteen bytes at the end of a page, by the theorem. -/
theorem ioremapCaller_spec_sixteen : ∃ v,
    (ioremapCaller oneArea ⟨fun _ => none, fun _ => none⟩ (0x1000fff8 : Word .rv32) 16 pageKernel
      0).2 = some v ∧ v ≠ 0 := by
  obtain ⟨mapped | failed, -⟩ := ioremapCaller_spec oneArea oneArea_documented
    ⟨fun _ => none, fun _ => none⟩ (0x1000fff8 : Word .rv32) 16 pageKernel 0
  · rcases mapped with ⟨v, returned, remapped⟩
    exact ⟨v, returned, remapped.nonnull⟩
  · exact absurd failed.1 (by decide)

/-- Unmapped again, the areas are those from before. -/
theorem Remapped.iounmap_areas {V : Vmalloc x} {s s' : Kernel x} {addr size prot v : Word x}
    (remapped : Remapped V s s' addr size prot v) : (iounmap V s' v).areas = s.areas := by
  obtain ⟨area, free, allocated, unmaps⟩ := remapped.area
  rw [unmaps s' (by rw [allocated, Function.update_self]), Kernel.without, allocated,
    Function.update_idem, ← free, Function.update_eq_self]

end RiscvLinux.Mm.Ioremap
