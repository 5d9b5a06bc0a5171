import RiscvLinux.Lib.Bits
import RiscvLinux.Lib.Run
import RiscvLinux.Trap.PtRegs
import Mathlib.Data.List.Nodup
import Mathlib.Logic.Function.Basic

/-!
# Raw access to I/O

`arch/riscv/drivers/rawio.c` keeps a list of its devices. An open file points to the list item of
its device, and `rawio_mmap` maps the memory resource of that device.

Two things are to hold: that the item is still there when `rawio_mmap` uses it (`safe_iff`), and
that just the memory of the resource can be mapped (`mapsExactly_iff`).
-/

namespace RiscvLinux.Drivers.Rawio

open Lib Trap

variable {x : XLen}

/-! ## `rawio_mmap` -/

/-- `struct resource`, whose `end` is the last address. -/
structure Resource (x : XLen) where
  start : Word x
  stop : Word x
  deriving DecidableEq

/-- What `rawio_mmap` reads and writes of a `struct vm_area_struct`. An area is not empty. -/
structure VmArea (x : XLen) where
  vmStart : Word x
  vmEnd : Word x
  ordered : vmStart < vmEnd
  vmPgoff : Word x
  vmPageProt : Word x
  vmFlags : Word x

/-- The arguments of `io_remap_pfn_range`. -/
structure Remap (x : XLen) where
  addr : Word x
  pfn : Word x
  size : Word x
  prot : Word x

/-- When the call succeeds the `size` bytes from `addr` on are those from the page frame on. -/
def Remap.Maps (r : Remap x) (virt phys : Word x) : Prop :=
  ∃ i < r.size.toNat, virt = r.addr + BitVec.ofNat x.bits i ∧
    phys = r.pfn <<< 12 + BitVec.ofNat x.bits i

/-- `PAGE_MASK` -/
def pageMask : Word x := ~~~BitVec.ofNat x.bits (2 ^ 12 - 1)

/-- `VM_IO` -/
def vmIo : Word x := BitVec.ofNat x.bits 0x4000

def eAgain : Int := -11
def eNoMem : Int := -12
def eNoDev : Int := -19
def eInval : Int := -22

/-- `rawio_mmap` for a device with this memory resource, with what it has mapped. `noncached` is
`pgprot_noncached`, and `remaps` says whether `io_remap_pfn_range` succeeds. -/
def rawioMmap (noncached : Word x → Word x) (remaps : Bool) (resource : Option (Resource x))
    (vma : VmArea x) : Int × VmArea x × Option (Remap x) :=
  match resource with
  | none => (eNoDev, vma, none)
  | some resource =>
    let length := vma.vmEnd - vma.vmStart
    if vma.vmPgoff ≠ 0 then (eInval, vma, none)
    else if length &&& ~~~pageMask ≠ 0 then (eInval, vma, none)
    else if length > resource.stop - resource.start then (eInval, vma, none)
    else
      let vma := { vma with
        vmPageProt := noncached vma.vmPageProt
        vmFlags := vma.vmFlags ||| vmIo }
      if remaps then
        (0, vma, some ⟨vma.vmStart, resource.start >>> 12, length, vma.vmPageProt⟩)
      else (eAgain, vma, none)

/-- The size of an area. -/
def VmArea.length (vma : VmArea x) : Nat := vma.vmEnd.toNat - vma.vmStart.toNat

/-- An area can be mapped exactly if it is made of pages and not larger than the resource, and then
it is mapped to the memory from the start of the resource on, and to nothing outside. -/
structure MapsExactly (noncached : Word x → Word x) (resource : Resource x) (vma : VmArea x) :
    Prop where
  succeeds : (rawioMmap noncached true (some resource) vma).1 = 0 ↔
    2 ^ 12 ∣ vma.length ∧
      (vma.length : Int) ≤ (resource.stop.toNat : Int) - resource.start.toNat + 1
  maps : (rawioMmap noncached true (some resource) vma).1 = 0 →
    ∃ r, (rawioMmap noncached true (some resource) vma).2.2 = some r ∧
      ∀ phys : Word x, ((∃ virt, r.Maps virt phys) ↔
          resource.start.toNat ≤ phys.toNat ∧ phys.toNat < resource.start.toNat + vma.length) ∧
        ((∃ virt, r.Maps virt phys) → resource.start ≤ phys ∧ phys ≤ resource.stop)

/-- The condition: the area is refused as it must be, since it is not made of pages or since it is
larger than both the resource and the difference of its ends, or it is smaller than the resource,
which starts at a page. -/
def Mappable (resource : Resource x) (vma : VmArea x) : Prop :=
  ¬ 2 ^ 12 ∣ vma.length ∨
    ((resource.stop.toNat : Int) - resource.start.toNat + 1 < vma.length ∧
      (resource.stop - resource.start).toNat < vma.length) ∨
    (resource.start ≤ resource.stop ∧ 2 ^ 12 ∣ resource.start.toNat ∧
      vma.length ≤ resource.stop.toNat - resource.start.toNat)

section Mmap

variable {noncached : Word x → Word x} {resource : Resource x} {vma : VmArea x}

theorem bits_ge (x : XLen) : 32 ≤ x.bits := by
  cases x <;> decide

theorem VmArea.toNat_sub (vma : VmArea x) : (vma.vmEnd - vma.vmStart).toNat = vma.length :=
  BitVec.toNat_sub_of_le (BitVec.le_of_lt vma.ordered)

theorem VmArea.length_pos (vma : VmArea x) : 0 < vma.length :=
  Nat.sub_pos_of_lt (BitVec.lt_def.mp vma.ordered)

theorem and_not_pageMask_eq_zero (a : Word x) : a &&& ~~~pageMask = 0 ↔ 2 ^ 12 ∣ a.toNat := by
  have inside : 12 ≤ x.bits := Nat.le_trans (by decide) (bits_ge x)
  have low := toNat_and_low inside a
  rw [pageMask, BitVec.not_not, ← BitVec.toNat_inj, low]
  exact Nat.dvd_iff_mod_eq_zero.symm

/-- When the page frame of a resource is mapped. -/
theorem rawioMmap_eq_zero_iff (noPgoff : vma.vmPgoff = 0) :
    (rawioMmap noncached true (some resource) vma).1 = 0 ↔
      2 ^ 12 ∣ vma.length ∧ vma.length ≤ (resource.stop - resource.start).toNat := by
  rw [← vma.toNat_sub, ← and_not_pageMask_eq_zero]
  simp only [rawioMmap, noPgoff]
  rw [if_neg (by simp)]
  split
  · next unpaged => exact iff_of_false (by simp [eInval]) fun both => unpaged both.1
  · next paged =>
    rw [not_not] at paged
    split
    · next large =>
      refine iff_of_false (by simp [eInval]) fun both => ?_
      have := BitVec.lt_def.mp large
      omega
    · next small =>
      refine iff_of_true rfl ⟨paged, ?_⟩
      have := mt BitVec.lt_def.mpr small
      omega

/-- What is mapped when `rawio_mmap` succeeds. -/
theorem rawioMmap_remap (success : (rawioMmap noncached true (some resource) vma).1 = 0) :
    ∃ prot, (rawioMmap noncached true (some resource) vma).2.2 =
      some ⟨vma.vmStart, resource.start >>> 12, vma.vmEnd - vma.vmStart, prot⟩ := by
  simp only [rawioMmap] at success ⊢
  split at success
  · exact absurd success (by simp [eInval])
  · next noPgoff =>
    split at success
    · exact absurd success (by simp [eInval])
    · next paged =>
      split at success
      · exact absurd success (by simp [eInval])
      · next small =>
        rw [if_neg noPgoff, if_neg paged, if_neg small, if_pos trivial]
        exact ⟨_, rfl⟩

/-- The page frame of an address starts at the page of the address. -/
theorem toNat_frame (a : Word x) : (a >>> 12 <<< 12).toNat = a.toNat / 2 ^ 12 * 2 ^ 12 := by
  have below : a.toNat / 2 ^ 12 * 2 ^ 12 ≤ a.toNat := Nat.div_mul_le_self ..
  rw [BitVec.toNat_shiftLeft, BitVec.toNat_ushiftRight, Nat.shiftRight_eq_div_pow,
    Nat.shiftLeft_eq, Nat.mod_eq_of_lt (Nat.lt_of_le_of_lt below a.isLt)]

/-- The addresses that are mapped, when they do not wrap. -/
theorem Remap.mapped_iff {r : Remap x} (inside : (r.pfn <<< 12).toNat + r.size.toNat ≤ 2 ^ x.bits)
    (phys : Word x) : (∃ virt, r.Maps virt phys) ↔
      (r.pfn <<< 12).toNat ≤ phys.toNat ∧ phys.toNat < (r.pfn <<< 12).toNat + r.size.toNat := by
  have offset : ∀ i < r.size.toNat, (r.pfn <<< 12 + BitVec.ofNat x.bits i).toNat =
      (r.pfn <<< 12).toNat + i := by
    intro i below
    rw [BitVec.toNat_add, BitVec.toNat_ofNat, Nat.add_mod_mod, Nat.mod_eq_of_lt (by omega)]
  constructor
  · intro given
    rcases given with ⟨virt, i, below, -, rfl⟩
    rw [offset i below]
    omega
  · intro given
    rcases given with ⟨low, high⟩
    have below : phys.toNat - (r.pfn <<< 12).toNat < r.size.toNat := by omega
    refine ⟨_, _, below, rfl, BitVec.eq_of_toNat_eq ?_⟩
    rw [offset _ below]
    omega

/-- An area that is refused is refused rightly, or the resource has just its size. -/
theorem mapsExactly_of_refused (refused : ¬ (rawioMmap noncached true (some resource) vma).1 = 0) :
    MapsExactly noncached resource vma ↔ ¬ 2 ^ 12 ∣ vma.length ∨
      (resource.stop.toNat : Int) - resource.start.toNat + 1 < vma.length := by
  constructor
  · intro exactly
    rcases not_and_or.mp (mt exactly.succeeds.mpr refused) with unpaged | large
    · exact .inl unpaged
    · exact .inr (by omega)
  · intro rightly
    refine ⟨iff_of_false refused ?_, fun success => absurd success refused⟩
    intro given
    rcases given with ⟨paged, small⟩
    rcases rightly with unpaged | large
    · exact unpaged paged
    · omega

/-- An area that is mapped is mapped rightly, if the resource starts at a page. -/
theorem mapsExactly_of_mapped (mapped : (rawioMmap noncached true (some resource) vma).1 = 0)
    (ordered : resource.start ≤ resource.stop) (paged : 2 ^ 12 ∣ vma.length)
    (small : vma.length ≤ resource.stop.toNat - resource.start.toNat) :
    MapsExactly noncached resource vma ↔ 2 ^ 12 ∣ resource.start.toNat := by
  have positive := vma.length_pos
  have stopLt := resource.stop.isLt
  have le : resource.start.toNat ≤ resource.stop.toNat := BitVec.le_def.mp ordered
  have frame := toNat_frame resource.start
  have below : resource.start.toNat / 2 ^ 12 * 2 ^ 12 ≤ resource.start.toNat :=
    Nat.div_mul_le_self ..
  obtain ⟨prot, remap⟩ := rawioMmap_remap mapped
  have phys := @Remap.mapped_iff x
    ⟨vma.vmStart, resource.start >>> 12, vma.vmEnd - vma.vmStart, prot⟩
    (by
      rw [frame, vma.toNat_sub]
      calc resource.start.toNat / 2 ^ 12 * 2 ^ 12 + vma.length
          ≤ resource.start.toNat + (resource.stop.toNat - resource.start.toNat) :=
            Nat.add_le_add below small
        _ = resource.stop.toNat := Nat.add_sub_cancel' le
        _ ≤ 2 ^ x.bits := stopLt.le)
  simp only [frame, vma.toNat_sub] at phys
  constructor
  · intro exactly
    obtain ⟨r, eq, maps⟩ := exactly.maps mapped
    obtain rfl := Option.some.inj (remap.symm.trans eq)
    -- the start of the page is mapped, so it is no lower than the resource
    have first := (maps (resource.start >>> 12 <<< 12)).1.mp
      ((phys _).mpr (by rw [frame]; omega))
    rw [frame] at first
    exact Nat.dvd_of_mod_eq_zero (by omega)
  · intro aligned
    rw [Nat.div_mul_cancel aligned] at phys
    refine ⟨iff_of_true mapped ⟨paged, by omega⟩, fun _ => ⟨_, remap, fun a => ?_⟩⟩
    refine ⟨phys a, fun within => ?_⟩
    have := (phys a).mp within
    rw [BitVec.le_def, BitVec.le_def]
    omega

/-- `rawio_mmap` maps just what the resource allows exactly if the area is refused as it must be, or
the resource starts at a page and is larger than the area. -/
theorem mapsExactly_iff (noPgoff : vma.vmPgoff = 0) :
    MapsExactly noncached resource vma ↔ Mappable resource vma := by
  have success : (rawioMmap noncached true (some resource) vma).1 = 0 ↔
      2 ^ 12 ∣ vma.length ∧ vma.length ≤ (resource.stop - resource.start).toNat :=
    rawioMmap_eq_zero_iff noPgoff
  have positive := vma.length_pos
  rw [Mappable]
  by_cases mapped : (rawioMmap noncached true (some resource) vma).1 = 0
  · obtain ⟨paged, small⟩ := success.mp mapped
    by_cases ordered : resource.start ≤ resource.stop
    · rw [BitVec.toNat_sub_of_le ordered] at small ⊢
      rw [mapsExactly_of_mapped mapped ordered paged small]
      constructor
      · intro aligned
        exact .inr (.inr ⟨ordered, aligned, small⟩)
      · intro either
        rcases either with unpaged | ⟨-, large⟩ | ⟨-, aligned, -⟩
        · exact absurd paged unpaged
        · omega
        · exact aligned
    · have reversed := mt BitVec.le_def.mpr ordered
      refine iff_of_false (fun exactly => ?_) ?_
      · have := (exactly.succeeds.mp mapped).2
        omega
      · intro either
        rcases either with unpaged | ⟨-, large⟩ | ⟨ordered', -, -⟩
        · exact unpaged paged
        · omega
        · exact ordered ordered'
  · rw [mapsExactly_of_refused mapped]
    rw [success, not_and, Nat.not_le] at mapped
    constructor
    · intro either
      rcases either with unpaged | large
      · exact .inl unpaged
      · rcases em (2 ^ 12 ∣ vma.length) with paged | unpaged
        · exact .inr (.inl ⟨large, mapped paged⟩)
        · exact .inl unpaged
    · intro either
      rcases either with unpaged | ⟨large, -⟩ | ⟨ordered, -, small⟩
      · exact .inl unpaged
      · exact .inr large
      · refine .inl fun paged => ?_
        have := mapped paged
        rw [BitVec.toNat_sub_of_le ordered] at this
        omega

end Mmap

/-- Two pages of a resource with one more byte. -/
theorem mapsExactly_iff_twoPages :
    MapsExactly (x := .rv64) id ⟨0x1000, 0x3000⟩ ⟨0x10000, 0x12000, by decide, 0, 0, 0⟩ :=
  (mapsExactly_iff rfl).mpr (.inr (.inr ⟨by decide, by decide, by decide⟩))

/-- A resource of one page cannot be mapped. -/
theorem not_mapsExactly_page :
    ¬ MapsExactly (x := .rv64) id ⟨0x1000, 0x1fff⟩ ⟨0x10000, 0x11000, by decide, 0, 0, 0⟩ := by
  intro exactly
  have success := exactly.succeeds.mpr ⟨by decide, by decide⟩
  exact absurd success (by decide)

/-! ## The list of devices -/

variable {δ φ : Type*} [DecidableEq δ] [DecidableEq φ]

/-- `struct rawio_t`, at an address. -/
structure RawioT (δ : Type*) where
  addr : Nat
  index : BitVec 32
  pDevice : δ
  deriving DecidableEq

/-- `MINOR(dev)` -/
def minor (dev : BitVec 32) : BitVec 32 := dev &&& BitVec.ofNat 32 (2 ^ 20 - 1)

/-- An open file: the number of its inode and `private_data`. `opened` is the item that
`rawio_open` found. -/
structure File (δ : Type*) where
  iRdev : BitVec 32
  privateData : Nat
  opened : RawioT δ

/-- A use of `private_data` by `rawio_mmap`, which goes on with the device of the item that is found
there. Nothing is when the item has been freed. -/
structure Use (δ : Type*) where
  file : File δ
  found : Option (RawioT δ)

/-- `p_rawio_list` from its head on, `index`, the open files, and the uses of `private_data`. -/
structure Driver (δ φ : Type*) where
  pRawioList : List (RawioT δ)
  index : BitVec 32
  file : φ → Option (File δ)
  uses : List (Use δ)

/-- The item at an address. -/
def itemAt (list : List (RawioT δ)) (addr : Nat) : Option (RawioT δ) :=
  list.find? (·.addr = addr)

/-- `rawio_open`: the first item with the minor number. -/
def rawioOpen (s : Driver δ φ) (iRdev : BitVec 32) : Option (RawioT δ) :=
  s.pRawioList.find? (·.index = minor iRdev)

/-- `rawio_probe`, for a device with or without a memory resource, with what `kcalloc` returns. -/
def rawioProbe (hasResource : Bool) (alloc : Option Nat) (d : δ) (s : Driver δ φ) :
    Int × Driver δ φ :=
  if hasResource = false then (eNoDev, s)
  else
    match alloc with
    | none => (eNoMem, s)
    | some addr =>
      (0, { s with
        pRawioList := ⟨addr, s.index, d⟩ :: s.pRawioList
        index := s.index + 1 })

/-- `rawio_remove`: every item of the device leaves the list and is freed. -/
def rawioRemove (d : δ) (s : Driver δ φ) : Driver δ φ :=
  { s with pRawioList := s.pRawioList.filter (·.pDevice ≠ d) }

/-- The calls of the driver. -/
inductive Event (δ φ : Type*)
  | probe (d : δ) (hasResource : Bool) (alloc : Option Nat)
  | remove (d : δ)
  | openFile (f : φ) (iRdev : BitVec 32)
  | mmap (f : φ)
  | release (f : φ)

/-- One call, as a whole: `rawio.c` has no lock, and calls that overlap are not looked at. `kcalloc`
returns memory that is not in use. -/
def step (s : Driver δ φ) : Event δ φ → Option (Driver δ φ)
  | .probe d hasResource alloc =>
    if ∃ item ∈ s.pRawioList, alloc = some item.addr then none
    else some (rawioProbe hasResource alloc d s).2
  | .remove d => some (rawioRemove d s)
  | .openFile f iRdev =>
    match s.file f with
    | some _ => none
    | none =>
      match rawioOpen s iRdev with
      | none => some s
      | some item => some { s with
          file := Function.update s.file f (some ⟨iRdev, item.addr, item⟩) }
  | .mmap f =>
    (s.file f).map fun file => { s with
      uses := s.uses ++ [⟨file, itemAt s.pRawioList file.privateData⟩] }
  | .release f => (s.file f).map fun _ => { s with file := Function.update s.file f none }

/-- No device and no file. -/
def init : Driver δ φ := ⟨[], 0, fun _ => none, []⟩

/-! ## What `private_data` leads to -/

/-- `private_data` leads to the item that `rawio_open` found, which has the minor number that the
file was opened with. -/
def Leads (file : File δ) (found : Option (RawioT δ)) : Prop :=
  found = some file.opened ∧ file.opened.index = minor file.iRdev

/-- Every open file has the item in the list that it was opened for, and every use of
`private_data` found it there. -/
structure Safe (s : Driver δ φ) : Prop where
  files : ∀ f file, s.file f = some file → Leads file (itemAt s.pRawioList file.privateData)
  uses : ∀ use ∈ s.uses, Leads use.file use.found

/-- The condition: no device is removed while a file is open that was opened for it. It is what the
files need to lead to their items. The uses alone could do with less, since a file whose item is
gone may be closed without another use. -/
def NotOpen (s : Driver δ φ) : Event δ φ → Prop
  | .remove d => ∀ f file, s.file f = some file → file.opened.pDevice ≠ d
  | _ => True

/-- What every call under the condition keeps. -/
structure Sound (s : Driver δ φ) : Prop where
  distinct : (s.pRawioList.map RawioT.addr).Nodup
  safe : Safe s

variable {s t : Driver δ φ}

omit [DecidableEq δ] in
theorem itemAt_eq_some_iff {list : List (RawioT δ)} (distinct : (list.map RawioT.addr).Nodup)
    {addr : Nat} {item : RawioT δ} :
    itemAt list addr = some item ↔ item ∈ list ∧ item.addr = addr := by
  rw [itemAt]
  constructor
  · intro found
    exact ⟨List.mem_of_find?_eq_some found, by simpa using List.find?_some found⟩
  · intro given
    rcases given with ⟨mem, rfl⟩
    cases found : list.find? (·.addr = item.addr) with
    | none => exact absurd (decide_eq_true rfl) (List.find?_eq_none.mp found item mem)
    | some other =>
      have same : other.addr = item.addr := by simpa using List.find?_some found
      have listed := List.mem_of_find?_eq_some found
      exact congrArg some (List.inj_on_of_nodup_map distinct listed mem same)

/-- An item that is added at a new address hides no other. -/
theorem probe_sound (sound : Sound s) {d : δ} {hasResource : Bool} {alloc : Option Nat}
    (next : step s (.probe d hasResource alloc) = some t) : Sound t := by
  rw [step] at next
  split at next
  · cases next
  · next fresh =>
    cases next
    unfold rawioProbe
    split
    · exact sound
    · cases alloc with
      | none => exact sound
      | some addr =>
        have new : ∀ item ∈ s.pRawioList, item.addr ≠ addr :=
          fun item mem same => fresh ⟨item, mem, congrArg some same.symm⟩
        have distinct : ((⟨addr, s.index, d⟩ :: s.pRawioList).map RawioT.addr).Nodup := by
          refine List.nodup_cons.mpr ⟨fun mem => ?_, sound.distinct⟩
          obtain ⟨item, mem, same⟩ := List.mem_map.mp mem
          exact new item mem same
        refine ⟨distinct, fun f file there => ?_, sound.safe.uses⟩
        obtain ⟨found, index⟩ := sound.safe.files f file there
        obtain ⟨mem, same⟩ := (itemAt_eq_some_iff sound.distinct).mp found
        exact ⟨(itemAt_eq_some_iff distinct).mpr ⟨List.mem_cons_of_mem _ mem, same⟩, index⟩

omit [DecidableEq φ] in
theorem distinct_remove (sound : Sound s) (d : δ) :
    ((rawioRemove d s).pRawioList.map RawioT.addr).Nodup :=
  sound.distinct.sublist (List.filter_sublist.map _)

omit [DecidableEq φ] in
/-- A file keeps its item when a device is removed exactly if it was not opened for it. -/
theorem remove_safe (sound : Sound s) (d : δ) :
    Safe (rawioRemove d s) ↔ ∀ f file, s.file f = some file → file.opened.pDevice ≠ d := by
  constructor
  · intro safe f file there same
    subst same
    obtain ⟨found, -⟩ := safe.files f file there
    obtain ⟨mem, -⟩ := (itemAt_eq_some_iff (distinct_remove sound _)).mp found
    exact of_decide_eq_true (List.mem_filter.mp mem).2 rfl
  · intro kept
    refine ⟨fun f file there => ?_, sound.safe.uses⟩
    obtain ⟨found, index⟩ := sound.safe.files f file there
    obtain ⟨mem, same⟩ := (itemAt_eq_some_iff sound.distinct).mp found
    refine ⟨(itemAt_eq_some_iff (distinct_remove sound _)).mpr ⟨?_, same⟩, index⟩
    exact List.mem_filter.mpr ⟨mem, by simpa using kept f file there⟩

theorem open_sound (sound : Sound s) {f : φ} {iRdev : BitVec 32}
    (next : step s (.openFile f iRdev) = some t) : Sound t := by
  rw [step] at next
  split at next
  · cases next
  · split at next
    · cases next
      exact sound
    · next item found =>
      cases next
      refine ⟨sound.distinct, fun g file there => ?_, sound.safe.uses⟩
      dsimp only at there
      rcases eq_or_ne g f with rfl | other
      · rw [Function.update_self] at there
        obtain rfl := Option.some.inj there
        exact ⟨(itemAt_eq_some_iff sound.distinct).mpr ⟨List.mem_of_find?_eq_some found, rfl⟩,
          by simpa using List.find?_some found⟩
      · rw [Function.update_of_ne other] at there
        exact sound.safe.files g file there

theorem mmap_sound (sound : Sound s) {f : φ} (next : step s (.mmap f) = some t) : Sound t := by
  obtain ⟨file, there, rfl⟩ := Option.map_eq_some_iff.mp next
  refine ⟨sound.distinct, sound.safe.files, fun use mem => ?_⟩
  rcases List.mem_append.mp mem with before | new
  · exact sound.safe.uses use before
  · obtain rfl := List.mem_singleton.mp new
    exact sound.safe.files f file there

theorem release_sound (sound : Sound s) {f : φ} (next : step s (.release f) = some t) :
    Sound t := by
  obtain ⟨file, there, rfl⟩ := Option.map_eq_some_iff.mp next
  refine ⟨sound.distinct, fun g file there => ?_, sound.safe.uses⟩
  dsimp only at there
  rcases eq_or_ne g f with rfl | other
  · rw [Function.update_self] at there
    cases there
  · rw [Function.update_of_ne other] at there
    exact sound.safe.files g file there

theorem step_safe (sound : Sound s) {e : Event δ φ} (next : step s e = some t) :
    Safe t ↔ NotOpen s e := by
  cases e with
  | probe d hasResource alloc => exact iff_of_true (probe_sound sound next).safe trivial
  | remove d =>
    cases next
    exact remove_safe sound d
  | openFile f iRdev => exact iff_of_true (open_sound sound next).safe trivial
  | mmap f => exact iff_of_true (mmap_sound sound next).safe trivial
  | release f => exact iff_of_true (release_sound sound next).safe trivial

theorem sound_kept : Keeps (Taken step NotOpen) (Sound (δ := δ) (φ := φ)) := by
  intro s t sound taken
  rcases taken with ⟨e, allows, next⟩
  cases e with
  | probe d hasResource alloc => exact probe_sound sound next
  | remove d =>
    cases next
    exact ⟨distinct_remove sound d, (remove_safe sound d).mpr allows⟩
  | openFile f iRdev => exact open_sound sound next
  | mmap f => exact mmap_sound sound next
  | release f => exact release_sound sound next

/-! ## Runs -/

omit [DecidableEq δ] [DecidableEq φ] in
theorem sound_init : Sound (init : Driver δ φ) :=
  ⟨List.nodup_nil, nofun, nofun⟩

/-- While no device is removed that has an open file, `private_data` leads to the item of the device
that the file was opened for, and the runs along which it does are just those. -/
theorem safe_iff (s : Driver δ φ) :
    (Run (Taken step NotOpen) init s → Safe s)
    ∧ (Run (Guarded (Any step) fun _ t => Safe t) init s ↔ Run (Taken step NotOpen) init s) :=
  Run.exact (fun _ sound => sound.safe) (fun _ _ _ sound => step_safe sound) sound_kept sound_init

/-- A device is removed while it is open, and then mapped. -/
def removed : List (Event Unit Unit) :=
  [.probe () true (some 1), .openFile () 0, .remove (), .mmap ()]

/-- `rawio_mmap` uses an item that has been freed. -/
theorem not_safe_removed :
    ¬ ∀ s : Driver Unit Unit, Run (Any step) init s →
      ∀ use ∈ s.uses, Leads use.file use.found := by
  intro always
  have freed : (removed.foldlM step init).any (fun s => s.uses.any (·.found = none)) := by
    decide
  obtain ⟨s, leads, found⟩ := (Option.any_eq_true _ _).mp freed
  obtain ⟨use, mem, none⟩ := List.any_eq_true.mp found
  have live := (always s (.of_foldlM leads) use mem).1
  rw [of_decide_eq_true none] at live
  cases live

end RiscvLinux.Drivers.Rawio
