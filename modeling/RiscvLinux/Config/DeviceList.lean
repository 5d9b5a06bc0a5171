import RiscvLinux.Config.DeviceScript

/-!
# The device list of a text

`config_find_devices` against its purpose: on the text of a document it is to leave the devices of
the document behind, whatever the memory that it gets holds. `produces_iff` says for which
documents it does.
-/

namespace RiscvLinux.Config

/-! ## What is left behind -/

/-- A name pointer points to a name. -/
def Heap.PointsTo (heap : Heap) (name : Bytes) : NamePtr → Prop
  | .dot => name = [dot]
  | .names off => StoredAt heap.names off (name ++ [0])

/-- An entry of the resources array describes a resource. -/
structure Heap.DescribesResource (heap : Heap) (entry : Resource) (resource : ResourceSpec) :
    Prop where
  name : heap.PointsTo resource.name entry.name
  flags : entry.flags = resource.flags
  start : entry.start = resource.start
  stop : entry.stop = resource.stop

/-- An entry of the devices array describes a device. -/
structure Heap.Describes (heap : Heap) (pdev : PlatformDevice) (device : DeviceSpec) : Prop where
  name : ∃ ptr, pdev.name = some ptr ∧ heap.PointsTo device.name ptr
  noOverride : device.driverOverride = none → pdev.driverOverride = none
  driverOverride : ∀ value, device.driverOverride = some value →
    ∃ off, pdev.driverOverride = some off ∧ StoredAt heap.names off (value ++ [0])
  numResources : pdev.numResources = device.resources.length
  resources : ∃ base, pdev.resource = some base ∧
    ∀ (i : Nat) (h : i < device.resources.length),
      heap.DescribesResource (heap.resources (base + i)) device.resources[i]

/-- The run has found the devices of a list, in their order. -/
structure Found.Lists (found : Found) (devices : List DeviceSpec) : Prop where
  numDevices : found.numDevices = devices.length
  describes : ∀ (i : Nat) (h : i < devices.length),
    found.pass2.2.Describes (found.pass2.2.devices i) devices[i]

/-- Whatever the memory holds, a run over the text finds the devices. -/
def Produces (config : Cursor) (devices : List DeviceSpec) : Prop :=
  ∀ (uninit : ParserState) (resources : Nat → Resource) (names : Nat → Byte),
    ∃ found, configFindDevices uninit resources names config = .ok found ∧ found.Lists devices

/-! ## What the run builds -/

/-- The slices that the devices get. -/
def slicesOf (devices : Nat → PlatformDevice) : Slices where
  base := slicesBelow devices
  size index := (devices index).numResources
  apart {index other i j} left right same := by
    rcases lt_trichotomy index other with below | eq | above
    · have next := slicesBelow_le devices (show index + 1 ≤ other from below)
      rw [slicesBelow_succ] at next
      omega
    · exact eq
    · have next := slicesBelow_le devices (show other + 1 ≤ index from above)
      rw [slicesBelow_succ] at next
      omega

namespace Executes

variable {entries : Entries} {names : Nat → Byte} {found : Found} {start : ParserState}
variable {measure write : Heap} (runs : Executes entries names found start measure write)

include runs

theorem room : Room (slicesOf found.pass1.2.devices) found.numDevices write 0
    fun index => resourceCount index (passScript entries found.pass0.2.roots start) where
  allocated index below := runs.allocated below
  room index := by
    have live := runs.length_devicesIn
    have count := applyAll_countBefore runs.targets 1 0 measure index
    rw [countBefore, countBefore, if_neg (by omega : ¬ index < 0), ← runs.run1] at count
    rw [countBefore, if_neg (by omega)]
    simp only [slicesOf]
    split at count <;> omega

/-- The heap after the run holds the devices of the script. -/
theorem built : Built names (fun index => (write.devices index).driverOverride)
    (slicesOf found.pass1.2.devices) found.pass2.2
    (0 + scriptSize (passScript entries found.pass0.2.roots start))
    (builtFrom [] (passScript entries found.pass0.2.roots start)) := by
  have before : Built names (fun index => (write.devices index).driverOverride)
      (slicesOf found.pass1.2.devices) write 0 [] :=
    ⟨fun o _ => by rw [runs.fresh2.2], fun _ _ => rfl, fun index h => by cases h⟩
  have live := runs.length_devicesIn
  rw [runs.run2]
  exact before.run runs.targets (by simp only [List.length_nil]; omega) runs.room

/-- The run leaves no override at a device that the script gives none. -/
theorem driverOverride_eq_none {index : Nat}
    (noOverride : NoOverride (builtFrom [] (passScript entries found.pass0.2.roots start)) index) :
    (write.devices index).driverOverride = none := by
  have targets : Targets ([] : List DeviceSpec).length _ := runs.targets
  have kept := (applyAll_noOverride targets noOverride 1 0 measure).2
  rw [← runs.run1, runs.fresh1.2] at kept
  rw [runs.write_devices]
  split <;> exact kept

end Executes

theorem Heap.Reads.pointsTo {heap : Heap} {limit : Nat} {name : Bytes} {ptr : NamePtr}
    (reads : heap.Reads limit name ptr) : heap.PointsTo name ptr := by
  cases ptr with
  | dot => exact reads
  | names off => exact reads.2

/-- At the end of pass 2 a device is described, if its override was not cut. -/
theorem Heap.Holds.describes {fill : Nat → Byte} {stale : Option Nat} {base limit : Nat}
    {heap : Heap} {pdev : PlatformDevice} {device : DeviceSpec}
    (holds : heap.Holds fill stale base limit pdev device) (allocated : pdev.resource = some base)
    (unset : device.driverOverride = none → stale = none)
    (short : ∀ value, device.driverOverride = some value → value.length < 65536) :
    heap.Describes pdev device where
  name := by
    obtain ⟨ptr, eq, reads⟩ := holds.name
    exact ⟨ptr, eq, reads.pointsTo⟩
  noOverride none := (holds.unset none).trans (unset none)
  driverOverride value set := by
    obtain ⟨off, eq, -, cut⟩ := holds.driverOverride value set
    refine ⟨off, eq, fun i h => ?_⟩
    have := short value set
    rw [cut i h, if_pos]
    rw [List.length_append, List.length_singleton] at h
    omega
  numResources := holds.numResources
  resources := ⟨base, allocated, fun i h =>
    have shows := holds.resources i h
    ⟨shows.name.pointsTo, shows.flags, shows.start, shows.stop⟩⟩

/-- The run finds the devices of its script, if no override is cut. -/
theorem Executes.lists {entries : Entries} {names : Nat → Byte} {found : Found}
    {start : ParserState} {measure write : Heap}
    (runs : Executes entries names found start measure write) {devices : List DeviceSpec}
    (script : builtFrom [] (passScript entries found.pass0.2.roots start) = devices)
    (short : ∀ device ∈ devices, ∀ value, device.driverOverride = some value →
      value.length < 65536) : found.Lists devices := by
  have count : found.numDevices = devices.length := by
    rw [← script, length_builtFrom, runs.length_devicesIn, List.length_nil, Nat.zero_add]
  have built := runs.built
  have noOverride :
      ∀ index, NoOverride devices index → (write.devices index).driverOverride = none :=
    fun index none => runs.driverOverride_eq_none (script.symm ▸ none)
  rw [script] at built
  refine ⟨count, fun i h => (built.holds i h).describes ?_ (fun none => noOverride i ?_)
    (short devices[i] (List.getElem_mem h))⟩
  · rw [runs.run2, applyAll_resource, runs.allocated (by omega)]
    rfl
  · intro device found
    rw [List.getElem?_eq_getElem h] at found
    rwa [← Option.some.inj found]

section Converse

variable {entries : Entries} {names : Nat → Byte} {found : Found} {start : ParserState}
variable {measure write : Heap} {devices others : List DeviceSpec} {i : Nat}

/-- A device that a run finds has as many resources as the script gives it. -/
theorem Executes.length_resources (runs : Executes entries names found start measure write)
    (script : builtFrom [] (passScript entries found.pass0.2.roots start) = devices)
    (lists : found.Lists others) (h : i < devices.length) (h' : i < others.length) :
    devices[i].resources.length = others[i].resources.length := by
  have built := runs.built
  rw [script] at built
  exact (built.holds i h).numResources.symm.trans (lists.describes i h').numResources

/-- Over memory without a NUL, a run finds no override that was cut. -/
theorem Executes.length_driverOverride (runs : Executes entries names found start measure write)
    (script : builtFrom [] (passScript entries found.pass0.2.roots start) = devices)
    (lists : found.Lists others) (h : i < devices.length) (h' : i < others.length)
    (noNul : ∀ o, names o ≠ 0) {value : Bytes} (set : devices[i].driverOverride = some value)
    (set' : others[i].driverOverride = some value) : value.length < 65536 := by
  have built := runs.built
  rw [script] at built
  obtain ⟨off, eq, -, cut⟩ := (built.holds i h).driverOverride value set
  obtain ⟨off', eq', stored⟩ := (lists.describes i h').driverOverride value set'
  obtain rfl : off = off' := Option.some.inj (eq.symm.trans eq')
  by_contra long
  have inside : value.length < (value ++ [0]).length := by simp
  have atEnd := (cut _ inside).symm.trans (stored _ inside)
  rw [if_neg long, List.getElem_concat_length rfl] at atEnd
  exact noNul _ atEnd

end Converse

/-- Without a flag for the text itself, the first access stops the kernel. -/
theorem configFindDevices_empty (uninit : ParserState) (resources : Nat → Resource)
    (names : Nat → Byte) {config : Cursor} (empty : strlen config = 0) :
    configFindDevices uninit resources names config = .error .roots := by
  unfold configFindDevices runPass
  dsimp only
  rw [parseConfigString_succ]
  simp only [enterBlock, empty]
  rfl

/-! ## Numbers -/

/-- A candidate is read as the resource that it is, if its numbers are plain. -/
theorem Candidate.resource_readNumber_iff {candidate : Candidate} {resource : ResourceSpec} :
    candidate.resource readNumber = some resource ↔
      candidate.resource numeral = some resource ∧ HexOrBelowTen candidate.start ∧
        HexOrBelowTen candidate.stop := by
  simp only [Candidate.resource, Option.bind_eq_some_iff, Option.map_eq_some_iff,
    readNumber_eq_some_iff]
  constructor
  · intro given
    rcases given with ⟨start, ⟨spells, plain⟩, stop, ⟨spells', plain'⟩, eq⟩
    exact ⟨⟨start, spells, stop, spells', eq⟩, plain, plain'⟩
  · intro given
    rcases given with ⟨⟨start, spells, stop, spells', eq⟩, plain, plain'⟩
    exact ⟨start, ⟨spells, plain⟩, stop, ⟨spells', plain'⟩, eq⟩

/-- Where a test that implies another one holds as often, it holds of the same elements. -/
theorem of_countP_eq {α : Type} {p q : α → Bool} {l : List α}
    (implies : ∀ a, p a = true → q a = true)
    (same : l.countP p = l.countP q) : ∀ a ∈ l, q a = true → p a = true := by
  induction l with
  | nil => nofun
  | cons b l ih =>
    have le : l.countP p ≤ l.countP q := List.countP_mono_left fun a _ => implies a
    rw [List.countP_cons, List.countP_cons] at same
    intro a mem holds
    rcases List.mem_cons.mp mem with rfl | mem
    · by_contra fails
      rw [if_neg fails, if_pos holds] at same
      omega
    · refine ih ?_ a mem holds
      have first : (if p b = true then 1 else 0) ≤ if q b = true then 1 else 0 := by
        by_cases here : p b = true
        · rw [if_pos here, if_pos (implies b here)]
        · rw [if_neg here]
          exact Nat.zero_le _
      omega

/-- The devices of a document are read as they are exactly if their numbers are plain. -/
theorem Doc.read_eq_of_plain {doc : Doc} (plain : doc.NumbersPlain) :
    doc.deviceTexts.map (DeviceText.read readNumber) = doc.devices := by
  refine List.map_congr_left fun device mem => ?_
  simp only [DeviceText.read, DeviceSpec.mk.injEq, true_and]
  refine List.filterMap_congr fun candidate memCandidate => ?_
  cases read : candidate.resource numeral with
  | none =>
    rw [Option.eq_none_iff_forall_ne_some]
    intro resource eq
    rw [Candidate.resource_readNumber_iff, read] at eq
    cases eq.1
  | some resource =>
    have numbers := plain device mem candidate memCandidate (by rw [read]; rfl)
    exact Candidate.resource_readNumber_iff.mpr ⟨read, numbers⟩

/-- A document whose devices are read with all their resources has plain numbers. -/
theorem Doc.plain_of_length_eq {doc : Doc}
    (same : ∀ device ∈ doc.deviceTexts, (device.read readNumber).resources.length =
      (device.read numeral).resources.length) : doc.NumbersPlain := by
  intro device mem candidate memCandidate spelled
  have counts := same device mem
  simp only [DeviceText.read, List.length_filterMap_eq_countP] at counts
  have implies : ∀ candidate : Candidate, (candidate.resource readNumber).isSome = true →
      (candidate.resource numeral).isSome = true := by
    intro candidate read
    obtain ⟨resource, eq⟩ := Option.isSome_iff_exists.mp read
    rw [(Candidate.resource_readNumber_iff.mp eq).1]
    rfl
  have read := of_countP_eq implies counts candidate memCandidate spelled
  obtain ⟨resource, eq⟩ := Option.isSome_iff_exists.mp read
  exact (Candidate.resource_readNumber_iff.mp eq).2

/-! ## The flags fit -/

mutual

/-- A block takes four bytes of the text at least: its braces, its key and the `;` after it. -/
theorem Doc.length_flags_le (tail : Bytes) : ∀ doc : Doc, doc.SingleValued →
    4 * doc.flags.length + tail.length ≤ (doc.print tail).length
  | .nil, _ => by simp [Doc.flags, Doc.print]
  | .entry key gap values after rest, single => by
    rcases single with ⟨nonempty, valuesSingle, restSingle⟩
    have key_pos := List.length_pos_of_ne_nil nonempty
    have inValues := values.length_flags_le (semicolon :: (after.bytes ++ rest.print tail))
      valuesSingle
    have inRest := rest.length_flags_le tail restSingle
    simp only [Doc.flags, Doc.print, List.length_append, List.length_cons] at *
    omega

theorem Vals.length_flags_le (tail : Bytes) : ∀ values : Vals, values.Single →
    4 * values.flags.length + tail.length ≤ (values.print tail).length + 2
  | .string body after .nil, _ => by
    simp only [Vals.flags, Vals.print, List.length_nil, List.length_append, List.length_cons]
    omega
  | .block lead body after .nil, single => by
    have inBody := body.length_flags_le (closeBrace :: (after.bytes ++ tail)) single.1
    simp only [Vals.flags, Vals.print, List.length_nil, List.length_append, List.length_cons] at *
    omega
  | .token word after .nil, _ => by
    simp only [Vals.flags, Vals.print, List.length_nil, List.length_append]
    omega

end

/-! ## The device list of a text -/

section Text

variable (lead : Blank) (junk : Bytes) {doc : Doc} (wellFormed : doc.WellFormed)

theorem config_eq (doc : Doc) :
    lead.bytes ++ doc.print (0 :: junk) = lead.bytes ++ doc.print [] ++ 0 :: junk := by
  rw [List.append_assoc, ← doc.print_append, List.nil_append]

theorem strlen_config (doc : Doc) :
    strlen (lead.bytes ++ doc.print (0 :: junk)) = (lead.bytes ++ doc.print []).length := by
  rw [config_eq, strlen_append]
  simp [lead.nulFree, doc.nulFree]

include wellFormed

/-- A run over a text that is not empty ends, and its script describes the devices of the document,
with their numbers as they are read. -/
theorem run_of_nonempty (single : doc.SingleValued) (plain : doc.ResourceBlocksPlain)
    (nonempty : lead.bytes ++ doc.print [] ≠ []) (uninit : ParserState)
    (resources : Nat → Resource) (names : Nat → Byte) :
    ∃ found start measure write,
      configFindDevices uninit resources names (lead.bytes ++ doc.print (0 :: junk)) = .ok found ∧
      Executes (doc.outline (0 :: junk)) names found start measure write ∧
      builtFrom [] (passScript (doc.outline (0 :: junk)) found.pass0.2.roots start) =
        doc.deviceTexts.map (DeviceText.read readNumber) := by
  have cases := configFindDevices_cases uninit resources names
      (doc.reads_config lead junk wellFormed)
  split at cases
  · rcases cases with ⟨later, marked, state, roots, marks, faults⟩
    have fits := doc.length_flags_le [] single
    have length := List.length_pos_of_ne_nil nonempty
    rw [List.length_append] at length
    have enough : doc.flags.length < strlen (lead.bytes ++ doc.print (0 :: junk)) := by
      rw [strlen_config, List.length_append]
      simp only [List.length_nil] at fits
      omega
    rw [doc.scriptFault_passScript wellFormed roots plain marks enough] at faults
    cases faults
  · next found run =>
    rcases cases with ⟨start, measure, write, runs, -⟩
    exact ⟨found, start, measure, write, run, runs,
      doc.builtFrom_passScript wellFormed runs.roots plain single runs.marks runs.devices⟩

end Text

/-- A run over a text finds the devices of its document, whatever the memory holds, exactly if the
text is not empty, every number of a resource is hexadecimal or less than ten, and no override
fills 65536 bytes. -/
theorem produces_iff (lead : Blank) (junk : Bytes) {doc : Doc} (wellFormed : doc.WellFormed)
    (single : doc.SingleValued) (plain : doc.ResourceBlocksPlain) :
    Produces (lead.bytes ++ doc.print (0 :: junk)) doc.devices ↔
      lead.bytes ++ doc.print [] ≠ [] ∧ doc.NumbersPlain ∧
        ∀ device ∈ doc.devices, ∀ value, device.driverOverride = some value →
          value.length < 65536 := by
  constructor
  · intro produces
    have nonempty : lead.bytes ++ doc.print [] ≠ [] := fun empty => by
      obtain ⟨found, run, -⟩ := produces ⟨[], 0, 0, [], 0, 0, [], []⟩ (fun _ => ⟨.dot, 0, 0, 0⟩)
        fun _ => 1
      rw [configFindDevices_empty _ _ _ (by rw [strlen_config, empty]; rfl)] at run
      cases run
    obtain ⟨found, start, measure, write, run, runs, script⟩ :=
      run_of_nonempty lead junk wellFormed single plain nonempty ⟨[], 0, 0, [], 0, 0, [], []⟩
        (fun _ => ⟨.dot, 0, 0, 0⟩) fun _ => 1
    obtain ⟨other, run', lists⟩ := produces ⟨[], 0, 0, [], 0, 0, [], []⟩
      (fun _ => ⟨.dot, 0, 0, 0⟩) fun _ => 1
    obtain rfl : found = other := Except.ok.inj (run.symm.trans run')
    refine ⟨nonempty, Doc.plain_of_length_eq fun device mem => ?_, fun device mem value set => ?_⟩
    · obtain ⟨i, h, rfl⟩ := List.getElem_of_mem mem
      have same := runs.length_resources script lists (i := i) (by simpa using h)
        (by simpa [Doc.devices] using h)
      simpa [Doc.devices] using same
    · obtain ⟨i, h, rfl⟩ := List.getElem_of_mem mem
      have inside : i < doc.deviceTexts.length := by simpa [Doc.devices] using h
      refine runs.length_driverOverride script lists (i := i) (by simpa using inside) h
        (fun _ => by decide) ?_ set
      simpa [Doc.devices, DeviceText.read] using set
  · intro given uninit resources names
    rcases given with ⟨nonempty, numbers, short⟩
    obtain ⟨found, start, measure, write, run, runs, script⟩ :=
      run_of_nonempty lead junk wellFormed single plain nonempty uninit resources names
    rw [Doc.read_eq_of_plain numbers] at script
    exact ⟨found, run, runs.lists script short⟩

/-- A device with one resource, `interface "a";bus ...;`. -/
def busDevice (number : Token) : Doc :=
  .entry ⟨interfaceKey, isKeyChar_interfaceKey⟩ ⟨[], isSpace_nil⟩
    (.string ⟨[97], List.forall_mem_singleton.mpr ⟨by decide, by decide⟩⟩ ⟨[], isSpace_nil⟩ .nil)
    ⟨[], isSpace_nil⟩
    (.entry ⟨busKey, List.all_eq_true.mp rfl⟩ ⟨[32], isSpace_space⟩
      (.token number ⟨[], isSpace_nil⟩ .nil) ⟨[], isSpace_nil⟩ .nil)

theorem busDevice_wellFormed (number : Token) : (busDevice number).WellFormed := by
  simp [busDevice, Doc.WellFormed, Vals.WellFormed, Vals.StartsWithToken, interfaceKey, busKey]

theorem busDevice_single (number : Token) : (busDevice number).SingleValued := by
  simp [busDevice, Doc.SingleValued, Vals.Single, interfaceKey, busKey]

theorem busDevice_plain (number : Token) : (busDevice number).ResourceBlocksPlain := by
  simp [busDevice, Doc.ResourceBlocksPlain, Vals.ResourceBlocksPlain]

/-- A hexadecimal number is found. -/
theorem produces_busDevice :
    Produces ((busDevice ⟨[48, 120, 49, 50], List.all_eq_true.mp rfl, nofun⟩).print [0])
      [⟨[dot], some [97], [⟨[dot], ioresourceBus, 0x12, 0x12⟩]⟩] := by
  refine (produces_iff ⟨[], nofun⟩ [] (busDevice_wellFormed _) (busDevice_single _)
    (busDevice_plain _)).mpr ⟨by decide, ?_, ?_⟩
  · intro device mem candidate memCandidate _
    obtain rfl : device = ⟨[dot], some [97], [⟨[dot], ioresourceBus, [48, 120, 49, 50],
      [48, 120, 49, 50]⟩]⟩ := List.mem_singleton.mp mem
    obtain rfl := List.mem_singleton.mp memCandidate
    exact ⟨.inl rfl, .inl rfl⟩
  · intro device mem value set
    obtain rfl := List.mem_singleton.mp mem
    obtain rfl := Option.some.inj set
    decide

/-- A decimal number of two digits is lost: `interface "a";bus 12;`. -/
theorem not_produces_decimal :
    (busDevice ⟨[49, 50], List.all_eq_true.mp rfl, nofun⟩).WellFormed ∧
      (busDevice ⟨[49, 50], List.all_eq_true.mp rfl, nofun⟩).SingleValued ∧
      (busDevice ⟨[49, 50], List.all_eq_true.mp rfl, nofun⟩).ResourceBlocksPlain ∧
      ¬ Produces ((busDevice ⟨[49, 50], List.all_eq_true.mp rfl, nofun⟩).print [0])
        (busDevice ⟨[49, 50], List.all_eq_true.mp rfl, nofun⟩).devices := by
  refine ⟨busDevice_wellFormed _, busDevice_single _, busDevice_plain _, fun produces => ?_⟩
  obtain ⟨found, start, measure, write, run, runs, script⟩ :=
    run_of_nonempty ⟨[], nofun⟩ [] (busDevice_wellFormed ⟨[49, 50], List.all_eq_true.mp rfl, nofun⟩)
      (busDevice_single _) (busDevice_plain _) (by decide) ⟨[], 0, 0, [], 0, 0, [], []⟩
      (fun _ => ⟨.dot, 0, 0, 0⟩) fun _ => 0
  obtain ⟨other, run', lists⟩ := produces ⟨[], 0, 0, [], 0, 0, [], []⟩
    (fun _ => ⟨.dot, 0, 0, 0⟩) fun _ => 0
  obtain rfl : found = other := Except.ok.inj (run.symm.trans run')
  have same := runs.length_resources script lists (i := 0) (by decide) (by decide)
  exact absurd same (by decide)

end RiscvLinux.Config
