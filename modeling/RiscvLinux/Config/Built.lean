import RiscvLinux.Config.Agreement
import RiscvLinux.Config.Reference

/-!
# What a script builds

A script is read as the list of the devices it describes, its actions adding to them one by one
(`Action.build`). `Built.run` says that the heap after pass 2 holds these devices: their names
and overrides in the names buffer and their resources in the slices of the resources array.
-/

namespace RiscvLinux.Config

/-! ## The devices of a script -/

/-- The name of a chain of frames, as `config_path` leaves it. -/
def pathName (parent : List Frame) : Bytes :=
  if parent = [] then [dot] else (pathText parent).dropLast

/-- The name of a resource: `*name?name:"."`. -/
def resourceName (parent : List Frame) : Bytes :=
  if deref (pathName parent) = 0 then [dot] else pathName parent

namespace DeviceSpec

def override (value : Bytes) (device : DeviceSpec) : DeviceSpec :=
  { device with driverOverride := some value }

def addResource (resource : ResourceSpec) (device : DeviceSpec) : DeviceSpec :=
  { device with resources := device.resources ++ [resource] }

end DeviceSpec

/-- What an action adds to the devices before it. -/
def Action.build (devices : List DeviceSpec) : Action → List DeviceSpec
  | .device _ _ parent _ => devices ++ [⟨pathName parent, none, []⟩]
  | .interface (some index) value => devices.modify index (.override value)
  | .resource index parent flags start stop =>
    devices.modify index (.addResource ⟨resourceName parent, flags, start, stop⟩)
  | _ => devices

/-- The devices that a script describes. -/
def builtFrom (devices : List DeviceSpec) (script : List Action) : List DeviceSpec :=
  script.foldl Action.build devices

theorem Action.length_build (devices : List DeviceSpec) (action : Action) :
    (action.build devices).length = devices.length + (devicesIn [action]).length := by
  cases action with
  | interface target value => cases target <;> simp [Action.build, devicesIn, Action.setUp]
  | _ => simp [Action.build, devicesIn, Action.setUp]

theorem length_builtFrom (devices : List DeviceSpec) (script : List Action) :
    (builtFrom devices script).length = devices.length + (devicesIn script).length := by
  induction script generalizing devices with
  | nil => rfl
  | cons action script ih =>
    have first : devicesIn (action :: script) = devicesIn [action] ++ devicesIn script :=
      devicesIn_append [action] script
    rw [first, List.length_append, ← Nat.add_assoc, ← action.length_build]
    exact ih (action.build devices)

/-! ## Bytes in the names buffer -/

/-- The buffer holds the bytes from the offset on. -/
def StoredAt (names : Nat → Byte) (off : Nat) (bytes : Bytes) : Prop :=
  ∀ (i : Nat) (h : i < bytes.length), names (off + i) = bytes[i]

theorem StoredAt.frame {names later : Nat → Byte} {off limit : Nat} {bytes : Bytes}
    (stored : StoredAt names off bytes) (inside : off + bytes.length ≤ limit)
    (same : ∀ o < limit, later o = names o) : StoredAt later off bytes :=
  fun i h => (same _ (by omega)).trans (stored i h)

/-- Two texts that end at their first NUL and are stored in one place are the same. -/
theorem StoredAt.first {names : Nat → Byte} {off : Nat} {bytes : Bytes}
    (stored : StoredAt names off (bytes ++ [0])) : names off = deref bytes := by
  have first := stored 0 (by simp)
  cases bytes with
  | nil => exact first
  | cons c s => exact first

theorem storeNames_storedAt (heap : Heap) (off : Nat) (bytes : Bytes) :
    StoredAt (heap.storeNames off bytes).names off bytes :=
  fun _ h => heap.storeNames_names_add off h

theorem Heap.storePath_names_of_outside (heap : Heap) {pass off o : Nat} {parent : List Frame}
    (outside : o < off ∨ off + (pathText parent).length ≤ o) :
    (heap.storePath pass off parent).names o = heap.names o := by
  unfold Heap.storePath
  split
  · next write =>
    have nonempty := List.length_pos_of_ne_nil (pathText_ne_nil write.2)
    rw [Heap.storeName]
    dsimp only
    rw [Function.update_of_ne (by omega), Heap.storeNames_names_of_outside _ outside]
  · rfl

/-- Once the names are allocated, `config_path` stores its path. -/
theorem Heap.storePath_storedAt (heap : Heap) {pass : Nat} (write : haveNames ≤ pass) (off : Nat)
    {parent : List Frame} (nonNull : parent ≠ []) :
    StoredAt (heap.storePath pass off parent).names off (pathStored parent) := by
  have nonempty := List.length_pos_of_ne_nil (pathText_ne_nil nonNull)
  have stored := storeNames_storedAt heap off (pathText parent)
  intro i h
  have inside := h
  rw [length_pathStored nonNull] at inside
  simp only [Heap.storePath, if_pos (And.intro write nonNull), Heap.storeName, pathStored]
  by_cases last : i = (pathText parent).length - 1
  · rw [List.getElem_append_right (by rw [List.length_dropLast]; omega), List.getElem_singleton,
      last, ← Nat.add_sub_assoc nonempty, Function.update_self]
  · rw [Function.update_of_ne (by omega), stored i inside,
      List.getElem_append_left (by rw [List.length_dropLast]; omega), List.getElem_dropLast]

theorem pathStored_eq {parent : List Frame} (nonNull : parent ≠ []) :
    pathStored parent = pathName parent ++ [0] := by
  rw [pathStored, pathName, if_neg nonNull]

/-! ## Names -/

/-- A pointer to a name that is stored before `limit`. -/
def Heap.Reads (heap : Heap) (limit : Nat) (name : Bytes) : NamePtr → Prop
  | .dot => name = [dot]
  | .names off => off + name.length < limit ∧ StoredAt heap.names off (name ++ [0])

theorem Heap.Reads.frame {heap later : Heap} {limit after : Nat} {name : Bytes} {ptr : NamePtr}
    (reads : heap.Reads limit name ptr) (le : limit ≤ after)
    (same : ∀ o < limit, later.names o = heap.names o) : later.Reads after name ptr := by
  cases ptr with
  | dot => exact reads
  | names off =>
    rcases reads with ⟨inside, stored⟩
    refine ⟨by omega, stored.frame ?_ same⟩
    rw [List.length_append, List.length_singleton]
    omega

/-- What `config_path` returns points to the name that it stored. -/
theorem Heap.storePath_reads (heap : Heap) {pass : Nat} (write : haveNames ≤ pass) (off : Nat)
    (parent : List Frame) :
    (heap.storePath pass off parent).Reads (off + (pathText parent).length) (pathName parent)
      (pathPtr off parent) := by
  unfold pathPtr
  split
  · next null => simp [Heap.Reads, pathName, null]
  · next nonNull =>
    have nonempty := List.length_pos_of_ne_nil (pathText_ne_nil nonNull)
    refine ⟨?_, pathStored_eq nonNull ▸ heap.storePath_storedAt write off nonNull⟩
    rw [pathName, if_neg nonNull, List.length_dropLast]
    omega

/-- `*name?name:"."` points to the name of the resource. -/
theorem Heap.nameOrDot_reads {heap : Heap} {limit off : Nat} {parent : List Frame}
    (reads : heap.Reads limit (pathName parent) (pathPtr off parent)) :
    heap.Reads limit (resourceName parent) (nameOrDot heap (pathPtr off parent)) := by
  cases ptr : pathPtr off parent with
  | dot =>
    rw [ptr] at reads
    have name : pathName parent = [dot] := reads
    simp [nameOrDot, Heap.Reads, resourceName, name]
  | names off =>
    rw [ptr] at reads
    have first := reads.2.first
    unfold nameOrDot resourceName
    rw [← first]
    by_cases shown : heap.names off = 0
    · simp [shown, Heap.Reads]
    · simpa [shown] using reads

/-! ## What one action changes -/

section Step

variable (pass off : Nat) (heap : Heap) (action : Action)

/-- An action writes no name outside what it measures. -/
theorem Action.apply_names_of_outside {o : Nat} (outside : o < off ∨ off + action.size ≤ o) :
    (action.apply pass off heap).names o = heap.names o := by
  cases action with
  | device root index parent config => exact heap.storePath_names_of_outside outside
  | interface target value =>
    have cut : (interfaceStored pass value).length ≤ (value ++ [0]).length :=
      List.length_take_le' ..
    rw [List.length_append, List.length_singleton] at cut
    simp only [Action.size] at outside
    rw [Action.apply, Heap.storeNames_names_of_outside _ (by omega), Heap.setOverride_names]
  | resource index parent flags start stop =>
    have put :
        ((heap.storePath pass off parent).putResource index off parent flags start stop).names =
          (heap.storePath pass off parent).names := by
      unfold Heap.putResource
      dsimp only
      split <;> rfl
    exact (congrFun put o).trans (heap.storePath_names_of_outside outside)
  | notice target line =>
    simp only [Action.apply, Heap.notice]
    split <;> rfl
  | _ => rfl

/-- The resources array changes only where the next resource of a device goes. -/
theorem Action.apply_resources_of_ne {o : Nat}
    (other : ∀ index base, action.adds index = true → (heap.devices index).resource = some base →
      o ≠ base + (heap.devices index).numResources) :
    (action.apply pass off heap).resources o = heap.resources o := by
  cases action with
  | device root index parent config => exact congrFun (heap.storePath_resources pass off parent) o
  | interface target value =>
    rw [Action.apply, Heap.storeNames_resources, Heap.setOverride_resources]
  | resource index parent flags start stop =>
    simp only [Action.apply, Heap.putResource, Heap.storePath_devices]
    cases allocated : (heap.devices index).resource with
    | none => exact congrFun (heap.storePath_resources pass off parent) o
    | some base =>
      have ne := other index base (beq_self_eq_true index) allocated
      simp [Heap.setDevice, Heap.storeResource, Function.update_of_ne ne]
  | notice target line =>
    simp only [Action.apply, Heap.notice]
    split <;> rfl
  | _ => rfl

end Step

/-! ## What the heap holds -/

/-- The bytes from the offset on are those stored, cut after 65536 bytes as `parse_interface` cuts
them, and after that what was there before. -/
def CutAt (fill names : Nat → Byte) (off : Nat) (bytes : Bytes) : Prop :=
  ∀ (i : Nat) (h : i < bytes.length),
    names (off + i) = if i < 65536 then bytes[i] else fill (off + i)

theorem CutAt.frame {fill names later : Nat → Byte} {off limit : Nat} {bytes : Bytes}
    (cut : CutAt fill names off bytes) (inside : off + bytes.length ≤ limit)
    (same : ∀ o < limit, later o = names o) : CutAt fill later off bytes :=
  fun i h => (same _ (by omega)).trans (cut i h)

/-- An entry of the resources array that describes a resource, its name before `limit`. -/
structure Heap.Shows (heap : Heap) (limit : Nat) (entry : Resource) (resource : ResourceSpec) :
    Prop where
  name : heap.Reads limit resource.name entry.name
  flags : entry.flags = resource.flags
  start : entry.start = resource.start
  stop : entry.stop = resource.stop

/-- A device as the heap has it in the middle of pass 2: what it has so far is stored before
`limit`, and it has the override that pass 1 left until it gets its own. -/
structure Heap.Holds (fill : Nat → Byte) (stale : Option Nat) (base : Nat) (heap : Heap)
    (limit : Nat) (pdev : PlatformDevice) (device : DeviceSpec) : Prop where
  name : ∃ ptr, pdev.name = some ptr ∧ heap.Reads limit device.name ptr
  unset : device.driverOverride = none → pdev.driverOverride = stale
  driverOverride : ∀ value, device.driverOverride = some value →
    ∃ off, pdev.driverOverride = some off ∧ off + value.length < limit ∧
      CutAt fill heap.names off (value ++ [0])
  numResources : pdev.numResources = device.resources.length
  resources : ∀ (i : Nat) (h : i < device.resources.length),
    heap.Shows limit (heap.resources (base + i)) device.resources[i]

theorem Heap.Holds.frame {fill : Nat → Byte} {stale : Option Nat} {base limit after : Nat}
    {heap later : Heap} {pdev : PlatformDevice} {device : DeviceSpec}
    (holds : heap.Holds fill stale base limit pdev device) (le : limit ≤ after)
    (names : ∀ o < limit, later.names o = heap.names o)
    (resources : ∀ i < device.resources.length,
      later.resources (base + i) = heap.resources (base + i)) :
    later.Holds fill stale base after pdev device where
  name := by
    obtain ⟨ptr, eq, reads⟩ := holds.name
    exact ⟨ptr, eq, reads.frame le names⟩
  unset := holds.unset
  driverOverride value set := by
    obtain ⟨off, eq, inside, cut⟩ := holds.driverOverride value set
    refine ⟨off, eq, by omega, cut.frame ?_ names⟩
    rw [List.length_append, List.length_singleton]
    omega
  numResources := holds.numResources
  resources i h := by
    have shows := holds.resources i h
    rw [resources i h]
    exact ⟨shows.name.frame le names, shows.flags, shows.start, shows.stop⟩

section Holds

variable {fill : Nat → Byte} {stale : Option Nat} {base limit off : Nat} {heap : Heap}
variable {pdev : PlatformDevice} {device : DeviceSpec}

theorem Heap.Holds.override (holds : heap.Holds fill stale base limit pdev device) {value : Bytes}
    (inside : off + value.length < limit) (cut : CutAt fill heap.names off (value ++ [0])) :
    heap.Holds fill stale base limit { pdev with driverOverride := some off }
      (device.override value) where
  name := holds.name
  unset none := by cases none
  driverOverride other set := by
    obtain rfl : value = other := Option.some.inj set
    exact ⟨off, rfl, inside, cut⟩
  numResources := holds.numResources
  resources := holds.resources

theorem Heap.Holds.addResource (holds : heap.Holds fill stale base limit pdev device)
    {resource : ResourceSpec}
    (shows : heap.Shows limit (heap.resources (base + pdev.numResources)) resource) :
    heap.Holds fill stale base limit { pdev with numResources := pdev.numResources + 1 }
      (device.addResource resource) where
  name := holds.name
  unset := holds.unset
  driverOverride := holds.driverOverride
  numResources := by simp [DeviceSpec.addResource, holds.numResources]
  resources i h := by
    simp only [DeviceSpec.addResource, List.length_append, List.length_singleton] at h
    rcases Nat.lt_or_ge i device.resources.length with old | new
    · simp only [DeviceSpec.addResource, List.getElem_append_left old]
      exact holds.resources i old
    · obtain rfl : i = device.resources.length := by omega
      simp only [DeviceSpec.addResource, List.getElem_concat_length]
      rwa [holds.numResources] at shows

end Holds

/-- What `parse_interface` stores over bytes that were not written before. -/
theorem Action.interface_cutAt {fill : Nat → Byte} {heap : Heap} {off : Nat}
    (fresh : ∀ o ≥ off, heap.names o = fill o) (target : Option Nat) (value : Bytes) :
    CutAt fill ((Action.interface target value).apply 2 off heap).names off (value ++ [0]) := by
  have stores : interfaceStored 2 value = (value ++ [0]).take 65536 := rfl
  intro i h
  rw [Action.apply, stores]
  rcases Nat.lt_or_ge i 65536 with copied | cut
  · have inside : i < ((value ++ [0]).take 65536).length := by
      rw [List.length_take]
      omega
    rw [if_pos copied, Heap.storeNames_names_add _ off inside, List.getElem_take]
  · rw [if_neg (by omega), Heap.storeNames_names_of_outside _ (.inr ?_), Heap.setOverride_names,
      fresh _ (by omega)]
    rw [List.length_take]
    omega

/-- The entry that `parse_range` and `parse_single` store. -/
theorem Action.resource_shows {heap : Heap} {off index base : Nat} (parent : List Frame)
    (flags : Nat) (start stop : UInt64)
    (allocated : (heap.devices index).resource = some base) :
    ((Action.resource index parent flags start stop).apply 2 off heap).Shows
      (off + (Action.resource index parent flags start stop).size)
      (((Action.resource index parent flags start stop).apply 2 off heap).resources
        (base + (heap.devices index).numResources))
      ⟨resourceName parent, flags, start, stop⟩ := by
  have reads := Heap.nameOrDot_reads
      (heap.storePath_reads (show haveNames ≤ 2 from le_rfl) off parent)
  have entry : ((Action.resource index parent flags start stop).apply 2 off heap).resources
      (base + (heap.devices index).numResources) =
        ⟨nameOrDot (heap.storePath 2 off parent) (pathPtr off parent), flags, start, stop⟩ := by
    simp [Action.apply, Heap.putResource, Heap.storePath_devices, allocated, Heap.setDevice,
      Heap.storeResource]
  rw [entry]
  refine ⟨reads.frame le_rfl fun o _ => ?_, rfl, rfl, rfl⟩
  simp [Action.apply, Heap.putResource, Heap.storePath_devices, allocated, Heap.setDevice,
      Heap.storeResource]

/-- The slices of the resources array: `size index` places for a device, from `base index` on. -/
structure Slices where
  base : Nat → Nat
  size : Nat → Nat
  apart : ∀ {index other i j : Nat}, i < size index → j < size other →
      base index + i = base other + j →
    index = other

/-- The heap in the middle of pass 2, with the names cursor at `off`: the devices so far are there,
the names from `off` on are as they were, and so are the overrides of the devices to come. -/
structure Built (fill : Nat → Byte) (stale : Nat → Option Nat) (slices : Slices) (heap : Heap)
    (off : Nat) (devices : List DeviceSpec) : Prop where
  fresh : ∀ o ≥ off, heap.names o = fill o
  unset : ∀ index ≥ devices.length, (heap.devices index).driverOverride = stale index
  holds : ∀ (index : Nat) (h : index < devices.length),
    heap.Holds fill (stale index) (slices.base index) off (heap.devices index) devices[index]

/-- The slices of the first `live` devices are allocated, and the first `devices` of them, which
have been set up, have room for as many resources as are to be added. -/
structure Room (slices : Slices) (live : Nat) (heap : Heap) (devices : Nat) (adds : Nat → Nat) :
    Prop where
  allocated : ∀ index < live, (heap.devices index).resource = some (slices.base index)
  room : ∀ index, countBefore devices heap index + adds index ≤ slices.size index

section Run

variable {fill : Nat → Byte} {stale : Nat → Option Nat} {slices : Slices} {heap : Heap}
variable {live off : Nat} {devices : List DeviceSpec} {action : Action}

namespace Built

/-- What the heap holds of a device survives an action that does not change the device. -/
theorem kept (built : Built fill stale slices heap off devices)
    (targets : action.Targets devices.length) (enough : devices.length ≤ live)
    (room : Room slices live heap devices.length fun index => if action.adds index then 1 else 0)
    (index : Nat) (h : index < devices.length) :
    (action.apply 2 off heap).Holds fill (stale index) (slices.base index) (off + action.size)
      (heap.devices index) devices[index] := by
  refine (built.holds index h).frame (Nat.le_add_right _ _)
    (fun o below => action.apply_names_of_outside 2 off heap (.inl below)) fun i inside => ?_
  refine action.apply_resources_of_ne 2 off heap fun other base adds eq same => ?_
  have otherLive := targets.lt_of_adds adds
  rw [room.allocated other (by omega)] at eq
  obtain rfl := Option.some.inj eq
  have space := room.room other
  rw [if_pos adds, countBefore, if_pos otherLive] at space
  have mine := room.room index
  rw [countBefore, if_pos h, (built.holds index h).numResources] at mine
  obtain rfl := slices.apart (by omega) (by omega) same
  rw [(built.holds index h).numResources] at same
  omega

/-- An action builds what it adds to the devices. -/
theorem step (built : Built fill stale slices heap off devices)
    (targets : action.Targets devices.length) (enough : devices.length ≤ live)
    (room : Room slices live heap devices.length fun index => if action.adds index then 1 else 0) :
    Built fill stale slices (action.apply 2 off heap) (off + action.size)
      (action.build devices) where
  fresh o above := by
    rw [action.apply_names_of_outside 2 off heap (.inr above)]
    exact built.fresh o (by omega)
  unset index above := by
    rw [action.length_build] at above
    rw [action.apply_devices, ← built.unset index (by omega)]
    cases action with
    | interface target value =>
      cases target with
      | none => rfl
      | some other =>
        have below : other < devices.length := targets
        rw [Action.assign, if_neg (by omega)]
    | device root other parent config =>
      simp only [Action.assign]
      split <;> rfl
    | resource other parent flags start stop =>
      simp only [Action.assign]
      split <;> rfl
    | finish other stop =>
      simp only [Action.assign]
      split <;> rfl
    | _ => rfl
  holds index h := by
    have kept := built.kept targets enough room
    rw [action.apply_devices]
    cases action with
    | device root other parent config =>
      obtain rfl : other = devices.length := targets
      simp only [Action.build, List.length_append, List.length_singleton] at h
      rcases Nat.lt_or_ge index devices.length with old | new
      · rw [Action.assign, if_neg (by omega)]
        simp only [Action.build, List.getElem_append_left old]
        exact kept index old
      · obtain rfl : index = devices.length := by omega
        simp only [Action.build, Action.assign, if_true, List.getElem_concat_length]
        exact {
          name := ⟨_, rfl, heap.storePath_reads (by decide) off parent⟩
          unset := fun _ => built.unset _ le_rfl
          driverOverride := fun _ set => by cases set
          numResources := rfl
          resources := fun _ h => by cases h }
    | interface target value =>
      cases target with
      | none => exact kept index h
      | some other =>
        simp only [Action.build, List.length_modify] at h
        have kept := kept index h
        simp only [Action.build, Action.assign, List.getElem_modify]
        by_cases same : other = index
        · subst same
          rw [if_pos rfl, if_pos rfl]
          exact kept.override (by simp only [Action.size]; omega)
            (Action.interface_cutAt built.fresh _ value)
        · rw [if_neg same, if_neg (Ne.symm same)]
          exact kept
    | resource other parent flags start stop =>
      simp only [Action.build, List.length_modify] at h
      have kept := kept index h
      simp only [Action.build, Action.assign, List.getElem_modify]
      by_cases same : other = index
      · subst same
        rw [if_pos rfl, if_pos rfl]
        exact kept.addResource
          (Action.resource_shows parent flags start stop (room.allocated other (by omega)))
      · rw [if_neg same, if_neg (Ne.symm same)]
        exact kept
    | finish other stop =>
      have kept := kept index h
      simp only [Action.assign]
      split
      · exact ⟨kept.name, kept.unset, kept.driverOverride, kept.numResources, kept.resources⟩
      · exact kept
    | _ => exact kept index h

/-- A script builds the devices that it describes. -/
theorem run {script : List Action} (built : Built fill stale slices heap off devices)
    (targets : Targets devices.length script)
    (enough : devices.length + (devicesIn script).length ≤ live)
    (room : Room slices live heap devices.length fun index => resourceCount index script) :
    Built fill stale slices (applyAll 2 script off heap) (off + scriptSize script)
      (builtFrom devices script) := by
  induction script generalizing heap off devices with
  | nil => exact built
  | cons action script ih =>
    rcases targets with ⟨here, later⟩
    rw [← List.singleton_append, devicesIn_append, List.length_append, ← Nat.add_assoc] at enough
    have roomHere : Room slices live heap devices.length
        fun index => if action.adds index then 1 else 0 :=
      ⟨room.allocated, fun index => by
        have := room.room index
        rw [resourceCount_cons] at this
        omega⟩
    have roomLater : Room slices live (action.apply 2 off heap) (action.build devices).length
        fun index => resourceCount index script := by
      refine ⟨fun index below => ?_, fun index => ?_⟩
      · rw [action.apply_resource, room.allocated index below]
      · have := room.room index
        rw [resourceCount_cons] at this
        rw [action.length_build, countBefore_apply here]
        omega
    have stepped := built.step here (by omega) roomHere
    rw [← action.length_build] at later enough
    rw [scriptSize_cons, ← Nat.add_assoc]
    exact ih stepped later enough roomLater

end Built

end Run

/-! ## Overrides that are not set -/

/-- The device at an index, if there is one, has no override of its own. -/
def NoOverride (devices : List DeviceSpec) (index : Nat) : Prop :=
  ∀ device, devices[index]? = some device → device.driverOverride = none

/-- An action that leaves a device without an override of its own does not set it, and found it
without. -/
theorem NoOverride.of_build {devices : List DeviceSpec} {action : Action} {index : Nat}
    (targets : action.Targets devices.length) (after : NoOverride (action.build devices) index)
    (pass off : Nat) (heap : Heap) :
    NoOverride devices index ∧
      ((action.apply pass off heap).devices index).driverOverride =
        (heap.devices index).driverOverride := by
  rw [action.apply_devices]
  cases action with
  | device root other parent config =>
    refine ⟨fun device found => after device ?_, ?_⟩
    · have below := (List.getElem?_eq_some_iff.mp found).1
      rw [Action.build, List.getElem?_append_left below, found]
    · simp only [Action.assign]
      split <;> rfl
  | interface target value =>
    cases target with
    | none => exact ⟨after, rfl⟩
    | some other =>
      have below : other < devices.length := targets
      have differ : other ≠ index := by
        intro same
        subst same
        have set := after _ (by
          rw [Action.build, List.getElem?_modify_eq, List.getElem?_eq_getElem below]
          rfl)
        cases set
      rw [Action.build] at after
      refine ⟨fun device found => after device ?_, ?_⟩
      · rw [List.getElem?_modify_ne _ _ differ, found]
      · rw [Action.assign, if_neg differ.symm]
  | resource other parent flags start stop =>
    refine ⟨fun device found => ?_, ?_⟩
    · by_cases same : other = index
      · subst same
        exact after (device.addResource ⟨resourceName parent, flags, start, stop⟩) (by
          rw [Action.build, List.getElem?_modify_eq, found]
          rfl)
      · exact after device (by rw [Action.build, List.getElem?_modify_ne _ _ same, found])
    · simp only [Action.assign]
      split <;> rfl
  | finish other stop =>
    refine ⟨after, ?_⟩
    simp only [Action.assign]
    split <;> rfl
  | _ => exact ⟨after, rfl⟩

/-- A pass leaves the override of a device alone if the script describes none. -/
theorem applyAll_noOverride {script : List Action} {devices : List DeviceSpec} {index : Nat}
    (targets : Targets devices.length script)
    (after : NoOverride (builtFrom devices script) index) (pass off : Nat) (heap : Heap) :
    NoOverride devices index ∧
      ((applyAll pass script off heap).devices index).driverOverride =
        (heap.devices index).driverOverride := by
  induction script generalizing devices off heap with
  | nil => exact ⟨after, rfl⟩
  | cons action script ih =>
    rcases targets with ⟨here, later⟩
    rw [← action.length_build] at later
    obtain ⟨between, rest⟩ := ih later after (off + action.size) (action.apply pass off heap)
    obtain ⟨before, first⟩ := between.of_build here pass off heap
    exact ⟨before, rest.trans first⟩

end RiscvLinux.Config
