import Mathlib.Algebra.Ring.Nat
import RiscvLinux.Config.Devices

/-!
# The passes of `config_find_devices` agree

Pass 1 measures with nothing allocated and pass 2 writes. Both execute one script,
so the devices they set up, the resources they count and the bytes by which they
advance agree, and what pass 2 writes stays inside what pass 1 measured.
-/

namespace RiscvLinux.Config

/-! ## Reading a trace -/

/-- The flags and indices of the devices set up in a trace. -/
def devicesSetUp (trace : List Access) : List (Nat × Nat) :=
  trace.filterMap fun
    | .device root index => some (root, index)
    | _ => none

/-- The places in the resources array written for a device. -/
def resourcesOf (device : Nat) (trace : List Access) : List Nat :=
  trace.filterMap fun
    | .resource owner index => if owner = device then some index else none
    | _ => none

/-- The places in the names buffer written. -/
def nameStores (trace : List Access) : List Nat :=
  trace.filterMap fun
    | .name off => some off
    | _ => none

/-- The action adds a resource to the device. -/
def Action.adds (device : Nat) : Action → Bool
  | .resource index _ _ _ _ => index == device
  | _ => false

/-- The number of resources that a script adds to a device. -/
def resourceCount (device : Nat) (script : List Action) : Nat := script.countP (Action.adds device)

@[simp] theorem devicesSetUp_append (first second : List Access) :
    devicesSetUp (first ++ second) = devicesSetUp first ++ devicesSetUp second :=
  List.filterMap_append

@[simp] theorem resourcesOf_append (device : Nat) (first second : List Access) :
    resourcesOf device (first ++ second) = resourcesOf device first ++ resourcesOf device second :=
  List.filterMap_append

@[simp] theorem nameStores_append (first second : List Access) :
    nameStores (first ++ second) = nameStores first ++ nameStores second :=
  List.filterMap_append

@[simp] theorem devicesSetUp_names (offs : List Nat) : devicesSetUp (offs.map .name) = [] := by
  induction offs with
  | nil => rfl
  | cons off offs ih => exact ih

@[simp] theorem resourcesOf_names (device : Nat) (offs : List Nat) :
    resourcesOf device (offs.map .name) = [] := by
  induction offs with
  | nil => rfl
  | cons off offs ih => exact ih

@[simp] theorem nameStores_names (offs : List Nat) : nameStores (offs.map .name) = offs := by
  induction offs with
  | nil => rfl
  | cons off offs ih => exact congrArg (off :: ·) ih

/-! ## What one action does -/

/-- The offsets that storing a path writes. -/
def pathStores (pass off : Nat) (parent : List Frame) : List Nat :=
  if haveNames ≤ pass ∧ parent ≠ [] then
    List.range' off (pathText parent).length ++ [off + (pathText parent).length - 1]
  else []

theorem Heap.storePath_trace (heap : Heap) (pass off : Nat) (parent : List Frame) :
    (heap.storePath pass off parent).trace =
      heap.trace ++ (pathStores pass off parent).map .name := by
  unfold Heap.storePath pathStores
  split
  · simp [Heap.storeName, Heap.storeNames_trace]
  · simp

theorem mem_pathStores {pass off o : Nat} {parent : List Frame}
    (mem : o ∈ pathStores pass off parent) : off ≤ o ∧ o < off + (pathText parent).length := by
  unfold pathStores at mem
  split at mem
  · next write =>
    have nonempty := List.length_pos_of_ne_nil (pathText_ne_nil write.2)
    rcases List.mem_append.mp mem with run | last
    · obtain ⟨i, small, rfl⟩ := List.mem_range'.mp run
      omega
    · rw [List.mem_singleton.mp last]
      omega
  · cases mem

/-- The offsets that an action writes in the names buffer. -/
def Action.stores (pass off : Nat) : Action → List Nat
  | .device _ _ parent _ => pathStores pass off parent
  | .interface _ value => List.range' off (interfaceStored pass value).length
  | .resource _ parent _ _ _ => pathStores pass off parent
  | _ => []

/-- An action writes only what it measures. -/
theorem Action.mem_stores {pass off o : Nat} {action : Action} (mem : o ∈ action.stores pass off) :
    off ≤ o ∧ o < off + action.size := by
  cases action with
  | device root index parent config => exact mem_pathStores mem
  | resource index parent flags start stop => exact mem_pathStores mem
  | interface target value =>
    obtain ⟨i, small, rfl⟩ := List.mem_range'.mp mem
    have cut : (interfaceStored pass value).length ≤ (value ++ [0]).length :=
      List.length_take_le' ..
    rw [List.length_append, List.length_singleton] at cut
    simp only [Action.size]
    omega
  | _ => cases mem

/-- An action writes nothing before the names are allocated. -/
theorem Action.stores_measure {pass off : Nat} (measure : pass < haveNames) (action : Action) :
    action.stores pass off = [] := by
  have notYet : ¬ haveNames ≤ pass := by omega
  cases action <;> simp [Action.stores, pathStores, interfaceStored, notYet]

/-- The resources that an action writes for a device. -/
def Action.writes (heap : Heap) (device : Nat) (action : Action) : List Nat :=
  match action.adds device, (heap.devices device).resource with
  | true, some base => [base + (heap.devices device).numResources]
  | _, _ => []

/-- The accesses of an action that are not to the names buffer. -/
def Action.claims (heap : Heap) : Action → List Access
  | .device root index _ _ => [.device root index]
  | .resource index parent flags start stop =>
    (Action.writes heap index (.resource index parent flags start stop)).map (.resource index)
  | _ => []

theorem Heap.setDevice_devices (heap : Heap) (index : Nat)
    (assign : PlatformDevice → PlatformDevice) (device : Nat) :
    (heap.setDevice index assign).devices device =
      if device = index then assign (heap.devices device) else heap.devices device := by
  unfold Heap.setDevice
  by_cases same : device = index
  · subst same
    simp
  · simp [same]

theorem Heap.putResource_devices (heap : Heap) (index off : Nat) (parent : List Frame)
    (flags : Nat) (start stop : UInt64) (device : Nat) :
    (heap.putResource index off parent flags start stop).devices device =
      if device = index then
        { heap.devices device with numResources := (heap.devices device).numResources + 1 }
      else heap.devices device := by
  unfold Heap.putResource
  dsimp only
  split <;> exact Heap.setDevice_devices ..

/-- What an action assigns to the fields of a device, with the names cursor at `off`. -/
def Action.assign (off device : Nat) (action : Action) (pdev : PlatformDevice) : PlatformDevice :=
  match action with
  | .device _ index parent config =>
    if device = index then
      { pdev with
        name := some (pathPtr off parent)
        id := -1
        numResources := 0
        configStart := some config
        configEnd := some config }
    else pdev
  | .interface (some index) _ =>
    if device = index then { pdev with driverOverride := some off } else pdev
  | .resource index _ _ _ _ =>
    if device = index then { pdev with numResources := pdev.numResources + 1 } else pdev
  | .finish index stop => if device = index then { pdev with configEnd := some stop } else pdev
  | _ => pdev

section Step

variable (pass off : Nat) (heap : Heap) (action : Action)

theorem Action.apply_trace :
    (action.apply pass off heap).trace =
      heap.trace ++ ((action.stores pass off).map .name ++ action.claims heap) := by
  cases action with
  | device root index parent config =>
    simp [Action.apply, Action.stores, Action.claims, Heap.setDevice, Heap.storePath_trace]
  | interface target value =>
    simp [Action.apply, Action.stores, Action.claims, Heap.storeNames_trace]
  | resource index parent flags start stop =>
    simp only [Action.apply, Heap.putResource, Action.stores, Action.claims, Action.writes,
      Action.adds, Heap.storePath_devices, beq_self_eq_true]
    cases (heap.devices index).resource <;>
      simp [Heap.setDevice, Heap.storeResource, Heap.storePath_trace]
  | notice target line =>
    simp only [Action.apply, Heap.notice, Action.stores, Action.claims]
    split <;> simp
  | _ => simp [Action.apply, Action.stores, Action.claims, Heap.setRoot, Heap.setDevice]

theorem Action.apply_devicesSetUp :
    devicesSetUp (action.apply pass off heap).trace =
      devicesSetUp heap.trace ++ devicesIn [action] := by
  rw [Action.apply_trace, devicesSetUp_append, devicesSetUp_append, devicesSetUp_names]
  cases action with
  | resource index parent flags start stop =>
    simp only [Action.claims, Action.writes, Action.adds, beq_self_eq_true]
    cases (heap.devices index).resource <;> rfl
  | _ => rfl

theorem Action.apply_nameStores :
    nameStores (action.apply pass off heap).trace =
      nameStores heap.trace ++ action.stores pass off := by
  have none : nameStores (action.claims heap) = [] := by
    cases action with
    | resource index parent flags start stop =>
      simp only [Action.claims, Action.writes, Action.adds, beq_self_eq_true]
      cases (heap.devices index).resource <;> rfl
    | _ => rfl
  rw [Action.apply_trace, nameStores_append, nameStores_append, nameStores_names, none,
    List.append_nil]

theorem Action.apply_resourcesOf (device : Nat) :
    resourcesOf device (action.apply pass off heap).trace =
      resourcesOf device heap.trace ++ action.writes heap device := by
  rw [Action.apply_trace, resourcesOf_append, resourcesOf_append, resourcesOf_names,
    List.nil_append]
  congr 1
  cases action with
  | resource index parent flags start stop =>
    by_cases same : index = device
    · subst same
      simp only [Action.claims, Action.writes, Action.adds, beq_self_eq_true]
      cases (heap.devices index).resource <;> simp [resourcesOf]
    · simp only [Action.claims, Action.writes, Action.adds, beq_self_eq_true,
        beq_eq_false_iff_ne.mpr same]
      cases (heap.devices index).resource <;> simp [resourcesOf, same]
  | _ => rfl

/-- Only the device that an action is about changes. -/
theorem Action.apply_devices (device : Nat) :
    (action.apply pass off heap).devices device =
      action.assign off device (heap.devices device) := by
  cases action with
  | device root index parent config =>
    simp only [Action.apply, Action.assign, Heap.setDevice_devices, Heap.storePath_devices]
  | interface target value =>
    simp only [Action.apply, Action.assign, Heap.storeNames_devices, Heap.setOverride]
    cases target with
    | none => rfl
    | some index => exact Heap.setDevice_devices ..
  | resource index parent flags start stop =>
    simp only [Action.apply, Action.assign, Heap.putResource_devices, Heap.storePath_devices]
  | notice target line =>
    simp only [Action.apply, Heap.notice]
    split <;> rfl
  | finish index stop => simp only [Action.apply, Action.assign, Heap.setDevice_devices]
  | _ => rfl

theorem Action.apply_resource (device : Nat) :
    ((action.apply pass off heap).devices device).resource = (heap.devices device).resource := by
  rw [Action.apply_devices]
  unfold Action.assign
  split <;> (try split) <;> rfl

theorem Action.apply_numResources (device : Nat) :
    ((action.apply pass off heap).devices device).numResources =
      match action with
      | .device _ index _ _ => if device = index then 0 else (heap.devices device).numResources
      | _ => (heap.devices device).numResources + if action.adds device then 1 else 0 := by
  rw [Action.apply_devices]
  cases action with
  | device root index parent config =>
    simp only [Action.assign]
    split <;> rfl
  | interface target value =>
    cases target with
    | none => rfl
    | some index =>
      simp only [Action.assign, Action.adds]
      split <;> rfl
  | resource index parent flags start stop =>
    simp only [Action.assign, Action.adds, beq_iff_eq, eq_comm (a := index)]
    split <;> rfl
  | finish index stop =>
    simp only [Action.assign, Action.adds]
    split <;> rfl
  | _ => rfl

end Step

/-! ## What a script does -/

/-- What the device has counted when the script starts: nothing, if the script is
still to set it up. -/
def countBefore (devices : Nat) (heap : Heap) (device : Nat) : Nat :=
  if device < devices then (heap.devices device).numResources else 0

section Run

variable {pass off devices : Nat} {heap : Heap} {script : List Action}

theorem applyAll_devicesSetUp :
    devicesSetUp (applyAll pass script off heap).trace =
      devicesSetUp heap.trace ++ devicesIn script := by
  induction script generalizing off heap with
  | nil => exact (List.append_nil _).symm
  | cons action script ih =>
    rw [applyAll, ih, Action.apply_devicesSetUp, List.append_assoc, ← devicesIn_append]
    rfl

theorem applyAll_nameStores_measure (measure : pass < haveNames) :
    nameStores (applyAll pass script off heap).trace = nameStores heap.trace := by
  induction script generalizing off heap with
  | nil => rfl
  | cons action script ih =>
    rw [applyAll, ih, Action.apply_nameStores, Action.stores_measure measure, List.append_nil]

/-- A script writes only the names that it measures. -/
theorem applyAll_mem_nameStores {o : Nat}
    (mem : o ∈ nameStores (applyAll pass script off heap).trace) :
    o ∈ nameStores heap.trace ∨ (off ≤ o ∧ o < off + scriptSize script) := by
  induction script generalizing off heap with
  | nil => exact Or.inl mem
  | cons action script ih =>
    rw [scriptSize_cons]
    rcases ih mem with before | ⟨low, high⟩
    · rw [Action.apply_nameStores] at before
      rcases List.mem_append.mp before with before | now
      · exact Or.inl before
      · have within := action.mem_stores now
        exact Or.inr (by omega)
    · exact Or.inr (by omega)

theorem applyAll_resource (device : Nat) :
    ((applyAll pass script off heap).devices device).resource = (heap.devices device).resource := by
  induction script generalizing off heap with
  | nil => rfl
  | cons action script ih => rw [applyAll, ih, Action.apply_resource]

/-- An action that adds to a device has it as its target. -/
theorem Action.Targets.lt_of_adds {action : Action} (targets : action.Targets devices)
    {device : Nat} (adds : action.adds device = true) : device < devices := by
  cases action with
  | resource index parent flags start stop =>
    rw [← beq_iff_eq.mp adds]
    exact targets
  | _ => cases adds

/-- The count of a device after one action, which may be the one that sets it up. -/
theorem countBefore_apply {action : Action} (targets : action.Targets devices) (device : Nat) :
    countBefore (devices + (devicesIn [action]).length) (action.apply pass off heap) device =
      countBefore devices heap device + if action.adds device then 1 else 0 := by
  by_cases live : device < devices + (devicesIn [action]).length
  · rw [countBefore, if_pos live, Action.apply_numResources, countBefore]
    cases action with
    | device root index parent config =>
      have same : index = devices := targets
      subst same
      have one : (devicesIn [Action.device root index parent config]).length = 1 := rfl
      simp only [Action.adds]
      by_cases eq : device = index
      · simp [eq]
      · rw [if_neg eq, if_pos (by omega)]
        rfl
    | _ => rw [if_pos (show device < devices from live)]
  · have notYet : ¬ device < devices := by omega
    have adds : ¬ action.adds device = true := fun adds => notYet (targets.lt_of_adds adds)
    rw [countBefore, if_neg live, countBefore, if_neg notYet, if_neg adds]

theorem resourceCount_cons (device : Nat) (action : Action) :
    resourceCount device (action :: script) =
      (if action.adds device then 1 else 0) + resourceCount device script := by
  rw [resourceCount, List.countP_cons, Nat.add_comm]
  rfl

/-- A device counts the resources that a script adds to it. -/
theorem applyAll_countBefore (targets : Targets devices script) (pass off : Nat) (heap : Heap)
    (device : Nat) :
    countBefore (devices + (devicesIn script).length) (applyAll pass script off heap) device =
      countBefore devices heap device + resourceCount device script := by
  induction script generalizing devices off heap with
  | nil => rfl
  | cons action script ih =>
    have length : devices + (devicesIn (action :: script)).length =
        devices + (devicesIn [action]).length + (devicesIn script).length := by
      rw [← List.singleton_append, devicesIn_append, List.length_append, Nat.add_assoc]
    rw [length, applyAll, ih targets.2, countBefore_apply targets.1, resourceCount_cons,
      Nat.add_assoc]

/-- A device that has no resources allocated writes none. -/
theorem applyAll_resourcesOf_none {device : Nat}
    (unallocated : (heap.devices device).resource = none) :
    resourcesOf device (applyAll pass script off heap).trace = resourcesOf device heap.trace := by
  induction script generalizing off heap with
  | nil => rfl
  | cons action script ih =>
    have after : ((action.apply pass off heap).devices device).resource = none := by
      rw [Action.apply_resource, unallocated]
    rw [applyAll, ih after, Action.apply_resourcesOf, Action.writes, unallocated]
    cases action.adds device <;> exact List.append_nil _

/-- A device writes the resources it counts, one after the other from its base. -/
theorem applyAll_resourcesOf (targets : Targets devices script) {device base : Nat}
    (allocated : (heap.devices device).resource = some base) :
    resourcesOf device (applyAll pass script off heap).trace =
      resourcesOf device heap.trace ++
        List.range' (base + countBefore devices heap device) (resourceCount device script) := by
  induction script generalizing devices off heap with
  | nil => exact (List.append_nil _).symm
  | cons action script ih =>
    have after : ((action.apply pass off heap).devices device).resource = some base := by
      rw [Action.apply_resource, allocated]
    rw [applyAll, ih targets.2 after, Action.apply_resourcesOf, countBefore_apply targets.1,
      resourceCount_cons, Action.writes, allocated, List.append_assoc]
    cases adds : action.adds device with
    | false => simp
    | true =>
      have live := targets.1.lt_of_adds adds
      simp [countBefore, live, Nat.one_add, List.range'_succ, Nat.add_assoc]

end Run

/-! ## Slices -/

/-- The resources counted for the first `count` devices. -/
def slicesBelow (devices : Nat → PlatformDevice) (count : Nat) : Nat :=
  ((List.range count).map fun index => (devices index).numResources).sum

theorem slicesBelow_succ (devices : Nat → PlatformDevice) (count : Nat) :
    slicesBelow devices (count + 1) = slicesBelow devices count + (devices count).numResources := by
  simp [slicesBelow, List.range_succ]

/-- The first slices end before any of the later ones begin. -/
theorem slicesBelow_le (devices : Nat → PlatformDevice) {first last : Nat} (le : first ≤ last) :
    slicesBelow devices first ≤ slicesBelow devices last := by
  induction le with
  | refl => exact le_rfl
  | step _ ih =>
    rw [slicesBelow_succ]
    exact Nat.le_add_right_of_le ih

/-- The devices get consecutive slices of the length they counted, and nothing else
of them changes. -/
theorem assignSlices_eq (devices : Nat → PlatformDevice) (count : Nat) :
    assignSlices devices count =
      (fun index => if index < count
        then { devices index with resource := some (slicesBelow devices index) }
        else devices index, slicesBelow devices count) := by
  induction count with
  | zero => simp [assignSlices, slicesBelow]
  | succ count ih =>
    simp only [assignSlices, ih, lt_irrefl, if_false, slicesBelow_succ]
    congr 1
    funext index
    rcases lt_trichotomy index count with below | same | above
    · rw [Function.update_of_ne (by omega), if_pos below, if_pos (by omega)]
    · subst same
      rw [Function.update_self, if_pos (by omega)]
    · rw [Function.update_of_ne (by omega), if_neg (by omega), if_neg (by omega)]

/-! ## Agreement -/

/-- The flags set by pass 0, in order. -/
def markedRoots (found : Found) : List Nat :=
  (List.range found.pass0.1.roots).filter found.pass0.2.roots

/-- What the passes have to agree on. -/
structure PassesAgree (found : Found) : Prop where
  /-- as many devices are allocated as flags are set -/
  numDevices : (markedRoots found).length = found.numDevices
  /-- pass 1 sets up a device for each flag that pass 0 set, in order -/
  measured : devicesSetUp found.pass1.2.trace = (markedRoots found).zipIdx
  /-- and so does pass 2 -/
  written : devicesSetUp found.pass2.2.trace = (markedRoots found).zipIdx
  /-- pass 1 stores no name and no resource -/
  storesNothing : nameStores found.pass1.2.trace = [] ∧
    ∀ device, resourcesOf device found.pass1.2.trace = []
  /-- the slices are consecutive, and fill the allocation -/
  slices : (∀ device < found.numDevices, (found.pass2.2.devices device).resource =
      some (slicesBelow found.pass1.2.devices device)) ∧
    slicesBelow found.pass1.2.devices found.numDevices = found.numResources
  /-- a device fills its slice, from the first place to the last -/
  resources : ∀ device < found.numDevices,
    resourcesOf device found.pass2.2.trace =
        List.range' (slicesBelow found.pass1.2.devices device)
          (found.pass1.2.devices device).numResources ∧
      (found.pass2.2.devices device).numResources = (found.pass1.2.devices device).numResources
  /-- nothing else is written to the resources -/
  owned : ∀ device ≥ found.numDevices, resourcesOf device found.pass2.2.trace = []
  /-- pass 2 advances over the names by what pass 1 measured -/
  advance : found.pass2.1.names = found.sizeNames
  /-- every byte is written inside what pass 1 measured -/
  names : ∀ off ∈ nameStores found.pass2.2.trace, off < found.sizeNames

/-- A script faults at a flag or at a parent. -/
theorem scriptFault_eq {rootsSize : Nat} {script : List Action} {fault : Fault}
    (faults : scriptFault rootsSize script = some fault) :
    fault = .roots ∨ fault = .nullParent := by
  obtain ⟨action, -, eq⟩ := List.exists_of_findSome?_eq_some faults
  cases action with
  | take root =>
    simp only [Action.fault] at eq
    split at eq
    · exact Or.inl (Option.some.inj eq).symm
    · cases eq
  | nullParent => exact Or.inr (Option.some.inj eq).symm
  | _ => cases eq

/-- A pass is stopped by a fault of its script, or applies its script. -/
theorem runPass_cases (marked : Nat → Bool) (state : ParserState) (heap : Heap)
    {entries : Entries} (read : entries.ReadsAt beforeNul (skipWhitespace state.config))
    (ahead : ∀ k, state.roots ≤ k → heap.roots k = marked k)
    (detect : haveDevices ≤ state.pass ∨ ∀ k, marked k = false) :
    (∃ fault, runPass state heap = .error fault ∧
        scriptFault heap.rootsSize (blockScript marked state [] 0 none entries).1 = some fault) ∨
      (scriptFault heap.rootsSize (blockScript marked state [] 0 none entries).1 = none ∧
        runPass state heap = .ok (resume (blockScript marked state [] 0 none entries).2
          (state.names + scriptSize (blockScript marked state [] 0 none entries).1,
            applyAll state.pass (blockScript marked state [] 0 none entries).1 state.names
              heap))) := by
  rw [runPass_eq read ahead detect, exec_eq]
  cases faults : scriptFault heap.rootsSize (blockScript marked state [] 0 none entries).1 with
  | some fault => exact Or.inl ⟨fault, rfl, rfl⟩
  | none => exact Or.inr ⟨rfl, rfl⟩

/-- A script that marks only flags that are set leaves the flags as they are. -/
theorem roots_of_repeated {script : List Action} {heap : Heap} {pass off : Nat}
    (repeated : ∀ k, .mark k ∈ script → heap.roots k = true) :
    (applyAll pass script off heap).roots = heap.roots := by
  funext k
  rw [Bool.eq_iff_iff, applyAll_roots]
  exact ⟨fun set => set.elim id (repeated k), Or.inl⟩

/-- The flags that a pass marks where it finds none set. -/
def Marks (entries : Entries) (state : ParserState) (k : Nat) : Prop :=
  .mark k ∈ (blockScript (fun _ => false) state [] 0 none entries).1

/-- The script of a pass that finds the flags `marked`. -/
abbrev passScript (entries : Entries) (marked : Nat → Bool) (state : ParserState) : List Action :=
  (blockScript marked state [] 0 none entries).1

/-- A run of `config_find_devices` over a text: pass 0 sets the flags, and the two passes after it
execute one script from `start`, the first on the heap `measure` with nothing allocated, the second
on the heap `write` with what the first has measured. -/
structure Executes (entries : Entries) (names : Nat → Byte) (found : Found) (start : ParserState)
    (measure write : Heap) : Prop where
  marks : ∀ k, found.pass0.2.roots k = true ↔ Marks entries start k
  roots : start.roots = 0
  devices : start.devices = 0
  sets : SetsUp found.pass0.2.roots start (passScript entries found.pass0.2.roots start)
    found.pass1.1
  sameRoots : found.pass1.1.roots = found.pass0.1.roots
  count : found.numDevices = countRoots found.pass0.2 found.pass0.1.roots
  size : found.sizeNames = scriptSize (passScript entries found.pass0.2.roots start)
  slices : (write.devices, found.numResources) =
    assignSlices found.pass1.2.devices found.numDevices
  run1 : found.pass1.2 = applyAll 1 (passScript entries found.pass0.2.roots start) 0 measure
  fresh1 : measure.trace = [] ∧ measure.devices = fun _ => {}
  run2 : found.pass2.2 = applyAll 2 (passScript entries found.pass0.2.roots start) 0 write
  names2 : found.pass2.1.names = scriptSize (passScript entries found.pass0.2.roots start)
  fresh2 : write.trace = [] ∧ write.names = names

namespace Executes

variable {entries : Entries} {names : Nat → Byte} {found : Found} {start : ParserState}
variable {measure write : Heap} (runs : Executes entries names found start measure write)

include runs

theorem length_markedRoots : (markedRoots found).length = found.numDevices := by
  rw [runs.count, markedRoots, countRoots, List.countP_eq_length_filter]

theorem devicesIn_eq :
    devicesIn (passScript entries found.pass0.2.roots start) = (markedRoots found).zipIdx := by
  rw [runs.sets.devices, runs.roots, runs.devices, runs.sameRoots, rootsFrom, Nat.sub_zero,
    ← List.range_eq_range', markedRoots]

theorem length_devicesIn :
    (devicesIn (passScript entries found.pass0.2.roots start)).length = found.numDevices := by
  rw [runs.devicesIn_eq, List.length_zipIdx, runs.length_markedRoots]

theorem targets : Targets 0 (passScript entries found.pass0.2.roots start) := by
  have targets := runs.sets.targets
  rwa [runs.devices] at targets

/-- Both passes count the resources of the script. -/
theorem numResources {device : Nat} (below : device < found.numDevices) (pass : Nat) (heap : Heap) :
    ((applyAll pass (passScript entries found.pass0.2.roots start) 0 heap).devices
      device).numResources =
      resourceCount device (passScript entries found.pass0.2.roots start) := by
  have live := runs.length_devicesIn
  have count := applyAll_countBefore runs.targets pass 0 heap device
  rw [countBefore, if_pos (by omega), countBefore, if_neg (by omega), Nat.zero_add] at count
  exact count

theorem unallocated (device : Nat) : (measure.devices device).resource = none := by
  rw [runs.fresh1.2]

theorem write_devices (device : Nat) :
    write.devices device =
      if device < found.numDevices then
        { found.pass1.2.devices device with
          resource := some (slicesBelow found.pass1.2.devices device) }
      else found.pass1.2.devices device := by
  have slices := runs.slices
  rw [assignSlices_eq, Prod.mk.injEq] at slices
  rw [slices.1]

theorem allocated {device : Nat} (below : device < found.numDevices) :
    (write.devices device).resource = some (slicesBelow found.pass1.2.devices device) := by
  rw [runs.write_devices, if_pos below]

/-- Two passes that execute one script agree. -/
theorem passesAgree : PassesAgree found := by
  have slices := runs.slices
  rw [assignSlices_eq, Prod.mk.injEq] at slices
  refine ⟨runs.length_markedRoots, ?_, ?_, ⟨?_, fun device => ?_⟩,
    ⟨fun device below => ?_, slices.2.symm⟩, fun device below => ⟨?_, ?_⟩, fun device above => ?_,
    runs.names2.trans runs.size.symm, fun off mem => ?_⟩
  · rw [runs.run1, applyAll_devicesSetUp, runs.fresh1.1, runs.devicesIn_eq]
    rfl
  · rw [runs.run2, applyAll_devicesSetUp, runs.fresh2.1, runs.devicesIn_eq]
    rfl
  · rw [runs.run1, applyAll_nameStores_measure (by decide), runs.fresh1.1]
    rfl
  · rw [runs.run1, applyAll_resourcesOf_none (runs.unallocated device), runs.fresh1.1]
    rfl
  · rw [runs.run2, applyAll_resource, runs.allocated below]
  · rw [runs.run2, applyAll_resourcesOf runs.targets (runs.allocated below), runs.fresh2.1,
      runs.run1, runs.numResources below, countBefore, if_neg (by omega)]
    rfl
  · rw [runs.run2, runs.run1, runs.numResources below, runs.numResources below]
  · have none2 : (write.devices device).resource = none := by
      rw [runs.write_devices, if_neg (by omega), runs.run1, applyAll_resource, runs.unallocated]
    rw [runs.run2, applyAll_resourcesOf_none none2, runs.fresh2.1]
    rfl
  · rw [runs.run2] at mem
    rcases applyAll_mem_nameStores mem with before | within
    · rw [runs.fresh2.1] at before
      cases before
    · have size := runs.size
      omega

end Executes

/-- A run of `config_find_devices` is stopped by a fault in the script of a pass, which is pass 0
and has found no flag set, or has found the flags set that pass 0 marks (`later`), or it executes
its passes to the end. -/
theorem configFindDevices_cases (uninit : ParserState) (resources : Nat → Resource)
    (names : Nat → Byte) {config : Cursor} {entries : Entries}
    (read : entries.ReadsAt beforeNul (skipWhitespace config)) :
    match configFindDevices uninit resources names config with
    | .error fault => ∃ (later : Bool) (marked : _) (state : _), state.roots = 0 ∧
        (∀ k, marked k = true ↔ later = true ∧ Marks entries state k) ∧
        scriptFault (strlen config) (passScript entries marked state) = some fault
    | .ok found => ∃ start measure write, Executes entries names found start measure write ∧
        scriptFault (strlen config) (passScript entries found.pass0.2.roots start) = none := by
  unfold configFindDevices
  dsimp only
  generalize heapEq : Heap.mk (strlen config) (fun _ => false) (fun _ => {}) resources names [] [] =
    heap
  have unset : ∀ k, heap.roots k = false := fun k => by rw [← heapEq]
  have size0 : heap.rootsSize = strlen config := by rw [← heapEq]
  -- pass 0 marks the flags it meets, none of which is set
  rcases runPass_cases (fun _ => false) { uninit with pass := 0, roots := 0, config := config }
    heap read (fun k _ => unset k) (Or.inr fun _ => rfl) with ⟨fault, run, faults⟩ | ⟨-, run⟩
  · rw [run]
    rw [size0] at faults
    exact ⟨false, fun _ => false, { uninit with pass := 0, roots := 0, config := config }, rfl,
      fun k => by simp, faults⟩
  rw [run]
  -- whatever the flags, the passes after it mark and take the same
  have repeated : ∀ (marked : Nat → Bool) (state : ParserState), state.roots = 0 →
      (∀ k, (applyAll 0 (blockScript (fun _ => false)
          { uninit with pass := 0, roots := 0, config := config } [] 0 none entries).1 uninit.names
          heap).roots k = true ↔ .mark k ∈ (blockScript marked state [] 0 none entries).1) ∧
      (blockScript marked state [] 0 none entries).2.roots = (blockScript (fun _ => false)
        { uninit with pass := 0, roots := 0, config := config } [] 0 none entries).2.roots := by
    intro marked state roots
    constructor
    · intro k
      rw [applyAll_roots, unset, blockScript_mark_mem_iff, blockScript_mark_mem_iff, roots]
      simp
    · rw [blockScript_roots, blockScript_roots, roots]
  have size1 := (applyAll_rootsSize 0 (blockScript (fun _ => false)
    { uninit with pass := 0, roots := 0, config := config } [] 0 none entries).1 uninit.names
    heap).trans size0
  generalize applyAll 0 _ uninit.names heap = heap0 at repeated size1 ⊢
  generalize (blockScript (fun _ => false) _ [] 0 none entries).2 = final0 at repeated ⊢
  simp only [resume, Except.bind, bind]
  -- pass 1 finds the flags that pass 0 left, and leaves them
  obtain ⟨start1, start1Eq⟩ : ∃ state : ParserState, state =
    { final0 with pass := 1, roots := 0, config := config, devices := 0, names := 0 } := ⟨_, rfl⟩
  obtain ⟨heap1, heap1Eq⟩ : ∃ heap : Heap, heap =
    { heap0 with devices := fun _ => {}, trace := [] } := ⟨_, rfl⟩
  rw [← start1Eq, ← heap1Eq]
  have roots1 : start1.roots = 0 := by rw [start1Eq]
  have flags1 : heap1.roots = heap0.roots := by rw [heap1Eq]
  have marks : ∀ state : ParserState, state.roots = 0 → ∀ k,
      heap0.roots k = true ↔ Marks entries state k := fun state roots => (repeated _ state roots).1
  have repeated1 := repeated heap0.roots start1 roots1
  have read1 : entries.ReadsAt beforeNul (skipWhitespace start1.config) := by rwa [start1Eq]
  rcases runPass_cases heap0.roots start1 heap1 read1 (fun k _ => by rw [flags1])
    (Or.inl (by rw [start1Eq])) with ⟨fault, run, faults⟩ | ⟨faultless, run⟩
  · rw [run]
    rw [show heap1.rootsSize = strlen config by rw [heap1Eq, ← size1]] at faults
    exact ⟨true, _, _, roots1, fun k => by rw [marks start1 roots1 k, eq_self, true_and], faults⟩
  rw [show heap1.rootsSize = strlen config by rw [heap1Eq, ← size1]] at faultless
  rw [run]
  have sets := blockScript_setsUp heap0.roots start1 entries
  have pass1 :
      start1.pass = 1 ∧ start1.names = 0 ∧ start1.devices = 0 ∧ start1.config = config := by
    rw [start1Eq]
    exact ⟨rfl, rfl, rfl, rfl⟩
  rw [pass1.1, pass1.2.1, Nat.zero_add]
  have flags2 : (applyAll 1 (blockScript heap0.roots start1 [] 0 none entries).1 0 heap1).roots =
      heap0.roots := by
    rw [roots_of_repeated (fun k mem => by rw [flags1]; exact (repeated1.1 k).mpr mem), flags1]
  have size2 := applyAll_rootsSize 1 (blockScript heap0.roots start1 [] 0 none entries).1 0 heap1
  -- pass 2 executes the same script
  generalize final1Eq : (blockScript heap0.roots start1 [] 0 none entries).2 = final1 at *
  obtain ⟨start2, start2Eq⟩ : ∃ state : ParserState, state =
    { final1 with pass := 2, roots := 0, config := config, devices := 0, names := 0 } := ⟨_, rfl⟩
  have roots2 : start2.roots = 0 := by rw [start2Eq]
  have script2 : (blockScript heap0.roots start2 [] 0 none entries).1 =
      (blockScript heap0.roots start1 [] 0 none entries).1 := by
    refine blockScript_congr heap0.roots none entries ?_ ?_ ?_
    · rw [roots2, roots1]
    · rw [start2Eq, pass1.2.2.1]
    · rw [start2Eq, pass1.2.2.2]
  dsimp only [resume]
  rw [← start2Eq]
  generalize heap2Eq : Heap.mk _ _ _ resources names [] _ = heap2
  have read2 : entries.ReadsAt beforeNul (skipWhitespace start2.config) := by rwa [start2Eq]
  rcases runPass_cases heap0.roots start2 heap2 read2 (fun k _ => by rw [← heap2Eq, flags2])
    (Or.inl (by rw [start2Eq]; exact Nat.le_succ 1)) with ⟨fault, run, faults⟩ | ⟨-, run⟩
  · rw [run]
    rw [show heap2.rootsSize = strlen config by rw [← heap2Eq, size2, heap1Eq, ← size1]] at faults
    exact ⟨true, _, _, roots2, fun k => by rw [marks start2 roots2 k, eq_self, true_and], faults⟩
  rw [run, script2, start2Eq, Nat.zero_add]
  refine ⟨start1, heap1, heap2, ⟨marks start1 roots1, roots1, pass1.2.2.1, ?_, repeated1.2, rfl,
    rfl, ?_, rfl, ⟨?_, ?_⟩, rfl, rfl, ?_, ?_⟩, faultless⟩
  · exact ⟨sets.roots, sets.devices, sets.next, sets.targets⟩
  · rw [← heap2Eq]
  · rw [heap1Eq]
  · rw [heap1Eq]
  · rw [← heap2Eq]
  · rw [← heap2Eq]

/-- Whatever the text, the passes agree, unless the kernel is stopped at a flag
outside the allocation or at the parent of a `NULL` parent. -/
theorem configFindDevices_passesAgree (uninit : ParserState) (resources : Nat → Resource)
    (names : Nat → Byte) (config : Cursor) :
    match configFindDevices uninit resources names config with
    | .error fault => fault = .roots ∨ fault = .nullParent
    | .ok found => PassesAgree found := by
  obtain ⟨entries, read⟩ := (exists_outline beforeNul_nil (skipWhitespace config)).2
  have cases := configFindDevices_cases uninit resources names read
  split at cases
  · rcases cases with ⟨-, marked, state, -, -, faults⟩
    exact scriptFault_eq faults
  · rcases cases with ⟨start, measure, write, runs, -⟩
    exact runs.passesAgree

end RiscvLinux.Config
