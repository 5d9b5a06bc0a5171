import Mathlib.Algebra.Ring.Nat
import RiscvLinux.Config.Outline
import RiscvLinux.Config.Effects

/-!
# The script of a pass

A pass of `parse_config_string` decides what to do from the text and from the
root flags it finds, never from the names, resources or devices it writes. The
list of what it does, the script, is therefore the same in pass 1 and pass 2, and
a pass is the execution of its script by `exec`, from an offset into the names
buffer.
-/

namespace RiscvLinux.Config

/-! ## Actions -/

/-- One thing that a pass does to the heap. -/
inductive Action where
  /-- read the flag of a block -/
  | take (root : Nat)
  /-- set up the device of a root block -/
  | device (root device : Nat) (parent : List Frame) (config : Cursor)
  /-- mark the block as a root -/
  | mark (root : Nat)
  /-- `parse_interface` on a value -/
  | interface (target : Option Nat) (value : Bytes)
  /-- name, store and count a resource -/
  | resource (device : Nat) (parent : List Frame) (flags : Nat) (start stop : UInt64)
  /-- report a text that is not a number -/
  | notice (target : Option Nat) (line : Notice)
  /-- read the parent of a `NULL` parent -/
  | nullParent
  /-- move the end of a device -/
  | finish (device : Nat) (stop : Cursor)

namespace Action

/-- How far the action advances the names cursor, in every pass. -/
def size : Action → Nat
  | .device _ _ parent _ => (pathText parent).length
  | .interface _ value => value.length + 1
  | .resource _ parent _ _ _ => (pathText parent).length
  | _ => 0

/-- What the action does to the heap, with the names cursor at `off`. -/
def apply (pass off : Nat) (heap : Heap) : Action → Heap
  | .take _ => heap
  | .device root index parent config =>
    let heap := (heap.storePath pass off parent).setDevice index fun pdev =>
      { pdev with
        name := some (pathPtr off parent)
        id := -1
        numResources := 0
        configStart := some config
        configEnd := some config }
    { heap with trace := heap.trace ++ [.device root index] }
  | .mark root => heap.setRoot root
  | .interface target value =>
    (heap.setOverride target off).storeNames off (interfaceStored pass value)
  | .resource index parent flags start stop =>
    (heap.storePath pass off parent).putResource index off parent flags start stop
  | .notice target line => heap.notice (heap.lastPass target) line
  | .nullParent => heap
  | .finish index stop => heap.setDevice index fun pdev => { pdev with configEnd := some stop }

/-- Whether the action stops the kernel. -/
def fault (rootsSize : Nat) : Action → Option Fault
  | .take root => if rootsSize ≤ root then some .roots else none
  | .nullParent => some .nullParent
  | _ => none

end Action

/-- How far a script advances the names cursor. -/
def scriptSize (script : List Action) : Nat := (script.map Action.size).sum

@[simp] theorem scriptSize_nil : scriptSize [] = 0 := rfl

@[simp] theorem scriptSize_cons (action : Action) (script : List Action) :
    scriptSize (action :: script) = action.size + scriptSize script := by
  simp [scriptSize]

/-- Run a script from an offset into the names buffer. -/
def exec (pass : Nat) : List Action → Nat → Heap → Except Fault (Nat × Heap)
  | [], off, heap => .ok (off, heap)
  | action :: script, off, heap =>
    match action.fault heap.rootsSize with
    | some fault => .error fault
    | none => exec pass script (off + action.size) (action.apply pass off heap)

theorem exec_append (pass : Nat) (first second : List Action) (off : Nat) (heap : Heap) :
    exec pass (first ++ second) off heap =
      (exec pass first off heap).bind fun out => exec pass second out.1 out.2 := by
  induction first generalizing off heap with
  | nil => rfl
  | cons action script ih =>
    simp only [List.cons_append, exec]
    split
    · rfl
    · exact ih _ _

/-- Without faults a script is a fold of its actions. -/
def applyAll (pass : Nat) : List Action → Nat → Heap → Heap
  | [], _, heap => heap
  | action :: script, off, heap =>
    applyAll pass script (off + action.size) (action.apply pass off heap)

/-- The first fault of a script. -/
def scriptFault (rootsSize : Nat) (script : List Action) : Option Fault :=
  script.findSome? (Action.fault rootsSize)

/-! ### Fields that an action leaves alone -/

@[simp] theorem Heap.storePath_rootsSize (heap : Heap) (pass off : Nat) (parent : List Frame) :
    (heap.storePath pass off parent).rootsSize = heap.rootsSize := by
  unfold Heap.storePath
  split <;> simp [Heap.storeName]

@[simp] theorem Heap.storePath_roots (heap : Heap) (pass off : Nat) (parent : List Frame) :
    (heap.storePath pass off parent).roots = heap.roots := by
  unfold Heap.storePath
  split <;> simp [Heap.storeName]

@[simp] theorem Heap.storePath_devices (heap : Heap) (pass off : Nat) (parent : List Frame) :
    (heap.storePath pass off parent).devices = heap.devices := by
  unfold Heap.storePath
  split <;> simp [Heap.storeName]

@[simp] theorem Heap.storePath_resources (heap : Heap) (pass off : Nat) (parent : List Frame) :
    (heap.storePath pass off parent).resources = heap.resources := by
  unfold Heap.storePath
  split <;> simp [Heap.storeName]

@[simp] theorem Heap.setOverride_rootsSize (heap : Heap) (target : Option Nat) (off : Nat) :
    (heap.setOverride target off).rootsSize = heap.rootsSize := by
  cases target <;> rfl

@[simp] theorem Heap.setOverride_roots (heap : Heap) (target : Option Nat) (off : Nat) :
    (heap.setOverride target off).roots = heap.roots := by
  cases target <;> rfl

@[simp] theorem Heap.setOverride_names (heap : Heap) (target : Option Nat) (off : Nat) :
    (heap.setOverride target off).names = heap.names := by
  cases target <;> rfl

@[simp] theorem Heap.setOverride_resources (heap : Heap) (target : Option Nat) (off : Nat) :
    (heap.setOverride target off).resources = heap.resources := by
  cases target <;> rfl

@[simp] theorem Heap.setOverride_trace (heap : Heap) (target : Option Nat) (off : Nat) :
    (heap.setOverride target off).trace = heap.trace := by
  cases target <;> rfl

theorem Heap.putResource_rootsSize (heap : Heap) (device off : Nat) (parent : List Frame)
    (flags : Nat) (start stop : UInt64) :
    (heap.putResource device off parent flags start stop).rootsSize = heap.rootsSize := by
  unfold Heap.putResource
  dsimp only
  split <;> rfl

theorem Heap.putResource_roots (heap : Heap) (device off : Nat) (parent : List Frame)
    (flags : Nat) (start stop : UInt64) :
    (heap.putResource device off parent flags start stop).roots = heap.roots := by
  unfold Heap.putResource
  dsimp only
  split <;> rfl

theorem Action.apply_rootsSize (pass off : Nat) (heap : Heap) (action : Action) :
    (action.apply pass off heap).rootsSize = heap.rootsSize := by
  cases action with
  | notice target line =>
    simp only [Action.apply, Heap.notice]
    split <;> rfl
  | resource => simp [Action.apply, Heap.putResource_rootsSize]
  | _ => simp [Action.apply, Heap.setDevice, Heap.setRoot]

/-- Only a mark changes the root flags. -/
theorem Action.apply_roots (pass off : Nat) (heap : Heap) (action : Action) :
    (action.apply pass off heap).roots =
      match action with
      | .mark root => Function.update heap.roots root true
      | _ => heap.roots := by
  cases action with
  | notice target line =>
    simp only [Action.apply, Heap.notice]
    split <;> rfl
  | resource => simp [Action.apply, Heap.putResource_roots]
  | _ => simp [Action.apply, Heap.setDevice, Heap.setRoot]

theorem applyAll_rootsSize (pass : Nat) (script : List Action) (off : Nat) (heap : Heap) :
    (applyAll pass script off heap).rootsSize = heap.rootsSize := by
  induction script generalizing off heap with
  | nil => rfl
  | cons action script ih => rw [applyAll, ih, Action.apply_rootsSize]

/-- After a script a flag is set if it was, or if the script marks it. -/
theorem applyAll_roots (pass : Nat) (script : List Action) (off : Nat) (heap : Heap) (root : Nat) :
    (applyAll pass script off heap).roots root = true ↔
      heap.roots root = true ∨ .mark root ∈ script := by
  induction script generalizing off heap with
  | nil => simp [applyAll]
  | cons action script ih =>
    rw [applyAll, ih, Action.apply_roots, List.mem_cons]
    cases action with
    | mark marked =>
      by_cases same : root = marked
      · simp [same]
      · simp [same]
    | _ => simp

/-- A script faults or runs to its end, and which of the two does not depend on
the pass or on anything in the heap but the size of the roots array. -/
theorem exec_eq (pass : Nat) (script : List Action) (off : Nat) (heap : Heap) :
    exec pass script off heap =
      match scriptFault heap.rootsSize script with
      | some fault => .error fault
      | none => .ok (off + scriptSize script, applyAll pass script off heap) := by
  induction script generalizing off heap with
  | nil => rfl
  | cons action script ih =>
    rw [exec, scriptFault, List.findSome?_cons]
    cases action.fault heap.rootsSize with
    | some fault => rfl
    | none =>
      simp only [ih, Action.apply_rootsSize, scriptSize_cons, applyAll, ← Nat.add_assoc]
      rfl

end RiscvLinux.Config
