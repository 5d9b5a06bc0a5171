import RiscvLinux.Config.Flags
import Mathlib.Data.List.Range

/-!
# The devices of a script

What a script marks does not depend on the flags it is given, but what it sets up
does: one device for each flag it takes that is marked, in the order of the flags,
and every target is a device set up before.
-/

namespace RiscvLinux.Config

/-! ## Scripts of states that differ outside the cursors -/

/-- The states agree on the cursors that a script reads. -/
structure SameCursors (state other : ParserState) : Prop where
  roots : state.roots = other.roots
  devices : state.devices = other.devices
  keyStart : state.keyStart = other.keyStart
  keyEnd : state.keyEnd = other.keyEnd

theorem tokenScript_congr (env : BlockEnv) (iface : Bool) (flags : Nat) {state other : ParserState}
    (same : SameCursors state other) (config : state.config = other.config) :
    tokenScript env iface flags state = tokenScript env iface flags other := by
  simp only [tokenScript, rangeScript, singleScript, same.keyStart, same.keyEnd, config]

section Congr

variable (marked : Nat → Bool)

theorem enterScript_congr {state other : ParserState} (parent : List Frame) (flags : Nat)
    (target : Option Nat) (same : SameCursors state other) (config : state.config = other.config) :
    (enterScript marked state parent flags target).1 =
        (enterScript marked other parent flags target).1 ∧
      SameCursors (enterScript marked state parent flags target).2.1
        (enterScript marked other parent flags target).2.1 ∧
      (enterScript marked state parent flags target).2.2 =
        (enterScript marked other parent flags target).2.2 := by
  rcases same with ⟨roots, devices, keyStart, keyEnd⟩
  simp only [enterScript, roots, devices, config]
  split
  · exact ⟨rfl, ⟨rfl, rfl, keyStart, keyEnd⟩, rfl⟩
  · exact ⟨rfl, ⟨rfl, rfl, keyStart, keyEnd⟩, rfl⟩

mutual

theorem Entries.script_congr (env : BlockEnv) (root : Bool) {state other : ParserState} :
    ∀ entries : Entries, SameCursors state other →
      (entries.script marked env root state).1 = (entries.script marked env root other).1 ∧
        SameCursors (entries.script marked env root state).2
          (entries.script marked env root other).2
  | .stop _, same => ⟨rfl, same.roots, same.devices, same.keyStart, same.keyEnd⟩
  | .entry keyStart values rest, same => by
    have key : SameCursors (keyState state keyStart) (keyState other keyStart) :=
      ⟨same.roots, same.devices, rfl, rfl⟩
    obtain ⟨first, after⟩ := values.script_congr env (keyFlags (keyState state keyStart))
      (parserKeyEq (keyState state keyStart) interfaceKey) key
    obtain ⟨later, final⟩ := rest.script_congr env
      (root || parserKeyEq (keyState state keyStart) interfaceKey) after
    exact ⟨congrArg₂ (fun first later => keyScript env (keyState state keyStart) ++
      (first ++ (_ ++ later))) first later, final⟩

theorem Values.script_congr (env : BlockEnv) (flags : Nat) (iface : Bool)
    {state other : ParserState} : ∀ values : Values, SameCursors state other →
      (values.script marked env flags iface state).1 =
          (values.script marked env flags iface other).1 ∧
        SameCursors (values.script marked env flags iface state).2
          (values.script marked env flags iface other).2
  | .stop _, same => ⟨rfl, same.roots, same.devices, same.keyStart, same.keyEnd⟩
  | .string str rest, same => by
    have moved : SameCursors { state with config := str } { other with config := str } :=
      ⟨same.roots, same.devices, same.keyStart, same.keyEnd⟩
    obtain ⟨later, final⟩ := rest.script_congr env flags false moved
    exact ⟨congrArg (ifaceScript env iface str ++ ·) later, final⟩
  | .block str body rest, same => by
    have moved : SameCursors { state with config := skipNewline (inc str), parent := env.parent }
        { other with config := skipNewline (inc str), parent := env.parent } :=
      ⟨same.roots, same.devices, same.keyStart, same.keyEnd⟩
    obtain ⟨inner, entered, enter⟩ := enterScript_congr marked
      (⟨other.keyStart, other.keyEnd⟩ :: env.parent) flags env.target moved rfl
    have frame : (⟨state.keyStart, state.keyEnd⟩ : Frame) = ⟨other.keyStart, other.keyEnd⟩ := by
      rw [same.keyStart, same.keyEnd]
    simp only [Values.script, frame]
    rw [inner, enter]
    obtain ⟨inside, after⟩ := body.script_congr _ _ entered
    obtain ⟨later, final⟩ := rest.script_congr _ _ _ after
    exact ⟨congrArg₂ (fun inside later => _ ++ (inside ++ later)) inside later, final⟩
  | .token str rest, same => by
    have moved : SameCursors { state with config := str } { other with config := str } :=
      ⟨same.roots, same.devices, same.keyStart, same.keyEnd⟩
    obtain ⟨later, final⟩ := rest.script_congr env flags false moved
    have token := tokenScript_congr env iface flags moved rfl
    exact ⟨congrArg₂ (· ++ ·) token later, final⟩

end

/-- The script of a whole pass starts from its cursors alone, since the first key
replaces whatever key the pass before it left. -/
theorem blockScript_congr {state other : ParserState} (target : Option Nat) (body : Entries)
    (roots : state.roots = other.roots) (devices : state.devices = other.devices)
    (config : state.config = other.config) :
    (blockScript marked state [] 0 target body).1 =
      (blockScript marked other [] 0 target body).1 := by
  have keyed : (blockScript marked state [] 0 target body).1 =
      (blockScript marked { state with keyStart := other.keyStart, keyEnd := other.keyEnd } [] 0
        target body).1 := by
    unfold blockScript enterScript
    dsimp only
    split <;> cases body <;> rfl
  rw [keyed]
  have same : SameCursors { state with keyStart := other.keyStart, keyEnd := other.keyEnd } other :=
    ⟨roots, devices, rfl, rfl⟩
  obtain ⟨inner, entered, enter⟩ := enterScript_congr marked [] 0 target same config
  unfold blockScript
  dsimp only
  rw [inner, enter, (body.script_congr marked _ _ entered).1]

end Congr

/-! ## Devices and their targets -/

/-- The flag and the index of the device that an action sets up. -/
def Action.setUp : Action → Option (Nat × Nat)
  | .device root index _ _ => some (root, index)
  | _ => none

/-- The devices that a script sets up, in order. -/
def devicesIn (script : List Action) : List (Nat × Nat) := script.filterMap Action.setUp

@[simp] theorem devicesIn_nil : devicesIn [] = [] := rfl

@[simp] theorem devicesIn_append (first second : List Action) :
    devicesIn (first ++ second) = devicesIn first ++ devicesIn second := List.filterMap_append

/-- The action's target is one of the first `devices` devices, and a device that it
sets up is the next one. -/
def Action.Targets (devices : Nat) : Action → Prop
  | .device _ index _ _ => index = devices
  | .interface (some index) _ => index < devices
  | .resource index _ _ _ _ => index < devices
  | .notice (some index) _ => index < devices
  | .finish index _ => index < devices
  | _ => True

/-- Every target in a script is a device set up before, counting from `devices`. -/
def Targets : Nat → List Action → Prop
  | _, [] => True
  | devices, action :: script =>
    action.Targets devices ∧ Targets (devices + (devicesIn [action]).length) script

theorem Targets.append {devices : Nat} {first second : List Action}
    (targets : Targets devices first)
    (next : Targets (devices + (devicesIn first).length) second) :
    Targets devices (first ++ second) := by
  induction first generalizing devices with
  | nil => exact next
  | cons action script ih =>
    refine ⟨targets.1, ih targets.2 ?_⟩
    rw [← List.singleton_append, devicesIn_append, List.length_append, ← Nat.add_assoc] at next
    exact next

/-- The marked flags from `first` up to `last`. -/
def rootsFrom (marked : Nat → Bool) (first last : Nat) : List Nat :=
  (List.range' first (last - first)).filter marked

theorem rootsFrom_self (marked : Nat → Bool) (first : Nat) : rootsFrom marked first first = [] := by
  simp [rootsFrom]

theorem rootsFrom_append (marked : Nat → Bool) {first mid last : Nat} (left : first ≤ mid)
    (right : mid ≤ last) :
    rootsFrom marked first mid ++ rootsFrom marked mid last = rootsFrom marked first last := by
  have next : mid = first + (mid - first) := by omega
  have whole : last - first = (mid - first) + (last - mid) := by omega
  rw [rootsFrom, rootsFrom, rootsFrom, whole, ← List.range'_append_1, List.filter_append, ← next]

/-- A script from one state to another sets up a device for each marked flag it
takes, and targets only devices set up before. -/
structure SetsUp (marked : Nat → Bool) (state : ParserState) (script : List Action)
    (final : ParserState) : Prop where
  roots : state.roots ≤ final.roots
  devices : devicesIn script = (rootsFrom marked state.roots final.roots).zipIdx state.devices
  next : final.devices = state.devices + (devicesIn script).length
  targets : Targets state.devices script

/-- The target of a block, if it has one, has been set up. -/
def BlockEnv.TargetBelow (env : BlockEnv) (devices : Nat) : Prop :=
  ∀ index, env.target = some index → index < devices

namespace SetsUp

variable {marked : Nat → Bool} {state final : ParserState} {script first second : List Action}

/-- A script that takes no flag sets up no device. -/
theorem of_nil (none : devicesIn script = []) (targets : Targets state.devices script)
    (roots : final.roots = state.roots) (devices : final.devices = state.devices) :
    SetsUp marked state script final where
  roots := roots.ge
  devices := by rw [none, roots, rootsFrom_self, List.zipIdx_nil]
  next := by rw [none, devices, List.length_nil, Nat.add_zero]
  targets := targets

theorem append {m : ParserState} (left : SetsUp marked state first m)
    (right : SetsUp marked m second final) :
    SetsUp marked state (first ++ second) final where
  roots := left.roots.trans right.roots
  devices := by
    have length : (rootsFrom marked state.roots m.roots).length = (devicesIn first).length := by
      rw [left.devices, List.length_zipIdx]
    rw [devicesIn_append, right.devices, left.next, ← length, left.devices, ← List.zipIdx_append,
      rootsFrom_append marked left.roots right.roots]
  next := by rw [devicesIn_append, List.length_append, right.next, left.next, Nat.add_assoc]
  targets := left.targets.append (by rw [← left.next]; exact right.targets)

/-- A target stays set up. -/
theorem below {env : BlockEnv} (sets : SetsUp marked state script final)
    (before : env.TargetBelow state.devices) : env.TargetBelow final.devices := by
  intro index target
  rw [sets.next]
  exact Nat.lt_add_right _ (before index target)

end SetsUp

section SetUp

variable (marked : Nat → Bool)

theorem ifaceScript_setsUp {env : BlockEnv} {iface : Bool} {str : Cursor}
    {state : ParserState} (final : ParserState) (below : env.TargetBelow state.devices)
    (roots : final.roots = state.roots) (devices : final.devices = state.devices) :
    SetsUp marked state (ifaceScript env iface str) final := by
  refine .of_nil ?_ ?_ roots devices
  · unfold ifaceScript
    split <;> rfl
  · unfold ifaceScript
    split
    · cases target : env.target with
      | none => exact ⟨trivial, trivial⟩
      | some index => exact ⟨below index target, trivial⟩
    · trivial

theorem rangeScript_setsUp {env : BlockEnv} {state : ParserState}
    (below : env.TargetBelow state.devices) :
    SetsUp marked state (rangeScript env state) state := by
  have notice : ∀ line, SetsUp marked state [.notice env.target line] state := by
    intro line
    refine .of_nil rfl ⟨?_, trivial⟩ rfl rfl
    cases target : env.target with
    | none => trivial
    | some index => exact below index target
  unfold rangeScript
  dsimp only
  split
  · exact notice _
  · split
    · exact notice _
    · split
      · exact .of_nil rfl trivial rfl rfl
      · exact .of_nil rfl ⟨trivial, trivial⟩ rfl rfl
      · next index _ _ target _ => exact .of_nil rfl ⟨below index target, trivial⟩ rfl rfl

theorem singleScript_setsUp {env : BlockEnv} {flags : Nat} {state : ParserState}
    (below : env.TargetBelow state.devices) :
    SetsUp marked state (singleScript env flags state) state := by
  unfold singleScript
  dsimp only
  split
  · refine .of_nil rfl ⟨?_, trivial⟩ rfl rfl
    cases target : env.target with
    | none => trivial
    | some index => exact below index target
  · split
    · exact .of_nil rfl trivial rfl rfl
    · next index target => exact .of_nil rfl ⟨below index target, trivial⟩ rfl rfl

theorem tokenScript_setsUp {env : BlockEnv} (iface : Bool) (flags : Nat) (state : ParserState)
    (below : env.TargetBelow state.devices) :
    SetsUp marked state (tokenScript env iface flags state) state := by
  have nothing : SetsUp marked state [] state := .of_nil rfl trivial rfl rfl
  unfold tokenScript
  refine (ifaceScript_setsUp marked state below rfl rfl).append (SetsUp.append (m := state) ?_ ?_)
  · split
    · exact rangeScript_setsUp marked below
    · exact nothing
  · split
    · exact singleScript_setsUp marked below
    · exact nothing

theorem finishScript_setsUp {env : BlockEnv} {root : Bool} {str : Cursor} {state : ParserState}
    (below : env.TargetBelow state.devices) :
    SetsUp marked state (finishScript env root str) state := by
  unfold finishScript
  split
  · next index target =>
    split
    · exact .of_nil rfl ⟨below index target, trivial⟩ rfl rfl
    · exact .of_nil rfl trivial rfl rfl
  · exact .of_nil rfl trivial rfl rfl

theorem keyScript_setsUp {env : BlockEnv} {state : ParserState} (keyStart : Cursor) :
    SetsUp marked state (keyScript env (keyState state keyStart)) (keyState state keyStart) := by
  unfold keyScript
  split
  · exact .of_nil rfl ⟨trivial, trivial⟩ rfl rfl
  · exact .of_nil rfl trivial rfl rfl

/-- Entering a block takes one flag, and sets up a device if it is marked. -/
theorem enterScript_setsUp (state : ParserState) (parent : List Frame) (flags : Nat)
    {target : Option Nat} (below : ∀ index, target = some index → index < state.devices) :
    SetsUp marked state (enterScript marked state parent flags target).2.2
        (enterScript marked state parent flags target).2.1 ∧
      (enterScript marked state parent flags target).1.TargetBelow
        (enterScript marked state parent flags target).2.1.devices := by
  unfold enterScript
  dsimp only
  split
  · next root =>
    refine ⟨⟨Nat.le_succ _, ?_, rfl, trivial, rfl, trivial⟩, ?_⟩
    · simp [devicesIn, rootsFrom, List.range'_succ, root]
      rfl
    · intro index eq
      rw [← Option.some.inj eq]
      exact Nat.lt_succ_self _
  · next root =>
    refine ⟨⟨Nat.le_succ _, ?_, rfl, trivial, trivial⟩, below⟩
    simp [devicesIn, Action.setUp, rootsFrom, List.range'_succ, root]

mutual

theorem Entries.script_setsUp {env : BlockEnv} (root : Bool) (state : ParserState) :
    ∀ entries : Entries, env.TargetBelow state.devices →
      SetsUp marked state (entries.script marked env root state).1
        (entries.script marked env root state).2
  | .stop _, _ => .of_nil rfl trivial rfl rfl
  | .entry keyStart values rest, below => by
    have first := values.script_setsUp (keyFlags (keyState state keyStart))
      (parserKeyEq (keyState state keyStart) interfaceKey) (keyState state keyStart) below
    have belowAfter := first.below below
    exact (keyScript_setsUp marked keyStart).append <| first.append <|
      (finishScript_setsUp marked belowAfter).append (rest.script_setsUp _ _ belowAfter)

theorem Values.script_setsUp {env : BlockEnv} (flags : Nat) (iface : Bool)
    (state : ParserState) : ∀ values : Values, env.TargetBelow state.devices →
      SetsUp marked state (values.script marked env flags iface state).1
        (values.script marked env flags iface state).2
  | .stop _, _ => .of_nil rfl trivial rfl rfl
  | .string str rest, below =>
    (ifaceScript_setsUp marked { state with config := str } below rfl rfl).append
      (rest.script_setsUp flags false { state with config := str } below)
  | .block str body rest, below => by
    obtain ⟨entered, inner⟩ := enterScript_setsUp marked
      { state with config := skipNewline (inc str), parent := env.parent }
      (⟨state.keyStart, state.keyEnd⟩ :: env.parent) flags below
    have inside := body.script_setsUp (marked (enterScript marked
      { state with config := skipNewline (inc str), parent := env.parent }
      (⟨state.keyStart, state.keyEnd⟩ :: env.parent) flags env.target).1.amRoot) _ inner
    have enterInside := entered.append inside
    have later := rest.script_setsUp flags false _ (enterInside.below below)
    have whole := entered.append (inside.append later)
    exact ⟨whole.roots, whole.devices, whole.next, whole.targets⟩
  | .token str rest, below => by
    have token := tokenScript_setsUp marked iface flags { state with config := str } below
    have later := rest.script_setsUp flags false { state with config := str } below
    have whole := token.append later
    exact ⟨whole.roots, whole.devices, whole.next, whole.targets⟩

end

/-- The devices of a whole pass. -/
theorem blockScript_setsUp (state : ParserState) (entries : Entries) :
    SetsUp marked state (blockScript marked state [] 0 none entries).1
      (blockScript marked state [] 0 none entries).2 := by
  have noTarget : ∀ index, none = some index → index < state.devices := nofun
  obtain ⟨entered, inner⟩ := enterScript_setsUp marked state [] 0 noTarget
  exact entered.append (entries.script_setsUp marked _ _ inner)

end SetUp

end RiscvLinux.Config
