import RiscvLinux.Config.Script

/-!
# Passes of `parse_config_string` as scripts

The script of an outline follows the parser through the tree and lists its
actions, given the root flags `marked` that the pass finds. `parseEntries_eq`
says that a pass over a text is the execution of the script of its outline.
-/

namespace RiscvLinux.Config

/-! ## The script of an outline -/

/-- The actions of `parse_range`. -/
def rangeScript (env : BlockEnv) (state : ParserState) : List Action :=
  let valueTail := skipKey state.config
  let (valueEnd, value) := parseU64 state.config
  let (keyEnd, key) := parseU64 state.keyStart
  if keyEnd.length ≠ state.keyEnd.length then
    [.notice env.target (.invalidKey (span state.keyStart state.keyEnd))]
  else if valueEnd.length ≠ valueTail.length then
    [.notice env.target (.invalidValue (span state.config valueTail))]
  else
    match env.target, env.parent with
    | none, _ => []
    | some _, [] => [.nullParent]
    | some device, _ :: parent => [.resource device parent env.parentFlags key value]

/-- The actions of `parse_single`. -/
def singleScript (env : BlockEnv) (flags : Nat) (state : ParserState) : List Action :=
  let valueTail := skipKey state.config
  let (valueEnd, value) := parseU64 state.config
  if valueEnd.length ≠ valueTail.length then
    [.notice env.target (.invalidValue (span state.config valueTail))]
  else
    match env.target with
    | none => []
    | some device => [.resource device env.parent flags value value]

/-- The actions for an interface value. -/
def ifaceScript (env : BlockEnv) (iface : Bool) (str : Cursor) : List Action :=
  if iface then [.interface env.target (stringValue str)] else []

/-- The actions for a token value. -/
def tokenScript (env : BlockEnv) (iface : Bool) (flags : Nat) (state : ParserState) :
    List Action :=
  ifaceScript env iface state.config ++
    ((if env.parentFlags ≠ 0 then rangeScript env state else []) ++
      (if flags ≠ 0 then singleScript env flags state else []))

/-- The actions of `enterBlock`, with the environment and state they lead to. -/
def enterScript (marked : Nat → Bool) (state : ParserState) (parent : List Frame)
    (parentFlags : Nat) (target : Option Nat) : BlockEnv × ParserState × List Action :=
  let root := state.roots
  let state := { state with roots := root + 1 }
  if marked root then
    (⟨root, [], parentFlags, some state.devices⟩, { state with devices := state.devices + 1 },
      [.take root, .device root state.devices parent state.config])
  else (⟨root, parent, parentFlags, target⟩, state, [.take root])

/-- The state after a key. -/
def keyState (state : ParserState) (keyStart : Cursor) : ParserState :=
  { state with keyStart := keyStart, config := skipKey keyStart, keyEnd := skipKey keyStart }

/-- The marks of a key. -/
def keyScript (env : BlockEnv) (key : ParserState) : List Action :=
  if parserKeyEq key interfaceKey then [.mark env.amRoot] else []

/-- The action at the end of an entry. -/
def finishScript (env : BlockEnv) (root : Bool) (str : Cursor) : List Action :=
  match env.target with
  | some device => if root then [.finish device (skipNewline str)] else []
  | none => []

mutual

/-- The actions of a pass over the entries of a block, where `root` is the flag of
the block so far, and the state after them. -/
def Entries.script (marked : Nat → Bool) (env : BlockEnv) (root : Bool) :
    Entries → ParserState → List Action × ParserState
  | .stop str, state => ([], { state with config := str })
  | .entry keyStart values rest, state =>
    let state := keyState state keyStart
    let iface := parserKeyEq state interfaceKey
    let first := values.script marked env (keyFlags state) iface state
    let after := skipChar semicolon values.stopAt
    let later := rest.script marked env (root || iface) first.2
    (keyScript env state ++
      (first.1 ++ (finishScript env (root || iface) after ++ later.1)), later.2)

/-- The actions of a pass over the values of an entry. -/
def Values.script (marked : Nat → Bool) (env : BlockEnv) (flags : Nat) (iface : Bool) :
    Values → ParserState → List Action × ParserState
  | .stop str, state => ([], { state with config := str })
  | .string str rest, state =>
    let state := { state with config := str }
    let later := rest.script marked env flags false state
    (ifaceScript env iface str ++ later.1, later.2)
  | .block str body rest, state =>
    let state := { state with config := skipNewline (inc str), parent := env.parent }
    let (inner, state, enter) := enterScript marked state
      (⟨state.keyStart, state.keyEnd⟩ :: state.parent) flags env.target
    let inside := body.script marked inner (marked inner.amRoot) state
    let later := rest.script marked env flags false inside.2
    (enter ++ (inside.1 ++ later.1), later.2)
  | .token str rest, state =>
    let state := { state with config := str }
    let later := rest.script marked env flags false state
    (tokenScript env iface flags state ++ later.1, later.2)

end

/-- The actions of a whole block: it is entered, and its entries follow. -/
def blockScript (marked : Nat → Bool) (state : ParserState) (parent : List Frame) (flags : Nat)
    (target : Option Nat) (body : Entries) : List Action × ParserState :=
  let (inner, state, enter) := enterScript marked state parent flags target
  let inside := body.script marked inner (marked inner.amRoot) state
  (enter ++ inside.1, inside.2)

theorem Values.script_block (marked : Nat → Bool) (env : BlockEnv) (flags : Nat) (iface : Bool)
    (str : Cursor) (body : Entries) (rest : Values) (state : ParserState) :
    (Values.block str body rest).script marked env flags iface state =
      let block := blockScript marked
        { state with config := skipNewline (inc str), parent := env.parent }
        (⟨state.keyStart, state.keyEnd⟩ :: env.parent) flags env.target body
      (block.1 ++ (rest.script marked env flags false block.2).1,
        (rest.script marked env flags false block.2).2) := by
  simp [Values.script, blockScript, List.append_assoc]

theorem enterScript_names (marked : Nat → Bool) (state : ParserState) (parent : List Frame)
    (flags : Nat) (target : Option Nat) (names : Nat) :
    enterScript marked { state with names := names } parent flags target =
      ((enterScript marked state parent flags target).1,
        { (enterScript marked state parent flags target).2.1 with names := names },
        (enterScript marked state parent flags target).2.2) := by
  unfold enterScript
  dsimp only
  split <;> rfl

/-! ## What a script does to the cursors and the flags -/

section State

variable (marked : Nat → Bool)

theorem enterScript_amRoot (state : ParserState) (parent : List Frame) (flags : Nat)
    (target : Option Nat) :
    (enterScript marked state parent flags target).1.amRoot = state.roots := by
  unfold enterScript
  dsimp only
  split <;> rfl

theorem enterScript_roots (state : ParserState) (parent : List Frame) (flags : Nat)
    (target : Option Nat) :
    (enterScript marked state parent flags target).2.1.roots = state.roots + 1 := by
  unfold enterScript
  dsimp only
  split <;> rfl

/-- No other cursor moves when a block is entered. -/
theorem enterScript_state (state : ParserState) (parent : List Frame) (flags : Nat)
    (target : Option Nat) :
    (enterScript marked state parent flags target).2.1 =
      { state with
        roots := (enterScript marked state parent flags target).2.1.roots
        devices := (enterScript marked state parent flags target).2.1.devices } := by
  unfold enterScript
  dsimp only
  split <;> rfl

mutual

/-- A script leaves the pass and the names cursor of the state as they are, moves
the text cursor to the end of the walk, and never moves the roots cursor back. -/
theorem Entries.script_state (env : BlockEnv) (root : Bool) (state : ParserState) :
    ∀ entries : Entries,
      (entries.script marked env root state).2.pass = state.pass ∧
      (entries.script marked env root state).2.names = state.names ∧
      (entries.script marked env root state).2.config = entries.stopAt ∧
      state.roots ≤ (entries.script marked env root state).2.roots
  | .stop _ => ⟨rfl, rfl, rfl, le_rfl⟩
  | .entry keyStart values rest => by
    obtain ⟨pass, names, -, roots⟩ :=
      values.script_state env (keyFlags (keyState state keyStart))
        (parserKeyEq (keyState state keyStart) interfaceKey) (keyState state keyStart)
    obtain ⟨restPass, restNames, restConfig, restRoots⟩ := rest.script_state env
      (root || parserKeyEq (keyState state keyStart) interfaceKey)
      (values.script marked env (keyFlags (keyState state keyStart))
        (parserKeyEq (keyState state keyStart) interfaceKey) (keyState state keyStart)).2
    exact ⟨restPass.trans pass, restNames.trans names, restConfig, roots.trans restRoots⟩

theorem Values.script_state (env : BlockEnv) (flags : Nat) (iface : Bool) (state : ParserState) :
    ∀ values : Values,
      (values.script marked env flags iface state).2.pass = state.pass ∧
      (values.script marked env flags iface state).2.names = state.names ∧
      (values.script marked env flags iface state).2.config = values.stopAt ∧
      state.roots ≤ (values.script marked env flags iface state).2.roots
  | .stop _ => ⟨rfl, rfl, rfl, le_rfl⟩
  | .string str rest => rest.script_state env flags false { state with config := str }
  | .block str body rest => by
    obtain ⟨inner, entered, enter, eq⟩ : ∃ inner entered enter, enterScript marked
        { state with config := skipNewline (inc str), parent := env.parent }
        (⟨state.keyStart, state.keyEnd⟩ :: env.parent) flags env.target = (inner, entered, enter) :=
      ⟨_, _, _, rfl⟩
    have enteredState := enterScript_state marked
      { state with config := skipNewline (inc str), parent := env.parent }
      (⟨state.keyStart, state.keyEnd⟩ :: env.parent) flags env.target
    have enteredRoots := enterScript_roots marked
      { state with config := skipNewline (inc str), parent := env.parent }
      (⟨state.keyStart, state.keyEnd⟩ :: env.parent) flags env.target
    rw [eq] at enteredState enteredRoots
    obtain ⟨pass, names, -, roots⟩ := body.script_state inner (marked inner.amRoot) entered
    obtain ⟨restPass, restNames, restConfig, restRoots⟩ := rest.script_state env flags false
      (body.script marked inner (marked inner.amRoot) entered).2
    simp only [Values.script, eq, Values.stopAt]
    dsimp only at enteredState enteredRoots
    refine ⟨restPass.trans (pass.trans ?_), restNames.trans (names.trans ?_), restConfig, ?_⟩
    · rw [enteredState]
    · rw [enteredState]
    · omega
  | .token str rest => rest.script_state env flags false { state with config := str }

end

/-- A block moves the cursors as its entries do, and takes a flag. -/
theorem blockScript_state (state : ParserState) (parent : List Frame) (flags : Nat)
    (target : Option Nat) (body : Entries) :
    (blockScript marked state parent flags target body).2.pass = state.pass ∧
    (blockScript marked state parent flags target body).2.names = state.names ∧
    (blockScript marked state parent flags target body).2.config = body.stopAt ∧
    state.roots < (blockScript marked state parent flags target body).2.roots := by
  have entered := enterScript_state marked state parent flags target
  have roots := enterScript_roots marked state parent flags target
  unfold blockScript
  generalize enterScript marked state parent flags target = out at *
  rcases out with ⟨inner, enteredState, enter⟩
  dsimp only at entered roots ⊢
  obtain ⟨pass, names, config, inside⟩ :=
    body.script_state marked inner (marked inner.amRoot) enteredState
  refine ⟨pass.trans ?_, names.trans ?_, config, by omega⟩
  · rw [entered]
  · rw [entered]

/-! ### Marks -/

/-- A key marks no block but its own. -/
theorem mark_mem_keyScript {env : BlockEnv} {key : ParserState} {k : Nat}
    (mem : .mark k ∈ keyScript env key) : k = env.amRoot := by
  unfold keyScript at mem
  split at mem
  · exact Action.mark.inj (List.mem_singleton.mp mem)
  · cases mem

theorem not_mark_mem_tokenScript {env : BlockEnv} {iface : Bool} {flags : Nat}
    {state : ParserState} {k : Nat} : .mark k ∉ tokenScript env iface flags state := by
  simp only [tokenScript, ifaceScript, rangeScript, singleScript, List.mem_append]
  rintro (mem | mem | mem) <;> split at mem
  · simp at mem
  · cases mem
  · split at mem
    · simp at mem
    · split at mem
      · simp at mem
      · split at mem <;> simp at mem
  · cases mem
  · split at mem
    · simp at mem
    · split at mem <;> simp at mem
  · cases mem

theorem not_mark_mem_enterScript (state : ParserState) (parent : List Frame) (flags : Nat)
    (target : Option Nat) {k : Nat} :
    .mark k ∉ (enterScript marked state parent flags target).2.2 := by
  unfold enterScript
  dsimp only
  split <;> simp

theorem not_mark_mem_finishScript {env : BlockEnv} {root : Bool} {str : Cursor} {k : Nat} :
    .mark k ∉ finishScript env root str := by
  unfold finishScript
  split
  · split <;> simp
  · simp

mutual

/-- The entries of a block mark the block itself or blocks inside it. -/
theorem Entries.mark_mem {env : BlockEnv} {root : Bool} {state : ParserState} {k : Nat} :
    ∀ entries : Entries, .mark k ∈ (entries.script marked env root state).1 →
      k = env.amRoot ∨
        (state.roots ≤ k ∧ k < (entries.script marked env root state).2.roots)
  | .stop _, mem => by cases mem
  | .entry keyStart values rest, mem => by
    have first_le := (values.script_state marked env (keyFlags (keyState state keyStart))
      (parserKeyEq (keyState state keyStart) interfaceKey) (keyState state keyStart)).2.2.2
    have rest_le := (rest.script_state marked env
      (root || parserKeyEq (keyState state keyStart) interfaceKey)
      (values.script marked env (keyFlags (keyState state keyStart))
        (parserKeyEq (keyState state keyStart) interfaceKey) (keyState state keyStart)).2).2.2.2
    simp only [Entries.script, List.mem_append] at mem ⊢
    rcases mem with mem | mem | mem | mem
    · exact Or.inl (mark_mem_keyScript mem)
    · obtain ⟨low, high⟩ := values.mark_mem mem
      exact Or.inr ⟨low, lt_of_lt_of_le high rest_le⟩
    · exact absurd mem not_mark_mem_finishScript
    · rcases rest.mark_mem mem with own | ⟨low, high⟩
      · exact Or.inl own
      · exact Or.inr ⟨le_trans first_le low, high⟩

theorem Values.mark_mem {env : BlockEnv} {flags : Nat} {iface : Bool} {state : ParserState}
    {k : Nat} : ∀ values : Values, .mark k ∈ (values.script marked env flags iface state).1 →
      state.roots ≤ k ∧ k < (values.script marked env flags iface state).2.roots
  | .stop _, mem => by cases mem
  | .string str rest, mem => by
    simp only [Values.script, List.mem_append] at mem ⊢
    rcases mem with mem | mem
    · unfold ifaceScript at mem
      split at mem
      · simp at mem
      · cases mem
    · exact rest.mark_mem mem
  | .block str body rest, mem => by
    simp only [Values.script, List.mem_append] at mem ⊢
    generalize nested : enterScript marked
      { state with config := skipNewline (inc str), parent := env.parent }
      (⟨state.keyStart, state.keyEnd⟩ :: env.parent) flags env.target = out at mem ⊢
    have own := enterScript_amRoot marked
      { state with config := skipNewline (inc str), parent := env.parent }
      (⟨state.keyStart, state.keyEnd⟩ :: env.parent) flags env.target
    have entered := enterScript_roots marked
      { state with config := skipNewline (inc str), parent := env.parent }
      (⟨state.keyStart, state.keyEnd⟩ :: env.parent) flags env.target
    have free := not_mark_mem_enterScript marked
      { state with config := skipNewline (inc str), parent := env.parent }
      (⟨state.keyStart, state.keyEnd⟩ :: env.parent) flags env.target (k := k)
    rw [nested] at own entered free
    rcases out with ⟨inner, enteredState, enter⟩
    have inside_le :=
      (body.script_state marked inner (marked inner.amRoot) enteredState).2.2.2
    have rest_le := (rest.script_state marked env flags false
      (body.script marked inner (marked inner.amRoot) enteredState).2).2.2.2
    dsimp only at own entered free mem ⊢
    rcases mem with mem | mem | mem
    · exact absurd mem free
    · rcases body.mark_mem mem with eq | ⟨low, high⟩
      · omega
      · exact ⟨by omega, lt_of_lt_of_le high rest_le⟩
    · obtain ⟨low, high⟩ := rest.mark_mem mem
      exact ⟨by omega, high⟩
  | .token str rest, mem => by
    simp only [Values.script, List.mem_append] at mem ⊢
    rcases mem with mem | mem
    · exact absurd mem not_mark_mem_tokenScript
    · exact rest.mark_mem mem

end

/-- A block marks flags it has taken. -/
theorem blockScript_mark_mem (state : ParserState) (parent : List Frame) (flags : Nat)
    (target : Option Nat) (body : Entries) {k : Nat}
    (mem : .mark k ∈ (blockScript marked state parent flags target body).1) :
    state.roots ≤ k ∧ k < (blockScript marked state parent flags target body).2.roots := by
  have own := enterScript_amRoot marked state parent flags target
  have roots := enterScript_roots marked state parent flags target
  have free := not_mark_mem_enterScript marked state parent flags target (k := k)
  unfold blockScript at mem ⊢
  generalize enterScript marked state parent flags target = out at *
  rcases out with ⟨inner, enteredState, enter⟩
  dsimp only at own roots free mem ⊢
  have inside := (body.script_state marked inner (marked inner.amRoot) enteredState).2.2.2
  rcases List.mem_append.mp mem with mem | mem
  · exact absurd mem free
  · rcases body.mark_mem marked mem with eq | ⟨low, high⟩
    · omega
    · omega

end State

/-! ## A pass executes its script -/

/-- The state and heap after a script, from the names cursor and heap it leaves. -/
def resume (state : ParserState) (out : Nat × Heap) : ParserState × Heap :=
  ({ state with names := out.1 }, out.2)

/-- A single action that cannot fault. -/
theorem exec_singleton {pass off : Nat} {heap : Heap} {action : Action}
    (safe : action.fault heap.rootsSize = none) :
    exec pass [action] off heap = .ok (off + action.size, action.apply pass off heap) := by
  rw [exec, safe]
  rfl

theorem parseRange_eq (env : BlockEnv) (state : ParserState) (heap : Heap) :
    parseRange state heap env.parent env.parentFlags env.target =
      (exec state.pass (rangeScript env state) state.names heap).map (resume state) := by
  unfold parseRange rangeScript
  dsimp only
  split
  · rw [exec_singleton rfl]; rfl
  · split
    · rw [exec_singleton rfl]; rfl
    · cases env.target with
      | none => rfl
      | some device =>
        cases env.parent with
        | nil => rfl
        | cons frame parent =>
          rw [exec_singleton rfl]
          simp only [addResource_eq]
          rfl

theorem parseSingle_eq (env : BlockEnv) (flags : Nat) (state : ParserState) (heap : Heap) :
    .ok (parseSingle state heap env.parent flags env.target) =
      (exec state.pass (singleScript env flags state) state.names heap).map (resume state) := by
  unfold parseSingle singleScript
  dsimp only
  split
  · rw [exec_singleton rfl]; rfl
  · cases env.target with
    | none => rfl
    | some device =>
      rw [exec_singleton rfl]
      simp only [addResource_eq]
      rfl

theorem iface_eq (env : BlockEnv) (iface : Bool) (state : ParserState) (heap : Heap) :
    .ok (if iface then parseInterface state heap env.target else (state, heap)) =
      (exec state.pass (ifaceScript env iface state.config) state.names heap).map
        (resume state) := by
  unfold ifaceScript
  cases iface with
  | false => rfl
  | true =>
    simp only [if_true, parseInterface_eq]
    rw [exec_singleton rfl]
    rfl

/-- A script followed by a step that executes another script. -/
theorem exec_bind {pass off : Nat} {first second : List Action} {heap : Heap}
    {state final : ParserState} {next : ParserState × Heap → Except Fault (ParserState × Heap)}
    (nextEq : next (resume state (off + scriptSize first, applyAll pass first off heap)) =
      (exec pass second (off + scriptSize first) (applyAll pass first off heap)).map
        (resume final)) :
    ((exec pass first off heap).map (resume state)).bind next =
      (exec pass (first ++ second) off heap).map (resume final) := by
  rw [exec_append, exec_eq pass first]
  split
  · rfl
  · exact nextEq

theorem parseToken_eq (env : BlockEnv) (iface : Bool) (flags : Nat) (state : ParserState)
    (heap : Heap) :
    parseToken env iface flags state heap =
      (exec state.pass (tokenScript env iface flags state) state.names heap).map
        (resume state) := by
  have single : ∀ (names : Nat) (heap : Heap),
      (.ok (if flags ≠ 0 then
        parseSingle { state with names := names } heap env.parent flags env.target
        else ({ state with names := names }, heap)) : Except Fault (ParserState × Heap)) =
      (exec state.pass (if flags ≠ 0 then singleScript env flags state else []) names heap).map
        (resume state) := by
    intro names heap
    split
    · exact parseSingle_eq env flags { state with names := names } heap
    · rfl
  have range : ∀ (names : Nat) (heap : Heap),
      (if env.parentFlags ≠ 0 then
        parseRange { state with names := names } heap env.parent env.parentFlags env.target
        else .ok ({ state with names := names }, heap)) =
      (exec state.pass (if env.parentFlags ≠ 0 then rangeScript env state else []) names heap).map
        (resume state) := by
    intro names heap
    split
    · exact parseRange_eq env { state with names := names } heap
    · rfl
  rw [parseToken_bind, iface_eq]
  refine exec_bind ?_
  rw [resume, range]
  exact exec_bind (single _ _)

/-- A flag that a script does not mark is as it was. -/
theorem applyAll_roots_of_unmarked {pass off : Nat} {script : List Action} {heap : Heap} {k : Nat}
    (unmarked : .mark k ∉ script) :
    (applyAll pass script off heap).roots k = heap.roots k := by
  rw [Bool.eq_iff_iff, applyAll_roots]
  simp [unmarked]

/-- The flags that a pass finds ahead of it are `marked`, and a pass without
devices neither has a target nor meets a root. -/
structure Agrees (marked : Nat → Bool) (env : BlockEnv) (state : ParserState) (heap : Heap) :
    Prop where
  own : env.amRoot < state.roots
  ahead : ∀ k, state.roots ≤ k → heap.roots k = marked k
  detect : haveDevices ≤ state.pass ∨ (env.target = none ∧ ∀ k, marked k = false)

/-- A script that marks only what it has passed keeps the agreement. -/
theorem Agrees.after {marked : Nat → Bool} {env : BlockEnv} {state : ParserState} {heap : Heap}
    (agrees : Agrees marked env state heap) (final : ParserState) (pass : Nat)
    (script : List Action) (off : Nat)
    (samePass : final.pass = state.pass) (forward : state.roots ≤ final.roots)
    (marks : ∀ k, .mark k ∈ script → k < final.roots) :
    Agrees marked env final (applyAll pass script off heap) where
  own := lt_of_lt_of_le agrees.own forward
  ahead k ahead := by
    rw [← agrees.ahead k (forward.trans ahead)]
    exact applyAll_roots_of_unmarked fun mem => absurd (marks k mem) (by omega)
  detect := by
    rw [samePass]
    exact agrees.detect

theorem enterBlock_eq {marked : Nat → Bool} (state : ParserState) {heap : Heap}
    {target : Option Nat} (parent : List Frame) (flags : Nat)
    (flag : heap.roots state.roots = marked state.roots)
    (detect : haveDevices ≤ state.pass ∨ (target = none ∧ ∀ k, marked k = false)) :
    enterBlock state heap parent flags target =
      (exec state.pass (enterScript marked state parent flags target).2.2 state.names heap).map
        fun out => ((enterScript marked state parent flags target).1,
          resume (enterScript marked state parent flags target).2.1 out) := by
  unfold enterBlock enterScript
  dsimp only
  rw [← flag]
  by_cases outside : heap.rootsSize ≤ state.roots
  · cases root : heap.roots state.roots <;>
      simp [outside, exec, Action.fault] <;> rfl
  · cases root : heap.roots state.roots with
    | false => simp [outside, exec, Action.fault]; rfl
    | true =>
      have devices : haveDevices ≤ state.pass := by
        rcases detect with devices | ⟨-, unmarked⟩
        · exact devices
        · rw [flag, unmarked] at root
          cases root
      simp [outside, exec, Action.fault, devices, configPath_eq]
      rfl

/-- The end of an entry with the key handled executes its script. -/
theorem endEntry_eq {marked : Nat → Bool} {env : BlockEnv} {root : Bool} {state : ParserState}
    {stop : Cursor} {heap : Heap} (off : Nat) (agrees : Agrees marked env state heap)
    (own : heap.roots env.amRoot = root) (atEnd : state.config = stop) :
    .ok (endEntry env { state with names := off } heap) =
      (exec state.pass (finishScript env root (skipChar semicolon stop)) off heap).map
        (resume { state with config := skipWhitespace (skipChar semicolon stop) }) := by
  subst own atEnd
  unfold endEntry finishScript
  cases target : env.target with
  | none => rfl
  | some device =>
    have devices : haveDevices ≤ state.pass := by
      rcases agrees.detect with devices | ⟨none_eq, -⟩
      · exact devices
      · rw [target] at none_eq
        cases none_eq
    cases root : heap.roots env.amRoot with
    | false => rfl
    | true =>
      simp only [devices, decide_true, Bool.and_self, if_true]
      rw [exec_singleton rfl]
      rfl

/-- A block is entered in agreement with the flags ahead of it. -/
theorem Agrees.enter {marked : Nat → Bool} {state : ParserState} {heap : Heap}
    {parent : List Frame} {flags : Nat} {target : Option Nat} {pass : Nat} (off : Nat)
    (ahead : ∀ k, state.roots ≤ k → heap.roots k = marked k)
    (detect : haveDevices ≤ state.pass ∨ (target = none ∧ ∀ k, marked k = false)) :
    Agrees marked (enterScript marked state parent flags target).1
      (enterScript marked state parent flags target).2.1
      (applyAll pass (enterScript marked state parent flags target).2.2 off heap) where
  own := by
    rw [enterScript_amRoot, enterScript_roots]
    exact Nat.lt_succ_self _
  ahead k le := by
    rw [enterScript_roots] at le
    rw [applyAll_roots_of_unmarked (not_mark_mem_enterScript marked _ _ _ _), ahead k (by omega)]
  detect := by
    rw [enterScript_state]
    rcases detect with devices | ⟨noTarget, unmarked⟩
    · exact Or.inl devices
    · refine Or.inr ⟨?_, unmarked⟩
      simpa [enterScript, unmarked] using noTarget

theorem takeKey_eq (env : BlockEnv) (state : ParserState) (str : Cursor) (off : Nat)
    (heap : Heap) :
    .ok (takeKey env { state with config := str, names := off } heap) =
      (exec state.pass (keyScript env (keyState state str)) off heap).map
        (resume (keyState state str)) := by
  unfold takeKey keyScript
  cases iface : parserKeyEq (keyState state str) interfaceKey with
  | false =>
    unfold parserKeyEq keyState at iface
    simp only [parserKeyEq, iface]
    rfl
  | true =>
    unfold parserKeyEq keyState at iface
    simp only [parserKeyEq, iface]
    rfl

/-- The values of an entry, its end, and the entries after it. -/
theorem parseEntry_eq {marked : Nat → Bool} {env : BlockEnv} {root : Bool} {flags : Nat}
    {iface : Bool} (key : ParserState) {str : Cursor} {off : Nat} {heap : Heap} {fuel : Nat}
    {values : Values} {rest : Entries}
    (valuesEq : parseValues fuel env flags iface { key with config := str, names := off } heap =
      (exec key.pass (values.script marked env flags iface key).1 off heap).map
        (resume (values.script marked env flags iface key).2))
    (restEq : ∀ {state : ParserState} {off : Nat} {heap : Heap}, Agrees marked env state heap →
      heap.roots env.amRoot = root →
      parseEntries fuel env { state with
        config := skipWhitespace (skipChar semicolon values.stopAt), names := off } heap =
        (exec state.pass (rest.script marked env root state).1 off heap).map
          (resume (rest.script marked env root state).2))
    (agrees : Agrees marked env key heap) (own : heap.roots env.amRoot = root) :
    ((parseValues fuel env flags iface { key with config := str, names := off } heap).bind
      fun out => (Except.ok (endEntry env out.1 out.2)).bind fun out =>
        parseEntries fuel env out.1 out.2) =
      (exec key.pass ((values.script marked env flags iface key).1 ++
        (finishScript env root (skipChar semicolon values.stopAt) ++
          (rest.script marked env root (values.script marked env flags iface key).2).1)) off
        heap).map
        (resume (rest.script marked env root (values.script marked env flags iface key).2).2) := by
  obtain ⟨samePass, -, atEnd, forward⟩ := values.script_state marked env flags iface key
  have marks : ∀ k, .mark k ∈ (values.script marked env flags iface key).1 → key.roots ≤ k ∧
      k < (values.script marked env flags iface key).2.roots := fun k => values.mark_mem marked
  rw [valuesEq]
  generalize values.script marked env flags iface key = done at *
  refine exec_bind ?_
  have afterValues := agrees.after done.2 key.pass done.1 off samePass forward
    fun k mem => (marks k mem).2
  have ownAfter : (applyAll key.pass done.1 off heap).roots env.amRoot = root := by
    have := agrees.own
    rw [applyAll_roots_of_unmarked fun mem => absurd (marks _ mem).1 (by omega), own]
  have endEq := (endEntry_eq (off + scriptSize done.1) afterValues ownAfter atEnd).trans
    (congrArg (fun pass => (exec pass _ _ _).map _) samePass)
  refine (congrArg₂ Except.bind endEq rfl).trans (exec_bind ?_)
  have afterEnd := afterValues.after done.2 key.pass
    (finishScript env root (skipChar semicolon values.stopAt)) (off + scriptSize done.1) rfl le_rfl
    fun k mem => absurd mem not_mark_mem_finishScript
  refine (restEq afterEnd ?_).trans (by rw [samePass])
  rw [applyAll_roots_of_unmarked not_mark_mem_finishScript, ownAfter]

/-- A block is entered and then its entries run. -/
theorem parseConfigString_of_entries {marked : Nat → Bool} {fuel : Nat} {body : Entries}
    (state : ParserState) (str : Cursor) (off : Nat) {heap : Heap} (parent : List Frame)
    (flags : Nat) {target : Option Nat}
    (entriesEq : ∀ {env : BlockEnv} {state : ParserState} {off : Nat} {heap : Heap},
      Agrees marked env state heap →
      parseEntries fuel env { state with config := skipWhitespace str, names := off } heap =
        (exec state.pass (body.script marked env (heap.roots env.amRoot) state).1 off heap).map
          (resume (body.script marked env (heap.roots env.amRoot) state).2))
    (ahead : ∀ k, state.roots ≤ k → heap.roots k = marked k)
    (detect : haveDevices ≤ state.pass ∨ (target = none ∧ ∀ k, marked k = false)) :
    parseConfigString (fuel + 1) { state with config := str, names := off } heap parent flags
        target =
      (exec state.pass
        ((blockScript marked { state with config := str } parent flags target body).1)
        off heap).map
        (resume (blockScript marked { state with config := str } parent flags target body).2) := by
  rw [parseConfigString_succ,
    enterBlock_eq { state with config := str, names := off } parent flags (ahead _ le_rfl) detect,
    enterScript_names marked { state with config := str }]
  have inner : ∀ off, Agrees marked (enterScript marked { state with config := str } parent flags
      target).1 (enterScript marked { state with config := str } parent flags target).2.1
      (applyAll state.pass (enterScript marked { state with config := str } parent flags
        target).2.2 off heap) := fun off => .enter off ahead detect
  have flag : ∀ off, (applyAll state.pass (enterScript marked { state with config := str } parent
      flags target).2.2 off heap).roots state.roots = marked state.roots := fun off => by
    rw [applyAll_roots_of_unmarked (not_mark_mem_enterScript marked _ _ _ _), ahead _ le_rfl]
  have own := enterScript_amRoot marked { state with config := str } parent flags target
  have samePass : (enterScript marked { state with config := str } parent flags target).2.1.pass =
      state.pass := by rw [enterScript_state]
  have sameConfig : (enterScript marked { state with config := str } parent flags
      target).2.1.config = str := by rw [enterScript_state]
  unfold blockScript
  dsimp only at own ⊢
  generalize enterScript marked { state with config := str } parent flags target = entered at *
  rcases entered with ⟨env, enteredState, enter⟩
  dsimp only at own inner flag samePass sameConfig ⊢
  rw [exec_append, exec_eq]
  split
  · rfl
  · change parseEntries fuel env { enteredState with
      config := skipWhitespace enteredState.config, names := off + scriptSize enter }
      (applyAll state.pass enter off heap) = _
    rw [sameConfig, entriesEq (inner off), own, flag, samePass]
    rfl

mutual

/-- A pass over the entries of a block executes the script of their outline. -/
theorem parseEntries_eq {marked : Nat → Bool} {env : BlockEnv} {root : Bool}
    {state : ParserState} {str : Cursor} {off : Nat} {heap : Heap} :
    ∀ (fuel : Nat) (entries : Entries), entries.ReadsAt beforeNul str → entries.depth ≤ fuel →
    Agrees marked env state heap → heap.roots env.amRoot = root →
    parseEntries fuel env { state with config := str, names := off } heap =
      (exec state.pass (entries.script marked env root state).1 off heap).map
        (resume (entries.script marked env root state).2)
  | 0, .stop _, _, enough, _, _ => by simp [Entries.depth] at enough
  | 0, .entry _ _ _, _, enough, _, _ => by simp [Entries.depth] at enough
  | fuel + 1, .stop pos, ⟨here, stopped⟩, _, _, _ => by
    simp only [beforeNul, bne_iff_ne] at stopped
    rw [parseEntries, if_neg stopped, here]
    rfl
  | fuel + 1, .entry keyStart values rest, ⟨here, running, valuesRead, restRead⟩, enough,
      agrees, own => by
    subst here
    simp only [Entries.depth] at enough
    simp only [beforeNul, bne_iff_ne] at running
    have afterKey := agrees.after (keyState state keyStart) state.pass
      (keyScript env (keyState state keyStart)) off rfl le_rfl
      fun k mem => mark_mem_keyScript mem ▸ agrees.own
    have ownFlag : (applyAll state.pass (keyScript env (keyState state keyStart)) off heap).roots
        env.amRoot = (root || parserKeyEq (keyState state keyStart) interfaceKey) := by
      rw [← own, Bool.eq_iff_iff, applyAll_roots, keyScript]
      cases parserKeyEq (keyState state keyStart) interfaceKey <;> simp
    rw [parseEntries_entry running, takeKey_eq]
    refine exec_bind (parseEntry_eq (keyState state keyStart)
      (parseValues_eq _ fuel values valuesRead (by omega) afterKey)
      (fun after own => parseEntries_eq fuel rest restRead (by omega) after own) afterKey ownFlag)

/-- A pass over the values of an entry executes the script of their outline. -/
theorem parseValues_eq {marked : Nat → Bool} {env : BlockEnv} {flags : Nat} {iface : Bool}
    (state : ParserState) {str : Cursor} {off : Nat} {heap : Heap} :
    ∀ (fuel : Nat) (values : Values), values.ReadsAt beforeNul str → values.depth ≤ fuel →
    Agrees marked env state heap →
    parseValues fuel env flags iface { state with config := str, names := off } heap =
      (exec state.pass (values.script marked env flags iface state).1 off heap).map
        (resume (values.script marked env flags iface state).2)
  | 0, .stop _, _, enough, _ => by simp [Values.depth] at enough
  | 0, .string _ _, _, enough, _ => by simp [Values.depth] at enough
  | 0, .block _ _ _, _, enough, _ => by simp [Values.depth] at enough
  | 0, .token _ _, _, enough, _ => by simp [Values.depth] at enough
  | fuel + 1, .stop pos, ⟨here, stopped⟩, _, _ => by
    simp only [beforeNul, bne_iff_ne] at stopped
    rw [parseValues, if_neg stopped, here]
    rfl
  | fuel + 1, .string pos rest, ⟨here, running, atQuote, restRead⟩, enough, agrees => by
    subst here
    simp only [Values.depth] at enough
    simp only [beforeNul, bne_iff_ne] at running
    rw [parseValues_string running atQuote, iface_eq]
    refine exec_bind (parseValues_eq { state with config := pos } fuel rest restRead
      (by omega) ?_)
    exact agrees.after _ _ _ _ rfl le_rfl fun k mem => by
      unfold ifaceScript at mem
      split at mem <;> simp at mem
  | fuel + 1, .block pos body rest, ⟨here, running, atBrace, bodyRead, restRead⟩, enough,
      agrees => by
    subst here
    simp only [Values.depth] at enough
    simp only [beforeNul, bne_iff_ne] at running
    obtain ⟨fuel, rfl⟩ : ∃ inner, fuel = inner + 1 := ⟨fuel - 1, by omega⟩
    have blockEq := parseConfigString_of_entries { state with parent := env.parent }
      (skipNewline (inc pos)) off (⟨state.keyStart, state.keyEnd⟩ :: env.parent) flags
      (fun inner => parseEntries_eq fuel body (by rwa [skipWhitespace_skipNewline]) (by omega)
        inner rfl) agrees.ahead agrees.detect
    have moved := blockScript_state marked
      { state with config := skipNewline (inc pos), parent := env.parent }
      (⟨state.keyStart, state.keyEnd⟩ :: env.parent) flags env.target body
    have marks := fun k => blockScript_mark_mem marked
      { state with config := skipNewline (inc pos), parent := env.parent }
      (⟨state.keyStart, state.keyEnd⟩ :: env.parent) flags env.target body (k := k)
    rw [parseValues_block running atBrace, Values.script_block]
    refine (congrArg₂ Except.bind blockEq rfl).trans ?_
    refine exec_bind ?_
    rcases moved with ⟨samePass, -, atEnd, forward⟩
    have after := agrees.after _ state.pass _ off samePass forward.le
      (fun k mem => (marks k mem).2)
    rw [resume]
    dsimp only
    rw [atEnd]
    exact (parseValues_eq _ (fuel + 1) rest restRead (by omega) after).trans (by rw [samePass])
  | fuel + 1, .token pos rest, ⟨here, running, notQuote, notBrace, restRead⟩, enough, agrees => by
    subst here
    simp only [Values.depth] at enough
    simp only [beforeNul, bne_iff_ne] at running
    rw [parseValues_token running notQuote notBrace, parseToken_eq]
    refine exec_bind (parseValues_eq { state with config := pos } fuel rest restRead
      (by omega) ?_)
    exact agrees.after _ _ _ _ rfl le_rfl fun k mem => absurd mem not_mark_mem_tokenScript

end

/-- A whole pass executes the script of the outline of its text. -/
theorem runPass_eq {marked : Nat → Bool} {state : ParserState} {heap : Heap} {entries : Entries}
    (read : entries.ReadsAt beforeNul (skipWhitespace state.config))
    (ahead : ∀ k, state.roots ≤ k → heap.roots k = marked k)
    (detect : haveDevices ≤ state.pass ∨ ∀ k, marked k = false) :
    runPass state heap =
      (exec state.pass (blockScript marked state [] 0 none entries).1 state.names heap).map
        (resume (blockScript marked state [] 0 none entries).2) := by
  have enough := entries.depth_le beforeNul_nil read
  have start_le := (skipWhitespace_suffix state.config).length_le
  exact parseConfigString_of_entries state state.config state.names [] 0
    (fun inner => parseEntries_eq _ entries read (by omega) inner rfl) ahead
    (detect.imp_right fun unmarked => ⟨rfl, unmarked⟩)

end RiscvLinux.Config
