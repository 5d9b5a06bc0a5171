import RiscvLinux.Config.Parser
import Mathlib.Data.List.Infix

/-!
# What the operations of the parser do

One lemma for each operation: how far it advances the names cursor, and what it
stores where. No operation below `parse_config_string` moves the text cursor or
the roots cursor, so each new state is the old one with `names` advanced.
-/

namespace RiscvLinux.Config

/-! ## Stores to the names buffer -/

namespace Heap

theorem storeNames_append (heap : Heap) (off : Nat) (first second : Bytes) :
    heap.storeNames off (first ++ second) =
      (heap.storeNames off first).storeNames (off + first.length) second := by
  induction first generalizing heap off with
  | nil => rfl
  | cons c s ih =>
    simp only [List.cons_append, storeNames, ih, List.length_cons]
    congr 1
    omega

/-- A store of a run of bytes changes the buffer and the trace only. -/
theorem storeNames_eq (heap : Heap) (off : Nat) (bytes : Bytes) :
    heap.storeNames off bytes =
      { heap with
        names := (heap.storeNames off bytes).names
        trace := heap.trace ++ (List.range' off bytes.length).map .name } := by
  induction bytes generalizing heap off with
  | nil => simp [storeNames]
  | cons c s ih =>
    rw [storeNames, ih]
    simp [storeName, List.range'_succ]

@[simp] theorem storeNames_roots (heap : Heap) (off : Nat) (bytes : Bytes) :
    (heap.storeNames off bytes).roots = heap.roots := by
  rw [storeNames_eq]

@[simp] theorem storeNames_rootsSize (heap : Heap) (off : Nat) (bytes : Bytes) :
    (heap.storeNames off bytes).rootsSize = heap.rootsSize := by
  rw [storeNames_eq]

@[simp] theorem storeNames_devices (heap : Heap) (off : Nat) (bytes : Bytes) :
    (heap.storeNames off bytes).devices = heap.devices := by
  rw [storeNames_eq]

@[simp] theorem storeNames_resources (heap : Heap) (off : Nat) (bytes : Bytes) :
    (heap.storeNames off bytes).resources = heap.resources := by
  rw [storeNames_eq]

@[simp] theorem storeNames_log (heap : Heap) (off : Nat) (bytes : Bytes) :
    (heap.storeNames off bytes).log = heap.log := by
  rw [storeNames_eq]

theorem storeNames_trace (heap : Heap) (off : Nat) (bytes : Bytes) :
    (heap.storeNames off bytes).trace =
      heap.trace ++ (List.range' off bytes.length).map .name := by
  rw [storeNames_eq]

/-- Outside the run the buffer keeps its bytes. -/
theorem storeNames_names_of_outside (heap : Heap) {off i : Nat} {bytes : Bytes}
    (outside : i < off ∨ off + bytes.length ≤ i) :
    (heap.storeNames off bytes).names i = heap.names i := by
  induction bytes generalizing heap off with
  | nil => rfl
  | cons c s ih =>
    rw [List.length_cons] at outside
    rw [storeNames, ih _ (by omega)]
    exact Function.update_of_ne (by omega) _ _

/-- Inside the run the buffer holds the bytes stored. -/
theorem storeNames_names_add (heap : Heap) (off : Nat) {bytes : Bytes} {i : Nat}
    (inside : i < bytes.length) : (heap.storeNames off bytes).names (off + i) = bytes[i] := by
  induction bytes generalizing heap off i with
  | nil => cases inside
  | cons c s ih =>
    cases i with
    | zero =>
      rw [storeNames, storeNames_names_of_outside _ (by omega)]
      exact Function.update_self ..
    | succ i =>
      have step := ih (heap.storeName off c) (off + 1) (i := i) (by simpa using inside)
      rw [storeNames, show off + (i + 1) = off + 1 + i by omega, step, List.getElem_cons_succ]

end Heap

/-! ## Paths -/

/-- The key of a frame. -/
def Frame.key (frame : Frame) : Bytes := span frame.keyStart frame.keyEnd

theorem Frame.length_key (frame : Frame) :
    frame.key.length = frame.keyStart.length - frame.keyEnd.length := by
  simp [Frame.key, span]

/-- The keys of a chain of frames from the outermost in, each with a `.` after it. -/
def pathText : List Frame → Bytes
  | [] => []
  | frame :: parent => pathText parent ++ (frame.key ++ [dot])

/-- A path as `config_path` stores it, its last `.` replaced by a NUL. -/
def pathStored (parent : List Frame) : Bytes := (pathText parent).dropLast ++ [0]

theorem pathText_ne_nil {parent : List Frame} (nonNull : parent ≠ []) : pathText parent ≠ [] := by
  cases parent with
  | nil => exact absurd rfl nonNull
  | cons frame parent => simp [pathText]

theorem length_pathStored {parent : List Frame} (nonNull : parent ≠ []) :
    (pathStored parent).length = (pathText parent).length := by
  have := List.length_pos_of_ne_nil (pathText_ne_nil nonNull)
  simp only [pathStored, List.length_append, List.length_dropLast, List.length_singleton]
  omega

/-- Store the path of a chain of frames at `off`, with the NUL put over its last
`.` by a second store, as `config_path` does once the names are allocated. -/
def Heap.storePath (heap : Heap) (pass off : Nat) (parent : List Frame) : Heap :=
  if haveNames ≤ pass ∧ parent ≠ [] then
    (heap.storeNames off (pathText parent)).storeName (off + (pathText parent).length - 1) 0
  else heap

/-- The pointer that `config_path` returns. -/
def pathPtr (off : Nat) (parent : List Frame) : NamePtr :=
  if parent = [] then .dot else .names off

theorem configPathHelper_eq (parent : List Frame) (state : ParserState) (heap : Heap) :
    configPathHelper parent state heap =
      ({ state with names := state.names + (pathText parent).length },
        if haveNames ≤ state.pass then heap.storeNames state.names (pathText parent)
        else heap) := by
  induction parent with
  | nil => simp [configPathHelper, pathText, Heap.storeNames]
  | cons frame parent ih =>
    simp only [configPathHelper, ih, pathText, List.length_append, Frame.length_key,
      List.length_singleton, Heap.storeNames_append, Nat.add_assoc]
    split <;> rfl

/-- `config_path` returns where the path starts, advances by the path, and stores
it once the names are allocated. -/
theorem configPath_eq (state : ParserState) (heap : Heap) (parent : List Frame) :
    configPath state heap parent =
      (pathPtr state.names parent,
        { state with names := state.names + (pathText parent).length },
        heap.storePath state.pass state.names parent) := by
  unfold configPath pathPtr Heap.storePath
  by_cases null : parent = []
  · subst null
    simp [pathText]
  · rw [if_neg null, if_neg null, configPathHelper_eq]
    by_cases write : haveNames ≤ state.pass
    · simp [write, null]
    · simp [write]

/-! ## Interfaces and resources -/

/-- `target->driver_override = state->names`, if there is a target. -/
def Heap.setOverride (heap : Heap) (target : Option Nat) (off : Nat) : Heap :=
  match target with
  | some device => heap.setDevice device fun pdev => { pdev with driverOverride := some off }
  | none => heap

/-- What `parse_interface` copies of a value: nothing while measuring, and at most
65536 bytes once the names are allocated. -/
def interfaceStored (pass : Nat) (value : Bytes) : Bytes :=
  (value ++ [0]).take (if haveNames ≤ pass then 65536 else 0)

theorem parseInterface_eq (state : ParserState) (heap : Heap) (target : Option Nat) :
    parseInterface state heap target =
      ({ state with names := state.names + ((stringValue state.config).length + 1) },
        (heap.setOverride target state.names).storeNames state.names
          (interfaceStored state.pass (stringValue state.config))) := by
  unfold parseInterface
  simp only [parseString_eq]
  rfl

/-- Store and count a resource whose path has been stored at `off`. -/
def Heap.putResource (heap : Heap) (device off : Nat) (parent : List Frame) (flags : Nat)
    (start stop : UInt64) : Heap :=
  let pdev := heap.devices device
  let heap := match pdev.resource with
    | some base => heap.storeResource device (base + pdev.numResources)
        ⟨nameOrDot heap (pathPtr off parent), flags, start, stop⟩
    | none => heap
  heap.setDevice device fun pdev => { pdev with numResources := pdev.numResources + 1 }

theorem addResource_eq (state : ParserState) (heap : Heap) (parent : List Frame) (flags : Nat)
    (start stop : UInt64) (device : Nat) :
    addResource state heap parent flags start stop device =
      ({ state with names := state.names + (pathText parent).length },
        (heap.storePath state.pass state.names parent).putResource device state.names parent flags
          start stop) := by
  unfold addResource
  simp only [configPath_eq]
  rfl

/-- The calls for a token value, one after the other. -/
theorem parseToken_bind (env : BlockEnv) (iface : Bool) (flags : Nat) (state : ParserState)
    (heap : Heap) :
    parseToken env iface flags state heap =
      (Except.ok (if iface then parseInterface state heap env.target else (state, heap))).bind
        fun out =>
          (if env.parentFlags ≠ 0 then parseRange out.1 out.2 env.parent env.parentFlags env.target
            else .ok out).bind
          fun out => .ok (if flags ≠ 0 then parseSingle out.1 out.2 env.parent flags env.target
            else out) := by
  unfold parseToken
  by_cases ranged : env.parentFlags ≠ 0
  · simp only [if_pos ranged]
    rfl
  · simp only [if_neg ranged]
    rfl

/-! ## One turn of each loop -/

theorem parseConfigString_succ (fuel : Nat) (state : ParserState) (heap : Heap)
    (parent : List Frame) (flags : Nat) (target : Option Nat) :
    parseConfigString (fuel + 1) state heap parent flags target =
      (enterBlock state heap parent flags target).bind fun out =>
        parseEntries fuel out.1 { out.2.1 with config := skipWhitespace out.2.1.config }
          out.2.2 := rfl

section Turn

variable {fuel : Nat} {env : BlockEnv} {flags : Nat} {iface : Bool} {state : ParserState}
variable {heap : Heap}

theorem parseEntries_entry (running : deref state.config ≠ 0 ∧ deref state.config ≠ closeBrace) :
    parseEntries (fuel + 1) env state heap =
      (Except.ok (takeKey env state heap)).bind fun out =>
        (parseValues fuel env (keyFlags out.1) (parserKeyEq out.1 interfaceKey)
          { out.1 with config := skipWhitespace out.1.config } out.2).bind fun out =>
        (Except.ok (endEntry env out.1 out.2)).bind fun out =>
        parseEntries fuel env out.1 out.2 := by
  rw [parseEntries, if_pos running]
  rfl

theorem parseValues_string (running : deref state.config ≠ 0 ∧ deref state.config ≠ semicolon)
    (atQuote : deref state.config = quote) :
    parseValues (fuel + 1) env flags iface state heap =
      (Except.ok (if iface then parseInterface state heap env.target else (state, heap))).bind
        fun out => parseValues fuel env flags false
          { out.1 with config := skipWhitespace (skipString (inc out.1.config)) } out.2 := by
  rw [parseValues, if_pos running]
  simp only [if_pos atQuote]
  rfl

theorem parseValues_block (running : deref state.config ≠ 0 ∧ deref state.config ≠ semicolon)
    (atBrace : deref state.config = openBrace) :
    parseValues (fuel + 1) env flags iface state heap =
      (parseConfigString fuel
        { state with config := skipNewline (inc state.config), parent := env.parent } heap
        (⟨state.keyStart, state.keyEnd⟩ :: env.parent) flags env.target).bind fun out =>
        parseValues fuel env flags false
          { out.1 with config := skipWhitespace (skipChar closeBrace out.1.config) } out.2 := by
  have notQuote : deref state.config ≠ quote := by rw [atBrace]; decide
  rw [parseValues, if_pos running]
  simp only [if_neg notQuote, if_pos atBrace]
  cases parseConfigString fuel
    { state with config := skipNewline (inc state.config), parent := env.parent } heap
    (⟨state.keyStart, state.keyEnd⟩ :: env.parent) flags env.target <;> rfl

theorem parseValues_token (running : deref state.config ≠ 0 ∧ deref state.config ≠ semicolon)
    (notQuote : deref state.config ≠ quote) (notBrace : deref state.config ≠ openBrace) :
    parseValues (fuel + 1) env flags iface state heap =
      (parseToken env iface flags state heap).bind fun out =>
        parseValues fuel env flags false
          { out.1 with config := skipWhitespace (skipKey (inc out.1.config)) } out.2 := by
  rw [parseValues, if_pos running]
  simp only [if_neg notQuote, if_neg notBrace]
  cases parseToken env iface flags state heap <;> rfl

end Turn

end RiscvLinux.Config
