import RiscvLinux.Config.FindKey
import Mathlib.Logic.Function.Basic

/-!
# The device parser of the config text

`parse_config_string` and `config_find_devices`. The parser runs three times over
the text: pass 0 marks the blocks that are devices, pass 1 counts resources and
measures names, pass 2 writes both. Its state is passed by value, so what a
nested block leaves in `key_start` and `key_end` is what the caller goes on with;
the chain of parent frames holds the callers' states, of which the code reads
the key and the next parent.

The heap is a record of total functions, one for each allocation, with a trace
of the accesses made to it. A `char *` into `names` is an offset from the start
of that buffer, which is address 0 in pass 1.
-/

namespace RiscvLinux.Config

/-- `HAVE_DEVICES` -/
abbrev haveDevices : Nat := 1
/-- `HAVE_NAMES`, and the equal `HAVE_RESOURCES` -/
abbrev haveNames : Nat := 2

/-- `IORESOURCE_MEM`, `IORESOURCE_IRQ` and `IORESOURCE_BUS` of `linux/ioport.h`. -/
abbrev ioresourceMem : Nat := 0x200
abbrev ioresourceIrq : Nat := 0x400
abbrev ioresourceBus : Nat := 0x1000

/-! ## The heap -/

/-- A `const char *` name: the literal `"."`, or a place in the names buffer. -/
inductive NamePtr where
  | dot
  | names (off : Nat)
  deriving DecidableEq, Repr

/-- The fields of `struct resource` that the driver sets. -/
structure Resource where
  name : NamePtr
  flags : Nat
  start : UInt64
  stop : UInt64
  deriving DecidableEq, Repr

/-- The fields of `struct platform_device` that the driver sets, as `kzalloc`
leaves them. `resource` is an index into the resources array. -/
structure PlatformDevice where
  name : Option NamePtr := none
  id : Int := 0
  driverOverride : Option Nat := none
  numResources : Nat := 0
  resource : Option Nat := none
  configStart : Option Cursor := none
  configEnd : Option Cursor := none
  deriving DecidableEq, Repr

/-- The accesses to the heap that a run of the parser makes. -/
inductive Access where
  /-- the device `device` is set up for the block with the flag `root` -/
  | device (root device : Nat)
  /-- the resource at `index` is written for the device `device` -/
  | resource (device index : Nat)
  /-- the byte at `off` of the names buffer is written -/
  | name (off : Nat)
  deriving DecidableEq, Repr

/-- The lines that a run prints at `KERN_ERR`, with the text they quote. -/
inductive Notice where
  /-- `platform: ignoring invalid resource key '%*pE'` -/
  | invalidKey (key : Bytes)
  /-- `platform: ignoring invalid resource value '%*pE'` -/
  | invalidValue (value : Bytes)
  deriving DecidableEq, Repr

/-- The allocations of `config_find_devices`. `roots` has `rootsSize` bytes. -/
structure Heap where
  rootsSize : Nat
  roots : Nat → Bool
  devices : Nat → PlatformDevice
  resources : Nat → Resource
  names : Nat → Byte
  trace : List Access
  log : List Notice

namespace Heap

/-- `*am_root = 1` -/
def setRoot (heap : Heap) (root : Nat) : Heap :=
  { heap with roots := Function.update heap.roots root true }

/-- Assign fields of `devices[device]`. -/
def setDevice (heap : Heap) (device : Nat) (assign : PlatformDevice → PlatformDevice) : Heap :=
  { heap with devices := Function.update heap.devices device (assign (heap.devices device)) }

/-- Store one byte of the names buffer. -/
def storeName (heap : Heap) (off : Nat) (c : Byte) : Heap :=
  { heap with
    names := Function.update heap.names off c
    trace := heap.trace ++ [.name off] }

/-- Store a run of bytes of the names buffer, in order. -/
def storeNames (heap : Heap) : Nat → Bytes → Heap
  | _, [] => heap
  | off, c :: s => (heap.storeName off c).storeNames (off + 1) s

/-- Store a resource of a device. -/
def storeResource (heap : Heap) (device index : Nat) (resource : Resource) : Heap :=
  { heap with
    resources := Function.update heap.resources index resource
    trace := heap.trace ++ [.resource device index] }

/-- `printk` if `lastPass`. -/
def notice (heap : Heap) (lastPass : Bool) (line : Notice) : Heap :=
  if lastPass then { heap with log := heap.log ++ [line] } else heap

/-- `target && target->resource` -/
def lastPass (heap : Heap) : Option Nat → Bool
  | some device => (heap.devices device).resource.isSome
  | none => false

end Heap

/-! ## The parser state -/

/-- What the code reads of a parent's `struct parser_state`: its key. The parent
pointer is the list of the frames from there up, and `NULL` is the empty list. -/
structure Frame where
  keyStart : Cursor
  keyEnd : Cursor
  deriving DecidableEq, Repr

/-- `struct parser_state`. `roots`, `devices` and `names` are offsets into their
allocations. -/
structure ParserState where
  parent : List Frame
  pass : Nat
  roots : Nat
  config : Cursor
  devices : Nat
  names : Nat
  keyStart : Cursor
  keyEnd : Cursor
  deriving DecidableEq, Repr

/-- What stops the kernel in the middle of a run. -/
inductive Fault where
  /-- out of fuel, which is the model's and not the code's -/
  | fuel
  /-- a flag outside the roots allocation is accessed -/
  | roots
  /-- `parent->parent` with a `NULL` parent -/
  | nullParent
  deriving DecidableEq, Repr

/-- The bytes from `start` up to `stop`. -/
def span (start stop : Cursor) : Bytes := start.take (start.length - stop.length)

/-- `parser_key_eq` -/
def parserKeyEq (state : ParserState) (key : Bytes) : Bool :=
  span state.keyStart state.keyEnd == key

/-- `"interface"` -/
def interfaceKey : Bytes := [105, 110, 116, 101, 114, 102, 97, 99, 101]
/-- `"irq"` -/
def irqKey : Bytes := [105, 114, 113]
/-- `"bus"` -/
def busKey : Bytes := [98, 117, 115]
/-- `"mem"` -/
def memKey : Bytes := [109, 101, 109]

/-- The three tests that set `flags` from the key, the last match winning. -/
def keyFlags (state : ParserState) : Nat :=
  let flags := 0
  let flags := if parserKeyEq state irqKey then ioresourceIrq else flags
  let flags := if parserKeyEq state busKey then ioresourceBus else flags
  if parserKeyEq state memKey then ioresourceMem else flags

/-! ## Names -/

/-- `config_path_helper`, whose parent must not be `NULL`. -/
def configPathHelper : List Frame → ParserState → Heap → ParserState × Heap
  | [], state, heap => (state, heap)
  | frame :: parent, state, heap =>
    let len := frame.keyStart.length - frame.keyEnd.length
    let (state, heap) := configPathHelper parent state heap
    let heap := if haveNames ≤ state.pass
      then (heap.storeNames state.names (frame.keyStart.take len)).storeName (state.names + len) dot
      else heap
    ({ state with names := state.names + len + 1 }, heap)

/-- `config_path` -/
def configPath (state : ParserState) (heap : Heap) (parent : List Frame) :
    NamePtr × ParserState × Heap :=
  if parent = [] then (.dot, state, heap)
  else
    let output := state.names
    let (state, heap) := configPathHelper parent state heap
    let heap := if haveNames ≤ state.pass then heap.storeName (state.names - 1) 0 else heap
    (.names output, state, heap)

/-- `parse_interface` -/
def parseInterface (state : ParserState) (heap : Heap) (target : Option Nat) :
    ParserState × Heap :=
  let len := if haveNames ≤ state.pass then 65536 else 0
  let heap := match target with
    | some device =>
      heap.setDevice device fun pdev => { pdev with driverOverride := some state.names }
    | none => heap
  let (out, stored) := parseString state.config len
  ({ state with names := state.names + out }, heap.storeNames state.names stored)

/-! ## Resources -/

/-- `*name?name:"."` -/
def nameOrDot (heap : Heap) : NamePtr → NamePtr
  | .dot => .dot
  | .names off => if heap.names off ≠ 0 then .names off else .dot

/-- The end of `parse_range` and `parse_single`, which is the same text in both:
name the resource, store it if the resources are allocated, and count it. -/
def addResource (state : ParserState) (heap : Heap) (parent : List Frame) (flags : Nat)
    (start stop : UInt64) (device : Nat) : ParserState × Heap :=
  let (name, state, heap) := configPath state heap parent
  let pdev := heap.devices device
  let heap := match pdev.resource with
    | some base => heap.storeResource device (base + pdev.numResources)
        ⟨nameOrDot heap name, flags, start, stop⟩
    | none => heap
  (state, heap.setDevice device fun pdev => { pdev with numResources := pdev.numResources + 1 })

/-- `parse_range` -/
def parseRange (state : ParserState) (heap : Heap) (parent : List Frame) (flags : Nat)
    (target : Option Nat) : Except Fault (ParserState × Heap) :=
  let valueTail := skipKey state.config
  let (valueEnd, value) := parseU64 state.config
  let (keyEnd, key) := parseU64 state.keyStart
  if keyEnd.length ≠ state.keyEnd.length then
    .ok (state, heap.notice (heap.lastPass target) (.invalidKey (span state.keyStart state.keyEnd)))
  else if valueEnd.length ≠ valueTail.length then
    .ok (state, heap.notice (heap.lastPass target) (.invalidValue (span state.config valueTail)))
  else
    match target, parent with
    | none, _ => .ok (state, heap)
    | some _, [] => .error .nullParent
    | some device, _ :: parent => .ok (addResource state heap parent flags key value device)

/-- `parse_single` -/
def parseSingle (state : ParserState) (heap : Heap) (parent : List Frame) (flags : Nat)
    (target : Option Nat) : ParserState × Heap :=
  let valueTail := skipKey state.config
  let (valueEnd, value) := parseU64 state.config
  if valueEnd.length ≠ valueTail.length then
    (state, heap.notice (heap.lastPass target) (.invalidValue (span state.config valueTail)))
  else
    match target with
    | none => (state, heap)
    | some device => addResource state heap parent flags value value device

/-! ## `parse_config_string` -/

/-- What a call of `parse_config_string` keeps in its own frame besides the
state: its flag, its parent and target after the root test, and the flags of the
key whose value it is. -/
structure BlockEnv where
  amRoot : Nat
  parent : List Frame
  parentFlags : Nat
  target : Option Nat

/-- The start of `parse_config_string`: take the next flag, and set up the device
if the block is a root. -/
def enterBlock (state : ParserState) (heap : Heap) (parent : List Frame) (parentFlags : Nat)
    (target : Option Nat) : Except Fault (BlockEnv × ParserState × Heap) :=
  let amRoot := state.roots
  let state := { state with roots := state.roots + 1 }
  if heap.rootsSize ≤ amRoot then .error .roots
  else if heap.roots amRoot then
    let (target, state, heap) :=
      if haveDevices ≤ state.pass then
        let device := state.devices
        let (name, state, heap) := configPath state heap parent
        let heap := heap.setDevice device fun pdev =>
          { pdev with
            name := some name
            id := -1
            numResources := 0
            configStart := some state.config
            configEnd := some state.config }
        (some device, state, { heap with trace := heap.trace ++ [.device amRoot device] })
      else (target, state, heap)
    .ok (⟨amRoot, [], parentFlags, target⟩, { state with devices := state.devices + 1 }, heap)
  else .ok (⟨amRoot, parent, parentFlags, target⟩, state, heap)

/-- A key of the block: `key_start` to `key_end`, with the root flag set by an
`interface` key. -/
def takeKey (env : BlockEnv) (state : ParserState) (heap : Heap) : ParserState × Heap :=
  let keyStart := state.config
  let keyEnd := skipKey state.config
  let state := { state with keyStart := keyStart, config := keyEnd, keyEnd := keyEnd }
  (state, if parserKeyEq state interfaceKey then heap.setRoot env.amRoot else heap)

/-- The three calls for a token value. -/
def parseToken (env : BlockEnv) (iface : Bool) (flags : Nat) (state : ParserState) (heap : Heap) :
    Except Fault (ParserState × Heap) := do
  let (state, heap) := if iface then parseInterface state heap env.target else (state, heap)
  let (state, heap) ←
    if env.parentFlags ≠ 0 then parseRange state heap env.parent env.parentFlags env.target
    else .ok (state, heap)
  return if flags ≠ 0 then parseSingle state heap env.parent flags env.target else (state, heap)

/-- The end of an entry: step over its `;` and move the end of the device. -/
def endEntry (env : BlockEnv) (state : ParserState) (heap : Heap) : ParserState × Heap :=
  let state := { state with config := skipChar semicolon state.config }
  let heap := match env.target with
    | some device =>
      if heap.roots env.amRoot && decide (haveDevices ≤ state.pass) then
        heap.setDevice device fun pdev =>
          { pdev with configEnd := some (skipNewline state.config) }
      else heap
    | none => heap
  ({ state with config := skipWhitespace state.config }, heap)

mutual

/-- `parse_config_string` -/
def parseConfigString : Nat → ParserState → Heap → List Frame → Nat → Option Nat →
    Except Fault (ParserState × Heap)
  | 0, _, _, _, _, _ => .error .fuel
  | fuel + 1, state, heap, parent, parentFlags, target => do
    let (env, state, heap) ← enterBlock state heap parent parentFlags target
    parseEntries fuel env { state with config := skipWhitespace state.config } heap

/-- The loop of `parse_config_string` over the entries of a block. -/
def parseEntries : Nat → BlockEnv → ParserState → Heap → Except Fault (ParserState × Heap)
  | 0, _, _, _ => .error .fuel
  | fuel + 1, env, state, heap =>
    if deref state.config ≠ 0 ∧ deref state.config ≠ closeBrace then do
      let (state, heap) := takeKey env state heap
      let iface := parserKeyEq state interfaceKey
      let flags := keyFlags state
      let (state, heap) ← parseValues fuel env flags iface
        { state with config := skipWhitespace state.config } heap
      let (state, heap) := endEntry env state heap
      parseEntries fuel env state heap
    else .ok (state, heap)

/-- The loop of `parse_config_string` over the values of one entry. -/
def parseValues : Nat → BlockEnv → Nat → Bool → ParserState → Heap →
    Except Fault (ParserState × Heap)
  | 0, _, _, _, _, _ => .error .fuel
  | fuel + 1, env, flags, iface, state, heap =>
    if deref state.config ≠ 0 ∧ deref state.config ≠ semicolon then do
      let (state, heap) ←
        if deref state.config = quote then
          let (state, heap) := if iface then parseInterface state heap env.target else (state, heap)
          .ok ({ state with config := skipString (inc state.config) }, heap)
        else if deref state.config = openBrace then do
          let state := { state with
            config := skipNewline (inc state.config)
            parent := env.parent }
          let (state, heap) ← parseConfigString fuel state heap
            (⟨state.keyStart, state.keyEnd⟩ :: state.parent) flags env.target
          .ok ({ state with config := skipChar closeBrace state.config }, heap)
        else do
          let (state, heap) ← parseToken env iface flags state heap
          .ok ({ state with config := skipKey (inc state.config) }, heap)
      parseValues fuel env flags false { state with config := skipWhitespace state.config } heap
    else .ok (state, heap)

end

/-! ## `config_find_devices` -/

/-- A whole pass: `parse_config_string(state, 0, 0, 0)`. -/
def runPass (state : ParserState) (heap : Heap) : Except Fault (ParserState × Heap) :=
  parseConfigString (3 * state.config.length + 3) state heap [] 0 none

/-- `for (r = roots; r != state.roots; ++r) num_devices += *r;` -/
def countRoots (heap : Heap) (roots : Nat) : Nat := (List.range roots).countP heap.roots

/-- The loop that gives each device its slice of the resources array: the devices
and the number of resources given out. -/
def assignSlices (devices : Nat → PlatformDevice) : Nat → (Nat → PlatformDevice) × Nat
  | 0 => (devices, 0)
  | i + 1 =>
    let (devices, numResources) := assignSlices devices i
    (Function.update devices i { devices i with resource := some numResources },
      numResources + (devices i).numResources)

/-- What `config_find_devices` leaves behind, with the end of each of its passes. -/
structure Found where
  numDevices : Nat
  numResources : Nat
  sizeNames : Nat
  pass0 : ParserState × Heap
  pass1 : ParserState × Heap
  pass2 : ParserState × Heap

/-- `config_find_devices`, with every allocation granted. `uninit` is the parser
state before it is assigned, and `resources` and `names` are what the grown
allocation holds before pass 2 writes it. -/
def configFindDevices (uninit : ParserState) (resources : Nat → Resource) (names : Nat → Byte)
    (config : Cursor) : Except Fault Found := do
  let heap : Heap :=
    { rootsSize := strlen config
      roots := fun _ => false
      devices := fun _ => {}
      resources := resources
      names := names
      trace := []
      log := [] }
  -- pass 0: detect roots
  let pass0 ← runPass { uninit with pass := 0, roots := 0, config := config } heap
  let numDevices := countRoots pass0.2 pass0.1.roots
  -- pass 1: detect resources and names
  let pass1 ← runPass
    { pass0.1 with pass := 1, roots := 0, config := config, devices := 0, names := 0 }
    { pass0.2 with devices := fun _ => {}, trace := [] }
  let sizeNames := pass1.1.names
  let (devices, numResources) := assignSlices pass1.2.devices numDevices
  -- pass 2: write resources and names
  let pass2 ← runPass
    { pass1.1 with pass := 2, roots := 0, config := config, devices := 0, names := 0 }
    { pass1.2 with devices := devices, resources := resources, names := names, trace := [] }
  return { numDevices, numResources, sizeNames, pass0, pass1, pass2 }

end RiscvLinux.Config
