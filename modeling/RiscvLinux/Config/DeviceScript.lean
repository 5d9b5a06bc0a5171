import RiscvLinux.Config.Built
import RiscvLinux.Config.Faults

/-!
# The script of a document

What a pass does to a printed document, in terms of the document: which flags it has
(`Doc.flags_outline`), that nothing stops it (`Doc.scriptFault_passScript`) and which devices its
script describes (`Doc.builtFrom_script`).
-/

namespace RiscvLinux.Config

/-! ## The blocks of a document -/

/-! ## The blocks of a document -/

theorem keyAt_print {key : Key} {gap : Blank} {values : Vals} {after : Blank} {rest : Doc}
    (tail : Bytes) (apart : gap.bytes = [] → ¬ values.StartsWithToken) :
    keyAt ((Doc.entry key gap values after rest).print tail) = key.bytes := by
  rw [keyAt, Doc.skipKey_print tail apart, Doc.print, span_append]

/-- The key of an entry. -/
theorem keyOf_entry {key : Key} {gap : Blank} {values : Vals} {after : Blank} {rest : Doc}
    (tail : Bytes) (state : ParserState) (apart : gap.bytes = [] → ¬ values.StartsWithToken) :
    KeyOf (keyState state ((Doc.entry key gap values after rest).print tail)) key.bytes := by
  have keyOf := keyOf_keyState state ((Doc.entry key gap values after rest).print tail)
  rwa [keyAt_print tail apart] at keyOf

mutual

/-- Which of the blocks in a block are devices, in the order in which they open. -/
def Doc.flags : Doc → List Bool
  | .nil => []
  | .entry _ _ values _ rest => values.flags ++ rest.flags

def Vals.flags : Vals → List Bool
  | .nil => []
  | .string _ _ rest => rest.flags
  | .block _ body _ rest => (body.hasInterface :: body.flags) ++ rest.flags
  | .token _ _ rest => rest.flags

end

mutual

/-- The outline of a document has the flags of the document. -/
theorem Doc.flags_outline (tail : Bytes) : ∀ doc : Doc, doc.WellFormed →
    (doc.outline tail).flags = doc.flags ∧ (doc.outline tail).hasInterface = doc.hasInterface
  | .nil, _ => ⟨rfl, rfl⟩
  | .entry key gap values after rest, wellFormed => by
    rcases wellFormed with ⟨-, apart, valuesFormed, restFormed⟩
    have keyEq := @keyAt_print key gap values after rest tail apart
    obtain ⟨laterFlags, laterInterface⟩ := rest.flags_outline tail restFormed
    constructor
    · rw [Doc.outline, Entries.flags, values.flags_outline _ valuesFormed, laterFlags, Doc.flags]
    · rw [Doc.outline, Entries.hasInterface, keyEq, laterInterface, Doc.hasInterface]

theorem Vals.flags_outline (tail : Bytes) : ∀ values : Vals, values.WellFormed →
    (values.outline tail).flags = values.flags
  | .nil, _ => rfl
  | .string _ _ rest, wellFormed => rest.flags_outline _ wellFormed
  | .block _ body _ rest, wellFormed => by
    rcases wellFormed with ⟨bodyFormed, restFormed⟩
    obtain ⟨inside, interface⟩ := body.flags_outline _ bodyFormed
    rw [Vals.outline, Values.flags, inside, interface, rest.flags_outline _ restFormed, Vals.flags]
  | .token _ _ rest, wellFormed => rest.flags_outline _ wellFormed.2

end

section Roots

variable {marked : Nat → Bool}

theorem Vals.script_roots {env : BlockEnv} {flags : Nat} {iface : Bool} {state : ParserState}
    {tail : Bytes} (values : Vals) (wellFormed : values.WellFormed) :
    ((values.outline tail).script marked env flags iface state).2.roots =
      state.roots + values.flags.length := by
  rw [Values.script_roots, values.flags_outline _ wellFormed]

theorem Doc.blockScript_roots {state : ParserState} {parent : List Frame} {flags : Nat}
    {target : Option Nat} {tail : Bytes} (doc : Doc) (wellFormed : doc.WellFormed) :
    (blockScript marked state parent flags target (doc.outline tail)).2.roots =
      state.roots + (doc.hasInterface :: doc.flags).length := by
  obtain ⟨inside, interface⟩ := doc.flags_outline tail wellFormed
  rw [RiscvLinux.Config.blockScript_roots, inside, interface]

end Roots

/-! ## Nothing stops the pass -/

mutual

/-- A document in which no resource block is a device has a parent for every range. -/
theorem Doc.hitsNull_outline {tail : Bytes} : ∀ doc : Doc, doc.WellFormed →
    doc.ResourceBlocksPlain → (doc.outline tail).hitsNull false = false
  | .nil, _, _ => rfl
  | .entry key gap values after rest, wellFormed, plain => by
    rcases wellFormed with ⟨-, apart, valuesFormed, restFormed⟩
    rw [Doc.outline, Entries.hitsNull, keyAt_print tail apart,
      values.hitsNull_outline valuesFormed plain.1, rest.hitsNull_outline restFormed plain.2,
      Bool.or_false]

theorem Vals.hitsNull_outline {key tail : Bytes} {before : List Bytes} : ∀ values : Vals,
    values.WellFormed → values.ResourceBlocksPlain key →
    (values.outline tail).hitsNull false key before = false
  | .nil, _, _ => rfl
  | .string body after rest, wellFormed, plain => rest.hitsNull_outline wellFormed plain
  | .block lead body after rest, wellFormed, plain => by
    rcases plain with ⟨notDevice, bodyPlain, restPlain⟩
    have noOrphan : ((resourceFlags key).isSome &&
        (body.outline (closeBrace :: (after.bytes ++ rest.print tail))).hasInterface) = false := by
      rw [(body.flags_outline _ wellFormed.1).2]
      cases resource : (resourceFlags key).isSome with
      | false => rfl
      | true => exact notDevice resource
    rw [Vals.outline, Values.hitsNull, noOrphan, body.hitsNull_outline wellFormed.1 bodyPlain,
      rest.hitsNull_outline wellFormed.2 restPlain, Bool.or_false]
  | .token word after rest, wellFormed, plain => by
    rw [Vals.outline, Values.hitsNull, rest.hitsNull_outline wellFormed.2 plain, Bool.false_and,
      Bool.false_and, Bool.or_false]

end

/-! ## The devices that the script describes -/

/-- Give a device an override, if there is one, and more resources. -/
def DeviceSpec.extend (value : Option Bytes) (resources : List ResourceSpec) (device : DeviceSpec) :
    DeviceSpec :=
  { device with
    driverOverride := value.or device.driverOverride
    resources := device.resources ++ resources }

/-- The devices after a part of the text with an override and resources for the target. -/
def extendTarget (target : Option Nat) (value : Option Bytes) (resources : List ResourceSpec)
    (devices : List DeviceSpec) : List DeviceSpec :=
  match target with
  | some index => devices.modify index (.extend value resources)
  | none => devices

section Extend

variable {target : Option Nat} {value more : Option Bytes} {resources others : List ResourceSpec}
variable {devices later : List DeviceSpec}

theorem extendTarget_nil : extendTarget target none [] devices = devices := by
  cases target with
  | none => rfl
  | some index =>
    have same : DeviceSpec.extend none [] = id := by
      funext device
      simp [DeviceSpec.extend]
    rw [extendTarget, same, List.modify_id]

@[simp] theorem length_extendTarget :
    (extendTarget target value resources devices).length = devices.length := by
  cases target <;> simp [extendTarget]

theorem extendTarget_extendTarget :
    extendTarget target more others (extendTarget target value resources devices) =
      extendTarget target (more.or value) (resources ++ others) devices := by
  cases target with
  | none => rfl
  | some index =>
    have compose : DeviceSpec.extend more others ∘ DeviceSpec.extend value resources =
        DeviceSpec.extend (more.or value) (resources ++ others) := by
      funext device
      simp [DeviceSpec.extend, Option.or_assoc]
    simp only [extendTarget]
    rw [List.modify_modify_eq, compose]

theorem extendTarget_append (below : ∀ index, target = some index → index < devices.length) :
    extendTarget target value resources (devices ++ later) =
      extendTarget target value resources devices ++ later := by
  cases target with
  | none => rfl
  | some index =>
    have inside := below index rfl
    simp only [extendTarget]
    rw [List.modify_eq_take_cons_drop (by rw [List.length_append]; omega),
      List.modify_eq_take_cons_drop inside, List.take_append_of_le_length inside.le,
      List.drop_append_of_le_length inside, List.getElem_append_left inside, List.append_assoc,
      List.cons_append]

theorem extendTarget_last (device : DeviceSpec) :
    extendTarget (some devices.length) value resources (devices ++ [device]) =
      devices ++ [device.extend value resources] := by
  simp only [extendTarget]
  rw [List.modify_eq_take_cons_drop (by simp)]
  simp

end Extend

theorem builtFrom_append (devices : List DeviceSpec) (script more : List Action) :
    builtFrom devices (script ++ more) = builtFrom (builtFrom devices script) more :=
  List.foldl_append

/-! ### Paths of frames -/

/-- The keys of a chain of frames, from the outermost in. -/
def framePath (frames : List Frame) : List Bytes := (frames.map Frame.key).reverse

theorem framePath_cons (frame : Frame) (frames : List Frame) :
    framePath (frame :: frames) = framePath frames ++ [frame.key] := by
  simp [framePath]

theorem intercalate_concat (sep key : Bytes) (path : List Bytes) :
    sep.intercalate (path ++ [key]) = (path.map (· ++ sep)).flatten ++ key := by
  induction path with
  | nil => simp
  | cons first path ih =>
    obtain ⟨second, others, eq⟩ := List.exists_cons_of_ne_nil (show path ++ [key] ≠ [] by simp)
    rw [List.cons_append, eq, List.intercalate_cons_cons, ← eq, ih]
    simp

theorem pathText_eq (frames : List Frame) :
    pathText frames = ((framePath frames).map (· ++ [dot])).flatten := by
  induction frames with
  | nil => rfl
  | cons frame frames ih => simp [pathText, framePath_cons, ih]

/-- The name that `config_path` stores is the path of its frames. -/
theorem pathName_eq (frames : List Frame) : pathName frames = dotted (framePath frames) := by
  cases frames with
  | nil => rfl
  | cons frame frames =>
    rw [pathName, if_neg (List.cons_ne_nil _ _), dotted, framePath_cons, if_neg (by simp),
      intercalate_concat, pathText, pathText_eq, ← List.append_assoc, List.dropLast_concat]

/-- Every frame has a key. -/
def Named (frames : List Frame) : Prop :=
  ∀ frame ∈ frames, deref frame.key ≠ 0

theorem deref_append_ne_zero {s : Bytes} (rest : Bytes) (nonzero : deref s ≠ 0) :
    deref (s ++ rest) ≠ 0 := by
  cases s with
  | nil => exact absurd rfl nonzero
  | cons c s => exact nonzero

theorem deref_pathText_append_ne_zero {frames : List Frame} (named : Named frames) {key : Bytes}
    (nonzero : deref key ≠ 0) : deref (pathText frames ++ key) ≠ 0 := by
  induction frames generalizing key with
  | nil => exact nonzero
  | cons frame frames ih =>
    rw [pathText, List.append_assoc]
    refine ih (fun other mem => named other (List.mem_cons_of_mem frame mem)) ?_
    rw [List.append_assoc]
    exact deref_append_ne_zero _ (named frame (List.mem_cons_self ..))

/-- A path of keys is shown as it is. -/
theorem resourceName_eq {frames : List Frame} (named : Named frames) :
    resourceName frames = dotted (framePath frames) := by
  have shown : deref (pathName frames) ≠ 0 := by
    cases frames with
    | nil => decide
    | cons frame frames =>
      rw [pathName, if_neg (List.cons_ne_nil _ _), pathText, ← List.append_assoc,
        List.dropLast_concat]
      exact deref_pathText_append_ne_zero
        (fun other mem => named other (List.mem_cons_of_mem frame mem))
        (named frame (List.mem_cons_self ..))
  rw [resourceName, if_neg shown, pathName_eq]

/-! ### Tokens -/

/-- The token that the state is at. -/
structure TokenAt (state : ParserState) (word : Bytes) : Prop where
  start : state.config = word ++ skipKey state.config
  apart : isKeyChar (deref (skipKey state.config)) = false

/-- What a block stands for in the document: the path that leads to it, the path and flags of the
resource key that it is the value of, and a target that has been set up. -/
structure Stands (env : BlockEnv) (path : List Bytes) (outer : Option (List Bytes × Nat))
    (devices : Nat) : Prop where
  path : framePath env.parent = path
  named : Named env.parent
  ranged : env.parentFlags = (outer.map Prod.snd).getD 0
  outer : ∀ held, outer = some held →
    held.2 ≠ 0 ∧ ∃ frame parent, env.parent = frame :: parent ∧ framePath parent = held.1
  target : env.TargetBelow devices

theorem filterMap_toList {α β : Type} (f : α → Option β) (a : α) :
    (some a).toList.filterMap f = (f a).toList := by
  cases eq : f a <;> simp [eq]

section Token

variable {env : BlockEnv} {path : List Bytes} {outer : Option (List Bytes × Nat)}
variable {devices : List DeviceSpec} {state : ParserState} {key word : Bytes}

theorem builtFrom_ifaceScript (iface : Bool) (str : Cursor) :
    builtFrom devices (ifaceScript env iface str) =
      extendTarget env.target (if iface then some (stringValue str) else none) [] devices := by
  unfold ifaceScript
  cases iface with
  | false => exact extendTarget_nil.symm
  | true =>
    cases target : env.target with
    | none => rfl
    | some index =>
      have same : DeviceSpec.override (stringValue str) =
          DeviceSpec.extend (some (stringValue str)) [] := by
        funext device
        simp [DeviceSpec.override, DeviceSpec.extend]
      simp [builtFrom, Action.build, extendTarget, same]

/-- One resource for the target. -/
theorem builtFrom_resource (parent : List Frame) (flags : Nat) (start stop : UInt64) :
    builtFrom devices (match env.target with
      | none => []
      | some device => [.resource device parent flags start stop]) =
      extendTarget env.target none [⟨resourceName parent, flags, start, stop⟩] devices := by
  cases env.target <;> rfl

theorem builtFrom_singleScript (tokenAt : TokenAt state word) (flags : Nat) :
    builtFrom devices (singleScript env flags state) =
      extendTarget env.target none
        ((Candidate.mk (resourceName env.parent) flags word word).resource readNumber).toList
        devices := by
  have reads := parseU64_reads word tokenAt.apart
  rw [← tokenAt.start] at reads
  unfold singleScript Candidate.resource
  dsimp only
  rw [← reads]
  split
  · exact extendTarget_nil.symm
  · exact builtFrom_resource ..

theorem builtFrom_rangeScript (keyOf : KeyOf state key) (tokenAt : TokenAt state word)
    {frame : Frame} {parent : List Frame} (held : env.parent = frame :: parent) :
    builtFrom devices (rangeScript env state) =
      extendTarget env.target none
        ((Candidate.mk (resourceName parent) env.parentFlags key word).resource readNumber).toList
        devices := by
  have readsValue := parseU64_reads word tokenAt.apart
  have readsKey := parseU64_reads key keyOf.apart
  rw [← tokenAt.start] at readsValue
  rw [← keyOf.start] at readsKey
  unfold rangeScript Candidate.resource
  dsimp only
  rw [← readsValue, ← readsKey, held]
  split
  · exact extendTarget_nil.symm
  · split
    · exact extendTarget_nil.symm
    · cases env.target <;> rfl

/-- A token describes what its candidates are read as. -/
theorem builtFrom_tokenScript (keyOf : KeyOf state key) (tokenAt : TokenAt state word)
    {count : Nat} (stands : Stands env path outer count) (iface : Bool) :
    builtFrom devices (tokenScript env iface (keyFlags state) state) =
      extendTarget env.target (if iface then some (stringValue state.config) else none)
        ((tokenCandidates path outer key word).filterMap (Candidate.resource readNumber))
          devices := by
  have ranges : ∀ devices, builtFrom devices
      (if env.parentFlags ≠ 0 then rangeScript env state else []) =
        extendTarget env.target none
          ((outer.map fun held => (⟨dotted held.1, held.2, key, word⟩ : Candidate)).toList.filterMap
            (Candidate.resource readNumber)) devices := by
    intro devices
    rw [stands.ranged]
    cases held : outer with
    | none => exact extendTarget_nil.symm
    | some held =>
      subst held
      obtain ⟨nonzero, frame, parent, eq, inside⟩ := stands.outer held rfl
      have named : Named parent := fun other mem =>
        stands.named other (eq ▸ List.mem_cons_of_mem frame mem)
      rw [if_pos (by simpa using nonzero), builtFrom_rangeScript keyOf tokenAt eq,
        resourceName_eq named, inside, stands.ranged]
      exact congrArg (extendTarget env.target none · devices) (filterMap_toList _ _).symm
  have singles : ∀ devices, builtFrom devices
      (if keyFlags state ≠ 0 then singleScript env (keyFlags state) state else []) =
        extendTarget env.target none
          (((resourceFlags key).map
              fun flags => (⟨dotted path, flags, word, word⟩ : Candidate)).toList.filterMap
            (Candidate.resource readNumber)) devices := by
    intro devices
    rw [keyOf.keyFlags_eq]
    cases held : resourceFlags key with
    | none => exact extendTarget_nil.symm
    | some flags =>
      rw [Option.getD_some, if_pos (resourceFlags_ne_zero held), builtFrom_singleScript tokenAt,
        resourceName_eq stands.named, stands.path]
      exact congrArg (extendTarget env.target none · devices) (filterMap_toList _ _).symm
  rw [tokenScript, builtFrom_append, builtFrom_append, builtFrom_ifaceScript, ranges, singles,
    extendTarget_extendTarget, extendTarget_extendTarget, tokenCandidates, List.filterMap_append]
  rfl

end Token

/-! ### Values -/

theorem stringValue_string (body : Quoted) (rest : Cursor) :
    stringValue (quote :: (body.bytes ++ quote :: rest)) = unescape body.bytes := by
  rw [stringValue, deref_cons, if_pos rfl, inc_cons, unescape_append _ _ body.plain]

theorem stringValue_token (word : Token) {rest : Cursor} (apart : isKeyChar (deref rest) = false) :
    stringValue (word.bytes ++ rest) = word.bytes := by
  obtain ⟨c, s, bytes⟩ := List.exists_cons_of_ne_nil word.nonempty
  have notQuote : deref (word.bytes ++ rest) ≠ quote := by
    rw [bytes]
    exact (ne_of_isKeyChar (word.keyChars c (by simp [bytes]))).2.1
  rw [stringValue, if_neg notQuote, tokenBytes, List.takeWhile_append_of_pos word.keyChars]
  cases rest with
  | nil => simp
  | cons d rest =>
    rw [deref_cons] at apart
    simp [apart]

/-- The token of an entry. -/
theorem tokenAt_token {word : Token} {after : Blank} {rest : Vals} (tail : Bytes)
    (state : ParserState) (apart : after.bytes = [] → ¬ rest.StartsWithToken) :
    TokenAt { state with config := (Vals.token word after rest).print (semicolon :: tail) }
      word.bytes := by
  have ends : isKeyChar (deref (after.bytes ++ rest.print (semicolon :: tail))) = false :=
    after.isKeyChar_deref fun none => (rest.deref_print tail).2.1 (apart none)
  have skips : skipKey ((Vals.token word after rest).print (semicolon :: tail)) =
      after.bytes ++ rest.print (semicolon :: tail) := dropWhile_append_of_deref word.keyChars ends
  constructor
  · dsimp only
    rw [skips]
    rfl
  · dsimp only
    rw [skips]
    exact ends

theorem Doc.interface_eq_none : ∀ doc : Doc, doc.hasInterface = false → doc.interface = none
  | .nil, _ => rfl
  | .entry key gap values after rest, plain => by
    rw [Doc.hasInterface, Bool.or_eq_false_iff, beq_eq_false_iff_ne] at plain
    rw [Doc.interface, rest.interface_eq_none plain.2, if_neg plain.1]
    rfl

/-- The devices of a block and of the blocks in it, as the script of the block describes them. -/
def Doc.describe (doc : Doc) (path : List Bytes) (outer : Option (List Bytes × Nat))
    (target : Option Nat) (devices : List DeviceSpec) : List DeviceSpec :=
  extendTarget target doc.interface
      ((doc.candidates path outer).filterMap (Candidate.resource readNumber)) devices ++
    (doc.innerDevices path).map (DeviceText.read readNumber)

def Vals.describe (values : Vals) (path : List Bytes) (outer : Option (List Bytes × Nat))
    (key : Bytes) (target : Option Nat) (devices : List DeviceSpec) : List DeviceSpec :=
  extendTarget target (if key = interfaceKey then values.decoded else none)
      ((values.candidates path outer key).filterMap (Candidate.resource readNumber)) devices ++
    (values.innerDevices path key).map (DeviceText.read readNumber)

theorem Vals.length_le_describe (values : Vals) (path : List Bytes)
    (outer : Option (List Bytes × Nat)) (key : Bytes) (target : Option Nat)
    (devices : List DeviceSpec) :
    devices.length ≤ (values.describe path outer key target devices).length := by
  simp [Vals.describe]

/-- The entries of a block add to its device one after the other. -/
theorem Doc.describe_entry {key : Key} {gap : Blank} {values : Vals} {after : Blank} {rest : Doc}
    {path : List Bytes} {outer : Option (List Bytes × Nat)} {target : Option Nat}
    {devices : List DeviceSpec} (below : ∀ index, target = some index → index < devices.length) :
    rest.describe path outer target (values.describe path outer key.bytes target devices) =
      (Doc.entry key gap values after rest).describe path outer target devices := by
  unfold Doc.describe Vals.describe
  rw [extendTarget_append (by simpa using below), extendTarget_extendTarget, Doc.interface,
    Doc.candidates, Doc.innerDevices, List.filterMap_append, List.map_append, List.append_assoc]

theorem builtFrom_keyScript (devices : List DeviceSpec) (env : BlockEnv) (state : ParserState) :
    builtFrom devices (keyScript env state) = devices := by
  unfold keyScript
  split <;> rfl

theorem builtFrom_finishScript (devices : List DeviceSpec) (env : BlockEnv) (root : Bool)
    (str : Cursor) : builtFrom devices (finishScript env root str) = devices := by
  unfold finishScript
  split
  · split <;> rfl
  · rfl

/-- A block as the script that enters it describes it: as a device of its own, or as a part of the
device around it. -/
def Doc.describeBlock (doc : Doc) (path : List Bytes) (outer : Option (List Bytes × Nat))
    (target : Option Nat) (devices : List DeviceSpec) : List DeviceSpec :=
  if doc.hasInterface then
    devices ++ ((⟨dotted path, doc.interface, doc.candidates [] none⟩ :: doc.innerDevices []).map
      (DeviceText.read readNumber))
  else doc.describe path outer target devices

/-- A block as the value of an entry. -/
theorem Vals.describe_block (lead : Blank) (body : Doc) (after : Blank) (path : List Bytes)
    (outer : Option (List Bytes × Nat)) (key : Bytes) (target : Option Nat)
    (devices : List DeviceSpec) :
    (Vals.block lead body after .nil).describe path outer key target devices =
      body.describeBlock (path ++ [key]) ((resourceFlags key).map fun flags => (path, flags)) target
        devices := by
  simp only [Vals.describe, Vals.decoded, ite_self, Vals.candidates, Vals.innerDevices,
    List.append_nil, Doc.describeBlock]
  cases device : body.hasInterface with
  | false =>
    rw [Doc.describe, body.interface_eq_none device]
    rfl
  | true =>
    simp only [if_true, List.filterMap_nil]
    rw [extendTarget_nil]

theorem resourceFlags_eq_none {key : Bytes} {flag : Bool}
    (plain : (resourceFlags key).isSome → flag = false) (device : flag = true) :
    resourceFlags key = none := by
  cases held : resourceFlags key with
  | none => rfl
  | some flags =>
    have clash := plain (by rw [held]; rfl)
    rw [device] at clash
    cases clash

/-- A block that is not a device stands for a longer path. -/
theorem Stands.enter {env : BlockEnv} {path : List Bytes} {outer : Option (List Bytes × Nat)}
    {devices root : Nat} {state : ParserState} {key : Bytes}
    (stands : Stands env path outer devices)
    (keyOf : KeyOf state key) (nonzero : deref key ≠ 0) :
    Stands ⟨root, ⟨state.keyStart, state.keyEnd⟩ :: env.parent, keyFlags state, env.target⟩
      (path ++ [key]) ((resourceFlags key).map fun flags => (path, flags)) devices where
  path := by rw [framePath_cons, keyOf.frame_key, stands.path]
  named frame mem := by
    rcases List.mem_cons.mp mem with rfl | mem
    · rwa [keyOf.frame_key]
    · exact stands.named frame mem
  ranged := by
    rw [keyOf.keyFlags_eq, Option.map_map]
    cases resourceFlags key <;> rfl
  outer held eq := by
    obtain ⟨flags, some, rfl⟩ := Option.map_eq_some_iff.mp eq
    exact ⟨resourceFlags_ne_zero some, _, _, rfl, stands.path⟩
  target := stands.target

/-- What is described in a new device is the device. -/
theorem Doc.describe_new (doc : Doc) (name : Bytes) (devices : List DeviceSpec) :
    doc.describe [] none (some devices.length) (devices ++ [⟨name, none, []⟩]) =
      devices ++ ((⟨name, doc.interface, doc.candidates [] none⟩ :: doc.innerDevices []).map
        (DeviceText.read readNumber)) := by
  rw [Doc.describe, extendTarget_last, List.map_cons, List.append_assoc, List.singleton_append]
  simp [DeviceSpec.extend, DeviceText.read]

section Describe

variable {marked : Nat → Bool}

theorem Stands.mono {env : BlockEnv} {path : List Bytes} {outer : Option (List Bytes × Nat)}
    {devices more : Nat} (stands : Stands env path outer devices) (le : devices ≤ more) :
    Stands env path outer more :=
  ⟨stands.path, stands.named, stands.ranged, stands.outer,
    fun index eq => (stands.target index eq).trans_le le⟩

/-- The script of a block describes it, if the script of its entries describes them. -/
theorem builtFrom_blockScript {state : ParserState} {parent : List Frame} {flags : Nat}
    {target : Option Nat} {path : List Bytes} {outer : Option (List Bytes × Nat)}
    {devices : List DeviceSpec} {body : Doc} {tail : Bytes}
    (plain : body.hasInterface = true → flags = 0) (flag : marked state.roots = body.hasInterface)
    (stands : Stands ⟨state.roots, parent, flags, target⟩ path outer devices.length)
    (count : state.devices = devices.length)
    (bodyScript : ∀ {env : BlockEnv} {path : List Bytes} {outer : Option (List Bytes × Nat)}
      {root : Bool} {inner : ParserState} {devices : List DeviceSpec},
      inner.roots = state.roots + 1 → Stands env path outer devices.length →
      inner.devices = devices.length →
      builtFrom devices ((body.outline tail).script marked env root inner).1 =
          body.describe path outer env.target devices ∧
        ((body.outline tail).script marked env root inner).2.devices =
          (body.describe path outer env.target devices).length) :
    builtFrom devices (blockScript marked state parent flags target (body.outline tail)).1 =
        body.describeBlock path outer target devices ∧
      (blockScript marked state parent flags target (body.outline tail)).2.devices =
        (body.describeBlock path outer target devices).length := by
  unfold blockScript enterScript Doc.describeBlock
  dsimp only
  rw [flag]
  cases device : body.hasInterface with
  | false =>
    simp only [Bool.false_eq_true, if_false]
    rw [builtFrom_append]
    exact bodyScript rfl stands count
  | true =>
    simp only [if_true]
    rw [builtFrom_append, ← body.describe_new]
    have name : pathName parent = dotted path := by rw [pathName_eq, stands.path]
    have entered : builtFrom devices [.take state.roots, .device state.roots state.devices parent
        state.config] = devices ++ [⟨dotted path, none, []⟩] := by rw [← name]; rfl
    rw [entered, ← count]
    refine bodyScript rfl ⟨rfl, nofun, plain device, nofun, fun index eq => ?_⟩ ?_
    · obtain rfl := Option.some.inj eq
      rw [count, List.length_append, List.length_singleton]
      omega
    · rw [count, List.length_append, List.length_singleton]

mutual

/-- The script of a document describes its devices. -/
theorem Doc.builtFrom_script {env : BlockEnv} {path : List Bytes}
    {outer : Option (List Bytes × Nat)} {root : Bool} {state : ParserState} {tail : Bytes}
    {devices : List DeviceSpec} : ∀ doc : Doc, doc.WellFormed → doc.SingleValued →
    doc.ResourceBlocksPlain → Along Eq marked state.roots doc.flags →
    Stands env path outer devices.length → state.devices = devices.length →
    builtFrom devices ((doc.outline tail).script marked env root state).1 =
        doc.describe path outer env.target devices ∧
      ((doc.outline tail).script marked env root state).2.devices =
        (doc.describe path outer env.target devices).length
  | .nil, _, _, _, _, _, count => by
    have none : (Doc.nil).describe path outer env.target devices = devices := by
      rw [Doc.describe, Doc.interface, Doc.candidates, List.filterMap_nil, extendTarget_nil]
      exact List.append_nil devices
    rw [none]
    exact ⟨rfl, count⟩
  | .entry key gap values after rest, wellFormed, single, plain, flagged, stands, count => by
    rcases wellFormed with ⟨-, apart, valuesFormed, restFormed⟩
    rcases single with ⟨nonempty, valuesSingle, restSingle⟩
    have nonzero : deref key.bytes ≠ 0 := by
      obtain ⟨c, s, bytes⟩ := List.exists_cons_of_ne_nil nonempty
      rw [bytes]
      exact (ne_of_isKeyChar (key.keyChars c (by simp [bytes]))).1
    have keyOf := @keyOf_entry key gap values after rest tail state apart
    have sameRoots : (keyState state ((Doc.entry key gap values after rest).print tail)).roots =
      state.roots := rfl
    have sameDevices : (keyState state ((Doc.entry key gap values after rest).print tail)).devices =
      state.devices := rfl
    simp only [Doc.outline, Entries.script]
    generalize keyState state ((Doc.entry key gap values after rest).print tail) = atKey at *
    rw [← sameRoots] at flagged
    rw [← sameDevices] at count
    obtain ⟨first, firstCount⟩ := values.builtFrom_script (after.bytes ++ rest.print tail)
      keyOf nonzero valuesFormed valuesSingle plain.1 flagged.left stands count
    rw [builtFrom_append, builtFrom_append, builtFrom_append, builtFrom_keyScript, first,
      builtFrom_finishScript, ← Doc.describe_entry stands.target]
    refine rest.builtFrom_script restFormed restSingle plain.2 ?_
      (stands.mono (values.length_le_describe ..)) firstCount
    rw [values.script_roots valuesFormed]
    exact flagged.right

theorem Vals.builtFrom_script {env : BlockEnv} {path : List Bytes}
    {outer : Option (List Bytes × Nat)} {state : ParserState} {key : Bytes} (tail : Bytes)
    {devices : List DeviceSpec} (keyOf : KeyOf state key) (nonzero : deref key ≠ 0) :
    ∀ values : Vals, values.WellFormed → values.Single →
    values.ResourceBlocksPlain key → Along Eq marked state.roots values.flags →
    Stands env path outer devices.length → state.devices = devices.length →
    builtFrom devices ((values.outline (semicolon :: tail)).script marked env (keyFlags state)
        (parserKeyEq state interfaceKey) state).1 =
        values.describe path outer key env.target devices ∧
      ((values.outline (semicolon :: tail)).script marked env (keyFlags state)
        (parserKeyEq state interfaceKey) state).2.devices =
        (values.describe path outer key env.target devices).length
  | .string body after .nil, _, _, _, _, _, count => by
    have described : (Vals.string body after .nil).describe path outer key env.target devices =
        extendTarget env.target (if key = interfaceKey then some (unescape body.bytes) else none) []
          devices := by
      simp [Vals.describe, Vals.decoded, Vals.candidates, Vals.innerDevices]
    simp only [Vals.outline, Values.script, List.append_nil]
    rw [described, builtFrom_ifaceScript, keyOf.parserKeyEq_eq, Vals.print, stringValue_string]
    exact ⟨by simp only [beq_iff_eq], by simpa using count⟩
  | .block lead body after .nil, wellFormed, single, plain, flagged, stands, count => by
    rcases plain with ⟨notDevice, bodyPlain, -⟩
    rw [Vals.outline, Values.script_block, Vals.describe_block]
    simp only [Vals.outline, Values.script, List.append_nil]
    exact builtFrom_blockScript
      (fun device => by rw [keyOf.keyFlags_eq, resourceFlags_eq_none notDevice device]; rfl)
      flagged.left.head (stands.enter keyOf nonzero) count
      fun entered inside count => body.builtFrom_script wellFormed.1 single.1 bodyPlain
        (entered ▸ flagged.left.tail) inside count
  | .token word after .nil, wellFormed, _, _, _, stands, count => by
    have tokenAt := @tokenAt_token word after .nil tail state wellFormed.1
    have keyOf' : KeyOf { state with
        config := (Vals.token word after .nil).print (semicolon :: tail) } key :=
      ⟨keyOf.start, keyOf.apart⟩
    have described : (Vals.token word after .nil).describe path outer key env.target devices =
        extendTarget env.target (if key = interfaceKey then some word.bytes else none)
          ((tokenCandidates path outer key word.bytes).filterMap (Candidate.resource readNumber))
          devices := by
      simp [Vals.describe, Vals.decoded, Vals.candidates, Vals.innerDevices]
    have value : stringValue ((Vals.token word after .nil).print (semicolon :: tail)) =
        word.bytes := by
      have start := tokenAt.start
      dsimp only at start
      rw [start, stringValue_token word tokenAt.apart]
    simp only [Vals.outline, Values.script, List.append_nil]
    rw [described]
    refine ⟨(builtFrom_tokenScript keyOf' tokenAt stands _).trans ?_, by simpa using count⟩
    rw [value, keyOf.parserKeyEq_eq]
    simp only [beq_iff_eq]

end

end Describe

/-! ## A whole pass -/

section Pass

variable {doc : Doc} {tail : Bytes} {state : ParserState} {marked : Nat → Bool}
variable (wellFormed : doc.WellFormed) (roots : state.roots = 0)

include wellFormed roots

/-- Pass 0 marks the devices. -/
theorem Doc.marks_iff (k : Nat) :
    Marks (doc.outline tail) state k ↔ SetAt (doc.hasInterface :: doc.flags) 0 k := by
  obtain ⟨inside, interface⟩ := doc.flags_outline tail wellFormed
  rw [Marks, blockScript_mark_mem_iff, inside, interface, roots]

/-- No fault is in the script of a pass. -/
theorem Doc.scriptFault_passScript {rootsSize : Nat} {later : Bool}
    (plain : doc.ResourceBlocksPlain)
    (found : ∀ k, marked k = true ↔ later = true ∧ Marks (doc.outline tail) state k)
    (enough : doc.flags.length < rootsSize) :
    scriptFault rootsSize (passScript (doc.outline tail) marked state) = none := by
  rw [Option.eq_none_iff_forall_ne_some]
  intro fault faults
  rcases mem_of_scriptFault faults with ⟨-, k, taken, outside⟩ | ⟨-, mem⟩
  · rw [takesIn_passScript roots, (doc.flags_outline _ wellFormed).1, List.mem_range] at taken
    omega
  · have hits := ((nullParent_mem_passScript_iff roots found).mp mem).2
    rw [doc.hitsNull_outline wellFormed plain] at hits
    cases hits

/-- A pass that has found the devices flagged describes them. -/
theorem Doc.builtFrom_passScript (plain : doc.ResourceBlocksPlain) (single : doc.SingleValued)
    (flagged : ∀ k, marked k = true ↔ Marks (doc.outline tail) state k)
    (count : state.devices = 0) :
    builtFrom [] (passScript (doc.outline tail) marked state) =
      doc.deviceTexts.map (DeviceText.read readNumber) := by
  have found : Along Eq marked 0 (doc.hasInterface :: doc.flags) := by
    intro i h
    rw [Bool.eq_iff_iff, flagged, doc.marks_iff wellFormed roots]
    constructor
    · intro given
      rcases given with ⟨j, eq, flag⟩
      obtain rfl : i = j := by omega
      exact (List.getElem?_eq_some_iff.mp flag).2
    · intro flag
      exact ⟨i, rfl, List.getElem?_eq_some_iff.mpr ⟨h, flag⟩⟩
  have stands : Stands ⟨state.roots, [], 0, none⟩ [] none ([] : List DeviceSpec).length :=
    ⟨rfl, nofun, rfl, nofun, nofun⟩
  rw [passScript, (builtFrom_blockScript (fun _ => rfl) (by rw [roots]; exact found.head) stands
    count fun entered inside count => doc.builtFrom_script wellFormed single plain
      (by rw [entered, roots]; exact found.tail) inside count).1, Doc.describeBlock,
    Doc.deviceTexts, Doc.describe]
  split <;> rfl

end Pass

end RiscvLinux.Config
