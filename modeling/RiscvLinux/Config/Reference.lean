import RiscvLinux.Config.Document
import RiscvLinux.Config.Numeral

/-!
# The devices that a document describes

What the config driver is for, said of the document and not of its text: a block with an
`interface` entry is a device, its name is the path that leads to it from the device around it,
and the numbers under `irq`, `bus` and `mem` keys in it are its resources. `Doc.devices` lists
the devices of a document.
-/

namespace RiscvLinux.Config

/-! ## Devices -/

structure ResourceSpec where
  name : Bytes
  flags : Nat
  start : UInt64
  stop : UInt64
  deriving DecidableEq, Repr

structure DeviceSpec where
  name : Bytes
  driverOverride : Option Bytes
  resources : List ResourceSpec
  deriving DecidableEq, Repr

/-- A place of a document that may be a resource, with the texts of its two numbers. -/
structure Candidate where
  name : Bytes
  flags : Nat
  start : Bytes
  stop : Bytes

/-- The resource, if both texts are numbers. -/
def Candidate.resource (number : Bytes → Option UInt64) (candidate : Candidate) :
    Option ResourceSpec :=
  (number candidate.start).bind fun start =>
    (number candidate.stop).map fun stop => ⟨candidate.name, candidate.flags, start, stop⟩

/-- A device before its numbers are read. -/
structure DeviceText where
  name : Bytes
  driverOverride : Option Bytes
  candidates : List Candidate

def DeviceText.read (number : Bytes → Option UInt64) (device : DeviceText) : DeviceSpec :=
  ⟨device.name, device.driverOverride, device.candidates.filterMap (Candidate.resource number)⟩

/-! ## Keys -/

/-- The resource flags that a key stands for. -/
def resourceFlags (key : Bytes) : Option Nat :=
  if key = irqKey then some ioresourceIrq
  else if key = busKey then some ioresourceBus
  else if key = memKey then some ioresourceMem
  else none

/-- The name of a path of keys. -/
def dotted (path : List Bytes) : Bytes :=
  if path = [] then [dot] else [dot].intercalate path

/-- The block has an `interface` entry of its own. -/
def Doc.hasInterface : Doc → Bool
  | .nil => false
  | .entry key _ _ _ rest => key.bytes == interfaceKey || rest.hasInterface

/-- The value of an entry, if that is a string or a token. -/
def Vals.decoded : Vals → Option Bytes
  | .string body _ _ => some (unescape body.bytes)
  | .token word _ _ => some word.bytes
  | _ => none

/-- The value of the last `interface` entry of a block that is a string or a token. -/
def Doc.interface : Doc → Option Bytes
  | .nil => none
  | .entry key _ values _ rest =>
    rest.interface.or (if key.bytes = interfaceKey then values.decoded else none)

/-! ## Documents -/

mutual

/-- Every entry has a key and one value. -/
def Doc.SingleValued : Doc → Prop
  | .nil => True
  | .entry key _ values _ rest => key.bytes ≠ [] ∧ values.Single ∧ rest.SingleValued

def Vals.Single : Vals → Prop
  | .nil => False
  | .string _ _ rest => rest = .nil
  | .block _ body _ rest => body.SingleValued ∧ rest = .nil
  | .token _ _ rest => rest = .nil

end

mutual

/-- No block that is the value of an `irq`, `bus` or `mem` key is a device. -/
def Doc.ResourceBlocksPlain : Doc → Prop
  | .nil => True
  | .entry key _ values _ rest => values.ResourceBlocksPlain key.bytes ∧ rest.ResourceBlocksPlain

def Vals.ResourceBlocksPlain (key : Bytes) : Vals → Prop
  | .nil => True
  | .string _ _ rest => rest.ResourceBlocksPlain key
  | .block _ body _ rest =>
    ((resourceFlags key).isSome → body.hasInterface = false) ∧ body.ResourceBlocksPlain ∧
      rest.ResourceBlocksPlain key
  | .token _ _ rest => rest.ResourceBlocksPlain key

end

/-- The candidates of a token `word` under `key`: with the key as the start of a range, if the
block is the value of a resource key, and alone, if the key is a resource key itself. -/
def tokenCandidates (path : List Bytes) (outer : Option (List Bytes × Nat)) (key word : Bytes) :
    List Candidate :=
  (outer.map fun held => ⟨dotted held.1, held.2, key, word⟩).toList ++
    ((resourceFlags key).map fun flags => ⟨dotted path, flags, word, word⟩).toList

mutual

/-- The candidates of a block outside the devices in it. `path` leads to the block from the device
that it belongs to. Where the block is the value of a resource key, `outer` is the path of the
block that holds the key, and the flags of the key. -/
def Doc.candidates (path : List Bytes) (outer : Option (List Bytes × Nat)) : Doc → List Candidate
  | .nil => []
  | .entry key _ values _ rest =>
    values.candidates path outer key.bytes ++ rest.candidates path outer

def Vals.candidates (path : List Bytes) (outer : Option (List Bytes × Nat)) (key : Bytes) :
    Vals → List Candidate
  | .nil => []
  | .string _ _ rest => rest.candidates path outer key
  | .block _ body _ rest =>
    (if body.hasInterface then []
      else body.candidates (path ++ [key]) ((resourceFlags key).map fun flags => (path, flags))) ++
      rest.candidates path outer key
  | .token word _ rest =>
    tokenCandidates path outer key word.bytes ++ rest.candidates path outer key

end

mutual

/-- The devices in a block, each before the devices in it. `path` leads to the block from the
device around it. -/
def Doc.innerDevices (path : List Bytes) : Doc → List DeviceText
  | .nil => []
  | .entry key _ values _ rest => values.innerDevices path key.bytes ++ rest.innerDevices path

def Vals.innerDevices (path : List Bytes) (key : Bytes) : Vals → List DeviceText
  | .nil => []
  | .string _ _ rest => rest.innerDevices path key
  | .block _ body _ rest =>
    (if body.hasInterface then
        ⟨dotted (path ++ [key]), body.interface, body.candidates [] none⟩ :: body.innerDevices []
      else body.innerDevices (path ++ [key])) ++
      rest.innerDevices path key
  | .token _ _ rest => rest.innerDevices path key

end

/-- The devices of a document, which may itself be one. -/
def Doc.deviceTexts (doc : Doc) : List DeviceText :=
  if doc.hasInterface then ⟨dotted [], doc.interface, doc.candidates [] none⟩ :: doc.innerDevices []
  else doc.innerDevices []

/-- The devices of a document. -/
def Doc.devices (doc : Doc) : List DeviceSpec := doc.deviceTexts.map (DeviceText.read numeral)

/-! ## The numbers of the devices -/

/-- Every number of a resource of the document is hexadecimal or less than ten. -/
def Doc.NumbersPlain (doc : Doc) : Prop :=
  ∀ device ∈ doc.deviceTexts, ∀ candidate ∈ device.candidates,
    (candidate.resource numeral).isSome →
      HexOrBelowTen candidate.start ∧ HexOrBelowTen candidate.stop

end RiscvLinux.Config
