import RiscvLinux.Uaccess.GetUser

/-!
# The flash device

`flash_ioctl` of `arch/riscv/drivers/flash.c`, with what the two windows of the device and user
memory are when it is called.

Every command but an unknown one is to fail without a write to the device, or to transfer the one
word that it names. `flashIoctl_clean_iff` says when it does: what `get_user` and `put_user`
return is not looked at, and neither is the size of the windows.
-/

namespace RiscvLinux.Drivers.Flash

open Lib Trap Signal Uaccess

variable {x : XLen}

/-! ## The device -/

/-- What `flash_memory` points to. -/
inductive Window
  | control
  | data
  deriving DecidableEq

/-- `flash_memory`: the sizes of the windows in bytes, and the words that loads find at an offset
from their starts, which may lie outside. -/
structure FlashMemory (x : XLen) where
  size : Window → Nat
  word : Window → Word x → Word x

/-- An access to a device word, at an offset in bytes. -/
inductive Access (x : XLen)
  | load (w : Window) (offset : Word x)
  | store (w : Window) (offset v : Word x)
  deriving DecidableEq

/-- What a call returns, the accesses to the device that it made, and user memory after it. -/
structure Outcome (x : XLen) where
  ret : Int
  accesses : List (Access x)
  mem : UserMem x

/-! ## Commands -/

/-- `_IOC` -/
def ioc (dir type nr size : BitVec 32) : BitVec 32 :=
  dir <<< 30 ||| type <<< 8 ||| nr ||| size <<< 16

/-- `_IOW` of an `int` -/
def iow (type nr : BitVec 32) : BitVec 32 := ioc 1 type nr 4

/-- `_IOWR` of an `int` -/
def iowr (type nr : BitVec 32) : BitVec 32 := ioc 3 type nr 4

/-- `FLASH_MAJOR` -/
def flashMajor : BitVec 32 := 188

def controlRead : BitVec 32 := iowr flashMajor 0
def controlWrite : BitVec 32 := iow flashMajor 1
def dataRead : BitVec 32 := iowr flashMajor 2
def dataWrite : BitVec 32 := iow flashMajor 3

/-! ## The driver -/

/-- `-EINVAL` -/
def eInval : Int := -22

/-- `&user_regmap->address` and `&user_regmap->data` -/
def addressField (param : Word x) : Word x := param
def dataField (param : Word x) : Word x := param + 4

/-- The offset of the element `[address/sizeof(data)]`. The division is one of unsigned numbers. -/
def element (address : Word x) : Word x :=
  address / BitVec.ofNat x.bits x.szreg * BitVec.ofNat x.bits x.szreg

variable (fs : Word x) (flash : FlashMemory x) (m : UserMem x)

/-- A command that reads. -/
def flashRead (w : Window) (param : Word x) : Outcome x :=
  let address := (getUser fs m (addressField param) 4).1
  let data := flash.word w (element address)
  ⟨0, [.load w (element address)], (putUser fs m data (dataField param) 4).1⟩

/-- A command that writes. -/
def flashWrite (w : Window) (param : Word x) : Outcome x :=
  let address := (getUser fs m (addressField param) 4).1
  let data := (getUser fs m (dataField param) 4).1
  ⟨0, [.store w (element address) data], m⟩

/-- `flash_ioctl` -/
def flashIoctl (num : BitVec 32) (param : Word x) : Outcome x :=
  if num = controlRead then flashRead fs flash m .control param
  else if num = controlWrite then flashWrite fs m .control param
  else if num = dataRead then flashRead fs flash m .data param
  else if num = dataWrite then flashWrite fs m .data param
  else ⟨eInval, [], m⟩

/-! ## What the commands are for -/

/-- What a command transfers: a word of a window to the user, or one from the user. -/
inductive Transfer
  | read (w : Window)
  | write (w : Window)

/-- The four commands. -/
def transfer (num : BitVec 32) : Option Transfer :=
  if num = controlRead then some (.read .control)
  else if num = controlWrite then some (.write .control)
  else if num = dataRead then some (.read .data)
  else if num = dataWrite then some (.write .data)
  else none

/-- `user_regmap->address` and `user_regmap->data` -/
def userAddress (param : Word x) : BitVec (8 * 4) := value m (addressField param) 4
def userData (param : Word x) : BitVec (8 * 4) := value m (dataField param) 4

/-- Where the device word starts that holds the byte at an address. -/
def wordStart (x : XLen) (address : Nat) : Nat := address / x.szreg * x.szreg

/-- The whole device word at an offset is in the window. -/
def FlashMemory.Inside (w : Window) (offset : Nat) : Prop := offset + x.szreg ≤ flash.size w

instance (w : Window) (offset : Nat) : Decidable (flash.Inside w offset) :=
  inferInstanceAs (Decidable (_ ≤ _))

/-- The word that the user names with `address`. -/
def named (param : Word x) : Word x :=
  BitVec.ofNat x.bits (wordStart x (userAddress m param).toNat)

/-- An error, with no device word written and none read outside its window. -/
structure Failed (o : Outcome x) : Prop where
  error : o.ret < 0
  loads : ∀ access ∈ o.accesses, ∃ w offset, access = .load w offset ∧ flash.Inside w offset.toNat

/-- The word that the user names is read, and its value is in `user_regmap->data`. -/
structure ReadDone (w : Window) (param : Word x) (o : Outcome x) : Prop where
  address : UserOk fs m.readable (addressField param) 4
  data : UserOk fs m.writable (dataField param) 4
  inside : flash.Inside w (wordStart x (userAddress m param).toNat)
  ret : o.ret = 0
  access : o.accesses = [.load w (named m param)]
  moved : (userData o.mem param).toNat = (flash.word w (named m param)).toNat
  mem : o.mem = stored m (dataField param) 4 (userData o.mem param)

/-- The word that the user names is written, with the value of `user_regmap->data`. -/
structure WriteDone (w : Window) (param : Word x) (o : Outcome x) : Prop where
  address : UserOk fs m.readable (addressField param) 4
  data : UserOk fs m.readable (dataField param) 4
  inside : flash.Inside w (wordStart x (userAddress m param).toNat)
  ret : o.ret = 0
  moved : ∃ v : Word x, v.toNat = (userData m param).toNat ∧
    o.accesses = [.store w (named m param) v]
  mem : o.mem = m

/-- The command has done what it is for. -/
def Done (param : Word x) (o : Outcome x) : Option Transfer → Prop
  | none => False
  | some (.read w) => ReadDone fs flash m w param o
  | some (.write w) => WriteDone fs flash m w param o

/-- The call fails cleanly, or it does what the command is for. -/
def Clean (num : BitVec 32) (param : Word x) (o : Outcome x) : Prop :=
  Failed flash o ∨ Done fs flash m param o (transfer num)

/-- The condition for a word of the window to be transferred: the address can be read, has no sign
on a 64-bit kernel, and is in the window. -/
structure Named (w : Window) (param : Word x) : Prop where
  address : UserOk fs m.readable (addressField param) 4
  free : SignFree x (userAddress m param)
  inside : flash.Inside w (wordStart x (userAddress m param).toNat)

/-- The condition: the command is unknown, or it names a word that way, `data` can be written, or
read, and the word fits it, or it fits a word. -/
def Served (param : Word x) : Option Transfer → Prop
  | none => True
  | some (.read w) => Named fs flash m w param ∧ UserOk fs m.writable (dataField param) 4 ∧
      (flash.word w (named m param)).toNat < 2 ^ 32
  | some (.write w) => Named fs flash m w param ∧ UserOk fs m.readable (dataField param) 4 ∧
      SignFree x (userData m param)

/-! ## Addresses -/

theorem toNat_element (address : Word x) : (element address).toNat = wordStart x address.toNat := by
  have size : (BitVec.ofNat x.bits x.szreg).toNat = x.szreg := by
    cases x <;> rfl
  have below : address.toNat / x.szreg * x.szreg ≤ address.toNat := Nat.div_mul_le_self ..
  rw [element, BitVec.toNat_mul, BitVec.toNat_udiv, size, wordStart]
  exact Nat.mod_eq_of_lt (Nat.lt_of_le_of_lt below address.isLt)

theorem toNat_named (param : Word x) :
    (named m param).toNat = wordStart x (userAddress m param).toNat := by
  have wide : 2 ^ 32 ≤ 2 ^ x.bits := by
    cases x <;> decide
  have below : wordStart x (userAddress m param).toNat ≤ (userAddress m param).toNat :=
    Nat.div_mul_le_self ..
  have small := (userAddress m param).isLt
  rw [named, BitVec.toNat_ofNat]
  exact Nat.mod_eq_of_lt (by omega)

variable {fs flash m} {num : BitVec 32} {param : Word x} {w : Window}

theorem four_le (x : XLen) : 4 ≤ 2 ^ x.bits := by
  cases x <;> decide

/-- The element that the code takes is the one that the user names if the address has no sign. A
negative address leads to an element below the window. -/
theorem element_eq_named_iff :
    element ((userAddress m param).signExtend x.bits) = named m param
      ↔ SignFree x (userAddress m param) := by
  rw [← BitVec.toNat_inj, toNat_element, toNat_named]
  constructor
  · intro same
    by_contra signed
    obtain ⟨rfl, large⟩ := toNat_signExtend_ge signed
    have small := (userAddress m param).isLt
    simp only [wordStart, XLen.szreg] at same
    omega
  · intro free
    rw [toNat_signExtend free]

/-! ## What the commands do -/

theorem readDone_iff : ReadDone fs flash m w param (flashRead fs flash m w param) ↔
    Named fs flash m w param ∧ UserOk fs m.writable (dataField param) 4 ∧
      (flash.word w (named m param)).toNat < 2 ^ 32 := by
  constructor
  · intro given
    rcases given with ⟨address, data, inside, -, access, moved, -⟩
    simp only [flashRead, getUser_of_ok address] at access
    have offset : element ((userAddress m param).signExtend x.bits) = named m param :=
      (Access.load.inj (List.singleton_inj.mp access)).2
    refine ⟨⟨address, element_eq_named_iff.mp offset, inside⟩, data, ?_⟩
    rw [← moved]
    exact BitVec.isLt _
  · intro given
    rcases given with ⟨⟨address, free, inside⟩, data, small⟩
    have read : flashRead fs flash m w param
        = ⟨0, [.load w (named m param)], stored m (dataField param) 4
            ((flash.word w (named m param)).setWidth (8 * 4))⟩ := by
      rw [← element_eq_named_iff.mpr free, flashRead, getUser_of_ok address, putUser_of_ok data]
      rfl
    have back := value_stored m (dataField param) (four_le x)
      ((flash.word w (named m param)).setWidth (8 * 4))
    rw [read]
    refine ⟨address, data, inside, rfl, rfl, ?_, ?_⟩
    · rw [userData, back, BitVec.toNat_setWidth]
      exact Nat.mod_eq_of_lt small
    · rw [userData, back]

theorem writeDone_iff : WriteDone fs flash m w param (flashWrite fs m w param) ↔
    Named fs flash m w param ∧ UserOk fs m.readable (dataField param) 4 ∧
      SignFree x (userData m param) := by
  constructor
  · intro given
    rcases given with ⟨address, data, inside, -, ⟨v, value, access⟩, -⟩
    simp only [flashWrite, getUser_of_ok address, getUser_of_ok data] at access
    obtain ⟨-, offset, same⟩ := Access.store.inj (List.singleton_inj.mp access)
    refine ⟨⟨address, element_eq_named_iff.mp offset, inside⟩, data, ?_⟩
    by_contra signed
    have large := (toNat_signExtend_ge signed).2
    have small := (userData m param).isLt
    have moved : ((userData m param).signExtend x.bits).toNat = (userData m param).toNat :=
      (congrArg BitVec.toNat same).trans value
    omega
  · intro given
    rcases given with ⟨⟨address, free, inside⟩, data, unsigned⟩
    refine ⟨address, data, inside, rfl, ⟨_, toNat_signExtend unsigned, ?_⟩, rfl⟩
    simp only [flashWrite, getUser_of_ok address, getUser_of_ok data]
    rw [← element_eq_named_iff.mpr free]
    rfl

/-- A call that returns zero has not failed. -/
theorem not_failed {o : Outcome x} (ret : o.ret = 0) : ¬ Failed flash o := by
  intro failed
  have error := failed.error
  omega

/-- An unknown command fails. -/
theorem failed_unknown : Failed flash (⟨eInval, [], m⟩ : Outcome x) :=
  ⟨show eInval < 0 by decide, nofun⟩

theorem flashIoctl_eq : flashIoctl fs flash m num param =
    match transfer num with
    | none => ⟨eInval, [], m⟩
    | some (.read w) => flashRead fs flash m w param
    | some (.write w) => flashWrite fs m w param := by
  unfold flashIoctl transfer
  split_ifs <;> rfl

/-- `flash_ioctl` fails cleanly or does what it is asked for exactly if the command is unknown, or
all accesses to user memory succeed, the address has no sign and is in the window, and the value
that is transferred fits where it goes. -/
theorem flashIoctl_clean_iff :
    Clean fs flash m num param (flashIoctl fs flash m num param)
      ↔ Served fs flash m param (transfer num) := by
  rw [Clean, flashIoctl_eq]
  rcases transfer num with - | ⟨w | w⟩
  · exact iff_of_true (.inl failed_unknown) trivial
  · rw [or_iff_right (not_failed rfl)]
    exact readDone_iff
  · rw [or_iff_right (not_failed rfl)]
    exact writeDone_iff

/-- User memory of which no byte is mapped. -/
def unmapped : UserMem .rv64 := ⟨fun _ => 0, fun _ => false, fun _ => false⟩

/-- With a pointer that cannot be read the call stores zero in the first word of the window, and
returns zero. -/
theorem not_clean_unmapped :
    ¬ Clean 0x4000000000 ⟨fun _ => 8, fun _ _ => 0⟩ unmapped controlWrite 0x1000
      (flashIoctl 0x4000000000 ⟨fun _ => 8, fun _ _ => 0⟩ unmapped controlWrite 0x1000) := by
  have stores : (flashIoctl 0x4000000000 ⟨fun _ => 8, fun _ _ => 0⟩ unmapped controlWrite
      0x1000).accesses = [.store .control 0 0] := by
    decide
  intro either
  rcases either with failed | done
  · obtain ⟨w, offset, load, -⟩ := failed.loads (.store .control 0 0) (by rw [stores]; simp)
    cases load
  · have written : WriteDone _ _ _ _ _ _ := done
    exact absurd (written.address.2 0 (by decide)) (by decide)

end RiscvLinux.Drivers.Flash
