import RiscvLinux.Signal.Task

/-!
# The compare-and-exchange system calls

`sysriscv` of `arch/riscv/kernel/sys_riscv.c` on a 64-bit kernel, with `__get_user` and
`__put_user` for the pointer it gives them: an `unsigned int *` for both commands. So both load
with `lw`, which extends the sign, and store with `sw`; and the error passes through an
`unsigned int` on its way to the `unsigned long` that is returned.

`Exchanged32` and `Exchanged64` are what the calls are for; `sysriscv_iff` says exactly when
the code does that.
-/

namespace RiscvLinux.Syscall

open Lib Trap Signal

/-- `unsigned long` of a 64-bit kernel. -/
abbrev Long : Type := Word .rv64

/-- Its user memory. -/
abbrev Mem : Type := UserMem .rv64

/-! ## User accesses -/

/-- No byte of an access of `n` bytes faults. -/
def Ok (ok : Long → Bool) (a : Long) (n : Nat) : Prop :=
  ∀ i < n, ok (a + BitVec.ofNat _ i) = true

instance (ok : Long → Bool) (a : Long) (n : Nat) : Decidable (Ok ok a n) :=
  inferInstanceAs (Decidable (∀ i < n, _))

theorem Ok.of_le {ok : Long → Bool} {a : Long} {n k : Nat} (all : Ok ok a n)
    (shorter : k ≤ n) : Ok ok a k :=
  fun i inside => all i (Nat.lt_of_lt_of_le inside shorter)

/-- The 32-bit and the 64-bit word at an address. -/
def load32 (m : Mem) (a : Long) : BitVec 32 :=
  ofBytes 32 (m.bytes.read a 4)

def load64 (m : Mem) (a : Long) : Long :=
  ofBytes _ (m.bytes.read a 8)

/-- The memory with the bytes stored. -/
def store (m : Mem) (a : Long) (bs : List UInt8) : Mem :=
  { m with bytes := m.bytes.write a bs }

/-- `-EFAULT`, an `int`. -/
def eFaultInt : BitVec 32 := -14

/-- `-EFAULT`, a `long`. -/
def eFaultLong : Long := -14

/-- `-EINVAL`, a `long`. -/
def eInvalLong : Long := -22

/-- `__get_user` through an `unsigned int *` into an `unsigned long`: the value and the error. -/
def getUser (m : Mem) (ptr : Long) : Long × BitVec 32 :=
  if Ok m.readable ptr 4 then ((load32 m ptr).signExtend _, 0) else (0, eFaultInt)

/-- `__put_user` of an `unsigned long` through an `unsigned int *`: the memory and the error. -/
def putUser (m : Mem) (v ptr : Long) : Mem × BitVec 32 :=
  if Ok m.writable ptr 4 then (store m ptr (toBytes 4 (v.setWidth 32)), 0) else (m, eFaultInt)

/-- `__access_ok`, for an address limit. -/
def accessOk (fs addr : Long) (size : Nat) : Prop :=
  size ≤ fs.toNat ∧ addr.toNat ≤ fs.toNat - size

instance (fs addr : Long) (size : Nat) : Decidable (accessOk fs addr size) :=
  inferInstanceAs (Decidable (_ ∧ _))

/-! ## The system call -/

def riscvAtomicCmpxchg : Long := 1

def riscvAtomicCmpxchg64 : Long := 2

/-- What the two commands share, after their `access_ok`. -/
def cmpxchg (m : Mem) (arg1 arg2 arg3 : Long) : Long × Mem :=
  let ptr := arg1
  let (prev, err) := getUser m ptr
  let (m, err) := if err = 0 ∧ prev = arg2 then putUser m arg3 ptr else (m, err)
  -- an `unsigned int` becomes an `unsigned long`
  (if err ≠ 0 then err.setWidth _ else prev, m)

/-- `sysriscv`. -/
def sysriscv (fs : Long) (m : Mem) (cmd arg1 arg2 arg3 : Long) : Long × Mem :=
  if cmd = riscvAtomicCmpxchg then
    if accessOk fs arg1 4 then cmpxchg m arg1 arg2 arg3 else (eFaultLong, m)
  else if cmd = riscvAtomicCmpxchg64 then
    if accessOk fs arg1 8 then cmpxchg m arg1 arg2 arg3 else (eFaultLong, m)
  else (eInvalLong, m)

/-! ## What the calls are for -/

/-- A compare-and-exchange of the 64-bit word at `arg1`, with the value returned and the memory
after it. -/
def Exchanged64 (m : Mem) (arg1 arg2 arg3 : Long) (r : Long × Mem) : Prop :=
  if Ok m.readable arg1 8 then
    if load64 m arg1 = arg2 then
      if Ok m.writable arg1 8 then r = (load64 m arg1, store m arg1 (toBytes 8 arg3))
      else r = (eFaultLong, m)
    else r = (load64 m arg1, m)
  else r = (eFaultLong, m)

/-- A compare-and-exchange of the 32-bit word at `arg1`. The previous word is the low half of
what is returned. -/
def Exchanged32 (m : Mem) (arg1 arg2 arg3 : Long) (r : Long × Mem) : Prop :=
  if Ok m.readable arg1 4 then
    if load32 m arg1 = arg2.setWidth 32 then
      if Ok m.writable arg1 4 then
        r.1.setWidth 32 = load32 m arg1 ∧ r.2 = store m arg1 (toBytes 4 (arg3.setWidth 32))
      else r = (eFaultLong, m)
    else r.1.setWidth 32 = load32 m arg1 ∧ r.2 = m
  else r = (eFaultLong, m)

/-- What `__get_user` makes of the word. -/
def old (m : Mem) (arg1 : Long) : Long :=
  (load32 m arg1).signExtend _

/-- What the call returns for an error. -/
def eFaultReturned : Long :=
  eFaultInt.setWidth _

/-- The condition for the 32-bit exchange. Without a fault it is that a word equal to the low half
of `arg2` is equal to the whole of it once its sign is extended, or is what would be stored;
with a fault the code is right only when the word it returns instead happens to be `-EFAULT`. -/
def Fits32 (m : Mem) (arg1 arg2 arg3 : Long) : Prop :=
  if Ok m.readable arg1 4 ∧ (load32 m arg1 = arg2.setWidth 32 → Ok m.writable arg1 4) then
    load32 m arg1 = arg2.setWidth 32 → old m arg1 = arg2 ∨ load32 m arg1 = arg3.setWidth 32
  else Ok m.readable arg1 4 ∧ old m arg1 ≠ arg2 ∧ old m arg1 = eFaultLong

/-- The condition for the 64-bit exchange. Without a fault it is that the word is the sign
extension of its low half and, if it is to be replaced, its high half is that of `arg3`; a word
that is the error value itself, and an error, can also look right. -/
def Fits64 (m : Mem) (arg1 arg2 arg3 : Long) : Prop :=
  if Ok m.readable arg1 8 ∧ (load64 m arg1 = arg2 → Ok m.writable arg1 8) then
    if load64 m arg1 = arg2 then
      old m arg1 = load64 m arg1 ∧ load32 m (arg1 + 4) = (arg3 >>> 32).setWidth 32
    else
      old m arg1 = load64 m arg1
        ∨ load64 m arg1 = eFaultReturned ∧ old m arg1 = arg2 ∧ ¬ Ok m.writable arg1 4
  else
    Ok m.readable arg1 4 ∧ old m arg1 = eFaultLong
      ∧ (old m arg1 = arg2 → Ok m.writable arg1 4 ∧ load32 m arg1 = arg3.setWidth 32)

/-! ## What the code does -/

section

variable {m : Mem} {arg1 arg2 arg3 : Long}

theorem getUser_of_ok (readable : Ok m.readable arg1 4) : getUser m arg1 = (old m arg1, 0) :=
  if_pos readable

theorem cmpxchg_unreadable (fault : ¬ Ok m.readable arg1 4) :
    cmpxchg m arg1 arg2 arg3 = (eFaultReturned, m) := by
  rw [cmpxchg, getUser, if_neg fault]
  have failed : ¬ (eFaultInt = 0 ∧ (0 : Long) = arg2) := fun both => absurd both.1 (by decide)
  have error : eFaultInt ≠ 0 := by decide
  simp only [if_neg failed, if_pos error, eFaultReturned]

theorem cmpxchg_other (readable : Ok m.readable arg1 4) (differ : old m arg1 ≠ arg2) :
    cmpxchg m arg1 arg2 arg3 = (old m arg1, m) := by
  rw [cmpxchg, getUser_of_ok readable]
  simp only [true_and, differ, if_false, ne_eq, not_true_eq_false]

theorem cmpxchg_stored (readable : Ok m.readable arg1 4) (same : old m arg1 = arg2)
    (writable : Ok m.writable arg1 4) :
    cmpxchg m arg1 arg2 arg3 = (old m arg1, store m arg1 (toBytes 4 (arg3.setWidth 32))) := by
  rw [cmpxchg, getUser_of_ok readable]
  simp only [true_and, same, if_true, putUser, if_pos writable, ne_eq, not_true_eq_false, if_false]

theorem cmpxchg_unwritable (readable : Ok m.readable arg1 4) (same : old m arg1 = arg2)
    (fault : ¬ Ok m.writable arg1 4) : cmpxchg m arg1 arg2 arg3 = (eFaultReturned, m) := by
  rw [cmpxchg, getUser_of_ok readable]
  have error : eFaultInt ≠ 0 := by decide
  simp only [true_and, same, if_true, putUser, if_neg fault, if_pos error, eFaultReturned]

/-! ## Stores -/

theorem store_inj {bs cs : List UInt8} (length : bs.length = cs.length) (fits : bs.length ≤ 8) :
    store m arg1 bs = store m arg1 cs ↔ bs = cs := by
  constructor
  · intro same
    refine Memory.write_inj length ?_ (congrArg UserMem.bytes same)
    exact Nat.le_trans fits (by decide)
  · intro same
    subst same
    rfl

/-- A word is at an address exactly when its bytes are. -/
theorem toBytes_eq_read {v : BitVec 32} {a : Long} :
    toBytes 4 v = m.bytes.read a 4 ↔ load32 m a = v := by
  constructor
  · intro bytes
    rw [load32, ← bytes]
    exact ofBytes_toBytes (by decide) v
  · intro word
    have room : 8 * (m.bytes.read a 4).length ≤ 32 := by rw [Memory.length_read]
    have back := toBytes_ofBytes room
    rw [Memory.length_read] at back
    rw [← word]
    exact back

/-- A store of 32 bits changes nothing exactly when the word is there. -/
theorem store32_eq_self (v : BitVec 32) : store m arg1 (toBytes 4 v) = m ↔ load32 m arg1 = v := by
  have put_back : store m arg1 (m.bytes.read arg1 4) = m := by
    rw [store, Memory.write_read]
  have lengths : (toBytes 4 v).length = (m.bytes.read arg1 4).length := by
    rw [length_toBytes, Memory.length_read]
  have inj : store m arg1 (toBytes 4 v) = store m arg1 (m.bytes.read arg1 4) ↔ _ :=
    store_inj lengths (by rw [length_toBytes]; decide)
  rw [← toBytes_eq_read, ← inj, put_back]

/-- A store of the low half is a store of the whole exactly when the high half is there. -/
theorem store32_eq_store64 (v : Long) :
    store m arg1 (toBytes 4 (v.setWidth 32)) = store m arg1 (toBytes 8 v)
      ↔ load32 m (arg1 + 4) = (v >>> 32).setWidth 32 := by
  have longer : store m arg1 (toBytes 4 (v.setWidth 32))
      = store m arg1 (toBytes 4 v ++ m.bytes.read (arg1 + 4) 4) := by
    rw [toBytes_setWidth (by decide), store, Memory.write_eq_write_append _ _ _ 4, length_toBytes]
    rfl
  have halves : toBytes 8 v = toBytes 4 v ++ toBytes 4 ((v >>> 32).setWidth 32) := by
    rw [toBytes_setWidth (by decide)]
    exact toBytes_add 4 4 v
  rw [longer, halves, store_inj (by simp) (by simp), List.append_cancel_left_eq, ← toBytes_eq_read]
  exact eq_comm

theorem setWidth_old : (old m arg1).setWidth 32 = load32 m arg1 := by
  refine BitVec.eq_of_getLsbD_eq fun i inside => ?_
  have wide : i < XLen.rv64.bits := Nat.lt_trans inside (by decide)
  rw [old, BitVec.getLsbD_setWidth, BitVec.getLsbD_signExtend]
  simp only [inside, wide, decide_true, Bool.true_and, if_true]

/-- A word is equal to the low half of `arg2` when it is equal to the whole. -/
theorem load32_of_old (same : old m arg1 = arg2) : load32 m arg1 = arg2.setWidth 32 := by
  rw [← same, setWidth_old]

theorem eFaultReturned_ne : eFaultReturned ≠ eFaultLong := by
  decide

/-! ## The exchanges -/

/-- The 32-bit exchange is done exactly under its condition. -/
theorem exchanged32_iff :
    Exchanged32 m arg1 arg2 arg3 (cmpxchg m arg1 arg2 arg3) ↔ Fits32 m arg1 arg2 arg3 := by
  have low : (old m arg1).setWidth 32 = load32 m arg1 := setWidth_old
  by_cases readable : Ok m.readable arg1 4
  case neg =>
    rw [cmpxchg_unreadable readable, Exchanged32, Fits32, if_neg readable,
      if_neg fun both => readable both.1]
    exact ⟨fun same => (eFaultReturned_ne (congrArg Prod.fst same)).elim,
      fun fits => (readable fits.1).elim⟩
  rw [Exchanged32, Fits32, if_pos readable]
  by_cases equal : load32 m arg1 = arg2.setWidth 32
  case neg =>
    have differ : old m arg1 ≠ arg2 := fun same => equal (load32_of_old same)
    rw [cmpxchg_other readable differ, if_neg equal,
      if_pos ⟨readable, fun same => (equal same).elim⟩]
    exact ⟨fun _ same => (equal same).elim, fun _ => ⟨low, rfl⟩⟩
  rw [if_pos equal]
  by_cases writable : Ok m.writable arg1 4
  case neg =>
    rw [if_neg writable, if_neg fun both => writable (both.2 equal)]
    by_cases same : old m arg1 = arg2
    · rw [cmpxchg_unwritable readable same writable]
      exact ⟨fun returned => (eFaultReturned_ne (congrArg Prod.fst returned)).elim,
        fun fits => (fits.2.1 same).elim⟩
    · rw [cmpxchg_other readable same, Prod.mk.injEq]
      exact ⟨fun returned => ⟨readable, same, returned.1⟩, fun fits => ⟨fits.2.2, rfl⟩⟩
  rw [if_pos writable, if_pos ⟨readable, fun _ => writable⟩]
  by_cases same : old m arg1 = arg2
  · rw [cmpxchg_stored readable same writable]
    exact ⟨fun _ _ => .inl same, fun _ => ⟨low, rfl⟩⟩
  · rw [cmpxchg_other readable same]
    refine ⟨fun done _ => .inr ((store32_eq_self _).mp done.2.symm), fun fits => ⟨low, ?_⟩⟩
    exact ((store32_eq_self _).mpr ((fits equal).resolve_left same)).symm

/-- An error is returned exactly when the word that is returned instead is `-EFAULT`. -/
theorem cmpxchg_eq_fault_iff :
    cmpxchg m arg1 arg2 arg3 = (eFaultLong, m)
      ↔ Ok m.readable arg1 4 ∧ old m arg1 = eFaultLong
        ∧ (old m arg1 = arg2 → Ok m.writable arg1 4 ∧ load32 m arg1 = arg3.setWidth 32) := by
  by_cases readable : Ok m.readable arg1 4
  case neg =>
    rw [cmpxchg_unreadable readable]
    exact ⟨fun same => (eFaultReturned_ne (congrArg Prod.fst same)).elim,
      fun fits => (readable fits.1).elim⟩
  by_cases same : old m arg1 = arg2
  case neg =>
    rw [cmpxchg_other readable same, Prod.mk.injEq]
    exact ⟨fun returned => ⟨readable, returned.1, fun equal => (same equal).elim⟩,
      fun fits => ⟨fits.2.1, rfl⟩⟩
  by_cases writable : Ok m.writable arg1 4
  · rw [cmpxchg_stored readable same writable, Prod.mk.injEq, store32_eq_self]
    exact ⟨fun returned => ⟨readable, returned.1, fun _ => ⟨writable, returned.2⟩⟩,
      fun fits => ⟨fits.2.1, (fits.2.2 same).2⟩⟩
  · rw [cmpxchg_unwritable readable same writable]
    exact ⟨fun returned => (eFaultReturned_ne (congrArg Prod.fst returned)).elim,
      fun fits => (writable (fits.2.2 same).1).elim⟩

/-- A word that is not to be replaced is returned exactly when it is the sign extension of its low
half, or is the error value of a failed store. -/
theorem cmpxchg_eq_word_iff (readable : Ok m.readable arg1 4) (differ : load64 m arg1 ≠ arg2) :
    cmpxchg m arg1 arg2 arg3 = (load64 m arg1, m)
      ↔ old m arg1 = load64 m arg1
        ∨ load64 m arg1 = eFaultReturned ∧ old m arg1 = arg2 ∧ ¬ Ok m.writable arg1 4 := by
  by_cases same : old m arg1 = arg2
  case neg =>
    rw [cmpxchg_other readable same, Prod.mk.injEq]
    exact ⟨fun returned => .inl returned.1,
      fun fits => ⟨fits.resolve_right fun other => same other.2.1, rfl⟩⟩
  have short : old m arg1 ≠ load64 m arg1 := fun equal => differ (equal.symm.trans same)
  by_cases writable : Ok m.writable arg1 4
  · rw [cmpxchg_stored readable same writable, Prod.mk.injEq]
    exact ⟨fun returned => .inl returned.1,
      fun fits => ((fits.resolve_left short).2.2 writable).elim⟩
  · rw [cmpxchg_unwritable readable same writable, Prod.mk.injEq]
    exact ⟨fun returned => .inr ⟨returned.1.symm, same, writable⟩,
      fun fits => ⟨(fits.resolve_left short).1.symm, rfl⟩⟩

/-- The 64-bit exchange is done exactly under its condition. -/
theorem exchanged64_iff :
    Exchanged64 m arg1 arg2 arg3 (cmpxchg m arg1 arg2 arg3) ↔ Fits64 m arg1 arg2 arg3 := by
  rw [Exchanged64, Fits64]
  by_cases readable : Ok m.readable arg1 8
  case neg =>
    rw [if_neg readable, if_neg fun both => readable both.1]
    exact cmpxchg_eq_fault_iff
  have readable4 : Ok m.readable arg1 4 := readable.of_le (by decide)
  rw [if_pos readable]
  by_cases equal : load64 m arg1 = arg2
  case neg =>
    rw [if_neg equal, if_pos ⟨readable, fun same => (equal same).elim⟩]
    rw [if_neg equal]
    exact cmpxchg_eq_word_iff readable4 equal
  rw [if_pos equal]
  by_cases writable : Ok m.writable arg1 8
  case neg =>
    rw [if_neg writable, if_neg fun both => writable (both.2 equal)]
    exact cmpxchg_eq_fault_iff
  rw [if_pos writable, if_pos ⟨readable, fun _ => writable⟩, if_pos equal]
  by_cases same : old m arg1 = arg2
  · rw [cmpxchg_stored readable4 same (writable.of_le (by decide)), Prod.mk.injEq,
      store32_eq_store64]
  · rw [cmpxchg_other readable4 same, Prod.mk.injEq]
    exact ⟨fun returned => (same (returned.1.trans equal)).elim,
      fun fits => (same (fits.1.trans equal)).elim⟩

end

/-- For a pointer that `access_ok` accepts, the two system calls do what they are for exactly
under these conditions. -/
theorem sysriscv_iff (fs : Long) (m : Mem) (arg1 arg2 arg3 : Long) :
    (accessOk fs arg1 4 →
      (Exchanged32 m arg1 arg2 arg3 (sysriscv fs m riscvAtomicCmpxchg arg1 arg2 arg3)
        ↔ Fits32 m arg1 arg2 arg3))
    ∧ (accessOk fs arg1 8 →
      (Exchanged64 m arg1 arg2 arg3 (sysriscv fs m riscvAtomicCmpxchg64 arg1 arg2 arg3)
        ↔ Fits64 m arg1 arg2 arg3)) := by
  refine ⟨fun ok => ?_, fun ok => ?_⟩
  · rw [sysriscv, if_pos rfl, if_pos ok]
    exact exchanged32_iff
  · rw [sysriscv, if_neg (by decide), if_pos rfl, if_pos ok]
    exact exchanged64_iff

/-- The address limit of user tasks, `TASK_SIZE`. -/
def userDs : Long := 0x4000000000

/-- Memory that holds zeroes and can be accessed everywhere. -/
def zeroes : Mem :=
  ⟨fun _ => 0, fun _ => true, fun _ => true⟩

theorem sysriscv_iff_zeroes :
    (Exchanged32 zeroes 0x1000 5 7 (sysriscv userDs zeroes riscvAtomicCmpxchg 0x1000 5 7)
        ↔ Fits32 zeroes 0x1000 5 7)
      ∧ (Exchanged64 zeroes 0x1000 5 7 (sysriscv userDs zeroes riscvAtomicCmpxchg64 0x1000 5 7)
        ↔ Fits64 zeroes 0x1000 5 7) := by
  have both := sysriscv_iff userDs zeroes 0x1000 5 7
  exact ⟨both.1 (by decide), both.2 (by decide)⟩

/-- A pointer to memory that is not there gives an error that is not negative. -/
theorem not_exchanged_unmapped :
    ¬ ∀ (fs : Long) (m : Mem) (arg1 arg2 arg3 : Long), accessOk fs arg1 8 →
      Exchanged64 m arg1 arg2 arg3 (sysriscv fs m riscvAtomicCmpxchg64 arg1 arg2 arg3) := by
  intro always
  let unmapped : Mem := ⟨fun _ => 0, fun _ => false, fun _ => false⟩
  have ok : accessOk userDs 0x1000 8 := by decide
  have fault : ∀ n, 0 < n → ¬ Ok unmapped.readable 0x1000 n :=
    fun n some_bytes all => Bool.false_ne_true (all 0 some_bytes)
  have done := always userDs unmapped 0x1000 5 7 ok
  rw [Exchanged64, if_neg (fault 8 (by decide)), sysriscv, if_neg (by decide), if_pos rfl,
    if_pos ok,
    cmpxchg_unreadable (fault 4 (by decide))] at done
  exact eFaultReturned_ne (congrArg Prod.fst done)

end RiscvLinux.Syscall
