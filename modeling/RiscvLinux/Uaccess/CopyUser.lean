import RiscvLinux.Lib.Run
import RiscvLinux.Trap.Status

/-!
# Copies from and to user memory

`__copy_user` of `lib/uaccess.S` with its `.fixup`, one step for every block between two labels,
and `copy_from_user` and `copy_to_user` of `uaccess.h` over it. The loads and the stores of given
bytes fault. A state keeps the bytes that were stored, each with its address, in their order. That
the instructions do what the blocks do is `Assembly.CopyUser.Represents.run`.

`Reports` is what a caller relies on. `Call.ends` says where a call ends whose source is well inside
the address space, `reported_iff_harmless` when `__copy_user` reports what it has copied, and
`returns_protected` that it leaves the kernel kept from user memory.
-/

namespace RiscvLinux.Uaccess

open Lib Trap

variable {x : XLen}

/-! ## The code -/

/-- The labels of `__copy_user`, its `.fixup`, and the caller. -/
inductive Label
  | entry
  | one
  | two
  | three
  | four
  | five
  | ten
  | caller
  deriving DecidableEq, Repr

/-- The instructions with the `fixup` macro. -/
inductive Insn
  | wordLoad
  | wordStore
  | headLoad
  | headStore
  | tailLoad
  | tailStore
  deriving DecidableEq, Repr

/-- The part of `__ex_table` that `__copy_user` writes. -/
def exTable : List (Insn × Label) :=
  [(.wordLoad, .ten), (.wordStore, .ten), (.headLoad, .ten), (.headStore, .ten), (.tailLoad, .ten),
    (.tailStore, .ten)]

/-- The machine: whether it was built with `CONFIG_RV_PUM`, and the bytes whose loads and stores
fault for good. -/
structure Env (x : XLen) where
  rvPum : Bool
  loadFault : Word x → Bool
  storeFault : Word x → Bool

/-- A state of a call. -/
structure State (x : XLen) where
  pc : Label
  a0 : Word x
  a1 : Word x
  a2 : Word x
  a3 : Word x
  t0 : Word x
  t1 : Word x
  t2 : Word x
  t6 : Word x
  sstatus : Word x
  mem : Memory x.bits
  stores : List (Word x × UInt8)

/-- An access to `len` bytes faults if it touches a byte that does. -/
def faultsAt (fault : Word x → Bool) (len : Nat) (a : Word x) : Bool :=
  (List.range len).any fun i => fault (a + BitVec.ofNat _ i)

/-- The bytes from an address on, each with its address. -/
def placed (a : Word x) (bs : List UInt8) : List (Word x × UInt8) :=
  bs.mapIdx fun i b => (a + BitVec.ofNat _ i, b)

/-- `SZREG-1`, as a mask. -/
def szregMask : Word x := BitVec.ofNat _ (x.szreg - 1)

/-- `fixup_exception`, for a fault of the given instruction. Nothing else becomes of a fault whose
instruction is not in the table. -/
def fixupException (insn : Insn) (s : State x) : Option (State x) :=
  (exTable.find? fun entry => entry.1 == insn).map fun entry => { s with pc := entry.2 }

/-- Clear `SR_PUM`. -/
def enableUserAccess (e : Env x) (s : State x) : State x :=
  if e.rvPum then { s with t6 := srPum, sstatus := clearBits s.sstatus srPum } else s

/-- Set what `t6` holds. -/
def disableUserAccess (e : Env x) (s : State x) : State x :=
  if e.rvPum then { s with sstatus := setBits s.sstatus s.t6 } else s

/-- The body of the three loops: a load and a store of `len` bytes, and the branch back. -/
def copyUnit (e : Env x) (len : Nat) (load store : Insn) (limit : Word x) (exit : Label)
    (s : State x) : Option (State x) :=
  if faultsAt e.loadFault len s.a1 then fixupException load s
  else
    let s := { s with t2 := s.mem.readWord len s.a1 }
    if faultsAt e.storeFault len s.a0 then fixupException store s
    else
      let a1 := s.a1 + BitVec.ofNat _ len
      some { s with
        mem := s.mem.writeWord len s.a0 s.t2
        stores := s.stores ++ placed s.a0 (toBytes len s.t2)
        a1 := a1
        a0 := s.a0 + BitVec.ofNat _ len
        pc := if a1 < limit then s.pc else exit }

/-- From the entry to the first label. -/
def entry (e : Env x) (s : State x) : State x :=
  let s := enableUserAccess e s
  let s := { s with a3 := s.a1 + s.a2, t0 := s.a0 &&& szregMask, t1 := s.a1 &&& szregMask }
  if s.t0 ≠ s.t1 then { s with pc := .two }
  else
    let s := { s with t0 := s.a1 + szregMask &&& ~~~szregMask, t1 := s.a3 &&& ~~~szregMask }
    if s.t1 ≤ s.t0 then { s with pc := .two }
    else if s.a1 < s.t0 then { s with pc := .four }
    else { s with pc := .one }

/-- What the hart does next. -/
def next (e : Env x) (s : State x) : Option (State x) :=
  match s.pc with
  | .entry => some (entry e s)
  | .one => copyUnit e x.szreg .wordLoad .wordStore s.t1 .two s
  | .two => some { s with pc := if s.a1 < s.a3 then .five else .three }
  | .three => some { disableUserAccess e s with a0 := 0, pc := .caller }
  | .four => copyUnit e 1 .headLoad .headStore s.t0 .one s
  | .five => copyUnit e 1 .tailLoad .tailStore s.a3 .three s
  | .ten => some { disableUserAccess e s with a0 := s.a3 - s.a0, pc := .caller }
  | .caller => none

/-- A call: its arguments, and the state of the hart before it. -/
structure Call (x : XLen) where
  target : Word x
  source : Word x
  n : Word x
  before : State x

/-- `__copy_user(target, source, n)` at its entry. -/
def Call.start (c : Call x) : State x :=
  { c.before with pc := .entry, a0 := c.target, a1 := c.source, a2 := c.n, stores := [] }

/-! ## Stored bytes -/

theorem placed_append (a : Word x) (bs cs : List UInt8) :
    placed a (bs ++ cs) = placed a bs ++ placed (a + BitVec.ofNat _ bs.length) cs := by
  unfold placed
  rw [List.mapIdx_append]
  congr 2
  funext i b
  rw [Nat.add_comm, BitVec.ofNat_add, BitVec.add_assoc]

@[simp] theorem length_placed (a : Word x) (bs : List UInt8) : (placed a bs).length = bs.length :=
  List.length_mapIdx

/-! ## What a call has done so far -/

section Progress

variable {e : Env x} {c : Call x} {i len : Nat} {lo hi : Word x} {s : State x}

/-- No byte of the two ranges faults from `i` up to `j`. -/
def Clean (e : Env x) (c : Call x) (i j : Nat) : Prop :=
  ∀ k, i ≤ k → k < j → e.loadFault (c.source + BitVec.ofNat _ k) = false ∧
    e.storeFault (c.target + BitVec.ofNat _ k) = false

/-- The first `i` bytes have been copied, none of them faults, and nothing else was written.
`lo` and `hi` are the bounds that the loops use. -/
structure Copied (e : Env x) (c : Call x) (lo hi : Word x) (i : Nat) (s : State x) : Prop where
  inside : i ≤ c.n.toNat
  clean : Clean e c 0 i
  a0 : s.a0 = c.target + BitVec.ofNat _ i
  a1 : s.a1 = c.source + BitVec.ofNat _ i
  a3 : s.a3 = c.source + c.n
  t0 : s.t0 = lo
  t1 : s.t1 = hi
  mem : s.mem = c.before.mem.write c.target (c.before.mem.read c.source i)
  stores : s.stores = placed c.target (c.before.mem.read c.source i)

/-- The two ranges of a call do not overlap. -/
def Call.Disjoint (c : Call x) : Prop :=
  Apart c.target c.n.toNat c.source c.n.toNat

instance (c : Call x) : Decidable c.Disjoint :=
  inferInstanceAs (Decidable (Apart _ _ _ _))

/-- The source does not wrap. -/
def Call.Fits (c : Call x) : Prop :=
  c.source.toNat + c.n.toNat ≤ 2 ^ x.bits

instance (c : Call x) : Decidable c.Fits :=
  inferInstanceAs (Decidable (_ ≤ _))

theorem faultsAt_eq_false {fault : Word x → Bool} {a : Word x} :
    faultsAt fault len a = false ↔ ∀ j < len, fault (a + BitVec.ofNat _ j) = false := by
  unfold faultsAt
  rw [List.any_eq_false]
  simp only [List.mem_range, Bool.not_eq_true]

theorem Clean.faults {j : Nat} (clean : Clean e c 0 i) (within : j + len ≤ i) :
    faultsAt e.loadFault len (c.source + BitVec.ofNat _ j) = false ∧
      faultsAt e.storeFault len (c.target + BitVec.ofNat _ j) = false := by
  constructor <;> refine faultsAt_eq_false.mpr fun k below => ?_ <;>
    rw [BitVec.add_assoc, ← BitVec.ofNat_add]
  · exact (clean (j + k) (Nat.zero_le _) (by omega)).1
  · exact (clean (j + k) (Nat.zero_le _) (by omega)).2

/-- One more access that does not fault. -/
theorem Clean.extend (clean : Clean e c 0 i)
    (loads : faultsAt e.loadFault len (c.source + BitVec.ofNat _ i) = false)
    (stores : faultsAt e.storeFault len (c.target + BitVec.ofNat _ i) = false) :
    Clean e c 0 (i + len) := by
  intro k start below
  rcases Nat.lt_or_ge k i with before | after
  · exact clean k start before
  · obtain ⟨j, rfl⟩ := Nat.exists_eq_add_of_le after
    have load := faultsAt_eq_false.mp loads j (by omega)
    have store := faultsAt_eq_false.mp stores j (by omega)
    rw [BitVec.add_assoc, ← BitVec.ofNat_add] at load store
    exact ⟨load, store⟩

/-- What has been copied already does not change what is still to be copied. -/
theorem Copied.read (disjoint : c.Disjoint) (copied : Copied e c lo hi i s)
    (within : i + len ≤ c.n.toNat) :
    s.mem.read s.a1 len = c.before.mem.read (c.source + BitVec.ofNat _ i) len := by
  rw [copied.mem, copied.a1]
  exact Memory.read_copied disjoint copied.inside within

/-- An instruction of the table goes on at the fixup. -/
theorem fixupException_eq (insn : Insn) (s : State x) :
    fixupException insn s = some { s with pc := .ten } := by
  cases insn <;> rfl

/-- An access without a fault. -/
theorem copyUnit_of_clean {load store : Insn} {limit : Word x} {exit : Label}
    (loads : faultsAt e.loadFault len s.a1 = false)
    (stores : faultsAt e.storeFault len s.a0 = false) :
    copyUnit e len load store limit exit s = some { s with
      t2 := s.mem.readWord len s.a1
      mem := s.mem.writeWord len s.a0 (s.mem.readWord len s.a1)
      stores := s.stores ++ placed s.a0 (toBytes len (s.mem.readWord len s.a1))
      a1 := s.a1 + BitVec.ofNat _ len
      a0 := s.a0 + BitVec.ofNat _ len
      pc := if s.a1 + BitVec.ofNat _ len < limit then s.pc else exit } := by
  unfold copyUnit
  rw [if_neg (by simp [loads])]
  exact if_neg (by simp [stores])

/-- An access with a fault goes on at the fixup, with at most `t2` changed. -/
theorem copyUnit_of_fault {load store : Insn} {limit : Word x} {exit : Label}
    (faults : ¬(faultsAt e.loadFault len s.a1 = false ∧ faultsAt e.storeFault len s.a0 = false)) :
    ∃ t2, copyUnit e len load store limit exit s = some { s with t2 := t2, pc := .ten } := by
  unfold copyUnit
  cases loads : faultsAt e.loadFault len s.a1 with
  | true =>
    rw [if_pos rfl, fixupException_eq]
    exact ⟨s.t2, rfl⟩
  | false =>
    have stores : faultsAt e.storeFault len s.a0 = true :=
      Bool.eq_true_of_not_eq_false fun none => faults ⟨loads, none⟩
    rw [if_neg Bool.false_ne_true]
    refine ⟨s.mem.readWord len s.a1, (if_pos stores).trans ?_⟩
    rw [fixupException_eq]

/-- An access without a fault copies the next bytes. -/
theorem Copied.unit (disjoint : c.Disjoint) (copied : Copied e c lo hi i s)
    (within : i + len ≤ c.n.toNat) (short : len ≤ x.szreg) {load store : Insn} {limit : Word x}
    {exit : Label} (loads : faultsAt e.loadFault len s.a1 = false)
    (stores : faultsAt e.storeFault len s.a0 = false) :
    ∃ t, copyUnit e len load store limit exit s = some t ∧ Copied e c lo hi (i + len) t ∧
      t.pc = if c.source + BitVec.ofNat _ (i + len) < limit then s.pc else exit := by
  have bytes : toBytes len (s.mem.readWord len s.a1)
      = c.before.mem.read (c.source + BitVec.ofNat _ i) len := by
    have room : 8 * (s.mem.read s.a1 len).length ≤ x.bits := by
      rw [Memory.length_read, x.bits_eq]
      exact Nat.mul_le_mul_left 8 short
    have back := toBytes_ofBytes room
    rw [Memory.length_read] at back
    exact back.trans (copied.read disjoint within)
  have moved : ∀ a : Word x, a + BitVec.ofNat _ i + BitVec.ofNat _ len
      = a + BitVec.ofNat _ (i + len) := fun a => by
    rw [BitVec.add_assoc, ← BitVec.ofNat_add]
  refine ⟨_, copyUnit_of_clean loads stores, ?_, by simp only [copied.a1, moved]⟩
  refine ⟨within, ?_, ?_, ?_, copied.a3, copied.t0, copied.t1, ?_, ?_⟩
  · rw [copied.a1] at loads
    rw [copied.a0] at stores
    exact copied.clean.extend loads stores
  · exact (congrArg (· + BitVec.ofNat _ len) copied.a0).trans (moved _)
  · exact (congrArg (· + BitVec.ofNat _ len) copied.a1).trans (moved _)
  · have fits : i + len ≤ 2 ^ x.bits := Nat.le_of_lt (Nat.lt_of_le_of_lt within c.n.isLt)
    simp only [Memory.writeWord, bytes, copied.a0]
    rw [copied.mem]
    exact Memory.copied_next fits
  · have listed : placed c.target (c.before.mem.read c.source (i + len))
        = placed c.target (c.before.mem.read c.source i)
          ++ placed (c.target + BitVec.ofNat _ i)
            (c.before.mem.read (c.source + BitVec.ofNat _ i) len) := by
      rw [c.before.mem.read_add c.source i len, placed_append, Memory.length_read]
    simp only [bytes, copied.stores, copied.a0, listed]

/-- A fault of an access leaves what has been copied and leads to the fixup. -/
theorem Copied.fault (copied : Copied e c lo hi i s) {load store : Insn} {limit : Word x}
    {exit : Label}
    (faults : ¬(faultsAt e.loadFault len s.a1 = false ∧ faultsAt e.storeFault len s.a0 = false)) :
    ∃ t, copyUnit e len load store limit exit s = some t ∧ Copied e c lo hi i t ∧
      t.pc = .ten := by
  rcases copied with ⟨inside, clean, a0, a1, a3, t0, t1, mem, stores⟩
  obtain ⟨t2, unit⟩ := copyUnit_of_fault faults
  exact ⟨_, unit, ⟨inside, clean, a0, a1, a3, t0, t1, mem, stores⟩, rfl⟩

end Progress

/-! ## The end of a call -/

section End

variable {e : Env x} {c : Call x} {i : Nat} {lo hi : Word x} {s t : State x}

/-- The call has returned. It has copied the first `i` bytes and nothing else, and either these are
all, and the value is zero, or an access faults and the value is what the fixup makes of the
registers. -/
structure Ended (e : Env x) (c : Call x) (i : Nat) (s : State x) : Prop where
  pc : s.pc = .caller
  mem : s.mem = c.before.mem.write c.target (c.before.mem.read c.source i)
  stores : s.stores = placed c.target (c.before.mem.read c.source i)
  value : (i = c.n.toNat ∧ Clean e c 0 c.n.toNat ∧ s.a0 = 0) ∨
    (i < c.n.toNat ∧ ¬Clean e c 0 c.n.toNat ∧
      s.a0 = c.source + c.n - (c.target + BitVec.ofNat _ i))

/-- The hart comes to the end of the call. -/
def Ends (e : Env x) (c : Call x) (s : State x) : Prop :=
  ∃ t i, Run (Steps (next e)) s t ∧ Ended e c i t

theorem Ends.of_next (stepped : next e s = some t) (ends : Ends e c t) : Ends e c s := by
  rcases ends with ⟨u, i, run, ended⟩
  exact ⟨u, i, .head stepped run, ended⟩

theorem disableUserAccess_mem (e : Env x) (s : State x) : (disableUserAccess e s).mem = s.mem := by
  unfold disableUserAccess
  split <;> rfl

theorem disableUserAccess_stores (e : Env x) (s : State x) :
    (disableUserAccess e s).stores = s.stores := by
  unfold disableUserAccess
  split <;> rfl

/-- The fixup gives the distance from the address of the store to the end of the source. -/
theorem Copied.fixup (copied : Copied e c lo hi i s) (pc : s.pc = .ten) :
    ∃ t, next e s = some t ∧ t.pc = .caller ∧
      t.mem = c.before.mem.write c.target (c.before.mem.read c.source i) ∧
      t.stores = placed c.target (c.before.mem.read c.source i) ∧
      t.a0 = c.source + c.n - (c.target + BitVec.ofNat _ i) := by
  have stepped : next e s =
      some { disableUserAccess e s with a0 := s.a3 - s.a0, pc := .caller } := by
    rw [next, pc]
  refine ⟨_, stepped, rfl, (disableUserAccess_mem e s).trans copied.mem,
    (disableUserAccess_stores e s).trans copied.stores, ?_⟩
  simp only [copied.a3, copied.a0]

theorem Copied.ten (copied : Copied e c lo hi i s) (pc : s.pc = .ten) (short : i < c.n.toNat)
    (dirty : ¬Clean e c 0 c.n.toNat) : Ends e c s := by
  obtain ⟨t, stepped, pc', mem, stores, value⟩ := copied.fixup pc
  exact ⟨t, i, .single stepped, pc', mem, stores, .inr ⟨short, dirty, value⟩⟩

theorem Copied.three (copied : Copied e c lo hi c.n.toNat s) (pc : s.pc = .three) :
    Ends e c s := by
  have stepped : next e s = some { disableUserAccess e s with a0 := 0, pc := .caller } := by
    rw [next, pc]
  refine ⟨_, c.n.toNat, .single stepped, rfl, ?_, ?_, .inl ⟨rfl, copied.clean, rfl⟩⟩
  · exact (disableUserAccess_mem e s).trans copied.mem
  · exact (disableUserAccess_stores e s).trans copied.stores

/-- No address from the source to its end wraps. -/
theorem toNat_source (room : c.source.toNat + c.n.toNat < 2 ^ x.bits) (within : i ≤ c.n.toNat) :
    (c.source + BitVec.ofNat _ i).toNat = c.source.toNat + i := by
  rw [BitVec.toNat_add, BitVec.toNat_ofNat, Nat.add_mod_mod, Nat.mod_eq_of_lt (by omega)]

section Loop

variable {len stop : Nat} {again exit : Label} {load store : Insn}

/-- One turn of a loop that goes by `len` bytes up to `stop`. -/
theorem Copied.turn (disjoint : c.Disjoint) (room : c.source.toNat + c.n.toNat < 2 ^ x.bits)
    (some_bytes : 0 < len) (short : len ≤ x.szreg) (within : stop ≤ c.n.toNat)
    (body : next e s = copyUnit e len load store (c.source + BitVec.ofNat _ stop) exit s)
    (copied : Copied e c lo hi i s) (pc : s.pc = again) (more : i + len ≤ stop) :
    Ends e c s ∨ ∃ t, next e s = some t ∧ Copied e c lo hi (i + len) t ∧
      t.pc = if i + len < stop then again else exit := by
  by_cases faultless :
    faultsAt e.loadFault len s.a1 = false ∧ faultsAt e.storeFault len s.a0 = false
  · obtain ⟨t, unit, copied', pc'⟩ :=
      copied.unit disjoint (more.trans within) short faultless.1 faultless.2
    refine .inr ⟨t, body.trans unit, copied', pc'.trans ?_⟩
    simp only [BitVec.lt_def, toNat_source room (more.trans within), toNat_source room within, pc,
      Nat.add_lt_add_iff_left]
  · obtain ⟨t, unit, copied', pc'⟩ := copied.fault faultless
    refine .inl (Ends.of_next (body.trans unit) (copied'.ten pc' (by omega) fun clean => ?_))
    rw [copied.a0, copied.a1] at faultless
    exact faultless (clean.faults (more.trans within))

/-- A loop that goes by `len` bytes up to `stop`. The induction is on the turns after this one. -/
theorem Copied.loop (load store : Insn) (disjoint : c.Disjoint)
    (room : c.source.toNat + c.n.toNat < 2 ^ x.bits) (some_bytes : 0 < len)
    (short : len ≤ x.szreg) (within : stop ≤ c.n.toNat)
    (body : ∀ {j s}, Copied e c lo hi j s → s.pc = again →
      next e s = copyUnit e len load store (c.source + BitVec.ofNat _ stop) exit s)
    (after : ∀ {s}, Copied e c lo hi stop s → s.pc = exit → Ends e c s) (turns : Nat)
    (aligned : i + (turns + 1) * len = stop) (copied : Copied e c lo hi i s)
    (pc : s.pc = again) : Ends e c s := by
  induction turns generalizing i s with
  | zero =>
    rw [Nat.zero_add, Nat.one_mul] at aligned
    rcases copied.turn disjoint room some_bytes short within (body copied pc) pc (by omega) with
      ends | ⟨t, stepped, copied', pc'⟩
    · exact ends
    · rw [if_neg (by omega)] at pc'
      exact .of_next stepped (after (aligned ▸ copied') pc')
  | succ turns ih =>
    have further : i + len + (turns + 1) * len = stop := by
      rw [← aligned]
      ring
    have one_more : len ≤ (turns + 1) * len := Nat.le_mul_of_pos_left len (Nat.succ_pos turns)
    rcases copied.turn disjoint room some_bytes short within (body copied pc) pc (by omega) with
      ends | ⟨t, stepped, copied', pc'⟩
    · exact ends
    · rw [if_pos (by omega)] at pc'
      exact .of_next stepped (ih further copied' pc')

end Loop

/-- The tail, byte by byte. -/
theorem Copied.five (disjoint : c.Disjoint) (room : c.source.toNat + c.n.toNat < 2 ^ x.bits)
    (copied : Copied e c lo hi i s) (pc : s.pc = .five) (short : i < c.n.toNat) :
    Ends e c s := by
  refine copied.loop .tailLoad .tailStore disjoint room Nat.one_pos x.szreg_pos
    (Nat.le_refl c.n.toNat) (fun there at' => ?_) (fun there at' => there.three at')
    (c.n.toNat - i - 1) (by omega) pc
  rw [next, at', BitVec.ofNat_toNat, BitVec.setWidth_eq, there.a3]

theorem Copied.two (disjoint : c.Disjoint) (room : c.source.toNat + c.n.toNat < 2 ^ x.bits)
    (copied : Copied e c lo hi i s) (pc : s.pc = .two) : Ends e c s := by
  have within := copied.inside
  have stepped : next e s = some { s with pc := if s.a1 < s.a3 then .five else .three } := by
    rw [next, pc]
  have compares : s.a1 < s.a3 ↔ i < c.n.toNat := by
    have whole := toNat_source room (Nat.le_refl c.n.toNat)
    rw [BitVec.ofNat_toNat, BitVec.setWidth_eq] at whole
    rw [copied.a1, copied.a3, BitVec.lt_def, toNat_source room within, whole,
      Nat.add_lt_add_iff_left]
  rcases copied with ⟨inside, clean, a0, a1, a3, t0, t1, mem, stores⟩
  rcases Nat.lt_or_ge i c.n.toNat with short | all
  · rw [if_pos (compares.mpr short)] at stepped
    have moved : Copied e c lo hi i { s with pc := .five } :=
      ⟨inside, clean, a0, a1, a3, t0, t1, mem, stores⟩
    exact .of_next stepped (moved.five disjoint room rfl short)
  · obtain rfl : i = c.n.toNat := Nat.le_antisymm within all
    rw [if_neg (fun less => absurd (compares.mp less) (Nat.lt_irrefl _))] at stepped
    have moved : Copied e c lo hi c.n.toNat { s with pc := .three } :=
      ⟨inside, clean, a0, a1, a3, t0, t1, mem, stores⟩
    exact .of_next stepped (moved.three rfl)

/-- The words. -/
theorem Copied.one {turns stop : Nat} (disjoint : c.Disjoint)
    (room : c.source.toNat + c.n.toNat < 2 ^ x.bits)
    (copied : Copied e c lo (c.source + BitVec.ofNat _ stop) i s) (pc : s.pc = .one)
    (within : stop ≤ c.n.toNat) (aligned : i + (turns + 1) * x.szreg = stop) : Ends e c s := by
  refine copied.loop .wordLoad .wordStore disjoint room x.szreg_pos (Nat.le_refl _) within
    (fun there at' => ?_) (fun there at' => there.two disjoint room at') turns aligned pc
  rw [next, at', there.t1]

/-- The head, byte by byte up to the first whole word. -/
theorem Copied.four {turns start stop : Nat} (disjoint : c.Disjoint)
    (room : c.source.toNat + c.n.toNat < 2 ^ x.bits)
    (copied : Copied e c (c.source + BitVec.ofNat _ start) (c.source + BitVec.ofNat _ stop) i s)
    (pc : s.pc = .four) (short : i < start) (within : stop ≤ c.n.toNat)
    (aligned : start + (turns + 1) * x.szreg = stop) : Ends e c s := by
  refine copied.loop .headLoad .headStore disjoint room Nat.one_pos x.szreg_pos (by omega)
    (fun there at' => ?_) (fun there at' => there.one disjoint room at' within aligned)
    (start - i - 1) (by omega) pc
  rw [next, at', there.t0]

end End

/-! ## The entry -/

section Entry

variable {e : Env x} {c : Call x} {s t : State x}

/-- The low bits of both addresses match. -/
def Call.SameAlign (c : Call x) : Prop :=
  c.target &&& szregMask = c.source &&& szregMask

instance (c : Call x) : Decidable c.SameAlign :=
  inferInstanceAs (Decidable (_ = _))

/-- The lowest aligned address in the source, as the code finds it. -/
def Call.lowest (c : Call x) : Word x :=
  c.source + szregMask &&& ~~~szregMask

/-- The highest aligned address in the source. -/
def Call.highest (c : Call x) : Word x :=
  c.source + c.n &&& ~~~szregMask

theorem szreg_eq_two_pow (x : XLen) : ∃ k ≤ x.bits, x.szreg = 2 ^ k := by
  cases x
  · exact ⟨2, by decide, rfl⟩
  · exact ⟨3, by decide, rfl⟩

theorem toNat_roundDown (v : Word x) :
    (v &&& ~~~szregMask).toNat = v.toNat - v.toNat % x.szreg := by
  obtain ⟨k, inside, size⟩ := szreg_eq_two_pow x
  rw [szregMask, size, toNat_and_not_low inside]

theorem toNat_and_szregMask (v : Word x) : (v &&& szregMask).toNat = v.toNat % x.szreg := by
  obtain ⟨k, inside, size⟩ := szreg_eq_two_pow x
  rw [szregMask, size, toNat_and_low inside]

theorem toNat_szregMask (x : XLen) : (szregMask : Word x).toNat = x.szreg - 1 := by
  cases x <;> rfl

theorem toNat_roundUp_szreg {a : Word x} (inside : a.toNat + x.szreg ≤ 2 ^ x.bits) :
    (a + szregMask &&& ~~~szregMask).toNat
      = a.toNat + (x.szreg - 1) - (a.toNat + (x.szreg - 1)) % x.szreg := by
  obtain ⟨k, width, size⟩ := szreg_eq_two_pow x
  have positive := x.szreg_pos
  rw [szregMask, size]
  exact toNat_alignUp width (by omega)

/-- Above the last word, rounding up leaves the address space. -/
theorem roundUp_szreg_of_wraps {a : Word x} (beyond : 2 ^ x.bits < a.toNat + x.szreg) :
    a + szregMask &&& ~~~szregMask = 0 := by
  obtain ⟨k, width, size⟩ := szreg_eq_two_pow x
  rw [szregMask, size]
  exact alignUp_of_wraps width (by omega)

/-- The first step sets the registers up, and goes to the words or their head only if both
addresses are aligned alike and there is a whole word. -/
theorem entry_cases (e : Env x) (c : Call x) :
    (∃ lo hi, Copied e c lo hi 0 (entry e c.start) ∧ (entry e c.start).pc = .two ∧
      (c.SameAlign → c.highest ≤ c.lowest)) ∨
    (Copied e c c.lowest c.highest 0 (entry e c.start) ∧ c.SameAlign ∧ c.lowest < c.highest ∧
      (entry e c.start).pc = if c.source < c.lowest then .four else .one) := by
  have none : Clean e c 0 0 := fun _ _ below => absurd below (Nat.not_lt_zero _)
  have user : ∃ t6 sstatus, enableUserAccess e c.start = { c.start with t6, sstatus } := by
    unfold enableUserAccess
    split
    · exact ⟨_, _, rfl⟩
    · exact ⟨c.start.t6, c.start.sstatus, rfl⟩
  rcases user with ⟨t6, sstatus, enabled⟩
  by_cases same : c.SameAlign
  · by_cases whole : c.highest ≤ c.lowest
    · have at_two : entry e c.start = { c.start with
          t6, sstatus, a3 := c.source + c.n, t0 := c.lowest, t1 := c.highest, pc := .two } := by
        unfold entry
        rw [enabled]
        exact (if_neg (not_not_intro same)).trans (if_pos whole)
      rw [at_two]
      exact .inl ⟨c.lowest, c.highest, ⟨Nat.zero_le _, none, (BitVec.add_zero _).symm,
        (BitVec.add_zero _).symm, rfl, rfl, rfl, rfl, rfl⟩, rfl, fun _ => whole⟩
    · have beyond : entry e c.start = { c.start with
          t6, sstatus, a3 := c.source + c.n, t0 := c.lowest, t1 := c.highest
          pc := if c.source < c.lowest then .four else .one } := by
        unfold entry
        rw [enabled]
        refine ((if_neg (not_not_intro same)).trans (if_neg whole)).trans ?_
        by_cases short : c.source < c.lowest
        · exact (if_pos short).trans (by rw [if_pos short]; rfl)
        · exact (if_neg short).trans (by rw [if_neg short]; rfl)
      rw [beyond]
      exact .inr ⟨⟨Nat.zero_le _, none, (BitVec.add_zero _).symm, (BitVec.add_zero _).symm, rfl,
        rfl, rfl, rfl, rfl⟩, same, BitVec.not_le.mp whole, rfl⟩
  · have at_two : entry e c.start = { c.start with
        t6, sstatus, a3 := c.source + c.n, t0 := c.target &&& szregMask
        t1 := c.source &&& szregMask, pc := .two } := by
      unfold entry
      rw [enabled]
      exact if_pos same
    rw [at_two]
    exact .inl ⟨_, _, ⟨Nat.zero_le _, none, (BitVec.add_zero _).symm, (BitVec.add_zero _).symm, rfl,
      rfl, rfl, rfl, rfl⟩, rfl, fun aligned => absurd aligned same⟩

/-- Rounding the source up to an aligned address leaves the address space, and the code goes by
it. -/
def Call.RoundsOver (c : Call x) : Prop :=
  c.SameAlign ∧ 2 ^ x.bits < c.source.toNat + x.szreg

instance (c : Call x) : Decidable c.RoundsOver :=
  inferInstanceAs (Decidable (_ ∧ _))

theorem toNat_lowest (inside : c.source.toNat + x.szreg ≤ 2 ^ x.bits) :
    c.lowest.toNat =
      c.source.toNat + (x.szreg - 1) - (c.source.toNat + (x.szreg - 1)) % x.szreg :=
  toNat_roundUp_szreg inside

theorem lowest_of_roundsOver (rounds : c.RoundsOver) : c.lowest = 0 :=
  roundUp_szreg_of_wraps rounds.2

theorem toNat_highest (room : c.source.toNat + c.n.toNat < 2 ^ x.bits) :
    c.highest.toNat = c.source.toNat + c.n.toNat - (c.source.toNat + c.n.toNat) % x.szreg := by
  rw [Call.highest, toNat_roundDown, BitVec.toNat_add, Nat.mod_eq_of_lt room]

/-- An address at a distance from the source. -/
theorem source_add {a : Word x} (after : c.source.toNat ≤ a.toNat) :
    a = c.source + BitVec.ofNat _ (a.toNat - c.source.toNat) := by
  refine BitVec.eq_of_toNat_eq ?_
  rw [BitVec.toNat_add, BitVec.toNat_ofNat, Nat.add_mod_mod, Nat.add_sub_cancel' after,
    Nat.mod_eq_of_lt a.isLt]

/-- A call whose source ends and rounds inside the address space comes to its end. -/
theorem Call.ends (e : Env x) (disjoint : c.Disjoint)
    (room : c.source.toNat + c.n.toNat < 2 ^ x.bits) (rounds : ¬c.RoundsOver) :
    Ends e c c.start := by
  refine .of_next (t := entry e c.start) rfl ?_
  rcases entry_cases e c with ⟨lo, hi, copied, pc, _⟩ | ⟨copied, same, whole, pc⟩
  · exact copied.two disjoint room pc
  · have inside : c.source.toNat + x.szreg ≤ 2 ^ x.bits :=
      Nat.not_lt.mp fun beyond => rounds ⟨same, beyond⟩
    have positive := x.szreg_pos
    have low := toNat_lowest inside
    have high := toNat_highest room
    have remainder := Nat.mod_lt (c.source.toNat + (x.szreg - 1)) positive
    have start : c.source.toNat ≤ c.lowest.toNat := by omega
    have ordered : c.lowest.toNat < c.highest.toNat := BitVec.lt_def.mp whole
    have within : c.highest.toNat - c.source.toNat ≤ c.n.toNat := by omega
    have words : ∃ turns, c.lowest.toNat - c.source.toNat + (turns + 1) * x.szreg
        = c.highest.toNat - c.source.toNat := by
      have low' : x.szreg ∣ c.lowest.toNat := low ▸ Nat.dvd_sub_mod _
      have high' : x.szreg ∣ c.highest.toNat := high ▸ Nat.dvd_sub_mod _
      obtain ⟨turns, apart⟩ := Nat.dvd_sub high' low'
      rcases turns with _ | turns
      · rw [Nat.mul_zero] at apart
        omega
      · refine ⟨turns, ?_⟩
        rw [Nat.mul_comm] at apart
        omega
    rcases words with ⟨turns, aligned⟩
    rw [source_add (c := c) (a := c.highest) (by omega)] at copied
    split at pc
    · rename_i short
      rw [BitVec.lt_def] at short
      rw [source_add (c := c) (a := c.lowest) start] at copied
      exact copied.four disjoint room pc (by omega) within aligned
    · rename_i atWord
      have same' : c.lowest.toNat - c.source.toNat = 0 := by
        have := BitVec.not_lt.mp atWord
        rw [BitVec.le_def] at this
        omega
      rw [same'] at aligned
      exact copied.one disjoint room pc within aligned

end Entry

/-! ## What a call reports -/

section Report

variable {e : Env x} {c : Call x} {s t : State x}

/-- The value of a call counts the bytes that are missing: it is at most `n`, all but that many
bytes of the source have been stored at the target, in order, and nothing else was. It is zero
only if all have been. -/
structure Reports (c : Call x) (t : State x) : Prop where
  le : t.a0.toNat ≤ c.n.toNat
  stores : t.stores = placed c.target (c.before.mem.read c.source (c.n.toNat - t.a0.toNat))
  mem : t.mem = c.before.mem.write c.target (c.before.mem.read c.source (c.n.toNat - t.a0.toNat))

/-- `__copy_user` returns, and its value counts the missing bytes. -/
def Reported (e : Env x) (c : Call x) : Prop :=
  ∃ t, Run (Steps (next e)) c.start t ∧ t.pc = .caller ∧ Reports c t

/-- Nothing follows the return. -/
theorem next_of_caller (pc : t.pc = .caller) : next e t = none := by
  rw [next, pc]

/-- A report is one of the state that the hart comes to. -/
theorem Reported.of_run (reported : Reported e c) (run : Run (Steps (next e)) c.start t)
    (pc : t.pc = .caller) : Reports c t := by
  rcases reported with ⟨u, run', pc', reports⟩
  rw [Run.end_unique run (next_of_caller pc) run' (next_of_caller pc')]
  exact reports

/-- The length of what was stored tells the value. -/
theorem Reports.length_stores (reports : Reports c t) :
    t.stores.length = c.n.toNat - t.a0.toNat := by
  rw [reports.stores, length_placed, Memory.length_read]

/-- For two ranges that do not overlap, what the fixup makes of the registers is never the number
of the missing bytes. -/
theorem not_reports_of_fixup {i : Nat} (disjoint : c.Disjoint) (short : i < c.n.toNat)
    (length : t.stores.length = i)
    (value : t.a0 = c.source + c.n - (c.target + BitVec.ofNat _ i)) : ¬Reports c t := by
  intro reports
  have missing : t.a0 = c.n - BitVec.ofNat _ i := by
    have count := reports.length_stores
    have le := reports.le
    have bound := c.n.isLt
    refine BitVec.eq_of_toNat_eq ?_
    have inside : BitVec.ofNat x.bits i ≤ c.n := by
      rw [BitVec.le_def, BitVec.toNat_ofNat, Nat.mod_eq_of_lt (by omega)]
      omega
    rw [BitVec.toNat_sub_of_le inside, BitVec.toNat_ofNat, Nat.mod_eq_of_lt (by omega)]
    omega
  have same : c.source = c.target := by
    have split : c.source + c.n - (c.target + BitVec.ofNat _ i)
        = c.n - BitVec.ofNat _ i + (c.source - c.target) := by ring
    rw [split, missing] at value
    exact sub_eq_zero.mp (left_eq_add.mp value)
  have apart := disjoint.1
  rw [same, BitVec.sub_self, BitVec.toNat_zero] at apart
  omega

/-- A call that comes to its end reports exactly if nothing faults. -/
theorem reported_iff_of_ends (disjoint : c.Disjoint) (ends : Ends e c c.start) :
    Reported e c ↔ Clean e c 0 c.n.toNat := by
  rcases ends with ⟨t, i, run, ended⟩
  rcases ended.value with ⟨rfl, clean, value⟩ | ⟨short, dirty, value⟩
  · refine iff_of_true ⟨t, run, ended.pc, ?_⟩ clean
    have zero : t.a0.toNat = 0 := by rw [value]; rfl
    refine ⟨by omega, ?_, ?_⟩
    · rw [zero]
      exact ended.stores
    · rw [zero]
      exact ended.mem
  · refine iff_of_false (fun reported => ?_) dirty
    have length : t.stores.length = i := by
      rw [ended.stores, length_placed, Memory.length_read]
    exact not_reports_of_fixup disjoint short length value (reported.of_run run ended.pc)

theorem entry_stores (e : Env x) (s : State x) : (entry e s).stores = s.stores := by
  have user : (enableUserAccess e s).stores = s.stores := by
    unfold enableUserAccess
    split <;> rfl
  unfold entry
  dsimp only
  split
  · exact user
  · split
    · exact user
    · split <;> exact user

/-- The stored bytes only grow. -/
theorem next_stores (stepped : next e s = some t) : s.stores.length ≤ t.stores.length := by
  have unit : ∀ {len : Nat} {load store : Insn} {limit : Word x} {exit : Label},
      copyUnit e len load store limit exit s = some t → s.stores.length ≤ t.stores.length := by
    intro len load store limit exit unit
    by_cases faultless :
      faultsAt e.loadFault len s.a1 = false ∧ faultsAt e.storeFault len s.a0 = false
    · rw [copyUnit_of_clean faultless.1 faultless.2] at unit
      cases unit
      simp only [List.length_append, Nat.le_add_right]
    · obtain ⟨t2, faulted⟩ := copyUnit_of_fault faultless
      rw [faulted] at unit
      cases unit
      exact Nat.le_refl _
  unfold next at stepped
  split at stepped
  · cases stepped
    exact Nat.le_of_eq (congrArg List.length (entry_stores e s)).symm
  · exact unit stepped
  · cases stepped
    exact Nat.le_refl _
  · cases stepped
    exact Nat.le_of_eq (congrArg List.length (disableUserAccess_stores e s)).symm
  · exact unit stepped
  · exact unit stepped
  · cases stepped
    exact Nat.le_of_eq (congrArg List.length (disableUserAccess_stores e s)).symm
  · cases stepped

theorem length_stores_le {k : Nat} (run : Run (Steps (next e)) s t) (start : k ≤ s.stores.length) :
    k ≤ t.stores.length := by
  have kept : Keeps (Steps (next e)) fun t => k ≤ t.stores.length :=
    fun _ _ long stepped => long.trans (next_stores stepped)
  exact Run.keeps kept start run

/-- Where the source ends at the end of the address space, its end wraps to zero, and the code
returns zero without a copy. -/
theorem not_reported_of_wraps (wraps : c.source.toNat + c.n.toNat = 2 ^ x.bits)
    (some_bytes : c.n ≠ 0) : ¬Reported e c := by
  have zero : c.source + c.n = 0 := add_eq_zero_of_wraps wraps
  have positive : 0 < c.n.toNat :=
    Nat.pos_of_ne_zero fun none => some_bytes (BitVec.eq_of_toNat_eq none)
  intro reported
  rcases entry_cases e c with ⟨lo, hi, copied, pc, _⟩ | ⟨_, _, whole, _⟩
  · generalize entered : entry e c.start = s at copied pc
    have first : next e c.start = some s := congrArg some entered
    have atEnd : ¬s.a1 < s.a3 := by
      rw [copied.a3, zero]
      exact BitVec.not_lt_zero
    have second : next e s = some { s with pc := .three } := by
      rw [next, pc]
      simp only [if_neg atEnd]
    obtain ⟨t, third, pc', stores, value⟩ : ∃ t, next e { s with pc := .three } = some t ∧
        t.pc = .caller ∧ t.stores = s.stores ∧ t.a0 = 0 :=
      ⟨_, rfl, rfl, disableUserAccess_stores e { s with pc := .three }, rfl⟩
    have run : Run (Steps (next e)) c.start t := .head first (.head second (.single third))
    have count := (reported.of_run run pc').length_stores
    rw [stores, copied.stores, length_placed, Memory.length_read, value] at count
    have none : (0 : Word x).toNat = 0 := rfl
    omega
  · rw [Call.highest, zero, BitVec.lt_def] at whole
    have none : (0 &&& ~~~szregMask : Word x) = 0 := BitVec.zero_and
    rw [none] at whole
    exact absurd whole (Nat.not_lt_zero _)

/-- Where the source rounds over the end of the address space, the code starts with a whole word
whatever the length, and only a fault of that word can save it. -/
theorem reported_iff_of_roundsOver (disjoint : c.Disjoint)
    (room : c.source.toNat + c.n.toNat < 2 ^ x.bits) (rounds : c.RoundsOver) :
    Reported e c ↔ c.n = 0 ∧ c.target = c.source ∧
      ¬(faultsAt e.loadFault x.szreg c.source = false ∧
        faultsAt e.storeFault x.szreg c.target = false) := by
  have wide : 2 * x.szreg ≤ 2 ^ x.bits := by cases x <;> decide
  have beyond := rounds.2
  have low : c.lowest = 0 := lowest_of_roundsOver rounds
  have high : 0 < c.highest.toNat := by
    rw [toNat_highest room]
    have remainder := Nat.mod_lt (c.source.toNat + c.n.toNat) x.szreg_pos
    omega
  rcases entry_cases e c with ⟨_, _, _, _, none⟩ | ⟨copied, _, _, pc⟩
  · have le := BitVec.le_def.mp (none rounds.1)
    rw [low] at le
    exact absurd high (Nat.not_lt.mpr le)
  · have below : ¬c.source < c.lowest := by
      rw [low]
      exact BitVec.not_lt_zero
    rw [if_neg below] at pc
    have first : next e c.start = some (entry e c.start) := rfl
    generalize entry e c.start = s at copied pc first
    have a0 : s.a0 = c.target := copied.a0.trans (BitVec.add_zero _)
    have a1 : s.a1 = c.source := copied.a1.trans (BitVec.add_zero _)
    have body : next e s = copyUnit e x.szreg .wordLoad .wordStore s.t1 .two s := by
      rw [next, pc]
    by_cases faultless : faultsAt e.loadFault x.szreg c.source = false ∧
        faultsAt e.storeFault x.szreg c.target = false
    · -- A whole word has been stored, and the length is less than that.
      refine iff_of_false (fun reported => ?_) (fun ⟨_, _, faults⟩ => faults faultless)
      have unit := body.trans (copyUnit_of_clean (a1.symm ▸ faultless.1) (a0.symm ▸ faultless.2))
      rcases reported with ⟨t, whole, pc', reports⟩
      have run := Run.through (.head first (.single unit)) whole (next_of_caller pc')
      have long := length_stores_le (k := x.szreg) run (by simp)
      have count := reports.length_stores
      omega
    · obtain ⟨u, unit, copied', pc'⟩ := copied.fault (by rwa [a0, a1])
      obtain ⟨t, stepped, pc'', mem, stores, value⟩ := copied'.fixup pc'
      have run : Run (Steps (next e)) c.start t :=
        .head first (.head (body.trans unit) (.single stepped))
      constructor
      · intro reported
        have reports := reported.of_run run pc''
        have none : ¬0 < c.n.toNat := fun some_bytes =>
          not_reports_of_fixup disjoint some_bytes
            (by rw [stores, length_placed, Memory.length_read]) value reports
        have zero : c.n = 0 := BitVec.eq_of_toNat_eq (Nat.eq_zero_of_not_pos none)
        have le := reports.le
        have back : t.a0 = 0 :=
          BitVec.eq_of_toNat_eq (Nat.eq_zero_of_le_zero (le.trans (Nat.not_lt.mp none)))
        rw [back, zero, BitVec.add_zero, add_zero] at value
        exact ⟨zero, (sub_eq_zero.mp value.symm).symm, faultless⟩
      · intro given
        rcases given with ⟨zero, same, _⟩
        rw [zero, same, BitVec.add_zero, add_zero, BitVec.sub_self] at value
        refine ⟨t, run, pc'', ?_, ?_, ?_⟩
        · rw [value]
          exact Nat.zero_le _
        · rw [zero, value]
          exact stores
        · rw [zero, value]
          exact mem

/-- The calls whose value counts the missing bytes. Unless rounding the source leaves the address
space, these are those without a fault, but not a call with bytes up to the very end of it. -/
def Harmless (e : Env x) (c : Call x) : Prop :=
  if c.RoundsOver then
    c.n = 0 ∧ c.target = c.source ∧
      ¬(faultsAt e.loadFault x.szreg c.source = false ∧
        faultsAt e.storeFault x.szreg c.target = false)
  else
    (c.n = 0 ∨ c.source.toNat + c.n.toNat < 2 ^ x.bits) ∧ Clean e c 0 c.n.toNat

theorem reported_iff_harmless (disjoint : c.Disjoint) (fits : c.Fits) :
    Reported e c ↔ Harmless e c := by
  unfold Harmless
  rcases Nat.lt_or_eq_of_le fits with room | wraps
  · split
    · rename_i rounds
      exact reported_iff_of_roundsOver disjoint room rounds
    · rename_i notOver
      rw [reported_iff_of_ends disjoint (Call.ends e disjoint room notOver)]
      exact (and_iff_right (.inr room)).symm
  · have some_bytes : c.n ≠ 0 := fun none => by
      rw [none] at wraps
      exact absurd wraps (Nat.ne_of_lt c.source.isLt)
    refine iff_of_false (not_reported_of_wraps wraps some_bytes) ?_
    split
    · exact fun harmless => some_bytes harmless.1
    · intro given
      rcases given with ⟨none | room, _⟩
      · exact some_bytes none
      · omega

end Report

/-! ## The callers -/

/-- The three ways to `__copy_user`. -/
inductive Function
  | copyUser
  | copyFromUser
  | copyToUser
  deriving DecidableEq, Repr

/-- `__access_ok`, with the limit of the thread. -/
def accessOk (fs addr size : Word x) : Bool :=
  size ≤ fs && addr ≤ fs - size

/-- The check before the copy. -/
def Function.check (f : Function) (fs : Word x) (c : Call x) : Bool :=
  match f with
  | .copyUser => true
  | .copyFromUser => accessOk fs c.source c.n
  | .copyToUser => accessOk fs c.target c.n

/-- The function returns in the given state, its value in `a0`: that of `__copy_user`, or `n` where
the check fails. -/
def Returns (e : Env x) (f : Function) (fs : Word x) (c : Call x) (t : State x) : Prop :=
  if f.check fs c then Run (Steps (next e)) c.start t ∧ t.pc = .caller
  else t = { c.start with a0 := c.n, pc := .caller }

/-- Each of the functions returns with the number of the missing bytes exactly if its check fails
or the call is harmless. -/
theorem returns_reports_iff {e : Env x} (f : Function) (fs : Word x) {c : Call x}
    (disjoint : c.Disjoint) (fits : c.Fits) :
    (∃ t, Returns e f fs c t ∧ Reports c t) ↔ (f.check fs c = true → Harmless e c) := by
  unfold Returns
  split
  · rename_i checked
    rw [imp_iff_right checked, ← reported_iff_harmless disjoint fits]
    simp only [Reported, and_assoc]
  · rename_i refused
    refine iff_of_true ⟨_, rfl, Nat.le_refl _, ?_, ?_⟩ (fun checked => absurd checked refused)
    · rw [Nat.sub_self]
      rfl
    · rw [Nat.sub_self]
      rfl

/-- A state of an `rv64` hart before a call, for runs on fixed inputs. -/
def idle : State .rv64 where
  pc := .caller
  a0 := 0
  a1 := 0
  a2 := 0
  a3 := 0
  t0 := 0
  t1 := 0
  t2 := 0
  t6 := 0
  sstatus := srPum
  mem := fun _ => 0
  stores := []

/-- A copy of eight bytes from mapped user memory reports, by the theorem. -/
theorem returns_reports_iff_mapped :
    ∃ t, Returns ⟨true, fun _ => false, fun _ => false⟩ .copyFromUser 0xffffffff78000000
        ⟨0xffffffff80001000, 0x10000, 8, idle⟩ t ∧
      Reports ⟨0xffffffff80001000, 0x10000, 8, idle⟩ t :=
  (returns_reports_iff .copyFromUser 0xffffffff78000000 (by decide) (by decide)).mpr fun _ =>
    (if_neg (by decide)).mpr ⟨.inr (by decide), fun _ _ _ => ⟨rfl, rfl⟩⟩

/-- A copy of eight bytes from user memory that is not mapped gives a number larger than eight. -/
theorem not_reports_unmapped :
    ¬∃ t, Returns ⟨true, fun a => a < 0xffffffff80000000, fun _ => false⟩ .copyFromUser
      0xffffffff78000000 ⟨0xffffffff80001000, 0x10000, 8, idle⟩ t ∧
      Reports ⟨0xffffffff80001000, 0x10000, 8, idle⟩ t := by
  intro given
  rcases given with ⟨t, returns, reports⟩
  have disjoint : Call.Disjoint ⟨0xffffffff80001000, 0x10000, 8, idle⟩ := by decide
  have ends := Call.ends ⟨true, fun a => a < 0xffffffff80000000, fun _ => false⟩ disjoint
    (by decide) (by decide)
  have clean := (reported_iff_of_ends disjoint ends).mp ⟨t, returns.1, returns.2, reports⟩
  exact absurd (clean 0 (Nat.le_refl 0) (by decide)).1 (by decide)

/-! ## The protection of user memory -/

/-- After the entry `t6` holds the flag, and after the return the flag is set. -/
def Window (s : State x) : Prop :=
  s.pc = .entry ∨ s.t6 = srPum ∧ (s.pc = .caller → s.sstatus &&& srPum = srPum)

section Protection

variable {e : Env x} {s t : State x}

theorem enableUserAccess_t6 (pum : e.rvPum = true) (s : State x) :
    (enableUserAccess e s).t6 = srPum := by
  unfold enableUserAccess
  rw [if_pos pum]

theorem disableUserAccess_sstatus (pum : e.rvPum = true) (flag : s.t6 = srPum) :
    (disableUserAccess e s).sstatus &&& srPum = srPum := by
  unfold disableUserAccess
  rw [if_pos pum, flag]
  exact setBits_and_of_covered BitVec.and_self

theorem disableUserAccess_t6 (e : Env x) (s : State x) : (disableUserAccess e s).t6 = s.t6 := by
  unfold disableUserAccess
  split <;> rfl

theorem entry_window (pum : e.rvPum = true) (s : State x) : Window (entry e s) := by
  have flag := enableUserAccess_t6 pum s
  unfold entry
  dsimp only
  split
  · exact .inr ⟨flag, nofun⟩
  · split
    · exact .inr ⟨flag, nofun⟩
    · split <;> exact .inr ⟨flag, nofun⟩

theorem copyUnit_window {len : Nat} {load store : Insn} {limit : Word x} {exit : Label}
    (inside : s.pc ≠ .caller) (flag : s.t6 = srPum)
    (unit : copyUnit e len load store limit exit s = some t) (leaves : exit ≠ .caller) :
    Window t := by
  by_cases faultless :
    faultsAt e.loadFault len s.a1 = false ∧ faultsAt e.storeFault len s.a0 = false
  · rw [copyUnit_of_clean faultless.1 faultless.2] at unit
    cases unit
    refine .inr ⟨flag, fun returned => ?_⟩
    dsimp only at returned
    split at returned
    · exact absurd returned inside
    · exact absurd returned leaves
  · obtain ⟨t2, faulted⟩ := copyUnit_of_fault faultless
    rw [faulted] at unit
    cases unit
    exact .inr ⟨flag, nofun⟩

theorem next_window (pum : e.rvPum = true) : Keeps (Steps (next e)) Window := by
  intro s t window stepped
  have flag : s.pc ≠ .entry → s.t6 = srPum := fun started => (window.resolve_left started).1
  unfold Steps next at stepped
  split at stepped <;> rename_i pc
  · cases stepped
    exact entry_window pum s
  · exact copyUnit_window (by simp [pc]) (flag (by simp [pc])) stepped (by decide)
  · cases stepped
    refine .inr ⟨flag (by simp [pc]), fun returned => ?_⟩
    dsimp only at returned
    split at returned <;> cases returned
  · cases stepped
    have set := flag (by simp [pc])
    exact .inr ⟨(disableUserAccess_t6 e s).trans set, fun _ => disableUserAccess_sstatus pum set⟩
  · exact copyUnit_window (by simp [pc]) (flag (by simp [pc])) stepped (by decide)
  · exact copyUnit_window (by simp [pc]) (flag (by simp [pc])) stepped (by decide)
  · cases stepped
    have set := flag (by simp [pc])
    exact .inr ⟨(disableUserAccess_t6 e s).trans set, fun _ => disableUserAccess_sstatus pum set⟩
  · cases stepped

end Protection

/-- Whatever faults, the kernel is kept from user memory again when the call has returned. -/
theorem returns_protected {e : Env x} {c : Call x} {t : State x} (pum : e.rvPum = true)
    (run : Run (Steps (next e)) c.start t) (pc : t.pc = .caller) :
    t.sstatus &&& srPum = srPum := by
  rcases Run.keeps (next_window pum) (.inl rfl) run with start | ⟨_, set⟩
  · rw [pc] at start
    cases start
  · exact set pc

end RiscvLinux.Uaccess
