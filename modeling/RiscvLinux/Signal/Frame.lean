import RiscvLinux.Signal.Task

/-!
# Signal frames

`setup_rt_frame` and `rt_sigreturn` with their helpers, over the bytes of user memory.

* `rtSigreturn_supervisor`: whatever the frame holds, no supervisor field of
  `struct pt_regs` comes from it.
* `SetUp.rtSigreturn`: a return through an unmodified frame restores what the frame
  was set up from.
-/

namespace RiscvLinux.Signal

open Lib Trap

variable {x : XLen}

/-! ## Two structures with one start -/

/-- The fields of `struct user_regs_struct`, in its order. -/
inductive UserReg
  | pc | ra | sp | gp | tp | t0 | t1 | t2 | s0 | s1
  | a0 | a1 | a2 | a3 | a4 | a5 | a6 | a7
  | s2 | s3 | s4 | s5 | s6 | s7 | s8 | s9 | s10 | s11
  | t3 | t4 | t5 | t6
  deriving DecidableEq, Repr

namespace UserReg

/-- The fields as the structure declares them. -/
def all : List UserReg :=
  [pc, ra, sp, gp, tp, t0, t1, t2, s0, s1, a0, a1, a2, a3, a4, a5, a6, a7,
    s2, s3, s4, s5, s6, s7, s8, s9, s10, s11, t3, t4, t5, t6]

/-- How many words stand before the field. -/
def index (u : UserReg) : Nat :=
  all.idxOf u

/-- The field of `struct pt_regs` of the same meaning. -/
def toPt : UserReg → PtReg
  | pc => .sepc
  | ra => .ra
  | sp => .sp
  | gp => .gp
  | tp => .tp
  | t0 => .t0
  | t1 => .t1
  | t2 => .t2
  | s0 => .s0
  | s1 => .s1
  | a0 => .a0
  | a1 => .a1
  | a2 => .a2
  | a3 => .a3
  | a4 => .a4
  | a5 => .a5
  | a6 => .a6
  | a7 => .a7
  | s2 => .s2
  | s3 => .s3
  | s4 => .s4
  | s5 => .s5
  | s6 => .s6
  | s7 => .s7
  | s8 => .s8
  | s9 => .s9
  | s10 => .s10
  | s11 => .s11
  | t3 => .t3
  | t4 => .t4
  | t5 => .t5
  | t6 => .t6

/-- `struct user_regs_struct` is a prefix of `struct pt_regs`, field by field. -/
theorem index_toPt (u : UserReg) : u.toPt.index = u.index := by
  cases u <;> rfl

end UserReg

/-- `sizeof(sc->sc_regs)`. -/
def scRegsSize (x : XLen) : Nat := x.szreg * UserReg.all.length

/-- The bytes of `struct pt_regs`. -/
def ptRegsBytes (regs : PtRegs x) : List UInt8 :=
  wordsBytes x.szreg (PtReg.all.map regs)

/-- The structure with the given bytes. -/
def ptRegsOfBytes (bs : List UInt8) : PtRegs x := fun r =>
  wordAt x.bits x.szreg bs r.index

/-- The structure after a copy over its start, `__copy_from_user(regs, …)`. -/
def ptRegsCopied (bs : List UInt8) (regs : PtRegs x) : PtRegs x :=
  ptRegsOfBytes (overwrite bs (ptRegsBytes regs))

/-- The fields that user code may set: those of `struct user_regs_struct`. -/
def UserField (r : PtReg) : Prop := r.index < UserReg.all.length

instance (r : PtReg) : Decidable (UserField r) :=
  inferInstanceAs (Decidable (_ < _))

theorem length_ptRegsBytes (regs : PtRegs x) : (ptRegsBytes regs).length = ptSize x := by
  rw [ptRegsBytes, length_wordsBytes, List.length_map, PtReg.length_all, ptSize]

theorem wordAt_ptRegsBytes (regs : PtRegs x) (r : PtReg) :
    wordAt x.bits x.szreg (ptRegsBytes regs) r.index = regs r := by
  have inside : r.index < (PtReg.all.map regs).length := by
    rw [List.length_map]
    exact r.index_lt
  rw [ptRegsBytes, wordAt_wordsBytes (Nat.le_of_eq x.bits_eq) inside, List.getElem_map]
  exact congrArg regs (List.getElem_idxOf _)

theorem userField_le {r : PtReg} (user : UserField r) :
    x.szreg * r.index + x.szreg ≤ scRegsSize x :=
  Nat.mul_succ x.szreg _ ▸ Nat.mul_le_mul_left x.szreg (Nat.succ_le_of_lt user)

/-- The bytes of `sc_regs` give back the fields that user code may set, and only those. -/
theorem ptRegsCopied_ptRegsBytes (saved regs : PtRegs x) (r : PtReg) :
    ptRegsCopied ((ptRegsBytes saved).take (scRegsSize x)) regs r
      = if UserField r then saved r else regs r := by
  have length : ((ptRegsBytes saved).take (scRegsSize x)).length = scRegsSize x := by
    rw [List.length_take, length_ptRegsBytes]
    cases x <;> rfl
  split
  · rename_i user
    have inside := userField_le (x := x) user
    rw [ptRegsCopied, ptRegsOfBytes, wordAt_overwrite_of_lt (by rwa [length]), wordAt_take inside,
      wordAt_ptRegsBytes]
  · rename_i supervisor
    have past : scRegsSize x ≤ x.szreg * r.index :=
      Nat.mul_le_mul_left x.szreg (Nat.le_of_not_lt supervisor)
    rw [ptRegsCopied, ptRegsOfBytes, wordAt_overwrite_of_le (by rwa [length]), wordAt_ptRegsBytes]

/-- A copy of no more than `sc_regs` leaves the other fields, whatever it copies. -/
theorem ptRegsCopied_supervisor {bs : List UInt8} (short : bs.length ≤ scRegsSize x)
    (regs : PtRegs x) {r : PtReg} (supervisor : ¬ UserField r) :
    ptRegsCopied bs regs r = regs r := by
  have past : bs.length ≤ x.szreg * r.index :=
    Nat.le_trans short (Nat.mul_le_mul_left x.szreg (Nat.le_of_not_lt supervisor))
  rw [ptRegsCopied, ptRegsOfBytes, wordAt_overwrite_of_le past, wordAt_ptRegsBytes]

/-! ## The frame -/

/-- Where the fields of `struct rt_sigframe` are. The structure `ucontext` in it is the one of
the generic headers; what the code needs of it is that the fields follow each other. -/
structure FrameLayout (x : XLen) where
  info : Nat
  uc : Nat
  ucFlags : Nat
  ucLink : Nat
  ssSp : Nat
  ssFlags : Nat
  ssSize : Nat
  scRegs : Nat
  scFpregs : Nat
  ucSigmask : Nat
  size : Nat
  ucFlags_le : ucFlags + x.szreg ≤ ucLink
  ucLink_le : ucLink + x.szreg ≤ ssSp
  ssSp_le : ssSp + x.szreg ≤ ssFlags
  ssFlags_le : ssFlags + 4 ≤ ssSize
  ssSize_le : ssSize + x.szreg ≤ scRegs
  scRegs_le : scRegs + scRegsSize x ≤ scFpregs
  scFpregs_le : scFpregs + 264 ≤ ucSigmask
  ucSigmask_le : ucSigmask + 8 ≤ size
  size_le : size ≤ 2 ^ x.bits

/-- What the signal code takes from elsewhere: the layout of the frame, `USER_DS`, the address of
`rt_sigreturn` in the VDSO, and `copy_siginfo_to_user`. -/
structure Platform (x : XLen) where
  layout : FrameLayout x
  userDs : Word x
  vdsoRtSigreturn : Word x
  copySiginfoToUser : UserMem x → Word x → List UInt8 → UserMem x × Bool

/-- `access_ok`, with the address limit of user tasks. -/
def accessOk (P : Platform x) (a : Word x) (size : Nat) : Prop :=
  size ≤ P.userDs.toNat ∧ a.toNat ≤ P.userDs.toNat - size

instance (P : Platform x) (a : Word x) (size : Nat) : Decidable (accessOk P a size) :=
  inferInstanceAs (Decidable (_ ∧ _))

/-- A field of the frame at `a`. -/
def fieldAt (a : Word x) (off : Nat) : Word x := a + BitVec.ofNat x.bits off

/-- Copies to user memory in a row: the memory so far and `err`. -/
structure Copies (x : XLen) where
  mem : UserMem x
  err : Bool

/-- One more copy, `err |= __copy_to_user(…)`. -/
def Copies.put (c : Copies x) (a : Word x) (bs : List UInt8) : Copies x :=
  let r := c.mem.copyTo a bs
  ⟨r.1, c.err || r.2⟩

/-- Copies to fields of the frame at `a`. -/
def Copies.putAll (c : Copies x) (a : Word x) (rs : List (Nat × List UInt8)) : Copies x :=
  rs.foldl (fun c r => c.put (fieldAt a r.1) r.2) c

/-! ## Setting up -/

/-- `fstate_save`: `__fstate_save` is empty, so only the flag is left. -/
def fstateSave (regs : PtRegs x) : PtRegs x :=
  if regs .sstatus &&& srFs = srFsDirty then
    Function.update regs .sstatus (fstateClean (regs .sstatus))
  else regs

/-- `fstate_restore`. -/
def fstateRestore (regs : PtRegs x) : PtRegs x :=
  if regs .sstatus &&& srFs ≠ srFsOff then
    Function.update regs .sstatus (fstateClean (regs .sstatus))
  else regs

/-- `get_sigframe`. -/
def getSigframe (P : Platform x) (t : TaskStruct x) (k : KSignal x) : Word x :=
  let sp := t.regs .sp
  let framesize := BitVec.ofNat x.bits P.layout.size
  if t.onSigStack sp ∧ ¬ t.onSigStack (sp - framesize) then -1
  else (t.sigsp sp k - framesize) &&& ~~~15

/-- What `setup_rt_frame` copies to the frame after the `siginfo`: `uc_flags`, `uc_link`, the
settings of the alternate stack by `__save_altstack`, the registers and the floating-point state
by `setup_sigcontext`, and the mask. -/
def frameFields (L : FrameLayout x) (t : TaskStruct x) (set : SigSet) : List (Nat × List UInt8) :=
  [(L.ucFlags, toBytes x.szreg (0 : Word x)),
    (L.ucLink, toBytes x.szreg (0 : Word x)),
    (L.ssSp, toBytes x.szreg t.sasSsSp),
    (L.ssFlags, toBytes 4 (t.sasSsFlags (t.regs .sp))),
    (L.ssSize, toBytes x.szreg t.sasSsSize),
    (L.scRegs, (ptRegsBytes t.regs).take (scRegsSize x)),
    (L.scFpregs, t.fstate.bytes),
    (L.ucSigmask, toBytes 8 set)]

/-- The registers that the handler starts with. -/
def enterHandler (P : Platform x) (t : TaskStruct x) (k : KSignal x) (frame : Word x) :
    TaskStruct x :=
  let t := t.setReg .ra P.vdsoRtSigreturn
  let t := t.setReg .sepc k.handler
  let t := t.setReg .sp frame
  let t := t.setReg .a0 (BitVec.ofNat x.bits k.sig)
  let t := t.setReg .a1 (fieldAt frame P.layout.info)
  t.setReg .a2 (fieldAt frame P.layout.uc)

/-- `setup_rt_frame`, with whether it failed. -/
def setupRtFrame (P : Platform x) (t : TaskStruct x) (k : KSignal x) (set : SigSet) :
    TaskStruct x × Bool :=
  let L := P.layout
  let frame := getSigframe P t k
  if ¬ accessOk P frame L.size then (t, true)
  else
    let info := P.copySiginfoToUser t.mem (fieldAt frame L.info) k.info
    let c := Copies.putAll ⟨info.1, info.2⟩ frame (frameFields L t set)
    let t := { t with mem := c.mem, regs := fstateSave t.regs }
    if c.err then (t, true) else (enterHandler P t k frame, false)

/-! ## Returning -/

theorem FpRegs.length_overwrite (bs : List UInt8) (short : bs.length ≤ 264) (old : FpRegs) :
    (overwrite bs old.bytes).length = 264 := by
  rw [overwrite, List.length_append, List.length_drop, old.length_eq]
  omega

/-- The floating-point state after a copy over its start. -/
def FpRegs.copied (bs : List UInt8) (short : bs.length ≤ 264) (old : FpRegs) : FpRegs where
  bytes := overwrite bs old.bytes
  length_eq := old.length_overwrite bs short

/-- `restore_sigcontext`, with whether a copy faulted. -/
def restoreSigcontext (L : FrameLayout x) (t : TaskStruct x) (frame : Word x) :
    TaskStruct x × Bool :=
  let regs := t.mem.copyFrom (fieldAt frame L.scRegs) (scRegsSize x)
  let fp := t.mem.copyFrom (fieldAt frame L.scFpregs) 264
  let t := { t with
    regs := ptRegsCopied regs.1 t.regs
    fstate := t.fstate.copied fp.1 (t.mem.length_copyFrom_le _ _) }
  if regs.2 || fp.2 then (t, true) else ({ t with regs := fstateRestore t.regs }, false)

/-- `restore_altstack`: no task on a fault, and settings that are refused change nothing. -/
def restoreAltstack (P : Platform x) (t : TaskStruct x) (frame : Word x) :
    Option (TaskStruct x) :=
  let L := P.layout
  let ssSp := t.mem.copyFrom (fieldAt frame L.ssSp) x.szreg
  let ssFlags := t.mem.copyFrom (fieldAt frame L.ssFlags) 4
  let ssSize := t.mem.copyFrom (fieldAt frame L.ssSize) x.szreg
  if ¬ accessOk P (fieldAt frame L.ssSp) (L.ssSize + x.szreg - L.ssSp) then none
  else if ssSp.2 || ssFlags.2 || ssSize.2 then none
  else some (t.doSigaltstack (ofBytes x.bits ssSp.1) (ofBytes 32 ssFlags.1)
    (ofBytes x.bits ssSize.1) (t.regs .sp))

/-- `rt_sigreturn`: the task afterwards and the value it returns. A bad frame costs the task a
`SIGSEGV`. -/
def rtSigreturn (P : Platform x) (t : TaskStruct x) : TaskStruct x × Word x :=
  let L := P.layout
  let t := { t with restartFn := .doNoRestartSyscall }
  let frame := t.regs .sp
  if ¬ accessOk P frame L.size then (t.forceSigsegv, 0)
  else
    let set := t.mem.copyFrom (fieldAt frame L.ucSigmask) 8
    if set.2 then (t.forceSigsegv, 0)
    else
      let t := t.setCurrentBlocked (ofBytes 64 set.1)
      let context := restoreSigcontext L t frame
      if context.2 then (context.1.forceSigsegv, 0)
      else
        match restoreAltstack P context.1 frame with
        | none => (context.1.forceSigsegv, 0)
        | some t => (t, t.regs .a0)

/-! ## What user memory cannot do -/

theorem fstateSave_apply (regs : PtRegs x) {r : PtReg} (other : r ≠ .sstatus) :
    fstateSave regs r = regs r := by
  rw [fstateSave]
  split
  · exact Function.update_of_ne other ..
  · rfl

theorem fstateRestore_apply (regs : PtRegs x) {r : PtReg} (other : r ≠ .sstatus) :
    fstateRestore regs r = regs r := by
  rw [fstateRestore]
  split
  · exact Function.update_of_ne other ..
  · rfl

/-- Outside the floating-point flags `fstate_restore` keeps the status. -/
theorem fstateRestore_sstatus (regs : PtRegs x) :
    clearBits (fstateRestore regs .sstatus) srFs = clearBits (regs .sstatus) srFs := by
  have outside : (srFs : Word x) &&& ~~~srFs = 0 := by cases x <;> decide
  rw [fstateRestore]
  split
  · rw [Function.update_self, clearBits, fstateClean_and outside, clearBits]
  · rfl

/-- The supervisor part of `struct pt_regs`: `sstatus` but for its floating-point flags,
`sbadaddr` and `scause`. -/
def supervisorPart (regs : PtRegs x) : Word x × Word x × Word x :=
  (clearBits (regs .sstatus) srFs, regs .sbadaddr, regs .scause)

theorem restoreSigcontext_supervisor (L : FrameLayout x) (t : TaskStruct x) (frame : Word x) :
    supervisorPart (restoreSigcontext L t frame).1.regs = supervisorPart t.regs := by
  have short := t.mem.length_copyFrom_le (fieldAt frame L.scRegs) (scRegsSize x)
  have kept : ∀ r, ¬ UserField r →
      ptRegsCopied (t.mem.copyFrom (fieldAt frame L.scRegs) (scRegsSize x)).1 t.regs r = t.regs r :=
    fun _ supervisor => ptRegsCopied_supervisor short t.regs supervisor
  simp only [restoreSigcontext]
  split
  · simp only [supervisorPart]
    rw [kept .sstatus (by decide), kept .sbadaddr (by decide), kept .scause (by decide)]
  · simp only [supervisorPart]
    rw [fstateRestore_sstatus, fstateRestore_apply _ (by decide),
      fstateRestore_apply _ (by decide), kept .sstatus (by decide), kept .sbadaddr (by decide),
      kept .scause (by decide)]

/-- Whatever the memory of the task holds, `rt_sigreturn` takes no supervisor field from it. -/
theorem rtSigreturn_supervisor (P : Platform x) (t : TaskStruct x) :
    supervisorPart (rtSigreturn P t).1.regs = supervisorPart t.regs := by
  have context := fun t' => restoreSigcontext_supervisor P.layout t' (t.regs .sp)
  simp only [rtSigreturn]
  split
  · rfl
  split
  · rfl
  split
  · exact context _
  split
  · exact context _
  · rename_i restored
    simp only [restoreAltstack] at restored
    split at restored
    · exact absurd restored nofun
    split at restored
    · exact absurd restored nofun
    rw [Option.some.injEq] at restored
    subst restored
    rw [TaskStruct.doSigaltstack_regs]
    exact context _

/-! ## The round trip -/

theorem Copies.putAll_done {c : Copies x} {a : Word x} {rs : List (Nat × List UInt8)}
    (done : (c.putAll a rs).err = false) :
    c.err = false ∧ (c.putAll a rs).mem.bytes = c.mem.bytes.writeRuns a rs := by
  induction rs generalizing c with
  | nil => exact ⟨done, rfl⟩
  | cons r rs ih =>
    obtain ⟨first, rest⟩ := ih (c := c.put (fieldAt a r.1) r.2) done
    rw [Copies.put, Bool.or_eq_false_iff] at first
    refine ⟨first.1, rest.trans ?_⟩
    exact congrArg (Memory.writeRuns · a rs) (UserMem.copyTo_bytes first.2)

/-- The fields of a frame follow each other. -/
theorem laid_frameFields (L : FrameLayout x) (t : TaskStruct x) (set : SigSet) :
    Laid L.size (frameFields L t set) := by
  have regs : ((ptRegsBytes t.regs).take (scRegsSize x)).length = scRegsSize x := by
    rw [List.length_take, length_ptRegsBytes]
    cases x <;> rfl
  have some_regs : 0 < scRegsSize x := by cases x <;> decide
  have some_bytes := x.szreg_pos
  have h₁ := L.ucFlags_le
  have h₂ := L.ucLink_le
  have h₃ := L.ssSp_le
  have h₄ := L.ssFlags_le
  have h₅ := L.ssSize_le
  have h₆ := L.scRegs_le
  have h₇ := L.scFpregs_le
  have h₈ := L.ucSigmask_le
  constructor
  · simp only [frameFields, List.pairwise_cons, List.mem_cons, List.not_mem_nil, or_false,
      forall_eq_or_imp, forall_eq, length_toBytes, regs, t.fstate.length_eq, List.Pairwise.nil,
      false_implies, implies_true, and_true]
    omega
  · simp only [frameFields, List.mem_cons, List.not_mem_nil, or_false, forall_eq_or_imp, forall_eq,
      length_toBytes, regs, t.fstate.length_eq]
    omega
  · simp only [frameFields, List.mem_cons, List.not_mem_nil, or_false, forall_eq_or_imp, forall_eq,
      length_toBytes, regs, t.fstate.length_eq]
    omega

/-- The `size` bytes at `a` are the same in two memories, and the second can be read there. -/
structure Intact (a : Word x) (size : Nat) (m m' : UserMem x) : Prop where
  same : m'.bytes.read a size = m.bytes.read a size
  readable : ∀ i < size, m'.readable (a + BitVec.ofNat x.bits i) = true

/-- A part of an intact run is copied from it as it was. -/
theorem Intact.copyFrom {a : Word x} {size off n : Nat} {m m' : UserMem x}
    (intact : Intact a size m m') (inside : off + n ≤ size) :
    m'.copyFrom (fieldAt a off) n = (m.bytes.read (fieldAt a off) n, false) := by
  have readable : ∀ i < n, m'.readable (fieldAt a off + BitVec.ofNat x.bits i) = true := by
    intro i hi
    rw [fieldAt, BitVec.add_assoc, ← BitVec.ofNat_add]
    exact intact.readable (off + i) (by omega)
  rw [UserMem.copyFrom_eq readable, fieldAt, m'.bytes.read_part a inside, intact.same,
    ← m.bytes.read_part a inside]

/-- What a successful `setup_rt_frame` has done: the frame is in user space and holds its fields,
and but for the memory and the registers of the handler the task is as it was. -/
structure SetUp (P : Platform x) (t : TaskStruct x) (k : KSignal x) (set : SigSet)
    (t' : TaskStruct x) : Prop where
  ok : accessOk P (getSigframe P t k) P.layout.size
  task : ∃ mem, t' = enterHandler P { t with mem := mem, regs := fstateSave t.regs } k
    (getSigframe P t k)
  holds : ∀ r ∈ frameFields P.layout t set,
    t'.mem.bytes.read (fieldAt (getSigframe P t k) r.1) r.2.length = r.2

theorem setupRtFrame_done {P : Platform x} {t t' : TaskStruct x} {k : KSignal x} {set : SigSet}
    (done : setupRtFrame P t k set = (t', false)) : SetUp P t k set t' := by
  simp only [setupRtFrame] at done
  split at done
  · exact absurd (congrArg Prod.snd done) nofun
  rename_i ok
  split at done
  · exact absurd (congrArg Prod.snd done) nofun
  rename_i copied
  obtain ⟨-, bytes⟩ := Copies.putAll_done (Bool.eq_false_of_not_eq_true copied)
  rw [Prod.mk.injEq] at done
  rcases done with ⟨rfl, -⟩
  refine ⟨not_not.mp ok, ⟨_, rfl⟩, fun r member => ?_⟩
  have held : ∀ m : Memory x.bits, (m.writeRuns (getSigframe P t k)
      (frameFields P.layout t set)).read (fieldAt (getSigframe P t k) r.1) r.2.length = r.2 :=
    Memory.read_writeRuns_of_mem (laid_frameFields P.layout t set) P.layout.size_le member
  exact (congrArg (Memory.read · _ _) bytes).trans (held _)

section

variable {P : Platform x} {t t' u : TaskStruct x} {k : KSignal x} {set : SigSet}

/-- Through an intact frame every field is read as it was written. -/
theorem SetUp.copyFrom (setUp : SetUp P t k set t')
    (intact : Intact (getSigframe P t k) P.layout.size t'.mem u.mem) {r : Nat × List UInt8}
    (member : r ∈ frameFields P.layout t set) :
    u.mem.copyFrom (fieldAt (getSigframe P t k) r.1) r.2.length = (r.2, false) := by
  rw [intact.copyFrom ((laid_frameFields P.layout t set).inside r member), setUp.holds r member]

/-- The registers that `restore_sigcontext` leaves. -/
def restoredRegs (saved regs : PtRegs x) : PtRegs x :=
  fstateRestore fun r => if UserField r then saved r else regs r

theorem SetUp.restoreSigcontext (setUp : SetUp P t k set t')
    (intact : Intact (getSigframe P t k) P.layout.size t'.mem u.mem) :
    ∃ fp, restoreSigcontext P.layout u (getSigframe P t k)
      = ({ u with regs := restoredRegs t.regs u.regs, fstate := fp }, false) := by
  have length : ((ptRegsBytes t.regs).take (scRegsSize x)).length = scRegsSize x := by
    rw [List.length_take, length_ptRegsBytes]
    cases x <;> rfl
  have regs := setUp.copyFrom intact
    (r := (P.layout.scRegs, (ptRegsBytes t.regs).take (scRegsSize x))) (by simp [frameFields])
  have fp := setUp.copyFrom intact (r := (P.layout.scFpregs, t.fstate.bytes))
    (by simp [frameFields])
  rw [length] at regs
  rw [t.fstate.length_eq] at fp
  have copied : ptRegsCopied ((ptRegsBytes t.regs).take (scRegsSize x)) u.regs
      = fun r => if UserField r then t.regs r else u.regs r :=
    funext fun r => ptRegsCopied_ptRegsBytes t.regs u.regs r
  have noFault := congrArg Prod.snd fp
  simp only at noFault
  refine ⟨u.fstate.copied (u.mem.copyFrom (fieldAt (getSigframe P t k) P.layout.scFpregs) 264).1
    (u.mem.length_copyFrom_le _ _), ?_⟩
  simp only [Signal.restoreSigcontext, regs, noFault, Bool.or_self, Bool.false_eq_true, if_false,
    copied, restoredRegs]

theorem SetUp.accessOk_stack (setUp : SetUp P t k set t') :
    accessOk P (fieldAt (getSigframe P t k) P.layout.ssSp)
      (P.layout.ssSize + x.szreg - P.layout.ssSp) := by
  obtain ⟨small, below⟩ := setUp.ok
  have h₁ := P.layout.ssSp_le
  have h₂ := P.layout.ssFlags_le
  have h₃ := P.layout.ssSize_le
  have h₄ := P.layout.scRegs_le
  have h₅ := P.layout.scFpregs_le
  have h₆ := P.layout.ucSigmask_le
  have limit := P.userDs.isLt
  have some_bytes := x.szreg_pos
  have place : (fieldAt (getSigframe P t k) P.layout.ssSp).toNat
      = (getSigframe P t k).toNat + P.layout.ssSp := by
    rw [fieldAt, BitVec.toNat_add, BitVec.toNat_ofNat, Nat.mod_eq_of_lt (a := P.layout.ssSp)
      (by omega), Nat.mod_eq_of_lt (by omega)]
  rw [accessOk, place]
  omega

theorem SetUp.restoreAltstack (setUp : SetUp P t k set t')
    (intact : Intact (getSigframe P t k) P.layout.size t'.mem u.mem) :
    restoreAltstack P u (getSigframe P t k)
      = some (u.doSigaltstack t.sasSsSp (t.sasSsFlags (t.regs .sp)) t.sasSsSize (u.regs .sp)) := by
  have ssSp := setUp.copyFrom intact (r := (P.layout.ssSp, toBytes x.szreg t.sasSsSp))
    (by simp [frameFields])
  have ssFlags := setUp.copyFrom intact
    (r := (P.layout.ssFlags, toBytes 4 (t.sasSsFlags (t.regs .sp)))) (by simp [frameFields])
  have ssSize := setUp.copyFrom intact (r := (P.layout.ssSize, toBytes x.szreg t.sasSsSize))
    (by simp [frameFields])
  rw [length_toBytes] at ssSp ssFlags ssSize
  have wide := Nat.le_of_eq x.bits_eq
  simp only [Signal.restoreAltstack, ssSp, ssFlags, ssSize, setUp.accessOk_stack, not_true_eq_false,
    if_false, Bool.or_self, Bool.false_eq_true, ofBytes_toBytes wide,
    ofBytes_toBytes (show 32 ≤ 8 * 4 by decide)]

/-- A return through an intact frame: the fields that user code may set come back, `a0` goes
through the return value, the mask is the one that was saved, and the settings of the alternate
stack are those of before unless `do_sigaltstack` refuses them. -/
theorem SetUp.rtSigreturn (setUp : SetUp P t k set t') (sp : u.regs .sp = getSigframe P t k)
    (intact : Intact (getSigframe P t k) P.layout.size t'.mem u.mem) :
    ∃ fp, rtSigreturn P u
      = (TaskStruct.doSigaltstack
          { u with
            restartFn := .doNoRestartSyscall
            blocked := clearBits set unblockable
            regs := restoredRegs t.regs u.regs
            fstate := fp }
          t.sasSsSp (t.sasSsFlags (t.regs .sp)) t.sasSsSize (t.regs .sp), t.regs .a0) := by
  have mask := setUp.copyFrom intact (r := (P.layout.ucSigmask, toBytes 8 set))
    (by simp [frameFields])
  rw [length_toBytes] at mask
  let v : TaskStruct x :=
    { u with restartFn := .doNoRestartSyscall, blocked := clearBits set unblockable }
  have intact_v : Intact (getSigframe P t k) P.layout.size t'.mem v.mem := intact
  obtain ⟨fp, context⟩ := setUp.restoreSigcontext intact_v
  have stack := setUp.restoreAltstack
    (u := { v with regs := restoredRegs t.regs v.regs, fstate := fp }) intact
  refine ⟨fp, ?_⟩
  have a0 : restoredRegs t.regs u.regs .a0 = t.regs .a0 :=
    (fstateRestore_apply _ (by decide)).trans (if_pos (by decide))
  have sp' : restoredRegs t.regs u.regs .sp = t.regs .sp :=
    (fstateRestore_apply _ (by decide)).trans (if_pos (by decide))
  simp only [Signal.rtSigreturn, sp, setUp.ok, not_true_eq_false, if_false, mask,
    Bool.false_eq_true, TaskStruct.setCurrentBlocked, ofBytes_toBytes (show 64 ≤ 8 * 8 by decide)]
  simp only [v] at context stack
  rw [context]
  simp only [Bool.false_eq_true, if_false]
  rw [stack]
  simp only [TaskStruct.doSigaltstack_regs, a0, sp']

end

end RiscvLinux.Signal
