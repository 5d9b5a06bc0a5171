import RiscvLinux.Trap.Status

/-!
# Page faults

`do_page_fault` of `arch/riscv/mm/fault.c`, one definition for each of its labels, with the
events of a run in their order. What the generic kernel answers on the way (the areas of the
process, `expand_stack`, `handle_mm_fault`, pending signals, the tables) is in `World`.

Two questions are asked of the events. `heldAfter` follows `mmap_sem`; `Settled` says how a fault
of user code is to end. `doPageFault_balanced_iff` and `doPageFault_settled_iff` answer them.
-/

namespace RiscvLinux.Mm.Fault

open Lib Trap

variable {x : XLen}

/-! ## What the handler meets -/

/-- What `handle_mm_fault` returns, bit by bit. `hwpoison` stands for the errors of
`VM_FAULT_ERROR` besides the three that are named. -/
structure VmFault where
  oom : Bool
  sigbus : Bool
  sigsegv : Bool
  hwpoison : Bool
  retry : Bool
  major : Bool
  deriving DecidableEq, Repr

/-- `fault & VM_FAULT_ERROR`. -/
def VmFault.error (f : VmFault) : Bool :=
  f.oom || f.sigbus || f.sigsegv || f.hwpoison

/-- The flags of `handle_mm_fault`. -/
structure FaultFlags where
  allowRetry : Bool
  killable : Bool
  user : Bool
  write : Bool
  tried : Bool
  deriving DecidableEq, Repr

/-- `struct vm_area_struct`, as far as the handler reads it. -/
structure Vma (x : XLen) where
  start : Word x
  exec : Bool
  read : Bool
  write : Bool
  growsdown : Bool
  deriving DecidableEq

/-- `EXC_INST_ACCESS`, `EXC_LOAD_ACCESS` and `EXC_STORE_ACCESS`. -/
def excInstAccess : Word x := 1

def excLoadAccess : Word x := 5

def excStoreAccess : Word x := 7

/-- `PAGE_OFFSET`, where the kernel is mapped. -/
def pageOffset : (x : XLen) → Word x
  | .rv64 => 0xffffffff80000000
  | .rv32 => 0xc0000000

def vmallocSize : Word x := 0x8000000

def vmallocStart : Word x := pageOffset x - vmallocSize

def vmallocEnd : Word x := pageOffset x - 1

/-- The fault, and what the rest of the kernel answers. `find_vma` and the others are asked again
after a retry, so their answers depend on the attempt. `handle_mm_fault` asks for a retry only
if that is allowed. -/
structure World (x : XLen) where
  sbadaddr : Word x
  scause : Word x
  sstatus : Word x
  faulthandlerDisabled : Bool
  mm : Bool
  findVma : Nat → Option (Vma x)
  expandStackFails : Nat → Bool
  handleMmFault : Nat → FaultFlags → VmFault
  fatalSignalPending : Nat → Bool
  exceptionTable : Option (Word x)
  pgdPresent : Bool
  pudPresent : Bool
  pmdPresent : Bool
  ptePresent : Bool
  retry_allowed : ∀ n flags, (handleMmFault n flags).retry = true → flags.allowRetry = true

/-- The codes of the signals. -/
inductive SigCode
  | segvMaperr
  | segvAccerr
  | busAdrerr
  deriving DecidableEq, Repr

inductive Signal
  | sigsegv
  | sigbus
  deriving DecidableEq, Repr

/-- What a run does. -/
inductive Event (x : XLen)
  | localIrqEnable
  | downRead
  | upRead
  | handleMmFault (fault : VmFault)
  /-- `maj_flt` or `min_flt` of the task is counted. -/
  | accounted (major : Bool)
  | doTrap (signo : Signal) (code : SigCode) (addr : Word x)
  | pagefaultOutOfMemory
  /-- The return for a fatal signal that is pending. -/
  | fatalSignal
  /-- `fixup_exception` sets `sepc`. -/
  | fixupException (fixup : Word x)
  | setPgd
  | setPmd
  | die
  deriving DecidableEq

/-- How it ends. -/
inductive Exit
  | returns
  | bug
  | panic
  | doExit
  deriving DecidableEq, Repr

/-- The events of a run and its end. -/
structure Outcome (x : XLen) where
  events : List (Event x)
  exit : Exit

/-- The event and then the rest. -/
def Event.before (e : Event x) (o : Outcome x) : Outcome x :=
  ⟨e :: o.events, o.exit⟩

/-! ## The handler -/

/-- `no_context:` -/
def noContext (w : World x) : Outcome x :=
  match w.exceptionTable with
  | some fixup => ⟨[.fixupException fixup], .returns⟩
  | none => ⟨[.die], .doExit⟩

/-- `bad_area:` -/
def badArea (w : World x) (code : SigCode) : Outcome x :=
  Event.upRead.before <|
    if userMode w.sstatus then ⟨[.doTrap .sigsegv code w.sbadaddr], .returns⟩
    else noContext w

/-- `out_of_memory:` -/
def outOfMemory (w : World x) : Outcome x :=
  Event.upRead.before <|
    if !userMode w.sstatus then noContext w
    else ⟨[.pagefaultOutOfMemory], .returns⟩

/-- `do_sigbus:` -/
def doSigbus (w : World x) : Outcome x :=
  Event.upRead.before <|
    if !userMode w.sstatus then noContext w
    else ⟨[.doTrap .sigbus .busAdrerr w.sbadaddr], .returns⟩

/-- `vmalloc_fault:` -/
def vmallocFault (w : World x) : Outcome x :=
  if userMode w.sstatus then badArea w .segvMaperr
  else if !w.pgdPresent then noContext w
  else Event.setPgd.before <|
    if !w.pudPresent then noContext w
    else if !w.pmdPresent then noContext w
    else Event.setPmd.before <|
      if !w.ptePresent then noContext w
      else ⟨[], .returns⟩

/-- From `retry:` to `good_area:`, the area that the access is in. -/
def findArea (w : World x) (attempt : Nat) : Option (Vma x) :=
  match w.findVma attempt with
  | none => none
  | some vma =>
    if vma.start ≤ w.sbadaddr then some vma
    else if !vma.growsdown then none
    else if w.expandStackFails attempt then none
    else some vma

/-- What `good_area:` makes of the cause. -/
inductive Access
  | badArea
  | allowed (write : Bool)
  | unhandled
  deriving DecidableEq

def checkAccess (w : World x) (vma : Vma x) : Access :=
  if w.scause = excInstAccess then if vma.exec then .allowed false else .badArea
  else if w.scause = excLoadAccess then if vma.read then .allowed false else .badArea
  else if w.scause = excStoreAccess then if vma.write then .allowed true else .badArea
  else .unhandled

/-- `retry:` It is left behind by `bad_area` and `good_area`, and comes back to itself only with
`FAULT_FLAG_ALLOW_RETRY` cleared. -/
def retry (w : World x) (attempt : Nat) (flags : FaultFlags) (code : SigCode) : Outcome x :=
  Event.downRead.before <|
    match findArea w attempt with
    | none => badArea w code
    | some vma =>
      match checkAccess w vma with
      | .badArea => badArea w .segvAccerr
      | .unhandled => ⟨[], .panic⟩
      | .allowed write =>
        let flags' := { flags with write := flags.write || write }
        let fault := w.handleMmFault attempt flags'
        (Event.handleMmFault fault).before <|
          if fault.retry && w.fatalSignalPending attempt then ⟨[.fatalSignal], .returns⟩
          else if fault.error then
            if fault.oom then outOfMemory w
            else if fault.sigbus then doSigbus w
            else ⟨[], .bug⟩
          else if _h : flags.allowRetry = true then
            (Event.accounted fault.major).before <|
              if fault.retry then
                retry w (attempt + 1) { flags' with allowRetry := false, tried := true } .segvAccerr
              else ⟨[.upRead], .returns⟩
          else ⟨[.upRead], .returns⟩
termination_by flags.allowRetry.toNat
decreasing_by
  simp only [Bool.toNat_false]
  rw [show flags.allowRetry = true from _h]
  decide

/-- The fault is in the range of `vmalloc`. -/
def InVmalloc (w : World x) : Prop :=
  vmallocStart ≤ w.sbadaddr ∧ w.sbadaddr ≤ vmallocEnd

instance (w : World x) : Decidable (InVmalloc w) :=
  inferInstanceAs (Decidable (_ ∧ _))

/-- The flags of the first attempt. -/
def firstFlags (w : World x) : FaultFlags :=
  ⟨true, true, userMode w.sstatus, false, false⟩

/-- What follows the check for the range of `vmalloc`. -/
def mmFault (w : World x) : Outcome x :=
  if w.faulthandlerDisabled || !w.mm then noContext w
  else retry w 0 (firstFlags w) .segvMaperr

/-- `do_page_fault`. -/
def doPageFault (w : World x) : Outcome x :=
  if InVmalloc w then vmallocFault w
  else if w.sstatus &&& srPie ≠ 0 then Event.localIrqEnable.before (mmFault w)
  else mmFault w

/-- The handlers of `excp_vect_table`. -/
inductive Handler
  | doTrapInsnMisaligned
  | doPageFault
  | doTrapInsnIllegal
  | doTrapUnknown
  | doTrapAmoMisaligned
  | handleSyscall
  | doTrapBreak
  deriving DecidableEq, Repr

def excpVectTable : List Handler :=
  [.doTrapInsnMisaligned, .doPageFault, .doTrapInsnIllegal, .doTrapUnknown, .doTrapUnknown,
    .doPageFault, .doTrapAmoMisaligned, .doPageFault, .handleSyscall, .doTrapBreak]

/-! ## What `handle_mm_fault` answers -/

/-- The answer of the given attempt, where it comes to one. -/
def answer (w : World x) (attempt : Nat) (flags : FaultFlags) : Option VmFault :=
  match findArea w attempt with
  | none => none
  | some vma =>
    match checkAccess w vma with
    | .allowed write => some (w.handleMmFault attempt { flags with write := flags.write || write })
    | _ => none

/-- The answer of the first attempt of `do_page_fault`. -/
def firstAnswer (w : World x) : Option VmFault :=
  if InVmalloc w ∨ w.faulthandlerDisabled ∨ w.mm = false then none
  else answer w 0 (firstFlags w)

/-- The flags of the second attempt. -/
def secondFlags (w : World x) : FaultFlags :=
  ⟨false, true, userMode w.sstatus, w.scause = excStoreAccess, true⟩

/-- The fault asks for another attempt, and no fatal signal keeps it from that. -/
def Again (w : World x) (attempt : Nat) (f : VmFault) : Prop :=
  f.retry = true ∧ w.fatalSignalPending attempt = false

instance (w : World x) (attempt : Nat) (f : VmFault) : Decidable (Again w attempt f) :=
  inferInstanceAs (Decidable (_ ∧ _))

/-- The answer of the second attempt, where there is one. -/
def secondAnswer (w : World x) : Option VmFault :=
  match firstAnswer w with
  | none => none
  | some f => if Again w 0 f ∧ f.error = false then answer w 1 (secondFlags w) else none

/-- The run from `handle_mm_fault` on, with what a further attempt does. -/
def afterFault (w : World x) (attempt : Nat) (allowRetry : Bool) (f : VmFault)
    (further : Outcome x) : Outcome x :=
  (Event.handleMmFault f).before <|
    if f.retry && w.fatalSignalPending attempt then ⟨[.fatalSignal], .returns⟩
    else if f.error then
      if f.oom then outOfMemory w
      else if f.sigbus then doSigbus w
      else ⟨[], .bug⟩
    else if allowRetry then
      (Event.accounted f.major).before <| if f.retry then further else ⟨[.upRead], .returns⟩
    else ⟨[.upRead], .returns⟩

/-- An access that the area allows sets the flag for a write exactly after a store. -/
theorem checkAccess_allowed {w : World x} {vma : Vma x} {write : Bool}
    (allowed : checkAccess w vma = .allowed write) :
    write = decide (w.scause = excStoreAccess) := by
  have apart : (excInstAccess : Word x) ≠ excStoreAccess ∧
      (excLoadAccess : Word x) ≠ excStoreAccess := by
    cases x <;> decide
  unfold checkAccess at allowed
  split at allowed
  · rename_i inst
    split at allowed <;> cases allowed
    rw [inst, decide_eq_false apart.1]
  · split at allowed
    · rename_i load
      split at allowed <;> cases allowed
      rw [load, decide_eq_false apart.2]
    · split at allowed
      · rename_i store
        split at allowed <;> cases allowed
        rw [decide_eq_true store]
      · cases allowed

/-- The three causes that `good_area` knows. -/
def KnownCause (w : World x) : Prop :=
  w.scause = excInstAccess ∨ w.scause = excLoadAccess ∨ w.scause = excStoreAccess

theorem checkAccess_unhandled {w : World x} {vma : Vma x}
    (unhandled : checkAccess w vma = .unhandled) : ¬KnownCause w := by
  unfold checkAccess at unhandled
  intro either
  rcases either with inst | load | store
  · rw [if_pos inst] at unhandled
    split at unhandled <;> cases unhandled
  · rw [if_pos load] at unhandled
    split at unhandled <;> split at unhandled <;> cases unhandled
  · rw [if_pos store] at unhandled
    split at unhandled <;> split at unhandled <;> (try split at unhandled) <;> cases unhandled

/-- An attempt that comes to no answer finds a bad area or panics. -/
theorem retry_of_none {w : World x} {attempt : Nat} {flags : FaultFlags} (code : SigCode)
    (none : answer w attempt flags = none) :
    (∃ code', retry w attempt flags code = Event.downRead.before (badArea w code')) ∨
      (¬KnownCause w ∧ retry w attempt flags code = Event.downRead.before ⟨[], .panic⟩) := by
  unfold answer at none
  rw [retry]
  split at none
  · exact .inl ⟨code, by simp only [*]⟩
  · rename_i vma found
    split at none
    · cases none
    · rename_i notAllowed
      cases checked : checkAccess w vma with
      | badArea => exact .inl ⟨.segvAccerr, rfl⟩
      | unhandled => exact .inr ⟨checkAccess_unhandled checked, rfl⟩
      | allowed write => exact (notAllowed write checked).elim

/-- An attempt that comes to an answer goes on from there, and a further attempt is made without
the flag that allows a retry. -/
theorem retry_of_some {w : World x} {attempt : Nat} {flags : FaultFlags} {code : SigCode}
    {f : VmFault} (some : answer w attempt flags = some f) :
    retry w attempt flags code = Event.downRead.before
      (afterFault w attempt flags.allowRetry f
        (retry w (attempt + 1)
          { flags with
            allowRetry := false
            write := flags.write || decide (w.scause = excStoreAccess)
            tried := true } .segvAccerr)) := by
  unfold answer at some
  split at some
  · cases some
  · rename_i vma found
    split at some
    · rename_i write checked
      cases some
      rw [retry, found]
      simp only [checked, afterFault, checkAccess_allowed checked, dite_eq_ite]
    · cases some

/-- `handle_mm_fault` asks for no retry where none is allowed. -/
theorem answer_retry {w : World x} {attempt : Nat} {flags : FaultFlags} {f : VmFault}
    (some : answer w attempt flags = some f) (last : flags.allowRetry = false) :
    f.retry = false := by
  unfold answer at some
  split at some
  · cases some
  · split at some
    · cases some
      rename_i write _
      cases asks : (w.handleMmFault attempt { flags with write := flags.write || write }).retry with
      | false => rfl
      | true => exact absurd (w.retry_allowed _ _ asks) (by simp [last])
    · cases some

/-! ## The semaphore

`mmap_sem` is held for reading some number of times. `up_read` needs it to be held, and
`handle_mm_fault` has released it where it asks for a retry. -/

/-- How often the semaphore is held after an event. There is no answer where it would be released
and is not held. -/
def Event.hold : Event x → Nat → Option Nat
  | .downRead, held => some (held + 1)
  | .upRead, 0 => none
  | .upRead, held + 1 => some held
  | .handleMmFault f, held =>
    if f.retry then
      match held with
      | 0 => none
      | held + 1 => some held
    else some held
  | _, held => some held

def heldAfter : List (Event x) → Nat → Option Nat
  | [], held => some held
  | e :: events, held => (e.hold held).bind (heldAfter events)

/-- Whatever is released is held then, and a run that returns holds nothing. -/
def Balanced (o : Outcome x) (held : Nat) : Prop :=
  ∃ after, heldAfter o.events held = some after ∧ (o.exit = .returns → after = 0)

theorem balanced_nil {exit : Exit} {held : Nat} :
    Balanced (⟨[], exit⟩ : Outcome x) held ↔ (exit = .returns → held = 0) := by
  constructor
  · intro given
    rcases given with ⟨after, ran, settled⟩
    cases ran
    exact settled
  · intro settled
    exact ⟨held, rfl, settled⟩

theorem balanced_cons {e : Event x} {events : List (Event x)} {exit : Exit} {held : Nat} :
    Balanced ⟨e :: events, exit⟩ held ↔ ∃ after, e.hold held = some after ∧
      Balanced ⟨events, exit⟩ after := by
  constructor
  · intro given
    rcases given with ⟨after, ran, settled⟩
    obtain ⟨mid, stepped, rest⟩ := Option.bind_eq_some_iff.mp ran
    exact ⟨mid, stepped, after, rest, settled⟩
  · intro given
    rcases given with ⟨mid, stepped, after, rest, settled⟩
    exact ⟨after, Option.bind_eq_some_iff.mpr ⟨mid, stepped, rest⟩, settled⟩

theorem balanced_before {e : Event x} {o : Outcome x} {held after : Nat}
    (stepped : e.hold held = some after) : Balanced (e.before o) held ↔ Balanced o after := by
  refine balanced_cons.trans ⟨?_, fun rest => ⟨after, stepped, rest⟩⟩
  intro given
  rcases given with ⟨mid, also, rest⟩
  cases stepped.symm.trans also
  exact rest

/-- The end of the kernel's own faults does not touch the semaphore. -/
theorem noContext_balanced (w : World x) : Balanced (noContext w) 0 := by
  unfold noContext
  split
  · exact ⟨0, rfl, fun _ => rfl⟩
  · exact ⟨0, rfl, fun _ => rfl⟩

/-- The three labels that release the semaphore and then report the fault. -/
theorem upRead_not_balanced (o : Outcome x) : ¬Balanced (Event.upRead.before o) 0 := by
  intro given
  rcases given with ⟨after, ran, _⟩
  cases ran

theorem badArea_balanced (w : World x) (code : SigCode) : Balanced (badArea w code) 1 := by
  refine (balanced_before rfl).mpr ?_
  split
  · exact ⟨0, rfl, fun _ => rfl⟩
  · exact noContext_balanced w

theorem outOfMemory_balanced (w : World x) : Balanced (outOfMemory w) 1 := by
  refine (balanced_before rfl).mpr ?_
  split
  · exact noContext_balanced w
  · exact ⟨0, rfl, fun _ => rfl⟩

theorem doSigbus_balanced (w : World x) : Balanced (doSigbus w) 1 := by
  refine (balanced_before rfl).mpr ?_
  split
  · exact noContext_balanced w
  · exact ⟨0, rfl, fun _ => rfl⟩

/-- What the kernel does for its own range takes no lock, but a fault of user code there goes to
`bad_area`, which releases one. -/
theorem vmallocFault_balanced_iff (w : World x) :
    Balanced (vmallocFault w) 0 ↔ userMode w.sstatus = false := by
  unfold vmallocFault
  split
  · rename_i user
    exact iff_of_false (upRead_not_balanced _) (by simp [user])
  · rename_i notUser
    refine iff_of_true ?_ (Bool.eq_false_iff.mpr notUser)
    split
    · exact noContext_balanced w
    · refine (balanced_before rfl).mpr ?_
      split
      · exact noContext_balanced w
      · split
        · exact noContext_balanced w
        · refine (balanced_before rfl).mpr ?_
          split
          · exact noContext_balanced w
          · exact ⟨0, rfl, fun _ => rfl⟩

/-- The fault is an error that the labels `out_of_memory` and `do_sigbus` report. -/
def VmFault.reported (f : VmFault) : Bool :=
  f.oom || f.sigbus

theorem VmFault.error_of_reported {f : VmFault} (reported : f.reported = true) :
    f.error = true := by
  unfold VmFault.error
  unfold VmFault.reported at reported
  rw [reported, Bool.true_or, Bool.true_or]

/-- With the semaphore held once, `handle_mm_fault` and all that follows is balanced, unless the
fault has released it and is reported nevertheless. -/
theorem afterFault_balanced_iff {w : World x} {attempt : Nat} {allowRetry : Bool} {f : VmFault}
    {further : Outcome x} (allowed : f.retry = true → allowRetry = true)
    (rest : allowRetry = true → Balanced further 0) :
    Balanced (afterFault w attempt allowRetry f further) 1 ↔
      ¬(Again w attempt f ∧ f.reported = true) := by
  unfold afterFault
  cases asks : f.retry with
  | false =>
    -- The semaphore is still held, and every way from here on releases it.
    have held : (Event.handleMmFault f : Event x).hold 1 = some 1 := by simp [Event.hold, asks]
    refine iff_of_true ((balanced_before held).mpr ?_)
      (fun ⟨again, _⟩ => by simp [Again, asks] at again)
    rw [Bool.false_and, if_neg Bool.false_ne_true]
    split
    · split
      · exact outOfMemory_balanced w
      · split
        · exact doSigbus_balanced w
        · exact balanced_nil.mpr nofun
    · split
      · rw [if_neg Bool.false_ne_true]
        exact ⟨0, rfl, fun _ => rfl⟩
      · exact ⟨0, rfl, fun _ => rfl⟩
  | true =>
    have held : (Event.handleMmFault f : Event x).hold 1 = some 0 := by simp [Event.hold, asks]
    rw [balanced_before held, Bool.true_and]
    split
    · rename_i fatal
      exact iff_of_true ⟨0, rfl, fun _ => rfl⟩ (fun ⟨again, _⟩ => by simp [Again, fatal] at again)
    · rename_i notFatal
      have again : Again w attempt f := ⟨asks, Bool.eq_false_iff.mpr notFatal⟩
      rw [not_and, imp_iff_right again]
      split
      · split
        · rename_i oom
          exact iff_of_false (upRead_not_balanced _) (by simp [VmFault.reported, oom])
        · rename_i notOom
          split
          · rename_i sigbus
            exact iff_of_false (upRead_not_balanced _) (by simp [VmFault.reported, sigbus])
          · rename_i notSigbus
            exact iff_of_true (balanced_nil.mpr nofun)
              (by simp [VmFault.reported, notOom, notSigbus])
      · rename_i noError
        rw [if_pos (allowed asks), if_pos rfl]
        exact iff_of_true ((balanced_before rfl).mpr (rest (allowed asks)))
          (fun reported => noError (f.error_of_reported reported))

/-- An attempt without an answer is balanced. -/
theorem retry_none_balanced {w : World x} {attempt : Nat} {flags : FaultFlags}
    (noAnswer : answer w attempt flags = none) (code : SigCode) :
    Balanced (retry w attempt flags code) 0 := by
  rcases retry_of_none code noAnswer with ⟨code', bad⟩ | ⟨_, panics⟩
  · rw [bad]
    exact (balanced_before rfl).mpr (badArea_balanced w code')
  · rw [panics]
    exact (balanced_before rfl).mpr (balanced_nil.mpr nofun)

/-- An attempt that must not ask for a retry is balanced. -/
theorem retry_last_balanced (w : World x) (attempt : Nat) {flags : FaultFlags} (code : SigCode)
    (last : flags.allowRetry = false) : Balanced (retry w attempt flags code) 0 := by
  cases answers : answer w attempt flags with
  | none => exact retry_none_balanced answers code
  | some f =>
    have noRetry : f.retry = false := answer_retry answers last
    rw [retry_of_some answers, balanced_before rfl]
    exact (afterFault_balanced_iff (by simp [noRetry]) (by simp [last])).mpr
      (fun ⟨again, _⟩ => by simp [Again, noRetry] at again)

/-- The first attempt is balanced unless its fault has released the semaphore and is reported. -/
theorem retry_first_balanced_iff (w : World x) (attempt : Nat) {flags : FaultFlags}
    (code : SigCode) (first : flags.allowRetry = true) :
    Balanced (retry w attempt flags code) 0 ↔
      ∀ f ∈ answer w attempt flags, ¬(Again w attempt f ∧ f.reported = true) := by
  cases answers : answer w attempt flags with
  | none => exact iff_of_true (retry_none_balanced answers code) nofun
  | some f =>
    rw [retry_of_some answers, balanced_before rfl,
      afterFault_balanced_iff (fun _ => first) (fun _ => retry_last_balanced w _ _ rfl)]
    simp only [Option.mem_some_iff, forall_eq']

theorem mmFault_balanced_iff {w : World x} (notVmalloc : ¬InVmalloc w) :
    Balanced (mmFault w) 0 ↔
      ∀ f ∈ firstAnswer w, ¬(Again w 0 f ∧ f.reported = true) := by
  unfold mmFault firstAnswer
  split
  · rename_i none
    rw [if_pos (by simpa [notVmalloc] using none)]
    exact iff_of_true (noContext_balanced w) nofun
  · rename_i both
    rw [if_neg (by simpa [notVmalloc] using both)]
    exact retry_first_balanced_iff w 0 _ rfl

/-- `do_page_fault` releases `mmap_sem` only while it is held and returns without it exactly if
user code has not touched the range of `vmalloc`, and no fault that has released the semaphore
for a retry is reported as a lack of memory or as `SIGBUS`. -/
theorem doPageFault_balanced_iff (w : World x) :
    Balanced (doPageFault w) 0 ↔
      ¬(InVmalloc w ∧ userMode w.sstatus = true) ∧
        ∀ f ∈ firstAnswer w, ¬(Again w 0 f ∧ f.reported = true) := by
  unfold doPageFault
  split
  · rename_i inside
    rw [vmallocFault_balanced_iff, firstAnswer, if_pos (.inl inside)]
    simp [inside]
  · rename_i outside
    have same : Balanced (mmFault w) 0 ↔ ¬(InVmalloc w ∧ userMode w.sstatus = true) ∧
        ∀ f ∈ firstAnswer w, ¬(Again w 0 f ∧ f.reported = true) := by
      rw [mmFault_balanced_iff outside]
      simp [outside]
    split
    · rw [balanced_before rfl]
      exact same
    · exact same

/-- A world for runs on fixed inputs: one area for the stack, from `0x2000` on, and
`handle_mm_fault` answering every attempt with the given errors. -/
def stackWorld (sbadaddr sstatus : Word .rv64) (f : VmFault) : World .rv64 where
  sbadaddr := sbadaddr
  scause := excStoreAccess
  sstatus := sstatus
  faulthandlerDisabled := false
  mm := true
  findVma := fun _ => some ⟨0x2000, false, true, true, true⟩
  expandStackFails := fun _ => false
  handleMmFault := fun _ flags => { f with retry := f.retry && flags.allowRetry }
  fatalSignalPending := fun _ => false
  exceptionTable := none
  pgdPresent := false
  pudPresent := false
  pmdPresent := false
  ptePresent := false
  retry_allowed := fun _ _ asks => (Bool.and_eq_true_iff.mp asks).2

/-- User code that stores to an address in the range of `vmalloc` makes the handler release
`mmap_sem` without holding it. -/
theorem not_balanced_vmalloc :
    ¬Balanced (doPageFault (stackWorld 0xffffffff78000000 0
      ⟨false, false, false, false, false, false⟩)) 0 := by
  intro given
  rcases given with ⟨after, ran, _⟩
  have released : (doPageFault (stackWorld 0xffffffff78000000 0
      ⟨false, false, false, false, false, false⟩)).events
      = [.upRead, .doTrap .sigsegv .segvMaperr 0xffffffff78000000] := by decide
  rw [released] at ran
  cases ran

/-! ## The end of a fault of user code -/

/-- The answer of `handle_mm_fault`, of the event that holds it. -/
def Event.answer? : Event x → Option VmFault
  | .handleMmFault f => some f
  | _ => none

/-- The answers of a run, in their order. -/
def answers (events : List (Event x)) : List VmFault :=
  events.filterMap Event.answer?

/-- The event hands the fault over to the process: a signal is forced or is pending, or the
killer of processes is called. -/
def Event.handsOver : Event x → Bool
  | .doTrap _ _ _ | .pagefaultOutOfMemory | .fatalSignal => true
  | _ => false

/-- The last answer is that the page is there. -/
def Resolved (events : List (Event x)) : Prop :=
  ∃ f, (answers events).getLast? = some f ∧ f.error = false ∧ f.retry = false

/-- The handler returns after at most `limit` answers, with the fault resolved or handed over, and
the kernel has not died on the way. -/
structure SettledWithin (limit : Nat) (o : Outcome x) : Prop where
  returns : o.exit = .returns
  alive : Event.die ∉ o.events
  attempts : (answers o.events).length ≤ limit
  ends : Resolved o.events ∨ ∃ e ∈ o.events, e.handsOver = true

/-- The event is no answer, hands nothing over and is not the death of the kernel. -/
def Event.quiet (e : Event x) : Prop :=
  e.answer? = none ∧ e.handsOver = false ∧ e ≠ .die

theorem answers_of_quiet {e : Event x} (quiet : e.quiet) (o : Outcome x) :
    answers (e.before o).events = answers o.events := by
  unfold answers Event.before
  rw [List.filterMap_cons_none quiet.1]

theorem answers_handleMmFault (f : VmFault) (o : Outcome x) :
    answers ((Event.handleMmFault f).before o).events = f :: answers o.events := rfl

theorem settledWithin_quiet {limit : Nat} {e : Event x} {o : Outcome x} (quiet : e.quiet) :
    SettledWithin limit (e.before o) ↔ SettledWithin limit o := by
  have same := answers_of_quiet quiet o
  constructor
  · intro settled
    refine ⟨settled.returns, fun dies => settled.alive (.tail _ dies), same ▸ settled.attempts, ?_⟩
    rcases settled.ends with ⟨f, last, good⟩ | ⟨e', at', handed⟩
    · exact .inl ⟨f, same ▸ last, good⟩
    · rcases List.mem_cons.mp at' with rfl | later
      · rw [quiet.2.1] at handed
        cases handed
      · exact .inr ⟨e', later, handed⟩
  · intro settled
    refine ⟨settled.returns, ?_, same ▸ settled.attempts, ?_⟩
    · intro dies
      rcases List.mem_cons.mp dies with rfl | later
      · exact quiet.2.2 rfl
      · exact settled.alive later
    · rcases settled.ends with ⟨f, last, good⟩ | ⟨e', later, handed⟩
      · exact .inl ⟨f, same ▸ last, good⟩
      · exact .inr ⟨e', .tail _ later, handed⟩

/-- An answer that does not resolve the fault leaves it to what follows. -/
theorem settledWithin_answer {limit : Nat} {f : VmFault} {o : Outcome x}
    (unresolved : f.error = true ∨ f.retry = true) :
    SettledWithin (limit + 1) ((Event.handleMmFault f).before o) ↔ SettledWithin limit o := by
  constructor
  · intro settled
    refine ⟨settled.returns, fun dies => settled.alive (.tail _ dies),
      Nat.le_of_succ_le_succ settled.attempts, ?_⟩
    rcases settled.ends with ⟨g, last, good, done⟩ | ⟨e, at', handed⟩
    · rw [answers_handleMmFault, List.getLast?_cons] at last
      cases rest : (answers o.events).getLast? with
      | none =>
        rw [rest] at last
        cases last
        rcases unresolved with error | retry
        · exact absurd (good.symm.trans error) Bool.false_ne_true
        · exact absurd (done.symm.trans retry) Bool.false_ne_true
      | some f' =>
        rw [rest] at last
        exact .inl ⟨g, rest.trans last, good, done⟩
    · rcases List.mem_cons.mp at' with rfl | later
      · cases handed
      · exact .inr ⟨e, later, handed⟩
  · intro settled
    refine ⟨settled.returns, ?_, Nat.succ_le_succ settled.attempts, ?_⟩
    · intro dies
      rcases List.mem_cons.mp dies with never | later
      · cases never
      · exact settled.alive later
    · rcases settled.ends with ⟨g, last, good⟩ | ⟨e, later, handed⟩
      · refine .inl ⟨g, ?_, good⟩
        rw [answers_handleMmFault, List.getLast?_cons, last]
        rfl
      · exact .inr ⟨e, .tail _ later, handed⟩

theorem upRead_quiet : (Event.upRead : Event x).quiet :=
  ⟨rfl, rfl, nofun⟩

theorem downRead_quiet : (Event.downRead : Event x).quiet :=
  ⟨rfl, rfl, nofun⟩

theorem accounted_quiet (major : Bool) : (Event.accounted major : Event x).quiet :=
  ⟨rfl, rfl, nofun⟩

theorem localIrqEnable_quiet : (Event.localIrqEnable : Event x).quiet :=
  ⟨rfl, rfl, nofun⟩

/-- A single event that hands the fault over settles it. -/
theorem settledWithin_handsOver {e : Event x} (handed : e.handsOver = true)
    (noAnswer : e.answer? = none) (limit : Nat) : SettledWithin limit ⟨[e], .returns⟩ := by
  refine ⟨rfl, ?_, ?_, .inr ⟨e, .head _, handed⟩⟩
  · intro dies
    cases List.mem_singleton.mp dies
    cases handed
  · unfold answers
    rw [List.filterMap_cons_none noAnswer]
    exact Nat.zero_le _

theorem badArea_settled {w : World x} (user : userMode w.sstatus = true) (code : SigCode)
    (limit : Nat) : SettledWithin limit (badArea w code) := by
  unfold badArea
  rw [if_pos user, settledWithin_quiet upRead_quiet]
  exact settledWithin_handsOver rfl rfl limit

theorem outOfMemory_settled {w : World x} (user : userMode w.sstatus = true) (limit : Nat) :
    SettledWithin limit (outOfMemory w) := by
  unfold outOfMemory
  rw [user, Bool.not_true, if_neg Bool.false_ne_true, settledWithin_quiet upRead_quiet]
  exact settledWithin_handsOver rfl rfl limit

theorem doSigbus_settled {w : World x} (user : userMode w.sstatus = true) (limit : Nat) :
    SettledWithin limit (doSigbus w) := by
  unfold doSigbus
  rw [user, Bool.not_true, if_neg Bool.false_ne_true, settledWithin_quiet upRead_quiet]
  exact settledWithin_handsOver rfl rfl limit

/-- The fault is an error that no label reports, and no fatal signal lets the handler return. -/
def Unreported (w : World x) (attempt : Nat) (f : VmFault) : Prop :=
  f.error = true ∧ f.reported = false ∧
    ¬(f.retry = true ∧ w.fatalSignalPending attempt = true)

instance (w : World x) (attempt : Nat) (f : VmFault) : Decidable (Unreported w attempt f) :=
  inferInstanceAs (Decidable (_ ∧ _ ∧ _))

/-- What follows an answer is settled exactly if the answer is not an unreported error, and a
further attempt is settled where one is made. -/
theorem afterFault_settled_iff {w : World x} {attempt limit : Nat} {allowRetry : Bool}
    {f : VmFault} {further : Outcome x} (user : userMode w.sstatus = true)
    (allowed : f.retry = true → allowRetry = true) :
    SettledWithin (limit + 1) (afterFault w attempt allowRetry f further) ↔
      ¬Unreported w attempt f ∧
        (Again w attempt f ∧ f.error = false → SettledWithin limit further) := by
  unfold afterFault
  split
  · rename_i fatal
    obtain ⟨asks, pending⟩ := Bool.and_eq_true_iff.mp fatal
    rw [settledWithin_answer (.inr asks)]
    refine iff_of_true (settledWithin_handsOver rfl rfl limit)
      ⟨fun unreported => ?_, fun again => ?_⟩
    · exact unreported.2.2 ⟨asks, pending⟩
    · exact absurd (again.1.2.symm.trans pending) Bool.false_ne_true
  · rename_i notFatal
    have notBoth : ¬(f.retry = true ∧ w.fatalSignalPending attempt = true) :=
      fun both => notFatal (Bool.and_eq_true_iff.mpr both)
    split
    · rename_i error
      rw [settledWithin_answer (.inl error)]
      have noFurther : Again w attempt f ∧ f.error = false → SettledWithin limit further :=
        fun ⟨_, noError⟩ => absurd (noError.symm.trans error) Bool.false_ne_true
      split
      · rename_i oom
        refine iff_of_true (outOfMemory_settled user limit) ⟨fun unreported => ?_, noFurther⟩
        exact absurd unreported.2.1 (by simp [VmFault.reported, oom])
      · rename_i notOom
        split
        · rename_i sigbus
          refine iff_of_true (doSigbus_settled user limit) ⟨fun unreported => ?_, noFurther⟩
          exact absurd unreported.2.1 (by simp [VmFault.reported, sigbus])
        · rename_i notSigbus
          have unreported : Unreported w attempt f :=
            ⟨error, by simp [VmFault.reported, notOom, notSigbus], notBoth⟩
          exact iff_of_false (fun settled => nomatch settled.returns)
            (fun ⟨not, _⟩ => not unreported)
    · rename_i noError
      have reported : ¬Unreported w attempt f := fun unreported => noError unreported.1
      cases asks : f.retry with
      | false =>
        -- The page is there.
        refine iff_of_true ?_ ⟨reported, fun again => ?_⟩
        · have resolved : f.error = false ∧ f.retry = false :=
            ⟨Bool.eq_false_iff.mpr noError, asks⟩
          split
          · rw [if_neg Bool.false_ne_true]
            exact ⟨rfl, by simp [Event.before], Nat.succ_le_succ (Nat.zero_le limit),
              .inl ⟨f, rfl, resolved⟩⟩
          · exact ⟨rfl, by simp [Event.before], Nat.succ_le_succ (Nat.zero_le limit),
              .inl ⟨f, rfl, resolved⟩⟩
        · exact absurd (again.1.1.symm.trans asks) (by decide)
      | true =>
        have again : Again w attempt f ∧ f.error = false :=
          ⟨⟨asks, by simpa [asks] using notBoth⟩, Bool.eq_false_iff.mpr noError⟩
        rw [if_pos (allowed asks), if_pos rfl, settledWithin_answer (.inr asks),
          settledWithin_quiet (accounted_quiet _), imp_iff_right again]
        exact (and_iff_right reported).symm

/-- For a cause that `good_area` knows, an attempt without an answer ends in `bad_area`. -/
theorem retry_none_settled {w : World x} {attempt : Nat} {flags : FaultFlags}
    (user : userMode w.sstatus = true) (known : KnownCause w)
    (noAnswer : answer w attempt flags = none) (code : SigCode) (limit : Nat) :
    SettledWithin limit (retry w attempt flags code) := by
  rcases retry_of_none code noAnswer with ⟨code', bad⟩ | ⟨unknown, _⟩
  · rw [bad, settledWithin_quiet downRead_quiet]
    exact badArea_settled user code' limit
  · exact (unknown known).elim

theorem retry_last_settled_iff {w : World x} (user : userMode w.sstatus = true)
    (known : KnownCause w) (attempt : Nat) {flags : FaultFlags} (code : SigCode)
    (last : flags.allowRetry = false) :
    SettledWithin 1 (retry w attempt flags code) ↔
      ∀ f ∈ answer w attempt flags, ¬Unreported w attempt f := by
  cases answered : answer w attempt flags with
  | none => exact iff_of_true (retry_none_settled user known answered code 1) nofun
  | some f =>
    have noRetry : f.retry = false := answer_retry answered last
    rw [retry_of_some answered, settledWithin_quiet downRead_quiet,
      afterFault_settled_iff user (by simp [noRetry])]
    have noFurther : ¬(Again w attempt f ∧ f.error = false) :=
      fun again => absurd (again.1.1.symm.trans noRetry) (by decide)
    simp only [Option.mem_some_iff, forall_eq', noFurther, false_imp_iff, and_true]

/-- The first attempt is settled if its answer is not an unreported error, nor that of a second
attempt. -/
theorem retry_first_settled_iff {w : World x} (user : userMode w.sstatus = true)
    (known : KnownCause w) (code : SigCode) :
    SettledWithin 2 (retry w 0 (firstFlags w) code) ↔
      (∀ f ∈ answer w 0 (firstFlags w), ¬Unreported w 0 f) ∧
        ∀ f ∈ answer w 0 (firstFlags w), Again w 0 f ∧ f.error = false →
          ∀ f' ∈ answer w 1 (secondFlags w), ¬Unreported w 1 f' := by
  cases answered : answer w 0 (firstFlags w) with
  | none => exact iff_of_true (retry_none_settled user known answered code 2) ⟨nofun, nofun⟩
  | some f =>
    have second : SettledWithin 1 (retry w 1 (secondFlags w) .segvAccerr) ↔ _ :=
      retry_last_settled_iff user known _ _ rfl
    simp only [Option.mem_some_iff, forall_eq']
    rw [retry_of_some answered, settledWithin_quiet downRead_quiet, ← second]
    exact afterFault_settled_iff user (fun _ => rfl)

/-- The cause of a fault that `excp_vect_table` sends to `do_page_fault` is one of the three. -/
theorem knownCause_of_dispatched {w : World x}
    (dispatched : excpVectTable[w.scause.toNat]? = some .doPageFault) : KnownCause w := by
  have below : w.scause.toNat < 10 := (List.getElem?_eq_some_iff.mp dispatched).1
  have cause : w.scause.toNat = 1 ∨ w.scause.toNat = 5 ∨ w.scause.toNat = 7 := by
    generalize w.scause.toNat = cause at *
    revert dispatched
    revert cause
    decide
  rcases cause with inst | load | store
  · refine .inl (BitVec.eq_of_toNat_eq (inst.trans ?_))
    cases x <;> rfl
  · refine .inr (.inl (BitVec.eq_of_toNat_eq (load.trans ?_)))
    cases x <;> rfl
  · refine .inr (.inr (BitVec.eq_of_toNat_eq (store.trans ?_)))
    cases x <;> rfl

/-- The handler returns with the fault resolved or handed over, after at most two attempts, and
without a stop of the kernel. -/
def Settled (o : Outcome x) : Prop :=
  SettledWithin 2 o

/-- A fault of user code that `excp_vect_table` sends to `do_page_fault` is settled exactly if
`handle_mm_fault` never answers with an error other than a lack of memory and `SIGBUS`. -/
theorem doPageFault_settled_iff (w : World x) (user : userMode w.sstatus = true)
    (mm : w.mm = true) (enabled : w.faulthandlerDisabled = false)
    (dispatched : excpVectTable[w.scause.toNat]? = some .doPageFault) :
    Settled (doPageFault w) ↔
      (∀ f ∈ firstAnswer w, ¬Unreported w 0 f) ∧ ∀ f ∈ secondAnswer w, ¬Unreported w 1 f := by
  have known := knownCause_of_dispatched dispatched
  unfold doPageFault Settled secondAnswer
  split
  · rename_i inside
    have noAnswer : firstAnswer w = none := if_pos (.inl inside)
    rw [noAnswer]
    refine iff_of_true ?_ ⟨nofun, nofun⟩
    rw [vmallocFault, if_pos user]
    exact badArea_settled user .segvMaperr 2
  · rename_i outside
    have first : firstAnswer w = answer w 0 (firstFlags w) :=
      if_neg (by simp [outside, enabled, mm])
    have asked : mmFault w = retry w 0 (firstFlags w) .segvMaperr :=
      if_neg (by simp [enabled, mm])
    have body : SettledWithin 2 (mmFault w) ↔ _ :=
      asked ▸ retry_first_settled_iff user known .segvMaperr
    rw [first]
    have same : SettledWithin 2 (mmFault w) ↔ (∀ f ∈ answer w 0 (firstFlags w), ¬Unreported w 0 f) ∧
        ∀ f ∈ (match answer w 0 (firstFlags w) with
          | none => none
          | some f =>
            if Again w 0 f ∧ f.error = false then answer w 1 (secondFlags w) else none),
          ¬Unreported w 1 f := by
      rw [body]
      cases answer w 0 (firstFlags w) with
      | none => simp
      | some f =>
        by_cases more : Again w 0 f ∧ f.error = false
        · simp [more]
        · simp only [Option.mem_some_iff, forall_eq', if_false, more, false_imp_iff,
            Option.not_mem_none, implies_true]
    split
    · rw [settledWithin_quiet localIrqEnable_quiet]
      exact same
    · exact same

/-- A page that is there is settled, by the theorem. -/
theorem doPageFault_settled_iff_present :
    Settled (doPageFault (stackWorld 0x3000 0 ⟨false, false, false, false, false, false⟩)) :=
  (doPageFault_settled_iff (stackWorld 0x3000 0 ⟨false, false, false, false, false, false⟩)
    (by decide) rfl rfl (by decide)).mpr (by decide)

/-- A store of user code to the guard page below its stack, which `handle_mm_fault` answers with
`VM_FAULT_SIGSEGV`, ends in `BUG()`. -/
theorem not_settled_guardPage :
    ¬Settled (doPageFault (stackWorld 0x2000 0 ⟨false, false, true, false, false, false⟩)) := by
  intro settled
  have known : KnownCause (stackWorld 0x2000 0 ⟨false, false, true, false, false, false⟩) :=
    .inr (.inr rfl)
  have unreported : ¬∀ f ∈ answer (stackWorld 0x2000 0 ⟨false, false, true, false, false, false⟩) 0
      (firstFlags (stackWorld 0x2000 0 ⟨false, false, true, false, false, false⟩)),
      ¬Unreported (stackWorld 0x2000 0 ⟨false, false, true, false, false, false⟩) 0 f := by
    decide
  exact unreported ((retry_first_settled_iff (by decide) known .segvMaperr).mp settled).1

end RiscvLinux.Mm.Fault
