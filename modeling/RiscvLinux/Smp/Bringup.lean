import RiscvLinux.Lib.Interleave
import RiscvLinux.Trap.Entry

/-!
# Bringing up the other harts

The way of every hart from `_start` (`head.S`) into the kernel: hart 0 clears the `.bss` segment
and goes to `start_kernel`, the others wait in `.Lwait_for_cpu_up` until `__cpu_up` (`smpboot.c`)
leaves them a stack, and run `smp_callin` on it; harts that the kernel has no room for are parked.
Any number of harts do this at once, and a hart that is in the kernel may call `__cpu_up` for any
processor that `setup_smp` has made present. The model follows a hart to `cpu_startup_entry`.

`bringup_safe` says what holds of every hart on its way, and `cpuUp_returns` that no call of
`__cpu_up` waits in vain.
-/

namespace RiscvLinux.Smp.Bringup

open Lib Trap

variable {x : XLen}

/-! ## The code -/

/-- The members of `struct thread_info` that are read on the way -/
structure ThreadInfo (x : XLen) where
  task : Word x
  cpu : Nat

/-- What the code is given: `NR_CPUS`, the answer of the firmware, addresses of the linker, the
size of the frame of `smp_callin`, the idle task of every processor (`tidle`), the stack page of a
task, and the `struct thread_info` at an address. -/
structure Kernel (x : XLen) where
  nrCpus : Nat
  sbiNumHarts : Int
  initThreadUnion : Word x
  initTask : Word x
  handleException : Word x
  frame : Word x
  tidle : Nat → Word x
  taskStackPage : Word x → Word x
  threadInfo : Word x → ThreadInfo x

/-- The stack of the idle task of a processor -/
def Kernel.idleStack (k : Kernel x) (cpu : Nat) : Word x := k.taskStackPage (k.tidle cpu)

/-- The stack pointer that `__cpu_up` leaves for a processor -/
def Kernel.top (k : Kernel x) (cpu : Nat) : Word x :=
  k.idleStack cpu + BitVec.ofNat _ threadSize

/-- The processors that `setup_smp` makes possible and present -/
def Kernel.setupSmp (k : Kernel x) : List Nat :=
  List.range (min k.sbiNumHarts k.nrCpus).toNat

/-- The statements of `smp_callin` -/
inductive Stmt
  | prologue
  | atomicInc
  | activeMm
  | trapInit
  | initClockevent
  | notifyCpuStarting
  | setCpuOnline
  | localFlushTlbAll
  | localIrqEnable
  | preemptDisable
  | cpuStartupEntry
  deriving DecidableEq

def smpCallin : List Stmt :=
  [.prologue, .atomicInc, .activeMm, .trapInit, .initClockevent, .notifyCpuStarting,
    .setCpuOnline, .localFlushTlbAll, .localIrqEnable, .preemptDisable, .cpuStartupEntry]

/-- What the harts share: `__cpu_up_stack_pointer`, `init_mm.mm_count`, the tasks that have
`init_mm` as their `active_mm`, and the processors with a clock event, those that are announced as
starting, and those that are online. -/
structure Shared (x : XLen) where
  cpuUpStackPointer : Nat → Word x
  mmCount : Nat
  activeMm : Word x → Bool
  clockEvent : Nat → Bool
  starting : Nat → Bool
  online : Nat → Bool

/-- Where a hart is -/
inductive Place
  /-- `_start`, up to the branches on the number of the hart -/
  | start
  /-- `memset` on `.bss`, after so many entries of `__cpu_up_stack_pointer` -/
  | clearing (done : Nat)
  /-- The load in `.Lwait_for_cpu_up` -/
  | load
  /-- The branch in `.Lwait_for_cpu_up` -/
  | test
  /-- The loads of `tp` -/
  | loadTask
  /-- `smp_callin`, with the index of the next statement -/
  | callin (pc : Nat)
  /-- In the kernel, outside `__cpu_up` -/
  | kernel
  /-- The loop of `__cpu_up` for a processor -/
  | cpuUp (cpu : Nat)
  /-- `.Lsecondary_park` -/
  | park
  deriving DecidableEq

/-- A hart, with the number that `sbi_hart_id` answers, and the processors for which its calls of
`__cpu_up` have returned. -/
structure Hart (x : XLen) where
  id : Word x
  place : Place
  sp : Word x
  tp : Word x
  stvec : Word x
  sscratch : Word x
  irqs : Bool
  preemptCount : Nat
  ups : List Nat

/-- `current_thread_info` -/
def currentThreadInfo (sp : Word x) : Word x := sp &&& ~~~BitVec.ofNat _ (threadSize - 1)

/-- `raw_smp_processor_id` -/
def Kernel.rawSmpProcessorId (k : Kernel x) (h : Hart x) : Nat :=
  (k.threadInfo (currentThreadInfo h.sp)).cpu

/-- A statement of `smp_callin`. The translations that a hart flushes are not modelled. -/
def exec (k : Kernel x) (s : Shared x) (h : Hart x) : Stmt → Shared x × Hart x
  | .prologue => (s, { h with sp := h.sp - k.frame })
  | .atomicInc => ({ s with mmCount := s.mmCount + 1 }, h)
  | .activeMm => ({ s with activeMm := Function.update s.activeMm h.tp true }, h)
  | .trapInit => (s, { h with sscratch := 0, stvec := k.handleException })
  | .initClockevent =>
    ({ s with clockEvent := Function.update s.clockEvent (k.rawSmpProcessorId h) true }, h)
  | .notifyCpuStarting =>
    ({ s with starting := Function.update s.starting (k.rawSmpProcessorId h) true }, h)
  | .setCpuOnline =>
    ({ s with online := Function.update s.online (k.rawSmpProcessorId h) true }, h)
  | .localFlushTlbAll => (s, h)
  | .localIrqEnable => (s, { h with irqs := true })
  | .preemptDisable => (s, { h with preemptCount := h.preemptCount + 1 })
  | .cpuStartupEntry => (s, h)

/-- What a hart can do: go on, or call `__cpu_up` when it is in the kernel -/
inductive Event
  | onward
  | cpuUp (cpu : Nat)
  deriving DecidableEq

/-- The next instruction of a hart, or the next statement -/
def onward (k : Kernel x) (s : Shared x) (h : Hart x) : Option (Shared x × Hart x) :=
  match h.place with
  | .start =>
    if h.id = 0 then some (s, { h with place := .clearing 0 })
    else if k.nrCpus ≤ h.id.toNat then some (s, { h with place := .park })
    else some (s, { h with place := .load })
  | .clearing done =>
    if done < k.nrCpus then
      some ({ s with cpuUpStackPointer := Function.update s.cpuUpStackPointer done 0 },
        { h with place := .clearing (done + 1) })
    else
      some (s, { h with
        sp := k.initThreadUnion + BitVec.ofNat _ threadSize, tp := k.initTask, place := .kernel })
  | .load => some (s, { h with sp := s.cpuUpStackPointer h.id.toNat, place := .test })
  | .test => some (s, { h with place := if h.sp = 0 then .load else .loadTask })
  | .loadTask =>
    some (s, { h with
      tp := (k.threadInfo (-BitVec.ofNat _ threadSize + h.sp)).task, place := .callin 0 })
  | .callin pc =>
    smpCallin[pc]?.map fun stmt =>
      let r := exec k s h stmt
      (r.1, { r.2 with place := if stmt = .cpuStartupEntry then .kernel else .callin (pc + 1) })
  | .kernel => none
  | .cpuUp cpu =>
    some (s, if s.online cpu then { h with place := .kernel, ups := h.ups ++ [cpu] } else h)
  | .park => some (s, h)

/-- One step of a hart. `__cpu_up` is called for a processor that is present and not online. -/
def step (k : Kernel x) (s : Shared x) (h : Hart x) : Event → Option (Shared x × Hart x)
  | .onward => onward k s h
  | .cpuUp cpu =>
    if h.place = .kernel ∧ cpu ∈ k.setupSmp ∧ s.online cpu = false then
      some ({ s with cpuUpStackPointer := Function.update s.cpuUpStackPointer cpu (k.top cpu) },
        { h with place := .cpuUp cpu })
    else none

def Act (k : Kernel x) (s : Shared x) (h : Hart x) (s' : Shared x) (h' : Hart x) : Prop :=
  ∃ e, step k s h e = some (s', h')

/-- The harts, by their numbers -/
abbrev System (x : XLen) : Type := Parties (Word x) (Shared x) (Hart x)

/-- A stack pointer into the stack of the idle task of a processor, or to its end, where the stack
is empty -/
def Kernel.OnIdleStack (k : Kernel x) (cpu : Nat) (sp : Word x) : Prop :=
  (k.idleStack cpu).toNat ≤ sp.toNat ∧ sp.toNat ≤ (k.idleStack cpu).toNat + threadSize

/-- What the kernel gives its processors: a stack each, whose `struct thread_info` names the task
and the processor, and a frame of `smp_callin`, as it calls functions. -/
structure Provides (k : Kernel x) : Prop where
  cpus : k.nrCpus ≤ 32
  frame : k.frame ≠ 0
  small : k.frame.toNat ≤ threadSize
  aligned : ∀ cpu < k.nrCpus, (k.idleStack cpu).toNat % threadSize = 0
  fits : ∀ cpu < k.nrCpus, (k.idleStack cpu).toNat + threadSize < 2 ^ x.bits
  task : ∀ cpu < k.nrCpus, (k.threadInfo (k.idleStack cpu)).task = k.tidle cpu
  cpu : ∀ cpu < k.nrCpus, (k.threadInfo (k.idleStack cpu)).cpu = cpu

/-- The loader leaves zeros in `.bss`, and the boot processor alone is online. -/
structure Boots (s : System x) : Prop where
  id : ∀ i, (s.party i).id = i
  place : ∀ i, (s.party i).place = .start
  irqs : ∀ i, (s.party i).irqs = false
  ups : ∀ i, (s.party i).ups = []
  zero : ∀ cpu, s.shared.cpuUpStackPointer cpu = 0
  online : ∀ cpu, s.shared.online cpu = true ↔ cpu = 0

/-! ## Stacks -/

section

variable {k : Kernel x} {cpu : Nat}

theorem toNat_end {page : Word x} (fits : page.toNat + threadSize < 2 ^ x.bits) :
    (page + BitVec.ofNat _ threadSize).toNat = page.toNat + threadSize := by
  rw [BitVec.toNat_add, BitVec.toNat_ofNat, Nat.mod_eq_of_lt (a := threadSize) (by omega),
    Nat.mod_eq_of_lt fits]

theorem toNat_below {page frame : Word x} (fits : page.toNat + threadSize < 2 ^ x.bits)
    (small : frame.toNat ≤ threadSize) :
    (page + BitVec.ofNat _ threadSize - frame).toNat = page.toNat + threadSize - frame.toNat := by
  rw [BitVec.toNat_sub_of_le (BitVec.le_def.mpr (by rw [toNat_end fits]; omega)), toNat_end fits]

/-- A stack pointer in the upper part of a page, or under its end, leads to the start of it. -/
theorem currentThreadInfo_below {page frame : Word x} (aligned : page.toNat % threadSize = 0)
    (fits : page.toNat + threadSize < 2 ^ x.bits) (used : frame ≠ 0)
    (small : frame.toNat ≤ threadSize) :
    currentThreadInfo (page + BitVec.ofNat _ threadSize - frame) = page := by
  have size : threadSize = 2 ^ 13 := rfl
  have inside : 13 ≤ x.bits := by cases x <;> decide
  have positive : 0 < frame.toNat :=
    Nat.pos_of_ne_zero fun zero => used (BitVec.eq_of_toNat_eq zero)
  refine BitVec.eq_of_toNat_eq ?_
  rw [currentThreadInfo, size, toNat_and_not_low inside, ← size, toNat_below fits small]
  rw [size] at aligned small ⊢
  omega

theorem Provides.top_ne_zero (provides : Provides k) (small : cpu < k.nrCpus) : k.top cpu ≠ 0 := by
  intro zero
  have same : (k.top cpu).toNat = 0 := congrArg BitVec.toNat zero
  have size : threadSize = 2 ^ 13 := rfl
  rw [Kernel.top, toNat_end (provides.fits cpu small)] at same
  omega

theorem Provides.onIdleStack_top (provides : Provides k) (small : cpu < k.nrCpus) :
    k.OnIdleStack cpu (k.top cpu) := by
  unfold Kernel.OnIdleStack
  rw [Kernel.top, toNat_end (provides.fits cpu small)]
  exact ⟨Nat.le_add_right .., le_rfl⟩

theorem Provides.onIdleStack_frame (provides : Provides k) (small : cpu < k.nrCpus) :
    k.OnIdleStack cpu (k.top cpu - k.frame) := by
  have frame := provides.small
  unfold Kernel.OnIdleStack
  rw [Kernel.top, toNat_below (provides.fits cpu small) frame]
  omega

/-- The idle tasks have a stack each. -/
theorem Provides.idleStack_injective (provides : Provides k) {other : Nat} (small : cpu < k.nrCpus)
    (small' : other < k.nrCpus) (same : k.idleStack cpu = k.idleStack other) : cpu = other := by
  rw [← provides.cpu cpu small, same, provides.cpu other small']

theorem Provides.currentThreadInfo_frame (provides : Provides k) (small : cpu < k.nrCpus) :
    currentThreadInfo (k.top cpu - k.frame) = k.idleStack cpu :=
  currentThreadInfo_below (provides.aligned cpu small) (provides.fits cpu small) provides.frame
    provides.small

/-- The code under the stack of a processor finds the number of the processor. -/
theorem Provides.cpu_top (provides : Provides k) (small : cpu < k.nrCpus) :
    (k.threadInfo (currentThreadInfo (k.top cpu - k.frame))).cpu = cpu := by
  rw [provides.currentThreadInfo_frame small]
  exact provides.cpu cpu small

theorem Provides.task_top (provides : Provides k) (small : cpu < k.nrCpus) :
    (k.threadInfo (-BitVec.ofNat _ threadSize + k.top cpu)).task = k.tidle cpu := by
  rw [Kernel.top, BitVec.add_comm, BitVec.add_assoc, BitVec.add_right_neg, BitVec.add_zero]
  exact provides.task cpu small

theorem lt_of_mem_setupSmp (among : cpu ∈ k.setupSmp) : cpu < k.nrCpus := by
  have small := List.mem_range.mp among
  omega

end

/-! ## What holds of a hart -/

/-- How many statements of `smp_callin` the hart has executed -/
def Hart.called (h : Hart x) : Nat :=
  match h.place with
  | .callin pc => pc
  | .kernel | .cpuUp _ => if h.id = 0 then 0 else smpCallin.length
  | _ => 0

/-- A hart that is to come up -/
def Hart.Secondary (k : Kernel x) (h : Hart x) : Prop := h.id ≠ 0 ∧ h.id.toNat < k.nrCpus

/-- The hart runs as the idle task of its processor, after so many statements. -/
structure Hart.Idles (k : Kernel x) (h : Hart x) (called : Nat) : Prop where
  secondary : h.Secondary k
  tp : h.tp = k.tidle h.id.toNat
  sp : h.sp = if called = 0 then k.top h.id.toNat else k.top h.id.toNat - k.frame

/-- What a hart has where it is -/
def Hart.Placed (k : Kernel x) (h : Hart x) : Prop :=
  match h.place with
  | .start => True
  | .clearing _ => h.id = 0
  | .load => h.Secondary k
  | .test => h.Secondary k ∧ (h.sp = 0 ∨ h.sp = k.top h.id.toNat)
  | .loadTask => h.Secondary k ∧ h.sp = k.top h.id.toNat
  | .callin pc => h.Idles k pc ∧ pc < smpCallin.length
  | .kernel => h.id = 0 ∨ h.Idles k smpCallin.length
  | .cpuUp cpu => (h.id = 0 ∨ h.Idles k smpCallin.length) ∧ cpu ∈ k.setupSmp
  | .park => k.nrCpus ≤ h.id.toNat

/-- What `smp_callin` has done so far, and no hart before it -/
structure Marked (k : Kernel x) (s : Shared x) (h : Hart x) : Prop where
  vector : 3 < h.called → h.stvec = k.handleException ∧ h.sscratch = 0
  clockEvent : 4 < h.called → s.clockEvent h.id.toNat = true
  starting : 5 < h.called → s.starting h.id.toNat = true
  online : h.id ≠ 0 → (s.online h.id.toNat = true ↔ 6 < h.called)
  irqs : h.irqs = true → 8 < h.called
  ups : ∀ cpu ∈ h.ups, s.online cpu = true

/-- What a step of the hart with this number does to what the harts share -/
structure Grows (s s' : Shared x) (id : Word x) : Prop where
  clockEvent : ∀ cpu, s.clockEvent cpu = true → s'.clockEvent cpu = true
  starting : ∀ cpu, s.starting cpu = true → s'.starting cpu = true
  online : ∀ cpu, s.online cpu = true → s'.online cpu = true
  others : ∀ cpu, cpu ≠ id.toNat → s'.online cpu = s.online cpu

/-- The entries of `__cpu_up_stack_pointer` are null or lead to the stacks of the idle tasks. -/
def Entries (k : Kernel x) (s : Shared x) : Prop :=
  ∀ cpu, s.cpuUpStackPointer cpu = 0 ∨ s.cpuUpStackPointer cpu = k.top cpu

section

variable {k : Kernel x} {s s' : Shared x} {h h' : Hart x} {n : Nat}

/-- A step that leaves no mark -/
theorem Grows.same
    (flags : (s'.clockEvent, s'.starting, s'.online) = (s.clockEvent, s.starting, s.online))
    (id : Word x) : Grows s s' id := by
  simp only [Prod.mk.injEq] at flags
  rcases flags with ⟨clockEvent, starting, online⟩
  refine ⟨fun cpu set => ?_, fun cpu set => ?_, fun cpu set => ?_, fun cpu _ => ?_⟩
  · rwa [clockEvent]
  · rwa [starting]
  · rwa [online]
  · rw [online]

theorem update_true {marks : Nat → Bool} (cpu : Nat) {other : Nat} (set : marks other = true) :
    Function.update marks cpu true other = true := by
  rcases eq_or_ne other cpu with rfl | differ
  · exact Function.update_self ..
  · rwa [Function.update_of_ne differ]

theorem grows_clockEvent (s : Shared x) (id : Word x) (cpu : Nat) :
    Grows s { s with clockEvent := Function.update s.clockEvent cpu true } id :=
  ⟨fun _ set => update_true _ set, fun _ set => set, fun _ set => set, fun _ _ => rfl⟩

theorem grows_starting (s : Shared x) (id : Word x) (cpu : Nat) :
    Grows s { s with starting := Function.update s.starting cpu true } id :=
  ⟨fun _ set => set, fun _ set => update_true _ set, fun _ set => set, fun _ _ => rfl⟩

theorem grows_online (s : Shared x) {id : Word x} {cpu : Nat} (own : cpu = id.toNat) :
    Grows s { s with online := Function.update s.online cpu true } id := by
  refine ⟨fun _ set => set, fun _ set => set, fun _ set => update_true _ set, ?_⟩
  intro other differ
  rw [own]
  exact Function.update_of_ne differ ..

/-- A hart that has gone on, but not in `smp_callin` -/
theorem Marked.elsewhere (marked : Marked k s h) (called : h'.called = h.called)
    (kept : (h'.id, h'.stvec, h'.sscratch, h'.irqs) = (h.id, h.stvec, h.sscratch, h.irqs))
    (flags : (s'.clockEvent, s'.starting, s'.online) = (s.clockEvent, s.starting, s.online))
    (ups : ∀ cpu ∈ h'.ups, s.online cpu = true) : Marked k s' h' := by
  simp only [Prod.mk.injEq] at kept flags
  rcases kept with ⟨id, stvec, sscratch, irqs⟩
  rcases flags with ⟨clockEvent, starting, online⟩
  refine ⟨?_, ?_, ?_, ?_, ?_, ?_⟩
  · rw [called, stvec, sscratch]
    exact marked.vector
  · rw [called, clockEvent, id]
    exact marked.clockEvent
  · rw [called, starting, id]
    exact marked.starting
  · rw [called, online, id]
    exact marked.online
  · rw [called, irqs]
    exact marked.irqs
  · rw [online]
    exact ups

/-- A hart that has executed one statement of `smp_callin` more -/
theorem Marked.after (marked : Marked k s h) (n : Nat) (called : h.called = n)
    (called' : h'.called = n + 1) (id : h'.id = h.id) (ups : h'.ups = h.ups)
    (grows : Grows s s' h.id)
    (vector : 3 ≤ n → h'.stvec = k.handleException ∧ h'.sscratch = 0)
    (clockEvent : n = 4 → s'.clockEvent h.id.toNat = true)
    (starting : n = 5 → s'.starting h.id.toNat = true)
    (online : s'.online h.id.toNat = true ↔ s.online h.id.toNat = true ∨ n = 6)
    (irqs : h'.irqs = true → h.irqs = true ∨ n = 8) : Marked k s' h' := by
  refine ⟨fun late => vector (by omega), fun late => ?_, fun late => ?_, fun secondary => ?_,
    fun on => ?_, fun cpu among => grows.online cpu (marked.ups cpu (ups ▸ among))⟩
  · rw [id]
    rcases Nat.eq_or_lt_of_le (Nat.le_of_lt_succ (called' ▸ late)) with here | before
    · exact clockEvent here.symm
    · exact grows.clockEvent _ (marked.clockEvent (called ▸ before))
  · rw [id]
    rcases Nat.eq_or_lt_of_le (Nat.le_of_lt_succ (called' ▸ late)) with here | before
    · exact starting here.symm
    · exact grows.starting _ (marked.starting (called ▸ before))
  · rw [id] at secondary ⊢
    rw [online, marked.online secondary, called, called']
    omega
  · rcases irqs on with before | here
    · have late := marked.irqs before
      omega
    · omega

/-- A statement that leaves no mark -/
theorem Marked.past (marked : Marked k s h) (n : Nat) (called : h.called = n)
    (called' : h'.called = n + 1) (plain : n ∉ [3, 4, 5, 6, 8])
    (kept : (h'.id, h'.stvec, h'.sscratch, h'.irqs) = (h.id, h.stvec, h.sscratch, h.irqs))
    (ups : h'.ups = h.ups)
    (flags : (s'.clockEvent, s'.starting, s'.online) = (s.clockEvent, s.starting, s.online)) :
    Marked k s' h' := by
  have grows : Grows s s' h.id := .same flags h.id
  simp only [Prod.mk.injEq] at kept flags
  simp only [List.mem_cons, List.not_mem_nil, or_false, not_or] at plain
  rcases kept with ⟨id, stvec, sscratch, irqs⟩
  rcases flags with ⟨-, -, online⟩
  refine marked.after n called called' id ups grows ?_ (absurd · plain.2.1)
    (absurd · plain.2.2.1) ?_ ?_
  · intro late
    rw [stvec, sscratch]
    exact marked.vector (called ▸ Nat.lt_of_le_of_ne late (Ne.symm plain.1))
  · rw [online, or_iff_left plain.2.2.2.1]
  · rw [irqs]
    exact .inl

/-- What other harts do leaves a hart what it has. -/
theorem Marked.other {id : Word x} (marked : Marked k s h) (grows : Grows s s' id)
    (differ : h.id ≠ id) : Marked k s' h := by
  have apart : h.id.toNat ≠ id.toNat := fun same => differ (BitVec.eq_of_toNat_eq same)
  refine ⟨marked.vector, fun late => grows.clockEvent _ (marked.clockEvent late),
    fun late => grows.starting _ (marked.starting late), fun secondary => ?_, marked.irqs,
    fun cpu among => grows.online cpu (marked.ups cpu among)⟩
  rw [grows.others _ apart]
  exact marked.online secondary

theorem Hart.Idles.rawSmpProcessorId (idles : h.Idles k n) (provides : Provides k) (some : n ≠ 0) :
    k.rawSmpProcessorId h = h.id.toNat := by
  rw [Kernel.rawSmpProcessorId, idles.sp, if_neg some]
  exact provides.cpu_top idles.secondary.2

theorem Hart.Idles.same (idles : h.Idles k n)
    (kept : (h'.id, h'.tp, h'.sp) = (h.id, h.tp, h.sp)) : h'.Idles k n := by
  simp only [Prod.mk.injEq] at kept
  rcases kept with ⟨id, tp, sp⟩
  refine ⟨?_, ?_, ?_⟩
  · rw [Hart.Secondary, id]
    exact idles.secondary
  · rw [tp, id]
    exact idles.tp
  · rw [sp, id]
    exact idles.sp

/-- One statement more, with the stack pointer and the number of the hart left as they are -/
theorem Hart.Idles.next (idles : h.Idles k n) (some : n ≠ 0)
    (kept : (h'.id, h'.tp, h'.sp) = (h.id, h.tp, h.sp)) : h'.Idles k (n + 1) := by
  obtain ⟨secondary, tp, sp⟩ := idles.same kept
  exact ⟨secondary, tp, sp.trans ((if_neg some).trans (if_neg (Nat.succ_ne_zero n)).symm)⟩

/-- What a step of a hart does, when the hart has what it has where it is -/
structure Kept (k : Kernel x) (s : Shared x) (h : Hart x) (s' : Shared x) (h' : Hart x) : Prop where
  id : h'.id = h.id
  placed : h'.Placed k
  marked : Marked k s' h'
  entries : Entries k s → Entries k s'
  grows : Grows s s' h.id

theorem callin_kept (provides : Provides k) (placed : h.Placed k) (marked : Marked k s h)
    (place : h.place = .callin n) (next : onward k s h = some (s', h')) : Kept k s h s' h' := by
  rcases h with ⟨id, _, sp, tp, stvec, sscratch, irqs, preemptCount, ups⟩
  obtain rfl : _ = Place.callin n := place
  rcases placed with ⟨idles, -⟩
  have number := idles.rawSmpProcessorId provides
  match n with
  | 0 =>
    cases next
    have sp_eq : sp = k.top id.toNat := idles.sp
    refine ⟨rfl, ⟨⟨idles.secondary, idles.tp, ?_⟩, by decide⟩, ?_, fun entries => entries,
      .same (by rfl) id⟩
    · exact congrArg (· - k.frame) sp_eq
    · exact marked.past 0 rfl rfl (by decide) rfl rfl rfl
  | 1 =>
    cases next
    exact ⟨rfl, ⟨idles.next (by decide) rfl, by decide⟩,
      marked.past 1 rfl rfl (by decide) rfl rfl rfl, fun entries => entries, .same (by rfl) id⟩
  | 2 =>
    cases next
    exact ⟨rfl, ⟨idles.next (by decide) rfl, by decide⟩,
      marked.past 2 rfl rfl (by decide) rfl rfl rfl, fun entries => entries, .same (by rfl) id⟩
  | 3 =>
    cases next
    refine ⟨rfl, ⟨idles.next (by decide) rfl, by decide⟩, ?_, fun entries => entries,
      .same (by rfl) id⟩
    exact marked.after 3 rfl rfl rfl rfl (.same (by rfl) id) (fun _ => ⟨rfl, rfl⟩)
      (absurd · (by decide)) (absurd · (by decide)) (or_iff_left (by decide)).symm .inl
  | 4 =>
    cases next
    have vector := marked.vector (by decide : 3 < 4)
    have grows := grows_clockEvent s id
      (k.rawSmpProcessorId ⟨id, .callin 4, sp, tp, stvec, sscratch, irqs, preemptCount, ups⟩)
    refine ⟨rfl, ⟨idles.next (by decide) rfl, by decide⟩, ?_, fun entries => entries, grows⟩
    refine marked.after 4 rfl rfl rfl rfl grows (fun _ => vector) (fun _ => ?_)
      (absurd · (by decide)) (or_iff_left (by decide)).symm .inl
    rw [← number (by decide)]
    exact Function.update_self ..
  | 5 =>
    cases next
    have vector := marked.vector (by decide : 3 < 5)
    have grows := grows_starting s id
      (k.rawSmpProcessorId ⟨id, .callin 5, sp, tp, stvec, sscratch, irqs, preemptCount, ups⟩)
    refine ⟨rfl, ⟨idles.next (by decide) rfl, by decide⟩, ?_, fun entries => entries, grows⟩
    refine marked.after 5 rfl rfl rfl rfl grows (fun _ => vector) (absurd · (by decide))
      (fun _ => ?_) (or_iff_left (by decide)).symm .inl
    rw [← number (by decide)]
    exact Function.update_self ..
  | 6 =>
    cases next
    have vector := marked.vector (by decide : 3 < 6)
    have grows := grows_online s (number (by decide))
    refine ⟨rfl, ⟨idles.next (by decide) rfl, by decide⟩, ?_, fun entries => entries, grows⟩
    refine marked.after 6 rfl rfl rfl rfl grows (fun _ => vector) (absurd · (by decide))
      (absurd · (by decide)) (iff_of_true ?_ (.inr rfl)) .inl
    rw [← number (by decide)]
    exact Function.update_self ..
  | 7 =>
    cases next
    exact ⟨rfl, ⟨idles.next (by decide) rfl, by decide⟩,
      marked.past 7 rfl rfl (by decide) rfl rfl rfl, fun entries => entries, .same (by rfl) id⟩
  | 8 =>
    cases next
    have vector := marked.vector (by decide : 3 < 8)
    refine ⟨rfl, ⟨idles.next (by decide) rfl, by decide⟩, ?_, fun entries => entries,
      .same (by rfl) id⟩
    exact marked.after 8 rfl rfl rfl rfl (.same (by rfl) id) (fun _ => vector)
      (absurd · (by decide)) (absurd · (by decide)) (or_iff_left (by decide)).symm fun _ => .inr rfl
  | 9 =>
    cases next
    exact ⟨rfl, ⟨idles.next (by decide) rfl, by decide⟩,
      marked.past 9 rfl rfl (by decide) rfl rfl rfl, fun entries => entries, .same (by rfl) id⟩
  | 10 =>
    cases next
    exact ⟨rfl, .inr (idles.next (by decide) rfl),
      marked.past 10 rfl (if_neg idles.secondary.1) (by decide) rfl rfl rfl,
      fun entries => entries, .same (by rfl) id⟩
  | _ + 11 => cases next

theorem Entries.update {cpu : Nat} {v : Word x} (entries : Entries k s)
    (proper : v = 0 ∨ v = k.top cpu) :
    Entries k { s with cpuUpStackPointer := Function.update s.cpuUpStackPointer cpu v } := by
  intro other
  change Function.update s.cpuUpStackPointer cpu v other = 0 ∨
    Function.update s.cpuUpStackPointer cpu v other = k.top other
  rcases eq_or_ne other cpu with rfl | differ
  · rwa [Function.update_self]
  · rw [Function.update_of_ne differ]
    exact entries other

theorem onward_kept (provides : Provides k) (entries : Entries k s) (placed : h.Placed k)
    (marked : Marked k s h) (next : onward k s h = some (s', h')) : Kept k s h s' h' := by
  rcases callin : h.place with _ | done | _ | _ | _ | pc | _ | cpu | _
  case callin => exact callin_kept provides placed marked callin next
  all_goals
    rcases h with ⟨id, place, sp, tp, stvec, sscratch, irqs, preemptCount, ups⟩
    cases callin
  · dsimp only [onward] at next
    split_ifs at next with main beyond <;> cases next
    · exact ⟨rfl, main, marked.elsewhere rfl rfl rfl marked.ups, fun e => e, .same (by rfl) id⟩
    · exact ⟨rfl, beyond, marked.elsewhere rfl rfl rfl marked.ups, fun e => e, .same (by rfl) id⟩
    · exact ⟨rfl, ⟨main, Nat.lt_of_not_le beyond⟩, marked.elsewhere rfl rfl rfl marked.ups,
        fun e => e, .same (by rfl) id⟩
  · dsimp only [onward] at next
    split_ifs at next with more <;> cases next
    · exact ⟨rfl, placed, marked.elsewhere rfl rfl rfl marked.ups,
        fun entries => entries.update (.inl rfl), .same (by rfl) id⟩
    · exact ⟨rfl, .inl placed, marked.elsewhere (if_pos placed) rfl rfl marked.ups,
        fun e => e, .same (by rfl) id⟩
  · cases next
    exact ⟨rfl, ⟨placed, entries id.toNat⟩, marked.elsewhere rfl rfl rfl marked.ups, fun e => e,
      .same (by rfl) id⟩
  · cases next
    rcases placed with ⟨secondary, loaded⟩
    refine ⟨rfl, ?_, marked.elsewhere ?_ rfl rfl marked.ups, fun e => e, .same (by rfl) id⟩
    · by_cases none : sp = 0
      · rw [if_pos none]
        exact secondary
      · rw [if_neg none]
        exact ⟨secondary, loaded.resolve_left none⟩
    · by_cases none : sp = 0
      · rw [if_pos none]
        rfl
      · rw [if_neg none]
        rfl
  · cases next
    rcases placed with ⟨secondary, top⟩
    refine ⟨rfl, ⟨⟨secondary, ?_, top⟩, by decide⟩, marked.elsewhere rfl rfl rfl marked.ups,
      fun e => e, .same (by rfl) id⟩
    obtain rfl : sp = k.top id.toNat := top
    exact provides.task_top secondary.2
  · cases next
  · cases next
    refine ⟨?_, ?_, ?_, fun e => e, .same (by rfl) _⟩ <;> by_cases on : s.online cpu = true
    · rw [if_pos on]
    · rw [if_neg on]
    · rw [if_pos on]
      exact placed.1.imp_right (·.same rfl)
    · rw [if_neg on]
      exact placed
    · rw [if_pos on]
      refine marked.elsewhere rfl rfl rfl fun other among => ?_
      rcases List.mem_append.mp among with before | last
      · exact marked.ups other before
      · rwa [List.mem_singleton.mp last]
    · rw [if_neg on]
      exact marked
  · cases next
    exact ⟨rfl, placed, marked, fun e => e, .same (by rfl) id⟩

theorem act_kept (provides : Provides k) (entries : Entries k s) (placed : h.Placed k)
    (marked : Marked k s h) (act : Act k s h s' h') : Kept k s h s' h' := by
  rcases act with ⟨e, next⟩
  cases e with
  | onward => exact onward_kept provides entries placed marked next
  | cpuUp cpu =>
    rw [step, Option.ite_none_right_eq_some] at next
    rcases next with ⟨⟨here, among, -⟩, next⟩
    cases next
    rcases h with ⟨id, _, sp, tp, stvec, sscratch, irqs, preemptCount, ups⟩
    obtain rfl : _ = Place.kernel := here
    exact ⟨rfl, ⟨placed.imp_right (·.same rfl), among⟩, marked.elsewhere rfl rfl rfl marked.ups,
      fun entries => entries.update (.inr rfl), .same (by rfl) id⟩

end

/-! ## Runs -/

/-- What holds in every state that the harts come to -/
structure Inv (k : Kernel x) (s : System x) : Prop where
  id : ∀ i, (s.party i).id = i
  placed : ∀ i, (s.party i).Placed k
  marked : ∀ i, Marked k s.shared (s.party i)
  entries : Entries k s.shared
  boot : s.shared.online 0 = true

section

variable {k : Kernel x} {s t : System x}

theorem Boots.inv (boots : Boots s) (k : Kernel x) : Inv k s := by
  have called (i : Word x) : (s.party i).called = 0 := by rw [Hart.called, boots.place i]
  refine ⟨boots.id, fun i => ?_, fun i => ?_, fun cpu => .inl (boots.zero cpu),
    (boots.online 0).mpr rfl⟩
  · rw [Hart.Placed, boots.place i]
    trivial
  · refine ⟨?_, ?_, ?_, fun secondary => ?_, ?_, ?_⟩
    · exact fun late => absurd late (by rw [called i]; decide)
    · exact fun late => absurd late (by rw [called i]; decide)
    · exact fun late => absurd late (by rw [called i]; decide)
    · rw [boots.online, called i]
      refine iff_of_false (fun zero => secondary (BitVec.eq_of_toNat_eq zero)) (by decide)
    · exact fun on => absurd ((boots.irqs i).symm.trans on) Bool.false_ne_true
    · rw [boots.ups i]
      exact fun cpu among => absurd among List.not_mem_nil

theorem inv_kept (provides : Provides k) : Keeps (Interleave (Act k)) (Inv k) := by
  intro s t inv stepped
  rcases stepped with ⟨i, h, act, moved⟩
  have kept := act_kept provides inv.entries (inv.placed i) (inv.marked i) act
  have own : t.party i = h := by rw [moved, Function.update_self]
  have other (j : Word x) (differ : j ≠ i) : t.party j = s.party j := by
    rw [moved, Function.update_of_ne differ]
  refine ⟨fun j => ?_, fun j => ?_, fun j => ?_, kept.entries inv.entries,
    kept.grows.online 0 inv.boot⟩
  · rcases eq_or_ne j i with rfl | differ
    · rw [own, kept.id, inv.id j]
    · rw [other j differ, inv.id j]
  · rcases eq_or_ne j i with rfl | differ
    · rw [own]
      exact kept.placed
    · rw [other j differ]
      exact inv.placed j
  · rcases eq_or_ne j i with rfl | differ
    · rw [own]
      exact kept.marked
    · rw [other j differ]
      refine (inv.marked j).other kept.grows ?_
      rwa [inv.id j, inv.id i]

/-- The harts on their way, and those that have come up -/
structure Safe (k : Kernel x) (s : System x) : Prop where
  /-- A hart in `smp_callin` runs as the idle task of its own processor, on the stack of that task,
  and from the prologue on finds its `struct thread_info` at the start of it. -/
  idle : ∀ i pc, (s.party i).place = .callin pc → i ≠ 0 ∧ i.toNat < k.nrCpus ∧
    (s.party i).tp = k.tidle i.toNat ∧ k.OnIdleStack i.toNat (s.party i).sp ∧
    (0 < pc → currentThreadInfo (s.party i).sp = k.idleStack i.toNat ∧
      k.rawSmpProcessorId (s.party i) = i.toNat)
  /-- The idle tasks have a stack each. -/
  distinct : ∀ i j : Word x, i.toNat < k.nrCpus → j.toNat < k.nrCpus →
    k.idleStack i.toNat = k.idleStack j.toNat → i = j
  /-- No two harts in `smp_callin`, or past it, are on one stack. -/
  apart : ∀ i j, 0 < (s.party i).called → 0 < (s.party j).called →
    currentThreadInfo (s.party i).sp = currentThreadInfo (s.party j).sp → i = j
  /-- A secondary one that is online can take interrupts, has its timer and was announced. -/
  online : ∀ i, i ≠ 0 → s.shared.online i.toNat = true →
    (s.party i).stvec = k.handleException ∧ (s.party i).sscratch = 0 ∧
      s.shared.clockEvent i.toNat = true ∧ s.shared.starting i.toNat = true
  /-- Interrupts are on only where the processor is online. -/
  irqs : ∀ i, (s.party i).irqs = true → s.shared.online i.toNat = true
  /-- `__cpu_up` returns when the processor is online. -/
  up : ∀ i, ∀ cpu ∈ (s.party i).ups, s.shared.online cpu = true
  /-- The kernel has no room for the others. -/
  parked : ∀ i, i ≠ 0 → k.nrCpus ≤ i.toNat →
    (s.party i).place = .start ∨ (s.party i).place = .park

/-- A hart in `smp_callin`, or that has gone through it -/
theorem Hart.Placed.idles {h : Hart x} (placed : h.Placed k) (called : 0 < h.called) :
    h.Idles k h.called := by
  rcases place : h.place with _ | done | _ | _ | _ | pc | _ | cpu | _ <;>
    rw [Hart.Placed, place] at placed <;> rw [Hart.called, place] at called ⊢
  case callin => exact placed.1
  case kernel =>
    by_cases main : h.id = 0
    · exact absurd called (if_pos main ▸ Nat.lt_irrefl 0)
    · rw [if_neg main]
      exact placed.resolve_left main
  case cpuUp =>
    by_cases main : h.id = 0
    · exact absurd called (if_pos main ▸ Nat.lt_irrefl 0)
    · rw [if_neg main]
      exact placed.1.resolve_left main
  all_goals exact absurd called (Nat.lt_irrefl 0)

theorem Inv.safe (inv : Inv k s) (provides : Provides k) : Safe k s := by
  have number (i : Word x) (called : 0 < (s.party i).called) :
      k.rawSmpProcessorId (s.party i) = i.toNat := by
    have idles := (inv.placed i).idles called
    rw [idles.rawSmpProcessorId provides (Nat.ne_of_gt called), inv.id i]
  have secondary (i : Word x) (called : 0 < (s.party i).called) : i ≠ 0 := by
    have idles := (inv.placed i).idles called
    exact inv.id i ▸ idles.secondary.1
  refine ⟨fun i pc here => ?_, fun i j one other same => ?_, fun i j one other same => ?_,
    fun i differ on => ?_, fun i on => ?_, fun i => (inv.marked i).ups, fun i differ beyond => ?_⟩
  · have placed := inv.placed i
    rw [Hart.Placed, here] at placed
    rcases placed with ⟨⟨⟨differ, small⟩, tp, sp⟩, -⟩
    rw [inv.id i] at differ small tp sp
    have called : (s.party i).called = pc := by rw [Hart.called, here]
    refine ⟨differ, small, tp, ?_, fun later => ⟨?_, number i (called.symm ▸ later)⟩⟩
    · rw [sp]
      split
      · exact provides.onIdleStack_top small
      · exact provides.onIdleStack_frame small
    · rw [sp, if_neg (Nat.ne_of_gt later)]
      exact provides.currentThreadInfo_frame small
  · exact BitVec.eq_of_toNat_eq (provides.idleStack_injective one other same)
  · refine BitVec.eq_of_toNat_eq ?_
    rw [← number i one, ← number j other, Kernel.rawSmpProcessorId, same]
    rfl
  · have marked := inv.marked i
    have late : 6 < (s.party i).called :=
      (marked.online ((inv.id i).symm ▸ differ)).mp ((inv.id i).symm ▸ on)
    obtain ⟨stvec, sscratch⟩ := marked.vector (by omega)
    have clockEvent := marked.clockEvent (by omega)
    have starting := marked.starting (by omega)
    rw [inv.id i] at clockEvent starting
    exact ⟨stvec, sscratch, clockEvent, starting⟩
  · have marked := inv.marked i
    have late := marked.irqs on
    have online := marked.online ((inv.id i).symm ▸ secondary i (by omega))
    rw [inv.id i] at online
    exact online.mpr (by omega)
  · have placed := inv.placed i
    have number := inv.id i
    rcases place : (s.party i).place with _ | done | _ | _ | _ | pc | _ | cpu | _ <;>
      rw [Hart.Placed, place] at placed
    case start => exact .inl rfl
    case park => exact .inr rfl
    case clearing => exact absurd (number ▸ placed) differ
    case load => exact absurd (number ▸ placed.2) (Nat.not_lt_of_le beyond)
    case test => exact absurd (number ▸ placed.1.2) (Nat.not_lt_of_le beyond)
    case loadTask => exact absurd (number ▸ placed.1.2) (Nat.not_lt_of_le beyond)
    case callin => exact absurd (number ▸ placed.1.secondary.2) (Nat.not_lt_of_le beyond)
    case kernel =>
      rcases placed with main | idles
      · exact absurd (number ▸ main) differ
      · exact absurd (number ▸ idles.secondary.2) (Nat.not_lt_of_le beyond)
    case cpuUp =>
      rcases placed.1 with main | idles
      · exact absurd (number ▸ main) differ
      · exact absurd (number ▸ idles.secondary.2) (Nat.not_lt_of_le beyond)

/-- However the harts come on, and whatever processors are brought up in whatever order: every hart
in `smp_callin` is on the stack of its own idle task, alone; a secondary processor that is online
can take its traps and its timer, and interrupts are on nowhere else; and `__cpu_up` returns for no
other. -/
theorem bringup_safe (provides : Provides k) (boots : Boots s)
    (run : Run (Interleave (Act k)) s t) : Safe k t :=
  (Run.keeps (inv_kept provides) (boots.inv k) run).safe provides

/-! ## No call waits in vain -/

/-- Hart 0 is not in the kernel yet. -/
def Hart.Booting (h : Hart x) : Prop :=
  match h.place with
  | .start | .clearing _ => True
  | _ => False

/-- A hart that has found no stack, or needs none -/
def Hart.Outside (h : Hart x) : Prop :=
  match h.place with
  | .start | .clearing _ | .load | .park => True
  | .test => h.sp = 0
  | _ => False

/-- While hart 0 clears `.bss` there is nothing in it to lose, and afterwards what `__cpu_up` has
written stays. -/
structure Ready (k : Kernel x) (s : System x) : Prop where
  quiet : (s.party 0).Booting →
    (∀ cpu, s.shared.cpuUpStackPointer cpu = 0) ∧ ∀ i, (s.party i).Outside
  left : ∀ i cpu, (s.party i).place = .cpuUp cpu → s.shared.cpuUpStackPointer cpu = k.top cpu

section

variable {s s' : Shared x} {h h' : Hart x}

/-- A step of a hart outside: it stays there with all entries null, or enters the kernel. -/
theorem onward_outside (outside : h.Outside) (zero : ∀ cpu, s.cpuUpStackPointer cpu = 0)
    (next : onward k s h = some (s', h')) :
    ((∀ cpu, s'.cpuUpStackPointer cpu = 0) ∧ h'.Outside) ∨
      (∃ done, h.place = .clearing done) ∧ h'.place = .kernel ∧ s' = s := by
  rcases h with ⟨id, place, sp, tp, stvec, sscratch, irqs, preemptCount, ups⟩
  cases place with
  | start =>
    dsimp only [onward] at next
    split_ifs at next <;> cases next <;> exact .inl ⟨zero, trivial⟩
  | clearing done =>
    dsimp only [onward] at next
    split_ifs at next <;> cases next
    · refine .inl ⟨fun cpu => ?_, trivial⟩
      change Function.update s.cpuUpStackPointer done 0 cpu = 0
      rcases eq_or_ne cpu done with rfl | differ
      · exact Function.update_self ..
      · rw [Function.update_of_ne differ]
        exact zero cpu
    · exact .inr ⟨⟨done, rfl⟩, rfl, rfl⟩
  | load =>
    cases next
    exact .inl ⟨zero, zero _⟩
  | test =>
    cases next
    refine .inl ⟨zero, ?_⟩
    rw [if_pos (show sp = 0 from outside)]
    trivial
  | park =>
    cases next
    exact .inl ⟨zero, trivial⟩
  | loadTask | callin | kernel | cpuUp => exact outside.elim

/-- Only hart 0 in `memset` and `__cpu_up` write entries. -/
theorem onward_entries (next : onward k s h = some (s', h')) :
    s'.cpuUpStackPointer = s.cpuUpStackPointer ∨ ∃ done, h.place = .clearing done := by
  rcases h with ⟨id, place, sp, tp, stvec, sscratch, irqs, preemptCount, ups⟩
  cases place with
  | clearing done => exact .inr ⟨done, rfl⟩
  | callin pc =>
    obtain ⟨stmt, -, next⟩ := Option.map_eq_some_iff.mp next
    cases next
    cases stmt <;> exact .inl rfl
  | start =>
    dsimp only [onward] at next
    split_ifs at next <;> cases next <;> exact .inl rfl
  | load | test | loadTask | cpuUp | park =>
    cases next
    exact .inl rfl
  | kernel => cases next

/-- A hart comes into `__cpu_up` by a call only. -/
theorem onward_cpuUp {cpu : Nat} (next : onward k s h = some (s', h'))
    (here : h'.place = .cpuUp cpu) : h.place = .cpuUp cpu := by
  rcases h with ⟨id, place, sp, tp, stvec, sscratch, irqs, preemptCount, ups⟩
  cases place with
  | cpuUp cpu' =>
    cases next
    by_cases on : s.online cpu' = true
    · rw [if_pos on] at here
      cases here
    · rw [if_neg on] at here
      exact here
  | callin pc =>
    obtain ⟨stmt, -, next⟩ := Option.map_eq_some_iff.mp next
    cases next
    by_cases last : stmt = .cpuStartupEntry
    · cases (if_pos last).symm.trans here
    · cases (if_neg last).symm.trans here
  | start | clearing =>
    dsimp only [onward] at next
    split_ifs at next <;> cases next <;> cases here
  | load | loadTask | park =>
    cases next
    cases here
  | test =>
    cases next
    by_cases none : sp = 0
    · cases (if_pos none).symm.trans here
    · cases (if_neg none).symm.trans here
  | kernel => cases next

theorem onward_booting (next : onward k s h = some (s', h')) (booting : h'.Booting) :
    h.Booting := by
  rcases h with ⟨id, place, sp, tp, stvec, sscratch, irqs, preemptCount, ups⟩
  cases place with
  | start | clearing => trivial
  | cpuUp cpu =>
    cases next
    by_cases on : s.online cpu = true
    · rw [if_pos on] at booting
      exact booting.elim
    · rw [if_neg on] at booting
      exact booting.elim
  | callin pc =>
    obtain ⟨stmt, -, next⟩ := Option.map_eq_some_iff.mp next
    cases next
    cases stmt <;> exact booting.elim
  | load | loadTask | park =>
    cases next
    exact booting.elim
  | test =>
    cases next
    by_cases none : sp = 0
    · rw [if_pos none] at booting
      exact booting.elim
    · rw [if_neg none] at booting
      exact booting.elim
  | kernel => cases next

end

theorem Boots.ready (boots : Boots s) (k : Kernel x) : Ready k s := by
  refine ⟨fun _ => ⟨boots.zero, fun i => ?_⟩, fun i cpu here => ?_⟩
  · rw [Hart.Outside, boots.place i]
    trivial
  · cases (boots.place i).symm.trans here

theorem ready_kept (provides : Provides k) :
    Keeps (Interleave (Act k)) fun s => Inv k s ∧ Ready k s := by
  rintro s t ⟨inv, ready⟩ stepped
  refine ⟨inv_kept provides inv stepped, ?_⟩
  rcases stepped with ⟨i, h, ⟨e, next⟩, moved⟩
  have own : t.party i = h := by rw [moved, Function.update_self]
  have other (j : Word x) (differ : j ≠ i) : t.party j = s.party j := by
    rw [moved, Function.update_of_ne differ]
  -- A hart that clears is hart 0.
  have main (done : Nat) (here : (s.party i).place = .clearing done) : i = 0 := by
    have placed := inv.placed i
    rw [Hart.Placed, here] at placed
    exact (inv.id i).symm.trans placed
  have before (booting : (t.party 0).Booting) : (s.party 0).Booting := by
    rcases eq_or_ne 0 i with rfl | differ
    · rw [own] at booting
      cases e with
      | onward => exact onward_booting next booting
      | cpuUp cpu =>
        rw [step, Option.ite_none_right_eq_some] at next
        obtain ⟨-, rfl⟩ := Prod.mk.inj (Option.some.inj next.2)
        exact booting.elim
    · rwa [other 0 differ] at booting
  refine ⟨fun booting => ?_, fun j cpu here => ?_⟩
  · obtain ⟨zero, outside⟩ := ready.quiet (before booting)
    cases e with
    | onward =>
      rcases onward_outside (outside i) zero next with ⟨zero', still⟩ | ⟨⟨done, clears⟩, enters, -⟩
      · refine ⟨zero', fun j => ?_⟩
        rcases eq_or_ne j i with rfl | differ
        · rwa [own]
        · rw [other j differ]
          exact outside j
      · obtain rfl := main done clears
        rw [own, Hart.Booting, enters] at booting
        exact booting.elim
    | cpuUp cpu =>
      rw [step, Option.ite_none_right_eq_some] at next
      have out := outside i
      rw [Hart.Outside, next.1.1] at out
      exact out.elim
  · cases e with
    | onward =>
      have source : (s.party j).place = .cpuUp cpu := by
        rcases eq_or_ne j i with rfl | differ
        · exact onward_cpuUp next (own ▸ here)
        · rwa [other j differ] at here
      rcases onward_entries next with same | ⟨done, clears⟩
      · rw [same]
        exact ready.left j cpu source
      · obtain rfl := main done clears
        have booting : (s.party 0).Booting := by
          rw [Hart.Booting, clears]
          trivial
        have out := (ready.quiet booting).2 j
        rw [Hart.Outside, source] at out
        exact out.elim
    | cpuUp cpu' =>
      rw [step, Option.ite_none_right_eq_some] at next
      rcases next with ⟨-, next⟩
      obtain ⟨written, rfl⟩ := Prod.mk.inj (Option.some.inj next)
      rw [← written]
      change Function.update s.shared.cpuUpStackPointer cpu' (k.top cpu') cpu = k.top cpu
      rcases eq_or_ne cpu cpu' with rfl | another
      · exact Function.update_self ..
      · rw [Function.update_of_ne another]
        rcases eq_or_ne j i with rfl | differ
        · rw [own] at here
          exact absurd (Place.cpuUp.inj here).symm another
        · rw [other j differ] at here
          exact ready.left j cpu here

/-! ## Coming up -/

/-- The steps of a hart that does not call anything -/
def Onward (k : Kernel x) (p q : Shared x × Hart x) : Prop := onward k p.1 p.2 = some q

/-- The processor comes online when this hart goes on by itself. -/
def ComesUp (k : Kernel x) (p : Shared x × Hart x) (cpu : Nat) : Prop :=
  ∃ q, Run (Onward k) p q ∧ q.1.online cpu = true

section

variable {p q : Shared x × Hart x} {cpu n : Nat}

theorem ComesUp.of_onward (next : Onward k p q) (comes : ComesUp k q cpu) : ComesUp k p cpu := by
  rcases comes with ⟨r, run, online⟩
  exact ⟨r, .head next run, online⟩

theorem onward_callin (here : p.2.place = .callin n) (early : n < 10) :
    ∃ q, Onward k p q ∧ q.2.place = .callin (n + 1) := by
  rcases p with ⟨s, id, _, sp, tp, stvec, sscratch, irqs, preemptCount, ups⟩
  obtain rfl : _ = Place.callin n := here
  match n with
  | 0 | 1 | 2 | 3 | 4 | 5 | 6 | 7 | 8 | 9 => exact ⟨_, rfl, rfl⟩
  | _ + 10 => exact absurd early (by omega)

/-- A hart in `smp_callin` makes its processor online. -/
theorem callin_comesUp (provides : Provides k) (entries : Entries k p.1) (placed : p.2.Placed k)
    (marked : Marked k p.1 p.2) (here : p.2.place = .callin n) (early : n ≤ 6) :
    ComesUp k p p.2.id.toNat := by
  obtain ⟨left, total⟩ : ∃ left, n + left = 6 := ⟨6 - n, by omega⟩
  induction left generalizing p n with
  | zero =>
    obtain ⟨q, next, there⟩ := onward_callin (k := k) here (by omega)
    have kept := onward_kept provides entries placed marked next
    refine ⟨q, .single next, ?_⟩
    have secondary : q.2.id ≠ 0 := by
      rw [Hart.Placed, here] at placed
      exact kept.id ▸ placed.1.secondary.1
    rw [← kept.id, kept.marked.online secondary, Hart.called, there]
    show 6 < n + 1
    omega
  | succ left ih =>
    obtain ⟨q, next, there⟩ := onward_callin (k := k) here (by omega)
    have kept := onward_kept provides entries placed marked next
    refine .of_onward next ?_
    rw [← kept.id]
    exact ih (kept.entries entries) kept.placed kept.marked there (by omega) (by omega)

/-- A hart that has its stack comes up. -/
theorem stack_comesUp (provides : Provides k) (entries : Entries k p.1) (marked : Marked k p.1 p.2)
    (placed : p.2.Placed k) (here : p.2.place = .loadTask) : ComesUp k p p.2.id.toNat := by
  have next : Onward k p (p.1, { p.2 with
      tp := (k.threadInfo (-BitVec.ofNat _ threadSize + p.2.sp)).task, place := .callin 0 }) := by
    rw [Onward, onward, here]
  have kept := onward_kept provides entries placed marked next
  exact .of_onward next
    (callin_comesUp provides (kept.entries entries) kept.placed kept.marked rfl (Nat.zero_le 6))

/-- A hart that looks for its stack, and finds it -/
theorem load_comesUp (provides : Provides k) (entries : Entries k p.1) (marked : Marked k p.1 p.2)
    (placed : p.2.Placed k) (here : p.2.place = .load)
    (left : p.1.cpuUpStackPointer p.2.id.toNat = k.top p.2.id.toNat) :
    ComesUp k p p.2.id.toNat := by
  have load : Onward k p
      (p.1, { p.2 with sp := p.1.cpuUpStackPointer p.2.id.toNat, place := .test }) := by
    rw [Onward, onward, here]
  have loaded := onward_kept provides entries placed marked load
  have some_stack : p.1.cpuUpStackPointer p.2.id.toNat ≠ 0 :=
    left ▸ provides.top_ne_zero loaded.placed.1.2
  have test : Onward k (p.1, { p.2 with sp := p.1.cpuUpStackPointer p.2.id.toNat, place := .test })
      (p.1, { p.2 with sp := p.1.cpuUpStackPointer p.2.id.toNat, place := .loadTask }) := by
    rw [Onward, onward, if_neg some_stack]
  have kept := onward_kept provides entries loaded.placed loaded.marked test
  exact .of_onward load (.of_onward test
    (stack_comesUp provides entries kept.marked kept.placed rfl))

end

/-- A hart that `__cpu_up` waits for -/
theorem Inv.comesUp (inv : Inv k s) (ready : Ready k s) (provides : Provides k) {i : Word x}
    {cpu : Nat} (here : (s.party i).place = .cpuUp cpu) {j : Word x} (number : j.toNat = cpu)
    (off : s.shared.online cpu ≠ true) : ComesUp k (s.shared, s.party j) cpu := by
  have left := ready.left i cpu here
  have small : cpu < k.nrCpus := by
    have placed := inv.placed i
    rw [Hart.Placed, here] at placed
    exact lt_of_mem_setupSmp placed.2
  have differ : j ≠ 0 := by
    rintro rfl
    exact off (number ▸ inv.boot)
  have placed := inv.placed j
  have marked := inv.marked j
  have early : ¬ 6 < (s.party j).called := by
    rw [← marked.online ((inv.id j).symm ▸ differ), inv.id j, number]
    exact off
  have own : (s.party j).id.toNat = cpu := by rw [inv.id j, number]
  have main : (s.party j).id ≠ 0 := (inv.id j).symm ▸ differ
  subst own
  rcases place : (s.party j).place with _ | done | _ | _ | _ | pc | _ | cpu | _
  case start =>
    have start : Onward k (s.shared, s.party j)
        (s.shared, { s.party j with place := .load }) := by
      rw [Onward, onward, place]
      exact (if_neg main).trans (if_neg (Nat.not_le_of_lt small))
    have kept := onward_kept provides inv.entries placed marked start
    exact .of_onward start
      (load_comesUp provides inv.entries kept.marked kept.placed rfl left)
  case load => exact load_comesUp provides inv.entries marked placed place left
  case test =>
    have test : Onward k (s.shared, s.party j)
        (s.shared,
          { s.party j with place := if (s.party j).sp = 0 then .load else .loadTask }) := by
      rw [Onward, onward, place]
    have kept := onward_kept provides inv.entries placed marked test
    refine .of_onward test ?_
    by_cases none : (s.party j).sp = 0
    · exact load_comesUp provides inv.entries kept.marked kept.placed (if_pos none) left
    · exact stack_comesUp provides inv.entries kept.marked kept.placed (if_neg none)
  case loadTask => exact stack_comesUp provides inv.entries marked placed place
  case callin =>
    rw [Hart.called, place] at early
    exact callin_comesUp provides inv.entries placed marked place (Nat.le_of_not_lt early)
  case kernel | cpuUp =>
    have late : (s.party j).called = 11 := by
      rw [Hart.called, place]
      exact if_neg main
    exact absurd (late ▸ (by decide : 6 < 11)) early
  case clearing =>
    rw [Hart.Placed, place] at placed
    exact absurd placed main
  case park =>
    rw [Hart.Placed, place] at placed
    exact absurd placed (Nat.not_le_of_lt small)

/-- The loop of `__cpu_up` ends. -/
theorem cpuUp_ends {i : Word x} {cpu : Nat} (here : (s.party i).place = .cpuUp cpu)
    (on : s.shared.online cpu = true) :
    ∃ t, Interleave (Act k) s t ∧ cpu ∈ (t.party i).ups ∧ ∀ j ≠ i, t.party j = s.party j := by
  let back : Hart x :=
    { s.party i with place := .kernel, ups := (s.party i).ups ++ [cpu] }
  refine ⟨⟨s.shared, Function.update s.party i back⟩, ⟨i, back, ⟨.onward, ?_⟩, rfl⟩, ?_,
    fun j differ => Function.update_of_ne differ ..⟩
  · rw [step, onward, here]
    exact congrArg (fun h => some (s.shared, h)) (if_pos on)
  · change cpu ∈ (Function.update s.party i back i).ups
    rw [Function.update_self]
    exact List.mem_append_right _ (List.mem_singleton_self cpu)

/-- The processor that calls `__cpu_up` is online itself. -/
theorem Inv.online_of_cpuUp (inv : Inv k s) {i : Word x} {cpu : Nat}
    (here : (s.party i).place = .cpuUp cpu) : s.shared.online i.toNat = true := by
  by_cases main : i = 0
  · rw [main]
    exact inv.boot
  · have online := (inv.marked i).online ((inv.id i).symm ▸ main)
    rw [inv.id i, Hart.called, here, inv.id i] at online
    exact online.mpr (by rw [if_neg main]; exact (by decide : 6 < 11))

/-- No call of `__cpu_up` waits in vain: in every state that is reached, it comes to its end when
the hart that it waits for and the one that it is called on go on, and no other hart has to. -/
theorem cpuUp_returns (provides : Provides k) (boots : Boots s)
    (run : Run (Interleave (Act k)) s t) {i : Word x} {cpu : Nat}
    (here : (t.party i).place = .cpuUp cpu) :
    ∃ u, Run (Interleave (Act k)) t u ∧ cpu ∈ (u.party i).ups ∧
      ∀ j, j ≠ i → j.toNat ≠ cpu → u.party j = t.party j := by
  obtain ⟨inv, ready⟩ := Run.keeps (ready_kept provides) ⟨boots.inv k, boots.ready k⟩ run
  by_cases on : t.shared.online cpu = true
  · obtain ⟨u, ends, up, others⟩ := cpuUp_ends (k := k) here on
    exact ⟨u, .single ends, up, fun j differ _ => others j differ⟩
  · have small : cpu < 2 ^ x.bits := by
      have placed := inv.placed i
      rw [Hart.Placed, here] at placed
      have few := provides.cpus
      have below := lt_of_mem_setupSmp placed.2
      have room : 32 < 2 ^ x.bits := by cases x <;> decide
      omega
    have number : (BitVec.ofNat x.bits cpu).toNat = cpu := by
      rw [BitVec.toNat_ofNat, Nat.mod_eq_of_lt small]
    obtain ⟨q, comes, online⟩ := inv.comesUp ready provides here number on
    have other : i ≠ BitVec.ofNat x.bits cpu := by
      rintro rfl
      exact on (number ▸ inv.online_of_cpuUp here)
    have alone : Run (Interleave (Act k)) t
        ⟨q.1, Function.update t.party (BitVec.ofNat x.bits cpu) q.2⟩ :=
      Interleave.alone (comes.lift (fun s => s) fun _ _ next => ⟨.onward, next⟩)
    have there : Function.update t.party (BitVec.ofNat x.bits cpu) q.2 i = t.party i :=
      Function.update_of_ne other ..
    obtain ⟨u, ends, up, others⟩ := cpuUp_ends (k := k)
      (s := ⟨q.1, Function.update t.party (BitVec.ofNat x.bits cpu) q.2⟩)
      ((congrArg Hart.place there).trans here) online
    refine ⟨u, alone.tail ends, up, fun j differ apart => (others j differ).trans ?_⟩
    exact Function.update_of_ne (fun same => apart ((congrArg BitVec.toNat same).trans number)) ..

end

/-! ## Two processors -/

/-- Two processors, with their idle tasks in neighbouring pages -/
def twoCpus : Kernel .rv64 where
  nrCpus := 2
  sbiNumHarts := 3
  initThreadUnion := 0x80000
  initTask := 0x70000
  handleException := 0x1000
  frame := 32
  tidle := fun cpu => BitVec.ofNat _ (0x100000 + 8192 * cpu)
  taskStackPage := fun task => task
  threadInfo := fun page => ⟨page, (page.toNat - 0x100000) / 8192⟩

theorem provides_twoCpus : Provides twoCpus where
  cpus := by decide
  frame := by decide
  small := by decide
  aligned := by decide +kernel
  fits := by decide +kernel
  task := fun _ _ => rfl
  cpu := by decide +kernel

/-- The harts at `_start` -/
def powerOn : System .rv64 where
  shared := ⟨fun _ => 0, 2, fun _ => false, fun _ => false, fun _ => false, fun cpu => cpu == 0⟩
  party := fun i => ⟨i, .start, 0, 0, 0, 0, false, 1, []⟩

theorem boots_powerOn : Boots powerOn :=
  ⟨fun _ => rfl, fun _ => rfl, fun _ => rfl, fun _ => rfl, fun _ => rfl, fun _ => beq_iff_eq⟩

/-- One hart takes a step. -/
def move (k : Kernel x) (s : System x) (e : Word x × Event) : Option (System x) :=
  (step k s.shared (s.party e.1) e.2).map fun r => ⟨r.1, Function.update s.party e.1 r.2⟩

theorem interleave_of_move {k : Kernel x} {s t : System x} {e : Word x × Event}
    (moved : move k s e = some t) : Interleave (Act k) s t := by
  rw [move, Option.map_eq_some_iff] at moved
  rcases moved with ⟨r, acts, result⟩
  cases result
  exact ⟨e.1, r.2, ⟨e.2, acts⟩, rfl⟩

/-- Hart 1 is at its load before hart 0 is in the kernel, hart 2 is parked, and hart 1 finds its
stack when hart 0 has called `__cpu_up`. -/
def brought : List (Word .rv64 × Event) :=
  [(1, .onward), (1, .onward), (2, .onward), (1, .onward), (0, .onward), (0, .onward), (0, .onward),
    (0, .onward), (1, .onward), (0, .cpuUp 1), (1, .onward), (0, .onward), (1, .onward),
    (1, .onward), (1, .onward)]

theorem run_of_moves {k : Kernel x} {s t : System x} {es : List (Word x × Event)}
    (moves : es.foldlM (move k) s = some t) : Run (Interleave (Act k)) s t :=
  (Run.of_foldlM moves).lift id fun _ _ ⟨_, _, moved⟩ => interleave_of_move moved

theorem brought_run : ∃ t : System .rv64, Run (Interleave (Act twoCpus)) powerOn t ∧
    (t.party 0).place = .cpuUp 1 := by
  have leads : (brought.foldlM (move twoCpus) powerOn).any
      fun t => (t.party 0).place = .cpuUp 1 := by
    decide +kernel
  obtain ⟨t, moves, found⟩ := (Option.any_eq_true _ _).mp leads
  exact ⟨t, run_of_moves moves, of_decide_eq_true found⟩

/-- Hart 1 comes into `smp_callin`, and goes on in it until it is online. -/
def onlined : List (Word .rv64 × Event) := brought ++ List.replicate 7 (1, .onward)

theorem bringup_safe_twoCpus : ∃ t : System .rv64, (t.party 1).place = .callin 7 ∧
    t.shared.online 1 = true ∧ Safe twoCpus t := by
  have leads : (onlined.foldlM (move twoCpus) powerOn).any
      fun t => (t.party 1).place = .callin 7 ∧ t.shared.online 1 = true := by
    decide +kernel
  obtain ⟨t, moves, found⟩ := (Option.any_eq_true _ _).mp leads
  obtain ⟨there, online⟩ := of_decide_eq_true found
  exact ⟨t, there, online, bringup_safe provides_twoCpus boots_powerOn (run_of_moves moves)⟩

theorem cpuUp_returns_twoCpus : ∃ t u : System .rv64, (t.party 0).place = .cpuUp 1 ∧
    Run (Interleave (Act twoCpus)) t u ∧ 1 ∈ (u.party 0).ups := by
  rcases brought_run with ⟨t, run, here⟩
  obtain ⟨u, further, up, -⟩ := cpuUp_returns provides_twoCpus boots_powerOn run here
  exact ⟨t, u, here, further, up⟩

end RiscvLinux.Smp.Bringup
