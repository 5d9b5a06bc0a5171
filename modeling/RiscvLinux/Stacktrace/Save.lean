import RiscvLinux.Stacktrace.Walk

/-!
# Saving a stack trace

`__save_trace`, `save_trace` and `save_stack_trace_tsk` of `arch/riscv/kernel/stacktrace.c`. The
callback counts `skip` down, stores one counter after the other, and stops the walk when the array
is full; the terminator is stored after the walk, if there is room for it.

A walk with a callback that does not write to the stack is a visit of a list of counters
(`walkStackframe_visit`), so that the rest is about the list.
-/

namespace RiscvLinux.Stacktrace

open Lib Trap

variable {x : XLen} {σ : Type}

/-! ## Visits -/

/-- The elements that a callback is called with until it stops, and its argument then -/
def visit (fn : Word x → σ → Bool × σ) : List (Word x) → σ → List (Word x) × σ
  | [], arg => ([], arg)
  | pc :: pcs, arg =>
    let (stop, arg) := fn pc arg
    if stop then ([pc], arg)
    else
      let rest := visit fn pcs arg
      (pc :: rest.1, rest.2)

theorem visit_stop {fn : Word x → σ → Bool × σ} {pc : Word x} {arg : σ}
    (stops : (fn pc arg).1 = true) (pcs : List (Word x)) :
    visit fn (pc :: pcs) arg = ([pc], (fn pc arg).2) :=
  if_pos stops

theorem visit_next {fn : Word x → σ → Bool × σ} {pc : Word x} {arg : σ}
    (goes : (fn pc arg).1 = false) (pcs : List (Word x)) :
    visit fn (pc :: pcs) arg
      = (pc :: (visit fn pcs (fn pc arg).2).1, (visit fn pcs (fn pc arg).2).2) :=
  if_neg (Bool.eq_false_iff.mp goes)

/-- A callback on memory that it leaves alone -/
def onMemory (kernelTextAddress : Word x → Bool) (m : Memory x.bits)
    (fn : Word x → σ → Bool × σ) : Callback x σ :=
  ⟨kernelTextAddress, fn, fun _ => m⟩

/-- A callback that never stops the walk -/
def goOn (_ : Word x) (arg : Unit) : Bool × Unit := (false, arg)

/-- Outside kernel text the callback is not called. -/
theorem turn_of_not_text {U : Callback x σ} {c : Cursor x σ}
    (user : ¬ U.kernelTextAddress c.pc = true) : turn U c = .last none c.arg :=
  if_neg user

theorem turn_of_text {text : Word x → Bool} (m : Memory x.bits) (fn : Word x → σ → Bool × σ)
    {c : Cursor x σ} (kernel : text c.pc = true) :
    turn (onMemory text m fn) c = if (fn c.pc c.arg).1 then .last (some c.pc) (fn c.pc c.arg).2
      else match unwind m c.fp c.sp with
        | none => .last (some c.pc) (fn c.pc c.arg).2
        | some (frame, fp, pc) => .next c.pc frame ⟨fp, c.fp, pc, (fn c.pc c.arg).2⟩ :=
  if_pos kernel

/-- A walk visits the counters that it comes to when it is not stopped. -/
theorem walkStackframe_visit (text : Word x → Bool) (m : Memory x.bits) (fn : Word x → σ → Bool × σ)
    {fuel : Nat} {c : Cursor x Unit} {w : Walked x Unit} (arg : σ)
    (walked : walkStackframe (onMemory text m goOn) fuel c = some w) :
    ∃ frames, walkStackframe (onMemory text m fn) fuel ⟨c.fp, c.sp, c.pc, arg⟩
      = some ⟨(visit fn w.calls arg).1, frames, (visit fn w.calls arg).2⟩ := by
  induction fuel generalizing c w arg with
  | zero => cases walked
  | succ fuel ih =>
    by_cases kernel : text c.pc = true
    · have quiet := turn_of_text m goOn (c := c) kernel
      have turned := turn_of_text m fn (c := ⟨c.fp, c.sp, c.pc, arg⟩) kernel
      simp only [goOn, Bool.false_eq_true, if_false] at quiet
      cases unwound : unwind m c.fp c.sp with
      | none =>
        rw [unwound] at quiet turned
        rw [walkStackframe_last quiet, Option.some.injEq] at walked
        subst walked
        have last : visit fn [c.pc] arg = ([c.pc], (fn c.pc arg).2) := by
          cases stops : (fn c.pc arg).1 with
          | true => exact visit_stop stops []
          | false => exact visit_next stops []
        rw [ite_self] at turned
        exact ⟨[], (walkStackframe_last turned fuel).trans (by rw [Option.toList_some, last])⟩
      | some next =>
        rcases next with ⟨frame, fp, pc⟩
        rw [unwound] at quiet turned
        rw [walkStackframe_next quiet, Option.map_eq_some_iff] at walked
        rcases walked with ⟨rest, walked, rfl⟩
        cases stops : (fn c.pc arg).1 with
        | true =>
          rw [if_pos stops] at turned
          rw [visit_stop stops]
          exact ⟨[], walkStackframe_last turned fuel⟩
        | false =>
          rw [if_neg (Bool.eq_false_iff.mp stops)] at turned
          obtain ⟨frames, goes⟩ := ih (fn c.pc arg).2 walked
          rw [visit_next stops]
          exact ⟨frame :: frames, by rw [walkStackframe_next turned, goes, Option.map_some]⟩
    · have quiet : turn (onMemory text m goOn) c = .last none c.arg := turn_of_not_text kernel
      have turned : turn (onMemory text m fn) ⟨c.fp, c.sp, c.pc, arg⟩ = .last none arg :=
        turn_of_not_text kernel
      rw [walkStackframe_last quiet, Option.some.injEq] at walked
      subst walked
      exact ⟨[], walkStackframe_last turned fuel⟩

/-! ## The trace -/

/-- `struct stack_trace`; `entries` is what has been stored there, each with its index, the first
first. -/
structure StackTrace (x : XLen) where
  nrEntries : UInt32
  maxEntries : UInt32
  entries : List (Word x × Nat)
  skip : Int

/-- `trace->entries[trace->nr_entries++] = v` -/
def StackTrace.store (trace : StackTrace x) (v : Word x) : StackTrace x :=
  { trace with
    entries := trace.entries ++ [(v, trace.nrEntries.toNat)]
    nrEntries := trace.nrEntries + 1 }

/-- `ULONG_MAX` -/
def ulongMax : Word x := BitVec.allOnes x.bits

/-- `__save_trace` -/
def saveTraceNosched (inSchedFunctions : Word x → Bool) (nosched : Bool) (pc : Word x)
    (trace : StackTrace x) : Bool × StackTrace x :=
  if nosched && inSchedFunctions pc then (false, trace)
  else if trace.skip > 0 then (false, { trace with skip := trace.skip - 1 })
  else
    let trace := trace.store pc
    (decide (trace.nrEntries ≥ trace.maxEntries), trace)

/-- `save_trace` -/
def saveTrace (inSchedFunctions : Word x → Bool) : Word x → StackTrace x → Bool × StackTrace x :=
  saveTraceNosched inSchedFunctions false

/-- `if (trace->nr_entries < trace->max_entries)` at the end of `save_stack_trace_tsk` -/
def terminate (trace : StackTrace x) : StackTrace x :=
  if trace.nrEntries < trace.maxEntries then trace.store ulongMax else trace

/-- `save_stack_trace_tsk`, in at most so many turns of the walk: the trace, and the counters that
`save_trace` was called with -/
def saveStackTraceTsk (text inSchedFunctions : Word x → Bool) (m : Memory x.bits) (tsk : Origin x)
    (fuel : Nat) (trace : StackTrace x) : Option (StackTrace x × List (Word x)) :=
  (walkStackframe (onMemory text m (saveTrace inSchedFunctions)) fuel (tsk.start trace)).map
    fun w => (terminate w.arg, w.calls)

/-- The counters that the walk comes to when it is not stopped -/
def counters (text : Word x → Bool) (m : Memory x.bits) (tsk : Origin x) (fuel : Nat) :
    Option (List (Word x)) :=
  (walkStackframe (onMemory text m goOn) fuel (tsk.start ())).map Walked.calls

/-- How many entries the trace has room for -/
def StackTrace.room (trace : StackTrace x) : Nat :=
  trace.maxEntries.toNat - trace.nrEntries.toNat

/-- What is to be stored of a sequence of counters: those after the skipped ones, as far as there is
room, and the terminator if there is still room -/
def StackTrace.expected (trace : StackTrace x) (pcs : List (Word x)) : List (Word x) :=
  let saved := (pcs.drop trace.skip.toNat).take trace.room
  saved ++ if saved.length < trace.room then [ulongMax] else []

/-- The trace has just what is to be stored, in its place and inside the array, and the walk was
stopped when there was no more room. -/
structure Saved (trace : StackTrace x) (pcs : List (Word x)) (r : StackTrace x × List (Word x)) :
    Prop where
  entries : r.1.entries = trace.entries ++ (trace.expected pcs).zipIdx trace.nrEntries.toNat
  nrEntries : r.1.nrEntries.toNat = trace.nrEntries.toNat + (trace.expected pcs).length
  inside : ∀ e ∈ (trace.expected pcs).zipIdx trace.nrEntries.toNat, e.2 < trace.maxEntries.toNat
  stopped : r.2 = pcs.take (trace.skip.toNat + trace.room)

/-! ## The callback -/

section

variable {inSched : Word x → Bool} {pc : Word x} {pcs : List (Word x)} {trace : StackTrace x}

variable (inSched pc) in
theorem saveTrace_skip (skips : 0 < trace.skip) :
    saveTrace inSched pc trace = (false, { trace with skip := trace.skip - 1 }) := by
  rw [saveTrace, saveTraceNosched, Bool.false_and, if_neg Bool.false_ne_true, if_pos skips]

variable (inSched pc) in
theorem saveTrace_store (skipped : trace.skip = 0) :
    saveTrace inSched pc trace
      = (decide (trace.maxEntries ≤ trace.nrEntries + 1), trace.store pc) := by
  rw [saveTrace, saveTraceNosched, Bool.false_and, if_neg Bool.false_ne_true, skipped,
    if_neg (by decide)]
  rfl

/-- With room for an entry the count does not wrap. -/
theorem toNat_store (room : 0 < trace.room) (v : Word x) :
    (trace.store v).nrEntries.toNat = trace.nrEntries.toNat + 1 ∧
      (trace.store v).room = trace.room - 1 := by
  have bound := trace.maxEntries.toNat_lt
  rw [StackTrace.room] at room
  have next : (trace.nrEntries + 1).toNat = trace.nrEntries.toNat + 1 := by
    rw [UInt32.toNat_add, UInt32.toNat_one, Nat.mod_eq_of_lt (by omega)]
  refine ⟨next, ?_⟩
  rw [StackTrace.room, StackTrace.room]
  simp only [StackTrace.store, next]
  omega

/-- The callback stops the walk with the entry that fills the array. -/
theorem saveTrace_stops (room : 0 < trace.room) :
    trace.maxEntries ≤ trace.nrEntries + 1 ↔ trace.room = 1 := by
  have next := (toNat_store room 0).1
  rw [UInt32.le_iff_toNat_le, show (trace.nrEntries + 1).toNat = _ from next]
  rw [StackTrace.room] at room ⊢
  omega

/-- A trace after a visit: the visited counters, and the entries that were stored -/
structure Visited (trace : StackTrace x) (pcs : List (Word x)) (r : List (Word x) × StackTrace x) :
    Prop where
  visited : r.1 = pcs.take (trace.skip.toNat + trace.room)
  entries : r.2.entries = trace.entries
    ++ ((pcs.drop trace.skip.toNat).take trace.room).zipIdx trace.nrEntries.toNat
  nrEntries : r.2.nrEntries.toNat
    = trace.nrEntries.toNat + ((pcs.drop trace.skip.toNat).take trace.room).length
  maxEntries : r.2.maxEntries = trace.maxEntries

variable (inSched pcs) in
/-- The visit of a list of counters, by induction on it: each is skipped, or stored with the last
room, or stored with room for another. -/
theorem visit_saveTrace (room : 0 < trace.room) (skip : 0 ≤ trace.skip) :
    Visited trace pcs (visit (saveTrace inSched) pcs trace) := by
  induction pcs generalizing trace with
  | nil => exact ⟨List.take_nil.symm, by simp [visit], by simp [visit], rfl⟩
  | cons pc pcs ih =>
    rcases Int.lt_or_eq_of_le skip with skips | skipped
    · have called := saveTrace_skip inSched pc skips
      have count : trace.skip.toNat = (trace.skip - 1).toNat + 1 := by omega
      obtain ⟨visited, entries, nrEntries, maxEntries⟩ :=
        @ih { trace with skip := trace.skip - 1 } room (Int.le_sub_one_of_lt skips)
      rw [visit_next (congrArg Prod.fst called), called]
      refine ⟨?_, ?_, ?_, maxEntries⟩
      · rw [count, Nat.succ_add, List.take_succ_cons, visited]
        rfl
      · rw [count, List.drop_succ_cons, entries]
        rfl
      · rw [count, List.drop_succ_cons, nrEntries]
        rfl
    · have called := saveTrace_store inSched pc skipped.symm
      obtain ⟨next, left⟩ := toNat_store room pc
      have none : trace.skip.toNat = 0 := by omega
      rcases Nat.lt_or_ge 1 trace.room with more | last
      · have goes : decide (trace.maxEntries ≤ trace.nrEntries + 1) = false :=
          decide_eq_false fun stops => by
            rw [saveTrace_stops room] at stops
            omega
        have one : trace.room = trace.room - 1 + 1 := by omega
        obtain ⟨visited, entries, nrEntries, maxEntries⟩ :=
          @ih (trace.store pc) (by omega) skip
        rw [left, next] at entries nrEntries
        rw [left] at visited
        rw [show (trace.store pc).skip = trace.skip from rfl, none] at visited entries nrEntries
        rw [visit_next ((congrArg Prod.fst called).trans goes), called]
        refine ⟨?_, ?_, ?_, maxEntries⟩
        · rw [none, Nat.zero_add, one, List.take_succ_cons, visited, Nat.zero_add]
        · rw [none, List.drop_zero, one, List.take_succ_cons, List.zipIdx_cons, entries,
            List.drop_zero, StackTrace.store, List.append_assoc, List.singleton_append]
        · rw [none, List.drop_zero, one, List.take_succ_cons, List.length_cons, nrEntries,
            List.drop_zero]
          omega
      · have full : trace.room = 1 := by omega
        have stops := decide_eq_true ((saveTrace_stops room).mpr full)
        rw [visit_stop ((congrArg Prod.fst called).trans stops), called]
        refine ⟨?_, ?_, ?_, rfl⟩
        · rw [none, full]
          rfl
        · rw [none, full]
          rfl
        · rw [none, full]
          exact next

/-- The terminator goes into the array exactly when the visit left room in it. -/
theorem Visited.saved {r : List (Word x) × StackTrace x} (room : 0 < trace.room)
    (visited : Visited trace pcs r) : Saved trace pcs (terminate r.2, r.1) := by
  rcases visited with ⟨calls, entries, nrEntries, maxEntries⟩
  have bound := trace.maxEntries.toNat_lt
  have limit : trace.nrEntries.toNat + trace.room = trace.maxEntries.toNat := by
    rw [StackTrace.room] at room ⊢
    omega
  have fits : ((pcs.drop trace.skip.toNat).take trace.room).length ≤ trace.room := by
    rw [List.length_take]
    exact Nat.min_le_left ..
  rcases Nat.lt_or_eq_of_le fits with some_room | full
  · have expected : trace.expected pcs
        = (pcs.drop trace.skip.toNat).take trace.room ++ [ulongMax] := by
      rw [StackTrace.expected, if_pos some_room]
    have terminated : terminate r.2 = r.2.store ulongMax := by
      refine if_pos (UInt32.lt_iff_toNat_lt.mpr ?_)
      rw [nrEntries, maxEntries]
      omega
    have next : (r.2.store ulongMax).nrEntries.toNat = r.2.nrEntries.toNat + 1 :=
      (toNat_store (by rw [StackTrace.room, nrEntries, maxEntries]; omega) ulongMax).1
    refine ⟨?_, ?_, ?_, calls⟩
    · rw [expected, terminated, StackTrace.store, entries, List.zipIdx_append, ← List.append_assoc,
        nrEntries]
      rfl
    · rw [expected, terminated, next, nrEntries, List.length_append]
      rfl
    · intro e member
      have last := List.snd_lt_add_of_mem_zipIdx member
      rw [expected, List.length_append, List.length_singleton] at last
      omega
  · have expected : trace.expected pcs = (pcs.drop trace.skip.toNat).take trace.room := by
      rw [StackTrace.expected, full, if_neg (Nat.lt_irrefl _), List.append_nil]
    have terminated : terminate r.2 = r.2 := by
      refine if_neg fun less => ?_
      rw [UInt32.lt_iff_toNat_lt, nrEntries, maxEntries] at less
      omega
    refine ⟨?_, ?_, ?_, calls⟩
    · rw [expected, terminated, entries]
    · rw [expected, terminated, nrEntries]
    · intro e member
      have last := List.snd_lt_add_of_mem_zipIdx member
      rw [expected, full] at last
      omega

/-- A saved trace has the counters after the skipped ones as far as there is room, the terminator if
there is still room, and nothing outside the array; and the walk stops when the array is full. -/
theorem saveStackTraceTsk_saved (text inSched : Word x → Bool) (m : Memory x.bits) (tsk : Origin x)
    (trace : StackTrace x) (room : trace.nrEntries < trace.maxEntries) (skip : 0 ≤ trace.skip) :
    ∃ pcs r least, (∀ fuel, least ≤ fuel → counters text m tsk fuel = some pcs) ∧
      (∀ fuel, least ≤ fuel → saveStackTraceTsk text inSched m tsk fuel trace = some r) ∧
      Saved trace pcs r := by
  have some_room : 0 < trace.room := by
    rw [StackTrace.room]
    exact Nat.sub_pos_of_lt (UInt32.lt_iff_toNat_lt.mp room)
  obtain ⟨w, least, walked⟩ := walkStackframe_ends_any (onMemory text m goOn) (tsk.start ())
  refine ⟨w.calls, _, least, fun fuel enough => ?_, fun fuel enough => ?_,
    (visit_saveTrace inSched w.calls some_room skip).saved some_room⟩
  · rw [counters, walked fuel enough, Option.map_some]
  · obtain ⟨frames, saves⟩ := walkStackframe_visit text m (saveTrace inSched) trace
      (walked fuel enough)
    have start : tsk.start trace
        = ⟨(tsk.start ()).fp, (tsk.start ()).sp, (tsk.start ()).pc, trace⟩ := by
      cases tsk <;> rfl
    rw [saveStackTraceTsk, start, saves, Option.map_some]

/-- An array of three entries, with one counter to skip -/
def threeEntries : StackTrace .rv64 :=
  ⟨0, 3, [], 1⟩

/-- A task that is blocked on a stack with two frames -/
def blocked : Origin .rv64 :=
  .blocked fun
    | .s0 => 0x4100
    | .sp => 0x4080
    | .ra => 0x80000000
    | _ => 0

/-- Its trace has two counters and the terminator, by the theorem. -/
theorem saveStackTraceTsk_saved_twoFrames : ∃ fuel r,
    saveStackTraceTsk (fun _ => true) (fun _ => false) twoFrames blocked fuel threeEntries
        = some r ∧
      r.1.entries = [(0x80000100, 0), (0x80000200, 1), (ulongMax, 2)] ∧
      r.2 = [0x80000000, 0x80000100, 0x80000200] := by
  obtain ⟨pcs, r, least, counted, saves, saved⟩ :=
    saveStackTraceTsk_saved (fun _ => true) (fun _ => false) twoFrames blocked threeEntries
      (by decide) (by decide)
  have ends : counters (fun _ => true) twoFrames blocked 3
      = some [0x80000000, 0x80000100, 0x80000200] := by
    decide +kernel
  obtain ⟨w, walked, calls⟩ := Option.map_eq_some_iff.mp ends
  have longer := counted (least + 3) (Nat.le_add_right ..)
  rw [counters, walkStackframe_mono walked (Nat.le_add_left ..), Option.map_some, calls,
    Option.some.injEq] at longer
  subst longer
  exact ⟨least, r, saves least (Nat.le_refl least), saved.entries, saved.stopped⟩

end

end RiscvLinux.Stacktrace
