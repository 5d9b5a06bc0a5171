import RiscvLinux.Lib.Run
import Mathlib.Logic.Function.Basic

/-!
# Transmitting on the UART

`rv_uart_put_string` of `arch/riscv/drivers/uart.c`, run by any number of writers at once on one
transmit FIFO. A writer keeps in `hw_buffer_space` how many slots were free when it last read
`reg[7]`, less what it has written since; it does not see what the others have written.

`Delivered` is what the FIFO is to do, and `delivered_of_undisturbed` says along which schedules it
does: a writer must not write once the others have filled more slots than the device has made free.
-/

namespace RiscvLinux.Drivers.Uart

open Lib

variable {ι : Type*} [DecidableEq ι] {capacity : BitVec 32} {text : ι → List UInt8}

/-! ## The driver -/

/-- `rv_uart_put_string` between two accesses of the device: what is left of the characters, and
`hw_buffer_space`. -/
structure PutString where
  buf : List UInt8
  hwBufferSpace : Int
  deriving DecidableEq

/-- What happened since a writer last read `reg[7]`: how many characters the other writers have put
into the FIFO, and how many the device has taken from it. -/
structure Since where
  others : Nat
  drained : Nat
  deriving DecidableEq

/-- `struct riscv_uart`: the transmit FIFO and the writers. `sent` has every character that was put
into the FIFO, and `overruns` counts the writes to `reg[4]` that found it full. -/
structure RiscvUart (ι : Type*) where
  fifo : List (ι × UInt8)
  put : ι → PutString
  sent : List (ι × UInt8)
  overruns : Nat
  since : ι → Since

/-- `reg[7]`, the number of free slots. -/
def RiscvUart.reg7 (s : RiscvUart ι) (capacity : BitVec 32) : BitVec 32 :=
  BitVec.ofNat 32 (capacity.toNat - s.fifo.length)

/-- `reg[4] = c`: a character that finds the FIFO full is lost. -/
def RiscvUart.reg4 (s : RiscvUart ι) (capacity : BitVec 32) (i : ι) (c : UInt8) : RiscvUart ι :=
  if s.fifo.length < capacity.toNat then
    { s with
      fifo := s.fifo ++ [(i, c)]
      sent := s.sent ++ [(i, c)]
      since := fun j =>
        if j = i then s.since j else { s.since j with others := (s.since j).others + 1 } }
  else { s with overruns := s.overruns + 1 }

/-- A writer reads `reg[7]`, or writes its next character to `reg[4]`, or the device takes a
character from the FIFO. -/
inductive Event (ι : Type*)
  | poll (i : ι)
  | write (i : ι)
  | drain

/-- One step. -/
def step (capacity : BitVec 32) (s : RiscvUart ι) : Event ι → Option (RiscvUart ι)
  | .poll i =>
    -- `while (hw_buffer_space < 1) hw_buffer_space = reg[7];`
    if (s.put i).buf ≠ [] ∧ (s.put i).hwBufferSpace < 1 then
      some { s with
        put := Function.update s.put i { s.put i with hwBufferSpace := (s.reg7 capacity).toInt }
        since := Function.update s.since i ⟨0, 0⟩ }
    else none
  | .write i =>
    match (s.put i).buf with
    | [] => none
    | c :: buf =>
      if (s.put i).hwBufferSpace < 1 then none
      else some { s.reg4 capacity i c with
        put := Function.update s.put i ⟨buf, (s.put i).hwBufferSpace - 1⟩ }
  | .drain =>
    match s.fifo with
    | [] => none
    | _ :: fifo => some { s with
        fifo := fifo
        since := fun i => { s.since i with drained := (s.since i).drained + 1 } }

/-- The calls of `rv_uart_put_string`, each with its text, before their first access. -/
def called (text : ι → List UInt8) : RiscvUart ι :=
  ⟨[], fun i => ⟨text i, 0⟩, [], 0, fun _ => ⟨0, 0⟩⟩

/-! ## What the FIFO gets -/

/-- The characters of one writer. -/
def sentBy (i : ι) (sent : List (ι × UInt8)) : List UInt8 :=
  (sent.filter (·.1 = i)).map Prod.snd

/-- No write has found the FIFO full, and of every text that part is in the FIFO, or was, that its
writer has written: every character once and in order. -/
structure Delivered (text : ι → List UInt8) (s : RiscvUart ι) : Prop where
  overruns : s.overruns = 0
  sent : ∀ i, sentBy i s.sent ++ (s.put i).buf = text i

/-- The condition: since the writer read `reg[7]` the others have put no more characters into the
FIFO than the device has taken from it. -/
def Undisturbed (s : RiscvUart ι) : Event ι → Prop
  | .write i => (s.since i).others ≤ (s.since i).drained
  | _ => True

omit [DecidableEq ι] in
instance (s : RiscvUart ι) (e : Event ι) : Decidable (Undisturbed s e) := by
  cases e <;> (unfold Undisturbed; infer_instance)

/-- What every undisturbed step keeps: the free slots are those a writer counts on, less what others
have filled and more what the device has made free. -/
structure Counted (capacity : BitVec 32) (text : ι → List UInt8) (s : RiscvUart ι) : Prop where
  fits : s.fifo.length ≤ capacity.toNat
  free : ∀ i, 1 ≤ (s.put i).hwBufferSpace →
    (capacity.toNat : Int) - s.fifo.length + (s.since i).others =
      (s.put i).hwBufferSpace + (s.since i).drained
  delivered : Delivered text s

variable {s t : RiscvUart ι}

omit [DecidableEq ι] in
/-- A count of `reg[7]` that lets the writer write is the number of free slots. -/
theorem reg7_toInt (fits : s.fifo.length ≤ capacity.toNat)
    (some : 1 ≤ (s.reg7 capacity).toInt) :
    (s.reg7 capacity).toInt = (capacity.toNat : Int) - s.fifo.length := by
  have bound := capacity.isLt
  rw [RiscvUart.reg7, BitVec.toInt_eq_toNat_cond, BitVec.toNat_ofNat] at *
  split at some
  · rw [Nat.mod_eq_of_lt (by omega)]
    omega
  · omega

theorem poll_counted (counted : Counted capacity text s) {i : ι}
    (next : step capacity s (.poll i) = some t) : Counted capacity text t := by
  rw [step] at next
  split at next
  · cases next
    refine ⟨counted.fits, ?_, counted.delivered.overruns, ?_⟩
    · intro j some
      rcases eq_or_ne j i with rfl | other
      · simp only [Function.update_self] at some ⊢
        rw [reg7_toInt counted.fits some]
      · simp only [Function.update_of_ne other] at some ⊢
        exact counted.free j some
    · intro j
      rcases eq_or_ne j i with rfl | other
      · simpa only [Function.update_self] using counted.delivered.sent j
      · simpa only [Function.update_of_ne other] using counted.delivered.sent j
  · cases next

theorem drain_counted (counted : Counted capacity text s)
    (next : step capacity s .drain = some t) : Counted capacity text t := by
  rw [step] at next
  split at next
  · cases next
  · next fifo there =>
    cases next
    have fits := counted.fits
    rw [there, List.length_cons] at fits
    refine ⟨Nat.le_of_succ_le fits, fun i some => ?_, counted.delivered.overruns,
      counted.delivered.sent⟩
    have free := counted.free i some
    rw [there, List.length_cons] at free
    push_cast at free ⊢
    omega

theorem sentBy_append (i j : ι) (sent : List (ι × UInt8)) (c : UInt8) :
    sentBy j (sent ++ [(i, c)]) = sentBy j sent ++ if i = j then [c] else [] := by
  rw [sentBy, List.filter_append, List.map_append, ← sentBy]
  split
  · next same => simp [same]
  · next other => simp [other]

/-- What a write does to the counts, when it goes through. -/
theorem write_counted {i : ι} {c : UInt8} {buf : List UInt8} (counted : Counted capacity text s)
    (there : (s.put i).buf = c :: buf) (room : s.fifo.length < capacity.toNat) :
    Counted capacity text { s.reg4 capacity i c with
      put := Function.update s.put i ⟨buf, (s.put i).hwBufferSpace - 1⟩ } := by
  rw [RiscvUart.reg4, if_pos room]
  refine ⟨?_, fun j some => ?_, counted.delivered.overruns, fun j => ?_⟩
  · simp only [List.length_append, List.length_singleton]
    omega
  · simp only [List.length_append, List.length_singleton] at some ⊢
    rcases eq_or_ne j i with rfl | other
    · simp only [Function.update_self, if_true] at some ⊢
      have free := counted.free j (by omega)
      omega
    · simp only [Function.update_of_ne other, if_neg other] at some ⊢
      have free := counted.free j some
      omega
  · dsimp only
    rw [sentBy_append, ← counted.delivered.sent j]
    rcases eq_or_ne j i with rfl | other
    · rw [Function.update_self, if_pos rfl, there, List.append_assoc]
      rfl
    · rw [Function.update_of_ne other, if_neg other.symm, List.append_nil]

/-- What a writer counts on is there, as long as it is undisturbed. -/
theorem counted_kept :
    Keeps (Taken (step capacity) Undisturbed) (@Counted ι _ capacity text) := by
  intro s t counted taken
  rcases taken with ⟨e, allows, next⟩
  cases e with
  | poll i => exact poll_counted counted next
  | drain => exact drain_counted counted next
  | write i =>
    rw [step] at next
    split at next
    · cases next
    · next c buf there =>
      split at next
      · cases next
      · next some =>
        cases next
        have free := counted.free i (by omega)
        have undisturbed : (s.since i).others ≤ (s.since i).drained := allows
        exact write_counted counted there (by omega)

/-! ## Runs -/

theorem counted_called : Counted capacity text (called text) :=
  ⟨Nat.zero_le _, fun _ some => absurd some (by simp [called]), rfl, fun _ => rfl⟩

/-- Along every undisturbed schedule the FIFO is not overrun, and of every text what its writer has
written is put into it once and in order. -/
theorem delivered_of_undisturbed {s : RiscvUart ι}
    (run : Run (Taken (step capacity) Undisturbed) (called text) s) : Delivered text s :=
  (Run.keeps counted_kept counted_called run).delivered

/-- Two writers read that one slot is free, and the device makes it free again between their
writes. -/
def drained : List (Event Bool) := [.poll false, .poll true, .write false, .drain, .write true]

theorem delivered_of_undisturbed_drained :
    ∃ s, drained.foldlM (fun s e => if Undisturbed s e then step 1 s e else none)
        (called fun _ => [97]) = some s ∧ Delivered (fun _ => [97]) s := by
  have taken : (drained.foldlM (fun s e => if Undisturbed s e then step 1 s e else none)
      (called fun _ => [97])).isSome := rfl
  obtain ⟨s, leads⟩ := Option.isSome_iff_exists.mp taken
  exact ⟨s, leads, delivered_of_undisturbed (.of_foldlM_allowed leads)⟩

/-- Two writers read that one slot is free, and both write. -/
def raced : List (Event Bool) := [.poll false, .poll true, .write false, .write true]

/-- The second write finds the FIFO full. -/
theorem not_delivered_raced :
    ¬ ∀ (capacity : BitVec 32) (text : Bool → List UInt8) (s : RiscvUart Bool),
      Run (Any (step capacity)) (called text) s → Delivered text s := by
  intro always
  have overrun : (raced.foldlM (step 1) (called fun _ => [97])).any (fun s => s.overruns = 1) := by
    decide
  obtain ⟨s, leads, found⟩ := (Option.any_eq_true _ _).mp overrun
  have overruns := (always 1 _ s (.of_foldlM leads)).overruns
  rw [of_decide_eq_true found] at overruns
  cases overruns

end RiscvLinux.Drivers.Uart
