import Mathlib.Algebra.Order.BigOperators.Group.Finset
import RiscvLinux.Lib.Run

/-!
# Interleaved parties

Any number of parties share a state and have a local state each; a step of the system is a
step of one party. `Interleave.keeps` is the rule for an invariant that speaks about one
party at a time: the party that steps keeps its own, and the steps of one party do not break
that of another. `total_update` follows a sum over the parties through one step.
-/

namespace RiscvLinux.Lib

variable {ι σ α : Type*} [DecidableEq ι]

/-- The shared state and the local state of every party. -/
structure Parties (ι σ α : Type*) where
  shared : σ
  party : ι → α

/-- One party takes a step. -/
def Interleave (act : σ → α → σ → α → Prop) (s t : Parties ι σ α) : Prop :=
  ∃ i a, act s.shared (s.party i) t.shared a ∧ t.party = Function.update s.party i a

/-- What holds of every party, taken with the shared state. -/
def Everywhere (mine : σ → α → Prop) (s : Parties ι σ α) : Prop :=
  ∀ i, mine s.shared (s.party i)

/-- A local invariant is kept when the party that steps keeps its own and no step breaks that
of another party. -/
theorem Interleave.keeps {act : σ → α → σ → α → Prop} {mine : σ → α → Prop}
    (own : ∀ ⦃s a t b⦄, mine s a → act s a t b → mine t b)
    (others : ∀ ⦃s a t b c⦄, mine s a → mine s c → act s a t b → mine t c) :
    Keeps (Interleave act) (Everywhere (ι := ι) mine) := by
  intro s t everywhere given j
  rcases given with ⟨i, a, acts, moved⟩
  rw [moved]
  rcases eq_or_ne j i with rfl | differ
  · rw [Function.update_self]
    exact own (everywhere j) acts
  · rw [Function.update_of_ne differ]
    exact others (everywhere i) (everywhere j) acts

/-- A run of one party while the others do nothing -/
theorem Interleave.alone {act : σ → α → σ → α → Prop} {s : Parties ι σ α} {i : ι} {p : σ × α}
    (run : Run (fun p q => act p.1 p.2 q.1 q.2) (s.shared, s.party i) p) :
    Run (Interleave act) s ⟨p.1, Function.update s.party i p.2⟩ := by
  induction run with
  | refl => rw [Function.update_eq_self]
  | @tail p q _ stepped ih =>
    refine ih.tail ⟨i, q.2, ?_, (Function.update_idem ..).symm⟩
    change act p.1 (Function.update s.party i p.2 i) q.1 q.2
    rwa [Function.update_self]

variable [Fintype ι]

/-- A sum over the parties. -/
def total (count : α → Nat) (party : ι → α) : Nat :=
  ∑ i, count (party i)

/-- When one party changes, the sum changes by what that party counts for. -/
theorem total_update (count : α → Nat) (party : ι → α) (i : ι) (a : α) :
    total count (Function.update party i a) + count (party i) = total count party + count a := by
  have here := Finset.mem_univ i
  have rest : ∑ j ∈ Finset.univ.erase i, count (Function.update party i a j)
      = ∑ j ∈ Finset.univ.erase i, count (party j) := by
    refine Finset.sum_congr rfl fun j other => ?_
    rw [Function.update_of_ne (Finset.ne_of_mem_erase other)]
  have after := Finset.add_sum_erase Finset.univ (fun j => count (Function.update party i a j)) here
  have before := Finset.add_sum_erase Finset.univ (fun j => count (party j)) here
  rw [Function.update_self, rest] at after
  rw [total, total, ← after, ← before]
  omega

omit [DecidableEq ι] in
/-- One party counts for no more than all of them. -/
theorem le_total (count : α → Nat) (party : ι → α) (i : ι) : count (party i) ≤ total count party :=
  Finset.single_le_sum (f := fun j => count (party j)) (fun _ _ => Nat.zero_le _)
    (Finset.mem_univ i)

end RiscvLinux.Lib
