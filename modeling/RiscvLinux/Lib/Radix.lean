import Mathlib.Logic.Function.Basic

/-!
# Tables of tables

A radix tree in memory: an entry is absent, is a leaf, or says where the table of the next level is.
A walk starts at an entry; the levels below are given by where the entry is in the table of each.

What a walk comes to depends on the entries on its way alone (`path_congr`, `walk_congr`), and walks
from two entries with the same contents go the same way from there (`walk_eq_of_same`).
-/

namespace RiscvLinux.Lib

variable {A E : Type*}

/-- What an entry says: that there is something, that there is nothing below it, and where the table
below it is -/
structure Radix (A E : Type*) where
  present : E → Bool
  leaf : E → Bool
  table : E → A

namespace Radix

variable (R : Radix A E) {m m' : A → E} {a b : A} {below : List (A → A)}

/-- The entries of a walk from an entry; each of the levels below has the place of the entry in a
table. -/
def path (m : A → E) (a : A) : List (A → A) → List A
  | [] => [a]
  | slot :: below =>
    a :: if R.present (m a) && !R.leaf (m a) then path m (slot (R.table (m a))) below else []

/-- The entry that a walk ends at: a leaf above the last level, or an entry of the last level -/
def walk (m : A → E) (a : A) : List (A → A) → Option A
  | [] => if R.present (m a) then some a else none
  | slot :: below =>
    if !R.present (m a) then none
    else if R.leaf (m a) then some a
    else walk m (slot (R.table (m a))) below

/-- No leaf is above the last level. -/
def Deep (m : A → E) (a : A) : List (A → A) → Prop
  | [] => True
  | slot :: below =>
    R.leaf (m a) = false ∧ (R.present (m a) = true → Deep m (slot (R.table (m a))) below)

variable {R}

theorem mem_path : a ∈ R.path m a below := by
  cases below <;> exact List.mem_cons_self

theorem walk_absent (absent : R.present (m a) = false) : R.walk m a below = none := by
  cases below <;> simp only [walk, absent, Bool.not_false, if_true, Bool.false_eq_true, if_false]

theorem path_inner {slot : A → A} (present : R.present (m a) = true)
    (inner : R.leaf (m a) = false) :
    R.path m a (slot :: below) = a :: R.path m (slot (R.table (m a))) below := by
  rw [path, present, inner]
  rfl

theorem walk_inner {slot : A → A} (present : R.present (m a) = true)
    (inner : R.leaf (m a) = false) :
    R.walk m a (slot :: below) = R.walk m (slot (R.table (m a))) below := by
  rw [walk, present, inner]
  rfl

@[simp] theorem isSome_walk_nil : (R.walk m a []).isSome = R.present (m a) := by
  rw [walk]
  split
  · next present => exact present.symm
  · next absent => exact (Bool.eq_false_iff.mpr absent).symm

/-- Above the last level, the entry has to be there and so has the rest of the walk. -/
theorem isSome_walk_cons {slot : A → A} (inner : R.leaf (m a) = false) :
    (R.walk m a (slot :: below)).isSome
      = (R.present (m a) && (R.walk m (slot (R.table (m a))) below).isSome) := by
  cases present : R.present (m a) with
  | false => rw [walk_absent present, Bool.false_and, Option.isSome_none]
  | true => rw [walk_inner present inner, Bool.true_and]

/-- A walk ends at an entry that is there. -/
theorem present_of_walk (ends : R.walk m a below = some b) : R.present (m b) = true := by
  induction below generalizing a with
  | nil =>
    rw [walk, Option.ite_none_right_eq_some, Option.some.injEq] at ends
    exact ends.2 ▸ ends.1
  | cons slot below ih =>
    rw [walk] at ends
    split at ends
    · cases ends
    · next present =>
      split at ends
      · cases ends
        rwa [Bool.not_eq_true', Bool.not_eq_false] at present
      · exact ih ends

/-- The path of a walk stays where its entries keep their contents. -/
theorem path_congr (same : ∀ b ∈ R.path m a below, m' b = m b) :
    R.path m' a below = R.path m a below := by
  induction below generalizing a with
  | nil => rfl
  | cons slot below ih =>
    have here := same a mem_path
    rw [path, path, here]
    by_cases inner : (R.present (m a) && !R.leaf (m a)) = true
    · rw [path, if_pos inner] at same
      rw [if_pos inner, if_pos inner, ih fun b member => same b (List.mem_cons_of_mem a member)]
    · rw [if_neg inner, if_neg inner]

/-- So does its end. -/
theorem walk_congr (same : ∀ b ∈ R.path m a below, m' b = m b) :
    R.walk m' a below = R.walk m a below := by
  induction below generalizing a with
  | nil => rw [walk, walk, same a mem_path]
  | cons slot below ih =>
    have here := same a mem_path
    cases present : R.present (m a) with
    | false => rw [walk_absent present, walk_absent (here ▸ present)]
    | true =>
      cases leaf : R.leaf (m a) with
      | true =>
        rw [walk, walk, here, present, leaf]
        rfl
      | false =>
        rw [path_inner present leaf] at same
        rw [walk_inner present leaf, walk_inner (here ▸ present) (here ▸ leaf), here]
        exact ih fun b member => same b (List.mem_cons_of_mem a member)

/-- From entries with the same contents, walks have the same contents on their way. -/
theorem map_path_eq_of_same (same : m a = m b) :
    (R.path m a below).map m = (R.path m b below).map m := by
  cases below with
  | nil => rw [path, path, List.map_singleton, List.map_singleton, same]
  | cons slot below => rw [path, path, List.map_cons, List.map_cons, same]

/-- From entries with the same contents, walks meet at the level below. -/
theorem walk_eq_of_same {slot : A → A} (same : m a = m b) (inner : R.leaf (m a) = false) :
    R.walk m a (slot :: below) = R.walk m b (slot :: below) := by
  rw [walk, walk, ← same, inner]
  rfl

end Radix

end RiscvLinux.Lib
