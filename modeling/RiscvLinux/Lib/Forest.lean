import Mathlib.Logic.Function.Basic

/-!
# Forests of tables

Tables in memory, each with an entry for every index; the entry of an upper table says where the
table below it is. A walk starts at a slot of a table of the highest level and goes down by a list
of indices. Some slots of the highest level are the heads of the forest; no table below is reached
from two slots (`Forest`).

Then different walks end at different slots (`Forest.find_inj`), so that a write to the slot of one
walk is read by this walk alone (`Forest.read_putEntry`), and a table that is put in for an entry
that says nothing, or a table of such entries that is taken out, changes nothing that a walk reads
(`Forest.read_grow`, `Forest.read_prune`).
-/

namespace RiscvLinux.Lib

variable {P I E : Type*}

/-- What entries say: where the table below is, if there is one; and the entry that says nothing -/
structure TableEntries (P E : Type*) where
  child : E → Option P
  empty : E
  child_empty : child empty = none

namespace TableEntries

variable (T : TableEntries P E) {m m' : P → I → E}

/-- The slot that a walk ends at -/
def find (m : P → I → E) (p : P) (i : I) : List I → Option (P × I)
  | [] => some (p, i)
  | j :: rest => (T.child (m p i)).bind fun q => find m q j rest

/-- What there is to see of an entry at a level -/
def seen [DecidableEq E] (l : Nat) (e : E) : Option (Nat × E) :=
  if e = T.empty then none else some (l, e)

/-- What a walk reads: the entry at which it comes to its end, with the level of its table, unless
that entry says nothing. -/
def read [DecidableEq E] (m : P → I → E) (p : P) (i : I) : List I → Option (Nat × E)
  | [] => T.seen 0 (m p i)
  | j :: rest =>
    match T.child (m p i) with
    | none => T.seen (rest.length + 1) (m p i)
    | some q => read m q j rest

section

variable [DecidableEq E] {p q : P} {i : I}

@[simp] theorem seen_empty (l : Nat) : T.seen l T.empty = none := if_pos rfl

theorem read_of_child (child : T.child (m p i) = some q) (j : I) (rest : List I) :
    T.read m p i (j :: rest) = T.read m q j rest := by
  rw [read, child]

theorem read_of_none (none : T.child (m p i) = none) (j : I) (rest : List I) :
    T.read m p i (j :: rest) = T.seen (rest.length + 1) (m p i) := by
  rw [read, none]

/-- In an entry that says nothing there is nothing to read. -/
theorem read_of_empty (empty : m p i = T.empty) (rest : List I) : T.read m p i rest = none := by
  cases rest with
  | nil => rw [read, empty, seen_empty]
  | cons j rest => rw [T.read_of_none (empty ▸ T.child_empty), empty, seen_empty]

/-- Walks from entries with the same contents read the same. -/
theorem read_of_same (same : m p i = m q i) (rest : List I) :
    T.read m p i rest = T.read m q i rest := by
  cases rest with
  | nil => rw [read, read, same]
  | cons j rest => rw [read, read, same]

end

end TableEntries

/-- A write to a slot -/
def putEntry [DecidableEq P] [DecidableEq I] (m : P → I → E) (p : P) (i : I) (e : E) :
    P → I → E :=
  Function.update m p (Function.update (m p) i e)

section

variable [DecidableEq P] [DecidableEq I] {m : P → I → E} {p q : P} {i j : I} {e : E}

@[simp] theorem putEntry_self (m : P → I → E) (p : P) (i : I) (e : E) :
    putEntry m p i e p i = e := by
  rw [putEntry, Function.update_self, Function.update_self]

theorem putEntry_of_ne (differ : (q, j) ≠ (p, i)) : putEntry m p i e q j = m q j := by
  rw [putEntry]
  rcases eq_or_ne q p with rfl | other
  · rw [Function.update_self, Function.update_of_ne fun same => differ (congrArg _ same)]
  · rw [Function.update_of_ne other]

theorem putEntry_of_ne_table (differ : q ≠ p) : putEntry m p i e q = m q :=
  Function.update_of_ne differ ..

end

/-- The tables in use have levels, the highest of which is `n`. A slot of an upper table is counted
if the table is not of the highest level, or if it is a head; what is below the slots that are
counted is of the next level, and below one of them only. -/
structure Forest (T : TableEntries P E) (n : Nat) (m : P → I → E) (level : P → Option Nat)
    (head : P → I → Prop) : Prop where
  bound : ∀ p k, level p = some k → k ≤ n
  top : ∀ p i, head p i → level p = some n
  below : ∀ p i k q, level p = some (k + 1) → (k + 1 = n → head p i) →
    T.child (m p i) = some q → level q = some k
  single : ∀ p i k p' i' k' q, level p = some (k + 1) → (k + 1 = n → head p i) →
    level p' = some (k' + 1) → (k' + 1 = n → head p' i') →
    T.child (m p i) = some q → T.child (m p' i') = some q → p = p' ∧ i = i'

/-- A slot at which a walk of this length may start -/
structure Counted (n : Nat) (level : P → Option Nat) (head : P → I → Prop) (p : P) (i : I)
    (rest : List I) : Prop where
  level : level p = some rest.length
  counted : rest.length = n → head p i

namespace Forest

variable {T : TableEntries P E} {n : Nat} {m m' : P → I → E} {level level' : P → Option Nat}
  {head head' : P → I → Prop} {p q r : P} {i j : I} {rest : List I}

/-- One level down -/
theorem step (forest : Forest T n m level head) {rest : List I}
    (starts : Counted n level head p i (j :: rest)) (child : T.child (m p i) = some q) :
    Counted n level head q j rest := by
  have down := forest.below p i rest.length q starts.level starts.counted child
  have inside := forest.bound p _ starts.level
  refine ⟨down, fun top => ?_⟩
  rw [List.length_cons] at inside
  omega

theorem find_level (forest : Forest T n m level head) (starts : Counted n level head p i rest)
    (ends : T.find m p i rest = some (q, j)) : level q = some 0 := by
  induction rest generalizing p i with
  | nil =>
    cases ends
    exact starts.level
  | cons k rest ih =>
    obtain ⟨c, child, further⟩ := Option.bind_eq_some_iff.mp ends
    exact ih (forest.step starts child) further

/-- Different walks end at different slots. -/
theorem find_inj (forest : Forest T n m level head) {p' : P} {i' : I} {rest' : List I}
    (starts : Counted n level head p i rest) (starts' : Counted n level head p' i' rest')
    (same_length : rest.length = rest'.length) {s : P × I} (ends : T.find m p i rest = some s)
    (ends' : T.find m p' i' rest' = some s) : p = p' ∧ i = i' ∧ rest = rest' := by
  induction rest generalizing p i p' i' rest' with
  | nil =>
    obtain rfl : rest' = [] := List.length_eq_zero_iff.mp same_length.symm
    obtain ⟨rfl, rfl⟩ := Prod.mk.inj (Option.some.inj (ends.trans ends'.symm))
    exact ⟨rfl, rfl, rfl⟩
  | cons k rest ih =>
    obtain ⟨k', rest', rfl⟩ := List.exists_cons_of_length_eq_add_one same_length.symm
    obtain ⟨c, child, further⟩ := Option.bind_eq_some_iff.mp ends
    obtain ⟨c', child', further'⟩ := Option.bind_eq_some_iff.mp ends'
    obtain ⟨rfl, rfl, rfl⟩ := ih (forest.step starts child) (forest.step starts' child')
      (Nat.succ.inj same_length) further further'
    obtain ⟨rfl, rfl⟩ := forest.single p i _ p' i' _ c starts.level starts.counted starts'.level
      starts'.counted child child'
    exact ⟨rfl, rfl, rfl⟩

/-! ## What is looked at -/

/-- The forest is that of the counted slots of its upper tables. -/
theorem congr (forest : Forest T n m level head)
    (same : ∀ p i k, level p = some (k + 1) → (k + 1 = n → head p i) → m' p i = m p i) :
    Forest T n m' level head := by
  refine ⟨forest.bound, forest.top, fun p i k q up counted child => ?_,
    fun p i k p' i' k' q up counted up' counted' child child' => ?_⟩
  · rw [same p i k up counted] at child
    exact forest.below p i k q up counted child
  · rw [same p i k up counted] at child
    rw [same p' i' k' up' counted'] at child'
    exact forest.single p i k p' i' k' q up counted up' counted' child child'

/-- What is not in use, or does not count, is not read. -/
theorem read_congr [DecidableEq E] (forest : Forest T n m level head)
    (starts : Counted n level head p i rest)
    (same : ∀ p i k, level p = some (k + 1) → (k + 1 = n → head p i) → m' p i = m p i)
    (lowest : ∀ q j, level q = some 0 → m' q j = m q j) :
    T.read m' p i rest = T.read m p i rest := by
  induction rest generalizing p i with
  | nil => rw [TableEntries.read, TableEntries.read, lowest p i starts.level]
  | cons j rest ih =>
    have here := same p i _ starts.level starts.counted
    cases child : T.child (m p i) with
    | none => rw [T.read_of_none child, T.read_of_none (here ▸ child), here]
    | some q =>
      rw [T.read_of_child child, T.read_of_child ((congrArg T.child here).trans child)]
      exact ih (forest.step starts child)

/-! ## Heads that come and go -/

theorem read_plant [DecidableEq E] (forest : Forest T n m level head) (fresh : level r = none)
    (others : ∀ p, p ≠ r → m' p = m p) (starts : Counted n level head p i rest) :
    T.read m' p i rest = T.read m p i rest := by
  have elsewhere (q : P) (k : Nat) (used : level q = some k) : m' q = m q := by
    refine others q ?_
    rintro rfl
    cases fresh.symm.trans used
  exact forest.read_congr starts (fun p i k up _ => congrFun (elsewhere p (k + 1) up) i)
    fun q j low => congrFun (elsewhere q 0 low) j

variable [DecidableEq P]

/-- A table of the highest level, with new heads that have nothing below them -/
theorem plant (forest : Forest T n m level head) (fresh : level r = none) {new : I → Prop}
    (others : ∀ p, p ≠ r → m' p = m p) (empty : ∀ i, new i → m' r i = T.empty) :
    Forest T n m' (Function.update level r (some n)) fun p i => head p i ∨ p = r ∧ new i := by
  have old (a : P) (b : I) (l : Nat) (c : P)
      (above : Function.update level r (some n) a = some (l + 1))
      (first : l + 1 = n → head a b ∨ a = r ∧ new b) (child : T.child (m' a b) = some c) :
      level a = some (l + 1) ∧ (l + 1 = n → head a b) ∧ T.child (m a b) = some c := by
    rcases eq_or_ne a r with rfl | other
    · rw [Function.update_self] at above
      have top : l + 1 = n := (Option.some.inj above).symm
      rcases first top with before | ⟨-, added⟩
      · cases fresh.symm.trans (forest.top a b before)
      · rw [empty b added, T.child_empty] at child
        cases child
    · rw [Function.update_of_ne other] at above
      rw [others a other] at child
      exact ⟨above, fun top => (first top).resolve_right fun both => other both.1, child⟩
  refine ⟨fun a l above => ?_, fun a b first => ?_, fun a b l c above first child => ?_,
    fun a b l a' b' l' c above first above' first' child child' => ?_⟩
  · rcases eq_or_ne a r with rfl | other
    · rw [Function.update_self] at above
      exact Nat.le_of_eq (Option.some.inj above).symm
    · rw [Function.update_of_ne other] at above
      exact forest.bound a l above
  · rcases first with before | ⟨rfl, -⟩
    · have top := forest.top a b before
      have other : a ≠ r := by
        rintro rfl
        cases fresh.symm.trans top
      rw [Function.update_of_ne other]
      exact top
    · exact Function.update_self ..
  · obtain ⟨before, counted, child⟩ := old a b l c above first child
    have down := forest.below a b l c before counted child
    have other : c ≠ r := by
      rintro rfl
      cases fresh.symm.trans down
    rw [Function.update_of_ne other]
    exact down
  · obtain ⟨before, counted, child⟩ := old a b l c above first child
    obtain ⟨before', counted', child'⟩ := old a' b' l' c above' first' child'
    exact forest.single a b l a' b' l' c before counted before' counted' child child'

/-- A table of the highest level is taken out with its heads. -/
theorem fell (forest : Forest T n m level head) (top : level r = some n) :
    Forest T n m (Function.update level r none) fun p i => head p i ∧ p ≠ r := by
  have old (a : P) (l : Nat) (above : Function.update level r none a = some l) :
      a ≠ r ∧ level a = some l := by
    have other : a ≠ r := by
      rintro rfl
      rw [Function.update_self] at above
      cases above
    rw [Function.update_of_ne other] at above
    exact ⟨other, above⟩
  refine ⟨fun a l above => forest.bound a l (old a l above).2, fun a b first => ?_,
    fun a b l c above first child => ?_, fun a b l a' b' l' c above first above' first' => ?_⟩
  · rw [Function.update_of_ne first.2]
    exact forest.top a b first.1
  · obtain ⟨-, before⟩ := old a (l + 1) above
    have down := forest.below a b l c before (fun high => (first high).1) child
    have other : c ≠ r := by
      rintro rfl
      have inside := forest.bound a _ before
      have same := Option.some.inj (top.symm.trans down)
      omega
    rw [Function.update_of_ne other]
    exact down
  · exact forest.single a b l a' b' l' c (old a _ above).2 (fun high => (first high).1)
      (old a' _ above').2 fun high => (first' high).1

/-! ## Writes -/

variable [DecidableEq I] [DecidableEq E]

omit [DecidableEq E] in
/-- A write to a slot that does not count -/
theorem putEntry_uncounted {e : E} (forest : Forest T n m level head)
    (uncounted : ∀ k, level q = some (k + 1) → ¬ (k + 1 = n → head q j)) :
    Forest T n (putEntry m q j e) level head := by
  refine forest.congr fun p i k up counted => putEntry_of_ne fun same => ?_
  obtain ⟨rfl, rfl⟩ := Prod.mk.inj same
  exact uncounted k up counted

/-- The slot of a walk is not on the way of another. -/
theorem read_putEntry_of_ne {e : E} (forest : Forest T n m level head) (lowest : level q = some 0)
    (starts : Counted n level head p i rest) (ends : T.find m p i rest ≠ some (q, j)) :
    T.read (putEntry m q j e) p i rest = T.read m p i rest := by
  induction rest generalizing p i with
  | nil =>
    have here : putEntry m q j e p i = m p i := putEntry_of_ne fun same => ends (congrArg some same)
    rw [TableEntries.read, TableEntries.read, here]
  | cons j' rest ih =>
    have here : putEntry m q j e p i = m p i := by
      refine putEntry_of_ne fun same => ?_
      obtain ⟨rfl, -⟩ := Prod.mk.inj same
      cases lowest.symm.trans starts.level
    cases child : T.child (m p i) with
    | none => rw [T.read_of_none child, T.read_of_none (here ▸ child), here]
    | some c =>
      rw [T.read_of_child child, T.read_of_child ((congrArg T.child here).trans child)]
      refine ih (forest.step starts child) fun further => ends ?_
      rwa [TableEntries.find, child]

theorem read_putEntry_self {e : E} (forest : Forest T n m level head)
    (starts : Counted n level head p i rest) (ends : T.find m p i rest = some (q, j)) :
    T.read (putEntry m q j e) p i rest = T.seen 0 e := by
  have lowest : level q = some 0 := forest.find_level starts ends
  induction rest generalizing p i with
  | nil =>
    cases ends
    rw [TableEntries.read, putEntry_self]
  | cons j' rest ih =>
    have here : putEntry m q j e p i = m p i := by
      refine putEntry_of_ne fun same => ?_
      obtain ⟨rfl, -⟩ := Prod.mk.inj same
      cases lowest.symm.trans starts.level
    obtain ⟨c, child, further⟩ := Option.bind_eq_some_iff.mp ends
    rw [T.read_of_child ((congrArg T.child here).trans child)]
    exact ih (forest.step starts child) further

/-- What is written to the slot of a walk is read by this walk, and by no other. -/
theorem read_putEntry (forest : Forest T n m level head) {p' : P} {i' : I} {rest' : List I} {e : E}
    (starts : Counted n level head p i rest) (ends : T.find m p i rest = some (q, j))
    (starts' : Counted n level head p' i' rest') (same_length : rest.length = rest'.length) :
    T.read (putEntry m q j e) p' i' rest'
      = if p' = p ∧ i' = i ∧ rest' = rest then T.seen 0 e else T.read m p' i' rest' := by
  split
  · next same =>
    rcases same with ⟨rfl, rfl, rfl⟩
    exact forest.read_putEntry_self starts ends
  · next other =>
    refine forest.read_putEntry_of_ne (forest.find_level starts ends) starts' fun ends' => other ?_
    obtain ⟨rfl, rfl, rfl⟩ := forest.find_inj starts starts' same_length ends ends'
    exact ⟨rfl, rfl, rfl⟩

/-! ## Tables for entries -/

section

variable {k : Nat} {e : E}

omit [DecidableEq E] in
/-- A table for the entry of a slot that has none below it -/
theorem grow (forest : Forest T n m level head) (up : level p = some (k + 1))
    (counted : k + 1 = n → head p i) (fresh : level q = none) (clear : ∀ j, m q j = T.empty)
    (child : T.child e = some q) :
    Forest T n (putEntry m p i e) (Function.update level q (some k)) head := by
  have apart : q ≠ p := by
    rintro rfl
    cases fresh.symm.trans up
  -- A slot that counts is one of before, and the table below it is not the new one.
  have old (a : P) (b : I) (l : Nat) (c : P)
      (above : Function.update level q (some k) a = some (l + 1))
      (child' : T.child (putEntry m p i e a b) = some c) :
      level a = some (l + 1) ∧ ((a, b) = (p, i) ∧ c = q ∨
        (a, b) ≠ (p, i) ∧ T.child (m a b) = some c) := by
    have other : a ≠ q := by
      rintro rfl
      rw [putEntry_of_ne_table apart, clear, T.child_empty] at child'
      cases child'
    rw [Function.update_of_ne other] at above
    refine ⟨above, ?_⟩
    by_cases here : (a, b) = (p, i)
    · obtain ⟨rfl, rfl⟩ := Prod.mk.inj here
      rw [putEntry_self] at child'
      exact .inl ⟨rfl, Option.some.inj (child'.symm.trans child)⟩
    · rw [putEntry_of_ne here] at child'
      exact .inr ⟨here, child'⟩
  refine ⟨fun a l above => ?_, fun a b first => ?_, fun a b l c above first child' => ?_,
    fun a b l a' b' l' c above first above' first' child' child'' => ?_⟩
  · rcases eq_or_ne a q with rfl | other
    · rw [Function.update_self] at above
      cases above
      have inside := forest.bound p _ up
      omega
    · rw [Function.update_of_ne other] at above
      exact forest.bound a l above
  · have top := forest.top a b first
    have other : a ≠ q := by
      rintro rfl
      cases fresh.symm.trans top
    rw [Function.update_of_ne other]
    exact top
  · obtain ⟨before, ⟨here, rfl⟩ | ⟨-, child'⟩⟩ := old a b l c above child'
    · obtain ⟨rfl, rfl⟩ := Prod.mk.inj here
      rw [Function.update_self]
      exact congrArg some (Nat.succ.inj (Option.some.inj (up.symm.trans before)))
    · have down := forest.below a b l c before first child'
      have other : c ≠ q := by
        rintro rfl
        cases fresh.symm.trans down
      rw [Function.update_of_ne other]
      exact down
  · obtain ⟨before, place⟩ := old a b l c above child'
    obtain ⟨before', place'⟩ := old a' b' l' c above' child''
    rcases place with ⟨here, rfl⟩ | ⟨-, child'⟩ <;>
      rcases place' with ⟨here', same⟩ | ⟨-, child''⟩
    · exact Prod.mk.inj (here.trans here'.symm)
    · cases fresh.symm.trans (forest.below a' b' l' c before' first' child'')
    · cases (same ▸ fresh).symm.trans (forest.below a b l c before first child')
    · exact forest.single a b l a' b' l' c before first before' first' child' child''

theorem read_grow (forest : Forest T n m level head) (up : level p = some (k + 1))
    (empty : m p i = T.empty) (fresh : level q = none) (clear : ∀ j, m q j = T.empty)
    (child : T.child e = some q) {p' : P} {i' : I} (starts : Counted n level head p' i' rest) :
    T.read (putEntry m p i e) p' i' rest = T.read m p' i' rest := by
  have apart : q ≠ p := by
    rintro rfl
    cases fresh.symm.trans up
  induction rest generalizing p' i' with
  | nil =>
    have elsewhere : putEntry m p i e p' i' = m p' i' := by
      refine putEntry_of_ne fun same => ?_
      obtain ⟨rfl, -⟩ := Prod.mk.inj same
      cases starts.level.symm.trans up
    rw [TableEntries.read, TableEntries.read, elsewhere]
  | cons j rest ih =>
    by_cases here : (p', i') = (p, i)
    · obtain ⟨rfl, rfl⟩ := Prod.mk.inj here
      rw [T.read_of_empty empty,
        T.read_of_child ((congrArg T.child (putEntry_self ..)).trans child)]
      exact T.read_of_empty ((congrFun (putEntry_of_ne_table apart) j).trans (clear j)) rest
    · have elsewhere : putEntry m p i e p' i' = m p' i' := putEntry_of_ne here
      cases child' : T.child (m p' i') with
      | none => rw [T.read_of_none child', T.read_of_none (elsewhere ▸ child'), elsewhere]
      | some c =>
        rw [T.read_of_child child', T.read_of_child ((congrArg T.child elsewhere).trans child')]
        exact ih (forest.step starts child')

omit [DecidableEq E] in
/-- A table of empty entries is taken out. -/
theorem prune (forest : Forest T n m level head) (up : level p = some (k + 1))
    (counted : k + 1 = n → head p i) (child : T.child (m p i) = some q) :
    Forest T n (putEntry m p i T.empty) (Function.update level q none) head := by
  have old (a : P) (b : I) (l : Nat) (c : P) (above : Function.update level q none a = some (l + 1))
      (child' : T.child (putEntry m p i T.empty a b) = some c) :
      level a = some (l + 1) ∧ (a, b) ≠ (p, i) ∧ T.child (m a b) = some c := by
    have other : a ≠ q := by
      rintro rfl
      rw [Function.update_self] at above
      cases above
    rw [Function.update_of_ne other] at above
    have elsewhere : (a, b) ≠ (p, i) := by
      intro here
      obtain ⟨rfl, rfl⟩ := Prod.mk.inj here
      rw [putEntry_self, T.child_empty] at child'
      cases child'
    rw [putEntry_of_ne elsewhere] at child'
    exact ⟨above, elsewhere, child'⟩
  have lower := forest.below p i k q up counted child
  refine ⟨fun a l above => ?_, fun a b first => ?_, fun a b l c above first child' => ?_,
    fun a b l a' b' l' c above first above' first' child' child'' => ?_⟩
  · rcases eq_or_ne a q with rfl | other
    · rw [Function.update_self] at above
      cases above
    · rw [Function.update_of_ne other] at above
      exact forest.bound a l above
  · have top := forest.top a b first
    have other : a ≠ q := by
      rintro rfl
      have inside := forest.bound p _ up
      have same := Option.some.inj (top.symm.trans lower)
      omega
    rw [Function.update_of_ne other]
    exact top
  · obtain ⟨before, elsewhere, child'⟩ := old a b l c above child'
    have other : c ≠ q := by
      rintro rfl
      obtain ⟨rfl, rfl⟩ := forest.single a b l p i k c before first up counted child' child
      exact elsewhere rfl
    rw [Function.update_of_ne other]
    exact forest.below a b l c before first child'
  · obtain ⟨before, -, child'⟩ := old a b l c above child'
    obtain ⟨before', -, child''⟩ := old a' b' l' c above' child''
    exact forest.single a b l a' b' l' c before first before' first' child' child''

theorem read_prune (forest : Forest T n m level head) (up : level p = some (k + 1))
    (counted : k + 1 = n → head p i) (child : T.child (m p i) = some q)
    (clear : ∀ j, m q j = T.empty) {p' : P} {i' : I} (starts : Counted n level head p' i' rest)
    (other : p' ≠ q) :
    T.read (putEntry m p i T.empty) p' i' rest = T.read m p' i' rest := by
  induction rest generalizing p' i' with
  | nil =>
    have elsewhere : putEntry m p i T.empty p' i' = m p' i' := by
      refine putEntry_of_ne fun same => ?_
      obtain ⟨rfl, -⟩ := Prod.mk.inj same
      cases starts.level.symm.trans up
    rw [TableEntries.read, TableEntries.read, elsewhere]
  | cons j rest ih =>
    by_cases here : (p', i') = (p, i)
    · obtain ⟨rfl, rfl⟩ := Prod.mk.inj here
      rw [T.read_of_child child, T.read_of_empty (clear j), T.read_of_empty (putEntry_self ..)]
    · have elsewhere : putEntry m p i T.empty p' i' = m p' i' := putEntry_of_ne here
      cases child' : T.child (m p' i') with
      | none => rw [T.read_of_none child', T.read_of_none (elsewhere ▸ child'), elsewhere]
      | some c =>
        rw [T.read_of_child child', T.read_of_child ((congrArg T.child elsewhere).trans child')]
        refine ih (forest.step starts child') ?_
        rintro rfl
        obtain ⟨rfl, rfl⟩ := forest.single p' i' _ p i k c starts.level starts.counted up
          counted child' child
        exact here rfl

end

end Forest

end RiscvLinux.Lib
