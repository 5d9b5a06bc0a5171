import Mathlib.Data.List.Induction
import RiscvLinux.Lib.Linearize

/-!
# Locks

An object that some of its operations take and others give back. Whether an operation takes it can
depend on its result, so that an operation may try and fail. When the operations of any number of
parties have a sequence that explains their results, and no party gives back what it does not have,
at most one party has the lock, and the value of the object says whether one does
(`Linearized.owned`).
-/

namespace RiscvLinux.Lib

variable {ι σ ω ρ : Type*}

/-- What an operation with its result is to a lock. One that breaks it is not for its users. -/
inductive Use
  | takes
  | gives
  | other
  | breaks
  deriving DecidableEq, Repr

/-- Whether a party has the lock after one operation more -/
def Use.after : Use → Bool → Bool
  | .takes, _ => true
  | .gives, _ => false
  | .other, had | .breaks, had => had

/-- Whether a party has the lock after its operations -/
def holds (use : ω × ρ → Use) (ops : List (ω × ρ)) : Bool :=
  ops.foldl (fun had e => (use e).after had) false

/-- A party gives back the lock only when it has it, and does not break it. -/
def Disciplined (use : ω × ρ → Use) (ops : List (ω × ρ)) : Prop :=
  ∀ before e, before ++ [e] <+: ops →
    use e ≠ .breaks ∧ (use e = .gives → holds use before = true)

/-- The operations that take the lock find it free and leave it locked, those that give it back
leave it free, and the others leave it as it was. -/
structure IsLock (apply : ω → σ → σ × ρ) (use : ω × ρ → Use) (locked : σ → Prop) : Prop where
  takes : ∀ op v, use (op, (apply op v).2) = .takes → ¬ locked v ∧ locked (apply op v).1
  gives : ∀ op v, use (op, (apply op v).2) = .gives → ¬ locked (apply op v).1
  other : ∀ op v, use (op, (apply op v).2) = .other → (locked (apply op v).1 ↔ locked v)

/-- At most one party has the lock, and one has it exactly when the object is locked. -/
structure Owned (locked : Prop) (has : ι → Bool) : Prop where
  alone : ∀ i j, has i = true → has j = true → i = j
  locked : locked ↔ ∃ i, has i = true

@[simp] theorem holds_snoc (use : ω × ρ → Use) (ops : List (ω × ρ)) (e : ω × ρ) :
    holds use (ops ++ [e]) = (use e).after (holds use ops) := by
  rw [holds, List.foldl_append]
  rfl

theorem Disciplined.of_start {use : ω × ρ → Use} {ops more : List (ω × ρ)}
    (disciplined : Disciplined use more) (part : ops <+: more) : Disciplined use ops :=
  fun before e first => disciplined before e (first.trans part)

theorem disciplined_nil (use : ω × ρ → Use) : Disciplined use [] :=
  fun _ _ first => absurd (List.prefix_nil.mp first) (List.concat_ne_nil _ _)

theorem disciplined_snoc (use : ω × ρ → Use) (ops : List (ω × ρ)) (e : ω × ρ) :
    Disciplined use (ops ++ [e]) ↔
      Disciplined use ops ∧ use e ≠ .breaks ∧ (use e = .gives → holds use ops = true) := by
  refine ⟨fun disciplined => ⟨disciplined.of_start (List.prefix_append ..), ?_⟩, ?_⟩
  · exact disciplined ops e List.prefix_rfl
  · rintro ⟨disciplined, last⟩ before e' first
    rcases List.prefix_concat_iff.mp first with same | earlier
    · obtain ⟨rfl, ends⟩ := List.append_inj' same rfl
      obtain rfl : e' = e := List.singleton_inj.mp ends
      exact last
    · exact disciplined before e' earlier

/-- The last operation of a legal sequence is applied to what the others lead to. -/
theorem Legal.of_snoc {apply : ω → σ → σ × ρ} {v v' : σ} {ops : List (ω × ρ)} {op : ω} {r : ρ}
    (legal : Legal apply v (ops ++ [(op, r)]) v') :
    ∃ u, Legal apply v ops u ∧ (apply op u).2 = r ∧ (apply op u).1 = v' := by
  induction ops generalizing v with
  | nil => exact ⟨v, rfl, legal.1, legal.2⟩
  | cons e ops ih =>
    rcases legal with ⟨result, rest⟩
    obtain ⟨u, before, last⟩ := ih rest
    exact ⟨u, ⟨result, before⟩, last⟩

variable [DecidableEq ι]

/-- One operation more of one party -/
theorem Owned.update {locked locked' : Prop} {has : ι → Bool} {i : ι} (owned : Owned locked has)
    {use : Use} (proper : use ≠ .breaks) (takes : use = .takes → ¬ locked ∧ locked')
    (gives : use = .gives → has i = true ∧ ¬ locked') (other : use = .other → (locked' ↔ locked)) :
    Owned locked' (Function.update has i (use.after (has i))) := by
  cases use with
  | takes =>
    obtain ⟨free, taken⟩ := takes rfl
    have none_has : ∀ j, has j ≠ true := fun j had => free (owned.locked.mpr ⟨j, had⟩)
    have only : ∀ j, Function.update has i true j = true → j = i := by
      intro j had
      by_contra differ
      rw [Function.update_of_ne differ] at had
      exact none_has j had
    exact ⟨fun j k first second => (only j first).trans (only k second).symm,
      iff_of_true taken ⟨i, Function.update_self ..⟩⟩
  | gives =>
    obtain ⟨had, free⟩ := gives rfl
    have nobody : ∀ j, Function.update has i false j ≠ true := by
      intro j still
      rcases eq_or_ne j i with rfl | differ
      · rw [Function.update_self] at still
        exact Bool.false_ne_true still
      · rw [Function.update_of_ne differ] at still
        exact differ (owned.alone j i still had)
    exact ⟨fun j _ first => absurd first (nobody j),
      iff_of_false free fun some_has => some_has.elim nobody⟩
  | other =>
    rw [Use.after, Function.update_eq_self]
    exact ⟨owned.alone, (other rfl).trans owned.locked⟩
  | breaks => exact absurd rfl proper

/-- A sequence of operations of parties that give back only what they have -/
theorem owned_of_legal {apply : ω → σ → σ × ρ} {use : ω × ρ → Use} {locked : σ → Prop}
    (lock : IsLock apply use locked) {v v' : σ} (free : ¬ locked v) {order : List (ι × ω × ρ)}
    (legal : Legal apply v (order.map Prod.snd) v')
    (disciplined : ∀ i, Disciplined use (ofParty i order)) :
    Owned (locked v') fun i => holds use (ofParty i order) := by
  induction order using List.reverseRecOn generalizing v' with
  | nil =>
    obtain rfl : v = v' := legal
    refine ⟨fun i _ first => absurd first Bool.false_ne_true, ?_⟩
    exact iff_of_false free fun some_has => some_has.elim fun _ => Bool.false_ne_true
  | append_singleton order e ih =>
    rcases e with ⟨i, op, r⟩
    rw [List.map_append] at legal
    obtain ⟨u, before, rfl, rfl⟩ := Legal.of_snoc legal
    have parts := ofParty_snoc order i (op, (apply op u).2)
    have earlier : ∀ j, ofParty j order <+: ofParty j (order ++ [(i, op, (apply op u).2)]) :=
      fun j => ofParty_append j order _ ▸ List.prefix_append ..
    have own : ofParty i (order ++ [(i, op, (apply op u).2)])
        = ofParty i order ++ [(op, (apply op u).2)] :=
      (congrFun parts i).trans (Function.update_self ..)
    have owned := ih before fun j => (disciplined j).of_start (earlier j)
    have after : (fun j => holds use (ofParty j (order ++ [(i, op, (apply op u).2)])))
        = Function.update (fun j => holds use (ofParty j order)) i
            ((use (op, (apply op u).2)).after (holds use (ofParty i order))) := by
      funext j
      rw [congrFun parts j]
      rcases eq_or_ne j i with rfl | differ
      · rw [Function.update_self, Function.update_self, holds_snoc]
      · rw [Function.update_of_ne differ, Function.update_of_ne differ]
    obtain ⟨proper, had⟩ := disciplined i _ _ ⟨[], (List.append_nil _).trans own.symm⟩
    rw [after]
    exact owned.update proper (lock.takes op u) (fun gives => ⟨had gives, lock.gives op u gives⟩)
      (lock.other op u)

/-- What is seen of the object, when a sequence of the operations explains it -/
theorem Linearized.owned {apply : ω → σ → σ × ρ} {use : ω × ρ → Use} {locked : σ → Prop}
    (lock : IsLock apply use locked) {v : σ} (free : ¬ locked v) {seen : View ι σ ω ρ}
    {order : List (ι × ω × ρ)} (linearized : Linearized apply v seen order)
    (disciplined : ∀ i, Disciplined use (seen.effects i)) :
    Owned (locked seen.value) fun i => holds use (seen.effects i) := by
  have owned := owned_of_legal lock free linearized.legal
    fun i => (linearized.party i).symm ▸ disciplined i
  have parts : (fun i => holds use (ofParty i order)) = fun i => holds use (seen.effects i) :=
    funext fun i => congrArg (holds use) (linearized.party i)
  exact parts ▸ owned

end RiscvLinux.Lib
