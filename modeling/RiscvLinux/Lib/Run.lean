import Mathlib.Logic.Relation

/-!
# Runs of a step relation

A run is the reflexive and transitive closure of a step relation. `Run.keeps` is
the rule every safety result here uses: what every step keeps holds after every
run. `Guarded` cuts a relation down to the steps that start in a state with a
given property, for results about the runs all of whose steps meet a condition.
-/

namespace RiscvLinux.Lib

variable {σ : Type*}

/-- Zero or more steps. -/
abbrev Run (step : σ → σ → Prop) : σ → σ → Prop :=
  Relation.ReflTransGen step

/-- Every step keeps the property. -/
def Keeps (step : σ → σ → Prop) (holds : σ → Prop) : Prop :=
  ∀ ⦃s t⦄, holds s → step s t → holds t

/-- What every step keeps, every run keeps. -/
theorem Run.keeps {step : σ → σ → Prop} {holds : σ → Prop} (kept : Keeps step holds) {s t : σ}
    (start : holds s) (run : Run step s t) : holds t := by
  induction run with
  | refl => exact start
  | tail _ next ih => exact kept ih next

/-- The steps that meet a condition. -/
def Guarded (step guard : σ → σ → Prop) : σ → σ → Prop :=
  fun s t => step s t ∧ guard s t

/-- A step of a step function, with an event that a condition allows in the state before it. -/
def Taken {ε : Type*} (step : σ → ε → Option σ) (allowed : σ → ε → Prop) (s t : σ) : Prop :=
  ∃ e, allowed s e ∧ step s e = some t

/-- Any step of a step function. -/
abbrev Any {ε : Type*} (step : σ → ε → Option σ) : σ → σ → Prop :=
  Taken step fun _ _ => True

/-- What a list of events leads to is the end of a run. -/
theorem Run.of_foldlM {ε : Type*} {step : σ → ε → Option σ} {es : List ε} {s t : σ}
    (leads : es.foldlM step s = some t) : Run (Any step) s t := by
  induction es generalizing s with
  | nil =>
    rw [List.foldlM_nil] at leads
    cases leads
    exact .refl
  | cons e es ih =>
    rw [List.foldlM_cons, Option.bind_eq_bind, Option.bind_eq_some_iff] at leads
    rcases leads with ⟨u, next, rest⟩
    exact .head ⟨e, trivial, next⟩ (ih rest)

/-- The steps of a list of events that are all allowed. -/
theorem Run.of_foldlM_allowed {ε : Type*} {step : σ → ε → Option σ} {allowed : σ → ε → Prop}
    [∀ s e, Decidable (allowed s e)] {es : List ε} {s t : σ}
    (leads : es.foldlM (fun s e => if allowed s e then step s e else none) s = some t) :
    Run (Taken step allowed) s t := by
  induction es generalizing s with
  | nil =>
    rw [List.foldlM_nil] at leads
    cases leads
    exact .refl
  | cons e es ih =>
    rw [List.foldlM_cons, Option.bind_eq_bind, Option.bind_eq_some_iff] at leads
    rcases leads with ⟨u, next, rest⟩
    split at next
    · next allows => exact .head ⟨e, allows, next⟩ (ih rest)
    · cases next

/-- Two relations that agree on the states of a kept property have the same runs from such a
state. -/
theorem Run.iff_of_agree {step step' : σ → σ → Prop} {holds : σ → Prop}
    (agree : ∀ ⦃s t⦄, holds s → (step s t ↔ step' s t)) (kept : Keeps step holds) {s t : σ}
    (start : holds s) : Run step s t ↔ Run step' s t := by
  constructor
  · intro run
    have both : Run step' s t ∧ holds t := by
      induction run with
      | refl => exact ⟨.refl, start⟩
      | tail _ next ih => exact ⟨ih.1.tail ((agree ih.2).mp next), kept ih.2 next⟩
    exact both.1
  · intro run
    have both : Run step s t ∧ holds t := by
      induction run with
      | refl => exact ⟨.refl, start⟩
      | tail _ next ih =>
        have next' := (agree ih.2).mpr next
        exact ⟨ih.1.tail next', kept ih.2 next'⟩
    exact both.1

/-- When a condition on the events is just what makes a step good, and keeps an invariant, the runs
of good steps are the runs of the steps under the condition. -/
theorem Run.guarded_iff {ε : Type*} {step : σ → ε → Option σ} {allowed : σ → ε → Prop}
    {good : σ → σ → Prop} {inv : σ → Prop}
    (exactly : ∀ ⦃s e t⦄, inv s → step s e = some t → (good s t ↔ allowed s e))
    (kept : Keeps (Taken step allowed) inv) {s t : σ} (start : inv s) :
    Run (Guarded (Any step) good) s t ↔ Run (Taken step allowed) s t := by
  refine Iff.symm (Run.iff_of_agree ?_ kept start)
  intro s t inv
  constructor
  · intro given
    rcases given with ⟨e, allows, next⟩
    exact ⟨⟨e, trivial, next⟩, (exactly inv next).mpr allows⟩
  · intro given
    rcases given with ⟨⟨e, -, next⟩, after⟩
    exact ⟨e, (exactly inv next).mp after, next⟩

/-- When a condition on the steps is just what keeps a property, every state that the steps under
the condition lead to has the property, and the runs all of whose states have it are the runs of
those steps. The invariant may say more than the property. -/
theorem Run.exact {ε : Type*} {step : σ → ε → Option σ} {allowed : σ → ε → Prop}
    {inv holds : σ → Prop} (implies : ∀ ⦃s⦄, inv s → holds s)
    (exactly : ∀ ⦃s e t⦄, inv s → step s e = some t → (holds t ↔ allowed s e))
    (kept : Keeps (Taken step allowed) inv) {s t : σ} (start : inv s) :
    (Run (Taken step allowed) s t → holds t)
      ∧ (Run (Guarded (Any step) fun _ t => holds t) s t ↔ Run (Taken step allowed) s t) :=
  ⟨fun run => implies (Run.keeps kept start run), Run.guarded_iff exactly kept start⟩

/-- The steps of a function that says what comes next, if anything does. -/
abbrev Steps (next : σ → Option σ) : σ → σ → Prop :=
  fun s t => next s = some t

/-- A run that has come to its end goes through every state that a run from its start comes to. -/
theorem Run.through {next : σ → Option σ} {s t u : σ} (run : Run (Steps next) s t)
    (whole : Run (Steps next) s u) (halted : next u = none) : Run (Steps next) t u := by
  have unique : Relator.RightUnique (Steps next) :=
    fun _ _ _ first second => Option.some.inj (first.symm.trans second)
  rcases Relation.ReflTransGen.total_of_right_unique unique run whole with on | back
  · exact on
  · rcases back.cases_head with rfl | ⟨v, stepped, _⟩
    · exact .refl
    · exact absurd (halted.symm.trans stepped) nofun

/-- Two runs that have come to their end have come to the same. -/
theorem Run.end_unique {next : σ → Option σ} {s t u : σ} (run : Run (Steps next) s t)
    (stopped : next t = none) (whole : Run (Steps next) s u) (halted : next u = none) : t = u := by
  rcases (run.through whole halted).cases_head with same | ⟨v, stepped, _⟩
  · exact same
  · exact absurd (stopped.symm.trans stepped) nofun

/-- From a state that a run has left for one that has come to its end, there is no way on and on. -/
theorem Run.acc {next : σ → Option σ} {s u : σ} (run : Run (Steps next) s u)
    (halted : next u = none) : Acc (fun b a => Steps next a b) s := by
  induction run using Relation.ReflTransGen.head_induction_on with
  | refl => exact .intro u fun t stepped => absurd (halted.symm.trans stepped) nofun
  | head stepped _ ih =>
    refine .intro _ fun t stepped' => ?_
    rwa [Option.some.inj (stepped'.symm.trans stepped)]

/-- What comes back again and again never comes to an end. -/
theorem Run.never_halts {next : σ → Option σ} {holds : σ → Prop}
    (again : ∀ s, holds s → ∃ t, next s = some t ∧ ∃ u, Run (Steps next) t u ∧ holds u) {s u : σ}
    (start : holds s) (run : Run (Steps next) s u) : next u ≠ none := by
  intro halted
  have reached := (run.acc halted).transGen
  induction reached with
  | intro s _ ih =>
    obtain ⟨t, stepped, v, further, back⟩ := again s start
    have later : Relation.TransGen (Steps next) s v := .head' stepped further
    exact ih v later.swap back (Run.through later.to_reflTransGen run halted)

end RiscvLinux.Lib
