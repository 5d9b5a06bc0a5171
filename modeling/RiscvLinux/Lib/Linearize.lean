import Mathlib.Logic.Function.Basic
import RiscvLinux.Lib.Interleave

/-!
# Linearization

An object has operations, each of which changes its value and gives a result. Parties run
operations on it side by side. When every step of the system either touches neither the value nor
what the operations of any party have done, or is the effect of one operation of one party, there
is one sequence of the operations that explains it all: `linearized_of_run`.
-/

namespace RiscvLinux.Lib

variable {ι σ ω ρ κ : Type*}

/-- Applied one by one, the operations give these results and this value. -/
def Legal (apply : ω → σ → σ × ρ) : σ → List (ω × ρ) → σ → Prop
  | v, [], v' => v = v'
  | v, (op, r) :: rest, v' => (apply op v).2 = r ∧ Legal apply (apply op v).1 rest v'

/-- The operations of one party, in the order of the sequence. -/
def ofParty [DecidableEq ι] (i : ι) (order : List (ι × ω × ρ)) : List (ω × ρ) :=
  (order.filter fun e => e.1 = i).map Prod.snd

/-- One more operation after the others. -/
theorem Legal.snoc {apply : ω → σ → σ × ρ} {v v' : σ} {ops : List (ω × ρ)}
    (legal : Legal apply v ops v') (op : ω) :
    Legal apply v (ops ++ [(op, (apply op v').2)]) (apply op v').1 := by
  induction ops generalizing v with
  | nil =>
    obtain rfl : v = v' := legal
    exact ⟨rfl, rfl⟩
  | cons e ops ih => exact ⟨legal.1, ih legal.2⟩

variable [DecidableEq ι]

@[simp] theorem ofParty_nil (i : ι) : ofParty i ([] : List (ι × ω × ρ)) = [] := rfl

theorem ofParty_append (i : ι) (first second : List (ι × ω × ρ)) :
    ofParty i (first ++ second) = ofParty i first ++ ofParty i second := by
  rw [ofParty, List.filter_append, List.map_append]
  rfl

/-- One more operation of one party is one more of that party and none of the others. -/
theorem ofParty_snoc (order : List (ι × ω × ρ)) (i : ι) (e : ω × ρ) :
    (fun j => ofParty j (order ++ [(i, e)]))
      = Function.update (fun j => ofParty j order) i (ofParty i order ++ [e]) := by
  funext j
  rw [ofParty_append]
  rcases eq_or_ne j i with rfl | differ
  · rw [Function.update_self]
    congr 1
    simp [ofParty]
  · rw [Function.update_of_ne differ]
    simp [ofParty, differ.symm]

/-- What a system shows of the object: its value, and of every party the operations that have taken
effect with their results, in its order. -/
structure View (ι σ ω ρ : Type*) where
  value : σ
  effects : ι → List (ω × ρ)

/-- The operations of the sequence, one by one, explain what is seen. -/
structure Linearized (apply : ω → σ → σ × ρ) (v : σ) (seen : View ι σ ω ρ)
    (order : List (ι × ω × ρ)) : Prop where
  legal : Legal apply v (order.map Prod.snd) seen.value
  party : ∀ i, ofParty i order = seen.effects i

/-- What a step may do to what is seen: nothing, or one operation of one party takes effect. -/
inductive Effects (apply : ω → σ → σ × ρ) : View ι σ ω ρ → View ι σ ω ρ → Prop
  | quiet (seen : View ι σ ω ρ) : Effects apply seen seen
  | effect (seen : View ι σ ω ρ) (i : ι) (op : ω) :
    Effects apply seen ⟨(apply op seen.value).1,
      Function.update seen.effects i (seen.effects i ++ [(op, (apply op seen.value).2)])⟩

/-- A step lets the sequence grow, by one operation at most. -/
theorem Linearized.step {apply : ω → σ → σ × ρ} {v : σ} {seen seen' : View ι σ ω ρ}
    {order : List (ι × ω × ρ)} (linearized : Linearized apply v seen order)
    (effects : Effects apply seen seen') :
    ∃ order', order <+: order' ∧ Linearized apply v seen' order' := by
  cases effects with
  | quiet => exact ⟨order, List.prefix_rfl, linearized⟩
  | effect i op =>
    refine ⟨order ++ [(i, op, (apply op seen.value).2)], List.prefix_append .., ?_, fun j => ?_⟩
    · rw [List.map_append]
      exact linearized.legal.snoc op
    · rw [congrFun (ofParty_snoc order i _) j, funext linearized.party, linearized.party i]

/-- A run whose steps are effects lets the sequence grow. -/
theorem Linearized.run {apply : ω → σ → σ × ρ} {v : σ} {view : κ → View ι σ ω ρ}
    {step : κ → κ → Prop} {inv : κ → Prop} (kept : Keeps step inv)
    (effects : ∀ ⦃s t⦄, inv s → step s t → Effects apply (view s) (view t)) {s t : κ}
    {order : List (ι × ω × ρ)} (start : inv s) (linearized : Linearized apply v (view s) order)
    (run : Run step s t) : ∃ order', order <+: order' ∧ Linearized apply v (view t) order' := by
  induction run with
  | refl => exact ⟨order, List.prefix_rfl, linearized⟩
  | tail before next ih =>
    rcases ih with ⟨middle, grows, linearized'⟩
    obtain ⟨order', grows', linearized''⟩ :=
      linearized'.step (effects (Run.keeps kept start before) next)
    exact ⟨order', grows.trans grows', linearized''⟩

/-- A run from a state in which nothing has taken effect is explained by a sequence, and what comes
after by a continuation of it. -/
theorem linearized_of_run {apply : ω → σ → σ × ρ} {view : κ → View ι σ ω ρ} {step : κ → κ → Prop}
    {inv : κ → Prop} (kept : Keeps step inv)
    (effects : ∀ ⦃s t⦄, inv s → step s t → Effects apply (view s) (view t)) {s t u : κ}
    (start : inv s) (fresh : ∀ i, (view s).effects i = []) (run : Run step s t)
    (later : Run step t u) :
    ∃ order order', order <+: order' ∧ Linearized apply (view s).value (view t) order ∧
      Linearized apply (view s).value (view u) order' := by
  have none : Linearized apply (view s).value (view s) [] := ⟨rfl, fun i => (fresh i).symm⟩
  obtain ⟨order, -, first⟩ := none.run kept effects start run
  obtain ⟨order', grows, second⟩ := first.run kept effects (Run.keeps kept start run) later
  exact ⟨order, order', grows, first, second⟩

/-- When a party that takes a step leaves the value and its operations, or does one operation, the
step has such an effect. -/
theorem Interleave.effects {α τ : Type*} {act : τ → α → τ → α → Prop} {apply : ω → σ → σ × ρ}
    {value : τ → σ} {done : α → List (ω × ρ)} {s t : Parties ι τ α}
    (acts : ∀ i a, act s.shared (s.party i) t.shared a →
      (value t.shared = value s.shared ∧ done a = done (s.party i)) ∨
        ∃ op, value t.shared = (apply op (value s.shared)).1 ∧
          done a = done (s.party i) ++ [(op, (apply op (value s.shared)).2)])
    (stepped : Interleave act s t) :
    Effects apply ⟨value s.shared, fun i => done (s.party i)⟩
      ⟨value t.shared, fun i => done (t.party i)⟩ := by
  rcases stepped with ⟨i, a, acted, moved⟩
  have party : (fun j => done (t.party j))
      = Function.update (fun j => done (s.party j)) i (done a) := by
    rw [moved]
    exact Function.comp_update done s.party i a
  rw [party]
  rcases acts i a acted with ⟨same, none⟩ | ⟨op, applied, one⟩
  · rw [same, none, Function.update_eq_self]
    exact .quiet _
  · rw [applied, one]
    exact .effect _ i op

end RiscvLinux.Lib
