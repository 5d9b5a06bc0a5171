import Mathlib.Data.Fintype.Card
import RiscvLinux.Lib.Run

/-!
# Trees in a graph

A graph whose vertices have slots, each of which is empty or points to another vertex, and the walk
that does something at a vertex and then walks what its slots point to, one after the other. The
walk keeps no record of where it was: what makes it end, and come to every vertex once, is that
what is below its root is a tree (`IsTree.visits`).
-/

namespace RiscvLinux.Lib

variable {A ι σ : Type*}

/-- The slots of a vertex, and what they point to -/
structure Slotted (A ι : Type*) where
  slots : List ι
  distinct : slots.Nodup
  child : A → ι → Option A

namespace Slotted

variable (G : Slotted A ι)

/-- A slot of one vertex points to the other. -/
def Points (a : A) (i : ι) (b : A) : Prop := i ∈ G.slots ∧ G.child a i = some b

def Edge (a b : A) : Prop := ∃ i, G.Points a i b

/-- The second vertex is below the first, or is the first. -/
abbrev Below : A → A → Prop := Run G.Edge

/-- Nothing below the root points to it, and nothing below it is pointed to twice. -/
structure IsTree (root : A) : Prop where
  top : ∀ a, G.Below root a → ¬ G.Edge a root
  once : ∀ a b i j c, G.Below root a → G.Below root b → G.Points a i c → G.Points b j c →
    a = b ∧ i = j

/-- The walk: `act` at the vertex, and then what its slots point to. -/
def visit (act : σ → A → σ) : Nat → A → σ → Option σ
  | 0, _, _ => none
  | fuel + 1, a, s =>
    G.slots.foldlM (fun s i => (G.child a i).elim (some s) fun b => visit act fuel b s) (act s a)

/-- The vertices of a walk in its order: those below the vertex that it starts at, each once. -/
structure Visits (act : σ → A → σ) (a : A) (order : List A) : Prop where
  nodup : order.Nodup
  mem : ∀ b, b ∈ order ↔ G.Below a b
  visit : ∃ enough, ∀ fuel ≥ enough, ∀ s, G.visit act fuel a s = some (order.foldl act s)

/-- The same for some of the slots of a vertex -/
structure VisitsSlots (act : σ → A → σ) (a : A) (slots : List ι) (order : List A) : Prop where
  nodup : order.Nodup
  mem : ∀ b, b ∈ order ↔ ∃ i ∈ slots, ∃ c, G.child a i = some c ∧ G.Below c b
  visit : ∃ enough, ∀ fuel ≥ enough, ∀ s,
    slots.foldlM (fun s i => (G.child a i).elim (some s) fun b => G.visit act fuel b s) s
      = some (order.foldl act s)

variable {G} {root a b c d e : A} {i j : ι} {act : σ → A → σ} {slots : List ι} {order : List A}

/-! ## Trees -/

/-- There is one way up in a tree. -/
theorem IsTree.parent (tree : G.IsTree root) (ha : G.Below root a) (hb : G.Below root b)
    (first : G.Edge a c) (second : G.Edge b c) : a = b := by
  rcases first with ⟨i, hi⟩
  rcases second with ⟨j, hj⟩
  exact (tree.once a b i j c ha hb hi hj).1

/-- What is below another vertex is the other, or is pointed to from below the other. -/
theorem below_cases (below : G.Below a b) : b = a ∨ ∃ c, G.Below a c ∧ G.Edge c b := by
  rcases below.cases_tail with same | ⟨c, above, edge⟩
  · exact .inl same
  · exact .inr ⟨c, above, edge⟩

/-- There is no way back up. The induction is on the way down from the root. -/
theorem IsTree.acyclic (tree : G.IsTree root) (ha : G.Below root a) (edge : G.Edge a b) :
    ¬ G.Below b a := by
  induction ha generalizing b with
  | refl =>
    intro back
    rcases below_cases back with rfl | ⟨c, above, last⟩
    · exact tree.top _ .refl edge
    · exact tree.top c ((Relation.ReflTransGen.single edge).trans above) last
  | @tail above a ha into ih =>
    intro back
    have down : G.Below root b := (ha.tail into).tail edge
    rcases below_cases back with rfl | ⟨c, hc, last⟩
    · obtain rfl := tree.parent ha (ha.tail into) into edge
      exact ih into .refl
    · obtain rfl := tree.parent ha (down.trans hc) into last
      exact ih into (hc.head edge)

/-- What two slots of a vertex point to has nothing below it in common. -/
theorem IsTree.apart (tree : G.IsTree root) (ha : G.Below root a) (first : G.Points a i c)
    (second : G.Points a j d) (differ : i ≠ j) (left : G.Below c e) : ¬ G.Below d e := by
  have hc : G.Below root c := ha.tail ⟨i, first⟩
  have hd : G.Below root d := ha.tail ⟨j, second⟩
  induction left with
  | refl =>
    intro right
    rcases below_cases right with rfl | ⟨f, hf, last⟩
    · exact differ (tree.once a a i j c ha ha first second).2
    · obtain rfl := tree.parent ha (hd.trans hf) ⟨i, first⟩ last
      exact tree.acyclic ha ⟨j, second⟩ hf
  | @tail f e left into ih =>
    intro right
    rcases below_cases right with rfl | ⟨g, hg, last⟩
    · obtain rfl := tree.parent ha (hc.trans left) ⟨j, second⟩ into
      exact tree.acyclic ha ⟨i, first⟩ left
    · obtain rfl := tree.parent (hc.trans left) (hd.trans hg) into last
      exact ih hg

/-- What holds of a vertex when it holds of all that it points to, holds below the root. -/
theorem IsTree.induction [Finite A] (tree : G.IsTree root) {motive : A → Prop}
    (step : ∀ a, G.Below root a → (∀ b, G.Edge a b → motive b) → motive a)
    (ha : G.Below root a) : motive a := by
  -- Strictly below, within the tree: this is an order on finitely many vertices.
  let under : A → A → Prop := fun b a => G.Below root a ∧ ∃ c, G.Edge a c ∧ G.Below c b
  have trans : IsTrans A under := by
    refine ⟨fun u v w low high => ⟨high.1, ?_⟩⟩
    obtain ⟨c, first, down⟩ := high.2
    obtain ⟨d, next, further⟩ := low.2
    exact ⟨c, first, (down.tail next).trans further⟩
  have irrefl : Std.Irrefl under := by
    refine ⟨fun v cycle => ?_⟩
    rcases cycle with ⟨hv, c, first, back⟩
    exact tree.acyclic hv first back
  have wf : WellFounded under := Finite.wellFounded_of_trans_of_irrefl under
  induction a using wf.induction with
  | h a ih => exact step a ha fun b edge => ih b ⟨ha, b, edge, .refl⟩ (ha.tail edge)

/-! ## The walk -/

/-- The walk of one slot more, where it is empty -/
theorem VisitsSlots.cons_none (rest : G.VisitsSlots act a slots order)
    (empty : G.child a i = none) : G.VisitsSlots act a (i :: slots) order := by
  obtain ⟨enough, walks⟩ := rest.visit
  refine ⟨rest.nodup, fun b => ?_, enough, fun fuel more s => ?_⟩
  · rw [rest.mem, List.exists_mem_cons_iff, empty]
    exact ⟨.inr, fun either => either.resolve_left fun here => nomatch here.choose_spec.1⟩
  · rw [List.foldlM_cons, empty]
    exact walks fuel more s

/-- And where it points to a vertex that has nothing below it in common with what follows -/
theorem VisitsSlots.cons_some {first : List A} (rest : G.VisitsSlots act a slots order)
    (points : G.child a i = some c) (below : G.Visits act c first)
    (apart : ∀ j ∈ slots, ∀ d, G.child a j = some d → ∀ e, G.Below c e → ¬ G.Below d e) :
    G.VisitsSlots act a (i :: slots) (first ++ order) := by
  obtain ⟨enough, walks⟩ := rest.visit
  obtain ⟨enough', walks'⟩ := below.visit
  refine ⟨List.nodup_append'.mpr ⟨below.nodup, rest.nodup, fun e left right => ?_⟩, fun b => ?_,
    max enough enough', fun fuel more s => ?_⟩
  · obtain ⟨j, member, d, other, down⟩ := (rest.mem e).mp right
    exact apart j member d other e ((below.mem e).mp left) down
  · rw [List.mem_append, below.mem, rest.mem, List.exists_mem_cons_iff, points]
    refine or_congr_left ⟨fun down => ⟨c, rfl, down⟩, fun given => ?_⟩
    rcases given with ⟨d, same, down⟩
    cases same
    exact down
  · rw [List.foldlM_cons, points, Option.elim_some, walks' fuel (by omega) s, List.foldl_append]
    exact walks fuel (by omega) _

/-- The walk of a vertex, from that of its slots -/
theorem VisitsSlots.visits (slots : G.VisitsSlots act a G.slots order)
    (acyclic : ∀ b, G.Edge a b → ¬ G.Below b a) : G.Visits act a (a :: order) := by
  obtain ⟨enough, walks⟩ := slots.visit
  have below : ∀ b, b ∈ order ↔ ∃ c, G.Edge a c ∧ G.Below c b := by
    intro b
    rw [slots.mem]
    constructor
    · intro given
      rcases given with ⟨i, member, c, points, down⟩
      exact ⟨c, ⟨i, member, points⟩, down⟩
    · intro given
      rcases given with ⟨c, ⟨i, member, points⟩, down⟩
      exact ⟨i, member, c, points, down⟩
  refine ⟨List.nodup_cons.mpr ⟨fun here => ?_, slots.nodup⟩, fun b => ?_, enough + 1,
    fun fuel more s => ?_⟩
  · obtain ⟨c, edge, back⟩ := (below a).mp here
    exact acyclic c edge back
  · rw [List.mem_cons, below, eq_comm]
    exact Relation.ReflTransGen.cases_head_iff.symm
  · obtain ⟨fuel, rfl⟩ := Nat.exists_eq_add_one_of_ne_zero (show fuel ≠ 0 by omega)
    rw [Slotted.visit, List.foldl_cons]
    exact walks fuel (by omega) _

/-- The walk of a vertex of a tree, if those of what it points to are as they should. The induction
is on the slots that are left. -/
theorem IsTree.visitsSlots (tree : G.IsTree root) (ha : G.Below root a)
    (children : ∀ b, G.Edge a b → ∃ order, G.Visits act b order) (distinct : slots.Nodup)
    (within : slots ⊆ G.slots) : ∃ order, G.VisitsSlots act a slots order := by
  induction slots with
  | nil => exact ⟨[], List.nodup_nil, by simp, 0, fun _ _ _ => rfl⟩
  | cons i slots ih =>
    obtain ⟨here, further⟩ := List.cons_subset.mp within
    obtain ⟨fresh, distinct⟩ := List.nodup_cons.mp distinct
    obtain ⟨order, rest⟩ := ih distinct further
    cases points : G.child a i with
    | none => exact ⟨order, rest.cons_none points⟩
    | some c =>
      obtain ⟨first, below⟩ := children c ⟨i, here, points⟩
      refine ⟨first ++ order, rest.cons_some points below fun j member d other e => ?_⟩
      exact tree.apart ha ⟨here, points⟩ ⟨further member, other⟩ fun same => fresh (same ▸ member)

/-- The walk of a tree comes to an end, and to every vertex below the root once. -/
theorem IsTree.visits [Finite A] (tree : G.IsTree root) (act : σ → A → σ) :
    ∃ order, G.Visits act root order := by
  refine tree.induction (motive := fun a => ∃ order, G.Visits act a order) (fun a ha children => ?_)
    .refl
  obtain ⟨order, slots⟩ := tree.visitsSlots ha children G.distinct (List.Subset.refl _)
  exact ⟨a :: order, slots.visits fun b edge => tree.acyclic ha edge⟩

end Slotted

end RiscvLinux.Lib
