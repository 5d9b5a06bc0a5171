import RiscvLinux.Lib.Run

/-!
# Stacks that only grow and shrink at one end

The head of the list is the top of the stack. While the stack stays higher than `n`,
the element at height `n` (counted from the bottom) is the same one.
-/

namespace RiscvLinux.Lib

variable {α σ : Type*}

/-- One list is the other with at most one element pushed or popped. -/
inductive PushPop : List α → List α → Prop
  | same (l : List α) : PushPop l l
  | push (a : α) (l : List α) : PushPop l (a :: l)
  | pop (a : α) (l : List α) : PushPop (a :: l) l

/-- The element at height `n`. -/
def atHeight (l : List α) (n : Nat) : Option α :=
  l.reverse[n]?

/-- The top of a stack of height `n + 1` is at height `n`. -/
theorem atHeight_cons_length (a : α) (l : List α) : atHeight (a :: l) l.length = some a := by
  rw [atHeight, List.reverse_cons, List.getElem?_append_right (Nat.le_of_eq List.length_reverse),
    List.length_reverse, Nat.sub_self, List.getElem?_cons_zero]

theorem atHeight_cons_of_lt (a : α) {l : List α} {n : Nat} (under : n < l.length) :
    atHeight (a :: l) n = atHeight l n := by
  rw [atHeight, List.reverse_cons, List.getElem?_append_left (by rwa [List.length_reverse]),
    atHeight]

/-- What is below both heights stays. -/
theorem PushPop.atHeight_eq {l l' : List α} {n : Nat} (change : PushPop l l')
    (before : n < l.length)
    (after : n < l'.length) : atHeight l' n = atHeight l n := by
  cases change with
  | same => rfl
  | push a => exact atHeight_cons_of_lt a before
  | pop a => exact (atHeight_cons_of_lt a after).symm

/-- Along a run that pushes and pops and stays higher than `n`, the element at height `n`
stays. -/
theorem Run.atHeight_eq {step : σ → σ → Prop} (stack : σ → List α) {n : Nat}
    (pushPop : ∀ ⦃s t⦄, step s t → PushPop (stack s) (stack t)) {s t : σ}
    (start : n < (stack s).length)
    (run : Run (Guarded step fun _ t => n < (stack t).length) s t) :
    atHeight (stack t) n = atHeight (stack s) n ∧ n < (stack t).length := by
  induction run with
  | refl => exact ⟨rfl, start⟩
  | tail _ next ih =>
    rcases ih with ⟨same, under⟩
    exact ⟨((pushPop next.1).atHeight_eq under next.2).trans same, next.2⟩

end RiscvLinux.Lib
