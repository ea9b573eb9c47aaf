import Mathlib.Logic.Relation

/-! # Two runs of a partial computation

To compare two runs of one program, relate the values they return: `Option.Rel R x y` says that both
runs fail, or that both return and the results are related by `R`.  The rules follow the program, so
that a relation between the states before can be carried through to the end. -/

namespace TwoRuns

variable {α β γ δ : Type} {R : α → β → Prop} {Q : γ → δ → Prop} {x : Option α} {y : Option β}

theorem rel_bind (h : Option.Rel R x y)
    (hf : ∀ a b, R a b → Option.Rel Q (f a) (g b)) : Option.Rel Q (x.bind f) (y.bind g) := by
  cases h with
  | none => exact .none
  | some hab => exact hf _ _ hab

theorem rel_of_eq (hx : x = some a) (hy : y = some b) (h : R a b) : Option.Rel R x y := by
  rw [hx, hy]
  exact .some h

/-- The rule for a sequence, where the rest may use what the first part has returned. -/
theorem rel_bind_eq (h : Option.Rel R x y)
    (hf : ∀ a b, R a b → x = some a → y = some b → Option.Rel Q (f a) (g b)) :
    Option.Rel Q (x.bind f) (y.bind g) := by
  cases h with
  | none => exact .none
  | some hab => exact hf _ _ hab rfl rfl

end TwoRuns
