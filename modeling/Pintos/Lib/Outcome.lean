import Mathlib.Data.List.Induction
import Mathlib.Data.List.Range

/-! # Outcomes of a computation that may stop

A computation of type `Except ε α` returns a value or stops with an error.  `Meets E Q x` says what
can be said of it: a value meets `Q`, an error meets `E`.  The rules follow the program: `Meets.bind`
for a sequence, `Meets.foldlM_range` for a loop over the numbers below `n`, with an invariant that
depends on the number of rounds. -/

namespace Outcome

variable {ε α β σ : Type}

/-- If `x` returns then with a value that meets `Q`, and if it stops then with an error that meets
`E`. -/
def Meets (E : ε → Prop) (Q : α → Prop) : Except ε α → Prop
  | .ok a => Q a
  | .error e => E e

variable {E : ε → Prop} {P Q : α → Prop} {R : β → Prop} {x : Except ε α} {f : α → Except ε β}

@[simp] theorem meets_ok : Meets E Q (.ok a) ↔ Q a := Iff.rfl

@[simp] theorem meets_pure : Meets E Q (pure a) ↔ Q a := Iff.rfl

@[simp] theorem meets_error : Meets E Q (.error e) ↔ E e := Iff.rfl

@[simp] theorem ok_bind (a : α) (f : α → Except ε β) : (Except.ok a >>= f) = f a := rfl

@[simp] theorem error_bind (e : ε) (f : α → Except ε β) : (Except.error e >>= f) = .error e := rfl

theorem Meets.mono (h : Meets E P x) (hQ : ∀ a, P a → Q a) : Meets E Q x := by
  cases x with
  | ok a => exact hQ a h
  | error e => exact h

theorem Meets.bind (h : Meets E P x) (hf : ∀ a, P a → Meets E R (f a)) : Meets E R (x >>= f) := by
  cases x with
  | ok a => exact hf a h
  | error e => exact h

theorem Meets.and {E' : ε → Prop} (h : Meets E P x) (h' : Meets E' Q x) :
    Meets E (fun a => P a ∧ Q a) x := by
  cases x with
  | ok a => exact ⟨h, h'⟩
  | error e => exact h

/-- What a computation that has returned has done. -/
theorem Meets.of_eq_ok (h : Meets E Q x) (hx : x = .ok a) : Q a := by
  rw [hx] at h
  exact h

theorem Meets.of_eq_error (h : Meets E Q x) (hx : x = .error e) : E e := by
  rw [hx] at h
  exact h

theorem Meets.eq_ok (h : Meets (fun _ => False) (fun b => b = a) x) : x = .ok a := by
  cases x with
  | ok b => exact congrArg _ h
  | error e => exact h.elim

theorem eq_ok_of_toOption (h : x.toOption = some a) : x = .ok a := by
  cases x with
  | ok b => exact congrArg _ (Option.some.inj h)
  | error e => cases h

/-- A computation that has been seen to return. -/
theorem eq_ok_of_map (hx : x.toOption.map g = some b) : ∃ a, x = .ok a ∧ g a = b := by
  cases x with
  | ok a => exact ⟨a, rfl, Option.some.inj hx⟩
  | error e => cases hx

/-- The error with which a computation stops. -/
def stop : Except ε α → Option ε
  | .ok _ => none
  | .error e => some e

/-- A computation that has been seen to stop. -/
theorem eq_error_of_stop (h : stop x = some e) : x = .error e := by
  cases x with
  | ok a => cases h
  | error e' => exact congrArg _ (Option.some.inj h)

/-- The rule for a loop over the numbers below `n`: `I i` holds before round `i`. -/
theorem Meets.foldlM_range {I : ℕ → σ → Prop} {f : σ → ℕ → Except ε σ} (h0 : I 0 s) (n : ℕ)
    (hstep : ∀ i < n, ∀ s, I i s → Meets E (I (i + 1)) (f s i)) :
    Meets E (I n) ((List.range n).foldlM f s) := by
  induction n with
  | zero => exact h0
  | succ n ih =>
    rw [List.range_succ, List.foldlM_append]
    refine (ih fun i hi => hstep i (by omega)).bind fun s' hs' => ?_
    exact (hstep n (Nat.lt_add_one n) s' hs').bind fun s'' hs'' => hs''

/-- The same rule for a loop that always returns. -/
theorem foldl_range {I : ℕ → σ → Prop} {f : σ → ℕ → σ} (h0 : I 0 s) (n : ℕ)
    (hstep : ∀ i < n, ∀ s, I i s → I (i + 1) (f s i)) : I n ((List.range n).foldl f s) := by
  induction n with
  | zero => exact h0
  | succ n ih =>
    rw [List.range_succ, List.foldl_append]
    exact hstep n (Nat.lt_add_one n) _ (ih fun i hi => hstep i (by omega))

end Outcome
