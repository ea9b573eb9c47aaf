import Mathlib.Data.List.Induction

/-! # Runs of a state machine

`Reaches step ok s₀ s`: the machine `step`, started in `s₀`, can get to `s` by actions that all
meet `ok` in the state in which they are taken.  `Reaches.invariant` is the induction that every
safety result about runs uses; `exec` is the executable form of a run.

`trace step s as`: the machine performs the actions `as`, each of which has an output.
`trace_simulates` is the rule for two machines that have to give the same outputs. -/

namespace Runs
open Option List

variable {σ α : Type*}

/-- States reached from `s₀` by steps whose actions meet `ok`. -/
inductive Reaches (step : σ → α → Option σ) (ok : σ → α → Prop) (s₀ : σ) : σ → Prop
  | start : Reaches step ok s₀ s₀
  | step {s s' : σ} (a : α) : Reaches step ok s₀ s → ok s a → step s a = some s' →
      Reaches step ok s₀ s'

variable {step : σ → α → Option σ} {ok : σ → α → Prop} {s₀ s : σ}

/-- What holds at the start and is kept by every step holds in every state reached. -/
theorem Reaches.invariant {P : σ → Prop} (h0 : P s₀)
    (hstep : ∀ s a s', P s → ok s a → step s a = some s' → P s') (h : Reaches step ok s₀ s) :
    P s := by
  induction h with
  | start => exact h0
  | step a _ hok hs ih => exact hstep _ a _ ih hok hs

theorem Reaches.trans (h : Reaches step ok s₀ s1) (h' : Reaches step ok s1 s2) :
    Reaches step ok s₀ s2 := by
  induction h' with
  | start => exact h
  | step a _ hok hs ih => exact .step a ih hok hs

/-- A run whose actions meet another condition as well, in the states that it goes through. -/
theorem Reaches.imp {P : σ → Prop} {ok' : σ → α → Prop} (h0 : P s₀)
    (hstep : ∀ s a s', P s → ok s a → step s a = some s' → P s')
    (himp : ∀ s a, P s → ok s a → ok' s a) (h : Reaches step ok s₀ s) : Reaches step ok' s₀ s := by
  induction h with
  | start => exact .start
  | step a h hok hs ih => exact .step a ih (himp _ a (h.invariant h0 hstep) hok) hs

theorem Reaches.any (h : Reaches step ok s₀ s) : Reaches step (fun _ _ => True) s₀ s :=
  h.imp trivial (fun _ _ _ _ _ _ => trivial) fun _ _ _ _ => trivial

/-- Execute a list of actions, as long as they meet `ok`. -/
def exec (step : σ → α → Option σ) (ok : σ → α → Prop) [∀ s a, Decidable (ok s a)] (s : σ)
    (as : List α) : Option σ :=
  as.foldlM (fun s a => if ok s a then step s a else none) s

/-- An executed list of actions is a run. -/
theorem reaches_of_exec [∀ s a, Decidable (ok s a)]
    (h : exec step ok s₀ as = some s) : Reaches step ok s₀ s := by
  induction as using reverseRecOn generalizing s with
  | nil =>
    simp only [exec, foldlM_nil, Option.pure_def, some.injEq] at h
    exact h ▸ .start
  | append_singleton as a ih =>
    simp only [exec, foldlM_append, foldlM_cons, foldlM_nil, bind_pure,
      bind_eq_bind, bind_eq_some_iff, ite_none_right_eq_some] at h
    obtain ⟨s', h', hok, hs⟩ := h
    exact .step a (ih h') hok hs

/-! ### Machines with outputs -/

section trace
variable {τ β : Type*}

/-- Perform a list of actions and collect the outputs. -/
def trace (step : σ → α → Option (List β × σ)) : σ → List α → Option (List β × σ)
  | s, [] => some ([], s)
  | s, a :: as => do
    let (out, s) ← step s a
    let (outs, s) ← trace step s as
    some (out ++ outs, s)

variable {step : σ → α → Option (List β × σ)} {step' : τ → α → Option (List β × τ)}

/-- An action that takes place at some point of a list of actions. -/
def Performs (step : σ → α → Option (List β × σ)) (s₀ : σ) (as : List α) (s : σ) (a : α) : Prop :=
  ∃ pre post outs, as = pre ++ a :: post ∧ trace step s₀ pre = some (outs, s)

theorem Performs.mem (h : Performs step s₀ as s a) : a ∈ as := by
  obtain ⟨pre, post, outs, rfl, -⟩ := h
  simp

/-- The first action, or a later one. -/
theorem performs_cons : Performs step s (a :: as) s1 b ↔
    (s1 = s ∧ b = a) ∨ ∃ out s', step s a = some (out, s') ∧ Performs step s' as s1 b := by
  constructor
  · rintro ⟨pre, post, outs, has, htrc⟩
    cases pre with
    | nil =>
      obtain ⟨rfl, -⟩ := cons.inj has
      exact .inl ⟨(Prod.mk.inj (some.inj htrc)).2.symm, rfl⟩
    | cons a' pre =>
      obtain ⟨rfl, rfl⟩ := cons.inj has
      simp only [trace, bind_eq_bind, bind_eq_some_iff] at htrc
      obtain ⟨⟨out, s'⟩, ha, ⟨outs', s''⟩, hpre, -, rfl⟩ := htrc
      exact .inr ⟨out, s', ha, pre, post, outs', rfl, hpre⟩
  · rintro (⟨rfl, rfl⟩ | ⟨out, s', ha, pre, post, outs, rfl, htrc⟩)
    · exact ⟨[], as, [], rfl, rfl⟩
    · exact ⟨a :: pre, post, out ++ outs, rfl, by simp [trace, ha, htrc]⟩

theorem trace_cons :
    trace step s (a :: as) = some (outs, s') ↔ ∃ out s1 outs', step s a = some (out, s1) ∧
      trace step s1 as = some (outs', s') ∧ outs = out ++ outs' := by
  simp only [trace, bind_eq_bind, bind_eq_some_iff, some.injEq, Prod.mk.injEq, Prod.exists]
  constructor
  · rintro ⟨out, s1, ha, outs', s2, has, rfl, rfl⟩
    exact ⟨out, s1, outs', ha, has, rfl⟩
  · rintro ⟨out, s1, outs', ha, has, rfl⟩
    exact ⟨out, s1, ha, outs', s', has, rfl, rfl⟩

/-- Two machines of which each action keeps the relation `R`, as long as it meets `ok` in the state
of the first machine in which it is performed, give the same outputs. -/
theorem trace_simulates {R : σ → τ → Prop} {ok : σ → α → Prop}
    (hstep : ∀ s t a, R s t → ok s a → ∃ out s' t', step s a = some (out, s') ∧
      step' t a = some (out, t') ∧ R s' t') (h : R s t)
    (hok : ∀ s1 a, Performs step s as s1 a → ok s1 a) :
    ∃ outs s' t', trace step s as = some (outs, s') ∧ trace step' t as = some (outs, t') ∧
      R s' t' := by
  induction as generalizing s t with
  | nil => exact ⟨[], s, t, rfl, rfl, h⟩
  | cons a as ih =>
    obtain ⟨out, s1, t1, hs, ht, h1⟩ := hstep s t a h (hok s a (performs_cons.mpr (.inl ⟨rfl, rfl⟩)))
    obtain ⟨outs, s', t', hs', ht', h'⟩ := ih h1 fun s2 b hp =>
      hok s2 b (performs_cons.mpr (.inr ⟨out, s1, hs, hp⟩))
    exact ⟨out ++ outs, s', t', trace_cons.mpr ⟨out, s1, outs, hs, hs', rfl⟩,
      trace_cons.mpr ⟨out, t1, outs, ht, ht', rfl⟩, h'⟩

/-- Actions that output nothing and change nothing can be left out. -/
theorem trace_filter (hidle : ∀ s a, p a = false → step s a = some ([], s))
    (s : σ) (as : List α) : trace step s (as.filter p) = trace step s as := by
  induction as generalizing s with
  | nil => rfl
  | cons a as ih =>
    cases ha : p a with
    | true =>
      rw [filter_cons_of_pos ha]
      simp [trace, ih]
    | false =>
      rw [filter_cons_of_neg (by simp [ha]), ih]
      simp only [trace, hidle s a ha, bind_eq_bind, bind_some]
      cases trace step s as <;> rfl

end trace

end Runs
