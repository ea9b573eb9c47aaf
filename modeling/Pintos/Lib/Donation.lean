import Mathlib.Data.Fintype.Card
import Mathlib.Logic.Relation
import Mathlib.Order.Monotone.Basic

/-! # Chains and donations

Things that wait for each other, each for at most one: `next t` is what `t` waits for.

* **Chains.**  `endsWithin next n t`: one that starts in `t` and follows `next` ends, and has at
  most `n` elements.  On a finite type a chain that is longer than the type never ends
  (`Ends.endsWithin_card`).  A chain cannot begin to end when only chains that end are changed
  (`Ends.of_change`).
* **Donations.**  `donate link want n p t` recomputes the value of `t`, then of `link t`, and so
  on, at most `n` times; `want p t` is at least the value of everything that waits for `t`.  If nothing but
  `t` may be worth less than what waits for it, and the chain from `t` ends in time, then afterwards
  nothing is (`donate_dominates`).  If all but `t` have the value that is wanted, then afterwards all
  have (`donate_eq_want`). -/

namespace Donation
open Function

variable {T : Type*} {next next' : T → Option T} {t u : T} {n m : ℕ}

/-! ### Chains -/

/-- The chain that starts in `t` has at most `n` elements. -/
def endsWithin (next : T → Option T) : ℕ → T → Bool
  | 0, _ => false
  | n + 1, t => match next t with
    | none => true
    | some u => endsWithin next n u

/-- The chain that starts in `t` ends. -/
def Ends (next : T → Option T) (t : T) : Prop := ∃ n, endsWithin next n t = true

theorem endsWithin_succ_of_none (h : next t = none) : endsWithin next (n + 1) t = true := by
  simp [endsWithin, h]

theorem endsWithin_succ_of_some (h : next t = some u) :
    endsWithin next (n + 1) t = endsWithin next n u := by
  simp [endsWithin, h]

theorem endsWithin_succ (h : endsWithin next n t = true) : endsWithin next (n + 1) t = true := by
  induction n generalizing t with
  | zero => cases h
  | succ n ih =>
    cases ht : next t with
    | none => exact endsWithin_succ_of_none ht
    | some u =>
      rw [endsWithin_succ_of_some ht] at h ⊢
      exact ih h

theorem endsWithin_mono (hnm : n ≤ m) (h : endsWithin next n t = true) :
    endsWithin next m t = true := by
  induction hnm with
  | refl => exact h
  | step _ ih => exact endsWithin_succ ih

theorem ends_of_none (h : next t = none) : Ends next t := ⟨1, endsWithin_succ_of_none h⟩

theorem ends_iff (h : next t = some u) : Ends next t ↔ Ends next u := by
  constructor
  · rintro ⟨n, hn⟩
    cases n with
    | zero => cases hn
    | succ n => exact ⟨n, (endsWithin_succ_of_some h).symm.trans hn⟩
  · rintro ⟨n, hn⟩
    exact ⟨n + 1, (endsWithin_succ_of_some h).trans hn⟩

/-- A chain ends that ends after a change which concerns only ends of chains. -/
theorem Ends.of_change (hcha : ∀ t, next' t ≠ next t → Ends next t) (h : Ends next' t) :
    Ends next t := by
  obtain ⟨n, hn⟩ := h
  induction n generalizing t with
  | zero => cases hn
  | succ n ih =>
    by_cases hsame : next' t = next t
    · cases ht : next t with
      | none => exact ends_of_none ht
      | some u =>
        rw [endsWithin_succ_of_some (hsame.trans ht)] at hn
        exact (ends_iff ht).mpr (ih hn)
    · exact hcha t hsame

section finite
variable [Fintype T]

/-- On a finite type the chains that end do so within the number of its elements. -/
theorem Ends.endsWithin_card (h : Ends next t) : endsWithin next (Fintype.card T) t = true := by
  obtain ⟨n, hn⟩ := h
  rcases le_total n (Fintype.card T) with hle | hle
  · exact endsWithin_mono hle hn
  -- the sets of the elements whose chains end within `i` grow until they stop growing
  let A i : Finset T := Finset.univ.filter fun u => endsWithin next i u
  have hmem i u : u ∈ A i ↔ endsWithin next i u = true := by simp [A]
  have hsub {i j : ℕ} (hij : i ≤ j) : A i ⊆ A j := by
    intro u hu
    rw [hmem] at hu ⊢
    exact endsWithin_mono hij hu
  have hstb i (hi : (A i).card = (A (i + 1)).card) : (A (i + 1)).card = (A (i + 2)).card := by
    have hsame := Finset.eq_of_subset_of_card_le (hsub (by omega)) hi.ge
    congr 1
    ext u
    rw [hmem, hmem]
    cases hu : next u with
    | none => simp [endsWithin_succ_of_none hu]
    | some v => rw [endsWithin_succ_of_some hu, endsWithin_succ_of_some hu, ← hmem, ← hmem, hsame]
  have hcard := Nat.stabilises_of_monotone (fun i j hij => Finset.card_le_card (hsub hij))
      (fun i => Finset.card_le_univ (A i)) hstb hle
  have hlast := Finset.eq_of_subset_of_card_le (hsub hle) hcard.le
  rw [← hmem, hlast, hmem]
  exact hn

end finite

/-! ### Donations -/

section donate
variable {α : Type*} [DecidableEq T] {link : T → Option T} {want : (T → α) → T → α} {p : T → α}

/-- Recompute the value of `t` and of at most `n - 1` elements behind it. -/
def donate (link : T → Option T) (want : (T → α) → T → α) : ℕ → (T → α) → T → T → α
  | 0, p, _ => p
  | n + 1, p, t =>
    match link t with
    | none => update p t (want p t)
    | some u => donate link want n (update p t (want p t)) u

/-- What a donation to a chain that does not end changes lies on chains that do not end. -/
theorem donate_of_not_ends (hsub : ∀ w u, next w = some u → link w = some u) (ht : ¬ Ends next t)
    (hu : Ends next u) : donate link want n p t u = p u := by
  induction n generalizing p t with
  | zero => rfl
  | succ n ih =>
    have hne : u ≠ t := by
      rintro rfl
      exact ht hu
    cases hnext : next t with
    | none => exact (ht (ends_of_none hnext)).elim
    | some v =>
      have hlink := hsub t v hnext
      simp only [donate, hlink]
      rw [ih (fun hv => ht ((ends_iff hnext).mpr hv)), update_of_ne hne]

/-- A donation only changes what is on its chain. -/
theorem donate_of_not_onChain (hu : ¬ Relation.ReflTransGen (fun v w => link v = some w) t u) :
    donate link want n p t u = p u := by
  induction n generalizing p t with
  | zero => rfl
  | succ n ih =>
    have hne : u ≠ t := by
      rintro rfl
      exact hu .refl
    cases hlink : link t with
    | none =>
      simp only [donate, hlink]
      exact update_of_ne hne ..
    | some v =>
      simp only [donate, hlink]
      rw [ih fun hv => hu (hv.head hlink), update_of_ne hne]

/-- A donation that reaches the end of its chain, if what is wanted for `u` depends only on what
leads to `u`. -/
theorem donate_eq_want {good : T → Prop}
    (hlcl : ∀ p q u, (∀ w, link w = some u → p w = q w) → want p u = want q u)
    (hn : endsWithin link n t = true) (hp : ∀ u, good u → u ≠ t → p u = want p u) (u : T)
    (hu : good u) : donate link want n p t u = want (donate link want n p t) u := by
  induction n generalizing p t with
  | zero => cases hn
  | succ n ih =>
    have hstep u (hu : good u) (hne : link t ≠ some u) :
        update p t (want p t) u = want (update p t (want p t)) u := by
      have hsame : want (update p t (want p t)) u = want p u := hlcl _ _ u fun w hw =>
        update_of_ne (by rintro rfl; exact hne hw) ..
      rw [hsame]
      rcases eq_or_ne u t with rfl | hut
      · exact update_self ..
      · rw [update_of_ne hut]
        exact hp u hu hut
    cases hlink : link t with
    | none =>
      simp only [donate, hlink]
      exact hstep u hu (by simp [hlink])
    | some v =>
      simp only [donate, hlink]
      rw [endsWithin_succ_of_some hlink] at hn
      exact ih hn fun u hu huv => hstep u hu (by simpa [hlink] using huv.symm)

variable [Preorder α]

/-- A donation that reaches the end of its chain. -/
theorem donate_dominates {good : T → Prop} (hsub : ∀ w u, next w = some u → link w = some u)
    (hwant : ∀ p w u, next w = some u → p w ≤ want p u) (hn : endsWithin link n t = true)
    (hp : ∀ w u, next w = some u → u ≠ t → good u → p w ≤ p u) (w u : T)
    (hwu : next w = some u) (hu : good u) : donate link want n p t w ≤ donate link want n p t u := by
  induction n generalizing p t with
  | zero => cases hn
  | succ n ih =>
    -- one recomputation: only what `t` itself waits for may now be worth less
    have hstep (w u : T) (hwu : next w = some u) (hwt : w ≠ t) (hu : good u) :
        update p t (want p t) w ≤ update p t (want p t) u := by
      rw [update_of_ne hwt]
      rcases eq_or_ne u t with rfl | hut
      · rw [update_self]
        exact hwant p w u hwu
      · rw [update_of_ne hut]
        exact hp w u hwu hut hu
    cases hlink : link t with
    | none =>
      simp only [donate, hlink]
      refine hstep w u hwu ?_ hu
      rintro rfl
      simp [hsub w u hwu] at hlink
    | some v =>
      simp only [donate, hlink]
      rw [endsWithin_succ_of_some hlink] at hn
      refine ih hn fun w u hwu huv hu => hstep w u hwu ?_ hu
      rintro rfl
      exact huv (Option.some.inj ((hsub w u hwu).symm.trans hlink))

end donate

/-- The running maximum is at least every element that it has met. -/
theorem le_foldl_max {α : Type*} [LinearOrder α] {l : List α} {x a : α} (h : x ≤ a ∨ x ∈ l) :
    x ≤ l.foldl max a := by
  induction l generalizing a with
  | nil => exact h.resolve_right List.not_mem_nil
  | cons b l ih =>
    refine ih ?_
    rcases h with h | h
    · exact .inl (h.trans (le_max_left a b))
    · rcases List.mem_cons.mp h with rfl | h
      · exact .inl (le_max_right a x)
      · exact .inr h

end Donation
