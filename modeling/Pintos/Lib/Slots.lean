import Mathlib.Data.Fintype.Card
import Mathlib.Data.List.FinRange

/-! # Tables of slots

A table `f : Fin n → Option κ` says which key each of `n` slots holds.

* **Search.**  `slotOf f s` is the first slot that holds `s`, `freeSlot f` the first that holds
  nothing.
* **Invariants.**  `Distinct f`: no key is in two slots.  `Enumerates xs f`: the list `xs` has each
  key of the table exactly once, as the queue of a replacement policy should. -/

namespace Slots
open Function Option List

variable {n : ℕ} {κ : Type}

/-- The first slot that holds nothing. -/
def freeSlot (f : Fin n → Option κ) : Option (Fin n) :=
  (List.finRange n).find? fun i => (f i).isNone

/-- The first slot that holds `s`. -/
def slotOf [DecidableEq κ] (f : Fin n → Option κ) (s : κ) : Option (Fin n) :=
  (List.finRange n).find? fun i => decide (f i = some s)

/-- No key is in two slots. -/
def Distinct (f : Fin n → Option κ) : Prop := ∀ i j s, f i = some s → f j = some s → i = j

/-- The list has each key of the table exactly once. -/
structure Enumerates (xs : List κ) (f : Fin n → Option κ) : Prop where
  nodup : xs.Nodup
  mem : ∀ s, s ∈ xs ↔ ∃ i, f i = some s

variable {f : Fin n → Option κ} {xs : List κ} {s : κ} {i : Fin n}

theorem eq_none_of_freeSlot (h : freeSlot f = some i) : f i = none := by
  have := find?_some h
  simpa using this

theorem ne_none_of_freeSlot (h : freeSlot f = none) (i : Fin n) : f i ≠ none := by
  have := find?_eq_none.mp h i (mem_finRange i)
  simpa using this

theorem Distinct.update (hd : Distinct f) (hs : ∀ j, f j ≠ some s) :
    Distinct (update f i (some s)) := by
  intro j k t hj hk
  by_cases ej : j = i <;> by_cases ek : k = i
  · rw [ej, ek]
  · subst ej
    rw [update_self] at hj
    rw [update_of_ne ek, ← hj] at hk
    exact absurd hk (hs k)
  · subst ek
    rw [update_self] at hk
    rw [update_of_ne ej, ← hk] at hj
    exact absurd hj (hs j)
  · rw [update_of_ne ej] at hj
    rw [update_of_ne ek] at hk
    exact hd j k t hj hk

section search
variable [DecidableEq κ]

theorem eq_some_of_slotOf (h : slotOf f s = some i) : f i = some s := by
  have := find?_some h
  simpa using this

theorem slotOf_eq_none_iff : slotOf f s = none ↔ ∀ i, f i ≠ some s := by
  simp [slotOf]

theorem Distinct.slotOf_eq (hd : Distinct f) (h : f i = some s) : slotOf f s = some i := by
  cases hj : slotOf f s with
  | none => exact absurd h (slotOf_eq_none_iff.mp hj i)
  | some j => rw [hd j i s (eq_some_of_slotOf hj) h]

end search

namespace Enumerates

theorem perm (he : Enumerates xs f) (hd : Distinct f) :
    xs.Perm ((finRange n).filterMap f) := by
  have hnd := (nodup_finRange n).filterMap fun i j s hi hj => hd i j s hi hj
  rw [perm_ext_iff_of_nodup he.nodup hnd]
  intro s
  simp [he.mem s]

/-- The queue is no longer than the table is wide, and shorter while a slot is free. -/
theorem length_le_card [DecidableEq κ] (he : Enumerates xs f) :
    xs.length ≤ (Finset.univ.filter fun i => (f i).isSome).card := by
  rw [← toFinset_card_of_nodup he.nodup]
  have hsub : xs.toFinset.image some ⊆ (Finset.univ.filter fun i => (f i).isSome).image f := by
    intro o ho
    obtain ⟨s, hs, rfl⟩ := Finset.mem_image.mp ho
    obtain ⟨i, hi⟩ := (he.mem s).mp (mem_toFinset.mp hs)
    exact Finset.mem_image.mpr ⟨i, by simp [hi], hi⟩
  calc xs.toFinset.card = (xs.toFinset.image some).card :=
        (Finset.card_image_of_injective _ (some_injective κ)).symm
    _ ≤ ((Finset.univ.filter fun i => (f i).isSome).image f).card := Finset.card_le_card hsub
    _ ≤ _ := Finset.card_image_le

theorem length_le [DecidableEq κ] (he : Enumerates xs f) : xs.length ≤ n := by
  refine he.length_le_card.trans ((Finset.card_le_univ _).trans ?_)
  simp

theorem length_lt [DecidableEq κ] (he : Enumerates xs f) (hi : f i = none) : xs.length < n := by
  have hlt : (Finset.univ.filter fun i => (f i).isSome).card < (Finset.univ : Finset (Fin n)).card :=
    Finset.card_lt_card (Finset.filter_ssubset.mpr ⟨i, Finset.mem_univ i, by simp [hi]⟩)
  have := he.length_le_card
  simp at hlt
  omega

theorem push (he : Enumerates xs f) (hi : f i = none) (hs : ∀ j, f j ≠ some s) :
    Enumerates (xs ++ [s]) (update f i (some s)) := by
  have hnot : s ∉ xs := fun hm => by
    obtain ⟨j, hj⟩ := (he.mem s).mp hm
    exact hs j hj
  refine ⟨?_, fun t => ?_⟩
  · rw [nodup_append]
    exact ⟨he.nodup, nodup_singleton s, fun a ha b hb => by
      rw [mem_singleton.mp hb]
      rintro rfl
      exact hnot ha⟩
  · rw [mem_append, mem_singleton, he.mem]
    constructor
    · rintro (⟨j, hj⟩ | rfl)
      · have hji : j ≠ i := by rintro rfl; simp [hi] at hj
        exact ⟨j, by rw [update_of_ne hji, hj]⟩
      · exact ⟨i, update_self ..⟩
    · rintro ⟨j, hj⟩
      by_cases e : j = i
      · subst e
        rw [update_self, some.injEq] at hj
        exact .inr hj.symm
      · rw [update_of_ne e] at hj
        exact .inl ⟨j, hj⟩

/-- The first key of the queue goes to its end. -/
theorem rotate (he : Enumerates (a :: xs) f) : Enumerates (xs ++ [a]) f :=
  ⟨(perm_append_singleton a xs).nodup_iff.mpr he.nodup, fun t =>
    (perm_append_singleton a xs).mem_iff.trans (he.mem t)⟩

/-- The first key of the queue leaves its slot to a new one, which goes to the end. -/
theorem replace (he : Enumerates (a :: xs) f) (hd : Distinct f) (hi : f i = some a)
    (hs : ∀ j, f j ≠ some s) : Enumerates (xs ++ [s]) (update f i (some s)) := by
  have hpop : Enumerates xs (update f i none) := by
    obtain ⟨hnot, hnd⟩ := nodup_cons.mp he.nodup
    refine ⟨hnd, fun t => ?_⟩
    constructor
    · intro ht
      obtain ⟨j, hj⟩ := (he.mem t).mp (mem_cons_of_mem _ ht)
      have hji : j ≠ i := by
        rintro rfl
        rw [hi, some.injEq] at hj
        exact hnot (hj ▸ ht)
      exact ⟨j, by rw [update_of_ne hji, hj]⟩
    · rintro ⟨j, hj⟩
      by_cases e : j = i
      · subst e; simp at hj
      · rw [update_of_ne e] at hj
        rcases mem_cons.mp ((he.mem t).mpr ⟨j, hj⟩) with rfl | ht
        · exact absurd (hd j i t hj hi) e
        · exact ht
  have hs' : ∀ j, update f i none j ≠ some s := by
    intro j
    by_cases e : j = i
    · subst e; simp
    · rw [update_of_ne e]; exact hs j
  have := hpop.push (i := i) (by simp) hs'
  rwa [update_idem] at this

end Enumerates

end Slots
