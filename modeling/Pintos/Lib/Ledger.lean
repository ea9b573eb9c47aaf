import Mathlib.Data.Fintype.Card
import Mathlib.Data.Finset.Card

/-! # Ledgers

Resources are handed out and taken back, and each one that is taken is in the hands of exactly one
owner.  `owner i = some k` says that `i` has `k`, and `taken k` that `k` is marked as taken.

* **Updates.**  A resource is assigned (`Ledger.assign`), released (`Ledger.release`) or passed on
  (`Ledger.move`).
* **Counting.**  While somebody has nothing, something is left (`Ledger.exists_free`). -/

/-- What is taken is in the hands of exactly one owner. -/
structure Ledger {ι κ : Type*} (owner : ι → Option κ) (taken : κ → Prop) : Prop where
  unique : ∀ {i j k}, owner i = some k → owner j = some k → i = j
  taken_iff : ∀ k, taken k ↔ ∃ i, owner i = some k

open Function Finset

namespace Ledger

variable {ι κ : Type*} {owner owner' : ι → Option κ} {taken taken' : κ → Prop} {i j : ι} {k : κ}

theorem taken_of_owner (h : Ledger owner taken) (hi : owner i = some k) : taken k :=
  (h.taken_iff k).mpr ⟨i, hi⟩

theorem congr (h : Ledger owner taken) (ho : ∀ i, owner' i = owner i)
    (ht : ∀ k, taken' k ↔ taken k) : Ledger owner' taken' where
  unique hi hj := h.unique ((ho _).symm.trans hi) ((ho _).symm.trans hj)
  taken_iff k := by simp [ht, ho, h.taken_iff]

/-- Nobody has anything. -/
theorem empty (ho : ∀ i, owner i = none) (ht : ∀ k, ¬ taken k) : Ledger owner taken where
  unique hi := by simp [ho] at hi
  taken_iff k := by simp [ho, ht]

/-- Nothing is left in the hands of anybody. -/
theorem not_taken (h : Ledger owner taken) (ho : ∀ i, owner i = none) (k : κ) : ¬ taken k := by
  simp [h.taken_iff, ho]

variable [DecidableEq ι]

theorem assign (h : Ledger owner taken) (hi : owner i = none) (hk : ¬ taken k)
    (ht : ∀ x, taken' x ↔ taken x ∨ x = k) : Ledger (update owner i (some k)) taken' where
  unique {a b x} ha hb := by
    have hno : ∀ {c}, owner c ≠ some k := fun hc => hk (h.taken_of_owner hc)
    rw [update_apply] at ha hb
    split_ifs at ha hb with hai hbi hbi
    · rw [hai, hbi]
    · exact absurd (ha.symm ▸ hb) hno
    · exact absurd (hb.symm ▸ ha) hno
    · exact h.unique ha hb
  taken_iff x := by
    rw [ht, h.taken_iff]
    constructor
    · rintro (⟨a, ha⟩ | rfl)
      · refine ⟨a, ?_⟩
        rw [update_of_ne (by rintro rfl; rw [hi] at ha; cases ha), ha]
      · exact ⟨i, update_self ..⟩
    · rintro ⟨a, ha⟩
      rw [update_apply] at ha
      split_ifs at ha
      · exact .inr (Option.some.inj ha).symm
      · exact .inl ⟨a, ha⟩

/-- What `i` has, if anything, is given back. -/
theorem release (h : Ledger owner taken) (i : ι) (ht : ∀ x, taken' x ↔ taken x ∧ owner i ≠ some x) :
    Ledger (update owner i none) taken' where
  unique {a b x} ha hb := by
    rw [update_apply] at ha hb
    split_ifs at ha hb
    exact h.unique ha hb
  taken_iff x := by
    rw [ht, h.taken_iff]
    constructor
    · rintro ⟨⟨a, ha⟩, hx⟩
      refine ⟨a, ?_⟩
      rw [update_of_ne, ha]
      rintro rfl
      exact hx ha
    · rintro ⟨a, ha⟩
      rw [update_apply] at ha
      split_ifs at ha with hai
      exact ⟨⟨a, ha⟩, fun hi => hai (h.unique ha hi)⟩

/-- What `i` has is passed on to `j`. -/
theorem move (h : Ledger owner taken) (hi : owner i = some k) (hj : owner j = none) :
    Ledger (update (update owner i none) j (some k)) taken := by
  have hne : j ≠ i := by
    rintro rfl
    simp [hi] at hj
  have hrel := h.release i fun _ => Iff.rfl
  refine hrel.assign (by rw [update_of_ne hne, hj]) (by simp [hi]) fun x => ?_
  by_cases hx : x = k
  · simp [hx, h.taken_of_owner hi]
  · simp [hx, hi, Ne.symm hx]

end Ledger

/-- As long as one of the `n` owners has nothing, one of `N ≥ n` resources is left. -/
theorem Ledger.exists_free {taken : ℕ → Prop} (h : Ledger owner taken)
    (hown : ∀ i k, owner i = some k → i < n) (hi : i < n) (hnone : owner i = none)
    (hN : n ≤ N) : ∃ k < N, ¬ taken k := by
  by_contra hno
  push Not at hno
  choose f hf using fun k : Fin N => (h.taken_iff k).mp (hno k k.isLt)
  have hinj : Injective f := by
    intro a b hab
    have hb := hf b
    rw [← hab, hf a, Option.some.injEq] at hb
    exact Fin.ext hb
  have hsub : univ.image f ⊆ (range n).erase i := by
    intro x hx
    obtain ⟨k, -, rfl⟩ := mem_image.mp hx
    refine mem_erase.mpr ⟨?_, mem_range.mpr (hown _ _ (hf k))⟩
    intro he
    have hk := hf k
    simp [he, hnone] at hk
  have hcard := card_le_card hsub
  rw [card_image_of_injective _ hinj, card_univ, Fintype.card_fin,
    card_erase_of_mem (mem_range.mpr hi), card_range] at hcard
  omega
