import Mathlib.Algebra.Order.Ring.Abs
import Mathlib.Tactic.Linarith
import Mathlib.Tactic.NormNum
import Mathlib.Tactic.Ring

/-! # Checked arithmetic

Signed numbers of `w` bits as integers.  `signed w x` is the value `x` if it can be represented, and
`none` otherwise, so that a computation that returns has had no intermediate value out of range.
Division is the one of C, `Int.tdiv`, which rounds towards zero.

`foldlM_rule` is the rule for a loop over a list that is to come to its end. -/

namespace Checked

/-! ### Ranges -/

/-- `x` is a signed number of `w` bits. -/
def Fits (w : ℕ) (x : ℤ) : Prop := -2 ^ (w - 1) ≤ x ∧ x < 2 ^ (w - 1)

instance (w : ℕ) (x : ℤ) : Decidable (Fits w x) := inferInstanceAs (Decidable (_ ∧ _))

/-- The value `x`, if it fits into `w` bits. -/
def signed (w : ℕ) (x : ℤ) : Option ℤ := if Fits w x then some x else none

variable {w : ℕ} {x y a b z : ℤ}

theorem signed_eq (h : Fits w x) : signed w x = some x := if_pos h

theorem fits_32 : Fits 32 x ↔ -2147483648 ≤ x ∧ x < 2147483648 := by
  unfold Fits
  norm_num

/-- The product of two numbers of 32 bits. -/
theorem Fits.mul (hx : Fits 32 x) (hy : Fits 32 y) : Fits 64 (x * y) := by
  have hax := abs_le.mpr ⟨hx.1, hx.2.le⟩
  have hay := abs_le.mpr ⟨hy.1, hy.2.le⟩
  have hmul : |x * y| ≤ 2147483648 * 2147483648 := by
    rw [abs_mul]
    exact mul_le_mul hax hay (abs_nonneg y) (by norm_num)
  obtain ⟨hlo, hhi⟩ := abs_le.mp hmul
  unfold Fits
  norm_num
  constructor <;> linarith

/-- One step of a computation that returns. -/
theorem bind_eq {α β : Type} {o : Option α} {f : α → Option β} {u : α} {v : β} (ho : o = some u)
    (hf : f u = some v) : (o >>= f) = some v := by
  rw [ho]
  exact hf

/-! ### Division -/

theorem tdiv_nonpos (ha : a ≤ 0) (hb : 0 ≤ b) : a.tdiv b ≤ 0 := by
  have hneg := Int.tdiv_nonneg (neg_nonneg.mpr ha) hb
  rw [Int.neg_tdiv] at hneg
  linarith

theorem tdiv_le (hb : 0 < b) (hz : 0 ≤ z) (h : a ≤ z * b) : a.tdiv b ≤ z := by
  rcases le_total 0 a with ha | ha
  · rw [Int.tdiv_eq_ediv_of_nonneg ha]
    exact Int.ediv_le_of_le_mul hb h
  · exact (tdiv_nonpos ha hb.le).trans hz

theorem le_tdiv (hb : 0 < b) (hz : z ≤ 0) (h : z * b ≤ a) : z ≤ a.tdiv b := by
  have hneg := tdiv_le (a := -a) hb (neg_nonneg.mpr hz) (by linarith)
  rw [Int.neg_tdiv] at hneg
  linarith

/-- A quotient is between the dividend and zero. -/
theorem Fits.tdiv (hx : Fits w x) (hb : 0 < b) : Fits w (x.tdiv b) := by
  have hpow : 0 < 2 ^ (w - 1) := by positivity
  obtain ⟨hlo, hhi⟩ := hx
  refine ⟨le_tdiv hb (by linarith) ?_, Int.lt_of_le_sub_one (tdiv_le hb (by linarith) ?_)⟩
  · nlinarith
  · nlinarith

/-! ### Loops -/

section
variable {α σ : Type*} {f : σ → α → Option σ}

/-- A loop that keeps an invariant over the elements that it has visited. -/
theorem foldlM_rule (I : List α → σ → Prop) (h0 : I [] s)
    (hstep : ∀ done a s, a ∈ l → I done s → ∃ s', f s a = some s' ∧ I (done ++ [a]) s') :
    ∃ s', l.foldlM f s = some s' ∧ I l s' := by
  suffices h : ∀ rest done s, (∀ a ∈ rest, a ∈ l) → I done s →
      ∃ s', rest.foldlM f s = some s' ∧ I (done ++ rest) s' by
    simpa using h l [] s (fun _ => id) h0
  intro rest
  induction rest with
  | nil =>
    intro done s _ hi
    exact ⟨s, rfl, by simpa using hi⟩
  | cons a rest ih =>
    intro done s hmem hi
    obtain ⟨s1, hs, hi1⟩ := hstep done a s (hmem a List.mem_cons_self) hi
    obtain ⟨s', hs', hi'⟩ := ih (done ++ [a]) s1
      (fun b hb => hmem b (List.mem_cons_of_mem a hb)) hi1
    refine ⟨s', ?_, by simpa using hi'⟩
    rw [List.foldlM_cons, hs]
    exact hs'

/-- What no call of a loop changes. -/
theorem foldlM_keeps {g : σ → β} {l : List α} (hf : ∀ a ∈ l, ∀ s s', f s a = some s' → g s' = g s)
    (h : l.foldlM f s = some s') : g s' = g s := by
  induction l generalizing s with
  | nil => exact Option.some.inj h ▸ rfl
  | cons a l ih =>
    obtain ⟨s1, hs, h⟩ := Option.bind_eq_some_iff.mp h
    rw [ih (fun b hb => hf b (List.mem_cons_of_mem a hb)) h, hf a List.mem_cons_self s s1 hs]

end

end Checked
