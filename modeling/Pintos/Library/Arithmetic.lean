import Mathlib.Tactic.Linarith
import Mathlib.Tactic.Ring

/-! # 64-bit division

The routines of `lib/arithmetic.c`; `none` is a divide error.

* **Estimate.**  For a large divisor, the halved dividend is divided by the highest 32 bits of the
  divisor, after that has been moved up.  This is a division by a number that is at most a little
  smaller than the divisor, so that the quotient is at most one too large (`estimate`).
* **Remainders.**  `umod64` and `smod64` are declared with results of 32 bits. -/

namespace Pintos.Arithmetic
open Option

/-- Conversion to `uint64_t`. -/
def unsigned64 (x : ℤ) : ℕ := (x % 2 ^ 64).toNat

/-- The instruction DIVL. -/
def divl (n d : ℕ) : Option ℕ :=
  if n / 2 ^ 32 < d then some (n / d) else none

/-- A step of `nlz`: `p` is the count so far, and what is left of the number. -/
def nlzStep (bound k : ℕ) (p : ℕ × ℕ) : ℕ × ℕ :=
  if p.2 ≤ bound then (p.1 + k, p.2 * 2 ^ k % 2 ^ 32) else p

/-- The number of leading zero bits. -/
def nlz (x : ℕ) : ℕ :=
  (nlzStep 0x7FFFFFFF 1 (nlzStep 0x3FFFFFFF 2 (nlzStep 0x0FFFFFFF 4 (nlzStep 0x00FFFFFF 8
    (nlzStep 0x0000FFFF 16 (0, x)))))).1

def udiv64 (n d : ℕ) : Option ℕ :=
  if d / 2 ^ 32 = 0 then do
    let b := 2 ^ 32
    let n1 := n / 2 ^ 32
    let n0 := n % 2 ^ 32
    let q ← divl (b * (n1 % d) + n0) d
    some ((q + b * (n1 / d)) % 2 ^ 64)
  else if n < d then some 0
  else do
    let s := nlz (d / 2 ^ 32)
    let q ← divl (n / 2) (d * 2 ^ s % 2 ^ 64 / 2 ^ 32)
    let q := q / 2 ^ (31 - s)
    let less := unsigned64 (q - 1)
    some (if unsigned64 (n - less * d) < d then less else q)

/-- The result is a `uint32_t`, which `__umoddi3` extends with zeros. -/
def umod64 (n d : ℕ) : Option ℕ := do
  let q ← udiv64 n d
  some (unsigned64 (n - d * q) % 2 ^ 32)

/-- The conversions and the negation wrap around. -/
def sdiv64 (n d : ℤ) : Option ℤ := do
  let nAbs := if 0 ≤ n then n.toNat else unsigned64 (-n)
  let dAbs := if 0 ≤ d then d.toNat else unsigned64 (-d)
  let qAbs ← udiv64 nAbs dAbs
  let q := (qAbs : ℤ).bmod (2 ^ 64)
  some (if n < 0 ↔ d < 0 then q else (-q).bmod (2 ^ 64))

/-- The result is an `int32_t`, which `__moddi3` extends with its sign. -/
def smod64 (n d : ℤ) : Option ℤ := do
  let q ← sdiv64 n d
  some ((n - d * q).bmod (2 ^ 32))

/-! ### Quotients -/

theorem nlzStep_spec {x b k : ℕ} {p : ℕ × ℕ} (hb : (b + 1) * 2 ^ k = 2 ^ 32)
    (h : p.2 = x * 2 ^ p.1 ∧ p.2 < 2 ^ 32 ∧ 2 ^ 32 ≤ p.2 * 2 ^ (k + k)) :
    (nlzStep b k p).2 = x * 2 ^ (nlzStep b k p).1 ∧ (nlzStep b k p).2 < 2 ^ 32 ∧
      2 ^ 32 ≤ (nlzStep b k p).2 * 2 ^ k := by
  unfold nlzStep
  split_ifs with hx
  · have hlt : p.2 * 2 ^ k < 2 ^ 32 :=
      hb ▸ Nat.mul_lt_mul_of_pos_right (Nat.lt_succ_of_le hx) (Nat.two_pow_pos k)
    simp only [Nat.mod_eq_of_lt hlt]
    rw [mul_assoc, ← pow_add]
    exact ⟨by rw [h.1, mul_assoc, ← pow_add], hlt, h.2.2⟩
  · exact ⟨h.1, h.2.1, hb ▸ Nat.mul_le_mul_right _ (Nat.lt_of_not_le hx)⟩

theorem nlz_spec {x : ℕ} (h0 : 0 < x) (hlt : x < 2 ^ 32) :
    2 ^ 31 ≤ x * 2 ^ nlz x ∧ x * 2 ^ nlz x < 2 ^ 32 := by
  obtain ⟨heq, hlt, hle⟩ := nlzStep_spec (k := 1) (b := 0x7FFFFFFF) rfl <|
    nlzStep_spec (k := 2) (b := 0x3FFFFFFF) rfl <|
    nlzStep_spec (k := 4) (b := 0x0FFFFFFF) rfl <|
    nlzStep_spec (k := 8) (b := 0x00FFFFFF) rfl <|
    nlzStep_spec (x := x) (k := 16) (b := 0x0000FFFF) (p := (0, x)) rfl
      ⟨(mul_one x).symm, hlt, Nat.le_mul_of_pos_left _ h0⟩
  rw [nlz]
  omega

/-- The divisor, moved up as far as it goes. -/
theorem normalized {d s : ℕ} (h1 : 2 ^ 31 ≤ d / 2 ^ 32 * 2 ^ s) (h2 : d / 2 ^ 32 * 2 ^ s < 2 ^ 32) :
    s ≤ 31 ∧ 2 ^ 63 ≤ d * 2 ^ s ∧ d * 2 ^ s < 2 ^ 64 := by
  have hlo := Nat.div_mul_le_self d (2 ^ 32)
  have hhi : d < (d / 2 ^ 32 + 1) * 2 ^ 32 := by omega
  generalize d / 2 ^ 32 = e at *
  have he : 0 < e := Nat.pos_of_mul_pos_right (lt_of_lt_of_le (by decide) h1)
  have hs : s < 32 := (Nat.pow_lt_pow_iff_right (a := 2) (by decide)).mp
    ((Nat.le_mul_of_pos_left _ he).trans_lt h2)
  have hp : 2 ^ (32 - s) * 2 ^ s = 2 ^ 32 := by rw [← pow_add, Nat.sub_add_cancel hs.le]
  have he1 : e + 1 ≤ 2 ^ (32 - s) := lt_of_mul_lt_mul_right (hp ▸ h2) (Nat.zero_le _)
  refine ⟨by omega, ?_, ?_⟩
  · calc 2 ^ 63 = 2 ^ 31 * 2 ^ 32 := rfl
      _ ≤ e * 2 ^ s * 2 ^ 32 := Nat.mul_le_mul_right _ h1
      _ = e * 2 ^ 32 * 2 ^ s := mul_right_comm ..
      _ ≤ d * 2 ^ s := Nat.mul_le_mul_right _ hlo
  · calc d * 2 ^ s < (e + 1) * 2 ^ 32 * 2 ^ s :=
          Nat.mul_lt_mul_of_pos_right hhi (Nat.two_pow_pos s)
      _ ≤ 2 ^ (32 - s) * 2 ^ 32 * 2 ^ s := by gcongr
      _ = 2 ^ 32 * 2 ^ 32 := by rw [mul_right_comm, hp]

theorem estimate {n d s : ℕ} (hs : s ≤ 31) (hn : n < 2 ^ 64) (h1 : 2 ^ 63 ≤ d * 2 ^ s) :
    n / d ≤ n / 2 / (d * 2 ^ s / 2 ^ 32) / 2 ^ (31 - s) ∧
      n / 2 / (d * 2 ^ s / 2 ^ 32) / 2 ^ (31 - s) ≤ n / d + 1 := by
  obtain ⟨v, hv⟩ : ∃ v, v = d * 2 ^ s / 2 ^ 32 := ⟨_, rfl⟩
  rw [← hv, Nat.div_div_eq_div_mul, Nat.div_div_eq_div_mul]
  have hp : 2 ^ s * 2 ^ (31 - s) = 2 ^ 31 := by rw [← pow_add, Nat.add_sub_cancel' hs]
  obtain ⟨r, hr⟩ : ∃ r, 2 ^ (31 - s) = r + 1 :=
    Nat.exists_eq_succ_of_ne_zero (Nat.two_pow_pos (31 - s)).ne'
  have ha := Nat.two_pow_pos s
  rw [hr] at hp ⊢
  generalize 2 ^ s = a at *
  have hlo : v * 2 ^ 32 ≤ d * a := hv ▸ Nat.div_mul_le_self _ _
  have hhi : d * a < (v + 1) * 2 ^ 32 := by omega
  -- the number that `n` is divided by
  obtain ⟨e, he⟩ : ∃ e, e = 2 * (v * (r + 1)) := ⟨_, rfl⟩
  have hea : e * a = v * 2 ^ 32 := by
    rw [he, show 2 ^ 32 = 2 * 2 ^ 31 from rfl, ← hp]
    ring
  have hed : e ≤ d := le_of_mul_le_mul_right (hea ▸ hlo) ha
  have hde : d < e + 2 * (r + 1) := by
    refine lt_of_mul_lt_mul_right (hhi.trans_eq ?_) (Nat.zero_le a)
    rw [add_mul, add_mul, hea, show 2 ^ 32 = 2 * 2 ^ 31 from rfl, ← hp]
    ring
  have hq : n / d < 2 * a := Nat.div_lt_of_lt_mul (by nlinarith)
  have her : 2 ^ 32 * (r + 1) ≤ e := by nlinarith [show 2 ^ 31 ≤ v by omega]
  rw [← he]
  refine ⟨Nat.div_le_div_left hed (by omega), Nat.le_of_lt_succ (Nat.div_lt_of_lt_mul ?_)⟩
  have hgap : (2 * r + 1) * (2 * a) ≤ e := by
    rcases Nat.eq_zero_or_pos r with rfl | hr
    · omega
    · nlinarith
  calc n < d * (n / d + 1) := Nat.lt_mul_div_succ n (by omega)
    _ ≤ (e + (2 * r + 1)) * (n / d + 1) := Nat.mul_le_mul_right _ (by omega)
    _ = e * (n / d + 1) + (2 * r + 1) * (n / d + 1) := add_mul ..
    _ ≤ e * (n / d + 1) + (2 * r + 1) * (2 * a) := by gcongr; exact hq
    _ ≤ e * (n / d + 1 + 1) := by rw [mul_add e (n / d + 1), mul_one]; gcongr

theorem unsigned64_eq {x : ℕ} (h : x < 2 ^ 64) : unsigned64 x = x := by
  unfold unsigned64
  omega

theorem divl_eq {n d : ℕ} (h : n / 2 ^ 32 < d) : divl n d = some (n / d) := if_pos h

theorem udiv64_small {n d : ℕ} (hn : n < 2 ^ 64) (h : 0 < d) (hd : d / 2 ^ 32 = 0) :
    udiv64 n d = some (n / d) := by
  have hr := Nat.mod_lt (n / 2 ^ 32) h
  have hdiv : (2 ^ 32 * (n / 2 ^ 32 % d) + n % 2 ^ 32) / d + 2 ^ 32 * (n / 2 ^ 32 / d) = n / d := by
    have hprt := Nat.div_add_mod (n / 2 ^ 32) d
    rw [← Nat.add_mul_div_left _ _ h, mul_left_comm]
    congr 1
    omega
  simp only [udiv64, if_pos hd, divl_eq (show (2 ^ 32 * (n / 2 ^ 32 % d) + n % 2 ^ 32) / 2 ^ 32 < d by
    omega), bind_eq_bind, bind_some, hdiv, Nat.mod_eq_of_lt ((Nat.div_le_self n d).trans_lt hn)]

theorem udiv64_large {n d : ℕ} (hn : n < 2 ^ 64) (hd : d / 2 ^ 32 ≠ 0) (hle : d ≤ n) :
    udiv64 n d = some (n / d) := by
  have hspec := nlz_spec (pos_of_ne_zero hd) (by omega)
  simp only [udiv64, if_neg hd, if_neg (not_lt.mpr hle)]
  generalize nlz (d / 2 ^ 32) = s at *
  obtain ⟨hs, hlo, hhi⟩ := normalized hspec.1 hspec.2
  have hest := estimate hs hn hlo
  rw [Nat.mod_eq_of_lt hhi, divl_eq (by omega)]
  simp only [bind_eq_bind, bind_some, some.injEq]
  generalize n / 2 / (d * 2 ^ s / 2 ^ 32) / 2 ^ (31 - s) = q at *
  have hpos : 0 < n / d := Nat.div_pos hle (by omega)
  have hmod := Nat.mod_lt n (show d > 0 by omega)
  have hprt := Nat.div_add_mod' n d
  generalize n / d = k at *
  obtain ⟨l, rfl⟩ : ∃ l, q = l + 1 := Nat.exists_eq_succ_of_ne_zero (by omega)
  have hl : l * d ≤ n := (Nat.mul_le_mul_right d (Nat.le_of_succ_le_succ hest.2)).trans (by omega)
  have hless : unsigned64 ((l + 1 : ℕ) - 1) = l := by
    rw [Nat.cast_succ, add_sub_cancel_right]
    exact unsigned64_eq (lt_of_le_of_lt (Nat.le_mul_of_pos_right l (by omega)) (hl.trans_lt hn))
  have hsub : unsigned64 (n - l * d) = n - l * d := by
    rw [← unsigned64_eq (show n - l * d < 2 ^ 64 by omega), Nat.cast_sub hl, Nat.cast_mul]
  rw [hless]
  obtain rfl | rfl : k = l ∨ k = l + 1 := by omega
  · exact if_pos (by omega)
  · rw [Nat.succ_mul] at hprt
    exact if_neg (by omega)

theorem udiv64_eq {n d : ℕ} (hn : n < 2 ^ 64) (h : 0 < d) : udiv64 n d = some (n / d) := by
  by_cases hd : d / 2 ^ 32 = 0
  · exact udiv64_small hn h hd
  · by_cases hle : d ≤ n
    · exact udiv64_large hn hd hle
    · rw [udiv64, if_neg hd, if_pos (by omega), Nat.div_eq_of_lt (by omega)]

theorem tdiv_eq (n d : ℤ) : n.tdiv d = if n < 0 ↔ d < 0 then ((n.natAbs / d.natAbs : ℕ) : ℤ)
    else -((n.natAbs / d.natAbs : ℕ) : ℤ) := by
  have habs : (n.tdiv d).natAbs = n.natAbs / d.natAbs := Int.natAbs_tdiv n d
  have hpp := @Int.tdiv_nonneg n d
  have hpn := @Int.tdiv_nonneg n (-d)
  have hnp := @Int.tdiv_nonneg (-n) d
  have hnn := @Int.tdiv_nonneg (-n) (-d)
  simp only [Int.neg_tdiv, Int.tdiv_neg] at hpn hnp hnn
  split_ifs <;> omega

theorem sdiv64_eq {n d : ℤ} (hn : -2 ^ 63 ≤ n ∧ n < 2 ^ 63) (hd : -2 ^ 63 ≤ d ∧ d < 2 ^ 63)
    (h : d ≠ 0) : sdiv64 n d = some ((n.tdiv d).bmod (2 ^ 64)) := by
  have habs {x : ℤ} (hx : -2 ^ 63 ≤ x ∧ x < 2 ^ 63) :
      (if 0 ≤ x then x.toNat else unsigned64 (-x)) = x.natAbs := by
    unfold unsigned64
    split_ifs <;> omega
  rw [tdiv_eq]
  simp only [sdiv64, habs hn, habs hd, bind_eq_bind, bind_some,
    udiv64_eq (show n.natAbs < 2 ^ 64 by omega) (Int.natAbs_pos.mpr h), some.injEq]
  split_ifs
  · rfl
  · exact Int.bmod_neg_bmod

/-- A quotient fits in 64 bits, except for that of the lowest number by `-1`. -/
theorem bmod_tdiv {n d : ℤ} (hn : -2 ^ 63 ≤ n ∧ n < 2 ^ 63) (h : ¬ (n = -2 ^ 63 ∧ d = -1)) :
    (n.tdiv d).bmod (2 ^ 64) = n.tdiv d := by
  have habs : (n.tdiv d).natAbs = n.natAbs / d.natAbs := Int.natAbs_tdiv n d
  have hle := Nat.div_le_self n.natAbs d.natAbs
  refine Int.bmod_eq_of_le (by omega) (lt_of_not_ge fun hge => ?_)
  have hd : d.natAbs < 2 := by
    by_contra h2
    have : n.natAbs / d.natAbs ≤ n.natAbs / 2 := Nat.div_le_div_left (not_lt.mp h2) (by decide)
    omega
  obtain rfl | rfl | rfl : d = 0 ∨ d = 1 ∨ d = -1 := by omega
  · simp at hge
  · rw [Int.tdiv_one] at hge
    omega
  · omega

/-- **Division.**  The results are the quotients, and no DIVL raises a divide error. -/
theorem division_exact (n d : ℕ) (hn : n < 2 ^ 64) (h : d ≠ 0) (m e : ℤ)
    (hm : -2 ^ 63 ≤ m ∧ m < 2 ^ 63) (he : -2 ^ 63 ≤ e ∧ e < 2 ^ 63) (h' : e ≠ 0)
    (hover : ¬ (m = -2 ^ 63 ∧ e = -1)) :
    udiv64 n d = some (n / d) ∧ sdiv64 m e = some (m.tdiv e) :=
  ⟨udiv64_eq hn (Nat.pos_of_ne_zero h), by rw [sdiv64_eq hm he h', bmod_tdiv hm hover]⟩

theorem division_exact_large : udiv64 (2 ^ 64 - 1) (2 ^ 32 + 1) = some (2 ^ 32 - 1) ∧
    sdiv64 (-7) 2 = some (-3) :=
  division_exact _ _ (by decide) (by decide) (-7) 2 (by decide) (by decide) (by decide) (by decide)

/-! ### Remainders -/

/-- **Remainders.**  They are exact if and only if they fit in 32 bits. -/
theorem remainders_exact_iff (n d : ℕ) (hn : n < 2 ^ 64) (h : d ≠ 0) (m e : ℤ)
    (hm : -2 ^ 63 ≤ m ∧ m < 2 ^ 63) (he : -2 ^ 63 ≤ e ∧ e < 2 ^ 63) (h' : e ≠ 0)
    (hover : ¬ (m = -2 ^ 63 ∧ e = -1)) :
    (umod64 n d = some (n % d) ↔ n % d < 2 ^ 32) ∧
      (smod64 m e = some (m.tmod e) ↔ -2 ^ 31 ≤ m.tmod e ∧ m.tmod e < 2 ^ 31) := by
  have hsub : unsigned64 (n - d * (n / d : ℕ)) = n % d := by
    have hprt := Nat.div_add_mod n d
    rw [← unsigned64_eq ((Nat.mod_le n d).trans_lt hn), Nat.mod_def, Nat.cast_sub (by omega),
      Nat.cast_mul]
  simp only [umod64, udiv64_eq hn (Nat.pos_of_ne_zero h), smod64, sdiv64_eq hm he h',
    bmod_tdiv hm hover, bind_eq_bind, bind_some, some.injEq, ← Int.tmod_def, Int.bmod_def]
  omega

theorem remainders_exact_small : umod64 7 4 = some 3 ∧ smod64 (-7) 4 = some (-3) :=
  (remainders_exact_iff 7 4 (by decide) (by decide) (-7) 4 (by decide) (by decide) (by decide)
    (by decide)).imp (·.mpr (by decide)) (·.mpr (by decide))

/-- The remainders are `2 ^ 32` and `-2 ^ 32`. -/
theorem remainder_truncated : umod64 (2 ^ 32) (2 ^ 33) = some 0 ∧
    smod64 (-2 ^ 32) (2 ^ 33) = some 0 := by
  decide

end Pintos.Arithmetic
