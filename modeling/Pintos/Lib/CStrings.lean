import Mathlib.Data.List.TakeWhile
import Pintos.Lib.Bytes

/-! # Strings in memory

A string is a list of characters, none of which is zero, that stands in a region of bytes with a zero
behind it (`StringAt`).

* **Loops.**  `skip p` is the loop that goes on as long as `p` holds for the character.  In a string
  it ends at the first character that does not have the property, or at the zero (`skip_eq`).
* **Frames.**  A string only depends on its own bytes (`StringAt.congr`), and copying the bytes of a
  string with the zero makes a string (`stringAt_overwrite`). -/

namespace CStrings
open Bytes Function List

/-- The region `f` has the string `cs` at `a`. -/
def StringAt (f : ℕ → UInt8) : ℕ → List UInt8 → Prop
  | a, [] => f a = 0
  | a, c :: cs => f a = c ∧ c ≠ 0 ∧ StringAt f (a + 1) cs

instance instDecidableStringAt (f : ℕ → UInt8) :
    (a : ℕ) → (cs : List UInt8) → Decidable (StringAt f a cs)
  | a, [] => inferInstanceAs (Decidable (f a = 0))
  | a, c :: cs =>
    have := instDecidableStringAt f (a + 1) cs
    inferInstanceAs (Decidable (f a = c ∧ c ≠ 0 ∧ StringAt f (a + 1) cs))

/-- The first position from `s` on at which `p` does not hold. -/
def skip (p : UInt8 → Bool) (f : ℕ → UInt8) : (fuel s : ℕ) → Option ℕ
  | 0, _ => none
  | fuel + 1, s => if p (f s) then skip p f fuel (s + 1) else some s

variable {f g : ℕ → UInt8} {a b s fuel : ℕ} {cs ds : List UInt8} {c : UInt8} {p : UInt8 → Bool}

@[simp] theorem stringAt_nil : StringAt f a [] ↔ f a = 0 := Iff.rfl

theorem StringAt.ne_zero (h : StringAt f a cs) : ∀ c ∈ cs, c ≠ 0 := by
  induction cs generalizing a with
  | nil => simp
  | cons c cs ih =>
    intro d hd
    rcases mem_cons.mp hd with rfl | hd
    · exact h.2.1
    · exact ih h.2.2 d hd

theorem StringAt.nul (h : StringAt f a cs) : f (a + cs.length) = 0 := by
  induction cs generalizing a with
  | nil => exact h
  | cons c cs ih =>
    have := ih h.2.2
    rwa [length_cons, show a + (cs.length + 1) = a + 1 + cs.length by omega]

/-- The characters of a string, with the zero. -/
theorem StringAt.slice_eq (h : StringAt f a cs) : slice f a (cs.length + 1) = cs ++ [0] := by
  induction cs generalizing a with
  | nil => rw [length_nil, slice, slice_zero, show f a = 0 from h, nil_append]
  | cons c cs ih =>
    obtain ⟨rfl, -, hcs⟩ := h
    rw [length_cons, slice, ih hcs]
    rfl

/-- The first characters of a string. -/
theorem StringAt.slice_take (h : StringAt f a cs) (hn : n ≤ cs.length) :
    slice f a n = cs.take n := by
  have hall := h.slice_eq
  rw [show cs.length + 1 = n + (cs.length + 1 - n) by omega, slice_add] at hall
  have htake := congrArg (take n) hall
  rwa [take_append_of_le_length (by simp), take_append_of_le_length hn,
    take_of_length_le (by simp)] at htake

/-- A string from a position on. -/
theorem StringAt.drop (h : StringAt f a (cs ++ ds)) : StringAt f (a + cs.length) ds := by
  induction cs generalizing a with
  | nil => exact h
  | cons c cs ih =>
    have := ih h.2.2
    rwa [length_cons, show a + (cs.length + 1) = a + 1 + cs.length by omega]

theorem StringAt.congr (h : StringAt f a cs) (hfg : ∀ j ≤ cs.length, g (b + j) = f (a + j)) :
    StringAt g b cs := by
  induction cs generalizing a b with
  | nil => exact (hfg 0 le_rfl).trans h
  | cons c cs ih =>
    refine ⟨(hfg 0 (by omega)).trans h.1, h.2.1, ih h.2.2 fun j hj => ?_⟩
    have := hfg (j + 1) (by simp only [length_cons]; omega)
    rwa [show b + (j + 1) = b + 1 + j by omega, show a + (j + 1) = a + 1 + j by omega] at this

/-- A string that is cut off by a zero. -/
theorem StringAt.cut (h : StringAt f a (cs ++ ds)) :
    StringAt (update f (a + cs.length) 0) a cs := by
  induction cs generalizing a with
  | nil => exact update_self ..
  | cons c cs ih =>
    have := ih h.2.2
    refine ⟨?_, h.2.1, ?_⟩
    · rw [update_of_ne (by simp only [length_cons]; omega)]
      exact h.1
    · rwa [length_cons, show a + (cs.length + 1) = a + 1 + cs.length by omega]

theorem stringAt_overwrite (hcs : ∀ c ∈ cs, c ≠ 0) : StringAt (overwrite f a (cs ++ [0])) a cs := by
  induction cs generalizing f a with
  | nil =>
    rw [stringAt_nil, overwrite_of_inside le_rfl (by simp)]
    simp
  | cons c cs ih =>
    rw [cons_append, show c :: (cs ++ [0]) = [c] ++ (cs ++ [0]) from rfl, overwrite_append]
    refine ⟨?_, hcs c (by simp), ih fun d hd => hcs d (by simp [hd])⟩
    rw [overwrite_of_outside (.inl (by simp)), overwrite_of_inside le_rfl (by simp)]
    simp

/-- Where a loop over the characters of a string ends. -/
theorem skip_eq (h : StringAt f s cs) (hp : p 0 = false) (hfuel : cs.length < fuel) :
    skip p f fuel s = some (s + (cs.takeWhile p).length) := by
  induction cs generalizing s fuel with
  | nil =>
    obtain ⟨fuel, rfl⟩ := Nat.exists_eq_add_of_lt hfuel
    rw [skip, show f s = 0 from h, hp]
    rfl
  | cons c cs ih =>
    obtain ⟨rfl, -, hcs⟩ := h
    cases fuel with
    | zero => simp at hfuel
    | succ fuel =>
      rw [skip]
      by_cases hc : p (f s) = true
      · rw [if_pos hc, ih hcs (by simpa using hfuel), takeWhile_cons_of_pos hc, length_cons]
        congr 1
        omega
      · rw [if_neg hc, takeWhile_cons_of_neg hc]
        rfl

end CStrings
