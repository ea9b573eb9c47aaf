import Mathlib.Data.List.GetD
import Mathlib.Tactic.Ring

/-! # Bytes

Memory regions and growable arrays of bytes.

* **Regions.**  A region is a function from positions to bytes; `overwrite` copies a buffer into it
  and `slice` copies a buffer out of it.
* **Numbers.**  `word w f` is the little-endian number in the first `w` bytes of `f`, and `byte n`
  are the bytes of `n`.
* **Arrays.**  A list of bytes is a growable array: it reads as zero beyond its end (`region`) and
  `write` extends it with zeros as far as is needed. -/

namespace Bytes
open Function List

/-! ### Regions -/

/-- The region with the bytes of `buf` copied over it from `offset` on. -/
def overwrite (f : ℕ → UInt8) (offset : ℕ) (buf : List UInt8) : ℕ → UInt8 := fun j =>
  if offset ≤ j then buf[j - offset]?.getD (f j) else f j

/-- The `size` bytes from `offset` on. -/
def slice (f : ℕ → UInt8) (offset : ℕ) : (size : ℕ) → List UInt8
  | 0 => []
  | size + 1 => f offset :: slice f (offset + 1) size

section
variable {f g : ℕ → UInt8} {offset j : ℕ} {buf : List UInt8}

theorem overwrite_of_outside (h : j < offset ∨ offset + buf.length ≤ j) :
    overwrite f offset buf j = f j := by
  unfold overwrite
  by_cases ho : offset ≤ j
  · rw [if_pos ho, getElem?_eq_none (by omega)]
    rfl
  · rw [if_neg ho]

theorem overwrite_of_inside (h : offset ≤ j) (h' : j < offset + buf.length) :
    overwrite f offset buf j = buf.getD (j - offset) 0 := by
  have hlt : j - offset < buf.length := by omega
  unfold overwrite
  rw [if_pos h, getElem?_eq_getElem hlt, getD_eq_getElem _ _ hlt]
  rfl

@[simp] theorem overwrite_nil : overwrite f offset [] = f := by
  funext j
  exact overwrite_of_outside (by simp only [length_nil]; omega)

theorem overwrite_singleton (f : ℕ → UInt8) (offset : ℕ) (b : UInt8) :
    overwrite f offset [b] = update f offset b := by
  funext j
  by_cases hj : j = offset
  · rw [hj, overwrite_of_inside le_rfl (by simp)]
    simp
  · rw [update_of_ne hj, overwrite_of_outside]
    rw [length_singleton]
    omega

/-- Copying two buffers one after the other is copying them at once. -/
theorem overwrite_append (f : ℕ → UInt8) (offset : ℕ) (buf buf' : List UInt8) :
    overwrite f offset (buf ++ buf') =
      overwrite (overwrite f offset buf) (offset + buf.length) buf' := by
  funext j
  have hlen : (buf ++ buf').length = buf.length + buf'.length := length_append
  by_cases h1 : offset + buf.length ≤ j
  · by_cases h2 : j < offset + buf.length + buf'.length
    · rw [overwrite_of_inside (by omega) (by omega), overwrite_of_inside h1 h2,
        getD_append_right _ _ _ _ (by omega)]
      congr 1
      omega
    · rw [overwrite_of_outside (by omega), overwrite_of_outside (by omega),
        overwrite_of_outside (by omega)]
  · rw [overwrite_of_outside (f := overwrite f offset buf) (by omega)]
    by_cases h2 : offset ≤ j
    · rw [overwrite_of_inside h2 (by omega), overwrite_of_inside h2 (by omega),
        getD_append _ _ _ _ (by omega)]
    · rw [overwrite_of_outside (by omega), overwrite_of_outside (by omega)]

/-- A window of an overwritten region is the window, overwritten. -/
theorem overwrite_add (f : ℕ → UInt8) (base offset : ℕ) (buf : List UInt8) (j : ℕ) :
    overwrite f (base + offset) buf (base + j) =
      overwrite (fun i => f (base + i)) offset buf j := by
  unfold overwrite
  by_cases h : offset ≤ j
  · rw [if_pos (by omega), if_pos h, show base + j - (base + offset) = j - offset by omega]
  · rw [if_neg (by omega), if_neg h]

@[simp] theorem length_slice (f : ℕ → UInt8) (offset size : ℕ) :
    (slice f offset size).length = size := by
  induction size generalizing offset with
  | zero => rfl
  | succ size ih => rw [slice, length_cons, ih]

@[simp] theorem slice_zero (f : ℕ → UInt8) (offset : ℕ) : slice f offset 0 = [] := rfl

theorem getD_slice (h : j < size) : (slice f offset size).getD j 0 = f (offset + j) := by
  induction size generalizing offset j with
  | zero => omega
  | succ size ih =>
    cases j with
    | zero => rfl
    | succ j =>
      rw [slice, getD_cons_succ, ih (by omega)]
      congr 1
      omega

theorem slice_congr (h : ∀ j < size, f (offset + j) = g (offset' + j)) :
    slice f offset size = slice g offset' size := by
  induction size generalizing offset offset' with
  | zero => rfl
  | succ size ih =>
    rw [slice, slice, ih fun j hj => ?_]
    · rw [show f offset = g offset' from h 0 (by omega)]
    · have := h (j + 1) (by omega)
      rwa [show offset + (j + 1) = offset + 1 + j by omega,
        show offset' + (j + 1) = offset' + 1 + j by omega] at this

theorem slice_eq_map (f : ℕ → UInt8) (offset size : ℕ) :
    slice f offset size = (range size).map fun j => f (offset + j) := by
  apply ext_getElem
  · simp
  · intro j h1 h2
    rw [← getD_eq_getElem _ 0, getD_slice (by simpa using h1)]
    simp

/-- Adjacent slices are one slice. -/
theorem slice_add (f : ℕ → UInt8) (offset m n : ℕ) :
    slice f offset (m + n) = slice f offset m ++ slice f (offset + m) n := by
  induction m generalizing offset with
  | zero => rw [zero_add, slice_zero, nil_append, Nat.add_zero]
  | succ m ih =>
    rw [add_right_comm, slice, slice, ih, cons_append, add_assoc offset 1 m,
      add_comm 1 m]

end

/-! ### Little-endian numbers -/

/-- The byte of weight `256 ^ i` of `n`. -/
def byte (n i : ℕ) : UInt8 := UInt8.ofNat (n / 256 ^ i)

/-- The number that the first `w` bytes of `f` stand for. -/
def word : ℕ → (ℕ → UInt8) → ℕ
  | 0, _ => 0
  | w + 1, f => (f 0).toNat + 256 * word w fun i => f (i + 1)

theorem word_congr (h : ∀ i < w, f i = g i) : word w f = word w g := by
  induction w generalizing f g with
  | zero => rfl
  | succ w ih =>
    unfold word
    rw [h 0 (by omega), ih fun i hi => h (i + 1) (by omega)]

theorem word_byte (w n : ℕ) : word w (byte n) = n % 256 ^ w := by
  induction w generalizing n with
  | zero => simp [word, Nat.mod_one]
  | succ w ih =>
    have hshf : (fun i => byte n (i + 1)) = byte (n / 256) := by
      funext i
      simp [byte, Nat.pow_succ, Nat.div_div_eq_div_mul, mul_comm 256]
    have h0 : (byte n 0).toNat = n % 256 := by simp [byte]
    unfold word
    rw [hshf, ih, h0, pow_succ', Nat.mod_mul]

theorem word_byte_of_lt (h : n < 256 ^ w) : word w (byte n) = n := by
  rw [word_byte, Nat.mod_eq_of_lt h]

theorem byte_word (h : i < w) (f : ℕ → UInt8) : byte (word w f) i = f i := by
  induction w generalizing f i with
  | zero => omega
  | succ w ih =>
    have hlt := (f 0).toNat_lt
    cases i with
    | zero =>
      rw [byte, word]
      apply UInt8.toNat_inj.mp
      rw [UInt8.toNat_ofNat']
      omega
    | succ i =>
      rw [← ih (by omega) fun i => f (i + 1), byte, word, pow_succ', ← Nat.div_div_eq_div_mul]
      congr 2
      omega

/-! ### Growable arrays -/

/-- The bytes of an array, with zeros behind them. -/
def region (xs : List UInt8) : ℕ → UInt8 := fun i => xs.getD i 0

/-- The array with `buf` written at `offset`, extended with zeros as far as needed. -/
def write (xs : List UInt8) (offset : ℕ) (buf : List UInt8) : List UInt8 :=
  slice (overwrite (region xs) offset buf) 0 (max xs.length (offset + buf.length))

@[simp] theorem length_write (xs : List UInt8) (offset : ℕ) (buf : List UInt8) :
    (write xs offset buf).length = max xs.length (offset + buf.length) :=
  length_slice _ _ _

theorem region_of_length_le (h : xs.length ≤ i) : region xs i = 0 :=
  getD_eq_default _ _ h

theorem region_replicate (n : ℕ) : region (replicate n 0) = fun _ => 0 := by
  funext i
  simp only [region, getD_eq_getElem?_getD, getElem?_replicate]
  split_ifs <;> rfl

/-- Writing to an array is overwriting its region. -/
theorem region_write (xs : List UInt8) (offset : ℕ) (buf : List UInt8) :
    region (write xs offset buf) = overwrite (region xs) offset buf := by
  funext i
  by_cases h : i < max xs.length (offset + buf.length)
  · rw [region, write, getD_slice h, zero_add]
  · rw [region_of_length_le (by rw [length_write]; omega),
      overwrite_of_outside (by omega), region_of_length_le (by omega)]

/-- The part of an array that a read of `size` bytes at `offset` can see. -/
theorem slice_region (xs : List UInt8) (offset size : ℕ) :
    slice (region xs) offset (min size (xs.length - offset)) = (xs.drop offset).take size := by
  apply ext_getElem
  · simp
  · intro i h1 h2
    have hi : i < min size (xs.length - offset) := by simpa using h1
    rw [← getD_eq_getElem _ 0, getD_slice hi, region,
      getD_eq_getElem _ _ (by omega)]
    simp

theorem region_slice_zero (h : ∀ j, n ≤ j → F j = 0) : region (slice F 0 n) = F := by
  funext j
  by_cases hj : j < n
  · rw [region, getD_slice hj, zero_add]
  · rw [region_of_length_le (by simpa using hj), h j (by omega)]

theorem eq_of_region_eq (hlen : xs.length = ys.length) (h : region xs = region ys) : xs = ys := by
  refine ext_getElem hlen fun j hx hy => ?_
  have hj := congrFun h j
  rwa [region, region, getD_eq_getElem _ _ hx, getD_eq_getElem _ _ hy] at hj

end Bytes
