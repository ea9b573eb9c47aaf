import Pintos.Vm.Frames

/-! # Pointers that a process passes to the kernel

`verify_pointer` of `userprog/syscall.c` in the build with virtual memory, and the check that `read`
and `write` make of a buffer.

* **Addresses.**  A pointer is a word of 32 bits, and `buffer + size` wraps around.
* **Tables.**  A supplemental page table has two levels, as `sup_get_entry` finds them.  `pageEntry`
  is the same table as a function on page numbers.
* **End points.**  The check looks at `buffer` and at `buffer + size`, which is one past the last
  byte, and at nothing in between.  `verifyBuffer_exact_iff` says when this comes to the same as
  looking at every byte. -/

namespace Pintos.Userprog
open Vm

def PHYS_BASE : BitVec 32 := 0xc0000000
def PTSHIFT : ℕ := 12
def PDSHIFT : ℕ := 22
def PTMASK : BitVec 32 := 0x003ff000

def isUserVaddr (vaddr : BitVec 32) : Bool := decide (vaddr < PHYS_BASE)

def pdNo (va : BitVec 32) : BitVec 32 := va >>> PDSHIFT

def ptNo (va : BitVec 32) : BitVec 32 := (va &&& PTMASK) >>> PTSHIFT

/-- A supplemental page table.  A null pointer is `none`. -/
abbrev SupPagedir := ℕ → Option (ℕ → Option SupEntry)

def supGetEntry (upage : BitVec 32) (supPagedir : SupPagedir) : Option SupEntry :=
  match supPagedir (pdNo upage).toNat with
  | none => none
  | some table => table (ptNo upage).toNat

/-- The process exits (`none`) if it has no page at `p`. -/
def verifyPointer (supPagedir : SupPagedir) (p : BitVec 32) : Option (BitVec 32) :=
  if isUserVaddr p && (supGetEntry p supPagedir).isSome then some p else none

/-- What `read` and `write` do with their arguments first. -/
def verifyBuffer (supPagedir : SupPagedir) (buffer size : BitVec 32) : Option Unit := do
  let _ ← verifyPointer supPagedir buffer
  let _ ← verifyPointer supPagedir (buffer + size)
  return

/-! ### Page numbers -/

/-- The entry for a page. -/
def pageEntry (supPagedir : SupPagedir) (page : ℕ) : Option SupEntry :=
  (supPagedir (page / 1024)).bind fun table => table (page % 1024)

/-- The first page of the kernel. -/
def KERNEL_PAGE : ℕ := PHYS_BASE.toNat / PGSIZE

/-- A page of the process. -/
def UserPage (supPagedir : SupPagedir) (page : ℕ) : Prop :=
  page < KERNEL_PAGE ∧ (pageEntry supPagedir page).isSome

instance (supPagedir : SupPagedir) (page : ℕ) : Decidable (UserPage supPagedir page) :=
  inferInstanceAs (Decidable (_ ∧ _))

section
variable {sup : SupPagedir} {b n p : BitVec 32}

theorem toNat_pdNo (va : BitVec 32) : (pdNo va).toNat = va.toNat / PGSIZE / 1024 := by
  rw [pdNo, BitVec.toNat_ushiftRight, Nat.shiftRight_eq_div_pow, Nat.div_div_eq_div_mul]
  rfl

theorem toNat_ptNo (va : BitVec 32) : (ptNo va).toNat = va.toNat / PGSIZE % 1024 := by
  have hmask : PTMASK.toNat = (2 ^ 10 - 1) <<< 12 := by decide
  rw [ptNo, BitVec.toNat_ushiftRight, BitVec.toNat_and, hmask, show PTSHIFT = 12 from rfl,
    Nat.shiftRight_and_distrib, Nat.shiftLeft_shiftRight, Nat.and_two_pow_sub_one_eq_mod,
    Nat.shiftRight_eq_div_pow]
  rfl

theorem supGetEntry_eq (va : BitVec 32) (sup : SupPagedir) :
    supGetEntry va sup = pageEntry sup (va.toNat / PGSIZE) := by
  rw [supGetEntry, pageEntry, toNat_pdNo, toNat_ptNo]
  cases sup (va.toNat / PGSIZE / 1024) <;> rfl

theorem isUserVaddr_iff : isUserVaddr p = true ↔ p.toNat / PGSIZE < KERNEL_PAGE := by
  have hbase : PHYS_BASE.toNat = 3221225472 := by decide
  rw [isUserVaddr, decide_eq_true_iff, BitVec.lt_def, KERNEL_PAGE, PGSIZE]
  omega

theorem isSome_verifyPointer : (verifyPointer sup p).isSome ↔ UserPage sup (p.toNat / PGSIZE) := by
  rw [verifyPointer, UserPage, ← supGetEntry_eq, ← isUserVaddr_iff]
  split_ifs with h
  · simpa using h
  · simpa using h

theorem isSome_verifyBuffer : (verifyBuffer sup b n).isSome ↔
    UserPage sup (b.toNat / PGSIZE) ∧ UserPage sup ((b + n).toNat / PGSIZE) := by
  rw [← isSome_verifyPointer, ← isSome_verifyPointer, verifyBuffer]
  cases verifyPointer sup b <;> cases verifyPointer sup (b + n) <;> simp

end

/-! ### Buffers -/

/-- No byte of the buffer is beyond the last address, and all are in pages of the process. -/
def ValidBuffer (supPagedir : SupPagedir) (buffer size : BitVec 32) : Prop :=
  size = 0 ∨ buffer.toNat + size.toNat ≤ 2 ^ 32 ∧
    ∀ k < size.toNat, UserPage supPagedir ((buffer.toNat + k) / PGSIZE)

/-- What is to hold of a table and a buffer for the check to be right. -/
structure Exact (supPagedir : SupPagedir) (buffer size : BitVec 32) : Prop where
  /-- The address of an empty buffer is in a page of the process. -/
  empty : size = 0 → UserPage supPagedir (buffer.toNat / PGSIZE)
  /-- If both end points are in pages of the process, then the buffer does not wrap around, and there
  is no hole in it. -/
  solid : size ≠ 0 → UserPage supPagedir (buffer.toNat / PGSIZE) →
    UserPage supPagedir ((buffer + size).toNat / PGSIZE) →
    buffer.toNat + size.toNat < 2 ^ 32 ∧ ∀ page, buffer.toNat / PGSIZE < page →
      page < (buffer.toNat + size.toNat) / PGSIZE → (pageEntry supPagedir page).isSome
  /-- If the buffer ends with a page and is in pages of the process, then so is the next page. -/
  followed : size ≠ 0 → buffer.toNat + size.toNat < 2 ^ 32 →
    (buffer.toNat + size.toNat) % PGSIZE = 0 →
    (∀ page, buffer.toNat / PGSIZE ≤ page → page < (buffer.toNat + size.toNat) / PGSIZE →
      UserPage supPagedir page) →
    UserPage supPagedir ((buffer.toNat + size.toNat) / PGSIZE)

section
variable {sup : SupPagedir} {b n : BitVec 32} {Q : ℕ → Prop}

theorem forall_bytes_iff (hl : 0 < l) : (∀ k < l, Q ((a + k) / PGSIZE)) ↔
    ∀ page, a / PGSIZE ≤ page → page ≤ (a + l - 1) / PGSIZE → Q page := by
  unfold PGSIZE
  constructor
  · intro h page hlo hhi
    by_cases hfir : page = a / 4096
    · have := h 0 hl
      rwa [Nat.add_zero, ← hfir] at this
    · have := h (4096 * page - a) (by omega)
      rwa [show (a + (4096 * page - a)) / 4096 = page by omega] at this
  · intro h k hk
    exact h _ (by omega) (by omega)

theorem toNat_add_of_lt (h : b.toNat + n.toNat < 2 ^ 32) : (b + n).toNat = b.toNat + n.toNat := by
  rw [BitVec.toNat_add, Nat.mod_eq_of_lt h]

theorem toNat_pos (h : n ≠ 0) : 0 < n.toNat :=
  pos_of_ne_zero fun h0 => h (BitVec.eq_of_toNat_eq h0)

theorem validBuffer_iff (hn : n ≠ 0) : ValidBuffer sup b n ↔ b.toNat + n.toNat < 2 ^ 32 ∧
    ∀ page, b.toNat / PGSIZE ≤ page → page ≤ (b.toNat + n.toNat - 1) / PGSIZE →
      UserPage sup page := by
  have hpos := toNat_pos hn
  rw [ValidBuffer, or_iff_right hn, forall_bytes_iff hpos]
  refine ⟨fun ⟨hle, h⟩ => ⟨?_, h⟩, fun ⟨hlt, h⟩ => ⟨hlt.le, h⟩⟩
  have hlast := (h _ (Nat.div_le_div_right (by omega)) le_rfl).1
  rw [KERNEL_PAGE, PGSIZE] at hlast
  omega

theorem validBuffer_of_accepted (hn : n ≠ 0) (h : Exact sup b n)
    (hb : UserPage sup (b.toNat / PGSIZE)) (he : UserPage sup ((b + n).toNat / PGSIZE)) :
    ValidBuffer sup b n := by
  obtain ⟨hlt, hsld⟩ := h.solid hn hb he
  rw [toNat_add_of_lt hlt] at he
  refine (validBuffer_iff hn).mpr ⟨hlt, fun page hlo hhi => ?_⟩
  have hend : (b.toNat + n.toNat - 1) / PGSIZE ≤ (b.toNat + n.toNat) / PGSIZE :=
    Nat.div_le_div_right (Nat.sub_le _ _)
  rcases hlo.eq_or_lt with rfl | hlo
  · exact hb
  rcases (hhi.trans hend).eq_or_lt with rfl | hhi
  · exact he
  · exact ⟨hhi.trans he.1, hsld page hlo hhi⟩

theorem accepted_of_validBuffer (hn : n ≠ 0) (h : Exact sup b n) (hv : ValidBuffer sup b n) :
    UserPage sup (b.toNat / PGSIZE) ∧ UserPage sup ((b + n).toNat / PGSIZE) := by
  obtain ⟨hlt, hpgs⟩ := (validBuffer_iff hn).mp hv
  have hpos := toNat_pos hn
  refine ⟨hpgs _ le_rfl (Nat.div_le_div_right (by omega)), ?_⟩
  rw [toNat_add_of_lt hlt]
  by_cases hmod : (b.toNat + n.toNat) % PGSIZE = 0
  · refine h.followed hn hlt hmod fun page hlo hhi => hpgs page hlo ?_
    unfold PGSIZE at hhi ⊢
    omega
  · have hsame : (b.toNat + n.toNat) / PGSIZE = (b.toNat + n.toNat - 1) / PGSIZE := by
      unfold PGSIZE at hmod ⊢
      omega
    rw [hsame]
    exact hpgs _ (Nat.div_le_div_right (by omega)) le_rfl

theorem exact_of_iff (h : (verifyBuffer sup b n).isSome ↔ ValidBuffer sup b n) : Exact sup b n := by
  rw [isSome_verifyBuffer] at h
  refine ⟨fun hn => (h.mpr (.inl hn)).1, fun hn hb he => ?_, fun hn hlt hmod hpgs => ?_⟩
  · obtain ⟨hlt, hpgs⟩ := (validBuffer_iff hn).mp (h.mp ⟨hb, he⟩)
    refine ⟨hlt, fun page hlo hhi => (hpgs page hlo.le ?_).2⟩
    unfold PGSIZE at hhi ⊢
    omega
  · have hv := (validBuffer_iff hn).mpr ⟨hlt, fun page hlo hhi => hpgs page hlo
      (by unfold PGSIZE at hmod hhi ⊢; have := toNat_pos hn; omega)⟩
    have he := (h.mpr hv).2
    rwa [toNat_add_of_lt hlt] at he

/-- **Buffer validation.**  For every supplemental page table, buffer and size, the check of `read`
and `write` accepts exactly the buffers that are empty or have all their bytes in pages of the
process, if and only if the table and the buffer are as `Exact` says. -/
theorem verifyBuffer_exact_iff (supPagedir : SupPagedir) (buffer size : BitVec 32) :
    ((verifyBuffer supPagedir buffer size).isSome ↔ ValidBuffer supPagedir buffer size) ↔
      Exact supPagedir buffer size := by
  refine ⟨exact_of_iff, fun h => ?_⟩
  rw [isSome_verifyBuffer]
  by_cases hn : size = 0
  · subst hn
    rw [show buffer + 0 = buffer from BitVec.add_zero buffer, and_self]
    exact ⟨fun _ => .inl rfl, fun _ => h.empty rfl⟩
  · exact ⟨fun ⟨hb, he⟩ => validBuffer_of_accepted hn h hb he, accepted_of_validBuffer hn h⟩

end

/-- A table with the two pages `p` and `q`. -/
def twoPages (p q : ℕ) : SupPagedir := fun pd =>
  if pd = 0 then some fun pt =>
    if pt = p ∨ pt = q then
      some ⟨none, none, false, some 0, 0, PGSIZE, true, false, 0⟩
    else none
  else none

/-- A buffer with a hole is accepted; a whole page is refused, and so is an empty buffer. -/
theorem hole_accepted_page_refused :
    (verifyBuffer (twoPages 1 3) 0x1000 0x2000).isSome = true ∧
    ¬ ValidBuffer (twoPages 1 3) 0x1000 0x2000 ∧
    (verifyBuffer (twoPages 1 3) 0x1000 0x1000).isSome = false ∧
    ValidBuffer (twoPages 1 3) 0x1000 0x1000 ∧
    (verifyBuffer (twoPages 1 3) 0 0).isSome = false ∧ ValidBuffer (twoPages 1 3) 0 0 := by
  refine ⟨by decide, fun h => ?_, by decide, ?_, by decide, .inl rfl⟩
  · have hpgs := ((validBuffer_iff (by decide)).mp h).2
    exact absurd (hpgs 2 (by decide) (by decide)) (by decide)
  · refine (validBuffer_iff (by decide)).mpr ⟨by decide, fun page hlo hhi => ?_⟩
    obtain rfl : page = 1 := le_antisymm hhi hlo
    decide

end Pintos.Userprog
