import Pintos.Vm.Pages

/-! # Rounds of `load_segment`

What `load` and `load_segment` compute for one program header, in words of 32 bits, as an executable
that is made up may have any words in it.

* **Rounds.**  A `Round` is what the loop of `load_segment` works on.  In the rounds of a header that
  `validate_segment` accepts no operation wraps around (`Round.Exact`), the offset in the file apart,
  which may do so behind the last page that is read. -/

namespace Pintos.Vm
open State

/-- `p_type` of a program header. -/
inductive SegmentType where
  | null
  | load
  | dynamic
  | interp
  | note
  | shlib
  | phdr
  | stack
  | other
deriving DecidableEq, Repr

/-- A program header.  `writable` is the flag `PF_W`. -/
structure Phdr where
  type : SegmentType
  offset : UInt32
  vaddr : UInt32
  filesz : UInt32
  memsz : UInt32
  writable : Bool
deriving DecidableEq, Repr

/-- The sum that is the end of the segment may wrap around. -/
def validateSegment (m : Machine) (phdr : Phdr) (fileLength : ℕ) : Bool :=
  decide (phdr.offset.toNat % PGSIZE = phdr.vaddr.toNat % PGSIZE) &&
    decide (phdr.offset.toNat ≤ fileLength) && decide (phdr.filesz ≤ phdr.memsz) &&
    decide (phdr.memsz ≠ 0) && decide (phdr.vaddr.toNat < m.physBase * PGSIZE) &&
    decide ((phdr.vaddr + phdr.memsz).toNat < m.physBase * PGSIZE) &&
    decide (phdr.vaddr ≤ phdr.vaddr + phdr.memsz) && decide (PGSIZE ≤ phdr.vaddr.toNat)

/-! ### Words -/

/-- `PGSIZE` as a word. -/
abbrev PAGE : UInt32 := 4096

def PGMASK : UInt32 := 0xfff

theorem PAGE_toNat : PAGE.toNat = 4096 := rfl

theorem toNat_and_PGMASK (x : UInt32) : (x &&& PGMASK).toNat = x.toNat % PGSIZE := by
  exact Nat.and_two_pow_sub_one_eq_mod x.toNat 12

theorem toNat_and_not_PGMASK (x : UInt32) :
    (x &&& ~~~ PGMASK).toNat = x.toNat / PGSIZE * PGSIZE := by
  have hmask : (~~~ PGMASK).toNat = (2 ^ 20 - 1) <<< 12 := by decide
  have hshf : x.toNat / PGSIZE * PGSIZE = (x.toNat >>> 12) <<< 12 := by
    rw [Nat.shiftRight_eq_div_pow, Nat.shiftLeft_eq, PGSIZE_eq]
  rw [UInt32.toNat_and, hmask, hshf]
  refine Nat.eq_of_testBit_eq fun i => ?_
  simp only [Nat.testBit_and, Nat.testBit_shiftLeft, Nat.testBit_two_pow_sub_one]
  by_cases hi : 12 ≤ i
  · by_cases hlt : i - 12 < 20
    · simp [hi, hlt]
    · have hout : x.toNat.testBit i = false := Nat.testBit_lt_two_pow
        (x.toNat_lt.trans_le (Nat.pow_le_pow_right (by omega) (by omega)))
      simp [hi, hout]
  · simp [hi]

theorem toNat_add_of_lt {a b : UInt32} (h : a.toNat + b.toNat < 2 ^ 32) :
    (a + b).toNat = a.toNat + b.toNat := by
  rw [UInt32.toNat_add, Nat.mod_eq_of_lt h]

/-- `ROUND_UP(x, PGSIZE)`. -/
def roundUp (x : UInt32) : UInt32 := (x + PAGE - 1) / PAGE * PAGE

theorem toNat_roundUp {x : UInt32} (h : x.toNat + PGSIZE < 2 ^ 32) :
    (roundUp x).toNat = (x.toNat + PGSIZE - 1) / PGSIZE * PGSIZE := by
  rw [PGSIZE_eq] at *
  have hsum : (x + PAGE).toNat = x.toNat + 4096 := toNat_add_of_lt (by rw [PAGE_toNat]; omega)
  have hone : 1 ≤ x + PAGE := by
    rw [UInt32.le_iff_toNat_le, UInt32.toNat_one]
    omega
  rw [roundUp, UInt32.toNat_mul, UInt32.toNat_div, UInt32.toNat_sub_of_le _ _ hone, PAGE_toNat,
    UInt32.toNat_one]
  omega

/-! ### Rounds -/

/-- The variables of the loop of `load_segment`. -/
structure Round where
  ofs : UInt32
  upage : UInt32
  readBytes : UInt32
  zeroBytes : UInt32
deriving DecidableEq, Repr

namespace Round

variable (r : Round)

def pageReadBytes : UInt32 := if r.readBytes < PAGE then r.readBytes else PAGE

def pageZeroBytes : UInt32 := PAGE - r.pageReadBytes

def next : Round where
  ofs := r.ofs + PAGE
  upage := r.upage + PAGE
  readBytes := r.readBytes - r.pageReadBytes
  zeroBytes := r.zeroBytes - r.pageZeroBytes

/-- The loop goes on. -/
def More : Prop := 0 < r.readBytes ∨ 0 < r.zeroBytes

instance : Decidable r.More := inferInstanceAs (Decidable (_ ∨ _))

/-- No difference and no page number of the round wraps around. -/
structure Exact : Prop where
  read : r.pageReadBytes.toNat ≤ r.readBytes.toNat
  zero : r.pageZeroBytes.toNat ≤ r.zeroBytes.toNat
  page : r.pageReadBytes.toNat ≤ PAGE.toNat
  upage : r.upage.toNat + PAGE.toNat < 2 ^ 32

theorem toNat_pageReadBytes : r.pageReadBytes.toNat = min r.readBytes.toNat PGSIZE := by
  rw [pageReadBytes, PGSIZE_eq]
  split_ifs with h <;> rw [UInt32.lt_iff_toNat_lt, PAGE_toNat] at h
  · omega
  · rw [PAGE_toNat]
    omega

theorem toNat_pageZeroBytes : r.pageZeroBytes.toNat = PGSIZE - min r.readBytes.toNat PGSIZE := by
  have hle : r.pageReadBytes ≤ PAGE := by
    rw [UInt32.le_iff_toNat_le, toNat_pageReadBytes, PAGE_toNat, PGSIZE_eq]
    omega
  rw [pageZeroBytes, UInt32.toNat_sub_of_le _ _ hle, toNat_pageReadBytes, PAGE_toNat, PGSIZE_eq]

theorem more_iff : r.More ↔ ¬ (r.readBytes.toNat = 0 ∧ r.zeroBytes.toNat = 0) := by
  unfold More
  simp only [UInt32.lt_iff_toNat_lt, UInt32.toNat_zero]
  omega

theorem Exact.toNat_next {r : Round} (h : r.Exact) :
    r.next.readBytes.toNat = r.readBytes.toNat - min r.readBytes.toNat PGSIZE ∧
      r.next.zeroBytes.toNat = r.zeroBytes.toNat - (PGSIZE - min r.readBytes.toNat PGSIZE) := by
  constructor
  · show (r.readBytes - r.pageReadBytes).toNat = _
    rw [UInt32.toNat_sub_of_le _ _ (UInt32.le_iff_toNat_le.mpr h.read), toNat_pageReadBytes]
  · show (r.zeroBytes - r.pageZeroBytes).toNat = _
    rw [UInt32.toNat_sub_of_le _ _ (UInt32.le_iff_toNat_le.mpr h.zero), toNat_pageZeroBytes]

end Round

/-- Round `i` of a segment of `n` pages from page `base` on, of which `read` bytes are read from the
offset `ofs` of the file. -/
structure Round.Is (ofs base read n i : ℕ) (r : Round) : Prop where
  le : i ≤ n
  fits : base + n < 2 ^ 20
  ofs : r.ofs.toNat = (ofs + i * PGSIZE) % 2 ^ 32
  upage : r.upage.toNat = (base + i) * PGSIZE
  read : r.readBytes.toNat = read - i * PGSIZE
  sum : r.readBytes.toNat + r.zeroBytes.toNat = (n - i) * PGSIZE

section
variable {ofs base read n i : ℕ} {r : Round}

theorem Round.Is.exact (h : r.Is ofs base read n i) (hi : i < n) : r.Exact := by
  have hsum := h.sum
  have hpage := h.upage
  have hfits := h.fits
  refine ⟨?_, ?_, ?_, ?_⟩
  · rw [toNat_pageReadBytes]
    exact Nat.min_le_left _ _
  · rw [toNat_pageZeroBytes]
    rw [PGSIZE_eq] at *
    omega
  · rw [toNat_pageReadBytes]
    exact Nat.min_le_right _ _
  · rw [hpage, PAGE_toNat, PGSIZE_eq]
    omega

theorem Round.Is.more (h : r.Is ofs base read n i) (hi : i < n) : r.More := by
  have hsum := h.sum
  rw [PGSIZE_eq] at hsum
  rw [r.more_iff]
  omega

theorem Round.Is.not_more (h : r.Is ofs base read n n) : ¬ r.More := by
  have hsum := h.sum
  rw [PGSIZE_eq] at hsum
  rw [r.more_iff]
  omega

theorem Round.Is.next (h : r.Is ofs base read n i) (hi : i < n) :
    r.next.Is ofs base read n (i + 1) := by
  have hexc := h.exact hi
  have hsum := h.sum
  have hofs := h.ofs
  obtain ⟨hread, hzero⟩ := hexc.toNat_next
  refine ⟨hi, h.fits, ?_, ?_, ?_, ?_⟩
  · show (r.ofs + PAGE).toNat = _
    rw [UInt32.toNat_add, hofs, PAGE_toNat, PGSIZE_eq]
    omega
  · show (r.upage + PAGE).toNat = _
    rw [toNat_add_of_lt hexc.upage, h.upage, PAGE_toNat, PGSIZE_eq]
    omega
  · rw [hread, h.read]
    rw [PGSIZE_eq]
    omega
  · rw [PGSIZE_eq] at *
    omega

end

/-! ### The sums of `load` -/

namespace Phdr

variable (phdr : Phdr)

def filePage : UInt32 := phdr.offset &&& ~~~ PGMASK

def memPage : UInt32 := phdr.vaddr &&& ~~~ PGMASK

def pageOffset : UInt32 := phdr.vaddr &&& PGMASK

def readBytes : UInt32 := if 0 < phdr.filesz then phdr.pageOffset + phdr.filesz else 0

def zeroBytes : UInt32 :=
  if 0 < phdr.filesz then roundUp (phdr.pageOffset + phdr.memsz) - phdr.readBytes
  else roundUp (phdr.pageOffset + phdr.memsz)

/-- Round `i` of the loop of `load_segment`. -/
def round (i : ℕ) : Round :=
  Round.next^[i] ⟨phdr.filePage, phdr.memPage, phdr.readBytes, phdr.zeroBytes⟩

/-- The page `p` has an address of the segment in it. -/
def Touches (p : ℕ) : Prop := ∃ k < phdr.memsz.toNat, (phdr.vaddr.toNat + k) / PGSIZE = p

/-- The number of the first page. -/
def base : ℕ := phdr.vaddr.toNat / PGSIZE

/-- The number of bytes from the start of the first page that are read from the file. -/
def read : ℕ :=
  if phdr.filesz.toNat = 0 then 0 else phdr.vaddr.toNat % PGSIZE + phdr.filesz.toNat

/-- The number of pages. -/
def count : ℕ := (phdr.vaddr.toNat % PGSIZE + phdr.memsz.toNat + PGSIZE - 1) / PGSIZE

end Phdr

/-- What a header that `validate_segment` accepts says. -/
structure Valid (m : Machine) (phdr : Phdr) (fileLength : ℕ) : Prop where
  congruent : phdr.offset.toNat % PGSIZE = phdr.vaddr.toNat % PGSIZE
  inFile : phdr.offset.toNat ≤ fileLength
  le : phdr.filesz.toNat ≤ phdr.memsz.toNat
  pos : 0 < phdr.memsz.toNat
  inUser : phdr.vaddr.toNat + phdr.memsz.toNat < m.physBase * PGSIZE
  notFirst : PGSIZE ≤ phdr.vaddr.toNat

theorem validateSegment_iff (hm : m.physBase < 2 ^ 20) :
    validateSegment m phdr fileLength = true ↔ Valid m phdr fileLength := by
  have hz := phdr.memsz.toNat_lt
  have hne : phdr.memsz ≠ 0 ↔ 0 < phdr.memsz.toNat := by
    rw [Ne, ← UInt32.toNat_inj, UInt32.toNat_zero]
    omega
  simp only [validateSegment, Bool.and_eq_true, decide_eq_true_eq, UInt32.le_iff_toNat_le,
    UInt32.toNat_add, hne]
  rw [PGSIZE_eq]
  constructor
  · rintro ⟨⟨⟨⟨⟨⟨⟨h1, h2⟩, h3⟩, h4⟩, -⟩, h6⟩, h7⟩, h8⟩
    exact ⟨h1, h2, h3, h4, by rw [PGSIZE_eq]; omega, h8⟩
  · intro h
    have h1 := h.congruent
    have h5 := h.inUser
    have h6 := h.notFirst
    rw [PGSIZE_eq] at h1 h5 h6
    exact ⟨⟨⟨⟨⟨⟨⟨h1, h.inFile⟩, h.le⟩, h.pos⟩, by omega⟩, by omega⟩, by omega⟩, h6⟩

/-- No operation of `load` wraps around. -/
structure Phdr.Exact (phdr : Phdr) : Prop where
  read : phdr.pageOffset.toNat + phdr.filesz.toNat < 2 ^ 32
  total : phdr.pageOffset.toNat + phdr.memsz.toNat + PGSIZE < 2 ^ 32
  zero : phdr.readBytes.toNat ≤ (roundUp (phdr.pageOffset + phdr.memsz)).toNat

section
variable {m : Machine} {phdr : Phdr} {fileLength : ℕ}

theorem Valid.touches_iff (h : Valid m phdr fileLength) :
    phdr.Touches p ↔ phdr.base ≤ p ∧ p < phdr.base + phdr.count := by
  have hpos := h.pos
  unfold Phdr.Touches Phdr.base Phdr.count
  rw [PGSIZE_eq]
  constructor
  · omega
  · rintro ⟨hle, hlt⟩
    exact ⟨p * 4096 - phdr.vaddr.toNat, by omega, by omega⟩

theorem Valid.base_bounds (h : Valid m phdr fileLength) :
    1 ≤ phdr.base ∧ phdr.base + phdr.count ≤ m.physBase ∧ 0 < phdr.count ∧
      phdr.read ≤ phdr.count * PGSIZE := by
  have hpos := h.pos
  have hle := h.le
  have huser := h.inUser
  have hfir := h.notFirst
  unfold Phdr.base Phdr.count Phdr.read
  rw [PGSIZE_eq] at *
  split_ifs <;> omega

theorem Valid.exact (h : Valid m phdr fileLength) (hm : m.physBase < 2 ^ 20) : phdr.Exact := by
  have hle := h.le
  have huser := h.inUser
  have hfir := h.notFirst
  have hofe : phdr.pageOffset.toNat = phdr.vaddr.toNat % PGSIZE := toNat_and_PGMASK _
  rw [PGSIZE_eq] at huser hfir hofe
  have hread : phdr.pageOffset.toNat + phdr.filesz.toNat < 2 ^ 32 := by omega
  have hsum : (phdr.pageOffset + phdr.memsz).toNat =
      phdr.pageOffset.toNat + phdr.memsz.toNat := toNat_add_of_lt (by omega)
  refine ⟨hread, by rw [PGSIZE_eq]; omega, ?_⟩
  rw [toNat_roundUp (by rw [PGSIZE_eq]; omega), PGSIZE_eq, Phdr.readBytes]
  split_ifs
  · rw [toNat_add_of_lt hread]
    omega
  · exact Nat.zero_le _

end

namespace Loader

/-- The loop of `load_segment`. -/
def segmentLoop (file : ℕ) (writable : Bool) (mapid : ℤ) : ℕ → State → Round → Except Stop State
  | 0, _, _ => .error .hang
  | fuel + 1, v, r =>
    if r.More then do
      let v ← v.supAllocSegment (r.upage.toNat / PGSIZE) file writable r.ofs.toNat
        r.pageReadBytes.toNat mapid
      segmentLoop file writable mapid fuel v r.next
    else .ok v

/-- `file_seek` fails for an offset that is negative as an `off_t`.  A segment has no more rounds than
`read_bytes` and `zero_bytes` have pages. -/
def loadSegment (v : State) (file : ℕ) (ofs upage readBytes zeroBytes : UInt32) (writable : Bool)
    (mapid : ℤ) : Except Stop State :=
  if (readBytes + zeroBytes) % PAGE = 0 ∧ upage &&& PGMASK = 0 ∧ ofs % PAGE = 0 then
    if ofs.toNat < 2 ^ 31 then
      segmentLoop file writable mapid (readBytes.toNat / PGSIZE + zeroBytes.toNat / PGSIZE + 2) v
        ⟨ofs, upage, readBytes, zeroBytes⟩
    else .error .assertion
  else .error .assertion

/-- A segment of type `PT_LOAD`. -/
def loadPhdr (v : State) (file : ℕ) (mapid : ℤ) (phdr : Phdr) : Except Stop State :=
  loadSegment v file phdr.filePage phdr.memPage phdr.readBytes phdr.zeroBytes phdr.writable mapid

section
variable {m : Machine} {phdr : Phdr} {fileLength : ℕ}

/-- The first round of a segment. -/
theorem start_is (h : Valid m phdr fileLength) (hm : m.physBase < 2 ^ 20) :
    Round.Is (phdr.offset.toNat / PGSIZE * PGSIZE) phdr.base phdr.read phdr.count 0
      (phdr.round 0) := by
  have hexc := h.exact hm
  have hbnd := h.base_bounds
  have hofe : phdr.pageOffset.toNat = phdr.vaddr.toNat % PGSIZE := toNat_and_PGMASK _
  have hpos : 0 < phdr.filesz ↔ phdr.filesz.toNat ≠ 0 := by
    rw [UInt32.lt_iff_toNat_lt, UInt32.toNat_zero]
    omega
  have hread : phdr.readBytes.toNat = phdr.read := by
    unfold Phdr.readBytes Phdr.read
    by_cases hz : phdr.filesz.toNat = 0
    · rw [if_neg (by rw [hpos, not_not]; exact hz), if_pos hz, UInt32.toNat_zero]
    · rw [if_pos (hpos.mpr hz), if_neg hz, toNat_add_of_lt hexc.read, hofe]
  have htl : (roundUp (phdr.pageOffset + phdr.memsz)).toNat = phdr.count * PGSIZE := by
    have hlt := hexc.total
    have hsum : (phdr.pageOffset + phdr.memsz).toNat =
        phdr.pageOffset.toNat + phdr.memsz.toNat := toNat_add_of_lt (by omega)
    rw [toNat_roundUp (by rw [hsum]; exact hlt), hsum, hofe]
    rfl
  have hzero : phdr.zeroBytes.toNat = phdr.count * PGSIZE - phdr.read := by
    unfold Phdr.zeroBytes
    by_cases hz : phdr.filesz.toNat = 0
    · rw [if_neg (by rw [hpos, not_not]; exact hz), htl, Phdr.read, if_pos hz, Nat.sub_zero]
    · rw [if_pos (hpos.mpr hz), UInt32.toNat_sub_of_le _ _ (UInt32.le_iff_toNat_le.mpr hexc.zero),
        htl, hread]
  refine ⟨Nat.zero_le _, by omega, ?_, ?_, ?_, ?_⟩
  · have hlt := phdr.offset.toNat_lt
    rw [Nat.zero_mul, Nat.add_zero, Nat.mod_eq_of_lt ((Nat.div_mul_le_self _ _).trans_lt hlt)]
    exact toNat_and_not_PGMASK _
  · exact toNat_and_not_PGMASK _
  · exact hread
  · show phdr.readBytes.toNat + phdr.zeroBytes.toNat = _
    rw [Nat.sub_zero]
    omega

end

end Loader

end Pintos.Vm
