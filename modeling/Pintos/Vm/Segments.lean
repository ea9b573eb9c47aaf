import Pintos.Vm.Faults
import Pintos.Vm.Steps

/-! # Segments of an executable

What `load_segment` does for one program header that `validate_segment` accepts.

* **Pages.**  The loop ends, with an entry for each page that the segment touches and no other
  (`segmentLoop_eq`).
* **Bytes.**  A page that is loaded from its entry holds the bytes of the file and then zeros
  (`supLoadPage_initial`). -/

namespace Pintos.Vm
open Bytes Outcome Function State

namespace Loader

/-- The entry of page number `i` of a segment. -/
def segmentEntry (file : ℕ) (writable : Bool) (mapid : ℤ) (ofs read i : ℕ) : SupEntry where
  frameNo := none
  slot := none
  allZero := false
  f := some file
  fileOfs := (ofs + i * PGSIZE) % 2 ^ 32
  pageEnd := min (read - i * PGSIZE) PGSIZE
  writable := writable
  loaded := false
  mapid := mapid

/-- The entries of the pages `base`, …, `base + n - 1` are those of a segment, and the other entries are
the ones of `sup`. -/
def withSegment (file : ℕ) (writable : Bool) (mapid : ℤ) (ofs base read n : ℕ)
    (sup : ℕ → Option SupEntry) (p : ℕ) : Option SupEntry :=
  if base ≤ p ∧ p < base + n then some (segmentEntry file writable mapid ofs read (p - base))
  else sup p

/-- The state with the pages of a segment mapped. -/
def mapSegment (v : State) (file : ℕ) (mapid : ℤ) (phdr : Phdr) : State :=
  { v with
    sup := withSegment file phdr.writable mapid (phdr.offset.toNat / PGSIZE * PGSIZE) phdr.base
      phdr.read phdr.count v.sup }

section
variable {file : ℕ} {writable : Bool} {mapid : ℤ} {ofs base read n i : ℕ} {r : Round} {v : State}

theorem segmentLoop_succ (h : r.Is ofs base read n i) (hi : i < n) (hfree : v.sup (base + i) = none)
    (fuel : ℕ) :
    segmentLoop file writable mapid (fuel + 1) v r =
      segmentLoop file writable mapid fuel
        (v.supSetEntry (base + i) (segmentEntry file writable mapid ofs read i)) r.next := by
  have hpage : r.upage.toNat / PGSIZE = base + i := by
    rw [h.upage, PGSIZE_eq]
    omega
  rw [segmentLoop, if_pos (h.more hi), hpage, supAllocSegment, hfree, Round.toNat_pageReadBytes,
    h.read, h.ofs]
  rfl

theorem segmentLoop_of_isSome (h : r.Is ofs base read n i) (hi : i < n)
    (hused : (v.sup (base + i)).isSome) (fuel : ℕ) :
    segmentLoop file writable mapid (fuel + 1) v r = .error .assertion := by
  have hpage : r.upage.toNat / PGSIZE = base + i := by
    rw [h.upage, PGSIZE_eq]
    omega
  rw [segmentLoop, if_pos (h.more hi), hpage, supAllocSegment, if_pos hused]
  rfl

/-- The loop over free pages. -/
theorem segmentLoop_eq (file : ℕ) (writable : Bool) (mapid : ℤ) (v : State) (k : ℕ)
    (h : r.Is ofs base read n i) (hk : n - i = k)
    (hfree : ∀ j, i ≤ j → j < n → v.sup (base + j) = none) (hfuel : k < fuel) :
    ∃ sup, segmentLoop file writable mapid fuel v r = .ok { v with sup } ∧
      ∀ p, sup p = if base + i ≤ p ∧ p < base + n then
        some (segmentEntry file writable mapid ofs read (p - base)) else v.sup p := by
  induction k generalizing i r v fuel with
  | zero =>
    obtain rfl : i = n := by
      have := h.le
      omega
    obtain ⟨fuel, rfl⟩ := Nat.exists_eq_succ_of_ne_zero (by omega : fuel ≠ 0)
    refine ⟨v.sup, if_neg h.not_more, fun p => ?_⟩
    rw [if_neg (by omega)]
  | succ k ih =>
    obtain ⟨fuel, rfl⟩ := Nat.exists_eq_succ_of_ne_zero (by omega : fuel ≠ 0)
    have hi : i < n := by omega
    rw [segmentLoop_succ h hi (hfree i le_rfl hi)]
    obtain ⟨sup, hrun, hsup⟩ := ih (h.next hi) (by omega)
      (v := v.supSetEntry (base + i) (segmentEntry file writable mapid ofs read i))
      (fun j hij hj => by
        show update v.sup _ _ _ = _
        rw [update_of_ne (by omega)]
        exact hfree j (by omega) hj) (by omega : k < fuel)
    refine ⟨sup, hrun, fun p => ?_⟩
    rw [hsup p]
    show (if _ then _ else update v.sup _ _ _) = _
    by_cases hp : p = base + i
    · subst hp
      rw [if_neg (by omega), if_pos (by omega), update_self, Nat.add_sub_cancel_left]
    · rw [update_of_ne hp]
      by_cases hin : base + i ≤ p ∧ p < base + n
      · rw [if_pos (by omega), if_pos hin]
      · rw [if_neg (by omega), if_neg hin]

theorem segmentLoop_stops (k : ℕ) (h : r.Is ofs base read n i) (hk : n - i = k)
    (hused : ∃ j, i ≤ j ∧ j < n ∧ (v.sup (base + j)).isSome) (hfuel : k < fuel) :
    segmentLoop file writable mapid fuel v r = .error .assertion := by
  induction k generalizing i r v fuel with
  | zero =>
    omega
  | succ k ih =>
    obtain ⟨fuel, rfl⟩ := Nat.exists_eq_succ_of_ne_zero (by omega : fuel ≠ 0)
    have hi : i < n := by omega
    cases hpage : v.sup (base + i) with
    | some e => exact segmentLoop_of_isSome h hi (by rw [hpage]; rfl) fuel
    | none =>
      rw [segmentLoop_succ h hi hpage]
      obtain ⟨j, hij, hj, hsome⟩ := hused
      have hne : j ≠ i := by
        rintro rfl
        simp [hpage] at hsome
      refine ih (h.next hi) (by omega) ⟨j, by omega, hj, ?_⟩ (by omega)
      show (update v.sup _ _ _).isSome = true
      rwa [update_of_ne (by omega)]

end

/-! ### One program header -/

section
variable {m : Machine} {phdr : Phdr} {fileLength : ℕ} {v : State} {file : ℕ} {mapid : ℤ}

section
variable (h : Valid m phdr fileLength) (hm : m.physBase < 2 ^ 20)
include h hm

/-- The assertions of `load_segment`. -/
theorem asserts : (phdr.readBytes + phdr.zeroBytes) % PAGE = 0 ∧ phdr.memPage &&& PGMASK = 0 ∧
      phdr.filePage % PAGE = 0 := by
  have hsta := start_is h hm
  have hsum : phdr.readBytes.toNat + phdr.zeroBytes.toNat = phdr.count * PGSIZE := hsta.sum
  have hfits := hsta.fits
  refine ⟨?_, ?_, ?_⟩ <;> rw [← UInt32.toNat_inj, UInt32.toNat_zero]
  · rw [UInt32.toNat_mod, toNat_add_of_lt (by rw [hsum, PGSIZE_eq]; omega), hsum, PAGE_toNat,
      PGSIZE_eq]
    omega
  · rw [toNat_and_PGMASK, Phdr.memPage, toNat_and_not_PGMASK, PGSIZE_eq]
    omega
  · rw [UInt32.toNat_mod, Phdr.filePage, toNat_and_not_PGMASK, PAGE_toNat, PGSIZE_eq]
    omega

variable (hoff : phdr.offset.toNat < 2 ^ 31)
include hoff

theorem loadPhdr_eq (v : State) (file : ℕ) (mapid : ℤ) :
    ∃ fuel, phdr.count < fuel ∧ loadPhdr v file mapid phdr =
      segmentLoop file phdr.writable mapid fuel v (phdr.round 0) := by
  have hsum : phdr.readBytes.toNat + phdr.zeroBytes.toNat = phdr.count * PGSIZE :=
    (start_is h hm).sum
  have hseek : phdr.filePage.toNat < 2 ^ 31 := by
    rw [Phdr.filePage, toNat_and_not_PGMASK]
    exact (Nat.div_mul_le_self _ _).trans_lt hoff
  refine ⟨_, ?_, by rw [loadPhdr, loadSegment, if_pos (asserts h hm), if_pos hseek]; rfl⟩
  rw [PGSIZE_eq] at hsum ⊢
  omega

theorem loadPhdr_free (hfree : ∀ p, phdr.Touches p → v.sup p = none) :
    loadPhdr v file mapid phdr = .ok (mapSegment v file mapid phdr) := by
  obtain ⟨fuel, hfuel, heq⟩ := loadPhdr_eq h hm hoff v file mapid
  obtain ⟨sup, hrun, hsup⟩ := segmentLoop_eq file phdr.writable mapid v phdr.count (start_is h hm)
    (Nat.sub_zero _)
    (fun j _ hj => hfree _ (h.touches_iff.mpr (by omega))) hfuel
  rw [heq, hrun, (funext hsup : sup = _)]
  rfl

theorem loadPhdr_stops (hused : ∃ p, phdr.Touches p ∧ (v.sup p).isSome) :
    loadPhdr v file mapid phdr = .error .assertion := by
  obtain ⟨fuel, hfuel, heq⟩ := loadPhdr_eq h hm hoff v file mapid
  obtain ⟨p, hp, hsome⟩ := hused
  obtain ⟨hle, hlt⟩ := h.touches_iff.mp hp
  rw [heq]
  refine segmentLoop_stops phdr.count (start_is h hm) (Nat.sub_zero _)
    ⟨p - phdr.base, Nat.zero_le _, by omega, ?_⟩ hfuel
  rwa [Nat.add_sub_cancel' hle]

end

end

/-! ### Loading a page -/

section
variable {m : Machine} {v : State}

/-- The frame that `get_frame` returns is zeroed, and no file changes. -/
theorem getFrame_zeroed (m : Machine) (user : Bool) (v : State) :
    Meets Any (fun x => x.2.mem x.1 = (fun _ => 0) ∧ x.2.files = v.files) (v.getFrame m user) := by
  unfold getFrame
  cases hget : v.pallocGetPage m user with
  | some x =>
    obtain ⟨i, hfind, rfl⟩ := Option.map_eq_some_iff.mp hget
    simp only [ok_bind]
    split_ifs
    · exact ⟨update_self .., rfl⟩
    · exact ⟨update_self .., rfl⟩
    · exact trivial
  | none =>
    refine (evict_redirects m user v).bind ?_
    rintro ⟨victim, w⟩ ⟨rfl, rest, slots, block, -, -, hw⟩
    obtain ⟨sup, pagedir, rfl⟩ := hw.rest
    simp only [ok_bind]
    split_ifs
    · exact ⟨update_self .., rfl⟩
    · exact trivial

/-- A page that is loaded for the first time. -/
theorem supLoadPage_initial (hp : v.sup (a / PGSIZE) = some e)
    (hslot : e.slot = none) (hzero : e.allZero = false) (hf : e.f = some file) (user write : Bool) :
    Meets Any (fun x => x.1 = true → (x.2.pagedir (a / PGSIZE)).present = true ∧
      x.2.mem (x.2.pagedir (a / PGSIZE)).frame = initial v.files e) (v.supLoadPage m a user write) := by
  have hno : ∀ w : State, false = true → (w.pagedir (a / PGSIZE)).present = true ∧
      w.mem (w.pagedir (a / PGSIZE)).frame = initial v.files e := fun _ h => by cases h
  unfold supLoadPage
  dsimp only
  rw [hp]
  dsimp only
  split_ifs
  · exact hno v
  · exact hno v
  · refine (getFrame_zeroed m user v).bind ?_
    rintro ⟨f, w⟩ ⟨hmem, hfls⟩
    dsimp only at hmem hfls
    rw [hslot]
    dsimp only [frameRead]
    rw [hf]
    dsimp only [Option.map_some]
    unfold pagedirSetPage
    split_ifs
    · intro _
      simp only [supSetEntry, update_self, hmem, hfls, true_and]
      exact overwrite_file hf hzero
    · exact trivial

/-- Whenever the page of the address `a` is loaded as it is mapped in `w`, with the bytes that the file
has in `w`, the byte at `a` is `b`. -/
def LoadsAs (m : Machine) (w : State) (file a : ℕ) (b : UInt8) : Prop :=
  ∀ (v v' : State) (user write : Bool), v.sup (a / PGSIZE) = w.sup (a / PGSIZE) →
    v.files file = w.files file → v.supLoadPage m a user write = .ok (true, v') →
    (v'.pagedir (a / PGSIZE)).present = true ∧
      v'.mem (v'.pagedir (a / PGSIZE)).frame (a % PGSIZE) = b

end

/-! ### The segment as it is loaded -/

section
variable {m : Machine} {phdr : Phdr} {fileLength : ℕ}

section
variable (h : Valid m phdr fileLength)
include h

theorem round_is (hm : m.physBase < 2 ^ 20) (hi : i ≤ phdr.count) :
    Round.Is (phdr.offset.toNat / PGSIZE * PGSIZE) phdr.base phdr.read phdr.count i
      (phdr.round i) := by
  induction i with
  | zero => exact start_is h hm
  | succ i ih =>
    rw [Phdr.round, iterate_succ_apply']
    exact (ih (by omega)).next hi

theorem round_exact (hm : m.physBase < 2 ^ 20)
    (hi : ∀ j ≤ i, (phdr.round j).More) : (phdr.round i).Exact := by
  by_cases hlt : i < phdr.count
  · exact (round_is h hm hlt.le).exact hlt
  · exact absurd (hi phdr.count (by omega)) (round_is h hm le_rfl).not_more

theorem initial_segmentEntry {files : ℕ → List UInt8}
    (hfile : phdr.offset.toNat + phdr.filesz.toNat < 2 ^ 31) (mapid : ℤ) (k : ℕ) :
    initial files (segmentEntry file phdr.writable mapid (phdr.offset.toNat / PGSIZE * PGSIZE)
        phdr.read ((phdr.vaddr.toNat + k) / PGSIZE - phdr.base)) ((phdr.vaddr.toNat + k) % PGSIZE) =
      if k < phdr.filesz.toNat then region (files file) (phdr.offset.toNat + k) else 0 := by
  have hcong := h.congruent
  have hread : phdr.read = if phdr.filesz.toNat = 0 then 0 else
      phdr.vaddr.toNat % PGSIZE + phdr.filesz.toNat := rfl
  simp only [initial, segmentEntry, true_and, Phdr.base]
  rw [PGSIZE_eq] at *
  by_cases hk : k < phdr.filesz.toNat
  · rw [if_neg (by omega)] at hread
    rw [if_pos (by omega), if_pos hk]
    congr 1
    omega
  · rw [if_neg hk, if_neg]
    split_ifs at hread <;> omega

/-- The byte `k` of a segment, once its page is loaded. -/
theorem loadsAs_segment
    (hfile : phdr.offset.toNat + phdr.filesz.toNat < 2 ^ 31) (hk : k < phdr.memsz.toNat)
    (v : State) (file : ℕ) (mapid : ℤ) :
    LoadsAs m (mapSegment v file mapid phdr) file (phdr.vaddr.toNat + k)
      (if k < phdr.filesz.toNat then region (v.files file) (phdr.offset.toNat + k) else 0) := by
  intro u u' user write hsup hfls hload
  have hin := h.touches_iff.mp ⟨k, hk, rfl⟩
  dsimp only [mapSegment, withSegment] at hsup hfls
  rw [if_pos hin] at hsup
  obtain ⟨hprs, hmem⟩ := (supLoadPage_initial hsup rfl rfl rfl user write).of_eq_ok hload rfl
  refine ⟨hprs, ?_⟩
  rw [hmem, initial_segmentEntry h hfile mapid k, hfls]

end

/-- What the loading of a segment has done. -/
structure SegmentMapped (m : Machine) (phdr : Phdr) (file : ℕ) (v w : State) : Prop where
  created : ∀ p, v.sup p = none ∧ (w.sup p).isSome ↔ phdr.Touches p
  kept : ∀ p, ¬ phdr.Touches p → w.sup p = v.sup p
  inUser : ∀ p, phdr.Touches p → 0 < p ∧ p < m.physBase
  bytes : ∀ k < phdr.filesz.toNat,
    LoadsAs m w file (phdr.vaddr.toNat + k) (region (v.files file) (phdr.offset.toNat + k))
  zeros : ∀ k, phdr.filesz.toNat ≤ k → k < phdr.memsz.toNat →
    LoadsAs m w file (phdr.vaddr.toNat + k) 0

end

/-- A header that `validate_segment` accepts, of a segment that is in the file, on pages that are
free.  No sum and no difference wraps around, neither in `load` nor in a round of the loop, and the
pages of the segment are mapped, with the bytes of the file and then zeros. -/
theorem segment_mapped (m : Machine) (hm : m.physBase < 2 ^ 20) (v : State) (file : ℕ) (mapid : ℤ)
    (phdr : Phdr) (hlength : (v.files file).length < 2 ^ 31)
    (hvalid : validateSegment m phdr (v.files file).length = true)
    (hfile : phdr.offset.toNat + phdr.filesz.toNat ≤ (v.files file).length)
    (hfree : ∀ p, phdr.Touches p → v.sup p = none) :
    phdr.Exact ∧ (∀ i, (∀ j ≤ i, (phdr.round j).More) → (phdr.round i).Exact) ∧
      (phdr.readBytes + phdr.zeroBytes) % PAGE = 0 ∧
      ∃ w, loadPhdr v file mapid phdr = .ok w ∧ SegmentMapped m phdr file v w := by
  have h := (validateSegment_iff hm).mp hvalid
  have hbnd := h.base_bounds
  refine ⟨h.exact hm, fun i hi => round_exact h hm hi, (asserts h hm).1, _,
    loadPhdr_free h hm (by omega) hfree, ⟨fun p => ?_, fun p hp => ?_, fun p hp => ?_, ?_, ?_⟩⟩
  · dsimp only [mapSegment, withSegment]
    rw [h.touches_iff]
    constructor
    · rintro ⟨hnone, hsome⟩
      by_contra hout
      rw [if_neg hout, hnone] at hsome
      cases hsome
    · intro hin
      rw [if_pos hin]
      exact ⟨hfree p (h.touches_iff.mpr hin), rfl⟩
  · exact if_neg (by rwa [h.touches_iff] at hp)
  · have hin := h.touches_iff.mp hp
    omega
  · intro k hk
    have hbyte := loadsAs_segment h (by omega) (hk.trans_le h.le) v file mapid
    rwa [if_pos hk] at hbyte
  · intro k hle hk
    have hbyte := loadsAs_segment h (by omega) hk v file mapid
    rwa [if_neg (by omega)] at hbyte

/-- Two pages, of which the first has three bytes of the file behind its first byte. -/
theorem segment_mapped_two_pages :
    ∃ w, loadPhdr { smallProcess with toProcess := .empty } 0 7 ⟨.load, 1, 4097, 3, 5000, true⟩ =
        .ok w ∧
      SegmentMapped smallMachine ⟨.load, 1, 4097, 3, 5000, true⟩ 0
        { smallProcess with toProcess := .empty } w :=
  (segment_mapped smallMachine (by decide) { smallProcess with toProcess := .empty } 0 7
    ⟨.load, 1, 4097, 3, 5000, true⟩ (by decide) (by decide) (by decide) fun _ _ => rfl).2.2.2

end Loader

end Pintos.Vm
