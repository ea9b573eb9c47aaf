import Pintos.Filesys.Release

/-! # The largest file

What `inode_read_at` and `inode_write_at` do with offsets and sizes up to the largest `off_t`.

* **Tables.**  The double indirect table has 128 entries, so that a file has at most `MAX_LENGTH`
  bytes.  No function checks this: `byte_to_sector` of a position behind it reads behind the end of
  the sector (the assertion of `cache_read` fails), and growth past it writes behind the table.
* **Reads.**  `byte_to_sector` comes before the test for the end of the file, so that a read fails
  as soon as it gets to such a position, also if the file ends earlier.
* **Writes.**  A write grows the file first, if there are enough free sectors. -/

namespace Pintos
open Bytes Option List Disk

/-- The loops of `inode_read_at` and `inode_write_at` do not look behind the largest file. -/
def InodeDisk.Fits (data : InodeDisk) (size offset : ℕ) : Prop :=
  size = 0 ∨ offset + size ≤ MAX_LENGTH ∨ max offset data.length < MAX_LENGTH

instance (data : InodeDisk) (size offset : ℕ) : Decidable (data.Fits size offset) := by
  unfold InodeDisk.Fits
  infer_instance

section
variable {d : Disk} {data : InodeDisk} {L : Layout} {F : ℕ → UInt8}

/-! ### Behind the largest file -/

theorem byteToSector_eq_none (hpos : MAX_LENGTH ≤ pos) (hlt : pos < 2 ^ 32) :
    d.byteToSector data pos = none := by
  rw [MAX_LENGTH_eq] at hpos
  unfold byteToSector
  split_ifs with hmgc
  · have hind : ¬ (4 + 4 * (pos / BLOCK_SECTOR_SIZE / NUM_ENTRIES_IN_INDIRECT) ≤
        BLOCK_SECTOR_SIZE) := by
      rw [BLOCK_SECTOR_SIZE_eq, NUM_ENTRIES_eq]
      omega
    rw [indicesFromOffset_natCast hlt]
    simp [cacheRead, hind]
  · rfl

theorem not_fits_of_chunk {size offset : ℕ} (hbound : data.length ≤ MAX_LENGTH)
    (hno : ¬ data.Fits size offset) (hoff : offset < MAX_LENGTH) :
    chunkSize data size offset ≠ 0 ∧
      ¬ data.Fits (size - chunkSize data size offset)
        (offset + chunkSize data size offset) := by
  unfold InodeDisk.Fits chunkSize at *
  rw [BLOCK_SECTOR_SIZE_eq] at *
  omega

theorem Holds.readLoop_eq_none (h : Holds d data L F) {fuel size offset : ℕ} (hf : size ≤ fuel)
    (hno : ¬ data.Fits size offset) (hlt : offset < 2 ^ 32) :
    d.readLoop data fuel size offset = none := by
  induction fuel generalizing size offset with
  | zero => exact absurd (.inl (by omega)) hno
  | succ fuel ih =>
    have hsize : size ≠ 0 := fun h0 => hno (.inl h0)
    unfold Disk.readLoop
    rw [if_neg hsize]
    by_cases hoff : offset < MAX_LENGTH
    · obtain ⟨hc, hno'⟩ := not_fits_of_chunk h.bound hno hoff
      obtain ⟨hlen, -⟩ := chunk_bounds hc
      have hbound := h.bound
      rw [MAX_LENGTH_eq] at hbound
      rw [h.byteToSector hoff, bind_eq_bind, bind_some, if_neg hc,
        if_pos (h.sector_lt (by omega)), ih (by omega) hno' (by omega)]
      simp
    · rw [byteToSector_eq_none (by omega) hlt]
      rfl

theorem Holds.writeLoop_eq_none (h : Holds d data L F)
    (hf : buf.length ≤ fuel) (hno : ¬ data.Fits buf.length offset) (hlt : offset < 2 ^ 32) :
    Disk.writeLoop data fuel d buf offset = none := by
  induction fuel generalizing d F offset buf with
  | zero => exact absurd (.inl (by omega)) hno
  | succ fuel ih =>
    have hbuf : buf ≠ [] := fun h0 => hno (.inl (by simp [h0]))
    unfold Disk.writeLoop
    rw [if_neg hbuf]
    by_cases hoff : offset < MAX_LENGTH
    · obtain ⟨hc, hno'⟩ := not_fits_of_chunk h.bound hno hoff
      have hle : chunkSize data buf.length offset ≤ buf.length := chunkSize_le
      obtain ⟨hlen, hsec⟩ := chunk_bounds hc
      have hbound := h.bound
      rw [MAX_LENGTH_eq] at hbound
      have hb := h.sector_lt (show offset < data.length by omega)
      generalize chunkSize data buf.length offset = c at *
      have htake : (buf.take c).length = c := by rw [length_take]; omega
      have hdrop : (buf.drop c).length = buf.length - c := length_drop
      have hfit : (buf.take c).length + offset % BLOCK_SECTOR_SIZE ≤ BLOCK_SECTOR_SIZE := by
        rw [htake]
        exact hsec
      have hoff' : BLOCK_SECTOR_SIZE * (offset / BLOCK_SECTOR_SIZE) +
        offset % BLOCK_SECTOR_SIZE = offset := Nat.div_add_mod _ _
      have hrest := ih (h.put hb hfit (by rw [htake, hoff']; exact hlen))
        (by omega) (hdrop.symm ▸ hno') (by omega)
      have hwrt := cacheWrite_eq (h.valid.lt_size _ (Layout.sec_mem hb)) hfit
      rw [h.byteToSector hoff, bind_eq_bind, bind_some, if_neg hc, if_pos hb]
      simp only [hwrt, hrest, bind_eq_bind, bind_some, bind_none]
    · rw [byteToSector_eq_none (by omega) hlt]
      rfl

end

namespace Volume

variable {v v' : Volume} {M : List ℕ} {inode : Inode} {L : Layout} {F : ℕ → UInt8}
  {buf : List UInt8} {size offset : ℕ}

/-- The read goes through, and returns nothing at or behind the end of the file. -/
def ReadsInBounds (v : Volume) (inode : Inode) (size offset : ℕ) : Prop :=
  ∃ bytes, v.inodeReadAt inode size offset = some bytes ∧
    (inode.data.length ≤ offset → bytes = [])

/-- The write goes through, with a short count if it ends behind the largest file, and leaves a
length that the tables can describe. -/
def WritesInBounds (v : Volume) (inode : Inode) (buf : List UInt8) (offset : ℕ) : Prop :=
  ∃ written v' inode', v.inodeWriteAt inode buf offset = some (written, v', inode') ∧
    inode'.data.length ≤ MAX_LENGTH ∧
    (0 < buf.length → MAX_LENGTH < offset + buf.length → written < buf.length)

/-- What a write can do to a file of `length` bytes: write everything, so that the file may grow, or
nothing, or what fits into the file. -/
def Wrote (size offset length written length' : ℕ) : Prop :=
  written = size ∧ offset + size ≤ MAX_LENGTH ∧ length' = max length (offset + size) ∨
    length' = length ∧ (written = 0 ∨ written = min size (length - offset))

/-- There are not enough free sectors to grow a file to `n` bytes. -/
def NoRoom (v : Volume) (data : InodeDisk) (n : ℕ) : Prop :=
  v.freeSectors.length < newSectors data.length (n - data.length)

/-- Writing is denied, or the write ends in the largest file, or the file does not grow (also since
`offset + size` is not an `off_t`) and the loop does not look behind the largest file. -/
def WriteFits (v : Volume) (inode : Inode) (size offset : ℕ) : Prop :=
  inode.denyWriteCnt ≠ 0 ∨ offset + size ≤ MAX_LENGTH ∨
    ((v.NoRoom inode.data (offset + size) ∨ 2 ^ 31 ≤ offset + size) ∧
      inode.data.Fits size offset)

/-! ### Reads -/

theorem File.readsInBounds_iff (h : v.File M inode.data L F) (hoff : offset < 2 ^ 31) :
    v.ReadsInBounds inode size offset ↔ inode.data.Fits size offset := by
  constructor
  · rintro ⟨bytes, hread, -⟩
    by_contra hno
    unfold inodeReadAt at hread
    simp [h.holds.readLoop_eq_none le_rfl hno (by omega)] at hread
  · intro hfits
    refine ⟨_, h.holds.inodeReadAt hfits, fun hle => ?_⟩
    rw [show min size (inode.data.length - offset) = 0 by omega, slice_zero]

/-! ### Writes -/

theorem noRoom_iff (hle : data.length ≤ n) (hn : n < 2 ^ 31) :
    v.NoRoom data n ↔ v.freeSectors.length < sectorsFor n - sectorsFor data.length := by
  unfold NoRoom
  rw [newSectors_eq (by omega), Nat.add_sub_cancel' hle]

theorem writePosition_eq (h : offset + buf.length < 2 ^ 31) :
    ((offset : ℤ) + buf.length).bmod (2 ^ 32) = ((offset + buf.length : ℕ) : ℤ) := by
  rw [Int.bmod_eq_of_le (by omega) (by omega)]
  omega

section
variable (h : v.File M inode.data L F)
include h

/-- Cases in which the file does not grow. -/
theorem File.growTo_same (hoff : offset < 2 ^ 31)
    (hbuf : buf.length < 2 ^ 31) (hno : offset + buf.length ≤ inode.data.length ∨
      v.NoRoom inode.data (offset + buf.length) ∨ 2 ^ 31 ≤ offset + buf.length) :
    v.growTo inode.data (((offset : ℤ) + buf.length).bmod (2 ^ 32)) = some (v, inode.data) := by
  unfold Volume.growTo
  by_cases hbig : 2 ^ 31 ≤ offset + buf.length
  · rw [if_neg (by rw [Int.bmod_def]; omega)]
  rw [writePosition_eq (by omega)]
  by_cases hle : offset + buf.length ≤ inode.data.length
  · rw [if_neg (by omega)]
  obtain hle' | hroom | hbig' := hno
  · exact absurd hle' hle
  · rw [noRoom_iff (by omega) (by omega)] at hroom
    have hcnt : (((offset + buf.length : ℕ) : ℤ) - inode.data.length).toNat =
      offset + buf.length - inode.data.length := by omega
    have hsum : inode.data.length + (offset + buf.length - inode.data.length) =
      offset + buf.length := by omega
    rw [if_pos (by omega), hcnt, h.extend_full (by omega) (by rw [hsum]; exact hroom)]
    rfl
  · exact absurd hbig' hbig

theorem File.growTo_huge (hv : v.Sound M) (hlo : MAX_LENGTH < offset + buf.length)
    (hhi : offset + buf.length < 2 ^ 31) (hroom : ¬ v.NoRoom inode.data (offset + buf.length)) :
    v.growTo inode.data (((offset : ℤ) + buf.length).bmod (2 ^ 32)) = none := by
  have hbound := h.holds.bound
  have hcnt : (((offset + buf.length : ℕ) : ℤ) - inode.data.length).toNat =
    offset + buf.length - inode.data.length := by omega
  have hsum : inode.data.length + (offset + buf.length - inode.data.length) =
    offset + buf.length := by omega
  rw [noRoom_iff (by omega) hhi, not_lt] at hroom
  unfold Volume.growTo
  rw [writePosition_eq hhi, if_pos (by omega), hcnt,
    h.extend_huge hv (by omega) (by omega) (by rw [hsum]; exact hroom)]
  rfl

/-- A write that does not make the file grow. -/
theorem File.inodeWriteAt_same (hv : v.Sound M) (hdeny : inode.denyWriteCnt = 0)
    (hgrow : v.growTo inode.data (((offset : ℤ) + buf.length).bmod (2 ^ 32)) =
      some (v, inode.data)) (hfits : inode.data.Fits buf.length offset) :
    ∃ v', v.inodeWriteAt inode buf offset =
        some (min buf.length (inode.data.length - offset), v', inode) ∧
      v'.Sound M ∧ v'.File M inode.data L
        (overwrite F offset (buf.take (min buf.length (inode.data.length - offset)))) ∧
      Keeps M inode.data.doubleIndirect L L v v' := by
  obtain ⟨d', hwrt, hhld, hsame⟩ := h.holds.writeLoop_min le_rfl hfits
  rw [take_eq_take_min, Nat.min_comm] at hhld
  have hsub : ∀ s ∈ L.secs, s ∈ L.owned inode.data.doubleIndirect := fun s hs =>
    mem_cons_of_mem _ (mem_append_right _ hs)
  refine ⟨{ v with disk := d' }, ?_,
    hv.mono hsame (fun s hs => h.apart s (hsub s hs)) rfl fun _ hs _ => hs,
    ⟨hhld, h.marked, h.apart⟩, ⟨⟨rfl, hsame.1, fun _ => id, fun s _ _ hs =>
      hsame.2 s fun hs' => hs (hsub s hs')⟩, fun _ _ => id, prefix_rfl⟩⟩
  unfold Volume.inodeWriteAt
  rw [if_pos h.holds.magic, if_neg (by simp [hdeny])]
  simp only [hgrow, hwrt, bind_eq_bind, bind_some]

section
variable (hv : v.Sound M) (hbuf : buf.length < 2 ^ 31) (hoff : offset < 2 ^ 31)
include hv hbuf hoff

/-- A write that fits goes through, and leaves a file. -/
theorem File.inodeWriteAt_of_fits (hfits : v.WriteFits inode buf.length offset) :
    ∃ written v' length L', v.inodeWriteAt inode buf offset = some (written, v',
        { inode with data := { inode.data with length } }) ∧
      v'.Sound M ∧
      v'.File M { inode.data with length } L'
        (overwrite F offset (buf.take written)) ∧
      Keeps M inode.data.doubleIndirect L L' v v' ∧
      Wrote buf.length offset inode.data.length written length := by
  by_cases hdeny : inode.denyWriteCnt = 0
  swap
  · refine ⟨0, v, inode.data.length, L, ?_, hv, by simpa using h, .refl _ _ _ _,
      .inr ⟨rfl, .inl rfl⟩⟩
    unfold Volume.inodeWriteAt
    rw [if_pos h.holds.magic, if_pos hdeny]
  have hmax := MAX_LENGTH_eq
  by_cases hn : offset + buf.length ≤ MAX_LENGTH
  · by_cases hspc : sectorsFor (max inode.data.length (offset + buf.length)) -
      sectorsFor inode.data.length ≤ v.freeSectors.length
    · obtain ⟨v', L', inode', hw, rfl, hs, hf, hk, -⟩ := h.inodeWriteAt hv hdeny hn hspc
      exact ⟨_, v', _, L', hw, hs, by rwa [take_length], hk, .inl ⟨rfl, hn, rfl⟩⟩
    · have hlt : inode.data.length < offset + buf.length := by
        by_contra hle
        rw [max_eq_left (by omega)] at hspc
        omega
      rw [max_eq_right hlt.le] at hspc
      have hgrow := h.growTo_same hoff hbuf
        (.inr (.inl ((noRoom_iff hlt.le (by omega)).mpr (by omega))))
      obtain ⟨v', hw, hs, hf, hk⟩ := h.inodeWriteAt_same hv hdeny hgrow (.inr (.inl hn))
      exact ⟨_, v', inode.data.length, L, hw, hs, hf, hk, .inr ⟨rfl, .inr rfl⟩⟩
  · obtain hd | hn' | ⟨hno, hfits⟩ := hfits
    · exact absurd hdeny hd
    · exact absurd hn' hn
    · have hgrow := h.growTo_same hoff hbuf (.inr hno)
      obtain ⟨v', hw, hs, hf, hk⟩ := h.inodeWriteAt_same hv hdeny hgrow hfits
      exact ⟨_, v', inode.data.length, L, hw, hs, hf, hk, .inr ⟨rfl, .inr rfl⟩⟩

theorem File.inodeWriteAt_eq_none
    (hno : ¬ v.WriteFits inode buf.length offset) : v.inodeWriteAt inode buf offset = none := by
  simp only [WriteFits, not_or, not_and_or] at hno
  obtain ⟨hdeny, hn, hno⟩ := hno
  unfold Volume.inodeWriteAt
  rw [if_pos h.holds.magic, if_neg (by simp [hdeny])]
  by_cases hgro : v.NoRoom inode.data (offset + buf.length) ∨ 2 ^ 31 ≤ offset + buf.length
  · have hfits := hno.resolve_left fun hroom =>
      hgro.elim hroom.1 hroom.2
    simp only [h.growTo_same hoff hbuf (.inr hgro), bind_eq_bind, bind_some,
      h.holds.writeLoop_eq_none le_rfl hfits (by omega), bind_none]
  · obtain ⟨hroom, hhi⟩ := not_or.mp hgro
    simp only [h.growTo_huge hv (by omega) (by omega) hroom, bind_eq_bind, bind_none]

theorem File.inodeWriteAt_eq_some (hw : v.inodeWriteAt inode buf offset = some (written, v', inode')) :
    ∃ length L', inode' = { inode with data := { inode.data with length } } ∧
      v'.Sound M ∧
      v'.File M { inode.data with length } L'
        (overwrite F offset (buf.take written)) ∧
      Keeps M inode.data.doubleIndirect L L' v v' ∧
      Wrote buf.length offset inode.data.length written length := by
  have hfits : v.WriteFits inode buf.length offset := by
    by_contra hno
    simp [h.inodeWriteAt_eq_none hv hbuf hoff hno] at hw
  obtain ⟨written1, v1, length, L', hw1, hs, hf, hk, hn⟩ :=
    h.inodeWriteAt_of_fits hv hbuf hoff hfits
  obtain ⟨rfl, rfl, rfl⟩ := hw1.symm.trans hw
  exact ⟨length, L', rfl, hs, hf, hk, hn⟩

end

end

/-- What the growth at the start of `inode_write_at` has done, if it returns. -/
theorem File.mirrored_growTo (h : v.File M data L F) (hv : v.Sound M)
    (hm : v.Mirrored M) (hn : n < 2 ^ 31) (hg : v.growTo data n = some (v', data')) :
    v'.Mirrored M ∧ ∃ L', v'.File M data' L' F := by
  unfold Volume.growTo at hg
  split_ifs at hg with hlt
  swap
  · obtain ⟨rfl, rfl⟩ := hg
    exact ⟨hm, L, h⟩
  obtain ⟨⟨ok, v1, data1⟩, hx, hg⟩ := bind_eq_some_iff.mp hg
  obtain ⟨rfl, rfl⟩ := hg
  have hcnt : data.length + (n - data.length).toNat < 2 ^ 31 := by omega
  refine ⟨h.mirrored_extend hv hm hcnt hx, ?_⟩
  by_cases hspc : sectorsFor (data.length + (n - data.length).toNat) - sectorsFor data.length ≤
      v.freeSectors.length
  · by_cases hmax : data.length + (n - data.length).toNat ≤ MAX_LENGTH
    · obtain ⟨v2, L', hx', hext⟩ := h.extend hv hmax hspc
      rw [hx'] at hx
      obtain ⟨-, rfl, rfl⟩ := hx
      exact ⟨L', hext.fileOf⟩
    · rw [h.extend_huge hv (not_le.mp hmax) hcnt hspc] at hx
      cases hx
  · rw [h.extend_full hcnt (not_le.mp hspc)] at hx
    obtain ⟨-, rfl, rfl⟩ := hx
    exact ⟨L, h⟩

/-- A write changes the free map only together with its file. -/
theorem File.mirrored_inodeWriteAt (h : v.File M inode.data L F) (hv : v.Sound M)
    (hm : v.Mirrored M) (hoff : offset < 2 ^ 31)
    (hw : v.inodeWriteAt inode buf offset = some (written, v', inode')) : v'.Mirrored M := by
  unfold Volume.inodeWriteAt at hw
  split_ifs at hw with hdeny
  · obtain ⟨-, rfl, -⟩ := hw
    exact hm
  obtain ⟨⟨v1, data⟩, hgrow, hw⟩ := bind_eq_some_iff.mp hw
  obtain ⟨⟨n, d⟩, hloop, hw⟩ := bind_eq_some_iff.mp hw
  obtain ⟨-, rfl, -⟩ : _ ∧ { v1 with disk := d } = v' ∧ _ := by simpa using hw
  obtain ⟨hm1, L1, h1⟩ := h.mirrored_growTo hv hm (by
    have := @Int.bmod_lt (offset + buf.length) (2 ^ 32) (by decide)
    omega) hgrow
  have hfits : data.Fits buf.length offset := by
    by_contra hno
    simp [h1.holds.writeLoop_eq_none le_rfl hno (by omega)] at hloop
  obtain ⟨d', hloop', -, hsame⟩ := h1.holds.writeLoop_min le_rfl hfits
  obtain ⟨-, rfl⟩ := hloop'.symm.trans hloop
  have hsub : ∀ s ∈ L1.secs, s ∈ L1.owned data.doubleIndirect := fun s hs =>
    mem_cons_of_mem _ (mem_append_right _ hs)
  exact hm1.mono hsame (fun s hs => ⟨h1.holds.valid.ne_zero s (hsub s hs), h1.apart s (hsub s hs)⟩)
    rfl rfl

/-- **The largest file.**  For every file, every read and every write stays in the bounds of the
tables exactly if it fits, and a write that returns leaves a file. -/
theorem File.in_bounds_iff (v : Volume) (M : List ℕ) (inode : Inode) (L : Layout) (F : ℕ → UInt8)
    (h : v.File M inode.data L F) (hv : v.Sound M) :
    (∀ size offset, size < 2 ^ 31 → offset < 2 ^ 31 →
      (v.ReadsInBounds inode size offset ↔ inode.data.Fits size offset)) ∧
    ∀ (buf : List UInt8) (offset : ℕ), buf.length < 2 ^ 31 → offset < 2 ^ 31 →
      (v.WritesInBounds inode buf offset ↔ v.WriteFits inode buf.length offset) ∧
      ∀ written v' inode', v.inodeWriteAt inode buf offset = some (written, v', inode') →
        v'.Sound M ∧ ∃ L' F', v'.File M inode'.data L' F' := by
  refine ⟨fun size offset _ hoff => h.readsInBounds_iff hoff, fun buf offset hbuf hoff => ?_⟩
  by_cases hfits : v.WriteFits inode buf.length offset
  · obtain ⟨written, v', length, L', hw, -, hf, -, hn⟩ :=
      h.inodeWriteAt_of_fits hv hbuf hoff hfits
    have hle := h.holds.bound
    refine ⟨⟨fun _ => hfits, fun _ => ⟨written, v', _, hw, hf.holds.bound, fun hpos hlt => by
      unfold Wrote at hn; omega⟩⟩, fun written1 v1 inode1 hw1 => ?_⟩
    obtain ⟨length1, L1, rfl, hs1, hf1, -, -⟩ := h.inodeWriteAt_eq_some hv hbuf hoff hw1
    exact ⟨hs1, L1, _, hf1⟩
  · have hnone := h.inodeWriteAt_eq_none hv hbuf hoff hfits
    refine ⟨⟨?_, fun hf => absurd hf hfits⟩, ?_⟩
    · rintro ⟨written, v', inode', hw, -⟩
      rw [hnone] at hw
      cases hw
    · intro written v' inode' hw
      rw [hnone] at hw
      cases hw

/-- On a small device, a write over the end of the largest file returns 0: there are not enough free
sectors to grow the file. -/
theorem File.in_bounds_small_device : ∃ v v₁ inode,
    (freeMapInit ⟨64, fun _ _ => 0⟩).freeMapCreate = some v ∧
    v.inodeCreate ROOT_DIR_SECTOR 0 false = some (true, v₁) ∧
    v₁.inodeOpen ROOT_DIR_SECTOR = some inode ∧
    v₁.ReadsInBounds inode 700 0 ∧ v₁.WritesInBounds inode [1, 2] (2 ^ 23 - 1) := by
  obtain ⟨v, v₁, M, double, L, hv, -, -, -, -, hcou, hlt, hcrt, hc⟩ :=
    OpenFile.exists_file 0 (by decide) (by decide)
  have hfree : v₁.freeSectors.length ≤ 64 := by omega
  have hroom : v₁.NoRoom ⟨0, false, double, INODE_MAGIC⟩ (2 ^ 23 - 1 + 2) :=
    (noRoom_iff (Nat.zero_le _) (by decide)).mpr (lt_of_le_of_lt hfree (by
      show 64 < sectorsFor (2 ^ 23 - 1 + 2) - sectorsFor 0
      decide))
  obtain ⟨hread, hwrt⟩ := File.in_bounds_iff v₁ M
    ⟨ROOT_DIR_SECTOR, 1, false, 0, ⟨0, false, double, INODE_MAGIC⟩, 0, none⟩ L _ hc.fileOf hc.sound
  refine ⟨v, v₁, _, hv, hcrt, hc.inodeOpen hlt, (hread 700 0 (by decide) (by decide)).mpr ?_,
    (hwrt [1, 2] (2 ^ 23 - 1) (by decide) (by decide)).1.mpr (.inr (.inr ⟨.inl hroom, ?_⟩))⟩
  · exact .inr (.inl (by decide))
  · exact .inr (.inr (show max (2 ^ 23 - 1) 0 < MAX_LENGTH by decide))

/-- A read behind the largest file, which every caller of `seek` can ask for, fails although it is
behind the end of the file. -/
theorem read_behind_largest_file : ∃ v v₁ inode,
    (freeMapInit ⟨64, fun _ _ => 0⟩).freeMapCreate = some v ∧
    v.inodeCreate ROOT_DIR_SECTOR 0 false = some (true, v₁) ∧
    v₁.inodeOpen ROOT_DIR_SECTOR = some inode ∧
    v₁.inodeReadAt inode 1 (2 ^ 23) = none ∧ ¬ v₁.ReadsInBounds inode 1 (2 ^ 23) := by
  obtain ⟨v, v₁, M, double, L, hv, -, -, -, -, -, hlt, hcrt, hc⟩ :=
    OpenFile.exists_file 0 (by decide) (by decide)
  have hno : ¬ InodeDisk.Fits ⟨0, false, double, INODE_MAGIC⟩ 1 (2 ^ 23) := by
    simp [InodeDisk.Fits, MAX_LENGTH_eq]
  have hnone : v₁.inodeReadAt ⟨ROOT_DIR_SECTOR, 1, false, 0, ⟨0, false, double, INODE_MAGIC⟩, 0,
      none⟩ 1 (2 ^ 23) = none := by
    exact hc.fileOf.holds.readLoop_eq_none (le_refl 1) hno (by decide)
  refine ⟨v, v₁, _, hv, hcrt, hc.inodeOpen hlt, hnone, ?_⟩
  rintro ⟨bytes, hread, -⟩
  cases hread

end Volume

end Pintos
