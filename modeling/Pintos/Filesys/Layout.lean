import Pintos.Filesys.Inode

/-! # How a file lies on the device

`Holds d data L F`: the inode `data` is the head of a file with the bytes `F`, whose indirect
tables and data sectors are the lists in the layout `L`.

* **Index.**  Entry `k` of the double indirect table is the `k`-th table, entry `j` of that table is
  data sector `128 * k + j`; entries behind the end are zero.
* **Tail.**  The bytes behind the end of the file are zero up to the end of the last sector, so that
  a file can grow inside its last sector without touching it.
* **Ownership.**  All sectors of the file are different from each other and from sector 0.

`Holds.readLoop` and `Holds.writeLoop` say what the loops of `inode_read_at` and `inode_write_at`
do to such a file. -/

namespace Pintos
open Bytes Option List Disk

/-- The largest size that the double indirect table can describe, 8 MiB. -/
def MAX_LENGTH : ℕ := 2 ^ 23

/-- The number of data sectors of a file of `n` bytes.  An empty file has one. -/
def dataSectors (n : ℕ) : ℕ := (n - 1) / BLOCK_SECTOR_SIZE + 1

/-- The number of indirect tables for `n` data sectors. -/
def tablesFor (n : ℕ) : ℕ := (n - 1) / NUM_ENTRIES_IN_INDIRECT + 1

/-- Entry `k` of the table in a sector. -/
def entry (b : Block) (k : ℕ) : ℕ := word 4 fun i => b (4 * k + i)

theorem BLOCK_SECTOR_SIZE_eq : BLOCK_SECTOR_SIZE = 512 := rfl
theorem NUM_ENTRIES_eq : NUM_ENTRIES_IN_INDIRECT = 128 := rfl
theorem MAX_LENGTH_eq : MAX_LENGTH = 8388608 := rfl

/-! ### Buffers -/

theorem sectorOf_slice (b : Block) (k : ℕ) : sectorOf (slice b (4 * k) 4) = entry b k :=
  word_congr fun _ hi => getD_slice hi

theorem tableOf_slice (b : Block) (hk : k < NUM_ENTRIES_IN_INDIRECT) :
    tableOf (slice b 0 BLOCK_SECTOR_SIZE) k = entry b k := by
  apply word_congr
  intro i hi
  rw [NUM_ENTRIES_eq] at hk
  rw [region, getD_slice (by rw [BLOCK_SECTOR_SIZE_eq]; omega), zero_add]

theorem entry_tableBytes (b : Block) (hk : k < NUM_ENTRIES_IN_INDIRECT)
    (ht : t k < 2 ^ 32) : entry (overwrite b 0 (tableBytes t)) k = t k := by
  rw [NUM_ENTRIES_eq] at hk
  have hword : entry (overwrite b 0 (tableBytes t)) k = word 4 (byte (t k)) := by
    apply word_congr
    intro i hi
    have hlt : 4 * k + i < BLOCK_SECTOR_SIZE := by rw [BLOCK_SECTOR_SIZE_eq]; omega
    rw [overwrite_of_inside (Nat.zero_le _) (by simpa [tableBytes] using hlt), Nat.sub_zero,
      tableBytes, getD_slice hlt, zero_add, show (4 * k + i) / 4 = k by omega,
      show (4 * k + i) % 4 = i by omega]
  rw [hword, word_byte_of_lt (by simpa using ht)]

theorem overwrite_zeros (b : Block) (ho : o < BLOCK_SECTOR_SIZE) : overwrite b 0 zeros o = 0 := by
  rw [overwrite_of_inside (Nat.zero_le _) (by simpa [zeros] using ho)]
  exact congrFun (region_replicate BLOCK_SECTOR_SIZE) o

theorem region_bytes (data : InodeDisk) (hj : j < BLOCK_SECTOR_SIZE) :
    region data.bytes j =
      if j < 4 then byte data.length j
      else if j = 4 then (if data.isDirectory then 1 else 0)
      else if 8 ≤ j ∧ j < 12 then byte data.doubleIndirect (j - 8)
      else if 12 ≤ j ∧ j < 16 then byte data.magic (j - 12)
      else 0 := by
  rw [region, InodeDisk.bytes, getD_slice hj, zero_add]

/-- An inode that has been written to a sector is read back. -/
theorem ofBytes_bytes (b : Block) {data : InodeDisk} (hl : data.length < 2 ^ 32)
    (hd : data.doubleIndirect < 2 ^ 32) (hm : data.magic < 2 ^ 32) :
    InodeDisk.ofBytes (slice (overwrite b 0 data.bytes) 0 BLOCK_SECTOR_SIZE) = data := by
  have hread : ∀ j < BLOCK_SECTOR_SIZE,
      region (slice (overwrite b 0 data.bytes) 0 BLOCK_SECTOR_SIZE) j = region data.bytes j := by
    intro j hj
    have hlen : data.bytes.length = BLOCK_SECTOR_SIZE := length_slice _ _ _
    rw [region, getD_slice hj, zero_add, overwrite_of_inside (Nat.zero_le _) (by omega)]
    rfl
  generalize slice (overwrite b 0 data.bytes) 0 BLOCK_SECTOR_SIZE = buf at hread
  have hsml : ∀ j < 16, j < BLOCK_SECTOR_SIZE := by
    rw [BLOCK_SECTOR_SIZE_eq]
    omega
  have hlng : word 4 (region buf) = data.length := by
    rw [← word_byte_of_lt (n := data.length) (w := 4) (by simpa using hl)]
    apply word_congr
    intro i hi
    rw [hread i (hsml i (by omega)), region_bytes data (hsml i (by omega)), if_pos hi]
  have hdir : (region buf 4 != 0) = data.isDirectory := by
    rw [hread 4 (hsml 4 (by omega)), region_bytes data (hsml 4 (by omega))]
    cases data.isDirectory <;> rfl
  have hdbl : (word 4 fun i => region buf (8 + i)) = data.doubleIndirect := by
    rw [← word_byte_of_lt (n := data.doubleIndirect) (w := 4) (by simpa using hd)]
    apply word_congr
    intro i hi
    rw [hread _ (hsml _ (by omega)), region_bytes data (hsml _ (by omega)),
      if_neg (by omega), if_neg (by omega), if_pos (by omega), Nat.add_sub_cancel_left]
  have hmgc : (word 4 fun i => region buf (12 + i)) = data.magic := by
    rw [← word_byte_of_lt (n := data.magic) (w := 4) (by simpa using hm)]
    apply word_congr
    intro i hi
    rw [hread _ (hsml _ (by omega)), region_bytes data (hsml _ (by omega)),
      if_neg (by omega), if_neg (by omega), if_neg (by omega), if_pos (by omega),
      Nat.add_sub_cancel_left]
  unfold InodeDisk.ofBytes
  rw [hlng, hdir, hdbl, hmgc]

/-! ### Sectors -/

namespace Disk

variable {d d' : Disk} {s : ℕ} {buf : List UInt8} {offset : ℕ}

theorem cacheRead_eq {size : ℕ} (hs : s < d.size) (h : size + offset ≤ BLOCK_SECTOR_SIZE) :
    d.cacheRead s size offset = some (slice (d.block s) offset size) :=
  if_pos ⟨h, hs⟩

theorem cacheWrite_eq (hs : s < d.size) (h : buf.length + offset ≤ BLOCK_SECTOR_SIZE) :
    d.cacheWrite s buf offset = some (d.put s buf offset) :=
  if_pos ⟨h, hs⟩

@[simp] theorem put_block_self :
    (d.put s buf offset).block s = overwrite (d.block s) offset buf := by
  simp [put]

theorem put_block_of_ne (h : s' ≠ s) : (d.put s buf offset).block s' = d.block s' := by
  simp [put, h]

/-- The devices differ in the sectors of `l` at most. -/
def SameOutside (l : List ℕ) (d d' : Disk) : Prop :=
  d'.size = d.size ∧ ∀ s, s ∉ l → d'.block s = d.block s

theorem SameOutside.refl (l : List ℕ) (d : Disk) : SameOutside l d d := ⟨rfl, fun _ _ => rfl⟩

theorem SameOutside.trans (h : SameOutside l d1 d2)
    (h' : SameOutside l d2 d3) : SameOutside l d1 d3 :=
  ⟨h'.1.trans h.1, fun s hs => (h'.2 s hs).trans (h.2 s hs)⟩

theorem SameOutside.mono (h : SameOutside l d d') (hl : ∀ s ∈ l, s ∈ l') : SameOutside l' d d' :=
  ⟨h.1, fun s hs => h.2 s fun hs' => hs (hl s hs')⟩

theorem sameOutside_put (h : s ∈ l) : SameOutside l d (d.put s buf offset) :=
  ⟨rfl, fun _ hs' => put_block_of_ne fun he => hs' (he ▸ h)⟩

end Disk

theorem readTable_eq (hs : s < d.size) :
    ∃ t, Volume.readTable d s = some t ∧
      ∀ k < NUM_ENTRIES_IN_INDIRECT, t k = entry (d.block s) k := by
  refine ⟨tableOf (slice (d.block s) 0 BLOCK_SECTOR_SIZE), ?_, fun k hk => tableOf_slice _ hk⟩
  unfold Volume.readTable
  rw [cacheRead_eq hs le_rfl]
  rfl

/-! ### Files -/

/-- The sectors of the indirect tables and of the data of a file, in order. -/
structure Layout where
  tabs : List ℕ
  secs : List ℕ

/-- All sectors that belong to a file, except the one of its inode. -/
def Layout.owned (L : Layout) (double : ℕ) : List ℕ := double :: (L.tabs ++ L.secs)

/-- The sectors of a file are different and can be told from a missing entry. -/
structure Layout.Valid (L : Layout) (double size : ℕ) : Prop where
  nodup : (L.owned double).Nodup
  ne_zero : ∀ s ∈ L.owned double, s ≠ 0
  lt_size : ∀ s ∈ L.owned double, s < size

/-- The inode `data` heads a file with the bytes `F` that is laid out as `L`. -/
structure Holds (d : Disk) (data : InodeDisk) (L : Layout) (F : ℕ → UInt8) : Prop where
  magic : data.magic = INODE_MAGIC
  bound : data.length ≤ MAX_LENGTH
  secs_length : L.secs.length = dataSectors data.length
  tabs_length : L.tabs.length = tablesFor L.secs.length
  valid : L.Valid data.doubleIndirect d.size
  double : ∀ k < NUM_ENTRIES_IN_INDIRECT, entry (d.block data.doubleIndirect) k = L.tabs.getD k 0
  single : ∀ k < L.tabs.length, ∀ j < NUM_ENTRIES_IN_INDIRECT,
    entry (d.block (L.tabs.getD k 0)) j = L.secs.getD (NUM_ENTRIES_IN_INDIRECT * k + j) 0
  bytes : ∀ b < L.secs.length, ∀ o < BLOCK_SECTOR_SIZE,
    d.block (L.secs.getD b 0) o = F (BLOCK_SECTOR_SIZE * b + o)
  zero : ∀ i, data.length ≤ i → F i = 0

section
variable {d d' : Disk} {data : InodeDisk} {L : Layout} {F : ℕ → UInt8} {double size : ℕ}

theorem getD_mem {l : List ℕ} (h : k < l.length) : l.getD k 0 ∈ l := by
  rw [getD_eq_getElem _ _ h]
  exact getElem_mem h

theorem Layout.double_mem : double ∈ L.owned double := mem_cons_self

theorem Layout.tab_mem {k : ℕ} (h : k < L.tabs.length) : L.tabs.getD k 0 ∈ L.owned double :=
  mem_cons_of_mem _ (mem_append_left _ (getD_mem h))

theorem Layout.sec_mem {b : ℕ} (h : b < L.secs.length) : L.secs.getD b 0 ∈ L.owned double :=
  mem_cons_of_mem _ (mem_append_right _ (getD_mem h))

section
variable (h : L.Valid double size)
include h

theorem Layout.Valid.double_ne (hs : s ∈ L.tabs ++ L.secs) : double ≠ s :=
  fun he => (nodup_cons.mp h.nodup).1 (he ▸ hs)

theorem Layout.Valid.double_ne_tab {k : ℕ} (hk : k < L.tabs.length) : double ≠ L.tabs.getD k 0 :=
  h.double_ne (mem_append_left _ (getD_mem hk))

theorem Layout.Valid.double_ne_sec {b : ℕ} (hb : b < L.secs.length) : double ≠ L.secs.getD b 0 :=
  h.double_ne (mem_append_right _ (getD_mem hb))

theorem Layout.Valid.tab_ne_sec {k b : ℕ} (hk : k < L.tabs.length)
    (hb : b < L.secs.length) : L.tabs.getD k 0 ≠ L.secs.getD b 0 := by
  intro he
  have hdisj := disjoint_of_nodup_append (nodup_cons.mp h.nodup).2
  exact hdisj (getD_mem hk) (he ▸ getD_mem hb)

theorem Layout.Valid.tab_inj (hk : k < L.tabs.length)
    (hk' : k' < L.tabs.length) (he : L.tabs.getD k 0 = L.tabs.getD k' 0) : k = k' := by
  rw [getD_eq_getElem _ _ hk, getD_eq_getElem _ _ hk'] at he
  exact (nodup_append.mp (nodup_cons.mp h.nodup).2).1.getElem_inj_iff.mp he

theorem Layout.Valid.sec_inj (hb : b < L.secs.length)
    (hb' : b' < L.secs.length) (he : L.secs.getD b 0 = L.secs.getD b' 0) : b = b' := by
  rw [getD_eq_getElem _ _ hb, getD_eq_getElem _ _ hb'] at he
  exact (nodup_append.mp (nodup_cons.mp h.nodup).2).2.1.getElem_inj_iff.mp he

end

section
variable (h : Holds d data L F)
include h

theorem Holds.frame (hsize : d'.size = d.size)
    (hd : ∀ s ∈ L.owned data.doubleIndirect, d'.block s = d.block s) : Holds d' data L F where
  magic := h.magic
  bound := h.bound
  secs_length := h.secs_length
  tabs_length := h.tabs_length
  valid := hsize ▸ h.valid
  double := by
    intro k hk
    rw [hd _ Layout.double_mem]
    exact h.double k hk
  single := by
    intro k hk j hj
    rw [hd _ (Layout.tab_mem hk)]
    exact h.single k hk j hj
  bytes := by
    intro b hb o ho
    rw [hd _ (Layout.sec_mem hb)]
    exact h.bytes b hb o ho
  zero := h.zero

theorem Holds.secs_le : L.secs.length ≤ 16384 := by
  have hb := h.bound
  have hs := h.secs_length
  rw [MAX_LENGTH_eq] at hb
  unfold dataSectors at hs
  rw [BLOCK_SECTOR_SIZE_eq] at hs
  omega

theorem Holds.secs_pos : 0 < L.secs.length := by
  rw [h.secs_length]
  exact Nat.succ_pos _

theorem Holds.length_le : data.length ≤ BLOCK_SECTOR_SIZE * L.secs.length := by
  rw [h.secs_length]
  unfold dataSectors
  rw [BLOCK_SECTOR_SIZE_eq]
  omega

end

/-! ### Finding a sector -/

theorem indicesFromOffset_natCast {pos : ℕ} (h : pos < 2 ^ 32) : indicesFromOffset pos =
    (pos / BLOCK_SECTOR_SIZE % NUM_ENTRIES_IN_INDIRECT,
      pos / BLOCK_SECTOR_SIZE / NUM_ENTRIES_IN_INDIRECT) := by
  have hdiv : (pos : ℤ).tdiv BLOCK_SECTOR_SIZE = ((pos / BLOCK_SECTOR_SIZE : ℕ) : ℤ) := by
    rw [Int.ofNat_tdiv]
  have hlt : pos / BLOCK_SECTOR_SIZE < 2 ^ 32 := (Nat.div_le_self _ _).trans_lt h
  have hmod : ((pos : ℤ).tdiv BLOCK_SECTOR_SIZE % 2 ^ 32).toNat = pos / BLOCK_SECTOR_SIZE := by
    rw [hdiv, Int.emod_eq_of_lt (Int.natCast_nonneg _) (by exact_mod_cast hlt), Int.toNat_natCast]
  unfold indicesFromOffset
  rw [hmod]

/-- `byte_to_sector` finds the data sector of a position, or that there is none. -/
theorem Holds.byteToSector (h : Holds d data L F) (hpos : pos < MAX_LENGTH) :
    d.byteToSector data pos = some
      (if pos / BLOCK_SECTOR_SIZE < L.secs.length then
        some (L.secs.getD (pos / BLOCK_SECTOR_SIZE) 0) else none) := by
  rw [MAX_LENGTH_eq] at hpos
  have hind : pos / BLOCK_SECTOR_SIZE / NUM_ENTRIES_IN_INDIRECT < NUM_ENTRIES_IN_INDIRECT := by
    rw [BLOCK_SECTOR_SIZE_eq, NUM_ENTRIES_eq]
    omega
  have hdir : pos / BLOCK_SECTOR_SIZE % NUM_ENTRIES_IN_INDIRECT < NUM_ENTRIES_IN_INDIRECT :=
    Nat.mod_lt _ (by decide)
  have hspl : NUM_ENTRIES_IN_INDIRECT * (pos / BLOCK_SECTOR_SIZE / NUM_ENTRIES_IN_INDIRECT) +
      pos / BLOCK_SECTOR_SIZE % NUM_ENTRIES_IN_INDIRECT = pos / BLOCK_SECTOR_SIZE :=
    Nat.div_add_mod _ _
  unfold Disk.byteToSector
  rw [if_pos h.magic, indicesFromOffset_natCast (by omega)]
  generalize pos / BLOCK_SECTOR_SIZE / NUM_ENTRIES_IN_INDIRECT = k at *
  generalize pos / BLOCK_SECTOR_SIZE % NUM_ENTRIES_IN_INDIRECT = j at *
  generalize pos / BLOCK_SECTOR_SIZE = b at *
  have htabs := h.tabs_length
  unfold tablesFor at htabs
  rw [NUM_ENTRIES_eq] at hind hdir hspl htabs
  have hread : ∀ s i, s < d.size → i < 128 →
      d.cacheRead s 4 (4 * i) = some (slice (d.block s) (4 * i) 4) := fun s i hs hi =>
    cacheRead_eq hs (by rw [BLOCK_SECTOR_SIZE_eq]; omega)
  simp only [hread _ _ (h.valid.lt_size _ Layout.double_mem) hind, bind_eq_bind,
    bind_some, sectorOf_slice, h.double k hind]
  by_cases hk : k < L.tabs.length
  · rw [if_neg (h.valid.ne_zero _ (Layout.tab_mem hk)), hread _ _ (h.valid.lt_size _
      (Layout.tab_mem hk)) hdir, bind_some, sectorOf_slice, h.single k hk j hdir,
      NUM_ENTRIES_eq, hspl]
    by_cases hb : b < L.secs.length
    · rw [if_neg (h.valid.ne_zero _ (Layout.sec_mem hb)), if_pos hb]
    · rw [if_pos (getD_eq_default _ _ (by omega)), if_neg hb]
  · rw [if_pos (getD_eq_default _ _ (by omega)), if_neg (by omega)]

/-! ### Reading -/

theorem chunkSize_le : chunkSize data size offset ≤ size :=
  min_le_left _ _

theorem chunk_bounds (h : chunkSize data size offset ≠ 0) :
    offset + chunkSize data size offset ≤ data.length ∧
      chunkSize data size offset + offset % BLOCK_SECTOR_SIZE ≤ BLOCK_SECTOR_SIZE := by
  unfold chunkSize at *
  omega

theorem Holds.sector_lt (h : Holds d data L F) (ho : offset < data.length) :
    offset / BLOCK_SECTOR_SIZE < L.secs.length := by
  have hl := h.length_le
  rw [BLOCK_SECTOR_SIZE_eq] at *
  omega

/-- A read that does not go on behind the largest file returns the bytes that are there. -/
theorem Holds.readLoop (h : Holds d data L F) {fuel size offset : ℕ} (hf : size ≤ fuel)
    (hr : size = 0 ∨ offset + size ≤ MAX_LENGTH ∨ max offset data.length < MAX_LENGTH) :
    d.readLoop data fuel size offset =
      some (slice F offset (min size (data.length - offset))) := by
  induction fuel generalizing size offset with
  | zero =>
    obtain rfl : size = 0 := by omega
    simp [Disk.readLoop]
  | succ fuel ih =>
    unfold Disk.readLoop
    by_cases hsize : size = 0
    · simp [hsize]
    rw [if_neg hsize, h.byteToSector (by omega), bind_eq_bind, bind_some]
    have hdef : Disk.chunkSize data size offset = min size (min (data.length - offset)
      (BLOCK_SECTOR_SIZE - offset % BLOCK_SECTOR_SIZE)) := rfl
    have hmod : offset % BLOCK_SECTOR_SIZE < BLOCK_SECTOR_SIZE := Nat.mod_lt _ (by decide)
    by_cases hc : Disk.chunkSize data size offset = 0
    · rw [if_pos hc, show min size (data.length - offset) = 0 by omega, slice_zero]
    obtain ⟨hlen, hsec⟩ := chunk_bounds hc
    generalize Disk.chunkSize data size offset = c at *
    have hb := h.sector_lt (show offset < data.length by omega)
    have hread := Disk.cacheRead_eq (h.valid.lt_size _ (Layout.sec_mem hb)) hsec
    rw [if_neg hc, if_pos hb]
    simp only [hread, @ih (size - c) (offset + c) (by omega) (by omega), bind_eq_bind, bind_some]
    -- the chunk and what the remaining turns return are adjacent slices of the file
    rw [show min size (data.length - offset) =
        c + min (size - c) (data.length - (offset + c)) by omega, slice_add]
    congr 2
    apply slice_congr
    intro j hj
    rw [h.bytes _ hb _ (by omega)]
    congr 1
    have := Nat.div_add_mod offset BLOCK_SECTOR_SIZE
    omega

theorem Holds.inodeReadAt {v : Volume} (h : Holds v.disk inode.data L F)
    (hr : size = 0 ∨ offset + size ≤ MAX_LENGTH ∨ max offset inode.data.length < MAX_LENGTH) :
    v.inodeReadAt inode size offset =
      some (slice F offset (min size (inode.data.length - offset))) := by
  unfold Volume.inodeReadAt
  rw [if_pos h.magic]
  exact h.readLoop le_rfl hr

/-! ### Writing -/

/-- Overwriting a part of one data sector overwrites a part of the file. -/
theorem Holds.put (h : Holds d data L F) (hb : b < L.secs.length)
    (ho : buf.length + o ≤ BLOCK_SECTOR_SIZE)
    (hl : BLOCK_SECTOR_SIZE * b + o + buf.length ≤ data.length) :
    Holds (d.put (L.secs.getD b 0) buf o) data L
      (overwrite F (BLOCK_SECTOR_SIZE * b + o) buf) where
  magic := h.magic
  bound := h.bound
  secs_length := h.secs_length
  tabs_length := h.tabs_length
  valid := h.valid
  double := by
    intro k hk
    rw [put_block_of_ne (h.valid.double_ne_sec hb)]
    exact h.double k hk
  single := by
    intro k hk j hj
    rw [put_block_of_ne (h.valid.tab_ne_sec hk hb)]
    exact h.single k hk j hj
  bytes := by
    intro b' hb' o' ho'
    by_cases he : b' = b
    · subst he
      rw [put_block_self, overwrite_add]
      unfold overwrite
      rw [h.bytes _ hb' _ ho']
    · rw [put_block_of_ne fun hs => he (h.valid.sec_inj hb' hb hs), h.bytes _ hb' _ ho',
        overwrite_of_outside]
      rw [BLOCK_SECTOR_SIZE_eq] at *
      omega
  zero := by
    intro i hi
    rw [overwrite_of_outside (by omega)]
    exact h.zero i hi

/-- A write that does not go on behind the largest file overwrites the bytes that are there. -/
theorem Holds.writeLoop_min (h : Holds d data L F) {fuel offset : ℕ} (hf : buf.length ≤ fuel)
    (hr : buf.length = 0 ∨ offset + buf.length ≤ MAX_LENGTH ∨ max offset data.length < MAX_LENGTH) :
    ∃ d', writeLoop data fuel d buf offset =
        some (min buf.length (data.length - offset), d') ∧
      Holds d' data L (overwrite F offset (buf.take (data.length - offset))) ∧
      SameOutside L.secs d d' := by
  induction fuel generalizing d F offset buf with
  | zero =>
    obtain rfl : buf = [] := length_eq_zero_iff.mp (by omega)
    exact ⟨d, by simp [writeLoop], by simpa using h, .refl _ d⟩
  | succ fuel ih =>
    unfold writeLoop
    by_cases hbuf : buf = []
    · subst hbuf
      exact ⟨d, by simp, by simpa using h, .refl _ d⟩
    have hpos : 0 < buf.length := length_pos_iff.mpr hbuf
    rw [if_neg hbuf, h.byteToSector (by omega), bind_eq_bind, bind_some]
    have hdef : chunkSize data buf.length offset = min buf.length
      (min (data.length - offset) (BLOCK_SECTOR_SIZE - offset % BLOCK_SECTOR_SIZE)) := rfl
    have hmod : offset % BLOCK_SECTOR_SIZE < BLOCK_SECTOR_SIZE := Nat.mod_lt _ (by decide)
    by_cases hc : chunkSize data buf.length offset = 0
    · have hend : data.length - offset = 0 := by omega
      rw [if_pos hc, hend]
      exact ⟨d, by simp, by simpa using h, .refl _ d⟩
    obtain ⟨hlen, hsec⟩ := chunk_bounds hc
    generalize chunkSize data buf.length offset = c at *
    have hb := h.sector_lt (show offset < data.length by omega)
    have htake : (buf.take c).length = c := by rw [length_take]; omega
    have hdrop : (buf.drop c).length = buf.length - c := length_drop
    have hoff : BLOCK_SECTOR_SIZE * (offset / BLOCK_SECTOR_SIZE) + offset % BLOCK_SECTOR_SIZE =
      offset := Nat.div_add_mod _ _
    have hfit : (buf.take c).length + offset % BLOCK_SECTOR_SIZE ≤ BLOCK_SECTOR_SIZE := by
      rw [htake]
      exact hsec
    have hput := h.put hb hfit (by rw [htake, hoff]; exact hlen)
    rw [hoff] at hput
    obtain ⟨d', hrest, hhld, hsame⟩ := ih hput (by omega)
      (show (buf.drop c).length = 0 ∨ offset + c + (buf.drop c).length ≤ MAX_LENGTH ∨
        max (offset + c) data.length < MAX_LENGTH by omega)
    refine ⟨d', ?_, ?_, (sameOutside_put (getD_mem hb)).trans hsame⟩
    · rw [if_neg hc, if_pos hb]
      have hwrt := cacheWrite_eq (h.valid.lt_size _ (Layout.sec_mem hb)) hfit
      simp only [hwrt, hrest, bind_eq_bind, bind_some]
      congr 2
      omega
    · rw [show data.length - offset = c + (data.length - (offset + c)) by omega, take_add]
      have happ := overwrite_append F offset (buf.take c)
      rw [htake] at happ
      rw [happ]
      exact hhld

theorem Holds.writeLoop (h : Holds d data L F)
    (hf : buf.length ≤ fuel) (hl : offset + buf.length ≤ data.length) :
    ∃ d', writeLoop data fuel d buf offset = some (buf.length, d') ∧
      Holds d' data L (overwrite F offset buf) ∧ SameOutside L.secs d d' := by
  obtain ⟨d', hw, hhld, hsame⟩ := h.writeLoop_min hf (.inr (.inl (hl.trans h.bound)))
  rw [Nat.min_eq_left (by omega)] at hw
  rw [take_of_length_le (by omega)] at hhld
  exact ⟨d', hw, hhld, hsame⟩

end

end Pintos
