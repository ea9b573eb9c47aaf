import Pintos.Filesys.Layout

/-! # Growing a file

`inode_extend_file` enters freshly allocated sectors into the tables of a file.

* **Loading.**  While its loop runs, the double indirect table and the indirect table that is being
  filled are in memory; `Loaded` is the layout predicate for that situation.
* **Loop.**  `Loaded.extendLoop`: the loop uses up the allocated sectors exactly, a new indirect
  table being taken from them whenever the last one is full.
* **Flush.**  Writing back the two tables makes the layout a file again (`Loaded.flush`). -/

namespace Pintos
open Bytes Volume Function Option List Disk Layout

/-- The number of data sectors and indirect tables of a file of `n` bytes. -/
def sectorsFor (n : ℕ) : ℕ := dataSectors n + tablesFor (dataSectors n)

/-! ### How many sectors are allocated -/

theorem indicesFromOffset_pred {n : ℕ} (h : n < 2 ^ 31) : indicesFromOffset ((n : ℤ) - 1) =
    ((dataSectors n - 1) % NUM_ENTRIES_IN_INDIRECT,
      (dataSectors n - 1) / NUM_ENTRIES_IN_INDIRECT) := by
  cases n with
  | zero => rfl
  | succ n =>
    rw [show ((n + 1 : ℕ) : ℤ) - 1 = n by omega]
    exact indicesFromOffset_natCast (by omega)

/-- The computation in `size_t` gives the difference of the two sizes in sectors. -/
theorem newSectors_eq {length cnt : ℕ} (h : length + cnt < 2 ^ 31) :
    newSectors length cnt = sectorsFor (length + cnt) - sectorsFor length := by
  have hbmod : ((length : ℤ) + cnt - 1).bmod (2 ^ 32) = ((length + cnt : ℕ) : ℤ) - 1 := by
    rw [Int.bmod_eq_of_le (by omega) (by omega)]
    omega
  have hmono : dataSectors length ≤ dataSectors (length + cnt) := by
    unfold dataSectors
    rw [BLOCK_SECTOR_SIZE_eq]
    omega
  have hle : dataSectors (length + cnt) ≤ 2 ^ 22 := by
    unfold dataSectors
    rw [BLOCK_SECTOR_SIZE_eq]
    omega
  have hpos : 0 < dataSectors length := Nat.succ_pos _
  unfold newSectors
  rw [hbmod, indicesFromOffset_pred h, indicesFromOffset_pred (by omega)]
  unfold sectorsFor tablesFor
  rw [NUM_ENTRIES_eq]
  simp only
  omega

/-! ### Tables in memory -/

/-- A file whose last indirect table and double indirect table are in memory, with `i` the index of
that table and `j` the index of the last entry in use. -/
structure Loaded (d : Disk) (double : ℕ) (ind dir : Table) (i j : ℕ) (L : Layout)
    (F : ℕ → UInt8) : Prop where
  size : d.size < 2 ^ 32
  tabs_length : L.tabs.length = i + 1
  secs_length : L.secs.length = NUM_ENTRIES_IN_INDIRECT * i + j + 1
  tab_lt : i < NUM_ENTRIES_IN_INDIRECT
  entry_lt : j < NUM_ENTRIES_IN_INDIRECT
  valid : L.Valid double d.size
  ind : ∀ k < NUM_ENTRIES_IN_INDIRECT, ind k = L.tabs.getD k 0
  dir : ∀ k < NUM_ENTRIES_IN_INDIRECT, dir k = L.secs.getD (NUM_ENTRIES_IN_INDIRECT * i + k) 0
  single : ∀ m < i, ∀ k < NUM_ENTRIES_IN_INDIRECT,
    entry (d.block (L.tabs.getD m 0)) k = L.secs.getD (NUM_ENTRIES_IN_INDIRECT * m + k) 0
  bytes : ∀ b < L.secs.length, ∀ o < BLOCK_SECTOR_SIZE,
    d.block (L.secs.getD b 0) o = F (BLOCK_SECTOR_SIZE * b + o)

section
variable {d d' : Disk} {data : InodeDisk} {L L' : Layout} {F : ℕ → UInt8} {double size : ℕ}
  {ind dir : Table} {i j : ℕ}

theorem Layout.Valid.getD_tabs_lt (h : L.Valid double size) (hsize : size < 2 ^ 32) (k : ℕ) :
    L.tabs.getD k 0 < 2 ^ 32 := by
  by_cases hk : k < L.tabs.length
  · exact (h.lt_size _ (tab_mem hk)).trans hsize
  · rw [getD_eq_default _ _ (by omega)]
    decide

theorem Layout.Valid.getD_secs_lt (h : L.Valid double size) (hsize : size < 2 ^ 32) (k : ℕ) :
    L.secs.getD k 0 < 2 ^ 32 := by
  by_cases hk : k < L.secs.length
  · exact (h.lt_size _ (sec_mem hk)).trans hsize
  · rw [getD_eq_default _ _ (by omega)]
    decide

theorem Layout.Valid.of_perm (h : L.Valid double size)
    (hp : (L'.owned double).Perm (L.owned double ++ new)) (hnd : (L.owned double ++ new).Nodup)
    (hv : ∀ a ∈ new, a ≠ 0 ∧ a < size) : L'.Valid double size where
  nodup := hp.nodup_iff.mpr hnd
  ne_zero := by
    intro s hs
    rcases mem_append.mp (hp.mem_iff.mp hs) with hs | hs
    · exact h.ne_zero s hs
    · exact (hv s hs).1
  lt_size := by
    intro s hs
    rcases mem_append.mp (hp.mem_iff.mp hs) with hs | hs
    · exact h.lt_size s hs
    · exact (hv s hs).2

theorem Layout.owned_snoc (L : Layout) (double a : ℕ) :
    (mk L.tabs (L.secs ++ [a])).owned double = L.owned double ++ [a] := by
  simp [owned]

theorem Layout.owned_snoc_both (L : Layout) (double a b : ℕ) :
    ((mk (L.tabs ++ [a]) (L.secs ++ [b])).owned double).Perm
      (L.owned double ++ [a, b]) := by
  simp only [owned, cons_append, append_assoc]
  exact (List.Perm.append_left _ (perm_append_comm_assoc [a] L.secs [b])).cons _

theorem getD_snoc (l : List ℕ) (a k : ℕ) :
    (l ++ [a]).getD k 0 = if k = l.length then a else l.getD k 0 := by
  by_cases hk : k < l.length
  · rw [getD_append _ _ _ _ hk, if_neg (by omega)]
  · by_cases he : k = l.length
    · rw [if_pos he, he, getD_append_right _ _ _ _ le_rfl, Nat.sub_self]
      rfl
    · rw [if_neg he, getD_eq_default _ _ (by simp; omega), getD_eq_default _ _ (by omega)]

/-- A file with its last tables loaded. -/
theorem Holds.loaded (h : Holds d data L F) (hsize : d.size < 2 ^ 32) :
    ∃ ind dir, readTable d data.doubleIndirect = some ind ∧
      readTable d (ind ((L.secs.length - 1) / NUM_ENTRIES_IN_INDIRECT)) = some dir ∧
      Loaded d data.doubleIndirect ind dir ((L.secs.length - 1) / NUM_ENTRIES_IN_INDIRECT)
        ((L.secs.length - 1) % NUM_ENTRIES_IN_INDIRECT) L F := by
  have htabs := h.tabs_length
  have hle := h.secs_le
  have hpos := h.secs_pos
  have hi : (L.secs.length - 1) / NUM_ENTRIES_IN_INDIRECT < NUM_ENTRIES_IN_INDIRECT := by
    rw [NUM_ENTRIES_eq]
    omega
  have hj : (L.secs.length - 1) % NUM_ENTRIES_IN_INDIRECT < NUM_ENTRIES_IN_INDIRECT :=
    Nat.mod_lt _ (by decide)
  have hspl := Nat.div_add_mod (L.secs.length - 1) NUM_ENTRIES_IN_INDIRECT
  unfold tablesFor at htabs
  generalize (L.secs.length - 1) / NUM_ENTRIES_IN_INDIRECT = i at *
  obtain ⟨ind, hind, hinn⟩ := readTable_eq (h.valid.lt_size _ double_mem)
  have hit : i < L.tabs.length := by omega
  have hina : ∀ k < NUM_ENTRIES_IN_INDIRECT, ind k = L.tabs.getD k 0 := fun k hk =>
    (hinn k hk).trans (h.double k hk)
  obtain ⟨dir, hdir, hdrn⟩ := readTable_eq (h.valid.lt_size _ (tab_mem hit))
  refine ⟨ind, dir, hind, by rw [hina i hi]; exact hdir, ?_⟩
  exact {
    size := hsize
    tabs_length := htabs
    secs_length := by omega
    tab_lt := hi
    entry_lt := hj
    valid := h.valid
    ind := hina
    dir := fun k hk => (hdrn k hk).trans (h.single i hit k hk)
    single := fun m hm k hk => h.single m (by omega) k hk
    bytes := h.bytes }

/-! ### Writing a table back -/

section
variable (h : Loaded d double ind dir i j L F)
include h

theorem Loaded.ind_eq : ind i = L.tabs.getD i 0 :=
  h.ind i h.tab_lt

theorem Loaded.ind_mem : ind i ∈ L.owned double := by
  rw [h.ind_eq]
  exact tab_mem (by rw [h.tabs_length]; omega)

theorem Loaded.flush_eq :
    d.cacheWrite (ind i) (tableBytes dir) 0 = some (d.put (ind i) (tableBytes dir) 0) :=
  cacheWrite_eq (h.valid.lt_size _ h.ind_mem) (by simp [tableBytes])

theorem Loaded.flush_single (hm : m ≤ i) (hk : k < NUM_ENTRIES_IN_INDIRECT) :
    entry ((d.put (ind i) (tableBytes dir) 0).block (L.tabs.getD m 0)) k =
      L.secs.getD (NUM_ENTRIES_IN_INDIRECT * m + k) 0 := by
  rw [h.ind_eq]
  have hlen := h.tabs_length
  by_cases he : m = i
  · subst he
    have hlt : dir k < 2 ^ 32 := by
      rw [h.dir k hk]
      exact h.valid.getD_secs_lt h.size _
    rw [put_block_self, entry_tableBytes _ hk hlt, h.dir k hk]
  · rw [put_block_of_ne fun hs => he (h.valid.tab_inj (by omega) (by omega) hs)]
    exact h.single m (by omega) k hk

theorem Loaded.flush_bytes (hb : b < L.secs.length) (ho : o < BLOCK_SECTOR_SIZE) :
    (d.put (ind i) (tableBytes dir) 0).block (L.secs.getD b 0) o =
      F (BLOCK_SECTOR_SIZE * b + o) := by
  have hlen := h.tabs_length
  rw [h.ind_eq, put_block_of_ne (h.valid.tab_ne_sec (by omega) hb).symm]
  exact h.bytes b hb o ho

end

/-- The last two writes of `inode_extend_file` make the layout a file again. -/
theorem Loaded.flush (h : Loaded d data.doubleIndirect ind dir i j L F)
    (hmgc : data.magic = INODE_MAGIC) (hbound : data.length ≤ MAX_LENGTH)
    (hsecs : L.secs.length = dataSectors data.length) (hzero : ∀ p, data.length ≤ p → F p = 0) :
    ∃ d', (d.put (ind i) (tableBytes dir) 0).cacheWrite data.doubleIndirect (tableBytes ind) 0 =
        some d' ∧
      Holds d' data L F ∧ SameOutside (L.owned data.doubleIndirect) d d' := by
  have hwrt := cacheWrite_eq (d := d.put (ind i) (tableBytes dir) 0) (h.valid.lt_size _ double_mem)
    (show (tableBytes ind).length + 0 ≤ BLOCK_SECTOR_SIZE by simp [tableBytes])
  refine ⟨_, hwrt, ?_, (sameOutside_put h.ind_mem).trans (sameOutside_put double_mem)⟩
  have hlen := h.tabs_length
  exact {
    magic := hmgc
    bound := hbound
    secs_length := hsecs
    tabs_length := by
      have := h.secs_length
      have := h.entry_lt
      unfold tablesFor
      rw [NUM_ENTRIES_eq] at *
      omega
    valid := h.valid
    double := by
      intro k hk
      have hlt : ind k < 2 ^ 32 := by
        rw [h.ind k hk]
        exact h.valid.getD_tabs_lt h.size _
      rw [put_block_self, entry_tableBytes _ hk hlt, h.ind k hk]
    single := by
      intro m hm k hk
      rw [put_block_of_ne (h.valid.double_ne_tab hm).symm]
      exact h.flush_single (by omega) hk
    bytes := by
      intro b hb o ho
      rw [put_block_of_ne (h.valid.double_ne_sec hb).symm]
      exact h.flush_bytes hb ho
    zero := hzero }

/-! ### One turn of the loop -/

/-- There is room in the table in memory: the sector becomes its next entry. -/
theorem Loaded.push (h : Loaded d double ind dir i j L F)
    (hj : j + 1 < NUM_ENTRIES_IN_INDIRECT) (hnd : (L.owned double ++ [a]).Nodup)
    (hv : a ≠ 0 ∧ a < d.size) (hF : ∀ p, BLOCK_SECTOR_SIZE * L.secs.length ≤ p → F p = 0) :
    Loaded (d.put a zeros 0) double ind (update dir (j + 1) a) i (j + 1)
      ⟨L.tabs, L.secs ++ [a]⟩ F where
  size := h.size
  tabs_length := h.tabs_length
  secs_length := by
    rw [length_append, h.secs_length]
    rfl
  tab_lt := h.tab_lt
  entry_lt := hj
  valid := h.valid.of_perm (by rw [owned_snoc]) hnd (by simpa using hv)
  ind := h.ind
  dir := by
    intro k hk
    have hlen := h.secs_length
    simp only [getD_snoc, update_apply]
    by_cases hkj : k = j + 1
    · rw [if_pos hkj, if_pos (by omega)]
    · rw [if_neg hkj, if_neg (by omega)]
      exact h.dir k hk
  single := by
    intro m hm k hk
    have hlen := h.secs_length
    have htab : m < L.tabs.length := by
      rw [h.tabs_length]
      omega
    have hne : L.tabs.getD m 0 ≠ a := fun he =>
      (nodup_append.mp hnd).2.2 _ (tab_mem htab) a mem_cons_self he
    rw [put_block_of_ne hne]
    simp only [getD_snoc]
    rw [if_neg]
    · exact h.single m hm k hk
    · rw [NUM_ENTRIES_eq] at *
      omega
  bytes := by
    intro b hb o ho
    simp only [length_append, length_singleton] at hb
    simp only [getD_snoc]
    by_cases he : b = L.secs.length
    · rw [if_pos he, put_block_self, overwrite_zeros _ ho, hF _ (by rw [he]; omega)]
    · have hne : L.secs.getD b 0 ≠ a := fun hs =>
        (nodup_append.mp hnd).2.2 _ (sec_mem (by omega)) a mem_cons_self hs
      rw [if_neg he, put_block_of_ne hne]
      exact h.bytes b (by omega) o ho

/-- The table in memory is full: it is written back, and the next two sectors become a new table
and its first entry. -/
theorem Loaded.pushTable (h : Loaded d double ind dir i j L F)
    (hj : j + 1 = NUM_ENTRIES_IN_INDIRECT) (hi : i + 1 < NUM_ENTRIES_IN_INDIRECT)
    (hnd : (L.owned double ++ [a, b]).Nodup) (hv : ∀ s ∈ [a, b], s ≠ 0 ∧ s < d.size)
    (hF : ∀ p, BLOCK_SECTOR_SIZE * L.secs.length ≤ p → F p = 0) :
    Loaded ((d.put (ind i) (tableBytes dir) 0).put b zeros 0) double
      (update ind (i + 1) a) (update (fun _ => 0) 0 b) (i + 1) 0
      ⟨L.tabs ++ [a], L.secs ++ [b]⟩ F := by
  have htabs := h.tabs_length
  have hsecs := h.secs_length
  have hb : ∀ s ∈ L.owned double, s ≠ b := fun s hs =>
    (nodup_append.mp hnd).2.2 s hs b (by simp)
  rw [NUM_ENTRIES_eq] at *
  exact {
    size := h.size
    tabs_length := by simp [htabs]
    secs_length := by
      rw [length_append, hsecs]
      show 128 * i + j + 1 + 1 = 128 * (i + 1) + 0 + 1
      omega
    tab_lt := hi
    entry_lt := by decide
    valid := h.valid.of_perm (owned_snoc_both L double a b) hnd hv
    ind := by
      intro k hk
      simp only [getD_snoc, update_apply]
      rw [htabs]
      by_cases hk' : k = i + 1
      · rw [if_pos hk', if_pos hk']
      · rw [if_neg hk', if_neg hk']
        exact h.ind k hk
    dir := by
      intro k hk
      simp only [getD_snoc, update_apply]
      rw [NUM_ENTRIES_eq]
      by_cases hk' : k = 0
      · rw [if_pos hk', if_pos (by omega)]
      · rw [if_neg hk', if_neg (by omega), getD_eq_default _ _ (by omega)]
    single := by
      intro m hm k hk
      have htab : m < L.tabs.length := by omega
      simp only [getD_snoc]
      rw [if_neg (by omega), put_block_of_ne (hb _ (tab_mem htab)),
        h.flush_single (by omega) hk]
      rw [NUM_ENTRIES_eq] at *
      rw [if_neg (by omega)]
    bytes := by
      intro c hc o ho
      simp only [length_append, length_singleton] at hc
      simp only [getD_snoc]
      by_cases he : c = L.secs.length
      · rw [if_pos he, put_block_self, overwrite_zeros _ ho, hF _ (by rw [he]; omega)]
      · have hc' : c < L.secs.length := by omega
        rw [if_neg he, put_block_of_ne (hb _ (sec_mem hc'))]
        exact h.flush_bytes hc' ho }

/-! ### The loop -/

/-- The loop adds `n` data sectors, and as many tables as these need, to the file. -/
theorem Loaded.extendLoop (h : Loaded d double ind dir i j L F)
    (hn : new.length + tablesFor L.secs.length = n + tablesFor (L.secs.length + n))
    (hmax : tablesFor (L.secs.length + n) ≤ NUM_ENTRIES_IN_INDIRECT)
    (hnd : (L.owned double ++ new).Nodup) (hv : ∀ a ∈ new, a ≠ 0 ∧ a < d.size)
    (hF : ∀ p, BLOCK_SECTOR_SIZE * L.secs.length ≤ p → F p = 0) :
    ∃ d' ind' dir' i' j' L', extendLoop d ind dir i j new = some (d', ind', dir', i') ∧
      Loaded d' double ind' dir' i' j' L' F ∧ L'.secs.length = L.secs.length + n ∧
      L.secs <+: L'.secs ∧ (L'.owned double).Perm (L.owned double ++ new) ∧
      SameOutside (L'.owned double) d d' := by
  induction n generalizing d ind dir i j L new with
  | zero =>
    have hnil : new = [] := length_eq_zero_iff.mp (by
      rw [Nat.add_zero] at hn
      omega)
    subst hnil
    exact ⟨d, ind, dir, i, j, L, rfl, h, rfl, prefix_rfl, by rw [append_nil], .refl _ d⟩
  | succ n ih =>
    have hsecs := h.secs_length
    have hj := h.entry_lt
    have hzero : ∀ {m : ℕ}, L.secs.length ≤ m → ∀ p, BLOCK_SECTOR_SIZE * m ≤ p → F p = 0 :=
      fun hm p hp => hF p ((Nat.mul_le_mul_left _ hm).trans hp)
    unfold tablesFor at hn hmax
    rw [NUM_ENTRIES_eq] at hn hmax hsecs hj
    cases new with
    | nil =>
      simp only [length_nil] at hn
      omega
    | cons a rest =>
      simp only [length_cons] at hn
      unfold Volume.extendLoop
      by_cases hfull : j + 1 = NUM_ENTRIES_IN_INDIRECT
      · have hj' : j + 1 = 128 := hfull
        cases rest with
        | nil =>
          simp only [length_nil] at hn
          omega
        | cons b rest =>
          simp only [length_cons] at hn
          have hi : i + 1 < NUM_ENTRIES_IN_INDIRECT := by
            omega
          have hspl : L.owned double ++ a :: b :: rest = L.owned double ++ [a, b] ++ rest := by simp
          have hp := owned_snoc_both L double a b
          have hpr : ((Layout.mk (L.tabs ++ [a]) (L.secs ++ [b])).owned double ++ rest).Perm
              (L.owned double ++ a :: b :: rest) := by
            rw [hspl]
            exact hp.append_right rest
          have hstep := h.pushTable hfull hi (List.Nodup.of_append_left (by rw [← hspl]; exact hnd))
            (fun s hs => hv s (mem_append_left rest hs)) hF
          have hlen : (L.secs ++ [b]).length = L.secs.length + 1 := length_append
          obtain ⟨d', ind', dir', i', j', L', hloop, hload, hl, hpre, hperm, hsame⟩ := ih hstep
            (by simp only [tablesFor, NUM_ENTRIES_eq]; omega)
            (by simp only [tablesFor, NUM_ENTRIES_eq]; omega)
            (hpr.nodup_iff.mpr hnd)
            (fun s hs => hv s (mem_cons_of_mem a (mem_cons_of_mem b hs)))
            (hzero (by simp))
          have hperm' := hperm.trans hpr
          refine ⟨d', ind', dir', i', j', L', ?_, hload, by rw [hl, hlen]; omega,
            (prefix_append _ _).trans hpre, hperm', ?_⟩
          · have hwrt := cacheWrite_eq (d := d.put (ind i) (tableBytes dir) 0)
              (hv b (by simp)).2 (show zeros.length + 0 ≤ BLOCK_SECTOR_SIZE by simp [zeros])
            simp only [hfull, if_pos hi, h.flush_eq, hwrt, bind_eq_bind, bind_some]
            exact hloop
          · have hmem : ∀ s ∈ L.owned double ++ a :: b :: rest, s ∈ L'.owned double :=
              fun s hs => hperm'.mem_iff.mpr hs
            exact ((sameOutside_put (hmem _ (mem_append_left _ h.ind_mem))).trans
              (sameOutside_put (hmem b (by simp)))).trans hsame
      · have hroom : j + 1 < NUM_ENTRIES_IN_INDIRECT := by
          have := h.entry_lt
          omega
        have hspl : L.owned double ++ a :: rest = L.owned double ++ [a] ++ rest := by simp
        have hown := owned_snoc L double a
        have hstep := h.push hroom (List.Nodup.of_append_left (by rw [← hspl]; exact hnd))
          (hv a (by simp)) hF
        have hlen : (L.secs ++ [a]).length = L.secs.length + 1 := length_append
        have hnd' : ((Layout.mk L.tabs (L.secs ++ [a])).owned double ++ rest).Nodup := by
          rw [hown, ← hspl]
          exact hnd
        rw [NUM_ENTRIES_eq] at hroom
        have hthis : (L.secs.length - 1) / 128 = i := by omega
        have hnext : (L.secs.length + 1 - 1) / 128 = i := by omega
        obtain ⟨d', ind', dir', i', j', L', hloop, hload, hl, hpre, hperm, hsame⟩ := ih hstep
          (by simp only [hlen, tablesFor, NUM_ENTRIES_eq]; omega)
          (by simp only [tablesFor, NUM_ENTRIES_eq]; omega)
          hnd' (fun s hs => hv s (mem_cons_of_mem a hs)) (hzero (by simp))
        have hperm' : (L'.owned double).Perm (L.owned double ++ a :: rest) := by
          rw [hspl, ← hown]
          exact hperm
        refine ⟨d', ind', dir', i', j', L', ?_, hload, by rw [hl, hlen]; omega,
          (prefix_append _ _).trans hpre, hperm', ?_⟩
        · rw [if_pos hfull, cacheWrite_eq (hv a (by simp)).2 (by simp [zeros])]
          exact hloop
        · exact (sameOutside_put (hperm'.mem_iff.mpr (by simp))).trans hsame

/-- The loop only comes to an end if the double indirect table has room for the new tables. -/
theorem extendLoop_length (hi : i < NUM_ENTRIES_IN_INDIRECT) (hj : j < NUM_ENTRIES_IN_INDIRECT)
    (h : extendLoop d ind dir i j new = some r) : ∃ i' j', i' < NUM_ENTRIES_IN_INDIRECT ∧
      j' < NUM_ENTRIES_IN_INDIRECT ∧
      (NUM_ENTRIES_IN_INDIRECT + 1) * i' + j' =
        (NUM_ENTRIES_IN_INDIRECT + 1) * i + j + new.length := by
  induction d, ind, dir, i, j, new using extendLoop.induct with
  | case1 d ind dir i j => exact ⟨i, j, hi, hj, rfl⟩
  | case2 d ind dir i j a rest hne ih =>
    unfold extendLoop at h
    rw [if_pos hne] at h
    obtain ⟨d', -, h⟩ := bind_eq_some_iff.mp h
    obtain ⟨i', j', hi', hj', he⟩ := ih d' hi (by omega) h
    exact ⟨i', j', hi', hj', by rw [length_cons]; omega⟩
  | case3 d ind dir i j a hfull =>
    unfold extendLoop at h
    simp [if_neg hfull] at h
  | case4 d ind dir i j a hfull b rest hlt ih =>
    unfold extendLoop at h
    simp only [if_neg hfull, if_pos hlt] at h
    obtain ⟨d1, -, h⟩ := bind_eq_some_iff.mp h
    obtain ⟨d2, -, h⟩ := bind_eq_some_iff.mp h
    obtain ⟨i', j', hi', hj', he⟩ := ih d2 hlt (by decide) h
    refine ⟨i', j', hi', hj', ?_⟩
    rw [length_cons, length_cons]
    rw [NUM_ENTRIES_eq] at *
    omega
  | case5 d ind dir i j a hfull b rest hlt =>
    unfold extendLoop at h
    simp only [if_neg hfull, if_neg hlt] at h
    cases h

/-! ### Entering sectors -/

theorem Holds.resize (h : Holds d data L F) (hle : data.length ≤ n) (hmax : n ≤ MAX_LENGTH)
    (hs : sectorsFor n - sectorsFor data.length = 0) : Holds d { data with length := n } L F where
  magic := h.magic
  bound := hmax
  secs_length := by
    rw [h.secs_length]
    have hmono : dataSectors data.length ≤ dataSectors n := by
      unfold dataSectors
      rw [BLOCK_SECTOR_SIZE_eq]
      omega
    unfold sectorsFor tablesFor at hs
    rw [NUM_ENTRIES_eq] at hs
    show dataSectors data.length = dataSectors n
    omega
  tabs_length := h.tabs_length
  valid := h.valid
  double := h.double
  single := h.single
  bytes := h.bytes
  zero := fun i hi => h.zero i (hle.trans hi)

/-- The sectors that are counted for the growth from `data.length` to `length` are entered into
the tables, and the file grows by zeros. -/
theorem Holds.enterSectors (h : Holds d data L F) (hsize : d.size < 2 ^ 32) {length : ℕ}
    (hle : data.length ≤ length) (hmax : length ≤ MAX_LENGTH)
    (hn : new.length = sectorsFor length - sectorsFor data.length)
    (hnd : (L.owned data.doubleIndirect ++ new).Nodup) (hv : ∀ a ∈ new, a ≠ 0 ∧ a < d.size) :
    ∃ d' L', enterSectors d data data.length new = some d' ∧
      Holds d' { data with length } L' F ∧ L.secs <+: L'.secs ∧
      (L'.owned data.doubleIndirect).Perm (L.owned data.doubleIndirect ++ new) ∧
      SameOutside (L'.owned data.doubleIndirect) d d' := by
  obtain ⟨ind, dir, hind, hdir, hload⟩ := h.loaded hsize
  have hsecs := h.secs_length
  have hmono : dataSectors data.length ≤ dataSectors length := by
    unfold dataSectors
    rw [BLOCK_SECTOR_SIZE_eq]
    omega
  have hsum : L.secs.length + (dataSectors length - dataSectors data.length) =
      dataSectors length := by omega
  have hcap : dataSectors length ≤ 16384 := by
    rw [MAX_LENGTH_eq] at hmax
    unfold dataSectors
    rw [BLOCK_SECTOR_SIZE_eq]
    omega
  have htab : tablesFor (dataSectors length) ≤ NUM_ENTRIES_IN_INDIRECT := by
    unfold tablesFor
    rw [NUM_ENTRIES_eq]
    omega
  have htbm : tablesFor (dataSectors data.length) ≤ tablesFor (dataSectors length) := by
    unfold tablesFor
    rw [NUM_ENTRIES_eq]
    omega
  obtain ⟨d1, ind', dir', i', j', L', hloop, hload', hlen, hpre, hperm, hsame⟩ :=
    hload.extendLoop
      (by rw [hsum, hsecs]; unfold sectorsFor at hn; omega) (by rw [hsum]; exact htab) hnd hv
      (fun p hp => h.zero p (h.length_le.trans hp))
  obtain ⟨d', hflu, hhld, hsame'⟩ := @Loaded.flush d1 { data with length } L' F
    ind' dir' i' j' hload' h.magic hmax (by rw [hlen, hsum]) (fun p hp => h.zero p (hle.trans hp))
  refine ⟨d', L', ?_, hhld, hpre, hperm, hsame.trans hsame'⟩
  unfold Volume.enterSectors
  have hbound := h.bound
  rw [MAX_LENGTH_eq] at hbound
  rw [indicesFromOffset_pred (by omega), ← hsecs]
  simp only [hind, hdir, hloop, hload'.flush_eq, if_pos hload.tab_lt, bind_eq_bind, bind_some]
  exact hflu

end

end Pintos
