import Pintos.Filesys.MaxLength
import Pintos.Filesys.Namespace

/-! # Who owns a sector

The inode layer as its callers use it, one call after the other, from a freshly formatted file
system on.

* **State.**  The volume, the live inodes, and the sectors that `free_map_allocate_single` has given
  to callers and that no inode has been put into yet.
* **Calls.**  An allocation, `inode_create` in such a sector, `inode_write_at`, and the last
  `inode_close` of an inode that has been removed; a call that does not succeed is not a step.
* **Invariant.**  `Inv`: each live inode heads a file, and no sector belongs to two of them, to the
  free map file, or to a caller.  A call only touches the sectors of one inode (`Leaves`).
* **Result.**  `sectors_exclusive`, about the sectors that the tables on the device list. -/

namespace Pintos
open Bytes Disk Runs Function Option List

/-! ### What an inode lists -/

section
variable {d d' : Disk} {data data' : InodeDisk} {L L' : Layout} {F F' : ℕ → UInt8} {s p : ℕ}

theorem mem_tableEntries_iff :
    s ∈ tableEntries b ↔ s ≠ 0 ∧ ∃ k < NUM_ENTRIES_IN_INDIRECT, entry b k = s := by
  simp only [tableEntries, mem_filter, List.mem_map, mem_range, decide_eq_true_eq]
  exact and_comm

theorem exists_getD_of_mem {l : List ℕ} (h : s ∈ l) : ∃ k < l.length, l.getD k 0 = s := by
  obtain ⟨k, hk, rfl⟩ := mem_iff_getElem.mp h
  exact ⟨k, hk, getD_eq_getElem _ _ hk⟩

theorem mem_of_getD_ne {l : List ℕ} (h : l.getD k 0 ≠ 0) : k < l.length := by
  by_contra hk
  exact h (getD_eq_default _ _ (by omega))

theorem Holds.tabs_le (h : Holds d data L F) : L.tabs.length ≤ NUM_ENTRIES_IN_INDIRECT := by
  have hsecs := h.secs_le
  rw [h.tabs_length]
  unfold tablesFor
  rw [NUM_ENTRIES_eq]
  omega

theorem Holds.mem_tables_iff (h : Holds d data L F) :
    s ∈ tableEntries (d.block data.doubleIndirect) ↔ s ∈ L.tabs := by
  rw [mem_tableEntries_iff]
  constructor
  · rintro ⟨hs, k, hk, rfl⟩
    rw [h.double k hk] at hs ⊢
    exact getD_mem (mem_of_getD_ne hs)
  · intro hs
    obtain ⟨k, hk, rfl⟩ := exists_getD_of_mem hs
    exact ⟨h.valid.ne_zero _ (Layout.tab_mem hk), k, hk.trans_le h.tabs_le,
      h.double k (hk.trans_le h.tabs_le)⟩

theorem Holds.mem_entries_iff (h : Holds d data L F) :
    (∃ t ∈ L.tabs, s ∈ tableEntries (d.block t)) ↔ s ∈ L.secs := by
  constructor
  · rintro ⟨t, ht, hs⟩
    obtain ⟨k, hk, rfl⟩ := exists_getD_of_mem ht
    obtain ⟨hs, j, hj, rfl⟩ := mem_tableEntries_iff.mp hs
    rw [h.single k hk j hj] at hs ⊢
    exact getD_mem (mem_of_getD_ne hs)
  · intro hs
    obtain ⟨b, hb, rfl⟩ := exists_getD_of_mem hs
    have htabs := h.tabs_length
    unfold tablesFor at htabs
    have hj : b % NUM_ENTRIES_IN_INDIRECT < NUM_ENTRIES_IN_INDIRECT := Nat.mod_lt _ (by decide)
    have hk : b / NUM_ENTRIES_IN_INDIRECT < L.tabs.length := by
      rw [NUM_ENTRIES_eq] at *
      omega
    have henr := h.single _ hk _ hj
    rw [Nat.div_add_mod] at henr
    exact ⟨_, getD_mem hk, mem_tableEntries_iff.mpr
      ⟨h.valid.ne_zero _ (Layout.sec_mem hb), _, hj, henr⟩⟩

theorem Holds.mem_tail_listedSectors (h : Holds d inode.data L F) :
    s ∈ (listedSectors d inode).tail ↔ s ∈ L.owned inode.data.doubleIndirect := by
  unfold listedSectors Layout.owned
  simp [h.mem_tables_iff, h.mem_entries_iff]

theorem Holds.mem_listedSectors (h : Holds d inode.data L F) :
    s ∈ listedSectors d inode ↔ s = inode.sector ∨ s ∈ L.owned inode.data.doubleIndirect := by
  rw [← h.mem_tail_listedSectors]
  unfold listedSectors
  simp

theorem Holds.byteToSector_eq_some (h : Holds d data L F) (hp : p < 2 ^ 32) :
    d.byteToSector data p = some (some s) ↔
      p / BLOCK_SECTOR_SIZE < L.secs.length ∧ L.secs.getD (p / BLOCK_SECTOR_SIZE) 0 = s := by
  by_cases hmax : p < MAX_LENGTH
  · rw [h.byteToSector hmax]
    by_cases hb : p / BLOCK_SECTOR_SIZE < L.secs.length
    · simp
    · simp
  · have hsecs := h.secs_le
    rw [byteToSector_eq_none (by omega) hp]
    rw [MAX_LENGTH_eq] at hmax
    rw [BLOCK_SECTOR_SIZE_eq]
    constructor
    · intro hs
      cases hs
    · omega

theorem Holds.byteToSector_of_prefix (h : Holds d data L F) (h' : Holds d' data' L' F')
    (hL : L.secs <+: L'.secs) (hp : p < 2 ^ 32) (hs : d.byteToSector data p = some (some s)) :
    d'.byteToSector data' p = some (some s) := by
  rw [h.byteToSector_eq_some hp] at hs
  rw [h'.byteToSector_eq_some hp]
  obtain ⟨more, hmore⟩ := hL
  obtain ⟨hb, rfl⟩ := hs
  rw [← hmore, length_append]
  exact ⟨by omega, getD_append _ _ _ _ hb⟩

end

/-! ### The machine -/

/-- The inode layer and what its callers have. -/
structure InodeLayer where
  vol : Volume
  /-- The live inodes, each under a number of its own. -/
  live : ℕ → Option Inode
  next : ℕ
  /-- Sectors of callers. -/
  taken : List ℕ

/-- A call of the inode layer. -/
inductive LayerCall where
  | allocate
  | create (sector length : ℕ) (isDirectory : Bool)
  | write (h : ℕ) (buf : List UInt8) (offset : ℕ)
  | close (h : ℕ)

/-- The numbers are of type `off_t`. -/
def LayerCall.inRange : LayerCall → Prop
  | create _ length _ => length < 2 ^ 31
  | write _ buf offset => buf.length < 2 ^ 31 ∧ offset < 2 ^ 31
  | _ => True

namespace InodeLayer

/-- A call that succeeds. -/
def step (m : InodeLayer) : LayerCall → Option InodeLayer
  | .allocate => do
    let (s, v) ← m.vol.freeMapAllocateSingle
    let s ← s
    some { m with vol := v, taken := s :: m.taken }
  | .create sector length isDirectory =>
    if sector ∈ m.taken then do
      let (ok, v) ← m.vol.inodeCreate sector length isDirectory
      let inode ← v.inodeOpen sector
      if ok then
        some ⟨v, update m.live m.next (some inode), m.next + 1, m.taken.erase sector⟩
      else none
    else none
  | .write h buf offset => do
    let inode ← m.live h
    let (_, v, inode) ← m.vol.inodeWriteAt inode buf offset
    some { m with vol := v, live := update m.live h (some inode) }
  | .close h => do
    let inode ← m.live h
    let (v, _) ← m.vol.inodeClose { inode with removed := true, openCnt := 1 }
    some { m with vol := v, live := update m.live h none }

/-- A formatted file system, with its root directory as live inode 0. -/
def formatted (fs : FileSys) : InodeLayer := ⟨fs.vol, fs.heap, fs.next, []⟩

/-- The inode of the free map file, and the live inodes. -/
def inode (m : InodeLayer) : ℕ → Option Inode
  | 0 => m.vol.freeMapFile.map fun data => ⟨FREE_MAP_SECTOR, 1, false, 0, data, 0, none⟩
  | h + 1 => m.live h

/-- The sectors that an inode lists on the device. -/
abbrev sectors (m : InodeLayer) (i : Inode) : List ℕ := listedSectors m.vol.disk i

/-- No sector has two owners, and every sector that has one is marked.  Sectors 0 and 1 are only
those of the inodes of the free map file and of the root directory, as long as it is live. -/
structure Exclusive (m : InodeLayer) : Prop where
  mapFile : (m.inode 0).isSome
  disjoint : ∀ h h' i i', h ≠ h' → m.inode h = some i → m.inode h' = some i' →
    ∀ s ∈ m.sectors i, s ∉ m.sectors i'
  marked : ∀ h i, m.inode h = some i → ∀ s ∈ m.sectors i, m.vol.freeMap s = true
  zero : ∀ h i, m.inode h = some i → FREE_MAP_SECTOR ∉ (m.sectors i).tail ∧
    (i.sector = FREE_MAP_SECTOR ↔ h = 0)
  one : (m.inode 1).isSome → ∀ h i, m.inode h = some i → ROOT_DIR_SECTOR ∉ (m.sectors i).tail ∧
    (i.sector = ROOT_DIR_SECTOR ↔ h = 1)
  blocks : ∀ h i p q s, m.inode h = some i → p < 2 ^ 31 → q < 2 ^ 31 →
    m.vol.disk.byteToSector i.data p = some (some s) →
    m.vol.disk.byteToSector i.data q = some (some s) →
    p / BLOCK_SECTOR_SIZE = q / BLOCK_SECTOR_SIZE

/-- Positions of inodes that stay live stay in their sectors. -/
def KeepsSectors (m m' : InodeLayer) : Prop :=
  ∀ h i i' p s, m.inode h = some i → m'.inode h = some i' → p < 2 ^ 31 →
    m.vol.disk.byteToSector i.data p = some (some s) →
    m'.vol.disk.byteToSector i'.data p = some (some s)

end InodeLayer

/-! ### What a call leaves alone -/

namespace Volume

variable {v v' : Volume} {M l : List ℕ} {L L' : Layout} {F : ℕ → UInt8} {data : InodeDisk} {s : ℕ}

/-- A sector that a caller may put an inode into. -/
structure Usable (v : Volume) (M : List ℕ) (s : ℕ) : Prop where
  marked : v.freeMap s = true
  lt_size : s < v.disk.size
  ne_zero : s ≠ 0
  apart : s ∉ M

theorem Usable.leaves (h : v.Usable M s) (hl : Leaves M l v v') (hs : s ∉ l) : v'.Usable M s :=
  ⟨hl.map s h.marked hs, hl.size ▸ h.lt_size, h.ne_zero, h.apart⟩

/-- An inode in a sector of its own, with its file. -/
structure Heads (v : Volume) (M : List ℕ) (i : Inode) (L : Layout) : Prop where
  sector : v.Usable M i.sector
  file : ∃ F, v.File M i.data L F
  apart : i.sector ∉ L.owned i.data.doubleIndirect

/-- All sectors of an inode. -/
def owns (i : Inode) (L : Layout) : List ℕ := i.sector :: L.owned i.data.doubleIndirect

variable {i : Inode}

theorem Heads.marked (h : v.Heads M i L) : ∀ s ∈ owns i L, v.freeMap s = true := by
  obtain ⟨F, hf⟩ := h.file
  intro s hs
  rcases mem_cons.mp hs with rfl | hs
  · exact h.sector.marked
  · exact hf.marked s hs

theorem Heads.leaves (h : v.Heads M i L) (hl : Leaves M l v v') (hdis : ∀ s ∈ owns i L, s ∉ l) :
    v'.Heads M i L where
  sector := h.sector.leaves hl (hdis _ mem_cons_self)
  file := by
    obtain ⟨F, hf⟩ := h.file
    exact ⟨F, hf.leaves hl fun s hs => hdis s (mem_cons_of_mem _ hs)⟩
  apart := h.apart

theorem Heads.mem_listedSectors (h : v.Heads M i L) :
    s ∈ listedSectors v.disk i ↔ s ∈ owns i L := by
  obtain ⟨F, hf⟩ := h.file
  rw [hf.holds.mem_listedSectors, owns, mem_cons]

/-- The last close of a removed inode. -/
theorem Heads.close (h : v.Heads M i L) (hv : v.Sound M) (hM : M ≠ []) :
    ∃ v', v.inodeClose { i with removed := true, openCnt := 1 } = some (v', none) ∧ v'.Sound M ∧
      Leaves M (owns i L) v v' := by
  obtain ⟨F, hf⟩ := h.file
  have hf' : v.File M (Inode.data { i with removed := true, openCnt := 1 }) L F := hf
  obtain ⟨v', hcls, hs, hfile, hsame⟩ := hf'.inodeClose hv (hv.isSome_iff.mpr hM)
    h.sector.marked h.sector.lt_size h.sector.ne_zero h.sector.apart h.apart rfl rfl
  have hmap := hf'.freeMap_inodeClose h.sector.lt_size h.apart rfl rfl hcls
  refine ⟨v', hcls, hs, hfile, hsame.1, fun s hs hs' => ?_, fun s _ hM hs' => ?_⟩
  · rw [hmap]
    have hout : s ∉ [L.tabs.getD 0 0, i.data.doubleIndirect, i.sector] := by
      intro hmem
      simp only [mem_cons, not_mem_nil, or_false] at hmem
      refine hs' ?_
      rcases hmem with rfl | rfl | rfl
      · exact mem_cons_of_mem _ (Layout.tab_mem hf.holds.tabs_pos)
      · exact mem_cons_of_mem _ Layout.double_mem
      · exact mem_cons_self
    simp only [reset, hs, Bool.true_and, Bool.not_eq_true', decide_eq_false_iff_not]
    exact hout
  · refine hsame.2 s fun hmem => ?_
    rcases mem_cons.mp hmem with rfl | hmem
    · exact hs' mem_cons_self
    · exact hM hmem

end Volume

/-! ### The invariant -/

namespace InodeLayer

open Volume

variable {m m' : InodeLayer} {M l : List ℕ} {P P' : ℕ → Layout} {h k : ℕ} {i : Inode}

/-- `P` are the layouts of the files of the live inodes, and `M` is the free map file. -/
structure Inv (M : List ℕ) (P : ℕ → Layout) (m : InodeLayer) : Prop where
  sound : m.vol.Sound M
  mapFile : M ≠ []
  heads : ∀ h i, m.live h = some i → m.vol.Heads M i (P h)
  apart : ∀ h h' i i', h ≠ h' → m.live h = some i → m.live h' = some i' →
    ∀ s ∈ owns i (P h), s ∉ owns i' (P h')
  taken : ∀ s ∈ m.taken, m.vol.Usable M s ∧ ∀ h i, m.live h = some i → s ∉ owns i (P h)
  nodup : m.taken.Nodup
  old : ∀ h i, m.live h = some i → h < m.next
  root : ∀ i, m.live 0 = some i → i.sector = ROOT_DIR_SECTOR
  started : 0 < m.next

/-- A call that only touches live inode `k`, which it may add, change or take away. -/
theorem Inv.change (hi : Inv M P m) (next : ℕ) (taken : List ℕ)
    (hv : v.Sound M) (hl : Leaves M l m.vol v)
    (hote : ∀ h j, h ≠ k → m.live h = some j → ∀ s ∈ owns j (P h), s ∉ l)
    (hnew : ∀ j, o = some j → v.Heads M j L ∧ k < next ∧ (k = 0 → j.sector = ROOT_DIR_SECTOR) ∧
      (∀ h j', h ≠ k → m.live h = some j' → ∀ s ∈ owns j L, s ∉ owns j' (P h)) ∧
      ∀ s ∈ taken, s ∉ owns j L)
    (htkn : ∀ s ∈ taken, v.Usable M s ∧ ∀ h j, h ≠ k → m.live h = some j → s ∉ owns j (P h))
    (hnd : taken.Nodup) (hnext : m.next ≤ next) :
    Inv M (update P k L) ⟨v, update m.live k o, next, taken⟩ where
  sound := hv
  mapFile := hi.mapFile
  heads := by
    intro h j hj
    by_cases e : h = k
    · subst e
      simp only [update_self] at hj ⊢
      exact (hnew j hj).1
    · simp only [update_of_ne e] at hj ⊢
      exact (hi.heads h j hj).leaves hl (hote h j e hj)
  apart := by
    intro h h' j j' hne hj hj' s hs hs'
    by_cases e : h = k
    · subst e
      have e' : h' ≠ h := fun e' => hne e'.symm
      simp only [update_self, update_of_ne e'] at hj hj' hs hs'
      exact (hnew j hj).2.2.2.1 h' j' e' hj' s hs hs'
    · simp only [update_of_ne e] at hj hs
      by_cases e' : h' = k
      · subst e'
        simp only [update_self] at hj' hs'
        exact (hnew j' hj').2.2.2.1 h j e hj s hs' hs
      · simp only [update_of_ne e'] at hj' hs'
        exact hi.apart h h' j j' hne hj hj' s hs hs'
  taken := by
    intro s hs
    refine ⟨(htkn s hs).1, fun h j hj => ?_⟩
    by_cases e : h = k
    · subst e
      simp only [update_self] at hj ⊢
      exact (hnew j hj).2.2.2.2 s hs
    · simp only [update_of_ne e] at hj ⊢
      exact (htkn s hs).2 h j e hj
  nodup := hnd
  old := by
    intro h j hj
    by_cases e : h = k
    · subst e
      simp only [update_self] at hj
      exact (hnew j hj).2.1
    · simp only [update_of_ne e] at hj
      exact (hi.old h j hj).trans_le hnext
  root := by
    intro j hj
    by_cases e : 0 = k
    · subst e
      exact (hnew j hj).2.2.1 rfl
    · simp only [update_of_ne e] at hj
      exact hi.root j hj
  started := hi.started.trans_le hnext

theorem Inv.fresh (hi : Inv M P m) (hs : m.vol.freeMap s = false) :
    s ∉ M ∧ s ≠ 0 ∧ s ∉ m.taken ∧ ∀ h i, m.live h = some i → s ∉ owns i (P h) := by
  have hne : ∀ {s'}, m.vol.freeMap s' = true → s ≠ s' := by
    rintro s' hs' rfl
    simp [hs] at hs'
  exact ⟨fun h => hne (hi.sound.marked s h) rfl, hne hi.sound.zero,
    fun h => hne (hi.taken s h).1.marked rfl,
    fun h i hh hmem => hne ((hi.heads h i hh).marked s hmem) rfl⟩

/-- What a step does to the invariant. -/
def Goes (M : List ℕ) (P : ℕ → Layout) (m m' : InodeLayer) : Prop :=
  m'.vol.freeMapFile = m.vol.freeMapFile ∧ ∃ P', Inv M P' m' ∧
    ∀ h i i', m.live h = some i → m'.live h = some i' → (P h).secs <+: (P' h).secs

theorem Inv.allocate (hi : Inv M P m) (hs : m.step .allocate = some m') : Goes M P m m' := by
  simp only [step, bind_eq_bind, bind_eq_some_iff, some.injEq] at hs
  obtain ⟨⟨_, v⟩, halc, s, rfl, rfl⟩ := hs
  cases hfree : m.vol.freeSectors with
  | nil =>
    simp [freeMapAllocateSingle_none hfree] at halc
  | cons s' rest =>
    obtain ⟨v', halc', ha⟩ := hi.sound.allocate hfree
    obtain ⟨rfl, rfl⟩ : s' = s ∧ v' = v := by
      simpa using halc'.symm.trans halc
    obtain ⟨hlt, huna⟩ := mem_freeSectors.mp (hfree ▸ mem_cons_self)
    obtain ⟨hM, h0, hnot, hlive⟩ := hi.fresh huna
    have hl := ha.spares.leaves
    have hnone : m.live m.next = none := by
      cases hn : m.live m.next with
      | none => rfl
      | some i => exact absurd (hi.old _ i hn) (lt_irrefl _)
    have hkeep := hi.change m.next (s' :: m.taken) (k := m.next) (L := P m.next) (o := none)
      ha.sound hl (fun _ _ _ _ _ _ => not_mem_nil) nofun (fun s hs => ?_)
      (nodup_cons.mpr ⟨hnot, hi.nodup⟩) le_rfl
    · rw [← hnone, update_eq_self, update_eq_self] at hkeep
      exact ⟨ha.file, P, hkeep, fun _ _ _ _ _ => prefix_rfl⟩
    · rcases mem_cons.mp hs with rfl | hs
      · refine ⟨⟨?_, ha.same.1 ▸ hlt, h0, hM⟩, fun h j _ hj => hlive h j hj⟩
        rw [ha.map]
        simp [mark]
      · exact ⟨(hi.taken s hs).1.leaves hl not_mem_nil, fun h j _ hj => (hi.taken s hs).2 h j hj⟩

theorem Inv.create {sector length : ℕ} (hi : Inv M P m) (hlen : length < 2 ^ 31)
    (hs : m.step (.create sector length isDirectory) = some m') : Goes M P m m' := by
  simp only [step, bind_eq_bind, bind_eq_some_iff, some.injEq, ite_none_right_eq_some] at hs
  obtain ⟨htkn, ⟨ok, v⟩, hcrt, i, hopen, hok, rfl⟩ := hs
  cases hok
  obtain ⟨huse, hapr⟩ := hi.taken sector htkn
  obtain ⟨hmax, hspc⟩ := hi.sound.space_of_create hlen hcrt
  obtain ⟨v', double, L, hcrt', hc⟩ := hi.sound.inodeCreate isDirectory huse.marked huse.lt_size
    huse.apart hmax hspc
  obtain ⟨⟩ := hcrt'.symm.trans hcrt
  cases (hc.inodeOpen huse.lt_size).symm.trans hopen
  have hl := hc.toSpares.leaves
  -- the sectors of the new file were free
  have hfrs := fun s hs => hi.fresh (hc.fresh s hs)
  have hsct : sector ∉ L.owned double := fun hs => (hfrs sector hs).2.2.1 htkn
  have hmem : ∀ {s}, s ∈ m.taken.erase sector → s ≠ sector ∧ s ∈ m.taken := fun hs =>
    (hi.nodup.mem_erase_iff).mp hs
  refine ⟨hc.file, _, hi.change (m.next + 1) (m.taken.erase sector) (k := m.next) (L := L)
    hc.sound hl (fun h j _ hj s hs hs' => ?_) (fun j hj => ?_) (fun s hs => ?_)
    (hi.nodup.erase sector) (Nat.le_succ _), fun h j j' hj _ => ?_⟩
  · exact hapr h j hj (mem_singleton.mp hs' ▸ hs)
  · cases hj
    refine ⟨⟨⟨hc.map _ huse.marked, hc.size ▸ huse.lt_size, huse.ne_zero, huse.apart⟩,
      ⟨_, hc.fileOf⟩, hsct⟩, Nat.lt_add_one _, fun h0 => absurd h0 hi.started.ne',
      fun h j' _ hj' s hs hs' => ?_, fun s hs hs' => ?_⟩
    · rcases mem_cons.mp hs with rfl | hs
      · exact hapr h j' hj' hs'
      · exact (hfrs s hs).2.2.2 h j' hj' hs'
    · rcases mem_cons.mp hs' with rfl | hs'
      · exact (hmem hs).1 rfl
      · exact (hfrs s hs').2.2.1 (hmem hs).2
  · exact ⟨(hi.taken s (hmem hs).2).1.leaves hl (by simpa using (hmem hs).1),
      fun h j _ hj => (hi.taken s (hmem hs).2).2 h j hj⟩
  · rw [update_of_ne (hi.old h j hj).ne]

theorem Inv.write (hi : Inv M P m) (hbuf : buf.length < 2 ^ 31)
    (hoff : offset < 2 ^ 31) (hs : m.step (.write k buf offset) = some m') : Goes M P m m' := by
  simp only [step, bind_eq_bind, bind_eq_some_iff, some.injEq] at hs
  obtain ⟨i, hlive, ⟨written, v, i'⟩, hwrt, rfl⟩ := hs
  have hh := hi.heads k i hlive
  obtain ⟨F, hf⟩ := hh.file
  obtain ⟨n, L', rfl, hs, hf', hk, -⟩ := hf.inodeWriteAt_eq_some hi.sound hbuf hoff hwrt
  have hl := hk.toSpares.leaves
  -- what is marked and not in the file before is not in it afterwards
  have hout : ∀ {s}, m.vol.freeMap s = true → s ∉ owns i (P k) →
      s ∉ owns { i with data := { i.data with length := n } } L' := by
    intro s hm hs hs'
    rcases mem_cons.mp hs' with rfl | hs'
    · exact hs mem_cons_self
    · exact hk.owned s hm (fun h => hs (mem_cons_of_mem _ h)) hs'
  refine ⟨hk.file, _, hi.change m.next m.taken (k := k) (L := L') hs hl
    (fun h j hne hj s hs hs' => ?_) (fun j hj => ?_) (fun s hs => ?_) hi.nodup le_rfl,
    fun h j j' hj _ => ?_⟩
  · exact hi.apart h k j i hne hj hlive s hs (mem_cons_of_mem _ hs')
  · cases hj
    refine ⟨⟨hh.sector.leaves hl hh.apart, ⟨_, hf'⟩, hk.owned _ hh.sector.marked hh.apart⟩,
      hi.old k i hlive, fun h0 => hi.root i (h0 ▸ hlive), fun h j' hne hj' s hs hs' => ?_,
      fun s hs => hout (hi.taken s hs).1.marked ((hi.taken s hs).2 k i hlive)⟩
    exact hout ((hi.heads h j' hj').marked s hs') (hi.apart h k j' i hne hj' hlive s hs') hs
  · refine ⟨(hi.taken s hs).1.leaves hl fun hs' => ?_, fun h j _ hj => (hi.taken s hs).2 h j hj⟩
    exact (hi.taken s hs).2 k i hlive (mem_cons_of_mem _ hs')
  · by_cases e : h = k
    · subst e
      rw [update_self]
      exact hk.secs
    · rw [update_of_ne e]

theorem Inv.close (hi : Inv M P m) (hs : m.step (.close k) = some m') : Goes M P m m' := by
  simp only [step, bind_eq_bind, bind_eq_some_iff, some.injEq] at hs
  obtain ⟨i, hlive, ⟨v, r⟩, hcls, rfl⟩ := hs
  obtain ⟨v', hcls', hs, hl⟩ := (hi.heads k i hlive).close hi.sound hi.mapFile
  obtain ⟨rfl, -⟩ := hcls'.symm.trans hcls
  refine ⟨hl.file, _, hi.change m.next m.taken (k := k) (L := P k) hs hl
    (fun h j hne hj => hi.apart h k j i hne hj hlive) nofun (fun s hs => ?_) hi.nodup le_rfl,
    fun h j j' hj _ => ?_⟩
  · exact ⟨(hi.taken s hs).1.leaves hl ((hi.taken s hs).2 k i hlive),
      fun h j _ hj => (hi.taken s hs).2 h j hj⟩
  · rw [update_eq_self]

theorem Inv.step {op : LayerCall} (hi : Inv M P m) (hop : op.inRange)
    (hs : m.step op = some m') : Goes M P m m' := by
  cases op with
  | allocate => exact hi.allocate hs
  | create sector length isDirectory => exact hi.create hop hs
  | write h buf offset => exact hi.write hop.1 hop.2 hs
  | close h => exact hi.close hs

/-! ### What the invariant says -/

section
variable (hi : Inv M P m)
include hi

theorem Inv.inode_zero (h0 : m.inode 0 = some i) :
    i.sector = FREE_MAP_SECTOR ∧ m.vol.freeMapFile = some i.data ∧
      ∃ L F, Holds m.vol.disk i.data L F ∧ M = L.owned i.data.doubleIndirect := by
  obtain ⟨file, hfile, rfl⟩ := map_eq_some_iff.mp h0
  have hf := hi.sound.file
  unfold MapFile at hf
  rw [hfile] at hf
  obtain ⟨L, F, hhld, -, hM⟩ := hf
  exact ⟨rfl, hfile, L, F, hhld, hM⟩

theorem Inv.holds (hh : m.inode h = some i) :
    ∃ L F, Holds m.vol.disk i.data L F := by
  cases h with
  | zero =>
    obtain ⟨-, -, L, F, hhld, -⟩ := hi.inode_zero hh
    exact ⟨L, F, hhld⟩
  | succ h =>
    obtain ⟨F, hf⟩ := (hi.heads h i hh).file
    exact ⟨_, F, hf.holds⟩

theorem Inv.mem_sectors_zero (h0 : m.inode 0 = some i) :
    s ∈ m.sectors i ↔ s = FREE_MAP_SECTOR ∨ s ∈ M := by
  obtain ⟨hsct, -, L, F, hhld, rfl⟩ := hi.inode_zero h0
  rw [← hsct]
  exact hhld.mem_listedSectors

theorem Inv.disjoint_zero (h₀ : m.inode 0 = some i0)
    (hh : m.live h = some i) (hs : s ∈ m.sectors i0) : s ∉ m.sectors i := by
  have hhds := hi.heads h i hh
  obtain ⟨F, hf⟩ := hhds.file
  rw [hhds.mem_listedSectors]
  intro hs'
  rcases (hi.mem_sectors_zero h₀).mp hs with rfl | hM
  · rcases mem_cons.mp hs' with h0 | hs'
    · exact hhds.sector.ne_zero h0.symm
    · exact hf.holds.valid.ne_zero _ hs' rfl
  · rcases mem_cons.mp hs' with rfl | hs'
    · exact hhds.sector.apart hM
    · exact hf.apart _ hs' hM

theorem Inv.disjoint (hne : h ≠ h') (hh : m.inode h = some i)
    (hh' : m.inode h' = some i') (hs : s ∈ m.sectors i) : s ∉ m.sectors i' := by
  cases h with
  | zero =>
    cases h' with
    | zero => exact absurd rfl hne
    | succ h' => exact hi.disjoint_zero hh hh' hs
  | succ h =>
    cases h' with
    | zero => exact fun hs' => hi.disjoint_zero hh' hh hs' hs
    | succ h' =>
      rw [(hi.heads h' i' hh').mem_listedSectors]
      rw [(hi.heads h i hh).mem_listedSectors] at hs
      exact hi.apart h h' i i' (fun e => hne (congrArg _ e)) hh hh' s hs

theorem Inv.sector_not_mem_tail (hh : m.inode h = some i) :
    i.sector ∉ (m.sectors i).tail := by
  cases h with
  | zero =>
    obtain ⟨hsct, -, L, F, hhld, -⟩ := hi.inode_zero hh
    rw [hhld.mem_tail_listedSectors, hsct]
    exact fun hs => hhld.valid.ne_zero _ hs rfl
  | succ h =>
    have hhds := hi.heads h i hh
    obtain ⟨F, hf⟩ := hhds.file
    rw [hf.holds.mem_tail_listedSectors]
    exact hhds.apart

end

theorem sector_mem_sectors (m : InodeLayer) (i : Inode) : i.sector ∈ m.sectors i :=
  mem_cons_self

theorem Inv.owner (hi : Inv M P m) (hh : m.inode h = some i) (hh' : m.inode h' = some i') :
    i.sector ∉ (m.sectors i').tail ∧ (i'.sector = i.sector ↔ h' = h) := by
  by_cases e : h' = h
  · subst e
    cases mem_unique hh hh'
    exact ⟨hi.sector_not_mem_tail hh, iff_of_true rfl rfl⟩
  · have hnot := hi.disjoint (fun e' => e e'.symm) hh hh' (m.sector_mem_sectors i)
    refine ⟨fun hs => hnot (mem_of_mem_tail hs), iff_of_false (fun hs => hnot ?_) e⟩
    rw [← hs]
    exact m.sector_mem_sectors i'

theorem Inv.exclusive (hi : Inv M P m) : m.Exclusive := by
  obtain ⟨file, hfile⟩ := isSome_iff_exists.mp (hi.sound.isSome_iff.mpr hi.mapFile)
  have hzero : m.inode 0 = some ⟨FREE_MAP_SECTOR, 1, false, 0, file, 0, none⟩ := by
    simp [inode, hfile]
  refine ⟨by rw [hzero]; rfl, fun h h' i i' hne hh hh' s hs => hi.disjoint hne hh hh' hs,
    fun h i hh s hs => ?_, fun h i hh => hi.owner hzero hh, fun h1 h i hh => ?_,
    fun h i p q s hh hp hq hs hs' => ?_⟩
  · cases h with
    | zero =>
      rcases (hi.mem_sectors_zero hh).mp hs with rfl | hM
      · exact hi.sound.zero
      · exact hi.sound.marked s hM
    | succ h =>
      have hhds := hi.heads h i hh
      exact hhds.marked s (hhds.mem_listedSectors.mp hs)
  · obtain ⟨r, hr⟩ := isSome_iff_exists.mp h1
    rw [← hi.root r hr]
    exact hi.owner hr hh
  · obtain ⟨L, F, hhld⟩ := hi.holds hh
    obtain ⟨hb, rfl⟩ := (hhld.byteToSector_eq_some (by omega)).mp hs
    obtain ⟨hb', he⟩ := (hhld.byteToSector_eq_some (by omega)).mp hs'
    exact hhld.valid.sec_inj hb hb' he.symm

theorem Goes.keepsSectors (hi : Inv M P m) (hg : Goes M P m m') : m.KeepsSectors m' := by
  obtain ⟨hfile, P', hi', hpre⟩ := hg
  intro h i i' p s hh hh' hp hs
  cases h with
  | zero =>
    obtain ⟨-, hf, L, F, hhld, hM⟩ := hi.inode_zero hh
    obtain ⟨-, hf', L', F', hhld', hM'⟩ := hi'.inode_zero hh'
    have hdata : i.data = i'.data := by
      rw [hfile, hf] at hf'
      exact some.inj hf'
    rw [← hdata] at hhld' hM' ⊢
    have hsecs := (append_inj' (cons.inj (hM.symm.trans hM')).2
      (hhld.secs_length.trans hhld'.secs_length.symm)).2
    exact hhld.byteToSector_of_prefix hhld' (hsecs ▸ prefix_rfl) (by omega) hs
  | succ h =>
    obtain ⟨F, hf⟩ := (hi.heads h i hh).file
    obtain ⟨F', hf'⟩ := (hi'.heads h i' hh').file
    exact hf.holds.byteToSector_of_prefix hf'.holds (hpre h i i' hh hh') (by omega) hs

/-! ### Formatted file systems -/

/-- A device on which formatting succeeds has room for the free map file and the root directory. -/
theorem room_of_format (hsize : d.size < 2 ^ 32)
    (h : FileSys.format d = some fs) : ROOT_DIR_SECTOR < d.size ∧ d.size ≤ 2 ^ 26 ∧
      sectorsToCreate (byteCnt d.size) + sectorsToCreate (MAX_FILES_PER_DIR * DirEntry.SIZE) ≤
        (freeMapInit d).freeSectors.length := by
  obtain ⟨v, hmap, h⟩ := bind_eq_some_iff.mp h
  obtain ⟨⟨ok', v1⟩, hroot, h⟩ := bind_eq_some_iff.mp h
  have hcrt : ∃ v0, (freeMapInit d).inodeCreate FREE_MAP_SECTOR (byteCnt d.size) false =
      some (true, v0) := by
    obtain ⟨⟨ok, v0⟩, hc, hmap⟩ := bind_eq_some_iff.mp hmap
    cases ok with
    | false => cases hmap
    | true => exact ⟨v0, hc⟩
  obtain ⟨v0, hcrt⟩ := hcrt
  have hbyt : byteCnt d.size < 2 ^ 31 := by
    unfold byteCnt
    omega
  obtain ⟨hmax, hspc⟩ := (sound_freeMapInit hsize).space_of_create hbyt hcrt
  have hfree : (freeMapInit d).freeSectors.length ≤ d.size := by
    refine (length_filter_le _ _).trans ?_
    rw [length_range]
    rfl
  have htre : 3 ≤ sectorsToCreate (byteCnt d.size) := Nat.le_add_right _ _
  have hsize' : d.size ≤ 2 ^ 26 := by
    unfold byteCnt at hmax
    rw [MAX_LENGTH_eq] at hmax
    omega
  obtain ⟨v', M, hmap', hsnd, -, -, -, -, hcou, -⟩ :=
    sound_freeMapCreate (by omega) hsize' hspc
  obtain rfl : v' = v := mem_unique hmap' hmap
  obtain rfl : ok' = true := by
    cases ok' with
    | false => cases h
    | true => rfl
  obtain ⟨-, hspc'⟩ := hsnd.space_of_create (by decide) hroot
  have : ROOT_DIR_SECTOR = 1 := rfl
  omega

theorem inv_formatted (hsize : d.size < 2 ^ 32)
    (h : FileSys.format d = some fs) : ∃ M P, Inv M P (formatted fs) := by
  obtain ⟨hroot, hsize', hspc⟩ := room_of_format hsize h
  obtain ⟨fs', M, P, data, hfrm, hsto, hheap, hM, -, -⟩ :=
    FileSys.stores_format hroot hsize' hspc
  obtain rfl := mem_unique hfrm h
  have hlive : ∀ h i, fs'.heap h = some i →
      h = 0 ∧ i = ⟨ROOT_DIR_SECTOR, 1, false, 0, data, 0, none⟩ := by
    intro h i hh
    rw [hheap, update_apply] at hh
    split_ifs at hh with h0
    exact ⟨h0, (some.inj hh).symm⟩
  refine ⟨M, fun _ => (P ROOT_DIR_SECTOR).layout, hsto.sound, hM, fun h i hh => ?_,
    fun h h' i i' hne hh hh' => ?_, nofun, nodup_nil, hsto.tidy.old, fun i hh => ?_, ?_⟩
  · obtain ⟨f, hσ, hst, hdata⟩ := hsto.open_inode hh
    obtain ⟨-, rfl⟩ := hlive h i hh
    have hsome := isSome_iff_exists.mpr ⟨f, hσ⟩
    refine ⟨⟨hst.marked, hst.lt_size, show ROOT_DIR_SECTOR ≠ 0 by decide, hst.apart⟩, ⟨_, hdata ▸ hst.fileOf⟩, ?_⟩
    have hnot := hsto.inodes_apart _ _ hsome hsome
    unfold Place.owned at hnot
    rwa [hdata] at hnot
  · exact absurd ((hlive h i hh).1.trans (hlive h' i' hh').1.symm) hne
  · obtain ⟨-, rfl⟩ := hlive 0 i hh
    rfl
  · exact hsto.tidy.old 0 _ (by rw [hheap]; exact update_self ..)

/-- **Sectors have one owner.**  From a freshly formatted file system on, after any number of
successful calls, no sector belongs to two live inodes; and no call moves a position of an inode
that stays live to another sector. -/
theorem sectors_exclusive {d : Disk} {fs : FileSys} {m : InodeLayer} (hsize : d.size < 2 ^ 32)
    (hformat : FileSys.format d = some fs)
    (hr : Reaches step (fun _ op => op.inRange) (formatted fs) m) :
    m.Exclusive ∧ ∀ op m', op.inRange → m.step op = some m' → m.KeepsSectors m' := by
  obtain ⟨M, P, h0⟩ := inv_formatted hsize hformat
  obtain ⟨P', hi⟩ := hr.invariant (P := fun m => ∃ P', Inv M P' m) ⟨P, h0⟩ fun _ _ _ hi hop hs => by
      obtain ⟨P', hi⟩ := hi
      obtain ⟨-, P'', hi'', -⟩ := hi.step hop hs
      exact ⟨P'', hi''⟩
  exact ⟨hi.exclusive, fun op m' hop hs => (hi.step hop hs).keepsSectors hi⟩

section
variable (hi : Inv M P m)
include hi

theorem Inv.exists_allocate (hfree : m.vol.freeSectors = s :: rest) :
    ∃ v, m.step .allocate = some ⟨v, m.live, m.next, s :: m.taken⟩ ∧ v.freeSectors = rest := by
  obtain ⟨v, halc, ha⟩ := hi.sound.allocate hfree
  exact ⟨v, by simp [InodeLayer.step, halc], ha.freeSectors_single hfree⟩

theorem Inv.exists_create (hs : s ∈ m.taken) (hspc : 3 ≤ m.vol.freeSectors.length) :
    ∃ v double L, m.step (.create s 0 false) = some ⟨v, update m.live m.next
        (some ⟨s, 1, false, 0, ⟨0, false, double, INODE_MAGIC⟩, 0, none⟩), m.next + 1,
        m.taken.erase s⟩ ∧
      Created M s ⟨0, false, double, INODE_MAGIC⟩ L m.vol v := by
  have huse := (hi.taken s hs).1
  obtain ⟨v, double, L, hcrt, hc⟩ := hi.sound.inodeCreate false huse.marked huse.lt_size
    huse.apart (Nat.zero_le _) hspc
  exact ⟨v, double, L, by simp [InodeLayer.step, hs, hcrt, hc.inodeOpen huse.lt_size], hc⟩

theorem Inv.exists_write (buf : List UInt8) (offset : ℕ) (hh : m.live h = some i)
    (hdeny : i.denyWriteCnt = 0) (hmax : offset + buf.length ≤ MAX_LENGTH)
    (hspc : sectorsFor (max i.data.length (offset + buf.length)) - sectorsFor i.data.length ≤
      m.vol.freeSectors.length) :
    ∃ v i', m.step (.write h buf offset) =
        some { m with vol := v, live := update m.live h (some i') } ∧
      i'.data.length = max i.data.length (offset + buf.length) := by
  obtain ⟨F, hf⟩ := (hi.heads h i hh).file
  obtain ⟨v, -, i', hw, hi', -⟩ := hf.inodeWriteAt hi.sound hdeny hmax hspc
  exact ⟨v, i', by simp [InodeLayer.step, hh, hw], by rw [hi']⟩

theorem Inv.exists_close (hh : m.live h = some i) :
    ∃ v, m.step (.close h) = some { m with vol := v, live := update m.live h none } ∧
      v.disk.size = m.vol.disk.size ∧ v.freeMap i.sector = false ∧
      ∀ s ∈ m.vol.freeSectors, s ∈ v.freeSectors := by
  have hhds := hi.heads h i hh
  obtain ⟨v, hcls, -, hl⟩ := hhds.close hi.sound hi.mapFile
  obtain ⟨F, hf⟩ := hhds.file
  have hmap := @File.freeMap_inodeClose _ _ _ _ _ { i with removed := true, openCnt := 1 } hf
    hhds.sector.lt_size hhds.apart rfl rfl _ hcls
  refine ⟨v, by simp [InodeLayer.step, hh, hcls], hl.size, ?_, fun s hs => ?_⟩
  · rw [hmap]
    simp [reset]
  · obtain ⟨hlt, hfree⟩ := mem_freeSectors.mp hs
    refine mem_freeSectors.mpr ⟨hl.size ▸ hlt, ?_⟩
    rw [hmap]
    simp [reset, hfree]

end

/-- A sector has been allocated on a formatted device. -/
theorem exists_taken : ∃ fs M P v s i, FileSys.format ⟨64, fun _ _ => 0⟩ = some fs ∧
    Reaches step (fun _ op => op.inRange) (formatted fs) ⟨v, fs.heap, fs.next, [s]⟩ ∧
    Inv M P ⟨v, fs.heap, fs.next, [s]⟩ ∧ 3 < v.freeSectors.length ∧ ROOT_DIR_SECTOR < v.disk.size ∧
    fs.heap 0 = some i ∧ i.sector = ROOT_DIR_SECTOR := by
  obtain ⟨fs, -, -, data, hfrm, -, hheap, hcou⟩ := FileSys.exists_formatted
  obtain ⟨M, P, hi⟩ := inv_formatted (by decide) hfrm
  have hlive : (formatted fs).live 0 = some ⟨ROOT_DIR_SECTOR, 1, false, 0, data, 0, none⟩ := by
    simp [formatted, hheap]
  obtain ⟨s, rest, hfree⟩ := exists_cons_of_length_pos (show 0 < fs.vol.freeSectors.length by omega)
  obtain ⟨v, hstep, hrest⟩ := hi.exists_allocate hfree
  obtain ⟨-, P', hi', -⟩ := hi.allocate hstep
  refine ⟨fs, M, P', v, s, _, hfrm, .step .allocate .start trivial hstep, hi', ?_,
    (hi'.heads 0 _ hlive).sector.lt_size, hlive, rfl⟩
  rw [hfree, length_cons] at hcou
  rw [hrest]
  omega

/-- A file is created on a formatted device and written to, and the root directory is closed after its
removal. -/
theorem sectors_exclusive_write_close : ∃ fs m, FileSys.format ⟨64, fun _ _ => 0⟩ = some fs ∧
    Reaches step (fun _ op => op.inRange) (formatted fs) m ∧
    (∃ h i, m.live h = some i ∧ i.data.length = 600) ∧ m.live 0 = none ∧ m.Exclusive := by
  obtain ⟨fs, M, P, v, s, root, hfrm, hr, hi, hcou, -, hroot, -⟩ := exists_taken
  obtain ⟨v1, double, L, h1, hc⟩ := hi.exists_create mem_cons_self hcou.le
  obtain ⟨-, P1, hi1, -⟩ := hi.create (by decide) h1
  obtain ⟨buf, hbuf⟩ : ∃ buf : List UInt8, buf.length = 600 := ⟨replicate 600 1, length_replicate⟩
  have hgrow : sectorsFor (max 0 (0 + 600)) - sectorsFor 0 = 1 := by decide
  have hthr : sectorsToCreate 0 = 3 := by decide
  have hcou1 : v1.freeSectors.length + sectorsToCreate 0 = v.freeSectors.length :=
    hc.length_freeSectors
  obtain ⟨v2, i2, h2, hlen⟩ := hi1.exists_write buf 0 (update_self ..) rfl
    (by rw [hbuf]; decide) (by
      show sectorsFor (max 0 (0 + buf.length)) - sectorsFor 0 ≤ v1.freeSectors.length
      rw [hbuf, hgrow]
      omega)
  have hrng : LayerCall.inRange (.write fs.next buf 0) := ⟨by omega, by decide⟩
  obtain ⟨-, P2, hi2, -⟩ := hi1.step hrng h2
  have hne : 0 ≠ fs.next := hi.started.ne
  obtain ⟨v3, h3, -⟩ := hi2.exists_close (h := 0) (i := root) (by simp [hne, hroot])
  have hr1 := Reaches.step (LayerCall.create s 0 false) hr (show 0 < 2 ^ 31 by decide) h1
  have hr2 := Reaches.step (LayerCall.write fs.next buf 0) hr1 hrng h2
  have hr3 := Reaches.step (LayerCall.close 0) hr2 trivial h3
  exact ⟨fs, _, hfrm, hr3, ⟨fs.next, i2, by simp [hne.symm], by rw [hlen, hbuf]; rfl⟩,
    by simp, (sectors_exclusive (by decide) hfrm hr3).1⟩

/-- The root directory is closed after its removal, and its sector becomes the double indirect sector
of the next file. -/
theorem sector_one_reused : ∃ fs m h i, FileSys.format ⟨64, fun _ _ => 0⟩ = some fs ∧
    Reaches step (fun _ op => op.inRange) (formatted fs) m ∧ m.live h = some i ∧
    i.sector ≠ ROOT_DIR_SECTOR ∧ ROOT_DIR_SECTOR ∈ m.sectors i := by
  obtain ⟨fs, M, P, v, s, root, hfrm, hr, hi, hcou, hlt, hroot, hone⟩ := exists_taken
  obtain ⟨v1, h1, hsize, hfree, hmore⟩ := hi.exists_close hroot
  obtain ⟨-, P1, hi1, -⟩ := hi.close h1
  have hspc : 3 ≤ v1.freeSectors.length :=
    hcou.le.trans ((nodup_freeSectors v).subperm hmore).length_le
  obtain ⟨v2, double, L, h2, hc⟩ := hi1.exists_create mem_cons_self hspc
  -- sector 0 is that of the free map file, so that sector 1 is the first that is free
  have hfirst : v1.freeSectors.head? = some ROOT_DIR_SECTOR := by
    rw [freeSectors, head?_filter, find?_range_eq_some]
    refine ⟨by simp [← hone, hfree], mem_range.mpr (hsize ▸ hlt), fun k hk => ?_⟩
    obtain rfl : k = 0 := Nat.lt_one_iff.mp hk
    simpa using hi1.sound.zero
  cases some.inj (hc.first.symm.trans hfirst)
  have hs := (hi1.taken s mem_cons_self).1.marked
  refine ⟨fs, _, fs.next, _, hfrm, .step (.create s 0 false)
      (.step (.close 0) hr trivial h1) (show 0 < 2 ^ 31 by decide) h2,
    update_self .., ?_, hc.fileOf.holds.mem_listedSectors.mpr (.inr Layout.double_mem)⟩
  rintro rfl
  rw [hone] at hfree
  simp [hfree] at hs

end InodeLayer

end Pintos
