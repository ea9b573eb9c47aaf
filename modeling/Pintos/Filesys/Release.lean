import Pintos.Filesys.ByteArray

/-! # Deleting a file

`inode_close` gives back the sectors of a removed inode when its last opener closes it.  The loop
over an indirect table stops at the first entry that is in use, where it should stop at the first
one that is not; since the first data sector always exists, it stops at once.  Only the first
indirect table, the double indirect table and the inode's own sector become free. -/

namespace Pintos
open Bytes Disk Runs Option List Volume

/-- The sectors that a table lists. -/
def tableEntries (b : Block) : List ℕ :=
  ((List.range NUM_ENTRIES_IN_INDIRECT).map (entry b)).filter fun s => s ≠ 0

/-- The inode's own sector, the double indirect one, the indirect sectors listed in it and the data
sectors listed in those. -/
def listedSectors (d : Disk) (inode : Inode) : List ℕ :=
  let tables := tableEntries (d.block inode.data.doubleIndirect)
  inode.sector :: inode.data.doubleIndirect ::
    (tables ++ tables.flatMap fun t => tableEntries (d.block t))

/-! ### What a file lists -/

section
variable {d : Disk} {data : InodeDisk} {L : Layout} {F : ℕ → UInt8}

theorem mem_tableEntries (hk : k < NUM_ENTRIES_IN_INDIRECT)
    (h : entry b k ≠ 0) : entry b k ∈ tableEntries b := by
  simp only [tableEntries, mem_filter, List.mem_map, mem_range, decide_eq_true_eq]
  exact ⟨⟨k, hk, rfl⟩, h⟩

theorem Holds.tabs_pos (h : Holds d data L F) : 0 < L.tabs.length := by
  rw [h.tabs_length]
  exact Nat.succ_pos _

theorem Holds.first_sector (h : Holds d data L F) :
    entry (d.block (L.tabs.getD 0 0)) 0 = L.secs.getD 0 0 :=
  h.single 0 h.tabs_pos 0 (by decide)

theorem Holds.first_listed (h : Holds d inode.data L F) :
    L.secs.getD 0 0 ∈ listedSectors d inode := by
  have htab : L.tabs.getD 0 0 ∈ tableEntries (d.block inode.data.doubleIndirect) := by
    rw [← h.double 0 (by decide)]
    apply mem_tableEntries (by decide)
    rw [h.double 0 (by decide)]
    exact h.valid.ne_zero _ (Layout.tab_mem h.tabs_pos)
  have hsec : L.secs.getD 0 0 ∈ tableEntries (d.block (L.tabs.getD 0 0)) := by
    rw [← h.first_sector]
    apply mem_tableEntries (by decide)
    rw [h.first_sector]
    exact h.valid.ne_zero _ (Layout.sec_mem h.secs_pos)
  apply mem_cons_of_mem
  apply mem_cons_of_mem
  apply mem_append_right
  exact mem_flatMap.mpr ⟨_, htab, hsec⟩

end

/-! ### What is released -/

namespace Volume

variable {v v' : Volume} {M : List ℕ} {L : Layout} {F : ℕ → UInt8} {inode : Inode} {s : ℕ}

/-- Closing the inode frees the sectors that it lists, and no other bit of the free map changes. -/
def FreesListed (v : Volume) (inode : Inode) : Prop :=
  ∃ v', v.inodeClose inode = some (v', none) ∧
    v'.freeMap = reset v.freeMap (listedSectors v.disk inode)

section
variable (h : v.File M inode.data L F)
include h

/-- The loops of `inode_close` release the first indirect table, and nothing else: the first entry
of that table is in use. -/
theorem File.releaseTables (hind : ∀ k < NUM_ENTRIES_IN_INDIRECT, ind k = L.tabs.getD k 0) :
    releaseTables ind NUM_ENTRIES_IN_INDIRECT v = v.freeMapReleaseSingle (L.tabs.getD 0 0) := by
  have htab : L.tabs.getD 0 0 ∈ L.owned inode.data.doubleIndirect :=
    Layout.tab_mem h.holds.tabs_pos
  obtain ⟨dir, hdir, henr⟩ := readTable_eq (h.holds.valid.lt_size _ htab)
  have hfir : dir 0 ≠ 0 := by
    rw [henr 0 (by decide), h.holds.first_sector]
    exact h.holds.valid.ne_zero _ (Layout.sec_mem h.holds.secs_pos)
  have hstop : releaseEntries dir NUM_ENTRIES_IN_INDIRECT v = some (v, false) := by
    exact if_pos hfir
  show Volume.releaseTables ind (127 + 1) v = _
  unfold Volume.releaseTables
  have hne : ind 0 ≠ 0 := by
    rw [hind 0 (by decide)]
    exact h.holds.valid.ne_zero _ htab
  rw [show NUM_ENTRIES_IN_INDIRECT - (127 + 1) = 0 from rfl, if_neg hne, hind 0 (by decide), hdir]
  simp only [hstop, bind_eq_bind, bind_some]
  cases v.freeMapReleaseSingle (L.tabs.getD 0 0) <;> rfl

theorem File.putInode (hsct : inode.sector ∉ L.owned inode.data.doubleIndirect) :
    File { v with disk := v.disk.put inode.sector inode.data.bytes 0 } M inode.data L F :=
  h.mono (sameOutside_put (l := [inode.sector]) mem_cons_self) (by simpa using hsct) h.marked

section
variable (hlt : inode.sector < v.disk.size)
  (hsct : inode.sector ∉ L.owned inode.data.doubleIndirect) (hcnt : inode.openCnt = 1)
  (hrem : inode.removed = true)
include hlt hsct hcnt hrem

theorem File.inodeClose_eq : v.inodeClose inode = (do
      let v ← freeMapReleaseSingle
        { v with disk := v.disk.put inode.sector inode.data.bytes 0 } (L.tabs.getD 0 0)
      let v ← v.freeMapReleaseSingle inode.data.doubleIndirect
      let v ← v.freeMapReleaseSingle inode.sector
      some (v, none)) := by
  have hput := h.putInode hsct
  obtain ⟨ind, hind, henr⟩ := readTable_eq (hput.holds.valid.lt_size _ Layout.double_mem)
  have hrel := hput.releaseTables fun k hk => (henr k hk).trans (hput.holds.double k hk)
  unfold inodeClose
  rw [if_pos h.holds.magic, if_neg (by simp [hcnt]), cacheWrite_eq hlt (by simp [InodeDisk.bytes])]
  simp [hrem, hind, hrel]

theorem File.freeMap_inodeClose (hcls : v.inodeClose inode = some (v', r)) : v'.freeMap =
      reset v.freeMap [L.tabs.getD 0 0, inode.data.doubleIndirect, inode.sector] := by
  rw [h.inodeClose_eq hlt hsct hcnt hrem] at hcls
  obtain ⟨v1, h1, hcls⟩ := bind_eq_some_iff.mp hcls
  obtain ⟨v2, h2, hcls⟩ := bind_eq_some_iff.mp hcls
  obtain ⟨v3, h3, hcls⟩ := bind_eq_some_iff.mp hcls
  cases hcls
  rw [freeMap_release h3, freeMap_release h2, freeMap_release h1]
  funext s
  simp [reset, Bool.and_assoc]

theorem File.first_sector_marked (hcls : v.inodeClose inode = some (v', r)) :
    v'.freeMap (L.secs.getD 0 0) = true := by
  have hsec : L.secs.getD 0 0 ∈ L.owned inode.data.doubleIndirect :=
    Layout.sec_mem h.holds.secs_pos
  have hne : L.secs.getD 0 0 ∉ [L.tabs.getD 0 0, inode.data.doubleIndirect, inode.sector] := by
    simp only [mem_cons, not_mem_nil, or_false, not_or]
    exact ⟨(h.holds.valid.tab_ne_sec h.holds.tabs_pos h.holds.secs_pos).symm,
      (h.holds.valid.double_ne_sec h.holds.secs_pos).symm, fun he => hsct (he ▸ hsec)⟩
  rw [h.freeMap_inodeClose hlt hsct hcnt hrem hcls]
  simp only [reset, h.marked _ hsec, hne, decide_false, Bool.not_false, Bool.and_true]

theorem File.not_freesListed : ¬ v.FreesListed inode := by
  rintro ⟨v', hcls, hmap⟩
  have hbit := h.first_sector_marked hlt hsct hcnt hrem hcls
  rw [hmap] at hbit
  simp only [reset, h.holds.first_listed, decide_true, Bool.not_true, Bool.and_false] at hbit
  cases hbit

end

/-- The last close of a removed inode comes to an end if the free map can be written. -/
theorem File.inodeClose (hv : v.Sound M)
    (hfile : v.freeMapFile.isSome) (hmrk : v.freeMap inode.sector = true)
    (hlt : inode.sector < v.disk.size) (h0 : inode.sector ≠ 0) (hM : inode.sector ∉ M)
    (hsct : inode.sector ∉ L.owned inode.data.doubleIndirect) (hcnt : inode.openCnt = 1)
    (hrem : inode.removed = true) : ∃ v', v.inodeClose inode = some (v', none) ∧ v'.Sound M ∧
      v'.freeMapFile = v.freeMapFile ∧ SameOutside (inode.sector :: M) v.disk v'.disk := by
  have hs0 : Sound { v with disk := v.disk.put inode.sector inode.data.bytes 0 } M :=
    hv.mono (sameOutside_put (l := [inode.sector]) mem_cons_self) (by simpa using hM) rfl
      fun _ hs _ => hs
  have htab : L.tabs.getD 0 0 ∈ L.owned inode.data.doubleIndirect :=
    Layout.tab_mem h.holds.tabs_pos
  have hdbl : inode.data.doubleIndirect ∈ L.owned inode.data.doubleIndirect :=
    Layout.double_mem
  have hvalid := h.holds.valid
  obtain ⟨v1, h1, hs1, hm1, hf1, hd1⟩ := hs0.release hfile (h.marked _ htab)
    (hvalid.lt_size _ htab) ⟨hvalid.ne_zero _ htab, h.apart _ htab⟩
  have hsize1 := hd1.1
  obtain ⟨v2, h2, hs2, hm2, hf2, hd2⟩ := hs1.release (by rw [hf1]; exact hfile) (by
      rw [hm1]
      simp only [reset, h.marked _ hdbl, mem_singleton, Bool.true_and, Bool.not_eq_true',
        decide_eq_false_iff_not]
      exact hvalid.double_ne_tab h.holds.tabs_pos)
    (by rw [hsize1]; exact hvalid.lt_size _ hdbl) ⟨hvalid.ne_zero _ hdbl, h.apart _ hdbl⟩
  obtain ⟨v3, h3, hs3, -, hf3, hd3⟩ := hs2.release (by rw [hf2, hf1]; exact hfile) (by
      rw [hm2, hm1]
      simp only [reset, hmrk, mem_singleton, Bool.true_and, Bool.and_eq_true,
        Bool.not_eq_true', decide_eq_false_iff_not]
      exact ⟨fun he => hsct (he ▸ htab), fun he => hsct (he ▸ hdbl)⟩)
    (by rw [hd2.1, hsize1]; exact hlt) ⟨h0, hM⟩
  have hM' : ∀ s ∈ M, s ∈ inode.sector :: M := fun s hs => mem_cons_of_mem _ hs
  refine ⟨v3, ?_, hs3, hf3.trans (hf2.trans hf1), (sameOutside_put mem_cons_self).trans
    (((hd1.mono hM').trans (hd2.mono hM')).trans (hd3.mono hM'))⟩
  rw [h.inodeClose_eq hlt hsct hcnt hrem]
  simp only [h1, h2, h3, bind_eq_bind, bind_some]

end

end Volume

namespace OpenFile

/-- The inode of an open file after `inode_remove`, when its last opener closes it. -/
def lastRemoved (m : OpenFile) : Inode := { m.inode with removed := true, openCnt := 1 }

/-- **Deletion leaks.**  However a file has been created and written to, closing its inode after it
has been removed does not free the sectors that the inode lists. -/
theorem deletion_leaks (v v₁ : Volume) (M : List ℕ) (hv : v.Sound M) (sector len₀ : ℕ)
    (isDirectory : Bool) (hmarked : v.freeMap sector = true) (hlt : sector < v.disk.size)
    (hM : sector ∉ M) (hlen : len₀ < 2 ^ 31)
    (hcreate : v.inodeCreate sector len₀ isDirectory = some (true, v₁)) :
    ∃ inode, v₁.inodeOpen sector = some inode ∧
      ∀ m, Reaches writeAt Admissible ⟨v₁, inode, List.replicate len₀ 0⟩ m →
        ¬ m.vol.FreesListed m.lastRemoved := by
  obtain ⟨inode, hopen, -, htra⟩ := tracks_create hv hmarked hlt hM hlen hcreate
  refine ⟨inode, hopen, fun m hm => ?_⟩
  have h := tracks_of_reaches htra hm
  obtain ⟨L, hfile, hsct⟩ := h.file
  exact File.not_freesListed (show m.vol.File M m.lastRemoved.data L _ from hfile)
    h.lt_size hsct rfl rfl

/-- A freshly formatted device with a file on it. -/
theorem exists_file (length : ℕ) (hmax : length ≤ MAX_LENGTH) (hspc : sectorsToCreate length ≤ 59) :
    ∃ v v1 M double L,
    (freeMapInit ⟨64, fun _ _ => 0⟩).freeMapCreate = some v ∧ v.Sound M ∧
    v.freeMapFile.isSome ∧ ROOT_DIR_SECTOR ∉ M ∧ v.freeMap ROOT_DIR_SECTOR = true ∧
    v1.freeSectors.length + sectorsToCreate length = 59 ∧ ROOT_DIR_SECTOR < v.disk.size ∧
    v.inodeCreate ROOT_DIR_SECTOR length false = some (true, v1) ∧
    Created M ROOT_DIR_SECTOR ⟨length, false, double, INODE_MAGIC⟩ L v v1 := by
  obtain ⟨v, M, hv, hs, hfile, hsize, hM, hroot, hcou, -⟩ :=
    sound_freeMapCreate (d := ⟨64, fun _ _ => 0⟩) (by decide) (by decide) (by decide)
  have hlt : ROOT_DIR_SECTOR < v.disk.size := by
    rw [hsize]
    decide
  have hfree : v.freeSectors.length = 59 := by
    have h2 : sectorsToCreate (byteCnt 64) = 3 := by decide
    have h3 : (freeMapInit ⟨64, fun _ _ => 0⟩).freeSectors.length = 62 := by decide
    rw [h2] at hcou
    omega
  obtain ⟨v1, double, L, hcrt, hc⟩ :=
    hs.inodeCreate false hroot hlt hM hmax (hfree ▸ hspc)
  exact ⟨v, v1, M, double, L, hv, hs, hfile, hM, hroot,
    hc.length_freeSectors.trans hfree, hlt, hcrt, hc⟩

theorem deletion_leaks_two_sectors : ∃ v v₁ inode,
    (Volume.freeMapInit ⟨64, fun _ _ => 0⟩).freeMapCreate = some v ∧
    v.inodeCreate ROOT_DIR_SECTOR 600 false = some (true, v₁) ∧
    v₁.inodeOpen ROOT_DIR_SECTOR = some inode ∧
    ¬ v₁.FreesListed { inode with removed := true, openCnt := 1 } := by
  obtain ⟨v, v₁, M, -, -, hv, hs, -, hM, hroot, -, hlt, hcrt, -⟩ :=
    exists_file 600 (by decide) (by decide)
  obtain ⟨inode, hopen, h⟩ := deletion_leaks v v₁ M hs ROOT_DIR_SECTOR 600 false hroot hlt hM
    (by decide) hcrt
  exact ⟨v, v₁, inode, hv, hcrt, hopen, h _ .start⟩

/-- The empty file is closed after its removal, and its data sector is still marked. -/
theorem data_sector_leaks : ∃ v v₁ v₂ inode s,
    (Volume.freeMapInit ⟨64, fun _ _ => 0⟩).freeMapCreate = some v ∧
    v.inodeCreate ROOT_DIR_SECTOR 0 false = some (true, v₁) ∧
    v₁.inodeOpen ROOT_DIR_SECTOR = some inode ∧
    v₁.inodeClose { inode with removed := true } = some (v₂, none) ∧
    s ∈ listedSectors v₁.disk inode ∧ v₂.freeMap s = true := by
  obtain ⟨v, v₁, M, double, L, hv, -, hfile, hM, hroot, -, hlt, hcrt, hc⟩ :=
    exists_file 0 (by decide) (by decide)
  have hflf : v₁.File M (Inode.data ⟨ROOT_DIR_SECTOR, 1, true, 0,
    ⟨0, false, double, INODE_MAGIC⟩, 0, none⟩) L fun _ => 0 := hc.fileOf
  have hsct : ROOT_DIR_SECTOR ∉ L.owned double := fun hs => by
    rw [hc.fresh _ hs] at hroot
    exact absurd hroot (by decide)
  have hlt1 : ROOT_DIR_SECTOR < v₁.disk.size := by
    rw [hc.size]
    exact hlt
  have hmrk := hc.map _ hroot
  obtain ⟨v₂, hcls, -⟩ := hflf.inodeClose hc.sound (hc.file.symm ▸ hfile) hmrk hlt1
    (show ROOT_DIR_SECTOR ≠ 0 by decide) hM hsct rfl rfl
  exact ⟨v, v₁, v₂, _, L.secs.getD 0 0, hv, hcrt, hc.inodeOpen hlt, hcls,
    hflf.holds.first_listed, hflf.first_sector_marked hlt1 hsct rfl rfl hcls⟩

end OpenFile

end Pintos
