import Pintos.Filesys.Marking
import Pintos.Lib.TwoRuns

/-! # The contents of a removed file

Two runs of `filesys_remove`, in two states that differ in the data bytes of a regular file only, and
for a path to this file.

* **Same device but for the data.**  If one of the states is a store, the other one is a store with
  the same places, where the file has other bytes (`Stores.sameButData`).
* **Two runs.**  As long as only directories are read, both runs open the same inodes at the same
  addresses (`Twins`).
* **The child.**  `filesys_remove` looks for `.` and `..` in the file.  If what it finds leads to the
  parent, the parent is marked, and the two runs are the same exactly if that happens in both. -/

namespace Pintos
open Bytes Walks Disk Runs TwoRuns Function Option List FileSys DirEntry

namespace FileSys

/-- Two file systems that differ in the data bytes of the file in sector `c` at most. -/
structure SameButData (fs fs' : FileSys) (c : ℕ) : Prop where
  heap : fs'.heap = fs.heap
  openInodes : fs'.openInodes = fs.openInodes
  next : fs'.next = fs.next
  freeMap : fs'.vol.freeMap = fs.vol.freeMap
  freeMapFile : fs'.vol.freeMapFile = fs.vol.freeMapFile
  size : fs'.vol.disk.size = fs.vol.disk.size
  block : ∀ x o, fs'.vol.disk.block x o ≠ fs.vol.disk.block x o → ∃ data pos,
    fs.inodeData c = some data ∧ pos < data.length ∧
    fs.vol.disk.byteToSector data pos = some (some x) ∧ pos % BLOCK_SECTOR_SIZE = o

/-- The bytes of a file of which the sectors are known. -/
def bytesAt (d : Disk) (secs : List ℕ) (length : ℕ) : List UInt8 :=
  slice (fun pos => d.block (secs.getD (pos / BLOCK_SECTOR_SIZE) 0) (pos % BLOCK_SECTOR_SIZE)) 0
    length

theorem region_bytesAt {d : Disk} {secs : List ℕ} {length pos : ℕ} (h : pos < length) :
    region (bytesAt d secs length) pos =
      d.block (secs.getD (pos / BLOCK_SECTOR_SIZE) 0) (pos % BLOCK_SECTOR_SIZE) := by
  rw [bytesAt, region, getD_slice h, zero_add]

variable {fs fs' : FileSys} {M : List ℕ} {σ τ : Store} {P : ℕ → Place} {c : ℕ} {f : FileImage}

section
variable (hs : SameButData fs fs' c) (h : fs.Stores M σ P) (hf : σ c = some f)
include hs h hf

theorem SameButData.byte_of_ne (hne : fs'.vol.disk.block x o ≠ fs.vol.disk.block x o) :
    ∃ pos < f.bytes.length, pos / BLOCK_SECTOR_SIZE < (P c).layout.secs.length ∧
      (P c).layout.secs.getD (pos / BLOCK_SECTOR_SIZE) 0 = x ∧ pos % BLOCK_SECTOR_SIZE = o := by
  have hst := h.stored c f hf
  obtain ⟨data, pos, hdata, hpos, hx, ho⟩ := hs.block x o hne
  cases mem_unique hst.inode hdata
  have hbound := hst.fileOf.holds.bound
  rw [hst.fileOf.holds.byteToSector (by omega)] at hx
  split_ifs at hx with hlt
  · exact ⟨pos, hst.length ▸ hpos, hlt, some.inj (some.inj hx), ho⟩
  · cases hx

theorem SameButData.sameOutside : SameOutside (P c).layout.secs fs.vol.disk fs'.vol.disk := by
  refine ⟨hs.size, fun x hx => funext fun o => ?_⟩
  by_contra hne
  obtain ⟨pos, -, hlt, rfl, -⟩ := hs.byte_of_ne h hf hne
  exact hx (getD_mem hlt)

/-- The file has other bytes in the same sectors. -/
theorem SameButData.holds : Holds fs'.vol.disk (P c).data (P c).layout
      (region (bytesAt fs'.vol.disk (P c).layout.secs f.bytes.length)) := by
  have hst := h.stored c f hf
  have hold := hst.fileOf.holds
  have hsame := hs.sameOutside h hf
  refine ⟨hold.magic, hold.bound, hold.secs_length, hold.tabs_length, hs.size ▸ hold.valid,
    fun k hk => ?_, fun k hk j hj => ?_, fun b hb o ho => ?_, fun i hi => ?_⟩
  · rw [hsame.2 _ fun hmem => hold.valid.double_ne (mem_append_right _ hmem) rfl]
    exact hold.double k hk
  · have hdisj := disjoint_of_nodup_append (nodup_cons.mp hold.valid.nodup).2
    rw [hsame.2 _ (hdisj (getD_mem hk))]
    exact hold.single k hk j hj
  · have hdiv : (BLOCK_SECTOR_SIZE * b + o) / BLOCK_SECTOR_SIZE = b := by
      rw [Nat.mul_add_div (by decide), Nat.div_eq_of_lt ho, Nat.add_zero]
    have hmod : (BLOCK_SECTOR_SIZE * b + o) % BLOCK_SECTOR_SIZE = o := by
      rw [Nat.mul_add_mod, Nat.mod_eq_of_lt ho]
    by_cases hlt : BLOCK_SECTOR_SIZE * b + o < f.bytes.length
    · rw [region_bytesAt hlt, hdiv, hmod]
    · have hend : region (bytesAt fs'.vol.disk (P c).layout.secs f.bytes.length)
          (BLOCK_SECTOR_SIZE * b + o) = 0 := by
        rw [region, getD_eq_default]
        rw [bytesAt, length_slice]
        omega
      rw [hend, ← hold.zero (BLOCK_SECTOR_SIZE * b + o) (by rw [hst.length]; omega),
        ← hold.bytes b hb o ho]
      by_contra hne
      obtain ⟨pos, hpos, hlt', hsec, rfl⟩ := hs.byte_of_ne h hf hne
      have hb' := hold.valid.sec_inj hlt' hb hsec
      have := Nat.div_add_mod pos BLOCK_SECTOR_SIZE
      rw [hb'] at this
      omega
  · rw [region, getD_eq_default]
    rw [bytesAt, length_slice, ← hst.length]
    exact hi

end

/-- The other state holds the same files but for the bytes of one. -/
theorem Stores.sameButData (h : fs.Stores M σ P) (hf : σ c = some f)
    (hs : SameButData fs fs' c) : fs'.Stores M (Function.update σ c
      (some { f with bytes := bytesAt fs'.vol.disk (P c).layout.secs f.bytes.length })) P := by
  have hsame := hs.sameOutside h hf
  have hst := h.stored c f hf
  have howe : ∀ x ∈ (P c).layout.secs, x ∈ (P c).owned := fun x hx =>
    mem_cons_of_mem _ (mem_append_right _ hx)
  have hsome : ∀ s, (Function.update σ c (some
      { f with bytes := bytesAt fs'.vol.disk (P c).layout.secs f.bytes.length }) s).isSome ↔
      (σ s).isSome := by
    intro s
    by_cases hsc : s = c
    · subst hsc
      simp [hf]
    · rw [update_of_ne hsc]
  -- inodes are where they were
  have hino : ∀ s, (σ s).isSome → fs'.vol.inodeOpen s = fs.vol.inodeOpen s := fun s hs' =>
    Volume.inodeOpen_congr hs.size (hsame.2 s fun hmem =>
      h.inodes_apart s c hs' (by rw [hf]; rfl) (howe s hmem))
  have hdata : ∀ s, (σ s).isSome → fs'.inodeData s = fs.inodeData s := fun s hs' =>
    inodeData_congr (by rw [FileSys.findOpen, hs.heap, hs.openInodes, FileSys.findOpen]) (fun q _ => by rw [hs.heap]) (hino s hs')
  refine ⟨?_, ?_, ?_, ?_, ?_, ?_⟩
  · have ht := h.tidy
    exact ⟨hs.openInodes ▸ ht.nodup, hs.heap ▸ hs.openInodes ▸ ht.live,
      hs.heap ▸ hs.openInodes ▸ ht.listed, hs.heap ▸ hs.next ▸ ht.old, hs.heap ▸ ht.counted,
      hs.heap ▸ ht.magic, hs.heap ▸ ht.distinct⟩
  · exact h.sound.mono hsame (fun x hx => hst.fileOf.apart x (howe x hx)) hs.freeMapFile
      fun s hs' _ => by rw [hs.freeMap, hs']
  · intro p i hp
    rw [hsome]
    exact h.known p i (hs.heap ▸ hp)
  · intro s g hg
    by_cases hsc : s = c
    · subst hsc
      rw [update_self, some.injEq] at hg
      subst hg
      have hc : (σ s).isSome := by rw [hf]; rfl
      exact ⟨(hdata s hc).trans hst.inode, hino s hc ▸ hst.device, hst.isDirectory, by
          rw [hst.length, bytesAt, length_slice],
        ⟨hs.holds h hf, hs.freeMap ▸ hst.fileOf.marked, hst.fileOf.apart⟩, hs.freeMap ▸ hst.marked,
        hs.size ▸ hst.lt_size, hst.apart⟩
    · rw [update_of_ne hsc] at hg
      have hst' := h.stored s g hg
      have hs' : (σ s).isSome := by rw [hg]; rfl
      exact ⟨(hdata s hs').trans hst'.inode, hino s hs' ▸ hst'.device, hst'.isDirectory,
        hst'.length, hst'.fileOf.mono hsame (fun x hx hx' => h.files_apart c s (by rw [hf]; rfl) hs'
          (Ne.symm hsc) x (howe x hx) hx') (hs.freeMap ▸ hst'.fileOf.marked),
        hs.freeMap ▸ hst'.marked, hs.size ▸ hst'.lt_size, hst'.apart⟩
  · intro s s' hs1 hs2
    exact h.inodes_apart s s' ((hsome s).mp hs1) ((hsome s').mp hs2)
  · intro s s' hs1 hs2
    exact h.files_apart s s' ((hsome s).mp hs1) ((hsome s').mp hs2)

theorem Backed.sameButData (h : fs.Backed M σ P) (hf : σ c = some f)
    (hs : SameButData fs fs' c) : fs'.Backed M (update σ c
      (some { f with bytes := bytesAt fs'.vol.disk (P c).layout.secs f.bytes.length })) P := by
  have hst := h.stored c f hf
  have howe : ∀ x ∈ (P c).layout.secs, x ∈ (P c).owned := fun x hx =>
    mem_cons_of_mem _ (mem_append_right _ hx)
  refine ⟨h.toStores.sameButData hf hs, h.mirrored.mono (hs.sameOutside h.toStores hf)
    (fun x hx => ⟨?_, hst.fileOf.apart x (howe x hx)⟩) hs.freeMapFile hs.freeMap, ?_⟩
  · exact hst.fileOf.holds.valid.ne_zero x (howe x hx)
  · rw [update_of_ne, h.zero]
    rintro rfl
    simp [h.zero] at hf

theorem SameButData.free (hs : SameButData fs fs' c) :
    fs'.vol.freeSectors = fs.vol.freeSectors := by
  unfold Volume.freeSectors
  rw [hs.freeMap, hs.size]

/-! ### Two runs that read directories -/

/-- The same files, and the same directories with the same entries. -/
structure Alike (σ τ : Store) : Prop where
  isSome : ∀ s, (τ s).isSome ↔ (σ s).isSome
  dir : ∀ s f, f.isDirectory = true → (τ s = some f ↔ σ s = some f)

theorem alike_update (hf : σ c = some f) (hd : f.isDirectory = false)
    (hg : g.isDirectory = false) : Alike σ (update σ c (some g)) := by
  constructor
  · intro s
    by_cases hs : s = c
    · subst hs
      simp [hf]
    · rw [update_of_ne hs]
  · intro s g' hg'
    by_cases hs : s = c
    · subst hs
      rw [update_self, hf, some.injEq, some.injEq]
      constructor
      · rintro rfl
        simp [hg] at hg'
      · rintro rfl
        simp [hd] at hg'
    · rw [update_of_ne hs]

theorem Alike.isDirectory_iff (h : Alike σ τ) :
    (treeOf τ).IsDirectory s ↔ (treeOf σ).IsDirectory s := by
  simp only [isDirectory_treeOf]
  exact exists_congr fun f => and_congr_left fun hd => h.dir s f hd

theorem Alike.wellLinked (h : Alike σ τ) (hl : WellLinked σ) : WellLinked τ where
  root := by
    obtain ⟨f, hf, hd⟩ := hl.root
    exact ⟨f, (h.dir _ f hd).mpr hf, hd⟩
  closed := fun s f hf hd k hk hu => (h.isSome _).mpr (hl.closed s f ((h.dir s f hd).mp hf) hd k hk hu)
  small := fun s f hf hd => hl.small s f ((h.dir s f hd).mp hf) hd

theorem Alike.treeOf_eq (h : Alike σ τ) : treeOf τ = treeOf σ := by
  funext s
  cases hσ : σ s with
  | none =>
    have hτ : τ s = none := by
      have := h.isSome s
      rw [hσ] at this
      simpa using this
    simp [treeOf, hσ, hτ]
  | some f =>
    cases hd : f.isDirectory with
    | true => simp only [treeOf, hσ, (h.dir s f hd).mpr hσ]
    | false =>
      obtain ⟨g, hg⟩ := isSome_iff_exists.mp ((h.isSome s).mpr (by rw [hσ]; rfl))
      have hgd : g.isDirectory = false := by
        by_contra hne
        have hg' := (h.dir s g (eq_true_of_ne_false hne)).mp hg
        cases mem_unique hσ hg'
        exact hne hd
      simp [treeOf, hσ, hg, hd, hgd]

/-- Two states with the same open inodes at the same addresses, which hold files in the same
places. -/
structure Twins (M : List ℕ) (P : ℕ → Place) (σ τ : Store) (fs fs' : FileSys) : Prop where
  left : fs.Backed M σ P
  right : fs'.Backed M τ P
  heap : fs'.heap = fs.heap
  openInodes : fs'.openInodes = fs.openInodes
  next : fs'.next = fs.next

theorem Backed.opens {S : ℕ → Prop} (h : fs.Backed M σ P) (ho : Opens S fs fs')
    (hS : ∀ s, S s → (σ s).isSome) : fs'.Backed M σ P :=
  ⟨h.toStores.opens ho hS, ho.vol ▸ h.mirrored, h.zero⟩

section
variable {p s cwd tid : ℕ} {i : Inode} {path : CString}

section
variable (h : Twins M P σ τ fs fs')
include h

theorem Twins.findOpen (s : ℕ) : fs'.findOpen s = fs.findOpen s := by
  unfold FileSys.findOpen
  rw [h.heap, h.openInodes]

theorem Twins.setInode {i' : Inode} (hp : fs.heap p = some i)
    (hs : i'.sector = i.sector) (hd : i'.data = i.data) (hc : 0 < i'.openCnt) :
    Twins M P σ τ (fs.setInode p i') (fs'.setInode p i') :=
  ⟨h.left.setInode hp hs hd hc, h.right.setInode (h.heap ▸ hp) hs hd hc, by
    simp [FileSys.setInode, h.heap], h.openInodes, h.next⟩

theorem Twins.inodeOpen (ha : Alike σ τ) (hs : (σ s).isSome) :
    ∃ p i fs1 fs₁', fs.inodeOpen s = some (p, fs1) ∧ fs'.inodeOpen s = some (p, fs₁') ∧
      Opened s fs p i fs1 ∧ Twins M P σ τ fs1 fs₁' := by
  obtain ⟨f, hf⟩ := isSome_iff_exists.mp hs
  obtain ⟨f', hf'⟩ := isSome_iff_exists.mp ((ha.isSome s).mpr hs)
  cases hopen : fs.findOpen s with
  | some p =>
    obtain ⟨-, i, hp, rfl⟩ := findOpen_eq_some hopen
    exact ⟨p, _, _, _, inodeOpen_again h.left.tidy hp,
      inodeOpen_again h.right.tidy (h.heap ▸ hp), h.left.tidy.reopen hp,
      h.setInode hp rfl rfl (Nat.succ_pos _)⟩
  | none =>
    -- both read the inode from the device
    have hopen' := (h.findOpen s).trans hopen
    obtain ⟨i, hi, hdata⟩ := map_eq_some_iff.mp (h.left.device_of_closed hf hopen)
    obtain ⟨i', hi', hdata'⟩ := map_eq_some_iff.mp (h.right.device_of_closed hf' hopen')
    obtain rfl : i = i' := by
      rw [(inodeOpen_eq_some hi).2.2, (inodeOpen_eq_some hi').2.2, hdata, hdata']
    have hopn := h.left.tidy.open_fresh hopen hi
    have hopn' := h.right.tidy.open_fresh hopen' hi'
    have hope : fs'.inodeOpen s = some (fs.next, { fs'.setInode fs'.next i with
        openInodes := fs'.next :: fs'.openInodes, next := fs'.next + 1 }) := by
      rw [← h.next]
      exact inodeOpen_fresh hopen' hi'
    refine ⟨fs.next, i, _, _, inodeOpen_fresh hopen hi, hope, hopn,
      h.left.opens hopn.opens fun t ht => ht ▸ hs,
      h.right.opens hopn'.opens fun t ht => ht ▸ (ha.isSome s).mpr hs, ?_, ?_, ?_⟩
    · simp [FileSys.setInode, h.heap, h.next]
    · simp [h.openInodes, h.next]
    · simp [h.next]

theorem Twins.inodeClose (hp : fs.heap p = some i)
    (hlast : i.openCnt = 1 → i.removed = false) : ∃ fs1 fs₁', fs.inodeClose p = some fs1 ∧
      fs'.inodeClose p = some fs₁' ∧ Twins M P σ τ fs1 fs₁' := by
  have hp' := h.heap ▸ hp
  obtain ⟨fs1, hcls, hb, -⟩ := h.left.inodeClose hp hlast
  obtain ⟨fs₁', hcls', hb', -⟩ := h.right.inodeClose hp' hlast
  suffices hsame : fs₁'.heap = fs1.heap ∧ fs₁'.openInodes = fs1.openInodes ∧ fs₁'.next = fs1.next
    from ⟨fs1, fs₁', hcls, hcls', hb, hb', hsame.1, hsame.2.1, hsame.2.2⟩
  by_cases hc : i.openCnt = 1
  · obtain ⟨f, -, hst, -⟩ := h.left.open_inode hp
    obtain ⟨f', -, hst', -⟩ := h.right.open_inode hp'
    rw [inodeClose_last h.left.tidy hp hc (hlast hc) hst.lt_size] at hcls
    rw [inodeClose_last h.right.tidy hp' hc (hlast hc) hst'.lt_size] at hcls'
    cases hcls
    cases hcls'
    simp [h.heap, h.openInodes, h.next]
  · rw [inodeClose_shared h.left.tidy hp hc] at hcls
    rw [inodeClose_shared h.right.tidy hp' hc] at hcls'
    cases hcls
    cases hcls'
    simp [FileSys.setInode, h.heap, h.openInodes, h.next]

section
variable (ha : Alike σ τ) (hl : WellLinked σ)
include ha hl

theorem Twins.lookup
    (hp : fs.heap p = some i) (hf : σ i.sector = some f) (hd : f.isDirectory = true)
    (name : CString) : fs'.lookup p name = fs.lookup p name := by
  rw [h.left.lookup hp hf (hl.small _ f hf hd),
    h.right.lookup (h.heap ▸ hp) ((ha.dir _ f hd).mpr hf) (hl.small _ f hf hd)]

/-- Both runs of `dir_lookup` come to the same inode. -/
theorem Twins.dirLookup (hp : fs.heap p = some i)
    (hdir : (treeOf σ).IsDirectory i.sector) (hfuel : path.length < fuel) (out : Option ℕ) :
    ∃ ok out' fs1 fs₁', fs.dirLookup fuel p path out = some (ok, out', fs1) ∧
      fs'.dirLookup fuel p path out = some (ok, out', fs₁') ∧
      Opens (fun s => (σ s).isSome) fs fs1 ∧ Twins M P σ τ fs1 fs₁' := by
  induction fuel generalizing fs fs' p i path out with
  | zero => omega
  | succ fuel ih =>
    obtain ⟨f, hf, hd⟩ := isDirectory_treeOf.mp hdir
    unfold dirLookup
    have hhead := @head?_dropWhile_ne _ _ slash path
    have hle := (dropWhile_sublist (· == slash) (l := path)).length_le
    generalize path.dropWhile (· == slash) = path' at *
    by_cases hnil : path' = []
    · exact ⟨true, some p, fs, fs', by rw [if_pos hnil], by rw [if_pos hnil], .refl h.left.tidy, h⟩
    have hlt : (path'.dropWhile (· != slash)).length < fuel := by
      have := length_dropWhile_lt hnil hhead
      omega
    simp only [if_neg hnil, h.lookup ha hl hp hf hd, h.left.lookup hp hf (hl.small _ f hf hd),
      bind_eq_bind]
    cases hslot : slotOf f.bytes (path'.takeWhile (· != slash)) with
    | none => exact ⟨false, out, fs, fs', rfl, rfl, .refl h.left.tidy, h⟩
    | some k =>
      -- the entry leads to an inode that both runs open
      obtain ⟨hk, ⟨hu, -⟩, -⟩ := slotOf_eq_some.mp hslot
      have hsome := hl.closed _ f hf hd k hk hu
      obtain ⟨q, j, fs1, fs₁', hopen, hopen', hopn, htwn⟩ := h.inodeOpen ha hsome
      have hope := hopn.opens.mono fun t ht => ht ▸ hsome
      have hq := htwn.heap ▸ hopn.heap
      simp only [map_some, hopen, hopen', hopn.heap, hq, bind_some]
      cases hjd : j.data.isDirectory with
      | false => exact ⟨_, _, fs1, fs₁', rfl, rfl, hope, htwn⟩
      | true =>
        obtain ⟨g, hg, hst, hdata⟩ := htwn.left.open_inode hopn.heap
        have hjdir := isDirectory_treeOf.mpr ⟨g, hg, by rw [← hst.isDirectory, hdata, hjd]⟩
        obtain ⟨ok, out', fs2, fs₂', heq, heq', hope', htwn'⟩ :=
          ih htwn hopn.heap hjdir hlt (some q)
        exact ⟨ok, out', fs2, fs₂', heq, heq', hope.trans hope', htwn'⟩

/-- Both runs of `filesys_open` return the same. -/
theorem Twins.filesysOpen (hcwd : (treeOf σ).IsDirectory cwd) (path : CString) :
    ∃ file fs1 fs₁', fs.filesysOpen cwd path = some (file, fs1) ∧
      fs'.filesysOpen cwd path = some (file, fs₁') ∧ Twins M P σ τ fs1 fs₁' := by
  by_cases hne : path = []
  · subst hne
    obtain ⟨p, i, fs1, fs₁', hopen, hopen', -, htwn⟩ :=
      h.inodeOpen ha (isSome_treeOf.mp (isSome_of_isDirectory hcwd))
    exact ⟨some p, fs1, fs₁', by
      simp [FileSys.filesysOpen, hopen], by
      simp [FileSys.filesysOpen, hopen'], htwn⟩
  obtain ⟨path', -, heq⟩ := filesysOpen_eq cwd hne
  have hsta := (h.left.shows hl).isDirectory_start hcwd path
  have hsome := isSome_treeOf.mp (isSome_of_isDirectory hsta)
  obtain ⟨dir, i, fs1, fs₁', hopen, hopen', hopn, htwn1⟩ := h.inodeOpen ha hsome
  obtain ⟨ok, out, fs2, fs₂', hlook, hlook', hope, htwn2⟩ :=
    htwn1.dirLookup ha hl hopn.heap (hopn.sector ▸ hsta) (Nat.lt_add_one path'.length) none
  -- the start directory is closed for the last time only if it has just been opened
  obtain ⟨n, hn, hp⟩ := hope.kept dir i hopn.heap
  obtain ⟨fs3, fs₃', hcls, hcls', htwn3⟩ := htwn2.inodeClose hp fun hone =>
    (hopn.fresh h.left.tidy (hn.trans_eq hone)).2.1
  exact ⟨out, fs3, fs₃', by
    simp [heq, hopen, hlook, hcls], by
    simp [heq, hopen', hlook', hcls'], htwn3⟩

end

end

/-- Related results: the same value, and twins. -/
def SameResult {α : Type} (M : List ℕ) (P : ℕ → Place) (σ τ : Store) (x y : α × FileSys) : Prop :=
  y.1 = x.1 ∧ Twins M P σ τ x.2 y.2

theorem Twins.inodeReopen (h : Twins M P σ τ fs fs') (p : ℕ) :
    Option.Rel (Twins M P σ τ) (fs.inodeReopen p) (fs'.inodeReopen p) := by
  cases hp : fs.heap p with
  | none =>
    have hp' := h.heap ▸ hp
    simp only [FileSys.inodeReopen, hp, hp']
    exact .none
  | some i =>
    exact rel_of_eq (inodeReopen_eq h.left.tidy hp) (inodeReopen_eq h.right.tidy (h.heap ▸ hp))
      (h.setInode hp rfl rfl (Nat.succ_pos _))

theorem Twins.directoryLock (h : Twins M P σ τ fs fs') (tid p : ℕ) :
    Option.Rel (Twins M P σ τ) (fs.directoryLock tid p) (fs'.directoryLock tid p) := by
  cases hp : fs.heap p with
  | none =>
    have hp' := h.heap ▸ hp
    simp only [FileSys.directoryLock, hp, hp']
    exact .none
  | some i =>
    have hp' := h.heap ▸ hp
    by_cases hlock : i.dirLock = none ∨ i.dirLock = some tid
    · exact rel_of_eq (directoryLock_eq hp hlock) (directoryLock_eq hp' hlock)
        (h.setInode hp rfl rfl (h.left.tidy.counted p i hp))
    · obtain ⟨holder, hhol⟩ := ne_none_iff_exists'.mp fun hn => hlock (.inl hn)
      have hne : holder ≠ tid := fun he => hlock (.inr (he ▸ hhol))
      simp only [FileSys.directoryLock, hp, hp', hhol, if_neg hne, bind_eq_bind, bind_some]
      exact .none

/-- The first part of `filesys_remove` ends in the same way. -/
theorem Twins.openForRemoval (h : Twins M P σ τ fs fs') (ha : Alike σ τ) (hl : WellLinked σ)
    (hcwd : (treeOf σ).IsDirectory cwd) (tid : ℕ) (path : CString) :
    Option.Rel (SameResult M P σ τ) (fs.openForRemoval tid cwd path)
      (fs'.openForRemoval tid cwd path) := by
  unfold FileSys.openForRemoval
  cases splitPathParentName path with
  | none => exact .some ⟨rfl, h⟩
  | some names =>
    obtain ⟨parentName, name⟩ := names
    obtain ⟨file, fs1, fs₁', hopen, hopen', h1⟩ := h.filesysOpen ha hl hcwd parentName
    simp only [hopen, hopen', bind_eq_bind]
    cases file with
    | none => exact .some ⟨rfl, h1⟩
    | some p =>
      obtain ⟨remFile, fs2, fs₂', hopen2, hopen2', h2⟩ := h1.filesysOpen ha hl hcwd path
      simp only [hopen2, hopen2', bind_some]
      cases remFile with
      | none => exact .some ⟨rfl, h2⟩
      | some q =>
        refine rel_bind (h2.inodeReopen p) fun fs3 fs₃' h3 =>
          rel_bind (h3.directoryLock tid p) fun fs4 fs₄' h4 => ?_
        obtain ⟨child, fs5, fs₅', hopen5, hopen5', h5⟩ := h4.filesysOpen ha hl hcwd path
        simp only [hopen5, hopen5']
        cases child with
        | none => exact .none
        | some c =>
          simp only [bind_some]
          refine rel_bind (h5.inodeReopen c) fun fs6 fs₆' h6 => ?_
          exact .some ⟨rfl, h6⟩

/-- Two states after a removal: the same open inodes, as many free sectors as before, and two stores
that agree on the files that were the same before, but for the file in `c`. -/
structure Parallel (M : List ℕ) (σ τ : Store) (c : ℕ) (fs fs' : FileSys) : Prop where
  heap : fs'.heap = fs.heap
  openInodes : fs'.openInodes = fs.openInodes
  next : fs'.next = fs.next
  free : fs'.vol.freeSectors = fs.vol.freeSectors
  files : ∃ σ' τ' P₁ P₂, fs.Backed M σ' P₁ ∧ fs'.Backed M τ' P₂ ∧
    ∀ a, (σ a).isSome → τ a = σ a → a ≠ c → (σ' a).isSome ∧ τ' a = σ' a

theorem Twins.parallel (h : Twins M P σ τ fs fs') (hs : Shifted fs0 fs) (hs' : Shifted fs₀' fs')
    (hfree : fs₀'.vol.freeSectors = fs0.vol.freeSectors) : Parallel M σ τ c fs fs' :=
  ⟨h.heap, h.openInodes, h.next, (hs'.free.trans hfree).trans hs.free.symm, σ, τ, P, P, h.left,
    h.right, fun _ hσ heq _ => ⟨hσ, heq⟩⟩

theorem isSome_unlink (hac : a ≠ c) (ha : (σ a).isSome) : (σ.unlink ps c k a).isSome := by
  unfold Store.unlink
  rw [if_neg hac]
  split_ifs with hps
  · rw [isSome_map, ← hps]
    exact ha
  · exact ha

/-- Both runs of the second part of `filesys_remove` end in the same way, if the parent is marked in
both or in neither. -/
theorem Twins.removeChild (h : Twins M P σ τ fs fs') (ha : Alike σ τ) (hl : WellLinked σ) {q : ℕ}
    {j : Inode} {name : CString} (hd : fs.Undenied) (hr : Removable σ cwd path)
    (hr' : Removable τ cwd path) (he : Entered fs (treeOf σ) tid cwd path name p q i j)
    (he' : Entered fs' (treeOf τ) tid cwd path name p q i j)
    (hfree : fs'.vol.freeSectors = fs.vol.freeSectors) (hg : σ j.sector = some g)
    (hg' : τ j.sector = some g') (hmrk : j.fileCount = 0 → 1 ≤ i.fileCount → i.removed = false →
      linksTo g'.bytes i.sector = linksTo g.bytes i.sector) :
    Option.Rel (fun x y => y.1 = x.1 ∧ Parallel M σ τ j.sector x.2 y.2)
      (fs.removeChild tid p q name) (fs'.removeChild tid p q name) := by
  have hd' : fs'.Undenied := fun a b hab => hd a b (h.heap ▸ hab)
  obtain ⟨hne, f, g0, k, hf, hfd, hg0, hslot, -, hdo, hnone⟩ := h.left.removeChild_entered hl hd hr he
  obtain ⟨-, f', g₀', k', hf', -, hg0', hslot', -, hdo', hnone'⟩ :=
    h.right.removeChild_entered (ha.wellLinked hl) hd' hr' he'
  cases mem_unique hg hg0
  cases mem_unique hg' hg0'
  have hps := (ha.dir _ f hfd).mpr hf
  cases mem_unique hps hf'
  cases mem_unique hslot hslot'
  by_cases hcou : 0 ≤ j.fileCount ∧ (j.fileCount = 0 → 1 ≤ i.fileCount)
  · obtain ⟨ok, fs1, σ1, P1, heq, hb, -, hfree1, hrev⟩ := hdo hcou.1 hcou.2
    obtain ⟨ok', fs₁', τ1, P₁', heq', hb', -, hfree1', hrev'⟩ := hdo' hcou.1 hcou.2
    refine rel_of_eq heq heq' ?_
    have hfree2 := (hfree1'.trans hfree).trans hfree1.symm
    cases hrev with
    | full hfull =>
      cases hrev' with
      | full => exact ⟨rfl, h.heap, h.openInodes, h.next, hfree2, σ, τ, P1, P₁', hb, hb',
          fun _ hσ heq _ => ⟨hσ, heq⟩⟩
      | removed hemp => exact absurd hemp hfull
    | removed hemp hfull =>
      cases hrev' with
      | full hfull => exact absurd hemp hfull
      | removed =>
        have hlnk : (i.removed || linksTo g'.bytes i.sector) =
            (i.removed || linksTo g.bytes i.sector) := by
          cases hi : i.removed with
          | true => rfl
          | false => rw [hmrk hemp hfull hi]
        refine ⟨rfl, ?_, h.openInodes, h.next, hfree2, _, _, P1, P₁', hb, hb',
          fun a hσ heq hac => ⟨isSome_unlink hac hσ, by
            simp [Store.unlink, if_neg hac, hps.trans hf.symm, heq]⟩⟩
        simp only [pair, h.heap, hlnk]
  · have hfail : fs.removeChild tid p q name = none := by
      by_contra hsome
      exact hcou (hnone hsome)
    have hfail' : fs'.removeChild tid p q name = none := by
      by_contra hsome
      exact hcou (hnone' hsome)
    rw [hfail, hfail']
    exact .none

/-- `filesys_remove` gets as far as the links of the file `c`: its parent can be locked and is counted
to have files, and the file to have none. -/
structure GetsToLinks (fs : FileSys) (tid ps c : ℕ) : Prop where
  lock : fs.CanLock tid ps
  full : ∃ p i, fs.heap p = some i ∧ i.sector = ps ∧ 1 ≤ i.fileCount
  empty : ∀ q j, fs.heap q = some j → j.sector = c → j.fileCount = 0

/-- The counters of parent and child are those from before. -/
theorem Entered.getsToLinks {q : ℕ} {j : Inode} {name : CString}
    (he : Entered fs' t tid cwd path name p q i j)
    (hs : Shifted fs fs') (ht : fs'.Tidy) (hcan : fs.CanLock tid i.sector) (hemp : j.fileCount = 0)
    (hfull : 1 ≤ i.fileCount) : fs.GetsToLinks tid i.sector j.sector := by
  refine ⟨hcan, ?_, fun x y hx hxs => ?_⟩
  · cases hp : fs.heap p with
    | none =>
      have := (hs.new p i he.parent hp).2.1
      omega
    | some i0 =>
      obtain ⟨n, lock, -, hp'⟩ := hs.kept p i0 hp
      cases mem_unique he.parent hp'
      exact ⟨p, i0, hp, rfl, hfull⟩
  · obtain ⟨n, lock, -, hx'⟩ := hs.kept x y hx
    cases ht.distinct x q _ _ hx' he.child hxs
    rw [← hemp, mem_unique he.child hx']

variable (tid) in
/-- Both runs of `filesys_remove` end in the same way, if the parent is marked in both or in
neither. -/
theorem Twins.filesysRemove (h : Twins M P σ τ fs fs') (ha : Alike σ τ) (hl : WellLinked σ)
    (hcwd : (treeOf σ).IsDirectory cwd) (hroot : fs.Rooted path)
    (hd : fs.Undenied) (hr : Removable σ cwd path) (hr' : Removable τ cwd path)
    (hfree : fs'.vol.freeSectors = fs.vol.freeSectors)
    (htrg : (treeOf σ).opened cwd path = some c) (hg : σ c = some g) (hg' : τ c = some g')
    (hmrk : ∀ parentName name ps, splitPathParentName path = some (parentName, name) →
      (treeOf σ).opened cwd parentName = some ps → fs.GetsToLinks tid ps c → fs.Unremoved ps →
      linksTo g'.bytes ps = linksTo g.bytes ps) :
    Option.Rel (fun x y => y.1 = x.1 ∧ Parallel M σ τ c x.2 y.2)
      (fs.filesysRemove tid cwd path) (fs'.filesysRemove tid cwd path) := by
  have hroot' : fs'.Rooted path := fun hhead => (h.findOpen _).symm ▸ hroot hhead
  have hcwd' := ha.isDirectory_iff.mpr hcwd
  refine rel_bind_eq (h.openForRemoval ha hl hcwd tid path) ?_
  rintro ⟨r, fs1⟩ ⟨r', fs₁'⟩ ⟨hsame, htwn⟩ hx hy
  cases hsame
  obtain ⟨hb, hshf, hcase⟩ := h.left.openForRemoval_eq_some hl hcwd hroot hx
  obtain ⟨-, hshf', hcase'⟩ :=
    h.right.openForRemoval_eq_some (ha.wellLinked hl) hcwd' hroot' hy
  rcases hcase with ⟨rfl, -⟩ | ⟨p, q, name, i, j, rfl, -, hcan, he⟩
  · exact .some ⟨rfl, htwn.parallel hshf hshf' hfree⟩
  rcases hcase' with ⟨hnone, -⟩ | ⟨p', q', name', i', j', hsome, -, -, he'⟩
  · cases hnone
  -- the same parent and child, at the same addresses
  obtain ⟨rfl, rfl, rfl⟩ := hsome
  cases he.parent.symm.trans (htwn.heap ▸ he'.parent)
  cases he.child.symm.trans (htwn.heap ▸ he'.child)
  cases mem_unique htrg he.target
  refine htwn.removeChild ha hl (hshf.undenied hd) hr hr' he he'
    ((hshf'.free.trans hfree).trans hshf.free.symm) hg hg' fun hemp hfull hunm => ?_
  obtain ⟨parentName, hspl, hprn⟩ := he.split
  exact hmrk parentName name i.sector hspl hprn
    (he.getsToLinks hshf hb.tidy hcan hemp hfull) ((hshf.unremoved_iff hb.tidy he.parent).mpr hunm)

end

end FileSys

namespace Session

variable {s : Session} {M : List ℕ} {σ τ : Store} {P : ℕ → Place} {fs fs' : FileSys}
  {tid cwd c : ℕ} {path : CString} {f : FileImage}

/-- The other state is in order too, with other bytes for the file. -/
theorem Settled.sameButData (h : s.Settled M σ P) (hf : σ c = some f) (hd : f.isDirectory = false)
    (hs : SameButData s.fs fs' c) : ∃ bytes : List UInt8,
      Alike σ (update σ c (some { f with bytes := bytes })) ∧
      Settled { s with fs := fs' } M (update σ c (some { f with bytes := bytes })) P := by
  have halk : ∀ bytes, Alike σ (update σ c (some { f with bytes := bytes })) :=
    fun _ => alike_update hf hd hd
  exact ⟨_, halk _, h.backed.sameButData hf hs, (halk _).wellLinked h.linked, h.map,
    fun p i hp => h.undenied p i (hs.heap ▸ hp),
    fun t d ht => (halk _).isDirectory_iff.mpr (h.cwds t d ht)⟩

theorem HasFile.update {g g' : FileImage} (h : HasFile σ c g) (hg : g.isDirectory = false)
    (hg' : g'.isDirectory = false) (hsml : g'.bytes.length < MAX_LENGTH)
    (hhome : LinksHome g'.bytes ROOT_DIR_SECTOR c) :
    HasFile (update σ c (some g')) c g' := by
  have htree := (alike_update h.file hg hg').treeOf_eq
  exact ⟨update_self .., htree ▸ h.child, htree ▸ h.opened, h.ne_root, hsml, hhome⟩

end Session

end Pintos
