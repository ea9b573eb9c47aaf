import Pintos.Filesys.Store

/-! # Directories in the store

* **Entries.**  `dir_add` changes the bytes of one directory in the store (`Stores.dirAdd`).
* **Tree.**  A store whose directories only lead to stored files (`WellLinked`) is a directory tree
  (`treeOf`), and a file system with this store shows it.
* **Formatting.**  `filesys_init (true)` makes a store with the root directory alone.

The last section settles for which paths `filesys_open` returns what they resolve to. -/

namespace Pintos
open Bytes Walks Function Option Volume List DirEntry

theorem sectorsFor_le (h : m ≤ n) : sectorsFor m ≤ sectorsFor n := by
  have hd : dataSectors m ≤ dataSectors n :=
    Nat.succ_le_succ (Nat.div_le_div_right (Nat.sub_le_sub_right h 1))
  have ht : tablesFor (dataSectors m) ≤ tablesFor (dataSectors n) :=
    Nat.succ_le_succ (Nat.div_le_div_right (Nat.sub_le_sub_right hd 1))
  exact Nat.add_le_add hd ht

namespace FileSys

variable {fs fs' : FileSys} {M : List ℕ} {σ : Store} {P : ℕ → Place} {p s sector : ℕ} {i : Inode}
  {f : FileImage} {name : CString}

/-! ### Entries -/

section
variable (h : fs.Stores M σ P) (hp : fs.heap p = some i) (hf : σ i.sector = some f)
include h hp hf

theorem Stores.lookup (hmax : f.bytes.length < MAX_LENGTH) (name : CString) :
    fs.lookup p name = some ((slotOf f.bytes name).map
      fun k => (entryAt f.bytes k, SIZE * k)) := by
  obtain ⟨hfile, hlen, -⟩ := h.open_file hp hf
  exact lookup_eq hp hfile.holds hlen hmax

/-- `dir_add` writes to the first free slot, unless the name is not valid or in use. -/
theorem Stores.dirAdd_eq (hmax : f.bytes.length < MAX_LENGTH) (name : CString) (sector : ℕ) :
    fs.dirAdd p name sector =
      if (name = [] ∨ name.length > NAME_MAX) ∨ (slotOf f.bytes name).isSome then some (false, fs)
      else (fs.inodeWriteAt p (bytes ⟨sector, name, true⟩)
        (SIZE * freeSlot f.bytes)).bind fun (n, fs') => some (n = SIZE, fs') := by
  obtain ⟨hfile, hlen, -⟩ := h.open_file hp hf
  have hloop := slotLoop_eq hfile.holds hlen hmax (Nat.zero_le _) (Nat.lt_add_one _)
  rw [Nat.mul_zero, Nat.sub_zero, show freeSlotFrom f.bytes _ 0 = freeSlot f.bytes from rfl,
    slots, ← hlen] at hloop
  unfold FileSys.dirAdd
  by_cases hbad : name = [] ∨ name.length > NAME_MAX
  · rw [if_pos hbad, if_pos (.inl hbad)]
  · rw [if_neg hbad, h.lookup hp hf hmax]
    cases slotOf f.bytes name with
    | some => simp
    | none =>
      rw [if_neg (by simpa using hbad)]
      simp [hp, hloop]

/-- `dir_add` of a name that is not in use, with enough space. -/
theorem Stores.dirAdd (hdeny : i.denyWriteCnt = 0) (hname : ValidName name)
    (hnew : slotOf f.bytes name = none) (hmax : f.bytes.length + SIZE ≤ MAX_LENGTH)
    (hspc : sectorsFor (f.bytes.length + SIZE) - sectorsFor f.bytes.length ≤
      fs.vol.freeSectors.length) :
    ∃ v P', fs.dirAdd p name sector = some (true, { fs.setInode p { i with data :=
        { i.data with length := (addEntry f.bytes name sector).length } } with vol := v }) ∧
      Stores { fs.setInode p { i with data :=
        { i.data with length := (addEntry f.bytes name sector).length } } with vol := v } M
        (Function.update σ i.sector (some { f with bytes := addEntry f.bytes name sector })) P' ∧
      (freeSlot f.bytes < slots f.bytes → v.freeSectors = fs.vol.freeSectors) := by
  have hend := freeSlot_end f.bytes
  have hbyt := length_bytes ⟨sector, name, true⟩
  have hsize := SIZE_eq
  obtain ⟨v, P', hw, hs, hfree, -⟩ := @Stores.inodeWriteAt fs M σ P p i f h hp hf
    (bytes ⟨sector, name, true⟩) (SIZE * freeSlot f.bytes) hdeny (by omega) (by
      have hmono := sectorsFor_le (show max f.bytes.length (SIZE * freeSlot f.bytes +
        (bytes ⟨sector, name, true⟩).length) ≤ f.bytes.length + SIZE by omega)
      omega)
  rw [length_addEntry]
  rw [hbyt] at hw hs
  refine ⟨v, P', ?_, hs, fun hlt => hfree ?_⟩
  · rw [h.dirAdd_eq hp hf (by omega), if_neg, hw]
    · simp
    · rw [hnew]
      rintro ((h0 | h0) | h0)
      · exact hname.1 h0
      · exact absurd hname.2.1 (by omega)
      · cases h0
  · unfold slots at hlt
    rw [SIZE_eq] at hlt ⊢
    omega

theorem Stores.mirrored_dirAdd (hmax : f.bytes.length < MAX_LENGTH) (hm : fs.vol.Mirrored M)
    (ha : fs.dirAdd p name sector = some (ok, fs')) : fs'.vol.Mirrored M := by
  rw [h.dirAdd_eq hp hf hmax] at ha
  split_ifs at ha with hbad
  · rwa [← (Prod.mk.inj (some.inj ha)).2]
  obtain ⟨⟨n, fs1⟩, hw, ha⟩ := bind_eq_some_iff.mp ha
  obtain ⟨-, rfl⟩ := ha
  have hend := freeSlot_end f.bytes
  rw [MAX_LENGTH_eq] at hmax
  exact h.mirrored_inodeWriteAt hp hm (by omega) hw

end

/-! ### Trees -/

end FileSys

/-- The directory tree that a store is. -/
def treeOf (σ : Store) : Tree := fun s => (σ s).map fun f =>
  if f.isDirectory then .dir (entriesOf f.bytes) else .file

/-- Every entry of a directory leads to a file, and there is a root. -/
structure WellLinked (σ : Store) : Prop where
  root : ∃ f, σ ROOT_DIR_SECTOR = some f ∧ f.isDirectory = true
  closed : ∀ s f, σ s = some f → f.isDirectory = true → ∀ k < slots f.bytes,
    (entryAt f.bytes k).inUse = true → (σ (entryAt f.bytes k).inodeSector).isSome
  small : ∀ s f, σ s = some f → f.isDirectory = true → f.bytes.length < MAX_LENGTH

section
variable {σ : Store} {s : ℕ} {f : FileImage} {name : CString}

theorem treeOf_dir (hf : σ s = some f) (hd : f.isDirectory = true) :
    treeOf σ s = some (.dir (entriesOf f.bytes)) := by
  simp [treeOf, hf, hd]

theorem child_treeOf (hf : σ s = some f) (hd : f.isDirectory = true) :
    (treeOf σ).child s name = entriesOf f.bytes name := by
  simp [Tree.child, treeOf_dir hf hd]

theorem isSome_treeOf : (treeOf σ s).isSome ↔ (σ s).isSome := by
  simp [treeOf]

theorem isDirectory_treeOf : (treeOf σ).IsDirectory s ↔
    ∃ f, σ s = some f ∧ f.isDirectory = true := by
  constructor
  · rintro ⟨entries, he⟩
    obtain ⟨f, hf, he⟩ := map_eq_some_iff.mp he
    refine ⟨f, hf, ?_⟩
    by_contra hd
    simp [if_neg hd] at he
  · rintro ⟨f, hf, hd⟩
    exact ⟨_, treeOf_dir hf hd⟩

theorem isDirectory_of_child {t : Tree} (h : t.child s name = some s') : t.IsDirectory s := by
  unfold Tree.child at h
  split at h
  · exact ⟨_, by assumption⟩
  · cases h

theorem WellLinked.isSome_child (hl : WellLinked σ)
    (hs : (treeOf σ).child s name = some s') : (σ s').isSome := by
  obtain ⟨f, hf, hd⟩ := isDirectory_treeOf.mp (isDirectory_of_child hs)
  rw [child_treeOf hf hd] at hs
  obtain ⟨k, hk, rfl⟩ := map_eq_some_iff.mp hs
  obtain ⟨hlt, hmtc, -⟩ := slotOf_eq_some.mp hk
  exact hl.closed s f hf hd k hlt hmtc.1

end

namespace FileSys

variable {fs fs' : FileSys} {M : List ℕ} {σ : Store} {P : ℕ → Place}

theorem Stores.shows (h : fs.Stores M σ P) (hl : WellLinked σ) : fs.Shows (treeOf σ) where
  tidy := h.tidy
  node := fun s n hn => by
    unfold treeOf at hn
    obtain ⟨f, hf, rfl⟩ := map_eq_some_iff.mp hn
    have hst := h.stored s f hf
    refine ⟨_, hst.inode, ?_⟩
    have hdir := hst.isDirectory
    split_ifs with hd
    · exact ⟨hdir.trans hd, _, _, hst.fileOf.holds, hst.length, hl.small s f hf hd, rfl⟩
    · exact hdir.trans (by simpa using hd)
  closed := fun _ _ _ hs => isSome_treeOf.mpr (hl.isSome_child hs)
  root := isDirectory_treeOf.mpr hl.root

end FileSys

/-! ### Formatting -/

theorem validName_parentLink : ValidName parentLink := by decide
theorem validName_childLink : ValidName childLink := by decide

/-- The bytes of a directory whose `.` and `..` entries are the first to be written. -/
def linkBytes (length sector parentSector : ℕ) : List UInt8 :=
  addEntry (addEntry (List.replicate length 0) parentLink parentSector) childLink sector

section
variable {length sector parentSector : ℕ}

theorem slotOf_replicate (n : ℕ) (name : CString) : slotOf (replicate n 0) name = none :=
  slotOf_eq_none.mpr fun k _ h => by
    rw [inUse_entryAt_replicate] at h
    cases h.1

theorem slotOf_childLink (h : parentSector < 2 ^ 32) :
    slotOf (addEntry (replicate length 0) parentLink parentSector) childLink = none := by
  rw [← entriesOf_eq_none, entriesOf_addEntry h validName_parentLink (slotOf_replicate _ _),
    update_of_ne (by decide), entriesOf_eq_none]
  exact slotOf_replicate _ _

theorem entriesOf_linkBytes (hs : sector < 2 ^ 32) (hp : parentSector < 2 ^ 32) :
    entriesOf (linkBytes length sector parentSector) =
      update (update (fun _ => none) parentLink (some parentSector)) childLink
        (some sector) := by
  have hnone : entriesOf (replicate length 0) = fun _ => none := by
    funext name
    exact entriesOf_eq_none.mpr (slotOf_replicate _ _)
  rw [linkBytes, entriesOf_addEntry hs validName_childLink (slotOf_childLink hp),
    entriesOf_addEntry hp validName_parentLink (slotOf_replicate _ _), hnone]

theorem inUse_linkBytes (hs : sector < 2 ^ 32) (hp : parentSector < 2 ^ 32)
    (hk : k < slots (linkBytes length sector parentSector))
    (hu : (entryAt (linkBytes length sector parentSector) k).inUse = true) :
    (entryAt (linkBytes length sector parentSector) k).inodeSector = sector ∨
      (entryAt (linkBytes length sector parentSector) k).inodeSector = parentSector := by
  unfold linkBytes at *
  rcases entryAt_addEntry_cases hs validName_childLink hk with he | ⟨hk', he⟩
  · exact .inl (by rw [he])
  · rw [he] at hu ⊢
    rcases entryAt_addEntry_cases hp validName_parentLink hk' with he' | ⟨-, he'⟩
    · exact .inr (by rw [he'])
    · simp [he', inUse_entryAt_replicate] at hu

end

theorem length_linkBytes_le (length sector parentSector : ℕ) :
    (linkBytes length sector parentSector).length ≤ length + 2 * SIZE := by
  have h1 := length_addEntry_le (replicate length 0) parentLink parentSector
  have h2 := length_addEntry_le (addEntry (replicate length 0) parentLink parentSector)
    childLink sector
  rw [length_replicate] at h1
  unfold linkBytes
  omega


namespace FileSys

variable {fs : FileSys} {M : List ℕ} {σ : Store} {P : ℕ → Place} {p length parentSector : ℕ}
  {i : Inode}

/-- The two calls of `dir_add` on a new directory. -/
theorem Stores.addLinks (h : fs.Stores M σ P) (hp : fs.heap p = some i)
    (hf : σ i.sector = some ⟨true, replicate length 0⟩) (hdeny : i.denyWriteCnt = 0)
    (hmax : length + 2 * SIZE ≤ MAX_LENGTH)
    (hspc : sectorsFor (length + 2 * SIZE) ≤ sectorsFor length)
    (hprn : parentSector < 2 ^ 32) :
    ∃ fs1 fs' P' data, fs.dirAdd p parentLink parentSector = some (true, fs1) ∧
      fs1.dirAdd p childLink i.sector = some (true, fs') ∧
      fs'.Stores M (Function.update σ i.sector
        (some ⟨true, linkBytes length i.sector parentSector⟩)) P' ∧
      fs'.heap = Function.update fs.heap p (some { i with data }) ∧
      (2 * SIZE ≤ length → fs'.vol.freeSectors = fs.vol.freeSectors) ∧
      (fs.vol.Mirrored M → fs'.vol.Mirrored M) := by
  have hsize := SIZE_eq
  have hzero : (replicate length (0 : UInt8)).length = length := length_replicate
  obtain ⟨v1, P1, hadd1, hs1, hfree1⟩ := @Stores.dirAdd fs M σ P p parentSector i _ parentLink h hp
    hf hdeny validName_parentLink (slotOf_replicate _ _) (by rw [hzero]; omega) (by
      have hmono := sectorsFor_le (show length + SIZE ≤ length + 2 * SIZE by omega)
      rw [hzero]
      omega)
  have hlen := length_addEntry_le (replicate length 0) parentLink parentSector
  have hge : length ≤ (addEntry (replicate length 0) parentLink parentSector).length := by
    rw [length_addEntry, hzero]
    exact le_max_left _ _
  obtain ⟨v2, P2, hadd2, hs2, hfree2⟩ := @Stores.dirAdd _ M _ P1 p i.sector { i with data :=
      { i.data with length := (addEntry (replicate length 0) parentLink parentSector).length } }
    _ childLink hs1 (update_self ..) (update_self ..) hdeny
    validName_childLink (slotOf_childLink hprn) (by dsimp only; omega) (by
      have hmono := sectorsFor_le (show (addEntry (replicate length 0) parentLink
        parentSector).length + SIZE ≤ length + 2 * SIZE by omega)
      have hmono' := sectorsFor_le hge
      dsimp only
      omega)
  refine ⟨_, _, P2, { i.data with length := (linkBytes length i.sector parentSector).length },
    hadd1, hadd2, ?_, ?_, fun hlong => ?_, fun hm => ?_⟩
  · rw [update_idem] at hs2
    exact hs2
  · exact update_idem _ _ _
  · have hslo : 2 ≤ slots (replicate length 0) := by
      unfold slots
      rw [SIZE_eq]
      omega
    have hfir : freeSlot (replicate length 0) = 0 :=
      Nat.le_zero.mp (freeSlotFrom_le le_rfl (by omega) (inUse_entryAt_replicate _ _))
    have hseo : freeSlot (addEntry (replicate length 0) parentLink parentSector) <
        slots (addEntry (replicate length 0) parentLink parentSector) := by
      rw [slots_addEntry]
      refine lt_of_le_of_lt (freeSlotFrom_le (Nat.zero_le 1) ?_ ?_)
        (lt_of_lt_of_le (by decide) (hslo.trans (le_max_left _ _)))
      · rw [slots_addEntry]
        omega
      · rw [entryAt_addEntry hprn validName_parentLink, hfir]
        exact inUse_entryAt_replicate _ _
    exact (hfree2 hseo).trans (hfree1 (by dsimp only; omega))
  · refine hs1.mirrored_dirAdd (update_self ..) (update_self ..) ?_
      (h.mirrored_dirAdd hp hf (by dsimp only; omega) hm hadd1) hadd2
    dsimp only
    omega

end FileSys

/-- A root directory, of `length` bytes when it was created, and no other file. -/
def rootStore (length : ℕ) : Store := update (fun _ => none) ROOT_DIR_SECTOR
  (some ⟨true, linkBytes length ROOT_DIR_SECTOR ROOT_DIR_SECTOR⟩)

theorem rootStore_eq_some {length s : ℕ} (h : rootStore length s = some f) :
    s = ROOT_DIR_SECTOR ∧ f = ⟨true, linkBytes length ROOT_DIR_SECTOR ROOT_DIR_SECTOR⟩ := by
  unfold rootStore at h
  rw [update_apply] at h
  split_ifs at h with hs
  exact ⟨hs, (some.inj h).symm⟩

theorem wellLinked_rootStore {length : ℕ} (hlen : length + 2 * SIZE < MAX_LENGTH) :
    WellLinked (rootStore length) where
  root := ⟨_, update_self .., rfl⟩
  closed := fun s f hf _ k hk hu => by
    obtain ⟨-, rfl⟩ := rootStore_eq_some hf
    have hsct := or_self_iff.mp (inUse_linkBytes (by decide) (by decide) hk hu)
    simp [hsct, rootStore]
  small := fun s f hf _ => by
    obtain ⟨-, rfl⟩ := rootStore_eq_some hf
    exact lt_of_le_of_lt (length_linkBytes_le _ _ _) hlen

namespace FileSys

/-- A device is formatted if it has room for the free map file and the root directory. -/
theorem stores_format {d : Disk} (hroot : ROOT_DIR_SECTOR < d.size) (hsize : d.size ≤ 2 ^ 26)
    (hspc : sectorsToCreate (byteCnt d.size) +
      sectorsToCreate (MAX_FILES_PER_DIR * SIZE) ≤
        (freeMapInit d).freeSectors.length) :
    ∃ fs M P data, format d = some fs ∧
      fs.Stores M (rootStore (MAX_FILES_PER_DIR * SIZE)) P ∧
      fs.heap = update (fun _ => none) 0
        (some ⟨ROOT_DIR_SECTOR, 1, false, 0, data, 0, none⟩) ∧ M ≠ [] ∧
      fs.vol.freeSectors.length + sectorsToCreate (byteCnt d.size) +
        sectorsToCreate (MAX_FILES_PER_DIR * SIZE) =
          (freeMapInit d).freeSectors.length ∧ fs.vol.Mirrored M := by
  have hmax : MAX_FILES_PER_DIR * SIZE + 2 * SIZE ≤ MAX_LENGTH := by decide
  have hlnk : sectorsFor (MAX_FILES_PER_DIR * SIZE + 2 * SIZE) ≤
    sectorsFor (MAX_FILES_PER_DIR * SIZE) := by decide
  have hlong : 2 * SIZE ≤ MAX_FILES_PER_DIR * SIZE := by decide
  unfold format
  generalize MAX_FILES_PER_DIR * SIZE = length at *
  obtain ⟨v, M, hmap, hsnd, hsome, hsz, hrtm, hmrk, hcou, hmr⟩ :=
    sound_freeMapCreate (by omega) hsize (by omega)
  have h0 : Stores ⟨v, fun _ => none, [], 0⟩ M (fun _ => none)
      fun _ => ⟨⟨0, false, 0, INODE_MAGIC⟩, ⟨[], []⟩⟩ := {
    tidy := ⟨nodup_nil, by simp, by simp, by simp, by simp, by simp, by simp⟩
    sound := hsnd
    known := by simp
    stored := by simp
    inodes_apart := by simp
    files_apart := by simp }
  obtain ⟨v1, P1, hcrt, h1, hcou1⟩ := @Stores.inodeCreate _ M _ _ h0 ROOT_DIR_SECTOR length
    ⟨hmrk, hsz.symm ▸ hroot, hrtm, rfl, by simp⟩ true (by omega)
    (show _ ≤ v.freeSectors.length by omega)
  -- the root directory is read in as the inode at address 0
  have hroot1 := h1.stored ROOT_DIR_SECTOR _ (update_self ..)
  obtain ⟨i, hi, -⟩ := map_eq_some_iff.mp
    (show (v1.inodeOpen ROOT_DIR_SECTOR).map Inode.data = _ from hroot1.inode)
  obtain ⟨-, -, hnew⟩ := inodeOpen_eq_some hi
  have hopn := h1.tidy.open_fresh rfl hi
  have h2 := h1.opens hopn.opens fun s hs => by
    rw [hs]
    rfl
  obtain ⟨fs3, fs4, P4, data, hadd3, hadd4, h4, hheap4, hfree4, hmr4⟩ := @Stores.addLinks _ M _
    P1 _ length ROOT_DIR_SECTOR i h2 hopn.heap (by rw [hopn.sector, update_self])
    (by rw [hnew]) hmax hlnk (by decide)
  rw [hopn.sector] at hadd4 h4
  refine ⟨fs4, M, P4, data, ?_, ?_, ?_, hsnd.isSome_iff.mp hsome, ?_, hmr4 ?_⟩
  · have hopen := @inodeOpen_fresh ⟨v1, fun _ => none, [], 0⟩ ROOT_DIR_SECTOR i rfl hi
    simp [hmap, hcrt, hopen, hadd3, hadd4]
  · rw [update_idem] at h4
    exact h4
  · rw [hheap4, hnew]
    exact update_idem _ _ _
  · rw [hfree4 hlong]
    show v1.freeSectors.length + _ + _ = _
    have : v1.freeSectors.length + _ = v.freeSectors.length := hcou1
    omega
  · exact hsnd.mirrored_inodeCreate hmr ⟨by decide, hrtm⟩
      (by rw [MAX_LENGTH_eq] at hmax; omega) hcrt

theorem exists_formatted : ∃ fs M P data, format ⟨64, fun _ _ => 0⟩ = some fs ∧
    fs.Stores M (rootStore (MAX_FILES_PER_DIR * SIZE)) P ∧
    fs.heap = update (fun _ => none) 0
      (some ⟨ROOT_DIR_SECTOR, 1, false, 0, data, 0, none⟩) ∧ 40 ≤ fs.vol.freeSectors.length := by
  obtain ⟨fs, M, P, data, hfrm, hsto, hheap, -, hcou, -⟩ :=
    @stores_format ⟨64, fun _ _ => 0⟩ (by decide) (by decide) (by decide)
  refine ⟨fs, M, P, data, hfrm, hsto, hheap, ?_⟩
  have hfree : (freeMapInit ⟨64, fun _ _ => 0⟩).freeSectors.length = 62 := by decide
  have hmap : sectorsToCreate (byteCnt 64) = 3 := by decide
  have hroot : sectorsToCreate (MAX_FILES_PER_DIR * SIZE) = 8 := by decide
  change _ + sectorsToCreate (byteCnt 64) + 8 = 62 at hcou
  omega

/-! ### Which paths are opened as they resolve -/

/-- `filesys_open` returns what the path resolves to exactly if the walk does not get stuck behind
its first component. -/
theorem Shows.opensResolved_iff {fs : FileSys} {t : Tree} {cwd : ℕ} {path : CString}
    (h : fs.Shows t) (hcwd : t.IsDirectory cwd) :
    fs.OpensResolved t cwd path ↔ fs.ResolvesOrFailsAtOnce t cwd path := by
  by_cases hne : path = []
  · subst hne
    obtain ⟨p, i, fs', hopen, hopn, -⟩ := h.inodeOpen (isSome_of_isDirectory hcwd)
    refine iff_of_true ⟨some p, fs', ?_, p, i, rfl, hopn.heap, hopn.sector⟩ (.inl rfl)
    simp only [FileSys.filesysOpen, hopen, bind_eq_bind, bind_some]
  obtain ⟨file, fs', heq, hres⟩ := h.filesysOpen hcwd hne
  unfold OpensResolved ResolvesOrFailsAtOnce
  simp only [heq, Tree.resolve]
  cases hcs : components slash path with
  | nil =>
    have hroot : Tree.start cwd path = ROOT_DIR_SECTOR := by
      unfold Tree.start
      rw [if_pos]
      by_contra hhead
      rw [components_takeWhile hne hhead] at hcs
      exact absurd hcs (by simp)
    rw [hcs, hroot] at hres
    obtain ⟨p, rfl, hres⟩ := hres
    rw [hroot]
    cases hf : fs.findOpen ROOT_DIR_SECTOR with
    | none =>
      rw [hf] at hres
      simp [walk, hne, hres]
    | some q =>
      rw [hf] at hres
      obtain ⟨i, hi, hs⟩ := hres
      simp [walk, hi, hs]
  | cons c cs =>
    rw [hcs] at hres
    simp only at hres
    cases hc : t.child (Tree.start cwd path) c with
    | none =>
      rw [hc] at hres
      simp [walk, hc, hres]
    | some s =>
      rw [hc] at hres
      obtain ⟨p, i, rfl, hi, hs⟩ := hres
      cases hw : walk t.child s cs with
      | none => simp [walk, hc, hw]
      | some s' =>
        have hlast := lastReached_of_walk hw
        simp [walk, hc, hw, hi, hs, hlast]

theorem child_rootStore (length : ℕ) (name : CString) :
    (treeOf (rootStore length)).child ROOT_DIR_SECTOR name =
      if name = childLink ∨ name = parentLink then some ROOT_DIR_SECTOR else none := by
  have hroot : rootStore length ROOT_DIR_SECTOR = some _ := update_self ..
  rw [child_treeOf hroot rfl,
    entriesOf_linkBytes (by decide) (by decide)]
  simp only [update_apply]
  split_ifs <;> simp_all

/-- On a formatted volume `"/."` is the root directory. -/
theorem opensResolved_iff_dot : ∃ fs, format ⟨64, fun _ _ => 0⟩ = some fs ∧
    fs.OpensResolved (treeOf (rootStore (MAX_FILES_PER_DIR * DirEntry.SIZE))) ROOT_DIR_SECTOR
      [slash, 46] := by
  obtain ⟨fs, M, P, data, hfrm, hsto, -⟩ := exists_formatted
  have hshw := hsto.shows (wellLinked_rootStore (by decide))
  refine ⟨fs, hfrm, (hshw.opensResolved_iff hshw.root).mpr ?_⟩
  have hcomp : components slash [slash, 46] = [childLink] := by decide
  simp only [ResolvesOrFailsAtOnce, Tree.resolve, hcomp, walk, Tree.start]
  simp [child_rootStore _]

/-- On a formatted volume, which has no file `"/./x"`, opening this path returns the root
directory. -/
theorem prefix_opened : ∃ fs fs' p i, format ⟨64, fun _ _ => 0⟩ = some fs ∧
    fs.Shows (treeOf (rootStore (MAX_FILES_PER_DIR * DirEntry.SIZE))) ∧
    (treeOf (rootStore (MAX_FILES_PER_DIR * DirEntry.SIZE))).resolve ROOT_DIR_SECTOR
      [slash, 46, slash, 120] = none ∧
    fs.filesysOpen ROOT_DIR_SECTOR [slash, 46, slash, 120] = some (some p, fs') ∧
    fs'.heap p = some i ∧ i.sector = ROOT_DIR_SECTOR := by
  obtain ⟨fs, M, P, data, hfrm, hsto, -⟩ := exists_formatted
  have hshw := hsto.shows (wellLinked_rootStore (by decide))
  have hcomp : components slash [slash, 46, slash, 120] = [childLink, [120]] := by decide
  have hsta : Tree.start ROOT_DIR_SECTOR [slash, 46, slash, 120] = ROOT_DIR_SECTOR := by decide
  have hdot := child_rootStore (MAX_FILES_PER_DIR * SIZE) childLink
  have hx := child_rootStore (MAX_FILES_PER_DIR * SIZE) [120]
  rw [if_neg (by decide)] at hx
  generalize treeOf (rootStore (MAX_FILES_PER_DIR * SIZE)) = t at hshw hdot hx
  obtain ⟨file, fs', hopen, hres⟩ := hshw.filesysOpen hshw.root
    (show [slash, 46, slash, 120] ≠ [] by simp)
  rw [hcomp, hsta] at hres
  dsimp only at hres
  rw [hdot] at hres
  obtain ⟨p, i, rfl, hp, hs⟩ := hres
  have hlast : lastReached t.child ROOT_DIR_SECTOR [[120]] = ROOT_DIR_SECTOR := by
    rw [lastReached, hx]
  have hwalk : walk t.child ROOT_DIR_SECTOR [[120]] = none := by
    rw [walk, hx]
  refine ⟨fs, fs', p, i, hfrm, hshw, ?_, hopen, hp, hs.trans hlast⟩
  rw [Tree.resolve, hcomp, hsta, walk, hdot]
  exact hwalk

end FileSys

end Pintos
