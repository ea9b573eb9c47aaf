import Pintos.Filesys.DirectoryMap
import Pintos.Filesys.MaxLength
import Pintos.Filesys.Removal

/-! # Calls that may fail

`Creation` says what `filesys_open` and `filesys_create` do when everything is in order: the path
resolves, the name is new, and there is enough space.  Here they are called with any path and any
number of free sectors.  Whatever they return, the file system stays well linked.

* **What is lost.**  A failed `inode_create` keeps the sector of the first data block, and a failed
  `dir_add` in `filesys_create` all sectors of the new file but the one of its inode.  They stay
  marked and belong to no file.
* **What is left open.**  `filesys_create` never closes the parent directory that it has opened, and
  if the name exists it leaves the directory locked. -/

namespace Pintos
open Bytes Walks Disk Function Option List FileSys DirEntry

/-! ### Failed allocations -/

namespace Volume

variable {v v' : Volume} {M : List ℕ} {sector length : ℕ}

/-- A call of `inode_create` that returns false.  With three free sectors, one of them is lost. -/
theorem Sound.inodeCreate_false (hv : v.Sound M) (hM : sector ∉ M) (hlt : length < 2 ^ 31)
    (h : v.inodeCreate sector length isDirectory = some (false, v')) :
    v'.Sound M ∧ Spares M [sector] v v' ∧
      (3 ≤ v.freeSectors.length → ∃ s ∈ v.freeSectors, v'.freeMap s = true) := by
  by_cases hfew : v.freeSectors.length < 3
  · obtain ⟨hs, hspr, -⟩ := (hv.inodeCreate_few hfew h).2.2 hM
    exact ⟨hs, hspr, fun hmany => absurd hfew (not_lt.mpr hmany)⟩
  obtain ⟨a, b, c, rest, hfree⟩ := exists_three hfew
  obtain ⟨v6, heq, hs6, hf6, hsp6, hmap6, -, -⟩ := hv.first_sectors hfree isDirectory
  rw [heq] at h
  obtain ⟨⟨ok, v7, inode⟩, hext, hend⟩ := bind_eq_some_iff.mp h
  cases ok with
  | true => simp [bind_eq_some_iff] at hend
  | false =>
    obtain rfl := hf6.extend_false hs6 (show 0 + length < 2 ^ 31 by omega) hext
    simp only [Bool.false_eq_true, if_false, bind_eq_some_iff, some.injEq,
      Prod.mk.injEq, true_and] at hend
    obtain ⟨v8, hr, _, hr', rfl⟩ := hend
    have hs7 : Spares M [sector] v v7 := hsp6.mono (by simp)
    obtain ⟨hv8, hs8⟩ := hs7.release hv hs6 (mem_freeSectors.mp (by simp [hfree])).2 hr
    obtain ⟨hv', hs'⟩ := hs8.release hv hv8 (mem_freeSectors.mp (by simp [hfree])).2 hr'
    refine ⟨hv', hs', fun _ => ⟨c, by simp [hfree], ?_⟩⟩
    have hnd := hfree ▸ nodup_freeSectors v
    simp only [nodup_cons, mem_cons, not_or] at hnd
    rw [freeMap_release hr', freeMap_release hr, hmap6]
    simp [reset, mark, Ne.symm hnd.1.2.1, Ne.symm hnd.2.1.1]

end Volume

/-! ### Writes -/

namespace FileSys

variable {fs fs' : FileSys} {M : List ℕ} {σ : Store} {P : ℕ → Place} {p : ℕ} {i : Inode}
  {f : FileImage} {name : CString}

/-- What `inode_write_at` through an open inode has done, if it returns. -/
theorem Stores.inodeWriteAt_eq_some (h : fs.Stores M σ P) (hp : fs.heap p = some i)
    (hf : σ i.sector = some f) (hbuf : buf.length < 2 ^ 31)
    (hoff : offset < 2 ^ 31) (hw : fs.inodeWriteAt p buf offset = some (n, fs')) :
    ∃ data v bytes P', fs' = { fs.setInode p { i with data } with vol := v } ∧
      fs'.Stores M (Function.update σ i.sector (some { f with bytes })) P' ∧
      region bytes = overwrite (region f.bytes) offset (buf.take n) ∧
      Volume.Wrote buf.length offset f.bytes.length n bytes.length := by
  obtain ⟨hfile, hlen, hdir⟩ := h.open_file hp hf
  simp only [FileSys.inodeWriteAt, hp, bind_eq_bind, bind_some, bind_eq_some_iff] at hw
  obtain ⟨⟨n', v, i'⟩, hw, rfl, rfl⟩ := hw
  obtain ⟨length, L', rfl, hs, hf', hk, hn⟩ := hfile.inodeWriteAt_eq_some h.sound hbuf hoff hw
  rw [hlen] at hn
  have hrgn := region_slice_zero hf'.holds.zero
  refine ⟨_, v, slice (overwrite (region f.bytes) offset (buf.take n')) 0 length, _, rfl,
    h.update hp rfl (h.tidy.counted p i hp) hs rfl hk hdir ?_ ?_, hrgn, ?_⟩
  · simp
  · rw [hrgn]
    exact hf'
  · rwa [length_slice]

/-! ### Entries -/

theorem eq_write_of_wrote {xs ys buf : List UInt8} (hoff : offset ≤ xs.length)
    (hrgn : region ys = overwrite (region xs) offset (buf.take n))
    (hwro : Volume.Wrote buf.length offset xs.length n ys.length) :
    n ≤ buf.length ∧ ys = write xs offset (buf.take n) := by
  unfold Volume.Wrote at hwro
  have hn : n ≤ buf.length := by omega
  refine ⟨hn, eq_of_region_eq ?_ (hrgn.trans (region_write _ _ _).symm)⟩
  rw [length_write, length_take_of_le hn]
  omega

/-- What `dir_add` has done, if it returns: the same as on an array of bytes, as far as there was
room. -/
theorem Stores.dirAdd_eq_some (h : fs.Stores M σ P) (hp : fs.heap p = some i)
    (hf : σ i.sector = some f) (hsml : f.bytes.length < MAX_LENGTH)
    (ha : fs.dirAdd p name sector = some (ok, fs')) :
    ∃ data v bytes P' room, fs' = { fs.setInode p { i with data } with vol := v } ∧
      fs'.Stores M (Function.update σ i.sector (some { f with bytes })) P' ∧
      bytes.length < MAX_LENGTH ∧
      DirFile.dirAdd f.bytes name sector room = some (ok, bytes) := by
  rw [h.dirAdd_eq hp hf hsml] at ha
  simp only [DirFile.dirAdd_ite]
  split_ifs at ha ⊢ with hbad
  · obtain ⟨rfl, rfl⟩ := ha
    refine ⟨i.data, fs.vol, f.bytes, P, 0, by rw [setInode_self hp], ?_, hsml, rfl⟩
    rwa [← hf, update_eq_self]
  obtain ⟨⟨n, fs1⟩, hw, ha⟩ := bind_eq_some_iff.mp ha
  obtain ⟨rfl, rfl⟩ := ha
  have hend := freeSlot_end f.bytes
  have hbyt := length_bytes ⟨sector, name, true⟩
  have hsize := SIZE_eq
  have hmax := MAX_LENGTH_eq
  obtain ⟨data, v, bytes, P', hfs, hsto, hrgn, hwro⟩ :=
    h.inodeWriteAt_eq_some hp hf (by omega) (by omega) hw
  obtain ⟨hn, rfl⟩ := eq_write_of_wrote hend hrgn hwro
  refine ⟨data, v, _, P', n, hfs, hsto, ?_, ?_⟩
  · have hle := freeSlot_le f.bytes
    unfold Volume.Wrote at hwro
    unfold slots at hle
    rw [SIZE_eq] at hle hwro ⊢
    omega
  · rw [Nat.min_eq_left (hn.trans_eq hbyt)]

/-- `dir_add` frees no sector. -/
theorem Stores.marked_dirAdd (h : fs.Stores M σ P) (hp : fs.heap p = some i)
    (hf : σ i.sector = some f) (hsml : f.bytes.length < MAX_LENGTH)
    (ha : fs.dirAdd p name sector = some (ok, fs')) (hs : fs.vol.freeMap s = true) :
    fs'.vol.freeMap s = true := by
  rw [h.dirAdd_eq hp hf hsml] at ha
  split_ifs at ha with hbad
  · rwa [← (Prod.mk.inj (some.inj ha)).2]
  obtain ⟨⟨n, fs1⟩, hw, ha⟩ := bind_eq_some_iff.mp ha
  obtain ⟨-, rfl⟩ := ha
  have hend := freeSlot_end f.bytes
  have hbyt := length_bytes ⟨sector, name, true⟩
  have hsize := SIZE_eq
  have hmax := MAX_LENGTH_eq
  simp only [FileSys.inodeWriteAt, hp, bind_eq_bind, bind_some, bind_eq_some_iff] at hw
  obtain ⟨⟨n', v, i'⟩, hw, rfl, rfl⟩ := hw
  obtain ⟨_, _, _, _, _, hk, _⟩ := (h.open_file hp hf).1.inodeWriteAt_eq_some h.sound
    (by omega) (by omega) hw
  exact hk.map s hs

/-! ### Files and the free map -/

/-- The file system holds the files `σ`, and the free map file, which is none of them, says which
sectors are free. -/
structure Backed (fs : FileSys) (M : List ℕ) (σ : Store) (P : ℕ → Place) : Prop
    extends Stores fs M σ P where
  mirrored : fs.vol.Mirrored M
  zero : σ FREE_MAP_SECTOR = none

section
variable {i' : Inode} (h : fs.Backed M σ P) (hp : fs.heap p = some i)
include h hp

theorem Backed.sector_ne_zero : i.sector ≠ FREE_MAP_SECTOR := fun h0 => by
  have hk := h.known p i hp
  rw [h0, h.zero] at hk
  cases hk

theorem Backed.setInode (hs : i'.sector = i.sector) (hd : i'.data = i.data) (hc : 0 < i'.openCnt) :
    (fs.setInode p i').Backed M σ P :=
  ⟨h.toStores.setInode hp hs hd hc, h.mirrored, h.zero⟩

theorem Backed.inodeClose (hr : i.openCnt = 1 → i.removed = false) :
    ∃ fs', fs.inodeClose p = some fs' ∧ fs'.Backed M σ P ∧
      fs'.heap = update fs.heap p
        (if i.openCnt = 1 then none else some { i with openCnt := i.openCnt - 1 }) := by
  obtain ⟨fs', hcls, h', hheap, -⟩ := h.toStores.inodeClose hp hr
  exact ⟨fs', hcls, ⟨h', h.mirrored_inodeClose hp (h.sector_ne_zero hp) hr h.mirrored hcls,
    h.zero⟩, hheap⟩

end

variable {cwd a size tid ps : ℕ} {v : Volume} {isDirectory ok : Bool} {path parentName : CString}

theorem Backed.filesysOpen (h : fs.Backed M σ P) (hl : WellLinked σ)
    (hcwd : (treeOf σ).IsDirectory cwd) (path : CString) :
    ∃ file fs', fs.filesysOpen cwd path = some (file, fs') ∧ fs'.Backed M σ P ∧ Grown fs fs' ∧
      Finds fs (treeOf σ) cwd path file fs' := by
  obtain ⟨file, fs', hopen, h', hgrw, hfnd, hmr⟩ := h.filesysOpen_any hl hcwd path
  exact ⟨file, fs', hopen, ⟨h', hmr h.zero h.mirrored, h.zero⟩, hgrw, hfnd⟩

theorem Finds.eq (h : Finds fs t cwd path file fs') (hroot : fs.Rooted path) :
    (file = none ∧ t.opened cwd path = none) ∨
      ∃ p i, file = some p ∧ fs'.heap p = some i ∧ t.opened cwd path = some i.sector := by
  unfold Finds at h
  cases ho : t.opened cwd path with
  | none =>
    rw [ho] at h
    exact .inl ⟨h, rfl⟩
  | some s =>
    rw [ho] at h
    obtain ⟨p, rfl, hs, hlive⟩ := h
    obtain ⟨i, hi⟩ := isSome_iff_exists.mp (hlive hroot)
    exact .inr ⟨p, i, rfl, hi, by rw [hs i hi]⟩

/-- `filesys_open` of a path that leads somewhere. -/
theorem Backed.filesysOpen_live (h : fs.Backed M σ P) (hl : WellLinked σ)
    (hcwd : (treeOf σ).IsDirectory cwd) (hroot : fs.Rooted path)
    (ho : (treeOf σ).opened cwd path = some ps) :
    ∃ p i fs', fs.filesysOpen cwd path = some (some p, fs') ∧ fs'.Backed M σ P ∧ Grown fs fs' ∧
      fs'.heap p = some i ∧ i.sector = ps := by
  obtain ⟨file, fs', hopen, h', hgrw, hfnd⟩ := h.filesysOpen hl hcwd path
  rcases hfnd.eq hroot with ⟨-, hnone⟩ | ⟨p, i, rfl, hp, hs⟩
  · rw [ho] at hnone
    cases hnone
  · exact ⟨p, i, fs', hopen, h', hgrw, hp, mem_unique hs ho⟩

theorem Stores.restrict (h : fs.Stores M σ P) (hsub : ∀ s f, σ' s = some f → σ s = some f)
    (hopen : ∀ p i, fs.heap p = some i → (σ' i.sector).isSome) : fs.Stores M σ' P := by
  have hsome : ∀ s, (σ' s).isSome → (σ s).isSome := fun s hs => by
    obtain ⟨f, hf⟩ := isSome_iff_exists.mp hs
    rw [hsub s f hf]
    rfl
  exact ⟨h.tidy, h.sound, hopen, fun s f hf => h.stored s f (hsub s f hf),
    fun s s' hs hs' => h.inodes_apart s s' (hsome s hs) (hsome s' hs'),
    fun s s' hs hs' => h.files_apart s s' (hsome s hs) (hsome s' hs')⟩

theorem Backed.release (h : fs.Backed M σ P) (ha : fs.Unused M σ P a) (h0 : a ≠ 0)
    (hr : fs.vol.freeMapReleaseSingle a = some v) : Backed { fs with vol := v } M σ P := by
  obtain ⟨hsnd, hmap, hfile1, hsame⟩ := h.sound.of_release ⟨h0, ha.apart⟩ hr
  refine ⟨h.leaves (l := [a]) hsnd ⟨hfile1, hsame.1, fun s hs hsa => ?_, fun s _ hM _ => hsame.2 s hM⟩
    fun x hx => ?_, h.sound.mirrored_release h.mirrored ⟨h0, ha.apart⟩ hr, h.zero⟩
  · rw [hmap]
    simp [reset, hs, hsa]
  · rw [mem_singleton.mp hx]
    exact ⟨ha.none, ha.inodes_apart⟩

/-! ### Creation -/

theorem Backed.dirAdd_eq_some (h : fs.Backed M σ P) (hp : fs.heap p = some i)
    (hf : σ i.sector = some f) (hsml : f.bytes.length < MAX_LENGTH) (hzero : 0 ∉ name)
    (ha : fs.dirAdd p name sector = some (ok, fs')) :
    ∃ data v bytes P', fs' = { fs.setInode p { i with data } with vol := v } ∧
      fs'.Backed M (update σ i.sector (some { f with bytes })) P' ∧
      bytes.length < MAX_LENGTH ∧
      if ok then ValidName name ∧ slotOf f.bytes name = none ∧ bytes = addEntry f.bytes name sector
      else DirFile.SameInUse f.bytes bytes := by
  obtain ⟨data, v, bytes, P', room, hfs, h', hlt, hadd⟩ :=
    h.toStores.dirAdd_eq_some hp hf hsml ha
  have hz : update σ i.sector (some { f with bytes }) FREE_MAP_SECTOR = none := by
    rw [update_of_ne (h.sector_ne_zero hp).symm, h.zero]
  refine ⟨data, v, bytes, P', hfs, ⟨h', h.mirrored_dirAdd hp hf hsml h.mirrored ha, hz⟩, hlt, ?_⟩
  obtain ⟨success, ys, hadd', hiff, heff⟩ := DirFile.dirAdd_eq hzero f.bytes sector room
  obtain ⟨rfl, rfl⟩ : success = ok ∧ ys = bytes := by simpa using hadd'.symm.trans hadd
  cases success with
  | false => exact heff
  | true =>
    obtain ⟨hvalid, hnew, -⟩ := hiff.mp rfl
    exact ⟨hvalid, hnew, heff⟩

/-- `inode_create` in a sector that has just been allocated. -/
theorem Backed.inodeCreate_eq_some (h : fs.Backed M σ P) (ha : fs.Unused M σ P a) (h0 : a ≠ 0)
    (hsize : size < 2 ^ 31) (hc : fs.vol.inodeCreate a size isDirectory = some (ok, v)) :
    if ok then ∃ P', Backed { fs with vol := v } M
        (update σ a (some ⟨isDirectory, List.replicate size 0⟩)) P'
      else Backed { fs with vol := v } M σ P ∧ Unused { fs with vol := v } M σ P a := by
  have hmr := h.sound.mirrored_inodeCreate h.mirrored ⟨h0, ha.apart⟩ hsize hc
  cases ok with
  | false =>
    obtain ⟨hsnd, hs, -⟩ := h.sound.inodeCreate_false ha.apart hsize hc
    refine ⟨⟨h.leaves hsnd hs.leaves fun x hx => ?_, hmr, h.zero⟩, hs.map a ha.marked,
      hs.size.symm ▸ ha.lt_size, ha.apart, ha.none, ha.inodes_apart⟩
    rw [mem_singleton.mp hx]
    exact ⟨ha.none, ha.inodes_apart⟩
  | true =>
    obtain ⟨hmax, hspc⟩ := h.sound.space_of_create hsize hc
    obtain ⟨v', P', hc', h', -⟩ := h.inodeCreate ha isDirectory hmax hspc
    obtain ⟨⟩ := hc'.symm.trans hc
    exact ⟨P', h', hmr, (update_of_ne (Ne.symm h0) ..).trans h.zero⟩

/-- What the part of `filesys_create` that allocates has done, if it returns. -/
theorem Backed.createEntry_eq_some (h : fs.Backed M σ P) (hp : fs.heap p = some i)
    (hf : σ i.sector = some f) (hsml : f.bytes.length < MAX_LENGTH) (hzero : 0 ∉ name)
    (hsize : size < 2 ^ 31) (hc : fs.createEntry p name size isDirectory = some (ok, a, fs')) :
    (ok = false ∧ a = 0 ∧ fs' = fs ∧ fs.vol.freeSectors = []) ∨
    ∃ data v bytes P', a ≠ 0 ∧ a < 2 ^ 32 ∧ σ a = none ∧
      fs' = { fs.setInode p { i with data } with vol := v } ∧ bytes.length < MAX_LENGTH ∧
      if ok then
        ValidName name ∧ slotOf f.bytes name = none ∧ bytes = addEntry f.bytes name a ∧
        fs'.Backed M (update (update σ a
          (some ⟨isDirectory, List.replicate size 0⟩)) i.sector (some { f with bytes })) P'
      else DirFile.SameInUse f.bytes bytes ∧
        fs'.Backed M (update σ i.sector (some { f with bytes })) P' ∧
        fs'.Unused M (update σ i.sector (some { f with bytes })) P' a ∧
        (4 ≤ fs.vol.freeSectors.length → ∃ s ∈ fs.vol.freeSectors, s ≠ a ∧ v.freeMap s = true) := by
  unfold createEntry at hc
  cases hfree : fs.vol.freeSectors with
  | nil =>
    simp only [Volume.freeMapAllocateSingle_none hfree] at hc
    obtain ⟨rfl, rfl, rfl⟩ := hc
    exact .inl ⟨rfl, rfl, rfl, rfl⟩
  | cons b rest =>
    obtain ⟨v1, halc, h1, hun, hrest⟩ := h.allocate hfree
    have hb := h.sound.apart_of_free (by rw [hfree]; exact mem_cons_self)
    have hleft : ∀ {s}, s ∈ v1.freeSectors → s ∈ b :: rest ∧ s ≠ b := fun {s} hs => by
      rw [hrest] at hs
      refine ⟨mem_cons_of_mem b hs, ?_⟩
      rintro rfl
      exact (nodup_cons.mp (hfree ▸ Volume.nodup_freeSectors fs.vol)).1 hs
    have hb1 : Backed { fs with vol := v1 } M σ P :=
      ⟨h1, h.sound.mirrored_allocate h.mirrored halc, h.zero⟩
    have hne : i.sector ≠ b := fun he => by
      rw [he, hun.none] at hf
      cases hf
    have hlt := hun.lt_size.trans h1.sound.size
    simp only [halc, bind_eq_bind, bind_some] at hc
    obtain ⟨⟨created, v2⟩, hcrt, hc⟩ := bind_eq_some_iff.mp hc
    have hcra := hb1.inodeCreate_eq_some hun hb.1 hsize hcrt
    cases created with
    | false =>
      obtain ⟨rfl, rfl, rfl⟩ := hc
      obtain ⟨h2, hun2⟩ := hcra
      refine .inr ⟨i.data, v2, f.bytes, P, hb.1, hlt, hun.none, by rw [setInode_self hp],
        hsml, .refl _, ?_, ?_, fun hmany => ?_⟩
      · rw [← hf, update_eq_self]
        exact h2
      · rw [← hf, update_eq_self]
        exact hun2
      · obtain ⟨s, hs, hm⟩ := (h1.sound.inodeCreate_false hb.2 hsize hcrt).2.2
          (by rw [hrest]; exact Nat.le_of_succ_le_succ hmany)
        exact ⟨s, (hleft hs).1, (hleft hs).2, hm⟩
    | true =>
      obtain ⟨P2, h2⟩ := hcra
      obtain ⟨⟨added, fs3⟩, hadd, hc⟩ := bind_eq_some_iff.mp hc
      obtain ⟨rfl, rfl, rfl⟩ : added = ok ∧ b = a ∧ fs3 = fs' := by simpa using hc
      obtain ⟨data, v3, bytes, P3, hfs, h3, hlt3, hcase⟩ := h2.dirAdd_eq_some hp
        ((update_of_ne hne ..).trans hf) hsml hzero hadd
      refine .inr ⟨data, v3, bytes, P3, hb.1, hlt, hun.none, hfs, hlt3, ?_⟩
      cases added with
      | true =>
        obtain ⟨hvalid, hnew, hbyt⟩ := hcase
        exact ⟨hvalid, hnew, hbyt, h3⟩
      | false =>
        -- the file without an entry is forgotten
        have hst := h3.stored b _ ((update_of_ne hne.symm ..).trans (update_self ..))
        have hsub : ∀ s g, update σ i.sector (some { f with bytes }) s =
            some g → update (update σ b (some ⟨isDirectory, List.replicate size 0⟩)) i.sector
              (some { f with bytes }) s = some g := by
          intro s g hg
          by_cases hsi : s = i.sector
          · subst hsi
            rwa [update_self] at hg ⊢
          · rw [update_of_ne hsi] at hg ⊢
            rwa [update_of_ne fun hsb => by
              rw [hsb, hun.none] at hg
              cases hg]
        have hknw : ∀ q j, fs3.heap q = some j →
            (update σ i.sector (some { f with bytes }) j.sector).isSome := by
          intro q j hq
          have hq' : (fs.setInode p { i with data }).heap q = some j := by
            rwa [hfs] at hq
          simp only [FileSys.setInode, update_apply] at hq'
          by_cases hj : j.sector = i.sector
          · rw [hj, update_self]
            rfl
          · rw [update_of_ne hj]
            split_ifs at hq' with hqp
            · exact absurd (congrArg Inode.sector (some.inj hq')).symm hj
            · exact h.known q j hq'
        have h4 := h3.toStores.restrict hsub hknw
        refine ⟨hcase, ⟨h4, h3.mirrored, ?_⟩, ⟨hst.marked, hst.lt_size, hst.apart, ?_,
          fun s hs => ?_⟩, fun _ => ?_⟩
        · rw [update_of_ne (h.sector_ne_zero hp).symm, h.zero]
        · rw [update_of_ne hne.symm, hun.none]
        · obtain ⟨g, hg⟩ := isSome_iff_exists.mp hs
          refine h3.inodes_apart b s ?_ (by rw [hsub s g hg]; rfl)
          rw [update_of_ne hne.symm, update_self]
          rfl
        · -- the first table of the new file stays marked
          obtain ⟨hmax, hspc⟩ := h1.sound.space_of_create hsize hcrt
          obtain ⟨v', double, L, hcrt', hnew⟩ := h1.sound.inodeCreate isDirectory hun.marked
            hun.lt_size hun.apart hmax hspc
          obtain ⟨⟩ := hcrt'.symm.trans hcrt
          have hs := hleft (mem_of_head? hnew.first)
          have hmrk : v2.freeMap double = true := hnew.fileOf.marked _ Layout.double_mem
          have hkept := h2.toStores.marked_dirAdd hp ((update_of_ne hne ..).trans hf) hsml hadd hmrk
          rw [hfs] at hkept
          exact ⟨double, hs.1, hs.2, hkept⟩

/-- `dir_lookup` of a single name. -/
theorem dirLookup_name (hname : name ≠ []) (hslash : slash ∉ name) (out : Option ℕ) :
    fs.dirLookup (name.length + 1) p name out = (fs.lookup p name).bind fun found =>
      match found with
      | none => some (false, out, fs)
      | some (e, _) => (fs.inodeOpen e.inodeSector).bind fun (q, fs') =>
        (fs'.heap q).bind fun _ => some (true, some q, fs') := by
  have hpos : 0 < name.length := length_pos_iff.mpr hname
  have hne : ∀ c ∈ name, c ≠ slash := fun c hc he => hslash (he ▸ hc)
  have hdrop : name.dropWhile (fun c => c == slash) = name := by
    cases name with
    | nil => rfl
    | cons c rest => exact dropWhile_cons_of_neg (by simpa using hne c mem_cons_self)
  have htake : name.takeWhile (fun c => c != slash) = name :=
    takeWhile_eq_self_iff.mpr fun c hc => by simpa using hne c hc
  have hend : name.dropWhile (fun c => c != slash) = [] :=
    dropWhile_eq_nil_iff.mpr fun c hc => by simpa using hne c hc
  obtain ⟨n, hn⟩ := Nat.exists_eq_add_one.mpr hpos
  unfold dirLookup
  simp only [hdrop, htake, hend, hname, if_false, bind_eq_bind]
  congr 1
  funext found
  cases found with
  | none => rfl
  | some e =>
    dsimp only
    congr 1
    funext r
    cases hr : r.2.heap r.1 with
    | none => simp only [bind_none]
    | some j =>
      simp only [bind_some, hn]
      split_ifs with hdir
      · unfold dirLookup
        simp
      · simp

/-- What the part of `filesys_create` that runs with the parent open and locked does: the name is
there already, and the parent stays locked; or nothing could be allocated; or the file is created. -/
inductive Creates (fs : FileSys) (σ : Store) (p : ℕ) (i : Inode) (f : FileImage) (name : CString)
    (size : ℕ) (isDirectory : Bool) : Bool → FileSys → Store → Prop
  | found {fs' : FileSys} (hname : name = [] ∨ (slotOf f.bytes name).isSome)
      (hgrown : Grown fs fs') : Creates fs σ p i f name size isDirectory false fs' σ
  | failed {fs' : FileSys} {data : InodeDisk} {bytes : List UInt8}
      (hsame : DirFile.SameInUse f.bytes bytes)
      (hheap : fs'.heap = update fs.heap p (some { i with
        data := data, openCnt := i.openCnt - 1, dirLock := none }))
      (hleak : 4 ≤ fs.vol.freeSectors.length →
        ∃ s ∈ fs.vol.freeSectors, fs'.vol.freeMap s = true) :
      Creates fs σ p i f name size isDirectory false fs'
        (update σ i.sector (some { f with bytes := bytes }))
  | created {fs' : FileSys} {data : InodeDisk} {a : ℕ} (hvalid : ValidName name)
      (hnew : slotOf f.bytes name = none) (hfresh : σ a = none) (halt : a < 2 ^ 32)
      (hheap : fs'.heap = update fs.heap p (some { i with
        data := data, openCnt := i.openCnt - 1, fileCount := i.fileCount + 1, dirLock := none })) :
      Creates fs σ p i f name size isDirectory true fs' (σ.addFile i.sector a name size isDirectory)

/-- The end of `filesys_create`: the parent is closed and released. -/
theorem Backed.closeAndRelease (h : fs.Backed M σ P) (hp : fs.heap p = some i)
    (hcnt : 1 < i.openCnt) (hlock : i.dirLock = some tid) :
    ∃ fs', (∀ ok : Bool, ((fs.inodeClose p).bind fun fs => (fs.directoryRelease tid p).bind fun fs =>
      some (ok, fs)) = some (ok, fs')) ∧ fs'.Backed M σ P ∧ fs'.heap = update fs.heap p
      (some { i with openCnt := i.openCnt - 1, dirLock := none }) ∧ fs'.vol = fs.vol := by
  refine ⟨_, fun ok => ?_, @Backed.setInode _ _ _ _ _ _
    { i with openCnt := i.openCnt - 1, dirLock := none } h hp rfl rfl
    (show 0 < i.openCnt - 1 by omega), rfl, rfl⟩
  rw [inodeClose_shared h.tidy hp (by omega), bind_some,
    directoryRelease_eq (setInode_heap fs p { i with openCnt := i.openCnt - 1 }) hlock,
    setInode_setInode, bind_some]

theorem WellLinked.update {s : ℕ} (hl : WellLinked σ) (hf : σ s = some f) {bytes : List UInt8}
    (hlen : f.isDirectory = true → bytes.length < MAX_LENGTH)
    (heni : f.isDirectory = true → ∀ k < slots bytes, (entryAt bytes k).inUse = true →
      (σ (entryAt bytes k).inodeSector).isSome) :
    WellLinked (Function.update σ s (some { f with bytes })) := by
  have hsome : ∀ x, (σ x).isSome →
      (Function.update σ s (some { f with bytes }) x).isSome := by
    intro x hx
    rw [update_apply]
    split_ifs
    · rfl
    · exact hx
  refine ⟨?_, fun x g hg hd k hk hu => hsome _ ?_, fun x g hg hd => ?_⟩
  · obtain ⟨r, hr, hrd⟩ := hl.root
    rw [update_apply]
    split_ifs with hs
    · rw [hs, hf] at hr
      cases hr
      exact ⟨_, rfl, hrd⟩
    · exact ⟨r, hr, hrd⟩
  all_goals
    rw [update_apply] at hg
    split_ifs at hg with hs
  · cases hg
    exact heni hd k hk hu
  · exact hl.closed x g hg hd k hk hu
  · cases hg
    exact hlen hd
  · exact hl.small x g hg hd

theorem WellLinked.sameInUse {s : ℕ} (hl : WellLinked σ) (hf : σ s = some f) {bytes : List UInt8}
    (hlen : bytes.length < MAX_LENGTH) (hsame : DirFile.SameInUse f.bytes bytes) :
    WellLinked (Function.update σ s (some { f with bytes })) :=
  WellLinked.update hl hf (fun _ => hlen) fun hd k hk hu => by
    rw [hsame.1] at hk
    have he := hsame.2 k hk (.inl hu)
    rw [he] at hu ⊢
    exact hl.closed s f hf hd k hk hu

/-- The name is empty or there already: its inode is opened, and the parent stays locked. -/
theorem Backed.createIn_found (h : fs.Backed M σ P) (hl : WellLinked σ) (hp : fs.heap p = some i)
    (hf : σ i.sector = some f) (hd : f.isDirectory = true) (hslash : slash ∉ name)
    (hfou : name = [] ∨ (slotOf f.bytes name).isSome) (tid size : ℕ) (isDirectory : Bool) :
    ∃ fs', fs.createIn tid p name size isDirectory = some (false, fs') ∧ fs'.Backed M σ P ∧
      Opens (fun s => name ≠ [] ∧ entriesOf f.bytes name = some s) fs fs' ∧
      (name ≠ [] → ∀ s, entriesOf f.bytes name = some s → (fs'.findOpen s).isSome) := by
  by_cases hname : name = []
  · subst hname
    refine ⟨fs, ?_, h, .refl h.tidy, fun hne => absurd rfl hne⟩
    simp [createIn, dirLookup]
  obtain ⟨k, hslot⟩ := isSome_iff_exists.mp (hfou.resolve_left hname)
  obtain ⟨hk, hm, -⟩ := slotOf_eq_some.mp hslot
  have hsome := hl.closed _ f hf hd k hk hm.1
  obtain ⟨g, hg⟩ := isSome_iff_exists.mp hsome
  obtain ⟨q, j, fs1, hopen, hopn, -⟩ := h.tidy.inodeOpen (h.stored _ g hg).inode
  have henr : entriesOf f.bytes name = some (entryAt f.bytes k).inodeSector := by
    rw [entriesOf, hslot, map_some]
  refine ⟨fs1, ?_, ⟨h.opens hopn.opens fun s hs => hs ▸ hsome, hopn.opens.vol ▸ h.mirrored,
    h.zero⟩, hopn.opens.mono fun s hs => ⟨hname, hs ▸ henr⟩, fun _ s hs => ?_⟩
  · unfold createIn
    rw [dirLookup_name hname hslash, h.lookup hp hf (hl.small _ f hf hd)]
    simp [hslot, hopen, hopn.heap]
  · exact hopn.opens.tidy.isSome_findOpen hopn.heap (hopn.sector.trans (some.inj (henr.symm.trans hs)))

/-- The links of a directory that has just been created, which nobody has open. -/
theorem Backed.addLinks {fs1 : FileSys} {data : InodeDisk} {P1 : ℕ → Place} (h : fs.Backed M σ P)
    (hf : σ i.sector = some f) (hfrs : σ a = none) (ha0 : a ≠ 0)
    (hlnk : isDirectory = true → size + 2 * SIZE < MAX_LENGTH ∧
      sectorsFor (size + 2 * SIZE) ≤ sectorsFor size)
    (hheap : fs1.heap = update fs.heap p (some { i with data }))
    (h1 : fs1.Backed M (update (update σ a (some ⟨isDirectory, List.replicate size 0⟩)) i.sector
      (some { f with bytes := addEntry f.bytes name a })) P1) :
    ∃ fs2 P2, fs1.addLinks isDirectory a i.sector = some fs2 ∧
      fs2.Backed M (σ.addFile i.sector a name size isDirectory) P2 ∧ fs2.heap = fs1.heap := by
  have hne : i.sector ≠ a := fun he => by
    rw [he, hfrs] at hf
    cases hf
  rw [← addFile_eq hf hne]
  cases isDirectory with
  | false => exact ⟨fs1, P1, rfl, h1, rfl⟩
  | true =>
    have hclo : fs1.findOpen a = none := by
      rw [findOpen_eq_none h1.tidy]
      intro q j hq he
      rw [hheap, update_apply] at hq
      split_ifs at hq with hqp
      · cases hq
        exact hne he
      · have hk := h.known q j hq
        rw [he, hfrs] at hk
        cases hk
    obtain ⟨fs2, P2, hadd, h2, hheap2, hmr⟩ := h1.addLinks_new
      ((update_of_ne hne.symm ..).trans (update_self ..)) hclo (hlnk rfl).1.le
      (hlnk rfl).2 ((h.stored _ f hf).lt_size.trans h.sound.size)
    refine ⟨fs2, P2, hadd, ⟨h2, hmr ha0 h1.mirrored, ?_⟩, hheap2⟩
    rw [if_pos rfl, update_of_ne (show FREE_MAP_SECTOR ≠ a from Ne.symm ha0), h1.zero]

section
variable (h : fs.Backed M σ P) (hl : WellLinked σ) (hp : fs.heap p = some i)
  (hf : σ i.sector = some f) (hd : f.isDirectory = true) (hcnt : 1 < i.openCnt)
  (hlock : i.dirLock = some tid) (hslash : slash ∉ name) (hzero : 0 ∉ name) (hsize : size < 2 ^ 31)
include h hl hp hf hd hcnt hlock hslash hzero hsize

/-- With an entry for the new file, `filesys_create` succeeds. -/
theorem Backed.createIn_of_entry (hname : name ≠ []) (hslot : slotOf f.bytes name = none)
    (hlnk : isDirectory = true → size + 2 * SIZE < MAX_LENGTH ∧
      sectorsFor (size + 2 * SIZE) ≤ sectorsFor size)
    (henr : fs.createEntry p name size isDirectory = some (true, a, fs1)) :
    ∃ σ' fs' P', fs.createIn tid p name size isDirectory = some (true, fs') ∧
      fs'.Backed M σ' P' ∧ WellLinked σ' ∧
      Creates fs σ p i f name size isDirectory true fs' σ' := by
  have hsml := hl.small _ f hf hd
  rcases h.createEntry_eq_some hp hf hsml hzero hsize henr with
    ⟨hno, -⟩ | ⟨data, v, bytes, P1, ha0, halt, hfrs, rfl, hlen, hvalid, -, rfl, h1⟩
  · cases hno
  obtain ⟨fs2, P2, hadd, h2, hheap2⟩ := h.addLinks hf hfrs ha0 hlnk rfl h1
  have hp2 : fs2.heap p = some { i with data } := by
    rw [hheap2]
    exact update_self ..
  have h3 := @Backed.setInode _ _ _ _ _ _ { i with data, fileCount := i.fileCount + 1 }
    h2 hp2 rfl rfl (show 0 < i.openCnt by omega)
  obtain ⟨fs', hend, h4, hheap, -⟩ := h3.closeAndRelease (update_self ..) hcnt hlock
  refine ⟨_, fs', P2, ?_, h4, ?_, @Creates.created _ _ _ _ _ _ _ _ _ data _ hvalid hslot hfrs halt ?_⟩
  · unfold createIn
    rw [dirLookup_name hname hslash, h.lookup hp hf hsml]
    simp [hslot, hp, henr, hadd, hp2, hend]
  · exact WellLinked.addFile_of hl hf hd hvalid hlen
      (fun hdir => lt_of_le_of_lt (length_linkBytes_le _ _ _) (hlnk hdir).1) hfrs
      ((h.stored _ f hf).lt_size.trans h.sound.size) halt
  · rw [hheap]
    show update (update fs2.heap p _) p _ = _
    rw [update_idem, hheap2]
    exact update_idem _ _ _

/-- What the part of `filesys_create` that runs with the parent open and locked has done, if it
returns. -/
theorem Backed.createIn_eq_some
    (hlnk : ok = true → isDirectory = true → size = MAX_FILES_PER_DIR * SIZE)
    (hc : fs.createIn tid p name size isDirectory = some (ok, fs')) :
    ∃ σ' P', fs'.Backed M σ' P' ∧ WellLinked σ' ∧
      Creates fs σ p i f name size isDirectory ok fs' σ' := by
  have hsml := hl.small _ f hf hd
  by_cases hfou : name = [] ∨ (slotOf f.bytes name).isSome
  · obtain ⟨fs1, hcrt, h1, hope, -⟩ :=
      h.createIn_found hl hp hf hd hslash hfou tid size isDirectory
    obtain ⟨rfl, rfl⟩ := hcrt.symm.trans hc
    exact ⟨σ, P, h1, hl, .found hfou hope.grown⟩
  obtain ⟨hname, hslot⟩ := not_or.mp hfou
  rw [not_isSome_iff_eq_none] at hslot
  have hcrt := hc
  unfold createIn at hc
  rw [dirLookup_name hname hslash, h.lookup hp hf hsml] at hc
  simp only [hslot, map_none, bind_eq_bind, bind_some, hp] at hc
  obtain ⟨⟨success, a, fs1⟩, henr, hend⟩ := bind_eq_some_iff.mp hc
  cases success with
  | true =>
    obtain rfl : true = ok := by
      simp only [if_true, bind_eq_some_iff, some.injEq, Prod.mk.injEq] at hend
      obtain ⟨-, -, -, -, -, -, -, -, hok, -⟩ := hend
      exact hok
    obtain ⟨σ', fs2, P2, hcrt', h2, hl2, hcre⟩ := h.createIn_of_entry hl hp hf hd hcnt hlock
      hslash hzero hsize hname hslot (fun hdir => by rw [hlnk rfl hdir]; decide) henr
    obtain ⟨⟩ := hcrt'.symm.trans hcrt
    exact ⟨_, P2, h2, hl2, hcre⟩
  | false =>
    rcases h.createEntry_eq_some hp hf hsml hzero hsize henr with
      ⟨-, rfl, rfl, hfull⟩ | ⟨data, v, bytes, P1, ha0, -, -, rfl, hlen, hsame, h1, hun, hleak⟩
    · obtain ⟨fs2, hcls, h2, hheap, -⟩ := h.closeAndRelease hp hcnt hlock
      obtain ⟨rfl, rfl⟩ : false = ok ∧ fs2 = fs' := by simpa using (hcls false).symm.trans hend
      have hself : update σ i.sector (some { f with bytes := f.bytes }) = σ := by
        rw [← hf, update_eq_self]
      have := @Creates.failed fs1 σ p i f name size isDirectory fs2 i.data f.bytes (.refl _) hheap
        (by simp [hfull])
      rw [hself] at this
      exact ⟨_, P, h2, hl, this⟩
    · simp only [ne_eq, ha0] at hend
      obtain ⟨v2, hrls, hend⟩ := bind_eq_some_iff.mp hend
      obtain ⟨fs2, hcls, h3, hheap, hvol⟩ := (h1.release hun ha0 hrls).closeAndRelease
        (update_self ..) hcnt hlock
      obtain ⟨rfl, rfl⟩ := (hcls false).symm.trans hend
      refine ⟨_, P1, h3, WellLinked.sameInUse hl hf hlen hsame,
        @Creates.failed _ _ _ _ _ _ _ _ _ data _ hsame ?_ fun hmany => ?_⟩
      · rw [hheap]
        exact update_idem _ _ _
      · obtain ⟨s, hs, hne, hm⟩ := hleak hmany
        refine ⟨s, hs, ?_⟩
        rw [hvol, Volume.freeMap_release hrls]
        simp [reset, hm, hne]

/-- With enough space, it creates the file. -/
theorem Backed.createIn (hdeny : i.denyWriteCnt = 0)
    (hc : Creatable f name size isDirectory fs.vol.freeSectors.length) :
    ∃ σ' fs' P', fs.createIn tid p name size isDirectory = some (true, fs') ∧
      fs'.Backed M σ' P' ∧ WellLinked σ' ∧
      Creates fs σ p i f name size isDirectory true fs' σ' := by
  obtain ⟨a, fs1, henr⟩ := h.toStores.createEntry hp hf hdeny hc
  exact h.createIn_of_entry hl hp hf hd hcnt hlock hslash hzero hsize hc.valid.1
    (entriesOf_eq_none.mp hc.new) hc.links henr

end

/-! ### By path -/

/-- Openings, closings and lockings lead from `fs` to `fs'`: an inode that was open is still open and
has changed in the number of its openers and its lock at most. -/
structure Shifted (fs fs' : FileSys) : Prop where
  kept : ∀ p i, fs.heap p = some i →
    ∃ n lock, i.openCnt ≤ n ∧ fs'.heap p = some { i with openCnt := n, dirLock := lock }
  new : ∀ p i, fs'.heap p = some i → fs.heap p = none →
    i.removed = false ∧ i.fileCount = 0 ∧ i.denyWriteCnt = 0
  free : fs'.vol.freeSectors = fs.vol.freeSectors

theorem Grown.shifted (h : Grown fs fs') : Shifted fs fs' where
  kept := fun p i hp => by
    obtain ⟨n, hn, hp'⟩ := h.kept p i hp
    exact ⟨n, i.dirLock, hn, hp'⟩
  new := fun p i hp hn => by
    obtain ⟨hr, hc, -, hd⟩ := h.clear p i hp hn
    exact ⟨hr, hc, hd⟩
  free := h.free

/-- The thread that holds `dir_lock` of the inode at an address. -/
def holder (fs : FileSys) (p : ℕ) : Option ℕ := (fs.heap p).bind Inode.dirLock

theorem holder_eq (hp : fs.heap p = some i) : fs.holder p = i.dirLock := by
  simp [holder, hp]

theorem holder_setInode_of_ne (hq : q ≠ p) : (fs.setInode p i').holder q = fs.holder q := by
  simp [holder, setInode, update_of_ne hq]

theorem Grown.holder_eq (h : Grown fs fs') (p : ℕ) : fs'.holder p = fs.holder p := by
  cases hp : fs.heap p with
  | some i =>
    obtain ⟨n, -, hp'⟩ := h.kept p i hp
    rw [FileSys.holder_eq hp, FileSys.holder_eq hp']
  | none =>
    cases hp' : fs'.heap p with
    | none => simp only [holder, hp, hp']
    | some j => simp [holder, hp, hp', (h.clear p j hp' hp).2.2.1]

theorem Shifted.refl (h : fs.Tidy) : Shifted fs fs :=
  (Opens.refl (S := fun _ => True) h).grown.shifted

theorem Shifted.trans (h : Shifted fs fs') (h' : Shifted fs' fs'') : Shifted fs fs'' where
  kept := fun p i hp => by
    obtain ⟨n, lock, hn, hp'⟩ := h.kept p i hp
    obtain ⟨m, lock', hm, hp''⟩ := h'.kept p _ hp'
    exact ⟨m, lock', hn.trans hm, hp''⟩
  new := fun p i hp hn => by
    cases hp' : fs'.heap p with
    | none => exact h'.new p i hp hp'
    | some j =>
      obtain ⟨n, lock, -, hp''⟩ := h'.kept p j hp'
      cases mem_unique hp hp''
      exact h.new p j hp' hn
  free := h'.free.trans h.free

theorem shifted_setInode (hp : fs.heap p = some i) (hn : i.openCnt ≤ n)
    (lock : Option ℕ) : Shifted fs (fs.setInode p { i with openCnt := n, dirLock := lock }) where
  kept := fun q j hq => by
    simp only [setInode, update_apply]
    split_ifs with hqp
    · subst hqp
      cases mem_unique hp hq
      exact ⟨n, lock, hn, rfl⟩
    · exact ⟨j.openCnt, j.dirLock, le_rfl, hq⟩
  new := fun q j hq hnone => by
    simp only [setInode, update_apply] at hq
    split_ifs at hq with hqp
    · rw [hqp, hp] at hnone
      cases hnone
    · rw [hnone] at hq
      cases hq
  free := rfl

/-! ### Open inodes -/

/-- The same inodes are open. -/
def SameOpen (fs fs' : FileSys) : Prop := ∀ p, (fs'.heap p).isSome = (fs.heap p).isSome

theorem SameOpen.trans (h : SameOpen fs fs') (h' : SameOpen fs' fs'') : SameOpen fs fs'' :=
  fun p => (h' p).trans (h p)

theorem SameOpen.left (h : SameOpen fs fs'') (hs : Shifted fs fs') (hs' : Shifted fs' fs'') :
    SameOpen fs fs' := by
  intro p
  cases hp : fs.heap p with
  | some i =>
    obtain ⟨n, lock, -, hp'⟩ := hs.kept p i hp
    rw [hp', isSome_some, isSome_some]
  | none =>
    cases hp' : fs'.heap p with
    | none => rfl
    | some i =>
      obtain ⟨n, lock, -, hp''⟩ := hs'.kept p i hp'
      have := h p
      simp [hp, hp''] at this

theorem sameOpen_update (hp : fs.heap p = some i)
    (hheap : fs'.heap = update fs.heap p (some i')) : SameOpen fs fs' := by
  intro q
  rw [hheap, update_apply]
  split_ifs with hq
  · rw [hq, hp, isSome_some, isSome_some]
  · rfl

theorem sameOpen_iff_update (hp : fs'.heap p = some i)
    (hheap : fs''.heap = update fs'.heap p (some i')) : SameOpen fs fs'' ↔ SameOpen fs fs' :=
  forall_congr' fun q => by rw [sameOpen_update hp hheap q]

theorem Opens.sameOpen {S : ℕ → Prop} (h : Opens S fs fs')
    (hS : ∀ s, S s → (fs.findOpen s).isSome) : SameOpen fs fs' := by
  intro q
  cases hq : fs.heap q with
  | some j =>
    obtain ⟨n, -, hq'⟩ := h.kept q j hq
    rw [hq', isSome_some, isSome_some]
  | none =>
    cases hq' : fs'.heap q with
    | none => rfl
    | some j =>
      -- the sector is open at another address
      obtain ⟨r, hr⟩ := isSome_iff_exists.mp (hS _ (h.new q j hq' hq).1)
      obtain ⟨-, i, hi, hs⟩ := findOpen_eq_some hr
      obtain ⟨n, -, hi'⟩ := h.kept r i hi
      cases h.tidy.distinct r q _ _ hi' hq' hs
      rw [hq] at hi
      cases hi

/-- The inodes that `filesys_open` leaves open are open already: all that the path comes to behind the
start directory, which is closed again, unless the path is empty. -/
def Reopens (fs : FileSys) (t : Tree) (cwd : ℕ) (path : CString) : Prop :=
  (path = [] → (fs.findOpen cwd).isSome) ∧
    ∀ s ∈ (passed t.child (Tree.start cwd path) (components slash path)).tail,
      (fs.findOpen s).isSome

theorem Opened.sameOpen_iff (hfs : fs.Tidy) (h : Opened s fs p i fs') :
    SameOpen fs fs' ↔ (fs.findOpen s).isSome := by
  constructor
  · intro hsame
    obtain ⟨j, hj⟩ := isSome_iff_exists.mp ((hsame p).symm.trans (by rw [h.heap]; rfl))
    obtain ⟨n, -, hp⟩ := h.opens.kept p j hj
    cases mem_unique h.heap hp
    exact hfs.isSome_findOpen hj h.sector
  · intro hopen
    exact h.opens.sameOpen fun s hs => hs ▸ hopen

theorem Shows.filesysOpen_sameOpen_iff (h : fs.Shows t) (hcwd : t.IsDirectory cwd)
    (ho : fs.filesysOpen cwd path = some (file, fs')) :
    SameOpen fs fs' ↔ fs.Reopens t cwd path := by
  unfold Reopens
  by_cases hne : path = []
  · subst hne
    obtain ⟨dir, i, fs1, hopen, hopn, -⟩ := h.inodeOpen (isSome_of_isDirectory hcwd)
    simp only [FileSys.filesysOpen, hopen, bind_eq_bind, bind_some, some.injEq, Prod.mk.injEq] at ho
    rw [← ho.2, hopn.sameOpen_iff h.tidy]
    simp [passed]
  obtain ⟨dir, i, fs1, fs2, file', hopn, hvis, heq, -⟩ := h.filesysOpen_steps hcwd hne
  obtain ⟨n, fs3, hn, hheap, hcls, hheap'⟩ := h.tidy.inodeClose hopn hvis.toOpens
  rw [heq, hcls] at ho
  obtain ⟨-, rfl⟩ := ho
  refine ⟨fun hsame => ⟨fun hnil => absurd hnil hne, fun s hs => ?_⟩, fun hreo => ?_⟩
  · obtain ⟨q, j, hq, rfl, hlt⟩ := hvis.gained s hs
    obtain ⟨k, hk, -⟩ := live_of_close hopn hheap hheap' hq hlt
    obtain ⟨l, hl⟩ := isSome_iff_exists.mp ((hsame q).symm.trans (by rw [hk]; rfl))
    obtain ⟨m, -, hl1⟩ := hopn.opens.kept q l hl
    obtain ⟨m', -, hl2⟩ := hvis.kept q _ hl1
    cases mem_unique hq hl2
    exact h.tidy.isSome_findOpen hl rfl
  · have hall := hreo.2
    have hmid : SameOpen fs1 fs2 := hvis.toOpens.sameOpen fun s hs =>
      hopn.opens.grown.findOpen hopn.opens.tidy (hall s hs)
    rcases hopn.before with ⟨j, hj, rfl⟩ | ⟨hnone, hout, hone, -⟩
    · have hpos := h.tidy.counted dir j hj
      rw [if_neg (by simp only at hn; omega)] at hheap'
      exact (((hopn.sameOpen_iff h.tidy).mpr (h.tidy.isSome_findOpen hj hopn.sector)).trans
        hmid).trans (sameOpen_update hheap hheap')
    · -- the start was not open, so that nothing else on the way was the start
      have hstart : fs2.heap dir = some i := hvis.same dir i hopn.heap fun hs => by
        simpa [hopn.sector, hout] using hall _ hs
      have hcnt : n = i.openCnt := congrArg Inode.openCnt (mem_unique hheap hstart)
      rw [if_pos (hcnt.trans hone)] at hheap'
      intro q
      rw [hheap', update_apply]
      split_ifs with hq
      · rw [hq, hnone]
      · rw [hmid q, hopn.other q hq]

/-- The parent of the path has `Q`, if it can be opened. -/
abbrev EveryParent (t : Tree) (cwd : ℕ) (path : CString) (Q : ℕ → Prop) : Prop :=
  ∀ parentName name ps, splitPathParentName path = some (parentName, name) →
    t.opened cwd parentName = some ps → Q ps

/-- `filesys_open` reopens the inodes on the path of the parent. -/
abbrev ReopensParent (fs : FileSys) (t : Tree) (cwd : ℕ) (path : CString) : Prop :=
  ∀ parentName name, splitPathParentName path = some (parentName, name) →
    fs.Reopens t cwd parentName

theorem free_of_directoryLock (hp : fs.heap p = some i) (hl : fs.directoryLock tid p = some fs') :
    i.dirLock = none ∨ i.dirLock = some tid := by
  unfold directoryLock at hl
  rw [hp, bind_eq_bind, bind_some] at hl
  cases hd : i.dirLock with
  | none => exact .inl rfl
  | some holder =>
    rw [hd] at hl
    dsimp only at hl
    split_ifs at hl with he
    rw [he]
    exact .inr rfl

theorem directoryLock_eq_some (hp : fs.heap p = some i) (hl : fs.directoryLock tid p = some fs') :
    fs' = fs.setInode p { i with dirLock := some tid } := by
  rw [directoryLock_eq hp (free_of_directoryLock hp hl)] at hl
  exact (some.inj hl).symm

theorem Backed.lockParent {tid : ℕ} (h : fs.Backed M σ P) (hp : fs.heap p = some i) :
    (fs.setInode p { i with openCnt := i.openCnt + 1, dirLock := some tid }).Backed M σ P ∧
      Shifted fs (fs.setInode p { i with openCnt := i.openCnt + 1, dirLock := some tid }) :=
  ⟨h.setInode hp rfl rfl (Nat.succ_pos _), shifted_setInode hp (Nat.le_succ _) _⟩

theorem not_mem_of_split (hsplit : splitPathParentName path = some (parentName, name))
    (hzero : 0 ∉ path) : 0 ∉ name := fun hmem => hzero (by
  rcases (splitPathParentName_spec hsplit).2 with ⟨-, rfl⟩ | ⟨-, rfl⟩ | ⟨-, rfl⟩ <;> simp [hmem])

section
variable (h : fs.Backed M σ P) (hl : WellLinked σ) (hcwd : (treeOf σ).IsDirectory cwd)
include h hl hcwd

/-- What `filesys_create` has done below a directory, if it returns: nothing but openings, or what
`Creates` says after the parent has been opened and locked. -/
theorem Backed.filesysCreate_eq_some (hzero : 0 ∉ path) (hsize : size < 2 ^ 31)
    (hlnk : ok = true → isDirectory = true → size = MAX_FILES_PER_DIR * SIZE)
    (hparent : EveryParent (treeOf σ) cwd path (treeOf σ).IsDirectory)
    (hc : fs.filesysCreate tid cwd path size isDirectory = some (ok, fs')) :
    (ok = false ∧ fs'.Backed M σ P ∧ Shifted fs fs' ∧ (∀ q, fs'.holder q = fs.holder q) ∧
      (SameOpen fs fs' ↔ fs.ReopensParent (treeOf σ) cwd path) ∧
      EveryParent (treeOf σ) cwd path fun ps => ¬ fs.Unremoved ps) ∨
    ∃ parentName name p i f fs1 σ' P', splitPathParentName path = some (parentName, name) ∧
      (treeOf σ).opened cwd parentName = some i.sector ∧ Shifted fs fs1 ∧
      (∀ q, q ≠ p → fs1.holder q = fs.holder q) ∧
      fs1.Backed M σ P ∧ fs1.heap p = some i ∧ i.removed = false ∧ 1 < i.openCnt ∧
      σ i.sector = some f ∧ f.isDirectory = true ∧ fs'.Backed M σ' P' ∧ WellLinked σ' ∧
      Creates fs1 σ p i f name size isDirectory ok fs' σ' ∧ i.dirLock = some tid ∧
      fs1.createIn tid p name size isDirectory = some (ok, fs') ∧
      (SameOpen fs fs1 ↔ fs.ReopensParent (treeOf σ) cwd path) := by
  unfold filesysCreate at hc
  cases hsplit : splitPathParentName path with
  | none =>
    rw [hsplit] at hc
    obtain ⟨rfl, rfl⟩ := hc
    exact .inl ⟨rfl, h, .refl h.tidy, fun _ => rfl, iff_of_true (fun _ => rfl)
      (by simp [ReopensParent, hsplit]), by simp [EveryParent, hsplit]⟩
  | some names =>
    obtain ⟨parentName, name⟩ := names
    obtain ⟨file, fs1, hopen, h1, hgrw, hfnd⟩ := h.filesysOpen hl hcwd parentName
    have hsame : SameOpen fs fs1 ↔ fs.ReopensParent (treeOf σ) cwd path := by
      rw [(h.shows hl).filesysOpen_sameOpen_iff hcwd hopen]
      simp [ReopensParent, hsplit]
    simp only [hsplit, hopen, bind_eq_bind] at hc
    cases file with
    | none =>
      obtain ⟨rfl, rfl⟩ := hc
      refine .inl ⟨rfl, h1, hgrw.shifted, hgrw.holder_eq, hsame, fun _ _ _ hs hps => ?_⟩
      cases hsplit.symm.trans hs
      unfold Finds at hfnd
      rw [hps] at hfnd
      obtain ⟨q, hq, -⟩ := hfnd
      cases hq
    | some p =>
      cases hp : fs1.heap p with
      | none =>
        unfold FileSys.inodeReopen at hc
        simp [hp] at hc
      | some i =>
        simp only [inodeReopen_eq h1.tidy hp, bind_some] at hc
        rw [show (fs1.setInode p { i with openCnt := i.openCnt + 1 }).heap p =
          some { i with openCnt := i.openCnt + 1 } from update_self ..,
          bind_some] at hc
        have hopn := hfnd.opened_eq hp
        split_ifs at hc with hremoved
        · obtain ⟨rfl, rfl⟩ := hc
          refine .inl ⟨rfl, h1.setInode hp rfl rfl (Nat.succ_pos _),
            hgrw.shifted.trans (shifted_setInode hp (Nat.le_succ _) i.dirLock),
            (hgrw.trans (h1.tidy.reopen hp).opens.grown).holder_eq,
            (sameOpen_iff_update hp rfl).trans hsame, fun _ _ _ hs hps hun => ?_⟩
          cases hsplit.symm.trans hs
          cases mem_unique hopn hps
          have hkept := hgrw.unremoved hun p i hp rfl
          rw [hkept] at hremoved
          cases hremoved
        obtain ⟨fs2, hlock, hc⟩ := bind_eq_some_iff.mp hc
        cases directoryLock_eq_some (update_self ..) hlock
        rw [setInode_setInode] at hc
        obtain ⟨h2, hshf⟩ := @Backed.lockParent _ _ _ _ _ _ tid h1 hp
        obtain ⟨f, hf, hd⟩ := isDirectory_treeOf.mp (hparent parentName name i.sector hsplit hopn)
        obtain ⟨σ', P', h', hl', hcre⟩ := h2.createIn_eq_some hl (update_self ..) hf hd
          (Nat.lt_succ_of_le (h1.tidy.counted p i hp)) rfl (splitPathParentName_spec hsplit).1
          (not_mem_of_split hsplit hzero) hsize hlnk hc
        exact .inr ⟨parentName, name, p,
          { i with openCnt := i.openCnt + 1, dirLock := some tid }, f, _, σ', P', rfl, hopn,
          hgrw.shifted.trans hshf,
          fun q hq => (holder_setInode_of_ne hq).trans (hgrw.holder_eq q), h2,
          update_self .., by simpa using hremoved,
          Nat.lt_succ_of_le (h1.tidy.counted p i hp), hf, hd, h', hl', hcre, rfl, hc,
          (sameOpen_iff_update hp rfl).trans hsame⟩

section
variable (hroot : fs.Rooted path) (hsplit : splitPathParentName path = some (parentName, name))
  (hparent : (treeOf σ).opened cwd parentName = some ps) (hlock : fs.CanLock tid ps)
  (hremoved : fs.Unremoved ps)
include hroot hsplit hparent hlock hremoved

/-- `filesys_create` below a directory that is not removed: it is opened and locked. -/
theorem Backed.filesysCreate_parent : ∃ fs1 p i, Grown fs fs1 ∧ fs1.heap p = some i ∧
    i.sector = ps ∧ 0 < i.openCnt ∧
    (fs1.setInode p { i with openCnt := i.openCnt + 1, dirLock := some tid }).Backed M σ P ∧
    ∀ size isDirectory, fs.filesysCreate tid cwd path size isDirectory =
      (fs1.setInode p { i with openCnt := i.openCnt + 1, dirLock := some tid }).createIn tid p name
        size isDirectory := by
  obtain ⟨p, i, fs1, hopen, h1, hgrw, hp, rfl⟩ :=
    h.filesysOpen_live hl hcwd (hroot.parent hsplit) hparent
  refine ⟨fs1, p, i, hgrw, hp, rfl, h1.tidy.counted p i hp, (h1.lockParent hp).1, fun _ _ => ?_⟩
  unfold filesysCreate
  simp only [hsplit, hopen, inodeReopen_eq h1.tidy hp, setInode_heap, bind_eq_bind, bind_some]
  rw [if_neg (by simp [hgrw.unremoved hremoved p i hp rfl])]
  simp [directoryLock_eq (setInode_heap fs1 p { i with openCnt := i.openCnt + 1 })
    (hgrw.canLock hlock p i hp rfl), setInode_setInode]

/-- `filesys_create` of a name that is there already. -/
theorem Backed.filesysCreate_found (hf : σ ps = some f) (hd : f.isDirectory = true)
    (hfou : name = [] ∨ (slotOf f.bytes name).isSome) :
    ∃ fs' p i, fs.filesysCreate tid cwd path size isDirectory = some (false, fs') ∧
      fs'.Backed M σ P ∧ Shifted fs fs' ∧ fs'.heap p = some i ∧ i.sector = ps ∧
      i.dirLock = some tid := by
  obtain ⟨fs1, p, i, hgrw, hp, rfl, -, h2, heq⟩ :=
    h.filesysCreate_parent hl hcwd hroot hsplit hparent hlock hremoved
  obtain ⟨fs', hcrt, h', hope, -⟩ := h2.createIn_found hl (update_self ..) hf hd
    (splitPathParentName_spec hsplit).1 hfou tid size isDirectory
  obtain ⟨n, -, hp'⟩ := hope.kept p _ (update_self ..)
  exact ⟨fs', p, _, (heq _ _).trans hcrt, h', (hgrw.shifted.trans
    (shifted_setInode hp (Nat.le_succ _) _)).trans hope.grown.shifted, hp', rfl, rfl⟩

/-- `filesys_create` of a new name, with enough space. -/
theorem Backed.filesysCreate (hdeny : fs.Undenied) (hzero : 0 ∉ path) (hf : σ ps = some f)
    (hc : Creatable f name size isDirectory fs.vol.freeSectors.length) :
    ∃ a fs1 fs' P' p i data, σ a = none ∧
      fs.filesysCreate tid cwd path size isDirectory = some (true, fs') ∧
      fs'.Backed M (σ.addFile ps a name size isDirectory) P' ∧
      WellLinked (σ.addFile ps a name size isDirectory) ∧
      Grown fs fs1 ∧ fs1.heap p = some i ∧ i.sector = ps ∧
      fs'.heap = update fs1.heap p
        (some { i with data, fileCount := i.fileCount + 1, dirLock := none }) := by
  obtain ⟨fs1, p, i, hgrw, hp, rfl, hpos, h2, heq⟩ :=
    h.filesysCreate_parent hl hcwd hroot hsplit hparent hlock hremoved
  have hbound := hc.bounded
  rw [MAX_LENGTH_eq] at hbound
  obtain ⟨σ', fs', P', hcrt, h', hl', hcre⟩ := h2.createIn hl (update_self ..) hf
    hc.directory (Nat.lt_succ_of_le hpos) rfl (splitPathParentName_spec hsplit).1
    (not_mem_of_split hsplit hzero) (by omega) (hgrw.undenied hdeny p i hp)
    (show Creatable f name size isDirectory fs1.vol.freeSectors.length from hgrw.free ▸ hc)
  cases hcre with
  | @created _ data a _ _ hfrs _ hheap =>
    exact ⟨a, fs1, fs', P', p, i, data, hfrs, (heq _ _).trans hcrt, h', hl', hgrw, hp, rfl,
      hheap.trans (update_idem _ _ _)⟩

end

end

end FileSys

end Pintos
