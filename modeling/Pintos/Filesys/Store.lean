import Pintos.Filesys.MaxLength
import Pintos.Filesys.Paths

/-! # The store of files

The files of a file system are byte arrays, each known by the sector of its inode (`Store`).
`Stores fs M σ P`: the volume and the open inodes make up the files `σ`, where file `s` lies in the
place `P s`; no sector belongs to two files, and none of them is in `M`, the free map file.

Opening and closing keep the store, a write changes one file, and a creation adds one. -/

namespace Pintos
open Bytes Walks Disk Function Option List Volume

/-- A file as its users see it. -/
structure FileImage where
  isDirectory : Bool
  bytes : List UInt8

abbrev Store := ℕ → Option FileImage

/-- Where a file lies: its inode, and its tables and data sectors. -/
structure Place where
  data : InodeDisk
  layout : Layout

/-- All sectors of a file but the one of its inode. -/
def Place.owned (P : Place) : List ℕ := P.layout.owned P.data.doubleIndirect

namespace FileSys

/-- The file `f` with its inode in sector `s`.  The inode on the device may have an old length. -/
structure Stored (fs : FileSys) (M : List ℕ) (s : ℕ) (f : FileImage) (P : Place) : Prop where
  inode : fs.inodeData s = some P.data
  device : ∃ length, (fs.vol.inodeOpen s).map Inode.data = some { P.data with length := length }
  isDirectory : P.data.isDirectory = f.isDirectory
  length : P.data.length = f.bytes.length
  fileOf : fs.vol.File M P.data P.layout (region f.bytes)
  marked : fs.vol.freeMap s = true
  lt_size : s < fs.vol.disk.size
  apart : s ∉ M

structure Stores (fs : FileSys) (M : List ℕ) (σ : Store) (P : ℕ → Place) : Prop where
  tidy : fs.Tidy
  sound : fs.vol.Sound M
  known : ∀ p i, fs.heap p = some i → (σ i.sector).isSome
  stored : ∀ s f, σ s = some f → fs.Stored M s f (P s)
  inodes_apart : ∀ s s', (σ s).isSome → (σ s').isSome → s ∉ (P s').owned
  files_apart : ∀ s s', (σ s).isSome → (σ s').isSome → s ≠ s' → ∀ x ∈ (P s).owned, x ∉ (P s').owned

variable {fs fs' : FileSys} {M : List ℕ} {σ : Store} {P : ℕ → Place} {p s : ℕ} {i i' : Inode}
  {f f' : FileImage} {v : Volume}

theorem inodeData_congr (hfind : fs'.findOpen s = fs.findOpen s)
    (hheap : ∀ q, fs.findOpen s = some q → fs'.heap q = fs.heap q)
    (hvol : fs'.vol.inodeOpen s = fs.vol.inodeOpen s) : fs'.inodeData s = fs.inodeData s := by
  unfold inodeData
  rw [hfind, hvol]
  cases hf : fs.findOpen s with
  | none => rfl
  | some q => simp [hheap q hf]

theorem Stores.device_of_closed (h : fs.Stores M σ P) (hf : σ s = some f)
    (hclo : fs.findOpen s = none) : (fs.vol.inodeOpen s).map Inode.data = some (P s).data := by
  have hino := (h.stored s f hf).inode
  unfold inodeData at hino
  rwa [hclo] at hino

theorem Stores.open_inode (h : fs.Stores M σ P) (hp : fs.heap p = some i) :
    ∃ f, σ i.sector = some f ∧ fs.Stored M i.sector f (P i.sector) ∧ (P i.sector).data = i.data := by
  obtain ⟨f, hf⟩ := isSome_iff_exists.mp (h.known p i hp)
  have hst := h.stored _ f hf
  refine ⟨f, hf, hst, ?_⟩
  have hdata := h.tidy.inodeData hp
  rw [hst.inode] at hdata
  exact some.inj hdata

theorem Stores.open_file (h : fs.Stores M σ P) (hp : fs.heap p = some i)
    (hf : σ i.sector = some f) : fs.vol.File M i.data (P i.sector).layout (region f.bytes) ∧
      i.data.length = f.bytes.length ∧ i.data.isDirectory = f.isDirectory := by
  obtain ⟨f0, hσ, hst, hdata⟩ := h.open_inode hp
  cases mem_unique hσ hf
  rw [← hdata]
  exact ⟨hst.fileOf, hst.length, hst.isDirectory⟩

theorem Stores.opens {S : ℕ → Prop} (h : fs.Stores M σ P) (ho : Opens S fs fs')
    (hS : ∀ s, S s → (σ s).isSome) : fs'.Stores M σ P where
  tidy := ho.tidy
  sound := ho.vol ▸ h.sound
  known := fun p i hp => by
    cases hp' : fs.heap p with
    | none => exact hS _ (ho.new p i hp hp').1
    | some j =>
      obtain ⟨n, -, hp''⟩ := ho.kept p j hp'
      cases mem_unique hp hp''
      exact h.known p j hp'
  stored := fun s f hf => by
    have hst := h.stored s f hf
    exact ⟨(ho.data s).trans hst.inode, ho.vol ▸ hst.device, hst.isDirectory, hst.length,
      ho.vol ▸ hst.fileOf,
      ho.vol ▸ hst.marked, ho.vol ▸ hst.lt_size, hst.apart⟩
  inodes_apart := h.inodes_apart
  files_apart := h.files_apart

/-! ### Changing one file -/

section
variable (h : fs.Stores M σ P) (hp : fs.heap p = some i)
include h hp

/-- The inode and the file behind `p` may change, as long as the volume spares the other files. -/
theorem Stores.update {L' : Layout} (hs : i'.sector = i.sector) (hc : 0 < i'.openCnt)
    (hv : v.Sound M) (hsame : i'.data = { i.data with length := i'.data.length })
    (hk : Keeps M i.data.doubleIndirect (P i.sector).layout L' fs.vol v)
    (hdir : i'.data.isDirectory = f'.isDirectory) (hlen : i'.data.length = f'.bytes.length)
    (hf : v.File M i'.data L' (region f'.bytes)) :
    Stores { fs.setInode p i' with vol := v } M (Function.update σ i.sector (some f'))
      (Function.update P i.sector ⟨i'.data, L'⟩) := by
  obtain ⟨f, hσ, hst, hdata⟩ := h.open_inode hp
  have hdbl : i'.data.doubleIndirect = i.data.doubleIndirect := by rw [hsame]
  have htidy : Tidy { fs.setInode p i' with vol := v } := by
    have ht := h.tidy.setInode hp hs hc hf.holds.magic
    exact { ht with }
  have howe : (P i.sector).owned = (P i.sector).layout.owned i.data.doubleIndirect := by
    unfold Place.owned
    rw [hdata]
  have hsome : ∀ s, (Function.update σ i.sector (some f') s).isSome ↔ (σ s).isSome := by
    intro s
    by_cases hsi : s = i.sector
    · subst hsi
      simp [hσ]
    · rw [update_of_ne hsi]
  -- what is marked and not in the file before is not in the file afterwards
  have hnot : ∀ x, fs.vol.freeMap x = true → x ∉ (P i.sector).owned →
      x ∉ (Function.update P i.sector ⟨i'.data, L'⟩ i.sector).owned := by
    intro x hx hxo
    rw [update_self]
    show x ∉ L'.owned i'.data.doubleIndirect
    rw [hdbl]
    exact hk.owned x hx (howe ▸ hxo)
  have hmrk : ∀ s, (σ s).isSome → fs.vol.freeMap s = true ∧
      ∀ x ∈ (P s).owned, fs.vol.freeMap x = true := by
    intro s hs
    obtain ⟨g, hg⟩ := isSome_iff_exists.mp hs
    exact ⟨(h.stored s g hg).marked, (h.stored s g hg).fileOf.marked⟩
  refine ⟨htidy, hv, ?_, ?_, ?_, ?_⟩
  · intro q j hq
    rw [hsome]
    simp only [setInode, update_apply] at hq
    split_ifs at hq with hqp
    · cases hq
      rw [hs, hσ]
      rfl
    · exact h.known q j hq
  · intro s g hg
    by_cases hsi : s = i.sector
    · subst hsi
      rw [update_self, some.injEq] at hg
      subst hg
      rw [update_self]
      refine ⟨?_, ?_, hdir, hlen, hf, hk.map _ hst.marked, hk.size.symm ▸ hst.lt_size, hst.apart⟩
      swap
      · obtain ⟨length, hdvc⟩ := hst.device
        refine ⟨length, ?_⟩
        rw [hk.toSpares.inodeOpen hst.marked hst.apart
          (howe ▸ h.inodes_apart _ _ (by simp [hσ]) (by simp [hσ])), hdvc, hdata, hsame]
      have hself : (FileSys.mk v (fs.setInode p i').heap fs.openInodes fs.next).heap p = some i' :=
        update_self ..
      have hd := htidy.inodeData hself
      rwa [hs] at hd
    · rw [update_of_ne hsi] at hg
      rw [update_of_ne hsi]
      have hst' := h.stored s g hg
      have hout := howe ▸ h.inodes_apart s i.sector (by simp [hg]) (by simp [hσ])
      have hote := howe ▸ h.files_apart s i.sector (by simp [hg]) (by simp [hσ]) hsi
      have hopen := hk.toSpares.inodeOpen hst'.marked hst'.apart hout
      refine ⟨?_, hopen ▸ hst'.device, hst'.isDirectory, hst'.length,
        hst'.fileOf.spares hk.toSpares hote, hk.map _ hst'.marked, hk.size.symm ▸ hst'.lt_size,
        hst'.apart⟩
      refine (@inodeData_congr fs { fs.setInode p i' with vol := v } s
        (findOpen_setInode hp hs s) (fun q hq => ?_) hopen).trans hst'.inode
      obtain ⟨-, j, hj, hjs⟩ := findOpen_eq_some hq
      have hqp : q ≠ p := fun he => hsi (by
        rw [he, hp] at hj
        rw [← hjs, some.inj hj])
      exact update_of_ne hqp ..
  · intro s s' hs1 hs2
    rw [hsome] at hs1 hs2
    have hout := h.inodes_apart s s' hs1 hs2
    by_cases hsi : s' = i.sector
    · subst hsi
      exact hnot s (hmrk s hs1).1 hout
    · rwa [update_of_ne hsi]
  · intro s s' hs1 hs2 hne x hx
    rw [hsome] at hs1 hs2
    by_cases hsi : s = i.sector
    · subst hsi
      rw [update_of_ne hne.symm]
      exact fun hx' => hnot x ((hmrk s' hs2).2 x hx')
        (fun hx'' => h.files_apart _ s' hs1 hs2 hne x hx'' hx') hx
    · rw [update_of_ne hsi] at hx
      by_cases hsi' : s' = i.sector
      · subst hsi'
        exact hnot x ((hmrk s hs1).2 x hx) (h.files_apart s _ hs1 hs2 hne x hx)
      · rw [update_of_ne hsi']
        exact h.files_apart s s' hs1 hs2 hne x hx

theorem Stores.setInode (hs : i'.sector = i.sector) (hd : i'.data = i.data) (hc : 0 < i'.openCnt) :
    (fs.setInode p i').Stores M σ P := by
  obtain ⟨f, hσ, hst, hdata⟩ := h.open_inode hp
  have hfile := hst.fileOf
  have hdir := hst.isDirectory
  have hlen := hst.length
  rw [hdata] at hfile hdir hlen
  have hu := @Stores.update fs M σ P p i i' f fs.vol h hp (P i.sector).layout hs hc h.sound
    (by rw [hd]) (.refl _ _ _ _) (by rw [hd, hdir])
    (by rw [hd, hlen]) (by rw [hd]; exact hfile)
  have hP : (⟨i'.data, (P i.sector).layout⟩ : Place) = P i.sector := by rw [hd, ← hdata]
  rw [← hσ, update_eq_self, hP, update_eq_self] at hu
  exact hu

/-- `inode_write_at` through an open inode. -/
theorem Stores.inodeWriteAt (hf : σ i.sector = some f) {buf : List UInt8} {offset : ℕ}
    (hdeny : i.denyWriteCnt = 0) (hmax : offset + buf.length ≤ MAX_LENGTH)
    (hspc : sectorsFor (max f.bytes.length (offset + buf.length)) - sectorsFor f.bytes.length ≤
      fs.vol.freeSectors.length) :
    ∃ v P', fs.inodeWriteAt p buf offset = some (buf.length, { fs.setInode p { i with data :=
        { i.data with length := max f.bytes.length (offset + buf.length) } } with vol := v }) ∧
      Stores { fs.setInode p { i with data :=
        { i.data with length := max f.bytes.length (offset + buf.length) } } with vol := v } M
        (Function.update σ i.sector (some { f with bytes := write f.bytes offset buf })) P' ∧
      (offset + buf.length ≤ f.bytes.length → v.freeSectors = fs.vol.freeSectors) ∧
      ∀ s, (σ s).isSome → v.inodeOpen s = fs.vol.inodeOpen s := by
  obtain ⟨f0, hσ, hst, hdata⟩ := h.open_inode hp
  cases mem_unique hσ hf
  have hfile := hst.fileOf
  have hlen := hst.length
  have hdir := hst.isDirectory
  rw [hdata] at hfile hlen hdir
  rw [← hlen] at hspc ⊢
  obtain ⟨v, L', _, hw, rfl, hs, hf', hk, hmap⟩ := hfile.inodeWriteAt h.sound hdeny hmax hspc
  refine ⟨v, _, ?_, h.update hp rfl (h.tidy.counted p i hp) hs rfl hk hdir ?_ ?_, fun hle => ?_,
    fun s hs => ?_⟩
  · unfold FileSys.inodeWriteAt
    simp [hp, hw]
  · rw [length_write, ← hlen]
  · rw [region_write]
    exact hf'
  · unfold freeSectors
    rw [hmap hle, hk.size]
  · obtain ⟨g, hg⟩ := isSome_iff_exists.mp hs
    have hout := h.inodes_apart s i.sector hs (by simp [hf])
    unfold Place.owned at hout
    rw [hdata] at hout
    exact hk.toSpares.inodeOpen (h.stored s g hg).marked (h.stored s g hg).apart hout

theorem Stores.mirrored_inodeWriteAt (hm : fs.vol.Mirrored M) (hoff : offset < 2 ^ 31)
    (hw : fs.inodeWriteAt p buf offset = some (n, fs')) : fs'.vol.Mirrored M := by
  obtain ⟨f, -, hst, hdata⟩ := h.open_inode hp
  have hfile := hst.fileOf
  rw [hdata] at hfile
  simp only [FileSys.inodeWriteAt, hp, bind_eq_bind, bind_some, bind_eq_some_iff] at hw
  obtain ⟨⟨n', v, i'⟩, hw, -, rfl⟩ := hw
  exact hfile.mirrored_inodeWriteAt h.sound hm hoff hw

end

/-! ### Closing -/

theorem of_update_none {heap : ℕ → Option Inode}
    (h : update heap p none q = some j) : q ≠ p ∧ heap q = some j := by
  rw [update_apply] at h
  split_ifs at h with hqp
  exact ⟨hqp, h⟩

theorem Tidy.erase (h : fs.Tidy) (p : ℕ) (v : Volume) : Tidy { fs with
    vol := v, heap := update fs.heap p none, openInodes := fs.openInodes.erase p } where
  nodup := h.nodup.erase p
  live := fun q hq => by
    obtain ⟨hqp, hq⟩ := h.nodup.mem_erase_iff.mp hq
    show (update fs.heap p none q).isSome
    rw [update_of_ne hqp]
    exact h.live q hq
  listed := fun q j hq => h.nodup.mem_erase_iff.mpr
    ⟨(of_update_none hq).1, h.listed q j (of_update_none hq).2⟩
  old := fun q j hq => h.old q j (of_update_none hq).2
  counted := fun q j hq => h.counted q j (of_update_none hq).2
  magic := fun q j hq => h.magic q j (of_update_none hq).2
  distinct := fun q r j k hq hr =>
    h.distinct q r j k (of_update_none hq).2 (of_update_none hr).2

section
variable (h : fs.Stores M σ P) (hp : fs.heap p = some i)
include h hp

/-- Writing an inode back to its sector. -/
theorem Stores.close_last : Stores { fs with
    vol := { fs.vol with disk := fs.vol.disk.put i.sector i.data.bytes 0 }
    heap := Function.update fs.heap p none
    openInodes := fs.openInodes.erase p } M σ P := by
  obtain ⟨f, hσ, hst, hdata⟩ := h.open_inode hp
  have hsame : SameOutside [i.sector] fs.vol.disk (fs.vol.disk.put i.sector i.data.bytes 0) :=
    sameOutside_put mem_cons_self
  have htidy := h.tidy.erase p { fs.vol with disk := fs.vol.disk.put i.sector i.data.bytes 0 }
  have hote : ∀ q j, fs.heap q = some j → q ≠ p →
      Function.update fs.heap p none q = some j := fun q j hq hqp =>
    (update_of_ne hqp ..).trans hq
  refine ⟨htidy, ?_, fun q j hq => ?_, fun s g hg => ?_, h.inodes_apart, h.files_apart⟩
  · exact h.sound.mono hsame (by simpa using hst.apart) rfl fun _ hs _ => hs
  · exact h.known q j (of_update_none hq).2
  · have hst' := h.stored s g hg
    have hout : i.sector ∉ (P s).layout.owned (P s).data.doubleIndirect :=
      h.inodes_apart i.sector s (by simp [hσ]) (by simp [hg])
    have hfile : Volume.File { fs.vol with disk := fs.vol.disk.put i.sector i.data.bytes 0 } M
        (P s).data (P s).layout (region g.bytes) :=
      hst'.fileOf.mono hsame (by simpa using hout) hst'.fileOf.marked
    by_cases hsi : s = i.sector
    · subst hsi
      have hnone : FileSys.findOpen { fs with
          vol := { fs.vol with disk := fs.vol.disk.put i.sector i.data.bytes 0 }
          heap := Function.update fs.heap p none
          openInodes := fs.openInodes.erase p } i.sector = none := by
        rw [findOpen_eq_none htidy]
        intro q j hq hs
        obtain ⟨hqp, hq⟩ := of_update_none hq
        exact hqp (h.tidy.distinct q p j i hq hp hs)
      have hbound := hst.fileOf.holds.bound
      have hdbl := hst.fileOf.holds.valid.lt_size _ Layout.double_mem
      have hdisk := h.sound.size
      have hmgc := hst.fileOf.holds.magic
      rw [hdata] at hbound hdbl hmgc
      rw [MAX_LENGTH_eq] at hbound
      have hback := @ofBytes_bytes (fs.vol.disk.block i.sector) i.data (by omega)
        (hdbl.trans hdisk) (by rw [hmgc]; decide)
      have hread : Disk.cacheRead (fs.vol.disk.put i.sector i.data.bytes 0) i.sector
          BLOCK_SECTOR_SIZE 0 = some (slice (overwrite (fs.vol.disk.block i.sector) 0
            i.data.bytes) 0 BLOCK_SECTOR_SIZE) := by
        rw [cacheRead_eq (show i.sector < (fs.vol.disk.put i.sector i.data.bytes 0).size from
          hst.lt_size) le_rfl, put_block_self]
      have hopen : (Volume.inodeOpen { fs.vol with disk := fs.vol.disk.put i.sector i.data.bytes 0 }
          i.sector).map Inode.data = some (P i.sector).data := by
        simp [Volume.inodeOpen, hread, hback, hmgc, hdata]
      refine ⟨?_, ⟨_, hopen⟩, hst'.isDirectory, hst'.length, hfile, hst'.marked, hst'.lt_size,
        hst'.apart⟩
      unfold inodeData
      rw [hnone]
      exact hopen
    · have hopen : Volume.inodeOpen { fs.vol with disk := fs.vol.disk.put i.sector i.data.bytes 0 }
          s = fs.vol.inodeOpen s := by
        unfold Volume.inodeOpen Disk.cacheRead
        rw [hsame.1, hsame.2 s (by simpa using hsi)]
      refine ⟨?_, hopen ▸ hst'.device, hst'.isDirectory, hst'.length, hfile, hst'.marked,
        hst'.lt_size, hst'.apart⟩
      refine (@inodeData_congr fs _ s ?_ (fun q hq => ?_) hopen).trans hst'.inode
      · cases hf : fs.findOpen s with
        | none =>
          rw [findOpen_eq_none htidy]
          intro q j hq
          exact (findOpen_eq_none h.tidy).mp hf q j (of_update_none hq).2
        | some q =>
          obtain ⟨-, j, hj, rfl⟩ := findOpen_eq_some hf
          exact htidy.findOpen (hote q j hj fun he => hsi (by
            rw [he, hp] at hj
            rw [some.inj hj]))
      · obtain ⟨-, j, hj, rfl⟩ := findOpen_eq_some hq
        exact (hote q j hj fun he => hsi (by
          rw [he, hp] at hj
          rw [some.inj hj])).trans hj.symm

/-- `inode_close` of an inode that is not removed, or that others have open as well. -/
theorem Stores.inodeClose (hr : i.openCnt = 1 → i.removed = false) :
    ∃ fs', fs.inodeClose p = some fs' ∧ fs'.Stores M σ P ∧
      fs'.heap = Function.update fs.heap p
        (if i.openCnt = 1 then none else some { i with openCnt := i.openCnt - 1 }) ∧
      fs'.vol.freeSectors = fs.vol.freeSectors := by
  by_cases hc : i.openCnt = 1
  · obtain ⟨f, hσ, hst, -⟩ := h.open_inode hp
    exact ⟨_, inodeClose_last h.tidy hp hc (hr hc) hst.lt_size, h.close_last hp,
      by rw [if_pos hc], rfl⟩
  · have hpos := h.tidy.counted p i hp
    refine ⟨_, inodeClose_shared h.tidy hp hc, h.setInode hp rfl rfl ?_, by rw [if_neg hc]; rfl, rfl⟩
    show 0 < i.openCnt - 1
    omega

theorem Stores.mirrored_inodeClose
    (hzero : i.sector ≠ FREE_MAP_SECTOR) (hr : i.openCnt = 1 → i.removed = false)
    (hm : fs.vol.Mirrored M) (hc : fs.inodeClose p = some fs') : fs'.vol.Mirrored M := by
  by_cases hone : i.openCnt = 1
  · obtain ⟨f, -, hst, -⟩ := h.open_inode hp
    rw [inodeClose_last h.tidy hp hone (hr hone) hst.lt_size] at hc
    cases hc
    refine hm.mono (sameOutside_put (l := [i.sector]) mem_cons_self) (fun s hs => ?_) rfl rfl
    rw [mem_singleton.mp hs]
    exact ⟨hzero, hst.apart⟩
  · rw [inodeClose_shared h.tidy hp hone] at hc
    cases hc
    exact hm

end

/-! ### Creating -/

theorem Stores.leaves (h : fs.Stores M σ P) (hv : v.Sound M) (hs : Leaves M l fs.vol v)
    (hl : ∀ x ∈ l, σ x = none ∧ ∀ s, (σ s).isSome → x ∉ (P s).owned) :
    Stores { fs with vol := v } M σ P where
  tidy := ⟨h.tidy.nodup, h.tidy.live, h.tidy.listed, h.tidy.old, h.tidy.counted, h.tidy.magic,
    h.tidy.distinct⟩
  sound := hv
  known := h.known
  stored := fun s f hf => by
    have hst := h.stored s f hf
    have hout : s ∉ l := fun hsl => by
      rw [(hl s hsl).1] at hf
      cases hf
    have hfile : ∀ x ∈ (P s).owned, x ∉ l := fun x hx hxl => (hl x hxl).2 s (by simp [hf]) hx
    have hopen := hs.inodeOpen hst.marked hst.apart hout
    refine ⟨?_, hopen ▸ hst.device, hst.isDirectory, hst.length, hst.fileOf.leaves hs hfile,
      hs.map s hst.marked hout, hs.size.symm ▸ hst.lt_size, hst.apart⟩
    exact (@inodeData_congr fs { fs with vol := v } s rfl (fun _ _ => rfl) hopen).trans hst.inode
  inodes_apart := h.inodes_apart
  files_apart := h.files_apart

/-- A sector that is marked but belongs to nobody. -/
structure Unused (fs : FileSys) (M : List ℕ) (σ : Store) (P : ℕ → Place) (a : ℕ) : Prop where
  marked : fs.vol.freeMap a = true
  lt_size : a < fs.vol.disk.size
  apart : a ∉ M
  none : σ a = none
  inodes_apart : ∀ s, (σ s).isSome → a ∉ (P s).owned

theorem Stores.allocate (h : fs.Stores M σ P) (hfree : fs.vol.freeSectors = a :: rest) :
    ∃ v, fs.vol.freeMapAllocateSingle = some (some a, v) ∧ Stores { fs with vol := v } M σ P ∧
      Unused { fs with vol := v } M σ P a ∧ v.freeSectors = rest := by
  obtain ⟨v, halc, ha⟩ := h.sound.allocate hfree
  obtain ⟨hlt, huna⟩ := mem_freeSectors.mp
    (by rw [hfree]; exact mem_cons_self)
  have hcla : ∀ {b}, fs.vol.freeMap b = true → b ≠ a := fun hb he => by
    simp [he, huna] at hb
  refine ⟨v, halc, h.leaves ha.sound ha.spares.leaves (by simp), ⟨?_, ha.same.1.symm ▸ hlt, fun haM => ?_, ?_,
    fun s hs has => ?_⟩, ha.freeSectors_single hfree⟩
  · rw [ha.map]
    simp [mark]
  · exact hcla (h.sound.marked a haM) rfl
  · by_contra hne
    obtain ⟨f, hf⟩ := ne_none_iff_exists'.mp hne
    exact hcla (h.stored a f hf).marked rfl
  · obtain ⟨f, hf⟩ := isSome_iff_exists.mp hs
    exact hcla ((h.stored s f hf).fileOf.marked a has) rfl

/-- `inode_create` in an unused sector adds a file of zeros. -/
theorem Stores.inodeCreate (h : fs.Stores M σ P) {a length : ℕ} (ha : fs.Unused M σ P a)
    (isDirectory : Bool) (hmax : length ≤ MAX_LENGTH)
    (hspc : sectorsToCreate length ≤ fs.vol.freeSectors.length) :
    ∃ v P', fs.vol.inodeCreate a length isDirectory = some (true, v) ∧
      Stores { fs with vol := v } M
        (Function.update σ a (some ⟨isDirectory, List.replicate length 0⟩)) P' ∧
      v.freeSectors.length + sectorsToCreate length = fs.vol.freeSectors.length := by
  obtain ⟨v, double, L, hcrt, hc⟩ :=
    h.sound.inodeCreate isDirectory ha.marked ha.lt_size ha.apart hmax hspc
  have hcla : ∀ {b}, fs.vol.freeMap b = true → b ∉ L.owned double := fun hb hbL => by
    simp [hc.fresh _ hbL] at hb
  have hcas : ∀ s, (Function.update σ a (some ⟨isDirectory, List.replicate length 0⟩) s).isSome →
      s = a ∨ s ≠ a ∧ (σ s).isSome := fun s hs => by
    by_cases hsa : s = a
    · exact .inl hsa
    · rw [update_of_ne hsa] at hs
      exact .inr ⟨hsa, hs⟩
  have hmrk : ∀ s, (σ s).isSome → fs.vol.freeMap s = true ∧
      ∀ x ∈ (P s).owned, fs.vol.freeMap x = true := fun s hs => by
    obtain ⟨g, hg⟩ := isSome_iff_exists.mp hs
    exact ⟨(h.stored s g hg).marked, (h.stored s g hg).fileOf.marked⟩
  have hnew : (Function.update P a ⟨⟨length, isDirectory, double, INODE_MAGIC⟩, L⟩ a).owned =
      L.owned double := by
    rw [update_self]
    rfl
  refine ⟨v, Function.update P a ⟨⟨length, isDirectory, double, INODE_MAGIC⟩, L⟩, hcrt,
    ⟨⟨h.tidy.nodup, h.tidy.live, h.tidy.listed, h.tidy.old, h.tidy.counted, h.tidy.magic,
      h.tidy.distinct⟩, hc.sound, fun p i hp => ?_, fun s f hf => ?_, fun s s' hs hs' => ?_,
      fun s s' hs hs' hne x hx => ?_⟩, hc.length_freeSectors⟩
  · by_cases hia : i.sector = a
    · rw [hia, update_self]
      rfl
    · rw [update_of_ne hia]
      exact h.known p i hp
  · by_cases hsa : s = a
    · subst hsa
      rw [update_self, some.injEq] at hf
      subst hf
      rw [update_self]
      refine ⟨?_, ⟨length, by simp [hc.inodeOpen ha.lt_size]⟩, rfl,
        (length_replicate).symm, ?_, hc.map _ ha.marked, hc.size.symm ▸ ha.lt_size, ha.apart⟩
      · have hnone : FileSys.findOpen { fs with vol := v } s = none := by
          refine (findOpen_eq_none h.tidy).mpr fun p i hp hs => ?_
          have hk := h.known p i hp
          simp [hs, ha.none] at hk
        unfold inodeData
        rw [hnone]
        simp [hc.inodeOpen ha.lt_size]
      · rw [region_replicate]
        exact hc.fileOf
    · rw [update_of_ne hsa] at hf
      rw [update_of_ne hsa]
      have hst := h.stored s f hf
      have hout := ha.inodes_apart s (by simp [hf])
      have hopen := hc.toSpares.inodeOpen hst.marked hst.apart (by simpa using hsa)
      refine ⟨?_, hopen ▸ hst.device, hst.isDirectory, hst.length,
        hst.fileOf.spares hc.toSpares fun x hx => ?_, hc.map s hst.marked,
        hc.size.symm ▸ hst.lt_size, hst.apart⟩
      · exact (@inodeData_congr fs { fs with vol := v } s rfl (fun _ _ => rfl) hopen).trans hst.inode
      · rw [mem_singleton]
        exact fun hxa => hout (hxa ▸ hx)
  · rcases hcas s' hs' with rfl | ⟨hs'a, hσ'⟩
    · rw [hnew]
      rcases hcas s hs with rfl | ⟨-, hσ⟩
      · exact hcla ha.marked
      · exact hcla (hmrk s hσ).1
    · rw [update_of_ne hs'a]
      rcases hcas s hs with rfl | ⟨-, hσ⟩
      · exact ha.inodes_apart s' hσ'
      · exact h.inodes_apart s s' hσ hσ'
  · rcases hcas s hs with rfl | ⟨hsa, hσ⟩
    · rw [hnew] at hx
      rcases hcas s' hs' with rfl | ⟨hs'a, hσ'⟩
      · exact absurd rfl hne
      · rw [update_of_ne hs'a]
        exact fun hx' => hcla ((hmrk s' hσ').2 x hx') hx
    · rw [update_of_ne hsa] at hx
      rcases hcas s' hs' with rfl | ⟨hs'a, hσ'⟩
      · rw [hnew]
        exact hcla ((hmrk s hσ).2 x hx)
      · rw [update_of_ne hs'a]
        exact h.files_apart s s' hσ hσ' hne x hx

end FileSys

end Pintos
