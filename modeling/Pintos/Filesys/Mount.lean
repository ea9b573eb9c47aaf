import Pintos.Filesys.Unlinking

/-! # Shutting down and starting again

`filesys_done` writes all dirty sectors of the cache to the device, and everything in memory is
lost; `filesys_init (false)` reads the free map from its file and opens no other inode.

* **What is on the device.**  The sectors as the file system sees them.  `free_map_close` comes after
  `flush_cache`, so what it writes does not get to the device; it is the inode of the free map file,
  which has not changed.
* **What is lost.**  The inodes in memory with their lengths, flags and counters.  A file is found
  again as it was if its length on the device is the one in memory (`Persisted`).
* **Contents.**  `contents fs s` reads the file with the inode in sector `s` from the beginning to the
  end. -/

namespace Pintos
open Bytes Walks Disk Option FileSys

/-! ### The free map -/

/-- One bit of the array behind a bitmap. -/
def bitmapBit (buf : List UInt8) (s : ℕ) : Bool := (region buf (s / 8)).toNat.testBit (s % 8)

namespace Volume

/-- `bitmap_read` from the free map file.  The bits behind the end are masked. -/
def bitmapRead (v : Volume) (file : InodeDisk) : Option (Bool × Volume) := do
  let buf ← v.disk.readLoop file (byteCnt v.disk.size) (byteCnt v.disk.size) 0
  some (buf.length = byteCnt v.disk.size,
    { v with freeMap := fun s => decide (s < v.disk.size) && bitmapBit buf s })

/-- `free_map_open`. -/
def freeMapOpen (v : Volume) : Option Volume := do
  let inode ← v.inodeOpen FREE_MAP_SECTOR
  let (ok, v) ← { v with freeMapFile := some inode.data }.bitmapRead inode.data
  if ok then some v else none

end Volume

theorem testBit_bitmapByte (bits : ℕ → Bool) (bitCnt j : ℕ) (hk : k < 8) :
    (bitmapByte bits bitCnt j).toNat.testBit k =
      (decide (8 * j + k < bitCnt) && bits (8 * j + k)) := by
  have hbyte : ∀ b0 b1 b2 b3 b4 b5 b6 b7 : Bool, ∀ k : Fin 8,
      (UInt8.ofNat ([(0, b0), (1, b1), (2, b2), (3, b3), (4, b4), (5, b5), (6, b6), (7, b7)].map
        fun b => if b.2 then 2 ^ b.1 else 0).sum).toNat.testBit k =
      [b0, b1, b2, b3, b4, b5, b6, b7].getD k false := by decide +kernel
  obtain ⟨b, hb⟩ : ∃ b : ℕ → Bool, b = fun k => decide (8 * j + k < bitCnt) && bits (8 * j + k) :=
    ⟨_, rfl⟩
  have hsum : bitmapByte bits bitCnt j = UInt8.ofNat ([(0, b 0), (1, b 1), (2, b 2), (3, b 3),
      (4, b 4), (5, b 5), (6, b 6), (7, b 7)].map fun b => if b.2 then 2 ^ b.1 else 0).sum := by
    simp [bitmapByte, List.range, List.range.loop, hb]
  rw [hsum, hbyte _ _ _ _ _ _ _ _ ⟨k, hk⟩, show (decide (8 * j + k < bitCnt) && bits (8 * j + k)) =
    b k by rw [hb]]
  match k, hk with
  | 0, _ | 1, _ | 2, _ | 3, _ | 4, _ | 5, _ | 6, _ | 7, _ => rfl

theorem bitmapBit_slice (bits : ℕ → Bool) (hs : s < n) :
    bitmapBit (slice (bitmapByte bits n) 0 (byteCnt n)) s = bits s := by
  have hlt : s / 8 < byteCnt n := by
    unfold byteCnt
    omega
  rw [bitmapBit, region, getD_slice hlt, zero_add, testBit_bitmapByte _ _ _ (Nat.mod_lt _ (by decide)),
    Nat.div_add_mod, decide_eq_true hs, Bool.true_and]

theorem bitmapByte_congr (h : ∀ s < n, bits s = bits' s) :
    bitmapByte bits n j = bitmapByte bits' n j := by
  unfold bitmapByte
  congr 2
  refine List.map_congr_left fun k _ => ?_
  by_cases hlt : 8 * j + k < n
  · rw [h _ hlt]
  · simp [hlt]

namespace Volume

variable {v : Volume} {M : List ℕ}

/-- The free map is read back from its file. -/
theorem Mirrored.freeMapOpen (h : v.Mirrored M) (hfile : v.freeMapFile.isSome) :
    ∃ v', (freeMapInit v.disk).freeMapOpen = some v' ∧ v'.disk = v.disk ∧
      v'.freeMapFile = v.freeMapFile ∧ ∀ s < v.disk.size, v'.freeMap s = v.freeMap s := by
  obtain ⟨file, hfile⟩ := isSome_iff_exists.mp hfile
  obtain ⟨inode, hopen, rfl⟩ := map_eq_some_iff.mp (h.anchored file hfile)
  obtain ⟨L, F, hhld, -, hlen, hbits⟩ := h.bits _ hfile
  have hopen' : (freeMapInit v.disk).inodeOpen FREE_MAP_SECTOR = some inode := hopen
  have hread := @Holds.readLoop _ _ _ _ hhld _ _ 0 (le_refl (byteCnt v.disk.size))
    (.inr (.inl (by rw [zero_add]; exact hlen.trans hhld.bound)))
  have hslc : slice F 0 (byteCnt v.disk.size) =
      slice (bitmapByte v.freeMap v.disk.size) 0 (byteCnt v.disk.size) :=
    slice_congr fun j hj => by rw [zero_add, hbits j hj]
  rw [Nat.sub_zero, Nat.min_eq_left hlen, hslc] at hread
  refine ⟨{ v with
    freeMap := fun s => decide (s < v.disk.size) &&
      bitmapBit (slice (bitmapByte v.freeMap v.disk.size) 0 (byteCnt v.disk.size)) s },
    ?_, rfl, rfl, fun s hs => ?_⟩
  · simp only [Volume.freeMapOpen, hopen', Volume.bitmapRead, bind_eq_bind, bind_some]
    rw [show (freeMapInit v.disk).disk = v.disk from rfl, hread]
    simp [hfile]
  · show (decide (s < v.disk.size) && bitmapBit _ s) = _
    rw [decide_eq_true hs, Bool.true_and, bitmapBit_slice _ hs]

end Volume

/-! ### Contents -/

namespace FileSys

variable {fs fs' : FileSys} {M : List ℕ} {σ : Store} {P : ℕ → Place} {s : ℕ} {f : FileImage}

/-- The file with the inode in sector `s`, read from the beginning to the end. -/
def contents (fs : FileSys) (s : ℕ) : Option FileImage := do
  let data ← fs.inodeData s
  let bytes ← fs.vol.disk.readLoop data data.length data.length 0
  some ⟨data.isDirectory, bytes⟩

/-- The directory tree that a file system is. -/
def tree (fs : FileSys) : Tree := treeOf fs.contents

theorem Stores.contents (h : fs.Stores M σ P) (s : ℕ) (f : FileImage) (hf : σ s = some f) :
    fs.contents s = some f := by
  have hst := h.stored s f hf
  have hread := @Holds.readLoop _ _ _ _ hst.fileOf.holds _ _ 0 (le_refl f.bytes.length)
    (.inr (.inl (by rw [zero_add, ← hst.length]; exact hst.fileOf.holds.bound)))
  have hbyt : slice (region f.bytes) 0 f.bytes.length = f.bytes := by
    have := slice_region f.bytes 0 f.bytes.length
    simpa using this
  rw [Nat.sub_zero, hst.length, Nat.min_self, hbyt] at hread
  simp [FileSys.contents, hst.inode, hst.length, hread,
    hst.isDirectory]

end FileSys

/-- Every file of `σ` is one of `τ`. -/
def Store.Sub (σ τ : Store) : Prop := ∀ s f, σ s = some f → τ s = some f

section
variable {σ τ : Store} {s cwd : ℕ} {path : CString}

section
variable (h : σ.Sub τ) (hs : (σ s).isSome)
include h hs

theorem Store.Sub.treeOf_eq : treeOf τ s = treeOf σ s := by
  obtain ⟨f, hf⟩ := isSome_iff_exists.mp hs
  unfold treeOf
  rw [h s f hf, hf]

theorem Store.Sub.isDirectory_iff :
    (treeOf τ).IsDirectory s ↔ (treeOf σ).IsDirectory s := by
  unfold Tree.IsDirectory
  rw [h.treeOf_eq hs]

theorem Store.Sub.child_eq :
    (treeOf τ).child s name = (treeOf σ).child s name := by
  unfold Tree.child
  rw [h.treeOf_eq hs]

end

section
variable (hl : WellLinked σ)
include hl

theorem isSome_start (hcwd : (treeOf σ).IsDirectory cwd) (path : CString) :
    (σ (Tree.start cwd path)).isSome := by
  unfold Tree.start
  split_ifs
  · obtain ⟨f, hf, -⟩ := hl.root
    rw [hf]
    rfl
  · exact isSome_treeOf.mp (isSome_of_isDirectory hcwd)

theorem WellLinked.isSome_opened (hcwd : (treeOf σ).IsDirectory cwd)
    (ho : (treeOf σ).opened cwd path = some s) : (σ s).isSome :=
  Tree.opened_mem (fun _ _ _ _ hc => hl.isSome_child hc) (isSome_start hl hcwd path) ho

variable (h : σ.Sub τ) (hcwd : (treeOf σ).IsDirectory cwd)
include h hcwd

theorem WellLinked.opened_eq (path : CString) : (treeOf τ).opened cwd path = (treeOf σ).opened cwd path :=
  Tree.opened_congr (fun _ _ _ _ hc => hl.isSome_child hc)
    (fun _ _ hs => h.child_eq hs) (isSome_start hl hcwd path)

theorem WellLinked.passed_eq (path : CString) :
    passed (treeOf τ).child (Tree.start cwd path) (components slash path) =
      passed (treeOf σ).child (Tree.start cwd path) (components slash path) :=
  passed_congr (fun _ _ _ _ hc => hl.isSome_child hc)
    (fun _ _ hs => h.child_eq hs) (isSome_start hl hcwd path)

theorem WellLinked.removable_iff : Removable τ cwd path ↔ Removable σ cwd path := by
  unfold Removable
  simp only [hl.opened_eq h hcwd]
  refine forall₄_congr fun parentName name ps cs => forall₃_congr fun hspl hps hcs => ?_
  obtain ⟨g, hg⟩ := isSome_iff_exists.mp (hl.isSome_opened hcwd hcs)
  unfold Tree.child
  rw [h.treeOf_eq (hl.isSome_opened hcwd hps), h cs g hg, hg]

end

end

/-! ### Mounting -/

namespace FileSys

/-- `filesys_init (false)` on a device. -/
def mount (d : Disk) : Option FileSys := do
  let v ← (Volume.freeMapInit d).freeMapOpen
  some ⟨v, fun _ => none, [], 0⟩

/-- Every open inode has the length on the device that it has in memory. -/
def Persisted (fs : FileSys) : Prop := ∀ p i, fs.heap p = some i →
  (fs.vol.inodeOpen i.sector).map (fun j => j.data.length) = some i.data.length

variable {fs fs' : FileSys} {M : List ℕ} {σ : Store} {P : ℕ → Place} {s : ℕ} {f : FileImage}

theorem Stores.inodeOpen_of_persisted (h : fs.Stores M σ P) (hp : fs.Persisted) (s : ℕ) :
    (fs.vol.inodeOpen s).map Inode.data = fs.inodeData s := by
  unfold inodeData
  cases ho : fs.findOpen s with
  | none => rfl
  | some p =>
    obtain ⟨-, i, hi, rfl⟩ := findOpen_eq_some ho
    obtain ⟨f, -, hst, hdata⟩ := h.open_inode hi
    obtain ⟨length, hdvc⟩ := hst.device
    obtain ⟨j, hj, hjd⟩ := map_eq_some_iff.mp hdvc
    have hlen := hp p i hi
    rw [hj, map_some, some.injEq, hjd] at hlen
    simp only [hj, hi, map_some, hjd, ← hdata]
    rw [show length = (P i.sector).data.length by rw [hdata]; exact hlen]

theorem exists_mount {v : Volume} (h : v.Mirrored M) (hfile : v.freeMapFile.isSome) :
    ∃ v', mount v.disk = some ⟨v', fun _ => none, [], 0⟩ ∧ v'.disk = v.disk ∧
      v'.freeMapFile = v.freeMapFile ∧ ∀ s < v.disk.size, v'.freeMap s = v.freeMap s := by
  obtain ⟨v', hopen, hspec⟩ := h.freeMapOpen hfile
  exact ⟨v', by simp [mount, hopen], hspec⟩

/-- All files are found again after a shutdown. -/
theorem Backed.mount (h : fs.Backed M σ P) (hM : M ≠ []) (hp : fs.Persisted) :
    ∃ fs', mount fs.vol.disk = some fs' ∧ fs'.Backed M σ P ∧ (fs'.heap = fun _ => none) ∧
      (∀ s, fs'.contents s = fs.contents s) ∧ fs'.vol.disk.size = fs.vol.disk.size ∧
      ∀ s < fs.vol.disk.size, fs'.vol.freeMap s = fs.vol.freeMap s := by
  obtain ⟨v, hmnt, hdisk, hfile, hmap⟩ :=
    exists_mount h.mirrored (h.sound.isSome_iff.mpr hM)
  have hread : ∀ s, v.inodeOpen s = fs.vol.inodeOpen s := fun s =>
    Volume.inodeOpen_congr (by rw [hdisk]) (by rw [hdisk])
  have hf := h.sound.file
  obtain ⟨file, hv⟩ := isSome_iff_exists.mp (h.sound.isSome_iff.mpr hM)
  unfold Volume.MapFile at hf
  rw [hv] at hf
  obtain ⟨L, F, hhld, hlen, rfl⟩ := hf
  have hlt := hhld.valid.lt_size
  refine ⟨⟨v, fun _ => none, [], 0⟩, hmnt, ?_, rfl, fun s => ?_, by rw [hdisk], hmap⟩
  swap
  · have hino : inodeData ⟨v, fun _ => none, [], 0⟩ s = fs.inodeData s := by
      rw [← h.inodeOpen_of_persisted hp, ← hread]
      rfl
    simp [contents, hino, hdisk]
  refine ⟨⟨⟨List.nodup_nil, by simp, by simp, by simp, by simp, by simp, by simp⟩,
    ⟨?_, fun s hs => ?_, ?_, hdisk ▸ h.sound.size⟩, by simp, fun s f hf => ?_, h.inodes_apart,
    h.files_apart⟩, ⟨fun file' hf' => ?_, fun file' hf' => ?_⟩, h.zero⟩
  · unfold Volume.MapFile
    rw [hfile, hv, hdisk]
    exact ⟨L, F, hhld, hlen, rfl⟩
  · exact (hmap s (hlt s hs)).trans (h.sound.marked s hs)
  · exact (hmap 0 (Nat.zero_lt_of_lt (hlt _ Layout.double_mem))).trans h.sound.zero
  · have hst := h.stored s f hf
    have hlt' := hst.fileOf.holds.valid.lt_size
    have hino : (v.inodeOpen s).map Inode.data = some (P s).data := by
      rw [hread, h.inodeOpen_of_persisted hp, hst.inode]
    exact ⟨hino, ⟨_, hino⟩, hst.isDirectory, hst.length, ⟨hdisk ▸ hst.fileOf.holds,
      fun x hx => (hmap x (hlt' x hx)).trans (hst.fileOf.marked x hx), hst.fileOf.apart⟩,
      (hmap s hst.lt_size).trans hst.marked, hdisk ▸ hst.lt_size, hst.apart⟩
  · rw [hread]
    exact h.mirrored.anchored file' (hfile ▸ hf')
  · obtain ⟨L', F', hhld', hown, hlen', hbits⟩ := h.mirrored.bits file' (hfile ▸ hf')
    rw [hdisk]
    refine ⟨L', F', hhld', hown, hlen', fun j hj => ?_⟩
    rw [hbits j hj]
    exact bitmapByte_congr fun s hs => (hmap s hs).symm

end FileSys

end Pintos
