import Pintos.Filesys.Growth

/-! # Allocation on a volume

The free map and the files on a volume.

* **Free map file.**  `v.Sound M`: the bits of `free_map` can be written to `free_map_file`, whose
  sectors are `M`.  Before the free map file exists, `M` is empty.
* **Files.**  `v.File M data L F`: a file whose sectors are marked and which shares none of them with
  the free map file.
* **Allocation.**  The sectors that are handed out are the first free ones, so they belong to
  nobody; everybody else's sectors keep their contents. -/

namespace Pintos
open Bytes Disk Option List

namespace Volume

variable {v v' : Volume} {M : List ℕ} {s : ℕ}

theorem mem_freeSectors : s ∈ v.freeSectors ↔ s < v.disk.size ∧ v.freeMap s = false := by
  simp [freeSectors]

theorem nodup_freeSectors (v : Volume) : v.freeSectors.Nodup := nodup_range.filter _

/-- `M` are the sectors of the free map file, as far as there is one. -/
def MapFile (v : Volume) (M : List ℕ) : Prop :=
  match v.freeMapFile with
  | none => M = []
  | some file => ∃ L F, Holds v.disk file L F ∧ byteCnt v.disk.size ≤ file.length ∧
      M = L.owned file.doubleIndirect

/-- The free map and its file are in order. -/
structure Sound (v : Volume) (M : List ℕ) : Prop where
  file : v.MapFile M
  marked : ∀ s ∈ M, v.freeMap s = true
  zero : v.freeMap 0 = true
  size : v.disk.size < 2 ^ 32

theorem Sound.isSome_iff (h : v.Sound M) : v.freeMapFile.isSome = true ↔ M ≠ [] := by
  have hf := h.file
  unfold MapFile at hf
  cases hv : v.freeMapFile with
  | none =>
    rw [hv] at hf
    simp [hf]
  | some file =>
    rw [hv] at hf
    obtain ⟨L, F, -, -, rfl⟩ := hf
    simp [Layout.owned]

theorem Sound.apart_of_free (h : v.Sound M) (hs : s ∈ v.freeSectors) : s ≠ 0 ∧ s ∉ M := by
  have hfree := (mem_freeSectors.mp hs).2
  refine ⟨fun h0 => ?_, fun hM => ?_⟩
  · simp [h0, h.zero] at hfree
  · simp [h.marked s hM] at hfree

theorem Sound.mono (h : v.Sound M) (hsame : SameOutside l v.disk v'.disk)
    (hl : ∀ s ∈ l, s ∉ M) (hfile : v'.freeMapFile = v.freeMapFile)
    (hmap : ∀ s, v.freeMap s = true → (s = 0 ∨ s ∈ M) → v'.freeMap s = true) : v'.Sound M where
  file := by
    have hf := h.file
    unfold MapFile at *
    rw [hfile, hsame.1]
    cases hv : v.freeMapFile with
    | none =>
      rw [hv] at hf
      exact hf
    | some file =>
      rw [hv] at hf
      obtain ⟨L, F, hhld, hlen, rfl⟩ := hf
      exact ⟨L, F, hhld.frame hsame.1 fun s hs => hsame.2 s fun hs' => hl s hs' hs, hlen, rfl⟩
  marked := fun s hs => hmap s (h.marked s hs) (.inr hs)
  zero := hmap 0 h.zero (.inl rfl)
  size := hsame.1 ▸ h.size

theorem mark_of_marked (h : bits s = true) : mark bits l s = true := by
  simp [mark, h]

theorem Sound.of_mark (h : v.Sound M) (l : List ℕ) :
    Sound { v with freeMap := mark v.freeMap l } M :=
  h.mono (.refl [] v.disk) (by simp) rfl fun _ hs _ => mark_of_marked hs

theorem Sound.of_reset (h : v.Sound M) (hl : ∀ s ∈ l, s ≠ 0 ∧ s ∉ M) :
    Sound { v with freeMap := reset v.freeMap l } M :=
  h.mono (.refl [] v.disk) (by simp) rfl fun s hs hsM => by
    have hout : s ∉ l := fun hsl => hsM.elim (hl s hsl).1 (hl s hsl).2
    simp [reset, hs, hout]

/-! ### Writing the bitmap -/

/-- `v'` is `v` after its free map has been written to the free map file. -/
structure Written (M : List ℕ) (v v' : Volume) : Prop where
  sound : v'.Sound M
  map : v'.freeMap = v.freeMap
  file : v'.freeMapFile = v.freeMapFile
  same : SameOutside M v.disk v'.disk

theorem Sound.bitmapWrite (h : v.Sound M) {file : InodeDisk} (hfile : v.freeMapFile = some file) :
    ∃ v', v.bitmapWrite file = some (true, v') ∧ Written M v v' := by
  have hf := h.file
  unfold MapFile at hf
  rw [hfile] at hf
  obtain ⟨L, F, hhld, hlen, rfl⟩ := hf
  have hbuf : (slice (bitmapByte v.freeMap v.disk.size) 0 (byteCnt v.disk.size)).length ≤
      file.length := by
    rw [length_slice]
    exact hlen
  obtain ⟨d', hwrt, hhld', hsame⟩ := hhld.writeLoop le_rfl
    (by rw [zero_add]; exact hbuf)
  have hsub : ∀ s ∈ L.secs, s ∈ L.owned file.doubleIndirect := fun s hs =>
    mem_cons_of_mem _ (mem_append_right _ hs)
  refine ⟨{ v with disk := d' }, ?_, ⟨⟨?_, h.marked, h.zero, hsame.1 ▸ h.size⟩, rfl, rfl,
    hsame.mono hsub⟩⟩
  · unfold Volume.bitmapWrite
    rw [if_pos hbuf, hwrt]
    simp
  · simp only [hfile]
    exact ⟨L, _, hhld', hsame.1 ▸ hlen, rfl⟩

theorem Sound.persist (h : v.Sound M) : ∃ v', v.persist = some (true, v') ∧ Written M v v' := by
  unfold Volume.persist
  cases hfile : v.freeMapFile with
  | none => exact ⟨v, rfl, h, rfl, rfl, .refl M v.disk⟩
  | some file => exact h.bitmapWrite hfile

/-! ### What the device says about the free map -/

/-- The inode of the free map file is on the device as it is in memory. -/
def Anchored (v : Volume) : Prop :=
  ∀ file, v.freeMapFile = some file → (v.inodeOpen FREE_MAP_SECTOR).map Inode.data = some file

/-- The free map file holds the bits of the free map. -/
structure Mirrored (v : Volume) (M : List ℕ) : Prop where
  anchored : v.Anchored
  bits : ∀ file, v.freeMapFile = some file → ∃ L F, Holds v.disk file L F ∧
    M = L.owned file.doubleIndirect ∧ byteCnt v.disk.size ≤ file.length ∧
    ∀ j < byteCnt v.disk.size, F j = bitmapByte v.freeMap v.disk.size j

section
variable {l : List ℕ}

theorem inodeOpen_congr (hsize : v'.disk.size = v.disk.size)
    (hblo : v'.disk.block s = v.disk.block s) : v'.inodeOpen s = v.inodeOpen s := by
  unfold Volume.inodeOpen Disk.cacheRead
  rw [hsize, hblo]

theorem Anchored.mono (h : v.Anchored) (hsame : SameOutside l v.disk v'.disk)
    (hl : FREE_MAP_SECTOR ∉ l) (hfile : v'.freeMapFile = v.freeMapFile) : v'.Anchored :=
  fun file hf => by
    rw [inodeOpen_congr hsame.1 (hsame.2 _ hl)]
    exact h file (hfile ▸ hf)

theorem Mirrored.mono (h : v.Mirrored M) (hsame : SameOutside l v.disk v'.disk)
    (hl : ∀ s ∈ l, s ≠ FREE_MAP_SECTOR ∧ s ∉ M) (hfile : v'.freeMapFile = v.freeMapFile)
    (hmap : v'.freeMap = v.freeMap) : v'.Mirrored M where
  anchored := h.anchored.mono hsame (fun h0 => (hl _ h0).1 rfl) hfile
  bits := fun file hf => by
    obtain ⟨L, F, hhld, rfl, hlen, hbits⟩ := h.bits file (hfile ▸ hf)
    rw [hsame.1, hmap]
    exact ⟨L, F, hhld.frame hsame.1 fun s hs => hsame.2 s fun hs' => (hl s hs').2 hs, rfl, hlen,
      hbits⟩

theorem Mirrored.cacheWrite (h : v.Mirrored M)
    (hs : s ≠ FREE_MAP_SECTOR ∧ s ∉ M) (hw : v.cacheWrite s buf = some v') : v'.Mirrored M := by
  simp only [Volume.cacheWrite, Disk.cacheWrite, bind_eq_bind, bind_eq_some_iff,
    ite_none_right_eq_some, some.injEq] at hw
  obtain ⟨_, ⟨-, rfl⟩, rfl⟩ := hw
  refine h.mono (sameOutside_put (l := [s]) mem_cons_self) (fun x hx => ?_) rfl rfl
  rwa [mem_singleton.mp hx]

end

theorem Sound.mirrored_bitmapWrite (h : v.Sound M) (ha : v.Anchored) {file : InodeDisk}
    (hfile : v.freeMapFile = some file) (hw : v.bitmapWrite file = some (ok, v')) :
    v'.Mirrored M := by
  have hf := h.file
  unfold MapFile at hf
  rw [hfile] at hf
  obtain ⟨L, F, hhld, hlen, rfl⟩ := hf
  have hbuf := length_slice (bitmapByte v.freeMap v.disk.size) 0 (byteCnt v.disk.size)
  obtain ⟨d', hwrt, hhld', hsame⟩ := hhld.writeLoop le_rfl
    (by rw [zero_add, hbuf]; exact hlen)
  unfold Volume.bitmapWrite at hw
  rw [if_pos (hbuf.trans_le hlen), hwrt] at hw
  obtain ⟨-, rfl⟩ : _ ∧ { v with disk := d' } = v' := by simpa using hw
  refine ⟨ha.mono hsame (fun h0 => hhld.valid.ne_zero _
    (mem_cons_of_mem _ (mem_append_right _ h0)) rfl) rfl, fun file' hf' => ?_⟩
  cases mem_unique hfile hf'
  refine ⟨L, _, hhld', rfl, hsame.1 ▸ hlen, fun j hj => ?_⟩
  have hj' := hsame.1 ▸ hj
  rw [overwrite_of_inside (Nat.zero_le _) (by rw [hbuf]; omega), Nat.sub_zero, getD_slice hj',
    zero_add]
  exact (congrArg (bitmapByte v.freeMap · j) hsame.1).symm

theorem Sound.mirrored_persist (h : v.Sound M) (ha : v.Anchored) {ok : Bool}
    (hp : v.persist = some (ok, v')) : v'.Mirrored M := by
  unfold Volume.persist at hp
  cases hfile : v.freeMapFile with
  | none =>
    rw [hfile] at hp
    obtain ⟨-, rfl⟩ := hp
    exact ⟨ha, fun file hf => absurd (hfile.symm.trans hf) (by simp)⟩
  | some file =>
    rw [hfile] at hp
    exact h.mirrored_bitmapWrite ha hfile hp

/-! ### Single sectors -/

/-- `v'` is `v` after the sectors `new` have been allocated. -/
structure Allocated (M new : List ℕ) (v v' : Volume) : Prop where
  sound : v'.Sound M
  map : v'.freeMap = mark v.freeMap new
  file : v'.freeMapFile = v.freeMapFile
  same : SameOutside M v.disk v'.disk

theorem Sound.mark_persist (h : v.Sound M) (new : List ℕ) :
    ∃ v', Volume.persist { v with freeMap := mark v.freeMap new } = some (true, v') ∧
      Allocated M new v v' := by
  obtain ⟨v', hp, hw⟩ := (h.of_mark new).persist
  exact ⟨v', hp, hw.sound, hw.map, hw.file, hw.same⟩

theorem freeMapAllocateSingle_none (h : v.freeSectors = []) :
    v.freeMapAllocateSingle = some (none, v) := by
  simp [freeMapAllocateSingle, h]

theorem Sound.allocate (h : v.Sound M) (hs : v.freeSectors = s :: rest) :
    ∃ v', v.freeMapAllocateSingle = some (some s, v') ∧ Allocated M [s] v v' := by
  obtain ⟨v', hp, ha⟩ := h.mark_persist [s]
  refine ⟨v', ?_, ha⟩
  simp [freeMapAllocateSingle, hs, hp]

theorem Sound.mirrored_allocate (h : v.Sound M) (hm : v.Mirrored M)
    (ha : v.freeMapAllocateSingle = some (r, v')) : v'.Mirrored M := by
  cases hs : v.freeSectors with
  | nil =>
    rw [freeMapAllocateSingle_none hs] at ha
    obtain ⟨-, rfl⟩ := ha
    exact hm
  | cons s rest =>
    obtain ⟨v1, hp, -⟩ := h.mark_persist [s]
    simp only [freeMapAllocateSingle, hs, head?_cons, hp] at ha
    obtain ⟨-, rfl⟩ := ha
    exact (h.of_mark [s]).mirrored_persist hm.anchored hp

theorem freeSectors_of_mark (hsize : v'.disk.size = v.disk.size)
    (hmap : v'.freeMap = mark v.freeMap l) :
    v'.freeSectors = v.freeSectors.filter fun s => !decide (s ∈ l) := by
  unfold Volume.freeSectors
  rw [hsize, List.filter_filter, hmap]
  apply filter_congr
  intro s _
  simp only [mark, Bool.not_or]
  exact Bool.and_comm _ _

theorem Allocated.freeSectors (h : Allocated M (v.freeSectors.take k) v v') :
    v'.freeSectors = v.freeSectors.drop k := by
  have hnd := nodup_freeSectors v
  rw [freeSectors_of_mark h.same.1 h.map]
  generalize v.freeSectors = l at *
  rw [← take_append_drop k l] at hnd
  have hdisj := (nodup_append.mp hnd).2.2
  conv_lhs => rw [← take_append_drop k l, filter_append]
  rw [filter_eq_nil_iff.mpr, nil_append, filter_eq_self]
  · intro s hs
    simp only [take_append_drop, Bool.not_eq_eq_eq_not, Bool.not_true, decide_eq_false_iff_not]
    exact fun hs' => hdisj s hs' s hs rfl
  · intro s hs
    simp [hs]

variable {l l' : List ℕ} {L' : Layout}

theorem length_freeSectors_of_mark (hsize : v'.disk.size = v.disk.size)
    (hmap : v'.freeMap = mark v.freeMap l) (hnd : l.Nodup) (hl : ∀ s ∈ l, s ∈ v.freeSectors) :
    v'.freeSectors.length + l.length = v.freeSectors.length := by
  have hperm : l.Perm (v.freeSectors.filter fun s => decide (s ∈ l)) := by
    rw [perm_ext_iff_of_nodup hnd ((nodup_freeSectors v).filter _)]
    intro s
    simp only [mem_filter, decide_eq_true_eq]
    exact ⟨fun hs => ⟨hl s hs, hs⟩, fun hs => hs.2⟩
  rw [freeSectors_of_mark hsize hmap, hperm.length_eq, add_comm]
  exact (length_eq_length_filter_add fun s => decide (s ∈ l)).symm

theorem Allocated.freeSectors_single (h : Allocated M [s] v v')
    (hs : v.freeSectors = s :: rest) : v'.freeSectors = rest := by
  have h' : Allocated M (v.freeSectors.take 1) v v' := by
    rw [hs]
    exact h
  rw [h'.freeSectors, hs]
  rfl

/-- `free_map_release_single` of a marked sector that the free map file does not use. -/
theorem Sound.release (h : v.Sound M) (hfile : v.freeMapFile.isSome) (hs : v.freeMap s = true)
    (hlt : s < v.disk.size) (hM : s ≠ 0 ∧ s ∉ M) :
    ∃ v', v.freeMapReleaseSingle s = some v' ∧ v'.Sound M ∧
      v'.freeMap = reset v.freeMap [s] ∧ v'.freeMapFile = v.freeMapFile ∧
      SameOutside M v.disk v'.disk := by
  obtain ⟨file, hfile⟩ := isSome_iff_exists.mp hfile
  have hr := h.of_reset fun _ hs' => mem_singleton.mp hs' ▸ hM
  obtain ⟨v', hw, hw'⟩ := hr.bitmapWrite hfile
  refine ⟨v', ?_, hw'.sound, hw'.map, hw'.file, hw'.same⟩
  unfold freeMapReleaseSingle
  rw [if_pos ⟨hlt, hs⟩, hfile, bind_eq_bind, bind_some, ← hfile, hw]
  rfl

theorem marked_of_release (hr : v.freeMapReleaseSingle s = some v') :
    v.freeMapFile.isSome ∧ v.freeMap s = true ∧ s < v.disk.size := by
  unfold freeMapReleaseSingle at hr
  split_ifs at hr with hs
  obtain ⟨file, hfile, -⟩ := bind_eq_some_iff.mp hr
  exact ⟨by rw [hfile]; rfl, hs.2, hs.1⟩

theorem Sound.of_release (h : v.Sound M) (hM : s ≠ 0 ∧ s ∉ M)
    (hr : v.freeMapReleaseSingle s = some v') : v'.Sound M ∧
      v'.freeMap = reset v.freeMap [s] ∧ v'.freeMapFile = v.freeMapFile ∧
      SameOutside M v.disk v'.disk := by
  obtain ⟨hfile, hs, hlt⟩ := marked_of_release hr
  obtain ⟨v1, hr1, hspec⟩ := h.release hfile hs hlt hM
  rwa [mem_unique hr hr1]

theorem freeMap_bitmapWrite (h : v.bitmapWrite file = some (ok, v')) : v'.freeMap = v.freeMap := by
  unfold bitmapWrite at h
  simp only at h
  split at h
  · obtain ⟨⟨n, d⟩, -, h⟩ := bind_eq_some_iff.mp h
    cases h
    rfl
  · cases h

theorem freeMap_release (h : v.freeMapReleaseSingle s = some v') :
    v'.freeMap = reset v.freeMap [s] := by
  unfold freeMapReleaseSingle at h
  split at h
  · obtain ⟨file, -, h⟩ := bind_eq_some_iff.mp h
    obtain ⟨⟨ok, w⟩, hw, h⟩ := bind_eq_some_iff.mp h
    cases some.inj h
    exact freeMap_bitmapWrite hw
  · cases h

theorem freeMap_cacheWrite (h : v.cacheWrite s buf = some v') : v'.freeMap = v.freeMap := by
  obtain ⟨d, -, h⟩ := bind_eq_some_iff.mp h
  cases h
  rfl

theorem Sound.mirrored_release (h : v.Sound M) (hm : v.Mirrored M) (hM : s ≠ 0 ∧ s ∉ M)
    (hr : v.freeMapReleaseSingle s = some v') : v'.Mirrored M := by
  unfold freeMapReleaseSingle at hr
  split_ifs at hr
  obtain ⟨file, hfile, hr⟩ := bind_eq_some_iff.mp hr
  obtain ⟨⟨ok, v1⟩, hw, hr⟩ := bind_eq_some_iff.mp hr
  cases hr
  have hs := h.of_reset fun _ hs' => mem_singleton.mp hs' ▸ hM
  exact hs.mirrored_bitmapWrite hm.anchored hfile hw

/-! ### Files -/

/-- A file on a volume: its sectors are marked, and none of them is in the free map file. -/
structure File (v : Volume) (M : List ℕ) (data : InodeDisk) (L : Layout) (F : ℕ → UInt8) :
    Prop where
  holds : Holds v.disk data L F
  marked : ∀ s ∈ L.owned data.doubleIndirect, v.freeMap s = true
  apart : ∀ s ∈ L.owned data.doubleIndirect, s ∉ M

variable {data : InodeDisk} {L : Layout} {F : ℕ → UInt8} {cnt : ℕ}

theorem File.mono (h : v.File M data L F) (hsame : SameOutside l v.disk v'.disk)
    (hl : ∀ s ∈ l, s ∉ L.owned data.doubleIndirect)
    (hmap : ∀ s ∈ L.owned data.doubleIndirect, v'.freeMap s = true) : v'.File M data L F where
  holds := h.holds.frame hsame.1 fun s hs => hsame.2 s fun hs' => hl s hs' hs
  marked := hmap
  apart := h.apart

theorem File.allocated (h : v.File M data L F) (ha : Allocated M new v v') : v'.File M data L F :=
  h.mono ha.same (fun _ hs hs' => h.apart _ hs' hs) fun s hs => by
    rw [ha.map]
    exact mark_of_marked (h.marked s hs)

/-- `v'` differs from `v` only in sectors that were free, in the free map file, and in `l`. -/
structure Spares (M l : List ℕ) (v v' : Volume) : Prop where
  file : v'.freeMapFile = v.freeMapFile
  size : v'.disk.size = v.disk.size
  map : ∀ s, v.freeMap s = true → v'.freeMap s = true
  block : ∀ s, v.freeMap s = true → s ∉ M → s ∉ l → v'.disk.block s = v.disk.block s

theorem Spares.trans (h : Spares M l v v') (h' : Spares M l' v' v'')
    (hl : ∀ s ∈ l', v.freeMap s = true → s ∈ l) : Spares M l v v'' where
  file := h'.file.trans h.file
  size := h'.size.trans h.size
  map := fun s hs => h'.map s (h.map s hs)
  block := fun s hs hM hsl => by
    rw [h'.block s (h.map s hs) hM fun hs' => hsl (hl s hs' hs), h.block s hs hM hsl]

theorem Spares.mono (h : Spares M l v v') (hl : ∀ s ∈ l, s ∈ l') : Spares M l' v v' :=
  { h with block := fun s hs hM hl' => h.block s hs hM fun hs' => hl' (hl s hs') }

theorem Spares.release (hs : Spares M l v v1) (hv : v.Sound M) (hv1 : v1.Sound M)
    (hfree : v.freeMap s = false) (h : v1.freeMapReleaseSingle s = some v') :
    v'.Sound M ∧ Spares M l v v' := by
  have hne : ∀ {x}, v.freeMap x = true → x ≠ s := by
    rintro x hx rfl
    simp [hfree] at hx
  obtain ⟨hsnd, hmap, hfile2, hsame⟩ := hv1.of_release
    ⟨(hne hv.zero).symm, fun hM => hne (hv.marked s hM) rfl⟩ h
  refine ⟨hsnd, hfile2.trans hs.file, hsame.1.trans hs.size, fun x hx => ?_,
    fun x hx hM hl => (hsame.2 x hM).trans (hs.block x hx hM hl)⟩
  rw [hmap]
  simp [reset, hs.map x hx, hne hx]

theorem Spares.cacheWrite (hs : Spares M l v v1)
    (hv1 : v1.Sound M) (hl : s ∈ l) (hM : s ∉ M) (h : v1.cacheWrite s buf = some v') : v'.Sound M ∧ Spares M l v v' := by
  simp only [Volume.cacheWrite, Disk.cacheWrite, bind_eq_bind, bind_eq_some_iff,
    ite_none_right_eq_some, some.injEq] at h
  obtain ⟨_, ⟨-, rfl⟩, rfl⟩ := h
  have hput : SameOutside [s] v1.disk (v1.disk.put s buf 0) := sameOutside_put mem_cons_self
  refine ⟨hv1.mono hput (by simpa using hM) rfl fun _ hx _ => hx, hs.file, hs.size, hs.map,
    fun x hx hxM hxl => ?_⟩
  rw [← hs.block x hx hxM hxl]
  exact hput.2 x (by simpa using fun e : x = s => hxl (e ▸ hl))

theorem Spares.refl (v : Volume) : Spares M l v v := ⟨rfl, rfl, fun _ => id, fun _ _ _ _ => rfl⟩

theorem Allocated.spares (h : Allocated M new v v') : Spares M [] v v' where
  file := h.file
  size := h.same.1
  map := fun s hs => by
    rw [h.map]
    exact mark_of_marked hs
  block := fun s _ hM _ => h.same.2 s hM

/-- `v'` differs from `v` only in sectors that were free, in the free map file, and in `l`; those in
`l` may have become free. -/
structure Leaves (M l : List ℕ) (v v' : Volume) : Prop where
  file : v'.freeMapFile = v.freeMapFile
  size : v'.disk.size = v.disk.size
  map : ∀ s, v.freeMap s = true → s ∉ l → v'.freeMap s = true
  block : ∀ s, v.freeMap s = true → s ∉ M → s ∉ l → v'.disk.block s = v.disk.block s

theorem Spares.leaves (h : Spares M l v v') : Leaves M l v v' :=
  ⟨h.file, h.size, fun s hs _ => h.map s hs, h.block⟩

theorem File.leaves (h : v.File M data L F) (hl : Leaves M l v v')
    (hdis : ∀ s ∈ L.owned data.doubleIndirect, s ∉ l) : v'.File M data L F where
  holds := h.holds.frame hl.size fun s hs =>
    hl.block s (h.marked s hs) (h.apart s hs) (hdis s hs)
  marked := fun s hs => hl.map s (h.marked s hs) (hdis s hs)
  apart := h.apart

theorem File.spares (h : v.File M data L F) (hs : Spares M l v v')
    (hl : ∀ s ∈ L.owned data.doubleIndirect, s ∉ l) : v'.File M data L F :=
  h.leaves hs.leaves hl

theorem Leaves.inodeOpen (h : Leaves M l v v') (hs : v.freeMap s = true)
    (hM : s ∉ M) (hl : s ∉ l) : v'.inodeOpen s = v.inodeOpen s :=
  inodeOpen_congr h.size (h.block s hs hM hl)

theorem Spares.inodeOpen (h : Spares M l v v') (hs : v.freeMap s = true)
    (hM : s ∉ M) (hl : s ∉ l) : v'.inodeOpen s = v.inodeOpen s :=
  h.leaves.inodeOpen hs hM hl

/-- The sectors that a file gets when it grows. -/
abbrev added (v : Volume) (data : InodeDisk) (cnt : ℕ) : List ℕ :=
  v.freeSectors.take (sectorsFor (data.length + cnt) - sectorsFor data.length)

/-- `v'` is `v` after the file has grown by `cnt` zeros. -/
structure Extended (M : List ℕ) (data : InodeDisk) (L : Layout) (F : ℕ → UInt8) (cnt : ℕ)
    (L' : Layout) (v v' : Volume) : Prop where
  sound : v'.Sound M
  fileOf : v'.File M { data with length := data.length + cnt } L' F
  file : v'.freeMapFile = v.freeMapFile
  secs : L.secs <+: L'.secs
  owned : (L'.owned data.doubleIndirect).Perm (L.owned data.doubleIndirect ++
    v.freeSectors.take (sectorsFor (data.length + cnt) - sectorsFor data.length))
  map : v'.freeMap = mark v.freeMap
    (v.freeSectors.take (sectorsFor (data.length + cnt) - sectorsFor data.length))
  same : SameOutside (M ++ L'.owned data.doubleIndirect) v.disk v'.disk

theorem Extended.not_owned (h : Extended M data L F cnt L' v v')
    (hs : v.freeMap s = true) (hL : s ∉ L.owned data.doubleIndirect) :
    s ∉ L'.owned data.doubleIndirect := fun hs' => by
  rcases mem_append.mp (h.owned.mem_iff.mp hs') with hs' | hs'
  · exact hL hs'
  · have hfree := (mem_freeSectors.mp (mem_of_mem_take hs')).2
    rw [hs] at hfree
    cases hfree

theorem Extended.spares (h : Extended M data L F cnt L' v v') :
    Spares M (L.owned data.doubleIndirect) v v' where
  file := h.file
  size := h.same.1
  map := fun s hs => by
    rw [h.map]
    exact mark_of_marked hs
  block := fun s hs hM hL => h.same.2 s fun hs' =>
    (mem_append.mp hs').elim hM (h.not_owned hs hL)

section
variable (h : v.File M data L F)
include h

theorem File.extend_full (hmax : data.length + cnt < 2 ^ 31)
    (hspc : v.freeSectors.length < sectorsFor (data.length + cnt) - sectorsFor data.length) :
    v.inodeExtendFile data cnt = some (false, v, data) := by
  unfold inodeExtendFile
  simp [if_pos h.holds.magic, newSectors_eq hmax, if_pos hspc]

/-- With enough free sectors, growth past the largest file runs over the end of the double indirect
table. -/
theorem File.extend_huge (hv : v.Sound M)
    (hlo : MAX_LENGTH < data.length + cnt) (hhi : data.length + cnt < 2 ^ 31)
    (hspc : sectorsFor (data.length + cnt) - sectorsFor data.length ≤ v.freeSectors.length) :
    v.inodeExtendFile data cnt = none := by
  have hbound := h.holds.bound
  rw [MAX_LENGTH_eq] at hlo hbound
  have hsecs : 16384 < dataSectors (data.length + cnt) := by
    unfold dataSectors
    rw [BLOCK_SECTOR_SIZE_eq]
    omega
  have hold : 0 < dataSectors data.length ∧ dataSectors data.length ≤ 16384 := by
    unfold dataSectors
    rw [BLOCK_SECTOR_SIZE_eq]
    omega
  -- the table of tables has 128 entries, each of them for a table and its 128 sectors
  have hbig : 128 * 129 ≤ sectorsFor (data.length + cnt) - sectorsFor data.length +
      (dataSectors data.length - 1) / 128 * 129 + (dataSectors data.length - 1) % 128 := by
    unfold sectorsFor tablesFor
    rw [NUM_ENTRIES_eq]
    omega
  have hnew : sectorsFor (data.length + cnt) - sectorsFor data.length ≠ 0 := by omega
  unfold inodeExtendFile
  simp only [if_pos h.holds.magic, newSectors_eq hhi, if_neg (not_lt.mpr hspc), if_neg hnew]
  obtain ⟨v1, hp, -⟩ := hv.mark_persist (v.added data cnt)
  simp only [hp, bind_eq_bind, bind_some]
  cases hene : enterSectors v1.disk data data.length (v.added data cnt) with
  | none => rfl
  | some d' =>
    unfold enterSectors at hene
    rw [indicesFromOffset_pred (by omega)] at hene
    obtain ⟨ind, -, hene⟩ := bind_eq_some_iff.mp hene
    have hi : (dataSectors data.length - 1) / NUM_ENTRIES_IN_INDIRECT < NUM_ENTRIES_IN_INDIRECT := by
      rw [NUM_ENTRIES_eq]
      omega
    rw [if_pos hi] at hene
    obtain ⟨dir, -, hene⟩ := bind_eq_some_iff.mp hene
    obtain ⟨r', hloop, -⟩ := bind_eq_some_iff.mp hene
    obtain ⟨i, j, hi', hj', he⟩ := extendLoop_length hi (Nat.mod_lt _ (by decide)) hloop
    rw [length_take_of_le hspc] at he
    rw [NUM_ENTRIES_eq] at hi' hj' he
    omega

section
variable (hv : v.Sound M) (hmax : data.length + cnt ≤ MAX_LENGTH)
  (hspc : sectorsFor (data.length + cnt) - sectorsFor data.length ≤ v.freeSectors.length)
include hv hmax hspc

/-- The end of `inode_extend_file`: the sectors that have been allocated are entered into the tables
of the file, and only the file is written. -/
theorem File.enter (ha : Allocated M (v.added data cnt) v v') :
    ∃ d' L', enterSectors v'.disk data data.length (v.added data cnt) = some d' ∧
      Holds d' { data with length := data.length + cnt } L' F ∧ L.secs <+: L'.secs ∧
      (L'.owned data.doubleIndirect).Perm (L.owned data.doubleIndirect ++ v.added data cnt) ∧
      SameOutside (L'.owned data.doubleIndirect) v'.disk d' ∧
      ∀ s ∈ L'.owned data.doubleIndirect, s ∉ M := by
  have hlen : (v.added data cnt).length = _ := length_take_of_le hspc
  have hfree : ∀ s ∈ v.added data cnt, s < v.disk.size ∧ v.freeMap s = false := fun s hs =>
    mem_freeSectors.mp (mem_of_mem_take hs)
  have hnd : (v.added data cnt).Nodup := (nodup_freeSectors v).sublist (take_sublist ..)
  generalize v.added data cnt = new at *
  -- the new sectors were free, so they are neither in the file nor in the free map file
  have hnot : ∀ s ∈ new, s ∉ L.owned data.doubleIndirect := fun s hs hsL => by
    have := h.marked s hsL
    simp [(hfree s hs).2] at this
  have happ : ∀ s ∈ new, s ≠ 0 ∧ s ∉ M := fun s hs =>
    hv.apart_of_free (mem_freeSectors.mpr (hfree s hs))
  obtain ⟨d', L', hene, hhld, hpre, hperm, hsame⟩ := (h.allocated ha).holds.enterSectors
    ha.sound.size (Nat.le_add_right _ cnt) hmax hlen
    (nodup_append.mpr ⟨h.holds.valid.nodup, hnd, fun s hs a ha' he => hnot a ha' (he ▸ hs)⟩)
    fun a ha' => ⟨(happ a ha').1, ha.same.1 ▸ (hfree a ha').1⟩
  exact ⟨d', L', hene, hhld, hpre, hperm, hsame, fun s hs =>
    (mem_append.mp (hperm.mem_iff.mp hs)).elim (h.apart s) fun hs => (happ s hs).2⟩

/-- `inode_extend_file` with enough free sectors. -/
theorem File.extend :
    ∃ v' L', v.inodeExtendFile data cnt =
        some (true, v', { data with length := data.length + cnt }) ∧
      Extended M data L F cnt L' v v' := by
  have hlt : data.length + cnt < 2 ^ 31 := by
    rw [MAX_LENGTH_eq] at hmax
    omega
  unfold inodeExtendFile
  simp only [if_pos h.holds.magic, newSectors_eq hlt, if_neg (not_lt.mpr hspc)]
  by_cases hnew : sectorsFor (data.length + cnt) - sectorsFor data.length = 0
  · rw [if_pos hnew]
    refine ⟨v, L, rfl, hv, ⟨h.holds.resize (Nat.le_add_right _ _) hmax hnew, h.marked, h.apart⟩,
      rfl, prefix_rfl, ?_, ?_, .refl _ _⟩
    · rw [hnew, take_zero, append_nil]
    · rw [hnew]
      funext s
      simp [mark]
  · rw [if_neg hnew]
    obtain ⟨v1, hp, ha⟩ := hv.mark_persist (v.added data cnt)
    obtain ⟨d', L', hene, hhld, hpre, hperm, hsame, happ⟩ := h.enter hv hmax hspc ha
    refine ⟨{ v1 with disk := d' }, L', ?_, ?_⟩
    · simp [hp, hene]
    · refine ⟨ha.sound.mono hsame happ rfl fun _ hs _ => hs, ⟨hhld, fun s hs => ?_, happ⟩,
        ha.file, hpre, hperm, ha.map, ?_⟩
      · rw [ha.map]
        rcases mem_append.mp (hperm.mem_iff.mp hs) with hs | hs
        · exact mark_of_marked (h.marked s hs)
        · simp [mark, hs]
      · exact (ha.same.mono fun s hs => mem_append_left _ hs).trans
          (hsame.mono fun s hs => mem_append_right _ hs)

end

theorem File.extend_false (hv : v.Sound M) (hlt : data.length + cnt < 2 ^ 31)
    (hx : v.inodeExtendFile data cnt = some (false, v', data')) : v' = v := by
  by_cases hspc : sectorsFor (data.length + cnt) - sectorsFor data.length ≤ v.freeSectors.length
  · by_cases hmax : data.length + cnt ≤ MAX_LENGTH
    · obtain ⟨_, _, hx', -⟩ := h.extend hv hmax hspc
      simp [hx'] at hx
    · simp [h.extend_huge hv (not_le.mp hmax) hlt hspc] at hx
  · rw [h.extend_full hlt (not_le.mp hspc)] at hx
    simp only [some.injEq, Prod.mk.injEq] at hx
    exact hx.2.1.symm

/-- `inode_extend_file` writes the free map before it writes the file. -/
theorem File.mirrored_extend (hv : v.Sound M) (hm : v.Mirrored M) (hlt : data.length + cnt < 2 ^ 31)
    (hx : v.inodeExtendFile data cnt = some (ok, v', data')) : v'.Mirrored M := by
  by_cases hspc : sectorsFor (data.length + cnt) - sectorsFor data.length ≤ v.freeSectors.length
  swap
  · rw [h.extend_full hlt (not_le.mp hspc)] at hx
    obtain ⟨-, rfl, -⟩ := hx
    exact hm
  by_cases hmax : data.length + cnt ≤ MAX_LENGTH
  swap
  · simp [h.extend_huge hv (not_le.mp hmax) hlt hspc] at hx
  unfold inodeExtendFile at hx
  simp only [newSectors_eq hlt, if_neg (not_lt.mpr hspc)] at hx
  split_ifs at hx with hnew
  · obtain ⟨-, rfl, -⟩ := hx
    exact hm
  obtain ⟨v1, hp, ha⟩ := hv.mark_persist (v.added data cnt)
  obtain ⟨d', L', hene, hhld, -, -, hsame, happ⟩ := h.enter hv hmax hspc ha
  simp only [hp, hene, bind_eq_bind, bind_some] at hx
  obtain ⟨-, rfl, -⟩ := hx
  exact ((hv.of_mark _).mirrored_persist hm.anchored hp).mono hsame
    (fun s hs => ⟨hhld.valid.ne_zero s hs, happ s hs⟩) rfl rfl

end

end Volume

end Pintos
