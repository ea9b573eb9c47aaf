import Pintos.Filesys.Release

/-! # Failures of growth and creation

`inode_extend_file` and `inode_create` of `filesys/inode.c`, when there is no memory or the free map
cannot be written (`Luck`).  What is modelled in `Inode` is the case in which nothing of that kind
happens (`inodeExtendFileIn_lucky`, `inodeCreateIn_lucky`).  A write of the free map that fails writes
nothing. -/

namespace Pintos
open Bytes Function Option List

/-- What succeeds. -/
structure Luck where
  /-- The memory that `inode_create` asks for. -/
  diskInode : Bool
  zeros : Bool
  /-- The writes of the free map, for the sectors of the three tables and for those of the file. -/
  double : Bool
  ind : Bool
  dir : Bool
  available : Bool
  /-- The memory that `inode_extend_file` asks for. -/
  buffers : Bool

def Luck.all : Luck := ⟨true, true, true, true, true, true, true⟩

namespace Volume

/-- `free_map_file != NULL && !bitmap_write (..)`, negated. -/
def persistIf (v : Volume) (lucky : Bool) : Option (Bool × Volume) :=
  match v.freeMapFile with
  | none => some (true, v)
  | some file => if lucky then v.bitmapWrite file else some (false, v)

/-- `free_map_allocate_single`. -/
def allocateIf (v : Volume) (lucky : Bool) : Option (Option ℕ × Volume) :=
  match v.freeSectors.head? with
  | none => some (none, v)
  | some s => do
    let (ok, v) ← { v with freeMap := mark v.freeMap [s] }.persistIf lucky
    if ok then some (some s, v)
    else some (none, { v with freeMap := reset v.freeMap [s] })

/-- `inode_extend_file`, with the inode that it leaves. -/
def inodeExtendFileIn (luck : Luck) (v : Volume) (data : InodeDisk) (cnt : ℕ) :
    Option (Bool × Volume × InodeDisk) :=
  if data.magic = INODE_MAGIC then
    let new := newSectors data.length cnt
    if v.freeSectors.length < new then some (false, v, data)
    else
      let data' := { data with length := data.length + cnt }
      if new = 0 then some (true, v, data')
      else do
        let available := v.freeSectors.take new
        let (ok, v) ← { v with freeMap := mark v.freeMap available }.persistIf luck.available
        if ok then
          if luck.buffers then do
            let d ← enterSectors v.disk data data.length available
            some (true, { v with disk := d }, data')
          else some (false, v, data')
        else some (false, { v with freeMap := reset v.freeMap available }, data')
  else none

/-- `inode_create`; the second component says whether the inode has been written to `sector`. -/
def inodeCreateIn (luck : Luck) (v : Volume) (sector length : ℕ) (isDirectory : Bool) :
    Option (Bool × Bool × Volume) :=
  if luck.diskInode && luck.zeros then do
    let inode : InodeDisk := ⟨0, isDirectory, 0, INODE_MAGIC⟩
    let (double, v) ← v.allocateIf luck.double
    match double with
    | none => do
      let v ← v.cacheWrite sector inode.bytes
      some (false, true, v)
    | some double => do
      let inode := { inode with doubleIndirect := double }
      let (ind, v) ← v.allocateIf luck.ind
      match ind with
      | none => do
        let v ← v.freeMapReleaseSingle double
        let v ← v.cacheWrite sector inode.bytes
        some (false, true, v)
      | some ind => do
        let (dir, v) ← v.allocateIf luck.dir
        match dir with
        | none => do
          let v ← v.freeMapReleaseSingle double
          let v ← v.freeMapReleaseSingle ind
          let v ← v.cacheWrite sector inode.bytes
          some (false, true, v)
        | some dir => do
          let v ← v.cacheWrite dir Pintos.zeros
          let v ← v.cacheWrite ind (tableBytes (update (fun _ => 0) 0 dir))
          let v ← v.cacheWrite double (tableBytes (update (fun _ => 0) 0 ind))
          let (ok, v, inode) ← v.inodeExtendFileIn luck inode length
          if ok then do
            let v ← v.cacheWrite sector inode.bytes
            some (true, true, v)
          else do
            let v ← v.freeMapReleaseSingle ind
            let v ← v.freeMapReleaseSingle double
            some (false, false, v)
  else some (false, false, v)

variable {luck : Luck} {v v' : Volume} {data data' : InodeDisk} {cnt s : ℕ} {ok : Bool}

theorem persistIf_true (v : Volume) : v.persistIf true = v.persist := by
  unfold persistIf persist
  cases v.freeMapFile with
  | none => rfl
  | some file => rfl

theorem allocateIf_true (v : Volume) : v.allocateIf true = v.freeMapAllocateSingle := by
  unfold allocateIf freeMapAllocateSingle
  cases v.freeSectors.head? with
  | none => rfl
  | some s => simp only [persistIf_true]

theorem inodeExtendFileIn_lucky (v : Volume) (data : InodeDisk) (cnt : ℕ) :
    v.inodeExtendFileIn .all data cnt = v.inodeExtendFile data cnt := by
  simp only [inodeExtendFileIn, inodeExtendFile, Luck.all, persistIf_true, if_true]

theorem inodeCreateIn_lucky (v : Volume) (sector length : ℕ) (isDirectory : Bool) :
    (v.inodeCreateIn .all sector length isDirectory).map (fun r => (r.1, r.2.2)) =
      v.inodeCreate sector length isDirectory := by
  have hluck : (Luck.all.diskInode && Luck.all.zeros) = true := rfl
  rw [inodeCreateIn, if_pos hluck, inodeCreate]
  simp only [bind_eq_bind, inodeExtendFileIn_lucky]
  simp only [Luck.all, allocateIf_true, map_bind]
  apply Option.bind_congr
  rintro ⟨double, v1⟩ -
  cases double with
  | none => simp only [comp_apply, map_bind, map_some]
  | some double =>
    simp only [comp_apply, map_bind]
    apply Option.bind_congr
    rintro ⟨ind, v2⟩ -
    cases ind with
    | none => simp only [comp_apply, map_bind, map_some]
    | some ind =>
      simp only [comp_apply, map_bind]
      apply Option.bind_congr
      rintro ⟨dir, v3⟩ -
      cases dir with
      | none => simp only [comp_apply, map_bind, map_some]
      | some dir =>
        simp only [comp_apply, map_bind]
        apply Option.bind_congr
        intro v4 _
        apply Option.bind_congr
        intro v5 _
        apply Option.bind_congr
        intro v6 _
        apply Option.bind_congr
        rintro ⟨ok, v7, inode⟩ -
        cases ok with
        | false => simp only [comp_apply, Bool.false_eq_true, if_false, map_bind, map_some]
        | true => simp only [comp_apply, if_true, map_bind, map_some]

theorem persistIf_freeMap (h : v.persistIf ok = some (r, v')) : v'.freeMap = v.freeMap := by
  unfold persistIf at h
  cases hfile : v.freeMapFile with
  | none =>
    rw [hfile] at h
    cases h
    rfl
  | some file =>
    simp only [hfile] at h
    split_ifs at h
    · exact freeMap_bitmapWrite h
    · cases h
      rfl

theorem freeMap_of_allocateIf (h : v.allocateIf ok = some (some s, v')) :
    v.freeMap s = false ∧ v'.freeMap = mark v.freeMap [s] := by
  unfold allocateIf at h
  cases hs : v.freeSectors.head? with
  | none => simp [hs] at h
  | some a =>
    simp only [hs, bind_eq_bind, bind_eq_some_iff] at h
    obtain ⟨⟨r, w⟩, hp, h⟩ := h
    cases r with
    | false => simp at h
    | true =>
      cases h
      exact ⟨by simpa using (mem_filter.mp (mem_of_head? hs)).2, persistIf_freeMap hp⟩

/-- A failure of `inode_extend_file`: too few sectors are free, or the length has been changed. -/
theorem inodeExtendFileIn_false (h : v.inodeExtendFileIn luck data cnt = some (false, v', data')) :
    v.freeSectors.length < newSectors data.length cnt ∧ v' = v ∧ data' = data ∨
      ¬ v.freeSectors.length < newSectors data.length cnt ∧ newSectors data.length cnt ≠ 0 ∧
        data'.length = data.length + cnt ∧ ∀ s, v.freeMap s = true → v'.freeMap s = true := by
  simp only [inodeExtendFileIn, ite_none_right_eq_some] at h
  replace h := h.2
  by_cases hcou : v.freeSectors.length < newSectors data.length cnt
  · rw [if_pos hcou] at h
    cases h
    exact .inl ⟨hcou, rfl, rfl⟩
  rw [if_neg hcou] at h
  by_cases hnew : newSectors data.length cnt = 0
  · simp [if_pos hnew] at h
  · rw [if_neg hnew] at h
    refine .inr ⟨hcou, hnew, ?_⟩
    simp only [bind_eq_bind, bind_eq_some_iff] at h
    obtain ⟨⟨r, w⟩, hp, h⟩ := h
    have hmap := persistIf_freeMap hp
    have hmrk s (hs : v.freeMap s = true) : w.freeMap s = true := by
      rw [hmap]
      simp [mark, hs]
    cases r with
    | false =>
      cases h
      refine ⟨rfl, fun s hs => ?_⟩
      have hout : s ∉ v.freeSectors.take (newSectors data.length cnt) := fun hmem => by
        have := (mem_filter.mp (mem_of_mem_take hmem)).2
        simp [hs] at this
      simp [reset, hmrk s hs, hout]
    | true =>
      rw [if_pos rfl] at h
      split_ifs at h
      · obtain ⟨d, -, h⟩ := bind_eq_some_iff.mp h
        cases h
      · cases h
        exact ⟨rfl, hmrk⟩

theorem newSectors_zero {length : ℕ} (h : length < 2 ^ 31) : newSectors length 0 = 0 := by
  have hmod : ((length : ℤ) + (0 : ℕ) - 1).bmod (2 ^ 32) = length - 1 := by
    exact Int.bmod_eq_of_le (by omega) (by omega)
  simp only [newSectors, hmod]
  simp

/-- A failure of `inode_create` after it has got its memory: the inode has been written, or the
sector of the first block stays marked. -/
theorem inodeCreateIn_false {sector length : ℕ} (hmem : (luck.diskInode && luck.zeros) = true)
    (h : v.inodeCreateIn luck sector length isDirectory = some (false, written, v')) :
    written = true ∨ ∃ s, v.freeMap s = false ∧ v'.freeMap s = true := by
  rw [inodeCreateIn, if_pos hmem] at h
  simp only at h
  obtain ⟨⟨double, v1⟩, h1, h⟩ := bind_eq_some_iff.mp h
  cases double with
  | none =>
    obtain ⟨w, -, h⟩ := bind_eq_some_iff.mp h
    cases h
    exact .inl rfl
  | some double =>
    obtain ⟨⟨ind, v2⟩, h2, h⟩ := bind_eq_some_iff.mp h
    cases ind with
    | none =>
      obtain ⟨_, -, h⟩ := bind_eq_some_iff.mp h
      obtain ⟨_, -, h⟩ := bind_eq_some_iff.mp h
      cases h
      exact .inl rfl
    | some ind =>
      obtain ⟨⟨dir, v3⟩, h3, h⟩ := bind_eq_some_iff.mp h
      cases dir with
      | none =>
        obtain ⟨_, -, h⟩ := bind_eq_some_iff.mp h
        obtain ⟨_, -, h⟩ := bind_eq_some_iff.mp h
        obtain ⟨_, -, h⟩ := bind_eq_some_iff.mp h
        cases h
        exact .inl rfl
      | some dir =>
        obtain ⟨v4, h4, h⟩ := bind_eq_some_iff.mp h
        obtain ⟨v5, h5, h⟩ := bind_eq_some_iff.mp h
        obtain ⟨v6, h6, h⟩ := bind_eq_some_iff.mp h
        obtain ⟨⟨r, v7, inode⟩, h7, h⟩ := bind_eq_some_iff.mp h
        cases r with
        | true =>
          rw [if_pos rfl] at h
          obtain ⟨_, -, h⟩ := bind_eq_some_iff.mp h
          cases h
        | false =>
          obtain ⟨v8, h8, h⟩ := bind_eq_some_iff.mp h
          obtain ⟨v9, h9, h⟩ := bind_eq_some_iff.mp h
          cases h
          obtain ⟨-, hm1⟩ := freeMap_of_allocateIf h1
          obtain ⟨-, hm2⟩ := freeMap_of_allocateIf h2
          obtain ⟨hfree, hm3⟩ := freeMap_of_allocateIf h3
          -- the three sectors are different ones, since each is free when it is allocated
          rw [hm2, hm1] at hfree
          simp only [mark, mem_singleton, Bool.or_eq_false_iff] at hfree
          obtain ⟨⟨hfree, hne⟩, hne'⟩ := hfree
          refine .inr ⟨dir, hfree, ?_⟩
          have hsix : v6.freeMap dir = true := by
            rw [freeMap_cacheWrite h6, freeMap_cacheWrite h5, freeMap_cacheWrite h4, hm3]
            simp [mark]
          have hsvn : v7.freeMap dir = true := by
            rcases inodeExtendFileIn_false h7 with ⟨-, rfl, -⟩ | ⟨-, -, -, hkeep⟩
            · exact hsix
            · exact hkeep dir hsix
          rw [freeMap_release h9, freeMap_release h8]
          simp [reset, hsvn, hne, hne']

/-- A failed growth leaves no trace only if too few sectors were free, and a failed creation only if
there was no memory for it. -/
theorem fails_atomically_iff (luck : Luck) (v : Volume) :
    (∀ data cnt v' data', data.length < 2 ^ 31 →
      v.inodeExtendFileIn luck data cnt = some (false, v', data') →
      (data'.length = data.length ∧ v'.freeMap = v.freeMap ∧ v'.disk = v.disk ↔
        v.freeSectors.length < newSectors data.length cnt)) ∧
    ∀ sector length isDirectory written v',
      v.inodeCreateIn luck sector length isDirectory = some (false, written, v') →
      (v'.freeMap = v.freeMap ∧ written = false ↔ (luck.diskInode && luck.zeros) = false) := by
  refine ⟨fun data cnt v' data' hlen h => ?_, fun sector length isDirectory written v' h => ?_⟩
  · rcases inodeExtendFileIn_false h with ⟨hcou, rfl, rfl⟩ | ⟨hcou, hnew, hlng, -⟩
    · exact iff_of_true ⟨rfl, rfl, rfl⟩ hcou
    · refine iff_of_false (fun h => hnew ?_) hcou
      obtain rfl : cnt = 0 := by omega
      exact newSectors_zero hlen
  · cases hmem : luck.diskInode && luck.zeros with
    | false =>
      rw [inodeCreateIn, if_neg (by simp [hmem])] at h
      cases h
      exact iff_of_true ⟨rfl, rfl⟩ rfl
    | true =>
      refine iff_of_false ?_ nofun
      rintro ⟨hsame, rfl⟩
      rcases inodeCreateIn_false hmem h with hw | ⟨s, hfree, hmrk⟩
      · cases hw
      · rw [hsame, hfree] at hmrk
        cases hmrk

/-- The new length is kept when the free map cannot be written: the file in the sector of the root
directory is empty, it should grow by 600 bytes, and `inode_extend_file` returns false. -/
theorem length_kept_after_failure : ∃ v v₁ inode v' data',
    (freeMapInit ⟨64, fun _ _ => 0⟩).freeMapCreate = some v ∧
    v.inodeCreate ROOT_DIR_SECTOR 0 false = some (true, v₁) ∧
    v₁.inodeOpen ROOT_DIR_SECTOR = some inode ∧
    v₁.inodeExtendFileIn { Luck.all with available := false } inode.data 600 =
      some (false, v', data') ∧ inode.data.length = 0 ∧ data'.length = 600 := by
  obtain ⟨v, v₁, M, double, L, hv, -, hfile, -, -, hcou, hlt, hcrt, hc⟩ :=
    OpenFile.exists_file 0 (by decide) (by decide)
  obtain ⟨file, hsome⟩ := isSome_iff_exists.mp (hc.file.symm ▸ hfile)
  have hfree : ¬ v₁.freeSectors.length < newSectors 0 600 := by
    have hnew : newSectors 0 600 = 1 := by decide
    have hthr : sectorsToCreate 0 = 3 := by decide
    omega
  have h : ∃ w, v₁.inodeExtendFileIn { Luck.all with available := false }
      ⟨0, false, double, INODE_MAGIC⟩ 600 = some (false, w, ⟨600, false, double, INODE_MAGIC⟩) := by
    rw [inodeExtendFileIn, if_pos rfl]
    simp only [if_neg hfree, persistIf, hsome]
    exact ⟨_, rfl⟩
  obtain ⟨w, h⟩ := h
  exact ⟨v, v₁, _, _, _, hv, hcrt, hc.inodeOpen hlt, h, rfl, rfl⟩

/-- A growth by more than the device has room for. -/
theorem fails_atomically_small : ∃ v v₁ inode v' data',
    (freeMapInit ⟨64, fun _ _ => 0⟩).freeMapCreate = some v ∧
    v.inodeCreate ROOT_DIR_SECTOR 0 false = some (true, v₁) ∧
    v₁.inodeOpen ROOT_DIR_SECTOR = some inode ∧
    v₁.inodeExtendFileIn .all inode.data 40000 = some (false, v', data') ∧
    data'.length = inode.data.length ∧ v'.freeMap = v₁.freeMap := by
  obtain ⟨v, v₁, M, double, L, hv, -, -, -, -, hcou, hlt, hcrt, hc⟩ :=
    OpenFile.exists_file 0 (by decide) (by decide)
  have hfew : v₁.freeSectors.length < newSectors 0 40000 := by
    have hnew : 59 < newSectors 0 40000 := by decide
    omega
  have h : v₁.inodeExtendFileIn .all ⟨0, false, double, INODE_MAGIC⟩ 40000 =
      some (false, v₁, ⟨0, false, double, INODE_MAGIC⟩) := by
    rw [inodeExtendFileIn, if_pos rfl]
    exact if_pos hfew
  have hkept := ((fails_atomically_iff _ _).1 _ _ _ _ (Nat.two_pow_pos 31) h).mpr hfew
  exact ⟨v, v₁, _, _, _, hv, hcrt, hc.inodeOpen hlt, h, hkept.1, hkept.2.1⟩

end Volume

end Pintos
