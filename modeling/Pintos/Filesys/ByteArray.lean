import Pintos.Filesys.FreeMap

/-! # A file is a growable byte array

What `inode_create`, `inode_open`, `inode_read_at` and `inode_write_at` do, in terms of a list of
bytes: an inode that has been created holds zeros, a read returns a part of the list, and a write
overwrites a part of it after the list has been extended with zeros as far as needed. -/

namespace Pintos
open Bytes Disk Runs Function Option List Volume

namespace Volume

variable {v v' : Volume} {M : List ℕ} {data : InodeDisk} {L : Layout} {F : ℕ → UInt8}
  {inode : Inode}

/-! ### Creating -/

/-- A table whose first entry is `t`. -/
abbrev firstEntry (t : ℕ) : Table := update (fun _ => 0) 0 t

/-- The device with an empty file in the sectors `a`, `b` and `c`. -/
abbrev putFirst (d : Disk) (a b c : ℕ) : Disk :=
  ((d.put c zeros 0).put b (tableBytes (firstEntry c)) 0).put a (tableBytes (firstEntry b)) 0

/-- The file that the first three sectors are made into. -/
theorem holds_first {d : Disk} (isDirectory : Bool) (hsize : d.size < 2 ^ 32)
    (hnd : [a, b, c].Nodup) (hv : ∀ s ∈ [a, b, c], s ≠ 0 ∧ s < d.size) :
    Holds (putFirst d a b c) ⟨0, isDirectory, a, INODE_MAGIC⟩ ⟨[b], [c]⟩ fun _ => 0 := by
  have hb := (hv b (by simp)).2.trans hsize
  have hc := (hv c (by simp)).2.trans hsize
  simp only [nodup_cons, mem_cons, not_mem_nil, not_or, not_false_eq_true,
    nodup_nil, and_true] at hnd
  obtain ⟨⟨hab, hac⟩, hbc⟩ := hnd
  have htbl : ∀ blk (t k : ℕ), t < 2 ^ 32 → k < NUM_ENTRIES_IN_INDIRECT →
      entry (overwrite blk 0 (tableBytes (firstEntry t))) k = [t].getD k 0 := by
    intro blk t k ht hk
    have hval : firstEntry t k = [t].getD k 0 := by cases k <;> simp
    have hlt : firstEntry t k < 2 ^ 32 := by
      rw [firstEntry, update_apply]
      split_ifs
      · exact ht
      · decide
    rw [entry_tableBytes _ hk hlt, hval]
  exact {
    magic := rfl
    bound := Nat.zero_le _
    secs_length := show 1 = dataSectors 0 by decide
    tabs_length := show 1 = tablesFor 1 by decide
    valid := {
      nodup := by simp [Layout.owned, hab, hac, hbc]
      ne_zero := fun s hs => (hv s hs).1
      lt_size := fun s hs => (hv s hs).2 }
    double := by
      intro k hk
      rw [put_block_self]
      exact htbl _ b k hb hk
    single := by
      intro m hm j hj
      cases Nat.lt_one_iff.mp hm
      show entry (Disk.block _ b) j = _
      rw [put_block_of_ne (Ne.symm hab), put_block_self, htbl _ c j hc hj, Nat.mul_zero,
        zero_add]
    bytes := by
      intro m hm o ho
      cases Nat.lt_one_iff.mp hm
      show Disk.block _ c o = _
      rw [put_block_of_ne (Ne.symm hac), put_block_of_ne (Ne.symm hbc), put_block_self,
        overwrite_zeros _ ho]
    zero := fun _ _ => rfl }

/-- `v'` is `v` with a new file of zeros and its inode in `sector`. -/
structure Created (M : List ℕ) (sector : ℕ) (data : InodeDisk) (L : Layout) (v v' : Volume) :
    Prop extends Spares M [sector] v v' where
  sound : v'.Sound M
  fileOf : v'.File M data L fun _ => 0
  fresh : ∀ s ∈ L.owned data.doubleIndirect, v.freeMap s = false
  marks : v'.freeMap = mark v.freeMap (L.owned data.doubleIndirect)
  first : v.freeSectors.head? = some data.doubleIndirect
  stored : InodeDisk.ofBytes (slice (v'.disk.block sector) 0 BLOCK_SECTOR_SIZE) = data

/-- The number of sectors that `inode_create` allocates for a file of `length` bytes. -/
def sectorsToCreate (length : ℕ) : ℕ := 3 + (sectorsFor length - sectorsFor 0)

theorem cacheWrite_eq (hs : s < v.disk.size) (hbuf : buf.length ≤ BLOCK_SECTOR_SIZE) :
    v.cacheWrite s buf = some { v with disk := v.disk.put s buf 0 } := by
  unfold cacheWrite
  rw [Disk.cacheWrite_eq hs (by omega)]
  rfl

/-- Three allocations and three writes make an empty file; this is the state in which
`inode_create` calls `inode_extend_file`. -/
theorem Sound.first_sectors (hv : v.Sound M)
    (hfree : v.freeSectors = a :: b :: c :: rest) (isDirectory : Bool) : ∃ v6 : Volume,
      (∀ sector length, v.inodeCreate sector length isDirectory =
        (v6.inodeExtendFile ⟨0, isDirectory, a, INODE_MAGIC⟩ length).bind fun (ok, v, inode) =>
          if ok then (v.cacheWrite sector inode.bytes).bind fun v => some (true, v)
          else (v.freeMapReleaseSingle b).bind fun v => (v.freeMapReleaseSingle a).bind fun v =>
            some (false, v)) ∧
      v6.Sound M ∧ v6.File M ⟨0, isDirectory, a, INODE_MAGIC⟩ ⟨[b], [c]⟩ (fun _ => 0) ∧
      Spares M [] v v6 ∧ v6.freeMap = mark v.freeMap [a, b, c] ∧ v6.freeSectors = rest ∧
      (v.Mirrored M → v6.Mirrored M) := by
  obtain ⟨v1, h1, ha1⟩ := hv.allocate hfree
  have hfree1 := ha1.freeSectors_single hfree
  obtain ⟨v2, h2, ha2⟩ := ha1.sound.allocate hfree1
  have hfree2 := ha2.freeSectors_single hfree1
  obtain ⟨v3, h3, ha3⟩ := ha2.sound.allocate hfree2
  have hfree3 := ha3.freeSectors_single hfree2
  have hsize : v3.disk.size = v.disk.size := ha3.same.1.trans (ha2.same.1.trans ha1.same.1)
  have hmap : v3.freeMap = mark v.freeMap [a, b, c] := by
    rw [ha3.map, ha2.map, ha1.map]
    funext s
    simp [mark, Bool.or_assoc]
  have hin : ∀ s ∈ [a, b, c], s ∈ v.freeSectors := fun s hs => hfree ▸ mem_append_left rest hs
  have hmem : ∀ s ∈ [a, b, c], s < v.disk.size ∧ v.freeMap s = false := fun s hs =>
    mem_freeSectors.mp (hin s hs)
  have hapr0 : ∀ s ∈ [a, b, c], s ≠ 0 ∧ s ∉ M := fun s hs => hv.apart_of_free (hin s hs)
  have hvalid : ∀ s ∈ [a, b, c], s ≠ 0 ∧ s < v3.disk.size := fun s hs =>
    ⟨(hapr0 s hs).1, hsize ▸ (hmem s hs).1⟩
  have hapr : ∀ s ∈ [a, b, c], s ∉ M := fun s hs => (hapr0 s hs).2
  have hnd : [a, b, c].Nodup := by
    have := nodup_freeSectors v
    rw [hfree] at this
    exact this.sublist (sublist_append_left [a, b, c] rest)
  have hsame : SameOutside [a, b, c] v3.disk (putFirst v3.disk a b c) :=
    ((sameOutside_put (by simp)).trans (sameOutside_put (by simp))).trans
      (sameOutside_put (by simp))
  have h4 := cacheWrite_eq (v := v3) (hvalid c (by simp)).2 (show zeros.length ≤ _ by simp [zeros])
  have h5 := cacheWrite_eq (v := { v3 with disk := v3.disk.put c zeros 0 }) (hvalid b (by simp)).2
    (show (tableBytes (firstEntry c)).length ≤ _ by simp [tableBytes])
  have h6 := cacheWrite_eq (v := { v3 with
      disk := (v3.disk.put c zeros 0).put b (tableBytes (firstEntry c)) 0 }) (hvalid a (by simp)).2
    (show (tableBytes (firstEntry b)).length ≤ _ by simp [tableBytes])
  refine ⟨{ v3 with disk := putFirst v3.disk a b c }, fun sector length => ?_,
    ha3.sound.mono hsame hapr rfl fun _ hs _ => hs,
    ⟨holds_first isDirectory ha3.sound.size hnd hvalid, fun s hs => ?_, hapr⟩, ?_, hmap, hfree3,
    fun hm => ?_⟩
  · simp [inodeCreate, h1, h2, h3, h4, h5, h6]
  · have hs' : s ∈ [a, b, c] := hs
    simp [hmap, mark, hs']
  · have hspr := (ha1.spares.trans ha2.spares (by simp)).trans ha3.spares (by simp)
    refine ⟨hspr.file, hsize, hspr.map, fun s hs hM _ => ?_⟩
    rw [← hspr.block s hs hM (by simp)]
    refine hsame.2 s fun hs' => ?_
    simp [(hmem s hs').2] at hs
  · have hm3 := ha2.sound.mirrored_allocate
      (ha1.sound.mirrored_allocate (hv.mirrored_allocate hm h1) h2) h3
    exact ((hm3.cacheWrite (hapr0 c (by simp)) h4).cacheWrite (hapr0 b (by simp)) h5).cacheWrite
      (hapr0 a (by simp)) h6

theorem reset_mark (ha : bits a = false) : reset (mark bits [a]) [a] = bits := by
  funext x
  by_cases hx : x = a
  · simp [reset, hx, ha]
  · simp [reset, mark, hx]

theorem reset_mark_comm (hab : a ≠ b) : reset (mark bits [b]) [a] = mark (reset bits [a]) [b] := by
  funext x
  by_cases hb : x = b
  · simp [reset, mark, hb, hab.symm]
  · simp [reset, mark, hb]

/-- With fewer than three free sectors `inode_create` releases what it has allocated and fails. -/
theorem Sound.inodeCreate_few (hv : v.Sound M) {sector length : ℕ} (hfew : v.freeSectors.length < 3)
    (h : v.inodeCreate sector length isDirectory = some (ok, v')) :
    ok = false ∧ v'.freeMap = v.freeMap ∧ (sector ∉ M → v'.Sound M ∧ Spares M [sector] v v' ∧
      (sector ≠ 0 → v.Mirrored M → v'.Mirrored M)) := by
  have hfrd : ∀ {x}, x ∈ v.freeSectors → v.freeMap x = false ∧ x ≠ 0 ∧ x ∉ M := fun hx =>
    ⟨(mem_freeSectors.mp hx).2, hv.apart_of_free hx⟩
  -- the state before the inode is written
  obtain ⟨rfl, w, buf, hw, hs, hspr, hmap, hm⟩ : ok = false ∧ ∃ w buf,
      w.cacheWrite sector buf = some v' ∧ w.Sound M ∧ Spares M [sector] v w ∧
      w.freeMap = v.freeMap ∧ (v.Mirrored M → w.Mirrored M) := by
    unfold inodeCreate at h
    match hfree : v.freeSectors with
    | [] =>
      simp only [freeMapAllocateSingle_none hfree, bind_eq_bind, bind_some, bind_eq_some_iff] at h
      obtain ⟨_, hw, rfl, rfl⟩ := h
      exact ⟨rfl, v, _, hw, hv, .refl v, rfl, id⟩
    | [a] =>
      obtain ⟨v1, h1, ha1⟩ := hv.allocate hfree
      simp only [h1, freeMapAllocateSingle_none (ha1.freeSectors_single hfree),
        bind_eq_bind, bind_some, bind_eq_some_iff] at h
      obtain ⟨v2, hr, _, hw, rfl, rfl⟩ := h
      obtain ⟨ha, hapr⟩ := @hfrd a (by simp [hfree])
      obtain ⟨hv2, hs2⟩ := (ha1.spares.mono (by simp)).release hv ha1.sound ha hr
      refine ⟨rfl, v2, _, hw, hv2, hs2, ?_, fun hm =>
        ha1.sound.mirrored_release (hv.mirrored_allocate hm h1) hapr hr⟩
      rw [freeMap_release hr, ha1.map, reset_mark ha]
    | [a, b] =>
      obtain ⟨v1, h1, ha1⟩ := hv.allocate hfree
      have hfree1 := ha1.freeSectors_single hfree
      obtain ⟨v2, h2, ha2⟩ := ha1.sound.allocate hfree1
      simp only [h1, h2, freeMapAllocateSingle_none (ha2.freeSectors_single hfree1),
        bind_eq_bind, bind_some, bind_eq_some_iff] at h
      obtain ⟨v3, hr, v4, hr', _, hw, rfl, rfl⟩ := h
      obtain ⟨ha, hapr⟩ := @hfrd a (by simp [hfree])
      obtain ⟨hb, hapr'⟩ := @hfrd b (by simp [hfree])
      have hne : a ≠ b := by
        have hndp := v.nodup_freeSectors
        rw [hfree] at hndp
        simpa using hndp
      obtain ⟨hv3, hs3⟩ := ((ha1.spares.trans ha2.spares (by simp)).mono (by simp)).release hv
        ha2.sound ha hr
      obtain ⟨hv4, hs4⟩ := hs3.release hv hv3 hb hr'
      refine ⟨rfl, v4, _, hw, hv4, hs4, ?_, fun hm => hv3.mirrored_release (ha2.sound.mirrored_release
        (ha1.sound.mirrored_allocate (hv.mirrored_allocate hm h1) h2) hapr hr) hapr' hr'⟩
      rw [freeMap_release hr', freeMap_release hr, ha2.map, ha1.map, reset_mark_comm hne,
        reset_mark ha, reset_mark hb]
    | _ :: _ :: _ :: _ =>
      rw [hfree] at hfew
      simp only [length_cons] at hfew
      omega
  refine ⟨rfl, (freeMap_cacheWrite hw).trans hmap, fun hM => ?_⟩
  obtain ⟨hs', hspr'⟩ := hspr.cacheWrite hs mem_cons_self hM hw
  exact ⟨hs', hspr', fun h0 hm0 => (hm hm0).cacheWrite ⟨h0, hM⟩ hw⟩

theorem exists_three (h : ¬ v.freeSectors.length < 3) :
    ∃ a b c rest, v.freeSectors = a :: b :: c :: rest := by
  match hf : v.freeSectors with
  | [] | [_] | [_, _] => rw [hf] at h; simp at h
  | a :: b :: c :: rest => exact ⟨a, b, c, rest, rfl⟩

/-- `inode_create` with enough free sectors. -/
theorem Sound.inodeCreate (hv : v.Sound M) {sector length : ℕ} (isDirectory : Bool)
    (hmrk : v.freeMap sector = true) (hlt : sector < v.disk.size) (hM : sector ∉ M)
    (hmax : length ≤ MAX_LENGTH) (hspc : sectorsToCreate length ≤ v.freeSectors.length) :
    ∃ v' double L, v.inodeCreate sector length isDirectory = some (true, v') ∧
      Created M sector ⟨length, isDirectory, double, INODE_MAGIC⟩ L v v' := by
  unfold sectorsToCreate at hspc
  obtain ⟨a, b, c, rest, hfree⟩ := exists_three (show ¬ v.freeSectors.length < 3 by omega)
  obtain ⟨v6, heq, hs6, hf6, hsp6, hmap6, hfree6, -⟩ := hv.first_sectors hfree isDirectory
  have hrest : sectorsFor (0 + length) - sectorsFor 0 ≤ v6.freeSectors.length := by
    rw [hfree] at hspc
    simp only [length_cons] at hspc
    rw [hfree6, zero_add]
    omega
  obtain ⟨v7, L, hext, hx⟩ := hf6.extend hs6 (show 0 + length ≤ MAX_LENGTH by omega) hrest
  have hfrs : ∀ s ∈ L.owned a, v.freeMap s = false := fun s hs => by
    have hmem : s ∈ v.freeSectors := by
      rw [hfree]
      rcases mem_append.mp (hx.owned.mem_iff.mp hs) with hs | hs
      · exact mem_append_left rest hs
      · exact mem_append_right [a, b, c] (hfree6 ▸ mem_of_mem_take hs)
    exact (mem_freeSectors.mp hmem).2
  have hsct : sector ∉ L.owned a := fun hs => by
    simp [hfrs sector hs] at hmrk
  have hsize7 := hx.same.1.trans hsp6.size
  have hmap := hx.map
  have hiff : ∀ s, s ∈ L.owned a ↔ s ∈ [a, b, c] ∨ s ∈ v6.freeSectors.take _ := fun s =>
    hx.owned.mem_iff.trans mem_append
  have hflf := hx.fileOf
  simp only [zero_add] at hext hflf
  obtain ⟨inode, hino⟩ : ∃ inode : InodeDisk,
    inode = ⟨length, isDirectory, a, INODE_MAGIC⟩ := ⟨_, rfl⟩
  have hwrt := cacheWrite_eq (show sector < v7.disk.size by omega)
    (show inode.bytes.length ≤ BLOCK_SECTOR_SIZE by simp [InodeDisk.bytes])
  have hput : SameOutside [sector] v7.disk (v7.disk.put sector inode.bytes 0) :=
    sameOutside_put mem_cons_self
  refine ⟨{ v7 with disk := v7.disk.put sector inode.bytes 0 }, a, L, ?_, ?_⟩
  · simp [heq, hext, ← hino, hwrt]
  subst hino
  exact {
    sound := hx.sound.mono hput (by simpa using hM) rfl fun _ hs _ => hs
    fileOf := hflf.mono hput (by simpa using hsct) hflf.marked
    toSpares := by
      have hfir := hsp6.trans hx.spares fun s hs hm => by
        simp [hfrs s ((hiff s).mpr (.inl hs))] at hm
      refine ⟨hfir.file, hfir.size, hfir.map, fun s hs hM hsec => ?_⟩
      rw [← hfir.block s hs hM (by simp)]
      exact hput.2 s hsec
    fresh := hfrs
    marks := by
      funext s
      simp [hmap, hmap6, mark, hiff, Bool.or_assoc]
    first := by rw [hfree, head?_cons]
    stored := by
      rw [put_block_self]
      have hdbl := hf6.holds.valid.lt_size a Layout.double_mem
      have hdisk := hs6.size
      rw [MAX_LENGTH_eq] at hmax
      exact ofBytes_bytes _ (show length < 2 ^ 32 by omega) (hdbl.trans hdisk)
        (show INODE_MAGIC < 2 ^ 32 by decide) }

/-- `inode_create` only succeeds with enough free sectors, and for a length that the tables can
describe. -/
theorem Sound.space_of_create (hv : v.Sound M) {sector length : ℕ}
    (hlt : length < 2 ^ 31) (h : v.inodeCreate sector length isDirectory = some (true, v')) :
    length ≤ MAX_LENGTH ∧ sectorsToCreate length ≤ v.freeSectors.length := by
  by_cases hfew : v.freeSectors.length < 3
  · cases (hv.inodeCreate_few hfew h).1
  obtain ⟨a, b, c, rest, hfree⟩ := exists_three hfew
  obtain ⟨v6, heq, hs6, hf6, -, -, hfree6, -⟩ := hv.first_sectors hfree isDirectory
  rw [heq] at h
  obtain ⟨⟨ok, r⟩, hext, h⟩ := bind_eq_some_iff.mp h
  cases ok with
  | false => simp [bind_eq_some_iff] at h
  | true =>
    have hspc : sectorsFor (0 + length) - sectorsFor 0 ≤ v6.freeSectors.length := by
      by_contra hno
      rw [hf6.extend_full (show 0 + length < 2 ^ 31 by omega) (not_le.mp hno)] at hext
      simp at hext
    constructor
    · by_contra hlo
      rw [hf6.extend_huge hs6 (by omega)
        (show 0 + length < 2 ^ 31 by omega) hspc] at hext
      cases hext
    · rw [hfree6, zero_add] at hspc
      unfold sectorsToCreate
      rw [hfree]
      simp only [length_cons]
      omega

/-- The free map file is right after any call of `inode_create`. -/
theorem Sound.mirrored_inodeCreate (hv : v.Sound M) (hm : v.Mirrored M) {sector length : ℕ}
    (hsct : sector ≠ 0 ∧ sector ∉ M) (hlt : length < 2 ^ 31)
    (h : v.inodeCreate sector length isDirectory = some (ok, v')) : v'.Mirrored M := by
  by_cases hfew : v.freeSectors.length < 3
  · exact ((hv.inodeCreate_few hfew h).2.2 hsct.2).2.2 hsct.1 hm
  obtain ⟨a, b, c, rest, hfree⟩ := exists_three hfew
  obtain ⟨v6, heq, hs6, hf6, -, -, -, hm6⟩ := hv.first_sectors hfree isDirectory
  rw [heq] at h
  obtain ⟨⟨ok', v7, inode⟩, hext, hend⟩ := bind_eq_some_iff.mp h
  have hm7 := hf6.mirrored_extend hs6 (hm6 hm) (show 0 + length < 2 ^ 31 by omega) hext
  cases ok' with
  | true =>
    simp only [if_true, bind_eq_some_iff] at hend
    obtain ⟨_, hw, -, rfl⟩ := hend
    exact hm7.cacheWrite hsct hw
  | false =>
    simp only [Bool.false_eq_true, if_false, bind_eq_some_iff] at hend
    obtain ⟨v8, hr, _, hr', -, rfl⟩ := hend
    cases hf6.extend_false hs6 (show 0 + length < 2 ^ 31 by omega) hext
    have ha := hv.apart_of_free (s := a) (by simp [hfree])
    have hb := hv.apart_of_free (s := b) (by simp [hfree])
    exact (hs6.of_release hb hr).1.mirrored_release (hs6.mirrored_release hm7 hb hr) ha hr'

/-! ### Opening -/

theorem Created.inodeOpen (h : Created M sector data L v v') (hlt : sector < v.disk.size) :
    v'.inodeOpen sector = some ⟨sector, 1, false, 0, data, 0, none⟩ := by
  unfold Volume.inodeOpen
  rw [cacheRead_eq (h.size ▸ hlt) le_rfl]
  simp [h.stored, h.fileOf.holds.magic]

/-! ### Formatting -/

theorem sound_freeMapInit (h : d.size < 2 ^ 32) : (freeMapInit d).Sound [] where
  file := rfl
  marked := by simp
  zero := rfl
  size := h

theorem Created.length_owned (h : Created M sector data L v v') :
    (L.owned data.doubleIndirect).length = sectorsToCreate data.length := by
  have hsecs := h.fileOf.holds.secs_length
  have htabs := h.fileOf.holds.tabs_length
  have hzero : sectorsFor 0 = 2 := by decide
  have hpos : 2 ≤ sectorsFor data.length :=
    Nat.add_le_add (Nat.succ_le_succ (Nat.zero_le _)) (Nat.succ_le_succ (Nat.zero_le _))
  simp only [Layout.owned, length_cons, length_append, htabs, hsecs, sectorsToCreate, hzero]
  unfold sectorsFor at hpos ⊢
  omega

theorem Created.length_freeSectors (h : Created M sector data L v v') :
    v'.freeSectors.length + sectorsToCreate data.length = v.freeSectors.length := by
  rw [← h.length_owned]
  apply length_freeSectors_of_mark h.size h.marks h.fileOf.holds.valid.nodup
  intro s hs
  exact mem_freeSectors.mpr ⟨h.size ▸ h.fileOf.holds.valid.lt_size s hs, h.fresh s hs⟩

/-- `free_map_create` leaves a free map that can be written. -/
theorem sound_freeMapCreate (hpos : 0 < d.size) (hsize : d.size ≤ 2 ^ 26)
    (hspc : sectorsToCreate (byteCnt d.size) ≤ (freeMapInit d).freeSectors.length) :
    ∃ v M, (freeMapInit d).freeMapCreate = some v ∧ v.Sound M ∧ v.freeMapFile.isSome ∧
      v.disk.size = d.size ∧ ROOT_DIR_SECTOR ∉ M ∧ v.freeMap ROOT_DIR_SECTOR = true ∧
      v.freeSectors.length + sectorsToCreate (byteCnt d.size) =
        (freeMapInit d).freeSectors.length ∧ v.Mirrored M := by
  have hlen : byteCnt d.size ≤ MAX_LENGTH := by
    unfold byteCnt
    rw [MAX_LENGTH_eq]
    omega
  obtain ⟨v1, double, L, hcrt, hc⟩ := (sound_freeMapInit (by omega)).inodeCreate
    false (show (freeMapInit d).freeMap FREE_MAP_SECTOR = true from rfl) hpos (by simp) hlen hspc
  have hopen := hc.inodeOpen hpos
  generalize hdata : (⟨byteCnt d.size, false, double, INODE_MAGIC⟩ : InodeDisk) = data at *
  have hs2 : Sound { v1 with freeMapFile := some data } (L.owned data.doubleIndirect) := {
    file := by
      refine ⟨L, _, hc.fileOf.holds, ?_, rfl⟩
      rw [hc.size, ← hdata]
      exact le_rfl
    marked := hc.fileOf.marked
    zero := hc.sound.zero
    size := hc.sound.size }
  obtain ⟨v3, hw, hw'⟩ := hs2.bitmapWrite rfl
  have hroot : ROOT_DIR_SECTOR ∉ L.owned data.doubleIndirect := fun hs =>
    absurd (hc.fresh _ hs) (by simp [freeMapInit])
  refine ⟨v3, _, ?_, hw'.sound, by rw [hw'.file]; rfl, hw'.same.1.trans hc.size, hroot, ?_, ?_,
    hs2.mirrored_bitmapWrite (fun file hf => ?_) rfl hw⟩
  · unfold freeMapCreate
    rw [show (freeMapInit d).disk.size = d.size from rfl, hcrt]
    simp [hopen, hw]
  · rw [hw'.map]
    exact hc.map _ rfl
  · have hcou := hc.length_freeSectors
    have hfree : v3.freeSectors = v1.freeSectors := by
      unfold freeSectors
      rw [hw'.same.1, hw'.map]
    rw [hfree, ← hcou, ← hdata]
  · cases hf
    exact congrArg (Option.map Inode.data) hopen

/-! ### Writing -/

/-- What a write keeps: marked sectors stay marked, and the file does not take them in.  The data
sectors stay where they are. -/
structure Keeps (M : List ℕ) (double : ℕ) (L L' : Layout) (v v' : Volume) : Prop
    extends Spares M (L.owned double) v v' where
  owned : ∀ s, v.freeMap s = true → s ∉ L.owned double → s ∉ L'.owned double
  secs : L.secs <+: L'.secs

theorem Keeps.refl (M : List ℕ) (double : ℕ) (L : Layout) (v : Volume) : Keeps M double L L v v :=
  ⟨⟨rfl, rfl, fun _ => id, fun _ _ _ _ => rfl⟩, fun _ _ => id, prefix_rfl⟩

/-- The part of `inode_write_at` before its loop makes the file long enough. -/
theorem File.growTo (h : v.File M data L F) (hv : v.Sound M) (hmax : n ≤ MAX_LENGTH)
    (hspc : sectorsFor (max data.length n) - sectorsFor data.length ≤ v.freeSectors.length) :
    ∃ v' L', v.growTo data n = some (v', { data with length := max data.length n }) ∧
      v'.Sound M ∧ v'.File M { data with length := max data.length n } L' F ∧
      Keeps M data.doubleIndirect L L' v v' ∧ (n ≤ data.length → v' = v) := by
  unfold Volume.growTo
  by_cases hlt : data.length < n
  · have hmaxn : max data.length n = n := by omega
    have hcnt : ((n : ℤ) - data.length).toNat = n - data.length := by omega
    have hsum : data.length + (n - data.length) = n := by omega
    rw [hmaxn] at hspc ⊢
    obtain ⟨v', L', hext, hx⟩ := h.extend hv
      (show data.length + (n - data.length) ≤ MAX_LENGTH by omega) (by rw [hsum]; exact hspc)
    have hflf := hx.fileOf
    rw [hsum] at hext hflf
    refine ⟨v', L', ?_, hx.sound, hflf, ⟨hx.spares, fun s hs hsL => hx.not_owned hs hsL, hx.secs⟩,
      fun hle => by omega⟩
    rw [if_pos (by omega), hcnt, hext]
    rfl
  · have hmaxn : max data.length n = data.length := by omega
    rw [hmaxn]
    exact ⟨v, L, if_neg (by omega), hv, h, .refl _ _ _ _, fun _ => rfl⟩

/-- `inode_write_at` with enough free sectors writes everything. -/
theorem File.inodeWriteAt (h : v.File M inode.data L F) (hv : v.Sound M) {buf : List UInt8}
    {offset : ℕ} (hdeny : inode.denyWriteCnt = 0) (hmax : offset + buf.length ≤ MAX_LENGTH)
    (hspc : sectorsFor (max inode.data.length (offset + buf.length)) -
      sectorsFor inode.data.length ≤ v.freeSectors.length) :
    ∃ v' L' inode', v.inodeWriteAt inode buf offset = some (buf.length, v', inode') ∧
      inode' = { inode with data :=
        { inode.data with length := max inode.data.length (offset + buf.length) } } ∧
      v'.Sound M ∧ v'.File M inode'.data L' (overwrite F offset buf) ∧
      Keeps M inode.data.doubleIndirect L L' v v' ∧
      (offset + buf.length ≤ inode.data.length → v'.freeMap = v.freeMap) := by
  have hpos : ((offset : ℤ) + buf.length).bmod (2 ^ 32) = ((offset + buf.length : ℕ) : ℤ) := by
    rw [MAX_LENGTH_eq] at hmax
    rw [Int.bmod_eq_of_le (by omega) (by omega)]
    omega
  obtain ⟨v1, L', hgrow, hs1, hf1, hk, hkeep⟩ := h.growTo hv hmax hspc
  obtain ⟨d', hwrt, hhld, hsame⟩ := hf1.holds.writeLoop le_rfl
    (le_max_right inode.data.length (offset + buf.length))
  have hsub : ∀ s ∈ L'.secs, s ∈ L'.owned inode.data.doubleIndirect := fun s hs =>
    mem_cons_of_mem _ (mem_append_right _ hs)
  refine ⟨{ v1 with disk := d' }, L', _, ?_, rfl,
    hs1.mono hsame (fun s hs => hf1.apart s (hsub s hs)) rfl fun _ hs _ => hs,
    ⟨hhld, hf1.marked, hf1.apart⟩, ⟨⟨hk.file, hsame.1.trans hk.size, hk.map, ?_⟩, hk.owned, hk.secs⟩,
    fun hle => by rw [hkeep hle]⟩
  swap
  · intro s hs hM hL
    rw [← hk.block s hs hM hL]
    exact hsame.2 s fun hs' => hk.owned s hs hL (hsub s hs')
  unfold Volume.inodeWriteAt
  rw [if_pos h.holds.magic, if_neg (by simp [hdeny])]
  simp only [hpos, hgrow, hwrt, bind_eq_bind, bind_some]

end Volume

/-! ### Runs of writes -/

/-- An open file, and the byte array that it should be. -/
structure OpenFile where
  vol : Volume
  inode : Inode
  ref : List UInt8

namespace OpenFile

/-- One call of `inode_write_at (inode, buf, size, offset)`, on the file and on the array. -/
def writeAt (m : OpenFile) (w : List UInt8 × ℕ) : Option OpenFile := do
  let (_, v, inode) ← m.vol.inodeWriteAt m.inode w.1 w.2
  some ⟨v, inode, Bytes.write m.ref w.2 w.1⟩

/-- The call is for some bytes below 8 MiB, writing is permitted, and there are enough free sectors
if the file has to grow. -/
def Admissible (m : OpenFile) (w : List UInt8 × ℕ) : Prop :=
  0 < w.1.length ∧ w.2 + w.1.length ≤ MAX_LENGTH ∧ m.inode.denyWriteCnt = 0 ∧
    sectorsFor (max m.inode.data.length (w.2 + w.1.length)) - sectorsFor m.inode.data.length ≤
      m.vol.freeSectors.length

/-- A read that does not look behind the largest file. -/
def Readable (m : OpenFile) (size offset : ℕ) : Prop :=
  size = 0 ∨ offset + size ≤ MAX_LENGTH ∨ max offset m.inode.data.length < MAX_LENGTH

/-- The file holds the bytes of the array, and its inode is in a sector of its own. -/
structure Tracks (M : List ℕ) (m : OpenFile) : Prop where
  sound : m.vol.Sound M
  length : m.inode.data.length = m.ref.length
  marked : m.vol.freeMap m.inode.sector = true
  lt_size : m.inode.sector < m.vol.disk.size
  file : ∃ L, m.vol.File M m.inode.data L (region m.ref) ∧
    m.inode.sector ∉ L.owned m.inode.data.doubleIndirect

variable {M : List ℕ} {m m' : OpenFile}

theorem Tracks.writeAt (h : m.Tracks M)
    (hdeny : m.inode.denyWriteCnt = 0) (hmax : offset + buf.length ≤ MAX_LENGTH)
    (hspc : sectorsFor (max m.inode.data.length (offset + buf.length)) -
      sectorsFor m.inode.data.length ≤ m.vol.freeSectors.length) :
    ∃ v inode, m.vol.inodeWriteAt m.inode buf offset = some (buf.length, v, inode) ∧
      inode.data.length = max m.inode.data.length (offset + buf.length) ∧
      Tracks M ⟨v, inode, Bytes.write m.ref offset buf⟩ := by
  obtain ⟨L, hfile, hsct⟩ := h.file
  obtain ⟨v, L', inode, hw, rfl, hs, hf, hk, -⟩ :=
    hfile.inodeWriteAt h.sound hdeny hmax hspc
  refine ⟨v, _, hw, rfl, hs, ?_, hk.map _ h.marked, ?_, L', ?_, hk.owned _ h.marked hsct⟩
  · rw [length_write, ← h.length]
  · rw [hk.size]
    exact h.lt_size
  · rw [region_write]
    exact hf

theorem Tracks.step (h : m.Tracks M) {w : List UInt8 × ℕ} (hok : m.Admissible w)
    (hw : m.writeAt w = some m') : m'.Tracks M := by
  obtain ⟨-, hmax, hdeny, hspc⟩ := hok
  obtain ⟨v, inode, hwrt, -, htra⟩ := h.writeAt hdeny hmax hspc
  unfold OpenFile.writeAt at hw
  rw [hwrt] at hw
  cases hw
  exact htra

theorem tracks_create {v v1 : Volume} (hv : v.Sound M)
    (hmrk : v.freeMap sector = true) (hlt : sector < v.disk.size) (hM : sector ∉ M)
    (hlen : len0 < 2 ^ 31) (hcrt : v.inodeCreate sector len0 isDirectory = some (true, v1)) :
    ∃ inode, v1.inodeOpen sector = some inode ∧ inode.data.length = len0 ∧
      Tracks M ⟨v1, inode, replicate len0 0⟩ := by
  obtain ⟨hmax, hspc⟩ := hv.space_of_create hlen hcrt
  obtain ⟨v', double, L, hcrt', hc⟩ := hv.inodeCreate isDirectory hmrk hlt hM hmax hspc
  rw [hcrt] at hcrt'
  cases (Prod.mk.inj (some.inj hcrt')).2
  refine ⟨_, hc.inodeOpen hlt, rfl, hc.sound, length_replicate.symm, hc.map _ hmrk,
    hc.size.symm ▸ hlt, L, ?_, ?_⟩
  · rw [region_replicate]
    exact hc.fileOf
  · intro hs
    simp [hc.fresh sector hs] at hmrk

theorem tracks_of_reaches (h0 : m0.Tracks M) (h : Reaches writeAt Admissible m0 m) : m.Tracks M :=
  h.invariant h0 fun _ _ _ ht hok hw => ht.step hok hw

/-- **Inodes are growable byte arrays.**  An inode that has been created with `len₀` bytes and
written to any number of times has the length of the reference array; every further write returns
its size and makes the length the maximum of the old one and its end; every read returns the bytes
of the array that are there. -/
theorem refines_byte_array (v v₁ : Volume) (M : List ℕ) (hv : v.Sound M) (sector len₀ : ℕ)
    (isDirectory : Bool) (hmarked : v.freeMap sector = true) (hlt : sector < v.disk.size)
    (hM : sector ∉ M) (hlen : len₀ < 2 ^ 31)
    (hcreate : v.inodeCreate sector len₀ isDirectory = some (true, v₁)) :
    ∃ inode, v₁.inodeOpen sector = some inode ∧ inode.data.length = len₀ ∧
      ∀ m, Reaches writeAt Admissible ⟨v₁, inode, List.replicate len₀ 0⟩ m →
        m.inode.data.length = m.ref.length ∧
        (∀ buf offset, m.Admissible (buf, offset) → ∃ v' inode',
          m.vol.inodeWriteAt m.inode buf offset = some (buf.length, v', inode') ∧
          inode'.data.length = max m.inode.data.length (offset + buf.length)) ∧
        (∀ size offset, m.Readable size offset → ∃ bytes,
          m.vol.inodeReadAt m.inode size offset = some bytes ∧
          bytes = (m.ref.drop offset).take size ∧
          bytes.length = min size (m.inode.data.length - offset)) := by
  obtain ⟨inode, hopen, hlng, htra⟩ := tracks_create hv hmarked hlt hM hlen hcreate
  refine ⟨inode, hopen, hlng, fun m hm => ?_⟩
  have h := tracks_of_reaches htra hm
  refine ⟨h.length, fun buf offset hok => ?_, fun size offset hr => ?_⟩
  · obtain ⟨-, hmax, hdeny, hspc⟩ := hok
    obtain ⟨v', inode', hw, hl, -⟩ := h.writeAt hdeny hmax hspc
    exact ⟨v', inode', hw, hl⟩
  · obtain ⟨L, hfile, -⟩ := h.file
    refine ⟨_, hfile.holds.inodeReadAt hr, ?_, length_slice _ _ _⟩
    rw [h.length, slice_region]

/-- A file of two zeros on a blank device: two bytes are written one behind its end and read back with
what is in front of them. -/
theorem refines_byte_array_over_the_end : ∃ v₁ inode v₂ inode₂,
    (Volume.freeMapInit ⟨64, fun _ _ => 0⟩).inodeCreate ROOT_DIR_SECTOR 2 false =
      some (true, v₁) ∧
    v₁.inodeOpen ROOT_DIR_SECTOR = some inode ∧
    v₁.inodeWriteAt inode [7, 8] 3 = some (2, v₂, inode₂) ∧
    v₂.inodeReadAt inode₂ 10 1 = some [0, 0, 7, 8] := by
  have hv := sound_freeMapInit (d := ⟨64, fun _ _ => 0⟩) (by decide)
  obtain ⟨v₁, double, L, hcrt, hc⟩ := hv.inodeCreate false rfl
    (show ROOT_DIR_SECTOR < 64 by decide) (by simp) (show 2 ≤ MAX_LENGTH by decide) (by decide)
  obtain ⟨inode, hopen, hlen, h⟩ := refines_byte_array _ v₁ [] hv ROOT_DIR_SECTOR 2 false rfl
    (by decide) (by simp) (by decide) hcrt
  have hinode := hopen.symm.trans (hc.inodeOpen (show ROOT_DIR_SECTOR < 64 by decide))
  have hok : Admissible ⟨v₁, inode, List.replicate 2 0⟩ ([7, 8], 3) := by
    refine ⟨by decide, by decide, by rw [some.inj hinode], ?_⟩
    have hmore : sectorsFor (max 2 (3 + 2)) - sectorsFor 2 = 0 := by decide
    show sectorsFor (max inode.data.length (3 + 2)) - _ ≤ _
    rw [hlen, hmore]
    exact Nat.zero_le _
  obtain ⟨v₂, inode₂, hw, -⟩ := (h _ .start).2.1 [7, 8] 3 hok
  have hstep : writeAt ⟨v₁, inode, List.replicate 2 0⟩ ([7, 8], 3) =
      some ⟨v₂, inode₂, Bytes.write (List.replicate 2 0) 3 [7, 8]⟩ := by
    simp only [writeAt, hw]
    rfl
  obtain ⟨-, -, hread⟩ := h _ (.step _ .start hok hstep)
  obtain ⟨bytes, hbyt, rfl, -⟩ := hread 10 1 (.inr (.inl (by decide)))
  exact ⟨v₁, inode, v₂, inode₂, hcrt, hopen, hw, hbyt.trans rfl⟩

end OpenFile

end Pintos
