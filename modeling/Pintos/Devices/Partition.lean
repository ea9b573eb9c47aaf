import Pintos.Lib.Checked

/-! # Scanning a disk for partitions

`partition_scan` of `devices/partition.c`, on a disk with any partition tables.

* **Depth.**  The recursion follows the extended partitions, so that the model has a bound on its
  depth; a scan ends if it does for some bound.
* **Sectors.**  Every call reads the table of sector 0, whatever sector it was called for. -/

namespace Pintos
open Checked Option List

/-- The fields of `struct partition_table_entry` that are read. -/
structure PartitionTableEntry where
  type : ℕ
  offset : ℕ
  size : ℕ

structure PartitionTable where
  partitions : List PartitionTableEntry
  signature : ℕ

/-- A block device, as its size and the table in each of its sectors. -/
structure PartitionedDisk where
  size : ℕ
  table : ℕ → PartitionTable

/-- `part_nr`; for each call that reads a table, the sector that it was called for and the sector
that it reads; and the calls of `found_partition`. -/
structure Scan where
  partNr : ℕ
  reads : List (ℕ × ℕ)
  found : List (ℕ × ℕ × ℕ × ℕ)

namespace PartitionTableEntry

def isExtended (e : PartitionTableEntry) : Prop :=
  e.type = 0x05 ∨ e.type = 0x0f ∨ e.type = 0x85 ∨ e.type = 0xc5
deriving Decidable

/-- An iteration of the loop over the entries, where `table` is the recursive call. -/
def scanEntry (table : ℕ → ℕ → Scan → Option Scan) (sector primaryExtendedSector : ℕ) (s : Scan)
    (e : PartitionTableEntry) : Option Scan :=
  if e.size = 0 ∨ e.type = 0 then some s
  else if e.isExtended then
    if sector = 0 then table e.offset e.offset s
    else table ((e.offset + primaryExtendedSector) % 2 ^ 32) primaryExtendedSector s
  else some { s with
    partNr := s.partNr + 1
    found := s.found ++ [(e.type, (e.offset + sector) % 2 ^ 32, e.size, s.partNr + 1)] }

end PartitionTableEntry

namespace PartitionedDisk
open PartitionTableEntry

def readPartitionTable (d : PartitionedDisk) : ℕ → ℕ → ℕ → Scan → Option Scan
  | 0, _, _, _ => none
  | depth + 1, sector, primaryExtendedSector, s =>
    if d.size ≤ sector then some s
    else
      let pt := d.table 0
      if pt.signature ≠ 0xaa55 then some { s with reads := s.reads ++ [(sector, 0)] }
      else pt.partitions.foldlM (scanEntry (d.readPartitionTable depth) sector primaryExtendedSector)
        { s with reads := s.reads ++ [(sector, 0)] }

def partitionScan (d : PartitionedDisk) (depth : ℕ) : Option Scan :=
  d.readPartitionTable depth 0 0 ⟨0, [], []⟩

variable {d : PartitionedDisk} {depth sector primary : ℕ} {s s' : Scan} {e : PartitionTableEntry}

theorem foldlM_read {table : ℕ → ℕ → Scan → Option Scan} {l : List PartitionTableEntry}
    (ht : ∀ n p s s', table n p s = some s' → s.reads ⊆ s'.reads)
    (h : l.foldlM (scanEntry table sector primary) s = some s') :
    s.reads ⊆ s'.reads ∧
      ∀ e ∈ l, ∃ s1 s2, scanEntry table sector primary s1 e = some s2 ∧ s2.reads ⊆ s'.reads := by
  induction l generalizing s with
  | nil => exact some.inj h ▸ ⟨Subset.refl _, nofun⟩
  | cons e l ih =>
    obtain ⟨s1, h1, h⟩ := bind_eq_some_iff.mp h
    obtain ⟨hsub, hl⟩ := ih h
    have hs : s.reads ⊆ s1.reads := by
      unfold scanEntry at h1
      split_ifs at h1
      · exact some.inj h1 ▸ Subset.refl _
      · exact ht _ _ _ _ h1
      · exact ht _ _ _ _ h1
      · exact some.inj h1 ▸ Subset.refl _
    refine ⟨Subset.trans hs hsub, fun e' he => ?_⟩
    obtain rfl | he := mem_cons.mp he
    · exact ⟨s, s1, h1, hsub⟩
    · exact hl e' he

theorem reads_subset (h : d.readPartitionTable depth sector primary s = some s') :
    s.reads ⊆ s'.reads ∧ (sector < d.size → (sector, 0) ∈ s'.reads) := by
  induction depth generalizing sector primary s s' with
  | zero => exact nomatch h
  | succ depth ih =>
    simp only [readPartitionTable] at h
    split_ifs at h with h1
    · exact some.inj h ▸ ⟨Subset.refl _, fun hlt => absurd hlt (by omega)⟩
    · exact some.inj h ▸ ⟨subset_append_left _ _, fun _ => by simp⟩
    · have hsub := (foldlM_read (fun _ _ _ _ h => (ih h).1) h).1
      exact ⟨Subset.trans (subset_append_left _ _) hsub, fun _ => hsub (by simp)⟩

/-- A table of sector 0 that names sector 0 is read without an end. -/
theorem readPartitionTable_zero (hsize : 0 < d.size) (hsig : (d.table 0).signature = 0xaa55)
    (he : e ∈ (d.table 0).partitions) (hlive : ¬ (e.size = 0 ∨ e.type = 0)) (hext : e.isExtended)
    (h0 : e.offset = 0) : d.readPartitionTable depth 0 primary s = none := by
  induction depth generalizing primary s with
  | zero => rfl
  | succ depth ih =>
    refine eq_none_iff_forall_not_mem.mpr fun s' h => ?_
    rw [readPartitionTable, if_neg (by omega), if_neg (by simp [hsig])] at h
    obtain ⟨s1, s2, h, -⟩ := (foldlM_read (fun _ _ _ _ h => (reads_subset h).1) h).2 e he
    rw [scanEntry, if_neg hlive, if_pos hext, h0, ih] at h
    exact nomatch h

/-- **Partition scanning.**  A scan ends and reads the tables of the right sectors exactly when it
follows no extended partition. -/
theorem partitionScan_iff (d : PartitionedDisk) :
    (∃ depth s, d.partitionScan depth = some s ∧ ∀ r ∈ s.reads, r.1 = r.2) ↔
      d.size = 0 ∨ (d.table 0).signature ≠ 0xaa55 ∨ ∀ e ∈ (d.table 0).partitions,
        e.size = 0 ∨ e.type = 0 ∨ ¬ e.isExtended ∨ d.size ≤ e.offset := by
  constructor
  · rintro ⟨depth, s, h, hs⟩
    by_contra hno
    simp only [not_or, not_not, not_forall] at hno
    obtain ⟨hsize, hsig, e, he, h1, h2, hext, hle⟩ := hno
    cases depth with
    | zero => exact nomatch h
    | succ depth =>
      rw [partitionScan, readPartitionTable, if_neg (by omega), if_neg (by simp [hsig])] at h
      obtain ⟨s1, s2, h, hsub⟩ := (foldlM_read (fun _ _ _ _ h => (reads_subset h).1) h).2 e he
      rw [scanEntry, if_neg (by simp [h1, h2]), if_pos hext] at h
      have h0 : e.offset = 0 := hs _ (hsub ((reads_subset h).2 (by omega)))
      rw [h0, readPartitionTable_zero (by omega) hsig he (by simp [h1, h2]) hext h0] at h
      exact nomatch h
  · rintro (h | h | h)
    · exact ⟨1, _, if_pos h.le, nofun⟩
    · by_cases h0 : d.size ≤ 0
      · exact ⟨1, _, if_pos h0, nofun⟩
      · exact ⟨1, _, (if_neg h0).trans (if_pos h), by simp⟩
    · by_cases h0 : d.size ≤ 0
      · exact ⟨1, _, if_pos h0, nofun⟩
      · by_cases h1 : (d.table 0).signature ≠ 0xaa55
        · exact ⟨1, _, (if_neg h0).trans (if_pos h1), by simp⟩
        obtain ⟨s, hs, hrds⟩ := foldlM_rule (l := (d.table 0).partitions)
          (f := scanEntry (d.readPartitionTable 1) 0 0) (s := ⟨0, [(0, 0)], []⟩)
          (fun _ s => s.reads = [(0, 0)]) rfl fun _ e s he hs => by
            unfold scanEntry
            split_ifs with h2 h3 h4
            · exact ⟨s, rfl, hs⟩
            · exact ⟨s, if_pos (by simpa [h3, not_or.mp h2] using h e he), hs⟩
            · exact absurd rfl h4
            · exact ⟨_, rfl, hs⟩
        exact ⟨2, s, (if_neg h0).trans ((if_neg h1).trans hs), by simp [hrds]⟩

/-- An extended partition in sector 1, where there is an empty table. -/
def emptyExtended : PartitionedDisk :=
  ⟨100, fun n => ⟨if n = 0 then [⟨0x05, 1, 99⟩] else [], 0xaa55⟩⟩

theorem scan_never_ends : ¬ ∃ depth, (emptyExtended.partitionScan depth).isSome := by
  have hloop depth s : emptyExtended.readPartitionTable depth 2 1 s = none := by
    induction depth generalizing s with
    | zero => rfl
    | succ depth ih =>
      change (emptyExtended.readPartitionTable depth 2 1 _).bind _ = none
      rw [ih, bind_none]
  rintro ⟨depth, h⟩
  match depth with
  | 0 | 1 => cases h
  | depth + 2 =>
    change (((emptyExtended.readPartitionTable depth 2 1 _).bind _).bind _).isSome at h
    rw [hloop, bind_none, bind_none] at h
    cases h

end PartitionedDisk

end Pintos
