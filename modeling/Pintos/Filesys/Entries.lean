import Pintos.Filesys.ByteArray
import Pintos.Filesys.Directory

/-! # Directories as arrays of entries

The bytes of a directory are an array of slots of 20 bytes.

* **Codec.**  An entry that is written to a slot is read back, and no other slot changes
  (`entryAt_write`).
* **Search.**  `lookup` returns the first slot that is in use under the name (`slotOf`), and the loop
  of `dir_add` finds the first slot that is not in use, or the end of the directory. -/

namespace Pintos
open Bytes Function Option List DirEntry

/-! ### Codec -/

/-- A name that fits into an entry: it is not empty, short enough, and has no zero byte. -/
def ValidName (name : CString) : Prop := name ≠ [] ∧ name.length ≤ NAME_MAX ∧ 0 ∉ name

instance (name : CString) : Decidable (ValidName name) :=
  inferInstanceAs (Decidable (_ ∧ _ ∧ _))

theorem takeWhile_slice_region (hn : xs.length < n) (hx : 0 ∉ xs) :
    (slice (region xs) 0 n).takeWhile (fun c => c != 0) = xs := by
  have hspl : slice (region xs) 0 n = xs ++ 0 :: slice (region xs) (xs.length + 1)
      (n - xs.length - 1) := by
    rw [show n = xs.length + (1 + (n - xs.length - 1)) by omega, slice_add, slice_add]
    congr 1
    · have := slice_region xs 0 xs.length
      simpa using this
    · rw [zero_add, show xs.length + (1 + (n - xs.length - 1)) - xs.length - 1 =
        n - xs.length - 1 by omega, slice, region_of_length_le le_rfl]
      rfl
  have hall : ∀ c ∈ xs, (c != 0) = true := by
    intro c hc
    simp only [bne_iff_ne]
    exact fun h0 => hx (h0 ▸ hc)
  rw [hspl, takeWhile_append_of_pos hall, takeWhile_cons_of_neg (by simp), append_nil]

theorem DirEntry.length_bytes (e : DirEntry) : e.bytes.length = SIZE := length_slice _ _ _

theorem DirEntry.SIZE_eq : SIZE = 20 := rfl
theorem NAME_MAX_eq : NAME_MAX = 14 := rfl

theorem DirEntry.region_bytes (e : DirEntry) (hj : j < 20) : region e.bytes j =
    if j < 4 then byte e.inodeSector j
    else if j < 19 then region e.name (j - 4)
    else if e.inUse then 1 else 0 := by
  rw [region, bytes, getD_slice (by rw [SIZE_eq]; exact hj), zero_add]

theorem DirEntry.inUse_ofBytes_bytes (e : DirEntry) : (ofBytes e.bytes).inUse = e.inUse := by
  show (region e.bytes 19 != 0) = e.inUse
  rw [region_bytes e (by omega)]
  cases e.inUse <;> rfl

theorem DirEntry.ofBytes_bytes {e : DirEntry} (hs : e.inodeSector < 2 ^ 32)
    (hn : ValidName e.name) : ofBytes e.bytes = e := by
  have hsct : word 4 (region e.bytes) = e.inodeSector := by
    rw [← word_byte_of_lt (n := e.inodeSector) (w := 4) (by simpa using hs)]
    apply word_congr
    intro i hi
    rw [region_bytes e (by omega), if_pos hi]
  have hname : (slice (region e.bytes) 4 (NAME_MAX + 1)).takeWhile (fun c => c != 0) = e.name := by
    exact takeWhile_slice_region (Nat.lt_succ_of_le hn.2.1) hn.2.2
  have huse : (region e.bytes 19 != 0) = e.inUse := e.inUse_ofBytes_bytes
  unfold ofBytes
  rw [hsct, hname, huse]

/-! ### Slots -/

/-- The entry in slot `k` of a directory with the bytes `xs`. -/
def entryAt (xs : List UInt8) (k : ℕ) : DirEntry :=
  DirEntry.ofBytes (slice (region xs) (DirEntry.SIZE * k) DirEntry.SIZE)

/-- The number of whole slots. -/
def slots (xs : List UInt8) : ℕ := xs.length / DirEntry.SIZE

section
variable {xs : List UInt8} {k j : ℕ} {e : DirEntry}

theorem entryAt_write_of_ne (h : j ≠ k) :
    entryAt (write xs (SIZE * k) e.bytes) j = entryAt xs j := by
  have hlen := e.length_bytes
  unfold entryAt
  rw [region_write]
  congr 1
  apply slice_congr
  intro i hi
  rw [overwrite_of_outside]
  rw [SIZE_eq] at *
  omega

theorem entryAt_write_self : entryAt (write xs (SIZE * k) e.bytes) k = ofBytes e.bytes := by
  have hlen := e.length_bytes
  unfold entryAt
  rw [region_write]
  have hcng : slice (overwrite (region xs) (SIZE * k) e.bytes) (SIZE * k)
      SIZE = slice (region e.bytes) 0 SIZE := by
    apply slice_congr
    intro i hi
    rw [overwrite_of_inside (by omega) (by omega), Nat.add_sub_cancel_left, zero_add]
    rfl
  have hall := slice_region e.bytes 0 SIZE
  rw [hlen, Nat.sub_zero, Nat.min_self, drop_zero, take_of_length_le (by omega)] at hall
  rw [hcng, hall]

theorem entryAt_write (hs : e.inodeSector < 2 ^ 32) (hn : ValidName e.name) :
    entryAt (write xs (SIZE * k) e.bytes) j = if j = k then e else entryAt xs j := by
  split_ifs with hj
  · rw [hj, entryAt_write_self, DirEntry.ofBytes_bytes hs hn]
  · exact entryAt_write_of_ne hj

end

theorem inUse_entryAt_replicate (n k : ℕ) : (entryAt (replicate n 0) k).inUse = false := by
  unfold entryAt
  rw [region_replicate]
  rfl

/-- The slot in use under a name: the first one, if there are several. -/
def slotOf (xs : List UInt8) (name : CString) : Option ℕ :=
  (List.range' 0 (slots xs)).find? fun k => (entryAt xs k).inUse ∧ (entryAt xs k).name = name

/-- The inode that a name in a directory leads to. -/
def entriesOf (xs : List UInt8) (name : CString) : Option ℕ :=
  (slotOf xs name).map fun k => (entryAt xs k).inodeSector

theorem entriesOf_eq_none {xs : List UInt8} {name : CString} :
    entriesOf xs name = none ↔ slotOf xs name = none := by
  simp [entriesOf]

/-- The first free slot from `k` on, or the end. -/
def freeSlotFrom (xs : List UInt8) : (n k : ℕ) → ℕ
  | 0, k => k
  | n + 1, k => if (entryAt xs k).inUse then freeSlotFrom xs n (k + 1) else k

section
variable {v : Volume} {i : Inode} {L : Layout} {xs : List UInt8} {name : CString}

section
variable (h : Holds v.disk i.data L (region xs)) (hlen : i.data.length = xs.length)
  (hmax : xs.length < MAX_LENGTH)
include h hlen hmax

theorem readSlot (hk : k ≤ slots xs) :
    ∃ buf, v.inodeReadAt i SIZE (SIZE * k) = some buf ∧
      (k < slots xs → buf.length = SIZE ∧ ofBytes buf = entryAt xs k) ∧
      (k = slots xs → buf.length ≠ SIZE) := by
  unfold slots at hk ⊢
  rw [SIZE_eq] at hk ⊢
  refine ⟨_, h.inodeReadAt (.inr (.inr ?_)), fun hlt => ?_, fun he => ?_⟩
  · omega
  · rw [hlen, show min 20 (xs.length - 20 * k) = 20 by omega]
    exact ⟨length_slice _ _ _, rfl⟩
  · rw [length_slice]
    omega

theorem lookupLoop_eq (hk : k ≤ slots xs) (hf : slots xs - k < fuel) :
    FileSys.lookupLoop v i name fuel (SIZE * k) = some
      (((range' k (slots xs - k)).find? fun k =>
        (entryAt xs k).inUse ∧ (entryAt xs k).name = name).map
          fun k => (entryAt xs k, SIZE * k)) := by
  induction fuel generalizing k with
  | zero => omega
  | succ fuel ih =>
    obtain ⟨buf, hread, hin, hend⟩ := readSlot h hlen hmax hk
    unfold FileSys.lookupLoop
    rw [hread, bind_eq_bind, bind_some]
    by_cases hlt : k < slots xs
    · obtain ⟨hbuf, he⟩ := hin hlt
      rw [if_pos hbuf, show slots xs - k = slots xs - (k + 1) + 1 by omega, range'_succ]
      simp only [he]
      by_cases hm : (entryAt xs k).inUse = true ∧ (entryAt xs k).name = name
      · simp [hm]
      · rw [show SIZE * k + SIZE = SIZE * (k + 1) by ring, ih (by omega) (by omega)]
        simp [hm]
    · obtain rfl : k = slots xs := by omega
      rw [if_neg (hend rfl), Nat.sub_self]
      rfl

theorem slotLoop_eq (hk : k ≤ slots xs) (hf : slots xs - k < fuel) :
    FileSys.slotLoop v i fuel (SIZE * k) =
      some (SIZE * freeSlotFrom xs (slots xs - k) k) := by
  induction fuel generalizing k with
  | zero => omega
  | succ fuel ih =>
    obtain ⟨buf, hread, hin, hend⟩ := readSlot h hlen hmax hk
    unfold FileSys.slotLoop
    rw [hread, bind_eq_bind, bind_some]
    by_cases hlt : k < slots xs
    · obtain ⟨hbuf, he⟩ := hin hlt
      rw [show slots xs - k = slots xs - (k + 1) + 1 by omega, freeSlotFrom, he]
      by_cases hu : (entryAt xs k).inUse = true
      · rw [if_pos ⟨hbuf, hu⟩, if_pos hu, show SIZE * k + SIZE = SIZE * (k + 1) by ring,
          ih (by omega) (by omega)]
      · rw [if_neg fun hc => hu hc.2, if_neg hu]
    · obtain rfl : k = slots xs := by omega
      rw [if_neg fun hc => hend rfl hc.1, Nat.sub_self]
      rfl

end

theorem lookup_eq {fs : FileSys} (hdir : fs.heap dir = some i)
    (h : Holds fs.vol.disk i.data L (region xs)) (hlen : i.data.length = xs.length)
    (hmax : xs.length < MAX_LENGTH) :
    fs.lookup dir name = some ((slotOf xs name).map
      fun k => (entryAt xs k, SIZE * k)) := by
  unfold FileSys.lookup
  rw [hdir, bind_eq_bind, bind_some, hlen]
  exact lookupLoop_eq h hlen hmax (Nat.zero_le _) (Nat.lt_add_one _)

end

/-! ### Changing slots -/

section
variable {xs : List UInt8} {name name' : CString} {k sector : ℕ}

theorem slotOf_eq_some : slotOf xs name = some k ↔ k < slots xs ∧
    ((entryAt xs k).inUse = true ∧ (entryAt xs k).name = name) ∧
    ∀ j < k, ¬ ((entryAt xs j).inUse = true ∧ (entryAt xs j).name = name) := by
  unfold slotOf
  rw [find?_range'_eq_some]
  simp only [decide_eq_true_eq, mem_range'_1, zero_le, zero_add, true_and,
    Bool.not_eq_true', decide_eq_false_iff_not, forall_const]
  exact ⟨fun ⟨h, hk, hj⟩ => ⟨hk, h, hj⟩, fun ⟨hk, h, hj⟩ => ⟨h, hk, hj⟩⟩

theorem slotOf_eq_none : slotOf xs name = none ↔ ∀ k < slots xs,
    ¬ ((entryAt xs k).inUse = true ∧ (entryAt xs k).name = name) := by
  unfold slotOf
  rw [find?_eq_none]
  simp

theorem freeSlotFrom_spec (xs : List UInt8) (n k : ℕ) :
    k ≤ freeSlotFrom xs n k ∧ freeSlotFrom xs n k ≤ k + n ∧
      (freeSlotFrom xs n k < k + n → (entryAt xs (freeSlotFrom xs n k)).inUse = false) := by
  induction n generalizing k with
  | zero => exact ⟨le_rfl, le_rfl, fun h => absurd h (lt_irrefl _)⟩
  | succ n ih =>
    unfold freeSlotFrom
    split_ifs with hu
    · obtain ⟨h1, h2, h3⟩ := ih (k + 1)
      exact ⟨by omega, by omega, fun h => h3 (by omega)⟩
    · exact ⟨le_rfl, by omega, fun _ => by simpa using hu⟩

theorem freeSlotFrom_le (hkj : k ≤ j) (hj : j < k + n)
    (hu : (entryAt xs j).inUse = false) : freeSlotFrom xs n k ≤ j := by
  induction n generalizing k with
  | zero => omega
  | succ n ih =>
    unfold freeSlotFrom
    split_ifs with hk
    · have hne : k ≠ j := fun he => by
        simp [he, hu] at hk
      exact ih (by omega) (by omega)
    · exact hkj

/-- The slot that `dir_add` writes. -/
def freeSlot (xs : List UInt8) : ℕ := freeSlotFrom xs (slots xs) 0

theorem freeSlot_le (xs : List UInt8) : freeSlot xs ≤ slots xs := by
  have := (freeSlotFrom_spec xs (slots xs) 0).2.1
  unfold freeSlot
  omega

theorem freeSlot_end (xs : List UInt8) : SIZE * freeSlot xs ≤ xs.length :=
  (Nat.mul_le_mul_left _ (freeSlot_le xs)).trans (Nat.mul_div_le _ _)

theorem inUse_freeSlot (h : freeSlot xs < slots xs) : (entryAt xs (freeSlot xs)).inUse = false :=
  (freeSlotFrom_spec xs (slots xs) 0).2.2 (by
    unfold freeSlot at h
    omega)

/-- The bytes of a directory after `dir_add`. -/
def addEntry (xs : List UInt8) (name : CString) (sector : ℕ) : List UInt8 :=
  write xs (DirEntry.SIZE * freeSlot xs) (DirEntry.bytes ⟨sector, name, true⟩)

theorem length_addEntry (xs : List UInt8) (name : CString) (sector : ℕ) :
    (addEntry xs name sector).length =
      max xs.length (SIZE * freeSlot xs + SIZE) := by
  rw [addEntry, length_write, length_bytes]

theorem length_addEntry_le (xs : List UInt8) (name : CString) (sector : ℕ) :
    (addEntry xs name sector).length ≤ xs.length + SIZE := by
  have hle := freeSlot_le xs
  unfold slots at hle
  rw [length_addEntry]
  rw [SIZE_eq] at *
  omega

theorem slots_addEntry (xs : List UInt8) (name : CString) (sector : ℕ) :
    slots (addEntry xs name sector) = max (slots xs) (freeSlot xs + 1) := by
  unfold slots
  rw [length_addEntry, SIZE_eq]
  omega

theorem ne_freeSlot (hk : k < slots xs) (hu : (entryAt xs k).inUse = true) : k ≠ freeSlot xs := by
  rintro rfl
  simp [inUse_freeSlot hk] at hu

section
variable (hs : sector < 2 ^ 32) (hn : ValidName name)
include hs hn

theorem entryAt_addEntry (j : ℕ) :
    entryAt (addEntry xs name sector) j =
      if j = freeSlot xs then ⟨sector, name, true⟩ else entryAt xs j :=
  entryAt_write hs hn

theorem entryAt_addEntry_cases (hk : k < slots (addEntry xs name sector)) :
    entryAt (addEntry xs name sector) k = ⟨sector, name, true⟩ ∨
      k < slots xs ∧ entryAt (addEntry xs name sector) k = entryAt xs k := by
  rw [slots_addEntry] at hk
  rw [entryAt_addEntry hs hn]
  by_cases hkf : k = freeSlot xs
  · exact .inl (if_pos hkf)
  · have hle := freeSlot_le xs
    exact .inr ⟨by omega, if_neg hkf⟩

theorem slotOf_addEntry_self (hnew : slotOf xs name = none) :
    slotOf (addEntry xs name sector) name = some (freeSlot xs) := by
  have hle := freeSlot_le xs
  rw [slotOf_eq_some, slots_addEntry, entryAt_addEntry hs hn, if_pos rfl]
  refine ⟨by omega, ⟨rfl, rfl⟩, fun j hj => ?_⟩
  rw [entryAt_addEntry hs hn, if_neg (by omega)]
  exact slotOf_eq_none.mp hnew j (by omega)

theorem slotOf_addEntry_of_ne (hne : name' ≠ name) :
    slotOf (addEntry xs name sector) name' = slotOf xs name' := by
  have hle := freeSlot_le xs
  have hoth : ∀ j, (j < slots xs → ¬ ((entryAt xs j).inUse = true ∧ (entryAt xs j).name = name')) →
      j < slots (addEntry xs name sector) →
      ¬ ((entryAt (addEntry xs name sector) j).inUse = true ∧
        (entryAt (addEntry xs name sector) j).name = name') := by
    intro j hold hj
    rw [slots_addEntry] at hj
    rw [entryAt_addEntry hs hn]
    split_ifs with hjf
    · exact fun h => hne h.2.symm
    · exact hold (by omega)
  cases hold : slotOf xs name' with
  | none => exact slotOf_eq_none.mpr fun j hj => hoth j (slotOf_eq_none.mp hold j) hj
  | some j =>
    obtain ⟨hj, hmtc, hbfr⟩ := slotOf_eq_some.mp hold
    have hjs : j < slots (addEntry xs name sector) := by
      rw [slots_addEntry]
      omega
    refine slotOf_eq_some.mpr ⟨hjs, ?_, fun j' hj' =>
      hoth j' (fun _ => hbfr j' hj') (hj'.trans hjs)⟩
    rwa [entryAt_addEntry hs hn, if_neg (ne_freeSlot hj hmtc.1)]

theorem entriesOf_addEntry (hnew : slotOf xs name = none) :
    entriesOf (addEntry xs name sector) = update (entriesOf xs) name (some sector) := by
  funext name'
  unfold entriesOf
  by_cases hne : name' = name
  · subst hne
    rw [slotOf_addEntry_self hs hn hnew, update_self, map_some, entryAt_addEntry hs hn, if_pos rfl]
  · rw [slotOf_addEntry_of_ne hs hn hne, update_of_ne hne]
    refine map_congr fun j hj => ?_
    obtain ⟨hlt, hmtc, -⟩ := slotOf_eq_some.mp hj
    rw [entryAt_addEntry hs hn, if_neg (ne_freeSlot hlt hmtc.1)]

end

/-- The bytes of a directory after `dir_remove`. -/
def clearEntry (xs : List UInt8) (k : ℕ) : List UInt8 :=
  write xs (DirEntry.SIZE * k) (DirEntry.bytes { entryAt xs k with inUse := false })

theorem length_clearEntry (hk : k < slots xs) : (clearEntry xs k).length = xs.length := by
  unfold slots at hk
  rw [clearEntry, length_write, length_bytes]
  rw [SIZE_eq] at *
  omega

theorem inUse_clearEntry (h : (entryAt (clearEntry xs k) j).inUse = true) :
    j ≠ k ∧ entryAt (clearEntry xs k) j = entryAt xs j := by
  have hj : j ≠ k := fun he => by
    simp [he, clearEntry, entryAt_write_self, inUse_ofBytes_bytes] at h
  exact ⟨hj, entryAt_write_of_ne hj⟩

theorem slots_clearEntry (hk : k < slots xs) : slots (clearEntry xs k) = slots xs := by
  unfold slots
  rw [length_clearEntry hk]

theorem slotOf_clearEntry (hk : k < slots xs) (hne : (entryAt xs k).name ≠ name) :
    slotOf (clearEntry xs k) name = slotOf xs name := by
  have hmtc : ∀ j, ((entryAt (clearEntry xs k) j).inUse = true ∧
      (entryAt (clearEntry xs k) j).name = name) ↔
      (entryAt xs j).inUse = true ∧ (entryAt xs j).name = name := by
    intro j
    by_cases hj : j = k
    · subst hj
      refine iff_of_false (fun h => absurd rfl (inUse_clearEntry h.1).1) fun h => hne h.2
    · rw [clearEntry, entryAt_write_of_ne hj]
  unfold slotOf
  rw [slots_clearEntry hk]
  congr 1
  funext j
  exact decide_eq_decide.mpr (hmtc j)

theorem entriesOf_clearEntry (hk : k < slots xs) (hne : (entryAt xs k).name ≠ name) :
    entriesOf (clearEntry xs k) name = entriesOf xs name := by
  unfold entriesOf
  rw [slotOf_clearEntry hk hne]
  cases hs : slotOf xs name with
  | none => rfl
  | some j =>
    have hjk : j ≠ k := fun he => by
      subst he
      exact hne (slotOf_eq_some.mp hs).2.1.2
    rw [map_some, map_some, clearEntry, entryAt_write_of_ne hjk]

/-- The bytes of a directory after a call of `dir_remove` for any name. -/
def clearName (xs : List UInt8) (name : CString) : List UInt8 :=
  match slotOf xs name with
  | none => xs
  | some k => clearEntry xs k

theorem length_clearName (xs : List UInt8) (name : CString) :
    (clearName xs name).length = xs.length := by
  unfold clearName
  split
  · rfl
  · rename_i k hk
    exact length_clearEntry (slotOf_eq_some.mp hk).1

theorem entriesOf_clearName (hne : name ≠ name') :
    entriesOf (clearName xs name) name' = entriesOf xs name' := by
  unfold clearName
  split
  · rfl
  · rename_i k hk
    obtain ⟨hlt, hmtc, -⟩ := slotOf_eq_some.mp hk
    exact entriesOf_clearEntry hlt (hmtc.2.symm ▸ hne)

theorem inUse_clearName {j : ℕ} (h : (entryAt (clearName xs name) j).inUse = true) :
    entryAt (clearName xs name) j = entryAt xs j := by
  unfold clearName at *
  split
  · rfl
  · rename_i k hk
    rw [hk] at h
    exact (inUse_clearEntry h).2

end

end Pintos
