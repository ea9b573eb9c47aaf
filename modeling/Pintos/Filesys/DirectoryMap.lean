import Mathlib.Data.List.TakeWhile
import Pintos.Filesys.Entries
import Pintos.Lib.Runs

/-! # Directories as finite maps

The functions of `filesys/directory.c` that work on a single directory, with `inode_read_at` and
`inode_write_at` on a growable array of bytes.

* **Loops.**  `lookup`, `dir_add` and `dir_readdir` each read entry after entry, until one meets
  their condition or a read is short (`findLoop`).
* **Writes.**  `inode_write_at` may write less than it is asked to: there is `room` for so many
  bytes, which is up to the environment.  `inode_open` in `dir_remove` succeeds.
* **Calls.**  A run is any sequence of `dir_add`, `dir_remove` and `dir_readdir`, the last through a
  `struct dir` of its own.  `dir_add` and `dir_remove` have no position.

A directory that starts with zeros is a finite map (`Distinct`, `Valid.trace`), and a scan of it
sees every name that stays (`Valid.trace_sees`). -/

namespace Pintos
open Bytes Runs Function Option List DirEntry

/-- The bytes of a directory, and the position of a `struct dir` that scans it. -/
structure DirFile where
  bytes : List UInt8
  pos : ℕ
deriving DecidableEq, Repr

/-- A call on a directory. -/
inductive DirCall where
  | add (name : CString) (inodeSector room : ℕ)
  | remove (name : CString) (room : ℕ)
  | readdir
deriving DecidableEq, Repr

namespace DirCall

/-- The arguments of a call are strings and sectors. -/
def WellTyped : DirCall → Prop
  | .add name inodeSector _ => 0 ∉ name ∧ inodeSector < 2 ^ 32
  | .remove name _ => 0 ∉ name
  | .readdir => True

instance : (c : DirCall) → Decidable c.WellTyped
  | .add name inodeSector _ => inferInstanceAs (Decidable (0 ∉ name ∧ inodeSector < 2 ^ 32))
  | .remove name _ => inferInstanceAs (Decidable (0 ∉ name))
  | .readdir => inferInstanceAs (Decidable True)

/-- The name that a call adds or removes. -/
def name : DirCall → Option CString
  | .add name _ _ => some name
  | .remove name _ => some name
  | .readdir => none

end DirCall

/-- What a call has returned. -/
inductive DirReply where
  | added (name : CString) (inodeSector : ℕ) (success : Bool)
  | removed (name : CString) (success : Bool)
  | read (name : Option CString)
deriving DecidableEq, Repr

namespace DirReply

/-- The sector under which a name is known after a reply. -/
def after (name : CString) (last : Option ℕ) : DirReply → Option ℕ
  | .added name' inodeSector true => if name' = name then some inodeSector else last
  | .removed name' true => if name' = name then none else last
  | _ => last

/-- The sector of the last successful call for a name, if this was a `dir_add`. -/
def lastAdded (replies : List DirReply) (name : CString) : Option ℕ :=
  replies.foldl (after name) none

/-- The names that `dir_readdir` has returned. -/
def names (replies : List DirReply) : List CString :=
  replies.filterMap fun
    | .read name => name
    | _ => none

end DirReply

namespace DirFile

/-! ### The functions -/

/-- `inode_read_at`. -/
def readAt (xs : List UInt8) (size offset : ℕ) : List UInt8 := (xs.drop offset).take size

/-- `inode_write_at`, with the number of bytes that it has written. -/
def writeAt (xs buf : List UInt8) (offset room : ℕ) : ℕ × List UInt8 :=
  (min room buf.length, write xs offset (buf.take room))

/-- The loops over the entries from `ofs` on, with the entry that meets the condition, if there is
one, and the offset at which the loop ends. -/
def findLoop (xs : List UInt8) (cond : DirEntry → Bool) :
    (fuel ofs : ℕ) → Option (Option DirEntry × ℕ)
  | 0, _ => none
  | fuel + 1, ofs =>
    let buf := readAt xs DirEntry.SIZE ofs
    if buf.length = DirEntry.SIZE then
      let e := DirEntry.ofBytes buf
      if cond e then some (some e, ofs) else findLoop xs cond fuel (ofs + DirEntry.SIZE)
    else some (none, ofs)

/-- `lookup`. -/
def lookup (xs : List UInt8) (name : CString) : Option (Option (DirEntry × ℕ)) := do
  let (found, ofs) ← findLoop xs (fun e => e.inUse ∧ e.name = name)
    (xs.length / DirEntry.SIZE + 1) 0
  some (found.map fun e => (e, ofs))

/-- `dir_add`. -/
def dirAdd (xs : List UInt8) (name : CString) (inodeSector room : ℕ) :
    Option (Bool × List UInt8) :=
  if name = [] ∨ name.length > NAME_MAX then some (false, xs)
  else do
    let found ← lookup xs name
    if found.isSome then some (false, xs)
    else do
      let (_, ofs) ← findLoop xs (fun e => !e.inUse) (xs.length / DirEntry.SIZE + 1) 0
      let (n, xs) := writeAt xs (DirEntry.bytes ⟨inodeSector, name, true⟩) ofs room
      some (n = DirEntry.SIZE, xs)

/-- `dir_remove`. -/
def dirRemove (xs : List UInt8) (name : CString) (room : ℕ) : Option (Bool × List UInt8) := do
  let found ← lookup xs name
  match found with
  | none => some (false, xs)
  | some (e, ofs) =>
    let (n, xs) := writeAt xs (DirEntry.bytes { e with inUse := false }) ofs room
    some (n = DirEntry.SIZE, xs)

/-- The entries that `dir_readdir` does not pass over. -/
def visible (e : DirEntry) : Bool := e.inUse ∧ e.name ≠ parentLink ∧ e.name ≠ childLink

/-- `dir_readdir`, with the name and the new position. -/
def dirReaddir (xs : List UInt8) (pos : ℕ) : Option (Option CString × ℕ) := do
  let (found, ofs) ← findLoop xs visible ((xs.length - pos) / DirEntry.SIZE + 1) pos
  match found with
  | none => some (none, ofs)
  | some e => some (some (e.name.take NAME_MAX), ofs + DirEntry.SIZE)

/-- One call. -/
def step (d : DirFile) : DirCall → Option (List DirReply × DirFile)
  | .add name inodeSector room => do
    let (success, xs) ← dirAdd d.bytes name inodeSector room
    some ([.added name inodeSector success], { d with bytes := xs })
  | .remove name room => do
    let (success, xs) ← dirRemove d.bytes name room
    some ([.removed name success], { d with bytes := xs })
  | .readdir => do
    let (name, pos) ← dirReaddir d.bytes d.pos
    some ([.read name], { d with pos := pos })

/-! ### Loops -/

/-- The first slot from `k` on whose entry meets a condition. -/
def firstFrom (xs : List UInt8) (cond : DirEntry → Bool) (k : ℕ) : Option ℕ :=
  (List.range' k (slots xs - k)).find? fun j => cond (entryAt xs j)

section
variable {xs : List UInt8} {cond : DirEntry → Bool} {name : CString} {fuel j k : ℕ}

theorem firstFrom_eq_some : firstFrom xs cond k = some j ↔ (k ≤ j ∧ j < slots xs) ∧
    cond (entryAt xs j) = true ∧ ∀ i, k ≤ i → i < j → cond (entryAt xs i) = false := by
  unfold firstFrom
  rw [find?_range'_eq_some, mem_range'_1]
  simp only [Bool.not_eq_true']
  constructor
  · exact fun ⟨hc, hj, hi⟩ => ⟨by omega, hc, hi⟩
  · exact fun ⟨hj, hc, hi⟩ => ⟨hc, by omega, hi⟩

theorem firstFrom_eq_none : firstFrom xs cond k = none ↔
    ∀ i, k ≤ i → i < slots xs → cond (entryAt xs i) = false := by
  unfold firstFrom
  rw [find?_eq_none]
  simp only [mem_range'_1, Bool.not_eq_true]
  exact ⟨fun h i hk hi => h i (by omega), fun h i hi => h i hi.1 (by omega)⟩

theorem readAt_slot (k : ℕ) : (readAt xs SIZE (SIZE * k)).length = SIZE ↔ k < slots xs := by
  unfold readAt slots
  rw [length_take, length_drop, SIZE_eq]
  omega

theorem ofBytes_readAt (hk : k < slots xs) :
    ofBytes (readAt xs SIZE (SIZE * k)) = entryAt xs k := by
  have hmin : min SIZE (xs.length - SIZE * k) = SIZE := by
    unfold slots at hk
    rw [SIZE_eq] at *
    omega
  rw [readAt, ← slice_region, hmin, entryAt]

theorem findLoop_eq (hk : k ≤ slots xs) (hf : slots xs - k < fuel) :
    findLoop xs cond fuel (SIZE * k) = some (match firstFrom xs cond k with
      | none => (none, SIZE * slots xs)
      | some j => (some (entryAt xs j), SIZE * j)) := by
  induction fuel generalizing k with
  | zero => omega
  | succ fuel ih =>
    unfold findLoop
    by_cases hlt : k < slots xs
    · rw [if_pos ((readAt_slot k).mpr hlt), ofBytes_readAt hlt]
      rw [firstFrom, show slots xs - k = slots xs - (k + 1) + 1 by omega, range'_succ,
        find?_cons]
      cases hc : cond (entryAt xs k) with
      | true => exact if_pos hc
      | false =>
        rw [if_neg (by simp [hc]), show SIZE * k + SIZE =
          SIZE * (k + 1) by ring, ih (by omega) (by omega), firstFrom]
    · obtain rfl : k = slots xs := by omega
      rw [if_neg fun h => hlt ((readAt_slot _).mp h), firstFrom, Nat.sub_self]
      rfl

theorem lookup_eq (xs : List UInt8) (name : CString) :
    lookup xs name = some ((slotOf xs name).map fun k => (entryAt xs k, SIZE * k)) := by
  have hloop := @findLoop_eq xs (fun e => e.inUse ∧ e.name = name) (slots xs + 1) 0
    (Nat.zero_le _) (Nat.lt_add_one _)
  rw [show firstFrom xs _ 0 = slotOf xs name from rfl, Nat.mul_zero] at hloop
  unfold lookup
  rw [show xs.length / SIZE + 1 = slots xs + 1 from rfl, hloop]
  cases slotOf xs name with
  | none | some => rfl

theorem lookup_eq_none : lookup xs name = some none ↔ slotOf xs name = none := by
  rw [lookup_eq, some.injEq, map_eq_none_iff]

theorem firstFrom_free (xs : List UInt8) :
    (firstFrom xs (fun e => !e.inUse) 0).getD (slots xs) = freeSlot xs := by
  have hle := freeSlot_le xs
  cases hfir : firstFrom xs (fun e => !e.inUse) 0 with
  | none =>
    by_contra hne
    have hlt : freeSlot xs < slots xs := lt_of_le_of_ne hle fun h => hne h.symm
    have hin := firstFrom_eq_none.mp hfir (freeSlot xs) (Nat.zero_le _) hlt
    simp [inUse_freeSlot hlt] at hin
  | some j =>
    obtain ⟨⟨-, hj⟩, hfree, hbfr⟩ := firstFrom_eq_some.mp hfir
    have hfree' : (entryAt xs j).inUse = false := by simpa using hfree
    have hle' : freeSlot xs ≤ j := freeSlotFrom_le (Nat.zero_le j) (by omega) hfree'
    rcases hle'.lt_or_eq with hlt | he
    · have hin := hbfr (freeSlot xs) (Nat.zero_le _) hlt
      simp [inUse_freeSlot (hlt.trans hj)] at hin
    · exact he.symm

theorem findLoop_free (xs : List UInt8) : ∃ e,
    findLoop xs (fun e => !e.inUse) (xs.length / SIZE + 1) 0 =
      some (e, SIZE * freeSlot xs) := by
  have hloop := @findLoop_eq xs (fun e => !e.inUse) (slots xs + 1) 0 (Nat.zero_le _)
    (Nat.lt_add_one _)
  have hfree := firstFrom_free xs
  rw [Nat.mul_zero] at hloop
  rw [show xs.length / SIZE + 1 = slots xs + 1 from rfl, hloop]
  cases hfir : firstFrom xs (fun e => !e.inUse) 0 with
  | none =>
    rw [hfir, getD_none] at hfree
    exact ⟨_, by rw [hfree]⟩
  | some j =>
    rw [hfir, getD_some] at hfree
    exact ⟨_, by rw [hfree]⟩

end

/-! ### Incomplete writes -/

/-- The same slots are in use, with the same entries. -/
def SameInUse (xs ys : List UInt8) : Prop :=
  slots ys = slots xs ∧ ∀ k < slots xs,
    (entryAt ys k).inUse = true ∨ (entryAt xs k).inUse = true → entryAt ys k = entryAt xs k

theorem SameInUse.refl (xs : List UInt8) : SameInUse xs xs := ⟨rfl, fun _ _ _ => rfl⟩

theorem SameInUse.slotOf_eq (h : SameInUse xs ys) (name : CString) :
    slotOf ys name = slotOf xs name := by
  have hmtc : ∀ k < slots xs, ((entryAt ys k).inUse = true ∧ (entryAt ys k).name = name) ↔
      (entryAt xs k).inUse = true ∧ (entryAt xs k).name = name := by
    intro k hk
    constructor
    · intro hm
      rwa [h.2 k hk (.inl hm.1)] at hm
    · intro hm
      rwa [h.2 k hk (.inr hm.1)]
  cases hold : slotOf xs name with
  | none =>
    rw [slotOf_eq_none] at hold ⊢
    rw [h.1]
    exact fun k hk => (hmtc k hk).not.mpr (hold k hk)
  | some k =>
    rw [slotOf_eq_some] at hold ⊢
    obtain ⟨hk, hm, hbfr⟩ := hold
    exact ⟨h.1 ▸ hk, (hmtc k hk).mpr hm, fun j hj => (hmtc j (hj.trans hk)).not.mpr (hbfr j hj)⟩

theorem SameInUse.map_slotOf {α : Type} (h : SameInUse xs ys)
    (f : DirEntry → ℕ → α) (name : CString) :
    (slotOf ys name).map (fun k => f (entryAt ys k) k) =
      (slotOf xs name).map fun k => f (entryAt xs k) k := by
  rw [h.slotOf_eq]
  refine map_congr fun k hk => ?_
  obtain ⟨hlt, hm, -⟩ := slotOf_eq_some.mp hk
  rw [h.2 k hlt (.inr hm.1)]

theorem SameInUse.lookup_eq (h : SameInUse xs ys) (name : CString) :
    lookup ys name = lookup xs name := by
  rw [DirFile.lookup_eq, DirFile.lookup_eq, h.map_slotOf fun e k => (e, SIZE * k)]

theorem SameInUse.entriesOf_eq (h : SameInUse xs ys) : entriesOf ys = entriesOf xs := by
  funext name
  exact h.map_slotOf (fun e _ => e.inodeSector) name

theorem ofBytes_slice (F : ℕ → UInt8) (o : ℕ) : ofBytes (slice F o SIZE) =
    ⟨word 4 fun j => F (o + j), (slice F (o + 4) (NAME_MAX + 1)).takeWhile fun c => c != 0,
      F (o + 19) != 0⟩ := rfl

section
variable {xs : List UInt8} {e : DirEntry} {room k : ℕ}

theorem region_write_take (hroom : room < SIZE) (j : ℕ) :
    region (write xs (SIZE * k) (e.bytes.take room)) (SIZE * k + j) =
      if j < room then region e.bytes j else region xs (SIZE * k + j) := by
  have hlen : (e.bytes.take room).length = room := by
    rw [length_take, e.length_bytes]
    omega
  rw [region_write]
  split_ifs with hj
  · rw [overwrite_of_inside (by omega) (by omega)]
    simp [region, hj]
  · exact overwrite_of_outside (by omega)

/-- An incomplete write to slot `k` or to the end. -/
theorem sameInUse_write_take (hk : k ≤ slots xs) (hroom : room < SIZE) (hslot : k < slots xs →
      (entryAt (write xs (SIZE * k) (e.bytes.take room)) k).inUse = true ∨
        (entryAt xs k).inUse = true →
      entryAt (write xs (SIZE * k) (e.bytes.take room)) k = entryAt xs k) :
    SameInUse xs (write xs (SIZE * k) (e.bytes.take room)) := by
  have hlen : (e.bytes.take room).length = room := by
    rw [length_take, e.length_bytes]
    omega
  refine ⟨?_, fun j hj hin => ?_⟩
  · unfold slots at *
    rw [length_write]
    rw [SIZE_eq] at *
    omega
  · by_cases hjk : j = k
    · subst hjk
      exact hslot hj hin
    · unfold entryAt
      congr 1
      refine slice_congr fun i hi => ?_
      rw [region_write, overwrite_of_outside]
      rw [SIZE_eq] at *
      omega

theorem inUse_write_take (hroom : room < SIZE) :
    (entryAt (write xs (SIZE * k) (e.bytes.take room)) k).inUse =
      (entryAt xs k).inUse := by
  unfold entryAt
  rw [ofBytes_slice, ofBytes_slice]
  rw [region_write_take hroom, if_neg]
  rw [SIZE_eq] at hroom
  omega

theorem exists_terminator {l : List UInt8} (h : (l.takeWhile fun c => c != 0).length < l.length) :
    ∃ rest, l = (l.takeWhile fun c => c != 0) ++ 0 :: rest := by
  have hspl := takeWhile_append_dropWhile (p := fun c : UInt8 => c != 0) (l := l)
  cases hd : l.dropWhile fun c => c != 0 with
  | nil =>
    rw [hd, append_nil] at hspl
    rw [hspl] at h
    omega
  | cons c rest =>
    have hc : c = 0 := by
      have := head_dropWhile_not (l := l) (fun c : UInt8 => c != 0) (by simp [hd])
      simpa [hd] using this
    rw [hd, hc] at hspl
    exact ⟨rest, hspl.symm⟩

theorem region_name (hname : (entryAt xs k).name.length ≤ NAME_MAX) {j : ℕ}
    (hj : j ≤ (entryAt xs k).name.length) :
    region (entryAt xs k).name j = region xs (SIZE * k + 4 + j) := by
  unfold entryAt at *
  rw [ofBytes_slice] at *
  obtain ⟨rest, hrest⟩ := exists_terminator
    (lt_of_le_of_lt hname (by rw [length_slice]; exact Nat.lt_add_one _))
  rw [NAME_MAX_eq] at *
  have hbyte : (slice (region xs) (SIZE * k + 4) (14 + 1)).getD j 0 =
      region xs (SIZE * k + 4 + j) := getD_slice (by omega)
  rw [← hbyte]
  conv_rhs => rw [hrest]
  rcases hj.lt_or_eq with hlt | he
  · rw [getD_append _ _ _ _ hlt]
    rfl
  · rw [getD_append_right _ _ _ _ he.ge, he, Nat.sub_self, region_of_length_le le_rfl]
    rfl

/-- An entry is given by its bytes up to the terminator of the name, and the flag. -/
theorem entryAt_congr (hname : (entryAt xs k).name.length ≤ NAME_MAX)
    (hsame : ∀ j ≤ 4 + (entryAt xs k).name.length,
      region ys (SIZE * k + j) = region xs (SIZE * k + j))
    (hin : (entryAt ys k).inUse = (entryAt xs k).inUse) : entryAt ys k = entryAt xs k := by
  have hsct : (entryAt ys k).inodeSector = (entryAt xs k).inodeSector := by
    unfold entryAt
    rw [ofBytes_slice, ofBytes_slice]
    exact word_congr fun j hj => hsame j (by omega)
  have hzero : 0 ∉ (entryAt xs k).name := by
    intro h
    simpa using mem_takeWhile_imp h
  have hslc : slice (region ys) (SIZE * k + 4) ((entryAt xs k).name.length + 1) =
      slice (region (entryAt xs k).name) 0 ((entryAt xs k).name.length + 1) := by
    refine slice_congr fun j hj => ?_
    rw [zero_add, region_name hname (by omega), add_assoc, hsame (4 + j) (by omega)]
  have hnms : (entryAt ys k).name = (entryAt xs k).name := by
    conv_lhs => unfold entryAt
    rw [ofBytes_slice]
    rw [show NAME_MAX + 1 = (entryAt xs k).name.length + 1 +
      (NAME_MAX - (entryAt xs k).name.length) by omega, slice_add, takeWhile_append, hslc,
      takeWhile_slice_region (Nat.lt_add_one _) hzero, if_neg (by simp)]
  cases hx : entryAt xs k
  cases hy : entryAt ys k
  simp only [hx, hy] at hsct hnms hin
  rw [hsct, hnms, hin]

/-- What is written of an entry that is already there changes nothing. -/
theorem entryAt_write_take (hroom : room < SIZE) (hname : (entryAt xs k).name.length ≤ NAME_MAX) :
    entryAt (write xs (SIZE * k)
      ((DirEntry.bytes { entryAt xs k with inUse := false }).take room)) k = entryAt xs k := by
  have hname' := hname
  rw [NAME_MAX_eq] at hname'
  have hsct : ∀ j < 4, byte (entryAt xs k).inodeSector j = region xs (SIZE * k + j) := by
    intro j hj
    exact byte_word hj fun j => region xs (SIZE * k + j)
  -- the bytes that matter are the same, up to the terminator of the name
  have hsame : ∀ j ≤ 4 + (entryAt xs k).name.length, region (write xs (SIZE * k)
        ((DirEntry.bytes { entryAt xs k with inUse := false }).take room))
        (SIZE * k + j) = region xs (SIZE * k + j) := by
    intro j hj
    rw [region_write_take hroom]
    split_ifs with hjr
    · rw [DirEntry.region_bytes _ (by omega)]
      split_ifs with hj1 hj2
      · exact hsct j hj1
      · rw [region_name hname (by omega), add_assoc, Nat.add_sub_cancel' (by omega)]
      · omega
      · omega
    · rfl
  have hin := @inUse_write_take xs { entryAt xs k with inUse := false } room k hroom
  exact entryAt_congr hname hsame hin

end

/-! ### What a call does -/

/-- The names in use fit into an entry and are distinct. -/
structure Distinct (xs : List UInt8) : Prop where
  valid : ∀ k < slots xs, (entryAt xs k).inUse = true → ValidName (entryAt xs k).name
  unique : ∀ j < slots xs, ∀ k < slots xs, (entryAt xs j).inUse = true →
    (entryAt xs k).inUse = true → (entryAt xs j).name = (entryAt xs k).name → j = k

section
variable {xs ys : List UInt8} {name : CString} {inodeSector room k : ℕ}

theorem distinct_replicate (len : ℕ) : Distinct (replicate len 0) where
  valid k _ hu := by
    simp [inUse_entryAt_replicate] at hu
  unique j _ k _ hj _ _ := by
    simp [inUse_entryAt_replicate] at hj

theorem Distinct.congr (h : Distinct xs) (hs : SameInUse xs ys) : Distinct ys where
  valid k hk hu := by
    rw [hs.1] at hk
    have he := hs.2 k hk (.inl hu)
    rw [he] at hu ⊢
    exact h.valid k hk hu
  unique j hj k hk huj huk hname := by
    rw [hs.1] at hj hk
    have hej := hs.2 j hj (.inl huj)
    have hek := hs.2 k hk (.inl huk)
    rw [hej] at huj hname
    rw [hek] at huk hname
    exact h.unique j hj k hk huj huk hname

theorem Distinct.addEntry (h : Distinct xs) (hs : inodeSector < 2 ^ 32) (hn : ValidName name)
    (hnew : slotOf xs name = none) : Distinct (addEntry xs name inodeSector) := by
  have hnone := slotOf_eq_none.mp hnew
  have hslot : ∀ k < slots (Pintos.addEntry xs name inodeSector), k ≠ freeSlot xs →
      k < slots xs := by
    intro k hk hne
    have hle := freeSlot_le xs
    rw [slots_addEntry] at hk
    omega
  refine ⟨fun k hk hu => ?_, fun j hj k hk huj huk hname => ?_⟩
  · rw [entryAt_addEntry hs hn] at hu ⊢
    split_ifs at hu ⊢ with hkf
    · exact hn
    · exact h.valid k (hslot k hk hkf) hu
  · rw [entryAt_addEntry hs hn] at huj huk hname
    rw [entryAt_addEntry hs hn] at hname
    split_ifs at huj huk hname with hjf hkf hkf
    · exact hjf.trans hkf.symm
    · exact absurd ⟨huk, hname.symm⟩ (hnone k (hslot k hk hkf))
    · exact absurd ⟨huj, hname⟩ (hnone j (hslot j hj hjf))
    · exact h.unique j (hslot j hj hjf) k (hslot k hk hkf) huj huk hname

theorem Distinct.clearEntry (h : Distinct xs) (hk : k < slots xs) : Distinct (clearEntry xs k) where
  valid j hj hu := by
    rw [slots_clearEntry hk] at hj
    have he := (inUse_clearEntry hu).2
    rw [he] at hu ⊢
    exact h.valid j hj hu
  unique i hi j hj hui huj hname := by
    rw [slots_clearEntry hk] at hi hj
    have hei := (inUse_clearEntry hui).2
    have hej := (inUse_clearEntry huj).2
    rw [hei] at hui hname
    rw [hej] at huj hname
    exact h.unique i hi j hj hui huj hname

theorem Distinct.entriesOf_clearEntry (h : Distinct xs) (hslot : slotOf xs name = some k) :
    entriesOf (Pintos.clearEntry xs k) = update (entriesOf xs) name none := by
  obtain ⟨hk, ⟨hu, rfl⟩, -⟩ := slotOf_eq_some.mp hslot
  funext name'
  by_cases hne : name' = (entryAt xs k).name
  · subst hne
    rw [update_self, entriesOf_eq_none, slotOf_eq_none]
    rintro j hj ⟨huj, hname⟩
    rw [slots_clearEntry hk] at hj
    obtain ⟨hjk, he⟩ := inUse_clearEntry huj
    rw [he] at huj hname
    exact hjk (h.unique j hj k hk huj hu hname)
  · rw [update_of_ne hne]
    exact Pintos.entriesOf_clearEntry hk fun he => hne he.symm

theorem dirAdd_ite (xs : List UInt8) (name : CString) (inodeSector room : ℕ) :
    dirAdd xs name inodeSector room =
      if (name = [] ∨ name.length > NAME_MAX) ∨ (slotOf xs name).isSome then some (false, xs)
      else some (min room DirEntry.SIZE = DirEntry.SIZE, write xs (DirEntry.SIZE * freeSlot xs)
        ((DirEntry.bytes ⟨inodeSector, name, true⟩).take room)) := by
  obtain ⟨e, hloop⟩ := findLoop_free xs
  unfold dirAdd
  by_cases hbad : name = [] ∨ name.length > NAME_MAX
  · rw [if_pos hbad, if_pos (.inl hbad)]
  · rw [if_neg hbad, lookup_eq]
    cases slotOf xs name with
    | some => simp
    | none =>
      rw [if_neg (by simpa using hbad)]
      simp [hloop, writeAt, DirEntry.length_bytes]

theorem dirAdd_eq (hzero : 0 ∉ name) (xs : List UInt8) (inodeSector room : ℕ) : ∃ success ys,
    dirAdd xs name inodeSector room = some (success, ys) ∧
      (success = true ↔ ValidName name ∧ slotOf xs name = none ∧ DirEntry.SIZE ≤ room) ∧
      if success then ys = addEntry xs name inodeSector else SameInUse xs ys := by
  rw [dirAdd_ite]
  split_ifs with hbad
  · refine ⟨false, xs, rfl, iff_of_false (by simp) fun h => ?_, .refl xs⟩
    rcases hbad with (h0 | hlong) | hsome
    · exact h.1.1 h0
    · exact absurd h.1.2.1 (not_le.mpr hlong)
    · simp [h.2.1] at hsome
  rw [not_or, not_or, not_lt, not_isSome_iff_eq_none] at hbad
  refine ⟨_, _, rfl, ?_, ?_⟩
  · have hvalid : ValidName name := ⟨hbad.1.1, hbad.1.2, hzero⟩
    simp only [decide_eq_true_eq, hvalid, hbad.2, true_and]
    omega
  · have hlen := DirEntry.length_bytes ⟨inodeSector, name, true⟩
    simp only [decide_eq_true_eq]
    split_ifs with hroom
    · rw [take_of_length_le (by omega)]
      rfl
    · refine sameInUse_write_take (freeSlot_le xs) (by omega) fun hlt hin => ?_
      -- the slot is not in use, before and after
      rw [inUse_write_take (by omega), inUse_freeSlot hlt] at hin
      rcases hin with hin | hin <;> cases hin

theorem dirRemove_eq (h : Distinct xs) (name : CString) (room : ℕ) : ∃ success ys,
    dirRemove xs name room = some (success, ys) ∧
      if success then ∃ k, slotOf xs name = some k ∧ ys = clearEntry xs k
      else SameInUse xs ys := by
  unfold dirRemove
  rw [lookup_eq]
  cases hslot : slotOf xs name with
  | none => exact ⟨false, xs, rfl, .refl xs⟩
  | some k =>
    obtain ⟨hk, hm, -⟩ := slotOf_eq_some.mp hslot
    have hlen := DirEntry.length_bytes { entryAt xs k with inUse := false }
    refine ⟨_, _, rfl, ?_⟩
    simp only [hlen, decide_eq_true_eq]
    split_ifs with hroom
    · rw [take_of_length_le (hlen.trans_le (by omega))]
      exact ⟨k, rfl, rfl⟩
    · exact sameInUse_write_take hk.le (by omega) fun _ _ =>
        entryAt_write_take (by omega) (h.valid k hk hm.1).2.1

end

section
variable {d d' : DirFile} {c : DirCall} {r : DirReply} {xs : List UInt8} {i : ℕ}

/-- A directory that is a map, and the position of an entry. -/
structure Valid (d : DirFile) : Prop where
  distinct : Distinct d.bytes
  pos : ∃ i ≤ slots d.bytes, d.pos = DirEntry.SIZE * i

/-- The effect of a call on a directory that is a map. -/
inductive Effect (d : DirFile) : DirCall → DirReply → DirFile → Prop
  | added {name : CString} {inodeSector room : ℕ} (hvalid : ValidName name)
      (hsector : inodeSector < 2 ^ 32) (hnew : slotOf d.bytes name = none) :
      Effect d (.add name inodeSector room) (.added name inodeSector true)
        { d with bytes := addEntry d.bytes name inodeSector }
  | notAdded {name : CString} {inodeSector room : ℕ} {ys : List UInt8}
      (hsame : SameInUse d.bytes ys) :
      Effect d (.add name inodeSector room) (.added name inodeSector false) { d with bytes := ys }
  | removed {name : CString} {room k : ℕ} (hslot : slotOf d.bytes name = some k) :
      Effect d (.remove name room) (.removed name true) { d with bytes := clearEntry d.bytes k }
  | notRemoved {name : CString} {room : ℕ} {ys : List UInt8} (hsame : SameInUse d.bytes ys) :
      Effect d (.remove name room) (.removed name false) { d with bytes := ys }
  | read {i j : ℕ} (hpos : d.pos = DirEntry.SIZE * i) (hfirst : firstFrom d.bytes visible i = some j) :
      Effect d .readdir (.read (some (entryAt d.bytes j).name))
        { d with pos := DirEntry.SIZE * (j + 1) }
  | atEnd {i : ℕ} (hpos : d.pos = DirEntry.SIZE * i) (hfirst : firstFrom d.bytes visible i = none) :
      Effect d .readdir (.read none) { d with pos := DirEntry.SIZE * slots d.bytes }

theorem dirReaddir_eq (hv : Distinct xs) (hi : i ≤ slots xs) :
    dirReaddir xs (SIZE * i) = some (match firstFrom xs visible i with
      | none => (none, SIZE * slots xs)
      | some j => (some (entryAt xs j).name, SIZE * (j + 1))) := by
  have hfuel : (xs.length - SIZE * i) / SIZE + 1 = slots xs - i + 1 := by
    unfold slots at *
    rw [SIZE_eq] at *
    omega
  unfold dirReaddir
  rw [hfuel, findLoop_eq hi (Nat.lt_add_one _), bind_eq_bind, bind_some]
  cases hfir : firstFrom xs visible i with
  | none => rfl
  | some j =>
    obtain ⟨⟨-, hj⟩, hvis, -⟩ := firstFrom_eq_some.mp hfir
    have hu := (of_decide_eq_true hvis).1
    dsimp only
    rw [take_of_length_le (hv.valid j hj hu).2.1, Nat.mul_succ]

theorem Valid.step (h : d.Valid) (hc : c.WellTyped) :
    ∃ r d', d.step c = some ([r], d') ∧ Effect d c r d' := by
  cases c with
  | add name inodeSector room =>
    obtain ⟨success, ys, ha, hiff, heff⟩ := dirAdd_eq hc.1 d.bytes inodeSector room
    simp only [DirFile.step, ha]
    refine ⟨_, _, rfl, ?_⟩
    cases success with
    | false => exact .notAdded heff
    | true =>
      obtain ⟨hvalid, hnew, -⟩ := hiff.mp rfl
      cases heff
      exact .added hvalid hc.2 hnew
  | remove name room =>
    obtain ⟨success, ys, hr, heff⟩ := dirRemove_eq h.distinct name room
    simp only [DirFile.step, hr]
    refine ⟨_, _, rfl, ?_⟩
    cases success with
    | false => exact .notRemoved heff
    | true =>
      obtain ⟨k, hslot, rfl⟩ := heff
      exact .removed hslot
  | readdir =>
    obtain ⟨i, hi, hpos⟩ := h.pos
    have hread := dirReaddir_eq h.distinct hi
    simp only [DirFile.step, hpos, hread]
    refine ⟨_, _, rfl, ?_⟩
    cases hfir : firstFrom d.bytes visible i with
    | none => exact .atEnd hpos hfir
    | some j => exact .read hpos hfir

theorem Effect.slots_le (he : Effect d c r d') : slots d.bytes ≤ slots d'.bytes := by
  cases he with
  | added =>
    rw [slots_addEntry]
    exact Nat.le_max_left _ _
  | notAdded hsame => exact hsame.1.ge
  | removed hslot => exact (slots_clearEntry (slotOf_eq_some.mp hslot).1).ge
  | notRemoved hsame => exact hsame.1.ge
  | read | atEnd => exact le_rfl

theorem Effect.valid (he : Effect d c r d') (h : d.Valid) : d'.Valid := by
  obtain ⟨i, hi, hpos⟩ := h.pos
  have hle := he.slots_le
  cases he with
  | added hvalid hsct hnew =>
    exact ⟨h.distinct.addEntry hsct hvalid hnew, i, hi.trans hle, hpos⟩
  | notAdded hsame => exact ⟨h.distinct.congr hsame, i, hi.trans hle, hpos⟩
  | removed hslot =>
    exact ⟨h.distinct.clearEntry (slotOf_eq_some.mp hslot).1, i, hi.trans hle, hpos⟩
  | notRemoved hsame => exact ⟨h.distinct.congr hsame, i, hi.trans hle, hpos⟩
  | read _ hfir => exact ⟨h.distinct, _, (firstFrom_eq_some.mp hfir).1.2, rfl⟩
  | atEnd => exact ⟨h.distinct, _, le_rfl, rfl⟩

end

/-! ### Histories -/

section
variable {d d' : DirFile} {c : DirCall} {r : DirReply} {calls : List DirCall} {name : CString}
  {k : ℕ}

theorem Effect.entriesOf_eq (he : Effect d c r d') (h : d.Valid) (name : CString) :
    entriesOf d'.bytes name = r.after name (entriesOf d.bytes name) := by
  cases he with
  | added hvalid hsct hnew =>
    rw [entriesOf_addEntry hsct hvalid hnew, update_apply]
    simp [DirReply.after, eq_comm]
  | notAdded hsame => exact congrFun hsame.entriesOf_eq name
  | removed hslot =>
    rw [h.distinct.entriesOf_clearEntry hslot, update_apply]
    simp [DirReply.after, eq_comm]
  | notRemoved hsame => exact congrFun hsame.entriesOf_eq name
  | read | atEnd => rfl

theorem Valid.trace (h : d.Valid) (hc : ∀ c ∈ calls, c.WellTyped) :
    ∃ rs d', Runs.trace DirFile.step d calls = some (rs, d') ∧ d'.Valid ∧
      ∀ name, entriesOf d'.bytes name = rs.foldl (DirReply.after name) (entriesOf d.bytes name) := by
  induction calls generalizing d with
  | nil => exact ⟨[], d, rfl, h, fun _ => rfl⟩
  | cons c calls ih =>
    obtain ⟨r, d1, hstep, he⟩ := h.step (hc c mem_cons_self)
    obtain ⟨rs, d', htrc, hvalid, hmap⟩ := ih (he.valid h) fun c hm =>
      hc c (mem_cons_of_mem _ hm)
    refine ⟨[r] ++ rs, d', trace_cons.mpr ⟨[r], d1, rs, hstep, htrc, rfl⟩, hvalid, fun name => ?_⟩
    rw [hmap, he.entriesOf_eq h]
    rfl

/-! ### Scans -/

/-- How often a scan has seen the entry in slot `k`: it has passed it or not. -/
def seen (k : ℕ) (d : DirFile) : ℕ := if DirEntry.SIZE * k < d.pos then 1 else 0

theorem seen_le_one (k : ℕ) (d : DirFile) : seen k d ≤ 1 := by
  unfold seen
  split_ifs <;> omega

theorem seen_of_pos (h : d.pos = SIZE * i) : seen k d = if k < i then 1 else 0 := by
  unfold seen
  rw [h, SIZE_eq]
  simp

/-- A call for another name keeps the slot of a name, and `dir_readdir` returns the name when it
passes the slot. -/
theorem Effect.sees (he : Effect d c r d') (h : d.Valid) (hslot : slotOf d.bytes name = some k)
    (hp : name ≠ parentLink) (hl : name ≠ childLink) (hne : c.name ≠ some name) :
    slotOf d'.bytes name = some k ∧ seen k d' = seen k d + (DirReply.names [r]).count name ∧
      (r = .read none → seen k d' = 1) := by
  obtain ⟨hk, hm, -⟩ := slotOf_eq_some.mp hslot
  have hvis : visible (entryAt d.bytes k) = true := by
    rw [visible, hm.2, hm.1]
    simp [hp, hl]
  cases he with
  | added hvalid hsct hnew =>
    refine ⟨?_, rfl, nofun⟩
    rwa [slotOf_addEntry_of_ne hsct hvalid fun hn => hne (congrArg some hn.symm)]
  | notAdded hsame => exact ⟨(hsame.slotOf_eq name).trans hslot, rfl, nofun⟩
  | removed hslot' =>
    obtain ⟨hk', hm', -⟩ := slotOf_eq_some.mp hslot'
    refine ⟨?_, rfl, nofun⟩
    rwa [slotOf_clearEntry hk' fun hn => hne (congrArg some (hm'.2.symm.trans hn))]
  | notRemoved hsame => exact ⟨(hsame.slotOf_eq name).trans hslot, rfl, nofun⟩
  | @read i j hpos hfir =>
    obtain ⟨⟨hij, hj⟩, hvis', hbfr⟩ := firstFrom_eq_some.mp hfir
    have hpsd : ¬ (i ≤ k ∧ k < j) := fun hin => by
      simp [hbfr k hin.1 hin.2] at hvis
    refine ⟨hslot, ?_, nofun⟩
    rw [seen_of_pos hpos, seen_of_pos rfl]
    by_cases hkj : k = j
    · subst hkj
      rw [if_pos (Nat.lt_add_one k), if_neg (by omega), hm.2]
      simp [DirReply.names]
    · have hname : (entryAt d.bytes j).name ≠ name := fun hn => hkj
        (h.distinct.unique k hk j hj hm.1 (of_decide_eq_true hvis').1 (hm.2.trans hn.symm))
      rw [show (DirReply.names [.read (some (entryAt d.bytes j).name)]).count name = 0 by
        simp [DirReply.names, hname]]
      split_ifs <;> omega
  | @atEnd i hpos hfir =>
    have hpsd : k < i := by
      by_contra hin
      simp [firstFrom_eq_none.mp hfir k (by omega) hk] at hvis
    have hone : seen k { d with pos := SIZE * slots d.bytes } = 1 := by
      rw [seen_of_pos rfl, if_pos hk]
    refine ⟨hslot, ?_, fun _ => hone⟩
    rw [hone, seen_of_pos hpos, if_pos hpsd]
    rfl

/-- A scan returns a name that stays as often as it passes its slot, and has passed it when it is at
the end. -/
theorem Valid.trace_sees (h : d.Valid) (hslot : slotOf d.bytes name = some k)
    (hp : name ≠ parentLink) (hl : name ≠ childLink)
    (hc : ∀ c ∈ calls, c.WellTyped ∧ c.name ≠ some name) :
    ∃ rs d', Runs.trace DirFile.step d calls = some (rs, d') ∧
      seen k d' = seen k d + (DirReply.names rs).count name ∧
      (.read none ∈ rs → seen k d' = 1) := by
  induction calls generalizing d with
  | nil => exact ⟨[], d, rfl, rfl, nofun⟩
  | cons c calls ih =>
    obtain ⟨hwt, hne⟩ := hc c mem_cons_self
    obtain ⟨r, d1, hstep, he⟩ := h.step hwt
    obtain ⟨hslot1, hcou1, hend1⟩ := he.sees h hslot hp hl hne
    obtain ⟨rs, d', htrc, hcou, hend⟩ := ih (he.valid h) hslot1 fun c hm =>
      hc c (mem_cons_of_mem _ hm)
    refine ⟨[r] ++ rs, d', trace_cons.mpr ⟨[r], d1, rs, hstep, htrc, rfl⟩, ?_, fun hin => ?_⟩
    · rw [DirReply.names, filterMap_append, count_append, hcou, hcou1, add_assoc]
      rfl
    · rcases mem_append.mp hin with hr | hrs
      · have hone := hend1 (mem_singleton.mp hr).symm
        have hle := seen_le_one k d'
        omega
      · exact hend hrs

/-! ### Finite maps -/

/-- The directory is a finite map: the one that the replies say. -/
structure FiniteMap (replies : List DirReply) (xs : List UInt8) : Prop where
  distinct : ∀ j < slots xs, ∀ k < slots xs, (entryAt xs j).inUse = true →
    (entryAt xs k).inUse = true → (entryAt xs j).name = (entryAt xs k).name → j = k
  lookup : ∀ name inodeSector,
    (∃ e ofs, lookup xs name = some (some (e, ofs)) ∧ e.inodeSector = inodeSector) ↔
      DirReply.lastAdded replies name = some inodeSector
  dirAdd : ∀ name inodeSector room, 0 ∉ name → inodeSector < 2 ^ 32 → ∃ success ys,
    dirAdd xs name inodeSector room = some (success, ys) ∧
      (success = true ↔ (1 ≤ name.length ∧ name.length ≤ 14) ∧
        DirFile.lookup xs name = some none ∧ DirEntry.SIZE ≤ room) ∧
      ∀ name', name' ≠ name → DirFile.lookup ys name' = DirFile.lookup xs name'
  scan : ∀ calls name e, (∀ c ∈ calls, c.WellTyped ∧ c.name ≠ some name) → name ≠ parentLink →
    name ≠ childLink → DirFile.lookup xs name = some (some e) →
    ∃ rs d, trace step ⟨xs, 0⟩ calls = some (rs, d) ∧
      (.read none ∈ rs → (DirReply.names rs).count name = 1)

theorem lookup_addEntry_of_ne {xs : List UInt8} {name' : CString} {inodeSector : ℕ}
    (hs : inodeSector < 2 ^ 32) (hn : ValidName name) (hne : name' ≠ name) :
    lookup (addEntry xs name inodeSector) name' = lookup xs name' := by
  rw [lookup_eq, lookup_eq, slotOf_addEntry_of_ne hs hn hne]
  congr 1
  refine map_congr fun k hk => ?_
  obtain ⟨hlt, hm, -⟩ := slotOf_eq_some.mp hk
  rw [entryAt_addEntry hs hn, if_neg (ne_freeSlot hlt hm.1)]

/-- **Directories are finite maps.**  A directory that starts with zeros is a finite map after every
sequence of calls, and a scan of it returns every name that stays exactly once. -/
theorem directory_is_finite_map (len : ℕ) (calls : List DirCall)
    (hcalls : ∀ c ∈ calls, c.WellTyped) :
    ∃ replies d, trace step ⟨List.replicate len 0, 0⟩ calls = some (replies, d) ∧
      FiniteMap replies d.bytes := by
  have h0 : Valid ⟨List.replicate len 0, 0⟩ := ⟨distinct_replicate len, 0, Nat.zero_le _, rfl⟩
  have hemp : ∀ name, entriesOf (List.replicate len 0) name = none := fun name => by
    rw [entriesOf_eq_none, slotOf_eq_none]
    intro k _ hm
    rw [inUse_entryAt_replicate] at hm
    cases hm.1
  obtain ⟨rs, d, htrc, hvalid, hmap⟩ := h0.trace hcalls
  refine ⟨rs, d, htrc, hvalid.distinct.unique, fun name inodeSector => ?_,
    fun name inodeSector room hzero hsct => ?_, fun calls name e hc hp hl hlook => ?_⟩
  · trans entriesOf d.bytes name = some inodeSector
    · rw [lookup_eq, entriesOf]
      cases slotOf d.bytes name with
      | none | some => simp
    · rw [hmap, hemp]
      rfl
  · obtain ⟨success, ys, ha, hiff, heff⟩ := dirAdd_eq hzero d.bytes inodeSector room
    refine ⟨success, ys, ha, ?_, fun name' hne => ?_⟩
    · rw [hiff, lookup_eq_none, ValidName, ← length_pos_iff]
      tauto
    · cases success with
      | false => exact SameInUse.lookup_eq heff name'
      | true =>
        obtain rfl : ys = _ := heff
        exact lookup_addEntry_of_ne hsct (hiff.mp rfl).1 hne
  · obtain ⟨k, hslot⟩ : ∃ k, slotOf d.bytes name = some k := by
      rw [lookup_eq, some.injEq, map_eq_some_iff] at hlook
      exact ⟨hlook.choose, hlook.choose_spec.1⟩
    have hsta : Valid ⟨d.bytes, 0⟩ := ⟨hvalid.distinct, 0, Nat.zero_le _, rfl⟩
    obtain ⟨rs, d', htrc, hcou, hend⟩ := hsta.trace_sees hslot hp hl hc
    refine ⟨rs, d', htrc, fun hin => ?_⟩
    rw [hend hin, show seen k ⟨d.bytes, 0⟩ = 0 from rfl, Nat.zero_add] at hcou
    exact hcou.symm

/-- Three names are added to a directory with space for two entries and one is removed; a scan sees
the name that stays while another one takes the free slot. -/
theorem directory_is_finite_map_three_names : ∃ replies d,
    trace step ⟨List.replicate 45 0, 0⟩
      [.add [97] 7 20, .add [98] 8 20, .add [99] 9 20, .remove [98] 20] = some (replies, d) ∧
    DirReply.lastAdded replies [99] = some 9 ∧
    (∃ e ofs, lookup d.bytes [99] = some (some (e, ofs)) ∧ e.inodeSector = 9) ∧
    ∃ rs d', trace step ⟨d.bytes, 0⟩ [.readdir, .add [100] 5 20, .remove [97] 20, .readdir,
      .readdir, .readdir] = some (rs, d') ∧ .read none ∈ rs ∧ (DirReply.names rs).count [99] = 1 := by
  obtain ⟨rs, d, htrc, hmap⟩ := directory_is_finite_map 45
    [.add [97] 7 20, .add [98] 8 20, .add [99] 9 20, .remove [98] 20] (by decide)
  have heval : (trace step ⟨List.replicate 45 0, 0⟩
      [.add [97] 7 20, .add [98] 8 20, .add [99] 9 20, .remove [98] 20]).map (fun x =>
        (DirReply.lastAdded x.1 [99], (trace step ⟨x.2.bytes, 0⟩ [.readdir, .add [100] 5 20,
          .remove [97] 20, .readdir, .readdir, .readdir]).map
            fun y => decide (.read none ∈ y.1))) = some (some 9, some true) := by
    decide +kernel
  rw [htrc] at heval
  simp only [map_some, some.injEq, Prod.mk.injEq] at heval
  obtain ⟨hlast, hend⟩ := heval
  obtain ⟨e, ofs, hlook, hsct⟩ := (hmap.lookup [99] 9).mpr hlast
  obtain ⟨rs', d', hscan, hone⟩ := hmap.scan [.readdir, .add [100] 5 20, .remove [97] 20,
    .readdir, .readdir, .readdir] [99] (e, ofs) (by decide) (by decide) (by decide) hlook
  rw [hscan, map_some, some.injEq, decide_eq_true_eq] at hend
  exact ⟨rs, d, htrc, hlast, ⟨e, ofs, hlook, hsct⟩, rs', d', hscan, hend, hone hend⟩

end

end DirFile

end Pintos
