import Pintos.Vm.Segments

/-! # Executables that are made up

`load` reads the headers of an executable from the bytes of its file, which are any bytes at all.

* **Headers.**  `readEhdr` and `readPhdr` are `struct Elf32_Ehdr` and `struct Elf32_Phdr` in the file.
  The offset of a program header is an `off_t` and may be negative.
* **Segments.**  Each header is validated on its own.  `sup_alloc_segment` fails if a page has an entry
  already, so that `load` returns if and only if no two of the segments that it comes to and accepts
  have a page in common (`load_returns_iff`).  A segment in the page of the stack only makes
  `setup_stack` fail.
* **Headers that are given.**  `State.load` is this `load`, once the program headers have been read
  (`load_eq_state`).
* **Memory.**  The entries of segments have no frames.  The page of the stack needs one; a frame that
  `get_frame` finds before the segments are mapped it finds after that as well.

What `setup_stack` writes to the page of the stack is not modelled here. -/

namespace Pintos.Vm.Loader
open Bytes Outcome Function Option State

/-! ### Headers -/

/-- The number of `w` bytes at `pos`. -/
def field (bytes : List UInt8) (pos w : ℕ) : ℕ := word w fun i => region bytes (pos + i)

/-- The fields of a `struct Elf32_Ehdr` that are looked at. -/
structure Ehdr where
  ident : List UInt8
  type : ℕ
  machine : ℕ
  version : ℕ
  phoff : ℕ
  phentsize : ℕ
  phnum : ℕ

/-- The header at the beginning of a file. -/
def readEhdr (bytes : List UInt8) : Option Ehdr :=
  if 52 ≤ bytes.length then
    some ⟨bytes.take 16, field bytes 16 2, field bytes 18 2, field bytes 20 4, field bytes 28 4,
      field bytes 42 2, field bytes 44 2⟩
  else none

/-- The header is the one of an executable. -/
def Ehdr.verify (ehdr : Ehdr) : Bool :=
  decide (ehdr.ident.take 7 = [0x7f, 0x45, 0x4c, 0x46, 1, 1, 1]) && decide (ehdr.type = 2) &&
    decide (ehdr.machine = 3) && decide (ehdr.version = 1) && decide (ehdr.phentsize = 32) &&
    decide (ehdr.phnum ≤ 1024)

/-- `p_type`. -/
def segmentType : ℕ → SegmentType
  | 0 => .null
  | 1 => .load
  | 2 => .dynamic
  | 3 => .interp
  | 4 => .note
  | 5 => .shlib
  | 6 => .phdr
  | 0x6474e551 => .stack
  | _ => .other

/-- The program header at `pos`. -/
def readPhdr (bytes : List UInt8) (pos : ℕ) : Option Phdr :=
  if pos + 32 ≤ bytes.length then
    some {
      type := segmentType (field bytes pos 4)
      offset := .ofNat (field bytes (pos + 4) 4)
      vaddr := .ofNat (field bytes (pos + 8) 4)
      filesz := .ofNat (field bytes (pos + 16) 4)
      memsz := .ofNat (field bytes (pos + 20) 4)
      writable := decide (field bytes (pos + 24) 4 / 2 % 2 = 1) }
  else none

/-- A word as an `off_t`. -/
def offT (x : ℕ) : ℤ := if x < 2 ^ 31 then x else x - 2 ^ 32

def fileSeek (newPos : ℤ) : Except Stop ℕ :=
  if 0 ≤ newPos then .ok newPos.toNat else .error .assertion

/-! ### Loading -/

variable (m : Machine)

/-- The loop over the program headers: `n` of them are left, the next one at `fileOfs`. -/
def loadHeaders (file : ℕ) (mapid : ℤ) : ℕ → ℤ → State → Except Stop (Bool × State)
  | 0, _, v => .ok (true, v)
  | n + 1, fileOfs, v =>
    if fileOfs < 0 ∨ ((v.files file).length : ℤ) < fileOfs then .ok (false, v)
    else do
      let pos ← fileSeek fileOfs
      match readPhdr (v.files file) pos with
      | none => .ok (false, v)
      | some phdr =>
        match phdr.type with
        | .null | .note | .phdr | .stack | .other =>
          loadHeaders file mapid n (fileOfs + 32) v
        | .dynamic | .interp | .shlib => .ok (false, v)
        | .load =>
          if validateSegment m phdr (v.files file).length then do
            let v ← loadPhdr v file mapid phdr
            loadHeaders file mapid n (fileOfs + 32) v
          else .ok (false, v)

/-- The executable must not be written, and its segments get a mapping number. -/
def opened (v : State) (file : ℕ) : State :=
  { v with
    denyWrite := update v.denyWrite file true
    lastMapid := v.lastMapid + 1 }

/-- Load the executable `file`. -/
def load (v : State) (file : ℕ) : Except Stop (Bool × State) :=
  match readEhdr (v.files file) with
  | none => .ok (false, v)
  | some ehdr =>
    if ehdr.verify then do
      let (ok, w) ← loadHeaders m file v.lastMapid ehdr.phnum (offT ehdr.phoff)
        (opened v file)
      if ok then w.supAllocAllZeros m ((m.physBase - 1) * PGSIZE) true else .ok (false, w)
    else .ok (false, v)

/-! ### The segments of a file -/

/-- The segments that the loop comes to and accepts. -/
def accepted (bytes : List UInt8) : ℕ → ℤ → List Phdr
  | 0, _ => []
  | n + 1, fileOfs =>
    if fileOfs < 0 ∨ (bytes.length : ℤ) < fileOfs then []
    else
      match readPhdr bytes fileOfs.toNat with
      | none => []
      | some phdr =>
        match phdr.type with
        | .null | .note | .phdr | .stack | .other => accepted bytes n (fileOfs + 32)
        | .dynamic | .interp | .shlib => []
        | .load =>
          if validateSegment m phdr bytes.length then
            phdr :: accepted bytes n (fileOfs + 32)
          else []

/-- The segments of an executable that are mapped. -/
def segments (bytes : List UInt8) : List Phdr :=
  match readEhdr bytes with
  | none => []
  | some ehdr => if ehdr.verify then accepted m bytes ehdr.phnum (offT ehdr.phoff) else []

/-- Two segments have no page in common. -/
def Apart (phdr phdr' : Phdr) : Prop := ∀ p, phdr.Touches p → ¬ phdr'.Touches p

/-- No page is in a frame. -/
def Unloaded (sup : ℕ → Option SupEntry) : Prop := ∀ p e, sup p = some e → e.frameNo = none

variable {m}

section
variable {file : ℕ} {writable : Bool} {mapid : ℤ} {ofs base read n : ℕ} {sup : ℕ → Option SupEntry}

theorem Unloaded.withSegment (h : Unloaded sup) :
    Unloaded (withSegment file writable mapid ofs base read n sup) := by
  intro p e hp
  unfold Loader.withSegment at hp
  split_ifs at hp
  · cases hp
    rfl
  · exact h p e hp

theorem withSegment_eq_none :
    withSegment file writable mapid ofs base read n sup p = none ↔
      ¬ (base ≤ p ∧ p < base + n) ∧ sup p = none := by
  unfold Loader.withSegment
  split_ifs with hin <;> simp [hin]

end

/-! ### The loop over the headers -/

section
variable {file : ℕ} {mapid : ℤ} {v : State}

/-- The loop only maps pages. -/
theorem loadHeaders_sup (v : State) (file : ℕ) (mapid : ℤ) (hm : m.physBase < 2 ^ 20)
    (hlng : (v.files file).length < 2 ^ 31) (hv : Unloaded v.sup) (n : ℕ) (fileOfs : ℤ) :
    Meets Any (fun x => ∃ sup, x.2 = { v with sup } ∧ Unloaded sup)
      (loadHeaders m file mapid n fileOfs v) := by
  have hself : ∃ sup, v = { v with sup } ∧ Unloaded sup := ⟨v.sup, rfl, hv⟩
  induction n generalizing fileOfs v with
  | zero => exact hself
  | succ n ih =>
    rw [loadHeaders]
    split_ifs with hout
    · exact hself
    · rw [fileSeek, if_pos (by omega), ok_bind]
      cases readPhdr (v.files file) fileOfs.toNat with
      | none => exact hself
      | some phdr =>
        dsimp only
        cases phdr.type with
        | null | note | phdr | stack | other => exact ih v hlng hv _ hself
        | dynamic | interp | shlib => exact hself
        | load =>
          split_ifs with hvalid
          · have h := (validateSegment_iff hm).mp hvalid
            have hoff := h.inFile.trans_lt hlng
            by_cases hfree : ∀ p, phdr.Touches p → v.sup p = none
            · rw [loadPhdr_free h hm hoff hfree]
              refine (ih (mapSegment v file mapid phdr) hlng hv.withSegment _
                ⟨_, rfl, hv.withSegment⟩).mono ?_
              rintro x ⟨sup, hx, hsup⟩
              exact ⟨sup, hx, hsup⟩
            · simp only [not_forall] at hfree
              obtain ⟨p, hp, hsome⟩ := hfree
              rw [loadPhdr_stops h hm hoff ⟨p, hp, ne_none_iff_isSome.mp hsome⟩]
              exact trivial
          · exact hself

/-- The loop returns if the segments are apart and their pages free. -/
theorem loadHeaders_returns_iff (v : State) (file : ℕ) (mapid : ℤ) (hm : m.physBase < 2 ^ 20)
    (hlng : (v.files file).length < 2 ^ 31) (n : ℕ) (fileOfs : ℤ) :
    (∃ x, loadHeaders m file mapid n fileOfs v = .ok x) ↔
      (accepted m (v.files file) n fileOfs).Pairwise Apart ∧
        ∀ phdr ∈ accepted m (v.files file) n fileOfs, ∀ p, phdr.Touches p → v.sup p = none := by
  induction n generalizing fileOfs v with
  | zero => simp [loadHeaders, accepted]
  | succ n ih =>
    rw [loadHeaders, accepted]
    by_cases hout : fileOfs < 0 ∨ ((v.files file).length : ℤ) < fileOfs
    · simp [if_pos hout]
    · rw [if_neg hout, if_neg hout, fileSeek, if_pos (by omega), ok_bind]
      cases readPhdr (v.files file) fileOfs.toNat with
      | none => simp
      | some phdr =>
        dsimp only
        cases phdr.type with
        | null | note | phdr | stack | other => exact ih v hlng _
        | dynamic | interp | shlib => simp
        | load =>
          split_ifs with hvalid
          · have h := (validateSegment_iff hm).mp hvalid
            have hoff := h.inFile.trans_lt hlng
            rw [List.pairwise_cons, List.forall_mem_cons]
            by_cases hfree : ∀ p, phdr.Touches p → v.sup p = none
            · rw [loadPhdr_free h hm hoff hfree, ok_bind, ih (mapSegment v file mapid phdr) hlng]
              simp only [mapSegment, withSegment_eq_none, ← h.touches_iff]
              constructor
              · rintro ⟨hpair, hnone⟩
                exact ⟨⟨fun s hs p hp hp' => (hnone s hs p hp').1 hp, hpair⟩, hfree,
                  fun s hs p hp => (hnone s hs p hp).2⟩
              · rintro ⟨⟨hapr, hpair⟩, -, hnone⟩
                exact ⟨hpair, fun s hs p hp =>
                  ⟨fun hp' => hapr s hs p hp' hp, hnone s hs p hp⟩⟩
            · refine iff_of_false ?_ fun hall => hfree hall.2.1
              simp only [not_forall] at hfree
              obtain ⟨p, hp, hsome⟩ := hfree
              rw [loadPhdr_stops h hm hoff ⟨p, hp, ne_none_iff_isSome.mp hsome⟩]
              rintro ⟨x, hx⟩
              cases hx
          · simp

end

/-! ### The page of the stack -/

section
variable {v : State} {sup : ℕ → Option SupEntry}

theorem foldlM_redirect_unloaded (hv : Unloaded v.sup) (victim newSwap : ℕ) (pages : List ℕ) :
    pages.foldlM (redirect m victim newSwap) v = .ok v := by
  induction pages with
  | nil => rfl
  | cons page rest ih =>
    have hrnd : redirect m victim newSwap v page = .ok v := by
      unfold redirect
      cases hp : v.sup page with
      | none => rfl
      | some e =>
        dsimp only
        rw [if_neg (by rw [hv page e hp]; nofun)]
    rw [List.foldlM_cons, hrnd, ok_bind, ih]

/-- The frame that is evicted does not depend on the pages of a process none of which is in a frame. -/
theorem evict_unloaded {denyWrite : ℕ → Bool} {lastMapid : ℤ} (hv : Unloaded v.sup)
    (hsup : Unloaded sup) (h : v.evict m true = .ok x) :
    ∃ rest slots block,
      x.2 = { v with lru := rest, swapSlots := slots, swapBlock := block } ∧
      evict m { v with sup, denyWrite, lastMapid } true =
        .ok (x.1, { v with
          sup, denyWrite, lastMapid, lru := rest
          swapSlots := slots, swapBlock := block }) := by
  unfold evict clruEvict swapAlloc swapWrite swapSlotToSector at h ⊢
  simp only [Bool.true_eq_false] at h ⊢
  split_ifs at h
  cases hlru : v.lru with
  | nil =>
    simp [hlru] at h
  | cons f rest =>
    rw [hlru] at h
    simp only [ok_bind] at h ⊢
    cases hslot : (List.range m.numSlots).find? fun s => !v.swapSlots s with
    | none =>
      simp [hslot] at h
    | some slot =>
      rw [hslot] at h
      simp only [ok_bind] at h ⊢
      split_ifs at h ⊢ with hok
      · simp only [ok_bind, pure, Except.pure] at h ⊢
        rw [foldlM_redirect_unloaded (by exact hv)] at h
        rw [foldlM_redirect_unloaded (by exact hsup)]
        cases h
        exact ⟨_, _, _, rfl, rfl⟩
      · cases h

/-- The frame for a page of a process none of whose pages is in a frame. -/
theorem getFrame_unloaded (denyWrite : ℕ → Bool) (lastMapid : ℤ) (hv : Unloaded v.sup)
    (hsup : Unloaded sup) (hmem : ∃ x, v.getFrame m true = .ok x) :
    ∃ f w, getFrame m { v with sup, denyWrite, lastMapid }
        true = .ok (f, w) ∧ w.sup = sup ∧ w.pagedir = v.pagedir ∧ f < m.initRamPages ∧
      m.valid f = true ∧ w.used f = true ∧ (w.frameTable f).page = true := by
  obtain ⟨x, hx⟩ := hmem
  unfold getFrame at hx ⊢
  cases hget : v.pallocGetPage m true with
  | some y =>
    obtain ⟨f, hfind, rfl⟩ := map_eq_some_iff.mp hget
    have hget' : pallocGetPage m
        { v with sup, denyWrite, lastMapid } true = some (f,
        { v with
          sup, denyWrite, lastMapid
          used := update v.used f true
          mem := update v.mem f fun _ => 0 }) := by
      unfold pallocGetPage
      rw [hfind]
      rfl
    rw [hget] at hx
    rw [hget']
    simp only [ok_bind] at hx ⊢
    split_ifs at hx ⊢ with hok
    exact ⟨_, _, rfl, rfl, rfl, hok.1, hok.2.2, update_self .., by
      simp [clruEnqueue]⟩
  | none =>
    have hnone := map_eq_none_iff.mp hget
    have hget' : pallocGetPage m
        { v with sup, denyWrite, lastMapid } true = none :=
      map_eq_none_iff.mpr hnone
    rw [hget] at hx
    rw [hget']
    cases hev : v.evict m true with
    | error e =>
      simp [hev] at hx
    | ok y =>
      obtain ⟨f, y⟩ := y
      obtain ⟨rest, slots, block, hy, hev'⟩ := evict_unloaded hv hsup hev
      rw [hev] at hx
      rw [hev']
      simp only [ok_bind] at hx ⊢
      split_ifs at hx ⊢ with hok
      have hused : v.used f = true := by
        have hin := List.find?_eq_none.mp hnone f (List.mem_range.mpr hok.1)
        simpa [hok.2.1, hok.2.2] using hin
      exact ⟨_, _, rfl, rfl, rfl, hok.1, hok.2.2, hused, by simp [clruEnqueue]⟩

/-- The page of the stack is mapped, or it is not since a segment is there. -/
theorem supAllocAllZeros_returns {denyWrite : ℕ → Bool} {lastMapid : ℤ} (hv : Unloaded v.sup)
    (hsup : Unloaded sup) (hpte : ∀ p, (v.pagedir p).present = false)
    (hmem : ∃ x, v.getFrame m true = .ok x) :
    ∃ x, supAllocAllZeros m
      { v with sup, denyWrite, lastMapid }
      ((m.physBase - 1) * PGSIZE) true = .ok x := by
  obtain ⟨f, w, hget, hw, hpgd, hf, hvalid, hused, hpage⟩ :=
    getFrame_unloaded denyWrite lastMapid hv hsup hmem
  have hbase : (m.physBase - 1) * PGSIZE / PGSIZE < m.physBase := by
    have hpos := m.maxPages_pos
    have hle := m.maxPages_le
    rw [PGSIZE_eq]
    omega
  have hali : ¬ (m.physBase - 1) * PGSIZE % PGSIZE ≠ 0 := by
    rw [Nat.mul_mod_left]
    exact fun h => h rfl
  unfold supAllocAllZeros
  rw [hget, ok_bind]
  dsimp only
  split_ifs
  · unfold freeFrame pallocFreePage
    rw [if_pos ⟨hf, hpage⟩, if_pos ⟨hvalid, hused⟩]
    exact ⟨_, rfl⟩
  · unfold pagedirSetPage
    rw [if_pos ⟨hbase, hf, by rw [hpgd]; exact hpte _⟩]
    exact ⟨_, rfl⟩

end

/-! ### Any file -/

/-- `load` returns for a new process, if a frame can be had for its stack, if and only if no two
segments have a page in common. -/
theorem load_returns_iff (m : Machine) (hm : m.physBase < 2 ^ 20) (v : State) (file : ℕ)
    (hnew : v.toProcess = .empty) (hlength : (v.files file).length < 2 ^ 31)
    (hmem : ∃ x, v.getFrame m true = .ok x) :
    (∃ x, load m v file = .ok x) ↔ (segments m (v.files file)).Pairwise Apart := by
  have hnone : ∀ p, v.sup p = none := fun p => by rw [hnew]; rfl
  have hv : Unloaded v.sup := fun p e hp => by cases (hnone p).symm.trans hp
  unfold load segments
  cases readEhdr (v.files file) with
  | none => simp
  | some ehdr =>
    dsimp only
    split_ifs
    · have hloop := loadHeaders_returns_iff (opened v file) file v.lastMapid hm hlength ehdr.phnum (offT ehdr.phoff)
      have hsup := loadHeaders_sup (opened v file) file v.lastMapid hm hlength hv ehdr.phnum (offT ehdr.phoff)
      have hfree : ∀ phdr ∈ accepted m (v.files file) ehdr.phnum (offT ehdr.phoff), ∀ p,
          phdr.Touches p → v.sup p = none := fun _ _ p _ => hnone p
      rw [← and_iff_left (a := List.Pairwise Apart _) hfree]
      refine Iff.trans ⟨?_, ?_⟩ hloop
      · rintro ⟨x, hx⟩
        cases hrun : loadHeaders m file v.lastMapid ehdr.phnum (offT ehdr.phoff)
            (opened v file) with
        | ok y => exact ⟨y, rfl⟩
        | error e =>
          rw [hrun] at hx
          cases hx
      · rintro ⟨⟨ok, w⟩, hrun⟩
        obtain ⟨sup, rfl, hune⟩ := hsup.of_eq_ok hrun
        rw [hrun]
        cases ok with
        | false => exact ⟨_, rfl⟩
        | true =>
          exact supAllocAllZeros_returns (v := v) hv hune (fun p => by rw [hnew]; rfl) hmem
    · simp

/-- An executable with the program headers `phdrs`, each of type, offset, address, size in the file and
size in memory. -/
def executable (phdrs : List (ℕ × ℕ × ℕ × ℕ × ℕ)) : List UInt8 :=
  [0x7f, 0x45, 0x4c, 0x46, 1, 1, 1, 0, 0, 0, 0, 0, 0, 0, 0, 0, 2, 0, 3, 0, 1, 0, 0, 0, 0, 0, 0, 0,
    52, 0, 0, 0, 0, 0, 0, 0, 0, 0, 0, 0, 0, 0, 32, 0, UInt8.ofNat phdrs.length, 0, 0, 0, 0, 0, 0, 0] ++
  phdrs.flatMap fun (type, offset, vaddr, filesz, memsz) =>
    [type, offset, vaddr, 0, filesz, memsz, 2, 0].flatMap fun n => slice (byte n) 0 4

/-- A new process and an executable with one segment. -/
theorem load_returns_iff_one :
    (∃ x, load smallMachine { smallProcess with
        toProcess := .empty, files := fun _ => executable [(1, 0, 4096, 84, 5000)] } 0 = .ok x) ↔
      (segments smallMachine (executable [(1, 0, 4096, 84, 5000)])).Pairwise Apart :=
  load_returns_iff smallMachine (by decide) { smallProcess with
    toProcess := .empty, files := fun _ => executable [(1, 0, 4096, 84, 5000)] } 0 rfl
    (by decide +kernel) (by
      obtain ⟨x, hx, -⟩ := eq_ok_of_map (g := fun _ => ()) (b := ())
        (x := getFrame smallMachine { smallProcess with
          toProcess := .empty, files := fun _ => executable [(1, 0, 4096, 84, 5000)] } true)
        (by decide +kernel)
      exact ⟨x, hx⟩)

/-- Two segments that have a page in common. -/
theorem adjacent_segments_panic :
    load smallMachine { smallProcess with
        toProcess := .empty
        files := fun _ => executable [(1, 0, 4096, 50, 50), (1, 50, 4146, 50, 50)] } 0 =
      .error .assertion :=
  eq_error_of_stop (by decide +kernel)

/-! ### Program headers that have been read -/

/-- The `n` program headers from `fileOfs` on. -/
def readPhdrs (bytes : List UInt8) : ℕ → ℤ → List (Option Phdr)
  | 0, _ => []
  | n + 1, fileOfs =>
    (if fileOfs < 0 ∨ (bytes.length : ℤ) < fileOfs then none else readPhdr bytes fileOfs.toNat) ::
      readPhdrs bytes n (fileOfs + 32)

theorem loadHeaders_eq_loadPhdrs (v : State) (file n : ℕ) (fileOfs mapid : ℤ) :
    loadHeaders m file mapid n fileOfs v =
      loadPhdrs m file mapid (readPhdrs (v.files file) n fileOfs) v := by
  induction n generalizing fileOfs v with
  | zero => rfl
  | succ n ih =>
    rw [loadHeaders, readPhdrs]
    split_ifs with hofs
    · rfl
    rw [fileSeek, if_pos (by omega)]
    show (match readPhdr (v.files file) fileOfs.toNat with | none => _ | some phdr => _) = _
    cases readPhdr (v.files file) fileOfs.toNat with
    | none => rfl
    | some phdr =>
      rw [loadPhdrs]
      dsimp only
      cases phdr.type with
      | dynamic | interp | shlib => rfl
      | null | note | phdr | stack | other => exact ih v _
      | load =>
        dsimp only
        split_ifs with hvalid
        · cases hrun : loadPhdr v file mapid phdr with
          | error e => rfl
          | ok w =>
            obtain ⟨P, hmap, -⟩ := (loadPhdr_maps mapid hvalid).of_eq_ok hrun
            obtain ⟨sup, rfl⟩ := hmap.rest
            exact ih { v with sup } _
        · rfl

/-- `State.load`, which is given the program headers, is `load` of a file that has them. -/
theorem load_eq_state (v : State) (file : ℕ) (hehdr : readEhdr (v.files file) = some ehdr)
    (hverify : ehdr.verify = true) :
    load m v file = State.load m { v with denyWrite := update v.denyWrite file true } file
      (readPhdrs (v.files file) ehdr.phnum (offT ehdr.phoff)) := by
  simp only [load, hehdr, hverify, if_true, loadHeaders_eq_loadPhdrs]
  rfl

end Pintos.Vm.Loader
