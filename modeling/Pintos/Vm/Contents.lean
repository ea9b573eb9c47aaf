import Pintos.Vm.Unmapping

/-! # The initial contents of a mapping

What a process reads from a page before it has written to it.

* **First reads.**  A page that is not loaded has the bytes that its supplemental entry describes, and
  a process reads them whenever it gets to it, whatever it has done to other bytes before
  (`Inv.readsAs`).
* **Files.**  The entry of the last page of a file has `file_size % PGSIZE` for its end, so that the
  page reads as zeros if the file fills it (`mapping_reads_file_iff`).  Nothing keeps a mapping from
  running into the addresses of the kernel. -/

namespace Pintos.Vm
open Bytes Outcome List

namespace State

variable {m : Machine} {v w v' : State} {p a : ℕ} {e : SupEntry} {b : UInt8}

/-! ### First reads -/

/-- As long as the byte at `a` is not written and nothing is unmapped, a read returns `b`. -/
def ReadsAs (m : Machine) (v : State) (a : ℕ) (b : UInt8) : Prop :=
  ∀ ops, (∀ id, .munmap id ∉ ops) → (∀ esp b', .write esp a b' ∉ ops) →
    ∀ v', exec m ops v = .ok (true, v') →
    ∀ esp, Meets (SwapTooSmall m) (fun y => y.1 = some b) (v'.userRead m esp a)

/-- The byte at `a` is `b`, in a page with an entry like `e`. -/
def HasByte (v : State) (a : ℕ) (e : SupEntry) (b : UInt8) : Prop :=
  ∃ e', v.sup (a / PGSIZE) = some e' ∧ e'.Same e ∧ v.content e' (a % PGSIZE) = b

theorem HasByte.keeps (h : HasByte v a e b) (hk : Keeps v v') : HasByte v' a e b := by
  obtain ⟨e1, hp1, ⟨_, _, _, rfl⟩, hb⟩ := h
  obtain ⟨e2, hp2, ⟨_, _, _, rfl⟩, hc⟩ := hk.mapped hp1
  exact ⟨_, hp2, ⟨_, _, _, rfl⟩, (hc _ (Nat.mod_lt _ (by decide))).trans hb⟩

theorem HasByte.writes (h : HasByte v a e b)
    (hw : Writes v v' vaddr b') (hne : vaddr ≠ a) : HasByte v' a e b := by
  obtain ⟨e1, hp1, ⟨_, _, _, rfl⟩, hb⟩ := h
  obtain ⟨e2, hp2, ⟨_, _, _, rfl⟩, hc⟩ := hw.mapped hp1
  refine ⟨_, hp2, ⟨_, _, _, rfl⟩, ?_⟩
  rw [hc _ (Nat.mod_lt _ (by decide)), if_neg, hb]
  rwa [mul_comm, Nat.div_add_mod, eq_comm]

section
variable (h : Inv m v none) (hpool : ∃ f, m.userFrame f = true) (hb : Bounded m v.files)
include h hpool hb

theorem Inv.exec_hasByte (hunm : ∀ id, .munmap id ∉ ops)
    (hwrt : ∀ esp b', .write esp a b' ∉ ops) (hv : HasByte v a e b) :
    Meets (SwapTooSmall m) (fun y => Inv m y.2 none ∧ (y.1 = true → HasByte y.2 a e b))
      (State.exec m ops v) := by
  induction ops generalizing v with
  | nil => exact ⟨h, fun _ => hv⟩
  | cons op ops ih =>
    refine (h.step hpool (fun x => numPages_le (hb x)) op
      fun id hid => hunm id (hid ▸ mem_cons_self)).bind ?_
    rintro ⟨_ | _, w⟩ ⟨hw, hfls, hefc⟩
    · exact ⟨hw, nofun⟩
    · refine ih hw (by rwa [hfls]) (fun id hid => hunm id (mem_cons_of_mem _ hid))
        (fun esp b' hmem => hwrt esp b' (mem_cons_of_mem _ hmem)) ?_
      have hop := hefc rfl
      cases op with
      | write esp vaddr b' =>
        refine hv.writes hop ?_
        rintro rfl
        exact hwrt esp b' mem_cons_self
      | _ => exact hv.keeps hop

theorem Inv.readsAs (hp : v.sup (a / PGSIZE) = some e) (hf : e.frameNo = none) (hs : e.slot = none)
    (hlt : a / PGSIZE < m.physBase) : ReadsAs m v a (initial v.files e (a % PGSIZE)) := by
  intro ops hunm hwrt v' hrun esp
  have hsta : HasByte v a e (initial v.files e (a % PGSIZE)) :=
    ⟨e, hp, ⟨_, _, _, rfl⟩, by rw [content_of_file hf hs]⟩
  obtain ⟨hinv, hend⟩ := (h.exec_hasByte hpool hb hunm hwrt hsta).of_eq_ok hrun
  have hbyte := hend rfl
  refine (hinv.userRead hpool esp a).mono ?_
  rintro ⟨_ | b, w⟩ ⟨-, hkps, hkld, hread⟩
  · obtain ⟨e', hp', -, -⟩ := hbyte
    exact absurd ⟨hlt, e', hp', nofun⟩ (hkld rfl)
  · obtain ⟨e1, hp1, hb1⟩ := hread b rfl
    obtain ⟨e2, hp2, -, hb2⟩ := hbyte.keeps hkps
    cases Option.mem_unique hp2 hp1
    exact congrArg some (hb1.trans hb2)

end

/-! ### Files -/

/-- The pages that a file takes. -/
def filePages (size : ℕ) : ℕ := (size + PGSIZE - 1) / PGSIZE

theorem numPages_eq (size : ℕ) : numPages size = filePages size := by
  unfold numPages filePages
  rw [PGSIZE_eq]
  split_ifs <;> omega

theorem filePages_bounds (size : ℕ) :
    size ≤ PGSIZE * filePages size ∧ PGSIZE * filePages size < size + PGSIZE := by
  unfold filePages
  rw [PGSIZE_eq]
  omega

/-- The mapping of a file is what it should be: its pages are new, one for each page of the file, all
of them are pages of the process, and they read as the file, with zeros behind it. -/
structure MapsFile (m : Machine) (v : State) (vaddr file : ℕ) (w : State) : Prop where
  pages : ∀ p, v.sup p = none ∧ (w.sup p).isSome = true ↔
    vaddr / PGSIZE ≤ p ∧ p < vaddr / PGSIZE + filePages (v.files file).length
  user : ∀ p, v.sup p = none → (w.sup p).isSome = true → p < m.physBase
  bytes : ∀ k < filePages (v.files file).length * PGSIZE,
    ReadsAs m w (vaddr + k) (region (v.files file) k)

/-- The mapping is in the addresses of the process, and a last page that the file fills has only
zeros. -/
def MapsWell (m : Machine) (vaddr : ℕ) (bytes : List UInt8) : Prop :=
  (∀ i < filePages bytes.length, vaddr / PGSIZE + i < m.physBase) ∧
    (PGSIZE ∣ bytes.length → ∀ j < PGSIZE, region bytes (bytes.length - PGSIZE + j) = 0)

/-- The byte of a page that its entry describes is that of the file, but for a last page that the
file fills. -/
theorem initial_fileEntry {files : ℕ → List UInt8} (writable : Bool) (id : ℤ)
    (hsize : (files file).length = size) (hi : i < filePages size) (hj : j < PGSIZE) :
    initial files (fileEntry file size writable id i) j =
      if PGSIZE ∣ size ∧ i = filePages size - 1 then 0 else region (files file) (PGSIZE * i + j) := by
  have henr : initial files (fileEntry file size writable id i) j =
      if j < (if i = filePages size - 1 then size % PGSIZE else PGSIZE) then
        region (files file) (PGSIZE * i + j) else 0 := by
    simp [initial, fileEntry, numPages_eq]
  rw [henr]
  obtain ⟨hle, hlt⟩ := filePages_bounds size
  by_cases hlast : i = filePages size - 1
  · by_cases hdvd : PGSIZE ∣ size
    · rw [if_pos hlast, Nat.mod_eq_zero_of_dvd hdvd, if_neg (Nat.not_lt_zero j),
        if_pos ⟨hdvd, hlast⟩]
    · have hno : ¬ (PGSIZE ∣ size ∧ i = filePages size - 1) := fun h => hdvd h.1
      split_ifs with hend
      · rfl
      · refine (region_of_length_le ?_).symm
        rw [PGSIZE_eq] at *
        omega
  · have hno : ¬ (PGSIZE ∣ size ∧ i = filePages size - 1) := fun h => hlast h.2
    rw [if_neg hlast, if_pos hj, if_neg hno]

theorem ReadsAs.unique (hswap : m.pages ≤ m.numSlots) (h : ReadsAs m v a b)
    (h' : ReadsAs m v a b') : b = b' := by
  have hread := h [] (fun _ => not_mem_nil) (fun _ _ => not_mem_nil) v rfl 0
  have hread' := h' [] (fun _ => not_mem_nil) (fun _ _ => not_mem_nil) v rfl 0
  cases hr : v.userRead m 0 a with
  | ok y =>
    rw [hr] at hread hread'
    exact Option.mem_unique hread hread'
  | error stop =>
    rw [hr] at hread
    exact absurd hread.2 (not_lt.mpr hswap)

theorem of_supAllocFile {vaddr file : ℕ} {writable : Bool} {id : ℤ}
    (h : v.supAllocFile m vaddr file writable = .ok (id, w)) (hid : id ≠ MAP_FAILED) :
    vaddr % PGSIZE = 0 ∧ ∀ i < numPages (v.files file).length, v.sup (pageAbove m vaddr i) = none := by
  rw [supAllocFile] at h
  split_ifs at h with halg hany
  · cases h
    exact absurd rfl hid
  · cases h
    exact absurd rfl hid
  · refine ⟨by omega, fun i hi => ?_⟩
    rw [Bool.not_eq_true, any_eq_false] at hany
    simpa using hany i (mem_range.mpr hi)

variable {vaddr file : ℕ} {writable : Bool}

theorem pageAbove_of_lt (h : vaddr / PGSIZE + i < m.physBase) :
    pageAbove m vaddr i = vaddr / PGSIZE + i :=
  Nat.mod_eq_of_lt (h.trans_le m.physBase_le)

section
variable {n : ℕ} (h : FileMapped m vaddr file writable n v w)
  (hn : n = filePages (v.files file).length) (hw : Inv m w none)
  (hpool : ∃ f, m.userFrame f = true) (hb : Bounded m w.files) (halg : vaddr % PGSIZE = 0)
include h hn hw hpool hb halg

/-- How the bytes of a mapping read. -/
theorem FileMapped.readsAs (huser : ∀ i < n, vaddr / PGSIZE + i < m.physBase) (hk : k < n * PGSIZE) :
    ReadsAs m w (vaddr + k) (if PGSIZE ∣ (v.files file).length ∧ k / PGSIZE = n - 1 then 0
      else region (v.files file) k) := by
  obtain ⟨hpage, hofs⟩ : (vaddr + k) / PGSIZE = vaddr / PGSIZE + k / PGSIZE ∧
      (vaddr + k) % PGSIZE = k % PGSIZE := by
    rw [PGSIZE_eq] at *
    omega
  have hi := Nat.div_lt_of_lt_mul (by rwa [mul_comm] at hk)
  have hfls := h.keeps.files
  have hsup : w.sup ((vaddr + k) / PGSIZE) =
      some (fileEntry file (v.files file).length writable v.lastMapid (k / PGSIZE)) := by
    rw [hpage, ← pageAbove_of_lt (huser _ hi)]
    exact h.pages _ hi
  have hread := hw.readsAs hpool hb hsup rfl rfl (by rw [hpage]; exact huser _ hi)
  rw [hofs, hfls, initial_fileEntry writable v.lastMapid rfl (by rwa [← hn])
    (Nat.mod_lt _ (by decide)), ← hn, Nat.div_add_mod] at hread
  exact hread

theorem FileMapped.mapsFile (hfree : ∀ i < n, v.sup (pageAbove m vaddr i) = none)
    (hwell : MapsWell m vaddr (v.files file)) : MapsFile m v vaddr file w := by
  have huser : ∀ i < n, vaddr / PGSIZE + i < m.physBase := by
    rw [hn]
    exact hwell.1
  have hpgs : ∀ p, v.sup p = none ∧ (w.sup p).isSome = true ↔
      vaddr / PGSIZE ≤ p ∧ p < vaddr / PGSIZE + filePages (v.files file).length := by
    intro p
    constructor
    · rintro ⟨hnone, hsome⟩
      obtain ⟨e, he⟩ := Option.isSome_iff_exists.mp hsome
      obtain ⟨i, hi, rfl, -⟩ := h.new hnone he
      rw [pageAbove_of_lt (huser i hi)]
      omega
    · rintro ⟨hle, hlt⟩
      have hi : p - vaddr / PGSIZE < n := by omega
      have hp : pageAbove m vaddr (p - vaddr / PGSIZE) = p := by
        rw [pageAbove_of_lt (huser _ hi)]
        omega
      rw [← hp, h.pages _ hi]
      exact ⟨hfree _ hi, rfl⟩
  refine ⟨hpgs, fun p hnone hsome => ?_, fun k hk => ?_⟩
  · have hp := (hpgs p).mp ⟨hnone, hsome⟩
    have := huser (p - vaddr / PGSIZE) (by omega)
    omega
  · have hread := h.readsAs hn hw hpool hb halg huser (by rwa [hn])
    split_ifs at hread with hlast
    · have hzero : region (v.files file) k = 0 := by
        have hbnd := filePages_bounds (v.files file).length
        have hz := hwell.2 hlast.1 (k % PGSIZE) (Nat.mod_lt _ (by decide))
        rw [← hz]
        congr 1
        rw [PGSIZE_eq] at *
        omega
      rwa [hzero]
    · exact hread

theorem MapsFile.mapsWell (hmap : MapsFile m v vaddr file w) (hswap : m.pages ≤ m.numSlots) :
    MapsWell m vaddr (v.files file) := by
  have huser : ∀ i < filePages (v.files file).length, vaddr / PGSIZE + i < m.physBase := by
    intro i hi
    obtain ⟨hnone, hsome⟩ := (hmap.pages (vaddr / PGSIZE + i)).mpr ⟨by omega, by omega⟩
    exact hmap.user _ hnone hsome
  refine ⟨huser, fun hdvd j hj => ?_⟩
  have hbnd := filePages_bounds (v.files file).length
  by_cases hemp : (v.files file).length = 0
  · exact region_of_length_le (by omega)
  · obtain ⟨q, hq⟩ := hdvd
    have hk : (v.files file).length - PGSIZE + j < filePages (v.files file).length * PGSIZE := by
      rw [PGSIZE_eq] at *
      omega
    have hlast : ((v.files file).length - PGSIZE + j) / PGSIZE = n - 1 := by
      rw [PGSIZE_eq] at *
      omega
    have hread := h.readsAs hn hw hpool hb halg (by rwa [hn]) (by rwa [hn])
    rw [if_pos ⟨⟨q, hq⟩, hlast⟩] at hread
    exact (hmap.bytes _ hk).unique hswap hread

end

end State

open State in
/-- **Initial contents of a mapping.**  In every run of a process, a file that `sup_alloc_file` maps
reads as it should exactly if the mapping does not reach the kernel and the last page, if the file
fills it, has only zeros.  (That it is not otherwise takes enough swap for the process to read its
pages.) -/
theorem mapping_reads_file_iff (m : Machine) (hpool : ∃ f, m.userFrame f = true) (v₀ : State)
    (h₀ : Image m v₀) (hfiles : Bounded m v₀.files) (ops : List Op) (v : State)
    (hrun : exec m ops v₀ = .ok (true, v)) (vaddr file : ℕ) (writable : Bool) (id : ℤ) (w : State)
    (hmap : v.supAllocFile m vaddr file writable = .ok (id, w)) (hid : id ≠ MAP_FAILED) :
    (MapsWell m vaddr (v.files file) → MapsFile m v vaddr file w) ∧
      (m.pages ≤ m.numSlots → MapsFile m v vaddr file w → MapsWell m vaddr (v.files file)) := by
  obtain ⟨hv, hb⟩ := (h₀.inv.exec_bounded hpool hfiles ops).of_eq_ok hrun
  have hsize : numPages (v.files file).length ≤ m.pages := numPages_le (hb file)
  have hn : numPages (v.files file).length = filePages (v.files file).length := numPages_eq _
  obtain ⟨halg, hfree⟩ := of_supAllocFile hmap hid
  rcases (supAllocFile_meets hsize writable (E := fun _ => True)).of_eq_ok hmap with
    hfail | ⟨-, hmpd⟩
  · exact absurd (congrArg Prod.fst hfail) hid
  have hw := hmpd.inv hsize hv
  have hb' : Bounded m w.files := by rwa [show w.files = v.files from hmpd.keeps.files]
  exact ⟨fun hwell => hmpd.mapsFile hn hw hpool hb' halg hfree hwell,
    fun hswap hmaps => hmaps.mapsWell hmpd hn hw hpool hb' halg hswap⟩

open State in
/-- A file of nine bytes is mapped at the page 4. -/
theorem mapping_reads_file_iff_nine_bytes :
    ∃ w, smallProcess.supAllocFile smallMachine 16384 0 true = .ok (1, w) ∧
      MapsFile smallMachine smallProcess 16384 0 w := by
  have hrun : (smallProcess.supAllocFile smallMachine 16384 0 true).toOption.map Prod.fst =
      some 1 := by decide +kernel
  obtain ⟨⟨id, w⟩, hmap, hid⟩ := eq_ok_of_map hrun
  obtain rfl : id = 1 := hid
  refine ⟨w, hmap, (mapping_reads_file_iff smallMachine ⟨260, by decide +kernel⟩ smallProcess
    image_smallProcess bounded_smallProcess [] smallProcess rfl 16384 0 true 1 w hmap
    (by decide)).1 ⟨?_, fun hdvd => absurd hdvd (by decide)⟩⟩
  decide

/-- A process without pages, and a file that fills a page. -/
def fullPage : State :=
  { smallProcess with
    sup := fun _ => none
    files := fun _ => List.replicate PGSIZE 1 }

open State in
/-- The page of a file that fills it reads as zeros. -/
theorem full_page_reads_zero :
    ∃ w, fullPage.supAllocFile smallMachine 4096 0 true = .ok (1, w) ∧
      (w.userRead smallMachine 0 4096).toOption.map Prod.fst = some (some 0) ∧
      region (fullPage.files 0) 0 = 1 ∧ ¬ MapsFile smallMachine fullPage 4096 0 w := by
  have hrun : (fullPage.supAllocFile smallMachine 4096 0 true).toOption.map (fun x =>
      (x.1, (x.2.userRead smallMachine 0 4096).toOption.map Prod.fst)) = some (1, some (some 0)) := by
    decide +kernel
  obtain ⟨⟨id, w⟩, hmap, hend⟩ := eq_ok_of_map hrun
  obtain ⟨rfl, hread⟩ := Prod.mk.inj hend
  refine ⟨w, hmap, hread, by decide +kernel, fun hmaps => ?_⟩
  have hbyte := hmaps.bytes 0 (by decide +kernel) [] (fun _ => not_mem_nil)
    (fun _ _ => not_mem_nil) w rfl 0
  obtain ⟨y, hy, hzero⟩ := eq_ok_of_map hread
  have hone := hbyte.of_eq_ok hy
  rw [hzero] at hone
  exact absurd hone (by decide +kernel)

end Pintos.Vm
