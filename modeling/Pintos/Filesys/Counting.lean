import Mathlib.Data.Finset.Card
import Pintos.Filesys.Sessions

/-! # The number of files in a directory

An open inode counts the files that its directory has (`file_count`).  `filesys_create` and
`filesys_remove` change the counter; `inode_open` starts it at zero.  So it is right as long as no
directory is opened, for the first time or again, while there are files in it.

* **Slots.**  `visibleSlots`: the slots in use for names other than `.` and `..`.
* **Counted.**  What every outcome of a call does to the counters.
* **Held.**  Every directory with files in it that can be reached is open. -/

namespace Pintos
open Bytes Walks Runs Function Option FileSys Finset

/-! ### Entries -/

/-- The slots in use for names other than `.` and `..`. -/
def visibleSlots (xs : List UInt8) : Finset ℕ :=
  (Finset.range (slots xs)).filter fun k => DirFile.visible (entryAt xs k) = true

/-- The number of files in a directory. -/
def entryCount (xs : List UInt8) : ℕ := (visibleSlots xs).card

section
variable {xs ys : List UInt8} {k sector : ℕ} {name : CString}

theorem mem_visibleSlots : k ∈ visibleSlots xs ↔ k < slots xs ∧ (entryAt xs k).inUse = true ∧
    (entryAt xs k).name ≠ parentLink ∧ (entryAt xs k).name ≠ childLink := by
  simp [visibleSlots, DirFile.visible]

theorem DirFile.SameInUse.visibleSlots_eq (h : DirFile.SameInUse xs ys) :
    visibleSlots ys = visibleSlots xs := by
  ext k
  rw [mem_visibleSlots, mem_visibleSlots, h.1]
  constructor
  · rintro ⟨hk, hu, hname⟩
    have he := h.2 k hk (.inl hu)
    rw [he] at hu hname
    exact ⟨hk, hu, hname⟩
  · rintro ⟨hk, hu, hname⟩
    rw [h.2 k hk (.inr hu)]
    exact ⟨hk, hu, hname⟩

theorem freeSlot_notMem_visibleSlots : freeSlot xs ∉ visibleSlots xs := fun h => by
  obtain ⟨hk, hu, -⟩ := mem_visibleSlots.mp h
  exact ne_freeSlot hk hu rfl

section
variable (hs : sector < 2 ^ 32) (hn : ValidName name) (hp : name ≠ parentLink)
  (hc : name ≠ childLink)
include hs hn hp hc

theorem visibleSlots_addEntry :
    visibleSlots (addEntry xs name sector) = insert (freeSlot xs) (visibleSlots xs) := by
  have hle := freeSlot_le xs
  ext k
  rw [mem_insert, mem_visibleSlots, mem_visibleSlots, slots_addEntry, entryAt_addEntry hs hn]
  by_cases hk : k = freeSlot xs
  · simp only [hk, if_true, hp, hc, ne_eq, not_false_eq_true, and_true, true_or, iff_true]
    omega
  · simp only [hk, false_or]
    constructor
    · rintro ⟨hlt, h⟩
      exact ⟨by omega, h⟩
    · rintro ⟨hlt, h⟩
      exact ⟨by omega, h⟩

theorem entryCount_addEntry : entryCount (addEntry xs name sector) = entryCount xs + 1 := by
  rw [entryCount, visibleSlots_addEntry hs hn hp hc,
    card_insert_of_notMem freeSlot_notMem_visibleSlots, entryCount]

end

theorem visibleSlots_clearEntry (hk : k < slots xs) :
    visibleSlots (clearEntry xs k) = (visibleSlots xs).erase k := by
  ext j
  rw [mem_erase, mem_visibleSlots, mem_visibleSlots, slots_clearEntry hk]
  constructor
  · rintro ⟨hj, hu, hname⟩
    obtain ⟨hjk, he⟩ := inUse_clearEntry hu
    rw [he] at hu hname
    exact ⟨hjk, hj, hu, hname⟩
  · rintro ⟨hjk, hj, h⟩
    refine ⟨hj, ?_⟩
    rw [show entryAt (clearEntry xs k) j = entryAt xs j from entryAt_write_of_ne hjk]
    exact h

theorem mem_visibleSlots_of_slotOf (hslot : slotOf xs name = some k) (hp : name ≠ parentLink)
    (hc : name ≠ childLink) : k ∈ visibleSlots xs := by
  obtain ⟨hk, ⟨hu, rfl⟩, -⟩ := slotOf_eq_some.mp hslot
  exact mem_visibleSlots.mpr ⟨hk, hu, hp, hc⟩

theorem entryCount_pos (h : k ∈ visibleSlots xs) : 1 ≤ entryCount xs := card_pos.mpr ⟨k, h⟩

theorem entryCount_clearEntry (hk : k ∈ visibleSlots xs) :
    (entryCount (clearEntry xs k) : ℤ) = entryCount xs - 1 := by
  have hpos := entryCount_pos hk
  rw [entryCount, visibleSlots_clearEntry (mem_visibleSlots.mp hk).1, card_erase_of_mem hk]
  unfold entryCount at *
  omega

theorem visibleSlots_clearName (hname : name = parentLink ∨ name = childLink) :
    visibleSlots (clearName xs name) = visibleSlots xs := by
  unfold clearName
  split
  · rfl
  · rename_i k hk
    obtain ⟨hlt, ⟨-, hm⟩, -⟩ := slotOf_eq_some.mp hk
    rw [visibleSlots_clearEntry hlt]
    refine erase_eq_of_notMem fun hmem => ?_
    obtain ⟨-, -, hp, hc⟩ := mem_visibleSlots.mp hmem
    rw [hm] at hp hc
    exact hname.elim hp hc

theorem entryCount_clearLinks : entryCount (clearLinks xs) = entryCount xs := by
  unfold entryCount clearLinks
  rw [visibleSlots_clearName (.inl rfl), visibleSlots_clearName (.inr rfl)]

theorem entryCount_linkBytes (hs : sector < 2 ^ 32)
    (hp : parentSector < 2 ^ 32) : entryCount (linkBytes length sector parentSector) = 0 := by
  unfold entryCount linkBytes
  rw [card_eq_zero, eq_empty_iff_forall_notMem]
  intro k hk
  obtain ⟨hk, hu, hprn, hchl⟩ := mem_visibleSlots.mp hk
  rcases entryAt_addEntry_cases hs validName_childLink hk with he | ⟨hk', he⟩
  · rw [he] at hchl
    exact hchl rfl
  · rw [he] at hu hprn
    rcases entryAt_addEntry_cases hp validName_parentLink hk' with he' | ⟨-, he'⟩
    · rw [he'] at hprn
      exact hprn rfl
    · simp [he', inUse_entryAt_replicate] at hu

end

/-! ### Counters -/

/-- The number of files in a file that is a directory. -/
def FileImage.count (f : FileImage) : ℤ := if f.isDirectory then entryCount f.bytes else 0

theorem FileImage.count_nonneg (f : FileImage) : 0 ≤ f.count := by
  unfold FileImage.count
  split_ifs
  · exact Int.natCast_nonneg _
  · exact le_refl 0

namespace FileSys

/-- Every open inode counts its files. -/
def Counted (fs : FileSys) (σ : Store) : Prop :=
  ∀ p i f, fs.heap p = some i → σ i.sector = some f → i.fileCount = f.count

/-- Every directory with files in it is open. -/
def HeldOpen (fs : FileSys) (σ : Store) : Prop :=
  ∀ s f, σ s = some f → fs.findOpen s = none → f.count = 0

variable {fs fs' : FileSys} {σ σ' : Store} {M : List ℕ} {P P' : ℕ → Place} {p c k : ℕ}
  {i j : Inode} {f g : FileImage} {name : CString}

theorem Shifted.heldOpen (h : Shifted fs fs') (ht : fs'.Tidy) (hh : fs.HeldOpen σ) :
    fs'.HeldOpen σ := fun s f hf hclo => by
  refine hh s f hf ?_
  by_contra hopen
  have hsome := h.findOpen ht (isSome_iff_ne_none.mpr hopen)
  rw [hclo] at hsome
  cases hsome

theorem Shifted.counted (h : Shifted fs fs') (ht : fs'.Tidy) (hc : fs.Counted σ)
    (hh : fs.HeldOpen σ) : fs'.Counted σ := by
  intro p i f hp hf
  cases hp' : fs.heap p with
  | some j =>
    obtain ⟨n, lock, -, hp''⟩ := h.kept p j hp'
    cases mem_unique hp hp''
    exact hc p j f hp' hf
  | none =>
    rw [(h.new p i hp hp').2.1]
    refine (hh i.sector f hf ?_).symm
    by_contra hopen
    -- an inode for the same sector that was open before still is
    obtain ⟨q, hq⟩ := ne_none_iff_exists'.mp hopen
    obtain ⟨-, j, hj, hs⟩ := findOpen_eq_some hq
    obtain ⟨n, lock, -, hj'⟩ := h.kept q j hj
    cases ht.distinct q p _ i hj' hp hs
    simp [hj] at hp'

theorem Counted.update (hc : fs.Counted σ) (ht : fs.Tidy)
    (hk : ∀ q i, fs.heap q = some i → (σ i.sector).isSome) (hp : fs.heap p = some i)
    (hheap : fs'.heap = update fs.heap p (some j)) (hs : j.sector = i.sector)
    (hσ : ∀ s, s ≠ i.sector → (σ s).isSome → σ' s = σ s)
    (hcou : ∀ f, σ' i.sector = some f → j.fileCount = f.count) : fs'.Counted σ' := by
  intro q i' f hq hf
  rw [hheap, update_apply] at hq
  split_ifs at hq with hqp
  · cases hq
    exact hcou f (hs ▸ hf)
  · have hne : i'.sector ≠ i.sector := fun he => hqp (ht.distinct q p i' i hq hp he)
    exact hc q i' f hq (by rw [← hσ _ hne (hk q i' hq)]; exact hf)

/-- `filesys_create` counts the file that it creates. -/
theorem Creates.counted (h : Creates fs σ p i f name size isDirectory ok fs' σ')
    (hb : fs.Backed M σ P) (ht : fs'.Tidy) (hp : fs.heap p = some i) (hf : σ i.sector = some f)
    (hd : f.isDirectory = true) (hprn : name ≠ parentLink) (hchl : name ≠ childLink)
    (hh : fs.HeldOpen σ) (hc : fs.Counted σ) : fs'.Counted σ' := by
  have hi := hc p i f hp hf
  cases h with
  | found hname hgrw => exact hgrw.shifted.counted ht hc hh
  | @failed _ data bytes hsame hheap =>
    refine hc.update hb.tidy hb.known hp hheap rfl
      (fun s hs _ => update_of_ne hs ..) fun g hg => ?_
    rw [update_self] at hg
    cases hg
    rw [hi]
    simp [FileImage.count, entryCount, hsame.visibleSlots_eq]
  | @created _ data a hvalid hnew hfrs halt hheap =>
    have hne : i.sector ≠ a := fun he => by
      simp [he, hfrs] at hf
    refine hc.update hb.tidy hb.known hp hheap rfl (fun s hs hsome => ?_) fun g hg => ?_
    · have hsa : s ≠ a := fun he => by
        simp [he, hfrs] at hsome
      simp [Store.addFile, hsa, hs]
    · simp only [Store.addFile, hne, hf] at hg
      cases hg
      rw [hi]
      simp only [FileImage.count, hd, entryCount_addEntry halt hvalid hprn hchl]
      rfl

/-- `filesys_remove` no longer counts the file that it removes. -/
theorem Removes.counted (h : Removes fs σ p c i j f g k ok fs' σ')
    (hb : fs.Backed M σ P) (hp : fs.heap p = some i) (hj : fs.heap c = some j) (hne : p ≠ c)
    (hf : σ i.sector = some f) (hd : f.isDirectory = true) (hg : σ j.sector = some g)
    (hslot : slotOf f.bytes name = some k) (hprn : name ≠ parentLink)
    (hchl : name ≠ childLink) (hc : fs.Counted σ) : fs'.Counted σ' := by
  have hi := hc p i f hp hf
  have hsct : i.sector ≠ j.sector := fun he => hne (hb.tidy.distinct p c i j hp hj he)
  cases h with
  | full => exact hc
  | @removed v hemp hfull =>
    rw [unlink_eq hsct hf hg]
    intro q i' f' hq hf'
    simp only [pair, update_apply] at hq
    split_ifs at hq with hqp hqc
    · cases hq
      rw [update_of_ne hsct, update_self] at hf'
      cases hf'
      rw [hi]
      simp [FileImage.count, hd, entryCount_clearEntry
        (mem_visibleSlots_of_slotOf hslot hprn hchl)]
    · cases hq
      rw [update_self] at hf'
      cases hf'
      rw [hc c j g hj hg]
      simp [FileImage.count, entryCount_clearLinks]
    · have hne1 : i'.sector ≠ i.sector := fun he => hqp (hb.tidy.distinct q p i' i hq hp he)
      have hne2 : i'.sector ≠ j.sector := fun he => hqc (hb.tidy.distinct q c i' j hq hj he)
      rw [update_of_ne hne2, update_of_ne hne1] at hf'
      exact hc q i' f' hq hf'

end FileSys

namespace Session

variable {s s' : Session} {M : List ℕ} {σ σ' : Store} {P P' : ℕ → Place} {a : SessionCall}
  {fs fs' : FileSys}

/-- A file is created or removed under a name other than `.` and `..`. -/
def NamesFile (a : SessionCall) : Prop := ∀ parentName name,
  FileSys.splitPathParentName a.path = some (parentName, name) →
    name ≠ parentLink ∧ name ≠ childLink

/-- Every call keeps the counters right, if it opens no directory with files in it. -/
theorem Outcome.counted (h : Outcome M P fs σ a fs' σ') (hb : fs.Backed M σ P)
    (hb' : fs'.Backed M σ' P') (hname : NamesFile a) (hh : fs.HeldOpen σ) (hc : fs.Counted σ) :
    fs'.Counted σ' := by
  cases h with
  | shifted hshf => exact hshf.counted hb'.tidy hc hh
  | created hspl hshf hb1 hp hf hd hcre =>
    exact hcre.counted hb1 hb'.tidy hp hf hd (hname _ _ hspl).1 (hname _ _ hspl).2
      (hshf.heldOpen hb1.tidy hh) (hshf.counted hb1.tidy hc hh)
  | removed hspl hshf hb1 hp hj hne hf hd hg hslot hrev =>
    exact hrev.counted hb1 hp hj hne hf hd hg hslot (hname _ _ hspl).1
      (hname _ _ hspl).2 (hshf.counted hb1.tidy hc hh)
  | closed hp hheap =>
    intro q j f hq hf
    rw [hheap, update_apply] at hq
    split_ifs at hq
    · have hi := hc _ _ f hp
      cases hq
      exact hi hf
    · exact hc q j f hq hf
  | written hp hf hd hheap =>
    refine hc.update hb.tidy hb.known hp hheap rfl (fun s hs _ => update_of_ne hs ..)
      fun g hg => ?_
    rw [update_self] at hg
    cases hg
    have hi := hc _ _ _ hp hf
    simp only [FileImage.count, hd] at hi ⊢
    exact hi
  | mounted hheap =>
    intro q j f hq
    simp [hheap] at hq

/-! ### What can be reached -/

/-- Every directory with files in it that calls can come to is open. -/
def Held (s : Session) : Prop := ∀ d f, s.Linked d → s.fs.contents d = some f →
  s.fs.findOpen d = none → f.count = 0

open Classical in
/-- The files in `S`. -/
noncomputable def only (σ : Store) (S : ℕ → Prop) : Store := fun s => if S s then σ s else none

theorem only_eq_some {S : ℕ → Prop} : only σ S d = some f ↔ S d ∧ σ d = some f := by
  unfold only
  split_ifs with hd
  · simp [hd]
  · simp [hd]

/-- The files that calls can come to are a well linked store. -/
theorem Settled.only_linked (h : s.Settled M σ P) : s.Settled M (only σ s.Linked) P := by
  have hsome : ∀ d, s.Linked d → (only σ s.Linked d).isSome := fun d hd => by
    obtain ⟨f, hf⟩ := isSome_iff_exists.mp (h.isSome_of_linked hd)
    rw [only_eq_some.mpr ⟨hd, hf⟩]
    rfl
  have hdir : ∀ d, s.Linked d → (treeOf σ).IsDirectory d →
      (treeOf (only σ s.Linked)).IsDirectory d := fun d hl hd => by
    obtain ⟨f, hf, hfd⟩ := isDirectory_treeOf.mp hd
    exact isDirectory_treeOf.mpr ⟨f, only_eq_some.mpr ⟨hl, hf⟩, hfd⟩
  refine ⟨⟨h.backed.restrict (fun d f hf => (only_eq_some.mp hf).2)
    fun p i hp => hsome _ (.opened hp), h.backed.mirrored, ?_⟩, ⟨?_, ?_, ?_⟩, h.map, h.undenied,
    fun t d ht => hdir d (.cwd ht) (h.cwds t d ht)⟩
  · by_contra hne
    obtain ⟨f, hf⟩ := ne_none_iff_exists'.mp hne
    rw [only_eq_some, h.backed.zero] at hf
    cases hf.2
  · exact isDirectory_treeOf.mp (hdir _ .root (isDirectory_treeOf.mpr h.linked.root))
  · intro d f hf hd k hk hu
    obtain ⟨hl, hf⟩ := only_eq_some.mp hf
    exact hsome _ (.entry hl (h.sub d f hf) hd hk hu)
  · exact fun d f hf hd => h.linked.small d f (only_eq_some.mp hf).2 hd

theorem Settled.heldOpen (h : s.Settled M σ P) (hh : s.Held) :
    s.fs.HeldOpen (only σ s.Linked) := fun d f hf hclo => by
  obtain ⟨hl, hf⟩ := only_eq_some.mp hf
  exact hh d f hl (h.sub d f hf) hclo

/-! ### Runs -/

/-- Every open inode counts the files of its directory. -/
def CountsFiles (s : Session) : Prop := ∀ p i f, s.fs.heap p = some i →
  s.fs.contents i.sector = some f → i.fileCount = f.count

/-- What the counters need: an orderly call, while every directory with files in it is open, that
does not create or remove links. -/
def Accounted (s : Session) (a : SessionCall) : Prop := s.Orderly a ∧ s.Held ∧ NamesFile a

theorem Settled.counted_iff (h : s.Settled M σ P) : s.CountsFiles ↔ s.fs.Counted σ := by
  constructor
  · exact fun hc p i f hp hf => hc p i f hp (h.sub _ f hf)
  · intro hc p i f hp hf
    obtain ⟨g, hg⟩ := isSome_iff_exists.mp (h.backed.known p i hp)
    obtain rfl := mem_unique (h.sub _ g hg) hf
    exact hc p i g hp hg

theorem Settled.countsFiles_step (h : s.Settled M σ P) (hok : s.Accounted a)
    (hs : s.step a = some s') (hc : s.CountsFiles) :
    s'.CountsFiles ∧ ∃ σ' P', s'.Settled M σ' P' := by
  obtain ⟨σ', P', h', ho⟩ := h.only_linked.step hok.1 hs
  exact ⟨h'.counted_iff.mpr (ho.counted h.only_linked.backed h'.backed hok.2.2 (h.heldOpen hok.2.1)
    (h.only_linked.counted_iff.mp hc)), σ', P', h'⟩

theorem countsFiles_of_reaches (hsize : d.size < 2 ^ 32) (hf : format d = some fs)
    (h : Reaches step Accounted (initial fs) s) : s.CountsFiles ∧ ∃ M σ P, s.Settled M σ P := by
  obtain ⟨M, P, data, h0, hheap⟩ := settled_format hsize hf
  refine h.invariant (P := fun s : Session => s.CountsFiles ∧ ∃ M σ P, s.Settled M σ P)
    ⟨h0.counted_iff.mpr fun p i f hp hf => ?_, M, _, P, h0⟩
    fun s c s' ⟨hc, M, σ, P, hi⟩ hok hs => by
      obtain ⟨hc', σ', P', hi'⟩ := hi.countsFiles_step hok hs hc
      exact ⟨hc', M, σ', P', hi'⟩
  obtain ⟨-, rfl⟩ := rootStore_eq_some hf
  change fs.heap p = some i at hp
  rw [hheap, update_apply] at hp
  split_ifs at hp
  cases hp
  simp [FileImage.count, entryCount_linkBytes (show ROOT_DIR_SECTOR < 2 ^ 32 by decide)
    (show ROOT_DIR_SECTOR < 2 ^ 32 by decide)]

/-- What `filesys_remove` does in a state with the right counters: its assertions hold, and it
removes a directory only if it is empty. -/
theorem Settled.remove_counted (h : s.Settled M σ P) (hok : s.Accounted (.filesysRemove tid path))
    (hcwd : s.cwds tid = some cwd) (hc : s.CountsFiles) :
    (s.fs.openForRemoval tid cwd path ≠ none → s.fs.filesysRemove tid cwd path ≠ none) ∧
    ∀ fs' d f, s.fs.filesysRemove tid cwd path = some (true, fs') →
      s.fs.tree.opened cwd path = some d → s.fs.contents d = some f → f.count = 0 := by
  have h0 := h.only_linked
  have hdir := h0.cwds tid cwd hcwd
  have hheld := h.heldOpen hok.2.1
  have hr := (h0.linked.removable_iff h0.sub hdir).mp (hok.1.2 cwd hcwd)
  -- with the parent and the child open, the counters are right
  have hete : ∀ {fs1 p c name i j}, fs1.Backed M (only σ s.Linked) P → Shifted s.fs fs1 →
      Entered fs1 (treeOf (only σ s.Linked)) tid cwd path name p c i j →
      fs1.Counted (only σ s.Linked) ∧ name ≠ parentLink ∧ name ≠ childLink := by
    intro fs1 p c name i j hb hshf he
    obtain ⟨parentName, hspl, -⟩ := he.split
    exact ⟨hshf.counted hb.tidy (h0.counted_iff.mp hc) hheld, hok.2.2 parentName name hspl⟩
  constructor
  · intro hopen
    obtain ⟨⟨r, fs1⟩, ho⟩ := ne_none_iff_exists'.mp hopen
    obtain ⟨hb, hshf, hcase⟩ := h0.backed.openForRemoval_eq_some h0.linked hdir hok.1.1 ho
    unfold filesysRemove
    rw [ho]
    rcases hcase with ⟨rfl, -⟩ | ⟨p, c, name, i, j, rfl, -, -, he⟩
    · simp
    · obtain ⟨hcou, hprn, hchl⟩ := hete hb hshf he
      obtain ⟨-, f, g, k, hf, hd, hg, hslot, -, hdo, -⟩ :=
        hb.removeChild_entered h0.linked (hshf.undenied h0.undenied) hr he
      have hi := hcou p i f he.parent hf
      have hj := hcou c j g he.child hg
      have hpos := entryCount_pos (mem_visibleSlots_of_slotOf hslot hprn hchl)
      rw [FileImage.count, if_pos hd] at hi
      obtain ⟨ok, fs', σ', P', heq, -⟩ := hdo (hj ▸ g.count_nonneg) fun _ => by omega
      simp [heq]
  · intro fs' d f hrmv hd hf
    rcases h0.backed.filesysRemove_eq_some h0.linked hdir hok.1.1 h0.undenied hr hrmv with
      ⟨hno, -⟩ | ⟨p, c, name, i, j, f', g, k, fs1, σ', P', hb, hshf, -, he, -, -, -, hg, -, -, -, -, -,
        hrev⟩
    · cases hno
    · obtain ⟨hcou, -⟩ := hete hb hshf he
      cases hrev with
      | removed hemp hfull =>
        have hj := hcou c j g he.child hg
        have htrg := (h0.linked.opened_eq h0.sub hdir path).trans he.target
        cases mem_unique hd htrg
        cases hf.symm.trans (h0.sub _ g hg)
        rw [← hj, hemp]

/-- **Emptiness accounting.**  In every run of accounted calls, the `file_count` of every open
directory is the number of its entries other than `.` and `..`; the assertions of `filesys_remove`
about it hold, and a directory that is removed is empty. -/
theorem file_count_accounted (d : Disk) (fs : FileSys) (hsize : d.size < 2 ^ 32)
    (hf : FileSys.format d = some fs) (s : Session) (h : Reaches step Accounted (initial fs) s) :
    (∀ p i, s.fs.heap p = some i → i.data.isDirectory = true →
      ∃ f, s.fs.contents i.sector = some f ∧ i.fileCount = entryCount f.bytes) ∧
    ∀ tid path cwd, s.Accounted (.filesysRemove tid path) → s.cwds tid = some cwd →
      (s.fs.openForRemoval tid cwd path ≠ none → s.fs.filesysRemove tid cwd path ≠ none) ∧
      ∀ fs' c f, s.fs.filesysRemove tid cwd path = some (true, fs') →
        s.fs.tree.opened cwd path = some c → s.fs.contents c = some f → f.isDirectory = true →
        entryCount f.bytes = 0 := by
  obtain ⟨hc, M, σ, P, hi⟩ := countsFiles_of_reaches hsize hf h
  refine ⟨fun p i hp hd => ?_, fun tid path cwd hok hcwd => ?_⟩
  · obtain ⟨f, hf, hst, hdata⟩ := hi.backed.open_inode hp
    have hcon := hi.sub _ f hf
    refine ⟨f, hcon, ?_⟩
    rw [hc p i f hp hcon, FileImage.count, if_pos]
    rw [← hst.isDirectory, hdata, hd]
  · obtain ⟨hasr, hemp⟩ := hi.remove_counted hok hcwd hc
    refine ⟨hasr, fun fs' c f hrmv hc hf hd => ?_⟩
    have hzero := hemp fs' c f hrmv hc hf
    rw [FileImage.count, if_pos hd] at hzero
    exact Int.natCast_eq_zero.mp hzero

/-- After formatting, the root directory is open and nothing else can be reached. -/
theorem held_format (hsize : d.size < 2 ^ 32) (hf : format d = some fs) : (initial fs).Held := by
  obtain ⟨M, P, data, h, hheap⟩ := settled_format hsize hf
  generalize MAX_FILES_PER_DIR * DirEntry.SIZE = length at h
  have hself : fs.heap 0 = some ⟨ROOT_DIR_SECTOR, 1, false, 0, data, 0, none⟩ := by
    rw [hheap, update_self]
  have hroot : ∀ a, (initial fs).Linked a → a = ROOT_DIR_SECTOR := by
    intro a ha
    induction ha with
    | root => rfl
    | cwd hcwd =>
      simp only [initial, update_apply] at hcwd
      split_ifs at hcwd
      exact (some.inj hcwd).symm
    | @opened p i hp =>
      change fs.heap p = some i at hp
      rw [hheap, update_apply] at hp
      split_ifs at hp
      exact some.inj hp ▸ rfl
    | @entry a k f _ hf hd hk hu ih =>
      subst ih
      cases (h.sub _ _ (update_self ..)).symm.trans hf
      exact or_self_iff.mp (inUse_linkBytes (by decide) (by decide) hk hu)
  intro a f ha _ hclo
  rw [hroot a ha] at hclo
  have hopen := h.backed.tidy.isSome_findOpen hself rfl
  simp [hclo] at hopen

/-- A file is created in the root directory, which is open since it was formatted. -/
theorem file_count_accounted_created : ∃ fs s p i f,
    FileSys.format ⟨64, fun _ _ => 0⟩ = some fs ∧ Reaches step Accounted (initial fs) s ∧
    s.fs.heap p = some i ∧ i.data.isDirectory = true ∧ i.fileCount = 1 ∧
    s.fs.contents i.sector = some f ∧ entryCount f.bytes = 1 := by
  obtain ⟨fs, fs1, M, P, a, hfrm, ha, hcrt, h, ⟨n, data, h0⟩, -⟩ :=
    exists_created 0 false nofun (Nat.zero_le _) (by decide)
  obtain ⟨M0, P0, -, hsta, -⟩ := settled_format (by decide) hfrm
  have hok : (initial fs).Accounted (.filesysCreate INITIAL_TID fileName 0) := by
    refine ⟨⟨by decide, by decide, fun cwd hcwd => hsta.parentIsDirectory hcwd (by decide)⟩,
      held_format (by decide) hfrm, fun parentName name hspl => ?_⟩
    obtain ⟨-, rfl⟩ := Prod.mk.inj (mem_unique split_fileName hspl)
    decide
  have hrch : Reaches step Accounted (initial fs) (initial fs1) :=
    .step _ .start hok (step_create hcrt)
  have hd : data.isDirectory = true := by
    obtain ⟨f, hf, hst, hdata⟩ := h.backed.open_inode h0
    obtain ⟨g, hg, hgd⟩ := h.linked.root
    obtain rfl := mem_unique hf hg
    rw [← hgd, ← hst.isDirectory, hdata]
  obtain ⟨f, hf, hcou⟩ :=
    (file_count_accounted _ fs (by decide) hfrm (initial fs1) hrch).1 0 _ h0 hd
  exact ⟨fs, _, 0, _, f, hfrm, hrch, h0, hd, rfl, hf, by
    have hone : (1 : ℤ) = entryCount f.bytes := hcou
    omega⟩

/-- After a remount, the counter of the root directory starts at zero, although there is a file. -/
theorem file_count_lost : ∃ fs s p i f, FileSys.format ⟨64, fun _ _ => 0⟩ = some fs ∧
    Reaches step (fun _ _ => True) (initial fs) s ∧ s.fs.heap p = some i ∧
    i.data.isDirectory = true ∧ i.fileCount = 0 ∧ s.fs.contents i.sector = some f ∧
    entryCount f.bytes = 1 := by
  obtain ⟨fs, fs1, M, P, a, hfrm, ha, hcrt, h, -, hr⟩ :=
    exists_created 0 false nofun (Nat.zero_le _) (by decide)
  obtain ⟨s, hrch, hs, -, hheap⟩ := h.exists_closed fun p i hp => (hr p i hp).1
  obtain ⟨fs2, hmnt, hb2, hheap2, -⟩ := hs.backed.mount hs.map fun p i hp => by
    rw [hheap] at hp
    cases hp
  -- the root directory is opened again
  obtain ⟨p, i, fs3, hopen, hb3, hgrw, hp, hsct⟩ := hb2.filesysOpen_live hs.linked
    (isDirectory_treeOf.mpr hs.linked.root) (show fs2.Rooted [] from nofun)
    (show (treeOf _).opened ROOT_DIR_SECTOR [] = some ROOT_DIR_SECTOR from rfl)
  have hclr : Clear i := hgrw.clear p i hp (by rw [hheap2])
  have hlt := (h.backed.stored a _ (addFile_self _ _ _ _ _ _)).lt_size.trans h.backed.sound.size
  have hroot : (rootStore (MAX_FILES_PER_DIR * DirEntry.SIZE)).addFile ROOT_DIR_SECTOR a fileName 0
      false i.sector = some ⟨true, addEntry (linkBytes (MAX_FILES_PER_DIR * DirEntry.SIZE)
        ROOT_DIR_SECTOR ROOT_DIR_SECTOR) fileName a⟩ := by
    rw [hsct, Store.addFile, if_neg ha.symm, if_pos rfl, rootStore, update_self, map_some]
  obtain ⟨f, hf, hst, hdata⟩ := hb3.open_inode hp
  obtain rfl := mem_unique hroot hf
  refine ⟨fs, ⟨fs3, (initial fs2).cwds⟩, p, i, _, hfrm, ?_, hp, ?_, hclr.2.1,
    hb3.contents _ _ hf, ?_⟩
  · have hstep : s.step .remount = some (initial fs2) := by
      simp only [Session.step, hmnt, bind_eq_bind, bind_some]
    have hstep' : (initial fs2).step (.filesysOpen INITIAL_TID []) =
        some ⟨fs3, (initial fs2).cwds⟩ := by
      simp only [Session.step, initial_cwds, show (initial fs2).fs = fs2 from rfl, hopen,
        bind_eq_bind, bind_some]
    exact .step _ (.step _ ((Reaches.step _ .start trivial (step_create hcrt)).trans hrch.any)
      trivial hstep) trivial hstep'
  · rw [← hdata, hst.isDirectory]
  · rw [entryCount_addEntry hlt (by decide) (by decide) (by decide),
      entryCount_linkBytes (by decide) (by decide)]

end Session

end Pintos
