import Pintos.Filesys.Sessions

/-! # Which inodes are marked as removed

`filesys_remove` marks the inode that the path leads to, and also every inode that the `.` and `..`
of it lead to.  So the parent of a removed directory is marked together with it, and no file can be
created there any more. -/

namespace Pintos
open Bytes Walks Runs Function Option FileSys DirEntry

namespace FileSys

variable {fs fs' fs₁ : FileSys} {M : List ℕ} {σ : Store} {P : ℕ → Place} {p ps cs : ℕ} {i : Inode}

/-- Whether the inode at `p` is marked as removed. -/
def marked (fs : FileSys) (p : ℕ) : Bool := (fs.heap p).elim false Inode.removed

/-- Among the inodes that are open afterwards, only the one of `cs` may have another mark than
before.  An inode that has been opened in between had none. -/
def MarksOnly (fs fs' : FileSys) (cs : ℕ) : Prop :=
  ∀ p i, fs'.heap p = some i → i.sector ≠ cs → i.removed = fs.marked p

theorem Shifted.removed_eq (h : Shifted fs fs') (hp : fs'.heap p = some i) :
    i.removed = fs.marked p := by
  unfold marked
  cases hp' : fs.heap p with
  | none => exact (h.new p i hp hp').1
  | some j =>
    obtain ⟨n, lock, -, hp''⟩ := h.kept p j hp'
    cases mem_unique hp hp''
    rfl

theorem Shifted.unremoved_iff (h : Shifted fs fs') (ht : fs'.Tidy) (hp : fs'.heap p = some i) :
    fs.Unremoved i.sector ↔ i.removed = false := by
  constructor
  · intro hu
    rw [h.removed_eq hp, marked]
    cases hp' : fs.heap p with
    | none => rfl
    | some j =>
      obtain ⟨n, lock, -, hp''⟩ := h.kept p j hp'
      exact hu p j hp' (mem_unique hp hp'' ▸ rfl)
  · intro hi q j hq hs
    obtain ⟨n, lock, -, hq'⟩ := h.kept q j hq
    cases ht.distinct q p _ _ hq' hp hs
    cases mem_unique hp hq'
    exact hi

end FileSys

namespace Session

variable {s : Session} {M : List ℕ} {σ : Store} {P : ℕ → Place} {fs' : FileSys} {tid cwd : ℕ}
  {path : CString}

/-- A new file can be created in `ps`, by any thread and by any path to it, if the name is valid and
there is space. -/
def CanCreateIn (s : Session) (ps : ℕ) : Prop :=
  ∀ tid cwd path parentName name size isDirectory f, s.cwds tid = some cwd → 0 ∉ path →
    s.fs.Rooted path → FileSys.splitPathParentName path = some (parentName, name) →
    s.fs.tree.opened cwd parentName = some ps → s.fs.contents ps = some f →
    (isDirectory = true → size = MAX_FILES_PER_DIR * DirEntry.SIZE) →
    FileSys.Creatable f name size isDirectory s.fs.vol.freeSectors.length →
    ∃ fs', s.fs.filesysCreate tid cwd path size isDirectory = some (true, fs')

theorem Settled.canCreateIn (h : s.Settled M σ P) (hlock : ∀ tid, s.fs.CanLock tid ps)
    (hreo : s.fs.Unremoved ps) : s.CanCreateIn ps := by
  intro tid cwd path parentName name size isDirectory f hcwd hzero hroot hspl hprn hf hlnk hc
  have hdir := h.cwds tid cwd hcwd
  have hprn' := (h.linked.opened_eq h.sub hdir parentName).symm.trans hprn
  obtain ⟨g, hg⟩ := isSome_iff_exists.mp (h.linked.isSome_opened hdir hprn')
  cases (h.sub ps g hg).symm.trans hf
  obtain ⟨a, fs₁, fs', P', p, i, data, -, hcrt, -⟩ := h.backed.filesysCreate h.linked hdir hroot
    hspl hprn' (hlock tid) hreo h.undenied hzero hg hc
  exact ⟨fs', hcrt⟩

/-- Nothing can be created in a directory that is marked. -/
theorem Settled.create_marked (h : s.Settled M σ P) {ps : ℕ} {parentName name : CString}
    (size : ℕ) (isDirectory : Bool) (hcwd : s.cwds tid = some cwd) (hroot : s.fs.Rooted path)
    (hspl : splitPathParentName path = some (parentName, name))
    (hprn : (treeOf σ).opened cwd parentName = some ps) (hmrk : ¬ s.fs.Unremoved ps) :
    ∃ fs', s.fs.filesysCreate tid cwd path size isDirectory = some (false, fs') := by
  obtain ⟨p, i, fs₁, hopen, h1, hgrw, hp, rfl⟩ := h.backed.filesysOpen_live h.linked
    (h.cwds tid cwd hcwd) (hroot.parent hspl) hprn
  have hreo : i.removed = true := by
    rw [hgrw.shifted.unremoved_iff h1.tidy hp] at hmrk
    exact eq_true_of_ne_false hmrk
  refine ⟨fs₁.setInode p { i with openCnt := i.openCnt + 1 }, ?_⟩
  unfold filesysCreate
  simp only [hspl, hopen, inodeReopen_eq h1.tidy hp, setInode_heap, bind_eq_bind, bind_some]
  rw [if_pos hreo]

/-- What a removal does to the marks. -/
theorem Settled.removal (h : s.Settled M σ P) (hcwd : s.cwds tid = some cwd)
    (hok : s.Orderly (.filesysRemove tid path))
    (hr : s.fs.filesysRemove tid cwd path = some (true, fs')) :
    ∃ parentName name ps cs g, splitPathParentName path = some (parentName, name) ∧
      s.fs.tree.opened cwd parentName = some ps ∧ s.fs.tree.opened cwd path = some cs ∧
      s.fs.contents cs = some g ∧ (∃ M σ P, Settled { s with fs := fs' } M σ P) ∧
      (∃ c j, fs'.heap c = some j ∧ j.sector = cs ∧ j.removed = true) ∧
      ps ≠ cs ∧ (∃ p i, fs'.heap p = some i ∧ i.sector = ps) ∧
      (∀ p i, fs'.heap p = some i → i.sector = ps → i.dirLock = none ∧
        i.removed = (s.fs.marked p || linksTo g.bytes ps) ∧
        (s.fs.Unremoved ps ↔ s.fs.marked p = false)) ∧
      ∀ p i, fs'.heap p = some i → i.sector ≠ ps → i.sector ≠ cs → i.removed = s.fs.marked p := by
  have hdir := h.cwds tid cwd hcwd
  have hstep : s.step (.filesysRemove tid path) = some { s with fs := fs' } := by
    simp [Session.step, hcwd, hr]
  obtain ⟨σ', P', hs', -⟩ := h.step hok hstep
  rcases h.backed.filesysRemove_eq_some h.linked hdir hok.1 h.undenied
      ((h.linked.removable_iff h.sub hdir).mp (hok.2 cwd hcwd)) hr with
    ⟨hno, -⟩ | ⟨p, c, name, i, j, f, g, k, fs₁, τ, Q, hb, hshf, -, he, hne, -, -, hg, -, -, -, -, -,
      hrev⟩
  · cases hno
  obtain ⟨parentName, hspl, hprn⟩ := he.split
  have hunr := hshf.unremoved_iff hb.tidy he.parent
  refine ⟨parentName, name, i.sector, j.sector, g, hspl,
    (h.linked.opened_eq h.sub hdir parentName).trans hprn,
    (h.linked.opened_eq h.sub hdir path).trans he.target, h.sub _ g hg, ⟨M, σ', P', hs'⟩, ?_⟩
  cases hrev with
  | removed =>
    refine ⟨⟨c, _, pair_heap_right hne, rfl, rfl⟩, fun heq => ?_,
      ⟨p, _, pair_heap_left, rfl⟩, fun q i' hq hqs => ?_, fun q i' hq hps hcs => ?_⟩
    · exact hne (hb.tidy.distinct p c i j he.parent he.child heq)
    · cases hs'.backed.tidy.distinct q p _ _ hq pair_heap_left hqs
      cases mem_unique pair_heap_left hq
      rw [hunr, ← hshf.removed_eq he.parent]
      exact ⟨rfl, rfl, .rfl⟩
    · simp only [pair, update_apply] at hq
      split_ifs at hq with hqp hqc
      · exact absurd (some.inj hq ▸ rfl) hps
      · exact absurd (some.inj hq ▸ rfl) hcs
      · exact hshf.removed_eq hq

/-- **Removal.**  When `filesys_remove` has removed a file in a state that orderly calls reach, the
inode of the file is marked.  It is the only one that gets a mark exactly if no `.` or `..` in the
file leads to an unmarked parent; and then files can still be created in the parent. -/
theorem removal_marks (d : Disk) (fs : FileSys) (hsize : d.size < 2 ^ 32)
    (hf : FileSys.format d = some fs) (s : Session) (h : Reaches step Orderly (initial fs) s)
    (tid cwd : ℕ) (path : CString) (fs' : FileSys) (hcwd : s.cwds tid = some cwd)
    (hok : s.Orderly (.filesysRemove tid path))
    (hr : s.fs.filesysRemove tid cwd path = some (true, fs')) :
    ∃ parentName name ps cs g, FileSys.splitPathParentName path = some (parentName, name) ∧
      s.fs.tree.opened cwd parentName = some ps ∧ s.fs.tree.opened cwd path = some cs ∧
      s.fs.contents cs = some g ∧
      (∃ c j, fs'.heap c = some j ∧ j.sector = cs ∧ j.removed = true) ∧
      (FileSys.MarksOnly s.fs fs' cs ↔ (linksTo g.bytes ps = true → ¬ s.fs.Unremoved ps)) ∧
      (linksTo g.bytes ps = false → s.fs.Unremoved ps →
        fs'.Unremoved ps ∧ CanCreateIn { s with fs := fs' } ps) := by
  obtain ⟨M, σ, P, hi⟩ := settled_of_reaches hsize hf h
  obtain ⟨parentName, name, ps, cs, g, hspl, hps, hcs, hg, ⟨M', σ', P', hi'⟩, hmrk, hne,
    ⟨p, i, hp, rfl⟩, hprn, hrest⟩ := hi.removal hcwd hok hr
  refine ⟨parentName, name, i.sector, cs, g, hspl, hps, hcs, hg, hmrk, ?_, fun hno hu => ?_⟩
  · constructor
    · intro hmar hlnk
      obtain ⟨-, hreo, hu⟩ := hprn p i hp rfl
      rw [hlnk, Bool.or_true, hmar p i hp hne] at hreo
      simp [hu, hreo]
    · intro hlnk q j hq hqs
      by_cases hqp : j.sector = i.sector
      · obtain ⟨-, hreo, hu⟩ := hprn q j hq hqp
        rw [hu, Bool.not_eq_false] at hlnk
        rw [hreo, Bool.or_eq_left_iff_imp]
        exact hlnk
      · exact hrest q j hq hqp hqs
  · have hcln : ∀ q j, fs'.heap q = some j → j.sector = i.sector →
        j.removed = false ∧ j.dirLock = none := by
      intro q j hq hqp
      obtain ⟨hlock, hreo, hu'⟩ := hprn q j hq hqp
      rw [hno, hu'.mp hu] at hreo
      exact ⟨hreo, hlock⟩
    exact ⟨fun q j hq hqp => (hcln q j hq hqp).1,
      hi'.canCreateIn (fun _ q j hq hqp => .inl (hcln q j hq hqp).2)
        fun q j hq hqp => (hcln q j hq hqp).1⟩

/-! ### A file in the root directory -/

section
variable {fs : FileSys} {length a size : ℕ} {isDirectory : Bool} {g : FileImage}

/-- The root directory has the entry `a` for the file `g`, which can be removed. -/
structure HasFile (σ : Store) (a : ℕ) (g : FileImage) : Prop where
  file : σ a = some g
  child : (treeOf σ).child ROOT_DIR_SECTOR fileName = some a
  opened : (treeOf σ).opened ROOT_DIR_SECTOR fileName = some a
  ne_root : a ≠ ROOT_DIR_SECTOR
  small : g.bytes.length < MAX_LENGTH
  home : LinksHome g.bytes ROOT_DIR_SECTOR a

/-- The root directory is open and has one file; no other open inode has any, and none is marked. -/
def OneFile (fs : FileSys) : Prop :=
  (∃ n data, fs.heap 0 = some ⟨ROOT_DIR_SECTOR, n, false, 0, data, 1, none⟩) ∧
    ∀ p i, fs.heap p = some i → i.removed = false ∧ (p ≠ 0 → i.fileCount = 0)

theorem linksHome_newFile (ha : a < 2 ^ 32) (hps : ps < 2 ^ 32) :
    LinksHome (newFile ps a size isDirectory).bytes ps a := by
  intro link hlink s hs
  cases isDirectory with
  | false =>
    simp [newFile, entriesOf_eq_none.mpr (slotOf_replicate _ _)] at hs
  | true =>
    rw [newFile, if_pos rfl, entriesOf_linkBytes ha hps] at hs
    simp only [update_apply] at hs
    split_ifs at hs
    · exact .inr (some.inj hs).symm
    · exact .inl (some.inj hs).symm

theorem length_newFile_le (ps : ℕ) :
    (newFile ps a size isDirectory).bytes.length ≤ size + 2 * SIZE := by
  cases isDirectory with
  | false =>
    rw [newFile, if_neg Bool.false_ne_true, List.length_replicate]
    exact Nat.le_add_right _ _
  | true => exact length_linkBytes_le size a ps

theorem hasFile_addFile (ha : a ≠ ROOT_DIR_SECTOR) (hlt : a < 2 ^ 32)
    (hlen : size + 2 * SIZE < MAX_LENGTH) :
    HasFile ((rootStore length).addFile ROOT_DIR_SECTOR a fileName size isDirectory) a
      (newFile ROOT_DIR_SECTOR a size isDirectory) where
  file := addFile_self _ _ _ _ _ _
  child := child_fileName ha hlt
  opened := opened_fileName ha hlt
  ne_root := ha
  small := (length_newFile_le ROOT_DIR_SECTOR).trans_lt hlen
  home := linksHome_newFile hlt (by decide)

section
variable (hfile : HasFile σ a g)
include hfile

theorem HasFile.removable : Removable σ ROOT_DIR_SECTOR fileName := by
  intro parentName name ps cs hspl hps hcs
  cases mem_unique split_fileName hspl
  cases hps
  cases mem_unique hfile.opened hcs
  refine ⟨hfile.ne_root.symm, hfile.child, fun g' hg' => ?_⟩
  cases mem_unique hfile.file hg'
  exact ⟨hfile.small, hfile.home⟩

theorem HasFile.orderly (h : (initial fs).Settled M σ P) :
    (initial fs).Orderly (.filesysRemove INITIAL_TID fileName) := by
  refine ⟨rooted_fileName _, fun cwd hcwd => ?_⟩
  cases mem_unique initial_cwds hcwd
  exact (h.linked.removable_iff h.sub (h.cwds _ _ initial_cwds)).mpr hfile.removable

theorem HasFile.isSome_slotOf (hf : σ ROOT_DIR_SECTOR = some f)
    (hd : f.isDirectory = true) : (slotOf f.bytes fileName).isSome := by
  have hchl := hfile.child
  rw [child_treeOf hf hd] at hchl
  obtain ⟨k, hk, -⟩ := map_eq_some_iff.mp hchl
  rw [hk]
  rfl

theorem HasFile.tree_opened (h : (initial fs).Settled M σ P) :
    fs.tree.opened ROOT_DIR_SECTOR fileName = some a :=
  (h.linked.opened_eq h.sub (h.cwds _ _ initial_cwds) fileName).trans hfile.opened

/-- The initial thread removes `a`.  The root directory is marked exactly if a link leads there. -/
theorem HasFile.removal (h : (initial fs).Settled M σ P) (hone : OneFile fs) :
    ∃ fs', fs.filesysRemove INITIAL_TID ROOT_DIR_SECTOR fileName = some (true, fs') ∧
      (∃ M σ P, (initial fs').Settled M σ P) ∧
      (fs'.Unremoved ROOT_DIR_SECTOR ↔ linksTo g.bytes ROOT_DIR_SECTOR = false) ∧
      (linksTo g.bytes ROOT_DIR_SECTOR = true → ¬ MarksOnly fs fs' a) := by
  obtain ⟨⟨n, data, h0⟩, hrest⟩ := hone
  have hdir := h.cwds _ _ initial_cwds
  have hok := hfile.orderly h
  obtain ⟨fs', hrmv⟩ : ∃ fs', fs.filesysRemove INITIAL_TID ROOT_DIR_SECTOR fileName =
      some (true, fs') := h.backed.filesysRemove h.linked hdir
    (rooted_fileName _) h.undenied ((h.linked.removable_iff h.sub hdir).mp (hok.2 _ initial_cwds)) split_fileName
    rfl hfile.opened
    (fun p i hp hs => by
      cases h.backed.tidy.distinct p 0 _ _ hp h0 hs
      cases mem_unique h0 hp
      exact .inl rfl) ⟨0, _, h0, rfl, le_rfl⟩
    fun c j hc hs => (hrest c j hc).2 fun hc0 => by
      subst hc0
      cases mem_unique h0 hc
      exact hfile.ne_root hs.symm
  obtain ⟨parentName, name, ps, cs, g', hspl, hps, hcs, hg, hstl, -, hne, ⟨p, i, hp, hpi⟩,
    hprn, -⟩ := h.removal initial_cwds hok hrmv
  obtain ⟨rfl, -⟩ := Prod.mk.inj (mem_unique split_fileName hspl)
  obtain rfl : ROOT_DIR_SECTOR = ps := some.inj hps
  cases (hfile.tree_opened h).symm.trans hcs
  cases (h.sub a g hfile.file).symm.trans hg
  have hbfr : (initial fs).fs.Unremoved ROOT_DIR_SECTOR := fun q j hq _ => (hrest q j hq).1
  refine ⟨fs', hrmv, hstl, ⟨fun hu => ?_, fun hno q j hq hqs => ?_⟩, fun hlnk hmar => ?_⟩
  · obtain ⟨-, hreo, -⟩ := hprn p i hp hpi
    rw [hu p i hp hpi] at hreo
    exact (Bool.or_eq_false_iff.mp hreo.symm).2
  · obtain ⟨-, hreo, hu⟩ := hprn q j hq hqs
    rw [hreo, hno, hu.mp hbfr]
    rfl
  · obtain ⟨-, hreo, hu⟩ := hprn p i hp hpi
    rw [hlnk, Bool.or_true, hmar p i hp (hpi ▸ hne), show marked fs p = false from
      hu.mp hbfr] at hreo
    cases hreo

end

/-- `exists_created`, for a file or directory that can be removed. -/
theorem exists_oneFile (size : ℕ) (isDirectory : Bool)
    (hsize : isDirectory = true → size = MAX_FILES_PER_DIR * SIZE)
    (hmax : size + 2 * SIZE < MAX_LENGTH) (hroom : Volume.sectorsToCreate size ≤ 30) :
    ∃ fs fs₁ M σ P a, format ⟨64, fun _ _ => 0⟩ = some fs ∧ a < 2 ^ 32 ∧
      fs.filesysCreate INITIAL_TID ROOT_DIR_SECTOR fileName size isDirectory = some (true, fs₁) ∧
      (initial fs₁).Settled M σ P ∧ HasFile σ a (newFile ROOT_DIR_SECTOR a size isDirectory) ∧
      OneFile fs₁ := by
  obtain ⟨fs, fs₁, M, P, a, hfrm, ha, hcrt, h, hroot, hrest⟩ :=
    exists_created size isDirectory hsize (by omega) hroom
  have hlt := (h.backed.stored a _ (addFile_self _ _ _ _ _ _)).lt_size.trans h.backed.sound.size
  exact ⟨fs, fs₁, M, _, P, a, hfrm, hlt, hcrt, h, hasFile_addFile ha hlt hmax, hroot, hrest⟩

theorem orderly_create (hsize : d.size < 2 ^ 32) (hfrm : format d = some fs)
    (hlt : size < 2 ^ 31) : (initial fs).Orderly (.filesysCreate INITIAL_TID fileName size) := by
  obtain ⟨M, P, -, h, -⟩ := settled_format hsize hfrm
  exact ⟨by decide, hlt, fun cwd hcwd => h.parentIsDirectory hcwd (by decide)⟩

end

/-- A file is created in the root directory and removed. -/
theorem removal_marks_created : ∃ fs s fs' a, FileSys.format ⟨64, fun _ _ => 0⟩ = some fs ∧
    Reaches step Orderly (initial fs) s ∧
    s.fs.filesysRemove INITIAL_TID ROOT_DIR_SECTOR fileName = some (true, fs') ∧
    s.fs.tree.opened ROOT_DIR_SECTOR fileName = some a ∧ FileSys.MarksOnly s.fs fs' a ∧
    CanCreateIn { s with fs := fs' } ROOT_DIR_SECTOR := by
  obtain ⟨fs, fs₁, M, σ, P, a, hfrm, -, hcrt, h, hfile, hone⟩ :=
    exists_oneFile 0 false nofun (by decide) (by decide)
  have hrch : Reaches step Orderly (initial fs) (initial fs₁) :=
    .step _ .start (orderly_create (by decide) hfrm (by decide)) (step_create hcrt)
  obtain ⟨fs', hrmv, -⟩ := hfile.removal h hone
  obtain ⟨parentName, name, ps, cs, g, hspl, hps, hcs, hg, -, hmar, hcan⟩ :=
    removal_marks _ fs (by decide) hfrm (initial fs₁) hrch INITIAL_TID ROOT_DIR_SECTOR fileName
      fs' initial_cwds (hfile.orderly h) hrmv
  obtain ⟨rfl, -⟩ := Prod.mk.inj (mem_unique split_fileName hspl)
  obtain rfl : ROOT_DIR_SECTOR = ps := some.inj hps
  obtain rfl := some.inj ((hfile.tree_opened h).symm.trans hcs)
  obtain rfl := some.inj ((h.sub a _ hfile.file).symm.trans hg)
  have hno : linksTo (newFile ROOT_DIR_SECTOR a 0 false).bytes ROOT_DIR_SECTOR = false := by
    show linksTo [] ROOT_DIR_SECTOR = false
    decide
  exact ⟨fs, initial fs₁, fs', a, hfrm, hrch, hrmv, hfile.tree_opened h,
    hmar.mpr (by simp [hno]), (hcan hno fun p i hp _ => (hone.2 p i hp).1).2⟩

/-- The path `b`. -/
def otherName : CString := [98]

theorem split_otherName : splitPathParentName otherName = some ([], otherName) := by decide

/-- A directory is made in the root directory and removed.  Then the root directory is marked too,
and nothing can be created there. -/
theorem parent_marked : ∃ fs s fs' fs'' a, FileSys.format ⟨64, fun _ _ => 0⟩ = some fs ∧
    Reaches step (fun _ _ => True) (initial fs) s ∧ s.cwds INITIAL_TID = some ROOT_DIR_SECTOR ∧
    s.fs.tree.opened ROOT_DIR_SECTOR fileName = some a ∧ s.fs.Unremoved ROOT_DIR_SECTOR ∧
    s.fs.filesysRemove INITIAL_TID ROOT_DIR_SECTOR fileName = some (true, fs') ∧
    ¬ fs'.Unremoved ROOT_DIR_SECTOR ∧ ¬ FileSys.MarksOnly s.fs fs' a ∧
    fs'.filesysCreate INITIAL_TID ROOT_DIR_SECTOR otherName 0 false = some (false, fs'') := by
  obtain ⟨fs, fs₁, M, σ, P, a, hfrm, hlt, hcrt, h, hfile, hone⟩ :=
    exists_oneFile (MAX_FILES_PER_DIR * SIZE) true (fun _ => rfl) (by decide) (by decide)
  obtain ⟨fs', hrmv, ⟨M', σ', P', h'⟩, hiff, hmar⟩ := hfile.removal h hone
  -- the `..` of the new directory leads to the root directory
  have hlnk : linksTo (newFile ROOT_DIR_SECTOR a (MAX_FILES_PER_DIR * SIZE) true).bytes
      ROOT_DIR_SECTOR = true := by
    have hentry : entriesOf (linkBytes (MAX_FILES_PER_DIR * SIZE) a ROOT_DIR_SECTOR) parentLink =
        some ROOT_DIR_SECTOR := by
      rw [entriesOf_linkBytes hlt (by decide), update_of_ne (by decide), update_self]
    simp [linksTo, newFile, hentry]
  have haft : ¬ fs'.Unremoved ROOT_DIR_SECTOR := by
    rw [hiff, hlnk]
    exact Bool.true_eq_false_eq_False
  obtain ⟨fs'', hfal⟩ :=
    h'.create_marked 0 false initial_cwds (fun hhead => by cases hhead) split_otherName rfl haft
  exact ⟨fs, initial fs₁, fs', fs'', a, hfrm, .step _ .start trivial (step_mkdir hcrt),
    initial_cwds, hfile.tree_opened h, fun q j hq _ => (hone.2 q j hq).1, hrmv, haft,
    hmar hlnk, hfal⟩

end Session

end Pintos
