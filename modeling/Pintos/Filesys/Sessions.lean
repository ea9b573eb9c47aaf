import Pintos.Filesys.Mount
import Pintos.Filesys.Ownership
import Pintos.Lib.Runs

/-! # Sessions

Threads that use one file system, one call after the other, with shutdowns in between.  A thread has
a current directory, which is the number of a sector; `chdir` sets it to whatever `filesys_open`
has found.

* **Orderly calls.**  What the results about runs ask of a call, in the state before it.  Files are
  created in directories, `chdir` leads to directories, and only regular files are written.  A path
  to be removed is `Removable`, a removed inode is not closed for the last time, and no length is
  lost by a shutdown.
* **Inversion.**  `Outcome` says what a call has done to the inodes in memory and to the files, and
  `Settled.step` that every orderly call has such an outcome.
* **Runs.**  In every run of orderly calls from a formatted device the file system is a well linked
  store, and the current directories are directories. -/

namespace Pintos
open Bytes Walks Runs Function Option DirEntry

/-- The file system, and the `cur_directory` of each thread. -/
structure Session where
  fs : FileSys
  cwds : ℕ → Option ℕ

/-- The calls that threads make.  `remount` is `filesys_done` followed by `filesys_init (false)` on
the same device. -/
inductive SessionCall where
  | filesysCreate (tid : ℕ) (path : CString) (initialSize : ℕ)
  | mkdir (tid : ℕ) (path : CString)
  | filesysRemove (tid : ℕ) (path : CString)
  | filesysOpen (tid : ℕ) (path : CString)
  | fileClose (p : ℕ)
  | fileWrite (p : ℕ) (buf : List UInt8) (offset : ℕ)
  | chdir (tid : ℕ) (path : CString)
  | threadCreate (tid new : ℕ)
  | threadExit (tid : ℕ)
  | remount

/-- The path that is created or removed. -/
def SessionCall.path : SessionCall → CString
  | .filesysCreate _ path _ | .mkdir _ path | .filesysRemove _ path => path
  | _ => []

namespace Session

/-- The initial thread, which starts in the root directory. -/
def INITIAL_TID : ℕ := 1

def initial (fs : FileSys) : Session :=
  ⟨fs, update (fun _ => none) INITIAL_TID (some ROOT_DIR_SECTOR)⟩

theorem initial_cwds {fs : FileSys} : (initial fs).cwds INITIAL_TID = some ROOT_DIR_SECTOR := by
  simp [initial]

/-- The system call `chdir`. -/
def chdir (s : Session) (tid : ℕ) (path : CString) : Option (Bool × Session) := do
  let cwd ← s.cwds tid
  let (file, fs) ← s.fs.filesysOpen cwd path
  match file with
  | none => some (false, { s with fs := fs })
  | some p =>
    let fs ← fs.inodeReopen p
    let inode ← fs.heap p
    some (true, ⟨fs, update s.cwds tid (some inode.sector)⟩)

/-- One call. -/
def step (s : Session) : SessionCall → Option Session
  | .filesysCreate tid path initialSize => do
    let cwd ← s.cwds tid
    let (_, fs) ← s.fs.filesysCreate tid cwd path initialSize false
    some { s with fs := fs }
  | .mkdir tid path => do
    let cwd ← s.cwds tid
    let (_, fs) ← s.fs.filesysCreate tid cwd path (MAX_FILES_PER_DIR * DirEntry.SIZE) true
    some { s with fs := fs }
  | .filesysRemove tid path => do
    let cwd ← s.cwds tid
    let (_, fs) ← s.fs.filesysRemove tid cwd path
    some { s with fs := fs }
  | .filesysOpen tid path => do
    let cwd ← s.cwds tid
    let (_, fs) ← s.fs.filesysOpen cwd path
    some { s with fs := fs }
  | .fileClose p => do
    let fs ← s.fs.inodeClose p
    some { s with fs := fs }
  | .fileWrite p buf offset => do
    let (_, fs) ← s.fs.inodeWriteAt p buf offset
    some { s with fs := fs }
  | .chdir tid path => do
    let (_, s) ← s.chdir tid path
    some s
  | .threadCreate tid new => do
    let cwd ← s.cwds tid
    if (s.cwds new).isSome then none
    else some { s with cwds := update s.cwds new (some cwd) }
  | .threadExit tid => some { s with cwds := update s.cwds tid none }
  | .remount => do
    let fs ← FileSys.mount s.fs.vol.disk
    some (initial fs)

/-- What a path leads to is a directory, if it leads to anything. -/
def OpensDirectory (t : Tree) (cwd : ℕ) (path : CString) : Prop :=
  ∀ d, t.opened cwd path = some d → t.IsDirectory d

/-- The parent of a path is a directory, if there is one. -/
def ParentIsDirectory (t : Tree) (cwd : ℕ) (path : CString) : Prop :=
  ∀ parentName name, FileSys.splitPathParentName path = some (parentName, name) →
    OpensDirectory t cwd parentName

/-- What is asked of a call in the state before it.  Strings end at the first null byte, and sizes
and offsets are not negative as an `off_t`. -/
def Orderly (s : Session) : SessionCall → Prop
  | .filesysCreate tid path initialSize => 0 ∉ path ∧ initialSize < 2 ^ 31 ∧
      ∀ cwd, s.cwds tid = some cwd → ParentIsDirectory s.fs.tree cwd path
  | .mkdir tid path => 0 ∉ path ∧
      ∀ cwd, s.cwds tid = some cwd → ParentIsDirectory s.fs.tree cwd path
  | .filesysRemove tid path => s.fs.Rooted path ∧
      ∀ cwd, s.cwds tid = some cwd → FileSys.Removable s.fs.contents cwd path
  | .fileClose p => ∀ i, s.fs.heap p = some i → i.openCnt = 1 → i.removed = false
  | .fileWrite p buf offset => buf.length < 2 ^ 31 ∧ offset < 2 ^ 31 ∧
      ∀ i, s.fs.heap p = some i → i.data.isDirectory = false
  | .chdir tid path => ∀ cwd, s.cwds tid = some cwd → OpensDirectory s.fs.tree cwd path
  | .remount => s.fs.Persisted
  | .filesysOpen _ _ | .threadCreate _ _ | .threadExit _ => True

/-- The current directory of every thread is the sector of a directory. -/
def InDirectories (s : Session) : Prop :=
  ∀ t d, s.cwds t = some d → ∃ data, s.fs.inodeData d = some data ∧ data.isDirectory = true

/-- The file system is a well linked store, and the current directories are directories of it. -/
structure Settled (s : Session) (M : List ℕ) (σ : Store) (P : ℕ → Place) : Prop where
  backed : s.fs.Backed M σ P
  linked : WellLinked σ
  map : M ≠ []
  undenied : s.fs.Undenied
  cwds : ∀ t d, s.cwds t = some d → (treeOf σ).IsDirectory d

open FileSys in
/-- What a call has done to the inodes in memory and to the files: nothing but openings; what
`Creates` or `Removes` say, after openings; a closing; a write to a regular file; or everything in
memory is lost. -/
inductive Outcome (M : List ℕ) (P : ℕ → Place) (fs : FileSys) (σ : Store) :
    SessionCall → FileSys → Store → Prop
  | shifted {c : SessionCall} {fs' : FileSys} (hshift : Shifted fs fs') : Outcome M P fs σ c fs' σ
  | created {c : SessionCall} {fs₁ fs' : FileSys} {σ' : Store} {parentName name : CString}
      {p size : ℕ} {i : Inode} {f : FileImage} {isDirectory ok : Bool}
      (hsplit : splitPathParentName c.path = some (parentName, name)) (hshift : Shifted fs fs₁)
      (hb : fs₁.Backed M σ P) (hp : fs₁.heap p = some i) (hf : σ i.sector = some f)
      (hd : f.isDirectory = true)
      (hcreates : Creates fs₁ σ p i f name size isDirectory ok fs' σ') : Outcome M P fs σ c fs' σ'
  | removed {a : SessionCall} {fs₁ fs' : FileSys} {σ' : Store} {parentName name : CString}
      {p c k : ℕ} {i j : Inode} {f g : FileImage} {ok : Bool}
      (hsplit : splitPathParentName a.path = some (parentName, name)) (hshift : Shifted fs fs₁)
      (hb : fs₁.Backed M σ P) (hp : fs₁.heap p = some i) (hc : fs₁.heap c = some j) (hne : p ≠ c)
      (hf : σ i.sector = some f) (hd : f.isDirectory = true) (hg : σ j.sector = some g)
      (hslot : slotOf f.bytes name = some k)
      (hremoves : Removes fs₁ σ p c i j f g k ok fs' σ') : Outcome M P fs σ a fs' σ'
  | closed {c : SessionCall} {fs' : FileSys} {p : ℕ} {i : Inode} (hp : fs.heap p = some i)
      (hheap : fs'.heap = update fs.heap p
        (if i.openCnt = 1 then none else some { i with openCnt := i.openCnt - 1 })) :
      Outcome M P fs σ c fs' σ
  | written {c : SessionCall} {fs' : FileSys} {p : ℕ} {i : Inode} {f : FileImage}
      {data : InodeDisk} {bytes : List UInt8} (hp : fs.heap p = some i)
      (hf : σ i.sector = some f) (hd : f.isDirectory = false)
      (hheap : fs'.heap = update fs.heap p (some { i with data := data })) :
      Outcome M P fs σ c fs' (update σ i.sector (some { f with bytes := bytes }))
  | mounted {c : SessionCall} {fs' : FileSys} (hheap : fs'.heap = fun _ => none) :
      Outcome M P fs σ c fs' σ

variable {s s' : Session} {M : List ℕ} {σ σ' : Store} {P P' : ℕ → Place} {c : SessionCall}
  {fs fs' : FileSys}

/-! ### What every outcome keeps -/

theorem isDirectory_update {d a : ℕ} {f : FileImage} {bytes : List UInt8} (hf : σ a = some f)
    (h : (treeOf σ).IsDirectory d) :
    (treeOf (update σ a (some { f with bytes }))).IsDirectory d := by
  obtain ⟨g, hg, hd⟩ := isDirectory_treeOf.mp h
  rw [isDirectory_treeOf, update_apply]
  split_ifs with hda
  · rw [hda, hf] at hg
    exact ⟨_, rfl, (some.inj hg).symm ▸ hd⟩
  · exact ⟨g, hg, hd⟩

theorem isDirectory_addFile {d ps a size : ℕ} {name : CString}
    (hfrs : σ a = none) (h : (treeOf σ).IsDirectory d) :
    (treeOf (σ.addFile ps a name size isDirectory)).IsDirectory d := by
  obtain ⟨g, hg, hgd⟩ := isDirectory_treeOf.mp h
  have hda : d ≠ a := fun he => by
    simp [he, hfrs] at hg
  rw [isDirectory_treeOf]
  unfold Store.addFile
  rw [if_neg hda]
  split_ifs with hdp
  · rw [← hdp, hg]
    exact ⟨_, rfl, hgd⟩
  · exact ⟨g, hg, hgd⟩

theorem Outcome.isDirectory (h : Outcome M P fs σ c fs' σ')
    (hd : (treeOf σ).IsDirectory d) : (treeOf σ').IsDirectory d := by
  cases h with
  | shifted | closed | mounted => exact hd
  | written _ hf => exact isDirectory_update hf hd
  | created _ _ _ _ hf _ hcre =>
    cases hcre with
    | found => exact hd
    | failed => exact isDirectory_update hf hd
    | created _ _ hfrs => exact isDirectory_addFile hfrs hd
  | removed _ _ hb hp hc hne hf _ hg _ hrev =>
    cases hrev with
    | full => exact hd
    | removed =>
      rw [FileSys.unlink_eq (fun he => hne (hb.tidy.distinct _ _ _ _ hp hc he)) hf hg]
      exact isDirectory_update ((update_of_ne
        (fun he => hne (hb.tidy.distinct _ _ _ _ hp hc he.symm)) _ _).trans hg)
        (isDirectory_update hf hd)

theorem undenied_update (h : fs.Undenied)
    (hp : fs.heap p = some i) (hheap : fs'.heap = update fs.heap p new)
    (hnew : ∀ j, new = some j → j.denyWriteCnt = i.denyWriteCnt) : fs'.Undenied := by
  intro q j hq
  rw [hheap, update_apply] at hq
  split_ifs at hq
  · rw [hnew j hq, h p i hp]
  · exact h q j hq

theorem Outcome.undenied (h : Outcome M P fs σ c fs' σ') (hd : fs.Undenied) : fs'.Undenied := by
  cases h with
  | shifted hshf => exact hshf.undenied hd
  | closed hp hheap =>
    refine undenied_update hd hp hheap fun j hj => ?_
    split_ifs at hj
    cases hj
    rfl
  | written hp _ _ hheap => exact undenied_update hd hp hheap fun j hj => by cases hj; rfl
  | mounted hheap =>
    intro p i hp
    simp [hheap] at hp
  | created _ hshf _ hp _ _ hcre =>
    have hd1 := hshf.undenied hd
    cases hcre with
    | found _ hgrw => exact hgrw.shifted.undenied hd1
    | failed _ hheap => exact undenied_update hd1 hp hheap fun j hj => by cases hj; rfl
    | created _ _ _ _ hheap => exact undenied_update hd1 hp hheap fun j hj => by cases hj; rfl
  | removed _ hshf _ hp hc _ _ _ _ _ hrev =>
    have hd1 := hshf.undenied hd
    have hi := hd1 _ _ hp
    have hj := hd1 _ _ hc
    cases hrev with
    | full => exact hd1
    | removed =>
      intro q j' hq
      simp only [FileSys.pair, update_apply] at hq
      split_ifs at hq
      · cases hq
        exact hi
      · cases hq
        exact hj
      · exact hd1 q j' hq

/-! ### One call -/

section
variable (h : s.Settled M σ P)
include h

theorem Settled.sub : σ.Sub s.fs.contents := h.backed.contents

theorem Settled.isDirectory_tree (hd : (treeOf σ).IsDirectory d) :
    s.fs.tree.IsDirectory d :=
  (h.sub.isDirectory_iff (isSome_treeOf.mp (FileSys.isSome_of_isDirectory hd))).mpr hd

theorem Settled.parentIsDirectory (hcwd : s.cwds tid = some cwd)
    (hsls : slash ∉ path) : ParentIsDirectory s.fs.tree cwd path := by
  intro parentName name hspl d hd
  rcases (FileSys.splitPathParentName_spec hspl).2 with ⟨-, hpath⟩ | ⟨-, hpath⟩ | ⟨rfl, -⟩
  · exact absurd (by simp [hpath]) hsls
  · exact absurd (by simp [hpath]) hsls
  · cases some.inj hd
    exact h.isDirectory_tree (h.cwds tid cwd hcwd)

theorem Settled.of_outcome (hb : fs'.Backed M σ' P') (hl : WellLinked σ')
    (ho : Outcome M P s.fs σ c fs' σ') : Settled { s with fs := fs' } M σ' P' :=
  ⟨hb, hl, h.map, ho.undenied h.undenied, fun t d ht => ho.isDirectory (h.cwds t d ht)⟩

end

theorem settled_initial (hb : fs.Backed M σ P) (hl : WellLinked σ) (hM : M ≠ [])
    (hd : fs.Undenied) : (initial fs).Settled M σ P :=
  ⟨hb, hl, hM, hd, fun t d ht => by
    simp only [initial, update_apply] at ht
    split_ifs at ht
    exact some.inj ht ▸ isDirectory_treeOf.mpr hl.root⟩

section
variable (h : s.Settled M σ P)
include h

theorem Settled.parent_of_tree (hcwd : s.cwds tid = some cwd)
    (hprn : ParentIsDirectory s.fs.tree cwd path) (parentName name : CString) (ps : ℕ)
    (hspl : FileSys.splitPathParentName path = some (parentName, name))
    (hps : (treeOf σ).opened cwd parentName = some ps) : (treeOf σ).IsDirectory ps := by
  have hdir := h.cwds tid cwd hcwd
  have hd := hprn parentName name hspl ps ((h.linked.opened_eq h.sub hdir _).trans hps)
  exact (h.sub.isDirectory_iff (h.linked.isSome_opened hdir hps)).mp hd

/-- `filesys_create` and `mkdir`. -/
theorem Settled.create (hcwd : s.cwds tid = some cwd) (hpath : c.path = path) (hzero : 0 ∉ path)
    (hsize : size < 2 ^ 31) (hlnk : isDirectory = true → size = MAX_FILES_PER_DIR * SIZE)
    (hprn : ParentIsDirectory s.fs.tree cwd path)
    (hc : s.fs.filesysCreate tid cwd path size isDirectory = some (ok, fs')) :
    ∃ σ' P', Settled { s with fs := fs' } M σ' P' ∧ Outcome M P s.fs σ c fs' σ' := by
  have hdir := h.cwds tid cwd hcwd
  rcases h.backed.filesysCreate_eq_some h.linked hdir hzero hsize
      (fun _ => hlnk) (h.parent_of_tree hcwd hprn) hc with
    ⟨-, hb, hshf, -⟩ | ⟨parentName, name, p, i, f, fs1, σ', P', hspl, -, hshf, -, hb1, hp, -,
      -, hf, hd, hb, hl, hcre, -⟩
  · have ho : Outcome M P s.fs σ c fs' σ := .shifted hshf
    exact ⟨σ, P, h.of_outcome hb h.linked ho, ho⟩
  · have ho : Outcome M P s.fs σ c fs' σ' :=
      .created (by rw [hpath]; exact hspl) hshf hb1 hp hf hd hcre
    exact ⟨σ', P', h.of_outcome hb hl ho, ho⟩

theorem Settled.remove (hcwd : s.cwds tid = some cwd)
    (hroot : s.fs.Rooted path) (hr : FileSys.Removable s.fs.contents cwd path)
    (hc : s.fs.filesysRemove tid cwd path = some (ok, fs')) :
    ∃ σ' P', Settled { s with fs := fs' } M σ' P' ∧
      Outcome M P s.fs σ (.filesysRemove tid path) fs' σ' := by
  have hdir := h.cwds tid cwd hcwd
  rcases h.backed.filesysRemove_eq_some h.linked hdir hroot h.undenied
      ((h.linked.removable_iff h.sub hdir).mp hr) hc with
    ⟨-, hb, hshf, -⟩ | ⟨p, q, name, i, j, f, g, k, fs1, σ', P', hb1, hshf, -, he, hne, hf, hd, hg,
      hslot, -, hb, hl, -, hrev⟩
  · have ho : Outcome M P s.fs σ (.filesysRemove tid path) fs' σ := .shifted hshf
    exact ⟨σ, P, h.of_outcome hb h.linked ho, ho⟩
  · obtain ⟨parentName, hspl, -⟩ := he.split
    have ho : Outcome M P s.fs σ (.filesysRemove tid path) fs' σ' :=
      .removed hspl hshf hb1 he.parent he.child hne hf hd hg hslot hrev
    exact ⟨σ', P', h.of_outcome hb hl ho, ho⟩

theorem Settled.close {p : ℕ}
    (hlast : ∀ i, s.fs.heap p = some i → i.openCnt = 1 → i.removed = false)
    (hc : s.fs.inodeClose p = some fs') :
    Settled { s with fs := fs' } M σ P ∧ Outcome M P s.fs σ c fs' σ := by
  cases hp : s.fs.heap p with
  | none => simp [FileSys.inodeClose, hp] at hc
  | some i =>
    obtain ⟨fs1, hcls, hb, hheap⟩ := h.backed.inodeClose hp (hlast i hp)
    obtain rfl := mem_unique hcls hc
    have ho : Outcome M P s.fs σ c fs1 σ := .closed hp hheap
    exact ⟨h.of_outcome hb h.linked ho, ho⟩

theorem Settled.write (hbuf : buf.length < 2 ^ 31)
    (hoff : offset < 2 ^ 31) (hfile : ∀ i, s.fs.heap p = some i → i.data.isDirectory = false)
    (hw : s.fs.inodeWriteAt p buf offset = some (n, fs')) :
    ∃ σ' P', Settled { s with fs := fs' } M σ' P' ∧ Outcome M P s.fs σ c fs' σ' := by
  cases hp : s.fs.heap p with
  | none => simp [FileSys.inodeWriteAt, hp] at hw
  | some i =>
    obtain ⟨f, hf, hst, hdata⟩ := h.backed.open_inode hp
    have hd : f.isDirectory = false := by
      rw [← hst.isDirectory, hdata]
      exact hfile i hp
    obtain ⟨data, v, bytes, P', hfs, hsto, -⟩ :=
      h.backed.inodeWriteAt_eq_some hp hf hbuf hoff hw
    have hb : fs'.Backed M (update σ i.sector (some { f with bytes })) P' :=
      ⟨hsto, h.backed.mirrored_inodeWriteAt hp h.backed.mirrored hoff hw, by
        rw [update_of_ne (h.backed.sector_ne_zero hp).symm, h.backed.zero]⟩
    have ho : Outcome M P s.fs σ c fs' (update σ i.sector (some { f with bytes })) :=
      .written hp hf hd (by rw [hfs]; rfl)
    have hl : WellLinked (update σ i.sector (some { f with bytes })) :=
      FileSys.WellLinked.update h.linked hf (fun hd' => by rw [hd] at hd'; cases hd') fun hd' => by rw [hd] at hd'; cases hd'
    exact ⟨_, P', h.of_outcome hb hl ho, ho⟩

theorem Settled.open
    (hcwd : s.cwds tid = some cwd) (ho : s.fs.filesysOpen cwd path = some (file, fs')) :
    Settled { s with fs := fs' } M σ P ∧ FileSys.Grown s.fs fs' ∧
      FileSys.Finds s.fs (treeOf σ) cwd path file fs' := by
  obtain ⟨file', fs1, hopen, hb, hgrw, hfnd⟩ :=
    h.backed.filesysOpen h.linked (h.cwds tid cwd hcwd) path
  obtain ⟨rfl, rfl⟩ := hopen.symm.trans ho
  exact ⟨h.of_outcome (c := .filesysOpen tid path) hb h.linked (.shifted hgrw.shifted), hgrw, hfnd⟩

theorem Settled.chdir (hdir : ∀ cwd, s.cwds tid = some cwd → OpensDirectory s.fs.tree cwd path)
    (hc : s.chdir tid path = some (ok, s')) : s'.Settled M σ P ∧ FileSys.Grown s.fs s'.fs := by
  obtain ⟨cwd, hcwd, hc⟩ := bind_eq_some_iff.mp hc
  obtain ⟨⟨file, fs1⟩, hopen, hc⟩ := bind_eq_some_iff.mp hc
  obtain ⟨h1, hgrw, hfnd⟩ := h.open hcwd hopen
  cases file with
  | none =>
    obtain ⟨-, rfl⟩ : false = ok ∧ { s with fs := fs1 } = s' := by simpa using hc
    exact ⟨h1, hgrw⟩
  | some p =>
    obtain ⟨fs2, hrpn, hc⟩ := bind_eq_some_iff.mp hc
    obtain ⟨i, hi, hc⟩ := bind_eq_some_iff.mp hc
    obtain ⟨-, rfl⟩ : true = ok ∧
        (⟨fs2, update s.cwds tid (some i.sector)⟩ : Session) = s' := by simpa using hc
    cases hp : fs1.heap p with
    | none => simp [FileSys.inodeReopen, hp] at hrpn
    | some i1 =>
      rw [FileSys.inodeReopen_eq h1.backed.tidy hp] at hrpn
      cases hrpn
      have hi' := (update_self ..).symm.trans hi
      cases hi'
      have hgrw' := hgrw.trans (h1.backed.tidy.reopen hp).opens.grown
      refine ⟨⟨h1.backed.setInode hp rfl rfl (Nat.succ_pos _), h.linked, h.map,
        hgrw'.shifted.undenied h.undenied, fun t d ht => ?_⟩, hgrw'⟩
      simp only [update_apply] at ht
      split_ifs at ht with htt
      · cases ht
        -- the inode that has been found is the one that the path leads to
        have hd := hdir cwd hcwd _
          ((h.linked.opened_eq h.sub (h.cwds tid cwd hcwd) path).trans (hfnd.opened_eq hp))
        exact (h.sub.isDirectory_iff (h1.backed.known p i1 hp)).mp hd
      · exact h.cwds t d ht

/-- `chdir` to what a path leads to. -/
theorem Settled.chdir_eq (hcwd : s.cwds tid = some cwd)
    (hroot : s.fs.Rooted path) (hd : (treeOf σ).opened cwd path = some d) : ∃ fs',
      s.chdir tid path = some (true, ⟨fs', update s.cwds tid (some d)⟩) ∧
      fs'.Backed M σ P := by
  obtain ⟨p, i, fs1, hopen, hb, -, hp, rfl⟩ :=
    h.backed.filesysOpen_live h.linked (h.cwds tid cwd hcwd) hroot hd
  refine ⟨fs1.setInode p { i with openCnt := i.openCnt + 1 }, ?_,
    hb.setInode hp rfl rfl (Nat.succ_pos _)⟩
  simp [Session.chdir, hcwd, hopen, FileSys.inodeReopen_eq hb.tidy hp, FileSys.setInode_heap]

/-- Every orderly call keeps the file system a well linked store, and has an outcome. -/
theorem Settled.step (hok : s.Orderly c) (hs : s.step c = some s') :
    ∃ σ' P', s'.Settled M σ' P' ∧ Outcome M P s.fs σ c s'.fs σ' := by
  cases c with
  | filesysCreate tid path initialSize =>
    obtain ⟨cwd, hcwd, hs⟩ := bind_eq_some_iff.mp hs
    obtain ⟨⟨ok, fs⟩, hc, hs⟩ := bind_eq_some_iff.mp hs
    cases hs
    exact h.create hcwd rfl hok.1 hok.2.1 (fun hd => by cases hd) (hok.2.2 cwd hcwd) hc
  | mkdir tid path =>
    obtain ⟨cwd, hcwd, hs⟩ := bind_eq_some_iff.mp hs
    obtain ⟨⟨ok, fs⟩, hc, hs⟩ := bind_eq_some_iff.mp hs
    cases hs
    exact h.create hcwd rfl hok.1 (by decide) (fun _ => by rfl) (hok.2 cwd hcwd) hc
  | filesysRemove tid path =>
    obtain ⟨cwd, hcwd, hs⟩ := bind_eq_some_iff.mp hs
    obtain ⟨⟨ok, fs⟩, hc, hs⟩ := bind_eq_some_iff.mp hs
    cases hs
    exact h.remove hcwd hok.1 (hok.2 cwd hcwd) hc
  | filesysOpen tid path =>
    obtain ⟨cwd, hcwd, hs⟩ := bind_eq_some_iff.mp hs
    obtain ⟨⟨file, fs⟩, ho, hs⟩ := bind_eq_some_iff.mp hs
    cases hs
    obtain ⟨h', hgrw, -⟩ := h.open hcwd ho
    exact ⟨σ, P, h', .shifted hgrw.shifted⟩
  | fileClose p =>
    obtain ⟨fs, hc, hs⟩ := bind_eq_some_iff.mp hs
    cases hs
    obtain ⟨h', ho⟩ := h.close hok hc
    exact ⟨σ, P, h', ho⟩
  | fileWrite p buf offset =>
    obtain ⟨⟨n, fs⟩, hw, hs⟩ := bind_eq_some_iff.mp hs
    cases hs
    exact h.write hok.1 hok.2.1 hok.2.2 hw
  | chdir tid path =>
    obtain ⟨⟨ok, s1⟩, hc, hs⟩ := bind_eq_some_iff.mp hs
    cases hs
    obtain ⟨h', hgrw⟩ := h.chdir hok hc
    exact ⟨σ, P, h', .shifted hgrw.shifted⟩
  | threadCreate tid new =>
    obtain ⟨cwd, hcwd, hs⟩ := bind_eq_some_iff.mp hs
    split_ifs at hs
    cases hs
    refine ⟨σ, P, { h with cwds := fun t d ht => ?_ },
      .shifted (.refl h.backed.tidy)⟩
    simp only [update_apply] at ht
    split_ifs at ht
    · exact some.inj ht ▸ h.cwds tid cwd hcwd
    · exact h.cwds t d ht
  | threadExit tid =>
    cases hs
    refine ⟨σ, P, { h with cwds := fun t d ht => ?_ },
      .shifted (.refl h.backed.tidy)⟩
    simp only [update_apply] at ht
    split_ifs at ht
    exact h.cwds t d ht
  | remount =>
    obtain ⟨fs, hm, hs⟩ := bind_eq_some_iff.mp hs
    cases hs
    obtain ⟨fs1, hm1, hb, hheap, -⟩ := h.backed.mount h.map hok
    obtain rfl := mem_unique hm1 hm
    have ho : Outcome M P s.fs σ .remount fs1 σ := .mounted hheap
    exact ⟨σ, P, settled_initial hb h.linked h.map (ho.undenied h.undenied), ho⟩

end

/-! ### Runs -/

theorem eq_of_heap_update (hheap : fs.heap = update (fun _ => none) 0 (some j))
    (hp : fs.heap p = some i) : i = j := by
  rw [hheap, update_apply] at hp
  split_ifs at hp
  exact (some.inj hp).symm

theorem settled_format (hsize : d.size < 2 ^ 32) (hf : FileSys.format d = some fs) :
    ∃ M P data, (initial fs).Settled M (rootStore (MAX_FILES_PER_DIR * SIZE)) P ∧
      fs.heap = update (fun _ => none) 0
        (some ⟨ROOT_DIR_SECTOR, 1, false, 0, data, 0, none⟩) := by
  obtain ⟨hroot, hsize', hspc⟩ := InodeLayer.room_of_format hsize hf
  obtain ⟨fs1, M, P, data, hf1, hsto, hheap, hM, -, hmr⟩ :=
    FileSys.stores_format hroot hsize' hspc
  cases mem_unique hf1 hf
  refine ⟨M, P, data, settled_initial ⟨hsto, hmr, rfl⟩
    (wellLinked_rootStore (by decide)) hM fun p i hp => ?_, hheap⟩
  rw [eq_of_heap_update hheap hp]

theorem settled_of_reaches (hsize : d.size < 2 ^ 32) (hf : FileSys.format d = some fs)
    (h : Reaches step Orderly (initial fs) s) : ∃ M σ P, s.Settled M σ P := by
  obtain ⟨M, P, data, h0, -⟩ := settled_format hsize hf
  exact h.invariant (P := fun s : Session => ∃ M σ P, s.Settled M σ P) ⟨M, _, P, h0⟩
    fun s c s' ⟨M, σ, P, hi⟩ hok hs => by
      obtain ⟨σ', P', hi', -⟩ := hi.step hok hs
      exact ⟨M, σ', P', hi'⟩

theorem Settled.inDirectories (h : s.Settled M σ P) : s.InDirectories := fun t d ht => by
  obtain ⟨f, hf, hd⟩ := isDirectory_treeOf.mp (h.cwds t d ht)
  have hst := h.backed.stored d f hf
  exact ⟨_, hst.inode, hst.isDirectory.trans hd⟩

/-! ### What can be reached -/

/-- The sectors that calls can come to: from the root, a current directory or an open inode, along
the entries of directories. -/
inductive Linked (s : Session) : ℕ → Prop
  | root : Linked s ROOT_DIR_SECTOR
  | cwd {t d : ℕ} (h : s.cwds t = some d) : Linked s d
  | opened {p : ℕ} {i : Inode} (h : s.fs.heap p = some i) : Linked s i.sector
  | entry {d k : ℕ} {f : FileImage} (h : Linked s d) (hf : s.fs.contents d = some f)
      (hd : f.isDirectory = true) (hk : k < slots f.bytes)
      (hu : (entryAt f.bytes k).inUse = true) : Linked s (entryAt f.bytes k).inodeSector

theorem Settled.isSome_of_linked (h : s.Settled M σ P) (hl : s.Linked d) : (σ d).isSome := by
  induction hl with
  | root =>
    obtain ⟨f, hf, -⟩ := h.linked.root
    rw [hf]
    rfl
  | cwd hcwd => exact isSome_treeOf.mp (FileSys.isSome_of_isDirectory (h.cwds _ _ hcwd))
  | opened hp => exact h.backed.known _ _ hp
  | @entry d k f _ hf hd hk hu ih =>
    obtain ⟨g, hg⟩ := isSome_iff_exists.mp ih
    obtain rfl := mem_unique (h.sub d g hg) hf
    exact h.linked.closed d g hg hd k hk hu

/-! ### Closing everything -/

theorem Settled.exists_close (h : s.Settled M σ P)
    (hp : s.fs.heap p = some i) (hr : i.removed = false) :
    ∃ fs', Reaches Session.step Orderly s { s with fs := fs' } ∧
      Settled { s with fs := fs' } M σ P ∧ fs'.heap = update s.fs.heap p
        (if i.openCnt = 1 then none else some { i with openCnt := i.openCnt - 1 }) := by
  obtain ⟨fs', hcls, -, hheap⟩ := h.backed.inodeClose hp fun _ => hr
  have hok : s.Orderly (.fileClose p) := fun j hj _ => mem_unique hp hj ▸ hr
  have hstep : s.step (.fileClose p) = some { s with fs := fs' } := by
    simp [Session.step, hcls]
  exact ⟨fs', .step _ .start hok hstep, (h.close (c := .fileClose p) hok hcls).1, hheap⟩

theorem Settled.exists_closed_inode (h : s.Settled M σ P)
    (hp : s.fs.heap p = some i) (hn : i.openCnt = n + 1) (hr : i.removed = false) :
    ∃ s', Reaches Session.step Orderly s s' ∧ s'.Settled M σ P ∧ s'.cwds = s.cwds ∧
      s'.fs.heap = update s.fs.heap p none := by
  induction n generalizing s i with
  | zero =>
    obtain ⟨fs', hrch, h', hheap⟩ := h.exists_close hp hr
    rw [if_pos hn] at hheap
    exact ⟨_, hrch, h', rfl, hheap⟩
  | succ n ih =>
    obtain ⟨fs1, hrch, h1, hheap⟩ := h.exists_close hp hr
    rw [if_neg (by omega)] at hheap
    obtain ⟨s', hrch', h', hcwds, hheap'⟩ := ih h1 ((congrFun hheap p).trans (update_self ..))
      (show i.openCnt - 1 = n + 1 by omega) hr
    refine ⟨s', hrch.trans hrch', h', hcwds, ?_⟩
    rw [hheap', hheap, update_idem]

/-- All inodes are closed. -/
theorem Settled.exists_closed (h : s.Settled M σ P)
    (hr : ∀ p i, s.fs.heap p = some i → i.removed = false) :
    ∃ s', Reaches Session.step Orderly s s' ∧ s'.Settled M σ P ∧ s'.cwds = s.cwds ∧
      s'.fs.heap = fun _ => none := by
  -- the inodes below `n` are closed, from the last address on
  suffices hall : ∀ n s, s.Settled M σ P →
      (∀ p i, s.fs.heap p = some i → i.removed = false ∧ p < n) →
      ∃ s', Reaches Session.step Orderly s s' ∧ s'.Settled M σ P ∧ s'.cwds = s.cwds ∧
        s'.fs.heap = fun _ => none from
    hall s.fs.next s h fun p i hp => ⟨hr p i hp, h.backed.tidy.old p i hp⟩
  intro n
  induction n with
  | zero =>
    intro s h hlt
    refine ⟨s, .start, h, rfl, funext fun p => ?_⟩
    by_contra hne
    obtain ⟨i, hi⟩ := ne_none_iff_exists'.mp hne
    exact absurd (hlt p i hi).2 (Nat.not_lt_zero p)
  | succ n ih =>
    intro s h hlt
    cases hn : s.fs.heap n with
    | none =>
      refine ih s h fun p i hp => ⟨(hlt p i hp).1, ?_⟩
      have hne : p ≠ n := fun he => by
        simp [he, hn] at hp
      have := (hlt p i hp).2
      omega
    | some i =>
      have hpos := h.backed.tidy.counted n i hn
      obtain ⟨s1, hrch, h1, hcwds, hheap⟩ := h.exists_closed_inode hn
        (show i.openCnt = i.openCnt - 1 + 1 by omega) (hlt n i hn).1
      obtain ⟨s', hrch', h', hcwds', hheap'⟩ := ih s1 h1 fun p j hp => by
        rw [hheap] at hp
        obtain ⟨hne, hp⟩ := FileSys.of_update_none hp
        have := (hlt p j hp).2
        exact ⟨(hlt p j hp).1, by omega⟩
      exact ⟨s', hrch.trans hrch', h', hcwds'.trans hcwds, hheap'⟩

/-! ### A device of 64 sectors -/

/-- The path `a`. -/
def fileName : CString := [97]

theorem rooted_fileName (fs : FileSys) : fs.Rooted fileName := nofun

theorem split_fileName : FileSys.splitPathParentName fileName = some ([], fileName) := by decide

/-- `a` can be created in an empty root directory. -/
theorem creatable_root {free size : ℕ} {isDirectory : Bool}
    (hsize : isDirectory = true → size = MAX_FILES_PER_DIR * SIZE)
    (hmax : size ≤ MAX_LENGTH) (hroom : Volume.sectorsToCreate size ≤ 30) (hfree : 40 ≤ free) :
    FileSys.Creatable ⟨true, linkBytes (MAX_FILES_PER_DIR * SIZE) ROOT_DIR_SECTOR
      ROOT_DIR_SECTOR⟩ fileName size isDirectory free := by
  have hlen := length_linkBytes_le (MAX_FILES_PER_DIR * SIZE) ROOT_DIR_SECTOR ROOT_DIR_SECTOR
  have hneed : sectorsFor (MAX_FILES_PER_DIR * SIZE + 2 * SIZE + SIZE) ≤ 9 := by decide
  have hlong : MAX_FILES_PER_DIR * SIZE + 2 * SIZE + SIZE < MAX_LENGTH :=
    by decide
  have hgrow := sectorsFor_le (Nat.add_le_add_right hlen SIZE)
  refine ⟨rfl, by decide, ?_, by dsimp only; omega, hmax, fun hd => ?_, ?_⟩
  · rw [entriesOf_linkBytes (by decide) (by decide), update_of_ne (by decide),
      update_of_ne (by decide)]
  · rw [hsize hd]
    decide
  · unfold FileSys.sectorsNeeded
    dsimp only
    omega

/-- The initial thread creates `a` in the root directory of a formatted device. -/
theorem exists_created (size : ℕ) (isDirectory : Bool)
    (hsize : isDirectory = true → size = MAX_FILES_PER_DIR * SIZE)
    (hmax : size ≤ MAX_LENGTH) (hroom : Volume.sectorsToCreate size ≤ 30) :
    ∃ fs fs1 M P a, FileSys.format ⟨64, fun _ _ => 0⟩ = some fs ∧ a ≠ ROOT_DIR_SECTOR ∧
      fs.filesysCreate INITIAL_TID ROOT_DIR_SECTOR fileName size isDirectory = some (true, fs1) ∧
      (initial fs1).Settled M ((rootStore (MAX_FILES_PER_DIR * SIZE)).addFile
        ROOT_DIR_SECTOR a fileName size isDirectory) P ∧
      (∃ n data, fs1.heap 0 = some ⟨ROOT_DIR_SECTOR, n, false, 0, data, 1, none⟩) ∧
      ∀ p i, fs1.heap p = some i → i.removed = false ∧ (p ≠ 0 → i.fileCount = 0) := by
  obtain ⟨fs, -, -, -, hfrm, -, -, hfree⟩ := FileSys.exists_formatted
  obtain ⟨M, P, data, h, hheap⟩ := settled_format (by decide) hfrm
  have hself : fs.heap 0 = some ⟨ROOT_DIR_SECTOR, 1, false, 0, data, 0, none⟩ := by
    rw [hheap, update_self]
  have hroot : rootStore (MAX_FILES_PER_DIR * SIZE) ROOT_DIR_SECTOR =
      some ⟨true, linkBytes (MAX_FILES_PER_DIR * SIZE) ROOT_DIR_SECTOR ROOT_DIR_SECTOR⟩ :=
    update_self ..
  have hcrb := @creatable_root fs.vol.freeSectors.length size isDirectory hsize hmax hroom hfree
  have hlock : fs.CanLock INITIAL_TID ROOT_DIR_SECTOR :=
    fun p i hp _ => .inl (by rw [eq_of_heap_update hheap hp])
  have hreo : fs.Unremoved ROOT_DIR_SECTOR := fun p i hp _ => by
    rw [eq_of_heap_update hheap hp]
  obtain ⟨a, fs0, fs1, P1, p, i, data1, ha, hcrt, hb, hl, hgrw, hp, hs, hheap1⟩ :=
    h.backed.filesysCreate h.linked (isDirectory_treeOf.mpr h.linked.root)
      (rooted_fileName _) split_fileName rfl hlock hreo h.undenied (by decide) hroot hcrb
  -- the root directory is still the inode at address 0
  obtain ⟨n, -, h0⟩ := hgrw.kept 0 _ hself
  obtain rfl : p = 0 := by
    by_contra hne
    refine hne (hb.tidy.distinct p 0 _ _ ((congrFun hheap1 p).trans (update_self ..))
      ((congrFun hheap1 0).trans ((update_of_ne (Ne.symm hne) ..).trans h0)) hs)
  cases mem_unique hp h0
  refine ⟨fs, fs1, M, P1, a, hfrm, fun he => ?_, hcrt,
    settled_initial hb hl h.map (undenied_update (hgrw.undenied h.undenied) hp hheap1
      fun j hj => by cases hj; rfl), ⟨n, data1, ?_⟩, fun q j hq => ?_⟩
  · rw [he] at ha
    cases ha
  · rw [hheap1]
    rfl
  · rw [hheap1, update_apply] at hq
    split_ifs at hq with hq0
    · cases hq
      exact ⟨rfl, fun hne => absurd hq0 hne⟩
    · have hclr := hgrw.clear q j hq ((congrFun hheap q).trans (update_of_ne hq0 ..))
      exact ⟨hclr.1, fun _ => hclr.2.1⟩

theorem addFile_self (σ : Store) (ps a : ℕ) (name : CString) (size : ℕ) (isDirectory : Bool) :
    σ.addFile ps a name size isDirectory a = some (newFile ps a size isDirectory) := if_pos rfl

theorem child_fileName (ha : a ≠ ROOT_DIR_SECTOR)
    (halt : a < 2 ^ 32) : (treeOf ((rootStore length).addFile ROOT_DIR_SECTOR a fileName size
      isDirectory)).child ROOT_DIR_SECTOR fileName = some a := by
  have hroot : (rootStore length).addFile ROOT_DIR_SECTOR a fileName size isDirectory
      ROOT_DIR_SECTOR =
      some ⟨true, addEntry (linkBytes length ROOT_DIR_SECTOR ROOT_DIR_SECTOR) fileName a⟩ := by
    unfold Store.addFile
    rw [if_neg ha.symm, if_pos rfl, rootStore, update_self, map_some]
  have hnew : slotOf (linkBytes length ROOT_DIR_SECTOR ROOT_DIR_SECTOR) fileName = none := by
    rw [← entriesOf_eq_none, entriesOf_linkBytes (by decide) (by decide),
      update_of_ne (by decide), update_of_ne (by decide)]
  rw [child_treeOf hroot rfl, entriesOf_addEntry halt (by decide) hnew, update_self]

theorem opened_root_fileName (t : Tree) :
    t.opened ROOT_DIR_SECTOR fileName = t.child ROOT_DIR_SECTOR fileName := by
  exact map_id'

theorem opened_fileName {length a size : ℕ} {isDirectory : Bool} (ha : a ≠ ROOT_DIR_SECTOR)
    (halt : a < 2 ^ 32) : (treeOf ((rootStore length).addFile ROOT_DIR_SECTOR a fileName size
      isDirectory)).opened ROOT_DIR_SECTOR fileName = some a := by
  rw [opened_root_fileName, child_fileName ha halt]

section
variable {length a size : ℕ} {isDirectory : Bool}

theorem step_create {ok : Bool}
    (hc : fs.filesysCreate INITIAL_TID ROOT_DIR_SECTOR fileName size false = some (ok, fs')) :
    (initial fs).step (.filesysCreate INITIAL_TID fileName size) = some (initial fs') := by
  simp only [Session.step, initial_cwds, show (initial fs).fs = fs from rfl, hc,
    bind_eq_bind, bind_some]
  rfl

theorem step_mkdir {ok : Bool} (hc : fs.filesysCreate INITIAL_TID ROOT_DIR_SECTOR fileName
      (MAX_FILES_PER_DIR * SIZE) true = some (ok, fs')) :
    (initial fs).step (.mkdir INITIAL_TID fileName) = some (initial fs') := by
  simp only [Session.step, initial_cwds, show (initial fs).fs = fs from rfl, hc,
    bind_eq_bind, bind_some]
  rfl

/-- The initial thread goes to `a`. -/
theorem exists_chdir (ha : a ≠ ROOT_DIR_SECTOR)
    (h : (initial fs).Settled M ((rootStore length).addFile ROOT_DIR_SECTOR a fileName size
      isDirectory) P) :
    ∃ s, (initial fs).step (.chdir INITIAL_TID fileName) = some s ∧ s.cwds INITIAL_TID = some a ∧
      s.fs.Backed M ((rootStore length).addFile ROOT_DIR_SECTOR a fileName size isDirectory) P ∧
      (isDirectory = true → (initial fs).Orderly (.chdir INITIAL_TID fileName)) := by
  have hst := h.backed.stored a _ (addFile_self _ _ _ _ _ _)
  have hopn := @opened_fileName length a size isDirectory ha (hst.lt_size.trans h.backed.sound.size)
  obtain ⟨fs', hchd, hb⟩ := h.chdir_eq initial_cwds (rooted_fileName _) hopn
  refine ⟨⟨fs', update (initial fs).cwds INITIAL_TID (some a)⟩, ?_, ?_, hb,
    fun hdir cwd hcwd d hd => ?_⟩
  · simp [Session.step, hchd]
  · simp
  · cases mem_unique initial_cwds hcwd
    have hd' := (h.linked.opened_eq h.sub (h.cwds _ _ initial_cwds) _).symm.trans hd
    cases mem_unique hopn hd'
    exact h.isDirectory_tree (isDirectory_treeOf.mpr ⟨_, addFile_self _ _ _ _ _ _, hdir⟩)

end

/-- **Current directories.**  In every run of orderly calls, the current directory of every thread is
the sector of a directory. -/
theorem cwd_isDirectory (d : Disk) (fs : FileSys) (hsize : d.size < 2 ^ 32)
    (hf : FileSys.format d = some fs) (s : Session) (h : Reaches step Orderly (initial fs) s) :
    s.InDirectories := by
  obtain ⟨M, σ, P, hi⟩ := settled_of_reaches hsize hf h
  exact hi.inDirectories

/-- A thread makes a file its current directory. -/
theorem chdir_to_file : ∃ fs s a data, FileSys.format ⟨64, fun _ _ => 0⟩ = some fs ∧
    Reaches step (fun _ _ => True) (initial fs) s ∧ s.cwds INITIAL_TID = some a ∧
    s.fs.inodeData a = some data ∧ data.isDirectory = false ∧ ¬ s.InDirectories := by
  obtain ⟨fs, fs1, M, P, a, hfrm, ha, hcrt, h, -⟩ :=
    exists_created 0 false nofun (Nat.zero_le _) (by decide)
  obtain ⟨s, hstep, hs, hb, -⟩ := exists_chdir ha h
  have hst := hb.stored a _ (addFile_self _ _ _ _ _ _)
  refine ⟨fs, s, a, _, hfrm,
    .step _ (.step _ .start trivial (step_create hcrt)) trivial hstep, hs, hst.inode,
    hst.isDirectory, fun hin => ?_⟩
  obtain ⟨data', hdata', hdir⟩ := hin INITIAL_TID a hs
  rw [hst.inode, some.injEq] at hdata'
  rw [← hdata', hst.isDirectory] at hdir
  cases hdir

/-- A thread makes a directory and goes there. -/
theorem cwd_isDirectory_mkdir : ∃ fs s a, FileSys.format ⟨64, fun _ _ => 0⟩ = some fs ∧
    Reaches step Orderly (initial fs) s ∧ s.cwds INITIAL_TID = some a ∧ a ≠ ROOT_DIR_SECTOR ∧
    s.InDirectories := by
  obtain ⟨fs, fs1, M, P, a, hfrm, ha, hcrt, h, -⟩ :=
    exists_created (MAX_FILES_PER_DIR * SIZE) true (fun _ => rfl) (by decide) (by decide)
  obtain ⟨M0, P0, -, hsta, -⟩ := settled_format (by decide) hfrm
  obtain ⟨s, hstep, hs, -, hok⟩ := exists_chdir ha h
  have hmkd : (initial fs).Orderly (.mkdir INITIAL_TID fileName) :=
    ⟨by decide, fun cwd hcwd => hsta.parentIsDirectory hcwd (by decide)⟩
  have hrch : Reaches step Orderly (initial fs) s :=
    .step _ (.step _ .start hmkd (step_mkdir hcrt)) (hok rfl) hstep
  exact ⟨fs, s, a, hfrm, hrch, hs, ha, cwd_isDirectory _ fs (by decide) hfrm s hrch⟩

end Session

end Pintos
