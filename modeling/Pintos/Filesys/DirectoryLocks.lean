import Pintos.Filesys.Marking

/-! # Directory locks

`filesys_create` and `filesys_remove` lock the parent directory, and both have a return between
`directory_lock` and `directory_release`: the name that is created exists already, or the directory
that is removed is not empty.  On every other way the lock is given back.

* **One call.**  `NoNewLocks`: a lock is held by the thread that held it before, or it is free.
* **Runs.**  If no call takes one of the two returns, no lock is held between the calls, and no call
  has to wait. -/

namespace Pintos
open Bytes Walks Runs Function Option FileSys

namespace FileSys

variable {fs fs' fs₁ : FileSys} {p : ℕ} {i : Inode}

/-- Every directory lock is held by the thread that held it before, or by nobody. -/
def NoNewLocks (fs fs' : FileSys) : Prop :=
  ∀ p, fs'.holder p = fs.holder p ∨ fs'.holder p = none

theorem Grown.noNewLocks (h : Grown fs fs') : NoNewLocks fs fs' := fun p => .inl (h.holder_eq p)

theorem noNewLocks_update {new : Option Inode} (hheap : fs'.heap = update fs₁.heap p new)
    (hrest : ∀ q, q ≠ p → fs₁.holder q = fs.holder q)
    (hnew : new.bind Inode.dirLock = fs.holder p ∨ new.bind Inode.dirLock = none) :
    NoNewLocks fs fs' := by
  intro q
  by_cases hq : q = p
  · subst hq
    simp only [holder, hheap, update_self]
    exact hnew
  · refine .inl (Eq.trans ?_ (hrest q hq))
    simp [holder, hheap, update_of_ne hq]

variable {σ σ' : Store} {f : FileImage} {name : CString} {size tid : ℕ} {isDirectory ok : Bool}

theorem Creates.noNewLocks (h : Creates fs₁ σ p i f name size isDirectory ok fs' σ')
    (hrest : ∀ q, q ≠ p → fs₁.holder q = fs.holder q)
    (hname : name ≠ [] ∧ entriesOf f.bytes name = none) : NoNewLocks fs fs' := by
  cases h with
  | found hfou =>
    rw [entriesOf_eq_none] at hname
    rcases hfou with hnil | hsome
    · exact absurd hnil hname.1
    · simp [hname.2] at hsome
  | failed _ hheap => exact noNewLocks_update hheap hrest (.inr rfl)
  | created _ _ _ _ hheap => exact noNewLocks_update hheap hrest (.inr rfl)

/-- A removal of a file that is counted empty gives the lock of the parent back, and another one
does not. -/
theorem Removes.locks (h : Removes fs₁ σ p c i j f g k ok fs' σ') (hp : fs₁.heap p = some i)
    (hc : fs₁.heap c = some j) (hlock : i.dirLock = some tid)
    (hrest : ∀ q, q ≠ p → fs₁.holder q = fs.holder q) :
    (j.fileCount = 0 → NoNewLocks fs fs') ∧ (j.fileCount ≠ 0 → fs'.holder p = some tid) := by
  cases h with
  | full hfull => exact ⟨fun hemp => absurd hemp hfull, fun _ => (holder_eq hp).trans hlock⟩
  | removed hemp =>
    refine ⟨fun _ => ?_, fun hfull => absurd hemp hfull⟩
    refine @noNewLocks_update _ _ (fs₁.setInode c
      { j with openCnt := j.openCnt - 1, removed := true }) _ _ rfl (fun q hq => ?_) (.inr rfl)
    rw [← hrest q hq]
    by_cases hqc : q = c
    · subst hqc
      rw [holder_eq hc, holder_eq (update_self ..)]
    · exact holder_setInode_of_ne hqc

/-- No directory is locked. -/
def Unlocked (fs : FileSys) : Prop := ∀ p, fs.holder p = none

theorem Unlocked.of_noNewLocks (hu : fs.Unlocked) (h : NoNewLocks fs fs') : fs'.Unlocked :=
  fun p => (h p).elim (fun he => he.trans (hu p)) id

theorem not_unlocked {tid : ℕ} (h : fs.holder p = some tid) : ¬ fs.Unlocked := fun hu => by
  rw [hu p] at h
  cases h

theorem Unlocked.directoryLock (hu : fs.Unlocked) (hp : (fs.heap p).isSome) (tid : ℕ) :
    (fs.directoryLock tid p).isSome := by
  obtain ⟨i, hi⟩ := isSome_iff_exists.mp hp
  have hfree := hu p
  rw [holder_eq hi] at hfree
  simp [FileSys.directoryLock, hi, hfree]

/-- `filesys_create` waits for a directory that another thread has locked. -/
theorem Backed.filesysCreate_blocked (h : fs.Backed M σ P) (hl : WellLinked σ) (hcwd : (treeOf σ).IsDirectory cwd)
    (hroot : fs.Rooted path) (hspl : splitPathParentName path = some (parentName, name))
    (hp : fs.heap p = some i) (hprn : (treeOf σ).opened cwd parentName = some i.sector)
    (hreo : i.removed = false) (hlock : i.dirLock = some t) (hne : t ≠ tid) :
    fs.filesysCreate tid cwd path size isDirectory = none := by
  obtain ⟨q, j, fs₁, hopen, h1, hgrw, hq, hs⟩ :=
    h.filesysOpen_live hl hcwd (hroot.parent hspl) hprn
  obtain ⟨n, -, hp1⟩ := hgrw.kept p i hp
  cases h1.tidy.distinct q p _ _ hq hp1 hs
  unfold FileSys.filesysCreate
  simp only [hspl, hopen, inodeReopen_eq h1.tidy hp1, bind_eq_bind, bind_some, directoryLock]
  rw [setInode_heap]
  simp [hreo, hlock, if_neg hne]

end FileSys

namespace Session

variable {s s' : Session} {M : List ℕ} {σ : Store} {P : ℕ → Place} {fs fs' : FileSys}
  {tid cwd : ℕ} {path : CString} {c : SessionCall}

/-- The parent of a path, if it is not removed, has no entry with the name. -/
def NameIsNew (s : Session) (cwd : ℕ) (path : CString) : Prop :=
  ∀ parentName name ps f, FileSys.splitPathParentName path = some (parentName, name) →
    s.fs.tree.opened cwd parentName = some ps → s.fs.Unremoved ps → s.fs.contents ps = some f →
    name ≠ [] ∧ entriesOf f.bytes name = none

/-- What a path leads to is not open, or counted to have no files. -/
def TargetIsEmpty (s : Session) (cwd : ℕ) (path : CString) : Prop :=
  ∀ parentName name ps cs p i, FileSys.splitPathParentName path = some (parentName, name) →
    s.fs.tree.opened cwd parentName = some ps → s.fs.tree.opened cwd path = some cs →
    s.fs.heap p = some i → i.sector = cs → i.fileCount = 0

/-- What the locks need: only new names are created, and only empty directories are removed. -/
def Releases (s : Session) : SessionCall → Prop
  | .filesysCreate tid path _ | .mkdir tid path =>
    ∀ cwd, s.cwds tid = some cwd → s.NameIsNew cwd path
  | .filesysRemove tid path => ∀ cwd, s.cwds tid = some cwd → s.TargetIsEmpty cwd path
  | _ => True

/-- What a call does to the locks: it takes none for good if it releases them, and only then. -/
def Locks (fs fs' : FileSys) (releases : Prop) : Prop :=
  (releases → FileSys.NoNewLocks fs fs') ∧ (¬ releases → ¬ fs'.Unlocked)

theorem Settled.create_locks (h : s.Settled M σ P) (hcwd : s.cwds tid = some cwd) (hzero : 0 ∉ path)
    (hsize : size < 2 ^ 31) (hlnk : isDirectory = true → size = MAX_FILES_PER_DIR * DirEntry.SIZE)
    (hprn : ParentIsDirectory s.fs.tree cwd path)
    (hc : s.fs.filesysCreate tid cwd path size isDirectory = some (ok, fs')) :
    Locks s.fs fs' (s.NameIsNew cwd path) := by
  have hdir := h.cwds tid cwd hcwd
  rcases h.backed.filesysCreate_eq_some h.linked hdir hzero hsize
      (fun _ => hlnk) (h.parent_of_tree hcwd hprn) hc with
    ⟨-, -, -, hlck, -, herl⟩ | ⟨parentName, name, p, i, f, fs₁, σ', P', hspl, hopn, hshf,
      hlck, hb, hp, hun, -, hf, hd, -, -, hcre, hlock, hin, -⟩
  · refine ⟨fun _ q => .inl (hlck q), fun hno => absurd ?_ hno⟩
    intro parentName name ps f hspl hps hun
    exact absurd hun (herl parentName name ps hspl
      ((h.linked.opened_eq h.sub hdir parentName).symm.trans hps))
  · have hps := (h.linked.opened_eq h.sub hdir parentName).trans hopn
    refine ⟨fun hnew => hcre.noNewLocks hlck (hnew parentName name i.sector f hspl hps ?_
      (h.sub _ f hf)), fun hno => ?_⟩
    · exact (hshf.unremoved_iff hb.tidy hp).mpr hun
    · have hfou : name = [] ∨ (slotOf f.bytes name).isSome := by
        by_contra hnot
        refine hno fun parentName' name' ps f' hspl' hps' _ hf' => ?_
        cases mem_unique hspl hspl'
        cases mem_unique hps hps'
        cases (h.sub _ f hf).symm.trans hf'
        rw [not_or, not_isSome_iff_eq_none] at hnot
        rwa [entriesOf_eq_none]
      obtain ⟨fs2, hin2, -, hope, -⟩ := hb.createIn_found h.linked hp hf hd
        (splitPathParentName_spec hspl).1 hfou tid size isDirectory
      obtain ⟨-, rfl⟩ := hin2.symm.trans hin
      refine @not_unlocked _ p tid ?_
      rw [hope.grown.holder_eq, holder_eq hp, hlock]

theorem Settled.remove_locks (h : s.Settled M σ P)
    (hcwd : s.cwds tid = some cwd) (hok : s.Orderly (.filesysRemove tid path))
    (hc : s.fs.filesysRemove tid cwd path = some (ok, fs')) :
    Locks s.fs fs' (s.TargetIsEmpty cwd path) := by
  have hdir := h.cwds tid cwd hcwd
  have htree := h.linked.opened_eq h.sub hdir
  rcases h.backed.filesysRemove_eq_some h.linked hdir hok.1 h.undenied
      ((h.linked.removable_iff h.sub hdir).mp (hok.2 cwd hcwd)) hc with
    ⟨-, -, -, hlck, herl⟩ | ⟨p, q, name, i, j, f, g, k, fs₁, σ', P', hb, hshf, hlck, he, -,
      -, -, -, -, -, -, -, -, hrev⟩
  · refine ⟨fun _ q => .inl (hlck q), fun hno => absurd ?_ hno⟩
    intro parentName name ps cs p i hspl hps hcs
    cases (herl parentName name ps hspl ((htree parentName).symm.trans hps)).symm.trans
      ((htree path).symm.trans hcs)
  · obtain ⟨parentName, hspl, hps⟩ := he.split
    obtain ⟨hemp, hfull⟩ := hrev.locks he.parent he.child he.locked hlck
    refine ⟨fun ht => hemp ?_, fun hno => not_unlocked (hfull fun hzero => hno ?_)⟩
    · cases hq : s.fs.heap q with
      | none => exact (hshf.new q j he.child hq).2.1
      | some j0 =>
        obtain ⟨n, lock, -, hq'⟩ := hshf.kept q j0 hq
        cases mem_unique he.child hq'
        exact ht parentName name _ _ q j0 hspl ((htree parentName).trans hps)
          ((htree path).trans he.target) hq rfl
    · intro _ _ _ cs q' j0 _ _ hcs hq' hs
      cases ((htree path).trans he.target).symm.trans hcs
      obtain ⟨n, lock, -, hq1⟩ := hshf.kept q' j0 hq'
      cases hb.tidy.distinct q' q _ _ hq1 he.child hs
      cases mem_unique he.child hq1
      exact hzero

theorem locks_of_noNewLocks (h : NoNewLocks fs fs') : Locks fs fs' True :=
  ⟨fun _ => h, fun hno => absurd trivial hno⟩

theorem Locks.imp {r r' : Prop} (h : Locks fs fs' r) (hr : r ↔ r') : Locks fs fs' r' :=
  ⟨fun h' => h.1 (hr.mpr h'), fun h' => h.2 fun h'' => h' (hr.mp h'')⟩

theorem forall_cwd_iff {Q : ℕ → Prop} (hcwd : s.cwds tid = some cwd) :
    Q cwd ↔ ∀ cwd, s.cwds tid = some cwd → Q cwd :=
  ⟨fun hq _ hcwd' => mem_unique hcwd hcwd' ▸ hq, fun hq => hq cwd hcwd⟩

/-- No call but the two takes a lock, and the two give it back if and only if they do not take one
of the two returns. -/
theorem Settled.locks_step (h : s.Settled M σ P) (hok : s.Orderly c) (hs : s.step c = some s') :
    Locks s.fs s'.fs (s.Releases c) := by
  cases c with
  | filesysCreate tid path initialSize =>
    obtain ⟨cwd, hcwd, hs⟩ := bind_eq_some_iff.mp hs
    obtain ⟨⟨ok, fs⟩, hc, hs⟩ := bind_eq_some_iff.mp hs
    cases hs
    exact (h.create_locks hcwd hok.1 hok.2.1 (fun hd => by cases hd) (hok.2.2 cwd hcwd) hc).imp
      (forall_cwd_iff (Q := fun cwd => s.NameIsNew cwd path) hcwd)
  | mkdir tid path =>
    obtain ⟨cwd, hcwd, hs⟩ := bind_eq_some_iff.mp hs
    obtain ⟨⟨ok, fs⟩, hc, hs⟩ := bind_eq_some_iff.mp hs
    cases hs
    exact (h.create_locks hcwd hok.1 (by decide) (fun _ => by rfl) (hok.2 cwd hcwd) hc).imp
      (forall_cwd_iff (Q := fun cwd => s.NameIsNew cwd path) hcwd)
  | filesysRemove tid path =>
    obtain ⟨cwd, hcwd, hs⟩ := bind_eq_some_iff.mp hs
    obtain ⟨⟨ok, fs⟩, hc, hs⟩ := bind_eq_some_iff.mp hs
    cases hs
    exact (h.remove_locks hcwd hok hc).imp
      (forall_cwd_iff (Q := fun cwd => s.TargetIsEmpty cwd path) hcwd)
  | filesysOpen tid path =>
    obtain ⟨cwd, hcwd, hs⟩ := bind_eq_some_iff.mp hs
    obtain ⟨⟨file, fs⟩, ho, hs⟩ := bind_eq_some_iff.mp hs
    cases hs
    exact locks_of_noNewLocks (h.open hcwd ho).2.1.noNewLocks
  | fileClose p =>
    obtain ⟨fs, hc, hs⟩ := bind_eq_some_iff.mp hs
    cases hs
    cases hp : s.fs.heap p with
    | none => simp [inodeClose, hp] at hc
    | some i =>
      obtain ⟨fs₁, hcls, -, hheap⟩ := h.backed.inodeClose hp (hok i hp)
      cases mem_unique hcls hc
      refine locks_of_noNewLocks (noNewLocks_update hheap (fun _ _ => rfl) ?_)
      split_ifs
      · exact .inr rfl
      · exact .inl (holder_eq hp).symm
  | fileWrite p buf offset =>
    obtain ⟨⟨n, fs⟩, hw, hs⟩ := bind_eq_some_iff.mp hs
    cases hs
    cases hp : s.fs.heap p with
    | none => simp [inodeWriteAt, hp] at hw
    | some i =>
      obtain ⟨f, hf, -, -⟩ := h.backed.open_inode hp
      obtain ⟨data, v, bytes, P', hfs, -⟩ :=
        h.backed.inodeWriteAt_eq_some hp hf hok.1 hok.2.1 hw
      refine locks_of_noNewLocks (noNewLocks_update
        (show _ = update s.fs.heap p (some { i with data }) from ?_)
        (fun _ _ => rfl) (.inl (holder_eq hp).symm))
      rw [hfs]
      rfl
  | chdir tid path =>
    obtain ⟨⟨ok, s1⟩, hc, hs⟩ := bind_eq_some_iff.mp hs
    cases hs
    exact locks_of_noNewLocks (h.chdir hok hc).2.noNewLocks
  | threadCreate tid new =>
    obtain ⟨cwd, hcwd, hs⟩ := bind_eq_some_iff.mp hs
    split_ifs at hs
    cases hs
    exact locks_of_noNewLocks fun _ => .inl rfl
  | threadExit tid =>
    cases hs
    exact locks_of_noNewLocks fun _ => .inl rfl
  | remount =>
    obtain ⟨fs, hm, hs⟩ := bind_eq_some_iff.mp hs
    cases hs
    obtain ⟨fs₁, hm1, -, hheap, -⟩ := h.backed.mount h.map hok
    cases mem_unique hm1 hm
    refine locks_of_noNewLocks fun p => .inr ?_
    simp [initial, holder, hheap]

theorem unlocked_format (hsize : d.size < 2 ^ 32) (hf : format d = some fs) : fs.Unlocked := by
  obtain ⟨M, P, data, -, hheap⟩ := settled_format hsize hf
  intro p
  simp only [holder, hheap, update_apply]
  split_ifs <;> rfl

/-- **Directory locks are given back.**  In every state that orderly calls lead to, a call that
creates a new name or removes an empty directory, and every other call, leaves no lock behind; if no
directory is locked before, this is so for no other call.  In every run of such calls no directory
is locked between the calls, so no thread ever has to wait for one that has returned. -/
theorem directory_locks_given_back (d : Disk) (fs : FileSys) (hsize : d.size < 2 ^ 32)
    (hf : FileSys.format d = some fs) (s : Session) (h : Reaches step Orderly (initial fs) s) :
    (∀ c s', s.Orderly c → s.step c = some s' →
      (s.Releases c → FileSys.NoNewLocks s.fs s'.fs) ∧
      (s.fs.Unlocked → (s'.fs.Unlocked ↔ s.Releases c))) ∧
    (Reaches step (fun s c => s.Orderly c ∧ s.Releases c) (initial fs) s →
      s.fs.Unlocked ∧ ∀ tid p, (s.fs.heap p).isSome → (s.fs.directoryLock tid p).isSome) := by
  refine ⟨fun c s' hok hs => ?_, fun hrun => ?_⟩
  · obtain ⟨M, σ, P, hstl⟩ := settled_of_reaches hsize hf h
    obtain ⟨hnew, hold⟩ := hstl.locks_step hok hs
    exact ⟨hnew, fun hu => ⟨not_imp_not.mp hold, fun hr => hu.of_noNewLocks (hnew hr)⟩⟩
  · have hu : s.fs.Unlocked := by
      obtain ⟨M, P, data, h0, -⟩ := settled_format hsize hf
      refine (hrun.invariant (P := fun s : Session => (∃ M σ P, s.Settled M σ P) ∧ s.fs.Unlocked)
        ⟨⟨M, _, P, h0⟩, unlocked_format hsize hf⟩ fun s c s' hi hok hs => ?_).2
      obtain ⟨⟨M, σ, P, hstl⟩, hu⟩ := hi
      obtain ⟨σ', P', hstl', -⟩ := hstl.step hok.1 hs
      exact ⟨⟨M, σ', P', hstl'⟩, hu.of_noNewLocks ((hstl.locks_step hok.1 hs).1 hok.2)⟩
    exact ⟨hu, fun tid p hp => hu.directoryLock hp tid⟩

theorem nameIsNew_format (hsize : d.size < 2 ^ 32) (hf : format d = some fs) :
    (initial fs).NameIsNew ROOT_DIR_SECTOR fileName := by
  obtain ⟨M, P, data, h, -⟩ := settled_format hsize hf
  intro parentName name ps f hspl hps _ hroot
  cases mem_unique split_fileName hspl
  cases hps
  cases (h.sub _ _ (update_self ..)).symm.trans hroot
  refine ⟨by decide, ?_⟩
  rw [entriesOf_linkBytes (by decide) (by decide), update_of_ne (by decide),
    update_of_ne (by decide)]

/-- A file is created in the root directory, and every directory can be locked. -/
theorem directory_locks_given_back_created : ∃ fs s,
    FileSys.format ⟨64, fun _ _ => 0⟩ = some fs ∧ Reaches step Orderly (initial fs) s ∧
    (initial fs).step (.filesysCreate INITIAL_TID fileName 0) = some s ∧ s.fs.Unlocked := by
  obtain ⟨fs, fs₁, M, σ, P, a, hfrm, -, hcrt, -⟩ :=
    exists_oneFile 0 false nofun (by decide) (by decide)
  have hok : (initial fs).Orderly (.filesysCreate INITIAL_TID fileName 0) :=
    orderly_create (by decide) hfrm (by decide)
  have hstep := step_create hcrt
  have hnew : (initial fs).Releases (.filesysCreate INITIAL_TID fileName 0) := fun cwd hcwd => by
    obtain rfl := mem_unique initial_cwds hcwd
    exact nameIsNew_format (by decide) hfrm
  have hrch : Reaches step Orderly (initial fs) (initial fs₁) := .step _ .start hok hstep
  exact ⟨fs, initial fs₁, hfrm, hrch, hstep,
    ((directory_locks_given_back _ fs (by decide) hfrm _ hrch).2
      (.step _ .start ⟨hok, hnew⟩ hstep)).1⟩

/-- Two threads in the root directory. -/
def twoThreads (fs : FileSys) : Session :=
  ⟨fs, update (initial fs).cwds (INITIAL_TID + 1) (some ROOT_DIR_SECTOR)⟩

/-- A file is created a second time.  The call fails, and no other thread can create a file in the
root directory after it. -/
theorem directory_left_locked : ∃ fs s s' p,
    FileSys.format ⟨64, fun _ _ => 0⟩ = some fs ∧ Reaches step (fun _ _ => True) (initial fs) s ∧
    s.fs.Unlocked ∧ s.step (.filesysCreate INITIAL_TID fileName 0) = some s' ∧
    s'.fs.holder p = some INITIAL_TID ∧ s'.cwds (INITIAL_TID + 1) = some ROOT_DIR_SECTOR ∧
    s'.step (.filesysCreate (INITIAL_TID + 1) otherName 0) = none := by
  obtain ⟨fs, fs₁, M, σ, P, a, hfrm, -, hcrt, h, hfile, hone⟩ :=
    exists_oneFile 0 false nofun (by decide) (by decide)
  have hu : fs₁.Unlocked := by
    obtain ⟨M0, P0, data, h0, -⟩ := settled_format (by decide) hfrm
    refine (unlocked_format (by decide) hfrm).of_noNewLocks ((h0.locks_step
      (orderly_create (by decide) hfrm (by decide)) (step_create hcrt)).1 fun cwd hcwd => ?_)
    obtain rfl := mem_unique initial_cwds hcwd
    exact nameIsNew_format (by decide) hfrm
  have hunr : fs₁.Unremoved ROOT_DIR_SECTOR := fun q j hq _ => (hone.2 q j hq).1
  have hdir := h.cwds _ _ initial_cwds
  obtain ⟨f, hf, hd⟩ := isDirectory_treeOf.mp hdir
  obtain ⟨fs', p, i, hagn, hb, hshf, hp, hs, hlock⟩ : ∃ fs' p i,
      fs₁.filesysCreate INITIAL_TID ROOT_DIR_SECTOR fileName 0 false = some (false, fs') ∧
      fs'.Backed M σ P ∧ Shifted fs₁ fs' ∧ fs'.heap p = some i ∧
      i.sector = ROOT_DIR_SECTOR ∧ i.dirLock = some INITIAL_TID :=
    h.backed.filesysCreate_found h.linked hdir (rooted_fileName _) split_fileName rfl
      (fun q j hq _ => .inl ((holder_eq hq).symm.trans (hu q))) hunr hf hd
      (.inr (hfile.isSome_slotOf hf hd))
  have hblc : fs'.filesysCreate (INITIAL_TID + 1) ROOT_DIR_SECTOR otherName 0 false = none :=
    hb.filesysCreate_blocked h.linked hdir (fun hhead => by cases hhead) split_otherName hp
      (show (treeOf _).opened ROOT_DIR_SECTOR [] = some i.sector from hs ▸ rfl)
      ((hshf.unremoved_iff hb.tidy hp).mp (hs ▸ hunr)) hlock (by decide)
  -- the other thread is made before the second call
  have hcwds : (twoThreads fs₁).cwds INITIAL_TID = some ROOT_DIR_SECTOR := rfl
  have hcwds' : (twoThreads fs').cwds (INITIAL_TID + 1) = some ROOT_DIR_SECTOR := rfl
  refine ⟨fs, twoThreads fs₁, twoThreads fs', p, hfrm,
    .step (.threadCreate INITIAL_TID (INITIAL_TID + 1))
      (.step _ .start trivial (step_create hcrt)) trivial rfl, hu, ?_,
    (holder_eq hp).trans hlock, hcwds', ?_⟩
  · simp only [step, hcwds, show (twoThreads fs₁).fs = fs₁ from rfl, hagn, bind_eq_bind, bind_some]
    rfl
  · simp only [step, hcwds', show (twoThreads fs').fs = fs' from rfl, hblc, bind_eq_bind,
      bind_some, bind_none]

end Session

end Pintos
