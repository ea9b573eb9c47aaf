import Pintos.Filesys.DirectoryLocks

/-! # Failed creations

`filesys_create` can return false at six places.  What it has done by then is not always undone: the
inodes that the path leads through stay open, and so does the file that has the name already; of the
sectors that have been allocated, only some are released.

* **Inodes.**  What the path of the parent comes to behind its start stays open, and so does the file
  that has the name: `OpensNothing` says that these were open.
* **Sectors.**  With fewer than four free sectors, `inode_create` releases all that it has allocated;
  with four or more, a sector is lost.
* **Everything.**  A call that returns false has no effect exactly if neither happens. -/

namespace Pintos
open Bytes Walks Runs Function Option FileSys

namespace FileSys

variable {fs fs' fs'' : FileSys} {M : List ℕ} {σ : Store} {P : ℕ → Place} {t : Tree}
  {p cwd tid : ℕ} {i : Inode} {f : FileImage} {path name : CString}

/-! ### Creating -/

/-- With fewer than four free sectors a new name cannot be created, and nothing has changed but the
parent, which is released. -/
theorem Backed.createIn_full (h : fs.Backed M σ P)
    (hl : WellLinked σ) (hp : fs.heap p = some i) (hf : σ i.sector = some f)
    (hd : f.isDirectory = true) (hcnt : 1 < i.openCnt) (hlock : i.dirLock = some tid)
    (hname : name ≠ []) (hsls : slash ∉ name) (hnew : slotOf f.bytes name = none)
    (hsize : size < 2 ^ 31) (hfew : fs.vol.freeSectors.length < 4)
    (hc : fs.createIn tid p name size isDirectory = some (ok, fs')) :
    ok = false ∧ fs'.Backed M σ P ∧ fs'.vol.freeSectors = fs.vol.freeSectors ∧
      fs'.heap = update fs.heap p
        (some { i with openCnt := i.openCnt - 1, dirLock := none }) := by
  unfold FileSys.createIn at hc
  rw [dirLookup_name hname hsls, h.lookup hp hf (hl.small _ f hf hd)] at hc
  simp only [hnew, map_none, bind_eq_bind, bind_some, hp] at hc
  obtain ⟨⟨success, a, fs1⟩, henr, hend⟩ := bind_eq_some_iff.mp hc
  unfold createEntry at henr
  cases hfree : fs.vol.freeSectors with
  | nil =>
    simp only [Volume.freeMapAllocateSingle_none hfree] at henr
    obtain ⟨rfl, rfl, rfl⟩ := henr
    obtain ⟨fs2, hcls, h', hheap, hvol⟩ := h.closeAndRelease hp hcnt hlock
    obtain ⟨rfl, rfl⟩ := (hcls false).symm.trans hend
    exact ⟨rfl, h', by rw [hvol, hfree], hheap⟩
  | cons b rest =>
    obtain ⟨v1, halc, ha⟩ := h.sound.allocate hfree
    obtain ⟨v₁', halc', h1, hun, hrest⟩ := h.allocate hfree
    obtain ⟨⟩ := halc.symm.trans halc'
    have hb := hfree ▸ List.mem_cons_self
    have hapr := h.sound.apart_of_free hb
    have hb1 : Backed { fs with vol := v1 } M σ P :=
      ⟨h1, h.sound.mirrored_allocate h.mirrored halc, h.zero⟩
    simp only [halc, bind_eq_bind, bind_some] at henr
    obtain ⟨⟨created, v2⟩, hcrt, henr⟩ := bind_eq_some_iff.mp henr
    have hcra := hb1.inodeCreate_eq_some hun hapr.1 hsize hcrt
    obtain ⟨rfl, hmap2, hspec⟩ := h1.sound.inodeCreate_few
      (by rw [hrest]; rw [hfree, List.length_cons] at hfew; omega) hcrt
    obtain ⟨-, hspr, -⟩ := hspec hapr.2
    obtain ⟨rfl, rfl, rfl⟩ := henr
    simp only [ne_eq, hapr.1] at hend
    obtain ⟨v3, hrls, hend⟩ := bind_eq_some_iff.mp hend
    obtain ⟨-, hmap3, -, hsame3⟩ := hcra.1.sound.of_release hapr hrls
    obtain ⟨fs2, hcls, h', hheap, hvol⟩ :=
      (hcra.1.release hcra.2 hapr.1 hrls).closeAndRelease hp hcnt hlock
    obtain ⟨rfl, rfl⟩ := (hcls false).symm.trans hend
    refine ⟨rfl, h', ?_, hheap⟩
    have hfre : v3.freeMap = fs.vol.freeMap := by
      rw [hmap3, hmap2, ha.map, Volume.reset_mark (Volume.mem_freeSectors.mp hb).2]
    rw [hvol, ← hfree]
    unfold Volume.freeSectors
    rw [hfre, hsame3.1, hspr.size, ha.same.1]

end FileSys

/-! ### No effect -/

namespace Session

variable {s : Session} {M : List ℕ} {σ : Store} {P : ℕ → Place} {fs fs' : FileSys}
  {tid cwd size : ℕ} {path : CString} {isDirectory : Bool}

/-- The free map, the files and directories that can be reached, the counters and the set of open
inodes are those from before. -/
structure NoEffect (s : Session) (fs' : FileSys) : Prop where
  free : fs'.vol.freeSectors = s.fs.vol.freeSectors
  contents : ∀ d, s.Linked d → fs'.contents d = s.fs.contents d
  count : ∀ p i, s.fs.heap p = some i →
    ∃ i', fs'.heap p = some i' ∧ i'.sector = i.sector ∧ i'.fileCount = i.fileCount
  opened : FileSys.SameOpen s.fs fs'

/-- A creation does not get to the point where sectors are lost: there is no parent, or it is marked
as removed, or it has the name already, or there are fewer than four free sectors. -/
def FailsEarly (s : Session) (cwd : ℕ) (path : CString) : Prop :=
  ∀ parentName name ps f, FileSys.splitPathParentName path = some (parentName, name) →
    s.fs.tree.opened cwd parentName = some ps → s.fs.Unremoved ps → s.fs.contents ps = some f →
    name = [] ∨ (entriesOf f.bytes name).isSome ∨ s.fs.vol.freeSectors.length < 4

/-- The inodes that a creation leaves open are open already: those on the path of the parent, and the
file that has the name, if it is looked for. -/
def OpensNothing (s : Session) (cwd : ℕ) (path : CString) : Prop :=
  s.fs.ReopensParent s.fs.tree cwd path ∧
    ∀ parentName name ps c, splitPathParentName path = some (parentName, name) → name ≠ [] →
      s.fs.tree.opened cwd parentName = some ps → s.fs.Unremoved ps →
      s.fs.tree.child ps name = some c → (s.fs.findOpen c).isSome

theorem Settled.reopensParent_iff (h : s.Settled M σ P) (hdir : (treeOf σ).IsDirectory cwd)
    (path : CString) :
    s.fs.ReopensParent s.fs.tree cwd path ↔ s.fs.ReopensParent (treeOf σ) cwd path := by
  refine forall₃_congr fun parentName _ _ => ?_
  rw [Reopens, Reopens, show s.fs.tree = treeOf s.fs.contents from rfl,
    h.linked.passed_eq h.sub hdir]

section
variable (h : s.Settled M σ P)
include h

theorem Settled.tree_child (hf : σ a = some f) (hd : f.isDirectory = true) (name : CString) :
    s.fs.tree.child a name = entriesOf f.bytes name := by
  rw [show s.fs.tree = treeOf s.fs.contents from rfl, child_treeOf (h.sub a f hf) hd]

/-- A creation that has only opened inodes. -/
theorem Settled.noEffect_iff_sameOpen (hb : fs'.Backed M σ P)
    (hfree : fs'.vol.freeSectors = s.fs.vol.freeSectors)
    (hkept : ∀ p i, s.fs.heap p = some i →
      ∃ n lock, fs'.heap p = some { i with openCnt := n, dirLock := lock }) :
    s.NoEffect fs' ↔ SameOpen s.fs fs' := by
  refine ⟨NoEffect.opened, fun hsame => ⟨hfree, fun d hd => ?_, fun p i hp => ?_, hsame⟩⟩
  · obtain ⟨f, hf⟩ := isSome_iff_exists.mp (h.isSome_of_linked hd)
    rw [h.sub d f hf, hb.contents d f hf]
  · obtain ⟨n, lock, hp'⟩ := hkept p i hp
    exact ⟨_, hp', rfl, rfl⟩

theorem Settled.findOpen_of_sameOpen (hsame : SameOpen s.fs fs') (hshf : Shifted s.fs fs')
    (hc : (fs'.findOpen c).isSome) : (s.fs.findOpen c).isSome := by
  obtain ⟨q, hq⟩ := isSome_iff_exists.mp hc
  obtain ⟨-, j, hj, rfl⟩ := findOpen_eq_some hq
  obtain ⟨k, hk⟩ := isSome_iff_exists.mp ((hsame q).symm.trans (by rw [hj]; rfl))
  obtain ⟨n, lock, -, hk'⟩ := hshf.kept q k hk
  cases mem_unique hj hk'
  exact h.backed.tidy.isSome_findOpen hk rfl

/-- **Failed creation has no effect.**  In every state in which the files and directories are in order,
a creation below a directory that returns false leaves the free map, all files and directories, the
counters and the set of open inodes as they were, exactly if it returns before sectors are lost and
the inodes that it leaves open were open. -/
theorem Settled.failed_creation_no_effect_iff (tid cwd size : ℕ) (path : CString) (isDirectory : Bool)
    (fs' : FileSys) (hcwd : s.cwds tid = some cwd) (hzero : 0 ∉ path) (hlt : size < 2 ^ 31)
    (hparent : ParentIsDirectory s.fs.tree cwd path)
    (hc : s.fs.filesysCreate tid cwd path size isDirectory = some (false, fs')) :
    s.NoEffect fs' ↔ s.OpensNothing cwd path ∧ s.FailsEarly cwd path := by
  have hdir := h.cwds tid cwd hcwd
  have hreo := h.reopensParent_iff hdir path
  have hopq (parentName) : s.fs.tree.opened cwd parentName = (treeOf σ).opened cwd parentName :=
    h.linked.opened_eq h.sub hdir parentName
  unfold OpensNothing
  rcases h.backed.filesysCreate_eq_some h.linked hdir hzero hlt
      (fun hno => absurd hno Bool.false_ne_true) (h.parent_of_tree hcwd hparent) hc with
    ⟨-, hb, hshf, -, hopen, hrem⟩ | ⟨parentName, name, p, i, f, fs1, σ', P', hspl, hopn, hshf,
      -, hb, hp, hun, hcnt, hf, hd, -, -, hcre, hlock, hin, hopen⟩
  · -- the parent has not been found, or it is marked
    rw [h.noEffect_iff_sameOpen hb hshf.free fun p i hp => (hshf.kept p i hp).imp fun _ =>
      .imp fun _ => And.right, hopen, hreo]
    refine ⟨fun hre => ⟨⟨hre, fun _ _ ps _ hs _ hps hun => ?_⟩, fun _ _ ps _ hs hps hun => ?_⟩,
      fun hre => hre.1.1⟩
    all_goals exact absurd hun (hrem _ _ ps hs (hopq _ ▸ hps))
  have hspec := splitPathParentName_spec hspl
  have hunr := (hshf.unremoved_iff hb.tidy hp).mpr hun
  have hpar := (hopq parentName).trans hopn
  have hcon := h.sub _ f hf
  have hchl := h.tree_child hf hd
  by_cases hfou : name = [] ∨ (slotOf f.bytes name).isSome
  · obtain ⟨fs2, hin2, hb2, hope, htgt⟩ :=
      hb.createIn_found h.linked hp hf hd hspec.1 hfou tid size isDirectory
    obtain ⟨⟩ := hin2.symm.trans hin
    have hshf2 := hshf.trans hope.grown.shifted
    rw [h.noEffect_iff_sameOpen hb2 hshf2.free fun p i hp => (hshf2.kept p i hp).imp fun _ =>
      .imp fun _ => And.right]
    constructor
    · intro hsame
      refine ⟨⟨hreo.mpr (hopen.mp (hsame.left hshf hope.grown.shifted)),
        fun _ name' ps c hs hne hps _ hc => ?_⟩, fun _ name' ps g hs hps _ hg => ?_⟩
      · obtain ⟨⟩ := hspl.symm.trans hs
        cases mem_unique hpar hps
        exact h.findOpen_of_sameOpen hsame hshf2 (htgt hne c (hchl _ ▸ hc))
      · obtain ⟨⟩ := hspl.symm.trans hs
        cases mem_unique hpar hps
        cases mem_unique hcon hg
        refine hfou.imp_right fun hslot => .inl ?_
        rwa [entriesOf, isSome_map]
    · rintro ⟨⟨hre, hall⟩, -⟩
      refine (hopen.mpr (hreo.mp hre)).trans (hope.sameOpen fun c hc => ?_)
      exact hshf.findOpen hb.tidy (hall parentName name i.sector c hspl hc.1 hpar hunr
        ((hchl _).trans hc.2))
  obtain ⟨hname, hslot⟩ := not_or.mp hfou
  rw [not_isSome_iff_eq_none] at hslot
  by_cases hfew : s.fs.vol.freeSectors.length < 4
  · obtain ⟨-, hb2, hfree, hheap⟩ := hb.createIn_full h.linked hp hf hd hcnt hlock hname hspec.1
      hslot hlt (hshf.free.symm ▸ hfew) hin
    rw [h.noEffect_iff_sameOpen hb2 (hfree.trans hshf.free) fun q j hq => ?_,
      sameOpen_iff_update hp hheap, hopen, hreo]
    · refine ⟨fun hre => ⟨⟨hre, fun _ _ ps c hs _ hps _ hc => ?_⟩, fun _ _ _ _ _ _ _ _ =>
        .inr (.inr hfew)⟩, fun hre => hre.1.1⟩
      obtain ⟨⟩ := hspl.symm.trans hs
      cases mem_unique hpar hps
      rw [hchl, entriesOf_eq_none.mpr hslot] at hc
      cases hc
    · obtain ⟨n, lock, -, hq1⟩ := hshf.kept q j hq
      rw [hheap, update_apply]
      split_ifs with hqp
      · subst hqp
        cases mem_unique hp hq1
        exact ⟨_, _, rfl⟩
      · exact ⟨_, _, hq1⟩
  · refine iff_of_false (fun hno => ?_) fun hearly => ?_
    · cases hcre with
      | found hname => exact hfou hname
      | failed _ _ hleak =>
        obtain ⟨x, hx, hmrk⟩ := hleak (by rw [hshf.free]; exact not_lt.mp hfew)
        rw [hshf.free, ← hno.free] at hx
        simp [(Volume.mem_freeSectors.mp hx).2] at hmrk
    · rcases hearly.2 parentName name i.sector f hspl hpar hunr hcon with hnil | hsome | hlow
      · exact hname hnil
      · rw [entriesOf_eq_none.mpr hslot] at hsome
        cases hsome
      · exact hfew hlow

end

/-- `.` cannot be created in the root directory of a formatted device. -/
theorem failed_creation_no_effect_dot : ∃ fs fs', FileSys.format ⟨64, fun _ _ => 0⟩ = some fs ∧
    fs.filesysCreate INITIAL_TID ROOT_DIR_SECTOR childLink 0 false = some (false, fs') ∧
    (initial fs).NoEffect fs' := by
  obtain ⟨fs, -, -, -, hfrm, -⟩ := exists_formatted
  obtain ⟨M, P, data, h, hheap⟩ := settled_format (by decide) hfrm
  generalize MAX_FILES_PER_DIR * DirEntry.SIZE = length at h
  have hspl : splitPathParentName childLink = some ([], childLink) := by decide
  have hself : fs.heap 0 = some ⟨ROOT_DIR_SECTOR, 1, false, 0, data, 0, none⟩ := by
    rw [hheap, update_self]
  have hopen := h.backed.tidy.isSome_findOpen hself rfl
  have hdir := h.cwds _ _ initial_cwds
  obtain ⟨f, hf, hd⟩ := isDirectory_treeOf.mp hdir
  have henr : entriesOf f.bytes childLink = some ROOT_DIR_SECTOR := by
    rw [← child_treeOf hf hd, child_rootStore, if_pos (.inl rfl)]
  have hslot : (slotOf f.bytes childLink).isSome := by
    obtain ⟨k, hk, -⟩ := map_eq_some_iff.mp henr
    rw [hk]
    rfl
  obtain ⟨fs', -, -, hcrt, -⟩ : ∃ fs' p i,
      fs.filesysCreate INITIAL_TID ROOT_DIR_SECTOR childLink 0 false = some (false, fs') ∧
      fs'.Backed M (rootStore length) P ∧ Shifted fs fs' ∧ fs'.heap p = some i ∧
      i.sector = ROOT_DIR_SECTOR ∧ i.dirLock = some INITIAL_TID :=
    h.backed.filesysCreate_found h.linked hdir (fun hhead => by cases hhead) hspl rfl
      (fun p i hp _ => .inl (by rw [eq_of_heap_update hheap hp]))
      (fun p i hp _ => by rw [eq_of_heap_update hheap hp]) hf hd (.inr hslot)
  have hchl := h.tree_child hf hd
  refine ⟨fs, fs', hfrm, hcrt, (h.failed_creation_no_effect_iff INITIAL_TID ROOT_DIR_SECTOR 0
    childLink false fs' initial_cwds (by decide) (by decide)
    (h.parentIsDirectory initial_cwds (by decide)) hcrt).mpr ⟨⟨fun parentName name hs => ?_,
      fun parentName name ps c hs _ hps _ hc => ?_⟩, fun parentName name ps g hs hps _ hg => ?_⟩⟩
  all_goals obtain ⟨⟩ := hspl.symm.trans hs
  · exact ⟨fun _ => hopen, by simp [passed]⟩
  · obtain rfl : ROOT_DIR_SECTOR = ps := some.inj hps
    obtain rfl : ROOT_DIR_SECTOR = c := by
      rw [hchl, henr] at hc
      exact some.inj hc
    exact hopen
  · obtain rfl : ROOT_DIR_SECTOR = ps := some.inj hps
    cases mem_unique (h.sub _ f hf) hg
    rw [henr]
    exact .inr (.inl rfl)

/-- A file is created a second time, after everything has been closed.  The call fails, and the root
directory stays open. -/
theorem failed_creation_opens : ∃ fs s fs' p, FileSys.format ⟨64, fun _ _ => 0⟩ = some fs ∧
    Reaches step (fun _ _ => True) (initial fs) s ∧ s.cwds INITIAL_TID = some ROOT_DIR_SECTOR ∧
    s.fs.filesysCreate INITIAL_TID ROOT_DIR_SECTOR fileName 0 false = some (false, fs') ∧
    s.fs.heap p = none ∧ (fs'.heap p).isSome ∧ ¬ s.NoEffect fs' := by
  obtain ⟨fs, fs1, M, σ, P, a, hfrm, -, hcrt, h, hfile, hone⟩ :=
    exists_oneFile 0 false nofun (by decide) (by decide)
  obtain ⟨s, hrch, hs, hcwds, hheap⟩ := h.exists_closed fun p i hp => (hone.2 p i hp).1
  have hcwd : s.cwds INITIAL_TID = some ROOT_DIR_SECTOR := by rw [hcwds, initial_cwds]
  have hclo : ∀ p i, s.fs.heap p ≠ some i := fun p i hp => by
    rw [hheap] at hp
    cases hp
  have hdir := hs.cwds _ _ hcwd
  obtain ⟨f, hf, hd⟩ := isDirectory_treeOf.mp hdir
  obtain ⟨fs', p, i, hagn, -, -, hp, -⟩ :=
    hs.backed.filesysCreate_found hs.linked hdir (rooted_fileName _) split_fileName rfl
      (fun q j hq _ => absurd hq (hclo q j)) (fun q j hq _ => absurd hq (hclo q j)) hf hd
      (.inr (hfile.isSome_slotOf hf hd))
  have hnone := congrFun hheap p
  refine ⟨fs, s, fs', p, hfrm, Reaches.trans (.step _ .start trivial (step_create hcrt))
    hrch.any, hcwd, hagn, hnone, by rw [hp]; rfl, fun hno => ?_⟩
  have hsame := hno.opened p
  rw [hp, hnone] at hsame
  cases hsame

end Session

end Pintos
