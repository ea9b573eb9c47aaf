import Mathlib.Data.List.TakeWhile
import Pintos.Filesys.OpenInodes
import Pintos.Lib.Runs

/-! # References to open inodes

A `struct file`, a `struct dir` and a pointer from `inode_open` each stand for one reference to an
inode, which `open_cnt` counts.  `Refs fs l`: the references in `l` are counted.  The calls that open
something hand a counted reference to their caller, with one exception: `filesys_open` of a path of
slashes returns a file for the directory that it closes.

The device may hold anything; what is read from it decides only which inodes are opened. -/

namespace Pintos
open Runs Function Option List FileSys

namespace FileSys

variable {fs fs' : FileSys} {l l' : List ℕ} {p s dir fuel : ℕ} {path : CString}

/-! ### Counted references -/

/-- The references in `l` are to open inodes, and are counted. -/
structure Refs (fs : FileSys) (l : List ℕ) : Prop where
  old : ∀ p ∈ fs.openInodes, p < fs.next
  counted : ∀ p ∈ l, p ∈ fs.openInodes ∧ ∃ i, fs.heap p = some i ∧ l.count p ≤ i.openCnt

theorem Refs.mono (h : Refs fs l) (hl : ∀ p, l'.count p ≤ l.count p) : Refs fs l' where
  old := h.old
  counted p hp := by
    have hpos := (count_pos_iff.mpr hp).trans_le (hl p)
    obtain ⟨hin, i, hi, hcou⟩ := h.counted p (count_pos_iff.mp hpos)
    exact ⟨hin, i, hi, (hl p).trans hcou⟩

theorem Refs.tail (h : Refs fs (p :: l)) : Refs fs l := h.mono fun _ => count_le_count_cons

theorem Refs.cons_of_lt (h : Refs fs l) (hin : p ∈ fs.openInodes)
    (hp : fs.heap p = some i) (hlt : l.count p < i.openCnt) : Refs fs (p :: l) where
  old := h.old
  counted q hq := by
    by_cases hqp : q = p
    · subst hqp
      exact ⟨hin, i, hp, by rwa [count_cons_self]⟩
    · obtain ⟨hqin, j, hj, hcou⟩ := h.counted q ((mem_cons.mp hq).resolve_left hqp)
      exact ⟨hqin, j, hj, by rwa [count_cons_of_ne (Ne.symm hqp)]⟩

theorem Refs.inodeReopen (h : Refs fs l) (hin : p ∈ fs.openInodes)
    (hr : fs.inodeReopen p = some fs') : Refs fs' (p :: l) := by
  simp only [FileSys.inodeReopen, bind_eq_bind, bind_eq_some_iff,
    ite_none_right_eq_some, some.injEq] at hr
  obtain ⟨i, hp, -, rfl⟩ := hr
  refine ⟨h.old, fun q hq => ?_⟩
  by_cases hqp : q = p
  · subst hqp
    refine ⟨hin, _, update_self .., ?_⟩
    rw [count_cons_self]
    refine Nat.succ_le_succ ?_
    by_cases hq : q ∈ l
    · obtain ⟨-, j, hj, hcou⟩ := h.counted q hq
      cases mem_unique hp hj
      exact hcou
    · rw [count_eq_zero_of_not_mem hq]
      exact Nat.zero_le _
  · obtain ⟨hqin, j, hj, hcou⟩ := h.counted q ((mem_cons.mp hq).resolve_left hqp)
    refine ⟨hqin, j, (update_of_ne hqp ..).trans hj, ?_⟩
    rwa [count_cons_of_ne (Ne.symm hqp)]

theorem Refs.inodeOpen (h : Refs fs l) (ho : fs.inodeOpen s = some (p, fs')) :
    Refs fs' (p :: l) := by
  unfold FileSys.inodeOpen at ho
  cases hfind : fs.findOpen s with
  | some q =>
    simp only [hfind, bind_eq_bind, bind_eq_some_iff] at ho
    obtain ⟨_, hr, rfl, rfl⟩ := ho
    exact h.inodeReopen (findOpen_eq_some hfind).1 hr
  | none =>
    simp only [hfind, Volume.inodeOpen, bind_eq_bind, bind_eq_some_iff,
      ite_none_right_eq_some, some.injEq] at ho
    obtain ⟨_, ⟨_, -, -, rfl⟩, rfl, rfl⟩ := ho
    have hfrs : fs.next ∉ l := fun hm => absurd (h.old _ (h.counted _ hm).1) (lt_irrefl _)
    refine ⟨fun q hq => ?_, fun q hq => ?_⟩
    · rcases mem_cons.mp hq with rfl | hq
      · exact Nat.lt_add_one _
      · exact (h.old q hq).trans (Nat.lt_add_one _)
    · by_cases hqp : q = fs.next
      · subst hqp
        refine ⟨mem_cons_self, _, update_self .., ?_⟩
        rw [count_cons_self, count_eq_zero_of_not_mem hfrs]
      · obtain ⟨hqin, j, hj, hcou⟩ := h.counted q ((mem_cons.mp hq).resolve_left hqp)
        refine ⟨mem_cons_of_mem _ hqin, j, (update_of_ne hqp ..).trans hj, ?_⟩
        rwa [count_cons_of_ne (Ne.symm hqp)]

theorem Refs.inodeClose (h : Refs fs (p :: l)) (hc : fs.inodeClose p = some fs') : Refs fs' l := by
  obtain ⟨hin, i, hp, hcou⟩ := h.counted p mem_cons_self
  rw [count_cons_self] at hcou
  have hoth : ∀ q ∈ l, q ≠ p → q ∈ fs.openInodes ∧ ∃ j, fs.heap q = some j ∧
      l.count q ≤ j.openCnt := fun q hq _ => h.tail.counted q hq
  simp only [FileSys.inodeClose, hp, bind_eq_bind, bind_some, bind_eq_some_iff, Prod.exists] at hc
  obtain ⟨v, i', hcls, hfs⟩ := hc
  simp only [Volume.inodeClose, ite_none_right_eq_some] at hcls
  obtain ⟨-, hcls⟩ := hcls
  by_cases hcnt : i.openCnt = 1
  · have hnone : i' = none := by
      rw [if_neg (not_not.mpr hcnt)] at hcls
      cases hrem : i.removed <;> simp only [hrem, if_true, bind_eq_bind,
          bind_eq_some_iff] at hcls <;>
        grind
    subst hnone
    cases hfs
    have hgone : p ∉ l := by
      rw [← count_eq_zero]
      omega
    refine ⟨fun q hq => h.old q (mem_of_mem_erase hq), fun q hq => ?_⟩
    have hqp : q ≠ p := by
      rintro rfl
      exact hgone hq
    obtain ⟨hqin, j, hj, hqcn⟩ := hoth q hq hqp
    exact ⟨(mem_erase_of_ne hqp).mpr hqin, j, (update_of_ne hqp ..).trans hj, hqcn⟩
  · rw [if_pos hcnt] at hcls
    cases hcls
    cases hfs
    refine ⟨h.old, fun q hq => ?_⟩
    by_cases hqp : q = p
    · subst hqp
      exact ⟨hin, _, update_self .., Nat.le_sub_one_of_lt hcou⟩
    · obtain ⟨hqin, j, hj, hqcn⟩ := hoth q hq hqp
      exact ⟨hqin, j, (update_of_ne hqp ..).trans hj, hqcn⟩

/-! ### Paths -/

/-- A path of slashes, which leads to the directory itself. -/
def SlashOnly (path : CString) : Prop := ∀ c ∈ path, c = slash

instance (path : CString) : Decidable (SlashOnly path) := inferInstanceAs (Decidable (∀ _ ∈ _, _))

theorem slashOnly_iff : SlashOnly path ↔ (path.dropWhile fun c => c == slash) = [] := by
  simp [SlashOnly]

/-- `dir_lookup` returns the directory itself, or what `*inode` was, or an inode that it has
opened. -/
theorem Refs.dirLookup (h : Refs fs l) (hd : dirLookup fuel fs dir path inode = some (ok, r, fs')) :
    (fs' = fs ∧ r = if SlashOnly path then some dir else inode) ∨
      ∃ p, r = some p ∧ Refs fs' (p :: l) := by
  induction fuel generalizing fs l dir path inode with
  | zero => cases hd
  | succ fuel ih =>
    unfold dirLookup at hd
    by_cases hsls : SlashOnly path
    · rw [if_pos (slashOnly_iff.mp hsls)] at hd
      obtain ⟨-, rfl, rfl⟩ := hd
      exact .inl ⟨rfl, (if_pos hsls).symm⟩
    rw [if_neg fun hn => hsls (slashOnly_iff.mpr hn)] at hd
    simp only [bind_eq_bind, bind_eq_some_iff] at hd
    obtain ⟨found, -, hd⟩ := hd
    cases found with
    | none =>
      obtain ⟨-, rfl, rfl⟩ := hd
      exact .inl ⟨rfl, (if_neg hsls).symm⟩
    | some e =>
      simp only [bind_eq_some_iff, Prod.exists] at hd
      obtain ⟨p, fs1, ho, i, -, hd⟩ := hd
      have h1 := h.inodeOpen ho
      split_ifs at hd with hdir
      · rcases ih h1 hd with ⟨rfl, hr⟩ | ⟨q, hr, h2⟩
        · rw [ite_self] at hr
          exact .inr ⟨p, hr, h1⟩
        · exact .inr ⟨q, hr, h2.mono fun x => by simp [count_cons]⟩
      · obtain ⟨-, rfl, rfl⟩ := hd
        exact .inr ⟨p, rfl, h1⟩

/-- `filesys_open` returns an inode with a reference of its own, unless the path consists of
slashes. -/
theorem Refs.filesysOpen (h : Refs fs l) (hpath : path = [] ∨ ¬ SlashOnly path)
    (ho : fs.filesysOpen cwd path = some (r, fs')) : Refs fs' (r.toList ++ l) := by
  unfold FileSys.filesysOpen at ho
  cases path with
  | nil =>
    simp only [bind_eq_bind, bind_eq_some_iff, Prod.exists] at ho
    obtain ⟨p, _, ho, rfl, rfl⟩ := ho
    exact h.inodeOpen ho
  | cons c rest =>
    have hpath := hpath.resolve_left (cons_ne_nil _ _)
    have hsls : ¬ SlashOnly (if c = slash then rest else c :: rest) := by
      split_ifs with hc
      · exact fun hs => hpath (forall_mem_cons.mpr ⟨hc, hs⟩)
      · exact hpath
    simp only [bind_eq_bind, bind_eq_some_iff, Prod.exists] at ho
    obtain ⟨dir, fs1, hdir, ok, r', fs2, hlook, _, hcls, rfl, rfl⟩ := ho
    have h1 := h.inodeOpen hdir
    rcases h1.dirLookup hlook with ⟨rfl, hr⟩ | ⟨p, rfl, h2⟩
    · rw [if_neg hsls] at hr
      subst hr
      exact h1.inodeClose hcls
    · refine Refs.inodeClose (h2.mono fun x => ?_) hcls
      simp only [count_cons, toList_some, singleton_append]
      omega

/-- `filesys_open` of a path of slashes returns the root directory without a reference. -/
theorem Refs.filesysOpen_slashes (h : Refs fs l) (hne : path ≠ [])
    (hpath : SlashOnly path) (ho : fs.filesysOpen cwd path = some (r, fs')) :
    Refs fs' l ∧ ∃ p fs1, fs.inodeOpen ROOT_DIR_SECTOR = some (p, fs1) ∧ r = some p := by
  unfold FileSys.filesysOpen at ho
  cases path with
  | nil => exact absurd rfl hne
  | cons c rest =>
    obtain ⟨hc, hrest⟩ := forall_mem_cons.mp hpath
    simp only [if_pos hc, bind_eq_bind, bind_eq_some_iff, some.injEq,
      Prod.mk.injEq, Prod.exists] at ho
    obtain ⟨dir, fs1, hdir, ok, r', fs2, hlook, _, hcls, rfl, rfl⟩ := ho
    unfold FileSys.dirLookup at hlook
    rw [if_pos (slashOnly_iff.mp hrest)] at hlook
    obtain ⟨-, rfl, rfl⟩ := hlook
    exact ⟨(h.inodeOpen hdir).inodeClose hcls, dir, fs1, hdir, rfl⟩

end FileSys

/-! ### Runs -/

/-- The file system with what its callers hold. -/
structure Handles where
  fs : FileSys
  /-- The inodes of the files. -/
  files : List ℕ
  /-- The inodes of the directories. -/
  dirs : List ℕ
  /-- The inodes that were opened and not handed on. -/
  inodes : List ℕ

/-- A call.  What is closed or asked for its inode is given by the inode. -/
inductive HandleCall where
  | filesysOpen (cwd : ℕ) (path : CString)
  | fileClose (p : ℕ)
  | fileGetInode (p : ℕ)
  | dirOpen (p : ℕ)
  | dirClose (p : ℕ)
  | inodeOpen (sector : ℕ)
  | inodeClose (p : ℕ)
deriving DecidableEq, Repr

namespace Handles

/-- Nothing is held. -/
def initial (fs : FileSys) : Handles := ⟨fs, [], [], []⟩

/-- A call with a file, directory or inode that is held. -/
def step (s : Handles) : HandleCall → Option Handles
  | .filesysOpen cwd path => do
    let (file, fs) ← s.fs.filesysOpen cwd path
    some { s with fs := fs, files := file.toList ++ s.files }
  | .fileClose p =>
    if p ∈ s.files then do
      let fs ← s.fs.inodeClose p
      some { s with fs := fs, files := s.files.erase p }
    else none
  | .fileGetInode p =>
    if p ∈ s.files then do
      let fs ← s.fs.inodeReopen p
      some { s with fs := fs, inodes := p :: s.inodes }
    else none
  | .dirOpen p =>
    if p ∈ s.inodes then some { s with dirs := p :: s.dirs, inodes := s.inodes.erase p } else none
  | .dirClose p =>
    if p ∈ s.dirs then do
      let fs ← s.fs.inodeClose p
      some { s with fs := fs, dirs := s.dirs.erase p }
    else none
  | .inodeOpen sector => do
    let (p, fs) ← s.fs.inodeOpen sector
    some { s with fs := fs, inodes := p :: s.inodes }
  | .inodeClose p =>
    if p ∈ s.inodes then do
      let fs ← s.fs.inodeClose p
      some { s with fs := fs, inodes := s.inodes.erase p }
    else none

/-- All that is held. -/
def all (s : Handles) : List ℕ := s.files ++ s.dirs ++ s.inodes

/-- The root directory is open, and more references to it are counted than are held. -/
def Spare (s : Handles) : Prop :=
  ∃ p ∈ s.fs.findOpen ROOT_DIR_SECTOR, ∃ i ∈ s.fs.heap p, s.all.count p < i.openCnt

instance (s : Handles) : Decidable s.Spare :=
  inferInstanceAs (Decidable (∃ p ∈ s.fs.findOpen ROOT_DIR_SECTOR, _))

/-- A path of slashes is opened only if there is a reference to spare. -/
def Ready (s : Handles) : HandleCall → Prop
  | .filesysOpen _ path => path ≠ [] → FileSys.SlashOnly path → s.Spare
  | _ => True

instance (s : Handles) : (c : HandleCall) → Decidable (s.Ready c)
  | .filesysOpen _ path =>
    inferInstanceAs (Decidable (path ≠ [] → FileSys.SlashOnly path → s.Spare))
  | .fileClose _ | .fileGetInode _ | .dirOpen _ | .dirClose _ | .inodeOpen _ | .inodeClose _ =>
    inferInstanceAs (Decidable True)

/-- Every file and directory refers to an open inode that counts it. -/
def Live (s : Handles) : Prop :=
  ∀ p ∈ s.files ++ s.dirs, p ∈ s.fs.openInodes ∧
    ∃ i, s.fs.heap p = some i ∧ (s.files ++ s.dirs).count p ≤ i.openCnt

variable {s s' : Handles} {c : HandleCall}

theorem count_all (s : Handles) (p : ℕ) :
    s.all.count p = s.files.count p + s.dirs.count p + s.inodes.count p := by
  rw [all, count_append, count_append]

theorem count_cons_add (p q : ℕ) (l : List ℕ) : (p :: l).count q = l.count q + [p].count q := by
  rw [show p :: l = [p] ++ l from rfl, count_append, add_comm]

theorem count_erase_add {l : List ℕ} (h : p ∈ l) (q : ℕ) :
    (l.erase p).count q + [p].count q = l.count q := by
  rw [(perm_cons_erase h).count_eq q, count_cons_add p q (l.erase p)]

theorem live_of_refs (h : s.fs.Refs s.all) : s.Live := by
  have hfd : s.fs.Refs (s.files ++ s.dirs) := h.mono fun p => by
    rw [count_all, count_append]
    exact Nat.le_add_right _ _
  exact hfd.counted

theorem refs_step (h : s.fs.Refs s.all) (hok : s.Ready c) (hs : s.step c = some s') :
    s'.fs.Refs s'.all := by
  cases c with
  | filesysOpen cwd path =>
    simp only [step, bind_eq_bind, bind_eq_some_iff, some.injEq, Prod.exists] at hs
    obtain ⟨file, fs, ho, rfl⟩ := hs
    have hrefs : fs.Refs (file.toList ++ s.all) := by
      by_cases hpath : path = [] ∨ ¬ SlashOnly path
      · exact h.filesysOpen hpath ho
      · rw [not_or, not_not] at hpath
        obtain ⟨p, hfind, i, hp, hlt⟩ := hok hpath.1 hpath.2
        have hspa := h.cons_of_lt (findOpen_eq_some hfind).1 hp hlt
        obtain ⟨hrefs, q, fs1, hopen, rfl⟩ := hspa.filesysOpen_slashes hpath.1 hpath.2 ho
        simp only [inodeOpen, mem_def.mp hfind, bind_eq_bind, bind_eq_some_iff] at hopen
        obtain ⟨_, -, rfl, -⟩ := hopen
        exact hrefs
    refine hrefs.mono fun q => ?_
    rw [count_all, count_append, count_append, count_all]
    dsimp only
    omega
  | fileClose p =>
    simp only [step, ite_none_right_eq_some, bind_eq_bind, bind_eq_some_iff, some.injEq] at hs
    obtain ⟨hin, fs, hcls, rfl⟩ := hs
    have hheld : s.fs.Refs (p :: all { s with files := s.files.erase p }) := h.mono fun q => by
      rw [count_cons_add p q (all _), count_all, count_all, ← count_erase_add hin]
      dsimp only
      omega
    exact hheld.inodeClose hcls
  | fileGetInode p =>
    simp only [step, ite_none_right_eq_some, bind_eq_bind, bind_eq_some_iff, some.injEq] at hs
    obtain ⟨hin, fs, hopen, rfl⟩ := hs
    have hp : p ∈ s.fs.openInodes := (h.counted p (by simp [all, hin])).1
    refine (h.inodeReopen hp hopen).mono fun q => ?_
    rw [count_all, count_cons_add p q s.inodes, count_cons_add p q s.all, count_all]
    dsimp only
    omega
  | dirOpen p =>
    obtain ⟨hin, ⟨⟩⟩ := ite_none_right_eq_some.mp hs
    refine h.mono fun q => ?_
    rw [count_all, count_all, ← count_erase_add hin, count_cons_add p q s.dirs]
    dsimp only
    omega
  | dirClose p =>
    simp only [step, ite_none_right_eq_some, bind_eq_bind, bind_eq_some_iff, some.injEq] at hs
    obtain ⟨hin, fs, hcls, rfl⟩ := hs
    have hheld : s.fs.Refs (p :: all { s with dirs := s.dirs.erase p }) := h.mono fun q => by
      rw [count_cons_add p q (all _), count_all, count_all, ← count_erase_add hin]
      dsimp only
      omega
    exact hheld.inodeClose hcls
  | inodeOpen sector =>
    simp only [step, bind_eq_bind, bind_eq_some_iff, some.injEq, Prod.exists] at hs
    obtain ⟨p, fs, hopen, rfl⟩ := hs
    refine (h.inodeOpen hopen).mono fun q => ?_
    rw [count_all, count_cons_add p q s.inodes, count_cons_add p q s.all, count_all]
    dsimp only
    omega
  | inodeClose p =>
    simp only [step, ite_none_right_eq_some, bind_eq_bind, bind_eq_some_iff, some.injEq] at hs
    obtain ⟨hin, fs, hcls, rfl⟩ := hs
    have hheld : s.fs.Refs (p :: all { s with inodes := s.inodes.erase p }) := h.mono fun q => by
      rw [count_cons_add p q (all _), count_all, count_all, ← count_erase_add hin]
      dsimp only
      omega
    exact hheld.inodeClose hcls

/-- **Reference counts.**  In every run in which a path of slashes is opened only when there is a
reference to the root directory to spare, every file and every directory refers to an open inode
that counts it. -/
theorem handles_counted (fs : FileSys) (hfs : ∀ p ∈ fs.openInodes, p < fs.next) (s : Handles)
    (h : Reaches step Ready (initial fs) s) : s.Live :=
  live_of_refs (h.invariant (P := fun s => s.fs.Refs s.all) ⟨hfs, nofun⟩
    fun _ _ _ h hok hs => refs_step h hok hs)

/-- The inode of an empty root directory. -/
def rootInode : InodeDisk := ⟨0, true, 2, INODE_MAGIC⟩

/-- A device with a root directory. -/
def rootVolume : Volume where
  disk := ⟨8, fun _ => Bytes.region rootInode.bytes⟩
  freeMap := fun _ => true
  freeMapFile := none

/-- Opening `/` right after the start returns a file for an inode that is not open. -/
theorem slash_not_live : ∃ s,
    Reaches step (fun _ _ => True) (initial ⟨rootVolume, fun _ => none, [], 0⟩) s ∧
      s.files = [0] ∧ s.fs.openInodes = [] ∧ s.fs.heap 0 = none ∧ ¬ s.Live := by
  have heval : (exec step (fun _ _ => True) (initial ⟨rootVolume, fun _ => none, [], 0⟩)
      [.filesysOpen ROOT_DIR_SECTOR [slash]]).map
        (fun s => (s.files, s.fs.openInodes, s.fs.heap 0)) = some ([0], [], none) := by
    decide +kernel
  obtain ⟨s, hs, he⟩ := map_eq_some_iff.mp heval
  simp only [Prod.mk.injEq] at he
  obtain ⟨hfls, hopen, hheap⟩ := he
  refine ⟨s, reaches_of_exec hs, hfls, hopen, hheap, fun hlive => ?_⟩
  have hin := (hlive 0 (by simp [hfls])).1
  rw [hopen] at hin
  cases hin

/-- Opening `/` and the current directory after formatting, which leaves the root directory open. -/
theorem handles_counted_formatted : ∃ s, Reaches step Ready (initial ⟨rootVolume,
      update (fun _ => none) 0 (some ⟨ROOT_DIR_SECTOR, 1, false, 0, rootInode, 0, none⟩),
      [0], 1⟩) s ∧
    s.files = [0, 0] ∧ s.dirs = [0] ∧ s.Live := by
  have heval : (exec step Ready (initial ⟨rootVolume, update (fun _ => none) 0
      (some ⟨ROOT_DIR_SECTOR, 1, false, 0, rootInode, 0, none⟩), [0], 1⟩)
      [.filesysOpen ROOT_DIR_SECTOR [slash], .inodeOpen ROOT_DIR_SECTOR, .dirOpen 0,
        .filesysOpen ROOT_DIR_SECTOR [], .fileGetInode 0, .inodeClose 0]).map
          (fun s => (s.files, s.dirs)) = some ([0, 0], [0]) := by
    decide +kernel
  obtain ⟨s, hs, he⟩ := map_eq_some_iff.mp heval
  simp only [Prod.mk.injEq] at he
  have hrch := reaches_of_exec hs
  exact ⟨s, hrch, he.1, he.2, handles_counted _ (by simp) s hrch⟩

end Handles

end Pintos
