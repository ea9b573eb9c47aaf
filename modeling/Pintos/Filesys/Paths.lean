import Pintos.Filesys.OpenInodes
import Pintos.Lib.Walks

/-! # Path resolution

A directory tree, seen from outside, says for each inode whether it is a file, or a directory with
entries (`TreeNode`, `Tree`); a path is resolved in it by a walk along the components.

* **Refinement.**  `Shows fs t`: the inodes and directories of `fs` say what `t` says.
* **`dir_lookup`.**  It leaves in `*inode` the last node that the walk reaches, whether or not the
  walk succeeds (`Shows.dirLookup`).
* **`filesys_open`.**  It does not look at the result, so it returns what the walk came to last
  (`Shows.filesysOpen`). -/

namespace Pintos
open Bytes Walks Function Option

/-! ### Trees -/

/-- What an inode is to a path. -/
inductive TreeNode where
  | file
  | dir (entries : CString → Option ℕ)

/-- The inodes of a file system; each is known by its sector. -/
abbrev Tree := ℕ → Option TreeNode

namespace Tree

variable (t : Tree)

/-- The inode that a name in a directory leads to. -/
def child (s : ℕ) (name : CString) : Option ℕ :=
  match t s with
  | some (.dir entries) => entries name
  | _ => none

def IsDirectory (s : ℕ) : Prop := ∃ entries, t s = some (.dir entries)

/-- The directory from which a path is walked. -/
def start (cwd : ℕ) (path : CString) : ℕ := if path.head? = some slash then ROOT_DIR_SECTOR else cwd

/-- The inode that a path leads to. -/
def resolve (cwd : ℕ) (path : CString) : Option ℕ :=
  walk t.child (start cwd path) (components slash path)

/-- The inode that `filesys_open` comes to: the last one on the way, if the first component of the
path is there. -/
def opened (cwd : ℕ) (path : CString) : Option ℕ :=
  match components slash path with
  | [] => some (start cwd path)
  | c :: cs => (t.child (start cwd path) c).map fun s => lastReached t.child s cs

section
variable {t t' : Tree} {S : ℕ → Prop} {cwd : ℕ} {path : CString}

theorem opened_mem (hS : ∀ s name s', S s → t.child s name = some s' → S s')
    (hsta : S (start cwd path)) (h : t.opened cwd path = some s) : S s := by
  unfold opened at h
  split at h
  · rwa [← some.inj h]
  · obtain ⟨s', hs', rfl⟩ := map_eq_some_iff.mp h
    exact lastReached_mem hS (hS _ _ _ hsta hs')

theorem opened_congr (hS : ∀ s name s', S s → t.child s name = some s' → S s')
    (heq : ∀ s name, S s → t'.child s name = t.child s name) (hsta : S (start cwd path)) :
    t'.opened cwd path = t.opened cwd path := by
  unfold opened
  split
  · rfl
  · rename_i c cs _
    rw [heq _ c hsta]
    cases hc : t.child (start cwd path) c with
    | none => rfl
    | some s =>
      rw [map_some, map_some, lastReached_congr hS heq (hS _ _ _ hsta hc)]

end

end Tree

/-! ### What a file system shows -/

/-- The inode `data` and the bytes on the device make up a node. -/
def ShowsNode (d : Disk) (data : InodeDisk) : TreeNode → Prop
  | .file => data.isDirectory = false
  | .dir entries => data.isDirectory = true ∧ ∃ L xs, Holds d data L (region xs) ∧
      data.length = xs.length ∧ xs.length < MAX_LENGTH ∧ entries = entriesOf xs

namespace FileSys

/-- The file system is a directory tree. -/
structure Shows (fs : FileSys) (t : Tree) : Prop where
  tidy : fs.Tidy
  node : ∀ s n, t s = some n → ∃ data, fs.inodeData s = some data ∧ ShowsNode fs.vol.disk data n
  closed : ∀ s name s', t.child s name = some s' → (t s').isSome
  root : t.IsDirectory ROOT_DIR_SECTOR

variable {fs fs' : FileSys} {t : Tree} {p s cwd : ℕ} {i : Inode} {path : CString}

theorem Shows.opens {S : ℕ → Prop} (h : fs.Shows t) (ho : Opens S fs fs') : fs'.Shows t where
  tidy := ho.tidy
  node := fun s n hn => by
    obtain ⟨data, hdata, hshow⟩ := h.node s n hn
    exact ⟨data, (ho.data s).trans hdata, ho.vol ▸ hshow⟩
  closed := h.closed
  root := h.root

theorem Shows.inodeOpen (h : fs.Shows t) (hs : (t s).isSome) :
    ∃ p i fs', fs.inodeOpen s = some (p, fs') ∧ Opened s fs p i fs' ∧
      ∀ n, t s = some n → ShowsNode fs.vol.disk i.data n := by
  obtain ⟨n, hn⟩ := isSome_iff_exists.mp hs
  obtain ⟨data, hdata, hshow⟩ := h.node s n hn
  obtain ⟨p, i, fs', hopen, hopn, rfl⟩ := h.tidy.inodeOpen hdata
  refine ⟨p, i, fs', hopen, hopn, fun n' hn' => ?_⟩
  rwa [← mem_unique hn hn']

theorem Shows.lookup (h : fs.Shows t) (hp : fs.heap p = some i) (hd : t.IsDirectory i.sector)
    (name : CString) : ∃ found, fs.lookup p name = some found ∧
      found.map (fun e => e.1.inodeSector) = t.child i.sector name := by
  obtain ⟨entries, he⟩ := hd
  obtain ⟨data, hdata, hshow⟩ := h.node _ _ he
  rw [h.tidy.inodeData hp] at hdata
  cases hdata
  obtain ⟨-, L, xs, hhld, hlen, hmax, rfl⟩ := hshow
  refine ⟨_, lookup_eq hp hhld hlen hmax, ?_⟩
  rw [map_map]
  simp only [Tree.child, he]
  rfl

/-! ### `dir_lookup` -/

/-- What `dir_lookup` leaves in `*inode` after the first component has been found: an inode for the
node that was reached, which has been opened once more. -/
structure Reached (t : Tree) (fs : FileSys) (s : ℕ) (q : Option ℕ) (fs' : FileSys) : Prop where
  opens : Opens (fun s => (t s).isSome) fs fs'
  inode : ∃ p j, q = some p ∧ fs'.heap p = some j ∧ j.sector = s ∧
    ∀ i, fs.heap p = some i → i.openCnt < j.openCnt

theorem Reached.of_opened (h : Opened s fs q j fs') (hs : (t s).isSome) :
    Reached t fs s (some q) fs' where
  opens := h.opens.mono fun _ he => he ▸ hs
  inode := by
    refine ⟨q, j, rfl, h.heap, h.sector, fun i hi => ?_⟩
    rcases h.before with ⟨j', hj', rfl⟩ | ⟨hnone, -⟩
    · cases mem_unique hj' hi
      exact Nat.lt_add_one _
    · simp [hnone] at hi

theorem Reached.of_opens (h : Reached t fs' s q fs'')
    (ho : Opens (fun s => (t s).isSome) fs fs') : Reached t fs s q fs'' where
  opens := ho.trans h.opens
  inode := by
    obtain ⟨p, j, hq, hp, hs, hlt⟩ := h.inode
    refine ⟨p, j, hq, hp, hs, fun i hi => ?_⟩
    obtain ⟨n, hn, hp'⟩ := ho.kept p i hi
    exact lt_of_le_of_lt hn (hlt _ hp')

/-- What a lookup that comes to the sectors `l` does: each of them is opened once more, and no
other. -/
structure Visits (l : List ℕ) (fs fs' : FileSys) : Prop extends Opens (· ∈ l) fs fs' where
  gained : ∀ s ∈ l, ∃ p j, fs'.heap p = some j ∧ j.sector = s ∧
    ∀ i, fs.heap p = some i → i.openCnt < j.openCnt
  same : ∀ p i, fs.heap p = some i → i.sector ∉ l → fs'.heap p = some i

theorem Visits.nil (h : fs.Tidy) : Visits [] fs fs := ⟨.refl h, nofun, fun _ _ hp _ => hp⟩

theorem Visits.cons {fs1 : FileSys} {l : List ℕ} (ho : Opened s fs q j fs1) (h : Visits l fs1 fs') :
    Visits (s :: l) fs fs' where
  toOpens := (ho.opens.mono fun _ hs => hs ▸ List.mem_cons_self).trans
    (h.toOpens.mono fun _ => List.mem_cons_of_mem s)
  gained s' hs' := by
    rcases List.mem_cons.mp hs' with rfl | hs'
    · obtain ⟨n, hn, hq⟩ := h.kept q j ho.heap
      refine ⟨q, _, hq, ho.sector, fun i hi => lt_of_lt_of_le ?_ hn⟩
      rcases ho.before with ⟨j', hj', rfl⟩ | ⟨hnone, -⟩
      · cases mem_unique hj' hi
        exact Nat.lt_add_one _
      · simp [hnone] at hi
    · obtain ⟨p, k, hp, hs, hlt⟩ := h.gained s' hs'
      refine ⟨p, k, hp, hs, fun i hi => ?_⟩
      obtain ⟨n, hn, hi'⟩ := ho.opens.kept p i hi
      exact lt_of_le_of_lt hn (hlt _ hi')
  same p i hp hs := by
    obtain ⟨hne, hs⟩ := not_or.mp (mt List.mem_cons.mpr hs)
    refine h.same p i ?_ hs
    rwa [ho.other p]
    rintro rfl
    obtain ⟨n, -, hp'⟩ := ho.opens.kept p i hp
    cases mem_unique ho.heap hp'
    exact hne ho.sector

theorem length_dropWhile_lt (hnil : path ≠ []) (hhead : path.head? ≠ some slash) :
    (path.dropWhile (· != slash)).length < path.length := by
  cases path with
  | nil => exact absurd rfl hnil
  | cons c rest =>
    have hc : (c != slash) = true := by
      simp only [bne_iff_ne]
      exact fun hc => hhead (by rw [hc]; rfl)
    rw [List.dropWhile_cons_of_pos (p := (· != slash)) hc]
    exact Nat.lt_succ_of_le (List.dropWhile_sublist (· != slash)).length_le

/-- `dir_lookup` from an open directory, for every path.  It opens the inodes that the path comes to,
and the first component decides whether `*inode` is assigned at all. -/
theorem Shows.dirLookup (h : fs.Shows t) (hp : fs.heap p = some i) (hd : t.IsDirectory i.sector)
    (hf : path.length < fuel) (out : Option ℕ) :
    ∃ ok out' fs', fs.dirLookup fuel p path out = some (ok, out', fs') ∧
      Visits (passed t.child i.sector (components slash path)).tail fs fs' ∧
      match components slash path with
      | [] => ok = true ∧ out' = some p ∧ fs' = fs
      | c :: cs => match t.child i.sector c with
          | none => ok = false ∧ out' = out ∧ fs' = fs
          | some s => Reached t fs (lastReached t.child s cs) out' fs' := by
  induction fuel generalizing fs p i path out with
  | zero => omega
  | succ fuel ih =>
    unfold FileSys.dirLookup
    rw [← @components_dropWhile _ _ slash path]
    have hhead := @head?_dropWhile_ne _ _ slash path
    have hle := (List.dropWhile_sublist (· == slash) (l := path)).length_le
    generalize path.dropWhile (· == slash) = path' at *
    by_cases hnil : path' = []
    · subst hnil
      exact ⟨true, some p, fs, by simp, .nil h.tidy, by simp⟩
    simp only [if_neg hnil, components_takeWhile hnil hhead]
    have hlt : (path'.dropWhile (· != slash)).length < fuel := by
      have := length_dropWhile_lt hnil hhead
      omega
    obtain ⟨found, hlkp, hchl⟩ := h.lookup hp hd (path'.takeWhile (· != slash))
    simp only [hlkp, ← hchl, bind_eq_bind]
    cases found with
    | none =>
      refine ⟨false, out, fs, rfl, ?_, rfl, rfl, rfl⟩
      rw [passed, ← hchl]
      exact .nil h.tidy
    | some e =>
      obtain ⟨e, ofs⟩ := e
      have hsome := h.closed _ _ _ hchl.symm
      obtain ⟨q, j, fs1, hopen, hopn, hnode⟩ := h.inodeOpen hsome
      simp only [hopen, hopn.heap, map_some, bind_some]
      rw [passed, ← hchl, map_some, List.tail_cons]
      dsimp only
      obtain ⟨n, hn⟩ := isSome_iff_exists.mp hsome
      have hshow := hnode n hn
      cases n with
      | file =>
        have hfile : j.data.isDirectory = false := hshow
        have hlast : ∀ cs, lastReached t.child e.inodeSector cs = e.inodeSector ∧
            passed t.child e.inodeSector cs = [e.inodeSector] := by
          intro cs
          cases cs with
          | nil => exact ⟨rfl, rfl⟩
          | cons c cs =>
            have hnone : t.child e.inodeSector c = none := by
              unfold Tree.child
              rw [hn]
            simp [lastReached, passed, hnone]
        rw [(hlast _).1, (hlast _).2]
        simp only [hfile]
        exact ⟨_, _, _, rfl, .cons hopn (.nil hopn.opens.tidy), .of_opened hopn hsome⟩
      | dir entries =>
        have hdir := hshow.1
        have hj : t.IsDirectory j.sector := ⟨entries, hopn.sector ▸ hn⟩
        simp only [hdir]
        obtain ⟨ok, out', fs', heq, hrest, hres⟩ :=
          ih (h.opens hopn.opens) hopn.heap hj hlt (some q)
        rw [hopn.sector] at hrest hres
        refine ⟨ok, out', fs', heq, passed_eq_cons t.child _ _ ▸ .cons hopn hrest, ?_⟩
        cases hcs : components slash (path'.dropWhile (· != slash)) with
        | nil =>
          rw [hcs] at hres
          obtain ⟨-, rfl, rfl⟩ := hres
          exact .of_opened hopn hsome
        | cons c cs =>
          rw [hcs] at hres
          simp only at hres
          unfold lastReached
          cases hc : t.child e.inodeSector c with
          | none =>
            rw [hc] at hres
            obtain ⟨-, rfl, rfl⟩ := hres
            exact .of_opened hopn hsome
          | some s' =>
            rw [hc] at hres
            exact hres.of_opens (hopn.opens.mono fun _ he => he ▸ hsome)

/-! ### `filesys_open` -/

/-- `filesys_open` returns a file for the inode that the path resolves to, and a null pointer if it
resolves to none. -/
def OpensResolved (fs : FileSys) (t : Tree) (cwd : ℕ) (path : CString) : Prop :=
  ∃ file fs', fs.filesysOpen cwd path = some (file, fs') ∧
    match t.resolve cwd path with
    | some s => ∃ p i, file = some p ∧ fs'.heap p = some i ∧ i.sector = s
    | none => file = none

/-- The walk cannot get stuck after its first component; and if the path is made up of slashes,
somebody has the root directory open. -/
def ResolvesOrFailsAtOnce (fs : FileSys) (t : Tree) (cwd : ℕ) (path : CString) : Prop :=
  match components slash path with
  | [] => path = [] ∨ (fs.findOpen ROOT_DIR_SECTOR).isSome
  | c :: _ => t.child (Tree.start cwd path) c = none ∨ (t.resolve cwd path).isSome

theorem Shows.isDirectory_start (h : fs.Shows t) (hcwd : t.IsDirectory cwd) (path : CString) :
    t.IsDirectory (Tree.start cwd path) := by
  unfold Tree.start
  split_ifs
  · exact h.root
  · exact hcwd

theorem isSome_of_isDirectory (h : t.IsDirectory s) : (t s).isSome := by
  obtain ⟨entries, he⟩ := h
  rw [he]
  rfl

theorem filesysOpen_eq (cwd : ℕ) (hne : path ≠ []) : ∃ path',
    components slash path' = components slash path ∧ ∀ fs : FileSys, fs.filesysOpen cwd path = (do
      let (dir, fs) ← fs.inodeOpen (Tree.start cwd path)
      let (_, inode, fs) ← fs.dirLookup (path'.length + 1) dir path' none
      let fs ← fs.inodeClose dir
      some (inode, fs)) := by
  cases path with
  | nil => exact absurd rfl hne
  | cons c rest =>
    unfold FileSys.filesysOpen Tree.start
    by_cases hc : c = slash
    · subst hc
      exact ⟨rest, components_cons_self.symm, fun fs => by simp⟩
    · exact ⟨c :: rest, rfl, fun fs => by simp [hc]⟩

/-- The steps of `filesys_open` for a path that is not empty: `dir` is the start directory, and
`fs2` the state before it is closed. -/
theorem Shows.filesysOpen_steps (h : fs.Shows t) (hcwd : t.IsDirectory cwd) (hne : path ≠ []) :
    ∃ dir i fs1 fs2 file, Opened (Tree.start cwd path) fs dir i fs1 ∧
      Visits (passed t.child (Tree.start cwd path) (components slash path)).tail fs1 fs2 ∧
      fs.filesysOpen cwd path = (fs2.inodeClose dir).bind (fun fs' => some (file, fs')) ∧
      match components slash path with
      | [] => file = some dir ∧ fs2 = fs1
      | c :: cs => match t.child (Tree.start cwd path) c with
          | none => file = none ∧ fs2 = fs1
          | some s => Reached t fs1 (lastReached t.child s cs) file fs2 := by
  obtain ⟨path', hcomp, heq⟩ := filesysOpen_eq cwd hne
  have hsta := h.isDirectory_start hcwd path
  obtain ⟨dir, i, fs1, hopen, hopn, -⟩ := h.inodeOpen (isSome_of_isDirectory hsta)
  obtain ⟨ok, out, fs2, hlkp, hope, hres⟩ := (h.opens hopn.opens).dirLookup hopn.heap
    (hopn.sector ▸ hsta) (Nat.lt_add_one path'.length) none
  rw [hcomp, hopn.sector] at hope hres
  refine ⟨dir, i, fs1, fs2, out, hopn, hope, ?_, ?_⟩
  · rw [heq]
    simp [hopen, hlkp]
  · split at hres
    · exact hres.2
    · split at hres
      · exact hres.2
      · exact hres

section
variable {dir n : ℕ} {fs1 fs2 fs3 : FileSys} (ho : Opened s0 fs dir i fs1)
  (hheap : fs2.heap dir = some { i with openCnt := n }) (hheap3 : fs3.heap = update fs2.heap dir
    (if n = 1 then none else some { i with openCnt := n - 1 }))
include ho hheap hheap3

/-- An inode that has been opened on the way is still open when the start has been closed. -/
theorem live_of_close (hq : fs2.heap q = some j)
    (hlt : ∀ i, fs1.heap q = some i → i.openCnt < j.openCnt) :
    ∃ k, fs3.heap q = some k ∧ k.sector = j.sector := by
  rw [hheap3]
  by_cases hqd : q = dir
  · subst hqd
    have hi := hlt i ho.heap
    have hpos := ho.opens.tidy.counted q i ho.heap
    rw [hq, some.injEq] at hheap
    subst hheap
    rw [update_self, if_neg (by simp only at hi; omega)]
    exact ⟨_, rfl, rfl⟩
  · rw [update_of_ne hqd]
    exact ⟨j, hq, rfl⟩

theorem Reached.live_of_close (h : Reached t fs1 s file fs2) :
    ∃ p j, file = some p ∧ fs3.heap p = some j ∧ j.sector = s := by
  obtain ⟨q, j, rfl, hq, rfl, hlt⟩ := h.inode
  exact ⟨q, (FileSys.live_of_close ho hheap hheap3 hq hlt).imp fun _ hk => ⟨rfl, hk⟩⟩

end

/-- What `filesys_open` returns for a path that is not empty.  A path of slashes only is the start
directory itself, whose only opening may have been the one that has been closed again. -/
theorem Shows.filesysOpen (h : fs.Shows t) (hcwd : t.IsDirectory cwd) (hne : path ≠ []) :
    ∃ file fs', fs.filesysOpen cwd path = some (file, fs') ∧
      match components slash path with
      | [] => ∃ p, file = some p ∧
          match fs.findOpen (Tree.start cwd path) with
          | none => fs'.heap p = none
          | some _ => ∃ i, fs'.heap p = some i ∧ i.sector = Tree.start cwd path
      | c :: cs => match t.child (Tree.start cwd path) c with
          | none => file = none
          | some s => ∃ p i, file = some p ∧ fs'.heap p = some i ∧
              i.sector = lastReached t.child s cs := by
  obtain ⟨dir, i, fs1, fs2, file, hopn, hope, heq, hres⟩ := h.filesysOpen_steps hcwd hne
  obtain ⟨n, fs3, hn, hheap, hcls, hheap3⟩ := h.tidy.inodeClose hopn hope.toOpens
  refine ⟨file, fs3, ?_, ?_⟩
  · rw [heq, hcls, bind_some]
  cases hcs : components slash path with
  | nil =>
    rw [hcs] at hres
    obtain ⟨rfl, rfl⟩ := hres
    refine ⟨dir, rfl, ?_⟩
    have hself : n = i.openCnt := by
      rw [hopn.heap, some.injEq] at hheap
      exact (congrArg Inode.openCnt hheap).symm
    rw [hheap3, update_self]
    rcases hopn.before with ⟨j, hj, rfl⟩ | ⟨-, hnone, hone, -⟩
    · have hpos := h.tidy.counted dir j hj
      have hfind := h.tidy.findOpen hj
      rw [show j.sector = Tree.start cwd path from hopn.sector] at hfind
      rw [hfind, if_neg (by simp only at hself; omega)]
      exact ⟨_, rfl, hopn.sector⟩
    · rw [hnone, if_pos (by omega)]
  | cons c cs =>
    rw [hcs] at hres
    simp only at hres ⊢
    cases hc : t.child (Tree.start cwd path) c with
    | none =>
      rw [hc] at hres
      exact hres.1
    | some s =>
      rw [hc] at hres
      exact hres.live_of_close hopn hheap hheap3

end FileSys

end Pintos
