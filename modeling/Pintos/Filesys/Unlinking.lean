import Pintos.Filesys.Attempts

/-! # What `filesys_remove` does

`filesys_remove` opens the parent and the child, locks the parent, and calls `dir_remove` three
times: for the name in the parent, and for `.` and `..` in the child, whether this is a directory
or not.  Each call marks the inode that the entry leads to as removed.

* **Two inodes.**  As long as the links of the child lead to the child or to its parent
  (`LinksHome`), only these two inodes change (`pair`).
* **References.**  The parent and the child are opened by path, and these files are never closed;
  so none of the closings in `filesys_remove` is the last one. -/

namespace Pintos
open Bytes Walks Function Option

/-- The `.` and `..` among the bytes of a file lead to the file itself or to its parent. -/
def LinksHome (bytes : List UInt8) (parent self : ℕ) : Prop :=
  ∀ link ∈ [childLink, parentLink], ∀ s, entriesOf bytes link = some s → s = parent ∨ s = self

/-- One of the links leads to `s`. -/
def linksTo (bytes : List UInt8) (s : ℕ) : Bool :=
  decide (entriesOf bytes childLink = some s) || decide (entriesOf bytes parentLink = some s)

/-- The bytes of a file after its links have been taken out. -/
def clearLinks (bytes : List UInt8) : List UInt8 :=
  clearName (clearName bytes childLink) parentLink

/-- The store after the entry in slot `k` of `ps` and the links of `cs` have been taken out. -/
def Store.unlink (σ : Store) (ps cs k : ℕ) : Store := fun s =>
  if s = cs then (σ cs).map fun g => { g with bytes := clearLinks g.bytes }
  else if s = ps then (σ ps).map fun f => { f with bytes := clearEntry f.bytes k }
  else σ s

namespace FileSys

variable {fs fs' : FileSys} {M : List ℕ} {σ : Store} {P : ℕ → Place} {p c k cwd tid : ℕ}
  {i j : Inode} {f g : FileImage} {v : Volume} {name path : CString}

/-! ### Two inodes -/

/-- The file system with these inodes at `p` and `c`. -/
def pair (fs : FileSys) (p c : ℕ) (i j : Inode) (v : Volume) : FileSys :=
  { fs with vol := v, heap := update (update fs.heap c (some j)) p (some i) }

section
variable {i' j' : Inode}

theorem pair_heap_left : (fs.pair p c i j v).heap p = some i := update_self ..

theorem pair_heap_right (hne : p ≠ c) : (fs.pair p c i j v).heap c = some j :=
  (update_of_ne hne.symm ..).trans (update_self ..)

theorem pair_setInode_left : (fs.pair p c i j v).setInode p i' = fs.pair p c i' j v := by
  simp [pair, setInode]

theorem pair_setInode_right (hne : p ≠ c) :
    (fs.pair p c i j v).setInode c j' = fs.pair p c i j' v := by
  simp only [pair, setInode]
  rw [update_comm hne.symm, update_idem, update_comm hne]

theorem pair_eq (hp : fs.heap p = some i) (hne : p ≠ c) :
    { fs.setInode c j with vol := v } = fs.pair p c i j v := by
  have hself : (fs.setInode c j).heap p = some i := (update_of_ne hne ..).trans hp
  unfold pair
  rw [show update fs.heap c (some j) = (fs.setInode c j).heap from rfl, ← hself, update_eq_self]
  rfl

end

/-! ### Links -/

/-- `dir_remove` of a link of the child that leads to the child or to its parent, or is not there. -/
theorem Backed.dirRemove_link (h : (fs.pair p c i j v).Backed M σ P) (hne : p ≠ c)
    (hg : σ j.sector = some g) (hsml : g.bytes.length < MAX_LENGTH) (hdeny : j.denyWriteCnt = 0)
    (link : CString)
    (hhome : ∀ s, entriesOf g.bytes link = some s → s = i.sector ∨ s = j.sector) :
    ∃ ok v' P', (fs.pair p c i j v).dirRemove c link = some (ok, fs.pair p c
        { i with removed := i.removed || decide (entriesOf g.bytes link = some i.sector) }
        { j with removed := j.removed || decide (entriesOf g.bytes link = some j.sector) } v') ∧
      (fs.pair p c
        { i with removed := i.removed || decide (entriesOf g.bytes link = some i.sector) }
        { j with removed := j.removed || decide (entriesOf g.bytes link = some j.sector) } v').Backed
        M (update σ j.sector (some { g with bytes := clearName g.bytes link })) P' ∧
      v'.freeSectors = v.freeSectors := by
  have hp : (fs.pair p c i j v).heap p = some i := pair_heap_left
  have hc : (fs.pair p c i j v).heap c = some j := pair_heap_right hne
  have hsct : i.sector ≠ j.sector := fun he => hne (h.tidy.distinct p c i j hp hc he)
  cases hslot : slotOf g.bytes link with
  | none =>
    have hnone := entriesOf_eq_none.mpr hslot
    have hlook := h.lookup hc hg hsml link
    rw [hslot, map_none] at hlook
    have hsame : clearName g.bytes link = g.bytes := by simp [clearName, hslot]
    simp only [hnone, reduceCtorEq, decide_false, Bool.or_false, hsame]
    refine ⟨false, v, P, ?_, ?_, rfl⟩
    · simp [FileSys.dirRemove, hlook]
    · rwa [← hg, update_eq_self]
  | some k =>
    have hbyt : clearName g.bytes link = clearEntry g.bytes k := by simp [clearName, hslot]
    have henr : entriesOf g.bytes link = some (entryAt g.bytes k).inodeSector := by
      simp [entriesOf, hslot]
    have hzero : update σ j.sector (some { g with bytes := clearEntry g.bytes k })
        FREE_MAP_SECTOR = none := by
      rw [update_of_ne (h.sector_ne_zero hc).symm, h.zero]
    rcases hhome _ henr with he | he
    · obtain ⟨v', P', hr, h', hfree, hmr⟩ :=
        h.toStores.dirRemove hc hg hsml hdeny hslot hp he
      rw [pair_setInode_left] at hr h'
      simp only [henr, he, hbyt, decide_true, Bool.or_true, some.injEq, hsct,
        decide_false, Bool.or_false]
      exact ⟨true, v', P', hr, ⟨h', hmr h.mirrored, hzero⟩, hfree⟩
    · obtain ⟨v', P', hr, h', hfree, hmr⟩ :=
        h.toStores.dirRemove hc hg hsml hdeny hslot hc he
      rw [pair_setInode_right hne] at hr h'
      simp only [henr, he, hbyt, decide_true, Bool.or_true, some.injEq,
        hsct.symm, decide_false, Bool.or_false]
      exact ⟨true, v', P', hr, ⟨h', hmr h.mirrored, hzero⟩, hfree⟩

theorem WellLinked.unlink {ps cs : ℕ} (hl : WellLinked σ) (hne : ps ≠ cs) (hf : σ ps = some f)
    (hk : k < slots f.bytes) (hg : σ cs = some g) (hsml : g.bytes.length < MAX_LENGTH) :
    WellLinked (Function.update (Function.update σ ps
      (some { f with bytes := clearEntry f.bytes k })) cs
      (some { g with bytes := clearLinks g.bytes })) := by
  have hlen : (clearLinks g.bytes).length = g.bytes.length := by
    unfold clearLinks
    rw [length_clearName, length_clearName]
  have hsome : ∀ s, (σ s).isSome → (Function.update σ ps
      (some { f with bytes := clearEntry f.bytes k }) s).isSome := by
    intro s hs
    rw [update_apply]
    split_ifs
    · rfl
    · exact hs
  have h1 : WellLinked (Function.update σ ps (some { f with bytes := clearEntry f.bytes k })) := by
    refine WellLinked.update hl hf (fun hd => ?_) fun hd m hm hu => ?_
    · rw [length_clearEntry hk]
      exact hl.small ps f hf hd
    · rw [slots_clearEntry hk] at hm
      have he := (inUse_clearEntry hu).2
      rw [he] at hu ⊢
      exact hl.closed ps f hf hd m hm hu
  refine WellLinked.update h1 ((update_of_ne hne.symm ..).trans hg)
    (fun _ => hlen.trans_lt hsml) fun hd m hm hu => ?_
  have hslo : slots (clearLinks g.bytes) = slots g.bytes := by
    unfold slots
    rw [hlen]
  rw [hslo] at hm
  have he : entryAt (clearLinks g.bytes) m = entryAt g.bytes m := by
    have h2 := @inUse_clearName (clearName g.bytes childLink) parentLink _ hu
    unfold clearLinks at hu ⊢
    rw [h2] at hu ⊢
    exact inUse_clearName hu
  rw [he] at hu ⊢
  exact hsome _ (hl.closed cs g hg hd m hm hu)

/-! ### The part with both open -/

theorem unlink_eq (hne : ps ≠ cs) (hf : σ ps = some f) (hg : σ cs = some g) :
    σ.unlink ps cs k = update (update σ ps
      (some { f with bytes := clearEntry f.bytes k })) cs
      (some { g with bytes := clearLinks g.bytes }) := by
  funext s
  by_cases hs : s = cs
  · subst hs
    simp [Store.unlink, hg]
  · by_cases hs' : s = ps
    · subst hs'
      simp [Store.unlink, hne, hf]
    · simp [Store.unlink, hs, hs']

/-- The removal of a file without files in it, from a directory that is counted to have at least
one. -/
theorem Backed.removeChild (h : fs.Backed M σ P) (hne : p ≠ c) (hp : fs.heap p = some i)
    (hc : fs.heap c = some j) (hf : σ i.sector = some f) (hsml : f.bytes.length < MAX_LENGTH)
    (hg : σ j.sector = some g) (hsml' : g.bytes.length < MAX_LENGTH)
    (hdeny : i.denyWriteCnt = 0) (hdeny' : j.denyWriteCnt = 0)
    (hslot : slotOf f.bytes name = some k) (hs : (entryAt f.bytes k).inodeSector = j.sector)
    (hhome : LinksHome g.bytes i.sector j.sector) (hcnt : 1 < i.openCnt) (hcnt' : 1 < j.openCnt)
    (hlock : i.dirLock = some tid) (hemp : j.fileCount = 0) (hfull : 1 ≤ i.fileCount) :
    ∃ v P' fs', fs' = fs.pair p c
        { i with openCnt := i.openCnt - 1, fileCount := i.fileCount - 1, dirLock := none,
                 removed := i.removed || linksTo g.bytes i.sector }
        { j with openCnt := j.openCnt - 1, removed := true } v ∧
      fs.removeChild tid p c name = some (true, fs') ∧
      fs'.Backed M (σ.unlink i.sector j.sector k) P' ∧ v.freeSectors = fs.vol.freeSectors := by
  have hsct : i.sector ≠ j.sector := fun he => hne (h.tidy.distinct p c i j hp hc he)
  -- the entry in the parent
  obtain ⟨v1, P1, hr1, h1, hfree1, hmr⟩ :=
    h.toStores.dirRemove hp hf hsml hdeny hslot hc hs
  have hb1 : Backed { fs.setInode c { j with removed := true } with vol := v1 } M
      (update σ i.sector (some { f with bytes := clearEntry f.bytes k })) P1 :=
    ⟨h1, hmr h.mirrored, by rw [update_of_ne (h.sector_ne_zero hp).symm, h.zero]⟩
  rw [pair_eq hp hne] at hr1 hb1
  -- the parent is closed and has one file less
  have hcls1 := inodeClose_shared hb1.tidy pair_heap_left (by omega)
  have hb2 := @Backed.setInode _ _ _ _ _ _
    { i with openCnt := i.openCnt - 1, fileCount := i.fileCount - 1 } hb1 pair_heap_left rfl rfl (show 0 < i.openCnt - 1 by omega)
  rw [pair_setInode_left] at hb2 hcls1
  -- the links
  obtain ⟨ok3, v3, P3, hr3, h3, hfree3⟩ := hb2.dirRemove_link hne
    ((update_of_ne hsct.symm ..).trans hg) hsml' hdeny'
    childLink (hhome childLink (by simp))
  obtain ⟨ok4, v4, P4, hr4, h4, hfree4⟩ := h3.dirRemove_link hne (update_self ..)
    (by rw [length_clearName]; exact hsml') hdeny' parentLink (fun s hs' => by
      rw [entriesOf_clearName (by decide)] at hs'
      exact hhome parentLink (by simp) s hs')
  rw [Bool.true_or, Bool.true_or] at hr4 h4
  rw [Bool.true_or] at hr3
  rw [entriesOf_clearName (by decide)] at hr4 h4
  rw [update_idem] at h4
  rw [unlink_eq hsct hf hg]
  have hmark : (i.removed || decide (entriesOf g.bytes childLink = some i.sector) ||
      decide (entriesOf g.bytes parentLink = some i.sector)) =
      (i.removed || linksTo g.bytes i.sector) := by
    rw [linksTo, Bool.or_assoc]
  rw [hmark] at hr4 h4
  -- the child is closed and marked, and the parent released
  have hcls4 := inodeClose_shared h4.tidy (pair_heap_right hne) (show j.openCnt ≠ 1 by omega)
  rw [pair_setInode_right hne] at hcls4
  have h5 := @Backed.setInode _ _ _ _ _ _ { j with openCnt := j.openCnt - 1, removed := true } h4
    (pair_heap_right hne) rfl rfl (show 0 < j.openCnt - 1 by omega)
  rw [pair_setInode_right hne] at h5
  have hrmv := inodeRemove_eq h5.tidy (pair_heap_right hne)
  rw [pair_setInode_right hne] at hrmv
  have hrls := @directoryRelease_eq (fs.pair p c
    { i with openCnt := i.openCnt - 1, fileCount := i.fileCount - 1,
             removed := i.removed || linksTo g.bytes i.sector }
    { j with openCnt := j.openCnt - 1, removed := true } v4) _ _ tid pair_heap_left hlock
  have h6 := @Backed.setInode _ _ _ _ _ _ { i with
      openCnt := i.openCnt - 1, fileCount := i.fileCount - 1, dirLock := none,
      removed := i.removed || linksTo g.bytes i.sector } h5 pair_heap_left rfl rfl
    (show 0 < i.openCnt - 1 by omega)
  rw [pair_setInode_left] at h6
  refine ⟨v4, P4, _, rfl, ?_, h6, (hfree4.trans hfree3).trans hfree1⟩
  unfold FileSys.removeChild
  simp only [hc, bind_eq_bind, bind_some]
  rw [if_neg (by omega), if_neg (by simpa using hemp)]
  simp only [hr1, hcls1, pair_heap_left, bind_some]
  rw [if_neg (by omega)]
  simp [pair_setInode_left, hr3, hr4, hcls4, hrmv, hrls]

/-! ### By path -/

theorem Shifted.findOpen (h : Shifted fs fs') (ht : fs'.Tidy)
    (hs : (fs.findOpen s).isSome) : (fs'.findOpen s).isSome := by
  obtain ⟨p, hp⟩ := isSome_iff_exists.mp hs
  obtain ⟨-, i, hi, rfl⟩ := findOpen_eq_some hp
  obtain ⟨n, lock, -, hi'⟩ := h.kept p i hi
  exact ht.isSome_findOpen hi' rfl

theorem Shifted.rooted (h : Shifted fs fs') (ht : fs'.Tidy) (hr : fs.Rooted path) :
    fs'.Rooted path := fun hhead => h.findOpen ht (hr hhead)

/-- The parent and the child are open, each at least twice, and the parent is locked. -/
structure Entered (fs : FileSys) (t : Tree) (tid cwd : ℕ) (path name : CString) (p c : ℕ)
    (i j : Inode) : Prop where
  split : ∃ parentName, splitPathParentName path = some (parentName, name) ∧
    t.opened cwd parentName = some i.sector
  parent : fs.heap p = some i
  child : fs.heap c = some j
  target : t.opened cwd path = some j.sector
  locked : i.dirLock = some tid
  parentCnt : 1 < i.openCnt
  childCnt : 1 < j.openCnt

section
variable (h : fs.Backed M σ P) (hl : WellLinked σ) (hcwd : (treeOf σ).IsDirectory cwd)
  (hroot : fs.Rooted path)
include h hl hcwd hroot

/-- The first part of `filesys_remove`: the path or its parent leads nowhere, another thread has
locked the parent, or parent and child are open. -/
theorem Backed.openForRemoval :
    (∃ fs', fs.openForRemoval tid cwd path = some (none, fs') ∧ fs'.Backed M σ P ∧
      Shifted fs fs' ∧ (∀ q, fs'.holder q = fs.holder q) ∧
      EveryParent (treeOf σ) cwd path fun _ => (treeOf σ).opened cwd path = none) ∨
    (fs.openForRemoval tid cwd path = none ∧ ∃ parentName name ps,
      splitPathParentName path = some (parentName, name) ∧
      (treeOf σ).opened cwd parentName = some ps ∧ ¬ fs.CanLock tid ps) ∨
    ∃ p c name i j fs', fs.openForRemoval tid cwd path = some (some (p, c, name), fs') ∧
      fs'.Backed M σ P ∧ Shifted fs fs' ∧ (∀ q, q ≠ p → fs'.holder q = fs.holder q) ∧
      fs.CanLock tid i.sector ∧ Entered fs' (treeOf σ) tid cwd path name p c i j := by
  unfold FileSys.openForRemoval
  cases hspl : splitPathParentName path with
  | none => exact .inl ⟨fs, rfl, h, .refl h.tidy, fun _ => rfl, by simp [EveryParent, hspl]⟩
  | some names =>
    obtain ⟨parentName, name⟩ := names
    obtain ⟨file, fs1, hopen1, h1, hgrw1, hfnd1⟩ := h.filesysOpen hl hcwd parentName
    simp only [hopen1, bind_eq_bind]
    rcases hfnd1.eq (hroot.parent hspl) with ⟨rfl, hprn⟩ | ⟨p, i1, rfl, hp1, hprn⟩
    · refine .inl ⟨fs1, rfl, h1, hgrw1.shifted, hgrw1.holder_eq, fun _ _ _ hs hps => ?_⟩
      cases hspl.symm.trans hs
      simp [hprn] at hps
    have hroot1 := hgrw1.shifted.rooted h1.tidy hroot
    obtain ⟨file2, fs2, hopen2, h2, hgrw2, hfnd2⟩ := h1.filesysOpen hl hcwd path
    have hroot2 := hgrw2.shifted.rooted h2.tidy hroot1
    simp only [hopen2, bind_some]
    rcases hfnd2.eq hroot1 with ⟨rfl, htrg⟩ | ⟨q, i2, rfl, -, htrg2⟩
    · exact .inl ⟨fs2, rfl, h2, (hgrw1.trans hgrw2).shifted,
        (hgrw1.trans hgrw2).holder_eq, fun _ _ _ _ _ => htrg⟩
    -- the parent is opened once more and locked
    obtain ⟨n, hn, hp2⟩ := hgrw2.kept p i1 hp1
    have hpos := h1.tidy.counted p i1 hp1
    simp only [inodeReopen_eq h2.tidy hp2, bind_some]
    cases hlock : (fs2.setInode p { i1 with openCnt := n + 1 }).directoryLock tid p with
    | none =>
      refine .inr (.inl ⟨rfl, parentName, name, i1.sector, rfl, hprn, fun hcan => ?_⟩)
      have hfree := (hgrw1.trans hgrw2).canLock hcan p _ hp2 rfl
      simp [directoryLock_eq (setInode_heap fs2 p { i1 with openCnt := n + 1 }) hfree] at hlock
    | some fs3 =>
      right; right
      have hfree := free_of_directoryLock (setInode_heap _ _ _) hlock
      cases directoryLock_eq_some (setInode_heap _ _ _) hlock
      simp only [setInode_setInode]
      obtain ⟨h3, hshf3⟩ :
          (fs2.setInode p { i1 with openCnt := n + 1, dirLock := some tid }).Backed M σ P ∧
          Shifted fs2 (fs2.setInode p { i1 with openCnt := n + 1, dirLock := some tid }) :=
        h2.lockParent hp2
      have hshf := (hgrw1.trans hgrw2).shifted.trans hshf3
      -- the child is found again, and opened once more
      obtain ⟨c, j, fs4, hopen4, h4, hgrw4, hc, hsct⟩ :=
        h3.filesysOpen_live hl hcwd (hshf3.rooted h3.tidy hroot2) htrg2
      have hrep := h4.tidy.reopen hc
      obtain ⟨m, hm, hp5⟩ := (hgrw4.trans hrep.opens.grown).kept p _ (setInode_heap _ _ _)
      refine ⟨p, c, name, { i1 with openCnt := m, dirLock := some tid },
        { j with openCnt := j.openCnt + 1 },
        fs4.setInode c { j with openCnt := j.openCnt + 1 }, ?_,
        h4.setInode hc rfl rfl (Nat.succ_pos _),
        (hshf.trans hgrw4.shifted).trans hrep.opens.grown.shifted, fun q hq => ?_,
        fun q x hq hqs => ?_, ⟨parentName, hspl, hprn⟩, hp5, hrep.heap, hsct ▸ htrg2, rfl, ?_,
        Nat.lt_succ_of_le (h4.tidy.counted c j hc)⟩
      · simp [hopen4, inodeReopen_eq h4.tidy hc]
      · rw [(hgrw4.trans hrep.opens.grown).holder_eq, holder_setInode_of_ne hq,
          (hgrw1.trans hgrw2).holder_eq]
      · obtain ⟨k, -, hq2⟩ := (hgrw1.trans hgrw2).kept q x hq
        cases h2.tidy.distinct q p _ _ hq2 hp2 hqs
        have hxi := mem_unique hp2 hq2
        rw [show x.dirLock = i1.dirLock from (congrArg Inode.dirLock hxi).symm]
        exact hfree
      · show 1 < m
        have : n + 1 ≤ m := hm
        omega

/-- What the first part of `filesys_remove` has done, if it returns. -/
theorem Backed.openForRemoval_eq_some (ho : fs.openForRemoval tid cwd path = some (r, fs')) :
    fs'.Backed M σ P ∧ Shifted fs fs' ∧ ((r = none ∧ (∀ q, fs'.holder q = fs.holder q) ∧
        EveryParent (treeOf σ) cwd path fun _ => (treeOf σ).opened cwd path = none) ∨
      ∃ p c name i j, r = some (p, c, name) ∧ (∀ q, q ≠ p → fs'.holder q = fs.holder q) ∧
        fs.CanLock tid i.sector ∧ Entered fs' (treeOf σ) tid cwd path name p c i j) := by
  rcases @Backed.openForRemoval _ _ _ _ _ tid _ h hl hcwd hroot with
    ⟨fs1, heq, hb, hshf, hnone⟩ | ⟨heq, -⟩ |
    ⟨p, c, name, i, j, fs1, heq, hb, hshf, hlck, hcan, he⟩
  · obtain ⟨rfl, rfl⟩ := heq.symm.trans ho
    exact ⟨hb, hshf, .inl ⟨rfl, hnone⟩⟩
  · simp [heq] at ho
  · obtain ⟨rfl, rfl⟩ := heq.symm.trans ho
    exact ⟨hb, hshf, .inr ⟨p, c, name, i, j, rfl, hlck, hcan, he⟩⟩

end

/-- A path that can be removed without harm to others: it leads to an entry of the parent, to a file
that is not too large and whose links lead to itself or to the parent. -/
def Removable (σ : Store) (cwd : ℕ) (path : CString) : Prop :=
  ∀ parentName name ps cs, splitPathParentName path = some (parentName, name) →
    (treeOf σ).opened cwd parentName = some ps → (treeOf σ).opened cwd path = some cs →
    ps ≠ cs ∧ (treeOf σ).child ps name = some cs ∧
      ∀ g, σ cs = some g → g.bytes.length < MAX_LENGTH ∧ LinksHome g.bytes ps cs

theorem Shifted.undenied (h : Shifted fs fs') (hd : fs.Undenied) : fs'.Undenied := by
  intro p i hp
  cases hp' : fs.heap p with
  | none => exact (h.new p i hp hp').2.2
  | some j =>
    obtain ⟨n, lock, -, hp''⟩ := h.kept p j hp'
    cases mem_unique hp hp''
    exact hd p j hp'

/-- What `filesys_remove` does with the parent and the child open: it finds the child not empty, and
leaves the parent locked, or removes it. -/
inductive Removes (fs : FileSys) (σ : Store) (p c : ℕ) (i j : Inode) (f g : FileImage) (k : ℕ) :
    Bool → FileSys → Store → Prop
  | full (hfull : j.fileCount ≠ 0) : Removes fs σ p c i j f g k false fs σ
  | removed {v : Volume} (hempty : j.fileCount = 0) (hfull : 1 ≤ i.fileCount) :
      Removes fs σ p c i j f g k true (fs.pair p c
        { i with openCnt := i.openCnt - 1, fileCount := i.fileCount - 1, dirLock := none,
                 removed := i.removed || linksTo g.bytes i.sector }
        { j with openCnt := j.openCnt - 1, removed := true } v) (σ.unlink i.sector j.sector k)

/-- The second part of `filesys_remove`, for a path that can be removed: it only fails at an
assertion about the number of files. -/
theorem Backed.removeChild_entered (h : fs.Backed M σ P) (hl : WellLinked σ) (hd : fs.Undenied)
    (hr : Removable σ cwd path) (he : Entered fs (treeOf σ) tid cwd path name p c i j) :
    p ≠ c ∧ ∃ f g k, σ i.sector = some f ∧ f.isDirectory = true ∧ σ j.sector = some g ∧
      slotOf f.bytes name = some k ∧ (entryAt f.bytes k).inodeSector = j.sector ∧
      (0 ≤ j.fileCount → (j.fileCount = 0 → 1 ≤ i.fileCount) →
        ∃ ok fs' σ' P', fs.removeChild tid p c name = some (ok, fs') ∧ fs'.Backed M σ' P' ∧
          WellLinked σ' ∧ fs'.vol.freeSectors = fs.vol.freeSectors ∧
          Removes fs σ p c i j f g k ok fs' σ') ∧
      (fs.removeChild tid p c name ≠ none → 0 ≤ j.fileCount ∧
        (j.fileCount = 0 → 1 ≤ i.fileCount)) := by
  obtain ⟨parentName, hspl, hprn⟩ := he.split
  obtain ⟨hne, hchl, hg⟩ := hr parentName name i.sector j.sector hspl hprn he.target
  have hpc : p ≠ c := by
    rintro rfl
    rw [mem_unique he.parent he.child] at hne
    exact hne rfl
  have hdir : (treeOf σ).IsDirectory i.sector := by
    unfold Tree.child at hchl
    split at hchl
    · exact ⟨_, by assumption⟩
    · cases hchl
  obtain ⟨f, hf, hfd⟩ := isDirectory_treeOf.mp hdir
  rw [child_treeOf hf hfd] at hchl
  obtain ⟨k, hslot, hs⟩ := map_eq_some_iff.mp hchl
  obtain ⟨g, hg'⟩ := isSome_iff_exists.mp (h.known c j he.child)
  obtain ⟨hsml', hhome⟩ := hg g hg'
  have hsml := hl.small _ f hf hfd
  have hrmv := fun hemp hfull => h.removeChild hpc he.parent he.child
    hf hsml hg' hsml' (hd p i he.parent) (hd c j he.child) hslot hs hhome he.parentCnt
    he.childCnt he.locked hemp hfull
  refine ⟨hpc, f, g, k, hf, hfd, hg', hslot, hs, fun hnn hfull => ?_, fun hsome => ?_⟩
  · by_cases hemp : j.fileCount = 0
    · obtain ⟨v, P', _, rfl, heq, h', hfree⟩ := hrmv hemp (hfull hemp)
      refine ⟨true, _, _, P', heq, h', ?_, hfree, .removed hemp (hfull hemp)⟩
      rw [unlink_eq hne hf hg']
      exact WellLinked.unlink hl hne hf (slotOf_eq_some.mp hslot).1 hg' hsml'
    · refine ⟨false, fs, σ, P, ?_, h, hl, rfl, .full hemp⟩
      unfold FileSys.removeChild
      rw [he.child, bind_eq_bind, bind_some, if_neg (by omega), if_pos hemp]
  · unfold FileSys.removeChild at hsome
    rw [he.child, bind_eq_bind, bind_some] at hsome
    split_ifs at hsome with hneg hfull
    · exact absurd rfl hsome
    · exact ⟨by omega, fun h0 => absurd h0 hfull⟩
    · by_contra hlt
      apply hsome
      -- the entry is taken out, the parent is closed, and the assertion fails
      obtain ⟨v1, P1, hr1, h1, -, -⟩ := h.toStores.dirRemove he.parent hf hsml (hd p i he.parent)
        hslot he.child hs
      rw [pair_eq he.parent hpc] at hr1 h1
      have hcnt := he.parentCnt
      have hcls := inodeClose_shared h1.tidy pair_heap_left (by omega)
      rw [pair_setInode_left] at hcls
      simp only [hr1, hcls, pair_heap_left, bind_eq_bind, bind_some]
      rw [if_pos (by omega)]

section
variable (h : fs.Backed M σ P) (hl : WellLinked σ) (hcwd : (treeOf σ).IsDirectory cwd)
  (hroot : fs.Rooted path) (hd : fs.Undenied) (hr : Removable σ cwd path)
include h hl hcwd hroot hd hr

/-- What `filesys_remove` has done, if it returns. -/
theorem Backed.filesysRemove_eq_some (hc : fs.filesysRemove tid cwd path = some (ok, fs')) :
    (ok = false ∧ fs'.Backed M σ P ∧ Shifted fs fs' ∧ (∀ q, fs'.holder q = fs.holder q) ∧
      EveryParent (treeOf σ) cwd path fun _ => (treeOf σ).opened cwd path = none) ∨
    ∃ p c name i j f g k fs1 σ' P', fs1.Backed M σ P ∧ Shifted fs fs1 ∧
      (∀ q, q ≠ p → fs1.holder q = fs.holder q) ∧
      Entered fs1 (treeOf σ) tid cwd path name p c i j ∧ p ≠ c ∧ σ i.sector = some f ∧
      f.isDirectory = true ∧ σ j.sector = some g ∧ slotOf f.bytes name = some k ∧
      (entryAt f.bytes k).inodeSector = j.sector ∧ fs'.Backed M σ' P' ∧ WellLinked σ' ∧
      fs'.vol.freeSectors = fs.vol.freeSectors ∧ Removes fs1 σ p c i j f g k ok fs' σ' := by
  obtain ⟨⟨r, fs1⟩, ho, hc⟩ := bind_eq_some_iff.mp hc
  obtain ⟨h1, hshf, hcase⟩ := h.openForRemoval_eq_some hl hcwd hroot ho
  rcases hcase with ⟨rfl, hlck⟩ | ⟨p, c, name, i, j, rfl, hlck, -, he⟩
  · obtain ⟨rfl, rfl⟩ := hc
    exact .inl ⟨rfl, h1, hshf, hlck⟩
  · dsimp only at hc
    obtain ⟨hpc, f, g, k, hf, hfd, hg, hslot, hs, hdo, hnone⟩ :=
      h1.removeChild_entered hl (hshf.undenied hd) hr he
    obtain ⟨hnn, hfull⟩ := hnone (by rw [hc]; exact some_ne_none _)
    obtain ⟨ok', fs2, σ', P', heq, h', hl', hfree, hrev⟩ := hdo hnn hfull
    obtain ⟨rfl, rfl⟩ := heq.symm.trans hc
    exact .inr ⟨p, c, name, i, j, f, g, k, fs1, σ', P', h1, hshf, hlck, he, hpc, hf, hfd, hg, hslot, hs,
      h', hl', hfree.trans hshf.free, hrev⟩

/-- `filesys_remove` of a file without files in it, from a directory that is counted to have at least
one. -/
theorem Backed.filesysRemove (hspl : splitPathParentName path = some (parentName, name))
    (hprn : (treeOf σ).opened cwd parentName = some ps)
    (htrg : (treeOf σ).opened cwd path = some cs) (hlock : fs.CanLock tid ps)
    (hfull : ∃ p i, fs.heap p = some i ∧ i.sector = ps ∧ 1 ≤ i.fileCount)
    (hemp : ∀ c j, fs.heap c = some j → j.sector = cs → j.fileCount = 0) :
    ∃ fs', fs.filesysRemove tid cwd path = some (true, fs') := by
  rcases @Backed.openForRemoval _ _ _ _ _ tid _ h hl hcwd hroot with
    ⟨fs1, -, -, -, -, hnone⟩ | ⟨-, parentName', name', ps', hspl', hprn', hcao⟩ |
    ⟨p, c, name', i, j, fs1, heq, hb, hshf, -, -, he⟩
  · simp [hnone parentName name ps hspl hprn] at htrg
  · cases mem_unique hspl hspl'
    cases mem_unique hprn hprn'
    exact absurd hlock hcao
  · obtain ⟨parentName', hspl', hprn'⟩ := he.split
    cases mem_unique hspl hspl'
    cases mem_unique hprn hprn'
    cases mem_unique htrg he.target
    -- the counters are those from before
    have hj : j.fileCount = 0 := by
      cases hc : fs.heap c with
      | none => exact (hshf.new c j he.child hc).2.1
      | some j0 =>
        obtain ⟨n, lock, -, hc'⟩ := hshf.kept c j0 hc
        cases mem_unique he.child hc'
        exact hemp c j0 hc rfl
    have hi : 1 ≤ i.fileCount := by
      obtain ⟨q, i0, hq, hs, hcou⟩ := hfull
      obtain ⟨n, lock, -, hq'⟩ := hshf.kept q i0 hq
      cases hb.tidy.distinct q p _ _ hq' he.parent hs
      cases mem_unique he.parent hq'
      exact hcou
    obtain ⟨-, f, g, k, -, -, -, -, -, hdo, -⟩ :=
      hb.removeChild_entered hl (hshf.undenied hd) hr he
    obtain ⟨ok, fs', σ', P', hrmv, -, -, -, hrev⟩ := hdo (by omega) fun _ => hi
    have hall : fs.filesysRemove tid cwd path = some (ok, fs') := by
      unfold FileSys.filesysRemove
      rw [heq]
      exact hrmv
    cases hrev with
    | full hfull => exact absurd hj hfull
    | removed => exact ⟨_, hall⟩

end

end FileSys

end Pintos
