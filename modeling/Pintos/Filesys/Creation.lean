import Pintos.Filesys.Namespace

/-! # Opening and creating by path

`filesys_open` and `filesys_create` on a file system with a well linked store, for paths that lead
somewhere.  Opening changes neither the store nor the flags of any inode (`Grown`); creation adds a
file to the store and an entry to its parent. -/

namespace Pintos
open Bytes Walks Function Option List

namespace FileSys

variable {fs fs' fs'' : FileSys} {M : List ℕ} {σ : Store} {P : ℕ → Place} {p c cwd : ℕ} {i : Inode}
  {path : CString}

/-! ### Opening -/

/-- Openings and closings lead from `fs` to `fs'`: an inode that was open is still open and has
changed in the number of its openers at most, and the others are clear.  The inodes on the device
have not changed. -/
structure Grown (fs fs' : FileSys) : Prop where
  kept : ∀ p i, fs.heap p = some i →
    ∃ n, i.openCnt ≤ n ∧ fs'.heap p = some { i with openCnt := n }
  clear : ∀ p i, fs'.heap p = some i → fs.heap p = none → Clear i
  free : fs'.vol.freeSectors = fs.vol.freeSectors
  device : ∀ s, (fs'.vol.inodeOpen s).map Inode.data = (fs.vol.inodeOpen s).map Inode.data

theorem Grown.trans (h : Grown fs fs') (h' : Grown fs' fs'') : Grown fs fs'' where
  kept := fun p i hp => by
    obtain ⟨n, hn, hp'⟩ := h.kept p i hp
    obtain ⟨m, hm, hp''⟩ := h'.kept p _ hp'
    exact ⟨m, hn.trans hm, hp''⟩
  clear := fun p i hp hn => by
    cases hp' : fs'.heap p with
    | none => exact h'.clear p i hp hp'
    | some j =>
      obtain ⟨n, -, hp''⟩ := h'.kept p j hp'
      cases mem_unique hp hp''
      exact h.clear p j hp' hn
  free := h'.free.trans h.free
  device := fun s => (h'.device s).trans (h.device s)

theorem Opens.grown {S : ℕ → Prop} (h : Opens S fs fs') : Grown fs fs' where
  kept := h.kept
  clear := fun p i hp hn => (h.new p i hp hn).2
  free := by rw [h.vol]
  device := fun _ => by rw [h.vol]

/-- Opening an inode, opening others and closing it again. -/
theorem Stores.close_opened {S : ℕ → Prop} (h : fs.Stores M σ P) (ho : Opened s fs p i fs')
    (ho' : Opens S fs' fs'') (hs : (σ s).isSome) (hS : ∀ s, S s → (σ s).isSome) :
    ∃ n fs1, fs''.heap p = some { i with openCnt := n } ∧
      fs''.inodeClose p = some fs1 ∧ fs1.Stores M σ P ∧ Grown fs fs1 ∧
      fs1.heap = Function.update fs''.heap p
        (if n = 1 then none else some { i with openCnt := n - 1 }) ∧
      (s ≠ FREE_MAP_SECTOR → fs.vol.Mirrored M → fs1.vol.Mirrored M) := by
  have h' := (h.opens ho.opens fun t ht => ht ▸ hs).opens ho' hS
  obtain ⟨n, hn, hp⟩ := ho'.kept p i ho.heap
  have hgrw := ho.opens.grown.trans ho'.grown
  have hlive : n = 1 → i.removed = false := fun hone =>
    (ho.fresh h.tidy (show i.openCnt ≤ 1 from hone ▸ hn)).2.1
  obtain ⟨fs1, hcls, h1, hheap, hfree⟩ := h'.inodeClose hp hlive
  refine ⟨n, fs1, hp, hcls, h1, ⟨fun q j hq => ?_, fun q j hq hnone => ?_, ?_, fun t => ?_⟩, hheap,
    fun hzero hm => h'.mirrored_inodeClose hp (ho.sector.symm ▸ hzero) hlive ?_ hcls⟩
  · obtain ⟨m, hm, hq''⟩ := hgrw.kept q j hq
    rw [hheap, update_apply]
    split_ifs with hqp hone
    · subst hqp
      have hnone := (ho.fresh h.tidy (show i.openCnt ≤ 1 from hone ▸ hn)).1
      cases hq.symm.trans hnone
    · subst hqp
      obtain ⟨j', hj', rfl⟩ | ⟨hnone, -⟩ := ho.before
      · obtain rfl := mem_unique hj' hq
        refine ⟨n - 1, ?_, rfl⟩
        have hlt : j'.openCnt + 1 ≤ n := hn
        omega
      · cases hq.symm.trans hnone
    · exact ⟨m, hm, hq''⟩
  · rw [hheap, update_apply] at hq
    split_ifs at hq with hqp
    · have hclr := hgrw.clear p _ hp (hqp ▸ hnone)
      cases hq
      exact hclr
    · exact hgrw.clear q j hq hnone
  · rw [hfree, hgrw.free]
  · rw [← hgrw.device t]
    by_cases hone : n = 1
    swap
    · rw [inodeClose_shared h'.tidy hp hone] at hcls
      rw [← some.inj hcls]
      rfl
    obtain ⟨f, hσ⟩ := isSome_iff_exists.mp (ho.sector.symm ▸ hs)
    by_cases ht : t = i.sector
    · subst ht
      have hclo : fs.findOpen i.sector = none := by
        rcases ho.before with ⟨j, hj, rfl⟩ | ⟨-, hnone, -⟩
        · have hpos := h.tidy.counted p j hj
          have hle : j.openCnt + 1 ≤ n := hn
          omega
        · rwa [ho.sector]
      have hclo1 : fs1.findOpen i.sector = none := by
        refine (findOpen_eq_none h1.tidy).mpr fun q j hq hqs => ?_
        rw [hheap, if_pos hone] at hq
        obtain ⟨hqp, hq⟩ := of_update_none hq
        exact hqp (h'.tidy.distinct q p j _ hq hp hqs)
      rw [h1.device_of_closed hσ hclo1, hgrw.device, h.device_of_closed hσ hclo]
    · rw [inodeClose_last h'.tidy hp hone (hlive hone) (h'.stored _ f hσ).lt_size] at hcls
      rw [← some.inj hcls]
      congr 1
      refine Volume.inodeOpen_congr rfl ?_
      exact (Disk.sameOutside_put (l := [i.sector]) mem_cons_self).2 t (by simpa using ht)
  · rwa [ho'.vol, ho.opens.vol]

theorem head?_of_slashes (hne : path ≠ []) (hcs : components slash path = []) :
    path.head? = some slash := by
  by_contra hhead
  simp [components_takeWhile hne hhead] at hcs

/-- The root directory is open, if the path begins with a slash. -/
def Rooted (fs : FileSys) (path : CString) : Prop :=
  path.head? = some slash → (fs.findOpen ROOT_DIR_SECTOR).isSome

/-- What `filesys_open` returns: a null pointer, or a file for the inode that it has come to.  This
inode is open, unless it is the root directory that nobody else has open. -/
def Finds (fs : FileSys) (t : Tree) (cwd : ℕ) (path : CString) (file : Option ℕ) (fs' : FileSys) :
    Prop :=
  match t.opened cwd path with
  | none => file = none
  | some s => ∃ p, file = some p ∧ (∀ i, fs'.heap p = some i → i.sector = s) ∧
      (fs.Rooted path → (fs'.heap p).isSome)

theorem Finds.opened_eq (h : Finds fs t cwd path (some p) fs')
    (hp : fs'.heap p = some i) : t.opened cwd path = some i.sector := by
  unfold Finds at h
  cases ho : t.opened cwd path with
  | none =>
    simp [ho] at h
  | some s =>
    rw [ho] at h
    obtain ⟨q, hq, hs, -⟩ := h
    cases hq
    rw [hs i hp]

/-- `filesys_open` of any path. -/
theorem Stores.filesysOpen_any (h : fs.Stores M σ P) (hl : WellLinked σ)
    (hcwd : (treeOf σ).IsDirectory cwd) (path : CString) :
    ∃ file fs', fs.filesysOpen cwd path = some (file, fs') ∧ fs'.Stores M σ P ∧ Grown fs fs' ∧
      Finds fs (treeOf σ) cwd path file fs' ∧
      (σ FREE_MAP_SECTOR = none → fs.vol.Mirrored M → fs'.vol.Mirrored M) := by
  have hshw := h.shows hl
  unfold Finds Tree.opened
  by_cases hne : path = []
  · subst hne
    obtain ⟨p, i, fs', hopen, hopn, -⟩ := hshw.inodeOpen (isSome_of_isDirectory hcwd)
    refine ⟨some p, fs', ?_, h.opens hopn.opens fun s hs => ?_, hopn.opens.grown,
      ⟨p, rfl, fun i' hi' => ?_, fun _ => ?_⟩, fun _ hm => hopn.opens.vol ▸ hm⟩
    · simp [FileSys.filesysOpen, hopen]
    · rw [hs, ← isSome_treeOf]
      exact isSome_of_isDirectory hcwd
    · cases mem_unique hopn.heap hi'
      exact hopn.sector
    · rw [hopn.heap]
      rfl
  have hsta := isSome_of_isDirectory (hshw.isDirectory_start hcwd path)
  obtain ⟨dir, i, fs1, fs2, file, hopn, hope, heq, hspec⟩ := hshw.filesysOpen_steps hcwd hne
  obtain ⟨n, fs3, hheap, hcls, h3, hgrw, hheap3, hmr⟩ := h.close_opened hopn hope.toOpens
    (isSome_treeOf.mp hsta) fun s hs => isSome_treeOf.mp
      (passed_mem (fun s c t _ => hshw.closed s c t) hsta s (List.mem_of_mem_tail hs))
  rw [hcls] at heq
  refine ⟨file, fs3, heq, h3, hgrw, ?_, fun hzero => hmr fun h0 => ?_⟩
  swap
  · simp [h0, isSome_treeOf, hzero] at hsta
  cases hcs : components slash path with
  | nil =>
    rw [hcs] at hspec
    obtain ⟨rfl, rfl⟩ := hspec
    refine ⟨dir, rfl, fun j hj => ?_, fun hrtd => ?_⟩
    · rw [hheap3, update_self] at hj
      split_ifs at hj
      cases hj
      exact hopn.sector
    · obtain ⟨q, hq⟩ := isSome_iff_exists.mp (hrtd (head?_of_slashes hne hcs))
      obtain ⟨-, j, hj, hs⟩ := findOpen_eq_some hq
      obtain ⟨m, -, hj2⟩ := hopn.opens.kept q j hj
      have hqd : q = dir := hopn.opens.tidy.distinct q dir _ _ hj2 hopn.heap
        (hs.trans ((if_pos (head?_of_slashes hne hcs)).symm.trans hopn.sector.symm))
      obtain ⟨m', -, hj3⟩ := hgrw.kept q j hj
      rw [← hqd, hj3]
      rfl
  | cons name cs =>
    rw [hcs] at hspec
    simp only at hspec ⊢
    cases hc : (treeOf σ).child (Tree.start cwd path) name with
    | none =>
      rw [hc] at hspec
      exact hspec.1
    | some s =>
      rw [hc] at hspec
      obtain ⟨p, j, rfl, hp, hs⟩ := hspec.live_of_close hopn hheap hheap3
      refine ⟨p, rfl, fun j' hj' => ?_, fun _ => by rw [hp]; rfl⟩
      rw [← mem_unique hp hj', hs]

/-! ### Splitting a path -/

theorem endOfParent_spec (path : CString) (n : ℕ) :
    endOfParent path n ≤ n ∧ (0 < endOfParent path n → region path (endOfParent path n) = slash) ∧
      ∀ j, endOfParent path n < j → j ≤ n → region path j ≠ slash := by
  induction n with
  | zero => exact ⟨le_rfl, fun h => absurd h (lt_irrefl _), fun j h1 h2 => by omega⟩
  | succ n ih =>
    unfold endOfParent
    split_ifs with hs
    · exact ⟨le_rfl, fun _ => hs, fun j h1 h2 => by omega⟩
    · refine ⟨ih.1.trans (Nat.le_succ n), ih.2.1, fun j h1 h2 => ?_⟩
      by_cases hj : j = n + 1
      · exact hj ▸ hs
      · exact ih.2.2 j h1 (by omega)

/-- `split_path_parent_name` splits at the last slash; a leading slash stays with the parent. -/
theorem splitPathParentName_spec (h : splitPathParentName path = some (parentName, name)) :
    slash ∉ name ∧ (parentName ≠ [] ∧ path = parentName ++ slash :: name ∨
      parentName = [slash] ∧ path = slash :: name ∨ parentName = [] ∧ path = name) := by
  unfold splitPathParentName at h
  by_cases hlen : path.length = 0
  · rw [if_pos hlen] at h
    cases h
  obtain ⟨hle, hsls, haft⟩ := endOfParent_spec path path.length
  generalize endOfParent path path.length = n at *
  have hdrop : ∀ m, n < m → slash ∉ path.drop m := by
    intro m hm hmem
    obtain ⟨j, hj, he⟩ := getElem_of_mem hmem
    rw [length_drop] at hj
    refine haft (m + j) (by omega) (by omega) ?_
    rw [region, getD_eq_getElem _ _ (by omega), ← he, getElem_drop]
  have hne : path ≠ [] := fun h0 => hlen (by rw [h0]; rfl)
  obtain ⟨c, rest, rfl⟩ := exists_cons_of_ne_nil hne
  by_cases hn : n = 0
  · subst hn
    have hrest : slash ∉ rest := hdrop 1 (by omega)
    by_cases hc : c = slash
    · obtain ⟨rfl, rfl⟩ := h
      subst hc
      exact ⟨hrest, .inr (.inl ⟨rfl, rfl⟩)⟩
    · have hfir : ¬ region (c :: rest) 0 = slash := hc
      rw [if_neg hfir] at h
      obtain ⟨rfl, rfl⟩ := h
      refine ⟨fun hmem => ?_, .inr (.inr ⟨rfl, rfl⟩)⟩
      rcases mem_cons.mp hmem with he | he
      · exact hc he.symm
      · exact hrest he
  · simp only [if_neg hn] at h
    obtain ⟨rfl, rfl⟩ := h
    have hat := hsls (by omega)
    have hlt : n < (c :: rest).length := by
      by_contra hge
      rw [region_of_length_le (by omega)] at hat
      cases hat
    rw [region, getD_eq_getElem _ _ hlt] at hat
    refine ⟨hdrop (n + 1) (by omega), .inl ⟨fun h0 => ?_, ?_⟩⟩
    · rw [take_eq_nil_iff] at h0
      exact h0.elim hn (by simp)
    · have := take_append_drop n (c :: rest)
      rw [drop_eq_getElem_cons hlt, hat] at this
      exact this.symm

theorem Rooted.parent (h : fs.Rooted path)
    (hspl : splitPathParentName path = some (parentName, name)) : fs.Rooted parentName := by
  intro hhead
  obtain ⟨-, ⟨hne, rfl⟩ | ⟨-, rfl⟩ | ⟨rfl, -⟩⟩ := splitPathParentName_spec hspl
  · exact h (by rwa [head?_append_of_ne_nil _ hne])
  · exact h rfl
  · cases hhead

/-! ### Creating -/

end FileSys

/-- A new file in `a` with a parent in `ps`. -/
def newFile (ps a size : ℕ) (isDirectory : Bool) : FileImage :=
  ⟨isDirectory, if isDirectory then linkBytes size a ps else List.replicate size 0⟩

/-- The store with a new file in `a` that has an entry in the directory `ps`. -/
def Store.addFile (σ : Store) (ps a : ℕ) (name : CString) (size : ℕ) (isDirectory : Bool) : Store :=
  fun s =>
    if s = a then some (newFile ps a size isDirectory)
    else if s = ps then (σ ps).map fun f => { f with bytes := addEntry f.bytes name a }
    else σ s

namespace FileSys

/-- The sectors that are needed for a file of `size` bytes and its entry in the directory `f`. -/
def sectorsNeeded (f : FileImage) (size : ℕ) : ℕ :=
  1 + Volume.sectorsToCreate size +
    (sectorsFor (f.bytes.length + DirEntry.SIZE) - sectorsFor f.bytes.length)

/-- A file can be created in the directory `f`: the name is new, the directory and the file are not
too large, and there is enough space. -/
structure Creatable (f : FileImage) (name : CString) (size : ℕ) (isDirectory : Bool) (free : ℕ) :
    Prop where
  directory : f.isDirectory = true
  valid : ValidName name
  new : entriesOf f.bytes name = none
  growth : f.bytes.length + DirEntry.SIZE < MAX_LENGTH
  bounded : size ≤ MAX_LENGTH
  links : isDirectory = true → size + 2 * DirEntry.SIZE < MAX_LENGTH ∧
    sectorsFor (size + 2 * DirEntry.SIZE) ≤ sectorsFor size
  room : sectorsNeeded f size ≤ free

section
variable {fs : FileSys} {M : List ℕ} {σ : Store} {P : ℕ → Place} {p a size tid : ℕ} {i : Inode}
  {f : FileImage} {name : CString} {isDirectory : Bool}

/-- The part of `filesys_create` that allocates: there is room for a new file, and for an entry in
the parent. -/
theorem Stores.createEntry (h : fs.Stores M σ P) (hp : fs.heap p = some i)
    (hf : σ i.sector = some f) (hdeny : i.denyWriteCnt = 0)
    (hc : Creatable f name size isDirectory fs.vol.freeSectors.length) :
    ∃ a fs', fs.createEntry p name size isDirectory = some (true, a, fs') := by
  have hroom := hc.room
  unfold sectorsNeeded at hroom
  obtain ⟨a, rest, hfree⟩ : ∃ a rest, fs.vol.freeSectors = a :: rest := by
    cases hf : fs.vol.freeSectors with
    | nil =>
      rw [hf, length_nil] at hroom
      omega
    | cons a rest => exact ⟨a, rest, rfl⟩
  rw [hfree, length_cons] at hroom
  obtain ⟨v1, halc, h1, hun, hrest⟩ := h.allocate hfree
  obtain ⟨v2, P2, hcrt, h2, hcou⟩ := h1.inodeCreate hun isDirectory hc.bounded (by
    rw [hrest]
    omega)
  have hne : i.sector ≠ a := fun he => by
    simp [he, hun.none] at hf
  have hcou' : v2.freeSectors.length + Volume.sectorsToCreate size = rest.length := by
    rw [← hrest]
    exact hcou
  obtain ⟨v3, P3, hadd, -⟩ := @Stores.dirAdd { fs with vol := v2 } M _ P2 p a i f name h2 hp
    ((update_of_ne hne ..).trans hf) hdeny hc.valid (entriesOf_eq_none.mp hc.new)
    (le_of_lt hc.growth) (by
      show _ ≤ v2.freeSectors.length
      omega)
  have hcrt' := hcrt
  unfold FileSys.createEntry
  simp only [halc, hcrt', hadd, bind_eq_bind, bind_some]
  exact ⟨a, _, rfl⟩

/-- The links of a new directory, which is open only meanwhile. -/
theorem Stores.addLinks_new (h : fs.Stores M σ P) (hf : σ a = some ⟨true, replicate size 0⟩)
    (hclo : fs.findOpen a = none) (hmax : size + 2 * DirEntry.SIZE ≤ MAX_LENGTH)
    (hspc : sectorsFor (size + 2 * DirEntry.SIZE) ≤ sectorsFor size)
    (hprn : parentSector < 2 ^ 32) :
    ∃ fs' P', fs.addLinks true a parentSector = some fs' ∧
      fs'.Stores M (Function.update σ a (some ⟨true, linkBytes size a parentSector⟩)) P' ∧
      fs'.heap = fs.heap ∧ (a ≠ FREE_MAP_SECTOR → fs.vol.Mirrored M → fs'.vol.Mirrored M) := by
  have hino := (h.stored a _ hf).inode
  unfold inodeData at hino
  rw [hclo] at hino
  obtain ⟨i, hi, -⟩ := map_eq_some_iff.mp hino
  obtain ⟨-, -, hnew⟩ := inodeOpen_eq_some hi
  have hopn := h.tidy.open_fresh hclo hi
  have h1 := h.opens hopn.opens fun s hs => by
    rw [hs, hf]
    rfl
  obtain ⟨fs2, fs3, P3, data, hadd2, hadd3, h3, hheap3, -, hmr⟩ := @Stores.addLinks _ M _ P _ size
    parentSector i h1 hopn.heap (by rw [hopn.sector, hf]) (by rw [hnew]) hmax hspc hprn
  rw [hopn.sector] at hadd3 h3
  have hself : fs3.heap fs.next = some { i with data } := by
    rw [hheap3]
    exact update_self ..
  obtain ⟨fs4, hcls, h4, hheap4, -⟩ := h3.inodeClose hself fun _ => by rw [hnew]
  refine ⟨fs4, P3, ?_, h4, ?_, fun hzero hm => ?_⟩
  · unfold FileSys.addLinks
    simp [inodeOpen_fresh hclo hi, hadd2, hadd3, hcls]
  · have hone : i.openCnt = 1 := by rw [hnew]
    have hnone := (hopn.fresh h.tidy (le_of_eq hone)).1
    rw [hheap4, if_pos hone, hheap3]
    show Function.update (Function.update (Function.update fs.heap fs.next (some i)) fs.next _)
      fs.next none = fs.heap
    rw [update_idem, update_idem, ← hnone, update_eq_self]
  · exact h3.mirrored_inodeClose hself (hopn.sector.symm ▸ hzero) (fun _ => by rw [hnew])
      (hmr hm) hcls

variable {ps : ℕ} {fs' : FileSys}

theorem addFile_eq (hf : σ ps = some f) (hne : ps ≠ a) :
    (if isDirectory = true then update (update (update σ a
        (some ⟨isDirectory, replicate size 0⟩)) ps
        (some { f with bytes := addEntry f.bytes name a })) a (some ⟨true, linkBytes size a ps⟩)
      else update (update σ a (some ⟨isDirectory, replicate size 0⟩)) ps
        (some { f with bytes := addEntry f.bytes name a })) =
      σ.addFile ps a name size isDirectory := by
  funext s
  cases isDirectory <;> by_cases hsa : s = a <;> by_cases hsp : s = ps <;>
    simp_all [Store.addFile, newFile]

theorem WellLinked.addFile_of (hl : WellLinked σ) (hf : σ ps = some f) (hdir : f.isDirectory = true)
    (hvalid : ValidName name) (henr : (addEntry f.bytes name a).length < MAX_LENGTH)
    (hlnk : isDirectory = true → (linkBytes size a ps).length < MAX_LENGTH) (ha : σ a = none)
    (hps : ps < 2 ^ 32) (halt : a < 2 ^ 32) :
    WellLinked (σ.addFile ps a name size isDirectory) := by
  have hsome : ∀ s, s = a ∨ (σ s).isSome → (σ.addFile ps a name size isDirectory s).isSome := by
    intro s hs
    unfold Store.addFile
    split_ifs with hsa hsp
    · rfl
    · rw [hf]
      rfl
    · exact hs.resolve_left hsa
  have hcas : ∀ s g, σ.addFile ps a name size isDirectory s = some g → g.isDirectory = true →
      s = a ∧ isDirectory = true ∧ g.bytes = linkBytes size a ps ∨
      s = ps ∧ g.bytes = addEntry f.bytes name a ∨ σ s = some g := by
    intro s g hg hd
    unfold Store.addFile at hg
    split_ifs at hg with hsa hsp
    · cases hg
      have hd' : isDirectory = true := hd
      exact .inl ⟨hsa, hd', by simp [newFile, hd']⟩
    · rw [hf] at hg
      cases hg
      exact .inr (.inl ⟨hsp, rfl⟩)
    · exact .inr (.inr hg)
  refine ⟨?_, fun s g hg hd k hk hu => ?_, fun s g hg hd => ?_⟩
  · obtain ⟨r, hr, hrd⟩ := hl.root
    unfold Store.addFile
    split_ifs with hra hrp
    · simp [hra, ha] at hr
    · rw [hf]
      exact ⟨_, rfl, hdir⟩
    · exact ⟨r, hr, hrd⟩
  · apply hsome
    rcases hcas s g hg hd with ⟨-, hdir, hb⟩ | ⟨-, hb⟩ | hσ
    · rw [hb] at hk hu ⊢
      rcases inUse_linkBytes halt hps hk hu with he | he
      · exact .inl he
      · exact .inr (by rw [he, hf]; rfl)
    · rw [hb] at hk hu ⊢
      rcases entryAt_addEntry_cases halt hvalid hk with he | ⟨hk', he⟩
      · exact .inl (by rw [he])
      · rw [he] at hu ⊢
        exact .inr (hl.closed ps f hf hdir k hk' hu)
    · exact .inr (hl.closed s g hσ hd k hk hu)
  · rcases hcas s g hg hd with ⟨-, hnew, hb⟩ | ⟨-, hb⟩ | hσ
    · rw [hb]
      exact hlnk hnew
    · rw [hb]
      exact henr
    · exact hl.small s g hσ hd

/-- Nobody has protected an open inode from writes. -/
def Undenied (fs : FileSys) : Prop := ∀ p i, fs.heap p = some i → i.denyWriteCnt = 0

/-- A thread can lock the directory `ps`: it is free, or the thread holds the lock already. -/
def CanLock (fs : FileSys) (tid ps : ℕ) : Prop :=
  ∀ p i, fs.heap p = some i → i.sector = ps → i.dirLock = none ∨ i.dirLock = some tid

/-- The directory `ps` is not marked as removed. -/
def Unremoved (fs : FileSys) (ps : ℕ) : Prop :=
  ∀ p i, fs.heap p = some i → i.sector = ps → i.removed = false

theorem Grown.forall {Q : Inode → Prop} (h : Grown fs fs') (hclr : ∀ i, Clear i → Q i)
    (hopen : ∀ p i, fs.heap p = some i → ∀ n, Q { i with openCnt := n }) (p : ℕ) (i : Inode)
    (hp : fs'.heap p = some i) : Q i := by
  cases hp' : fs.heap p with
  | none => exact hclr i (h.clear p i hp hp')
  | some j =>
    obtain ⟨n, -, hp''⟩ := h.kept p j hp'
    cases mem_unique hp hp''
    exact hopen p j hp' n

theorem Grown.undenied (h : Grown fs fs') (hd : fs.Undenied) : fs'.Undenied :=
  h.forall (fun _ hc => hc.2.2.2) fun p i hp _ => hd p i hp

theorem Grown.canLock (h : Grown fs fs') (hc : fs.CanLock tid ps) : fs'.CanLock tid ps :=
  h.forall (fun _ hc _ => .inl hc.2.2.1) fun p i hp _ => hc p i hp

theorem Grown.unremoved (h : Grown fs fs') (hr : fs.Unremoved ps) : fs'.Unremoved ps :=
  h.forall (fun _ hc _ => hc.1) fun p i hp _ => hr p i hp

theorem Grown.findOpen (h : Grown fs fs') (ht : fs'.Tidy)
    (hs : (fs.findOpen s).isSome) : (fs'.findOpen s).isSome := by
  obtain ⟨p, hp⟩ := isSome_iff_exists.mp hs
  obtain ⟨-, i, hi, rfl⟩ := findOpen_eq_some hp
  obtain ⟨n, -, hi'⟩ := h.kept p i hi
  exact ht.isSome_findOpen hi' rfl

end

end FileSys

end Pintos
