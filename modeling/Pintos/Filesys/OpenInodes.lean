import Pintos.Filesys.Entries

/-! # The open inodes

`Tidy fs`: the list of open inodes and the memory agree, and no two open inodes are for the same
sector.  `Opens fs fs'`: from `fs` to `fs'` some inodes have been opened, once or several times, and
nothing else has happened; in particular every inode says the same as before (`inodeData`). -/

namespace Pintos
open Function Option FileSys

namespace FileSys

variable {fs fs' fs'' : FileSys} {p s : ℕ} {i : Inode} {data : InodeDisk}

structure Tidy (fs : FileSys) : Prop where
  nodup : fs.openInodes.Nodup
  live : ∀ p ∈ fs.openInodes, (fs.heap p).isSome
  listed : ∀ p i, fs.heap p = some i → p ∈ fs.openInodes
  old : ∀ p i, fs.heap p = some i → p < fs.next
  counted : ∀ p i, fs.heap p = some i → 0 < i.openCnt
  magic : ∀ p i, fs.heap p = some i → i.data.magic = INODE_MAGIC
  distinct : ∀ p q i j, fs.heap p = some i → fs.heap q = some j → i.sector = j.sector → p = q

/-- The inode in a sector: its copy in memory if it is open, or else what is on the device. -/
def inodeData (fs : FileSys) (s : ℕ) : Option InodeDisk :=
  match fs.findOpen s with
  | some p => (fs.heap p).map Inode.data
  | none => (fs.vol.inodeOpen s).map Inode.data

/-- Nobody has removed, locked or protected the inode, or counted files in it. -/
def Clear (i : Inode) : Prop :=
  i.removed = false ∧ i.fileCount = 0 ∧ i.dirLock = none ∧ i.denyWriteCnt = 0

/-- Some openings, of sectors in `S`, lead from `fs` to `fs'`. -/
structure Opens (S : ℕ → Prop) (fs fs' : FileSys) : Prop where
  vol : fs'.vol = fs.vol
  tidy : fs'.Tidy
  kept : ∀ p i, fs.heap p = some i →
    ∃ n, i.openCnt ≤ n ∧ fs'.heap p = some { i with openCnt := n }
  data : ∀ s, fs'.inodeData s = fs.inodeData s
  new : ∀ p i, fs'.heap p = some i → fs.heap p = none → S i.sector ∧ Clear i

variable {S S' : ℕ → Prop}

theorem Opens.refl (h : fs.Tidy) : Opens S fs fs where
  vol := rfl
  tidy := h
  kept := fun _ i hp => ⟨i.openCnt, le_rfl, hp⟩
  data := fun _ => rfl
  new := fun p i hp hn => absurd (hp.symm.trans hn) (by simp)

theorem Opens.mono (h : Opens S fs fs') (hS : ∀ s, S s → S' s) : Opens S' fs fs' :=
  { h with new := fun p i hp hn => (h.new p i hp hn).imp_left (hS _) }

theorem Opens.trans (h : Opens S fs fs') (h' : Opens S fs' fs'') : Opens S fs fs'' where
  vol := h'.vol.trans h.vol
  tidy := h'.tidy
  kept := fun p i hp => by
    obtain ⟨n, hn, hp'⟩ := h.kept p i hp
    obtain ⟨m, hm, hp''⟩ := h'.kept p _ hp'
    exact ⟨m, hn.trans hm, hp''⟩
  data := fun s => (h'.data s).trans (h.data s)
  new := fun p i hp hn => by
    cases hp' : fs'.heap p with
    | none => exact h'.new p i hp hp'
    | some j =>
      obtain ⟨n, -, hp''⟩ := h'.kept p j hp'
      cases mem_unique hp hp''
      exact h.new p j hp' hn

/-! ### Finding an open inode -/

theorem findOpen_eq_some (h : fs.findOpen s = some p) :
    p ∈ fs.openInodes ∧ ∃ i, fs.heap p = some i ∧ i.sector = s := by
  refine ⟨List.mem_of_find?_eq_some h, ?_⟩
  simpa [any_eq_true] using List.find?_some h

theorem Tidy.findOpen (h : fs.Tidy) (hp : fs.heap p = some i) : fs.findOpen i.sector = some p := by
  have hfou : (fs.findOpen i.sector).isSome := by
    unfold FileSys.findOpen
    rw [List.find?_isSome]
    exact ⟨p, h.listed p i hp, by simp [hp]⟩
  obtain ⟨q, hq⟩ := isSome_iff_exists.mp hfou
  obtain ⟨-, j, hj, hs⟩ := findOpen_eq_some hq
  rw [hq, h.distinct q p j i hj hp hs]

theorem Tidy.isSome_findOpen (h : fs.Tidy) (hp : fs.heap p = some i) (hs : i.sector = s) :
    (fs.findOpen s).isSome := by
  rw [← hs, h.findOpen hp]
  rfl

theorem findOpen_eq_none (h : fs.Tidy) :
    fs.findOpen s = none ↔ ∀ p i, fs.heap p = some i → i.sector ≠ s := by
  constructor
  · intro hn p i hp hs
    simp [← hs, h.findOpen hp] at hn
  · intro hn
    by_contra hf
    obtain ⟨p, hp⟩ := ne_none_iff_exists'.mp hf
    obtain ⟨-, i, hi, hs⟩ := findOpen_eq_some hp
    exact hn p i hi hs

theorem Tidy.inodeData (h : fs.Tidy) (hp : fs.heap p = some i) :
    fs.inodeData i.sector = some i.data := by
  unfold FileSys.inodeData
  rw [h.findOpen hp]
  simp [hp]

/-! ### Locks -/

theorem directoryLock_eq (hp : fs.heap p = some i)
    (hlock : i.dirLock = none ∨ i.dirLock = some tid) :
    fs.directoryLock tid p = some (fs.setInode p { i with dirLock := some tid }) := by
  unfold directoryLock
  rw [hp, bind_eq_bind, bind_some]
  rcases hlock with hlock | hlock
  · rw [hlock]
  · have hsame : fs.setInode p { i with dirLock := some tid } = fs := by
      rw [show ({ i with dirLock := some tid } : Inode) = i by rw [← hlock], setInode, ← hp,
        update_eq_self]
    rw [hsame]
    simp [hlock]

theorem directoryRelease_eq {tid : ℕ} (hp : fs.heap p = some i) (hlock : i.dirLock = some tid) :
    fs.directoryRelease tid p = some (fs.setInode p { i with dirLock := none }) := by
  unfold directoryRelease
  rw [hp, bind_eq_bind, bind_some, if_pos hlock]

/-! ### Opening -/

/-- What `inode_open` returns: an inode that was open has one more opener, and another one has
been read from the device. -/
structure Opened (s : ℕ) (fs : FileSys) (p : ℕ) (i : Inode) (fs' : FileSys) : Prop where
  opens : Opens (· = s) fs fs'
  heap : fs'.heap p = some i
  sector : i.sector = s
  other : ∀ q, q ≠ p → fs'.heap q = fs.heap q
  before : (∃ j, fs.heap p = some j ∧ i = { j with openCnt := j.openCnt + 1 }) ∨
    fs.heap p = none ∧ fs.findOpen s = none ∧ i.openCnt = 1 ∧ i.removed = false ∧
      s < fs.vol.disk.size

theorem inodeReopen_eq (h : fs.Tidy) (hp : fs.heap p = some i) :
    fs.inodeReopen p = some (fs.setInode p { i with openCnt := i.openCnt + 1 }) := by
  unfold inodeReopen
  rw [hp, bind_eq_bind, bind_some, if_pos (h.magic p i hp)]

section
variable {i' : Inode}

/-- An inode may be replaced by one with the same sector and magic number that somebody has open. -/
theorem Tidy.setInode (h : fs.Tidy) (hp : fs.heap p = some i) (hs : i'.sector = i.sector)
    (hc : 0 < i'.openCnt) (hm : i'.data.magic = INODE_MAGIC) : (fs.setInode p i').Tidy := by
  have hold : ∀ q j, (fs.setInode p i').heap q = some j →
      ∃ j', fs.heap q = some j' ∧ j'.sector = j.sector ∧ 0 < j.openCnt ∧
        j.data.magic = INODE_MAGIC := by
    intro q j hq
    simp only [FileSys.setInode, update_apply] at hq
    split_ifs at hq with hqp
    · cases hq
      exact ⟨i, hqp ▸ hp, hs.symm, hc, hm⟩
    · exact ⟨j, hq, rfl, h.counted q j hq, h.magic q j hq⟩
  exact {
    nodup := h.nodup
    live := fun q hq => by
      simp only [FileSys.setInode, update_apply]
      split_ifs
      · rfl
      · exact h.live q hq
    listed := fun q j hq => by
      obtain ⟨j', hj', -⟩ := hold q j hq
      exact h.listed q j' hj'
    old := fun q j hq => by
      obtain ⟨j', hj', -⟩ := hold q j hq
      exact h.old q j' hj'
    counted := fun q j hq => by
      obtain ⟨_, -, -, hc, -⟩ := hold q j hq
      exact hc
    magic := fun q j hq => by
      obtain ⟨_, -, -, -, hm⟩ := hold q j hq
      exact hm
    distinct := fun q r j k hq hr heq => by
      obtain ⟨j', hj', hsj, -⟩ := hold q j hq
      obtain ⟨k', hk', hsk, -⟩ := hold r k hr
      exact h.distinct q r j' k' hj' hk' (hsj.trans (heq.trans hsk.symm)) }

theorem findOpen_setInode (hp : fs.heap p = some i) (hs : i'.sector = i.sector)
    (s : ℕ) : (fs.setInode p i').findOpen s = fs.findOpen s := by
  have hsame : (fun q => ((fs.setInode p i').heap q).any fun j => j.sector == s) =
      fun q => (fs.heap q).any fun j => j.sector == s := by
    funext q
    simp only [setInode, update_apply]
    split_ifs with hqp
    · rw [hqp, hp, any_some, any_some, hs]
    · rfl
  exact congrArg (fun f => fs.openInodes.find? f) hsame

theorem Tidy.reopen (h : fs.Tidy) (hp : fs.heap p = some i) :
    Opened i.sector fs p { i with openCnt := i.openCnt + 1 }
      (fs.setInode p { i with openCnt := i.openCnt + 1 }) where
  opens := {
    vol := rfl
    tidy := h.setInode hp rfl (Nat.succ_pos _) (h.magic p i hp)
    kept := fun q j hq => by
      simp only [FileSys.setInode, update_apply]
      split_ifs with hqp
      · cases mem_unique hp (hqp ▸ hq)
        exact ⟨i.openCnt + 1, Nat.le_succ _, rfl⟩
      · exact ⟨j.openCnt, le_rfl, hq⟩
    data := fun s => by
      have hfind := @findOpen_setInode fs p i { i with openCnt := i.openCnt + 1 } hp rfl s
      unfold FileSys.inodeData
      rw [hfind]
      cases fs.findOpen s with
      | none => rfl
      | some q =>
        simp only [FileSys.setInode, update_apply]
        split_ifs with hqp
        · rw [hqp, hp]
          rfl
        · rfl
    new := fun q j hq hn => by
      simp only [FileSys.setInode, update_apply] at hq
      split_ifs at hq with hqp
      · cases (hqp ▸ hn).symm.trans hp
      · cases hq.symm.trans hn }
  heap := update_self ..
  sector := rfl
  other _ hq := update_of_ne hq ..
  before := .inl ⟨i, hp, rfl⟩

end

theorem inodeOpen_eq_some {v : Volume} (h : v.inodeOpen s = some i) :
    s < v.disk.size ∧ i.data.magic = INODE_MAGIC ∧ i = ⟨s, 1, false, 0, i.data, 0, none⟩ := by
  unfold Volume.inodeOpen Disk.cacheRead at h
  split_ifs at h with hlt
  · obtain ⟨hmgc, ⟨⟩⟩ := ite_none_right_eq_some.mp h
    exact ⟨hlt.2, hmgc, rfl⟩
  · simp at h

/-- A fresh inode comes to the front of the list. -/
theorem Tidy.open_fresh (h : fs.Tidy) (hn : fs.findOpen s = none)
    (hi : fs.vol.inodeOpen s = some i) :
    Opened s fs fs.next i { fs.setInode fs.next i with
      openInodes := fs.next :: fs.openInodes, next := fs.next + 1 } := by
  have hnone : fs.heap fs.next = none := by
    by_contra hne
    obtain ⟨j, hj⟩ := ne_none_iff_exists'.mp hne
    exact absurd (h.old _ j hj) (lt_irrefl _)
  obtain ⟨hlt, hm, hnew⟩ := inodeOpen_eq_some hi
  have hsct : i.sector = s := hnew ▸ rfl
  have hc : i.openCnt = 1 := hnew ▸ rfl
  have hoth := (findOpen_eq_none h).mp hn
  have hcas : ∀ q j, (fs.setInode fs.next i).heap q = some j →
      q = fs.next ∧ j = i ∨ q ≠ fs.next ∧ fs.heap q = some j := by
    intro q j hq
    simp only [FileSys.setInode, update_apply] at hq
    split_ifs at hq with hqn
    · exact .inl ⟨hqn, (some.inj hq).symm⟩
    · exact .inr ⟨hqn, hq⟩
  have htidy : Tidy { fs.setInode fs.next i with
      openInodes := fs.next :: fs.openInodes, next := fs.next + 1 } := {
    nodup := by
      refine List.nodup_cons.mpr ⟨fun hq => ?_, h.nodup⟩
      have hlive := h.live _ hq
      simp [hnone] at hlive
    live := fun q hq => by
      simp only [FileSys.setInode, update_apply]
      split_ifs with hqn
      · rfl
      · exact h.live q ((List.mem_cons.mp hq).resolve_left hqn)
    listed := fun q j hq => by
      rcases hcas q j hq with ⟨rfl, -⟩ | ⟨-, hq'⟩
      · exact List.mem_cons_self
      · exact List.mem_cons_of_mem _ (h.listed q j hq')
    old := fun q j hq => by
      rcases hcas q j hq with ⟨rfl, -⟩ | ⟨-, hq'⟩
      · exact Nat.lt_add_one _
      · exact (h.old q j hq').trans (Nat.lt_add_one _)
    counted := fun q j hq => by
      rcases hcas q j hq with ⟨-, rfl⟩ | ⟨-, hq'⟩
      · omega
      · exact h.counted q j hq'
    magic := fun q j hq => by
      rcases hcas q j hq with ⟨-, rfl⟩ | ⟨-, hq'⟩
      · exact hm
      · exact h.magic q j hq'
    distinct := fun q r j k hq hr heq => by
      rcases hcas q j hq with ⟨rfl, rfl⟩ | ⟨-, hq'⟩ <;>
        rcases hcas r k hr with ⟨rfl, rfl⟩ | ⟨-, hr'⟩
      · rfl
      · exact absurd (heq.symm.trans hsct) (hoth r k hr')
      · exact absurd (heq.trans hsct) (hoth q j hq')
      · exact h.distinct q r j k hq' hr' heq }
  have hself : (fs.setInode fs.next i).heap fs.next = some i := update_self ..
  have hkeep : ∀ q j, fs.heap q = some j → (fs.setInode fs.next i).heap q = some j := by
    intro q j hq
    have hqn : q ≠ fs.next := fun he => by
      simp [he, hnone] at hq
    exact (update_of_ne hqn ..).trans hq
  exact {
    opens := {
      vol := rfl
      tidy := htidy
      kept := fun q j hq => ⟨j.openCnt, le_rfl, hkeep q j hq⟩
      data := fun t => by
        -- `t` is the sector that has been read in, or it is found where it was
        by_cases ht : t = s
        · subst ht
          have hdata := htidy.inodeData hself
          rw [hsct] at hdata
          rw [hdata]
          unfold FileSys.inodeData
          rw [hn]
          simp [hi]
        · have hfind : FileSys.findOpen { fs.setInode fs.next i with
              openInodes := fs.next :: fs.openInodes, next := fs.next + 1 } t = fs.findOpen t := by
            cases hf : fs.findOpen t with
            | none =>
              rw [findOpen_eq_none htidy]
              intro q j hq
              rcases hcas q j hq with ⟨-, rfl⟩ | ⟨-, hq'⟩
              · exact fun he => ht (he.symm.trans hsct)
              · exact (findOpen_eq_none h).mp hf q j hq'
            | some q =>
              obtain ⟨-, j, hj, rfl⟩ := findOpen_eq_some hf
              exact htidy.findOpen (hkeep q j hj)
          unfold FileSys.inodeData
          rw [hfind]
          cases hf : fs.findOpen t with
          | none => rfl
          | some q =>
            obtain ⟨-, j, hj, -⟩ := findOpen_eq_some hf
            show ((fs.setInode fs.next i).heap q).map _ = (fs.heap q).map Inode.data
            rw [hkeep q j hj, hj]
      new := fun q j hq hqn => by
        rcases hcas q j hq with ⟨-, rfl⟩ | ⟨-, hq'⟩
        · exact ⟨hsct, hnew ▸ ⟨rfl, rfl, rfl, rfl⟩⟩
        · cases hq'.symm.trans hqn }
    heap := hself
    sector := hsct
    other := fun q hq => update_of_ne hq ..
    before := .inr ⟨hnone, hn, hc, hnew ▸ rfl, hlt⟩ }

theorem inodeOpen_again (h : fs.Tidy) (hp : fs.heap p = some i) :
    fs.inodeOpen i.sector = some (p, fs.setInode p { i with openCnt := i.openCnt + 1 }) := by
  simp [inodeOpen, h.findOpen hp, inodeReopen_eq h hp]

theorem inodeOpen_fresh (hn : fs.findOpen s = none) (hi : fs.vol.inodeOpen s = some i) :
    fs.inodeOpen s = some (fs.next, { fs.setInode fs.next i with
      openInodes := fs.next :: fs.openInodes, next := fs.next + 1 }) := by
  simp [inodeOpen, hn, hi]

theorem Tidy.inodeOpen (h : fs.Tidy) (hs : fs.inodeData s = some data) :
    ∃ p i fs', fs.inodeOpen s = some (p, fs') ∧ Opened s fs p i fs' ∧ i.data = data := by
  unfold FileSys.inodeData at hs
  cases hf : fs.findOpen s with
  | some p =>
    obtain ⟨-, i, hi, rfl⟩ := findOpen_eq_some hf
    rw [hf] at hs
    simp only [hi, map_some, some.injEq] at hs
    exact ⟨p, _, _, inodeOpen_again h hi, h.reopen hi, hs⟩
  | none =>
    rw [hf] at hs
    obtain ⟨i, hi, rfl⟩ := map_eq_some_iff.mp hs
    exact ⟨fs.next, i, _, inodeOpen_fresh hf hi, h.open_fresh hf hi, rfl⟩

/-! ### Closing -/

theorem inodeClose_shared (h : fs.Tidy) (hp : fs.heap p = some i) (hc : i.openCnt ≠ 1) :
    fs.inodeClose p = some (fs.setInode p { i with openCnt := i.openCnt - 1 }) := by
  unfold inodeClose Volume.inodeClose
  simp only [hp, if_pos (h.magic p i hp), if_pos hc, bind_eq_bind, bind_some]
  rfl

/-- `inode_close` by the last opener of an inode that is not removed. -/
theorem inodeClose_last (h : fs.Tidy) (hp : fs.heap p = some i) (hc : i.openCnt = 1)
    (hr : i.removed = false) (hlt : i.sector < fs.vol.disk.size) :
    fs.inodeClose p = some { fs with
      vol := { fs.vol with disk := fs.vol.disk.put i.sector i.data.bytes 0 }
      heap := update fs.heap p none
      openInodes := fs.openInodes.erase p } := by
  have hw := Volume.cacheWrite_eq hlt
    (show i.data.bytes.length ≤ BLOCK_SECTOR_SIZE by simp [InodeDisk.bytes])
  unfold inodeClose Volume.inodeClose
  simp [hp, if_pos (h.magic p i hp), hc, hw, hr]

theorem Opened.fresh (hfs : fs.Tidy) (h : Opened s fs p i fs') (hone : i.openCnt ≤ 1) :
    fs.heap p = none ∧ i.removed = false ∧ s < fs.vol.disk.size := by
  rcases h.before with ⟨j, hj, rfl⟩ | ⟨hnone, -, -, hr, hlt⟩
  · have hpos := hfs.counted p j hj
    simp only at hone
    omega
  · exact ⟨hnone, hr, hlt⟩

theorem Tidy.inodeClose (hfs : fs.Tidy) (h : Opened s fs p i fs') (ho : Opens S fs' fs'') :
    ∃ n fs1, i.openCnt ≤ n ∧ fs''.heap p = some { i with openCnt := n } ∧
      fs''.inodeClose p = some fs1 ∧ fs1.heap = update fs''.heap p
        (if n = 1 then none else some { i with openCnt := n - 1 }) := by
  obtain ⟨n, hn, hp⟩ := ho.kept p i h.heap
  by_cases hone : n = 1
  · obtain ⟨-, hr, hlt⟩ := h.fresh hfs (hone ▸ hn)
    have hlt' : i.sector < fs''.vol.disk.size := by
      rw [ho.vol, h.opens.vol, h.sector]
      exact hlt
    refine ⟨n, _, hn, hp, inodeClose_last ho.tidy hp hone hr hlt', ?_⟩
    rw [if_pos hone]
  · refine ⟨n, _, hn, hp, inodeClose_shared ho.tidy hp hone, ?_⟩
    rw [if_neg hone]
    rfl

end FileSys

end Pintos
