import Pintos.Filesys.OpenInodes
import Pintos.Lib.Runs

/-! # Threads that open and close inodes

`inode_open` and `inode_close` as several threads execute them at once.  No lock protects the list
of open inodes.

* **Steps.**  A thread can lose the processor at every `malloc`, `free` and operation of the cache.
  What `malloc` returns, and what is in the memory that it returns, is part of the action.
* **Deallocation.**  The operations with which `inode_close` gives back the blocks of a removed inode
  change the volume and no inode in memory; there may be any number of them, and they may change
  the volume in any way (`release`).
* **References.**  `held`: the inodes that `inode_open` has returned and that have not been closed,
  once for each time.  A reference may be closed by another thread than the one that got it. -/

namespace Pintos
open Runs Function Option List

/-- Where a thread is in `inode_open` or `inode_close`. -/
inductive OpenPc where
  | idle
  /-- The sector is not on the list; about to allocate memory. -/
  | allocating (sector : ℕ)
  /-- The new inode is on the list; about to read its sector. -/
  | reading (p : ℕ)
  /-- The inode is off the list; about to write its sector. -/
  | persisting (p : ℕ)
  /-- The inode was removed; about to give back one of its blocks. -/
  | releasing (p : ℕ)
  /-- About to free the memory. -/
  | freeing (p : ℕ)
deriving DecidableEq, Repr

/-- The thread has taken the inode off the list. -/
def OpenPc.Closes : OpenPc → ℕ → Prop
  | .persisting q, p | .releasing q, p | .freeing q, p => q = p
  | _, _ => False

/-- A call of a thread, or its next operation. -/
inductive OpenAct where
  | inodeOpen (sector : ℕ)
  | inodeClose (p : ℕ)
  | inodeRemove (p : ℕ)
  /-- `malloc` returns a null pointer, or memory with something in the place of `data`. -/
  | malloc (memory : Option InodeDisk)
  | cacheRead
  | cacheWrite
  /-- An operation of the deallocation. -/
  | release (v : Volume)
  | released
  | free

/-- The inodes in memory and the threads. -/
structure OpenSystem (Tid : Type) where
  fs : FileSys
  pc : Tid → OpenPc
  held : List ℕ
  /-- The inodes whose `open_cnt` has reached zero. -/
  zero : List ℕ

namespace OpenSystem

variable {Tid : Type} [DecidableEq Tid]

/-- No inode is open, and no thread is in a call. -/
def initial (v : Volume) : OpenSystem Tid := ⟨⟨v, fun _ => none, [], 0⟩, fun _ => .idle, [], []⟩

def goto (s : OpenSystem Tid) (t : Tid) (pc : OpenPc) : OpenSystem Tid :=
  { s with pc := update s.pc t pc }

theorem goto_pc (s : OpenSystem Tid) (t t' : Tid) (pc : OpenPc) :
    (s.goto t pc).pc t' = if t' = t then pc else s.pc t' :=
  update_apply _ _ _ _

/-- The search of `inode_open`. -/
def search (s : OpenSystem Tid) (t : Tid) (sector : ℕ) : Option (OpenSystem Tid) :=
  match s.fs.findOpen sector with
  | some p => do
    let fs ← s.fs.inodeReopen p
    some { s with fs := fs, held := p :: s.held }
  | none => some (s.goto t (.allocating sector))

/-- `inode_open` from the allocation up to the read. -/
def insert (s : OpenSystem Tid) (t : Tid) (sector : ℕ) (data : InodeDisk) : OpenSystem Tid :=
  { s.goto t (.reading s.fs.next) with
    fs := { s.fs.setInode s.fs.next ⟨sector, 1, false, 0, data, 0, none⟩ with
      openInodes := s.fs.next :: s.fs.openInodes, next := s.fs.next + 1 } }

/-- The end of `inode_open`. -/
def load (s : OpenSystem Tid) (t : Tid) (p : ℕ) : Option (OpenSystem Tid) := do
  let i ← s.fs.heap p
  let buf ← s.fs.vol.disk.cacheRead i.sector BLOCK_SECTOR_SIZE 0
  let data := InodeDisk.ofBytes buf
  if data.magic = INODE_MAGIC then
    some { s.goto t .idle with fs := s.fs.setInode p { i with data := data }, held := p :: s.held }
  else none

/-- `inode_close` up to the write. -/
def drop (s : OpenSystem Tid) (t : Tid) (p : ℕ) : Option (OpenSystem Tid) := do
  let i ← s.fs.heap p
  if i.data.magic = INODE_MAGIC then
    if i.openCnt ≠ 1 then
      some { s with
        fs := s.fs.setInode p { i with openCnt := i.openCnt - 1 }, held := s.held.erase p }
    else
      some { s.goto t (.persisting p) with
        fs := { s.fs.setInode p { i with openCnt := 0 } with
          openInodes := s.fs.openInodes.erase p }
        held := s.held.erase p
        zero := p :: s.zero }
  else none

/-- The write of `inode_close`. -/
def persist (s : OpenSystem Tid) (t : Tid) (p : ℕ) : Option (OpenSystem Tid) := do
  let i ← s.fs.heap p
  let v ← s.fs.vol.cacheWrite i.sector i.data.bytes
  some { s.goto t (if i.removed then .releasing p else .freeing p) with fs := { s.fs with vol := v } }

/-- The next operation of thread `t`. -/
def advance (s : OpenSystem Tid) (t : Tid) (a : OpenAct) : Option (OpenSystem Tid) :=
  match s.pc t, a with
  | .idle, .inodeOpen sector => s.search t sector
  | .allocating _, .malloc none => some (s.goto t .idle)
  | .allocating sector, .malloc (some data) => some (s.insert t sector data)
  | .reading p, .cacheRead => s.load t p
  | .idle, .inodeRemove p => do
    let fs ← s.fs.inodeRemove p
    some { s with fs := fs }
  | .idle, .inodeClose p => s.drop t p
  | .persisting p, .cacheWrite => s.persist t p
  | .releasing _, .release v => some { s with fs := { s.fs with vol := v } }
  | .releasing p, .released => some (s.goto t (.freeing p))
  | .freeing p, .free => some { s.goto t .idle with
      fs := { s.fs with heap := update s.fs.heap p none } }
  | _, _ => none

/-- A step of the system. -/
def step (s : OpenSystem Tid) (x : Tid × OpenAct) : Option (OpenSystem Tid) := s.advance x.1 x.2

/-- Only references that are held are used. -/
def Owned (s : OpenSystem Tid) : Tid × OpenAct → Prop
  | (_, .inodeClose p) => p ∈ s.held
  | (_, .inodeRemove p) => p ∈ s.held
  | _ => True

instance (s : OpenSystem Tid) : (x : Tid × OpenAct) → Decidable (s.Owned x)
  | (_, .inodeClose p) => inferInstanceAs (Decidable (p ∈ s.held))
  | (_, .inodeRemove p) => inferInstanceAs (Decidable (p ∈ s.held))
  | (_, .inodeOpen _) | (_, .malloc _) | (_, .cacheRead) | (_, .cacheWrite) | (_, .release _)
  | (_, .released) | (_, .free) => inferInstanceAs (Decidable True)

/-- A thread calls `inode_open` only if no thread is between the search and the insertion for the
same sector. -/
def Apart (s : OpenSystem Tid) : Tid × OpenAct → Prop
  | (_, .inodeOpen sector) => ∀ t, s.pc t ≠ .allocating sector
  | _ => True

instance [Fintype Tid] (s : OpenSystem Tid) : (x : Tid × OpenAct) → Decidable (s.Apart x)
  | (_, .inodeOpen sector) => inferInstanceAs (Decidable (∀ t, s.pc t ≠ .allocating sector))
  | (_, .inodeClose _) | (_, .inodeRemove _) | (_, .malloc _) | (_, .cacheRead) | (_, .cacheWrite)
  | (_, .release _) | (_, .released) | (_, .free) => inferInstanceAs (Decidable True)

/-! ### Steps -/

/-- An inode of a sector is on the list. -/
def Listed (s : OpenSystem Tid) (p sector : ℕ) : Prop :=
  p ∈ s.fs.openInodes ∧ ∃ i, s.fs.heap p = some i ∧ i.sector = sector

/-- What a step does if only references that are held are used. -/
inductive Does (s : OpenSystem Tid) : Tid × OpenAct → OpenSystem Tid → Prop
  | reopen {t : Tid} {sector p : ℕ} {i : Inode} (hin : p ∈ s.fs.openInodes)
      (hp : s.fs.heap p = some i) :
      Does s (t, .inodeOpen sector) { s with
        fs := s.fs.setInode p { i with openCnt := i.openCnt + 1 }, held := p :: s.held }
  | miss {t : Tid} {sector : ℕ} (hpc : s.pc t = .idle) (hnone : ∀ p, ¬ s.Listed p sector) :
      Does s (t, .inodeOpen sector) (s.goto t (.allocating sector))
  | fail {t : Tid} {sector : ℕ} (hpc : s.pc t = .allocating sector) :
      Does s (t, .malloc none) (s.goto t .idle)
  | insert {t : Tid} {sector : ℕ} {data : InodeDisk} (hpc : s.pc t = .allocating sector) :
      Does s (t, .malloc (some data)) (s.insert t sector data)
  | load {t : Tid} {p : ℕ} {i : Inode} {data : InodeDisk} (hpc : s.pc t = .reading p)
      (hp : s.fs.heap p = some i) :
      Does s (t, .cacheRead) { s.goto t .idle with
        fs := s.fs.setInode p { i with data := data }, held := p :: s.held }
  | mark {t : Tid} {p : ℕ} {i : Inode} (hp : s.fs.heap p = some i) :
      Does s (t, .inodeRemove p) { s with fs := s.fs.setInode p { i with removed := true } }
  | drop {t : Tid} {p : ℕ} {i : Inode} (hheld : p ∈ s.held) (hp : s.fs.heap p = some i)
      (hcnt : i.openCnt ≠ 1) :
      Does s (t, .inodeClose p) { s with
        fs := s.fs.setInode p { i with openCnt := i.openCnt - 1 }, held := s.held.erase p }
  | unlink {t : Tid} {p : ℕ} {i : Inode} (hpc : s.pc t = .idle) (hheld : p ∈ s.held)
      (hp : s.fs.heap p = some i) (hcnt : i.openCnt = 1) :
      Does s (t, .inodeClose p) { s.goto t (.persisting p) with
        fs := { s.fs.setInode p { i with openCnt := 0 } with
          openInodes := s.fs.openInodes.erase p }
        held := s.held.erase p
        zero := p :: s.zero }
  | close {t : Tid} {a : OpenAct} {p : ℕ} {pc : OpenPc} {v : Volume} (hpc : (s.pc t).Closes p)
      (hpc' : pc.Closes p) :
      Does s (t, a) { s.goto t pc with fs := { s.fs with vol := v } }
  | free {t : Tid} {p : ℕ} (hpc : s.pc t = .freeing p) :
      Does s (t, .free) { s.goto t .idle with
        fs := { s.fs with heap := update s.fs.heap p none } }

variable {s s' : OpenSystem Tid} {t : Tid} {x : Tid × OpenAct} {p q sector : ℕ}

theorem search_does (hpc : s.pc t = .idle) (h : s.search t sector = some s') :
    Does s (t, .inodeOpen sector) s' := by
  unfold search at h
  cases hfind : s.fs.findOpen sector with
  | some p =>
    obtain ⟨hin, i, hp, -⟩ := FileSys.findOpen_eq_some hfind
    simp only [hfind, FileSys.inodeReopen, hp, bind_eq_bind, bind_some,
      bind_eq_some_iff, ite_none_right_eq_some, some.injEq] at h
    obtain ⟨_, ⟨-, rfl⟩, rfl⟩ := h
    exact .reopen hin hp
  | none =>
    simp only [hfind, some.injEq] at h
    subst h
    refine .miss hpc ?_
    rintro p ⟨hin, i, hp, hs⟩
    have := find?_eq_none.mp hfind p hin
    simp [hp, hs] at this

theorem load_does (hpc : s.pc t = .reading p) (h : s.load t p = some s') :
    Does s (t, .cacheRead) s' := by
  simp only [load, bind_eq_bind, bind_eq_some_iff, ite_none_right_eq_some, some.injEq] at h
  obtain ⟨i, hp, buf, -, -, rfl⟩ := h
  exact .load hpc hp

theorem drop_does (hpc : s.pc t = .idle) (hheld : p ∈ s.held) (h : s.drop t p = some s') :
    Does s (t, .inodeClose p) s' := by
  simp only [OpenSystem.drop, bind_eq_bind, bind_eq_some_iff, ite_none_right_eq_some] at h
  obtain ⟨i, hp, -, h⟩ := h
  split_ifs at h with hcnt
  · cases h
    exact .drop hheld hp hcnt
  · cases h
    exact .unlink hpc hheld hp (not_not.mp hcnt)

theorem persist_does (hpc : s.pc t = .persisting p) (h : s.persist t p = some s') :
    Does s (t, .cacheWrite) s' := by
  simp only [persist, bind_eq_bind, bind_eq_some_iff, some.injEq] at h
  obtain ⟨i, hp, v, -, rfl⟩ := h
  refine @Does.close _ _ s t _ p _ v (by rw [hpc]; rfl) ?_
  split_ifs <;> rfl

theorem step_does (h : s.step x = some s') (ho : s.Owned x) : Does s x s' := by
  obtain ⟨t, a⟩ := x
  unfold step advance at h
  dsimp only at h
  split at h
  · exact search_does ‹_› h
  · cases h
    exact .fail ‹_›
  · cases h
    exact .insert ‹_›
  · exact load_does ‹_› h
  · simp only [FileSys.inodeRemove, bind_eq_bind, bind_eq_some_iff,
      ite_none_right_eq_some, some.injEq] at h
    obtain ⟨_, ⟨i, hp, -, rfl⟩, rfl⟩ := h
    exact .mark hp
  · exact drop_does ‹_› ho h
  · exact persist_does ‹_› h
  · rename_i p v hpc
    cases h
    have hcls := @Does.close _ _ s t (.release v) p (.releasing p) v (by rw [hpc]; rfl) rfl
    rwa [goto, ← hpc, update_eq_self] at hcls
  · rename_i p hpc
    cases h
    exact @Does.close _ _ s t _ p (.freeing p) s.fs.vol (by rw [hpc]; rfl) rfl
  · cases h
    exact .free ‹_›
  · cases h

/-! ### Counting references -/

/-- Every reference is counted, and an inode whose count has reached zero is not on the list. -/
structure Counted (s : OpenSystem Tid) : Prop where
  nodup : s.fs.openInodes.Nodup
  old : ∀ p ∈ s.fs.openInodes, p < s.fs.next
  zero : ∀ p ∈ s.zero, p < s.fs.next ∧ p ∉ s.fs.openInodes
  closing : ∀ t p, (s.pc t).Closes p → p ∈ s.zero
  reading : ∀ t p, s.pc t = .reading p → p ∈ s.fs.openInodes
  readers : ∀ t t' p, s.pc t = .reading p → s.pc t' = .reading p → t = t'
  held : ∀ p ∈ s.held, p ∈ s.fs.openInodes
  count : ∀ p ∈ s.fs.openInodes, ∃ i, s.fs.heap p = some i ∧ s.held.count p ≤ i.openCnt ∧
    ∀ t, s.pc t = .reading p → s.held.count p < i.openCnt

omit [DecidableEq Tid] in
theorem counted_initial (v : Volume) : (initial v : OpenSystem Tid).Counted where
  nodup := nodup_nil
  old := nofun
  zero := nofun
  closing _ _ h := absurd h (by simp [initial, OpenPc.Closes])
  reading _ _ h := absurd h (by simp [initial])
  readers _ _ _ h := absurd h (by simp [initial])
  held := nofun
  count := nofun

theorem pc_of_goto {pc pc' : OpenPc} (hpc : pc ≠ pc') (h : (s.goto t pc).pc t' = pc') :
    s.pc t' = pc' := by
  rw [goto_pc] at h
  split_ifs at h with ht
  · exact absurd h hpc
  · exact h

theorem Counted.goto (h : s.Counted) {pc : OpenPc} (hread : ∀ p, pc ≠ .reading p)
    (hcls : ∀ p, pc.Closes p → p ∈ s.zero) : (s.goto t pc).Counted where
  __ := h
  closing t' p hc := by
    rw [goto_pc] at hc
    split_ifs at hc with ht
    · exact hcls p hc
    · exact h.closing t' p hc
  reading t' p hr := h.reading t' p (pc_of_goto (hread p) hr)
  readers t' t'' p hr hr' := h.readers t' t'' p (pc_of_goto (hread p) hr) (pc_of_goto (hread p) hr')
  count p hp := by
    obtain ⟨i, hi, hcou, hlt⟩ := h.count p hp
    exact ⟨i, hi, hcou, fun t' hr => hlt t' (pc_of_goto (hread p) hr)⟩

omit [DecidableEq Tid] in
theorem Counted.setInode (h : s.Counted) {i : Inode} {held : List ℕ}
    (hheld : ∀ q ∈ held, q ∈ s.fs.openInodes) (hoth : ∀ q, q ≠ p → held.count q = s.held.count q)
    (hcou : held.count p ≤ i.openCnt ∧ ∀ t, s.pc t = .reading p → held.count p < i.openCnt) :
    Counted { s with fs := s.fs.setInode p i, held } where
  __ := h
  held := hheld
  count q hq := by
    by_cases hqp : q = p
    · subst hqp
      exact ⟨i, update_self .., hcou⟩
    · obtain ⟨j, hj, hj1, hj2⟩ := h.count q hq
      refine ⟨j, (update_of_ne hqp ..).trans hj, ?_⟩
      rw [← hoth q hqp] at hj1 hj2
      exact ⟨hj1, hj2⟩

theorem Counted.insert (h : s.Counted) {data : InodeDisk} : (s.insert t sector data).Counted := by
  have hfrs : s.fs.next ∉ s.fs.openInodes := fun hm => absurd (h.old _ hm) (lt_irrefl _)
  have hpc : ∀ t' p, (s.insert t sector data).pc t' = .reading p →
      t' = t ∧ p = s.fs.next ∨ t' ≠ t ∧ s.pc t' = .reading p := by
    intro t' p hr
    have hr' : (s.goto t (.reading s.fs.next)).pc t' = .reading p := hr
    rw [goto_pc] at hr'
    split_ifs at hr' with ht
    · exact .inl ⟨ht, (OpenPc.reading.inj hr').symm⟩
    · exact .inr ⟨ht, hr'⟩
  have hread : ∀ t' p, s.pc t' = .reading p → p ≠ s.fs.next := by
    rintro t' _ hr rfl
    exact hfrs (h.reading t' _ hr)
  refine ⟨nodup_cons.mpr ⟨hfrs, h.nodup⟩, ?_, ?_, ?_, ?_, ?_,
    fun p hp => mem_cons_of_mem _ (h.held p hp), ?_⟩
  · intro p hp
    rcases mem_cons.mp hp with rfl | hp
    · exact Nat.lt_add_one _
    · exact (h.old p hp).trans (Nat.lt_add_one _)
  · intro p hp
    obtain ⟨hlt, hout⟩ := h.zero p hp
    exact ⟨hlt.trans (Nat.lt_add_one _), not_mem_cons_of_ne_of_not_mem hlt.ne hout⟩
  · intro t' p hc
    have hc' : ((s.goto t (.reading s.fs.next)).pc t').Closes p := hc
    rw [goto_pc] at hc'
    split_ifs at hc' with ht
    · exact hc'.elim
    · exact h.closing t' p hc'
  · intro t' p hr
    rcases hpc t' p hr with ⟨-, rfl⟩ | ⟨-, hr⟩
    · exact mem_cons_self
    · exact mem_cons_of_mem _ (h.reading t' p hr)
  · intro t' t'' p hr hr'
    rcases hpc t' p hr with ⟨ht, hp⟩ | ⟨-, hold⟩ <;>
      rcases hpc t'' p hr' with ⟨ht', hp'⟩ | ⟨-, hold'⟩
    · exact ht.trans ht'.symm
    · exact absurd hp (hread t'' p hold')
    · exact absurd hp' (hread t' p hold)
    · exact h.readers t' t'' p hold hold'
  · intro p hp
    rcases mem_cons.mp hp with rfl | hp
    · have hzero := count_eq_zero_of_not_mem fun hm => hfrs (h.held _ hm)
      refine ⟨_, update_self .., ?_⟩
      show s.held.count s.fs.next ≤ 1 ∧ ∀ _, _ → s.held.count s.fs.next < 1
      rw [hzero]
      exact ⟨Nat.zero_le _, fun _ _ => Nat.one_pos⟩
    · obtain ⟨i, hi, hcou, hlt⟩ := h.count p hp
      have hne : p ≠ s.fs.next := fun he => hfrs (he ▸ hp)
      refine ⟨i, (update_of_ne hne ..).trans hi, hcou, fun t' hr => ?_⟩
      rcases hpc t' p hr with ⟨-, he⟩ | ⟨-, hr⟩
      · exact absurd he hne
      · exact hlt t' hr

/-- The last reference to an inode is closed. -/
theorem Counted.unlink (h : s.Counted) {i : Inode} (hheld : p ∈ s.held)
    (hp : s.fs.heap p = some i) (hcnt : i.openCnt = 1) :
    Counted { s.goto t (.persisting p) with
      fs := { s.fs.setInode p { i with openCnt := 0 } with openInodes := s.fs.openInodes.erase p }
      held := s.held.erase p
      zero := p :: s.zero } := by
  obtain ⟨j, hj, hcou, hlt⟩ := h.count p (h.held p hheld)
  cases mem_unique hp hj
  have hpos := count_pos_iff.mpr hheld
  have hnone : ∀ t', s.pc t' ≠ .reading p := fun t' hr => absurd (hlt t' hr) (by omega)
  have hgone : p ∉ s.held.erase p := by
    rw [← count_eq_zero, count_erase_self]
    omega
  have hread : ∀ t' q, (s.goto t (.persisting p)).pc t' = .reading q → s.pc t' = .reading q :=
    fun t' q hr => pc_of_goto (by simp) hr
  have hne : ∀ t' q, s.pc t' = .reading q → q ≠ p := by
    rintro t' q hr rfl
    exact hnone t' hr
  refine ⟨h.nodup.erase p, fun q hq => h.old q (mem_of_mem_erase hq), ?_, ?_, ?_, ?_, ?_, ?_⟩
  · intro q hq
    rcases mem_cons.mp hq with rfl | hq
    · exact ⟨h.old _ (h.held _ hheld), h.nodup.not_mem_erase⟩
    · exact (h.zero q hq).imp_right fun hout hin => hout (mem_of_mem_erase hin)
  · intro t' q hc
    have hc' := hc
    rw [goto_pc] at hc'
    split_ifs at hc' with ht
    · exact mem_cons.mpr (.inl hc'.symm)
    · exact mem_cons_of_mem _ (h.closing t' q hc')
  · intro t' q hr
    have hr' := hread t' q hr
    exact (mem_erase_of_ne (hne t' q hr')).mpr (h.reading t' q hr')
  · exact fun t' t'' q hr hr' => h.readers t' t'' q (hread t' q hr) (hread t'' q hr')
  · intro q hq
    have hqp : q ≠ p := by
      rintro rfl
      exact hgone hq
    exact (mem_erase_of_ne hqp).mpr (h.held q (mem_of_mem_erase hq))
  · intro q hq
    obtain ⟨hqp, hq⟩ := (h.nodup.mem_erase_iff).mp hq
    obtain ⟨j, hj, hj1, hj2⟩ := h.count q hq
    refine ⟨j, (update_of_ne hqp ..).trans hj, ?_⟩
    rw [count_erase_of_ne hqp]
    exact ⟨hj1, fun t' hr => hj2 t' (hread t' q hr)⟩

theorem Counted.does (h : s.Counted) (hd : Does s x s') : s'.Counted := by
  cases hd with
  | @reopen t sector p i hin hp =>
    obtain ⟨j, hj, hcou, hlt⟩ := h.count p hin
    cases mem_unique hp hj
    refine h.setInode ?_ (fun q hq => count_cons_of_ne hq.symm) ?_
    · intro q hq
      rcases mem_cons.mp hq with rfl | hq
      · exact hin
      · exact h.held q hq
    · rw [count_cons_self]
      exact ⟨Nat.succ_le_succ hcou, fun t' hr => Nat.succ_lt_succ (hlt t' hr)⟩
  | miss | fail => exact h.goto (by simp) fun _ hc => hc.elim
  | insert hpc => exact h.insert
  | @load t p i data hpc hp =>
    obtain ⟨j, hj, hcou, hlt⟩ := h.count p (h.reading t p hpc)
    cases mem_unique hp hj
    have hgoto : (s.goto t .idle).Counted := h.goto (by simp) fun _ hc => hc.elim
    refine hgoto.setInode ?_ (fun q hq => count_cons_of_ne hq.symm) ?_
    · intro q hq
      rcases mem_cons.mp hq with rfl | hq
      · exact h.reading t _ hpc
      · exact h.held q hq
    · rw [count_cons_self]
      refine ⟨hlt t hpc, fun t' hr => ?_⟩
      -- no other thread reads this inode
      have ht := h.readers t t' p hpc (pc_of_goto (by simp) hr)
      simp [goto_pc, if_pos ht.symm] at hr
  | @mark t p i hp =>
    refine { h with count := fun q hq => ?_ }
    obtain ⟨j, hj, hcou⟩ := h.count q hq
    by_cases hqp : q = p
    · subst hqp
      cases mem_unique hp hj
      exact ⟨_, update_self .., hcou⟩
    · exact ⟨j, (update_of_ne hqp ..).trans hj, hcou⟩
  | @drop t p i hheld hp hcnt =>
    obtain ⟨j, hj, hcou, hlt⟩ := h.count p (h.held p hheld)
    cases mem_unique hp hj
    have hpos : 0 < s.held.count p := count_pos_iff.mpr hheld
    refine h.setInode (fun q hq => h.held q (mem_of_mem_erase hq))
      (fun q hq => count_erase_of_ne hq) ?_
    rw [count_erase_self]
    exact ⟨Nat.sub_le_sub_right hcou 1, fun t' hr => Nat.sub_lt_sub_right hpos (hlt t' hr)⟩
  | unlink hpc hheld hp hcnt => exact h.unlink hheld hp hcnt
  | @close t a p pc v hpc hpc' =>
    have hgoto : (s.goto t pc).Counted := by
      refine h.goto (fun q hq => ?_) fun q hc => ?_
      · rw [hq] at hpc'
        exact hpc'
      · have hpq : p = q := by cases pc <;> first | exact hpc'.elim | exact hpc'.symm.trans hc
        exact hpq ▸ h.closing t p hpc
    exact { hgoto with }
  | @free t p hpc =>
    have hgoto : (s.goto t .idle).Counted := h.goto (by simp) fun _ hc => hc.elim
    refine { hgoto with count := fun q hq => ?_ }
    obtain ⟨j, hj, hcou⟩ := hgoto.count q hq
    have hqp : q ≠ p := by
      rintro rfl
      exact (h.zero q (h.closing t q (by rw [hpc]; rfl))).2 hq
    exact ⟨j, (update_of_ne hqp ..).trans hj, hcou⟩

/-! ### One inode for a sector -/

/-- No two inodes on the list are for the same sector, and no thread is about to add one that is
there. -/
structure Single (s : OpenSystem Tid) : Prop where
  single : ∀ p q sector, s.Listed p sector → s.Listed q sector → p = q
  window : ∀ t sector, s.pc t = .allocating sector → ∀ p, ¬ s.Listed p sector
  alone : ∀ t t' sector, s.pc t = .allocating sector → s.pc t' = .allocating sector → t = t'

omit [DecidableEq Tid] in
theorem single_initial (v : Volume) : (initial v : OpenSystem Tid).Single where
  single p q sector hp := absurd hp.1 (by simp [initial])
  window t sector h := absurd h (by simp [initial])
  alone t t' sector h := absurd h (by simp [initial])

omit [DecidableEq Tid] in
theorem Listed.of_setInode (h : s'.Listed q sector)
    (hlist : s'.fs.openInodes ⊆ s.fs.openInodes) (hheap : s'.fs.heap = update s.fs.heap p (some j))
    (hp : s.fs.heap p = some i) (hs : j.sector = i.sector) : s.Listed q sector := by
  obtain ⟨hin, k, hk, hsec⟩ := h
  refine ⟨hlist hin, ?_⟩
  rw [hheap] at hk
  by_cases hqp : q = p
  · subst hqp
    rw [update_self] at hk
    cases hk
    exact ⟨i, hp, hs.symm.trans hsec⟩
  · rw [update_of_ne hqp] at hk
    exact ⟨k, hk, hsec⟩

/-- Only an insertion adds an inode to the list. -/
theorem Does.listed (hd : Does s x s') (h : s'.Listed p sector) :
    s.Listed p sector ∨ p = s.fs.next ∧ s.pc x.1 = .allocating sector ∧
      s'.pc x.1 = .reading p := by
  cases hd with
  | reopen hin hp => exact .inl (h.of_setInode (List.Subset.refl _) rfl hp rfl)
  | miss | fail | close => exact .inl h
  | @insert t sector' data hpc =>
    obtain ⟨hin, i, hi, hs⟩ := h
    by_cases hne : p = s.fs.next
    · subst hne
      have hi' := (update_self ..).symm.trans hi
      cases hi'
      exact .inr ⟨rfl, hs ▸ hpc, (goto_pc _ _ _ _).trans (if_pos rfl)⟩
    · exact .inl ⟨mem_of_ne_of_mem hne hin, i, (update_of_ne hne ..).symm.trans hi, hs⟩
  | load hpc hp => exact .inl (h.of_setInode (List.Subset.refl _) rfl hp rfl)
  | mark hp => exact .inl (h.of_setInode (List.Subset.refl _) rfl hp rfl)
  | drop hheld hp hcnt => exact .inl (h.of_setInode (List.Subset.refl _) rfl hp rfl)
  | unlink hpc hheld hp hcnt => exact .inl (h.of_setInode erase_subset rfl hp rfl)
  | @free t q hpc =>
    obtain ⟨hin, i, hi, hs⟩ := h
    by_cases hpq : p = q
    · subst hpq
      cases (update_self ..).symm.trans hi
    · exact .inl ⟨hin, i, (update_of_ne hpq ..).symm.trans hi, hs⟩

theorem Does.allocating (hd : Does s x s') (h : s'.pc t' = .allocating sector) :
    s.pc t' = .allocating sector ∨
      x = (t', .inodeOpen sector) ∧ ∀ p, ¬ s.Listed p sector := by
  cases hd with
  | reopen | mark | drop => exact .inl h
  | @miss t sector' hpc hnone =>
    rw [goto_pc] at h
    split_ifs at h with ht
    · cases OpenPc.allocating.inj h
      exact .inr ⟨by rw [ht], hnone⟩
    · exact .inl h
  | fail hpc => exact .inl (pc_of_goto (by simp) h)
  | @insert t _ _ hpc =>
    exact .inl (@pc_of_goto _ _ s t t' (.reading s.fs.next) _ (by simp) h)
  | @load t _ _ _ hpc hp => exact .inl (@pc_of_goto _ _ s t t' .idle _ (by simp) h)
  | @unlink t p _ hpc hheld hp hcnt =>
    exact .inl (@pc_of_goto _ _ s t t' (.persisting p) _ (by simp) h)
  | @close t _ p pc _ hpc hpc' =>
    refine .inl (@pc_of_goto _ _ s t t' pc _ ?_ h)
    rintro rfl
    exact hpc'
  | @free t _ hpc => exact .inl (@pc_of_goto _ _ s t t' .idle _ (by simp) h)

theorem Single.does (h : s.Single) (hd : Does s x s') (hap : s.Apart x) : s'.Single where
  single p q sector hp hq := by
    rcases hd.listed hp with hp | ⟨rfl, hpc, -⟩ <;> rcases hd.listed hq with hq | ⟨rfl, hpc', -⟩
    · exact h.single p q sector hp hq
    · exact absurd hp (h.window x.1 sector hpc' p)
    · exact absurd hq (h.window x.1 sector hpc q)
    · rfl
  window t sector ht p hp := by
    rcases hd.listed hp with hp | ⟨rfl, hpc, hpc'⟩
    · rcases hd.allocating ht with ht | ⟨-, hnone⟩
      · exact h.window t sector ht p hp
      · exact hnone p hp
    · have hne : t ≠ x.1 := by
        rintro rfl
        cases ht.symm.trans hpc'
      rcases hd.allocating ht with ht | ⟨rfl, -⟩
      · exact hne (h.alone t x.1 sector ht hpc)
      · exact hne rfl
  alone t t' sector ht ht' := by
    rcases hd.allocating ht with ht | ⟨hx, -⟩ <;> rcases hd.allocating ht' with ht' | ⟨hx', -⟩
    · exact h.alone t t' sector ht ht'
    · subst hx'
      exact absurd ht (hap t)
    · subst hx
      exact absurd ht' (hap t')
    · exact congrArg Prod.fst (hx.symm.trans hx')

/-- **One inode for a sector.**  An inode whose count has reached zero is never returned.  If no
thread calls `inode_open` while another one is about to add an inode for the same sector, there is
at most one inode for each sector on the list. -/
theorem one_inode_per_sector (Tid : Type) [DecidableEq Tid] (v : Volume) :
    (∀ s : OpenSystem Tid, Reaches step Owned (initial v) s → ∀ p ∈ s.held, p ∉ s.zero ∧
      ∃ i, s.fs.heap p = some i ∧ 0 < i.openCnt) ∧
    ∀ s : OpenSystem Tid, Reaches step (fun s x => s.Owned x ∧ s.Apart x) (initial v) s →
      s.fs.openInodes.Nodup ∧ ∀ p ∈ s.fs.openInodes, ∀ q ∈ s.fs.openInodes, ∀ i j,
        s.fs.heap p = some i → s.fs.heap q = some j → i.sector = j.sector → p = q := by
  refine ⟨fun s hs p hp => ?_, fun s hs => ?_⟩
  · have h := hs.invariant (counted_initial v) fun _ _ _ h ho hstep => h.does (step_does hstep ho)
    have hin := h.held p hp
    obtain ⟨i, hi, hcou, -⟩ := h.count p hin
    exact ⟨fun hz => (h.zero p hz).2 hin, i, hi, (count_pos_iff.mpr hp).trans_le hcou⟩
  · have h := hs.invariant (P := fun s => s.Counted ∧ s.Single)
      ⟨counted_initial v, single_initial v⟩ fun _ _ _ h ho hstep =>
        ⟨h.1.does (step_does hstep ho.1), h.2.does (step_does hstep ho.1) ho.2⟩
    exact ⟨h.1.nodup, fun p hp q hq i j hi hj hsec =>
      h.2.single p q j.sector ⟨hp, i, hi, hsec⟩ ⟨hq, j, hj, rfl⟩⟩

/-- A volume with an inode in every sector. -/
def inodeVolume : Volume where
  disk := ⟨8, fun _ => Bytes.region (InodeDisk.bytes ⟨0, false, 2, INODE_MAGIC⟩)⟩
  freeMap := fun _ => true
  freeMapFile := none

/-- What is in the memory that `malloc` returns. -/
def garbage : InodeDisk := ⟨0, false, 0, 0⟩

/-- A second thread opens the sector while the first one allocates memory: both add an inode. -/
theorem two_inodes_for_one_sector : ∃ s : OpenSystem (Fin 2),
    Reaches step Owned (initial inodeVolume) s ∧ s.fs.openInodes = [1, 0] ∧ s.held = [1, 0] ∧
      (s.fs.heap 0).map Inode.sector = some 5 ∧ (s.fs.heap 1).map Inode.sector = some 5 := by
  have heval : (exec step Owned (initial inodeVolume : OpenSystem (Fin 2))
      [(0, .inodeOpen 5), (1, .inodeOpen 5), (0, .malloc (some garbage)),
        (1, .malloc (some garbage)), (0, .cacheRead), (1, .cacheRead)]).map (fun s =>
          (s.fs.openInodes, s.held, (s.fs.heap 0).map Inode.sector,
            (s.fs.heap 1).map Inode.sector)) = some ([1, 0], [1, 0], some 5, some 5) := by
    decide +kernel
  obtain ⟨s, hs, he⟩ := map_eq_some_iff.mp heval
  simp only [Prod.mk.injEq] at he
  exact ⟨s, reaches_of_exec hs, he⟩

/-- Two threads open two sectors at once, and then one of them again and close it. -/
theorem one_inode_per_sector_two_threads : ∃ s : OpenSystem (Fin 2),
    Reaches step (fun s x => s.Owned x ∧ s.Apart x) (initial inodeVolume) s ∧
    s.fs.openInodes = [1, 0] ∧ s.held = [0, 1] ∧
    ∀ p ∈ s.fs.openInodes, ∀ q ∈ s.fs.openInodes, ∀ i j,
      s.fs.heap p = some i → s.fs.heap q = some j → i.sector = j.sector → p = q := by
  have heval : (exec step (fun s x => s.Owned x ∧ s.Apart x)
      (initial inodeVolume : OpenSystem (Fin 2))
      [(0, .inodeOpen 5), (1, .inodeOpen 6), (0, .malloc (some garbage)),
        (1, .malloc (some garbage)), (1, .cacheRead), (0, .cacheRead), (1, .inodeOpen 5),
        (0, .inodeClose 0)]).map (fun s => (s.fs.openInodes, s.held)) =
      some ([1, 0], [0, 1]) := by
    decide +kernel
  obtain ⟨s, hs, he⟩ := map_eq_some_iff.mp heval
  simp only [Prod.mk.injEq] at he
  have hrch := reaches_of_exec hs
  exact ⟨s, hrch, he.1, he.2, ((one_inode_per_sector (Fin 2) inodeVolume).2 s hrch).2⟩

end OpenSystem

end Pintos
