import Pintos.Filesys.CacheMonitors
import Mathlib.Logic.Relation

/-! # Deadlocks of the buffer cache

Which thread waits for which, over `cache_table_lock` and the locks of the entries.

* **Copies.**  The buffer of a caller may be on a page that is not in memory.  The page fault inside
  `memcpy` then reads the page through the cache, with the lock of the entry held (`PagedCache`).
* **Three places.**  Only three places hold one lock and wait for another: `cache_evict` with the lock
  of its victim, and a copy that has faulted, wait for the table, and `write_behind` with the table
  waits for a dirty entry.
* **Result.**  As long as no copy faults, there is no cycle if `cache_evict` and `write_behind` do not
  meet at one entry (`ordered`).  The first step at which two of the three meet makes one. -/

namespace Pintos
open Slots Runs Relation Function Option CachePc

/-- The locks of the cache. -/
inductive CacheLock where
  | table
  | entry (i : Slot)
deriving DecidableEq, Repr

namespace CachePc

/-- The lock that the next step acquires.  `lock_try_acquire` does not wait. -/
def wants : CachePc → Option CacheLock
  | .lookup _ | .miss _ | .recheck _ _ => some .table
  | .hit _ i | .lockVictim _ i | .woken _ i => some (.entry i)
  | _ => none

/-- The victim that `cache_evict` is about to lock. -/
def locking : CachePc → Option Slot
  | .lockVictim _ i => some i
  | _ => none

/-- The victim that `cache_evict` has locked, when it is about to lock the table again. -/
def rechecking : CachePc → Option Slot
  | .recheck _ i => some i
  | _ => none

variable {p : CachePc} {i : Slot}

theorem rechecking_eq_some : p.rechecking = some i ↔ ∃ a, p = .recheck a i := by
  cases p <;> simp [rechecking]

theorem locking_eq_some : p.locking = some i ↔ ∃ a, p = .lockVictim a i := by
  cases p <;> simp [locking]

theorem holds_of_wants (h : p.wants = some l) :
    p.holdsTable = false ∧ ((p.heldEntry = none ∧ p.rechecking = none) ∨
      ∃ i, p.rechecking = some i ∧ p.heldEntry = some i ∧ l = .table) := by
  cases p <;> simp [wants, holdsTable, heldEntry, rechecking] at h ⊢
  exact h.symm

end CachePc

/-- The lock that the next step of a thread acquires. -/
def Task.wants (p : CachePc) : Task → Option CacheLock
  | call | readAhead (.getting _) => p.wants
  | monitor _ i .woken => some (.entry i)
  | readAhead .start | readAhead (.again _) | writeBehind .start => some .table
  | writeBehind (.lockEntry i) | flushCache (.lockEntry i) => some (.entry i)
  | _ => none

/-- The entry that is being copied. -/
def Task.copying : Task → Option Slot
  | monitor _ i .counted => some i
  | _ => none

/-- The cache, and the threads whose copy has stopped at a page that is not in memory. -/
structure PagedCache (T : Type) where
  kernel : CacheKernel T
  faulted : T → Bool

/-- A step of the cache, or a page fault in the copy of a thread. -/
inductive PagedAction (T : Type) where
  | cache (act : KernelAction T)
  | fault (t : T)

def PagedAction.isFault {T : Type} : PagedAction T → Bool
  | cache _ => false
  | fault _ => true

namespace CacheKernel

variable {T : Type}

/-- The lock that `t` needs for its next step. -/
def wants (k : CacheKernel T) (t : T) : Option CacheLock := (k.task t).wants (k.sys.pc t)

def holder (k : CacheKernel T) : CacheLock → Option T
  | .table => k.sys.table
  | .entry i => k.sys.entryLock i

end CacheKernel

namespace PagedCache

variable {T : Type}

/-- One step.  What `page_fault` does once it has `cache_table_lock` is left open. -/
def step [DecidableEq T] (u : PagedCache T) : PagedAction T → Option (PagedCache T)
  | .cache act =>
    if u.faulted act.thread then none
    else (u.kernel.step act).map fun k => { u with kernel := k }
  | .fault t =>
    if u.faulted t = false ∧ (u.kernel.task t).copying.isSome then
      some { u with faulted := update u.faulted t true }
    else none

/-- After `cache_init`. -/
def boot (size : ℕ) (disk : ℕ → Block) : PagedCache T := ⟨.boot size disk, fun _ => false⟩

/-- The lock that `t` needs for its next step.  A page is read with `cache_read`, which begins with
the table. -/
def wants (u : PagedCache T) (t : T) : Option CacheLock :=
  if u.faulted t then some .table else u.kernel.wants t

/-- `t` needs a lock that `t'` holds. -/
def WaitsFor (u : PagedCache T) (t t' : T) : Prop :=
  ∃ l, u.wants t = some l ∧ u.kernel.holder l = some t'

/-- Some threads wait for each other in a circle. -/
def Deadlocked (u : PagedCache T) : Prop := ∃ t, TransGen u.WaitsFor t t

/-- The entry with whose lock `t` waits for the table. -/
def waitsWith (u : PagedCache T) (t : T) : Option Slot :=
  if u.faulted t then (u.kernel.task t).copying else (u.kernel.sys.pc t).rechecking

/-- `write_behind` does not go on to a dirty entry that a thread has locked that waits for the table,
`cache_evict` does not lock an entry that `write_behind` is waiting for, and no copy of such an entry
faults. -/
def ordered (u : PagedCache T) : PagedAction T → Prop
  | .cache (.run t _) =>
    (∀ (i : Slot) (t' : T), u.kernel.task t = .writeBehind (.scan i) →
      (u.kernel.sys.cache.entries i).dirty = true → u.waitsWith t' ≠ some i) ∧
    ∀ (i : Slot) (t' : T), (u.kernel.sys.pc t).locking = some i →
      u.kernel.task t' ≠ .writeBehind (.lockEntry i)
  | .cache _ => True
  | .fault t => ∀ (i : Slot) (t' : T), (u.kernel.task t).copying = some i →
      u.kernel.task t' ≠ .writeBehind (.lockEntry i)

instance [Fintype T] (u : PagedCache T) : (act : PagedAction T) → Decidable (u.ordered act)
  | .cache (.run _ _) => inferInstanceAs (Decidable (_ ∧ _))
  | .cache (.start _ _) | .cache (.readAhead _) | .cache (.writeBehind _) | .cache (.flush _) =>
    inferInstanceAs (Decidable True)
  | .fault t => inferInstanceAs (Decidable (∀ (i : Slot) (t' : T),
      (u.kernel.task t).copying = some i → u.kernel.task t' ≠ .writeBehind (.lockEntry i)))

/-- `write_behind` and a thread that waits for the table are not at one entry. -/
def Apart (u : PagedCache T) : Prop :=
  ∀ t t' i, u.kernel.task t = .writeBehind (.lockEntry i) → u.waitsWith t' ≠ some i

/-- The threads that have faulted are in the middle of a copy. -/
structure Inv (u : PagedCache T) : Prop where
  kernel : u.kernel.Inv
  copying : ∀ t, u.faulted t = true → (u.kernel.task t).copying.isSome

variable {u u' : PagedCache T} {k k' : CacheKernel T} {t t' w : T} {i j : Slot} {l : CacheLock}

theorem waitsWith_of_faulted (h : u.faulted t = true) :
    u.waitsWith t = (u.kernel.task t).copying := by
  rw [waitsWith, if_pos h]

theorem waitsWith_of_not_faulted (h : u.faulted t = false) :
    u.waitsWith t = (u.kernel.sys.pc t).rechecking := by
  rw [waitsWith, if_neg (by simp [h])]

theorem copying_eq_some {τ : Task} (h : τ.copying = some i) : ∃ a, τ = .monitor a i .counted := by
  unfold Task.copying at h
  split at h
  · cases h
    exact ⟨_, rfl⟩
  · cases h

/-! ### Threads that hold a lock and wait for another -/

/-- What a thread that waits for a lock holds. -/
inductive Blocked (u : PagedCache T) (t : T) : CacheLock → Prop
  | holdsNone {l : CacheLock} : u.kernel.holdsTable t = false → u.kernel.heldEntry t = none →
      Blocked u t l
  | writeBehind {i : Slot} : u.kernel.task t = .writeBehind (.lockEntry i) →
      u.kernel.heldEntry t = none → Blocked u t (.entry i)
  | table {i : Slot} : u.waitsWith t = some i → u.kernel.holdsTable t = false →
      u.kernel.heldEntry t = some i → Blocked u t .table

theorem blocked_of_not_faulted (hf : u.faulted t = false) (h : u.kernel.wants t = some l) :
    Blocked u t l := by
  have hplc : (u.kernel.task t).placed = true → (u.kernel.sys.pc t).wants = some l →
      Blocked u t l := by
    intro hp hw
    obtain ⟨htab, hent⟩ := CacheKernel.holds_of_placed hp
    obtain ⟨hno, ⟨hnone, -⟩ | ⟨i, hre, hheld, rfl⟩⟩ := holds_of_wants hw
    · exact .holdsNone (htab.trans hno) (hent.trans hnone)
    · exact .table ((waitsWith_of_not_faulted hf).trans hre) (htab.trans hno) (hent.trans hheld)
  have hnone : ∀ {τ}, u.kernel.task t = τ → τ.holdsTable (u.kernel.sys.pc t) = false →
      τ.heldEntry (u.kernel.sys.pc t) = none → Blocked u t l := by
    rintro τ rfl htab hent
    exact .holdsNone htab hent
  unfold CacheKernel.wants at h
  cases hτ : u.kernel.task t with
  | call =>
    rw [hτ] at h
    exact hplc (by rw [hτ]; rfl) h
  | monitor a i stage =>
    rw [hτ] at h
    cases stage with
    | woken => exact hnone hτ rfl rfl
    | _ => cases h
  | readAhead p =>
    rw [hτ] at h
    cases p with
    | getting i => exact hplc (by rw [hτ]; rfl) h
    | start | again => exact hnone hτ rfl rfl
    | _ => cases h
  | writeBehind p =>
    rw [hτ] at h
    cases p with
    | start => exact hnone hτ rfl rfl
    | lockEntry i =>
      cases h
      exact .writeBehind hτ (by simp [CacheKernel.heldEntry, hτ, Task.heldEntry])
    | _ => cases h
  | flushCache p =>
    rw [hτ] at h
    cases p with
    | lockEntry i => exact hnone hτ rfl rfl
    | _ => cases h

theorem Inv.heldEntry_of_waitsWith (h : u.Inv) (hw : u.waitsWith t = some i) :
    u.wants t = some .table ∧ u.kernel.holdsTable t = false ∧ u.kernel.heldEntry t = some i := by
  cases hf : u.faulted t with
  | true =>
    rw [waitsWith_of_faulted hf] at hw
    obtain ⟨a, hτ⟩ := copying_eq_some hw
    refine ⟨by rw [wants, if_pos hf], ?_, ?_⟩
    · rw [CacheKernel.holdsTable, hτ]
      rfl
    · rw [CacheKernel.heldEntry, hτ]
      rfl
  | false =>
    rw [waitsWith_of_not_faulted hf] at hw
    obtain ⟨a, hpc⟩ := rechecking_eq_some.mp hw
    have hplc : (u.kernel.task t).placed = true := by
      by_contra hno
      simp [h.kernel.outside t (by simpa using hno)] at hpc
    refine ⟨?_, ?_, ?_⟩
    · rw [wants, if_neg (by simp [hf]), CacheKernel.wants]
      cases hτ : u.kernel.task t with
      | call => rw [hpc]; rfl
      | readAhead p =>
        rw [hτ] at hplc
        cases p with
        | getting => rw [hpc]; rfl
        | _ => cases hplc
      | _ => rw [hτ] at hplc; cases hplc
    · rw [(CacheKernel.holds_of_placed hplc).1, hpc]
      rfl
    · rw [(CacheKernel.holds_of_placed hplc).2, hpc]
      rfl

theorem Inv.blocked_of_wants (h : u.Inv) (hw : u.wants t = some l) : Blocked u t l := by
  cases hf : u.faulted t with
  | false =>
    rw [wants, if_neg (by simp [hf])] at hw
    exact blocked_of_not_faulted hf hw
  | true =>
    rw [wants, if_pos hf] at hw
    cases hw
    obtain ⟨i, hi⟩ := isSome_iff_exists.mp (h.copying t hf)
    have hwith := (waitsWith_of_faulted hf).trans hi
    obtain ⟨-, htab, hent⟩ := h.heldEntry_of_waitsWith hwith
    exact .table hwith htab hent

theorem holder_iff (h : k.Inv) : k.holder l = some t ↔
    (l = .table ∧ k.holdsTable t = true) ∨ ∃ i, l = .entry i ∧ k.heldEntry t = some i := by
  cases l with
  | table => simpa [CacheKernel.holder] using (h.owns t).1
  | entry i => simpa [CacheKernel.holder] using (h.owns t).2 i

theorem exists_next_of_cycle {R : T → T → Prop} (h : TransGen R t t) :
    (∃ t', R t' t) ∧ ∃ t', R t t' ∧ TransGen R t' t' := by
  obtain ⟨t', hnext, hback⟩ := TransGen.head'_iff.mp h
  obtain ⟨s, -, hlast⟩ := TransGen.tail'_iff.mp h
  exact ⟨⟨s, hlast⟩, t', hnext, .tail' hback hnext⟩

theorem Inv.blocked_of_cycle (h : u.Inv) (hcyc : TransGen u.WaitsFor t t) :
    (∃ i, u.kernel.task t = .writeBehind (.lockEntry i) ∧ u.wants t = some (.entry i) ∧
      u.kernel.heldEntry t = none) ∨
    ∃ i, u.waitsWith t = some i ∧ u.wants t = some .table ∧
      u.kernel.holdsTable t = false ∧ u.kernel.heldEntry t = some i := by
  obtain ⟨⟨s, l', -, hheld⟩, t', ⟨l, hl, -⟩, -⟩ := exists_next_of_cycle hcyc
  cases h.blocked_of_wants hl with
  | holdsNone htab hent =>
    rcases (holder_iff h.kernel).mp hheld with ⟨-, ht⟩ | ⟨i, -, ht⟩
    · simp [htab] at ht
    · simp [hent] at ht
  | writeBehind hτ hent => exact .inl ⟨_, hτ, hl, hent⟩
  | table hwith htab hent => exact .inr ⟨_, hwith, hl, htab, hent⟩

theorem Inv.wants_of_lockEntry (h : u.Inv) (hτ : u.kernel.task t = .writeBehind (.lockEntry i)) :
    u.wants t = some (.entry i) := by
  have hf : u.faulted t = false := by
    by_contra hno
    have hcop := h.copying t (by simpa using hno)
    rw [hτ] at hcop
    cases hcop
  rw [wants, if_neg (by simp [hf]), CacheKernel.wants, hτ]
  rfl

/-- If the two are apart, `write_behind` waits for a thread that goes on. -/
theorem Inv.not_cycle_of_writeBehind (h : u.Inv) (hapr : u.Apart)
    (hτ : u.kernel.task t = .writeBehind (.lockEntry i)) : ¬ TransGen u.WaitsFor t t := by
  intro hcyc
  obtain ⟨-, t', ⟨l, hl, hheld⟩, hcyc'⟩ := exists_next_of_cycle hcyc
  obtain rfl := mem_unique (h.wants_of_lockEntry hτ) hl
  obtain ⟨he, -⟩ | ⟨i', hi', ht'⟩ := (holder_iff h.kernel).mp hheld
  · cases he
  · obtain rfl := CacheLock.entry.inj hi'
    obtain ⟨j, -, -, hnone⟩ | ⟨j, hwith, -, -, hj⟩ := h.blocked_of_cycle hcyc'
    · simp [hnone] at ht'
    · obtain rfl := mem_unique hj ht'
      exact hapr t t' j hτ hwith

theorem Inv.not_deadlocked (h : u.Inv) (hapr : u.Apart) : ¬ u.Deadlocked := by
  rintro ⟨t, hcyc⟩
  obtain ⟨i, hτ, -⟩ | ⟨i, -, hwnt, -⟩ := h.blocked_of_cycle hcyc
  · exact h.not_cycle_of_writeBehind hapr hτ hcyc
  · obtain ⟨-, t', ⟨l, hl, hheld⟩, hcyc'⟩ := exists_next_of_cycle hcyc
    cases mem_unique hwnt hl
    obtain ⟨-, htab⟩ | ⟨i', hi', -⟩ := (holder_iff h.kernel).mp hheld
    · obtain ⟨j, hτ, -⟩ | ⟨j, -, -, hno, -⟩ := h.blocked_of_cycle hcyc'
      · exact h.not_cycle_of_writeBehind hapr hτ hcyc'
      · simp [hno] at htab
    · cases hi'

/-! ### Steps -/

variable [DecidableEq T]

theorem step_others {act : KernelAction T} (hinv : k.Inv) (hs : k.step act = some k')
    (e : t' ≠ act.thread) : k'.task t' = k.task t' ∧ k'.sys.pc t' = k.sys.pc t' := by
  cases act with
  | run t w =>
    have e' : t' ≠ t := e
    cases hinv.did hs with
    | run hτ _ hran =>
      have howns := hinv.owns t
      rw [(CacheKernel.holds_of_placed hτ).1, (CacheKernel.holds_of_placed hτ).2] at howns
      exact ⟨rfl, (hran.owns howns).2.pc t' e'⟩
    | _ => simp [CacheKernel.next, CacheSystem.next, e']
  | start t a =>
    obtain ⟨-, ⟨⟩⟩ := ite_none_right_eq_some.mp hs
    exact ⟨rfl, update_of_ne e ..⟩
  | readAhead t | writeBehind t | flush t =>
    obtain ⟨-, ⟨⟩⟩ := ite_none_right_eq_some.mp hs
    exact ⟨update_of_ne e .., rfl⟩

theorem step_eq_some {act : KernelAction T} (hs : u.step (.cache act) = some u') :
    u.faulted act.thread = false ∧ ∃ k, u.kernel.step act = some k ∧ u' = { u with kernel := k } := by
  simp only [step, ite_none_left_eq_some, map_eq_some_iff, Bool.not_eq_true] at hs
  obtain ⟨hf, k, hk, rfl⟩ := hs
  exact ⟨hf, k, hk, rfl⟩

theorem fault_eq_some (hs : u.step (.fault t) = some u') :
    (u.kernel.task t).copying.isSome ∧ u' = { u with faulted := update u.faulted t true } := by
  simp only [step, ite_none_right_eq_some, some.injEq] at hs
  exact ⟨hs.1.2, hs.2.symm⟩

theorem Inv.step {act : PagedAction T} (h : u.Inv) (hs : u.step act = some u') : u'.Inv := by
  cases act with
  | cache act =>
    obtain ⟨hf, k, hk, rfl⟩ := step_eq_some hs
    refine ⟨h.kernel.step hk, fun t ht => ?_⟩
    have hne : t ≠ act.thread := by
      rintro rfl
      exact absurd (hf.symm.trans ht) Bool.false_ne_true
    rw [(step_others h.kernel hk hne).1]
    exact h.copying t ht
  | fault t =>
    obtain ⟨hcop, rfl⟩ := fault_eq_some hs
    refine ⟨h.kernel, fun t' ht' => ?_⟩
    by_cases e : t' = t
    · exact e ▸ hcop
    · exact h.copying t' (by simpa [e] using ht')

theorem lockEntry_of_did (h : CacheKernel.Did k t k') (hτ : k'.task t = .writeBehind (.lockEntry i)) :
    k.task t = .writeBehind (.scan i) ∧ (k.sys.cache.entries i).dirty = true := by
  cases h with
  | run hp =>
    rw [show k.task t = _ from hτ] at hp
    cases hp
  | behindDirty hscan hd =>
    rw [CacheKernel.next_task, Task.writeBehind.injEq, OutPc.lockEntry.injEq] at hτ
    exact hτ ▸ ⟨hscan, hd⟩
  | flushScan _ h' =>
    rw [CacheKernel.next_task] at hτ
    subst hτ
    simp at h'
  | outLock h' | outWrite h' | outUnlock h' =>
    rw [CacheKernel.next_task] at hτ
    rcases h' with rfl | rfl <;> cases hτ
  | _ =>
    simp at hτ

/-- How `cache_evict` comes to wait for the table. -/
theorem locking_of_did (h : CacheKernel.Did k t k') (hre : (k'.sys.pc t).rechecking = some i) :
    (k.sys.pc t).locking = some i := by
  cases h with
  | run _ hens hran =>
    generalize k.sys.pc t = p at hran hens
    cases hran with
    | hit | skip | fetch => cases hens
    | lockVictim =>
      simp only [CacheSystem.next_pc_self] at hre
      exact hre
    | @looked a found => cases found <;> simp [afterLookup, rechecking] at hre
    | @evicting a v => cases v <;> simp [afterEvict, rechecking] at hre
    | _ => simp [rechecking] at hre
  | aheadGet _ _ hp =>
    rw [CacheKernel.next_pc] at hre
    obtain ⟨j, rfl⟩ | ⟨v, rfl⟩ := hp <;> cases hre
  | _ =>
    rw [CacheKernel.next_pc] at hre
    cases hre

theorem Apart.step {act : PagedAction T} (hinv : u.Inv) (h : u.Apart) (hok : u.ordered act)
    (hs : u.step act = some u') : u'.Apart := by
  have hinv' := hinv.step hs
  intro t1 t2 i hτ hwith
  cases act with
  | fault t =>
    obtain ⟨-, rfl⟩ := fault_eq_some hs
    by_cases e : t2 = t
    · rw [waitsWith_of_faulted (by simp [e])] at hwith
      exact hok i t1 (e ▸ hwith) hτ
    · exact h t1 t2 i hτ (by simpa [waitsWith, e] using hwith)
  | cache act =>
    obtain ⟨hf, k, hk, rfl⟩ := step_eq_some hs
    have hf' : ({ u with kernel := k } : PagedCache T).faulted act.thread = false := hf
    -- a thread that has not moved is where it was
    have hkept : t2 ≠ act.thread → u.waitsWith t2 = some i := by
      intro e
      obtain ⟨ht, hp⟩ := step_others hinv.kernel hk e
      simpa only [waitsWith, ht, hp] using hwith
    by_cases e1 : t1 = act.thread
    · have e2 : t2 ≠ act.thread := by
        intro e2
        rw [e2, waitsWith_of_not_faulted hf', ← e1, hinv'.kernel.outside t1 (by rw [hτ]; rfl)]
          at hwith
        cases hwith
      cases act with
      | run t w =>
        obtain ⟨hscan, hd⟩ := lockEntry_of_did (hinv.kernel.did hk) (e1 ▸ hτ)
        exact hok.1 i t2 hscan hd (hkept e2)
      | start t a =>
        obtain ⟨-, ⟨⟩⟩ := ite_none_right_eq_some.mp hk
        exact h t1 t2 i hτ (hkept e2)
      | readAhead t | writeBehind t | flush t =>
        obtain ⟨-, ⟨⟩⟩ := ite_none_right_eq_some.mp hk
        obtain rfl : t1 = t := e1
        simp [CacheKernel.goTo] at hτ
    · rw [(step_others hinv.kernel hk e1).1] at hτ
      by_cases e2 : t2 = act.thread
      · rw [e2, waitsWith_of_not_faulted hf'] at hwith
        cases act with
        | run t w => exact hok.2 i t1 (locking_of_did (hinv.kernel.did hk) hwith) hτ
        | start t a =>
          obtain ⟨-, ⟨⟩⟩ := ite_none_right_eq_some.mp hk
          simp [CacheSystem.goTo, KernelAction.thread, rechecking] at hwith
        | readAhead t | writeBehind t | flush t =>
          obtain ⟨-, ⟨⟩⟩ := ite_none_right_eq_some.mp hk
          exact h t1 t i hτ ((waitsWith_of_not_faulted hf).trans hwith)
      · exact h t1 t2 i hτ (hkept e2)

/-! ### When the two meet -/

omit [DecidableEq T] in
theorem Inv.deadlocked_iff (h : u.Inv) : u.Deadlocked ↔ ¬ u.Apart := by
  refine ⟨fun hd hapr => h.not_deadlocked hapr hd, fun hno => ?_⟩
  simp only [Apart, not_forall, not_not] at hno
  obtain ⟨t, t', i, hτ, hwith⟩ := hno
  obtain ⟨hwnt, -, hent⟩ := h.heldEntry_of_waitsWith hwith
  -- the two wait for each other
  have hw : u.WaitsFor t t' :=
    ⟨.entry i, h.wants_of_lockEntry hτ, (holder_iff h.kernel).mpr (.inr ⟨i, rfl, hent⟩)⟩
  have hw' : u.WaitsFor t' t := by
    refine ⟨.table, hwnt, (holder_iff h.kernel).mpr (.inl ⟨rfl, ?_⟩)⟩
    rw [CacheKernel.holdsTable, hτ]
    rfl
  exact ⟨t, .tail (.single hw) hw'⟩

/-- `cache_evict` locks its victim. -/
theorem rechecking_of_locking (h : k.Inv) (hlock : (k.sys.pc t).locking = some i)
    (hs : k.runThread t w = some k') : k'.task = k.task ∧ (k'.sys.pc t).rechecking = some i := by
  obtain ⟨a, hpc⟩ := locking_eq_some.mp hlock
  have hrun : ∀ {w' m}, k.sys.runThread t w' = some m → (m.pc t).rechecking = some i := by
    intro w' m hm
    simp only [CacheSystem.runThread, hpc] at hm
    obtain ⟨m1, -, rfl⟩ := map_eq_some_iff.mp hm
    simp [CacheSystem.goTo, rechecking]
  have hplc : (k.task t).placed = true := by
    by_contra hno
    simp [h.outside t (by simpa using hno)] at hpc
  unfold CacheKernel.runThread at hs
  cases hτ : k.task t with
  | call =>
    simp only [hτ, CacheKernel.callStep, hpc] at hs
    obtain ⟨m, hm, rfl⟩ := map_eq_some_iff.mp hs
    exact ⟨rfl, hrun hm⟩
  | readAhead p =>
    rw [hτ] at hplc
    cases p with
    | getting =>
      simp only [hτ, CacheKernel.readAheadStep, hpc] at hs
      obtain ⟨m, hm, rfl⟩ := map_eq_some_iff.mp hs
      exact ⟨rfl, hrun hm⟩
    | _ => cases hplc
  | _ => rw [hτ] at hplc; cases hplc

theorem Inv.not_apart {act : PagedAction T} (h : u.Inv) (hno : ¬ u.ordered act)
    (hs : u.step act = some u') : ¬ u'.Apart := by
  intro hapr
  cases act with
  | fault t =>
    simp only [ordered, not_forall, not_not] at hno
    obtain ⟨i, t', hcop, hτ⟩ := hno
    obtain ⟨-, rfl⟩ := fault_eq_some hs
    exact hapr t' t i hτ ((waitsWith_of_faulted (by simp)).trans hcop)
  | cache act =>
    obtain ⟨hf, k, hk, rfl⟩ := step_eq_some hs
    cases act with
    | run t w =>
      simp only [ordered, not_and_or, not_forall, not_not] at hno
      obtain ⟨i, t', hτ, hd, hwith⟩ | ⟨i, t', hlock, hτ⟩ := hno
      · simp only [CacheKernel.step, CacheKernel.runThread, hτ, CacheKernel.writeBehindStep, i.isLt,
          dif_pos, hd, if_true, some.injEq] at hk
        subst hk
        refine hapr t t' i (by simp [CacheKernel.goTo]) ?_
        have hf' : u.faulted t = false := hf
        by_cases e : t' = t
        · rw [e, waitsWith_of_not_faulted hf'] at hwith
          rw [e, waitsWith, if_neg (by simp [hf'])]
          exact hwith
        · simpa [waitsWith, CacheKernel.goTo, e] using hwith
      · obtain ⟨htask, hre⟩ := rechecking_of_locking h.kernel hlock hk
        refine hapr t' t i (by rw [htask]; exact hτ) ?_
        rw [waitsWith, if_neg (by simp [show u.faulted t = false from hf])]
        exact hre
    | _ => exact hno trivial

/-- **There is no deadlock** in a run whose steps are all ordered and in which no copy faults, and the
first step that is not ordered makes one. -/
theorem deadlock_free {size : ℕ} {disk : ℕ → Block} {u : PagedCache T}
    (hr : Reaches step (fun u act => u.ordered act ∧ act.isFault = false) (boot size disk) u) :
    (∀ t, ¬ TransGen u.WaitsFor t t) ∧
      ∀ act u', u.step act = some u' → ((∀ t, ¬ TransGen u'.WaitsFor t t) ↔ u.ordered act) := by
  obtain ⟨hinv, hapr⟩ := hr.invariant (P := fun u => u.Inv ∧ u.Apart)
    ⟨⟨CacheKernel.inv_boot size disk, nofun⟩, nofun⟩
    fun _ _ _ h hok hs => ⟨h.1.step hs, h.2.step h.1 hok.1 hs⟩
  refine ⟨fun t ht => hinv.not_deadlocked hapr ⟨t, ht⟩, fun act u' hs => ⟨fun hno => ?_,
    fun hok t ht => (hinv.step hs).not_deadlocked (hapr.step hinv hok hs) ⟨t, ht⟩⟩⟩
  by_contra hbad
  obtain ⟨t, ht⟩ := (hinv.step hs).deadlocked_iff.mpr (hinv.not_apart hbad hs)
  exact hno t ht

/-- `write_behind` waits for a thread that reads the entry, and for nobody else. -/
theorem deadlock_free_read :
    ∃ u : PagedCache (Fin 2),
      Reaches step (fun u act => u.ordered act ∧ act.isFault = false) (boot 16 fun _ _ => 0) u ∧
      u.WaitsFor 1 0 ∧ ∀ t, ¬ TransGen u.WaitsFor t t := by
  have h : (exec step (fun u act => u.ordered act ∧ act.isFault = false)
      (boot 16 fun _ _ => 0 : PagedCache (Fin 2))
      (([.start 0 (.write 5 (List.replicate 512 7) 0)] ++ List.replicate 12 (.run 0 0) ++
        [.start 0 (.read 5 4 0), .run 0 0, .run 0 0, .run 0 0, .writeBehind 1, .run 1 1,
          .run 1 1] : List (KernelAction (Fin 2))).map .cache)).map (fun u => (u.wants 1, u.kernel.holder (.entry 0))) =
      some (some (.entry 0), some 0) := by
    decide +kernel
  obtain ⟨u, hexec, hv⟩ := map_eq_some_iff.mp h
  obtain ⟨hwnt, hheld⟩ := Prod.mk.inj hv
  have hr := reaches_of_exec hexec
  exact ⟨u, hr, ⟨_, hwnt, hheld⟩, (deadlock_free hr).1⟩

/-- A thread fills the cache and goes on to evict the entry of sector 0; when it has locked the
entry, `write_behind` locks the table and comes to the entry. -/
theorem deadlock_write_behind :
    ∃ u : PagedCache (Fin 2),
      Reaches step (fun _ act => act.isFault = false) (boot 128 fun _ _ => 0) u ∧
      u.WaitsFor 0 1 ∧ u.WaitsFor 1 0 ∧ TransGen u.WaitsFor 0 0 := by
  have h : (exec step (fun _ act => act.isFault = false) (boot 128 fun _ _ => 0 : PagedCache (Fin 2))
      ((((List.range 64).flatMap fun s =>
          .start 0 (.write s [7] 0) :: List.replicate 12 (.run 0 0)) ++
        .start 0 (.write 64 [7] 0) :: List.replicate 5 (.run 0 0) ++
        [.writeBehind 1, .run 1 1, .run 1 1] : List (KernelAction (Fin 2))).map .cache)).map
        (fun u => (u.wants 0, u.kernel.holder .table, u.wants 1, u.kernel.holder (.entry 0))) =
      some (some .table, some 1, some (.entry 0), some 0) := by
    decide +kernel
  obtain ⟨u, hexec, hv⟩ := map_eq_some_iff.mp h
  simp only [Prod.mk.injEq] at hv
  obtain ⟨hwnt, htbl, hwnt', henr⟩ := hv
  have hw : u.WaitsFor 0 1 := ⟨_, hwnt, htbl⟩
  have hw' : u.WaitsFor 1 0 := ⟨_, hwnt', henr⟩
  exact ⟨u, reaches_of_exec hexec, hw, hw', .tail (.single hw) hw'⟩

end PagedCache

end Pintos
