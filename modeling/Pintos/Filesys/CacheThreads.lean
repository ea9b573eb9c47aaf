import Pintos.Filesys.Cache

/-! # Threads in the buffer cache

`cache_read` and `cache_write` as any number of threads execute them.  A step of a thread begins
with the lock operation, or the access to the device, at which the thread stands, and goes on to
the next one.

* **Locks.**  `table` and `entryLock` are the holders of `cache_table_lock` and of the lock of each
  entry.  A thread whose next step is to take a lock that is held cannot step; any waiting thread
  may be the next to get a lock.
* **Condition variables.**  A thread that waits inside the monitor of an entry is at `waiting`.
  The thread that leaves the monitor moves it to `woken`; which of several writers it wakes is part
  of the action. -/


namespace Pintos
open Slots Runs Function Option Cache CacheEntry

/-- A slot of `sector_cache`. -/
abbrev Slot := Fin CACHE_SIZE

/-- Where a thread is in `cache_read` or `cache_write`. -/
inductive CachePc where
  /-- In neither function. -/
  | idle
  /-- About to take `cache_table_lock` at the top of the loop. -/
  | lookup (a : Access)
  /-- About to release it. -/
  | looked (a : Access) (found : Option Slot)
  /-- About to take the lock of the entry that holds the sector. -/
  | hit (a : Access) (i : Slot)
  /-- About to take `cache_table_lock` for `get_free_cache`. -/
  | miss (a : Access)
  /-- In `get_free_cache`, about to call `lock_try_acquire` on the free slot. -/
  | tryFree (a : Access) (i : Slot)
  /-- In `get_free_cache`, about to release `cache_table_lock`. -/
  | claimed (a : Access) (i : Slot)
  /-- In `cache_evict`, about to release `cache_table_lock` after `lru_evict`. -/
  | evicting (a : Access) (victim : Option Slot)
  /-- In `cache_evict`, about to take the lock of the victim. -/
  | lockVictim (a : Access) (i : Slot)
  /-- In `cache_evict`, about to take `cache_table_lock` again. -/
  | recheck (a : Access) (i : Slot)
  /-- The sector is in slot `j` by now; about to release `cache_table_lock`. -/
  | spared (a : Access) (i j : Slot)
  /-- About to release the lock of the victim that was not needed. -/
  | unlockVictim (a : Access) (i j : Slot)
  /-- The victim has been given to the sector; about to release `cache_table_lock`. -/
  | retargeted (a : Access) (i : Slot) (old : Option ℕ)
  /-- About to write the old sector to the device. -/
  | writeBack (a : Access) (i : Slot) (old : Option ℕ)
  /-- About to read the sector from the device. -/
  | fetching (a : Access) (i : Slot)
  /-- The entry holds another sector; about to release its lock. -/
  | mismatch (a : Access) (i : Slot)
  /-- About to release the lock of the entry inside `cond_wait`. -/
  | parking (a : Access) (i : Slot)
  /-- Waiting inside `cond_wait`. -/
  | waiting (a : Access) (i : Slot)
  /-- Woken inside `cond_wait`, about to take the lock of the entry again. -/
  | woken (a : Access) (i : Slot)
  /-- Done; about to release the lock of the entry. -/
  | finished (a : Access) (i : Slot) (bytes : List UInt8)
deriving DecidableEq, Repr

/-- The cache with its threads. -/
structure CacheSystem (T : Type) where
  cache : Cache
  table : Option T
  entryLock : Slot → Option T
  pc : T → CachePc

/-- What a thread does next. -/
inductive CacheAction (T : Type) where
  /-- Call `cache_read` or `cache_write`. -/
  | start (t : T) (a : Access)
  /-- Go on to the next boundary; `w` is the writer that is woken, should one be. -/
  | run (t : T) (w : T)

/-- Where a caller goes after it has looked the sector up. -/
def CachePc.afterLookup (a : Access) : Option Slot → CachePc
  | some i => .hit a i
  | none => .miss a

/-- Where `cache_evict` goes, or its caller when there is no victim. -/
def CachePc.afterEvict (a : Access) : Option Slot → CachePc
  | some i => .lockVictim a i
  | none => .lookup a

/-- `cache_table_lock` is held there. -/
def CachePc.holdsTable : CachePc → Bool
  | .looked _ _ | .tryFree _ _ | .claimed _ _ | .evicting _ _ | .spared _ _ _
  | .retargeted _ _ _ => true
  | _ => false

namespace CacheSystem

variable {T : Type} [DecidableEq T]

def goTo (m : CacheSystem T) (t : T) (p : CachePc) : CacheSystem T :=
  { m with pc := update m.pc t p }

def setCache (m : CacheSystem T) (c : Cache) : CacheSystem T := { m with cache := c }

/-- `lock_acquire (&cache_table_lock)`, and the assertion that follows it everywhere. -/
def takeTable (m : CacheSystem T) (t : T) : Option (CacheSystem T) :=
  if m.table = none ∧ m.cache.lru.length ≤ CACHE_SIZE then some { m with table := some t }
  else none

def giveTable (m : CacheSystem T) (t : T) : Option (CacheSystem T) :=
  if m.table = some t then some { m with table := none } else none

/-- `lock_acquire`, or a `lock_try_acquire` that is asserted to succeed, on an entry. -/
def takeEntry (m : CacheSystem T) (t : T) (i : Slot) : Option (CacheSystem T) :=
  if m.entryLock i = none then some { m with entryLock := update m.entryLock i (some t) }
  else none

def giveEntry (m : CacheSystem T) (t : T) (i : Slot) : Option (CacheSystem T) :=
  if m.entryLock i = some t then some { m with entryLock := update m.entryLock i none }
  else none

/-- `cond_broadcast` to the readers of an entry. -/
def wakeReaders (m : CacheSystem T) (i : Slot) : CacheSystem T :=
  { m with
    pc := fun t =>
      match m.pc t with
      | .waiting (.read s size offset) j =>
        if j = i then .woken (.read s size offset) i else .waiting (.read s size offset) j
      | p => p }

/-- `cond_signal` to the writers of an entry, if `w` is one of them. -/
def wakeWriter (m : CacheSystem T) (i : Slot) (w : T) : CacheSystem T :=
  match m.pc w with
  | .waiting (.write s buf offset) j => if j = i then m.goTo w (.woken (.write s buf offset) i) else m
  | _ => m

/-- The signals at the end of both functions, for the entry as it was before the mode changed. -/
def signal (m : CacheSystem T) (e : CacheEntry) (a : Access) (i : Slot) (w : T) : CacheSystem T :=
  match a with
  | .read _ _ _ =>
    if e.readerActive = 0 ∧ 0 < e.writerWaiting then m.wakeWriter i w else m
  | .write _ _ _ =>
    if 0 < e.readerWaiting then m.wakeReaders i
    else if 0 < e.writerWaiting then m.wakeWriter i w else m

/-- Inside the monitor of entry `i`, whose fields are now `e`. -/
def workIn (m : CacheSystem T) (t w : T) (a : Access) (i : Slot) (e : CacheEntry) :
    Option (CacheSystem T) :=
  (e.work a).map fun (bytes, e') =>
    ((m.setCache ((m.cache.setEntry i e').lineUp a.sector)).signal e a i w).goTo t
      (.finished a i bytes)

/-- Count a waiting thread. -/
def countWaiting (e : CacheEntry) (a : Access) (d : UInt8) : CacheEntry :=
  match a with
  | .read _ _ _ => { e with readerWaiting := e.readerWaiting + d }
  | .write _ _ _ => { e with writerWaiting := e.writerWaiting + d }

/-- With the lock of entry `i`: test the sector, enter the monitor and work, or wait. -/
def enterEntry (m : CacheSystem T) (t w : T) (a : Access) (i : Slot) : Option (CacheSystem T) :=
  let e := m.cache.entries i
  if e.sector = some a.sector then
    match e.enter a with
    | some e' => m.workIn t w a i e'
    | none => some ((m.setCache (m.cache.setEntry i (countWaiting e a 1))).goTo t (.parking a i))
  else some (m.goTo t (.mismatch a i))

/-- The rest of `cache_read` and `cache_write` after `cond_wait`. -/
def enterWoken (m : CacheSystem T) (t w : T) (a : Access) (i : Slot) : Option (CacheSystem T) :=
  let e := countWaiting (m.cache.entries i) a (-1)
  if a.writing ∨ e.sector = some a.sector then m.workIn t w a i e else none

/-- One step of thread `t`. -/
def runThread (m : CacheSystem T) (t w : T) : Option (CacheSystem T) :=
  match m.pc t with
  | .idle => none
  | .lookup a =>
    (m.takeTable t).map fun m => m.goTo t (.looked a (m.cache.sectorToCache a.sector))
  | .looked a found =>
    (m.giveTable t).map fun m => m.goTo t (.afterLookup a found)
  | .hit a i => (m.takeEntry t i).bind fun m => m.enterEntry t w a i
  | .miss a =>
    (m.takeTable t).bind fun m =>
      match freeSlot m.cache.sectors with
      | some i => some (m.goTo t (.tryFree a i))
      | none => m.cache.lruEvict.map fun (v, c) => (m.setCache c).goTo t (.evicting a v)
  | .tryFree a i =>
    (m.takeEntry t i).bind fun m =>
      (m.cache.claimSlot i a.sector).map fun c => (m.setCache c).goTo t (.claimed a i)
  | .claimed a i => (m.giveTable t).map fun m => m.goTo t (.fetching a i)
  | .evicting a victim =>
    (m.giveTable t).map fun m => m.goTo t (.afterEvict a victim)
  | .lockVictim a i => (m.takeEntry t i).map fun m => m.goTo t (.recheck a i)
  | .recheck a i =>
    (m.takeTable t).bind fun m =>
      match m.cache.sectorToCache a.sector with
      | some j =>
        ((m.cache.entries i).sector.bind m.cache.lruEnqueue).map fun c =>
          (m.setCache c).goTo t (.spared a i j)
      | none =>
        (m.cache.retarget i a.sector).map fun c =>
          (m.setCache c).goTo t (.retargeted a i (m.cache.entries i).sector)
  | .spared a i j => (m.giveTable t).map fun m => m.goTo t (.unlockVictim a i j)
  | .unlockVictim a i j => (m.giveEntry t i).map fun m => m.goTo t (.hit a j)
  | .retargeted a i old => (m.giveTable t).map fun m => m.goTo t (.writeBack a i old)
  | .writeBack a i old =>
    (m.cache.writeBack i old).map fun c => (m.setCache c).goTo t (.fetching a i)
  | .fetching a i =>
    (m.cache.fetch i a.sector a.writing).bind fun c => (m.setCache c).enterEntry t w a i
  | .mismatch a i => (m.giveEntry t i).map fun m => m.goTo t (.lookup a)
  | .parking a i => (m.giveEntry t i).map fun m => m.goTo t (.waiting a i)
  | .waiting _ _ => none
  | .woken a i => (m.takeEntry t i).bind fun m => m.enterWoken t w a i
  | .finished _ i _ => (m.giveEntry t i).map fun m => m.goTo t .idle

/-- One step of the system. -/
def step (m : CacheSystem T) : CacheAction T → Option (CacheSystem T)
  | .start t a => if m.pc t = .idle ∧ a.valid then some (m.goTo t (.lookup a)) else none
  | .run t w => m.runThread t w

/-- No thread is in the cache. -/
def quiet (c : Cache) : CacheSystem T where
  cache := c
  table := none
  entryLock := fun _ => none
  pc := fun _ => .idle

variable {m m' : CacheSystem T} {t w : T} {a : Access} {i : Slot}

/-! ### Where the sector fields change -/

/-- A step of `t` that touches neither `cache_table_lock` nor any `sector` field. -/
structure Local (t : T) (m m' : CacheSystem T) : Prop where
  sectors : m'.cache.sectors = m.cache.sectors
  table : m'.table = m.table
  self : ¬ (m'.pc t).holdsTable
  others : ∀ t', t' ≠ t → m'.pc t' = m.pc t' ∨ ¬ (m'.pc t').holdsTable

variable {e e' : CacheEntry} {c c' : Cache} {s : ℕ}

theorem enter_sector (h : e.enter a = some e') : e'.sector = e.sector := by
  cases a with
  | read =>
    simp only [enter] at h
    split_ifs at h <;> cases h <;> rfl
  | write =>
    simp only [enter, ite_none_right_eq_some, some.injEq] at h
    exact h.2 ▸ rfl

theorem work_sector (h : e.work a = some (bytes, e')) : e'.sector = e.sector := by
  cases a with
  | read =>
    simp only [work, ite_none_right_eq_some] at h
    obtain ⟨-, -, rfl⟩ := h
    unfold readerLeave
    dsimp only
    split_ifs <;> rfl
  | write =>
    simp only [work, ite_none_right_eq_some] at h
    obtain ⟨-, -, rfl⟩ := h
    unfold writerLeave
    split_ifs <;> rfl

/-- Signals move threads from `waiting` to `woken`. -/
theorem signal_spec (m : CacheSystem T) (e : CacheEntry) (a : Access) (i : Slot) (w : T) :
    (m.signal e a i w).cache = m.cache ∧ (m.signal e a i w).table = m.table ∧
      ∀ t, (m.signal e a i w).pc t = m.pc t ∨ ¬ ((m.signal e a i w).pc t).holdsTable := by
  have hw : (m.wakeWriter i w).cache = m.cache ∧ (m.wakeWriter i w).table = m.table ∧
      ∀ t, (m.wakeWriter i w).pc t = m.pc t ∨ ¬ ((m.wakeWriter i w).pc t).holdsTable := by
    unfold wakeWriter
    split
    · split_ifs
      · refine ⟨rfl, rfl, fun t => ?_⟩
        by_cases h : t = w
        · subst h; simp [goTo, CachePc.holdsTable]
        · simp [goTo, h]
      · exact ⟨rfl, rfl, fun t => .inl rfl⟩
    · exact ⟨rfl, rfl, fun t => .inl rfl⟩
  have hr : ∀ t, (m.wakeReaders i).pc t = m.pc t ∨ ¬ ((m.wakeReaders i).pc t).holdsTable := by
    intro t
    unfold wakeReaders
    dsimp only
    split
    · split_ifs <;> simp [CachePc.holdsTable]
    · exact .inl rfl
  unfold signal
  cases a with
  | read =>
    dsimp only
    split_ifs
    · exact hw
    · exact ⟨rfl, rfl, fun t => .inl rfl⟩
  | write =>
    dsimp only
    split_ifs
    · exact ⟨rfl, rfl, hr⟩
    · exact hw
    · exact ⟨rfl, rfl, fun t => .inl rfl⟩

theorem sectors_setEntry_of_eq (c : Cache) (i : Slot)
    (h : e.sector = (c.entries i).sector) : (c.setEntry i e).sectors = c.sectors := by
  rw [setEntry_sectors, h]
  exact update_eq_self i c.sectors

theorem local_workIn (he : e.sector = (m.cache.entries i).sector)
    (h : m.workIn t w a i e = some m') : Local t m m' := by
  obtain ⟨⟨bytes, e'⟩, hwork, rfl⟩ := map_eq_some_iff.mp h
  have hsec := (work_sector hwork).trans he
  obtain ⟨hc, htab, hpc⟩ := signal_spec
    (m.setCache ((m.cache.setEntry i e').lineUp a.sector)) e a i w
  refine ⟨?_, htab, by simp [goTo, CachePc.holdsTable], fun t' ht' => ?_⟩
  · exact (congrArg sectors hc).trans (sectors_setEntry_of_eq m.cache i hsec)
  · dsimp only [goTo]
    rw [update_of_ne ht']
    exact hpc t'

theorem local_goTo (m : CacheSystem T) (hp : ¬ p.holdsTable) : Local t m (m.goTo t p) :=
  ⟨rfl, rfl, by simpa [goTo] using hp, fun t' ht' => .inl (by simp [goTo, ht'])⟩

theorem countWaiting_sector (e : CacheEntry) (a : Access) (d : UInt8) :
    (countWaiting e a d).sector = e.sector := by
  cases a <;> rfl

theorem local_enterEntry (h : m.enterEntry t w a i = some m') : Local t m m' := by
  unfold enterEntry at h
  dsimp only at h
  split_ifs at h
  · cases hene : (m.cache.entries i).enter a with
    | some e' =>
      rw [hene] at h
      exact local_workIn (enter_sector hene) h
    | none =>
      rw [hene] at h
      cases h
      refine ⟨?_, rfl, by simp [goTo, CachePc.holdsTable], fun t' ht' => .inl ?_⟩
      · exact sectors_setEntry_of_eq m.cache i (countWaiting_sector _ a 1)
      · simp [goTo, setCache, ht']
  · cases h
    exact local_goTo m (by simp [CachePc.holdsTable])

theorem local_enterWoken (h : m.enterWoken t w a i = some m') : Local t m m' := by
  unfold enterWoken at h
  dsimp only at h
  split_ifs at h
  exact local_workIn (countWaiting_sector _ a (-1)) h

theorem sectors_fetch (h : c.fetch i s writing = some c') : c'.sectors = c.sectors := by
  unfold fetch at h
  split_ifs at h
  · exact some.inj h ▸ rfl
  · obtain ⟨b, -, rfl⟩ := map_eq_some_iff.mp h
    exact sectors_setEntry_of_eq c i rfl

theorem sectors_writeBack (h : c.writeBack i old = some c') : c'.sectors = c.sectors := by
  obtain ⟨c1, h1, rfl⟩ := map_eq_some_iff.mp h
  have hent : c1.entries = c.entries := by
    split_ifs at h1
    · obtain ⟨s, -, h1⟩ := bind_eq_some_iff.mp h1
      simp only [blockWrite, ite_none_right_eq_some, some.injEq] at h1
      exact h1.2 ▸ rfl
    · exact some.inj h1 ▸ rfl
  rw [setEntry_sectors]
  show update c1.sectors i (c1.sectors i) = c.sectors
  rw [update_eq_self]
  unfold sectors
  rw [hent]

/-! ### At most one copy of a sector -/

/-- The sectors in the cache are distinct, threads that think they hold `cache_table_lock` do, and
what a thread is about to put into a free slot is not in the cache. -/
structure TableInv (m : CacheSystem T) : Prop where
  distinct : Distinct m.cache.sectors
  excl : ∀ t, (m.pc t).holdsTable → m.table = some t
  fresh : ∀ t a i, m.pc t = .tryFree a i → ∀ j, m.cache.sectors j ≠ some a.sector

/-- When a thread takes `cache_table_lock` after a miss and finds a free slot, no other thread has
brought the sector in since the miss. -/
def missStillAbsent (m : CacheSystem T) : CacheAction T → Bool
  | .run t _ =>
    match m.pc t with
    | .miss a =>
      (freeSlot m.cache.sectors).isNone || (m.cache.sectorToCache a.sector).isNone
    | _ => true
  | .start _ _ => true

/-- A step of `t` that keeps all `sector` fields. -/
theorem TableInv.keep (hi : TableInv m) (hs : m'.cache.sectors = m.cache.sectors)
    (htab : ∀ t', t' ≠ t → m.table = some t' → m'.table = some t')
    (hself : (m'.pc t).holdsTable → m'.table = some t)
    (hote : ∀ t', t' ≠ t → m'.pc t' = m.pc t' ∨ ¬ (m'.pc t').holdsTable)
    (hfrs : ∀ a i, m'.pc t = .tryFree a i → ∀ j, m'.cache.sectors j ≠ some a.sector) :
    TableInv m' := by
  refine ⟨hs ▸ hi.distinct, fun t' ht' => ?_, fun t' a i ht' => ?_⟩
  · by_cases e : t' = t
    · subst e; exact hself ht'
    · rcases hote t' e with h | h
      · exact htab t' e (hi.excl t' (h ▸ ht'))
      · exact absurd ht' h
  · by_cases e : t' = t
    · subst e; exact hfrs a i ht'
    · rcases hote t' e with h | h
      · rw [hs]; exact hi.fresh t' a i (h ▸ ht')
      · rw [ht'] at h; simp [CachePc.holdsTable] at h

theorem TableInv.of_local (hi : TableInv m) (h : Local t m m') : TableInv m' :=
  hi.keep h.sectors (fun _ _ ht => h.table.trans ht) (fun ht => absurd ht h.self) h.others
    fun a i ht => by
      have := h.self
      rw [ht] at this
      simp [CachePc.holdsTable] at this

/-- A step of the thread that holds `cache_table_lock`, after which `i` holds `s`. -/
theorem TableInv.occupy (hi : TableInv m) (hs : ∀ j, m.cache.sectors j ≠ some s)
    (hsec : m'.cache.sectors = update m.cache.sectors i (some s)) (htab : m'.table = some t)
    (hote : ∀ t', t' ≠ t → m'.pc t' = m.pc t') (hoth : ∀ t', t' ≠ t → m.table ≠ some t')
    (hself : ∀ a i, m'.pc t ≠ .tryFree a i) : TableInv m' := by
  have hno : ∀ t', t' ≠ t → ¬ (m'.pc t').holdsTable := fun t' e ht' =>
    hoth t' e (hi.excl t' (hote t' e ▸ ht'))
  refine ⟨hsec ▸ hi.distinct.update hs, fun t' ht' => ?_, fun t' a i ht' => ?_⟩
  · by_cases e : t' = t
    · rw [e]; exact htab
    · exact absurd ht' (hno t' e)
  · by_cases e : t' = t
    · rw [e] at ht'; exact absurd ht' (hself a i)
    · have := hno t' e
      rw [ht'] at this
      simp [CachePc.holdsTable] at this

omit [DecidableEq T] in
theorem takeTable_eq_some (h : m.takeTable t = some m') :
    m.table = none ∧ m' = { m with table := some t } := by
  simp only [takeTable, ite_none_right_eq_some, some.injEq] at h
  exact ⟨h.1.1, h.2.symm⟩

theorem giveTable_eq_some (h : m.giveTable t = some m') :
    m.table = some t ∧ m' = { m with table := none } := by
  simp only [giveTable, ite_none_right_eq_some, some.injEq] at h
  exact ⟨h.1, h.2.symm⟩

omit [DecidableEq T] in
theorem takeEntry_eq_some (h : m.takeEntry t i = some m') :
    m' = { m with entryLock := update m.entryLock i (some t) } := by
  simp only [takeEntry, ite_none_right_eq_some, some.injEq] at h
  exact h.2.symm

theorem giveEntry_eq_some (h : m.giveEntry t i = some m') :
    m' = { m with entryLock := update m.entryLock i none } := by
  simp only [giveEntry, ite_none_right_eq_some, some.injEq] at h
  exact h.2.symm

theorem TableInv.take (hi : TableInv m) (hfree : m.table = none) (hs : c.sectors = m.cache.sectors)
    (hp : ∀ a i, p = .tryFree a i → ∀ j, c.sectors j ≠ some a.sector) :
    TableInv (goTo { m with cache := c, table := some t } t p) :=
  hi.keep hs (fun t' _ ht' => by rw [hfree] at ht'; cases ht') (fun _ => rfl)
    (fun t' ht' => .inl (by simp [goTo, ht'])) fun a i ht => hp a i (by simpa [goTo] using ht)

theorem TableInv.give (hi : TableInv m) (hheld : m.table = some t)
    (hp : ¬ p.holdsTable) : TableInv (goTo { m with table := none } t p) :=
  hi.keep rfl (fun t' e ht' => absurd (mem_unique hheld ht').symm e)
    (fun h => absurd (by simpa [goTo] using h) hp) (fun t' ht' => .inl (by simp [goTo, ht']))
    fun a i ht => by
      have : p = .tryFree a i := by simpa [goTo] using ht
      simp [this, CachePc.holdsTable] at hp

omit [DecidableEq T] in
theorem TableInv.entryLock (hi : TableInv m) (f : Slot → Option T) :
    TableInv { m with entryLock := f } :=
  ⟨hi.distinct, hi.excl, hi.fresh⟩

theorem sectors_claimSlot (h : c.claimSlot i s = some c') :
    c'.sectors = update c.sectors i (some s) := by
  simp only [claimSlot, lruEnqueue, ite_none_right_eq_some, map_eq_some_iff, some.injEq] at h
  obtain ⟨-, c1, ⟨-, rfl⟩, rfl⟩ := h
  exact setEntry_sectors _ _ _

theorem sectors_retarget (h : c.retarget i s = some c') :
    c'.sectors = update c.sectors i (some s) := by
  obtain ⟨-, ⟨⟩⟩ := ite_none_right_eq_some.mp h
  exact setEntry_sectors _ _ _

theorem TableInv.miss (hi : TableInv m) (hpc : m.pc t = .miss a)
    (hok : m.missStillAbsent (.run t w)) (h : m.runThread t w = some m') : TableInv m' := by
  simp only [runThread, hpc, bind_eq_some_iff] at h
  obtain ⟨m1, htake, h⟩ := h
  obtain ⟨hfree, rfl⟩ := takeTable_eq_some htake
  simp only [missStillAbsent, hpc, Bool.or_eq_true, isNone_iff_eq_none] at hok
  cases hslot : freeSlot m.cache.sectors with
  | some i =>
    simp only [hslot, some.injEq] at h
    subst h
    refine hi.take hfree rfl fun a' i' he => ?_
    obtain ⟨rfl, -⟩ := CachePc.tryFree.inj he
    exact slotOf_eq_none_iff.mp (hok.resolve_left (by simp [hslot]))
  | none =>
    simp only [hslot, map_eq_some_iff] at h
    obtain ⟨⟨v, c⟩, hevc, rfl⟩ := h
    refine hi.take hfree ?_ fun _ _ he => by cases he
    cases lruEvict_eq_some hevc
    rfl

theorem TableInv.tryFree (hi : TableInv m) (hpc : m.pc t = .tryFree a i)
    (h : m.runThread t w = some m') : TableInv m' := by
  simp only [runThread, hpc, bind_eq_some_iff, map_eq_some_iff] at h
  obtain ⟨m1, htake, c, hclm, rfl⟩ := h
  cases takeEntry_eq_some htake
  have htab := hi.excl t (by simp [hpc, CachePc.holdsTable])
  refine hi.occupy (hi.fresh t a i hpc) (sectors_claimSlot hclm) htab (fun t' e => ?_)
    (fun t' e ht' => e (mem_unique htab ht').symm) (by simp [goTo])
  simp [goTo, setCache, e]

theorem TableInv.recheck (hi : TableInv m) (hpc : m.pc t = .recheck a i)
    (h : m.runThread t w = some m') : TableInv m' := by
  simp only [runThread, hpc, bind_eq_some_iff] at h
  obtain ⟨m1, htake, h⟩ := h
  obtain ⟨hfree, rfl⟩ := takeTable_eq_some htake
  cases hslot : m.cache.sectorToCache a.sector with
  | some j =>
    simp only [hslot, map_eq_some_iff] at h
    obtain ⟨c, hc, rfl⟩ := h
    refine hi.take hfree ?_ fun _ _ he => by cases he
    obtain ⟨s, -, hc⟩ := bind_eq_some_iff.mp hc
    simp only [lruEnqueue, ite_none_right_eq_some, some.injEq] at hc
    exact hc.2 ▸ rfl
  | none =>
    simp only [hslot, map_eq_some_iff] at h
    obtain ⟨c, hc, rfl⟩ := h
    refine hi.occupy (slotOf_eq_none_iff.mp hslot) (sectors_retarget hc) rfl
      (fun t' e => by simp [goTo, setCache, e]) (fun t' e ht' => ?_) (by simp [goTo])
    simp [hfree] at ht'

theorem TableInv.step {act : CacheAction T} (hi : TableInv m) (hok : m.missStillAbsent act)
    (h : m.step act = some m') : TableInv m' := by
  cases act with
  | start t a =>
    simp only [CacheSystem.step, ite_none_right_eq_some, some.injEq] at h
    exact h.2 ▸ hi.of_local (local_goTo m (by simp [CachePc.holdsTable]))
  | run t w =>
    replace h : m.runThread t w = some m' := h
    cases hpc : m.pc t with
    | idle | waiting => simp [runThread, hpc] at h
    | miss a => exact hi.miss hpc hok h
    | tryFree a i => exact hi.tryFree hpc h
    | recheck a i => exact hi.recheck hpc h
    | lookup a =>
      simp only [runThread, hpc, map_eq_some_iff] at h
      obtain ⟨m1, htake, rfl⟩ := h
      obtain ⟨hfree, rfl⟩ := takeTable_eq_some htake
      exact hi.take hfree rfl fun _ _ he => by cases he
    | looked a found =>
      simp only [runThread, hpc, map_eq_some_iff] at h
      obtain ⟨m1, hgive, rfl⟩ := h
      obtain ⟨hheld, rfl⟩ := giveTable_eq_some hgive
      refine hi.give hheld ?_
      cases found <;> simp [CachePc.afterLookup, CachePc.holdsTable]
    | evicting a v =>
      simp only [runThread, hpc, map_eq_some_iff] at h
      obtain ⟨m1, hgive, rfl⟩ := h
      obtain ⟨hheld, rfl⟩ := giveTable_eq_some hgive
      refine hi.give hheld ?_
      cases v <;> simp [CachePc.afterEvict, CachePc.holdsTable]
    | claimed | spared | retargeted =>
      simp only [runThread, hpc, map_eq_some_iff] at h
      obtain ⟨m1, hgive, rfl⟩ := h
      obtain ⟨hheld, rfl⟩ := giveTable_eq_some hgive
      exact hi.give hheld (by simp [CachePc.holdsTable])
    | unlockVictim | mismatch | parking | finished =>
      simp only [runThread, hpc, map_eq_some_iff] at h
      obtain ⟨m1, hgive, rfl⟩ := h
      cases giveEntry_eq_some hgive
      exact (hi.entryLock _).of_local (local_goTo _ (by simp [CachePc.holdsTable]))
    | lockVictim a i =>
      simp only [runThread, hpc, map_eq_some_iff] at h
      obtain ⟨m1, htake, rfl⟩ := h
      cases takeEntry_eq_some htake
      exact (hi.entryLock _).of_local (local_goTo _ (by simp [CachePc.holdsTable]))
    | hit a i =>
      simp only [runThread, hpc, bind_eq_some_iff] at h
      obtain ⟨m1, htake, h⟩ := h
      cases takeEntry_eq_some htake
      exact (hi.entryLock _).of_local (local_enterEntry h)
    | woken a i =>
      simp only [runThread, hpc, bind_eq_some_iff] at h
      obtain ⟨m1, htake, h⟩ := h
      cases takeEntry_eq_some htake
      exact (hi.entryLock _).of_local (local_enterWoken h)
    | writeBack a i old =>
      simp only [runThread, hpc, map_eq_some_iff] at h
      obtain ⟨c, hc, rfl⟩ := h
      exact hi.of_local (t := t) ⟨sectors_writeBack hc, rfl,
        by simp [goTo, CachePc.holdsTable], fun t' ht' => .inl (by simp [goTo, setCache, ht'])⟩
    | fetching a i =>
      simp only [runThread, hpc, bind_eq_some_iff] at h
      obtain ⟨c, hc, h⟩ := h
      obtain ⟨hs, htab, hself, hote⟩ := local_enterEntry h
      exact hi.of_local ⟨hs.trans (sectors_fetch hc), htab, hself, hote⟩

omit [DecidableEq T] in
theorem tableInv_quiet {size : ℕ} {disk : ℕ → Block} :
    TableInv (quiet (cacheInit size disk) : CacheSystem T) := by
  refine ⟨fun i j s hi => ?_, ?_, ?_⟩
  · simp [quiet, cacheInit, sectors, init] at hi
  · simp [quiet, CachePc.holdsTable]
  · simp [quiet]

/-- **One copy per sector.**  As long as no thread that misses while a slot is free has been
overtaken by another one, no two entries hold the same sector. -/
theorem distinct_of_missStillAbsent {size : ℕ} {disk : ℕ → Block} {m : CacheSystem T}
    (hr : Reaches step (fun m act => missStillAbsent m act) (quiet (cacheInit size disk)) m)
    (i j : Slot) (s : ℕ) (hi : (m.cache.entries i).sector = some s)
    (hj : (m.cache.entries j).sector = some s) : i = j :=
  (hr.invariant tableInv_quiet fun _ _ _ hi hok h => hi.step hok h).distinct i j s hi hj

/-- One thread reads a sector, then another one. -/
theorem distinct_of_missStillAbsent_second_read :
    ∃ m : CacheSystem (Fin 2),
      Reaches step (fun m act => missStillAbsent m act) (quiet (cacheInit 16 fun _ _ => 0)) m ∧
      m.pc 1 = .finished (.read 5 1 0) 0 [0] ∧
      ∀ j, (m.cache.entries j).sector = some 5 → 0 = j := by
  have h : (exec step (fun m act => missStillAbsent m act)
      (quiet (cacheInit 16 fun _ _ => 0) : CacheSystem (Fin 2))
      [.start 0 (.read 5 4 0), .run 0 0, .run 0 0, .run 0 0, .run 0 0, .run 0 0, .run 0 0,
        .run 0 0, .start 1 (.read 5 1 0), .run 1 1, .run 1 1, .run 1 1]).map
        (fun m => (m.pc 1, (m.cache.entries 0).sector)) =
      some (.finished (.read 5 1 0) 0 [0], some 5) := by rfl
  obtain ⟨m, hm, hv⟩ := map_eq_some_iff.mp h
  simp only [Prod.mk.injEq] at hv
  have hr := reaches_of_exec hm
  exact ⟨m, hr, hv.1, fun j hj => distinct_of_missStillAbsent hr 0 j 5 hv.2 hj⟩

/-- Two threads miss on the same sector, and then take one free slot each. -/
theorem not_distinct_after_two_misses :
    ∃ m : CacheSystem (Fin 2),
      Reaches step (fun _ _ => True) (quiet (cacheInit 16 fun _ _ => 0)) m ∧
      (m.cache.entries 0).sector = some 5 ∧ (m.cache.entries 1).sector = some 5 := by
  have h : (exec step (fun _ _ => True) (quiet (cacheInit 16 fun _ _ => 0) : CacheSystem (Fin 2))
      [.start 0 (.read 5 4 0), .start 1 (.read 5 4 0), .run 0 0, .run 0 0, .run 1 1, .run 1 1,
        .run 0 0, .run 0 0, .run 0 0, .run 1 1, .run 1 1]).map
        (fun m => ((m.cache.entries 0).sector, (m.cache.entries 1).sector)) =
      some (some 5, some 5) := by rfl
  obtain ⟨m, hm, hv⟩ := map_eq_some_iff.mp h
  simp only [Prod.mk.injEq] at hv
  exact ⟨m, reaches_of_exec hm, hv.1, hv.2⟩

end CacheSystem

end Pintos
