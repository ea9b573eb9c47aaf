import Pintos.Filesys.CacheLocks
import Pintos.Filesys.CacheRefinement

/-! # The monitors and the kernel threads of the buffer cache

The threads of `CacheThreads` again, with the code inside the monitor of an entry taken apart, and
together with the other threads that use the cache.

* **Tasks.**  A thread executes `cache_read` or `cache_write` (`call`, at the place that the system
  says, or `monitor`), one pass of `read_ahead` or of `write_behind`, or `flush_cache`.
* **Monitor.**  Each step inside a monitor is one of the tests, counters and copies of the source.
* **`get_free_cache`.**  `read_ahead` executes the steps of a caller from `get_free_cache` on; for
  this its thread has a place in the system as well (`getting`).
* **Steps.**  `Did k t k'`: what a step of thread `t` can do, as long as every monitor is used under
  the lock of its entry. -/


namespace Pintos
open Bytes Slots Runs Function Option Cache CacheSystem CacheEntry

/-- Where a thread is in the monitor of an entry. -/
inductive Stage where
  /-- About to test the mode. -/
  | test
  /-- Counted as waiting; about to release the lock of the entry inside `cond_wait`. -/
  | parking
  /-- Waiting inside `cond_wait`. -/
  | waiting
  /-- Woken inside `cond_wait`; about to take the lock again. -/
  | woken
  /-- The mode is set; about to be counted, and to check the mode. -/
  | entered
  /-- About to copy. -/
  | counted
  /-- A reader that has copied, and is still counted. -/
  | copied (bytes : List UInt8)
  /-- About to line up read ahead. -/
  | left (bytes : List UInt8)
  /-- About to set the mode, and to signal. -/
  | linedUp (bytes : List UInt8)
deriving DecidableEq, Repr

/-- Where a thread is in a pass of `read_ahead`. -/
inductive AheadPc where
  /-- About to take `cache_table_lock`. -/
  | start
  /-- With `cache_table_lock`, at position `i` of the ring. -/
  | scan (i : Slot)
  /-- Inside `get_free_cache`. -/
  | getting (i : Slot)
  /-- Back with entry `j`; about to release its lock. -/
  | loaded (i j : Slot)
  /-- About to take `cache_table_lock` again. -/
  | again (i : Slot)
deriving DecidableEq, Repr

/-- Where a thread is in a pass of `write_behind`, or in `flush_cache`. -/
inductive OutPc where
  /-- `write_behind` only: about to take `cache_table_lock`. -/
  | start
  /-- About to look at entry `i`. -/
  | scan (i : ℕ)
  /-- The entry is dirty; about to take its lock. -/
  | lockEntry (i : Slot)
  /-- About to write the entry to the device. -/
  | writing (i : Slot)
  /-- About to release the lock of the entry. -/
  | unlocking (i : Slot)
deriving DecidableEq, Repr

/-- What a thread is doing. -/
inductive Task where
  /-- In `cache_read` or `cache_write` but not in a monitor, or not in the cache at all. -/
  | call
  | monitor (a : Access) (i : Slot) (stage : Stage)
  | readAhead (p : AheadPc)
  | writeBehind (p : OutPc)
  | flushCache (p : OutPc)
deriving DecidableEq, Repr

/-- The cache with all of its threads. -/
structure CacheKernel (T : Type) where
  sys : CacheSystem T
  task : T → Task

/-- What a thread does next. -/
inductive KernelAction (T : Type) where
  /-- Call `cache_read` or `cache_write`. -/
  | start (t : T) (a : Access)
  /-- Begin a pass of `read_ahead`. -/
  | readAhead (t : T)
  /-- Begin a pass of `write_behind`. -/
  | writeBehind (t : T)
  /-- Call `flush_cache`. -/
  | flush (t : T)
  /-- Go on to the next boundary; `w` is the writer that is woken, should one be. -/
  | run (t : T) (w : T)

/-- The thread that an action belongs to. -/
def KernelAction.thread {T : Type} : KernelAction T → T
  | .start t _ | .readAhead t | .writeBehind t | .flush t | .run t _ => t

namespace CacheEntry

/-- The end of `cache_read`, when the reader is no longer counted. -/
def readerExit (e : CacheEntry) : CacheEntry :=
  if e.readerActive = 0 ∧ 0 < e.writerWaiting then { e with mode := .writeLock }
  else if e.readerActive = 0 ∧ e.writerWaiting = 0 then { e with mode := .unlock }
  else e

/-- The end of both functions. -/
def exit (e : CacheEntry) : Access → CacheEntry
  | .read _ _ _ => e.readerExit
  | .write _ _ _ => e.writerLeave

end CacheEntry

namespace CacheKernel

variable {T : Type} [DecidableEq T]

def goTo (k : CacheKernel T) (t : T) (τ : Task) : CacheKernel T :=
  { k with task := update k.task t τ }

def withEntry (k : CacheKernel T) (i : Slot) (e : CacheEntry) : CacheKernel T :=
  { k with sys := k.sys.setCache (k.sys.cache.setEntry i e) }

/-! ### The monitor of an entry -/

/-- `cond_broadcast` to the readers of an entry. -/
def wakeReaders (k : CacheKernel T) (i : Slot) : CacheKernel T :=
  { k with
    task := fun t =>
      match k.task t with
      | .monitor (.read s size offset) j .waiting =>
        .monitor (.read s size offset) j (if j = i then .woken else .waiting)
      | τ => τ }

/-- `cond_signal` to the writers of an entry, if `w` is one of them. -/
def wakeWriter (k : CacheKernel T) (i : Slot) (w : T) : CacheKernel T :=
  match k.task w with
  | .monitor (.write s buf offset) j .waiting =>
    if j = i then k.goTo w (.monitor (.write s buf offset) j .woken) else k
  | _ => k

/-- The signals at the end of both functions. -/
def signal (k : CacheKernel T) (e : CacheEntry) (a : Access) (i : Slot) (w : T) : CacheKernel T :=
  match a with
  | .read _ _ _ => if e.readerActive = 0 ∧ 0 < e.writerWaiting then k.wakeWriter i w else k
  | .write _ _ _ =>
    if 0 < e.readerWaiting then k.wakeReaders i
    else if 0 < e.writerWaiting then k.wakeWriter i w else k

/-- One step inside the monitor of entry `i`. -/
def monitorStep (k : CacheKernel T) (t w : T) (a : Access) (i : Slot) :
    Stage → Option (CacheKernel T)
  | .test =>
    match (k.sys.cache.entries i).enter a with
    | some e => some ((k.withEntry i e).goTo t (.monitor a i .entered))
    | none =>
      some ((k.withEntry i (CacheSystem.countWaiting (k.sys.cache.entries i) a 1)).goTo t
        (.monitor a i .parking))
  | .parking => (k.sys.giveEntry t i).map fun m => goTo ⟨m, k.task⟩ t (.monitor a i .waiting)
  | .waiting => none
  | .woken =>
    (k.sys.takeEntry t i).bind fun m =>
      let e := CacheSystem.countWaiting (m.cache.entries i) a (-1)
      if a.writing ∨ e.sector = some a.sector then
        some ((withEntry ⟨m, k.task⟩ i e).goTo t (.monitor a i .entered))
      else none
  | .entered =>
    let e := k.sys.cache.entries i
    match a with
    | .read _ _ _ =>
      if e.mode = .readLock then
        some ((k.withEntry i { e with readerActive := e.readerActive + 1 }).goTo t
          (.monitor a i .counted))
      else none
    | .write _ _ _ =>
      if e.mode = .writeLock ∧ e.readerActive = 0 then some (k.goTo t (.monitor a i .counted))
      else none
  | .counted =>
    let e := k.sys.cache.entries i
    match a with
    | .read _ size offset =>
      some ((k.withEntry i { e with access := true }).goTo t
        (.monitor a i (.copied ((List.range size).map fun j => e.data (offset + j)))))
    | .write _ buf offset =>
      some ((k.withEntry i { e with
        data := overwrite e.data offset buf, access := true, dirty := true }).goTo t
          (.monitor a i (.left [])))
  | .copied bytes =>
    let e := k.sys.cache.entries i
    some ((k.withEntry i { e with readerActive := e.readerActive - 1 }).goTo t
      (.monitor a i (.left bytes)))
  | .left bytes =>
    some (goTo { k with sys := k.sys.setCache (k.sys.cache.lineUp a.sector) } t
      (.monitor a i (.linedUp bytes)))
  | .linedUp bytes =>
    let e := k.sys.cache.entries i
    let k := ((k.withEntry i (e.exit a)).signal e a i w).goTo t .call
    some { k with sys := k.sys.goTo t (.finished a i bytes) }

/-! ### The threads -/

/-- With the lock of entry `i`: test the sector, and go on to the monitor. -/
def enterEntry (k : CacheKernel T) (m : CacheSystem T) (t : T) (a : Access) (i : Slot) :
    CacheKernel T :=
  if m.cache.sectors i = some a.sector then
    goTo ⟨m.goTo t .idle, k.task⟩ t (.monitor a i .test)
  else ⟨m.goTo t (.mismatch a i), k.task⟩

/-- One step of `cache_read` or `cache_write` outside of the monitors. -/
def callStep (k : CacheKernel T) (t w : T) : Option (CacheKernel T) :=
  match k.sys.pc t with
  | .hit a i => (k.sys.takeEntry t i).map fun m => k.enterEntry m t a i
  | .fetching a i =>
    (k.sys.cache.fetch i a.sector a.writing).map fun c => k.enterEntry (k.sys.setCache c) t a i
  | _ => (k.sys.runThread t w).map fun m => { k with sys := m }

/-- `lock_acquire (&cache_table_lock)` on its own. -/
def lockTable (k : CacheKernel T) (t : T) : Option (CacheKernel T) :=
  if k.sys.table = none then some { k with sys := { k.sys with table := some t } } else none

/-- One step of `read_ahead`.  Note that it is the position that `get_free_cache` is called with. -/
def readAheadStep (k : CacheKernel T) (t : T) : AheadPc → Option (CacheKernel T)
  | .start =>
    (k.sys.takeTable t).map fun m =>
      goTo ⟨m, k.task⟩ t (.readAhead (.scan m.cache.readAheadHead))
  | .scan i =>
    let c := k.sys.cache
    if i = c.readAheadTail then
      ((k.sys.setCache { c with readAheadHead := c.readAheadTail }).giveTable t).map fun m =>
        goTo ⟨m, k.task⟩ t .call
    else
      match c.bufferedSlot i with
      | some _ => some (k.goTo t (.readAhead (.scan (Cache.ringNext i))))
      | none =>
        if c.lru.length ≤ CACHE_SIZE then
          match freeSlot c.sectors with
          | some j =>
            some (goTo ⟨k.sys.goTo t (.tryFree (.read i 0 0) j), k.task⟩ t
              (.readAhead (.getting i)))
          | none =>
            c.lruEvict.map fun (v, c) =>
              goTo ⟨(k.sys.setCache c).goTo t (.evicting (.read i 0 0) v), k.task⟩ t
                (.readAhead (.getting i))
        else none
  | .getting i =>
    match k.sys.pc t with
    | .hit _ j =>
      (k.sys.takeEntry t j).map fun m =>
        goTo ⟨m.goTo t .idle, k.task⟩ t (.readAhead (.loaded i j))
    | .fetching a j =>
      (k.sys.cache.fetch j a.sector a.writing).map fun c =>
        goTo ⟨(k.sys.setCache c).goTo t .idle, k.task⟩ t (.readAhead (.loaded i j))
    | .lookup _ => none
    | _ => (k.sys.runThread t t).map fun m => { k with sys := m }
  | .loaded i j =>
    (k.sys.giveEntry t j).map fun m => goTo ⟨m, k.task⟩ t (.readAhead (.again i))
  | .again i => (k.lockTable t).map fun k => k.goTo t (.readAhead (.scan (Cache.ringNext i)))

/-- The body of the loops of `write_behind` and of `flush_cache`, for an entry that is dirty. -/
def outStep (k : CacheKernel T) (t : T) (τ : OutPc → Task) : OutPc → Option (CacheKernel T)
  | .lockEntry i => (k.sys.takeEntry t i).map fun m => goTo ⟨m, k.task⟩ t (τ (.writing i))
  | .writing i =>
    (k.sys.cache.writeOut i).map fun c =>
      goTo ⟨k.sys.setCache c, k.task⟩ t (τ (.unlocking i))
  | .unlocking i => (k.sys.giveEntry t i).map fun m => goTo ⟨m, k.task⟩ t (τ (.scan (i + 1)))
  | _ => none

/-- One step of `write_behind`. -/
def writeBehindStep (k : CacheKernel T) (t : T) : OutPc → Option (CacheKernel T)
  | .start => (k.lockTable t).map fun k => k.goTo t (.writeBehind (.scan 0))
  | .scan i =>
    if h : i < CACHE_SIZE then
      if (k.sys.cache.entries ⟨i, h⟩).dirty then some (k.goTo t (.writeBehind (.lockEntry ⟨i, h⟩)))
      else some (k.goTo t (.writeBehind (.scan (i + 1))))
    else (k.sys.giveTable t).map fun m => goTo ⟨m, k.task⟩ t .call
  | p => k.outStep t .writeBehind p

/-- One step of `flush_cache`. -/
def flushStep (k : CacheKernel T) (t : T) : OutPc → Option (CacheKernel T)
  | .start => none
  | .scan i =>
    if h : i < CACHE_SIZE then
      if (k.sys.cache.entries ⟨i, h⟩).sector = none then
        some (k.goTo t (.flushCache (.scan (i + 1))))
      else if (k.sys.cache.entries ⟨i, h⟩).dirty then
        some (k.goTo t (.flushCache (.lockEntry ⟨i, h⟩)))
      else some (k.goTo t (.flushCache (.scan (i + 1))))
    else some (k.goTo t .call)
  | p => k.outStep t .flushCache p

/-- One step of thread `t`. -/
def runThread (k : CacheKernel T) (t w : T) : Option (CacheKernel T) :=
  match k.task t with
  | .call => k.callStep t w
  | .monitor a i stage => k.monitorStep t w a i stage
  | .readAhead p => k.readAheadStep t p
  | .writeBehind p => k.writeBehindStep t p
  | .flushCache p => k.flushStep t p

/-- The thread is not in the cache. -/
def idle (k : CacheKernel T) (t : T) : Bool := k.task t = .call ∧ k.sys.pc t = .idle

/-- One step of the system. -/
def step (k : CacheKernel T) : KernelAction T → Option (CacheKernel T)
  | .start t a =>
    if k.idle t ∧ a.valid then some { k with sys := k.sys.goTo t (.lookup a) } else none
  | .readAhead t => if k.idle t then some (k.goTo t (.readAhead .start)) else none
  | .writeBehind t => if k.idle t then some (k.goTo t (.writeBehind .start)) else none
  | .flush t => if k.idle t then some (k.goTo t (.flushCache (.scan 0))) else none
  | .run t w => k.runThread t w

/-- After `cache_init`. -/
def boot (size : ℕ) (disk : ℕ → Block) : CacheKernel T :=
  ⟨CacheSystem.quiet (cacheInit size disk), fun _ => .call⟩

end CacheKernel

/-! ### What each place means -/

namespace Task

/-- `cache_table_lock` is held. -/
def holdsTable (p : CachePc) : Task → Bool
  | call | readAhead (.getting _) => p.holdsTable
  | readAhead (.scan _) => true
  | writeBehind .start => false
  | writeBehind _ => true
  | _ => false

/-- The entry whose lock is held. -/
def heldEntry (p : CachePc) : Task → Option Slot
  | call | readAhead (.getting _) => p.heldEntry
  | monitor _ _ .waiting | monitor _ _ .woken => none
  | monitor _ i _ => some i
  | readAhead (.loaded _ j) => some j
  | writeBehind (.writing i) | writeBehind (.unlocking i) => some i
  | flushCache (.writing i) | flushCache (.unlocking i) => some i
  | _ => none

/-- The thread has a place in the system. -/
def placed : Task → Bool
  | call | readAhead (.getting _) => true
  | _ => false

end Task

/-- The mode in which the monitor is used. -/
def Access.mode : Access → LockMode
  | .read _ _ _ => .readLock
  | .write _ _ _ => .writeLock

namespace CacheEntry

/-- The monitor is in the given mode with so many readers counted, and nobody waits. -/
def InMonitor (e : CacheEntry) (mode : LockMode) (active : UInt8) : Prop :=
  e.mode = mode ∧ e.readerActive = active ∧ e.readerWaiting = 0 ∧ e.writerWaiting = 0

/-- The fields of the monitor are the same. -/
structure SameMonitor (e e' : CacheEntry) : Prop where
  mode : e'.mode = e.mode
  readerActive : e'.readerActive = e.readerActive
  readerWaiting : e'.readerWaiting = e.readerWaiting
  writerWaiting : e'.writerWaiting = e.writerWaiting

theorem SameMonitor.inMonitor {e e' : CacheEntry} {mode : LockMode}
    (h : SameMonitor e e') (he : e.InMonitor mode active) : e'.InMonitor mode active :=
  ⟨h.mode.trans he.1, h.readerActive.trans he.2.1, h.readerWaiting.trans he.2.2.1,
    h.writerWaiting.trans he.2.2.2⟩

theorem SameMonitor.refl (e : CacheEntry) : SameMonitor e e := ⟨rfl, rfl, rfl, rfl⟩

end CacheEntry

/-- What the monitor is like at a stage, if nobody ever waits. -/
def Stage.expected (a : Access) : Stage → Option (LockMode × UInt8)
  | .test => some (.unlock, 0)
  | .entered => some (a.mode, 0)
  | .counted => some (a.mode, if a.writing then 0 else 1)
  | .copied _ => if a.writing then none else some (a.mode, 1)
  | .left _ | .linedUp _ => some (a.mode, 0)
  | .parking | .waiting | .woken => none

/-- The monitor of entry `e` is as it should be at a stage. -/
def Stage.Fits (stage : Stage) (a : Access) (e : CacheEntry) : Prop :=
  ∃ mode active, stage.expected a = some (mode, active) ∧ e.InMonitor mode active

theorem Stage.Fits.heldEntry
    (h : stage.Fits a e) (p : CachePc) : (Task.monitor a i stage).heldEntry p = some i := by
  obtain ⟨mode, active, h, -⟩ := h
  cases stage <;> first | rfl | cases h

namespace CacheKernel

variable {T : Type} {k k' : CacheKernel T} {t t' w : T} {a : Access} {i j : Slot}

def holdsTable (k : CacheKernel T) (t : T) : Bool := (k.task t).holdsTable (k.sys.pc t)

def heldEntry (k : CacheKernel T) (t : T) : Option Slot := (k.task t).heldEntry (k.sys.pc t)

/-- The places of the threads and the monitors of the entries go together. -/
structure Inv (k : CacheKernel T) : Prop where
  owns : ∀ t, k.sys.HoldsLocks t (k.holdsTable t) (k.heldEntry t)
  goes : ∀ t, (k.sys.pc t).waits = false
  outside : ∀ t, (k.task t).placed = false → k.sys.pc t = .idle
  inside : ∀ t a i stage, k.task t = .monitor a i stage → stage.Fits a (k.sys.cache.entries i)
  free : ∀ i, (∀ t a stage, k.task t ≠ .monitor a i stage) → (k.sys.cache.entries i).Free

theorem Inv.unique (h : k.Inv) (ht : k.heldEntry t = some i) (ht' : k.heldEntry t' = some i) :
    t' = t :=
  some.inj ((((h.owns t').2 i).mpr ht').symm.trans (((h.owns t).2 i).mpr ht))

theorem Inv.free_of_unlocked (h : k.Inv) (hi : k.sys.entryLock i = none) :
    (k.sys.cache.entries i).Free := by
  refine h.free i fun t a stage ht => ?_
  have hheld : k.heldEntry t = some i := by
    unfold heldEntry
    rw [ht]
    exact (h.inside t a i stage ht).heldEntry _
  simp [((h.owns t).2 i).mpr hheld] at hi

theorem Inv.free_of_held (h : k.Inv) (ht : k.heldEntry t = some i)
    (hno : ∀ a stage, k.task t ≠ .monitor a i stage) : (k.sys.cache.entries i).Free := by
  refine h.free i fun t' a stage ht' => ?_
  have hheld : k.heldEntry t' = some i := by
    unfold heldEntry
    rw [ht']
    exact (h.inside t' a i stage ht').heldEntry _
  exact hno a stage (h.unique ht hheld ▸ ht')

/-! ### The steps -/

variable [DecidableEq T]

/-- The state after a step of `t`. -/
def next (k : CacheKernel T) (t : T) (c : Cache) (table : Option T) (f : Slot → Option T)
    (p : CachePc) (τ : Task) : CacheKernel T :=
  ⟨k.sys.next t c table f p, update k.task t τ⟩

/-- The monitors of all entries are the same. -/
def SameMonitors (c c' : Cache) : Prop := ∀ j, (c.entries j).SameMonitor (c'.entries j)

/-- A step of `cache_read` or `cache_write` that ends with the lock of entry `i`. -/
inductive Arrives (k : CacheKernel T) (t : T) (a : Access) (i : Slot) :
    Cache → (Slot → Option T) → Prop
  | hit : k.sys.pc t = .hit a i → k.sys.entryLock i = none →
      Arrives k t a i k.sys.cache (update k.sys.entryLock i (some t))
  | fetch {c : Cache} : k.sys.pc t = .fetching a i → SameMonitors k.sys.cache c →
      Arrives k t a i c k.sys.entryLock

/-- The steps of a thread.  In a place that is not in the system, `p` is `idle`. -/
inductive Did (k : CacheKernel T) (t : T) : CacheKernel T → Prop
  | run {m : CacheSystem T} : (k.task t).placed = true → (k.sys.pc t).enters = false →
      CacheSystem.Ran k.sys t (k.sys.pc t) m → Did k t ⟨m, k.task⟩
  | enter {a : Access} {i : Slot} {c : Cache} {f : Slot → Option T} : k.task t = .call →
      Arrives k t a i c f →
      Did k t (k.next t c k.sys.table f .idle (.monitor a i .test))
  | refuse {a : Access} {i : Slot} {c : Cache} {f : Slot → Option T} : k.task t = .call →
      Arrives k t a i c f → Did k t (k.next t c k.sys.table f (.mismatch a i) .call)
  | inside {a : Access} {i : Slot} {stage stage' : Stage} {c : Cache} :
      k.task t = .monitor a i stage → (∀ j, j ≠ i → c.entries j = k.sys.cache.entries j) →
      stage'.Fits a (c.entries i) →
      Did k t (k.next t c k.sys.table k.sys.entryLock .idle (.monitor a i stage'))
  | exit {a : Access} {i : Slot} {stage : Stage} {c : Cache} {bytes : List UInt8} :
      k.task t = .monitor a i stage → (∀ j, j ≠ i → c.entries j = k.sys.cache.entries j) →
      (c.entries i).Free →
      Did k t (k.next t c k.sys.table k.sys.entryLock (.finished a i bytes) .call)
  | aheadLock {p : AheadPc} {i j : Slot} : k.task t = .readAhead p → p = .start ∨ p = .again i →
      k.sys.table = none →
      Did k t (k.next t k.sys.cache (some t) k.sys.entryLock .idle (.readAhead (.scan j)))
  | aheadScan {i j : Slot} : k.task t = .readAhead (.scan i) →
      Did k t (k.next t k.sys.cache k.sys.table k.sys.entryLock .idle (.readAhead (.scan j)))
  | aheadEnd {i : Slot} {c : Cache} : k.task t = .readAhead (.scan i) → k.sys.table = some t →
      c.entries = k.sys.cache.entries →
      Did k t (k.next t c none k.sys.entryLock .idle .call)
  | aheadGet {i : Slot} {c : Cache} {p : CachePc} : k.task t = .readAhead (.scan i) →
      c.entries = k.sys.cache.entries →
      (∃ j, p = .tryFree (.read i 0 0) j) ∨ (∃ v, p = .evicting (.read i 0 0) v) →
      Did k t (k.next t c k.sys.table k.sys.entryLock p (.readAhead (.getting i)))
  | aheadGot {i j : Slot} {a : Access} {c : Cache} {f : Slot → Option T} :
      k.task t = .readAhead (.getting i) → Arrives k t a j c f →
      Did k t (k.next t c k.sys.table f .idle (.readAhead (.loaded i j)))
  | aheadUnlock {i j : Slot} : k.task t = .readAhead (.loaded i j) →
      k.sys.entryLock j = some t →
      Did k t (k.next t k.sys.cache k.sys.table (update k.sys.entryLock j none) .idle
        (.readAhead (.again i)))
  | behindLock : k.task t = .writeBehind .start → k.sys.table = none →
      Did k t (k.next t k.sys.cache (some t) k.sys.entryLock .idle (.writeBehind (.scan 0)))
  | behindScan {i : ℕ} : k.task t = .writeBehind (.scan i) →
      Did k t (k.next t k.sys.cache k.sys.table k.sys.entryLock .idle
        (.writeBehind (.scan (i + 1))))
  | behindDirty {i : Slot} : k.task t = .writeBehind (.scan i) →
      (k.sys.cache.entries i).dirty = true →
      Did k t (k.next t k.sys.cache k.sys.table k.sys.entryLock .idle
        (.writeBehind (.lockEntry i)))
  | behindEnd {i : ℕ} : k.task t = .writeBehind (.scan i) → k.sys.table = some t →
      Did k t (k.next t k.sys.cache none k.sys.entryLock .idle .call)
  | flushScan {i : ℕ} {τ : Task} : k.task t = .flushCache (.scan i) →
      τ = .call ∨ (∃ j, τ = .flushCache (.scan j)) ∨ (∃ j, τ = .flushCache (.lockEntry j)) →
      Did k t (k.next t k.sys.cache k.sys.table k.sys.entryLock .idle τ)
  | outLock {τ : OutPc → Task} {i : Slot} : τ = .writeBehind ∨ τ = .flushCache →
      k.task t = τ (.lockEntry i) → k.sys.entryLock i = none →
      Did k t (k.next t k.sys.cache k.sys.table (update k.sys.entryLock i (some t)) .idle
        (τ (.writing i)))
  | outWrite {τ : OutPc → Task} {i : Slot} {c : Cache} : τ = .writeBehind ∨ τ = .flushCache →
      k.task t = τ (.writing i) → SameMonitors k.sys.cache c →
      Did k t (k.next t c k.sys.table k.sys.entryLock .idle (τ (.unlocking i)))
  | outUnlock {τ : OutPc → Task} {i : Slot} : τ = .writeBehind ∨ τ = .flushCache →
      k.task t = τ (.unlocking i) → k.sys.entryLock i = some t →
      Did k t (k.next t k.sys.cache k.sys.table (update k.sys.entryLock i none) .idle
        (τ (.scan (i + 1))))

/-! ### The steps are those of `runThread` -/

variable {c c' : Cache} {e : CacheEntry} {mode : LockMode} {active : UInt8} {stage : Stage}
  {m m' : CacheSystem T} {p : OutPc}

theorem next_of_idle {table : Option T} (h : k.sys.pc t = .idle) :
    (⟨⟨c, table, f, k.sys.pc⟩, update k.task t τ⟩ : CacheKernel T) =
      k.next t c table f .idle τ := by
  unfold next CacheSystem.next
  rw [← h, update_eq_self]

theorem Did.of_idle {table : Option T} (hidle : k.sys.pc t = .idle)
    (h : Did k t (k.next t c table f .idle τ)) :
    Did k t ⟨⟨c, table, f, k.sys.pc⟩, update k.task t τ⟩ :=
  next_of_idle hidle ▸ h

theorem signal_of_inMonitor (h : e.InMonitor mode active) : k.signal e a i w = k := by
  obtain ⟨-, -, hr, hw⟩ := h
  cases a <;> simp [signal, hr, hw]

theorem exit_of_inMonitor (h : e.InMonitor a.mode 0) : (e.exit a).Free := by
  obtain ⟨hm, ha, hr, hw⟩ := h
  cases a with
  | read => simp [exit, readerExit, Free, ha, hr, hw]
  | write => simp [exit, writerLeave, Free, ha, hr, hw]

theorem entries_withEntry (j : Slot) (h : j ≠ i) : (c.setEntry i e).entries j = c.entries j := by
  simp [h]

theorem fits_setEntry (hs : stage.expected a = some (mode, active)) (he : e.InMonitor mode active) :
    stage.Fits a ((c.setEntry i e).entries i) := by
  refine ⟨mode, active, hs, ?_⟩
  simpa using he

/-- Inside a monitor that fits, no assertion fails and nobody waits. -/
theorem did_of_monitor (hτ : k.task t = .monitor a i stage)
    (hidle : k.sys.pc t = .idle) (h : stage.Fits a (k.sys.cache.entries i)) (w : T) :
    ∃ k', k.monitorStep t w a i stage = some k' ∧ Did k t k' := by
  obtain ⟨mode, active, hs, he⟩ := h
  obtain ⟨hm, hact, hr, hw⟩ := he
  have hins : ∀ {e : CacheEntry} {stage' : Stage} {mode' : LockMode} {active' : UInt8},
      stage'.expected a = some (mode', active') → e.InMonitor mode' active' →
      Did k t ((k.withEntry i e).goTo t (.monitor a i stage')) := by
    intro e stage' mode' active' hs' he'
    exact .of_idle hidle (.inside (c := k.sys.cache.setEntry i e) hτ entries_withEntry
      (fits_setEntry hs' he'))
  cases stage with
  | parking | waiting | woken => cases hs
  | test =>
    cases hs
    have hene : (k.sys.cache.entries i).enter a =
        some { k.sys.cache.entries i with mode := a.mode } := by
      cases a <;> simp [enter, hm, Access.mode]
    refine ⟨(k.withEntry i { k.sys.cache.entries i with mode := a.mode }).goTo t
      (.monitor a i .entered), by simp [monitorStep, hene], ?_⟩
    exact hins rfl ⟨rfl, hact, hr, hw⟩
  | entered =>
    cases hs
    cases a with
    | read s size offset =>
      refine ⟨_, if_pos hm, hins rfl ⟨hm, ?_, hr, hw⟩⟩
      rw [hact]
      rfl
    | write s buf offset =>
      refine ⟨_, if_pos ⟨hm, hact⟩, ?_⟩
      exact .of_idle hidle (.inside hτ (fun _ _ => rfl) (show Stage.counted.Fits _ _ from
        ⟨_, _, rfl, hm, hact, hr, hw⟩))
  | counted =>
    cases hs
    cases a with
    | read | write => exact ⟨_, rfl, hins rfl ⟨hm, hact, hr, hw⟩⟩
  | copied bytes =>
    cases a with
    | write => cases hs
    | read s size offset =>
      cases hs
      refine ⟨_, rfl, hins rfl ⟨hm, ?_, hr, hw⟩⟩
      rw [hact]
      rfl
  | left bytes =>
    cases hs
    refine ⟨_, rfl, ?_⟩
    exact .of_idle hidle (.inside (c := k.sys.cache.lineUp a.sector) hτ (fun _ _ => rfl)
      (show (Stage.linedUp bytes).Fits a _ from ⟨_, _, rfl, hm, hact, hr, hw⟩))
  | linedUp bytes =>
    cases hs
    refine ⟨_, rfl, ?_⟩
    rw [signal_of_inMonitor ⟨hm, hact, hr, hw⟩]
    refine Did.exit (c := k.sys.cache.setEntry i ((k.sys.cache.entries i).exit a)) hτ
      entries_withEntry ?_
    simpa using exit_of_inMonitor ⟨hm, hact, hr, hw⟩

theorem sameMonitors_fetch (h : c.fetch i s writing = some c') : SameMonitors c c' := by
  obtain ⟨-, rfl⟩ | ⟨-, -, rfl⟩ := fetch_eq_some h
  · exact fun j => .refl _
  · intro j
    by_cases e : j = i
    · subst e
      simp only [load, setEntry_entries, update_self]
      exact ⟨rfl, rfl, rfl, rfl⟩
    · simp only [load, setEntry_entries, update_of_ne e]
      exact .refl _

theorem sameMonitors_writeOut (h : c.writeOut i = some c') : SameMonitors c c' := by
  simp only [writeOut, blockWrite, bind_eq_bind, bind_eq_some_iff,
    ite_none_right_eq_some, some.injEq] at h
  obtain ⟨s, -, c1, ⟨-, rfl⟩, rfl⟩ := h
  intro j
  by_cases e : j = i
  · subst e
    simp only [setEntry_entries, update_self]
    exact ⟨rfl, rfl, rfl, rfl⟩
  · simp only [setEntry_entries, update_of_ne e]
    exact .refl _

omit [DecidableEq T] in
theorem lockTable_eq_some (h : k.lockTable t = some k') :
    k.sys.table = none ∧ k' = { k with sys := { k.sys with table := some t } } := by
  simp only [lockTable, ite_none_right_eq_some, some.injEq] at h
  exact ⟨h.1, h.2.symm⟩

omit [DecidableEq T] in
theorem takeEntry_eq (h : m.takeEntry t i = some m') :
    m.entryLock i = none ∧ m' = ⟨m.cache, m.table, update m.entryLock i (some t), m.pc⟩ := by
  simp only [takeEntry, ite_none_right_eq_some, some.injEq] at h
  exact ⟨h.1, h.2.symm⟩

theorem giveEntry_eq (h : m.giveEntry t i = some m') :
    m.entryLock i = some t ∧
      m' = ⟨m.cache, m.table, update m.entryLock i none, m.pc⟩ := by
  simp only [giveEntry, ite_none_right_eq_some, some.injEq] at h
  exact ⟨h.1, h.2.symm⟩

theorem Inv.did_runThread (h : k.Inv) (hτ : (k.task t).placed = true)
    (hens : (k.sys.pc t).enters = false) (hm : k.sys.runThread t w = some m) :
    Did k t ⟨m, k.task⟩ :=
  .run hτ hens (ran_of_runThread (h.goes t) (fun he => by simp [hens] at he) hm)

theorem Inv.did_call (h : k.Inv) (hτ : k.task t = .call) (hs : k.callStep t w = some k') :
    Did k t k' := by
  have harv : ∀ {a i c f}, Arrives k t a i c f →
      Did k t (k.enterEntry ⟨c, k.sys.table, f, k.sys.pc⟩ t a i) := by
    intro a i c f harr
    unfold enterEntry
    split_ifs
    · exact .enter hτ harr
    · have hdid := Did.refuse hτ harr
      unfold next at hdid
      rwa [← hτ, update_eq_self] at hdid
  unfold callStep at hs
  split at hs
  · next a i hpc =>
      obtain ⟨m, hm, rfl⟩ := map_eq_some_iff.mp hs
      obtain ⟨hlock, rfl⟩ := takeEntry_eq hm
      exact harv (.hit hpc hlock)
  · next a i hpc =>
      obtain ⟨c, hc, rfl⟩ := map_eq_some_iff.mp hs
      exact harv (.fetch hpc (sameMonitors_fetch hc))
  · next hhit hftc =>
      obtain ⟨m, hm, rfl⟩ := map_eq_some_iff.mp hs
      refine h.did_runThread (by rw [hτ]; rfl) ?_ hm
      cases hpc : k.sys.pc t with
      | hit a i => exact absurd hpc (hhit a i)
      | fetching a i => exact absurd hpc (hftc a i)
      | _ => rfl

theorem Inv.did_readAhead {p : AheadPc} (h : k.Inv) (hτ : k.task t = .readAhead p)
    (hs : k.readAheadStep t p = some k') : Did k t k' := by
  cases p with
  | start =>
    have hidle := h.outside t (by rw [hτ]; rfl)
    obtain ⟨m, hm, rfl⟩ := map_eq_some_iff.mp hs
    obtain ⟨hfree, rfl⟩ := takeTable_eq_some hm
    exact .of_idle hidle (.aheadLock (i := 0) (j := k.sys.cache.readAheadHead) hτ (.inl rfl) hfree)
  | scan i =>
    have hidle := h.outside t (by rw [hτ]; rfl)
    simp only [readAheadStep] at hs
    split_ifs at hs with hi hl
    · obtain ⟨m, hm, rfl⟩ := map_eq_some_iff.mp hs
      obtain ⟨hheld, rfl⟩ := giveTable_eq_some hm
      exact .of_idle hidle (.aheadEnd (c := { k.sys.cache with
        readAheadHead := k.sys.cache.readAheadTail }) hτ hheld rfl)
    · split at hs
      · cases hs
        exact .of_idle hidle (.aheadScan (j := ringNext i) hτ)
      · split at hs
        · next j _ =>
            cases hs
            exact .aheadGet hτ rfl (.inl ⟨j, rfl⟩)
        · obtain ⟨⟨v, c⟩, hev, rfl⟩ := map_eq_some_iff.mp hs
          cases lruEvict_eq_some hev
          exact .aheadGet hτ rfl (.inr ⟨v, rfl⟩)
    · split at hs
      · cases hs
        exact .of_idle hidle (.aheadScan (j := ringNext i) hτ)
      · cases hs
  | getting i =>
    simp only [readAheadStep] at hs
    split at hs
    · next a j hpc =>
        obtain ⟨m, hm, rfl⟩ := map_eq_some_iff.mp hs
        obtain ⟨hlock, rfl⟩ := takeEntry_eq hm
        exact .aheadGot hτ (.hit hpc hlock)
    · next a j hpc =>
        obtain ⟨c, hc, rfl⟩ := map_eq_some_iff.mp hs
        exact .aheadGot hτ (.fetch hpc (sameMonitors_fetch hc))
    · cases hs
    · next hhit hftc _ =>
        obtain ⟨m, hm, rfl⟩ := map_eq_some_iff.mp hs
        refine h.did_runThread (by rw [hτ]; rfl) ?_ hm
        cases hpc : k.sys.pc t with
        | hit a i => exact absurd hpc (hhit a i)
        | fetching a i => exact absurd hpc (hftc a i)
        | _ => rfl
  | loaded i j =>
    have hidle := h.outside t (by rw [hτ]; rfl)
    obtain ⟨m, hm, rfl⟩ := map_eq_some_iff.mp hs
    obtain ⟨hheld, rfl⟩ := giveEntry_eq hm
    exact .of_idle hidle (.aheadUnlock hτ hheld)
  | again i =>
    have hidle := h.outside t (by rw [hτ]; rfl)
    obtain ⟨k1, hk1, rfl⟩ := map_eq_some_iff.mp hs
    obtain ⟨hfree, rfl⟩ := lockTable_eq_some hk1
    exact .of_idle hidle (.aheadLock (i := i) (j := ringNext i) hτ (.inr rfl) hfree)

theorem Inv.did_out (hτ : τ = .writeBehind ∨ τ = .flushCache) (hidle : k.sys.pc t = .idle)
    (htask : k.task t = τ p) (hs : k.outStep t τ p = some k') : Did k t k' := by
  cases p with
  | start | scan => cases hs
  | lockEntry i =>
    obtain ⟨m, hm, rfl⟩ := map_eq_some_iff.mp hs
    obtain ⟨hlock, rfl⟩ := takeEntry_eq hm
    exact .of_idle hidle (.outLock hτ htask hlock)
  | writing i =>
    obtain ⟨c, hc, rfl⟩ := map_eq_some_iff.mp hs
    exact .of_idle hidle (.outWrite hτ htask (sameMonitors_writeOut hc))
  | unlocking i =>
    obtain ⟨m, hm, rfl⟩ := map_eq_some_iff.mp hs
    obtain ⟨hheld, rfl⟩ := giveEntry_eq hm
    exact .of_idle hidle (.outUnlock hτ htask hheld)

theorem Inv.did_writeBehind (h : k.Inv) (hτ : k.task t = .writeBehind p)
    (hs : k.writeBehindStep t p = some k') : Did k t k' := by
  have hidle := h.outside t (by rw [hτ]; rfl)
  cases p with
  | start =>
    obtain ⟨k1, hk1, rfl⟩ := map_eq_some_iff.mp hs
    obtain ⟨hfree, rfl⟩ := lockTable_eq_some hk1
    exact .of_idle hidle (.behindLock hτ hfree)
  | scan i =>
    simp only [writeBehindStep] at hs
    split_ifs at hs with hi hd
    · cases hs
      exact .of_idle hidle (.behindDirty hτ hd)
    · cases hs
      exact .of_idle hidle (.behindScan hτ)
    · obtain ⟨m, hm, rfl⟩ := map_eq_some_iff.mp hs
      obtain ⟨hheld, rfl⟩ := giveTable_eq_some hm
      exact .of_idle hidle (.behindEnd hτ hheld)
  | lockEntry | writing | unlocking => exact did_out (.inl rfl) hidle hτ hs

theorem Inv.did_flush (h : k.Inv) (hτ : k.task t = .flushCache p)
    (hs : k.flushStep t p = some k') : Did k t k' := by
  have hidle := h.outside t (by rw [hτ]; rfl)
  cases p with
  | start => cases hs
  | scan i =>
    have hscan : ∀ {τ}, τ = .call ∨ (∃ j, τ = .flushCache (.scan j)) ∨
        (∃ j, τ = .flushCache (.lockEntry j)) → Did k t (k.goTo t τ) := by
      intro τ hτ'
      exact .of_idle hidle (.flushScan hτ hτ')
    simp only [flushStep] at hs
    split_ifs at hs <;> cases hs
    · exact hscan (.inr (.inl ⟨_, rfl⟩))
    · exact hscan (.inr (.inr ⟨_, rfl⟩))
    · exact hscan (.inr (.inl ⟨_, rfl⟩))
    · exact hscan (.inl rfl)
  | lockEntry | writing | unlocking => exact did_out (.inr rfl) hidle hτ hs

theorem Inv.did (h : k.Inv) (hs : k.runThread t w = some k') : Did k t k' := by
  unfold runThread at hs
  cases hτ : k.task t with
  | call =>
    rw [hτ] at hs
    exact h.did_call hτ hs
  | monitor a i stage =>
    rw [hτ] at hs
    obtain ⟨k1, hk1, hdid⟩ := did_of_monitor hτ (h.outside t (by rw [hτ]; rfl))
      (h.inside t a i stage hτ) w
    exact mem_unique hk1 hs ▸ hdid
  | readAhead p =>
    rw [hτ] at hs
    exact h.did_readAhead hτ hs
  | writeBehind p =>
    rw [hτ] at hs
    exact h.did_writeBehind hτ hs
  | flushCache p =>
    rw [hτ] at hs
    exact h.did_flush hτ hs

end CacheKernel

end Pintos
