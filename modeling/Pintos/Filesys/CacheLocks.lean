import Pintos.Filesys.CacheThreads

/-! # The steps of a thread in the buffer cache

What a step of `cache_read` or `cache_write` can do, said once.

* **Free monitors.**  The code inside the monitor of an entry is executed in one step, with the lock
  of the entry.  If every step finds the monitor free, every step leaves it free (`Calm`), so that
  nobody ever waits on a condition variable.
* **Steps.**  `Ran m t p m'`: thread `t`, standing at `p`, gets the system from `m` to `m'`.
* **Locks.**  The place of a thread tells which locks it holds (`OwnsAt`). -/


namespace Pintos
open Bytes Slots Runs Function Option

namespace CacheEntry

/-- Nobody is in the monitor of the entry, and nobody waits for it. -/
def Free (e : CacheEntry) : Prop :=
  e.mode = .unlock ∧ e.readerActive = 0 ∧ e.readerWaiting = 0 ∧ e.writerWaiting = 0

/-- What a call returns and leaves behind, if it finds the monitor free. -/
def serve (e : CacheEntry) : Access → List UInt8 × CacheEntry
  | .read _ size offset =>
    ((List.range size).map fun j => e.data (offset + j), { e with access := true })
  | .write _ buf offset =>
    ([], { e with data := overwrite e.data offset buf, access := true, dirty := true })

variable {e : CacheEntry}

theorem free_init : init.Free := ⟨rfl, rfl, rfl, rfl⟩

theorem Free.serve (h : e.Free) (a : Access) : (e.serve a).2.Free := by
  cases a <;> exact h

@[simp] theorem serve_sector (e : CacheEntry) (a : Access) : (e.serve a).2.sector = e.sector := by
  cases a <;> rfl

theorem Free.enter_work (h : e.Free) (a : Access) :
    ∃ e1, e.enter a = some e1 ∧ e1.work a = some (e.serve a) ∧ e1.readerWaiting = 0 ∧
      e1.writerWaiting = 0 := by
  obtain ⟨hm, ha, hr, hw⟩ := h
  obtain ⟨sector, access, dirty, data, active, waiting, writers, mode⟩ := e
  subst hm ha hr hw
  cases a with
  | read s size offset =>
    refine ⟨_, rfl, ?_, rfl, rfl⟩
    simp [CacheEntry.work, CacheEntry.readerLeave, CacheEntry.serve]
  | write s buf offset =>
    refine ⟨_, rfl, ?_, rfl, rfl⟩
    simp [CacheEntry.work, CacheEntry.writerLeave, CacheEntry.serve]

end CacheEntry

namespace Cache

/-- Entry `i` is given to sector `s`. -/
def assign (c : Cache) (i : Slot) (s : ℕ) (lru : List ℕ) : Cache :=
  Cache.setEntry { c with lru := lru } i { c.entries i with sector := some s }

/-- The old sector of entry `i` has been taken care of. -/
def clean (c : Cache) (i : Slot) (disk : ℕ → Block) : Cache :=
  Cache.setEntry { c with disk := disk } i
    { c.entries i with dirty := false, access := false, mode := .unlock }

/-- Entry `i` gets the bytes of sector `s`. -/
def load (c : Cache) (i : Slot) (s : ℕ) : Cache :=
  c.setEntry i { c.entries i with data := c.disk s }

variable {c c' : Cache} {i : Slot} {s : ℕ}

theorem assign_sectors {lru : List ℕ} : (c.assign i s lru).sectors = update c.sectors i (some s) :=
  setEntry_sectors _ _ _

@[simp] theorem clean_sectors {disk : ℕ → Block} : (c.clean i disk).sectors = c.sectors :=
  CacheSystem.sectors_setEntry_of_eq _ i rfl

@[simp] theorem load_sectors : (c.load i s).sectors = c.sectors :=
  CacheSystem.sectors_setEntry_of_eq _ i rfl

theorem lruEnqueue_eq_some (h : c.lruEnqueue s = some c') : c' = { c with lru := c.lru ++ [s] } := by
  simp only [lruEnqueue, ite_none_right_eq_some, some.injEq] at h
  exact h.2.symm

theorem claimSlot_eq_some (h : c.claimSlot i s = some c') : c' = c.assign i s (c.lru ++ [s]) := by
  simp only [claimSlot, ite_none_right_eq_some, map_eq_some_iff] at h
  obtain ⟨-, c1, hc1, rfl⟩ := h
  rw [lruEnqueue_eq_some hc1]
  rfl

theorem writeBack_eq_some (h : c.writeBack i old = some c') :
    ∃ disk, c' = c.clean i disk ∧ ((c.entries i).dirty = false → disk = c.disk) ∧
      ((c.entries i).dirty = true → ∃ s, old = some s ∧ s < c.size ∧
        disk = update c.disk s (c.entries i).data) := by
  obtain ⟨c1, h1, rfl⟩ := map_eq_some_iff.mp h
  split_ifs at h1 with hd
  · obtain ⟨s, rfl, hwrt⟩ := bind_eq_some_iff.mp h1
    obtain ⟨hs, ⟨⟩⟩ := ite_none_right_eq_some.mp hwrt
    exact ⟨_, rfl, fun h => absurd hd (by simp [h]), fun _ => ⟨s, rfl, hs, rfl⟩⟩
  · cases h1
    exact ⟨c.disk, rfl, fun _ => rfl, fun h => absurd h hd⟩

theorem fetch_eq_some (h : c.fetch i s writing = some c') :
    (writing = true ∧ c' = c) ∨ (writing = false ∧ s < c.size ∧ c' = c.load i s) := by
  cases writing with
  | true => exact .inl ⟨rfl, (some.inj h).symm⟩
  | false =>
    obtain ⟨b, hb, rfl⟩ := map_eq_some_iff.mp h
    obtain ⟨hs, ⟨⟩⟩ := ite_none_right_eq_some.mp hb
    exact .inr ⟨rfl, hs, rfl⟩

end Cache

namespace CachePc

/-- The entry whose lock is held there. -/
def heldEntry : CachePc → Option Slot
  | .claimed _ i | .recheck _ i | .spared _ i _ | .unlockVictim _ i _ | .retargeted _ i _
  | .writeBack _ i _ | .fetching _ i | .mismatch _ i | .parking _ i | .finished _ i _ => some i
  | _ => none

/-- The call that is being executed there. -/
def access : CachePc → Option Access
  | .idle => none
  | .lookup a | .looked a _ | .hit a _ | .miss a | .tryFree a _ | .claimed a _ | .evicting a _
  | .lockVictim a _ | .recheck a _ | .spared a _ _ | .unlockVictim a _ _ | .retargeted a _ _
  | .writeBack a _ _ | .fetching a _ | .mismatch a _ | .parking a _ | .waiting a _ | .woken a _
  | .finished a _ _ => some a

/-- About to enter the monitor of an entry. -/
def enters : CachePc → Bool
  | .hit _ _ | .fetching _ _ => true
  | _ => false

/-- Inside `cond_wait`, or about to be. -/
def waits : CachePc → Bool
  | .parking _ _ | .waiting _ _ | .woken _ _ => true
  | _ => false

end CachePc

namespace CacheSystem

variable {T : Type} [DecidableEq T]

/-- The state after a step of `t`. -/
def next (m : CacheSystem T) (t : T) (c : Cache) (table : Option T) (entryLock : Slot → Option T)
    (p : CachePc) : CacheSystem T :=
  ⟨c, table, entryLock, update m.pc t p⟩

variable {m m' : CacheSystem T} {t t' w : T} {a : Access} {i : Slot} {p : CachePc}

variable {c : Cache} {table : Option T} {f : Slot → Option T}

@[simp] theorem next_pc_self : (m.next t c table f p).pc t = p := by
  simp [next]

theorem next_pc_of_ne (h : t' ≠ t) : (m.next t c table f p).pc t' = m.pc t' := by
  simp [next, h]

/-- All monitors are free, and nobody waits on a condition variable. -/
structure Calm (m : CacheSystem T) : Prop where
  free : ∀ i, (m.cache.entries i).Free
  goes : ∀ t, (m.pc t).waits = false

/-- What a call does with the lock of entry `i`, whose monitor is free. -/
def served (m : CacheSystem T) (t : T) (c : Cache) (f : Slot → Option T) (a : Access) (i : Slot) :
    CacheSystem T :=
  if c.sectors i = some a.sector then
    m.next t ((c.setEntry i ((c.entries i).serve a).2).lineUp a.sector) m.table f
      (.finished a i ((c.entries i).serve a).1)
  else m.next t c m.table f (.mismatch a i)

theorem served_of_eq (h : c.sectors i = some a.sector) :
    m.served t c f a i =
      m.next t ((c.setEntry i ((c.entries i).serve a).2).lineUp a.sector) m.table f
        (.finished a i ((c.entries i).serve a).1) :=
  if_pos h

theorem served_of_ne (h : c.sectors i ≠ some a.sector) :
    m.served t c f a i = m.next t c m.table f (.mismatch a i) :=
  if_neg h

/-- The steps of a thread while all monitors are free. -/
inductive Ran (m : CacheSystem T) (t : T) : CachePc → CacheSystem T → Prop
  | lookup {a : Access} : m.table = none →
      Ran m t (.lookup a) (m.next t m.cache (some t) m.entryLock
        (.looked a (m.cache.sectorToCache a.sector)))
  | looked {a : Access} {found : Option Slot} : m.table = some t →
      Ran m t (.looked a found) (m.next t m.cache none m.entryLock (.afterLookup a found))
  | hit {a : Access} {i : Slot} : m.entryLock i = none →
      Ran m t (.hit a i) (m.served t m.cache (update m.entryLock i (some t)) a i)
  | missFree {a : Access} {i : Slot} : m.table = none → freeSlot m.cache.sectors = some i →
      Ran m t (.miss a) (m.next t m.cache (some t) m.entryLock (.tryFree a i))
  | missFull {a : Access} {v : Option Slot} {lru : List ℕ} : m.table = none →
      freeSlot m.cache.sectors = none → m.cache.lruEvict = some (v, { m.cache with lru := lru }) →
      Ran m t (.miss a) (m.next t { m.cache with lru := lru } (some t) m.entryLock (.evicting a v))
  | tryFree {a : Access} {i : Slot} {lru : List ℕ} : m.entryLock i = none →
      Ran m t (.tryFree a i) (m.next t (m.cache.assign i a.sector lru) m.table
        (update m.entryLock i (some t)) (.claimed a i))
  | claimed {a : Access} {i : Slot} : m.table = some t →
      Ran m t (.claimed a i) (m.next t m.cache none m.entryLock (.fetching a i))
  | evicting {a : Access} {v : Option Slot} : m.table = some t →
      Ran m t (.evicting a v) (m.next t m.cache none m.entryLock (.afterEvict a v))
  | lockVictim {a : Access} {i : Slot} : m.entryLock i = none →
      Ran m t (.lockVictim a i) (m.next t m.cache m.table (update m.entryLock i (some t))
        (.recheck a i))
  | spare {a : Access} {i j : Slot} {lru : List ℕ} : m.table = none →
      m.cache.sectorToCache a.sector = some j →
      Ran m t (.recheck a i) (m.next t { m.cache with lru := lru } (some t) m.entryLock
        (.spared a i j))
  | retarget {a : Access} {i : Slot} {lru : List ℕ} : m.table = none →
      m.cache.sectorToCache a.sector = none →
      Ran m t (.recheck a i) (m.next t (m.cache.assign i a.sector lru) (some t) m.entryLock
        (.retargeted a i (m.cache.sectors i)))
  | spared {a : Access} {i j : Slot} : m.table = some t →
      Ran m t (.spared a i j) (m.next t m.cache none m.entryLock (.unlockVictim a i j))
  | unlockVictim {a : Access} {i j : Slot} : m.entryLock i = some t →
      Ran m t (.unlockVictim a i j) (m.next t m.cache m.table (update m.entryLock i none)
        (.hit a j))
  | retargeted {a : Access} {i : Slot} {old : Option ℕ} : m.table = some t →
      Ran m t (.retargeted a i old) (m.next t m.cache none m.entryLock (.writeBack a i old))
  | writeBack {a : Access} {i : Slot} {old : Option ℕ} {disk : ℕ → Block} :
      ((m.cache.entries i).dirty = false → disk = m.cache.disk) →
      ((m.cache.entries i).dirty = true → ∃ s, old = some s ∧ s < m.cache.size ∧
        disk = update m.cache.disk s (m.cache.entries i).data) →
      Ran m t (.writeBack a i old) (m.next t (m.cache.clean i disk) m.table m.entryLock
        (.fetching a i))
  | skip {a : Access} {i : Slot} : a.writing = true →
      Ran m t (.fetching a i) (m.served t m.cache m.entryLock a i)
  | fetch {a : Access} {i : Slot} : a.writing = false → a.sector < m.cache.size →
      Ran m t (.fetching a i) (m.served t (m.cache.load i a.sector) m.entryLock a i)
  | mismatch {a : Access} {i : Slot} : m.entryLock i = some t →
      Ran m t (.mismatch a i) (m.next t m.cache m.table (update m.entryLock i none)
        (.lookup a))
  | finished {a : Access} {i : Slot} {bytes : List UInt8} : m.entryLock i = some t →
      Ran m t (.finished a i bytes) (m.next t m.cache m.table (update m.entryLock i none)
        .idle)

/-! ### The steps are those of `runThread` -/

theorem enterEntry_of_free (h : (c.entries i).Free) :
    enterEntry ⟨c, m.table, f, m.pc⟩ t w a i = some (m.served t c f a i) := by
  obtain ⟨e1, hene, hwork, hr, hw⟩ := h.enter_work a
  have hsig : ∀ m : CacheSystem T, m.signal e1 a i w = m := by
    cases a <;> simp [signal, hw, hr]
  unfold enterEntry served
  by_cases hs : (c.entries i).sector = some a.sector
  · rw [if_pos hs, if_pos (show c.sectors i = _ from hs), hene]
    simp only [workIn, hwork, hsig]
    rfl
  · rw [if_neg hs, if_neg (show ¬ c.sectors i = _ from hs)]
    rfl

theorem free_setEntry (h : ∀ j, (c.entries j).Free) (he : e.Free)
    (j : Slot) : ((c.setEntry i e).entries j).Free := by
  by_cases hj : j = i
  · subst hj
    simpa using he
  · simpa [hj] using h j

/-- The steps of `runThread`, except for waits and for monitors that are not free. -/
theorem ran_of_runThread (hgoes : (m.pc t).waits = false)
    (hfree : (m.pc t).enters = true → ∀ i, (m.cache.entries i).Free)
    (h : m.runThread t w = some m') : Ran m t (m.pc t) m' := by
  unfold runThread at h
  generalize m.pc t = p at h hgoes hfree
  cases p with
  | idle => cases h
  | parking | waiting | woken => cases hgoes
  | lookup a =>
    obtain ⟨m1, htake, rfl⟩ := map_eq_some_iff.mp h
    obtain ⟨hfree, rfl⟩ := takeTable_eq_some htake
    exact .lookup hfree
  | looked a found =>
    obtain ⟨m1, hgive, rfl⟩ := map_eq_some_iff.mp h
    obtain ⟨hheld, rfl⟩ := giveTable_eq_some hgive
    exact .looked hheld
  | hit a i =>
    obtain ⟨m1, htake, h⟩ := bind_eq_some_iff.mp h
    obtain ⟨hlock, ⟨⟩⟩ := ite_none_right_eq_some.mp htake
    cases (enterEntry_of_free (hfree rfl i)).symm.trans h
    exact .hit hlock
  | miss a =>
    obtain ⟨m1, htake, h⟩ := bind_eq_some_iff.mp h
    obtain ⟨hfree, rfl⟩ := takeTable_eq_some htake
    cases hslot : freeSlot m.cache.sectors with
    | some i =>
      simp only [hslot, some.injEq] at h
      exact h ▸ .missFree hfree hslot
    | none =>
      simp only [hslot, map_eq_some_iff] at h
      obtain ⟨⟨v, c⟩, hevc, rfl⟩ := h
      cases Cache.lruEvict_eq_some hevc
      exact .missFull hfree hslot hevc
  | tryFree a i =>
    obtain ⟨m1, htake, h⟩ := bind_eq_some_iff.mp h
    obtain ⟨hfree, ⟨⟩⟩ := ite_none_right_eq_some.mp htake
    obtain ⟨c, hclm, rfl⟩ := map_eq_some_iff.mp h
    cases Cache.claimSlot_eq_some hclm
    exact .tryFree hfree
  | claimed a i =>
    obtain ⟨m1, hgive, rfl⟩ := map_eq_some_iff.mp h
    obtain ⟨hheld, rfl⟩ := giveTable_eq_some hgive
    exact .claimed hheld
  | evicting a v =>
    obtain ⟨m1, hgive, rfl⟩ := map_eq_some_iff.mp h
    obtain ⟨hheld, rfl⟩ := giveTable_eq_some hgive
    exact .evicting hheld
  | lockVictim a i =>
    obtain ⟨m1, htake, rfl⟩ := map_eq_some_iff.mp h
    obtain ⟨hfree, ⟨⟩⟩ := ite_none_right_eq_some.mp htake
    exact .lockVictim hfree
  | recheck a i =>
    obtain ⟨m1, htake, h⟩ := bind_eq_some_iff.mp h
    obtain ⟨hfree, rfl⟩ := takeTable_eq_some htake
    cases hslot : m.cache.sectorToCache a.sector with
    | some j =>
      simp only [hslot, map_eq_some_iff] at h
      obtain ⟨c, hc, rfl⟩ := h
      obtain ⟨s, -, hc⟩ := bind_eq_some_iff.mp hc
      cases Cache.lruEnqueue_eq_some hc
      exact .spare hfree hslot
    | none =>
      simp only [hslot, map_eq_some_iff] at h
      obtain ⟨c, hc, rfl⟩ := h
      obtain rfl : c = m.cache.assign i a.sector (m.cache.lru ++ [a.sector]) :=
        Cache.lruEnqueue_eq_some hc
      exact .retarget hfree hslot
  | spared a i j =>
    obtain ⟨m1, hgive, rfl⟩ := map_eq_some_iff.mp h
    obtain ⟨hheld, rfl⟩ := giveTable_eq_some hgive
    exact .spared hheld
  | unlockVictim a i j =>
    obtain ⟨m1, hgive, rfl⟩ := map_eq_some_iff.mp h
    obtain ⟨hheld, ⟨⟩⟩ := ite_none_right_eq_some.mp hgive
    exact .unlockVictim hheld
  | retargeted a i old =>
    obtain ⟨m1, hgive, rfl⟩ := map_eq_some_iff.mp h
    obtain ⟨hheld, rfl⟩ := giveTable_eq_some hgive
    exact .retargeted hheld
  | writeBack a i old =>
    obtain ⟨c, hback, rfl⟩ := map_eq_some_iff.mp h
    obtain ⟨disk, rfl, hcln, hdrt⟩ := Cache.writeBack_eq_some hback
    exact .writeBack hcln hdrt
  | fetching a i =>
    obtain ⟨c, hftc, h⟩ := bind_eq_some_iff.mp h
    obtain ⟨hwri, rfl⟩ | ⟨hwri, hs, rfl⟩ := Cache.fetch_eq_some hftc
    · cases (enterEntry_of_free (hfree rfl i)).symm.trans h
      exact .skip hwri
    · have hload := free_setEntry (i := i) (hfree rfl)
        (e := { m.cache.entries i with data := m.cache.disk a.sector }) (hfree rfl i) i
      cases (enterEntry_of_free hload).symm.trans h
      exact .fetch hwri hs
  | mismatch a i =>
    obtain ⟨m1, hgive, rfl⟩ := map_eq_some_iff.mp h
    obtain ⟨hheld, ⟨⟩⟩ := ite_none_right_eq_some.mp hgive
    exact .mismatch hheld
  | finished a i bytes =>
    obtain ⟨m1, hgive, rfl⟩ := map_eq_some_iff.mp h
    obtain ⟨hheld, ⟨⟩⟩ := ite_none_right_eq_some.mp hgive
    exact .finished hheld

theorem Ran.goes (h : Ran m t p m') : (m'.pc t).waits = false := by
  cases h with
  | hit | skip | fetch =>
    unfold served
    split_ifs <;> rw [next_pc_self] <;> rfl
  | @looked a found => rw [next_pc_self]; cases found <;> rfl
  | @evicting a v => rw [next_pc_self]; cases v <;> rfl
  | _ => rw [next_pc_self]; rfl

theorem Calm.ran (hc : m.Calm) (h : m.runThread t w = some m') : Ran m t (m.pc t) m' :=
  ran_of_runThread (hc.goes t) (fun _ => hc.free) h

theorem Calm.next (hc : m.Calm)
    (hfree : ∀ j, (c.entries j).Free) (hp : p.waits = false) : (m.next t c table f p).Calm := by
  refine ⟨hfree, fun t' => ?_⟩
  by_cases e : t' = t
  · subst e
    rwa [next_pc_self]
  · rw [next_pc_of_ne e]
    exact hc.goes t'

theorem Calm.served (hc : m.Calm)
    (hfree : ∀ j, (c.entries j).Free) : (m.served t c f a i).Calm := by
  unfold CacheSystem.served
  split_ifs
  · exact hc.next (free_setEntry hfree ((hfree i).serve a)) rfl
  · exact hc.next hfree rfl

theorem Calm.step {act : CacheAction T} (hc : m.Calm) (h : m.step act = some m') : m'.Calm := by
  cases act with
  | start t a =>
    simp only [CacheSystem.step, ite_none_right_eq_some, some.injEq] at h
    exact h.2 ▸ hc.next hc.free rfl
  | run t w =>
    have hran := hc.ran h
    generalize m.pc t = p at hran
    cases hran with
    | hit | skip => exact hc.served hc.free
    | fetch => exact hc.served (free_setEntry hc.free (hc.free _))
    | tryFree | retarget => exact hc.next (free_setEntry hc.free (hc.free _)) rfl
    | writeBack =>
      refine hc.next (free_setEntry hc.free ?_) rfl
      exact ⟨rfl, (hc.free _).2⟩
    | @looked a found => exact hc.next hc.free (by cases found <;> rfl)
    | @evicting a v => exact hc.next hc.free (by cases v <;> rfl)
    | _ => exact hc.next hc.free rfl

omit [DecidableEq T] in
theorem calm_quiet (size : ℕ) (disk : ℕ → Block) :
    (quiet (cacheInit size disk) : CacheSystem T).Calm :=
  ⟨fun _ => CacheEntry.free_init, fun _ => rfl⟩

/-! ### Which locks a thread holds -/

/-- Thread `t` holds `cache_table_lock` or not, and no other entry lock than that of `entry`. -/
def HoldsLocks (m : CacheSystem T) (t : T) (table : Bool) (entry : Option Slot) : Prop :=
  (m.table = some t ↔ table) ∧ ∀ i, m.entryLock i = some t ↔ entry = some i

/-- Thread `t` holds the locks that are held at `p`, and no others. -/
abbrev OwnsAt (m : CacheSystem T) (t : T) (p : CachePc) : Prop :=
  m.HoldsLocks t p.holdsTable p.heldEntry

/-- A step of `t` neither takes nor gives back locks of another thread. -/
structure SameOthers (t : T) (m m' : CacheSystem T) : Prop where
  table : ∀ t', t' ≠ t → (m'.table = some t' ↔ m.table = some t')
  entry : ∀ t', t' ≠ t → ∀ i, m'.entryLock i = some t' ↔ m.entryLock i = some t'
  pc : ∀ t', t' ≠ t → m'.pc t' = m.pc t'

section locks
variable {c : Cache} {q : CachePc} {j : Slot}

/-- What a step does with locks: nothing, or take or give back one of them. -/
inductive LockMove (m : CacheSystem T) (t : T) : Option T → (Slot → Option T) → Prop
  | none : LockMove m t m.table m.entryLock
  | takeTable : m.table = none → LockMove m t (some t) m.entryLock
  | giveTable : m.table = some t → LockMove m t none m.entryLock
  | takeEntry (i : Slot) : m.entryLock i = none →
      LockMove m t m.table (update m.entryLock i (some t))
  | giveEntry (i : Slot) : m.entryLock i = some t →
      LockMove m t m.table (update m.entryLock i none)

theorem LockMove.sameOthers (h : LockMove m t table f) : SameOthers t m (m.next t c table f q) := by
  have hne : ∀ {t'}, t' ≠ t → ∀ {o : Option T}, o = some t → o ≠ some t' :=
    fun h _ ho ho' => h (mem_unique ho' ho)
  have hnone : ∀ {t'} {o : Option T}, o = Option.none → o ≠ some t' := by
    simp
  refine ⟨fun t' ht => ?_, fun t' ht j => ?_, fun t' ht => next_pc_of_ne ht⟩
  · cases h with
    | takeTable h => exact iff_of_false (hne ht rfl) (hnone h)
    | giveTable h => exact iff_of_false (hnone rfl) (hne ht h)
    | _ => exact Iff.rfl
  · show f j = some t' ↔ _
    cases h with
    | takeEntry i h =>
      by_cases e : j = i
      · subst e
        rw [update_self]
        exact iff_of_false (hne ht rfl) (hnone h)
      · rw [update_of_ne e]
    | giveEntry i h =>
      by_cases e : j = i
      · subst e
        rw [update_self]
        exact iff_of_false (hnone rfl) (hne ht h)
      · rw [update_of_ne e]
    | _ => exact Iff.rfl

section holds
variable {tb : Bool} {e : Option Slot}

theorem HoldsLocks.keep (h : m.HoldsLocks t tb e) :
    (m.next t c m.table m.entryLock q).HoldsLocks t tb e := h

theorem HoldsLocks.takeTable (h : m.HoldsLocks t tb e) :
    (m.next t c (some t) m.entryLock q).HoldsLocks t true e :=
  ⟨iff_of_true rfl rfl, h.2⟩

theorem HoldsLocks.giveTable (h : m.HoldsLocks t tb e) :
    (m.next t c none m.entryLock q).HoldsLocks t false e :=
  ⟨iff_of_false (by simp [next]) (by simp), h.2⟩

theorem HoldsLocks.takeEntry (h : m.HoldsLocks t tb none) :
    (m.next t c m.table (update m.entryLock i (some t)) q).HoldsLocks t tb (some i) := by
  refine ⟨h.1, fun j => ?_⟩
  show update m.entryLock i (some t) j = _ ↔ _
  by_cases e : j = i
  · subst e
    rw [update_self]
    exact iff_of_true rfl rfl
  · rw [update_of_ne e, h.2]
    exact iff_of_false (by simp) fun he => e (some.inj he).symm

theorem HoldsLocks.giveEntry (h : m.HoldsLocks t tb (some i)) :
    (m.next t c m.table (update m.entryLock i none) q).HoldsLocks t tb none := by
  refine ⟨h.1, fun j => ?_⟩
  show update m.entryLock i none j = _ ↔ _
  by_cases e : j = i
  · subst e
    exact iff_of_false (by simp) (by simp)
  · rw [update_of_ne e, h.2]
    exact iff_of_false (fun he => e (some.inj he).symm) (by simp)

end holds

/-- Each step keeps the locks of `t` in line with its place, and leaves the others alone. -/
theorem Ran.owns (h : Ran m t p m') (ho : OwnsAt m t p) :
    OwnsAt m' t (m'.pc t) ∧ SameOthers t m m' := by
  cases h with
  | lookup h => exact ⟨by rw [next_pc_self]; exact ho.takeTable, (LockMove.takeTable h).sameOthers⟩
  | missFree h => exact ⟨by rw [next_pc_self]; exact ho.takeTable, (LockMove.takeTable h).sameOthers⟩
  | missFull h => exact ⟨by rw [next_pc_self]; exact ho.takeTable, (LockMove.takeTable h).sameOthers⟩
  | spare h => exact ⟨by rw [next_pc_self]; exact ho.takeTable, (LockMove.takeTable h).sameOthers⟩
  | retarget h => exact ⟨by rw [next_pc_self]; exact ho.takeTable, (LockMove.takeTable h).sameOthers⟩
  | @looked a found h =>
    refine ⟨?_, (LockMove.giveTable h).sameOthers⟩
    rw [next_pc_self]
    cases found <;> exact ho.giveTable
  | @evicting a v h =>
    refine ⟨?_, (LockMove.giveTable h).sameOthers⟩
    rw [next_pc_self]
    cases v <;> exact ho.giveTable
  | claimed h => exact ⟨by rw [next_pc_self]; exact ho.giveTable, (LockMove.giveTable h).sameOthers⟩
  | spared h => exact ⟨by rw [next_pc_self]; exact ho.giveTable, (LockMove.giveTable h).sameOthers⟩
  | retargeted h => exact ⟨by rw [next_pc_self]; exact ho.giveTable, (LockMove.giveTable h).sameOthers⟩
  | @hit a i h =>
    unfold served
    split_ifs
    · exact ⟨by rw [next_pc_self]; exact ho.takeEntry, (LockMove.takeEntry i h).sameOthers⟩
    · exact ⟨by rw [next_pc_self]; exact ho.takeEntry, (LockMove.takeEntry i h).sameOthers⟩
  | @tryFree a i lru h =>
    exact ⟨by rw [next_pc_self]; exact ho.takeEntry, (LockMove.takeEntry i h).sameOthers⟩
  | @lockVictim a i h =>
    exact ⟨by rw [next_pc_self]; exact ho.takeEntry, (LockMove.takeEntry i h).sameOthers⟩
  | @unlockVictim a i j h =>
    exact ⟨by rw [next_pc_self]; exact ho.giveEntry, (LockMove.giveEntry i h).sameOthers⟩
  | @mismatch a i h =>
    exact ⟨by rw [next_pc_self]; exact ho.giveEntry, (LockMove.giveEntry i h).sameOthers⟩
  | @finished a i bytes h =>
    exact ⟨by rw [next_pc_self]; exact ho.giveEntry, (LockMove.giveEntry i h).sameOthers⟩
  | writeBack => exact ⟨by rw [next_pc_self]; exact ho.keep, LockMove.none.sameOthers⟩
  | skip | fetch =>
    unfold served
    split_ifs
    · exact ⟨by rw [next_pc_self]; exact ho.keep, LockMove.none.sameOthers⟩
    · exact ⟨by rw [next_pc_self]; exact ho.keep, LockMove.none.sameOthers⟩

/-- Each thread holds the locks that its place says. -/
def Owns (m : CacheSystem T) : Prop := ∀ t, OwnsAt m t (m.pc t)

theorem Owns.of_ran (ho : m.Owns) (h : Ran m t (m.pc t) m') : m'.Owns := by
  obtain ⟨hself, hote⟩ := h.owns (ho t)
  intro t'
  by_cases e : t' = t
  · exact e ▸ hself
  · rw [hote.pc t' e]
    exact ⟨(hote.table t' e).trans (ho t').1, fun i => (hote.entry t' e i).trans ((ho t').2 i)⟩

omit [DecidableEq T] in
theorem owns_quiet (c : Cache) : (quiet c : CacheSystem T).Owns :=
  fun _ => ⟨by simp [quiet, CachePc.holdsTable], by simp [quiet, CachePc.heldEntry]⟩

omit [DecidableEq T] in
theorem Owns.unique (ho : m.Owns) (h : (m.pc t).heldEntry = some i)
    (h' : (m.pc t').heldEntry = some i) : t' = t :=
  some.inj ((((ho t').2 i).mpr h').symm.trans (((ho t).2 i).mpr h))

end locks

theorem Ran.size (h : Ran m t p m') : m'.cache.size = m.cache.size := by
  cases h with
  | hit | skip | fetch => unfold served; split_ifs <;> rfl
  | _ => rfl

end CacheSystem

end Pintos
