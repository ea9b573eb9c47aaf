import Pintos.Lib.Bytes
import Pintos.Lib.Runs
import Pintos.Lib.Slots

/-! # The buffer cache

`filesys/cache.c` as operations on a table of 64 entries.

* **Entries.**  The `sector` field of an entry is `none` for `CACHE_SECTOR_EMPTY`.  Sector numbers
  are natural numbers below the size of the device, which is a `block_sector_t`; the cast to `int`
  keeps them apart.
* **Queue.**  `lru` is the list `cache_lru`.  `lru_update` returns at once, since `lru_evict`
  holds `cache_table_lock` when it calls it, so the queue is first in, first out.
* **Pieces.**  `cache_read` and `cache_write` take and give back locks several times.  The code
  between two such places is a definition of its own; here they are put together as one thread
  executes them while no other thread is in the cache.
* A failed `ASSERT`, an access beyond the device, and a wait or a loop that nobody ends are
  `none`. -/

namespace Pintos
open Bytes Slots Function Option

def BLOCK_SECTOR_SIZE : ℕ := 512
def CACHE_SIZE : ℕ := 64

instance : NeZero CACHE_SIZE := ⟨by decide⟩

/-- The bytes of a sector. -/
abbrev Block := ℕ → UInt8

/-- A call of `cache_read` or `cache_write`. -/
inductive Access where
  | read (s size offset : ℕ)
  | write (s : ℕ) (buf : List UInt8) (offset : ℕ)
deriving DecidableEq, Repr

namespace Access

def sector : Access → ℕ
  | read s _ _ => s
  | write s _ _ => s

/-- The argument of `get_free_cache`. -/
def writing : Access → Bool
  | read _ _ _ => false
  | write _ _ _ => true

/-- The assertions at the start of both functions. -/
def valid : Access → Bool
  | read s size offset => s ≠ 2 ^ 32 - 1 ∧ size + offset ≤ BLOCK_SECTOR_SIZE
  | write s buf offset => s ≠ 2 ^ 32 - 1 ∧ buf.length + offset ≤ BLOCK_SECTOR_SIZE

end Access

/-- `enum lock_mode`. -/
inductive LockMode where
  | unlock
  | readLock
  | writeLock
deriving DecidableEq, Repr

/-- `struct cache_entry` without its lock and its condition variables. -/
structure CacheEntry where
  sector : Option ℕ
  access : Bool
  dirty : Bool
  data : Block
  readerActive : UInt8
  readerWaiting : UInt8
  writerWaiting : UInt8
  mode : LockMode

/-- The global data of `cache.c`, and the device. -/
structure Cache where
  entries : Fin CACHE_SIZE → CacheEntry
  lru : List ℕ
  readAheadBuffer : Fin CACHE_SIZE → Option ℕ
  readAheadHead : Fin CACHE_SIZE
  readAheadTail : Fin CACHE_SIZE
  /-- `block_size (fs_device)`. -/
  size : ℕ
  disk : ℕ → Block

namespace CacheEntry

/-- The entry that `cache_init` sets up. -/
def init : CacheEntry where
  sector := none
  access := false
  dirty := false
  data := fun _ => 0
  readerActive := 0
  readerWaiting := 0
  writerWaiting := 0
  mode := .unlock

/-- Enter the monitor of the entry, or have to wait. -/
def enter (e : CacheEntry) : Access → Option CacheEntry
  | .read _ _ _ =>
    if e.mode = .unlock then some { e with mode := .readLock }
    else if e.mode = .readLock ∧ e.writerWaiting = 0 then some e
    else none
  | .write _ _ _ => if e.mode = .unlock then some { e with mode := .writeLock } else none

/-- The end of `cache_read`; a waiting writer is the next to enter. -/
def readerLeave (e : CacheEntry) : CacheEntry :=
  let e := { e with readerActive := e.readerActive - 1 }
  if e.readerActive = 0 ∧ 0 < e.writerWaiting then { e with mode := .writeLock }
  else if e.readerActive = 0 ∧ e.writerWaiting = 0 then { e with mode := .unlock }
  else e

/-- The end of `cache_write`: waiting readers go before waiting writers. -/
def writerLeave (e : CacheEntry) : CacheEntry :=
  if 0 < e.readerWaiting then { e with mode := .readLock }
  else if 0 < e.writerWaiting then e
  else { e with mode := .unlock }

/-- The work inside the monitor: copy, and leave.  A reader returns the bytes. -/
def work (e : CacheEntry) : Access → Option (List UInt8 × CacheEntry)
  | .read _ size offset =>
    if e.mode = .readLock then
      some ((List.range size).map fun j => e.data (offset + j),
        { e with readerActive := e.readerActive + 1, access := true }.readerLeave)
    else none
  | .write _ buf offset =>
    if e.mode = .writeLock ∧ e.readerActive = 0 then
      some ([], { e with
        data := overwrite e.data offset buf, access := true, dirty := true }.writerLeave)
    else none

end CacheEntry

/-- `cache_init`. -/
def cacheInit (size : ℕ) (disk : ℕ → Block) : Cache where
  entries := fun _ => .init
  lru := []
  readAheadBuffer := fun _ => none
  readAheadHead := 0
  readAheadTail := 0
  size := size
  disk := disk

namespace Cache

/-- The `sector` fields. -/
def sectors (c : Cache) (i : Fin CACHE_SIZE) : Option ℕ := (c.entries i).sector

def setEntry (c : Cache) (i : Fin CACHE_SIZE) (e : CacheEntry) : Cache :=
  { c with entries := update c.entries i e }

/-- `sector_to_cache`. -/
def sectorToCache (c : Cache) (s : ℕ) : Option (Fin CACHE_SIZE) := slotOf c.sectors s

def blockRead (c : Cache) (s : ℕ) : Option Block := if s < c.size then some (c.disk s) else none

def blockWrite (c : Cache) (s : ℕ) (b : Block) : Option Cache :=
  if s < c.size then some { c with disk := update c.disk s b } else none

/-- `lru_enqueue`. -/
def lruEnqueue (c : Cache) (s : ℕ) : Option Cache :=
  if c.lru.length < CACHE_SIZE then some { c with lru := c.lru ++ [s] } else none

/-- `lru_update`; `held`: the thread has `cache_table_lock`; `free`: nobody has it. -/
def lruUpdate (c : Cache) (held free : Bool) : Option Cache :=
  if c.lru.length < CACHE_SIZE then some c
  else if held then some c
  else if free then
    c.lru.foldlM (fun c s => do
      let i ← c.sectorToCache s
      if (c.entries i).access then
        return { c.setEntry i { c.entries i with access := false } with lru := c.lru.erase s ++ [s] }
      else return c) c
  else some c

/-- `lru_evict`, which holds `cache_table_lock`; the first component is `none` for `NULL`. -/
def lruEvict (c : Cache) : Option (Option (Fin CACHE_SIZE) × Cache) :=
  if c.lru.length ≤ CACHE_SIZE then do
    let c ← c.lruUpdate true false
    match c.lru with
    | [] => some (none, c)
    | s :: rest => (c.sectorToCache s).map fun i => (some i, { c with lru := rest })
  else none

/-- `get_free_cache` on the free slot `i`, up to the release of `cache_table_lock`. -/
def claimSlot (c : Cache) (i : Fin CACHE_SIZE) (s : ℕ) : Option Cache :=
  let e := c.entries i
  if e.mode = .unlock ∧ e.readerActive = 0 ∧ e.writerWaiting = 0 then
    (c.lruEnqueue s).map fun c => c.setEntry i { e with sector := some s }
  else none

/-- The sector is fetched, "unless we're immediately going to overwrite it". -/
def fetch (c : Cache) (i : Fin CACHE_SIZE) (s : ℕ) (writing : Bool) : Option Cache :=
  if writing then some c
  else (c.blockRead s).map fun b => c.setEntry i { c.entries i with data := b }

/-- `cache_evict` when the sector has not been loaded meanwhile, up to the release of
`cache_table_lock`. -/
def retarget (c : Cache) (i : Fin CACHE_SIZE) (s : ℕ) : Option Cache :=
  (c.setEntry i { c.entries i with sector := some s }).lruEnqueue s

/-- `cache_evict` after that: the old sector goes to the device if it is dirty. -/
def writeBack (c : Cache) (i : Fin CACHE_SIZE) (old : Option ℕ) : Option Cache :=
  (if (c.entries i).dirty then old.bind (c.blockWrite · (c.entries i).data) else some c).map
    fun c => c.setEntry i { c.entries i with dirty := false, access := false, mode := .unlock }

/-- `cache_evict`.  When `lru_evict` returns `NULL` its caller loops with nothing changed. -/
def cacheEvict (c : Cache) (s : ℕ) (writing : Bool) : Option (Fin CACHE_SIZE × Cache) := do
  let (victim, c) ← c.lruEvict
  let i ← victim
  match c.sectorToCache s with
  | some j => ((c.entries i).sector.bind c.lruEnqueue).map fun c => (j, c)
  | none => do
    let c₁ ← c.retarget i s
    let c₂ ← c₁.writeBack i (c.entries i).sector
    let c₃ ← c₂.fetch i s writing
    some (i, c₃)

/-- `get_free_cache`. -/
def getFreeCache (c : Cache) (s : ℕ) (writing : Bool) : Option (Fin CACHE_SIZE × Cache) :=
  match freeSlot c.sectors with
  | some i => do
    let c ← c.claimSlot i s
    let c ← c.fetch i s writing
    some (i, c)
  | none => c.cacheEvict s writing

/-- The loop of `cache_read` and `cache_write`: find the sector in the cache or load it. -/
def findEntry (c : Cache) (s : ℕ) (writing : Bool) : Option (Fin CACHE_SIZE × Cache) :=
  if c.lru.length ≤ CACHE_SIZE then
    match c.sectorToCache s with
    | some i => some (i, c)
    | none => c.getFreeCache s writing
  else none

/-- Line up read ahead. -/
def lineUp (c : Cache) (s : ℕ) : Cache :=
  { c with
    readAheadBuffer := update c.readAheadBuffer c.readAheadTail (some ((s + 1) % c.size))
    readAheadTail := ⟨(c.readAheadTail + 1) % CACHE_SIZE, Nat.mod_lt _ (by decide)⟩ }

/-- `cache_read` and `cache_write`. -/
def access (c : Cache) (a : Access) : Option (List UInt8 × Cache) :=
  if a.valid then do
    let (i, c) ← c.findEntry a.sector a.writing
    let e ← (c.entries i).enter a
    let (bytes, e) ← e.work a
    some (bytes, (c.setEntry i e).lineUp a.sector)
  else none

/-- `cache_read`. -/
def cacheRead (c : Cache) (s size offset : ℕ) : Option (List UInt8 × Cache) :=
  c.access (.read s size offset)

/-- `cache_write`. -/
def cacheWrite (c : Cache) (s : ℕ) (buf : List UInt8) (offset : ℕ) : Option Cache :=
  (c.access (.write s buf offset)).map Prod.snd

/-! ### Well-formed states -/

/-- The states between two complete operations. -/
structure WellFormed (c : Cache) : Prop where
  distinct : Distinct c.sectors
  queue : Enumerates c.lru c.sectors
  free : ∀ i, (c.entries i).mode = .unlock ∧ (c.entries i).readerActive = 0 ∧
    (c.entries i).readerWaiting = 0 ∧ (c.entries i).writerWaiting = 0
  inRange : ∀ i s, c.sectors i = some s → s < c.size
  /-- The device size is a `block_sector_t`. -/
  size : c.size < 2 ^ 32

@[simp] theorem setEntry_entries (c : Cache) (i e) :
    (c.setEntry i e).entries = update c.entries i e := rfl

@[simp] theorem setEntry_lru (c : Cache) (i e) : (c.setEntry i e).lru = c.lru := rfl

@[simp] theorem setEntry_size (c : Cache) (i e) : (c.setEntry i e).size = c.size := rfl

@[simp] theorem setEntry_disk (c : Cache) (i e) : (c.setEntry i e).disk = c.disk := rfl

theorem setEntry_sectors (c : Cache) (i : Fin CACHE_SIZE) (e : CacheEntry) :
    (c.setEntry i e).sectors = update c.sectors i e.sector := by
  funext j
  by_cases h : j = i
  · subst h; simp [sectors]
  · simp [sectors, h]

theorem WellFormed.setEntry {c : Cache} (hc : c.WellFormed)
    (hs : e.sector = (c.entries i).sector) (hm : e.mode = .unlock) (ha : e.readerActive = 0)
    (hr : e.readerWaiting = 0) (hw : e.writerWaiting = 0) : (c.setEntry i e).WellFormed := by
  have hsec : (c.setEntry i e).sectors = c.sectors := by
    rw [setEntry_sectors, hs]
    exact update_eq_self i c.sectors
  refine ⟨hsec ▸ hc.distinct, hsec ▸ hc.queue, fun j => ?_, hsec ▸ hc.inRange, hc.size⟩
  by_cases h : j = i
  · subst h; simp [hm, ha, hr, hw]
  · simpa [h] using hc.free j

theorem WellFormed.lineUp {c : Cache} (hc : c.WellFormed) (s : ℕ) : (c.lineUp s).WellFormed :=
  { hc with }

theorem wellFormed_cacheInit {size : ℕ} (h : size < 2 ^ 32) (disk : ℕ → Block) :
    (cacheInit size disk).WellFormed := by
  refine ⟨?_, ⟨List.nodup_nil, ?_⟩, ?_, ?_, h⟩
  · intro i j s hi
    simp [sectors, cacheInit, CacheEntry.init] at hi
  · simp [sectors, cacheInit, CacheEntry.init]
  · simp [cacheInit, CacheEntry.init]
  · simp [sectors, cacheInit, CacheEntry.init]

/-! ### The three ways to an entry -/

/-- The slot that a sector which is not in the cache gets: the first free one, else that of the
sector at the front of the queue. -/
def spareSlot (c : Cache) : Option (Fin CACHE_SIZE) :=
  match freeSlot c.sectors with
  | some i => some i
  | none => c.lru.head?.bind c.sectorToCache

/-- The bytes that a reader of `s` gets. -/
def image (c : Cache) (s : ℕ) : Block :=
  match c.sectorToCache s with
  | some i => (c.entries i).data
  | none => c.disk s

/-- The bytes that are left over in the spare slot. -/
def leftover (c : Cache) : Block :=
  match c.spareSlot with
  | some i => (c.entries i).data
  | none => fun _ => 0

/-- What the loop of `cache_read` and `cache_write` hands over: an entry with the sector in it. -/
structure Obtained (c : Cache) (s : ℕ) (i : Fin CACHE_SIZE) (c' : Cache) : Prop where
  wellFormed : c'.WellFormed
  sector : c'.sectors i = some s
  size : c'.size = c.size

variable {c : Cache} {s : ℕ}

theorem WellFormed.image_of_sectors (hc : c.WellFormed)
    (hi : c.sectors i = some s) : c.image s = (c.entries i).data := by
  have h : c.sectorToCache s = some i := hc.distinct.slotOf_eq hi
  unfold image
  rw [h]

theorem image_of_absent (h : c.sectorToCache s = none) : c.image s = c.disk s := by
  unfold image
  rw [h]

/-- A sector that was absent moves into slot `i`, whose monitor is free. -/
theorem WellFormed.occupy (hc : c.WellFormed) (ha : c.sectorToCache s = none) (hs : s < c.size)
    (he : e.sector = some s) (hq : Enumerates xs (update c.sectors i (some s)))
    (hm : e.mode = .unlock) (hact : e.readerActive = 0) (hr : e.readerWaiting = 0)
    (hw : e.writerWaiting = 0) : (Cache.setEntry { c with lru := xs } i e).WellFormed := by
  have habs := slotOf_eq_none_iff.mp ha
  have hsec : (Cache.setEntry { c with lru := xs } i e).sectors = update c.sectors i (some s) := by
    rw [setEntry_sectors, he]
    rfl
  refine ⟨hsec ▸ hc.distinct.update habs, hsec ▸ hq, fun j => ?_, fun j t hj => ?_, hc.size⟩
  · by_cases h : j = i
    · subst h; simp [hm, hact, hr, hw]
    · simpa [h] using hc.free j
  · rw [hsec] at hj
    by_cases h : j = i
    · subst h
      rw [update_self, some.injEq] at hj
      exact hj ▸ hs
    · rw [update_of_ne h] at hj
      exact hc.inRange j t hj

theorem WellFormed.exists_victim (hc : c.WellFormed) (hf : freeSlot c.sectors = none) :
    ∃ a rest i, c.lru = a :: rest ∧ c.sectorToCache a = some i ∧ c.sectors i = some a := by
  cases hl : c.lru with
  | nil =>
    obtain ⟨t, ht⟩ := ne_none_iff_exists'.mp (ne_none_of_freeSlot hf 0)
    have hm := (hc.queue.mem t).mpr ⟨_, ht⟩
    simp [hl] at hm
  | cons a rest =>
    obtain ⟨i, hi⟩ := (hc.queue.mem a).mp (by simp [hl])
    exact ⟨a, rest, i, rfl, hc.distinct.slotOf_eq hi, hi⟩

/-- The device after the victim in slot `i` has been written back to sector `a`. -/
def diskAfter (c : Cache) (i : Fin CACHE_SIZE) (a : ℕ) : ℕ → Block :=
  if (c.entries i).dirty then update c.disk a (c.entries i).data else c.disk

variable {i : Fin CACHE_SIZE} {a : ℕ} {writing : Bool} {c' : Cache}

theorem diskAfter_of_ne (h : s ≠ a) : c.diskAfter i a s = c.disk s := by
  unfold diskAfter
  split_ifs
  · exact update_of_ne h ..
  · rfl

/-- The three ways to an entry with the sector in it: the sector is there, a slot is free, or the
sector at the front of the queue has to go. -/
inductive Loads (c : Cache) (s : ℕ) (writing : Bool) : Fin CACHE_SIZE → Cache → Prop
  | hit {i : Fin CACHE_SIZE} (h : c.sectorToCache s = some i) : Loads c s writing i c
  | free {i : Fin CACHE_SIZE} (ha : c.sectorToCache s = none)
      (hf : freeSlot c.sectors = some i) : Loads c s writing i
        (Cache.setEntry { c with lru := c.lru ++ [s] } i { c.entries i with
          sector := some s
          data := if writing then (c.entries i).data else c.disk s })
  | evict {i : Fin CACHE_SIZE} {a : ℕ} {rest : List ℕ} (ha : c.sectorToCache s = none)
      (hf : freeSlot c.sectors = none) (hl : c.lru = a :: rest)
      (hslot : c.sectorToCache a = some i) : Loads c s writing i
        (Cache.setEntry { c with lru := rest ++ [s], disk := c.diskAfter i a } i
          { c.entries i with
            sector := some s
            dirty := false
            access := false
            mode := .unlock
            data := if writing then (c.entries i).data else c.disk s })

/-- `lru_update` does nothing for a thread that holds the lock. -/
@[simp] theorem lruUpdate_held (c : Cache) (free : Bool) : c.lruUpdate true free = some c := by
  simp [lruUpdate]

theorem lruEvict_cons (hlen : c.lru.length ≤ CACHE_SIZE) (hl : c.lru = a :: rest)
    (hslot : c.sectorToCache a = some i) :
    c.lruEvict = some (some i, { c with lru := rest }) := by
  rw [lruEvict, if_pos hlen]
  simp [hl, hslot]

theorem lruEvict_eq_some (h : c.lruEvict = some (v, c')) : c' = { c with lru := c.lru.tail } := by
  simp only [lruEvict, ite_none_right_eq_some, lruUpdate_held, bind_eq_bind, bind_some] at h
  obtain ⟨-, h⟩ := h
  split at h
  · next hl =>
      cases h
      rw [show c.lru.tail = c.lru by rw [hl]; rfl]
  · next hl =>
      obtain ⟨j, -, h⟩ := map_eq_some_iff.mp h
      cases h
      simp [hl]

theorem fetch_eq (hs : s < c.size) (writing : Bool) :
    c.fetch i s writing = some (c.setEntry i { c.entries i with
      data := if writing then (c.entries i).data else c.disk s }) := by
  cases writing with
  | true => simp [Cache.fetch, Cache.setEntry]
  | false => simp [Cache.fetch, blockRead, hs]

theorem writeBack_eq (hi : a < c.size) :
    c.writeBack i (some a) = some (Cache.setEntry { c with disk := c.diskAfter i a } i
      { c.entries i with dirty := false, access := false, mode := .unlock }) := by
  by_cases hd : (c.entries i).dirty
  · simp [writeBack, hd, blockWrite, hi, diskAfter]
  · simp [writeBack, hd, diskAfter]

theorem WellFormed.getFreeCache_free (hc : c.WellFormed) (hs : s < c.size)
    (hf : freeSlot c.sectors = some i) (writing : Bool) :
    c.getFreeCache s writing = some (i, Cache.setEntry { c with lru := c.lru ++ [s] } i
      { c.entries i with
        sector := some s
        data := if writing then (c.entries i).data else c.disk s }) := by
  have hlen := hc.queue.length_lt (eq_none_of_freeSlot hf)
  obtain ⟨hm, hact, -, hw⟩ := hc.free i
  let c1 := Cache.setEntry { c with lru := c.lru ++ [s] } i { c.entries i with sector := some s }
  have hclm : c.claimSlot i s = some c1 := by
    simp [claimSlot, lruEnqueue, hm, hact, hw, hlen, c1]
  have hftc := fetch_eq (c := c1) (i := i) hs writing
  simp only [Cache.getFreeCache, hf, hclm, hftc, bind_eq_bind, bind_some]
  simp [c1, Cache.setEntry]

theorem cacheEvict_eq (hl : c.lru = a :: rest) (hlen : c.lru.length ≤ CACHE_SIZE)
    (hslot : c.sectorToCache a = some i) (ha : c.sectorToCache s = none) (writing : Bool) :
    c.cacheEvict s writing =
      ((Cache.setEntry { c with lru := rest ++ [s] } i { c.entries i with
        sector := some s }).writeBack i (c.entries i).sector).bind fun c2 =>
          (c2.fetch i s writing).map (i, ·) := by
  have hpop : sectorToCache { c with lru := rest } s = none := ha
  have hrest : rest.length < CACHE_SIZE := by
    rw [hl, List.length_cons] at hlen
    omega
  unfold cacheEvict
  rw [lruEvict_cons hlen hl hslot]
  simp [hpop, retarget, lruEnqueue, hrest, map_eq_bind]
  rfl

/-- A miss in a full cache. -/
theorem WellFormed.getFreeCache_full (hc : c.WellFormed) (ha : c.sectorToCache s = none)
    (hs : s < c.size) (hf : freeSlot c.sectors = none)
    (hl : c.lru = a :: rest) (hslot : c.sectorToCache a = some i) (writing : Bool) :
    c.getFreeCache s writing = some (i, Cache.setEntry
      { c with lru := rest ++ [s], disk := c.diskAfter i a } i { c.entries i with
        sector := some s
        dirty := false
        access := false
        mode := .unlock
        data := if writing then (c.entries i).data else c.disk s }) := by
  have hi := eq_some_of_slotOf hslot
  have hsa : s ≠ a := by
    rintro rfl
    exact slotOf_eq_none_iff.mp ha i hi
  let c1 := Cache.setEntry { c with lru := rest ++ [s] } i { c.entries i with sector := some s }
  have hback := writeBack_eq (c := c1) (i := i) (hc.inRange i a hi)
  have hdisk : c1.diskAfter i a = c.diskAfter i a := by simp [diskAfter, c1]
  have hevc := cacheEvict_eq hl hc.queue.length_le hslot ha writing
  have hftc := fetch_eq (c := Cache.setEntry { c1 with disk := c1.diskAfter i a } i
    { c1.entries i with dirty := false, access := false, mode := .unlock }) (i := i) hs writing
  rw [show (c.entries i).sector = some a from hi, hback, bind_some, hftc] at hevc
  simp only [Cache.getFreeCache, hf, hevc, hdisk]
  simp [c1, Cache.setEntry, diskAfter_of_ne hsa]

theorem WellFormed.getFreeCache (hc : c.WellFormed) (ha : c.sectorToCache s = none)
    (hs : s < c.size) (writing : Bool) :
    ∃ i c', c.getFreeCache s writing = some (i, c') ∧ Loads c s writing i c' := by
  cases hf : freeSlot c.sectors with
  | some i => exact ⟨i, _, hc.getFreeCache_free hs hf writing, .free ha hf⟩
  | none =>
    obtain ⟨a, rest, i, hl, hslot, -⟩ := hc.exists_victim hf
    exact ⟨i, _, hc.getFreeCache_full ha hs hf hl hslot writing, .evict ha hf hl hslot⟩

theorem WellFormed.findEntry_loads (hc : c.WellFormed) (hs : s < c.size) (writing : Bool) :
    ∃ i c', c.findEntry s writing = some (i, c') ∧ Loads c s writing i c' := by
  unfold Cache.findEntry
  rw [if_pos hc.queue.length_le]
  cases hslot : c.sectorToCache s with
  | some i => exact ⟨i, c, rfl, .hit hslot⟩
  | none => exact hc.getFreeCache hslot hs writing

theorem Loads.obtained
    (h : Loads c s writing i c') (hc : c.WellFormed) (hs : s < c.size) : Obtained c s i c' := by
  cases h with
  | hit h => exact ⟨hc, eq_some_of_slotOf h, rfl⟩
  | free ha hf =>
    obtain ⟨hm, hact, hr, hw⟩ := hc.free i
    exact ⟨hc.occupy ha hs rfl (hc.queue.push (eq_none_of_freeSlot hf)
      (slotOf_eq_none_iff.mp ha)) hm hact hr hw, by simp [sectors], rfl⟩
  | @evict a rest ha hf hl hslot =>
    obtain ⟨-, hact, hr, hw⟩ := hc.free i
    have hcd : WellFormed { c with disk := c.diskAfter i a } :=
      { hc with }
    exact ⟨hcd.occupy ha hs rfl ((hl ▸ hc.queue).replace hc.distinct (eq_some_of_slotOf hslot)
      (slotOf_eq_none_iff.mp ha)) rfl hact hr hw, by simp [sectors], rfl⟩

theorem Loads.data (h : Loads c s writing i c') : (c'.entries i).data =
      if writing ∧ c.sectorToCache s = none then c.leftover else c.image s := by
  cases h with
  | hit h => simp [h, image]
  | free ha hf => simp [ha, image_of_absent ha, leftover, spareSlot, hf]
  | evict ha hf hl hslot => simp [ha, image_of_absent ha, leftover, spareSlot, hf, hl, hslot]

theorem WellFormed.findEntry (hc : c.WellFormed) (hs : s < c.size) (writing : Bool) :
    ∃ i c', c.findEntry s writing = some (i, c') ∧ Obtained c s i c' ∧
      (c'.entries i).data =
        if writing ∧ c.sectorToCache s = none then c.leftover else c.image s := by
  obtain ⟨i, c', hfind, hl⟩ := hc.findEntry_loads hs writing
  exact ⟨i, c', hfind, hl.obtained hc hs, hl.data⟩

/-! ### Reading and writing -/

section
variable (hc : c.WellFormed) (hs : s < c.size)
include hc hs

theorem WellFormed.ne_empty : s ≠ 2 ^ 32 - 1 := by
  have := hc.size
  omega

/-- The rest of `cache_read`, once it has its entry: nobody is in the monitor. -/
theorem WellFormed.access_read {size offset : ℕ}
    (hb : size + offset ≤ BLOCK_SECTOR_SIZE)
    (hfind : c.findEntry s false = some (i, c1)) (hc1 : c1.WellFormed) :
    c.access (.read s size offset) =
      some ((List.range size).map fun j => (c1.entries i).data (offset + j),
        (c1.setEntry i { c1.entries i with access := true }).lineUp s) := by
  obtain ⟨hm, hact, -, hw⟩ := hc1.free i
  have hv : (Access.read s size offset).valid = true := decide_eq_true ⟨hc.ne_empty hs, hb⟩
  simp [Cache.access, hv, Access.sector, Access.writing, hfind, CacheEntry.enter,
    CacheEntry.work, CacheEntry.readerLeave, hm, hact, hw]

/-- The rest of `cache_write`. -/
theorem WellFormed.access_write (hb : buf.length + offset ≤ BLOCK_SECTOR_SIZE)
    (hfind : c.findEntry s true = some (i, c1)) (hc1 : c1.WellFormed) :
    c.access (.write s buf offset) = some ([], (c1.setEntry i { c1.entries i with
      data := overwrite (c1.entries i).data offset buf
      access := true
      dirty := true
      mode := .unlock }).lineUp s) := by
  obtain ⟨hm, hact, hr, hw⟩ := hc1.free i
  have hv : (Access.write s buf offset).valid = true := decide_eq_true ⟨hc.ne_empty hs, hb⟩
  simp [Cache.access, hv, Access.sector, Access.writing, hfind, CacheEntry.enter,
    CacheEntry.work, CacheEntry.writerLeave, hm, hact, hr, hw]

/-- `cache_read` returns the bytes of the sector and leaves them in the cache. -/
theorem WellFormed.cacheRead {size offset : ℕ}
    (hb : size + offset ≤ BLOCK_SECTOR_SIZE) :
    ∃ c', c.cacheRead s size offset =
        some ((List.range size).map fun j => c.image s (offset + j), c') ∧
      c'.WellFormed ∧ c'.size = c.size := by
  obtain ⟨i, c1, hfind, hob, hdata⟩ := hc.findEntry hs false
  obtain ⟨hm, hact, hr, hw⟩ := hob.wellFormed.free i
  have hdata' : (c1.entries i).data = c.image s := by simpa using hdata
  refine ⟨_, ?_, WellFormed.lineUp (hob.wellFormed.setEntry (i := i) (e := { c1.entries i with
    access := true }) rfl hm hact hr hw) s, hob.size⟩
  unfold Cache.cacheRead
  rw [hc.access_read hs hb hfind hob.wellFormed, hdata']

/-- `cache_write` puts the bytes over what the entry has, which on a miss is not the sector. -/
theorem WellFormed.cacheWrite {buf : List UInt8}
    (hb : buf.length + offset ≤ BLOCK_SECTOR_SIZE) :
    ∃ c', c.cacheWrite s buf offset = some c' ∧ c'.WellFormed ∧ c'.size = c.size ∧
      c'.image s =
        overwrite (if c.sectorToCache s = none then c.leftover else c.image s) offset buf := by
  obtain ⟨i, c1, hfind, hob, hdata⟩ := hc.findEntry hs true
  obtain ⟨-, hact, hr, hw⟩ := hob.wellFormed.free i
  let e := { c1.entries i with
    data := overwrite (c1.entries i).data offset buf, access := true, dirty := true
    mode := .unlock }
  have hwf := WellFormed.lineUp (hob.wellFormed.setEntry (e := e) rfl rfl hact hr hw) s
  have hi : ((c1.setEntry i e).lineUp s).sectors i = some s := by
    have : (c1.entries i).sector = some s := hob.sector
    simp [sectors, Cache.lineUp, e, this]
  refine ⟨(c1.setEntry i e).lineUp s, ?_, hwf, hob.size, ?_⟩
  · unfold Cache.cacheWrite
    rw [hc.access_write hs hb hfind hob.wellFormed]
    rfl
  · rw [hwf.image_of_sectors hi]
    simp [Cache.lineUp, e, hdata]

end

/-- A partial write keeps the rest of the sector: afterwards a reader of the whole sector gets
the written bytes, and elsewhere what a reader would have got before. -/
def PreservesRest (c : Cache) (s : ℕ) (buf : List UInt8) (offset : ℕ) : Prop :=
  ∃ old new c₀ c₁ c₂,
    c.cacheRead s BLOCK_SECTOR_SIZE 0 = some (old, c₀) ∧
    c.cacheWrite s buf offset = some c₁ ∧
    c₁.cacheRead s BLOCK_SECTOR_SIZE 0 = some (new, c₂) ∧
    ∀ j < BLOCK_SECTOR_SIZE, new[j]? =
      if offset ≤ j ∧ j < offset + buf.length then buf[j - offset]? else old[j]?

theorem getElem?_readAll (b : Block) (hj : j < BLOCK_SECTOR_SIZE) :
    ((List.range BLOCK_SECTOR_SIZE).map fun j => b (0 + j))[j]? = some (b j) := by
  simp [hj]

/-- Both reads and the write are defined; the law is about two blocks of bytes. -/
theorem WellFormed.preservesRest_iff_bytes (hc : c.WellFormed) (hs : s < c.size)
    {buf : List UInt8} (hb : buf.length + offset ≤ BLOCK_SECTOR_SIZE) :
    c.PreservesRest s buf offset ↔ ∀ j < BLOCK_SECTOR_SIZE,
      ¬ (offset ≤ j ∧ j < offset + buf.length) →
        (if c.sectorToCache s = none then c.leftover else c.image s) j = c.image s j := by
  have hall : BLOCK_SECTOR_SIZE + 0 ≤ BLOCK_SECTOR_SIZE := le_rfl
  obtain ⟨c0, hold, -⟩ := hc.cacheRead hs hall
  obtain ⟨c1, hwrt, hc1, hsize, himg⟩ := hc.cacheWrite hs hb
  obtain ⟨c2, hnew, -⟩ := hc1.cacheRead (hsize ▸ hs) hall
  constructor
  · rintro ⟨old, new, d0, d1, d2, hold', hwrt', hnew', h⟩ j hj hout
    rw [hold] at hold'
    rw [hwrt] at hwrt'
    obtain ⟨rfl, -⟩ := Prod.mk.inj (some.inj hold')
    cases hwrt'
    rw [hnew] at hnew'
    obtain ⟨rfl, -⟩ := Prod.mk.inj (some.inj hnew')
    have hbyte := h j hj
    rw [getElem?_readAll _ hj, getElem?_readAll _ hj, if_neg hout, some.injEq, himg] at hbyte
    rw [← hbyte, overwrite_of_outside (by omega)]
  · intro h
    refine ⟨_, _, c0, c1, c2, hold, hwrt, hnew, fun j hj => ?_⟩
    rw [getElem?_readAll _ hj, getElem?_readAll _ hj, himg]
    by_cases hin : offset ≤ j ∧ j < offset + buf.length
    · have hlt : j - offset < buf.length := by omega
      rw [if_pos hin, overwrite_of_inside hin.1 hin.2, List.getD_eq_getElem _ _ hlt,
        List.getElem?_eq_getElem hlt]
    · rw [if_neg hin, overwrite_of_outside (by omega), h j hj hin]

/-- **Partial cache writes.**  The rest of the sector is kept exactly when the sector is in the
cache, or the slot that it gets happens to hold its bytes outside the written range. -/
theorem preservesRest_iff (c : Cache) (hc : c.WellFormed) (s : ℕ) (hs : s < c.size)
    (buf : List UInt8) (offset : ℕ) (hb : offset + buf.length ≤ BLOCK_SECTOR_SIZE) :
    c.PreservesRest s buf offset ↔
      (∃ i, c.sectors i = some s) ∨ ∀ j < BLOCK_SECTOR_SIZE,
        ¬ (offset ≤ j ∧ j < offset + buf.length) → c.leftover j = c.disk s j := by
  rw [hc.preservesRest_iff_bytes hs (by omega)]
  cases hslot : c.sectorToCache s with
  | some i =>
    have hi := eq_some_of_slotOf hslot
    simp only [reduceCtorEq, if_false, implies_true, true_iff]
    exact .inl ⟨i, hi⟩
  | none =>
    have habs : ¬ ∃ i, c.sectors i = some s := fun ⟨i, hi⟩ => slotOf_eq_none_iff.mp hslot i hi
    simp only [if_true, image_of_absent hslot, habs, false_or]

/-- On a device of zeros the first write finds a slot of zeros. -/
theorem preservesRest_iff_zeros : (cacheInit 16 fun _ _ => 0).PreservesRest 5 [1, 2] 3 :=
  (preservesRest_iff _ (wellFormed_cacheInit (by decide) _) 5 (by decide) [1, 2] 3
    (by decide)).mpr (.inr fun j _ _ => by
      cases (cacheInit 16 fun _ _ => 0).spareSlot <;> rfl)

/-- On any other device it does not: one byte written to a sector of sevens that is not in the
cache turns the rest of the sector into zeros. -/
theorem not_preservesRest_of_sevens : ¬ (cacheInit 16 fun _ _ => 7).PreservesRest 5 [1] 0 := by
  have hc : (cacheInit 16 fun _ _ => 7).WellFormed := wellFormed_cacheInit (by decide) _
  rw [hc.preservesRest_iff_bytes (by decide) (by decide)]
  intro h
  have hbyte := h 1 (by decide) (by decide)
  exact absurd hbyte (by decide)

end Cache

end Pintos
