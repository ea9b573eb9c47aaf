import Pintos.Filesys.Layout

/-! # The buffer cache is a flat array of sectors

Complete operations of `cache.c`, one after the other, compared with the array of sectors that the
inode layer works on (`Disk`).

* **Operations.**  `cache_read` and `cache_write`, one pass of `write_behind` or of `read_ahead`, and
  `flush_cache`.
* **Mirror.**  `Mirrors c d K`: for the sectors in `K`, the entries of the cache hold the bytes of
  `d`, and so does the device for each of them that has no dirty entry.
* **Read-ahead.**  `read_ahead` looks up the sector that is queued at a position of the ring, but
  loads the sector whose number is the position.  `AheadInOrder` says when this goes well. -/

namespace Pintos
open Bytes Slots Runs Function Option List Cache

/-- A complete operation of the cache. -/
inductive CacheOp where
  | access (a : Access)
  | writeBehind
  | flush
  | readAhead
deriving DecidableEq, Repr

namespace CacheOp

/-- The operation reads a part of a sector of the device, or writes one whole. -/
def inRange (size : ℕ) : CacheOp → Bool
  | access (.read s n offset) => s < size ∧ n + offset ≤ BLOCK_SECTOR_SIZE
  | access (.write s buf offset) => s < size ∧ buf.length = BLOCK_SECTOR_SIZE ∧ offset = 0
  | _ => true

def isReadAhead : CacheOp → Bool
  | readAhead => true
  | _ => false

end CacheOp

namespace Cache

/-! ### The operations of the two kernel threads and of `filesys_done` -/

/-- Write a dirty entry to the device. -/
def writeOut (c : Cache) (i : Fin CACHE_SIZE) : Option Cache := do
  let s ← (c.entries i).sector
  let c ← c.blockWrite s (c.entries i).data
  some (c.setEntry i { c.entries i with dirty := false })

/-- The body of the loop of `write_behind`. -/
def writeBehindEntry (c : Cache) (i : Fin CACHE_SIZE) : Option Cache :=
  if (c.entries i).dirty then c.writeOut i else some c

/-- One pass of `write_behind`. -/
def writeBehind (c : Cache) : Option Cache := (List.finRange CACHE_SIZE).foldlM writeBehindEntry c

/-- The body of the loop of `flush_cache`. -/
def flushEntry (c : Cache) (i : Fin CACHE_SIZE) : Option Cache :=
  if (c.entries i).sector = none then some c
  else if (c.entries i).dirty then c.writeOut i
  else some c

/-- `flush_cache`. -/
def flushCache (c : Cache) : Option Cache := (List.finRange CACHE_SIZE).foldlM flushEntry c

/-- `sector_to_cache` of an element of `read_ahead_buffer`, which may be `CACHE_SECTOR_EMPTY`. -/
def bufferedSlot (c : Cache) (i : Fin CACHE_SIZE) : Option (Fin CACHE_SIZE) :=
  match c.readAheadBuffer i with
  | some s => c.sectorToCache s
  | none => freeSlot c.sectors

/-- The body of the loop of `read_ahead`.  Note that it is the index that is loaded. -/
def readAheadAt (c : Cache) (i : Fin CACHE_SIZE) : Option Cache :=
  match c.bufferedSlot i with
  | some _ => some c
  | none => if c.lru.length ≤ CACHE_SIZE then (c.getFreeCache i false).map Prod.snd else none

/-- The next position of the ring. -/
def ringNext (i : Fin CACHE_SIZE) : Fin CACHE_SIZE :=
  ⟨(i + 1) % CACHE_SIZE, Nat.mod_lt _ (by decide)⟩

/-- The loop of `read_ahead`, and the assignment after it. -/
def readAheadLoop : (fuel : ℕ) → Cache → Fin CACHE_SIZE → Option Cache
  | 0, _, _ => none
  | fuel + 1, c, i =>
    if i = c.readAheadTail then some { c with readAheadHead := c.readAheadTail }
    else (c.readAheadAt i).bind fun c => readAheadLoop fuel c (ringNext i)

/-- One pass of `read_ahead`.  Its loop visits each position of the ring at most once. -/
def readAhead (c : Cache) : Option Cache :=
  if c.lru.length ≤ CACHE_SIZE then readAheadLoop (CACHE_SIZE + 1) c c.readAheadHead else none

/-- One operation, with what it returns. -/
def perform (c : Cache) : CacheOp → Option (List (List UInt8) × Cache)
  | .access a => (c.access a).map fun (bytes, c) => ([bytes], c)
  | .writeBehind => c.writeBehind.map ([], ·)
  | .flush => c.flushCache.map ([], ·)
  | .readAhead => c.readAhead.map ([], ·)

/-- The sectors in the cache, in the order of the table. -/
def resident (c : Cache) : List ℕ := (List.finRange CACHE_SIZE).filterMap c.sectors

end Cache

namespace Disk

/-- `cache_read` and `cache_write` on the array. -/
def access (d : Disk) : Access → Option (List UInt8 × Disk)
  | .read s size offset => (d.cacheRead s size offset).map (·, d)
  | .write s buf offset => (d.cacheWrite s buf offset).map ([], ·)

/-- The array has no background operations. -/
def perform (d : Disk) : CacheOp → Option (List (List UInt8) × Disk)
  | .access a => (d.access a).map fun (bytes, d) => ([bytes], d)
  | _ => some ([], d)

end Disk

namespace Cache

/-! ### The mirror -/

/-- The cache and its device hold the sectors of `d`, as far as they are in `K`. -/
structure Mirrors (c : Cache) (d : Disk) (K : ℕ → Prop) : Prop extends WellFormed c where
  diskSize : d.size = c.size
  data : ∀ i s, c.sectors i = some s → K s → ∀ j < BLOCK_SECTOR_SIZE,
    (c.entries i).data j = d.block s j
  disk : ∀ s, K s → (∀ i, c.sectors i = some s → (c.entries i).dirty = false) →
    ∀ j < BLOCK_SECTOR_SIZE, c.disk s j = d.block s j
  empty : ∀ i, c.sectors i = none → (c.entries i).dirty = false
  ahead : ∀ i s, c.readAheadBuffer i = some s → s < c.size

variable {c c' : Cache} {d d' : Disk} {K : ℕ → Prop} {s : ℕ} {i : Fin CACHE_SIZE}

/-- All sectors are in order. -/
abbrev MirrorsAll (c : Cache) (d : Disk) : Prop := c.Mirrors d fun _ => True

theorem mirrors_cacheInit {size : ℕ} (h : size < 2 ^ 32) (disk : ℕ → Block) :
    (cacheInit size disk).MirrorsAll ⟨size, disk⟩ where
  toWellFormed := wellFormed_cacheInit h disk
  diskSize := rfl
  data := by simp [sectors, cacheInit, CacheEntry.init]
  disk := fun _ _ _ _ _ => rfl
  empty := fun _ _ => rfl
  ahead := by simp [cacheInit]

theorem Mirrors.mono {K' : ℕ → Prop} (h : c.Mirrors d K) (hK : ∀ s, K' s → K s) : c.Mirrors d K' :=
  { h with
    data := fun i s hi hs => h.data i s hi (hK s hs)
    disk := fun s hs => h.disk s (hK s hs) }

variable {writing : Bool} {op : CacheOp} {ops : List CacheOp}

/-- Bringing a sector in: the others stay in order, and so does it unless it is to be written. -/
theorem Loads.mirrors (h : Loads c s writing i c') (hm : c.MirrorsAll d)
    (hs : s < c.size) : c'.Mirrors d fun t => t = s → writing = false := by
  have hwf := (h.obtained hm.toWellFormed hs).wellFormed
  cases h with
  | hit h => exact hm.mono fun _ _ => trivial
  | free ha hf =>
    have hnone := eq_none_of_freeSlot hf
    have habs := slotOf_eq_none_iff.mp ha
    refine ⟨hwf, hm.diskSize, fun k t hk hK j hj => ?_, fun t hK hcln j hj => ?_, fun k hk => ?_,
      hm.ahead⟩
    · by_cases e : k = i
      · subst e
        cases by simpa [sectors] using hk
        simpa [hK rfl] using hm.disk s trivial (fun k hk => absurd hk (habs k)) j hj
      · simpa [e] using hm.data k t (by simpa [sectors, e] using hk) trivial j hj
    · refine hm.disk t trivial (fun k hk => ?_) j hj
      have e : k ≠ i := by
        rintro rfl
        simp [hnone] at hk
      simpa [e] using hcln k (by simpa [sectors, e] using hk)
    · have e : k ≠ i := by
        rintro rfl
        simp [sectors] at hk
      simpa [e] using hm.empty k (by simpa [sectors, e] using hk)
  | @evict a rest ha hf hl hslot =>
    have hi := eq_some_of_slotOf hslot
    have habs := slotOf_eq_none_iff.mp ha
    refine ⟨hwf, hm.diskSize, fun k t hk hK j hj => ?_, fun t hK hcln j hj => ?_, fun k hk => ?_,
      hm.ahead⟩
    · by_cases e : k = i
      · subst e
        cases by simpa [sectors] using hk
        simpa [hK rfl] using hm.disk s trivial (fun k hk => absurd hk (habs k)) j hj
      · simpa [e] using hm.data k t (by simpa [sectors, e] using hk) trivial j hj
    · show c.diskAfter i a t j = _
      have hote : ∀ k, k ≠ i → c.sectors k = some t → (c.entries k).dirty = false :=
        fun k e hk => by simpa [e] using hcln k (by simpa [sectors, e] using hk)
      by_cases ht : t = a
      · subst ht
        unfold diskAfter
        split_ifs with hd
        · rw [update_self]
          exact hm.data i t hi trivial j hj
        · refine hm.disk t trivial (fun k hk => ?_) j hj
          rw [hm.distinct k i t hk hi]
          simpa using hd
      · rw [diskAfter_of_ne ht]
        refine hm.disk t trivial (fun k hk => hote k ?_ hk) j hj
        rintro rfl
        exact ht (mem_unique hk hi)
    · have e : k ≠ i := by
        rintro rfl
        simp [sectors] at hk
      simpa [e] using hm.empty k (by simpa [sectors, e] using hk)

theorem Mirrors.lineUp (h : c.Mirrors d K) (hs : s < c.size) : (c.lineUp s).Mirrors d K where
  toWellFormed := h.toWellFormed.lineUp s
  diskSize := h.diskSize
  data := h.data
  disk := h.disk
  empty := h.empty
  ahead := by
    intro k t hk
    unfold Cache.lineUp at hk
    dsimp only at hk
    by_cases e : k = c.readAheadTail
    · subst e
      rw [update_self, some.injEq] at hk
      exact hk ▸ Nat.mod_lt _ (by omega)
    · rw [update_of_ne e] at hk
      exact h.ahead k t hk

/-- An entry that holds its sector as it should, and as the device does unless it is dirty. -/
theorem Mirrors.setEntry (h : c.Mirrors d fun t => t ≠ s)
    (hi : c.sectors i = some s) (hs : e.sector = some s) (hm : e.mode = .unlock)
    (ha : e.readerActive = 0) (hr : e.readerWaiting = 0) (hw : e.writerWaiting = 0)
    (hdata : ∀ j < BLOCK_SECTOR_SIZE, e.data j = d.block s j)
    (hdisk : e.dirty = false → ∀ j < BLOCK_SECTOR_SIZE, c.disk s j = d.block s j) :
    (c.setEntry i e).MirrorsAll d := by
  have hsec : (c.setEntry i e).sectors = c.sectors := by
    rw [setEntry_sectors, hs, ← hi, update_eq_self]
  refine ⟨h.toWellFormed.setEntry (hs.trans hi.symm) hm ha hr hw, h.diskSize, fun k t hk _ j hj => ?_,
    fun t _ hcln j hj => ?_, fun k hk => ?_, h.ahead⟩
  · rw [hsec] at hk
    by_cases e' : k = i
    · subst e'
      cases mem_unique hi hk
      simpa using hdata j hj
    · have ht : t ≠ s := fun ht => e' (h.distinct k i s (ht ▸ hk) hi)
      simpa [e'] using h.data k t hk ht j hj
  · by_cases ht : t = s
    · subst ht
      exact hdisk (by simpa using hcln i (hsec ▸ hi)) j hj
    · refine h.disk t ht (fun k hk => ?_) j hj
      have e' : k ≠ i := by
        rintro rfl
        exact ht (mem_unique hk hi)
      simpa [e'] using hcln k (hsec ▸ hk)
  · rw [hsec] at hk
    have e' : k ≠ i := by
      rintro rfl
      simp [hi] at hk
    simpa [e'] using h.empty k hk

/-! ### Reads and writes -/

theorem Mirrors.access_read (h : c.MirrorsAll d) (hs : s < c.size) {size offset : ℕ}
    (hb : size + offset ≤ BLOCK_SECTOR_SIZE) :
    ∃ c', c.access (.read s size offset) = some (slice (d.block s) offset size, c') ∧
      c'.MirrorsAll d := by
  obtain ⟨i, c1, hfind, hl⟩ := h.findEntry_loads hs false
  have hob := hl.obtained h.toWellFormed hs
  have hm : c1.MirrorsAll d := (hl.mirrors h hs).mono fun _ _ _ => rfl
  obtain ⟨hmode, hact, hr, hw⟩ := hm.free i
  have hdata := hm.data i s hob.sector trivial
  refine ⟨_, ?_, Mirrors.lineUp (Mirrors.setEntry (hm.mono fun _ _ => trivial) hob.sector
    (show CacheEntry.sector { c1.entries i with access := true } = some s from hob.sector)
    hmode hact hr hw hdata fun hcln => ?_) (hob.size ▸ hs)⟩
  · rw [h.toWellFormed.access_read hs hb hfind hob.wellFormed, slice_eq_map]
    refine congrArg (fun bytes => some (bytes, _)) (map_congr_left fun j hj => ?_)
    exact hdata _ (by have := mem_range.mp hj; omega)
  · refine hm.disk s trivial fun k hk => ?_
    rw [hm.distinct k i s hk hob.sector]
    exact hcln

/-- A write of a whole sector, or of a part of one that is in the cache.  If all entries are clean,
none is written out. -/
theorem Mirrors.access_write (h : c.MirrorsAll d) (hs : s < c.size)
    (hb : buf.length + offset ≤ BLOCK_SECTOR_SIZE)
    (hin : buf.length = BLOCK_SECTOR_SIZE ∨ c.sectorToCache s ≠ none) :
    ∃ c', c.access (.write s buf offset) = some ([], c') ∧ c'.MirrorsAll (d.put s buf offset) ∧
      ((∀ k, (c.entries k).dirty = false) → c'.disk = c.disk) := by
  obtain ⟨i, c1, hfind, hl⟩ := h.findEntry_loads hs true
  have hob := hl.obtained h.toWellFormed hs
  have hm := hl.mirrors h hs
  obtain ⟨hmode, hact, hr, hw⟩ := hm.free i
  -- the bytes that are not written are those of the array already
  have hold : ∀ j < BLOCK_SECTOR_SIZE, j < offset ∨ offset + buf.length ≤ j →
      (c1.entries i).data j = d.block s j := by
    intro j hj hout
    have hhit := hin.resolve_left (by omega)
    cases hl with
    | hit hi => exact h.data i s (eq_some_of_slotOf hi) trivial j hj
    | free ha | evict ha => exact absurd ha hhit
  -- the other sectors are those of the array before the write
  have hput : c1.Mirrors (d.put s buf offset) fun t => t ≠ s := by
    refine ⟨hm.toWellFormed, hm.diskSize, fun k t hk ht j hj => ?_, fun t ht hcln j hj => ?_,
      hm.empty, hm.ahead⟩
    · rw [Disk.put_block_of_ne ht]
      exact hm.data k t hk (fun e => absurd e ht) j hj
    · rw [Disk.put_block_of_ne ht]
      exact hm.disk t (fun e => absurd e ht) hcln j hj
  refine ⟨_, h.toWellFormed.access_write hs hb hfind hob.wellFormed,
    Mirrors.lineUp (hput.setEntry hob.sector hob.sector rfl hact hr hw (fun j hj => ?_)
      fun hcln => ?_) (hob.size ▸ hs), fun hcln => ?_⟩
  · show overwrite (c1.entries i).data offset buf j = _
    rw [Disk.put_block_self]
    by_cases hout : j < offset ∨ offset + buf.length ≤ j
    · rw [overwrite_of_outside hout, overwrite_of_outside hout, hold j hj hout]
    · rw [overwrite_of_inside (by omega) (by omega), overwrite_of_inside (by omega) (by omega)]
  · cases hcln
  · show c1.disk = c.disk
    cases hl with
    | hit | free => rfl
    | evict =>
      show c.diskAfter i _ = _
      simp [diskAfter, hcln]

/-! ### Writing out -/

/-- Writing an entry out changes the device only, and makes the entry clean. -/
theorem Mirrors.writeOut (h : c.MirrorsAll d) (hi : c.sectors i = some s) :
    ∃ c', c.writeOut i = some c' ∧ c'.MirrorsAll d ∧
      ∀ k, k = i ∨ (c.entries k).dirty = false → (c'.entries k).dirty = false := by
  have hs : s < c.size := h.inRange i s hi
  obtain ⟨hmode, hact, hr, hw⟩ := h.free i
  have hwrt : c.writeOut i = some (Cache.setEntry
      { c with disk := update c.disk s (c.entries i).data } i
      { c.entries i with dirty := false }) := by
    have hsec : (c.entries i).sector = some s := hi
    simp [Cache.writeOut, hsec, blockWrite, hs]
  have hoth : Mirrors { c with disk := update c.disk s (c.entries i).data } d fun t => t ≠ s := by
    refine ⟨{ h.toWellFormed with }, h.diskSize,
      fun k t hk _ => h.data k t hk trivial, fun t ht hcln j hj => ?_, h.empty, h.ahead⟩
    show update c.disk s _ t j = _
    rw [update_of_ne ht]
    exact h.disk t trivial hcln j hj
  refine ⟨_, hwrt, hoth.setEntry hi hi hmode hact hr hw (h.data i s hi trivial) fun _ j hj => ?_,
    fun k hk => ?_⟩
  · show update c.disk s _ s j = _
    rw [update_self]
    exact h.data i s hi trivial j hj
  · by_cases e : k = i
    · subst e; simp
    · simpa [e] using hk

theorem Mirrors.foldlM (hbody : ∀ c i, c.MirrorsAll d → ∃ c', body c i = some c' ∧ c'.MirrorsAll d ∧
      ∀ k, k = i ∨ (c.entries k).dirty = false → (c'.entries k).dirty = false)
    (h : c.MirrorsAll d) (is : List (Fin CACHE_SIZE)) :
    ∃ c', is.foldlM body c = some c' ∧ c'.MirrorsAll d ∧
      ∀ k, k ∈ is ∨ (c.entries k).dirty = false → (c'.entries k).dirty = false := by
  induction is generalizing c with
  | nil => exact ⟨c, rfl, h, by simp⟩
  | cons i is ih =>
    obtain ⟨c1, h1, hm1, hk1⟩ := hbody c i h
    obtain ⟨c', h', hm', hk'⟩ := ih hm1
    refine ⟨c', by simp [h1, h'], hm', fun k hk => hk' k ?_⟩
    obtain (rfl | hk) | hk := hk.imp_left mem_cons.mp
    · exact .inr (hk1 k (.inl rfl))
    · exact .inl hk
    · exact .inr (hk1 k (.inr hk))

theorem Mirrors.writeBehindEntry (h : c.MirrorsAll d) (i : Fin CACHE_SIZE) :
    ∃ c', c.writeBehindEntry i = some c' ∧ c'.MirrorsAll d ∧
      ∀ k, k = i ∨ (c.entries k).dirty = false → (c'.entries k).dirty = false := by
  unfold Cache.writeBehindEntry
  split_ifs with hd
  · obtain ⟨s, hs⟩ : ∃ s, c.sectors i = some s := by
      cases hsec : c.sectors i with
      | some s => exact ⟨s, rfl⟩
      | none => simp [h.empty i hsec] at hd
    exact h.writeOut hs
  · exact ⟨c, rfl, h, by simpa using hd⟩

theorem Mirrors.flushEntry (h : c.MirrorsAll d) (i : Fin CACHE_SIZE) :
    ∃ c', c.flushEntry i = some c' ∧ c'.MirrorsAll d ∧
      ∀ k, k = i ∨ (c.entries k).dirty = false → (c'.entries k).dirty = false := by
  unfold Cache.flushEntry
  split_ifs with hemp hd
  · exact ⟨c, rfl, h, by simpa using h.empty i hemp⟩
  · obtain ⟨s, hs⟩ := ne_none_iff_exists'.mp hemp
    exact h.writeOut hs
  · exact ⟨c, rfl, h, by simpa using hd⟩

theorem Mirrors.writeBehind (h : c.MirrorsAll d) :
    ∃ c', c.writeBehind = some c' ∧ c'.MirrorsAll d := by
  obtain ⟨c', h', hm, -⟩ := h.foldlM (fun c i h => h.writeBehindEntry i) (finRange CACHE_SIZE)
  exact ⟨c', h', hm⟩

theorem Mirrors.flushCache (h : c.MirrorsAll d) :
    ∃ c', c.flushCache = some c' ∧ c'.MirrorsAll d ∧ (∀ k, (c'.entries k).dirty = false) ∧
      ∀ s, ∀ j < BLOCK_SECTOR_SIZE, c'.disk s j = d.block s j := by
  obtain ⟨c', h', hm, hcln⟩ := h.foldlM (fun c i h => h.flushEntry i) (finRange CACHE_SIZE)
  have hall := fun k => hcln k (.inl (mem_finRange k))
  exact ⟨c', h', hm, hall, fun s => hm.disk s trivial fun k _ => hall k⟩

/-! ### Reading ahead -/

/-- The sector is queued: it stands between the head and the tail of the ring. -/
def Queued (c : Cache) (s : ℕ) : Prop :=
  ∃ k, k - c.readAheadHead < c.readAheadTail - c.readAheadHead ∧ c.readAheadBuffer k = some s

/-- Position `i` of the ring can be visited: what is queued there is in the cache, or `i` is itself
the number of a queued sector that is not, or `i` is in the cache and no slot is free. -/
def inOrderAt (c : Cache) (i : Fin CACHE_SIZE) : Prop :=
  c.bufferedSlot i ≠ none ∨ (c.Queued i ∧ c.sectorToCache i = none) ∨
    (c.sectorToCache i ≠ none ∧ freeSlot c.sectors = none)

/-- From one position of the ring to the next. -/
def aheadStep (p : Cache × Fin CACHE_SIZE) (_ : Unit) : Option (Cache × Fin CACHE_SIZE) :=
  if p.2 = p.1.readAheadTail then none else (p.1.readAheadAt p.2).map (·, ringNext p.2)

/-- A pass that starts in `c` comes to position `i` in the state `c₁`. -/
def Visits (c c₁ : Cache) (i : Fin CACHE_SIZE) : Prop :=
  Reaches aheadStep (fun _ _ => True) (c, c.readAheadHead) (c₁, i) ∧ i ≠ c₁.readAheadTail

/-- All positions that a pass visits are in order when it comes to them. -/
def AheadInOrder (c : Cache) : Prop := ∀ c₁ i, c.Visits c₁ i → c₁.inOrderAt i

/-- What changes from `c` to `c'` is that queued sectors come in that were not there. -/
def OnlyQueued (c c' : Cache) : Prop :=
  ∀ j s, c'.sectors j = some s → c.sectors j ≠ some s → c.Queued s ∧ ∀ k, c.sectors k ≠ some s

/-- A pass brings in queued sectors only, and none that is in the cache already. -/
def BringsQueued (c : Cache) : Prop :=
  ∀ c₁ i c₂, c.Visits c₁ i → c₁.readAheadAt i = some c₂ → c₁.OnlyQueued c₂

/-- The ring is as it was. -/
structure SameRing (c c' : Cache) : Prop where
  buffer : c'.readAheadBuffer = c.readAheadBuffer
  head : c'.readAheadHead = c.readAheadHead
  tail : c'.readAheadTail = c.readAheadTail

theorem Loads.onlyQueued (h : Loads c s writing i c')
    (hq : c.sectorToCache s = none → c.Queued s) : c.OnlyQueued c' := by
  have hnew : ∀ j t, update c.sectors i (some s) j = some t → c.sectors j ≠ some t → t = s := by
    intro j t hj hne
    by_cases e : j = i
    · subst e
      rw [update_self, some.injEq] at hj
      exact hj.symm
    · rw [update_of_ne e] at hj
      exact absurd hj hne
  cases h with
  | hit h => exact fun j t hj hne => absurd hj hne
  | free ha | evict ha =>
    intro j t hj hne
    rw [setEntry_sectors] at hj
    cases hnew j t hj hne
    exact ⟨hq ha, slotOf_eq_none_iff.mp ha⟩

theorem Loads.sameRing (h : Loads c s writing i c') : c.SameRing c' := by
  cases h <;> exact ⟨rfl, rfl, rfl⟩

/-- `cache_evict` when the sector is in the cache: the victim goes back to the end of the queue. -/
theorem WellFormed.getFreeCache_loaded (hc : c.WellFormed)
    (hj : c.sectorToCache s = some j) (hf : freeSlot c.sectors = none) (writing : Bool) :
    ∃ a rest, c.lru = a :: rest ∧
      c.getFreeCache s writing = some (j, { c with lru := rest ++ [a] }) := by
  obtain ⟨a, rest, i, hl, hslot, hi⟩ := hc.exists_victim hf
  have hlen := hc.queue.length_le
  have hevc := lruEvict_cons hlen hl hslot
  have hrest : rest.length < CACHE_SIZE := by
    rw [hl, length_cons] at hlen
    omega
  have hpop : sectorToCache { c with lru := rest } s = some j := hj
  have hsec : (c.entries i).sector = some a := hi
  refine ⟨a, rest, hl, ?_⟩
  simp [Cache.getFreeCache, hf, cacheEvict, hevc, hpop, hsec, lruEnqueue, hrest]

theorem Queued.lt_size (h : c.MirrorsAll d) (hq : c.Queued s) : s < c.size := by
  obtain ⟨k, -, hk⟩ := hq
  exact h.ahead k s hk

/-- One position of the ring. -/
theorem Mirrors.readAheadAt (h : c.MirrorsAll d) (hok : c.inOrderAt i) :
    ∃ c', c.readAheadAt i = some c' ∧ c'.MirrorsAll d ∧ c'.size = c.size ∧ c.SameRing c' ∧
      c.OnlyQueued c' := by
  have hlen := h.queue.length_le
  unfold Cache.readAheadAt
  cases hbuf : c.bufferedSlot i with
  | some j => exact ⟨c, rfl, h, rfl, ⟨rfl, rfl, rfl⟩, fun j t hj hne => absurd hj hne⟩
  | none =>
    simp only [hlen]
    obtain ⟨hq, ha⟩ | ⟨hin, hf⟩ := hok.resolve_left (by simp [hbuf])
    · have hs := Queued.lt_size h hq
      obtain ⟨j, c', hget, hl⟩ := h.toWellFormed.getFreeCache ha hs false
      exact ⟨c', by rw [hget]; rfl, (hl.mirrors h hs).mono fun _ _ _ => rfl,
        (hl.obtained h.toWellFormed hs).size, hl.sameRing, hl.onlyQueued fun _ => hq⟩
    · obtain ⟨j, hj⟩ := ne_none_iff_exists'.mp hin
      obtain ⟨a, rest, hlru, hget⟩ := h.toWellFormed.getFreeCache_loaded hj hf false
      rw [hget]
      refine ⟨_, rfl, ?_, rfl, ⟨rfl, rfl, rfl⟩, fun j t hj hne => absurd hj hne⟩
      exact ⟨⟨h.distinct, (hlru ▸ h.queue).rotate, h.free, h.inRange, h.toWellFormed.size⟩,
        h.diskSize, h.data, h.disk, h.empty, h.ahead⟩

/-- A position whose visit brings in only what it should is in order. -/
theorem WellFormed.inOrderAt_of_onlyQueued (hc : c.WellFormed) (h : c.readAheadAt i = some c')
    (hq : c.OnlyQueued c') : c.inOrderAt i := by
  unfold inOrderAt
  cases hbuf : c.bufferedSlot i with
  | some j => simp
  | none =>
    refine .inr ?_
    simp only [Cache.readAheadAt, hbuf, hc.queue.length_le, if_true, map_eq_some_iff] at h
    obtain ⟨⟨j, c1⟩, hget, rfl⟩ := h
    by_cases hld : c.sectorToCache i ≠ none ∧ freeSlot c.sectors = none
    · exact .inr hld
    · refine .inl ?_
      -- otherwise a slot gets the number of the position, which has to be on the device
      have hslot : ∃ k, c1.sectors k = some i.val ∧ c.sectors k ≠ some i.val := by
        cases hf : freeSlot c.sectors with
        | some k =>
          simp only [Cache.getFreeCache, hf, bind_eq_bind, bind_eq_some_iff,
            some.injEq, Prod.mk.injEq] at hget
          obtain ⟨c2, hclm, c3, hftc, rfl, rfl⟩ := hget
          simp only [claimSlot, lruEnqueue, ite_none_right_eq_some,
            map_eq_some_iff, some.injEq] at hclm
          obtain ⟨-, c4, ⟨-, rfl⟩, rfl⟩ := hclm
          simp only [Cache.fetch, Bool.false_eq_true, if_false, map_eq_some_iff] at hftc
          obtain ⟨b, -, rfl⟩ := hftc
          exact ⟨k, by simp [sectors], by simp [eq_none_of_freeSlot hf]⟩
        | none =>
          have ha : c.sectorToCache i = none := by
            by_contra hne
            exact hld ⟨hne, hf⟩
          obtain ⟨a, rest, k, hl, hk, hka⟩ := hc.exists_victim hf
          rw [Cache.getFreeCache, hf] at hget
          simp only [cacheEvict_eq hl hc.queue.length_le hk ha, bind_eq_some_iff,
            map_eq_some_iff, Prod.mk.injEq] at hget
          obtain ⟨c2, hback, c3, hftc, rfl, rfl⟩ := hget
          have hback' := writeBack_eq (i := k) (a := a) (c := Cache.setEntry
            { c with lru := rest ++ [i.val] } k { c.entries k with sector := some i.val })
            (hc.inRange k a hka)
          rw [show (c.entries k).sector = some a from hka] at hback
          cases mem_unique hback' hback
          simp only [Cache.fetch, Bool.false_eq_true, if_false, map_eq_some_iff] at hftc
          obtain ⟨b, -, rfl⟩ := hftc
          exact ⟨k, by simp [sectors], slotOf_eq_none_iff.mp ha k⟩
      obtain ⟨k, hk, hne⟩ := hslot
      obtain ⟨hque, habs⟩ := hq k i hk hne
      exact ⟨hque, slotOf_eq_none_iff.mpr habs⟩

theorem aheadStep_eq_some : aheadStep (c, i) u = some p ↔
    i ≠ c.readAheadTail ∧ ∃ c', c.readAheadAt i = some c' ∧ p = (c', ringNext i) := by
  simp [aheadStep, eq_comm]

theorem Mirrors.of_reaches (h : c.MirrorsAll d) (hr : Reaches aheadStep (fun _ _ => True) (c, i) p)
    (hok : ∀ c1 k, Reaches aheadStep (fun _ _ => True) (c, i) (c1, k) → k ≠ c1.readAheadTail →
      c1.inOrderAt k) : p.1.MirrorsAll d := by
  induction hr with
  | start => exact h
  | @step s s' u hr _ hs ih =>
    obtain ⟨hne, c', hc', rfl⟩ := aheadStep_eq_some.mp hs
    obtain ⟨c'', hc'', hm, -⟩ := ih.readAheadAt (hok s.1 s.2 hr hne)
    exact mem_unique hc'' hc' ▸ hm

theorem Mirrors.bringsQueued (h : c.MirrorsAll d) (hok : c.AheadInOrder) : c.BringsQueued := by
  intro c1 i c2 hv hstep
  have hm := h.of_reaches hv.1 fun c1 k hr hk => hok c1 k ⟨hr, hk⟩
  obtain ⟨c', hc', -, -, -, hq⟩ := hm.readAheadAt (hok c1 i hv)
  exact mem_unique hc' hstep ▸ hq

/-- Positions from `i` to the tail. -/
def ringLeft (tail i : Fin CACHE_SIZE) : ℕ := (tail + CACHE_SIZE - i) % CACHE_SIZE

theorem Mirrors.readAheadLoop {fuel : ℕ} (h : c.MirrorsAll d)
    (hfuel : ringLeft c.readAheadTail i < fuel)
    (hok : ∀ c1 k, Reaches aheadStep (fun _ _ => True) (c, i) (c1, k) → k ≠ c1.readAheadTail →
      c1.inOrderAt k) : ∃ c', readAheadLoop fuel c i = some c' ∧ c'.MirrorsAll d := by
  induction fuel generalizing c i with
  | zero => omega
  | succ fuel ih =>
    unfold readAheadLoop
    by_cases hi : i = c.readAheadTail
    · rw [if_pos hi]
      exact ⟨_, rfl, { h with }⟩
    · obtain ⟨c1, hc1, hm, -, hring, -⟩ := h.readAheadAt (hok c i .start hi)
      have hstep : Reaches aheadStep (fun _ _ => True) (c, i) (c1, ringNext i) :=
        .step () .start trivial (aheadStep_eq_some.mpr ⟨hi, c1, hc1, rfl⟩)
      have hleft : ringLeft c.readAheadTail (ringNext i) + 1 = ringLeft c.readAheadTail i := by
        simp only [ringLeft, ringNext, CACHE_SIZE] at *
        omega
      rw [if_neg hi, hc1]
      exact ih hm (by rw [hring.tail]; omega) fun c2 k hr hk => hok c2 k (hstep.trans hr) hk

theorem Mirrors.readAhead (h : c.MirrorsAll d) (hok : c.AheadInOrder) :
    ∃ c', c.readAhead = some c' ∧ c'.MirrorsAll d := by
  rw [Cache.readAhead, if_pos h.queue.length_le]
  exact h.readAheadLoop (Nat.lt_succ_of_lt (Nat.mod_lt _ (by decide)))
    fun c1 k hr hk => hok c1 k ⟨hr, hk⟩

/-- A pass that is completed, and brings in only what it should, finds all positions in order. -/
theorem Mirrors.aheadInOrder (h : c.MirrorsAll d) (hrun : c.readAhead = some c')
    (hq : c.BringsQueued) : c.AheadInOrder := by
  rw [Cache.readAhead, if_pos h.queue.length_le] at hrun
  have hbody : ∀ {fuel : ℕ} {c1 : Cache} {k : Fin CACHE_SIZE}, k ≠ c1.readAheadTail →
      Cache.readAheadLoop fuel c1 k = some c' →
      ∃ fuel' c2, c1.readAheadAt k = some c2 ∧
        Cache.readAheadLoop fuel' c2 (ringNext k) = some c' := by
    intro fuel c1 k hk hloop
    cases fuel with
    | zero => cases hloop
    | succ fuel =>
      rw [Cache.readAheadLoop, if_neg hk] at hloop
      obtain ⟨c2, h2, hloop⟩ := bind_eq_some_iff.mp hloop
      exact ⟨fuel, c2, h2, hloop⟩
  -- every position that is visited has the mirror, and the rest of the loop completes from it
  have hall : ∀ p, Reaches aheadStep (fun _ _ => True) (c, c.readAheadHead) p →
      p.1.MirrorsAll d ∧ ∃ fuel, Cache.readAheadLoop fuel p.1 p.2 = some c' := by
    intro p hr
    induction hr with
    | start => exact ⟨h, _, hrun⟩
    | @step s s' u hr _ hs ih =>
      obtain ⟨hm, fuel, hloop⟩ := ih
      obtain ⟨hne, c2, h2, rfl⟩ := aheadStep_eq_some.mp hs
      obtain ⟨fuel', c3, h3, hloop'⟩ := hbody hne hloop
      obtain rfl := mem_unique h3 h2
      have hok := hm.toWellFormed.inOrderAt_of_onlyQueued h2 (hq s.1 s.2 c3 ⟨hr, hne⟩ h2)
      obtain ⟨c4, h4, hm', -⟩ := hm.readAheadAt hok
      exact ⟨mem_unique h4 h2 ▸ hm', fuel', hloop'⟩
  intro c1 i hv
  obtain ⟨hm, fuel, hloop⟩ := hall _ hv.1
  obtain ⟨-, c2, h2, -⟩ := hbody hv.2 hloop
  exact hm.toWellFormed.inOrderAt_of_onlyQueued h2 (hq c1 i c2 hv h2)

/-! ### Runs of operations -/

/-- The operation goes well: it stays on the device, a write of a part of a sector finds the sector
in the cache, and a pass of `read_ahead` is in order. -/
def Safe (c : Cache) (size : ℕ) : CacheOp → Prop
  | .access (.read s n offset) => s < size ∧ n + offset ≤ BLOCK_SECTOR_SIZE
  | .access (.write s buf offset) => s < size ∧ buf.length + offset ≤ BLOCK_SECTOR_SIZE ∧
      (buf.length = BLOCK_SECTOR_SIZE ∨ c.sectorToCache s ≠ none)
  | .readAhead => c.AheadInOrder
  | .writeBehind | .flush => True

theorem safe_of_inRange {size : ℕ} (hop : op.inRange size)
    (hahd : op = .readAhead → c.AheadInOrder) : c.Safe size op := by
  cases op with
  | access a =>
    cases a with
    | read =>
      obtain ⟨hs, hb⟩ := of_decide_eq_true hop
      exact ⟨hs, hb⟩
    | write =>
      obtain ⟨hs, hb, rfl⟩ := of_decide_eq_true hop
      exact ⟨hs, hb.le, .inl hb⟩
  | writeBehind | flush => trivial
  | readAhead => exact hahd rfl

/-- One operation does to the cache what it does to the array. -/
theorem Mirrors.perform (h : c.MirrorsAll d) (hop : c.Safe d.size op) :
    ∃ outs c' d', c.perform op = some (outs, c') ∧ d.perform op = some (outs, d') ∧
      c'.MirrorsAll d' ∧ d'.size = d.size := by
  have hsize := h.diskSize
  cases op with
  | access a =>
    cases a with
    | read s size offset =>
      obtain ⟨hs, hb⟩ := hop
      obtain ⟨c', hacc, hm⟩ := h.access_read (hsize ▸ hs) hb
      refine ⟨[slice (d.block s) offset size], c', d, by simp [perform, hacc], ?_, hm, rfl⟩
      simp [Disk.perform, Disk.access, Disk.cacheRead, hs, hb]
    | write s buf offset =>
      obtain ⟨hs, hb, hin⟩ := hop
      obtain ⟨c', hacc, hm, -⟩ := h.access_write (hsize ▸ hs) hb hin
      refine ⟨[[]], c', d.put s buf offset, by simp [perform, hacc], ?_, hm, rfl⟩
      simp [Disk.perform, Disk.access, Disk.cacheWrite, hs, hb]
  | writeBehind =>
    obtain ⟨c', hc', hm⟩ := h.writeBehind
    exact ⟨[], c', d, by simp [perform, hc'], rfl, hm, rfl⟩
  | flush =>
    obtain ⟨c', hc', hm, -⟩ := h.flushCache
    exact ⟨[], c', d, by simp [perform, hc'], rfl, hm, rfl⟩
  | readAhead =>
    obtain ⟨c', hc', hm⟩ := h.readAhead hop
    exact ⟨[], c', d, by simp [perform, hc'], rfl, hm, rfl⟩

/-- A run of operations, each of which is safe when its turn comes. -/
theorem Mirrors.trace (h : c.MirrorsAll d)
    (hok : ∀ c1 op, Performs Cache.perform c ops c1 op → c1.Safe d.size op) :
    ∃ outs c' d', Runs.trace Cache.perform c ops = some (outs, c') ∧
      Runs.trace Disk.perform d ops = some (outs, d') ∧ c'.MirrorsAll d' := by
  obtain ⟨outs, c', d', hc', hd', hm, -⟩ := trace_simulates
    (R := fun c1 d1 => c1.MirrorsAll d1 ∧ d1.size = d.size)
    (fun c1 d1 op h1 hok => by
      obtain ⟨outs, c', d', hc', hd', hm, hs⟩ := h1.1.perform (h1.2 ▸ hok)
      exact ⟨outs, c', d', hc', hd', hm, hs.trans h1.2⟩)
    ⟨h, rfl⟩ hok
  exact ⟨outs, c', d', hc', hd', hm⟩

/-- From `cache_init` on, any sequence of reads, whole-sector writes, passes of `write_behind` and
flushes goes through without a failed assertion.  It returns what the array of sectors returns, the
queue is a permutation of the sectors in the cache, and after one more flush the device is the
array. -/
theorem refines_disk {size : ℕ} (hsize : size < 2 ^ 32) (disk : ℕ → Block) (ops : List CacheOp)
    (hops : ∀ op ∈ ops, op.inRange size ∧ op ≠ .readAhead) :
    ∃ outs c d, trace perform (cacheInit size disk) ops = some (outs, c) ∧
      trace Disk.perform ⟨size, disk⟩ ops = some (outs, d) ∧
      c.lru.Perm c.resident ∧
      ∃ c', c.flushCache = some c' ∧ c'.lru.Perm c'.resident ∧
        ∀ s, ∀ j < BLOCK_SECTOR_SIZE, c'.disk s j = d.block s j := by
  obtain ⟨outs, c, d, hc, hd, hm⟩ := (mirrors_cacheInit hsize disk).trace fun c1 op hp =>
    safe_of_inRange (hops op hp.mem).1 fun hop => absurd hop (hops op hp.mem).2
  obtain ⟨c', hc', hm', -, hdisk⟩ := hm.flushCache
  exact ⟨outs, c, d, hc, hd, hm.queue.perm hm.distinct, c', hc', hm'.queue.perm hm'.distinct, hdisk⟩

/-- Writes of more sectors than there are entries, and reads that bring them back. -/
def manyAccesses : List CacheOp :=
  (List.range 100).map (fun s => .access (.write s (List.replicate 512 7) 0)) ++ [.writeBehind] ++
    (List.range 100).map (fun s => .access (.read s 4 8)) ++ [.flush]

theorem refines_disk_manyAccesses :
    ∃ outs c d, trace perform (cacheInit 128 fun _ _ => 0) manyAccesses = some (outs, c) ∧
      trace Disk.perform ⟨128, fun _ _ => 0⟩ manyAccesses = some (outs, d) ∧
      c.lru.Perm c.resident ∧
      ∃ c', c.flushCache = some c' ∧ c'.lru.Perm c'.resident ∧
        ∀ s, ∀ j < BLOCK_SECTOR_SIZE, c'.disk s j = d.block s j :=
  refines_disk (by decide) _ manyAccesses (by
    simp only [manyAccesses, mem_append, List.mem_map, mem_range, mem_singleton]
    rintro op (((⟨s, hs, rfl⟩ | rfl) | ⟨s, hs, rfl⟩) | rfl)
    · exact ⟨decide_eq_true ⟨by omega, length_replicate, rfl⟩, nofun⟩
    · exact ⟨rfl, nofun⟩
    · exact ⟨decide_eq_true ⟨by omega, by decide⟩, nofun⟩
    · exact ⟨rfl, nofun⟩)

/-- Passes of `read_ahead` make no difference: with and without them the same bytes are returned
and the same device is left behind, and a pass brings in queued sectors only. -/
structure Transparent (size : ℕ) (disk : ℕ → Block) (ops : List CacheOp) : Prop where
  same : ∃ outs c d, trace perform (cacheInit size disk) ops = some (outs, c) ∧
    trace perform (cacheInit size disk) (ops.filter fun op => !op.isReadAhead) = some (outs, d) ∧
    ∃ c' d', c.flushCache = some c' ∧ d.flushCache = some d' ∧
      ∀ s, ∀ j < BLOCK_SECTOR_SIZE, c'.disk s j = d'.disk s j
  brings : ∀ c, Performs perform (cacheInit size disk) ops c .readAhead → c.BringsQueued

theorem Mirrors.of_performs (h : c.MirrorsAll d) (hops : ∀ op ∈ ops, op.inRange d.size)
    (hahd : ∀ c1, Performs Cache.perform c ops c1 .readAhead → c1.AheadInOrder)
    (hp : Performs Cache.perform c ops c' op) : ∃ d', c'.MirrorsAll d' := by
  induction ops generalizing c d with
  | nil => simpa using hp.mem
  | cons op' ops ih =>
    obtain ⟨rfl, -⟩ | ⟨out, c1, hc1, hp⟩ := performs_cons.mp hp
    · exact ⟨d, h⟩
    · obtain ⟨out', c2, d2, hc2, -, hm, hs⟩ := h.perform (safe_of_inRange (hops op' mem_cons_self)
        fun e => hahd c (performs_cons.mpr (.inl ⟨rfl, e.symm⟩)))
      obtain ⟨-, rfl⟩ := Prod.mk.inj (mem_unique hc2 hc1)
      exact ih hm (fun op hop => hs ▸ hops op (mem_cons_of_mem _ hop))
        (fun c3 hp => hahd c3 (performs_cons.mpr (.inr ⟨out, c2, hc1, hp⟩))) hp

/-- Passes that are all completed, and bring in only what they should, are in order. -/
theorem Mirrors.aheadInOrder_of_trace (h : c.MirrorsAll d) (hops : ∀ op ∈ ops, op.inRange d.size)
    (htrc : Runs.trace Cache.perform c ops = some (outs, c'))
    (hq : ∀ c1, Performs Cache.perform c ops c1 .readAhead → c1.BringsQueued) :
    ∀ c1, Performs Cache.perform c ops c1 .readAhead → c1.AheadInOrder := by
  induction ops generalizing c d outs with
  | nil => exact fun c1 hp => absurd hp.mem (by simp)
  | cons op ops ih =>
    obtain ⟨out, c2, outs', hc2, htrc, -⟩ := trace_cons.mp htrc
    -- the first operation is in order, so the rest starts with the mirror
    have hfir : op = .readAhead → c.AheadInOrder := by
      rintro rfl
      obtain ⟨c3, hc3, -⟩ := map_eq_some_iff.mp hc2
      exact h.aheadInOrder hc3 (hq c (performs_cons.mpr (.inl ⟨rfl, rfl⟩)))
    obtain ⟨out', c3, d3, hc3, -, hm, hs⟩ :=
      h.perform (safe_of_inRange (hops op mem_cons_self) hfir)
    obtain ⟨-, rfl⟩ := Prod.mk.inj (mem_unique hc3 hc2)
    intro c1 hp
    obtain ⟨rfl, hop⟩ | ⟨out, c4, hc4, hp⟩ := performs_cons.mp hp
    · exact hfir hop.symm
    · obtain ⟨-, rfl⟩ := Prod.mk.inj (mem_unique hc2 hc4)
      exact ih hm (fun op hop => hs ▸ hops op (mem_cons_of_mem _ hop)) htrc
        (fun c5 hp => hq c5 (performs_cons.mpr (.inr ⟨out, c3, hc4, hp⟩))) c1 hp

/-- Reading ahead is transparent exactly if each pass finds all positions that it visits in
order. -/
theorem transparent_iff {size : ℕ} (hsize : size < 2 ^ 32) (disk : ℕ → Block) (ops : List CacheOp)
    (hops : ∀ op ∈ ops, op.inRange size) :
    Transparent size disk ops ↔
      ∀ c, Performs perform (cacheInit size disk) ops c .readAhead → c.AheadInOrder := by
  have hinit := mirrors_cacheInit hsize disk
  constructor
  · rintro ⟨⟨outs, c, d, hc, -⟩, hq⟩
    exact hinit.aheadInOrder_of_trace hops hc hq
  · intro hahd
    obtain ⟨outs, c, d, hc, hd, hm⟩ := hinit.trace fun c1 op hp =>
      safe_of_inRange (hops op hp.mem) fun hop => hahd c1 (hop ▸ hp)
    have hops' : ∀ op ∈ ops.filter fun op => !op.isReadAhead, op.inRange _ :=
      fun op hop => hops op (mem_filter.mp hop).1
    obtain ⟨outs', c0, d0, hc0, hd0, hm0⟩ := hinit.trace fun c1 op hp =>
      safe_of_inRange (hops' op hp.mem) fun hop =>
        absurd (mem_filter.mp hp.mem).2 (by simp [hop, CacheOp.isReadAhead])
    -- the array does not see the passes
    rw [trace_filter (fun d op hop => by
      cases op with
      | readAhead => rfl
      | _ => cases hop), hd] at hd0
    obtain ⟨rfl, rfl⟩ := Prod.mk.inj (some.inj hd0)
    obtain ⟨c', hc', -, -, hdisk⟩ := hm.flushCache
    obtain ⟨c₀', hc0', -, -, hdisk0⟩ := hm0.flushCache
    refine ⟨⟨outs, c, c0, hc, hc0, c', c₀', hc', hc0', fun s j hj => ?_⟩, fun c1 hp => ?_⟩
    · rw [hdisk s j hj, hdisk0 s j hj]
    · obtain ⟨d1, hm1⟩ := hinit.of_performs hops hahd hp
      exact hm1.bringsQueued (hahd c1 hp)

/-- A read of the last sector, after which sector 0 is queued at position 0. -/
def readLast : List CacheOp := [.access (.read 15 1 0), .readAhead]

/-- Once position 0, at which its own number is queued, has been visited, the pass is over. -/
theorem aheadInOrder_readLast
    (hp : Performs perform (cacheInit 16 fun _ _ => 0) readLast c .readAhead) : c.AheadInOrder := by
  obtain ⟨-, hop⟩ | ⟨out, c0, hc0, hp⟩ := performs_cons.mp hp
  · cases hop
  obtain ⟨rfl, -⟩ | ⟨out, c1, hc1, hp⟩ := performs_cons.mp hp
  · have hring : ((cacheInit 16 fun _ _ => 0).perform (.access (.read 15 1 0))).map
        (fun p => (p.2.readAheadHead, p.2.readAheadTail, p.2.readAheadBuffer 0, p.2.sectorToCache 0,
          (p.2.readAheadAt 0).map readAheadTail)) = some (0, 1, some 0, none, some 1) := by
      decide +kernel
    simp only [hc0, map_some, some.injEq, Prod.mk.injEq] at hring
    obtain ⟨hhead, htail, hbuf, ha, hnext⟩ := hring
    have hvst : ∀ p, Reaches aheadStep (fun _ _ => True) (c, c.readAheadHead) p →
        p = (c, 0) ∨ p.2 = p.1.readAheadTail := by
      intro p hr
      refine hr.invariant (P := fun p => p = (c, 0) ∨ p.2 = p.1.readAheadTail)
        (.inl (by rw [hhead])) ?_
      rintro s u s' (rfl | hs) - hstep
      · obtain ⟨-, c', hc', rfl⟩ := aheadStep_eq_some.mp hstep
        rw [hc', map_some, some.injEq] at hnext
        exact .inr hnext.symm
      · exact absurd hs (aheadStep_eq_some.mp hstep).1
    intro c1 i hv
    obtain e | e := hvst _ hv.1
    · cases e
      exact .inr (.inl ⟨⟨0, by rw [hhead, htail]; decide, hbuf⟩, ha⟩)
    · exact absurd e hv.2
  · cases hp.mem

theorem transparent_readLast : Transparent 16 (fun _ _ => 0) readLast :=
  (transparent_iff (by decide) _ readLast (by decide)).mpr fun _ => aheadInOrder_readLast

/-- A write of sector 0, after which sector 1 is queued at position 0. -/
def writeFirst : List CacheOp := [.access (.write 0 (List.replicate 512 7) 0), .readAhead]

/-- Sector 0, which has just been written, is read from the device into a second entry. -/
theorem not_transparent_writeFirst :
    (∃ outs c, trace perform (cacheInit 16 fun _ _ => 0) writeFirst = some (outs, c) ∧
      c.sectors 0 = some 0 ∧ (c.entries 0).data 0 = 7 ∧
      c.sectors 1 = some 0 ∧ (c.entries 1).data 0 = 0) ∧
    ¬ Transparent 16 (fun _ _ => 0) writeFirst := by
  have hrun : (trace perform (cacheInit 16 fun _ _ => 0) writeFirst).map (fun p =>
      (p.2.sectors 0, (p.2.entries 0).data 0, p.2.sectors 1, (p.2.entries 1).data 0)) =
      some (some 0, 7, some 0, 0) := by
    decide +kernel
  have hfir : ((cacheInit 16 fun _ _ => 0).perform
      (.access (.write 0 (List.replicate 512 7) 0))).map (fun p => (p.2.readAheadHead,
        p.2.readAheadTail, p.2.sectors 0, p.2.sectors 1, (p.2.readAheadAt 0).bind (·.sectors 1))) =
      some (0, 1, some 0, none, some 0) := by
    decide +kernel
  obtain ⟨⟨outs, c⟩, hc, hvals⟩ := map_eq_some_iff.mp hrun
  obtain ⟨⟨out, c1⟩, hc1, hvals1⟩ := map_eq_some_iff.mp hfir
  simp only [Prod.mk.injEq, bind_eq_some_iff] at hvals hvals1
  obtain ⟨h0, hd0, h1, hd1⟩ := hvals
  obtain ⟨hhead, htail, hs0, hs1, c2, hc2, hslot⟩ := hvals1
  refine ⟨⟨outs, c, hc, h0, hd0, h1, hd1⟩, fun ht => ?_⟩
  have hp : Performs perform (cacheInit 16 fun _ _ => 0) writeFirst c1 .readAhead :=
    performs_cons.mpr (.inr ⟨out, c1, hc1, performs_cons.mpr (.inl ⟨rfl, rfl⟩)⟩)
  have hv : c1.Visits c1 0 := by
    refine ⟨?_, by rw [htail]; decide⟩
    rw [hhead]
    exact .start
  exact (ht.brings c1 hp c1 0 c2 hv hc2 1 0 hslot (by simp [hs1])).2 0 hs0
end Cache

end Pintos
