import Pintos.Filesys.CacheLocks

/-! # What the device holds behind the cache

Threads that read sectors and write whole sectors, with a record of what has been written.

* **Record.**  `versions s` are the contents that sector `s` has had, in the order in which they were
  copied into the cache, `returned s` is the version of the `cache_write` that returned last.
* **Moving.**  A thread that has given an entry to a new sector, and has not yet fetched it, is
  `bringing` that sector in.  Until it has written the old sector out, it owes it to the device.
* **Result.**  The old sector is neither in the cache nor, if it was dirty, on the device while it is
  owed.  If no victim is dirty (`cleanVictim`), nobody owes anything, and the device is never
  behind. -/


namespace Pintos
open Bytes Slots Runs Function Option Cache CachePc

/-- The blocks agree on the bytes of a sector. -/
def SameBytes (b b' : Block) : Prop := ∀ j < BLOCK_SECTOR_SIZE, b j = b' j

/-- A read inside a sector of the device, or a write of a whole one. -/
def Access.whole (size : ℕ) : Access → Bool
  | .read s n offset => s < size ∧ n + offset ≤ BLOCK_SECTOR_SIZE
  | .write s buf offset => s < size ∧ buf.length = BLOCK_SECTOR_SIZE ∧ offset = 0

theorem Access.sector_lt_of_whole {size : ℕ} {a : Access} (h : a.whole size) : a.sector < size := by
  cases a with
  | read | write => exact (of_decide_eq_true h).1

namespace CachePc

/-- The entry that has been given to a sector which is not there yet, and the sector. -/
def bringing : CachePc → Option (Slot × ℕ)
  | .claimed a i | .retargeted a i _ | .writeBack a i _ | .fetching a i => some (i, a.sector)
  | _ => none

/-- The sector that had the entry before. -/
def old : CachePc → Option ℕ
  | .retargeted _ _ old | .writeBack _ _ old => old
  | _ => none

/-- The contents of the sectors once a thread has got there. -/
def effect (cur : ℕ → Block) : CachePc → ℕ → Block
  | .finished (.write s buf offset) _ _ => update cur s (overwrite (cur s) offset buf)
  | _ => cur

theorem heldEntry_of_bringing {p : CachePc} (h : p.bringing = some (i, s)) :
    p.heldEntry = some i := by
  cases p <;> simp_all [bringing, heldEntry]

end CachePc

namespace CacheSystem

variable {T : Type}
variable {m m' : CacheSystem T} {t t' w : T} {a : Access} {i : Slot} {p q : CachePc} {s : ℕ}
  {cur cur' : ℕ → Block}

/-- No thread is bringing a sector into entry `i`. -/
def AtRest (m : CacheSystem T) (i : Slot) : Prop := ∀ t s, (m.pc t).bringing ≠ some (i, s)

/-- A thread has yet to write sector `s` to the device. -/
def Owed (m : CacheSystem T) (s : ℕ) : Prop :=
  ∃ t i s', (m.pc t).bringing = some (i, s') ∧ (m.cache.entries i).dirty = true ∧
    (m.pc t).old = some s

/-- The cache and the device hold the contents `cur`. -/
structure DataInv (m : CacheSystem T) (cur : ℕ → Block) : Prop where
  range : ∀ i s, m.cache.sectors i = some s → s < m.cache.size
  empty : ∀ i, m.cache.sectors i = none → (m.cache.entries i).dirty = false
  data : ∀ i s, m.cache.sectors i = some s → m.AtRest i →
    SameBytes (m.cache.entries i).data (cur s) ∧
      ((m.cache.entries i).dirty = false → SameBytes (m.cache.disk s) (cur s))
  away : ∀ s < m.cache.size, (∀ i, m.cache.sectors i ≠ some s) → ¬ m.Owed s →
    SameBytes (m.cache.disk s) (cur s)
  bringing : ∀ t i s, (m.pc t).bringing = some (i, s) → m.cache.sectors i = some s ∧
    SameBytes (m.cache.disk s) (cur s)
  owed : ∀ t i s, (m.pc t).bringing = some (i, s) → (m.cache.entries i).dirty = true →
    ∃ s₀, (m.pc t).old = some s₀ ∧ s₀ < m.cache.size ∧ (∀ k, m.cache.sectors k ≠ some s₀) ∧
      SameBytes (m.cache.entries i).data (cur s₀)

/-- No thread owes anything. -/
def NoDebt (m : CacheSystem T) : Prop :=
  ∀ t i s, (m.pc t).bringing = some (i, s) → (m.cache.entries i).dirty = false

/-! ### Steps that move no data -/

/-- The entries hold the same sectors and bytes, and so does the device. -/
structure SameData (c c' : Cache) : Prop where
  sectors : c'.sectors = c.sectors
  dirty : ∀ i, (c'.entries i).dirty = (c.entries i).dirty
  data : ∀ i, (c'.entries i).data = (c.entries i).data
  disk : c'.disk = c.disk
  size : c'.size = c.size

theorem sameData_lru (c : Cache) (lru : List ℕ) : SameData c { c with lru } :=
  ⟨rfl, fun _ => rfl, fun _ => rfl, rfl, rfl⟩

theorem sameData_refl (c : Cache) : SameData c c := ⟨rfl, fun _ => rfl, fun _ => rfl, rfl, rfl⟩

theorem NoDebt.not_owed (h : m.NoDebt) : ¬ m.Owed s := by
  rintro ⟨t, i, s', hb, hd, -⟩
  simp [h t i s' hb] at hd

theorem NoDebt.not_dirty (h : m.NoDebt) (hb : (m.pc t).bringing = some (i, s)) :
    (m.cache.entries i).dirty ≠ true := by
  rw [h t i s hb]
  exact Bool.false_ne_true

theorem DataInv.keep (h : m.DataInv cur) (hno : m.NoDebt) (hd : SameData m.cache m'.cache)
    (hb : ∀ t, (m'.pc t).bringing = (m.pc t).bringing) : m'.DataInv cur := by
  obtain ⟨hsec, hdrt, hdata, hdisk, hsize⟩ := hd
  have hrest : ∀ i, m'.AtRest i ↔ m.AtRest i := fun i => by simp [AtRest, hb]
  constructor
  · simpa [hsec, hsize] using h.range
  · simpa [hsec, hdrt] using h.empty
  · simpa [hsec, hdrt, hdata, hdisk, hrest] using h.data
  · intro s hs habs _
    rw [hdisk]
    exact h.away s (hsize ▸ hs) (hsec ▸ habs) hno.not_owed
  · simpa [hsec, hdisk, hb] using h.bringing
  · intro t i s ht hd
    exact absurd ((hdrt i).symm.trans hd) (hno.not_dirty ((hb t).symm.trans ht))

variable {c : Cache} {table : Option T} {f : Slot → Option T}

variable [DecidableEq T]

theorem next_bringing (hq : q.bringing = (m.pc t).bringing) (t' : T) :
    ((m.next t c table f q).pc t').bringing = (m.pc t').bringing := by
  by_cases e : t' = t
  · subst e
    rw [next_pc_self, hq]
  · rw [next_pc_of_ne e]

theorem DataInv.next (h : m.DataInv cur) (hno : m.NoDebt) (hd : SameData m.cache c)
    (hb : q.bringing = (m.pc t).bringing) : (m.next t c table f q).DataInv cur :=
  h.keep hno hd (next_bringing hb)

/-! ### Bringing a sector in -/

theorem assign_dirty {lru : List ℕ} (k : Slot) :
    ((c.assign i s lru).entries k).dirty = (c.entries k).dirty := by
  by_cases e : k = i
  · subst e
    simp [assign]
  · simp [assign, e]

/-- Entry `i`, which is clean, is given to a sector that is not in the cache. -/
theorem DataInv.assign {lru : List ℕ} (h : m.DataInv cur) (hno : m.NoDebt)
    (hno' : (m.next t (m.cache.assign i s lru) table f q).NoDebt) (hrest : m.AtRest i)
    (hp : (m.pc t).bringing = none) (hq : q.bringing = some (i, s)) (hs : s < m.cache.size)
    (habs : ∀ k, m.cache.sectors k ≠ some s) :
    (m.next t (m.cache.assign i s lru) table f q).DataInv cur := by
  have hsec : (m.cache.assign i s lru).sectors = update m.cache.sectors i (some s) :=
    assign_sectors
  have hself : ((m.next t (m.cache.assign i s lru) table f q).pc t).bringing = some (i, s) := by
    rw [next_pc_self, hq]
  have hoth : ∀ {t' i' s'}, (m.pc t').bringing = some (i', s') →
      ((m.next t (m.cache.assign i s lru) table f q).pc t').bringing = some (i', s') := by
    intro t' i' s' ht'
    rw [next_pc_of_ne, ht']
    rintro rfl
    simp [hp] at ht'
  refine ⟨fun k s' hk => ?_, fun k hk => ?_, fun k s' hk hk' => ?_, fun s' hs' habs' _ => ?_,
    fun t' i' s' ht' => ?_, fun t' i' s' ht' hd => absurd hd (hno'.not_dirty ht')⟩
  · replace hk : update m.cache.sectors i (some s) k = some s' := hsec ▸ hk
    rw [update_apply] at hk
    split_ifs at hk
    · exact some.inj hk ▸ hs
    · exact h.range k s' hk
  · replace hk : update m.cache.sectors i (some s) k = none := hsec ▸ hk
    rw [update_apply] at hk
    split_ifs at hk
    exact (assign_dirty k).trans (h.empty k hk)
  · replace hk : update m.cache.sectors i (some s) k = some s' := hsec ▸ hk
    have e : k ≠ i := by
      rintro rfl
      exact hk' t s hself
    rw [update_of_ne e] at hk
    simpa [CacheSystem.next, Cache.assign, e] using h.data k s' hk fun t' s'' ht' =>
      hk' t' s'' (hoth ht')
  · replace habs' : ∀ k, update m.cache.sectors i (some s) k ≠ some s' := hsec ▸ habs'
    by_cases hi : m.cache.sectors i = some s'
    · exact (h.data i s' hi hrest).2 ((assign_dirty i).symm.trans (hno' t i s hself))
    · refine h.away s' hs' (fun k hk => ?_) hno.not_owed
      by_cases e : k = i
      · exact hi (e ▸ hk)
      · exact habs' k (by rw [update_of_ne e]; exact hk)
  · show (m.cache.assign i s lru).sectors i' = some s' ∧ SameBytes (m.cache.disk s') (cur s')
    rw [hsec]
    by_cases e : t' = t
    · subst e
      rw [hself] at ht'
      obtain ⟨rfl, rfl⟩ := ht'
      exact ⟨update_self .., h.away s hs habs hno.not_owed⟩
    · rw [next_pc_of_ne e] at ht'
      rw [update_of_ne (show i' ≠ i from fun e' => hrest t' s' (e' ▸ ht'))]
      exact h.bringing t' i' s' ht'

theorem sameData_clean (h : (c.entries i).dirty = false) : SameData c (c.clean i c.disk) := by
  refine ⟨clean_sectors, fun k => ?_, fun k => ?_, rfl, rfl⟩
  · by_cases e : k = i
    · subst e
      simp [clean, h]
    · simp [clean, e]
  · by_cases e : k = i
    · subst e
      simp [clean]
    · simp [clean, e]

/-! ### Reading and writing the entry -/

/-- Entry `i`, which no other thread is moving, gets its contents `b`, which are those of its sector
from now on. -/
theorem DataInv.settle (h : m.DataInv cur) (hno : m.NoDebt)
    (hno' : (m.next t c table f q).NoDebt) (hd : Distinct m.cache.sectors)
    (hi : m.cache.sectors i = some s) (hne : ∀ t', t' ≠ t → ∀ s, (m.pc t').bringing ≠ some (i, s))
    (hp : ∀ k s, (m.pc t).bringing = some (k, s) → k = i)
    (hq : q.bringing = none) (hc : SameData (m.cache.setEntry i e') c) (hs : e'.sector = some s)
    (hdata : SameBytes e'.data b) (hdisk : e'.dirty = false → SameBytes (m.cache.disk s) b) :
    (m.next t c table f q).DataInv (update cur s b) := by
  obtain ⟨hsec, hdrt, hdat, hdisk', hsize⟩ := hc
  rw [setEntry_sectors, hs, ← hi, update_eq_self] at hsec
  have hoth : ∀ {k}, k ≠ i → (c.entries k).dirty = (m.cache.entries k).dirty ∧
      (c.entries k).data = (m.cache.entries k).data :=
    fun e => ⟨by simp [hdrt, e], by simp [hdat, e]⟩
  have hcur : ∀ {s'}, s' ≠ s → update cur s b s' = cur s' :=
    fun e => update_of_ne e ..
  have hslot : ∀ {k s'}, k ≠ i → m.cache.sectors k = some s' → s' ≠ s := by
    rintro k s' e hk rfl
    exact e (hd k i s' hk hi)
  refine ⟨fun k s' hk => ?_, fun k hk => ?_, fun k s' hk hk' => ?_, fun s' hs' habs' _ => ?_,
    fun t' i' s' ht' => ?_, fun t' i' s' ht' hd => absurd hd (hno'.not_dirty ht')⟩
  · exact hsize ▸ h.range k s' (hsec ▸ hk)
  · replace hk : m.cache.sectors k = none := hsec ▸ hk
    have e : k ≠ i := by
      rintro rfl
      simp [hi] at hk
    exact (hoth e).1.trans (h.empty k hk)
  · replace hk : m.cache.sectors k = some s' := hsec ▸ hk
    show SameBytes (c.entries k).data _ ∧ ((c.entries k).dirty = false → SameBytes (c.disk s') _)
    rw [hdisk']
    by_cases e : k = i
    · subst e
      cases mem_unique hi hk
      rw [hdat, hdrt]
      simpa using ⟨hdata, hdisk⟩
    · rw [(hoth e).1, (hoth e).2, hcur (hslot e hk)]
      refine h.data k s' hk fun t' s'' ht' => ?_
      by_cases et : t' = t
      · exact e (hp k s'' (et ▸ ht'))
      · exact hk' t' s'' (by rw [next_pc_of_ne et]; exact ht')
  · replace habs' : ∀ k, m.cache.sectors k ≠ some s' := hsec ▸ habs'
    show SameBytes (c.disk s') _
    rw [hdisk', hcur (show s' ≠ s from fun e => habs' i (e ▸ hi))]
    exact h.away s' (hsize ▸ hs') habs' hno.not_owed
  · have e : t' ≠ t := by
      rintro rfl
      simp [hq] at ht'
    rw [next_pc_of_ne e] at ht'
    obtain ⟨hs', hsame⟩ := h.bringing t' i' s' ht'
    refine ⟨hsec ▸ hs', ?_⟩
    show SameBytes (c.disk s') _
    rw [hdisk', hcur (hslot (fun e' => hne t' e s' (e' ▸ ht')) hs')]
    exact hsame

/-- A call that has got the entry of its sector, or has just brought the sector in. -/
theorem DataInv.served (h : m.DataInv cur) (hno : m.NoDebt) (hno' : (m.served t c f a i).NoDebt)
    (hd : Distinct m.cache.sectors) (hi : m.cache.sectors i = some a.sector)
    (hne : ∀ t', t' ≠ t → ∀ s, (m.pc t').bringing ≠ some (i, s))
    (hp : ∀ k s, (m.pc t).bringing = some (k, s) → k = i) (hwhl : a.whole m.cache.size) (hsec : c.sectors = m.cache.sectors)
    (hc : ∀ e, SameData (m.cache.setEntry i e) (c.setEntry i e))
    (hread : a.writing = false → SameBytes (c.entries i).data (cur a.sector) ∧
      ((c.entries i).dirty = false → SameBytes (m.cache.disk a.sector) (cur a.sector))) :
    (m.served t c f a i).DataInv (((m.served t c f a i).pc t).effect cur) := by
  have hsi : (c.entries i).sector = some a.sector := (congrFun hsec i).trans hi
  have hring : SameData (m.cache.setEntry i ((c.entries i).serve a).2)
      ((c.setEntry i ((c.entries i).serve a).2).lineUp a.sector) := by
    obtain ⟨h1, h2, h3, h4, h5⟩ := hc ((c.entries i).serve a).2
    exact ⟨h1, h2, h3, h4, h5⟩
  have hsev : ((c.entries i).serve a).2.sector = some a.sector := by simpa using hsi
  rw [served_of_eq (show c.sectors i = _ from hsi)] at hno' ⊢
  rw [next_pc_self]
  cases a with
  | read s n offset =>
    obtain ⟨hdata, hdisk⟩ := hread rfl
    have hsame : update cur s (cur s) = cur := update_eq_self s cur
    have hsel : (m.next t _ m.table f (.finished (.read s n offset) i
        ((c.entries i).serve (.read s n offset)).1)).DataInv (update cur s (cur s)) :=
      h.settle hno hno' hd hi hne hp rfl hring hsev hdata hdisk
    rwa [hsame] at hsel
  | write s buf offset =>
    obtain ⟨-, hlen, rfl⟩ := of_decide_eq_true hwhl
    refine h.settle hno hno' hd hi hne hp rfl hring hsev (fun j hj => ?_)
      fun hdrt => absurd hdrt (by simp [CacheEntry.serve])
    exact (overwrite_of_inside (Nat.zero_le j) (by omega)).trans
      (overwrite_of_inside (Nat.zero_le j) (by omega)).symm

/-! ### Runs of the system -/

/-- What holds of the threads in every run: they know where they are, and keep to the domain. -/
structure SysInv (m : CacheSystem T) : Prop where
  calm : m.Calm
  table : m.TableInv
  owns : m.Owns
  vacant : ∀ t a i, m.pc t = .tryFree a i → m.cache.sectors i = none
  domain : ∀ t a, (m.pc t).access = some a → a.whole m.cache.size

/-- A sector is brought in only when it is not owed. -/
def settled (m : CacheSystem T) : CacheAction T → Prop
  | .start _ a => a.whole m.cache.size
  | .run t _ => ∀ a i, m.pc t = .tryFree a i ∨ m.pc t = .recheck a i →
      (∀ k, m.cache.sectors k ≠ some a.sector) → ¬ m.Owed a.sector

theorem Ran.access (h : Ran m t p m') : (m'.pc t).access = none ∨ (m'.pc t).access = p.access := by
  cases h with
  | hit | skip | fetch =>
    unfold served
    split_ifs <;> exact .inr (by rw [next_pc_self]; rfl)
  | @looked a found => exact .inr (by rw [next_pc_self]; cases found <;> rfl)
  | @evicting a v => exact .inr (by rw [next_pc_self]; cases v <;> rfl)
  | finished => exact .inl (by rw [next_pc_self]; rfl)
  | _ => exact .inr (by rw [next_pc_self]; rfl)

theorem served_sectors : (m.served t c f a i).cache.sectors = c.sectors := by
  unfold served
  split_ifs
  · exact sectors_setEntry_of_eq c i (by simp)
  · rfl

theorem Ran.sectors (h : Ran m t p m') (ho : OwnsAt m t p) :
    m'.cache.sectors = m.cache.sectors ∨ m'.table = some t := by
  cases h with
  | hit | skip => exact .inl served_sectors
  | fetch => exact .inl (served_sectors.trans load_sectors)
  | tryFree => exact .inr (ho.1.mpr rfl)
  | retarget => exact .inr rfl
  | writeBack => exact .inl clean_sectors
  | _ => exact .inl rfl

theorem Ran.tryFree_of (h : Ran m t p m') (ht : m'.pc t = .tryFree a i) :
    m'.cache.sectors i = none := by
  cases h with
  | missFree _ hslot =>
    rw [next_pc_self, tryFree.injEq] at ht
    exact ht.2 ▸ eq_none_of_freeSlot hslot
  | hit | skip | fetch =>
    unfold served at ht
    split_ifs at ht <;> simp at ht
  | @looked a found => cases found <;> simp [afterLookup] at ht
  | @evicting a v => cases v <;> simp [afterEvict] at ht
  | _ => simp at ht

theorem SysInv.step {act : CacheAction T} (h : m.SysInv) (hok : m.missStillAbsent act)
    (hset : ∀ t a, act = .start t a → a.whole m.cache.size) (hs : m.step act = some m') :
    m'.SysInv := by
  have hcalm := h.calm.step hs
  have htbl := h.table.step hok hs
  cases act with
  | start t a =>
    simp only [CacheSystem.step, ite_none_right_eq_some, some.injEq] at hs
    obtain ⟨⟨hidle, -⟩, rfl⟩ := hs
    refine ⟨hcalm, htbl, fun t' => ?_, fun t' a' i' ht' => ?_, fun t' a' ht' => ?_⟩
    · have hnext : m.goTo t (.lookup a) = m.next t m.cache m.table m.entryLock (.lookup a) := rfl
      rw [hnext]
      by_cases e : t' = t
      · subst e
        have hown := hidle ▸ h.owns t'
        rw [next_pc_self]
        exact hown.keep
      · rw [next_pc_of_ne e]
        exact h.owns t'
    · by_cases e : t' = t
      · subst e
        simp [goTo] at ht'
      · exact h.vacant t' a' i' (by simpa [goTo, e] using ht')
    · by_cases e : t' = t
      · subst e
        cases by simpa [goTo, CachePc.access] using ht'
        exact hset t' a rfl
      · exact h.domain t' a' (by simpa [goTo, e] using ht')
  | run t w =>
    have hran := h.calm.ran hs
    obtain ⟨-, hote⟩ := hran.owns (h.owns t)
    refine ⟨hcalm, htbl, h.owns.of_ran hran, fun t' a' i' ht' => ?_, fun t' a' ht' => ?_⟩
    · by_cases e : t' = t
      · subst e
        exact hran.tryFree_of ht'
      · rw [hote.pc t' e] at ht'
        -- the thread holds `cache_table_lock`, so `t` has not changed the table
        have hheld := (h.owns t').1.mpr (by rw [ht']; rfl)
        obtain hsec | htab := hran.sectors (h.owns t)
        · rw [hsec]
          exact h.vacant t' a' i' ht'
        · exact absurd (mem_unique ((hote.table t' e).mpr hheld) htab) e
    · rw [hran.size]
      by_cases e : t' = t
      · subst e
        obtain hnone | hsame := hran.access
        · simp [hnone] at ht'
        · exact h.domain t' a' (hsame ▸ ht')
      · rw [hote.pc t' e] at ht'
        exact h.domain t' a' ht'

omit [DecidableEq T] in
theorem SysInv.atRest (h : m.SysInv) (hlock : m.entryLock i = none) : m.AtRest i := by
  intro t s ht
  have := ((h.owns t).2 i).mpr (heldEntry_of_bringing ht)
  simp [hlock] at this

omit [DecidableEq T] in
theorem SysInv.atRest_of_held (h : m.SysInv) (ht : (m.pc t).heldEntry = some i) (t' : T)
    (e : t' ≠ t) (s : ℕ) : (m.pc t').bringing ≠ some (i, s) :=
  fun hb => e (h.owns.unique ht (heldEntry_of_bringing hb))

theorem SysInv.atRest_of_holder (h : m.SysInv) (ht : (m.pc t).heldEntry = some i)
    (hb : (m.pc t).bringing = none) : m.AtRest i := by
  intro t' s ht'
  by_cases e : t' = t
  · simp [e, hb] at ht'
  · exact h.atRest_of_held ht t' e s ht'

/-- Calls are in range and write whole sectors, and `cache_evict` takes an entry away from its
sector only if the entry is not dirty. -/
def cleanVictim (m : CacheSystem T) : CacheAction T → Bool
  | .start _ a => a.whole m.cache.size
  | .run t _ =>
    match m.pc t with
    | .recheck a i => (m.cache.sectorToCache a.sector).isSome || !(m.cache.entries i).dirty
    | _ => true

/-- A thread makes an entry dirty only with the lock of the entry. -/
theorem Ran.dirty_at (h : Ran m t p m') (k : Slot) :
    (m'.cache.entries k).dirty = (m.cache.entries k).dirty ∨ (m'.pc t).heldEntry = some k := by
  have hsrv : ∀ {c : Cache} {f : Slot → Option T} {a : Access} {i : Slot},
      (c.entries k).dirty = (m.cache.entries k).dirty ∨ k = i →
      ((m.served t c f a i).cache.entries k).dirty = (m.cache.entries k).dirty ∨
        ((m.served t c f a i).pc t).heldEntry = some k := by
    intro c f a i hc
    by_cases e : k = i
    · refine .inr ?_
      unfold served
      split_ifs <;> rw [next_pc_self, e] <;> rfl
    · refine .inl ?_
      unfold served
      split_ifs
      · simpa [next, lineUp, e] using hc
      · simpa [next, e] using hc
  cases h with
  | hit | skip => exact hsrv (.inl rfl)
  | @fetch a i =>
    refine hsrv ?_
    by_cases e : k = i
    · exact .inr e
    · exact .inl (by simp [load, e])
  | tryFree | retarget => exact .inl (assign_dirty k)
  | @writeBack a i old disk =>
    by_cases e : k = i
    · exact .inr (by rw [next_pc_self, e]; rfl)
    · exact .inl (by simp [next, clean, e])
  | _ => exact .inl rfl

theorem NoDebt.step {cur : ℕ → Block} (h : m.NoDebt) (hm : m.SysInv) (hd : m.DataInv cur)
    (hok : m.cleanVictim (.run t w)) (hran : Ran m t (m.pc t) m') : m'.NoDebt := by
  obtain ⟨-, hote⟩ := hran.owns (hm.owns t)
  intro t' i s hb
  by_cases e : t' = t
  · subst e
    have hself := h t'
    have hvcn := hm.vacant t'
    unfold cleanVictim at hok
    dsimp only at hok
    generalize m.pc t' = p at hran hok hself hvcn
    cases hran with
    | hit | skip | fetch =>
      unfold served at hb
      split_ifs at hb <;> rw [next_pc_self] at hb <;> cases hb
    | @tryFree a i lru =>
      cases next_pc_self (m := m) ▸ hb
      simpa [next, assign] using hd.empty i (hvcn a i rfl)
    | @retarget a i lru _ habs =>
      cases next_pc_self (m := m) ▸ hb
      simp only [habs] at hok
      simpa [next, assign] using hok
    | claimed | retargeted =>
      cases next_pc_self (m := m) ▸ hb
      exact hself _ _ rfl
    | @writeBack a i old disk =>
      cases next_pc_self (m := m) ▸ hb
      simp [next, clean]
    | @looked a found =>
      rw [next_pc_self] at hb
      cases found <;> cases hb
    | @evicting a v =>
      rw [next_pc_self] at hb
      cases v <;> cases hb
    | _ =>
      rw [next_pc_self] at hb
      cases hb
  · rw [hote.pc t' e] at hb
    obtain hsame | hheld := hran.dirty_at i
    · rw [hsame]
      exact h t' i s hb
    · refine absurd ((hm.owns.of_ran hran).unique hheld ?_) e
      rw [hote.pc t' e]
      exact heldEntry_of_bringing hb

/-- Each step moves the data as it should. -/
theorem DataInv.step (h : m.DataInv cur) (hm : m.SysInv) (hno : m.NoDebt) (hno' : m'.NoDebt)
    (hran : Ran m t p m') (hpc : m.pc t = p) : m'.DataInv ((m'.pc t).effect cur) := by
  have hb := h.bringing t
  rw [hpc] at hb
  have hdmn := hm.domain t
  rw [hpc] at hdmn
  cases hran with
  | @hit a i hlock =>
    have hrest := hm.atRest hlock
    by_cases hi : m.cache.sectors i = some a.sector
    · exact h.served hno hno' hm.table.distinct hi (fun t' _ s => hrest t' s)
        (fun k s hk => by rw [hpc] at hk; cases hk) (hdmn a rfl) rfl
        (fun e => sameData_refl _) fun _ => h.data i a.sector hi hrest
    · rw [served_of_ne hi, next_pc_self]
      exact h.next hno (sameData_refl _) (by rw [hpc]; rfl)
  | @skip a i hwri =>
    obtain ⟨hi, hcur⟩ := hb i a.sector rfl
    exact h.served hno hno' hm.table.distinct hi (hm.atRest_of_held (by rw [hpc]; rfl))
      (fun k s hk => by rw [hpc] at hk; exact (Prod.mk.inj (some.inj hk)).1.symm)
      (hdmn a rfl) rfl (fun e => sameData_refl _)
      fun hread => by rw [hwri] at hread; cases hread
  | @fetch a i hrdn hs =>
    obtain ⟨hi, hcur⟩ := hb i a.sector rfl
    refine h.served hno hno' hm.table.distinct hi (hm.atRest_of_held (by rw [hpc]; rfl))
      (fun k s hk => by rw [hpc] at hk; exact (Prod.mk.inj (some.inj hk)).1.symm)
      (hdmn a rfl) load_sectors (fun e => ?_)
      fun _ => ⟨by simpa [load] using hcur, fun _ => hcur⟩
    simp only [load, setEntry, update_idem]
    exact sameData_refl _
  | @tryFree a i lru hlock =>
    rw [next_pc_self]
    exact h.assign hno hno' (hm.atRest hlock) (by rw [hpc]; rfl) rfl
      (Access.sector_lt_of_whole (hdmn a rfl)) (hm.table.fresh t a i hpc)
  | @retarget a i lru _ habs =>
    have hrest : m.AtRest i := hm.atRest_of_holder (by rw [hpc]; rfl) (by rw [hpc]; rfl)
    rw [next_pc_self]
    exact h.assign hno hno' hrest (by rw [hpc]; rfl) rfl
      (Access.sector_lt_of_whole (hdmn a rfl)) (slotOf_eq_none_iff.mp habs)
  | @writeBack a i old disk hcln =>
    have hdrt := hno t i a.sector (by rw [hpc]; rfl)
    rw [next_pc_self, hcln hdrt]
    exact h.next hno (sameData_clean hdrt) (by rw [hpc]; rfl)
  | missFull | spare =>
    rw [next_pc_self]
    exact h.next hno (sameData_lru _ _) (by rw [hpc]; rfl)
  | @looked a found =>
    rw [next_pc_self]
    cases found <;> exact h.next hno (sameData_refl _) (by rw [hpc]; rfl)
  | @evicting a v =>
    rw [next_pc_self]
    cases v <;> exact h.next hno (sameData_refl _) (by rw [hpc]; rfl)
  | _ =>
    rw [next_pc_self]
    exact h.next hno (sameData_refl _) (by rw [hpc]; rfl)

/-- Where a call ends: its entry holds its sector, and a reader returns the bytes of the entry. -/
theorem Ran.finished_of (h : Ran m t p m') (ht : m'.pc t = .finished a i bytes) :
    p.access = some a ∧ m'.cache.sectors i = some a.sector ∧
      ∀ s n offset, a = .read s n offset →
        bytes = slice (m'.cache.entries i).data offset n := by
  have hsrv : ∀ {c : Cache} {f : Slot → Option T} {a1 : Access} {i1 : Slot},
      (m.served t c f a1 i1).pc t = .finished a i bytes →
      a1 = a ∧ (m.served t c f a1 i1).cache.sectors i = some a.sector ∧
        ∀ s n offset, a = .read s n offset →
          bytes = slice ((m.served t c f a1 i1).cache.entries i).data offset n := by
    intro c f a1 i1 ht
    by_cases hi : c.sectors i1 = some a1.sector
    · rw [served_of_eq hi] at ht ⊢
      rw [next_pc_self, finished.injEq] at ht
      obtain ⟨rfl, rfl, rfl⟩ := ht
      refine ⟨rfl, ?_, ?_⟩
      · exact (congrFun (sectors_setEntry_of_eq c i1 (CacheEntry.serve_sector _ _)) i1).trans hi
      rintro s n offset rfl
      show _ = slice ((c.setEntry i1 _).entries i1).data offset n
      rw [slice_eq_map]
      simp [CacheEntry.serve]
    · simp [served_of_ne hi] at ht
  cases h with
  | hit | skip | fetch =>
    obtain ⟨rfl, hsec, hbyt⟩ := hsrv ht
    exact ⟨rfl, hsec, hbyt⟩
  | @looked a found => cases found <;> simp [afterLookup] at ht
  | @evicting a v => cases v <;> simp [afterEvict] at ht
  | _ => simp at ht

/-- A thread changes the `sector` field of an entry only with the lock of the entry. -/
theorem Ran.sectors_at (h : Ran m t p m') (k : Slot) :
    m'.cache.sectors k = m.cache.sectors k ∨ (m'.pc t).heldEntry = some k := by
  have hasg : ∀ {c : Cache} {i : Slot} {s : ℕ} {lru : List ℕ}, k ≠ i →
      (c.assign i s lru).sectors k = c.sectors k := fun e =>
    (congrFun assign_sectors k).trans (update_of_ne e ..)
  cases h with
  | hit | skip => exact .inl (congrFun served_sectors k)
  | fetch => exact .inl (congrFun (served_sectors.trans load_sectors) k)
  | writeBack => exact .inl (congrFun clean_sectors k)
  | @tryFree a i | @retarget a i =>
    by_cases e : k = i
    · exact .inr (by rw [next_pc_self, e]; rfl)
    · exact .inl (hasg e)
  | _ => exact .inl rfl

end CacheSystem

/-! ### The record of the writes -/

/-- The system with a record of what has been written. -/
structure Recorded (T : Type) where
  sys : CacheSystem T
  /-- The contents that a sector has had, the first being those on the device at the start. -/
  versions : ℕ → List Block
  /-- The version that the `cache_write` which returned last has written. -/
  returned : ℕ → ℕ
  /-- The version that a thread in `cache_write` has written. -/
  wrote : T → ℕ
  /-- What `returned` was for the sector of a call when the call started. -/
  since : T → ℕ

namespace Recorded
open CacheSystem

variable {T : Type} [DecidableEq T]

def version (r : Recorded T) (s k : ℕ) : Block := (r.versions s).getD k fun _ => 0

/-- The latest version. -/
def current (r : Recorded T) (s : ℕ) : Block := r.version s ((r.versions s).length - 1)

/-- A thread gives back the lock of the entry it has written, and returns. -/
def leave (r : Recorded T) (t : T) : CachePc → Recorded T
  | .finished (.write s _ _) _ _ => { r with returned := update r.returned s (r.wrote t) }
  | _ => r

/-- A thread has written its entry. -/
def arrive (r : Recorded T) (t : T) : CachePc → Recorded T
  | .finished (.write s buf offset) _ _ =>
    { r with
      versions := update r.versions s
        (r.versions s ++ [overwrite (r.current s) offset buf])
      wrote := update r.wrote t (r.versions s).length }
  | _ => r

/-- The record after a step of `t` that leads to `m`. -/
def after (r : Recorded T) (m : CacheSystem T) (t : T) : Recorded T :=
  (leave { r with sys := m } t (r.sys.pc t)).arrive t (m.pc t)

def step (r : Recorded T) (act : CacheAction T) : Option (Recorded T) :=
  (r.sys.step act).map fun m =>
    match act with
    | .start t a =>
      { r with sys := m, since := update r.since t (r.returned a.sector) }
    | .run t _ => r.after m t

/-- The device at the start is version 0. -/
def initial (size : ℕ) (disk : ℕ → Block) : Recorded T where
  sys := quiet (cacheInit size disk)
  versions := fun s => [disk s]
  returned := fun _ => 0
  wrote := fun _ => 0
  since := fun _ => 0

/-- The thread has written sector `s`, and is about to return. -/
def Ends (m : CacheSystem T) (t : T) (s : ℕ) : Prop :=
  ∃ buf offset i bytes, m.pc t = .finished (.write s buf offset) i bytes

section after
variable {r r' : Recorded T} {m m' : CacheSystem T} {t t' w : T} {p : CachePc} {s k : ℕ}

theorem after_eq : r.after m t =
    ⟨m, (r.arrive t (m.pc t)).versions, (r.leave t (r.sys.pc t)).returned,
      (r.arrive t (m.pc t)).wrote, r.since⟩ := by
  unfold after leave arrive
  split <;> split <;> rfl

@[simp] theorem after_sys : (r.after m t).sys = m := by rw [after_eq]

@[simp] theorem after_since : (r.after m t).since = r.since := by rw [after_eq]

theorem after_current : (r.after m t).current = (m.pc t).effect r.current := by
  have harv : (r.arrive t (m.pc t)).current = (m.pc t).effect r.current := by
    unfold arrive effect
    split
    · next s buf offset _ _ _ =>
        funext s'
        by_cases e : s' = s
        · subst e
          simp [current, version]
        · simp [current, version, e]
    · rfl
  rw [← harv, after_eq]
  rfl

theorem after_of_ends (h : Ends m t s) :
    (∃ b, (r.after m t).versions s = r.versions s ++ [b]) ∧
      (r.after m t).wrote t = (r.versions s).length := by
  obtain ⟨buf, offset, i, bytes, hpc⟩ := h
  rw [after_eq, hpc]
  exact ⟨⟨_, update_self ..⟩, update_self ..⟩

theorem after_of_not_ends (h : ¬ Ends m t s) : (r.after m t).versions s = r.versions s := by
  rw [after_eq]
  unfold arrive
  split
  · next s0 buf offset i bytes hpc =>
      refine update_of_ne ?_ _ _
      rintro rfl
      exact h ⟨buf, offset, i, bytes, hpc⟩
  · rfl

theorem after_wrote_of_ne (h : t' ≠ t) : (r.after m t).wrote t' = r.wrote t' := by
  rw [after_eq]
  unfold arrive
  split
  · exact update_of_ne h ..
  · rfl

theorem after_returned_of_ends (h : Ends r.sys t s) : (r.after m t).returned s = r.wrote t := by
  obtain ⟨buf, offset, i, bytes, hpc⟩ := h
  rw [after_eq, hpc]
  exact update_self ..

theorem after_returned_of_not_ends (h : ¬ Ends r.sys t s) :
    (r.after m t).returned s = r.returned s := by
  rw [after_eq]
  unfold leave
  split
  · next s0 buf offset i bytes hpc =>
      refine update_of_ne ?_ _ _
      rintro rfl
      exact h ⟨buf, offset, i, bytes, hpc⟩
  · rfl

theorem after_versions (s : ℕ) : ∃ added, (r.after m t).versions s = r.versions s ++ added := by
  by_cases h : Ends m t s
  · obtain ⟨⟨b, hb⟩, -⟩ := after_of_ends h
    exact ⟨[b], hb⟩
  · exact ⟨[], by rw [after_of_not_ends h, List.append_nil]⟩

theorem length_le_after (s : ℕ) : (r.versions s).length ≤ ((r.after m t).versions s).length := by
  obtain ⟨added, h⟩ := after_versions (r := r) s
  rw [h, List.length_append]
  omega

theorem after_version (hk : k < (r.versions s).length) :
    (r.after m t).version s k = r.version s k := by
  obtain ⟨added, h⟩ := after_versions (r := r) s
  unfold version
  rw [h, List.getD_append _ _ _ _ hk]

/-! ### What the record says -/

/-- The record is in line with the threads. -/
structure HistInv (r : Recorded T) : Prop where
  returnedLt : ∀ s, r.returned s < (r.versions s).length
  sinceLt : ∀ t a, (r.sys.pc t).access = some a → r.since t < (r.versions a.sector).length
  resident : ∀ t a i bytes, r.sys.pc t = .finished a i bytes → r.sys.cache.sectors i = some a.sector
  read : ∀ t s n offset i bytes, r.sys.pc t = .finished (.read s n offset) i bytes →
    ∃ k, r.since t ≤ k ∧ k < (r.versions s).length ∧ bytes = slice (r.version s k) offset n
  wrote : ∀ t s, Ends r.sys t s → r.wrote t + 1 = (r.versions s).length
  returned : ∀ s, (∀ t, ¬ Ends r.sys t s) → r.returned s + 1 = (r.versions s).length

/-- All invariants of a run. -/
structure Inv (r : Recorded T) : Prop where
  sys : r.sys.SysInv
  data : r.sys.DataInv r.current
  hist : r.HistInv

theorem HistInv.start (h : r.HistInv)
    (hidle : r.sys.pc t = .idle) (hm : m' = r.sys.goTo t (.lookup a)) :
    HistInv { r with sys := m', since := update r.since t (r.returned a.sector) } := by
  subst hm
  have hself : (r.sys.goTo t (.lookup a)).pc t = .lookup a := by simp [goTo]
  have hoth : ∀ {t'}, t' ≠ t → (r.sys.goTo t (.lookup a)).pc t' = r.sys.pc t' :=
    fun e => by simp [goTo, e]
  have hfin : ∀ {t' a' i bytes}, (r.sys.goTo t (.lookup a)).pc t' = .finished a' i bytes →
      t' ≠ t ∧ r.sys.pc t' = .finished a' i bytes := by
    intro t' a' i bytes ht'
    have e : t' ≠ t := by
      rintro rfl
      simp [hself] at ht'
    exact ⟨e, hoth e ▸ ht'⟩
  refine ⟨h.returnedLt, fun t' a' ht' => ?_, fun t' a' i bytes ht' => ?_,
    fun t' s n offset i bytes ht' => ?_, fun t' s hend => ?_, fun s hend => ?_⟩
  · dsimp only
    by_cases e : t' = t
    · subst e
      rw [show (r.sys.goTo t' (.lookup a)).pc t' = _ from hself] at ht'
      cases some.inj ht'
      rw [update_self]
      exact h.returnedLt a.sector
    · rw [update_of_ne e]
      exact h.sinceLt t' a' (hoth e ▸ ht')
  · exact h.resident t' a' i bytes (hfin ht').2
  · obtain ⟨e, ht'⟩ := hfin ht'
    dsimp only
    rw [update_of_ne e]
    exact h.read t' s n offset i bytes ht'
  · obtain ⟨buf, offset, i, bytes, ht'⟩ := hend
    exact h.wrote t' s ⟨buf, offset, i, bytes, (hfin ht').2⟩
  · refine h.returned s fun t' => ?_
    rintro ⟨buf, offset, i, bytes, ht'⟩
    have e : t' ≠ t := by
      rintro rfl
      simp [hidle] at ht'
    exact hend t' ⟨buf, offset, i, bytes, (hoth e).trans ht'⟩

theorem Inv.finished_other
    (h : r.Inv) (hran : Ran r.sys t (r.sys.pc t) m') (ht' : m'.pc t' = .finished a i bytes)
    (e : t' ≠ t) : r.sys.pc t' = .finished a i bytes ∧ m'.cache.sectors i = some a.sector := by
  obtain ⟨-, hote⟩ := hran.owns (h.sys.owns t)
  have hpc := (hote.pc t' e).symm.trans ht'
  refine ⟨hpc, ?_⟩
  obtain hsec | hheld := hran.sectors_at i
  · exact hsec.trans (h.hist.resident t' a i bytes hpc)
  · exact absurd ((h.sys.owns.of_ran hran).unique hheld (by rw [ht']; rfl)) e

omit [DecidableEq T] in
theorem ends_unique (hm : m.SysInv) (hres : ∀ t a i bytes, m.pc t = .finished a i bytes →
    m.cache.sectors i = some a.sector) (h : Ends m t s) (h' : Ends m t' s) : t' = t := by
  obtain ⟨buf, offset, i, bytes, ht⟩ := h
  obtain ⟨buf', offset', i', bytes', ht'⟩ := h'
  have hi : i' = i := hm.table.distinct i' i s (hres t' _ _ _ ht') (hres t _ _ _ ht)
  subst hi
  exact hm.owns.unique (by rw [ht]; rfl) (by rw [ht']; rfl)

theorem Inv.hist_run (h : r.Inv) (hran : Ran r.sys t (r.sys.pc t) m') (hm : m'.SysInv)
    (hdata : m'.DataInv ((m'.pc t).effect r.current)) : (r.after m' t).HistInv := by
  obtain ⟨-, hote⟩ := hran.owns (h.sys.owns t)
  have hres : ∀ t' a i bytes, m'.pc t' = .finished a i bytes →
      m'.cache.sectors i = some a.sector := by
    intro t' a i bytes ht'
    by_cases e : t' = t
    · subst e
      exact (hran.finished_of ht').2.1
    · exact (h.finished_other hran ht' e).2
  have hends : ∀ {t' s}, t' ≠ t → (Ends m' t' s ↔ Ends r.sys t' s) := by
    intro t' s e
    unfold Ends
    rw [hote.pc t' e]
  refine ⟨fun s => ?_, fun t' a ht' => ?_, fun t' a i bytes ht' => ?_,
    fun t' s n offset i bytes ht' => ?_, fun t' s hend => ?_, fun s hend => ?_⟩
  · refine lt_of_lt_of_le ?_ (length_le_after s)
    by_cases hend : Ends r.sys t s
    · rw [after_returned_of_ends hend]
      have := h.hist.wrote t s hend
      omega
    · rw [after_returned_of_not_ends hend]
      exact h.hist.returnedLt s
  · rw [after_sys] at ht'
    rw [after_since]
    refine lt_of_lt_of_le (h.hist.sinceLt t' a ?_) (length_le_after a.sector)
    by_cases e : t' = t
    · subst e
      obtain hnone | hsame := hran.access
      · cases hnone.symm.trans ht'
      · exact hsame.symm.trans ht'
    · exact hote.pc t' e ▸ ht'
  · rw [after_sys] at ht' ⊢
    exact hres t' a i bytes ht'
  · rw [after_sys] at ht'
    rw [after_since]
    by_cases e : t' = t
    · subst e
      obtain ⟨hacc, hsec, hbyt⟩ := hran.finished_of ht'
      have hlt : r.since t' < (r.versions s).length := h.hist.sinceLt t' _ hacc
      have hrest : m'.AtRest i := hm.atRest_of_holder (by rw [ht']; rfl) (by rw [ht']; rfl)
      have hcur := (hdata.data i s hsec hrest).1
      rw [ht'] at hcur
      obtain ⟨-, hn⟩ := of_decide_eq_true (hm.domain t' (.read s n offset) (by rw [ht']; rfl))
      refine ⟨(r.versions s).length - 1, Nat.le_sub_one_of_lt hlt,
        lt_of_lt_of_le (Nat.sub_one_lt_of_lt hlt) (length_le_after s), ?_⟩
      rw [hbyt s n offset rfl, after_version (Nat.sub_one_lt_of_lt hlt)]
      exact slice_congr fun j hj => hcur (offset + j) (by omega)
    · obtain ⟨hpc, -⟩ := h.finished_other hran ht' e
      obtain ⟨k, hk, hlt, rfl⟩ := h.hist.read t' s n offset i bytes hpc
      exact ⟨k, hk, lt_of_lt_of_le hlt (length_le_after s), by rw [after_version hlt]⟩
  · rw [after_sys] at hend
    by_cases e : t' = t
    · subst e
      obtain ⟨⟨b, hb⟩, hw⟩ := after_of_ends hend
      rw [hw, hb, List.length_append, List.length_singleton]
    · have hnot : ¬ Ends m' t s := fun ht => e (ends_unique hm hres ht hend)
      rw [after_wrote_of_ne e, after_of_not_ends hnot]
      exact h.hist.wrote t' s ((hends e).mp hend)
  · rw [after_sys] at hend
    rw [after_of_not_ends (hend t)]
    by_cases ht : Ends r.sys t s
    · rw [after_returned_of_ends ht]
      exact h.hist.wrote t s ht
    · rw [after_returned_of_not_ends ht]
      refine h.hist.returned s fun t' ht' => ?_
      by_cases e : t' = t
      · exact ht (e ▸ ht')
      · exact hend t' ((hends e).mpr ht')

theorem Inv.step {act : CacheAction T} (h : r.Inv) (hno : r.sys.NoDebt)
    (hok : r.sys.missStillAbsent act) (hcln : r.sys.cleanVictim act) (hs : r.step act = some r') :
    r'.Inv ∧ r'.sys.NoDebt := by
  obtain ⟨m', hm', rfl⟩ := map_eq_some_iff.mp hs
  have hsys := h.sys.step hok (fun t a e => by subst e; exact hcln) hm'
  cases act with
  | start t a =>
    simp only [CacheSystem.step, ite_none_right_eq_some, some.injEq] at hm'
    obtain ⟨⟨hidle, -⟩, hm'⟩ := hm'
    have hbrn : (lookup a).bringing = (r.sys.pc t).bringing := by
      rw [hidle]
      rfl
    refine ⟨⟨hsys, ?_, h.hist.start hidle hm'.symm⟩, ?_⟩
    · rw [← hm']
      exact h.data.next hno (sameData_refl _) hbrn
    · rw [← hm']
      exact fun t' i s hb => hno t' i s ((next_bringing hbrn t').symm.trans hb)
  | run t w =>
    have hran := h.sys.calm.ran hm'
    have hno' := hno.step h.sys h.data hcln hran
    have hdata := h.data.step h.sys hno hno' hran rfl
    refine ⟨⟨by rwa [after_sys], ?_, h.hist_run hran hsys hdata⟩, by rwa [after_sys]⟩
    rw [after_sys, after_current]
    exact hdata

omit [DecidableEq T] in
theorem inv_initial (size : ℕ) (disk : ℕ → Block) : (initial size disk : Recorded T).Inv := by
  have hidle : ∀ t, (initial size disk : Recorded T).sys.pc t = .idle := fun _ => rfl
  have hnone : ∀ i, (initial size disk : Recorded T).sys.cache.sectors i = none := fun _ => rfl
  refine ⟨⟨calm_quiet size disk, tableInv_quiet, owns_quiet _, ?_, ?_⟩, ⟨?_, ?_, ?_, ?_, ?_, ?_⟩,
    ⟨?_, ?_, ?_, ?_, ?_, ?_⟩⟩
  · intro t a i ht
    simp [hidle] at ht
  · intro t a ht
    simp [hidle, CachePc.access] at ht
  · intro i s hi
    simp [hnone] at hi
  · exact fun _ _ => rfl
  · intro i s hi
    simp [hnone] at hi
  · exact fun s _ _ _ j _ => rfl
  · intro t i s ht
    simp [hidle, CachePc.bringing] at ht
  · intro t i s ht
    simp [hidle, CachePc.bringing] at ht
  · exact fun s => Nat.zero_lt_one
  · intro t a ht
    simp [hidle, CachePc.access] at ht
  · intro t a i bytes ht
    simp [hidle] at ht
  · intro t s n offset i bytes ht
    simp [hidle] at ht
  · rintro t s ⟨buf, offset, i, bytes, ht⟩
    simp [hidle] at ht
  · exact fun _ _ => rfl

theorem step_size (h : r.sys.SysInv) (hs : r.step act = some r') :
    r'.sys.cache.size = r.sys.cache.size := by
  obtain ⟨m', hm', rfl⟩ := map_eq_some_iff.mp hs
  cases act with
  | start t a =>
    simp only [CacheSystem.step, ite_none_right_eq_some, some.injEq] at hm'
    exact hm'.2 ▸ rfl
  | run t w =>
    rw [after_sys]
    exact (h.calm.ran hm').size

omit [DecidableEq T] in
/-- A sector that is not in the cache and not owed is on the device as the last `cache_write` that
has returned left it. -/
theorem Inv.away (h : r.Inv) (hs : s < r.sys.cache.size) (habs : ∀ i, r.sys.cache.sectors i ≠ some s)
    (hnot : ¬ r.sys.Owed s) : SameBytes (r.sys.cache.disk s) (r.version s (r.returned s)) := by
  have hret := h.hist.returned s fun t ht => by
    obtain ⟨buf, offset, i, bytes, hpc⟩ := ht
    exact habs i (h.hist.resident t _ i bytes hpc)
  rw [show r.returned s = (r.versions s).length - 1 by omega]
  exact h.data.away s hs habs hnot

end after

/-- **No stale device.**  In every run in which only clean entries are taken away from their sectors,
each sector that is not in the cache is on the device as the last `cache_write` that has returned
left it, and a call of `cache_read` returns what had been written completely when it started, or
something later. -/
theorem device_current {size : ℕ} {disk : ℕ → Block} {r : Recorded T}
    (hr : Reaches step (fun r act => r.sys.missStillAbsent act ∧ r.sys.cleanVictim act)
      (initial size disk) r) :
    (∀ s < size, (∀ i, r.sys.cache.sectors i ≠ some s) →
      ∀ j < BLOCK_SECTOR_SIZE, r.sys.cache.disk s j = r.version s (r.returned s) j) ∧
    ∀ t s n offset i bytes, r.sys.pc t = .finished (.read s n offset) i bytes →
      ∃ k, r.since t ≤ k ∧ k < (r.versions s).length ∧ bytes = slice (r.version s k) offset n := by
  have hinv : (r.Inv ∧ r.sys.NoDebt) ∧ r.sys.cache.size = size := by
    refine hr.invariant (P := fun r => (r.Inv ∧ r.sys.NoDebt) ∧ r.sys.cache.size = size)
      ⟨⟨inv_initial size disk, fun t i s hb => by cases hb⟩, rfl⟩ ?_
    rintro r act r' ⟨⟨hi, hno⟩, hsize⟩ ⟨hok, hcln⟩ hs
    exact ⟨hi.step hno hok hcln hs, (step_size hi.sys hs).trans hsize⟩
  obtain ⟨⟨hi, hno⟩, rfl⟩ := hinv
  exact ⟨fun s hs habs => hi.away hs habs hno.not_owed, hi.hist.read⟩

/-- One thread writes a sector; then another one reads it. -/
theorem device_current_second_read :
    ∃ r : Recorded (Fin 2),
      Reaches step (fun r act => r.sys.missStillAbsent act ∧ r.sys.cleanVictim act)
        (initial 16 fun _ _ => 0) r ∧
      r.since 1 = 1 ∧ r.sys.pc 1 = .finished (.read 5 2 0) 0 [7, 7] ∧
      r.sys.cache.disk 6 0 = r.version 6 (r.returned 6) 0 ∧
      ∃ k, 1 ≤ k ∧ k < (r.versions 5).length ∧ [7, 7] = slice (r.version 5 k) 0 2 := by
  have h : (exec step (fun r act => r.sys.missStillAbsent act ∧ r.sys.cleanVictim act)
      (initial 16 fun _ _ => 0 : Recorded (Fin 2))
      [.start 0 (.write 5 (List.replicate 512 7) 0), .run 0 0, .run 0 0, .run 0 0, .run 0 0,
        .run 0 0, .run 0 0, .run 0 0, .start 1 (.read 5 2 0), .run 1 1, .run 1 1, .run 1 1]).map
        (fun r => (r.since 1, r.sys.pc 1, r.sys.cache.sectorToCache 6)) =
      some (1, .finished (.read 5 2 0) 0 [7, 7], none) := by
    decide +kernel
  obtain ⟨r, hexec, hv⟩ := map_eq_some_iff.mp h
  simp only [Prod.mk.injEq] at hv
  obtain ⟨hsnc, hpc, habs⟩ := hv
  have hr := reaches_of_exec hexec
  obtain ⟨hdisk, hread⟩ := device_current hr
  exact ⟨r, hr, hsnc, hpc, hdisk 6 (by decide) (slotOf_eq_none_iff.mp habs) 0 (by decide),
    hsnc ▸ hread 1 5 2 0 0 [7, 7] hpc⟩

/-- An action of one thread that fills sector after sector, each as a whole. -/
def fills (act : CacheAction (Fin 1)) : Bool :=
  match act with
  | .start _ a => a.whole 128
  | .run _ _ => true

theorem settled_of_fills {m : CacheSystem (Fin 1)}
    (hsize : m.cache.size = 128) (h : fills act) : m.settled act := by
  cases act with
  | start t a =>
    show a.whole m.cache.size
    rw [hsize]
    exact h
  | run t w =>
    rintro a i hpc - ⟨t', i', s', hb, -⟩
    obtain rfl : t' = t := Subsingleton.elim _ _
    rcases hpc with hpc | hpc <;> rw [hpc] at hb <;> cases hb

/-- The cache is full of sectors that have been written, and `cache_evict` has just given the entry
of sector 0 to another sector.  Sector 0 is not in the cache any more, and on the device it is what
it was before it was written. -/
theorem device_stale_after_retarget :
    ∃ r : Recorded (Fin 1),
      Reaches step (fun r act => r.sys.missStillAbsent act ∧ r.sys.settled act)
        (initial 128 fun _ _ => 0) r ∧
      (∀ i, r.sys.cache.sectors i ≠ some 0) ∧ r.sys.cache.disk 0 0 = 0 ∧
      r.version 0 (r.returned 0) 0 = 7 := by
  have h : (exec step (fun r act => r.sys.missStillAbsent act ∧ fills act)
      (initial 128 fun _ _ => 0 : Recorded (Fin 1))
      (((List.range 64).flatMap fun s =>
          .start 0 (.write s (List.replicate 512 7) 0) :: List.replicate 7 (.run 0 0)) ++
        .start 0 (.write 64 (List.replicate 512 7) 0) :: List.replicate 6 (.run 0 0))).map
        (fun r => (r.sys.cache.sectorToCache 0, r.sys.cache.disk 0 0,
          r.version 0 (r.returned 0) 0)) = some (none, 0, 7) := by
    decide +kernel
  obtain ⟨r, hexec, hv⟩ := map_eq_some_iff.mp h
  simp only [Prod.mk.injEq] at hv
  obtain ⟨habs, hdisk, hvrs⟩ := hv
  refine ⟨r, ?_, slotOf_eq_none_iff.mp habs, hdisk, hvrs⟩
  refine (reaches_of_exec hexec).imp (P := fun r => r.sys.SysInv ∧ r.sys.cache.size = 128)
    ⟨(inv_initial 128 _).sys, rfl⟩ ?_ fun r act hP hok => ⟨hok.1, settled_of_fills hP.2 hok.2⟩
  rintro r act r' ⟨hi, hsize⟩ ⟨habe, hfil⟩ hs
  refine ⟨?_, (step_size hi hs).trans hsize⟩
  obtain ⟨m', hm', rfl⟩ := map_eq_some_iff.mp hs
  have hsys := hi.step habe (fun t a e => by
    subst e
    exact (settled_of_fills hsize hfil : r.sys.settled (.start t a))) hm'
  cases act with
  | start | run => simpa using hsys

end Recorded

end Pintos
