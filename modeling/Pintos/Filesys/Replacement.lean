import Pintos.Filesys.Cache

/-! # Replacement

Which sector `lru_evict` of `filesys/cache.c` takes out.  `lru_update` should move the sectors that
have been accessed to the back of the queue, but it returns at once if the thread holds
`cache_table_lock`, and its only caller does (`lruUpdate_held`).  The queue has the sectors in the
order in which they were loaded. -/

namespace Pintos.Cache
open Slots Option List

def Resident (c : Cache) (s : ℕ) : Prop := ∃ i, c.sectors i = some s

/-- The sector `s` is taken out between `c` and `c'`. -/
def Evicted (c c' : Cache) (s : ℕ) : Prop := c.Resident s ∧ ¬ c'.Resident s

/-- A sector that is taken out has not been accessed since the last one was, unless all sectors in
the cache have.  `used` are those that have been accessed. -/
def EvictsUnused : Cache → List ℕ → List Access → Prop
  | _, _, [] => True
  | c, used, a :: as => ∃ out c', c.access a = some (out, c') ∧
      (∀ v, c.Evicted c' v → v ∉ used ∨ ∀ s, c.Resident s → s ∈ used) ∧
      ((∃ v, c.Evicted c' v) ∧ EvictsUnused c' [a.sector] as ∨
        (¬ ∃ v, c.Evicted c' v) ∧ EvictsUnused c' (a.sector :: used) as)

/-- Whenever a sector is to be loaded and the queue is full, the sector that was loaded first has not
been accessed since the last time, or all have. -/
def oldestUnused : (queue used sectors : List ℕ) → Bool
  | _, _, [] => true
  | queue, used, s :: ss =>
    if s ∈ queue then oldestUnused queue (s :: used) ss
    else if queue.length < CACHE_SIZE then oldestUnused (queue ++ [s]) (s :: used) ss
    else (queue.head?.all (· ∉ used) || queue.all (· ∈ used)) &&
      oldestUnused (queue.tail ++ [s]) [s] ss

variable {c c' : Cache} {a : Access} {s : ℕ} {as : List Access}

/-- What an access does to the queue. -/
inductive Requeues (q : List ℕ) (s : ℕ) : List ℕ → Prop
  | hit : s ∈ q → Requeues q s q
  | load : s ∉ q → q.length < CACHE_SIZE → Requeues q s (q ++ [s])
  | evict {v : ℕ} {rest : List ℕ} : s ∉ q → ¬ q.length < CACHE_SIZE → q = v :: rest →
      Requeues q s (rest ++ [s])

theorem WellFormed.resident_iff (hc : c.WellFormed) : c.Resident s ↔ s ∈ c.lru :=
  (hc.queue.mem s).symm

theorem WellFormed.length_lru (hc : c.WellFormed) (hf : Slots.freeSlot c.sectors = none) :
    c.lru.length = CACHE_SIZE := by
  rw [(hc.queue.perm hc.distinct).length_eq, filterMap_length_eq_length.mpr, length_finRange]
  exact fun i _ => isSome_iff_ne_none.mpr (ne_none_of_freeSlot hf i)

theorem Loads.requeues (h : Loads c s writing i c')
    (hc : c.WellFormed) : Requeues c.lru s c'.lru := by
  have habe : c.sectorToCache s = none → s ∉ c.lru := fun ha hs => by
    obtain ⟨j, hj⟩ := (hc.queue.mem s).mp hs
    exact slotOf_eq_none_iff.mp ha j hj
  cases h with
  | hit h => exact .hit ((hc.queue.mem s).mpr ⟨i, eq_some_of_slotOf h⟩)
  | free ha hf => exact .load (habe ha) (hc.queue.length_lt (eq_none_of_freeSlot hf))
  | evict ha hf hl hslot => exact .evict (habe ha) (by rw [hc.length_lru hf]; decide) hl

theorem WellFormed.access_requeues (hc : c.WellFormed) (hv : a.valid) (hs : a.sector < c.size) :
    ∃ out c', c.access a = some (out, c') ∧ c'.WellFormed ∧ c'.size = c.size ∧
      Requeues c.lru a.sector c'.lru := by
  obtain ⟨i, c1, hfind, hl⟩ := hc.findEntry_loads hs a.writing
  have hob := hl.obtained hc hs
  obtain ⟨hm, hact, hr, hw⟩ := hob.wellFormed.free i
  cases a with
  | read s size offset =>
    refine ⟨_, _, hc.access_read hs (of_decide_eq_true hv).2 hfind hob.wellFormed,
      WellFormed.lineUp ?_ s, hob.size, hl.requeues hc⟩
    exact hob.wellFormed.setEntry rfl hm hact hr hw
  | write s buf offset =>
    refine ⟨_, _, hc.access_write hs (of_decide_eq_true hv).2 hfind hob.wellFormed,
      WellFormed.lineUp ?_ s, hob.size, hl.requeues hc⟩
    exact WellFormed.setEntry hob.wellFormed (by exact rfl) (by exact rfl) hact hr hw

theorem WellFormed.evictsUnused_iff (hc : c.WellFormed)
    (has : ∀ a ∈ as, a.valid ∧ a.sector < c.size) (used : List ℕ) :
    EvictsUnused c used as ↔ oldestUnused c.lru used (as.map Access.sector) = true := by
  induction as generalizing c used with
  | nil => simp [EvictsUnused, oldestUnused]
  | cons a as ih =>
    obtain ⟨hv, hs⟩ := has a mem_cons_self
    obtain ⟨out, c', hacc, hc', hsize, hq⟩ := hc.access_requeues hv hs
    have ih := fun used => ih hc' (fun b hb => hsize ▸ has b (mem_cons_of_mem a hb)) used
    have hevi v : c.Evicted c' v ↔ v ∈ c.lru ∧ v ∉ c'.lru := by
      rw [Evicted, hc.resident_iff, hc'.resident_iff]
    have hstep : EvictsUnused c used (a :: as) ↔
        (∀ v, c.Evicted c' v → v ∉ used ∨ ∀ s ∈ c.lru, s ∈ used) ∧
          ((∃ v, c.Evicted c' v) ∧ EvictsUnused c' [a.sector] as ∨
            (¬ ∃ v, c.Evicted c' v) ∧ EvictsUnused c' (a.sector :: used) as) := by
      simp only [EvictsUnused, hacc, some.injEq, Prod.mk.injEq, hc.resident_iff]
      exact ⟨fun ⟨_, _, ⟨rfl, rfl⟩, h⟩ => h, fun h => ⟨_, _, ⟨rfl, rfl⟩, h⟩⟩
    rw [hstep, map_cons, oldestUnused]
    simp only [hevi, ih]
    generalize c'.lru = q' at hq
    cases hq with
    | hit hmem => simp [hmem]
    | load hmem hlen => simp +contextual [hmem, hlen]
    | @evict v rest hmem hlen hl =>
      have hndp := hc.queue.nodup
      rw [hl] at hmem hlen hndp ⊢
      obtain ⟨hva, hrest⟩ := not_or.mp (mem_cons.not.mp hmem)
      have hout u : u ∈ v :: rest ∧ u ∉ rest ++ [a.sector] ↔ u = v := by
        simp only [mem_cons, mem_append, not_mem_nil, or_false, not_or]
        constructor
        · rintro ⟨rfl | hu, hu', -⟩
          · rfl
          · exact absurd hu hu'
        · rintro rfl
          exact ⟨.inl rfl, (nodup_cons.mp hndp).1, Ne.symm hva⟩
      simp only [hout, if_neg hmem, if_neg hlen]
      simp

/-- Sectors are taken out in the order in which they were loaded, whether they have been accessed or
not. -/
theorem evictsUnused_cacheInit_iff {size : ℕ} (hsize : size < 2 ^ 32) (disk : ℕ → Block)
    (as : List Access) (has : ∀ a ∈ as, a.valid ∧ a.sector < size) :
    EvictsUnused (cacheInit size disk) [] as ↔ oldestUnused [] [] (as.map Access.sector) = true :=
  (wellFormed_cacheInit hsize disk).evictsUnused_iff has []

/-- Reads of the sectors `ss`. -/
def reads (ss : List ℕ) : List Access := ss.map fun s => .read s 1 0

theorem valid_reads (h : ∀ s ∈ ss, s < 128) : ∀ a ∈ reads ss, a.valid ∧ a.sector < 128 := by
  intro a ha
  obtain ⟨s, hs, rfl⟩ := mem_map.mp ha
  have := h s hs
  exact ⟨decide_eq_true ⟨by omega, by decide⟩, this⟩

theorem evictsUnused_scan : EvictsUnused (cacheInit 128 fun _ _ => 0) [] (reads (List.range 128)) :=
  (evictsUnused_cacheInit_iff (by decide) _ _ (valid_reads (by simp))).mpr (by decide +kernel)

/-- Sector 1 is read after sector 64 has been loaded in the place of sector 0, and then it is taken
out for sector 65, although sectors 2 to 63 have not been read. -/
theorem not_evictsUnused_reread : ¬ EvictsUnused (cacheInit 128 fun _ _ => 0) []
    (reads (List.range 65 ++ [1, 65])) := by
  rw [(wellFormed_cacheInit (by decide) _).evictsUnused_iff (valid_reads (by decide))]
  decide +kernel

end Pintos.Cache
