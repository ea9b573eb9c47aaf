import Pintos.Filesys.CacheTasks

/-! # The monitors of the buffer cache

Every monitor is used under the lock of its entry and left free, so that nobody ever waits on a
condition variable.

* **Invariant.**  Each step keeps `Inv` (`Inv.step`): the places of the threads, the locks and the
  monitors go together.
* **Result.**  `monitors_free`, about all runs. -/


namespace Pintos
open Bytes Slots Runs Function Option CacheSystem

namespace CacheKernel

variable {T : Type} [DecidableEq T] {k k' : CacheKernel T} {t t' w : T} {a : Access} {i j : Slot}

/-! ### Every step keeps the invariant -/

section keep
variable {c : Cache} {table : Option T} {f : Slot → Option T} {p : CachePc} {τ : Task}

@[simp] theorem next_holdsTable : (k.next t c table f p τ).holdsTable t = τ.holdsTable p := by
  simp [holdsTable, next]

@[simp] theorem next_heldEntry : (k.next t c table f p τ).heldEntry t = τ.heldEntry p := by
  simp [heldEntry, next]

@[simp] theorem next_task : (k.next t c table f p τ).task t = τ := by
  simp [next]

@[simp] theorem next_pc : (k.next t c table f p τ).sys.pc t = p := by
  simp [next]

omit [DecidableEq T] in
theorem holds_of_placed (h : (k.task t).placed = true) :
    k.holdsTable t = (k.sys.pc t).holdsTable ∧ k.heldEntry t = (k.sys.pc t).heldEntry := by
  unfold holdsTable heldEntry
  cases hτ : k.task t with
  | call => exact ⟨rfl, rfl⟩
  | readAhead p =>
    rw [hτ] at h
    cases p with
    | getting i => exact ⟨rfl, rfl⟩
    | _ => cases h
  | _ => rw [hτ] at h; cases h

/-- A step of `t` leaves the other threads alone. -/
structure Aside (t : T) (k k' : CacheKernel T) : Prop extends
    CacheSystem.SameOthers t k.sys k'.sys where
  task : ∀ t', t' ≠ t → k'.task t' = k.task t'

theorem aside_next (h : LockMove k.sys t table f) : Aside t k (k.next t c table f p τ) :=
  ⟨h.sameOthers, fun t' e => by simp [next, e]⟩

section
variable (h : k.Inv) (hself : k'.sys.HoldsLocks t (k'.holdsTable t) (k'.heldEntry t))
  (haside : Aside t k k') (hgoes : (k'.sys.pc t).waits = false)
  (hout : (k'.task t).placed = false → k'.sys.pc t = .idle)
include h hself haside hgoes hout

theorem Inv.of_step (hsame : ∀ j, (k.sys.cache.entries j).SameMonitor (k'.sys.cache.entries j) ∨
      k.heldEntry t = some j ∨ k'.heldEntry t = some j)
    (hin : ∀ a i stage, k'.task t = .monitor a i stage → stage.Fits a (k'.sys.cache.entries i))
    (hfree : ∀ j, k.heldEntry t = some j ∨ k'.heldEntry t = some j →
      (∀ a stage, k'.task t ≠ .monitor a j stage) → (k'.sys.cache.entries j).Free) : k'.Inv := by
  have howns : ∀ t', k'.sys.HoldsLocks t' (k'.holdsTable t') (k'.heldEntry t') := by
    intro t'
    by_cases e : t' = t
    · exact e ▸ hself
    · unfold holdsTable heldEntry
      rw [haside.task t' e, haside.pc t' e]
      exact ⟨(haside.table t' e).trans (h.owns t').1,
        fun i => (haside.entry t' e i).trans ((h.owns t').2 i)⟩
  -- the monitor that another thread is in is not touched
  have hoth : ∀ {t' a i stage}, t' ≠ t → k.task t' = .monitor a i stage →
      (k.sys.cache.entries i).SameMonitor (k'.sys.cache.entries i) := by
    intro t' a i stage e ht'
    have hheld : ∀ p, (Task.monitor a i stage).heldEntry p = some i :=
      fun p => (h.inside t' a i stage ht').heldEntry p
    refine (hsame i).resolve_right ?_
    rintro (ht | ht)
    · exact e (h.unique ht (by unfold heldEntry; rw [ht', hheld]))
    · have ht'' : k'.heldEntry t' = some i := by
        unfold heldEntry
        rw [haside.task t' e, ht', hheld]
      exact e (some.inj ((((howns t').2 i).mpr ht'').symm.trans (((howns t).2 i).mpr ht)))
  refine ⟨howns, fun t' => ?_, fun t' ht' => ?_, fun t' a i stage ht' => ?_, fun j hj => ?_⟩
  · by_cases e : t' = t
    · exact e ▸ hgoes
    · rw [haside.pc t' e]
      exact h.goes t'
  · by_cases e : t' = t
    · subst e
      exact hout ht'
    · rw [haside.pc t' e]
      exact h.outside t' (haside.task t' e ▸ ht')
  · by_cases e : t' = t
    · subst e
      exact hin a i stage ht'
    · rw [haside.task t' e] at ht'
      obtain ⟨mode, active, hs, he⟩ := h.inside t' a i stage ht'
      exact ⟨mode, active, hs, (hoth e ht').inMonitor he⟩
  · by_cases hheld : k.heldEntry t = some j ∨ k'.heldEntry t = some j
    · exact hfree j hheld fun a stage => hj t a stage
    · refine ((hsame j).resolve_right hheld).inMonitor (h.free j fun t' a stage ht' => ?_)
      by_cases e : t' = t
      · subst e
        refine hheld (.inl ?_)
        unfold heldEntry
        rw [ht']
        exact (h.inside t' a j stage ht').heldEntry _
      · exact hj t' a stage ((haside.task t' e).trans ht')

/-- A step outside of the monitors that leaves them as they are. -/
theorem Inv.of_same (hsame : SameMonitors k.sys.cache k'.sys.cache)
    (hno : ∀ a i stage, k.task t ≠ .monitor a i stage)
    (hin : ∀ a i stage, k'.task t = .monitor a i stage → stage = .test ∧
      k'.heldEntry t = some i) : k'.Inv := by
  have hfree : ∀ j, k.heldEntry t = some j ∨ k'.heldEntry t = some j →
      (k'.sys.cache.entries j).Free := by
    intro j hj
    refine (hsame j).inMonitor ?_
    by_cases hbfr : k.heldEntry t = some j
    · exact h.free_of_held hbfr fun a stage => hno a j stage
    · refine h.free_of_unlocked ?_
      have haft := (hself.2 j).mpr (hj.resolve_left hbfr)
      cases hlock : k.sys.entryLock j with
      | none => rfl
      | some t' =>
        by_cases e : t' = t
        · exact absurd (((h.owns t).2 j).mp (e ▸ hlock)) hbfr
        · have := ((haside.entry t' e j).mpr hlock).symm.trans haft
          exact absurd (some.inj this) e
  refine h.of_step hself haside hgoes hout (fun j => .inl (hsame j)) (fun a i stage ht => ?_)
    fun j hj _ => hfree j hj
  obtain ⟨rfl, hi⟩ := hin a i stage ht
  exact ⟨.unlock, 0, rfl, hfree i (.inr hi)⟩

end

theorem sameMonitors_ran (h : Ran m t p m')
    (hp : p.enters = false) (hfree : ∀ a i old, p = .writeBack a i old → (m.cache.entries i).Free) :
    SameMonitors m.cache m'.cache := by
  have hset : ∀ {c : Cache} {i : Slot} {e : CacheEntry}, c.entries = m.cache.entries →
      (m.cache.entries i).SameMonitor e → SameMonitors m.cache (c.setEntry i e) := by
    intro c i e hc he j
    by_cases hj : j = i
    · subst hj
      simpa using he
    · simp only [Cache.setEntry_entries, update_of_ne hj, hc]
      exact .refl _
  cases h with
  | hit | skip | fetch => cases hp
  | tryFree | retarget => exact hset rfl ⟨rfl, rfl, rfl, rfl⟩
  | @writeBack a i old =>
    obtain ⟨hm, -⟩ := hfree a i old rfl
    exact hset rfl ⟨hm.symm, rfl, rfl, rfl⟩
  | _ => exact fun j => .refl _

omit [DecidableEq T] in
theorem Arrives.lockMove (h : Arrives k t a i c f) : LockMove k.sys t k.sys.table f := by
  cases h with
  | hit _ hlock => exact .takeEntry i hlock
  | fetch => exact .none

theorem Arrives.holds (h : Arrives k t a i c f) (hk : k.Inv) (hτ : (k.task t).placed = true) :
    (k.sys.next t c k.sys.table f p).HoldsLocks t false (some i) := by
  have howns := hk.owns t
  rw [(holds_of_placed hτ).1, (holds_of_placed hτ).2] at howns
  cases h with
  | hit hpc hlock =>
    rw [hpc] at howns
    exact howns.takeEntry
  | fetch hpc =>
    rw [hpc] at howns
    exact howns.keep

omit [DecidableEq T] in
theorem Arrives.sameMonitors (h : Arrives k t a i c f) : SameMonitors k.sys.cache c := by
  cases h with
  | hit => exact fun j => .refl _
  | fetch _ hsame => exact hsame

omit [DecidableEq T] in
theorem Inv.holds_at (h : k.Inv) (hτ : k.task t = τ) :
    k.sys.HoldsLocks t (τ.holdsTable (k.sys.pc t)) (τ.heldEntry (k.sys.pc t)) :=
  hτ ▸ h.owns t

theorem Inv.of_next (h : k.Inv) (hlock : LockMove k.sys t table f)
    (hself : (k.sys.next t c table f p).HoldsLocks t (τ.holdsTable p) (τ.heldEntry p))
    (hgoes : p.waits = false) (hout : τ.placed = false → p = .idle)
    (hsame : SameMonitors k.sys.cache c) (hno : ∀ a i stage, k.task t ≠ .monitor a i stage)
    (hin : ∀ a i stage, τ = .monitor a i stage → stage = .test ∧ τ.heldEntry p = some i) :
    (k.next t c table f p τ).Inv := by
  refine h.of_same ?_ (aside_next hlock) ?_ (fun hτ => ?_) hsame hno fun a i stage ht => ?_
  · rw [next_holdsTable, next_heldEntry]
    exact hself
  · rwa [next_pc]
  · rw [next_task] at hτ
    rw [next_pc]
    exact hout hτ
  · rw [next_task] at ht
    rw [next_heldEntry]
    exact hin a i stage ht

theorem Inv.of_inside (h : k.Inv) (hτ : k.task t = .monitor a i stage)
    (hc : ∀ j, j ≠ i → c.entries j = k.sys.cache.entries j)
    (hheld : τ.holdsTable p = false ∧ τ.heldEntry p = some i) (hgoes : p.waits = false)
    (hout : τ.placed = false → p = .idle)
    (hin : (∃ stage', τ = .monitor a i stage' ∧ stage'.Fits a (c.entries i)) ∨
      τ = .call ∧ (c.entries i).Free) : (k.next t c k.sys.table k.sys.entryLock p τ).Inv := by
  have hbfr : k.heldEntry t = some i := by
    unfold heldEntry
    rw [hτ]
    exact (h.inside t a i stage hτ).heldEntry _
  have howns := h.owns t
  rw [hbfr, show k.holdsTable t = false by unfold holdsTable; rw [hτ]; rfl] at howns
  refine h.of_step ?_ (aside_next .none) ?_ (fun hτ' => ?_) (fun j => ?_)
    (fun a' i' stage' ht => ?_) fun j hj hno => ?_
  · rw [next_holdsTable, next_heldEntry, hheld.1, hheld.2]
    exact howns
  · rwa [next_pc]
  · rw [next_task] at hτ'
    rw [next_pc]
    exact hout hτ'
  · by_cases e : j = i
    · exact .inr (.inl (e ▸ hbfr))
    · exact .inl (hc j e ▸ .refl _)
  · rw [next_task] at ht
    obtain ⟨stage'', rfl, hfits⟩ | ⟨rfl, -⟩ := hin
    · obtain ⟨rfl, rfl, rfl⟩ := Task.monitor.inj ht
      exact hfits
    · cases ht
  · have hj : j = i := by
      rw [hbfr, next_heldEntry, hheld.2, or_self_iff] at hj
      exact (some.inj hj).symm
    subst hj
    obtain ⟨stage', rfl, -⟩ | ⟨-, hfree⟩ := hin
    · exact absurd next_task (hno a stage')
    · exact hfree

theorem Inv.of_did (h : k.Inv) (hdid : Did k t k') : k'.Inv := by
  have hrefl : ∀ c, SameMonitors c c := fun c j => .refl _
  have heni : ∀ {c c' : Cache}, c'.entries = c.entries → SameMonitors c c' :=
    fun e j => e ▸ .refl _
  have hno : ∀ {τ}, k.task t = τ → (∀ a i stage, τ ≠ .monitor a i stage) →
      ∀ a i stage, k.task t ≠ .monitor a i stage := fun e hne a i stage ht =>
    hne a i stage (e.symm.trans ht)
  cases hdid with
  | @run m hτ hens hran =>
    obtain ⟨htab, hent⟩ := holds_of_placed hτ
    have howns := h.owns t
    rw [htab, hent] at howns
    obtain ⟨hself, hote⟩ := hran.owns howns
    have hno : ∀ a i stage, k.task t ≠ .monitor a i stage := by
      intro a i stage ht
      rw [ht] at hτ
      cases hτ
    obtain ⟨htab', hent'⟩ := holds_of_placed (k := ⟨m, k.task⟩) hτ
    refine h.of_same ?_ ⟨hote, fun _ _ => rfl⟩ hran.goes
      (fun hp => absurd (hτ.symm.trans hp) (by simp)) ?_ hno
      fun a i stage ht => absurd ht (hno a i stage)
    · rw [htab', hent']
      exact hself
    · refine sameMonitors_ran hran hens fun a i old hpc => ?_
      exact h.free_of_held (by rw [hent, hpc]; rfl) fun a stage => hno a i stage
  | enter hτ harr =>
    refine h.of_next harr.lockMove (harr.holds h (by rw [hτ]; rfl)) rfl (fun _ => rfl)
      harr.sameMonitors (hno hτ nofun) fun a' i' stage ht => ?_
    obtain ⟨rfl, rfl, rfl⟩ := Task.monitor.inj ht
    exact ⟨rfl, rfl⟩
  | refuse hτ harr =>
    exact h.of_next harr.lockMove (harr.holds h (by rw [hτ]; rfl)) rfl nofun harr.sameMonitors
      (hno hτ nofun) nofun
  | inside hτ hc hfits =>
    exact h.of_inside hτ hc ⟨rfl, hfits.heldEntry _⟩ rfl (fun _ => rfl) (.inl ⟨_, rfl, hfits⟩)
  | exit hτ hc hfree => exact h.of_inside hτ hc ⟨rfl, rfl⟩ rfl nofun (.inr ⟨rfl, hfree⟩)
  | aheadLock hτ hp hfree =>
    rcases hp with rfl | rfl <;>
      exact h.of_next (.takeTable hfree) (h.holds_at hτ).takeTable rfl (fun _ => rfl) (hrefl _)
        (hno hτ nofun) nofun
  | aheadScan hτ =>
    exact h.of_next .none (h.holds_at hτ).keep rfl (fun _ => rfl) (hrefl _) (hno hτ nofun) nofun
  | aheadEnd hτ hheld hc =>
    exact h.of_next (.giveTable hheld) (h.holds_at hτ).giveTable rfl nofun (heni hc)
      (hno hτ nofun) nofun
  | aheadGet hτ hc hp =>
    obtain ⟨j, rfl⟩ | ⟨v, rfl⟩ := hp <;>
      exact h.of_next .none (h.holds_at hτ).keep rfl nofun (heni hc) (hno hτ nofun) nofun
  | aheadGot hτ harr =>
    exact h.of_next harr.lockMove (harr.holds h (by rw [hτ]; rfl)) rfl (fun _ => rfl)
      harr.sameMonitors (hno hτ nofun) nofun
  | @aheadUnlock i j hτ hheld =>
    exact h.of_next (.giveEntry j hheld) (h.holds_at hτ).giveEntry rfl (fun _ => rfl) (hrefl _)
      (hno hτ nofun) nofun
  | behindLock hτ hfree =>
    exact h.of_next (.takeTable hfree) (h.holds_at hτ).takeTable rfl (fun _ => rfl) (hrefl _)
      (hno hτ nofun) nofun
  | behindScan hτ | behindDirty hτ =>
    exact h.of_next .none (h.holds_at hτ).keep rfl (fun _ => rfl) (hrefl _) (hno hτ nofun) nofun
  | behindEnd hτ hheld =>
    exact h.of_next (.giveTable hheld) (h.holds_at hτ).giveTable rfl nofun (hrefl _)
      (hno hτ nofun) nofun
  | flushScan hτ hτ' =>
    obtain rfl | ⟨j, rfl⟩ | ⟨j, rfl⟩ := hτ' <;>
      exact h.of_next .none (h.holds_at hτ).keep rfl (fun _ => rfl) (hrefl _) (hno hτ nofun) nofun
  | @outLock τ i hw hτ hlock =>
    obtain rfl | rfl := hw <;>
      exact h.of_next (.takeEntry i hlock) (h.holds_at hτ).takeEntry rfl (fun _ => rfl) (hrefl _)
        (hno hτ nofun) nofun
  | outWrite hw hτ hsame =>
    obtain rfl | rfl := hw <;>
      exact h.of_next .none (h.holds_at hτ).keep rfl (fun _ => rfl) hsame (hno hτ nofun) nofun
  | @outUnlock τ i hw hτ hheld =>
    obtain rfl | rfl := hw <;>
      exact h.of_next (.giveEntry i hheld) (h.holds_at hτ).giveEntry rfl (fun _ => rfl) (hrefl _)
        (hno hτ nofun) nofun

omit [DecidableEq T] in
theorem idle_iff : k.idle t = true ↔ k.task t = .call ∧ k.sys.pc t = .idle := by
  simp [idle]

theorem Inv.step {act : KernelAction T} (h : k.Inv) (hs : k.step act = some k') : k'.Inv := by
  have hsta : ∀ {t p τ}, k.idle t = true → p.holdsTable = false → p.heldEntry = none →
      p.waits = false → (τ = .call ∨ p = .idle ∧ (τ = .readAhead .start ∨ τ = .writeBehind .start ∨
        τ = .flushCache (.scan 0))) →
      (k.next t k.sys.cache k.sys.table k.sys.entryLock p τ).Inv := by
    intro t p τ hidle htab hent hgoes hτ
    obtain ⟨htask, hpc⟩ := idle_iff.mp hidle
    have howns := h.holds_at htask
    rw [hpc] at howns
    have hno : ∀ a i stage, k.task t ≠ .monitor a i stage := by simp [htask]
    obtain rfl | ⟨rfl, rfl | rfl | rfl⟩ := hτ
    · refine h.of_next .none ?_ hgoes nofun (fun j => .refl _) hno nofun
      show HoldsLocks _ t p.holdsTable p.heldEntry
      rw [htab, hent]
      exact howns
    all_goals
      exact h.of_next .none howns.keep rfl (fun _ => rfl) (fun j => .refl _) hno nofun
  cases act with
  | start t a =>
    simp only [CacheKernel.step, ite_none_right_eq_some, some.injEq] at hs
    obtain ⟨⟨hidle, -⟩, rfl⟩ := hs
    have hnext := hsta (p := .lookup a) hidle rfl rfl rfl (.inl rfl)
    unfold next at hnext
    rwa [← (idle_iff.mp hidle).1, update_eq_self] at hnext
  | readAhead t =>
    obtain ⟨hidle, ⟨⟩⟩ := ite_none_right_eq_some.mp hs
    have hnext := hsta hidle rfl rfl rfl (.inr ⟨rfl, .inl rfl⟩)
    rwa [← next_of_idle (idle_iff.mp hidle).2] at hnext
  | writeBehind t =>
    obtain ⟨hidle, ⟨⟩⟩ := ite_none_right_eq_some.mp hs
    have hnext := hsta hidle rfl rfl rfl (.inr ⟨rfl, .inr (.inl rfl)⟩)
    rwa [← next_of_idle (idle_iff.mp hidle).2] at hnext
  | flush t =>
    obtain ⟨hidle, ⟨⟩⟩ := ite_none_right_eq_some.mp hs
    have hnext := hsta hidle rfl rfl rfl (.inr ⟨rfl, .inr (.inr rfl)⟩)
    rwa [← next_of_idle (idle_iff.mp hidle).2] at hnext
  | run t w => exact h.of_did (h.did hs)

omit [DecidableEq T] in
theorem inv_boot (size : ℕ) (disk : ℕ → Block) : (boot size disk : CacheKernel T).Inv where
  owns := owns_quiet _
  goes := fun _ => rfl
  outside := fun _ _ => rfl
  inside := nofun
  free := fun _ _ => CacheEntry.free_init

end keep

/-- **The monitors are never in use by two threads.**  In every run, an entry whose lock is free has a
free monitor.  No thread ever waits on a condition variable, the counters stay at 0 and 1, and the
assertions inside the monitor and on a free slot hold. -/
theorem monitors_free {size : ℕ} {disk : ℕ → Block} {k : CacheKernel T}
    (hr : Reaches step (fun _ _ => True) (boot size disk) k) :
    (∀ i, k.sys.entryLock i = none → (k.sys.cache.entries i).mode = .unlock ∧
      (k.sys.cache.entries i).readerActive = 0 ∧ (k.sys.cache.entries i).readerWaiting = 0 ∧
      (k.sys.cache.entries i).writerWaiting = 0) ∧
    (∀ t a i stage, k.task t = .monitor a i stage →
      stage ≠ .parking ∧ stage ≠ .waiting ∧ stage ≠ .woken ∧ ∀ w, (k.runThread t w).isSome) ∧
    (∀ t, (k.sys.pc t).waits = false) ∧
    (∀ i, (k.sys.cache.entries i).readerActive ≤ 1 ∧ (k.sys.cache.entries i).readerWaiting = 0 ∧
      (k.sys.cache.entries i).writerWaiting = 0) ∧
    ∀ t a i, k.sys.pc t = .tryFree a i → k.sys.entryLock i = none →
      (k.sys.cache.entries i).mode = .unlock ∧ (k.sys.cache.entries i).readerActive = 0 ∧
        (k.sys.cache.entries i).writerWaiting = 0 := by
  have h : k.Inv := hr.invariant (inv_boot size disk) fun _ _ _ h _ hs => h.step hs
  refine ⟨fun i hi => h.free_of_unlocked hi, fun t a i stage ht => ?_, h.goes, fun i => ?_,
    fun t a i _ hi => ?_⟩
  · have hfits := h.inside t a i stage ht
    have hstg : stage ≠ .parking ∧ stage ≠ .waiting ∧ stage ≠ .woken := by
      obtain ⟨mode, active, hs, -⟩ := hfits
      refine ⟨?_, ?_, ?_⟩ <;> rintro rfl <;> cases hs
    refine ⟨hstg.1, hstg.2.1, hstg.2.2, fun w => ?_⟩
    obtain ⟨k', hk', -⟩ := did_of_monitor ht (h.outside t (by rw [ht]; rfl)) hfits w
    simp [runThread, ht, hk']
  · by_cases hin : ∃ t a stage, k.task t = .monitor a i stage
    · obtain ⟨t, a, stage, ht⟩ := hin
      obtain ⟨mode, active, hs, -, hact, hr, hw⟩ := h.inside t a i stage ht
      refine ⟨?_, hr, hw⟩
      rw [hact]
      cases stage <;> cases a <;> simp [Stage.expected, Access.writing] at hs <;> simp [← hs.2]
    · obtain ⟨-, hact, hr, hw⟩ := h.free i fun t a stage ht => hin ⟨t, a, stage, ht⟩
      exact ⟨by rw [hact]; decide, hr, hw⟩
  · obtain ⟨hm, hact, -, hw⟩ := h.free_of_unlocked hi
    exact ⟨hm, hact, hw⟩

/-- One thread has written a sector, and `write_behind` is about to write it to the device. -/
theorem monitors_free_write_behind :
    ∃ k : CacheKernel (Fin 2),
      Reaches step (fun _ _ => True) (boot 16 fun _ _ => 0) k ∧
      k.task 1 = .writeBehind (.writing 0) ∧
      k.task 0 = .call ∧ (k.sys.cache.entries 0).dirty = true ∧
      k.sys.entryLock 1 = none ∧ (k.sys.cache.entries 1).mode = .unlock ∧
      (k.sys.cache.entries 0).readerActive ≤ 1 := by
  have h : (exec step (fun _ _ => True) (boot 16 fun _ _ => 0 : CacheKernel (Fin 2))
      ([.start 0 (.write 5 (List.replicate 512 7) 0)] ++ List.replicate 12 (.run 0 0) ++
        [.writeBehind 1, .run 1 1, .run 1 1, .run 1 1])).map
        (fun k => (k.task 1, k.task 0, (k.sys.cache.entries 0).dirty, k.sys.entryLock 1)) =
      some (.writeBehind (.writing 0), .call, true, none) := by
    decide +kernel
  obtain ⟨k, hexec, hv⟩ := map_eq_some_iff.mp h
  simp only [Prod.mk.injEq] at hv
  obtain ⟨h1, h0, hd, hlock⟩ := hv
  have hr := reaches_of_exec hexec
  obtain ⟨hfree, -, -, hcou, -⟩ := monitors_free hr
  exact ⟨k, hr, h1, h0, hd, hlock, (hfree 1 hlock).1, (hcou 0).1⟩

end CacheKernel

end Pintos
