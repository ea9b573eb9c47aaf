import Mathlib.Data.Rat.Floor
import Pintos.Threads.Mlfqs

/-! # Priorities and reports of the multi-level feedback queue

What `thread_update_priority_in_mlfqs` sets, and what `thread_get_recent_cpu` returns.

* **Rounding.**  `fixedp_to_int_ceiled` adds one to a quotient that has been rounded towards zero.
  Below zero that is one more than the ceiling (`fixedpToIntCeiled_eq`).
* **Overflow.**  `thread_get_recent_cpu` multiplies by 100 before it scales down, so that it cannot
  report much more than 1310.  A thread with the highest niceness gets there while it waits
  (`Waits`): every second adds 20, and less and less is taken off as the load average rises. -/

namespace Pintos
open Checked Runs Function Option List

/-- Converts to the nearest integer. -/
def fixedpToIntNearest (x : ℤ) : Option ℤ := do
  let y ← signed 32 (if 0 ≤ x then x + fpF / 2 else x - fpF / 2)
  signed 32 (y.tdiv fpF)

namespace Mlfqs

variable {T : Type} [DecidableEq T] {s s' : Mlfqs T} {t t' : T} {x n : ℤ}

/-- 100 times `recent_cpu` of the running thread. -/
def threadGetRecentCpu (s : Mlfqs T) : Option ℤ := do
  let x ← fixedpMultiplyWithInt (s.recentCpu s.cur) 100
  fixedpToIntNearest x

/-! ### Priorities -/

/-- `PRI_MAX - ⌈recent_cpu / 4⌉ - 2 * nice` within the bounds. -/
def lawPriority (recentCpu nice : ℤ) : ℤ :=
  max PRI_MIN (min PRI_MAX (PRI_MAX - ⌈(recentCpu.tdiv 4 : ℚ) / fpF⌉ - 2 * nice))

/-- The quotient is not rounded up too far, or the priority is at a bound anyway. -/
def CeilHarmless (recentCpu nice : ℤ) : Prop :=
  0 ≤ recentCpu.tdiv 4 ∨ fpF ∣ recentCpu.tdiv 4 ∨
    ⌈(recentCpu.tdiv 4 : ℚ) / fpF⌉ + 2 * nice < 0 ∨
    PRI_MAX ≤ ⌈(recentCpu.tdiv 4 : ℚ) / fpF⌉ + 2 * nice

theorem ceil_div_fpF (q : ℤ) : ⌈(q : ℚ) / fpF⌉ = -(-q / 16384) := by
  have hceil := Rat.ceil_intCast_div_natCast q 16384
  exact_mod_cast hceil

theorem fixedpToIntCeiled_eq (hx : Fits 32 x) : fixedpToIntCeiled x =
    some (⌈(x : ℚ) / fpF⌉ + if x < 0 ∧ ¬ fpF ∣ x then 1 else 0) := by
  rw [ceil_div_fpF, fixedpToIntCeiled, fpF_eq]
  have hrnd {y : ℤ} (h : y = -(-x / 16384) + if x < 0 ∧ ¬ 16384 ∣ x then 1 else 0) :
      signed 32 y = some (-(-x / 16384) + if x < 0 ∧ ¬ 16384 ∣ x then 1 else 0) := by
    rw [← h, signed_eq]
    rw [fits_32] at hx ⊢
    split_ifs at h <;> omega
  have hdiv : x.tdiv 16384 = if 0 ≤ x then x / 16384 else -(-x / 16384) := by
    split_ifs with h0
    · exact Int.tdiv_eq_ediv_of_nonneg h0
    · rw [← neg_neg x, Int.neg_tdiv, Int.tdiv_eq_ediv_of_nonneg (by omega), neg_neg]
  have hmod := Int.mul_tdiv_add_tmod x 16384
  by_cases hm : x.tmod 16384 = 0
  · rw [if_pos hm]
    exact hrnd (by split_ifs <;> omega)
  · rw [if_neg hm]
    exact hrnd (by split_ifs <;> omega)

theorem eq_of_signed {y : ℤ} (h : signed 32 x = some y) : x = y := by
  unfold signed at h
  split_ifs at h
  exact some.inj h

theorem fits_of_signed {y : ℤ} (h : signed 32 x = some y) : Fits 32 x := by
  unfold signed at h
  split_ifs at h with hx
  exact hx

theorem penalized_eq_ceil (hx : Fits 32 x) (hn0 : NICE_MIN ≤ n) (hn1 : n ≤ NICE_MAX) :
    penalized x n = some (PRI_MAX - (⌈(x.tdiv 4 : ℚ) / fpF⌉ +
      if x.tdiv 4 < 0 ∧ ¬ fpF ∣ x.tdiv 4 then 1 else 0) - n * 2) := by
  obtain ⟨p, hp⟩ := penalized_eq hx hn0 hn1
  rw [hp]
  have h4 : (0 : ℤ) < 4 := by decide
  simp only [penalized, fixedpDivideByInt_eq hx h4, fixedpToIntCeiled_eq (hx.tdiv h4), bind_eq_bind,
    bind_some, bind_eq_some_iff] at hp
  obtain ⟨a, ha, b, hb, hp⟩ := hp
  rw [← eq_of_signed hp, ← eq_of_signed ha, ← eq_of_signed hb]

theorem lawPriority_le {y : ℤ} (h : x ≤ y) (n : ℤ) : lawPriority y n ≤ lawPriority x n := by
  have hq : x.tdiv 4 ≤ y.tdiv 4 := Int.tdiv_le_tdiv (by decide) h
  unfold lawPriority
  rw [ceil_div_fpF, ceil_div_fpF]
  omega

/-- **The priority law.**  The priority that is set is that of the law exactly when the quotient of
`recent_cpu` is not negative, or has no fraction, or the priority is cut off in both cases; the law
itself never gives a higher priority to a higher `recent_cpu`. -/
theorem priority_law_iff (s : Mlfqs T) (t : T) (hidle : s.idle ≠ some t)
    (hx : Fits 32 (s.recentCpu t)) (hn0 : NICE_MIN ≤ s.nice t) (hn1 : s.nice t ≤ NICE_MAX) :
    (s.threadUpdatePriorityInMlfqs t = some { s with
        priority := update s.priority t (lawPriority (s.recentCpu t) (s.nice t)) } ↔
      CeilHarmless (s.recentCpu t) (s.nice t)) ∧
    ∀ x, s.recentCpu t ≤ x →
      lawPriority x (s.nice t) ≤ lawPriority (s.recentCpu t) (s.nice t) := by
  refine ⟨?_, fun x h => lawPriority_le h _⟩
  have hsame (p q : ℤ) : (some { s with priority := update s.priority t p } : Option (Mlfqs T)) =
      some { s with priority := update s.priority t q } ↔ p = q := by
    refine ⟨fun h => ?_, fun h => h ▸ rfl⟩
    simpa only [update_self] using congrFun (congrArg Mlfqs.priority (some.inj h)) t
  simp only [threadUpdatePriorityInMlfqs, if_neg hidle, penalized_eq_ceil hx hn0 hn1, bind_eq_bind,
    bind_some, hsame]
  unfold CeilHarmless lawPriority clamped PRI_MIN PRI_MAX
  rw [fpF_eq]
  split_ifs <;> omega

/-- One thread with the given `recent_cpu`. -/
def oneThread (recentCpu : ℤ) : Mlfqs Unit :=
  ⟨0, 0, fun _ => recentCpu, fun _ => 0, fun _ => 0, [()], [], (), none⟩

theorem priority_law_eight : (oneThread (8 * fpF)).threadUpdatePriorityInMlfqs () =
    some { oneThread (8 * fpF) with priority := update (fun _ => 0) () (lawPriority (8 * fpF) 0) } :=
  (priority_law_iff (oneThread (8 * fpF)) () (by decide) (by decide) (by decide) (by decide)).1.mpr
    (.inl (by decide))

/-- With a little less than zero the priority is 62, and with zero it is 63. -/
theorem priority_rises_at_zero : lawPriority (-4) 0 = 63 ∧
    ((oneThread (-4)).threadUpdatePriorityInMlfqs ()).map (·.priority ()) = some 62 ∧
    ((oneThread 0).threadUpdatePriorityInMlfqs ()).map (·.priority ()) = some 63 := by
  rw [lawPriority, ceil_div_fpF]
  decide

/-! ### Reports -/

omit [DecidableEq T] in
/-- **Reports.**  `thread_get_recent_cpu` returns the integer nearest to 100 times `recent_cpu`
exactly when `recent_cpu` is at most 21474754, in units of the fixed-point numbers; otherwise it
overflows. -/
theorem reports_nearest_iff (s : Mlfqs T) :
    (∃ r, s.threadGetRecentCpu = some r ∧ |r * fpF - 100 * s.recentCpu s.cur| ≤ fpF / 2) ↔
      |s.recentCpu s.cur| ≤ 21474754 := by
  unfold threadGetRecentCpu
  generalize s.recentCpu s.cur = x
  simp only [fixedpToIntNearest, fpF_eq, bind_eq_bind, bind_eq_some_iff]
  constructor
  · rintro ⟨r, ⟨y, hy, z, hz, -⟩, -⟩
    have h1 := fits_of_signed hy
    obtain rfl := eq_of_signed hy
    have h2 := fits_of_signed hz
    rw [fits_32] at h1 h2
    exact abs_le.mpr (by split_ifs at h2 <;> omega)
  · intro h
    obtain ⟨hlo, hhi⟩ := abs_le.mp h
    -- the half is added on the side that is away from zero
    obtain ⟨z, hz, hr⟩ : ∃ z, (if 0 ≤ x * 100 then x * 100 + 16384 / 2 else x * 100 - 16384 / 2) = z ∧
        |z.tdiv 16384 * 16384 - 100 * x| ≤ 16384 / 2 := by
      refine ⟨_, rfl, abs_le.mpr ?_⟩
      split_ifs
      · rw [Int.tdiv_eq_ediv_of_nonneg (by omega)]
        omega
      · rw [← neg_neg (x * 100 - _), Int.neg_tdiv, Int.tdiv_eq_ediv_of_nonneg (by omega)]
        omega
    have hfits : Fits 32 z := fits_32.mpr (by split_ifs at hz <;> omega)
    exact ⟨_, ⟨x * 100, signed_eq (fits_32.mpr (by omega)), z, by rw [hz, signed_eq hfits],
      signed_eq (hfits.tdiv (by decide))⟩, hr⟩

/-! ### Waiting for the processor -/

/-- `recent_cpu` after a second. -/
def rescaled (loadAvg recentCpu nice : ℤ) : Option ℤ := do
  let c ← coefficient loadAvg
  let x ← fixedpMultiply recentCpu c
  fixedpAddWithInt x nice

/-- `load_avg`, and `recent_cpu` of a thread that does not run, after some seconds. -/
def seconds (count : ℕ) (nice : ℤ) : ℕ → Option (ℤ × ℤ)
  | 0 => some (0, 0)
  | k + 1 => do
    let (loadAvg, recentCpu) ← seconds count nice k
    let loadAvg ← updatedLoadAvg loadAvg count
    let recentCpu ← rescaled loadAvg recentCpu nice
    some (loadAvg, recentCpu)

/-- What can be seen of the state from thread `t`. -/
def seen (t : T) (s : Mlfqs T) : ℕ × ℤ × ℤ × ℤ × List T × List T × T × Option T :=
  (s.ticks, s.loadAvg, s.recentCpu t, s.nice t, s.allList, s.readyList, s.cur, s.idle)

theorem seen_threadUpdatePriority (h : s.threadUpdatePriorityInMlfqs t' = some s') :
    seen t s' = seen t s := by
  unfold threadUpdatePriorityInMlfqs at h
  split_ifs at h
  · exact some.inj h ▸ rfl
  · obtain ⟨p, -, h⟩ := bind_eq_some_iff.mp h
    exact some.inj h ▸ rfl

theorem threadUpdateRecentCpu_eq_some (h : s.threadUpdateRecentCpu t = some s') :
    ∃ y, rescaled s.loadAvg (s.recentCpu t) (s.nice t) = some y ∧
      s' = { s with recentCpu := update s.recentCpu t y } := by
  simp only [threadUpdateRecentCpu, bind_eq_bind, bind_eq_some_iff, some.injEq] at h
  obtain ⟨c, hc, x, hx, y, hy, rfl⟩ := h
  exact ⟨y, by simp [rescaled, hc, hx, hy], rfl⟩

theorem seen_foreach (hndp : s.allList.Nodup) (ht : t ∈ s.allList)
    (h : s.threadForeach threadUpdateRecentCpu = some s') :
    ∃ y, rescaled s.loadAvg (s.recentCpu t) (s.nice t) = some y ∧
      seen t s' = seen t { s with recentCpu := fun _ => y } := by
  have hoth {l : List T} {s s' : Mlfqs T} (hl : t ∉ l)
      (h : l.foldlM threadUpdateRecentCpu s = some s') : seen t s' = seen t s := by
    refine foldlM_keeps (fun a ha s s' hs => ?_) h
    obtain ⟨y, -, rfl⟩ := threadUpdateRecentCpu_eq_some hs
    simp [seen, update_of_ne (ne_of_mem_of_not_mem ha hl).symm]
  obtain ⟨l, l', hl⟩ := append_of_mem ht
  rw [hl, nodup_middle, nodup_cons, mem_append, not_or] at hndp
  simp only [threadForeach, hl, foldlM_append, foldlM_cons, bind_eq_bind, bind_eq_some_iff] at h
  obtain ⟨s1, h1, s2, h2, h⟩ := h
  obtain ⟨y, hy, rfl⟩ := threadUpdateRecentCpu_eq_some h2
  have hs1 := hoth hndp.1.1 h1
  rw [hoth hndp.1.2 h]
  simp only [seen, Prod.mk.injEq, update_self] at hs1 ⊢
  exact ⟨y, by rw [← hs1.2.1, ← hs1.2.2.1, ← hs1.2.2.2.1, hy], hs1.1, hs1.2.1, rfl, hs1.2.2.2⟩

/-- A tick, for a thread that does not run. -/
theorem seen_tick (hndp : s.allList.Nodup) (ht : t ∈ s.allList) (hcur : s.cur ≠ t)
    (h : s.step .tick = some s') :
    ∃ l y, seen t s' =
        seen t { s with ticks := s.ticks + 1, loadAvg := l, recentCpu := fun _ => y } ∧
      if (s.ticks + 1) % TIMER_FREQ = 0 then
        updatedLoadAvg s.loadAvg s.threadGetNumReadyAndRun = some l ∧
          rescaled l (s.recentCpu t) (s.nice t) = some y
      else l = s.loadAvg ∧ y = s.recentCpu t := by
  simp only [step, threadUpdateMlfqsState, bind_eq_bind, bind_eq_some_iff] at h
  obtain ⟨s1, h1, s2, h2, h3⟩ := h
  have hseen3 : seen t s' = seen t s2 := by
    unfold updatePriorities at h3
    split_ifs at h3
    · exact foldlM_keeps (fun _ _ _ _ hs => seen_threadUpdatePriority hs) h3
    · exact some.inj h3 ▸ rfl
  obtain ⟨rc, hrc, rfl⟩ : ∃ rc, rc t = s.recentCpu t ∧
      s1 = { s with ticks := s.ticks + 1, recentCpu := rc } := by
    unfold chargeRunning at h1
    split_ifs at h1
    · exact ⟨_, rfl, (some.inj h1).symm⟩
    · obtain ⟨x, -, h1⟩ := bind_eq_some_iff.mp h1
      exact ⟨_, update_of_ne hcur.symm .., (some.inj h1).symm⟩
  rw [hseen3]
  unfold updateLoad at h2
  split_ifs at h2 ⊢ with hseo
  · obtain ⟨l, hl, h2⟩ := bind_eq_some_iff.mp h2
    obtain ⟨y, hy, hseen2⟩ := @seen_foreach _ _ { s with
      ticks := s.ticks + 1, loadAvg := l, recentCpu := rc } _ _ hndp ht h2
    exact ⟨l, y, hseen2, hl, hrc ▸ hy⟩
  · exact ⟨_, _, some.inj h2 ▸ by simp [seen, hrc], rfl, rfl⟩

/-- 500 threads of the highest niceness.  Thread 0 waits while thread 1 runs. -/
structure Waits (s : Mlfqs ℕ) : Prop extends Bounded 500 s where
  values : ∃ l y, seen 0 s = (s.ticks, l, y, 20, range 500, 0 :: range' 2 498, 1, none) ∧
    seconds 500 20 (s.ticks / TIMER_FREQ) = some (l, y)

theorem Waits.count {s : Mlfqs ℕ} (h : Waits s) : s.threadGetNumReadyAndRun = 500 := by
  obtain ⟨-, l, y, hseen, -⟩ := h
  simp only [seen, Prod.mk.injEq] at hseen
  simp [threadGetNumReadyAndRun, hseen]

theorem Waits.tick {s : Mlfqs ℕ} (h : Waits s) :
    ∃ s', s.step .tick = some s' ∧ Waits s' ∧ s'.ticks = s.ticks + 1 := by
  have hcou := h.count
  obtain ⟨hb, l, y, hseen, hvls⟩ := h
  simp only [seen, Prod.mk.injEq, true_and] at hseen
  obtain ⟨rfl, rfl, hnice, hall, hrdy, hcur, hidle⟩ := hseen
  obtain ⟨s', hs, hb'⟩ := hb.tick (by decide) hcou.le
  obtain ⟨l, y, hseen, hnew⟩ := seen_tick (t := 0) (hall ▸ nodup_range) (by simp [hall])
    (by simp [hcur]) hs
  simp only [seen, Prod.mk.injEq, hnice, hall, hrdy, hcur, hidle] at hseen
  obtain ⟨htck, hseen⟩ := hseen
  refine ⟨s', hs, ⟨hb', l, y, by simp [seen, hseen], ?_⟩, htck⟩
  rw [htck]
  rw [hcou, hnice] at hnew
  unfold TIMER_FREQ at *
  split_ifs at hnew with hseo
  · simp [show (s.ticks + 1) / 100 = s.ticks / 100 + 1 by omega, seconds, hvls, hnew.1, hnew.2]
  · rw [show (s.ticks + 1) / 100 = s.ticks / 100 by omega, hvls, hnew.1, hnew.2]

/-- The initial thread sets its niceness and creates threads. -/
theorem reaches_threads (k : ℕ) : ∃ s0 s, boot 0 = some s0 ∧ Reaches step (AtMost 500) s0 s ∧
    Bounded 500 s ∧ seen 0 s = (0, 0, 0, 20, range (k + 1), [], 0, none) := by
  induction k with
  | zero =>
    have hrun : Reaches step (AtMost 500) _ _ := .step (.setNice 20) (.start : Reaches step
      (AtMost 500) ⟨0, 0, fun _ => 0, fun _ => 0, update (fun _ => 0) 0 63, [0], [], 0, none⟩ _)
      (by decide) rfl
    exact ⟨_, _, rfl, hrun, hrun.invariant (bounded_boot 500 rfl) fun _ _ _ hi hok hs =>
      hi.step (by decide) hok hs, rfl⟩
  | succ k ih =>
    obtain ⟨s0, s, hboot, hrun, hb, hseen⟩ := ih
    simp only [seen, Prod.mk.injEq] at hseen
    obtain ⟨htck, hload, hrcn, hnice, hall, hrdy, hcur, hidle⟩ := hseen
    have hcou : s.threadGetNumReadyAndRun ≤ 500 := by
      simp [threadGetNumReadyAndRun, hrdy, hidle]
    have hcrt : s.step (.create (k + 1)) = some _ := if_neg (by simp [hall])
    obtain ⟨s2, hs2, hb2⟩ := (hb.step (by decide) hcou hcrt).inherit (t := k + 1) (by decide)
      (by simp)
    refine ⟨s0, s2, hboot, .step _ (.step _ hrun hcou hcrt) hcou hs2, hb2, ?_⟩
    rw [step, if_pos (by simp)] at hs2
    rw [seen_threadUpdatePriority hs2]
    simp [seen, htck, hload, hrcn, hnice, hall, hrdy, hcur, hidle, range_succ]

theorem reaches_waits (k : ℕ) : ∃ s0 s : Mlfqs ℕ, boot 0 = some s0 ∧
    Reaches step (AtMost 500) s0 s ∧ Waits s ∧ s.ticks = k := by
  induction k with
  | zero =>
    obtain ⟨s0, s, hboot, hrun, hb, hseen⟩ := reaches_threads 499
    simp only [seen, Prod.mk.injEq] at hseen
    obtain ⟨htck, hload, hrcn, hnice, hall, hrdy, hcur, hidle⟩ := hseen
    have hcou : s.threadGetNumReadyAndRun ≤ 500 := by
      simp [threadGetNumReadyAndRun, hrdy, hidle]
    have hs : s.step (.schedule (0 :: range' 2 498) 1) = some _ := if_pos (by simp [hall])
    refine ⟨s0, _, hboot, .step _ hrun hcou hs, ⟨hb.step (by decide) hcou hs, 0, 0, ?_, ?_⟩, htck⟩
    · simp [seen, hload, hrcn, hnice, hall, hidle]
    · rw [htck]
      rfl
  | succ k ih =>
    obtain ⟨s0, s, hboot, hrun, hw, rfl⟩ := ih
    obtain ⟨s', hs, hw', htck⟩ := hw.tick
    exact ⟨s0, s', hboot, .step .tick hrun hw.count.le hs, hw', htck⟩

/-- 499 threads are created with niceness 20, and the initial thread waits for 71 seconds.  Then
`thread_get_recent_cpu` overflows. -/
theorem report_overflows : ∃ s₀ s : Mlfqs ℕ, boot 0 = some s₀ ∧ Reaches step (AtMost 500) s₀ s ∧
    s.recentCpu s.cur = 21596461 ∧ s.threadGetRecentCpu = none := by
  obtain ⟨s₀, s, hboot, hrun, hw, htck⟩ := reaches_waits 7100
  have hcou := hw.count.le
  obtain ⟨-, l, y, hseen, hvls⟩ := hw
  simp only [seen, Prod.mk.injEq] at hseen
  rw [htck] at hvls
  have hsen : (seconds 500 20 (7100 / TIMER_FREQ)).map Prod.snd = some 21596461 := by
    decide +kernel
  rw [hvls] at hsen
  obtain rfl := some.inj hsen
  have hs : s.step (.schedule (range' 1 499) 0) = some _ := if_pos (by simp [hseen])
  refine ⟨s₀, _, hboot, .step _ hrun hcou hs, hseen.2.2.1, ?_⟩
  simp only [threadGetRecentCpu, hseen.2.2.1]
  decide

end Mlfqs

end Pintos
