import Pintos.Lib.Checked
import Pintos.Lib.Runs
import Pintos.Threads.Kernel

/-! # The multi-level feedback queue scheduler

`lib/kernel/fixedp.h`, and the part of `threads/thread.c` that computes `load_avg`, `recent_cpu` and
the priorities.

* **Numbers.**  A `fixedp` is an `int`.  Every intermediate value of type `int` or `int64_t` is
  checked (`Checked.signed`): a computation that returns has not overflowed, has not divided by zero
  and has not been cut off in a conversion.
* **Threads.**  `allList` and `readyList` are the lists of the scheduler.  Which thread runs and which
  are ready is left open: `schedule` changes both in any way, `thread_defer_to_max_priority` and the
  waking of sleeping threads included.
* **Interrupts.**  A tick can come between the two parts of `thread_create`: the new thread is put on
  `all_list`, and later inherits from its parent.
* **Phase.**  `recent_cpu` grows by one with every tick and is scaled down once in a second, so that
  its bound depends on the number of ticks since then (`Bounded`). -/

namespace Pintos
open Checked Runs Function Option List

/-! ### Fixed-point arithmetic -/

/-- `fp_f`. -/
def fpF : ℤ := 2 * 2 ^ 13

def fixedpFromInt (n : ℤ) : Option ℤ := signed 32 (n * fpF)

/-- Zero is rounded up from below, too. -/
def fixedpToIntCeiled (x : ℤ) : Option ℤ :=
  if x.tmod fpF = 0 then signed 32 (x.tdiv fpF) else signed 32 (x.tdiv fpF + 1)

def fixedpAdd (x y : ℤ) : Option ℤ := signed 32 (x + y)

def fixedpAddWithInt (x n : ℤ) : Option ℤ := do
  let m ← signed 32 (n * fpF)
  signed 32 (x + m)

def fixedpMultiply (x y : ℤ) : Option ℤ := do
  let p ← signed 64 (x * y)
  signed 32 (p.tdiv fpF)

def fixedpMultiplyWithInt (x n : ℤ) : Option ℤ := signed 32 (x * n)

def fixedpDivide (x y : ℤ) : Option ℤ := do
  let p ← signed 64 (x * fpF)
  if y = 0 then none else signed 32 (p.tdiv y)

def fixedpDivideByInt (x n : ℤ) : Option ℤ := if n = 0 then none else signed 32 (x.tdiv n)

section
variable {x y n : ℤ}

theorem fpF_eq : fpF = 16384 := by decide

theorem fixedpAdd_eq (h : Fits 32 (x + y)) : fixedpAdd x y = some (x + y) := signed_eq h

theorem fixedpAddWithInt_eq (hn : Fits 32 (n * fpF)) (h : Fits 32 (x + n * fpF)) :
    fixedpAddWithInt x n = some (x + n * fpF) := by
  simp [fixedpAddWithInt, signed_eq hn, signed_eq h]

theorem fixedpMultiply_eq (hx : Fits 32 x) (hy : Fits 32 y) (h : Fits 32 ((x * y).tdiv fpF)) :
    fixedpMultiply x y = some ((x * y).tdiv fpF) := by
  simp [fixedpMultiply, signed_eq (hx.mul hy), signed_eq h]

theorem fixedpMultiplyWithInt_eq (h : Fits 32 (x * n)) : fixedpMultiplyWithInt x n = some (x * n) :=
  signed_eq h

theorem fixedpDivide_eq (hx : Fits 32 x) (hy : y ≠ 0) (h : Fits 32 ((x * fpF).tdiv y)) :
    fixedpDivide x y = some ((x * fpF).tdiv y) := by
  have hp : Fits 64 (x * fpF) := hx.mul (by decide)
  simp [fixedpDivide, signed_eq hp, if_neg hy, signed_eq h]

theorem fixedpDivideByInt_eq (hx : Fits 32 x) (hn : 0 < n) :
    fixedpDivideByInt x n = some (x.tdiv n) := by
  rw [fixedpDivideByInt, if_neg hn.ne', signed_eq (hx.tdiv hn)]

theorem isSome_fixedpToIntCeiled (hx : Fits 32 x) :
    ∃ y, fixedpToIntCeiled x = some y ∧ -131072 ≤ y ∧ y ≤ 131072 := by
  rw [fits_32] at hx
  have hlo : -131072 ≤ x.tdiv fpF := le_tdiv (by decide) (by decide) (by rw [fpF_eq]; linarith)
  have hhi : x.tdiv fpF ≤ 131071 := by
    rw [fpF_eq]
    rcases le_total 0 x with h0 | h0
    · rw [Int.tdiv_eq_ediv_of_nonneg h0]
      omega
    · exact (tdiv_nonpos h0 (by decide)).trans (by decide)
  unfold fixedpToIntCeiled
  split_ifs
  · exact ⟨_, signed_eq (fits_32.mpr (by omega)), by omega, by omega⟩
  · exact ⟨_, signed_eq (fits_32.mpr (by omega)), by omega, by omega⟩

end

/-! ### The scheduler -/

def TIMER_FREQ : ℕ := 100
def NICE_MIN : ℤ := -20
def NICE_INIT : ℤ := 0
def NICE_MAX : ℤ := 20
def PRI_RECALC_PERIOD : ℕ := 4
def LOAD_AVG_INIT : ℤ := 0
def RECENT_CPU_INIT : ℤ := 0
def LOAD_AVG_PERIOD : ℤ := 6000

def LOAD_AVG_MOMENTUM : Option ℤ := do
  let x ← fixedpFromInt (LOAD_AVG_PERIOD - TIMER_FREQ)
  let y ← fixedpFromInt LOAD_AVG_PERIOD
  fixedpDivide x y

def LOAD_AVG_DECAY : Option ℤ := do
  let x ← fixedpFromInt TIMER_FREQ
  let y ← fixedpFromInt LOAD_AVG_PERIOD
  fixedpDivide x y

/-- What the computations read and write.  `idle` is `none` until the idle thread has run. -/
structure Mlfqs (T : Type) where
  /-- `timer_ticks ()`. -/
  ticks : ℕ
  loadAvg : ℤ
  recentCpu : T → ℤ
  nice : T → ℤ
  priority : T → ℤ
  allList : List T
  readyList : List T
  cur : T
  idle : Option T

namespace Mlfqs

variable {T : Type} [DecidableEq T]

def threadForeach (s : Mlfqs T) (func : Mlfqs T → T → Option (Mlfqs T)) : Option (Mlfqs T) :=
  s.allList.foldlM func s

/-- The priority before it is cut off at its bounds. -/
def penalized (recentCpu nice : ℤ) : Option ℤ := do
  let quarter ← fixedpDivideByInt recentCpu 4
  let cpuPenalty ← fixedpToIntCeiled quarter
  let p ← signed 32 (PRI_MAX - cpuPenalty)
  let n ← signed 32 (nice * 2)
  signed 32 (p - n)

/-- A priority within its bounds. -/
def clamped (p : ℤ) : ℤ := if p < PRI_MIN then PRI_MIN else if p > PRI_MAX then PRI_MAX else p

def threadUpdatePriorityInMlfqs (s : Mlfqs T) (t : T) : Option (Mlfqs T) :=
  if s.idle = some t then some s
  else do
    let p ← penalized (s.recentCpu t) (s.nice t)
    some { s with priority := update s.priority t (clamped p) }

def threadGetNumReadyAndRun (s : Mlfqs T) : ℕ :=
  s.readyList.length + if s.idle = some s.cur then 0 else 1

/-- The coefficient of `recent_cpu`. -/
def coefficient (loadAvg : ℤ) : Option ℤ := do
  let twiceLoadAvg ← fixedpMultiplyWithInt loadAvg 2
  let divisor ← fixedpAddWithInt twiceLoadAvg 1
  fixedpDivide twiceLoadAvg divisor

def threadUpdateRecentCpu (s : Mlfqs T) (t : T) : Option (Mlfqs T) := do
  let c ← coefficient s.loadAvg
  let x ← fixedpMultiply (s.recentCpu t) c
  let x ← fixedpAddWithInt x (s.nice t)
  some { s with recentCpu := update s.recentCpu t x }

/-- The first part of `thread_update_mlfqs_state`. -/
def chargeRunning (s : Mlfqs T) : Option (Mlfqs T) :=
  if s.idle = some s.cur then some s
  else do
    let x ← fixedpAddWithInt (s.recentCpu s.cur) 1
    some { s with recentCpu := update s.recentCpu s.cur x }

/-- What `load_avg` becomes with `count` threads that are ready or run. -/
def updatedLoadAvg (loadAvg : ℤ) (count : ℕ) : Option ℤ := do
  let momentum ← LOAD_AVG_MOMENTUM
  let loadAvg ← fixedpMultiply momentum loadAvg
  let decay ← LOAD_AVG_DECAY
  let new ← fixedpMultiplyWithInt decay count
  fixedpAdd loadAvg new

/-- The second part, once per second. -/
def updateLoad (s : Mlfqs T) : Option (Mlfqs T) :=
  if s.ticks % TIMER_FREQ = 0 then do
    let loadAvg ← updatedLoadAvg s.loadAvg s.threadGetNumReadyAndRun
    { s with loadAvg := loadAvg }.threadForeach threadUpdateRecentCpu
  else some s

/-- The third part, every four ticks. -/
def updatePriorities (s : Mlfqs T) : Option (Mlfqs T) :=
  if s.ticks % PRI_RECALC_PERIOD = 0 then s.threadForeach threadUpdatePriorityInMlfqs else some s

def threadUpdateMlfqsState (s : Mlfqs T) : Option (Mlfqs T) := do
  let s ← s.chargeRunning
  let s ← s.updateLoad
  s.updatePriorities

/-- `thread_init`, with the initial thread. -/
def boot (main : T) : Option (Mlfqs T) := do
  let loadAvg ← fixedpFromInt LOAD_AVG_INIT
  let recentCpu ← fixedpFromInt RECENT_CPU_INIT
  threadUpdatePriorityInMlfqs ⟨0, loadAvg, fun _ => recentCpu, fun _ => NICE_INIT, fun _ => 0, [main],
    [], main, none⟩ main

end Mlfqs

/-- What happens to the numbers. -/
inductive MlfqsOp (T : Type) where
  | tick
  /-- `init_thread`, with everything zero. -/
  | create (t : T)
  /-- The part of `thread_create` that sets what is inherited. -/
  | inherit (t : T)
  | setNice (nice : ℤ)
  /-- The idle thread makes itself known. -/
  | idle
  /-- Any change of the ready list and of the running thread. -/
  | schedule (ready : List T) (next : T)
  /-- `thread_exit`, and what runs after it. -/
  | exit (ready : List T) (next : T)

namespace Mlfqs

variable {T : Type} [DecidableEq T]

/-- The scheduler chooses among the threads that exist. -/
def reschedule (s : Mlfqs T) (ready : List T) (next : T) : Option (Mlfqs T) :=
  if next ∈ s.allList ∧ ∀ t ∈ ready, t ∈ s.allList then
    some { s with readyList := ready, cur := next }
  else none

/-- There is no step if an `ASSERT` fails or a number does not fit. -/
def step (s : Mlfqs T) : MlfqsOp T → Option (Mlfqs T)
  | .tick => { s with ticks := s.ticks + 1 }.threadUpdateMlfqsState
  | .create t =>
    if t ∈ s.allList then none
    else some { s with
      recentCpu := update s.recentCpu t 0
      nice := update s.nice t 0
      priority := update s.priority t 0
      allList := s.allList ++ [t] }
  | .inherit t =>
    if t ∈ s.allList then
      threadUpdatePriorityInMlfqs { s with
        recentCpu := update s.recentCpu t (s.recentCpu s.cur)
        nice := update s.nice t (s.nice s.cur) } t
    else none
  | .setNice nice =>
    if NICE_MIN ≤ nice ∧ nice ≤ NICE_MAX then
      threadUpdatePriorityInMlfqs { s with nice := update s.nice s.cur nice } s.cur
    else none
  | .idle => some { s with idle := some s.cur }
  | .schedule ready next => s.reschedule ready next
  | .exit ready next => { s with allList := s.allList.erase s.cur }.reschedule ready next

/-! ### Bounds -/

/-- At most `M` threads are ready or run. -/
def AtMost (M : ℕ) (s : Mlfqs T) (_ : MlfqsOp T) : Prop := s.threadGetNumReadyAndRun ≤ M

instance (M : ℕ) (s : Mlfqs T) (op : MlfqsOp T) : Decidable (AtMost M s op) :=
  inferInstanceAs (Decidable (_ ≤ _))

/-- The bounds of a thread, `k` ticks after `recent_cpu` has been scaled down. -/
structure InBounds (M k : ℕ) (recentCpu nice priority : ℤ) : Prop where
  nice_lo : NICE_MIN ≤ nice
  nice_hi : nice ≤ NICE_MAX
  recent_lo : -(40 * M + 20) * fpF ≤ recentCpu
  recent_hi : recentCpu ≤ (240 * M + 20 + k) * fpF
  priority_lo : PRI_MIN ≤ priority
  priority_hi : priority ≤ PRI_MAX

/-- All numbers are in their bounds. -/
structure Bounded (M : ℕ) (s : Mlfqs T) : Prop where
  load_lo : 0 ≤ s.loadAvg
  load_hi : s.loadAvg ≤ M * fpF
  cur : s.cur ∈ s.allList
  threads : ∀ t ∈ s.allList,
    InBounds M (s.ticks % TIMER_FREQ) (s.recentCpu t) (s.nice t) (s.priority t)

section
variable {M k : ℕ} {x c l n p : ℤ} {s s' : Mlfqs T} {t : T}

theorem ratio_eq (hn : Fits 32 (n * fpF)) (hm : Fits 32 (m * fpF)) (hm0 : m * fpF ≠ 0)
    (hq : (n * fpF * fpF).tdiv (m * fpF) = q) (hfits : Fits 32 q) :
    (do let x ← fixedpFromInt n; let y ← fixedpFromInt m; fixedpDivide x y) = some q := by
  simp only [fixedpFromInt, signed_eq hn, signed_eq hm, bind_eq_bind, bind_some]
  rw [fixedpDivide_eq hn hm0 (hq ▸ hfits), hq]

theorem LOAD_AVG_MOMENTUM_eq : LOAD_AVG_MOMENTUM = some 16110 :=
  ratio_eq (by decide) (by decide) (by decide) (by decide) (by decide)

theorem LOAD_AVG_DECAY_eq : LOAD_AVG_DECAY = some 273 :=
  ratio_eq (by decide) (by decide) (by decide) (by decide) (by decide)

/-- The new load average.  The two coefficients add up to less than one. -/
theorem updatedLoadAvg_eq (hM : M ≤ 500) {count : ℕ} (hcou : count ≤ M) (hlo : 0 ≤ l)
    (hhi : l ≤ M * fpF) : ∃ l', updatedLoadAvg l count = some l' ∧ 0 ≤ l' ∧ l' ≤ M * fpF := by
  rw [fpF_eq] at hhi
  have hd0 : 0 ≤ (16110 * l).tdiv fpF := Int.tdiv_nonneg (by linarith) (by decide)
  have hd1 : (16110 * l).tdiv fpF ≤ 16110 * M :=
    tdiv_le (by decide) (by linarith) (by rw [fpF_eq]; linarith)
  have hl : Fits 32 l := fits_32.mpr ⟨by linarith, by linarith⟩
  have hdcy : Fits 32 ((16110 * l).tdiv fpF) := fits_32.mpr ⟨by linarith, by linarith⟩
  have hnew : Fits 32 (273 * count) := fits_32.mpr ⟨by linarith, by linarith⟩
  have hsum : Fits 32 ((16110 * l).tdiv fpF + 273 * count) :=
    fits_32.mpr ⟨by linarith, by linarith⟩
  have hle : (16110 * l).tdiv fpF + 273 * count ≤ M * 16384 := by linarith
  exact ⟨_, bind_eq LOAD_AVG_MOMENTUM_eq (bind_eq
    (fixedpMultiply_eq (fits_32.mpr (by decide)) hl hdcy) (bind_eq LOAD_AVG_DECAY_eq
      (bind_eq (fixedpMultiplyWithInt_eq hnew) (fixedpAdd_eq hsum)))), by linarith,
    fpF_eq.symm ▸ hle⟩

/-- The coefficient is at most `2 M / (2 M + 1)`. -/
theorem coefficient_eq (hM : M ≤ 500) (hlo : 0 ≤ l) (hhi : l ≤ M * fpF) :
    ∃ c, coefficient l = some c ∧ 0 < l * 2 + 1 * fpF ∧ 0 ≤ c ∧ c ≤ fpF ∧
      c * (2 * M + 1) ≤ 2 * M * fpF := by
  rw [fpF_eq] at hhi ⊢
  have hpos : 0 < l * 2 + 1 * 16384 := by linarith
  have hc0 : 0 ≤ (l * 2 * fpF).tdiv (l * 2 + 1 * 16384) :=
    Int.tdiv_nonneg (by rw [fpF_eq]; linarith) hpos.le
  have hc1 : (l * 2 * fpF).tdiv (l * 2 + 1 * 16384) ≤ 16384 :=
    tdiv_le hpos (by decide) (by rw [fpF_eq]; linarith)
  have hmul : (l * 2 * fpF).tdiv (l * 2 + 1 * 16384) * (l * 2 + 1 * 16384) ≤ l * 2 * 16384 := by
    rw [fpF_eq, Int.tdiv_eq_ediv_of_nonneg (by linarith)]
    exact Int.ediv_mul_le _ hpos.ne'
  refine ⟨_, ?_, hpos, hc0, hc1, ?_⟩
  · simp only [coefficient, bind_eq_bind]
    rw [fixedpMultiplyWithInt_eq (fits_32.mpr (by omega)), bind_some,
      fixedpAddWithInt_eq (by decide) (by rw [fpF_eq]; exact fits_32.mpr (by omega)),
      bind_some, fpF_eq, fixedpDivide_eq (fits_32.mpr (by omega)) hpos.ne'
        (fits_32.mpr (by omega)), fpF_eq]
  · nlinarith

/-- `recent_cpu` is scaled down. -/
theorem scaled (hc0 : 0 ≤ c) (hcM : c * (2 * M + 1) ≤ 2 * M * fpF)
    (hlo : -(40 * M + 20) * fpF ≤ x) (hhi : x ≤ (240 * M + 120) * fpF) :
    -(40 * M) * fpF ≤ (x * c).tdiv fpF ∧ (x * c).tdiv fpF ≤ 240 * M * fpF := by
  have hF : 0 < fpF := by decide
  constructor
  · refine le_tdiv hF (by nlinarith) ?_
    calc -(40 * M) * fpF * fpF ≤ -(20 * (c * (2 * M + 1))) * fpF := by nlinarith
      _ = -(40 * M + 20) * fpF * c := by ring
      _ ≤ x * c := mul_le_mul_of_nonneg_right hlo hc0
  · refine tdiv_le hF (by nlinarith) ?_
    calc x * c ≤ (240 * M + 120) * fpF * c := mul_le_mul_of_nonneg_right hhi hc0
      _ ≤ 240 * M * fpF * fpF := by nlinarith

theorem penalized_eq (hx : Fits 32 x) (hn0 : NICE_MIN ≤ n) (hn1 : n ≤ NICE_MAX) :
    ∃ p, penalized x n = some p := by
  unfold NICE_MIN at hn0
  unfold NICE_MAX at hn1
  obtain ⟨y, hy, hlo, hhi⟩ := isSome_fixedpToIntCeiled (hx.tdiv (show 0 < 4 by decide))
  refine ⟨PRI_MAX - y - n * 2, ?_⟩
  simp only [penalized, fixedpDivideByInt_eq hx (show 0 < 4 by decide), bind_eq_bind, bind_some, hy]
  unfold PRI_MAX
  rw [signed_eq (fits_32.mpr (by omega)), bind_some, signed_eq (fits_32.mpr (by omega)),
    bind_some, signed_eq (fits_32.mpr (by omega))]

theorem InBounds.fits (h : InBounds M k x n p) (hM : M ≤ 500) (hk : k ≤ 100) : Fits 32 x := by
  have hlo := h.recent_lo
  have hhi := h.recent_hi
  rw [fpF_eq] at hlo hhi
  exact fits_32.mpr ⟨by linarith, by linarith⟩

theorem InBounds.mono (h : InBounds M k x n p) (hkj : k ≤ j) : InBounds M j x n p := by
  refine { h with recent_hi := h.recent_hi.trans ?_ }
  rw [fpF_eq]
  linarith

/-! ### Steps -/

/-- All threads are in bounds with these values. -/
abbrev AllIn (s : Mlfqs T) (M k : ℕ) (recentCpu nice priority : T → ℤ) : Prop :=
  ∀ t ∈ s.allList, InBounds M k (recentCpu t) (nice t) (priority t)

section
variable (hM : M ≤ 500)
include hM

theorem threadUpdatePriority_eq (hk : k ≤ 100)
    (h : InBounds M k (s.recentCpu t) (s.nice t) (s.priority t)) :
    ∃ q, s.threadUpdatePriorityInMlfqs t = some { s with priority := update s.priority t q } ∧
      PRI_MIN ≤ q ∧ q ≤ PRI_MAX := by
  unfold threadUpdatePriorityInMlfqs
  split_ifs with hidle
  · exact ⟨s.priority t, by rw [update_eq_self], h.priority_lo, h.priority_hi⟩
  · obtain ⟨p, hp⟩ := penalized_eq (h.fits hM hk) h.nice_lo h.nice_hi
    refine ⟨clamped p, by rw [hp]; rfl, ?_⟩
    unfold clamped PRI_MIN PRI_MAX
    split_ifs <;> omega

/-- `recent_cpu` of a thread is scaled down, and only that changes. -/
theorem threadUpdateRecentCpu_eq (hlo : 0 ≤ s.loadAvg) (hhi : s.loadAvg ≤ M * fpF)
    (h : InBounds M 100 (s.recentCpu t) (s.nice t) (s.priority t)) :
    ∃ y, s.threadUpdateRecentCpu t = some { s with recentCpu := update s.recentCpu t y } ∧
      InBounds M 0 y (s.nice t) (s.priority t) := by
  obtain ⟨c, hc, -, hc0, hc1, hcM⟩ := coefficient_eq hM hlo hhi
  have hupr : s.recentCpu t ≤ (240 * M + 120) * fpF := by
    have := h.recent_hi
    push_cast at this
    linarith
  obtain ⟨hx0, hx1⟩ := scaled hc0 hcM h.recent_lo hupr
  have hn0 := h.nice_lo
  have hn1 := h.nice_hi
  have hfits := h.fits hM le_rfl
  unfold NICE_MIN at hn0
  unfold NICE_MAX at hn1
  rw [fpF_eq] at hc1 hx0 hx1
  refine ⟨(s.recentCpu t * c).tdiv fpF + s.nice t * fpF, ?_, h.nice_lo, h.nice_hi, ?_, ?_,
    h.priority_lo, h.priority_hi⟩
  · simp only [threadUpdateRecentCpu, hc, bind_eq_bind, bind_some]
    rw [fixedpMultiply_eq hfits (fits_32.mpr (by omega))
      (by rw [fpF_eq]; exact fits_32.mpr (by constructor <;> linarith)), bind_some,
      fixedpAddWithInt_eq (by rw [fpF_eq]; exact fits_32.mpr (by constructor <;> linarith))
      (by rw [fpF_eq]; exact fits_32.mpr (by constructor <;> linarith)), bind_some]
  · rw [fpF_eq]
    linarith
  · rw [fpF_eq]
    linarith

/-- The running thread is charged for a tick. -/
theorem chargeRunning_eq (hk : k < 100) (hcur : s.cur ∈ s.allList)
    (h : s.AllIn M k s.recentCpu s.nice s.priority) :
    ∃ rc, s.chargeRunning = some { s with recentCpu := rc } ∧
      s.AllIn M (k + 1) rc s.nice s.priority := by
  unfold chargeRunning
  split_ifs with hidle
  · exact ⟨s.recentCpu, rfl, fun t ht => (h t ht).mono (Nat.le_succ k)⟩
  · have hb := h s.cur hcur
    have hhi := hb.recent_hi
    have hlo := hb.recent_lo
    rw [fpF_eq] at hhi hlo
    have hfits : Fits 32 (s.recentCpu s.cur + 1 * fpF) := by
      rw [fpF_eq]
      exact fits_32.mpr ⟨by linarith, by linarith⟩
    refine ⟨_, bind_eq (fixedpAddWithInt_eq (by decide) hfits) rfl, fun t ht => ?_⟩
    rw [update_apply]
    split_ifs with htc
    · subst htc
      refine ⟨hb.nice_lo, hb.nice_hi, ?_, ?_, hb.priority_lo, hb.priority_hi⟩
      · rw [fpF_eq]
        linarith
      · rw [fpF_eq]
        push_cast
        linarith
    · exact (h t ht).mono (Nat.le_succ k)

/-- `recent_cpu` of all threads is scaled down. -/
theorem foreach_recentCpu (hlo : 0 ≤ s.loadAvg) (hhi : s.loadAvg ≤ M * fpF)
    (h : s.AllIn M 100 s.recentCpu s.nice s.priority) :
    ∃ rc, s.threadForeach threadUpdateRecentCpu = some { s with recentCpu := rc } ∧
      s.AllIn M 0 rc s.nice s.priority := by
  -- those that have been visited are in the narrower bounds
  obtain ⟨s', hs, ⟨rc, rfl, hrc⟩⟩ := foldlM_rule (f := threadUpdateRecentCpu) (l := s.allList) (s := s)
    (fun done s' => ∃ rc, s' = { s with recentCpu := rc } ∧ ∀ t ∈ s.allList,
      InBounds M 100 (rc t) (s.nice t) (s.priority t) ∧
        (t ∈ done → InBounds M 0 (rc t) (s.nice t) (s.priority t)))
    ⟨s.recentCpu, rfl, fun t ht => ⟨h t ht, fun hno => absurd hno not_mem_nil⟩⟩
    fun done a s1 ha ⟨rc, hs1, hrc⟩ => by
      subst hs1
      obtain ⟨y, hy, hb⟩ := threadUpdateRecentCpu_eq (s := { s with recentCpu := rc }) hM
        hlo hhi (hrc a ha).1
      refine ⟨_, hy, _, rfl, fun t ht => ?_⟩
      rw [update_apply]
      split_ifs with hta
      · subst hta
        exact ⟨hb.mono (by decide), fun _ => hb⟩
      · refine ⟨(hrc t ht).1, fun hd => (hrc t ht).2 ?_⟩
        exact (mem_append.mp hd).resolve_right fun h1 => hta (mem_singleton.mp h1)
  exact ⟨rc, hs, fun t ht => (hrc t ht).2 ht⟩

theorem foreach_priority (hk : k ≤ 100)
    (h : s.AllIn M k s.recentCpu s.nice s.priority) :
    ∃ pr, s.threadForeach threadUpdatePriorityInMlfqs = some { s with priority := pr } ∧
      s.AllIn M k s.recentCpu s.nice pr := by
  obtain ⟨s', hs, ⟨pr, rfl, hpr⟩⟩ := foldlM_rule (f := threadUpdatePriorityInMlfqs)
    (fun _ s' => ∃ pr, s' = { s with priority := pr } ∧ ∀ t ∈ s.allList,
      InBounds M k (s.recentCpu t) (s.nice t) (pr t)) ⟨s.priority, rfl, h⟩
    fun done a s1 ha ⟨pr, hs1, hpr⟩ => by
      subst hs1
      obtain ⟨q, hq, hlo, hhi⟩ := threadUpdatePriority_eq (s := { s with priority := pr }) hM
        hk (hpr a ha)
      refine ⟨_, hq, _, rfl, fun t ht => ?_⟩
      rw [update_apply]
      split_ifs with hta
      · have hb := hpr t ht
        exact { hb with priority_lo := hlo, priority_hi := hhi }
      · exact hpr t ht
  exact ⟨pr, hs, hpr⟩

/-- The second part, with the ticks that have passed since `recent_cpu` was scaled down last. -/
theorem updateLoad_eq (hk : k ≤ 100) (hphs : s.ticks % TIMER_FREQ = k % 100)
    (hcou : s.threadGetNumReadyAndRun ≤ M) (hlo : 0 ≤ s.loadAvg) (hhi : s.loadAvg ≤ M * fpF)
    (h : s.AllIn M k s.recentCpu s.nice s.priority) :
    ∃ l rc, s.updateLoad = some { s with loadAvg := l, recentCpu := rc } ∧ 0 ≤ l ∧ l ≤ M * fpF ∧
      s.AllIn M (k % 100) rc s.nice s.priority := by
  unfold updateLoad
  split_ifs with hseo
  · obtain ⟨l, hl, hl0, hl1⟩ := updatedLoadAvg_eq hM hcou hlo hhi
    obtain ⟨rc, hloop, hrc⟩ := foreach_recentCpu (s := { s with loadAvg := l }) hM hl0 hl1
      fun t ht => (h t ht).mono hk
    refine ⟨l, rc, bind_eq hl hloop, hl0, hl1, fun t ht => ?_⟩
    rw [← hphs, hseo]
    exact hrc t ht
  · refine ⟨s.loadAvg, s.recentCpu, rfl, hlo, hhi, fun t ht => ?_⟩
    rw [Nat.mod_eq_of_lt (by omega)]
    exact h t ht

theorem updatePriorities_eq (hk : k ≤ 100)
    (h : s.AllIn M k s.recentCpu s.nice s.priority) :
    ∃ pr, s.updatePriorities = some { s with priority := pr } ∧
      s.AllIn M k s.recentCpu s.nice pr := by
  unfold updatePriorities
  split_ifs
  · exact foreach_priority hM hk h
  · exact ⟨s.priority, rfl, h⟩

theorem Bounded.tick (h : s.Bounded M) (hcou : s.threadGetNumReadyAndRun ≤ M) :
    ∃ s', s.step .tick = some s' ∧ s'.Bounded M := by
  have hk : s.ticks % TIMER_FREQ < 100 := Nat.mod_lt _ (by decide)
  have hphs : (s.ticks + 1) % TIMER_FREQ = (s.ticks % TIMER_FREQ + 1) % 100 := by
    unfold TIMER_FREQ
    omega
  obtain ⟨rc, hchr, hrc⟩ := chargeRunning_eq (s := { s with ticks := s.ticks + 1 }) hM hk h.cur
    h.threads
  obtain ⟨l, rc', hload, hlo, hhi, hrc'⟩ := updateLoad_eq
    (s := { s with ticks := s.ticks + 1, recentCpu := rc }) hM hk hphs hcou h.load_lo h.load_hi hrc
  obtain ⟨pr, hpro, hpr⟩ := updatePriorities_eq
    (s := { s with ticks := s.ticks + 1, recentCpu := rc', loadAvg := l }) hM
    (Nat.mod_lt _ (by decide)).le hrc'
  refine ⟨_, bind_eq hchr (bind_eq hload hpro), ?_⟩
  refine ⟨hlo, hhi, h.cur, fun t ht => ?_⟩
  rw [hphs]
  exact hpr t ht

/-- A priority is computed after `recent_cpu` and the niceness of a thread have been set. -/
theorem Bounded.retune (h : s.Bounded M) (rc n : T → ℤ)
    (hset : s.AllIn M (s.ticks % TIMER_FREQ) rc n s.priority)
    (ht : t ∈ s.allList) :
    ∃ s', threadUpdatePriorityInMlfqs { s with recentCpu := rc, nice := n } t = some s' ∧
      s'.Bounded M := by
  have hk : s.ticks % TIMER_FREQ ≤ 100 := (Nat.mod_lt _ (by decide)).le
  obtain ⟨q, hq, hlo, hhi⟩ := threadUpdatePriority_eq (s := { s with recentCpu := rc, nice := n })
    hM hk (hset t ht)
  refine ⟨_, hq, h.load_lo, h.load_hi, h.cur, fun u hu => ?_⟩
  dsimp only
  rw [update_apply]
  have hb := hset u hu
  split_ifs with hut
  · exact { hb with priority_lo := hlo, priority_hi := hhi }
  · exact hb

theorem Bounded.inherit (h : s.Bounded M) (ht : t ∈ s.allList) :
    ∃ s', s.step (.inherit t) = some s' ∧ s'.Bounded M := by
  simp only [step, if_pos ht]
  refine h.retune hM _ _ (fun u hu => ?_) ht
  have hcur := h.threads _ h.cur
  have hb := h.threads u hu
  rw [update_apply, update_apply]
  split_ifs
  · exact ⟨hcur.nice_lo, hcur.nice_hi, hcur.recent_lo, hcur.recent_hi, hb.priority_lo,
      hb.priority_hi⟩
  · exact hb

theorem Bounded.setNice (h : s.Bounded M) (hn : NICE_MIN ≤ n ∧ n ≤ NICE_MAX) :
    ∃ s', s.step (.setNice n) = some s' ∧ s'.Bounded M := by
  simp only [step, if_pos hn]
  refine h.retune hM s.recentCpu _ (fun u hu => ?_) h.cur
  have hb := h.threads u hu
  rw [update_apply]
  split_ifs
  · exact ⟨hn.1, hn.2, hb.recent_lo, hb.recent_hi, hb.priority_lo, hb.priority_hi⟩
  · exact hb

end

theorem inBounds_zero (M k : ℕ) : InBounds M k 0 0 0 := by
  refine ⟨by decide, by decide, ?_, ?_, by decide, by decide⟩
  · rw [fpF_eq]
    linarith [Int.natCast_nonneg M]
  · rw [fpF_eq]
    linarith [Int.natCast_nonneg M, Int.natCast_nonneg k]

theorem Bounded.reschedule {ready : List T} {next : T} {all : List T} (h : s.Bounded M)
    (hall : ∀ t ∈ all, t ∈ s.allList)
    (hs : ({ s with allList := all } : Mlfqs T).reschedule ready next = some s') :
    s'.Bounded M := by
  unfold Mlfqs.reschedule at hs
  split_ifs at hs with hin
  cases hs
  exact ⟨h.load_lo, h.load_hi, hin.1, fun t ht => h.threads t (hall t ht)⟩

/-- Every step keeps the bounds. -/
theorem Bounded.step {op : MlfqsOp T} (hM : M ≤ 500) (h : s.Bounded M) (hok : AtMost M s op)
    (hs : s.step op = some s') : s'.Bounded M := by
  cases op with
  | tick =>
    obtain ⟨s1, hs1, hb⟩ := h.tick hM hok
    exact mem_unique hs1 hs ▸ hb
  | create t =>
    simp only [Mlfqs.step] at hs
    split_ifs at hs with hnew
    cases hs
    refine ⟨h.load_lo, h.load_hi, mem_append_left _ h.cur, fun u hu => ?_⟩
    simp only [update_apply]
    split_ifs with hut
    · exact inBounds_zero M _
    · exact h.threads u ((mem_append.mp hu).resolve_right fun h1 =>
        hut (mem_singleton.mp h1))
  | inherit t =>
    by_cases ht : t ∈ s.allList
    · obtain ⟨s1, hs1, hb⟩ := h.inherit hM ht
      exact mem_unique hs1 hs ▸ hb
    · simp only [Mlfqs.step, if_neg ht] at hs
      cases hs
  | setNice n =>
    by_cases hn : NICE_MIN ≤ n ∧ n ≤ NICE_MAX
    · obtain ⟨s1, hs1, hb⟩ := h.setNice hM hn
      exact mem_unique hs1 hs ▸ hb
    · simp only [Mlfqs.step, if_neg hn] at hs
      cases hs
  | idle =>
    cases hs
    exact { h with }
  | schedule ready next => exact h.reschedule (fun _ => id) hs
  | exit ready next => exact h.reschedule (fun _ ht => mem_of_mem_erase ht) hs

theorem bounded_boot (M : ℕ) (hs : boot main = some s) : s.Bounded M := by
  have hb : boot main = some ⟨0, 0, fun _ => 0, fun _ => 0, update (fun _ => 0) main 63,
      [main], [], main, none⟩ := rfl
  cases mem_unique hb hs
  refine ⟨le_rfl, by rw [fpF_eq]; positivity, mem_singleton_self _, fun t ht => ?_⟩
  cases mem_singleton.mp ht
  have hz := inBounds_zero M 0
  dsimp only
  rw [update_self]
  exact ⟨hz.nice_lo, hz.nice_hi, hz.recent_lo, hz.recent_hi, by decide, by decide⟩

/-- **Bounded arithmetic.**  In every run in which at most `M ≤ 500` threads are ready or run, the
load average, `recent_cpu` and the priorities of all threads are in their bounds, the divisor of the
coefficient is positive, and no computation of the next tick, of a new thread or of a change of
niceness overflows. -/
theorem mlfqs_bounded (M : ℕ) (hM : M ≤ 500) (main : T) (s₀ s : Mlfqs T) (hboot : boot main = some s₀)
    (h : Reaches step (AtMost M) s₀ s) :
    0 ≤ s.loadAvg ∧ s.loadAvg ≤ M * 2 ^ 14 ∧ 0 < s.loadAvg * 2 + 1 * fpF ∧
    (∀ t ∈ s.allList, -(40 * M + 20) * 2 ^ 14 ≤ s.recentCpu t ∧
      s.recentCpu t ≤ (240 * M + 120) * 2 ^ 14 ∧
      PRI_MIN ≤ s.priority t ∧ s.priority t ≤ PRI_MAX ∧
      (s.threadUpdateRecentCpu t).isSome ∧ (s.threadUpdatePriorityInMlfqs t).isSome ∧
      (s.step (.inherit t)).isSome) ∧
    (s.threadGetNumReadyAndRun ≤ M → (s.step .tick).isSome) ∧
    ∀ nice, NICE_MIN ≤ nice → nice ≤ NICE_MAX → (s.step (.setNice nice)).isSome := by
  have hb : s.Bounded M := h.invariant (bounded_boot M hboot)
    fun s op s' hi hok hs => hi.step hM hok hs
  have hF : 2 ^ 14 = fpF := by decide
  have hk : s.ticks % TIMER_FREQ ≤ 100 := (Nat.mod_lt _ (by decide)).le
  obtain ⟨c, -, hpos, -⟩ := coefficient_eq hM hb.load_lo hb.load_hi
  rw [hF]
  refine ⟨hb.load_lo, hb.load_hi, hpos, fun t ht => ?_, fun hcou => ?_, fun n h0 h1 => ?_⟩
  · have hbt := hb.threads t ht
    have hwide := (hbt.mono hk).recent_hi
    obtain ⟨y, hy, -⟩ := threadUpdateRecentCpu_eq hM hb.load_lo hb.load_hi (hbt.mono hk)
    obtain ⟨q, hq, -⟩ := threadUpdatePriority_eq hM hk hbt
    obtain ⟨s', hs', -⟩ := hb.inherit hM ht
    refine ⟨hbt.recent_lo, ?_, hbt.priority_lo, hbt.priority_hi, by rw [hy]; rfl, by rw [hq]; rfl,
      by rw [hs']; rfl⟩
    push_cast at hwide
    linarith
  · obtain ⟨s', hs', -⟩ := hb.tick hM hcou
    rw [hs']
    rfl
  · obtain ⟨s', hs', -⟩ := hb.setNice hM ⟨h0, h1⟩
    rw [hs']
    rfl

end

/-- The initial thread creates a thread, and a tick passes. -/
theorem mlfqs_bounded_two : ∃ s₀ s : Mlfqs Bool, boot false = some s₀ ∧
    Reaches step (AtMost 2) s₀ s ∧ s.ticks = 1 ∧ s.recentCpu false = fpF ∧
    s.recentCpu true ≤ (240 * 2 + 120) * 2 ^ 14 ∧ (s.step .tick).isSome := by
  have hrun : Reaches step (AtMost 2) _ _ :=
    .step .tick (.step (.schedule [true] false) (.step (.inherit true) (.step (.create true)
      (.start : Reaches (step) (AtMost 2) ⟨0, 0, fun _ => 0, fun _ => 0,
        update (fun _ => 0) false 63, [false], [], false, none⟩ _)
      (by decide) rfl) (by decide) rfl) (by decide) rfl) (by decide) rfl
  obtain ⟨-, -, -, hthe, htick, -⟩ := mlfqs_bounded 2 (by decide) false _ _ rfl hrun
  exact ⟨_, _, rfl, hrun, rfl, rfl, (hthe true (by decide)).2.1, htick (by decide)⟩

end Mlfqs

end Pintos
