import Mathlib.Algebra.Group.Nat.Defs
import Pintos.Lib.KernelList
import Pintos.Lib.Runs

/-! # Semaphores and condition variables

One semaphore, and one condition variable with its lock, of `threads/synch.c`.  The lists of waiters
are sequences.

* **Semaphores.**  Interrupts are off within the functions, so that a step is what a thread does
  until it returns or blocks.  A thread that `sema_up` has woken tests the value again when it runs;
  `woken` are those that have not yet done so.
* **Condition variables.**  An element of `waiters` lies in the frame of a `cond_wait`, as does its
  semaphore; both are named by the thread.  The thread is put on the list of the condition
  variable first and on that of the semaphore later.  `cond_signal`, which holds the lock, is one
  step; `cond_broadcast` is several. -/

namespace Pintos
open Runs Function Option List

variable {T : Type} [DecidableEq T]

/-- `struct semaphore`, with the threads that have been woken. -/
structure Semaphore (T : Type) where
  value : ℕ
  waiters : List T
  woken : List T

namespace Semaphore

def semaInit (value : ℕ) : Semaphore T := ⟨value, [], []⟩

/-- The test of the loop of `sema_down` in the thread `t`, with what follows. -/
def semaTest (t : T) (s : Semaphore T) : Semaphore T :=
  if s.value = 0 then { s with waiters := s.waiters.erase t ++ [t] }
  else { s with value := s.value - 1 }

def semaTryDown (s : Semaphore T) : Bool × Semaphore T :=
  if 0 < s.value then (true, { s with value := s.value - 1 }) else (false, s)

def semaUp (priority : T → ℤ) (s : Semaphore T) : Semaphore T :=
  let s := match listMax priority s.waiters with
    | none => s
    | some t => { s with waiters := s.waiters.erase t, woken := s.woken ++ [t] }
  { s with value := (s.value + 1) % 2 ^ 32 }

inductive Op (T : Type) where
  | down (t : T)
  | retest (t : T)
  | tryDown
  | up (priority : T → ℤ)

/-- A step: a thread that is blocked does nothing, and one that has been woken tests the value. -/
def step (s : Semaphore T) : Op T → Option (Semaphore T)
  | .down t => if t ∈ s.waiters ∨ t ∈ s.woken then none else some (s.semaTest t)
  | .retest t =>
    if t ∈ s.woken then some ({ s with woken := s.woken.erase t }.semaTest t) else none
  | .tryDown => some s.semaTryDown.2
  | .up priority => some (s.semaUp priority)

variable {s s' : Semaphore T} {n : ℕ} {t : T}

/-- A round of `sema_down`, if `woken` was one more than now. -/
theorem semaTest_value_le (h : s.waiters ≠ [] → s.value ≤ s.woken.length + 1)
    (hw : (s.semaTest t).waiters ≠ []) : (s.semaTest t).value ≤ s.woken.length := by
  unfold semaTest at hw ⊢
  split_ifs at hw ⊢ with h0
  · exact h0.trans_le (Nat.zero_le _)
  · have := h hw
    dsimp only
    omega

theorem semaTest_woken : (s.semaTest t).woken = s.woken := by
  unfold semaTest
  split_ifs <;> rfl

theorem value_le_step (h : s.waiters ≠ [] → s.value ≤ s.woken.length)
    (hs : s.step op = some s') (hw : s'.waiters ≠ []) : s'.value ≤ s'.woken.length := by
  cases op with
  | down t =>
    obtain ⟨-, hs⟩ := ite_none_left_eq_some.mp hs
    cases hs
    rw [semaTest_woken]
    exact semaTest_value_le (fun hw => (h hw).trans (Nat.le_succ _)) hw
  | retest t =>
    obtain ⟨ht, hs⟩ := ite_none_right_eq_some.mp hs
    cases hs
    rw [semaTest_woken]
    refine semaTest_value_le (fun hw => (h hw).trans ?_) hw
    rw [length_erase_of_mem ht]
    omega
  | tryDown =>
    cases hs
    unfold semaTryDown at hw ⊢
    split_ifs at hw ⊢
    · exact (Nat.sub_le _ _).trans (h hw)
    · exact h hw
  | up priority =>
    cases hs
    unfold semaUp at hw ⊢
    cases hm : listMax priority s.waiters with
    | none =>
      rw [hm] at hw
      cases hws : s.waiters with
      | nil => exact absurd hws hw
      | cons => simp [hws, listMax] at hm
    | some t =>
      have := h (ne_nil_of_mem (listMax_mem hm))
      simp only [length_append, length_singleton]
      omega

/-- No wake-up is lost: if a thread waits, the value is at most the number of those that have been
woken and have not tested it, and 0 if there are none. -/
theorem value_le_of_reaches (h : Reaches step (fun _ _ => True) (semaInit n : Semaphore T) s)
    (hw : s.waiters ≠ []) : s.value ≤ s.woken.length ∧ (s.woken = [] → s.value = 0) := by
  have hle := h.invariant (fun hw => absurd rfl hw) (fun _ _ _ hp _ hs => value_le_step hp hs) hw
  refine ⟨hle, fun h0 => ?_⟩
  rw [h0] at hle
  exact Nat.le_zero.mp hle

/-- Two threads wait, and one of them is woken. -/
theorem value_le_two : ∃ s : Semaphore ℕ, Reaches step (fun _ _ => True) (semaInit 0) s ∧
    s.waiters = [2] ∧ s.value = 1 ∧ s.value ≤ s.woken.length := by
  have h1 : Reaches step (fun _ _ => True) (semaInit 0) _ := .step (.down 1) .start trivial rfl
  have h := (h1.step (.down 2) trivial rfl).step (.up fun _ => 0) trivial rfl
  exact ⟨_, h, rfl, rfl, (value_le_of_reaches h (by decide)).1⟩

end Semaphore

/-! ### Condition variables -/

/-- Where a thread is in `cond_wait`. -/
inductive CondPlace where
  | outside
  /-- On the list of the condition variable, before `lock_release`. -/
  | listed
  /-- Before `sema_down`. -/
  | released
  /-- Blocked in `sema_down`, or woken from there. -/
  | waiting
  /-- Before `lock_acquire`. -/
  | signaled
deriving DecidableEq

/-- The lock, the condition variable, and the semaphores in the frames of `cond_wait`. -/
structure Monitor (T : Type) where
  holder : Option T
  waiters : List T
  sema : T → Semaphore T
  place : T → CondPlace

namespace Monitor

def condInit : Monitor T := ⟨none, [], fun _ => .semaInit 0, fun _ => .outside⟩

/-- The thread whose structure `condvar_queue_compare` reads for an element. -/
def front (m : Monitor T) (w : T) : Option T := (m.sema w).waiters.head?

/-- The priority that it reads.  On an empty list it takes the tail for a thread, and reads what is
there. -/
def frontPriority (m : Monitor T) (priority garbage : T → ℤ) (w : T) : ℤ :=
  match m.front w with
  | some t => priority t
  | none => garbage w

/-- The elements that `list_max` gives to the comparison. -/
def compared (key : T → ℤ) (max : T) : List T → List T
  | [] => []
  | e :: xs => max :: e :: compared key (if key max < key e then e else max) xs

def inspected (m : Monitor T) (priority garbage : T → ℤ) : List T :=
  match m.waiters with
  | [] => []
  | w :: ws => compared (m.frontPriority priority garbage) w ws

def condSignal (m : Monitor T) (priority garbage : T → ℤ) : Monitor T :=
  match listMax (m.frontPriority priority garbage) m.waiters with
  | none => m
  | some w => { m with
      waiters := m.waiters.erase w
      sema := update m.sema w ((m.sema w).semaUp priority) }

/-- The test in `sema_down` that `cond_wait` has called. -/
def test (m : Monitor T) (t : T) (s : Semaphore T) : Monitor T :=
  { m with
    sema := update m.sema t (s.semaTest t)
    place := update m.place t (if s.value = 0 then .waiting else .signaled) }

inductive Op (T : Type) where
  | acquire (t : T)
  | release (t : T)
  | wait (t : T)
  | unlock (t : T)
  | down (t : T)
  | retest (t : T)
  | reacquire (t : T)
  | signal (t : T) (priority garbage : T → ℤ)

def step (m : Monitor T) : Op T → Option (Monitor T)
  | .acquire t =>
    if m.place t = .outside ∧ m.holder = none then some { m with holder := some t } else none
  | .release t =>
    if m.place t = .outside ∧ m.holder = some t then some { m with holder := none } else none
  | .wait t =>
    if m.place t = .outside ∧ m.holder = some t then
      some { m with
        waiters := m.waiters ++ [t]
        sema := update m.sema t (.semaInit 0)
        place := update m.place t .listed }
    else none
  | .unlock t =>
    if m.place t = .listed then
      some { m with holder := none, place := update m.place t .released }
    else none
  | .down t => if m.place t = .released then some (m.test t (m.sema t)) else none
  | .retest t =>
    if m.place t = .waiting ∧ t ∈ (m.sema t).woken then
      some (m.test t { m.sema t with woken := (m.sema t).woken.erase t })
    else none
  | .reacquire t =>
    if m.place t = .signaled ∧ m.holder = none then
      some { m with holder := some t, place := update m.place t .outside }
    else none
  | .signal t priority garbage =>
    if m.place t = .outside ∧ m.holder = some t then some (m.condSignal priority garbage) else none

/-- `cond_signal` takes a waiter of the highest priority off the list, and only reads structures of
threads that are in `cond_wait`. -/
def SignalsBest (m : Monitor T) (priority garbage : T → ℤ) : Prop :=
  (∃ t ∈ m.waiters, (m.condSignal priority garbage).waiters = m.waiters.erase t ∧
    ∀ u ∈ m.waiters, priority u ≤ priority t) ∧
  ∀ w ∈ m.inspected priority garbage, ∃ t, m.front w = some t ∧ m.place t ≠ .outside

/-- The semaphore of a waiter has no other waiter, and has not been raised. -/
structure Inv (m : Monitor T) : Prop where
  nodup : m.waiters.Nodup
  inside : ∀ t ∈ m.waiters, m.place t ≠ .outside ∧ m.place t ≠ .signaled ∧ (m.sema t).value = 0
  own : ∀ t, (m.sema t).waiters = [] ∨ (m.sema t).waiters = [t]

variable {m m' : Monitor T} {t w : T} {priority garbage : T → ℤ}

theorem Inv.test (h : m.Inv) (hv : s.value = (m.sema t).value)
    (hws : s.waiters = (m.sema t).waiters) : (m.test t s).Inv := by
  refine ⟨h.nodup, fun u hu => ?_, fun u => ?_⟩
  · obtain ⟨hout, hsig, h0⟩ := h.inside u hu
    by_cases e : u = t
    · subst e
      rw [← hv] at h0
      simp [Monitor.test, Semaphore.semaTest, h0]
    · simpa [Monitor.test, e] using h.inside u hu
  · by_cases e : u = t
    · subst e
      have := h.own u
      rw [← hws] at this
      simp only [Monitor.test, update_self, Semaphore.semaTest]
      split_ifs
      · rcases this with h' | h' <;> simp [h']
      · exact this
    · simpa [Monitor.test, e] using h.own u

theorem Inv.condSignal (h : m.Inv) : (m.condSignal priority garbage).Inv := by
  unfold Monitor.condSignal
  cases hm : listMax (m.frontPriority priority garbage) m.waiters with
  | none => exact h
  | some w =>
    refine ⟨h.nodup.erase w, fun u hu => ?_, fun u => ?_⟩
    · obtain ⟨hne, hu⟩ := h.nodup.mem_erase_iff.mp hu
      simpa [hne] using h.inside u hu
    · by_cases e : u = w
      · subst e
        rcases h.own u with h' | h' <;> simp [Semaphore.semaUp, h', listMax, maxLoop]
      · simpa [e] using h.own u

/-- A change of the place of a thread. -/
theorem Inv.move (h : m.Inv) (ht : t ∈ m.waiters → p ≠ .outside ∧ p ≠ .signaled)
    (holder : Option T) : Inv { m with holder, place := update m.place t p } := by
  refine ⟨h.nodup, fun u hu => ?_, h.own⟩
  by_cases e : u = t
  · subst e
    obtain ⟨hout, hsig⟩ := ht hu
    simpa using ⟨hout, hsig, (h.inside u hu).2.2⟩
  · simpa [e] using h.inside u hu

theorem Inv.step {op : Op T} (h : m.Inv) (hs : m.step op = some m') : m'.Inv := by
  cases op <;> simp only [Monitor.step, ite_none_right_eq_some, some.injEq] at hs <;>
    obtain ⟨hop, rfl⟩ := hs
  case acquire t => exact ⟨h.nodup, h.inside, h.own⟩
  case release t => exact ⟨h.nodup, h.inside, h.own⟩
  case wait t =>
    have hnot : t ∉ m.waiters := fun ht => (h.inside t ht).1 hop.1
    refine ⟨h.nodup.append (nodup_singleton t) (by simpa using hnot), fun u hu => ?_, fun u => ?_⟩
    · by_cases e : u = t
      · simp [e, Semaphore.semaInit]
      · simpa [e] using h.inside u (by simpa [e] using hu)
    · by_cases e : u = t
      · simp [e, Semaphore.semaInit]
      · simpa [e] using h.own u
  case unlock t => exact h.move (p := .released) (fun _ => ⟨nofun, nofun⟩) none
  case down t => exact h.test rfl rfl
  case retest t => exact h.test rfl rfl
  case reacquire t => exact h.move (fun ht => absurd hop.1 (h.inside t ht).2.1) (some t)
  case signal t priority garbage => exact h.condSignal

theorem inv_of_reaches (h : Reaches step (fun _ _ => True) (condInit : Monitor T) m) : m.Inv :=
  h.invariant ⟨nodup_nil, by simp [condInit], fun _ => .inl rfl⟩ fun _ _ _ hp _ hs => hp.step hs

omit [DecidableEq T] in
theorem mem_compared : w ∈ compared key x xs → w ∈ x :: xs := by
  induction xs generalizing x with
  | nil => exact fun h => absurd h not_mem_nil
  | cons e xs ih =>
    simp only [compared, mem_cons]
    rintro (rfl | rfl | hw)
    · exact .inl rfl
    · exact .inr (.inl rfl)
    · have := ih hw
      split_ifs at this
      · exact .inr (mem_cons.mp this)
      · exact (mem_cons.mp this).imp_right .inr

omit [DecidableEq T] in
/-- Every element of a list of two or more is compared. -/
theorem compared_of_mem (hw : w ∈ x :: y :: ys) : w ∈ compared key x (y :: ys) := by
  have hrest : ∀ z zs, w ∈ zs → w ∈ compared key z zs := by
    intro z zs hw
    induction zs generalizing z with
    | nil => exact absurd hw not_mem_nil
    | cons a zs ih =>
      rcases mem_cons.mp hw with rfl | hw
      · simp [compared]
      · exact mem_cons_of_mem _ (mem_cons_of_mem _ (ih _ hw))
  rcases mem_cons.mp hw with rfl | hw
  · simp [compared]
  · exact hrest x _ hw

/-- `cond_signal` chooses the best waiter if there is only one, or if all are blocked already. -/
theorem signalsBest_iff (h : Reaches step (fun _ _ => True) (condInit : Monitor T) m)
    (hne : m.waiters ≠ []) (priority garbage : T → ℤ) :
    m.SignalsBest priority garbage ↔
      m.waiters.length = 1 ∨ ∀ t ∈ m.waiters, (m.sema t).waiters ≠ [] := by
  have hinv := inv_of_reaches h
  obtain ⟨w, ws, hws⟩ := exists_cons_of_ne_nil hne
  constructor
  · rintro ⟨-, hread⟩
    cases ws with
    | nil => exact .inl (by rw [hws]; rfl)
    | cons v ws =>
      refine .inr fun t ht h0 => ?_
      rw [inspected, hws] at hread
      rw [hws] at ht
      obtain ⟨u, hu, -⟩ := hread t (compared_of_mem ht)
      simp [front, h0] at hu
  · rintro (h1 | hall)
    · obtain rfl : ws = [] := by simpa [hws] using h1
      refine ⟨⟨w, by simp [hws], ?_, by simp [hws]⟩, by simp [inspected, hws, compared]⟩
      simp [Monitor.condSignal, hws, listMax, maxLoop]
    · have hfrn : ∀ t ∈ m.waiters, m.front t = some t := fun t ht => by
        rw [front, (hinv.own t).resolve_left (hall t ht)]
        rfl
      have hkey : ∀ t ∈ m.waiters, m.frontPriority priority garbage t = priority t := fun t ht => by
        rw [frontPriority, hfrn t ht]
      obtain ⟨t, hm⟩ : ∃ t, listMax (m.frontPriority priority garbage) m.waiters = some t := by
        rw [hws]
        exact ⟨_, rfl⟩
      have ht := listMax_mem hm
      refine ⟨⟨t, ht, by simp only [Monitor.condSignal, hm], fun u hu => ?_⟩, fun u hu => ?_⟩
      · rw [← hkey u hu, ← hkey t ht]
        exact le_listMax hm hu
      · have hu : u ∈ m.waiters := by
          rw [inspected, hws] at hu
          exact hws ▸ mem_compared hu
        exact ⟨u, hfrn u hu, (hinv.inside u hu).1⟩

/-- Thread 0 is blocked and thread 1 is about to be.  Thread 1 has the highest priority, but thread 0
is signaled. -/
theorem not_signalsBest_in_window : ∃ m : Monitor ℕ, Reaches step (fun _ _ => True) condInit m ∧
    m.place 2 = .outside ∧ m.holder = some 2 ∧ m.waiters = [0, 1] ∧
    (m.condSignal (fun t => if t = 1 then 63 else 31) fun _ => 0).waiters = [1] ∧
    ¬ m.SignalsBest (fun t => if t = 1 then 63 else 31) fun _ => 0 := by
  have h1 : Reaches step (fun _ _ => True) condInit _ := .step (.acquire 0) .start trivial rfl
  have h4 := ((h1.step (.wait 0) trivial rfl).step (.unlock 0) trivial rfl).step (.down 0) trivial rfl
  have h7 := ((h4.step (.acquire 1) trivial rfl).step (.wait 1) trivial rfl).step (.unlock 1) trivial
    rfl
  refine ⟨_, h7.step (.acquire 2) trivial rfl, rfl, rfl, rfl, by decide, fun h => ?_⟩
  obtain ⟨t, ht, -⟩ := h.2 1 (by decide)
  cases ht

/-- Threads 0 and 1 are blocked. -/
theorem signalsBest_two : ∃ m : Monitor ℕ, Reaches step (fun _ _ => True) condInit m ∧
    m.waiters = [0, 1] ∧ ∀ priority garbage, m.SignalsBest priority garbage := by
  have h1 : Reaches step (fun _ _ => True) condInit _ := .step (.acquire 0) .start trivial rfl
  have h4 := ((h1.step (.wait 0) trivial rfl).step (.unlock 0) trivial rfl).step (.down 0) trivial rfl
  have h8 := (((h4.step (.acquire 1) trivial rfl).step (.wait 1) trivial rfl).step (.unlock 1) trivial
    rfl).step (.down 1) trivial rfl
  exact ⟨_, h8, rfl, fun priority garbage =>
    (signalsBest_iff h8 (by decide) priority garbage).mpr (.inr (by decide))⟩

end Monitor

end Pintos
