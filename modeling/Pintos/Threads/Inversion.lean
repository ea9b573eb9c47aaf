import Mathlib.Logic.Relation
import Pintos.Threads.Preemption

/-! # Priority inversion

The scheduler and the donation of priorities together.  Threads wait for locks in chains: each for
one that another holds, up to a thread that can run.  As donation raises every holder on the way, no
such chain starts above the running thread.

* **Interrupts.**  What is known of donation is about runs of single steps.  An interrupt is a run of
  such steps, of the calls of its handler and `thread_yield` (`interrupt_reaches`).
* **Releases.**  Those that wait for a lock have donated to its holder, so `lock_release` does not
  give the CPU away (`Led.releaseKeepsCpu`).
* **Chains.**  `WaitsFor` follows the holders. -/


namespace Pintos
open Runs Donation Option Kernel

namespace Kernel

variable {T S K : Type} [Fintype T] [DecidableEq T] [DecidableEq S] [DecidableEq K]
  {k k' : Kernel T S K} {w h t : T} {l : K}

/-- The step keeps the lists, the donations and the order of the priorities.  There is nothing to ask
at `lock_release`. -/
def schedulesSafely (k : Kernel T S K) : Event T S K → Bool
  | .code op => k.wakesInOrder (.code op) && k.donatesSafely op &&
    match op with
    | .lockTryAcquire l off => off && decide (0 < k.value (.lock l))
    | .cont =>
      match k.resume k.cur with
      | .releaseReturn l (.exit _) => k.staleLockUnlinkHarmless l
      | _ => true
    | _ => true
  | e => k.wakesInOrder e

/-- `w` waits for `h`, or for a thread that waits for `h`. -/
def WaitsFor (k : Kernel T S K) : T → T → Prop :=
  Relation.ReflTransGen fun t u => k.nextHolder t = some u

/-! ### An interrupt is a run of steps -/

omit [Fintype T] in
theorem intrOn_threadUnblock (hu : k.threadUnblock t = some k') : k'.intrOn = k.intrOn := by
  simp only [threadUnblock, ite_none_right_eq_some, map_eq_some_iff] at hu
  obtain ⟨-, links, -, rfl⟩ := hu
  rfl

theorem intrOn_semaWake (hw : k.semaWake s = some k') : k'.intrOn = k.intrOn := by
  simp only [semaWake, bind_eq_bind, bind_eq_some_iff] at hw
  obtain ⟨ws, -, hw⟩ := hw
  cases hmax : listMax k.priority ws with
  | none =>
    rw [hmax] at hw
    cases hw
    rfl
  | some t =>
    simp only [hmax, bind_eq_some_iff] at hw
    obtain ⟨k₁, ⟨links, -, hu⟩, ⟨⟩⟩ := hw
    exact (intrOn_threadUnblock hu :)

theorem handler_reaches [Fintype K] {calls : List (HandlerCall T S)} (hon : k.intrOn)
    (h : calls.foldlM handle (k, y) = some (k', y')) :
    Reaches step (fun k op => locksSafely k op && donatesSafely k op) k k' ∧ k'.intrOn := by
  induction calls generalizing k y with
  | nil =>
    obtain ⟨rfl, rfl⟩ := h
    exact ⟨.start, hon⟩
  | cons call calls ih =>
    simp only [List.foldlM_cons, bind_eq_bind, bind_eq_some_iff, Prod.exists] at h
    obtain ⟨k₁, y₁, hcall, h⟩ := h
    have hstep : ∃ op, (locksSafely k op && donatesSafely k op) = true ∧
        k.step op = some k₁ ∧ k₁.intrOn := by
      cases call with
      | wake t =>
        simp only [handle, ite_none_right_eq_some, map_eq_some_iff] at hcall
        obtain ⟨hrun, k₂, hu, ⟨⟩⟩ := hcall
        refine ⟨.unblock t, rfl, ?_, (intrOn_threadUnblock hu).trans hon⟩
        rw [step, if_pos ⟨hon, hrun⟩, hu]
      | semaUp s =>
        simp only [handle, bind_eq_some_iff, map_eq_some_iff] at hcall
        obtain ⟨k₂, hw, yields, -, ⟨⟩⟩ := hcall
        refine ⟨.semaUp s true, rfl, ?_, (intrOn_semaWake hw).trans hon⟩
        rw [step, if_pos hon, hw]
    obtain ⟨op, hok, hs, hon₁⟩ := hstep
    obtain ⟨hr, hon'⟩ := ih hon₁ h
    exact ⟨(Reaches.step op .start hok hs).trans hr, hon'⟩

theorem interrupt_reaches [Fintype K] (h : k.interrupt calls sliceOver = some k') :
    Reaches step (fun k op => locksSafely k op && donatesSafely k op) k k' := by
  simp only [interrupt, ite_none_right_eq_some, bind_eq_some_iff, Prod.exists] at h
  obtain ⟨hon, k₁, y, hcal, h⟩ := h
  obtain ⟨hr, hon₁⟩ := handler_reaches hon hcal
  cases y with
  | true =>
    refine .step .yield hr rfl ?_
    rw [step, if_pos hon₁]
    exact h
  | false => exact some.inj h ▸ hr

/-! ### Releasing a lock -/

omit [Fintype T] [DecidableEq T] [DecidableEq S] [DecidableEq K] in
theorem Led.nextHolder_eq_none (hl : Led k) (hs : k.status t ≠ some .blocked) :
    k.nextHolder t = none := by
  rw [nextHolder, waitedLock_of_status hs (hl.enqueued t), bind_none]

/-- Nobody who could run after `lock_release` outranks the running thread: those that wait for the
lock have donated their priorities. -/
theorem Led.releaseKeepsCpu (hl : Led k) (hd : DonationInv k) (hh : k.holder l = some k.cur) :
    k.releaseKeepsCpu l := by
  refine decide_eq_true ?_
  rintro t (⟨hs, hidle⟩ | hw)
  · exact hl.tops t hs hidle
  · apply hd.dominated t k.cur
    · rw [nextHolder, waitedLock_of_blockedIn hw]
      exact hh
    · exact ends_of_none (hl.nextHolder_eq_none (by simp [hl.running]))

theorem Ordered.locksSafely [Fintype K] (ho : Ordered k) (hd : DonationInv k)
    (hs : k.schedulesSafely (.code op)) (h : k.step op = some k') :
    k.locksSafely op && k.donatesSafely op := by
  simp only [schedulesSafely, Bool.and_eq_true] at hs
  obtain ⟨⟨hwak, hdon⟩, hlck⟩ := hs
  have hsafe := (waitsSafely_of_wakesInOrder hwak).1
  rcases ho with hl | ⟨l, he, -⟩
  · cases op with
    | lockRelease l =>
      simp only [step, call, Kernel.lockRelease, ite_none_right_eq_some] at h
      simp [Kernel.locksSafely, hsafe, hdon, hl.releaseKeepsCpu hd h.2.1]
    | cont =>
      simp only [Kernel.locksSafely, hsafe, hdon, Bool.and_true, Bool.true_and]
      split
      · next l hr =>
        simp only [step, resumeStep, hr, exitLoop, reduceCtorEq, if_false, bind_eq_some_iff,
          Kernel.lockRelease, ite_none_right_eq_some] at h
        obtain ⟨_, -, hh, -⟩ := h
        exact hl.releaseKeepsCpu hd hh
      · next l e hr => simpa [hr] using hlck
      · rfl
    | _ => simp_all [Kernel.locksSafely]
  · obtain ⟨rfl, -⟩ := he.wait_of_step h
    simp [Kernel.locksSafely, hsafe, hdon, he.resume]

theorem wakesInOrder_of_schedulesSafely (e : Event T S K) (h : k.schedulesSafely e) :
    k.wakesInOrder e := by
  cases e with
  | code op => exact (Bool.and_eq_true _ _ ▸ (Bool.and_eq_true _ _ ▸ h).1).1
  | interrupt calls sliceOver => exact h

variable [Fintype K]

theorem Ordered.next {e : Event T S K} (ho : Ordered k) (hs : k.wakesInOrder e)
    (h : k.next e = some k') : Ordered k' := by
  rcases ho with hl | ⟨l, he, hpln⟩
  · exact hl.next hs h
  · exact .inl (he.next hpln h)

theorem reaches_step {main idle : T} (hne : main ≠ idle) {value : S → ℕ}
    (hr : Reaches next (fun k e => schedulesSafely k e) (bootKernel false main idle value) k) :
    Reaches step (fun k op => locksSafely k op && donatesSafely k op)
      (bootKernel false main idle value) k ∧ Ordered k := by
  induction hr with
  | start => exact ⟨.start, .inl (led_boot hne value)⟩
  | step e _ hok h ih =>
    obtain ⟨hr, ho⟩ := ih
    refine ⟨?_, ho.next (wakesInOrder_of_schedulesSafely e hok) h⟩
    cases e with
    | code op =>
      have hs := (step_of_next h).1
      exact .step op hr (ho.locksSafely (donationInv_of_reaches hne hr) hok hs) hs
    | interrupt calls sliceOver => exact hr.trans (interrupt_reaches h)

/-! ### Chains -/

omit [Fintype T] [Fintype K] [DecidableEq T] [DecidableEq S] [DecidableEq K] in
/-- Along a chain that ends the priorities do not fall. -/
theorem DonationInv.le_of_waitsFor (hd : DonationInv k) (hw : k.WaitsFor w h)
    (hend : k.nextHolder h = none) : k.priority w ≤ k.priority h := by
  have hchain : Ends k.nextHolder w ∧ k.priority w ≤ k.priority h := by
    induction hw using Relation.ReflTransGen.head_induction_on with
    | refl => exact ⟨ends_of_none hend, le_rfl⟩
    | head hnext _ ih =>
      exact ⟨(ends_iff hnext).mpr ih.1, (hd.dominated _ _ hnext ih.1).trans ih.2⟩
  exact hchain.2

/-- **No priority inversion.**  In every run of safe steps in priority mode, whenever interrupts are
on, a thread that waits through any chain of locks for one that can run does not have a higher
priority than the running thread. -/
theorem waiting_le_running {main idle : T} (hne : main ≠ idle) {value : S → ℕ}
    {k : Kernel T S K} {w h : T}
    (hr : Reaches next (fun k e => schedulesSafely k e) (bootKernel false main idle value) k)
    (hon : k.intrOn) (hw : k.WaitsFor w h)
    (hrun : h = k.cur ∨ k.status h = some .ready ∧ h ≠ k.idle) :
    k.priority w ≤ k.priority k.cur := by
  obtain ⟨hrs, hord⟩ := reaches_step hne hr
  have hd := donationInv_of_reaches hne hrs
  rcases hord with hl | ⟨l, he, -⟩
  · -- a thread that can run is not blocked, so the chain ends with it
    have hend : k.nextHolder h = none := by
      apply hl.nextHolder_eq_none
      rcases hrun with rfl | ⟨hs, -⟩
      · simp [hl.running]
      · simp [hs]
    apply (hd.le_of_waitsFor hw hend).trans
    rcases hrun with rfl | ⟨hs, hidle⟩
    · exact le_rfl
    · exact hl.tops h hs hidle
  · simp [intrOn, he.resume, Resume.intrOn] at hon

/-- The initial thread holds a lock for which a thread waits that has raised its priority to 40, and a
thread of priority 35 is ready. -/
theorem waiting_le_running_donated :
    ∃ k : Kernel (Fin 4) Unit (Fin 1),
      Reaches next (fun k e => schedulesSafely k e) (bootKernel false 0 1 fun _ => 0) k ∧
      k.intrOn ∧ k.cur = 0 ∧ k.nextHolder 2 = some 0 ∧ k.priority 2 = 40 ∧
      k.walk .ready = some [3] ∧ k.priority 2 ≤ k.priority k.cur := by
  have h : (exec next (fun k e => schedulesSafely k e)
      (bootKernel false 0 1 fun _ => 0 : Kernel (Fin 4) Unit (Fin 1))
      [.code (.lockAcquire 0), .code (.create 2 31), .code (.launch 2 31), .code .cont,
        .code (.setPriority 40), .code (.lockAcquire 0), .code .cont, .code (.create 3 35),
        .code (.launch 3 35), .code .cont]).map
        (fun k => (k.intrOn, k.cur, k.nextHolder 2, k.priority 2, k.walk .ready)) =
      some (true, 0, some 0, 40, some [3]) := by rfl
  obtain ⟨k, hk, hv⟩ := map_eq_some_iff.mp h
  simp only [Prod.mk.injEq] at hv
  obtain ⟨hon, hc, hw, hp, hxs⟩ := hv
  have hr := reaches_of_exec hk
  exact ⟨k, hr, hon, hc, hw, hp, hxs,
    waiting_le_running (by decide) hr hon (.single hw) (.inl hc.symm)⟩

end Kernel

end Pintos
