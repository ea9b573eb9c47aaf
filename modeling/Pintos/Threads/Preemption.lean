import Pintos.Threads.Donation

/-! # Preemption

The machine of `Threads.Kernel` with interrupts as a whole: an external interrupt runs its handler,
and then yields if the handler has asked for it.

* **Handlers.**  A handler wakes threads, as the timer and the interrupt queues do, and calls
  `sema_up`.  Only `sema_up` compares priorities; the timer asks to yield when the time slice is over.
* **Invariant.**  Whenever the kernel is not about to block inside `lock_acquire`, no thread on the
  ready list has a higher priority than the running one (`Led`).
* **Result.**  This needs that no thread of higher priority is woken directly, or created: between
  `thread_unblock` and the last test of `thread_create` interrupts are on. -/


namespace Pintos
open Intrusive Runs Donation Function Option Kernel

variable {T S K : Type}

/-- What an interrupt handler does. -/
inductive HandlerCall (T S : Type) where
  /-- `thread_unblock`, by `thread_wake` or by an interrupt queue. -/
  | wake (t : T)
  | semaUp (s : S)
deriving DecidableEq, Repr

/-- The running thread goes on, or an interrupt comes.  `sliceOver`: the timer has found that the
time slice is over. -/
inductive Event (T S K : Type) where
  | code (op : Op T S K)
  | interrupt (calls : List (HandlerCall T S)) (sliceOver : Bool)

namespace Kernel

variable [Fintype T] [DecidableEq T] [DecidableEq S] [DecidableEq K]

/-- One call of a handler.  The flag is `yield_on_return`. -/
def handle : Kernel T S K × Bool → HandlerCall T S → Option (Kernel T S K × Bool)
  | (k, yieldOnReturn), .wake t =>
    if k.resume t = .run ∧ t ≠ k.idle then (k.threadUnblock t).map fun k => (k, yieldOnReturn)
    else none
  | (k, yieldOnReturn), .semaUp s =>
    (k.semaWake (.sem s)).bind fun k => k.shouldDefer.map fun yields => (k, yieldOnReturn || yields)

/-- `intr_handler` for an external interrupt. -/
def interrupt (k : Kernel T S K) (calls : List (HandlerCall T S)) (sliceOver : Bool) :
    Option (Kernel T S K) :=
  if k.intrOn then
    (calls.foldlM handle (k, sliceOver)).bind fun (k, yieldOnReturn) =>
      if yieldOnReturn then k.threadYield else some k
  else none

/-- One event.  `thread_create` puts the thread on the ready list with the priority that it has
created it with, and handlers run in interrupts only. -/
def next [Fintype K] (k : Kernel T S K) : Event T S K → Option (Kernel T S K)
  | .code (.launch t p) => if k.priority t = p then k.step (.launch t p) else none
  | .code (.semaUp _ true) => none
  | .code op => k.step op
  | .interrupt calls sliceOver => k.interrupt calls sliceOver

/-- A thread that is woken directly, or has just been created, does not have a higher priority than
the running thread, or the time slice is over; and waiting does not damage the lists. -/
def wakesInOrder (k : Kernel T S K) : Event T S K → Bool
  | .code (.unblock t) | .code (.launch t _) => decide (k.priority t ≤ k.priority k.cur)
  | .code op => k.waitsSafely op
  | .interrupt calls sliceOver => sliceOver || calls.all fun
      | .wake t => decide (k.priority t ≤ k.priority k.cur)
      | .semaUp _ => true

/-- No thread on the ready list has a higher priority than the running thread. -/
def Tops (k : Kernel T S K) : Prop :=
  ∀ t, k.status t = some .ready → t ≠ k.idle → k.priority t ≤ k.priority k.cur

/-- What is needed apart from the lists: priority mode, and who waits for which lock. -/
structure Plain (k : Kernel T S K) : Prop where
  mode : k.mlfqs = false
  wants : ∀ t, k.blockedLock t = (k.resume t).wantsLock

/-- The running thread has the highest priority. -/
structure Led (k : Kernel T S K) : Prop extends Inv k, Plain k where
  tops : Tops k

variable {k k' k₁ : Kernel T S K} {t : T} {l : K} {c : Queue S K → List T}

omit [Fintype T] [DecidableEq T] [DecidableEq S] [DecidableEq K] in
theorem Plain.congr (h : Plain k) (hm : k'.mlfqs = k.mlfqs) (hb : k'.blockedLock = k.blockedLock)
    (hr : k'.resume = k.resume) : Plain k' :=
  ⟨hm.trans h.mode, fun t => by rw [hb, hr]; exact h.wants t⟩

omit [Fintype T] [DecidableEq S] [DecidableEq K] in
theorem Plain.resumeAt (h : Plain k)
    (hr : r.wantsLock = (k.resume k.cur).wantsLock) : Plain (k.resumeAt r) := by
  refine ⟨h.mode, fun t => ?_⟩
  have hwnt := h.wants t
  by_cases e : t = k.cur
  · subst e
    simp only [Kernel.resumeAt, update_self]
    rw [hwnt, hr]
  · simpa [Kernel.resumeAt, update_of_ne e] using hwnt

/-! ### The scheduler -/

/-- `schedule` runs the thread of highest priority. -/
theorem Parked.led (hp : Parked k) (hpln : Plain k) (h : k.schedule = some k') : Led k' := by
  obtain ⟨c, hq⟩ := hp.queues
  obtain ⟨hinv, -⟩ := hp.schedule_spec h
  simp only [Kernel.schedule, hp.still, if_false, bind_eq_some_iff] at h
  obtain ⟨⟨k₁, m⟩, hnext, h⟩ := h
  split_ifs at h
  cases h
  have htop : ∃ h1, k₁ = { k with links := h1 } ∧ ∀ t ∈ c .ready, k.priority t ≤ k.priority m := by
    simp only [nextThreadToRun, walk_of_represents hq.represents, bind_eq_bind, bind_some] at hnext
    cases hmax : listMax k.priority (c .ready) with
    | none =>
      simp only [hmax] at hnext
      obtain ⟨rfl, rfl⟩ := hnext
      refine ⟨k.links, rfl, fun t ht => ?_⟩
      cases hxs : c .ready with
      | nil =>
        simp [hxs] at ht
      | cons x xs =>
        rw [hxs] at hmax
        cases hmax
    | some m' =>
      simp only [hmax, map_eq_some_iff] at hnext
      obtain ⟨h1, -, rfl, rfl⟩ := hnext
      exact ⟨h1, rfl, fun t ht => le_listMax hmax ht⟩
  obtain ⟨h1, rfl, hle⟩ := htop
  refine ⟨hinv, hpln.congr rfl rfl rfl, fun t ht hidle => ?_⟩
  have hne : t ≠ m := by
    rintro rfl
    simp [switchTo_status_self] at ht
  rcases switchTo_status_of_ne (k := { k with links := h1 }) hne with hs | ⟨-, hs⟩
  · exact hle t ((hq.belongs t .ready).mpr ⟨hs ▸ ht, hidle⟩)
  · simp [hs] at ht

theorem Inv.led_threadYield (hi : Inv k) (hpln : Plain k) (h : k.threadYield = some k') :
    Led k' := by
  obtain ⟨h1, hp, hs⟩ := hi.threadYield_spec h
  exact hp.led (hpln.congr rfl rfl rfl) hs

theorem Inv.tops_of_shouldDefer (hi : Inv k) (h : k.shouldDefer = some false) : Tops k := by
  obtain ⟨c, hq⟩ := hi.queues
  simp only [shouldDefer, walk_of_represents hq.represents, map_some, some.injEq] at h
  intro t ht hidle
  have hmem := (hq.belongs t .ready).mpr ⟨ht, hidle⟩
  cases hmax : listMax k.priority (c .ready) with
  | none =>
    cases hxs : c .ready with
    | nil =>
      simp [hxs] at hmem
    | cons x xs =>
      rw [hxs] at hmax
      cases hmax
  | some m =>
    rw [hmax] at h
    exact (le_listMax hmax hmem).trans (not_lt.mp (of_decide_eq_false h))

variable {r : Resume T S K} {e : Caller T K} {s : Sema S K} {p : ℤ} {op : Op T S K} {y y' : Bool}
  {calls : List (HandlerCall T S)}

theorem Inv.led_deferToMaxPriority {next : Kernel T S K → Option (Kernel T S K)} (hi : Inv k)
    (hpln : Plain k) (hr : k.MayStopAt r) (hwnt : r.wantsLock = none)
    (hcur : (k.resume k.cur).wantsLock = none) (hnext : Led k → next k = some k' → Led k')
    (h : k.deferToMaxPriority r next = some k') : Led k' := by
  simp only [Kernel.deferToMaxPriority, bind_eq_some_iff] at h
  obtain ⟨yields, hyld, h⟩ := h
  cases yields with
  | true => exact (hi.resumeAt hr).led_threadYield (hpln.resumeAt (hwnt.trans hcur.symm)) h
  | false => exact hnext ⟨hi, hpln, hi.tops_of_shouldDefer hyld⟩ h

omit [Fintype T] [DecidableEq S] [DecidableEq K] in
theorem Led.resumeAt (hl : Led k) (hr : k.MayStopAt r)
    (hwnt : r.wantsLock = (k.resume k.cur).wantsLock) : Led (k.resumeAt r) :=
  ⟨hl.toInv.resumeAt hr, hl.toPlain.resumeAt hwnt, hl.tops⟩

omit [Fintype T] [DecidableEq T] [DecidableEq S] [DecidableEq K] in
theorem Led.frame (hl : Led k) (hlnk : k'.links = k.links) (hs : k'.status = k.status)
    (hr : k'.resume = k.resume) (hc : k'.cur = k.cur) (hd : k'.idle = k.idle)
    (hm : k'.mlfqs = k.mlfqs) (hb : k'.blockedLock = k.blockedLock)
    (hp : k'.priority = k.priority) : Led k' := by
  refine ⟨hl.toInv.frame hlnk hs hr hc hd, hl.toPlain.congr hm hb hr, fun t ht hidle => ?_⟩
  rw [hp, hc]
  exact hl.tops t (hs ▸ ht) (hd ▸ hidle)

omit [Fintype T] [DecidableEq S] [DecidableEq K] in
theorem Inv.tops_threadUnblock (htops : Tops k) (hle : k.priority t ≤ k.priority k.cur)
    : Tops ({ k with links := h1 }.setStatus t .ready) := by
  intro u hu hidle
  by_cases e : u = t
  · exact e ▸ hle
  · exact htops u (by simpa [setStatus, e] using hu) hidle

/-! ### Priorities -/

theorem Plain.threadSetPriority [Fintype K] (hpln : Plain k)
    (hcur : (k.resume k.cur).wantsLock = none)
    (h : k.threadSetPriority p = some k') :
    ∃ q, p ≤ q ∧ k' = { k with
      priority := update k.priority k.cur q
      priorityOrg := update k.priorityOrg k.cur p } := by
  have hnone := (hpln.wants k.cur).trans hcur
  simp only [Kernel.threadSetPriority, donationDepth, recalculatePriority, bind_eq_bind,
    ite_none_right_eq_some, bind_eq_some_iff, hnone, bind_none,
    some.injEq, update_self] at h
  obtain ⟨-, -, ls, -, ws, -, rfl⟩ := h
  exact ⟨_, le_foldl_max (.inl le_rfl), rfl⟩

omit [Fintype T] [DecidableEq S] [DecidableEq K] in
theorem Led.raise (hl : Led k) (hq : k.priority k.cur ≤ q) :
    Led { k with priority := update k.priority k.cur q, priorityOrg := org } := by
  refine ⟨hl.toInv.frame rfl rfl rfl rfl rfl, hl.toPlain.congr rfl rfl rfl, fun t ht hidle => ?_⟩
  have hne : t ≠ k.cur := by
    rintro rfl
    cases hl.running.symm.trans ht
  simp only [update_of_ne hne, update_self]
  exact (hl.tops t ht hidle).trans hq

/-! ### Locks -/

section
variable (hl : Led k) (hc : k.cur ≠ k.idle) (hcur : (k.resume k.cur).wantsLock = none)
include hl hc hcur

omit [Fintype T] [DecidableEq S] in
theorem Led.releaseReturn (h : k.releaseReturn l e = some k') : Led k' := by
  cases e with
  | code =>
    cases h
    exact hl.resumeAt mayStopAt_run hcur.symm
  | exit e =>
    obtain ⟨h1, -, rfl⟩ := map_eq_some_iff.mp h
    exact (hl.resumeAt (r := .exiting e) ⟨by simp, fun e => absurd e hc⟩ hcur.symm).frame
      rfl rfl rfl rfl rfl rfl rfl rfl

theorem Led.releaseUnlink [Fintype K] (h : k.releaseUnlink l e = some k') : Led k' := by
  unfold Kernel.releaseUnlink at h
  rw [if_neg (by simp [hl.mode])] at h
  simp only [bind_eq_bind, bind_eq_some_iff] at h
  obtain ⟨h1, -, k₁, hk1, h⟩ := h
  have hl1 : Led { k with lockLinks := h1 } := hl.frame rfl rfl rfl rfl rfl rfl rfl rfl
  obtain ⟨q, hq, rfl⟩ := hl1.toPlain.threadSetPriority hcur hk1
  split_ifs at h with hdnt
  · have hi1 : Inv { k with
        lockLinks := h1
        priority := update k.priority k.cur q
        priorityOrg := update k.priorityOrg k.cur (k.priorityOrg k.cur) } :=
      hl.toInv.frame rfl rfl rfl rfl rfl
    exact hi1.led_deferToMaxPriority (r := .releaseReturn l e) (hl.toPlain.congr rfl rfl rfl)
      ⟨nofun, fun e => absurd e hc⟩ rfl hcur (fun hl2 h => hl2.releaseReturn hc hcur h) h
  · exact (hl1.raise ((not_lt.mp hdnt).trans hq)).releaseReturn hc hcur h

theorem Led.lockRelease [Fintype K] (h : k.lockRelease l e = some k') : Led k' := by
  simp only [Kernel.lockRelease, ite_none_right_eq_some, bind_eq_some_iff] at h
  obtain ⟨-, k₁, hw, h⟩ := h
  have hi0 : Inv { k with holder := update k.holder l none } :=
    hl.toInv.frame rfl rfl rfl rfl rfl
  obtain ⟨hi1, h1, st, rfl, -⟩ := hi0.semaWake hw
  exact hi1.led_deferToMaxPriority (hl.toPlain.congr rfl rfl rfl)
    ⟨by simp, fun e => absurd e hc⟩ rfl hcur (fun hl2 h => hl2.releaseUnlink hc hcur h) h

end

section
variable (hl : Led k)
include hl

omit [Fintype T] [DecidableEq S] in
theorem Led.lockTake (h : k.lockTake l = some k') : Led k' := by
  unfold Kernel.lockTake at h
  rw [if_neg (by simp [hl.mode])] at h
  obtain ⟨h1, -, rfl⟩ := map_eq_some_iff.mp h
  refine ⟨(hl.toInv.resumeAt mayStopAt_run).frame rfl rfl rfl rfl rfl, ⟨hl.mode, fun t => ?_⟩,
    hl.tops⟩
  have hwnt := hl.wants t
  by_cases e : t = k.cur
  · subst e
    simp [Kernel.resumeAt, Resume.wantsLock]
  · simpa [Kernel.resumeAt, e] using hwnt

omit [Fintype T] [DecidableEq T] in
theorem Led.countDown : Led (k.countDown s) :=
  hl.frame rfl rfl rfl rfl rfl rfl rfl rfl

omit [Fintype T] [DecidableEq T] [DecidableEq S] in
theorem Led.tryHolder : Led (k.tryHolder l success) :=
  hl.frame rfl rfl rfl rfl rfl rfl rfl rfl

omit [Fintype T] [DecidableEq S] in
theorem Led.tryLink (hcur : (k.resume k.cur).wantsLock = none)
    (h : k.tryLink l = some k') : Led k' := by
  obtain ⟨h1, -, rfl⟩ := map_eq_some_iff.mp h
  exact (hl.resumeAt mayStopAt_run hcur.symm).frame rfl rfl rfl rfl rfl rfl rfl rfl

omit [Fintype T] in
theorem Led.lockTryAcquire (hc : k.cur ≠ k.idle)
    (hcur : (k.resume k.cur).wantsLock = none) (h : k.lockTryAcquire l off = some k') : Led k' := by
  have hdcd : ∀ {k₁ : Kernel T S K} {success : Bool}, Led k₁ → k₁.cur ≠ k₁.idle →
      (k₁.resume k₁.cur).wantsLock = none → Led (k₁.resumeAt (.tryDecided l success)) :=
    fun hl1 hc1 hcur1 => hl1.resumeAt ⟨nofun, fun e => absurd e hc1⟩ hcur1.symm
  simp only [Kernel.lockTryAcquire] at h
  split_ifs at h
  · exact hl.countDown.tryHolder.tryLink hcur h
  · exact hl.tryHolder.tryLink hcur h
  · cases h
    exact hdcd hl.countDown hc hcur
  · cases h
    exact hdcd hl hc hcur

/-- `lock_acquire` gets the lock, or stops on the waiters list. -/
theorem Led.lockAcquire [Fintype K] (hc : k.cur ≠ k.idle) (h : k.lockAcquire l = some k') :
    Led k' ∨ Enqueued k' l ∧ Plain k' := by
  have hsnd := hl.toInv.lockAcquire hc h
  unfold Kernel.lockAcquire at h
  split_ifs at h with hh hm hv
  · simp [hl.mode] at hm
  · exact .inl (hl.countDown.lockTake h)
  · simp only [bind_eq_bind, bind_eq_some_iff, map_eq_some_iff] at h
    obtain ⟨h1, -, t, -, k₁, hrec, rfl⟩ := h
    obtain ⟨p, rfl⟩ := recalculatePriority_spec hrec
    refine .inr ⟨hsnd.resolve_left fun hi => ?_, hl.mode, fun u => ?_⟩
    · exact hi.enqueued k.cur l (by simp [Kernel.resumeAt])
    · have hwnt := hl.wants u
      by_cases e : u = k.cur
      · subst e
        simp [Kernel.resumeAt, Resume.wantsLock]
      · simpa [Kernel.resumeAt, e] using hwnt

theorem Led.semaDownWait (hc : k.cur ≠ k.idle)
    (hs : k.staleUnlinkHarmless) (hr : k.resume k.cur = r) (hw : r.waitsOn = some s)
    (h : k.semaDownWait s r = some k') : Led k' := by
  obtain ⟨h1, hp, hb⟩ := hl.toInv.semaDownWait_spec hc hs hw h
  have hpln := hl.toPlain.resumeAt (by rw [hr])
  exact hp.led (hpln.congr rfl rfl rfl) hb

end

theorem Enqueued.led_step [Fintype K] (he : Enqueued k l) (hpln : Plain k)
    (h : k.step op = some k') : Led k' := by
  obtain ⟨h1, hp, hb⟩ := he.semaDownWait_spec (he.wait_of_step h).2
  have hpln' : Plain (k.resumeAt (.lockAcquire l)) :=
    hpln.resumeAt (by rw [he.resume]; rfl)
  exact hp.led (hpln'.congr rfl rfl rfl) hb

/-! ### Steps -/

theorem Led.exitLoop [Fintype K] {e : Node T K} (hl : Led k) (hc : k.cur ≠ k.idle)
    (hcur : (k.resume k.cur).wantsLock = none) (h : k.exitLoop e = some k') : Led k' := by
  simp only [Kernel.exitLoop] at h
  split_ifs at h
  · refine (hl.toInv.park (by simp) fun q => ?_).led (hl.toPlain.congr rfl rfl rfl) h
    cases q <;> simp [Belongs, BlockedIn, setStatus]
  · cases e with
    | elem l =>
      obtain ⟨e', -, h⟩ := bind_eq_some_iff.mp h
      exact hl.lockRelease hc hcur h
    | head | tail => simp at h

theorem Led.resumeStep [Fintype K] (hl : Led k) (hs : k.waitsSafely .cont)
    (h : k.resumeStep = some k') :
    Led k' := by
  obtain ⟨hc, r, hr, hres⟩ := hl.toInv.resumes h
  have hwnt {r' : Resume T S K} (e : r'.wantsLock = r.wantsLock) :
      r'.wantsLock = (k.resume k.cur).wantsLock := e.trans (congrArg Resume.wantsLock hr).symm
  cases hres with
  | wait hw hv h =>
    exact hl.semaDownWait hc (staleUnlinkHarmless_of_waitsSafely hs (hr ▸ hw) hv) hr hw h
  | created h =>
    have hl1 := hl.resumeAt mayStopAt_run (hwnt rfl)
    simp only [createReturn] at h
    split_ifs at h
    · exact hl1.toInv.led_threadYield hl1.toPlain h
    · exact some.inj h ▸ hl1
  | down h => exact h ▸ hl.countDown.resumeAt mayStopAt_run (hwnt rfl)
  | take _ h => exact hl.countDown.lockTake h
  | tryHolder h => exact h ▸ hl.tryHolder.resumeAt ⟨by simp, fun e => absurd e hc⟩ (hwnt rfl)
  | tryLink h => exact hl.tryLink (hwnt rfl).symm h
  | releaseUnlink h => exact hl.releaseUnlink hc (by rw [hr]; rfl) h
  | releaseReturn h => exact hl.releaseReturn hc (by rw [hr]; rfl) h
  | exitLoop h => exact hl.exitLoop hc (by rw [hr]; rfl) h

/-- The running thread has the highest priority, or is about to block inside `lock_acquire`. -/
def Ordered (k : Kernel T S K) : Prop := Led k ∨ ∃ l, Enqueued k l ∧ Plain k

omit [Fintype T] in
theorem Led.initThread (hl : Led k) (h : k.initThread t p = some k') : Led k' := by
  have hinv := hl.toInv.initThread h
  simp only [Kernel.initThread, ite_none_right_eq_some, some.injEq] at h
  obtain ⟨⟨hnone, -⟩, rfl⟩ := h
  have hcur : k.cur ≠ t := by
    rintro rfl
    cases hl.running.symm.trans hnone
  refine ⟨hinv, ⟨hl.mode, fun u => ?_⟩, fun u hu hidle => ?_⟩
  · by_cases e : u = t
    · subst e
      simp [Resume.wantsLock]
    · simpa [e] using hl.wants u
  · by_cases e : u = t
    · subst e
      simp at hu
    · simpa [e, hcur] using hl.tops u (by simpa [e] using hu) hidle

omit [Fintype T] in
/-- A thread of no higher priority is woken. -/
theorem Led.threadUnblock (hl : Led k) (hr : k.resume t = .run) (ht : t ≠ k.idle)
    (hle : k.priority t ≤ k.priority k.cur) (hu : k.threadUnblock t = some k') : Led k' := by
  obtain ⟨hi1, h1, rfl⟩ := hl.toInv.threadUnblock hr ht hu
  exact ⟨hi1, hl.toPlain.congr rfl rfl rfl, Inv.tops_threadUnblock hl.tops hle⟩

theorem Led.call [Fintype K] (hl : Led k) (hr : k.resume k.cur = .run) (hc : k.cur ≠ k.idle)
    (hlnc : ∀ t p, op = .launch t p → k.priority t ≤ k.priority k.cur) (h : Calls k k' op) :
    Ordered k' := by
  have hcur : (k.resume k.cur).wantsLock = none := by rw [hr]; rfl
  cases h with
  | stay h => exact .inl (h ▸ hl)
  | create h => exact .inl (hl.initThread h)
  | @launch t k₁ p hrt ht hu h =>
    have hl1 := hl.threadUnblock hrt ht (hlnc t p rfl) hu
    obtain ⟨-, _, rfl⟩ := hl.toInv.threadUnblock hrt ht hu
    exact .inl (h ▸ hl1.resumeAt ⟨by simp, fun e => absurd e hc⟩ hcur.symm)
  | semaDown h => exact .inl (h ▸ hl.resumeAt ⟨by simp, fun e => absurd e hc⟩ hcur.symm)
  | semaTryDown h => exact .inl (h ▸ hl.countDown)
  | semaUp hw h =>
    obtain ⟨hi1, h1, st, rfl, -⟩ := hl.toInv.semaWake hw
    exact .inl (hi1.led_deferToMaxPriority (hl.toPlain.congr rfl rfl rfl) mayStopAt_run rfl hcur
      (fun hl1 e => some.inj e ▸ hl1) h)
  | @lockAcquire l h => exact (hl.lockAcquire hc h).imp_right fun he => ⟨l, he⟩
  | lockTryAcquire h => exact .inl (hl.lockTryAcquire hc hcur h)
  | lockRelease h => exact .inl (hl.lockRelease hc hcur h)
  | @setPriority p _ _ hp h =>
    obtain ⟨q, hq, rfl⟩ := hl.toPlain.threadSetPriority hcur hp
    split_ifs at h with hlt
    · have hi1 : Inv { k with
          priority := update k.priority k.cur q
          priorityOrg := update k.priorityOrg k.cur p } :=
        hl.toInv.frame rfl rfl rfl rfl rfl
      exact .inl (hi1.led_deferToMaxPriority (hl.toPlain.congr rfl rfl rfl) mayStopAt_run rfl hcur
        (fun hl1 e => some.inj e ▸ hl1) h)
    · cases h
      exact .inl (hl.raise ((not_lt.mp hlt).trans hq))
  | exit h =>
    obtain ⟨e, rfl⟩ := threadExit_eq_some hl.mode h
    exact .inl (hl.resumeAt ⟨by simp, fun e => absurd e hc⟩ hcur.symm)

/-- A step that is not taken by a handler. -/
theorem Led.step [Fintype K] {op : Op T S K} (hl : Led k) (hs : k.waitsSafely op)
    (hlnc : ∀ t p, op = .launch t p → k.priority t ≤ k.priority k.cur)
    (hwake : ∀ t, op = .unblock t → k.priority t ≤ k.priority k.cur)
    (hup : ∀ s, op ≠ .semaUp s true) (h : k.step op = some k') : Ordered k' := by
  cases steps_of_step h with
  | cont h1 => exact .inl (hl.resumeStep hs h1)
  | yield h1 => exact .inl (hl.toInv.led_threadYield hl.toPlain h1)
  | @unblock t hr ht h1 => exact .inl (hl.threadUnblock hr ht (hwake t rfl) h1)
  | @wake s => exact absurd rfl (hup s)
  | retune hm => simp [hl.mode] at hm
  | block hr h1 =>
    refine .inl ((hl.toInv.park (by simp) fun q => ?_).led (hl.toPlain.congr rfl rfl rfl) h1)
    cases q <;> simp [Belongs, BlockedIn, setStatus, hr, Resume.waitsOn]
  | call hr hc h1 => exact hl.call hr hc hlnc h1

/-! ### Interrupts -/

/-- One call of a handler.  As long as nobody has asked to yield, the running thread has the highest
priority. -/
theorem handle_keeps {call : HandlerCall T S} (hi : Inv k) (hpln : Plain k)
    (hwake : ∀ t, call = .wake t → y = false → k.priority t ≤ k.priority k.cur)
    (htops : y = false → Tops k) (h : handle (k, y) call = some (k', y')) :
    Inv k' ∧ Plain k' ∧ k'.priority = k.priority ∧ k'.cur = k.cur ∧ (y' = false → y = false) ∧
      (y' = false → Tops k') := by
  cases call with
  | wake t =>
    simp only [handle, ite_none_right_eq_some, map_eq_some_iff] at h
    obtain ⟨⟨hr, ht⟩, k₁, hu, rfl, rfl⟩ := h
    obtain ⟨hi1, h1, rfl⟩ := hi.threadUnblock hr ht hu
    exact ⟨hi1, hpln.congr rfl rfl rfl, rfl, rfl, id,
      fun hy => Inv.tops_threadUnblock (htops hy) (hwake t rfl hy)⟩
  | semaUp s =>
    simp only [handle, bind_eq_some_iff, map_eq_some_iff] at h
    obtain ⟨k₁, hw, yields, hyld, rfl, rfl⟩ := h
    obtain ⟨hi1, h1, st, rfl, -⟩ := hi.semaWake hw
    refine ⟨hi1, hpln.congr rfl rfl rfl, rfl, rfl, fun hy => (Bool.or_eq_false_iff.mp hy).1,
      fun hy => hi1.tops_of_shouldDefer ?_⟩
    rw [hyld, (Bool.or_eq_false_iff.mp hy).2]

theorem handler_keeps (hi : Inv k) (hpln : Plain k)
    (hwake : ∀ t, .wake t ∈ calls → y = false → k.priority t ≤ k.priority k.cur)
    (htops : y = false → Tops k) (h : calls.foldlM handle (k, y) = some (k', y')) :
    Inv k' ∧ Plain k' ∧ (y' = false → Tops k') := by
  induction calls generalizing k y with
  | nil =>
    obtain ⟨rfl, rfl⟩ := h
    exact ⟨hi, hpln, htops⟩
  | cons call calls ih =>
    simp only [List.foldlM_cons, bind_eq_bind, bind_eq_some_iff, Prod.exists] at h
    obtain ⟨k₁, y1, hcall, h⟩ := h
    obtain ⟨hi1, hpln1, hp, hc, hy, htops1⟩ :=
      handle_keeps hi hpln (fun t ht => hwake t (ht ▸ List.mem_cons_self)) htops hcall
    refine ih hi1 hpln1 (fun t ht hy1 => ?_) htops1 h
    rw [hp, hc]
    exact hwake t (List.mem_cons_of_mem call ht) (hy hy1)

theorem Led.interrupt (hl : Led k)
    (hwake : ∀ t, .wake t ∈ calls → sliceOver = false → k.priority t ≤ k.priority k.cur)
    (h : k.interrupt calls sliceOver = some k') : Led k' := by
  simp only [Kernel.interrupt, ite_none_right_eq_some, bind_eq_some_iff, Prod.exists] at h
  obtain ⟨-, k₁, y, hcal, h⟩ := h
  obtain ⟨hi1, hpln1, htops1⟩ :=
    handler_keeps hl.toInv hl.toPlain hwake (fun _ => hl.tops) hcal
  cases y with
  | true => exact hi1.led_threadYield hpln1 h
  | false => exact some.inj h ▸ ⟨hi1, hpln1, htops1 rfl⟩

/-! ### Runs -/

variable [Fintype K]

theorem step_of_next (h : k.next (.code op) = some k') :
    k.step op = some k' ∧ ∀ s, op ≠ .semaUp s true := by
  cases op with
  | launch t p =>
    simp only [next, ite_none_right_eq_some] at h
    exact ⟨h.2, nofun⟩
  | semaUp s hand =>
    cases hand with
    | true => cases h
    | false => exact ⟨h, nofun⟩
  | _ => exact ⟨h, nofun⟩

omit [Fintype T] [Fintype K] in
theorem waitsSafely_of_wakesInOrder (hs : k.wakesInOrder (.code op)) :
    k.waitsSafely op ∧ (∀ t p, op = .launch t p → k.priority t ≤ k.priority k.cur) ∧
      ∀ t, op = .unblock t → k.priority t ≤ k.priority k.cur := by
  cases op with
  | launch t p =>
    refine ⟨rfl, ?_, nofun⟩
    rintro _ _ ⟨⟩
    exact of_decide_eq_true hs
  | unblock t =>
    refine ⟨rfl, nofun, ?_⟩
    rintro _ ⟨⟩
    exact of_decide_eq_true hs
  | _ => exact ⟨hs, nofun, nofun⟩

theorem Led.next {e : Event T S K} (hl : Led k) (hs : k.wakesInOrder e) (h : k.next e = some k') :
    Ordered k' := by
  cases e with
  | interrupt calls sliceOver =>
    refine .inl (hl.interrupt (fun t ht hover => ?_) h)
    simp only [wakesInOrder, hover, Bool.false_or, List.all_eq_true] at hs
    exact of_decide_eq_true (hs _ ht)
  | code op =>
    obtain ⟨hstep, hup⟩ := step_of_next h
    obtain ⟨hsafe, hlnc, hwake⟩ := waitsSafely_of_wakesInOrder hs
    exact hl.step hsafe hlnc hwake hup hstep

theorem Enqueued.next {e : Event T S K} (he : Enqueued k l) (hpln : Plain k)
    (h : k.next e = some k') : Led k' := by
  have hoff : k.intrOn = false := by simp [intrOn, he.resume, Resume.intrOn]
  cases e with
  | interrupt calls sliceOver => simp [Kernel.next, Kernel.interrupt, hoff] at h
  | code op =>
    exact he.led_step hpln (step_of_next h).1

omit [Fintype T] [Fintype K] [DecidableEq S] [DecidableEq K] in
theorem led_boot {main idle : T} (hne : main ≠ idle) (value : S → ℕ) :
    Led (bootKernel (K := K) false main idle value) := by
  refine ⟨inv_boot hne value, ⟨rfl, fun _ => rfl⟩, fun t ht hidle => ?_⟩
  have hidle' : t ≠ idle := hidle
  by_cases e : t = main
  · simp [bootKernel, e] at ht
  · simp [bootKernel, hidle'] at ht

/-- **Strict priority.**  In every run in priority mode in which no thread is created or woken directly
whose priority is higher than that of the running thread, unless the time slice is over, no thread on
the ready list has a higher priority than the running thread whenever interrupts are on. -/
theorem ready_le_running_of_wakesInOrder {main idle : T} (hne : main ≠ idle) {value : S → ℕ}
    {k : Kernel T S K}
    (hr : Reaches next (fun k e => wakesInOrder k e) (bootKernel false main idle value) k)
    (hon : k.intrOn) :
    ∃ xs, k.walk .ready = some xs ∧ ∀ t ∈ xs, k.priority t ≤ k.priority k.cur := by
  have hord := hr.invariant (P := Ordered) (.inl (led_boot hne value)) <| by
    rintro k e k' (hl | ⟨l, he, hpln⟩) hs h
    · exact hl.next hs h
    · exact .inl (he.next hpln h)
  rcases hord with hl | ⟨l, he, -⟩
  · obtain ⟨c, hq⟩ := hl.queues
    refine ⟨c .ready, walk_of_represents hq.represents _, fun t ht => ?_⟩
    obtain ⟨hrdy, hidle⟩ := (hq.belongs t .ready).mp ht
    exact hl.tops t hrdy hidle
  · simp [intrOn, he.resume, Resume.intrOn] at hon

/-- A thread of priority 20 sleeps and is woken by the timer. -/
theorem ready_le_running_of_wakesInOrder_slept :
    ∃ k : Kernel (Fin 3) Unit (Fin 1),
      Reaches next (fun k e => wakesInOrder k e) (bootKernel false 0 1 fun _ => 0) k ∧ k.intrOn ∧
      k.walk .ready = some [2] ∧ k.priority 2 = 20 ∧ k.priority 2 ≤ k.priority k.cur := by
  have h : (exec next (fun k e => wakesInOrder k e)
      (bootKernel false 0 1 fun _ => 0 : Kernel (Fin 3) Unit (Fin 1))
      [.code (.create 2 20), .code (.launch 2 20), .code .cont, .code (.setPriority 10),
        .code .block, .code (.setPriority 31), .interrupt [.wake 2] false]).map
        (fun k => (k.intrOn, k.walk .ready, k.priority 2)) = some (true, some [2], 20) := by
    decide
  obtain ⟨k, hk, hv⟩ := map_eq_some_iff.mp h
  simp only [Prod.mk.injEq] at hv
  obtain ⟨hon, hw, hp⟩ := hv
  have hr := reaches_of_exec hk
  obtain ⟨xs, hxs, hle⟩ := ready_le_running_of_wakesInOrder (by decide) hr hon
  obtain rfl : [2] = xs := mem_unique hw hxs
  exact ⟨k, hr, hon, hw, hp, hle 2 (by simp)⟩

/-- A thread of priority 40 sleeps.  The timer wakes it in the middle of a time slice, and the
initial thread of priority 31 goes on. -/
theorem running_lt_ready_after_timer :
    ∃ k : Kernel (Fin 3) Unit (Fin 1),
      Reaches next (fun _ _ => True) (bootKernel false 0 1 fun _ => 0) k ∧ k.intrOn ∧
      k.cur = 0 ∧ k.priority 0 = 31 ∧ k.walk .ready = some [2] ∧ k.priority 2 = 40 := by
  have h : (exec next (fun _ _ => True)
      (bootKernel false 0 1 fun _ => 0 : Kernel (Fin 3) Unit (Fin 1))
      [.code (.create 2 40), .code (.launch 2 40), .code .cont, .code .block,
        .interrupt [.wake 2] false]).map
        (fun k => (k.intrOn, k.cur, k.priority 0, k.walk .ready, k.priority 2)) =
      some (true, 0, 31, some [2], 40) := by decide
  obtain ⟨k, hk, hv⟩ := map_eq_some_iff.mp h
  simp only [Prod.mk.injEq] at hv
  exact ⟨k, reaches_of_exec hk, hv⟩

end Kernel

end Pintos
