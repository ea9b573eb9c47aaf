import Pintos.Lib.Runs
import Pintos.Threads.Kernel

/-! # The ready list and the waiters lists

`QueueInv k c` says that the links of `k` lay out the lists `c` and that each thread is on exactly
the list it belongs on: the ready list when it is `READY`, the waiters list of a semaphore while it
is blocked inside its `sema_down`.  Every step keeps it but one: a thread that waits in `sema_down`
takes its `elem` off a list that it has left long ago, through pointers that nobody has updated
since.  `staleUnlinkHarmless` is the condition under which this changes no list. -/


namespace Pintos
open Intrusive Runs Function Option List Resume Kernel

variable {T S K : Type}

namespace Kernel

/-- `t` is blocked inside the `sema_down` of `s`. -/
def BlockedIn (k : Kernel T S K) (t : T) (s : Sema S K) : Prop :=
  k.status t = some .blocked ∧ (k.resume t).waitsOn = some s

/-- The list that the `elem` of `t` has to be on. -/
def Belongs (k : Kernel T S K) (t : T) : Queue S K → Prop
  | .ready => k.status t = some .ready ∧ t ≠ k.idle
  | .waiters s => k.BlockedIn t s

/-- The links lay out the lists `c`, and every thread is where it belongs. -/
structure QueueInv (k : Kernel T S K) (c : Queue S K → List T) : Prop where
  represents : Represents k.links c
  belongs : ∀ t q, t ∈ c q ↔ k.Belongs t q

/-- As `QueueInv`, but `t₀` is on no list. -/
structure Detached (k : Kernel T S K) (c : Queue S K → List T) (t₀ : T) : Prop where
  represents : Represents k.links c
  off : ∀ q, t₀ ∉ c q
  belongs : ∀ t, t ≠ t₀ → ∀ q, t ∈ c q ↔ k.Belongs t q

/-- One thread runs, and no thread is between the two pushes of `lock_acquire`. -/
structure Calm (k : Kernel T S K) : Prop where
  running : k.status k.cur = some .running
  sole : ∀ t, k.status t = some .running → t = k.cur
  idle : k.resume k.idle = .run
  enqueued : ∀ t l, k.resume t ≠ .lockEnqueued l

/-- What holds between any two steps, the inside of `lock_acquire` apart. -/
structure Inv (k : Kernel T S K) : Prop extends Calm k where
  queues : ∃ c, QueueInv k c

/-- What `schedule` finds: the old thread has been put where it belongs and no thread runs. -/
structure Parked (k : Kernel T S K) : Prop where
  queues : ∃ c, QueueInv k c
  still : ∀ t, k.status t ≠ some .running
  idle : k.resume k.idle = .run
  enqueued : ∀ t l, k.resume t ≠ .lockEnqueued l

/-- The running thread is inside `lock_acquire`, with interrupts off: it is on the waiters list
already and still runs. -/
structure Enqueued (k : Kernel T S K) (l : K) : Prop where
  resume : k.resume k.cur = .lockEnqueued l
  value : k.value (.lock l) = 0
  running : k.status k.cur = some .running
  sole : ∀ t, k.status t = some .running → t = k.cur
  idle : k.resume k.idle = .run
  enqueued : ∀ t l, t ≠ k.cur → k.resume t ≠ .lockEnqueued l
  queues : ∃ c, Represents k.links c ∧ k.cur ∈ c (.waiters (.lock l)) ∧
    ∀ t, t ≠ k.cur → ∀ q, t ∈ c q ↔ k.Belongs t q

section steps
variable [Fintype T] [Fintype K] [DecidableEq T] [DecidableEq S] [DecidableEq K]

/-- What the running thread does when it goes on inside a call. -/
inductive Resumes (k k' : Kernel T S K) : Resume T S K → Prop
  | wait (hw : r.waitsOn = some s) (hv : k.value s = 0)
      (h : k.semaDownWait s r = some k') : Resumes k k' r
  | created (h : k.createReturn p = some k') : Resumes k k' (.created p)
  | down (h : (k.countDown (.sem s)).resumeAt .run = k') : Resumes k k' (.semaDown s)
  | take (hv : k.value (.lock l) ≠ 0) (h : (k.countDown (.lock l)).lockTake l = some k') :
      Resumes k k' (.lockAcquire l)
  | tryHolder (h : (k.tryHolder l success).resumeAt (.tryLink l) = k') :
      Resumes k k' (.tryDecided l success)
  | tryLink (h : k.tryLink l = some k') : Resumes k k' (.tryLink l)
  | releaseUnlink (h : k.releaseUnlink l e = some k') : Resumes k k' (.releaseUnlink l e)
  | releaseReturn (h : k.releaseReturn l e = some k') : Resumes k k' (.releaseReturn l e)
  | exitLoop (h : k.exitLoop e = some k') : Resumes k k' (.exiting e)

/-- What an ordinary thread does in a call. -/
inductive Calls (k k' : Kernel T S K) : Op T S K → Prop
  | stay (h : k = k') : Calls k k' op
  | create (h : k.initThread t p = some k') : Calls k k' (.create t p)
  | launch (hr : k.resume t = .run) (ht : t ≠ k.idle) (hu : k.threadUnblock t = some k₁)
      (h : k₁.resumeAt (.created p) = k') : Calls k k' (.launch t p)
  | semaDown (h : k.resumeAt (.semaDown s) = k') : Calls k k' (.semaDown s)
  | semaTryDown (h : k.countDown (.sem s) = k') : Calls k k' (.semaTryDown s)
  | semaUp (hw : k.semaWake (.sem s) = some k₁) (h : k₁.deferToMaxPriority .run some = some k') :
      Calls k k' (.semaUp s handler)
  | lockAcquire (h : k.lockAcquire l = some k') : Calls k k' (.lockAcquire l)
  | lockTryAcquire (h : k.lockTryAcquire l off = some k') : Calls k k' (.lockTryAcquire l off)
  | lockRelease (h : k.lockRelease l .code = some k') : Calls k k' (.lockRelease l)
  | setPriority (hm : k.mlfqs = false) (hp : k.threadSetPriority p = some k₁)
      (h : (if p < k.priority k.cur then k₁.deferToMaxPriority .run some else some k₁) = some k') :
      Calls k k' (.setPriority p)
  | exit (h : k.threadExit = some k') : Calls k k' .exit

theorem calls_of_call {k k' : Kernel T S K} (h : k.call op = some k') : Calls k k' op := by
  unfold Kernel.call at h
  split at h
  · exact .create h
  · simp only [ite_none_right_eq_some, map_eq_some_iff] at h
    obtain ⟨⟨hr, ht⟩, k1, hu, h⟩ := h
    exact .launch hr ht hu h
  · exact .semaDown (some.inj h)
  · split_ifs at h
    · exact .semaTryDown (some.inj h)
    · exact .stay (some.inj h)
  · obtain ⟨k1, hw, h⟩ := bind_eq_some_iff.mp h
    exact .semaUp hw h
  · exact .lockAcquire h
  · exact .lockTryAcquire h
  · exact .lockRelease h
  · cases hm : k.mlfqs with
    | true => exact .stay (some.inj (by simpa [hm] using h))
    | false =>
      obtain ⟨k1, hp, h⟩ := bind_eq_some_iff.mp ((if_neg (by simp [hm])).symm.trans h)
      exact .setPriority hm hp h
  · exact .exit h
  · cases h

/-- What one step is. -/
inductive Steps (k k' : Kernel T S K) : Op T S K → Prop
  | cont (h : k.resumeStep = some k') : Steps k k' .cont
  | yield (h : k.threadYield = some k') : Steps k k' .yield
  | unblock (hr : k.resume t = .run) (ht : t ≠ k.idle) (h : k.threadUnblock t = some k') :
      Steps k k' (.unblock t)
  | wake (h : k.semaWake (.sem s) = some k') : Steps k k' (.semaUp s true)
  | retune (hm : k.mlfqs = true) (h : { k with priority := p } = k') :
      Steps k k' (.retune p)
  | block (hr : k.resume k.cur = .run) (h : k.threadBlock = some k') : Steps k k' .block
  | call (hr : k.resume k.cur = .run) (hc : k.cur ≠ k.idle)
      (h : Calls k k' op) : Steps k k' op

theorem steps_of_step {k k' : Kernel T S K} (h : k.step op = some k') : Steps k k' op := by
  unfold step at h
  split at h
  · exact .cont h
  all_goals simp only [ite_none_right_eq_some] at h
  · exact .yield h.2
  · exact .unblock h.1.2.1 h.1.2.2 h.2
  · exact .wake h.2
  · exact .retune h.1.2 (some.inj h.2)
  · exact .block h.1 h.2
  · exact .call h.1.1 h.1.2 (calls_of_call h.2)

end steps

variable {k k' : Kernel T S K} {c : Queue S K → List T} {t t₀ : T} {q : Queue S K}

theorem belongs_congr (hs : k'.status t = k.status t) (hr : k'.resume t = k.resume t)
    (hi : k'.idle = k.idle) : k'.Belongs t q ↔ k.Belongs t q := by
  cases q <;> simp [Belongs, BlockedIn, hs, hr, hi]

theorem not_belongs_of_running (hs : k.status t = some .running) (q : Queue S K) :
    ¬ k.Belongs t q := by
  cases q <;> simp [Belongs, BlockedIn, hs]

theorem QueueInv.detached (hq : QueueInv k c) (h : ∀ q, ¬ k.Belongs t₀ q) : Detached k c t₀ :=
  ⟨hq.represents, fun q hm => h q ((hq.belongs t₀ q).mp hm), fun t _ q => hq.belongs t q⟩

theorem Inv.detached (hi : Inv k) : ∃ c, Detached k c k.cur := by
  obtain ⟨c, hq⟩ := hi.queues
  exact ⟨c, hq.detached (not_belongs_of_running hi.running)⟩

theorem Inv.frame (hi : Inv k) (hl : k'.links = k.links) (hs : k'.status = k.status)
    (hr : k'.resume = k.resume) (hc : k'.cur = k.cur) (hd : k'.idle = k.idle) : Inv k' := by
  obtain ⟨c, hq⟩ := hi.queues
  refine ⟨⟨?_, ?_, ?_, ?_⟩, c, hl ▸ hq.represents, fun t q => ?_⟩
  · rw [hs, hc]; exact hi.running
  · rw [hs, hc]; exact hi.sole
  · rw [hr, hd]; exact hi.idle
  · rw [hr]; exact hi.enqueued
  · rw [hq.belongs, belongs_congr (by rw [hs]) (by rw [hr]) hd]

theorem Detached.keep (hd : Detached k c t₀) (hl : k'.links = k.links)
    (hs : ∀ t, t ≠ t₀ → k'.status t = k.status t) (hr : ∀ t, t ≠ t₀ → k'.resume t = k.resume t)
    (hi : k'.idle = k.idle) (hb : ∀ q', ¬ k'.Belongs t₀ q') : QueueInv k' c := by
  refine ⟨hl ▸ hd.represents, fun t q' => ?_⟩
  by_cases ht : t = t₀
  · subst ht
    simp [hd.off, hb]
  · rw [belongs_congr (hs t ht) (hr t ht) hi, ← hd.belongs t ht]

section lists
variable [DecidableEq T] [DecidableEq S] [DecidableEq K]

theorem detached_of_remove (hr : Represents k.links c) (hm : t₀ ∈ c q)
    (hb : ∀ t, t ≠ t₀ → ∀ q, t ∈ c q ↔ k.Belongs t q)
    (hrm : listRemove k.links (.elem t₀) = some h) :
    Detached { k with links := h } (update c q ((c q).erase t₀)) t₀ := by
  refine ⟨represents_listRemove hr hm hrm, fun q' hm' => ?_, fun t ht q' => ?_⟩
  · by_cases e : q' = q
    · subst e
      rw [update_self] at hm'
      exact ((hr.nodup q').not_mem_erase) hm'
    · rw [update_of_ne e] at hm'
      exact e (hr.disjoint hm' hm)
  · have hb' : Belongs { k with links := h } t q' ↔ k.Belongs t q' := belongs_congr rfl rfl rfl
    rw [hb', ← hb t ht]
    by_cases e : q' = q
    · subst e
      rw [update_self, mem_erase_of_ne ht]
    · rw [update_of_ne e]

theorem Detached.push (hd : Detached k c t₀) (hp : listPushBack k.links q t₀ = some k'.links)
    (hs : ∀ t, t ≠ t₀ → k'.status t = k.status t) (hr : ∀ t, t ≠ t₀ → k'.resume t = k.resume t)
    (hi : k'.idle = k.idle) (hb : ∀ q', k'.Belongs t₀ q' ↔ q' = q) :
    QueueInv k' (update c q (c q ++ [t₀])) := by
  refine ⟨represents_listPushBack hd.represents hd.off hp, fun t q' => ?_⟩
  by_cases ht : t = t₀
  · subst ht
    rw [hb]
    by_cases e : q' = q
    · subst e; simp
    · simp [hd.off, e]
  · rw [belongs_congr (hs t ht) (hr t ht) hi, ← hd.belongs t ht]
    by_cases e : q' = q
    · subst e; simp [ht]
    · rw [update_of_ne e]

theorem walk_of_represents [Fintype T] (hr : Represents k.links c) (q : Queue S K) :
    k.walk q = some (c q) :=
  hr.walk q (Nat.lt_succ_of_le (hr.nodup q).length_le_card)

end lists

/-! ### Switching threads -/

section switch
variable [DecidableEq T]

/-- The thread that a switch leaves keeps its status, unless it was dying and its page is given
back. -/
theorem switchTo_status_of_ne (ht : t ≠ m) :
    (k.switchTo m).status t = k.status t ∨
      k.status t = some .dying ∧ (k.switchTo m).status t = none := by
  simp only [switchTo]
  split_ifs with hd
  · by_cases e : t = k.cur
    · subst e; simp [hd.1]
    · simp [e, ht]
  · simp [ht]

theorem switchTo_status_self (m : T) : (k.switchTo m).status m = some .running := by
  simp only [switchTo]
  split_ifs with hd
  · simp [Ne.symm hd.2.1]
  · simp

theorem switchTo_belongs (ht : t ≠ m) : (k.switchTo m).Belongs t q ↔ k.Belongs t q := by
  rcases switchTo_status_of_ne ht with hs | ⟨hd, hn⟩
  · exact belongs_congr hs rfl rfl
  · cases q <;> simp [Belongs, BlockedIn, hd, hn]

theorem Detached.switchTo (hd : Detached k c m) (hs : ∀ t, k.status t ≠ some .running)
    (hi : k.resume k.idle = .run) (he : ∀ t l, k.resume t ≠ .lockEnqueued l) :
    Inv (k.switchTo m) where
  queues := by
    refine ⟨c, hd.represents, fun t q => ?_⟩
    by_cases e : t = m
    · subst e
      simp only [hd.off, false_iff]
      exact not_belongs_of_running (switchTo_status_self t) q
    · rw [hd.belongs t e, switchTo_belongs e]
  running := switchTo_status_self m
  sole := by
    intro t ht
    by_contra e
    rcases switchTo_status_of_ne e with h | ⟨_, h⟩
    · exact hs t (h ▸ ht)
    · cases h.symm.trans ht
  idle := hi
  enqueued := he

theorem Inv.park (hi : Inv k) (hst : st ≠ .running)
    (hb : ∀ q, ¬ (k.setStatus k.cur st).Belongs k.cur q) : Parked (k.setStatus k.cur st) := by
  obtain ⟨c, hd⟩ := hi.detached
  refine ⟨⟨c, hd.keep rfl (fun t ht => ?_) (fun _ _ => rfl) rfl hb⟩, fun t ht => ?_, hi.idle,
    hi.enqueued⟩
  · simp [setStatus, ht]
  · by_cases e : t = k.cur
    · subst e; simp [setStatus, hst] at ht
    · exact e (hi.sole t (by simpa [setStatus, e] using ht))

end switch

section scheduler
variable [Fintype T] [DecidableEq T] [DecidableEq S] [DecidableEq K]

/-- The thread that `next_thread_to_run` returns is on no list any more. -/
theorem QueueInv.nextThreadToRun (hq : QueueInv k c) (hi : k.resume k.idle = .run)
    (h : k.nextThreadToRun = some (k', m)) :
    ∃ h' c', k' = { k with links := h' } ∧ Detached k' c' m := by
  simp only [Kernel.nextThreadToRun, walk_of_represents hq.represents, bind_eq_bind, bind_some] at h
  cases hmax : listMax k.priority (c .ready) with
  | none =>
    simp only [hmax] at h
    obtain ⟨rfl, rfl⟩ := h
    refine ⟨k.links, c, rfl, hq.detached fun q => ?_⟩
    cases q <;> simp [Belongs, BlockedIn, hi, waitsOn]
  | some m' =>
    simp only [hmax, map_eq_some_iff] at h
    obtain ⟨h', hrm, rfl, rfl⟩ := h
    exact ⟨h', _, rfl, detached_of_remove hq.represents (listMax_mem hmax)
      (fun t _ => hq.belongs t) hrm⟩

theorem QueueInv.status_of_nextThreadToRun (hq : QueueInv k c)
    (h : k.nextThreadToRun = some (k', m)) : k.status m = some .ready ∨ m = k.idle := by
  simp only [Kernel.nextThreadToRun, walk_of_represents hq.represents, bind_eq_bind, bind_some] at h
  cases hmax : listMax k.priority (c .ready) with
  | none =>
    simp only [hmax, some.injEq, Prod.mk.injEq] at h
    exact .inr h.2.symm
  | some m' =>
    simp only [hmax, map_eq_some_iff, Prod.mk.injEq] at h
    obtain ⟨h', -, -, rfl⟩ := h
    exact .inl ((hq.belongs m' .ready).mp (listMax_mem hmax)).1

theorem Parked.schedule_spec (hp : Parked k) (h : k.schedule = some k') :
    Inv k' ∧ ∃ h1 m, k' = { k with links := h1 }.switchTo m ∧
      (k.status m = some .ready ∨ m = k.idle) := by
  obtain ⟨c, hq⟩ := hp.queues
  simp only [schedule, hp.still, if_false, bind_eq_some_iff] at h
  obtain ⟨⟨k1, m⟩, hnext, h⟩ := h
  obtain ⟨h1, c1, rfl, hd⟩ := hq.nextThreadToRun hp.idle hnext
  split_ifs at h
  cases h
  exact ⟨hd.switchTo hp.still hp.idle hp.enqueued, h1, m, rfl, hq.status_of_nextThreadToRun hnext⟩

theorem Parked.schedule (hp : Parked k) (h : k.schedule = some k') : Inv k' :=
  (hp.schedule_spec h).1

omit [Fintype T] in
theorem Inv.parkReady (hi : Inv k) (hidle : k.cur ≠ k.idle)
    (hl : listPushBack k.links .ready k.cur = some h1) :
    Parked ({ k with links := h1 }.setStatus k.cur .ready) := by
  obtain ⟨c, hd⟩ := hi.detached
  refine ⟨⟨_, hd.push hl (fun t ht => ?_) (fun _ _ => rfl) rfl fun q => ?_⟩, fun t ht => ?_,
    hi.idle, hi.enqueued⟩
  · simp [setStatus, ht]
  · cases q <;> simp [Belongs, BlockedIn, setStatus, hidle]
  · by_cases e : t = k.cur
    · subst e; simp [setStatus] at ht
    · exact e (hi.sole t (by simpa [setStatus, e] using ht))

theorem Inv.threadYield_spec (hi : Inv k) (h : k.threadYield = some k') :
    ∃ h1, Parked ({ k with links := h1 }.setStatus k.cur .ready) ∧
      ({ k with links := h1 }.setStatus k.cur .ready).schedule = some k' := by
  simp only [threadYield] at h
  split_ifs at h with hidle
  · refine ⟨k.links, hi.park (by simp) fun q => ?_, h⟩
    cases q <;> simp [Belongs, BlockedIn, setStatus, hidle]
  · obtain ⟨h1, hl, h⟩ := bind_eq_some_iff.mp h
    exact ⟨h1, hi.parkReady hidle hl, h⟩

theorem Inv.threadYield (hi : Inv k) (h : k.threadYield = some k') : Inv k' := by
  obtain ⟨h1, hp, hs⟩ := hi.threadYield_spec h
  exact hp.schedule hs

theorem Inv.threadBlock (hi : Inv k) (hr : k.resume k.cur = .run) (h : k.threadBlock = some k') :
    Inv k' := by
  refine (hi.park (by simp) fun q => ?_).schedule h
  cases q <;> simp [Belongs, BlockedIn, setStatus, hr, waitsOn]

theorem Inv.die (hi : Inv k) (h : (k.setStatus k.cur .dying).schedule = some k') : Inv k' := by
  refine (hi.park (by simp) fun q => ?_).schedule h
  cases q <;> simp [Belongs, BlockedIn, setStatus]

omit [Fintype T] in
/-- `thread_unblock` of a blocked thread that is on no list. -/
theorem Detached.threadUnblock (hd : Detached k c t) (hc : Calm k) (ht : t ≠ k.idle)
    (h : k.threadUnblock t = some k') :
    Inv k' ∧ ∃ h1, k' = { k with links := h1 }.setStatus t .ready := by
  simp only [Kernel.threadUnblock, ite_none_right_eq_some, map_eq_some_iff] at h
  obtain ⟨hb, h1, hl, rfl⟩ := h
  have hcur : k.cur ≠ t := by
    rintro rfl
    simp [hc.running] at hb
  refine ⟨⟨⟨?_, fun t' ht' => ?_, hc.idle, hc.enqueued⟩, _,
    hd.push hl (fun t' ht' => ?_) (fun _ _ => rfl) rfl fun q => ?_⟩, h1, rfl⟩
  · simpa [setStatus, hcur] using hc.running
  · by_cases e : t' = t
    · subst e; simp [setStatus] at ht'
    · exact hc.sole t' (by simpa [setStatus, e] using ht')
  · simp [setStatus, ht']
  · cases q <;> simp [Belongs, BlockedIn, setStatus, ht]

omit [Fintype T] in
theorem Inv.threadUnblock (hi : Inv k) (hr : k.resume t = .run) (ht : t ≠ k.idle)
    (h : k.threadUnblock t = some k') :
    Inv k' ∧ ∃ h1, k' = { k with links := h1 }.setStatus t .ready := by
  obtain ⟨c, hq⟩ := hi.queues
  have hb : k.status t = some .blocked := by
    simp only [Kernel.threadUnblock, ite_none_right_eq_some] at h
    exact h.1
  refine (hq.detached fun q => ?_).threadUnblock hi.toCalm ht h
  cases q <;> simp [Belongs, BlockedIn, hb, hr, waitsOn]

/-- `sema_up` counts, and makes at most one thread ready, one that was blocked on the semaphore. -/
theorem Inv.semaWake (hi : Inv k) (h : k.semaWake s = some k') :
    Inv k' ∧ ∃ h1 st,
      k' = { k with
        links := h1, status := st
        value := update k.value s ((k.value s + 1) % 2 ^ 32) } ∧
      ∀ t, st t = k.status t ∨ k.BlockedIn t s ∧ st t = some .ready := by
  obtain ⟨c, hq⟩ := hi.queues
  simp only [Kernel.semaWake, walk_of_represents hq.represents, bind_eq_bind, bind_some] at h
  cases hmax : listMax k.priority (c (.waiters s)) with
  | none =>
    simp only [hmax, some.injEq] at h
    subst h
    exact ⟨hi.frame rfl rfl rfl rfl rfl, k.links, k.status, rfl, fun t => .inl rfl⟩
  | some t =>
    simp only [hmax, bind_eq_some_iff, some.injEq] at h
    obtain ⟨k1, ⟨h1, hrm, hu⟩, rfl⟩ := h
    have hm := listMax_mem hmax
    have hb := (hq.belongs _ _).mp hm
    have ht : t ≠ k.idle := by
      rintro rfl
      have hw := hb.2
      simp [hi.idle, waitsOn] at hw
    have hd := detached_of_remove hq.represents hm (fun t _ => hq.belongs t) hrm
    obtain ⟨hi1, h2, rfl⟩ :=
      hd.threadUnblock { hi with } ht hu
    refine ⟨hi1.frame rfl rfl rfl rfl rfl, h2, update k.status t (some .ready), rfl, fun t' => ?_⟩
    by_cases e : t' = t
    · subst e
      exact .inr ⟨hb, by simp⟩
    · exact .inl (by simp [e])

end scheduler

/-! ### The running thread moves on -/

section calls

/-- Places where a running thread can be, the inside of `lock_acquire` apart. -/
def MayStopAt (k : Kernel T S K) (r : Resume T S K) : Prop :=
  (∀ l, r ≠ .lockEnqueued l) ∧ (k.cur = k.idle → r = .run)

theorem Inv.resumeAt [DecidableEq T] (hi : Inv k) (hr : k.MayStopAt r) : Inv (k.resumeAt r) := by
  obtain ⟨c, hd⟩ := hi.detached
  refine ⟨⟨hi.running, hi.sole, ?_, fun t l => ?_⟩, c,
    hd.keep rfl (fun _ _ => rfl) (fun t ht => ?_) rfl (not_belongs_of_running hi.running)⟩
  · by_cases e : k.cur = k.idle
    · simp [Kernel.resumeAt, e, hr.2 e]
    · simpa [Kernel.resumeAt, Ne.symm e] using hi.idle
  · by_cases e : t = k.cur
    · subst e; simpa [Kernel.resumeAt] using hr.1 l
    · simpa [Kernel.resumeAt, e] using hi.enqueued t l
  · simp [Kernel.resumeAt, ht]

theorem mayStopAt_run : k.MayStopAt .run := ⟨by simp, fun _ => rfl⟩

theorem Inv.cur_ne_idle (hi : Inv k) (hr : k.resume k.cur ≠ .run) : k.cur ≠ k.idle :=
  fun e => hr (e ▸ hi.idle)

theorem Inv.initThread [DecidableEq T] [DecidableEq S] [DecidableEq K] (hi : Inv k)
    (h : k.initThread t p = some k') : Inv k' := by
  simp only [Kernel.initThread, ite_none_right_eq_some, some.injEq] at h
  obtain ⟨⟨hn, -⟩, rfl⟩ := h
  obtain ⟨c, hq⟩ := hi.queues
  have hcur : k.cur ≠ t := by
    rintro rfl
    simp [hi.running] at hn
  have hoff : ∀ q, t ∉ c q := fun q hm => by
    have := (hq.belongs t q).mp hm
    cases q <;> simp [Belongs, BlockedIn, hn] at this
  have hnode : ∀ x : Node (Queue S K) T, Live c x → x ≠ .elem t := by
    rintro x hx rfl
    obtain ⟨q, hm⟩ := hx
    exact hoff q hm
  refine ⟨⟨?_, fun t' ht' => ?_, ?_, fun t' l => ?_⟩, c, ?_, fun t' q => ?_⟩
  · simpa [hcur] using hi.running
  · by_cases e : t' = t
    · subst e; simp at ht'
    · exact hi.sole t' (by simpa [e] using ht')
  · by_cases e : k.idle = t
    · simp [e]
    · simpa [e] using hi.idle
  · by_cases e : t' = t
    · subst e; simp
    · simpa [e] using hi.enqueued t' l
  · exact hq.represents.congr (fun x hx _ => by simp [hnode x hx])
      (fun x hx _ => by simp [hnode x hx])
  · by_cases e : t' = t
    · subst e
      simp only [hoff]
      cases q <;> simp [Belongs, BlockedIn, waitsOn]
    · rw [hq.belongs]
      exact Iff.symm (belongs_congr (by simp [e]) (by simp [e]) rfl)

end calls

section machine
variable [Fintype T] [DecidableEq T] [DecidableEq S] [DecidableEq K]

theorem recalculatePriority_spec [Fintype K] (h : recalculatePriority n k t = some k') :
    ∃ p, k' = { k with priority := p } := by
  induction n generalizing k t with
  | zero =>
    simp only [recalculatePriority, ite_none_right_eq_some, some.injEq] at h
    exact ⟨k.priority, h.2 ▸ rfl⟩
  | succ n ih =>
    simp only [recalculatePriority, bind_eq_bind, ite_none_right_eq_some, bind_eq_some_iff] at h
    obtain ⟨-, ls, -, ws, -, h⟩ := h
    split at h
    · obtain ⟨p, rfl⟩ := ih h
      exact ⟨p, rfl⟩
    · exact ⟨_, (some.inj h).symm⟩

theorem threadSetPriority_spec [Fintype K] (h : k.threadSetPriority p = some k') :
    ∃ p q, k' = { k with priority := p, priorityOrg := q } := by
  simp only [threadSetPriority, ite_none_right_eq_some] at h
  obtain ⟨p, rfl⟩ := recalculatePriority_spec h.2
  exact ⟨p, _, rfl⟩

variable {r : Resume T S K} {s : Sema S K} {l : K} {e : Caller T K} {mlfqs : Bool} {main idle : T}

section
variable (hi : Inv k)
include hi

theorem Inv.deferToMaxPriority {next : Kernel T S K → Option (Kernel T S K)} (hr : k.MayStopAt r)
    (hn : next k = some k' → Inv k') (h : k.deferToMaxPriority r next = some k') : Inv k' := by
  simp only [Kernel.deferToMaxPriority, bind_eq_some_iff] at h
  obtain ⟨yields, -, h⟩ := h
  split_ifs at h
  · exact (hi.resumeAt hr).threadYield h
  · exact hn h

omit [Fintype T] [DecidableEq T] in
theorem Inv.countDown : Inv (k.countDown s) :=
  hi.frame rfl rfl rfl rfl rfl

omit [Fintype T] [DecidableEq T] [DecidableEq S] in
theorem Inv.tryHolder : Inv (k.tryHolder l success) :=
  hi.frame rfl rfl rfl rfl rfl

omit [Fintype T] [DecidableEq S] in
theorem Inv.lockTake (h : k.lockTake l = some k') : Inv k' := by
  simp only [Kernel.lockTake] at h
  split_ifs at h
  · cases h
    exact (hi.resumeAt mayStopAt_run).frame rfl rfl rfl rfl rfl
  · obtain ⟨h1, -, rfl⟩ := map_eq_some_iff.mp h
    exact (hi.resumeAt mayStopAt_run).frame rfl rfl rfl rfl rfl

omit [Fintype T] [DecidableEq S] in
theorem Inv.releaseReturn (hc : k.cur ≠ k.idle) (h : k.releaseReturn l e = some k') : Inv k' := by
  cases e with
  | code =>
    cases h
    exact hi.resumeAt mayStopAt_run
  | exit e =>
    obtain ⟨h1, -, rfl⟩ := map_eq_some_iff.mp h
    exact (hi.resumeAt ⟨by simp, fun e => absurd e hc⟩).frame rfl rfl rfl rfl rfl

theorem Inv.releaseUnlink [Fintype K] (hc : k.cur ≠ k.idle)
    (h : k.releaseUnlink l e = some k') : Inv k' := by
  have hstop : ∀ {k : Kernel T S K}, k.cur ≠ k.idle → k.MayStopAt (.releaseReturn l e) :=
    fun hc => ⟨by simp, fun e => absurd e hc⟩
  simp only [Kernel.releaseUnlink] at h
  split at h
  · exact hi.deferToMaxPriority (hstop hc) (hi.releaseReturn hc) h
  · obtain ⟨h1, -, h⟩ := bind_eq_some_iff.mp h
    obtain ⟨k1, hk1, h⟩ := bind_eq_some_iff.mp h
    obtain ⟨p, q, rfl⟩ := threadSetPriority_spec hk1
    have hi1 : Inv { k with lockLinks := h1, priority := p, priorityOrg := q } :=
      hi.frame rfl rfl rfl rfl rfl
    split_ifs at h
    · exact hi1.deferToMaxPriority (hstop hc) (hi1.releaseReturn hc) h
    · exact hi1.releaseReturn hc h

theorem Inv.lockRelease [Fintype K] (hc : k.cur ≠ k.idle)
    (h : k.lockRelease l e = some k') : Inv k' := by
  simp only [Kernel.lockRelease, ite_none_right_eq_some, bind_eq_some_iff] at h
  obtain ⟨-, k1, hw, h⟩ := h
  have hi0 : Inv { k with holder := update k.holder l none } :=
    hi.frame rfl rfl rfl rfl rfl
  obtain ⟨hi1, h1, st, rfl, -⟩ := hi0.semaWake hw
  exact hi1.deferToMaxPriority ⟨by simp, fun e => absurd e hc⟩ (hi1.releaseUnlink hc) h

omit [Fintype T] [DecidableEq S] in
theorem Inv.tryLink (h : k.tryLink l = some k') : Inv k' := by
  obtain ⟨h1, -, rfl⟩ := map_eq_some_iff.mp h
  exact (hi.resumeAt mayStopAt_run).frame rfl rfl rfl rfl rfl

omit [Fintype T] in
theorem Inv.lockTryAcquire (hc : k.cur ≠ k.idle)
    (h : k.lockTryAcquire l off = some k') : Inv k' := by
  simp only [Kernel.lockTryAcquire] at h
  split_ifs at h
  · exact hi.countDown.tryHolder.tryLink h
  · exact hi.tryHolder.tryLink h
  · cases h
    exact hi.countDown.resumeAt ⟨by simp, fun e => absurd e hc⟩
  · cases h
    exact hi.resumeAt ⟨by simp, fun e => absurd e hc⟩

theorem Inv.exitLoop [Fintype K] {e : Node T K} (hc : k.cur ≠ k.idle)
    (h : k.exitLoop e = some k') : Inv k' := by
  simp only [Kernel.exitLoop] at h
  split_ifs at h
  · exact hi.die h
  · cases e with
    | elem l =>
      obtain ⟨e', -, h⟩ := bind_eq_some_iff.mp h
      exact hi.lockRelease hc h
    | head | tail => simp at h

theorem Inv.threadExit (hc : k.cur ≠ k.idle) (h : k.threadExit = some k') : Inv k' := by
  simp only [Kernel.threadExit] at h
  split_ifs at h
  · exact hi.die h
  · obtain ⟨e, -, rfl⟩ := map_eq_some_iff.mp h
    exact hi.resumeAt ⟨by simp, fun e => absurd e hc⟩

theorem Inv.createReturn (h : k.createReturn p = some k') : Inv k' := by
  have hi1 := hi.resumeAt mayStopAt_run
  simp only [Kernel.createReturn] at h
  split_ifs at h
  · exact hi1.threadYield h
  · exact some.inj h ▸ hi1

/-- `lock_acquire` of a taken lock stops inside, on the waiters list. -/
theorem Inv.lockAcquire [Fintype K] (hc : k.cur ≠ k.idle)
    (h : k.lockAcquire l = some k') : Inv k' ∨ Enqueued k' l := by
  simp only [Kernel.lockAcquire] at h
  split_ifs at h with hh hm hv
  · cases h
    exact .inl (hi.resumeAt ⟨by simp, fun e => absurd e hc⟩)
  · exact .inl (hi.countDown.lockTake h)
  · right
    obtain ⟨h1, hl, h⟩ := bind_eq_some_iff.mp h
    obtain ⟨t, -, h⟩ := bind_eq_some_iff.mp h
    obtain ⟨k1, hrec, rfl⟩ := map_eq_some_iff.mp h
    obtain ⟨p, rfl⟩ := recalculatePriority_spec hrec
    obtain ⟨c, hd⟩ := hi.detached
    refine ⟨by simp [Kernel.resumeAt], by simpa [Kernel.resumeAt] using hv, hi.running, hi.sole,
      ?_, fun t l' ht => ?_, _, represents_listPushBack hd.represents hd.off hl,
      by simp [Kernel.resumeAt], fun t ht q => ?_⟩
    · simpa [Kernel.resumeAt, Ne.symm hc] using hi.idle
    · have ht' : t ≠ k.cur := ht
      simpa [Kernel.resumeAt, ht'] using hi.enqueued t l'
    · have ht' : t ≠ k.cur := ht
      refine Iff.trans ?_ (Iff.trans (hd.belongs t ht' q)
        (Iff.symm (belongs_congr rfl (by simp [Kernel.resumeAt, ht']) rfl)))
      by_cases e : q = .waiters (.lock l)
      · subst e; simp [ht']
      · rw [update_of_ne e]

end

/-! ### Waiting -/

/-- The node is part of a list: a header, or the element of a thread that is ready or blocked in a
`sema_down`. -/
def listed (k : Kernel T S K) : Node (Queue S K) T → Bool
  | .head _ | .tail _ => true
  | .elem t =>
    decide (k.status t = some .ready ∧ t ≠ k.idle) ||
      decide (k.status t = some .blocked ∧ (k.resume t).waitsOn.isSome)

/-- The nodes to which the left-over pointers of the running thread lead are, as far as they are
part of a list, still each other's neighbours. -/
def staleUnlinkHarmless (k : Kernel T S K) : Bool :=
  match k.links.prev (.elem k.cur), k.links.next (.elem k.cur) with
  | some p, some n =>
    (!k.listed p || decide (k.links.next p = some n)) &&
      (!k.listed n || decide (k.links.prev n = some p))
  | _, _ => true

omit [Fintype T] [DecidableEq S] [DecidableEq K] in
theorem QueueInv.listed_of_live (hq : QueueInv k c) (hx : Live c x) : k.listed x := by
  cases x with
  | head | tail => rfl
  | elem t =>
    obtain ⟨q, hm⟩ := hx
    have hb := (hq.belongs t q).mp hm
    cases q with
    | ready => simpa [listed] using .inl hb
    | waiters s => simpa [listed] using .inr ⟨hb.1, by simp [hb.2]⟩

omit [Fintype T] in
/-- Under the condition, the line of `sema_down` that removes the caller's `elem` changes no list
of threads. -/
theorem QueueInv.semaDownUnlink (hq : QueueInv k c) (hs : k.staleUnlinkHarmless)
    (hu : k.semaDownUnlink = some h) : Represents h c := by
  simp only [Kernel.semaDownUnlink] at hu
  split_ifs at hu
  · refine represents_listRemove_stale hq.represents (fun p n hp hn => ?_) hu
    simp only [staleUnlinkHarmless, hp, hn, Bool.and_eq_true, Bool.or_eq_true, decide_eq_true_eq] at hs
    refine ⟨fun hl => ?_, fun hl => ?_⟩
    · exact hs.1.resolve_left (by simp [hq.listed_of_live hl])
    · exact hs.2.resolve_left (by simp [hq.listed_of_live hl])
  · exact some.inj hu ▸ hq.represents

omit [Fintype T] in
/-- A thread off all lists goes to the waiters list and blocks. -/
theorem Detached.parkWait (hd : Detached { k with links := h } c k.cur)
    (hsole : ∀ t, k.status t = some .running → t = k.cur) (hidle : k.resume k.idle = .run)
    (henq : ∀ t l, t ≠ k.cur → k.resume t ≠ .lockEnqueued l) (hc : k.cur ≠ k.idle)
    (hw : r.waitsOn = some s) (hp : listPushBack h (.waiters s) k.cur = some h') :
    Parked (({ k with links := h' }.resumeAt r).setStatus k.cur .blocked) := by
  refine ⟨⟨_, hd.push hp (fun t ht => ?_) (fun t ht => ?_) rfl fun q => ?_⟩, fun t ht => ?_, ?_,
    fun t l => ?_⟩
  · simp [resumeAt, setStatus, ht]
  · simp [resumeAt, setStatus, ht]
  · cases q <;> simp [Belongs, BlockedIn, resumeAt, setStatus, hw, eq_comm]
  · by_cases e : t = k.cur
    · subst e; simp [setStatus] at ht
    · exact e (hsole t (by simpa [resumeAt, setStatus, e] using ht))
  · simpa [resumeAt, setStatus, Ne.symm hc] using hidle
  · by_cases e : t = k.cur
    · subst e
      have hr : r ≠ .lockEnqueued l := by rintro rfl; simp [waitsOn] at hw
      simpa [resumeAt, setStatus] using hr
    · simpa [resumeAt, setStatus, e] using henq t l e

section
variable (hi : Inv k) (hc : k.cur ≠ k.idle) (hs : k.staleUnlinkHarmless) (hw : r.waitsOn = some s)
  (h : k.semaDownWait s r = some k')
include hi hc hs hw h

/-- What a wait in `sema_down` hands to `schedule`. -/
theorem Inv.semaDownWait_spec :
    ∃ h1, Parked (({ k with links := h1 }.resumeAt r).setStatus k.cur .blocked) ∧
      (({ k with links := h1 }.resumeAt r).setStatus k.cur .blocked).schedule = some k' := by
  simp only [semaDownWait, bind_eq_bind, bind_eq_some_iff] at h
  obtain ⟨h1, hu, h2, hp, hb⟩ := h
  obtain ⟨c, hq⟩ := hi.queues
  have hd := hq.detached (not_belongs_of_running hi.running)
  exact ⟨h2, Detached.parkWait ⟨hq.semaDownUnlink hs hu, hd.off, hd.belongs⟩ hi.sole hi.idle
    (fun t l _ => hi.enqueued t l) hc hw hp, hb⟩

theorem Inv.semaDownWait : Inv k' := by
  obtain ⟨h1, hp, hb⟩ := hi.semaDownWait_spec hc hs hw h
  exact hp.schedule hb

end

omit [Fintype T] in
/-- After `lock_acquire` has put its caller on the waiters list, the removal in `sema_down` is
of a listed element. -/
theorem Enqueued.semaDownUnlink (he : Enqueued k l) (hu : k.semaDownUnlink = some h) :
    ∃ c, Represents k.links c ∧
      Detached { k with links := h } (update c (.waiters (.lock l))
        ((c (.waiters (.lock l))).erase k.cur)) k.cur := by
  obtain ⟨c, hr, hm, hb⟩ := he.queues
  obtain ⟨p, n, hp, hn, -⟩ := hr.unlink hm
  have hrm : listRemove k.links (.elem k.cur) = some h := by
    simpa [Kernel.semaDownUnlink, isInterior, hp, hn] using hu
  exact ⟨c, hr, detached_of_remove hr hm hb hrm⟩

omit [Fintype T] [DecidableEq T] [DecidableEq S] [DecidableEq K] in
theorem Enqueued.cur_ne_idle (he : Enqueued k l) : k.cur ≠ k.idle := by
  intro e
  have := he.resume
  simp [e, he.idle] at this

theorem Enqueued.semaDownWait_spec (he : Enqueued k l)
    (h : k.semaDownWait (.lock l) (.lockAcquire l) = some k') :
    ∃ h1, Parked (({ k with links := h1 }.resumeAt (.lockAcquire l)).setStatus k.cur .blocked) ∧
      (({ k with links := h1 }.resumeAt (.lockAcquire l)).setStatus k.cur .blocked).schedule =
        some k' := by
  simp only [semaDownWait, bind_eq_bind, bind_eq_some_iff] at h
  obtain ⟨h1, hu, h2, hp, hb⟩ := h
  obtain ⟨c, -, hd⟩ := he.semaDownUnlink hu
  exact ⟨h2, hd.parkWait he.sole he.idle he.enqueued he.cur_ne_idle rfl hp, hb⟩

/-! ### Runs -/

/-- The invariant of the machine. -/
def Sound (k : Kernel T S K) : Prop := Inv k ∨ ∃ l, Enqueued k l

/-- Whenever the step makes a thread wait in `sema_down`, the removal of its `elem` is harmless.
There is nothing to ask at `lockEnqueued`, where the element is listed. -/
def waitsSafely (k : Kernel T S K) : Op T S K → Bool
  | .cont =>
    match (k.resume k.cur).waitsOn with
    | some s => decide (k.value s ≠ 0) || k.staleUnlinkHarmless
    | none => true
  | _ => true

omit [Fintype T] in
theorem staleUnlinkHarmless_of_waitsSafely (hs : k.waitsSafely .cont)
    (hw : (k.resume k.cur).waitsOn = some s) (hv : k.value s = 0) : k.staleUnlinkHarmless := by
  simpa [waitsSafely, hw, hv] using hs

theorem Inv.resumes [Fintype K] (hi : Inv k) (h : k.resumeStep = some k') :
    k.cur ≠ k.idle ∧ ∃ r, k.resume k.cur = r ∧ Resumes k k' r := by
  refine ⟨hi.cur_ne_idle fun e => by simp [Kernel.resumeStep, e] at h, _, rfl, ?_⟩
  cases hr : k.resume k.cur <;> simp only [Kernel.resumeStep, hr] at h
  case semaDown s =>
    split_ifs at h with hv
    · exact .wait rfl hv h
    · exact .down (some.inj h)
  case run => cases h
  case created => exact .created h
  case lockEnqueued l => exact absurd hr (hi.enqueued k.cur l)
  case lockAcquire l =>
    split_ifs at h with hv
    · exact .wait rfl hv h
    · exact .take hv h
  case tryDecided => exact .tryHolder (some.inj h)
  case tryLink => exact .tryLink h
  case releaseUnlink => exact .releaseUnlink h
  case releaseReturn => exact .releaseReturn h
  case exiting => exact .exitLoop h

theorem Inv.resumeStep [Fintype K] (hi : Inv k) (hs : k.waitsSafely .cont)
    (h : k.resumeStep = some k') :
    Inv k' := by
  obtain ⟨hc, r, hr, hres⟩ := hi.resumes h
  cases hres with
  | wait hw hv h =>
    exact hi.semaDownWait hc (staleUnlinkHarmless_of_waitsSafely hs (hr ▸ hw) hv) hw h
  | created h => exact hi.createReturn h
  | down h => exact h ▸ hi.countDown.resumeAt mayStopAt_run
  | take _ h => exact hi.countDown.lockTake h
  | tryHolder h => exact h ▸ hi.tryHolder.resumeAt ⟨by simp, fun e => absurd e hc⟩
  | tryLink h => exact hi.tryLink h
  | releaseUnlink h => exact hi.releaseUnlink hc h
  | releaseReturn h => exact hi.releaseReturn hc h
  | exitLoop h => exact hi.exitLoop hc h

theorem Inv.calls [Fintype K] (hi : Inv k) (hc : k.cur ≠ k.idle) (h : Calls k k' op) :
    Sound k' := by
  cases h with
  | stay h => exact .inl (h ▸ hi)
  | create h => exact .inl (hi.initThread h)
  | launch hr ht hu h =>
    obtain ⟨hi1, h1, rfl⟩ := hi.threadUnblock hr ht hu
    exact .inl (h ▸ hi1.resumeAt ⟨by simp, fun e => absurd e hc⟩)
  | semaDown h => exact .inl (h ▸ hi.resumeAt ⟨by simp, fun e => absurd e hc⟩)
  | semaTryDown h => exact .inl (h ▸ hi.countDown)
  | semaUp hw h =>
    obtain ⟨hi1, -⟩ := hi.semaWake hw
    exact .inl (hi1.deferToMaxPriority mayStopAt_run (fun e => some.inj e ▸ hi1) h)
  | @lockAcquire l h => exact (hi.lockAcquire hc h).imp_right fun he => ⟨l, he⟩
  | lockTryAcquire h => exact .inl (hi.lockTryAcquire hc h)
  | lockRelease h => exact .inl (hi.lockRelease hc h)
  | setPriority _ hp h =>
    obtain ⟨p, q, rfl⟩ := threadSetPriority_spec hp
    have hi1 : Inv { k with priority := p, priorityOrg := q } := hi.frame rfl rfl rfl rfl rfl
    split_ifs at h
    · exact .inl (hi1.deferToMaxPriority mayStopAt_run (fun e => some.inj e ▸ hi1) h)
    · exact .inl (some.inj h ▸ hi1)
  | exit h => exact .inl (hi.threadExit hc h)

theorem Inv.step [Fintype K] {op : Op T S K} (hi : Inv k) (hs : k.waitsSafely op)
    (h : k.step op = some k') : Sound k' := by
  cases steps_of_step h with
  | cont h1 => exact .inl (hi.resumeStep hs h1)
  | yield h1 => exact .inl (hi.threadYield h1)
  | unblock hr ht h1 => exact .inl (hi.threadUnblock hr ht h1).1
  | wake h1 => exact .inl (hi.semaWake h1).1
  | retune _ h1 => exact .inl (h1 ▸ hi.frame rfl rfl rfl rfl rfl)
  | block hr h1 => exact .inl (hi.threadBlock hr h1)
  | call _ hc h1 => exact hi.calls hc h1

/-- There is only one step: the thread waits. -/
theorem Enqueued.wait_of_step [Fintype K] (he : Enqueued k l) (h : k.step op = some k') :
    op = .cont ∧ k.semaDownWait (.lock l) (.lockAcquire l) = some k' := by
  have hoff : k.intrOn = false := by simp [intrOn, he.resume, Resume.intrOn]
  cases op with
  | cont => exact ⟨rfl, by
      simpa [step, resumeStep, he.resume, he.value] using h⟩
  | semaUp s hand => cases hand <;> simp [step, hoff, he.resume] at h
  | _ => simp [step, hoff, he.resume] at h

theorem Sound.step [Fintype K] {op : Op T S K} (hk : Sound k) (hs : k.waitsSafely op)
    (h : k.step op = some k') : Sound k' := by
  rcases hk with hi | ⟨l, he⟩
  · exact hi.step hs h
  · obtain ⟨h1, hp, hb⟩ := he.semaDownWait_spec (he.wait_of_step h).2
    exact .inl (hp.schedule hb)

omit [Fintype T] [DecidableEq S] [DecidableEq K] in
theorem inv_boot (_ : main ≠ idle) (value : S → ℕ) :
    Inv (bootKernel (K := K) mlfqs main idle value) where
  running := by simp [bootKernel]
  sole := by
    intro t ht
    by_contra e
    have e' : t ≠ main := e
    by_cases hi : t = idle <;> cases mlfqs <;> simp [bootKernel, e'] at ht
  idle := rfl
  enqueued := by simp [bootKernel]
  queues := by
    refine ⟨fun _ => [], ⟨fun q => ?_, fun _ => nodup_nil, by simp⟩, fun t q => ?_⟩
    · exact isChain_pair.mpr ⟨rfl, rfl⟩
    · cases q with
      | ready =>
        by_cases hm : t = main
        · simp [Belongs, bootKernel, hm]
        · by_cases hi : t = idle <;> simp [Belongs, bootKernel, hi]
      | waiters s => simp [Belongs, BlockedIn, bootKernel, waitsOn]

/-! ### What the invariant says about walks -/

/-- The lists as one meets them when walking through the links. -/
structure QueuesIntact (k : Kernel T S K) : Prop where
  ready : ∃ xs, k.walk .ready = some xs ∧
    ∀ t, k.status t = some .ready → t ≠ k.idle → xs.count t = 1
  blocked : ∀ t s, k.BlockedIn t s → ∀ q, ∃ xs, k.walk q = some xs ∧
    xs.count t = if q = .waiters s then 1 else 0
  running : ∀ q, ∃ xs, k.walk q = some xs ∧ k.cur ∉ xs

/-- The removal in `sema_down` takes no thread but the caller off any list. -/
def UnlinksCallerOnly (k : Kernel T S K) : Prop :=
  ∀ h, k.semaDownUnlink = some h → ∀ q, ∃ xs, k.walk q = some xs ∧
    { k with links := h }.walk q = some (xs.erase k.cur)

/-- The semaphore on which the next step of the running thread waits. -/
def aboutToWait (k : Kernel T S K) : Option (Sema S K) :=
  match k.resume k.cur with
  | .semaDown s => if k.value (.sem s) = 0 then some (.sem s) else none
  | .lockEnqueued l | .lockAcquire l => if k.value (.lock l) = 0 then some (.lock l) else none
  | _ => none

theorem Inv.queuesIntact (hi : Inv k) : QueuesIntact k := by
  obtain ⟨c, hq⟩ := hi.queues
  have hw := walk_of_represents hq.represents
  refine ⟨⟨c .ready, hw _, fun t hs ht => ?_⟩, fun t s hb q => ⟨c q, hw q, ?_⟩,
    fun q => ⟨c q, hw q, fun hm => ?_⟩⟩
  · exact count_eq_one_of_mem (hq.represents.nodup _) ((hq.belongs t .ready).mpr ⟨hs, ht⟩)
  · have hm := (hq.belongs t (.waiters s)).mpr hb
    split_ifs with e
    · subst e
      exact count_eq_one_of_mem (hq.represents.nodup _) hm
    · exact count_eq_zero_of_not_mem fun hm' => e (hq.represents.disjoint hm' hm)
  · exact not_belongs_of_running hi.running q ((hq.belongs _ q).mp hm)

theorem Inv.unlinksCallerOnly (hi : Inv k) (hs : k.staleUnlinkHarmless) : UnlinksCallerOnly k := by
  intro h hu q
  obtain ⟨c, hq⟩ := hi.queues
  have hoff : k.cur ∉ c q := fun hm =>
    not_belongs_of_running hi.running q ((hq.belongs _ q).mp hm)
  refine ⟨c q, walk_of_represents hq.represents q, ?_⟩
  rw [erase_of_not_mem hoff]
  exact walk_of_represents (hq.semaDownUnlink hs hu) q

theorem Enqueued.unlinksCallerOnly (he : Enqueued k l) : UnlinksCallerOnly k := by
  intro h hu q
  obtain ⟨c, hr, hd⟩ := he.semaDownUnlink hu
  refine ⟨c q, walk_of_represents hr q, ?_⟩
  rw [walk_of_represents hd.represents]
  by_cases e : q = .waiters (.lock l)
  · subst e; simp
  · have := hd.off q
    rw [update_of_ne e] at this ⊢
    rw [erase_of_not_mem this]

variable [Fintype K]

/-- **Scheduler queue integrity.**  In every run in which each wait finds its left-over pointers
harmless, all lists are intact whenever interrupts are on, and no wait unlinks another thread. -/
theorem queuesIntact_of_waitsSafely {mlfqs : Bool} {main idle : T} (hne : main ≠ idle)
    {value : S → ℕ} {k : Kernel T S K}
    (hr : Reaches step (fun k op => waitsSafely k op) (bootKernel mlfqs main idle value) k) :
    (k.intrOn → QueuesIntact k) ∧
      (∀ s, k.aboutToWait = some s → k.waitsSafely .cont → UnlinksCallerOnly k) := by
  have hsound := hr.invariant (P := Sound) (.inl (inv_boot hne value)) fun _ _ _ hk hs h =>
    hk.step hs h
  rcases hsound with hi | ⟨l, he⟩
  · refine ⟨fun _ => hi.queuesIntact, fun s hw hs => ?_⟩
    refine hi.unlinksCallerOnly ?_
    simp only [aboutToWait] at hw
    split at hw
    · next hr =>
        split_ifs at hw with hv
        exact staleUnlinkHarmless_of_waitsSafely hs (by rw [hr]; rfl) hv
    · next hr => exact absurd hr (hi.enqueued _ _)
    · next hr =>
        split_ifs at hw with hv
        exact staleUnlinkHarmless_of_waitsSafely hs (by rw [hr]; rfl) hv
    · cases hw
  · refine ⟨fun hon => ?_, fun _ _ _ => he.unlinksCallerOnly⟩
    simp [intrOn, he.resume, Resume.intrOn] at hon

/-- The initial thread waits right after the start, is woken by an interrupt and creates a
thread. -/
theorem queuesIntact_of_waitsSafely_woken :
    ∃ k : Kernel (Fin 3) Unit (Fin 1),
      Reaches step (fun k op => waitsSafely k op) (bootKernel false 0 1 fun _ => 0) k ∧
      k.status 2 = some .ready ∧ k.intrOn ∧ QueuesIntact k := by
  have h : (exec step (fun k op => waitsSafely k op)
      (bootKernel false 0 1 fun _ => 0 : Kernel (Fin 3) Unit (Fin 1))
      [.semaDown (), .cont, .semaUp () true, .yield, .cont, .create 2 0, .launch 2 0, .cont]).map
        (fun k => (k.status 2, k.intrOn)) = some (some .ready, true) := by decide
  obtain ⟨k, hk, hv⟩ := map_eq_some_iff.mp h
  simp only [Prod.mk.injEq] at hv
  have hr := reaches_of_exec hk
  exact ⟨k, hr, hv.1, hv.2, (queuesIntact_of_waitsSafely (by decide) hr).1 hv.2⟩

/-- Without the condition the ready list loses a thread: the initial thread creates a thread of
lower priority, which goes between the two headers that the initial thread's `elem` still points
at, and then waits. -/
theorem not_queuesIntact_after_wait :
    ∃ k : Kernel (Fin 3) Unit (Fin 1),
      Reaches step (fun _ _ => True) (bootKernel false 0 1 fun _ => 0) k ∧ k.intrOn ∧
      k.status 2 = some .ready ∧ k.walk .ready = some [] ∧ ¬ QueuesIntact k := by
  have h : (exec step (fun _ _ => True)
      (bootKernel false 0 1 fun _ => 0 : Kernel (Fin 3) Unit (Fin 1))
      [.create 2 0, .launch 2 0, .cont, .semaDown (), .cont]).map
        (fun k => (k.intrOn, k.status 2, k.idle, k.walk .ready)) =
      some (true, some .ready, 1, some []) := by decide
  obtain ⟨k, hk, hv⟩ := map_eq_some_iff.mp h
  simp only [Prod.mk.injEq] at hv
  obtain ⟨hon, hs, hid, hw⟩ := hv
  refine ⟨k, reaches_of_exec hk, hon, hs, hw, fun hq => ?_⟩
  obtain ⟨xs, hxs, hc⟩ := hq.ready
  obtain rfl : [] = xs := mem_unique hw hxs
  have := hc 2 hs (by rw [hid]; decide)
  simp at this

end machine

end Kernel

end Pintos
