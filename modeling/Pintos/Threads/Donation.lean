import Pintos.Lib.Donation
import Pintos.Threads.Locks

/-! # Priority donation

In priority mode a thread that has to wait for a lock raises the priority of the holder, and of the
holder of the lock for which that one waits, and so on (`recalculate_priority`).  The aim is that no
thread waits for a thread of lower priority.

* **Chains.**  `nextHolder t` is the thread for which `t` waits.  `recalculate_priority` follows
  `donee` instead: the field `blocked_lock`, which a thread that has been woken keeps until it has
  got its lock.
* **What keeps the aim.**  A recalculation keeps it, as long as it gets to the end of its chain.
* **What does not.**  No priority is recalculated when a thread takes a lock for which others wait,
  nor when a woken thread finds its lock taken and waits again.  `donatesSafely` is the condition
  under which neither does harm. -/


namespace Pintos
open Intrusive Runs Donation Function Option Resume Kernel

variable {T S K : Type}

/-- The lock that the thread is acquiring. -/
def Resume.wantsLock : Resume T S K → Option K
  | .lockEnqueued l | .lockAcquire l => some l
  | _ => none

namespace Kernel

/-- The lock for which `t` waits: it is blocked in `lock_acquire`, or about to be. -/
def waitedLock (k : Kernel T S K) (t : T) : Option K :=
  match k.resume t with
  | .lockEnqueued l => some l
  | .lockAcquire l => if k.status t = some .blocked then some l else none
  | _ => none

/-- The thread for which `t` waits. -/
def nextHolder (k : Kernel T S K) (t : T) : Option T :=
  (k.waitedLock t).bind k.holder

/-- The thread to which `recalculate_priority` goes on from `t`. -/
def donee (k : Kernel T S K) (t : T) : Option T := (k.blockedLock t).bind k.holder

section chains
variable {k k' : Kernel T S K} {t w h : T} {l : K}

theorem waitedLock_of_blockedIn (hb : k.BlockedIn t (.lock l)) : k.waitedLock t = some l := by
  obtain ⟨hs, hw⟩ := hb
  cases hr : k.resume t <;> simp [hr, waitsOn] at hw
  subst hw
  simp [waitedLock, hr, hs]

theorem blockedIn_of_waitedLock (hne : ∀ l, k.resume t ≠ .lockEnqueued l)
    (hw : k.waitedLock t = some l) : k.BlockedIn t (.lock l) := by
  cases hr : k.resume t with
  | lockEnqueued l => exact absurd hr (hne l)
  | lockAcquire l' =>
    simp only [waitedLock, hr, ite_none_right_eq_some, some.injEq] at hw
    obtain ⟨hs, rfl⟩ := hw
    exact ⟨hs, by rw [hr]; rfl⟩
  | _ => simp [waitedLock, hr] at hw

theorem waitedLock_of_status (hs : k.status t ≠ some .blocked)
    (hne : ∀ l, k.resume t ≠ .lockEnqueued l) : k.waitedLock t = none := by
  cases hr : k.resume t with
  | lockEnqueued l => exact absurd hr (hne l)
  | lockAcquire l => simp [waitedLock, hr, hs]
  | _ => simp [waitedLock, hr]

theorem waitedLock_of_wantsLock (hr : (k.resume t).wantsLock = none) : k.waitedLock t = none := by
  cases hr' : k.resume t <;> simp_all [waitedLock, wantsLock]

theorem waitedLock_congr (hs : k'.status t = k.status t) (hr : k'.resume t = k.resume t) :
    k'.waitedLock t = k.waitedLock t := by
  simp [waitedLock, hs, hr]

theorem wantsLock_of_waitedLock (hw : k.waitedLock t = some l) :
    (k.resume t).wantsLock = some l := by
  cases hr : k.resume t <;> simp_all [waitedLock, wantsLock]

end chains

/-- No thread waits for one of lower priority, deadlocks apart. -/
structure DonationInv (k : Kernel T S K) : Prop where
  wants : ∀ t, k.blockedLock t = (k.resume t).wantsLock
  dominated : ∀ w h, k.nextHolder w = some h → Ends k.nextHolder h → k.priority w ≤ k.priority h

section frame
variable {k k' : Kernel T S K} {t w h : T} {l : K}

theorem DonationInv.donee_of_nextHolder (hd : DonationInv k) (hw : k.nextHolder w = some h) :
    k.donee w = some h := by
  obtain ⟨l, hl, hh⟩ := bind_eq_some_iff.mp hw
  rw [donee, hd.wants, wantsLock_of_waitedLock hl]
  exact hh

/-- A change that keeps the priorities.  It concerns only threads that wait for none that are
deadlocked, and a new holder has a priority that is high enough. -/
theorem DonationInv.change (hd : DonationInv k)
    (hwnt : ∀ t, k'.blockedLock t = (k'.resume t).wantsLock) (hp : k'.priority = k.priority)
    (hnext : ∀ t, k'.nextHolder t ≠ k.nextHolder t → Ends k.nextHolder t ∧
      ∀ h, k'.nextHolder t = some h → Ends k'.nextHolder h → k.priority t ≤ k.priority h) :
    DonationInv k' := by
  refine ⟨hwnt, fun w h hw hh => ?_⟩
  rw [hp]
  by_cases hsame : k'.nextHolder w = k.nextHolder w
  · exact hd.dominated w h (hsame ▸ hw) (hh.of_change fun t ht => (hnext t ht).1)
  · exact (hnext w hsame).2 h hw hh

theorem DonationInv.changePriority (hd : DonationInv k)
    (hwnt : ∀ u, k'.blockedLock u = (k'.resume u).wantsLock)
    (hnext : k'.nextHolder = k.nextHolder) (hp : ∀ u, u ≠ t → k'.priority u = k.priority u)
    (hfrom : k.nextHolder t = none) (hto : ∀ w, k.nextHolder w ≠ some t) : DonationInv k' := by
  refine ⟨hwnt, fun w h hw hh => ?_⟩
  rw [hnext] at hw hh
  have hwt : w ≠ t := by
    rintro rfl
    simp [hfrom] at hw
  have hht : h ≠ t := by
    rintro rfl
    exact hto w hw
  rw [hp w hwt, hp h hht]
  exact hd.dominated w h hw hh

/-- Nothing that `DonationInv` speaks about has changed. -/
structure SameWaits (k k' : Kernel T S K) : Prop where
  waited : ∀ t, k'.waitedLock t = k.waitedLock t
  holder : k'.holder = k.holder
  priority : k'.priority = k.priority
  blockedLock : k'.blockedLock = k.blockedLock
  resume : k'.resume = k.resume

theorem SameWaits.nextHolder (hs : SameWaits k k') : k'.nextHolder = k.nextHolder := by
  funext t
  rw [Kernel.nextHolder, Kernel.nextHolder, hs.waited, hs.holder]

theorem DonationInv.mono (hd : DonationInv k) (hs : SameWaits k k') : DonationInv k' := by
  refine hd.change (fun t => ?_) hs.priority fun t ht => absurd (by rw [hs.nextHolder]) ht
  rw [hs.blockedLock, hs.resume]
  exact hd.wants t

theorem SameWaits.trans (h : SameWaits k k') (h' : SameWaits k' k'') : SameWaits k k'' :=
  ⟨fun t => (h'.waited t).trans (h.waited t), h'.holder.trans h.holder,
    h'.priority.trans h.priority, h'.blockedLock.trans h.blockedLock, h'.resume.trans h.resume⟩

end frame

/-! ### Switching threads -/

section scheduler
variable {k k' : Kernel T S K} {t w h : T} {l : K}

theorem Inv.waitedLock_cur (hi : Inv k) : k.waitedLock k.cur = none :=
  waitedLock_of_status (by simp [hi.running]) (hi.enqueued k.cur)

theorem Inv.nextHolder_cur (hi : Inv k) : k.nextHolder k.cur = none := by
  rw [nextHolder, hi.waitedLock_cur]
  rfl

variable [Fintype T] [DecidableEq T] [DecidableEq S] [DecidableEq K]

theorem Parked.sameWaits_schedule (hp : Parked k) (h : k.schedule = some k') : SameWaits k k' := by
  obtain ⟨-, h1, m, rfl, hm⟩ := hp.schedule_spec h
  refine ⟨fun t => ?_, rfl, rfl, rfl, rfl⟩
  by_cases e : t = m
  · subst e
    have hbfr : k.waitedLock t = none := by
      rcases hm with hs | rfl
      · exact waitedLock_of_status (by simp [hs]) (hp.enqueued t)
      · exact waitedLock_of_wantsLock (by rw [hp.idle]; rfl)
    rw [hbfr]
    refine waitedLock_of_status ?_ (hp.enqueued t)
    rw [switchTo_status_self]
    exact nofun
  · rcases switchTo_status_of_ne e with hs | ⟨hd, hn⟩
    · exact waitedLock_congr hs rfl
    · have hbfr :=
        waitedLock_of_status (by rw [show k.status t = some .dying from hd]; simp) (hp.enqueued t)
      rw [hbfr]
      exact waitedLock_of_status (by rw [hn]; exact nofun) (hp.enqueued t)

omit [Fintype T] [DecidableEq S] [DecidableEq K] in
theorem Inv.sameWaits_setStatus (hi : Inv k) (h1 : Links (Queue S K) T) (st : ThreadStatus)
    (hst : st ≠ .blocked ∨ (k.resume k.cur).wantsLock = none) :
    SameWaits k ({ k with links := h1 }.setStatus k.cur st) := by
  refine ⟨fun t => ?_, rfl, rfl, rfl, rfl⟩
  by_cases e : t = k.cur
  · subst e
    rw [hi.waitedLock_cur]
    rcases hst with hst | hr
    · exact waitedLock_of_status (by simp [setStatus, hst]) (hi.enqueued k.cur)
    · exact waitedLock_of_wantsLock hr
  · exact waitedLock_congr (by simp [setStatus, e]) rfl

theorem Inv.sameWaits_threadYield (hi : Inv k) (h : k.threadYield = some k') : SameWaits k k' := by
  obtain ⟨h1, hp, hs⟩ := hi.threadYield_spec h
  exact (hi.sameWaits_setStatus h1 .ready (.inl nofun)).trans (hp.sameWaits_schedule hs)

theorem Inv.sameWaits_threadBlock (hi : Inv k) (hr : k.resume k.cur = .run)
    (h : k.threadBlock = some k') : SameWaits k k' := by
  refine (hi.sameWaits_setStatus k.links .blocked (.inr (by rw [hr]; rfl))).trans
    (Parked.sameWaits_schedule (hi.park (by simp) fun q => ?_) h)
  cases q <;> simp [Belongs, BlockedIn, setStatus, hr, waitsOn]

omit [Fintype T] [DecidableEq T] [DecidableEq S] [DecidableEq K] in
theorem sameWaits_wake
    (hst : ∀ t, st t = k.status t ∨ (k.resume t).wantsLock = none) (h1 : Links (Queue S K) T)
    (v : Sema S K → ℕ) : SameWaits k { k with links := h1, status := st, value := v } := by
  refine ⟨fun t => ?_, rfl, rfl, rfl, rfl⟩
  rcases hst t with hs | hr
  · exact waitedLock_congr hs rfl
  · rw [waitedLock_of_wantsLock hr]
    exact waitedLock_of_wantsLock hr

omit [Fintype T] in
theorem Inv.sameWaits_threadUnblock (hi : Inv k) (hr : k.resume t = .run) (ht : t ≠ k.idle)
    (h : k.threadUnblock t = some k') : SameWaits k k' := by
  obtain ⟨-, h1, rfl⟩ := hi.threadUnblock hr ht h
  refine sameWaits_wake (fun u => ?_) h1 k.value
  by_cases e : u = t
  · subst e
    exact .inr (by rw [hr]; rfl)
  · exact .inl (by simp [e])

theorem Inv.sameWaits_semaWake (hi : Inv k) (h : k.semaWake (.sem s) = some k') :
    SameWaits k k' := by
  obtain ⟨-, h1, st, rfl, hst⟩ := hi.semaWake h
  refine sameWaits_wake (fun t => (hst t).imp_right fun hb => ?_) h1 _
  have hw := hb.1.2
  cases hr : k.resume t <;> simp_all [waitsOn, wantsLock]

omit [Fintype T] [DecidableEq S] [DecidableEq K] in
theorem DonationInv.resumeAt (hd : DonationInv k) (hi : Inv k)
    (hr : r.wantsLock = k.blockedLock k.cur) (hne : ∀ l, r ≠ .lockEnqueued l) :
    DonationInv (k.resumeAt r) := by
  have hself : (k.resumeAt r).resume k.cur = r := update_self ..
  have hoth t ht : (k.resumeAt r).resume t = k.resume t :=
    update_of_ne ht ..
  refine hd.change (fun t => ?_) rfl fun t ht => (ht ?_).elim
  · by_cases e : t = k.cur
    · subst e
      rw [hself]
      exact hr.symm
    · rw [hoth t e]
      exact hd.wants t
  · have hwtd : (k.resumeAt r).waitedLock t = k.waitedLock t := by
      by_cases e : t = k.cur
      · subst e
        rw [hi.waitedLock_cur]
        refine waitedLock_of_status ?_ fun l => ?_
        · simp [Kernel.resumeAt, hi.running]
        · rw [hself]
          exact hne l
      · exact waitedLock_congr rfl (hoth t e)
    rw [nextHolder, hwtd]
    rfl

theorem DonationInv.deferToMaxPriority (hd : DonationInv k) (hi : Inv k) (hr : k.MayStopAt r)
    (hwnt : r.wantsLock = k.blockedLock k.cur) (hn : next k = some k' → DonationInv k')
    (h : k.deferToMaxPriority r next = some k') : DonationInv k' := by
  simp only [Kernel.deferToMaxPriority, bind_eq_some_iff] at h
  obtain ⟨yields, -, h⟩ := h
  split_ifs at h
  · exact (hd.resumeAt hi hwnt hr.1).mono ((hi.resumeAt hr).sameWaits_threadYield h)
  · exact hn h

theorem DonationInv.die (hd : DonationInv k) (hi : Inv k)
    (h : (k.setStatus k.cur .dying).schedule = some k') : DonationInv k' := by
  refine hd.mono ((hi.sameWaits_setStatus k.links .dying (.inl nofun)).trans
    (Parked.sameWaits_schedule (hi.park (by simp) fun q => ?_) h))
  cases q <;> simp [Belongs, BlockedIn, setStatus]

end scheduler

/-! ### Recalculating priorities -/

section recalculate
variable [Fintype T] [Fintype K] [DecidableEq T] [DecidableEq S] [DecidableEq K]
  {k k' : Kernel T S K} {t w h : T} {l : K} {c : Queue S K → List T} {locks : T → List K}

/-- The priority that `recalculate_priority` computes for `t`. -/
def wantedPriority (c : Queue S K → List T) (locks : T → List K) (org p : T → ℤ) (t : T) : ℤ :=
  (((locks t).map fun l => c (.waiters (.lock l))).flatten.map p).foldl max (org t)

omit [Fintype T] [Fintype K] [DecidableEq T] [DecidableEq S] [DecidableEq K] in
theorem le_wantedPriority (hl : l ∈ locks t) (hw : w ∈ c (.waiters (.lock l))) :
    p w ≤ wantedPriority c locks org p t := by
  refine le_foldl_max (.inr (List.mem_map.mpr ⟨w, ?_, rfl⟩))
  exact List.mem_flatten.mpr ⟨_, List.mem_map.mpr ⟨l, hl, rfl⟩, hw⟩

theorem recalculatePriority_succ (hq : Represents k.links c)
    (hl : Represents k.lockLinks locks) : recalculatePriority (n + 1) k t =
      if (k.status t).isSome then
        let k' := { k with
          priority := update k.priority t (wantedPriority c locks k.priorityOrg k.priority t) }
        (k.donee t).elim (some k') (recalculatePriority n k')
      else none := by
  have hlck : k.walkLocks t = some (locks t) :=
    hl.walk t (Nat.lt_succ_of_le (hl.nodup t).length_le_card)
  have hwai : (locks t).mapM (fun l => k.walk (.waiters (.lock l))) =
      some ((locks t).map fun l => c (.waiters (.lock l))) := by
    rw [show (fun l => k.walk (.waiters (.lock l))) = fun l => pure (c (.waiters (.lock l)))
      from funext fun l => walk_of_represents hq _]
    exact List.mapM_pure
  simp only [recalculatePriority, hlck, hwai, bind_eq_bind, bind_some]
  cases hnext : k.donee t with
  | none =>
    rw [show (k.blockedLock t).bind k.holder = none from hnext]
    rfl
  | some u =>
    rw [show (k.blockedLock t).bind k.holder = some u from hnext]
    rfl

/-- `recalculate_priority` is a donation along `donee`. -/
theorem recalculatePriority_eq (hq : Represents k.links c)
    (hl : Represents k.lockLinks locks) (h : recalculatePriority n k t = some k') :
    k' = { k with
      priority := donate k.donee (wantedPriority c locks k.priorityOrg) n k.priority t } := by
  induction n generalizing k t with
  | zero =>
    simp only [recalculatePriority, ite_none_right_eq_some, some.injEq] at h
    exact h.2.symm
  | succ n ih =>
    rw [recalculatePriority_succ hq hl, ite_none_right_eq_some] at h
    replace h := h.2
    cases hnext : k.donee t with
    | none =>
      rw [hnext] at h
      simp only [donate, hnext]
      exact (some.inj h).symm
    | some u =>
      rw [hnext] at h
      simp only [donate, hnext]
      exact ih (by exact hq) (by exact hl) h

/-- The lists are those of the locks that are held and of the threads that wait for them. -/
structure Consistent (k : Kernel T S K) (c : Queue S K → List T) (locks : T → List K) : Prop where
  queues : Represents k.links c
  lockLists : Represents k.lockLinks locks
  holder : ∀ l u, l ∈ locks u ↔ k.holder l = some u
  waiting : ∀ l w, w ∈ c (.waiters (.lock l)) → k.blockedLock w = some l
  alive : ∀ l u, k.holder l = some u → (k.status u).isSome

theorem Consistent.isSome_recalculatePriority (hc : Consistent k c locks) (n : ℕ)
    (ht : (k.status t).isSome) : ∃ k', recalculatePriority n k t = some k' := by
  induction n generalizing k t with
  | zero => exact ⟨k, if_pos ht⟩
  | succ n ih =>
    rw [recalculatePriority_succ hc.queues hc.lockLists, if_pos ht]
    cases hnext : k.donee t with
    | none => exact ⟨_, rfl⟩
    | some u =>
      obtain ⟨l, -, hl⟩ := bind_eq_some_iff.mp hnext
      exact ih { hc with } (hc.alive l u hl)

omit [Fintype T] [Fintype K] [DecidableEq T] [DecidableEq S] [DecidableEq K] in
theorem Consistent.wantedPriority_congr (hc : Consistent k c locks) (org p q : T → ℤ) (u : T)
    (h : ∀ w, k.donee w = some u → p w = q w) :
    wantedPriority c locks org p u = wantedPriority c locks org q u := by
  unfold wantedPriority
  congr 1
  refine List.map_congr_left fun w hw => h w ?_
  obtain ⟨ws, hws, hw⟩ := List.mem_flatten.mp hw
  obtain ⟨l, hl, rfl⟩ := List.mem_map.mp hws
  exact bind_eq_some_iff.mpr ⟨l, hc.waiting l w hw, (hc.holder l u).mp hl⟩

/-- If every other thread has the priority that its locks give it, then a recalculation from `t` on
gives it to all, and changes only those that `t` waits for. -/
theorem recalculatePriority_restores (hc : Consistent k c locks) (ht : (k.status t).isSome)
    (hpriority : ∀ u, (k.status u).isSome → u ≠ t →
      k.priority u = wantedPriority c locks k.priorityOrg k.priority u)
    (hchain : endsWithin k.donee donationDepth t = true) :
    ∃ p, recalculatePriority donationDepth k t = some { k with priority := p } ∧
      (∀ u, (k.status u).isSome → p u = wantedPriority c locks k.priorityOrg p u) ∧
      ∀ u, p u ≠ k.priority u → Relation.ReflTransGen (fun v w => k.donee v = some w) t u := by
  obtain ⟨k', hk'⟩ := hc.isSome_recalculatePriority donationDepth ht
  obtain rfl := recalculatePriority_eq hc.queues hc.lockLists hk'
  refine ⟨_, hk', fun u hu => ?_, fun u hu => ?_⟩
  · exact donate_eq_want (hc.wantedPriority_congr k.priorityOrg) hchain hpriority u hu
  · by_contra hout
    exact hu (donate_of_not_onChain hout)

/-- A thread of priority 40 waits for a lock of one of priority 31. -/
theorem recalculatePriority_restores_two : ∃ (k : Kernel Bool Empty Unit) (p : Bool → ℤ),
    recalculatePriority donationDepth k false = some { k with priority := p } ∧
      k.priority false = 31 ∧ p false = 40 := by
  have hemp : Represents (bootKernel (S := Empty) (K := Unit) false false true nofun).links
      fun _ => [] := ⟨fun _ => List.isChain_pair.mpr ⟨rfl, rfl⟩, fun _ => List.nodup_nil, by simp⟩
  have hnone : Represents (bootKernel (S := Empty) (K := Unit) false false true nofun).lockLinks
      fun _ => [] := (lockInv_boot _).represents
  obtain ⟨_, ⟨⟩, hq⟩ := hemp.pushBack (.waiters (.lock ())) (e := true) (by simp)
  obtain ⟨_, ⟨⟩, hl⟩ := hnone.pushBack false (e := ()) (by simp)
  obtain ⟨p, hp, hwan, -⟩ := recalculatePriority_restores (t := false) (k := {
      bootKernel false false true nofun with
      links := _
      lockLinks := _
      holder := fun _ => some false
      blockedLock := fun t => if t then some () else none
      priority := fun t => if t then 40 else 31
      priorityOrg := fun t => if t then 40 else 31 })
    ⟨hq, hl, by decide, by decide, by decide⟩ rfl (by decide) rfl
  have hwtr := hwan true rfl
  have hhol := hwan false rfl
  simp [wantedPriority] at hwtr hhol
  exact ⟨_, p, hp, rfl, by rw [hhol, hwtr]; rfl⟩

/-- A recalculation that starts in `t` and gets to the end of its chain, or that starts in a
deadlock.  `next` is who waits for whom. -/
theorem dominated_recalculatePriority
    (h : recalculatePriority n k t = some k') (hq : Represents k.links c)
    (hl : Represents k.lockLinks locks) (hdn : ∀ w h, next w = some h → k.donee w = some h)
    (hlst : ∀ w h, next w = some h → ∃ l ∈ locks h, w ∈ c (.waiters (.lock l)))
    (hn : endsWithin k.donee n t = true ∨ ¬ Ends next t)
    (hdom : ∀ w h, next w = some h → h ≠ t → Ends next h → k.priority w ≤ k.priority h)
    (w u : T) (hw : next w = some u) (hu : Ends next u) : k'.priority w ≤ k'.priority u := by
  cases recalculatePriority_eq hq hl h
  rcases hn with hn | hn
  · refine donate_dominates hdn (fun p w u hwu => ?_) hn hdom w u hw hu
    obtain ⟨l, hl, hm⟩ := hlst w u hwu
    exact le_wantedPriority hl hm
  · have hut : u ≠ t := by
      rintro rfl
      exact hn hu
    show donate _ _ _ _ _ _ ≤ donate _ _ _ _ _ _
    rw [donate_of_not_ends hdn hn hu, donate_of_not_ends hdn hn ((ends_iff hw).mpr hu)]
    exact hdom w u hw hut hu

/-- A recalculation of the running thread, which waits for no lock. -/
theorem DonationInv.threadSetPriority (hd : DonationInv k) (hi : Inv k) (hk : LockInv k locks)
    (hr : (k.resume k.cur).wantsLock = none) (h : k.threadSetPriority p = some k') :
    DonationInv k' := by
  simp only [Kernel.threadSetPriority, ite_none_right_eq_some] at h
  replace h := h.2
  have hdn : k.donee k.cur = none := by
    rw [donee, hd.wants, hr]
    rfl
  obtain ⟨c, hq⟩ := hi.queues
  have hlst (w h : T) (hw : k.nextHolder w = some h) :
      ∃ l ∈ locks h, w ∈ c (.waiters (.lock l)) := by
    obtain ⟨l, hl, hh⟩ := bind_eq_some_iff.mp hw
    refine ⟨l, (hk.owner l h).mpr hh, (hq.belongs w _).mpr ?_⟩
    exact blockedIn_of_waitedLock (hi.enqueued w) hl
  have hdom (w u : T) hw hu : k'.priority w ≤ k'.priority u :=
    dominated_recalculatePriority h hq.represents hk.represents
      (fun w h hw => hd.donee_of_nextHolder hw) hlst (.inl (endsWithin_succ_of_none hdn))
      (fun w h hw _ hh => hd.dominated w h hw hh) w u hw hu
  obtain ⟨q, rfl⟩ := recalculatePriority_spec h
  exact ⟨hd.wants, hdom⟩

end recalculate

/-! ### Taking a lock and waiting for it -/

section locks
variable [DecidableEq T]
  {k k' : Kernel T S K} {t w h : T} {l : K}

/-- No thread that is blocked on `l` has a higher priority than the running thread. -/
def outranksWaiters [Fintype T] [DecidableEq K] [DecidableEq S] (k : Kernel T S K) (l : K) : Bool :=
  decide (∀ t, k.status t = some .blocked ∧ (k.resume t).waitsOn = some (.lock l) →
    k.priority t ≤ k.priority k.cur)

/-- Who waits for whom, once the running thread waits for `l`. -/
def waitChain (k : Kernel T S K) (l : K) : T → Option T :=
  update k.nextHolder k.cur (k.holder l)

/-- The running thread has no higher priority than the holder of `l`, unless the holder would wait
for it. -/
def waitsBelow [Fintype T] (k : Kernel T S K) (l : K) : Bool :=
  match k.holder l with
  | none => true
  | some h => !endsWithin (k.waitChain l) (Fintype.card T) h ||
      decide (k.priority k.cur ≤ k.priority h)

theorem waitChain_cur : k.waitChain l k.cur = k.holder l := update_self ..

theorem waitChain_of_ne (ht : t ≠ k.cur) : k.waitChain l t = k.nextHolder t :=
  update_of_ne ht ..

/-- The running thread takes a free lock. -/
theorem DonationInv.grab [Fintype T] [DecidableEq K] [DecidableEq S] (hd : DonationInv k)
    (hi : Inv k) (hfree : k.holder l = none)
    (hout : k.outranksWaiters l) (hh : k'.holder = update k.holder l (some k.cur))
    (hs : k'.status = k.status) (hp : k'.priority = k.priority)
    (hr : k'.resume = update k.resume k.cur .run)
    (hb : ∀ t, k'.blockedLock t = if t = k.cur then none else k.blockedLock t) :
    DonationInv k' := by
  have hrun : k'.resume k.cur = .run := by rw [hr, update_self]
  have hoth t (ht : t ≠ k.cur) : k'.resume t = k.resume t := by
    rw [hr, update_of_ne ht]
  refine hd.change (fun t => ?_) hp fun t ht => ?_
  · by_cases e : t = k.cur
    · subst e
      rw [hb, if_pos rfl, hrun]
      rfl
    · rw [hb, if_neg e, hoth t e]
      exact hd.wants t
  · have htc : t ≠ k.cur := by
      rintro rfl
      rw [hi.nextHolder_cur, nextHolder, waitedLock_of_wantsLock (by rw [hrun]; rfl)] at ht
      exact ht rfl
    have hwtd := waitedLock_congr (by rw [hs]) (hoth t htc)
    have hl : k.waitedLock t = some l := by
      by_contra hl
      refine ht ?_
      rw [nextHolder, nextHolder, hwtd, hh]
      cases hw : k.waitedLock t with
      | none => rfl
      | some l' =>
        have hne : l' ≠ l := by
          rintro rfl
          exact hl hw
        simp [hne]
    have hnone : k.nextHolder t = none := by
      rw [nextHolder, hl]
      exact hfree
    refine ⟨ends_of_none hnone, fun h hnew _ => ?_⟩
    rw [nextHolder, hwtd, hl, bind_some, hh, update_self, some.injEq] at hnew
    subst hnew
    exact of_decide_eq_true hout t (blockedIn_of_waitedLock (hi.enqueued t) hl)

theorem nextHolder_wait (h1 : Links (Queue S K) T) :
    (({ k with links := h1 }.resumeAt (.lockAcquire l)).setStatus k.cur .blocked).nextHolder =
      k.waitChain l := by
  funext t
  by_cases e : t = k.cur
  · subst e
    rw [waitChain_cur]
    simp [nextHolder, waitedLock, setStatus, resumeAt]
  · rw [waitChain_of_ne e, nextHolder, waitedLock_congr]
    · rfl
    · simp [setStatus, resumeAt, e]
    · simp [setStatus, resumeAt, e]

theorem DonationInv.waitAgain [Fintype T] (hd : DonationInv k) (hi : Inv k)
    (hr : k.resume k.cur = .lockAcquire l) (hblw : k.waitsBelow l) (h1 : Links (Queue S K) T) :
    DonationInv (({ k with links := h1 }.resumeAt (.lockAcquire l)).setStatus k.cur .blocked) := by
  refine hd.change (fun t => ?_) rfl fun t ht => ?_
  · by_cases e : t = k.cur
    · subst e
      simp [setStatus, Kernel.resumeAt, hd.wants, hr]
    · simp [setStatus, Kernel.resumeAt, hd.wants, e]
  · rw [nextHolder_wait] at ht
    have htc : t = k.cur := by
      by_contra e
      exact ht (waitChain_of_ne e)
    subst htc
    refine ⟨ends_of_none hi.nextHolder_cur, fun h hnew hends => ?_⟩
    rw [nextHolder_wait] at hnew hends
    rw [waitChain_cur] at hnew
    simpa [waitsBelow, hnew, hends.endsWithin_card] using hblw

theorem DonationInv.waitFirst (hd : DonationInv k) (hr : k.resume k.cur = .lockEnqueued l)
    (h1 : Links (Queue S K) T) :
    DonationInv (({ k with links := h1 }.resumeAt (.lockAcquire l)).setStatus k.cur .blocked) := by
  refine hd.change (fun t => ?_) rfl fun t ht => absurd ?_ ht
  · by_cases e : t = k.cur
    · subst e
      simp [setStatus, Kernel.resumeAt, hd.wants, hr, wantsLock]
    · simp [setStatus, Kernel.resumeAt, hd.wants, e]
  · rw [nextHolder_wait]
    by_cases e : t = k.cur
    · subst e
      simp [waitChain_cur, nextHolder, waitedLock, hr]
    · exact waitChain_of_ne e

omit [DecidableEq T] in
/-- The lock becomes free, and a thread that waits for it may be woken. -/
theorem DonationInv.freed [DecidableEq K] (hd : DonationInv k) (hi : Inv k)
    (hown : k.holder l = some k.cur)
    (hh : k'.holder = update k.holder l none) (hp : k'.priority = k.priority)
    (hb : k'.blockedLock = k.blockedLock) (hr : k'.resume = k.resume)
    (hst : ∀ t, k'.status t = k.status t ∨
      k.BlockedIn t (.lock l) ∧ k'.status t = some .ready) : DonationInv k' := by
  refine hd.change (fun t => ?_) hp fun t ht => ?_
  · rw [hb, hr]
    exact hd.wants t
  by_cases hl : k.waitedLock t = some l
  · have hcur : k.nextHolder t = some k.cur := by
      rw [nextHolder, hl]
      exact hown
    refine ⟨(ends_iff hcur).mpr (ends_of_none hi.nextHolder_cur), fun h hnew _ => ?_⟩
    obtain ⟨l', hl', hh'⟩ := bind_eq_some_iff.mp hnew
    have hsame : l' = l := by
      have hw := wantsLock_of_waitedLock hl'
      rw [hr, wantsLock_of_waitedLock hl] at hw
      exact (some.inj hw).symm
    simp [hsame, hh] at hh'
  · refine absurd ?_ ht
    have hsts := (hst t).resolve_right fun hb => hl (waitedLock_of_blockedIn hb.1)
    rw [nextHolder, nextHolder, waitedLock_congr hsts (by rw [hr]), hh]
    cases hw : k.waitedLock t with
    | none => rfl
    | some l' =>
      have hne : l' ≠ l := by
        rintro rfl
        exact hl hw
      simp [hne]

end locks

/-! ### The lock operations -/

section operations
variable [Fintype T] [Fintype K] [DecidableEq T] [DecidableEq S] [DecidableEq K]
  {k k' : Kernel T S K} {t w h : T} {l : K} {c : T → List K}

/-- Where donations go, once the running thread waits for `l`. -/
def donationChain (k : Kernel T S K) (l : K) : T → Option T :=
  update k.donee k.cur (k.holder l)

/-- The recalculation that starts with the holder of `l` gets to the end of its chain, unless the
running thread is about to wait in a deadlock. -/
def donationArrives (k : Kernel T S K) (l : K) : Bool :=
  match k.holder l with
  | none => true
  | some h => endsWithin (k.donationChain l) donationDepth h ||
      !endsWithin (k.waitChain l) (Fintype.card T) h

section
variable (hd : DonationInv k) (hi : Inv k)
include hd hi

omit [Fintype K] in
theorem DonationInv.lockTake (hk : LockInv k c)
    (hv : 0 < k.value (.lock l)) (hout : k.outranksWaiters l)
    (h : (k.countDown (.lock l)).lockTake l = some k') : DonationInv k' := by
  have hmode : (k.countDown (.lock l)).mlfqs = false := hk.mode
  simp only [Kernel.lockTake, hmode, Bool.false_eq_true, if_false, map_eq_some_iff] at h
  obtain ⟨h1, -, rfl⟩ := h
  exact hd.grab hi (hk.holder_of_value hv) hout rfl rfl rfl rfl fun t => update_apply ..

omit [Fintype K] in
theorem DonationInv.lockTryAcquire (hk : LockInv k c)
    (hr : k.resume k.cur = .run) (hv : 0 < k.value (.lock l)) (hout : k.outranksWaiters l)
    (h : k.lockTryAcquire l true = some k') : DonationInv k' := by
  simp only [Kernel.lockTryAcquire, hv, decide_true, if_true, ite_none_left_eq_some,
    tryLink, map_eq_some_iff] at h
  obtain ⟨-, h1, -, rfl⟩ := h
  refine hd.grab hi (hk.holder_of_value hv) hout rfl rfl rfl rfl fun t => ?_
  split_ifs with e
  · subst e
    show k.blockedLock k.cur = none
    rw [hd.wants, hr]
    rfl
  · rfl

/-- `lock_acquire` of a taken lock, up to its call of `sema_down`. -/
theorem DonationInv.lockEnqueue (hk : LockInv k c) (hari : k.donationArrives l)
    (hl : listPushBack k.links (.waiters (.lock l)) k.cur = some h1)
    (hh : k.holder l = some h) (hrec : recalculatePriority donationDepth { k with
      links := h1, blockedLock := update k.blockedLock k.cur (some l) } h = some k') :
    DonationInv (k'.resumeAt (.lockEnqueued l)) := by
  obtain ⟨q, hq⟩ := hi.detached
  have hdn : ({ k with
      links := h1, blockedLock := update k.blockedLock k.cur (some l) } :
        Kernel T S K).donee = k.donationChain l := by
    funext t
    by_cases e : t = k.cur
    · subst e
      simp [donee, donationChain]
    · simp [donee, donationChain, e]
  have hnext : (k'.resumeAt (.lockEnqueued l)).nextHolder = k.waitChain l := by
    obtain ⟨p, rfl⟩ := recalculatePriority_spec hrec
    funext t
    by_cases e : t = k.cur
    · subst e
      simp [waitChain_cur, nextHolder, waitedLock, Kernel.resumeAt]
    · rw [waitChain_of_ne e, nextHolder, waitedLock_congr]
      · rfl
      · rfl
      · simp [Kernel.resumeAt, e]
  have hold u (hu : Ends (k.waitChain l) u) : Ends k.nextHolder u := by
    refine hu.of_change fun t ht => ?_
    have e : t = k.cur := by
      by_contra e
      exact ht (waitChain_of_ne e)
    subst e
    exact ends_of_none hi.nextHolder_cur
  refine ⟨fun t => ?_, ?_⟩
  · obtain ⟨p, rfl⟩ := recalculatePriority_spec hrec
    by_cases e : t = k.cur
    · subst e
      simp [Kernel.resumeAt, wantsLock]
    · simpa [Kernel.resumeAt, e] using hd.wants t
  rw [hnext]
  show ∀ w u, _ → _ → k'.priority w ≤ k'.priority u
  have hquu := represents_listPushBack hq.represents hq.off hl
  refine dominated_recalculatePriority hrec hquu hk.represents ?_ ?_ ?_ ?_
  · intro w u hw
    rw [hdn]
    by_cases e : w = k.cur
    · subst e
      rw [waitChain_cur] at hw
      simpa [donationChain] using hw
    · rw [waitChain_of_ne e] at hw
      simpa [donationChain, e] using hd.donee_of_nextHolder hw
  · intro w u hw
    by_cases e : w = k.cur
    · subst e
      rw [waitChain_cur] at hw
      exact ⟨l, (hk.owner l u).mpr hw, by simp⟩
    · rw [waitChain_of_ne e] at hw
      obtain ⟨l', hl', hu⟩ := bind_eq_some_iff.mp hw
      have hm : w ∈ q (.waiters (.lock l')) := (hq.belongs w e _).mpr
        (blockedIn_of_waitedLock (hi.enqueued w) hl')
      refine ⟨l', (hk.owner l' u).mpr hu, ?_⟩
      by_cases e' : l' = l
      · subst e'
        simp [hm]
      · simpa [e'] using hm
  · rw [hdn]
    simp only [donationArrives, hh, Bool.or_eq_true] at hari
    refine hari.imp_right fun hn hends => ?_
    simp [hends.endsWithin_card] at hn
  · intro w u hw hne hu
    by_cases e : w = k.cur
    · subst e
      rw [waitChain_cur, hh] at hw
      exact absurd (some.inj hw).symm hne
    · rw [waitChain_of_ne e] at hw
      exact hd.dominated w u hw (hold u hu)

theorem DonationInv.lockAcquire (hk : LockInv k c)
    (hs : (if 0 < k.value (.lock l) then k.outranksWaiters l else k.donationArrives l) = true)
    (h : k.lockAcquire l = some k') : DonationInv k' := by
  unfold Kernel.lockAcquire at h
  rw [ite_none_left_eq_some, if_neg (by simp [hk.mode])] at h
  replace h := h.2
  split_ifs at h with hv
  · rw [if_pos hv] at hs
    exact hd.lockTake hi hk hv hs h
  · rw [if_neg hv] at hs
    obtain ⟨h1, hl, h⟩ := bind_eq_some_iff.mp h
    obtain ⟨t, hh, h⟩ := bind_eq_some_iff.mp h
    obtain ⟨k1, hrec, rfl⟩ := map_eq_some_iff.mp h
    exact hd.lockEnqueue hi hk hs hl hh hrec

omit [Fintype K] [Fintype T] [DecidableEq S] in
theorem DonationInv.releaseReturn {e : Caller T K} (hr : (k.resume k.cur).wantsLock = none)
    (h : k.releaseReturn l e = some k') : DonationInv k' := by
  have hwnt : none = k.blockedLock k.cur := by rw [hd.wants, hr]
  cases e with
  | code =>
    cases h
    exact hd.resumeAt hi hwnt nofun
  | exit e =>
    obtain ⟨h1, -, rfl⟩ := map_eq_some_iff.mp h
    exact (hd.resumeAt hi hwnt (r := .exiting e) nofun).mono ⟨fun _ => rfl, rfl, rfl, rfl, rfl⟩

/-- `lock_release` from the removal of the lock on. -/
theorem DonationInv.releaseUnlink
    (hm : k.mlfqs = false) (hr : (k.resume k.cur).wantsLock = none) (hc : k.cur ≠ k.idle)
    (hk : ∀ h, listRemove k.lockLinks (.elem l) = some h → LockInv { k with lockLinks := h } c)
    (h : k.releaseUnlink l e = some k') : DonationInv k' := by
  unfold Kernel.releaseUnlink at h
  rw [if_neg (by simp [hm])] at h
  obtain ⟨h1, hl, h⟩ := bind_eq_some_iff.mp h
  obtain ⟨k1, hk1, h⟩ := bind_eq_some_iff.mp h
  have hd0 : DonationInv { k with lockLinks := h1 } := hd.mono ⟨fun _ => rfl, rfl, rfl, rfl, rfl⟩
  have hi0 : Inv { k with lockLinks := h1 } := hi.frame rfl rfl rfl rfl rfl
  have hd1 : DonationInv k1 := hd0.threadSetPriority hi0 (hk h1 hl) hr hk1
  obtain ⟨p, q, rfl⟩ := threadSetPriority_spec hk1
  have hi1 : Inv { k with lockLinks := h1, priority := p, priorityOrg := q } :=
    hi.frame rfl rfl rfl rfl rfl
  have hwnt : (Resume.releaseReturn l e : Resume T S K).wantsLock = k.blockedLock k.cur := by
    rw [hd.wants, hr]
    rfl
  split_ifs at h
  · refine hd1.deferToMaxPriority hi1 ⟨?_, fun e => absurd e hc⟩ hwnt (hd1.releaseReturn hi1 hr) h
    simp
  · exact hd1.releaseReturn hi1 hr h

theorem DonationInv.lockRelease
    (hk : LockInv k c) (hr : (k.resume k.cur).wantsLock = none) (hc : k.cur ≠ k.idle)
    (hp : k.releaseKeepsCpu l) (h : k.lockRelease l e = some k') : DonationInv k' := by
  obtain ⟨hown, k1, hw, h⟩ := hi.lockRelease_spec hp h
  have hi0 : Inv { k with holder := update k.holder l none } :=
    hi.frame rfl rfl rfl rfl rfl
  have huni (h2) (hl : listRemove k1.lockLinks (.elem l) = some h2) :=
    hk.unlinkReleased hi hown hw hl
  obtain ⟨hi1, h1, st, rfl, hst⟩ := hi0.semaWake hw
  refine DonationInv.releaseUnlink ?_ hi1 hk.mode hr hc huni h
  exact hd.freed hi hown rfl rfl rfl rfl hst

omit [Fintype T] [Fintype K] in
theorem DonationInv.initThread (hk : LockInv k c)
    (h : k.initThread t p = some k') : DonationInv k' := by
  simp only [Kernel.initThread, ite_none_right_eq_some, some.injEq] at h
  obtain ⟨⟨hfree, -⟩, rfl⟩ := h
  have hbfr := waitedLock_of_status (by simp [hfree]) (hi.enqueued t)
  refine hd.changePriority (t := t) (fun u => ?_) (funext fun u => ?_) (fun u hu => ?_) ?_
    fun w hw => ?_
  · by_cases e : u = t
    · subst e
      simp [wantsLock]
    · simpa [e] using hd.wants u
  · by_cases e : u = t
    · subst e
      rw [nextHolder, nextHolder, hbfr, waitedLock_of_wantsLock (by simp [wantsLock])]
    · rw [nextHolder, waitedLock_congr (k := k) (by simp [e]) (by simp [e])]
      rfl
  · simp [hu]
  · rw [nextHolder, hbfr]
    rfl
  · obtain ⟨l, -, hh⟩ := bind_eq_some_iff.mp hw
    exact (hk.alive l t hh).1 hfree

theorem DonationInv.exitLoop (hk : LockInv k c)
    (hr : (k.resume k.cur).wantsLock = none) (hc : k.cur ≠ k.idle)
    (hp : ∀ l, e = .elem l → k.releaseKeepsCpu l) (h : k.exitLoop e = some k') :
    DonationInv k' := by
  simp only [Kernel.exitLoop] at h
  split_ifs at h
  · exact hd.die hi h
  · cases e with
    | elem l =>
      obtain ⟨e', -, h⟩ := bind_eq_some_iff.mp h
      exact hd.lockRelease hi hk hr hc (hp l rfl) h
    | head | tail => simp at h

end

/-! ### Runs -/

/-- The steps that leave no thread waiting for one of lower priority. -/
def donatesSafely (k : Kernel T S K) : Op T S K → Bool
  | .lockAcquire l =>
    if 0 < k.value (.lock l) then k.outranksWaiters l else k.donationArrives l
  | .lockTryAcquire l _ => k.outranksWaiters l
  | .cont =>
    match k.resume k.cur with
    | .lockAcquire l => if 0 < k.value (.lock l) then k.outranksWaiters l else k.waitsBelow l
    | _ => true
  | _ => true

theorem Enqueued.donationInv_step (he : Enqueued k l) (hd : DonationInv k)
    (h : k.step op = some k') : DonationInv k' := by
  obtain ⟨h1, hp, hs⟩ := he.semaDownWait_spec (he.wait_of_step h).2
  exact (hd.waitFirst he.resume h1).mono (hp.sameWaits_schedule hs)

section
variable (hd : DonationInv k) (hi : Inv k) (hk : LockInv k c)
include hd hi hk

theorem DonationInv.resumeStep (hl : k.locksSafely .cont) (hs : k.donatesSafely .cont)
    (h : k.resumeStep = some k') : DonationInv k' := by
  obtain ⟨hwait, hl⟩ := Bool.and_eq_true _ _ ▸ hl
  obtain ⟨hc, r, hr, hres⟩ := hi.resumes h
  have hst := hr ▸ hk.stable k.cur
  cases hres with
  | wait hw hv h =>
    have hu := staleUnlinkHarmless_of_waitsSafely hwait (hr ▸ hw) hv
    obtain ⟨h1, hp, hb⟩ := hi.semaDownWait_spec hc hu hw h
    cases r with
    | semaDown s =>
      have hstop : k.MayStopAt (.semaDown s) := ⟨by simp, fun e => absurd e hc⟩
      have hpark := (hi.resumeAt hstop).sameWaits_setStatus h1 .blocked
        (.inr (by simp [Kernel.resumeAt, Resume.wantsLock]))
      exact (hd.resumeAt hi (by rw [hd.wants, hr]) hstop.1).mono
        (hpark.trans (hp.sameWaits_schedule hb))
    | lockAcquire l =>
      cases hw
      simp only [donatesSafely, hr, hv] at hs
      exact (hd.waitAgain hi hr hs h1).mono (hp.sameWaits_schedule hb)
    | lockEnqueued l => exact absurd hr (hi.enqueued k.cur l)
    | _ => cases hw
  | created h =>
    have hd1 := hd.resumeAt hi (r := .run) (by rw [hd.wants, hr]; rfl) (by simp)
    simp only [createReturn] at h
    split_ifs at h
    · exact hd1.mono ((hi.resumeAt mayStopAt_run).sameWaits_threadYield h)
    · exact some.inj h ▸ hd1
  | down h =>
    exact h ▸ (hd.resumeAt hi (by rw [hd.wants, hr]; rfl) (by simp)).mono
      ⟨fun _ => rfl, rfl, rfl, rfl, rfl⟩
  | take hv h =>
    have hpos := Nat.pos_of_ne_zero hv
    simp only [donatesSafely, hr, hpos] at hs
    exact hd.lockTake hi hk hpos hs h
  | tryHolder | tryLink | releaseUnlink => simp [lockStable] at hst
  | releaseReturn h => exact hd.releaseReturn hi (by rw [hr]; rfl) h
  | exitLoop h =>
    refine hd.exitLoop hi hk (by rw [hr]; rfl) hc (fun l he => ?_) h
    subst he
    simpa [hr] using hl

theorem DonationInv.calls (hr : k.resume k.cur = .run) (hc : k.cur ≠ k.idle) (hl : k.locksSafely op)
    (hs : k.donatesSafely op) (h : Calls k k' op) : DonationInv k' := by
  have hstay : ∀ {k1 : Kernel T S K}, DonationInv k1 → some k1 = some k' → DonationInv k' :=
    fun hd1 e => some.inj e ▸ hd1
  have hwnt : none = k.blockedLock k.cur := by
    rw [hd.wants, hr]
    rfl
  replace hl := (Bool.and_eq_true _ _ ▸ hl).2
  cases h with
  | stay h => exact h ▸ hd
  | create h => exact hd.initThread hi hk h
  | launch ht hti hu h =>
    have hd1 := hd.mono (hi.sameWaits_threadUnblock ht hti hu)
    obtain ⟨hi1, h1, rfl⟩ := hi.threadUnblock ht hti hu
    exact h ▸ hd1.resumeAt hi1 hwnt (by simp)
  | @semaDown s h => exact h ▸ hd.resumeAt hi hwnt (by simp)
  | semaTryDown h => exact h ▸ hd.mono ⟨fun _ => rfl, rfl, rfl, rfl, rfl⟩
  | semaUp hw h =>
    have hd1 := hd.mono (hi.sameWaits_semaWake hw)
    obtain ⟨hi1, h1, st, rfl, -⟩ := hi.semaWake hw
    exact hd1.deferToMaxPriority hi1 mayStopAt_run hwnt (hstay hd1) h
  | lockAcquire h => exact hd.lockAcquire hi hk hs h
  | lockTryAcquire h =>
    simp only [Bool.and_eq_true, decide_eq_true_eq] at hl
    obtain ⟨rfl, hv⟩ := hl
    exact hd.lockTryAcquire hi hk hr hv hs h
  | lockRelease h => exact hd.lockRelease hi hk (by rw [hr]; rfl) hc hl h
  | setPriority _ hp h =>
    have hd1 := hd.threadSetPriority hi hk (by rw [hr]; rfl) hp
    obtain ⟨p, q, rfl⟩ := threadSetPriority_spec hp
    have hi1 : Inv { k with priority := p, priorityOrg := q } := hi.frame rfl rfl rfl rfl rfl
    split_ifs at h
    · exact hd1.deferToMaxPriority hi1 mayStopAt_run hwnt (hstay hd1) h
    · exact hstay hd1 h
  | exit h =>
    obtain ⟨e, rfl⟩ := threadExit_eq_some hk.mode h
    exact hd.resumeAt hi hwnt (by simp)

theorem DonationInv.step {op : Op T S K} (hl : k.locksSafely op) (hs : k.donatesSafely op)
    (h : k.step op = some k') : DonationInv k' := by
  cases steps_of_step h with
  | cont h1 => exact hd.resumeStep hi hk hl hs h1
  | yield h1 => exact hd.mono (hi.sameWaits_threadYield h1)
  | unblock hr ht h1 => exact hd.mono (hi.sameWaits_threadUnblock hr ht h1)
  | wake h1 => exact hd.mono (hi.sameWaits_semaWake h1)
  | retune hm => simp [hk.mode] at hm
  | block hr h1 => exact hd.mono (hi.sameWaits_threadBlock hr h1)
  | call hr hc h1 => exact hd.calls hi hk hr hc hl hs h1

end

theorem donationInv_of_reaches {main idle : T} (hne : main ≠ idle) {value : S → ℕ}
    (hr : Reaches step (fun k op => locksSafely k op && donatesSafely k op)
      (bootKernel false main idle value) k) : DonationInv k := by
  refine (hr.invariant (P := fun k => Sound k ∧ (∃ c, LockInv k c) ∧ DonationInv k)
    ⟨.inl (inv_boot hne value), ⟨_, lockInv_boot value⟩, fun _ => rfl,
      fun w h hw => by simp [nextHolder, bootKernel] at hw⟩ ?_).2.2
  rintro k op k' ⟨hsnd, ⟨c, hk⟩, hd⟩ hs h
  obtain ⟨hl, hs⟩ := Bool.and_eq_true _ _ ▸ hs
  refine ⟨hsnd.step (Bool.and_eq_true _ _ ▸ hl).1 h, ?_⟩
  rcases hsnd with hi | ⟨l, he⟩
  · exact ⟨hk.step hi hl h, hd.step hi hk hl hs h⟩
  · exact ⟨⟨c, hk.semaDownWait rfl (he.wait_of_step h).2⟩, he.donationInv_step hd h⟩

/-- **Priority donation.**  In every run of safe steps in priority mode, interrupts on or off, a
thread blocked on a lock has no higher priority than the holder, if the chain of holders from there
on has no more threads than `DONATION_DEPTH`. -/
theorem priority_le_holder_of_donatesSafely {main idle : T} (hne : main ≠ idle) {value : S → ℕ}
    {k : Kernel T S K} {l : K} {h w : T}
    (hr : Reaches step (fun k op => locksSafely k op && donatesSafely k op)
      (bootKernel false main idle value) k)
    (hh : k.holder l = some h) (hw : k.BlockedIn w (.lock l))
    (hchain : endsWithin k.nextHolder donationDepth h) : k.priority w ≤ k.priority h := by
  refine (donationInv_of_reaches hne hr).dominated w h ?_ ⟨_, hchain⟩
  rw [nextHolder, waitedLock_of_blockedIn hw]
  exact hh

/-- A thread of priority 40 waits for a lock of the initial thread, which has its priority. -/
theorem priority_le_holder_of_donatesSafely_donated :
    ∃ k : Kernel (Fin 3) Unit (Fin 1),
      Reaches step (fun k op => locksSafely k op && donatesSafely k op)
        (bootKernel false 0 1 fun _ => 0) k ∧
      k.intrOn ∧ k.holder 0 = some 0 ∧ k.BlockedIn 2 (.lock 0) ∧ k.priority 2 = 40 ∧
      k.priority 2 ≤ k.priority 0 := by
  have h : (exec step (fun k op => locksSafely k op && donatesSafely k op)
      (bootKernel false 0 1 fun _ => 0 : Kernel (Fin 3) Unit (Fin 1))
      [.lockAcquire 0, .create 2 40, .launch 2 40, .cont, .lockAcquire 0, .cont]).map
        (fun k => (k.intrOn, k.holder 0, k.status 2, (k.resume 2).waitsOn, k.priority 2,
          endsWithin k.nextHolder donationDepth 0)) =
      some (true, some 0, some .blocked, some (.lock 0), 40, true) := by rfl
  obtain ⟨k, hk, hv⟩ := map_eq_some_iff.mp h
  simp only [Prod.mk.injEq] at hv
  obtain ⟨hon, hh, hs, hw, hp, hchn⟩ := hv
  have hr := reaches_of_exec hk
  exact ⟨k, hr, hon, hh, ⟨hs, hw⟩, hp,
    priority_le_holder_of_donatesSafely (by decide) hr hh ⟨hs, hw⟩ hchn⟩

/-- Without the condition on donations a thread takes a lock before the waiter that it has woken,
and lowers its priority while that one is on no list of waiters.  The waiter then waits again, and
nothing is recalculated. -/
theorem priority_holder_lt_after_barging :
    ∃ k : Kernel (Fin 3) Unit (Fin 1),
      Reaches step (fun k op => locksSafely k op) (bootKernel false 0 1 fun _ => 0) k ∧
      k.intrOn ∧ k.holder 0 = some 0 ∧ k.BlockedIn 2 (.lock 0) ∧
      endsWithin k.nextHolder donationDepth 0 ∧ k.priority 0 = 20 ∧ k.priority 2 = 31 := by
  have h : (exec step (fun k op => locksSafely k op)
      (bootKernel false 0 1 fun _ => 0 : Kernel (Fin 3) Unit (Fin 1))
      [.lockAcquire 0, .create 2 31, .launch 2 31, .cont, .lockAcquire 0, .cont, .lockRelease 0,
        .lockAcquire 0, .setPriority 20, .cont]).map
        (fun k => (k.intrOn, k.holder 0, k.status 2, (k.resume 2).waitsOn,
          endsWithin k.nextHolder donationDepth 0, k.priority 0, k.priority 2)) =
      some (true, some 0, some .blocked, some (.lock 0), true, 20, 31) := by rfl
  obtain ⟨k, hk, hv⟩ := map_eq_some_iff.mp h
  simp only [Prod.mk.injEq] at hv
  obtain ⟨hon, hh, hs, hw, hchn, hp, hp'⟩ := hv
  exact ⟨k, reaches_of_exec hk, hon, hh, ⟨hs, hw⟩, hchn, hp, hp'⟩

end operations

end Kernel

end Pintos
