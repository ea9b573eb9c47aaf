import Pintos.Threads.Queues

/-! # Who holds a lock

In priority mode a lock is recorded in three places: the value of its semaphore, its `holder`, and
the `locks` list of the thread that holds it.  `LockInv` says that the three agree.

* **What is atomic.**  `lock_acquire` changes all three with interrupts off.  `lock_release` does
  too, unless its `sema_up` yields to another thread.
* **What is not.**  `lock_try_acquire` turns interrupts on in between and links the lock even when
  it has not got it.  `thread_exit` unlinks a lock that `lock_release` has unlinked before.
* `locksSafely` is the condition under which none of this happens in a harmful way. -/


namespace Pintos
open Intrusive Runs Function Option List Kernel

variable {T S K : Type}

/-- No lock operation is half done there. -/
def Resume.lockStable : Resume T S K → Bool
  | .tryDecided _ _ | .tryLink _ | .releaseUnlink _ _ => false
  | _ => true

namespace Kernel

/-- `t` is a thread and has not called `schedule` for the last time. -/
def Alive (k : Kernel T S K) (t : T) : Prop := k.status t ≠ none ∧ k.status t ≠ some .dying

/-- Value, holder and `locks` lists agree, with contents `c` of the lists. -/
structure LockInv (k : Kernel T S K) (c : T → List K) : Prop where
  mode : k.mlfqs = false
  represents : Represents k.lockLinks c
  owner : ∀ l t, l ∈ c t ↔ k.holder l = some t
  value : ∀ l, k.value (.lock l) = if k.holder l = none then 1 else 0
  alive : ∀ l t, k.holder l = some t → k.Alive t
  stable : ∀ t, (k.resume t).lockStable

/-- Nothing that `LockInv` speaks about has changed. -/
structure SameLocks (k k' : Kernel T S K) : Prop where
  mlfqs : k'.mlfqs = k.mlfqs
  lockLinks : k'.lockLinks = k.lockLinks
  holder : k'.holder = k.holder
  value : ∀ l, k'.value (.lock l) = k.value (.lock l)
  resume : k'.resume = k.resume
  alive : ∀ t, k.Alive t → k'.Alive t

variable {k k' k'' : Kernel T S K} {c : T → List K} {t : T} {l : K}

theorem Alive.congr (ht : k.Alive t) (h : k'.status t = k.status t) : k'.Alive t := by
  unfold Alive
  rw [h]
  exact ht

theorem SameLocks.trans (h : SameLocks k k') (h' : SameLocks k' k'') : SameLocks k k'' :=
  ⟨h'.mlfqs.trans h.mlfqs, h'.lockLinks.trans h.lockLinks, h'.holder.trans h.holder,
    fun l => (h'.value l).trans (h.value l), h'.resume.trans h.resume,
    fun t ht => h'.alive t (h.alive t ht)⟩

theorem LockInv.mono (hk : LockInv k c) (h : SameLocks k k') : LockInv k' c := by
  refine ⟨h.mlfqs.trans hk.mode, ?_, fun l t => ?_, fun l => ?_, fun l t ht => ?_, fun t => ?_⟩
  · rw [h.lockLinks]; exact hk.represents
  · rw [h.holder]; exact hk.owner l t
  · rw [h.value, h.holder]; exact hk.value l
  · rw [h.holder] at ht; exact h.alive t (hk.alive l t ht)
  · rw [h.resume]; exact hk.stable t

theorem LockInv.holder_of_value (hk : LockInv k c) (hv : 0 < k.value (.lock l)) :
    k.holder l = none := by
  rw [hk.value l] at hv
  by_contra hn
  simp [hn] at hv

section moves
variable [DecidableEq T]

theorem sameLocks_setStatus (h : Links (Queue S K) T) (t : T)
    (hst : st ≠ .dying) : SameLocks k ({ k with links := h }.setStatus t st) := by
  refine ⟨rfl, rfl, rfl, fun _ => rfl, rfl, fun t' ht' => ?_⟩
  by_cases e : t' = t
  · subst e; simp [Alive, setStatus, hst]
  · simpa [Alive, setStatus, e] using ht'

theorem LockInv.resumeAt (hk : LockInv k c) (hr : r.lockStable) : LockInv (k.resumeAt r) c := by
  refine { hk with stable := fun t => ?_ }
  by_cases e : t = k.cur
  · subst e; simpa [Kernel.resumeAt] using hr
  · simpa [Kernel.resumeAt, e] using hk.stable t

theorem LockInv.dying (hk : LockInv k c) (hc : c k.cur = []) :
    LockInv (k.setStatus k.cur .dying) c := by
  refine { hk with alive := fun l t ht => ?_ }
  have hne : t ≠ k.cur := by
    rintro rfl
    have := (hk.owner l _).mpr ht
    simp [hc] at this
  simpa [Alive, setStatus, hne] using hk.alive l t ht

end moves

section scheduler
variable [Fintype T] [DecidableEq T] [DecidableEq S] [DecidableEq K]

theorem nextThreadToRun_links (h : k.nextThreadToRun = some (k', m)) :
    ∃ h1, k' = { k with links := h1 } := by
  simp only [nextThreadToRun, bind_eq_bind, bind_eq_some_iff] at h
  obtain ⟨xs, -, h⟩ := h
  split at h
  · simp only [some.injEq, Prod.mk.injEq] at h
    exact ⟨k.links, h.1.symm⟩
  · simp only [map_eq_some_iff] at h
    obtain ⟨h1, -, rfl, -⟩ := h
    exact ⟨h1, rfl⟩

theorem schedule_sameLocks (h : k.schedule = some k') : SameLocks k k' := by
  simp only [schedule, ite_none_left_eq_some, bind_eq_some_iff] at h
  obtain ⟨-, ⟨k1, m⟩, hnext, h⟩ := h
  obtain ⟨h1, rfl⟩ := nextThreadToRun_links hnext
  split_ifs at h
  cases h
  refine ⟨rfl, rfl, rfl, fun _ => rfl, rfl, fun t ht => ?_⟩
  by_cases e : t = m
  · subst e
    unfold Alive
    rw [switchTo_status_self]
    simp
  · unfold Alive
    rcases switchTo_status_of_ne e with hs | ⟨hd, -⟩
    · rw [hs]; exact ht
    · exact absurd hd ht.2

theorem threadYield_sameLocks (h : k.threadYield = some k') : SameLocks k k' := by
  simp only [threadYield] at h
  split_ifs at h
  · exact (sameLocks_setStatus k.links k.cur (by simp)).trans (schedule_sameLocks h)
  · obtain ⟨h1, -, h⟩ := bind_eq_some_iff.mp h
    exact (sameLocks_setStatus h1 k.cur (by simp)).trans (schedule_sameLocks h)

theorem threadBlock_sameLocks (h : k.threadBlock = some k') : SameLocks k k' :=
  (sameLocks_setStatus k.links k.cur (by simp)).trans (schedule_sameLocks h)

omit [Fintype T] in
theorem threadUnblock_sameLocks (h : k.threadUnblock t = some k') : SameLocks k k' := by
  simp only [threadUnblock, ite_none_right_eq_some, map_eq_some_iff] at h
  obtain ⟨-, h1, -, rfl⟩ := h
  exact sameLocks_setStatus h1 t (by simp)

theorem LockInv.deferToMaxPriority {next : Kernel T S K → Option (Kernel T S K)}
    (hk : LockInv k c) (hr : r.lockStable) (hn : next k = some k' → ∃ c', LockInv k' c')
    (h : k.deferToMaxPriority r next = some k') : ∃ c', LockInv k' c' := by
  simp only [Kernel.deferToMaxPriority, bind_eq_some_iff] at h
  obtain ⟨yields, -, h⟩ := h
  split_ifs at h
  · exact ⟨c, (hk.resumeAt hr).mono (threadYield_sameLocks h)⟩
  · exact hn h

theorem LockInv.semaDownWait (hk : LockInv k c)
    (hr : r.lockStable) (h : k.semaDownWait s r = some k') : LockInv k' c := by
  simp only [Kernel.semaDownWait, bind_eq_bind, bind_eq_some_iff] at h
  obtain ⟨h1, -, h2, -, hb⟩ := h
  have hk2 : LockInv { k with links := h2 } c := hk.mono ⟨rfl, rfl, rfl, fun _ => rfl, rfl,
    fun _ => id⟩
  exact (hk2.resumeAt hr).mono (threadBlock_sameLocks hb)

end scheduler

/-! ### Taking and giving back a lock -/

section ownership
variable [DecidableEq T] [DecidableEq S] [DecidableEq K]

section
variable (hk : LockInv k c)
include hk

omit [DecidableEq S] in
/-- The running thread takes a free lock. -/
theorem LockInv.grab (hcur : k.Alive k.cur) (hfree : k.holder l = none)
    (hl : listPushBack k.lockLinks k.cur l = some k'.lockLinks) (hm : k'.mlfqs = k.mlfqs)
    (hh : k'.holder = update k.holder l (some k.cur))
    (hv : ∀ l', k'.value (.lock l') = if l' = l then 0 else k.value (.lock l'))
    (hs : k'.status = k.status) (hr : k'.resume = k.resume) :
    LockInv k' (update c k.cur (c k.cur ++ [l])) := by
  have hfrs : ∀ t, l ∉ c t := fun t hm => by
    have := (hk.owner l t).mp hm
    simp [hfree] at this
  refine ⟨hm.trans hk.mode, represents_listPushBack hk.represents hfrs hl, fun l' t => ?_,
    fun l' => ?_, fun l' t ht => ?_, fun t => hr ▸ hk.stable t⟩
  · rw [hh]
    by_cases e : l' = l
    · subst e
      by_cases et : t = k.cur
      · subst et; simp
      · simp [et, Ne.symm et, hfrs]
    · rw [update_of_ne e, ← hk.owner]
      by_cases et : t = k.cur
      · subst et; simp [e]
      · rw [update_of_ne et]
  · rw [hv, hh]
    by_cases e : l' = l
    · subst e; simp
    · simp [e, hk.value l']
  · unfold Alive
    rw [hs]
    rw [hh] at ht
    by_cases e : l' = l
    · subst e
      cases by simpa using ht
      exact hcur
    · rw [update_of_ne e] at ht
      exact hk.alive l' t ht

omit [DecidableEq S] in
/-- The running thread gives back a lock it holds. -/
theorem LockInv.drop (hown : k.holder l = some k.cur)
    (hl : listRemove k.lockLinks (.elem l) = some k'.lockLinks) (hm : k'.mlfqs = k.mlfqs)
    (hh : k'.holder = update k.holder l none)
    (hv : ∀ l', k'.value (.lock l') = if l' = l then 1 else k.value (.lock l'))
    (ha : ∀ t, k.Alive t → k'.Alive t) (hr : k'.resume = k.resume) :
    LockInv k' (update c k.cur ((c k.cur).erase l)) := by
  have hmem := (hk.owner l k.cur).mpr hown
  refine ⟨hm.trans hk.mode, represents_listRemove hk.represents hmem hl, fun l' t => ?_,
    fun l' => ?_, fun l' t ht => ?_, fun t => hr ▸ hk.stable t⟩
  · rw [hh]
    by_cases e : l' = l
    · subst e
      by_cases et : t = k.cur
      · subst et; simp [(hk.represents.nodup k.cur).not_mem_erase]
      · have : l' ∉ c t := fun hm' => et (hk.represents.disjoint hm' hmem)
        simp [et, this]
    · rw [update_of_ne e, ← hk.owner]
      by_cases et : t = k.cur
      · subst et; rw [update_self, mem_erase_of_ne e]
      · rw [update_of_ne et]
  · rw [hv, hh]
    by_cases e : l' = l
    · subst e; simp
    · simp [e, hk.value l']
  · rw [hh] at ht
    by_cases e : l' = l
    · subst e; simp at ht
    · rw [update_of_ne e] at ht
      exact ha t (hk.alive l' t ht)

omit [DecidableEq T] in
theorem LockInv.value_countDown (hv : 0 < k.value (.lock l)) (l' : K) :
    (k.countDown (.lock l)).value (.lock l') = if l' = l then 0 else k.value (.lock l') := by
  by_cases e : l' = l
  · subst e
    have hone := hk.value l'
    rw [if_pos (hk.holder_of_value hv)] at hone
    simp [countDown, hone]
  · simp [countDown, e]

theorem LockInv.lockTake (hcur : k.Alive k.cur) (hv : 0 < k.value (.lock l))
    (h : (k.countDown (.lock l)).lockTake l = some k') : ∃ c', LockInv k' c' := by
  have hmode : (k.countDown (.lock l)).mlfqs = false := hk.mode
  simp only [Kernel.lockTake, hmode, Bool.false_eq_true, if_false, map_eq_some_iff] at h
  obtain ⟨h1, hl, rfl⟩ := h
  exact ⟨_, LockInv.resumeAt (hk.grab hcur (hk.holder_of_value hv) hl hk.mode.symm rfl
    (hk.value_countDown hv) rfl rfl) rfl⟩

theorem LockInv.lockTryAcquire (hcur : k.Alive k.cur)
    (hv : 0 < k.value (.lock l)) (h : k.lockTryAcquire l true = some k') : ∃ c', LockInv k' c' := by
  simp only [Kernel.lockTryAcquire, hv, if_true, ite_none_left_eq_some,
    tryLink, map_eq_some_iff] at h
  obtain ⟨-, h1, hl, rfl⟩ := h
  exact ⟨_, LockInv.resumeAt (hk.grab hcur (hk.holder_of_value hv) hl rfl rfl
    (hk.value_countDown hv) rfl rfl) rfl⟩

end

end ownership

section release
variable [Fintype T] [DecidableEq T] [DecidableEq S] [DecidableEq K]

/-- No thread that could run after `lock_release` has woken a waiter has a higher priority than
the thread that releases the lock. -/
def releaseKeepsCpu (k : Kernel T S K) (l : K) : Bool :=
  decide (∀ t, (k.status t = some .ready ∧ t ≠ k.idle ∨
    k.status t = some .blocked ∧ (k.resume t).waitsOn = some (.lock l)) →
      k.priority t ≤ k.priority k.cur)

/-- Then its `sema_up` does not yield. -/
theorem Inv.shouldDefer_of_releaseKeepsCpu (hi : Inv k) (hp : k.releaseKeepsCpu l)
    (h : { k with holder := update k.holder l none }.semaWake (.lock l) = some k') :
    k'.shouldDefer = some false := by
  have hi0 : Inv { k with holder := update k.holder l none } :=
    hi.frame rfl rfl rfl rfl rfl
  obtain ⟨hi', h1, st, rfl, hst⟩ := hi0.semaWake h
  obtain ⟨c, hq⟩ := hi'.queues
  simp only [shouldDefer, walk_of_represents hq.represents, map_some]
  cases hmax : listMax k.priority (c .ready) with
  | none => simp
  | some m =>
    have hm := (hq.belongs m .ready).mp (listMax_mem hmax)
    have hle : k.priority m ≤ k.priority k.cur := by
      have hall := of_decide_eq_true hp
      rcases hst m with he | ⟨hb, -⟩
      · exact hall m (.inl ⟨he ▸ hm.1, hm.2⟩)
      · exact hall m (.inr hb)
    simpa using hle

omit [Fintype T] [DecidableEq S] in
theorem LockInv.releaseReturn_code (hk : LockInv k c) (h : k.releaseReturn l .code = some k') :
    LockInv k' c := by
  cases h
  exact hk.resumeAt rfl

omit [Fintype T] [DecidableEq S] in
theorem LockInv.releaseReturn_exit (hk : LockInv k c)
    (hr : ∀ h, listRemove k.lockLinks (.elem l) = some h → Represents h c)
    (h : k.releaseReturn l (.exit e) = some k') : LockInv k' c := by
  obtain ⟨h1, hl, rfl⟩ := map_eq_some_iff.mp h
  have hk1 : LockInv { k with lockLinks := h1 } c :=
    ⟨hk.mode, hr h1 hl, hk.owner, hk.value, hk.alive, hk.stable⟩
  exact hk1.resumeAt rfl

/-- `lock_release` from the removal of the lock on: the lock is free already, and on the list. -/
theorem lockInv_releaseUnlink [Fintype K] (c' : T → List K) (h : k.releaseUnlink l e = some k')
    (hm : k.mlfqs = false) (hk : ∀ h, listRemove k.lockLinks (.elem l) = some h →
      LockInv { k with lockLinks := h } c') : ∃ c', LockInv k' c' := by
  unfold releaseUnlink at h
  rw [if_neg (by simp [hm])] at h
  obtain ⟨h1, hl, h⟩ := bind_eq_some_iff.mp h
  obtain ⟨k1, hk1, h⟩ := bind_eq_some_iff.mp h
  obtain ⟨p, q, rfl⟩ := threadSetPriority_spec hk1
  have hk2 : LockInv { k with lockLinks := h1, priority := p, priorityOrg := q } c' :=
    (hk h1 hl).mono ⟨rfl, rfl, rfl, fun _ => rfl, rfl, fun _ => id⟩
  -- the removal that `thread_exit` adds comes at once, unless there was a yield
  have hret : ∀ {k'}, { k with
      lockLinks := h1, priority := p, priorityOrg := q }.releaseReturn l e = some k' →
      ∃ c', LockInv k' c' := by
    intro k' h
    cases e with
    | code => exact ⟨c', hk2.releaseReturn_code h⟩
    | exit e =>
      refine ⟨c', hk2.releaseReturn_exit (fun h2 hl2 => ?_) h⟩
      cases mem_unique (listRemove_again hl) hl2
      exact hk2.represents
  split_ifs at h
  · exact hk2.deferToMaxPriority rfl hret h
  · exact hret h

/-- `lock_release` up to the removal of the lock, when its `sema_up` does not yield. -/
theorem LockInv.unlinkReleased (hk : LockInv k c) (hi : Inv k) (hown : k.holder l = some k.cur)
    (hw : { k with holder := update k.holder l none }.semaWake (.lock l) = some k')
    (hl : listRemove k'.lockLinks (.elem l) = some h) :
    LockInv { k' with lockLinks := h } (update c k.cur ((c k.cur).erase l)) := by
  have hi0 : Inv { k with holder := update k.holder l none } :=
    hi.frame rfl rfl rfl rfl rfl
  obtain ⟨-, h1, st, rfl, hst⟩ := hi0.semaWake hw
  refine hk.drop hown hl rfl rfl (fun l' => ?_) (fun t ht => ?_) rfl
  · by_cases e : l' = l
    · subst e
      have := hk.value l'
      simp [hown] at this
      simp [this]
    · simp [e]
  · rcases hst t with he | ⟨-, he⟩
    · exact ht.congr he
    · exact ⟨by simp [he], by simp [he]⟩

theorem Inv.lockRelease_spec [Fintype K] (hi : Inv k) (hp : k.releaseKeepsCpu l)
    (h : k.lockRelease l e = some k') : k.holder l = some k.cur ∧ ∃ k1,
      { k with holder := update k.holder l none }.semaWake (.lock l) = some k1 ∧
      k1.releaseUnlink l e = some k' := by
  simp only [Kernel.lockRelease, ite_none_right_eq_some, bind_eq_some_iff] at h
  obtain ⟨hown, k1, hw, h⟩ := h
  have hstay := hi.shouldDefer_of_releaseKeepsCpu hp hw
  simp only [Kernel.deferToMaxPriority, hstay] at h
  exact ⟨hown, k1, hw, h⟩

theorem semaWake_mlfqs (hi : Inv k) (h : k.semaWake s = some k') : k'.mlfqs = k.mlfqs := by
  obtain ⟨-, h1, st, rfl, -⟩ := hi.semaWake h
  rfl

theorem LockInv.lockRelease [Fintype K] (hk : LockInv k c) (hi : Inv k)
    (hp : k.releaseKeepsCpu l) (h : k.lockRelease l e = some k') : ∃ c', LockInv k' c' := by
  obtain ⟨hown, k1, hw, h⟩ := hi.lockRelease_spec hp h
  refine lockInv_releaseUnlink _ h ?_ fun h2 hl => hk.unlinkReleased hi hown hw hl
  have hi0 : Inv { k with holder := update k.holder l none } :=
    hi.frame rfl rfl rfl rfl rfl
  exact (semaWake_mlfqs hi0 hw).trans hk.mode

omit [Fintype T] in
theorem LockInv.initThread (hk : LockInv k c) (h : k.initThread t p = some k') : LockInv k' c := by
  simp only [Kernel.initThread, ite_none_right_eq_some, some.injEq] at h
  obtain ⟨⟨hn, -⟩, rfl⟩ := h
  have hemp : c t = [] := by
    refine eq_nil_iff_forall_not_mem.mpr fun l hm => ?_
    exact (hk.alive l t ((hk.owner l t).mp hm)).1 hn
  refine ⟨hk.mode, ?_, hk.owner, hk.value, fun l t' ht' => ?_, fun t' => ?_⟩
  · simpa [hk.mode] using represents_listInit hk.represents hemp
  · by_cases e : t' = t
    · subst e; simp [Alive]
    · simpa [Alive, e] using hk.alive l t' ht'
  · by_cases e : t' = t
    · subst e; simp [Resume.lockStable]
    · simpa [e] using hk.stable t'

theorem LockInv.lockAcquire [Fintype K] (hk : LockInv k c) (hcur : k.Alive k.cur)
    (h : k.lockAcquire l = some k') : ∃ c', LockInv k' c' := by
  unfold Kernel.lockAcquire at h
  rw [ite_none_left_eq_some, if_neg (by simp [hk.mode])] at h
  replace h := h.2
  split_ifs at h with hv
  · exact hk.lockTake hcur hv h
  · obtain ⟨h1, -, h⟩ := bind_eq_some_iff.mp h
    obtain ⟨t, -, h⟩ := bind_eq_some_iff.mp h
    obtain ⟨k1, hrec, rfl⟩ := map_eq_some_iff.mp h
    obtain ⟨p, rfl⟩ := recalculatePriority_spec hrec
    exact ⟨c, LockInv.resumeAt (hk.mono ⟨rfl, rfl, rfl, fun _ => rfl, rfl, fun _ => id⟩) rfl⟩

theorem LockInv.exitLoop [Fintype K] (hk : LockInv k c) (hi : Inv k)
    (hp : ∀ l, e = .elem l → k.releaseKeepsCpu l) (h : k.exitLoop e = some k') :
    ∃ c', LockInv k' c' := by
  simp only [Kernel.exitLoop] at h
  split_ifs at h with he hemp
  · exact ⟨c, (hk.dying (hk.represents.eq_nil hemp)).mono (schedule_sameLocks h)⟩
  · cases e with
    | elem l =>
      obtain ⟨e', -, h⟩ := bind_eq_some_iff.mp h
      exact hk.lockRelease hi (hp l rfl) h
    | head | tail => simp at h

/-! ### Runs -/

/-- The node is part of a `locks` list: a header, or the element of a lock that is held. -/
def lockListed (k : Kernel T S K) : Node T K → Bool
  | .head _ | .tail _ => true
  | .elem l => (k.holder l).isSome

/-- The nodes to which the pointers of a lock's element lead are, as far as they are part of a
list, each other's neighbours. -/
def staleLockUnlinkHarmless (k : Kernel T S K) (l : K) : Bool :=
  match k.lockLinks.prev (.elem l), k.lockLinks.next (.elem l) with
  | some p, some n =>
    (!k.lockListed p || decide (k.lockLinks.next p = some n)) &&
      (!k.lockListed n || decide (k.lockLinks.prev n = some p))
  | _, _ => true

/-- The steps that keep the three records of a lock together. -/
def locksSafely (k : Kernel T S K) (op : Op T S K) : Bool :=
  k.waitsSafely op &&
    match op with
    | .lockTryAcquire l off => off && decide (0 < k.value (.lock l))
    | .lockRelease l => k.releaseKeepsCpu l
    | .cont =>
      match k.resume k.cur with
      | .exiting (.elem l) => k.releaseKeepsCpu l
      | .releaseReturn l (.exit _) => k.staleLockUnlinkHarmless l
      | _ => true
    | _ => true

omit [Fintype T] [DecidableEq S] in
theorem LockInv.represents_staleUnlink (hk : LockInv k c) (hs : k.staleLockUnlinkHarmless l)
    (hl : listRemove k.lockLinks (.elem l) = some h) : Represents h c := by
  refine represents_listRemove_stale hk.represents (fun p n hp hn => ?_) hl
  have hlst : ∀ x, Live c x → k.lockListed x := by
    intro x hx
    cases x with
    | head | tail => rfl
    | elem l =>
      obtain ⟨t, hm⟩ := hx
      simp [lockListed, (hk.owner l t).mp hm]
  simp only [staleLockUnlinkHarmless, hp, hn, Bool.and_eq_true, Bool.or_eq_true, decide_eq_true_eq] at hs
  refine ⟨fun hl => ?_, fun hl => ?_⟩
  · exact hs.1.resolve_left (by simp [hlst p hl])
  · exact hs.2.resolve_left (by simp [hlst n hl])

theorem LockInv.resumeStep [Fintype K] (hk : LockInv k c) (hi : Inv k) (hs : k.locksSafely .cont)
    (h : k.resumeStep = some k') : ∃ c', LockInv k' c' := by
  have hcur : k.Alive k.cur := by simp [Alive, hi.running]
  replace hs := (Bool.and_eq_true _ _ ▸ hs).2
  obtain ⟨-, r, hr, hres⟩ := hi.resumes h
  have hst := hr ▸ hk.stable k.cur
  cases hres with
  | wait _ _ h => exact ⟨c, hk.semaDownWait hst h⟩
  | created h =>
    have hk1 := hk.resumeAt (r := .run) rfl
    simp only [createReturn] at h
    split_ifs at h
    · exact ⟨c, hk1.mono (threadYield_sameLocks h)⟩
    · exact ⟨c, some.inj h ▸ hk1⟩
  | down h =>
    refine ⟨c, h ▸ LockInv.resumeAt (hk.mono ⟨rfl, rfl, rfl, fun l => ?_, rfl, fun _ => id⟩) rfl⟩
    simp [countDown]
  | take hv h => exact hk.lockTake hcur (Nat.pos_of_ne_zero hv) h
  | tryHolder | tryLink | releaseUnlink => simp [Resume.lockStable] at hst
  | @releaseReturn l e h =>
    cases e with
    | code => exact ⟨c, hk.releaseReturn_code h⟩
    | exit e =>
      simp only [hr] at hs
      exact ⟨c, hk.releaseReturn_exit (fun h1 hl => hk.represents_staleUnlink hs hl) h⟩
  | exitLoop h =>
    refine hk.exitLoop hi (fun l he => ?_) h
    subst he
    simpa [hr] using hs

theorem LockInv.semaWake (hk : LockInv k c) (hi : Inv k)
    (h : k.semaWake (.sem s) = some k') : LockInv k' c := by
  obtain ⟨-, h1, st, rfl, hst⟩ := hi.semaWake h
  refine hk.mono ⟨rfl, rfl, rfl, fun l => by simp, rfl, fun t ht => ?_⟩
  rcases hst t with he | ⟨-, he⟩
  · exact ht.congr he
  · exact ⟨by simp [he], by simp [he]⟩

theorem threadExit_eq_some (hm : k.mlfqs = false) (h : k.threadExit = some k') :
    ∃ e, k.resumeAt (.exiting e) = k' := by
  rw [threadExit, if_neg (by simp [hm])] at h
  obtain ⟨e, -, h⟩ := map_eq_some_iff.mp h
  exact ⟨e, h⟩

variable [Fintype K]

theorem LockInv.calls (hk : LockInv k c) (hi : Inv k) (hs : k.locksSafely op)
    (h : Calls k k' op) : ∃ c', LockInv k' c' := by
  have hcur : k.Alive k.cur := by simp [Alive, hi.running]
  have hstay : ∀ {k1 : Kernel T S K}, LockInv k1 c → some k1 = some k' → ∃ c', LockInv k' c' :=
    fun hk1 e => ⟨c, some.inj e ▸ hk1⟩
  replace hs := (Bool.and_eq_true _ _ ▸ hs).2
  cases h with
  | stay h => exact ⟨c, h ▸ hk⟩
  | create h => exact ⟨c, hk.initThread h⟩
  | launch _ _ hu h =>
    exact ⟨c, h ▸ (hk.mono (threadUnblock_sameLocks hu)).resumeAt rfl⟩
  | semaDown h => exact ⟨c, h ▸ hk.resumeAt rfl⟩
  | semaTryDown h =>
    exact ⟨c, h ▸ hk.mono ⟨rfl, rfl, rfl, fun l => by simp [countDown], rfl, fun _ => id⟩⟩
  | semaUp hw h =>
    have hk1 := hk.semaWake hi hw
    exact hk1.deferToMaxPriority rfl (hstay hk1) h
  | lockAcquire h => exact hk.lockAcquire hcur h
  | lockTryAcquire h =>
    simp only [Bool.and_eq_true, decide_eq_true_eq] at hs
    obtain ⟨rfl, hv⟩ := hs
    exact hk.lockTryAcquire hcur hv h
  | lockRelease h => exact hk.lockRelease hi hs h
  | setPriority _ hp h =>
    obtain ⟨p, q, rfl⟩ := threadSetPriority_spec hp
    have hk2 : LockInv { k with priority := p, priorityOrg := q } c :=
      hk.mono ⟨rfl, rfl, rfl, fun _ => rfl, rfl, fun _ => id⟩
    split_ifs at h
    · exact hk2.deferToMaxPriority rfl (hstay hk2) h
    · exact hstay hk2 h
  | exit h =>
    obtain ⟨e, rfl⟩ := threadExit_eq_some hk.mode h
    exact ⟨c, hk.resumeAt rfl⟩

theorem LockInv.step {op : Op T S K} (hk : LockInv k c) (hi : Inv k) (hs : k.locksSafely op)
    (h : k.step op = some k') : ∃ c', LockInv k' c' := by
  cases steps_of_step h with
  | cont h1 => exact hk.resumeStep hi hs h1
  | yield h1 => exact ⟨c, hk.mono (threadYield_sameLocks h1)⟩
  | unblock _ _ h1 => exact ⟨c, hk.mono (threadUnblock_sameLocks h1)⟩
  | wake h1 => exact ⟨c, hk.semaWake hi h1⟩
  | retune _ h1 => exact ⟨c, h1 ▸ hk.mono ⟨rfl, rfl, rfl, fun _ => rfl, rfl, fun _ => id⟩⟩
  | block _ h1 => exact ⟨c, hk.mono (threadBlock_sameLocks h1)⟩
  | call _ _ h1 => exact hk.calls hi hs h1

omit [Fintype T] [Fintype K] [DecidableEq S] [DecidableEq K] in
theorem lockInv_boot {main idle : T} (value : S → ℕ) :
    LockInv (bootKernel (K := K) false main idle value) fun _ => [] := by
  refine ⟨rfl, ⟨fun t => ?_, fun _ => nodup_nil, by simp⟩, ?_, ?_, ?_, fun _ => rfl⟩
  · exact isChain_pair.mpr ⟨rfl, rfl⟩
  · simp [bootKernel]
  · simp [bootKernel]
  · simp [bootKernel]

theorem lockInv_of_reaches {main idle : T} (hne : main ≠ idle) {value : S → ℕ}
    (hr : Reaches step (fun k op => locksSafely k op) (bootKernel false main idle value) k) :
    ∃ c, LockInv k c := by
  refine (hr.invariant (P := fun k => Sound k ∧ ∃ c, LockInv k c)
    ⟨.inl (inv_boot hne value), _, lockInv_boot value⟩ ?_).2
  rintro k op k' ⟨hsnd, c, hk⟩ hs h
  refine ⟨hsnd.step (Bool.and_eq_true _ _ ▸ hs).1 h, ?_⟩
  rcases hsnd with hi | ⟨l, he⟩
  · exact hk.step hi hs h
  · exact ⟨c, hk.semaDownWait rfl (he.wait_of_step h).2⟩

/-- The three records of every lock, the third as one meets it when walking through the links. -/
structure LocksIntact (k : Kernel T S K) : Prop where
  value : ∀ l, k.value (.lock l) = 0 ↔ k.holder l ≠ none
  holder : ∀ l t, k.holder l = some t → k.status t ≠ none
  walk : ∀ t, k.status t ≠ none → ∃ xs, k.walkLocks t = some xs ∧
    ∀ l, xs.count l = if k.holder l = some t then 1 else 0

omit [Fintype T] [DecidableEq S] in
theorem LockInv.locksIntact (hk : LockInv k c) : LocksIntact k := by
  refine ⟨fun l => ?_, fun l t ht => (hk.alive l t ht).1, fun t _ => ⟨c t, ?_, fun l => ?_⟩⟩
  · rw [hk.value l]
    split_ifs with h <;> simp [h]
  · exact hk.represents.walk t (Nat.lt_succ_of_le (hk.represents.nodup t).length_le_card)
  · split_ifs with h
    · exact count_eq_one_of_mem (hk.represents.nodup t) ((hk.owner l t).mpr h)
    · exact count_eq_zero_of_not_mem fun hm => h ((hk.owner l t).mp hm)

/-- **Lock ownership.**  In every run of safe steps in priority mode, interrupts on or off, a
lock's value is zero exactly when it has a holder, and it is met once in the holder's list and in
no other. -/
theorem locksIntact_of_locksSafely {main idle : T} (hne : main ≠ idle) {value : S → ℕ}
    {k : Kernel T S K}
    (hr : Reaches step (fun k op => locksSafely k op) (bootKernel false main idle value) k) :
    LocksIntact k := by
  obtain ⟨c, hk⟩ := lockInv_of_reaches hne hr
  exact hk.locksIntact

/-- A lock goes from the initial thread to a thread that has waited for it. -/
theorem locksIntact_of_locksSafely_handover :
    ∃ k : Kernel (Fin 3) Unit (Fin 1),
      Reaches step (fun k op => locksSafely k op) (bootKernel false 0 1 fun _ => 0) k ∧
      k.intrOn ∧ k.holder 0 = some 2 ∧ LocksIntact k := by
  have h : (exec step (fun k op => locksSafely k op)
      (bootKernel false 0 1 fun _ => 0 : Kernel (Fin 3) Unit (Fin 1))
      [.lockAcquire 0, .create 2 31, .launch 2 31, .cont, .lockAcquire 0, .cont, .lockRelease 0,
        .yield, .cont]).map (fun k => (k.intrOn, k.holder 0)) = some (true, some 2) := by decide
  obtain ⟨k, hk, hv⟩ := map_eq_some_iff.mp h
  simp only [Prod.mk.injEq] at hv
  have hr := reaches_of_exec hk
  exact ⟨k, hr, hv.1, hv.2, locksIntact_of_locksSafely (by decide) hr⟩

/-- Without the condition a failed `lock_try_acquire` steals the element of a held lock: it is on
the list of the thread that has not got the lock, and the walk of the holder's list runs into
that thread's tail. -/
theorem not_locksIntact_after_failed_try :
    ∃ k : Kernel (Fin 3) Unit (Fin 1),
      Reaches step (fun _ _ => True) (bootKernel false 0 1 fun _ => 0) k ∧ k.intrOn ∧
      k.holder 0 = some 0 ∧ k.walkLocks 2 = some [0] ∧ k.walkLocks 0 = none ∧
      ¬ LocksIntact k := by
  have h : (exec step (fun _ _ => True)
      (bootKernel false 0 1 fun _ => 0 : Kernel (Fin 3) Unit (Fin 1))
      [.lockAcquire 0, .create 2 31, .launch 2 31, .cont, .lockTryAcquire 0 false, .cont,
        .cont]).map
        (fun k => (k.intrOn, k.holder 0, k.status 0, k.walkLocks 2, k.walkLocks 0)) =
      some (true, some 0, some .ready, some [0], none) := by rfl
  obtain ⟨k, hk, hv⟩ := map_eq_some_iff.mp h
  simp only [Prod.mk.injEq] at hv
  obtain ⟨hon, hh, hs, hw, hw'⟩ := hv
  refine ⟨k, reaches_of_exec hk, hon, hh, hw, hw', fun hl => ?_⟩
  obtain ⟨xs, hxs, -⟩ := hl.walk 0 (by simp [hs])
  rw [hw'] at hxs
  cases hxs

end release

end Kernel

end Pintos
