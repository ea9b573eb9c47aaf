import Pintos.Lib.Runs
import Pintos.Userprog.Process

/-! # The protocol of `process_wait` and `process_exit`

* **Agreement.**  `Agree c x y` is what a parent `x` and its child `y` rely on: whoever is about to
  block has found a child whose test lies ahead, and `parent_waiting` is set only for a parent that
  blocks before it does anything else.
* **Condition.**  A step meets `apart` unless it puts the child's test between the parent's search
  and its `thread_block`, or the search between the child's `if` and its removal.
* **Result.**  `wait_exit`: as long as all steps meet it, no wake-up is lost and the assertion of
  `thread_unblock` holds.  `wait_exit_races` are the two ways in which a run goes wrong. -/

namespace Pintos
open Runs Function Option List Processes ProcessPc

namespace Processes

/-- The test of `parent_waiting` is not made while the parent is between its search and its
`thread_block`; the search for a child is not made while that child is between the `if` and its
removal from `all_list`. -/
def apart (m : Processes) : ProcessAction → Prop
  | .wait t c => c ∈ (m.thread t).children.map Child.tid → (m.thread c).pc ≠ .leaving
  | .run c => (m.thread c).pc = .exiting →
      (m.thread (m.thread c).parentTid).pc ≠ .looked c ∧
      (m.thread (m.thread c).parentTid).pc ≠ .flagged c
  | _ => True

instance (m : Processes) : ∀ a, Decidable (apart m a)
  | .wait t c => inferInstanceAs
      (Decidable (c ∈ (m.thread t).children.map Child.tid → (m.thread c).pc ≠ .leaving))
  | .run c => inferInstanceAs (Decidable ((m.thread c).pc = .exiting →
      (m.thread (m.thread c).parentTid).pc ≠ .looked c ∧
      (m.thread (m.thread c).parentTid).pc ≠ .flagged c))
  | .create _ | .exit _ _ | .threadExit _ | .sleep _ | .wake _ | .free _ => .isTrue trivial

end Processes

/-! ### A parent and a child -/

/-- Blocked in the `process_wait` for `c`. -/
def Process.BlockedFor (x : Process) (c : ℕ) : Prop := x.pc = .waiting c ∧ x.status = .blocked

/-- `parent_waiting` is not set, and has not been found set. -/
def Process.Unawaited (x : Process) : Prop := x.parentWaiting = false ∧ x.pc ≠ .unblocking

/-- What holds between a parent `x` and its child `y` with the `tid` `c`. -/
structure Agree (c : ℕ) (x y : Process) : Prop where
  looked : x.pc = .looked c → y.pc.before ∧ y.parentWaiting = false
  flagged : x.pc = .flagged c → y.pc.before ∧ y.parentWaiting = true
  blocked : x.BlockedFor c → (y.pc.before ∨ y.pc = .unblocking) ∧ y.parentWaiting = true
  /-- `parent_waiting` is set for a parent that does wait, or blocks in its next step. -/
  waiting : y.parentWaiting = true → y.pc.passed ∨ x.pc = .flagged c ∨ x.BlockedFor c
  unblocking : y.pc = .unblocking → x.BlockedFor c

section agree
variable {c : ℕ} {x x' y y' : Process}

/-- Neither blocked for `c` nor about to be. -/
def Process.IdleFor (x : Process) (c : ℕ) : Prop :=
  x.pc ≠ .looked c ∧ x.pc ≠ .flagged c ∧ ¬ x.BlockedFor c

theorem idleFor_of_waitsFor (h : x.pc.waitsFor ≠ some c) : x.IdleFor c := by
  refine ⟨fun hpc => h ?_, fun hpc => h ?_, fun hpc => h ?_⟩
  · rw [hpc]
    rfl
  · rw [hpc]
    rfl
  · rw [hpc.1]
    rfl

theorem Agree.idle (h : Agree c x y) (hx : x.IdleFor c) (hx' : x'.IdleFor c) : Agree c x' y where
  looked hpc := (hx'.1 hpc).elim
  flagged hpc := (hx'.2.1 hpc).elim
  blocked hpc := (hx'.2.2 hpc).elim
  waiting hw := .inl ((h.waiting hw).resolve_right fun h' => h'.elim hx.2.1 hx.2.2)
  unblocking hpc := (hx.2.2 (h.unblocking hpc)).elim

theorem Agree.before (h : Agree c x y) (hy : y.pc.before = true) (hy' : y'.pc.before = true)
    (hwaiting : y'.parentWaiting = y.parentWaiting) : Agree c x y' where
  looked hpc := ⟨hy', hwaiting.trans (h.looked hpc).2⟩
  flagged hpc := ⟨hy', hwaiting.trans (h.flagged hpc).2⟩
  blocked hpc := ⟨.inl hy', hwaiting.trans (h.blocked hpc).2⟩
  waiting hw := by
    rcases h.waiting (hwaiting.symm.trans hw) with hpsd | hx
    · cases hpc : y.pc <;> simp [hpc, ProcessPc.before, ProcessPc.passed] at hy hpsd
    · exact .inr hx
  unblocking hpc := by
    rw [hpc] at hy'
    cases hy'

theorem Agree.congr (h : Agree c x y) (hpc : x'.pc = x.pc) (hsts : x'.status = x.status)
    (hpc' : y'.pc = y.pc) (hwaiting : y'.parentWaiting = y.parentWaiting) : Agree c x' y' := by
  obtain ⟨h1, h2, h3, h4, h5⟩ := h
  constructor <;> simpa only [Process.BlockedFor, hpc, hsts, hpc', hwaiting]

theorem not_before_of_passed {p : ProcessPc} (h : p.passed = true) :
    p.before = false ∧ p ≠ .unblocking := by
  cases p <;> simp [before, passed] at h ⊢

theorem Agree.passed (h : Agree c x y) (hy : y.pc.passed = true) (hy' : y'.pc.passed = true) :
    Agree c x y' := by
  obtain ⟨hbfr, hunb⟩ := not_before_of_passed hy
  refine ⟨fun hpc => ?_, fun hpc => ?_, fun hpc => ?_, fun _ => .inl hy', fun hpc => ?_⟩
  · simp [(h.looked hpc).1] at hbfr
  · simp [(h.flagged hpc).1] at hbfr
  · exact ((h.blocked hpc).1.elim (by simp [hbfr]) hunb).elim
  · exact absurd hpc (not_before_of_passed hy').2

end agree

/-! ### The invariant -/

namespace Processes
variable {m m' : Processes} {t c : ℕ} {x y : Process}

@[simp] theorem setThread_nextTid : (m.setThread t x).nextTid = m.nextTid := rfl
@[simp] theorem setThread_self : (m.setThread t x).thread t = x := update_self ..

theorem setThread_of_ne (h : u ≠ t) : (m.setThread t x).thread u = m.thread u :=
  update_of_ne h ..

/-- `c` has been created by `t`. -/
def IsChild (m : Processes) (t c : ℕ) : Prop :=
  (m.thread c).parentTid = t ∧ c ≠ t ∧ c < m.nextTid

theorem parentTid_setThread (h : x.parentTid = (m.thread t).parentTid) (u : ℕ) :
    ((m.setThread t x).thread u).parentTid = (m.thread u).parentTid := by
  rcases eq_or_ne u t with rfl | hu
  · rw [setThread_self, h]
  · rw [setThread_of_ne hu]

theorem isChild_setThread (h : x.parentTid = (m.thread t).parentTid) :
    (m.setThread t x).IsChild a c ↔ m.IsChild a c := by
  rw [IsChild, IsChild, parentTid_setThread h, setThread_nextTid]

/-- The names of the threads fit together. -/
structure Names (m : Processes) : Prop where
  parent : ∀ t, (m.thread t).parentTid < m.nextTid
  unborn : ∀ t, m.nextTid ≤ t → (m.thread t).pc = .unborn
  child : ∀ t, ∀ c ∈ (m.thread t).children.map Child.tid, m.IsChild t c
  waits : ∀ t c, (m.thread t).pc.waitsFor = some c → m.IsChild t c

/-- The threads that have not passed the removal are on `all_list`, once. -/
structure Table (m : Processes) : Prop extends Names m where
  listed : ∀ t, t ∈ m.allList ↔ (m.thread t).pc.listed = true
  nodup : m.allList.Nodup

/-- Every parent agrees with its children. -/
structure Inv (m : Processes) : Prop extends Table m where
  agree : ∀ c, (m.thread c).parentTid ≠ c →
    Agree c (m.thread (m.thread c).parentTid) (m.thread c)
  /-- Nobody waits for the initial thread. -/
  own : ∀ c, (m.thread c).parentTid = c → (m.thread c).Unawaited

theorem Inv.agree_child (h : m.Inv) (hd : d ≠ t) (hp : (m.thread d).parentTid = t) :
    Agree d (m.thread t) (m.thread d) := by
  have hagr := h.agree d (hp ▸ hd.symm)
  rwa [hp] at hagr

/-- What a thread may do to its own entry, as far as the lists are concerned. -/
structure Moves (m : Processes) (t : ℕ) (x : Process) : Prop where
  born : (m.thread t).pc ≠ .unborn
  parent : x.parentTid = (m.thread t).parentTid
  listed : x.pc.listed = (m.thread t).pc.listed
  children : x.children.map Child.tid ⊆ (m.thread t).children.map Child.tid
  waits : ∀ c, x.pc.waitsFor = some c → m.IsChild t c

theorem Names.lt_nextTid (h : m.Names) (ht : (m.thread t).pc ≠ .unborn) : t < m.nextTid := by
  by_contra hle
  exact ht (h.unborn t (by omega))

theorem Names.setThread (h : m.Names) (hborn : (m.thread t).pc ≠ .unborn)
    (hprn : x.parentTid = (m.thread t).parentTid)
    (hchi : x.children.map Child.tid ⊆ (m.thread t).children.map Child.tid)
    (hwts : ∀ c, x.pc.waitsFor = some c → m.IsChild t c) : (m.setThread t x).Names := by
  have ht := h.lt_nextTid hborn
  refine ⟨fun u => ?_, fun u hu => ?_, fun u c hc => ?_, fun u c hc => ?_⟩
  · rw [parentTid_setThread hprn]
    exact h.parent u
  · rw [setThread_nextTid] at hu
    rw [setThread_of_ne (by omega)]
    exact h.unborn u hu
  · rw [isChild_setThread hprn]
    rcases eq_or_ne u t with rfl | hu
    · rw [setThread_self] at hc
      exact h.child u c (hchi hc)
    · rw [setThread_of_ne hu] at hc
      exact h.child u c hc
  · rw [isChild_setThread hprn]
    rcases eq_or_ne u t with rfl | hu
    · rw [setThread_self] at hc
      exact hwts c hc
    · rw [setThread_of_ne hu] at hc
      exact h.waits u c hc

theorem Table.setThread (h : m.Table) (hx : m.Moves t x) : (m.setThread t x).Table := by
  refine ⟨h.toNames.setThread hx.born hx.parent hx.children hx.waits, fun u => ?_, h.nodup⟩
  rcases eq_or_ne u t with rfl | hu
  · rw [setThread_self, hx.listed]
    exact h.listed u
  · rw [setThread_of_ne hu]
    exact h.listed u

theorem Inv.agree_setThread (h : m.Inv) (hsame : x.parentTid = (m.thread t).parentTid)
    (hprn : (m.thread t).parentTid ≠ t → Agree t (m.thread (m.thread t).parentTid) x)
    (hchl : ∀ c, c ≠ t → (m.thread c).parentTid = t → Agree c x (m.thread c))
    (hc : ((m.setThread t x).thread c).parentTid ≠ c) :
    Agree c ((m.setThread t x).thread ((m.setThread t x).thread c).parentTid)
      ((m.setThread t x).thread c) := by
  rw [parentTid_setThread hsame] at hc ⊢
  rcases eq_or_ne c t with rfl | hct
  · rw [setThread_self, setThread_of_ne hc]
    exact hprn hc
  · rw [setThread_of_ne hct]
    rcases eq_or_ne (m.thread c).parentTid t with hp | hp
    · rw [hp, setThread_self]
      exact hchl c hct hp
    · rw [setThread_of_ne hp]
      exact h.agree c hc

theorem Inv.own_setThread (h : m.Inv) (hsame : x.parentTid = (m.thread t).parentTid)
    (hown : (m.thread t).Unawaited → x.Unawaited)
    (hc : ((m.setThread t x).thread c).parentTid = c) :
    ((m.setThread t x).thread c).Unawaited := by
  rw [parentTid_setThread hsame] at hc
  rcases eq_or_ne c t with rfl | hct
  · rw [setThread_self]
    exact hown (h.own c hc)
  · rw [setThread_of_ne hct]
    exact h.own c hc

theorem Inv.setThread (h : m.Inv) (hx : m.Moves t x)
    (hprn : (m.thread t).parentTid ≠ t → Agree t (m.thread (m.thread t).parentTid) x)
    (hchl : ∀ c, c ≠ t → (m.thread c).parentTid = t → Agree c x (m.thread c))
    (hown : (m.thread t).Unawaited → x.Unawaited) : (m.setThread t x).Inv :=
  ⟨h.toTable.setThread hx, fun _ hc => h.agree_setThread hx.parent hprn hchl hc,
    fun _ hc => h.own_setThread hx.parent hown hc⟩

/-- A parent and its child that move together. -/
theorem Inv.setPair (h : m.Inv) (hpc : (m.thread c).parentTid = t) (hct : c ≠ t) (hx : m.Moves t x)
    (hy : m.Moves c y) (hagr : Agree c x y) (hprn : ∀ z, Agree t z (m.thread t) → Agree t z x)
    (hote : ∀ d, d ≠ c → ∀ z, Agree d (m.thread t) z → Agree d x z)
    (hchl : ∀ d z, Agree d (m.thread c) z → Agree d y z)
    (hown : (m.thread t).Unawaited → x.Unawaited) : ((m.setThread c y).setThread t x).Inv := by
  have htbl := h.toTable.setThread hy
  have hx' : (m.setThread c y).Moves t x := by
    obtain ⟨h1, h2, h3, h4, h5⟩ := hx
    have ht : (m.setThread c y).thread t = m.thread t := setThread_of_ne hct.symm
    exact ⟨by rwa [ht], by rwa [ht], by rwa [ht], by rwa [ht],
      fun d hd => (isChild_setThread hy.parent).mpr (h5 d hd)⟩
  refine ⟨htbl.setThread hx', fun d hd => ?_, fun d hd => ?_⟩
  swap
  · rw [parentTid_setThread hx'.parent, parentTid_setThread hy.parent] at hd
    rcases eq_or_ne d t with rfl | hdt
    · rw [setThread_self]
      exact hown (h.own d hd)
    · have hdc : d ≠ c := by
        rintro rfl
        exact hct (hd.symm.trans hpc)
      rw [setThread_of_ne hdt, setThread_of_ne hdc]
      exact h.own d hd
  rw [parentTid_setThread hx'.parent, parentTid_setThread hy.parent] at hd ⊢
  have hold := h.agree d hd
  rcases eq_or_ne d c with rfl | hdc
  · rw [hpc, setThread_self, setThread_of_ne hct, setThread_self]
    exact hagr
  · have henr : ∀ u, u ≠ t → u ≠ c → ((m.setThread c y).setThread t x).thread u = m.thread u := by
      intro u hut huc
      rw [setThread_of_ne hut, setThread_of_ne huc]
    -- the entry of `d` first, then the one of its parent
    have hnew : Agree d (m.thread (m.thread d).parentTid)
        (((m.setThread c y).setThread t x).thread d) := by
      rcases eq_or_ne d t with rfl | hdt
      · rw [setThread_self]
        exact hprn _ hold
      · rw [henr d hdt hdc]
        exact hold
    rcases eq_or_ne (m.thread d).parentTid t with hp | hp
    · rw [hp] at hnew
      rw [hp, setThread_self]
      exact hote d hdc _ hnew
    · rcases eq_or_ne (m.thread d).parentTid c with hp' | hp'
      · rw [hp'] at hnew
        rw [hp', setThread_of_ne hct, setThread_self]
        exact hchl d _ hnew
      · rw [henr _ hp hp']
        exact hnew

section
variable (h : m.Inv) (hx : m.Moves t x) (hwaiting : x.parentWaiting = (m.thread t).parentWaiting)
  (hpc : (m.thread t).pc.before = true ∧ x.pc.before = true ∨ (m.thread t).pc.passed = true ∧ x.pc.passed = true)
include h hx hwaiting hpc

/-- A thread that does not pass its test, and that may wait for `c` only. -/
theorem Inv.setThread_wait (hidle : ∀ d, d ≠ c → (m.thread t).IdleFor d ∧ x.IdleFor d)
    (hc : Agree c (m.thread t) (m.thread c) → Agree c x (m.thread c)) : (m.setThread t x).Inv := by
  refine h.setThread hx (fun hp => ?_) (fun d hd hp => ?_) fun hown => ?_
  · rcases hpc with ⟨hpc, hpc'⟩ | ⟨hpc, hpc'⟩
    · exact (h.agree t hp).before hpc hpc' hwaiting
    · exact (h.agree t hp).passed hpc hpc'
  · rcases eq_or_ne d c with rfl | hdc
    · exact hc (h.agree_child hd hp)
    · exact (h.agree_child hd hp).idle (hidle d hdc).1 (hidle d hdc).2
  · refine ⟨hwaiting.trans hown.1, fun hu => ?_⟩
    rw [hu] at hpc
    simp [before, passed] at hpc

theorem Inv.setThread_idle
    (hidle : ∀ d, (m.thread t).IdleFor d ∧ x.IdleFor d) : (m.setThread t x).Inv := by
  refine h.setThread_wait (c := t) hx hwaiting hpc (fun d _ => hidle d) ?_
  exact fun hagr => hagr.idle (hidle t).1 (hidle t).2

end

theorem Inv.setThread_congr (h : m.Inv) (hx : m.Moves t x) (hpc : x.pc = (m.thread t).pc)
    (hsts : x.status = (m.thread t).status)
    (hwaiting : x.parentWaiting = (m.thread t).parentWaiting) : (m.setThread t x).Inv := by
  refine h.setThread hx (fun hp => (h.agree t hp).congr rfl rfl hpc hwaiting) (fun c hc hp => ?_)
    fun hown => ⟨hwaiting.trans hown.1, hpc ▸ hown.2⟩
  exact (h.agree_child hc hp).congr hpc hsts rfl rfl

/-! ### A new thread -/

section create
variable {u : ℕ}

theorem threadCreate_new : (m.threadCreate t).thread m.nextTid = newThread t :=
  update_self ..

theorem threadCreate_of_ne (hu : u ≠ m.nextTid) (hut : u ≠ t) :
    (m.threadCreate t).thread u = m.thread u :=
  (update_of_ne hu ..).trans (setThread_of_ne hut)

theorem threadCreate_keeps (hu : u ≠ m.nextTid) :
    ((m.threadCreate t).thread u).pc = (m.thread u).pc ∧
    ((m.threadCreate t).thread u).status = (m.thread u).status ∧
    ((m.threadCreate t).thread u).parentTid = (m.thread u).parentTid ∧
    ((m.threadCreate t).thread u).parentWaiting = (m.thread u).parentWaiting := by
  rcases eq_or_ne u t with rfl | hut
  · rw [show (m.threadCreate u).thread u = _ from (update_of_ne hu ..).trans setThread_self]
    exact ⟨rfl, rfl, rfl, rfl⟩
  · rw [threadCreate_of_ne hu hut]
    exact ⟨rfl, rfl, rfl, rfl⟩

theorem IsChild.threadCreate (h : m.IsChild a c) : (m.threadCreate t).IsChild a c := by
  obtain ⟨hp, hne, hlt⟩ := h
  exact ⟨(threadCreate_keeps hlt.ne).2.2.1.trans hp, hne, Nat.lt_succ_of_lt hlt⟩

theorem Table.threadCreate (h : m.Table) (ht : t < m.nextTid) : (m.threadCreate t).Table := by
  refine ⟨⟨fun u => ?_, fun u hu => ?_, fun u c hc => ?_, fun u c hc => ?_⟩, fun u => ?_, ?_⟩
  · rcases eq_or_ne u m.nextTid with rfl | hu
    · rw [threadCreate_new]
      exact Nat.lt_succ_of_lt ht
    · rw [(threadCreate_keeps hu).2.2.1]
      exact Nat.lt_succ_of_lt (h.parent u)
  · have hu' : m.nextTid + 1 ≤ u := hu
    rw [(threadCreate_keeps (by omega)).1]
    exact h.unborn u (by omega)
  · rcases eq_or_ne u m.nextTid with rfl | hu
    · rw [threadCreate_new] at hc
      cases hc
    · rcases eq_or_ne u t with rfl | hut
      · rw [show (m.threadCreate u).thread u = _ from (update_of_ne ht.ne ..).trans setThread_self,
          map_append, mem_append] at hc
        rcases hc with hc | hc
        · exact (h.child u c hc).threadCreate
        · rw [map_singleton, mem_singleton] at hc
          subst hc
          exact ⟨by rw [threadCreate_new]; rfl, ht.ne', Nat.lt_add_one _⟩
      · rw [threadCreate_of_ne hu hut] at hc
        exact (h.child u c hc).threadCreate
  · rcases eq_or_ne u m.nextTid with rfl | hu
    · rw [threadCreate_new] at hc
      cases hc
    · rw [(threadCreate_keeps hu).1] at hc
      exact (h.waits u c hc).threadCreate
  · show u ∈ m.allList ++ [m.nextTid] ↔ _
    rcases eq_or_ne u m.nextTid with rfl | hu
    · simp [threadCreate_new, newThread, ProcessPc.listed, ProcessPc.before]
    · rw [(threadCreate_keeps hu).1, ← h.listed u]
      simp [hu]
  · show (m.allList ++ [m.nextTid]).Nodup
    refine nodup_append.mpr ⟨h.nodup, nodup_singleton _, ?_⟩
    rintro u hu v hv rfl
    rw [mem_singleton.mp hv, h.listed, h.unborn _ le_rfl] at hu
    cases hu

theorem agree_newThread (hx : x.IdleFor c) : Agree c x (newThread t) where
  looked hpc := (hx.1 hpc).elim
  flagged hpc := (hx.2.1 hpc).elim
  blocked hpc := (hx.2.2 hpc).elim
  waiting := nofun
  unblocking := nofun

theorem Inv.threadCreate (h : m.Inv) (hpc : (m.thread t).pc = .user) : (m.threadCreate t).Inv := by
  have ht : t < m.nextTid := h.lt_nextTid (by simp [hpc])
  refine ⟨h.toTable.threadCreate ht, fun c hc => ?_, fun c hc => ?_⟩
  swap
  · rcases eq_or_ne c m.nextTid with rfl | hcn
    · rw [threadCreate_new] at hc
      exact (ht.ne hc).elim
    · obtain ⟨hpc', -, hp', hw'⟩ := threadCreate_keeps hcn
      obtain ⟨hw, hu⟩ := h.own c (hp'.symm.trans hc)
      exact ⟨hw'.trans hw, hpc' ▸ hu⟩
  rcases eq_or_ne c m.nextTid with rfl | hcn
  · rw [threadCreate_new]
    refine agree_newThread (idleFor_of_waitsFor ?_)
    rw [newThread, (threadCreate_keeps ht.ne).1, hpc]
    exact nofun
  · obtain ⟨hpc', -, hp', hw'⟩ := threadCreate_keeps hcn
    rw [hp'] at hc ⊢
    obtain ⟨hpc'', hst'', -⟩ := threadCreate_keeps (h.parent c).ne
    exact (h.agree c hc).congr hpc'' hst'' hpc' hw'

end create

/-! ### The steps of the protocol -/

theorem find_of_threadGetFromTid (h : m.threadGetFromTid c = some p) : p = c ∧ c ∈ m.allList := by
  have hp : p = c := by simpa using find?_some h
  exact ⟨hp, hp ▸ mem_of_find?_eq_some h⟩

theorem threadGetFromTid_of_mem (h : c ∈ m.allList) : m.threadGetFromTid c = some c := by
  cases hf : m.threadGetFromTid c with
  | none => exact (find?_eq_none.mp hf c h (decide_eq_true rfl)).elim
  | some p => rw [(find_of_threadGetFromTid hf).1]

theorem mem_of_threadGetChildElem (h : threadGetChildElem l c = some e) : c ∈ l.map Child.tid := by
  have he : e.tid = c := by simpa using find?_some h
  exact mem_map.mpr ⟨e, mem_of_find?_eq_some h, he⟩

section
variable (h : m.Inv)
include h

section
variable (hpc : (m.thread t).pc = .user)
include hpc

theorem Inv.setThread_looked (hchl : m.IsChild t c)
    (hbfr : (m.thread c).pc.before = true) :
    (m.setThread t { m.thread t with pc := .looked c }).Inv := by
  have hidle d : (m.thread t).IdleFor d := idleFor_of_waitsFor (by rw [hpc]; exact nofun)
  refine h.setThread_wait (c := c) ⟨by simp [hpc], rfl, by rw [hpc]; rfl, List.Subset.refl _, ?_⟩
    rfl (.inl ⟨by rw [hpc]; rfl, rfl⟩) (fun d hd => ⟨hidle d, ?_⟩) fun hagr => ?_
  · rintro d ⟨⟩
    exact hchl
  · exact idleFor_of_waitsFor fun hd' => hd (some.inj hd').symm
  · have hpsd (hw : (m.thread c).parentWaiting = true) : (m.thread c).pc.passed = true :=
      (hagr.waiting hw).resolve_right fun h' => h'.elim (hidle c).2.1 (hidle c).2.2
    refine ⟨fun _ => ⟨hbfr, Bool.eq_false_iff.mpr fun hw => ?_⟩, nofun, nofun,
      fun hw => .inl (hpsd hw), fun hu => ((hidle c).2.2 (hagr.unblocking hu)).elim⟩
    simp [(not_before_of_passed (hpsd hw)).1] at hbfr

theorem Inv.processWait
    (hapr : c ∈ (m.thread t).children.map Child.tid → (m.thread c).pc ≠ .leaving) :
    (m.processWait t c).Inv := by
  have hborn : (m.thread t).pc ≠ .unborn := by simp [hpc]
  have hmvs x (hx : x.pc = (m.thread t).pc) (hp : x.parentTid = (m.thread t).parentTid)
      (hc : x.children.map Child.tid = (m.thread t).children.map Child.tid) : m.Moves t x :=
    ⟨hborn, hp, by rw [hx], hc ▸ List.Subset.refl _, fun d hd => h.waits t d (hx ▸ hd)⟩
  cases he : threadGetChildElem (m.thread t).children c with
  | none =>
    simp only [Processes.processWait, he]
    exact h.setThread_congr (hmvs _ rfl rfl rfl) rfl rfl rfl
  | some e =>
    cases hp : m.threadGetFromTid c with
    | none =>
      simp only [Processes.processWait, he, hp]
      exact h.setThread_congr (hmvs _ rfl rfl (map_tid_setExitCode ..)) rfl rfl rfl
    | some p =>
      simp only [Processes.processWait, he, hp]
      have hmem := mem_of_threadGetChildElem he
      obtain ⟨hpt, hct, hlt⟩ := h.child t c hmem
      have hunb : (m.thread c).pc ≠ .unblocking := by
        intro hu
        cases hpc.symm.trans ((h.agree_child hct hpt).unblocking hu).1
      have hbfr : (m.thread c).pc.before = true := by
        have hlst := (h.listed c).mp (find_of_threadGetFromTid hp).2
        simpa [listed, hapr hmem, hunb] using hlst
      exact h.setThread_looked hpc ⟨hpt, hct, hlt⟩ hbfr

theorem Inv.setThread_exiting :
    (m.setThread t { m.thread t with pc := .exiting }).Inv := by
  exact h.setThread_idle ⟨by simp [hpc], rfl, by rw [hpc]; rfl, List.Subset.refl _, nofun⟩ rfl
    (.inl ⟨by rw [hpc]; rfl, rfl⟩)
    fun d => ⟨idleFor_of_waitsFor (by rw [hpc]; exact nofun), idleFor_of_waitsFor nofun⟩

theorem Inv.exit (hs : m.exit t status = some m') : m'.Inv := by
  unfold Processes.exit at hs
  split at hs
  · cases hs
    exact h.setThread_exiting hpc
  · next p hp =>
      split at hs
      · cases hs
      · next e he =>
          cases hs
          have hborn : (m.thread p).pc ≠ .unborn := by
            intro hu
            have hlst := (h.listed p).mp ((find_of_threadGetFromTid hp).1 ▸
              (find_of_threadGetFromTid hp).2)
            rw [hu] at hlst
            cases hlst
          have hrcr := h.setThread_congr (t := p)
            (x := { m.thread p with children := setExitCode (m.thread p).children t status })
            ⟨hborn, rfl, rfl, by rw [map_tid_setExitCode]; exact List.Subset.refl _,
              fun d hd => h.waits p d hd⟩ rfl rfl rfl
          refine hrcr.setThread_exiting ?_
          rcases eq_or_ne t p with rfl | htp
          · rwa [setThread_self]
          · rwa [setThread_of_ne htp]

end

theorem Inv.setStatus (hpc : (m.thread t).pc.mayBlock = true) (st : ThreadStatus) :
    (m.setThread t { m.thread t with status := st }).Inv := by
  have hpc' : (m.thread t).pc = .user ∨ (m.thread t).pc = .exiting ∨
      (m.thread t).pc = .cleaning := by
    cases hu : (m.thread t).pc <;> simp [hu, mayBlock] at hpc ⊢
  have hwts d : (m.thread t).pc.waitsFor ≠ some d := by
    rcases hpc' with hu | hu | hu <;> simp [hu, waitsFor]
  have hborn : (m.thread t).pc ≠ .unborn := by
    rcases hpc' with hu | hu | hu <;> simp [hu]
  refine h.setThread_idle ⟨hborn, rfl, rfl, List.Subset.refl _, fun c hc => h.waits t c hc⟩ rfl ?_
    fun d => ⟨idleFor_of_waitsFor (hwts d), idleFor_of_waitsFor (hwts d)⟩
  rcases hpc' with hu | hu | hu <;> simp [hu, before, passed]

theorem Inv.free (hpc : (m.thread t).pc = .dead) :
    (m.setThread t { m.thread t with pc := .freed }).Inv :=
  h.setThread_idle ⟨by simp [hpc], rfl, by rw [hpc]; rfl, List.Subset.refl _, nofun⟩ rfl
    (.inr ⟨by rw [hpc]; rfl, rfl⟩)
    fun d => ⟨idleFor_of_waitsFor (by rw [hpc]; exact nofun), idleFor_of_waitsFor nofun⟩

theorem Inv.flag (hpc : (m.thread t).pc = .looked c) :
    ((m.setThread c { m.thread c with parentWaiting := true }).setThread t
      { m.thread t with pc := .flagged c }).Inv := by
  obtain ⟨hp, hct, hlt⟩ := h.waits t c (by rw [hpc]; rfl)
  obtain ⟨hbfr, -⟩ := (h.agree_child hct hp).looked hpc
  have hborn : (m.thread c).pc ≠ .unborn := by
    intro hu
    rw [hu] at hbfr
    cases hbfr
  refine h.setPair hp hct ⟨by simp [hpc], rfl, by rw [hpc]; rfl, List.Subset.refl _, ?_⟩
    ⟨hborn, rfl, rfl, List.Subset.refl _, fun d hd => h.waits c d hd⟩ ?_ ?_ ?_ ?_
    fun hown => ⟨hown.1, nofun⟩
  · rintro d ⟨⟩
    exact ⟨hp, hct, hlt⟩
  · refine ⟨nofun, fun _ => ⟨hbfr, rfl⟩, nofun, fun _ => .inr (.inl rfl), fun hu => ?_⟩
    rw [show (m.thread c).pc = .unblocking from hu] at hbfr
    cases hbfr
  · exact fun z hz => hz.before (by rw [hpc]; rfl) rfl rfl
  · refine fun d hd z hz => hz.idle (idleFor_of_waitsFor ?_) (idleFor_of_waitsFor ?_)
    · rw [hpc]
      exact fun hd' => hd (some.inj hd').symm
    · exact fun hd' => hd (some.inj hd').symm
  · exact fun d z hz => hz.congr rfl rfl rfl rfl

theorem Inv.block (hpc : (m.thread t).pc = .flagged c) :
    (m.setThread t { m.thread t with pc := .waiting c, status := .blocked }).Inv := by
  refine h.setThread_wait (c := c) ⟨by simp [hpc], rfl, by rw [hpc]; rfl, List.Subset.refl _, ?_⟩
    rfl (.inl ⟨by rw [hpc]; rfl, rfl⟩) (fun d hd => ⟨?_, ?_⟩) fun hagr => ?_
  · rintro d ⟨⟩
    exact h.waits t c (by rw [hpc]; rfl)
  · refine idleFor_of_waitsFor ?_
    rw [hpc]
    exact fun hd' => hd (some.inj hd').symm
  · exact idleFor_of_waitsFor fun hd' => hd (some.inj hd').symm
  · obtain ⟨hbfr, hw⟩ := hagr.flagged hpc
    exact ⟨nofun, nofun, fun _ => ⟨.inl hbfr, hw⟩, fun _ => .inr (.inr ⟨rfl, rfl⟩),
      fun _ => ⟨rfl, rfl⟩⟩

theorem Inv.wait_return (hpc : (m.thread t).pc = .waiting c)
    (hsts : (m.thread t).status = .ready) (r : Option ℤ) :
    (m.setThread t { m.thread t with
      pc := .user, children := setExitCode (m.thread t).children c (-1), returned := r }).Inv := by
  refine h.setThread_idle ⟨by simp [hpc], rfl, by rw [hpc]; rfl, ?_, nofun⟩ rfl
    (.inl ⟨by rw [hpc]; rfl, rfl⟩) fun d => ⟨?_, idleFor_of_waitsFor nofun⟩
  · rw [map_tid_setExitCode]
    exact List.Subset.refl _
  · refine ⟨by simp [hpc], by simp [hpc], fun hb => ?_⟩
    have := hb.2
    simp [hsts] at this

/-- The child makes its test while the parent is not on its way into `thread_block`. -/
theorem Inv.test (hpc : (m.thread t).pc = .exiting)
    (hapr : (m.thread (m.thread t).parentTid).pc ≠ .looked t ∧
      (m.thread (m.thread t).parentTid).pc ≠ .flagged t) :
    (m.setThread t { m.thread t with
      pc := if (m.thread t).parentWaiting then .unblocking else .leaving }).Inv := by
  have hidle d : (m.thread t).IdleFor d := idleFor_of_waitsFor (by rw [hpc]; exact nofun)
  cases hw : (m.thread t).parentWaiting with
  | true =>
    refine h.setThread ⟨by simp [hpc], rfl, by rw [hpc]; rfl, List.Subset.refl _, nofun⟩
      (fun hp => ?_) (fun d hd hp => ?_) fun hown => by cases hown.1.symm.trans hw
    · have hagr := h.agree t hp
      have hblc : (m.thread (m.thread t).parentTid).BlockedFor t := by
        rcases hagr.waiting hw with hpsd | hf | hb
        · rw [hpc] at hpsd
          cases hpsd
        · exact (hapr.2 hf).elim
        · exact hb
      exact ⟨fun h' => (hapr.1 h').elim, fun h' => (hapr.2 h').elim,
        fun _ => ⟨.inr rfl, hw⟩, fun _ => .inr (.inr hblc), fun _ => hblc⟩
    · exact (h.agree_child hd hp).idle (hidle d) (idleFor_of_waitsFor nofun)
  | false =>
    refine h.setThread ⟨by simp [hpc], rfl, by rw [hpc]; rfl, List.Subset.refl _, nofun⟩
      (fun hp => ?_) (fun d hd hp => ?_) fun _ => ⟨hw, nofun⟩
    · have hagr := h.agree t hp
      refine ⟨fun h' => (hapr.1 h').elim, fun h' => (hapr.2 h').elim, fun hb => ?_,
        fun _ => .inl rfl, nofun⟩
      simp [(hagr.blocked hb).2] at hw
    · exact (h.agree_child hd hp).idle (hidle d) (idleFor_of_waitsFor nofun)

/-- The child wakes its parent. -/
theorem Inv.unblock (hpc : (m.thread c).pc = .unblocking)
    (hpt : (m.thread c).parentTid = t) (hct : c ≠ t) (hborn : (m.thread t).pc ≠ .unborn) :
    ((m.setThread c { m.thread c with pc := .leaving }).setThread t
      { m.thread t with status := .ready }).Inv := by
  have hblc := (h.agree_child hct hpt).unblocking hpc
  refine h.setPair hpt hct ⟨hborn, rfl, rfl, List.Subset.refl _, fun d hd => h.waits t d hd⟩
    ⟨by simp [hpc], rfl, by rw [hpc]; rfl, List.Subset.refl _, nofun⟩ ?_ ?_ ?_ ?_ id
  · refine ⟨fun h' => ?_, fun h' => ?_, nofun, fun _ => .inl rfl, nofun⟩
    · cases hblc.1.symm.trans h'
    · cases hblc.1.symm.trans h'
  · exact fun z hz => hz.congr rfl rfl rfl rfl
  · have hwts d (hd : d ≠ c) : (m.thread t).pc.waitsFor ≠ some d := by
      rw [hblc.1]
      exact fun hd' => hd (some.inj hd').symm
    exact fun d hd z hz => hz.idle (idleFor_of_waitsFor (hwts d hd))
      (idleFor_of_waitsFor (hwts d hd))
  · refine fun d z hz => hz.idle (idleFor_of_waitsFor ?_) (idleFor_of_waitsFor nofun)
    rw [hpc]
    exact nofun

theorem Inv.leave (hpc : (m.thread t).pc = .leaving) :
    Inv { m.setThread t { m.thread t with pc := .cleaning } with
      allList := m.allList.erase t } := by
  have hnms := h.toNames.setThread (t := t) (x := { m.thread t with pc := .cleaning })
    (by simp [hpc]) rfl (List.Subset.refl _) nofun
  refine ⟨⟨{ hnms with }, fun u => ?_,
    h.nodup.erase t⟩, fun c hc => h.agree_setThread rfl (fun hp => ?_) (fun d hd hp => ?_) hc,
    fun c hc => h.own_setThread rfl (fun hown => ⟨hown.1, nofun⟩) hc⟩
  · rw [h.nodup.mem_erase_iff, h.listed]
    rcases eq_or_ne u t with rfl | hu
    · simp [listed, before]
    · rw [setThread_of_ne hu]
      simp [hu]
  · exact (h.agree t hp).passed (by rw [hpc]; rfl) rfl
  · refine (h.agree_child hd hp).idle (idleFor_of_waitsFor ?_) (idleFor_of_waitsFor nofun)
    rw [hpc]
    exact nofun

theorem Inv.die (hpc : (m.thread t).pc = .cleaning) :
    (m.setThread t { m.thread t with pc := .dead, status := .dying, children := [] }).Inv :=
  h.setThread_idle ⟨by simp [hpc], rfl, by rw [hpc]; rfl, nil_subset _, nofun⟩ rfl
    (.inr ⟨by rw [hpc]; rfl, rfl⟩)
    fun d => ⟨idleFor_of_waitsFor (by rw [hpc]; exact nofun), idleFor_of_waitsFor nofun⟩

end

/-! ### Runs -/

theorem setThread_comm (hab : a ≠ b) :
    (m.setThread a x).setThread b y = (m.setThread b y).setThread a x := by
  rw [setThread, setThread, setThread, setThread, update_comm hab]

theorem Inv.runThread (h : m.Inv) (hsts : (m.thread t).status = .ready)
    (hapr : apart m (.run t)) (hs : m.runThread t = some m') : m'.Inv := by
  cases hpc : (m.thread t).pc with
  | unborn | user | dead | freed => simp [Processes.runThread, hpc] at hs
  | looked c =>
    simp only [Processes.runThread, hpc, ite_none_left_eq_some, some.injEq] at hs
    obtain ⟨-, rfl⟩ := hs
    rw [setThread_of_ne (h.waits t c (by rw [hpc]; rfl)).2.1.symm]
    exact h.flag hpc
  | flagged c =>
    simp only [Processes.runThread, hpc, some.injEq] at hs
    subst hs
    exact h.block hpc
  | waiting c =>
    simp only [Processes.runThread, hpc, map_eq_some_iff] at hs
    obtain ⟨e, -, rfl⟩ := hs
    exact h.wait_return hpc hsts _
  | exiting =>
    simp only [Processes.runThread, hpc, some.injEq] at hs
    subst hs
    exact h.test hpc (hapr hpc)
  | unblocking =>
    simp only [Processes.runThread, hpc, bind_eq_bind, bind_eq_some_iff,
      some.injEq, threadUnblock, ite_none_right_eq_some] at hs
    obtain ⟨p, hp, _, ⟨hblc, rfl⟩, rfl⟩ := hs
    obtain ⟨rfl, hlst⟩ := find_of_threadGetFromTid hp
    have htp : t ≠ (m.thread t).parentTid := by
      intro htp
      simp [← htp, hsts] at hblc
    rw [setThread_of_ne htp, setThread_comm htp.symm]
    refine h.unblock hpc rfl htp fun hu => ?_
    have := (h.listed _).mp hlst
    rw [hu] at this
    cases this
  | leaving =>
    simp only [Processes.runThread, hpc, some.injEq] at hs
    subst hs
    exact h.leave hpc
  | cleaning =>
    simp only [Processes.runThread, hpc, some.injEq] at hs
    subst hs
    exact h.die hpc

theorem Inv.step (h : m.Inv) {a : ProcessAction} (hapr : apart m a) (hs : m.step a = some m') :
    m'.Inv := by
  cases a with
  | create t =>
    simp only [Processes.step, ite_none_right_eq_some, some.injEq] at hs
    obtain ⟨⟨hpc, -⟩, rfl⟩ := hs
    exact h.threadCreate hpc
  | wait t c =>
    simp only [Processes.step, ite_none_right_eq_some, some.injEq] at hs
    obtain ⟨⟨hpc, -⟩, rfl⟩ := hs
    exact h.processWait hpc hapr
  | exit t status =>
    simp only [Processes.step, ite_none_right_eq_some] at hs
    exact h.exit hs.1.1 hs.2
  | threadExit t =>
    simp only [Processes.step, ite_none_right_eq_some, some.injEq] at hs
    obtain ⟨⟨hpc, -⟩, rfl⟩ := hs
    exact h.setThread_exiting hpc
  | sleep | wake =>
    simp only [Processes.step, ite_none_right_eq_some, some.injEq] at hs
    obtain ⟨⟨hpc, -⟩, rfl⟩ := hs
    exact h.setStatus hpc _
  | run t =>
    simp only [Processes.step, ite_none_right_eq_some] at hs
    exact h.runThread hs.1 hapr hs.2
  | free t =>
    obtain ⟨hpc, ⟨⟩⟩ := ite_none_right_eq_some.mp hs
    exact h.free hpc

theorem boot_thread (t : ℕ) : (boot.thread t).pc = (if t = 1 then .user else .unborn) ∧
    (boot.thread t).parentTid < 2 ∧ (boot.thread t).parentWaiting = false ∧
      (boot.thread t).children = [] := by
  rcases eq_or_ne t 1 with rfl | ht
  · exact ⟨rfl, Nat.one_lt_two, rfl, rfl⟩
  · simp [boot, ht]

theorem inv_boot : boot.Inv := by
  have hpc t : (boot.thread t).pc = .user ∨ (boot.thread t).pc = .unborn := by
    rw [(boot_thread t).1]
    exact (ite_eq_or_eq ..)
  have hwts (t c : ℕ) : (boot.thread t).pc.waitsFor ≠ some c := by
    rcases hpc t with h | h <;> rw [h] <;> exact nofun
  have hunb t : (boot.thread t).pc ≠ .unblocking := by
    rcases hpc t with h | h <;> rw [h] <;> exact nofun
  have hwaiting t : (boot.thread t).parentWaiting ≠ true := by
    simp [(boot_thread t).2.2.1]
  refine ⟨⟨⟨fun t => (boot_thread t).2.1, fun t ht => ?_, fun t c hc => ?_, fun t c hc => ?_⟩,
    fun t => ?_, nodup_singleton 1⟩, fun c _ => ?_, fun c _ => ?_⟩
  · have ht' : 2 ≤ t := ht
    rw [(boot_thread t).1, if_neg (by omega)]
  · simp [(boot_thread t).2.2.2] at hc
  · exact (hwts t c hc).elim
  · rcases eq_or_ne t 1 with rfl | ht
    · decide
    · simp [boot, ht, listed, before]
  · have hidle := idleFor_of_waitsFor (hwts (boot.thread c).parentTid c)
    exact ⟨fun h => (hidle.1 h).elim, fun h => (hidle.2.1 h).elim, fun h => (hidle.2.2 h).elim,
      fun h => (hwaiting c h).elim, fun h => (hunb c h).elim⟩
  · exact ⟨(boot_thread c).2.2.1, hunb c⟩

theorem Inv.blocked (h : m.Inv) {p : ℕ} (hb : (m.thread p).BlockedFor c) :
    (m.thread c).parentTid = p ∧ c ≠ p ∧ c ∈ m.allList ∧ (m.thread c).parentWaiting = true ∧
      (m.thread c).pc.passed = false := by
  obtain ⟨hp, hcp, -⟩ := h.waits p c (by rw [hb.1]; rfl)
  obtain ⟨hpc, hw⟩ := (h.agree_child hcp hp).blocked hb
  refine ⟨hp, hcp, (h.listed c).mpr ?_, hw, Bool.eq_false_iff.mpr fun hpsd => ?_⟩
  · rcases hpc with hpc | hpc <;> simp [listed, hpc]
  · obtain ⟨hbfr, hunb⟩ := not_before_of_passed hpsd
    exact hpc.elim (by simp [hbfr]) hunb

theorem Inv.unblocking (h : m.Inv) (hpc : (m.thread c).pc = .unblocking) :
    (m.thread (m.thread c).parentTid).BlockedFor c ∧ (m.thread c).parentTid ∈ m.allList := by
  have hp : (m.thread c).parentTid ≠ c := fun hp => (h.own c hp).2 hpc
  have hb := (h.agree c hp).unblocking hpc
  refine ⟨hb, (h.listed _).mpr ?_⟩
  rw [hb.1]
  rfl

theorem runThread_unblocking (hpc : (m.thread t).pc = .unblocking)
    (hp : (m.thread t).parentTid ∈ m.allList)
    (hblc : (m.thread (m.thread t).parentTid).status = .blocked)
    (hne : (m.thread t).parentTid ≠ t) :
    ∃ m', m.runThread t = some m' ∧ (m'.thread (m.thread t).parentTid).status = .ready := by
  simp only [runThread, hpc, threadGetFromTid_of_mem hp, bind_eq_bind,
    bind_some, threadUnblock, hblc]
  refine ⟨_, rfl, ?_⟩
  rw [setThread_of_ne hne, setThread_self]

/-- The two steps in which a child that exits wakes its parent. -/
theorem Inv.wakes (h : m.Inv) (hb : (m.thread p).BlockedFor c)
    (hpc : (m.thread c).pc = .exiting) (hsts : (m.thread c).status = .ready) :
    ∃ m1 m2, m.step (.run c) = some m1 ∧ m1.step (.run c) = some m2 ∧
      (m2.thread p).status = .ready := by
  obtain ⟨rfl, hcp, -, hw, -⟩ := h.blocked hb
  have hp : (m.thread c).parentTid ∈ m.allList := by
    refine (h.listed _).mpr ?_
    rw [hb.1]
    rfl
  have h1 : m.step (.run c) = some (m.setThread c { m.thread c with pc := .unblocking }) := by
    simp [Processes.step, Processes.runThread, hsts, hpc, hw]
  have hprn : (m.setThread c { m.thread c with pc := .unblocking }).thread
      (m.thread c).parentTid = m.thread (m.thread c).parentTid := setThread_of_ne hcp.symm
  obtain ⟨m2, h2, hrdy⟩ := runThread_unblocking
    (m := m.setThread c { m.thread c with pc := .unblocking }) (by rw [setThread_self])
    (by rw [setThread_self]; exact hp) (by rw [setThread_self, hprn, hb.2])
    (by rw [setThread_self]; exact hcp.symm)
  rw [setThread_self] at hrdy
  exact ⟨_, m2, h1, by rw [Processes.step, setThread_self, if_pos hsts, h2], hrdy⟩

/-- In a run in which no child makes its test while the parent is on its way into `thread_block`,
and no parent finds a child that has made it, a parent that is blocked in `process_wait` will be
woken: its child is on `all_list` with `parent_waiting` set and has not gone past the test without
waking it.  And `thread_unblock` is called for a parent that is blocked. -/
theorem wait_exit {m : Processes} (hr : Reaches step apart boot m) :
    (∀ p c, (m.thread p).BlockedFor c → c ∈ m.allList ∧ (m.thread c).parentWaiting = true ∧
      (m.thread c).pc.passed = false) ∧
    (∀ c, (m.thread c).pc = .unblocking →
      (m.thread (m.thread c).parentTid).BlockedFor c ∧ (m.thread c).parentTid ∈ m.allList) ∧
    ∀ p c, (m.thread p).BlockedFor c → (m.thread c).pc = .exiting →
      (m.thread c).status = .ready → ∃ m₁ m₂, m.step (.run c) = some m₁ ∧
        m₁.step (.run c) = some m₂ ∧ (m₂.thread p).status = .ready := by
  have h : m.Inv := hr.invariant inv_boot fun _ _ _ hi hok hs => hi.step hok hs
  refine ⟨fun p c hb => ?_, fun c hpc => h.unblocking hpc, fun p c hb => h.wakes hb⟩
  obtain ⟨-, -, hlst, hw, hpsd⟩ := h.blocked hb
  exact ⟨hlst, hw, hpsd⟩

/-- The initial thread waits for a child, which exits and has found that it has to wake it. -/
theorem wait_exit_child : ∃ m : Processes, Reaches step apart boot m ∧
    (m.thread 1).BlockedFor 2 ∧ (m.thread 2).pc = .unblocking ∧ 2 ∈ m.allList ∧
      (m.thread 2).parentWaiting = true ∧ (m.thread (m.thread 2).parentTid).BlockedFor 2 := by
  have hrun : (exec step apart boot [.create 1, .wait 1 2, .run 1, .run 1, .exit 2 7, .run 2]).map
      (fun m => ((m.thread 1).pc, (m.thread 1).status, (m.thread 2).pc)) =
      some (.waiting 2, .blocked, .unblocking) := by decide
  obtain ⟨m, hm, hpc⟩ := map_eq_some_iff.mp hrun
  simp only [Prod.mk.injEq] at hpc
  obtain ⟨h1, h2, h3⟩ := hpc
  have hr := reaches_of_exec hm
  obtain ⟨hblc, hunb, -⟩ := wait_exit hr
  obtain ⟨hlst, hw, -⟩ := hblc 1 2 ⟨h1, h2⟩
  exact ⟨m, hr, ⟨h1, h2⟩, h3, hlst, hw, (hunb 2 h3).1⟩

/-- The child makes its test between the parent's search and the store to `parent_waiting`: the
parent blocks, and nobody will wake it.  The child makes it between the store and `thread_block`:
it calls `thread_unblock` for a thread that is ready, and the assertion fails. -/
theorem wait_exit_races :
    (∃ m, Reaches step (fun _ _ => True) boot m ∧ (m.thread 1).BlockedFor 2 ∧
      (m.thread 2).pc = .dead ∧ 2 ∉ m.allList) ∧
    ∃ m, Reaches step (fun _ _ => True) boot m ∧ (m.thread 2).pc = .unblocking ∧
      (m.thread 2).parentTid = 1 ∧ (m.thread 1).status = .ready ∧ m.step (.run 2) = none := by
  have hlost : (exec step (fun _ _ => True) boot [.create 1, .wait 1 2, .threadExit 2, .run 2,
      .run 1, .run 1, .run 2, .run 2]).map (fun m =>
        ((m.thread 1).pc, (m.thread 1).status, (m.thread 2).pc, m.allList)) =
      some (.waiting 2, .blocked, .dead, [1]) := by decide
  have hasr : (exec step (fun _ _ => True) boot [.create 1, .wait 1 2, .run 1, .threadExit 2,
      .run 2]).map (fun m => ((m.thread 2).pc, (m.thread 2).parentTid, (m.thread 1).status,
        (m.step (.run 2)).isNone)) = some (.unblocking, 1, .ready, true) := by decide
  obtain ⟨m, hm, hpc⟩ := map_eq_some_iff.mp hlost
  obtain ⟨m', hm', hpc'⟩ := map_eq_some_iff.mp hasr
  simp only [Prod.mk.injEq, isNone_iff_eq_none] at hpc hpc'
  obtain ⟨h1, h2, h3, h4⟩ := hpc
  refine ⟨⟨m, reaches_of_exec hm, ⟨h1, h2⟩, h3, ?_⟩, m', reaches_of_exec hm', hpc'⟩
  rw [h4]
  decide

end Processes

end Pintos
