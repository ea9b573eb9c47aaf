import Mathlib.Algebra.Group.Nat.Defs
import Mathlib.Data.Fintype.Card
import Pintos.Lib.KernelList

/-! # Threads, semaphores and locks

The scheduler of `threads/thread.c` and the primitives of `threads/synch.c` as a machine whose
step is the code one thread executes between two places where control can pass to another
thread.

* **Threads** (`T`) are the pages that can hold a `struct thread`.  `status t = none` is a page
  that holds none; `thread_create` takes any such page, so the page of a thread that has exited
  is used again.  `S` are the semaphores of the kernel that are not part of a lock, `K` its locks.
* **Lists** are explicit.  `links` are the `elem` fields of all threads with the headers of
  `ready_list` and of every waiters list; `lockLinks` are the `elem` fields of all locks with the
  headers of every thread's `locks` list.  A removed element keeps its fields.
* **Control** is explicit.  `resume t` is the place where `t` goes on when it is scheduled.  At
  `run`, inside `lock_try_acquire` and at the end of `thread_create` interrupts are on and the
  running thread can be preempted; at every other place they are off and the only step is
  `Op.cont`, the rest of the function the thread is in.
* A failed `ASSERT`, a null dereference and a traversal that never ends make the step `none`. -/

namespace Pintos
open Intrusive Function

/-- `enum thread_status`. -/
inductive ThreadStatus where
  | running
  | ready
  | blocked
  | dying
deriving DecidableEq, Repr

/-- A semaphore: one of its own, or the one inside a lock. -/
inductive Sema (S K : Type) where
  | sem (s : S)
  | lock (l : K)
deriving DecidableEq, Repr

/-- The lists that the `elem` of a thread can be on. -/
inductive Queue (S K : Type) where
  | ready
  | waiters (s : Sema S K)
deriving DecidableEq, Repr

/-- The caller of `lock_release`: code that returns to its own work, or the loop of
`thread_exit` with the element it visits next. -/
inductive Caller (T K : Type) where
  | code
  | exit (e : Node T K)
deriving DecidableEq, Repr

/-- Where a thread goes on when it is next scheduled. -/
inductive Resume (T S K : Type) where
  /-- In its own code, with interrupts on. -/
  | run
  /-- In `thread_create`, after `thread_unblock` has turned interrupts back on. -/
  | created (p : ℤ)
  /-- At the test of the loop of `sema_down`. -/
  | semaDown (s : S)
  /-- In `lock_acquire`, just put on the waiters list and about to call `sema_down`. -/
  | lockEnqueued (l : K)
  /-- At the test of the loop of the `sema_down` that `lock_acquire` has called. -/
  | lockAcquire (l : K)
  /-- In `lock_try_acquire`, after `sema_try_down` has turned interrupts back on. -/
  | tryDecided (l : K) (success : Bool)
  /-- In `lock_try_acquire`, after the assignment that the `if` guards. -/
  | tryLink (l : K)
  /-- In `lock_release`, after `sema_up`. -/
  | releaseUnlink (l : K) (c : Caller T K)
  /-- In `lock_release`, after the last chance to yield. -/
  | releaseReturn (l : K) (c : Caller T K)
  /-- At the test of the loop of `thread_exit` over its locks. -/
  | exiting (e : Node T K)
deriving DecidableEq, Repr

/-- The state of the thread system. -/
structure Kernel (T S K : Type) where
  /-- `thread_mlfqs`. -/
  mlfqs : Bool
  links : Links (Queue S K) T
  lockLinks : Links T K
  status : T → Option ThreadStatus
  priority : T → ℤ
  priorityOrg : T → ℤ
  blockedLock : T → Option K
  value : Sema S K → ℕ
  holder : K → Option T
  resume : T → Resume T S K
  /-- The thread on whose stack the processor runs. -/
  cur : T
  /-- `idle_thread`. -/
  idle : T
  /-- `initial_thread`. -/
  initial : T

def PRI_MIN : ℤ := 0
def PRI_DEFAULT : ℤ := 31
def PRI_MAX : ℤ := 63

/-- `DONATION_DEPTH`. -/
def donationDepth : ℕ := 8

variable {T S K : Type}

namespace Resume

/-- The semaphore whose `sema_down` the thread is in. -/
def waitsOn : Resume T S K → Option (Sema S K)
  | semaDown s => some (.sem s)
  | lockAcquire l => some (.lock l)
  | _ => none

/-- Interrupts are on there. -/
def intrOn : Resume T S K → Bool
  | run => true
  | created _ => true
  | tryDecided _ _ => true
  | tryLink _ => true
  | _ => false

end Resume

namespace Kernel

variable [Fintype T] [Fintype K] [DecidableEq T] [DecidableEq S] [DecidableEq K]

/-- The threads met when walking a queue. -/
def walk (k : Kernel T S K) (q : Queue S K) : Option (List T) :=
  k.links.walk (Fintype.card T + 1) q

/-- The locks met when walking the `locks` list of `t`. -/
def walkLocks (k : Kernel T S K) (t : T) : Option (List K) :=
  k.lockLinks.walk (Fintype.card K + 1) t

/-- Interrupts are on. -/
def intrOn (k : Kernel T S K) : Bool := (k.resume k.cur).intrOn

/-- The running thread will go on at `r`. -/
def resumeAt (k : Kernel T S K) (r : Resume T S K) : Kernel T S K :=
  { k with resume := update k.resume k.cur r }

/-- Change the status of `t`. -/
def setStatus (k : Kernel T S K) (t : T) (st : ThreadStatus) : Kernel T S K :=
  { k with status := update k.status t (some st) }

/-! ### The scheduler -/

/-- `thread_unblock`. -/
def threadUnblock (k : Kernel T S K) (t : T) : Option (Kernel T S K) :=
  if k.status t = some .blocked then
    (listPushBack k.links .ready t).map fun h => { k with links := h }.setStatus t .ready
  else none

/-- `next_thread_to_run`: the first of the threads of highest priority, taken off the ready
list, or the idle thread. -/
def nextThreadToRun (k : Kernel T S K) : Option (Kernel T S K × T) := do
  let xs ← k.walk .ready
  match listMax k.priority xs with
  | none => some (k, k.idle)
  | some m => (listRemove k.links (.elem m)).map fun h => ({ k with links := h }, m)

/-- The switch to `next`, with `thread_schedule_tail` in the new thread: the page of a dying
thread is given back, unless it is the initial thread's. -/
def switchTo (k : Kernel T S K) (next : T) : Kernel T S K :=
  let st := update k.status next (some .running)
  { k with
    cur := next
    status :=
      if k.status k.cur = some .dying ∧ k.cur ≠ next ∧ k.cur ≠ k.initial then
        update st k.cur none
      else st }

/-- `schedule`. -/
def schedule (k : Kernel T S K) : Option (Kernel T S K) :=
  if k.status k.cur = some .running then none
  else k.nextThreadToRun.bind fun (k', next) =>
    if (k'.status next).isSome then some (k'.switchTo next) else none

/-- `thread_yield`. -/
def threadYield (k : Kernel T S K) : Option (Kernel T S K) := do
  let h ← if k.cur = k.idle then some k.links else listPushBack k.links .ready k.cur
  ({ k with links := h }.setStatus k.cur .ready).schedule

/-- `thread_block`. -/
def threadBlock (k : Kernel T S K) : Option (Kernel T S K) :=
  (k.setStatus k.cur .blocked).schedule

/-- The test of `thread_defer_to_max_priority`. -/
def shouldDefer (k : Kernel T S K) : Option Bool :=
  (k.walk .ready).map fun xs =>
    match listMax k.priority xs with
    | none => false
    | some m => k.priority k.cur < k.priority m

/-- `thread_defer_to_max_priority` outside an interrupt handler; `next` is what the caller does
when the function returns without a switch. -/
def deferToMaxPriority (k : Kernel T S K) (r : Resume T S K)
    (next : Kernel T S K → Option (Kernel T S K)) : Option (Kernel T S K) :=
  k.shouldDefer.bind fun yields => if yields then (k.resumeAt r).threadYield else next k

/-- `recalculate_priority`; the counter is what is left of `DONATION_DEPTH`. -/
def recalculatePriority : ℕ → Kernel T S K → T → Option (Kernel T S K)
  | 0, k, t => if (k.status t).isSome then some k else none
  | n + 1, k, t =>
    if (k.status t).isSome then do
      let ls ← k.walkLocks t
      let ws ← ls.mapM fun l => k.walk (.waiters (.lock l))
      let max := (ws.flatten.map k.priority).foldl max (k.priorityOrg t)
      let k' := { k with priority := update k.priority t max }
      match (k'.blockedLock t).bind k'.holder with
      | some h => recalculatePriority n k' h
      | none => some k'
    else none

/-- `thread_set_priority` in priority mode, up to its last test. -/
def threadSetPriority (k : Kernel T S K) (p : ℤ) : Option (Kernel T S K) :=
  if PRI_MIN ≤ p ∧ p ≤ PRI_MAX then
    recalculatePriority donationDepth
      { k with priorityOrg := update k.priorityOrg k.cur p } k.cur
  else none

/-! ### Semaphores -/

/-- The part of `sema_up` before it may yield: wake the waiter of highest priority, count. -/
def semaWake (k : Kernel T S K) (s : Sema S K) : Option (Kernel T S K) := do
  let ws ← k.walk (.waiters s)
  let k' ← match listMax k.priority ws with
    | none => some k
    | some t => (listRemove k.links (.elem t)).bind fun h => { k with links := h }.threadUnblock t
  some { k' with value := update k'.value s ((k'.value s + 1) % 2 ^ 32) }

/-- The line of `sema_down` that takes the caller's `elem` off the list it seems to be on. -/
def semaDownUnlink (k : Kernel T S K) : Option (Links (Queue S K) T) :=
  if isInterior k.links (.elem k.cur) then listRemove k.links (.elem k.cur) else some k.links

/-- The body of the loop of `sema_down`. -/
def semaDownWait (k : Kernel T S K) (s : Sema S K) (r : Resume T S K) :
    Option (Kernel T S K) := do
  let h ← k.semaDownUnlink
  let h' ← listPushBack h (.waiters s) k.cur
  ({ k with links := h' }.resumeAt r).threadBlock

/-- `sema->value--`. -/
def countDown (k : Kernel T S K) (s : Sema S K) : Kernel T S K :=
  { k with value := update k.value s (k.value s - 1) }

/-! ### Locks -/

/-- The end of `lock_acquire`, once the semaphore has been counted down. -/
def lockTake (k : Kernel T S K) (l : K) : Option (Kernel T S K) :=
  let k' := { k with holder := update k.holder l (some k.cur) }
  if k.mlfqs then some (k'.resumeAt .run)
  else (listPushBack k.lockLinks k.cur l).map fun h =>
    { k' with lockLinks := h, blockedLock := update k.blockedLock k.cur none }.resumeAt .run

/-- `lock_acquire`, up to its call of `sema_down` if the lock is taken. -/
def lockAcquire (k : Kernel T S K) (l : K) : Option (Kernel T S K) :=
  if k.holder l = some k.cur then none
  else if k.mlfqs then some (k.resumeAt (.lockAcquire l))
  else if 0 < k.value (.lock l) then (k.countDown (.lock l)).lockTake l
  else do
    let h ← listPushBack k.links (.waiters (.lock l)) k.cur
    let k' := { k with links := h, blockedLock := update k.blockedLock k.cur (some l) }
    let t ← k.holder l
    (recalculatePriority donationDepth k' t).map (·.resumeAt (.lockEnqueued l))

/-- The end of `lock_release`; `thread_exit` then removes the element once more. -/
def releaseReturn (k : Kernel T S K) (l : K) : Caller T K → Option (Kernel T S K)
  | .code => some (k.resumeAt .run)
  | .exit e => (listRemove k.lockLinks (.elem l)).map fun h =>
    { k with lockLinks := h }.resumeAt (.exiting e)

/-- `lock_release` after `sema_up`. -/
def releaseUnlink (k : Kernel T S K) (l : K) (c : Caller T K) : Option (Kernel T S K) :=
  if k.mlfqs then k.deferToMaxPriority (.releaseReturn l c) (·.releaseReturn l c)
  else (listRemove k.lockLinks (.elem l)).bind fun h => do
    let k' ← { k with lockLinks := h }.threadSetPriority (k.priorityOrg k.cur)
    if k.priorityOrg k.cur < k.priority k.cur then
      k'.deferToMaxPriority (.releaseReturn l c) (·.releaseReturn l c)
    else k'.releaseReturn l c

/-- `lock_release`. -/
def lockRelease (k : Kernel T S K) (l : K) (c : Caller T K) : Option (Kernel T S K) :=
  if k.holder l = some k.cur then
    ({ k with holder := update k.holder l none }.semaWake (.lock l)).bind fun k' =>
      k'.deferToMaxPriority (.releaseUnlink l c) (·.releaseUnlink l c)
  else none

/-- The list push at the end of `lock_try_acquire`.  It is not under the `if`. -/
def tryLink (k : Kernel T S K) (l : K) : Option (Kernel T S K) :=
  (listPushBack k.lockLinks k.cur l).map fun h => { k with lockLinks := h }.resumeAt .run

/-- The assignment that the `if` of `lock_try_acquire` guards. -/
def tryHolder (k : Kernel T S K) (l : K) (success : Bool) : Kernel T S K :=
  { k with holder := if success then update k.holder l (some k.cur) else k.holder }

/-- `lock_try_acquire`, as a whole when interrupts are off, else up to the point where
`sema_try_down` turns them on again. -/
def lockTryAcquire (k : Kernel T S K) (l : K) (off : Bool) : Option (Kernel T S K) :=
  if k.holder l = some k.cur then none
  else
    let success : Bool := 0 < k.value (.lock l)
    let k' := if success then k.countDown (.lock l) else k
    if off then (k'.tryHolder l success).tryLink l else some (k'.resumeAt (.tryDecided l success))

/-! ### Creation and exit -/

/-- A `locks` list that has been zeroed and not initialised. -/
def zeroLocks (h : Links T K) (t : T) : Links T K :=
  (((h.setPrev (.head t) none).setNext (.head t) none).setPrev (.tail t) none).setNext (.tail t)
    none

/-- The zeroed `struct thread` that `init_thread` sets up in a free page.  In mlfqs mode it does
not initialise the `locks` list, and the priority comes from `thread_create` (see `Op.retune`). -/
def initThread (k : Kernel T S K) (t : T) (p : ℤ) : Option (Kernel T S K) :=
  if k.status t = none ∧ PRI_MIN ≤ p ∧ p ≤ PRI_MAX then
    some { k with
      links := (k.links.setPrev (.elem t) none).setNext (.elem t) none
      lockLinks := if k.mlfqs then zeroLocks k.lockLinks t else listInit k.lockLinks t
      status := update k.status t (some .blocked)
      priority := update k.priority t (if k.mlfqs then 0 else p)
      priorityOrg := update k.priorityOrg t (if k.mlfqs then 0 else p)
      blockedLock := update k.blockedLock t none
      resume := update k.resume t .run }
  else none

/-- The end of `thread_create`: yield to a thread of no lower priority. -/
def createReturn (k : Kernel T S K) (p : ℤ) : Option (Kernel T S K) :=
  if k.priority k.cur ≤ p then (k.resumeAt .run).threadYield else some (k.resumeAt .run)

/-- One round of the loop of `thread_exit` over the locks of the thread, or its end. -/
def exitLoop (k : Kernel T S K) (e : Node T K) : Option (Kernel T S K) :=
  if e = .tail k.cur then
    if k.lockLinks.next (.head k.cur) = some (.tail k.cur) then
      (k.setStatus k.cur .dying).schedule
    else none
  else match e with
    | .elem l => (k.lockLinks.next e).bind fun e' => k.lockRelease l (.exit e')
    | _ => none

/-- `thread_exit`, up to the test of its loop over the locks. -/
def threadExit (k : Kernel T S K) : Option (Kernel T S K) :=
  if k.mlfqs then (k.setStatus k.cur .dying).schedule
  else (k.lockLinks.next (.head k.cur)).map fun e => k.resumeAt (.exiting e)

/-! ### Steps -/

/-- Go on at the place where the running thread is. -/
def resumeStep (k : Kernel T S K) : Option (Kernel T S K) :=
  match k.resume k.cur with
  | .run => none
  | .created p => k.createReturn p
  | .semaDown s =>
    if k.value (.sem s) = 0 then k.semaDownWait (.sem s) (.semaDown s)
    else some ((k.countDown (.sem s)).resumeAt .run)
  | .lockEnqueued l | .lockAcquire l =>
    if k.value (.lock l) = 0 then k.semaDownWait (.lock l) (.lockAcquire l)
    else (k.countDown (.lock l)).lockTake l
  | .tryDecided l success => some ((k.tryHolder l success).resumeAt (.tryLink l))
  | .tryLink l => k.tryLink l
  | .releaseUnlink l c => k.releaseUnlink l c
  | .releaseReturn l c => k.releaseReturn l c
  | .exiting e => k.exitLoop e

end Kernel

/-- What the running thread, or an interrupt taken on its stack, can do next. -/
inductive Op (T S K : Type) where
  /-- The first half of `thread_create`. -/
  | create (t : T) (p : ℤ)
  /-- The `thread_unblock` of `thread_create`; `Op.cont` is its last test.  Before it, `thread_create`
  acquires and releases `tid_lock`. -/
  | launch (t : T) (p : ℤ)
  /-- `thread_yield`, also on return from the timer interrupt. -/
  | yield
  /-- `thread_block` called directly, as by `timer_sleep`, `process_wait` and `idle`. -/
  | block
  /-- The `thread_unblock` that belongs to such a `thread_block`. -/
  | unblock (t : T)
  | semaDown (s : S)
  | semaTryDown (s : S)
  /-- `sema_up`; in an interrupt handler it does not yield itself. -/
  | semaUp (s : S) (handler : Bool)
  | lockAcquire (l : K)
  /-- `lock_try_acquire`, called with interrupts off or on. -/
  | lockTryAcquire (l : K) (off : Bool)
  | lockRelease (l : K)
  | setPriority (p : ℤ)
  /-- New priorities in mlfqs mode, from the timer interrupt, `thread_create` or
  `thread_set_nice`. -/
  | retune (p : T → ℤ)
  | exit
  /-- The rest of the function that the running thread is in. -/
  | cont

namespace Kernel

variable [Fintype T] [Fintype K] [DecidableEq T] [DecidableEq S] [DecidableEq K]

/-- The calls that ordinary threads make; the idle thread makes none of them. -/
def call (k : Kernel T S K) : Op T S K → Option (Kernel T S K)
  | .create t p => k.initThread t p
  | .launch t p =>
    if k.resume t = .run ∧ t ≠ k.idle then
      (k.threadUnblock t).map (·.resumeAt (.created p))
    else none
  | .semaDown s => some (k.resumeAt (.semaDown s))
  | .semaTryDown s => some (if 0 < k.value (.sem s) then k.countDown (.sem s) else k)
  | .semaUp s _ => (k.semaWake (.sem s)).bind (·.deferToMaxPriority .run some)
  | .lockAcquire l => k.lockAcquire l
  | .lockTryAcquire l off => k.lockTryAcquire l off
  | .lockRelease l => k.lockRelease l .code
  | .setPriority p =>
    if k.mlfqs then some k
    else (k.threadSetPriority p).bind fun k' =>
      if p < k.priority k.cur then k'.deferToMaxPriority .run some else some k'
  | .exit => k.threadExit
  | _ => none

/-- One step of the thread system. -/
def step (k : Kernel T S K) (op : Op T S K) : Option (Kernel T S K) :=
  match op with
  | .cont => k.resumeStep
  | .yield => if k.intrOn then k.threadYield else none
  | .unblock t =>
    if k.intrOn ∧ k.resume t = .run ∧ t ≠ k.idle then k.threadUnblock t else none
  | .semaUp s true => if k.intrOn then k.semaWake (.sem s) else none
  | .retune p => if k.intrOn ∧ k.mlfqs then some { k with priority := p } else none
  | .block => if k.resume k.cur = .run then k.threadBlock else none
  | op => if k.resume k.cur = .run ∧ k.cur ≠ k.idle then k.call op else none

end Kernel

/-- The state in which `thread_start` returns, if no timer interrupt comes before: the initial
thread runs and all locks are free.  The idle thread has been on the ready list once, alone, and
the initial thread after it, so that their elements still point at its headers.  In priority mode
the idle thread has yielded in its `sema_up`; in mlfqs mode both threads have priority `PRI_MAX`,
so it has gone on and blocked. -/
def bootKernel [DecidableEq T] (mlfqs : Bool) (main idle : T) (value : S → ℕ) : Kernel T S K where
  mlfqs := mlfqs
  links :=
    { prev := fun
        | .head _ => none
        | .tail q => some (.head q)
        | .elem t => if t = main ∨ t = idle then some (.head .ready) else none
      next := fun
        | .head q => some (.tail q)
        | .tail _ => none
        | .elem t => if t = main ∨ t = idle then some (.tail .ready) else none }
  lockLinks :=
    { prev := fun
        | .tail t => if mlfqs then none else some (.head t)
        | _ => none
      next := fun
        | .head t => if mlfqs then none else some (.tail t)
        | _ => none }
  status := fun t =>
    if t = main then some .running
    else if t = idle then some (if mlfqs then .blocked else .ready)
    else none
  priority := fun t =>
    if mlfqs then PRI_MAX else if t = idle then PRI_MIN else PRI_DEFAULT
  priorityOrg := fun t =>
    if mlfqs then 0 else if t = idle then PRI_MIN else PRI_DEFAULT
  blockedLock := fun _ => none
  value := fun
    | .sem s => value s
    | .lock _ => 1
  holder := fun _ => none
  resume := fun _ => .run
  cur := main
  idle := idle
  initial := main

end Pintos
