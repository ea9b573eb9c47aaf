import Pintos.Threads.Kernel

/-! # Waiting for a child

`process_wait` against `process_exit` and `thread_exit`, for any number of processes that create
children, wait for them and exit.

* **Steps.**  A thread can be interrupted between any two of: the search for the child on
  `all_list`, the store to `parent_waiting`, `thread_block`; and between any two of: the test of
  `parent_waiting`, `thread_unblock`, the removal from `all_list`, the rest of `thread_exit`.
* **Scheduler.**  `ready` stands for `THREAD_RUNNING` as well: any ready thread may execute the next
  step.  A thread may also block, and be woken, in code that is not modelled (`sleep`, `wake`).
* **Errors.**  A failed `ASSERT`, the use of a null pointer and the use of a page that has been freed
  make the step `none`.

The model is that of `thread_mlfqs = false`: only then does `thread_create` record children. -/

namespace Pintos

/-- Where a thread is; threads are named by their `tid`. -/
inductive ProcessPc where
  /-- Not created yet. -/
  | unborn
  /-- In code that does not belong to the protocol. -/
  | user
  /-- In `process_wait`, having found the child on `all_list`. -/
  | looked (c : ℕ)
  /-- In `process_wait`, having set `parent_waiting` of the child. -/
  | flagged (c : ℕ)
  /-- In the `thread_block` of `process_wait`. -/
  | waiting (c : ℕ)
  /-- In `thread_exit`, before the test of `parent_waiting`. -/
  | exiting
  /-- `parent_waiting` was set: about to call `thread_unblock`. -/
  | unblocking
  /-- Behind the `if`, still on `all_list`. -/
  | leaving
  /-- Off `all_list`, in the rest of `thread_exit`. -/
  | cleaning
  /-- Switched away from for the last time. -/
  | dead
  /-- The page has been given back. -/
  | freed
deriving DecidableEq, Repr

namespace ProcessPc

/-- The test of `parent_waiting` lies ahead. -/
def before : ProcessPc → Bool
  | .user | .looked _ | .flagged _ | .waiting _ | .exiting => true
  | _ => false

/-- The `if` that tests `parent_waiting` lies behind. -/
def passed : ProcessPc → Bool
  | .leaving | .cleaning | .dead | .freed => true
  | _ => false

/-- On `all_list`. -/
def listed (p : ProcessPc) : Bool := p.before || p == .unblocking || p == .leaving

/-- The child that `process_wait` has been called for, once it has been found. -/
def waitsFor : ProcessPc → Option ℕ
  | .looked c | .flagged c | .waiting c => some c
  | _ => none

/-- Code outside the protocol that may block. -/
def mayBlock : ProcessPc → Bool
  | .user | .exiting | .cleaning => true
  | _ => false

end ProcessPc

/-- `struct child`. -/
structure Child where
  tid : ℕ
  exitCode : ℤ
deriving DecidableEq, Repr

/-- The part of `struct thread` that the protocol uses, and what the last `process_wait` of the
thread has returned. -/
structure Process where
  pc : ProcessPc
  status : ThreadStatus
  parentTid : ℕ
  parentWaiting : Bool
  children : List Child
  returned : Option ℤ
deriving DecidableEq, Repr

/-- The threads of the system, with `next_tid`. -/
structure Processes where
  nextTid : ℕ
  allList : List ℕ
  thread : ℕ → Process

/-- `thread_get_child_elem`. -/
def threadGetChildElem (l : List Child) (tid : ℕ) : Option Child := l.find? fun c => c.tid = tid

/-- The list in which the element that `thread_get_child_elem` finds has another `exit_code`. -/
def setExitCode : List Child → ℕ → ℤ → List Child
  | [], _, _ => []
  | c :: l, tid, code =>
    if c.tid = tid then { c with exitCode := code } :: l else c :: setExitCode l tid code

theorem map_tid_setExitCode (l : List Child) (tid : ℕ) (code : ℤ) :
    (setExitCode l tid code).map Child.tid = l.map Child.tid := by
  induction l with
  | nil => rfl
  | cons c l ih =>
    unfold setExitCode
    split
    · rfl
    · simp [ih]

/-- What a thread does next. -/
inductive ProcessAction where
  /-- `thread_create`. -/
  | create (t : ℕ)
  /-- `process_wait`, up to the search for the child. -/
  | wait (t c : ℕ)
  /-- The system call `exit`, up to the call of `thread_exit`. -/
  | exit (t : ℕ) (status : ℤ)
  /-- A call of `thread_exit` by kernel code. -/
  | threadExit (t : ℕ)
  /-- Block outside the protocol. -/
  | sleep (t : ℕ)
  /-- Be woken there. -/
  | wake (t : ℕ)
  /-- The next step of `process_wait` or `thread_exit`. -/
  | run (t : ℕ)
  /-- `thread_schedule_tail` of the next thread gives the page of a dead one back. -/
  | free (t : ℕ)

namespace Processes

def setThread (m : Processes) (t : ℕ) (x : Process) : Processes :=
  { m with thread := Function.update m.thread t x }

/-- `thread_get_from_tid`. -/
def threadGetFromTid (m : Processes) (tid : ℕ) : Option ℕ := m.allList.find? (· = tid)

/-- `init_thread`, and what `thread_create` adds. -/
def newThread (parent : ℕ) : Process := ⟨.user, .ready, parent, false, [], none⟩

/-- `thread_create`. -/
def threadCreate (m : Processes) (t : ℕ) : Processes :=
  let x := m.thread t
  let m := m.setThread t { x with children := x.children ++ [⟨m.nextTid, -1⟩] }
  { m.setThread m.nextTid (newThread t) with
    nextTid := m.nextTid + 1, allList := m.allList ++ [m.nextTid] }

/-- `process_wait`, up to the search for the child. -/
def processWait (m : Processes) (t c : ℕ) : Processes :=
  let x := m.thread t
  match threadGetChildElem x.children c with
  | none => m.setThread t { x with returned := some (-1) }
  | some e =>
    match m.threadGetFromTid c with
    | none => m.setThread t
        { x with children := setExitCode x.children c (-1), returned := some e.exitCode }
    | some _ => m.setThread t { x with pc := .looked c }

/-- The system call `exit`, up to the call of `thread_exit`. -/
def exit (m : Processes) (t : ℕ) (status : ℤ) : Option Processes :=
  match m.threadGetFromTid (m.thread t).parentTid with
  | none => some (m.setThread t { m.thread t with pc := .exiting })
  | some p =>
    match threadGetChildElem (m.thread p).children t with
    | none => none
    | some _ =>
      let x := m.thread p
      let m := m.setThread p { x with children := setExitCode x.children t status }
      some (m.setThread t { m.thread t with pc := .exiting })

/-- `thread_unblock`. -/
def threadUnblock (m : Processes) (t : ℕ) : Option Processes :=
  if (m.thread t).status = .blocked then
    some (m.setThread t { m.thread t with status := .ready })
  else none

/-- The next step of `process_wait` or `thread_exit`. -/
def runThread (m : Processes) (t : ℕ) : Option Processes :=
  let x := m.thread t
  match x.pc with
  | .looked c =>
    if (m.thread c).pc = .freed then none
    else
      let m := m.setThread c { m.thread c with parentWaiting := true }
      some (m.setThread t { m.thread t with pc := .flagged c })
  | .flagged c => some (m.setThread t { x with pc := .waiting c, status := .blocked })
  | .waiting c =>
    (threadGetChildElem x.children c).map fun e => m.setThread t { x with
      pc := .user, children := setExitCode x.children c (-1), returned := some e.exitCode }
  | .exiting =>
    some (m.setThread t { x with pc := if x.parentWaiting then .unblocking else .leaving })
  | .unblocking => do
    let p ← m.threadGetFromTid x.parentTid
    let m ← m.threadUnblock p
    some (m.setThread t { m.thread t with pc := .leaving })
  | .leaving =>
    some { m.setThread t { x with pc := .cleaning } with allList := m.allList.erase t }
  | .cleaning => some (m.setThread t { x with pc := .dead, status := .dying, children := [] })
  | _ => none

def step (m : Processes) : ProcessAction → Option Processes
  | .create t => if (m.thread t).pc = .user ∧ (m.thread t).status = .ready then
      some (m.threadCreate t) else none
  | .wait t c => if (m.thread t).pc = .user ∧ (m.thread t).status = .ready then
      some (m.processWait t c) else none
  | .exit t status => if (m.thread t).pc = .user ∧ (m.thread t).status = .ready then
      m.exit t status else none
  | .threadExit t => if (m.thread t).pc = .user ∧ (m.thread t).status = .ready then
      some (m.setThread t { m.thread t with pc := .exiting }) else none
  | .sleep t => if (m.thread t).pc.mayBlock ∧ (m.thread t).status = .ready then
      some (m.setThread t { m.thread t with status := .blocked }) else none
  | .wake t => if (m.thread t).pc.mayBlock ∧ (m.thread t).status = .blocked then
      some (m.setThread t { m.thread t with status := .ready }) else none
  | .run t => if (m.thread t).status = .ready then m.runThread t else none
  | .free t => if (m.thread t).pc = .dead then
      some (m.setThread t { m.thread t with pc := .freed }) else none

/-- `thread_init`: the initial thread, whose `parent_tid` is its own. -/
def boot : Processes where
  nextTid := 2
  allList := [1]
  thread t := if t = 1 then newThread 1 else ⟨.unborn, .blocked, 0, false, [], none⟩

end Processes

end Pintos
