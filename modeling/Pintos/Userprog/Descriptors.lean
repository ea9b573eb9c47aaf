import Mathlib.Algebra.Order.Ring.Int
import Mathlib.Data.List.Basic
import Mathlib.Logic.Function.Basic

/-! # File descriptors

The list `fds` of a process, with `open`, `close` and `file_from_fd` of `userprog/syscall.c`.

* **Objects.**  What `filesys_open` and `dir_open` return is given with the call, as pointers.
* **Numbers.**  A descriptor is an `int`: `fd + 1` wraps around.
* **History.**  `opens` counts the calls of `open` that succeeded since the list was empty, and
  `created` says what was created for a descriptor and has not been closed (`FdTable`). -/

namespace Pintos.Userprog
open Function List

/-- `struct file_des`. -/
structure FileDes where
  fd : ℤ
  file : ℕ
  dir : Option ℕ
deriving DecidableEq

/-- How a process is stopped within a system call. -/
inductive Stop where
  /-- `thread_exit` -/
  | exited
  /-- A failed `ASSERT`, or a null pointer is followed. -/
  | panicked
deriving DecidableEq

def STDIN_FILENO : ℤ := 0

def STDOUT_FILENO : ℤ := 1

def fileFromFd (fds : List FileDes) (fd : ℤ) : Except Stop FileDes :=
  if ¬ (STDIN_FILENO < fd ∧ STDOUT_FILENO < fd) then .error .panicked
  else match fds.find? (·.fd = fd) with
    | some d => .ok d
    | none => .error .exited

/-- The descriptor that `open` chooses. -/
def nextFd (fds : List FileDes) : ℤ :=
  match fds.getLast? with
  | none => 2
  | some last => max 2 (Int.bmod (last.fd + 1) (2 ^ 32))

/-- `open`: `opened` is the file, and the directory if it is one; `malloc` says whether there is
memory for the descriptor. -/
def openFile (opened : Option (ℕ × Option ℕ)) (malloc : Bool) (fds : List FileDes) :
    Except Stop (ℤ × List FileDes) :=
  match opened with
  | none => .ok (-1, fds)
  | some (file, dir) =>
    if malloc then .ok (nextFd fds, fds ++ [⟨nextFd fds, file, dir⟩]) else .error .panicked

def close (fd : ℤ) (fds : List FileDes) : Except Stop (List FileDes) :=
  if fd = STDIN_FILENO ∨ fd = STDOUT_FILENO then .error .exited
  else do
    let _ ← fileFromFd fds fd
    return fds.eraseP (·.fd = fd)

inductive FdCall where
  | open (opened : Option (ℕ × Option ℕ)) (malloc : Bool)
  | close (fd : ℤ)

/-- The descriptors of a process, with their history. -/
structure FdTable where
  fds : List FileDes
  opens : ℕ
  created : ℤ → Option FileDes

namespace FdTable

def empty : FdTable := ⟨[], 0, fun _ => none⟩

/-- A call, with what it returns. -/
def step (t : FdTable) : FdCall → Except Stop (ℤ × FdTable)
  | .open opened malloc => do
    let (fd, fds) ← openFile opened malloc t.fds
    match opened with
    | none => return (fd, { t with fds })
    | some (file, dir) =>
      return (fd, ⟨fds, t.opens + 1, update t.created fd (some ⟨fd, file, dir⟩)⟩)
  | .close fd => do
    let fds ← Userprog.close fd t.fds
    return (0, ⟨fds, if fds = [] then 0 else t.opens, update t.created fd none⟩)

/-- Calls lead here, without `2 ^ 31 - 2` successful calls of `open` on the way between two times at
which the list was empty. -/
inductive Reached : FdTable → Prop
  | empty : Reached empty
  | step {t t' : FdTable} {r : ℤ} (call : FdCall) : Reached t → t.step call = .ok (r, t') →
      t'.opens < 2 ^ 31 - 2 → Reached t'

/-- The list is sorted, and it has what has been created. -/
structure Inv (t : FdTable) : Prop where
  sorted : t.fds.Pairwise (·.fd < ·.fd)
  low : ∀ d ∈ t.fds, 2 ≤ d.fd
  high : ∀ d ∈ t.fds, d.fd ≤ t.opens + 1
  find : ∀ fd, t.fds.find? (·.fd = fd) = t.created fd

variable {t t' : FdTable} {call : FdCall} {r : ℤ}

theorem eraseP_eq_filter {fds : List FileDes} (h : fds.Pairwise (·.fd < ·.fd)) (fd : ℤ) :
    fds.eraseP (·.fd = fd) = fds.filter (·.fd ≠ fd) := by
  induction h with
  | nil => rfl
  | @cons d fds hd _ ih =>
    by_cases hfd : d.fd = fd
    · have hall : fds.filter (·.fd ≠ fd) = fds := by
        rw [filter_eq_self]
        exact fun e he => by simpa using (hfd ▸ hd e he).ne'
      rw [eraseP_cons_of_pos (by simpa using hfd), filter_cons_of_neg (by simpa using hfd), hall]
    · rw [eraseP_cons_of_neg (by simpa using hfd), filter_cons_of_pos (by simpa using hfd), ih]

/-- The new descriptor is larger than those in the list. -/
theorem Inv.nextFd (h : t.Inv) (hope : t.opens < 2 ^ 31 - 2) :
    2 ≤ nextFd t.fds ∧ nextFd t.fds ≤ t.opens + 2 ∧ ∀ d ∈ t.fds, d.fd < nextFd t.fds := by
  rcases eq_nil_or_concat' t.fds with hfds | ⟨fds, last, hfds⟩
  · rw [hfds]
    exact ⟨le_rfl, by simp only [Userprog.nextFd, getLast?_nil]; omega, by simp⟩
  · have hlast : last ∈ t.fds := by simp [hfds]
    have hlow := h.low last hlast
    have hhigh := h.high last hlast
    have hnext : Userprog.nextFd t.fds = last.fd + 1 := by
      rw [Userprog.nextFd, hfds, getLast?_concat]
      dsimp only
      rw [Int.bmod_eq_of_le (by omega) (by omega), max_eq_right (by omega)]
    refine ⟨by omega, by omega, fun d hd => ?_⟩
    have hsrt := h.sorted
    rw [hfds] at hd hsrt
    rcases mem_append.mp hd with hd | hd
    · have := (pairwise_append.mp hsrt).2.2 d hd last (by simp)
      omega
    · rw [mem_singleton.mp hd]
      omega

theorem Inv.open (h : t.Inv) (hope : t.opens + 1 < 2 ^ 31 - 2) :
    Inv ⟨t.fds ++ [⟨Userprog.nextFd t.fds, file, dir⟩], t.opens + 1,
      update t.created (Userprog.nextFd t.fds) (some ⟨Userprog.nextFd t.fds, file, dir⟩)⟩ := by
  obtain ⟨hlow, hhigh, hlt⟩ := h.nextFd (by omega)
  refine ⟨?_, ?_, ?_, fun fd => ?_⟩
  · rw [pairwise_append]
    exact ⟨h.sorted, pairwise_singleton _ _, fun d hd e he => by
      rw [mem_singleton.mp he]
      exact hlt d hd⟩
  · rintro d hd
    rcases mem_append.mp hd with hd | hd
    · exact h.low d hd
    · rw [mem_singleton.mp hd]
      exact hlow
  · rintro d hd
    rcases mem_append.mp hd with hd | hd
    · have := h.high d hd
      push_cast
      omega
    · rw [mem_singleton.mp hd]
      push_cast
      omega
  · rw [find?_append, h.find]
    by_cases hfd : fd = Userprog.nextFd t.fds
    · have hnone : t.created fd = none := by
        rw [← h.find, find?_eq_none]
        exact fun d hd => by simpa using (hfd ▸ hlt d hd).ne
      simp [← hfd, hnone]
    · simp [hfd, Ne.symm hfd]

theorem Inv.close (h : t.Inv) (fd : ℤ) :
    Inv ⟨t.fds.eraseP (·.fd = fd), if t.fds.eraseP (·.fd = fd) = [] then 0 else t.opens,
      update t.created fd none⟩ := by
  rw [eraseP_eq_filter h.sorted]
  refine ⟨h.sorted.filter _, fun d hd => h.low d (mem_filter.mp hd).1, fun d hd => ?_, fun e => ?_⟩
  · rw [if_neg (ne_nil_of_mem hd)]
    exact h.high d (mem_filter.mp hd).1
  · dsimp only
    rw [find?_filter]
    by_cases he : e = fd
    · rw [he]
      simp
    · rw [update_of_ne he, ← h.find]
      congr 1
      funext d
      rw [Bool.eq_iff_iff]
      simp only [decide_eq_true_eq]
      exact ⟨fun hd => hd.2, fun hd => ⟨by simpa [hd] using he, hd⟩⟩

theorem Inv.step (h : t.Inv) (hs : t.step call = .ok (r, t')) (hope : t'.opens < 2 ^ 31 - 2) :
    t'.Inv := by
  cases call with
  | «open» opened malloc =>
    cases opened with
    | none =>
      cases hs
      exact h
    | some opened =>
      cases malloc with
      | false => cases hs
      | true =>
        cases hs
        exact h.open hope
  | close fd =>
    simp only [FdTable.step, Userprog.close] at hs
    split_ifs at hs
    · cases hs
    · cases hf : fileFromFd t.fds fd with
      | error e =>
        simp [hf] at hs
      | ok d =>
        rw [hf] at hs
        cases hs
        exact h.close fd

theorem Reached.inv (h : t.Reached) : t.Inv := by
  induction h with
  | empty => exact ⟨Pairwise.nil, by simp [FdTable.empty], by simp [FdTable.empty], fun _ => rfl⟩
  | step _ _ hs hope ih => exact ih.step hs hope

/-- The list is a sorted map from descriptors to what was created for them, and a new descriptor is
not in it. -/
theorem fileFromFd_eq_created (h : t.Reached) :
    t.fds.Pairwise (·.fd < ·.fd) ∧ (∀ d ∈ t.fds, 2 ≤ d.fd) ∧
      (∀ fd, 2 ≤ fd → fileFromFd t.fds fd = (t.created fd).elim (.error .exited) .ok) ∧
      ∀ file dir malloc fd t', t.step (.open (some (file, dir)) malloc) = .ok (fd, t') →
        t'.opens < 2 ^ 31 - 2 →
        (∀ d ∈ t.fds, d.fd ≠ fd) ∧ t'.created fd = some ⟨fd, file, dir⟩ := by
  have hinv := h.inv
  refine ⟨hinv.sorted, hinv.low, fun fd hfd => ?_, fun file dir malloc fd t' hs hope => ?_⟩
  · rw [fileFromFd, if_neg (by simp only [STDIN_FILENO, STDOUT_FILENO]; omega), hinv.find]
    cases t.created fd <;> rfl
  · cases malloc with
    | false => cases hs
    | true =>
      cases hs
      exact ⟨fun d hd => ((hinv.nextFd (Nat.lt_of_succ_lt hope)).2.2 d hd).ne, update_self ..⟩

theorem fileFromFd_eq_created_three : ∃ t : FdTable, t.Reached ∧
    t.fds = [⟨3, 11, none⟩, ⟨4, 12, some 13⟩] ∧ fileFromFd t.fds 4 = .ok ⟨4, 12, some 13⟩ := by
  have h1 := Reached.empty.step (.open (some (10, none)) true) rfl (by decide)
  have h2 := h1.step (.open (some (11, none)) true) rfl (by decide)
  have h3 := h2.step (.close 2) rfl (by decide)
  have h4 := h3.step (.open (some (12, some 13)) true) rfl (by decide)
  exact ⟨_, h4, by decide, (fileFromFd_eq_created h4).2.2.1 4 (by decide)⟩

end FdTable

end Pintos.Userprog
