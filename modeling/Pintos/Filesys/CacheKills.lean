import Pintos.Filesys.CacheMonitors

/-! # Threads that are killed inside the buffer cache

`cache_read` and `cache_write` copy from or to a buffer that a user process has passed.  If a byte of
it cannot be accessed, the page fault inside `memcpy` kills the thread.

* **Faults.**  A call comes with the position of the first byte of its buffer that cannot be
  accessed (`bad`).  The bytes before it are copied.
* **Exit.**  `thread_exit` releases the lock of the entry.  It knows nothing of the monitor.
* **Result.**  As long as no copy faults, an entry whose lock is free can be used; the first copy that
  faults leaves an entry behind that cannot. -/


namespace Pintos
open Bytes Slots Runs Function Option

/-- The number of bytes that are copied. -/
def Access.size : Access → ℕ
  | .read _ size _ => size
  | .write _ buf _ => buf.length

/-- The entry when the copy has stopped after `n` bytes. -/
def CacheEntry.copyPart (e : CacheEntry) (n : ℕ) : Access → CacheEntry
  | .read _ _ _ => e
  | .write _ buf offset => { e with data := overwrite e.data offset (buf.take n) }

/-- The cache, the buffers of the threads that use it, and the threads that have been killed. -/
structure CacheUsers (T : Type) where
  kernel : CacheKernel T
  bad : T → Option ℕ
  dead : T → Bool

namespace CacheUsers

variable {T : Type} [DecidableEq T]

/-- The copy that thread `t` is about to make, and after how many bytes it faults, if it does. -/
def fault (u : CacheUsers T) (t : T) : Option (Access × Slot × ℕ) :=
  match u.kernel.task t with
  | .monitor a i .counted => (u.bad t).bind fun n => if n < a.size then some (a, i, n) else none
  | _ => none

/-- `page_fault` calls `thread_exit`, which releases the lock of the entry. -/
def kill (u : CacheUsers T) (t : T) (a : Access) (i : Slot) (n : ℕ) : CacheUsers T where
  kernel :=
    { sys := { u.kernel.sys with
        cache := u.kernel.sys.cache.setEntry i ((u.kernel.sys.cache.entries i).copyPart n a)
        entryLock := update u.kernel.sys.entryLock i none }
      task := update u.kernel.task t .call }
  bad := u.bad
  dead := update u.dead t true

/-- One step.  An action that starts a call comes with the first bad byte of its buffer. -/
def step (u : CacheUsers T) : KernelAction T × Option ℕ → Option (CacheUsers T)
  | (.run t w, _) =>
    match u.fault t with
    | some (a, i, n) => some (u.kill t a i n)
    | none => (u.kernel.step (.run t w)).map fun k => { u with kernel := k }
  | (act, bad) =>
    if u.dead act.thread then none
    else (u.kernel.step act).map fun k =>
      { u with kernel := k, bad := update u.bad act.thread bad }

/-- After `cache_init`. -/
def boot (size : ℕ) (disk : ℕ → Block) : CacheUsers T := ⟨.boot size disk, fun _ => none, fun _ => false⟩

/-- The copy that is about to be made, if it is one, can access its buffer. -/
def Accessible (u : CacheUsers T) : KernelAction T × Option ℕ → Prop
  | (.run t _, _) => u.fault t = none
  | _ => True

instance (u : CacheUsers T) : (act : KernelAction T × Option ℕ) → Decidable (u.Accessible act)
  | (.run t _, _) => inferInstanceAs (Decidable (u.fault t = none))
  | (.start _ _, _) | (.readAhead _, _) | (.writeBehind _, _) | (.flush _, _) =>
    inferInstanceAs (Decidable True)

/-- Every entry whose lock is free can be used. -/
def Usable (u : CacheUsers T) : Prop :=
  ∀ i, u.kernel.sys.entryLock i = none → (u.kernel.sys.cache.entries i).mode = .unlock ∧
    (u.kernel.sys.cache.entries i).readerActive = 0

variable {u u' : CacheUsers T} {act : KernelAction T × Option ℕ} {t : T}

theorem kernel_step_of_accessible (hok : u.Accessible act) (h : u.step act = some u') :
    u.kernel.step act.1 = some u'.kernel := by
  obtain ⟨act, bad⟩ := act
  cases act with
  | run t w =>
    have hno : u.fault t = none := hok
    simp only [step, hno] at h
    obtain ⟨k, hk, rfl⟩ := map_eq_some_iff.mp h
    exact hk
  | start | readAhead | writeBehind | flush =>
    simp only [step, ite_none_left_eq_some] at h
    obtain ⟨k, hk, rfl⟩ := map_eq_some_iff.mp h.2
    exact hk

theorem inv_of_reaches (h : Reaches step Accessible (boot size disk) u) : u.kernel.Inv :=
  h.invariant (P := fun u => u.kernel.Inv) (CacheKernel.inv_boot size disk)
    fun _ _ _ hinv hok hs => hinv.step (kernel_step_of_accessible hok hs)

omit [DecidableEq T] in
theorem usable_of_inv (h : u.kernel.Inv) : u.Usable := fun _ hi =>
  ⟨(h.free_of_unlocked hi).1, (h.free_of_unlocked hi).2.1⟩

omit [DecidableEq T] in
theorem fault_eq_some (h : u.fault t = some (a, i, n)) :
    u.kernel.task t = .monitor a i .counted := by
  unfold fault at h
  split at h
  · rename_i a' i' hτ
    obtain ⟨n', -, h⟩ := bind_eq_some_iff.mp h
    split_ifs at h
    obtain ⟨rfl, rfl, -⟩ := h
    exact hτ
  · cases h

theorem not_usable_kill (h : u.kernel.Inv)
    (hf : u.fault t = some (a, i, n)) : ¬ (u.kill t a i n).Usable := by
  intro husb
  obtain ⟨mode, active, hs, hmode, -⟩ := h.inside t a i .counted (fault_eq_some hf)
  cases hs
  have hfree := (husb i (update_self ..)).1
  have hsame : ((u.kill t a i n).kernel.sys.cache.entries i).mode = a.mode := by
    cases a <;> simpa [kill, CacheEntry.copyPart] using hmode
  rw [hsame] at hfree
  cases a <;> cases hfree

theorem isSome_step_of_monitor (h : u.kernel.Inv) (hτ : u.kernel.task t = .monitor a i stage)
    (w : T) (b : Option ℕ) : (u.step (.run t w, b)).isSome = true := by
  obtain ⟨k, hk, -⟩ := CacheKernel.did_of_monitor hτ (h.outside t (by rw [hτ]; rfl))
    (h.inside t a i stage hτ) w
  cases hf : u.fault t with
  | none => simp [step, hf, CacheKernel.step, CacheKernel.runThread, hτ, hk]
  | some x => simp [step, hf]

/-- **Copies that fault.**  In every run in which all copies can access their buffers, an entry
whose lock is free is unlocked and has no reader, and a thread inside a monitor can go on.  From any
state of such a run, a step of a thread leaves it so exactly when it is not a copy that faults. -/
theorem usable_iff_accessible {size : ℕ} {disk : ℕ → Block} {u : CacheUsers T}
    (h : Reaches step Accessible (boot size disk) u) :
    u.Usable ∧
    (∀ t a i stage, u.kernel.task t = .monitor a i stage →
      stage ≠ .waiting ∧ ∀ w b, (u.step (.run t w, b)).isSome = true) ∧
    ∀ t w b u', u.step (.run t w, b) = some u' → (u'.Usable ↔ u.Accessible (.run t w, b)) := by
  have hinv := inv_of_reaches h
  refine ⟨usable_of_inv hinv, fun t a i stage hτ => ⟨?_, isSome_step_of_monitor hinv hτ⟩,
    fun t w b u' hs => ⟨fun husb => ?_, fun hok => ?_⟩⟩
  · rintro rfl
    obtain ⟨mode, active, hs, -⟩ := hinv.inside t a i .waiting hτ
    cases hs
  · by_contra hno
    obtain ⟨⟨a, i, n⟩, hf⟩ := ne_none_iff_exists'.mp hno
    simp only [step, hf, some.injEq] at hs
    subst hs
    exact not_usable_kill hinv hf husb
  · exact usable_of_inv (inv_of_reaches (.step _ h hok hs))

/-- A thread has been counted as a reader, and its buffer can be accessed. -/
theorem usable_iff_accessible_read : ∃ u u' : CacheUsers (Fin 2),
    Reaches step Accessible (boot 16 fun _ _ => 0) u ∧
      u.kernel.task 0 = .monitor (.read 5 4 0) 0 .counted ∧
      u.step (.run 0 0, none) = some u' ∧ u'.Usable := by
  have heval : (exec step Accessible (boot 16 fun _ _ => 0 : CacheUsers (Fin 2))
      ([(.start 0 (.read 5 4 0), some 4)] ++ List.replicate 8 (.run 0 0, none))).map
        (fun u => (u.kernel.task 0, u.fault 0, (u.step (.run 0 0, none)).isSome)) =
      some (.monitor (.read 5 4 0) 0 .counted, none, true) := by
    decide +kernel
  obtain ⟨u, hexec, hv⟩ := map_eq_some_iff.mp heval
  simp only [Prod.mk.injEq] at hv
  obtain ⟨hτ, hf, hs⟩ := hv
  obtain ⟨u', hs⟩ := isSome_iff_exists.mp hs
  have hr := reaches_of_exec hexec
  exact ⟨u, u', hr, hτ, hs, ((usable_iff_accessible hr).2.2 0 0 none u' hs).mpr hf⟩

/-- A reader is killed in its copy.  The entry stays locked for reading, and the next writer of the
sector waits for ever. -/
theorem killed_reader_blocks_writer : ∃ u : CacheUsers Bool,
    Reaches step (fun _ _ => True) (boot 16 fun _ _ => 0) u ∧ u.dead false = true ∧
      u.kernel.sys.entryLock 0 = none ∧ (u.kernel.sys.cache.entries 0).mode = .readLock ∧
      (u.kernel.sys.cache.entries 0).readerActive = 1 ∧ ¬ u.Usable ∧
      u.kernel.task true = .monitor (.write 5 [7] 0) 0 .waiting ∧ ∀ act, u.step act = none := by
  have heval : (exec step (fun _ _ => True) (boot 16 fun _ _ => 0 : CacheUsers Bool)
      ([(.start false (.read 5 4 0), some 2)] ++ List.replicate 9 (.run false false, none) ++
        [(.start true (.write 5 [7] 0), none)] ++ List.replicate 5 (.run true true, none))).any
        (fun u => u.dead false && decide (u.kernel.sys.entryLock 0 = none) &&
          decide ((u.kernel.sys.cache.entries 0).mode = .readLock) &&
          decide ((u.kernel.sys.cache.entries 0).readerActive = 1) && u.kernel.idle false &&
          decide (u.kernel.task true = .monitor (.write 5 [7] 0) 0 .waiting)) = true := by
    decide +kernel
  simp only [Option.any_eq_true, Bool.and_eq_true, decide_eq_true_eq, CacheKernel.idle_iff] at heval
  obtain ⟨u, hexec, ⟨⟨⟨⟨hdead, hlock⟩, hmode⟩, hact⟩, hτ, hpc⟩, hτ'⟩ := heval
  refine ⟨u, reaches_of_exec hexec, hdead, hlock, hmode, hact, fun husb => ?_, hτ', ?_⟩
  · have hfree := (husb 0 hlock).1
    rw [hmode] at hfree
    cases hfree
  · rintro ⟨act, b⟩
    have hidle : u.kernel.idle true = false := by simp [CacheKernel.idle, hτ']
    cases act with
    | run t w =>
      cases t with
      | false =>
        simp [step, fault, CacheKernel.step, CacheKernel.runThread, CacheKernel.callStep, hτ,
          hpc, CacheSystem.runThread]
      | true =>
        simp [step, fault, CacheKernel.step, CacheKernel.runThread, CacheKernel.monitorStep, hτ']
    | start t | readAhead t | writeBehind t | flush t =>
      cases t with
      | false => simp [step, KernelAction.thread, hdead]
      | true => simp [step, CacheKernel.step, hidle]

end CacheUsers

end Pintos
