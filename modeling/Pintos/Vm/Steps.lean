import Pintos.Vm.Evolution
import Pintos.Vm.System

/-! # What a step of a process does

One lemma for each thing that a thread does to the memory it shares with the others, in any state.

* **Loading.**  The segments are mapped under a number that no page has yet (`load_maps`).
* **Steps.**  A step of a thread leaves the tables of the others alone; what it does to its own is
  `MemEffect`. -/

namespace Pintos.Vm
open Bytes Outcome Function Option

namespace State

variable {m : Machine} {v w v' : State}

/-! ### Loading -/

/-- The loop of `load_segment` maps the pages of its rounds, which have `B` if all of its rounds have
`Q`. -/
theorem segmentLoop_maps (file : ℕ) (writable : Bool) (mapid : ℤ) {Q : Round → Prop} {B : ℕ → Prop}
    (hQ : ∀ r, Q r → r.More → B (r.upage.toNat / PGSIZE) ∧ Q r.next) (hr : Q r) :
    Meets Any (fun w => ∃ P, Maps mapid P v w ∧ ∀ p ∈ P, B p)
      (Loader.segmentLoop file writable mapid fuel v r) := by
  induction fuel generalizing v r with
  | zero => exact trivial
  | succ fuel ih =>
    rw [Loader.segmentLoop]
    split_ifs with hmore
    · refine (supAllocSegment_maps v _ file writable _ _ mapid).bind fun w hw => ?_
      refine (ih (hQ r hr hmore).2).mono ?_
      rintro w' ⟨P, hmaps, hP⟩
      refine ⟨_, hw.trans hmaps, fun p hp => ?_⟩
      rcases hp with rfl | hp
      · exact (hQ r hr hmore).1
      · exact hP p hp
    · exact ⟨∅, .refl _ v, fun _ hp => hp.elim⟩

/-- A segment lies in the memory of the user. -/
theorem loadPhdr_maps (mapid : ℤ) (hvalid : validateSegment m phdr fileLength = true) :
    Meets Any (fun w => ∃ P, Maps mapid P v w ∧ ∀ p ∈ P, p < m.physBase)
      (Loader.loadPhdr v file mapid phdr) := by
  unfold Loader.loadPhdr Loader.loadSegment
  split_ifs
  · by_cases hm : m.physBase < 2 ^ 20
    · have hv := (validateSegment_iff hm).mp hvalid
      have hbnd := hv.base_bounds
      refine segmentLoop_maps file phdr.writable mapid (Q := fun r => ∃ i, r.Is _ _ _ _ i) ?_
        ⟨0, Loader.start_is hv hm⟩
      rintro r ⟨i, hi⟩ hmore
      have hlt : i < phdr.count := by
        by_contra hle
        obtain rfl : i = phdr.count := by
          have := hi.le
          omega
        exact hi.not_more hmore
      refine ⟨?_, i + 1, hi.next hlt⟩
      rw [hi.upage, Nat.mul_div_cancel _ (by decide)]
      omega
    · -- no word has a larger page number
      refine segmentLoop_maps file phdr.writable mapid (Q := fun _ => True)
        (fun r _ _ => ⟨?_, trivial⟩) trivial
      have hlt := r.upage.toNat_lt
      rw [PGSIZE_eq]
      omega
  · exact trivial
  · exact trivial

theorem loadPhdrs_maps (file : ℕ) (mapid : ℤ) (phdrs : List (Option Phdr)) (v : State) :
    Meets Any (fun x => ∃ P, Maps mapid P v x.2 ∧ ∀ p ∈ P, p < m.physBase)
      (loadPhdrs m file mapid phdrs v) := by
  induction phdrs generalizing v with
  | nil => exact ⟨∅, .refl _ v, fun _ hp => hp.elim⟩
  | cons phdr rest ih =>
    have hstop : ∃ P, Maps mapid P v v ∧ ∀ p ∈ P, p < m.physBase :=
      ⟨∅, .refl _ v, fun _ hp => hp.elim⟩
    cases phdr with
    | none => exact hstop
    | some phdr =>
      rw [loadPhdrs]
      cases phdr.type with
      | load =>
        split_ifs with hvalid
        · refine (loadPhdr_maps mapid hvalid).bind ?_
          rintro w ⟨P, hmaps, hP⟩
          refine (ih w).mono ?_
          rintro x ⟨Q, hmaps', hQ⟩
          exact ⟨P ∪ Q, hmaps.trans hmaps', fun p hp => hp.elim (hP p) (hQ p)⟩
        · exact hstop
      | dynamic | interp | shlib => exact hstop
      | null | note | phdr | stack | other => exact ih v

theorem load_maps (m : Machine) (v : State) (file : ℕ) (phdrs : List (Option Phdr)) :
    Meets Any (fun x => ∃ w P, Maps v.lastMapid P { v with lastMapid := v.lastMapid + 1 } w ∧
      (∀ p ∈ P, p < m.physBase) ∧ Goes m true w x.2) (v.load m file phdrs) := by
  refine (loadPhdrs_maps file v.lastMapid phdrs { v with lastMapid := v.lastMapid + 1 }).bind ?_
  rintro ⟨_ | _, w⟩ ⟨P, hmaps, hP⟩
  · exact ⟨w, P, hmaps, hP, .refl w⟩
  · exact (supAllocAllZeros_goes m true w _).mono fun x hx => ⟨w, P, hmaps, hP, hx.1⟩

theorem pagedirDestroy_occupies (m : Machine) (v : State) :
    Meets Any (fun w => (∀ f, w.used f = true → v.used f = true) ∧ w.lru = v.lru ∧
      w.lastMapid = v.lastMapid) (v.pagedirDestroy m) := by
  refine Meets.foldlM_range (I := fun _ (w : State) => (∀ f, w.used f = true → v.used f = true) ∧
    w.lru = v.lru ∧ w.lastMapid = v.lastMapid) ⟨fun _ => id, rfl, rfl⟩ _ ?_
  rintro n - w ⟨hused, hlru, hlast⟩
  split_ifs
  · unfold pallocFreePage
    split_ifs
    · refine ⟨fun f hf => hused f ?_, hlru, hlast⟩
      dsimp only at hf
      rw [update_apply] at hf
      split_ifs at hf
      exact hf
    · exact trivial
  · exact ⟨hused, hlru, hlast⟩

end State

namespace System

variable {T : Type} {m : Machine} {elf : List UInt8 → Option (List (Option Phdr))}
  {s s' : System T} {t : T}

/-! ### Steps -/

/-- The tables of a thread; those of a thread that does not run a process are empty. -/
def tables (s : System T) (t : T) : Process := (s.threads t).elim .empty Thread.toProcess

/-- The machine when the thread `t` runs. -/
def current (s : System T) (t : T) : State := s.view (s.tables t)

variable {th : Thread}

theorem tables_eq (h : s.threads t = some th) : s.tables t = th.toProcess := by
  simp [tables, h]

theorem current_eq (h : s.threads t = some th) : s.current t = s.view th.toProcess := by
  rw [current, tables_eq h]

variable [DecidableEq T]

@[simp] theorem tables_setThread (s : System T) (t : T) (th : Thread) :
    (s.setThread t th).tables t = th.toProcess := by
  simp [tables, setThread]

/-- The thread `t` has run, and the machine is in the state `v'`; the other threads have not. -/
structure After (s : System T) (t : T) (v' : State) (s' : System T) : Prop where
  kernel : ∃ proc, s'.kernel = { v' with toProcess := proc }
  tables : s'.tables t = v'.toProcess
  others : ∀ t', t' ≠ t → s'.threads t' = s.threads t'

theorem commit_after (h : s.commit m t th v = some s') : After s t v s' := by
  simp only [commit, bind_eq_bind, bind_eq_some_iff] at h
  obtain ⟨ft, supFile, -, rfl⟩ := h
  exact ⟨⟨_, rfl⟩, tables_setThread .., fun t' ht => update_of_ne ht ..⟩

theorem commitResult_after
    (h : s.commitResult m t th x = some s') : ∃ alive v, x = .ok (alive, v) ∧ After s t v s' := by
  cases x with
  | error e => cases h
  | ok x => exact ⟨x.1, x.2, rfl, commit_after h⟩

/-- The memory and the other threads are as they were. -/
structure Untouched (s : System T) (t : T) (s' : System T) : Prop where
  kernel : s'.kernel = s.kernel
  tables : s'.tables t = s.tables t
  others : ∀ t', t' ≠ t → s'.threads t' = s.threads t'

theorem Untouched.setThread (h : s.threads t = some th) (th' : Thread)
    (hsame : th'.toProcess = th.toProcess) (ft : FileTable) :
    Untouched s t ((s.setFiles ft).setThread t th') :=
  ⟨rfl, by rw [tables_setThread, hsame, tables_eq h], fun t' ht => update_of_ne ht ..⟩

theorem withFd_untouched
    (ht : s.threads t = some th) (h : s.withFd t th fd call = some s') : Untouched s t s' := by
  unfold withFd at h
  split at h
  · cases h
    exact Untouched.setThread ht { th with phase := .exiting } rfl s.ft
  · simp only [bind_eq_bind, bind_eq_some_iff, some.injEq, Prod.exists] at h
    obtain ⟨ft, fds, -, rfl⟩ := h
    exact Untouched.setThread ht { th with fds } rfl ft

/-- What a step of `t` does to the memory. -/
def MemEffect (m : Machine) (elf : List UInt8 → Option (List (Option Phdr))) (s : System T) (t : T)
    (a : Action) (s' : System T) : Prop :=
  match a with
  | .exec inode => s.threads t = none ∧ match elf (s.ft.contents inode) with
      | none => Untouched s t s'
      | some phdrs => ∃ ft ok v',
          ((s.setFiles ft).view .empty).load m inode phdrs = .ok (ok, v') ∧ After s t v' s'
  | .run op => ∃ alive v', (s.current t).step m op = .ok (alive, v') ∧ After s t v' s'
  | .kernelFault esp faultAddr write => ∃ alive v',
      (s.current t).pageFault m esp faultAddr false write = .ok (alive, v') ∧ After s t v' s'
  | .supFreeTable => ∃ v', (s.current t).supFreeTable m = .ok v' ∧ After s t v' s'
  | .processExit => ∃ v', (s.current t).pagedirDestroy m = .ok v' ∧
      After s t { v' with toProcess := .empty } s'
  | .closeFds => After s t { s.kernel with toProcess := .empty } s'
  | _ => Untouched s t s'

/-- **Inversion.**  What a step does to the memory is what the function that the thread has called
does. -/
theorem memEffect_of_step (h : s.step m elf (t, a) = some s') : MemEffect m elf s t a s' := by
  unfold step at h
  cases ht : s.threads t with
  | none =>
    cases a with
    | exec inode =>
      simp only [ht, exec] at h
      refine ⟨ht, ?_⟩
      cases helf : elf (s.ft.contents inode) with
      | none =>
        simp only [helf, some.injEq] at h
        subst h
        refine ⟨rfl, ?_, fun t' ht' => update_of_ne ht' ..⟩
        rw [tables_setThread, tables, ht]
        rfl
      | some phdrs =>
        simp only [helf, bind_eq_bind, bind_eq_some_iff] at h
        obtain ⟨ft, -, h⟩ := h
        obtain ⟨ok, v, hload, haft⟩ := commitResult_after h
        exact ⟨ft, ok, v, hload, haft.kernel, haft.tables, haft.others⟩
    | _ =>
      simp [ht] at h
  | some th =>
    rw [ht] at h
    simp only [ite_none_right_eq_some] at h
    obtain ⟨-, h⟩ := h
    have hcur := current_eq ht
    cases a with
    | exec inode => cases h
    | run | kernelFault =>
      obtain ⟨alive, v, hstep, haft⟩ := commitResult_after h
      exact ⟨alive, v, by rw [hcur, hstep], haft⟩
    | openFile inode =>
      cases h
      exact Untouched.setThread ht { th with
        fds := th.fds ++ [⟨newFd th.fds, s.ft.next⟩] } rfl _
    | closeFile | readFile | writeFile | seekFile => exact withFd_untouched ht h
    | removeFile inode =>
      cases h
      exact ⟨rfl, rfl, fun _ _ => rfl⟩
    | exit =>
      cases h
      exact Untouched.setThread ht { th with phase := .exiting } rfl s.ft
    | supFreeTable =>
      simp only [threadStep, bind_eq_bind, bind_eq_some_iff] at h
      obtain ⟨v, hv, h⟩ := h
      exact ⟨v, by rw [hcur]; exact eq_ok_of_toOption hv, commit_after h⟩
    | processExit =>
      simp only [threadStep, bind_eq_bind, bind_eq_some_iff, some.injEq] at h
      obtain ⟨v, hv, ft, -, rfl⟩ := h
      exact ⟨v, by rw [hcur]; exact eq_ok_of_toOption hv, ⟨_, rfl⟩, tables_setThread ..,
        fun t' ht' => update_of_ne ht' ..⟩
    | closeFds =>
      simp only [threadStep, bind_eq_bind, bind_eq_some_iff, some.injEq] at h
      obtain ⟨ft, -, rfl⟩ := h
      exact ⟨⟨_, rfl⟩, by simp [tables], fun t' ht' => update_of_ne ht' ..⟩

end System

/-- A machine on which no thread runs yet, with files of nine bytes. -/
def smallSystem : System Bool where
  kernel := { smallProcess with toProcess := .empty, lastMapid := 0 }
  ft := ⟨fun _ => none, 0, fun _ => ⟨0, 0, false⟩, fun _ => [1, 2, 3, 4, 5, 6, 7, 8, 9]⟩
  threads _ := none

/-- Every file is an executable with one segment. -/
def smallElf (_ : List UInt8) : Option (List (Option Phdr)) :=
  some [some ⟨.load, 0, 4096, 9, 9, true⟩]

end Pintos.Vm
