import Pintos.Vm.Steps

/-! # User pages and the user pool

`get_frame` takes a frame from the user pool and puts it on the clock list if it is told that the
page is for the user.  What it is told is where the fault was raised.

* **In user mode.**  As long as no page is loaded by a fault that was raised in the kernel, all pages
  of all processes are in frames of the user pool that are on the clock list, and no page takes a
  frame from the kernel.
* **In the kernel.**  A page that a system call touches first takes a frame of the kernel pool, which
  is never evicted. -/

namespace Pintos.Vm
open Bytes Outcome Runs

namespace System

variable {T : Type} {m : Machine} {elf : List UInt8 → Option (List (Option Phdr))}
  {s₀ s s' : System T} {t : T}

/-- The pages of all processes are in frames of the user pool, which can be evicted, and the kernel
has all its frames. -/
structure InUserPool (m : Machine) (s₀ s : System T) : Prop where
  frames : ∀ t p, ((s.tables t).pagedir p).present = true →
    m.userFrame ((s.tables t).pagedir p).frame = true ∧
      ((s.tables t).pagedir p).frame ∈ s.kernel.lru
  kernelPool : ∀ f, m.userFrame f = false → s.kernel.used f = true → s₀.kernel.used f = true
  /-- A request of the kernel that could be met at the start need not evict a page. -/
  kernelFrame : (s₀.kernel.pallocGetPage m false).isSome = true →
    (s.kernel.pallocGetPage m false).isSome = true

/-- A fault that is raised in the kernel loads no page. -/
def LoadsInUserMode (m : Machine) (s : System T) (a : T × Action) : Prop :=
  match a.2 with
  | .kernelFault esp faultAddr write => (s.current a.1).loads m esp faultAddr write = false
  | _ => True

instance (m : Machine) (s : System T) : (a : T × Action) → Decidable (LoadsInUserMode m s a)
  | (t, .kernelFault esp faultAddr write) =>
    inferInstanceAs (Decidable ((s.current t).loads m esp faultAddr write = false))
  | (_, .exec _) | (_, .run _) | (_, .openFile _) | (_, .closeFile _) | (_, .readFile _ _)
  | (_, .writeFile _ _) | (_, .seekFile _ _) | (_, .removeFile _) | (_, .exit)
  | (_, .supFreeTable) | (_, .processExit) | (_, .closeFds) => inferInstanceAs (Decidable True)

theorem isSome_pallocGetPage {v v' : State}
    (h : ∀ f, m.userFrame f = false → v'.used f = true → v.used f = true)
    (hsome : (v.pallocGetPage m false).isSome = true) :
    (v'.pallocGetPage m false).isSome = true := by
  simp only [State.pallocGetPage, Option.isSome_map, List.find?_isSome, Bool.and_eq_true] at hsome ⊢
  obtain ⟨i, hi, ⟨hvalid, huser⟩, hfree⟩ := hsome
  refine ⟨i, hi, ⟨hvalid, huser⟩, ?_⟩
  by_contra hused
  simp [h i (by simp_all [Machine.userFrame]) (by simpa using hused)] at hfree

variable [DecidableEq T]

/-- A step of `t`: frames stay on the clock list, and its pages are brought into frames of the user
pool that are on the list. -/
theorem occupies_of_step (hok : LoadsInUserMode m s (t, a)) (h : s.step m elf (t, a) = some s') :
    ∃ v', After s t v' s' ∧ State.Occupies m true (s.current t) v' := by
  have hsame : Untouched s t s' → ∃ v', After s t v' s' ∧
      State.Occupies m true (s.current t) v' := fun hu =>
    ⟨{ s.kernel with toProcess := s.tables t }, ⟨⟨_, hu.kernel⟩, hu.tables, hu.others⟩,
      fun _ => id, fun _ _ _ => id, fun _ _ hp => .inl ⟨hp, rfl⟩⟩
  have heff := memEffect_of_step h
  cases a with
  | exec inode =>
    obtain ⟨-, heff⟩ := heff
    split at heff
    · exact hsame heff
    · obtain ⟨ft, ok, v', hload, ha⟩ := heff
      obtain ⟨w, P, hmaps, -, hgoes⟩ := (State.load_maps m _ inode _).of_eq_ok hload
      have hev := hmaps.evolves.trans hgoes.evolves
      refine ⟨v', ha, hev.listed, hev.pool, fun hu p hp => ?_⟩
      exact (hev.present hu p hp).imp (fun hprs => (Bool.false_ne_true hprs.1).elim) id
  | run op =>
    obtain ⟨alive, v', hstep, ha⟩ := heff
    exact ⟨v', ha, ((State.step_evolves m _ op).of_eq_ok hstep).toOccupies⟩
  | kernelFault esp faultAddr write =>
    obtain ⟨alive, v', hflt, ha⟩ := heff
    exact ⟨v', ha, ((State.pageFault_goes_of_not_loads hok).of_eq_ok hflt).evolves.toOccupies⟩
  | supFreeTable =>
    obtain ⟨v', hfree, ha⟩ := heff
    exact ⟨v', ha, ((State.unmapPages_drops m _ _ fun _ => rfl).of_eq_ok hfree).1.toOccupies⟩
  | processExit =>
    obtain ⟨v', hdes, ha⟩ := heff
    obtain ⟨hused, hlru, -⟩ := (State.pagedirDestroy_occupies m _).of_eq_ok hdes
    exact ⟨_, ha, fun f hf => hlru.symm ▸ hf, fun _ f _ hf => hused f hf,
      fun _ p hp => (Bool.false_ne_true hp).elim⟩
  | closeFds =>
    exact ⟨_, heff, fun _ => id, fun _ _ _ => id, fun _ p hp => (Bool.false_ne_true hp).elim⟩
  | openFile | closeFile | readFile | writeFile | seekFile | removeFile | exit => exact hsame heff

theorem InUserPool.step {a : T × Action} (hs : InUserPool m s₀ s) (hok : LoadsInUserMode m s a)
    (h : s.step m elf a = some s') : InUserPool m s₀ s' := by
  obtain ⟨t, a⟩ := a
  obtain ⟨v', ⟨⟨proc, hkrn⟩, htal, hote⟩, hocc⟩ := occupies_of_step hok h
  have hpool : ∀ f, m.userFrame f = false → s'.kernel.used f = true → s₀.kernel.used f = true := by
    intro f hf hused
    rw [hkrn] at hused
    exact hs.kernelPool f hf (hocc.pool rfl f hf hused)
  refine ⟨fun t' p hp => ?_, hpool, isSome_pallocGetPage hpool⟩
  rw [hkrn]
  by_cases ht : t' = t
  · subst ht
    rw [htal] at hp ⊢
    rcases hocc.present rfl p hp with ⟨hprs, hfra⟩ | hin
    · rw [hfra]
      obtain ⟨huser, hlst⟩ := hs.frames t' p hprs
      exact ⟨huser, hocc.listed _ hlst⟩
    · exact hin
  · rw [tables, hote t' ht] at hp ⊢
    obtain ⟨huser, hlst⟩ := hs.frames t' p hp
    exact ⟨huser, hocc.listed _ hlst⟩

/-- **User pages are in the user pool.**  In every run in which no fault that is raised in the kernel
loads a page, all pages of all processes are in frames of the user pool that are on the clock list,
and no frame of the kernel is taken. -/
theorem user_pages_in_user_pool (m : Machine) (elf : List UInt8 → Option (List (Option Phdr)))
    (s₀ : System T) (h₀ : ∀ t, s₀.threads t = none) (s : System T)
    (h : Reaches (step m elf) (LoadsInUserMode m) s₀ s) : InUserPool m s₀ s := by
  refine h.invariant ⟨fun t p hp => ?_, fun _ _ hf => hf, id⟩
    fun _ _ _ hs hok hstep => hs.step hok hstep
  rw [tables, h₀ t] at hp
  exact (Bool.false_ne_true hp).elim

/-- A process reads its segment and then makes a system call that touches the same page. -/
theorem user_pages_in_user_pool_read : ∃ s,
    Reaches (step smallMachine smallElf) (LoadsInUserMode smallMachine) smallSystem s ∧
      ((s.tables true).pagedir 1).present = true ∧ ((s.tables true).pagedir 1).frame = 261 ∧
      InUserPool smallMachine smallSystem s := by
  have heval : (Runs.exec (step smallMachine smallElf) (LoadsInUserMode smallMachine) smallSystem
      [(true, .exec 0), (true, .run (.read 0 4096)), (true, .kernelFault 0 4100 true)]).map
        (fun s => (((s.tables true).pagedir 1).present, ((s.tables true).pagedir 1).frame)) =
      some (true, 261) := by decide +kernel
  obtain ⟨s, hs, he⟩ := Option.map_eq_some_iff.mp heval
  obtain ⟨hprs, hfra⟩ := Prod.mk.inj he
  have hrch := reaches_of_exec hs
  exact ⟨s, hrch, hprs, hfra,
    user_pages_in_user_pool smallMachine smallElf smallSystem (fun _ => rfl) s hrch⟩

/-- A process makes a system call that touches a page of its segment which has not been loaded: the
page takes a frame of the kernel, which is not on the clock list. -/
theorem kernel_frame_for_user_page : ∃ s,
    Reaches (step smallMachine smallElf) (fun _ _ => True) smallSystem s ∧
      ((s.tables true).pagedir 1).present = true ∧ ((s.tables true).pagedir 1).frame = 257 ∧
      smallMachine.user 257 = false ∧ 257 ∉ s.kernel.lru ∧
      ¬ InUserPool smallMachine smallSystem s := by
  have heval : (Runs.exec (step smallMachine smallElf) (fun _ _ => True) smallSystem
      [(true, .exec 0), (true, .kernelFault 0 4096 true)]).map
        (fun s => (((s.tables true).pagedir 1).present, ((s.tables true).pagedir 1).frame,
          s.kernel.lru)) = some (true, 257, [260]) := by decide +kernel
  obtain ⟨s, hs, he⟩ := Option.map_eq_some_iff.mp heval
  simp only [Prod.mk.injEq] at he
  obtain ⟨hprs, hfra, hlru⟩ := he
  refine ⟨s, reaches_of_exec hs, hprs, hfra, by decide +kernel, by rw [hlru]; decide,
    fun hpool => ?_⟩
  have huser := (hpool.frames true 1 hprs).1
  rw [hfra] at huser
  exact absurd huser (by decide +kernel)

end System

end Pintos.Vm
