import Pintos.Vm.Evolution
import Pintos.Vm.Unmapping

/-! # Growth of the stack

The handler of page faults decides from the stack pointer and the number of stack pages, and not from
the address of the fault, whether to extend the stack.

* **Growth.**  The pages that the loop comes to are those of `Grown`, and it maps the ones that are not
  mapped yet (`growStack_extends`).
* **Accesses.**  After the stack has been extended the access is tried again, and then the page is
  loaded or the process killed (`Inv.accessed`).
* **The rule.**  An access that faults should be served with a new page exactly if the address is at
  most 32 bytes below the stack pointer and in the region of the stack (`Served`).  `Fits` are the
  states, stack pointers and addresses for which it is so. -/

namespace Pintos.Vm.State
open Outcome

variable {m : Machine} {v w w' : State} {p esp vaddr : ℕ} {write : Bool}

/-! ### The pages of the loop -/

/-- The pages that the loop comes to for the stack pointer `esp` if the stack has `np` pages. -/
def Grown (m : Machine) (np esp : ℕ) : Set ℕ :=
  {p | p + np < m.physBase ∧ m.physBase ≤ p + m.maxPages ∧ esp ≤ (p + 1) * PGSIZE + 32}

/-- The pages of `X` are mapped now, and no others are new. -/
structure Extends (X : Set ℕ) (v w : State) : Prop where
  mapped : ∀ {p}, p ∈ X → (w.sup p).isSome
  new : ∀ {p e}, v.sup p = none → w.sup p = some e →
    p ∈ X ∧ e.allZero = true ∧ e.writable = true

theorem Extends.trans (h : Extends X v w) (h' : Extends Y w w') (hw : Keeps w w') :
    Extends (X ∪ Y) v w' where
  mapped := by
    rintro p (hp | hp)
    · obtain ⟨e, he⟩ := Option.isSome_iff_exists.mp (h.mapped hp)
      obtain ⟨e', he', -⟩ := hw.mapped he
      rw [he']
      rfl
    · exact h'.mapped hp
  new {p e} hp hp' := by
    cases hmid : w.sup p with
    | none =>
      obtain ⟨hin, henr⟩ := h'.new hmid hp'
      exact ⟨.inr hin, henr⟩
    | some e1 =>
      obtain ⟨hin, hzero, hwrt⟩ := h.new hp hmid
      obtain ⟨e2, hp2, ⟨_, _, _, rfl⟩, -⟩ := hw.mapped hmid
      cases Option.mem_unique hp2 hp'
      exact ⟨.inl hin, hzero, hwrt⟩

theorem extends_empty (h : ∀ p, v.sup p = none → w.sup p = none) : Extends ∅ v w :=
  ⟨fun hp => hp.elim, fun hp hp' => by cases (h _ hp).symm.trans hp'⟩

theorem supAllocAllZeros_isSome (v : State) (halg : vaddr % PGSIZE = 0) :
    Meets Any (fun x => (x.2.sup (vaddr / PGSIZE)).isSome ∧
      (x.1 = true → ∃ e, x.2.sup (vaddr / PGSIZE) = some e ∧ e.writable = true))
      (v.supAllocAllZeros m vaddr user) := by
  refine (getFrame_goes m user v).bind ?_
  rintro ⟨f, w⟩ -
  dsimp only
  rw [if_neg (fun hne => hne halg)]
  split_ifs with hsome
  · refine (freeFrame_goes m user w f).bind fun u hu => ⟨?_, nofun⟩
    rw [hu.2]
    exact hsome
  · unfold pagedirSetPage
    split_ifs
    · simp [supSetEntry]
    · exact trivial

/-- One round of the loop. -/
theorem Inv.supAllocAllZeros_extends (h : Inv m v none) (hpool : ∃ f, m.userFrame f = true)
    (hlt : p < m.physBase) :
    Meets (SwapTooSmall m) (fun x => Inv m x.2 none ∧ Keeps v x.2 ∧ Extends {p} v x.2 ∧
      x.2.numStackPages = v.numStackPages) (v.supAllocAllZeros m (p * PGSIZE) true) := by
  have hdiv : p * PGSIZE / PGSIZE = p := Nat.mul_div_cancel _ (by decide)
  refine ((h.supAllocAllZeros hpool (by rwa [hdiv])).and
    (supAllocAllZeros_isSome v (Nat.mul_mod_left _ _))).mono ?_
  rw [hdiv]
  rintro ⟨ok, w⟩ ⟨⟨hw, ⟨-, hmvd, hrest⟩ | ⟨hok, hzero⟩⟩, hsome, henr⟩
  · refine ⟨hw, hmvd.keeps hrest.files, ⟨?_, fun hq hq' => ?_⟩, hrest.numStackPages⟩
    · rintro _ rfl
      exact hsome
    · cases (hmvd.unmapped (Set.notMem_empty _) hq).symm.trans hq'
  · refine ⟨hw, hzero.keeps, ⟨?_, fun {q e} hq hq' => ?_⟩, hzero.rest.numStackPages⟩
    · rintro _ rfl
      exact hsome
    · by_cases hqp : q = p
      · subst hqp
        obtain ⟨e1, hp1, hzero, -⟩ := hzero.after
        obtain ⟨e2, hp2, hwrt⟩ := henr hok
        cases Option.mem_unique hp1 hq'
        cases Option.mem_unique hp2 hq'
        exact ⟨rfl, hzero, hwrt⟩
      · cases (hzero.moved.unmapped hqp hq).symm.trans hq'

theorem grown_eq_empty {np : ℕ} (h : ¬ ((esp : ℤ) - (m.physBase * PGSIZE - np * PGSIZE) ≤ 32 ∧
    np < m.maxPages)) : Grown m np esp = ∅ := by
  ext p
  simp only [Grown, Set.mem_ofPred_eq, Set.mem_empty_iff_false, iff_false]
  rw [PGSIZE_eq] at *
  omega

theorem grown_succ {np : ℕ} (h : (esp : ℤ) - (m.physBase * PGSIZE - np * PGSIZE) ≤ 32)
    (hlt : np < m.maxPages) : Grown m np esp = {m.physBase - (np + 1)} ∪ Grown m (np + 1) esp := by
  have hmax := m.maxPages_le
  ext p
  simp only [Grown, Set.mem_ofPred_eq, Set.mem_union, Set.mem_singleton_iff]
  rw [PGSIZE_eq] at *
  omega

/-- The loop that extends the stack. -/
theorem growStack_extends (hpool : ∃ f, m.userFrame f = true) {fuel : ℕ} (h : Inv m v none)
    (hfuel : m.maxPages ≤ v.numStackPages + fuel) :
    Meets (SwapTooSmall m) (fun w => Inv m w none ∧ Keeps v w ∧ w.mayGrow m esp = false ∧
      Extends (Grown m v.numStackPages esp) v w) (v.growStack m esp fuel) := by
  induction fuel generalizing v with
  | zero =>
    have hnp : ¬ v.numStackPages < m.maxPages := by omega
    simp only [growStack, hnp, decide_false, Bool.and_false]
    rw [grown_eq_empty fun hc => hnp hc.2]
    exact ⟨h, .refl v, by simp [mayGrow, hnp], extends_empty fun _ => id⟩
  | succ fuel ih =>
    rw [growStack]
    split_ifs with hcond
    · simp only [nearEnd, Bool.and_eq_true, decide_eq_true_eq] at hcond
      have hmax := m.maxPages_le
      refine (h.supAllocAllZeros_extends hpool (by omega)).bind ?_
      rintro ⟨_, w⟩ ⟨hw, hkps, hext, hnp⟩
      dsimp only at hw hkps hext hnp
      refine (ih (hw.numStackPages _) (by dsimp only; omega)).mono ?_
      rintro w' ⟨hw', hkps', hno, hext'⟩
      have hcou : Keeps w { w with numStackPages := w.numStackPages + 1 } :=
        .of_eq rfl rfl rfl rfl
      have hstep := hcou.trans hkps'
      refine ⟨hw', hkps.trans hstep, hno, ?_⟩
      rw [grown_succ hcond.1 hcond.2]
      rw [hnp] at hext'
      exact hext.trans ⟨hext'.mapped, hext'.new⟩ hstep
    · rw [Bool.and_eq_true, nearEnd, decide_eq_true_eq, decide_eq_true_eq] at hcond
      refine ⟨h, .refl v, ?_, ?_⟩
      · rw [mayGrow, nearEnd]
        simp only [Bool.and_eq_false_iff, decide_eq_false_iff_not]
        tauto
      · rw [grown_eq_empty hcond]
        exact extends_empty fun _ => id

/-! ### Accesses -/

/-- An access in a state in which the stack is large enough. -/
theorem Inv.access_of_not_grow (h : Inv m v none) (hpool : ∃ f, m.userFrame f = true)
    (hno : v.mayGrow m esp = false) (tries : ℕ) :
    Meets (SwapTooSmall m) (fun x => Inv m x.2 none ∧ Keeps v x.2 ∧ Extends ∅ v x.2 ∧
      if x.1 then x.2.permits m (vaddr / PGSIZE) write = true
      else ¬ Accessible m x.2 (vaddr / PGSIZE) write)
      (State.access m esp vaddr write (tries + 2) v) := by
  refine access_meets_of_not_grow
    (P := fun w => Inv m w none ∧ Keeps v w ∧ ∀ p, v.sup p = none → w.sup p = none)
    ?_ ?_ ?_ ⟨h, .refl v, fun _ => id⟩ hno
  · rintro w ⟨hw, hkps, hnone⟩ hflt hlt
    refine (hw.load_meets hpool hlt hflt).mono ?_
    rintro ⟨_ | _, w'⟩ hend
    · obtain ⟨rfl, hunl⟩ := hend
      exact ⟨hw, hkps, extends_empty hnone, hunl⟩
    · obtain ⟨hw', hkps', hnone', hprm⟩ := hend
      exact ⟨⟨hw', hkps.trans hkps', fun p hp => hnone' p (hnone p hp)⟩, hprm⟩
  · rintro w ⟨hw, hkps, hnone⟩ hle
    exact ⟨hw, hkps, extends_empty hnone, fun ha => absurd ha.1 (not_lt.mpr hle)⟩
  · rintro w ⟨hw, hkps, hnone⟩ hprm
    exact ⟨hw, hkps, extends_empty hnone, hprm⟩

/-- The pages that a fault adds to the stack. -/
def added (m : Machine) (v : State) (esp : ℕ) : Set ℕ :=
  {p | v.mayGrow m esp = true ∧ p ∈ Grown m v.numStackPages esp}

/-- What has come of an access that faulted: the stack has been extended, and then the access got
through if the process has the right to it. -/
structure Accessed (m : Machine) (v : State) (esp vaddr : ℕ) (write : Bool) (x : Bool × State) :
    Prop where
  inv : Inv m x.2 none
  keeps : Keeps v x.2
  extended : Extends (added m v esp) v x.2
  result : if x.1 then x.2.permits m (vaddr / PGSIZE) write = true
    else ¬ Accessible m x.2 (vaddr / PGSIZE) write

theorem Inv.accessed (esp : ℕ) (h : Inv m v none) (hpool : ∃ f, m.userFrame f = true)
    (hflt : v.permits m (vaddr / PGSIZE) write = false) :
    Meets (SwapTooSmall m) (Accessed m v esp vaddr write)
      (State.access m esp vaddr write 3 v) := by
  by_cases hgrow : v.mayGrow m esp = true
  · have had : added m v esp = Grown m v.numStackPages esp := by
      simp [added, hgrow]
    rw [State.access, if_neg (by simp [hflt]), pageFault, if_pos hgrow, bind_assoc]
    refine (growStack_extends hpool h (by omega)).bind ?_
    rintro w ⟨hw, hkps, hno, hext⟩
    refine (hw.access_of_not_grow hpool hno 0).mono ?_
    rintro x ⟨hx, hkps', hext', hend⟩
    have htrn := hext.trans hext' hkps'
    rw [Set.union_empty, ← had] at htrn
    exact ⟨hx, hkps.trans hkps', htrn, hend⟩
  · have had : added m v esp = ∅ := by
      simp [added, hgrow]
    refine (h.access_of_not_grow hpool (by simpa using hgrow) 1).mono ?_
    rintro x ⟨hx, hkps, hext, hend⟩
    exact ⟨hx, hkps, by rwa [had], hend⟩

/-! ### The rule -/

/-- The address is one of the stack: at most 32 bytes below the stack pointer, and in the region of
the stack. -/
def OfStack (m : Machine) (esp vaddr : ℕ) : Prop :=
  esp ≤ vaddr + 32 ∧ (m.physBase - m.maxPages) * PGSIZE ≤ vaddr ∧ vaddr < m.physBase * PGSIZE

instance (m : Machine) (esp vaddr : ℕ) : Decidable (OfStack m esp vaddr) :=
  inferInstanceAs (Decidable (_ ∧ _))

/-- The page `p` is in a frame, with the bytes of `page`. -/
def InFrame (v : State) (p : ℕ) (page : Page) : Prop :=
  (v.pagedir p).present = true ∧ SamePage (v.mem (v.pagedir p).frame) page

/-- What should come of an access that faults. -/
def Served (m : Machine) (v : State) (esp vaddr : ℕ) (x : Bool × State) : Prop :=
  match v.sup (vaddr / PGSIZE) with
  | some e => x.1 = true ∧ InFrame x.2 (vaddr / PGSIZE) (v.content e)
  | none =>
    if OfStack m esp vaddr then x.1 = true ∧ InFrame x.2 (vaddr / PGSIZE) fun _ => 0
    else x.1 = false ∧ ∀ p, v.sup p = none → x.2.sup p = none

/-- What does come of it is what should. -/
def Fits (m : Machine) (v : State) (esp vaddr : ℕ) (write : Bool) : Prop :=
  match v.sup (vaddr / PGSIZE) with
  | some e => vaddr / PGSIZE < m.physBase ∧ (write = true → e.writable = true)
  | none =>
    if OfStack m esp vaddr then
      v.mayGrow m esp = true ∧ vaddr / PGSIZE + v.numStackPages < m.physBase
    else v.mayGrow m esp = true → ∀ p ∈ Grown m v.numStackPages esp, (v.sup p).isSome

theorem Inv.inFrame (h : Inv m v none) (hp : v.permits m p write = true)
    (he : v.sup p = some e) : InFrame v p (v.content e) := by
  obtain ⟨-, e', f, he', hf, hfra, -⟩ := h.entry_of_permits hp
  cases Option.mem_unique he he'
  refine ⟨?_, ?_⟩
  · rw [h.present, frameOf_eq he, hf]
    rfl
  · rw [content_of_frame hf, hfra]
    exact .refl _

theorem ofStack_grown (h : OfStack m esp vaddr) (hlt : vaddr / PGSIZE + np < m.physBase) :
    vaddr / PGSIZE ∈ Grown m np esp := by
  obtain ⟨hesp, hrgn, -⟩ := h
  simp only [Grown, Set.mem_ofPred_eq]
  rw [PGSIZE_eq] at *
  omega

section
variable {x : Bool × State} (h : Accessed m v esp vaddr write x)
include h

theorem Accessed.eq_true (ha : Accessible m x.2 (vaddr / PGSIZE) write) : x.1 = true := by
  by_contra hno
  have hend := h.result
  rw [if_neg hno] at hend
  exact hend ha

theorem Accessed.permits (hok : x.1 = true) : x.2.permits m (vaddr / PGSIZE) write = true := by
  have hend := h.result
  rwa [if_pos hok] at hend

/-- The condition is enough. -/
theorem Fits.served (hfits : Fits m v esp vaddr write) : Served m v esp vaddr x := by
  unfold Fits at hfits
  unfold Served
  cases hp : v.sup (vaddr / PGSIZE) with
  | some e =>
    rw [hp] at hfits
    have hok := h.eq_true (Accessible.of_keeps h.keeps ⟨hfits.1, e, hp, hfits.2⟩)
    obtain ⟨e', hp', -, hbyt⟩ := h.keeps.mapped hp
    obtain ⟨hprs, hsame⟩ := h.inv.inFrame (h.permits hok) hp'
    exact ⟨hok, hprs, hsame.trans hbyt⟩
  | none =>
    rw [hp] at hfits
    split_ifs at hfits ⊢ with hstc
    · have hin : vaddr / PGSIZE ∈ added m v esp := ⟨hfits.1, ofStack_grown hstc hfits.2⟩
      obtain ⟨e, he⟩ := Option.isSome_iff_exists.mp (h.extended.mapped hin)
      obtain ⟨-, hzero, hwrt⟩ := h.extended.new hp he
      have hok := h.eq_true ⟨by omega, e, he, fun _ => hwrt⟩
      obtain ⟨hprs, hsame⟩ := h.inv.inFrame (h.permits hok) he
      have hbyt := h.keeps.added hp he
      rw [initial_of_allZero hzero] at hbyt
      exact ⟨hok, hprs, hsame.trans hbyt⟩
    · have hnone : ∀ p, v.sup p = none → x.2.sup p = none := by
        intro p hp
        by_contra hne
        obtain ⟨e, he⟩ := Option.ne_none_iff_exists'.mp hne
        obtain ⟨⟨hgrow, hin⟩, -⟩ := h.extended.new hp he
        have hsome := hfits hgrow p hin
        simp [hp] at hsome
      refine ⟨?_, hnone⟩
      by_contra hok
      obtain ⟨-, e, f, he, -⟩ := h.inv.entry_of_permits (h.permits (by simpa using hok))
      cases (hnone _ hp).symm.trans he

theorem Served.fits (hsrv : Served m v esp vaddr x) : Fits m v esp vaddr write := by
  unfold Served at hsrv
  unfold Fits
  cases hp : v.sup (vaddr / PGSIZE) with
  | some e =>
    rw [hp] at hsrv
    obtain ⟨hlt, e', f, hp', -, -, hwrt⟩ := h.inv.entry_of_permits (h.permits hsrv.1)
    obtain ⟨e1, hp1, ⟨_, _, _, rfl⟩, -⟩ := h.keeps.mapped hp
    cases Option.mem_unique hp1 hp'
    exact ⟨hlt, hwrt⟩
  | none =>
    rw [hp] at hsrv
    split_ifs at hsrv ⊢ with hstc
    · obtain ⟨-, e, f, he, -⟩ := h.inv.entry_of_permits (h.permits hsrv.1)
      obtain ⟨⟨hgrow, hin⟩, -⟩ := h.extended.new hp he
      exact ⟨hgrow, hin.1⟩
    · intro hgrow p hin
      by_contra hnone
      have hsome := h.extended.mapped ⟨hgrow, hin⟩
      simp [hsrv.2 p (by simpa using hnone)] at hsome

end

end Pintos.Vm.State

namespace Pintos.Vm
open Outcome

open State in
/-- **The stack.**  In every run of a process, an access that faults is served as it should be exactly
if `Fits` holds.  (That it is not otherwise takes enough swap.) -/
theorem stack_rule_iff (m : Machine) (hpool : ∃ f, m.userFrame f = true) (v₀ : State)
    (h₀ : Image m v₀) (hfiles : Bounded m v₀.files) (ops : List Op) (v : State)
    (hrun : exec m ops v₀ = .ok (true, v)) (esp vaddr : ℕ) (write : Bool)
    (hfault : v.permits m (vaddr / PGSIZE) write = false) :
    (Fits m v esp vaddr write →
        Meets (SwapTooSmall m) (Served m v esp vaddr) (access m esp vaddr write 3 v)) ∧
      (m.pages ≤ m.numSlots →
        Meets (SwapTooSmall m) (Served m v esp vaddr) (access m esp vaddr write 3 v) →
        Fits m v esp vaddr write) := by
  have hv := ((h₀.inv.exec_bounded hpool hfiles ops).of_eq_ok hrun).1
  have hends := hv.accessed esp hpool hfault
  refine ⟨fun hfits => hends.mono fun x hx => hfits.served hx, fun hswap hsrv => ?_⟩
  cases hx : access m esp vaddr write 3 v with
  | error e =>
    have hsml := hends.of_eq_error hx
    exact absurd hsml.2 (Nat.not_lt.mpr hswap)
  | ok x => exact (hsrv.of_eq_ok hx).fits (hends.of_eq_ok hx)

open State in
/-- A word is pushed when the first page of the stack is full. -/
theorem stack_rule_iff_push :
    ∃ v, exec smallMachine [.setupStack] smallProcess = .ok (true, v) ∧
      Meets (SwapTooSmall smallMachine) (Served smallMachine v 20480 20476)
        (access smallMachine 20480 20476 true 3 v) := by
  have hrun : (exec smallMachine [.setupStack] smallProcess).toOption.map (fun x =>
      (x.1, x.2.permits smallMachine 4 true, (x.2.sup 4).isNone, x.2.mayGrow smallMachine 20480,
        x.2.numStackPages)) = some (true, false, true, true, 1) := by decide +kernel
  obtain ⟨⟨ok, v⟩, heq, hend⟩ := eq_ok_of_map hrun
  simp only [Prod.mk.injEq, Option.isNone_iff_eq_none] at hend
  obtain ⟨rfl, hflt, hnone, hgrow, hpgs⟩ := hend
  refine ⟨v, heq, (stack_rule_iff smallMachine ⟨260, by decide +kernel⟩ smallProcess image_smallProcess
    bounded_smallProcess [.setupStack] v heq 20480 20476 true hflt).1 ?_⟩
  have hpage : v.sup (20476 / PGSIZE) = none := hnone
  rw [Fits, hpage]
  dsimp only
  rw [if_pos (by decide), hpgs]
  exact ⟨hgrow, by decide⟩

open State in
/-- The stack pointer is 16 bytes above the end of the stack, and an access 4096 bytes below it gets
through. -/
theorem far_access_gets_page :
    ∃ v, exec smallMachine [.setupStack] smallProcess = .ok (true, v) ∧
      v.permits smallMachine (16400 / PGSIZE) false = false ∧ v.sup (16400 / PGSIZE) = none ∧
      ¬ Meets (SwapTooSmall smallMachine) (Served smallMachine v 20496 16400)
        (access smallMachine 20496 16400 false 3 v) := by
  have hrun : (exec smallMachine [.setupStack] smallProcess).toOption.map (fun x =>
      (x.1, x.2.permits smallMachine 4 false, (x.2.sup 4).isNone,
        (access smallMachine 20496 16400 false 3 x.2).toOption.map Prod.fst)) =
      some (true, false, true, some true) := by decide +kernel
  obtain ⟨⟨ok, v⟩, heq, hend⟩ := eq_ok_of_map hrun
  simp only [Prod.mk.injEq, Option.isNone_iff_eq_none] at hend
  obtain ⟨rfl, hflt, hnone, hacs⟩ := hend
  have hpage : v.sup (16400 / PGSIZE) = none := hnone
  refine ⟨v, heq, hflt, hpage, fun hmts => ?_⟩
  obtain ⟨x, hx, hok⟩ := eq_ok_of_map hacs
  have hsrv := hmts.of_eq_ok hx
  rw [Served, hpage] at hsrv
  dsimp only at hsrv
  rw [if_neg (by decide)] at hsrv
  cases hsrv.1.symm.trans hok

end Pintos.Vm
