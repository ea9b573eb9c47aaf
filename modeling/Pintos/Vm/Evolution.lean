import Pintos.Vm.Transparency

/-! # What the functions do in any state

When several processes share the memory, the tables of one of them need not agree with the frames:
`evict` looks only at the tables of the current thread.  What is said here of the functions of `vm`
holds in every state in which they return.

* **Evolving.**  Files to which writing is denied keep their bytes.  Frames stay on the clock list,
  and a page that a user-mode fault brings in is in a frame of the user pool (`Evolves`).
* **Retaining.**  Pages stay mapped, although they may be moved (`Retains`). -/

namespace Pintos.Vm.State
open Bytes Outcome Function Option State Vm.Process

variable {m : Machine} {user : Bool} {v w w' v' : State} {p f : ℕ} {e : SupEntry}

/-- Any reason to stop. -/
def Any (_ : Stop) : Prop := True

/-- A page that is in the page table is loaded and not in a slot. -/
def Mirrored (v : State) : Prop :=
  ∀ p, (v.pagedir p).present = true → ∃ e, v.sup p = some e ∧ e.loaded = true ∧ e.slot = none

/-- What happens to the frames.  They stay on the clock list; if there is no fault in the kernel, the
pages that are brought in are in frames of the user pool that are on the clock list. -/
structure Occupies (m : Machine) (user : Bool) (v v' : State) : Prop where
  listed : ∀ f ∈ v.lru, f ∈ v'.lru
  pool : user = true → ∀ f, m.userFrame f = false → v'.used f = true → v.used f = true
  present : user = true → ∀ p, (v'.pagedir p).present = true →
    ((v.pagedir p).present = true ∧ (v'.pagedir p).frame = (v.pagedir p).frame) ∨
    (m.userFrame (v'.pagedir p).frame = true ∧ (v'.pagedir p).frame ∈ v'.lru)

/-- What happens to the frames and the files. -/
structure Evolves (m : Machine) (user : Bool) (v v' : State) : Prop extends
    Occupies m user v v' where
  denyWrite : v'.denyWrite = v.denyWrite
  files : ∀ x, v.denyWrite x = true → v'.files x = v.files x

theorem Occupies.refl (v : State) : Occupies m user v v :=
  ⟨fun _ => id, fun _ _ _ => id, fun _ _ h => .inl ⟨h, rfl⟩⟩

theorem Occupies.trans (h : Occupies m user v w) (h' : Occupies m user w w') :
    Occupies m user v w' where
  listed f hf := h'.listed f (h.listed f hf)
  pool hu f hf hused := h.pool hu f hf (h'.pool hu f hf hused)
  present hu p hp := by
    rcases h'.present hu p hp with ⟨hpw, hfra⟩ | hpool
    · rcases h.present hu p hpw with ⟨hpv, hfra'⟩ | ⟨huser, hin⟩
      · exact .inl ⟨hpv, hfra.trans hfra'⟩
      · rw [hfra]
        exact .inr ⟨huser, h'.listed _ hin⟩
    · exact .inr hpool

theorem Evolves.refl (v : State) : Evolves m user v v := ⟨.refl v, rfl, fun _ _ => rfl⟩

theorem Evolves.trans (h : Evolves m user v w) (h' : Evolves m user w w') :
    Evolves m user v w' where
  toOccupies := h.toOccupies.trans h'.toOccupies
  denyWrite := h'.denyWrite.trans h.denyWrite
  files x hx := (h'.files x (by rw [h.denyWrite]; exact hx)).trans (h.files x hx)

/-- What happens to the pages of the current thread if none is unmapped, and no file is mapped. -/
structure Retains (m : Machine) (v v' : State) : Prop where
  kept : ∀ {p e}, v.sup p = some e → ∃ e', v'.sup p = some e' ∧ e'.Same e
  added : ∀ {p e'}, v.sup p = none → v'.sup p = some e' →
    e'.allZero = true ∧ e'.mapid = MAP_FAILED ∧ p < m.physBase
  mirrored : v.Mirrored → v'.Mirrored
  lastMapid : v'.lastMapid = v.lastMapid

theorem Retains.refl (v : State) : Retains m v v :=
  ⟨fun {_ e} hp => ⟨e, hp, _, _, _, rfl⟩, fun hp hp' => (by cases hp.symm.trans hp'), id, rfl⟩

theorem Retains.trans (h : Retains m v w) (h' : Retains m w w') : Retains m v w' where
  kept hp := by
    obtain ⟨e1, hp1, _, _, _, rfl⟩ := h.kept hp
    obtain ⟨e2, hp2, _, _, _, rfl⟩ := h'.kept hp1
    exact ⟨_, hp2, _, _, _, rfl⟩
  added {p e'} hp hp' := by
    cases hw : w.sup p with
    | none => exact h'.added hw hp'
    | some e =>
      obtain ⟨e2, hp2, _, _, _, hsame⟩ := h'.kept hw
      cases mem_unique hp2 hp'
      rw [hsame]
      exact (h.added hp hw :)
  mirrored hv := h'.mirrored (h.mirrored hv)
  lastMapid := h'.lastMapid.trans h.lastMapid

/-- Both. -/
structure Goes (m : Machine) (user : Bool) (v v' : State) : Prop where
  evolves : Evolves m user v v'
  retains : Retains m v v'

theorem Goes.refl (v : State) : Goes m user v v := ⟨.refl v, .refl v⟩

theorem Goes.trans (h : Goes m user v w) (h' : Goes m user w w') : Goes m user v w' :=
  ⟨h.evolves.trans h'.evolves, h.retains.trans h'.retains⟩

theorem Goes.of_tables (hsup : v'.sup = v.sup)
    (hpte : ∀ p, (v'.pagedir p).present = (v.pagedir p).present ∧
      (v'.pagedir p).frame = (v.pagedir p).frame) (hlast : v'.lastMapid = v.lastMapid)
    (hfls : ∀ x, v.denyWrite x = true → v'.files x = v.files x)
    (hdeny : v'.denyWrite = v.denyWrite) (hlru : ∀ f ∈ v.lru, f ∈ v'.lru)
    (hused : user = true → ∀ f, m.userFrame f = false → v'.used f = true → v.used f = true) :
    Goes m user v v' := by
  refine ⟨⟨⟨hlru, hused, fun _ p hp => ?_⟩, hdeny, hfls⟩,
    ⟨fun {p e} hp => ⟨e, by rw [hsup, hp], _, _, _, rfl⟩, fun hp hp' => ?_, fun hv p hp => ?_,
      hlast⟩⟩
  · rw [(hpte p).1] at hp
    exact .inl ⟨hp, (hpte p).2⟩
  · rw [hsup] at hp'
    cases hp.symm.trans hp'
  · rw [(hpte p).1] at hp
    rw [hsup]
    exact hv p hp

/-! ### Frames -/

/-- What the last loop of `evict` does: pages are moved to the slot. -/
structure Redirects (v v' : State) : Prop where
  rest : ∃ sup pagedir, v' = { v with sup := sup, pagedir := pagedir }
  page : ∀ p, (v'.sup p = v.sup p ∧ v'.pagedir p = v.pagedir p) ∨
    ∃ e s, v.sup p = some e ∧ v'.sup p = some { e with slot := some s, frameNo := none } ∧
      (v'.pagedir p).present = false

theorem redirects_foldlM (victim newSwap : ℕ) (v : State) :
    Meets Any (Redirects v) ((List.range m.pages).foldlM (redirect m victim newSwap) v) := by
  refine (Meets.foldlM_range (I := fun n w => Redirects v w ∧
    ∀ p, n ≤ p → w.sup p = v.sup p ∧ w.pagedir p = v.pagedir p) ?_ _ ?_).mono fun w hw => hw.1
  · exact ⟨⟨⟨_, _, rfl⟩, fun p => .inl ⟨rfl, rfl⟩⟩, fun p _ => ⟨rfl, rfl⟩⟩
  · rintro n - w ⟨⟨⟨sup, pagedir, rfl⟩, hpage⟩, htodo⟩
    obtain ⟨hsup, hpte⟩ := htodo n (Nat.le_refl n)
    have hsame : Redirects v { v with sup, pagedir } ∧ ∀ p, n + 1 ≤ p →
        sup p = v.sup p ∧ pagedir p = v.pagedir p :=
      ⟨⟨⟨_, _, rfl⟩, hpage⟩, fun p hp => htodo p (by omega)⟩
    unfold redirect
    dsimp only
    cases hn : sup n with
    | none => exact hsame
    | some e =>
      dsimp only
      split_ifs with hf hs
      · unfold pagedirClearPage
        split_ifs
        · refine ⟨⟨⟨_, _, rfl⟩, fun p => ?_⟩, fun p hp => ?_⟩
          · by_cases hpn : p = n
            · subst hpn
              refine .inr ⟨e, newSwap, hsup ▸ hn, update_self .., ?_⟩
              simp
            · dsimp only
              rw [update_of_ne hpn, update_of_ne hpn]
              exact hpage p
          · have hpn : p ≠ n := by omega
            dsimp only
            rw [update_of_ne hpn, update_of_ne hpn]
            exact htodo p (by omega)
        · exact trivial
      · exact trivial
      · exact hsame

theorem Redirects.retains (h : Redirects v v') : Retains m v v' := by
  obtain ⟨sup, pagedir, hrest⟩ := h.rest
  refine ⟨fun {p e} hp => ?_, fun {p e'} hp hp' => ?_, fun hv p hp => ?_, by rw [hrest]⟩
  · rcases h.page p with ⟨hsup, -⟩ | ⟨e0, s, hp0, hp', -⟩
    · exact ⟨e, hsup.trans hp, _, _, _, rfl⟩
    · cases mem_unique hp0 hp
      exact ⟨_, hp', _, _, _, rfl⟩
  · rcases h.page p with ⟨hsup, -⟩ | ⟨e0, s, hp0, -⟩
    · cases hp.symm.trans (hsup.symm.trans hp')
    · cases hp.symm.trans hp0
  · rcases h.page p with ⟨hsup, hpte⟩ | ⟨-, -, -, -, habe⟩
    · rw [hpte] at hp
      rw [hsup]
      exact hv p hp
    · simp [habe] at hp

theorem evict_redirects (m : Machine) (user : Bool) (v : State) :
    Meets Any (fun x => user = true ∧ ∃ rest swapSlots swapBlock, v.lru = x.1 :: rest ∧
      (∃ s, v.swapSlots s = false ∧ swapSlots s = true) ∧
      Redirects { v with lru := rest, swapSlots, swapBlock } x.2)
      (v.evict m user) := by
  unfold evict clruEvict
  split_ifs with hno
  · exact trivial
  · have huser : user = true := by
      by_contra h
      exact hno (.inl (by simpa using h))
    cases hlru : v.lru with
    | nil => exact trivial
    | cons victim rest =>
      rw [ok_bind]
      unfold swapAlloc
      dsimp only
      split
      · rename_i newSwap hfree
        simp only [ok_bind, swapWrite, swapSlotToSector]
        split_ifs
        · exact (redirects_foldlM victim newSwap _).bind fun w hw =>
            ⟨huser, rest, _, _, rfl,
              ⟨newSwap, by simpa using List.find?_some hfree, update_self ..⟩, hw⟩
        · exact trivial
      · exact trivial

/-- No page is mapped or brought in. -/
def NoNew (v v' : State) : Prop :=
  ∀ p, (v.sup p = none → v'.sup p = none) ∧
    ((v'.pagedir p).present = true → (v.pagedir p).present = true)

theorem Redirects.noNew (h : Redirects v v') : NoNew v v' := by
  intro p
  rcases h.page p with ⟨hsup, hpte⟩ | ⟨e, s, hp, -, habe⟩
  · exact ⟨fun hp => hsup.trans hp, fun hp => by rwa [hpte] at hp⟩
  · exact ⟨fun hp' => (by cases hp.symm.trans hp'), fun hp' => (by cases habe.symm.trans hp')⟩

/-- The frame that `get_frame` returns. -/
theorem getFrame_goes (m : Machine) (user : Bool) (v : State) :
    Meets Any (fun x => Goes m user v x.2 ∧ x.2.numStackPages = v.numStackPages ∧
      (user = true → m.userFrame x.1 = true ∧ x.1 ∈ x.2.lru) ∧ NoNew v x.2)
      (v.getFrame m user) := by
  unfold getFrame
  cases hget : v.pallocGetPage m user with
  | some x =>
    obtain ⟨i, hfind, rfl⟩ := map_eq_some_iff.mp hget
    have hi := List.find?_some hfind
    simp only [Bool.and_eq_true, beq_iff_eq] at hi
    simp only [ok_bind]
    split_ifs with hok huser
    · subst huser
      have hpool : m.userFrame i = true := by simp [Machine.userFrame, hi]
      refine ⟨Goes.of_tables rfl (fun _ => ⟨rfl, rfl⟩) rfl (fun _ _ => rfl) rfl
        (fun f hf => List.mem_append_left _ hf) fun _ f hf hused => ?_, rfl,
        fun _ => ⟨hpool, by simp [clruEnqueue]⟩, fun _ => ⟨id, id⟩⟩
      have hne : f ≠ i := by
        rintro rfl
        simp [hpool] at hf
      simpa [clruEnqueue, update_of_ne hne] using hused
    · exact ⟨Goes.of_tables rfl (fun _ => ⟨rfl, rfl⟩) rfl (fun _ _ => rfl) rfl (fun _ => id)
        (fun hu => absurd hu huser), rfl, fun hu => absurd hu huser, fun _ => ⟨id, id⟩⟩
    · exact trivial
  | none =>
    refine (evict_redirects m user v).bind ?_
    rintro ⟨victim, w⟩ ⟨rfl, rest, slots, block, hlru, -, hw⟩
    obtain ⟨sup, pagedir, rfl⟩ := hw.rest
    dsimp only
    rw [ok_bind]
    simp only
    split_ifs with hok
    · have hpool : m.userFrame victim = true := by simp [Machine.userFrame, hok]
      have hin : ∀ f ∈ v.lru, f ∈ rest ++ [victim] := by
        intro f hf
        rw [hlru] at hf
        simpa [or_comm] using hf
      have hret := hw.retains (m := m)
      refine ⟨⟨⟨⟨hin, fun _ _ _ => id, fun _ p hp => ?_⟩, rfl, fun _ _ => rfl⟩,
        ⟨hret.kept, hret.added, hret.mirrored, rfl⟩⟩, rfl,
        fun _ => ⟨hpool, by simp [clruEnqueue]⟩, hw.noNew⟩
      rcases hw.page p with ⟨-, hpte⟩ | ⟨-, -, -, -, habe⟩
      · dsimp only [clruEnqueue] at hp hpte ⊢
        rw [hpte] at hp ⊢
        exact .inl ⟨hp, rfl⟩
      · cases habe.symm.trans hp
    · exact trivial

theorem freeFrame_goes (m : Machine) (user : Bool) (v : State) (f : ℕ) :
    Meets Any (fun w => Goes m user v w ∧ w.toProcess = v.toProcess) (v.freeFrame m f) := by
  unfold freeFrame pallocFreePage
  split_ifs
  · refine ⟨Goes.of_tables rfl (fun _ => ⟨rfl, rfl⟩) rfl (fun _ _ => rfl) rfl (fun _ => id)
      fun _ g _ hused => ?_, rfl⟩
    dsimp only at hused
    rw [update_apply] at hused
    split_ifs at hused
    exact hused
  · exact trivial
  · exact trivial

/-! ### Pages -/

/-- A page is entered in the page table, with a frame from `get_frame`. -/
theorem Goes.install (pte : Pte)
    (hfra : user = true → m.userFrame pte.frame = true ∧ pte.frame ∈ v.lru)
    (hold : ∀ e, v.sup p = some e → e'.Same e)
    (hnew : v.sup p = none → e'.allZero = true ∧ e'.mapid = MAP_FAILED ∧ p < m.physBase)
    (hld : e'.loaded = true) (hslot : e'.slot = none) (hsup : v'.sup = update v.sup p (some e'))
    (hpte : v'.pagedir = update v.pagedir p pte) (hlast : v'.lastMapid = v.lastMapid)
    (hfls : v'.files = v.files) (hdeny : v'.denyWrite = v.denyWrite) (hlru : v'.lru = v.lru)
    (hused : v'.used = v.used) : Goes m user v v' := by
  have hself : v'.sup p = some e' := by rw [hsup, update_self]
  have hoth : ∀ {q}, q ≠ p → v'.sup q = v.sup q ∧ v'.pagedir q = v.pagedir q := fun hq => by
    rw [hsup, hpte, update_of_ne hq, update_of_ne hq]
    exact ⟨rfl, rfl⟩
  refine ⟨⟨⟨fun f hf => by rwa [hlru], fun _ f _ hu => by rwa [hused] at hu, fun hu q hq => ?_⟩,
    hdeny, fun _ _ => by rw [hfls]⟩,
    ⟨fun {q e} hq => ?_, fun {q e} hq hq' => ?_, fun hv q hq => ?_, hlast⟩⟩
  · by_cases hqp : q = p
    · subst hqp
      rw [hpte, update_self, hlru]
      exact .inr (hfra hu)
    · rw [(hoth hqp).2] at hq ⊢
      exact .inl ⟨hq, rfl⟩
  · by_cases hqp : q = p
    · subst hqp
      exact ⟨e', hself, hold e hq⟩
    · exact ⟨e, (hoth hqp).1.trans hq, _, _, _, rfl⟩
  · by_cases hqp : q = p
    · subst hqp
      cases mem_unique hself hq'
      exact hnew hq
    · cases hq.symm.trans ((hoth hqp).1.symm.trans hq')
  · by_cases hqp : q = p
    · subst hqp
      exact ⟨e', hself, hld, hslot⟩
    · rw [(hoth hqp).2] at hq
      rw [(hoth hqp).1]
      exact hv q hq

theorem supAllocAllZeros_goes (m : Machine) (user : Bool) (v : State) (vaddr : ℕ) :
    Meets Any (fun x => Goes m user v x.2 ∧ x.2.numStackPages = v.numStackPages)
      (v.supAllocAllZeros m vaddr user) := by
  refine (getFrame_goes m user v).bind ?_
  rintro ⟨f, w⟩ ⟨hw, hstc, hfra, -⟩
  have hback : Meets Any (fun x : Bool × State => Goes m user v x.2 ∧
      x.2.numStackPages = v.numStackPages) (do
        let v ← w.freeFrame m f
        return (false, v)) :=
    (freeFrame_goes m user w f).bind fun u hu =>
      ⟨hw.trans hu.1, (congrArg numStackPages hu.2).trans hstc⟩
  dsimp only
  split_ifs with hofs hsome
  · exact hback
  · exact hback
  · unfold pagedirSetPage
    split_ifs with hlt
    · have hnone : w.sup (vaddr / PGSIZE) = none := by simpa using hsome
      exact ⟨hw.trans (Goes.install ⟨true, f, true, false, false⟩ hfra
        (fun e he => by cases hnone.symm.trans he) (fun _ => ⟨rfl, rfl, hlt.1⟩) rfl rfl rfl rfl rfl rfl rfl
        rfl rfl), hstc⟩
    · exact trivial

theorem supLoadPage_goes (m : Machine) (user write : Bool) (v : State) (vaddr : ℕ) :
    Meets Any (fun x => Goes m user v x.2 ∧ x.2.numStackPages = v.numStackPages)
      (v.supLoadPage m vaddr user write) := by
  unfold supLoadPage
  generalize vaddr / PGSIZE = p
  dsimp only
  cases hp : v.sup p with
  | none => exact ⟨.refl v, rfl⟩
  | some spe =>
    dsimp only
    split_ifs
    · exact ⟨.refl v, rfl⟩
    · exact ⟨.refl v, rfl⟩
    · refine (getFrame_goes m user v).bind ?_
      rintro ⟨f, w⟩ ⟨hw, hstc, hfra, -⟩
      have hold : ∀ {e' : SupEntry} {e}, e'.Same spe → w.sup p = some e → e'.Same e := by
        rintro _ e ⟨_, _, _, rfl⟩ he
        obtain ⟨e1, hp1, _, _, _, rfl⟩ := hw.retains.kept hp
        cases mem_unique hp1 he
        exact ⟨_, _, _, rfl⟩
      have hinl : ∀ {u : State} {e' : SupEntry}, u.toProcess = w.toProcess →
          u.lastMapid = w.lastMapid → u.files = w.files → u.denyWrite = w.denyWrite →
          u.lru = w.lru → u.used = w.used → e'.Same spe → e'.loaded = true → e'.slot = none →
          Meets Any (fun x : Bool × State => Goes m user v x.2 ∧
            x.2.numStackPages = v.numStackPages) (do
              let u ← u.pagedirSetPage m p f spe.writable
              return (true, u.supSetEntry p e')) := by
        intro u e' hproc hlast hfls hdeny hlru hused hsame hld hslot
        unfold pagedirSetPage
        split_ifs
        · refine ⟨hw.trans (Goes.install ⟨true, f, spe.writable, false, false⟩
            hfra (fun e he => hold hsame he) (fun hno => ?_) hld hslot ?_ ?_ hlast hfls
            hdeny hlru hused), ?_⟩
          · obtain ⟨e1, hp1, -⟩ := hw.retains.kept hp
            cases hno.symm.trans hp1
          · exact congrArg (fun g => update g p (some e')) (congrArg sup hproc)
          · exact congrArg (fun g => update g p ⟨true, f, spe.writable, false, false⟩)
              (congrArg pagedir hproc)
          · exact (congrArg numStackPages hproc).trans hstc
        · exact trivial
      cases hs : spe.slot with
      | none =>
        cases hread : w.frameRead spe.f f spe.pageEnd spe.fileOfs with
        | none => exact (freeFrame_goes m user w f).bind fun u hu =>
          ⟨hw.trans hu.1, (congrArg numStackPages hu.2).trans hstc⟩
        | some u =>
          obtain ⟨x, -, rfl⟩ := map_eq_some_iff.mp hread
          exact hinl rfl rfl rfl rfl rfl rfl ⟨_, _, _, rfl⟩ rfl rfl
      | some slot =>
        simp only [swapRead, swapSlotToSector, swapFree]
        split_ifs with hslot
        · simp only [ok_bind, pure, Except.pure, if_pos hslot]
          exact hinl rfl rfl rfl rfl rfl rfl ⟨_, _, _, rfl⟩ rfl rfl
        · exact trivial

/-! ### Faults and accesses -/

theorem Goes.numStackPages (h : Goes m user v w) (n : ℕ) :
    Goes m user v { w with numStackPages := n } :=
  h.trans (Goes.of_tables rfl (fun _ => ⟨rfl, rfl⟩) rfl (fun _ _ => rfl) rfl (fun _ => id) fun _ _ _ => id)

theorem Goes.touch (h : Goes m user v w) (p : ℕ) (accessed dirty : Bool) (mem : ℕ → Page) :
    Goes m user v { w with
      mem
      pagedir := update w.pagedir p
        { w.pagedir p with accessed, dirty } } := by
  refine h.trans (Goes.of_tables rfl (fun q => ?_) rfl (fun _ _ => rfl) rfl (fun _ => id)
    fun _ _ _ => id)
  dsimp only
  rw [update_apply]
  split_ifs with hq
  · subst hq
    exact ⟨rfl, rfl⟩
  · exact ⟨rfl, rfl⟩

theorem growStack_goes (esp fuel : ℕ) (hv : Goes m true w v)
    (hfuel : m.maxPages ≤ v.numStackPages + fuel) :
    Meets Any (Goes m true w) (v.growStack m esp fuel) :=
  (growStack_meets (fun v vaddr h _ => (supAllocAllZeros_goes m true v vaddr).mono fun _ hx =>
      ⟨h.trans hx.1, hx.2⟩)
    (fun _ n h => h.numStackPages n) hv hfuel).mono fun _ h => h.1

theorem Evolves.any (h : Evolves m true v w) : Evolves m user v w :=
  ⟨⟨h.listed, fun _ => h.pool rfl, fun _ => h.present rfl⟩, h.denyWrite, h.files⟩

theorem pageFault_goes (m : Machine) (v : State) (esp faultAddr : ℕ) (user write : Bool) :
    Meets Any (fun x => Goes m user v x.2) (v.pageFault m esp faultAddr user write) := by
  unfold pageFault
  split_ifs
  · exact (growStack_goes esp _ (.refl v) (by omega)).bind fun w hw =>
      ⟨hw.evolves.any, hw.retains⟩
  · exact .refl v
  · exact (supLoadPage_goes m user write v faultAddr).mono fun x hx => hx.1

/-- The handler loads a page. -/
def loads (m : Machine) (v : State) (esp faultAddr : ℕ) (write : Bool) : Bool :=
  !v.mayGrow m esp && (v.sup (faultAddr / PGSIZE)).any fun spe =>
    !(spe.loaded && spe.slot.isNone) && !(write && !spe.writable)

theorem pageFault_goes_of_not_loads {esp faultAddr : ℕ} {write : Bool}
    (hno : v.loads m esp faultAddr write = false) :
    Meets Any (fun x => Goes m true v x.2) (v.pageFault m esp faultAddr false write) := by
  unfold pageFault
  split_ifs with hgrow hkrn
  · exact (growStack_goes esp _ (.refl v) (by omega)).bind fun w hw => hw
  · exact .refl v
  · unfold supLoadPage
    cases hp : v.sup (faultAddr / PGSIZE) with
    | none =>
      dsimp only
      rw [hp]
      exact .refl v
    | some spe =>
      simp only [loads] at hno
      dsimp only
      rw [hp]
      dsimp only
      split_ifs with hld hwrt
      · exact .refl v
      · exact .refl v
      · cases hl : spe.loaded <;> cases hs : spe.slot <;> cases hw : write <;>
          cases hr : spe.writable <;> simp_all

theorem access_goes (m : Machine) (v : State) (esp vaddr : ℕ) (write : Bool) (tries : ℕ) :
    Meets Any (fun x => Goes m true v x.2) (access m esp vaddr write tries v) := by
  induction tries generalizing v with
  | zero => exact trivial
  | succ tries ih =>
    rw [access]
    split_ifs
    · exact .refl v
    · refine (pageFault_goes m v esp vaddr true write).bind ?_
      rintro ⟨_ | _, w⟩ hw
      · exact hw
      · exact (ih w).mono fun x hx => hw.trans hx

/-- What a process does, other than mapping and unmapping files. -/
theorem step_goes (m : Machine) (v : State) (op : Op) (hmap : ∀ vaddr file, op ≠ .mmap vaddr file)
    (hunm : ∀ id, op ≠ .munmap id) : Meets Any (fun x => Goes m true v x.2) (v.step m op) := by
  cases op with
  | setupStack => exact (supAllocAllZeros_goes m true v _).mono fun x hx => hx.1
  | read esp vaddr =>
    refine Meets.bind ?_ fun _ => id
    refine (access_goes m v esp vaddr false 3).bind ?_
    rintro ⟨_ | _, w⟩ hw
    · exact hw
    · exact hw.touch _ true _ w.mem
  | write esp vaddr b =>
    refine (access_goes m v esp vaddr true 3).bind ?_
    rintro ⟨_ | _, w⟩ hw
    · exact hw
    · exact hw.touch _ true true _
  | enter esp =>
    rw [step]
    split_ifs
    · exact (growStack_goes esp _ (.refl v) (by omega)).bind fun w hw => hw
    · exact .refl v
  | mmap vaddr file => exact absurd rfl (hmap vaddr file)
  | munmap id => exact absurd rfl (hunm id)
  | tick =>
    obtain ⟨table, lru, heq, -, hlru⟩ := clruTimerTick_eq_ok m v
    rw [step, heq]
    exact Goes.of_tables rfl (fun _ => ⟨rfl, rfl⟩) rfl (fun _ _ => rfl) rfl (fun f hf => (hlru f).mpr hf)
      fun _ _ _ => id

/-! ### Mapping -/

/-- The pages `P` have been mapped, with the number `mapid`. -/
structure Maps (mapid : ℤ) (P : Set ℕ) (v v' : State) : Prop where
  rest : ∃ sup, v' = { v with sup := sup }
  kept : ∀ {p e}, v.sup p = some e → v'.sup p = some e
  added : ∀ {p e}, v.sup p = none → v'.sup p = some e →
    p ∈ P ∧ e.mapid = mapid ∧ e.allZero = false
  mapped : ∀ {p}, p ∈ P → v.sup p = none ∧ (v'.sup p).isSome = true

theorem Maps.refl (mapid : ℤ) (v : State) : Maps mapid ∅ v v :=
  ⟨⟨v.sup, rfl⟩, id, fun hp hp' => (by cases hp.symm.trans hp'), fun hp => hp.elim⟩

variable {mapid : ℤ} {P : Set ℕ} {gone gone' : ℕ → SupEntry → Prop}

theorem Maps.trans (h : Maps mapid P v w) (h' : Maps mapid Q w w') : Maps mapid (P ∪ Q) v w' where
  rest := by
    obtain ⟨sup, rfl⟩ := h.rest
    obtain ⟨sup', rfl⟩ := h'.rest
    exact ⟨sup', rfl⟩
  kept hp := h'.kept (h.kept hp)
  added {p e} hp hp' := by
    cases hw : w.sup p with
    | none =>
      obtain ⟨hin, hend⟩ := h'.added hw hp'
      exact ⟨.inr hin, hend⟩
    | some e1 =>
      cases (h'.kept hw).symm.trans hp'
      obtain ⟨hin, hend⟩ := h.added hp hw
      exact ⟨.inl hin, hend⟩
  mapped {p} hp := by
    rcases hp with hp | hp
    · obtain ⟨hnone, hsome⟩ := h.mapped hp
      obtain ⟨e, he⟩ := isSome_iff_exists.mp hsome
      rw [h'.kept he]
      exact ⟨hnone, rfl⟩
    · obtain ⟨hnone, hsome⟩ := h'.mapped hp
      refine ⟨?_, hsome⟩
      cases hv : v.sup p with
      | none => rfl
      | some e => cases (h.kept hv).symm.trans hnone

theorem Maps.evolves (h : Maps mapid P v v') : Evolves m user v v' := by
  obtain ⟨sup, rfl⟩ := h.rest
  exact ⟨⟨fun _ => id, fun _ _ _ => id, fun _ _ hp => .inl ⟨hp, rfl⟩⟩, rfl, fun _ _ => rfl⟩

theorem Maps.mirrored (h : Maps mapid P v v') (hv : v.Mirrored) : v'.Mirrored := by
  intro p hp
  have hpte : v'.pagedir = v.pagedir := by
    obtain ⟨sup, rfl⟩ := h.rest
    rfl
  rw [hpte] at hp
  obtain ⟨e, he, hend⟩ := hv p hp
  exact ⟨e, h.kept he, hend⟩

theorem supAllocSegment_maps (v : State) (upage file : ℕ) (writable : Bool) (offset pageEnd : ℕ)
    (mapid : ℤ) : Meets Any (Maps mapid {upage} v)
      (v.supAllocSegment upage file writable offset pageEnd mapid) := by
  unfold supAllocSegment
  split_ifs with hsome
  · exact trivial
  · have hnone : v.sup upage = none := by simpa using hsome
    refine ⟨⟨_, rfl⟩, fun {p e} hp => ?_, fun {p e} hp hp' => ?_, ?_⟩
    · refine (update_of_ne ?_ ..).trans hp
      rintro rfl
      cases hnone.symm.trans hp
    · by_cases hpu : p = upage
      · subst hpu
        simp only [supSetEntry, update_self, some.injEq] at hp'
        subst hp'
        exact ⟨rfl, rfl, rfl⟩
      · cases hp.symm.trans ((update_of_ne hpu ..).symm.trans hp')
    · rintro p rfl
      refine ⟨hnone, ?_⟩
      simp [supSetEntry]

/-- `sup_alloc_file` maps as many pages as the file has, or fails and maps none. -/
theorem supAllocFile_maps (m : Machine) (v : State) (vaddr file : ℕ) (writable : Bool) :
    Meets Any (fun x => x = (MAP_FAILED, v) ∨ x.1 = v.lastMapid ∧
      Maps v.lastMapid {p | ∃ i < numPages (v.files file).length, p = pageAbove m vaddr i}
        { v with lastMapid := v.lastMapid + 1 } x.2) (v.supAllocFile m vaddr file writable) := by
  unfold supAllocFile
  dsimp only
  split_ifs
  · exact .inl rfl
  · exact .inl rfl
  · refine Meets.bind (P := Maps v.lastMapid
      {p | ∃ i < numPages (v.files file).length, p = pageAbove m vaddr i}
      { v with lastMapid := v.lastMapid + 1 }) ?_ fun w hw => .inr ⟨rfl, hw⟩
    refine Meets.foldlM_range (I := fun n => Maps v.lastMapid
      {p | ∃ i < n, p = pageAbove m vaddr i} { v with lastMapid := v.lastMapid + 1 }) ?_ _ ?_
    · have : {p | ∃ i < 0, p = pageAbove m vaddr i} = ∅ := by simp
      rw [this]
      exact .refl _ _
    · intro n _ w hw
      refine (supAllocSegment_maps w _ file writable _ _ v.lastMapid).mono fun w' hw' => ?_
      have : {p | ∃ i < n + 1, p = pageAbove m vaddr i} =
          {p | ∃ i < n, p = pageAbove m vaddr i} ∪ {pageAbove m vaddr n} := by
        ext p
        simp only [Set.mem_ofPred_eq, Set.mem_union, Set.mem_singleton_iff, Nat.lt_succ_iff_lt_or_eq,
          or_and_right, exists_or, exists_eq_left]
      rw [this]
      exact hw.trans hw'

/-! ### Unmapping -/

/-- The pages that `gone` holds for are unmapped, and no others. -/
structure Drops (gone : ℕ → SupEntry → Prop) (v v' : State) : Prop where
  kept : ∀ {p e}, v.sup p = some e → ¬ gone p e → ∃ e', v'.sup p = some e' ∧ e'.Same e
  removed : ∀ {p e}, v.sup p = some e → gone p e → v'.sup p = none
  unmapped : ∀ {p}, v.sup p = none → v'.sup p = none
  mirrored : v.Mirrored → v'.Mirrored
  lastMapid : v'.lastMapid = v.lastMapid

theorem Drops.mono (h : Drops gone v v') (hiff : ∀ p e, gone p e ↔ gone' p e) : Drops gone' v v' :=
  ⟨fun hp hno => h.kept hp fun hg => hno ((hiff _ _).mp hg),
    fun hp hg => h.removed hp ((hiff _ _).mpr hg), h.unmapped, h.mirrored, h.lastMapid⟩

theorem Drops.trans (h : Drops gone v w) (h' : Drops gone' w w')
    (hsame : ∀ {p e e'}, e'.Same e → (gone' p e' ↔ gone' p e)) :
    Drops (fun p e => gone p e ∨ gone' p e) v w' where
  kept {p e} hp hno := by
    rw [not_or] at hno
    obtain ⟨e1, hp1, hs1⟩ := h.kept hp hno.1
    obtain ⟨e2, hp2, _, _, _, rfl⟩ := h'.kept hp1 fun hg => hno.2 ((hsame hs1).mp hg)
    obtain ⟨_, _, _, rfl⟩ := hs1
    exact ⟨_, hp2, _, _, _, rfl⟩
  removed {p e} hp hg := by
    by_cases hg1 : gone p e
    · exact h'.unmapped (h.removed hp hg1)
    · obtain ⟨e1, hp1, hs1⟩ := h.kept hp hg1
      exact h'.removed hp1 ((hsame hs1).mpr (hg.resolve_left hg1))
  unmapped hp := h'.unmapped (h.unmapped hp)
  mirrored hv := h'.mirrored (h.mirrored hv)
  lastMapid := h'.lastMapid.trans h.lastMapid

theorem Drops.remove (hkept : ∀ {p e}, v.sup p = some e → ∃ e', w.sup p = some e' ∧ e'.Same e)
    (hnone : ∀ p, v.sup p = none → w.sup p = none) (hlast : w.lastMapid = v.lastMapid)
    (hmr : v.Mirrored → (w.pagedir page).present = false ∧ ∀ p, p ≠ page →
      (w.pagedir p).present = true → ∃ e, w.sup p = some e ∧ e.loaded = true ∧ e.slot = none) :
    Drops (fun p _ => p = page) v (w.supRemoveEntry page) := by
  have hoth : ∀ {p}, p ≠ page → (w.supRemoveEntry page).sup p = w.sup p := fun hp =>
    update_of_ne hp ..
  have hself : (w.supRemoveEntry page).sup page = none := update_self ..
  refine ⟨fun {p e} hp hno => ?_, fun {p e} _ hg => ?_, fun {p} hp => ?_, fun hv p hp => ?_, hlast⟩
  · rw [hoth hno]
    exact hkept hp
  · rw [hg, hself]
  · by_cases hpp : p = page
    · rw [hpp, hself]
    · rw [hoth hpp]
      exact hnone p hp
  · obtain ⟨habe, hrest⟩ := hmr hv
    have hpp : p ≠ page := by
      rintro rfl
      cases habe.symm.trans hp
    rw [hoth hpp]
    exact hrest p hpp hp

section
variable (m : Machine)

theorem frameWrite_goes (user : Bool) (v : State) (x : Option ℕ) (f size offset : ℕ) :
    Goes m user v (v.frameWrite x f size offset) ∧
      (v.frameWrite x f size offset).toProcess = v.toProcess := by
  unfold frameWrite
  cases x with
  | none => exact ⟨.refl v, rfl⟩
  | some x =>
    dsimp only
    split_ifs with hdeny
    · exact ⟨.refl v, rfl⟩
    · refine ⟨Goes.of_tables rfl (fun _ => ⟨rfl, rfl⟩) rfl (fun y hy => ?_) rfl (fun _ => id)
        fun _ _ _ => id, rfl⟩
      refine update_of_ne ?_ ..
      rintro rfl
      exact hdeny hy

theorem unmapFrame_evolves (v : State) (page : ℕ) (e : SupEntry) :
    Meets Any (fun w => Evolves m true v w ∧ w.sup = v.sup ∧ w.lastMapid = v.lastMapid ∧
      w.pagedir = update v.pagedir page { v.pagedir page with present := false })
      (v.unmapFrame m page e) := by
  unfold unmapFrame
  cases e.frameNo with
  | none => exact trivial
  | some f =>
    dsimp only
    generalize hu : (if e.writable && !e.allZero && (v.frameTable f).dirty && e.pageEnd != 0 then
      v.frameWrite e.f f e.pageEnd e.fileOfs else v) = u
    have hgoes : Goes m true v u ∧ u.toProcess = v.toProcess := by
      rw [← hu]
      split_ifs
      · exact frameWrite_goes m true v e.f f e.pageEnd e.fileOfs
      · exact ⟨.refl v, rfl⟩
    obtain ⟨hgoes, hproc⟩ := hgoes
    have hsup := congrArg sup hproc
    have hpte := congrArg pagedir hproc
    unfold pagedirClearPage
    split_ifs
    · rw [ok_bind]
      unfold freeFrame pallocFreePage
      split_ifs
      · refine ⟨⟨⟨hgoes.evolves.listed, fun _ g hg hused => hgoes.evolves.pool rfl g hg ?_,
          fun _ p hp => ?_⟩, hgoes.evolves.denyWrite, hgoes.evolves.files⟩, hsup,
          hgoes.retains.lastMapid, by rw [← hpte]⟩
        · dsimp only at hused
          rw [update_apply] at hused
          split_ifs at hused
          exact hused
        · dsimp only at hp ⊢
          rw [hpte] at hp ⊢
          rw [update_apply] at hp ⊢
          split_ifs at hp ⊢
          exact .inl ⟨hp, rfl⟩
      · exact trivial
      · exact trivial
    · exact trivial

theorem swapRead_eq (v : State) (slot f : ℕ) :
    Meets Any (fun w => ∃ mem, w = { v with mem }) (v.swapRead m slot f) := by
  unfold swapRead swapSlotToSector
  split_ifs
  · exact ⟨_, rfl⟩
  · exact trivial

theorem swapFree_eq (v : State) (slot : ℕ) :
    Meets Any (fun w => ∃ swapSlots, w = { v with swapSlots }) (v.swapFree m slot) := by
  unfold swapFree
  split_ifs
  · exact ⟨_, rfl⟩
  · exact trivial

theorem unmapSlot_goes (v : State) (temp : Option ℕ) (e : SupEntry) (slot : ℕ) :
    Meets Any (fun x => Goes m true v x.2 ∧ NoNew v x.2) (v.unmapSlot m temp e slot) := by
  have hsame : ∀ {u u' : State}, u'.toProcess = u.toProcess → NoNew v u → NoNew v u' := by
    intro u u' hproc hnew p
    rw [show u'.sup = u.sup from congrArg sup hproc,
      show u'.pagedir = u.pagedir from congrArg pagedir hproc]
    exact hnew p
  have hfree : ∀ {t : Option ℕ} {u : State}, Goes m true v u → NoNew v u →
      Meets Any (fun x : Option ℕ × State => Goes m true v x.2 ∧ NoNew v x.2) (do
        let u ← u.swapFree m slot
        return (t, u)) := by
    intro t u hu hnew
    refine (swapFree_eq m u slot).bind ?_
    rintro _ ⟨slots, rfl⟩
    exact ⟨hu.trans (Goes.of_tables rfl (fun _ => ⟨rfl, rfl⟩) rfl (fun _ _ => rfl) rfl
      (fun _ => id) fun _ _ _ => id), hnew⟩
  have hsave : ∀ {f : ℕ} {u : State}, Goes m true v u → NoNew v u →
      Meets Any (fun x : Option ℕ × State => Goes m true v x.2 ∧ NoNew v x.2) (do
        let u ← u.swapRead m slot f
        let u ← (u.frameWrite e.f f e.pageEnd e.fileOfs).swapFree m slot
        return (some f, u)) := by
    intro f u hu hnew
    refine (swapRead_eq m u slot f).bind ?_
    rintro _ ⟨mem, rfl⟩
    have hread : Goes m true u { u with mem } :=
      Goes.of_tables rfl (fun _ => ⟨rfl, rfl⟩) rfl (fun _ _ => rfl) rfl (fun _ => id)
        fun _ _ _ => id
    obtain ⟨hwrt, hproc⟩ :=
      frameWrite_goes m true { u with mem } e.f f e.pageEnd e.fileOfs
    exact hfree ((hu.trans hread).trans hwrt) (hsame hproc hnew)
  unfold unmapSlot
  split_ifs
  · cases temp with
    | some f => exact hsave (.refl v) fun _ => ⟨id, id⟩
    | none =>
      refine (getFrame_goes m true v).bind ?_
      rintro ⟨f, w⟩ ⟨hw, -, -, hnew⟩
      exact hsave hw hnew
  · exact hfree (.refl v) fun _ => ⟨id, id⟩

/-- One round of the loop. -/
theorem unmapPage_drops (chosen : SupEntry → Bool) (v : State) (temp : Option ℕ) (page : ℕ) :
    Meets Any (fun x => Evolves m true v x.2 ∧
      Drops (fun p e => p = page ∧ chosen e = true) v x.2) (unmapPage m chosen (temp, v) page) := by
  have hidle : (∀ e, v.sup page = some e → chosen e = false) → Evolves m true v v ∧
      Drops (fun p e => p = page ∧ chosen e = true) v v := by
    refine fun hno => ⟨.refl v, fun {p e} hp _ => ⟨e, hp, _, _, _, rfl⟩, ?_, id, id, rfl⟩
    rintro p e hp ⟨rfl, hch⟩
    simp [hno e hp] at hch
  unfold unmapPage
  cases hp : v.sup page with
  | none => exact hidle fun e he => by cases hp.symm.trans he
  | some e =>
    have hgone : ∀ {w : State}, chosen e = true → Evolves m true v w →
        Drops (fun p _ => p = page) v (w.supRemoveEntry page) →
        Evolves m true v (w.supRemoveEntry page) ∧
          Drops (fun p e => p = page ∧ chosen e = true) v (w.supRemoveEntry page) := by
      intro w hch hev hdrp
      refine ⟨⟨⟨hev.listed, hev.pool, hev.present⟩, hev.denyWrite, hev.files⟩,
        fun {p e'} hp' hno => hdrp.kept hp' fun hg => hno ⟨hg, ?_⟩,
        fun hp' hg => hdrp.removed hp' hg.1, hdrp.unmapped, hdrp.mirrored,
        hdrp.lastMapid⟩
      subst hg
      cases mem_unique hp hp'
      exact hch
    have habe : v.Mirrored → (e.loaded = false ∨ e.slot ≠ none) →
        (v.pagedir page).present = false := by
      intro hv hor
      by_contra hno
      obtain ⟨e', he', hl, hs⟩ := hv page (by simpa using hno)
      cases mem_unique hp he'
      rcases hor with hor | hor
      · cases hl.symm.trans hor
      · exact hor hs
    dsimp only
    split_ifs with hch hld
    · cases hs : e.slot with
      | none =>
        refine (unmapFrame_evolves m v page e).bind ?_
        rintro w ⟨hev, hsup, hlast, hpte⟩
        refine hgone hch hev (Drops.remove (fun {p e} hp => ⟨e, by rw [hsup, hp], _, _, _, rfl⟩)
          (fun p hp => by rw [hsup, hp]) hlast fun hv => ⟨by rw [hpte]; simp, fun p hne hpr => ?_⟩)
        rw [hpte, update_of_ne hne] at hpr
        rw [hsup]
        exact hv p hpr
      | some slot =>
        refine (unmapSlot_goes m v temp e slot).bind ?_
        rintro ⟨t, w⟩ ⟨hw, hnew⟩
        refine hgone hch hw.evolves (Drops.remove hw.retains.kept (fun p => (hnew p).1)
          hw.retains.lastMapid fun hv => ⟨?_, fun p _ hpr => hw.retains.mirrored hv p hpr⟩)
        by_contra hno
        have hprs := (hnew page).2 (by simpa using hno)
        cases (habe hv (.inr (by rw [hs]; exact some_ne_none _))).symm.trans hprs
    · have hun : e.loaded = false := by simpa using hld
      exact hgone hch (.refl v) (Drops.remove (fun {p e} hp => ⟨e, hp, _, _, _, rfl⟩)
        (fun _ => id) rfl fun hv => ⟨habe hv (.inl hun), fun p _ hpr => hv p hpr⟩)
    · refine hidle fun e' he => ?_
      cases mem_unique hp he
      simpa using hch

/-- The loop removes the pages that are chosen. -/
theorem unmapPages_drops (v : State) (chosen : SupEntry → Bool)
    (hchs : ∀ {e e'}, e'.Same e → chosen e' = chosen e) :
    Meets Any (fun w => Evolves m true v w ∧ Drops (fun p e => p < m.pages ∧ chosen e = true) v w)
      (v.unmapPages m chosen) := by
  have hbits : Goes m true v (v.setBits m) ∧ (v.setBits m).toProcess = v.toProcess := by
    obtain ⟨table, heq, -⟩ := setBits_eq m v
    rw [heq]
    exact ⟨Goes.of_tables rfl (fun _ => ⟨rfl, rfl⟩) rfl (fun _ _ => rfl) rfl (fun _ => id)
      fun _ _ _ => id, rfl⟩
  have hloop : Meets Any (fun x : Option ℕ × State => Evolves m true v x.2 ∧
      Drops (fun p e => p < m.pages ∧ chosen e = true) v x.2)
      ((List.range m.pages).foldlM (unmapPage m chosen) (none, v.setBits m)) := by
    refine Meets.foldlM_range (I := fun n (x : Option ℕ × State) => Evolves m true v x.2 ∧
      Drops (fun p e => p < n ∧ chosen e = true) v x.2) ?_ _ ?_
    · refine ⟨hbits.1.evolves, fun hp _ => hbits.1.retains.kept hp,
        fun _ hg => absurd hg.1 (Nat.not_lt_zero _), fun {p} hp => ?_, hbits.1.retains.mirrored,
        hbits.1.retains.lastMapid⟩
      exact (congrFun (congrArg sup hbits.2) p).trans hp
    · rintro n - ⟨temp, w⟩ ⟨hev, hdrp⟩
      refine (unmapPage_drops m chosen w temp n).mono fun x hx => ⟨hev.trans hx.1, ?_⟩
      refine (hdrp.trans hx.2 fun hs => by rw [hchs hs]).mono fun p e => ?_
      rw [Nat.lt_succ_iff_lt_or_eq, or_and_right]
  refine hloop.bind ?_
  rintro ⟨temp, w⟩ ⟨hev, hdrp⟩
  cases temp with
  | none => exact ⟨hev, hdrp⟩
  | some f =>
    refine (freeFrame_goes m true w f).mono fun u hu => ⟨hev.trans hu.1.evolves, ?_⟩
    have hsup := congrArg sup hu.2
    exact ⟨fun hp hno => by rw [hsup]; exact hdrp.kept hp hno,
      fun hp hg => by rw [hsup]; exact hdrp.removed hp hg,
      fun hp => by rw [hsup]; exact hdrp.unmapped hp,
      fun hv => hu.1.retains.mirrored (hdrp.mirrored hv),
      hu.1.retains.lastMapid.trans hdrp.lastMapid⟩

theorem step_evolves (v : State) (op : Op) :
    Meets Any (fun x => Evolves m true v x.2) (v.step m op) := by
  cases op with
  | mmap vaddr file =>
    rw [step]
    split_ifs
    · exact .refl v
    · exact .refl v
    · refine (supAllocFile_maps m v vaddr file true).bind ?_
      rintro ⟨id, w⟩ (hno | ⟨-, hmaps⟩)
      · cases hno
        exact .refl v
      · have hev : Evolves m true { v with lastMapid := v.lastMapid + 1 } w := hmaps.evolves
        exact ⟨⟨hev.listed, hev.pool, hev.present⟩, hev.denyWrite, hev.files⟩
  | munmap id =>
    refine (unmapPages_drops m v (fun e => e.mapid == id) ?_).bind fun w hw => hw.1
    rintro e _ ⟨_, _, _, rfl⟩
    rfl
  | _ => exact (step_goes m v _ (by simp) (by simp)).mono fun x hx => hx.evolves

theorem unmapPages_eq_ok (v : State) (chosen : SupEntry → Bool)
    (hno : ∀ {p e}, v.sup p = some e → chosen e = false) :
    ∃ w, v.unmapPages m chosen = .ok w ∧ w.toProcess = v.toProcess := by
  obtain ⟨table, heq, -⟩ := setBits_eq m v
  have hloop : (List.range m.pages).foldlM (unmapPage m chosen) (none, v.setBits m) =
      .ok (none, v.setBits m) := by
    refine Meets.eq_ok (Meets.foldlM_range (E := fun _ : Stop => False)
      (I := fun _ x => x = (none, v.setBits m)) rfl _ ?_)
    rintro n - _ rfl
    unfold unmapPage
    rw [heq]
    cases hp : v.sup n with
    | none => exact rfl
    | some e =>
      dsimp only
      rw [hno hp]
      exact rfl
  refine ⟨v.setBits m, ?_, by rw [heq]⟩
  unfold unmapPages
  rw [hloop]
  rfl

end

end Pintos.Vm.State
