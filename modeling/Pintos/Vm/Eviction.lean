import Pintos.Vm.Residence

/-! # Getting a frame

`get_frame` takes a frame that is free or else evicts a page.

* **Victim.**  If no frame is free, the frame at the front of the clock list is the frame of exactly
  one page, although the list may have old entries: all frames are in use, and each belongs to a
  page.
* **Result.**  The frame is in the hands of the kernel and filled with zeros.  No page has lost
  anything (`Inv.getFrame`). -/

namespace Pintos.Vm.State
open Bytes Outcome Function Option List

variable {m : Machine} {v w w' v' : State} {temp : Option ℕ} {p f s : ℕ} {e e' : SupEntry}

/-- Pages outside `X` may have been moved from their frames to slots; nothing else has happened to
them. -/
structure Moved (X : Set ℕ) (v v' : State) : Prop where
  unmapped : ∀ {p}, p ∉ X → v.sup p = none → v'.sup p = none
  mapped : ∀ {p e}, p ∉ X → v.sup p = some e →
    (v'.sup p = some e ∧ v'.pagedir p = v.pagedir p ∧
      ∀ f, e.frameNo = some f → v'.frameTable f = v.frameTable f) ∨
    e.frameNo.isSome = true ∧ ∃ s, v'.sup p = some { e with slot := some s, frameNo := none }
  bytes : ∀ {p e e'}, p ∉ X → v.sup p = some e → e.frameNo.isSome = true ∨ e.slot.isSome = true →
    v'.sup p = some e' → SamePage (v'.content e') (v.content e)

/-- Everything but the pages is as it was. -/
structure SameRest (v v' : State) : Prop where
  files : v'.files = v.files
  denyWrite : v'.denyWrite = v.denyWrite
  lastMapid : v'.lastMapid = v.lastMapid
  numStackPages : v'.numStackPages = v.numStackPages

theorem SameRest.trans (h : SameRest v w) (h' : SameRest w w') : SameRest v w' :=
  ⟨h'.files.trans h.files, h'.denyWrite.trans h.denyWrite, h'.lastMapid.trans h.lastMapid,
    h'.numStackPages.trans h.numStackPages⟩

theorem Moved.sup_eq (h : Moved X v v') (hx : p ∉ X) (hp : v.sup p = some e)
    (hf : e.frameNo = none) : v'.sup p = some e := by
  rcases h.mapped hx hp with ⟨hsup, -⟩ | ⟨hsome, -⟩
  · exact hsup
  · simp [hf] at hsome

theorem Moved.content (h : Moved X v v') (hfls : v'.files = v.files) (hx : p ∉ X)
    (hp : v.sup p = some e) (hp' : v'.sup p = some e') : SamePage (v'.content e') (v.content e) := by
  by_cases hin : e.frameNo.isSome = true ∨ e.slot.isSome = true
  · exact h.bytes hx hp hin hp'
  · simp only [not_or, not_isSome_iff_eq_none] at hin
    cases mem_unique (h.sup_eq hx hp hin.1) hp'
    rw [content_of_file hin.1 hin.2, content_of_file hin.1 hin.2, hfls]
    exact .refl _

/-! ### The page that is evicted -/

/-- The last loop of `evict` if the frame `f` is that of the page `p` alone. -/
theorem foldlM_redirect (hp : v.sup p = some e) (hf : e.frameNo = some f) (hs : e.slot = none)
    (hlt : p < m.physBase) (huniq : ∀ {q e}, v.sup q = some e → e.frameNo = some f → q = p) :
    (range m.pages).foldlM (redirect m f s) v = .ok { v with
      sup := update v.sup p (some { e with slot := some s, frameNo := none })
      pagedir := update v.pagedir p { v.pagedir p with present := false } } := by
  -- the entry of the page is changed when the loop comes to it, and nothing before and after
  refine Meets.eq_ok ?_
  have hloop := Meets.foldlM_range (E := fun _ : Stop => False) (f := redirect m f s) (s := v)
    (I := fun n w => w = if p < n then { v with
      sup := update v.sup p (some { e with slot := some s, frameNo := none })
      pagedir := update v.pagedir p { v.pagedir p with present := false } } else v)
    (by rw [if_neg (Nat.not_lt_zero p)]) m.pages ?_
  · rw [if_pos (hlt.trans_le m.physBase_le)] at hloop
    exact hloop
  · rintro n - w rfl
    rcases Nat.lt_trichotomy n p with hn | rfl | hn
    · rw [if_neg (by omega), if_neg (by omega), redirect]
      cases hq : v.sup n with
      | none => exact rfl
      | some eq =>
        dsimp only
        rw [if_neg fun hfq => (Nat.ne_of_lt hn) (huniq hq hfq)]
        exact rfl
    · rw [if_neg (lt_irrefl n), if_pos (Nat.lt_add_one n), redirect, hp]
      dsimp only
      rw [if_pos hf, if_pos hs, pagedirClearPage, if_pos hlt]
      exact rfl
    · rw [if_pos hn, if_pos (by omega), redirect]
      dsimp only
      rw [update_of_ne (by omega)]
      cases hq : v.sup n with
      | none => exact rfl
      | some eq =>
        dsimp only
        rw [if_neg fun hfq => (Nat.ne_of_gt hn) (huniq hq hfq)]
        exact rfl

/-- The state after the page `p` in the frame `f` has been evicted to the slot `s`. -/
def evicted (v : State) (f : ℕ) (rest : List ℕ) (p : ℕ) (e : SupEntry) (s : ℕ) : State :=
  { v with
    lru := rest
    swapSlots := update v.swapSlots s true
    swapBlock := writeSectors (s * SECTORS_PER_PAGE) (v.mem f) v.swapBlock
    sup := update v.sup p (some { e with slot := some s, frameNo := none })
    pagedir := update v.pagedir p { v.pagedir p with present := false } }

theorem Inv.exists_slot (h : Inv m v temp) (hp : v.sup p = some e) (hf : e.frameNo = some f)
    (hfull : (range m.numSlots).find? (fun s => !v.swapSlots s) = none) :
    m.numSlots < m.pages := by
  by_contra hle
  obtain ⟨s, hs, hfree⟩ := h.slots.exists_free (fun q s hq => by
      obtain ⟨e, hq, -⟩ := bind_eq_some_iff.mp hq
      exact h.lt_pages hq)
    (h.lt_pages hp) (by rw [slotOf_eq hp, h.slot_eq_none hp hf]) (not_lt.mp hle)
  have := find?_eq_none.mp hfull s (mem_range.mpr hs)
  simp only [Bool.not_eq_eq_eq_not, Bool.not_true, Bool.not_eq_false] at this
  exact hfree ⟨hs, this⟩

/-- If the frame at the front of the clock list is that of the page `p` alone, the page goes to the
first slot that is free. -/
theorem evict_eq (hlru : v.lru = f :: rest)
    (hany : ((range m.initRamPages).any fun i =>
      !(v.frameTable i).page && m.valid i && (m.user i == true)) = false)
    (hfind : ((range m.numSlots).find? fun s => !v.swapSlots s) = some s)
    (hp : v.sup p = some e) (hf : e.frameNo = some f) (hs : e.slot = none) (hlt : p < m.physBase)
    (huniq : ∀ {q e}, v.sup q = some e → e.frameNo = some f → q = p) :
    v.evict m true = .ok (f, v.evicted f rest p e s) := by
  have hslt := mem_range.mp (mem_of_find?_eq_some hfind)
  unfold State.evict
  rw [if_neg (by rw [hany]; simp), clruEvict, hlru, ok_bind]
  simp only [swapAlloc, hfind, ok_bind, swapWrite, swapSlotToSector, update_self, hslt,
    and_self, if_true, pure, Except.pure]
  rw [foldlM_redirect (v := { v with
      lru := rest
      swapSlots := update v.swapSlots s true
      swapBlock := writeSectors (s * SECTORS_PER_PAGE) (v.mem f) v.swapBlock }) hp hf hs hlt huniq]
  rfl

/-- The victim is the frame of exactly one page, which goes to a slot that was free. -/
theorem Inv.evict (h : Inv m v none) (hpool : ∃ f, m.userFrame f = true)
    (hfull : ∀ f, m.userFrame f = true → v.used f = true) :
    (∃ f rest p e s, v.lru = f :: rest ∧ v.sup p = some e ∧ e.frameNo = some f ∧
      s < m.numSlots ∧ v.swapSlots s = false ∧ v.evict m true = .ok (f, v.evicted f rest p e s)) ∨
    v.evict m true = .error .outOfSwap ∧ m.numSlots < m.pages := by
  have hany : ((range m.initRamPages).any fun i =>
      !(v.frameTable i).page && m.valid i && (m.user i == true)) = false := by
    rw [List.any_eq_false]
    intro i _ hi
    simp only [beq_true, Bool.and_eq_true] at hi
    have huser : m.userFrame i = true := by simp [Machine.userFrame, hi]
    rw [h.table i huser, hfull i huser] at hi
    cases hi.1.1
  obtain ⟨f0, hf0⟩ := hpool
  obtain ⟨f, rest, hlru⟩ := exists_cons_of_ne_nil (ne_nil_of_mem (h.listed f0 hf0 (hfull f0 hf0)))
  have hf := h.user f (by rw [hlru]; exact mem_cons_self)
  obtain ⟨_ | p, hp⟩ := (h.frames.taken_iff f).mp ⟨hf, hfull f hf⟩
  · cases hp
  obtain ⟨e, hp, he⟩ := exists_of_frameOf hp
  cases hfind : (range m.numSlots).find? fun s => !v.swapSlots s with
  | none =>
    refine .inr ⟨?_, h.exists_slot hp he hfind⟩
    unfold State.evict
    rw [if_neg (by rw [hany]; simp), clruEvict, hlru, ok_bind]
    simp [swapAlloc, hfind]
  | some s =>
    have hs := find?_some hfind
    have hlt := mem_range.mp (mem_of_find?_eq_some hfind)
    simp only [Bool.not_eq_eq_eq_not] at hs
    exact .inl ⟨f, rest, p, e, s, hlru, hp, he, hlt, hs, evict_eq hlru hany hfind hp he
      (h.slot_eq_none hp he) (h.lt_physBase hp (h.loaded_of_frame hp he))
      fun hq hfq => h.frame_unique hp he hq hfq⟩

/-! ### The frame -/

section
variable (h : Inv m v none)
include h

/-- The frame `f`, which was free, is in the hands of the kernel. -/
theorem Inv.take (hf : m.userFrame f = true) (hfree : v.used f = false)
    (hsup : v'.sup = v.sup) (hpte : v'.pagedir = v.pagedir) (hslo : v'.swapSlots = v.swapSlots)
    (hused : v'.used = update v.used f true)
    (htbl : v'.frameTable = update v.frameTable f ⟨true, false, false⟩)
    (hlru : v'.lru = v.lru ++ [f]) : Inv m v' (some f) := by
  have hfra : v'.frameOf = v.frameOf := by
    funext q
    simp [frameOf, hsup]
  have hslot : v'.slotOf = v.slotOf := by
    funext q
    simp [slotOf, hsup]
  refine ⟨?_, ?_, ?_, ?_, ?_, ?_, ?_, ?_, ?_, ?_, ?_⟩
  · rw [hsup]
    exact h.wellFormed
  · rw [hsup]
    exact h.lt_pages
  · rw [hsup]
    exact h.bounded
  · rw [hsup]
    exact h.lt_physBase
  · rw [holder_temp hfra none (some f)]
    refine h.frames.assign rfl (by simp [hfree]) fun x => ?_
    rw [hused, update_apply]
    split_ifs with hx
    · simp [hx, hf]
    · simp [hx]
  · rw [hslo, hslot]
    exact h.slots
  · intro q
    rw [hpte, hfra]
    exact h.present q
  · rw [hsup, hpte]
    exact h.pte
  · intro x hx
    rw [htbl, hused, update_apply, update_apply]
    split_ifs
    · rfl
    · exact h.table x hx
  · intro x hx hu
    rw [hlru, mem_append, mem_singleton]
    rw [hused, update_apply] at hu
    split_ifs at hu with hxf
    · exact .inr hxf
    · exact .inl (h.listed x hx hu)
  · intro x hx
    rw [hlru, mem_append, mem_singleton] at hx
    rcases hx with hx | rfl
    · exact h.user x hx
    · exact hf

/-- The frame `f` of the page `p`, which has been evicted to the slot `s`, is in the hands of the
kernel. -/
theorem Inv.evicted (hlru : v.lru = f :: rest)
    (hp : v.sup p = some e) (hf : e.frameNo = some f) (hs : s < m.numSlots)
    (hfree : v.swapSlots s = false) (mem : ℕ → Page) :
    Inv m { v.evicted f rest p e s with
      mem
      frameTable := update v.frameTable f ⟨true, false, false⟩
      lru := rest ++ [f] } (some f) := by
  have hld := h.loaded_of_frame hp hf
  have huser := h.used hp hf
  generalize hv' : { v.evicted f rest p e s with
    mem
    frameTable := update v.frameTable f ⟨true, false, false⟩
    lru := rest ++ [f] } = v'
  have hsup : v'.sup = update v.sup p (some { e with slot := some s, frameNo := none }) := by
    rw [← hv']
    rfl
  have hpte : v'.pagedir = update v.pagedir p { v.pagedir p with present := false } := by
    rw [← hv']
    rfl
  have hused : v'.used = v.used := by
    rw [← hv']
    rfl
  have hslo : v'.swapSlots = update v.swapSlots s true := by
    rw [← hv']
    rfl
  have htbl : v'.frameTable = update v.frameTable f ⟨true, false, false⟩ := by
    rw [← hv']
  have hlist : ∀ x, x ∈ v'.lru ↔ x ∈ v.lru := by
    intro x
    rw [← hv', hlru, mem_append, mem_singleton, mem_cons, or_comm]
  have hfra := frameOf_update hsup
  refine ⟨?_, ?_, ?_, ?_, ?_, ?_, ?_, ?_, ?_, ?_, ?_⟩
  · refine forall_sup_update (P := fun _ e => e.WellFormed) hsup (fun hq _ => h.wellFormed hq) ?_
    exact ⟨(h.wellFormed hp).pageEnd_le, fun hno => by simp [hld] at hno, fun _ => by simp⟩
  · exact forall_sup_update (P := fun q _ => q < m.pages) hsup (fun hq _ => h.lt_pages hq)
      (h.lt_pages hp)
  · exact forall_sup_update (P := fun _ e => e.fileOfs + e.pageEnd ≤ m.pages * PGSIZE) hsup
      (fun hq _ => h.bounded hq) (h.bounded hp :)
  · exact forall_sup_update (P := fun q e => e.loaded = true → q < m.physBase) hsup
      (fun hq _ => h.lt_physBase hq) fun _ => h.lt_physBase hp hld
  · have hmove := h.frames.move (i := some p) (j := none) ((frameOf_eq hp).trans hf) rfl
    rw [hused]
    refine hmove.congr (fun q => ?_) fun _ => Iff.rfl
    cases q with
    | none => simp [holder]
    | some q => simp [holder, hfra, update_apply]
  · rw [slotOf_update hsup]
    refine h.slots.assign (by rw [slotOf_eq hp, h.slot_eq_none hp hf]) (by simp [hfree]) fun x => ?_
    rw [hslo, update_apply]
    split_ifs with hx
    · simp [hx, hs]
    · simp [hx]
  · intro q
    rw [hpte, hfra]
    by_cases hqp : q = p
    · simp [hqp]
    · simp [update_of_ne hqp, h.present]
  · intro q eq g hq hg
    by_cases hqp : q = p
    · rw [hqp, hsup, update_self, some.injEq] at hq
      subst hq
      cases hg
    · rw [hsup, update_of_ne hqp] at hq
      rw [hpte, update_of_ne hqp]
      exact h.pte hq hg
  · intro x hx
    rw [htbl, hused, update_apply]
    split_ifs with hxf
    · rw [hxf, huser.2]
    · exact h.table x hx
  · intro x hx hu
    rw [hused] at hu
    exact (hlist x).mpr (h.listed x hx hu)
  · exact fun x hx => h.user x ((hlist x).mp hx)

theorem Moved.take (hfree : v.used f = false) (lru : List ℕ) :
    Moved ∅ v { v with
      used := update v.used f true
      mem := update v.mem f fun _ => 0
      frameTable := update v.frameTable f ⟨true, false, false⟩
      lru } := by
  have hne : ∀ {q e g}, v.sup q = some e → e.frameNo = some g → g ≠ f := by
    rintro q e g hq hg rfl
    simp [(h.used hq hg).2] at hfree
  refine ⟨fun _ => id, fun _ hq => .inl ⟨hq, rfl, fun g hg => ?_⟩, ?_⟩
  · exact update_of_ne (hne hq hg) ..
  · intro q e e' _ hq _ hq'
    cases mem_unique hq hq'
    exact content_congr (fun g hg => .of_eq (update_of_ne (hne hq hg) ..))
      (fun _ _ => .refl _) fun _ _ => rfl

/-- The page that is evicted keeps its bytes, and so do the others. -/
theorem Moved.evicted (hp : v.sup p = some e)
    (hf : e.frameNo = some f) (hfree : v.swapSlots s = false) (lru : List ℕ) :
    Moved ∅ v { v.evicted f rest p e s with
      mem := update v.mem f fun _ => 0
      frameTable := update v.frameTable f ⟨true, false, false⟩
      lru } := by
  have hoth : ∀ {q eq}, v.sup q = some eq → q ≠ p → ∀ g, eq.frameNo = some g → g ≠ f := by
    rintro q eq hq hqp g hg rfl
    exact hqp (h.frame_unique hp hf hq hg)
  refine ⟨?_, ?_, ?_⟩
  · intro q _ hq
    have hqp : q ≠ p := by
      rintro rfl
      simp [hp] at hq
    simpa [State.evicted, update_of_ne hqp] using hq
  · intro q eq _ hq
    by_cases hqp : q = p
    · subst hqp
      cases mem_unique hp hq
      exact .inr ⟨by rw [hf]; rfl, s, by simp [State.evicted]⟩
    · refine .inl ⟨by simpa [State.evicted, update_of_ne hqp] using hq,
        by simp [State.evicted, update_of_ne hqp], fun g hg => ?_⟩
      exact update_of_ne (hoth hq hqp g hg) ..
  · intro q eq eq' _ hq _ hq'
    by_cases hqp : q = p
    · subst hqp
      cases mem_unique hp hq
      obtain rfl : { e with slot := some s, frameNo := none } = eq' := by
        simpa [State.evicted] using hq'
      rw [content_of_frame hf]
      exact swapped_writeSectors_self _ _ _
    · cases by
        simp only [State.evicted, update_of_ne hqp] at hq'
        exact mem_unique hq hq'
      refine content_congr (fun g hg => .of_eq (update_of_ne (hoth hq hqp g hg) ..))
        (fun s' hs => swapped_writeSectors_of_ne ?_ _ _) fun _ _ => rfl
      rintro rfl
      simp [(h.taken hq hs).2] at hfree

/-- What `get_frame` does for a process. -/
theorem Inv.getFrame (hpool : ∃ f, m.userFrame f = true) :
    Meets (SwapTooSmall m) (fun x => Inv m x.2 (some x.1) ∧ Moved ∅ v x.2 ∧ SameRest v x.2 ∧
      x.2.mem x.1 = (fun _ => 0) ∧ x.2.frameTable x.1 = ⟨true, false, false⟩) (v.getFrame m true) := by
  have hok : ∀ {f : ℕ}, m.userFrame f = true →
      f < m.initRamPages ∧ m.user f = true ∧ m.valid f = true := by
    intro f hf
    simp only [Machine.userFrame, Bool.and_eq_true] at hf
    exact ⟨Machine.lt_of_valid hf.1, hf.2, hf.1⟩
  unfold State.getFrame
  cases hfind : (range m.initRamPages).find? fun i =>
      m.valid i && (m.user i == true) && !v.used i with
  | some f =>
    have hf := find?_some hfind
    simp only [beq_true, Bool.and_eq_true, Bool.not_eq_eq_eq_not] at hf
    have huser : m.userFrame f = true := by simp [Machine.userFrame, hf]
    simp only [pallocGetPage, hfind, map_some, ok_bind, if_pos (hok huser), if_true,
      clruEnqueue, meets_ok, update_self, and_true]
    exact ⟨h.take huser hf.2 rfl rfl rfl rfl rfl rfl, Moved.take h hf.2 _, rfl, rfl, rfl, rfl⟩
  | none =>
    have hfull : ∀ f, m.userFrame f = true → v.used f = true := by
      intro f hf
      have hno := find?_eq_none.mp hfind f (mem_range.mpr (hok hf).1)
      simpa [hok hf] using hno
    simp only [pallocGetPage, hfind, map_none]
    rcases h.evict hpool hfull with ⟨f, rest, p, e, s, hlru, hp, hf, hs, hfree, hev⟩ | ⟨hev, hlt⟩
    · rw [hev]
      simp only [ok_bind, if_pos (hok (h.used hp hf).1), if_true, clruEnqueue, meets_ok,
        update_self, and_true]
      exact ⟨h.evicted hlru hp hf hs hfree _, Moved.evicted h hp hf hfree _, rfl, rfl, rfl, rfl⟩
    · rw [hev]
      exact ⟨rfl, hlt⟩

end

end Pintos.Vm.State
