import Pintos.Vm.Transparency

/-! # Unmapping pages

The loop of `sup_remove_map` and `sup_free_table`.

* **One page.**  A page that is unmapped gives back its frame or its slot; if it is in a slot, or if
  the frame table says that it is dirty, it is written to its file first (`writeBack`).  The other
  pages may be moved, since the loop may need a frame (`Unmaps`).
* **Conservation.**  In every run the frames and slots that are used are those of the pages, each in
  the hands of one page; after the process has exited none is used. -/

namespace Pintos.Vm
namespace State
open Bytes Outcome Function Option

variable {m : Machine} {v w w' v' : State} {temp : Option ℕ} {p f s : ℕ} {e e' : SupEntry}
  {chosen : SupEntry → Bool}

/-! ### One page -/

/-- A page that is unmapped is written to its file. -/
def writesBack (v : State) (e : SupEntry) : Bool :=
  e.loaded && e.writable && !e.allZero && e.pageEnd != 0 &&
    (e.slot.isSome || e.frameNo.any fun f => (v.frameTable f).dirty)

/-- The files after `size` bytes of a page have been written. -/
def fileWrite (v : State) (f : Option ℕ) (page : Page) (size offset : ℕ) : ℕ → List UInt8 :=
  match f with
  | none => v.files
  | some x =>
    if v.denyWrite x then v.files
    else update v.files x (write (v.files x) offset (slice page 0 size))

/-- The files after a page has been unmapped. -/
def writeBack (v : State) (e : SupEntry) : ℕ → List UInt8 :=
  if v.writesBack e then v.fileWrite e.f (v.content e) e.pageEnd e.fileOfs else v.files

theorem frameWrite_eq (v : State) (x : Option ℕ) (f size offset : ℕ) :
    v.frameWrite x f size offset = { v with files := v.fileWrite x (v.mem f) size offset } := by
  unfold frameWrite fileWrite
  cases x with
  | none => rfl
  | some x =>
    dsimp only
    split_ifs <;> rfl

theorem fileWrite_congr (hfls : v'.files = v.files)
    (hdeny : v'.denyWrite = v.denyWrite) (h : SamePage a b) (hsize : size ≤ PGSIZE) :
    v'.fileWrite x a size offset = v.fileWrite x b size offset := by
  have hslc : slice a 0 size = slice b 0 size :=
    slice_congr fun j hj => h _ (by omega)
  unfold fileWrite
  rw [hfls, hdeny, hslc]

/-- What unmapping the page `p` does, if it is chosen. -/
structure Unmaps (chosen : SupEntry → Bool) (p : ℕ) (v v' : State) : Prop where
  moved : Moved {p} v v'
  denyWrite : v'.denyWrite = v.denyWrite
  page : (∃ e, v.sup p = some e ∧ chosen e = true ∧ v'.sup p = none ∧ v'.files = v.writeBack e) ∨
    (∀ e, v.sup p = some e → chosen e = false) ∧ v' = v

theorem Moved.refl (X : Set ℕ) (v : State) : Moved X v v :=
  ⟨fun _ => id, fun _ hp => .inl ⟨hp, rfl, fun _ _ => rfl⟩, fun {p e e'} _ hp _ hp' => by
    cases mem_unique hp hp'
    exact .refl _⟩

/-- The page `p` has been removed: the other pages stay. -/
theorem Moved.remove (h : Inv m v temp) (hsup : v'.sup = update v.sup p none)
    (hpte : ∀ q, q ≠ p → v'.pagedir q = v.pagedir q)
    (htbl : ∀ g, v.frameOf p ≠ some g → v'.frameTable g = v.frameTable g)
    (hmem : ∀ g, v.frameOf p ≠ some g → temp ≠ some g → v'.mem g = v.mem g)
    (hswap : v'.swapBlock = v.swapBlock) : Moved {p} v v' := by
  have hoth : ∀ {q}, q ∉ ({p} : Set ℕ) → v'.sup q = v.sup q := fun hq => by
    rw [hsup, update_of_ne hq]
  have hfra : ∀ {q eq g}, q ∉ ({p} : Set ℕ) → v.sup q = some eq → eq.frameNo = some g →
      v.frameOf p ≠ some g ∧ temp ≠ some g := by
    intro q eq g hq hp hg
    refine ⟨fun hf => hq ?_, ?_⟩
    · exact some.inj (h.frames.unique ((frameOf_eq hp).trans hg) hf)
    · rintro rfl
      exact h.ne_temp hp hg rfl
  refine ⟨fun hq hp => (hoth hq).trans hp, fun {q eq} hq hp => ?_,
    fun {q eq eq'} hq hp hin hp' => ?_⟩
  · exact .inl ⟨(hoth hq).trans hp, hpte q hq, fun g hg => htbl g (hfra hq hp hg).1⟩
  · cases mem_unique hp ((hoth hq).symm.trans hp')
    refine content_congr (fun g hg => .of_eq (hmem g (hfra hq hp hg).1 (hfra hq hp hg).2))
      (fun _ _ => by rw [hswap]; exact .refl _) fun hf hs => ?_
    simp [hf, hs] at hin

theorem Inv.unmapFrame (h : Inv m v temp) (hp : v.sup p = some e) (hf : e.frameNo = some f) :
    ∃ w, v.unmapFrame m p e = .ok w ∧ Inv m (w.supRemoveEntry p) temp ∧
      Moved {p} v (w.supRemoveEntry p) ∧ w.denyWrite = v.denyWrite ∧ w.files = v.writeBack e := by
  have hld := h.loaded_of_frame hp hf
  have hslot := h.slot_eq_none hp hf
  obtain ⟨huser, hused⟩ := h.used hp hf
  have hfra := (frameOf_eq hp).trans hf
  have hfls : (if e.writable && !e.allZero && (v.frameTable f).dirty && e.pageEnd != 0 then
      v.frameWrite e.f f e.pageEnd e.fileOfs else v) = { v with files := v.writeBack e } := by
    have hcond : v.writesBack e =
        (e.writable && !e.allZero && (v.frameTable f).dirty && e.pageEnd != 0) := by
      simp [writesBack, hld, hslot, hf, Bool.and_assoc, Bool.and_comm (v.frameTable f).dirty]
    rw [frameWrite_eq, ← hcond, writeBack, content_of_frame hf]
    split_ifs <;> rfl
  refine ⟨{ v with
    files := v.writeBack e
    pagedir := update v.pagedir p { v.pagedir p with present := false } }.freed f, ?_, ?_, ?_,
    rfl, rfl⟩
  · simp only [State.unmapFrame, hf, hfls, pagedirClearPage, if_pos (h.lt_physBase hp hld)]
    exact freeFrame_eq huser hused (by rw [h.table f huser, hused])
  · refine h.remove rfl (fun q => ?_) ?_ (fun g => ?_) (freed_table h.table) rfl fun s => ?_
    · simp only [supRemoveEntry, freed, update_apply]
      split_ifs <;> rfl
    · simp [supRemoveEntry, freed]
    · simp only [supRemoveEntry, freed, update_apply, hfra]
      split_ifs with hg
      · simp [hg]
      · simp [Ne.symm hg]
    · simp [supRemoveEntry, freed, slotOf_eq hp, hslot]
  · have hne : ∀ {g}, v.frameOf p ≠ some g → g ≠ f := by
      rintro g hg rfl
      exact hg hfra
    exact Moved.remove h rfl (fun q hq => update_of_ne hq ..) (fun g hg => update_of_ne (hne hg) ..)
      (fun g hg _ => update_of_ne (hne hg) ..) rfl

/-- Reading a slot to the frame of the kernel, writing it to the file and giving the slot back. -/
theorem Inv.saveSlot (h : Inv m v (some f)) (hp : v.sup p = some e) (hs : e.slot = some s)
    (hback : v.writesBack e = true) :
    ∃ w, v.swapRead m s f = .ok w ∧
      ∃ w', (w.frameWrite e.f f e.pageEnd e.fileOfs).swapFree m s = .ok w' ∧
        Inv m (w'.supRemoveEntry p) (some f) ∧ Moved {p} v (w'.supRemoveEntry p) ∧
        w'.denyWrite = v.denyWrite ∧ w'.files = v.writeBack e := by
  obtain ⟨hlt, htkn⟩ := h.taken hp hs
  have hnone := h.frameNo_eq_none hp hs
  have hfra := (frameOf_eq hp).trans hnone
  refine ⟨_, by simp only [swapRead, swapSlotToSector, hlt, htkn]; rfl, { v with
      mem := update v.mem f (readSectors (s * SECTORS_PER_PAGE) v.swapBlock (v.mem f))
      files := v.writeBack e
      swapSlots := update v.swapSlots s false }, ?_, ?_, ?_, rfl, rfl⟩
  · simp only [frameWrite_eq, swapFree, hlt, htkn, update_self, writeBack, hback]
    rw [content_of_slot hnone hs]
    exact congrArg (fun files => Except.ok { v with
      mem := update v.mem f (readSectors (s * SECTORS_PER_PAGE) v.swapBlock (v.mem f))
      files
      swapSlots := update v.swapSlots s false })
      (fileWrite_congr rfl rfl (readSectors_swapped s _ _) (h.wellFormed hp).pageEnd_le)
  · refine h.remove rfl (fun q => ?_) ?_ (fun g => ?_) h.table rfl fun s' => ?_
    · split_ifs with hq
      · rw [hq]
      · rfl
    · simp [supRemoveEntry, h.present, hfra]
    · simp [supRemoveEntry, hfra]
    · simp only [supRemoveEntry, slotOf_eq hp, hs, update_apply]
      split_ifs with hss
      · simp [hss]
      · simp [Ne.symm hss]
  · refine Moved.remove h rfl (fun _ _ => rfl) (fun _ _ => rfl) (fun g _ hg => ?_) rfl
    exact update_of_ne (fun hgf => hg (congrArg some hgf.symm)) ..

/-- Giving back the slot of a page that is not written to its file. -/
theorem Inv.dropSlot (h : Inv m v temp) (hp : v.sup p = some e) (hs : e.slot = some s)
    (hback : v.writesBack e = false) :
    ∃ w, v.swapFree m s = .ok w ∧ Inv m (w.supRemoveEntry p) temp ∧
      Moved {p} v (w.supRemoveEntry p) ∧ w.denyWrite = v.denyWrite ∧ w.files = v.writeBack e := by
  obtain ⟨hlt, htkn⟩ := h.taken hp hs
  have hnone := h.frameNo_eq_none hp hs
  have hfra := (frameOf_eq hp).trans hnone
  refine ⟨{ v with swapSlots := update v.swapSlots s false }, by
    rw [swapFree, if_pos ⟨hlt, htkn⟩], ?_, ?_, rfl, ?_⟩
  · refine h.remove rfl (fun q => ?_) ?_ (fun g => ?_) h.table rfl fun s' => ?_
    · split_ifs with hq
      · rw [hq]
      · rfl
    · simp [supRemoveEntry, h.present, hfra]
    · simp [supRemoveEntry, hfra]
    · simp only [supRemoveEntry, slotOf_eq hp, hs, update_apply]
      split_ifs with hss
      · simp [hss]
      · simp [Ne.symm hss]
  · exact Moved.remove h rfl (fun _ _ => rfl) (fun _ _ => rfl) (fun _ _ _ => rfl) rfl
  · rw [writeBack, hback]
    rfl

theorem Inv.unmapSlot (h : Inv m v temp) (hpool : ∃ f, m.userFrame f = true) (hp : v.sup p = some e)
    (hs : e.slot = some s) :
    Meets (SwapTooSmall m) (fun x => Inv m (x.2.supRemoveEntry p) x.1 ∧
      Moved {p} v (x.2.supRemoveEntry p) ∧ x.2.denyWrite = v.denyWrite ∧
      x.2.files = v.writeBack e) (v.unmapSlot m temp e s) := by
  have hcond : v.writesBack e = (e.writable && !e.allZero && e.pageEnd != 0) := by
    simp [writesBack, h.loaded_of_slot hp hs, hs]
  unfold State.unmapSlot
  rw [← hcond]
  cases hback : v.writesBack e with
  | false =>
    obtain ⟨w, hfree, hw⟩ := h.dropSlot hp hs hback
    simp only [ok_bind, hfree]
    exact hw
  | true =>
    have hsave : ∀ {w f}, Inv m w (some f) → Moved ∅ v w → SameRest v w →
        Meets (SwapTooSmall m) (fun x => Inv m (x.2.supRemoveEntry p) x.1 ∧
          Moved {p} v (x.2.supRemoveEntry p) ∧ x.2.denyWrite = v.denyWrite ∧
          x.2.files = v.writeBack e)
          (do
            let u ← w.swapRead m s f
            let u ← (u.frameWrite e.f f e.pageEnd e.fileOfs).swapFree m s
            return (some f, u)) := by
      intro w f hw hmvd hrest
      have hpw := hmvd.sup_eq (Set.notMem_empty p) hp (h.frameNo_eq_none hp hs)
      have hbck : w.writesBack e = true := by
        rw [← hback]
        simp [writesBack, hs]
      have hfls : w.writeBack e = v.writeBack e := by
        rw [writeBack, writeBack, hbck, hback]
        exact fileWrite_congr hrest.files hrest.denyWrite
          (hmvd.content hrest.files (Set.notMem_empty p) hp hpw) (h.wellFormed hp).pageEnd_le
      obtain ⟨u, hread, u', hfree, hinv, hmove, hdeny, hend⟩ := hw.saveSlot hpw hs hbck
      rw [hread, ok_bind, hfree]
      exact ⟨hinv, (hmvd.mono (Set.empty_subset _)).trans hmove, hdeny.trans hrest.denyWrite,
        hend.trans hfls⟩
    cases temp with
    | some f => exact hsave h (.refl _ _) ⟨rfl, rfl, rfl, rfl⟩
    | none =>
      refine (h.getFrame hpool).bind ?_
      rintro ⟨f, w⟩ ⟨hw, hmvd, hrest, -⟩
      exact hsave hw hmvd hrest

/-- One round of the loop. -/
theorem Inv.unmapPage (h : Inv m v temp) (hpool : ∃ f, m.userFrame f = true)
    (chosen : SupEntry → Bool) (p : ℕ) :
    Meets (SwapTooSmall m) (fun x => Inv m x.2 x.1 ∧ Unmaps chosen p v x.2)
      (unmapPage m chosen (temp, v) p) := by
  have hsame : ∀ {x : Option ℕ × State}, x = (temp, v) →
      (∀ e, v.sup p = some e → chosen e = false) → Inv m x.2 x.1 ∧ Unmaps chosen p v x.2 := by
    rintro _ rfl hno
    exact ⟨h, .refl _ _, rfl, .inr ⟨hno, rfl⟩⟩
  have hgone : ∀ {e : SupEntry} {t : Option ℕ} {w : State}, v.sup p = some e → chosen e = true →
      Inv m (w.supRemoveEntry p) t ∧ Moved {p} v (w.supRemoveEntry p) ∧
        w.denyWrite = v.denyWrite ∧ w.files = v.writeBack e →
      Inv m (w.supRemoveEntry p) t ∧ Unmaps chosen p v (w.supRemoveEntry p) := by
    rintro e t w hp hch ⟨hw, hmvd, hdeny, hfls⟩
    exact ⟨hw, hmvd, hdeny, .inl ⟨e, hp, hch, update_self .., hfls⟩⟩
  unfold State.unmapPage
  cases hp : v.sup p with
  | none => exact meets_ok.mpr (hsame rfl fun e he => by cases hp.symm.trans he)
  | some e =>
    dsimp only
    split_ifs with hch hld
    · cases hs : e.slot with
      | none =>
        obtain ⟨f, hf⟩ := isSome_iff_exists.mp (((h.wellFormed hp).loaded hld).mpr hs)
        obtain ⟨w, heq, hw⟩ := h.unmapFrame hp hf
        rw [heq]
        exact hgone hp hch hw
      | some s =>
        refine (h.unmapSlot hpool hp hs).bind ?_
        rintro ⟨t, w⟩ hw
        exact hgone hp hch hw
    · have hun : e.loaded = false := by simpa using hld
      obtain ⟨hf, hs, -⟩ := (h.wellFormed hp).unloaded hun
      refine hgone hp hch ⟨?_, Moved.remove h rfl (fun _ _ => rfl) (fun _ _ => rfl)
        (fun _ _ _ => rfl) rfl, rfl, ?_⟩
      · refine h.remove rfl (fun q => ?_) ?_ (fun g => ?_) h.table rfl fun s => ?_
        · split_ifs with hq
          · rw [hq]
          · rfl
        · simp [supRemoveEntry, h.present, frameOf_eq hp, hf]
        · simp [supRemoveEntry, frameOf_eq hp, hf]
        · simp [supRemoveEntry, slotOf_eq hp, hs]
      · simp [writeBack, writesBack, hun]
    · refine meets_ok.mpr (hsame rfl fun e' he => ?_)
      cases mem_unique hp he
      simpa using hch

/-- The rule for the loop that unmaps pages: `I n` holds before the page `n` is looked at. -/
theorem Inv.unmapPages (h : Inv m v none) (hpool : ∃ f, m.userFrame f = true)
    (chosen : SupEntry → Bool) {I : ℕ → State → Prop} (h0 : I 0 (v.setBits m))
    (hstep : ∀ n < m.pages, ∀ w w' temp, Inv m w temp → I n w → Unmaps chosen n w w' →
      I (n + 1) w') :
    Meets (SwapTooSmall m) (fun v' => Inv m v' none ∧
      ∃ w, I m.pages w ∧ Moved ∅ w v' ∧ SameRest w v') (v.unmapPages m chosen) := by
  have hloop : Meets (SwapTooSmall m) (fun x => Inv m x.2 x.1 ∧ I m.pages x.2)
      ((List.range m.pages).foldlM (State.unmapPage m chosen) (none, v.setBits m)) := by
    refine Meets.foldlM_range (I := fun n (x : Option ℕ × State) => Inv m x.2 x.1 ∧ I n x.2)
      ⟨h.setBits, h0⟩ _ ?_
    rintro n hn ⟨temp, w⟩ ⟨hw, hI⟩
    exact (hw.unmapPage hpool chosen n).mono fun x hx =>
      ⟨hx.1, hstep n hn w x.2 temp hw hI hx.2⟩
  refine hloop.bind ?_
  rintro ⟨_ | f, w⟩ ⟨hw, hI⟩
  · exact ⟨hw, w, hI, .refl _ _, rfl, rfl, rfl, rfl⟩
  · obtain ⟨hfree, hinv, hmvd⟩ := hw.freeFrame
    dsimp only
    rw [hfree]
    exact ⟨hinv, w, hI, hmvd, rfl, rfl, rfl, rfl⟩

/-! ### Conservation -/

/-- Files are not longer than an address space; the kernel has `off_t` for their lengths. -/
def Bounded (m : Machine) (files : ℕ → List UInt8) : Prop :=
  ∀ x, (files x).length ≤ m.pages * PGSIZE

theorem Inv.bounded_writeBack (h : Inv m v temp) (hb : Bounded m v.files) (hp : v.sup p = some e) :
    Bounded m (v.writeBack e) := by
  intro x
  unfold writeBack fileWrite
  cases e.f with
  | none =>
    rw [ite_self]
    exact hb x
  | some y =>
    have hbound := h.bounded hp
    have hy := hb y
    dsimp only
    split_ifs
    · exact hb x
    · rw [update_apply]
      split_ifs
      · rw [length_write, length_slice]
        omega
      · exact hb x
    · exact hb x

theorem Unmaps.bounded (h : Unmaps chosen p v v') (hv : Inv m v temp) (hb : Bounded m v.files) :
    Bounded m v'.files := by
  rcases h.page with ⟨e, hp, -, -, hfls⟩ | ⟨-, rfl⟩
  · rw [hfls]
    exact hv.bounded_writeBack hb hp
  · exact hb

theorem Inv.supRemoveMap (h : Inv m v none) (hpool : ∃ f, m.userFrame f = true)
    (hb : Bounded m v.files) (mapid : ℤ) :
    Meets (SwapTooSmall m) (fun v' => Inv m v' none ∧ Bounded m v'.files)
      (v.supRemoveMap m mapid) := by
  refine (h.unmapPages hpool _ (I := fun _ w => Bounded m w.files) ?_ ?_).mono ?_
  · obtain ⟨table, heq, -⟩ := setBits_eq m v
    rw [heq]
    exact hb
  · exact fun n _ w w' temp hw hI hun => hun.bounded hw hI
  · rintro v' ⟨hv', w, hI, -, hrest⟩
    rw [hrest.files]
    exact ⟨hv', hI⟩

/-- After `sup_free_table` no page is mapped. -/
theorem Inv.supFreeTable (h : Inv m v none) (hpool : ∃ f, m.userFrame f = true) :
    Meets (SwapTooSmall m) (fun v' => Inv m v' none ∧ ∀ p, v'.sup p = none)
      (v.supFreeTable m) := by
  refine (h.unmapPages hpool _ (I := fun n w => ∀ q < n, w.sup q = none) ?_ ?_).mono ?_
  · exact fun q hq => absurd hq (Nat.not_lt_zero q)
  · intro n _ w w' temp hw hI hun q hq
    by_cases hqn : q = n
    · subst hqn
      rcases hun.page with ⟨e, -, -, hnone, -⟩ | ⟨hno, rfl⟩
      · exact hnone
      · cases hp : w'.sup q with
        | none => rfl
        | some e => cases hno e hp
    · exact hun.moved.unmapped hqn (hI q (by omega))
  · rintro v' ⟨hv', w, hI, hmvd, -⟩
    refine ⟨hv', fun p => ?_⟩
    cases hp : v'.sup p with
    | none => rfl
    | some e => exact hp.symm.trans (hmvd.unmapped (Set.notMem_empty p) (hI p (hv'.lt_pages hp)))

/-- The frames and slots that are used are those of the pages, each of one page. -/
structure Conserved (m : Machine) (v : State) : Prop where
  slots : ∀ s < m.numSlots, v.swapSlots s = true ↔
    ∃! p, ∃ e, v.sup p = some e ∧ e.slot = some s
  frames : ∀ f, m.userFrame f = true → (v.used f = true ↔
    ∃! p, ∃ e, v.sup p = some e ∧ e.frameNo = some f)
  /-- When the process exits, all of them are given back. -/
  exit : Meets (SwapTooSmall m) (fun v' => (∀ s < m.numSlots, v'.swapSlots s = false) ∧
    ∀ f, m.userFrame f = true → v'.used f = false) (v.supFreeTable m)

section
variable (h : Inv m v none) (hpool : ∃ f, m.userFrame f = true)
include h hpool

theorem Inv.conserved : Conserved m v where
  slots s hs := by
    have hiff := h.slots.taken_iff s
    simp only [hs, true_and, slotOf, bind_eq_some_iff] at hiff
    rw [hiff]
    constructor
    · rintro ⟨p, e, hp⟩
      refine ⟨p, ⟨e, hp⟩, ?_⟩
      rintro q ⟨eq, hq⟩
      exact h.slots.unique (bind_eq_some_iff.mpr ⟨eq, hq⟩) (bind_eq_some_iff.mpr ⟨e, hp⟩)
    · rintro ⟨p, hp, -⟩
      exact ⟨p, hp⟩
  frames f hf := by
    constructor
    · intro hu
      obtain ⟨_ | p, hp⟩ := (h.frames.taken_iff f).mp ⟨hf, hu⟩
      · cases hp
      obtain ⟨e, hp, he⟩ := exists_of_frameOf hp
      refine ⟨p, ⟨e, hp, he⟩, ?_⟩
      rintro q ⟨eq, hq, hfq⟩
      exact h.frame_unique hp he hq hfq
    · rintro ⟨p, ⟨e, hp, he⟩, -⟩
      exact (h.used hp he).2
  exit := by
    refine (h.supFreeTable hpool).mono ?_
    rintro v' ⟨hv', hnone⟩
    refine ⟨fun s hs => ?_, fun f hf => ?_⟩
    · have := hv'.slots.not_taken (fun p => by simp [slotOf, hnone]) s
      simpa [hs] using this
    · have := hv'.frames.not_taken (fun q => by cases q <;> simp [holder, frameOf, hnone]) f
      simpa [hf] using this

theorem Inv.step_bounded (hb : Bounded m v.files) (op : Op) :
    Meets (SwapTooSmall m) (fun y => Inv m y.2 none ∧ Bounded m y.2.files) (v.step m op) := by
  by_cases hop : ∀ id, op ≠ .munmap id
  · refine (h.step hpool (fun x => numPages_le (hb x)) op hop).mono fun y hy => ⟨hy.1, ?_⟩
    rw [hy.2.1]
    exact hb
  · push Not at hop
    obtain ⟨id, rfl⟩ := hop
    exact (h.supRemoveMap hpool hb id).bind fun w hw => hw

theorem Inv.exec_bounded (hb : Bounded m v.files) (ops : List Op) :
    Meets (SwapTooSmall m) (fun y => Inv m y.2 none ∧ Bounded m y.2.files) (State.exec m ops v) := by
  induction ops generalizing v with
  | nil => exact ⟨h, hb⟩
  | cons op ops ih =>
    refine (h.step_bounded hpool hb op).bind ?_
    rintro ⟨_ | _, w⟩ ⟨hw, hb'⟩
    · exact ⟨hw, hb'⟩
    · exact ih hw hb'

end

end State

open State in
/-- **Frames and slots are conserved.**  In every run of a process no assertion fails and no loop
hangs, and the frames and slots that are used are those of its pages, also when the process is
killed; when it exits, all of them are given back. -/
theorem frames_and_slots_conserved (m : Machine) (hpool : ∃ f, m.userFrame f = true) (v₀ : State)
    (h₀ : Image m v₀) (hfiles : Bounded m v₀.files) (ops : List Op) :
    (∀ e, exec m ops v₀ = .error e → SwapTooSmall m e) ∧
      ∀ alive v, exec m ops v₀ = .ok (alive, v) → Conserved m v := by
  have hrun := h₀.inv.exec_bounded hpool hfiles ops
  exact ⟨fun e he => hrun.of_eq_error he, fun _ v hv => (hrun.of_eq_ok hv).1.conserved hpool⟩

open State in
theorem frames_and_slots_conserved_three_pages :
    ∃ v, exec smallMachine (threePages ++ [.munmap 0]) smallProcess = .ok (true, v) ∧
      v.files 0 = [7, 20, 30, 11, 21, 31, 12, 22, 32] ∧ Conserved smallMachine v := by
  have hrun : (exec smallMachine (threePages ++ [.munmap 0]) smallProcess).toOption.map
      (fun x => (x.1, x.2.files 0)) = some (true, [7, 20, 30, 11, 21, 31, 12, 22, 32]) := by
    decide +kernel
  obtain ⟨⟨alive, v⟩, heq, hend⟩ := Outcome.eq_ok_of_map hrun
  obtain ⟨rfl, hfls⟩ := Prod.mk.inj hend
  exact ⟨v, heq, hfls, (frames_and_slots_conserved smallMachine ⟨260, by decide +kernel⟩
    smallProcess image_smallProcess bounded_smallProcess _).2 true v heq⟩

end Pintos.Vm
