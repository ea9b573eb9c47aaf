import Mathlib.Data.Nat.ModEq
import Pintos.Vm.Eviction

/-! # Mapping and loading pages

What the functions of `vm/page.c` that map and load pages do to the places of the pages, one lemma
for each.

* **New pages.**  A new page has its initial bytes.
* **Loading.**  A page that is loaded keeps its bytes, whether they come from the file or from a slot
  (`Loaded`).
* **Faults.**  The handler extends the stack or loads the page; after two faults the access gets
  through (`Inv.access`). -/

namespace Pintos.Vm.State
open Bytes Outcome Function List

variable {m : Machine} {v w w' v' : State} {temp : Option ℕ} {p f s : ℕ} {e e' : SupEntry}

/-! ### Frames in the hands of the kernel -/

/-- The state after a frame has been freed. -/
def freed (v : State) (f : ℕ) : State :=
  { v with
    used := update v.used f false
    mem := update v.mem f fun _ => 0xcc
    frameTable := update v.frameTable f ⟨false, false, false⟩ }

theorem freeFrame_eq (huser : m.userFrame f = true) (hused : v.used f = true)
    (hpage : (v.frameTable f).page = true) : v.freeFrame m f = .ok (v.freed f) := by
  have hvalid : m.valid f = true := by
    simp only [Machine.userFrame, Bool.and_eq_true] at huser
    exact huser.1
  rw [freeFrame, if_pos ⟨Machine.lt_of_valid hvalid, hpage⟩, pallocFreePage, if_pos ⟨hvalid, hused⟩]
  rfl

theorem freed_table (h : ∀ x, m.userFrame x = true → (v.frameTable x).page = v.used x) (x : ℕ)
    (hx : m.userFrame x = true) : ((v.freed f).frameTable x).page = (v.freed f).used x := by
  simp only [freed, update_apply]
  split_ifs
  · rfl
  · exact h x hx

theorem Inv.freeFrame (h : Inv m v (some f)) :
    v.freeFrame m f = .ok (v.freed f) ∧ Inv m (v.freed f) none ∧ Moved ∅ v (v.freed f) := by
  obtain ⟨huser, hused⟩ := h.used_temp
  refine ⟨freeFrame_eq huser hused (by rw [h.table f huser, hused]),
    h.drop rfl rfl rfl (freed_table h.table) rfl rfl, fun _ => id,
    fun _ hq => .inl ⟨hq, rfl, fun g hg => ?_⟩, fun {q eq eq'} _ hq _ hq' => ?_⟩
  · exact update_of_ne (h.ne_temp hq hg) ..
  · cases Option.mem_unique hq hq'
    exact content_congr (fun g hg => .of_eq (update_of_ne (h.ne_temp hq hg) ..))
      (fun _ _ => .refl _) fun _ _ => rfl

theorem Moved.trans (h : Moved X v w) (h' : Moved X w w') : Moved X v w' where
  unmapped hx hp := h'.unmapped hx (h.unmapped hx hp)
  mapped {p e} hx hp := by
    rcases h.mapped hx hp with ⟨hsup, hpte, htbl⟩ | ⟨hsome, s, hsup⟩
    · rcases h'.mapped hx hsup with ⟨hsup', hpte', htbl'⟩ | ⟨hsome, s, hsup'⟩
      · exact .inl ⟨hsup', hpte'.trans hpte, fun f hf => (htbl' f hf).trans (htbl f hf)⟩
      · exact .inr ⟨hsome, s, hsup'⟩
    · exact .inr ⟨hsome, s, h'.sup_eq hx hsup rfl⟩
  bytes {p e e'} hx hp hin hp' := by
    rcases h.mapped hx hp with ⟨hsup, -⟩ | ⟨-, s, hsup⟩
    · exact (h'.bytes hx hsup hin hp').trans (h.bytes hx hp hin hsup)
    · exact (h'.bytes hx hsup (.inr rfl) hp').trans (h.bytes hx hp hin hsup)

theorem Moved.mono (h : Moved X v v') (hXY : X ⊆ Y) : Moved Y v v' :=
  ⟨fun hx => h.unmapped fun hX => hx (hXY hX), fun hx => h.mapped fun hX => hx (hXY hX),
    fun hx => h.bytes fun hX => hx (hXY hX)⟩

/-- A frame in the hands of the kernel is given to the page `p`: the other pages stay. -/
theorem Moved.install (h : Inv m v (some f)) (hsup : v'.sup = update v.sup p (some e'))
    (hpte : v'.pagedir = update v.pagedir p pte) (htbl : v'.frameTable = v.frameTable)
    (hmem : ∀ g, g ≠ f → v'.mem g = v.mem g) (hswap : v'.swapBlock = v.swapBlock)
    (hfls : v'.files = v.files) : Moved {p} v v' := by
  have hoth : ∀ {q}, q ∉ ({p} : Set ℕ) → v'.sup q = v.sup q := fun hq => by
    rw [hsup, update_of_ne hq]
  refine ⟨fun hq hp => (hoth hq).trans hp, fun {q eq} hq hp => ?_, fun {q eq eq'} hq hp _ hp' => ?_⟩
  · refine .inl ⟨(hoth hq).trans hp, ?_, fun g _ => by rw [htbl]⟩
    rw [hpte, update_of_ne hq]
  · obtain rfl : eq = eq' := Option.some.inj (hp.symm.trans ((hoth hq).symm.trans hp'))
    exact content_congr (fun g hg => .of_eq (hmem g (h.ne_temp hp hg)))
      (fun _ _ => by rw [hswap]; exact .refl _) fun _ _ => hfls

theorem Inv.pagedirSetPage (h : Inv m v (some f)) (hp : v.frameOf p = none) (hlt : p < m.physBase)
    (w : State) (hw : w.pagedir = v.pagedir) (writable : Bool) :
    w.pagedirSetPage m p f writable = .ok { w with
      pagedir := update w.pagedir p ⟨true, f, writable, false, false⟩ } := by
  have hvalid := h.used_temp.1
  simp only [Machine.userFrame, Bool.and_eq_true] at hvalid
  have habe : (w.pagedir p).present = false := by rw [hw, h.present, hp]; rfl
  rw [State.pagedirSetPage, if_pos ⟨hlt, Machine.lt_of_valid hvalid.1, habe⟩]

/-! ### Pages of zeros -/

/-- The page `p` is new and full of zeros; the other pages may have been moved. -/
structure Zeroed (v v' : State) (p : ℕ) : Prop where
  moved : Moved {p} v v'
  rest : SameRest v v'
  before : v.sup p = none
  after : ∃ e, v'.sup p = some e ∧ e.allZero = true ∧ v'.content e = fun _ => 0

theorem Inv.supAllocAllZeros (h : Inv m v none) (hpool : ∃ f, m.userFrame f = true)
    (hlt : vaddr / PGSIZE < m.physBase) :
    Meets (SwapTooSmall m) (fun x => Inv m x.2 none ∧
      (x.1 = false ∧ Moved ∅ v x.2 ∧ SameRest v x.2 ∨ x.1 = true ∧ Zeroed v x.2 (vaddr / PGSIZE)))
      (v.supAllocAllZeros m vaddr true) := by
  refine (h.getFrame hpool).bind ?_
  rintro ⟨f, w⟩ ⟨hw, hmvd, hrest, hzero, -⟩
  obtain ⟨hfree, hinv, hback⟩ := hw.freeFrame
  dsimp only at *
  split_ifs with hofs hsome
  · rw [hfree]
    exact ⟨hinv, .inl ⟨rfl, hmvd.trans hback, hrest.trans ⟨rfl, rfl, rfl, rfl⟩⟩⟩
  · rw [hfree]
    exact ⟨hinv, .inl ⟨rfl, hmvd.trans hback, hrest.trans ⟨rfl, rfl, rfl, rfl⟩⟩⟩
  · have hnone : w.sup (vaddr / PGSIZE) = none := by simpa using hsome
    have hfra : w.frameOf (vaddr / PGSIZE) = none := by simp [frameOf, hnone]
    have hslot : w.slotOf (vaddr / PGSIZE) = none := by simp [slotOf, hnone]
    rw [hw.pagedirSetPage hfra hlt w rfl]
    refine ⟨hw.install hfra hlt rfl ⟨Nat.le_refl _, by simp, fun _ => by simp⟩
      (by rw [zero_add]; exact Nat.le_mul_of_pos_left _ m.pages_pos) rfl (by simp [supSetEntry])
      rfl rfl rfl (fun s => by simp [hslot, supSetEntry]), .inr ⟨rfl, ?_⟩⟩
    refine ⟨(hmvd.mono (Set.empty_subset _)).trans
      (Moved.install hw rfl rfl rfl (fun _ _ => rfl) rfl rfl), hrest.trans ⟨rfl, rfl, rfl, rfl⟩, ?_,
      _, update_self .., rfl, ?_⟩
    · cases hp : v.sup (vaddr / PGSIZE) with
      | none => rfl
      | some e =>
        rcases hmvd.mapped (Set.notMem_empty _) hp with ⟨hsup, -⟩ | ⟨-, s, hsup⟩ <;>
          cases hsup.symm.trans hnone
    · exact (content_of_frame rfl).trans hzero

/-! ### Loading -/

/-- The page `p` is in a frame and has kept its bytes; the other pages may have been moved. -/
structure Loaded (v v' : State) (p : ℕ) (e : SupEntry) : Prop where
  moved : Moved {p} v v'
  rest : SameRest v v'
  after : ∃ f, v'.sup p = some { e with slot := none, frameNo := some f, loaded := true } ∧
    v'.pagedir p = ⟨true, f, e.writable, false, false⟩ ∧
    v'.frameTable f = ⟨true, false, false⟩ ∧ SamePage (v'.mem f) (v.content e)

/-- The page `p` can be loaded. -/
def Loadable (v : State) (p : ℕ) (e : SupEntry) (write : Bool) : Prop :=
  v.sup p = some e ∧ e.frameNo = none ∧ (write = true → e.writable = true)

theorem overwrite_file {files : ℕ → List UInt8} (hf : e.f = some x) (hz : e.allZero = false) :
    overwrite (fun _ => 0) 0 (((files x).drop e.fileOfs).take e.pageEnd) = initial files e := by
  funext i
  simp only [initial, hf, hz, true_and]
  by_cases hi : i < e.pageEnd ∧ e.fileOfs + i < (files x).length
  · rw [overwrite_of_inside (Nat.zero_le i) (by simp; omega), if_pos hi.1, region,
      getD_eq_getElem _ _ (by simp; omega), getD_eq_getElem _ _ hi.2]
    simp
  · rw [overwrite_of_outside (by simp; omega)]
    split_ifs with hlt
    · rw [region_of_length_le (by omega)]
    · rfl

theorem Inv.supLoadPage (h : Inv m v none) (hpool : ∃ f, m.userFrame f = true)
    (hlt : vaddr / PGSIZE < m.physBase) (write : Bool) :
    Meets (SwapTooSmall m) (fun x =>
      x = (false, v) ∧ (∀ e, ¬ v.Loadable (vaddr / PGSIZE) e write) ∨
      x.1 = true ∧ Inv m x.2 none ∧ ∃ e, v.Loadable (vaddr / PGSIZE) e write ∧
        Loaded v x.2 (vaddr / PGSIZE) e)
      (v.supLoadPage m vaddr true write) := by
  unfold State.supLoadPage
  generalize vaddr / PGSIZE = p at *
  dsimp only
  cases hp : v.sup p with
  | none => exact meets_ok.mpr <| .inl ⟨rfl, fun e he => by cases hp.symm.trans he.1⟩
  | some e =>
    have hsame : ∀ {e'}, v.Loadable p e' write → e' = e := fun he =>
      Option.mem_unique he.1 hp
    dsimp only
    split_ifs with hld hwrt
    · refine meets_ok.mpr (.inl ⟨rfl, fun e' he => ?_⟩)
      cases hsame he
      have := ((h.wellFormed hp).loaded hld.1).mpr hld.2
      simp [he.2.1] at this
    · refine meets_ok.mpr (.inl ⟨rfl, fun e' he => ?_⟩)
      cases hsame he
      rw [he.2.2 hwrt.1] at hwrt
      cases hwrt.2
    · have hfra : e.frameNo = none := by
        cases hf : e.frameNo with
        | none => rfl
        | some f => exact absurd ⟨h.loaded_of_frame hp hf, h.slot_eq_none hp hf⟩ hld
      have hable : v.Loadable p e write := by
        refine ⟨hp, hfra, fun hw => ?_⟩
        by_contra hno
        exact hwrt ⟨hw, by simpa using hno⟩
      refine (h.getFrame hpool).bind ?_
      rintro ⟨f, w⟩ ⟨hw, hmvd, hrest, hzero, htbl⟩
      have hpw := hmvd.sup_eq (Set.notMem_empty _) hp hfra
      have hnone := (frameOf_eq hpw).trans hfra
      dsimp only at *
      cases hs : e.slot with
      | none =>
        -- the page has never been loaded
        have hun : e.loaded = false := by
          by_contra hno
          exact hld ⟨by simpa using hno, hs⟩
        obtain ⟨-, -, hz, hfile⟩ := (h.wellFormed hp).unloaded hun
        obtain ⟨x, hx⟩ := Option.isSome_iff_exists.mp hfile
        have hread : w.frameRead e.f f e.pageEnd e.fileOfs = some { w with
            mem := update w.mem f (overwrite (w.mem f) 0
              (((w.files x).drop e.fileOfs).take e.pageEnd)) } := by
          rw [hx]
          rfl
        rw [hread]
        simp only [hw.pagedirSetPage hnone hlt]
        refine meets_pure.mpr <| .inr ⟨rfl, hw.install hnone hlt rfl
          ⟨(h.wellFormed hp).pageEnd_le, nofun, fun _ => by simp⟩ (h.bounded hp :) rfl
          (by simp [supSetEntry]) rfl rfl rfl (fun s => by simp [slotOf_eq hpw, hs, supSetEntry]), e, hable,
          (hmvd.mono (Set.empty_subset _)).trans (Moved.install hw rfl rfl rfl
            (fun g hg => update_of_ne hg ..) rfl rfl), hrest.trans ⟨rfl, rfl, rfl, rfl⟩,
          f, ?_, ?_, htbl, ?_⟩
        · simp [supSetEntry]
        · simp [supSetEntry]
        · rw [content_of_file hfra hs]
          refine .of_eq ?_
          simp only [supSetEntry, update_self, hzero]
          rw [overwrite_file hx hz, hrest.files]
      | some s =>
        obtain ⟨hslt, htkn⟩ := hw.taken hpw hs
        simp only [swapRead, swapSlotToSector, hslt, htkn, and_self, if_true, ok_bind, pure,
          Except.pure, swapFree]
        simp only [hw.pagedirSetPage hnone hlt]
        refine meets_pure.mpr <| .inr ⟨rfl, hw.install hnone hlt rfl
          ⟨(h.wellFormed hp).pageEnd_le, nofun, fun _ => by simp⟩ (h.bounded hp :) rfl
          (by simp [supSetEntry]) rfl rfl rfl (fun s' => ?_),
          e, hable, (hmvd.mono (Set.empty_subset _)).trans (Moved.install hw rfl rfl rfl
            (fun g hg => update_of_ne hg ..) rfl rfl), hrest.trans ⟨rfl, rfl, rfl, rfl⟩,
          f, ?_, ?_, htbl, ?_⟩
        · simp only [supSetEntry, slotOf_eq hpw, hs, update_apply]
          split_ifs with hss
          · simp [hss]
          · simp [Ne.symm hss]
        · simp [supSetEntry]
        · simp [supSetEntry]
        · simp only [supSetEntry, update_self]
          refine (readSectors_swapped s w.swapBlock _).trans ?_
          rw [← content_of_slot hfra hs]
          exact hmvd.content hrest.files (Set.notMem_empty _) hp hpw

/-! ### Faults -/

section
variable {E : Stop → Prop} {P : State → Prop} {Q : Bool × State → Prop} {esp vaddr : ℕ}
  {write : Bool}

variable
  (hzeros : ∀ v vaddr, P v → vaddr / PGSIZE < m.physBase →
    Meets E (fun x => P x.2 ∧ x.2.numStackPages = v.numStackPages)
      (v.supAllocAllZeros m vaddr true))
  (hstack : ∀ v n, P v → P { v with numStackPages := n })
include hzeros hstack

theorem growStack_meets (hv : P v) (hfuel : m.maxPages ≤ v.numStackPages + fuel) :
    Meets E (fun v' => P v' ∧ v'.mayGrow m esp = false) (v.growStack m esp fuel) := by
  induction fuel generalizing v with
  | zero =>
    have hnp : ¬ v.numStackPages < m.maxPages := by omega
    simp only [growStack, hnp, decide_false, Bool.and_false, Bool.false_eq_true, if_false, meets_ok,
      mayGrow, Bool.false_and, and_true]
    exact hv
  | succ fuel ih =>
    rw [growStack]
    split_ifs with hcond
    · simp only [Bool.and_eq_true, decide_eq_true_eq] at hcond
      have hmax := m.maxPages_le
      refine (hzeros v _ hv ?_).bind ?_
      · rw [Nat.mul_div_cancel _ (by decide)]
        omega
      · rintro ⟨_, w⟩ ⟨hw, hnp⟩
        refine ih (hstack w _ hw) ?_
        dsimp only at hnp ⊢
        omega
    · refine ⟨hv, ?_⟩
      rw [Bool.and_comm] at hcond
      simp [mayGrow, hcond]

variable
  (hload : ∀ v, P v → v.permits m (vaddr / PGSIZE) write = false → vaddr / PGSIZE < m.physBase →
    Meets E (fun x => if x.1 then P x.2 ∧ x.2.permits m (vaddr / PGSIZE) write = true else Q x)
      (v.supLoadPage m vaddr true write))
  (hkill : ∀ v, P v → m.physBase ≤ vaddr / PGSIZE → Q (false, v))
  (hdone : ∀ v, P v → v.permits m (vaddr / PGSIZE) write = true → Q (true, v))
include hload hkill hdone

omit hzeros hstack in
/-- The rule for an access in a state in which the stack is large enough: the page is loaded at most
once. -/
theorem access_meets_of_not_grow (hv : P v)
    (hno : v.mayGrow m esp = false) : Meets E Q (access m esp vaddr write (tries + 2) v) := by
  rw [access]
  split_ifs with hp
  · exact hdone v hv hp
  · rw [pageFault, if_neg (by simp [hno])]
    split_ifs with hkrn
    · exact hkill v hv hkrn.2
    · have hlt : vaddr / PGSIZE < m.physBase := by
        by_contra hno
        exact hkrn ⟨rfl, not_lt.mp hno⟩
      refine (hload v hv (by simpa using hp) hlt).bind ?_
      rintro ⟨_ | _, w⟩ hw
      · exact hw
      · obtain ⟨hw, hp⟩ := hw
        simp only [access, hp]
        exact hdone w hw hp

theorem access_meets (hv : P v) : Meets E Q (access m esp vaddr write 3 v) := by
  by_cases hgrow : v.mayGrow m esp = true
  · rw [access]
    split_ifs with hp
    · exact hdone v hv hp
    · rw [pageFault, if_pos hgrow, bind_assoc]
      refine (growStack_meets hzeros hstack hv (by omega)).bind ?_
      rintro w ⟨hw, hno⟩
      exact access_meets_of_not_grow hload hkill hdone hw hno
  · exact access_meets_of_not_grow hload hkill hdone hv (by simpa using hgrow)

end

/-! ### Ticks -/

/-- The bits of a page table are added to those of the frames. -/
theorem setBits_eq (m : Machine) (v : State) :
    ∃ table, v.setBits m = { v with frameTable := table } ∧ ∀ f,
      (table f).page = (v.frameTable f).page ∧
      ((table f).dirty = true ↔ (v.frameTable f).dirty = true ∨
        ∃ p < m.pages, v.frameOf p = some f ∧ (v.pagedir p).dirty = true) := by
  refine foldl_range (I := fun n w => ∃ table, w = { v with frameTable := table } ∧ ∀ f,
    (table f).page = (v.frameTable f).page ∧
    ((table f).dirty = true ↔ (v.frameTable f).dirty = true ∨
      ∃ p < n, v.frameOf p = some f ∧ (v.pagedir p).dirty = true)) ?_ _ ?_
  · exact ⟨v.frameTable, rfl, by simp⟩
  · rintro n - w ⟨table, rfl, ht⟩
    cases hf : v.frameOf n with
    | none =>
      refine ⟨table, ?_, fun f => ⟨(ht f).1, (ht f).2.trans (or_congr Iff.rfl ?_)⟩⟩
      · simp only [frameOf] at hf
        simp [setBitsAt, hf]
      · simp only [Nat.lt_succ_iff_lt_or_eq, or_and_right, exists_or, exists_eq_left, hf,
          reduceCtorEq, false_and, or_false]
    | some x =>
      refine ⟨_, by simp only [frameOf] at hf; simp only [setBitsAt, hf]; rfl, fun f => ?_⟩
      simp only [Nat.lt_succ_iff_lt_or_eq, or_and_right, exists_or, exists_eq_left, hf, update_apply]
      split_ifs with hfx
      · subst hfx
        simp [ht, or_assoc]
      · simp [ht, Ne.symm hfx]

/-- Every entry of the clock list is moved at most once, so the loop ends. -/
theorem rotate_eq_ok (fuel : ℕ) (table : ℕ → FrameTableEntry) (passed todo : List ℕ)
    (hfuel : todo.countP (fun f => (table f).acc) + todo.length < fuel) :
    ∃ table' lru, rotate fuel table passed todo = .ok (table', lru) ∧
      (∀ f, (table' f).page = (table f).page ∧ (table' f).dirty = (table f).dirty) ∧
      ∀ f, f ∈ lru ↔ f ∈ passed ∨ f ∈ todo := by
  induction fuel generalizing table passed todo with
  | zero => omega
  | succ fuel ih =>
    match todo with
    | [] => exact ⟨table, passed, rfl, fun _ => ⟨rfl, rfl⟩, by simp⟩
    | fn :: rest =>
      rw [rotate]
      have hbits : ∀ f, (update table fn { table fn with acc := false } f).page = (table f).page ∧
          (update table fn { table fn with acc := false } f).dirty =
          (table f).dirty := by
        intro f
        rw [update_apply]
        split_ifs with hf
        · subst hf
          exact ⟨rfl, rfl⟩
        · exact ⟨rfl, rfl⟩
      split_ifs with hacc hrest
      · subst hrest
        exact ⟨_, _, rfl, hbits, by simp⟩
      · have hcou : (rest ++ [fn]).countP (fun f =>
            (update table fn { table fn with acc := false } f).acc) ≤
            rest.countP fun f => (table f).acc := by
          rw [countP_append]
          simp only [countP_cons, update_self]
          refine countP_mono_left fun f _ hf => ?_
          rw [update_apply] at hf
          split_ifs at hf
          exact hf
        rw [countP_cons_of_pos (p := fun f => (table f).acc) hacc, length_cons] at hfuel
        obtain ⟨table', lru, heq, hsame, hmem⟩ := ih
          (update table fn { table fn with acc := false }) passed (rest ++ [fn]) (by rw [length_append, length_singleton]; omega)
        refine ⟨table', lru, heq, fun f => ?_, fun f => ?_⟩
        · rw [(hsame f).1, (hsame f).2]
          exact hbits f
        · rw [hmem, mem_append, mem_singleton, mem_cons, or_comm (a := f ∈ rest)]
      · rw [countP_cons_of_neg (p := fun f => (table f).acc) hacc, length_cons] at hfuel
        obtain ⟨table', lru, heq, hsame, hmem⟩ := ih table (passed ++ [fn]) rest (by omega)
        refine ⟨table', lru, heq, hsame, fun f => ?_⟩
        rw [hmem, mem_append, mem_singleton, mem_cons, or_assoc]

theorem clruTimerTick_eq_ok (m : Machine) (v : State) :
    ∃ table lru, v.clruTimerTick m = .ok { v with frameTable := table, lru } ∧
      (∀ f, (table f).page = (v.frameTable f).page ∧
        ((v.frameTable f).dirty = true → (table f).dirty = true)) ∧
      ∀ f, f ∈ lru ↔ f ∈ v.lru := by
  unfold clruTimerTick
  split_ifs
  · exact ⟨v.frameTable, v.lru, rfl, fun _ => ⟨rfl, id⟩, fun _ => Iff.rfl⟩
  · obtain ⟨table, hset, htbl⟩ := setBits_eq m v
    have hcou := countP_le_length (p := fun f => (table f).acc) (l := v.lru)
    obtain ⟨table', lru, heq, hsame, hmem⟩ :=
      rotate_eq_ok (2 * v.lru.length + 1) table [] v.lru (by omega)
    refine ⟨table', lru, ?_, fun f => ?_, fun f => by simp [hmem]⟩
    · rw [hset]
      simp only [heq]
      rfl
    · rw [(hsame f).1, (hsame f).2]
      exact ⟨(htbl f).1, fun hd => (htbl f).2.mpr (.inl hd)⟩

theorem Inv.setBits (h : Inv m v temp) : Inv m (v.setBits m) temp := by
  obtain ⟨table, heq, htbl⟩ := setBits_eq m v
  rw [heq]
  exact h.congr rfl rfl rfl (fun _ => ⟨rfl, rfl, rfl⟩) (fun f => (htbl f).1) fun _ => Iff.rfl

theorem Inv.clruTimerTick (h : Inv m v temp) :
    Meets (SwapTooSmall m) (fun w => Inv m w temp ∧ ∃ table lru,
      w = { v with frameTable := table, lru } ∧
      ∀ f, (v.frameTable f).dirty = true → (table f).dirty = true) (v.clruTimerTick m) := by
  have hex := clruTimerTick_eq_ok m v
  revert hex
  generalize v.clruTimerTick m = x
  rintro ⟨table, lru, rfl, htbl, hlru⟩
  exact ⟨h.congr rfl rfl rfl (fun _ => ⟨rfl, rfl, rfl⟩) (fun f => (htbl f).1) hlru, table, lru,
    rfl, fun f => (htbl f).2⟩

/-! ### Mapping files -/

/-- The entry of the page `i` of a file. -/
def fileEntry (file size : ℕ) (writable : Bool) (mapid : ℤ) (i : ℕ) : SupEntry :=
  { frameNo := none, slot := none, allZero := false, f := some file, fileOfs := PGSIZE * i
    pageEnd := if i = numPages size - 1 then size % PGSIZE else PGSIZE, writable, loaded := false
    mapid }

/-- The pages of a file have been mapped; nothing else has happened to the pages. -/
structure FileMapped (m : Machine) (vaddr file : ℕ) (writable : Bool) (n : ℕ) (v v' : State) :
    Prop where
  old : ∀ {p e}, v.sup p = some e → v'.sup p = some e
  new : ∀ {p e}, v.sup p = none → v'.sup p = some e → ∃ i < n, p = pageAbove m vaddr i ∧
    e = fileEntry file (v.files file).length writable v.lastMapid i
  pages : ∀ i < n, v'.sup (pageAbove m vaddr i) =
    some (fileEntry file (v.files file).length writable v.lastMapid i)
  rest : ∃ sup, v' = { v with sup := sup, lastMapid := v.lastMapid + 1 }

theorem pageAbove_injective (hi : i < m.pages) (hj : j < m.pages)
    (h : pageAbove m vaddr i = pageAbove m vaddr j) : i = j := by
  have := Nat.ModEq.add_left_cancel' (vaddr / PGSIZE) (show _ ≡ _ [MOD m.pages] from h)
  rwa [Nat.ModEq, Nat.mod_eq_of_lt hi, Nat.mod_eq_of_lt hj] at this

theorem pageAbove_lt (m : Machine) (vaddr i : ℕ) : pageAbove m vaddr i < m.pages :=
  Nat.mod_lt _ m.pages_pos

theorem fileEntry_wellFormed (file size : ℕ) (writable : Bool) (mapid : ℤ) (i : ℕ) :
    (fileEntry file size writable mapid i).WellFormed := by
  refine ⟨?_, fun _ => ⟨rfl, rfl, rfl, rfl⟩, nofun⟩
  unfold fileEntry
  split_ifs
  · exact (Nat.mod_lt _ (by decide)).le
  · exact Nat.le_refl _

theorem FileMapped.inv (h : FileMapped m vaddr file writable n v v') (hn : n ≤ m.pages)
    (hv : Inv m v none) : Inv m v' none := by
  have hcas : ∀ {p e}, v'.sup p = some e → v.sup p = some e ∨
      v.sup p = none ∧ p < m.pages ∧ e.WellFormed ∧ e.loaded = false ∧
        e.fileOfs + e.pageEnd ≤ m.pages * PGSIZE := by
    intro p e hp
    cases hq : v.sup p with
    | none =>
      obtain ⟨i, hi, rfl, rfl⟩ := h.new hq hp
      have hwf := fileEntry_wellFormed file (v.files file).length writable v.lastMapid i
      refine .inr ⟨rfl, pageAbove_lt m vaddr i, hwf, rfl, ?_⟩
      have hend := hwf.pageEnd_le
      have hofs : (fileEntry file (v.files file).length writable v.lastMapid i).fileOfs =
        PGSIZE * i := rfl
      rw [PGSIZE_eq] at *
      omega
    | some e' =>
      cases Option.some.inj ((h.old hq).symm.trans hp)
      exact .inl rfl
  have hfra : v'.frameOf = v.frameOf := by
    funext p
    cases hp : v'.sup p with
    | none =>
      cases hq : v.sup p with
      | none => simp [frameOf, hp, hq]
      | some e => cases (h.old hq).symm.trans hp
    | some e =>
      rcases hcas hp with hq | ⟨hq, -, hwf, hun, -⟩
      · simp [frameOf, hp, hq]
      · simp [frameOf, hp, hq, (hwf.unloaded hun).1]
  have hslot : v'.slotOf = v.slotOf := by
    funext p
    cases hp : v'.sup p with
    | none =>
      cases hq : v.sup p with
      | none => simp [slotOf, hp, hq]
      | some e => cases (h.old hq).symm.trans hp
    | some e =>
      rcases hcas hp with hq | ⟨hq, -, hwf, hun, -⟩
      · simp [slotOf, hp, hq]
      · simp [slotOf, hp, hq, (hwf.unloaded hun).2.1]
  obtain ⟨sup, hrest⟩ := h.rest
  refine ⟨fun hp => ?_, fun hp => ?_, fun hp => ?_, fun hp hl => ?_, ?_, ?_, fun p => ?_,
    fun {p e f} hp hf => ?_, ?_, ?_, ?_⟩
  · rcases hcas hp with hq | ⟨-, -, hwf, -⟩
    · exact hv.wellFormed hq
    · exact hwf
  · rcases hcas hp with hq | ⟨-, hlt, -⟩
    · exact hv.lt_pages hq
    · exact hlt
  · rcases hcas hp with hq | ⟨-, -, -, -, hbound⟩
    · exact hv.bounded hq
    · exact hbound
  · rcases hcas hp with hq | ⟨-, -, -, hun, -⟩
    · exact hv.lt_physBase hq hl
    · simp [hun] at hl
  · refine hv.frames.congr (fun q => by cases q <;> simp [holder, hfra]) fun f => ?_
    rw [hrest]
  · rw [hslot, hrest]
    exact hv.slots
  · rw [hfra, hrest]
    exact hv.present p
  · rcases hcas hp with hq | ⟨-, -, hwf, hun, -⟩
    · rw [hrest]
      exact hv.pte hq hf
    · simp [(hwf.unloaded hun).1] at hf
  · rw [hrest]
    exact hv.table
  · rw [hrest]
    exact hv.listed
  · rw [hrest]
    exact hv.user

/-- `sup_alloc_file` fails and does nothing, or it maps all pages of the file. -/
theorem supAllocFile_meets (hsize : numPages (v.files file).length ≤ m.pages)
    (writable : Bool) {E : Stop → Prop} :
    Meets E (fun x => x = (MAP_FAILED, v) ∨ x.1 = v.lastMapid ∧
      FileMapped m vaddr file writable (numPages (v.files file).length) v x.2)
      (v.supAllocFile m vaddr file writable) := by
  unfold supAllocFile
  dsimp only
  split_ifs with hofs hany
  · exact meets_ok.mpr (.inl rfl)
  · exact meets_ok.mpr (.inl rfl)
  · have hfree : ∀ i < numPages (v.files file).length, v.sup (pageAbove m vaddr i) = none := by
      intro i hi
      rw [Bool.not_eq_true, any_eq_false] at hany
      simpa using hany i (mem_range.mpr hi)
    refine Meets.bind (P := FileMapped m vaddr file writable (numPages (v.files file).length) v)
      (Meets.foldlM_range (I := fun n => FileMapped m vaddr file writable n v) ?_ _ ?_)
      fun w hw => meets_pure.mpr (.inr ⟨rfl, hw⟩)
    · exact ⟨id, fun hp hp' => (by cases hp.symm.trans hp'), fun _ hi => absurd hi (Nat.not_lt_zero _),
        v.sup, rfl⟩
    · rintro n hn w hw
      have hnone : w.sup (pageAbove m vaddr n) = none := by
        cases hp : w.sup (pageAbove m vaddr n) with
        | none => rfl
        | some e =>
          obtain ⟨i, hi, hin, -⟩ := hw.new (hfree n hn) hp
          have := pageAbove_injective (by omega) (by omega) hin
          omega
      have hset : w.supAllocSegment (pageAbove m vaddr n) file writable (PGSIZE * n)
          (if n = numPages (v.files file).length - 1 then (v.files file).length % PGSIZE else PGSIZE)
          v.lastMapid = .ok (w.supSetEntry (pageAbove m vaddr n)
            (fileEntry file (v.files file).length writable v.lastMapid n)) := by
        rw [supAllocSegment, if_neg (by simp [hnone])]
        rfl
      rw [hset]
      refine ⟨fun {p e} hp => ?_, fun {p e} hp hp' => ?_, fun i hi => ?_, ?_⟩
      · refine (update_of_ne ?_ ..).trans (hw.old hp)
        rintro rfl
        simp [hfree n hn] at hp
      · by_cases hpn : p = pageAbove m vaddr n
        · subst hpn
          exact ⟨n, Nat.lt_add_one n, rfl, Option.some.inj (hp'.symm.trans (update_self ..))⟩
        · obtain ⟨i, hi, hrest⟩ := hw.new hp ((update_of_ne hpn ..).symm.trans hp')
          exact ⟨i, by omega, hrest⟩
      · by_cases hin : i = n
        · subst hin
          exact update_self ..
        · refine (update_of_ne (fun hpn => hin ?_) ..).trans (hw.pages i (by omega))
          exact pageAbove_injective (by omega) (by omega) hpn
      · obtain ⟨sup, hrest⟩ := hw.rest
        rw [hrest]
        exact ⟨_, rfl⟩

end Pintos.Vm.State
