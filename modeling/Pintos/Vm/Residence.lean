import Pintos.Lib.Ledger
import Pintos.Lib.Outcome
import Pintos.Vm.Pages

/-! # Where the pages of a process are

Only one process has pages.  Each of them is still in its file, in a frame or in a swap slot.

* **Ledgers.**  The frames of the user pool that are used are those in the hands of a page, or of the
  kernel while it moves pages (`holder`); the slots that are used are those of a page.
* **Contents.**  `content v e` are the bytes of the page with the entry `e`, wherever they are.
* **Moving.**  `get_frame` may move a page from its frame to a slot, and does nothing else to the
  pages (`Moved`).  It stops only if there is no slot left, and there is one if the swap device has
  as many slots as an address space has pages (`SwapTooSmall`). -/

namespace Pintos.Vm
open Bytes Outcome Function Option

theorem SECTORS_PER_PAGE_eq : SECTORS_PER_PAGE = 8 := rfl

/-- A frame of the user pool. -/
def Machine.userFrame (m : Machine) (i : ℕ) : Bool := m.valid i && m.user i

theorem Machine.lt_of_valid {m : Machine} (h : m.valid i = true) : i < m.initRamPages := by
  have huser : m.userPages ≤ m.freePages := by
    unfold Machine.userPages
    omega
  unfold Machine.valid Machine.kernelPages at h
  unfold Machine.freePages at *
  rcases Bool.or_eq_true_iff.mp h with h | h <;> have := of_decide_eq_true h <;> omega

theorem Machine.pages_pos (m : Machine) : 0 < m.pages :=
  lt_of_lt_of_le m.maxPages_pos (m.maxPages_le.trans m.physBase_le)

/-- The swap device has fewer slots than an address space has pages, and all of them are used. -/
def SwapTooSmall (m : Machine) (e : Stop) : Prop := e = .outOfSwap ∧ m.numSlots < m.pages

/-! ### Sectors of the swap device -/

theorem writeSectors_apply (first : ℕ) (addr : Page) (block : ℕ → Page) (k : ℕ) :
    State.writeSectors first addr block k =
      if first ≤ k ∧ k < first + SECTORS_PER_PAGE then
        fun i => addr (BLOCK_SECTOR_SIZE * (k - first) + i)
      else block k := by
  refine foldl_range (I := fun n (b : ℕ → Page) => ∀ k, b k = if first ≤ k ∧ k < first + n then
      fun i => addr (BLOCK_SECTOR_SIZE * (k - first) + i) else block k) ?_ _ ?_ k
  · intro k
    rw [if_neg (by omega)]
  · intro n _ b hb k
    by_cases hk : k = first + n
    · rw [hk, update_self, if_pos (by omega), Nat.add_sub_cancel_left]
    · rw [update_of_ne hk, hb]
      by_cases hlt : first ≤ k ∧ k < first + n
      · rw [if_pos hlt, if_pos (by omega)]
      · rw [if_neg hlt, if_neg (by omega)]

theorem readSectors_apply (first : ℕ) (block : ℕ → Page) (addr : Page) (hi : i < PGSIZE) :
    State.readSectors first block addr i =
      block (first + i / BLOCK_SECTOR_SIZE) (i % BLOCK_SECTOR_SIZE) := by
  have hloop := foldl_range (f := fun addr s i =>
      if BLOCK_SECTOR_SIZE * s ≤ i ∧ i < BLOCK_SECTOR_SIZE * s + BLOCK_SECTOR_SIZE then
        block (first + s) (i - BLOCK_SECTOR_SIZE * s) else addr i)
    (I := fun n a => ∀ i < BLOCK_SECTOR_SIZE * n,
      a i = block (first + i / BLOCK_SECTOR_SIZE) (i % BLOCK_SECTOR_SIZE)) (s := addr)
    (fun i hi => by omega) SECTORS_PER_PAGE (by
      intro n _ a ha i hi
      rw [show BLOCK_SECTOR_SIZE = 512 from rfl] at *
      by_cases hn : 512 * n ≤ i
      · rw [if_pos ⟨hn, by omega⟩, show i / 512 = n by omega, show i % 512 = i - 512 * n by omega]
      · rw [if_neg (by omega), ha i (by omega)])
  exact hloop i hi

namespace State

/-! ### Contents -/

/-- The page in a swap slot. -/
def swapped (block : ℕ → Page) (slot : ℕ) : Page := fun i =>
  block (slot * SECTORS_PER_PAGE + i / BLOCK_SECTOR_SIZE) (i % BLOCK_SECTOR_SIZE)

/-- The page before it is loaded: bytes of the file below `page_end`, zeros otherwise. -/
def initial (files : ℕ → List UInt8) (e : SupEntry) : Page := fun i =>
  match e.f with
  | some f => if e.allZero = false ∧ i < e.pageEnd then region (files f) (e.fileOfs + i) else 0
  | none => 0

/-- The same bytes of a page. -/
def SamePage (a b : Page) : Prop := ∀ i < PGSIZE, a i = b i

theorem SamePage.refl (a : Page) : SamePage a a := fun _ _ => rfl

theorem SamePage.of_eq (h : a = b) : SamePage a b := fun i _ => congrFun h i

theorem SamePage.trans (h : SamePage a b) (h' : SamePage b c) : SamePage a c :=
  fun i hi => (h i hi).trans (h' i hi)

/-- The page with the entry `e`. -/
def content (v : State) (e : SupEntry) : Page :=
  match e.frameNo, e.slot with
  | some f, _ => v.mem f
  | none, some s => swapped v.swapBlock s
  | none, none => initial v.files e

section
variable {v : State} {e : SupEntry}

theorem content_of_frame (h : e.frameNo = some f) : v.content e = v.mem f := by
  simp [content, h]

theorem content_of_slot (h : e.frameNo = none) (hs : e.slot = some s) :
    v.content e = swapped v.swapBlock s := by
  simp [content, h, hs]

theorem content_of_file (h : e.frameNo = none) (hs : e.slot = none) :
    v.content e = initial v.files e := by
  simp [content, h, hs]

theorem content_congr {v' : State} (hmem : ∀ f, e.frameNo = some f → SamePage (v'.mem f) (v.mem f))
    (hswap : ∀ s, e.slot = some s → SamePage (swapped v'.swapBlock s) (swapped v.swapBlock s))
    (hfile : e.frameNo = none → e.slot = none → v'.files = v.files) :
    SamePage (v'.content e) (v.content e) := by
  cases hf : e.frameNo with
  | some f =>
    rw [content_of_frame hf, content_of_frame hf]
    exact hmem f hf
  | none =>
    cases hs : e.slot with
    | some s =>
      rw [content_of_slot hf hs, content_of_slot hf hs]
      exact hswap s hs
    | none =>
      rw [content_of_file hf hs, content_of_file hf hs, hfile hf hs]
      exact fun _ _ => rfl

end

theorem swapped_writeSectors_self (s : ℕ) (addr : Page) (block : ℕ → Page) :
    SamePage (swapped (writeSectors (s * SECTORS_PER_PAGE) addr block) s) addr := by
  intro i hi
  have hlt : i / BLOCK_SECTOR_SIZE < SECTORS_PER_PAGE := Nat.div_lt_of_lt_mul hi
  rw [swapped, writeSectors_apply, if_pos ⟨Nat.le_add_right _ _, Nat.add_lt_add_left hlt _⟩,
    Nat.add_sub_cancel_left, Nat.div_add_mod]

theorem swapped_writeSectors_of_ne (h : s' ≠ s) (addr : Page) (block : ℕ → Page) :
    SamePage (swapped (writeSectors (s * SECTORS_PER_PAGE) addr block) s') (swapped block s') := by
  intro i hi
  have hlt : i / BLOCK_SECTOR_SIZE < SECTORS_PER_PAGE := Nat.div_lt_of_lt_mul hi
  rw [swapped, writeSectors_apply, if_neg, swapped]
  generalize i / BLOCK_SECTOR_SIZE = j at *
  rw [SECTORS_PER_PAGE_eq] at *
  omega

theorem readSectors_swapped (s : ℕ) (block : ℕ → Page) (addr : Page) :
    SamePage (readSectors (s * SECTORS_PER_PAGE) block addr) (swapped block s) :=
  fun _ hi => readSectors_apply _ _ _ hi

/-! ### The invariant -/

end State

/-- A page that is loaded is in a frame or in a slot; one that is not loaded has a file. -/
structure SupEntry.WellFormed (e : SupEntry) : Prop where
  pageEnd_le : e.pageEnd ≤ PGSIZE
  unloaded : e.loaded = false →
    e.frameNo = none ∧ e.slot = none ∧ e.allZero = false ∧ e.f.isSome = true
  loaded : e.loaded = true → (e.frameNo.isSome = true ↔ e.slot = none)

namespace State

variable {m : Machine} {v v' : State} {temp : Option ℕ} {p f s : ℕ} {e e' : SupEntry}

/-- The frame in which a page is. -/
def frameOf (v : State) (p : ℕ) : Option ℕ := (v.sup p).bind SupEntry.frameNo

/-- The slot in which a page is. -/
def slotOf (v : State) (p : ℕ) : Option ℕ := (v.sup p).bind SupEntry.slot

/-- The frames of the pages and, under `none`, a frame in the hands of the kernel. -/
def holder (v : State) (temp : Option ℕ) : Option ℕ → Option ℕ
  | none => temp
  | some p => v.frameOf p

/-- The tables of the process, the frame table, the clock list and the bitmaps agree. -/
structure Inv (m : Machine) (v : State) (temp : Option ℕ) : Prop where
  wellFormed : ∀ {p e}, v.sup p = some e → e.WellFormed
  lt_pages : ∀ {p e}, v.sup p = some e → p < m.pages
  bounded : ∀ {p e}, v.sup p = some e → e.fileOfs + e.pageEnd ≤ m.pages * PGSIZE
  lt_physBase : ∀ {p e}, v.sup p = some e → e.loaded = true → p < m.physBase
  frames : Ledger (v.holder temp) fun f => m.userFrame f = true ∧ v.used f = true
  slots : Ledger v.slotOf fun s => s < m.numSlots ∧ v.swapSlots s = true
  present : ∀ p, (v.pagedir p).present = (v.frameOf p).isSome
  pte : ∀ {p e f}, v.sup p = some e → e.frameNo = some f →
    (v.pagedir p).frame = f ∧ (v.pagedir p).writable = e.writable
  table : ∀ f, m.userFrame f = true → (v.frameTable f).page = v.used f
  listed : ∀ f, m.userFrame f = true → v.used f = true → f ∈ v.lru
  user : ∀ f ∈ v.lru, m.userFrame f = true

theorem frameOf_eq (hp : v.sup p = some e) : v.frameOf p = e.frameNo := by simp [frameOf, hp]

theorem slotOf_eq (hp : v.sup p = some e) : v.slotOf p = e.slot := by simp [slotOf, hp]

theorem exists_of_frameOf (h : v.frameOf p = some f) : ∃ e, v.sup p = some e ∧ e.frameNo = some f :=
  bind_eq_some_iff.mp h

section
variable (hsup : v'.sup = update v.sup p (some e'))
include hsup

theorem frameOf_update : v'.frameOf = update v.frameOf p e'.frameNo := by
  funext q
  simp only [frameOf, hsup, update_apply]
  split_ifs <;> rfl

theorem slotOf_update : v'.slotOf = update v.slotOf p e'.slot := by
  funext q
  simp only [slotOf, hsup, update_apply]
  split_ifs <;> rfl

theorem forall_sup_update {P : ℕ → SupEntry → Prop}
    (hoth : ∀ {q e}, v.sup q = some e → q ≠ p → P q e) (hself : P p e')
    (hq : v'.sup q = some e) : P q e := by
  by_cases hqp : q = p
  · subst hqp
    rw [hsup, update_self, some.injEq] at hq
    rwa [← hq]
  · rw [hsup, update_of_ne hqp] at hq
    exact hoth hq hqp

end

section
variable (hsup : v'.sup = update v.sup p none)
include hsup

theorem sup_of_remove (hq : v'.sup q = some e) : q ≠ p ∧ v.sup q = some e := by
  by_cases hqp : q = p
  · simp [hqp, hsup] at hq
  · rw [hsup, update_of_ne hqp] at hq
    exact ⟨hqp, hq⟩

theorem frameOf_remove : v'.frameOf = update v.frameOf p none := by
  funext q
  simp only [frameOf, hsup, update_apply]
  split_ifs <;> rfl

theorem slotOf_remove : v'.slotOf = update v.slotOf p none := by
  funext q
  simp only [slotOf, hsup, update_apply]
  split_ifs <;> rfl

end

theorem holder_update (h : v'.frameOf = update v.frameOf p x) :
    v'.holder temp = update (v.holder temp) (some p) x := by
  funext q
  cases q with
  | none => rfl
  | some q => simp [holder, h, update_apply]

theorem holder_temp (h : v'.frameOf = v.frameOf) (temp temp' : Option ℕ) :
    v'.holder temp' = update (v.holder temp) none temp' := by
  funext q
  cases q with
  | none => rfl
  | some q => simp [holder, h]

namespace Inv

section
variable (h : Inv m v temp) (hp : v.sup p = some e)
include h hp

theorem loaded_of_frame (hf : e.frameNo = some f) : e.loaded = true := by
  by_contra hno
  simp [((h.wellFormed hp).unloaded (by simpa using hno)).1] at hf

theorem slot_eq_none (hf : e.frameNo = some f) : e.slot = none :=
  ((h.wellFormed hp).loaded (h.loaded_of_frame hp hf)).mp (by rw [hf]; rfl)

theorem loaded_of_slot (hs : e.slot = some s) : e.loaded = true := by
  by_contra hno
  simp [((h.wellFormed hp).unloaded (by simpa using hno)).2.1] at hs

theorem frameNo_eq_none (hs : e.slot = some s) : e.frameNo = none := by
  cases hf : e.frameNo with
  | none => rfl
  | some f =>
    simp [h.slot_eq_none hp hf] at hs

theorem used (hf : e.frameNo = some f) : m.userFrame f = true ∧ v.used f = true :=
  h.frames.taken_of_owner (i := some p) ((frameOf_eq hp).trans hf)

end

theorem used_temp (h : Inv m v (some f)) : m.userFrame f = true ∧ v.used f = true :=
  h.frames.taken_of_owner (i := none) rfl

theorem taken (h : Inv m v temp) (hp : v.sup p = some e) (hs : e.slot = some s) :
    s < m.numSlots ∧ v.swapSlots s = true :=
  h.slots.taken_of_owner ((slotOf_eq hp).trans hs)

theorem frame_unique (h : Inv m v temp) (hp : v.sup p = some e)
    (hf : e.frameNo = some f) (hq : v.sup q = some eq) (hfq : eq.frameNo = some f) : q = p :=
  some.inj (h.frames.unique ((frameOf_eq hq).trans hfq) ((frameOf_eq hp).trans hf))

theorem ne_temp (h : Inv m v (some f)) (hp : v.sup p = some e) (hg : e.frameNo = some g) :
    g ≠ f := by
  rintro rfl
  have := h.frames.unique (i := some p) (j := none) ((frameOf_eq hp).trans hg) rfl
  cases this

/-- Nothing that matters has changed. -/
theorem congr (h : Inv m v temp) (hsup : v'.sup = v.sup) (hused : v'.used = v.used)
    (hslo : v'.swapSlots = v.swapSlots)
    (hpte : ∀ p, (v'.pagedir p).present = (v.pagedir p).present ∧
      (v'.pagedir p).frame = (v.pagedir p).frame ∧
      (v'.pagedir p).writable = (v.pagedir p).writable)
    (htbl : ∀ f, (v'.frameTable f).page = (v.frameTable f).page)
    (hlru : ∀ f, f ∈ v'.lru ↔ f ∈ v.lru) : Inv m v' temp := by
  have hfra : v'.frameOf = v.frameOf := by
    funext q
    simp [frameOf, hsup]
  have hslot : v'.slotOf = v.slotOf := by
    funext q
    simp [slotOf, hsup]
  refine ⟨?_, ?_, ?_, ?_, ?_, ?_, ?_, ?_, ?_, ?_, ?_⟩
  · rw [hsup]
    exact h.wellFormed
  · rw [hsup]
    exact h.lt_pages
  · rw [hsup]
    exact h.bounded
  · rw [hsup]
    exact h.lt_physBase
  · rw [hused]
    exact h.frames.congr (fun q => by cases q <;> simp [holder, hfra]) fun _ => Iff.rfl
  · rw [hslo, hslot]
    exact h.slots
  · intro q
    rw [(hpte q).1, hfra]
    exact h.present q
  · intro q eq f hq hf
    rw [hsup] at hq
    rw [(hpte q).2.1, (hpte q).2.2]
    exact h.pte hq hf
  · intro f hf
    rw [htbl, hused]
    exact h.table f hf
  · intro f hf hu
    rw [hused] at hu
    exact (hlru f).mpr (h.listed f hf hu)
  · exact fun f hf => h.user f ((hlru f).mp hf)

theorem touch (h : Inv m v temp) (p : ℕ) (accessed dirty : Bool) (mem : ℕ → Page) :
    Inv m { v with
      mem
      pagedir := update v.pagedir p
        { v.pagedir p with accessed, dirty } } temp := by
  refine h.congr rfl rfl rfl (fun q => ?_) (fun _ => rfl) fun _ => Iff.rfl
  dsimp only
  rw [update_apply]
  split_ifs with hq
  · subst hq
    exact ⟨rfl, rfl, rfl⟩
  · exact ⟨rfl, rfl, rfl⟩

/-- A frame in the hands of the kernel is given to the page `p`, which leaves its slot if it has
one. -/
theorem install (h : Inv m v (some f)) (hp : v.frameOf p = none) (hlt : p < m.physBase)
    (hsup : v'.sup = update v.sup p (some e')) (hwf : e'.WellFormed)
    (hbound : e'.fileOfs + e'.pageEnd ≤ m.pages * PGSIZE) (hf : e'.frameNo = some f)
    (hpte : v'.pagedir =
      update v.pagedir p ⟨true, f, e'.writable, (v'.pagedir p).accessed, (v'.pagedir p).dirty⟩)
    (hused : v'.used = v.used) (htbl : v'.frameTable = v.frameTable) (hlru : v'.lru = v.lru)
    (hslo : ∀ s, v'.swapSlots s = true ↔ v.swapSlots s = true ∧ v.slotOf p ≠ some s) :
    Inv m v' none := by
  have hfra := frameOf_update hsup
  have hslot := slotOf_update hsup
  have hld : e'.loaded = true := by
    by_contra hno
    simp [(hwf.unloaded (by simpa using hno)).1] at hf
  rw [hf] at hfra
  rw [(hwf.loaded hld).mp (by rw [hf]; rfl)] at hslot
  refine ⟨?_, ?_, ?_, ?_, ?_, ?_, ?_, ?_, ?_, ?_, ?_⟩
  · exact forall_sup_update hsup (fun hq _ => h.wellFormed hq) hwf
  · exact forall_sup_update (P := fun q _ => q < m.pages) hsup (fun hq _ => h.lt_pages hq)
      (hlt.trans_le m.physBase_le)
  · exact forall_sup_update hsup (fun hq _ => h.bounded hq) hbound
  · exact forall_sup_update (P := fun q e => e.loaded = true → q < m.physBase) hsup
      (fun hq _ => h.lt_physBase hq) fun _ => hlt
  · have hmove := h.frames.move (i := none) (j := some p) rfl hp
    rw [hused]
    refine hmove.congr (fun q => ?_) fun _ => Iff.rfl
    cases q with
    | none => simp [holder]
    | some q => simp [holder, hfra, update_apply]
  · rw [hslot]
    refine h.slots.release p fun s => ?_
    rw [hslo]
    tauto
  · intro q
    rw [hpte, hfra]
    by_cases hqp : q = p
    · subst hqp
      simp
    · simp [update_of_ne hqp, h.present]
  · intro q e f' hq hfq
    rw [hpte]
    by_cases hqp : q = p
    · subst hqp
      rw [hsup, update_self, some.injEq] at hq
      subst hq
      rw [hf] at hfq
      simpa using hfq
    · rw [hsup, update_of_ne hqp] at hq
      rw [update_of_ne hqp]
      exact h.pte hq hfq
  · intro f hf
    rw [htbl, hused]
    exact h.table f hf
  · intro f hf hu
    rw [hlru]
    rw [hused] at hu
    exact h.listed f hf hu
  · rw [hlru]
    exact h.user

/-- The page `p` is unmapped, and its frame or slot is given back. -/
theorem remove (h : Inv m v temp) (hsup : v'.sup = update v.sup p none)
    (hpte : ∀ q, v'.pagedir q = if q = p then v'.pagedir p else v.pagedir q)
    (hprs : (v'.pagedir p).present = false)
    (hused : ∀ f, v'.used f = true ↔ v.used f = true ∧ v.frameOf p ≠ some f)
    (htbl : ∀ f, m.userFrame f = true → (v'.frameTable f).page = v'.used f)
    (hlru : v'.lru = v.lru)
    (hslo : ∀ s, v'.swapSlots s = true ↔ v.swapSlots s = true ∧ v.slotOf p ≠ some s) :
    Inv m v' temp := by
  have hfra := frameOf_remove hsup
  refine ⟨?_, ?_, ?_, ?_, ?_, ?_, ?_, ?_, htbl, ?_, ?_⟩
  · exact fun hq => h.wellFormed (sup_of_remove hsup hq).2
  · exact fun hq => h.lt_pages (sup_of_remove hsup hq).2
  · exact fun hq => h.bounded (sup_of_remove hsup hq).2
  · exact fun hq => h.lt_physBase (sup_of_remove hsup hq).2
  · rw [holder_update hfra]
    refine h.frames.release (some p) fun f => ?_
    rw [hused]
    tauto
  · rw [slotOf_remove hsup]
    refine h.slots.release p fun s => ?_
    rw [hslo]
    tauto
  · intro q
    rw [hpte, hfra]
    by_cases hqp : q = p
    · simp [hqp, hprs]
    · simp [hqp, h.present]
  · intro q e f hq hf
    obtain ⟨hqp, hq⟩ := sup_of_remove hsup hq
    rw [hpte, if_neg hqp]
    exact h.pte hq hf
  · intro f hf hu
    rw [hlru]
    exact h.listed f hf ((hused f).mp hu).1
  · rw [hlru]
    exact h.user

/-- The frame in the hands of the kernel is given back. -/
theorem drop (h : Inv m v (some f)) (hsup : v'.sup = v.sup) (hpte : v'.pagedir = v.pagedir)
    (hused : v'.used = update v.used f false)
    (htbl : ∀ f, m.userFrame f = true → (v'.frameTable f).page = v'.used f)
    (hlru : v'.lru = v.lru) (hslo : v'.swapSlots = v.swapSlots) : Inv m v' none := by
  have hfra : v'.frameOf = v.frameOf := by
    funext q
    simp [frameOf, hsup]
  have hslot : v'.slotOf = v.slotOf := by
    funext q
    simp [slotOf, hsup]
  refine ⟨?_, ?_, ?_, ?_, ?_, ?_, ?_, ?_, htbl, ?_, ?_⟩
  · rw [hsup]
    exact h.wellFormed
  · rw [hsup]
    exact h.lt_pages
  · rw [hsup]
    exact h.bounded
  · rw [hsup]
    exact h.lt_physBase
  · rw [holder_temp hfra (some f) none]
    refine h.frames.release none fun x => ?_
    rw [hused, update_apply, holder]
    split_ifs with hx
    · simp [hx]
    · simp [Ne.symm hx]
  · rw [hslo, hslot]
    exact h.slots
  · intro q
    rw [hpte, hfra]
    exact h.present q
  · rw [hsup, hpte]
    exact h.pte
  · intro x hx hu
    rw [hused, update_apply] at hu
    split_ifs at hu
    rw [hlru]
    exact h.listed x hx hu
  · rw [hlru]
    exact h.user

end Inv

end State

end Pintos.Vm
