import Pintos.Vm.Faults

/-! # Paging is transparent

A single process maps pages, reads and writes them, and the clock ticks; frames and slots change
hands behind its back.

* **Keeping.**  Every step keeps the bytes of all pages, but for the one byte that is written
  (`Keeps`, `Writes`).
* **Reading.**  A byte that is read is the one that was written last, or else the initial one
  (`Shows`). -/

namespace Pintos.Vm
open Function Option

/-- The same page in another place. -/
def SupEntry.Same (e' e : SupEntry) : Prop :=
  ∃ frameNo slot loaded, e' = { e with frameNo := frameNo, slot := slot, loaded := loaded }

namespace State
open Bytes Outcome

variable {m : Machine} {v w w' v' : State} {temp : Option ℕ} {p f s : ℕ} {e e' : SupEntry}

variable {files : ℕ → List UInt8} {vaddr : ℕ} {b : UInt8} {x : ℕ → Option UInt8}

theorem initial_of_same (h : e'.Same e) : initial files e' = initial files e := by
  obtain ⟨_, _, _, rfl⟩ := h
  rfl

theorem initial_of_allZero (h : e.allZero = true) : initial files e = fun _ => 0 := by
  unfold initial
  cases e.f <;> simp [h]

/-- All pages keep their bytes, wherever they are now, and new pages have their initial bytes. -/
structure Keeps (v v' : State) : Prop where
  files : v'.files = v.files
  mapped : ∀ {p e}, v.sup p = some e → ∃ e', v'.sup p = some e' ∧ e'.Same e ∧
    SamePage (v'.content e') (v.content e)
  added : ∀ {p e'}, v.sup p = none → v'.sup p = some e' →
    SamePage (v'.content e') (initial v'.files e')

theorem Keeps.refl (v : State) : Keeps v v :=
  ⟨rfl, fun {_ e} hp => ⟨e, hp, ⟨_, _, _, rfl⟩, .refl _⟩, fun hp hp' => by cases hp.symm.trans hp'⟩

theorem Keeps.trans (h : Keeps v w) (h' : Keeps w w') : Keeps v w' where
  files := h'.files.trans h.files
  mapped hp := by
    obtain ⟨e1, hp1, ⟨_, _, _, rfl⟩, hc1⟩ := h.mapped hp
    obtain ⟨e2, hp2, ⟨_, _, _, rfl⟩, hc2⟩ := h'.mapped hp1
    exact ⟨_, hp2, ⟨_, _, _, rfl⟩, hc2.trans hc1⟩
  added {p e'} hp hp' := by
    cases hw : w.sup p with
    | none => exact h'.added hw hp'
    | some e =>
      obtain ⟨e2, hp2, hsame, hc⟩ := h'.mapped hw
      cases mem_unique hp2 hp'
      rw [initial_of_same hsame, h'.files]
      exact hc.trans (h.added hp hw)

theorem Moved.same (h : Moved X v v') (hfls : v'.files = v.files) (hx : p ∉ X)
    (hp : v.sup p = some e) :
    ∃ e', v'.sup p = some e' ∧ e'.Same e ∧ SamePage (v'.content e') (v.content e) := by
  rcases h.mapped hx hp with ⟨hp', -⟩ | ⟨-, s, hp'⟩
  · exact ⟨e, hp', ⟨_, _, _, rfl⟩, h.content hfls hx hp hp'⟩
  · exact ⟨_, hp', ⟨_, _, _, rfl⟩, h.content hfls hx hp hp'⟩

theorem Moved.keeps (h : Moved ∅ v v') (hfls : v'.files = v.files) : Keeps v v' :=
  ⟨hfls, fun hp => h.same hfls (Set.notMem_empty _) hp,
    fun hp hp' => by cases (h.unmapped (Set.notMem_empty _) hp).symm.trans hp'⟩

theorem Zeroed.keeps (h : Zeroed v v' p) : Keeps v v' := by
  obtain ⟨e, hp, hz, hc⟩ := h.after
  refine ⟨h.rest.files, fun {q eq} hq => h.moved.same h.rest.files ?_ hq, fun {q eq} hq hq' => ?_⟩
  · rintro rfl
    cases h.before.symm.trans hq
  · by_cases hqp : q = p
    · subst hqp
      cases mem_unique hp hq'
      rw [initial_of_allZero hz, hc]
      exact .refl _
    · cases (h.moved.unmapped hqp hq).symm.trans hq'

theorem Loaded.keeps (h : Loaded v v' p e) (hp : v.sup p = some e) : Keeps v v' := by
  obtain ⟨f, hp', -, -, hc⟩ := h.after
  refine ⟨h.rest.files, fun {q eq} hq => ?_, fun {q eq} hq hq' => ?_⟩
  · by_cases hqp : q = p
    · subst hqp
      cases mem_unique hp hq
      refine ⟨_, hp', ⟨_, _, _, rfl⟩, ?_⟩
      rwa [content_of_frame rfl]
    · exact h.moved.same h.rest.files hqp hq
  · have hqp : q ≠ p := by
      rintro rfl
      cases hp.symm.trans hq
    cases (h.moved.unmapped hqp hq).symm.trans hq'

theorem Keeps.of_eq (hsup : v'.sup = v.sup) (hmem : v'.mem = v.mem)
    (hswap : v'.swapBlock = v.swapBlock) (hfls : v'.files = v.files) : Keeps v v' := by
  refine ⟨hfls, fun {q e} hq => ⟨e, by rw [hsup, hq], ⟨_, _, _, rfl⟩, ?_⟩, fun hq hq' => ?_⟩
  · exact content_congr (fun _ _ => by rw [hmem]; exact .refl _)
      (fun _ _ => by rw [hswap]; exact .refl _) fun _ _ => hfls
  · rw [hsup] at hq'
    cases hq.symm.trans hq'

/-! ### Accesses -/

theorem Inv.numStackPages (h : Inv m v temp) (n : ℕ) : Inv m { v with numStackPages := n } temp :=
  h.congr rfl rfl rfl (fun _ => ⟨rfl, rfl, rfl⟩) (fun _ => rfl) fun _ => Iff.rfl

theorem zeros_meets (v0 : State) (hpool : ∃ f, m.userFrame f = true) (v : State) (vaddr : ℕ)
    (h : Inv m v none ∧ Keeps v0 v) (hlt : vaddr / PGSIZE < m.physBase) :
    Meets (SwapTooSmall m) (fun x => (Inv m x.2 none ∧ Keeps v0 x.2) ∧
      x.2.numStackPages = v.numStackPages) (v.supAllocAllZeros m vaddr true) := by
  refine (h.1.supAllocAllZeros hpool hlt).mono ?_
  rintro ⟨ok, w⟩ ⟨hw, ⟨-, hmvd, hrest⟩ | ⟨-, hzero⟩⟩
  · exact ⟨⟨hw, h.2.trans (hmvd.keeps hrest.files)⟩, hrest.numStackPages⟩
  · exact ⟨⟨hw, h.2.trans hzero.keeps⟩, hzero.rest.numStackPages⟩

theorem stack_keeps (v : State) (n : ℕ) (h : Inv m v none ∧ Keeps v0 v) :
    Inv m { v with numStackPages := n } none ∧ Keeps v0 { v with numStackPages := n } :=
  ⟨h.1.numStackPages n, h.2.trans (.of_eq rfl rfl rfl rfl)⟩

/-- A page may be accessed. -/
def Accessible (m : Machine) (v : State) (p : ℕ) (write : Bool) : Prop :=
  p < m.physBase ∧ ∃ e, v.sup p = some e ∧ (write = true → e.writable = true)

theorem Accessible.of_keeps {write : Bool} (h : Keeps v w) (ha : Accessible m v p write) :
    Accessible m w p write := by
  obtain ⟨hlt, e, hp, hw⟩ := ha
  obtain ⟨e', hp', ⟨_, _, _, rfl⟩, -⟩ := h.mapped hp
  exact ⟨hlt, _, hp', hw⟩

/-- A page that the processor does not let the process access is loaded, unless the process has no
right to it. -/
theorem Inv.load_meets (h : Inv m v none) (hpool : ∃ f, m.userFrame f = true) {vaddr : ℕ}
    (hlt : vaddr / PGSIZE < m.physBase) {write : Bool}
    (hno : v.permits m (vaddr / PGSIZE) write = false) :
    Meets (SwapTooSmall m) (fun x =>
      if x.1 then Inv m x.2 none ∧ Keeps v x.2 ∧ (∀ p, v.sup p = none → x.2.sup p = none) ∧
        x.2.permits m (vaddr / PGSIZE) write = true
      else x.2 = v ∧ ¬ Accessible m v (vaddr / PGSIZE) write) (v.supLoadPage m vaddr true write) := by
  refine (h.supLoadPage hpool hlt write).mono ?_
  rintro ⟨ok, w⟩ (⟨heq, hunl⟩ | ⟨hok, hw, e, ⟨hp, -, hwrt⟩, hld⟩)
  · cases heq
    refine ⟨rfl, ?_⟩
    rintro ⟨-, e, hp, hwrt⟩
    cases hf : e.frameNo with
    | none => exact hunl e ⟨hp, hf, hwrt⟩
    | some f =>
      -- a page in a frame is in the page table, with its right to be written
      have hpte := (h.pte hp hf).2
      have hprs := h.present (vaddr / PGSIZE)
      rw [frameOf_eq hp, hf] at hprs
      simp only [permits, hlt, hprs, hpte] at hno
      cases write with
      | false => simp at hno
      | true => simp [hwrt rfl] at hno
  · subst hok
    obtain ⟨f, -, hpte, -, -⟩ := hld.after
    refine ⟨hw, hld.keeps hp, fun q hq => hld.moved.unmapped ?_ hq, ?_⟩
    · rintro rfl
      cases hp.symm.trans hq
    · dsimp only at hpte
      simp only [permits, hlt, hpte]
      cases write with
      | false => rfl
      | true => simpa using hwrt

theorem Inv.access (h : Inv m v none) (hpool : ∃ f, m.userFrame f = true) (esp vaddr : ℕ)
    (write : Bool) :
    Meets (SwapTooSmall m) (fun x => Inv m x.2 none ∧ Keeps v x.2 ∧
      if x.1 then x.2.permits m (vaddr / PGSIZE) write = true
      else ¬ Accessible m v (vaddr / PGSIZE) write) (access m esp vaddr write 3 v) := by
  refine access_meets (zeros_meets v hpool) stack_keeps ?_ ?_ ?_ ⟨h, .refl v⟩
  · intro w hw hno hlt
    refine (hw.1.load_meets hpool hlt hno).mono ?_
    rintro ⟨_ | _, w'⟩ hend
    · obtain ⟨rfl, hno⟩ := hend
      exact ⟨hw.1, hw.2, fun ha => hno (ha.of_keeps hw.2)⟩
    · exact ⟨⟨hend.1, hw.2.trans hend.2.1⟩, hend.2.2.2⟩
  · exact fun w hw hle => ⟨hw.1, hw.2, fun ha => absurd ha.1 (not_lt.mpr hle)⟩
  · exact fun w hw hp => ⟨hw.1, hw.2, hp⟩

theorem Inv.entry_of_permits (h : Inv m v temp) {write : Bool} (hp : v.permits m p write = true) :
    p < m.physBase ∧ ∃ e f, v.sup p = some e ∧ e.frameNo = some f ∧ (v.pagedir p).frame = f ∧
      (write = true → e.writable = true) := by
  simp only [permits, Bool.and_eq_true, decide_eq_true_eq] at hp
  have hsome := hp.1.2
  rw [h.present] at hsome
  obtain ⟨f, hf⟩ := isSome_iff_exists.mp hsome
  obtain ⟨e, hp', hf⟩ := exists_of_frameOf hf
  refine ⟨hp.1.1, e, f, hp', hf, (h.pte hp' hf).1, fun hw => ?_⟩
  have := hp.2
  rwa [hw, (h.pte hp' hf).2] at this

theorem Inv.userRead (h : Inv m v none) (hpool : ∃ f, m.userFrame f = true) (esp vaddr : ℕ) :
    Meets (SwapTooSmall m) (fun x => Inv m x.2 none ∧ Keeps v x.2 ∧
      (x.1 = none → ¬ Accessible m v (vaddr / PGSIZE) false) ∧
      ∀ b, x.1 = some b → ∃ e, x.2.sup (vaddr / PGSIZE) = some e ∧
        b = x.2.content e (vaddr % PGSIZE)) (v.userRead m esp vaddr) := by
  refine (h.access hpool esp vaddr false).bind ?_
  rintro ⟨_ | _, w⟩ ⟨hw, hkps, hend⟩
  · exact ⟨hw, hkps, fun _ => hend, nofun⟩
  · obtain ⟨-, e, f, hp, hf, hfra, -⟩ := hw.entry_of_permits hend
    refine ⟨hw.touch _ true _ w.mem, hkps.trans (.of_eq rfl rfl rfl rfl), nofun, ?_⟩
    rintro _ ⟨⟩
    refine ⟨e, hp, ?_⟩
    rw [content_of_frame hf]
    rw [hfra]

/-- The byte at `vaddr` has been written; all others are as they were. -/
structure Writes (v v' : State) (vaddr : ℕ) (b : UInt8) : Prop where
  files : v'.files = v.files
  target : (v'.sup (vaddr / PGSIZE)).isSome = true
  mapped : ∀ {p e}, v.sup p = some e → ∃ e', v'.sup p = some e' ∧ e'.Same e ∧
    ∀ i < PGSIZE, v'.content e' i = if p * PGSIZE + i = vaddr then b else v.content e i
  added : ∀ {p e'}, v.sup p = none → v'.sup p = some e' →
    ∀ i < PGSIZE, v'.content e' i = if p * PGSIZE + i = vaddr then b else initial v'.files e' i

theorem addr_eq_iff (hi : i < PGSIZE) :
    p * PGSIZE + i = vaddr ↔ p = vaddr / PGSIZE ∧ i = vaddr % PGSIZE := by
  rw [PGSIZE_eq] at *
  omega

/-- A byte of a page that is in the frame `f` is written. -/
theorem Inv.writes (h : Inv m v none)
    (hp : v.sup (vaddr / PGSIZE) = some e) (hf : e.frameNo = some f) (hsup : v'.sup = v.sup)
    (hmem : v'.mem = update v.mem f (update (v.mem f) (vaddr % PGSIZE) b))
    (hswap : v'.swapBlock = v.swapBlock) (hfls : v'.files = v.files) : Writes v v' vaddr b := by
  refine ⟨hfls, by rw [hsup, hp]; rfl, fun {q eq} hq => ⟨eq, by rw [hsup, hq], ⟨_, _, _, rfl⟩,
    fun i hi => ?_⟩, fun hq hq' => by rw [hsup] at hq'; cases hq.symm.trans hq'⟩
  by_cases hqp : q = vaddr / PGSIZE
  · subst hqp
    cases mem_unique hp hq
    rw [content_of_frame hf, content_of_frame hf, hmem, update_self, update_apply]
    simp [addr_eq_iff hi]
  · rw [if_neg fun hc => hqp ((addr_eq_iff hi).mp hc).1]
    refine content_congr (fun g hg => .of_eq ?_) (fun _ _ => by rw [hswap]; exact .refl _)
      (fun _ _ => hfls) i hi
    rw [hmem, update_of_ne]
    rintro rfl
    exact hqp (h.frame_unique hp hf hq hg)

theorem Keeps.writes (h : Keeps v w) (h' : Writes w w' vaddr b) : Writes v w' vaddr b where
  files := h'.files.trans h.files
  target := h'.target
  mapped hq := by
    obtain ⟨e1, hq1, ⟨_, _, _, rfl⟩, hc1⟩ := h.mapped hq
    obtain ⟨e2, hq2, ⟨_, _, _, rfl⟩, hc2⟩ := h'.mapped hq1
    exact ⟨_, hq2, ⟨_, _, _, rfl⟩, fun i hi => by rw [hc2 i hi, hc1 i hi]⟩
  added {q e'} hq hq' := by
    cases hw : w.sup q with
    | none => exact h'.added hw hq'
    | some e =>
      obtain ⟨e2, hq2, hsame, hc⟩ := h'.mapped hw
      cases mem_unique hq2 hq'
      rw [initial_of_same hsame, h'.files]
      exact fun i hi => by rw [hc i hi, h.added hq hw i hi]

theorem Inv.userWrite (h : Inv m v none) (hpool : ∃ f, m.userFrame f = true) (esp vaddr : ℕ)
    (b : UInt8) :
    Meets (SwapTooSmall m) (fun x => Inv m x.2 none ∧
      if x.1 then Writes v x.2 vaddr b
      else Keeps v x.2 ∧ ¬ Accessible m v (vaddr / PGSIZE) true) (v.userWrite m esp vaddr b) := by
  refine (h.access hpool esp vaddr true).bind ?_
  rintro ⟨_ | _, w⟩ ⟨hw, hkps, hend⟩
  · exact ⟨hw, hkps, hend⟩
  · obtain ⟨-, e, f, hp, hf, hfra, -⟩ := hw.entry_of_permits hend
    refine ⟨hw.touch _ true true _, hkps.writes (hw.writes hp hf rfl ?_ rfl rfl)⟩
    rw [hfra]

/-! ### Runs -/

theorem FileMapped.keeps (h : FileMapped m vaddr file writable n v v') : Keeps v v' := by
  obtain ⟨sup, hrest⟩ := h.rest
  have hcoe : ∀ e, v'.content e = v.content e := by
    rw [hrest]
    exact fun _ => rfl
  refine ⟨by rw [hrest], fun {p e} hp => ⟨e, h.old hp, ⟨_, _, _, rfl⟩, by rw [hcoe]; exact .refl _⟩,
    fun hp hp' => ?_⟩
  obtain ⟨i, -, -, rfl⟩ := h.new hp hp'
  exact .of_eq (content_of_file rfl rfl)

/-- A process that has been loaded: its pages are in their files, and it has no frame and no slot.
The clock list may have entries from earlier processes. -/
structure Image (m : Machine) (v : State) : Prop where
  unloaded : ∀ {p e}, v.sup p = some e → p < m.physBase ∧ e.WellFormed ∧ e.loaded = false ∧
    e.fileOfs + e.pageEnd ≤ m.pages * PGSIZE
  frames : ∀ f, m.userFrame f = true → v.used f = false ∧ (v.frameTable f).page = false
  slots : ∀ s, v.swapSlots s = false
  pagedir : ∀ p, (v.pagedir p).present = false
  lru : ∀ f ∈ v.lru, m.userFrame f = true

theorem Image.inv (h : Image m v) : Inv m v none := by
  have hfra : ∀ p, v.frameOf p = none := by
    intro p
    cases hp : v.sup p with
    | none => simp [frameOf, hp]
    | some e =>
      obtain ⟨-, hwf, hun, -⟩ := h.unloaded hp
      rw [frameOf_eq hp, (hwf.unloaded hun).1]
  have hslot : ∀ p, v.slotOf p = none := by
    intro p
    cases hp : v.sup p with
    | none => simp [slotOf, hp]
    | some e =>
      obtain ⟨-, hwf, hun, -⟩ := h.unloaded hp
      rw [slotOf_eq hp, (hwf.unloaded hun).2.1]
  refine ⟨fun hp => (h.unloaded hp).2.1, fun hp => (h.unloaded hp).1.trans_le m.physBase_le,
    fun hp => (h.unloaded hp).2.2.2, fun hp _ => (h.unloaded hp).1, .empty (fun q => ?_) fun f hf => ?_, .empty hslot fun s hs => ?_,
    fun p => ?_, fun {p e f} hp hf => ?_, fun f hf => ?_, fun f hf hu => ?_, h.lru⟩
  · cases q with
    | none => rfl
    | some p => exact hfra p
  · rw [(h.frames f hf.1).1] at hf
    cases hf.2
  · rw [h.slots s] at hs
    cases hs.2
  · rw [h.pagedir, hfra]
    rfl
  · simp [← frameOf_eq hp, hfra] at hf
  · rw [(h.frames f hf).1, (h.frames f hf).2]
  · simp [(h.frames f hf).1] at hu

/-- Note the byte that an operation writes. -/
def note (w : ℕ → Option UInt8) : Op → ℕ → Option UInt8
  | .write _ vaddr b => update w vaddr (some b)
  | _ => w

/-- The bytes that a process has written last. -/
def written (ops : List Op) : ℕ → Option UInt8 := ops.foldl note fun _ => none

/-- Each byte is the one that was written last or else the initial one. -/
structure Shows (w : ℕ → Option UInt8) (v : State) : Prop where
  mapped : ∀ {p e}, v.sup p = some e → ∀ i < PGSIZE,
    v.content e i = (w (p * PGSIZE + i)).getD (initial v.files e i)
  unmapped : ∀ {p}, v.sup p = none → ∀ i < PGSIZE, w (p * PGSIZE + i) = none

theorem Shows.keeps (h : Shows x v) (hk : Keeps v v') : Shows x v' where
  mapped {p e'} hp' i hi := by
    cases hp : v.sup p with
    | none => rw [hk.added hp hp' i hi, h.unmapped hp i hi, getD_none]
    | some e =>
      obtain ⟨e1, hp1, hsame, hc⟩ := hk.mapped hp
      cases mem_unique hp1 hp'
      rw [hc i hi, h.mapped hp i hi, initial_of_same hsame, hk.files]
  unmapped {p} hp' i hi := by
    cases hp : v.sup p with
    | none => exact h.unmapped hp i hi
    | some e =>
      obtain ⟨e', hp, -⟩ := hk.mapped hp
      cases hp.symm.trans hp'

theorem Shows.writes (h : Shows x v)
    (hw : Writes v v' vaddr b) : Shows (update x vaddr (some b)) v' where
  mapped {p e'} hp' i hi := by
    rw [update_apply]
    cases hp : v.sup p with
    | none =>
      rw [hw.added hp hp' i hi, h.unmapped hp i hi]
      split_ifs <;> rfl
    | some e =>
      obtain ⟨e1, hp1, hsame, hc⟩ := hw.mapped hp
      cases mem_unique hp1 hp'
      rw [hc i hi, h.mapped hp i hi, initial_of_same hsame, hw.files]
      split_ifs <;> rfl
  unmapped {p} hp' i hi := by
    rw [update_of_ne]
    · cases hp : v.sup p with
      | none => exact h.unmapped hp i hi
      | some e =>
        obtain ⟨e', hp, -⟩ := hw.mapped hp
        cases hp.symm.trans hp'
    · intro hc
      have := hw.target
      simp [← ((addr_eq_iff hi).mp hc).1, hp'] at this

/-- What an operation other than `munmap` does to the bytes of the pages. -/
def Effect (op : Op) (v v' : State) : Prop :=
  match op with
  | .write _ vaddr b => Writes v v' vaddr b
  | _ => Keeps v v'

theorem Shows.effect (h : Shows x v) (he : Effect op v v') : Shows (note x op) v' := by
  cases op with
  | write esp vaddr b => exact h.writes he
  | _ => exact h.keeps he

section
variable (h : Inv m v none) (hpool : ∃ f, m.userFrame f = true)
  (hfls : ∀ x, numPages (v.files x).length ≤ m.pages)
include h hpool hfls

theorem Inv.step (op : Op) (hop : ∀ id, op ≠ .munmap id) :
    Meets (SwapTooSmall m) (fun y => Inv m y.2 none ∧ y.2.files = v.files ∧
      (y.1 = true → Effect op v y.2)) (v.step m op) := by
  cases op with
  | setupStack =>
    have hmax := m.maxPages_le
    have hpos := m.maxPages_pos
    refine (zeros_meets v hpool v _ ⟨h, .refl v⟩ ?_).mono fun y hy => ?_
    · rw [Nat.mul_div_cancel _ (by decide)]
      omega
    · exact ⟨hy.1.1, hy.1.2.files, fun _ => hy.1.2⟩
  | read esp vaddr =>
    refine (h.userRead hpool esp vaddr).bind fun y hy => ?_
    exact ⟨hy.1, hy.2.1.files, fun _ => hy.2.1⟩
  | write esp vaddr b =>
    refine (h.userWrite hpool esp vaddr b).mono ?_
    rintro ⟨_ | _, w⟩ ⟨hw, hend⟩
    · exact ⟨hw, hend.1.files, nofun⟩
    · exact ⟨hw, hend.files, fun _ => hend⟩
  | enter esp =>
    rw [State.step]
    split_ifs
    · refine (growStack_meets (zeros_meets v hpool) stack_keeps ⟨h, .refl v⟩
        (by omega)).bind fun w hw => ?_
      exact ⟨hw.1.1, hw.1.2.files, fun _ => hw.1.2⟩
    · exact ⟨h, rfl, fun _ => .refl v⟩
  | mmap vaddr file =>
    rw [State.step]
    split_ifs
    · exact ⟨h, rfl, fun _ => .refl v⟩
    · exact ⟨h, rfl, fun _ => .refl v⟩
    · refine (supAllocFile_meets (hfls file) true).bind ?_
      rintro ⟨id, w⟩ (hno | ⟨-, hmap⟩)
      · cases hno
        exact ⟨h, rfl, fun _ => .refl v⟩
      · exact ⟨hmap.inv (hfls file) h, hmap.keeps.files, fun _ => hmap.keeps⟩
  | munmap id => exact absurd rfl (hop id)
  | tick =>
    refine h.clruTimerTick.bind ?_
    rintro w ⟨hw, table, lru, rfl, -⟩
    exact ⟨hw, rfl, fun _ => .of_eq rfl rfl rfl rfl⟩

theorem Inv.exec (hops : ∀ id, .munmap id ∉ ops) (hx : Shows x v) :
    Meets (SwapTooSmall m) (fun y => Inv m y.2 none ∧ y.2.files = v.files ∧
      (y.1 = true → Shows (ops.foldl note x) y.2)) (exec m ops v) := by
  induction ops generalizing v x with
  | nil => exact ⟨h, rfl, fun _ => hx⟩
  | cons op ops ih =>
    refine (h.step hpool hfls op fun id hid => hops id (hid ▸ List.mem_cons_self)).bind ?_
    rintro ⟨_ | _, w⟩ ⟨hw, hsame, hend⟩
    · exact ⟨hw, hsame, nofun⟩
    · refine (ih hw (hsame ▸ hfls) (fun id hid => hops id (List.mem_cons_of_mem _ hid))
        (hx.effect (hend rfl))).mono fun y hy => ⟨hy.1, hy.2.1.trans hsame, hy.2.2⟩

end

/-- What a process sees of its memory after it has done `ops`. -/
structure Transparent (m : Machine) (files : ℕ → List UInt8) (ops : List Op) (v : State) : Prop where
  /-- A page is in the page table exactly if it is loaded and not in swap. -/
  present : ∀ p, (v.pagedir p).present = true ↔
    ∃ e, v.sup p = some e ∧ e.loaded = true ∧ e.slot = none
  /-- The page table and the supplemental entry name the same frame. -/
  frame : ∀ p e, v.sup p = some e → (v.pagedir p).present = true →
    e.frameNo = some (v.pagedir p).frame
  /-- A byte that is read next is the one written last, or else the initial one. -/
  read : ∀ esp vaddr, Meets (SwapTooSmall m) (fun y =>
    (y.1 = none → ¬ Accessible m v (vaddr / PGSIZE) false) ∧
    ∀ b, y.1 = some b → ∃ e, y.2.sup (vaddr / PGSIZE) = some e ∧
      b = (written ops vaddr).getD (initial files e (vaddr % PGSIZE))) (v.userRead m esp vaddr)
  /-- A write is refused only if the process has no right to it. -/
  write : ∀ esp vaddr b, Meets (SwapTooSmall m) (fun y =>
    y.1 = false → ¬ Accessible m v (vaddr / PGSIZE) true) (v.userWrite m esp vaddr b)

theorem Inv.transparent (h : Inv m v none) (hpool : ∃ f, m.userFrame f = true)
    (hx : Shows (written ops) v) : Transparent m v.files ops v where
  present p := by
    rw [h.present]
    constructor
    · intro hsome
      obtain ⟨f, hf⟩ := isSome_iff_exists.mp hsome
      obtain ⟨e, hp, hf⟩ := exists_of_frameOf hf
      exact ⟨e, hp, h.loaded_of_frame hp hf, h.slot_eq_none hp hf⟩
    · rintro ⟨e, hp, hl, hs⟩
      rw [frameOf_eq hp]
      exact ((h.wellFormed hp).loaded hl).mpr hs
  frame p e hp hprs := by
    rw [h.present, frameOf_eq hp] at hprs
    obtain ⟨f, hf⟩ := isSome_iff_exists.mp hprs
    rw [hf, (h.pte hp hf).1]
  read esp vaddr := by
    refine (h.userRead hpool esp vaddr).mono fun y hy => ⟨hy.2.2.1, fun b hb => ?_⟩
    obtain ⟨e, hp, rfl⟩ := hy.2.2.2 b hb
    refine ⟨e, hp, ?_⟩
    rw [(hx.keeps hy.2.1).mapped hp _ (Nat.mod_lt _ (by decide)), hy.2.1.files,
      mul_comm, Nat.div_add_mod]
  write esp vaddr b := by
    refine (h.userWrite hpool esp vaddr b).mono ?_
    rintro ⟨_ | _, w⟩ ⟨-, hend⟩
    · exact fun _ => hend.2
    · exact nofun

theorem numPages_le (h : size ≤ m.pages * PGSIZE) : numPages size ≤ m.pages := by
  unfold numPages
  rw [PGSIZE_eq] at *
  split_ifs <;> omega

end State

open State in
/-- **Paging is transparent.**  A process is loaded with any segments and then maps, reads and writes
any pages, in any order, while the clock ticks.  No assertion fails and no loop hangs; the process
sees the bytes that it has written, whatever pages had to be evicted. -/
theorem paging_transparent (m : Machine) (hpool : ∃ f, m.userFrame f = true) (v₀ : State)
    (h₀ : Image m v₀) (hfiles : ∀ x, (v₀.files x).length ≤ m.pages * PGSIZE) (ops : List Op)
    (hops : ∀ id, .munmap id ∉ ops) :
    (∀ e, exec m ops v₀ = .error e → SwapTooSmall m e) ∧
      ∀ v, exec m ops v₀ = .ok (true, v) → Transparent m v₀.files ops v := by
  have hsta : Shows (fun _ => none) v₀ :=
    ⟨fun hp i _ => by
      obtain ⟨-, hwf, hun, -⟩ := h₀.unloaded hp
      rw [content_of_file (hwf.unloaded hun).1 (hwf.unloaded hun).2.1, getD_none],
      fun _ _ _ => rfl⟩
  have hrun := h₀.inv.exec hpool (fun x => numPages_le (hfiles x)) hops hsta
  refine ⟨fun e he => hrun.of_eq_error he, fun v hv => ?_⟩
  obtain ⟨hinv, hsame, hend⟩ := hrun.of_eq_ok hv
  rw [← hsame]
  exact hinv.transparent hpool (hend rfl)

/-- A machine with two frames for user pages and an address space of eight pages. -/
def smallMachine : Machine where
  initRamPages := 262
  userPageLimit := 100
  numSlots := 8
  pages := 8
  physBase := 6
  maxPages := 2
  physBase_le := by decide
  maxPages_le := by decide
  maxPages_pos := by decide

/-- A process with three pages, each of which has three bytes of a file. -/
def smallProcess : State where
  sup p := if p ∈ [1, 2, 3] then some ⟨none, none, false, some 0, 3 * p - 3, 3, true, false, 0⟩
    else none
  pagedir _ := ⟨false, 0, false, false, false⟩
  numStackPages := 1
  used _ := false
  frameTable _ := ⟨false, false, false⟩
  mem _ _ := 0
  lru := []
  swapSlots _ := false
  swapBlock _ _ := 0
  files _ := [10, 20, 30, 11, 21, 31, 12, 22, 32]
  denyWrite _ := false
  lastMapid := 1

theorem image_smallProcess : State.Image smallMachine smallProcess := by
  refine ⟨fun {p e} hp => ?_, fun _ _ => ⟨rfl, rfl⟩, fun _ => rfl, fun _ => rfl, nofun⟩
  obtain ⟨hmem, ⟨⟩⟩ := ite_none_right_eq_some.mp hp
  simp only [List.mem_cons, List.not_mem_nil, or_false] at hmem
  rcases hmem with rfl | rfl | rfl <;>
    exact ⟨by decide, ⟨by decide, fun _ => ⟨rfl, rfl, rfl, rfl⟩, nofun⟩, rfl, by decide⟩

/-- The first page is written, and it is evicted when the third is read. -/
def threePages : List Op := [.write 0 4096 7, .read 0 8192, .read 0 12288]

theorem bounded_smallProcess (x : ℕ) :
    (smallProcess.files x).length ≤ smallMachine.pages * PGSIZE :=
  show 9 ≤ 8 * 4096 by omega

open State in
theorem paging_transparent_three_pages :
    ∃ v, exec smallMachine threePages smallProcess = .ok (true, v) ∧ v.slotOf 1 = some 0 ∧
      Transparent smallMachine smallProcess.files threePages v := by
  have hrun : (exec smallMachine threePages smallProcess).toOption.map
      (fun x => (x.1, x.2.slotOf 1)) = some (true, some 0) := by decide +kernel
  obtain ⟨⟨alive, v⟩, heq, hend⟩ := Outcome.eq_ok_of_map hrun
  obtain ⟨rfl, hslot⟩ := Prod.mk.inj hend
  exact ⟨v, heq, hslot, (paging_transparent smallMachine ⟨260, by decide +kernel⟩ smallProcess
    image_smallProcess bounded_smallProcess threePages (by simp [threePages])).2 v heq⟩

end Pintos.Vm
