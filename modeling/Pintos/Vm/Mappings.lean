import Pintos.Vm.Steps
import Pintos.Vm.Unmapping

/-! # Mappings

A page knows the number of the mapping that it belongs to.  The numbers that `mmap` returns are
taken from the same counter as the one that the segments of an executable get; the pages of the stack
have the number `MAP_FAILED`.

* **Record.**  `Record` notes beside the system which mappings each process has.
* **Kinds of pages.**  Every page of a process belongs to its stack, to its executable or to one of
  its mappings, and its number says to which (`Tracked`).
* **Unmapping.**  `munmap` looks only at the number, so that it also removes the stack and the
  executable if it is given their numbers. -/

namespace Pintos.Vm
open Bytes Outcome Runs Function Option State Vm.Process

namespace State

variable {m : Machine} {v v' w : State} {maps : ℤ → Option (List ℕ)} {segment : Option ℤ} {id : ℤ}
  {p : ℕ} {e : SupEntry}

/-- The number that `mmap` returns, if it maps the file. -/
def mmapId (m : Machine) (v : State) (vaddr file : ℕ) : Option ℤ :=
  if vaddr = 0 ∨ m.physBase ≤ vaddr / PGSIZE then none
  else match v.supAllocFile m vaddr file true with
    | .ok (id, _) => if id = MAP_FAILED then none else some id
    | .error _ => none

/-- The pages at which a file is mapped. -/
def mmapPages (m : Machine) (v : State) (vaddr file : ℕ) : List ℕ :=
  (List.range (numPages (v.files file).length)).map (pageAbove m vaddr)

/-- `munmap` has removed the pages of the mapping, and nothing if there is no such mapping.  Other
pages may have been moved. -/
def UnmapsExactly (mapping : Option (List ℕ)) (v v' : State) : Prop :=
  match mapping with
  | none => v'.sup = v.sup ∧ v'.pagedir = v.pagedir
  | some pages => ∀ p,
      (p ∈ pages → v'.sup p = none ∧ (v'.pagedir p).present = false) ∧
      (p ∉ pages → (v.sup p = none → v'.sup p = none) ∧
        ∀ e, v.sup p = some e → ∃ e', v'.sup p = some e' ∧ e'.Same e)

/-- The number is not that of pages of the stack or of the executable. -/
def MmapNumber (segment : Option ℤ) (v : State) (id : ℤ) : Prop :=
  (id = MAP_FAILED → ∀ p e, v.sup p = some e → e.allZero = false) ∧
    (segment = some id → ∀ p e, v.sup p = some e → e.mapid ≠ id)

/-- The pages of a process and its mappings.  `segment` is the number of its executable. -/
structure Tracked (m : Machine) (maps : ℤ → Option (List ℕ)) (segment : Option ℤ) (v : State) :
    Prop where
  mirrored : v.Mirrored
  lt_pages : ∀ {p e}, v.sup p = some e → p < m.pages
  kinds : ∀ {p e}, v.sup p = some e → (e.allZero = true ∧ e.mapid = MAP_FAILED) ∨
    e.allZero = false ∧ (segment = some e.mapid ∨ ∃ pages, maps e.mapid = some pages ∧ p ∈ pages)
  mapped : ∀ {id pages}, maps id = some pages → ∀ p ∈ pages, ∃ e, v.sup p = some e ∧ e.mapid = id
  fresh : ∀ {id pages}, maps id = some pages → 0 ≤ id ∧ id < v.lastMapid ∧ segment ≠ some id
  segment : ∀ {id}, segment = some id → 0 ≤ id ∧ id < v.lastMapid

theorem supRemoveMap_drops (m : Machine) (v : State) (id : ℤ) :
    Meets Any (fun w => Evolves m true v w ∧
      Drops (fun p e => p < m.pages ∧ e.mapid = id) v w) (v.supRemoveMap m id) := by
  refine (unmapPages_drops m v (fun e => e.mapid == id) ?_).mono fun w hw =>
    ⟨hw.1, hw.2.mono fun p e => by rw [beq_iff_eq]⟩
  rintro e _ ⟨_, _, _, rfl⟩
  rfl

theorem Tracked.mapid_ne_failed (h : Tracked m maps segment v) : maps MAP_FAILED = none := by
  cases hmap : maps MAP_FAILED with
  | none => rfl
  | some pages => exact absurd (h.fresh hmap).1 (by decide)

/-- Exactly when the number is not that of the stack or of the executable, `munmap` removes the
mapping with this number. -/
theorem Tracked.unmapsExactly_iff (h : Tracked m maps segment v)
    (hw : v.supRemoveMap m id = .ok w) :
    UnmapsExactly (maps id) v w ↔ MmapNumber segment v id := by
  obtain ⟨-, hdrp⟩ := (supRemoveMap_drops m v id).of_eq_ok hw
  -- without a mapping, no page may have the number
  have hnone : maps id = none → UnmapsExactly (maps id) v w →
      ∀ {p e}, v.sup p = some e → e.mapid ≠ id := by
    intro hmap hexc p e hp hid
    rw [hmap] at hexc
    have hgone := hdrp.removed hp ⟨h.lt_pages hp, hid⟩
    simp [hexc.1, hp] at hgone
  constructor
  · refine fun hexc => ⟨?_, fun hseg p e hp hid => ?_⟩
    · rintro rfl p e hp
      by_contra hz
      rcases h.kinds hp with ⟨-, hid⟩ | ⟨hz', -⟩
      · exact hnone h.mapid_ne_failed hexc hp hid
      · exact hz hz'
    · have hmap : maps id = none := by
        cases hmap : maps id with
        | none => rfl
        | some pages => exact absurd hseg (h.fresh hmap).2.2
      exact hnone hmap hexc hp hid
  · rintro ⟨hstc, hseg⟩
    have hpage : ∀ {p e}, v.sup p = some e → e.mapid = id → ∃ pages, maps id = some pages ∧
        p ∈ pages := by
      rintro p e hp rfl
      rcases h.kinds hp with ⟨hz, hid⟩ | ⟨-, hid | hmap⟩
      · cases hz.symm.trans (hstc hid p e hp)
      · exact absurd rfl (hseg hid p e hp)
      · exact hmap
    cases hmap : maps id with
    | none =>
      have hno : ∀ {p e}, v.sup p = some e → (e.mapid == id) = false := by
        intro p e hp
        rw [beq_eq_false_iff_ne]
        intro hid
        obtain ⟨pages, hsome, -⟩ := hpage hp hid
        cases hmap.symm.trans hsome
      obtain ⟨u, hu, hproc⟩ := unmapPages_eq_ok m v (fun e => e.mapid == id) hno
      cases Except.ok.inj (hu.symm.trans hw)
      exact ⟨congrArg sup hproc, congrArg pagedir hproc⟩
    | some pages =>
      intro p
      refine ⟨fun hp => ?_, fun hp => ⟨hdrp.unmapped, fun e he => ?_⟩⟩
      · obtain ⟨e, he, hid⟩ := h.mapped hmap p hp
        have hgone := hdrp.removed he ⟨h.lt_pages he, hid⟩
        refine ⟨hgone, ?_⟩
        by_contra hprs
        obtain ⟨e', he', -⟩ := hdrp.mirrored h.mirrored p (by simpa using hprs)
        cases hgone.symm.trans he'
      · refine hdrp.kept he fun hid => hp ?_
        obtain ⟨pages', hmap', hin⟩ := hpage he hid.2
        cases mem_unique hmap hmap'
        exact hin

/-! ### Steps -/

theorem Tracked.congr (h : Tracked m maps segment v) (hproc : v'.toProcess = v.toProcess)
    (hlast : v.lastMapid ≤ v'.lastMapid) : Tracked m maps segment v' := by
  have hsup := congrArg sup hproc
  have hpte := congrArg pagedir hproc
  refine ⟨fun p hp => ?_, fun hp => h.lt_pages (hsup ▸ hp), fun hp => h.kinds (hsup ▸ hp),
    fun hmap p hp => ?_, fun hmap => ?_, fun hseg => ?_⟩
  · rw [hpte] at hp
    rw [hsup]
    exact h.mirrored p hp
  · rw [hsup]
    exact h.mapped hmap p hp
  · obtain ⟨hpos, hlt, hne⟩ := h.fresh hmap
    exact ⟨hpos, hlt.trans_le hlast, hne⟩
  · obtain ⟨hpos, hlt⟩ := h.segment hseg
    exact ⟨hpos, hlt.trans_le hlast⟩

theorem Tracked.empty (hproc : v.toProcess = .empty)
    (hseg : ∀ {id}, segment = some id → 0 ≤ id ∧ id < v.lastMapid) :
    Tracked m (fun _ => none) segment v := by
  have hsup : ∀ p, v.sup p = none := fun p => congrFun (congrArg sup hproc) p
  refine ⟨fun p hp => ?_, fun hp => ?_, fun hp => ?_, nofun, nofun, hseg⟩
  · rw [show v.pagedir = Process.empty.pagedir from congrArg Process.pagedir hproc] at hp
    exact (Bool.false_ne_true hp).elim
  · cases (hsup _).symm.trans hp
  · cases (hsup _).symm.trans hp

section
variable (h : Tracked m maps segment v)
include h

theorem Tracked.retains (hr : Retains m v v') :
    Tracked m maps segment v' := by
  have hcas : ∀ {p e'}, v'.sup p = some e' → (∃ e, v.sup p = some e ∧ e'.Same e) ∨
      e'.allZero = true ∧ e'.mapid = MAP_FAILED ∧ p < m.physBase := by
    intro p e' hp'
    cases hp : v.sup p with
    | none => exact .inr (hr.added hp hp')
    | some e =>
      obtain ⟨e1, hp1, hsame⟩ := hr.kept hp
      cases mem_unique hp1 hp'
      exact .inl ⟨e, rfl, hsame⟩
  refine ⟨hr.mirrored h.mirrored, fun hp' => ?_, fun hp' => ?_, fun hmap p hp => ?_, fun hmap => ?_,
    fun hseg => ?_⟩
  · rcases hcas hp' with ⟨e, hp, -⟩ | ⟨-, -, hlt⟩
    · exact h.lt_pages hp
    · exact hlt.trans_le m.physBase_le
  · rcases hcas hp' with ⟨e, hp, _, _, _, rfl⟩ | ⟨hz, hid, -⟩
    · exact (h.kinds hp :)
    · exact .inl ⟨hz, hid⟩
  · obtain ⟨e, hp, hid⟩ := h.mapped hmap p hp
    obtain ⟨e', hp', _, _, _, rfl⟩ := hr.kept hp
    exact ⟨_, hp', hid⟩
  · rw [hr.lastMapid]
    exact h.fresh hmap
  · rw [hr.lastMapid]
    exact h.segment hseg

/-- A file has been mapped at `pages`. -/
theorem Tracked.mmap (hpos : 0 ≤ v.lastMapid)
    (hlt : ∀ p ∈ pages, p < m.pages)
    (hm : Maps v.lastMapid {p | p ∈ pages} { v with lastMapid := v.lastMapid + 1 } v') :
    Tracked m (update maps v.lastMapid (some pages)) segment v' := by
  have hlast : v'.lastMapid = v.lastMapid + 1 := by
    obtain ⟨sup, rfl⟩ := hm.rest
    rfl
  have hold : ∀ {id pages'}, id ≠ v.lastMapid →
      update maps v.lastMapid (some pages) id = some pages' → maps id = some pages' :=
    fun hne hmap => by rwa [update_of_ne hne] at hmap
  have hcas : ∀ {p e}, v'.sup p = some e → v.sup p = some e ∨
      p ∈ pages ∧ e.mapid = v.lastMapid ∧ e.allZero = false := by
    intro p e hp'
    cases hp : v.sup p with
    | none => exact .inr (hm.added hp hp')
    | some e1 =>
      cases (hm.kept hp).symm.trans hp'
      exact .inl rfl
  refine ⟨hm.mirrored h.mirrored, fun hp' => ?_, fun hp' => ?_, fun {id pages'} hmap p hp => ?_,
    fun {id pages'} hmap => ?_, fun hseg => ?_⟩
  · rcases hcas hp' with hp | ⟨hin, -⟩
    · exact h.lt_pages hp
    · exact hlt _ hin
  · rcases hcas hp' with hp | ⟨hin, hid, hz⟩
    · refine (h.kinds hp).imp id fun ⟨hz, hrest⟩ => ⟨hz, hrest.imp id ?_⟩
      rintro ⟨pages', hmap, hin⟩
      refine ⟨pages', ?_, hin⟩
      rwa [update_of_ne (h.fresh hmap).2.1.ne]
    · exact .inr ⟨hz, .inr ⟨pages, by rw [hid, update_self], hin⟩⟩
  · by_cases hne : id = v.lastMapid
    · subst hne
      rw [update_self, some.injEq] at hmap
      subst hmap
      obtain ⟨hnone, hsome⟩ := hm.mapped hp
      obtain ⟨e, he⟩ := isSome_iff_exists.mp hsome
      exact ⟨e, he, (hm.added hnone he).2.1⟩
    · obtain ⟨e, he, hid⟩ := h.mapped (hold hne hmap) p hp
      exact ⟨e, hm.kept he, hid⟩
  · by_cases hne : id = v.lastMapid
    · subst hne
      refine ⟨hpos, by omega, fun hseg => ?_⟩
      exact absurd (h.segment hseg).2 (lt_irrefl _)
    · obtain ⟨hpos', hlt', hseg⟩ := h.fresh (hold hne hmap)
      exact ⟨hpos', by omega, hseg⟩
  · obtain ⟨hpos', hlt'⟩ := h.segment hseg
    exact ⟨hpos', by omega⟩

/-- The mapping with the number `id`, if there is one, has been removed. -/
theorem Tracked.munmap (hd : Drops (fun p e => p < m.pages ∧ e.mapid = id) v v') :
    Tracked m (update maps id none) segment v' := by
  have hcas : ∀ {p e'}, v'.sup p = some e' → ∃ e, v.sup p = some e ∧ e.mapid ≠ id ∧ e'.Same e := by
    intro p e' hp'
    cases hp : v.sup p with
    | none => cases (hd.unmapped hp).symm.trans hp'
    | some e =>
      have hno : ¬ (p < m.pages ∧ e.mapid = id) := fun hg => by
        cases (hd.removed hp hg).symm.trans hp'
      obtain ⟨e1, hp1, hsame⟩ := hd.kept hp hno
      cases mem_unique hp1 hp'
      exact ⟨e, rfl, fun hid => hno ⟨h.lt_pages hp, hid⟩, hsame⟩
  have hold : ∀ {id' pages}, update maps id none id' = some pages →
      id' ≠ id ∧ maps id' = some pages := by
    intro id' pages hmap
    by_cases hne : id' = id
    · simp [hne] at hmap
    · rw [update_of_ne hne] at hmap
      exact ⟨hne, hmap⟩
  refine ⟨hd.mirrored h.mirrored, fun hp' => ?_, fun hp' => ?_, fun hmap p hp => ?_, fun hmap => ?_,
    fun hseg => ?_⟩
  · obtain ⟨e, hp, -⟩ := hcas hp'
    exact h.lt_pages hp
  · obtain ⟨e, hp, hne, _, _, _, rfl⟩ := hcas hp'
    dsimp only
    rw [update_of_ne hne]
    exact h.kinds hp
  · obtain ⟨hne, hmap⟩ := hold hmap
    obtain ⟨e, he, hid⟩ := h.mapped hmap p hp
    obtain ⟨e', he', _, _, _, rfl⟩ := hd.kept he fun hg => hne (hid.symm.trans hg.2)
    exact ⟨_, he', hid⟩
  · rw [hd.lastMapid]
    exact h.fresh (hold hmap).2
  · rw [hd.lastMapid]
    exact h.segment hseg

theorem Tracked.free (hd : Drops (fun p _ => p < m.pages ∧ True) v v') :
    Tracked m (fun _ => none) segment v' := by
  have hnone : ∀ p, v'.sup p = none := by
    intro p
    cases hp : v.sup p with
    | none => exact hd.unmapped hp
    | some e => exact hd.removed hp ⟨h.lt_pages hp, trivial⟩
  refine ⟨hd.mirrored h.mirrored, fun hp' => ?_, fun hp' => ?_, nofun, nofun, fun hseg => ?_⟩
  · cases (hnone _).symm.trans hp'
  · cases (hnone _).symm.trans hp'
  · rw [hd.lastMapid]
    exact h.segment hseg

end

theorem Tracked.load (hproc : v.toProcess = .empty) (hpos : 0 ≤ v.lastMapid) {P : Set ℕ}
    (hlt : ∀ p ∈ P, p < m.physBase)
    (hm : Maps v.lastMapid P { v with lastMapid := v.lastMapid + 1 } w) :
    Tracked m (fun _ => none) (some v.lastMapid) w := by
  have hlast : w.lastMapid = v.lastMapid + 1 := by
    obtain ⟨sup, rfl⟩ := hm.rest
    rfl
  have hsta : Tracked m (fun _ => none) (some v.lastMapid)
      { v with lastMapid := v.lastMapid + 1 } := by
    refine .empty hproc fun hseg => ?_
    cases hseg
    exact ⟨hpos, Int.lt_add_one_iff.mpr le_rfl⟩
  have had : ∀ {p e}, w.sup p = some e → p ∈ P ∧ e.mapid = v.lastMapid ∧ e.allZero = false :=
    fun hp => hm.added (congrFun (congrArg sup hproc) _) hp
  refine ⟨hm.mirrored hsta.mirrored, fun hp => ?_, fun hp => ?_, nofun, nofun, fun hseg => ?_⟩
  · exact (hlt _ (had hp).1).trans_le m.physBase_le
  · exact .inr ⟨(had hp).2.2, .inl (congrArg some (had hp).2.1.symm)⟩
  · cases hseg
    exact ⟨hpos, by omega⟩

end State

/-! ### Runs -/

/-- The mappings of a process with the number `segment` for its executable, after it has acted in
the state `v`. -/
def notes (m : Machine) (v : State) (maps : ℤ → Option (List ℕ)) : Action → ℤ → Option (List ℕ)
  | .run (.mmap vaddr file) =>
    match v.mmapId m vaddr file with
    | none => maps
    | some id => update maps id (some (v.mmapPages m vaddr file))
  | .run (.munmap id) => update maps id none
  | .exec _ | .supFreeTable | .processExit | .closeFds => fun _ => none
  | _ => maps

/-- The number of its executable. -/
def segmentNumber (elf : List UInt8 → Option (List (Option Phdr))) (v : State)
    (segment : Option ℤ) : Action → Option ℤ
  | .exec inode => (elf (v.files inode)).map fun _ => v.lastMapid
  | _ => segment

/-- The system, the mappings of each process, and the numbers of the executables. -/
structure Record (T : Type) where
  sys : System T
  mappings : T → ℤ → Option (List ℕ)
  segments : T → Option ℤ

namespace Record

variable {T : Type} {m : Machine} {elf : List UInt8 → Option (List (Option Phdr))}
  {r r' : Record T} {s' : System T} {t : T}

def start (s : System T) : Record T := ⟨s, fun _ _ => none, fun _ => none⟩

/-- Every process has the mappings that are noted. -/
structure Sound (m : Machine) (r : Record T) : Prop where
  lastMapid : 0 ≤ r.sys.kernel.lastMapid
  tracked : ∀ t, State.Tracked m (r.mappings t) (r.segments t) (r.sys.current t)

variable [DecidableEq T]

def step (m : Machine) (elf : List UInt8 → Option (List (Option Phdr))) (r : Record T)
    (a : T × Action) : Option (Record T) :=
  (r.sys.step m elf a).map fun s =>
    { sys := s
      mappings := update r.mappings a.1
        (notes m (r.sys.current a.1) (r.mappings a.1) a.2)
      segments := update r.segments a.1
        (segmentNumber elf (r.sys.current a.1) (r.segments a.1) a.2) }

/-- `mmap` in a process whose mappings are known. -/
theorem tracked_mmap {segment : Option ℤ} (h : Tracked m maps segment v) (hpos : 0 ≤ v.lastMapid)
    (hstep : v.step m (.mmap vaddr file) = .ok (alive, v')) :
    v.lastMapid ≤ v'.lastMapid ∧
      Tracked m (notes m v maps (.run (.mmap vaddr file))) segment v' := by
  simp only [notes, mmapId]
  simp only [State.step] at hstep
  split_ifs at hstep with hnull hkrn
  · cases hstep
    rw [if_pos (.inl hnull)]
    exact ⟨le_rfl, h⟩
  · cases hstep
    rw [if_pos (.inr hkrn)]
    exact ⟨le_rfl, h⟩
  · rw [if_neg (not_or.mpr ⟨hnull, hkrn⟩)]
    cases halc : v.supAllocFile m vaddr file true with
    | error stop =>
      simp [halc] at hstep
    | ok x =>
      rw [halc] at hstep
      cases hstep
      rcases (supAllocFile_maps m v vaddr file true).of_eq_ok halc with rfl | ⟨hid, hmaps⟩
      · exact ⟨le_rfl, h⟩
      · dsimp only
        have hne : x.1 ≠ MAP_FAILED := by
          rw [MAP_FAILED]
          omega
        have hlast : x.2.lastMapid = v.lastMapid + 1 := by
          obtain ⟨sup, hrest⟩ := hmaps.rest
          rw [hrest]
        rw [if_neg hne, hid]
        refine ⟨by omega, h.mmap hpos ?_ ?_⟩
        · intro p hp
          obtain ⟨i, -, rfl⟩ := List.mem_map.mp hp
          exact pageAbove_lt m vaddr i
        · convert hmaps using 1
          simp [mmapPages, eq_comm]

/-- A step of `t` leaves it with the mappings that are noted. -/
theorem tracked_of_step (hpos : 0 ≤ r.sys.kernel.lastMapid)
    (h : Tracked m (r.mappings t) (r.segments t) (r.sys.current t))
    (hstep : r.sys.step m elf (t, a) = some s') :
    ∃ v', System.After r.sys t v' s' ∧ r.sys.kernel.lastMapid ≤ v'.lastMapid ∧
      Tracked m (notes m (r.sys.current t) (r.mappings t) a)
        (segmentNumber elf (r.sys.current t) (r.segments t) a) v' := by
  have hsame : System.Untouched r.sys t s' →
      ∃ v', System.After r.sys t v' s' ∧ r.sys.kernel.lastMapid ≤ v'.lastMapid ∧
        Tracked m (r.mappings t) (r.segments t) v' := fun hu =>
    ⟨{ r.sys.kernel with toProcess := r.sys.tables t }, ⟨⟨_, hu.kernel⟩, hu.tables, hu.others⟩,
      le_rfl, h.congr rfl le_rfl⟩
  have hgoes : ∀ {user v'}, System.After r.sys t v' s' →
      Goes m user (r.sys.current t) v' → ∃ v', System.After r.sys t v' s' ∧
        r.sys.kernel.lastMapid ≤ v'.lastMapid ∧
        Tracked m (r.mappings t) (r.segments t) v' := fun {_ v'} ha hg =>
    ⟨v', ha, hg.retains.lastMapid.ge, h.retains hg.retains⟩
  have heff := System.memEffect_of_step hstep
  cases a with
  | exec inode =>
    obtain ⟨ht, heff⟩ := heff
    have htal : r.sys.tables t = .empty := by rw [System.tables, ht]; rfl
    change ∃ v', _ ∧ _ ∧ Tracked m _ ((elf (r.sys.ft.contents inode)).map _) v'
    cases helf : elf (r.sys.ft.contents inode) with
    | none =>
      rw [helf] at heff
      obtain ⟨v', ha, hlast, -⟩ := hsame heff
      refine ⟨v', ha, hlast, .empty ?_ (by simp)⟩
      rw [← ha.tables, heff.tables, htal]
    | some phdrs =>
      rw [helf] at heff
      obtain ⟨ft, ok, v', hload, ha⟩ := heff
      obtain ⟨w, P, hmaps, hP, hgo⟩ := (load_maps m _ inode phdrs).of_eq_ok hload
      have hlast : w.lastMapid = r.sys.kernel.lastMapid + 1 := by
        obtain ⟨sup, rfl⟩ := hmaps.rest
        rfl
      refine ⟨v', ha, by rw [hgo.retains.lastMapid]; omega, ?_⟩
      exact (Tracked.load (v := (r.sys.setFiles ft).view .empty) rfl hpos hP
        hmaps).retains hgo.retains
  | run op =>
    obtain ⟨alive, v', hop, ha⟩ := heff
    have hkeep := fun hmap hunm =>
      hgoes ha ((step_goes m _ op hmap hunm).of_eq_ok hop)
    cases op with
    | mmap vaddr file => exact ⟨v', ha, tracked_mmap h hpos hop⟩
    | munmap id =>
      simp only [State.step] at hop
      cases hrmv : (r.sys.current t).supRemoveMap m id with
      | error stop =>
        simp [hrmv] at hop
      | ok w =>
        rw [hrmv] at hop
        obtain ⟨rfl, rfl⟩ := Prod.mk.inj (Except.ok.inj hop)
        obtain ⟨-, hdrp⟩ := (supRemoveMap_drops m _ id).of_eq_ok hrmv
        exact ⟨w, ha, hdrp.lastMapid.ge, h.munmap hdrp⟩
    | setupStack | read | write | enter | tick =>
      exact hkeep (by simp) (by simp)
  | kernelFault esp faultAddr write =>
    obtain ⟨alive, v', hflt, ha⟩ := heff
    exact hgoes ha ((pageFault_goes m _ esp faultAddr false write).of_eq_ok hflt)
  | supFreeTable =>
    obtain ⟨v', hfree, ha⟩ := heff
    have hdrp := ((unmapPages_drops m _ _ fun _ => rfl).of_eq_ok hfree).2
    exact ⟨v', ha, hdrp.lastMapid.ge, h.free (hdrp.mono fun _ _ => by simp)⟩
  | processExit =>
    obtain ⟨v', hdes, ha⟩ := heff
    have hlast := ((pagedirDestroy_occupies m _).of_eq_ok hdes).2.2
    refine ⟨_, ha, hlast.ge, .empty rfl fun hseg => ?_⟩
    have hold := h.segment hseg
    rwa [← hlast] at hold
  | closeFds => exact ⟨_, heff, le_rfl, .empty rfl h.segment⟩
  | openFile | closeFile | readFile | writeFile | seekFile | removeFile | exit => exact hsame heff

theorem Sound.step {a : T × Action} (h : Sound m r) (hstep : r.step m elf a = some r') :
    Sound m r' := by
  obtain ⟨t, a⟩ := a
  obtain ⟨s', hs', rfl⟩ := map_eq_some_iff.mp hstep
  obtain ⟨v', ⟨⟨proc, hkrn⟩, htal, hote⟩, hlast, htrk⟩ :=
    tracked_of_step h.lastMapid (h.tracked t) hs'
  have hlast' : s'.kernel.lastMapid = v'.lastMapid := by rw [hkrn]
  refine ⟨h.lastMapid.trans (hlast.trans hlast'.ge), fun t' => ?_⟩
  dsimp only
  by_cases ht : t' = t
  · subst ht
    rw [update_self, update_self]
    exact htrk.congr htal hlast'.ge
  · rw [update_of_ne ht, update_of_ne ht]
    refine (h.tracked t').congr ?_ (hlast.trans hlast'.ge)
    change s'.tables t' = r.sys.tables t'
    rw [System.tables, hote t' ht]
    rfl

end Record

/-- **What munmap removes.**  In every state that is reached when the first process starts with the
mapping number 0, and for every number: if `munmap` returns, it has removed the mapping with this
number, and nothing if there is none, exactly when the number is not that of pages of the stack or of
the executable.  It does return, unless the swap device is too small, if the frames are consistent. -/
theorem munmap_exact_iff {T : Type} [DecidableEq T] (m : Machine)
    (elf : List UInt8 → Option (List (Option Phdr))) (s₀ : System T)
    (h₀ : ∀ t, s₀.threads t = none) (hid : s₀.kernel.lastMapid = 0) (r : Record T)
    (h : Reaches (Record.step m elf) (fun _ _ => True) (.start s₀) r) (t : T) (id : ℤ) :
    (∀ w, (r.sys.current t).supRemoveMap m id = .ok w →
      (State.UnmapsExactly (r.mappings t id) (r.sys.current t) w ↔
        State.MmapNumber (r.segments t) (r.sys.current t) id)) ∧
    (State.Inv m (r.sys.current t) none → (∃ f, m.userFrame f = true) →
      Meets (SwapTooSmall m) (fun _ => True) ((r.sys.current t).supRemoveMap m id)) := by
  have hsnd : Record.Sound m r := by
    refine h.invariant (P := Record.Sound m) ⟨hid.ge, fun t => .empty ?_ (by nofun)⟩
      fun _ _ _ hr _ hstep => hr.step hstep
    change s₀.tables t = .empty
    rw [System.tables, h₀ t]
    rfl
  refine ⟨fun w hw => (hsnd.tracked t).unmapsExactly_iff hw, fun hinv hpool => ?_⟩
  exact (hinv.unmapPages hpool _ (I := fun _ _ => True) trivial fun _ _ _ _ _ _ _ _ =>
    trivial).mono fun _ _ => trivial

/-- A process maps a file at its page 2 and unmaps it. -/
theorem munmap_exact_iff_mapped : ∃ (r : Record Bool) (w : State),
    Reaches (Record.step smallMachine smallElf) (fun _ _ => True) (.start smallSystem) r ∧
      r.mappings true 1 = some [2] ∧ (r.sys.current true).supRemoveMap smallMachine 1 = .ok w ∧
      (State.UnmapsExactly (some [2]) (r.sys.current true) w ↔
        State.MmapNumber (r.segments true) (r.sys.current true) 1) := by
  have heval : (Runs.exec (Record.step smallMachine smallElf) (fun _ _ => True)
      (.start smallSystem) [(true, .exec 0), (true, .openFile 1), (true, .run (.mmap 8192 1))]).map
        (fun r => (r.mappings true 1,
          ((r.sys.current true).supRemoveMap smallMachine 1).toOption.isSome)) =
      some (some [2], true) := by decide +kernel
  obtain ⟨r, hr, he⟩ := map_eq_some_iff.mp heval
  obtain ⟨hmap, hok⟩ := Prod.mk.inj he
  obtain ⟨w, hw⟩ := isSome_iff_exists.mp hok
  have hrch := reaches_of_exec hr
  have hexc := (munmap_exact_iff smallMachine smallElf smallSystem (fun _ => rfl) rfl r hrch
    true 1).1 w (eq_ok_of_toOption hw)
  rw [hmap] at hexc
  exact ⟨r, w, hrch, hmap, eq_ok_of_toOption hw, hexc⟩

/-- A process that has mapped nothing calls `munmap` with the number `MAP_FAILED`, which removes its
stack, or with the number 0, which removes its executable. -/
theorem munmap_removes_stack : ∃ (r : Record Bool) (w w' : State),
    Reaches (Record.step smallMachine smallElf) (fun _ _ => True) (.start smallSystem) r ∧
      r.mappings true MAP_FAILED = none ∧ r.mappings true 0 = none ∧
      (r.sys.current true).supRemoveMap smallMachine MAP_FAILED = .ok w ∧
      ((r.sys.current true).sup 5).isSome = true ∧ w.sup 5 = none ∧
      ¬ State.UnmapsExactly none (r.sys.current true) w ∧
      (r.sys.current true).supRemoveMap smallMachine 0 = .ok w' ∧
      ((r.sys.current true).sup 1).isSome = true ∧ w'.sup 1 = none ∧
      ¬ State.UnmapsExactly none (r.sys.current true) w' := by
  have heval : (Runs.exec (Record.step smallMachine smallElf) (fun _ _ => True)
      (.start smallSystem) [(true, .exec 0)]).map
        (fun r => (r.mappings true MAP_FAILED).isNone && (r.mappings true 0).isNone &&
          ((r.sys.current true).sup 5).isSome && ((r.sys.current true).sup 1).isSome &&
          ((r.sys.current true).supRemoveMap smallMachine MAP_FAILED).toOption.any
            (fun w => (w.sup 5).isNone) &&
          ((r.sys.current true).supRemoveMap smallMachine 0).toOption.any
            (fun w => (w.sup 1).isNone)) = some true := by decide +kernel
  obtain ⟨r, hr, he⟩ := map_eq_some_iff.mp heval
  simp only [Bool.and_eq_true, isNone_iff_eq_none, Option.any_eq_true] at he
  obtain ⟨⟨⟨⟨⟨hfld, hzero⟩, hstc⟩, hcode⟩, w, hw, hgone⟩, w', hw', hgone'⟩ := he
  have hno : ∀ {w p}, ((r.sys.current true).sup p).isSome = true → w.sup p = none →
      ¬ UnmapsExactly none (r.sys.current true) w := by
    intro w p hsome hnone hexc
    rw [← hexc.1, hnone] at hsome
    cases hsome
  exact ⟨r, w, w', reaches_of_exec hr, hfld, hzero, eq_ok_of_toOption hw, hstc, hgone,
    hno hstc hgone, eq_ok_of_toOption hw', hcode, hgone', hno hcode hgone'⟩

end Pintos.Vm
