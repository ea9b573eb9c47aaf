import Pintos.Vm.OpenFiles
import Pintos.Vm.Steps

/-! # Running executables

`load` denies writing to the executable, and `process_exit` closes it, after `sup_free_table` has
written back the pages of the data segments.

* **Owners.**  A thread refers to the file of its executable, to the files of its descriptors and to
  those of its pages.  All of them are open, nobody else refers to them, and exactly the executables
  deny writing (`Sound`).
* **Executables.**  Hence a step of any thread leaves the bytes of an executable alone, except that
  its own thread closes it in the end. -/

namespace Pintos.Vm
open Outcome Runs Function Option

/-- Where a thread refers to a `struct file`. -/
inductive Holder where
  | binary
  | des (d : FileDes)
  | page (p : ℕ)
deriving DecidableEq, Repr

def Thread.holds (th : Thread) : Holder → Option ℕ
  | .binary => th.binary
  | .des d => if d ∈ th.fds then some d.file else none
  | .page p => th.supFile p

namespace FileTable

variable {ft ft' ft₁ ft₂ : FileTable} {B : Set ℕ} {h : ℕ}

/-- The files `B` stay as they are, and so do the bytes to which they deny writing. -/
def Spares (B : Set ℕ) (ft ft' : FileTable) : Prop :=
  ∀ b ∈ B, ∀ f, ft.opened b = some f → f.denyWrite = true →
    ft'.opened b = some f ∧ ft'.contents f.inode = ft.contents f.inode

theorem Spares.refl (B : Set ℕ) (ft : FileTable) : Spares B ft ft := fun _ _ _ hf _ => ⟨hf, rfl⟩

theorem Spares.trans (h1 : Spares B ft ft₁) (h2 : Spares B ft₁ ft₂) : Spares B ft ft₂ := by
  intro b hb f hf hd
  obtain ⟨hf1, hc1⟩ := h1 b hb f hf hd
  obtain ⟨hf2, hc2⟩ := h2 b hb f hf1 hd
  exact ⟨hf2, hc2.trans hc1⟩

theorem Touches.spares (ht : Touches h ft ft') (hB : h ∉ B) : Spares B ft ft' := by
  intro b hb f hf hd
  have hne : b ≠ h := fun heq => hB (heq ▸ hb)
  exact ⟨(ht.others b hne).trans hf, ht.contents hne hf hd⟩

theorem Counted.setContents (hc : Counted ft) {contents : ℕ → List UInt8}
    (hsame : ∀ x, 0 < (ft.inodes x).denyWriteCnt → contents x = ft.contents x) (B : Set ℕ) :
    Counted { ft with contents } ∧ Spares B ft { ft with contents } := by
  refine ⟨⟨hc.fresh, hc.denyWriteCnt, hc.openCnt⟩, fun b _ f hf hd => ⟨hf, hsame _ ?_⟩⟩
  rw [hc.denyWriteCnt]
  exact hc.count_pos hf (by simp [hd])

end FileTable

namespace System
open FileTable

variable {T : Type} {m : Machine} {elf : List UInt8 → Option (List (Option Phdr))}
  {s s' : System T} {t t' : T} {th : Thread} {H : T × Holder → Option ℕ} {ft ft' : FileTable}

/-- The file that a thread refers to in some place. -/
def holds (s : System T) (k : T × Holder) : Option ℕ := (s.threads k.1).bind fun th => th.holds k.2

/-- Only the file of an executable denies writing. -/
def denies (k : T × Holder) : Bool := k.2 == .binary

/-- The executables. -/
def binaries (H : T × Holder → Option ℕ) : Set ℕ := {b | ∃ t, H (t, .binary) = some b}

/-- The counters are right, and the files of all threads are open. -/
structure Sound (s : System T) : Prop where
  counted : s.ft.Counted
  owned : Owned denies s.holds s.ft
  nodup : ∀ {t th}, s.threads t = some th → th.fds.Nodup
  closed : ∀ {t th}, s.threads t = some th → th.phase = .binaryClosed → th.binary = none

/-- What a step leaves alone. -/
structure Keeps (s s' : System T) : Prop where
  sound : Sound s'
  spares : Spares (binaries s.holds) s.ft s'.ft
  binary : ∀ {t' b}, s.holds (t', .binary) = some b → s'.holds (t', .binary) = some b

theorem sound_start {s0 : System T} (h0 : ∀ t, s0.threads t = none)
    (hopn : ∀ h, s0.ft.opened h = none) (hdeny : ∀ x, (s0.ft.inodes x).denyWriteCnt = 0) :
    Sound s0 := by
  have hcou : ∀ P, s0.ft.count P = 0 := fun P => by simp [count, hopn]
  refine ⟨⟨fun h _ => hopn h, fun x => ?_, fun x => ?_⟩, ⟨fun hk => ?_, fun hk => ?_⟩, ?_, ?_⟩
  · rw [hdeny, deniers, hcou]
  · rw [openers, hcou]
    exact Nat.zero_le _
  · simp [holds, h0] at hk
  · simp [holds, h0] at hk
  · intro t th ht
    cases (h0 t).symm.trans ht
  · intro t th ht
    cases (h0 t).symm.trans ht

theorem not_mem_binaries (ho : Owned denies H ft) {k : T × Holder} {h : ℕ} (hk : H k = some h)
    (hne : k.2 ≠ .binary) : h ∉ binaries H := by
  rintro ⟨t, ht⟩
  exact hne (congrArg Prod.snd (ho.unique hk ht))

theorem Sound.next_not_held (hs : Sound s) {k : T × Holder} : s.holds k ≠ some s.ft.next := by
  intro hk
  obtain ⟨f, hf, -⟩ := hs.owned.opened hk
  exact absurd (hs.counted.lt_next hf) (lt_irrefl _)

theorem next_not_mem_binaries (hc : Counted ft) (ho : Owned denies H ft) :
    ft.next ∉ binaries H := by
  rintro ⟨t, ht⟩
  obtain ⟨f, hf, -⟩ := ho.opened ht
  exact absurd (hc.lt_next hf) (lt_irrefl _)

variable [DecidableEq T]

theorem Sound.update (hs : Sound s) (hote : ∀ t', t' ≠ t → s'.threads t' = s.threads t')
    (hself : ∀ th', s'.threads t = some th' →
      th'.fds.Nodup ∧ (th'.phase = .binaryClosed → th'.binary = none))
    (hc : Counted s'.ft) (ho : Owned denies s'.holds s'.ft) : Sound s' := by
  refine ⟨hc, ho, fun {t' th'} ht' => ?_, fun {t' th'} ht' => ?_⟩
  · by_cases heq : t' = t
    · exact (hself th' (heq ▸ ht')).1
    · exact hs.nodup ((hote t' heq).symm.trans ht')
  · by_cases heq : t' = t
    · exact (hself th' (heq ▸ ht')).2
    · exact hs.closed ((hote t' heq).symm.trans ht')

@[simp] theorem threads_setThread (s : System T) (t : T) (th : Thread) :
    (s.setThread t th).threads t = some th := update_self ..

theorem holds_setThread (s : System T) (t : T) (th : Thread) (k : T × Holder) :
    (s.setThread t th).holds k = if k.1 = t then th.holds k.2 else s.holds k := by
  simp only [holds, setThread, update_apply]
  split_ifs <;> rfl

section
variable {th' : Thread} {x : Holder} {h : ℕ} (hs : Sound s) (htch : Touches h s.ft ft')
  (hself : ∀ k, s.holds k = some h → k = (t, x))
  (hth : ∀ y i, th'.holds y = some i → s.holds (t, y) = some i ∧ y ≠ x ∨ y = x ∧ i = h)
  (hx : th'.holds x = some h → ∃ f, ft'.opened h = some f ∧ f.denyWrite = denies (t, x))
  (hndp : th'.fds.Nodup) (hphs : th'.phase = .binaryClosed → th'.binary = none)
include hs htch hself hth hx hndp hphs

/-- A call with a file that only the holder `x` of `t` may have, after which `t` refers in `x` to this
file or to none. -/
theorem Sound.touch (v : State) : Sound ((System.mk v ft' s.threads).setThread t th') := by
  refine hs.update (fun t' ht' => update_of_ne ht' ..) (fun th₁ hth₁ => ?_) htch.counted
    (hs.owned.touch (k := (t, x)) htch hself (fun k i hi => ?_) fun hk => hx ?_)
  · cases (threads_setThread ..).symm.trans hth₁
    exact ⟨hndp, hphs⟩
  · obtain ⟨t', y⟩ := k
    rw [holds_setThread] at hi
    split_ifs at hi with heq
    · cases heq
      rcases hth y i hi with ⟨hold, hne⟩ | ⟨rfl, rfl⟩
      · exact .inl ⟨hold, fun he => hne (congrArg Prod.snd he)⟩
      · exact .inr ⟨rfl, rfl⟩
    · exact .inl ⟨hi, fun he => heq (congrArg Prod.fst he)⟩
  · rw [← hk, holds_setThread, if_pos rfl]

/-- Such a call leaves the executables alone if the file is none. -/
theorem Sound.touch_keeps (hne : x ≠ .binary) (hbin : s.holds (t, .binary) = th'.binary) :
    Keeps s ((s.setFiles ft').setThread t th') := by
  refine ⟨hs.touch htch hself hth hx hndp hphs s.kernel, htch.spares ?_, fun {t' b} hb => ?_⟩
  · rintro ⟨t', ht'⟩
    exact hne (congrArg Prod.snd (hself _ ht')).symm
  · rw [holds_setThread]
    split_ifs with heq
    · cases heq
      exact hbin.symm.trans hb
    · exact hb

end

/-! ### Pages -/

/-- The files of the pages of `t` are `supFile`. -/
def withPages (H : T × Holder → Option ℕ) (t : T) (supFile : ℕ → Option ℕ) :
    T × Holder → Option ℕ
  | (t', .page p) => if t' = t then supFile p else H (t', .page p)
  | k => H k

theorem withPages_update (supFile : ℕ → Option ℕ) (p : ℕ) (o : Option ℕ) :
    withPages H t (update supFile p o) =
      update (withPages H t supFile) (t, .page p) o := by
  funext ⟨t', k⟩
  cases k with
  | page q =>
    by_cases ht : t' = t
    · subst ht
      by_cases hq : q = p
      · subst hq
        simp [withPages]
      · simp [withPages, hq]
    · simp [withPages, ht]
  | binary | des => simp [withPages]

theorem syncPage_spares (old new : ℕ → Option SupEntry) {supFile : ℕ → Option ℕ}
    (hc : Counted ft) (ho : Owned denies (withPages H t supFile) ft) (page : ℕ) :
    ∃ ft' supFile', syncPage old new (ft, supFile) page = some (ft', supFile') ∧ Counted ft' ∧
      Owned denies (withPages H t supFile') ft' ∧ Spares (binaries H) ft ft' := by
  have hskip : ∃ ft' supFile', some (ft, supFile) = some (ft', supFile') ∧ Counted ft' ∧
      Owned denies (withPages H t supFile') ft' ∧ Spares (binaries H) ft ft' :=
    ⟨ft, supFile, rfl, hc, ho, .refl _ ft⟩
  unfold syncPage
  cases hold : old page with
  | none =>
    cases hnew : new page with
    | none => exact hskip
    | some entry =>
      dsimp only
      cases entry.f with
      | none => exact hskip
      | some inode =>
        have ht := fileOpen_touches hc inode
        refine ⟨_, _, rfl, ht.counted, ?_, ht.spares (B := binaries (withPages H t supFile))
          (next_not_mem_binaries hc ho)⟩
        rw [withPages_update]
        exact ho.fileOpen hc rfl inode
  | some entry =>
    cases hnew : new page with
    | some entry' => exact hskip
    | none =>
      dsimp only
      cases hfile : supFile page with
      | none => exact hskip
      | some file =>
        have hk : withPages H t supFile (t, .page page) = some file := by
          rw [withPages, if_pos rfl, hfile]
        obtain ⟨f, hf, -⟩ := ho.opened hk
        obtain ⟨ft', hcls, ht⟩ := fileClose_touches hc hf
        refine ⟨ft', update supFile page none, ?_, ht.counted, ?_,
          ht.spares (not_mem_binaries ho hk nofun)⟩
        · simp [hcls]
        · rw [withPages_update]
          exact ho.close hk ht

theorem syncPages_spares (old new : ℕ → Option SupEntry) {supFile : ℕ → Option ℕ}
    (hc : Counted ft) (ho : Owned denies (withPages H t supFile) ft) (pages : List ℕ) :
    ∃ ft' supFile', pages.foldlM (syncPage old new) (ft, supFile) = some (ft', supFile') ∧
      Counted ft' ∧ Owned denies (withPages H t supFile') ft' ∧ Spares (binaries H) ft ft' := by
  induction pages generalizing ft supFile with
  | nil => exact ⟨ft, supFile, rfl, hc, ho, .refl _ ft⟩
  | cons page pages ih =>
    obtain ⟨ft₁, supFile1, hsync, hc1, ho1, hsp1⟩ := syncPage_spares old new hc ho page
    obtain ⟨ft₂, supFile2, hrest, hc2, ho2, hsp2⟩ := ih hc1 ho1
    refine ⟨ft₂, supFile2, ?_, hc2, ho2, hsp1.trans hsp2⟩
    rw [List.foldlM_cons, hsync]
    exact hrest

/-- A thread has run, and has changed no file to which writing is denied. -/
theorem commit_sound (hs : Sound (s.setThread t th)) {v : State}
    (hfls : ∀ x, 0 < (s.ft.inodes x).denyWriteCnt → v.files x = s.ft.contents x) :
    ∃ s', s.commit m t th v = some s' ∧ Sound s' ∧
      Spares (binaries (s.setThread t th).holds) s.ft s'.ft ∧
      ∀ t', s'.holds (t', .binary) = (s.setThread t th).holds (t', .binary) := by
  have hcot : Counted s.ft := hs.counted
  obtain ⟨hc, hsp⟩ := hcot.setContents hfls (binaries (s.setThread t th).holds)
  have hpgs : withPages (s.setThread t th).holds t th.supFile = (s.setThread t th).holds := by
    funext ⟨t', k⟩
    cases k with
    | page p =>
      rw [withPages, holds_setThread]
      split_ifs <;> rfl
    | binary | des => rfl
  have ho : Owned denies (withPages (s.setThread t th).holds t th.supFile)
      { s.ft with contents := v.files } := by
    rw [hpgs]
    exact ⟨hs.owned.opened, hs.owned.unique⟩
  obtain ⟨ft, supFile, hsync, hc', ho', hsp'⟩ :=
    syncPages_spares th.sup v.sup hc ho (List.range m.pages)
  have hhld : ∀ k, ((System.mk v ft s.threads).setThread t
      { th with toProcess := v.toProcess, supFile }).holds k =
        withPages (s.setThread t th).holds t supFile k := by
    rintro ⟨t', k⟩
    rw [holds_setThread]
    cases k with
    | page p =>
      rw [withPages, holds_setThread]
      split_ifs <;> rfl
    | binary | des =>
      rw [withPages, holds_setThread]
      · split_ifs <;> rfl
      · nofun
  have hself := threads_setThread s t th
  refine ⟨(System.mk v ft s.threads).setThread t
    { th with toProcess := v.toProcess, supFile }, ?_, ?_, hsp.trans hsp', fun t' => ?_⟩
  · simp [commit, hsync]
  · refine hs.update (t := t) (fun t' ht' => ?_) (fun th' hth' => ?_) hc' ?_
    · exact (update_of_ne ht' ..).trans (update_of_ne ht' ..).symm
    · cases (threads_setThread ..).symm.trans hth'
      exact ⟨(hs.nodup hself :), (hs.closed hself :)⟩
    · rw [show holds _ = _ from funext hhld]
      exact ho'
  · exact hhld (t', .binary)

theorem Sound.setPhase (hs : Sound s) (ht : s.threads t = some th) (phase : Phase)
    (hphs : phase ≠ .binaryClosed) : Sound (s.setThread t { th with phase }) ∧
      (s.setThread t { th with phase }).holds = s.holds := by
  have hhld : (s.setThread t { th with phase }).holds = s.holds := by
    funext ⟨t', k⟩
    rw [holds_setThread]
    split_ifs with heq
    · cases heq
      rw [holds, ht]
      rfl
    · rfl
  refine ⟨hs.update (fun t' ht' => update_of_ne ht' ..) (fun th' hth' => ?_) hs.counted ?_, hhld⟩
  · cases (threads_setThread ..).symm.trans hth'
    exact ⟨(hs.nodup ht :), fun hp => absurd hp hphs⟩
  · rw [hhld]
    exact hs.owned

theorem Sound.exit_keeps (hs : Sound s) (ht : s.threads t = some th) :
    Keeps s (s.setThread t { th with phase := .exiting }) := by
  obtain ⟨hsnd, hhld⟩ := hs.setPhase ht .exiting nofun
  exact ⟨hsnd, .refl _ _, fun hb => by rw [hhld, hb]⟩

theorem commit_keeps (hs : Sound s) (ht : s.threads t = some th) (phase : Phase)
    (hphs : phase ≠ .binaryClosed) {v : State}
    (hfls : ∀ x, 0 < (s.ft.inodes x).denyWriteCnt → v.files x = s.ft.contents x)
    (h : s.commit m t { th with phase } v = some s') : Keeps s s' := by
  obtain ⟨hs1, hhld⟩ := hs.setPhase ht _ hphs
  obtain ⟨s1, hcmt, hsnd, hsp, hbnr⟩ := commit_sound hs1 hfls
  cases mem_unique hcmt h
  rw [hhld] at hsp hbnr
  exact ⟨hsnd, hsp, fun hb => (hbnr _).trans hb⟩

theorem commitResult_eq_some {x : Except Stop (Bool × State)}
    (h : s.commitResult m t th x = some s') : ∃ alive v, x = .ok (alive, v) ∧
      s.commit m t (if alive then th else { th with phase := .exiting }) v = some s' := by
  cases x with
  | error e => cases h
  | ok x => exact ⟨x.1, x.2, rfl, h⟩

theorem commitResult_keeps (hs : Sound s) (ht : s.threads t = some th)
    (hphs : th.phase ≠ .binaryClosed) {x : Except Stop (Bool × State)} {user : Bool}
    (hev : Meets Any (fun x => State.Evolves m user (s.view th.toProcess) x.2) x)
    (h : s.commitResult m t th x = some s') : Keeps s s' := by
  obtain ⟨alive, v, rfl, hcmt⟩ := commitResult_eq_some h
  have hfls : ∀ y, 0 < (s.ft.inodes y).denyWriteCnt → v.files y = s.ft.contents y :=
    fun y hy => hev.files y (decide_eq_true hy)
  cases alive with
  | true => exact commit_keeps hs ht _ hphs hfls hcmt
  | false => exact commit_keeps hs ht .exiting nofun hfls hcmt

/-! ### Descriptors -/

section
variable (hs : Sound s) (ht : s.threads t = some th)
include hs ht

theorem use_keeps {d : FileDes} (hd : d ∈ th.fds) (call : FileTable → ℕ → Option FileTable)
    (hcall : ∀ {f}, s.ft.opened d.file = some f → ∃ ft' pos, call s.ft d.file = some ft' ∧
      Touches d.file s.ft ft' ∧ ft'.opened d.file = some { f with pos })
    (h : call s.ft d.file = some ft') : Keeps s ((s.setFiles ft').setThread t th) := by
  have hk : s.holds (t, .des d) = some d.file := by simp [holds, ht, Thread.holds, hd]
  obtain ⟨f, hf, -⟩ := hs.owned.opened hk
  obtain ⟨ft₁, pos, hft1, htch, hopn⟩ := hcall hf
  obtain rfl := mem_unique hft1 h
  obtain ⟨g, hg, hflag⟩ := hs.owned.opened hk
  cases mem_unique hf hg
  refine hs.touch_keeps htch (fun k hk' => hs.owned.unique hk' hk) (fun y i hy => ?_)
    (fun _ => ⟨_, hopn, hflag⟩) (hs.nodup ht) (hs.closed ht) nofun (by simp [holds, ht, Thread.holds])
  rw [← show s.holds (t, y) = th.holds y by rw [holds, ht, bind_some]] at hy
  by_cases hyd : y = .des d
  · exact .inr ⟨hyd, mem_unique hy (hyd ▸ hk)⟩
  · exact .inl ⟨hy, hyd⟩

theorem withFd_keeps {fd : ℕ} (call : FileTable → ℕ → Option FileTable)
    (hcall : ∀ {file f}, s.ft.opened file = some f → ∃ ft' pos, call s.ft file = some ft' ∧
      Touches file s.ft ft' ∧ ft'.opened file = some { f with pos })
    (h : s.withFd t th fd (fun d => do
      let ft ← call s.ft d.file
      some (ft, th.fds)) = some s') : Keeps s s' := by
  unfold withFd at h
  split at h
  · cases h
    exact hs.exit_keeps ht
  · rename_i d hd
    simp only [bind_eq_bind, bind_eq_some_iff, some.injEq, Prod.exists] at h
    obtain ⟨_, _, ⟨ft, hft, rfl, rfl⟩, rfl⟩ := h
    exact use_keeps hs ht (List.mem_of_find?_eq_some hd) call hcall hft

theorem close_keeps {d : FileDes} (hd : d ∈ th.fds) (h : s.ft.fileClose d.file = some ft') :
    Keeps s ((s.setFiles ft').setThread t { th with fds := th.fds.erase d }) := by
  have hk : s.holds (t, .des d) = some d.file := by simp [holds, ht, Thread.holds, hd]
  obtain ⟨f, hf, -⟩ := hs.owned.opened hk
  obtain ⟨ft₁, hft1, htch⟩ := fileClose_touches hs.counted hf
  cases mem_unique hft1 h
  have hndp := hs.nodup ht
  refine hs.touch_keeps htch (fun k hk' => hs.owned.unique hk' hk) (fun y i hy => ?_) (fun hx => ?_)
    (hndp.erase d) (hs.closed ht :) nofun (by simp [holds, ht, Thread.holds])
  · cases y with
    | binary | page => exact .inl ⟨by simpa [holds, ht, Thread.holds] using hy, nofun⟩
    | des d' =>
      simp only [Thread.holds, hndp.mem_erase_iff] at hy
      split_ifs at hy with hd'
      exact .inl ⟨by simp [holds, ht, Thread.holds, hd'.2, hy], by simpa using hd'.1⟩
  · simp [Thread.holds, hndp.mem_erase_iff] at hx

theorem open_keeps (fd inode : ℕ) : Keeps s ((s.setFiles (s.ft.fileOpen inode)).setThread t
      { th with fds := th.fds ++ [⟨fd, s.ft.next⟩] }) := by
  have htch := fileOpen_touches hs.counted inode
  have hlt : ∀ d ∈ th.fds, d.file < s.ft.next := by
    intro d hd
    obtain ⟨f, hf, -⟩ := hs.owned.opened (k := (t, .des d)) (h := d.file)
      (by simp [holds, ht, Thread.holds, hd])
    exact hs.counted.lt_next hf
  refine hs.touch_keeps (x := .des ⟨fd, s.ft.next⟩) htch (fun k hk => ?_) (fun y i hy => ?_)
    (fun _ => ⟨_, opened_fileOpen s.ft inode, rfl⟩) ?_ (hs.closed ht :) nofun
    (by simp [holds, ht, Thread.holds])
  · exact absurd hk hs.next_not_held
  · cases y with
    | binary | page => exact .inl ⟨by simpa [holds, ht, Thread.holds] using hy, nofun⟩
    | des d =>
      simp only [Thread.holds, List.mem_append, List.mem_singleton] at hy
      split_ifs at hy with hd
      cases hy
      rcases hd with hd | rfl
      · refine .inl ⟨by simp [holds, ht, Thread.holds, hd], fun he => ?_⟩
        exact absurd (hlt d hd) (by simp [Holder.des.inj he])
      · exact .inr ⟨rfl, rfl⟩
  · refine List.Nodup.append (hs.nodup ht) (List.nodup_singleton _) fun d hd hd' => ?_
    cases List.mem_singleton.mp hd'
    exact absurd (hlt _ hd) (lt_irrefl _)

end

/-! ### Exit -/

/-- All descriptors of `t` are closed. -/
theorem closeAll_spares (hc : Counted ft) (ho : Owned denies H ft) {fds : List FileDes}
    (hndp : fds.Nodup) (hfds : ∀ d ∈ fds, H (t, .des d) = some d.file) :
    ∃ ft', fds.foldlM (fun ft d => ft.fileClose d.file) ft = some ft' ∧ Counted ft' ∧
      Owned denies (fun k => if k.1 = t then none else H k) ft' ∧ Spares (binaries H) ft ft' := by
  induction fds generalizing ft H with
  | nil =>
    refine ⟨ft, rfl, hc, ho.forget fun k h hk => ?_, .refl _ ft⟩
    split_ifs at hk
    exact hk
  | cons d fds ih =>
    obtain ⟨hd, hndp⟩ := List.nodup_cons.mp hndp
    have hk := hfds d List.mem_cons_self
    obtain ⟨f, hf, -⟩ := ho.opened hk
    obtain ⟨ft₁, hcls, htch⟩ := fileClose_touches hc hf
    have hrest : ∀ d' ∈ fds, update H (t, .des d) none (t, .des d') = some d'.file := by
      intro d' hd'
      rw [update_of_ne]
      · exact hfds d' (List.mem_cons_of_mem d hd')
      · rintro ⟨⟩
        exact hd hd'
    obtain ⟨ft₂, hall, hc2, ho2, hsp2⟩ := ih htch.counted (ho.close hk htch) hndp hrest
    have hsp1 := htch.spares (not_mem_binaries ho hk nofun)
    refine ⟨ft₂, ?_, hc2, ho2.forget fun k h hk => ?_, hsp1.trans fun b hb => hsp2 b ?_⟩
    · rw [List.foldlM_cons, hcls]
      exact hall
    · split_ifs at hk ⊢ with ht
      rw [update_of_ne (by rintro rfl; exact ht rfl)]
      exact hk
    · obtain ⟨t', ht'⟩ := hb
      exact ⟨t', by rw [update_of_ne (by simp), ht']⟩

theorem closeFds_keeps (hs : Sound s) (ht : s.threads t = some th)
    (hphs : th.phase = .binaryClosed)
    (h : th.fds.foldlM (fun ft d => ft.fileClose d.file) s.ft = some ft') :
    Keeps s { s with ft := ft', threads := update s.threads t none } := by
  obtain ⟨ft₁, hall, hc, ho, hsp⟩ := closeAll_spares (t := t) hs.counted hs.owned (hs.nodup ht)
    fun d hd => by simp [holds, ht, Thread.holds, hd]
  obtain rfl := mem_unique hall h
  have hhld : holds { s with ft := ft₁, threads := update s.threads t none } =
      fun k => if k.1 = t then none else s.holds k := by
    funext k
    simp only [holds, update_apply]
    split_ifs <;> rfl
  refine ⟨hs.update (fun t' ht' => update_of_ne ht' ..) (fun th' hth' => ?_) hc ?_,
    hsp, fun {t' b} hb => ?_⟩
  · cases (update_self ..).symm.trans hth'
  · rw [hhld]
    exact ho
  · rw [hhld]
    dsimp only
    rw [if_neg, hb]
    rintro rfl
    rw [holds, ht] at hb
    cases (hs.closed ht hphs).symm.trans hb

/-- The executable of `t` is closed, and those of the other threads are not. -/
theorem processExit_sound (hs : Sound s) (ht : s.threads t = some th)
    (h : s.ft.closeBinary th.binary = some ft') {v : State} :
    Sound ((System.mk v ft' s.threads).setThread t
      { th with toProcess := .empty, binary := none, phase := .binaryClosed }) ∧
      Spares {b | ∃ t', t' ≠ t ∧ s.holds (t', .binary) = some b} s.ft ft' := by
  obtain ⟨b, htch, hself⟩ : ∃ b, Touches b s.ft ft' ∧ ∀ k, s.holds k = some b → k = (t, .binary) := by
    cases hbnr : th.binary with
    | none =>
      rw [hbnr, closeBinary, some.injEq] at h
      subst h
      refine ⟨s.ft.next, ⟨hs.counted, fun _ _ => rfl, fun _ _ _ => rfl⟩, fun k hk => ?_⟩
      exact absurd hk hs.next_not_held
    | some b =>
      have hk : s.holds (t, .binary) = some b := by simp [holds, ht, Thread.holds, hbnr]
      obtain ⟨f, hf, -⟩ := hs.owned.opened hk
      obtain ⟨ft₁, hcls, htch⟩ := fileClose_touches hs.counted hf
      rw [hbnr, closeBinary, hcls, some.injEq] at h
      subst h
      exact ⟨b, htch, fun k hk' => hs.owned.unique hk' hk⟩
  refine ⟨hs.touch htch hself (fun y i hy => ?_) (fun hx => ?_) ?_ (fun _ => rfl) v,
    htch.spares ?_⟩
  · cases y with
    | binary => cases hy
    | des | page => exact .inl ⟨by simpa [holds, ht, Thread.holds] using hy, nofun⟩
  · cases hx
  · exact (hs.nodup ht :)
  · rintro ⟨t', hne, ht'⟩
    exact hne (congrArg Prod.fst (hself _ ht'))

/-! ### Loading -/

/-- The thread runs the executable with this inode, and has not closed it. -/
def Running (s : System T) (t : T) (x : ℕ) : Prop :=
  ∃ b f, s.holds (t, .binary) = some b ∧ s.ft.opened b = some f ∧ f.inode = x ∧ f.denyWrite = true

/-- The executable has been opened, and writing to it is denied. -/
theorem exec_sound (hs : Sound s) {inode : ℕ} {phase : Phase}
    (hphs : phase ≠ .binaryClosed)
    (h : (s.ft.fileOpen inode).fileDenyWrite s.ft.next = some ft') :
    Sound ((s.setFiles ft').setThread t (newThread (some s.ft.next) phase)) ∧
      Spares (binaries s.holds) s.ft ft' ∧ ft'.opened s.ft.next = some ⟨inode, 0, true⟩ ∧
      ft'.contents = s.ft.contents := by
  have hopen := fileOpen_touches hs.counted inode
  obtain ⟨ft₁, hdeny, htch, hopn, hcon⟩ :=
    fileDenyWrite_touches hopen.counted (opened_fileOpen s.ft inode) rfl
  cases mem_unique hdeny h
  have hboth := hopen.trans htch
  refine ⟨hs.touch (x := .binary) hboth (fun k hk => absurd hk hs.next_not_held) (fun y i hy => ?_)
    (fun _ => ⟨_, hopn, rfl⟩) List.nodup_nil (fun hp => absurd hp hphs) s.kernel,
    hboth.spares (next_not_mem_binaries hs.counted hs.owned), hopn, hcon⟩
  cases y with
  | binary => exact .inr ⟨rfl, (some.inj hy).symm⟩
  | des d => simp [Thread.holds, newThread] at hy
  | page => cases hy

theorem exec_keeps (hs : Sound s) (ht : s.threads t = none) {inode : ℕ}
    (h : s.exec m elf t inode = some s') : Keeps s s' ∧
      ((elf (s.ft.contents inode)).isSome = true →
        Running s' t inode ∧ s'.ft.contents inode = s.ft.contents inode) := by
  have hnone : ∀ {k}, s.holds (t, k) = none := by simp [holds, ht]
  unfold exec at h
  cases helf : elf (s.ft.contents inode) with
  | none =>
    simp only [helf, some.injEq] at h
    subst h
    have htch := fileOpen_touches hs.counted inode
    refine ⟨hs.touch_keeps (x := .page 0) htch (fun k hk => absurd hk hs.next_not_held)
      (fun y i hy => ?_) nofun List.nodup_nil nofun nofun hnone, nofun⟩
    cases y <;> simp [Thread.holds, newThread] at hy
  | some phdrs =>
    simp only [helf, bind_eq_bind, bind_eq_some_iff] at h
    obtain ⟨ft, hft, h⟩ := h
    obtain ⟨alive, v, hload, hcmt⟩ := commitResult_eq_some h
    have hfls : ∀ x, 0 < (ft.inodes x).denyWriteCnt → v.files x = ft.contents x := by
      obtain ⟨w, P, hmaps, -, hgoes⟩ := (State.load_maps m _ inode phdrs).of_eq_ok hload
      have hev := hmaps.evolves.trans hgoes.evolves
      exact fun x hx => hev.files x (decide_eq_true hx)
    obtain ⟨phase, hphs, htha⟩ : ∃ phase, phase ≠ Phase.binaryClosed ∧
        (if alive = true then newThread (some s.ft.next) .running
          else { newThread (some s.ft.next) .running with phase := .exiting }) =
        newThread (some s.ft.next) phase := by
      cases alive
      · exact ⟨.exiting, nofun, rfl⟩
      · exact ⟨.running, nofun, rfl⟩
    rw [htha] at hcmt
    obtain ⟨hs1, hsp, hopn, hcon⟩ := exec_sound hs hphs hft
    obtain ⟨s1, hs1', hsnd, hsp', hbnr⟩ := commit_sound hs1 hfls
    cases mem_unique hs1' hcmt
    have hself : ((s.setFiles ft).setThread t (newThread (some s.ft.next) phase)).holds
        (t, .binary) = some s.ft.next := by
      rw [holds_setThread, if_pos rfl]
      rfl
    have hold : ∀ {t' b}, s.holds (t', .binary) = some b →
        ((s.setFiles ft).setThread t (newThread (some s.ft.next) phase)).holds (t', .binary) =
          some b := by
      intro t' b hb
      rw [holds_setThread, if_neg]
      · exact hb
      · rintro rfl
        cases hnone.symm.trans hb
    refine ⟨⟨hsnd, hsp.trans fun b hb => hsp' b ?_, fun hb => (hbnr _).trans (hold hb)⟩,
      fun _ => ?_⟩
    · obtain ⟨t', ht'⟩ := hb
      exact ⟨t', hold ht'⟩
    · obtain ⟨hopn', hcon'⟩ := hsp' _ ⟨t, hself⟩ _ hopn rfl
      refine ⟨⟨_, _, (hbnr t).trans hself, hopn', rfl, rfl⟩, hcon'.trans ?_⟩
      exact congrFun hcon inode

/-! ### Runs -/

/-- A step leaves the executables alone, except that its own thread closes it. -/
theorem step_keeps {a : Action} (hs : Sound s) (h : s.step m elf (t, a) = some s') : Sound s' ∧
    ∀ t', (t, a) ≠ (t', .processExit) → ∀ b, s.holds (t', .binary) = some b →
      s'.holds (t', .binary) = some b ∧ Spares {b} s.ft s'.ft := by
  have hkps : Keeps s s' → Sound s' ∧ ∀ t', (t, a) ≠ (t', .processExit) → ∀ b,
      s.holds (t', .binary) = some b → s'.holds (t', .binary) = some b ∧ Spares {b} s.ft s'.ft := by
    refine fun hk => ⟨hk.sound, fun t' _ b hb => ⟨hk.binary hb, ?_⟩⟩
    rintro _ rfl
    exact hk.spares _ ⟨t', hb⟩
  unfold step at h
  cases ht : s.threads t with
  | none =>
    rw [ht] at h
    cases a with
    | exec inode => exact hkps (exec_keeps hs ht h).1
    | _ => cases h
  | some th =>
    rw [ht] at h
    simp only [ite_none_right_eq_some] at h
    obtain ⟨hen, h⟩ := h
    cases a with
    | exec inode => cases h
    | run op =>
      have hphs : th.phase ≠ .binaryClosed := by
        intro hp
        cases op <;> simp [enabled, hp] at hen
      exact hkps (commitResult_keeps hs ht hphs (State.step_evolves m _ op) h)
    | kernelFault esp faultAddr write =>
      have hphs : th.phase ≠ .binaryClosed := fun hp => by simp [enabled, hp] at hen
      exact hkps (commitResult_keeps hs ht hphs
        ((State.pageFault_goes m _ esp faultAddr false write).mono fun _ hx => hx.evolves) h)
    | openFile inode =>
      cases h
      exact hkps (open_keeps hs ht _ inode)
    | closeFile fd =>
      simp only [threadStep, withFd] at h
      split at h
      · cases h
        exact hkps (hs.exit_keeps ht)
      · rename_i d hd
        simp only [bind_eq_bind, bind_eq_some_iff, some.injEq, Prod.exists] at h
        obtain ⟨_, _, ⟨ft, hft, rfl, rfl⟩, rfl⟩ := h
        exact hkps (close_keeps hs ht (List.mem_of_find?_eq_some hd) hft)
    | readFile fd size =>
      exact hkps (withFd_keeps hs ht (fun ft file => ft.fileRead file size)
        (fun hf => fileRead_touches hs.counted hf size) h)
    | writeFile fd bytes =>
      exact hkps (withFd_keeps hs ht (fun ft file => ft.fileWrite file bytes)
        (fun hf => fileWrite_touches hs.counted hf bytes) h)
    | seekFile fd pos =>
      exact hkps (withFd_keeps hs ht (fun ft file => ft.fileSeek file pos)
        (fun hf => (fileSeek_touches hs.counted hf pos).imp fun _ hft => ⟨pos, hft⟩) h)
    | removeFile inode =>
      cases h
      obtain ⟨hc, hopn, hcon⟩ := filesysRemove_counted hs.counted inode
      have hlt : ∀ {k b}, s.holds k = some b → b < s.ft.next := fun hb => by
        obtain ⟨f, hf, -⟩ := hs.owned.opened hb
        exact hs.counted.lt_next hf
      refine hkps ⟨⟨hc, ⟨fun {k b} hb => ?_, hs.owned.unique⟩, hs.nodup, hs.closed⟩, ?_, id⟩
      · obtain ⟨f, hf, hd⟩ := hs.owned.opened hb
        exact ⟨f, (hopn b (hlt hb)).trans hf, hd⟩
      · rintro b ⟨t', hb⟩ f hf -
        exact ⟨(hopn b (hlt hb)).trans hf, congrFun hcon _⟩
    | exit =>
      cases h
      exact hkps (hs.exit_keeps ht)
    | supFreeTable =>
      simp only [threadStep, bind_eq_bind, bind_eq_some_iff] at h
      obtain ⟨v, hv, h⟩ := h
      have hev := ((State.unmapPages_drops m _ _ fun _ => rfl).of_eq_ok (eq_ok_of_toOption hv)).1
      exact hkps (commit_keeps hs ht .tableFreed (by simp)
        (fun x hx => hev.files x (decide_eq_true hx)) h)
    | processExit =>
      simp only [threadStep, bind_eq_bind, bind_eq_some_iff, some.injEq] at h
      obtain ⟨v, -, ft, hft, rfl⟩ := h
      obtain ⟨hsnd, hsp⟩ := processExit_sound hs ht hft
      refine ⟨hsnd, fun t' hne b hb => ?_⟩
      have ht' : t' ≠ t := by
        rintro rfl
        exact hne rfl
      refine ⟨by rw [holds_setThread, if_neg ht']; exact hb, ?_⟩
      rintro _ rfl
      exact hsp _ ⟨t', ht', hb⟩
    | closeFds =>
      simp only [threadStep, bind_eq_bind, bind_eq_some_iff, some.injEq] at h
      obtain ⟨ft, hft, rfl⟩ := h
      have hphs : th.phase = .binaryClosed := by simpa [enabled] using hen
      exact hkps (closeFds_keeps hs ht hphs hft)

/-- **A running executable is never modified.**  In every state that is reached from one without
threads and open files, `deny_write_cnt` is the number of open files that deny writing, and at most
`open_cnt`.  From the `file_deny_write` in `load` until its own thread closes it in `process_exit`,
no step of any thread changes the executable. -/
theorem running_executable_unchanged (m : Machine) (elf : List UInt8 → Option (List (Option Phdr)))
    (s₀ : System T) (h₀ : ∀ t, s₀.threads t = none) (hopened : ∀ h, s₀.ft.opened h = none)
    (hdeny : ∀ x, (s₀.ft.inodes x).denyWriteCnt = 0) (s : System T)
    (h : Reaches (step m elf) (fun _ _ => True) s₀ s) :
    (∀ x, (s.ft.inodes x).denyWriteCnt = s.ft.deniers x ∧
      (s.ft.inodes x).denyWriteCnt ≤ (s.ft.inodes x).openCnt) ∧
    (∀ t x s₁, s.step m elf (t, .exec x) = some s₁ → (elf (s.ft.contents x)).isSome = true →
      Running s₁ t x ∧ s₁.ft.contents x = s.ft.contents x) ∧
    (∀ t x, Running s t x → ∀ s', Reaches (step m elf) (fun _ a => a ≠ (t, .processExit)) s s' →
      Running s' t x ∧ s'.ft.contents x = s.ft.contents x) := by
  have hs : Sound s := h.invariant (P := Sound) (sound_start h₀ hopened hdeny)
    fun _ _ _ hs _ hstep => (step_keeps hs hstep).1
  refine ⟨fun x => ⟨hs.counted.denyWriteCnt x, hs.counted.denyWriteCnt_le x⟩, ?_, ?_⟩
  · intro t x s₁ hstep helf
    cases ht : s.threads t with
    | none =>
      simp only [step, ht] at hstep
      exact (exec_keeps hs ht hstep).2 helf
    | some th => simp [step, ht, enabled] at hstep
  · rintro t x hrun s' hs'
    have hall : Sound s' ∧ Running s' t x ∧ s'.ft.contents x = s.ft.contents x := by
      refine hs'.invariant (P := fun s' => Sound s' ∧ Running s' t x ∧
        s'.ft.contents x = s.ft.contents x) ⟨hs, hrun, rfl⟩ ?_
      rintro s₁ ⟨t1, a⟩ s2 ⟨hs1, ⟨b, f, hb, hf, hx, hd⟩, hsame⟩ hne hstep
      obtain ⟨hs2, hkeep⟩ := step_keeps hs1 hstep
      obtain ⟨hb2, hsp⟩ := hkeep t hne b hb
      obtain ⟨hf2, hcon⟩ := hsp b rfl f hf hd
      refine ⟨hs2, ⟨b, f, hb2, hf2, hx, hd⟩, ?_⟩
      rw [← hx, hcon, hx, hsame]
    exact hall.2

/-- Two processes run the same executable; the second one opens it and writes to it. -/
theorem running_executable_unchanged_write : ∃ s s' : System Bool,
    Reaches (step smallMachine smallElf) (fun _ _ => True) smallSystem s ∧ Running s true 0 ∧
      Reaches (step smallMachine smallElf) (fun _ a => a ≠ (true, .processExit)) s s' ∧
      (s'.ft.inodes 0).denyWriteCnt = 2 ∧ s'.ft.contents 0 = s.ft.contents 0 := by
  have heval : (Runs.exec (step smallMachine smallElf) (fun _ _ => True) smallSystem
      [(true, .exec 0)]).any (fun s =>
        (s.holds (true, .binary)).any (fun b =>
          (s.ft.opened b).any fun f => f.inode == 0 && f.denyWrite) &&
        (Runs.exec (step smallMachine smallElf) (fun _ a => a ≠ (true, .processExit)) s
          [(false, .exec 0), (false, .openFile 0), (false, .writeFile 2 [7]),
            (true, .run (.write 0 4096 7)), (true, .exit), (true, .supFreeTable)]).any fun s' =>
              (s'.ft.inodes 0).denyWriteCnt == 2) = true := by decide +kernel
  simp only [Option.any_eq_true, Bool.and_eq_true, beq_iff_eq] at heval
  obtain ⟨s, hs, ⟨b, hb, f, hf, hino, hd⟩, s', hs', hcnt⟩ := heval
  have hrch := reaches_of_exec hs
  have hrun : Running s true 0 := ⟨b, f, hb, hf, hino, hd⟩
  have hrch' := reaches_of_exec hs'
  exact ⟨s, s', hrch, hrun, hrch', hcnt,
    ((running_executable_unchanged smallMachine smallElf smallSystem (fun _ => rfl) (fun _ => rfl)
      (fun _ => rfl) s hrch).2.2 true 0 hrun s' hrch').2⟩

end System

end Pintos.Vm
