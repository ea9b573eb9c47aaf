import Mathlib.Algebra.Order.BigOperators.Group.Finset
import Pintos.Vm.System

/-! # Counting open files

The counters of an inode and the files that refer to it.

* **Counters.**  `deny_write_cnt` is the number of open files that deny writing, and `open_cnt` is at
  least the number of open files (`Counted`).  It can be larger, because some files are never closed.
* **Calls.**  A call concerns one file.  It returns if this file is open, keeps the counters right
  and leaves the bytes of an inode alone to which another file denies writing (`Touches`).
* **Owners.**  A `struct file` that a thread refers to is open, and nobody else refers to it
  (`Owned`). -/

namespace Pintos.Vm
open Bytes Function Option Finset

namespace FileTable

variable {ft ft' ft₁ ft₂ : FileTable} {h b x : ℕ} {f : File} {P : File → Bool}

/-! ### Counters -/

/-- 1 if there is a file with the property. -/
def tally (P : File → Bool) (o : Option File) : ℕ := if o.any P then 1 else 0

/-- The number of open files with a property. -/
def count (ft : FileTable) (P : File → Bool) : ℕ := ∑ h ∈ Finset.range ft.next, tally P (ft.opened h)

/-- The number of open files that refer to the inode. -/
def openers (ft : FileTable) (x : ℕ) : ℕ := ft.count fun f => f.inode == x

/-- The number of those that deny writing. -/
def deniers (ft : FileTable) (x : ℕ) : ℕ := ft.count fun f => f.inode == x && f.denyWrite

/-- The counters of the inodes are right. -/
structure Counted (ft : FileTable) : Prop where
  fresh : ∀ h, ft.next ≤ h → ft.opened h = none
  denyWriteCnt : ∀ x, (ft.inodes x).denyWriteCnt = ft.deniers x
  openCnt : ∀ x, ft.openers x ≤ (ft.inodes x).openCnt

theorem Counted.lt_next (hc : Counted ft) (hf : ft.opened h = some f) : h < ft.next := by
  by_contra hle
  cases (hc.fresh h (not_lt.mp hle)).symm.trans hf

@[simp] theorem tally_some (P : File → Bool) (f : File) :
    tally P (some f) = if P f then 1 else 0 := rfl

@[simp] theorem tally_none (P : File → Bool) : tally P none = 0 := rfl

theorem deniers_le_openers (ft : FileTable) (x : ℕ) : ft.deniers x ≤ ft.openers x := by
  unfold deniers
  refine sum_le_sum fun h _ => ?_
  cases ft.opened h with
  | none => exact le_rfl
  | some f =>
    simp only [tally_some, Bool.and_eq_true]
    split_ifs with hboth hino
    · exact le_rfl
    · exact absurd hboth.1 hino
    · exact Nat.zero_le _
    · exact le_rfl

theorem Counted.denyWriteCnt_le (hc : Counted ft) (x : ℕ) :
    (ft.inodes x).denyWriteCnt ≤ (ft.inodes x).openCnt :=
  (hc.denyWriteCnt x).trans_le ((ft.deniers_le_openers x).trans (hc.openCnt x))

theorem count_update (P : File → Bool) (o : Option File) (hlt : h < ft.next)
    (hopn : ft'.opened = update ft.opened h o) (hnext : ft'.next = ft.next) :
    ft'.count P + tally P (ft.opened h) = ft.count P + tally P o := by
  have hmem := mem_range.mpr hlt
  have hrest : ∑ i ∈ (range ft.next).erase h, tally P (ft'.opened i) =
      ∑ i ∈ (range ft.next).erase h, tally P (ft.opened i) := by
    refine sum_congr rfl fun i hi => ?_
    rw [hopn, update_of_ne (ne_of_mem_erase hi)]
  rw [count, count, hnext, ← add_sum_erase _ _ hmem,
    ← add_sum_erase _ (fun i => tally P (ft.opened i)) hmem, hrest, hopn,
    update_self]
  omega

theorem Counted.count_pos (hc : Counted ft) (hf : ft.opened h = some f) (hP : P f = true) :
    0 < ft.count P := by
  refine sum_pos' (fun _ _ => Nat.zero_le _) ⟨h, mem_range.mpr (hc.lt_next hf), ?_⟩
  rw [hf, tally_some, if_pos hP]
  exact Nat.one_pos

theorem Counted.deniers_lt_openers (hc : Counted ft) (hf : ft.opened h = some f)
    (hno : f.denyWrite = false) : ft.deniers f.inode < ft.openers f.inode := by
  let without : FileTable := { ft with opened := update ft.opened h none }
  have hdeny : without.deniers f.inode + _ = ft.deniers f.inode + _ :=
    count_update _ none (hc.lt_next hf) rfl rfl
  have hopen : without.openers f.inode + _ = ft.openers f.inode + _ :=
    count_update _ none (hc.lt_next hf) rfl rfl
  rw [hf, tally_some, hno, Bool.and_false] at hdeny
  rw [hf, tally_some, tally_none, beq_self_eq_true, if_pos rfl] at hopen
  have hle := without.deniers_le_openers f.inode
  simp only [Bool.false_eq_true, if_false] at hdeny hopen
  omega

/-! ### Calls -/

/-- A call that concerns the file `h` only. -/
structure Touches (h : ℕ) (ft ft' : FileTable) : Prop where
  counted : Counted ft'
  others : ∀ b, b ≠ h → ft'.opened b = ft.opened b
  contents : ∀ {b f}, b ≠ h → ft.opened b = some f → f.denyWrite = true →
    ft'.contents f.inode = ft.contents f.inode

theorem Touches.trans (h1 : Touches h ft ft₁) (h2 : Touches h ft₁ ft₂) : Touches h ft ft₂ where
  counted := h2.counted
  others b hb := (h2.others b hb).trans (h1.others b hb)
  contents hb hf hd :=
    (h2.contents hb ((h1.others _ hb).trans hf) hd).trans (h1.contents hb hf hd)

theorem fileOpen_touches (hc : Counted ft) (x : ℕ) : Touches ft.next ft (ft.fileOpen x) := by
  have hcou : ∀ P, (ft.fileOpen x).count P = ft.count P + tally P (some ⟨x, 0, false⟩) := by
    intro P
    refine (sum_range_succ _ ft.next).trans ?_
    refine congrArg₂ (· + ·) (sum_congr rfl fun i hi => ?_) ?_
    · exact congrArg _ (update_of_ne (mem_range.mp hi).ne ..)
    · exact congrArg _ (update_self ..)
  refine ⟨⟨fun i hi => ?_, fun y => ?_, fun y => ?_⟩, fun b hb => update_of_ne hb ..,
    fun _ _ _ => rfl⟩
  · exact (update_of_ne (Nat.ne_of_gt hi) ..).trans (hc.fresh i (le_of_lt hi))
  · rw [deniers, hcou]
    simp only [fileOpen, tally_some, Bool.and_false, Bool.false_eq_true, if_false]
    rw [update_apply]
    split_ifs with hy
    · rw [hy]
      exact hc.denyWriteCnt x
    · exact hc.denyWriteCnt y
  · rw [openers, hcou]
    simp only [fileOpen, tally_some, beq_iff_eq]
    rw [update_apply]
    have hle := hc.openCnt y
    split_ifs with hxy hyx hyx
    · subst hxy
      exact Nat.add_le_add_right hle 1
    · exact absurd hxy.symm hyx
    · exact absurd hyx.symm hxy
    · exact hle

theorem opened_fileOpen (ft : FileTable) (x : ℕ) :
    (ft.fileOpen x).opened ft.next = some ⟨x, 0, false⟩ := update_self ..

section
variable (hc : Counted ft) (hf : ft.opened h = some f)
include hc hf

/-- The position of a file changes, and perhaps the bytes of its inode if nobody denies it. -/
theorem touches_of_pos (pos : ℕ)
    (hopn : ft'.opened = update ft.opened h (some { f with pos }))
    (hnext : ft'.next = ft.next) (hine : ft'.inodes = ft.inodes)
    (hcon : ∀ x, 0 < (ft.inodes x).denyWriteCnt → ft'.contents x = ft.contents x) :
    Touches h ft ft' := by
  have hcou : ∀ P : File → Bool, (∀ f pos, P { f with pos } = P f) →
      ft'.count P = ft.count P := by
    intro P hP
    have hupd := count_update P (some { f with pos }) (hc.lt_next hf) hopn hnext
    have hsame := hP f pos
    rw [hf, tally_some, tally_some, hsame] at hupd
    exact Nat.add_right_cancel hupd
  refine ⟨⟨fun i hi => ?_, fun y => ?_, fun y => ?_⟩, fun b hb => ?_, fun hb hfb hd => ?_⟩
  · rw [hnext] at hi
    rw [hopn, update_of_ne ((hc.lt_next hf).trans_le hi).ne', hc.fresh i hi]
  · rw [hine, deniers, hcou _ fun _ _ => rfl]
    exact hc.denyWriteCnt y
  · rw [hine, openers, hcou _ fun _ _ => rfl]
    exact hc.openCnt y
  · rw [hopn, update_of_ne hb]
  · refine hcon _ ?_
    rw [hc.denyWriteCnt]
    exact hc.count_pos hfb (by simp [hd])

theorem fileRead_touches (size : ℕ) : ∃ ft' pos, ft.fileRead h size = some ft' ∧ Touches h ft ft' ∧
      ft'.opened h = some { f with pos } := by
  refine ⟨_, _, by simp only [fileRead, hf]; rfl, ?_, update_self ..⟩
  exact touches_of_pos hc hf _ rfl rfl rfl fun _ _ => rfl

theorem fileSeek_touches (pos : ℕ) : ∃ ft', ft.fileSeek h pos = some ft' ∧ Touches h ft ft' ∧
      ft'.opened h = some { f with pos } := by
  refine ⟨_, by simp only [fileSeek, hf]; rfl, ?_, update_self ..⟩
  exact touches_of_pos hc hf _ rfl rfl rfl fun _ _ => rfl

theorem fileWrite_touches (bytes : List UInt8) :
    ∃ ft' pos, ft.fileWrite h bytes = some ft' ∧ Touches h ft ft' ∧
      ft'.opened h = some { f with pos } := by
  simp only [fileWrite, hf, bind_eq_bind, bind_some]
  split_ifs with hdeny
  · exact ⟨ft, f.pos, rfl, ⟨hc, fun _ _ => rfl, fun _ _ _ => rfl⟩, hf⟩
  · refine ⟨_, _, rfl, touches_of_pos hc hf _ rfl rfl rfl fun x hx => ?_, update_self ..⟩
    refine update_of_ne ?_ ..
    rintro rfl
    exact hdeny hx

/-- The flag of a file changes together with the counter of its inode. -/
theorem touches_of_flag (flag : Bool) (hcnt : cnt + (if f.denyWrite then 1 else 0) =
      (ft.inodes f.inode).denyWriteCnt + if flag then 1 else 0)
    (hopn : ft'.opened = update ft.opened h (some { f with denyWrite := flag }))
    (hnext : ft'.next = ft.next) (hine : ft'.inodes = update ft.inodes f.inode
      { ft.inodes f.inode with denyWriteCnt := cnt }) (hcon : ft'.contents = ft.contents) :
    Touches h ft ft' := by
  have hcou : ∀ P, ft'.count P + tally P (some f) =
      ft.count P + tally P (some { f with denyWrite := flag }) := fun P => by
    rw [← hf]
    exact count_update P _ (hc.lt_next hf) hopn hnext
  refine ⟨⟨fun i hi => ?_, fun y => ?_, fun y => ?_⟩, fun b hb => ?_, fun _ _ _ => ?_⟩
  · rw [hnext] at hi
    rw [hopn, update_of_ne ((hc.lt_next hf).trans_le hi).ne', hc.fresh i hi]
  · have hdeny := hc.denyWriteCnt y
    have hy := hcou fun f => f.inode == y && f.denyWrite
    simp only [tally_some, Bool.and_eq_true, beq_iff_eq] at hy
    rw [hine, update_apply, deniers]
    rw [deniers] at hdeny
    split_ifs with hyf
    · subst hyf
      simp only [true_and] at hy
      dsimp only
      omega
    · simp only [Ne.symm hyf, false_and] at hy
      omega
  · have hopen := hc.openCnt y
    have hy := hcou fun f => f.inode == y
    simp only [tally_some] at hy
    rw [hine, update_apply, openers]
    rw [openers] at hopen
    split_ifs with hyf
    · subst hyf
      dsimp only
      omega
    · omega
  · rw [hopn, update_of_ne hb]
  · rw [hcon]

theorem fileDenyWrite_touches
    (hno : f.denyWrite = false) : ∃ ft', ft.fileDenyWrite h = some ft' ∧ Touches h ft ft' ∧
      ft'.opened h = some { f with denyWrite := true } ∧ ft'.contents = ft.contents := by
  have hlt := hc.deniers_lt_openers hf hno
  have hchc : (ft.inodes f.inode).denyWriteCnt + 1 ≤ (ft.inodes f.inode).openCnt := by
    rw [hc.denyWriteCnt]
    exact hlt.trans_le (hc.openCnt _)
  have hcall : ft.fileDenyWrite h = some { ft with
      opened := update ft.opened h (some { f with denyWrite := true })
      inodes := update ft.inodes f.inode { ft.inodes f.inode with
        denyWriteCnt := (ft.inodes f.inode).denyWriteCnt + 1 } } := by
    simp only [fileDenyWrite, hf, bind_eq_bind, bind_some, hno, Bool.false_eq_true,
      if_false, inodeDenyWrite, if_pos hchc]
  refine ⟨_, hcall, touches_of_flag hc hf true ?_ rfl rfl rfl rfl, update_self .., rfl⟩
  simp [hno]

theorem fileAllowWrite_touches : ∃ ft', ft.fileAllowWrite h = some ft' ∧ Touches h ft ft' ∧
      ft'.opened h = some { f with denyWrite := false } := by
  cases hflag : f.denyWrite with
  | false =>
    refine ⟨ft, ?_, ⟨hc, fun _ _ => rfl, fun _ _ _ => rfl⟩, ?_⟩
    · simp [fileAllowWrite, hf, hflag]
    · rw [hf, ← hflag]
  | true =>
    have hpos : 0 < (ft.inodes f.inode).denyWriteCnt := by
      rw [hc.denyWriteCnt]
      exact hc.count_pos hf (by simp [hflag])
    have hcall : ft.fileAllowWrite h = some { ft with
        opened := update ft.opened h (some { f with denyWrite := false })
        inodes := update ft.inodes f.inode { ft.inodes f.inode with
          denyWriteCnt := (ft.inodes f.inode).denyWriteCnt - 1 } } := by
      simp [fileAllowWrite, hf, hflag,
        inodeAllowWrite, if_pos (And.intro hpos (hc.denyWriteCnt_le f.inode))]
    refine ⟨_, hcall, touches_of_flag hc hf false ?_ rfl rfl rfl rfl, update_self ..⟩
    simp only [hflag, if_true, Bool.false_eq_true, if_false]
    omega

/-- A file is closed that does not deny writing. -/
theorem touches_of_close (hno : f.denyWrite = false) (hdeny : ft.deniers f.inode = i.denyWriteCnt)
    (hopen : ft.openers f.inode ≤ i.openCnt + 1) (hopn : ft'.opened = update ft.opened h none)
    (hnext : ft'.next = ft.next) (hine : ft'.inodes = update ft.inodes f.inode i)
    (hcon : ∀ x, (x = f.inode → 2 ≤ ft.openers x) → ft'.contents x = ft.contents x) :
    Touches h ft ft' := by
  have hcou : ∀ P, ft'.count P + tally P (some f) = ft.count P := fun P => by
    rw [← hf]
    exact count_update P none (hc.lt_next hf) hopn hnext
  refine ⟨⟨fun j hj => ?_, fun y => ?_, fun y => ?_⟩, fun b hb => ?_, fun {b g} hb hg hd => ?_⟩
  · rw [hnext] at hj
    rw [hopn, update_of_ne ((hc.lt_next hf).trans_le hj).ne', hc.fresh j hj]
  · have hy : ft'.deniers y = ft.deniers y := by
      have hy := hcou fun f => f.inode == y && f.denyWrite
      rwa [tally_some, hno, Bool.and_false] at hy
    rw [hine, update_apply, hy]
    split_ifs with hyf
    · rw [hyf, hdeny]
    · exact hc.denyWriteCnt y
  · have hy := hcou fun f => f.inode == y
    rw [tally_some] at hy
    rw [hine, update_apply, openers]
    split_ifs with hyf
    · rw [hyf, beq_self_eq_true, if_pos rfl] at hy
      rw [openers] at hopen
      rw [hyf]
      omega
    · exact (Nat.le_add_right _ _).trans (hy.le.trans (hc.openCnt y))
  · rw [hopn, update_of_ne hb]
  · refine hcon _ fun heq => ?_
    have hpos : 0 < ft.deniers g.inode := hc.count_pos hg (by simp [hd])
    have hlt := hc.deniers_lt_openers hf hno
    rw [heq] at hpos ⊢
    omega

theorem inodeClose_touches (hno : f.denyWrite = false) : ∃ ft₁, ft.inodeClose f.inode = some ft₁ ∧
      Touches h ft { ft₁ with opened := update ft₁.opened h none } := by
  have hlt := hc.deniers_lt_openers hf hno
  have hopen := hc.openCnt f.inode
  unfold inodeClose
  rw [if_neg (by omega)]
  by_cases hlast : (ft.inodes f.inode).openCnt = 1
  · rw [if_pos hlast]
    have hnone : ft.deniers f.inode = 0 ∧ ft.openers f.inode ≤ 1 := by omega
    refine ⟨_, rfl, touches_of_close hc hf hno hnone.1 hnone.2 rfl rfl rfl fun x hx => ?_⟩
    split_ifs
    · refine update_of_ne ?_ ..
      rintro rfl
      omega
    · rfl
  · rw [if_neg hlast]
    refine ⟨_, rfl, touches_of_close hc hf hno ?_ ?_ rfl rfl rfl fun _ _ => rfl⟩
    · exact (hc.denyWriteCnt f.inode).symm
    · dsimp only
      omega

theorem fileClose_touches : ∃ ft', ft.fileClose h = some ft' ∧ Touches h ft ft' := by
  obtain ⟨ft₁, halw, ht1, hopn⟩ := fileAllowWrite_touches hc hf
  obtain ⟨ft₂, hcls, ht2⟩ := inodeClose_touches ht1.counted hopn rfl
  refine ⟨_, ?_, ht1.trans ht2⟩
  simp [fileClose, hf, halw, hcls]

end

/-- `filesys_remove` refers to the inode twice. -/
theorem filesysRemove_counted (hc : Counted ft) (x : ℕ) :
    Counted (ft.filesysRemove x) ∧ (∀ b < ft.next, (ft.filesysRemove x).opened b = ft.opened b) ∧
      (ft.filesysRemove x).contents = ft.contents := by
  have h1 := fileOpen_touches hc x
  have h2 := fileOpen_touches h1.counted x
  refine ⟨⟨h2.counted.fresh, fun y => ?_, fun y => ?_⟩, fun b hb => ?_, rfl⟩
  · have hy := h2.counted.denyWriteCnt y
    simp only [filesysRemove]
    rw [update_apply]
    split_ifs with hxy
    · subst hxy
      exact hy
    · exact hy
  · have hy := h2.counted.openCnt y
    simp only [filesysRemove]
    rw [update_apply]
    split_ifs with hxy
    · subst hxy
      exact hy
    · exact hy
  · exact (h2.others b (Nat.ne_of_lt (Nat.lt_succ_of_lt hb))).trans (h1.others b hb.ne)

/-! ### Owners -/

/-- Each owner `k` that has a file has it alone; it is open, and denies writing if `flag k`. -/
structure Owned {K : Type} (flag : K → Bool) (H : K → Option ℕ) (ft : FileTable) : Prop where
  opened : ∀ {k h}, H k = some h → ∃ f, ft.opened h = some f ∧ f.denyWrite = flag k
  unique : ∀ {k k' h}, H k = some h → H k' = some h → k = k'

section
variable {K : Type} {flag : K → Bool} {H H' : K → Option ℕ} {k : K}

theorem Owned.forget (ho : Owned flag H ft) (hH : ∀ k h, H' k = some h → H k = some h) :
    Owned flag H' ft :=
  ⟨fun hk => ho.opened (hH _ _ hk), fun hk hk' => ho.unique (hH _ _ hk) (hH _ _ hk')⟩

/-- A call with a file that only `k` may have. -/
theorem Owned.touch (ho : Owned flag H ft) (ht : Touches h ft ft')
    (hself : ∀ k', H k' = some h → k' = k)
    (hH : ∀ k' i, H' k' = some i → H k' = some i ∧ k' ≠ k ∨ k' = k ∧ i = h)
    (hk : H' k = some h → ∃ f, ft'.opened h = some f ∧ f.denyWrite = flag k) :
    Owned flag H' ft' := by
  refine ⟨fun {k' i} hk' => ?_, fun {k1 k2 i} h1 h2 => ?_⟩
  · rcases hH k' i hk' with ⟨hold, hne⟩ | ⟨rfl, rfl⟩
    · rw [ht.others i]
      · exact ho.opened hold
      · rintro rfl
        exact hne (hself k' hold)
    · exact hk hk'
  · rcases hH k1 i h1 with ⟨hold1, hne1⟩ | ⟨rfl, rfl⟩ <;>
      rcases hH k2 i h2 with ⟨hold2, hne2⟩ | ⟨rfl, hi⟩
    · exact ho.unique hold1 hold2
    · subst hi
      exact absurd (hself k1 hold1) hne1
    · exact (hself k2 hold2).symm
    · rfl

variable [DecidableEq K]

theorem Owned.fileOpen (ho : Owned flag H ft) (hc : Counted ft) (hflag : flag k = false) (x : ℕ) :
    Owned flag (update H k (some ft.next)) (ft.fileOpen x) := by
  refine ho.touch (fileOpen_touches hc x) (fun k' hk' => ?_) (fun k' i hk' => ?_) fun _ =>
    ⟨_, opened_fileOpen ft x, hflag.symm⟩
  · obtain ⟨f, hf, -⟩ := ho.opened hk'
    exact absurd (hc.lt_next hf) (lt_irrefl _)
  · rw [update_apply] at hk'
    split_ifs at hk' with hkk
    · exact .inr ⟨hkk, (some.inj hk').symm⟩
    · exact .inl ⟨hk', hkk⟩

theorem Owned.close (ho : Owned flag H ft) (hk : H k = some h) (ht : Touches h ft ft') :
    Owned flag (update H k none) ft' := by
  refine ho.touch ht (fun k' hk' => ho.unique hk' hk) (fun k' i hk' => ?_) fun hk' => ?_
  · rw [update_apply] at hk'
    split_ifs at hk' with hkk
    exact .inl ⟨hk', hkk⟩
  · simp at hk'

end

end FileTable

end Pintos.Vm
