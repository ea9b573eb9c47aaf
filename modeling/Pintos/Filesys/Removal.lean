import Pintos.Filesys.Creation

/-! # Removing by path

`dir_remove` takes an entry out of a directory and marks the inode that it leads to as removed;
`filesys_remove` calls it for the name in the parent, and then for `.` and `..` in what the path
leads to. -/

namespace Pintos
open Bytes Walks Function Option DirEntry

namespace FileSys

variable {fs fs' : FileSys} {M : List ℕ} {σ : Store} {P : ℕ → Place} {p q k tid : ℕ} {i j : Inode}
  {f g : FileImage} {name : CString}

theorem setInode_heap (fs : FileSys) (p : ℕ) (i : Inode) : (fs.setInode p i).heap p = some i :=
  update_self ..

theorem setInode_self (hp : fs.heap p = some i) : fs.setInode p i = fs := by
  rw [setInode, ← hp, update_eq_self]

theorem setInode_setInode (fs : FileSys) (p : ℕ) (i j : Inode) :
    (fs.setInode p i).setInode p j = fs.setInode p j := by
  simp [setInode]

theorem inodeRemove_eq (h : fs.Tidy) (hp : fs.heap p = some i) :
    fs.inodeRemove p = some (fs.setInode p { i with removed := true }) := by
  unfold inodeRemove
  rw [hp, bind_eq_bind, bind_some, if_pos (h.magic p i hp)]

/-! ### `dir_remove` -/

/-- `dir_remove` of an entry that leads to the open inode `q`. -/
theorem Stores.dirRemove (h : fs.Stores M σ P) (hp : fs.heap p = some i) (hf : σ i.sector = some f)
    (hmax : f.bytes.length < MAX_LENGTH) (hdeny : i.denyWriteCnt = 0)
    (hslot : slotOf f.bytes name = some k) (hq : fs.heap q = some j)
    (hs : (entryAt f.bytes k).inodeSector = j.sector) :
    ∃ v P', fs.dirRemove p name =
        some (true, { fs.setInode q { j with removed := true } with vol := v }) ∧
      Stores { fs.setInode q { j with removed := true } with vol := v } M
        (Function.update σ i.sector (some { f with bytes := clearEntry f.bytes k })) P' ∧
      v.freeSectors = fs.vol.freeSectors ∧ (fs.vol.Mirrored M → v.Mirrored M) := by
  obtain ⟨hk, -, -⟩ := slotOf_eq_some.mp hslot
  have hlen := length_bytes { entryAt f.bytes k with inUse := false }
  have hin : SIZE * k + SIZE ≤ f.bytes.length := by
    unfold slots at hk
    rw [SIZE_eq] at *
    omega
  have hlook := h.lookup hp hf hmax name
  rw [hslot] at hlook
  -- the inode is opened once more
  have hopen := (congrArg fs.inodeOpen hs).trans (inodeOpen_again h.tidy hq)
  have h1 := @Stores.setInode fs M σ P q j { j with openCnt := j.openCnt + 1 } h hq rfl rfl
    (Nat.succ_pos _)
  have hq1 : (fs.setInode q { j with openCnt := j.openCnt + 1 }).heap q =
      some { j with openCnt := j.openCnt + 1 } := update_self ..
  obtain ⟨i1, hp1, hsec1, hdata1, hdeny1⟩ : ∃ i1,
      (fs.setInode q { j with openCnt := j.openCnt + 1 }).heap p = some i1 ∧
      i1.sector = i.sector ∧ i1.data = i.data ∧ i1.denyWriteCnt = i.denyWriteCnt := by
    by_cases hpq : p = q
    · subst hpq
      cases mem_unique hp hq
      exact ⟨_, hq1, rfl, rfl, rfl⟩
    · exact ⟨i, (update_of_ne hpq ..).trans hp, rfl, rfl, rfl⟩
  -- the write is in place and leaves the inode of the directory as it is
  obtain ⟨v, P', hw, h2, hfree, -⟩ := @Stores.inodeWriteAt _ M σ P p i1 f h1 hp1 (hsec1 ▸ hf)
    (bytes { entryAt f.bytes k with inUse := false }) (SIZE * k)
    (hdeny1.trans hdeny) (by omega) (by
      rw [hlen, show max f.bytes.length (SIZE * k + SIZE) = f.bytes.length by omega, Nat.sub_self]
      exact Nat.zero_le _)
  have hlng : i1.data.length = f.bytes.length := by rw [hdata1, (h.open_file hp hf).2.1]
  have hsame : ∀ n, n = i1.data.length →
      ({ i1 with data := { i1.data with length := n } } : Inode) = i1 := by
    rintro n rfl
    rfl
  rw [hsame _ (by omega), setInode_self hp1] at hw h2
  rw [hsec1] at h2
  have hmr := fun hm => h1.mirrored_inodeWriteAt hp1 hm
    (by rw [MAX_LENGTH_eq] at hmax; omega) hw
  obtain ⟨fs2, hfs2⟩ : ∃ fs2 : FileSys,
    fs2 = { fs.setInode q { j with openCnt := j.openCnt + 1 } with vol := v } := ⟨_, rfl⟩
  rw [← hfs2] at hw h2
  have hq2 : fs2.heap q = some { j with openCnt := j.openCnt + 1 } := by
    rw [hfs2]
    exact hq1
  have hend : ∀ i', fs2.setInode q i' = { fs.setInode q i' with vol := v } := fun i' => by
    rw [hfs2]
    simp [FileSys.setInode]
  -- marked, and closed again
  have h3 := @Tidy.setInode _ q _ { j with openCnt := j.openCnt + 1, removed := true } h2.tidy hq2 rfl
    (Nat.succ_pos _) (h.tidy.magic q j hq)
  have hcls : (fs2.setInode q { j with openCnt := j.openCnt + 1, removed := true }).inodeClose q =
      some { fs.setInode q { j with removed := true } with vol := v } := by
    rw [inodeClose_shared h3 (update_self ..)
      (by have := h.tidy.counted q j hq; simp only; omega), setInode_setInode, hend]
    rfl
  refine ⟨v, P', ?_, ?_, hfree (by omega), hmr⟩
  · unfold FileSys.dirRemove
    simp only [hlook, map_some, hopen, bind_eq_bind, bind_some]
    rw [hw]
    simp [hlen, inodeRemove_eq h2.tidy hq2, hcls]
  · rw [← hend]
    exact h2.setInode hq2 rfl rfl (h.tidy.counted q j hq)

end FileSys

end Pintos
