import Pintos.Filesys.Marking
import Pintos.Filesys.Ownership

/-! # A consistent file system

What a checker finds on the array of sectors after any run of orderly calls: every sector that calls
can come to holds an inode, no sector is listed by two of these inodes, and all that are listed are
marked in the free map. -/

namespace Pintos.Session
open Runs Function Option FileSys

variable {s : Session} {M : List ℕ} {σ : Store} {P : ℕ → Place} {d x : ℕ} {f : FileImage}

/-- The sectors of the file whose inode is in sector `d`, as its tables list them. -/
def sectorsOf (s : Session) (d : ℕ) : List ℕ :=
  match s.fs.inodeData d with
  | some data => listedSectors s.fs.vol.disk ⟨d, 1, false, 0, data, 0, none⟩
  | none => []

structure Consistent (s : Session) : Prop where
  inode : ∀ d, s.Linked d → ∃ data, s.fs.inodeData d = some data ∧ data.magic = INODE_MAGIC
  marked : ∀ d, s.Linked d → ∀ x ∈ s.sectorsOf d,
    x < s.fs.vol.disk.size ∧ s.fs.vol.freeMap x = true
  reserved : ∀ d, s.Linked d → FREE_MAP_SECTOR ∉ s.sectorsOf d
  exclusive : ∀ d e, s.Linked d → s.Linked e → d ≠ e → ∀ x ∈ s.sectorsOf d, x ∉ s.sectorsOf e

theorem Settled.mem_sectorsOf (h : s.Settled M σ P) (hf : σ d = some f) :
    x ∈ s.sectorsOf d ↔ x = d ∨ x ∈ (P d).owned := by
  have hst := h.backed.stored d f hf
  rw [sectorsOf, hst.inode]
  exact Holds.mem_listedSectors hst.fileOf.holds

theorem Settled.consistent (h : s.Settled M σ P) : s.Consistent := by
  have hfile : ∀ d, s.Linked d → ∃ f, σ d = some f := fun d hd =>
    isSome_iff_exists.mp (h.isSome_of_linked hd)
  refine ⟨fun d hd => ?_, fun d hd x hx => ?_, fun d hd h0 => ?_, fun d e hd he hne x hx hx' => ?_⟩
  all_goals
    obtain ⟨f, hf⟩ := hfile d hd
    have hst := h.backed.stored d f hf
  · exact ⟨_, hst.inode, hst.fileOf.holds.magic⟩
  · rcases (h.mem_sectorsOf hf).mp hx with rfl | hx
    · exact ⟨hst.lt_size, hst.marked⟩
    · exact ⟨hst.fileOf.holds.valid.lt_size x hx, hst.fileOf.marked x hx⟩
  · rcases (h.mem_sectorsOf hf).mp h0 with rfl | h0
    · cases hf.symm.trans h.backed.zero
    · exact hst.fileOf.holds.valid.ne_zero _ h0 rfl
  · obtain ⟨g, hg⟩ := hfile e he
    have hsd := h.isSome_of_linked hd
    have hse := h.isSome_of_linked he
    rcases (h.mem_sectorsOf hf).mp hx with rfl | hx <;>
      rcases (h.mem_sectorsOf hg).mp hx' with rfl | hx'
    · exact hne rfl
    · exact h.backed.inodes_apart _ e hsd hse hx'
    · exact h.backed.inodes_apart _ d hse hsd hx
    · exact h.backed.files_apart d e hsd hse hne x hx hx'

/-- In every run of orderly calls from a formatted device, with shutdowns in between, the file system
is consistent. -/
theorem consistent_of_reaches (d : Disk) (fs : FileSys) (hsize : d.size < 2 ^ 32)
    (hf : format d = some fs) (s : Session) (h : Reaches step Orderly (initial fs) s) :
    s.Consistent := by
  obtain ⟨M, σ, P, hi⟩ := settled_of_reaches hsize hf h
  exact hi.consistent

/-- A file is created in the root directory. -/
theorem consistent_created : ∃ fs fs₁, format ⟨64, fun _ _ => 0⟩ = some fs ∧
    fs.filesysCreate INITIAL_TID ROOT_DIR_SECTOR fileName 0 false = some (true, fs₁) ∧
    (initial fs₁).Consistent := by
  obtain ⟨fs, fs₁, -, -, -, hfrm, -, hcrt, -⟩ :=
    exists_created 0 false nofun (Nat.zero_le _) (by decide)
  exact ⟨fs, fs₁, hfrm, hcrt, consistent_of_reaches _ fs (by decide) hfrm _
    (.step _ .start (orderly_create (by decide) hfrm (by decide)) (step_create hcrt))⟩

end Pintos.Session
