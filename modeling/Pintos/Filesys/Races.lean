import Pintos.Filesys.DirectoryMap

/-! # Two threads that race for a name

`filesys_remove` and `filesys_create` as two threads execute them at once, for one name in one
directory.

* **Parent.**  Both calls have opened the parent and have the same `struct inode`, so there is one
  `dir_lock`.  That is so if the parent is open before the calls: `inode_open` finds it.
* **Steps.**  A thread can lose the processor between the lookups of a call, before it gets the lock
  of the parent, and before it changes the parent.  It waits while the other thread has the lock.
  A lookup is one step, and so is the write of an entry.
* **Answers.**  What the layers below answer to a call is up to the environment.
* **Faults.**  A step that follows a null pointer or fails an assertion leads to `faulted`.
* **Removal.**  `filesys_remove` looks the path up again after it has got the lock, and does not
  look at the result.  If every thread gets the lock while the name still has its entry, one call
  wins.
* **Creation.**  `filesys_create` looks the name up under the lock only, and one call wins. -/

namespace Pintos
open Runs Function Option DirFile

/-- Where a call of `filesys_remove` or `filesys_create` is. -/
inductive CallPc where
  | start
  /-- The path has been found, or the parent is not removed; about to lock the parent. -/
  | checked
  | locked
  /-- The name has been looked up under the lock; about to change the parent. -/
  | entered
  | returned (ok : Bool)
  | faulted
deriving DecidableEq, Repr

namespace CallPc

/-- The call is between the lock and the release. -/
def Holds : CallPc → Prop
  | .locked | .entered => True
  | _ => False

/-- How far the call has come. -/
def rank : CallPc → ℕ
  | .start => 0
  | .checked => 1
  | .locked => 2
  | .entered => 3
  | .returned _ | .faulted => 4

end CallPc

inductive NameCall where
  | remove
  | create
deriving DecidableEq, Repr

/-- What the layers below answer to a call. -/
structure Answers where
  /-- `inode_num_files` of the inode to be removed. -/
  numFiles : ℤ
  /-- The new inode, if `free_map_allocate_single` and `inode_create` succeed. -/
  sector : Option ℕ
  /-- A new directory can be opened, to add its links. -/
  linked : Bool
  /-- `inode_write_at` can write so many bytes of an entry. -/
  room : ℕ
deriving DecidableEq, Repr

/-- The parent directory: its content, and what the calls use of its `struct inode`. -/
structure SharedDir where
  bytes : List UInt8
  removed : Bool
  fileCount : ℤ
  dirLock : Option Bool
deriving DecidableEq, Repr

namespace SharedDir

/-- `dir_lookup` of the last name of the path, with the sector of the inode. -/
def dirLookup (d : SharedDir) (name : CString) : Option ℕ := do
  let found ← lookup d.bytes name
  let (e, _) ← found
  some e.inodeSector

/-- `directory_lock`; there is no step while the other thread has the lock. -/
def directoryLock (d : SharedDir) (b : Bool) : Option (CallPc × SharedDir) :=
  if d.dirLock = some b ∨ d.dirLock = none then some (.locked, { d with dirLock := some b })
  else none

/-- `directory_release`. -/
def directoryRelease (d : SharedDir) (b : Bool) : Option SharedDir :=
  if d.dirLock = some b then some { d with dirLock := none } else none

/-- The end of a call that may go wrong. -/
def orFault (d : SharedDir) : Option (Bool × SharedDir) → CallPc × SharedDir
  | none => (.faulted, d)
  | some (ok, d) => (.returned ok, d)

/-- The part of `filesys_remove` that changes the parent.  What it does to the child is left out. -/
def removeChild (d : SharedDir) (b : Bool) (name : CString) (a : Answers) :
    Option (Bool × SharedDir) :=
  if a.numFiles < 0 then none
  -- this return leaves the directory locked
  else if a.numFiles ≠ 0 then some (false, d)
  else do
    let (success, bytes) ← dirRemove d.bytes name a.room
    if d.fileCount - 1 < 0 then none
    else do
      let d ← { d with bytes := bytes, fileCount := d.fileCount - 1 }.directoryRelease b
      some (success, d)

/-- The next operation of `filesys_remove`. -/
def removeStep (d : SharedDir) (b : Bool) (name : CString) (a : Answers) :
    CallPc → Option (CallPc × SharedDir)
  | .start => some (if (d.dirLookup name).isSome then .checked else .returned false, d)
  | .checked => d.directoryLock b
  -- `file_get_inode` follows the pointer that `filesys_open` returns
  | .locked => some (if (d.dirLookup name).isSome then .entered else .faulted, d)
  | .entered => some (d.orFault (d.removeChild b name a))
  | .returned _ | .faulted => none

/-- The new inode and its entry in the parent. -/
def addChild (d : SharedDir) (name : CString) (a : Answers) : Option (Bool × List UInt8) :=
  match a.sector with
  | none => some (false, d.bytes)
  | some sector => dirAdd d.bytes name sector a.room

/-- The part of `filesys_create` that changes the parent. -/
def createChild (d : SharedDir) (b : Bool) (name : CString) (a : Answers) :
    Option (Bool × SharedDir) := do
  let (added, bytes) ← d.addChild name a
  let success := added && a.linked
  let fileCount := if success then d.fileCount + 1 else d.fileCount
  let d ← { d with bytes := bytes, fileCount := fileCount }.directoryRelease b
  some (success, d)

/-- The next operation of `filesys_create`. -/
def createStep (d : SharedDir) (b : Bool) (name : CString) (a : Answers) :
    CallPc → Option (CallPc × SharedDir)
  | .start => some (if d.removed then .returned false else .checked, d)
  | .checked => d.directoryLock b
  -- the return leaves the directory locked
  | .locked => some (if (d.dirLookup name).isSome then .returned false else .entered, d)
  | .entered => some (d.orFault (d.createChild b name a))
  | .returned _ | .faulted => none

def callStep (d : SharedDir) (b : Bool) (name : CString) (a : Answers) :
    NameCall → CallPc → Option (CallPc × SharedDir)
  | .remove => d.removeStep b name a
  | .create => d.createStep b name a

end SharedDir

/-- The parent directory and the two threads. -/
structure Race where
  dir : SharedDir
  pc : Bool → CallPc

namespace Race

/-- Both threads are about to start their calls. -/
def initial (d : SharedDir) : Race := ⟨d, fun _ => .start⟩

/-- Thread `b` goes on. -/
def goto (r : Race) (b : Bool) (next : CallPc × SharedDir) : Race :=
  ⟨next.2, update r.pc b next.1⟩

/-- A step of one of the threads. -/
def step (call : NameCall) (name : CString) (answers : Bool → Answers) (r : Race) (b : Bool) :
    Option Race :=
  (r.dir.callStep b name (answers b) call (r.pc b)).map (r.goto b)

/-- A thread that locks the parent to remove a name from it finds the name there. -/
def InTime (call : NameCall) (name : CString) (r : Race) (b : Bool) : Prop :=
  call = .remove → r.pc b = .checked → (r.dir.dirLookup name).isSome

instance : Decidable (InTime call name r b) := inferInstanceAs (Decidable (_ → _ → _))

theorem goto_pc_self (r : Race) (b : Bool) (next : CallPc × SharedDir) :
    (r.goto b next).pc b = next.1 := update_self ..

theorem goto_pc_not (r : Race) (b : Bool) (next : CallPc × SharedDir) :
    (r.goto b next).pc (!b) = r.pc (!b) := update_of_ne (Bool.not_ne_self b) ..

end Race

/-! ### The parent -/

namespace SharedDir

variable {d : SharedDir} {name : CString} {a : Answers} {b : Bool} {call : NameCall}
  {pc : CallPc}

theorem dirLookup_eq (d : SharedDir) (name : CString) :
    d.dirLookup name = entriesOf d.bytes name := by
  unfold dirLookup entriesOf
  rw [DirFile.lookup_eq]
  cases slotOf d.bytes name <;> rfl

/-- The name has an entry that can be removed, or there is a place for a new one. -/
def Ready (d : SharedDir) (name : CString) (a : Answers) : NameCall → Prop
  | .remove => (d.dirLookup name).isSome ∧ 0 < d.fileCount ∧ a.numFiles = 0
  | .create => ValidName name ∧ d.dirLookup name = none ∧ d.removed = false ∧ a.linked = true ∧
      ∃ sector < 2 ^ 32, a.sector = some sector

/-- A removal ends with success, and the entry is gone. -/
theorem removeChild_eq (hd : Distinct d.bytes) (hroom : DirEntry.SIZE ≤ a.room)
    (h : d.Ready name a .remove) (hlock : d.dirLock = some b) :
    ∃ d', d.removeChild b name a = some (true, d') ∧ d'.dirLock = none ∧
      d'.removed = d.removed ∧ d'.dirLookup name = none := by
  obtain ⟨hsome, hcnt, hnum⟩ := h
  rw [dirLookup_eq, isSome_iff_ne_none, Ne, entriesOf_eq_none, ← Ne, ne_none_iff_exists'] at hsome
  obtain ⟨k, hslot⟩ := hsome
  have hrmv : dirRemove d.bytes name a.room = some (true, clearEntry d.bytes k) := by
    have hlen := DirEntry.length_bytes { entryAt d.bytes k with inUse := false }
    unfold dirRemove
    rw [DirFile.lookup_eq, hslot]
    simp [writeAt, clearEntry, hlen, hroom, List.take_of_length_le]
  refine ⟨⟨clearEntry d.bytes k, d.removed, d.fileCount - 1, none⟩, ?_, rfl, rfl, ?_⟩
  · simp [removeChild, hnum, hrmv, directoryRelease, hlock]
    omega
  · rw [dirLookup_eq]
    show entriesOf (clearEntry d.bytes k) name = none
    rw [hd.entriesOf_clearEntry hslot, update_self]

/-- A creation ends with success, and there is an entry. -/
theorem createChild_eq (hroom : DirEntry.SIZE ≤ a.room) (h : d.Ready name a .create)
    (hlock : d.dirLock = some b) :
    ∃ d', d.createChild b name a = some (true, d') ∧ d'.dirLock = none ∧
      d'.removed = d.removed ∧ (d'.dirLookup name).isSome := by
  obtain ⟨hname, hnone, -, hlink, sector, hlt, hsct⟩ := h
  rw [dirLookup_eq, entriesOf_eq_none] at hnone
  obtain ⟨success, bytes, hadd, hiff, hbytes⟩ := dirAdd_eq hname.2.2 d.bytes sector a.room
  obtain rfl := hiff.mpr ⟨hname, hnone, hroom⟩
  obtain rfl : bytes = _ := hbytes
  refine ⟨⟨addEntry d.bytes name sector, d.removed, d.fileCount + 1, none⟩, ?_, rfl, rfl, ?_⟩
  · simp only [createChild, addChild, hsct, hadd, hlink, directoryRelease, hlock]
    rfl
  · rw [dirLookup_eq]
    show (entriesOf (addEntry d.bytes name sector) name).isSome
    rw [entriesOf_addEntry hlt hname hnone, update_self]
    rfl

section
variable (h : d.Ready name a call)
include h

theorem Ready.callStep_start : d.callStep b name a call .start = some (.checked, d) := by
  cases call with
  | remove => simp [callStep, removeStep, h.1]
  | create => simp [callStep, createStep, h.2.2.1]

theorem Ready.callStep_locked : d.callStep b name a call .locked = some (.entered, d) := by
  cases call with
  | remove => simp [callStep, removeStep, h.1]
  | create => simp [callStep, createStep, h.2.1]

theorem Ready.callStep_entered (hd : Distinct d.bytes) (hroom : DirEntry.SIZE ≤ a.room)
    (hlock : d.dirLock = some b) : ∃ d', d.callStep b name a call .entered =
      some (.returned true, d') ∧ d'.dirLock = none ∧ d'.removed = d.removed ∧
        ((d'.dirLookup name).isSome ↔ call = .create) := by
  cases call with
  | remove =>
    obtain ⟨d', heq, hfree, hreo, hnone⟩ := removeChild_eq hd hroom h hlock
    exact ⟨d', by simp only [callStep, removeStep, heq, orFault], hfree, hreo, by simp [hnone]⟩
  | create =>
    obtain ⟨d', heq, hfree, hreo, hsome⟩ := createChild_eq hroom h hlock
    exact ⟨d', by simp only [callStep, createStep, heq, orFault], hfree, hreo,
      iff_of_true hsome rfl⟩

end

theorem callStep_checked (call : NameCall) :
    d.callStep b name a call .checked = d.directoryLock b := by
  cases call <;> rfl

end SharedDir

/-! ### One step -/

namespace Race

variable {d : SharedDir} {name : CString} {answers : Bool → Answers} {call : NameCall} {r r' : Race}
  {b w : Bool} {pc : CallPc}

/-- No call has changed the parent. -/
structure Before (d : SharedDir) (r : Race) : Prop where
  dir : r.dir = { d with dirLock := r.dir.dirLock }
  held : ∀ b, r.dir.dirLock = some b ↔ (r.pc b).Holds
  running : ∀ b, (r.pc b).rank < 4

/-- Thread `w` has changed the parent and has returned. -/
structure After (call : NameCall) (name : CString) (d : SharedDir) (w : Bool) (r : Race) :
    Prop where
  won : r.pc w = .returned true
  lost : r.pc (!w) = .returned false ∨ r.dir.dirLock = none ∧ (r.pc (!w)).rank < 2 ∨
    call = .create ∧ r.pc (!w) = .locked
  entry : (r.dir.dirLookup name).isSome ↔ call = .create
  removed : r.dir.removed = d.removed

theorem step_eq {next : CallPc × SharedDir} (hpc : r.pc b = pc)
    (hs : r.dir.callStep b name (answers b) call pc = some next) :
    step call name answers r b = some (r.goto b next) := by
  rw [step, hpc, hs, map_some]

/-- A thread goes on without a change of the parent. -/
theorem Before.goto (h : Before d r) {lock : Option Bool} (hself : lock = some b ↔ pc.Holds)
    (hother : ∀ b' ≠ b, lock = some b' ↔ r.dir.dirLock = some b') (hrun : pc.rank < 4) :
    Before d (r.goto b (pc, { r.dir with dirLock := lock })) where
  dir := by
    show ({ r.dir with dirLock := lock } : SharedDir) = _
    rw [h.dir]
    rfl
  held := (forall_update_iff r.pc fun b' pc => lock = some b' ↔ pc.Holds).mpr
    ⟨hself, fun b' hb' => (hother b' hb').trans (h.held b')⟩
  running := (forall_update_iff r.pc fun _ pc => pc.rank < 4).mpr ⟨hrun, fun b' _ => h.running b'⟩

/-- While no call has changed the parent, a thread waits for the lock or goes on. -/
theorem Before.next (hd : Distinct d.bytes) (hroom : DirEntry.SIZE ≤ (answers b).room)
    (hready : d.Ready name (answers b) call) (h : Before d r) :
    r.pc b = .checked ∧ r.dir.dirLock = some (!b) ∨
      ∃ r', step call name answers r b = some r' ∧ (Before d r' ∨ After call name d b r') := by
  have hr : r.dir.Ready name (answers b) call := by
    rw [h.dir]
    cases call <;> exact hready
  have hheld := h.held b
  have hrun := h.running b
  cases hpc : r.pc b with
  | start =>
    rw [hpc] at hheld
    exact .inr ⟨_, step_eq hpc hr.callStep_start,
      .inl (h.goto hheld (fun _ _ => .rfl) (by decide))⟩
  | checked =>
    rw [hpc] at hheld
    by_cases hother : r.dir.dirLock = some !b
    · exact .inl ⟨rfl, hother⟩
    have hfree : r.dir.dirLock = none := by
      cases hlock : r.dir.dirLock with
      | none => rfl
      | some b' =>
        rcases Bool.eq_or_eq_not b' b with rfl | rfl
        · exact (hheld.mp hlock).elim
        · exact absurd hlock hother
    refine .inr ⟨_, step_eq hpc ((SharedDir.callStep_checked call).trans (if_pos (.inr hfree))),
      .inl (h.goto (by simp [CallPc.Holds]) (fun b' hb' => ?_) (by decide))⟩
    simp [hfree, hb'.symm]
  | locked =>
    rw [hpc] at hheld
    exact .inr ⟨_, step_eq hpc hr.callStep_locked,
      .inl (h.goto hheld (fun _ _ => .rfl) (by decide))⟩
  | entered =>
    have hlock := hheld.mpr (by rw [hpc]; trivial)
    have hdist : Distinct r.dir.bytes := by
      rw [h.dir]
      exact hd
    obtain ⟨d', hcall, hfree, hreo, hent⟩ := hr.callStep_entered hdist hroom hlock
    refine .inr ⟨_, step_eq hpc hcall, .inr ⟨goto_pc_self .., .inr (.inl ⟨hfree, ?_⟩), hent,
      hreo.trans (by rw [h.dir])⟩⟩
    -- the other thread does not have the lock
    rw [goto_pc_not]
    have hnot : ¬ (r.pc !b).Holds := fun hh => by
      have hother := (h.held !b).mpr hh
      simp [hlock] at hother
    have hrun' := h.running !b
    cases hpc' : r.pc !b <;> simp_all [CallPc.Holds, CallPc.rank]
  | returned | faulted => simp [hpc, CallPc.rank] at hrun

theorem Before.step (hd : Distinct d.bytes) (hroom : DirEntry.SIZE ≤ (answers b).room)
    (hready : d.Ready name (answers b) call) (h : Before d r)
    (hs : Race.step call name answers r b = some r') : Before d r' ∨ After call name d b r' := by
  rcases h.next hd hroom hready with ⟨hpc, hother⟩ | ⟨r1, hs1, hr1⟩
  · simp [Race.step, hpc, SharedDir.callStep_checked, SharedDir.directoryLock, hother] at hs
  · obtain rfl := mem_unique hs1 hs
    exact hr1

/-- The other thread goes on. -/
theorem After.goto (h : After call name d w r) {lock : Option Bool}
    (hlost : pc = .returned false ∨ lock = none ∧ pc.rank < 2 ∨ call = .create ∧ pc = .locked) :
    After call name d w (r.goto (!w) (pc, { r.dir with dirLock := lock })) where
  won := (update_of_ne (Bool.not_ne_self w).symm ..).trans h.won
  lost := by
    rw [goto_pc_self]
    exact hlost
  entry := h.entry
  removed := h.removed

/-- After the parent has been changed, the other thread goes on until it has returned. -/
theorem After.next (hready : d.Ready name (answers !w) call) (h : After call name d w r)
    (hin : InTime call name r (!w)) (hret : r.pc (!w) ≠ .returned false) :
    ∃ r', step call name answers r (!w) = some r' ∧ After call name d w r' := by
  have hlost := h.lost.resolve_left hret
  have hent := h.entry
  cases hpc : r.pc !w with
  | start =>
    have hfree : r.dir.dirLock = none := by simpa [hpc, CallPc.rank] using hlost
    cases call with
    | remove =>
      have hnone : ¬ (r.dir.dirLookup name).isSome := fun hs => by cases hent.mp hs
      exact ⟨_, step_eq hpc (congrArg (fun pc => some (pc, r.dir)) (if_neg hnone)),
        h.goto (.inl rfl)⟩
    | create =>
      have hreo : ¬ r.dir.removed = true := by simp [h.removed, hready.2.2.1]
      exact ⟨_, step_eq hpc (congrArg (fun pc => some (pc, r.dir)) (if_neg hreo)),
        h.goto (.inr (.inl ⟨hfree, by decide⟩))⟩
  | checked =>
    have hfree : r.dir.dirLock = none := by simpa [hpc, CallPc.rank] using hlost
    cases call with
    | remove => cases hent.mp (hin rfl hpc)
    | create => exact ⟨_, step_eq hpc (if_pos (.inr hfree)), h.goto (.inr (.inr ⟨rfl, rfl⟩))⟩
  | locked =>
    obtain rfl : call = .create := by simpa [hpc, CallPc.rank] using hlost
    exact ⟨_, step_eq hpc (congrArg (fun pc => some (pc, r.dir)) (if_pos (hent.mpr rfl))),
      h.goto (.inl rfl)⟩
  | entered | returned | faulted => simp [hpc, CallPc.rank] at hlost

theorem After.step (hready : d.Ready name (answers !w) call) (h : After call name d w r)
    (hin : InTime call name r b) (hs : Race.step call name answers r b = some r') :
    After call name d w r' := by
  have hstop : ∀ ok, r.pc b ≠ .returned ok := fun ok hpc => by
    rw [Race.step, hpc] at hs
    cases call <;> cases hs
  rcases Bool.eq_or_eq_not b w with rfl | rfl
  · exact absurd h.won (hstop true)
  · obtain ⟨r1, hs1, hr1⟩ := h.next hready hin (hstop false)
    obtain rfl := mem_unique hs1 hs
    exact hr1

end Race

end Pintos
