import Pintos.Filesys.FreeMap
import Pintos.Lib.Runs

/-! # Threads that grow files

`inode_extend_file` as several threads execute it at once, each for an inode of its own.  The lock
that a caller holds belongs to the inode; the free map is shared and has none.

* **Steps.**  A step of a thread is one operation on the free map: a test inside `bitmap_count`, the
  test or the `bitmap_mark` of the scan, `bitmap_write`, a `bitmap_reset`.  Whether `bitmap_write`
  succeeds is part of the action.
* **Reservations.**  `reserved`: the sectors that a call counts as its own, the one included whose
  bit it has seen clear and has not set yet.  A call that sees a clear bit reserves it, and nothing
  but the mark keeps others from doing the same (`Advance`). -/

namespace Pintos
open Runs Function Option List

/-- Where a thread is in `inode_extend_file`; `new` is `new_sectors`, `found` are the first
`num_found` elements of `available_sectors`. -/
inductive ExtendPc where
  /-- Not called yet. -/
  | idle
  /-- In `bitmap_count`, about to test bit `i`. -/
  | counting (new i count : ℕ)
  /-- In the scan, about to test bit `i`. -/
  | scanning (new i : ℕ) (found : List ℕ)
  /-- Bit `i` was clear; about to mark it. -/
  | marking (new i : ℕ) (found : List ℕ)
  /-- About to write the free map to its file. -/
  | writing (new : ℕ) (found : List ℕ)
  /-- The call fails; about to reset the bits in `left`. -/
  | resetting (new : ℕ) (left : List ℕ)
  /-- Returned: true with the sectors that go into the tables, or false. -/
  | returned (new : ℕ) (sectors : Option (List ℕ))
deriving DecidableEq, Repr

namespace ExtendPc

/-- What follows `bitmap_count`. -/
def afterCount (new count : ℕ) : ExtendPc :=
  if count < new then .returned new none
  else if new = 0 then .returned new (some [])
  else .scanning new 0 []

/-- What follows the mark of the sector that is last in `found`. -/
def afterMark (new i : ℕ) (found : List ℕ) : ExtendPc :=
  if found.length = new then .writing new found else .scanning new (i + 1) found

/-- The next operation of a call on the free map; `written` is what `bitmap_write` returns. -/
def next (size : ℕ) : (ℕ → Bool) × ExtendPc → Bool → Option ((ℕ → Bool) × ExtendPc)
  | (_, .idle), _ => none
  | (bits, .counting new i count), _ =>
    if i < size then some (bits, .counting new (i + 1) (if bits i then count else count + 1))
    else some (bits, afterCount new count)
  | (bits, .scanning new i found), _ =>
    if i < size then
      some (bits, if bits i then .scanning new (i + 1) found else .marking new i found)
    -- the scan ends with `num_found != new_sectors`
    else some (bits, .resetting new found)
  | (bits, .marking new i found), _ =>
    some (mark bits [i], afterMark new i (found ++ [i]))
  | (bits, .writing new found), written =>
    some (bits, if written then .returned new (some found) else .resetting new found)
  | (bits, .resetting new []), _ => some (bits, .returned new none)
  | (bits, .resetting new (s :: left)), _ => some (reset bits [s], .resetting new left)
  | (_, .returned _ _), _ => none

/-- The sectors whose bits the call has set. -/
def held : ExtendPc → List ℕ
  | .scanning _ _ found | .marking _ _ found | .writing _ found => found
  | .resetting _ left => left
  | .returned _ (some sectors) => sectors
  | _ => []

/-- The bit that the scan is about to test. -/
def tests : ExtendPc → Option ℕ
  | .scanning _ i _ => some i
  | _ => none

/-- The bit that the scan is about to mark. -/
def marks : ExtendPc → Option ℕ
  | .marking _ i _ => some i
  | _ => none

/-- The sectors that the call counts as its own. -/
def reserved (p : ExtendPc) : List ℕ := p.held ++ p.marks.toList

/-- The sectors of a call are different ones, and their number is below `new_sectors` as long as the
scan goes on. -/
def Fine : ExtendPc → Prop
  | .scanning new i found | .marking new i found =>
    found.length < new ∧ found.Nodup ∧ ∀ s ∈ found, s < i
  | .writing new found => found.length = new ∧ found.Nodup
  | .resetting _ left => left.Nodup
  | .returned new (some sectors) => sectors.length = new ∧ sectors.Nodup
  | _ => True

theorem mem_reserved {p : ExtendPc} : s ∈ p.reserved ↔ s ∈ p.held ∨ p.marks = some s := by
  simp [reserved]

end ExtendPc

/-! ### One step of a call -/

section step
variable {size : ℕ} {bits bits' : ℕ → Bool} {p p' : ExtendPc} {written : Bool} {s : ℕ}

theorem mark_singleton_of_ne (h : s ≠ i) : mark bits [i] s = bits s := by
  simp [mark, h]

theorem reset_singleton_of_ne (h : s ≠ i) : reset bits [i] s = bits s := by
  simp [reset, h]

/-- What an operation of a call does to the free map and to its own reservations. -/
structure Advance (bits : ℕ → Bool) (p : ExtendPc) (bits' : ℕ → Bool) (p' : ExtendPc) : Prop where
  fine : p'.Fine
  /-- What it holds is marked. -/
  held : ∀ s ∈ p'.held, bits' s = true
  /-- The other bits stay as they are. -/
  others : ∀ s, s ∉ p.reserved → bits' s = bits s
  /-- A sector is reserved by the test that finds its bit clear. -/
  reserved : ∀ s ∈ p'.reserved, s ∈ p.reserved ∨ p.tests = some s ∧ bits s = false

open ExtendPc in
theorem advance_of_subset (hfine : p'.Fine) (hheld : ∀ s ∈ p.held, bits s = true)
    (hsub : p'.held ⊆ p.held) (hmar : p'.marks = none) : Advance bits p bits p' := by
  refine ⟨hfine, fun s hs => hheld s (hsub hs), fun s _ => rfl, fun s hs => ?_⟩
  rcases mem_reserved.mp hs with hs | hs
  · exact .inl (mem_reserved.mpr (.inl (hsub hs)))
  · simp [hmar] at hs

open ExtendPc in
theorem advance_afterMark {new i : ℕ} (h : (marking new i found).Fine)
    (hheld : ∀ s ∈ found, bits s = true) :
    Advance bits (.marking new i found) (mark bits [i]) (afterMark new i (found ++ [i])) := by
  obtain ⟨hlt, hndp, hblw⟩ := h
  have hndp' : (found ++ [i]).Nodup := by
    simp only [nodup_append, hndp, nodup_singleton, mem_singleton, true_and]
    rintro s hs _ rfl rfl
    exact (hblw s hs).false
  have hheld' : (afterMark new i (found ++ [i])).held = found ++ [i] := by
    unfold afterMark
    split <;> rfl
  have hmar : (afterMark new i (found ++ [i])).marks = none := by
    unfold afterMark
    split <;> rfl
  refine ⟨?_, fun s hs => ?_, fun s hs => ?_, fun s hs => ?_⟩
  · unfold afterMark
    split
    case isTrue hlen => exact ⟨hlen, hndp'⟩
    case isFalse hlen =>
      refine ⟨?_, hndp', fun s hs => ?_⟩
      · simp only [length_append, length_singleton] at hlen ⊢
        omega
      · rcases mem_append.mp hs with hs | hs
        · exact Nat.lt_succ_of_lt (hblw s hs)
        · rw [mem_singleton.mp hs]
          exact Nat.lt_add_one i
  · simp only [mark, Bool.or_eq_true, decide_eq_true_eq]
    rw [hheld'] at hs
    exact (mem_append.mp hs).imp_left (hheld s)
  · refine mark_singleton_of_ne ?_
    rintro rfl
    exact hs (mem_reserved.mpr (.inr rfl))
  · simp only [ExtendPc.reserved, hheld', hmar, Option.toList_none, append_nil] at hs
    exact .inl hs

open ExtendPc in
theorem advance_reset {new : ℕ} (h : (s :: left).Nodup) (hheld : ∀ u ∈ s :: left, bits u = true) :
    Advance bits (.resetting new (s :: left)) (reset bits [s]) (.resetting new left) := by
  obtain ⟨hs, hndp⟩ := nodup_cons.mp h
  refine ⟨hndp, fun u hu => ?_, fun u hu => ?_, fun u hu => .inl ?_⟩
  · rw [reset_singleton_of_ne (ne_of_mem_of_not_mem hu hs)]
    exact hheld u (mem_cons_of_mem _ hu)
  · refine reset_singleton_of_ne ?_
    rintro rfl
    exact hu (mem_reserved.mpr (.inl mem_cons_self))
  · simp only [mem_reserved, ExtendPc.held, marks, reduceCtorEq, or_false] at hu ⊢
    exact mem_cons_of_mem _ hu

open ExtendPc in
theorem advance_of_next (h : ExtendPc.next size (bits, p) written = some (bits', p')) (hp : p.Fine)
    (hheld : ∀ s ∈ p.held, bits s = true) : Advance bits p bits' p' := by
  cases p with
  | idle | returned => cases h
  | counting new i count =>
    simp only [ExtendPc.next] at h
    split at h <;> cases h
    · exact advance_of_subset trivial hheld (List.Subset.refl _) rfl
    · unfold afterCount
      split
      · exact advance_of_subset trivial hheld (List.Subset.refl _) rfl
      · split
        case isTrue h0 =>
          exact advance_of_subset ⟨h0.symm, nodup_nil⟩ hheld (List.Subset.refl _) rfl
        case isFalse h0 =>
          exact advance_of_subset ⟨Nat.pos_of_ne_zero h0, nodup_nil, by simp⟩ hheld
            (List.Subset.refl _) rfl
  | scanning new i found =>
    obtain ⟨hlt, hndp, hblw⟩ := hp
    simp only [ExtendPc.next] at h
    split at h <;> cases h
    · cases hbit : bits i with
      | true =>
        exact advance_of_subset ⟨hlt, hndp, fun s hs => Nat.lt_succ_of_lt (hblw s hs)⟩ hheld
          (List.Subset.refl _) rfl
      | false =>
        refine ⟨⟨hlt, hndp, hblw⟩, hheld, fun s _ => rfl, fun s hs => ?_⟩
        rcases mem_reserved.mp hs with hs | hs
        · exact .inl (mem_reserved.mpr (.inl hs))
        · cases hs
          exact .inr ⟨rfl, hbit⟩
    · exact advance_of_subset hndp hheld (List.Subset.refl _) rfl
  | marking new i found =>
    cases h
    exact advance_afterMark hp hheld
  | writing new found =>
    cases h
    cases written with
    | true => exact advance_of_subset hp hheld (List.Subset.refl _) rfl
    | false => exact advance_of_subset hp.2 hheld (List.Subset.refl _) rfl
  | resetting new left =>
    cases left with
    | nil =>
      cases h
      exact advance_of_subset trivial hheld (List.Subset.refl _) rfl
    | cons s left =>
      cases h
      exact advance_reset hp hheld

end step

/-! ### Several calls -/

/-- The free map and the calls of `inode_extend_file`, one for each thread. -/
structure GrowthSystem (T : Type) where
  size : ℕ
  freeMap : ℕ → Bool
  pc : T → ExtendPc

/-- What a thread does next. -/
inductive GrowthAction (T : Type) where
  /-- Call `inode_extend_file` for a file of `length` bytes that is to get `cnt` more. -/
  | start (t : T) (length cnt : ℕ)
  /-- The next operation on the free map. -/
  | run (t : T) (written : Bool)

namespace GrowthSystem
variable {T : Type} [DecidableEq T]

def step (m : GrowthSystem T) : GrowthAction T → Option (GrowthSystem T)
  | .start t length cnt =>
    if m.pc t = .idle then
      some { m with pc := update m.pc t (.counting (Volume.newSectors length cnt) 0 0) }
    else none
  | .run t written => do
    let (bits, p) ← ExtendPc.next m.size (m.freeMap, m.pc t) written
    some { m with freeMap := bits, pc := update m.pc t p }

/-- No thread has called `inode_extend_file` yet. -/
def initial (size : ℕ) (freeMap : ℕ → Bool) : GrowthSystem T := ⟨size, freeMap, fun _ => .idle⟩

/-- A scan tests a bit only while no other thread has found it clear and not yet marked it. -/
def apart (m : GrowthSystem T) : GrowthAction T → Prop
  | .start _ _ _ => True
  | .run t _ => ∀ u, u ≠ t → (m.pc t).tests = none ∨ (m.pc u).marks ≠ (m.pc t).tests

instance [Fintype T] (m : GrowthSystem T) : ∀ a, Decidable (apart m a)
  | .start _ _ _ => .isTrue trivial
  | .run t _ => inferInstanceAs
      (Decidable (∀ u, u ≠ t → (m.pc t).tests = none ∨ (m.pc u).marks ≠ (m.pc t).tests))

/-- No sector is reserved twice, and what a thread holds is marked. -/
structure Inv (m : GrowthSystem T) : Prop where
  fine : ∀ t, (m.pc t).Fine
  held : ∀ t, ∀ s ∈ (m.pc t).held, m.freeMap s = true
  disjoint : ∀ t u, t ≠ u → (m.pc t).reserved.Disjoint (m.pc u).reserved

variable {m m' : GrowthSystem T} {t : T}

/-- A call advances while the others stand still. -/
theorem Inv.advance (h : m.Inv) {bits : ℕ → Bool} (hadv : Advance m.freeMap (m.pc t) bits p)
    (hapr : ∀ u, u ≠ t → (m.pc t).tests = none ∨ (m.pc u).marks ≠ (m.pc t).tests) :
    Inv { m with freeMap := bits, pc := update m.pc t p } := by
  -- what the call has reserved by now, no other call has
  have hnew : ∀ u, u ≠ t → ∀ s ∈ p.reserved, s ∉ (m.pc u).reserved := by
    intro u hu s hs hs'
    rcases hadv.reserved s hs with hs | ⟨htest, hclr⟩
    · exact h.disjoint t u hu.symm hs hs'
    · rcases ExtendPc.mem_reserved.mp hs' with hs' | hs'
      · simp [h.held u s hs'] at hclr
      · rcases hapr u hu with hnone | hne
        · simp [htest] at hnone
        · exact hne (hs'.trans htest.symm)
  refine ⟨fun u => ?_, fun u s hs => ?_, fun u w huw => ?_⟩
  · rcases eq_or_ne u t with rfl | hu
    · simpa using hadv.fine
    · simpa [hu] using h.fine u
  · rcases eq_or_ne u t with rfl | hu
    · exact hadv.held s (by simpa using hs)
    · replace hs : s ∈ (m.pc u).held := by simpa [hu] using hs
      have hoth := h.disjoint u t hu (ExtendPc.mem_reserved.mpr (.inl hs))
      exact (hadv.others s hoth).trans (h.held u s hs)
  · rcases eq_or_ne u t with rfl | hu
    · simp only [update_self, update_of_ne huw.symm]
      exact hnew w huw.symm
    · rcases eq_or_ne w t with rfl | hw
      · simp only [update_self, update_of_ne hu]
        exact fun s hs hs' => hnew u hu s hs' hs
      · simpa [hu, hw] using h.disjoint u w huw

theorem Inv.step (h : m.Inv) {a : GrowthAction T} (hok : apart m a) (hs : m.step a = some m') :
    m'.Inv := by
  cases a with
  | start t length cnt =>
    obtain ⟨hidle, ⟨⟩⟩ := ite_none_right_eq_some.mp hs
    have hadv : Advance m.freeMap (m.pc t) m.freeMap
        (.counting (Volume.newSectors length cnt) 0 0) :=
      advance_of_subset trivial (h.held t) (nil_subset _) rfl
    exact h.advance hadv fun u _ => .inl (by rw [hidle]; rfl)
  | run t written =>
    simp only [GrowthSystem.step, bind_eq_bind, bind_eq_some_iff, some.injEq, Prod.exists] at hs
    obtain ⟨bits, p, hnext, rfl⟩ := hs
    exact h.advance (advance_of_next hnext (h.fine t) (h.held t)) hok

omit [DecidableEq T] in
theorem inv_initial (size : ℕ) (freeMap : ℕ → Bool) : (initial size freeMap : GrowthSystem T).Inv :=
  ⟨fun _ => trivial, fun _ _ hs => (not_mem_nil hs).elim, fun _ _ _ _ hs => by cases hs⟩

/-- Calls that never test a bit while another call is between its test and its mark of that bit
share no sector, and a call that returns true has got as many different sectors as it needs. -/
theorem growth_disjoint {size : ℕ} {freeMap : ℕ → Bool} {m : GrowthSystem T}
    (hr : Reaches step apart (initial size freeMap) m) :
    (∀ t u new new' found found', t ≠ u → m.pc t = .returned new (some found) →
      m.pc u = .returned new' (some found') → found.Disjoint found') ∧
    ∀ t new found, m.pc t = .returned new (some found) → found.length = new ∧ found.Nodup := by
  have h : m.Inv := hr.invariant (inv_initial size freeMap) fun _ _ _ hi hok hs => hi.step hok hs
  refine ⟨fun t u new new' found found' htu ht hu => ?_, fun t new found ht => ?_⟩
  · have hdsj := h.disjoint t u htu
    rw [ht, hu] at hdsj
    simpa [ExtendPc.reserved, ExtendPc.held, ExtendPc.marks] using hdsj
  · have hfine := h.fine t
    rwa [ht] at hfine

/-- Both calls need one sector, on a device whose sectors 2 and 3 are free. -/
def bothGrow : List (GrowthAction (Fin 2)) :=
  [.start 0 512 1, .start 1 512 1] ++ List.replicate 5 (.run 0 true) ++
    List.replicate 5 (.run 1 true)

def twoFree : ℕ → Bool := fun s => s < 2

/-- One call after the other. -/
theorem growth_disjoint_in_turn : ∃ m : GrowthSystem (Fin 2),
    Reaches step apart (initial 4 twoFree) m ∧ m.pc 0 = .returned 1 (some [2]) ∧
      m.pc 1 = .returned 1 (some [3]) ∧ [2].Disjoint [3] ∧ [2].length = 1 ∧ [2].Nodup := by
  have hrun : (exec step apart (initial 4 twoFree) (bothGrow ++
      List.replicate 5 (.run 0 true) ++ List.replicate 6 (.run 1 true))).map
        (fun m => (m.pc 0, m.pc 1)) =
      some (.returned 1 (some [2]), .returned 1 (some [3])) := by decide
  obtain ⟨m, hm, hpc⟩ := map_eq_some_iff.mp hrun
  obtain ⟨h0, h1⟩ := Prod.mk.inj hpc
  have hr := reaches_of_exec hm
  obtain ⟨hdsj, hlng⟩ := growth_disjoint hr
  exact ⟨m, hr, h0, h1, hdsj 0 1 1 1 [2] [3] (by decide) h0 h1, hlng 0 1 [2] h0⟩

/-- Both calls find bit 2 clear before either marks it: both return true with sector 2. -/
theorem growth_shares_sector : ∃ m : GrowthSystem (Fin 2),
    Reaches step (fun _ _ => True) (initial 4 twoFree) m ∧ m.pc 0 = .returned 1 (some [2]) ∧
      m.pc 1 = .returned 1 (some [2]) := by
  have hrun : (exec step (fun _ _ => True) (initial 4 twoFree) (bothGrow ++
      List.replicate 3 (.run 0 true) ++ List.replicate 3 (.run 1 true) ++
      List.replicate 2 (.run 0 true) ++ List.replicate 2 (.run 1 true))).map
        (fun m => (m.pc 0, m.pc 1)) =
      some (.returned 1 (some [2]), .returned 1 (some [2])) := by decide
  obtain ⟨m, hm, hpc⟩ := map_eq_some_iff.mp hrun
  exact ⟨m, reaches_of_exec hm, Prod.mk.inj hpc⟩

end GrowthSystem

end Pintos
