import Pintos.Lib.Intrusive

/-! # `lib/kernel/list.c`

The list operations of the kernel on the links of `Intrusive`.  A failed `ASSERT`, a null
dereference and a traversal that leaves its list are all `none`: after either the kernel does
not come back to its caller. -/

namespace Pintos
open Intrusive Option List

variable {L E : Type}

/-- `is_interior`: both link fields are set.  This is all the kernel can test; it is also true
of a node that has been removed. -/
def isInterior (h : Links L E) (x : Node L E) : Bool := (h.prev x).isSome && (h.next x).isSome

section operations
variable [DecidableEq L] [DecidableEq E]

/-- `list_init`. -/
def listInit (h : Links L E) (l : L) : Links L E :=
  (((h.setPrev (.head l) none).setNext (.head l) (some (.tail l))).setPrev (.tail l)
    (some (.head l))).setNext (.tail l) none

/-- `list_insert`: `before` must be an interior element or a tail. -/
def listInsert (h : Links L E) (before x : Node L E) : Option (Links L E) :=
  (h.prev before).map fun p => h.insertBefore p before x

/-- `list_push_back`. -/
def listPushBack (h : Links L E) (l : L) (e : E) : Option (Links L E) :=
  listInsert h (.tail l) (.elem e)

/-- `list_remove`: the neighbours are relinked, the removed element keeps its own fields. -/
def listRemove (h : Links L E) (x : Node L E) : Option (Links L E) :=
  (h.prev x).bind fun p => (h.next x).map fun n => h.unlink p n

/-- The loop of `list_max` over the elements `xs` after the first one: a later element replaces
the maximum only if it is strictly larger. -/
def maxLoop (key : E → ℤ) (max : E) (xs : List E) : E :=
  xs.foldl (fun m e => if key m < key e then e else m) max

/-- `list_max` on the elements of a list; `none` stands for the tail of an empty list. -/
def listMax (key : E → ℤ) : List E → Option E
  | [] => none
  | x :: xs => some (maxLoop key x xs)

end operations

theorem maxLoop_mem (key : E → ℤ) (x : E) (xs : List E) : maxLoop key x xs ∈ x :: xs := by
  induction xs generalizing x with
  | nil => simp [maxLoop]
  | cons y ys ih =>
    have h := ih (if key x < key y then y else x)
    simp only [maxLoop, foldl_cons] at h ⊢
    split_ifs at h ⊢
    · exact mem_cons_of_mem _ h
    · rcases mem_cons.mp h with h | h
      · rw [h]
        exact mem_cons_self
      · exact mem_cons_of_mem _ (mem_cons_of_mem _ h)

theorem listMax_mem (h : listMax key xs = some m) : m ∈ xs := by
  cases xs with
  | nil => simp [listMax] at h
  | cons x xs =>
    simp only [listMax, some.injEq] at h
    exact h ▸ maxLoop_mem key x xs

theorem le_maxLoop (key : E → ℤ) (x : E) (xs : List E) :
    ∀ y ∈ x :: xs, key y ≤ key (maxLoop key x xs) := by
  induction xs generalizing x with
  | nil => simp [maxLoop]
  | cons z zs ih =>
    have h := ih (if key x < key z then z else x)
    simp only [maxLoop, foldl_cons, mem_cons, forall_eq_or_imp] at h ⊢
    obtain ⟨hmax, hrest⟩ := h
    refine ⟨?_, ?_, hrest⟩
    · split_ifs at hmax ⊢ with hlt
      · exact Int.le_trans (Int.le_of_lt hlt) hmax
      · exact hmax
    · split_ifs at hmax ⊢ with hlt
      · exact hmax
      · exact Int.le_trans (Int.not_lt.mp hlt) hmax

theorem le_listMax (h : listMax key xs = some m) (hx : x ∈ xs) : key x ≤ key m := by
  cases xs with
  | nil => simp at hx
  | cons y ys =>
    simp only [listMax, some.injEq] at h
    exact h ▸ le_maxLoop key y ys x hx

section operations
variable [DecidableEq L] [DecidableEq E] {h h' : Links L E}

/-- Removing an element once more at once changes nothing: its neighbours are neighbours. -/
theorem listRemove_again (hp : listRemove h x = some h') : listRemove h' x = some h' := by
  simp only [listRemove, bind_eq_some_iff, map_eq_some_iff] at hp
  obtain ⟨p, hprev, n, hnext, rfl⟩ := hp
  have hprev' : (h.unlink p n).prev x = some p := by
    by_cases e : x = n
    · simp [Links.unlink, e]
    · simpa [Links.unlink, e] using hprev
  have hnext' : (h.unlink p n).next x = some n := by
    by_cases e : x = p
    · simp [Links.unlink, e]
    · simpa [Links.unlink, e] using hnext
  simp only [listRemove, hprev', hnext']
  simp [Links.unlink, Links.setPrev]

end operations

section represents
variable [DecidableEq L] [DecidableEq E] {h h' : Links L E} {c : L → List E}

theorem represents_listInit (hr : Represents h c) (hl : c l = []) :
    Represents (listInit h l) c := by
  have hadj : h.Adj (.head l) (.tail l) := by
    have := hr.chain l
    rw [hl] at this
    exact isChain_pair.mp this
  refine hr.congr (fun x _ hx => ?_) (fun x _ hx => ?_)
  · by_cases e : x = .head l
    · subst e; simp [listInit, hadj.1]
    · simp [listInit, hx l, e]
  · by_cases e : x = .tail l
    · subst e; simp [listInit, hadj.2]
    · simp [listInit, hx l, e]

theorem represents_listPushBack (hr : Represents h c) (hfrs : ∀ l', e ∉ c l')
    (hp : listPushBack h l e = some h') : Represents h' (Function.update c l (c l ++ [e])) := by
  obtain ⟨p, hprev, hr'⟩ := hr.pushBack l hfrs
  simp only [listPushBack, listInsert, hprev, map_some, some.injEq] at hp
  exact hp ▸ hr'

theorem represents_listRemove (hr : Represents h c) (he : e ∈ c l)
    (hp : listRemove h (.elem e) = some h') :
    Represents h' (Function.update c l ((c l).erase e)) := by
  obtain ⟨p, n, hprev, hnext, hr'⟩ := hr.unlink he
  simp only [listRemove, hprev, hnext, bind_some, map_some, some.injEq] at hp
  exact hp ▸ hr'

/-- Removing an element that is in no list changes no list if its old neighbours, as far as they
are still listed, are still side by side. -/
theorem represents_listRemove_stale (hr : Represents h c)
    (hs : ∀ p n, h.prev x = some p → h.next x = some n →
      (Live c p → h.next p = some n) ∧ (Live c n → h.prev n = some p))
    (hp : listRemove h x = some h') : Represents h' c := by
  simp only [listRemove, bind_eq_some_iff, map_eq_some_iff] at hp
  obtain ⟨p, hprev, n, hnext, rfl⟩ := hp
  exact hr.unlink_stale (hs p n hprev hnext).1 (hs p n hprev hnext).2

end represents

end Pintos
