import Mathlib.Data.List.Chain
import Mathlib.Data.List.Nodup
import Mathlib.Data.List.Infix
import Mathlib.Logic.Function.Basic

/-! # Intrusive doubly linked lists

A family of lists indexed by `L` whose elements are fields embedded in objects of type `E`.
Every list `l` has two header nodes, `head l` and `tail l`; an object `e` contributes the one
node `elem e`, which can therefore be in at most one list at a time.

* `Links` are the `prev` and `next` fields of all nodes.  A null pointer is `none`.
* `insertBefore` and `unlink` are the two pieces of pointer surgery.  `unlink` leaves the
  fields of the removed node alone, so a removed node keeps pointing at its old neighbours.
* `walk` follows `next` from the head of a list until it meets the tail of that list.
* `Represents h c` says that the links `h` lay out, for every `l`, exactly the sequence `c l`.
  `Represents.insertBefore` and `Represents.unlink` say how the two operations act on the
  sequences, and `Represents.unlink_stale` says when unlinking a node that is in no list is
  harmless. -/

namespace Intrusive
open List Function

/-- A list node: one of the two headers of `l`, or the node embedded in `e`. -/
inductive Node (L E : Type) where
  | head (l : L)
  | tail (l : L)
  | elem (e : E)
deriving DecidableEq, Repr

/-- The link fields of all nodes. -/
structure Links (L E : Type) where
  prev : Node L E → Option (Node L E)
  next : Node L E → Option (Node L E)

variable {L E : Type}

namespace Links

section operations
variable [DecidableEq L] [DecidableEq E]

/-- Store `y` in the `prev` field of `x`. -/
def setPrev (h : Links L E) (x : Node L E) (y : Option (Node L E)) : Links L E :=
  { h with prev := Function.update h.prev x y }

/-- Store `y` in the `next` field of `x`. -/
def setNext (h : Links L E) (x : Node L E) (y : Option (Node L E)) : Links L E :=
  { h with next := Function.update h.next x y }

@[simp] theorem setPrev_prev (h : Links L E) (x y) :
    (h.setPrev x y).prev = update h.prev x y := rfl

@[simp] theorem setPrev_next (h : Links L E) (x y) : (h.setPrev x y).next = h.next := rfl

@[simp] theorem setNext_next (h : Links L E) (x y) :
    (h.setNext x y).next = update h.next x y := rfl

@[simp] theorem setNext_prev (h : Links L E) (x y) : (h.setNext x y).prev = h.prev := rfl

/-- Link `x` in just before `y`, whose predecessor is `p`. -/
def insertBefore (h : Links L E) (p y x : Node L E) : Links L E :=
  (((h.setPrev x (some p)).setNext x (some y)).setNext p (some x)).setPrev y (some x)

/-- Make `p` and `n` neighbours. -/
def unlink (h : Links L E) (p n : Node L E) : Links L E :=
  (h.setNext p (some n)).setPrev n (some p)

/-- The objects met from node `x` on until the tail of `l`; `none` when the walk leaves the
list or does not end within the fuel. -/
def walkFrom (h : Links L E) (l : L) : ℕ → Node L E → Option (List E)
  | 0, _ => none
  | n + 1, x =>
    if x = .tail l then some []
    else match x with
      | .elem e => (h.next x).bind fun y => (h.walkFrom l n y).map (e :: ·)
      | _ => none

/-- The objects met when walking list `l` from its head. -/
def walk (h : Links L E) (fuel : ℕ) (l : L) : Option (List E) :=
  (h.next (.head l)).bind (h.walkFrom l fuel)

end operations

/-- `b` follows `a`, and both nodes know it. -/
def Adj (h : Links L E) (a b : Node L E) : Prop := h.next a = some b ∧ h.prev b = some a

end Links

/-- The nodes of a list with contents `xs`, headers included. -/
def ring (l : L) (xs : List E) : List (Node L E) := .head l :: (xs.map .elem ++ [.tail l])

/-- The links lay out the sequence `c l` between the headers of every list `l`, and no object
is in two places. -/
structure Represents (h : Links L E) (c : L → List E) : Prop where
  chain : ∀ l, (ring l (c l)).IsChain h.Adj
  nodup : ∀ l, (c l).Nodup
  disjoint : ∀ {l l' e}, e ∈ c l → e ∈ c l' → l = l'

/-- A node that is part of some list: a header, or the node of a listed object. -/
def Live (c : L → List E) : Node L E → Prop
  | .head _ => True
  | .tail _ => True
  | .elem e => ∃ l, e ∈ c l

theorem mem_ring_elem : Node.elem e ∈ ring l xs ↔ e ∈ xs := by
  simp [ring]

theorem live_of_mem_ring (h : x ∈ ring l (c l)) : Live c x := by
  cases x with
  | head | tail => trivial
  | elem e => exact ⟨l, mem_ring_elem.mp h⟩

theorem ring_nodup {l : L} (h : xs.Nodup) : (ring l xs).Nodup := by
  have hm : (xs.map (Node.elem (L := L))).Nodup := h.map fun a b hab => by simpa using hab
  simp [ring, nodup_append, hm]

/-- Along a ring, a link never starts at a tail and never ends at a head. -/
theorem ring_isChain_imp {R S : Node L E → Node L E → Prop}
    (himp : ∀ a ∈ ring l xs, ∀ b ∈ ring l xs, (∀ l', a ≠ .tail l') → (∀ l', b ≠ .head l') →
      R a b → S a b) (hc : (ring l xs).IsChain R) : (ring l xs).IsChain S := by
  rw [isChain_iff_getElem] at hc ⊢
  intro i hi
  refine himp _ (getElem_mem _) _ (getElem_mem _) ?_ ?_ (hc i hi)
  · simp only [ring, length_cons, length_append, length_map, length_nil] at hi
    cases i with
    | zero => simp [ring]
    | succ i => simp [ring, getElem_append_left (show i < (xs.map _).length by simp; omega)]
  · simp only [ring, getElem_cons_succ]
    rw [getElem_append]
    split_ifs <;> simp

namespace Represents

variable {h : Links L E} {c : L → List E}

theorem ring_nodup (hr : Represents h c) (l : L) : (ring l (c l)).Nodup :=
  Intrusive.ring_nodup (hr.nodup l)

/-- A list is empty when its headers point at each other. -/
theorem eq_nil (hr : Represents h c) (he : h.next (.head l) = some (.tail l)) : c l = [] := by
  cases hc : c l with
  | nil => rfl
  | cons x xs =>
    have hch := hr.chain l
    rw [hc, ring] at hch
    have hadj := (isChain_cons_cons.mp hch).1
    rw [hadj.1] at he
    simp at he

/-- Links that agree on the live nodes represent the same sequences.  The outer fields of the
headers do not matter. -/
theorem congr (hr : Represents h c) (hn : ∀ x, Live c x → (∀ l, x ≠ .tail l) → h'.next x = h.next x)
    (hp : ∀ x, Live c x → (∀ l, x ≠ .head l) → h'.prev x = h.prev x) : Represents h' c := by
  refine ⟨fun l => ?_, hr.nodup, hr.disjoint⟩
  refine ring_isChain_imp (fun a ha b hb hat hbh hab => ?_) (hr.chain l)
  exact ⟨(hn a (live_of_mem_ring ha) hat).trans hab.1, (hp b (live_of_mem_ring hb) hbh).trans hab.2⟩

section update
variable [DecidableEq L]

/-- Replacing the contents of one list: the other lists keep their links. -/
theorem update (hr : Represents h c) {h' : Links L E} {l : L} {xs : List E}
    (hc : (ring l xs).IsChain h'.Adj) (hnd : xs.Nodup) (hdisj : ∀ e ∈ xs, ∀ l', e ∈ c l' → l' = l)
    (hoth : ∀ l', l' ≠ l → (ring l' (c l')).IsChain h'.Adj) : Represents h' (update c l xs) := by
  refine ⟨fun l' => ?_, fun l' => ?_, ?_⟩
  · by_cases e : l' = l
    · subst e; simpa using hc
    · simpa [update_of_ne e] using hoth l' e
  · by_cases e : l' = l
    · subst e; simpa using hnd
    · simpa [update_of_ne e] using hr.nodup l'
  · intro l1 l2 e h1 h2
    by_cases e1 : l1 = l <;> by_cases e2 : l2 = l
    · rw [e1, e2]
    · subst e1
      rw [update_self] at h1
      rw [update_of_ne e2] at h2
      exact absurd (hdisj e h1 l2 h2) e2
    · subst e2
      rw [update_self] at h2
      rw [update_of_ne e1] at h1
      exact absurd (hdisj e h2 l1 h1) e1
    · rw [update_of_ne e1] at h1
      rw [update_of_ne e2] at h2
      exact hr.disjoint h1 h2

end update

variable [DecidableEq L] [DecidableEq E]

/-- Linking an unlisted object in just before the tail appends it to the list. -/
theorem pushBack (hr : Represents h c) (l : L) (hfrs : ∀ l', e ∉ c l') :
    ∃ p, h.prev (.tail l) = some p ∧
      Represents (h.insertBefore p (.tail l) (.elem e)) (Function.update c l (c l ++ [e])) := by
  obtain ⟨A, p, hA⟩ : ∃ A p, (Node.head l :: (c l).map .elem : List (Node L E)) = A ++ [p] :=
    ⟨_, _, (dropLast_append_getLast (cons_ne_nil _ _)).symm⟩
  have hspl : ring l (c l) = A ++ p :: .tail l :: [] := by
    rw [ring, ← cons_append, hA]; simp
  have hring : ring l (c l ++ [e]) = A ++ p :: .elem e :: [.tail l] := by
    rw [ring, map_append, append_assoc, ← cons_append, hA]; simp
  have hch := hr.chain l
  rw [hspl] at hch
  obtain ⟨hAp, hpt, -⟩ := isChain_append_cons_cons.mp hch
  have hmem : ∀ x ∈ A ++ [p], x ∈ ring l (c l) ∧ x ≠ .tail l := by
    intro x hx
    rw [← hA] at hx
    refine ⟨by rw [ring]; exact mem_append_left _ hx, ?_⟩
    rintro rfl
    simp at hx
  have hne : ∀ l' x, x ∈ ring l' (c l') → x ≠ .elem e := by
    rintro l' x hx rfl
    exact hfrs l' (mem_ring_elem.mp hx)
  have hp := hmem p (by simp)
  have hpe := hne l p hp.1
  -- a link between two old nodes survives unless it is the one into the tail
  have keep : ∀ a b, a ≠ .elem e → b ≠ .elem e → b ≠ .tail l → h.Adj a b →
      (h.insertBefore p (.tail l) (.elem e)).Adj a b := by
    intro a b ha hb hbt hab
    have hap : a ≠ p := by
      rintro rfl
      exact hbt (by simpa [hpt.1] using hab.1.symm)
    simp [Links.Adj, Links.insertBefore, ha, hap, hb, hbt, hab.1, hab.2]
  refine ⟨p, hpt.2, hr.update ?_ ?_ ?_ ?_⟩
  · rw [hring]
    refine isChain_append_cons_cons.mpr ⟨?_, ?_, isChain_pair.mpr ?_⟩
    · refine List.IsChain.imp_of_mem_imp (fun a b ha hb hab => ?_) hAp
      exact keep a b (hne l a (hmem a ha).1) (hne l b (hmem b hb).1) (hmem b hb).2 hab
    · simp [Links.Adj, Links.insertBefore]
    · simp [Links.Adj, Links.insertBefore, hpe.symm]
  · exact nodup_append.mpr ⟨hr.nodup l, by simp, fun a ha b hb hab =>
      hfrs l (by simp at hb; rwa [← hb, ← hab])⟩
  · intro e' he' l' hl'
    rcases mem_append.mp he' with hx | hx
    · exact hr.disjoint hl' hx
    · exact absurd (mem_singleton.mp hx ▸ hl') (hfrs l')
  · intro l' hl'
    refine List.IsChain.imp_of_mem_imp (fun a b ha hb hab => ?_) (hr.chain l')
    refine keep a b (hne l' a ha) (hne l' b hb) ?_ hab
    rintro rfl
    exact hl' (by simpa [ring, eq_comm] using hb)

/-- Unlinking a listed object removes it from its list. -/
theorem unlink (hr : Represents h c) {l : L} {e : E} (he : e ∈ c l) :
    ∃ p n, h.prev (.elem e) = some p ∧ h.next (.elem e) = some n ∧
      Represents (h.unlink p n) (Function.update c l ((c l).erase e)) := by
  obtain ⟨xs, ys, hc⟩ := append_of_mem he
  have hxs : e ∉ xs := by
    have := hr.nodup l
    rw [hc, nodup_append] at this
    exact fun hm => this.2.2 e hm e (by simp) rfl
  obtain ⟨A, p, hA⟩ : ∃ A p, (Node.head l :: xs.map .elem : List (Node L E)) = A ++ [p] :=
    ⟨_, _, (dropLast_append_getLast (cons_ne_nil _ _)).symm⟩
  obtain ⟨n, B, hB⟩ : ∃ n B, (ys.map .elem ++ [.tail l] : List (Node L E)) = n :: B :=
    exists_cons_of_ne_nil (by simp)
  have hspl : ring l (c l) = A ++ p :: .elem e :: n :: B := by
    rw [ring, hc, map_append, map_cons, append_assoc, cons_append, hB, ← cons_append, hA]
    simp
  have hring : ring l ((c l).erase e) = A ++ p :: n :: B := by
    rw [ring, hc, erase_append_right _ hxs, erase_cons_head, map_append,
      append_assoc, hB, ← cons_append, hA]
    simp
  have hch := hr.chain l
  have hnd := hr.ring_nodup l
  rw [hspl] at hch hnd
  obtain ⟨hAp, hpe, hBn⟩ := isChain_append_cons_cons.mp hch
  obtain ⟨hen, hBn⟩ := isChain_cons_cons.mp hBn
  have hmem : ∀ x ∈ A ++ p :: n :: B, x ∈ ring l (c l) ∧ x ≠ .elem e := by
    intro x hx
    refine ⟨by rw [hspl]; simp at hx ⊢; tauto, ?_⟩
    rintro rfl
    have hnd' : (A ++ [p] ++ .elem e :: n :: B).Nodup := by simpa using hnd
    exact (nodup_cons.mp (nodup_middle.mp hnd')).1 (by simpa using hx)
  -- a link that does not touch the removed node survives
  have keep : ∀ a b, a ≠ .elem e → b ≠ .elem e → h.Adj a b → (h.unlink p n).Adj a b := by
    intro a b ha hb hab
    have hap : a ≠ p := by
      rintro rfl
      exact hb (by simpa [hpe.1] using hab.1.symm)
    have hbn : b ≠ n := by
      rintro rfl
      exact ha (by simpa [hen.2] using hab.2.symm)
    simp [Links.Adj, Links.unlink, hap, hbn, hab.1, hab.2]
  have hkeep : ∀ r : List (Node L E), (∀ x ∈ r, x ≠ .elem e) → r.IsChain h.Adj →
      r.IsChain (h.unlink p n).Adj := fun r hr' hc' =>
    List.IsChain.imp_of_mem_imp (fun a b ha hb hab => keep a b (hr' a ha) (hr' b hb) hab) hc'
  refine ⟨p, n, hpe.2, hen.1, hr.update ?_ ((hr.nodup l).erase e) ?_ ?_⟩
  · rw [hring]
    refine isChain_append_cons_cons.mpr ⟨?_, ?_, ?_⟩
    · exact hkeep _ (fun x hx => (hmem x (by simp at hx ⊢; tauto)).2) hAp
    · simp [Links.Adj, Links.unlink]
    · exact hkeep _ (fun x hx => (hmem x (by simp at hx ⊢; tauto)).2) hBn
  · exact fun e' he' l' hl' => hr.disjoint hl' (mem_of_mem_erase he')
  · intro l' hl'
    refine hkeep _ (fun x hx => ?_) (hr.chain l')
    rintro rfl
    exact hl' (hr.disjoint (mem_ring_elem.mp hx) he)

/-- Unlinking through stale pointers changes no list when each of the two old neighbours that
is still live has the other one beside it. -/
theorem unlink_stale (hr : Represents h c) (hp : Live c p → h.next p = some n)
    (hn : Live c n → h.prev n = some p) : Represents (h.unlink p n) c := by
  refine hr.congr (fun x hx _ => ?_) (fun x hx _ => ?_)
  · by_cases e : x = p
    · subst e; simp [Links.unlink, hp hx]
    · simp [Links.unlink, e]
  · by_cases e : x = n
    · subst e; simp [Links.unlink, hn hx]
    · simp [Links.unlink, e]

/-! ### Walking a represented list -/

theorem walkFrom_of_chain (hx : x :: r = xs.map .elem ++ [.tail l]) (hc : (x :: r).IsChain h.Adj) :
    ∀ {fuel : ℕ}, xs.length < fuel → h.walkFrom l fuel x = some xs := by
  induction xs generalizing x r with
  | nil =>
    intro fuel hf
    obtain ⟨fuel, rfl⟩ : ∃ n, fuel = n + 1 := ⟨fuel - 1, by simp at hf; omega⟩
    simp only [map_nil, nil_append, cons.injEq] at hx
    simp [Links.walkFrom, hx.1]
  | cons e xs ih =>
    intro fuel hf
    obtain ⟨fuel, rfl⟩ : ∃ n, fuel = n + 1 := ⟨fuel - 1, by simp at hf; omega⟩
    simp only [map_cons, cons_append] at hx
    obtain ⟨rfl, rfl⟩ := hx
    obtain ⟨y, r, hr⟩ : ∃ y r, (xs.map .elem ++ [.tail l] : List (Node L E)) = y :: r :=
      exists_cons_of_ne_nil (by simp)
    rw [hr] at hc
    obtain ⟨hadj, hc⟩ := isChain_cons_cons.mp hc
    have hlen : xs.length < fuel := by simp at hf; omega
    simp [Links.walkFrom, hadj.1, ih hr.symm hc hlen]

/-- Walking a represented list meets its contents in order, and ends. -/
theorem walk (hr : Represents h c) (l : L) (hf : (c l).length < fuel) :
    h.walk fuel l = some (c l) := by
  obtain ⟨y, r, hy⟩ : ∃ y r, ((c l).map .elem ++ [.tail l] : List (Node L E)) = y :: r :=
    exists_cons_of_ne_nil (by simp)
  have hch := hr.chain l
  rw [ring, hy] at hch
  obtain ⟨hadj, hch⟩ := isChain_cons_cons.mp hch
  simp [Links.walk, hadj.1, walkFrom_of_chain hy.symm hch hf]

end Represents

end Intrusive
