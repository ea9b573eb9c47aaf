import Mathlib.Algebra.Order.BigOperators.Group.List
import Mathlib.Algebra.Order.Group.Nat
import Mathlib.Algebra.Ring.Nat
import Mathlib.Data.List.TakeWhile

/-! # Paths and walks

A path is a list of characters with separators; its components are the non-empty parts between
them.  A walk follows the components from node to node, where `child` says which node a name leads
to.  A walk that gets stuck has come as far as `lastReached`. -/

namespace Walks
open List

/-! ### Components -/

section
variable {α : Type*} [DecidableEq α] {sep : α} {path name rest : List α}

/-- The non-empty parts between separators. -/
def components (sep : α) (path : List α) : List (List α) :=
  (path.splitOnP (· == sep)).filter (· ≠ [])

@[simp] theorem components_nil : components sep [] = [] := by
  simp [components]

@[simp] theorem components_cons_self : components sep (sep :: path) = components sep path := by
  simp [components, splitOnP_cons_eq_if_modifyHead]

/-- A separator separates. -/
theorem components_append_cons :
    components sep (path ++ sep :: rest) = components sep path ++ components sep rest := by
  rw [components, splitOnP_append_cons _ _ (by simp), filter_append]
  rfl

theorem components_eq_singleton (hname : ∀ c ∈ name, c ≠ sep) (hne : name ≠ []) :
    components sep name = [name] := by
  rw [components, splitOnP_eq_singleton fun c hc => by simpa using hname c hc]
  simp [hne]

theorem components_dropWhile :
    components sep (path.dropWhile (· == sep)) = components sep path := by
  induction path with
  | nil => rfl
  | cons c path ih =>
    by_cases hc : c = sep
    · rw [hc, dropWhile_cons_of_pos (by simp), ih, components_cons_self]
    · rw [dropWhile_cons_of_neg (by simpa using hc)]

/-- A name up to the end or the next separator is the first component. -/
theorem components_append (hname : ∀ c ∈ name, c ≠ sep) (hne : name ≠ [])
    (hrest : rest = [] ∨ ∃ rest', rest = sep :: rest') :
    components sep (name ++ rest) = name :: components sep rest := by
  rcases hrest with rfl | ⟨rest', rfl⟩
  · rw [append_nil, components_eq_singleton hname hne, components_nil]
  · rw [components_append_cons, components_cons_self, components_eq_singleton hname hne]
    rfl

/-- How the next component is cut off a path that does not start with a separator. -/
theorem components_takeWhile (hne : path ≠ []) (hhead : path.head? ≠ some sep) :
    components sep path =
      path.takeWhile (· != sep) :: components sep (path.dropWhile (· != sep)) := by
  have hname : path.takeWhile (· != sep) ≠ [] := by
    cases path with
    | nil => exact absurd rfl hne
    | cons c path =>
      have hc : c ≠ sep := fun h => hhead (by rw [h]; rfl)
      simp [hc]
  have hrest : path.dropWhile (· != sep) = [] ∨
      ∃ rest, path.dropWhile (· != sep) = sep :: rest := by
    cases hd : path.dropWhile (· != sep) with
    | nil => exact .inl rfl
    | cons c rest =>
      have hc := head?_dropWhile_not (· != sep) path
      rw [hd] at hc
      simp only [bne_eq_false_iff_eq] at hc
      exact .inr ⟨rest, by rw [hc]⟩
  have happ := @components_append _ _ sep _ _ (fun c hc => by simpa using mem_takeWhile_imp hc)
    hname hrest
  rwa [takeWhile_append_dropWhile] at happ

theorem head?_dropWhile_ne : (path.dropWhile (· == sep)).head? ≠ some sep := by
  intro h
  have hc := head?_dropWhile_not (· == sep) path
  rw [h] at hc
  simp at hc

/-- The components fit into the path, each with one character more, if the path has one more. -/
theorem sum_length_components_le :
    ((components sep path).map fun c => c.length + 1).sum ≤ path.length + 1 := by
  have hspl : ((path.splitOnP (· == sep)).map fun c => c.length + 1).sum = path.length + 1 := by
    induction path with
    | nil => simp
    | cons c path ih =>
      rw [splitOnP_cons_eq_if_modifyHead]
      split_ifs
      · rw [map_cons, sum_cons, length_cons, length_nil]
        omega
      · cases hs : path.splitOnP (· == sep) with
        | nil => exact absurd hs (splitOnP_ne_nil _ _)
        | cons d ds =>
          rw [hs, map_cons, sum_cons] at ih
          rw [modifyHead_cons, map_cons, sum_cons, length_cons, length_cons]
          omega
  rw [← hspl]
  exact (filter_sublist.map _).sum_le_sum fun _ _ => Nat.zero_le _

theorem two_mul_length_components_le : 2 * (components sep path).length ≤ path.length + 1 := by
  have hpos : ∀ c ∈ components sep path, 0 < c.length := fun c hc =>
    length_pos_iff.mpr (by simpa using (mem_filter.mp hc).2)
  have hsum : 2 * (components sep path).length ≤
      ((components sep path).map fun c => c.length + 1).sum := by
    generalize components sep path = cs at hpos
    induction cs with
    | nil => rfl
    | cons c cs ih =>
      have hc := hpos c (by simp)
      have hcs := ih fun d hd => hpos d (by simp [hd])
      rw [length_cons, map_cons, sum_cons]
      omega
  exact hsum.trans sum_length_components_le

end

/-! ### Walks -/

section
variable {σ κ : Type*} (child : σ → κ → Option σ) {s t : σ} {c : κ} {cs : List κ}

/-- Follow the names one after the other. -/
def walk (s : σ) : List κ → Option σ
  | [] => some s
  | c :: cs => match child s c with
      | none => none
      | some s' => walk s' cs

/-- The node at which a walk ends or gets stuck. -/
def lastReached (s : σ) : List κ → σ
  | [] => s
  | c :: cs => match child s c with
      | none => s
      | some s' => lastReached s' cs

/-- The nodes that a walk comes to, with the first one. -/
def passed (s : σ) : List κ → List σ
  | [] => [s]
  | c :: cs => s :: match child s c with
      | none => []
      | some s' => passed s' cs

variable {child}

theorem passed_eq_cons (child : σ → κ → Option σ) (s : σ) (cs : List κ) :
    passed child s cs = s :: (passed child s cs).tail := by
  cases cs <;> rfl

theorem lastReached_of_walk (h : walk child s cs = some t) : lastReached child s cs = t := by
  induction cs generalizing s with
  | nil => exact Option.some.inj h
  | cons c cs ih =>
    unfold walk at h
    unfold lastReached
    cases hc : child s c with
    | none => simp [hc] at h
    | some s' =>
      rw [hc] at h
      exact ih h

section
variable {child' : σ → κ → Option σ} {S : σ → Prop}

section
variable (hS : ∀ s c t, S s → child s c = some t → S t)
include hS

/-- A walk that starts in `S` does not leave it. -/
theorem lastReached_mem (hs : S s) : S (lastReached child s cs) := by
  induction cs generalizing s with
  | nil => exact hs
  | cons c cs ih =>
    unfold lastReached
    cases hc : child s c with
    | none => exact hs
    | some t => exact ih (hS s c t hs hc)

theorem passed_mem (hs : S s) : ∀ t ∈ passed child s cs, S t := by
  induction cs generalizing s with
  | nil => simpa [passed] using hs
  | cons c cs ih =>
    unfold passed
    cases hc : child s c with
    | none => simpa using hs
    | some t => exact forall_mem_cons.mpr ⟨hs, ih (hS s c t hs hc)⟩

section
variable (heq : ∀ s c, S s → child' s c = child s c) (hs : S s)
include heq hs

/-- Two graphs that are the same in `S` have the same walks there. -/
theorem lastReached_congr :
    lastReached child' s cs = lastReached child s cs := by
  induction cs generalizing s with
  | nil => rfl
  | cons c cs ih =>
    unfold lastReached
    rw [heq s c hs]
    cases hc : child s c with
    | none => rfl
    | some t => exact ih (hS s c t hs hc)

theorem passed_congr :
    passed child' s cs = passed child s cs := by
  induction cs generalizing s with
  | nil => rfl
  | cons c cs ih =>
    unfold passed
    rw [heq s c hs]
    cases hc : child s c with
    | none => rfl
    | some t => exact congrArg _ (ih (hS s c t hs hc))

end

end

end

end

end Walks
