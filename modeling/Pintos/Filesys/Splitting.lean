import Mathlib.Data.List.DropRight
import Pintos.Filesys.Creation

/-! # Splitting a path

`split_path_parent_name` of `filesys/filesys.c` with its flag.  Both tests for slashes at the end of
the path look at the terminator, so that the flag does not matter (`splitPath_eq`): a path that ends
in a slash has an empty name, and the slash in front of the name belongs to neither part. -/

namespace Pintos.FileSys
open Bytes Option List

/-- The loop that goes back over the slashes at the end.  There is no result if it leaves the
path. -/
def endOfName (path : CString) : ℕ → Option ℕ
  | 0 => if region path 0 = slash then none else some 0
  | n + 1 => if region path (n + 1) = slash then endOfName path n else some (n + 1)

/-- `split_path_parent_name`: the parent and the name, if it returns true. -/
def splitPath (path : CString) (isDirectory : Bool) : Option (Option (CString × CString)) := do
  let n ← if isDirectory then endOfName path path.length else some path.length
  if ¬ isDirectory ∧ region path n = slash then return none
  if n = 0 then return none
  let n := endOfParent path n
  if n = 0 then
    let n := if region path 0 = slash then 1 else 0
    return some (path.take n, path.drop n)
  else return some (path.take n, path.drop (n + 1))

/-- The path is split into the last component, and the text in front of it.  Slashes at the end are
ignored for a directory, and refused for a file. -/
def SplitsAtName (path : CString) (isDirectory : Bool) : Prop :=
  let stripped := path.rdropWhile (· == slash)
  match splitPath path isDirectory with
  | none => False
  | some none => stripped = [] ∨ isDirectory = false ∧ stripped ≠ path
  | some (some (parent, name)) => (isDirectory = true ∨ stripped = path) ∧ name ≠ [] ∧
      slash ∉ name ∧ (∀ c ∈ parent.getLast?, c = slash) ∧ parent ++ name = stripped

variable {path name : CString}

theorem splitPath_eq (path : CString) (isDirectory : Bool) :
    splitPath path isDirectory = some (splitPathParentName path) := by
  have hend : region path path.length ≠ slash := by
    rw [region_of_length_le le_rfl]
    decide
  have hname : endOfName path path.length = some path.length := by
    cases hn : path.length with
    | zero => rw [endOfName, if_neg (hn ▸ hend)]
    | succ n => rw [endOfName, if_neg (hn ▸ hend)]
  simp only [splitPath, splitPathParentName, hname, bind_eq_bind, bind_some, hend,
    and_false, if_false]
  split_ifs <;> rfl

theorem rdropWhile_slash (hne : name ≠ []) (hsls : slash ∉ name) (parent : CString) :
    (parent ++ name).rdropWhile (· == slash) = parent ++ name := by
  rw [rdropWhile_eq_self_iff]
  intro h
  rw [getLast_append_of_ne_nil _ hne, beq_iff_eq]
  exact fun hs => hsls (hs ▸ getLast_mem hne)

/-- A path that does not end in a slash is split before its last component, and only the slash in
front of the component is left out. -/
theorem splitPath_spec (hne : path ≠ []) (isDirectory : Bool) :
    ∃ parent name, splitPath path isDirectory = some (some (parent, name)) ∧ slash ∉ name ∧
      (parent ≠ [] ∧ path = parent ++ slash :: name ∨
        parent = [slash] ∧ path = slash :: name ∨ parent = [] ∧ path = name) := by
  have hsome : ∃ r, splitPathParentName path = some r := by
    unfold splitPathParentName
    rw [if_neg (by simpa using hne)]
    dsimp only
    split_ifs <;> exact ⟨_, rfl⟩
  obtain ⟨⟨parent, name⟩, hr⟩ := hsome
  exact ⟨parent, name, by rw [splitPath_eq, hr], splitPathParentName_spec hr⟩

/-- The paths that are split as they should: those in which only the first character may be a slash,
if there is another one. -/
theorem splitsAtName_iff (path : CString) (isDirectory : Bool) :
    SplitsAtName path isDirectory ↔ path ≠ [slash] ∧ slash ∉ path.tail := by
  rcases eq_or_ne path [] with rfl | hne
  · simp only [SplitsAtName, splitPath_eq]
    exact iff_of_true (.inl rfl) (by decide)
  obtain ⟨parent, name, hspl, hsls, hpath⟩ := splitPath_spec hne isDirectory
  simp only [SplitsAtName, hspl]
  rcases hpath with ⟨hprn, rfl⟩ | ⟨rfl, rfl⟩ | ⟨rfl, rfl⟩
  · obtain ⟨c, parent, rfl⟩ := exists_cons_of_ne_nil hprn
    refine iff_of_false ?_ fun h => h.2 (by simp)
    rintro ⟨-, hname, -, -, hwhl⟩
    -- the name does not end in a slash, so that nothing is stripped
    rw [append_cons, rdropWhile_slash hname hsls] at hwhl
    simpa using congrArg length hwhl
  · simp only [tail_cons, hsls, not_false_eq_true, and_true, ne_eq, cons.injEq, true_and]
    constructor
    · exact fun h => h.2.1
    · intro hname
      have hall := rdropWhile_slash hname hsls [slash]
      exact ⟨.inr hall, hname, by simp, hall.symm⟩
  · have hall := rdropWhile_slash hne hsls []
    have htail : slash ∉ path.tail := fun h => hsls (mem_of_mem_tail h)
    refine iff_of_true ⟨.inr hall, hne, hsls, by simp, hall.symm⟩ ⟨?_, htail⟩
    rintro rfl
    simp at hsls

/-- A slash at the end of the path of a directory is not ignored. -/
theorem not_splitsAtName_trailing : ¬ SplitsAtName [97, slash] true ∧
    splitPath [97, slash] true = some (some ([97], [])) := by
  have hspl : splitPath [97, slash] true = some (some ([97], [])) := by decide
  exact ⟨by simp [SplitsAtName, hspl], hspl⟩

end Pintos.FileSys
