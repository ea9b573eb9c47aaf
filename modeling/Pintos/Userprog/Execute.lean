import Pintos.Userprog.Arguments

/-! # The name of the program

How the name of a program gets from `process_execute` of `userprog/process.c` to `load`.

* **The name.**  `process_execute` copies the command line up to its first space.  The new thread
  gets the copy as its name, which has room for 15 characters, and `load` opens the name.
* **The arguments.**  `setup_stack` gets the whole command line and splits it on its own.
* **Limits.**  `malloc` does not fail. -/

namespace Pintos.Userprog
open Bytes CStrings Walks Option List

/-- The size of `name` in `struct thread`. -/
def NAME_SIZE : ℕ := 16

/-- `strlcpy` to the array `dst`. -/
def strlcpyArray (fuel : ℕ) (dst src : ℕ → UInt8) (size : ℕ) : Option (ℕ → UInt8) :=
  (strlcpy Locals.writeCopy fuel 0 src 0 size (.fresh dst (fun _ => 0) fun _ => 0)).map
    (·.cmdlineCopy)

/-- `process_execute` up to the new thread: the command line that `load` is given, and the name of
the thread, which `load` opens.  The last arguments are what is in the arrays before. -/
def processExecute (fuel : ℕ) (fileName fnCopy execFn name : ℕ → UInt8) :
    Option ((ℕ → UInt8) × (ℕ → UInt8)) := do
  let fileNameLen := (← strlen fuel fileName 0) + 1
  let fnCopy ← strlcpyArray fuel fnCopy fileName fileNameLen
  let execFnLen ← skip (fun c => c != 0 && c != space) fnCopy fuel 0
  let execFn ← strlcpyArray fuel execFn fnCopy (execFnLen + 1)
  -- `init_thread`
  let name ← strlcpyArray fuel name execFn NAME_SIZE
  return (fnCopy, name)

section
variable {cmdline src : ℕ → UInt8} {cs : List UInt8} {fuel n : ℕ}

theorem strlcpyArray_eq (h : StringAt src 0 cs) (hfuel : cs.length < fuel) (dst : ℕ → UInt8) :
    ∃ dst', strlcpyArray fuel dst src (n + 1) = some dst' ∧ StringAt dst' 0 (cs.take n) := by
  have hfits : ∀ m ≤ cs.length, strlcpyArray fuel dst src (m + 1) =
      some (overwrite dst 0 (cs.take m ++ [0])) := by
    intro m hm
    rw [strlcpyArray, strlcpy_copy h hfuel hm]
    rfl
  have hsti : ∀ m, StringAt (overwrite dst 0 (cs.take m ++ [0])) 0 (cs.take m) := fun m =>
    stringAt_overwrite fun c hc => h.ne_zero c (mem_of_mem_take hc)
  rcases Nat.le_total n cs.length with hn | hn
  · exact ⟨_, hfits n hn, hsti n⟩
  · refine ⟨overwrite dst 0 (cs.take cs.length ++ [0]), ?_, ?_⟩
    · rw [← hfits _ le_rfl]
      simp [strlcpyArray, strlcpy, strlen_eq h hfuel, Nat.min_eq_right hn]
    · rw [take_of_length_le hn]
      simpa using hsti cs.length

/-- The name is what stands before the first space, as far as it fits. -/
theorem processExecute_eq (h : StringAt cmdline 0 cs) (hfuel : cs.length < fuel)
    (fnCopy execFn name : ℕ → UInt8) :
    ∃ fnCopy' name', processExecute fuel cmdline fnCopy execFn name = some (fnCopy', name') ∧
      StringAt fnCopy' 0 cs ∧ StringAt name' 0 ((cs.takeWhile (· != space)).take 15) := by
  have hall : cs.takeWhile (· != 0) = cs := by
    rw [takeWhile_eq_self_iff]
    exact fun c hc => by simpa using h.ne_zero c hc
  have hword : cs.takeWhile (fun c => c != 0 && c != space) = cs.takeWhile (· != space) := by
    conv_rhs => rw [← hall, takeWhile_takeWhile]
    congr 1
    funext c
    rw [Bool.eq_iff_iff]
    simp [and_comm]
  obtain ⟨fnCopy', hcopy, hfn⟩ := @strlcpyArray_eq _ _ _ cs.length h hfuel fnCopy
  rw [take_length] at hfn
  have hle := ( takeWhile_prefix (l := cs) (· != space)).length_le
  obtain ⟨execFn', hexec, hexe⟩ :=
    @strlcpyArray_eq _ _ _ (cs.takeWhile (· != space)).length hfn hfuel execFn
  rw [← prefix_iff_eq_take.mp ( takeWhile_prefix _)] at hexe
  obtain ⟨name', hname, hsti⟩ := @strlcpyArray_eq _ _ _ 15 hexe (hle.trans_lt hfuel) name
  refine ⟨fnCopy', name', ?_, hfn, hsti⟩
  simp only [processExecute, strlen_eq h hfuel, bind_eq_bind, bind_some, hcopy,
    skip_eq hfn (p := fun c => c != 0 && c != space) (by decide) hfuel, hword, zero_add, hexec,
    NAME_SIZE, hname]
  rfl

/-- When the program that `load` opens is the first word of the command line, and `argv[0]`. -/
theorem opens_first_word_iff (h : StringAt cmdline 0 cs) (hfuel : cs.length < fuel)
    (hne : ∃ c ∈ cs, c ≠ space) (fnCopy execFn name copy mem : ℕ → UInt8) (argPtrs : ℕ → ℕ)
    (esp : ℕ) :
    ∃ fnCopy' name' path esp' x',
      processExecute fuel cmdline fnCopy execFn name = some (fnCopy', name') ∧
      StringAt name' 0 path ∧
      setupStack fuel true fnCopy' esp (.fresh copy argPtrs mem) = some (true, esp', x') ∧
      ((components space cs).head? = some path ∧ StringAt x'.mem (argOf x'.mem esp' 0) path ↔
        cs.head? ≠ some space ∧ (cs.takeWhile (· != space)).length ≤ 15) := by
  obtain ⟨fnCopy', name', hexec, hfn, hname⟩ := processExecute_eq h hfuel fnCopy execFn name
  obtain ⟨esp', x', hstc, hlyt, -⟩ := setupStack_eq hfn hfuel esp copy argPtrs mem
  refine ⟨fnCopy', name', _, esp', x', hexec, hname, hstc, ?_⟩
  have hcs : cs ≠ [] := by
    rintro rfl
    simp at hne
  constructor
  · rintro ⟨hfir, -⟩
    have hhead : cs.head? ≠ some space := by
      intro hspc
      obtain ⟨c, cs, rfl⟩ := exists_cons_of_ne_nil hcs
      obtain rfl : c = space := by simpa using hspc
      have := (mem_filter.mp (mem_of_head? hfir)).2
      simp at this
    rw [components_takeWhile hcs hhead, head?_cons, some.injEq] at hfir
    exact ⟨hhead, by rw [hfir]; exact length_take_le _ _⟩
  · rintro ⟨hhead, hlen⟩
    have hshr := take_of_length_le hlen
    have hargs : components space (cs.take 128) =
        cs.takeWhile (· != space) :: components space ((cs.take 128).dropWhile (· != space)) := by
      rw [components_takeWhile (by simpa using hcs) (by rwa [head?_take]),
        ← take_takeWhile, take_of_length_le (hlen.trans (by decide))]
    rw [hshr, components_takeWhile hcs hhead]
    refine ⟨rfl, ?_⟩
    rw [hargs] at hlyt
    exact hlyt.argv 0 (Nat.succ_pos _)

/-- The array with the characters `cs`. -/
def arrayOf (cs : List UInt8) (i : ℕ) : UInt8 := cs.getD i 0

/-- `ls -l` opens `ls`. -/
theorem opens_first_word_ls : ∃ fnCopy' name' path esp' x',
    processExecute 8 (arrayOf [108, 115, 32, 45, 108]) (arrayOf []) (arrayOf []) (arrayOf []) =
      some (fnCopy', name') ∧ StringAt name' 0 path ∧
    setupStack 8 true fnCopy' 0 (.fresh (arrayOf []) (fun _ => 0) (arrayOf [])) =
      some (true, esp', x') ∧
    (components space [108, 115, 32, 45, 108]).head? = some path ∧
    StringAt x'.mem (argOf x'.mem esp' 0) path := by
  obtain ⟨fnCopy', name', path, esp', x', hexec, hname, hstc, hiff⟩ :=
    @opens_first_word_iff (arrayOf [108, 115, 32, 45, 108]) [108, 115, 32, 45, 108] 8
      (by decide) (by decide) ⟨108, by decide⟩ (arrayOf []) (arrayOf []) (arrayOf []) (arrayOf [])
      (arrayOf []) (fun _ => 0) 0
  exact ⟨fnCopy', name', path, esp', x', hexec, hname, hstc, hiff.mpr ⟨by decide, by decide⟩⟩

/-- With a space before `ls`, the name is empty. -/
theorem opens_nothing_after_space :
    (∃ fnCopy' name', processExecute 8 (arrayOf [32, 108, 115]) (arrayOf []) (arrayOf [])
      (arrayOf []) = some (fnCopy', name') ∧ StringAt name' 0 []) ∧
    components space [32, 108, 115] = [[108, 115]] := by
  refine ⟨?_, by decide⟩
  obtain ⟨fnCopy', name', hexec, -, hname⟩ := @processExecute_eq (arrayOf [32, 108, 115])
    [32, 108, 115] 8 (by decide) (by decide) (arrayOf []) (arrayOf []) (arrayOf [])
  exact ⟨fnCopy', name', hexec, hname⟩

end

end Pintos.Userprog
