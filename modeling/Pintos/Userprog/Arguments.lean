import Pintos.Lib.CStrings
import Pintos.Lib.Walks
import Pintos.Userprog.Pointers

/-! # Passing arguments

`setup_stack` of `userprog/process.c`, with the functions of `lib/string.c` that it uses.

* **Memory.**  The command line, its copy and the memory of the process are regions of bytes; the
  pointers of the process are numbers below `2 ^ 32`.  A loop that looks for the end of a string has
  fuel, and there is no result if it runs out.
* **Local arrays.**  `cmdline_copy` and `arg_ptrs` have `cmdline_len` elements each.  They are
  unbounded here, and `writes` says which elements have been written.
* **The stack.**  The strings are pushed first, then the pointers to them, from the last one to the
  first, and then `argv`, `argc` and a return address. -/

namespace Pintos.Userprog
open Bytes CStrings Vm Walks Function Option List

/-! ### Local variables -/

/-- Where `setup_stack` writes. -/
inductive Target where
  | cmdlineCopy
  | argPtrs
  | user
deriving DecidableEq, Repr

/-- The elements from `start` on are written. -/
structure Write where
  target : Target
  start : ℕ
  length : ℕ
deriving DecidableEq, Repr

/-- The arrays of `setup_stack`, and the memory of the process. -/
structure Locals where
  cmdlineLen : ℕ
  cmdlineCopy : ℕ → UInt8
  argPtrs : ℕ → ℕ
  mem : ℕ → UInt8
  writes : List Write

namespace Locals

def writeCopy (start : ℕ) (bytes : List UInt8) (x : Locals) : Locals :=
  { x with
    cmdlineCopy := overwrite x.cmdlineCopy start bytes
    writes := x.writes ++ [⟨.cmdlineCopy, start, bytes.length⟩] }

def writeUser (start : ℕ) (bytes : List UInt8) (x : Locals) : Locals :=
  { x with
    mem := overwrite x.mem start bytes
    writes := x.writes ++ [⟨.user, start, bytes.length⟩] }

def setArgPtr (index p : ℕ) (x : Locals) : Locals :=
  { x with
    argPtrs := update x.argPtrs index p
    writes := x.writes ++ [⟨.argPtrs, index, 1⟩] }

end Locals

/-! ### Strings -/

def space : UInt8 := 32

/-- Whether `strchr` finds `c` in the string; the null byte at the end is found as well. -/
def strchr (string : List UInt8) (c : UInt8) : Bool := string.contains c || c == 0

def strlen (fuel : ℕ) (string : ℕ → UInt8) (p : ℕ) : Option ℕ :=
  (skip (· != 0) string fuel p).map (· - p)

/-- The loop of `strnlen`, which makes at most `left` more rounds. -/
def strnlenFrom (string : ℕ → UInt8) (length : ℕ) : (left : ℕ) → ℕ
  | 0 => length
  | left + 1 => if string length ≠ 0 then strnlenFrom string (length + 1) left else length

def strnlen (string : ℕ → UInt8) (maxlen : ℕ) : ℕ := strnlenFrom string 0 maxlen

/-- Copy the string at `pos` of the region `src` with `write`, which writes bytes at a place. -/
def strlcpy (write : ℕ → List UInt8 → Locals → Locals) (fuel dst : ℕ) (src : ℕ → UInt8)
    (pos size : ℕ) (x : Locals) : Option Locals := do
  let srcLen ← strlen fuel src pos
  if 0 < size then
    let dstLen := min (size - 1) srcLen
    return write (dst + dstLen) [0] (write dst (slice src pos dstLen) x)
  else return x

/-- The next token of `cmdline_copy` from `s` on, and the new value of `save_ptr`. -/
def strtokR (fuel : ℕ) (delimiters : List UInt8) (s : ℕ) (x : Locals) :
    Option (Option ℕ × ℕ × Locals) := do
  let s ← skip (fun c => strchr delimiters c && c != 0) x.cmdlineCopy fuel s
  if strchr delimiters (x.cmdlineCopy s) then
    -- the loop has found the end of the string
    return (none, s, x)
  else
    let token := s
    let s ← skip (fun c => !strchr delimiters c) x.cmdlineCopy fuel s
    if x.cmdlineCopy s ≠ 0 then return (some token, s + 1, x.writeCopy s [0])
    else return (some token, s, x)

/-! ### The stack -/

/-- `p - n` for a pointer `p`. -/
def pointerSub (p n : ℕ) : ℕ := (2 ^ 32 + p - n) % 2 ^ 32

/-- `p & 0xfffffffc` for a pointer `p`. -/
def wordAlign (p : ℕ) : ℕ := p - p % 4

/-- The bytes of a word of 32 bits. -/
def wordBytes (n : ℕ) : List UInt8 := slice (byte n) 0 4

/-- The loop over the tokens. -/
def pushArgs (fuel : ℕ) : (rounds s sp argIndex : ℕ) → Locals → Option (ℕ × ℕ × Locals)
  | 0, _, _, _, _ => none
  | rounds + 1, s, sp, argIndex, x => do
    let (token, savePtr, x) ← strtokR fuel [space] s x
    match token with
    | none => return (sp, argIndex, x)
    | some token =>
      let argSize := (← strlen fuel x.cmdlineCopy token) + 1
      let sp := pointerSub sp argSize
      let x ← strlcpy Locals.writeUser fuel sp x.cmdlineCopy token argSize x
      pushArgs fuel rounds savePtr sp (argIndex + 1) (x.setArgPtr argIndex sp)

/-- `spp--; *spp = value`. -/
def pushWord (value spp : ℕ) (x : Locals) : ℕ × Locals :=
  (pointerSub spp 4, x.writeUser (pointerSub spp 4) (wordBytes value))

/-- The loop that pushes the pointers to the arguments. -/
def pushPtrs : (argIndex spp : ℕ) → Locals → ℕ × Locals
  | 0, spp, x => (spp, x)
  | argIndex + 1, spp, x =>
    let (spp, x) := pushWord (x.argPtrs argIndex) spp x
    pushPtrs argIndex spp x

/-- What is pushed below the strings. -/
def pushHeader (numArgs sp : ℕ) (x : Locals) : ℕ × Locals :=
  let (spp, x) := pushWord 0 (wordAlign sp) x
  let (argv, x) := pushPtrs numArgs spp x
  let (spp, x) := pushWord argv argv x
  let (spp, x) := pushWord numArgs spp x
  pushWord 0 spp x

/-- Set up the stack.  `success`: `sup_alloc_all_zeros` has allocated the page below `PHYS_BASE`. -/
def setupStack (fuel : ℕ) (success : Bool) (cmdline : ℕ → UInt8) (esp : ℕ) (x : Locals) :
    Option (Bool × ℕ × Locals) :=
  if success then do
    let cmdlineLen := strnlen cmdline 128
    let x ← strlcpy Locals.writeCopy fuel 0 cmdline 0 (cmdlineLen + 1)
      { x with cmdlineLen := cmdlineLen }
    let (sp, numArgs, x) ← pushArgs fuel fuel 0 (wordAlign PHYS_BASE.toNat) 0 x
    let (spp, x) := pushHeader numArgs sp x
    return (true, spp, x)
  else return (false, esp, x)

/-! ### What the functions on strings do -/

section
variable {f : ℕ → UInt8} {p a n fuel left : ℕ} {cs : List UInt8} {x : Locals}
  {write : ℕ → List UInt8 → Locals → Locals}

theorem strlen_eq (h : StringAt f p cs) (hfuel : cs.length < fuel) :
    strlen fuel f p = some cs.length := by
  have hall : cs.takeWhile (· != 0) = cs := by
    rw [takeWhile_eq_self_iff]
    intro c hc
    simpa using h.ne_zero c hc
  rw [strlen, skip_eq h (by decide) hfuel, hall, map_some, Nat.add_sub_cancel_left]

theorem strnlenFrom_eq (h : StringAt f a cs) : strnlenFrom f a left = a + min cs.length left := by
  induction left generalizing a cs with
  | zero => simp [strnlenFrom]
  | succ left ih =>
    rw [strnlenFrom]
    cases cs with
    | nil => rw [if_neg (not_not_intro (stringAt_nil.mp h)), length_nil, Nat.zero_min, Nat.add_zero]
    | cons c cs =>
      obtain ⟨rfl, hne, hcs⟩ := h
      rw [if_pos hne, ih hcs, length_cons]
      omega

theorem strnlen_eq (h : StringAt f 0 cs) : strnlen f n = min cs.length n := by
  rw [strnlen, strnlenFrom_eq h, zero_add]

section
variable (h : StringAt f p cs) (hfuel : cs.length < fuel)
include h hfuel

theorem strlcpy_eq (hn : n ≤ cs.length)
    (dst : ℕ) (x : Locals) :
    strlcpy write fuel dst f p (n + 1) x =
      some (write (dst + n) [0] (write dst (slice f p n) x)) := by
  rw [strlcpy, strlen_eq h hfuel]
  simp only [bind_eq_bind, bind_some, Nat.add_sub_cancel, Nat.min_eq_left hn]
  rfl

theorem strlcpy_user (dst : ℕ) (x : Locals) :
    strlcpy Locals.writeUser fuel dst f p (cs.length + 1) x =
      some { x with
        mem := overwrite x.mem dst (cs ++ [0])
        writes := x.writes ++ [⟨.user, dst, cs.length⟩, ⟨.user, dst + cs.length, 1⟩] } := by
  rw [strlcpy_eq h hfuel le_rfl, h.slice_take le_rfl, take_length, overwrite_append, append_cons]
  rfl

theorem strlcpy_copy (hn : n ≤ cs.length)
    (x : Locals) :
    strlcpy Locals.writeCopy fuel 0 f p (n + 1) x =
      some { x with
        cmdlineCopy := overwrite x.cmdlineCopy 0 (cs.take n ++ [0])
        writes := x.writes ++ [⟨.cmdlineCopy, 0, n⟩, ⟨.cmdlineCopy, n, 1⟩] } := by
  have hlen := length_take_of_le hn
  rw [strlcpy_eq h hfuel hn, h.slice_take hn, overwrite_append, append_cons,
    Locals.writeCopy, Locals.writeCopy, hlen, zero_add]
  rfl

end

/-- A token is cut off: from `s` on there was the string `cs`, and now there are the token `tok` and
the string `rest`. -/
structure Cut (x : Locals) (s : ℕ) (cs : List UInt8) (x' : Locals) (token : ℕ) (tok : List UInt8)
    (savePtr : ℕ) (rest : List UInt8) : Prop where
  components_eq : components space cs = tok :: components space rest
  tok_at : StringAt x'.cmdlineCopy token tok
  rest_at : StringAt x'.cmdlineCopy savePtr rest
  tok_le : tok.length ≤ cs.length
  rest_le : savePtr + rest.length ≤ s + cs.length
  rest_lt : rest.length < cs.length
  state : x' = x ∨ ∃ e < s + cs.length, x' = x.writeCopy e [0]

theorem strchr_space (c : UInt8) : strchr [space] c = true ↔ c = space ∨ c = 0 := by
  simp [strchr]

/-- The first loop of `strtok_r` skips the delimiters in front of the token. -/
theorem skip_delimiters (h : StringAt f s cs) (hfuel : cs.length < fuel) :
    ∃ lead body, cs = lead ++ body ∧ components space cs = components space body ∧
      body.head? ≠ some space ∧
      skip (fun c => strchr [space] c && c != 0) f fuel s = some (s + lead.length) := by
  have hp : (fun c => strchr [space] c && c != 0) = fun c : UInt8 => c == space := by
    funext c
    rw [Bool.eq_iff_iff, Bool.and_eq_true, strchr_space, bne_iff_ne, beq_iff_eq]
    constructor
    · rintro ⟨hc | hc, h0⟩
      · exact hc
      · exact absurd hc h0
    · rintro rfl
      exact ⟨.inl rfl, by decide⟩
  refine ⟨cs.takeWhile (· == space), cs.dropWhile (· == space),
    takeWhile_append_dropWhile.symm, components_dropWhile.symm, head?_dropWhile_ne, ?_⟩
  rw [hp]
  exact skip_eq h (by decide) hfuel

/-- The second loop of `strtok_r` goes to the delimiter behind the token, or to the end. -/
theorem skip_token (h : StringAt f s cs) (hne : cs ≠ []) (hhead : cs.head? ≠ some space)
    (hfuel : cs.length < fuel) :
    ∃ tok after, cs = tok ++ after ∧ components space cs = tok :: components space after ∧
      tok ≠ [] ∧ (after = [] ∨ ∃ rest, after = space :: rest) ∧
      skip (fun c => !strchr [space] c) f fuel s = some (s + tok.length) := by
  set p : UInt8 → Bool := fun c => !strchr [space] c with hp
  have hp_iff : ∀ c ∈ cs, p c = true ↔ c ≠ space := by
    intro c hc
    rw [Bool.not_eq_true', Bool.eq_false_iff, ne_eq, strchr_space, not_or]
    exact and_iff_left (h.ne_zero c hc)
  have hname : ∀ c ∈ cs.takeWhile p, c ≠ space := fun c hc =>
    (hp_iff c (( takeWhile_prefix p).subset hc)).mp (mem_takeWhile_imp hc)
  have hfir : cs.takeWhile p ≠ [] := by
    cases cs with
    | nil => exact absurd rfl hne
    | cons c cs =>
      rw [takeWhile_cons_of_pos ((hp_iff c (by simp)).mpr fun hc => hhead (by rw [hc]; rfl))]
      exact cons_ne_nil _ _
  have haft : cs.dropWhile p = [] ∨ ∃ rest, cs.dropWhile p = space :: rest := by
    cases hd : cs.dropWhile p with
    | nil => exact .inl rfl
    | cons c rest =>
      have hc := head?_dropWhile_not p cs
      rw [hd] at hc
      have hmem : c ∈ cs := (dropWhile_suffix p).subset (by rw [hd]; simp)
      have hspc : c = space := by
        by_contra hspc
        exact absurd ((hp_iff c hmem).mpr hspc) (Bool.eq_false_iff.mp hc)
      exact .inr ⟨rest, by rw [hspc]⟩
  refine ⟨cs.takeWhile p, cs.dropWhile p, takeWhile_append_dropWhile.symm, ?_, hfir, haft,
    skip_eq h (by decide) hfuel⟩
  have hcs := components_append hname hfir haft
  rwa [takeWhile_append_dropWhile] at hcs

/-- `strtok_r` cuts off the first component, if there is one. -/
theorem strtokR_eq (h : StringAt x.cmdlineCopy s cs) (hfuel : cs.length < fuel) :
    (components space cs = [] ∧ ∃ s', strtokR fuel [space] s x = some (none, s', x)) ∨
      ∃ token tok savePtr rest x', strtokR fuel [space] s x = some (some token, savePtr, x') ∧
        Cut x s cs x' token tok savePtr rest := by
  obtain ⟨lead, body, rfl, hlead, hhead, hskip⟩ := skip_delimiters h hfuel
  have hbody := h.drop
  rw [length_append] at hfuel
  rw [strtokR, hskip]
  simp only [bind_eq_bind, bind_some]
  by_cases hne : body = []
  · subst hne
    refine .inl ⟨hlead, s + lead.length, ?_⟩
    rw [stringAt_nil.mp hbody]
    rfl
  have hfuel' : body.length < fuel := by omega
  obtain ⟨tok, after, rfl, htok, htok_ne, haft, hskip'⟩ := skip_token hbody hne hhead hfuel'
  have hpos := length_pos_iff.mpr htok_ne
  have hstop : ¬ strchr [space] (x.cmdlineCopy (s + lead.length)) = true := by
    cases hcs : tok ++ after with
    | nil => exact absurd hcs hne
    | cons c body =>
      rw [hcs] at hbody hhead
      rw [strchr_space, hbody.1, not_or]
      exact ⟨fun hc => hhead (by rw [hc]; rfl), hbody.2.1⟩
  right
  rw [if_neg hstop, hskip']
  simp only [bind_some]
  have hlen : (lead ++ (tok ++ after)).length = lead.length + tok.length + after.length := by
    rw [length_append, length_append, add_assoc]
  rcases haft with rfl | ⟨rest, rfl⟩
  · rw [if_neg (not_not_intro (stringAt_nil.mp hbody.drop))]
    rw [append_nil] at hbody
    refine ⟨_, tok, _, [], x, rfl, hlead.trans htok, hbody, hbody.nul, by omega, ?_, ?_, .inl rfl⟩
    · omega
    · omega
  · obtain ⟨hsp, hsp0, hrest⟩ := hbody.drop
    rw [length_cons] at hlen
    rw [if_pos (by rwa [hsp])]
    refine ⟨_, tok, _, rest, _, rfl, hlead.trans htok, ?_, ?_, by omega, by omega, by omega,
      .inr ⟨_, by omega, rfl⟩⟩
    · rw [Locals.writeCopy, overwrite_singleton]
      exact hbody.cut
    · refine hrest.congr fun j _ => ?_
      rw [Locals.writeCopy, overwrite_singleton]
      exact update_of_ne (by omega) ..

end

/-! ### Pushing the arguments -/

theorem pointerSub_eq (h : n ≤ p) (hp : p < 2 ^ 32) : pointerSub p n = p - n := by
  rw [pointerSub, show 2 ^ 32 + p - n = p - n + 2 ^ 32 by omega, Nat.add_mod_right,
    Nat.mod_eq_of_lt (by omega)]

/-- The strings `args` are below `sp`, one below the other, and the pointers to them are in `ptrs`
from `n` on. -/
def Placed (mem : ℕ → UInt8) (ptrs : ℕ → ℕ) : (n sp : ℕ) → List (List UInt8) → Prop
  | _, _, [] => True
  | n, sp, arg :: args =>
    ptrs n + (arg.length + 1) = sp ∧ StringAt mem (ptrs n) arg ∧
      Placed mem ptrs (n + 1) (ptrs n) args

/-- The bytes that strings take. -/
def argBytes (args : List (List UInt8)) : ℕ := (args.map fun arg => arg.length + 1).sum

/-- The write is to the first `last` elements of the copy, to the first `n` of the pointers, or to
the memory from `low` to `high`. -/
def Write.Within (w : Write) (last n low high : ℕ) : Prop :=
  match w.target with
  | .cmdlineCopy => w.start + w.length ≤ last
  | .argPtrs => w.start + w.length ≤ n
  | .user => low ≤ w.start ∧ w.start + w.length ≤ high

theorem Write.Within.mono {w : Write} (h : w.Within last n low high) (hlast : last ≤ last')
    (hn : n ≤ n') (hlow : low' ≤ low) (hhigh : high ≤ high') : w.Within last' n' low' high' := by
  unfold Within at h ⊢
  cases ht : w.target with
  | cmdlineCopy =>
    rw [ht] at h
    exact le_trans h hlast
  | argPtrs =>
    rw [ht] at h
    exact le_trans h hn
  | user =>
    rw [ht] at h
    exact ⟨hlow.trans h.1, h.2.trans hhigh⟩

/-- The string `arg` has been pushed below `sp` as the argument `n`. -/
def Locals.pushArg (arg : List UInt8) (n sp : ℕ) (x : Locals) : Locals :=
  Locals.setArgPtr n (sp - (arg.length + 1)) { x with
    mem := overwrite x.mem (sp - (arg.length + 1)) (arg ++ [0])
    writes := x.writes ++ [⟨.user, sp - (arg.length + 1), arg.length⟩,
      ⟨.user, sp - (arg.length + 1) + arg.length, 1⟩] }

theorem Locals.mem_writes_pushArg {arg : List UInt8} {n sp : ℕ} {x : Locals}
    (hsp : arg.length + 1 ≤ sp) (hw : w ∈ (x.pushArg arg n sp).writes) :
    w ∈ x.writes ∨ w.Within 0 (n + 1) (sp - (arg.length + 1)) sp := by
  simp only [pushArg, setArgPtr, mem_append, mem_cons, not_mem_nil, or_false] at hw
  rcases hw with (hw | rfl | rfl) | rfl
  · exact .inl hw
  · exact .inr ⟨le_rfl, by dsimp only; omega⟩
  · exact .inr ⟨by dsimp only; omega, by dsimp only; omega⟩
  · exact .inr le_rfl

/-- The loop over the tokens has pushed the strings `args`. -/
structure Pushed (x : Locals) (n sp last : ℕ) (args : List (List UInt8)) (x' : Locals) (sp' : ℕ) :
    Prop where
  sp_eq : sp' + argBytes args = sp
  placed : Placed x'.mem x'.argPtrs n sp args
  mem : ∀ a, a < sp' ∨ sp ≤ a → x'.mem a = x.mem a
  argPtrs : ∀ i < n, x'.argPtrs i = x.argPtrs i
  cmdlineLen : x'.cmdlineLen = x.cmdlineLen
  kept : x.writes ⊆ x'.writes
  writes : ∀ w ∈ x'.writes, w ∈ x.writes ∨ w.Within last (n + args.length) sp' sp

theorem argBytes_cons (arg : List UInt8) (args : List (List UInt8)) :
    argBytes (arg :: args) = arg.length + 1 + argBytes args := rfl

/-- One round of the loop over the tokens, and the other rounds. -/
theorem Pushed.cons {x x1 x' : Locals} {s n sp sp' token savePtr : ℕ} {cs tok rest : List UInt8}
    (hcut : Cut x s cs x1 token tok savePtr rest) (hsp : tok.length + 1 ≤ sp)
    (h : Pushed (x1.pushArg tok n sp) (n + 1) (sp - (tok.length + 1)) (savePtr + rest.length)
      (components space rest) x' sp') :
    Pushed x n sp (s + cs.length) (tok :: components space rest) x' sp' := by
  have hrest := hcut.rest_le
  have hptr := (h.argPtrs n (Nat.lt_add_one n)).trans (update_self ..)
  have hsp' := h.sp_eq
  have hx1 : x1.mem = x.mem ∧ x1.argPtrs = x.argPtrs ∧ x1.cmdlineLen = x.cmdlineLen ∧
      x.writes ⊆ x1.writes := by
    rcases hcut.state with rfl | ⟨e, -, rfl⟩
    · exact ⟨rfl, rfl, rfl, fun w hw => hw⟩
    · exact ⟨rfl, rfl, rfl, subset_append_left _ _⟩
  exact {
    sp_eq := by rw [argBytes_cons]; omega
    placed := by
      refine ⟨by rw [hptr]; omega, ?_, by rw [hptr]; exact h.placed⟩
      rw [hptr]
      exact (stringAt_overwrite hcut.tok_at.ne_zero).congr fun j _ => h.mem _ (.inr (by omega))
    mem := fun a ha => by
      rw [h.mem a (by omega), ← hx1.1]
      exact overwrite_of_outside (by rw [length_append, length_singleton]; omega)
    argPtrs := fun i hi => by
      rw [h.argPtrs i (by omega), ← hx1.2.1]
      exact update_of_ne (by omega) ..
    cmdlineLen := h.cmdlineLen.trans hx1.2.2.1
    kept := fun w hw => h.kept (mem_append_left _ (mem_append_left _ (hx1.2.2.2 hw)))
    writes := fun w hw => by
      rw [length_cons]
      rcases h.writes w hw with hw | hw
      · rcases Locals.mem_writes_pushArg hsp hw with hw | hw
        · rcases hcut.state with rfl | ⟨e, he, rfl⟩
          · exact .inl hw
          · rcases mem_append.mp hw with hw | hw
            · exact .inl hw
            · rw [mem_singleton.mp hw]
              exact .inr he
        · exact .inr (hw.mono (Nat.zero_le _) (by omega) (by omega) le_rfl)
      · exact .inr (hw.mono hrest (by omega) le_rfl (by omega)) }

/-- The loop over the tokens pushes the components of the string. -/
theorem pushArgs_eq {fuel : ℕ} : ∀ (rounds : ℕ) {s sp n : ℕ} {cs : List UInt8} {x : Locals},
    StringAt x.cmdlineCopy s cs → cs.length < fuel → cs.length < rounds →
      argBytes (components space cs) ≤ sp → sp < 2 ^ 32 →
      ∃ sp' x', pushArgs fuel rounds s sp n x = some (sp', n + (components space cs).length, x') ∧
        Pushed x n sp (s + cs.length) (components space cs) x' sp'
  | 0, _, _, _, _, _, _, _, h, _, _ => absurd h (Nat.not_lt_zero _)
  | rounds + 1, s, sp, n, cs, x, h, hfuel, hrou, hsp, hlt => by
    rw [pushArgs]
    rcases strtokR_eq h hfuel with ⟨hnil, s', hs'⟩ | ⟨token, tok, savePtr, rest, x1, hx1, hcut⟩
    · rw [hs', hnil]
      exact ⟨sp, x, rfl, rfl, trivial, fun _ _ => rfl, fun _ _ => rfl, rfl, fun w hw => hw,
        fun w hw => .inl hw⟩
    · have htok : tok.length < fuel := lt_of_le_of_lt hcut.tok_le hfuel
      rw [hcut.components_eq, argBytes_cons] at hsp
      have hsub : pointerSub sp (tok.length + 1) = sp - (tok.length + 1) :=
        pointerSub_eq (by omega) hlt
      rw [hx1, hcut.components_eq]
      simp only [bind_eq_bind, bind_some, strlen_eq hcut.tok_at htok,
        strlcpy_user hcut.tok_at htok, hsub]
      have hlen := hcut.rest_lt
      obtain ⟨sp', x', hx', hpsh⟩ := @pushArgs_eq fuel rounds savePtr (sp - (tok.length + 1))
        (n + 1) rest (x1.pushArg tok n sp) hcut.rest_at (by omega) (by omega) (by omega) (by omega)
      refine ⟨sp', x', ?_, .cons hcut (by omega) hpsh⟩
      rw [length_cons, show n + ((components space rest).length + 1) =
        n + 1 + (components space rest).length by omega]
      exact hx'

/-! ### Pushing the pointers -/

/-- The word at an address. -/
def wordAt (mem : ℕ → UInt8) (a : ℕ) : ℕ := word 4 fun j => mem (a + j)

theorem wordAt_congr (h : ∀ j < 4, f (a + j) = g (a + j)) :
    wordAt f a = wordAt g a := word_congr h

theorem length_wordBytes (n : ℕ) : (wordBytes n).length = 4 := length_slice _ _ _

theorem wordAt_overwrite (f : ℕ → UInt8) (a : ℕ) (hn : n < 2 ^ 32) :
    wordAt (overwrite f a (wordBytes n)) a = n := by
  have hbyt : ∀ j < 4, overwrite f a (wordBytes n) (a + j) = byte n j := by
    intro j hj
    rw [overwrite_of_inside (by omega) (by rw [length_wordBytes]; omega), Nat.add_sub_cancel_left,
      wordBytes, getD_slice hj, zero_add]
  rw [wordAt, word_congr hbyt]
  exact word_byte_of_lt hn

/-- Only memory from `low` to `high` has been written. -/
structure Below (x : Locals) (low high : ℕ) (x' : Locals) : Prop where
  mem : ∀ a, a < low ∨ high ≤ a → x'.mem a = x.mem a
  argPtrs : x'.argPtrs = x.argPtrs
  cmdlineLen : x'.cmdlineLen = x.cmdlineLen
  kept : x.writes ⊆ x'.writes
  writes : ∀ w ∈ x'.writes, w ∈ x.writes ∨ w.Within 0 0 low high

section
variable {x x' x'' : Locals} {low mid high : ℕ}

theorem Below.trans (h : Below x mid high x') (h' : Below x' low mid x'') (hlow : low ≤ mid)
    (hhigh : mid ≤ high) : Below x low high x'' where
  mem a ha := (h'.mem a (by omega)).trans (h.mem a (by omega))
  argPtrs := h'.argPtrs.trans h.argPtrs
  cmdlineLen := h'.cmdlineLen.trans h.cmdlineLen
  kept _ hw := h'.kept (h.kept hw)
  writes w hw := by
    rcases h'.writes w hw with hw | hw
    · exact (h.writes w hw).imp_right fun hw => hw.mono le_rfl le_rfl hlow le_rfl
    · exact .inr (hw.mono le_rfl le_rfl le_rfl hhigh)

theorem pushWord_eq (value spp : ℕ) (hspp : 4 ≤ spp) (hlt : spp < 2 ^ 32)
    (hvl : value < 2 ^ 32) (x : Locals) :
    ∃ x', pushWord value spp x = (spp - 4, x') ∧ Below x (spp - 4) spp x' ∧
      wordAt x'.mem (spp - 4) = value := by
  rw [pushWord, pointerSub_eq hspp hlt]
  refine ⟨_, rfl, ⟨fun a ha => ?_, rfl, rfl, subset_append_left _ _, fun w hw => ?_⟩,
    wordAt_overwrite _ _ hvl⟩
  · exact overwrite_of_outside (by rw [length_wordBytes]; omega)
  · rcases mem_append.mp hw with hw | hw
    · exact .inl hw
    · rw [mem_singleton.mp hw, length_wordBytes]
      exact .inr ⟨le_rfl, by dsimp only; omega⟩

/-- The pointers are pushed, the last one first. -/
theorem pushPtrs_eq (k spp : ℕ) (hspp : 4 * k ≤ spp) (hlt : spp < 2 ^ 32)
    (hptr : ∀ i < k, x.argPtrs i < 2 ^ 32) :
    ∃ x', pushPtrs k spp x = (spp - 4 * k, x') ∧ Below x (spp - 4 * k) spp x' ∧
      ∀ i < k, wordAt x'.mem (spp - 4 * k + 4 * i) = x.argPtrs i := by
  induction k generalizing spp x with
  | zero =>
    exact ⟨x, rfl, ⟨fun _ _ => rfl, rfl, rfl, fun w hw => hw, fun w hw => .inl hw⟩,
      fun i hi => absurd hi (Nat.not_lt_zero i)⟩
  | succ k ih =>
    obtain ⟨x1, hx1, hblw, hword⟩ :=
      pushWord_eq _ spp (by omega) hlt (hptr k (Nat.lt_add_one k)) x
    obtain ⟨x', hx', hblw', hwrd⟩ := ih (spp - 4) (by omega) (by omega) fun i hi => by
      rw [hblw.argPtrs]
      exact hptr i (by omega)
    have hend : spp - 4 - 4 * k = spp - 4 * (k + 1) := by omega
    rw [hend] at hx' hblw' hwrd
    refine ⟨x', by rw [pushPtrs, hx1]; exact hx', hblw.trans hblw' (by omega) (by omega), ?_⟩
    intro i hi
    rcases Nat.lt_succ_iff_lt_or_eq.mp hi with hi | rfl
    · rw [hwrd i hi, hblw.argPtrs]
    · rw [← hword, show spp - 4 * (i + 1) + 4 * i = spp - 4 by omega]
      exact wordAt_congr fun j _ => hblw'.mem _ (.inr (by omega))

end

/-! ### The layout of the stack -/

/-- The areas of `m` bytes at `a` and of `n` bytes at `b` have no byte in common. -/
def Apart (a m b n : ℕ) : Prop := a + m ≤ b ∨ b + n ≤ a

/-- `argv`, as `main` finds it. -/
def argvOf (mem : ℕ → UInt8) (esp : ℕ) : ℕ := wordAt mem (esp + 8)

/-- `argv[i]`, as `main` finds it. -/
def argOf (mem : ℕ → UInt8) (esp i : ℕ) : ℕ := wordAt mem (argvOf mem esp + 4 * i)

/-- At `esp` there is a stack on which `main` finds the arguments `args`. -/
structure Layout (mem : ℕ → UInt8) (esp : ℕ) (args : List (List UInt8)) : Prop where
  return_address : wordAt mem esp = 0
  argc : wordAt mem (esp + 4) = args.length
  argv : ∀ i (h : i < args.length), StringAt mem (argOf mem esp i) args[i]
  null : argOf mem esp args.length = 0
  aligned : esp % 4 = 0
  header_apart : esp + 12 ≤ argvOf mem esp
  pointers_apart : ∀ i (h : i < args.length), Apart (argOf mem esp i) (args[i].length + 1) esp
    (argvOf mem esp + 4 * (args.length + 1) - esp)
  strings_apart : ∀ i j (hi : i < args.length) (hj : j < args.length), i ≠ j →
    Apart (argOf mem esp i) (args[i].length + 1) (argOf mem esp j) (args[j].length + 1)

section
variable {mem mem' : ℕ → UInt8} {ptrs : ℕ → ℕ} {n sp : ℕ} {args : List (List UInt8)}

theorem Placed.congr (h : Placed mem ptrs n sp args)
    (hmem : ∀ a, sp - argBytes args ≤ a → mem' a = mem a) : Placed mem' ptrs n sp args := by
  induction args generalizing n sp with
  | nil => trivial
  | cons arg args ih =>
    obtain ⟨hsp, hstr, hrest⟩ := h
    rw [argBytes_cons] at hmem
    exact ⟨hsp, hstr.congr fun j _ => hmem _ (by omega), ih hrest fun a ha => hmem a (by omega)⟩

/-- Where the `i`th string is. -/
theorem Placed.get (h : Placed mem ptrs n sp args) (i : ℕ) (hi : i < args.length) :
    StringAt mem (ptrs (n + i)) args[i] ∧ ptrs (n + i) + (args[i].length + 1) ≤ sp ∧
      sp - argBytes args ≤ ptrs (n + i) := by
  induction args generalizing n sp i with
  | nil => exact absurd hi (Nat.not_lt_zero i)
  | cons arg args ih =>
    obtain ⟨hsp, hstr, hrest⟩ := h
    rw [argBytes_cons]
    cases i with
    | zero =>
      rw [Nat.add_zero]
      exact ⟨hstr, hsp.le, by omega⟩
    | succ i =>
      have hget := ih hrest i (by simpa using hi)
      rw [show n + 1 + i = n + (i + 1) by omega] at hget
      exact ⟨hget.1, hget.2.1.trans (by omega), le_trans (by omega) hget.2.2⟩

theorem Placed.below (h : Placed mem ptrs n sp args) (i j : ℕ) (hij : i < j)
    (hj : j < args.length) : ptrs (n + j) + (args[j].length + 1) ≤ ptrs (n + i) := by
  induction args generalizing n sp i j with
  | nil => exact absurd hj (Nat.not_lt_zero j)
  | cons arg args ih =>
    obtain ⟨-, -, hrest⟩ := h
    cases j with
    | zero => omega
    | succ j =>
      rw [show n + (j + 1) = n + 1 + j by omega]
      cases i with
      | zero => exact (hrest.get j (by simpa using hj)).2.1
      | succ i =>
        rw [show n + (i + 1) = n + 1 + i by omega]
        exact ih hrest i j (by omega) (by simpa using hj)

/-- Below the strings there is a stack for `main`. -/
theorem pushHeader_eq {x : Locals} (h : Placed x.mem x.argPtrs 0 high args)
    (hsp : sp + argBytes args = high) (hhigh : high < 2 ^ 32) (hlow : 4 * args.length + 19 ≤ sp) :
    ∃ esp x', pushHeader args.length sp x = (esp, x') ∧ Below x esp sp x' ∧
      sp ≤ esp + (4 * args.length + 19) ∧ esp ≤ sp ∧ Layout x'.mem esp args := by
  obtain ⟨base, hbase, hali, hbase_le, hle_base⟩ : ∃ base, wordAlign sp = base ∧
      base % 4 = 0 ∧ base ≤ sp ∧ sp ≤ base + 3 := by
    unfold wordAlign
    exact ⟨_, rfl, by omega, Nat.sub_le _ _, by omega⟩
  obtain ⟨x1, hx1, hb1, hnull⟩ := pushWord_eq 0 base (by omega) (by omega) (by decide) x
  have hptr : ∀ i < args.length, x.argPtrs i < 2 ^ 32 := fun i hi => by
    have hget := (h.get i hi).2.1
    rw [zero_add] at hget
    omega
  obtain ⟨x2, hx2, hb2, hptrs⟩ := pushPtrs_eq args.length (base - 4) (by omega) (by omega)
    fun i hi => (congrFun hb1.argPtrs i).trans_lt (hptr i hi)
  obtain ⟨argv, hargv⟩ : ∃ argv, argv = base - 4 - 4 * args.length := ⟨_, rfl⟩
  rw [← hargv] at hx2 hb2 hptrs
  obtain ⟨x3, hx3, hb3, hargv_at⟩ := pushWord_eq argv argv (by omega) (by omega) (by omega) x2
  obtain ⟨x4, hx4, hb4, hargc⟩ :=
    pushWord_eq args.length (argv - 4) (by omega) (by omega) (by omega) x3
  obtain ⟨x5, hx5, hb5, hret⟩ := pushWord_eq 0 (argv - 4 - 4) (by omega) (by omega) (by decide) x4
  -- what is pushed later leaves what has been pushed
  have hb35 := hb4.trans hb5 (by omega) (by omega)
  have hb25 := hb3.trans hb35 (by omega) (by omega)
  have hb15 := hb2.trans hb25 (by omega) (by omega)
  have hb := hb1.trans hb15 (by omega) (by omega)
  obtain ⟨esp, hesp⟩ : ∃ esp, esp = argv - 4 - 4 - 4 := ⟨_, rfl⟩
  rw [← hesp] at hx5 hb5 hret hb35 hb25 hb15 hb
  have hargc' : wordAt x5.mem (esp + 4) = args.length := by
    rw [← hargc, show argv - 4 - 4 = esp + 4 by omega]
    exact wordAt_congr fun j _ => hb5.mem _ (.inr (by omega))
  have hargv' : argvOf x5.mem esp = argv := by
    rw [← hargv_at, show argv - 4 = esp + 8 by omega]
    exact wordAt_congr fun j _ => hb35.mem _ (.inr (by omega))
  have harg : ∀ i < args.length, argOf x5.mem esp i = x.argPtrs i := fun i hi => by
    rw [argOf, hargv', ← hb1.argPtrs, ← hptrs i hi]
    exact wordAt_congr fun j _ => hb25.mem _ (.inr (by omega))
  have hnull' : argOf x5.mem esp args.length = 0 := by
    rw [argOf, hargv', ← hnull, show base - 4 = argv + 4 * args.length by omega]
    exact wordAt_congr fun j _ => hb15.mem _ (.inr (by omega))
  have hplc := h.congr fun a ha => hb.mem a (.inr (by omega))
  have hget := fun i hi => hplc.get i hi
  simp only [zero_add] at hget
  refine ⟨esp, x5, ?_, ?_, by omega, by omega, ?_⟩
  · rw [pushHeader, hbase, hx1]
    simp [hx2, hx3, hx4, hx5]
  · exact ⟨fun a ha => hb.mem a (by omega), hb.argPtrs, hb.cmdlineLen, hb.kept, fun w hw =>
      (hb.writes w hw).imp_right fun hw => hw.mono le_rfl le_rfl le_rfl hbase_le⟩
  · exact {
      return_address := hret
      argc := hargc'
      argv := fun i hi => by
        rw [harg i hi]
        exact (hget i hi).1
      null := hnull'
      aligned := by omega
      header_apart := by omega
      pointers_apart := fun i hi => by
        rw [harg i hi]
        have := (hget i hi).2.2
        exact .inr (by omega)
      strings_apart := fun i j hi hj hij => by
        rw [harg i hi, harg j hj]
        rcases Nat.lt_or_gt_of_ne hij with hlt | hlt
        · have := hplc.below i j hlt hj
          simp only [zero_add] at this
          exact .inr this
        · have := hplc.below j i hlt hi
          simp only [zero_add] at this
          exact .inl this }

end

/-! ### Setting up the stack -/

section
variable {cmdline : ℕ → UInt8} {cs : List UInt8} {fuel : ℕ}

/-- The state when `setup_stack` begins: the arrays have any contents. -/
def Locals.fresh (cmdlineCopy : ℕ → UInt8) (argPtrs : ℕ → ℕ) (mem : ℕ → UInt8) : Locals where
  cmdlineLen := 0
  cmdlineCopy := cmdlineCopy
  argPtrs := argPtrs
  mem := mem
  writes := []

theorem setupStack_eq (h : StringAt cmdline 0 cs) (hfuel : cs.length < fuel) (esp : ℕ)
    (copy : ℕ → UInt8) (argPtrs : ℕ → ℕ) (mem : ℕ → UInt8) :
    ∃ esp' x', setupStack fuel true cmdline esp (.fresh copy argPtrs mem) = some (true, esp', x') ∧
      Layout x'.mem esp' (components space (cs.take 128)) ∧ x'.cmdlineLen = min cs.length 128 ∧
      ⟨.cmdlineCopy, x'.cmdlineLen, 1⟩ ∈ x'.writes ∧
      ∀ w ∈ x'.writes, w = ⟨.cmdlineCopy, x'.cmdlineLen, 1⟩ ∨
        w.Within x'.cmdlineLen x'.cmdlineLen (PHYS_BASE.toNat - PGSIZE) PHYS_BASE.toNat := by
  obtain ⟨n, hn⟩ : ∃ n, n = min cs.length 128 := ⟨_, rfl⟩
  have htake : cs.take 128 = cs.take n := by
    rw [hn, Nat.min_comm, ← take_take, take_length]
  have hlen : (cs.take n).length = n := length_take_of_le (by omega)
  have hbase : wordAlign PHYS_BASE.toNat = PHYS_BASE.toNat := by decide
  have hphys : PHYS_BASE.toNat = 3221225472 := by decide
  have hbyt : argBytes (components space (cs.take n)) ≤ n + 1 := by
    have := @sum_length_components_le _ _ space (cs.take n)
    rwa [hlen] at this
  have hargs := @two_mul_length_components_le _ _ space (cs.take n)
  set x0 : Locals := { Locals.fresh copy argPtrs mem with
    cmdlineLen := n
    cmdlineCopy := overwrite copy 0 (cs.take n ++ [0])
    writes := [⟨.cmdlineCopy, 0, n⟩, ⟨.cmdlineCopy, n, 1⟩] } with hx0
  have hcopy : StringAt (overwrite copy 0 (cs.take n ++ [0])) 0 (cs.take n) :=
    stringAt_overwrite fun c hc => h.ne_zero c (mem_of_mem_take hc)
  obtain ⟨sp, x1, hx1, hpsh⟩ := @pushArgs_eq fuel fuel 0 PHYS_BASE.toNat 0 (cs.take n) x0 hcopy
    (by omega) (by omega) (by omega) (by omega)
  obtain ⟨esp', x', hx', hblw, hesp, hle, hlyt⟩ :=
    pushHeader_eq hpsh.placed hpsh.sp_eq (by omega) (by have := hpsh.sp_eq; omega)
  have hcmd : x'.cmdlineLen = n := hblw.cmdlineLen.trans hpsh.cmdlineLen
  have hsp := hpsh.sp_eq
  refine ⟨esp', x', ?_, by rwa [htake], hcmd.trans hn, ?_, fun w hw => ?_⟩
  · rw [zero_add] at hx1
    have hstp : strlcpy Locals.writeCopy fuel 0 cmdline 0 (n + 1)
        { Locals.fresh copy argPtrs mem with cmdlineLen := n } = some x0 :=
      strlcpy_copy h hfuel (by omega) _
    rw [setupStack, strnlen_eq h, ← hn]
    simp only [hbase, bind_eq_bind, hstp, bind_some, hx1, hx']
    rfl
  · rw [hcmd]
    exact hblw.kept (hpsh.kept (by simp [hx0]))
  · rw [hcmd]
    rcases hblw.writes w hw with hw | hw
    · rcases hpsh.writes w hw with hw | hw
      · rcases mem_cons.mp hw with rfl | hw
        · exact .inr (by show 0 + n ≤ n; omega)
        · exact .inl (mem_singleton.mp hw)
      · exact .inr (hw.mono (by omega) (by omega) (by unfold PGSIZE; omega) le_rfl)
    · exact .inr (hw.mono (Nat.zero_le _) (Nat.zero_le _) (by unfold PGSIZE; omega) (by omega))

/-- After `setup_stack` the process finds the arguments of the command line on its stack, and nothing
has been written outside the page below `PHYS_BASE`. -/
theorem arguments_round_trip (h : StringAt cmdline 0 cs) (hfuel : cs.length < fuel) (esp : ℕ)
    (copy : ℕ → UInt8) (argPtrs : ℕ → ℕ) (mem : ℕ → UInt8) :
    ∃ esp' x', setupStack fuel true cmdline esp (.fresh copy argPtrs mem) = some (true, esp', x') ∧
      Layout x'.mem esp' (components space (cs.take 128)) ∧
      ∀ w ∈ x'.writes, w.target = .user →
        PHYS_BASE.toNat - PGSIZE ≤ w.start ∧ w.start + w.length ≤ PHYS_BASE.toNat := by
  obtain ⟨esp', x', hx', hlyt, -, -, hwre⟩ := setupStack_eq h hfuel esp copy argPtrs mem
  refine ⟨esp', x', hx', hlyt, fun w hw huser => ?_⟩
  rcases hwre w hw with rfl | hw
  · cases huser
  · unfold Write.Within at hw
    rw [huser] at hw
    exact hw

/-- The command line `ls -l`. -/
theorem arguments_round_trip_two :
    StringAt (region [108, 115, 32, 45, 108]) 0 [108, 115, 32, 45, 108] ∧
    ∃ esp' x', setupStack 6 true (region [108, 115, 32, 45, 108]) 0
        (.fresh (fun _ => 0) (fun _ => 0) fun _ => 0) = some (true, esp', x') ∧
      Layout x'.mem esp' (components space ([108, 115, 32, 45, 108].take 128)) ∧
      ∀ w ∈ x'.writes, w.target = .user →
        PHYS_BASE.toNat - PGSIZE ≤ w.start ∧ w.start + w.length ≤ PHYS_BASE.toNat :=
  ⟨by decide, arguments_round_trip (by decide) (by decide) _ _ _ _⟩

/-! ### Bounds of the local arrays -/

/-- The elements that are written exist, where both arrays have `cmdlineLen` elements. -/
def Write.InBounds (w : Write) (cmdlineLen : ℕ) : Prop :=
  match w.target with
  | .cmdlineCopy | .argPtrs => ∀ i, w.start ≤ i → i < w.start + w.length → i < cmdlineLen
  | .user => True

theorem Write.Within.inBounds {w : Write}
    (h : w.Within cmdlineLen cmdlineLen low high) : w.InBounds cmdlineLen := by
  unfold InBounds
  unfold Within at h
  cases ht : w.target with
  | cmdlineCopy | argPtrs =>
    rw [ht] at h
    exact fun i _ hi => hi.trans_le h
  | user => trivial

theorem Write.not_inBounds_nul (n : ℕ) : ¬ (⟨.cmdlineCopy, n, 1⟩ : Write).InBounds n := fun h =>
  lt_irrefl n (h n le_rfl (Nat.lt_add_one n))

theorem out_of_bounds_iff (h : StringAt cmdline 0 cs) (hfuel : cs.length < fuel) (esp : ℕ)
    (copy : ℕ → UInt8) (argPtrs : ℕ → ℕ) (mem : ℕ → UInt8) :
    ∃ esp' x', setupStack fuel true cmdline esp (.fresh copy argPtrs mem) = some (true, esp', x') ∧
      ∀ w, w ∈ x'.writes ∧ ¬ w.InBounds x'.cmdlineLen ↔ w = ⟨.cmdlineCopy, x'.cmdlineLen, 1⟩ := by
  obtain ⟨esp', x', hx', -, -, hnul, hwre⟩ := setupStack_eq h hfuel esp copy argPtrs mem
  refine ⟨esp', x', hx', fun w => ⟨fun ⟨hw, hout⟩ => ?_, ?_⟩⟩
  · exact (hwre w hw).resolve_right fun hin => hout hin.inBounds
  · rintro rfl
    exact ⟨hnul, Write.not_inBounds_nul _⟩

/-- The writes to the local arrays are in bounds only if there is no stack page, and so nothing is
copied. -/
theorem copies_in_bounds_iff (h : StringAt cmdline 0 cs) (hfuel : cs.length < fuel) (success : Bool)
    (esp : ℕ) (copy : ℕ → UInt8) (argPtrs : ℕ → ℕ) (mem : ℕ → UInt8) :
    ∃ esp' x', setupStack fuel success cmdline esp (.fresh copy argPtrs mem) =
        some (success, esp', x') ∧
      ((∀ w ∈ x'.writes, w.InBounds x'.cmdlineLen) ↔ success = false) := by
  cases success with
  | false =>
    refine ⟨esp, _, rfl, iff_of_true (fun w hw => ?_) rfl⟩
    cases hw
  | true =>
    obtain ⟨esp', x', hx', hout⟩ := out_of_bounds_iff h hfuel esp copy argPtrs mem
    obtain ⟨hw, hnot⟩ := (hout _).mpr rfl
    exact ⟨esp', x', hx', iff_of_false (fun hall => hnot (hall _ hw)) (by decide)⟩

/-- The command line `ls`. -/
theorem copies_in_bounds_iff_ls :
    StringAt (region [108, 115]) 0 [108, 115] ∧
    ∃ esp' x', setupStack 3 true (region [108, 115]) 0
        (.fresh (fun _ => 0) (fun _ => 0) fun _ => 0) = some (true, esp', x') ∧
      ((∀ w ∈ x'.writes, w.InBounds x'.cmdlineLen) ↔ true = false) :=
  ⟨by decide, @copies_in_bounds_iff (region [108, 115]) [108, 115] 3 (by decide) (by decide) _ _ _ _ _⟩

/-- The command line `ls` is copied, with its null byte, to an array of two characters. -/
theorem ls_overruns_copy :
    ∃ esp' x', setupStack 3 true (region [108, 115]) 0
        (.fresh (fun _ => 0) (fun _ => 0) fun _ => 0) = some (true, esp', x') ∧
      x'.cmdlineLen = 2 ∧ ⟨.cmdlineCopy, 2, 1⟩ ∈ x'.writes ∧
      ¬ ∀ w ∈ x'.writes, w.InBounds x'.cmdlineLen := by
  obtain ⟨esp', x', hx', -, hlen, hnul, -⟩ := @setupStack_eq (region [108, 115]) [108, 115] 3
    (by decide) (by decide) 0 (fun _ => 0) (fun _ => 0) fun _ => 0
  refine ⟨esp', x', hx', hlen, by rwa [hlen] at hnul, fun hall => ?_⟩
  exact Write.not_inBounds_nul _ (hall _ hnul)

end

end Pintos.Userprog
