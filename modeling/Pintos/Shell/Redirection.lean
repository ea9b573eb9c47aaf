import Mathlib.Data.List.Basic
import Mathlib.Data.Option.Basic

/-! # Redirections in the shell

`set_fn` looks for `<`, `>`, `>>`, `2>` and `2>>` among the tokens of a command, and copies the token
behind each of them.  `calloc` is taken to succeed.

* **Memory.**  The buffer for the copy is as long as the operator, not as long as the token.  A copy
  that does not fit, or the length of the NULL at the end, is a fault.
* **Result.**  A run without fault remembers the last file of each kind, but an append flag that is
  set stays set (`setFnLoop_eq_some`). -/

namespace Pintos.Shell
open List Option

/-- A token without the null byte at its end. -/
abbrev Token := List UInt8

/-- The operators `<`, `>`, `>>`, `2>` and `2>>`. -/
def inputOp : Token := [0x3c]

def outputOp : Token := [0x3e]

def outputAppendOp : Token := [0x3e, 0x3e]

def errorOp : Token := [0x32, 0x3e]

def errorAppendOp : Token := [0x32, 0x3e, 0x3e]

/-- The fields of `struct command` that `set_fn` sets. -/
structure Redirects where
  inputFn : Option Token := none
  outputFn : Option Token := none
  errorFn : Option Token := none
  outA : Bool := false
  errA : Bool := false
deriving DecidableEq

/-- The token behind the operator `tok` is copied to a buffer of the length of `tok`. -/
def copyName (tok : Token) (next : Option Token) : Option Token :=
  next.bind fun name => if name.length ≤ tok.length then some name else none

/-- One of the five tests of the loop. -/
def redirect (op : Token) (set : Redirects → Token → Redirects) (tok : Token)
    (next : Option Token) (cmd : Redirects) : Option Redirects :=
  if tok = op then (copyName tok next).map (set cmd) else some cmd

/-- The body of the loop, for a token and the one behind it. -/
def setFnStep (tok : Token) (next : Option Token) (cmd : Redirects) : Option Redirects := do
  let cmd ← redirect inputOp (fun cmd fn => { cmd with inputFn := fn }) tok next cmd
  let cmd ← redirect outputOp (fun cmd fn => { cmd with outputFn := fn }) tok next cmd
  let cmd ← redirect outputAppendOp (fun cmd fn => { cmd with outputFn := fn, outA := true })
    tok next cmd
  let cmd ← redirect errorOp (fun cmd fn => { cmd with errorFn := fn }) tok next cmd
  redirect errorAppendOp (fun cmd fn => { cmd with errorFn := fn, errA := true }) tok next cmd

def setFnLoop : List Token → Redirects → Option Redirects
  | [], cmd => some cmd
  | tok :: rest, cmd => (setFnStep tok rest.head? cmd).bind (setFnLoop rest)

def setFn (tokens : List Token) : Option Redirects := setFnLoop tokens {}

/-! ### What is wanted -/

/-- The last of the operators that has a token behind it, with this token. -/
def lastRedirect (ops : List Token) : List Token → Option (Token × Token)
  | [] => none
  | tok :: rest =>
    (lastRedirect ops rest).or (if tok ∈ ops then rest.head?.map (tok, ·) else none)

def outputOps : List Token := [outputOp, outputAppendOp]

def errorOps : List Token := [errorOp, errorAppendOp]

/-- The file behind the last operator of each kind, and whether it is the appending one. -/
def wanted (tokens : List Token) : Redirects where
  inputFn := (lastRedirect [inputOp] tokens).map (·.2)
  outputFn := (lastRedirect outputOps tokens).map (·.2)
  errorFn := (lastRedirect errorOps tokens).map (·.2)
  outA := (lastRedirect outputOps tokens).any (·.1 = outputAppendOp)
  errA := (lastRedirect errorOps tokens).any (·.1 = errorAppendOp)

/-- If the token is an operator, then there is a token behind it that is no longer. -/
def FitsBehind (tok : Token) (next : Option Token) : Prop :=
  tok ∈ [inputOp] ++ outputOps ++ errorOps → ∃ name, next = some name ∧ name.length ≤ tok.length

def Fits : List Token → Prop
  | [] => True
  | tok :: rest => FitsBehind tok rest.head? ∧ Fits rest

/-! ### The loop -/

/-- What the redirections of a part of the tokens make of those before. -/
def Redirects.after (cmd new : Redirects) : Redirects where
  inputFn := new.inputFn.or cmd.inputFn
  outputFn := new.outputFn.or cmd.outputFn
  errorFn := new.errorFn.or cmd.errorFn
  outA := cmd.outA || new.outA
  errA := cmd.errA || new.errA

theorem setFnStep_eq_some {next : Option Token} :
    setFnStep tok next cmd = some cmd' ↔ FitsBehind tok next ∧
    cmd.after ⟨if tok ∈ [inputOp] then next else none, if tok ∈ outputOps then next else none,
      if tok ∈ errorOps then next else none, outputAppendOp = tok, errorAppendOp = tok⟩ = cmd' := by
  by_cases htok : tok ∈ [inputOp] ++ outputOps ++ errorOps
  · simp only [outputOps, errorOps, mem_append, mem_cons, not_mem_nil, or_false] at htok
    rcases htok with (rfl | rfl | rfl) | rfl | rfl <;> cases next with
    | none => simp [setFnStep, redirect, copyName, FitsBehind, outputOps, errorOps]
    | some name =>
      simp [setFnStep, redirect, copyName, FitsBehind, outputOps, errorOps, Redirects.after, inputOp,
        outputOp, outputAppendOp, errorOp, errorAppendOp]
  · simp only [FitsBehind]
    simp only [outputOps, errorOps, mem_append, mem_cons, not_mem_nil, or_false, not_or] at htok
    obtain ⟨⟨h1, h2, h3⟩, h4, h5⟩ := htok
    simp [setFnStep, redirect, outputOps, errorOps, Redirects.after, h1, h2, h3, h4, h5,
      Ne.symm h3, Ne.symm h5]

theorem map_lastRedirect (ops : List Token) (tok : Token) (rest : List Token) :
    (lastRedirect ops (tok :: rest)).map (·.2) =
      ((lastRedirect ops rest).map (·.2)).or (if tok ∈ ops then rest.head? else none) := by
  rw [lastRedirect]
  cases lastRedirect ops rest with
  | none => split_ifs <;> cases rest.head? <;> rfl
  | some r => rfl

theorem setFnLoop_eq_some : setFnLoop tokens cmd = some cmd' ↔ Fits tokens ∧
    cmd.after { wanted tokens with
      outA := outputAppendOp ∈ tokens, errA := errorAppendOp ∈ tokens } = cmd' := by
  induction tokens generalizing cmd with
  | nil => simp [setFnLoop, Fits, Redirects.after, wanted, lastRedirect]
  | cons tok rest ih =>
    simp only [setFnLoop, bind_eq_some_iff, ih, setFnStep_eq_some, Fits, and_assoc,
      exists_and_left, exists_eq_left']
    simp [Redirects.after, wanted, map_lastRedirect,
      Option.or_assoc, Bool.or_assoc]

theorem mem_of_lastRedirect (h : (lastRedirect ops tokens).any (·.1 = op)) : op ∈ tokens := by
  induction tokens with
  | nil => cases h
  | cons tok rest ih =>
    rw [lastRedirect] at h
    cases hlst : lastRedirect ops rest with
    | some r => exact mem_cons_of_mem _ (ih (by simpa [hlst] using h))
    | none =>
      rw [hlst] at h
      split_ifs at h
      · cases hnext : rest.head? <;> simp_all
      · cases h

/-- **Redirections.**  `set_fn` is right if and only if behind every operator there is a token that
is no longer than the operator, and the last operator of a kind is the appending one if there is an
appending one at all. -/
theorem setFn_iff (tokens : List Token) : setFn tokens = some (wanted tokens) ↔ Fits tokens ∧
    (outputAppendOp ∈ tokens → (wanted tokens).outA) ∧
      (errorAppendOp ∈ tokens → (wanted tokens).errA) := by
  have hout : (wanted tokens).outA → outputAppendOp ∈ tokens := mem_of_lastRedirect
  have herr : (wanted tokens).errA → errorAppendOp ∈ tokens := mem_of_lastRedirect
  rw [setFn, setFnLoop_eq_some]
  cases hw : wanted tokens with
  | mk i o e a b =>
    simp only [Redirects.after]
    cases a <;> cases b <;> simp_all

/-- `ls > out`: four bytes are written to a buffer of two. -/
theorem setFn_overflows : setFn [[0x6c, 0x73], outputOp, [0x6f, 0x75, 0x74]] = none := by
  decide

end Pintos.Shell
