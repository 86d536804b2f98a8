/-
# The shell's parser

gettoken, peek, the parse functions and nulterminate of sh.c. The command line is a buffer of bytes,
and pointers into it are positions. The parse functions share a cursor, `*ps`; nulterminate writes
the buffer.

The node of a command that parseexec fills in is inside the redirections put around it meanwhile:
`setArg` reaches it there. Every loop and every call takes one from the fuel, and `Stop.fuel` is no
panic of the shell.
-/
import Xv6.Lib.Prog
import Xv6.Cstring
import Xv6.Param

namespace Xv6.Sh

open Prog

abbrev MAXARGS : ℕ := 10

/-- `struct execcmd`, with positions for pointers. -/
structure Execcmd where
  argv : Vector (Option ℕ) MAXARGS
  eargv : Vector (Option ℕ) MAXARGS

inductive Cmd where
  | exec (e : Execcmd)
  | redir (cmd : Cmd) (file efile mode fd : ℕ)
  | pipe (left right : Cmd)
  | list (left right : Cmd)
  | back (cmd : Cmd)

/-- Why the parser stops. -/
inductive Stop where
  | panic (s : String)
  /-- A null pointer is written through, or the end of an array passed. -/
  | fault
  | fuel

def O_RDONLY : ℕ := 0x000
def O_WRONLY : ℕ := 0x001
def O_CREATE : ℕ := 0x200

def execcmd : Cmd :=
  .exec { argv := Vector.replicate MAXARGS none, eargv := Vector.replicate MAXARGS none }

def ch (c : Char) : UInt8 := c.toUInt8

def whitespace : List UInt8 := [' ', '\t', '\r', '\n', '\x0b'].map ch
def symbols : List UInt8 := ['<', '|', '>', '&', ';', '(', ')'].map ch

/-- Neither whitespace nor a symbol. -/
def isWordChar (c : UInt8) : Bool := c ∉ whitespace ∧ c ∉ symbols

/-- `*s` -/
def byte (buf : Str) (s : ℕ) : UInt8 := buf.getD s 0

def strlen (buf : Str) : ℕ := (buf.takeWhile (· ≠ 0)).length

section

variable (buf : Str) (es : ℕ)

/-- `while(s < es && p(*s)) s++`, with `n = es - s`. -/
def advance (p : UInt8 → Bool) : ℕ → ℕ → ℕ
  | 0, s => s
  | n + 1, s => if p (byte buf s) then advance p n (s + 1) else s

def skip (s : ℕ) : ℕ := advance buf (· ∈ whitespace) (es - s) s

/-- A program of the parser: its state is the cursor. -/
abbrev ParseM := Prog Stop ℕ

/-- The switch of `gettoken`: the token at `s`, and where it ends. -/
def scan (s : ℕ) : UInt8 × ℕ :=
  let c := byte buf s
  if c = 0 then (c, s)
  else if c = ch '|' ∨ c = ch '(' ∨ c = ch ')' ∨ c = ch ';' ∨ c = ch '&' ∨ c = ch '<' then (c, s + 1)
  else if c = ch '>' then if byte buf (s + 1) = ch '>' then (ch '+', s + 2) else (c, s + 1)
  else (ch 'a', advance buf isWordChar (es - s) s)

/-- The next token, and where it begins and ends. -/
def gettoken : ParseM (UInt8 × ℕ × ℕ) := do
  let s ← get
  let q := skip buf es s
  let (ret, eq) := scan buf es q
  modify fun _ => skip buf es eq
  pure (ret, q, eq)

/-- Whether the next token begins with one of `toks`. -/
def peek (toks : List UInt8) : ParseM Bool := do
  let s ← get
  let s := skip buf es s
  modify fun _ => s
  pure (byte buf s ≠ 0 ∧ byte buf s ∈ toks)

def parseredirs : ℕ → Cmd → ParseM Cmd
  | 0, _ => stop .fuel
  | f + 1, cmd => do
    let more ← peek buf es [ch '<', ch '>']
    if more then do
      let (tok, _, _) ← gettoken buf es
      let (ret, q, eq) ← gettoken buf es
      if ret ≠ ch 'a' then stop (.panic "missing file for redirection")
      else if tok = ch '<' then parseredirs f (.redir cmd q eq O_RDONLY 0)
      else if tok = ch '>' then parseredirs f (.redir cmd q eq (O_WRONLY ||| O_CREATE) 1)
      else if tok = ch '+' then parseredirs f (.redir cmd q eq (O_WRONLY ||| O_CREATE) 1)
      else parseredirs f cmd
    else pure cmd

/-- `cmd->argv[i] = q; cmd->eargv[i] = eq`, where `cmd` is the command inside the redirections. -/
def setArg (i : Fin MAXARGS) (q eq : Option ℕ) : Cmd → Cmd
  | .exec e => .exec { argv := e.argv.set i q i.isLt, eargv := e.eargv.set i eq i.isLt }
  | .redir cmd file efile mode fd => .redir (setArg i q eq cmd) file efile mode fd
  | cmd => cmd

/-- The loop of `parseexec` over the arguments. -/
def parseargs : ℕ → Fin MAXARGS → Cmd → ParseM Cmd
  | 0, _, _ => stop .fuel
  | f + 1, argc, ret => do
    let last ← peek buf es [ch '|', ch ')', ch '&', ch ';']
    if last then pure (setArg argc none none ret)
    else do
      let (tok, q, eq) ← gettoken buf es
      if tok = 0 then pure (setArg argc none none ret)
      else if tok ≠ ch 'a' then stop (.panic "syntax")
      else if h : argc + 1 < MAXARGS then do
        let ret ← parseredirs buf es f (setArg argc (some q) (some eq) ret)
        parseargs f ⟨argc + 1, h⟩ ret
      else stop (.panic "too many args")

/-- The loop of `parseline` over `&`. -/
def parsebacks : ℕ → Cmd → ParseM Cmd
  | 0, _ => stop .fuel
  | f + 1, cmd => do
    let more ← peek buf es [ch '&']
    if more then do
      let _ ← gettoken buf es
      parsebacks f (.back cmd)
    else pure cmd

mutual

def parseline : ℕ → ParseM Cmd
  | 0 => stop .fuel
  | f + 1 => do
    let cmd ← parsepipe f
    let cmd ← parsebacks buf es f cmd
    let more ← peek buf es [ch ';']
    if more then do
      let _ ← gettoken buf es
      let right ← parseline f
      pure (.list cmd right)
    else pure cmd

def parsepipe : ℕ → ParseM Cmd
  | 0 => stop .fuel
  | f + 1 => do
    let cmd ← parseexec f
    let more ← peek buf es [ch '|']
    if more then do
      let _ ← gettoken buf es
      let right ← parsepipe f
      pure (.pipe cmd right)
    else pure cmd

def parseexec : ℕ → ParseM Cmd
  | 0 => stop .fuel
  | f + 1 => do
    let block ← peek buf es [ch '(']
    if block then parseblock f
    else do
      let ret ← parseredirs buf es f execcmd
      parseargs buf es f 0 ret

def parseblock : ℕ → ParseM Cmd
  | 0 => stop .fuel
  | f + 1 => do
    let opens ← peek buf es [ch '(']
    if !opens then stop (.panic "parseblock")
    else do
      let _ ← gettoken buf es
      let cmd ← parseline f
      let closes ← peek buf es [ch ')']
      if !closes then stop (.panic "syntax - missing )")
      else do
        let _ ← gettoken buf es
        parseredirs buf es f cmd

end

end

/-- `for(i=0; ecmd->argv[i]; i++) *ecmd->eargv[i] = 0;` -/
def nulArgs : List (Option ℕ) → List (Option ℕ) → Prog Stop Str Unit
  | none :: _, _ => pure ()
  | some _ :: argv, some eq :: eargv => do
    modify fun buf => buf.set eq 0
    nulArgs argv eargv
  | _, _ => stop .fault

/-- NUL-terminate all the counted strings. -/
def nulterminate : Cmd → Prog Stop Str Unit
  | .exec e => nulArgs e.argv.toList e.eargv.toList
  | .redir cmd _ efile _ _ => do
    nulterminate cmd
    modify fun buf => buf.set efile 0
  | .pipe left right => do
    nulterminate left
    nulterminate right
  | .list left right => do
    nulterminate left
    nulterminate right
  | .back cmd => nulterminate cmd

/-- The line, and the whitespace after it. -/
def parsetop (buf : Str) (es fuel : ℕ) : ParseM Cmd := do
  let cmd ← parseline buf es fuel
  let _ ← peek buf es []
  pure cmd

/-- Parse the command line in the buffer. It returns the command, and leaves the buffer that it
points into. -/
def parsecmd (fuel : ℕ) : Prog Stop Str Cmd := do
  let buf ← get
  let es := strlen buf
  match parsetop buf es fuel 0 with
  | .error e => stop e
  | .ok (cmd, s) =>
    if s ≠ es then stop (.panic "syntax")
    else do
      nulterminate cmd
      pure cmd

end Xv6.Sh
