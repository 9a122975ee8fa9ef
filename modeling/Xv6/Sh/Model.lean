import Xv6.Framework.Cmd

/-!
# The shell's parser

A model of the parser of `sh.c`. The line is a list of bytes without a NUL; a
pointer into it is an offset, and at the offset `es`, the length of the line,
there is the NUL that ends it. What the parser changes while it reads is `*ps`
alone, so the code is a `Cmd` on that offset. Functions that call one another
have a bound on the number of calls.

A command of the shell has its words and files as spans of the line, with the
offsets `q` and `eq` of the source. `malloc` is assumed to succeed.
-/

namespace Xv6.Sh

def bytes (s : String) : List UInt8 := s.toList.map fun c => UInt8.ofNat c.toNat

def ch (c : Char) : UInt8 := UInt8.ofNat c.toNat

def whitespace : List UInt8 := bytes " \t\r\n\x0b"
def symbols : List UInt8 := bytes "<|>&;()"

def strchr (s : List UInt8) (c : UInt8) : Bool := s.contains c

abbrev maxargs : Nat := 10

abbrev oRdonly : Nat := 0x000
abbrev oWronly : Nat := 0x001
abbrev oCreate : Nat := 0x200
abbrev oTrunc : Nat := 0x400

/-- A word in the line: the offsets where it starts and where it ends. -/
structure Span where
  q : Nat
  eq : Nat

/-- `struct cmd`, with words and files of type `α`. The words of an `exec` are
those before the null pointer in `argv`. -/
inductive Command (α : Type) where
  | exec (argv : List α)
  | redir (cmd : Command α) (file : α) (mode fd : Nat)
  | pipe (left right : Command α)
  | list (left right : Command α)
  | back (cmd : Command α)
deriving DecidableEq

/-- The parser's code: its state is `*ps`. -/
abbrev Parse := Cmd Nat

section

variable (line : List UInt8)

def char (s : Nat) : UInt8 := line.getD s 0

/-- `while (s < es && p(*s)) s++`. -/
def skip (p : UInt8 → Bool) (s : Nat) : Nat := s + ((line.drop s).takeWhile p).length

/-- The next token: what kind it is, and its span. -/
def gettoken : Parse (UInt8 × Span) := do
  let q := skip line (strchr whitespace) (← Cmd.get id)
  let c := char line q
  let (ret, eq) :=
    if c = 0 then (c, q)
    else if strchr (bytes "|();&<") c then (c, q + 1)
    else if c = ch '>' then
      if char line (q + 1) = ch '>' then (ch '+', q + 2) else (c, q + 1)
    else (ch 'a', skip line (fun c => !strchr whitespace c && !strchr symbols c) q)
  Cmd.modify fun _ => skip line (strchr whitespace) eq
  return (ret, ⟨q, eq⟩)

/-- The next character that is not whitespace is one of `toks`. -/
def peek (toks : List UInt8) : Parse Bool := do
  Cmd.modify (skip line (strchr whitespace))
  let c ← Cmd.get (char line)
  return c ≠ 0 && strchr toks c

/-- The redirection for the token `tok`. -/
def redircmd (tok : UInt8) (cmd : Command Span) (file : Span) : Command Span :=
  if tok = ch '<' then .redir cmd file oRdonly 0
  else if tok = ch '>' then .redir cmd file (oWronly ||| oCreate ||| oTrunc) 1
  else if tok = ch '+' then .redir cmd file (oWronly ||| oCreate) 1
  else cmd

def parseredirs : Nat → Command Span → Parse (Command Span)
  | 0, _ => .hang
  | n + 1, cmd => do
    if ← peek line (bytes "<>") then
      let (tok, _) ← gettoken line
      let (ret, file) ← gettoken line
      if ret ≠ ch 'a' then .panic "missing file for redirection"
      else parseredirs n (redircmd tok cmd file)
    else return cmd

/-- `cmd->argv[argc] = q`, where `cmd` is the `exec` under the redirections of
`ret`. -/
def Command.addArg {α : Type} (ret : Command α) (arg : α) : Command α :=
  match ret with
  | .exec argv => .exec (argv ++ [arg])
  | .redir cmd file mode fd => .redir (cmd.addArg arg) file mode fd
  | cmd => cmd

/-- The loop of `parseexec` over the words. -/
def parseargs : Nat → Nat → Command Span → Parse (Command Span)
  | 0, _, _ => .hang
  | n + 1, argc, ret => do
    if ← peek line (bytes "|)&;") then return ret
    else
      let (tok, arg) ← gettoken line
      if tok = 0 then return ret
      else if tok ≠ ch 'a' then .panic "syntax"
      else if argc + 1 ≥ maxargs then .panic "too many args"
      else
        let ret ← parseredirs line n (ret.addArg arg)
        parseargs n (argc + 1) ret

/-- The loop of `parseline` over `&`. -/
def parsebacks : Nat → Command Span → Parse (Command Span)
  | 0, _ => .hang
  | n + 1, cmd => do
    if ← peek line (bytes "&") then
      let _ ← gettoken line
      parsebacks n (.back cmd)
    else return cmd

mutual

def parseline : Nat → Parse (Command Span)
  | 0 => .hang
  | n + 1 => do
    let cmd ← parsepipe n
    let cmd ← parsebacks line n cmd
    if ← peek line (bytes ";") then
      let _ ← gettoken line
      return .list cmd (← parseline n)
    else return cmd

def parsepipe : Nat → Parse (Command Span)
  | 0 => .hang
  | n + 1 => do
    let cmd ← parseexec n
    if ← peek line (bytes "|") then
      let _ ← gettoken line
      return .pipe cmd (← parsepipe n)
    else return cmd

def parseblock : Nat → Parse (Command Span)
  | 0 => .hang
  | n + 1 => do
    if !(← peek line (bytes "(")) then .panic "parseblock"
    else
      let _ ← gettoken line
      let cmd ← parseline n
      if !(← peek line (bytes ")")) then .panic "syntax - missing )"
      else
        let _ ← gettoken line
        parseredirs line n cmd

def parseexec : Nat → Parse (Command Span)
  | 0 => .hang
  | n + 1 => do
    if ← peek line (bytes "(") then parseblock n
    else
      let ret ← parseredirs line n (.exec [])
      parseargs line n 0 ret

end

/-- `nulterminate` on the buffer that holds the line. -/
def nulterminate : Command Span → List UInt8 → List UInt8
  | .exec argv, buf => argv.foldl (fun buf arg => buf.set arg.eq 0) buf
  | .redir cmd file _ _, buf => (nulterminate cmd buf).set file.eq 0
  | .pipe left right, buf => nulterminate right (nulterminate left buf)
  | .list left right, buf => nulterminate right (nulterminate left buf)
  | .back cmd, buf => nulterminate cmd buf

/-- The command that the line is parsed to, and the buffer after
`nulterminate`. -/
def parsecmd (n : Nat) : Parse (Command Span × List UInt8) := do
  let cmd ← parseline line n
  let _ ← peek line []
  if (← Cmd.get id) ≠ line.length then .panic "syntax"
  else return (cmd, nulterminate cmd (line ++ [0]))

end

end Xv6.Sh
