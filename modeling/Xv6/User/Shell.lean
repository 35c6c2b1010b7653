import Xv6.Param

set_option autoImplicit false

/-!
# The parser of the shell

`gettoken`, `peek` and the parse functions of `sh.c`. A pointer into the command line is its offset.
A parse function takes the offset `*ps` and returns the command with the new offset; it has a bound on
the depth of its calls and the rounds of its loops. `malloc` is assumed to succeed.
-/

namespace Xv6.Shell

abbrev MAXARGS : Nat := 10

-- " \t\r\n\v"
def whitespace : List UInt8 := [32, 9, 13, 10, 11]

-- "<|>&;()"
def symbols : List UInt8 := [60, 124, 62, 38, 59, 40, 41]

-- The text from the pointer `q` to the pointer `eq`.
structure Span where
  q : Nat
  eq : Nat
deriving DecidableEq

/-- Commands, with arguments and file names given by values of `W`. -/
inductive Cmd (W : Type) where
  | exec (argv : List W)
  | redir (cmd : Cmd W) (file : W) (mode : UInt32) (fd : Nat)
  | pipe (left right : Cmd W)
  | list (left right : Cmd W)
  | back (cmd : Cmd W)
deriving DecidableEq

namespace Cmd

variable {W V : Type}

def map (f : W → V) : Cmd W → Cmd V
  | exec argv => exec (argv.map f)
  | redir cmd file mode fd => redir (cmd.map f) (f file) mode fd
  | pipe left right => pipe (left.map f) (right.map f)
  | list left right => list (left.map f) (right.map f)
  | back cmd => back (cmd.map f)

-- `cmd->argv[argc] = q`, where `cmd` is the `execcmd` below the redirections.
def addArg : Cmd W → W → Cmd W
  | exec argv, a => exec (argv ++ [a])
  | redir cmd file mode fd, a => redir (cmd.addArg a) file mode fd
  | other, _ => other

end Cmd

inductive Panic where
  -- "syntax"
  | malformed
  -- "missing file for redirection"
  | missingFile
  | parseblock
  -- "syntax - missing )"
  | missingParen
  -- "too many args"
  | tooManyArgs
deriving DecidableEq

inductive Stop where
  | panic (why : Panic)
  -- The bound was too small.
  | rounds
deriving DecidableEq

section Tokens

variable (line : List UInt8)

-- `*s`; the line ends with a NUL.
def char (s : Nat) : UInt8 := line.getD s 0

def isWhite (c : UInt8) : Bool := c ∈ whitespace

def isWord (c : UInt8) : Bool := c ∉ whitespace ∧ c ∉ symbols

-- `while(s < es && strchr(whitespace, *s)) s++`
def skip (s : Nat) : Nat := s + ((line.drop s).takeWhile isWhite).length

def wordEnd (s : Nat) : Nat := s + ((line.drop s).takeWhile isWord).length

structure Got where
  ret : UInt8
  span : Span
  -- The new value of `*ps`.
  s : Nat

def gettoken (s : Nat) : Got :=
  let q := skip line s
  let c := char line q
  let (ret, eq) :=
    if c = 0 then (0, q)
    else if c ∈ ['|'.toUInt8, '('.toUInt8, ')'.toUInt8, ';'.toUInt8, '&'.toUInt8, '<'.toUInt8] then (c, q + 1)
    else if c = '>'.toUInt8 then
      if char line (q + 1) = '>'.toUInt8 then ('+'.toUInt8, q + 2) else (c, q + 1)
    else ('a'.toUInt8, wordEnd line q)
  ⟨ret, ⟨q, eq⟩, skip line eq⟩

def peek (s : Nat) (toks : List UInt8) : Nat × Bool :=
  let s := skip line s
  (s, char line s ≠ 0 ∧ char line s ∈ toks)

end Tokens

abbrev Parse : Type := Except Stop (Cmd Span × Nat)

section Parsing

variable (line : List UInt8)

def parseredirs : Nat → Cmd Span → Nat → Parse
  | 0, _, _ => .error .rounds
  | fuel + 1, cmd, s =>
    let (s, more) := peek line s ['<'.toUInt8, '>'.toUInt8]
    if more then
      let tok := gettoken line s
      let file := gettoken line tok.s
      if file.ret ≠ 'a'.toUInt8 then .error (.panic .missingFile)
      else
        let cmd :=
          if tok.ret = '<'.toUInt8 then .redir cmd file.span O_RDONLY 0
          else if tok.ret = '>'.toUInt8 then .redir cmd file.span (O_WRONLY ||| O_CREATE) 1
          else if tok.ret = '+'.toUInt8 then .redir cmd file.span (O_WRONLY ||| O_CREATE) 1
          else cmd
        parseredirs fuel cmd file.s
    else .ok (cmd, s)

def parseargs : Nat → Cmd Span → Nat → Nat → Parse
  | 0, _, _, _ => .error .rounds
  | fuel + 1, ret, argc, s =>
    let (s, ends) := peek line s ['|'.toUInt8, ')'.toUInt8, '&'.toUInt8, ';'.toUInt8]
    if ends then .ok (ret, s)
    else
      let tok := gettoken line s
      if tok.ret = 0 then .ok (ret, tok.s)
      else if tok.ret ≠ 'a'.toUInt8 then .error (.panic .malformed)
      else
        let ret := ret.addArg tok.span
        let argc := argc + 1
        if argc ≥ MAXARGS then .error (.panic .tooManyArgs)
        else do
          let (ret, s) ← parseredirs line fuel ret tok.s
          parseargs fuel ret argc s

def parseback : Nat → Cmd Span → Nat → Parse
  | 0, _, _ => .error .rounds
  | fuel + 1, cmd, s =>
    let (s, more) := peek line s ['&'.toUInt8]
    if more then parseback fuel (.back cmd) (gettoken line s).s else .ok (cmd, s)

mutual

def parseline : Nat → Nat → Parse
  | 0, _ => .error .rounds
  | fuel + 1, s => do
    let (cmd, s) ← parsepipe fuel s
    let (cmd, s) ← parseback line fuel cmd s
    let (s, more) := peek line s [';'.toUInt8]
    if more then
      let (right, s) ← parseline fuel (gettoken line s).s
      .ok (.list cmd right, s)
    else .ok (cmd, s)

def parsepipe : Nat → Nat → Parse
  | 0, _ => .error .rounds
  | fuel + 1, s => do
    let (cmd, s) ← parseexec fuel s
    let (s, more) := peek line s ['|'.toUInt8]
    if more then
      let (right, s) ← parsepipe fuel (gettoken line s).s
      .ok (.pipe cmd right, s)
    else .ok (cmd, s)

def parseexec : Nat → Nat → Parse
  | 0, _ => .error .rounds
  | fuel + 1, s =>
    let (s, block) := peek line s ['('.toUInt8]
    if block then parseblock fuel s
    else do
      let (ret, s) ← parseredirs line fuel (.exec []) s
      parseargs line fuel ret 0 s

def parseblock : Nat → Nat → Parse
  | 0, _ => .error .rounds
  | fuel + 1, s =>
    let (s, here) := peek line s ['('.toUInt8]
    if here then do
      let (cmd, s) ← parseline fuel (gettoken line s).s
      let (s, closed) := peek line s [')'.toUInt8]
      if closed then parseredirs line fuel cmd (gettoken line s).s
      else .error (.panic .missingParen)
    else .error (.panic .parseblock)

end

end Parsing

-- The line as a buffer, in which the words of a command are ended by a NUL.
def nulterminate : Cmd Span → List UInt8 → List UInt8
  | .exec argv, buf => argv.foldl (fun buf a => buf.set a.eq 0) buf
  | .redir cmd file _ _, buf => (nulterminate cmd buf).set file.eq 0
  | .pipe left right, buf => nulterminate right (nulterminate left buf)
  | .list left right, buf => nulterminate right (nulterminate left buf)
  | .back cmd, buf => nulterminate cmd buf

-- The string that a pointer into the buffer points to.
def cstring (buf : List UInt8) (a : Span) : List UInt8 := (buf.drop a.q).takeWhile (· ≠ 0)

-- The result is the buffer and the command, whose strings are in the buffer.
def parsecmd (fuel : Nat) (line : List UInt8) : Except Stop (List UInt8 × Cmd Span) := do
  let (cmd, s) ← parseline line fuel 0
  let (s, _) := peek line s []
  if s ≠ line.length then .error (.panic .malformed)
  else .ok (nulterminate cmd (line ++ [0]), cmd)

/-- The command that `parsecmd` returns, with its strings. -/
def command (fuel : Nat) (line : List UInt8) : Except Stop (Cmd (List UInt8)) := do
  let (buf, cmd) ← parsecmd fuel line
  .ok (cmd.map (cstring buf))

end Xv6.Shell
