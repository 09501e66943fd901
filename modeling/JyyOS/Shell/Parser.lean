import Mathlib.Data.List.Basic
import Mathlib.Tactic

/-!
# The command parser of `sh-xv6.c`

`parsecmd` is a recursive-descent parser over one moving cursor.  Nodes come
from a 4096-byte arena that is never freed.  A pointer into the line is an
offset here; a read beyond the terminating NUL is a fault of its own.
-/

namespace JyyOS.Shell

abbrev Byte := UInt8

def bytes (text : String) : List Byte := text.toList.map Char.toUInt8

/-- A NUL-terminated line, without its NUL. -/
structure Line where
  text : List Byte
  noNul : 0 ∉ text

/-! ## Command trees -/

abbrev MAXARGS := 10

instance : NeZero MAXARGS := ⟨by decide⟩

/-- The `argv` or `eargv` array of a node; `none` is a null pointer. -/
abbrev Slots := Fin MAXARGS → Option ℕ

inductive Cmd where
  | exec (argv eargv : Slots)
  | redir (cmd : Cmd) (file efile mode fd : ℕ)
  | pipe (left right : Cmd)
  | list (left right : Cmd)
  | back (cmd : Cmd)

/-- `cmd->argv[argc] = q; cmd->eargv[argc] = eq` for the EXEC node `cmd` that
the redirections of `ret` wrap. -/
def Cmd.store (argc : ℕ) (q eq : Option ℕ) : Cmd → Cmd
  | .exec argv eargv =>
      .exec (fun i => if i.val = argc then q else argv i)
        (fun i => if i.val = argc then eq else eargv i)
  | .redir cmd file efile mode fd => .redir (cmd.store argc q eq) file efile mode fd
  | cmd => cmd

/-- Why a parse does not return. -/
inductive Stop where
  /-- A failed `assert`. -/
  | panic
  /-- A read beyond the NUL. -/
  | fault
  | fuel
deriving DecidableEq

/-- The cursor `*ps` and the arena's `freem - mem`. -/
structure Parser where
  ps : ℕ
  freem : ℕ

abbrev Parse := StateT Parser (Except Stop)

def assert (cond : Bool) : Parse Unit := if cond then pure () else throw .panic

/-! ## The arena -/

abbrev memSize := 4096

def zalloc (sz : ℕ) : Parse Unit := do
  assert ((← get).freem + sz < memSize)
  modify fun parser => { parser with freem := parser.freem + sz }

abbrev execcmdSize := 168
abbrev redircmdSize := 40
abbrev pipecmdSize := 24
abbrev listcmdSize := 24
abbrev backcmdSize := 16

def execcmd : Parse Cmd := do
  zalloc execcmdSize
  return .exec (fun _ => none) (fun _ => none)

def redircmd (subcmd : Cmd) (file efile mode fd : ℕ) : Parse Cmd := do
  zalloc redircmdSize
  return .redir subcmd file efile mode fd

def pipecmd (left right : Cmd) : Parse Cmd := do
  zalloc pipecmdSize
  return .pipe left right

def listcmd (left right : Cmd) : Parse Cmd := do
  zalloc listcmdSize
  return .list left right

def backcmd (subcmd : Cmd) : Parse Cmd := do
  zalloc backcmdSize
  return .back subcmd

/-! ## Tokens -/

def whitespace : List Byte := bytes " \t\r\n\x0b"

def symbols : List Byte := bytes "<|>&;()"

/-- Whether `strchr` finds the byte. -/
def strchr (set : List Byte) (byte : Byte) : Bool := set.contains byte

/-- What `gettoken` hands out: the token's code, its start and its end. -/
structure Got where
  ret : Byte
  q : ℕ
  eq : ℕ

namespace Line

variable (line : Line)

/-- `es - s` -/
abbrev es : ℕ := line.text.length

/-- `*s` -/
def read (s : ℕ) : Except Stop Byte :=
  if h : s < line.es then .ok (line.text.get ⟨s, h⟩)
  else if s = line.es then .ok 0 else .error .fault

/-- `while (s < es && keep(*s)) s++`, which takes at most `es - s` rounds. -/
def skip (keep : Byte → Bool) (s : ℕ) : ℕ :=
  go (line.es - s) s
where
  go : ℕ → ℕ → ℕ
    | 0, s => s
    | rounds + 1, s =>
        if h : s < line.es then
          if keep (line.text.get ⟨s, h⟩) then go rounds (s + 1) else s
        else s

/-- The `switch (*s)` of `gettoken`: the code it returns and where the token
ends. -/
def scan (q : ℕ) : Except Stop (Byte × ℕ) := do
  let byte ← line.read q
  if byte = 0 then return (byte, q)
  else if strchr (bytes "|();&<") byte then return (byte, q + 1)
  else if byte = '>'.toUInt8 then
    if (← line.read (q + 1)) = '>'.toUInt8 then return ('+'.toUInt8, q + 2)
    else return (byte, q + 1)
  else
    return ('a'.toUInt8, line.skip (fun byte =>
      !strchr whitespace byte && !strchr symbols byte) q)

def gettoken : Parse Got := do
  let q := line.skip (strchr whitespace) (← get).ps
  let token ← line.scan q
  modify fun parser => { parser with ps := line.skip (strchr whitespace) token.2 }
  return { ret := token.1, q := q, eq := token.2 }

def peek (toks : List Byte) : Parse Bool := do
  let s := line.skip (strchr whitespace) (← get).ps
  modify fun parser => { parser with ps := s }
  let byte ← line.read s
  return byte ≠ 0 && strchr toks byte

/-! ## Recursive descent -/

abbrev O_RDONLY := 0
abbrev O_WRONLY := 1
abbrev O_CREAT := 64
abbrev O_TRUNC := 512

/-- `redircmd` with the arguments of one case of `parseredirs`. -/
def redirect (tok : Byte) (cmd : Cmd) (q eq : ℕ) : Parse Cmd :=
  if tok = '<'.toUInt8 then redircmd cmd q eq O_RDONLY 0
  else if tok = '>'.toUInt8 then redircmd cmd q eq (O_WRONLY ||| O_CREAT ||| O_TRUNC) 1
  else if tok = '+'.toUInt8 then redircmd cmd q eq (O_WRONLY ||| O_CREAT) 1
  else return cmd

def parseredirs : ℕ → Cmd → Parse Cmd
  | 0, _ => throw .fuel
  | fuel + 1, cmd => do
      if ← line.peek (bytes "<>") then
        let tok ← line.gettoken
        let file ← line.gettoken
        assert (file.ret = 'a'.toUInt8)
        parseredirs fuel (← redirect tok.ret cmd file.q file.eq)
      else return cmd

/-- The loop of `parseexec`; `argc` words are stored. -/
def parseargs : ℕ → ℕ → Cmd → Parse Cmd
  | 0, _, _ => throw .fuel
  | fuel + 1, argc, ret => do
      if ← line.peek (bytes "|)&;") then return ret.store argc none none
      else
        let tok ← line.gettoken
        if tok.ret = 0 then return ret.store argc none none
        else
          assert (tok.ret = 'a'.toUInt8)
          let ret := ret.store argc (some tok.q) (some tok.eq)
          assert (argc + 1 < MAXARGS)
          parseargs fuel (argc + 1) (← line.parseredirs fuel ret)

/-- The `&` loop of `parseline`. -/
def parsebacks : ℕ → Cmd → Parse Cmd
  | 0, _ => throw .fuel
  | fuel + 1, cmd => do
      if ← line.peek (bytes "&") then
        let _ ← line.gettoken
        parsebacks fuel (← backcmd cmd)
      else return cmd

mutual

def parseline : ℕ → Parse Cmd
  | 0 => throw .fuel
  | fuel + 1 => do
      let cmd ← parsepipe fuel
      let cmd ← line.parsebacks fuel cmd
      if ← line.peek (bytes ";") then
        let _ ← line.gettoken
        listcmd cmd (← parseline fuel)
      else return cmd

def parsepipe : ℕ → Parse Cmd
  | 0 => throw .fuel
  | fuel + 1 => do
      let cmd ← parseexec fuel
      if ← line.peek (bytes "|") then
        let _ ← line.gettoken
        pipecmd cmd (← parsepipe fuel)
      else return cmd

def parseblock : ℕ → Parse Cmd
  | 0 => throw .fuel
  | fuel + 1 => do
      assert (← line.peek (bytes "("))
      let _ ← line.gettoken
      let cmd ← parseline fuel
      assert (← line.peek (bytes ")"))
      let _ ← line.gettoken
      line.parseredirs fuel cmd

def parseexec : ℕ → Parse Cmd
  | 0 => throw .fuel
  | fuel + 1 => do
      if ← line.peek (bytes "(") then parseblock fuel
      else
        let ret ← execcmd
        line.parseargs fuel 0 (← line.parseredirs fuel ret)

end

end Line

/-- The NULs that `nulterminate` writes into the line. -/
def Cmd.nulterminate : Cmd → List Byte → List Byte
  | .exec argv eargv, text =>
      -- for (i = 0; argv[i]; i++) *eargv[i] = 0
      ((List.finRange MAXARGS).takeWhile fun i => (argv i).isSome).foldl
        (fun text i => text.set ((eargv i).getD 0) 0) text
  | .redir cmd _ efile _ _, text => (cmd.nulterminate text).set efile 0
  | .pipe left right, text => right.nulterminate (left.nulterminate text)
  | .list left right, text => right.nulterminate (left.nulterminate text)
  | .back cmd, text => cmd.nulterminate text

/-- The tree and the line, its NUL included, after `parsecmd`. -/
def parsecmd (fuel : ℕ) (line : Line) : Except Stop (Cmd × List Byte) := do
  let parse : Parse Cmd := do
    let cmd ← line.parseline fuel
    let _ ← line.peek []
    assert ((← get).ps = line.es)
    return cmd
  let (cmd, _) ← parse.run { ps := 0, freem := 0 }
  return (cmd, cmd.nulterminate (line.text ++ [0]))

end JyyOS.Shell
