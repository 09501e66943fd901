import JyyOS.Shell.Parser

/-!
# The shell's grammar

Tokens of a line, the derivations of

    Line  -> Pipe '&'* [';' Line]
    Pipe  -> Exec ['|' Pipe]
    Exec  -> '(' Line ')' Redir*  |  Redir* (Word Redir*)*
    Redir -> ('<' | '>' | '>>') Word

and the command tree that each derivation stands for.  Nothing here looks at
the parser.
-/

namespace JyyOS.Shell

/-! ## Tokens -/

/-- A slice of the line. -/
structure Slice where
  start : ℕ
  stop : ℕ
deriving DecidableEq

inductive Token where
  | word (slice : Slice)
  | lt | gt | append | bar | amp | semi | lpar | rpar
deriving DecidableEq

def isSpace (byte : Byte) : Bool := strchr whitespace byte

/-- The token that a symbol is by itself. -/
def symbolToken (byte : Byte) : Option Token :=
  if byte = '<'.toUInt8 then some .lt
  else if byte = '|'.toUInt8 then some .bar
  else if byte = '>'.toUInt8 then some .gt
  else if byte = '&'.toUInt8 then some .amp
  else if byte = ';'.toUInt8 then some .semi
  else if byte = '('.toUInt8 then some .lpar
  else if byte = ')'.toUInt8 then some .rpar
  else none

def isWord (byte : Byte) : Bool := !isSpace byte && (symbolToken byte).isNone

/-- A word byte in front of a word belongs to it. -/
def joinWord (offset : ℕ) (next : Option Byte) (tokens : List Token) : List Token :=
  match next.any isWord, tokens with
  | true, .word slice :: tokens => .word ⟨offset, slice.stop⟩ :: tokens
  | _, tokens => .word ⟨offset, offset + 1⟩ :: tokens

/-- The tokens of a text that stands at an offset of the line. -/
def tokens (offset : ℕ) : List Byte → List Token
  | [] => []
  | [byte] =>
      if isSpace byte then []
      else match symbolToken byte with
        | some token => [token]
        | none => [.word ⟨offset, offset + 1⟩]
  | byte :: next :: rest =>
      if isSpace byte then tokens (offset + 1) (next :: rest)
      else match symbolToken byte with
        | some .gt =>
            if next = '>'.toUInt8 then .append :: tokens (offset + 2) rest
            else .gt :: tokens (offset + 1) (next :: rest)
        | some token => token :: tokens (offset + 1) (next :: rest)
        | none => joinWord offset (some next) (tokens (offset + 1) (next :: rest))

def Line.tokens (line : Line) : List Token := Shell.tokens 0 line.text

/-! ## Derivations -/

inductive RedirOp where
  | input | output | append
deriving DecidableEq

structure Redir where
  op : RedirOp
  file : Slice
deriving DecidableEq

inductive Nonterminal where
  | line | pipe | exec

/-- Derivation trees. -/
inductive Deriv : Nonterminal → Type where
  | lineEnd (pipe : Deriv .pipe) (amps : ℕ) : Deriv .line
  | lineMore (pipe : Deriv .pipe) (amps : ℕ) (line : Deriv .line) : Deriv .line
  | pipeEnd (exec : Deriv .exec) : Deriv .pipe
  | pipeMore (exec : Deriv .exec) (pipe : Deriv .pipe) : Deriv .pipe
  | block (line : Deriv .line) (redirs : List Redir) : Deriv .exec
  | simple (redirs : List Redir) (words : List (Slice × List Redir)) : Deriv .exec

def RedirOp.token : RedirOp → Token
  | .input => .lt
  | .output => .gt
  | .append => .append

def Redir.yield (redir : Redir) : List Token := [redir.op.token, .word redir.file]

def redirsYield (redirs : List Redir) : List Token := redirs.flatMap Redir.yield

def argsYield (words : List (Slice × List Redir)) : List Token :=
  words.flatMap fun (word, redirs) => .word word :: redirsYield redirs

namespace Deriv

/-- The tokens that a derivation derives. -/
def yield : {symbol : Nonterminal} → Deriv symbol → List Token
  | _, lineEnd pipe amps => pipe.yield ++ List.replicate amps .amp
  | _, lineMore pipe amps line =>
      pipe.yield ++ List.replicate amps .amp ++ .semi :: line.yield
  | _, pipeEnd exec => exec.yield
  | _, pipeMore exec pipe => exec.yield ++ .bar :: pipe.yield
  | _, block line redirs => .lpar :: line.yield ++ .rpar :: redirsYield redirs
  | _, simple redirs words => redirsYield redirs ++ argsYield words

/-! ## The tree of a derivation -/

end Deriv

/-- A redirection wraps the command built so far. -/
def Redir.wrap (cmd : Cmd) (redir : Redir) : Cmd :=
  match redir.op with
  | .input => .redir cmd redir.file.start redir.file.stop Line.O_RDONLY 0
  | .output =>
      .redir cmd redir.file.start redir.file.stop
        (Line.O_WRONLY ||| Line.O_CREAT ||| Line.O_TRUNC) 1
  | .append =>
      .redir cmd redir.file.start redir.file.stop (Line.O_WRONLY ||| Line.O_CREAT) 1

/-- An argument array with these pointers and nulls behind them. -/
def slots (pointers : List ℕ) : Slots := fun i => pointers[i.val]?

/-- The EXEC node of a list of words. -/
def wordsNode (words : List Slice) : Cmd :=
  .exec (slots (words.map (·.start))) (slots (words.map (·.stop)))

namespace Deriv

def tree : {symbol : Nonterminal} → Deriv symbol → Cmd
  | _, lineEnd pipe amps => Cmd.back^[amps] pipe.tree
  | _, lineMore pipe amps line => .list (Cmd.back^[amps] pipe.tree) line.tree
  | _, pipeEnd exec => exec.tree
  | _, pipeMore exec pipe => .pipe exec.tree pipe.tree
  | _, block line redirs => redirs.foldl Redir.wrap line.tree
  | _, simple redirs words =>
      (redirs ++ words.flatMap (·.2)).foldl Redir.wrap (wordsNode (words.map (·.1)))

/-- The bytes of all nodes of the tree. -/
def size : {symbol : Nonterminal} → Deriv symbol → ℕ
  | _, lineEnd pipe amps => pipe.size + amps * backcmdSize
  | _, lineMore pipe amps line =>
      pipe.size + amps * backcmdSize + (line.size + listcmdSize)
  | _, pipeEnd exec => exec.size
  | _, pipeMore exec pipe => exec.size + (pipe.size + pipecmdSize)
  | _, block line redirs => line.size + redirs.length * redircmdSize
  | _, simple redirs words =>
      execcmdSize + (redirs ++ words.flatMap (·.2)).length * redircmdSize

/-- Every simple command has at most nine words. -/
def FewWords : {symbol : Nonterminal} → Deriv symbol → Prop
  | _, lineEnd pipe _ => pipe.FewWords
  | _, lineMore pipe _ line => pipe.FewWords ∧ line.FewWords
  | _, pipeEnd exec => exec.FewWords
  | _, pipeMore exec pipe => exec.FewWords ∧ pipe.FewWords
  | _, block line _ => line.FewWords
  | _, simple _ words => words.length ≤ 9

/-! ## Derivations are unique -/

end Deriv

/-- The tokens that can follow a phrase. -/
def Nonterminal.follow : Nonterminal → List Token
  | .line => [.rpar]
  | .pipe => [.amp, .semi, .rpar]
  | .exec => [.bar, .amp, .semi, .rpar]

def Follows (symbol : Nonterminal) (rest : List Token) : Prop :=
  ∀ token ∈ rest.head?, token ∈ symbol.follow

/-- No redirection starts here. -/
def NoRedir (rest : List Token) : Prop := ∀ op : RedirOp, rest.head? ≠ some op.token

theorem follows_pipe_amps {rest : List Token} (hrest : Follows .line rest) (amps : ℕ) :
    Follows .pipe (List.replicate amps .amp ++ rest) := by
  cases amps with
  | zero =>
      intro token htoken
      have := hrest token htoken
      simp_all [Nonterminal.follow]
  | succ amps => simp [Follows, List.replicate_succ, Nonterminal.follow]

theorem follows_pipe_semi (amps : ℕ) (rest : List Token) :
    Follows .pipe (List.replicate amps .amp ++ .semi :: rest) := by
  cases amps <;> simp [Follows, List.replicate_succ, Nonterminal.follow]

theorem follows_exec_of_pipe {rest : List Token} (hrest : Follows .pipe rest) :
    Follows .exec rest := by
  intro token htoken
  have := hrest token htoken
  simp_all [Nonterminal.follow]

theorem noRedir_of_follows {rest : List Token} (hrest : Follows .exec rest) :
    NoRedir rest := by
  intro op hhead
  have := hrest _ hhead
  cases op <;> simp [RedirOp.token, Nonterminal.follow] at this

theorem noRedir_args {rest : List Token} (hrest : Follows .exec rest)
    (words : List (Slice × List Redir)) : NoRedir (argsYield words ++ rest) := by
  cases words with
  | nil => exact noRedir_of_follows hrest
  | cons word words =>
      intro op
      cases op <;> simp [argsYield, RedirOp.token]

theorem RedirOp.token_injective : Function.Injective RedirOp.token := by
  intro left right htoken
  cases left <;> cases right <;> simp_all [RedirOp.token]

theorem redirs_unique {left right : List Redir} {rest rest' : List Token}
    (hyield : redirsYield left ++ rest = redirsYield right ++ rest')
    (hrest : NoRedir rest) (hrest' : NoRedir rest') : left = right ∧ rest = rest' := by
  induction left generalizing right with
  | nil =>
      cases right with
      | nil => exact ⟨rfl, hyield⟩
      | cons redir right =>
          refine absurd ?_ (hrest redir.op)
          rw [show rest = redirsYield (redir :: right) ++ rest' from hyield]
          rfl
  | cons redir left ih =>
      cases right with
      | nil =>
          refine absurd ?_ (hrest' redir.op)
          rw [show rest' = redirsYield (redir :: left) ++ rest from hyield.symm]
          rfl
      | cons redir' right =>
          simp only [redirsYield, List.flatMap_cons, Redir.yield, List.cons_append,
            List.nil_append, List.cons.injEq, Token.word.injEq] at hyield
          obtain ⟨hop, hfile, hyield⟩ := hyield
          obtain ⟨rfl, rfl⟩ := ih hyield
          refine ⟨?_, rfl⟩
          obtain ⟨op, file⟩ := redir
          obtain ⟨op', file'⟩ := redir'
          simp_all [RedirOp.token_injective.eq_iff]

theorem args_unique {left right : List (Slice × List Redir)} {rest rest' : List Token}
    (hyield : argsYield left ++ rest = argsYield right ++ rest')
    (hrest : Follows .exec rest) (hrest' : Follows .exec rest') :
    left = right ∧ rest = rest' := by
  have hword : ∀ {rest : List Token} {slice : Slice} {more : List Token},
      Follows .exec rest → rest ≠ .word slice :: more := by
    rintro rest slice more hfollows rfl
    have := hfollows (.word slice) rfl
    simp [Nonterminal.follow] at this
  induction left generalizing right with
  | nil =>
      cases right with
      | nil => exact ⟨rfl, hyield⟩
      | cons word right => exact absurd hyield (hword hrest)
  | cons word left ih =>
      cases right with
      | nil => exact absurd hyield.symm (hword hrest')
      | cons word' right =>
          obtain ⟨slice, redirs⟩ := word
          obtain ⟨slice', redirs'⟩ := word'
          simp only [argsYield, List.flatMap_cons, List.cons_append, List.append_assoc,
            List.cons.injEq, Token.word.injEq] at hyield
          obtain ⟨rfl, hyield⟩ := hyield
          obtain ⟨rfl, hargs⟩ := redirs_unique hyield (noRedir_args hrest left)
            (noRedir_args hrest' right)
          obtain ⟨rfl, rfl⟩ := ih hargs
          exact ⟨rfl, rfl⟩

theorem amps_unique {left right : ℕ} {rest rest' : List Token}
    (hyield : List.replicate left Token.amp ++ rest =
      List.replicate right Token.amp ++ rest')
    (hrest : rest.head? ≠ some .amp) (hrest' : rest'.head? ≠ some .amp) :
    left = right ∧ rest = rest' := by
  induction left generalizing right with
  | zero =>
      cases right with
      | zero => exact ⟨rfl, hyield⟩
      | succ right =>
          refine absurd ?_ hrest
          simpa [List.replicate_succ] using congrArg List.head? hyield
  | succ left ih =>
      cases right with
      | zero =>
          refine absurd ?_ hrest'
          simpa [List.replicate_succ] using (congrArg List.head? hyield).symm
      | succ right =>
          simp only [List.replicate_succ, List.cons_append, List.cons.injEq, true_and]
            at hyield
          obtain ⟨rfl, rfl⟩ := ih hyield
          exact ⟨rfl, rfl⟩

theorem head?_ne_amp {rest : List Token} (hrest : Follows .line rest) :
    rest.head? ≠ some .amp := by
  intro hhead
  have := hrest .amp hhead
  simp [Nonterminal.follow] at this

/-- A simple command does not start with a parenthesis. -/
theorem simple_ne_lpar (redirs : List Redir) (words : List (Slice × List Redir))
    {rest more : List Token} (hrest : Follows .exec rest) :
    redirsYield redirs ++ argsYield words ++ rest ≠ .lpar :: more := by
  intro heq
  have hhead := congrArg List.head? heq
  cases redirs with
  | cons redir redirs =>
      obtain ⟨op, file⟩ := redir
      cases op <;> simp [redirsYield, Redir.yield, RedirOp.token] at hhead
  | nil =>
      cases words with
      | cons word words => simp [redirsYield, argsYield] at hhead
      | nil =>
          have := hrest .lpar hhead
          simp [Nonterminal.follow] at this

/-- A phrase and what follows it split a token list in at most one way. -/
theorem Deriv.unique {symbol : Nonterminal} {left right : Deriv symbol}
    {rest rest' : List Token} (hyield : left.yield ++ rest = right.yield ++ rest')
    (hrest : Follows symbol rest) (hrest' : Follows symbol rest') :
    left = right ∧ rest = rest' := by
  induction left generalizing rest rest' with
  | lineEnd pipe amps ih =>
      cases right with
      | lineEnd pipe' amps' =>
          simp only [yield, List.append_assoc] at hyield
          obtain ⟨rfl, hafter⟩ := ih hyield (follows_pipe_amps hrest amps)
            (follows_pipe_amps hrest' amps')
          obtain ⟨rfl, rfl⟩ := amps_unique hafter (head?_ne_amp hrest)
            (head?_ne_amp hrest')
          exact ⟨rfl, rfl⟩
      | lineMore pipe' amps' line' =>
          simp only [yield, List.append_assoc, List.cons_append] at hyield
          obtain ⟨rfl, hafter⟩ := ih hyield (follows_pipe_amps hrest amps)
            (follows_pipe_semi amps' _)
          obtain ⟨rfl, rfl⟩ := amps_unique hafter (head?_ne_amp hrest) (by simp)
          have := hrest .semi rfl
          simp [Nonterminal.follow] at this
  | lineMore pipe amps line ihPipe ihLine =>
      cases right with
      | lineEnd pipe' amps' =>
          simp only [yield, List.append_assoc, List.cons_append] at hyield
          obtain ⟨rfl, hafter⟩ := ihPipe hyield (follows_pipe_semi amps _)
            (follows_pipe_amps hrest' amps')
          obtain ⟨rfl, rfl⟩ := amps_unique hafter (by simp) (head?_ne_amp hrest')
          have := hrest' .semi rfl
          simp [Nonterminal.follow] at this
      | lineMore pipe' amps' line' =>
          simp only [yield, List.append_assoc, List.cons_append] at hyield
          obtain ⟨rfl, hafter⟩ := ihPipe hyield (follows_pipe_semi amps _)
            (follows_pipe_semi amps' _)
          obtain ⟨rfl, hline⟩ := amps_unique hafter (by simp) (by simp)
          obtain ⟨rfl, rfl⟩ := ihLine (List.cons.inj hline).2 hrest hrest'
          exact ⟨rfl, rfl⟩
  | pipeEnd exec ih =>
      cases right with
      | pipeEnd exec' =>
          obtain ⟨rfl, rfl⟩ := ih hyield (follows_exec_of_pipe hrest)
            (follows_exec_of_pipe hrest')
          exact ⟨rfl, rfl⟩
      | pipeMore exec' pipe' =>
          simp only [yield, List.append_assoc, List.cons_append] at hyield
          obtain ⟨rfl, rfl⟩ := ih hyield (follows_exec_of_pipe hrest)
            (by simp [Follows, Nonterminal.follow])
          have := hrest .bar rfl
          simp [Nonterminal.follow] at this
  | pipeMore exec pipe ihExec ihPipe =>
      cases right with
      | pipeEnd exec' =>
          simp only [yield, List.append_assoc, List.cons_append] at hyield
          obtain ⟨rfl, rfl⟩ := ihExec hyield (by simp [Follows, Nonterminal.follow])
            (follows_exec_of_pipe hrest')
          have := hrest' .bar rfl
          simp [Nonterminal.follow] at this
      | pipeMore exec' pipe' =>
          simp only [yield, List.append_assoc, List.cons_append] at hyield
          obtain ⟨rfl, hpipe⟩ := ihExec hyield (by simp [Follows, Nonterminal.follow])
            (by simp [Follows, Nonterminal.follow])
          obtain ⟨rfl, rfl⟩ := ihPipe (List.cons.inj hpipe).2 hrest hrest'
          exact ⟨rfl, rfl⟩
  | block line redirs ih =>
      cases right with
      | block line' redirs' =>
          simp only [yield, List.append_assoc, List.cons_append, List.cons.injEq,
            true_and] at hyield
          obtain ⟨rfl, hafter⟩ := ih hyield (by simp [Follows, Nonterminal.follow])
            (by simp [Follows, Nonterminal.follow])
          obtain ⟨rfl, rfl⟩ := redirs_unique (List.cons.inj hafter).2
            (noRedir_of_follows hrest) (noRedir_of_follows hrest')
          exact ⟨rfl, rfl⟩
      | simple redirs' words' => exact absurd hyield.symm (simple_ne_lpar _ _ hrest')
  | simple redirs words =>
      cases right with
      | block line' redirs' => exact absurd hyield (simple_ne_lpar _ _ hrest)
      | simple redirs' words' =>
          simp only [yield, List.append_assoc] at hyield
          obtain ⟨rfl, hargs⟩ := redirs_unique hyield (noRedir_args hrest words)
            (noRedir_args hrest' words')
          obtain ⟨rfl, rfl⟩ := args_unique hargs hrest hrest'
          exact ⟨rfl, rfl⟩

end JyyOS.Shell
