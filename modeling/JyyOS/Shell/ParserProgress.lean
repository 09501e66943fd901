import JyyOS.Shell.ParserExact

/-!
# The cursor of the parser

From any cursor in the line the functions of the parser keep it in the line and move
it forward only.  A watched copy of them carries the active calls and stops when a
function is entered again, or a loop comes round, with no byte consumed in between;
it never does.
-/

namespace JyyOS.Shell

/-! ## Watching the cursor -/

/-- The functions that call each other. -/
inductive Fn where
  | parseline
  | parsepipe
  | parseredirs
  | parseblock
  | parseexec
deriving DecidableEq

/-- The active calls, each with its cursor at entry. -/
abbrev Chain := List (Fn × ℕ)

/-- Why a watched parse does not return. -/
inductive Halt where
  | stop (stop : Stop)
  /-- Nothing was consumed. -/
  | stuck

abbrev Watch := StateT Parser (Except Halt)

def plain {α : Type} (action : Parse α) : Watch α :=
  fun parser => (action parser).mapError .stop

/-- A function is entered: earlier entries that are still active lie behind. -/
def enter (chain : Chain) (fn : Fn) : Watch Chain := do
  let ps := (← get).ps
  if ∀ call ∈ chain, call.1 = fn → call.2 < ps then return (fn, ps) :: chain
  else throw .stuck

/-- A loop comes to its condition: the last time lies behind. -/
def iterate (last : Option ℕ) : Watch (Option ℕ) := do
  let ps := (← get).ps
  if ∀ before ∈ last, before < ps then return some ps else throw .stuck

namespace Line

variable (line : Line)

def loopredirs : ℕ → Option ℕ → Cmd → Watch Cmd
  | 0, _, _ => throw (.stop .fuel)
  | fuel + 1, last, cmd => do
      let last ← iterate last
      if ← plain (line.peek (bytes "<>")) then
        let tok ← plain line.gettoken
        let file ← plain line.gettoken
        plain (assert (file.ret = 'a'.toUInt8))
        loopredirs fuel last (← plain (redirect tok.ret cmd file.q file.eq))
      else return cmd

def watchredirs (fuel : ℕ) (chain : Chain) (cmd : Cmd) : Watch Cmd := do
  let _ ← enter chain .parseredirs
  line.loopredirs fuel none cmd

def loopargs : ℕ → Chain → Option ℕ → ℕ → Cmd → Watch Cmd
  | 0, _, _, _, _ => throw (.stop .fuel)
  | fuel + 1, chain, last, argc, ret => do
      let last ← iterate last
      if ← plain (line.peek (bytes "|)&;")) then return ret.store argc none none
      else
        let tok ← plain line.gettoken
        if tok.ret = 0 then return ret.store argc none none
        else
          plain (assert (tok.ret = 'a'.toUInt8))
          let ret := ret.store argc (some tok.q) (some tok.eq)
          plain (assert (argc + 1 < MAXARGS))
          loopargs fuel chain last (argc + 1) (← line.watchredirs fuel chain ret)

def loopbacks : ℕ → Option ℕ → Cmd → Watch Cmd
  | 0, _, _ => throw (.stop .fuel)
  | fuel + 1, last, cmd => do
      let last ← iterate last
      if ← plain (line.peek (bytes "&")) then
        let _ ← plain line.gettoken
        loopbacks fuel last (← plain (backcmd cmd))
      else return cmd

mutual

def watchline : ℕ → Chain → Watch Cmd
  | 0, _ => throw (.stop .fuel)
  | fuel + 1, chain => do
      let chain ← enter chain .parseline
      let cmd ← watchpipe fuel chain
      let cmd ← line.loopbacks fuel none cmd
      if ← plain (line.peek (bytes ";")) then
        let _ ← plain line.gettoken
        plain (listcmd cmd (← watchline fuel chain))
      else return cmd

def watchpipe : ℕ → Chain → Watch Cmd
  | 0, _ => throw (.stop .fuel)
  | fuel + 1, chain => do
      let chain ← enter chain .parsepipe
      let cmd ← watchexec fuel chain
      if ← plain (line.peek (bytes "|")) then
        let _ ← plain line.gettoken
        plain (pipecmd cmd (← watchpipe fuel chain))
      else return cmd

def watchblock : ℕ → Chain → Watch Cmd
  | 0, _ => throw (.stop .fuel)
  | fuel + 1, chain => do
      let chain ← enter chain .parseblock
      plain (assert (← plain (line.peek (bytes "("))))
      let _ ← plain line.gettoken
      let cmd ← watchline fuel chain
      plain (assert (← plain (line.peek (bytes ")"))))
      let _ ← plain line.gettoken
      line.watchredirs fuel chain cmd

def watchexec : ℕ → Chain → Watch Cmd
  | 0, _ => throw (.stop .fuel)
  | fuel + 1, chain => do
      let chain ← enter chain .parseexec
      if ← plain (line.peek (bytes "(")) then watchblock fuel chain
      else
        let ret ← plain execcmd
        line.loopargs fuel chain none 0 (← line.watchredirs fuel chain ret)

end

/-- The function itself. -/
def call : Fn → ℕ → Cmd → Parse Cmd
  | .parseline, fuel, _ => line.parseline fuel
  | .parsepipe, fuel, _ => line.parsepipe fuel
  | .parseredirs, fuel, cmd => line.parseredirs fuel cmd
  | .parseblock, fuel, _ => line.parseblock fuel
  | .parseexec, fuel, _ => line.parseexec fuel

/-- The function with the cursor watched. -/
def watch : Fn → ℕ → Chain → Cmd → Watch Cmd
  | .parseline, fuel, chain, _ => line.watchline fuel chain
  | .parsepipe, fuel, chain, _ => line.watchpipe fuel chain
  | .parseredirs, fuel, chain, cmd => line.watchredirs fuel chain cmd
  | .parseblock, fuel, chain, _ => line.watchblock fuel chain
  | .parseexec, fuel, chain, _ => line.watchexec fuel chain

end Line

/-! ## Actions that keep the cursor in the line -/

namespace Line

/-- From a cursor in the line the action reads nothing beyond it and leaves the cursor
in the line and not behind. -/
def Inside (line : Line) {α : Type} (action : Parse α) : Prop :=
  ∀ parser, parser.ps ≤ line.es → action parser ≠ .error .fault ∧
    ∀ value after, action parser = .ok (value, after) →
      parser.ps ≤ after.ps ∧ after.ps ≤ line.es

section Inside

variable {line : Line} {α β : Type}

theorem Inside.bind {action : Parse α} {next : α → Parse β} (haction : line.Inside action)
    (hnext : ∀ value, line.Inside (next value)) : line.Inside (action >>= next) := by
  intro parser hps
  obtain ⟨hfault, hmoves⟩ := haction parser hps
  cases hrun : action parser with
  | error stop =>
      rw [bind_error hrun]
      constructor
      · intro heq
        cases heq
        exact hfault hrun
      · intro value after heq
        cases heq
  | ok pair =>
      obtain ⟨first, hfirst⟩ := hmoves pair.1 pair.2 hrun
      obtain ⟨hfault', hmoves'⟩ := hnext pair.1 pair.2 hfirst
      rw [bind_ok hrun]
      refine ⟨hfault', ?_⟩
      intro value after heq
      obtain ⟨hsecond, hle⟩ := hmoves' value after heq
      exact ⟨first.trans hsecond, hle⟩

/-- An action that leaves the cursor alone. -/
theorem inside_of_same {action : Parse α} (hfault : ∀ parser, action parser ≠ .error .fault)
    (hsame : ∀ parser value after, action parser = .ok (value, after) →
      after.ps = parser.ps) : line.Inside action := by
  intro parser hps
  refine ⟨hfault parser, ?_⟩
  intro value after hrun
  rw [hsame parser value after hrun]
  exact ⟨le_rfl, hps⟩

theorem inside_pure (value : α) : line.Inside (pure value) := by
  apply inside_of_same
  · intro parser heq
    cases heq
  · intro parser value after hrun
    cases hrun
    rfl

theorem inside_fuel : line.Inside (throw .fuel : Parse α) := by
  apply inside_of_same
  · intro parser heq
    cases heq
  · intro parser value after hrun
    cases hrun

theorem inside_assert (cond : Bool) : line.Inside (assert cond) := by
  cases cond with
  | true => exact inside_pure ()
  | false =>
      apply inside_of_same
      · intro parser heq
        cases heq
      · intro parser value after hrun
        cases hrun

theorem inside_zalloc (sz : ℕ) : line.Inside (zalloc sz) := by
  apply inside_of_same
  · intro parser
    rw [zalloc_eq]
    split_ifs <;> simp
  · intro parser value after hrun
    rw [zalloc_eq] at hrun
    split_ifs at hrun
    cases hrun
    rfl

theorem inside_node (sz : ℕ) (cmd : Cmd) :
    line.Inside (do zalloc sz; return cmd : Parse Cmd) :=
  (inside_zalloc sz).bind fun _ => inside_pure cmd

end Inside

/-! ## The tokens move the cursor -/

theorem le_skip (line : Line) (keep : Byte → Bool) (s : ℕ) : s ≤ line.skip keep s := by
  rw [skip_eq]
  exact Nat.le_add_right _ _

theorem ahead_of_le {line : Line} {parser : Parser} (hps : parser.ps ≤ line.es) :
    Ahead line parser (line.tokensFrom parser.ps) :=
  ⟨hps, rfl⟩

theorem scan_le {line : Line} {q eq : ℕ} {ret : Byte} (hscan : line.scan q = .ok (ret, eq)) :
    q ≤ eq := by
  rw [scan] at hscan
  cases hread : line.read q with
  | error stop =>
      rw [hread] at hscan
      cases hscan
  | ok byte =>
      rw [hread, ok_bind] at hscan
      split_ifs at hscan
      · cases hscan
        exact le_rfl
      · cases hscan
        exact Nat.le_succ q
      · cases hnext : line.read (q + 1) with
        | error stop =>
            rw [hnext] at hscan
            cases hscan
        | ok next =>
            rw [hnext, ok_bind] at hscan
            split_ifs at hscan <;> cases hscan <;> omega
      · cases hscan
        exact le_skip ..

theorem of_lift_ok {α : Type} {result : Except Stop α} {before after : Parser} {value : α}
    (hlift : (liftM result : Parse α) before = .ok (value, after)) :
    result = .ok value ∧ after = before := by
  cases result with
  | error stop => cases hlift
  | ok found =>
      cases hlift
      exact ⟨rfl, rfl⟩

section Tokens

variable {line : Line} {parser first second : Parser} {set : List Byte} {found : Bool}
  {got : Got} {token : Token} {toks : List Token}

theorem peek_le (hpeek : line.peek set parser = .ok (found, first)) :
    parser.ps ≤ first.ps := by
  obtain ⟨_, _, hget, hpeek⟩ := of_bind_ok hpeek
  cases hget
  obtain ⟨_, _, hmodify, hpeek⟩ := of_bind_ok hpeek
  cases hmodify
  obtain ⟨byte, _, hread, hpeek⟩ := of_bind_ok hpeek
  obtain ⟨-, rfl⟩ := of_lift_ok hread
  cases hpeek
  exact le_skip ..

theorem gettoken_le (hget : line.gettoken parser = .ok (got, first)) :
    parser.ps ≤ first.ps := by
  obtain ⟨_, _, hstart, hget⟩ := of_bind_ok hget
  cases hstart
  obtain ⟨found, _, hscan, hget⟩ := of_bind_ok hget
  obtain ⟨hscan, rfl⟩ := of_lift_ok hscan
  obtain ⟨_, _, hmodify, hget⟩ := of_bind_ok hget
  cases hmodify
  cases hget
  exact (le_skip ..).trans ((scan_le hscan).trans (le_skip ..))

theorem inside_peek (hset : set.all (strchr symbols) = true) : line.Inside (line.peek set) := by
  intro parser hps
  obtain ⟨ps, hpeek, hafter⟩ := peek_spec hset (ahead_of_le hps)
  rw [hpeek]
  refine ⟨by simp, ?_⟩
  intro value after heq
  cases heq
  exact ⟨peek_le hpeek, hafter.le⟩

theorem gettoken_returns (hps : parser.ps ≤ line.es) :
    ∃ got after, line.gettoken parser = .ok (got, after) ∧ after.ps ≤ line.es := by
  cases htoks : line.tokensFrom parser.ps with
  | nil =>
      obtain ⟨q, eq, ps, hget, hafter⟩ := gettoken_nil ⟨hps, htoks⟩
      exact ⟨_, _, hget, hafter.le⟩
  | cons token toks =>
      obtain ⟨q, eq, ps, hget, hafter, -⟩ := gettoken_cons ⟨hps, htoks⟩
      exact ⟨_, _, hget, hafter.le⟩

theorem inside_gettoken : line.Inside line.gettoken := by
  intro parser hps
  obtain ⟨got, after, hget, hafter⟩ := gettoken_returns hps
  rw [hget]
  refine ⟨by simp, ?_⟩
  intro value after heq
  cases heq
  exact ⟨gettoken_le hget, hafter⟩

/-- A token that is taken moves the cursor. -/
theorem lt_of_ahead (hbefore : Ahead line parser (token :: toks))
    (hafter : Ahead line first toks) (hle : parser.ps ≤ first.ps) :
    parser.ps < first.ps := by
  refine lt_of_le_of_ne hle fun heq => ?_
  have hsame : token :: toks = toks := by
    rw [← hbefore.toks, ← hafter.toks, heq]
  exact List.cons_ne_self token toks hsame

/-- `gettoken` behind a `peek` that has found something. -/
theorem lt_of_peek (hset : set.all (strchr symbols) = true) (hps : parser.ps ≤ line.es)
    (hpeek : line.peek set parser = .ok (true, first))
    (hget : line.gettoken first = .ok (got, second)) : parser.ps < second.ps := by
  obtain ⟨hpeeks, hfirst, -⟩ := of_peek set hset hpeek (ahead_of_le hps)
  cases htoks : line.tokensFrom parser.ps with
  | nil =>
      rw [htoks] at hpeeks
      cases hpeeks
  | cons token toks =>
      rw [htoks] at hfirst
      have hbefore : Ahead line parser (token :: toks) := ⟨hps, htoks⟩
      exact lt_of_ahead hbefore (of_gettoken_cons hget hfirst).2.1
        ((peek_le hpeek).trans (gettoken_le hget))

/-- `gettoken` before the end of the line. -/
theorem lt_of_gettoken (hps : parser.ps ≤ line.es)
    (hget : line.gettoken parser = .ok (got, first)) (hret : got.ret ≠ 0) :
    parser.ps < first.ps := by
  obtain ⟨-, ⟨-, hzero, -⟩ | ⟨token, rest, htoks, -, hafter, -⟩⟩ :=
    of_gettoken hget (ahead_of_le hps)
  · exact absurd hzero hret
  · exact lt_of_ahead ⟨hps, htoks⟩ hafter (gettoken_le hget)

end Tokens

/-! ## The functions keep the cursor in the line -/

section Functions

variable (line : Line)

theorem inside_redirect (tok : Byte) (cmd : Cmd) (q eq : ℕ) :
    line.Inside (redirect tok cmd q eq) := by
  unfold redirect
  split_ifs
  · exact inside_node _ _
  · exact inside_node _ _
  · exact inside_node _ _
  · exact inside_pure cmd

theorem inside_parseredirs (fuel : ℕ) (cmd : Cmd) :
    line.Inside (line.parseredirs fuel cmd) := by
  induction fuel generalizing cmd with
  | zero => exact inside_fuel
  | succ fuel ih =>
      refine (inside_peek rfl).bind fun found => ?_
      split_ifs
      · refine inside_gettoken.bind fun tok => inside_gettoken.bind fun file => ?_
        refine (inside_assert _).bind fun _ => ?_
        exact (line.inside_redirect _ _ _ _).bind fun wrapped => ih wrapped
      · exact inside_pure cmd

theorem inside_parseargs (fuel argc : ℕ) (ret : Cmd) :
    line.Inside (line.parseargs fuel argc ret) := by
  induction fuel generalizing argc ret with
  | zero => exact inside_fuel
  | succ fuel ih =>
      refine (inside_peek rfl).bind fun found => ?_
      split_ifs
      · exact inside_pure _
      · refine inside_gettoken.bind fun tok => ?_
        split_ifs
        · exact inside_pure _
        · refine (inside_assert _).bind fun _ => (inside_assert _).bind fun _ => ?_
          exact (line.inside_parseredirs fuel _).bind fun wrapped => ih _ wrapped

theorem inside_parsebacks (fuel : ℕ) (cmd : Cmd) :
    line.Inside (line.parsebacks fuel cmd) := by
  induction fuel generalizing cmd with
  | zero => exact inside_fuel
  | succ fuel ih =>
      refine (inside_peek rfl).bind fun found => ?_
      split_ifs
      · refine inside_gettoken.bind fun tok => ?_
        exact (inside_node _ _).bind fun wrapped => ih wrapped
      · exact inside_pure cmd

theorem inside_parse (fuel : ℕ) :
    line.Inside (line.parseline fuel) ∧ line.Inside (line.parsepipe fuel) ∧
      line.Inside (line.parseblock fuel) ∧ line.Inside (line.parseexec fuel) := by
  induction fuel with
  | zero => exact ⟨inside_fuel, inside_fuel, inside_fuel, inside_fuel⟩
  | succ fuel ih =>
      obtain ⟨hline, hpipe, hblock, hexec⟩ := ih
      refine ⟨?_, ?_, ?_, ?_⟩
      · refine hpipe.bind fun cmd => (line.inside_parsebacks fuel cmd).bind fun cmd => ?_
        refine (inside_peek rfl).bind fun found => ?_
        split_ifs
        · refine inside_gettoken.bind fun tok => ?_
          exact hline.bind fun right => inside_node _ _
        · exact inside_pure cmd
      · refine hexec.bind fun cmd => (inside_peek rfl).bind fun found => ?_
        split_ifs
        · refine inside_gettoken.bind fun tok => ?_
          exact hpipe.bind fun right => inside_node _ _
        · exact inside_pure cmd
      · refine (inside_peek rfl).bind fun found => (inside_assert _).bind fun _ => ?_
        refine inside_gettoken.bind fun tok => hline.bind fun cmd => ?_
        refine (inside_peek rfl).bind fun found => (inside_assert _).bind fun _ => ?_
        exact inside_gettoken.bind fun tok => line.inside_parseredirs fuel cmd
      · refine (inside_peek rfl).bind fun found => ?_
        split_ifs
        · exact hblock
        · refine (inside_node _ _).bind fun ret => ?_
          refine (line.inside_parseredirs fuel ret).bind fun ret => ?_
          exact line.inside_parseargs fuel 0 ret

theorem inside_call (fn : Fn) (fuel : ℕ) (cmd : Cmd) : line.Inside (line.call fn fuel cmd) := by
  obtain ⟨hline, hpipe, hblock, hexec⟩ := line.inside_parse fuel
  cases fn with
  | parseline => exact hline
  | parsepipe => exact hpipe
  | parseredirs => exact line.inside_parseredirs fuel cmd
  | parseblock => exact hblock
  | parseexec => exact hexec

end Functions

/-! ## Every call ends, in one way -/

/-- More fuel changes nothing unless the fuel was used up. -/
def Extends {α : Type} (less more : Parse α) : Prop :=
  ∀ parser, less parser = .error .fuel ∨ more parser = less parser

section Extends

variable {α β : Type}

theorem Extends.refl (action : Parse α) : Extends action action := fun _ => .inr rfl

theorem extends_fuel (more : Parse α) : Extends (throw .fuel) more := fun _ => .inl rfl

theorem Extends.bind {less more : Parse α} {next next' : α → Parse β}
    (haction : Extends less more) (hnext : ∀ value, Extends (next value) (next' value)) :
    Extends (less >>= next) (more >>= next') := by
  intro parser
  rcases haction parser with hfuel | hsame
  · exact .inl (bind_error hfuel)
  · cases hrun : less parser with
    | error stop =>
        right
        rw [bind_error hrun, bind_error (hsame.trans hrun)]
    | ok pair =>
        rw [bind_ok hrun, bind_ok (hsame.trans hrun)]
        exact hnext pair.1 pair.2

/-- The same action first, and an extension behind it. -/
theorem Extends.after {action : Parse α} {next next' : α → Parse β}
    (hnext : ∀ value, Extends (next value) (next' value)) :
    Extends (action >>= next) (action >>= next') :=
  (Extends.refl action).bind hnext

end Extends

section Fuel

variable (line : Line)

theorem parseredirs_extends (fuel : ℕ) (cmd : Cmd) :
    Extends (line.parseredirs fuel cmd) (line.parseredirs (fuel + 1) cmd) := by
  induction fuel generalizing cmd with
  | zero => exact extends_fuel _
  | succ fuel ih =>
      refine .after fun found => ?_
      split_ifs
      · exact .after fun _ => .after fun _ => .after fun _ => .after fun wrapped => ih wrapped
      · exact .refl _

theorem parseargs_extends (fuel argc : ℕ) (ret : Cmd) :
    Extends (line.parseargs fuel argc ret) (line.parseargs (fuel + 1) argc ret) := by
  induction fuel generalizing argc ret with
  | zero => exact extends_fuel _
  | succ fuel ih =>
      refine .after fun found => ?_
      split_ifs
      · exact .refl _
      · refine .after fun tok => ?_
        split_ifs
        · exact .refl _
        · refine .after fun _ => .after fun _ => ?_
          exact (line.parseredirs_extends fuel _).bind fun wrapped => ih _ wrapped

theorem parsebacks_extends (fuel : ℕ) (cmd : Cmd) :
    Extends (line.parsebacks fuel cmd) (line.parsebacks (fuel + 1) cmd) := by
  induction fuel generalizing cmd with
  | zero => exact extends_fuel _
  | succ fuel ih =>
      refine .after fun found => ?_
      split_ifs
      · exact .after fun _ => .after fun wrapped => ih wrapped
      · exact .refl _

theorem parse_extends (fuel : ℕ) :
    Extends (line.parseline fuel) (line.parseline (fuel + 1)) ∧
      Extends (line.parsepipe fuel) (line.parsepipe (fuel + 1)) ∧
        Extends (line.parseblock fuel) (line.parseblock (fuel + 1)) ∧
          Extends (line.parseexec fuel) (line.parseexec (fuel + 1)) := by
  induction fuel with
  | zero => exact ⟨extends_fuel _, extends_fuel _, extends_fuel _, extends_fuel _⟩
  | succ fuel ih =>
      obtain ⟨hline, hpipe, hblock, hexec⟩ := ih
      refine ⟨?_, ?_, ?_, ?_⟩
      · refine hpipe.bind fun cmd => (line.parsebacks_extends fuel cmd).bind fun cmd => ?_
        refine .after fun found => ?_
        split_ifs
        · exact .after fun _ => hline.bind fun _ => .refl _
        · exact .refl _
      · refine hexec.bind fun cmd => .after fun found => ?_
        split_ifs
        · exact .after fun _ => hpipe.bind fun _ => .refl _
        · exact .refl _
      · refine .after fun _ => .after fun _ => .after fun _ => hline.bind fun cmd => ?_
        exact .after fun _ => .after fun _ => .after fun _ => line.parseredirs_extends fuel cmd
      · refine .after fun found => ?_
        split_ifs
        · exact hblock
        · refine .after fun ret => (line.parseredirs_extends fuel ret).bind fun ret => ?_
          exact line.parseargs_extends fuel 0 ret

theorem call_extends (fn : Fn) (fuel : ℕ) (cmd : Cmd) :
    Extends (line.call fn fuel cmd) (line.call fn (fuel + 1) cmd) := by
  obtain ⟨hline, hpipe, hblock, hexec⟩ := line.parse_extends fuel
  cases fn with
  | parseline => exact hline
  | parsepipe => exact hpipe
  | parseredirs => exact line.parseredirs_extends fuel cmd
  | parseblock => exact hblock
  | parseexec => exact hexec

/-- Fuel for every call from this cursor. -/
def enough (parser : Parser) : ℕ := 4 * (line.es - parser.ps) + 4

theorem call_settles (fn : Fn) {fuel : ℕ} (cmd : Cmd) {parser : Parser}
    (hps : parser.ps ≤ line.es) (hfuel : line.enough parser ≤ fuel) :
    Settled (line.call fn fuel cmd parser) := by
  have hahead : Ahead line parser (line.tokensFrom parser.ps) := ahead_of_le hps
  have hlength : (line.tokensFrom parser.ps).length ≤ line.es - parser.ps := by
    calc (line.tokensFrom parser.ps).length
        ≤ (line.text.drop parser.ps).length := Shell.length_tokens_le _ _
      _ = line.es - parser.ps := List.length_drop
  obtain ⟨hline, hpipe, hblock, hexec⟩ := @parse_settles line fuel
  rw [enough] at hfuel
  cases fn with
  | parseline => exact hline _ _ (by omega) hahead
  | parsepipe => exact hpipe _ _ (by omega) hahead
  | parseredirs => exact parseredirs_settled (by omega) cmd hahead
  | parseblock => exact hblock _ _ (by omega) hahead
  | parseexec => exact hexec _ _ (by omega) hahead

/-- The outcome does not depend on the fuel once there is enough. -/
theorem call_stable (fn : Fn) {fuel : ℕ} (cmd : Cmd) {parser : Parser}
    (hps : parser.ps ≤ line.es) (hfuel : line.enough parser ≤ fuel) :
    line.call fn fuel cmd parser = line.call fn (line.enough parser) cmd parser := by
  induction fuel, hfuel using Nat.le_induction with
  | base => rfl
  | succ fuel hfuel ih =>
      rcases line.call_extends fn fuel cmd parser with hout | hsame
      · obtain hpanic | ⟨value, hok⟩ := line.call_settles fn cmd hps hfuel
        · rw [hpanic] at hout
          cases hout
        · rw [hok] at hout
          cases hout
      · exact hsame.trans ih

end Fuel

end Line

/-! ## The watched parser never stops for want of progress -/

/-- How deep a function is called before a byte is consumed. -/
def Fn.rank : Fn → ℕ
  | .parseline => 3
  | .parsepipe => 2
  | .parseexec => 1
  | .parseblock | .parseredirs => 0

/-- Every active call started further back, or at the cursor in a function that comes
earlier. -/
def Admits (chain : Chain) (fn : Fn) (ps : ℕ) : Prop :=
  ∀ call ∈ chain, call.2 < ps ∨ (call.2 ≤ ps ∧ fn.rank < call.1.rank)

section Chain

variable {chain : Chain} {fn inner : Fn} {ps next : ℕ} {parser : Parser}

theorem admits_nil (fn : Fn) (ps : ℕ) : Admits [] fn ps := by simp [Admits]

theorem Admits.mono (hadmits : Admits chain fn ps) (hle : ps ≤ next) : Admits chain fn next := by
  intro call hcall
  rcases hadmits call hcall with hlt | ⟨hat, hrank⟩
  · exact .inl (hlt.trans_le hle)
  · exact .inr ⟨hat.trans hle, hrank⟩

/-- A call of a later function. -/
theorem Admits.deeper (hadmits : Admits chain fn ps) (hle : ps ≤ next)
    (hrank : inner.rank < fn.rank) : Admits ((fn, ps) :: chain) inner next := by
  rw [Admits, List.forall_mem_cons]
  refine ⟨.inr ⟨hle, hrank⟩, ?_⟩
  intro call hcall
  rcases hadmits call hcall with hlt | ⟨hat, hrank'⟩
  · exact .inl (hlt.trans_le hle)
  · exact .inr ⟨hat.trans hle, hrank.trans hrank'⟩

/-- Any call after a byte has been consumed. -/
theorem Admits.further (hadmits : Admits chain fn ps) (hlt : ps < next) (inner : Fn) :
    Admits ((fn, ps) :: chain) inner next := by
  rw [Admits, List.forall_mem_cons]
  refine ⟨.inl hlt, ?_⟩
  intro call hcall
  rcases hadmits call hcall with hbefore | ⟨hat, -⟩
  · exact .inl (hbefore.trans hlt)
  · exact .inl (hat.trans_lt hlt)

theorem enter_ok (hadmits : Admits chain fn parser.ps) :
    enter chain fn parser = .ok ((fn, parser.ps) :: chain, parser) := by
  have hall : ∀ call ∈ chain, call.1 = fn → call.2 < parser.ps := by
    rintro call hcall rfl
    exact (hadmits call hcall).resolve_right fun hrank => lt_irrefl _ hrank.2
  show (if ∀ call ∈ chain, call.1 = fn → call.2 < parser.ps then
    pure ((fn, parser.ps) :: chain) else throw .stuck : Watch Chain) parser = _
  rw [if_pos hall]
  rfl

theorem iterate_ok {last : Option ℕ} (hlast : ∀ before ∈ last, before < parser.ps) :
    iterate last parser = .ok (some parser.ps, parser) := by
  show (if ∀ before ∈ last, before < parser.ps then pure (some parser.ps)
    else throw .stuck : Watch (Option ℕ)) parser = _
  rw [if_pos hlast]
  rfl

end Chain

section Plain

variable {α β : Type} {parser : Parser}

/-- A check that succeeds. -/
theorem checked_bind {check : Watch α} {value : α} {next : α → Watch β}
    (hcheck : check parser = .ok (value, parser)) :
    (check >>= next) parser = next value parser := by
  show (check parser >>= fun pair => next pair.1 pair.2) = _
  rw [hcheck]
  rfl

/-- Two watched steps are the plain ones when each of them is. -/
theorem plain_bind {action : Parse α} {next : α → Parse β} {watched : Watch α}
    {next' : α → Watch β} (haction : watched parser = plain action parser)
    (hnext : ∀ value after, action parser = .ok (value, after) →
      next' value after = plain (next value) after) :
    (watched >>= next') parser = plain (action >>= next) parser := by
  show (watched parser >>= fun pair => next' pair.1 pair.2) = _
  rw [haction]
  cases hrun : action parser with
  | error stop =>
      rw [plain, plain, bind_error hrun, hrun]
      rfl
  | ok pair =>
      rw [plain, plain, bind_ok hrun, hrun]
      exact hnext pair.1 pair.2 hrun

end Plain

namespace Line

variable {line : Line}

theorem loopredirs_eq (fuel : ℕ) {last : Option ℕ} (cmd : Cmd) {parser : Parser}
    (hps : parser.ps ≤ line.es) (hlast : ∀ before ∈ last, before < parser.ps) :
    line.loopredirs fuel last cmd parser = plain (line.parseredirs fuel cmd) parser := by
  induction fuel generalizing last cmd parser with
  | zero => rfl
  | succ fuel ih =>
      refine (checked_bind (iterate_ok hlast)).trans (plain_bind rfl ?_)
      intro found first hpeek
      have hfirst := (inside_peek rfl parser hps).2 _ _ hpeek
      cases found with
      | false => rfl
      | true =>
          refine plain_bind rfl fun tok second hget => ?_
          have hsecond := (inside_gettoken first hfirst.2).2 _ _ hget
          have hlt := lt_of_peek rfl hps hpeek hget
          refine plain_bind rfl fun file third hfile => ?_
          have hthird := (inside_gettoken second hsecond.2).2 _ _ hfile
          refine plain_bind rfl fun _ fourth hassert => ?_
          obtain ⟨-, heq⟩ := of_assert_ok hassert
          cases heq
          refine plain_bind rfl fun wrapped fifth hredirect => ?_
          have hfifth := (line.inside_redirect _ _ _ _ third hthird.2).2 _ _ hredirect
          apply ih wrapped hfifth.2
          rintro before ⟨⟩
          omega

theorem watchredirs_eq (fuel : ℕ) {chain : Chain} (cmd : Cmd) {parser : Parser}
    (hps : parser.ps ≤ line.es) (hadmits : Admits chain .parseredirs parser.ps) :
    line.watchredirs fuel chain cmd parser = plain (line.parseredirs fuel cmd) parser :=
  (checked_bind (enter_ok hadmits)).trans (loopredirs_eq fuel cmd hps (by simp))

theorem loopargs_eq (fuel : ℕ) {chain : Chain} {last : Option ℕ} (argc : ℕ) (ret : Cmd)
    {parser : Parser} (hps : parser.ps ≤ line.es)
    (hlast : ∀ before ∈ last, before < parser.ps)
    (hadmits : Admits chain .parseredirs parser.ps) :
    line.loopargs fuel chain last argc ret parser =
      plain (line.parseargs fuel argc ret) parser := by
  induction fuel generalizing last argc ret parser with
  | zero => rfl
  | succ fuel ih =>
      refine (checked_bind (iterate_ok hlast)).trans (plain_bind rfl ?_)
      intro found first hpeek
      have hfirst := (inside_peek rfl parser hps).2 _ _ hpeek
      cases found with
      | true => rfl
      | false =>
          refine plain_bind rfl fun tok second hget => ?_
          have hsecond := (inside_gettoken first hfirst.2).2 _ _ hget
          by_cases hret : tok.ret = 0
          · simp only [if_pos hret]
            rfl
          · simp only [if_neg hret]
            have hlt := lt_of_gettoken hfirst.2 hget hret
            refine plain_bind rfl fun _ third hassert => ?_
            obtain ⟨-, heq⟩ := of_assert_ok hassert
            cases heq
            refine plain_bind rfl fun _ fourth hassert' => ?_
            obtain ⟨-, heq⟩ := of_assert_ok hassert'
            cases heq
            have hredirs := line.inside_parseredirs fuel
              (ret.store argc (some tok.q) (some tok.eq)) second hsecond.2
            refine plain_bind (watchredirs_eq fuel _ hsecond.2 (hadmits.mono (by omega))) ?_
            intro wrapped fifth hrun
            have hfifth := hredirs.2 _ _ hrun
            apply ih _ wrapped hfifth.2 ?_ (hadmits.mono (by omega))
            rintro before ⟨⟩
            omega

theorem loopbacks_eq (fuel : ℕ) {last : Option ℕ} (cmd : Cmd) {parser : Parser}
    (hps : parser.ps ≤ line.es) (hlast : ∀ before ∈ last, before < parser.ps) :
    line.loopbacks fuel last cmd parser = plain (line.parsebacks fuel cmd) parser := by
  induction fuel generalizing last cmd parser with
  | zero => rfl
  | succ fuel ih =>
      refine (checked_bind (iterate_ok hlast)).trans (plain_bind rfl ?_)
      intro found first hpeek
      have hfirst := (inside_peek rfl parser hps).2 _ _ hpeek
      cases found with
      | false => rfl
      | true =>
          refine plain_bind rfl fun tok second hget => ?_
          have hsecond := (inside_gettoken first hfirst.2).2 _ _ hget
          have hlt := lt_of_peek rfl hps hpeek hget
          refine plain_bind rfl fun wrapped third hback => ?_
          have hthird := (inside_node _ _ second hsecond.2).2 _ _ hback
          apply ih wrapped hthird.2
          rintro before ⟨⟩
          omega

/-- Wherever the call chain allows the function, its watched copy does the same. -/
def Watched (line : Line) (fn : Fn) (watched : Chain → Watch Cmd) (action : Parse Cmd) :
    Prop :=
  ∀ (chain : Chain) (parser : Parser), parser.ps ≤ line.es → Admits chain fn parser.ps →
    watched chain parser = plain action parser

section Watched

variable {fuel : ℕ}

theorem watchline_eq (hpipe : line.Watched .parsepipe (line.watchpipe fuel) (line.parsepipe fuel))
    (hline : line.Watched .parseline (line.watchline fuel) (line.parseline fuel)) :
    line.Watched .parseline (line.watchline (fuel + 1)) (line.parseline (fuel + 1)) := by
  intro chain parser hps hadmits
  refine (checked_bind (enter_ok hadmits)).trans ?_
  refine plain_bind (hpipe _ parser hps (hadmits.deeper le_rfl (by decide))) ?_
  intro cmd first hrun
  have hfirst := ((line.inside_parse fuel).2.1 parser hps).2 _ _ hrun
  refine plain_bind (loopbacks_eq fuel cmd hfirst.2 (by simp)) fun cmd second hbacks => ?_
  have hsecond := (line.inside_parsebacks fuel _ first hfirst.2).2 _ _ hbacks
  refine plain_bind rfl fun found third hpeek => ?_
  have hthird := (inside_peek rfl second hsecond.2).2 _ _ hpeek
  cases found with
  | false => rfl
  | true =>
      refine plain_bind rfl fun tok fourth hget => ?_
      have hfourth := (inside_gettoken third hthird.2).2 _ _ hget
      have hlt := lt_of_peek rfl hsecond.2 hpeek hget
      exact plain_bind (hline _ fourth hfourth.2 (hadmits.further (by omega) _)) fun _ _ _ => rfl

theorem watchpipe_eq (hexec : line.Watched .parseexec (line.watchexec fuel) (line.parseexec fuel))
    (hpipe : line.Watched .parsepipe (line.watchpipe fuel) (line.parsepipe fuel)) :
    line.Watched .parsepipe (line.watchpipe (fuel + 1)) (line.parsepipe (fuel + 1)) := by
  intro chain parser hps hadmits
  refine (checked_bind (enter_ok hadmits)).trans ?_
  refine plain_bind (hexec _ parser hps (hadmits.deeper le_rfl (by decide))) ?_
  intro cmd first hrun
  have hfirst := ((line.inside_parse fuel).2.2.2 parser hps).2 _ _ hrun
  refine plain_bind rfl fun found second hpeek => ?_
  have hsecond := (inside_peek rfl first hfirst.2).2 _ _ hpeek
  cases found with
  | false => rfl
  | true =>
      refine plain_bind rfl fun tok third hget => ?_
      have hthird := (inside_gettoken second hsecond.2).2 _ _ hget
      have hlt := lt_of_peek rfl hfirst.2 hpeek hget
      exact plain_bind (hpipe _ third hthird.2 (hadmits.further (by omega) _)) fun _ _ _ => rfl

theorem watchblock_eq
    (hline : line.Watched .parseline (line.watchline fuel) (line.parseline fuel)) :
    line.Watched .parseblock (line.watchblock (fuel + 1)) (line.parseblock (fuel + 1)) := by
  intro chain parser hps hadmits
  refine (checked_bind (enter_ok hadmits)).trans ?_
  refine plain_bind rfl fun found first hpeek => ?_
  refine plain_bind rfl fun _ second hassert => ?_
  obtain ⟨rfl, heq⟩ := of_assert_ok hassert
  cases heq
  have hfirst := (inside_peek rfl parser hps).2 _ _ hpeek
  refine plain_bind rfl fun tok third hget => ?_
  have hthird := (inside_gettoken first hfirst.2).2 _ _ hget
  have hlt := lt_of_peek rfl hps hpeek hget
  refine plain_bind (hline _ third hthird.2 (hadmits.further hlt _)) fun cmd fourth hrun => ?_
  have hfourth := ((line.inside_parse fuel).1 third hthird.2).2 _ _ hrun
  refine plain_bind rfl fun found' fifth hpeek' => ?_
  have hfifth := (inside_peek rfl fourth hfourth.2).2 _ _ hpeek'
  refine plain_bind rfl fun _ sixth hassert' => ?_
  obtain ⟨-, heq⟩ := of_assert_ok hassert'
  cases heq
  refine plain_bind rfl fun tok' seventh hget' => ?_
  have hseventh := (inside_gettoken fifth hfifth.2).2 _ _ hget'
  exact watchredirs_eq fuel cmd hseventh.2 (hadmits.further (by omega) _)

theorem watchexec_eq
    (hblock : line.Watched .parseblock (line.watchblock fuel) (line.parseblock fuel)) :
    line.Watched .parseexec (line.watchexec (fuel + 1)) (line.parseexec (fuel + 1)) := by
  intro chain parser hps hadmits
  refine (checked_bind (enter_ok hadmits)).trans ?_
  refine plain_bind rfl fun found first hpeek => ?_
  have hfirst := (inside_peek rfl parser hps).2 _ _ hpeek
  cases found with
  | true => exact hblock _ first hfirst.2 (hadmits.deeper hfirst.1 (by decide))
  | false =>
      refine plain_bind rfl fun ret second hnode => ?_
      have hsecond := (inside_node _ _ first hfirst.2).2 _ _ hnode
      have hredirs : Admits ((.parseexec, parser.ps) :: chain) .parseredirs second.ps :=
        hadmits.deeper (hfirst.1.trans hsecond.1) (by decide)
      refine plain_bind (watchredirs_eq fuel ret hsecond.2 hredirs) fun ret third hrun => ?_
      have hthird := (line.inside_parseredirs fuel _ second hsecond.2).2 _ _ hrun
      exact loopargs_eq fuel 0 ret hthird.2 (by simp) (hredirs.mono hthird.1)

end Watched

theorem watch_parse (fuel : ℕ) :
    line.Watched .parseline (line.watchline fuel) (line.parseline fuel) ∧
      line.Watched .parsepipe (line.watchpipe fuel) (line.parsepipe fuel) ∧
        line.Watched .parseblock (line.watchblock fuel) (line.parseblock fuel) ∧
          line.Watched .parseexec (line.watchexec fuel) (line.parseexec fuel) := by
  induction fuel with
  | zero =>
      exact ⟨fun _ _ _ _ => rfl, fun _ _ _ _ => rfl, fun _ _ _ _ => rfl, fun _ _ _ _ => rfl⟩
  | succ fuel ih =>
      obtain ⟨hline, hpipe, hblock, hexec⟩ := ih
      exact ⟨watchline_eq hpipe hline, watchpipe_eq hexec hpipe, watchblock_eq hline,
        watchexec_eq hblock⟩

theorem watch_eq (fn : Fn) (fuel : ℕ) (cmd : Cmd) :
    line.Watched fn (fun chain => line.watch fn fuel chain cmd) (line.call fn fuel cmd) := by
  obtain ⟨hline, hpipe, hblock, hexec⟩ := @watch_parse line fuel
  cases fn with
  | parseline => exact hline
  | parsepipe => exact hpipe
  | parseredirs => exact fun chain parser hps hadmits => watchredirs_eq fuel cmd hps hadmits
  | parseblock => exact hblock
  | parseexec => exact hexec

end Line

theorem plain_ne_stuck {α : Type} (action : Parse α) (parser : Parser) :
    plain action parser ≠ .error .stuck := by
  rw [plain]
  cases action parser with
  | error stop => simp [Except.mapError]
  | ok pair => simp [Except.mapError]

/-- From every cursor in the line each function panics or returns, in one way for all
sufficient fuel, with the cursor further on in the line and no byte read beyond it; and
whatever the fuel, it never enters a function again nor comes round a loop without
having consumed a byte. -/
theorem parser_progress (line : Line) (fn : Fn) (cmd : Cmd) (parser : Parser)
    (hps : parser.ps ≤ line.es) :
    (∃ outcome, Settled outcome ∧
      (∀ fuel ≥ line.enough parser, line.call fn fuel cmd parser = outcome) ∧
      ∀ value after, outcome = .ok (value, after) →
        parser.ps ≤ after.ps ∧ after.ps ≤ line.es) ∧
    ∀ fuel, line.call fn fuel cmd parser ≠ .error .fault ∧
      line.watch fn fuel [] cmd parser = plain (line.call fn fuel cmd) parser ∧
        line.watch fn fuel [] cmd parser ≠ .error .stuck := by
  constructor
  · refine ⟨line.call fn (line.enough parser) cmd parser,
      line.call_settles fn cmd hps le_rfl, ?_, ?_⟩
    · exact fun fuel hfuel => line.call_stable fn cmd hps hfuel
    · exact (line.inside_call fn _ cmd parser hps).2
  · intro fuel
    have hwatch := Line.watch_eq fn fuel cmd [] parser hps (admits_nil fn parser.ps)
    exact ⟨(line.inside_call fn fuel cmd parser hps).1, hwatch,
      fun hstuck => plain_ne_stuck _ _ (hwatch.symm.trans hstuck)⟩

/-- `parseexec` in the middle of a line returns further on in it. -/
theorem parser_progress_sample : (⟨1, 0⟩ : Parser).ps ≤ sampleLine.es ∧
    (∃ cmd after, (∀ fuel ≥ sampleLine.enough ⟨1, 0⟩,
        sampleLine.call .parseexec fuel (.exec (fun _ => none) fun _ => none) ⟨1, 0⟩ =
          .ok (cmd, after)) ∧
      1 ≤ after.ps ∧ after.ps ≤ sampleLine.es) ∧
    ∀ fuel, sampleLine.watch .parseexec fuel [] (.exec (fun _ => none) fun _ => none) ⟨1, 0⟩ ≠
      .error .stuck := by
  have hps : (⟨1, 0⟩ : Parser).ps ≤ sampleLine.es := by decide
  obtain ⟨⟨outcome, -, hfuel, hinside⟩, hwatch⟩ := parser_progress sampleLine .parseexec
    (.exec (fun _ => none) fun _ => none) ⟨1, 0⟩ hps
  refine ⟨hps, ?_, fun fuel => (hwatch fuel).2.2⟩
  have hreturns : outcome.toBool = true := by
    rw [← hfuel _ le_rfl]
    decide +kernel
  match outcome, hreturns with
  | .ok (cmd, after), _ => exact ⟨cmd, after, hfuel, hinside cmd after rfl⟩

end JyyOS.Shell
