import JyyOS.Shell.ParserCorrect

/-!
# `parsecmd` on whole lines

With fuel that is linear in the line the parser ends, in a tree or in a panic.
It ends in a tree exactly on the lines that derive from the grammar within the
limits on words and on the arena, and the derivation is the only one.
-/

namespace JyyOS.Shell

/-! ## Every parse settles -/

/-- The run returned or panicked; it read nothing beyond the line and its fuel
lasted. -/
def Settled {α : Type} (result : Except Stop α) : Prop :=
  result = .error .panic ∨ ∃ value, result = .ok value

theorem Settled.ok {α : Type} (value : α) : Settled (.ok value) := .inr ⟨value, rfl⟩

theorem Settled.bind {α β : Type} {action : Parse α} {next : α → Parse β}
    {parser : Parser} (haction : Settled (action parser))
    (hnext : ∀ value after, action parser = .ok (value, after) →
      Settled (next value after)) :
    Settled ((action >>= next) parser) := by
  obtain hpanic | ⟨⟨value, after⟩, hok⟩ := haction
  · left
    exact bind_error hpanic
  · rw [bind_ok hok]
    exact hnext value after hok

theorem settled_assert (cond : Bool) (parser : Parser) : Settled (assert cond parser) := by
  cases cond with
  | true => exact .ok _
  | false => exact .inl rfl

theorem settled_node (sz : ℕ) (cmd : Cmd) (parser : Parser) :
    Settled ((do zalloc sz; return cmd : Parse Cmd) parser) := by
  refine .bind ?_ fun _ _ _ => .ok _
  rw [zalloc_eq]
  split_ifs
  · exact .ok _
  · exact .inl rfl

namespace Line

variable {line : Line} {parser : Parser} {toks : List Token}

/-- After a `peek`, with its answer and the tokens still ahead. -/
theorem settled_peek {β : Type} (set : List Byte) (hset : set.all (strchr symbols) = true)
    (hahead : Ahead line parser toks) {next : Bool → Parse β}
    (hnext : ∀ after, Ahead line after toks → Settled (next (peeks set toks) after)) :
    Settled ((line.peek set >>= next) parser) := by
  obtain ⟨ps, hpeek, hafter⟩ := peek_spec hset hahead
  rw [bind_ok hpeek]
  exact hnext _ hafter

theorem settled_gettoken {β : Type} (hahead : Ahead line parser toks)
    {next : Got → Parse β}
    (hnext : ∀ got after, line.gettoken parser = .ok (got, after) →
      Settled (next got after)) :
    Settled ((line.gettoken >>= next) parser) := by
  refine .bind ?_ hnext
  cases toks with
  | nil =>
      obtain ⟨q, eq, ps, hget, -⟩ := gettoken_nil hahead
      exact .inr ⟨_, hget⟩
  | cons token toks =>
      obtain ⟨q, eq, ps, hget, -⟩ := gettoken_cons hahead
      exact .inr ⟨_, hget⟩

theorem parseredirs_settled {fuel : ℕ} (hfuel : toks.length < fuel) (cmd : Cmd)
    (hahead : Ahead line parser toks) : Settled (line.parseredirs fuel cmd parser) := by
  induction fuel generalizing cmd parser toks with
  | zero => omega
  | succ fuel ih =>
      apply settled_peek _ rfl hahead
      intro first hfirst
      split_ifs with hpeeks
      · obtain ⟨token, rest, rfl, op, rfl⟩ := (peeks_redir _).mp hpeeks
        apply settled_gettoken hfirst
        intro got second hget
        obtain ⟨hret, hsecond, -⟩ := of_gettoken_cons hget hfirst
        apply settled_gettoken hsecond
        intro file third hfile
        refine .bind (settled_assert _ _) fun _ fourth hassert => ?_
        obtain ⟨hword, heq⟩ := of_assert_ok hassert
        cases heq
        obtain ⟨rest, rfl, hthird, -⟩ :=
          of_gettoken_word hfile hsecond (of_decide_eq_true hword)
        rw [hret, redirect_eq]
        refine .bind (settled_node _ _ _) fun wrapped fifth hredirect => ?_
        obtain ⟨-, -, rfl⟩ := of_node_ok hredirect
        simp only [List.length_cons] at hfuel
        exact ih (by omega) _ ⟨hthird.le, hthird.toks⟩
      · exact .ok _

theorem parsebacks_settled {fuel : ℕ} (hfuel : toks.length < fuel) (cmd : Cmd)
    (hahead : Ahead line parser toks) : Settled (line.parsebacks fuel cmd parser) := by
  induction fuel generalizing cmd parser toks with
  | zero => omega
  | succ fuel ih =>
      apply settled_peek _ rfl hahead
      intro first hfirst
      split_ifs with hpeeks
      · obtain ⟨rest, rfl⟩ := (peeks_amp _).mp hpeeks
        apply settled_gettoken hfirst
        intro got second hget
        obtain ⟨-, hsecond, -⟩ := of_gettoken_cons hget hfirst
        refine .bind (settled_node _ _ _) fun wrapped third hback => ?_
        obtain ⟨-, -, rfl⟩ := of_node_ok hback
        simp only [List.length_cons] at hfuel
        exact ih (by omega) _ ⟨hsecond.le, hsecond.toks⟩
      · exact .ok _

theorem parseargs_settled {fuel : ℕ} (hfuel : toks.length < fuel) (argc : ℕ)
    (ret : Cmd) (hahead : Ahead line parser toks) :
    Settled (line.parseargs fuel argc ret parser) := by
  induction fuel generalizing argc ret parser toks with
  | zero => omega
  | succ fuel ih =>
      apply settled_peek _ rfl hahead
      intro first hfirst
      split_ifs
      · exact .ok _
      · apply settled_gettoken hfirst
        intro tok second hget
        split_ifs
        · exact .ok _
        · refine .bind (settled_assert _ _) fun _ third hassert => ?_
          obtain ⟨hword, heq⟩ := of_assert_ok hassert
          cases heq
          obtain ⟨rest, rfl, hsecond, -⟩ :=
            of_gettoken_word hget hfirst (of_decide_eq_true hword)
          simp only [List.length_cons] at hfuel
          refine .bind (settled_assert _ _) fun _ fourth hassert' => ?_
          obtain ⟨-, heq⟩ := of_assert_ok hassert'
          cases heq
          refine .bind (parseredirs_settled (by omega) _ hsecond)
            fun wrapped fifth hredirs => ?_
          obtain ⟨redirs, rest, rfl, hfifth, -⟩ := parseredirs_sound hredirs hsecond
          simp only [List.length_append] at hfuel
          exact ih (by omega) _ _ hfifth

variable (line) in
/-- Fuel of four calls for each token and a few more settles a parse. -/
def SettlesFrom (extra fuel : ℕ) (action : Parse Cmd) : Prop :=
  ∀ (parser : Parser) (toks : List Token), 4 * toks.length + extra ≤ fuel →
    Ahead line parser toks → Settled (action parser)

section SettlesFrom

variable {fuel : ℕ}

theorem parseline_settles (hpipe : line.SettlesFrom 3 fuel (line.parsepipe fuel))
    (hline : line.SettlesFrom 4 fuel (line.parseline fuel)) :
    line.SettlesFrom 4 (fuel + 1) (line.parseline (fuel + 1)) := by
  intro parser toks hfuel hahead
  refine .bind (hpipe _ _ (by omega) hahead) fun cmd first hrun => ?_
  obtain ⟨pipe, rest, rfl, hfirst, -⟩ := (parse_sound fuel).2.1 _ _ _ _ hrun hahead
  simp only [List.length_append] at hfuel
  refine .bind (parsebacks_settled (by omega) _ hfirst) fun cmd second hbacks => ?_
  obtain ⟨amps, rest, rfl, hsecond, -⟩ := parsebacks_sound hbacks hfirst
  apply settled_peek _ rfl hsecond
  intro third hthird
  split_ifs with hpeeks
  · obtain ⟨rest, rfl⟩ := (peeks_semi _).mp hpeeks
    apply settled_gettoken hthird
    intro got fourth hget
    obtain ⟨-, hfourth, -⟩ := of_gettoken_cons hget hthird
    simp only [List.length_append, List.length_cons] at hfuel
    exact .bind (hline _ _ (by omega) hfourth) fun _ _ _ => settled_node _ _ _
  · exact .ok _

theorem parsepipe_settles (hexec : line.SettlesFrom 2 fuel (line.parseexec fuel))
    (hpipe : line.SettlesFrom 3 fuel (line.parsepipe fuel)) :
    line.SettlesFrom 3 (fuel + 1) (line.parsepipe (fuel + 1)) := by
  intro parser toks hfuel hahead
  refine .bind (hexec _ _ (by omega) hahead) fun cmd first hrun => ?_
  obtain ⟨exec, rest, rfl, hfirst, -⟩ := (parse_sound fuel).2.2.2 _ _ _ _ hrun hahead
  apply settled_peek _ rfl hfirst
  intro second hsecond
  split_ifs with hpeeks
  · obtain ⟨rest, rfl⟩ := (peeks_bar _).mp hpeeks
    apply settled_gettoken hsecond
    intro got third hget
    obtain ⟨-, hthird, -⟩ := of_gettoken_cons hget hsecond
    simp only [List.length_append, List.length_cons] at hfuel
    exact .bind (hpipe _ _ (by omega) hthird) fun _ _ _ => settled_node _ _ _
  · exact .ok _

theorem parseblock_settles (hline : line.SettlesFrom 4 fuel (line.parseline fuel)) :
    line.SettlesFrom 1 (fuel + 1) (line.parseblock (fuel + 1)) := by
  intro parser toks hfuel hahead
  apply settled_peek _ rfl hahead
  intro first hfirst
  refine .bind (settled_assert _ _) fun _ second hassert => ?_
  obtain ⟨hpeeks, heq⟩ := of_assert_ok hassert
  cases heq
  obtain ⟨rest, rfl⟩ := (peeks_lpar _).mp hpeeks
  apply settled_gettoken hfirst
  intro got third hget
  obtain ⟨-, hthird, -⟩ := of_gettoken_cons hget hfirst
  simp only [List.length_cons] at hfuel
  refine .bind (hline _ _ (by omega) hthird) fun cmd fourth hrun => ?_
  obtain ⟨inner, rest, rfl, hfourth, -⟩ := (parse_sound fuel).1 _ _ _ _ hrun hthird
  apply settled_peek _ rfl hfourth
  intro fifth hfifth
  refine .bind (settled_assert _ _) fun _ sixth hassert' => ?_
  obtain ⟨hpeeks', heq⟩ := of_assert_ok hassert'
  cases heq
  obtain ⟨rest, rfl⟩ := (peeks_rpar _).mp hpeeks'
  apply settled_gettoken hfifth
  intro got' seventh hget'
  obtain ⟨-, hseventh, -⟩ := of_gettoken_cons hget' hfifth
  simp only [List.length_append, List.length_cons] at hfuel
  exact parseredirs_settled (by omega) _ hseventh

theorem parseexec_settles (hblock : line.SettlesFrom 1 fuel (line.parseblock fuel)) :
    line.SettlesFrom 2 (fuel + 1) (line.parseexec (fuel + 1)) := by
  intro parser toks hfuel hahead
  apply settled_peek _ rfl hahead
  intro first hfirst
  split_ifs
  · exact hblock _ _ (by omega) hfirst
  · refine .bind (settled_node _ _ _) fun cmd second hnode => ?_
    obtain ⟨-, -, rfl⟩ := of_node_ok hnode
    have hsecond : Ahead line { first with freem := first.freem + execcmdSize } toks :=
      ⟨hfirst.le, hfirst.toks⟩
    refine .bind (parseredirs_settled (by omega) _ hsecond) fun cmd third hredirs => ?_
    obtain ⟨redirs, rest, rfl, hthird, -⟩ := parseredirs_sound hredirs hsecond
    simp only [List.length_append] at hfuel
    exact parseargs_settled (by omega) _ _ hthird

end SettlesFrom

theorem parse_settles (fuel : ℕ) :
    line.SettlesFrom 4 fuel (line.parseline fuel) ∧
      line.SettlesFrom 3 fuel (line.parsepipe fuel) ∧
        line.SettlesFrom 1 fuel (line.parseblock fuel) ∧
          line.SettlesFrom 2 fuel (line.parseexec fuel) := by
  induction fuel with
  | zero =>
      refine ⟨?_, ?_, ?_, ?_⟩ <;>
        exact fun _ _ hfuel _ => by omega
  | succ fuel ih =>
      obtain ⟨hline, hpipe, hblock, hexec⟩ := ih
      exact ⟨parseline_settles hpipe hline, parsepipe_settles hexec hpipe,
        parseblock_settles hline, parseexec_settles hblock⟩

end Line

/-! ## Fuel and tokens -/

theorem length_redirsYield (redirs : List Redir) :
    (redirsYield redirs).length = 2 * redirs.length := by
  induction redirs with
  | nil => rfl
  | cons redir redirs ih =>
      simp only [redirsYield, List.flatMap_cons, List.length_append, Redir.yield,
        List.length_cons, List.length_nil] at ih ⊢
      omega

theorem argsNeed_le (words : List (Slice × List Redir)) :
    Line.argsNeed words ≤ (argsYield words).length + 1 := by
  induction words with
  | nil => rfl
  | cons word words ih =>
      obtain ⟨word, redirs⟩ := word
      have hredirs := length_redirsYield redirs
      simp only [Line.argsNeed, argsYield, List.flatMap_cons, List.length_append,
        List.length_cons] at ih ⊢
      omega

/-- The calls that a phrase needs beyond four for each of its tokens. -/
def Nonterminal.extra : Nonterminal → ℕ
  | .line => 4
  | .pipe => 3
  | .exec => 2

theorem Deriv.need_le {symbol : Nonterminal} (phrase : Deriv symbol) :
    phrase.need ≤ 4 * phrase.yield.length + symbol.extra := by
  induction phrase with
  | lineEnd pipe amps ih =>
      simp only [need, yield, Nonterminal.extra, List.length_append,
        List.length_replicate] at ih ⊢
      omega
  | lineMore pipe amps line ihPipe ihLine =>
      simp only [need, yield, Nonterminal.extra, List.length_append, List.length_cons,
        List.length_replicate] at ihPipe ihLine ⊢
      omega
  | pipeEnd exec ih =>
      simp only [need, yield, Nonterminal.extra] at ih ⊢
      omega
  | pipeMore exec pipe ihExec ihPipe =>
      simp only [need, yield, Nonterminal.extra, List.length_append,
        List.length_cons] at ihExec ihPipe ⊢
      omega
  | block line redirs ih =>
      have hredirs := length_redirsYield redirs
      simp only [need, yield, Nonterminal.extra, List.length_append,
        List.length_cons] at ih ⊢
      omega
  | simple redirs words =>
      have hredirs := length_redirsYield redirs
      have hwords := argsNeed_le words
      simp only [need, yield, Nonterminal.extra, List.length_append]
      omega

theorem length_joinWord_le (offset : ℕ) (next : Option Byte) (toks : List Token) :
    (joinWord offset next toks).length ≤ toks.length + 1 := by
  unfold joinWord
  split <;> simp

theorem length_tokens_le (offset : ℕ) (text : List Byte) :
    (tokens offset text).length ≤ text.length := by
  fun_induction tokens offset text with
  | case9 offset byte next rest hspace hsymbol ih =>
      exact (length_joinWord_le _ _ _).trans (Nat.succ_le_succ ih)
  | _ =>
      simp_all
      try omega

theorem Line.length_tokens_le (line : Line) : line.tokens.length ≤ line.es :=
  Shell.length_tokens_le 0 line.text

/-! ## Whole lines -/

/-- A derivation of the whole line within the limits. -/
structure Line.Derives (line : Line) (phrase : Deriv .line) : Prop where
  yield : phrase.yield = line.tokens
  fewWords : phrase.FewWords
  fits : phrase.size < memSize

theorem Deriv.unique_of_yield {left right : Deriv .line}
    (hyield : left.yield = right.yield) : left = right := by
  have hend : Follows .line [] := by simp [Follows]
  have happend : left.yield ++ [] = right.yield ++ [] := congrArg (· ++ []) hyield
  exact (Deriv.unique happend hend hend).1

section Parsecmd

variable {line : Line} {fuel : ℕ}

variable (line) in
theorem ahead_start : line.Ahead { ps := 0, freem := 0 } line.tokens :=
  ⟨Nat.zero_le _, rfl⟩

theorem parsecmd_of_panic
    (hrun : line.parseline fuel { ps := 0, freem := 0 } = .error .panic) :
    parsecmd fuel line = .error .panic := by
  unfold parsecmd
  simp only [StateT.run, bind_error hrun]
  rfl

/-- What `parsecmd` makes of a parsed line: it must be at its end. -/
theorem parsecmd_of_ok {cmd : Cmd} {after : Parser} {rest : List Token}
    (hrun : line.parseline fuel { ps := 0, freem := 0 } = .ok (cmd, after))
    (hafter : line.Ahead after rest) :
    parsecmd fuel line =
      if rest = [] then .ok (cmd, cmd.nulterminate (line.text ++ [0]))
      else .error .panic := by
  obtain ⟨found, ps, hpeek, hend⟩ := Line.peek_end hafter
  by_cases hrest : rest = []
  · have hps : decide (ps = line.es) = true := decide_eq_true (hend.mpr hrest)
    rw [if_pos hrest]
    unfold parsecmd
    simp only [StateT.run, bind_ok hrun, bind_ok hpeek, bind_ok (get_ok _),
      bind_ok (assert_ok hps _)]
    rfl
  · have hps : decide (ps = line.es) = false :=
      decide_eq_false fun hps => hrest (hend.mp hps)
    rw [if_neg hrest]
    unfold parsecmd
    simp only [StateT.run, bind_ok hrun, bind_ok hpeek, bind_ok (get_ok _),
      bind_error (assert_error hps _)]
    rfl

/-- A line that derives within the limits is accepted with the tree of its
derivation. -/
theorem parsecmd_of_derives (hfuel : 4 * line.es + 4 ≤ fuel) {phrase : Deriv .line}
    (hphrase : line.Derives phrase) :
    parsecmd fuel line =
      .ok (phrase.tree, phrase.tree.nulterminate (line.text ++ [0])) := by
  have hneed : phrase.need ≤ fuel := by
    have hlength := line.length_tokens_le
    have := phrase.need_le
    rw [hphrase.yield] at this
    simp only [Nonterminal.extra] at this
    omega
  have hahead : line.Ahead { ps := 0, freem := 0 } (phrase.yield ++ []) := by
    rw [List.append_nil, hphrase.yield]
    exact ahead_start line
  obtain ⟨after, hrun, hafter, -⟩ := Line.parse_complete phrase hneed hahead
    (by simp [Follows]) hphrase.fewWords (by simpa using hphrase.fits)
  rw [parsecmd_of_ok hrun hafter, if_pos rfl]

/-- What `parsecmd` returns is the tree of a derivation. -/
theorem derives_of_parsecmd {tree : Cmd} {text : List Byte}
    (hrun : parsecmd fuel line = .ok (tree, text)) :
    ∃ phrase, line.Derives phrase ∧ tree = phrase.tree ∧
      text = tree.nulterminate (line.text ++ [0]) := by
  cases hparse : line.parseline fuel { ps := 0, freem := 0 } with
  | error stop =>
      unfold parsecmd at hrun
      simp only [StateT.run, bind_error hparse] at hrun
      cases hrun
  | ok result =>
      obtain ⟨cmd, after⟩ := result
      obtain ⟨phrase, rest, hyield, hafter, rfl, hwords, hsize, hbound⟩ :=
        (Line.parse_sound fuel).1 _ _ _ _ hparse (ahead_start line)
      rw [parsecmd_of_ok hparse hafter] at hrun
      split_ifs at hrun with hrest
      cases hrun
      refine ⟨phrase, ⟨?_, hwords, ?_⟩, rfl, rfl⟩
      · rw [hyield, hrest, List.append_nil]
      · rw [hsize, Nat.zero_add] at hbound
        exact hbound

/-- Any other line panics. -/
theorem parsecmd_panics (hfuel : 4 * line.es + 4 ≤ fuel)
    (hnone : ¬ ∃ phrase, line.Derives phrase) : parsecmd fuel line = .error .panic := by
  have hlength := line.length_tokens_le
  obtain hpanic | ⟨⟨cmd, after⟩, hrun⟩ := (Line.parse_settles fuel).1
    { ps := 0, freem := 0 } line.tokens (by omega) (ahead_start line)
  · exact parsecmd_of_panic hpanic
  · obtain ⟨phrase, rest, hyield, hafter, -, hwords, hsize, hbound⟩ :=
      (Line.parse_sound fuel).1 _ _ _ _ hrun (ahead_start line)
    rw [parsecmd_of_ok hrun hafter, if_neg]
    rintro rfl
    refine hnone ⟨phrase, ?_, hwords, ?_⟩
    · rw [hyield, List.append_nil]
    · simp only at hsize
      omega

end Parsecmd

/-- `parsecmd` returns exactly on the lines that derive from the grammar within
the limits, with the tree of the only derivation, and panics on all others. -/
theorem parsecmd_accepts_grammar (line : Line) (fuel : ℕ)
    (hfuel : 4 * line.es + 4 ≤ fuel) :
    (∀ tree text, parsecmd fuel line = .ok (tree, text) ↔
      ∃ phrase, line.Derives phrase ∧ tree = phrase.tree ∧
        text = tree.nulterminate (line.text ++ [0])) ∧
    (parsecmd fuel line = .error .panic ↔ ¬ ∃ phrase, line.Derives phrase) ∧
    ∀ left right : Deriv .line, left.yield = line.tokens → right.yield = line.tokens →
      left = right := by
  refine ⟨fun tree text => ⟨fun hrun => ?_, ?_⟩, ⟨fun hpanic => ?_, parsecmd_panics hfuel⟩,
    fun left right hleft hright => Deriv.unique_of_yield (hleft.trans hright.symm)⟩
  · exact derives_of_parsecmd hrun
  · rintro ⟨phrase, hphrase, rfl, rfl⟩
    exact parsecmd_of_derives hfuel hphrase
  · rintro ⟨phrase, hphrase⟩
    rw [parsecmd_of_derives hfuel hphrase] at hpanic
    cases hpanic

/-- A line with an empty command behind its `;`. -/
def sampleLine : Line where
  text := bytes "a >>f b|(c&)<g;"
  noNul := by decide

theorem parsecmd_accepts_sample :
    4 * sampleLine.es + 4 ≤ 64 ∧ ∃ tree text, parsecmd 64 sampleLine = .ok (tree, text) := by
  have hfuel : 4 * sampleLine.es + 4 ≤ 64 := by decide
  refine ⟨hfuel, _, _, ((parsecmd_accepts_grammar sampleLine 64 hfuel).1 _ _).mpr
    ⟨.lineMore (.pipeMore
        (.simple [] [(⟨0, 1⟩, [⟨.append, ⟨4, 5⟩⟩]), (⟨6, 7⟩, [])])
        (.pipeEnd (.block (.lineEnd (.pipeEnd (.simple [] [(⟨9, 10⟩, [])])) 1)
          [⟨.input, ⟨13, 14⟩⟩]))) 0
      (.lineEnd (.pipeEnd (.simple [] [])) 0), ⟨?_, ?_, ?_⟩, rfl, rfl⟩⟩
  · decide
  · simp [Deriv.FewWords]
  · decide

/-! ## The room in the arena -/

/-- The bytes of the nodes that come with a token: a `|` or `;` brings the
simple command behind it along. -/
def Token.arena : Token → ℕ
  | .bar => pipecmdSize + execcmdSize
  | .semi => listcmdSize + execcmdSize
  | .amp => backcmdSize
  | .lt | .gt | .append => redircmdSize
  | .word _ | .lpar | .rpar => 0

/-- The bytes of all nodes of a line with these tokens. -/
def arena (toks : List Token) : ℕ := execcmdSize + (toks.map Token.arena).sum

theorem arena_redirs (redirs : List Redir) :
    ((redirsYield redirs).map Token.arena).sum = redirs.length * redircmdSize := by
  induction redirs with
  | nil => rfl
  | cons redir redirs ih =>
      have hop : redir.op.token.arena = redircmdSize := by cases redir.op <;> rfl
      have hyield : redirsYield (redir :: redirs) =
          redir.op.token :: .word redir.file :: redirsYield redirs := rfl
      rw [hyield, List.map_cons, List.map_cons, List.sum_cons, List.sum_cons, hop, ih,
        List.length_cons, Token.arena]
      ring

theorem arena_args (words : List (Slice × List Redir)) :
    ((argsYield words).map Token.arena).sum =
      (words.flatMap (·.2)).length * redircmdSize := by
  induction words with
  | nil => rfl
  | cons word words ih =>
      have hword : argsYield (word :: words) =
          .word word.1 :: (redirsYield word.2 ++ argsYield words) := rfl
      simp only [hword, List.map_cons, List.map_append, List.sum_cons, List.sum_append,
        arena_redirs, ih, Token.arena, List.flatMap_cons, List.length_append]
      ring

/-- The size of the tree can be read off the tokens: a phrase has one simple
command more than it has `|` and `;`. -/
theorem Deriv.size_eq_arena {symbol : Nonterminal} (phrase : Deriv symbol) :
    phrase.size = arena phrase.yield := by
  unfold arena
  induction phrase with
  | lineEnd pipe amps ih =>
      simp only [size, yield, ih, List.map_append, List.sum_append, List.map_replicate,
        List.sum_replicate, smul_eq_mul, Token.arena]
      ring
  | lineMore pipe amps line ihPipe ihLine =>
      simp only [size, yield, ihPipe, ihLine, List.map_append, List.map_cons, List.sum_append,
        List.sum_cons, List.map_replicate, List.sum_replicate, smul_eq_mul, Token.arena]
      ring
  | pipeEnd exec ih => exact ih
  | pipeMore exec pipe ihExec ihPipe =>
      simp only [size, yield, ihExec, ihPipe, List.map_append, List.map_cons, List.sum_append,
        List.sum_cons, Token.arena]
      ring
  | block line redirs ih =>
      simp only [size, yield, ih, List.map_append, List.map_cons, List.cons_append,
        List.sum_append, List.sum_cons, arena_redirs, Token.arena]
      ring
  | simple redirs words =>
      simp only [size, yield, List.map_append, List.sum_append, arena_redirs, arena_args,
        List.length_append]
      ring

theorem arena_le (toks : List Token) : arena toks ≤ 168 + 192 * toks.length := by
  have htoken : ∀ token : Token, token.arena ≤ 192 := by
    intro token
    cases token <;> simp only [Token.arena] <;> decide
  induction toks with
  | nil => simp [arena]
  | cons token toks ih =>
      have := htoken token
      simp only [arena, List.map_cons, List.sum_cons, List.length_cons] at ih ⊢
      omega

/-- A grammatical line without too long commands panics exactly when its nodes
do not fit in the arena, which takes more than 20 bytes of text. -/
theorem parsecmd_panics_iff_arena (line : Line) (fuel : ℕ) (hfuel : 4 * line.es + 4 ≤ fuel)
    (phrase : Deriv .line) (hyield : phrase.yield = line.tokens) (hwords : phrase.FewWords) :
    (parsecmd fuel line = .error .panic ↔ memSize ≤ arena line.tokens) ∧
    (arena line.tokens < memSize →
      parsecmd fuel line = .ok (phrase.tree, phrase.tree.nulterminate (line.text ++ [0]))) ∧
    (line.es ≤ 20 → arena line.tokens < memSize) := by
  have hsize : phrase.size = arena line.tokens := by rw [phrase.size_eq_arena, hyield]
  have hok : arena line.tokens < memSize → parsecmd fuel line =
      .ok (phrase.tree, phrase.tree.nulterminate (line.text ++ [0])) := fun hroom =>
    parsecmd_of_derives hfuel ⟨hyield, hwords, hsize ▸ hroom⟩
  refine ⟨⟨fun hpanic => ?_, fun hfull => ?_⟩, hok, fun hshort => ?_⟩
  · by_contra hroom
    rw [hok (Nat.lt_of_not_le hroom)] at hpanic
    cases hpanic
  · apply parsecmd_panics hfuel
    rintro ⟨other, hother⟩
    have hsame : other = phrase := Deriv.unique_of_yield (hother.yield.trans hyield.symm)
    have hfits := hother.fits
    rw [hsame, hsize] at hfits
    exact absurd hfull (Nat.not_le_of_lt hfits)
  · have hlength := line.length_tokens_le
    have hbound := arena_le line.tokens
    show arena line.tokens < 4096
    omega

/-- So many empty commands with a `;` behind each of them. -/
def emptyCommands : ℕ → Deriv .line
  | 0 => .lineEnd (.pipeEnd (.simple [] [])) 0
  | count + 1 => .lineMore (.pipeEnd (.simple [] [])) 0 (emptyCommands count)

/-- A line of this many semicolons. -/
def semicolons (count : ℕ) : Line where
  text := List.replicate count ';'.toUInt8 ++ bytes "\n"
  noNul := by
    intro hnul
    rcases List.mem_append.mp hnul with hsemi | hend
    · exact absurd (List.eq_of_mem_replicate hsemi) (by decide)
    · exact absurd hend (by decide)

theorem fewWords_emptyCommands (count : ℕ) : (emptyCommands count).FewWords := by
  induction count with
  | zero => simp [emptyCommands, Deriv.FewWords]
  | succ count ih => exact ⟨Nat.zero_le _, ih⟩

theorem parsecmd_panics_arena_sample :
    parsecmd 16 (semicolons 2) = .ok ((emptyCommands 2).tree,
      (emptyCommands 2).tree.nulterminate ((semicolons 2).text ++ [0])) :=
  (parsecmd_panics_iff_arena (semicolons 2) 16 (by decide) (emptyCommands 2) (by decide)
    (fewWords_emptyCommands 2)).2.1 (by decide)

/-- 21 semicolons derive from the grammar, and there is no room for their nodes. -/
theorem semicolons_panic :
    (semicolons 21).es ≤ 99 ∧ (emptyCommands 21).yield = (semicolons 21).tokens ∧
    (emptyCommands 21).FewWords ∧ parsecmd 92 (semicolons 21) = .error .panic := by
  have hyield : (emptyCommands 21).yield = (semicolons 21).tokens := by decide
  refine ⟨by decide, hyield, fewWords_emptyCommands 21, parsecmd_panics (by decide) ?_⟩
  rintro ⟨phrase, hphrase⟩
  have hsame := Deriv.unique_of_yield (hphrase.yield.trans hyield.symm)
  have hfits := hphrase.fits
  rw [hsame] at hfits
  revert hfits
  decide

end JyyOS.Shell
