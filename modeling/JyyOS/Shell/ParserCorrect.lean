import JyyOS.Shell.Lexing

/-!
# The parser accepts exactly its grammar

Completeness: in front of a derivable phrase that its follow set ends, each
parser function returns the phrase's tree and stops behind it, provided that
the limits on words and on the arena hold.  Soundness: whatever a parser
function returns is the tree of a derivable phrase within these limits.
-/

namespace JyyOS.Shell

/-- Fuel for one more call. -/
theorem fuel_succ {need fuel : ℕ} (hfuel : need + 1 ≤ fuel) :
    ∃ less, fuel = less + 1 ∧ need ≤ less :=
  ⟨fuel - 1, by omega, by omega⟩

/-! ## Allocation -/

theorem zalloc_eq (sz : ℕ) (parser : Parser) :
    zalloc sz parser =
      if parser.freem + sz < memSize then
        .ok ((), { parser with freem := parser.freem + sz })
      else .error .panic := by
  by_cases hfits : parser.freem + sz < memSize
  · rw [if_pos hfits, zalloc, bind_ok (get_ok parser),
      bind_ok (assert_ok (decide_eq_true hfits) parser)]
    rfl
  · rw [if_neg hfits, zalloc, bind_ok (get_ok parser),
      bind_error (assert_error (decide_eq_false hfits) parser)]

/-- A constructor of a node: allocate, then fill in. -/
theorem node_ok {sz : ℕ} {parser : Parser} (hfits : parser.freem + sz < memSize)
    (cmd : Cmd) :
    (do zalloc sz; return cmd : Parse Cmd) parser =
      .ok (cmd, { parser with freem := parser.freem + sz }) := by
  rw [bind_ok (by rw [zalloc_eq, if_pos hfits])]
  rfl

theorem of_node_ok {sz : ℕ} {parser after : Parser} {cmd result : Cmd}
    (hnode : (do zalloc sz; return cmd : Parse Cmd) parser = .ok (result, after)) :
    result = cmd ∧ parser.freem + sz < memSize ∧
      after = { parser with freem := parser.freem + sz } := by
  obtain ⟨_, middle, hzalloc, hreturn⟩ := of_bind_ok hnode
  rw [zalloc_eq] at hzalloc
  split_ifs at hzalloc with hfits
  cases hzalloc
  cases hreturn
  exact ⟨rfl, hfits, rfl⟩

/-! ## Looking ahead -/

namespace Line

/-- `peek` with a set of leads finds the tokens that have them. -/
theorem peeks_iff {set : List Byte} {wanted : Token → Prop}
    (hset : ∀ token : Token, token.lead.any (strchr set) = true ↔ wanted token)
    (toks : List Token) :
    peeks set toks = true ↔ ∃ token rest, toks = token :: rest ∧ wanted token := by
  cases toks with
  | nil => simp [peeks]
  | cons token rest =>
      rw [show peeks set (token :: rest) = token.lead.any (strchr set) from rfl, hset]
      constructor
      · exact fun hwanted => ⟨token, rest, rfl, hwanted⟩
      · rintro ⟨token', rest', heq, hwanted⟩
        rw [(List.cons.inj heq).1]
        exact hwanted

theorem peeks_symbol_iff {set : List Byte} {symbol : Token}
    (hset : ∀ token : Token, token.lead.any (strchr set) = true ↔ token = symbol)
    (toks : List Token) :
    peeks set toks = true ↔ ∃ rest, toks = symbol :: rest := by
  rw [peeks_iff hset]
  constructor
  · rintro ⟨_, rest, heq, rfl⟩
    exact ⟨rest, heq⟩
  · rintro ⟨rest, heq⟩
    exact ⟨symbol, rest, heq, rfl⟩

theorem peeks_redir (toks : List Token) :
    peeks (bytes "<>") toks = true ↔
      ∃ token rest, toks = token :: rest ∧ ∃ op : RedirOp, token = op.token := by
  apply peeks_iff
  intro token
  constructor
  · cases token with
    | lt => exact fun _ => ⟨.input, rfl⟩
    | gt => exact fun _ => ⟨.output, rfl⟩
    | append => exact fun _ => ⟨.append, rfl⟩
    | word slice => exact fun hlead => by cases hlead
    | _ => exact fun hlead => absurd hlead (by decide)
  · rintro ⟨op, rfl⟩
    cases op <;> decide

theorem peeks_amp (toks : List Token) :
    peeks (bytes "&") toks = true ↔ ∃ rest, toks = .amp :: rest :=
  peeks_symbol_iff (by rintro (_ | _) <;> first | decide | simp [Token.lead]) toks

theorem peeks_semi (toks : List Token) :
    peeks (bytes ";") toks = true ↔ ∃ rest, toks = .semi :: rest :=
  peeks_symbol_iff (by rintro (_ | _) <;> first | decide | simp [Token.lead]) toks

theorem peeks_bar (toks : List Token) :
    peeks (bytes "|") toks = true ↔ ∃ rest, toks = .bar :: rest :=
  peeks_symbol_iff (by rintro (_ | _) <;> first | decide | simp [Token.lead]) toks

theorem peeks_lpar (toks : List Token) :
    peeks (bytes "(") toks = true ↔ ∃ rest, toks = .lpar :: rest :=
  peeks_symbol_iff (by rintro (_ | _) <;> first | decide | simp [Token.lead]) toks

theorem peeks_rpar (toks : List Token) :
    peeks (bytes ")") toks = true ↔ ∃ rest, toks = .rpar :: rest :=
  peeks_symbol_iff (by rintro (_ | _) <;> first | decide | simp [Token.lead]) toks

/-- The tokens that end a simple command. -/
theorem peeks_ends (toks : List Token) :
    peeks (bytes "|)&;") toks = true ↔
      ∃ token rest, toks = token :: rest ∧ token ∈ Nonterminal.exec.follow :=
  peeks_iff (by
    rintro (_ | _) <;> first | decide | simp [Token.lead, Nonterminal.follow]) toks

/-! ## Completeness -/

variable {line : Line}

/-- A `peek` whose answer is known. -/
theorem peek_true (set : List Byte) (hset : set.all (strchr symbols) = true)
    {parser : Parser} {toks : List Token} (hahead : Ahead line parser toks)
    (hpeeks : peeks set toks = true) :
    ∃ ps, line.peek set parser = .ok (true, { parser with ps := ps }) ∧
      Ahead line { parser with ps := ps } toks :=
  hpeeks ▸ peek_spec hset hahead

theorem peek_false (set : List Byte) (hset : set.all (strchr symbols) = true)
    {parser : Parser} {toks : List Token} (hahead : Ahead line parser toks)
    (hpeeks : ¬ peeks set toks = true) :
    ∃ ps, line.peek set parser = .ok (false, { parser with ps := ps }) ∧
      Ahead line { parser with ps := ps } toks :=
  Bool.eq_false_iff.mpr hpeeks ▸ peek_spec hset hahead

theorem redirect_eq (op : RedirOp) (cmd : Cmd) (q eq : ℕ) :
    redirect op.token.code cmd q eq =
      (do zalloc redircmdSize; return Redir.wrap cmd ⟨op, ⟨q, eq⟩⟩ : Parse Cmd) := by
  cases op <;> rfl

theorem not_peeks_redir {toks : List Token} (htoks : NoRedir toks) :
    ¬ peeks (bytes "<>") toks = true := by
  rw [peeks_redir]
  rintro ⟨token, rest, rfl, op, rfl⟩
  exact htoks op rfl

theorem parseredirs_complete (redirs : List Redir) {fuel : ℕ}
    (hfuel : redirs.length < fuel) (cmd : Cmd) {parser : Parser} {rest : List Token}
    (hahead : Ahead line parser (redirsYield redirs ++ rest)) (hrest : NoRedir rest)
    (hfits : parser.freem + redirs.length * redircmdSize < memSize) :
    ∃ after, line.parseredirs fuel cmd parser = .ok (redirs.foldl Redir.wrap cmd, after) ∧
      Ahead line after rest ∧
        after.freem = parser.freem + redirs.length * redircmdSize := by
  induction redirs generalizing fuel cmd parser with
  | nil =>
      obtain ⟨fuel, rfl, -⟩ := fuel_succ hfuel
      obtain ⟨ps, hpeek, hahead'⟩ := peek_false _ rfl hahead (not_peeks_redir hrest)
      refine ⟨_, ?_, hahead', by simp⟩
      rw [parseredirs, bind_ok hpeek]
      rfl
  | cons redir redirs ih =>
      obtain ⟨fuel, rfl, hless⟩ := fuel_succ hfuel
      simp only [List.length_cons, Nat.succ_mul] at hfits ⊢
      obtain ⟨_, hpeek, hahead⟩ := peek_true _ rfl hahead
        ((peeks_redir _).mpr ⟨_, _, rfl, redir.op, rfl⟩)
      obtain ⟨_, _, _, hop, hahead, -⟩ := gettoken_cons hahead
      obtain ⟨q, eq, ps, hfile, hahead, hslice⟩ := gettoken_cons hahead
      have hwrap : redirect redir.op.token.code cmd q eq { parser with ps := ps } =
          .ok (Redir.wrap cmd redir,
            { ps := ps, freem := parser.freem + redircmdSize }) := by
        rw [redirect_eq, node_ok (by simp only; omega), ← hslice redir.file rfl]
      have hahead' : Ahead line { ps := ps, freem := parser.freem + redircmdSize }
          (redirsYield redirs ++ rest) := ⟨hahead.le, hahead.toks⟩
      obtain ⟨after, hrun, hafter, hfreem⟩ := ih hless
        (Redir.wrap cmd redir) hahead' (by simp only; omega)
      refine ⟨after, ?_, hafter, by simp only at hfreem; omega⟩
      rw [parseredirs, bind_ok hpeek, if_pos rfl, bind_ok hop, bind_ok hfile,
        bind_ok (assert_ok (by rfl) _), bind_ok hwrap, hrun]
      rfl

theorem store_foldl (argc : ℕ) (q eq : Option ℕ) (redirs : List Redir) (cmd : Cmd) :
    (redirs.foldl Redir.wrap cmd).store argc q eq =
      redirs.foldl Redir.wrap (cmd.store argc q eq) := by
  induction redirs generalizing cmd with
  | nil => rfl
  | cons redir redirs ih =>
      rw [List.foldl_cons, List.foldl_cons, ih]
      congr 1
      obtain ⟨op, file⟩ := redir
      cases op <;> rfl

theorem slots_snoc (pointers : List ℕ) (pointer : ℕ) :
    slots (pointers ++ [pointer]) =
      fun i => if i.val = pointers.length then some pointer else slots pointers i := by
  funext i
  unfold slots
  split_ifs with hi
  · rw [hi, List.getElem?_concat_length]
  · rw [List.getElem?_append]
    split_ifs with hlt
    · rfl
    · rw [List.getElem?_eq_none (l := pointers) (by omega),
        List.getElem?_eq_none (by simp; omega)]

theorem store_word (done : List Slice) (word : Slice) :
    (wordsNode done).store done.length (some word.start) (some word.stop) =
      wordsNode (done ++ [word]) := by
  simp [wordsNode, Cmd.store, slots_snoc]

/-- The null pointers that end the arrays are already there. -/
theorem store_end (done : List Slice) :
    (wordsNode done).store done.length none none = wordsNode done := by
  have hslots : ∀ pointers : List ℕ, pointers.length = done.length →
      (fun i : Fin MAXARGS => if i.val = done.length then none else slots pointers i) =
        slots pointers := by
    intro pointers hlength
    funext i
    split_ifs with hi
    · rw [slots, hi, List.getElem?_eq_none (by omega)]
    · rfl
  simp [wordsNode, Cmd.store, hslots]

theorem word_code_ne_zero (slice : Slice) : (Token.word slice).code ≠ 0 := by
  change 'a'.toUInt8 ≠ 0
  decide

/-- Rounds and redirections of the loop over the words of a command. -/
def argsNeed : List (Slice × List Redir) → ℕ
  | [] => 1
  | (_, redirs) :: words => max (redirs.length + 1) (argsNeed words) + 1

theorem parseargs_complete (words : List (Slice × List Redir)) {fuel : ℕ}
    (hfuel : argsNeed words ≤ fuel) (done : List Slice) (redirs : List Redir)
    (hcount : done.length + words.length ≤ 9) {parser : Parser} {rest : List Token}
    (hahead : Ahead line parser (argsYield words ++ rest)) (hrest : Follows .exec rest)
    (hfits : parser.freem + (words.flatMap (·.2)).length * redircmdSize < memSize) :
    ∃ after, line.parseargs fuel done.length (redirs.foldl Redir.wrap (wordsNode done))
        parser =
          .ok ((redirs ++ words.flatMap (·.2)).foldl Redir.wrap
            (wordsNode (done ++ words.map (·.1))), after) ∧
      Ahead line after rest ∧
        after.freem = parser.freem + (words.flatMap (·.2)).length * redircmdSize := by
  induction words generalizing fuel done redirs parser with
  | nil =>
      obtain ⟨fuel, rfl, -⟩ := fuel_succ hfuel
      have hend : (redirs.foldl Redir.wrap (wordsNode done)).store done.length none none =
          redirs.foldl Redir.wrap (wordsNode done) := by rw [store_foldl, store_end]
      simp only [List.flatMap_nil, List.append_nil, List.map_nil, List.length_nil,
        Nat.zero_mul, Nat.add_zero]
      cases rest with
      | nil =>
          obtain ⟨_, hpeek, hahead⟩ := peek_false (bytes "|)&;") rfl hahead
            (by simp [peeks, argsYield])
          obtain ⟨_, _, _, hget, hahead⟩ := gettoken_nil hahead
          refine ⟨_, ?_, hahead, rfl⟩
          rw [parseargs, bind_ok hpeek, if_neg (by simp), bind_ok hget, if_pos rfl, hend]
          rfl
      | cons token rest =>
          obtain ⟨_, hpeek, hahead⟩ := peek_true _ rfl hahead
            ((peeks_ends _).mpr ⟨token, rest, rfl, hrest token rfl⟩)
          refine ⟨_, ?_, hahead, rfl⟩
          rw [parseargs, bind_ok hpeek, if_pos rfl, hend]
          rfl
  | cons first words ih =>
      obtain ⟨word, inner⟩ := first
      obtain ⟨fuel, rfl, hless⟩ := fuel_succ hfuel
      rw [max_le_iff] at hless
      simp only [List.length_cons] at hcount
      simp only [List.flatMap_cons, List.length_append, Nat.add_mul] at hfits ⊢
      have hstart : argsYield ((word, inner) :: words) ++ rest =
          .word word :: (redirsYield inner ++ (argsYield words ++ rest)) := by
        simp [argsYield]
      rw [hstart] at hahead
      obtain ⟨_, hpeek, hpeeked⟩ := peek_false (bytes "|)&;") rfl hahead (by
        rw [peeks_ends]
        rintro ⟨token, _, heq, hmem⟩
        obtain ⟨rfl, -⟩ := List.cons.inj heq
        simp [Nonterminal.follow] at hmem)
      obtain ⟨q, eq, ps, hget, hgot, hslice⟩ := gettoken_cons hpeeked
      obtain rfl := hslice word rfl
      obtain ⟨middle, hredirs, hmiddle, hfreem⟩ := parseredirs_complete inner
        (Nat.lt_of_succ_le hless.1) (redirs.foldl Redir.wrap (wordsNode (done ++ [⟨q, eq⟩])))
        hgot (noRedir_args hrest words) (by simp only; omega)
      simp only at hfreem
      obtain ⟨after, hrun, hafter, hfreem'⟩ := ih hless.2 (done ++ [⟨q, eq⟩]) (redirs ++ inner)
        (by simp; omega) hmiddle (by omega)
      refine ⟨after, ?_, hafter, by omega⟩
      have hstore : (redirs.foldl Redir.wrap (wordsNode done)).store done.length (some q)
          (some eq) = redirs.foldl Redir.wrap (wordsNode (done ++ [⟨q, eq⟩])) := by
        rw [store_foldl, ← store_word]
      rw [parseargs, bind_ok hpeek, if_neg (by simp), bind_ok hget,
        if_neg (word_code_ne_zero _), bind_ok (assert_ok (by rfl) _)]
      dsimp only
      rw [hstore, bind_ok (assert_ok (decide_eq_true (by simp only [MAXARGS]; omega)) _),
        bind_ok hredirs, ← List.foldl_append]
      rw [List.length_append, List.length_singleton] at hrun
      rw [hrun]
      simp [List.append_assoc]

theorem parsebacks_complete (amps : ℕ) {fuel : ℕ} (hfuel : amps < fuel) (cmd : Cmd)
    {parser : Parser} {rest : List Token}
    (hahead : Ahead line parser (List.replicate amps .amp ++ rest))
    (hrest : rest.head? ≠ some .amp)
    (hfits : parser.freem + amps * backcmdSize < memSize) :
    ∃ after, line.parsebacks fuel cmd parser = .ok (Cmd.back^[amps] cmd, after) ∧
      Ahead line after rest ∧ after.freem = parser.freem + amps * backcmdSize := by
  induction amps generalizing fuel cmd parser with
  | zero =>
      obtain ⟨fuel, rfl, -⟩ := fuel_succ hfuel
      obtain ⟨_, hpeek, hahead⟩ := peek_false _ rfl hahead (by
        rw [peeks_amp]
        rintro ⟨more, heq⟩
        exact hrest (congrArg List.head? heq))
      refine ⟨_, ?_, hahead, by simp⟩
      rw [parsebacks, bind_ok hpeek, if_neg (by simp)]
      rfl
  | succ amps ih =>
      obtain ⟨fuel, rfl, hless⟩ := fuel_succ hfuel
      rw [Nat.succ_mul] at hfits ⊢
      obtain ⟨_, hpeek, hahead⟩ := peek_true _ rfl hahead
        ((peeks_amp _).mpr ⟨_, by rw [List.replicate_succ]; rfl⟩)
      rw [List.replicate_succ] at hahead
      obtain ⟨_, _, ps, hget, hahead, -⟩ := gettoken_cons hahead
      have hnode : backcmd cmd { parser with ps := ps } =
          .ok (.back cmd, { ps := ps, freem := parser.freem + backcmdSize }) :=
        node_ok (by simp only; omega) _
      have hahead' : Ahead line { ps := ps, freem := parser.freem + backcmdSize }
          (List.replicate amps .amp ++ rest) := ⟨hahead.le, hahead.toks⟩
      obtain ⟨after, hrun, hafter, hfreem⟩ := ih hless (.back cmd)
        hahead' (by simp only; omega)
      refine ⟨after, ?_, hafter, by simp only at hfreem; omega⟩
      rw [parsebacks, bind_ok hpeek, if_pos rfl, bind_ok hget, bind_ok hnode, hrun]
      rfl

end Line

/-- How deep the parser's calls go for a phrase. -/
def Deriv.need : {symbol : Nonterminal} → Deriv symbol → ℕ
  | _, lineEnd pipe amps => max pipe.need (amps + 1) + 1
  | _, lineMore pipe amps line => max (max pipe.need (amps + 1)) line.need + 1
  | _, pipeEnd exec => exec.need + 1
  | _, pipeMore exec pipe => max exec.need pipe.need + 1
  | _, block line redirs => max line.need (redirs.length + 1) + 2
  | _, simple redirs words => max (redirs.length + 1) (Line.argsNeed words) + 1

namespace Line

variable {line : Line}

variable (line) in
/-- The parser function of a nonterminal. -/
def parse : Nonterminal → ℕ → Parse Cmd
  | .line => line.parseline
  | .pipe => line.parsepipe
  | .exec => line.parseexec

variable (line) in
/-- In front of the phrase its parser returns the phrase's tree and stops behind
it. -/
def CompleteFor {symbol : Nonterminal} (phrase : Deriv symbol) : Prop :=
  ∀ ⦃fuel : ℕ⦄ ⦃parser : Parser⦄ ⦃rest : List Token⦄, phrase.need ≤ fuel →
    Ahead line parser (phrase.yield ++ rest) → Follows symbol rest → phrase.FewWords →
      parser.freem + phrase.size < memSize →
        ∃ after, line.parse symbol fuel parser = .ok (phrase.tree, after) ∧
          Ahead line after rest ∧ after.freem = parser.freem + phrase.size

theorem lineEnd_complete {pipe : Deriv .pipe} (hpipe : line.CompleteFor pipe) (amps : ℕ) :
    line.CompleteFor (.lineEnd pipe amps) := by
  intro fuel parser rest hfuel hahead hrest hwords hfits
  simp only [parse]
  obtain ⟨fuel, rfl, hless⟩ := fuel_succ hfuel
  simp only [max_le_iff] at hless
  simp only [Deriv.size] at hfits ⊢
  simp only [Deriv.yield, List.append_assoc] at hahead
  obtain ⟨first, hfound, hfirst, hfreem⟩ := hpipe hless.1 hahead
    (follows_pipe_amps hrest amps) hwords (by omega)
  obtain ⟨second, hbacks, hsecond, hfreem'⟩ := parsebacks_complete amps
    (Nat.lt_of_succ_le hless.2) pipe.tree hfirst (head?_ne_amp hrest) (by omega)
  obtain ⟨_, hpeek, hlast⟩ := peek_false (bytes ";") rfl hsecond (by
    rw [peeks_semi]
    rintro ⟨more, rfl⟩
    have := hrest .semi rfl
    simp [Nonterminal.follow] at this)
  refine ⟨_, ?_, hlast, by simp only; omega⟩
  simp only [parse] at hfound
  rw [parseline, bind_ok hfound, bind_ok hbacks, bind_ok hpeek, if_neg (by simp)]
  rfl

theorem lineMore_complete {pipe : Deriv .pipe} (hpipe : line.CompleteFor pipe) (amps : ℕ)
    {more : Deriv .line} (hmore : line.CompleteFor more) :
    line.CompleteFor (.lineMore pipe amps more) := by
  intro fuel parser rest hfuel hahead hrest hwords hfits
  simp only [parse]
  obtain ⟨fuel, rfl, hless⟩ := fuel_succ hfuel
  simp only [max_le_iff] at hless
  simp only [Deriv.size] at hfits ⊢
  simp only [Deriv.yield, List.append_assoc, List.cons_append] at hahead
  obtain ⟨first, hfound, hfirst, hfreem⟩ := hpipe hless.1.1 hahead
    (follows_pipe_semi amps _) hwords.1 (by omega)
  obtain ⟨second, hbacks, hsecond, hfreem'⟩ := parsebacks_complete amps
    (Nat.lt_of_succ_le hless.1.2) pipe.tree hfirst (by simp) (by omega)
  obtain ⟨_, hpeek, hpeeked⟩ := peek_true (bytes ";") rfl hsecond
    ((peeks_semi _).mpr ⟨_, rfl⟩)
  obtain ⟨_, _, _, hget, hgot, -⟩ := gettoken_cons hpeeked
  obtain ⟨third, hothers, hthird, hfreem''⟩ := hmore hless.2 hgot hrest hwords.2
    (by simp only; omega)
  simp only at hfreem''
  have hnode : listcmd (Cmd.back^[amps] pipe.tree) more.tree third =
      .ok (.list (Cmd.back^[amps] pipe.tree) more.tree,
        { third with freem := third.freem + listcmdSize }) :=
    node_ok (by omega) _
  refine ⟨{ third with freem := third.freem + listcmdSize }, ?_,
    ⟨hthird.le, hthird.toks⟩, by simp only; omega⟩
  simp only [parse] at hfound hothers
  rw [parseline, bind_ok hfound, bind_ok hbacks, bind_ok hpeek, if_pos rfl,
    bind_ok hget, bind_ok hothers, hnode]
  rfl

theorem pipeEnd_complete {exec : Deriv .exec} (hexec : line.CompleteFor exec) :
    line.CompleteFor (.pipeEnd exec) := by
  intro fuel parser rest hfuel hahead hrest hwords hfits
  simp only [parse]
  obtain ⟨fuel, rfl, hless⟩ := fuel_succ hfuel
  obtain ⟨first, hfound, hfirst, hfreem⟩ := hexec hless hahead
    (follows_exec_of_pipe hrest) hwords hfits
  obtain ⟨_, hpeek, hlast⟩ := peek_false (bytes "|") rfl hfirst (by
    rw [peeks_bar]
    rintro ⟨more, rfl⟩
    have := hrest .bar rfl
    simp [Nonterminal.follow] at this)
  refine ⟨_, ?_, hlast, hfreem⟩
  simp only [parse] at hfound
  rw [parsepipe, bind_ok hfound, bind_ok hpeek, if_neg (by simp)]
  rfl

theorem pipeMore_complete {exec : Deriv .exec} (hexec : line.CompleteFor exec)
    {more : Deriv .pipe} (hmore : line.CompleteFor more) :
    line.CompleteFor (.pipeMore exec more) := by
  intro fuel parser rest hfuel hahead hrest hwords hfits
  simp only [parse]
  obtain ⟨fuel, rfl, hless⟩ := fuel_succ hfuel
  simp only [max_le_iff] at hless
  simp only [Deriv.size] at hfits ⊢
  simp only [Deriv.yield, List.append_assoc, List.cons_append] at hahead
  obtain ⟨first, hfound, hfirst, hfreem⟩ := hexec hless.1 hahead
    (by simp [Follows, Nonterminal.follow]) hwords.1 (by omega)
  obtain ⟨_, hpeek, hpeeked⟩ := peek_true (bytes "|") rfl hfirst
    ((peeks_bar _).mpr ⟨_, rfl⟩)
  obtain ⟨_, _, _, hget, hgot, -⟩ := gettoken_cons hpeeked
  obtain ⟨second, hothers, hsecond, hfreem'⟩ := hmore hless.2 hgot hrest hwords.2
    (by simp only; omega)
  simp only at hfreem'
  have hnode : pipecmd exec.tree more.tree second =
      .ok (.pipe exec.tree more.tree,
        { second with freem := second.freem + pipecmdSize }) :=
    node_ok (by omega) _
  refine ⟨{ second with freem := second.freem + pipecmdSize }, ?_,
    ⟨hsecond.le, hsecond.toks⟩, by simp only; omega⟩
  simp only [parse] at hfound hothers
  rw [parsepipe, bind_ok hfound, bind_ok hpeek, if_pos rfl, bind_ok hget,
    bind_ok hothers, hnode]
  rfl

theorem block_complete {inner : Deriv .line} (hinner : line.CompleteFor inner)
    (redirs : List Redir) :
    line.CompleteFor (.block inner redirs) := by
  intro fuel parser rest hfuel hahead hrest hwords hfits
  simp only [parse]
  obtain ⟨fuel, rfl, hdeep⟩ := fuel_succ hfuel
  obtain ⟨fuel, rfl, hless⟩ := fuel_succ hdeep
  simp only [max_le_iff] at hless
  simp only [Deriv.size] at hfits ⊢
  simp only [Deriv.yield, List.append_assoc, List.cons_append] at hahead
  obtain ⟨_, hopen, hopened⟩ := peek_true (bytes "(") rfl hahead
    ((peeks_lpar _).mpr ⟨_, rfl⟩)
  obtain ⟨_, hagain, hpeeked⟩ := peek_true (bytes "(") rfl hopened
    ((peeks_lpar _).mpr ⟨_, rfl⟩)
  obtain ⟨_, _, _, hget, hgot, -⟩ := gettoken_cons hpeeked
  obtain ⟨first, hfound, hfirst, hfreem⟩ := hinner hless.1 hgot
    (by simp [Follows, Nonterminal.follow]) hwords (by simp only; omega)
  simp only at hfreem
  obtain ⟨_, hclose, hclosed⟩ := peek_true (bytes ")") rfl hfirst
    ((peeks_rpar _).mpr ⟨_, rfl⟩)
  obtain ⟨_, _, _, hget', hgot', -⟩ := gettoken_cons hclosed
  obtain ⟨second, hredirs, hsecond, hfreem'⟩ := parseredirs_complete redirs
    (Nat.lt_of_succ_le hless.2) inner.tree hgot' (noRedir_of_follows hrest)
    (by simp only; omega)
  refine ⟨second, ?_, hsecond, by simp only at hfreem'; omega⟩
  simp only [parse] at hfound
  rw [parseexec, bind_ok hopen, if_pos rfl, parseblock, bind_ok hagain,
    bind_ok (assert_ok rfl _), bind_ok hget, bind_ok hfound, bind_ok hclose,
    bind_ok (assert_ok rfl _), bind_ok hget', hredirs]
  rfl

theorem simple_complete (redirs : List Redir) (words : List (Slice × List Redir)) :
    line.CompleteFor (.simple redirs words) := by
  intro fuel parser rest hfuel hahead hrest hwords hfits
  simp only [parse]
  obtain ⟨fuel, rfl, hless⟩ := fuel_succ hfuel
  simp only [max_le_iff] at hless
  simp only [Deriv.size, List.length_append, Nat.add_mul] at hfits ⊢
  simp only [Deriv.yield, List.append_assoc] at hahead
  obtain ⟨ps, hpeek, hpeeked⟩ := peek_false (bytes "(") rfl hahead (by
    rw [peeks_lpar, ← List.append_assoc]
    rintro ⟨more, heq⟩
    exact simple_ne_lpar redirs words hrest heq)
  have hnode : execcmd { parser with ps := ps } =
      .ok (wordsNode [], { ps := ps, freem := parser.freem + execcmdSize }) :=
    node_ok (by simp only; omega) _
  have hahead' : Ahead line { ps := ps, freem := parser.freem + execcmdSize }
      (redirsYield redirs ++ (argsYield words ++ rest)) := ⟨hpeeked.le, hpeeked.toks⟩
  obtain ⟨first, hredirs, hfirst, hfreem⟩ := parseredirs_complete redirs
    (Nat.lt_of_succ_le hless.1) (wordsNode []) hahead' (noRedir_args hrest words)
    (by simp only; omega)
  simp only at hfreem
  obtain ⟨after, hargs, hafter, hfreem'⟩ := parseargs_complete words hless.2 [] redirs
    (by simpa [Deriv.FewWords] using hwords) hfirst hrest (by omega)
  refine ⟨after, ?_, hafter, by omega⟩
  rw [parseexec, bind_ok hpeek, if_neg (by simp), bind_ok hnode, bind_ok hredirs]
  exact hargs

/-- The parser returns the tree of the phrase that lies ahead. -/
theorem parse_complete {symbol : Nonterminal} (phrase : Deriv symbol) :
    line.CompleteFor phrase := by
  induction phrase with
  | lineEnd pipe amps ih => exact lineEnd_complete ih amps
  | lineMore pipe amps more ihPipe ihLine => exact lineMore_complete ihPipe amps ihLine
  | pipeEnd exec ih => exact pipeEnd_complete ih
  | pipeMore exec more ihExec ihPipe => exact pipeMore_complete ihExec ihPipe
  | block inner redirs ih => exact block_complete ih redirs
  | simple redirs words => exact simple_complete redirs words

/-! ## Soundness -/

section Sound

variable {parser after : Parser} {toks : List Token}

theorem of_peek (set : List Byte) (hset : set.all (strchr symbols) = true) {found : Bool}
    (hpeek : line.peek set parser = .ok (found, after)) (hahead : Ahead line parser toks) :
    found = peeks set toks ∧ Ahead line after toks ∧ after.freem = parser.freem := by
  obtain ⟨ps, hspec, hafter⟩ := peek_spec hset hahead
  cases hspec.symm.trans hpeek
  exact ⟨rfl, hafter, rfl⟩

theorem of_gettoken {got : Got} (hget : line.gettoken parser = .ok (got, after))
    (hahead : Ahead line parser toks) :
    after.freem = parser.freem ∧
      ((toks = [] ∧ got.ret = 0 ∧ Ahead line after []) ∨
        ∃ token rest, toks = token :: rest ∧ got.ret = token.code ∧
          Ahead line after rest ∧
            ∀ slice, token = .word slice → slice = ⟨got.q, got.eq⟩) := by
  cases toks with
  | nil =>
      obtain ⟨q, eq, ps, hspec, hafter⟩ := gettoken_nil hahead
      cases hspec.symm.trans hget
      exact ⟨rfl, .inl ⟨rfl, rfl, hafter⟩⟩
  | cons token rest =>
      obtain ⟨q, eq, ps, hspec, hafter, hslice⟩ := gettoken_cons hahead
      cases hspec.symm.trans hget
      exact ⟨rfl, .inr ⟨token, rest, rfl, rfl, hafter, hslice⟩⟩

/-- Taking a token that `peek` has just found. -/
theorem of_gettoken_cons {token : Token} {got : Got}
    (hget : line.gettoken parser = .ok (got, after))
    (hahead : Ahead line parser (token :: toks)) :
    got.ret = token.code ∧ Ahead line after toks ∧ after.freem = parser.freem := by
  obtain ⟨q, eq, ps, hspec, hafter, -⟩ := gettoken_cons hahead
  cases hspec.symm.trans hget
  exact ⟨rfl, hafter, rfl⟩

theorem word_of_code {token : Token} (hcode : token.code = 'a'.toUInt8) :
    ∃ slice, token = .word slice := by
  cases token with
  | word slice => exact ⟨slice, rfl⟩
  | _ => exact absurd hcode (by decide)

/-- The token that `gettoken` returned as a word. -/
theorem of_gettoken_word {got : Got} (hget : line.gettoken parser = .ok (got, after))
    (hahead : Ahead line parser toks) (hword : got.ret = 'a'.toUInt8) :
    ∃ rest, toks = .word ⟨got.q, got.eq⟩ :: rest ∧ Ahead line after rest ∧
      after.freem = parser.freem := by
  obtain ⟨hfreem, ⟨-, hzero, -⟩ | ⟨token, rest, rfl, hret, hafter, hslice⟩⟩ :=
    of_gettoken hget hahead
  · exact absurd (hzero.symm.trans hword) (by decide)
  · obtain ⟨slice, rfl⟩ := word_of_code (hret.symm.trans hword)
    rw [hslice slice rfl]
    exact ⟨rest, rfl, hafter, hfreem⟩

theorem parseredirs_sound {fuel : ℕ} {cmd result : Cmd}
    (hrun : line.parseredirs fuel cmd parser = .ok (result, after))
    (hahead : Ahead line parser toks) :
    ∃ redirs rest, toks = redirsYield redirs ++ rest ∧ Ahead line after rest ∧
      result = redirs.foldl Redir.wrap cmd ∧
        after.freem = parser.freem + redirs.length * redircmdSize ∧
          (parser.freem < memSize → after.freem < memSize) := by
  induction fuel generalizing cmd parser toks with
  | zero => cases hrun
  | succ fuel ih =>
      obtain ⟨found, first, hpeek, hrun⟩ := of_bind_ok hrun
      obtain ⟨rfl, hfirst, hfreem⟩ := of_peek _ rfl hpeek hahead
      split_ifs at hrun with hpeeks
      · obtain ⟨token, rest, rfl, op, rfl⟩ := (peeks_redir _).mp hpeeks
        obtain ⟨got, second, hget, hrun⟩ := of_bind_ok hrun
        obtain ⟨hret, hsecond, hfreem'⟩ := of_gettoken_cons hget hfirst
        obtain ⟨file, third, hfile, hrun⟩ := of_bind_ok hrun
        obtain ⟨_, fourth, hassert, hrun⟩ := of_bind_ok hrun
        obtain ⟨hword, heq⟩ := of_assert_ok hassert
        cases heq
        obtain ⟨rest, rfl, hthird, hfreem''⟩ :=
          of_gettoken_word hfile hsecond (of_decide_eq_true hword)
        obtain ⟨wrapped, fifth, hredirect, hrun⟩ := of_bind_ok hrun
        rw [hret, redirect_eq] at hredirect
        obtain ⟨rfl, hfits, rfl⟩ := of_node_ok hredirect
        obtain ⟨redirs, rest, rfl, hafter, rfl, hsize, hbound⟩ :=
          ih hrun ⟨hthird.le, hthird.toks⟩
        refine ⟨⟨op, ⟨file.q, file.eq⟩⟩ :: redirs, rest, rfl, hafter, rfl, ?_,
          fun _ => hbound hfits⟩
        simp only at hsize
        rw [List.length_cons, Nat.succ_mul]
        omega
      · cases hrun
        exact ⟨[], toks, rfl, hfirst, rfl, by simpa using hfreem, fun h => hfreem ▸ h⟩

theorem parsebacks_sound {fuel : ℕ} {cmd result : Cmd}
    (hrun : line.parsebacks fuel cmd parser = .ok (result, after))
    (hahead : Ahead line parser toks) :
    ∃ amps rest, toks = List.replicate amps .amp ++ rest ∧ Ahead line after rest ∧
      result = Cmd.back^[amps] cmd ∧ after.freem = parser.freem + amps * backcmdSize ∧
        (parser.freem < memSize → after.freem < memSize) := by
  induction fuel generalizing cmd parser toks with
  | zero => cases hrun
  | succ fuel ih =>
      obtain ⟨found, first, hpeek, hrun⟩ := of_bind_ok hrun
      obtain ⟨rfl, hfirst, hfreem⟩ := of_peek _ rfl hpeek hahead
      split_ifs at hrun with hpeeks
      · obtain ⟨rest, rfl⟩ := (peeks_amp _).mp hpeeks
        obtain ⟨got, second, hget, hrun⟩ := of_bind_ok hrun
        obtain ⟨-, hsecond, hfreem'⟩ := of_gettoken_cons hget hfirst
        obtain ⟨wrapped, third, hback, hrun⟩ := of_bind_ok hrun
        obtain ⟨rfl, hfits, rfl⟩ := of_node_ok hback
        obtain ⟨amps, rest, rfl, hafter, rfl, hsize, hbound⟩ :=
          ih hrun ⟨hsecond.le, hsecond.toks⟩
        refine ⟨amps + 1, rest, rfl, hafter, rfl, ?_, fun _ => hbound hfits⟩
        simp only at hsize
        rw [Nat.succ_mul]
        omega
      · cases hrun
        exact ⟨0, toks, rfl, hfirst, rfl, by simpa using hfreem, fun h => hfreem ▸ h⟩

theorem parseargs_sound {fuel : ℕ} {done : List Slice} {redirs : List Redir} {result : Cmd}
    (hrun : line.parseargs fuel done.length (redirs.foldl Redir.wrap (wordsNode done))
      parser = .ok (result, after)) (hcount : done.length ≤ 9)
    (hahead : Ahead line parser toks) :
    ∃ words rest, toks = argsYield words ++ rest ∧ Ahead line after rest ∧
      result = (redirs ++ words.flatMap (·.2)).foldl Redir.wrap
        (wordsNode (done ++ words.map (·.1))) ∧
      done.length + words.length ≤ 9 ∧
        after.freem = parser.freem + (words.flatMap (·.2)).length * redircmdSize ∧
          (parser.freem < memSize → after.freem < memSize) := by
  induction fuel generalizing done redirs parser toks with
  | zero => cases hrun
  | succ fuel ih =>
      have hend : (redirs.foldl Redir.wrap (wordsNode done)).store done.length none none =
          redirs.foldl Redir.wrap (wordsNode done) := by rw [store_foldl, store_end]
      obtain ⟨found, first, hpeek, hrun⟩ := of_bind_ok hrun
      obtain ⟨rfl, hfirst, hfreem⟩ := of_peek _ rfl hpeek hahead
      split_ifs at hrun with hpeeks
      · cases hrun
        exact ⟨[], toks, rfl, hfirst, by simp [hend], by simpa using hcount,
          by simpa using hfreem, fun h => hfreem ▸ h⟩
      · obtain ⟨tok, second, hget, hrun⟩ := of_bind_ok hrun
        split_ifs at hrun with hzero
        · cases hrun
          obtain ⟨hfreem', ⟨rfl, -, hsecond⟩ | ⟨token, rest, -, hret, -, -⟩⟩ :=
            of_gettoken hget hfirst
          · exact ⟨[], [], rfl, hsecond, by simp [hend], by simpa using hcount,
              by simpa using hfreem'.trans hfreem, fun h => hfreem'.trans hfreem ▸ h⟩
          · rw [hzero] at hret
            cases token with
            | word slice => exact absurd hret.symm (word_code_ne_zero slice)
            | _ => exact absurd hret.symm (by decide)
        · obtain ⟨_, third, hassert, hrun⟩ := of_bind_ok hrun
          obtain ⟨hword, heq⟩ := of_assert_ok hassert
          cases heq
          obtain ⟨rest, rfl, hsecond, hfreem'⟩ :=
            of_gettoken_word hget hfirst (of_decide_eq_true hword)
          obtain ⟨_, fourth, hassert', hrun⟩ := of_bind_ok hrun
          obtain ⟨hargc, heq⟩ := of_assert_ok hassert'
          cases heq
          obtain ⟨wrapped, fifth, hredirs, hrun⟩ := of_bind_ok hrun
          obtain ⟨inner, rest, rfl, hfifth, rfl, hsize, hbound⟩ :=
            parseredirs_sound hredirs hsecond
          have hstore : (redirs.foldl Redir.wrap (wordsNode done)).store done.length
              (some tok.q) (some tok.eq) =
                redirs.foldl Redir.wrap (wordsNode (done ++ [⟨tok.q, tok.eq⟩])) := by
            rw [store_foldl, ← store_word]
          have hless : done.length + 1 < 10 := of_decide_eq_true hargc
          rw [hstore, ← List.foldl_append] at hrun
          have hlength : (done ++ [Slice.mk tok.q tok.eq]).length = done.length + 1 := by simp
          rw [← hlength] at hrun
          obtain ⟨words, rest, rfl, hafter, rfl, hwords, hsize', hbound'⟩ :=
            ih hrun (by omega) hfifth
          refine ⟨(⟨tok.q, tok.eq⟩, inner) :: words, rest, ?_, hafter, ?_, ?_, ?_, ?_⟩
          · simp [argsYield]
          · simp [List.append_assoc]
          · simp only [List.length_cons]
            omega
          · simp only [List.flatMap_cons, List.length_append, Nat.add_mul]
            omega
          · exact fun h => hbound' (hbound (by omega))

end Sound

variable (line) in
/-- What an action returns is a phrase that lay ahead, within the limits. -/
def SoundFor (symbol : Nonterminal) (action : Parse Cmd) : Prop :=
  ∀ (parser after : Parser) (toks : List Token) (result : Cmd),
    action parser = .ok (result, after) → Ahead line parser toks →
      ∃ (phrase : Deriv symbol) (rest : List Token), toks = phrase.yield ++ rest ∧
        Ahead line after rest ∧ result = phrase.tree ∧ phrase.FewWords ∧
          after.freem = parser.freem + phrase.size ∧ after.freem < memSize

section SoundFor

variable {fuel : ℕ}

theorem parseline_sound (hpipe : line.SoundFor .pipe (line.parsepipe fuel))
    (hline : line.SoundFor .line (line.parseline fuel)) :
    line.SoundFor .line (line.parseline (fuel + 1)) := by
  intro parser after toks result hrun hahead
  rw [parseline] at hrun
  obtain ⟨cmd, first, hrun₁, hrun⟩ := of_bind_ok hrun
  obtain ⟨pipe, rest, rfl, hfirst, rfl, hwords, hsize, hbound⟩ :=
    hpipe _ _ _ _ hrun₁ hahead
  obtain ⟨cmd, second, hrun₂, hrun⟩ := of_bind_ok hrun
  obtain ⟨amps, rest, rfl, hsecond, rfl, hsize', hbound'⟩ := parsebacks_sound hrun₂ hfirst
  obtain ⟨found, third, hpeek, hrun⟩ := of_bind_ok hrun
  obtain ⟨rfl, hthird, hfreem⟩ := of_peek _ rfl hpeek hsecond
  split_ifs at hrun with hpeeks
  · obtain ⟨rest, rfl⟩ := (peeks_semi _).mp hpeeks
    obtain ⟨got, fourth, hget, hrun⟩ := of_bind_ok hrun
    obtain ⟨-, hfourth, hfreem'⟩ := of_gettoken_cons hget hthird
    obtain ⟨cmd, fifth, hrun₃, hrun⟩ := of_bind_ok hrun
    obtain ⟨more, rest, rfl, hfifth, rfl, hwords', hsize'', -⟩ :=
      hline _ _ _ _ hrun₃ hfourth
    obtain ⟨rfl, hfits, rfl⟩ := of_node_ok hrun
    refine ⟨.lineMore pipe amps more, rest, by simp [Deriv.yield],
      ⟨hfifth.le, hfifth.toks⟩, rfl, ⟨hwords, hwords'⟩, ?_, hfits⟩
    simp only [Deriv.size]
    omega
  · cases hrun
    refine ⟨.lineEnd pipe amps, rest, by simp [Deriv.yield], hthird, rfl, hwords, ?_, ?_⟩
    · simp only [Deriv.size]
      omega
    · exact hfreem ▸ hbound' hbound

theorem parsepipe_sound (hexec : line.SoundFor .exec (line.parseexec fuel))
    (hpipe : line.SoundFor .pipe (line.parsepipe fuel)) :
    line.SoundFor .pipe (line.parsepipe (fuel + 1)) := by
  intro parser after toks result hrun hahead
  rw [parsepipe] at hrun
  obtain ⟨cmd, first, hrun₁, hrun⟩ := of_bind_ok hrun
  obtain ⟨exec, rest, rfl, hfirst, rfl, hwords, hsize, hbound⟩ :=
    hexec _ _ _ _ hrun₁ hahead
  obtain ⟨found, second, hpeek, hrun⟩ := of_bind_ok hrun
  obtain ⟨rfl, hsecond, hfreem⟩ := of_peek _ rfl hpeek hfirst
  split_ifs at hrun with hpeeks
  · obtain ⟨rest, rfl⟩ := (peeks_bar _).mp hpeeks
    obtain ⟨got, third, hget, hrun⟩ := of_bind_ok hrun
    obtain ⟨-, hthird, hfreem'⟩ := of_gettoken_cons hget hsecond
    obtain ⟨cmd, fourth, hrun₂, hrun⟩ := of_bind_ok hrun
    obtain ⟨more, rest, rfl, hfourth, rfl, hwords', hsize', -⟩ :=
      hpipe _ _ _ _ hrun₂ hthird
    obtain ⟨rfl, hfits, rfl⟩ := of_node_ok hrun
    refine ⟨.pipeMore exec more, rest, by simp [Deriv.yield],
      ⟨hfourth.le, hfourth.toks⟩, rfl, ⟨hwords, hwords'⟩, ?_, hfits⟩
    simp only [Deriv.size]
    omega
  · cases hrun
    exact ⟨.pipeEnd exec, rest, rfl, hsecond, rfl, hwords, hfreem.trans hsize,
      hfreem ▸ hbound⟩

theorem parseblock_sound (hline : line.SoundFor .line (line.parseline fuel)) :
    line.SoundFor .exec (line.parseblock (fuel + 1)) := by
  intro parser after toks result hrun hahead
  rw [parseblock] at hrun
  obtain ⟨found, first, hpeek, hopen⟩ := of_bind_ok hrun
  clear hrun
  obtain ⟨rfl, hfirst, hfreem⟩ := of_peek _ rfl hpeek hahead
  obtain ⟨_, second, hassert, hinner⟩ := of_bind_ok hopen
  clear hopen
  obtain ⟨hpeeks, heq⟩ := of_assert_ok hassert
  cases heq
  obtain ⟨rest, rfl⟩ := (peeks_lpar _).mp hpeeks
  obtain ⟨got, third, hget, hbody⟩ := of_bind_ok hinner
  clear hinner
  obtain ⟨-, hthird, hfreem'⟩ := of_gettoken_cons hget hfirst
  obtain ⟨cmd, fourth, hparse, hclose⟩ := of_bind_ok hbody
  clear hbody
  obtain ⟨inner, rest, rfl, hfourth, rfl, hwords, hsize, hbound⟩ :=
    hline _ _ _ _ hparse hthird
  obtain ⟨found, fifth, hpeek', hpar⟩ := of_bind_ok hclose
  clear hclose
  obtain ⟨rfl, hfifth, hfreem''⟩ := of_peek _ rfl hpeek' hfourth
  obtain ⟨_, sixth, hassert', hlast⟩ := of_bind_ok hpar
  clear hpar
  obtain ⟨hpeeks', heq⟩ := of_assert_ok hassert'
  cases heq
  obtain ⟨rest, rfl⟩ := (peeks_rpar _).mp hpeeks'
  obtain ⟨got', seventh, hget', hredirs⟩ := of_bind_ok hlast
  obtain ⟨-, hseventh, hsame⟩ := of_gettoken_cons hget' hfifth
  obtain ⟨redirs, rest, rfl, hafter, rfl, hsize', hbound'⟩ :=
    parseredirs_sound hredirs hseventh
  refine ⟨.block inner redirs, rest, by simp [Deriv.yield], hafter, rfl, hwords, ?_,
    hbound' (by omega)⟩
  simp only [Deriv.size]
  omega

theorem parseexec_sound (hblock : line.SoundFor .exec (line.parseblock fuel)) :
    line.SoundFor .exec (line.parseexec (fuel + 1)) := by
  intro parser after toks result hrun hahead
  rw [parseexec] at hrun
  obtain ⟨found, first, hpeek, hrun⟩ := of_bind_ok hrun
  obtain ⟨rfl, hfirst, hfreem⟩ := of_peek _ rfl hpeek hahead
  split_ifs at hrun with hpeeks
  · rw [← hfreem]
    exact hblock _ _ _ _ hrun hfirst
  · obtain ⟨cmd, second, hnode, hrun⟩ := of_bind_ok hrun
    obtain ⟨rfl, hfits, rfl⟩ := of_node_ok hnode
    obtain ⟨cmd, third, hredirs, hrun⟩ := of_bind_ok hrun
    obtain ⟨redirs, rest, rfl, hthird, rfl, hsize, hbound⟩ :=
      parseredirs_sound hredirs ⟨hfirst.le, hfirst.toks⟩
    have hstart : line.parseargs fuel ([] : List Slice).length
        (redirs.foldl Redir.wrap (wordsNode [])) third = .ok (result, after) := hrun
    obtain ⟨words, rest, rfl, hafter, rfl, hwords, hsize', hbound'⟩ :=
      parseargs_sound hstart (Nat.zero_le 9) hthird
    simp only at hsize
    refine ⟨.simple redirs words, rest, by simp [Deriv.yield], hafter, rfl,
      by simpa [Deriv.FewWords] using hwords, ?_, hbound' (hbound hfits)⟩
    simp only [Deriv.size, List.length_append, Nat.add_mul]
    omega

end SoundFor

/-- All four functions at once, by induction on the depth of calls. -/
theorem parse_sound (fuel : ℕ) :
    line.SoundFor .line (line.parseline fuel) ∧ line.SoundFor .pipe (line.parsepipe fuel) ∧
      line.SoundFor .exec (line.parseblock fuel) ∧
        line.SoundFor .exec (line.parseexec fuel) := by
  induction fuel with
  | zero =>
      refine ⟨?_, ?_, ?_, ?_⟩ <;>
        exact fun _ _ _ _ hrun _ => by cases hrun
  | succ fuel ih =>
      obtain ⟨hline, hpipe, hblock, hexec⟩ := ih
      exact ⟨parseline_sound hpipe hline, parsepipe_sound hexec hpipe,
        parseblock_sound hline, parseexec_sound hblock⟩

end Line

end JyyOS.Shell
