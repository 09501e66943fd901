import JyyOS.Shell.Grammar

/-!
# `gettoken` and `peek` read the tokens of the line

The parser never sees a token list; it moves a cursor over bytes.  Here the
cursor is tied to the tokens that still lie ahead of it.  The rest of the
parser's proof speaks about tokens only.
-/

namespace JyyOS.Shell

/-! ## Sequencing -/

section Bind

variable {α β : Type} {action : Parse α} {next : α → Parse β} {before after : Parser}
  {value : α}

theorem bind_ok (haction : action before = .ok (value, after)) :
    (action >>= next) before = next value after := by
  simp [bind, StateT.bind, haction, Except.bind]

theorem bind_error {stop : Stop} (haction : action before = .error stop) :
    (action >>= next) before = .error stop := by
  simp [bind, StateT.bind, haction, Except.bind]

theorem get_ok (parser : Parser) : (get : Parse Parser) parser = .ok (parser, parser) :=
  rfl

theorem modify_ok (f : Parser → Parser) (parser : Parser) :
    (modify f : Parse Unit) parser = .ok ((), f parser) :=
  rfl

theorem lift_ok {result : Except Stop α} (hresult : result = .ok value)
    (parser : Parser) : (liftM result : Parse α) parser = .ok (value, parser) := by
  rw [hresult]
  rfl

theorem of_bind_ok {result : β × Parser} (hbind : (action >>= next) before = .ok result) :
    ∃ value after, action before = .ok (value, after) ∧ next value after = .ok result := by
  cases haction : action before with
  | error stop =>
      rw [bind_error haction] at hbind
      cases hbind
  | ok pair =>
      obtain ⟨value, after⟩ := pair
      exact ⟨value, after, rfl, (bind_ok haction).symm.trans hbind⟩

theorem assert_ok {cond : Bool} (hcond : cond = true) (parser : Parser) :
    assert cond parser = .ok ((), parser) := by
  rw [hcond]
  rfl

theorem assert_error {cond : Bool} (hcond : cond = false) (parser : Parser) :
    assert cond parser = .error .panic := by
  rw [hcond]
  rfl

theorem of_assert_ok {cond : Bool} {result : Unit × Parser}
    (hassert : assert cond before = .ok result) : cond = true ∧ result = ((), before) := by
  cases cond with
  | true => exact ⟨rfl, (Except.ok.inj hassert).symm⟩
  | false => cases hassert

end Bind

/-! ## Bytes and token codes -/

/-- The code `gettoken` returns for a token. -/
def Token.code : Token → Byte
  | .word _ => 'a'.toUInt8
  | .lt => '<'.toUInt8
  | .gt => '>'.toUInt8
  | .append => '+'.toUInt8
  | .bar => '|'.toUInt8
  | .amp => '&'.toUInt8
  | .semi => ';'.toUInt8
  | .lpar => '('.toUInt8
  | .rpar => ')'.toUInt8

/-- The byte by which `peek` recognises a token; none for a word. -/
def Token.lead : Token → Option Byte
  | .word _ => none
  | .append => some '>'.toUInt8
  | token => some token.code

theorem symbolToken_eq_none_iff (byte : Byte) :
    symbolToken byte = none ↔ strchr symbols byte = false := by
  have hbytes : symbols = ['<'.toUInt8, '|'.toUInt8, '>'.toUInt8, '&'.toUInt8, ';'.toUInt8,
      '('.toUInt8, ')'.toUInt8] := rfl
  have hfound : strchr symbols byte = false ↔ byte ∉ symbols := by simp [strchr]
  rw [hfound, hbytes]
  unfold symbolToken
  grind

theorem isWord_eq (byte : Byte) :
    isWord byte = (!strchr whitespace byte && !strchr symbols byte) := by
  have hsymbol := symbolToken_eq_none_iff byte
  unfold isWord isSpace
  cases hnone : symbolToken byte <;> cases hstrchr : strchr symbols byte <;> simp_all

/-- A symbol is its own code and its own lead. -/
theorem symbolToken_code {byte : Byte} {token : Token}
    (hsymbol : symbolToken byte = some token) :
    token.code = byte ∧ token.lead = some byte := by
  unfold symbolToken at hsymbol
  grind [Token.code, Token.lead]

theorem symbolToken_strchr {byte : Byte} {token : Token}
    (hsymbol : symbolToken byte = some token) (hgt : token ≠ .gt) :
    strchr (bytes "|();&<") byte = true := by
  obtain ⟨rfl, hlead⟩ := symbolToken_code hsymbol
  cases token with
  | word slice => cases hlead
  | append => exact absurd hlead (by decide)
  | gt => exact absurd rfl hgt
  | lt | bar | amp | semi | lpar | rpar => rfl

/-! ## Taking a token list apart -/

theorem tokens_space {byte : Byte} (hspace : isSpace byte = true) (offset : ℕ)
    (rest : List Byte) : tokens offset (byte :: rest) = tokens (offset + 1) rest := by
  cases rest with
  | nil => simp [tokens, hspace]
  | cons next rest => simp [tokens, hspace]

/-- Leading whitespace does not matter. -/
theorem tokens_spaces (offset : ℕ) (text : List Byte) :
    tokens offset text =
      tokens (offset + (text.takeWhile isSpace).length) (text.dropWhile isSpace) := by
  induction text generalizing offset with
  | nil => rfl
  | cons byte rest ih =>
      by_cases hspace : isSpace byte = true
      · rw [tokens_space hspace, ih, List.takeWhile_cons_of_pos hspace,
          List.dropWhile_cons_of_pos hspace, List.length_cons]
        congr 1
        omega
      · rw [List.takeWhile_cons_of_neg hspace, List.dropWhile_cons_of_neg hspace]
        rfl

section Token

variable {byte : Byte} (hspace : isSpace byte = false)

include hspace

theorem tokens_symbol {token : Token} (hsymbol : symbolToken byte = some token)
    (hgt : token ≠ .gt) (offset : ℕ) (rest : List Byte) :
    tokens offset (byte :: rest) = token :: tokens (offset + 1) rest := by
  cases rest with
  | nil => simp [tokens, hspace, hsymbol]
  | cons next rest =>
      cases token <;> simp_all [tokens]

theorem tokens_gt (hsymbol : symbolToken byte = some .gt) (offset : ℕ)
    {rest : List Byte} (hnext : rest.head? ≠ some '>'.toUInt8) :
    tokens offset (byte :: rest) = .gt :: tokens (offset + 1) rest := by
  cases rest with
  | nil => simp [tokens, hspace, hsymbol]
  | cons next rest =>
      have hne : next ≠ '>'.toUInt8 := fun heq => hnext (congrArg some heq)
      simp [tokens, hspace, hsymbol, hne]

theorem tokens_append (hsymbol : symbolToken byte = some .gt) (offset : ℕ)
    (rest : List Byte) :
    tokens offset (byte :: '>'.toUInt8 :: rest) =
      .append :: tokens (offset + 2) rest := by
  simp [tokens, hspace, hsymbol]

theorem tokens_join (hsymbol : symbolToken byte = none) (offset : ℕ)
    (rest : List Byte) :
    tokens offset (byte :: rest) = joinWord offset rest.head? (tokens (offset + 1) rest) := by
  cases rest with
  | nil => simp [tokens, hspace, hsymbol, joinWord]
  | cons next rest => simp [tokens, hspace, hsymbol]

end Token

theorem isWord_iff {byte : Byte} :
    isWord byte = true ↔ isSpace byte = false ∧ symbolToken byte = none := by
  simp [isWord]

/-- A word is the longest run of word bytes. -/
theorem tokens_word {byte : Byte} (hword : isWord byte = true) (offset : ℕ)
    (rest : List Byte) :
    tokens offset (byte :: rest) =
      .word ⟨offset, offset + 1 + (rest.takeWhile isWord).length⟩ ::
        tokens (offset + 1 + (rest.takeWhile isWord).length) (rest.dropWhile isWord) := by
  obtain ⟨hspace, hsymbol⟩ := isWord_iff.mp hword
  induction rest generalizing offset byte with
  | nil => simp [tokens, hspace, hsymbol]
  | cons next rest ih =>
      rw [tokens_join hspace hsymbol]
      by_cases hnext : isWord next = true
      · obtain ⟨hspace', hsymbol'⟩ := isWord_iff.mp hnext
        rw [ih hnext _ hspace' hsymbol', List.takeWhile_cons_of_pos hnext,
          List.dropWhile_cons_of_pos hnext, List.length_cons]
        simp only [joinWord, List.head?_cons, Option.any_some, hnext]
        congr 2
        · congr 1
          omega
        · omega
      · rw [List.takeWhile_cons_of_neg hnext, List.dropWhile_cons_of_neg hnext]
        simp [joinWord, hnext]

/-! ## Skipping -/

namespace Line

variable (line : Line)

theorem drop_eq_cons {s : ℕ} (hs : s < line.es) :
    line.text.drop s = line.text.get ⟨s, hs⟩ :: line.text.drop (s + 1) :=
  List.drop_eq_getElem_cons hs

theorem skip_go (keep : Byte → Bool) (rounds s : ℕ) (hrounds : rounds = line.es - s) :
    skip.go line keep rounds s = s + ((line.text.drop s).takeWhile keep).length := by
  induction rounds generalizing s with
  | zero =>
      have hs : line.text.length ≤ s := Nat.le_of_sub_eq_zero hrounds.symm
      rw [skip.go, List.drop_eq_nil_of_le hs]
      rfl
  | succ rounds ih =>
      have hs : s < line.es := by omega
      rw [skip.go, dif_pos hs, drop_eq_cons line hs]
      split_ifs with hkeep
      · rw [ih (s + 1) (by omega), List.takeWhile_cons_of_pos hkeep, List.length_cons]
        omega
      · rw [List.takeWhile_cons_of_neg hkeep]
        rfl

theorem skip_eq (keep : Byte → Bool) (s : ℕ) :
    line.skip keep s = s + ((line.text.drop s).takeWhile keep).length :=
  line.skip_go keep _ s rfl

theorem skip_le (keep : Byte → Bool) {s : ℕ} (hs : s ≤ line.es) :
    line.skip keep s ≤ line.es := by
  have hlength := (List.takeWhile_prefix keep (l := line.text.drop s)).length_le
  rw [List.length_drop] at hlength
  rw [skip_eq]
  exact Nat.add_le_of_le_sub' hs hlength

theorem drop_skip (keep : Byte → Bool) (s : ℕ) :
    line.text.drop (line.skip keep s) = (line.text.drop s).dropWhile keep := by
  rw [skip_eq, ← List.drop_drop]
  calc (line.text.drop s).drop ((line.text.drop s).takeWhile keep).length
      = ((line.text.drop s).takeWhile keep ++ (line.text.drop s).dropWhile keep).drop
          ((line.text.drop s).takeWhile keep).length := by
        rw [List.takeWhile_append_dropWhile]
    _ = (line.text.drop s).dropWhile keep := List.drop_left

/-! ## Tokens ahead of the cursor -/

/-- The tokens from an offset on. -/
def tokensFrom (s : ℕ) : List Token := Shell.tokens s (line.text.drop s)

theorem tokensFrom_skip (s : ℕ) :
    line.tokensFrom (line.skip (strchr whitespace) s) = line.tokensFrom s := by
  unfold tokensFrom
  rw [drop_skip, skip_eq]
  exact (tokens_spaces s (line.text.drop s)).symm

variable {line}

theorem read_of_drop_cons {s : ℕ} {byte : Byte} {rest : List Byte}
    (hdrop : line.text.drop s = byte :: rest) : line.read s = .ok byte := by
  have hs : s < line.es := by
    by_contra hge
    rw [List.drop_eq_nil_of_le (Nat.le_of_not_lt hge)] at hdrop
    cases hdrop
  rw [drop_eq_cons line hs] at hdrop
  rw [read, dif_pos hs, (List.cons.inj hdrop).1]

theorem read_of_drop_nil {s : ℕ} (hs : s ≤ line.es) (hdrop : line.text.drop s = []) :
    s = line.es ∧ line.read s = .ok 0 := by
  have heq : s = line.es := le_antisymm hs (List.drop_eq_nil_iff.mp hdrop)
  refine ⟨heq, ?_⟩
  rw [read, dif_neg (by omega), if_pos heq]

theorem le_es_of_drop_cons {s : ℕ} {byte : Byte} {rest : List Byte}
    (hdrop : line.text.drop s = byte :: rest) :
    s + 1 ≤ line.es ∧ line.text.drop (s + 1) = rest := by
  have hs : s < line.es := by
    by_contra hge
    rw [List.drop_eq_nil_of_le (Nat.le_of_not_lt hge)] at hdrop
    cases hdrop
  rw [drop_eq_cons line hs] at hdrop
  exact ⟨hs, (List.cons.inj hdrop).2⟩

theorem ne_zero_of_drop_cons {s : ℕ} {byte : Byte} {rest : List Byte}
    (hdrop : line.text.drop s = byte :: rest) : byte ≠ 0 := by
  rintro rfl
  apply line.noNul
  exact List.mem_of_mem_drop (hdrop ▸ List.mem_cons_self)

@[simp]
theorem ok_bind {α β : Type} (value : α) (next : α → Except Stop β) :
    (Except.ok value >>= next) = next value := rfl

/-- `gettoken` past the last token. -/
theorem scan_nil {q : ℕ} (hq : q ≤ line.es) (hdrop : line.text.drop q = []) :
    line.scan q = .ok (0, q) := by
  rw [scan, (read_of_drop_nil hq hdrop).2]
  rfl

section Scan

variable {q : ℕ} {byte : Byte} {rest : List Byte}
  (hdrop : line.text.drop q = byte :: rest)

include hdrop

theorem scan_symbol {token : Token} (hsymbol : symbolToken byte = some token)
    (hgt : token ≠ .gt) : line.scan q = .ok (byte, q + 1) := by
  rw [scan, read_of_drop_cons hdrop, ok_bind, if_neg (ne_zero_of_drop_cons hdrop),
    if_pos (symbolToken_strchr hsymbol hgt)]
  rfl

theorem scan_gt (hsymbol : symbolToken byte = some .gt) :
    line.scan q =
      if rest.head? = some '>'.toUInt8 then .ok ('+'.toUInt8, q + 2)
      else .ok ('>'.toUInt8, q + 1) := by
  obtain ⟨hle, hrest⟩ := le_es_of_drop_cons hdrop
  obtain rfl : byte = '>'.toUInt8 := (symbolToken_code hsymbol).1.symm
  rw [scan, read_of_drop_cons hdrop, ok_bind, if_neg (ne_zero_of_drop_cons hdrop),
    if_neg (by decide), if_pos rfl]
  cases rest with
  | nil =>
      rw [(read_of_drop_nil hle hrest).2, ok_bind]
      rfl
  | cons next rest =>
      rw [read_of_drop_cons hrest, ok_bind]
      simp only [List.head?_cons, Option.some.injEq]
      rfl

theorem scan_word (hword : isWord byte = true) :
    line.scan q = .ok ('a'.toUInt8, q + 1 + (rest.takeWhile isWord).length) := by
  obtain ⟨hspace, hsymbol⟩ := isWord_iff.mp hword
  have hchr := (symbolToken_eq_none_iff byte).mp hsymbol
  have hchr' : strchr (bytes "|();&<") byte = false := by
    simp_all [strchr, symbols, bytes]
  have hgt : byte ≠ '>'.toUInt8 := by
    rintro rfl
    exact absurd hchr (by decide)
  have hkeep : (fun byte => !strchr whitespace byte && !strchr symbols byte) = isWord :=
    funext fun byte => (isWord_eq byte).symm
  rw [scan, read_of_drop_cons hdrop, ok_bind, if_neg (ne_zero_of_drop_cons hdrop),
    if_neg (by simp [hchr']), if_neg hgt, hkeep, skip_eq, hdrop,
    List.takeWhile_cons_of_pos hword, List.length_cons, Nat.add_assoc, Nat.add_comm 1]
  rfl

/-- `gettoken` at the first byte of a token. -/
theorem scan_cons (hspace : isSpace byte = false) :
    ∃ token eq, line.scan q = .ok (token.code, eq) ∧ eq ≤ line.es ∧
      line.tokensFrom q = token :: line.tokensFrom eq ∧
        ∀ slice, token = .word slice → slice = ⟨q, eq⟩ := by
  obtain ⟨hle, hrest⟩ := le_es_of_drop_cons hdrop
  cases hsymbol : symbolToken byte with
  | some token =>
      obtain ⟨hcode, hlead⟩ := symbolToken_code hsymbol
      have hnoWord : ∀ slice, token ≠ .word slice := by
        rintro slice rfl
        cases hlead
      by_cases hgt : token = .gt
      · subst hgt
        have hscan := scan_gt hdrop hsymbol
        by_cases hnext : rest.head? = some '>'.toUInt8
        · obtain ⟨rest, rfl⟩ : ∃ more, rest = '>'.toUInt8 :: more := by
            cases rest with
            | nil => cases hnext
            | cons next rest => exact ⟨rest, by rw [Option.some.inj hnext]⟩
          obtain ⟨hle', hrest'⟩ := le_es_of_drop_cons hrest
          refine ⟨.append, q + 2, by rw [hscan, if_pos hnext]; rfl, hle', ?_, by simp⟩
          rw [tokensFrom, hdrop, tokens_append hspace hsymbol, tokensFrom, hrest']
        · refine ⟨.gt, q + 1, by rw [hscan, if_neg hnext]; rfl, hle, ?_, by simp⟩
          rw [tokensFrom, hdrop, tokens_gt hspace hsymbol q hnext, tokensFrom, hrest]
      · refine ⟨token, q + 1, by rw [scan_symbol hdrop hsymbol hgt, hcode], hle, ?_,
          fun slice heq => absurd heq (hnoWord slice)⟩
        rw [tokensFrom, hdrop, tokens_symbol hspace hsymbol hgt, tokensFrom, hrest]
  | none =>
      have hword : isWord byte = true := isWord_iff.mpr ⟨hspace, hsymbol⟩
      have hend : line.skip isWord (q + 1) = q + 1 + (rest.takeWhile isWord).length := by
        rw [skip_eq, hrest]
      refine ⟨.word ⟨q, q + 1 + (rest.takeWhile isWord).length⟩, _, scan_word hdrop hword,
        ?_, ?_, fun slice heq => by cases heq; rfl⟩
      · exact hend ▸ line.skip_le isWord hle
      · rw [tokensFrom, hdrop, tokens_word hword, tokensFrom, ← hend, drop_skip, hrest]

end Scan

/-! ## `gettoken` and `peek` -/

theorem gettoken_ok {parser : Parser} {ret : Byte} {eq : ℕ}
    (hscan : line.scan (line.skip (strchr whitespace) parser.ps) = .ok (ret, eq)) :
    line.gettoken parser =
      .ok (⟨ret, line.skip (strchr whitespace) parser.ps, eq⟩,
        { parser with ps := line.skip (strchr whitespace) eq }) := by
  rw [gettoken, bind_ok (get_ok parser), bind_ok (lift_ok hscan parser),
    bind_ok (modify_ok _ parser)]
  rfl

theorem peek_ok {parser : Parser} {set : List Byte} {byte : Byte}
    (hread : line.read (line.skip (strchr whitespace) parser.ps) = .ok byte) :
    line.peek set parser =
      .ok (byte ≠ 0 && strchr set byte,
        { parser with ps := line.skip (strchr whitespace) parser.ps }) := by
  rw [peek, bind_ok (get_ok parser), bind_ok (modify_ok _ parser),
    bind_ok (lift_ok hread _)]
  rfl

/-- The cursor is in the line with these tokens ahead of it. -/
structure Ahead (line : Line) (parser : Parser) (toks : List Token) : Prop where
  le : parser.ps ≤ line.es
  toks : line.tokensFrom parser.ps = toks

variable {parser : Parser} {token : Token} {toks : List Token}

theorem Ahead.skip (hahead : Ahead line parser toks) :
    Ahead line { parser with ps := line.skip (strchr whitespace) parser.ps } toks :=
  ⟨line.skip_le _ hahead.le, (line.tokensFrom_skip _).trans hahead.toks⟩

/-- The first byte after whitespace. -/
theorem not_isSpace_of_drop_skip {s : ℕ} {byte : Byte} {rest : List Byte}
    (hdrop : line.text.drop (line.skip (strchr whitespace) s) = byte :: rest) :
    isSpace byte = false := by
  rw [drop_skip] at hdrop
  have hhead := List.head?_dropWhile_not (strchr whitespace) (line.text.drop s)
  rw [hdrop] at hhead
  simpa [isSpace] using hhead

/-- Nothing but whitespace is left: the cursor skips to the end. -/
theorem Ahead.drop_nil (hahead : Ahead line parser []) :
    line.text.drop (line.skip (strchr whitespace) parser.ps) = [] := by
  cases hdrop : line.text.drop (line.skip (strchr whitespace) parser.ps) with
  | nil => rfl
  | cons byte rest =>
      obtain ⟨token, eq, -, -, htokens, -⟩ :=
        scan_cons hdrop (not_isSpace_of_drop_skip hdrop)
      have := hahead.skip.toks
      rw [htokens] at this
      cases this

theorem Ahead.drop_cons (hahead : Ahead line parser (token :: toks)) :
    ∃ byte rest, line.text.drop (line.skip (strchr whitespace) parser.ps) =
      byte :: rest := by
  cases hdrop : line.text.drop (line.skip (strchr whitespace) parser.ps) with
  | nil =>
      have := hahead.skip.toks
      rw [tokensFrom, hdrop] at this
      cases this
  | cons byte rest => exact ⟨byte, rest, rfl⟩

theorem gettoken_nil (hahead : Ahead line parser []) :
    ∃ q eq ps, line.gettoken parser = .ok (⟨0, q, eq⟩, { parser with ps := ps }) ∧
      Ahead line { parser with ps := ps } [] := by
  have hscan := scan_nil hahead.skip.le hahead.drop_nil
  exact ⟨_, _, _, gettoken_ok hscan, hahead.skip.skip⟩

/-- `gettoken` takes the first token that lies ahead. -/
theorem gettoken_cons (hahead : Ahead line parser (token :: toks)) :
    ∃ q eq ps, line.gettoken parser = .ok (⟨token.code, q, eq⟩, { parser with ps := ps }) ∧
      Ahead line { parser with ps := ps } toks ∧
        ∀ slice, token = .word slice → slice = ⟨q, eq⟩ := by
  obtain ⟨byte, rest, hdrop⟩ := hahead.drop_cons
  obtain ⟨found, eq, hscan, hle, htokens, hslice⟩ :=
    scan_cons hdrop (not_isSpace_of_drop_skip hdrop)
  have hsame := hahead.skip.toks
  rw [htokens] at hsame
  obtain ⟨rfl, hrest⟩ := List.cons.inj hsame
  refine ⟨_, eq, _, gettoken_ok hscan, ?_, hslice⟩
  exact ⟨line.skip_le _ hle, (line.tokensFrom_skip eq).trans hrest⟩

theorem lead_of_drop_cons {q : ℕ} {byte : Byte} {rest : List Byte}
    (hdrop : line.text.drop q = byte :: rest) (hspace : isSpace byte = false)
    (htokens : line.tokensFrom q = token :: toks) :
    token.lead = if strchr symbols byte then some byte else none := by
  cases hsymbol : symbolToken byte with
  | none =>
      have hchr := (symbolToken_eq_none_iff byte).mp hsymbol
      rw [tokensFrom, hdrop, tokens_word (isWord_iff.mpr ⟨hspace, hsymbol⟩)] at htokens
      obtain ⟨rfl, -⟩ := List.cons.inj htokens
      simp [hchr, Token.lead]
  | some found =>
      have hchr : strchr symbols byte = true := by
        by_contra hfalse
        have hnone := (symbolToken_eq_none_iff byte).mpr (by simpa using hfalse)
        rw [hsymbol] at hnone
        cases hnone
      obtain ⟨-, hlead⟩ := symbolToken_code hsymbol
      rw [if_pos hchr]
      by_cases hgt : found = .gt
      · subst hgt
        obtain rfl : '>'.toUInt8 = byte := Option.some.inj hlead
        by_cases hnext : rest.head? = some '>'.toUInt8
        · cases rest with
          | nil => cases hnext
          | cons next rest =>
              obtain rfl : next = '>'.toUInt8 := Option.some.inj hnext
              rw [tokensFrom, hdrop, tokens_append hspace hsymbol] at htokens
              obtain ⟨rfl, -⟩ := List.cons.inj htokens
              rfl
        · rw [tokensFrom, hdrop, tokens_gt hspace hsymbol q hnext] at htokens
          obtain ⟨rfl, -⟩ := List.cons.inj htokens
          rfl
      · rw [tokensFrom, hdrop, tokens_symbol hspace hsymbol hgt] at htokens
        obtain ⟨rfl, -⟩ := List.cons.inj htokens
        exact hlead

/-- What `peek` answers, when it is asked for symbols. -/
def peeks (set : List Byte) (toks : List Token) : Bool :=
  (toks.head?.bind Token.lead).any (strchr set)

theorem peek_spec {set : List Byte} (hset : set.all (strchr symbols) = true)
    (hahead : Ahead line parser toks) :
    ∃ ps, line.peek set parser = .ok (peeks set toks, { parser with ps := ps }) ∧
      Ahead line { parser with ps := ps } toks := by
  refine ⟨_, ?_, hahead.skip⟩
  cases toks with
  | nil =>
      rw [peek_ok (read_of_drop_nil hahead.skip.le hahead.drop_nil).2]
      rfl
  | cons token toks =>
      obtain ⟨byte, rest, hdrop⟩ := hahead.drop_cons
      have hlead := lead_of_drop_cons hdrop (not_isSpace_of_drop_skip hdrop)
        hahead.skip.toks
      have hzero := ne_zero_of_drop_cons hdrop
      rw [peek_ok (read_of_drop_cons hdrop)]
      simp only [peeks, List.head?_cons, Option.bind_some, hlead]
      cases hchr : strchr set byte with
      | true =>
          have hmem : byte ∈ set := by simpa [strchr] using hchr
          simp [List.all_eq_true.mp hset byte hmem, hchr, hzero]
      | false => cases strchr symbols byte <;> simp [hchr]

/-- After a last `peek` the cursor is at the end of the line exactly when no
token lies ahead. -/
theorem peek_end (hahead : Ahead line parser toks) :
    ∃ found ps, line.peek [] parser = .ok (found, { parser with ps := ps }) ∧
      (ps = line.es ↔ toks = []) := by
  cases toks with
  | nil =>
      obtain ⟨hend, hread⟩ := read_of_drop_nil hahead.skip.le hahead.drop_nil
      exact ⟨_, _, peek_ok hread, iff_of_true hend rfl⟩
  | cons token toks =>
      obtain ⟨byte, rest, hdrop⟩ := hahead.drop_cons
      refine ⟨_, _, peek_ok (read_of_drop_cons hdrop), iff_of_false ?_ (by simp)⟩
      have := (le_es_of_drop_cons hdrop).1
      omega

end Line

end JyyOS.Shell
