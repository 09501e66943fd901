import JyyOS.Calculator.Tokenizer
import Mathlib.Data.List.TakeWhile

/-!
# Editing the formula (`CalculatorExpressionBuilder.java`)

Every edit of the formula goes through `replace`.  An edit at the end is looked at in
its normal spelling, which can be longer than the text: the indices into the text are
also used as indices into the normal spelling.
-/

namespace JyyOS.Calculator2

/-- The characters of `text` and `mIsEdited`. -/
structure Builder where
  text : Text
  isEdited : Bool

/-- What `replace` leaves, and whether the text watchers are told. -/
structure Edit where
  builder : Builder
  notified : Bool

section Code

def operators : Text := ['+', '-', '*', '/']

def signs : Text := ['+', '-']

def subSequence (text : Text) (start stop : ℕ) : Text := (text.take stop).drop start

/-- `lastIndexOf`, `none` for `-1`. -/
def lastIndexOf (c : Char) : Text → Option ℕ
  | [] => none
  | first :: text =>
      match lastIndexOf c text with
      | some index => some (index + 1)
      | none => if first = c then some 0 else none

/-- `while (start > 0 && "+-*/".indexOf(expr.charAt(start - 1)) != -1) --start`, `none` for an
index out of bounds. -/
def stripOperators (expr : Text) : ℕ → Option ℕ
  | 0 => some 0
  | start + 1 => do
      let c ← expr[start]?
      if c ∈ operators then stripOperators expr start else some (start + 1)

/-- `if (start > 0 && "+-".indexOf(expr.charAt(start - 1)) != -1) --start` -/
def stripSign (expr : Text) : ℕ → Option ℕ
  | 0 => some 0
  | start + 1 => do
      let c ← expr[start]?
      if c ∈ signs then some start else some (start + 1)

/-- The locals `appendExpr` and `start`, and `mIsEdited`. -/
structure Append where
  appendExpr : Text
  start : ℕ
  isEdited : Bool

/-- The `switch`; `isDigit` is `Character.isDigit`. -/
def appendSymbol (isDigit : Char → Bool) (expr : Text) (start : ℕ) (isEdited : Bool) (c : Char) :
    Option Append :=
  if c = '.' then
    match lastIndexOf '.' expr with
    | none => some ⟨[c], start, isEdited⟩
    | some index =>
        if index + 1 ≤ start ∧ start ≤ expr.length then
          if (subSequence expr (index + 1) start).all isDigit then some ⟨[], start, isEdited⟩
          else some ⟨[c], start, isEdited⟩
        else none
  else if c = '+' ∨ c = '*' ∨ c = '/' then
    if start = 0 then some ⟨[], start, isEdited⟩
    else do
      let start ← stripOperators expr start
      let start ← stripSign expr start
      some ⟨[c], start, true⟩
  else if c = '-' then do
    let start ← stripSign expr start
    some ⟨[c], start, true⟩
  else some ⟨[c], start, isEdited⟩

/-- `super.replace`.  Where nothing is taken away and nothing put in, nobody is told. -/
def Builder.superReplace (builder : Builder) (isEdited : Bool) (start stop : ℕ) (tb : Text)
    (tbstart tbend : ℕ) : Edit where
  builder :=
    { text := builder.text.take start ++ subSequence tb tbstart tbend ++ builder.text.drop stop
      isEdited := isEdited }
  notified := !(start = stop ∧ tbstart = tbend)

variable (entrySet : List (Text × Text)) (isDigit : Char → Bool)

/-- What is done when a single character comes in, and when anything else does. -/
def Builder.onAppend (builder : Builder) (start : ℕ) : Text → Option Append
  | [c] =>
      appendSymbol isDigit (getNormalizedExpression entrySet builder.text) start
        builder.isEdited c
  | appendExpr => some ⟨appendExpr, start, builder.isEdited⟩

/-- The end of `replace`; the first edit replaces everything. -/
def Builder.insert (builder : Builder) (stop : ℕ) (append : Append) : Edit :=
  let append :=
    if ¬append.isEdited ∧ append.appendExpr.length > 0 then
      { append with start := 0, isEdited := true }
    else append
  let appendExpr := getLocalizedExpression entrySet append.appendExpr
  builder.superReplace append.isEdited append.start stop appendExpr 0 appendExpr.length

def Builder.replace (builder : Builder) (start stop : ℕ) (tb : Text) (tbstart tbend : ℕ) :
    Option Edit :=
  if start ≠ builder.text.length ∨ stop ≠ builder.text.length then
    some (builder.superReplace true start stop tb tbstart tbend)
  else do
    let append ← builder.onAppend entrySet isDigit start
      (getNormalizedExpression entrySet (subSequence tb tbstart tbend))
    some (builder.insert entrySet stop append)

def Builder.append (builder : Builder) (text : Text) : Option Edit :=
  builder.replace entrySet isDigit builder.text.length builder.text.length text 0 text.length

def Builder.delete (builder : Builder) (start stop : ℕ) : Option Edit :=
  builder.replace entrySet isDigit start stop [] 0 0

def Builder.clear (builder : Builder) : Option Edit :=
  builder.replace entrySet isDigit 0 builder.text.length [] 0 0

end Code

/-! ## The pads -/

inductive Button where
  | digit (i : Fin 10)
  | dec_point
  | op_add | op_sub | op_mul | op_div
  | fun_cos | fun_ln | fun_log | fun_sin | fun_tan
  | op_fact | const_pi | const_e | op_pow | lparen | rparen | op_sqrt
deriving DecidableEq

/-- What a button appends. -/
def Button.appends (locale : Locale) : Button → Text
  | .digit i => [locale.digit i]
  | .dec_point => [locale.decimalSeparator]
  | .op_add => ['+']
  | .op_sub => [Locale.op_sub]
  | .op_mul => [Locale.op_mul]
  | .op_div => [Locale.op_div]
  | .fun_cos => locale.fun_cos ++ ['(']
  | .fun_ln => locale.fun_ln ++ ['(']
  | .fun_log => locale.fun_log ++ ['(']
  | .fun_sin => locale.fun_sin ++ ['(']
  | .fun_tan => locale.fun_tan ++ ['(']
  | .op_fact => ['!']
  | .const_pi => ['π']
  | .const_e => ['e']
  | .op_pow => ['^']
  | .lparen => ['(']
  | .rparen => [')']
  | .op_sqrt => ['√']

/-! ## What is never written -/

/-- Two operators next to each other are a sign behind `*` or `/`. -/
def Adjacent (left right : Char) : Prop :=
  left ∈ operators → right ∈ operators → right = '-' ∧ (left = '*' ∨ left = '/')

/-- No operator follows another one but as a sign, and no number has two decimal points. -/
structure Clean (isDigit : Char → Bool) (expr : Text) : Prop where
  operators : expr.IsChain Adjacent
  decimals : ∀ before between behind, expr = before ++ '.' :: (between ++ '.' :: behind) →
    ∃ c ∈ between, ¬isDigit c

section Clean

variable {isDigit : Char → Bool} {expr : Text}

theorem clean_nil : Clean isDigit [] where
  operators := .nil
  decimals _ _ _ heq := by simp at heq

theorem Clean.left {more : Text} (hclean : Clean isDigit (expr ++ more)) : Clean isDigit expr where
  operators := hclean.operators.left_of_append
  decimals before between behind heq :=
    hclean.decimals before between (behind ++ more) (by simp [heq])

theorem Clean.of_prefix {shorter : Text} (hclean : Clean isDigit expr) (hle : shorter <+: expr) :
    Clean isDigit shorter := by
  obtain ⟨more, rfl⟩ := hle
  exact hclean.left

/-- A character that is no decimal point puts no second one into a number. -/
theorem Clean.snoc {c : Char} (hclean : Clean isDigit expr) (hdot : c ≠ '.')
    (hadjacent : ∀ last, expr.getLast? = some last → Adjacent last c) :
    Clean isDigit (expr ++ [c]) where
  operators := by
    refine List.isChain_append.mpr ⟨hclean.operators, List.isChain_singleton _, ?_⟩
    intro last hlast first hfirst
    rw [List.head?_singleton, Option.mem_some_iff] at hfirst
    rw [← hfirst]
    exact hadjacent last hlast
  decimals before between behind heq := by
    rcases List.eq_nil_or_concat behind with rfl | ⟨init, last, rfl⟩
    · have hsplit : expr ++ [c] = (before ++ '.' :: between) ++ ['.'] := by simpa using heq
      exact absurd (List.append_singleton_inj.mp hsplit).2 hdot
    · have hsplit : expr ++ [c] = (before ++ '.' :: (between ++ '.' :: init)) ++ [last] := by
        simpa using heq
      exact hclean.decimals before between init (List.append_singleton_inj.mp hsplit).1

theorem Clean.append_plain {more : Text} (hclean : Clean isDigit expr)
    (hmore : ∀ c ∈ more, c ≠ '.' ∧ c ∉ Calculator2.operators) : Clean isDigit (expr ++ more) := by
  induction more using List.reverseRecOn with
  | nil => simpa using hclean
  | append_singleton more c ih =>
      obtain ⟨hdot, hoperator⟩ := hmore c (by simp)
      rw [← List.append_assoc]
      refine (ih fun c' hc' => hmore c' (List.mem_append_left _ hc')).snoc hdot ?_
      exact fun _ _ _ hc => absurd hc hoperator

theorem Clean.snoc_dot (hclean : Clean isDigit expr)
    (hnumber : ∀ before between, expr = before ++ '.' :: between → ∃ c ∈ between, ¬isDigit c) :
    Clean isDigit (expr ++ ['.']) where
  operators := by
    refine List.isChain_append.mpr ⟨hclean.operators, List.isChain_singleton _, ?_⟩
    intro last _ first hfirst _ hoperator
    rw [List.head?_singleton, Option.mem_some_iff] at hfirst
    rw [← hfirst] at hoperator
    exact absurd hoperator (by decide)
  decimals before between behind heq := by
    rcases List.eq_nil_or_concat behind with rfl | ⟨init, last, rfl⟩
    · have hsplit : expr ++ ['.'] = (before ++ '.' :: between) ++ ['.'] := by simpa using heq
      exact hnumber before between (List.append_singleton_inj.mp hsplit).1
    · have hsplit : expr ++ ['.'] = (before ++ '.' :: (between ++ '.' :: init)) ++ [last] := by
        simpa using heq
      exact hclean.decimals before between init (List.append_singleton_inj.mp hsplit).1

end Clean

/-! ## Looking at the normal spelling -/

section Strip

variable {expr : Text} {start : ℕ}

theorem lastIndexOf_eq_none {c : Char} {text : Text} (hnone : lastIndexOf c text = none) :
    c ∉ text := by
  induction text with
  | nil => simp
  | cons first text ih =>
      rw [lastIndexOf] at hnone
      cases hlater : lastIndexOf c text with
      | some index => simp [hlater] at hnone
      | none =>
          rw [hlater] at hnone
          have hne : first ≠ c := by simpa using hnone
          simp [ih hlater, Ne.symm hne]

theorem lastIndexOf_eq_some {c : Char} {text : Text} {index : ℕ}
    (hsome : lastIndexOf c text = some index) :
    ∃ before behind, text = before ++ c :: behind ∧ c ∉ behind ∧ before.length = index := by
  induction text generalizing index with
  | nil => cases hsome
  | cons first text ih =>
      rw [lastIndexOf] at hsome
      cases hlater : lastIndexOf c text with
      | some later =>
          obtain ⟨before, behind, rfl, hnot, hlength⟩ := ih hlater
          rw [hlater] at hsome
          have hindex : later + 1 = index := Option.some.inj hsome
          exact ⟨first :: before, behind, rfl, hnot, by simp [hlength, hindex]⟩
      | none =>
          rw [hlater] at hsome
          have hfirst : first = c ∧ 0 = index := by simpa using hsome
          exact ⟨[], text, by rw [hfirst.1]; rfl, lastIndexOf_eq_none hlater, hfirst.2⟩

theorem getLast?_take_succ {c : Char} (hget : expr[start]? = some c) :
    (expr.take (start + 1)).getLast? = some c := by
  rw [List.take_add_one, hget]
  simp

theorem signs_subset {c : Char} (hc : c ∈ signs) : c ∈ operators := by
  simp only [signs, List.mem_cons, List.not_mem_nil, or_false] at hc
  rcases hc with rfl | rfl <;> decide

theorem stripOperators_spec (hle : start ≤ expr.length) :
    ∃ s ≤ start, stripOperators expr start = some s ∧
      ∀ last, (expr.take s).getLast? = some last → last ∉ operators := by
  induction start with
  | zero => exact ⟨0, le_rfl, rfl, by simp⟩
  | succ start ih =>
      have hget : expr[start]? = some expr[start] := List.getElem?_eq_getElem hle
      by_cases hc : expr[start] ∈ operators
      · obtain ⟨s, hs, hstrip, hlast⟩ := ih (Nat.le_of_succ_le hle)
        refine ⟨s, Nat.le_succ_of_le hs, ?_, hlast⟩
        simp [stripOperators, hget, hc, hstrip]
      · refine ⟨start + 1, le_rfl, by simp [stripOperators, hget, hc], ?_⟩
        intro last hlast
        rw [getLast?_take_succ hget] at hlast
        rwa [← Option.some.inj hlast]

/-- At most one sign is taken away. -/
theorem stripSign_spec (hle : start ≤ expr.length) :
    (stripSign expr start = some start ∧
      ∀ last, (expr.take start).getLast? = some last → last ∉ signs) ∨
    ∃ s sign, start = s + 1 ∧ stripSign expr start = some s ∧ expr[s]? = some sign ∧
      sign ∈ signs := by
  cases start with
  | zero => exact .inl ⟨rfl, by simp⟩
  | succ start =>
      have hget : expr[start]? = some expr[start] := List.getElem?_eq_getElem hle
      by_cases hc : expr[start] ∈ signs
      · exact .inr ⟨start, expr[start], rfl, by simp only [stripSign, hget, Option.bind_eq_bind,
          Option.bind_some, if_pos hc], hget, hc⟩
      · refine .inl ⟨by simp only [stripSign, hget, Option.bind_eq_bind, Option.bind_some,
          if_neg hc], ?_⟩
        intro last hlast
        rw [getLast?_take_succ hget] at hlast
        rwa [← Option.some.inj hlast]

/-- An operator is dropped at the start, and otherwise goes where it may stand. -/
theorem appendSymbol_operator (isDigit : Char → Bool) (isEdited : Bool) {c : Char}
    (hc : c ∈ operators) (hle : start ≤ expr.length) :
    (start = 0 ∧ appendSymbol isDigit expr start isEdited c = some ⟨[], start, isEdited⟩) ∨
    ∃ s ≤ start, appendSymbol isDigit expr start isEdited c = some ⟨[c], s, true⟩ ∧
      (((∃ sign, expr[s]? = some sign ∧ sign ∈ signs) →
          (expr.take (s + 1)).IsChain Adjacent) →
        ∀ last, (expr.take s).getLast? = some last → Adjacent last c) := by
  have hdot : c ≠ '.' := by
    rintro rfl
    exact absurd hc (by decide)
  by_cases hsub : c = '-'
  · subst hsub
    right
    rcases stripSign_spec hle with ⟨hstrip, hlast⟩ | ⟨s, sign, rfl, hstrip, hsign, hmem⟩
    · refine ⟨start, le_rfl, by simp [appendSymbol, hstrip], ?_⟩
      intro _ last hget hoperator _
      have hnot := hlast last hget
      refine ⟨rfl, ?_⟩
      simp only [operators, signs, List.mem_cons, List.not_mem_nil, or_false] at hoperator hnot
      tauto
    · refine ⟨s, Nat.le_succ s, by simp [appendSymbol, hstrip], ?_⟩
      intro hchain last hget hoperator _
      refine ⟨rfl, ?_⟩
      -- The sign that was there could stand behind this character, too.
      have hadjacent := hchain ⟨sign, hsign, hmem⟩
      rw [List.take_add_one, hsign, Option.toList_some] at hadjacent
      have hnext := (List.isChain_append.mp hadjacent).2.2 last hget sign rfl
      exact (hnext hoperator (signs_subset hmem)).2
  · have hother : c = '+' ∨ c = '*' ∨ c = '/' := by
      simp only [operators, List.mem_cons, List.not_mem_nil, or_false] at hc
      tauto
    by_cases hstart : start = 0
    · exact .inl ⟨hstart, by simp [appendSymbol, hdot, hother, hstart]⟩
    · right
      obtain ⟨s, hs, hstrip, hlast⟩ := stripOperators_spec hle
      have hsign : stripSign expr s = some s := by
        rcases stripSign_spec (hs.trans hle) with ⟨hsame, -⟩ | ⟨s', sign, rfl, -, hget, hmem⟩
        · exact hsame
        · exact absurd (signs_subset hmem) (hlast sign (getLast?_take_succ hget))
      refine ⟨s, hs, by simp [appendSymbol, hdot, hother, hstart, hstrip, hsign], ?_⟩
      exact fun _ last hget hoperator _ => absurd hoperator (hlast last hget)

theorem appendSymbol_plain {isDigit : Char → Bool} {isEdited : Bool} {c : Char} (hdot : c ≠ '.')
    (hc : c ∉ operators) :
    appendSymbol isDigit expr start isEdited c = some ⟨[c], start, isEdited⟩ := by
  have hnone : ¬(c = '+' ∨ c = '*' ∨ c = '/') ∧ c ≠ '-' := by
    constructor
    · rintro (rfl | rfl | rfl) <;> exact hc (by decide)
    · rintro rfl
      exact hc (by decide)
  rw [appendSymbol, if_neg hdot, if_neg hnone.1, if_neg hnone.2]

end Strip

/-! ## The part of a text before infinity

There the text and its normal spelling have the same indices. -/

def finite (text : Text) : Text := text.takeWhile (· ≠ Locale.inf)

section Finite

variable {text : Text} {k : ℕ}

theorem finite_of_notMem (hinf : Locale.inf ∉ text) : finite text = text := by
  rw [finite, List.takeWhile_eq_self_iff]
  intro c hc
  simpa using fun heq : c = Locale.inf => hinf (heq ▸ hc)

theorem finite_append_of_mem (hinf : Locale.inf ∈ text) (more : Text) :
    finite (text ++ more) = finite text := by
  rw [finite, finite, List.takeWhile_append, if_neg]
  intro hlength
  have hle : text.takeWhile (· ≠ Locale.inf) <+: text := List.takeWhile_prefix _
  have hself := hle.eq_of_length hlength
  have hall := List.takeWhile_eq_self_iff.mp hself Locale.inf hinf
  simp at hall

theorem finite_take_le (text : Text) (k : ℕ) : finite (text.take k) <+: finite text := by
  by_cases hinf : Locale.inf ∈ text.take k
  · conv_rhs => rw [← List.take_append_drop k text, finite_append_of_mem hinf]
  · rw [finite_of_notMem hinf]
    conv_rhs => rw [← List.take_append_drop k text, finite, List.takeWhile_append_of_pos (by
      intro c hc
      simpa using fun heq : c = Locale.inf => hinf (heq ▸ hc))]
    exact List.prefix_append _ _

variable (tokenizer : Tokenizer)

theorem Tokenizer.normalized_append (left right : Text) :
    tokenizer.normalized (left ++ right) =
      tokenizer.normalized left ++ tokenizer.normalized right := by
  rw [normalized_eq, normalized_eq, normalized_eq, List.flatMap_append]

theorem Tokenizer.normalized_of_notMem (hinf : Locale.inf ∉ text) :
    tokenizer.normalized text = text.map tokenizer.locale.sym := by
  rw [normalized_eq, List.map_eq_flatMap]
  refine List.flatMap_congr fun c hc => ?_
  rw [Locale.norm, if_neg fun heq : c = Locale.inf => hinf (heq ▸ hc)]

theorem Tokenizer.length_normalized (text : Text) :
    (tokenizer.normalized text).length = text.length + 7 * text.count Locale.inf := by
  rw [normalized_eq]
  induction text with
  | nil => rfl
  | cons c text ih =>
      rw [List.flatMap_cons, List.length_append, ih, List.length_cons, List.count_cons,
        Locale.norm]
      by_cases hc : c = Locale.inf
      · have hlength : Locale.infinity.length = 8 := rfl
        simp [hc, hlength]
        omega
      · simp [hc]
        omega

theorem Tokenizer.normalized_take (hinf : Locale.inf ∉ text.take k) :
    (tokenizer.normalized text).take (text.take k).length =
      (text.take k).map tokenizer.locale.sym := by
  conv_lhs => rw [← List.take_append_drop k text, normalized_append, normalized_of_notMem _ hinf]
  rw [List.take_append_drop, List.take_left' (by simp)]

/-- Behind a part without infinity stands no sign where infinity does. -/
theorem Tokenizer.notMem_take_succ (hinf : Locale.inf ∉ text.take k) (hk : k < text.length)
    {sign : Char} (hget : (tokenizer.normalized text)[k]? = some sign) (hsign : sign ∈ signs) :
    Locale.inf ∉ text.take (k + 1) := by
  rw [List.take_add_one, List.getElem?_eq_getElem hk, Option.toList_some, List.mem_append,
    List.mem_singleton]
  rintro (hmem | hlast)
  · exact hinf hmem
  · have hlength : ((text.take k).map tokenizer.locale.sym).length = k := by
      simp [Nat.le_of_lt hk]
    have hsplit : tokenizer.normalized text = (text.take k).map tokenizer.locale.sym ++
        ('I' :: ("nfinity".toList ++ tokenizer.normalized (text.drop (k + 1)))) := by
      conv_lhs => rw [← List.take_append_drop k text, normalized_append,
        normalized_of_notMem _ hinf, List.drop_eq_getElem_cons hk, ← hlast, normalized_eq,
        List.flatMap_cons, ← normalized_eq, Locale.norm, if_pos rfl]
      rfl
    rw [hsplit, List.getElem?_append_right (by omega), hlength, Nat.sub_self] at hget
    have hI : 'I' = sign := Option.some.inj hget
    rw [← hI] at hsign
    exact absurd hsign (by decide)

end Finite

/-! ## One edit -/

/-- What is kept of the formula: it is written in the symbols of the locale, and before
infinity it is clean. -/
structure Builder.Sound (tokenizer : Tokenizer) (isDigit : Char → Bool) (builder : Builder) :
    Prop where
  written : ∀ c ∈ builder.text, tokenizer.locale.Written c
  clean : Clean isDigit ((finite builder.text).map tokenizer.locale.sym)

section Edit

variable (tokenizer : Tokenizer) (isDigit : Char → Bool) {builder : Builder}

theorem Builder.delete_eq {last : ℕ} (hlength : builder.text.length = last + 1) :
    builder.delete tokenizer.entrySet isDigit last builder.text.length =
      some ⟨⟨builder.text.take last, true⟩, true⟩ := by
  have hne : last ≠ builder.text.length := by omega
  simp [delete, replace, hne, superReplace, subSequence]

theorem Builder.clear_eq (hne : builder.text ≠ []) :
    builder.clear tokenizer.entrySet isDigit = some ⟨⟨[], true⟩, true⟩ := by
  simp [clear, replace, superReplace, subSequence, hne, eq_comm]

theorem Builder.append_eq (tb : Text) : builder.append tokenizer.entrySet isDigit tb =
    (builder.onAppend tokenizer.entrySet isDigit builder.text.length
      (tokenizer.normalized tb)).map (builder.insert tokenizer.entrySet builder.text.length) := by
  have hsub : subSequence tb 0 tb.length = tb := by simp [subSequence]
  rw [append, replace, if_neg (by simp), hsub]
  exact Option.map_eq_bind.symm

/-- What comes in is put in as it was. -/
theorem Builder.append_of_some {tb : Text} (hwritten : ∀ c ∈ tb, tokenizer.locale.Written c)
    (htb : tb ≠ []) {start : ℕ} {isEdited : Bool}
    (happend : builder.onAppend tokenizer.entrySet isDigit builder.text.length
      (tokenizer.normalized tb) = some ⟨tokenizer.normalized tb, start, isEdited⟩) :
    builder.append tokenizer.entrySet isDigit tb =
      some ⟨⟨(if isEdited then builder.text.take start else []) ++ tb, true⟩, true⟩ := by
  have hback : getLocalizedExpression tokenizer.entrySet (tokenizer.normalized tb) = tb :=
    tokenizer.localized_normalized hwritten
  have hsub : subSequence tb 0 tb.length = tb := by simp [subSequence]
  have hpos : 0 < tb.length := List.length_pos_iff.mpr htb
  have hlength : 0 < (tokenizer.normalized tb).length := by
    rw [Tokenizer.length_normalized]
    omega
  rw [append_eq, happend, Option.map_some, insert]
  cases isEdited with
  | true => simp [hback, superReplace, hsub, hpos.ne]
  | false => simp [hback, superReplace, hsub, hpos.ne, hlength]

/-- What is dropped changes nothing. -/
theorem Builder.append_of_dropped {tb : Text}
    (happend : builder.onAppend tokenizer.entrySet isDigit builder.text.length
      (tokenizer.normalized tb) = some ⟨[], builder.text.length, builder.isEdited⟩) :
    builder.append tokenizer.entrySet isDigit tb = some ⟨builder, false⟩ := by
  have hnil : getLocalizedExpression tokenizer.entrySet [] = [] := tokenizer.localized_eq []
  rw [append_eq, happend, Option.map_some, insert]
  simp [hnil, superReplace, subSequence]

variable {tokenizer isDigit}

theorem Builder.Sound.take (hsound : builder.Sound tokenizer isDigit) (k : ℕ) (isEdited : Bool) :
    Builder.Sound tokenizer isDigit ⟨builder.text.take k, isEdited⟩ where
  written c hc := hsound.written c (List.mem_of_mem_take hc)
  clean := hsound.clean.of_prefix ((finite_take_le builder.text k).map _)

/-- The formula as it is, or nothing where the first edit replaces it. -/
theorem Builder.Sound.base (hsound : builder.Sound tokenizer isDigit) (isEdited : Bool) :
    Builder.Sound tokenizer isDigit ⟨if isEdited then builder.text else [], isEdited⟩ := by
  cases isEdited with
  | true => exact ⟨hsound.written, hsound.clean⟩
  | false => exact hsound.take 0 false

theorem Builder.Sound.append {more : Text} (hsound : builder.Sound tokenizer isDigit)
    (hwritten : ∀ c ∈ more, tokenizer.locale.Written c) (hinf : Locale.inf ∉ more)
    (hclean : Locale.inf ∉ builder.text → Clean isDigit (builder.text.map tokenizer.locale.sym) →
      Clean isDigit (builder.text.map tokenizer.locale.sym ++ more.map tokenizer.locale.sym))
    (isEdited : Bool) :
    Builder.Sound tokenizer isDigit ⟨builder.text ++ more, isEdited⟩ where
  written c hc := (List.mem_append.mp hc).elim (hsound.written c) (hwritten c)
  clean := by
    by_cases hmem : Locale.inf ∈ builder.text
    · rw [finite_append_of_mem hmem]
      exact hsound.clean
    · have hold := hsound.clean
      rw [finite_of_notMem hmem] at hold
      rw [finite_of_notMem (by simp [hmem, hinf]), List.map_append]
      exact hclean hmem hold

theorem Builder.onAppend_plain {expr : Text} {start : ℕ}
    (hplain : ∀ c ∈ expr, c ≠ '.' ∧ c ∉ operators) :
    builder.onAppend tokenizer.entrySet isDigit start expr =
      some ⟨expr, start, builder.isEdited⟩ := by
  match expr with
  | [] => rfl
  | [c] => exact appendSymbol_plain (hplain c (by simp)).1 (hplain c (by simp)).2
  | _ :: _ :: _ => rfl

/-- The decimal point and the operators of the normal spelling are those of the locale. -/
theorem Tokenizer.normalized_loc {c : Char} (hc : c ∈ '.' :: operators) :
    tokenizer.normalized [tokenizer.locale.loc c] = [c] ∧
      tokenizer.locale.Written (tokenizer.locale.loc c) ∧ tokenizer.locale.loc c ≠ Locale.inf := by
  have hne : c ≠ 'I' ∧ c ≠ Locale.inf := by
    have hall : ∀ c ∈ '.' :: operators, c ≠ 'I' ∧ c ≠ Locale.inf :=
      List.all_iff_forall_prop.mp (by decide)
    exact hall c hc
  have hinf := tokenizer.plain.loc_ne_inf hne.2
  have hsym : tokenizer.locale.sym (tokenizer.locale.loc c) = c := by
    refine tokenizer.plain.sym_loc fun hvalue => ?_
    rw [Locale.map_fst_symbols]
    by_cases hplus : c = '+'
    · rw [hplus] at hvalue
      exact absurd hvalue (tokenizer.plain.notMem_of_reserved (by decide))
    · simp only [operators, List.mem_cons, List.not_mem_nil, or_false] at hc ⊢
      tauto
  refine ⟨?_, tokenizer.plain.written_loc hne.1, hinf⟩
  rw [Tokenizer.normalized_of_notMem _ (by simpa using hinf.symm), List.map_singleton, hsym]

theorem Builder.Sound.append_operator (hsound : builder.Sound tokenizer isDigit) {c : Char}
    (hc : c ∈ operators) :
    builder.append tokenizer.entrySet isDigit [tokenizer.locale.loc c] = some ⟨builder, false⟩ ∨
    ∃ text, builder.append tokenizer.entrySet isDigit [tokenizer.locale.loc c] =
        some ⟨⟨text, true⟩, true⟩ ∧ Builder.Sound tokenizer isDigit ⟨text, true⟩ := by
  obtain ⟨hnormal, hwritten, hinf⟩ := tokenizer.normalized_loc (List.mem_cons_of_mem '.' hc)
  have hlength := tokenizer.length_normalized builder.text
  have hsingle : ∀ c' ∈ [tokenizer.locale.loc c], tokenizer.locale.Written c' := by
    simpa using hwritten
  have hle : builder.text.length ≤ (tokenizer.normalized builder.text).length := by omega
  rcases appendSymbol_operator isDigit builder.isEdited hc hle with
    ⟨hstart, hdropped⟩ | ⟨s, hs, hsome, hadjacent⟩
  · left
    exact Builder.append_of_dropped _ _ (by rw [hnormal]; exact hdropped)
  · right
    refine ⟨_, Builder.append_of_some _ _ hsingle (List.cons_ne_nil _ _)
      (by rw [hnormal]; exact hsome), ?_⟩
    rw [if_pos rfl]
    refine (hsound.take s true).append hsingle (by simpa using hinf.symm) ?_ true
    intro hnot hclean
    have htake : (tokenizer.normalized builder.text).take s =
        (builder.text.take s).map tokenizer.locale.sym := by
      have hprefix := tokenizer.normalized_take hnot
      rwa [List.length_take_of_le hs] at hprefix
    have hsym : [tokenizer.locale.loc c].map tokenizer.locale.sym = [c] := by
      rw [← Tokenizer.normalized_of_notMem _ (by simpa using hinf.symm), hnormal]
    have hdot : c ≠ '.' := by
      rintro rfl
      exact absurd hc (by decide)
    rw [hsym, ← htake]
    rw [← htake] at hclean
    refine hclean.snoc hdot (hadjacent ?_)
    rintro ⟨sign, hget, hsign⟩
    have hlt : s < builder.text.length := by
      by_contra hge
      have hwhole : builder.text.take s = builder.text := List.take_of_length_le (by omega)
      rw [hwhole] at hnot
      rw [List.count_eq_zero_of_not_mem hnot] at hlength
      rw [List.getElem?_eq_none (by omega)] at hget
      cases hget
    have hnext := tokenizer.notMem_take_succ hnot hlt hget hsign
    have htakeNext := tokenizer.normalized_take hnext
    rw [List.length_take_of_le hlt] at htakeNext
    rw [htakeNext]
    have hprefix := hsound.clean.of_prefix ((finite_take_le builder.text (s + 1)).map _)
    rw [finite_of_notMem hnext] at hprefix
    exact hprefix.operators

/-! ## The decimal point -/

theorem lastIndexOf_of_notMem {c : Char} {text : Text} (hc : c ∉ text) :
    lastIndexOf c text = none := by
  cases hindex : lastIndexOf c text with
  | none => rfl
  | some index =>
      obtain ⟨before, behind, rfl, -⟩ := lastIndexOf_eq_some hindex
      simp at hc

theorem lastIndexOf_append {c : Char} (before : Text) {behind : Text} (hc : c ∉ behind) :
    lastIndexOf c (before ++ c :: behind) = some before.length := by
  induction before with
  | nil => simp [lastIndexOf, lastIndexOf_of_notMem hc]
  | cons first before ih => simp [lastIndexOf, ih]

/-- The normal decimal point stands for the local one only. -/
theorem Tokenizer.dot_notMem_normalized {text : Text}
    (hwritten : ∀ c ∈ text, tokenizer.locale.Written c) (hdot : tokenizer.locale.loc '.' ∉ text) :
    '.' ∉ tokenizer.normalized text := by
  rw [normalized_eq, List.mem_flatMap]
  rintro ⟨c, hc, hmem⟩
  rw [Locale.norm] at hmem
  split at hmem
  · exact absurd hmem (by decide)
  · rw [List.mem_singleton] at hmem
    rw [hmem, tokenizer.plain.loc_sym (hwritten c hc)] at hdot
    exact hdot hc

theorem Tokenizer.lastIndexOf_normalized {text : Text}
    (hwritten : ∀ c ∈ text, tokenizer.locale.Written c) :
    (tokenizer.locale.loc '.' ∉ text ∧ lastIndexOf '.' (tokenizer.normalized text) = none) ∨
    ∃ before behind, text = before ++ tokenizer.locale.loc '.' :: behind ∧
      tokenizer.locale.loc '.' ∉ behind ∧
      lastIndexOf '.' (tokenizer.normalized text) =
        some (before.length + 7 * before.count Locale.inf) ∧
      (tokenizer.normalized text).drop (before.length + 7 * before.count Locale.inf + 1) =
        tokenizer.normalized behind := by
  cases hindex : lastIndexOf (tokenizer.locale.loc '.') text with
  | none =>
      have hnot := lastIndexOf_eq_none hindex
      exact .inl ⟨hnot, lastIndexOf_of_notMem (tokenizer.dot_notMem_normalized hwritten hnot)⟩
  | some index =>
      obtain ⟨before, behind, rfl, hnot, -⟩ := lastIndexOf_eq_some hindex
      have hbehind := tokenizer.dot_notMem_normalized
        (fun c hc => hwritten c (List.mem_append_right _ (List.mem_cons_of_mem _ hc))) hnot
      have hsplit : tokenizer.normalized (before ++ tokenizer.locale.loc '.' :: behind) =
          tokenizer.normalized before ++ '.' :: tokenizer.normalized behind := by
        rw [normalized_append, ← List.singleton_append, normalized_append,
          (tokenizer.normalized_loc List.mem_cons_self).1]
        rfl
      refine .inr ⟨before, behind, rfl, hnot, ?_, ?_⟩
      · rw [hsplit, lastIndexOf_append _ hbehind, length_normalized]
      · rw [hsplit, List.append_cons]
        exact List.drop_left' (by simp [length_normalized])

variable (isDigit) in
/-- A second decimal point goes wrong when the last one has moved behind the end of the
text. -/
theorem Builder.append_dot_eq_none_iff (hwritten : ∀ c ∈ builder.text, tokenizer.locale.Written c) :
    builder.append tokenizer.entrySet isDigit [tokenizer.locale.loc '.'] = none ↔
      ∃ before behind, builder.text = before ++ tokenizer.locale.loc '.' :: behind ∧
        tokenizer.locale.loc '.' ∉ behind ∧ behind.length < 7 * before.count Locale.inf := by
  have hnormal := (tokenizer.normalized_loc (c := '.') List.mem_cons_self).1
  have hlength := tokenizer.length_normalized builder.text
  rw [append_eq, hnormal, Option.map_eq_none_iff, onAppend, appendSymbol, if_pos rfl,
    ← Tokenizer.normalized]
  rcases tokenizer.lastIndexOf_normalized hwritten with
    ⟨hnot, hindex⟩ | ⟨before, behind, htext, hnot, hindex, -⟩
  · rw [hindex]
    simp only [reduceCtorEq, false_iff]
    rintro ⟨before, behind, htext, -⟩
    rw [htext] at hnot
    simp at hnot
  · have htextLength : builder.text.length = before.length + 1 + behind.length := by
      rw [htext]
      simp
      omega
    have hunique : ∀ before' behind',
        builder.text = before' ++ tokenizer.locale.loc '.' :: behind' →
        tokenizer.locale.loc '.' ∉ behind' → before' = before ∧ behind' = behind := by
      intro before' behind' htext' hnot'
      have hlengths := lastIndexOf_append before' hnot'
      rw [← htext', htext, lastIndexOf_append before hnot] at hlengths
      obtain ⟨hbefore, hbehind⟩ := List.append_inj (htext'.symm.trans htext)
        (Option.some.inj hlengths).symm
      exact ⟨hbefore, (List.cons.inj hbehind).2⟩
    rw [hindex]
    simp only
    split
    case isTrue hin =>
      have hsome : (if (subSequence (tokenizer.normalized builder.text)
          (before.length + 7 * before.count Locale.inf + 1) builder.text.length).all isDigit then
          some (⟨[], builder.text.length, builder.isEdited⟩ : Append)
          else some ⟨['.'], builder.text.length, builder.isEdited⟩) ≠ none := by
        split <;> simp
      refine iff_of_false hsome ?_
      rintro ⟨before', behind', htext', hnot', hlt⟩
      obtain ⟨rfl, rfl⟩ := hunique before' behind' htext' hnot'
      omega
    case isFalse hout =>
      refine iff_of_true rfl ⟨before, behind, htext, hnot, ?_⟩
      omega

theorem Builder.Sound.append_dot (hsound : builder.Sound tokenizer isDigit) {edit : Edit}
    (hedit : builder.append tokenizer.entrySet isDigit [tokenizer.locale.loc '.'] = some edit) :
    edit = ⟨builder, false⟩ ∨
      ∃ text, edit = ⟨⟨text, true⟩, true⟩ ∧ Builder.Sound tokenizer isDigit ⟨text, true⟩ := by
  obtain ⟨hnormal, hwritten, hinf⟩ := tokenizer.normalized_loc (c := '.') List.mem_cons_self
  have hsingle : ∀ c' ∈ [tokenizer.locale.loc '.'], tokenizer.locale.Written c' := by
    simpa using hwritten
  have hsym : [tokenizer.locale.loc '.'].map tokenizer.locale.sym = ['.'] := by
    rw [← Tokenizer.normalized_of_notMem _ (by simpa using hinf.symm), hnormal]
  have hcases : builder.onAppend tokenizer.entrySet isDigit builder.text.length ['.'] =
        some ⟨[], builder.text.length, builder.isEdited⟩ ∨
      builder.onAppend tokenizer.entrySet isDigit builder.text.length ['.'] =
        some ⟨['.'], builder.text.length, builder.isEdited⟩ ∧
      ∀ before behind, builder.text = before ++ tokenizer.locale.loc '.' :: behind →
        Locale.inf ∉ builder.text → ∃ c ∈ behind.map tokenizer.locale.sym, ¬isDigit c := by
    rw [Builder.append_eq, hnormal] at hedit
    obtain ⟨append, happend, -⟩ := Option.map_eq_some_iff.mp hedit
    rw [Builder.onAppend, appendSymbol, if_pos rfl, ← Tokenizer.normalized] at happend ⊢
    rcases tokenizer.lastIndexOf_normalized hsound.written with
      ⟨hnot, hindex⟩ | ⟨before, behind, htext, hnot, hindex, hdrop⟩
    · rw [hindex]
      refine .inr ⟨rfl, fun before behind htext _ => ?_⟩
      rw [htext] at hnot
      simp at hnot
    · rw [hindex] at happend ⊢
      simp only at happend ⊢
      split at happend
      case isFalse => cases happend
      case isTrue hin =>
        rw [if_pos hin]
        by_cases hdigits : (subSequence (tokenizer.normalized builder.text)
            (before.length + 7 * before.count Locale.inf + 1) builder.text.length).all isDigit
        · exact .inl (if_pos hdigits)
        · refine .inr ⟨if_neg hdigits, fun before' behind' htext' hnone => ?_⟩
          have hlength := tokenizer.length_normalized builder.text
          rw [List.count_eq_zero_of_not_mem hnone, Nat.mul_zero, Nat.add_zero] at hlength
          rw [subSequence, ← hlength, List.take_length, hdrop,
            Tokenizer.normalized_of_notMem _ fun hmem => hnone (htext ▸ by simp [hmem])] at hdigits
          obtain ⟨c, hc, hdigit⟩ := List.all_eq_false.mp (Bool.not_eq_true _ ▸ hdigits)
          refine ⟨c, ?_, hdigit⟩
          -- What stands behind the last point stands behind every point.
          have hsuffix : behind.map tokenizer.locale.sym ⊆ behind'.map tokenizer.locale.sym := by
            refine List.map_subset _ ?_
            rcases List.append_eq_append_iff.mp (htext.symm.trans htext') with
              ⟨between, -, hsplit⟩ | ⟨between, -, hsplit⟩
            · cases between with
              | nil =>
                  rw [(List.cons.inj hsplit).2]
                  exact List.Subset.refl _
              | cons _ between =>
                  rw [(List.cons.inj hsplit).2] at hnot
                  simp at hnot
            · cases between with
              | nil =>
                  rw [(List.cons.inj hsplit).2]
                  exact List.Subset.refl _
              | cons _ between =>
                  rw [(List.cons.inj hsplit).2]
                  simp
          exact hsuffix hc
  rcases hcases with hdropped | ⟨hsome, hnumber⟩
  · rw [Builder.append_of_dropped _ _ (by rw [hnormal]; exact hdropped)] at hedit
    exact .inl (Option.some.inj hedit).symm
  · rw [Builder.append_of_some _ _ hsingle (List.cons_ne_nil _ _)
      (by rw [hnormal]; exact hsome)] at hedit
    refine .inr ⟨_, (Option.some.inj hedit).symm, ?_⟩
    rw [List.take_length]
    refine (hsound.base builder.isEdited).append hsingle (by simpa using hinf.symm) ?_ true
    intro hnone hclean
    rw [hsym]
    refine hclean.snoc_dot ?_
    cases hedited : builder.isEdited with
    | false => simp
    | true =>
        simp only [hedited, if_true] at hnone ⊢
        intro before between hsplit
        obtain ⟨left, right, htext, -, hright⟩ := List.map_eq_append_iff.mp hsplit
        obtain ⟨point, behind, rfl, hpoint, rfl⟩ := List.map_eq_cons_iff.mp hright
        have hlocal : point = tokenizer.locale.loc '.' := by
          rw [← hpoint, tokenizer.plain.loc_sym (hsound.written point (by simp [htext]))]
        rw [hlocal] at htext
        exact hnumber left behind htext hnone

/-! ## The buttons -/

theorem Builder.Sound.append_plain (hsound : builder.Sound tokenizer isDigit) {more : Text}
    (hmore : more ≠ []) (hplain : ∀ c ∈ more, tokenizer.locale.Written c ∧ c ≠ Locale.inf ∧
      tokenizer.locale.sym c ≠ '.' ∧ tokenizer.locale.sym c ∉ operators) :
    ∃ text, builder.append tokenizer.entrySet isDigit more = some ⟨⟨text, true⟩, true⟩ ∧
      Builder.Sound tokenizer isDigit ⟨text, true⟩ := by
  have hinf : Locale.inf ∉ more := fun hmem => (hplain _ hmem).2.1 rfl
  have hwritten : ∀ c ∈ more, tokenizer.locale.Written c := fun c hc => (hplain c hc).1
  have hsyms : ∀ c ∈ more.map tokenizer.locale.sym, c ≠ '.' ∧ c ∉ operators := by
    intro c hc
    obtain ⟨c, hmem, rfl⟩ := List.mem_map.mp hc
    exact (hplain c hmem).2.2
  have hnormal := tokenizer.normalized_of_notMem hinf
  refine ⟨_, Builder.append_of_some _ _ hwritten hmore
    (Builder.onAppend_plain (by rw [hnormal]; exact hsyms)), ?_⟩
  rw [List.take_length]
  exact (hsound.base builder.isEdited).append hwritten hinf
    (fun _ hclean => hclean.append_plain hsyms) true

/-- What stands on the other buttons has no other spelling. -/
theorem Tokenizer.plain_letters (tokenizer : Tokenizer) :
    ∀ c ∈ "cosloginstan(!πe^)√".toList, tokenizer.locale.Written c ∧ c ≠ Locale.inf ∧
      tokenizer.locale.sym c ≠ '.' ∧ tokenizer.locale.sym c ∉ operators := by
  intro c hc
  have hreserved : c ∈ reserved ∧ c ≠ 'I' ∧ c ≠ Locale.inf ∧ c ≠ '.' ∧ c ∉ operators ∧
      c ∉ ['.', '0', '1', '2', '3', '4', '5', '6', '7', '8', '9', '/', '*', '-'] := by
    revert c
    exact List.all_iff_forall_prop.mp (by decide)
  obtain ⟨hmem, hI, hinf, hdot, hoperator, hkey⟩ := hreserved
  rw [Locale.sym_of_notMem (tokenizer.plain.notMem_of_reserved hmem)]
  refine ⟨⟨hI, fun hsymbol => absurd hsymbol ?_⟩, hinf, hdot, hoperator⟩
  rwa [Locale.map_fst_symbols]

theorem Tokenizer.plain_digit (tokenizer : Tokenizer) (i : Fin 10) :
    tokenizer.locale.Written (tokenizer.locale.digit i) ∧
      tokenizer.locale.digit i ≠ Locale.inf ∧
      tokenizer.locale.sym (tokenizer.locale.digit i) ≠ '.' ∧
      tokenizer.locale.sym (tokenizer.locale.digit i) ∉ operators := by
  have hentry : ∃ key, (key, tokenizer.locale.digit i) ∈ tokenizer.locale.symbols ∧ key ≠ '.' ∧
      key ∉ operators := by
    have hkeys : ∀ i : Fin 10, Char.ofNat (48 + i) ≠ '.' ∧ Char.ofNat (48 + i) ∉ operators := by
      decide
    refine ⟨Char.ofNat (48 + i), ?_, hkeys i⟩
    fin_cases i <;> simp [Locale.symbols]
  obtain ⟨key, hmem, hdot, hoperator⟩ := hentry
  have hreserved : tokenizer.locale.digit i ∉ reserved := tokenizer.plain.unreserved _ hmem
  have hvalue : tokenizer.locale.digit i ∈ tokenizer.locale.symbols.map Prod.snd :=
    List.mem_map_of_mem hmem
  rw [tokenizer.plain.sym_of_mem hmem]
  refine ⟨⟨?_, fun _ => hvalue⟩, ?_, hdot, hoperator⟩
  · intro heq
    rw [heq] at hreserved
    exact hreserved (by decide)
  · intro heq
    rw [heq] at hreserved
    exact hreserved (by decide)

/-- A button is the decimal point, an operator, or something that can stand anywhere. -/
theorem Button.appends_cases (tokenizer : Tokenizer) (button : Button) :
    (button = .dec_point ∧ button.appends tokenizer.locale = [tokenizer.locale.loc '.']) ∨
    (∃ c ∈ operators, button.appends tokenizer.locale = [tokenizer.locale.loc c]) ∨
    (button.appends tokenizer.locale ≠ [] ∧ ∀ c ∈ button.appends tokenizer.locale,
      tokenizer.locale.Written c ∧ c ≠ Locale.inf ∧ tokenizer.locale.sym c ≠ '.' ∧
        tokenizer.locale.sym c ∉ operators) := by
  have hsymbol : ∀ entry ∈ tokenizer.locale.symbols, [entry.2] = [tokenizer.locale.loc entry.1] :=
    fun entry hentry => by rw [Locale.loc_of_mem hentry]
  have hplus : tokenizer.locale.loc '+' = '+' := by
    apply Locale.loc_of_notMem
    rw [Locale.map_fst_symbols]
    decide
  have hfunctions := tokenizer.plain.functions
  simp only [Locale.functions, List.map_cons, List.map_nil, List.cons.injEq, Prod.mk.injEq,
    true_and, and_true] at hfunctions
  obtain ⟨hcos, hln, hlog, hsin, htan⟩ := hfunctions
  cases button with
  | dec_point =>
      exact .inl ⟨rfl, hsymbol ('.', tokenizer.locale.decimalSeparator) (by simp [Locale.symbols])⟩
  | op_add => exact .inr (.inl ⟨'+', by decide, by rw [hplus]; rfl⟩)
  | op_sub =>
      exact .inr (.inl
        ⟨'-', by decide, hsymbol ('-', Locale.op_sub) (by simp [Locale.symbols])⟩)
  | op_mul =>
      exact .inr (.inl
        ⟨'*', by decide, hsymbol ('*', Locale.op_mul) (by simp [Locale.symbols])⟩)
  | op_div =>
      exact .inr (.inl
        ⟨'/', by decide, hsymbol ('/', Locale.op_div) (by simp [Locale.symbols])⟩)
  | digit i =>
      refine .inr (.inr ⟨by simp [appends], fun c hc => ?_⟩)
      rw [appends, List.mem_singleton] at hc
      rw [hc]
      exact tokenizer.plain_digit i
  | fun_cos | fun_ln | fun_log | fun_sin | fun_tan | op_fact | const_pi | const_e | op_pow
  | lparen | rparen | op_sqrt =>
      refine .inr (.inr ⟨by simp [appends], fun c hc => tokenizer.plain_letters c ?_⟩)
      simp only [appends, hcos, hln, hlog, hsin, htan] at hc
      revert c
      exact List.all_iff_forall_prop.mp (by decide)

/-- A button goes wrong, is ignored, or leaves an edited formula that is still sound. -/
theorem Builder.Sound.append_button (hsound : builder.Sound tokenizer isDigit) (button : Button) :
    (button = .dec_point ∧
      builder.append tokenizer.entrySet isDigit (button.appends tokenizer.locale) = none) ∨
    builder.append tokenizer.entrySet isDigit (button.appends tokenizer.locale) =
      some ⟨builder, false⟩ ∨
    ∃ text, builder.append tokenizer.entrySet isDigit (button.appends tokenizer.locale) =
      some ⟨⟨text, true⟩, true⟩ ∧ Builder.Sound tokenizer isDigit ⟨text, true⟩ := by
  rcases button.appends_cases tokenizer with ⟨hpoint, htext⟩ | ⟨c, hc, htext⟩ | ⟨hne, hplain⟩
  · rw [htext]
    cases hedit : builder.append tokenizer.entrySet isDigit [tokenizer.locale.loc '.'] with
    | none => exact .inl ⟨hpoint, rfl⟩
    | some edit =>
        rcases hsound.append_dot hedit with rfl | ⟨text, rfl, htextSound⟩
        · exact .inr (.inl rfl)
        · exact .inr (.inr ⟨text, rfl, htextSound⟩)
  · rw [htext]
    exact .inr (hsound.append_operator hc)
  · exact .inr (.inr (hsound.append_plain hne hplain))

end Edit

end JyyOS.Calculator2
