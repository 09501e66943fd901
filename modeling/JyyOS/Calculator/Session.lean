import JyyOS.Calculator.Builder
import Mathlib.Data.List.DropRight

/-!
# The states of the calculator (`Calculator.java`, `CalculatorExpressionEvaluator.java`)

Every change of the formula evaluates it again and shows the result below; `=` puts the
result, or an error, in the place of the formula.  The animations end before the next
tap is handled, so that their effects belong to the tap that starts them.
-/

namespace JyyOS.Calculator2

inductive CalculatorState where
  | INPUT | EVALUATE | RESULT | ERROR
deriving DecidableEq

inductive ErrorResource where
  | errorNan | errorSyntax

/-- What evaluating an expression gives, a number with its `Util.doubleToString`. -/
inductive Evaluation where
  | nan
  | value (text : Text)
  | syntaxException

/-- The text of `mResultEditText`. -/
inductive Shown where
  | text (text : Text)
  | error (errorResource : ErrorResource)

def digits : Text := ['0', '1', '2', '3', '4', '5', '6', '7', '8', '9']

/-- A number in decimal notation. -/
def Decimal (text : Text) : Prop :=
  ∃ sign whole fraction exponent, text = sign ++ whole ++ fraction ++ exponent ∧
    (sign = [] ∨ sign = ['-']) ∧ whole ≠ [] ∧ whole ⊆ digits ∧
    (fraction = [] ∨ ∃ places, fraction = '.' :: places ∧ places ⊆ digits) ∧
    (exponent = [] ∨ ∃ sign places, exponent = 'E' :: (sign ++ places) ∧
      (sign = [] ∨ sign = ['-']) ∧ places ≠ [] ∧ places ⊆ digits)

def Numeral (text : Text) : Prop :=
  text = Locale.infinity ∨ text = '-' :: Locale.infinity ∨ Decimal text

/-- The code outside the application. -/
structure Platform where
  /-- `Character.isDigit` -/
  isDigit : Char → Bool
  /-- Whether `Double.valueOf` returns. -/
  isDouble : Text → Bool
  /-- `Symbols.eval` and `Util.doubleToString` -/
  eval : Text → Evaluation
  eval_numeral : ∀ expr text, eval expr = .value text → Numeral text
  isDouble_numeral : ∀ text, Numeral text → isDouble text

structure Calculator where
  currentState : CalculatorState
  formula : Builder
  result : Shown

/-- The instance state. -/
structure Bundle where
  currentState : CalculatorState
  currentExpression : Text

/-- The arguments of `onEvaluate` besides the expression, `none` for `null` and for
`INVALID_RES_ID`. -/
structure Callback where
  result : Option Text
  errorResourceId : Option ErrorResource

inductive Tap where
  | button (button : Button)
  | eq | del | clr

section Code

variable (tokenizer : Tokenizer) (platform : Platform)

def evaluate (expr : Text) : Callback :=
  -- Trailing operators are removed.
  let expr := (tokenizer.normalized expr).rdropWhile (· ∈ operators)
  if expr = [] ∨ platform.isDouble expr then ⟨none, none⟩
  else
    match platform.eval expr with
    | .nan => ⟨none, some .errorNan⟩
    | .value text => ⟨some (tokenizer.localized text), none⟩
    | .syntaxException => ⟨none, some .errorSyntax⟩

/-- What `onEvaluate` shows in the input state. -/
def preview (text : Text) : Shown := .text ((evaluate tokenizer platform text).result.getD [])

def afterTextChanged (calculator : Calculator) : Calculator :=
  { calculator with
    currentState := .INPUT
    result := preview tokenizer platform calculator.formula.text }

/-- The factory of the formula's texts. -/
def newEditable (currentState : CalculatorState) (source : Text) : Builder :=
  ⟨source, currentState = .INPUT ∨ currentState = .ERROR⟩

def onError (calculator : Calculator) (errorResourceId : ErrorResource) : Calculator :=
  { calculator with
    currentState :=
      if calculator.currentState = .EVALUATE then .ERROR else calculator.currentState
    result := .error errorResourceId }

def onResult (calculator : Calculator) (result : Text) : Calculator :=
  { afterTextChanged tokenizer platform
      { calculator with
        result := .text result
        formula := newEditable calculator.currentState result } with
    currentState := .RESULT }

def onEvaluate (calculator : Calculator) (callback : Callback) : Calculator :=
  if calculator.currentState = .INPUT then
    { calculator with result := .text (callback.result.getD []) }
  else
    match callback.errorResourceId, callback.result with
    | some errorResourceId, _ => onError calculator errorResourceId
    | none, some (first :: rest) => onResult tokenizer platform calculator (first :: rest)
    | none, _ =>
        -- The expression cannot be evaluated.
        if calculator.currentState = .EVALUATE then { calculator with currentState := .INPUT }
        else calculator

def edited (calculator : Calculator) (edit : Edit) : Calculator :=
  let calculator := { calculator with formula := edit.builder }
  if edit.notified then afterTextChanged tokenizer platform calculator else calculator

def onEquals (calculator : Calculator) : Calculator :=
  if calculator.currentState = .INPUT then
    onEvaluate tokenizer platform { calculator with currentState := .EVALUATE }
      (evaluate tokenizer platform calculator.formula.text)
  else calculator

def onDelete (calculator : Calculator) : Option Calculator :=
  let formulaLength := calculator.formula.text.length
  if formulaLength > 0 then
    (calculator.formula.delete tokenizer.entrySet platform.isDigit (formulaLength - 1)
      formulaLength).map (edited tokenizer platform calculator)
  else some calculator

def onClear (calculator : Calculator) : Option Calculator :=
  if calculator.formula.text = [] then some calculator
  else
    (calculator.formula.clear tokenizer.entrySet platform.isDigit).map
      (edited tokenizer platform calculator)

/-- `onButtonClick`, `none` for an exception. -/
def onButtonClick (calculator : Calculator) : Tap → Option Calculator
  | .eq => some (onEquals tokenizer platform calculator)
  | .del => onDelete tokenizer platform calculator
  | .clr => onClear tokenizer platform calculator
  | .button button =>
      (calculator.formula.append tokenizer.entrySet platform.isDigit
        (button.appends tokenizer.locale)).map (edited tokenizer platform calculator)

def onSaveInstanceState (calculator : Calculator) : Bundle :=
  ⟨calculator.currentState, tokenizer.normalized calculator.formula.text⟩

/-- The factory is set behind the first evaluation, and makes the text anew. -/
def onCreate (savedInstanceState : Option Bundle) : Calculator :=
  let state := (savedInstanceState.map Bundle.currentState).getD .INPUT
  let text := tokenizer.localized ((savedInstanceState.map Bundle.currentExpression).getD [])
  let calculator := onEvaluate tokenizer platform ⟨state, ⟨text, false⟩, .text []⟩
    (evaluate tokenizer platform text)
  { calculator with
    formula := newEditable calculator.currentState calculator.formula.text }

def run (taps : List Tap) : Option Calculator :=
  taps.foldlM (onButtonClick tokenizer platform) (onCreate tokenizer platform none)

end Code

/-! ## Numbers -/

section Numeral

variable {text : Text}

/-- The characters of a number other than infinity. -/
theorem Decimal.subset (hdecimal : Decimal text) : ∀ c ∈ text, c ∈ '.' :: '-' :: 'E' :: digits := by
  obtain ⟨sign, whole, fraction, exponent, rfl, hsign, -, hwhole, hfraction, hexponent⟩ := hdecimal
  have hdigit : ∀ places : Text, places ⊆ digits →
      ∀ c ∈ places, c ∈ '.' :: '-' :: 'E' :: digits := fun places hplaces c hc =>
    List.mem_cons_of_mem _ (List.mem_cons_of_mem _ (List.mem_cons_of_mem _ (hplaces hc)))
  have hminus : ∀ sign : Text, sign = [] ∨ sign = ['-'] →
      ∀ c ∈ sign, c ∈ '.' :: '-' :: 'E' :: digits := by
    rintro sign (rfl | rfl) <;> simp
  intro c hc
  simp only [List.mem_append] at hc
  rcases hc with ((hc | hc) | hc) | hc
  · exact hminus sign hsign c hc
  · exact hdigit whole hwhole c hc
  · rcases hfraction with rfl | ⟨places, rfl, hplaces⟩
    · cases hc
    · rcases List.mem_cons.mp hc with rfl | hc
      · simp
      · exact hdigit places hplaces c hc
  · rcases hexponent with rfl | ⟨sign, places, rfl, hsign, -, hplaces⟩
    · cases hc
    · rcases List.mem_cons.mp hc with rfl | hc
      · simp
      · rcases List.mem_append.mp hc with hc | hc
        · exact hminus sign hsign c hc
        · exact hdigit places hplaces c hc

theorem digits_plain {places : Text} (hplaces : places ⊆ digits) :
    ∀ c ∈ places, c ≠ '.' ∧ c ∉ operators := by
  intro c hc
  have hall : ∀ c ∈ digits, c ≠ '.' ∧ c ∉ operators :=
    List.all_iff_forall_prop.mp (by decide)
  exact hall c (hplaces hc)

theorem Decimal.clean (hdecimal : Decimal text) (isDigit : Char → Bool) : Clean isDigit text := by
  obtain ⟨sign, whole, fraction, exponent, rfl, hsign, -, hwhole, hfraction, hexponent⟩ := hdecimal
  have hbegin : Clean isDigit sign := by
    rcases hsign with rfl | rfl
    · exact clean_nil
    · exact clean_nil.snoc (by decide) (by simp)
  have hnumber := hbegin.append_plain (digits_plain hwhole)
  -- Before the decimal point there is none.
  have hpoint : Clean isDigit (sign ++ whole ++ fraction) := by
    rcases hfraction with rfl | ⟨places, rfl, hplaces⟩
    · simpa using hnumber
    · have hdot : '.' ∉ sign ++ whole := by
        intro hmem
        rcases List.mem_append.mp hmem with hmem | hmem
        · rcases hsign with rfl | rfl
          · cases hmem
          · exact absurd hmem (by decide)
        · exact (digits_plain hwhole _ hmem).1 rfl
      rw [← List.singleton_append, ← List.append_assoc]
      refine (hnumber.snoc_dot ?_).append_plain (digits_plain hplaces)
      intro before between heq
      rw [heq] at hdot
      simp at hdot
  rcases hexponent with rfl | ⟨sign', places, rfl, hsign', -, hplaces⟩
  · simpa using hpoint
  · have hE := hpoint.snoc (c := 'E') (by decide) fun last _ _ hE => absurd hE (by decide)
    rw [← List.singleton_append, ← List.append_assoc, ← List.append_assoc]
    refine Clean.append_plain ?_ (digits_plain hplaces)
    rcases hsign' with rfl | rfl
    · simpa using hE
    · refine hE.snoc (by decide) fun last hlast hoperator => ?_
      have hE' : 'E' = last := by simpa using hlast
      rw [← hE'] at hoperator
      exact absurd hoperator (by decide)

/-- A number does not end with an operator. -/
theorem Decimal.getLast?_notMem (hdecimal : Decimal text) :
    ∀ last, text.getLast? = some last → last ∉ operators := by
  obtain ⟨sign, whole, fraction, exponent, rfl, -, hwhole, hdigits, hfraction, hexponent⟩ :=
    hdecimal
  have hlast : ∀ (before places : Text), places ≠ [] → (∀ c ∈ places, c ∉ operators) →
      ∀ last, (before ++ places).getLast? = some last → last ∉ operators := by
    intro before places hne hplaces last hget
    rw [List.getLast?_append_of_ne_nil _ hne] at hget
    exact hplaces last (List.mem_of_getLast? hget)
  rcases hexponent with rfl | ⟨sign', places, rfl, -, hne, hplaces⟩
  · rcases hfraction with rfl | ⟨places, rfl, hplaces⟩
    · rw [List.append_nil, List.append_nil]
      exact hlast _ _ hwhole fun c hc => (digits_plain hdigits c hc).2
    · rw [List.append_nil]
      refine hlast _ _ (List.cons_ne_nil _ _) fun c hc => ?_
      rcases List.mem_cons.mp hc with rfl | hc
      · decide
      · exact (digits_plain hplaces c hc).2
  · rw [← List.singleton_append, ← List.append_assoc, ← List.append_assoc]
    exact hlast _ _ hne fun c hc => (digits_plain hplaces c hc).2

variable (tokenizer : Tokenizer)

theorem Tokenizer.localized_decimal (hdecimal : Decimal text) :
    tokenizer.localized text = text.map tokenizer.locale.loc := by
  have hI : 'I' ∉ text := by
    intro hmem
    exact absurd (hdecimal.subset _ hmem) (by decide)
  have hreplace := Substitution.replace_of_notMem "nfinity".toList [Locale.inf] hI
  rw [localized_eq]
  exact congrArg (List.map tokenizer.locale.loc) hreplace

theorem Tokenizer.localized_infinity : tokenizer.localized Locale.infinity = [Locale.inf] := by
  have hreplace : Substitution.replace Locale.infinity [Locale.inf] Locale.infinity =
      [Locale.inf] := by decide
  rw [localized_eq, hreplace, List.map_singleton, Locale.loc_of_notMem tokenizer.locale.inf_notKey]

theorem Tokenizer.localized_minus_infinity :
    tokenizer.localized ('-' :: Locale.infinity) = [tokenizer.locale.loc '-', Locale.inf] := by
  have hreplace : Substitution.replace Locale.infinity [Locale.inf] ('-' :: Locale.infinity) =
      ['-', Locale.inf] := by decide
  rw [localized_eq, hreplace, List.map_cons, List.map_singleton,
    Locale.loc_of_notMem tokenizer.locale.inf_notKey]

/-- The characters of a number have one local symbol each. -/
theorem Tokenizer.sym_loc_decimal {c : Char} (hc : c ∈ '.' :: '-' :: 'E' :: digits) :
    tokenizer.locale.sym (tokenizer.locale.loc c) = c ∧
      tokenizer.locale.Written (tokenizer.locale.loc c) ∧ tokenizer.locale.loc c ≠ Locale.inf := by
  have hall : ∀ c ∈ '.' :: '-' :: 'E' :: digits, c ≠ 'I' ∧ c ≠ Locale.inf :=
    List.all_iff_forall_prop.mp (by decide)
  have hne := hall c hc
  refine ⟨tokenizer.plain.sym_loc fun hvalue => ?_, tokenizer.plain.written_loc hne.1,
    tokenizer.plain.loc_ne_inf hne.2⟩
  by_cases hE : c = 'E'
  · rw [hE] at hvalue
    exact absurd hvalue (tokenizer.plain.notMem_of_reserved (by decide))
  · rw [Locale.map_fst_symbols]
    have hkey : ∀ c ∈ '.' :: '-' :: 'E' :: digits, c ≠ 'E' →
        c ∈ ['.', '0', '1', '2', '3', '4', '5', '6', '7', '8', '9', '/', '*', '-'] :=
      List.all_iff_forall_prop.mp (by decide)
    exact hkey c hc hE

/-- What a number is shown as makes a sound formula, and reads as the number. -/
theorem Tokenizer.localized_numeral (isDigit : Char → Bool) (hnumeral : Numeral text)
    (isEdited : Bool) :
    Builder.Sound tokenizer isDigit ⟨tokenizer.localized text, isEdited⟩ ∧
      tokenizer.normalized (tokenizer.localized text) = text ∧
      tokenizer.localized text ≠ [] ∧ ∀ last, text.getLast? = some last → last ∉ operators := by
  have hminus := tokenizer.sym_loc_decimal (c := '-') (by decide)
  rcases hnumeral with rfl | rfl | hdecimal
  · rw [tokenizer.localized_infinity]
    refine ⟨⟨?_, clean_nil⟩, ?_, List.cons_ne_nil _ _, fun last hlast => ?_⟩
    · simpa using Locale.written_inf tokenizer.locale
    · rw [normalized_eq]
      rfl
    · obtain rfl : 'y' = last := Option.some.inj hlast
      decide
  · rw [tokenizer.localized_minus_infinity]
    refine ⟨⟨?_, ?_⟩, ?_, List.cons_ne_nil _ _, fun last hlast => ?_⟩
    · simpa using ⟨hminus.2.1, Locale.written_inf tokenizer.locale⟩
    · have hfinite : finite [tokenizer.locale.loc '-', Locale.inf] =
          [tokenizer.locale.loc '-'] := by
        simp [finite, hminus.2.2]
      rw [hfinite, List.map_singleton, hminus.1]
      exact clean_nil.snoc (by decide) (by simp)
    · have hfirst : tokenizer.normalized [tokenizer.locale.loc '-'] = ['-'] :=
        (tokenizer.normalized_loc (by decide)).1
      rw [← List.singleton_append, normalized_append, hfirst, normalized_eq]
      rfl
    · obtain rfl : 'y' = last := Option.some.inj hlast
      decide
  · have hinf : Locale.inf ∉ text.map tokenizer.locale.loc := by
      intro hmem
      obtain ⟨c, hc, heq⟩ := List.mem_map.mp hmem
      exact (tokenizer.sym_loc_decimal (hdecimal.subset c hc)).2.2 heq
    have hback : (text.map tokenizer.locale.loc).map tokenizer.locale.sym = text := by
      rw [List.map_map]
      refine (List.map_congr_left fun c hc => ?_).trans (List.map_id' text)
      exact (tokenizer.sym_loc_decimal (hdecimal.subset c hc)).1
    rw [tokenizer.localized_decimal hdecimal]
    refine ⟨⟨?_, ?_⟩, ?_, ?_, hdecimal.getLast?_notMem⟩
    · intro c hc
      obtain ⟨c, hmem, rfl⟩ := List.mem_map.mp hc
      exact (tokenizer.sym_loc_decimal (hdecimal.subset c hmem)).2.1
    · rw [finite_of_notMem hinf, hback]
      exact hdecimal.clean isDigit
    · rw [normalized_of_notMem _ hinf, hback]
    · obtain ⟨sign, whole, fraction, exponent, rfl, -, hwhole, -⟩ := hdecimal
      simp [hwhole]

end Numeral

/-! ## All taps -/

section Run

variable {tokenizer : Tokenizer} {platform : Platform} {calculator : Calculator}

/-- An expression is left as it is, fails, or has a number for its value. -/
theorem evaluate_cases (tokenizer : Tokenizer) (platform : Platform) (text : Text) :
    evaluate tokenizer platform text = ⟨none, none⟩ ∨
    (∃ errorResourceId, evaluate tokenizer platform text = ⟨none, some errorResourceId⟩) ∨
    ∃ value, Numeral value ∧
      evaluate tokenizer platform text = ⟨some (tokenizer.localized value), none⟩ := by
  simp only [evaluate]
  split
  · exact .inl rfl
  · cases heval : platform.eval ((tokenizer.normalized text).rdropWhile (· ∈ operators)) with
    | nan => exact .inr (.inl ⟨_, rfl⟩)
    | syntaxException => exact .inr (.inl ⟨_, rfl⟩)
    | value value => exact .inr (.inr ⟨value, platform.eval_numeral _ _ heval, rfl⟩)

variable (tokenizer platform) in
/-- There is nothing to evaluate about a number. -/
theorem evaluate_localized {value : Text} (hnumeral : Numeral value) :
    evaluate tokenizer platform (tokenizer.localized value) = ⟨none, none⟩ := by
  obtain ⟨-, hback, -, hlast⟩ := tokenizer.localized_numeral platform.isDigit hnumeral true
  have hkept : value.rdropWhile (· ∈ operators) = value := by
    rw [List.rdropWhile_eq_self_iff]
    intro hne
    simpa using hlast _ (List.getLast?_eq_some_getLast hne)
  simp [evaluate, hback, hkept, platform.isDouble_numeral value hnumeral]

/-- What holds between two taps. -/
structure Calculator.Sound (tokenizer : Tokenizer) (platform : Platform)
    (calculator : Calculator) : Prop where
  formula : calculator.formula.Sound tokenizer platform.isDigit
  isEdited : calculator.formula.isEdited = decide (calculator.currentState ≠ .RESULT)
  settled : calculator.currentState ≠ .EVALUATE
  shown : calculator.currentState ≠ .ERROR →
    calculator.result = preview tokenizer platform calculator.formula.text
  failed : calculator.currentState = .ERROR → ∃ errorResourceId,
    calculator.result = .error errorResourceId ∧
      evaluate tokenizer platform calculator.formula.text = ⟨none, some errorResourceId⟩
  finished : calculator.currentState = .RESULT →
    evaluate tokenizer platform calculator.formula.text = ⟨none, none⟩

theorem Calculator.Sound.of_edit {text : Text}
    (hsound : Builder.Sound tokenizer platform.isDigit ⟨text, true⟩) :
    (edited tokenizer platform calculator ⟨⟨text, true⟩, true⟩).Sound tokenizer platform where
  formula := hsound
  isEdited := rfl
  settled := nofun
  shown _ := rfl
  failed := nofun
  finished := nofun

theorem Calculator.Sound.onEquals (hsound : calculator.Sound tokenizer platform) :
    (onEquals tokenizer platform calculator).Sound tokenizer platform := by
  rw [Calculator2.onEquals]
  split
  case isFalse => exact hsound
  case isTrue hinput =>
    have hedited : calculator.formula.isEdited = true := by
      rw [hsound.isEdited, hinput]
      rfl
    rw [onEvaluate, if_neg (by simp)]
    rcases evaluate_cases tokenizer platform calculator.formula.text with
      hnothing | ⟨errorResourceId, hfailed⟩ | ⟨value, hnumeral, hvalue⟩
    · rw [hnothing]
      simp only [if_true]
      refine ⟨hsound.formula, hedited, nofun, fun _ => ?_, nofun, nofun⟩
      exact hsound.shown (by rw [hinput]; nofun)
    · rw [hfailed]
      exact ⟨hsound.formula, hedited, nofun, fun hne => absurd rfl hne,
        fun _ => ⟨errorResourceId, rfl, hfailed⟩, nofun⟩
    · obtain ⟨htext, -, hne, -⟩ := tokenizer.localized_numeral platform.isDigit hnumeral false
      obtain ⟨first, rest, hsplit⟩ := List.exists_cons_of_ne_nil hne
      have hlocalized := evaluate_localized tokenizer platform hnumeral
      rw [hsplit] at htext hlocalized
      rw [hvalue, hsplit]
      exact ⟨htext, rfl, nofun, fun _ => rfl, nofun, fun _ => hlocalized⟩

/-- A tap goes wrong on the decimal point only, and otherwise keeps what holds. -/
theorem Calculator.Sound.onButtonClick (hsound : calculator.Sound tokenizer platform) (tap : Tap) :
    (tap = .button .dec_point ∧ onButtonClick tokenizer platform calculator tap = none) ∨
    ∃ next, onButtonClick tokenizer platform calculator tap = some next ∧
      next.Sound tokenizer platform := by
  cases tap with
  | eq => exact .inr ⟨_, rfl, hsound.onEquals⟩
  | del =>
      right
      rw [Calculator2.onButtonClick, onDelete]
      cases hlength : calculator.formula.text.length with
      | zero => exact ⟨calculator, by simp, hsound⟩
      | succ last =>
          have hdelete := Builder.delete_eq tokenizer platform.isDigit hlength
          rw [hlength] at hdelete
          simp only [Nat.succ_pos, if_true, Nat.add_sub_cancel, hdelete, Option.map_some]
          exact ⟨_, rfl, .of_edit (hsound.formula.take last true)⟩
  | clr =>
      right
      rw [Calculator2.onButtonClick, onClear]
      by_cases hempty : calculator.formula.text = []
      · exact ⟨calculator, by rw [if_pos hempty], hsound⟩
      · rw [if_neg hempty, Builder.clear_eq _ _ hempty, Option.map_some]
        exact ⟨_, rfl, .of_edit (hsound.formula.take 0 true)⟩
  | button button =>
      rw [Calculator2.onButtonClick]
      rcases hsound.formula.append_button button with
        ⟨rfl, hnone⟩ | hdropped | ⟨text, hsome, htext⟩
      · exact .inl ⟨rfl, by rw [hnone, Option.map_none]⟩
      · exact .inr ⟨calculator, by rw [hdropped]; rfl, hsound⟩
      · exact .inr ⟨_, by rw [hsome]; rfl, .of_edit htext⟩

theorem Tokenizer.localized_nil (tokenizer : Tokenizer) : tokenizer.localized [] = [] :=
  tokenizer.localized_eq []

theorem evaluate_nil (tokenizer : Tokenizer) (platform : Platform) :
    evaluate tokenizer platform [] = ⟨none, none⟩ := by
  have hnormal : tokenizer.normalized [] = [] := tokenizer.normalized_eq []
  simp [evaluate, hnormal]

theorem sound_onCreate (tokenizer : Tokenizer) (platform : Platform) :
    (onCreate tokenizer platform none).Sound tokenizer platform := by
  have hcreate : onCreate tokenizer platform none = ⟨.INPUT, ⟨[], true⟩, .text []⟩ := by
    simp [onCreate, tokenizer.localized_nil, evaluate_nil, onEvaluate, newEditable]
  rw [hcreate]
  refine ⟨⟨nofun, clean_nil⟩, rfl, nofun, fun _ => ?_, nofun, nofun⟩
  rw [preview, evaluate_nil]
  rfl

theorem sound_run {taps : List Tap} (hrun : run tokenizer platform taps = some calculator) :
    calculator.Sound tokenizer platform := by
  induction taps using List.reverseRecOn generalizing calculator with
  | nil =>
      obtain rfl : onCreate tokenizer platform none = calculator := Option.some.inj hrun
      exact sound_onCreate tokenizer platform
  | append_singleton taps tap ih =>
      rw [run, List.foldlM_append] at hrun
      obtain ⟨before, hbefore, hlast⟩ := Option.bind_eq_some_iff.mp hrun
      have htap : onButtonClick tokenizer platform before tap = some calculator := by
        simpa using hlast
      rcases (ih hbefore).onButtonClick tap with ⟨-, hnone⟩ | ⟨next, hsome, hnext⟩
      · rw [hnone] at htap
        cases htap
      · rw [hsome] at htap
        rw [← Option.some.inj htap]
        exact hnext

/-- After any taps, a formula without infinity has no operator behind another one but as a
sign and no second decimal point in a number; and the result shown belongs to it. -/
theorem run_clean {taps : List Tap} (hrun : run tokenizer platform taps = some calculator) :
    (Locale.inf ∉ calculator.formula.text →
      Clean platform.isDigit (tokenizer.normalized calculator.formula.text)) ∧
    (calculator.currentState ≠ .ERROR →
      calculator.result = preview tokenizer platform calculator.formula.text) := by
  have hsound := sound_run hrun
  refine ⟨fun hinf => ?_, hsound.shown⟩
  have hclean := hsound.formula.clean
  rwa [finite_of_notMem hinf, ← tokenizer.normalized_of_notMem hinf] at hclean

/-- The application goes wrong just when the decimal point is tapped and fewer characters
stand behind the last one than infinity is longer in the normal spelling before it. -/
theorem run_crashes_iff {taps : List Tap} (hrun : run tokenizer platform taps = some calculator)
    (tap : Tap) :
    onButtonClick tokenizer platform calculator tap = none ↔
      tap = .button .dec_point ∧ ∃ before behind,
        calculator.formula.text = before ++ tokenizer.locale.decimalSeparator :: behind ∧
        tokenizer.locale.decimalSeparator ∉ behind ∧
        behind.length < 7 * before.count Locale.inf := by
  have hsound := sound_run hrun
  have hpoint : tokenizer.locale.loc '.' = tokenizer.locale.decimalSeparator :=
    Locale.loc_of_mem (List.mem_cons_self : ('.', tokenizer.locale.decimalSeparator) ∈ _)
  have hnone : onButtonClick tokenizer platform calculator (.button .dec_point) = none ↔
      ∃ before behind,
        calculator.formula.text = before ++ tokenizer.locale.decimalSeparator :: behind ∧
        tokenizer.locale.decimalSeparator ∉ behind ∧
        behind.length < 7 * before.count Locale.inf := by
    have hiff := Builder.append_dot_eq_none_iff platform.isDigit hsound.formula.written
    rw [hpoint] at hiff
    rw [onButtonClick, Option.map_eq_none_iff]
    exact hiff
  constructor
  · intro hcrash
    rcases hsound.onButtonClick tap with ⟨rfl, -⟩ | ⟨next, hsome, -⟩
    · exact ⟨rfl, hnone.mp hcrash⟩
    · rw [hcrash] at hsome
      cases hsome
  · rintro ⟨rfl, hlast⟩
    exact hnone.mpr hlast

/-- The saved state brings the calculator back, whatever the order of the new map. -/
theorem run_restored {taps : List Tap} (hrun : run tokenizer platform taps = some calculator)
    {tokenizer' : Tokenizer} (hlocale : tokenizer'.locale = tokenizer.locale) :
    onCreate tokenizer' platform (some (onSaveInstanceState tokenizer calculator)) =
      calculator := by
  have hsound := sound_run hrun
  have hnormal : tokenizer'.normalized = tokenizer.normalized := by
    funext expr
    rw [Tokenizer.normalized_eq, Tokenizer.normalized_eq, hlocale]
  have hlocal : tokenizer'.localized = tokenizer.localized := by
    funext expr
    rw [Tokenizer.localized_eq, Tokenizer.localized_eq, hlocale]
  have hevaluate : evaluate tokenizer' platform = evaluate tokenizer platform := by
    funext expr
    simp only [evaluate, hnormal, hlocal]
  have htext := tokenizer.localized_normalized hsound.formula.written
  obtain ⟨state, ⟨text, isEdited⟩, result⟩ := calculator
  have hedited := hsound.isEdited
  simp only at hedited htext
  rw [hedited] at hsound ⊢
  cases state with
  | INPUT =>
      have hshown : result = .text ((evaluate tokenizer platform text).result.getD []) :=
        hsound.shown nofun
      simp [onCreate, onSaveInstanceState, onEvaluate, newEditable, hlocal, hevaluate, htext,
        hshown]
  | EVALUATE => exact absurd rfl hsound.settled
  | RESULT =>
      have hfinished : evaluate tokenizer platform text = ⟨none, none⟩ := hsound.finished rfl
      have hshown : result = .text ((evaluate tokenizer platform text).result.getD []) :=
        hsound.shown nofun
      simp [onCreate, onSaveInstanceState, onEvaluate, newEditable, hlocal, hevaluate, htext,
        hshown, hfinished]
  | ERROR =>
      obtain ⟨errorResourceId, hshown, hfailed⟩ := hsound.failed rfl
      simp only at hshown hfailed
      simp [onCreate, onSaveInstanceState, onEvaluate, onError, newEditable, hlocal, hevaluate,
        htext, hshown, hfailed]

end Run

/-! ## One over zero -/

def english : Locale where
  decimalSeparator := '.'
  zeroDigit := '0'
  fun_cos := "cos".toList
  fun_ln := "ln".toList
  fun_log := "log".toList
  fun_sin := "sin".toList
  fun_tan := "tan".toList

def englishTokenizer : Tokenizer where
  locale := english
  plain := ⟨rfl, by decide, by decide, by decide⟩
  entrySet := english.replacementMap
  perm := .refl _

/-- An evaluator that knows one division, and what becomes of infinity. -/
def divider : Platform where
  isDigit := Char.isDigit
  isDouble expr := expr.all (· ∉ ['+', '*', '/'])
  eval expr :=
    if expr = "1/0".toList ∨ expr.take 8 = Locale.infinity then .value Locale.infinity
    else .syntaxException
  eval_numeral expr text heval := by
    split at heval
    · cases heval
      exact .inl rfl
    · cases heval
  isDouble_numeral text hnumeral := by
    rcases hnumeral with rfl | rfl | hdecimal
    · decide
    · decide
    · have hall : ∀ c ∈ '.' :: '-' :: 'E' :: digits, c ∉ ['+', '*', '/'] :=
        List.all_iff_forall_prop.mp (by decide)
      simpa using fun c hc => by simpa using hall c (hdecimal.subset c hc)

def oneOverZero : List Tap :=
  [.button (.digit 1), .button .op_div, .button (.digit 0), .eq, .button .op_add,
    .button (.digit 1), .button .dec_point, .button (.digit 5)]

def afterOneOverZero : Calculator :=
  ⟨.INPUT, ⟨['∞', '+', '1', '.', '5'], true⟩, .text ['∞']⟩

theorem run_oneOverZero : run englishTokenizer divider oneOverZero = some afterOneOverZero := by
  rfl

/-- Neither the leading `+` nor the second `−` and decimal point are taken. -/
theorem run_minus : run englishTokenizer divider
    [.button .op_add, .button .op_sub, .button .op_sub, .button (.digit 5), .button .dec_point,
      .button .dec_point, .button (.digit 2)] =
    some ⟨.INPUT, ⟨['−', '5', '.', '2'], true⟩, .text []⟩ := by
  rfl

theorem run_clean_minus :
    Clean divider.isDigit (englishTokenizer.normalized ['−', '5', '.', '2']) ∧
      Shown.text [] = preview englishTokenizer divider ['−', '5', '.', '2'] :=
  ⟨(run_clean run_minus).1 (by decide), (run_clean run_minus).2 nofun⟩

/-- `∞+1.5` takes no second decimal point. -/
theorem run_crashes_oneOverZero :
    onButtonClick englishTokenizer divider afterOneOverZero (.button .dec_point) = none :=
  (run_crashes_iff run_oneOverZero _).mpr
    ⟨rfl, ['∞', '+', '1'], ['5'], rfl, by decide, by decide⟩

theorem run_restored_oneOverZero :
    onCreate englishTokenizer divider
      (some (onSaveInstanceState englishTokenizer afterOneOverZero)) = afterOneOverZero :=
  run_restored run_oneOverZero rfl

end JyyOS.Calculator2
