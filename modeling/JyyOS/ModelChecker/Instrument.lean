import Mathlib.Data.List.Basic
import Mathlib.Tactic

/-!
# The instrumented syntax tree (`model-checker.py`, `hack`)

The statements of Python with all their suites, and the transformer `Instrument`
on them.  A tree of the source has no mark for an inserted `yield checkpoint()`;
a produced tree has them.
-/

namespace JyyOS.Instrument

/-! ## Syntax trees -/

inductive Decorator (Code : Type) where
  /-- `@mc.thread` -/
  | thread
  | other (code : Code)

/-- The head of a `FunctionDef` or an `AsyncFunctionDef`. -/
@[ext]
structure Def (Code : Type) where
  isAsync : Bool
  name : String
  decorators : List (Decorator Code)
  signature : Code

theorem Def.undecorated_eq_iff {Code : Type} (fn : Def Code) :
    { fn with decorators := [] } = fn ↔ fn.decorators = [] := by
  rw [Def.ext_iff]
  simp [eq_comm]

inductive Branch where
  | ifStmt | whileStmt | forStmt | asyncFor

/-- Lists of statements, and lists of the `except` or `case` clauses of a
statement. -/
inductive Kind where
  | suite | clauses

/-- A list of nodes of one kind; an `elif` is an `if` in an `orelse`. -/
inductive Node (Code Mark : Type) : Kind → Type where
  | nil {kind : Kind} : Node Code Mark kind
  /-- An inserted `yield checkpoint()`. -/
  | checkpoint (mark : Mark) (rest : Node Code Mark .suite) : Node Code Mark .suite
  /-- A statement without a suite. -/
  | leaf (code : Code) (rest : Node Code Mark .suite) : Node Code Mark .suite
  | functionDef (fn : Def Code) (body rest : Node Code Mark .suite) : Node Code Mark .suite
  | classDef (head : Code) (body rest : Node Code Mark .suite) : Node Code Mark .suite
  | branch (kind : Branch) (head : Code) (body orelse rest : Node Code Mark .suite) :
      Node Code Mark .suite
  | withStmt (isAsync : Bool) (head : Code) (body rest : Node Code Mark .suite) :
      Node Code Mark .suite
  | tryStmt (body : Node Code Mark .suite) (handlers : Node Code Mark .clauses)
      (orelse finalbody rest : Node Code Mark .suite) : Node Code Mark .suite
  | matchStmt (head : Code) (cases : Node Code Mark .clauses) (rest : Node Code Mark .suite) :
      Node Code Mark .suite
  | clause (head : Code) (body : Node Code Mark .suite) (rest : Node Code Mark .clauses) :
      Node Code Mark .clauses

/-- A list of the source, without marks. -/
abbrev Source (Code : Type) := Node Code Empty

abbrev Produced (Code : Type) := Node Code Unit

namespace Node

variable {Code : Type}

/-! ## The code -/

/-- A part of the source as it stands. -/
def lift : {kind : Kind} → Source Code kind → Produced Code kind
  | _, nil => nil
  | _, checkpoint mark _ => mark.elim
  | _, leaf code rest => leaf code rest.lift
  | _, functionDef fn body rest => functionDef fn body.lift rest.lift
  | _, classDef head body rest => classDef head body.lift rest.lift
  | _, branch kind head body orelse rest =>
      branch kind head body.lift orelse.lift rest.lift
  | _, withStmt isAsync head body rest => withStmt isAsync head body.lift rest.lift
  | _, tryStmt body handlers orelse finalbody rest =>
      tryStmt body.lift handlers.lift orelse.lift finalbody.lift rest.lift
  | _, matchStmt head cases rest => matchStmt head cases.lift rest.lift
  | _, clause head body rest => clause head body.lift rest.lift

/-- `yield checkpoint()` in front of a line of an instrumented function. -/
def prepend (inFn : Bool) (line : Produced Code .suite) : Produced Code .suite :=
  if inFn then checkpoint () line else line

/-- The loop of `generic_visit` over a `body`, with the call for each line.  No
other field of a node is visited; a line for which the call returns `None` is
printed as nothing. -/
def visit (threads : List String) : {kind : Kind} → Bool → Source Code kind → Produced Code kind
  | _, _, nil => nil
  | _, _, checkpoint mark _ => mark.elim
  | _, inFn, leaf code rest => prepend inFn (leaf code (rest.visit threads inFn))
  | _, inFn, functionDef fn body rest =>
      if !fn.isAsync && fn.name ∈ threads then
        -- a @mc.thread function -> instrument it
        prepend inFn (functionDef { fn with decorators := [] } (body.visit threads true)
          (rest.visit threads inFn))
      else if !fn.isAsync && !fn.decorators.isEmpty then
        -- a decorated function like @mc.mark -> remove it
        prepend inFn (rest.visit threads inFn)
      else prepend inFn (functionDef fn (body.visit threads inFn) (rest.visit threads inFn))
  | _, inFn, classDef head body rest =>
      prepend inFn (classDef head (body.visit threads inFn) (rest.visit threads inFn))
  | _, inFn, branch kind head body orelse rest =>
      prepend inFn (branch kind head (body.visit threads inFn) orelse.lift
        (rest.visit threads inFn))
  | _, inFn, withStmt isAsync head body rest =>
      prepend inFn (withStmt isAsync head (body.visit threads inFn) (rest.visit threads inFn))
  | _, inFn, tryStmt body handlers orelse finalbody rest =>
      prepend inFn (tryStmt (body.visit threads inFn) handlers.lift orelse.lift finalbody.lift
        (rest.visit threads inFn))
  | _, inFn, matchStmt head cases rest =>
      prepend inFn (matchStmt head cases.lift (rest.visit threads inFn))
  | _, _, clause head body rest => clause head body.lift rest.lift

/-! ## What the instrumentation is for -/

/-- Deleting the inserted statements. -/
def erase : {kind : Kind} → Produced Code kind → Source Code kind
  | _, nil => nil
  | _, checkpoint _ rest => rest.erase
  | _, leaf code rest => leaf code rest.erase
  | _, functionDef fn body rest => functionDef fn body.erase rest.erase
  | _, classDef head body rest => classDef head body.erase rest.erase
  | _, branch kind head body orelse rest =>
      branch kind head body.erase orelse.erase rest.erase
  | _, withStmt isAsync head body rest => withStmt isAsync head body.erase rest.erase
  | _, tryStmt body handlers orelse finalbody rest =>
      tryStmt body.erase handlers.erase orelse.erase finalbody.erase rest.erase
  | _, matchStmt head cases rest => matchStmt head cases.erase rest.erase
  | _, clause head body rest => clause head body.erase rest.erase

/-- Every statement at any depth has an inserted statement right before it;
`before` says whether the list follows one. -/
def Preceded : {kind : Kind} → Bool → Produced Code kind → Prop
  | _, _, nil => True
  | _, _, checkpoint _ rest => rest.Preceded true
  | _, before, leaf _ rest => before ∧ rest.Preceded false
  | _, before, functionDef _ body rest =>
      before ∧ body.Preceded false ∧ rest.Preceded false
  | _, before, classDef _ body rest => before ∧ body.Preceded false ∧ rest.Preceded false
  | _, before, branch _ _ body orelse rest =>
      before ∧ body.Preceded false ∧ orelse.Preceded false ∧ rest.Preceded false
  | _, before, withStmt _ _ body rest => before ∧ body.Preceded false ∧ rest.Preceded false
  | _, before, tryStmt body handlers orelse finalbody rest =>
      before ∧ body.Preceded false ∧ handlers.Preceded false ∧ orelse.Preceded false ∧
        finalbody.Preceded false ∧ rest.Preceded false
  | _, before, matchStmt _ cases rest => before ∧ cases.Preceded false ∧ rest.Preceded false
  | _, _, clause _ body rest => body.Preceded false ∧ rest.Preceded false

/-- The functions of a list, with their bodies. -/
def methods {Mark : Type} : {kind : Kind} → Node Code Mark kind →
    List (Def Code × Node Code Mark .suite)
  | _, functionDef fn body rest => (fn, body) :: rest.methods
  | _, nil | _, clause _ _ _ => []
  | _, checkpoint _ rest | _, leaf _ rest | _, classDef _ _ rest | _, branch _ _ _ _ rest
  | _, withStmt _ _ _ rest | _, tryStmt _ _ _ _ rest | _, matchStmt _ _ rest => rest.methods

/-- The bodies of the classes of a list. -/
def classes {Mark : Type} : {kind : Kind} → Node Code Mark kind → List (Node Code Mark .suite)
  | _, classDef _ body rest => body :: rest.classes
  | _, nil | _, clause _ _ _ => []
  | _, checkpoint _ rest | _, leaf _ rest | _, functionDef _ _ rest | _, branch _ _ _ _ rest
  | _, withStmt _ _ _ rest | _, tryStmt _ _ _ _ rest | _, matchStmt _ _ rest => rest.classes

/-! ## When deleting gives the source back -/

section Deleting

variable {threads : List String} {kind : Kind} {inFn : Bool}

@[simp]
theorem erase_prepend (line : Produced Code .suite) : (prepend inFn line).erase = line.erase := by
  cases inFn <;> rfl

theorem erase_lift (list : Source Code kind) : list.lift.erase = list := by
  induction list with
  | nil => rfl
  | checkpoint mark => exact mark.elim
  | leaf code rest ih => rw [lift, erase, ih]
  | functionDef fn body rest ihBody ihRest => rw [lift, erase, ihBody, ihRest]
  | classDef head body rest ihBody ihRest => rw [lift, erase, ihBody, ihRest]
  | branch kind head body orelse rest ihBody ihElse ihRest =>
      rw [lift, erase, ihBody, ihElse, ihRest]
  | withStmt isAsync head body rest ihBody ihRest => rw [lift, erase, ihBody, ihRest]
  | tryStmt body handlers orelse finalbody rest ihBody ihHandlers ihElse ihFinal ihRest =>
      rw [lift, erase, ihBody, ihHandlers, ihElse, ihFinal, ihRest]
  | matchStmt head cases rest ihCases ihRest => rw [lift, erase, ihCases, ihRest]
  | clause head body rest ihBody ihRest => rw [lift, erase, ihBody, ihRest]

/-- The statements of a list, those in it included. -/
def size : {kind : Kind} → Source Code kind → ℕ
  | _, nil => 0
  | _, checkpoint mark _ => mark.elim
  | _, leaf _ rest => rest.size + 1
  | _, functionDef _ body rest => body.size + rest.size + 1
  | _, classDef _ body rest => body.size + rest.size + 1
  | _, branch _ _ body orelse rest => body.size + orelse.size + rest.size + 1
  | _, withStmt _ _ body rest => body.size + rest.size + 1
  | _, tryStmt body handlers orelse finalbody rest =>
      body.size + handlers.size + orelse.size + finalbody.size + rest.size + 1
  | _, matchStmt _ cases rest => cases.size + rest.size + 1
  | _, clause _ body rest => body.size + rest.size

/-- What becomes of a function: it is instrumented, removed, or visited like any
other node. -/
theorem visit_functionDef (threads : List String) (inFn : Bool) (fn : Def Code)
    (body : Source Code .suite) :
    (fn.isAsync = false ∧ fn.name ∈ threads ∧
      ∀ rest, (functionDef fn body rest).visit threads inFn = prepend inFn (functionDef
        { fn with decorators := [] } (body.visit threads true) (rest.visit threads inFn))) ∨
    (fn.isAsync = false ∧ fn.name ∉ threads ∧ fn.decorators ≠ [] ∧
      ∀ rest, (functionDef fn body rest).visit threads inFn =
        prepend inFn (rest.visit threads inFn)) ∨
    ((fn.isAsync = true ∨ fn.name ∉ threads ∧ fn.decorators = []) ∧
      ∀ rest, (functionDef fn body rest).visit threads inFn = prepend inFn
        (functionDef fn (body.visit threads inFn) (rest.visit threads inFn))) := by
  by_cases hthread : (!fn.isAsync && decide (fn.name ∈ threads)) = true
  · left
    have hboth := hthread
    simp only [Bool.and_eq_true, Bool.not_eq_true', decide_eq_true_eq] at hboth
    exact ⟨hboth.1, hboth.2, fun rest => by rw [visit, if_pos hthread]⟩
  · right
    by_cases hremove : (!fn.isAsync && !fn.decorators.isEmpty) = true
    · left
      have hboth := hremove
      simp only [Bool.and_eq_true, Bool.not_eq_true', List.isEmpty_eq_false_iff] at hboth
      refine ⟨hboth.1, fun hname => hthread ?_, hboth.2, fun rest => ?_⟩
      · simp [hboth.1, hname]
      · rw [visit, if_neg hthread, if_pos hremove]
    · right
      refine ⟨?_, fun rest => by rw [visit, if_neg hthread, if_neg hremove]⟩
      cases hasync : fn.isAsync with
      | true => exact .inl rfl
      | false =>
          right
          simpa [hasync] using And.intro hthread hremove

/-- A visit loses statements, but it makes none up. -/
theorem size_erase_visit (threads : List String) (inFn : Bool) (list : Source Code kind) :
    (list.visit threads inFn).erase.size ≤ list.size := by
  induction list generalizing inFn with
  | nil => exact le_rfl
  | checkpoint mark => exact mark.elim
  | leaf code rest ih =>
      have := ih inFn
      simp only [visit, erase_prepend, erase, size]
      omega
  | functionDef fn body rest ihBody ihRest =>
      have hthread := ihBody true
      have hbody := ihBody inFn
      have hrest := ihRest inFn
      simp only [visit]
      split_ifs <;> simp only [erase_prepend, erase, size] <;> omega
  | classDef head body rest ihBody ihRest =>
      have hbody := ihBody inFn
      have hrest := ihRest inFn
      simp only [visit, erase_prepend, erase, size]
      omega
  | branch kind head body orelse rest ihBody _ ihRest =>
      have hbody := ihBody inFn
      have hrest := ihRest inFn
      simp only [visit, erase_prepend, erase, size, erase_lift]
      omega
  | withStmt isAsync head body rest ihBody ihRest =>
      have hbody := ihBody inFn
      have hrest := ihRest inFn
      simp only [visit, erase_prepend, erase, size]
      omega
  | tryStmt body handlers orelse finalbody rest ihBody _ _ _ ihRest =>
      have hbody := ihBody inFn
      have hrest := ihRest inFn
      simp only [visit, erase_prepend, erase, size, erase_lift]
      omega
  | matchStmt head cases rest _ ihRest =>
      have hrest := ihRest inFn
      simp only [visit, erase_prepend, erase, size, erase_lift]
      omega
  | clause head body rest _ _ =>
      simp only [visit, erase, size, erase_lift]
      exact le_rfl

/-- What is removed cannot be given back. -/
theorem erase_visit_ne (fn : Def Code) (body rest : Source Code .suite) :
    (rest.visit threads inFn).erase ≠ functionDef fn body rest := by
  intro heq
  have hsize := size_erase_visit threads inFn rest
  rw [heq, size] at hsize
  omega

/-- No function of the list loses its decorators or is removed. -/
def Kept : {kind : Kind} → Source Code kind → Prop
  | _, nil => True
  | _, checkpoint mark _ => mark.elim
  | _, leaf _ rest => rest.Kept
  | _, functionDef fn body rest =>
      (fn.isAsync ∨ fn.decorators = []) ∧ body.Kept ∧ rest.Kept
  | _, classDef _ body rest => body.Kept ∧ rest.Kept
  | _, branch _ _ body _ rest => body.Kept ∧ rest.Kept
  | _, withStmt _ _ body rest => body.Kept ∧ rest.Kept
  | _, tryStmt body _ _ _ rest => body.Kept ∧ rest.Kept
  | _, matchStmt _ _ rest => rest.Kept
  | _, clause _ _ _ => True

theorem erase_visit_iff (threads : List String) (inFn : Bool) (list : Source Code kind) :
    (list.visit threads inFn).erase = list ↔ list.Kept := by
  induction list generalizing inFn with
  | nil => simp [visit, erase, Kept]
  | checkpoint mark => exact mark.elim
  | leaf code rest ih => simp [visit, erase, Kept, ih]
  | functionDef fn body rest ihBody ihRest =>
      rcases visit_functionDef threads inFn fn body with ⟨hsync, -, hvisit⟩ |
        ⟨hsync, -, hdecorated, hvisit⟩ | ⟨hplain, hvisit⟩
      · rw [hvisit, erase_prepend, erase, functionDef.injEq, ihBody, ihRest, Kept,
          Def.undecorated_eq_iff, hsync]
        simp
      · rw [hvisit, erase_prepend, Kept, hsync]
        simp [erase_visit_ne, hdecorated]
      · have hkept : fn.isAsync = true ∨ fn.decorators = [] := hplain.imp_right And.right
        rw [hvisit, erase_prepend, erase, functionDef.injEq, ihBody, ihRest, Kept]
        simp [hkept]
  | classDef head body rest ihBody ihRest => simp [visit, erase, Kept, ihBody, ihRest]
  | branch kind head body orelse rest ihBody _ ihRest =>
      simp [visit, erase, Kept, ihBody, ihRest, erase_lift]
  | withStmt isAsync head body rest ihBody ihRest => simp [visit, erase, Kept, ihBody, ihRest]
  | tryStmt body handlers orelse finalbody rest ihBody _ _ _ ihRest =>
      simp [visit, erase, Kept, ihBody, ihRest, erase_lift]
  | matchStmt head cases rest _ ihRest => simp [visit, erase, Kept, ihRest, erase_lift]
  | clause head body rest _ _ => simp [visit, erase, Kept, erase_lift]

end Deleting

/-! ## When every statement has its checkpoint -/

section Checkpoints

variable {threads : List String} {kind : Kind}

/-- No statement at all; a clause may have an empty body. -/
def Blank : {kind : Kind} → Source Code kind → Prop
  | _, nil => True
  | _, clause _ body rest => body.Blank ∧ rest.Blank
  | _, _ => False

theorem preceded_lift (list : Source Code kind) : list.lift.Preceded false ↔ list.Blank := by
  induction list with
  | checkpoint mark => exact mark.elim
  | clause head body rest ihBody ihRest => rw [lift, Preceded, Blank, ihBody, ihRest]
  | _ => simp [lift, Preceded, Blank]

/-- Every function keeps its decorators, and all statements are in bodies. -/
def Covered : {kind : Kind} → Source Code kind → Prop
  | _, nil => True
  | _, checkpoint mark _ => mark.elim
  | _, leaf _ rest => rest.Covered
  | _, functionDef fn body rest =>
      (fn.isAsync ∨ fn.decorators = []) ∧ body.Covered ∧ rest.Covered
  | _, classDef _ body rest => body.Covered ∧ rest.Covered
  | _, branch _ _ body orelse rest => body.Covered ∧ orelse.Blank ∧ rest.Covered
  | _, withStmt _ _ body rest => body.Covered ∧ rest.Covered
  | _, tryStmt body handlers orelse finalbody rest =>
      body.Covered ∧ handlers.Blank ∧ orelse.Blank ∧ finalbody.Blank ∧ rest.Covered
  | _, matchStmt _ cases rest => cases.Blank ∧ rest.Covered
  | _, clause _ body rest => body.Blank ∧ rest.Blank

@[simp]
theorem preceded_prepend_true (line : Produced Code .suite) :
    (prepend true line).Preceded false ↔ line.Preceded true := Iff.rfl

/-- In a thread function: the source comes back and no statement is without its
checkpoint. -/
theorem covered_iff (threads : List String) (list : Source Code kind) :
    list.Covered ↔
      (list.visit threads true).erase = list ∧ (list.visit threads true).Preceded false := by
  rw [erase_visit_iff]
  induction list with
  | nil => simp [Covered, Kept, visit, Preceded]
  | checkpoint mark => exact mark.elim
  | leaf code rest ih => simp [Covered, Kept, visit, Preceded, ih]
  | functionDef fn body rest ihBody ihRest =>
      rcases visit_functionDef threads true fn body with ⟨hsync, -, hvisit⟩ |
        ⟨hsync, -, hdecorated, hvisit⟩ | ⟨hplain, hvisit⟩
      · rw [hvisit, preceded_prepend_true, Preceded, Covered, Kept, ihBody, ihRest]
        simp only [true_and]
        exact iff_of_eq (by ac_rfl)
      · rw [Covered, Kept, hsync]
        simp [hdecorated]
      · rw [hvisit, preceded_prepend_true, Preceded, Covered, Kept, ihBody, ihRest]
        simp only [true_and]
        exact iff_of_eq (by ac_rfl)
  | classDef head body rest ihBody ihRest =>
      rw [visit, preceded_prepend_true, Preceded, Covered, Kept, ihBody, ihRest]
      simp only [true_and]
      exact iff_of_eq (by ac_rfl)
  | branch kind head body orelse rest ihBody _ ihRest =>
      rw [visit, preceded_prepend_true, Preceded, Covered, Kept, ihBody, ihRest, preceded_lift]
      simp only [true_and]
      exact iff_of_eq (by ac_rfl)
  | withStmt isAsync head body rest ihBody ihRest =>
      rw [visit, preceded_prepend_true, Preceded, Covered, Kept, ihBody, ihRest]
      simp only [true_and]
      exact iff_of_eq (by ac_rfl)
  | tryStmt body handlers orelse finalbody rest ihBody _ _ _ ihRest =>
      rw [visit, preceded_prepend_true, Preceded, Covered, Kept, ihBody, ihRest, preceded_lift,
        preceded_lift, preceded_lift]
      simp only [true_and]
      exact iff_of_eq (by ac_rfl)
  | matchStmt head cases rest _ ihRest =>
      rw [visit, preceded_prepend_true, Preceded, Covered, Kept, ihRest, preceded_lift]
      simp only [true_and]
      exact iff_of_eq (by ac_rfl)
  | clause head body rest _ _ =>
      rw [visit, Preceded, Covered, Kept, preceded_lift, preceded_lift]
      simp only [true_and]

end Checkpoints

/-! ## When nothing is touched -/

section Untouched

variable {threads : List String} {kind : Kind}

/-- Nothing in the list is taken for a thread function or removed. -/
def Untouched (threads : List String) : {kind : Kind} → Source Code kind → Prop
  | _, nil => True
  | _, checkpoint mark _ => mark.elim
  | _, leaf _ rest => rest.Untouched threads
  | _, functionDef fn body rest =>
      (fn.isAsync ∨ fn.decorators = [] ∧ (fn.name ∈ threads → body.Blank)) ∧
        body.Untouched threads ∧ rest.Untouched threads
  | _, classDef _ body rest => body.Untouched threads ∧ rest.Untouched threads
  | _, branch _ _ body _ rest => body.Untouched threads ∧ rest.Untouched threads
  | _, withStmt _ _ body rest => body.Untouched threads ∧ rest.Untouched threads
  | _, tryStmt body _ _ _ rest => body.Untouched threads ∧ rest.Untouched threads
  | _, matchStmt _ _ rest => rest.Untouched threads
  | _, clause _ _ _ => True

theorem Blank.untouched {body : Source Code .suite} (hblank : body.Blank) :
    body.Untouched threads := by
  cases body with
  | nil => trivial
  | checkpoint mark => exact mark.elim
  | _ => exact hblank.elim

/-- An instrumented body differs from the source if it has a line. -/
theorem visit_true_eq_lift_iff (threads : List String) (body : Source Code .suite) :
    body.visit threads true = body.lift ↔ body.Blank := by
  cases body with
  | nil => simp [visit, lift, Blank]
  | checkpoint mark => exact mark.elim
  | functionDef fn body rest =>
      rcases visit_functionDef threads true fn body with ⟨-, -, hvisit⟩ |
        ⟨-, -, -, hvisit⟩ | ⟨-, hvisit⟩ <;> rw [hvisit] <;> simp [prepend, lift, Blank]
  | _ => simp [visit, prepend, lift, Blank]

theorem visit_eq_lift_iff (threads : List String) (list : Source Code kind) :
    list.visit threads false = list.lift ↔ list.Untouched threads := by
  induction list with
  | nil => simp [visit, lift, Untouched]
  | checkpoint mark => exact mark.elim
  | leaf code rest ih => simp [visit, prepend, lift, Untouched, ih]
  | functionDef fn body rest ihBody ihRest =>
      rcases visit_functionDef threads false fn body with ⟨hsync, hname, hvisit⟩ |
        ⟨hsync, -, hdecorated, hvisit⟩ | ⟨hplain, hvisit⟩
      · rw [hvisit, prepend, if_neg (by simp), lift, functionDef.injEq, Def.undecorated_eq_iff,
          visit_true_eq_lift_iff, ihRest, Untouched, hsync]
        constructor
        · rintro ⟨hbare, hblank, hrest⟩
          exact ⟨.inr ⟨hbare, fun _ => hblank⟩, hblank.untouched, hrest⟩
        · rintro ⟨hasync | ⟨hbare, hblank⟩, -, hrest⟩
          · cases hasync
          · exact ⟨hbare, hblank hname, hrest⟩
      · refine iff_of_false ?_ ?_
        · intro heq
          have herase := congrArg erase heq
          rw [hvisit, erase_prepend, erase_lift] at herase
          exact erase_visit_ne fn body rest herase
        · rw [Untouched, hsync]
          simp [hdecorated]
      · have hplain' : fn.isAsync = true ∨ fn.decorators = [] ∧ (fn.name ∈ threads → body.Blank) :=
          hplain.imp_right fun hplain => ⟨hplain.2, fun hname => absurd hname hplain.1⟩
        rw [hvisit, prepend, if_neg (by simp), lift, functionDef.injEq, ihBody, ihRest, Untouched]
        simp [hplain']
  | classDef head body rest ihBody ihRest =>
      simp [visit, prepend, lift, Untouched, ihBody, ihRest]
  | branch kind head body orelse rest ihBody _ ihRest =>
      simp [visit, prepend, lift, Untouched, ihBody, ihRest]
  | withStmt isAsync head body rest ihBody ihRest =>
      simp [visit, prepend, lift, Untouched, ihBody, ihRest]
  | tryStmt body handlers orelse finalbody rest ihBody _ _ _ ihRest =>
      simp [visit, prepend, lift, Untouched, ihBody, ihRest]
  | matchStmt head cases rest _ ihRest => simp [visit, prepend, lift, Untouched, ihRest]
  | clause head body rest _ _ => simp [visit, lift, Untouched]

end Untouched

/-! ## The functions of the produced tree -/

section Methods

variable {kind : Kind}

/-- What the transformer makes of a function that stands outside of thread
functions. -/
def image (threads : List String) (method : Def Code × Source Code .suite) :
    List (Def Code × Produced Code .suite) :=
  ((functionDef method.1 method.2 nil).visit threads false).methods

theorem classes_visit (threads : List String) (list : Source Code kind) :
    (list.visit threads false).classes = list.classes.map (·.visit threads false) := by
  induction list with
  | checkpoint mark => exact mark.elim
  | functionDef fn body rest _ ihRest =>
      rcases visit_functionDef threads false fn body with ⟨-, -, hvisit⟩ |
        ⟨-, -, -, hvisit⟩ | ⟨-, hvisit⟩ <;> rw [hvisit] <;> exact ihRest
  | nil => rfl
  | clause head body rest => rfl
  | classDef head body rest _ ihRest => exact congrArg (_ :: ·) ihRest
  | leaf code rest ihRest => exact ihRest
  | branch kind head body orelse rest _ _ ihRest => exact ihRest
  | withStmt isAsync head body rest _ ihRest => exact ihRest
  | tryStmt body handlers orelse finalbody rest _ _ _ _ ihRest => exact ihRest
  | matchStmt head cases rest _ ihRest => exact ihRest

theorem methods_visit (threads : List String) (list : Source Code kind) :
    (list.visit threads false).methods = list.methods.flatMap (image threads) := by
  induction list with
  | checkpoint mark => exact mark.elim
  | functionDef fn body rest _ ihRest =>
      rw [methods, List.flatMap_cons, image, ← ihRest]
      rcases visit_functionDef threads false fn body with ⟨-, -, hvisit⟩ | ⟨-, -, -, hvisit⟩ |
        ⟨-, hvisit⟩ <;> rw [hvisit, hvisit] <;> rfl
  | nil => rfl
  | clause head body rest => rfl
  | classDef head body rest _ ihRest => exact ihRest
  | leaf code rest ihRest => exact ihRest
  | branch kind head body orelse rest _ _ ihRest => exact ihRest
  | withStmt isAsync head body rest _ ihRest => exact ihRest
  | tryStmt body handlers orelse finalbody rest _ _ _ _ ihRest => exact ihRest
  | matchStmt head cases rest _ ihRest => exact ihRest

end Methods

/-! ## The claim of the instrumentation -/

/-- What should become of a method: in a thread function nothing is lost and
every statement has its checkpoint, and an undecorated method stays as it is. -/
structure Meets (threads : List String) (method : Def Code × Source Code .suite) : Prop where
  thread : .thread ∈ method.1.decorators → ∃ fn body, image threads method = [(fn, body)] ∧
    body.erase = method.2 ∧ body.Preceded false
  undecorated : method.1.decorators = [] → image threads method = [(method.1, method.2.lift)]

/-- A thread function is no coroutine, has all its statements in bodies and no
decorated function among them; nothing in an undecorated method is decorated or
has the name of a thread function. -/
structure Supported (threads : List String) (method : Def Code × Source Code .suite) :
    Prop where
  thread : .thread ∈ method.1.decorators →
    if method.1.isAsync then method.2.Blank else method.2.Covered
  undecorated : method.1.decorators = [] →
    (functionDef method.1 method.2 nil).Untouched threads

/-- Outside of thread functions nothing is inserted. -/
theorem blank_iff (threads : List String) (body : Source Code .suite) :
    (body.visit threads false).erase = body ∧ (body.visit threads false).Preceded false ↔
      body.Blank := by
  cases body with
  | nil => simp [visit, erase, Preceded, Blank]
  | checkpoint mark => exact mark.elim
  | functionDef fn body rest =>
      rcases visit_functionDef threads false fn body with ⟨-, -, hvisit⟩ | ⟨-, -, -, hvisit⟩ |
        ⟨-, hvisit⟩ <;> rw [hvisit]
      · simp [prepend, Preceded, Blank]
      · simp [prepend, Blank, erase_visit_ne]
      · simp [prepend, Preceded, Blank]
  | _ => simp [visit, prepend, Preceded, Blank]

theorem image_thread {threads : List String} {method : Def Code × Source Code .suite}
    (hname : method.1.name ∈ threads) :
    (∃ fn body, image threads method = [(fn, body)] ∧ body.erase = method.2 ∧
      body.Preceded false) ↔ if method.1.isAsync then method.2.Blank else method.2.Covered := by
  obtain ⟨fn, body⟩ := method
  rcases visit_functionDef threads false fn body with ⟨hsync, -, hvisit⟩ | ⟨-, hother, -⟩ |
    ⟨hplain, hvisit⟩
  · have himage : image threads (fn, body) =
        [({ fn with decorators := [] }, body.visit threads true)] := by
      rw [image, hvisit]
      rfl
    rw [himage, if_neg (by simp [hsync]), covered_iff threads]
    constructor
    · rintro ⟨fn', body', heq, herase, hpreceded⟩
      cases heq
      exact ⟨herase, hpreceded⟩
    · rintro ⟨herase, hpreceded⟩
      exact ⟨_, _, rfl, herase, hpreceded⟩
  · exact absurd hname hother
  · have hasync : fn.isAsync = true := by
      rcases hplain with hasync | ⟨hother, -⟩
      · exact hasync
      · exact absurd hname hother
    have himage : image threads (fn, body) = [(fn, body.visit threads false)] := by
      rw [image, hvisit]
      rfl
    rw [himage, if_pos hasync, ← blank_iff threads]
    constructor
    · rintro ⟨fn', body', heq, herase, hpreceded⟩
      cases heq
      exact ⟨herase, hpreceded⟩
    · rintro ⟨herase, hpreceded⟩
      exact ⟨_, _, rfl, herase, hpreceded⟩

theorem image_undecorated {threads : List String} {method : Def Code × Source Code .suite}
    (hbare : method.1.decorators = []) :
    image threads method = [(method.1, method.2.lift)] ↔
      (functionDef method.1 method.2 nil).Untouched threads := by
  obtain ⟨fn, body⟩ := method
  rw [← visit_eq_lift_iff, lift, lift]
  rcases visit_functionDef threads false fn body with ⟨-, -, hvisit⟩ | ⟨-, -, hdecorated, -⟩ |
    ⟨-, hvisit⟩
  · rw [image, hvisit]
    simp [prepend, methods, visit]
  · exact absurd hbare hdecorated
  · rw [image, hvisit]
    simp [prepend, methods, visit]

theorem meets_iff_supported {threads : List String} {method : Def Code × Source Code .suite}
    (hregistered : .thread ∈ method.1.decorators → method.1.name ∈ threads) :
    Meets threads method ↔ Supported threads method := by
  constructor
  · intro hmeets
    exact ⟨fun hthread => (image_thread (hregistered hthread)).mp (hmeets.thread hthread),
      fun hbare => (image_undecorated hbare).mp (hmeets.undecorated hbare)⟩
  · intro hsupported
    exact ⟨fun hthread => (image_thread (hregistered hthread)).mpr (hsupported.thread hthread),
      fun hbare => (image_undecorated hbare).mpr (hsupported.undecorated hbare)⟩

end Node

open Node

variable {Code : Type}

/-- The instrumentation of a source whose thread functions are registered: the
methods of the produced classes are the images of the methods, and these are
what they should be exactly for the supported ones. -/
theorem instrumented_iff_supported (threads : List String) (source : Source Code .suite)
    (hregistered : ∀ body ∈ source.classes, ∀ method ∈ body.methods,
      .thread ∈ method.1.decorators → method.1.name ∈ threads) :
    (source.visit threads false).classes.map (·.methods) =
      source.classes.map (fun body => body.methods.flatMap (image threads)) ∧
    ((∀ body ∈ source.classes, ∀ method ∈ body.methods, Meets threads method) ↔
      ∀ body ∈ source.classes, ∀ method ∈ body.methods, Supported threads method) := by
  constructor
  · rw [classes_visit, List.map_map]
    exact List.map_congr_left fun body _ => methods_visit threads body
  · refine forall₂_congr fun body hbody => forall₂_congr fun method hmethod => ?_
    exact meets_iff_supported (hregistered body hbody method hmethod)

/-- A thread function with this body. -/
def sampleThread (body : Source String .suite) : Def String × Source String .suite :=
  (⟨false, "t1", [.thread], "(self)"⟩, body)

def sampleHelper : Def String × Source String .suite :=
  (⟨false, "helper", [], "(self)"⟩, .leaf "pass" .nil)

/-- A class with the two methods. -/
def sampleClass (body : Source String .suite) : Source String .suite :=
  .classDef "class C" (.functionDef (sampleThread body).1 body
    (.functionDef sampleHelper.1 sampleHelper.2 .nil)) .nil

theorem forall_sampleClass {P : Def String × Source String .suite → Prop}
    (body : Source String .suite) :
    (∀ members ∈ (sampleClass body).classes, ∀ method ∈ members.methods, P method) ↔
      P (sampleThread body) ∧ P sampleHelper := by
  have hclasses : (sampleClass body).classes = [.functionDef (sampleThread body).1 body
      (.functionDef sampleHelper.1 sampleHelper.2 .nil)] := rfl
  rw [hclasses, List.forall_mem_singleton]
  exact List.forall_mem_cons.trans (and_congr_right' List.forall_mem_singleton)

/-- A loop around a conditional without an `else`. -/
def sampleBody : Source String .suite :=
  .branch .whileStmt "True" (.branch .ifStmt "self.x" (.leaf "self.x = 0" .nil) .nil .nil) .nil
    (.leaf "self.y = 1" .nil)

theorem instrumented_sample :
    ((sampleClass sampleBody).visit ["t1"] false).classes.map (·.methods) =
      (sampleClass sampleBody).classes.map (fun body => body.methods.flatMap (image ["t1"])) ∧
    ∀ members ∈ (sampleClass sampleBody).classes, ∀ method ∈ members.methods,
      Meets ["t1"] method := by
  have hsample := instrumented_iff_supported ["t1"] (sampleClass sampleBody) (by
    rw [forall_sampleClass]
    simp [sampleThread, sampleHelper])
  refine ⟨hsample.1, hsample.2.mpr ?_⟩
  rw [forall_sampleClass]
  constructor
  · constructor <;> simp [sampleThread, sampleBody, Covered, Blank]
  · constructor <;> simp [sampleHelper, Untouched]

/-- An `else` suite is left without checkpoints. -/
theorem else_not_instrumented :
    ¬ ∀ members ∈ (sampleClass (.branch .ifStmt "self.x" (.leaf "a()" .nil) (.leaf "b()" .nil)
      .nil)).classes, ∀ method ∈ members.methods, Meets ["t1"] method := by
  rw [forall_sampleClass]
  rintro ⟨hmeets, -⟩
  have hsupported := ((meets_iff_supported (by simp [sampleThread])).mp hmeets).thread
  simp [sampleThread, Covered, Blank] at hsupported

end JyyOS.Instrument
