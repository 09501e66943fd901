import Mathlib.Data.List.Basic
import Mathlib.Tactic

/-!
# Instrumented thread functions (`model-checker.py`, `hack`)

`hack` rewrites the syntax tree of a checked class: inside an `@thread`
function every statement of every visited `body` list is preceded by
`yield checkpoint()`.  The first part models the trees and
`Instrument.generic_visit`; the second part is a small-step machine for the
generators so obtained.  The meaning of a simple statement, a condition or an
iterable is a parameter of the machine.
-/

namespace JyyOS.ModelChecker

/-! ## Syntax trees -/

/-- Statements without a suite of their own. -/
inductive Leaf (Act : Type) where
  | simple (act : Act)
  | brk
  | cont
  | ret
  /-- `yield checkpoint()`, with the line `checkpoint` finds in `f_lineno`. -/
  | checkpoint (line : ℕ)

/-- A list of statements.  `body` is the field of that name of a compound
statement and `others` holds its remaining suites: the `else` suite, and the
clauses of a `try`. -/
inductive Body (Act Head : Type) where
  | nil
  | leaf (statement : Leaf Act) (rest : Body Act Head)
  | compound (head : Head) (body others rest : Body Act Head)

/-- What `generic_visit` asks of a node. -/
inductive View (Head : Type) where
  | function (name : String) (decorated : Bool) (undecorated : Head)
  | other

namespace Body

variable {Act Head : Type}

/-- Put `yield checkpoint()` in front when inside a thread function.  Its line
is only known once the tree is printed. -/
def prepend (inFn : Bool) (body : Body Act Head) : Body Act Head :=
  if inFn then leaf (.checkpoint 0) body else body

/-- The loop of `generic_visit` over the `body` of a node.  Only `body` is
visited; `others` stays as it is. -/
def visit (threads : List String) (view : Head → View Head) (inFn : Bool) :
    Body Act Head → Body Act Head
  | nil => nil
  | leaf statement rest =>
      prepend inFn (leaf statement (visit threads view inFn rest))
  | compound head body others rest =>
      match view head with
      | .other =>
          prepend inFn (compound head (visit threads view inFn body) others
            (visit threads view inFn rest))
      | .function name decorated undecorated =>
          if name ∈ threads then
            prepend inFn (compound undecorated (visit threads view true body)
              others (visit threads view inFn rest))
          else if decorated then
            -- `generic_visit` returns `None` for this statement
            prepend inFn (visit threads view inFn rest)
          else
            prepend inFn (compound head (visit threads view inFn body) others
              (visit threads view inFn rest))

/-- The number of lines a suite takes in the output of `astor.to_source`, one
for each statement and one for each `else:`. -/
def height : Body Act Head → ℕ
  | nil => 0
  | leaf _ rest => rest.height + 1
  | compound _ body others rest =>
      1 + body.height + (if others.height = 0 then 0 else others.height + 1) +
        rest.height

/-- Printing and compiling: every checkpoint learns its line. -/
def toSource (line : ℕ) : Body Act Head → Body Act Head
  | nil => nil
  | leaf (.checkpoint _) rest => leaf (.checkpoint line) (rest.toSource (line + 1))
  | leaf statement rest => leaf statement (rest.toSource (line + 1))
  | compound head body others rest =>
      let first := line + 1 + body.height
      let second := first + (if others.height = 0 then 0 else others.height + 1)
      compound head (body.toSource (line + 1)) (others.toSource (first + 1))
        (rest.toSource second)

/-- The checkpoint lines of a suite. -/
def lines : Body Act Head → List ℕ
  | nil => []
  | leaf (.checkpoint line) rest => line :: rest.lines
  | leaf _ rest => rest.lines
  | compound _ body others rest => body.lines ++ others.lines ++ rest.lines

/-- What the Python grammar guarantees of a source suite: it has a statement,
so have the bodies in it, and it does not already contain a checkpoint. -/
def Suite : Body Act Head → Prop
  | nil => False
  | leaf (.checkpoint _) _ => False
  | leaf _ rest => rest = nil ∨ rest.Suite
  | compound _ body others rest =>
      body.Suite ∧ (others = nil ∨ others.Suite) ∧ (rest = nil ∨ rest.Suite)

end Body

/-! ## Languages and generators -/

/-- The parts of Python that the checker does not look at.  `none` is a raised
exception. -/
structure Language where
  Act : Type
  Cond : Type
  Loop : Type
  Store : Type
  Iterator : Type
  exec : Act → Store → Option Store
  test : Cond → Store → Option (Bool × Store)
  /-- `iter(...)` of the iterable in the header of a `for`. -/
  iter : Loop → Store → Option (Iterator × Store)
  /-- One `next` and the assignment of the loop variable; `some none` when the
  iterator is exhausted. -/
  advance : Loop → Iterator → Store → Option (Option (Iterator × Store))

/-- The compound statements a generator can run. -/
inductive Control (language : Language) where
  | ifTest (cond : language.Cond)
  | whileTest (cond : language.Cond)
  | forEach (loop : language.Loop)

namespace Language

variable (language : Language)

abbrev Code := Body language.Act (Control language)

/-- An `@thread` function before instrumentation. -/
structure ThreadFunction where
  name : String
  body : language.Code
  suite : body.Suite
  /-- Where the function's first statement stands in the printed source. -/
  line : ℕ

variable {language}

/-- A suite of a thread function visited and printed.  A control header is
never a function definition, so the list of thread names is not consulted. -/
def instrument (code : language.Code) (line : ℕ) : language.Code :=
  (code.visit [] (fun _ => .other) true).toSource line

/-- The body that `hack` compiles for a thread function. -/
def ThreadFunction.hacked (function : language.ThreadFunction) : language.Code :=
  instrument function.body function.line

variable (language)

/-- What is left to do at one nesting level. -/
inductive Frame where
  | suite (rest : language.Code)
  | whileLoop (cond : language.Cond) (body others : language.Code)
  | forLoop (loop : language.Loop) (iterator : language.Iterator)
      (body others : language.Code)

/-- The control of a generator, innermost level first. -/
abbrev Stack := List language.Frame

variable {language}

/-- The enclosing loop, where `continue` goes. -/
def toLoop : language.Stack → language.Stack
  | [] => []
  | .suite _ :: stack => toLoop stack
  | .whileLoop cond body others :: stack => .whileLoop cond body others :: stack
  | .forLoop loop iterator body others :: stack =>
      .forLoop loop iterator body others :: stack

variable (language)

inductive Event where
  | silent (stack : language.Stack) (store : language.Store)
  /-- A simple statement or the test of a compound header has been performed. -/
  | worked (stack : language.Stack) (store : language.Store)
  | yielded (line : ℕ) (stack : language.Stack)
  | stopped
  | raised

inductive Outcome where
  | yielded (line : ℕ) (stack : language.Stack) (store : language.Store)
  | stopped (store : language.Store)
  | raised

variable {language}

/-- The event of a header test with the two ways on from it. -/
def Event.ofTest (yes no : language.Stack) :
    Option (Bool × language.Store) → language.Event
  | none => .raised
  | some (true, store) => .worked yes store
  | some (false, store) => .worked no store

/-- One move of a generator. -/
def micro : language.Stack → language.Store → language.Event
  | [], _ => .stopped
  | .suite .nil :: stack, store => .silent stack store
  | .suite (.leaf (.simple act) rest) :: stack, store =>
      match language.exec act store with
      | none => .raised
      | some store => .worked (.suite rest :: stack) store
  | .suite (.leaf .brk _) :: stack, store => .worked (toLoop stack).tail store
  | .suite (.leaf .cont _) :: stack, store => .worked (toLoop stack) store
  | .suite (.leaf .ret _) :: _, store => .worked [] store
  | .suite (.leaf (.checkpoint line) rest) :: stack, _ =>
      .yielded line (.suite rest :: stack)
  | .suite (.compound (.ifTest cond) body others rest) :: stack, store =>
      .ofTest (.suite body :: .suite rest :: stack)
        (.suite others :: .suite rest :: stack) (language.test cond store)
  | .suite (.compound (.whileTest cond) body others rest) :: stack, store =>
      .silent (.whileLoop cond body others :: .suite rest :: stack) store
  | .suite (.compound (.forEach loop) body others rest) :: stack, store =>
      match language.iter loop store with
      | none => .raised
      | some (iterator, store) =>
          .silent (.forLoop loop iterator body others :: .suite rest :: stack) store
  | .whileLoop cond body others :: stack, store =>
      .ofTest (.suite body :: .whileLoop cond body others :: stack)
        (.suite others :: stack) (language.test cond store)
  | .forLoop loop iterator body others :: stack, store =>
      match language.advance loop iterator store with
      | none => .raised
      | some none => .worked (.suite others :: stack) store
      | some (some (iterator, store)) =>
          .worked (.suite body :: .forLoop loop iterator body others :: stack) store

/-- `__next__`: run to the next checkpoint or to the end.  The number counts
the simple statements and header tests performed on the way; `none` when the
fuel does not suffice. -/
def resume : ℕ → language.Stack → language.Store →
    Option (ℕ × language.Outcome)
  | 0, _, _ => none
  | fuel + 1, stack, store =>
      match micro stack store with
      | .silent stack store => resume fuel stack store
      | .worked stack store =>
          (resume fuel stack store).map fun (work, outcome) => (work + 1, outcome)
      | .yielded line stack => some (0, .yielded line stack store)
      | .stopped => some (0, .stopped store)
      | .raised => some (1, .raised)

/-- The control of a generator that has not started. -/
def ThreadFunction.call (function : language.ThreadFunction) : language.Stack :=
  [.suite function.hacked]

/-- A `while` loop performs its test and goes on. -/
theorem resume_whileLoop {cond : language.Cond} {body others : language.Code}
    {stack : language.Stack} {store store' : language.Store} {holds : Bool}
    (htest : language.test cond store = some (holds, store')) (fuel : ℕ) :
    resume (fuel + 1) (.whileLoop cond body others :: stack) store =
      (resume fuel (if holds then .suite body :: .whileLoop cond body others :: stack
        else .suite others :: stack) store').map fun (work, outcome) =>
          (work + 1, outcome) := by
  have hmicro : micro (.whileLoop cond body others :: stack) store =
      .worked (if holds then .suite body :: .whileLoop cond body others :: stack
        else .suite others :: stack) store' := by
    simp only [micro, htest]
    cases holds <;> rfl
  simp only [resume, hmicro]

/-! ## Control flow -/

/-- The moves of the control, whatever the store holds. -/
inductive Flow : language.Stack → language.Stack → Prop
  | skip {stack} : Flow (.suite .nil :: stack) stack
  | simple {act rest stack} :
      Flow (.suite (.leaf (.simple act) rest) :: stack) (.suite rest :: stack)
  | brk {rest stack} : Flow (.suite (.leaf .brk rest) :: stack) (toLoop stack).tail
  | cont {rest stack} : Flow (.suite (.leaf .cont rest) :: stack) (toLoop stack)
  | ret {rest stack} : Flow (.suite (.leaf .ret rest) :: stack) []
  | ifBody {cond body others rest stack} :
      Flow (.suite (.compound (.ifTest cond) body others rest) :: stack)
        (.suite body :: .suite rest :: stack)
  | ifOthers {cond body others rest stack} :
      Flow (.suite (.compound (.ifTest cond) body others rest) :: stack)
        (.suite others :: .suite rest :: stack)
  | whileEnter {cond body others rest stack} :
      Flow (.suite (.compound (.whileTest cond) body others rest) :: stack)
        (.whileLoop cond body others :: .suite rest :: stack)
  | whileBody {cond body others stack} :
      Flow (.whileLoop cond body others :: stack)
        (.suite body :: .whileLoop cond body others :: stack)
  | whileOthers {cond body others stack} :
      Flow (.whileLoop cond body others :: stack) (.suite others :: stack)
  | forEnter {loop iterator body others rest stack} :
      Flow (.suite (.compound (.forEach loop) body others rest) :: stack)
        (.forLoop loop iterator body others :: .suite rest :: stack)
  | forBody {loop iterator iterator' body others stack} :
      Flow (.forLoop loop iterator body others :: stack)
        (.suite body :: .forLoop loop iterator' body others :: stack)
  | forOthers {loop iterator body others stack} :
      Flow (.forLoop loop iterator body others :: stack) (.suite others :: stack)

/-- Where a move of the machine goes on. -/
def Event.next? : language.Event → Option language.Stack
  | .silent stack _ => some stack
  | .worked stack _ => some stack
  | _ => none

theorem micro_flow {before after : language.Stack} {store : language.Store}
    (hmove : (micro before store).next? = some after) : Flow before after := by
  unfold micro Event.ofTest at hmove
  split at hmove
  all_goals (try split at hmove)
  all_goals first
    | cases hmove; done
    | (cases hmove; constructor)

theorem micro_yielded {before after : language.Stack} {store : language.Store}
    {line : ℕ} (hmove : micro before store = .yielded line after) :
    ∃ rest stack, before = .suite (.leaf (.checkpoint line) rest) :: stack ∧
      after = .suite rest :: stack := by
  unfold micro Event.ofTest at hmove
  split at hmove
  all_goals (try split at hmove)
  all_goals cases hmove
  exact ⟨_, _, rfl, rfl⟩

/-- A property of the control that every move keeps holds wherever a generator
yields. -/
theorem resume_yielded {P : language.Stack → Prop}
    (hflow : ∀ before after, P before → Flow before after → P after)
    {fuel work line : ℕ} {stack after : language.Stack}
    {store store' : language.Store} (hstack : P stack)
    (hresume : resume fuel stack store = some (work, .yielded line after store')) :
    ∃ rest below, P (.suite (.leaf (.checkpoint line) rest) :: below) ∧
      after = .suite rest :: below := by
  induction fuel generalizing stack store work with
  | zero => cases hresume
  | succ fuel ih =>
      unfold resume at hresume
      split at hresume
      case h_1 middle _ hmove =>
        exact ih (hflow _ _ hstack (micro_flow (by rw [hmove]; rfl))) hresume
      case h_2 middle _ hmove =>
        obtain ⟨⟨work', outcome⟩, hrest, heq⟩ := Option.map_eq_some_iff.mp hresume
        cases heq
        exact ih (hflow _ _ hstack (micro_flow (by rw [hmove]; rfl))) hrest
      case h_3 line' middle hmove =>
        cases hresume
        obtain ⟨rest, below, hbefore, hafter⟩ := micro_yielded hmove
        exact ⟨rest, below, hbefore ▸ hstack, hafter⟩
      all_goals cases hresume

end Language

end JyyOS.ModelChecker
