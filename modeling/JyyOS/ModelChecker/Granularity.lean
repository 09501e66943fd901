import JyyOS.Core.Transition
import JyyOS.ModelChecker.Python

/-!
# How much work one scheduling step does

A scheduling step of `execute` resumes one generator until its next
checkpoint.  Checkpoints stand in front of the statements of a `body` list, but
not in front of the test that a loop repeats, and not in an `else` suite.  This
module says exactly which steps perform more than one statement or test.
-/

namespace JyyOS.ModelChecker.Language

open Transition

variable {language : Language}

/-! ## The shape of an instrumented stack -/

/-- Every statement has its checkpoint. -/
def Paced : language.Code → Prop
  | .leaf (.checkpoint _) (.leaf (.checkpoint _) _) => False
  | .leaf (.checkpoint _) (.leaf _ rest) => Paced rest
  | .leaf (.checkpoint _) (.compound _ body others rest) =>
      (Paced body ∧ body ≠ .nil) ∧ others.lines = [] ∧ Paced rest
  | .nil => True
  | _ => False

/-- A suite whose first checkpoint has just been passed. -/
def Resumed (code : language.Code) : Prop := Paced (.leaf (.checkpoint 0) code)

def Frame.Instrumented : language.Frame → Prop
  | .suite rest => Paced rest
  | .whileLoop _ body others => (Paced body ∧ body ≠ .nil) ∧ others.lines = []
  | .forLoop _ _ body others => (Paced body ∧ body ≠ .nil) ∧ others.lines = []

def Frame.Plain : language.Frame → Prop
  | .suite rest => rest.lines = []
  | .whileLoop _ body others => body.lines = [] ∧ others.lines = []
  | .forLoop _ _ body others => body.lines = [] ∧ others.lines = []

/-- Levels of some `else` suite, if the generator is in one, above
instrumented levels. -/
inductive Layered : language.Stack → Prop
  | instrumented {stack} (hframes : ∀ frame ∈ stack, Frame.Instrumented frame) :
      Layered stack
  | plain {frame stack} (hframe : Frame.Plain frame) (hstack : Layered stack) :
      Layered (frame :: stack)

/-- The control of a generator waiting at a checkpoint. -/
inductive Paused : language.Stack → Prop
  | intro {code stack} (hcode : Resumed code)
      (hframes : ∀ frame ∈ stack, Frame.Instrumented frame) :
      Paused (.suite code :: stack)

theorem paced_of_resumed_leaf {statement : Leaf language.Act}
    {rest : language.Code} (hcode : Resumed (.leaf statement rest)) :
    Paced rest := by
  cases statement <;> simp_all [Resumed, Paced]

theorem Layered.tail {frame : language.Frame} {stack : language.Stack}
    (hstack : Layered (frame :: stack)) : Layered stack := by
  cases hstack with
  | instrumented hframes =>
      exact .instrumented fun inner hinner => hframes inner (List.mem_cons_of_mem _ hinner)
  | plain _ hstack => exact hstack

theorem Layered.to_loop {stack : language.Stack} (hstack : Layered stack) :
    Layered (toLoop stack) := by
  induction stack with
  | nil => exact hstack
  | cons frame stack ih =>
      cases frame with
      | suite rest => exact ih hstack.tail
      | whileLoop cond body others => exact hstack
      | forLoop loop iterator body others => exact hstack

theorem Layered.drop_loop {stack : language.Stack} (hstack : Layered stack) :
    Layered (toLoop stack).tail := by
  have hloop := hstack.to_loop
  cases hcases : toLoop stack with
  | nil => exact .instrumented (by simp)
  | cons frame rest =>
      rw [hcases] at hloop
      exact hloop.tail

/-- A generator resumed at a checkpoint leaves its statement for a layered
stack. -/
theorem Paused.flow {before after : language.Stack} (hpaused : Paused before)
    (hflow : Flow before after) : Layered after := by
  obtain ⟨hcode, hframes⟩ := hpaused
  have hstack : Layered _ := .instrumented hframes
  cases hflow with
  | skip => exact hstack
  | simple => exact .instrumented (List.forall_mem_cons.mpr ⟨paced_of_resumed_leaf hcode, hframes⟩)
  | brk => exact hstack.drop_loop
  | cont => exact hstack.to_loop
  | ret => exact .instrumented (by simp)
  | ifBody =>
      obtain ⟨hbody, -, hrest⟩ := hcode
      exact .instrumented (List.forall_mem_cons.mpr
        ⟨hbody.1, List.forall_mem_cons.mpr ⟨hrest, hframes⟩⟩)
  | ifOthers =>
      obtain ⟨-, hothers, hrest⟩ := hcode
      exact .plain hothers
        (.instrumented (List.forall_mem_cons.mpr ⟨hrest, hframes⟩))
  | whileEnter =>
      obtain ⟨hbody, hothers, hrest⟩ := hcode
      exact .instrumented (List.forall_mem_cons.mpr
        ⟨⟨hbody, hothers⟩, List.forall_mem_cons.mpr ⟨hrest, hframes⟩⟩)
  | forEnter =>
      obtain ⟨hbody, hothers, hrest⟩ := hcode
      exact .instrumented (List.forall_mem_cons.mpr
        ⟨⟨hbody, hothers⟩, List.forall_mem_cons.mpr ⟨hrest, hframes⟩⟩)

/-- Moves from an instrumented level.  Its next statement is a checkpoint, so
only the end of a suite and the loop headers move. -/
theorem instrumented_flow {frame : language.Frame} {stack after : language.Stack}
    (hframe : Frame.Instrumented frame)
    (hframes : ∀ frame ∈ stack, Frame.Instrumented frame)
    (hflow : Flow (frame :: stack) after) : Layered after := by
  cases hflow with
  | skip => exact .instrumented hframes
  | whileBody =>
      exact .instrumented (List.forall_mem_cons.mpr
        ⟨hframe.1.1, List.forall_mem_cons.mpr ⟨hframe, hframes⟩⟩)
  | forBody =>
      exact .instrumented (List.forall_mem_cons.mpr
        ⟨hframe.1.1, List.forall_mem_cons.mpr ⟨hframe, hframes⟩⟩)
  | whileOthers => exact .plain hframe.2 (.instrumented hframes)
  | forOthers => exact .plain hframe.2 (.instrumented hframes)
  | _ => exact absurd hframe (by simp [Frame.Instrumented, Paced])

theorem plain_flow {frame : language.Frame} {stack after : language.Stack}
    (hframe : Frame.Plain frame) (hstack : Layered stack)
    (hflow : Flow (frame :: stack) after) : Layered after := by
  cases hflow with
  | skip => exact hstack
  | simple => exact .plain hframe hstack
  | brk => exact hstack.drop_loop
  | cont => exact hstack.to_loop
  | ret => exact .instrumented (by simp)
  | ifBody =>
      simp only [Frame.Plain, Body.lines, List.append_eq_nil_iff] at hframe
      exact .plain hframe.1.1 (.plain hframe.2 hstack)
  | ifOthers =>
      simp only [Frame.Plain, Body.lines, List.append_eq_nil_iff] at hframe
      exact .plain hframe.1.2 (.plain hframe.2 hstack)
  | whileEnter =>
      simp only [Frame.Plain, Body.lines, List.append_eq_nil_iff] at hframe
      exact .plain hframe.1 (.plain hframe.2 hstack)
  | forEnter =>
      simp only [Frame.Plain, Body.lines, List.append_eq_nil_iff] at hframe
      exact .plain hframe.1 (.plain hframe.2 hstack)
  | whileBody => exact .plain hframe.1 (.plain hframe hstack)
  | forBody => exact .plain hframe.1 (.plain hframe hstack)
  | whileOthers => exact .plain hframe.2 hstack
  | forOthers => exact .plain hframe.2 hstack

theorem Layered.flow {before after : language.Stack} (hbefore : Layered before)
    (hflow : Flow before after) : Layered after := by
  cases hbefore with
  | plain hframe hstack => exact plain_flow hframe hstack hflow
  | instrumented hframes =>
      cases before with
      | nil => cases hflow
      | cons frame stack =>
          exact instrumented_flow (hframes frame List.mem_cons_self)
            (fun inner hinner => hframes inner (List.mem_cons_of_mem _ hinner)) hflow

/-- What stands at a checkpoint of a layered stack is an instrumented suite. -/
theorem Layered.paused {line : ℕ} {rest : language.Code} {stack : language.Stack}
    (hstack : Layered (.suite (.leaf (.checkpoint line) rest) :: stack)) :
    Paused (.suite rest :: stack) := by
  cases hstack with
  | plain hframe _ => simp [Frame.Plain, Body.lines] at hframe
  | instrumented hframes =>
      constructor
      · have hcode : Paced (.leaf (.checkpoint line) rest) := hframes _ List.mem_cons_self
        cases rest with
        | nil => exact hcode
        | leaf statement rest =>
            cases statement with
            | checkpoint => exact hcode
            | _ => exact hcode
        | compound => exact hcode
      · exact fun inner hinner => hframes inner (List.mem_cons_of_mem _ hinner)

/-! ## Instrumentation establishes the shape -/

theorem lines_of_suite {Act Head : Type} {body : Body Act Head}
    (hbody : body = .nil ∨ body.Suite) : body.lines = [] := by
  induction body with
  | nil => rfl
  | leaf statement rest ih =>
      rcases hbody with hnil | hsuite
      · cases hnil
      · cases statement <;> first | exact ih hsuite | exact hsuite.elim
  | compound head body others rest ihBody ihOthers ihRest =>
      rcases hbody with hnil | ⟨hbody, hothers, hrest⟩
      · cases hnil
      · simp [Body.lines, ihBody (.inr hbody), ihOthers hothers, ihRest hrest]

theorem lines_toSource {Act Head : Type} {body : Body Act Head}
    (hlines : body.lines = []) (line : ℕ) : (body.toSource line).lines = [] := by
  induction body generalizing line with
  | nil => rfl
  | leaf statement rest ih =>
      cases statement with
      | checkpoint line => simp [Body.lines] at hlines
      | _ => exact ih hlines _
  | compound head body others rest ihBody ihOthers ihRest =>
      simp only [Body.lines, List.append_eq_nil_iff] at hlines
      simp [Body.toSource, Body.lines, ihBody hlines.1.1, ihOthers hlines.1.2,
        ihRest hlines.2]

theorem instrument_ne_nil {code : language.Code} (hcode : code.Suite) (line : ℕ) :
    instrument code line ≠ .nil := by
  cases code with
  | nil => exact hcode.elim
  | leaf statement rest => simp [instrument, Body.visit, Body.prepend, Body.toSource]
  | compound head body others rest =>
      simp [instrument, Body.visit, Body.prepend, Body.toSource]

theorem paced_instrument {code : language.Code}
    (hcode : code = .nil ∨ code.Suite) (line : ℕ) : Paced (instrument code line) := by
  induction code generalizing line with
  | nil => exact trivial
  | leaf statement rest ih =>
      rcases hcode with hnil | hsuite
      · cases hnil
      · cases statement <;> first | exact ih hsuite _ | exact hsuite.elim
  | compound head body others rest ihBody ihOthers ihRest =>
      rcases hcode with hnil | ⟨hbody, hothers, hrest⟩
      · cases hnil
      · exact ⟨⟨ihBody (.inr hbody) _, instrument_ne_nil hbody _⟩,
          lines_toSource (lines_of_suite hothers) _, ihRest hrest _⟩

/-! ## Coming back without work -/

/-- The generator comes back before it performs anything. -/
def Idle : language.Stack → Prop
  | [] => True
  | .suite .nil :: stack => Idle stack
  | .suite (.leaf (.checkpoint _) _) :: _ => True
  | _ => False

theorem Idle.resume {stack : language.Stack} (hidle : Idle stack)
    (store : language.Store) :
    ∃ fuel outcome, resume fuel stack store = some (0, outcome) := by
  induction stack with
  | nil => exact ⟨1, _, rfl⟩
  | cons frame stack ih =>
      unfold Idle at hidle
      split at hidle
      · contradiction
      · rename_i heq
        cases heq
        obtain ⟨fuel, outcome, hresume⟩ := ih hidle
        exact ⟨fuel + 1, outcome, hresume⟩
      · rename_i heq
        cases heq
        exact ⟨1, _, rfl⟩
      · exact hidle.elim

/-- An uneventful move does not bring a generator to the brink of coming back. -/
theorem idle_of_silent {before after : language.Stack}
    {store store' : language.Store} (hmove : micro before store = .silent after store')
    (hafter : Idle after) : Idle before := by
  unfold micro Event.ofTest at hmove
  split at hmove
  all_goals (try split at hmove)
  all_goals first | cases hmove; done | (cases hmove; exact hafter)

theorem idle_of_stopped {stack : language.Stack} {store : language.Store}
    (hmove : micro stack store = .stopped) : Idle stack := by
  unfold micro Event.ofTest at hmove
  split at hmove
  all_goals (try split at hmove)
  all_goals first | cases hmove; done | exact trivial

theorem idle_of_resume {fuel : ℕ} {stack : language.Stack}
    {store : language.Store} {outcome : language.Outcome}
    (hresume : resume fuel stack store = some (0, outcome)) : Idle stack := by
  induction fuel generalizing stack store with
  | zero => cases hresume
  | succ fuel ih =>
      unfold Language.resume at hresume
      split at hresume
      case h_1 hmove => exact idle_of_silent hmove (ih hresume)
      case h_2 =>
        obtain ⟨_, _, heq⟩ := Option.map_eq_some_iff.mp hresume
        cases heq
      case h_3 hmove =>
        obtain ⟨rest, below, rfl, -⟩ := micro_yielded hmove
        exact trivial
      case h_4 hmove => exact idle_of_stopped hmove
      case h_5 => cases hresume

/-- One scheduling step comes back after at most one simple statement or
header test. -/
def OneUnit (stack : language.Stack) (store : language.Store) : Prop :=
  ∃ fuel work outcome, resume fuel stack store = some (work, outcome) ∧ work ≤ 1

theorem oneUnit_of_raised {stack : language.Stack} {store : language.Store}
    (hmove : micro stack store = .raised) : OneUnit stack store :=
  ⟨1, 1, .raised, by rw [Language.resume, hmove], le_rfl⟩

theorem oneUnit_of_worked {before after : language.Stack}
    {store store' : language.Store}
    (hmove : micro before store = .worked after store') :
    OneUnit before store ↔ Idle after := by
  constructor
  · rintro ⟨fuel, work, outcome, hresume, hwork⟩
    cases fuel with
    | zero => cases hresume
    | succ fuel =>
        rw [Language.resume, hmove] at hresume
        obtain ⟨⟨more, _⟩, hrest, heq⟩ := Option.map_eq_some_iff.mp hresume
        cases heq
        obtain rfl : more = 0 := by omega
        exact idle_of_resume hrest
  · intro hidle
    obtain ⟨fuel, outcome, hresume⟩ := hidle.resume store'
    exact ⟨fuel + 1, 1, outcome, by simp only [Language.resume, hmove, hresume]; rfl, le_rfl⟩

theorem oneUnit_of_silent {before after : language.Stack}
    {store store' : language.Store}
    (hmove : micro before store = .silent after store') :
    OneUnit before store ↔ OneUnit after store' := by
  constructor
  · rintro ⟨fuel, work, outcome, hresume, hwork⟩
    cases fuel with
    | zero => cases hresume
    | succ fuel =>
        rw [Language.resume, hmove] at hresume
        exact ⟨fuel, work, outcome, hresume, hwork⟩
  · rintro ⟨fuel, work, outcome, hresume, hwork⟩
    exact ⟨fuel + 1, work, outcome, by simp only [Language.resume, hmove, hresume], hwork⟩

/-! ## Steps that run on -/

/-- Control that has reached the end of a suite falls through to a loop header
without meeting another statement. -/
def FallsIntoLoop : language.Stack → Prop
  | [] => False
  | .suite .nil :: stack => FallsIntoLoop stack
  | .suite _ :: _ => False
  | _ => True

/-- A header whose test fails leaves for an `else` suite, or, when it has none,
for what follows it. -/
def LeavesForMore (others rest : language.Code) (stack : language.Stack) : Prop :=
  others ≠ .nil ∨ FallsIntoLoop (.suite rest :: stack)

/-- The generator waits before a statement that leads on to a loop test or
into an `else` suite. -/
def RunsOn : language.Stack → language.Store → Prop
  | .suite (.leaf (.simple act) rest) :: stack, store =>
      (language.exec act store).isSome ∧ FallsIntoLoop (.suite rest :: stack)
  | .suite (.leaf .brk _) :: stack, _ => FallsIntoLoop (toLoop stack).tail
  | .suite (.leaf .cont _) :: stack, _ => FallsIntoLoop (toLoop stack)
  | .suite (.compound (.ifTest cond) _ others rest) :: stack, store =>
      (∃ store', language.test cond store = some (false, store')) ∧
        LeavesForMore others rest stack
  | .suite (.compound (.whileTest cond) _ others rest) :: stack, store =>
      (∃ store', language.test cond store = some (false, store')) ∧
        LeavesForMore others rest stack
  | .suite (.compound (.forEach loop) _ others rest) :: stack, store =>
      (∃ iterator store', language.iter loop store = some (iterator, store') ∧
        language.advance loop iterator store' = some none) ∧
        LeavesForMore others rest stack
  | _, _ => False

theorem idle_iff {stack : language.Stack}
    (hframes : ∀ frame ∈ stack, Frame.Instrumented frame) :
    Idle stack ↔ ¬ FallsIntoLoop stack := by
  induction stack with
  | nil => simp [Idle, FallsIntoLoop]
  | cons frame stack ih =>
      obtain ⟨hframe, hbelow⟩ := List.forall_mem_cons.mp hframes
      cases frame with
      | suite rest =>
          cases rest with
          | nil => exact ih hbelow
          | leaf statement rest =>
              cases statement with
              | checkpoint line => simp [Idle, FallsIntoLoop]
              | _ => exact hframe.elim
          | compound head body others rest => exact hframe.elim
      | whileLoop cond body others => simp [Idle, FallsIntoLoop]
      | forLoop loop iterator body others => simp [Idle, FallsIntoLoop]

theorem idle_body {body : language.Code} (hbody : Paced body ∧ body ≠ .nil)
    (stack : language.Stack) : Idle (.suite body :: stack) := by
  cases body with
  | nil => exact absurd rfl hbody.2
  | leaf statement rest =>
      cases statement with
      | checkpoint line => exact trivial
      | _ => exact hbody.1.elim
  | compound head body others rest => exact hbody.1.elim

theorem idle_others_iff {others rest : language.Code} {stack : language.Stack}
    (hothers : others.lines = []) (hrest : Paced rest)
    (hframes : ∀ frame ∈ stack, Frame.Instrumented frame) :
    Idle (.suite others :: .suite rest :: stack) ↔
      ¬ LeavesForMore others rest stack := by
  cases others with
  | nil =>
      have hstack : ∀ frame ∈ .suite rest :: stack, Frame.Instrumented frame :=
        List.forall_mem_cons.mpr ⟨hrest, hframes⟩
      simpa [LeavesForMore, Idle] using idle_iff hstack
  | leaf statement rest =>
      cases statement with
      | checkpoint line => simp [Body.lines] at hothers
      | _ => simp [LeavesForMore, Idle]
  | compound head body others rest => simp [LeavesForMore, Idle]

theorem mem_of_mem_toLoop {frame : language.Frame} {stack : language.Stack}
    (hframe : frame ∈ toLoop stack) : frame ∈ stack := by
  induction stack with
  | nil => exact hframe
  | cons top stack ih =>
      cases top with
      | suite rest => exact List.mem_cons_of_mem _ (ih hframe)
      | whileLoop cond body others => exact hframe
      | forLoop loop iterator body others => exact hframe

/-- A failed header test comes back at once unless there is more to do. -/
theorem oneUnit_failed_iff {others rest : language.Code}
    {before stack : language.Stack} {store store' : language.Store}
    (hmove : micro before store = .worked (.suite others :: .suite rest :: stack) store')
    (hothers : others.lines = []) (hrest : Paced rest)
    (hframes : ∀ frame ∈ stack, Frame.Instrumented frame) :
    OneUnit before store ↔ ¬ LeavesForMore others rest stack :=
  (oneUnit_of_worked hmove).trans (idle_others_iff hothers hrest hframes)

section Statements

variable {body others rest : language.Code} {stack : language.Stack}
  (hframes : ∀ frame ∈ stack, Frame.Instrumented frame)

include hframes

theorem oneUnit_simple_iff (act : language.Act) (hrest : Paced rest)
    (store : language.Store) :
    OneUnit (.suite (.leaf (.simple act) rest) :: stack) store ↔
      ¬ RunsOn (.suite (.leaf (.simple act) rest) :: stack) store := by
  cases hexec : language.exec act store with
  | none =>
      have hmove : micro (.suite (.leaf (.simple act) rest) :: stack) store =
          .raised := by simp only [micro, hexec]
      simp [oneUnit_of_raised hmove, RunsOn, hexec]
  | some store' =>
      have hmove : micro (.suite (.leaf (.simple act) rest) :: stack) store =
          .worked (.suite rest :: stack) store' := by simp only [micro, hexec]
      have hafter : ∀ frame ∈ .suite rest :: stack, Frame.Instrumented frame :=
        List.forall_mem_cons.mpr ⟨hrest, hframes⟩
      simpa [RunsOn, hexec] using (oneUnit_of_worked hmove).trans (idle_iff hafter)

variable (hbody : Paced body ∧ body ≠ .nil) (hothers : others.lines = [])
  (hrest : Paced rest)

include hbody hothers hrest

theorem oneUnit_ifTest_iff (cond : language.Cond) (store : language.Store) :
    OneUnit (.suite (.compound (.ifTest cond) body others rest) :: stack) store ↔
      ¬ RunsOn (.suite (.compound (.ifTest cond) body others rest) :: stack) store := by
  match htest : language.test cond store with
  | none =>
      have hmove : micro (.suite (.compound (.ifTest cond) body others rest) :: stack)
          store = .raised := by simp only [micro, htest, Event.ofTest]
      simp [oneUnit_of_raised hmove, RunsOn, htest]
  | some (true, store') =>
      have hmove : micro (.suite (.compound (.ifTest cond) body others rest) :: stack)
          store = .worked (.suite body :: .suite rest :: stack) store' := by
        simp only [micro, htest, Event.ofTest]
      simp [oneUnit_of_worked hmove, idle_body hbody, RunsOn, htest]
  | some (false, store') =>
      have hmove : micro (.suite (.compound (.ifTest cond) body others rest) :: stack)
          store = .worked (.suite others :: .suite rest :: stack) store' := by
        simp only [micro, htest, Event.ofTest]
      simpa [RunsOn, htest] using oneUnit_failed_iff hmove hothers hrest hframes

theorem oneUnit_whileTest_iff (cond : language.Cond) (store : language.Store) :
    OneUnit (.suite (.compound (.whileTest cond) body others rest) :: stack) store ↔
      ¬ RunsOn (.suite (.compound (.whileTest cond) body others rest) :: stack)
        store := by
  rw [oneUnit_of_silent rfl]
  match htest : language.test cond store with
  | none =>
      have hmove : micro (.whileLoop cond body others :: .suite rest :: stack) store =
          .raised := by simp only [micro, htest, Event.ofTest]
      simp [oneUnit_of_raised hmove, RunsOn, htest]
  | some (true, store') =>
      have hmove : micro (.whileLoop cond body others :: .suite rest :: stack) store =
          .worked (.suite body :: .whileLoop cond body others :: .suite rest :: stack)
            store' := by
        simp only [micro, htest, Event.ofTest]
      simp [oneUnit_of_worked hmove, idle_body hbody, RunsOn, htest]
  | some (false, store') =>
      have hmove : micro (.whileLoop cond body others :: .suite rest :: stack) store =
          .worked (.suite others :: .suite rest :: stack) store' := by
        simp only [micro, htest, Event.ofTest]
      simpa [RunsOn, htest] using oneUnit_failed_iff hmove hothers hrest hframes

theorem oneUnit_forEach_iff (loop : language.Loop) (store : language.Store) :
    OneUnit (.suite (.compound (.forEach loop) body others rest) :: stack) store ↔
      ¬ RunsOn (.suite (.compound (.forEach loop) body others rest) :: stack) store := by
  cases hiter : language.iter loop store with
  | none =>
      have hmove : micro (.suite (.compound (.forEach loop) body others rest) :: stack)
          store = .raised := by simp only [micro, hiter]
      simp [oneUnit_of_raised hmove, RunsOn, hiter]
  | some entered =>
      obtain ⟨iterator, store'⟩ := entered
      have henter : micro (.suite (.compound (.forEach loop) body others rest) :: stack)
          store = .silent (.forLoop loop iterator body others :: .suite rest :: stack)
            store' := by simp only [micro, hiter]
      rw [oneUnit_of_silent henter]
      cases hnext : language.advance loop iterator store' with
      | none =>
          have hmove : micro (.forLoop loop iterator body others :: .suite rest :: stack)
              store' = .raised := by simp only [micro, hnext]
          simp [oneUnit_of_raised hmove, RunsOn, hiter, hnext]
      | some step =>
          cases step with
          | some advanced =>
              obtain ⟨iterator', store''⟩ := advanced
              have hmove : micro (.forLoop loop iterator body others :: .suite rest :: stack)
                  store' = .worked (.suite body :: .forLoop loop iterator' body others ::
                    .suite rest :: stack) store'' := by simp only [micro, hnext]
              simp [oneUnit_of_worked hmove, idle_body hbody, RunsOn, hiter, hnext]
          | none =>
              have hmove : micro (.forLoop loop iterator body others :: .suite rest :: stack)
                  store' = .worked (.suite others :: .suite rest :: stack) store' := by
                simp only [micro, hnext]
              simpa [RunsOn, hiter, hnext] using
                oneUnit_failed_iff hmove hothers hrest hframes

end Statements

/-- From a checkpoint, a step does at most one unit of work exactly when it
does not run on. -/
theorem Paused.oneUnit_iff {stack : language.Stack} (hpaused : Paused stack)
    (store : language.Store) : OneUnit stack store ↔ ¬ RunsOn stack store := by
  obtain @⟨code, stack, hcode, hframes⟩ := hpaused
  have hloop : ∀ frame ∈ toLoop stack, Frame.Instrumented frame :=
    fun frame hframe => hframes frame (mem_of_mem_toLoop hframe)
  cases code with
  | nil => exact hcode.elim
  | leaf statement rest =>
      cases statement with
      | simple act => exact oneUnit_simple_iff hframes act (paced_of_resumed_leaf hcode) store
      | brk =>
          exact (oneUnit_of_worked rfl).trans
            (idle_iff fun frame hframe => hloop frame (List.mem_of_mem_tail hframe))
      | cont => exact (oneUnit_of_worked rfl).trans (idle_iff hloop)
      | ret => exact (oneUnit_of_worked rfl).trans (by simp [Idle, RunsOn])
      | checkpoint line => exact hcode.elim
  | compound head body others rest =>
      obtain ⟨hbody, hothers, hrest⟩ := hcode
      cases head with
      | ifTest cond => exact oneUnit_ifTest_iff hframes hbody hothers hrest cond store
      | whileTest cond =>
          exact oneUnit_whileTest_iff hframes hbody hothers hrest cond store
      | forEach loop => exact oneUnit_forEach_iff hframes hbody hothers hrest loop store

/-! ## Runs of a thread -/

/-- Scheduling steps of one thread.  A state is the control at a checkpoint and
a label is the control a step starts from together with the store, which the
other threads may have changed since the last step. -/
def ThreadFunction.steps (function : language.ThreadFunction) :
    System language.Stack (language.Stack × language.Store) where
  init stack := ∃ fuel work line store store',
    resume fuel function.call store = some (work, .yielded line stack store')
  step before label after := label.1 = before ∧ ∃ fuel work line store',
    resume fuel before label.2 = some (work, .yielded line after store')

/-- Every checkpoint that a layered or waiting generator comes to is one it
waits at. -/
theorem paused_of_resume {fuel work line : ℕ} {stack after : language.Stack}
    {store store' : language.Store} (hstack : Paused stack ∨ Layered stack)
    (hresume : resume fuel stack store = some (work, .yielded line after store')) :
    Paused after := by
  have hflow : ∀ before after : language.Stack, Paused before ∨ Layered before →
      Flow before after → Paused after ∨ Layered after := by
    rintro before after (hpaused | hlayered) hmove
    · exact .inr (hpaused.flow hmove)
    · exact .inr (hlayered.flow hmove)
  obtain ⟨rest, below, hbefore, rfl⟩ := resume_yielded hflow hstack hresume
  rcases hbefore with ⟨hcode, -⟩ | hlayered
  · exact hcode.elim
  · exact hlayered.paused

theorem paused_of_run {function : language.ThreadFunction}
    {start stack : language.Stack} {labels : List (language.Stack × language.Store)}
    (hinit : function.steps.init start) (hrun : function.steps.Run start labels stack) :
    Paused stack := by
  apply hrun.preserves
  · rintro before label after hbefore ⟨-, fuel, work, line, store', hresume⟩
    exact paused_of_resume (.inl hbefore) hresume
  · obtain ⟨fuel, work, line, store, store', hresume⟩ := hinit
    apply paused_of_resume (.inr (.instrumented _)) hresume
    intro frame hframe
    obtain rfl := List.mem_singleton.mp hframe
    exact paced_instrument (.inr function.suite) _

/-- Every step recorded along a run starts at a checkpoint. -/
theorem paused_of_mem_run {function : language.ThreadFunction}
    {start stack : language.Stack} {labels : List (language.Stack × language.Store)}
    (hinit : function.steps.init start) (hrun : function.steps.Run start labels stack) :
    ∀ label ∈ labels, Paused label.1 := by
  induction hrun with
  | nil => simp
  | snoc hbefore hstep ih =>
      intro label hlabel
      rcases List.mem_append.mp hlabel with hearlier | hlast
      · exact ih label hearlier
      · obtain rfl := List.mem_singleton.mp hlast
        rw [hstep.1]
        exact paused_of_run hinit hbefore

/-- In every run of every instrumented thread, the steps, a last one from the
control reached included, each perform at most one simple statement or header
test exactly when none of them runs on. -/
theorem one_unit_per_step_iff (function : language.ThreadFunction)
    {start stack : language.Stack} {labels : List (language.Stack × language.Store)}
    (hinit : function.steps.init start) (hrun : function.steps.Run start labels stack)
    (store : language.Store) :
    (∀ label ∈ labels ++ [(stack, store)], OneUnit label.1 label.2) ↔
      ∀ label ∈ labels ++ [(stack, store)], ¬ RunsOn label.1 label.2 := by
  apply forall₂_congr
  intro label hlabel
  apply Paused.oneUnit_iff
  rcases List.mem_append.mp hlabel with hearlier | hlast
  · exact paused_of_mem_run hinit hrun label hearlier
  · obtain rfl := List.mem_singleton.mp hlast
    exact paused_of_run hinit hrun

/-- Replay a schedule: before each step the other threads change the store. -/
def follow (fuel : ℕ) : List (language.Store → language.Store) →
    language.Stack → language.Store →
      Option (List (language.Stack × language.Store) × language.Stack × language.Store)
  | [], stack, store => some ([], stack, store)
  | change :: changes, stack, store =>
      match resume fuel stack (change store) with
      | some (_, .yielded _ stack' store') =>
          (follow fuel changes stack' store').map fun (labels, last) =>
            ((stack, change store) :: labels, last)
      | _ => none

theorem follow_run {function : language.ThreadFunction} {fuel : ℕ}
    {changes : List (language.Store → language.Store)}
    {labels : List (language.Stack × language.Store)}
    {start stack : language.Stack} {store store' : language.Store}
    (hfollow : follow fuel changes start store = some (labels, stack, store')) :
    function.steps.Run start labels stack := by
  induction changes generalizing start store labels with
  | nil =>
      cases hfollow
      exact .nil
  | cons change changes ih =>
      unfold follow at hfollow
      split at hfollow
      case h_1 work line middle store₁ hresume =>
        obtain ⟨⟨more, last⟩, hrest, heq⟩ := Option.map_eq_some_iff.mp hfollow
        cases heq
        have hfirst : function.steps.Run start [(start, change store)] middle :=
          System.Run.single ⟨rfl, fuel, work, line, store₁, hresume⟩
        exact hfirst.append (ih hrest)
      case h_2 => cases hfollow

end JyyOS.ModelChecker.Language

/-! ## Dekker's algorithm (`dekker.py`) -/

namespace JyyOS.ModelChecker

open Transition
open JyyOS.ModelChecker.Language

/-- The attributes of `Dekker` and the local variables of one of its threads. -/
structure Dekker where
  flag : List Bool
  turn : ℕ
  this : Option ℕ
  another : Option ℕ
  cs : Option Bool

namespace Dekker

def setFlag (value : Bool) (state : Dekker) : Option Dekker := do
  let this ← state.this
  if this < state.flag.length then
    some { state with flag := state.flag.set this value }
  else none

def flagAnother (state : Dekker) : Option (Bool × Dekker) := do
  let another ← state.another
  let value ← state.flag[another]?
  some (value, state)

def turnIsAnother (state : Dekker) : Option (Bool × Dekker) := do
  let another ← state.another
  some (state.turn == another, state)

def setTurn (state : Dekker) : Option Dekker := do
  let another ← state.another
  some { state with turn := another }

def delCs (state : Dekker) : Option Dekker := do
  let _ ← state.cs
  some { state with cs := none }

def language : Language where
  Act := Dekker → Option Dekker
  Cond := Dekker → Option (Bool × Dekker)
  Loop := Empty
  Store := Dekker
  Iterator := Empty
  exec act := act
  test cond := cond
  iter loop := nomatch loop
  advance loop := nomatch loop

/-- The `while self.flag[another]` statement. -/
def retreat (rest : language.Code) : language.Code :=
  .compound (.whileTest flagAnother)
    (.compound (.ifTest turnIsAnother)
      (.leaf (.simple (setFlag false))
        (.compound (.whileTest turnIsAnother)
          (.leaf (.simple some) .nil) .nil
          (.leaf (.simple (setFlag true)) .nil)))
      .nil .nil)
    .nil rest

/-- The body of `t1` with `this, another = 0, 1`, and of `t2` with
`this, another = 1, 0`. -/
def body (this another : ℕ) : language.Code :=
  .leaf (.simple fun state => some { state with this := this, another := another })
    (.compound (.whileTest fun state => some (true, state))
      (.leaf (.simple (setFlag true))
        (retreat
          (.leaf (.simple fun state => some { state with cs := some true })
            (.leaf (.simple delCs)
              (.leaf (.simple setTurn)
                (.leaf (.simple (setFlag false)) .nil))))))
      .nil .nil)

def t1 : language.ThreadFunction where
  name := "t1"
  body := body 0 1
  suite := by simp [body, retreat, Body.Suite]
  line := 6

def new : Dekker where
  flag := [false, false]
  turn := 0
  this := none
  another := none
  cs := none

/-- `t1` passes through its critical section and enters again while `t2` also
wants to; it retreats, and `t2` hands it the turn. -/
def schedule : List (Dekker → Dekker) :=
  List.replicate 9 id ++
    [fun state => { state with flag := state.flag.set 1 true }, id, id,
      fun state => { state with turn := 0 }]

/-- Where `t1` waits when it starts. -/
def first : language.Stack :=
  match resume 2 t1.call new with
  | some (_, .yielded _ stack _) => stack
  | _ => []

/-- `t1` wants to enter, `t2` has its flag set and the turn, and `t1` takes its flag
back. -/
def contended : List (Dekker → Dekker) :=
  [id, id, id, fun state => { state with flag := state.flag.set 1 true, turn := 1 }, id, id]

/-- The steps of `t1` up to its wait for the turn, which `t2` has handed over when it
tests for it. -/
def retreating : List (language.Stack × language.Store) :=
  match follow 10 contended first new with
  | some (labels, stack, store) => labels ++ [(stack, { store with turn := 0 })]
  | none => []

/-- None of these steps runs on: the tests of both loops and of the `if` are steps of their
own. -/
theorem one_unit_retreating :
    retreating.length = 7 ∧ (∀ label ∈ retreating, ¬ RunsOn label.1 label.2) ∧
      ∀ label ∈ retreating, OneUnit label.1 label.2 := by
  have hstay : ∀ label ∈ retreating, ¬ RunsOn label.1 label.2 := by
    refine List.forall_mem_cons.mpr ⟨fun hruns => hruns.2, ?_⟩
    refine List.forall_mem_cons.mpr ⟨fun hruns => ?_, ?_⟩
    · obtain ⟨⟨_, htest⟩, -⟩ := hruns
      cases htest
    refine List.forall_mem_cons.mpr ⟨fun hruns => hruns.2, ?_⟩
    refine List.forall_mem_cons.mpr ⟨fun hruns => ?_, ?_⟩
    · obtain ⟨⟨_, htest⟩, -⟩ := hruns
      cases htest
    refine List.forall_mem_cons.mpr ⟨fun hruns => ?_, ?_⟩
    · obtain ⟨⟨_, htest⟩, -⟩ := hruns
      cases htest
    refine List.forall_mem_cons.mpr ⟨fun hruns => hruns.2, ?_⟩
    refine List.forall_mem_singleton.mpr fun hruns => ?_
    obtain ⟨-, hothers | hfalls⟩ := hruns
    · exact hothers rfl
    · exact hfalls
  have hinit : t1.steps.init first := ⟨2, 0, 6, new, new, rfl⟩
  have hfollow : follow 10 contended first new = some _ := rfl
  exact ⟨rfl, hstay,
    (one_unit_per_step_iff t1 hinit (follow_run hfollow) _).mpr hstay⟩

/-- The steps of the schedule, the control that `t1` then waits with and the
store. -/
def retreated :
    List (language.Stack × language.Store) × language.Stack × language.Store :=
  (follow 10 schedule first new).getD ([], [], new)

/-- Along this schedule `t1` comes to wait before the `self.flag[this] = True`
that ends the loop, and the step from there also repeats the test of
`self.flag[another]`. -/
theorem not_one_unit_per_step :
    ¬ ∀ (start stack : language.Stack)
      (labels : List (language.Stack × language.Store)) (store : language.Store),
      t1.steps.init start → t1.steps.Run start labels stack →
        OneUnit stack store := by
  intro hall
  have hinit : t1.steps.init first := ⟨2, 0, 6, new, new, rfl⟩
  have hfollow : follow 10 schedule first new = some retreated := rfl
  have hunit := hall _ _ _ retreated.2.2 hinit (follow_run hfollow)
  exact (oneUnit_of_worked rfl).mp hunit

end Dekker

end JyyOS.ModelChecker
