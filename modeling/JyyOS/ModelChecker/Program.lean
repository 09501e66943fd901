import JyyOS.Core.Fairness
import JyyOS.ModelChecker.Python
import JyyOS.ModelChecker.Staged

/-!
# Checked classes from their thread functions

The statements of a checked class read and write the attributes of `self` and the
local variables of their thread.  A class is put together from one function for each
thread; `Endless` describes by its control points a class whose threads never end,
and says what a trace of the checker is in these terms.
-/

namespace JyyOS.ModelChecker

open JyyOS.ModelChecker.Language

/-- The attributes of the object and the locals of one thread. -/
structure Scope (Obj Locals : Type) where
  self : Obj
  locals : Locals

/-- `for ... in range(stop)` with its assignment of the loop variable. -/
structure Range (Obj Locals : Type) where
  stop : ℕ
  assign : ℕ → Locals → Locals

def overScope (Obj Locals : Type) : Language where
  Act := Scope Obj Locals → Option (Scope Obj Locals)
  Cond := Scope Obj Locals → Option (Bool × Scope Obj Locals)
  Loop := Range Obj Locals
  Store := Scope Obj Locals
  Iterator := ℕ
  exec act := act
  test cond := cond
  iter _ scope := some (0, scope)
  advance loop next scope :=
    some (if next < loop.stop then
        some (next + 1, { scope with locals := loop.assign next scope.locals })
      else none)

/-- `while True` -/
def forever {Obj Locals : Type} (scope : Scope Obj Locals) :
    Option (Bool × Scope Obj Locals) := some (true, scope)

/-- An `if` performs its test and goes on. -/
theorem resume_ifTest {language : Language} {cond : language.Cond}
    {body others rest : language.Code} {stack : language.Stack} {store store' : language.Store}
    {holds : Bool} (htest : language.test cond store = some (holds, store')) (fuel : ℕ) :
    resume (fuel + 1) (.suite (.compound (.ifTest cond) body others rest) :: stack) store =
      (resume fuel ((if holds then .suite body else .suite others) :: .suite rest :: stack)
        store').map fun (work, outcome) => (work + 1, outcome) := by
  have hmicro : micro (.suite (.compound (.ifTest cond) body others rest) :: stack) store =
      .worked ((if holds then .suite body else .suite others) :: .suite rest :: stack)
        store' := by
    simp only [micro, htest]
    cases holds <;> rfl
  simp only [resume, hmicro]

/-- What is found behind a move is found by the move. -/
theorem exists_resume_map {language : Language} {fuel : ℕ} {stack : language.Stack}
    {store : language.Store} {found : ℕ → language.Outcome}
    (hresume : ∃ work next, resume fuel stack store = some (work, found next)) :
    ∃ work next, ((resume fuel stack store).map fun (work, outcome) => (work + 1, outcome)) =
      some (work, found next) := by
  obtain ⟨work, next, hrest⟩ := hresume
  rw [hrest]
  exact ⟨_, _, rfl⟩

/-- A class with a thread function for each id. -/
structure Program (Id Obj Locals Value : Type) where
  ids : List Id
  function : Id → (overScope Obj Locals).ThreadFunction
  new : Obj
  unbound : Locals
  attrs : Obj → List (String × Value)

namespace Program

variable {Id Obj Locals Value : Type}

/-- What the recorded state holds: a line with the locals there, or an attribute. -/
inductive Entry (Locals Value : Type) where
  | point (line : ℕ) (locals : Locals)
  | attr (value : Value)

structure Gen (Obj Locals : Type) where
  stack : (overScope Obj Locals).Stack
  locals : Locals

variable (program : Program Id Obj Locals Value)

abbrev threads : List String := program.ids.map fun id => (program.function id).name

def idOf (index : Fin program.threads.length) : Id :=
  program.ids.get (index.cast (List.length_map _))

/-- Every resumption of a thread is given `fuel`. -/
abbrev checked (fuel : ℕ) : CheckedClass where
  Obj := Obj
  Gen := Gen Obj Locals
  Entry := Entry Locals Value
  Value := Entry Locals Value
  threads := program.threads
  new := program.new
  call index := ⟨(program.function (program.idOf index)).call, program.unbound⟩
  next gen obj :=
    match resume fuel gen.stack ⟨obj, gen.locals⟩ with
    | some (_, .yielded line stack scope) =>
        some (.yielded (.point line scope.locals) ⟨stack, scope.locals⟩ scope.self)
    | some (_, .stopped scope) => some (.stopped scope.self)
    | _ => none
  attrs obj := (program.attrs obj).map fun entry => (entry.1, .attr entry.2)
  read _ entry := entry

variable {program}

theorem idOf_injective (hids : program.ids.Nodup) : Function.Injective program.idOf :=
  get_cast_injective hids _

theorem exists_idOf {id : Id} (hid : id ∈ program.ids) : ∃ index, program.idOf index = id := by
  obtain ⟨k, hk, rfl⟩ := List.getElem_of_mem hid
  exact ⟨⟨k, by rwa [threads, List.length_map]⟩, rfl⟩

/-- `localvar(state, t, ...)` for a variable that is only ever bound to `True`. -/
def Sets {fuel : ℕ} (var : Locals → Option Bool) (machine : (program.checked fuel).Machine)
    (index : (program.checked fuel).Thread) : Prop :=
  ∃ gen, machine.T index = some gen ∧ var gen.locals = some true

end Program

/-! ## Threads that never end -/

/-- The object, and where each thread is. -/
structure Places (Id Obj Point : Type) where
  obj : Obj
  point : Id → Point

/-- The control points of a program whose threads never end.  `advance` runs a thread
from a point to its next point. -/
structure Endless {Id Obj Locals Value : Type} (program : Program Id Obj Locals Value)
    (fuel : ℕ) where
  Point : Type
  start : Point
  stack : Id → Point → (overScope Obj Locals).Stack
  locals : Id → Point → Locals
  advance : Id → Point → Obj → Point × Obj
  call_yields : ∀ id obj, ∃ work line,
    resume fuel (program.function id).call ⟨obj, program.unbound⟩ =
      some (work, .yielded line (stack id start) ⟨obj, locals id start⟩)
  point_yields : ∀ id point obj, ∃ work line,
    resume fuel (stack id point) ⟨obj, locals id point⟩ =
      some (work, .yielded line (stack id (advance id point obj).1)
        ⟨(advance id point obj).2, locals id (advance id point obj).1⟩)

namespace Endless

variable {Id Obj Locals Value : Type} {program : Program Id Obj Locals Value} {fuel : ℕ}

def staged (endless : Endless program fuel) : Staged (program.checked fuel) where
  Point := endless.Point
  start := endless.start
  gen index point :=
    ⟨endless.stack (program.idOf index) point, endless.locals (program.idOf index) point⟩
  advance index point obj :=
    (some (endless.advance (program.idOf index) point obj).1,
      (endless.advance (program.idOf index) point obj).2)
  call_yields index obj := by
    obtain ⟨work, line, hresume⟩ := endless.call_yields (program.idOf index) obj
    refine ⟨.point line (endless.locals (program.idOf index) endless.start), ?_⟩
    simp only [hresume]
  gen_yields index point obj point' hpoint := by
    cases hpoint
    obtain ⟨work, line, hresume⟩ := endless.point_yields (program.idOf index) point obj
    refine ⟨.point line (endless.locals (program.idOf index)
      (endless.advance (program.idOf index) point obj).1), ?_⟩
    simp only [hresume]
  gen_stops _ _ _ hpoint := by cases hpoint

variable [DecidableEq Id] (endless : Endless program fuel)

def init : Places Id Obj endless.Point := ⟨program.new, fun _ => endless.start⟩

def step (places : Places Id Obj endless.Point) (id : Id) : Places Id Obj endless.Point where
  obj := (endless.advance id (places.point id) places.obj).2
  point := Function.update places.point id
    (endless.advance id (places.point id) places.obj).1

def run (trace : List Id) : Places Id Obj endless.Point := trace.foldl endless.step endless.init

variable {endless}

theorem run_snoc (trace : List Id) (id : Id) :
    endless.run (trace ++ [id]) = endless.step (endless.run trace) id := by
  rw [run, List.foldl_append]
  rfl

theorem run_induction {P : Places Id Obj endless.Point → Prop} (hinit : P endless.init)
    (hstep : ∀ places id, P places → P (endless.step places id)) (trace : List Id) :
    P (endless.run trace) := by
  induction trace using List.reverseRecOn with
  | nil => exact hinit
  | append_singleton trace id ih =>
      rw [run_snoc]
      exact hstep _ _ ih

variable (endless) in
theorem staged_run (hids : program.ids.Nodup) (trace : List (program.checked fuel).Thread) :
    (endless.staged.run trace).obj = (endless.run (trace.map program.idOf)).obj ∧
      ∀ index, (endless.staged.run trace).points index =
        some ((endless.run (trace.map program.idOf)).point (program.idOf index)) := by
  induction trace using List.reverseRecOn with
  | nil => exact ⟨rfl, fun _ => rfl⟩
  | append_singleton trace chosen ih =>
      obtain ⟨hobj, hpoints⟩ := ih
      rw [Staged.run_snoc, Staged.State.step_of_point (hpoints chosen), List.map_append,
        List.map_singleton, run_snoc, hobj]
      refine ⟨rfl, fun index => ?_⟩
      by_cases hindex : index = chosen
      · subst hindex
        simp only [Function.update_self, step]
        rfl
      · have hid : program.idOf index ≠ program.idOf chosen :=
          fun hsame => hindex (Program.idOf_injective hids hsame)
        simp only [Function.update_of_ne hindex, hpoints index, step, Function.update_of_ne hid]
        rfl

/-- The machine of `execute` has every thread at its place. -/
structure Placed (machine : (program.checked fuel).Machine)
    (places : Places Id Obj endless.Point) : Prop where
  obj : machine.obj = places.obj
  gens : ∀ index, machine.T index = some
    ⟨endless.stack (program.idOf index) (places.point (program.idOf index)),
      endless.locals (program.idOf index) (places.point (program.idOf index))⟩

/-- What `execute` replays is a run. -/
theorem replay_placed (endless : Endless program fuel) (hids : program.ids.Nodup)
    (trace : List (program.checked fuel).Thread) :
    ∃ machine, (program.checked fuel).replay trace = some machine ∧
      Placed machine (endless.run (trace.map program.idOf)) := by
  obtain ⟨machine, hreplay, hplaced⟩ := Staged.replay_placed endless.staged trace
  obtain ⟨hobj, hpoints⟩ := staged_run endless hids trace
  refine ⟨machine, hreplay, hplaced.obj.trans hobj, fun index => ?_⟩
  rw [hplaced.gens, hpoints]
  rfl

omit [DecidableEq Id] in
theorem Placed.sets_iff {machine : (program.checked fuel).Machine}
    {places : Places Id Obj endless.Point} (hplaced : Placed machine places)
    (var : Locals → Option Bool) (index : (program.checked fuel).Thread) :
    Program.Sets var machine index ↔ var (endless.locals (program.idOf index)
      (places.point (program.idOf index))) = some true := by
  rw [Program.Sets, hplaced.gens index]
  constructor
  · rintro ⟨gen, hgen, hset⟩
    cases hgen
    exact hset
  · exact fun hset => ⟨_, rfl, hset⟩

/-- Under a fair schedule of the class, what the threads are led to is found again and
again in what `execute` replays. -/
theorem exists_replay_of_leadsTo (hids : program.ids.Nodup) (hall : ∀ id, id ∈ program.ids)
    {P Q : Places Id Obj endless.Point → Prop} (hinit : P endless.init)
    (hstep : ∀ places id, P places → P (endless.step places id))
    (hleads : Fairness.LeadsTo endless.step P Q) {schedule : ℕ → (program.checked fuel).Thread}
    (hfair : Fairness.Fair schedule) (n : ℕ) :
    ∃ m machine places, n ≤ m ∧
      (program.checked fuel).replay ((List.range m).map schedule) = some machine ∧
      Placed machine places ∧ Q places := by
  have hturns : Fairness.Fair fun k => program.idOf (schedule k) := by
    intro id k
    obtain ⟨index, rfl⟩ := Program.exists_idOf (hall id)
    obtain ⟨m, hle, hturn⟩ := hfair index k
    exact ⟨m, hle, congrArg program.idOf hturn⟩
  obtain ⟨m, hle, hgoal⟩ := hleads.infinitely_often hstep hturns hinit n
  obtain ⟨machine, hreplay, hplaced⟩ :=
    replay_placed endless hids ((List.range m).map schedule)
  refine ⟨m, machine, _, hle, hreplay, hplaced, ?_⟩
  rwa [Fairness.run_eq_foldl, ← run, ← Function.comp_def program.idOf schedule,
    ← List.map_map] at hgoal

end Endless

/-! ## Two threads -/

/-- The threads of a class with two of them. -/
inductive Side where
  | t1 | t2
deriving DecidableEq

def Side.other : Side → Side
  | .t1 => .t2
  | .t2 => .t1

def Side.name : Side → String
  | .t1 => "t1"
  | .t2 => "t2"

theorem Side.eq_or_eq_other (side thread : Side) : thread = side ∨ thread = side.other := by
  cases side <;> cases thread <;> simp [other]

@[simp] theorem Side.other_other (side : Side) : side.other.other = side := by
  cases side <;> rfl

theorem Side.other_ne (side : Side) : side.other ≠ side := by
  cases side <;> nofun

theorem Side.mem_both (side : Side) : side ∈ [t1, t2] := by
  cases side <;> decide

namespace Endless

variable {Obj Locals Value : Type} {program : Program Side Obj Locals Value} {fuel : ℕ}

/-- When an invariant keeps the two threads from setting the variable both, no two
threads of a replayed machine do. -/
theorem excludes (endless : Endless program fuel) (hids : program.ids.Nodup)
    (var : Locals → Option Bool) {P : Places Side Obj endless.Point → Prop}
    (hinit : P endless.init) (hstep : ∀ places side, P places → P (endless.step places side))
    (halone : ∀ places side, P places →
      var (endless.locals side (places.point side)) = some true →
      var (endless.locals side.other (places.point side.other)) ≠ some true)
    (trace : List (program.checked fuel).Thread) :
    ∃ machine, (program.checked fuel).replay trace = some machine ∧
      ∀ first second, Program.Sets var machine first → Program.Sets var machine second →
        first = second := by
  obtain ⟨machine, hreplay, hplaced⟩ := replay_placed endless hids trace
  refine ⟨machine, hreplay, fun first second hfirst hsecond => ?_⟩
  rw [hplaced.sets_iff] at hfirst hsecond
  apply Program.idOf_injective hids
  obtain hsame | hother := (program.idOf first).eq_or_eq_other (program.idOf second)
  · exact hsame.symm
  · rw [hother] at hsecond
    exact absurd hsecond (halone _ _ (run_induction hinit hstep _) hfirst)

/-- What sends each thread into a critical section from any state of an invariant sends
it there again and again in what `execute` replays. -/
theorem serves (hids : program.ids = [.t1, .t2]) (var : Locals → Option Bool)
    (endless : Endless program fuel) {P : Places Side Obj endless.Point → Prop}
    (hinit : P endless.init) (hstep : ∀ places side, P places → P (endless.step places side))
    (hleads : ∀ side, Fairness.LeadsTo endless.step P fun places =>
      var (endless.locals side (places.point side)) = some true)
    {schedule : ℕ → (program.checked fuel).Thread} (hfair : Fairness.Fair schedule)
    (index : (program.checked fuel).Thread) (n : ℕ) :
    ∃ m machine, n ≤ m ∧
      (program.checked fuel).replay ((List.range m).map schedule) = some machine ∧
      Program.Sets var machine index := by
  have hnodup : program.ids.Nodup := by
    rw [hids]
    decide
  have hall : ∀ side, side ∈ program.ids := by
    rw [hids]
    exact Side.mem_both
  obtain ⟨m, machine, places, hle, hreplay, hplaced, hset⟩ :=
    exists_replay_of_leadsTo hnodup hall hinit hstep (hleads (program.idOf index)) hfair n
  exact ⟨m, machine, hle, hreplay, (hplaced.sets_iff var index).mpr hset⟩

end Endless

end JyyOS.ModelChecker
