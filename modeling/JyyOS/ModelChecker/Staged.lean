import JyyOS.ModelChecker.Execute
import Mathlib.Data.List.Infix

/-!
# Classes whose threads go from point to point

Most checked classes have threads whose control between two checkpoints depends
on a place in the program only.  `Staged` says so of a class: at each point it
names the generator, and what the thread does up to its next point.  The traces
that `execute` replays are then runs of a transition system on points.
-/

namespace JyyOS.ModelChecker

/-- Threads that are named by a list of ids have different ones. -/
theorem get_cast_injective {Id : Type} {ids : List Id} (hids : ids.Nodup) {count : ℕ}
    (hcount : count = ids.length) :
    Function.Injective fun index : Fin count => ids.get (index.cast hcount) := by
  intro first second hid
  have hcast := (List.nodup_iff_injective_get.mp hids) hid
  exact Fin.cast_injective _ hcast

/-- A string of a checked class. -/
abbrev Str := List Char

/-- Different ids of one character each are different characters. -/
theorem exists_chars {ids : List Str} (hids : ids.Nodup)
    (hone : ∀ id ∈ ids, id.length = 1) {count : ℕ} (hcount : count = ids.length) :
    ∃ char : Fin count → Char, Function.Injective char ∧
      ∀ index, ids.get (index.cast hcount) = [char index] := by
  have hchar : ∀ index : Fin count, ∃ char, ids.get (index.cast hcount) = [char] := by
    intro index
    exact List.length_eq_one_iff.mp (hone _ (List.get_mem ids _))
  choose char hchar using hchar
  refine ⟨char, ?_, hchar⟩
  intro first second heq
  apply get_cast_injective hids hcount
  show ids.get _ = ids.get _
  rw [hchar, hchar, heq]

/-- Control points for the threads of a class.  `advance` runs a thread from a
point to its next point, or to its end. -/
structure Staged (Class : CheckedClass) where
  Point : Type
  start : Point
  gen : Class.Thread → Point → Class.Gen
  advance : Class.Thread → Point → Class.Obj → Option Point × Class.Obj
  call_yields : ∀ thread obj, ∃ entry, Class.next (Class.call thread) obj =
    some (.yielded entry (gen thread start) obj)
  gen_yields : ∀ thread point obj point', (advance thread point obj).1 = some point' →
    ∃ entry, Class.next (gen thread point) obj =
      some (.yielded entry (gen thread point') (advance thread point obj).2)
  gen_stops : ∀ thread point obj, (advance thread point obj).1 = none →
    Class.next (gen thread point) obj = some (.stopped (advance thread point obj).2)

namespace Staged

variable {Class : CheckedClass}

/-- The object and the point of each thread, `none` for one that has ended. -/
structure State (staged : Staged Class) where
  obj : Class.Obj
  points : Class.Thread → Option staged.Point

variable (staged : Staged Class)

def init : staged.State := ⟨Class.new, fun _ => some staged.start⟩

variable {staged}

def State.step (state : staged.State) (chosen : Class.Thread) : staged.State :=
  match state.points chosen with
  | none => state
  | some point =>
      { obj := (staged.advance chosen point state.obj).2
        points := Function.update state.points chosen
          (staged.advance chosen point state.obj).1 }

variable (staged)

def run (trace : List Class.Thread) : staged.State := trace.foldl State.step staged.init

variable {staged}

theorem run_snoc (trace : List Class.Thread) (chosen : Class.Thread) :
    staged.run (trace ++ [chosen]) = (staged.run trace).step chosen := by
  rw [run, List.foldl_append]
  rfl

theorem State.step_of_point {state : staged.State} {chosen : Class.Thread}
    {point : staged.Point} (hpoint : state.points chosen = some point) :
    state.step chosen =
      { obj := (staged.advance chosen point state.obj).2
        points := Function.update state.points chosen
          (staged.advance chosen point state.obj).1 } := by
  rw [step, hpoint]

theorem State.step_of_end {state : staged.State} {chosen : Class.Thread}
    (hpoint : state.points chosen = none) : state.step chosen = state := by
  rw [step, hpoint]

/-- What the steps of a trace add to a log. -/
def log {α : Type} (write : staged.State → Class.Thread → List α)
    (trace : List Class.Thread) : List α :=
  (trace.foldl (fun (past : staged.State × List α) chosen =>
    (past.1.step chosen, past.2 ++ write past.1 chosen)) (staged.init, [])).2

theorem log_snoc {α : Type} (write : staged.State → Class.Thread → List α)
    (trace : List Class.Thread) (chosen : Class.Thread) :
    log write (trace ++ [chosen]) =
      log write trace ++ write (staged.run trace) chosen := by
  have hstate : ∀ trace : List Class.Thread,
      (trace.foldl (fun (past : staged.State × List α) chosen =>
        (past.1.step chosen, past.2 ++ write past.1 chosen)) (staged.init, [])).1 =
      staged.run trace := by
    intro trace
    induction trace using List.reverseRecOn with
    | nil => rfl
    | append_singleton trace chosen ih =>
        rw [run_snoc, List.foldl_append, ← ih]
        rfl
  rw [log, log, List.foldl_append, ← hstate trace]
  rfl

/-- A property of the initial state that every step keeps holds along every
trace. -/
theorem run_induction {P : staged.State → Prop} (hinit : P staged.init)
    (hstep : ∀ state chosen, P state → P (state.step chosen))
    (trace : List Class.Thread) : P (staged.run trace) := by
  induction trace using List.reverseRecOn with
  | nil => exact hinit
  | append_singleton trace chosen ih =>
      rw [run_snoc]
      exact hstep _ _ ih

/-- The machine of `execute` is in this state. -/
structure Placed (machine : Class.Machine) (state : staged.State) : Prop where
  obj : machine.obj = state.obj
  gens : ∀ thread, machine.T thread = (state.points thread).map (staged.gen thread)

/-- The loop that starts the generators. -/
theorem foldlM_begin (staged : Staged Class) (todo : List Class.Thread)
    (machine : Class.Machine) :
    ∃ started, todo.foldlM CheckedClass.Machine.begin machine = some started ∧
      started.obj = machine.obj ∧
      ∀ thread, thread ∈ todo ∨
          machine.T thread = some (staged.gen thread staged.start) →
        started.T thread = some (staged.gen thread staged.start) := by
  induction todo generalizing machine with
  | nil => exact ⟨machine, rfl, rfl, by simp⟩
  | cons first todo ih =>
      obtain ⟨entry, hnext⟩ := staged.call_yields first machine.obj
      obtain ⟨started, hfold, hobj, hstarted⟩ := ih
        { obj := machine.obj
          T := Function.update machine.T first (some (staged.gen first staged.start))
          S := Function.update machine.S (Class.threadName first) (some entry) }
      refine ⟨started, ?_, hobj, ?_⟩
      · rw [List.foldlM_cons, CheckedClass.Machine.begin_of_yielded hnext]
        exact hfold
      · intro thread hthread
        apply hstarted
        by_cases hfirst : thread = first
        · subst hfirst
          exact .inr (Function.update_self ..)
        · simp only [Function.update_of_ne hfirst]
          exact hthread.imp_left fun hmem => (List.mem_cons.mp hmem).resolve_left hfirst

/-- One round of the scheduling loop is one step. -/
theorem Placed.resume {machine : Class.Machine} {state : staged.State}
    (hplaced : Placed machine state) (chosen : Class.Thread) :
    ∃ after, machine.resume chosen = some after ∧ Placed after (state.step chosen) := by
  have hgen := hplaced.gens chosen
  cases hpoint : state.points chosen with
  | none =>
      rw [hpoint] at hgen
      refine ⟨machine, ?_, ?_⟩
      · simp only [CheckedClass.Machine.resume, hgen, Option.map_none]
      · rwa [State.step_of_end hpoint]
  | some point =>
      rw [hpoint] at hgen
      have hothers : ∀ (next : Option staged.Point) thread,
          Function.update machine.T chosen (next.map (staged.gen chosen)) thread =
            (Function.update state.points chosen next thread).map
              (staged.gen thread) := by
        intro next thread
        by_cases hthread : thread = chosen
        · subst hthread
          simp only [Function.update_self]
        · simp only [Function.update_of_ne hthread]
          exact hplaced.gens thread
      rw [State.step_of_point hpoint, ← hplaced.obj]
      cases hnext : (staged.advance chosen point machine.obj).1 with
      | some point' =>
          obtain ⟨entry, hyields⟩ := staged.gen_yields chosen point machine.obj point' hnext
          exact ⟨_, CheckedClass.Machine.resume_of_yielded hgen hyields, rfl,
            hothers (some point')⟩
      | none =>
          have hstops := staged.gen_stops chosen point machine.obj hnext
          exact ⟨_, CheckedClass.Machine.resume_of_stopped hgen hstops, rfl, hothers none⟩

/-- What `execute` replays is a run. -/
theorem replay_placed (staged : Staged Class) (trace : List Class.Thread) :
    ∃ machine, Class.replay trace = some machine ∧ Placed machine (staged.run trace) := by
  induction trace using List.reverseRecOn with
  | nil =>
      obtain ⟨started, hfold, hobj, hstarted⟩ := foldlM_begin staged
        (List.finRange Class.threads.length)
        { obj := Class.new
          T := fun thread => some (Class.call thread)
          S := fun _ => none }
      refine ⟨started, Option.bind_eq_some_iff.mpr ⟨started, hfold, rfl⟩, hobj, ?_⟩
      intro thread
      exact hstarted thread (.inl (List.mem_finRange thread))
  | append_singleton trace chosen ih =>
      obtain ⟨machine, hreplay, hplaced⟩ := ih
      obtain ⟨after, hresume, hafter⟩ := hplaced.resume chosen
      refine ⟨after, ?_, ?_⟩
      · rw [CheckedClass.replay_snoc, hreplay, Option.bind_some, hresume]
      · rwa [run_snoc]

theorem placed_of_replay (staged : Staged Class) {trace : List Class.Thread}
    {machine : Class.Machine} (hreplay : Class.replay trace = some machine) :
    Placed machine (staged.run trace) := by
  obtain ⟨found, hfound, hplaced⟩ := replay_placed staged trace
  rw [hreplay] at hfound
  cases hfound
  exact hplaced

end Staged

end JyyOS.ModelChecker
