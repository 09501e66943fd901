import Mathlib.Data.List.Basic
import Mathlib.Tactic

/-!
# Labelled transition systems and their finite runs

Every concurrent component of the development is an initial-state predicate
together with one labelled step relation.  This module fixes what a finite run
is and proves the invariant rule once: a predicate that holds initially and is
kept by each step taken from a reachable state holds of every reachable state.
-/

namespace JyyOS.Transition

variable {State Label : Type*}

/-- Initial states and one-step relation of a labelled transition system. -/
structure System (State Label : Type*) where
  init : State → Prop
  step : State → Label → State → Prop

namespace System

/-- Finite runs, extended on the right so that the last label is the most
recent step. -/
inductive Run (system : System State Label) (start : State) :
    List Label → State → Prop
  | nil : Run system start [] start
  | snoc {labels : List Label} {middle finish : State} {label : Label} :
      Run system start labels middle → system.step middle label finish →
        Run system start (labels ++ [label]) finish

def Reachable (system : System State Label) (state : State) : Prop :=
  ∃ start labels, system.init start ∧ system.Run start labels state

variable {system : System State Label}

theorem Run.append {start middle finish : State} {first second : List Label}
    (hfirst : system.Run start first middle)
    (hsecond : system.Run middle second finish) :
    system.Run start (first ++ second) finish := by
  induction hsecond with
  | nil => simpa using hfirst
  | snoc _ hstep ih =>
      rw [← List.append_assoc]
      exact Run.snoc ih hstep

theorem Run.single {start finish : State} {label : Label}
    (hstep : system.step start label finish) :
    system.Run start [label] finish := by
  simpa using Run.snoc Run.nil hstep

/-- A property kept by every step is kept by every run. -/
theorem Run.preserves {P : State → Prop}
    (hpreserve : ∀ before label after, P before →
      system.step before label after → P after)
    {start finish : State} {labels : List Label}
    (hrun : system.Run start labels finish) (hstart : P start) :
    P finish := by
  induction hrun with
  | nil => exact hstart
  | snoc _ hstep ih => exact hpreserve _ _ _ ih hstep

/-- A run of a system whose steps are all steps of another one. -/
theorem Run.mono {other : System State Label}
    (hstep : ∀ before label after, system.step before label after →
      other.step before label after)
    {start finish : State} {labels : List Label}
    (hrun : system.Run start labels finish) : other.Run start labels finish := by
  induction hrun with
  | nil => exact Run.nil
  | snoc _ hlast ih => exact Run.snoc ih (hstep _ _ _ hlast)

theorem reachable_of_init {state : State} (hinit : system.init state) :
    system.Reachable state :=
  ⟨state, [], hinit, Run.nil⟩

theorem Reachable.run {middle finish : State} {labels : List Label}
    (hreach : system.Reachable middle)
    (hrun : system.Run middle labels finish) :
    system.Reachable finish := by
  obtain ⟨start, first, hinit, hfirst⟩ := hreach
  exact ⟨start, first ++ labels, hinit, hfirst.append hrun⟩

theorem Reachable.step {before after : State} {label : Label}
    (hreach : system.Reachable before)
    (hstep : system.step before label after) :
    system.Reachable after :=
  hreach.run (Run.single hstep)

/-- The invariant rule.  The step obligation may use that the state before
the step is itself reachable, so invariants can be proved one after another. -/
theorem invariant_of_step {I : State → Prop}
    (hinit : ∀ state, system.init state → I state)
    (hstep : ∀ before label after, system.Reachable before →
      I before → system.step before label after → I after)
    {state : State} (hreach : system.Reachable state) : I state := by
  obtain ⟨start, labels, hstart, hrun⟩ := hreach
  induction hrun with
  | nil => exact hinit _ hstart
  | snoc hprefix hlast ih =>
      exact hstep _ _ _ ⟨start, _, hstart, hprefix⟩ ih hlast

/-- The same system with its steps restricted to the admitted labels. -/
def restrict (system : System State Label) (admitted : Label → Prop) :
    System State Label where
  init := system.init
  step before label after := admitted label ∧ system.step before label after

/-- A run with admitted labels only is one of the restricted system. -/
theorem Run.restrict {admitted : Label → Prop} {start finish : State} {labels : List Label}
    (hrun : system.Run start labels finish)
    (hadmitted : ∀ label ∈ labels, admitted label) :
    (system.restrict admitted).Run start labels finish := by
  induction hrun with
  | nil => exact Run.nil
  | snoc _ hstep ih =>
      exact Run.snoc (ih fun label hlabel => hadmitted label (List.mem_append_left _ hlabel))
        ⟨hadmitted _ (by simp), hstep⟩

theorem Reachable.of_restrict {admitted : Label → Prop} {state : State}
    (hreach : (system.restrict admitted).Reachable state) : system.Reachable state := by
  apply invariant_of_step (I := system.Reachable) ?_ ?_ hreach
  · exact fun start hstart => reachable_of_init hstart
  · exact fun before label after _ ih hstep => ih.step hstep.2

/-- The same system with only the steps that are allowed where they start. -/
def guard (system : System State Label) (allowed : State → Label → Prop) :
    System State Label where
  init := system.init
  step before label after :=
    allowed before label ∧ system.step before label after

theorem Run.of_guard {allowed : State → Label → Prop} {start finish : State}
    {labels : List Label} (hrun : (system.guard allowed).Run start labels finish) :
    system.Run start labels finish := by
  induction hrun with
  | nil => exact Run.nil
  | snoc _ hstep ih => exact Run.snoc ih hstep.2

/-- When no reachable step is forbidden, the guard takes nothing away. -/
theorem Reachable.guard {allowed : State → Label → Prop}
    (hallowed : ∀ before label after, system.Reachable before →
      system.step before label after → allowed before label)
    {state : State} (hreach : system.Reachable state) :
    (system.guard allowed).Reachable state := by
  apply invariant_of_step (I := (system.guard allowed).Reachable) ?_ ?_ hreach
  · exact fun start hstart => reachable_of_init hstart
  · exact fun before label after hbefore ih hstep =>
      ih.step ⟨hallowed before label after hbefore hstep, hstep⟩

/-- The system whose steps are the successes of a partial step function. -/
def ofPartial (init : State → Prop) (step : State → Label → Option State) :
    System State Label where
  init := init
  step before label after := step before label = some after

/-- Replaying a list of labels with the step function is a run. -/
theorem run_of_foldlM {init : State → Prop}
    {step : State → Label → Option State} (labels : List Label)
    {start finish : State} (hreplay : labels.foldlM step start = some finish) :
    (ofPartial init step).Run start labels finish := by
  induction labels generalizing start with
  | nil =>
      cases hreplay
      exact Run.nil
  | cons label labels ih =>
      rw [List.foldlM_cons] at hreplay
      obtain ⟨middle, hfirst, hrest⟩ := Option.bind_eq_some_iff.mp hreplay
      exact (Run.single hfirst).append (ih hrest)

end System

end JyyOS.Transition
