import JyyOS.Core.Transition

/-!
# Threads that share one mutex and one condition variable

Every thread is a control-flow graph whose locations lock, unlock, wait,
broadcast, test or update one shared value.  `pthread_cond_wait` is modelled as
it is specified: the thread gives up the mutex and falls asleep in one step, is
woken by a broadcast or spuriously, and has to take the mutex again before it
goes on.

Two rules are proved for arbitrary code and any number of threads.  A proof
outline (an assertion for every location at which the mutex is held) is sound
for every interleaving, and a sleeping thread's reason to sleep stays true
whenever the mutex is free, provided that every change that could invalidate it
is followed by a broadcast before the mutex is released.
-/

namespace JyyOS.Monitor

open JyyOS.Transition

variable {Thread Loc Value : Type*}

inductive Instr (Loc Value : Type*) where
  | lock (next : Loc)
  | unlock (next : Loc)
  | act (effect : Value → Value) (next : Loc)
  | branch (test : Value → Bool) (yes no : Loc)
  | wait (next : Loc)
  | broadcast (next : Loc)

/-- Where a thread is: about to execute a location, asleep in a wait, or woken
and trying to take the mutex again. -/
inductive Mode (Loc : Type*) where
  | running (loc : Loc)
  | asleep (resume : Loc)
  | woken (resume : Loc)

def Mode.wake : Mode Loc → Mode Loc
  | .asleep resume => .woken resume
  | mode => mode

theorem Mode.wake_eq_running {mode : Mode Loc} {loc : Loc}
    (hwake : mode.wake = .running loc) : mode = .running loc := by
  cases mode with
  | running other => exact hwake
  | asleep resume | woken resume => cases hwake

theorem Mode.wake_ne_asleep (mode : Mode Loc) (resume : Loc) :
    mode.wake ≠ .asleep resume := by
  cases mode <;> exact nofun

theorem Mode.wake_eq_woken {mode : Mode Loc} {resume : Loc}
    (hwake : mode.wake = .woken resume) :
    mode = .asleep resume ∨ mode = .woken resume := by
  cases mode with
  | running loc => cases hwake
  | asleep other =>
      cases hwake
      exact .inl rfl
  | woken other => exact .inr hwake

structure State (Thread Loc Value : Type*) where
  owner : Option Thread
  mode : Thread → Mode Loc
  value : Value

inductive Label (Thread : Type*) where
  | run (thread : Thread)
  | spurious (thread : Thread)

variable [DecidableEq Thread]

/-- One step of a thread, `none` when it is blocked. -/
def step (code : Thread → Loc → Instr Loc Value)
    (state : State Thread Loc Value) :
    Label Thread → Option (State Thread Loc Value)
  | .run thread =>
      match state.mode thread with
      | .running loc =>
          match code thread loc with
          | .lock next =>
              if state.owner = none then
                some { state with
                  owner := some thread
                  mode := Function.update state.mode thread (.running next) }
              else none
          | .unlock next =>
              some { state with
                owner := none
                mode := Function.update state.mode thread (.running next) }
          | .act effect next =>
              some { state with
                mode := Function.update state.mode thread (.running next)
                value := effect state.value }
          | .branch test yes no =>
              some { state with
                mode := Function.update state.mode thread
                  (.running (if test state.value then yes else no)) }
          | .wait next =>
              some { state with
                owner := none
                mode := Function.update state.mode thread (.asleep next) }
          | .broadcast next =>
              some { state with
                mode := Function.update (fun other => (state.mode other).wake)
                  thread (.running next) }
      | .asleep _ => none
      | .woken resume =>
          if state.owner = none then
            some { state with
              owner := some thread
              mode := Function.update state.mode thread (.running resume) }
          else none
  | .spurious thread =>
      match state.mode thread with
      | .asleep resume =>
          some { state with
            mode := Function.update state.mode thread (.woken resume) }
      | _ => none

def system (code : Thread → Loc → Instr Loc Value)
    (init : State Thread Loc Value) :
    System (State Thread Loc Value) (Label Thread) :=
  System.ofPartial (fun state => state = init) (step code)

/-- The thread cannot move unless another thread does something or it is woken
spuriously. -/
def Blocked (code : Thread → Loc → Instr Loc Value)
    (state : State Thread Loc Value) (thread : Thread) : Prop :=
  step code state (.run thread) = none

/-- The effects a step can have, one constructor per kind of instruction. -/
inductive Effect (code : Thread → Loc → Instr Loc Value)
    (before : State Thread Loc Value) : State Thread Loc Value → Prop
  | lock {thread : Thread} {loc next : Loc} :
      before.mode thread = .running loc → code thread loc = .lock next →
        before.owner = none → Effect code before
          { before with
            owner := some thread
            mode := Function.update before.mode thread (.running next) }
  | unlock {thread : Thread} {loc next : Loc} :
      before.mode thread = .running loc → code thread loc = .unlock next →
        Effect code before
          { before with
            owner := none
            mode := Function.update before.mode thread (.running next) }
  | act {thread : Thread} {loc next : Loc} {effect : Value → Value} :
      before.mode thread = .running loc → code thread loc = .act effect next →
        Effect code before
          { before with
            mode := Function.update before.mode thread (.running next)
            value := effect before.value }
  | branch {thread : Thread} {loc yes no : Loc} {test : Value → Bool} :
      before.mode thread = .running loc →
        code thread loc = .branch test yes no →
        Effect code before
          { before with
            mode := Function.update before.mode thread
              (.running (if test before.value then yes else no)) }
  | wait {thread : Thread} {loc next : Loc} :
      before.mode thread = .running loc → code thread loc = .wait next →
        Effect code before
          { before with
            owner := none
            mode := Function.update before.mode thread (.asleep next) }
  | broadcast {thread : Thread} {loc next : Loc} :
      before.mode thread = .running loc → code thread loc = .broadcast next →
        Effect code before
          { before with
            mode := Function.update (fun other => (before.mode other).wake)
              thread (.running next) }
  | relock {thread : Thread} {resume : Loc} :
      before.mode thread = .woken resume → before.owner = none →
        Effect code before
          { before with
            owner := some thread
            mode := Function.update before.mode thread (.running resume) }
  | spurious {thread : Thread} {resume : Loc} :
      before.mode thread = .asleep resume →
        Effect code before
          { before with
            mode := Function.update before.mode thread (.woken resume) }

theorem step_cases {code : Thread → Loc → Instr Loc Value}
    {before after : State Thread Loc Value} {label : Label Thread}
    (hstep : step code before label = some after) :
    Effect code before after := by
  cases label with
  | run thread =>
      cases hmode : before.mode thread with
      | running loc =>
          cases hcode : code thread loc <;>
            simp only [step, hmode, hcode, Option.some.injEq] at hstep
          case lock next =>
            split at hstep
            · cases hstep
              exact .lock hmode hcode ‹_›
            · cases hstep
          case unlock next => exact hstep ▸ .unlock hmode hcode
          case act effect next => exact hstep ▸ .act hmode hcode
          case branch test yes no => exact hstep ▸ .branch hmode hcode
          case wait next => exact hstep ▸ .wait hmode hcode
          case broadcast next => exact hstep ▸ .broadcast hmode hcode
      | asleep resume => simp [step, hmode] at hstep
      | woken resume =>
          simp only [step, hmode] at hstep
          split at hstep
          · cases hstep
            exact .relock hmode ‹_›
          · cases hstep
  | spurious thread =>
      cases hmode : before.mode thread with
      | running loc => simp [step, hmode] at hstep
      | asleep resume =>
          simp only [step, hmode, Option.some.injEq] at hstep
          exact hstep ▸ .spurious hmode
      | woken resume => simp [step, hmode] at hstep

/-! ## Proof outlines -/

/-- A proof outline: at which locations the mutex is held, the invariant of the
shared value while nobody holds it, and an assertion for every location at
which it is held. -/
structure Outline (Thread Loc Value : Type*) where
  locked : Thread → Loc → Bool
  invariant : Value → Prop
  assertion : Thread → Loc → Value → Prop

namespace Outline

variable (outline : Outline Thread Loc Value)

/-- Sequential proof obligation of one location. -/
def Obligation (thread : Thread) (loc : Loc) : Instr Loc Value → Prop
  | .lock next =>
      outline.locked thread loc = false ∧ outline.locked thread next = true ∧
        ∀ value, outline.invariant value →
          outline.assertion thread next value
  | .unlock next =>
      outline.locked thread loc = true ∧ outline.locked thread next = false ∧
        ∀ value, outline.assertion thread loc value → outline.invariant value
  | .act effect next =>
      outline.locked thread loc = true ∧ outline.locked thread next = true ∧
        ∀ value, outline.assertion thread loc value →
          outline.assertion thread next (effect value)
  | .branch test yes no =>
      outline.locked thread loc = true ∧ outline.locked thread yes = true ∧
        outline.locked thread no = true ∧
        ∀ value, outline.assertion thread loc value →
          outline.assertion thread (if test value then yes else no) value
  | .wait next =>
      outline.locked thread loc = true ∧ outline.locked thread next = true ∧
        (∀ value, outline.assertion thread loc value →
          outline.invariant value) ∧
        ∀ value, outline.invariant value →
          outline.assertion thread next value
  | .broadcast next =>
      outline.locked thread next = outline.locked thread loc ∧
        ∀ value, outline.assertion thread loc value →
          outline.assertion thread next value

def Valid (code : Thread → Loc → Instr Loc Value) : Prop :=
  ∀ thread loc, outline.Obligation thread loc (code thread loc)

/-- What a thread's mode says about the shared value: a location that holds the
mutex has its assertion, and a waiting thread resumes at one that the invariant
establishes. -/
def ModeHolds (thread : Thread) (value : Value) (owns : Prop) :
    Mode Loc → Prop
  | .running loc =>
      (owns ↔ outline.locked thread loc = true) ∧
        (outline.locked thread loc = true →
          outline.assertion thread loc value)
  | .asleep resume | .woken resume =>
      ¬ owns ∧ outline.locked thread resume = true ∧
        ∀ value, outline.invariant value →
          outline.assertion thread resume value

/-- The outline describes the state: the invariant holds while the mutex is
free, and every thread is where its assertion is true. -/
structure Holds (state : State Thread Loc Value) : Prop where
  free : state.owner = none → outline.invariant state.value
  mode : ∀ thread, outline.ModeHolds thread state.value
    (state.owner = some thread) (state.mode thread)

variable {outline}

omit [DecidableEq Thread] in
/-- A thread that does not own the mutex has no stake in the shared value. -/
theorem ModeHolds.change {thread : Thread} {value other : Value}
    {owns owns' : Prop} {mode : Mode Loc}
    (hmode : outline.ModeHolds thread value owns mode)
    (hbefore : ¬ owns) (hafter : ¬ owns') :
    outline.ModeHolds thread other owns' mode := by
  cases mode with
  | running loc =>
      have hunlocked : ¬ outline.locked thread loc = true :=
        fun hlocked => hbefore (hmode.1.mpr hlocked)
      exact ⟨iff_of_false hafter hunlocked,
        fun hlocked => absurd hlocked hunlocked⟩
  | asleep resume => exact ⟨hafter, hmode.2⟩
  | woken resume => exact ⟨hafter, hmode.2⟩

omit [DecidableEq Thread] in
theorem ModeHolds.wake {thread : Thread} {value : Value} {owns : Prop}
    {mode : Mode Loc} (hmode : outline.ModeHolds thread value owns mode) :
    outline.ModeHolds thread value owns mode.wake := by
  cases mode with
  | running loc => exact hmode
  | asleep resume => exact hmode
  | woken resume => exact hmode

omit [DecidableEq Thread] in
/-- Whoever runs a location that holds the mutex is its owner, and the
assertion of that location is true. -/
theorem Holds.owner {state : State Thread Loc Value}
    (hholds : outline.Holds state) {thread : Thread} {loc : Loc}
    (hmode : state.mode thread = .running loc)
    (hlocked : outline.locked thread loc = true) :
    state.owner = some thread ∧ outline.assertion thread loc state.value := by
  have hthread := hholds.mode thread
  rw [hmode] at hthread
  exact ⟨hthread.1.mpr hlocked, hthread.2 hlocked⟩

omit [DecidableEq Thread] in
theorem Holds.running_of_owner {state : State Thread Loc Value}
    (hholds : outline.Holds state) {thread : Thread}
    (howner : state.owner = some thread) :
    ∃ loc, state.mode thread = .running loc ∧
      outline.locked thread loc = true := by
  have hthread := hholds.mode thread
  cases hmode : state.mode thread with
  | running loc =>
      rw [hmode] at hthread
      exact ⟨loc, rfl, hthread.1.mp howner⟩
  | asleep resume =>
      rw [hmode] at hthread
      exact absurd howner hthread.1
  | woken resume =>
      rw [hmode] at hthread
      exact absurd howner hthread.1

/-- Moving one thread keeps the outline when the other threads own the mutex
neither before nor after. -/
theorem Holds.move {state after : State Thread Loc Value} {thread : Thread}
    {mode : Mode Loc} (hholds : outline.Holds state)
    (hafter : after.mode = Function.update state.mode thread mode)
    (hothers : ∀ other, other ≠ thread →
      (state.owner = some other ↔ after.owner = some other) ∧
        (state.owner = some other → after.value = state.value))
    (hfree : after.owner = none → outline.invariant after.value)
    (hthread : outline.ModeHolds thread after.value
      (after.owner = some thread) mode) :
    outline.Holds after := by
  refine ⟨hfree, ?_⟩
  intro other
  rw [hafter]
  by_cases hother : other = thread
  · subst other
    rwa [Function.update_self]
  · rw [Function.update_of_ne hother]
    obtain ⟨howner, hvalue⟩ := hothers other hother
    by_cases howns : state.owner = some other
    · have hmode := hholds.mode other
      rw [propext howner, ← hvalue howns] at hmode
      exact hmode
    · exact (hholds.mode other).change howns (mt howner.mpr howns)

omit [DecidableEq Thread] in
private theorem owner_ne {owner : Option Thread} {thread other : Thread}
    (howner : owner = some thread) (hother : other ≠ thread) :
    owner ≠ some other := by
  rw [howner]
  intro heq
  exact hother (Option.some.inj heq).symm

omit [DecidableEq Thread] in
/-- Two ownership states that agree that `other` is not the owner. -/
private theorem others_of_ne {before after : State Thread Loc Value}
    {other : Thread} (hbefore : before.owner ≠ some other)
    (hafter : after.owner ≠ some other) :
    (before.owner = some other ↔ after.owner = some other) ∧
      (before.owner = some other → after.value = before.value) :=
  ⟨iff_of_false hbefore hafter, fun heq => absurd heq hbefore⟩

theorem Holds.effect {code : Thread → Loc → Instr Loc Value}
    (hvalid : outline.Valid code) {before after : State Thread Loc Value}
    (hholds : outline.Holds before) (heffect : Effect code before after) :
    outline.Holds after := by
  cases heffect with
  | @lock thread loc next hmode hcode howner =>
      have hlocal := hvalid thread loc
      rw [hcode] at hlocal
      refine hholds.move rfl ?_ (fun hnone => by cases hnone) ?_
      · intro other hother
        exact others_of_ne (by simp [howner]) (owner_ne rfl hother)
      · exact ⟨by simp [hlocal.2.1],
          fun _ => hlocal.2.2 _ (hholds.free howner)⟩
  | @unlock thread loc next hmode hcode =>
      have hlocal := hvalid thread loc
      rw [hcode] at hlocal
      obtain ⟨howner, hassert⟩ := hholds.owner hmode hlocal.1
      refine hholds.move rfl ?_ (fun _ => hlocal.2.2 _ hassert) ?_
      · intro other hother
        exact others_of_ne (owner_ne howner hother) (by simp)
      · exact ⟨by simp [hlocal.2.1], fun hlocked => by simp [hlocal.2.1] at hlocked⟩
  | @act thread loc next effect hmode hcode =>
      have hlocal := hvalid thread loc
      rw [hcode] at hlocal
      obtain ⟨howner, hassert⟩ := hholds.owner hmode hlocal.1
      refine hholds.move rfl ?_ (fun hnone => by simp [howner] at hnone) ?_
      · intro other hother
        exact others_of_ne (owner_ne howner hother) (owner_ne howner hother)
      · exact ⟨iff_of_true howner hlocal.2.1, fun _ => hlocal.2.2 _ hassert⟩
  | @branch thread loc yes no test hmode hcode =>
      have hlocal := hvalid thread loc
      rw [hcode] at hlocal
      obtain ⟨howner, hassert⟩ := hholds.owner hmode hlocal.1
      refine hholds.move rfl (fun other _ => ⟨Iff.rfl, fun _ => rfl⟩)
        (fun hnone => by simp [howner] at hnone) ?_
      refine ⟨iff_of_true howner ?_, fun _ => hlocal.2.2.2 _ hassert⟩
      split
      · exact hlocal.2.1
      · exact hlocal.2.2.1
  | @wait thread loc next hmode hcode =>
      have hlocal := hvalid thread loc
      rw [hcode] at hlocal
      obtain ⟨howner, hassert⟩ := hholds.owner hmode hlocal.1
      refine hholds.move rfl ?_ (fun _ => hlocal.2.2.1 _ hassert) ?_
      · intro other hother
        exact others_of_ne (owner_ne howner hother) (by simp)
      · exact ⟨by simp, hlocal.2.1, hlocal.2.2.2⟩
  | @broadcast thread loc next hmode hcode =>
      have hlocal := hvalid thread loc
      rw [hcode] at hlocal
      have hthread := hholds.mode thread
      rw [hmode] at hthread
      -- Waking changes no claim about a thread, so `move` applies to the woken state.
      have hwoken : outline.Holds
          { before with mode := fun other => (before.mode other).wake } :=
        ⟨hholds.free, fun other => (hholds.mode other).wake⟩
      refine hwoken.move rfl (fun other _ => ⟨Iff.rfl, fun _ => rfl⟩)
        hholds.free ?_
      refine ⟨by rw [hlocal.1]; exact hthread.1, fun hlocked => ?_⟩
      rw [hlocal.1] at hlocked
      exact hlocal.2 _ (hthread.2 hlocked)
  | @relock thread resume hmode howner =>
      have hthread := hholds.mode thread
      rw [hmode] at hthread
      refine hholds.move rfl ?_ (fun hnone => by cases hnone) ?_
      · intro other hother
        exact others_of_ne (by simp [howner]) (owner_ne rfl hother)
      · exact ⟨by simp [hthread.2.1],
          fun _ => hthread.2.2 _ (hholds.free howner)⟩
  | @spurious thread resume hmode =>
      have hthread := hholds.mode thread
      rw [hmode] at hthread
      exact hholds.move rfl (fun other _ => ⟨Iff.rfl, fun _ => rfl⟩)
        hholds.free hthread

/-- A proof outline whose sequential obligations hold describes every
reachable state of the concurrent program. -/
theorem holds_of_reachable {code : Thread → Loc → Instr Loc Value}
    (hvalid : outline.Valid code) {init state : State Thread Loc Value}
    (hinit : outline.Holds init)
    (hreach : (system code init).Reachable state) : outline.Holds state := by
  refine System.invariant_of_step ?_ ?_ hreach
  · intro start hstart
    rw [show start = init from hstart]
    exact hinit
  · intro before label after _ hbefore hstep
    exact hbefore.effect hvalid (step_cases hstep)

/-- If no thread can move without a spurious wakeup, then all of them sleep:
the owner of the mutex is never blocked, and a free mutex can be taken. -/
theorem asleep_of_all_blocked {code : Thread → Loc → Instr Loc Value}
    (hvalid : outline.Valid code) {state : State Thread Loc Value}
    (hholds : outline.Holds state)
    (hblocked : ∀ thread, Blocked code state thread) (thread : Thread) :
    ∃ resume, state.mode thread = .asleep resume := by
  have hfree : state.owner = none := by
    cases howner : state.owner with
    | none => rfl
    | some owner =>
        obtain ⟨loc, hmode, hlocked⟩ := hholds.running_of_owner howner
        have hlocal := hvalid owner loc
        have hstuck := hblocked owner
        simp only [Blocked, step, hmode] at hstuck
        cases hcode : code owner loc with
        | lock next =>
            rw [hcode] at hlocal
            exact absurd hlocked (by simp [hlocal.1])
        | unlock next => simp [hcode] at hstuck
        | act effect next => simp [hcode] at hstuck
        | branch test yes no => simp [hcode] at hstuck
        | wait next => simp [hcode] at hstuck
        | broadcast next => simp [hcode] at hstuck
  have hstuck := hblocked thread
  simp only [Blocked, step] at hstuck
  cases hmode : state.mode thread with
  | running loc =>
      cases hcode : code thread loc <;> simp [hmode, hcode, hfree] at hstuck
  | asleep resume => exact ⟨resume, rfl⟩
  | woken resume => simp [hmode, hfree] at hstuck

end Outline

/-! ## No lost wakeup -/

/-- Why each thread sleeps, and at which locations that reason may already have
been destroyed without a broadcast since. -/
structure Wakeup (Thread Loc Value : Type*) where
  reason : Thread → Value → Prop
  dirty : Thread → Loc → Bool

namespace Wakeup

variable (wakeup : Wakeup Thread Loc Value) (outline : Outline Thread Loc Value)

/-- A thread falls asleep only for its reason, a change that may destroy a
reason leaves its location dirty, only a broadcast cleans it again, and the
mutex is given up only at clean locations. -/
def Obligation (thread : Thread) (loc : Loc) : Instr Loc Value → Prop
  | .lock _ => True
  | .unlock _ => wakeup.dirty thread loc = false
  | .act effect next =>
      wakeup.dirty thread next = false →
        wakeup.dirty thread loc = false ∧
          ∀ sleeper value, outline.assertion thread loc value →
            wakeup.reason sleeper value → wakeup.reason sleeper (effect value)
  | .branch _ yes no =>
      wakeup.dirty thread yes = wakeup.dirty thread loc ∧
        wakeup.dirty thread no = wakeup.dirty thread loc
  | .wait _ =>
      wakeup.dirty thread loc = false ∧
        ∀ value, outline.assertion thread loc value →
          wakeup.reason thread value
  | .broadcast _ => True

def Valid (code : Thread → Loc → Instr Loc Value) : Prop :=
  ∀ thread loc, wakeup.Obligation outline thread loc (code thread loc)

/-- The mutex is free, or its owner stands at a clean location. -/
def Clean (state : State Thread Loc Value) : Prop :=
  ∀ thread loc, state.owner = some thread →
    state.mode thread = .running loc → wakeup.dirty thread loc = false

/-- In a clean state every sleeping thread still has its reason to sleep. -/
def Holds (state : State Thread Loc Value) : Prop :=
  wakeup.Clean state → ∀ sleeper resume,
    state.mode sleeper = .asleep resume → wakeup.reason sleeper state.value

variable {wakeup outline}

omit [DecidableEq Thread] in
theorem clean_of_owner {state : State Thread Loc Value} {thread : Thread}
    {loc : Loc} (howner : state.owner = some thread)
    (hmode : state.mode thread = .running loc)
    (hdirty : wakeup.dirty thread loc = false) : wakeup.Clean state := by
  intro other otherLoc hother hotherMode
  rw [howner] at hother
  cases hother
  rw [hmode] at hotherMode
  cases hotherMode
  exact hdirty

omit [DecidableEq Thread] in
theorem clean_of_free {state : State Thread Loc Value}
    (howner : state.owner = none) : wakeup.Clean state := by
  intro thread loc hthread _
  rw [howner] at hthread
  cases hthread

/-- Only `thread` can have a new mode, and a new sleeper is `thread`. -/
private theorem asleep_of_update {modes : Thread → Mode Loc}
    {thread sleeper : Thread} {mode : Mode Loc} {resume : Loc}
    (hasleep : Function.update modes thread mode sleeper = .asleep resume)
    (hmode : ∀ resume, mode ≠ .asleep resume) :
    modes sleeper = .asleep resume := by
  by_cases hsleeper : sleeper = thread
  · subst sleeper
    rw [Function.update_self] at hasleep
    exact absurd hasleep (hmode resume)
  · rwa [Function.update_of_ne hsleeper] at hasleep

theorem Holds.effect {code : Thread → Loc → Instr Loc Value}
    (hvalid : outline.Valid code) (hwakeup : wakeup.Valid outline code)
    {before after : State Thread Loc Value}
    (houtline : outline.Holds before) (hholds : wakeup.Holds before)
    (heffect : Effect code before after) : wakeup.Holds after := by
  intro hclean sleeper resume hasleep
  cases heffect with
  | @lock thread loc next hmode hcode howner =>
      exact hholds (clean_of_free howner) sleeper resume
        (asleep_of_update hasleep (by simp))
  | @unlock thread loc next hmode hcode =>
      have hlocal := hvalid thread loc
      have hdirty := hwakeup thread loc
      rw [hcode] at hlocal hdirty
      exact hholds
        (clean_of_owner (houtline.owner hmode hlocal.1).1 hmode hdirty)
        sleeper resume (asleep_of_update hasleep (by simp))
  | @act thread loc next effect hmode hcode =>
      have hlocal := hvalid thread loc
      have hdirty := hwakeup thread loc
      rw [hcode] at hlocal hdirty
      obtain ⟨howner, hassert⟩ := houtline.owner hmode hlocal.1
      obtain ⟨hloc, hkeep⟩ := hdirty
        (hclean thread next howner (Function.update_self ..))
      exact hkeep sleeper _ hassert
        (hholds (clean_of_owner howner hmode hloc) sleeper resume
          (asleep_of_update hasleep (by simp)))
  | @branch thread loc yes no test hmode hcode =>
      have hlocal := hvalid thread loc
      have hdirty := hwakeup thread loc
      rw [hcode] at hlocal hdirty
      obtain ⟨howner, -⟩ := houtline.owner hmode hlocal.1
      have hnext := hclean thread _ howner (Function.update_self ..)
      have hloc : wakeup.dirty thread loc = false := by
        split at hnext
        · rw [← hdirty.1, hnext]
        · rw [← hdirty.2, hnext]
      exact hholds (clean_of_owner howner hmode hloc) sleeper resume
        (asleep_of_update hasleep (by simp))
  | @wait thread loc next hmode hcode =>
      have hlocal := hvalid thread loc
      have hdirty := hwakeup thread loc
      rw [hcode] at hlocal hdirty
      obtain ⟨howner, hassert⟩ := houtline.owner hmode hlocal.1
      by_cases hsleeper : sleeper = thread
      · subst sleeper
        exact hdirty.2 _ hassert
      · have hother : before.mode sleeper = .asleep resume := by
          rw [← hasleep]
          exact (Function.update_of_ne hsleeper ..).symm
        exact hholds (clean_of_owner howner hmode hdirty.1) sleeper resume
          hother
  | @broadcast thread loc next hmode hcode =>
      -- A broadcast leaves no thread asleep.
      let woken := fun other => (before.mode other).wake
      have hwoken : woken sleeper = .asleep resume :=
        asleep_of_update hasleep (by simp)
      exact absurd hwoken (Mode.wake_ne_asleep _ resume)
  | @relock thread loc hmode howner =>
      exact hholds (clean_of_free howner) sleeper resume
        (asleep_of_update hasleep (by simp))
  | @spurious thread loc hmode =>
      refine hholds ?_ sleeper resume (asleep_of_update hasleep (by simp))
      intro other otherLoc howner hother
      refine hclean other otherLoc howner ?_
      have hne : other ≠ thread := by
        rintro rfl
        rw [hmode] at hother
        cases hother
      exact (Function.update_of_ne hne ..).trans hother

/-- Along every run a thread that sleeps while the mutex is free still has the
reason for which it fell asleep. -/
theorem holds_of_reachable {code : Thread → Loc → Instr Loc Value}
    (hvalid : outline.Valid code) (hwakeup : wakeup.Valid outline code)
    {init state : State Thread Loc Value} (houtline : outline.Holds init)
    (hinit : wakeup.Holds init)
    (hreach : (system code init).Reachable state) : wakeup.Holds state := by
  refine System.invariant_of_step ?_ ?_ hreach
  · intro start hstart
    rw [show start = init from hstart]
    exact hinit
  · intro before label after hbefore hholds hstep
    exact hholds.effect hvalid hwakeup
      (Outline.holds_of_reachable hvalid houtline hbefore) (step_cases hstep)

end Wakeup

/-! ## Lock discipline -/

/-- The instruction takes, keeps and gives up the mutex as the flags of its
locations say.  The shared value may also be used without the mutex. -/
def Disciplined (locked : Thread → Loc → Bool) (thread : Thread) (loc : Loc) :
    Instr Loc Value → Prop
  | .lock next => locked thread loc = false ∧ locked thread next = true
  | .unlock next => locked thread loc = true ∧ locked thread next = false
  | .act _ next => locked thread next = locked thread loc
  | .branch _ yes no =>
      locked thread yes = locked thread loc ∧ locked thread no = locked thread loc
  | .wait next => locked thread loc = true ∧ locked thread next = true
  | .broadcast next => locked thread next = locked thread loc

def ModeExclusive (locked : Thread → Loc → Bool) (owner : Option Thread)
    (thread : Thread) : Mode Loc → Prop
  | .running loc => owner = some thread ↔ locked thread loc = true
  | .asleep resume | .woken resume =>
      owner ≠ some thread ∧ locked thread resume = true

omit [DecidableEq Thread] in
theorem ModeExclusive.wake {locked : Thread → Loc → Bool} {owner : Option Thread}
    {thread : Thread} {mode : Mode Loc}
    (hmode : ModeExclusive locked owner thread mode) :
    ModeExclusive locked owner thread mode.wake := by
  cases mode with
  | running loc => exact hmode
  | asleep resume => exact hmode
  | woken resume => exact hmode

/-- The owner of the mutex is the thread at a location that holds it. -/
def Exclusive (locked : Thread → Loc → Bool) (state : State Thread Loc Value) :
    Prop :=
  ∀ thread, ModeExclusive locked state.owner thread (state.mode thread)

section Exclusive

variable {locked : Thread → Loc → Bool} {code : Thread → Loc → Instr Loc Value}
  {before after : State Thread Loc Value}

omit [DecidableEq Thread] in
theorem Exclusive.owner (hexclusive : Exclusive locked before) {thread : Thread}
    {loc : Loc} (hmode : before.mode thread = .running loc)
    (hlocked : locked thread loc = true) : before.owner = some thread := by
  have hthread := hexclusive thread
  rw [hmode] at hthread
  exact hthread.mpr hlocked

omit [DecidableEq Thread] in
/-- Two threads that hold the mutex are one. -/
theorem Exclusive.eq (hexclusive : Exclusive locked before) {thread other : Thread}
    {loc otherLoc : Loc} (hmode : before.mode thread = .running loc)
    (hlocked : locked thread loc = true)
    (hotherMode : before.mode other = .running otherLoc)
    (hotherLocked : locked other otherLoc = true) : thread = other := by
  have howner := hexclusive.owner hmode hlocked
  rw [hexclusive.owner hotherMode hotherLocked] at howner
  exact (Option.some.inj howner).symm

theorem Exclusive.move {thread : Thread} {mode : Mode Loc}
    (hexclusive : Exclusive locked before)
    (hafter : after.mode = Function.update before.mode thread mode)
    (hothers : ∀ other, other ≠ thread →
      (before.owner = some other ↔ after.owner = some other))
    (hthread : ModeExclusive locked after.owner thread mode) :
    Exclusive locked after := by
  intro other
  rw [hafter]
  by_cases hother : other = thread
  · subst other
    rwa [Function.update_self]
  · rw [Function.update_of_ne hother]
    have hbefore := hexclusive other
    cases hmode : before.mode other with
    | running loc =>
        rw [hmode] at hbefore
        exact (hothers other hother).symm.trans hbefore
    | asleep resume | woken resume =>
        rw [hmode] at hbefore
        exact ⟨mt (hothers other hother).mpr hbefore.1, hbefore.2⟩

omit [DecidableEq Thread] in
private theorem other_ne_owner {owner : Option Thread} {thread other : Thread}
    (howner : owner = none ∨ owner = some thread) (hother : other ≠ thread) :
    owner ≠ some other := by
  rintro rfl
  obtain hnone | hsome := howner
  · cases hnone
  · exact hother (Option.some.inj hsome)

theorem Exclusive.effect
    (hdisciplined : ∀ thread loc, Disciplined locked thread loc (code thread loc))
    (hexclusive : Exclusive locked before) (heffect : Effect code before after) :
    Exclusive locked after := by
  cases heffect with
  | @lock thread loc next hmode hcode howner =>
      have hlocal := hdisciplined thread loc
      rw [hcode] at hlocal
      refine hexclusive.move rfl (fun other hother => ?_) ?_
      · exact iff_of_false (other_ne_owner (.inl howner) hother)
          (other_ne_owner (.inr rfl) hother)
      · exact iff_of_true rfl hlocal.2
  | @unlock thread loc next hmode hcode =>
      have hlocal := hdisciplined thread loc
      rw [hcode] at hlocal
      have howner := hexclusive.owner hmode hlocal.1
      refine hexclusive.move rfl (fun other hother => ?_) ?_
      · exact iff_of_false (other_ne_owner (.inr howner) hother)
          (other_ne_owner (.inl rfl) hother)
      · exact iff_of_false nofun (by simp [hlocal.2])
  | @act thread loc next effect hmode hcode =>
      have hlocal : locked thread next = locked thread loc := by
        have hinstr := hdisciplined thread loc
        rwa [hcode] at hinstr
      have hthread := hexclusive thread
      rw [hmode] at hthread
      refine hexclusive.move rfl (fun other hother => Iff.rfl) ?_
      exact hthread.trans (by rw [hlocal])
  | @branch thread loc yes no test hmode hcode =>
      have hlocal := hdisciplined thread loc
      rw [hcode] at hlocal
      have hthread := hexclusive thread
      rw [hmode] at hthread
      refine hexclusive.move rfl (fun other hother => Iff.rfl) (hthread.trans ?_)
      split
      · rw [hlocal.1]
      · rw [hlocal.2]
  | @wait thread loc next hmode hcode =>
      have hlocal := hdisciplined thread loc
      rw [hcode] at hlocal
      have howner := hexclusive.owner hmode hlocal.1
      refine hexclusive.move rfl (fun other hother => ?_) ⟨nofun, hlocal.2⟩
      exact iff_of_false (other_ne_owner (.inr howner) hother)
        (other_ne_owner (.inl rfl) hother)
  | @broadcast thread loc next hmode hcode =>
      have hlocal : locked thread next = locked thread loc := by
        have hinstr := hdisciplined thread loc
        rwa [hcode] at hinstr
      have hthread := hexclusive thread
      rw [hmode] at hthread
      have hwoken : Exclusive locked
          { before with mode := fun other => (before.mode other).wake } :=
        fun other => (hexclusive other).wake
      refine hwoken.move rfl (fun other hother => Iff.rfl) ?_
      exact hthread.trans (by rw [hlocal])
  | @relock thread resume hmode howner =>
      have hthread := hexclusive thread
      rw [hmode] at hthread
      refine hexclusive.move rfl (fun other hother => ?_) ?_
      · exact iff_of_false (other_ne_owner (.inl howner) hother)
          (other_ne_owner (.inr rfl) hother)
      · exact iff_of_true rfl hthread.2
  | @spurious thread resume hmode =>
      have hthread := hexclusive thread
      rw [hmode] at hthread
      exact hexclusive.move rfl (fun other hother => Iff.rfl) hthread

/-- If no thread can move without a spurious wakeup, then all of them sleep. -/
theorem Exclusive.asleep_of_all_blocked
    (hdisciplined : ∀ thread loc, Disciplined locked thread loc (code thread loc))
    (hexclusive : Exclusive locked before)
    (hblocked : ∀ thread, Blocked code before thread) (thread : Thread) :
    ∃ resume, before.mode thread = .asleep resume := by
  have hfree : before.owner = none := by
    cases howner : before.owner with
    | none => rfl
    | some owner =>
        have hthread := hexclusive owner
        have hstuck := hblocked owner
        simp only [Blocked, step] at hstuck
        cases hmode : before.mode owner with
        | running loc =>
            rw [hmode] at hthread hstuck
            have hlocal := hdisciplined owner loc
            cases hcode : code owner loc with
            | lock next =>
                rw [hcode] at hlocal
                have hlocked := hthread.mp howner
                rw [hlocal.1] at hlocked
                cases hlocked
            | unlock next => simp [hcode] at hstuck
            | act effect next => simp [hcode] at hstuck
            | branch test yes no => simp [hcode] at hstuck
            | wait next => simp [hcode] at hstuck
            | broadcast next => simp [hcode] at hstuck
        | asleep resume | woken resume =>
            rw [hmode] at hthread
            exact absurd howner hthread.1
  have hstuck := hblocked thread
  simp only [Blocked, step] at hstuck
  cases hmode : before.mode thread with
  | running loc =>
      cases hcode : code thread loc <;> simp [hmode, hcode, hfree] at hstuck
  | asleep resume => exact ⟨resume, rfl⟩
  | woken resume => simp [hmode, hfree] at hstuck

end Exclusive

end JyyOS.Monitor
