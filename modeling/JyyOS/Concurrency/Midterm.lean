import JyyOS.Core.Transition
import JyyOS.Core.ThreadSum

/-!
# Summing `f` over the integers of standard input (`midterm-v1.c`, `midterm-v2.c`)

`midterm-v1.c` passes the integers it reads from producers to consumers through
a linked-list stack; `midterm-v2.c` lets every handler read, apply `f` and add.
A mutex section and a `scanf` call are one step each, everything between them
interleaves freely, and waiting consumers may wake spuriously.

`CInt` and `CLong` stand for the C types `int` and `long`.  Only the addition of `long`
is used, so any commutative addition will do, the wrapping one included.
-/

namespace JyyOS.Midterm

open JyyOS.Transition

variable {CInt CLong Producer Consumer : Type*}

/-! ## Standard input -/

/-- The integers still to be read, whether something follows the last one, and
the end-of-file indicator of the stream. -/
structure Stdin (CInt : Type*) where
  ints : List CInt
  trailing : Bool
  eof : Bool

namespace Stdin

def feof (stdin : Stdin CInt) : Bool := stdin.eof

/-- `scanf("%d", &x)`.  It fails only at the end of the input; reading an
integer that ends the file also raises the indicator. -/
def scanf (stdin : Stdin CInt) : Option CInt × Stdin CInt :=
  match stdin.ints with
  | [] => (none, { stdin with eof := true })
  | x :: rest =>
      (some x,
        { stdin with
          ints := rest
          eof := stdin.eof || (rest.isEmpty && !stdin.trailing) })

def start (ints : List CInt) (trailing : Bool) : Stdin CInt :=
  ⟨ints, trailing, false⟩

/-- The indicator is raised only once everything has been read. -/
def Sound (stdin : Stdin CInt) : Prop :=
  stdin.eof = true → stdin.ints = []

theorem sound_start (ints : List CInt) (trailing : Bool) :
    (start ints trailing).Sound := by
  intro heof
  cases heof

theorem Sound.scanf {stdin : Stdin CInt} (hsound : stdin.Sound) :
    stdin.scanf.2.Sound := by
  unfold Stdin.scanf
  cases hints : stdin.ints with
  | nil =>
      intro _
      rfl
  | cons x rest =>
      intro heof
      simp only [Bool.or_eq_true, Bool.and_eq_true] at heof
      rcases heof with heof | ⟨hempty, -⟩
      · rw [hsound heof] at hints
        cases hints
      · exact List.isEmpty_iff.mp hempty

/-- A failed `scanf` has seen the end of the input. -/
theorem ints_of_scanf_none {stdin : Stdin CInt} (hnone : stdin.scanf.1 = none) :
    stdin.scanf.2.ints = [] := by
  unfold scanf at hnone ⊢
  cases hints : stdin.ints with
  | nil => rfl
  | cons x rest => simp [hints] at hnone

/-- Nothing is lost between the stream and the variable read into. -/
theorem sum_scanf [AddCommMonoid CLong] (f : CInt → CLong) (stdin : Stdin CInt) :
    (stdin.scanf.1.elim 0 f) + (stdin.scanf.2.ints.map f).sum =
      (stdin.ints.map f).sum := by
  unfold scanf
  cases hints : stdin.ints with
  | nil => simp
  | cons x rest => simp

end Stdin

/-! ## `midterm-v1.c` -/

namespace V1

/-- Program points of `producer`.  At `lock` the local `flag` and `x` are one
optional value; at `broadcast` the flag tells `continue` from `break`. -/
inductive ProducerPc (CInt : Type*) where
  | feof
  | scanf
  | lock (x : Option CInt)
  | broadcast (again : Bool)
  | returned
deriving DecidableEq

/-- Program points of `consumer`.  `fault` is a `pop` of the null pointer. -/
inductive ConsumerPc (CInt CLong : Type*) where
  | lock
  | waiting
  | woken
  | apply (x : CInt)
  | add (res : CLong)
  | returned
  | fault
deriving DecidableEq

def ConsumerPc.wake : ConsumerPc CInt CLong → ConsumerPc CInt CLong
  | .waiting => .woken
  | pc => pc

structure State (CInt CLong Producer Consumer : Type*) where
  stdin : Stdin CInt
  buffer : List CInt
  isEof : Bool
  sum : CLong
  producer : Producer → ProducerPc CInt
  consumer : Consumer → ConsumerPc CInt CLong

inductive Label (Producer Consumer : Type*) where
  | producer (thread : Producer)
  | consumer (thread : Consumer)
  | spurious (thread : Consumer)

def push (x : CInt) (buffer : List CInt) : List CInt := x :: buffer

/-- `none` is the dereference of a null `buffer`. -/
def pop : List CInt → Option (CInt × List CInt)
  | [] => none
  | x :: rest => some (x, rest)

/-- The buffer section of `consumer`, entered with the mutex just taken. -/
def take (buffer : List CInt) (isEof : Bool) :
    ConsumerPc CInt CLong × List CInt :=
  if buffer.isEmpty && !isEof then (.waiting, buffer)
  else if isEof && buffer.isEmpty then (.returned, buffer)
  else
    match pop buffer with
    | none => (.fault, buffer)
    | some (x, rest) => (.apply x, rest)

variable [AddCommMonoid CLong] [DecidableEq Producer] [DecidableEq Consumer]

/-- One step of one thread, `none` when it cannot move. -/
def step (f : CInt → CLong) (state : State CInt CLong Producer Consumer) :
    Label Producer Consumer → Option (State CInt CLong Producer Consumer)
  | .producer thread =>
      let goto := Function.update state.producer thread
      match state.producer thread with
      | .feof =>
          some { state with
            producer := goto (if state.stdin.feof then .lock none else .scanf) }
      | .scanf =>
          some { state with
            stdin := state.stdin.scanf.2
            producer := goto (.lock state.stdin.scanf.1) }
      | .lock none =>
          if state.buffer.isEmpty then
            some { state with isEof := true, producer := goto (.broadcast false) }
          else some { state with producer := goto (.broadcast true) }
      | .lock (some x) =>
          some { state with
            buffer := push x state.buffer
            producer := goto (.broadcast true) }
      | .broadcast again =>
          some { state with
            consumer := fun other => (state.consumer other).wake
            producer := goto (if again then .feof else .returned) }
      | .returned => none
  | .consumer thread =>
      let goto := Function.update state.consumer thread
      match state.consumer thread with
      | .lock | .woken =>
          let result := take state.buffer state.isEof
          some { state with
            buffer := result.2
            consumer := goto result.1 }
      | .apply x => some { state with consumer := goto (.add (f x)) }
      | .add res =>
          some { state with sum := state.sum + res, consumer := goto .lock }
      | .waiting | .returned | .fault => none
  | .spurious thread =>
      match state.consumer thread with
      | .waiting =>
          some { state with
            consumer := Function.update state.consumer thread .woken }
      | _ => none

/-- The state in which `main` starts its threads. -/
def main (CLong Producer Consumer : Type*) [Zero CLong] (input : List CInt)
    (trailing : Bool) : State CInt CLong Producer Consumer where
  stdin := Stdin.start input trailing
  buffer := []
  isEof := false
  sum := 0
  producer _ := .feof
  consumer _ := .lock

def system (f : CInt → CLong) (input : List CInt) (trailing : Bool) :
    System (State CInt CLong Producer Consumer) (Label Producer Consumer) :=
  System.ofPartial (fun state => state = main CLong Producer Consumer input trailing)
    (step f)

/-- What a step can do, one constructor per kind of step. -/
inductive Effect (f : CInt → CLong)
    (before : State CInt CLong Producer Consumer) :
    State CInt CLong Producer Consumer → Prop
  | feof {thread : Producer} :
      before.producer thread = .feof → Effect f before
        { before with
          producer := Function.update before.producer thread
            (if before.stdin.feof then .lock none else .scanf) }
  | scanf {thread : Producer} :
      before.producer thread = .scanf → Effect f before
        { before with
          stdin := before.stdin.scanf.2
          producer := Function.update before.producer thread
            (.lock before.stdin.scanf.1) }
  | raise {thread : Producer} :
      before.producer thread = .lock none → before.buffer = [] →
        Effect f before
          { before with
            isEof := true
            producer := Function.update before.producer thread
              (.broadcast false) }
  | again {thread : Producer} :
      before.producer thread = .lock none → before.buffer ≠ [] →
        Effect f before
          { before with
            producer := Function.update before.producer thread
              (.broadcast true) }
  | push {thread : Producer} {x : CInt} :
      before.producer thread = .lock (some x) → Effect f before
        { before with
          buffer := push x before.buffer
          producer := Function.update before.producer thread
            (.broadcast true) }
  | broadcast {thread : Producer} {again : Bool} :
      before.producer thread = .broadcast again → Effect f before
        { before with
          consumer := fun other => (before.consumer other).wake
          producer := Function.update before.producer thread
            (if again then .feof else .returned) }
  | take {thread : Consumer} :
      (before.consumer thread = .lock ∨ before.consumer thread = .woken) →
        Effect f before
          { before with
            buffer := (take before.buffer before.isEof :
              ConsumerPc CInt CLong × List CInt).2
            consumer := Function.update before.consumer thread
              (take before.buffer before.isEof).1 }
  | apply {thread : Consumer} {x : CInt} :
      before.consumer thread = .apply x → Effect f before
        { before with
          consumer := Function.update before.consumer thread (.add (f x)) }
  | add {thread : Consumer} {res : CLong} :
      before.consumer thread = .add res → Effect f before
        { before with
          sum := before.sum + res
          consumer := Function.update before.consumer thread .lock }
  | spurious {thread : Consumer} :
      before.consumer thread = .waiting → Effect f before
        { before with
          consumer := Function.update before.consumer thread .woken }

theorem step_cases {f : CInt → CLong}
    {before after : State CInt CLong Producer Consumer}
    {label : Label Producer Consumer}
    (hstep : step f before label = some after) : Effect f before after := by
  cases label with
  | producer thread =>
      cases hpc : before.producer thread with
      | feof =>
          simp only [step, hpc, Option.some.injEq] at hstep
          exact hstep ▸ .feof hpc
      | scanf =>
          simp only [step, hpc, Option.some.injEq] at hstep
          exact hstep ▸ .scanf hpc
      | lock x =>
          cases x with
          | none =>
              simp only [step, hpc] at hstep
              split at hstep
              · cases hstep
                exact .raise hpc (List.isEmpty_iff.mp ‹_›)
              · cases hstep
                exact .again hpc (mt List.isEmpty_iff.mpr ‹_›)
          | some x =>
              simp only [step, hpc, Option.some.injEq] at hstep
              exact hstep ▸ .push hpc
      | broadcast again =>
          simp only [step, hpc, Option.some.injEq] at hstep
          exact hstep ▸ .broadcast hpc
      | returned => simp [step, hpc] at hstep
  | consumer thread =>
      cases hpc : before.consumer thread with
      | lock =>
          simp only [step, hpc, Option.some.injEq] at hstep
          exact hstep ▸ .take (.inl hpc)
      | woken =>
          simp only [step, hpc, Option.some.injEq] at hstep
          exact hstep ▸ .take (.inr hpc)
      | apply x =>
          simp only [step, hpc, Option.some.injEq] at hstep
          exact hstep ▸ .apply hpc
      | add res =>
          simp only [step, hpc, Option.some.injEq] at hstep
          exact hstep ▸ .add hpc
      | waiting => simp [step, hpc] at hstep
      | returned => simp [step, hpc] at hstep
      | fault => simp [step, hpc] at hstep
  | spurious thread =>
      cases hpc : before.consumer thread <;> simp [step, hpc] at hstep
      exact hstep ▸ .spurious hpc

omit [AddCommMonoid CLong] in
/-- The three ways out of the buffer section; `fault` is not among them. -/
theorem take_cases (buffer : List CInt) (isEof : Bool) :
    (take buffer isEof = ((.waiting : ConsumerPc CInt CLong), buffer) ∧
        buffer = [] ∧ isEof = false) ∨
      (take buffer isEof = ((.returned : ConsumerPc CInt CLong), buffer) ∧
        buffer = [] ∧ isEof = true) ∨
      ∃ x rest, buffer = x :: rest ∧
        take buffer isEof = ((.apply x : ConsumerPc CInt CLong), rest) := by
  cases buffer with
  | nil => cases isEof <;> simp [take]
  | cons x rest => simp [take, pop]

/-! ### Every integer is in exactly one place -/

section Ledger

def ProducerPc.held (f : CInt → CLong) : ProducerPc CInt → CLong
  | .lock x => x.elim 0 f
  | .feof | .scanf | .broadcast _ | .returned => 0

def ConsumerPc.held (f : CInt → CLong) : ConsumerPc CInt CLong → CLong
  | .apply x => f x
  | .add res => res
  | .lock | .waiting | .woken | .returned | .fault => 0

omit [DecidableEq Producer] in
@[simp]
theorem held_wake (f : CInt → CLong) (pc : ConsumerPc CInt CLong) :
    pc.wake.held f = pc.held f := by
  cases pc <;> rfl

variable [Fintype Producer] [Fintype Consumer]

/-- What has been added, plus what is still in the input, in a producer, in the
buffer or in a consumer. -/
def ledger (f : CInt → CLong) (state : State CInt CLong Producer Consumer) : CLong :=
  state.sum + (state.stdin.ints.map f).sum + (state.buffer.map f).sum +
    (∑ thread, (state.producer thread).held f) +
      ∑ thread, (state.consumer thread).held f

theorem ledger_effect {f : CInt → CLong}
    {before after : State CInt CLong Producer Consumer}
    (heffect : Effect f before after) : ledger f after = ledger f before := by
  have hproducers := fun thread => ThreadSum.sum_update
    (fun _ pc => ProducerPc.held f pc) before.producer thread
  have hconsumers := fun thread => ThreadSum.sum_update
    (fun _ pc => ConsumerPc.held f pc) before.consumer thread
  have hproducers_eq := fun thread => ThreadSum.sum_update_eq
    (fun _ pc => ProducerPc.held f pc) before.producer thread
  have hconsumers_eq := fun thread => ThreadSum.sum_update_eq
    (fun _ pc => ConsumerPc.held f pc) before.consumer thread
  unfold ledger
  cases heffect with
  | @feof thread hpc =>
      rw [hproducers_eq thread _ (by rw [hpc]; split <;> rfl)]
  | @scanf thread hpc =>
      have hmove := hproducers thread (.lock before.stdin.scanf.1)
      have hread := before.stdin.sum_scanf f
      have hbefore : (before.producer thread).held f = 0 := by rw [hpc]; rfl
      rw [hbefore, add_zero] at hmove
      rw [hmove, ← hread, ProducerPc.held]
      abel
  | @raise thread hpc hbuffer => rw [hproducers_eq thread _ (by rw [hpc]; rfl)]
  | @again thread hpc hbuffer => rw [hproducers_eq thread _ (by rw [hpc]; rfl)]
  | @push thread x hpc =>
      have hmove := hproducers thread (.broadcast true)
      have hbefore : (before.producer thread).held f = f x := by rw [hpc]; rfl
      have hafter : (ProducerPc.broadcast true : ProducerPc CInt).held f = 0 := rfl
      rw [hbefore, hafter, add_zero] at hmove
      rw [← hmove, push, List.map_cons, List.sum_cons]
      abel
  | @broadcast thread again hpc =>
      rw [hproducers_eq thread _ (by rw [hpc]; split <;> rfl)]
      simp
  | @take thread hpc =>
      have hmove := hconsumers thread (take before.buffer before.isEof).1
      have hbefore : (before.consumer thread).held f = 0 := by
        rcases hpc with hpc | hpc <;> rw [hpc] <;> rfl
      rw [hbefore, add_zero] at hmove
      rw [hmove]
      rcases take_cases before.buffer before.isEof with
        ⟨htake, -, -⟩ | ⟨htake, -, -⟩ | ⟨x, rest, hbuffer, htake⟩
      · rw [htake, ConsumerPc.held, add_zero]
      · rw [htake, ConsumerPc.held, add_zero]
      · rw [htake, hbuffer, ConsumerPc.held, List.map_cons, List.sum_cons]
        abel
  | @apply thread x hpc =>
      rw [hconsumers_eq thread _ (by rw [hpc]; rfl)]
  | @add thread res hpc =>
      have hmove := hconsumers thread .lock
      have hbefore : (before.consumer thread).held f = res := by rw [hpc]; rfl
      have hafter : (ConsumerPc.lock : ConsumerPc CInt CLong).held f = 0 := rfl
      rw [hbefore, hafter, add_zero] at hmove
      rw [← hmove]
      dsimp only
      abel
  | @spurious thread hpc => rw [hconsumers_eq thread _ (by rw [hpc]; rfl)]

theorem ledger_reachable {f : CInt → CLong} {input : List CInt} {trailing : Bool}
    {state : State CInt CLong Producer Consumer}
    (hreach : (system f input trailing).Reachable state) :
    ledger f state = (input.map f).sum := by
  refine System.invariant_of_step
    (I := fun current => ledger f current = (input.map f).sum) ?_ ?_ hreach
  · intro start hstart
    rw [show start = main CLong Producer Consumer input trailing from hstart]
    simp [ledger, main, Stdin.start, ProducerPc.held, ConsumerPc.held]
  · intro before label after _ hbefore hstep
    rw [ledger_effect (step_cases hstep), hbefore]

end Ledger

/-! ### What the end-of-file tests guarantee -/

/-- The producer has raised `is_eof` and is on its way out. -/
def ProducerPc.Leaving : ProducerPc CInt → Prop
  | .broadcast again => again = false
  | .returned => True
  | .feof | .scanf | .lock _ => False

/-- The producer has seen the end of the input in its current round. -/
def ProducerPc.Exhausted : ProducerPc CInt → Prop
  | .lock x => x = none
  | pc => pc.Leaving

/-- A producer leaves only when the input is read up and the buffer is empty, so
whatever is in the buffer was put there by a producer that is still running. -/
structure Sane (state : State CInt CLong Producer Consumer) : Prop where
  sound : state.stdin.Sound
  exhausted : ∀ thread, (state.producer thread).Exhausted →
    state.stdin.ints = []
  attended : state.buffer ≠ [] → ∃ thread, ¬ (state.producer thread).Leaving
  noFault : ∀ thread, state.consumer thread ≠ .fault

section Sane

variable {f : CInt → CLong} {before after : State CInt CLong Producer Consumer}

omit [AddCommMonoid CLong] [DecidableEq Consumer] in
/-- A producer that moves without joining or leaving the leaving producers
keeps the buffer attended. -/
theorem attended_update {thread : Producer} {pc : ProducerPc CInt}
    (hattended : before.buffer ≠ [] →
      ∃ other, ¬ (before.producer other).Leaving)
    (hpc : (before.producer thread).Leaving ∨ ¬ pc.Leaving)
    (hbuffer : before.buffer ≠ []) :
    ∃ other, ¬ (Function.update before.producer thread pc other).Leaving := by
  obtain ⟨other, hother⟩ := hattended hbuffer
  by_cases hsame : other = thread
  · subst other
    refine ⟨thread, ?_⟩
    rw [Function.update_self]
    exact hpc.resolve_left hother
  · refine ⟨other, ?_⟩
    rwa [Function.update_of_ne hsame]

omit [AddCommMonoid CLong] in
theorem eq_fault_of_wake {pc : ConsumerPc CInt CLong} (hfault : pc.wake = .fault) :
    pc = .fault := by
  cases pc with
  | waiting => cases hfault
  | _ => exact hfault

omit [AddCommMonoid CLong] [DecidableEq Producer] in
theorem noFault_update {thread : Consumer} {pc : ConsumerPc CInt CLong}
    (hnoFault : ∀ other, before.consumer other ≠ .fault) (hpc : pc ≠ .fault) :
    ∀ other, Function.update before.consumer thread pc other ≠ .fault :=
  (Function.forall_update_iff before.consumer
    (p := fun _ pc => pc ≠ .fault)).mpr ⟨hpc, fun other _ => hnoFault other⟩

theorem Sane.effect (hsane : Sane before) (heffect : Effect f before after) :
    Sane after := by
  have hexhausted := fun thread pc =>
    (Function.forall_update_iff before.producer
      (p := fun _ pc => pc.Exhausted → before.stdin.ints = [])
      (a := thread) (b := pc)).mpr
  cases heffect with
  | @feof thread hpc =>
      refine ⟨hsane.sound, ?_, ?_, hsane.noFault⟩
      · refine hexhausted thread _ ⟨?_, fun other _ => hsane.exhausted other⟩
        intro hnext
        split at hnext
        · exact hsane.sound ‹_›
        · exact hnext.elim
      · exact attended_update hsane.attended (.inr (by split <;> exact id))
  | @scanf thread hpc =>
      refine ⟨hsane.sound.scanf, ?_, ?_, hsane.noFault⟩
      · have hread : ∀ other, (before.producer other).Exhausted →
            before.stdin.scanf.2.ints = [] := by
          intro other hother
          rw [Stdin.scanf, hsane.exhausted other hother]
        refine (Function.forall_update_iff before.producer
          (p := fun _ pc => pc.Exhausted → before.stdin.scanf.2.ints = [])).mpr
          ⟨?_, fun other _ => hread other⟩
        exact Stdin.ints_of_scanf_none
      · exact attended_update hsane.attended (.inr id)
  | @raise thread hpc hbuffer =>
      refine ⟨hsane.sound, ?_, fun hne => absurd hbuffer hne, hsane.noFault⟩
      refine hexhausted thread _ ⟨fun _ => ?_, fun other _ => hsane.exhausted other⟩
      exact hsane.exhausted thread (by rw [hpc]; rfl)
  | @again thread hpc hbuffer =>
      refine ⟨hsane.sound, ?_, ?_, hsane.noFault⟩
      · refine hexhausted thread _ ⟨fun _ => ?_, fun other _ => hsane.exhausted other⟩
        exact hsane.exhausted thread (by rw [hpc]; rfl)
      · exact attended_update hsane.attended (.inr (by simp [ProducerPc.Leaving]))
  | @push thread x hpc =>
      refine ⟨hsane.sound, ?_, ?_, hsane.noFault⟩
      · refine hexhausted thread _ ⟨fun hnext => ?_, fun other _ => hsane.exhausted other⟩
        cases hnext
      · intro _
        refine ⟨thread, ?_⟩
        simp [ProducerPc.Leaving]
  | @broadcast thread again hpc =>
      refine ⟨hsane.sound, ?_, ?_, ?_⟩
      · refine hexhausted thread _ ⟨?_, fun other _ => hsane.exhausted other⟩
        intro hnext
        cases again with
        | false => exact hsane.exhausted thread (by rw [hpc]; rfl)
        | true => exact hnext.elim
      · refine attended_update hsane.attended ?_
        cases again with
        | false => exact .inl (by rw [hpc]; rfl)
        | true => exact .inr id
      · intro other hfault
        exact hsane.noFault other (eq_fault_of_wake hfault)
  | @take thread hpc =>
      rcases take_cases before.buffer before.isEof with
        ⟨htake, -, -⟩ | ⟨htake, -, -⟩ | ⟨x, rest, hbuffer, htake⟩
      · rw [htake]
        exact ⟨hsane.sound, hsane.exhausted, hsane.attended,
          noFault_update hsane.noFault (by simp)⟩
      · rw [htake]
        exact ⟨hsane.sound, hsane.exhausted, hsane.attended,
          noFault_update hsane.noFault (by simp)⟩
      · rw [htake]
        exact ⟨hsane.sound, hsane.exhausted,
          fun _ => hsane.attended (by simp [hbuffer]),
          noFault_update hsane.noFault (by simp)⟩
  | @apply thread x hpc =>
      exact ⟨hsane.sound, hsane.exhausted, hsane.attended,
        noFault_update hsane.noFault (by simp)⟩
  | @add thread res hpc =>
      exact ⟨hsane.sound, hsane.exhausted, hsane.attended,
        noFault_update hsane.noFault (by simp)⟩
  | @spurious thread hpc =>
      exact ⟨hsane.sound, hsane.exhausted, hsane.attended,
        noFault_update hsane.noFault (by simp)⟩

theorem sane_reachable {input : List CInt} {trailing : Bool}
    {state : State CInt CLong Producer Consumer}
    (hreach : (system f input trailing).Reachable state) : Sane state := by
  refine System.invariant_of_step ?_ ?_ hreach
  · intro start hstart
    rw [show start = main CLong Producer Consumer input trailing from hstart]
    refine ⟨Stdin.sound_start input trailing, ?_, ?_, ?_⟩
    · intro thread hthread
      exact hthread.elim
    · intro hbuffer
      exact absurd rfl hbuffer
    · intro thread
      simp [main]
  · intro before label after _ hbefore hstep
    exact hbefore.effect (step_cases hstep)

/-- Once everybody has returned, nothing is left in the input or the buffer. -/
theorem empty_of_returned [Nonempty Producer] {input : List CInt}
    {trailing : Bool} {state : State CInt CLong Producer Consumer}
    (hreach : (system f input trailing).Reachable state)
    (hreturned : ∀ thread, state.producer thread = .returned) :
    state.stdin.ints = [] ∧ state.buffer = [] := by
  have hsane := sane_reachable hreach
  obtain ⟨thread⟩ := ‹Nonempty Producer›
  refine ⟨hsane.exhausted thread (by rw [hreturned]; trivial), ?_⟩
  by_contra hbuffer
  obtain ⟨other, hother⟩ := hsane.attended hbuffer
  exact hother (by rw [hreturned]; trivial)

/-- The whole input has been added once all threads have returned. -/
theorem sum_of_returned [Fintype Producer] [Fintype Consumer]
    [Nonempty Producer] {input : List CInt} {trailing : Bool}
    {state : State CInt CLong Producer Consumer}
    (hreach : (system f input trailing).Reachable state)
    (hproducers : ∀ thread, state.producer thread = .returned)
    (hconsumers : ∀ thread, state.consumer thread = .returned) :
    state.sum = (input.map f).sum := by
  obtain ⟨hints, hbuffer⟩ := empty_of_returned hreach hproducers
  have hledger := ledger_reachable hreach
  simpa [ledger, hints, hbuffer, hproducers, hconsumers, ProducerPc.held,
    ConsumerPc.held] using hledger

end Sane

end V1

/-! ## `midterm-v2.c` -/

namespace V2

inductive HandlerPc (CInt CLong : Type*) where
  | feof
  | scanf
  | test (x : Option CInt)
  | apply (x : CInt)
  | add (res : CLong)
  | returned
deriving DecidableEq

structure State (CInt CLong Handler : Type*) where
  stdin : Stdin CInt
  sum : CLong
  handler : Handler → HandlerPc CInt CLong

variable {Handler : Type*} [DecidableEq Handler] [AddCommMonoid CLong]

/-- One step of one handler, `none` once it has returned. -/
def step (f : CInt → CLong) (state : State CInt CLong Handler)
    (thread : Handler) : Option (State CInt CLong Handler) :=
  let goto := Function.update state.handler thread
  match state.handler thread with
  | .feof =>
      some { state with
        handler := goto (if state.stdin.feof then .test none else .scanf) }
  | .scanf =>
      some { state with
        stdin := state.stdin.scanf.2
        handler := goto (.test state.stdin.scanf.1) }
  | .test none => some { state with handler := goto .returned }
  | .test (some x) => some { state with handler := goto (.apply x) }
  | .apply x => some { state with handler := goto (.add (f x)) }
  | .add res =>
      some { state with sum := state.sum + res, handler := goto .feof }
  | .returned => none

def main (CLong Handler : Type*) [Zero CLong] (input : List CInt)
    (trailing : Bool) : State CInt CLong Handler where
  stdin := Stdin.start input trailing
  sum := 0
  handler _ := .feof

def system (f : CInt → CLong) (input : List CInt) (trailing : Bool) :
    System (State CInt CLong Handler) Handler :=
  System.ofPartial (fun state => state = main CLong Handler input trailing)
    (step f)

def HandlerPc.held (f : CInt → CLong) : HandlerPc CInt CLong → CLong
  | .test x => x.elim 0 f
  | .apply x => f x
  | .add res => res
  | .feof | .scanf | .returned => 0

/-- The handler has seen the end of the input. -/
def HandlerPc.Exhausted : HandlerPc CInt CLong → Prop
  | .test x => x = none
  | .returned => True
  | .feof | .scanf | .apply _ | .add _ => False

section Invariant

variable [Fintype Handler]

/-- The sum, the unread input and the handlers account for every integer, and
a handler that stopped reading has seen the end of the input. -/
structure Sane (f : CInt → CLong) (input : List CInt)
    (state : State CInt CLong Handler) : Prop where
  sound : state.stdin.Sound
  exhausted : ∀ thread, (state.handler thread).Exhausted →
    state.stdin.ints = []
  ledger : state.sum + (state.stdin.ints.map f).sum +
    ∑ thread, (state.handler thread).held f = (input.map f).sum

variable {f : CInt → CLong} {input : List CInt}

/-- A step that neither reads nor adds only has to account for its thread. -/
theorem Sane.move {state : State CInt CLong Handler} (hsane : Sane f input state)
    {thread : Handler} {pc : HandlerPc CInt CLong}
    (hheld : pc.held f = (state.handler thread).held f)
    (hexhausted : pc.Exhausted → state.stdin.ints = []) :
    Sane f input
      { state with handler := Function.update state.handler thread pc } := by
  refine ⟨hsane.sound, ?_, ?_⟩
  · exact (Function.forall_update_iff state.handler
      (p := fun _ pc => pc.Exhausted → state.stdin.ints = [])).mpr
      ⟨hexhausted, fun other _ => hsane.exhausted other⟩
  · have hsum := ThreadSum.sum_update_eq
      (fun _ pc => HandlerPc.held f pc) state.handler thread pc hheld
    rw [hsum]
    exact hsane.ledger

theorem Sane.step {before after : State CInt CLong Handler} {thread : Handler}
    (hsane : Sane f input before)
    (hstep : V2.step f before thread = some after) : Sane f input after := by
  have hmove := ThreadSum.sum_update
    (fun _ pc => HandlerPc.held f pc) before.handler thread
  cases hpc : before.handler thread with
  | feof =>
      simp only [V2.step, hpc, Option.some.injEq] at hstep
      subst hstep
      refine hsane.move (by rw [hpc]; split <;> rfl) ?_
      intro hnext
      split at hnext
      · exact hsane.sound ‹_›
      · exact hnext.elim
  | scanf =>
      simp only [V2.step, hpc, Option.some.injEq] at hstep
      subst hstep
      refine ⟨hsane.sound.scanf, ?_, ?_⟩
      · refine (Function.forall_update_iff before.handler
          (p := fun _ pc => pc.Exhausted → before.stdin.scanf.2.ints = [])).mpr
          ⟨Stdin.ints_of_scanf_none, fun other _ hother => ?_⟩
        rw [Stdin.scanf, hsane.exhausted other hother]
      · have hread := before.stdin.sum_scanf f
        have hbefore : (before.handler thread).held f = 0 := by rw [hpc]; rfl
        have hthread := hmove (.test before.stdin.scanf.1)
        rw [hbefore, add_zero] at hthread
        rw [hthread, HandlerPc.held, ← hsane.ledger, ← hread]
        abel
  | test x =>
      cases x with
      | none =>
          simp only [V2.step, hpc, Option.some.injEq] at hstep
          subst hstep
          refine hsane.move (by rw [hpc]; rfl) (fun _ => ?_)
          exact hsane.exhausted thread (by rw [hpc]; rfl)
      | some x =>
          simp only [V2.step, hpc, Option.some.injEq] at hstep
          subst hstep
          exact hsane.move (by rw [hpc]; rfl) (fun hnext => hnext.elim)
  | apply x =>
      simp only [V2.step, hpc, Option.some.injEq] at hstep
      subst hstep
      exact hsane.move (by rw [hpc]; rfl) (fun hnext => hnext.elim)
  | add res =>
      simp only [V2.step, hpc, Option.some.injEq] at hstep
      subst hstep
      refine ⟨hsane.sound, ?_, ?_⟩
      · exact (Function.forall_update_iff before.handler
          (p := fun _ pc => pc.Exhausted → before.stdin.ints = [])).mpr
          ⟨fun hnext => hnext.elim, fun other _ => hsane.exhausted other⟩
      · have hbefore : (before.handler thread).held f = res := by rw [hpc]; rfl
        have hthread := hmove .feof
        have hafter : (HandlerPc.feof : HandlerPc CInt CLong).held f = 0 := rfl
        rw [hbefore, hafter, add_zero] at hthread
        rw [← hsane.ledger, ← hthread]
        dsimp only
        abel
  | returned => simp [V2.step, hpc] at hstep

theorem sane_reachable {trailing : Bool} {state : State CInt CLong Handler}
    (hreach : (system f input trailing).Reachable state) :
    Sane f input state := by
  refine System.invariant_of_step ?_ ?_ hreach
  · intro start hstart
    rw [show start = main CLong Handler input trailing from hstart]
    refine ⟨Stdin.sound_start input trailing, fun _ hthread => hthread.elim, ?_⟩
    simp [main, Stdin.start, HandlerPc.held]
  · intro before label after _ hbefore hstep
    exact hbefore.step hstep

theorem sum_of_returned [Nonempty Handler] {trailing : Bool}
    {state : State CInt CLong Handler}
    (hreach : (system f input trailing).Reachable state)
    (hreturned : ∀ thread, state.handler thread = .returned) :
    state.sum = (input.map f).sum := by
  have hsane := sane_reachable hreach
  obtain ⟨thread⟩ := ‹Nonempty Handler›
  have hints := hsane.exhausted thread (by rw [hreturned]; trivial)
  have hledger := hsane.ledger
  simpa [hints, hreturned, HandlerPc.held] using hledger

end Invariant

end V2

/-! ## The two programs agree -/

section Total

variable {Handler : Type*} [AddCommMonoid CLong]
variable [Fintype Producer] [DecidableEq Producer] [Nonempty Producer]
variable [Fintype Consumer] [DecidableEq Consumer]
variable [Fintype Handler] [DecidableEq Handler] [Nonempty Handler]

/-- In no reachable state of `midterm-v1.c` has a consumer popped an empty
buffer, and once all its threads have returned `sum` is the sum of `f` over the
input, which is also what the handlers of `midterm-v2.c` compute. -/
theorem total_correct (f : CInt → CLong) (input : List CInt) (trailing : Bool) :
    (∀ state : V1.State CInt CLong Producer Consumer,
        (V1.system f input trailing).Reachable state →
          (∀ thread, state.consumer thread ≠ .fault) ∧
            ((∀ thread, state.producer thread = .returned) →
              (∀ thread, state.consumer thread = .returned) →
                state.sum = (input.map f).sum)) ∧
      ∀ state : V2.State CInt CLong Handler,
        (V2.system f input trailing).Reachable state →
          (∀ thread, state.handler thread = .returned) →
            state.sum = (input.map f).sum := by
  constructor
  · intro state hreach
    exact ⟨(V1.sane_reachable hreach).noFault, V1.sum_of_returned hreach⟩
  · intro state hreach hreturned
    exact V2.sum_of_returned hreach hreturned

end Total

/-- Two producers, `false` and `true`, read the input `[5, 7]` by turns.  One of the two
consumers waits before there is anything to pop, and both wait again before the end of
the input is seen. -/
def V1.pairSchedule : List (V1.Label Bool Bool) :=
  [.producer false, .producer true, .consumer false, .producer false, .producer true,
    .producer true, .producer false, .producer false, .producer true,
    .consumer true, .consumer false, .consumer false, .consumer true, .consumer true,
    .consumer false, .consumer false, .consumer true,
    .producer false, .producer false, .producer false, .producer false,
    .producer true, .producer true, .producer true, .consumer true, .consumer false]

/-- The two handlers do the same. -/
def V2.pairSchedule : List Bool :=
  [false, true, false, true, false, true, true, false, false, true, false, false, false,
    true, true]

/-- Both programs with two threads of each kind add up what `f` makes of the input. -/
theorem total_correct_pairs :
    (∃ state : V1.State ℤ ℤ Bool Bool,
        (V1.system (10 * ·) [5, 7] true).Reachable state ∧
          (∀ thread, state.producer thread = .returned) ∧
          (∀ thread, state.consumer thread = .returned) ∧ state.sum = 120) ∧
      ∃ state : V2.State ℤ ℤ Bool,
        (V2.system (10 * ·) [5, 7] true).Reachable state ∧
          (∀ thread, state.handler thread = .returned) ∧ state.sum = 120 := by
  obtain ⟨hfirst, hsecond⟩ :=
    @total_correct ℤ ℤ Bool Bool Bool _ _ _ _ _ _ _ _ _ (10 * ·) [5, 7] true
  have hreturns : (V1.pairSchedule.foldlM (V1.step (10 * ·))
      (V1.main ℤ Bool Bool [5, 7] true)).any (fun state =>
        decide ((∀ thread, state.producer thread = .returned) ∧
          ∀ thread, state.consumer thread = .returned)) = true := by decide +kernel
  have hreturns' : (V2.pairSchedule.foldlM (V2.step (10 * ·))
      (V2.main ℤ Bool [5, 7] true)).any (fun state =>
        decide (∀ thread, state.handler thread = .returned)) = true := by decide +kernel
  constructor
  · obtain ⟨state, hrun, hstate⟩ := (Option.any_eq_true _ _).mp hreturns
    obtain ⟨hproducers, hconsumers⟩ := of_decide_eq_true hstate
    have hreach : (V1.system (10 * ·) [5, 7] true).Reachable state :=
      (System.reachable_of_init rfl).run (System.run_of_foldlM V1.pairSchedule hrun)
    exact ⟨state, hreach, hproducers, hconsumers, (hfirst state hreach).2 hproducers hconsumers⟩
  · obtain ⟨state, hrun, hstate⟩ := (Option.any_eq_true _ _).mp hreturns'
    have hhandlers := of_decide_eq_true hstate
    have hreach : (V2.system (10 * ·) [5, 7] true).Reachable state :=
      (System.reachable_of_init rfl).run (System.run_of_foldlM V2.pairSchedule hrun)
    exact ⟨state, hreach, hhandlers, hsecond state hreach hhandlers⟩

end JyyOS.Midterm
