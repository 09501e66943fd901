import JyyOS.Concurrency.Midterm

/-!
# When `midterm-v1.c` strands an integer

Between a producer's `scanf` and its `mutex_lock` the integer is in no shared
place.  If another producer finds the end of the input and an empty buffer in
that window, it raises `is_eof`, every consumer leaves, and the integer is
never consumed.  This module proves exactly when that can happen.
-/

namespace JyyOS.Midterm.V1

open JyyOS.Transition

variable {CInt CLong Producer Consumer : Type*}
variable [AddCommMonoid CLong] [DecidableEq Producer] [DecidableEq Consumer]

/-- All consumers have returned although an integer that has been read is still
in a producer's local variable or in the buffer. -/
def Stranded (state : State CInt CLong Producer Consumer) : Prop :=
  (∀ thread, state.consumer thread = .returned) ∧
    (state.buffer ≠ [] ∨ ∃ thread x, state.producer thread = .lock (some x))

/-! ## Inputs on which nothing is read -/

/-- No integer has been read, and a producer would find none. -/
structure Untouched (state : State CInt CLong Producer Consumer) : Prop where
  input : Nonempty Producer → state.stdin.ints = []
  buffer : state.buffer = []
  producer : ∀ thread x, state.producer thread ≠ .lock (some x)

omit [AddCommMonoid CLong] [DecidableEq Producer] [DecidableEq Consumer] in
theorem Untouched.not_stranded
    {state : State CInt CLong Producer Consumer}
    (huntouched : Untouched state) : ¬ Stranded state := by
  rintro ⟨-, hbuffer | ⟨thread, x, hthread⟩⟩
  · exact hbuffer huntouched.buffer
  · exact huntouched.producer thread x hthread

theorem Untouched.effect {f : CInt → CLong}
    {before after : State CInt CLong Producer Consumer}
    (huntouched : Untouched before) (heffect : Effect f before after) :
    Untouched after := by
  have hproducer := fun thread pc =>
    (Function.forall_update_iff before.producer
      (p := fun _ pc => ∀ x, pc ≠ .lock (some x))
      (a := thread) (b := pc)).mpr
  have hothers := fun (thread other : Producer) (_ : other ≠ thread) =>
    huntouched.producer other
  cases heffect with
  | @feof thread hpc =>
      exact ⟨huntouched.input, huntouched.buffer,
        hproducer thread _ ⟨by intro x; split <;> simp, hothers thread⟩⟩
  | @scanf thread hpc =>
      have hints := huntouched.input ⟨thread⟩
      refine ⟨fun _ => by simp [Stdin.scanf, hints], huntouched.buffer, ?_⟩
      exact hproducer thread _
        ⟨by intro x; simp [Stdin.scanf, hints], hothers thread⟩
  | @raise thread hpc hbuffer =>
      exact ⟨huntouched.input, huntouched.buffer,
        hproducer thread _ ⟨by simp, hothers thread⟩⟩
  | @again thread hpc hbuffer => exact absurd huntouched.buffer hbuffer
  | @push thread x hpc => exact absurd hpc (huntouched.producer thread x)
  | @broadcast thread again hpc =>
      exact ⟨huntouched.input, huntouched.buffer,
        hproducer thread _ ⟨by intro x; split <;> simp, hothers thread⟩⟩
  | @take thread hpc =>
      refine ⟨huntouched.input, ?_, huntouched.producer⟩
      rw [huntouched.buffer]
      cases before.isEof <;> rfl
  | @apply thread x hpc =>
      exact ⟨huntouched.input, huntouched.buffer, huntouched.producer⟩
  | @add thread res hpc =>
      exact ⟨huntouched.input, huntouched.buffer, huntouched.producer⟩
  | @spurious thread hpc =>
      exact ⟨huntouched.input, huntouched.buffer, huntouched.producer⟩

theorem untouched_reachable {f : CInt → CLong} {input : List CInt}
    {trailing : Bool} (hinput : Nonempty Producer → input = [])
    {state : State CInt CLong Producer Consumer}
    (hreach : (system f input trailing).Reachable state) : Untouched state := by
  refine System.invariant_of_step ?_ ?_ hreach
  · intro start hstart
    rw [show start = main CLong Producer Consumer input trailing from hstart]
    exact ⟨hinput, rfl, by simp [main]⟩
  · intro before label after _ hbefore hstep
    exact hbefore.effect (step_cases hstep)

/-! ## A single producer -/

/-- Once `is_eof` is up the buffer is empty for good and every producer is on
its way out; consumers leave only then. -/
structure Closed (state : State CInt CLong Producer Consumer) : Prop where
  drained : state.isEof = true →
    state.buffer = [] ∧ ∀ thread, (state.producer thread).Leaving
  consumer : ∀ thread, state.consumer thread = .returned → state.isEof = true

omit [AddCommMonoid CLong] [DecidableEq Producer] [DecidableEq Consumer] in
theorem Closed.not_stranded [Nonempty Consumer]
    {state : State CInt CLong Producer Consumer} (hclosed : Closed state) :
    ¬ Stranded state := by
  rintro ⟨hreturned, hleft⟩
  obtain ⟨consumer⟩ := ‹Nonempty Consumer›
  obtain ⟨hbuffer, hleaving⟩ :=
    hclosed.drained (hclosed.consumer consumer (hreturned consumer))
  rcases hleft with hne | ⟨thread, x, hthread⟩
  · exact hne hbuffer
  · have hthreadLeaving := hleaving thread
    rw [hthread] at hthreadLeaving
    exact hthreadLeaving

omit [AddCommMonoid CLong] [DecidableEq Producer] [DecidableEq Consumer] in
/-- A producer that is not leaving can move while `is_eof` is still down. -/
theorem Closed.of_not_leaving
    {before after : State CInt CLong Producer Consumer}
    (hclosed : Closed before) {thread : Producer}
    (hpc : ¬ (before.producer thread).Leaving)
    (hisEof : after.isEof = before.isEof)
    (hconsumer : after.consumer = before.consumer) : Closed after := by
  constructor
  · intro hraised
    rw [hisEof] at hraised
    exact absurd ((hclosed.drained hraised).2 thread) hpc
  · intro other hother
    rw [hconsumer] at hother
    rw [hisEof]
    exact hclosed.consumer other hother

omit [AddCommMonoid CLong] [DecidableEq Producer] in
/-- A consumer that moves to any point but `returned` keeps the state closed. -/
theorem Closed.move_consumer {before : State CInt CLong Producer Consumer}
    (hclosed : Closed before) {thread : Consumer}
    {pc : ConsumerPc CInt CLong} {buffer : List CInt} {sum : CLong}
    (hbuffer : before.isEof = true → buffer = [])
    (hpc : pc = .returned → before.isEof = true) :
    Closed { before with
      buffer := buffer
      sum := sum
      consumer := Function.update before.consumer thread pc } := by
  constructor
  · intro hraised
    exact ⟨hbuffer hraised, (hclosed.drained hraised).2⟩
  · exact (Function.forall_update_iff before.consumer
      (p := fun _ pc => pc = .returned → before.isEof = true)).mpr
      ⟨hpc, fun other _ => hclosed.consumer other⟩

theorem Closed.effect [Subsingleton Producer] {f : CInt → CLong}
    {before after : State CInt CLong Producer Consumer}
    (hclosed : Closed before) (heffect : Effect f before after) :
    Closed after := by
  have hbuffer : before.isEof = true → before.buffer = [] :=
    fun hraised => (hclosed.drained hraised).1
  cases heffect with
  | @feof thread hpc =>
      exact hclosed.of_not_leaving (by rw [hpc]; exact id) rfl rfl
  | @scanf thread hpc =>
      exact hclosed.of_not_leaving (by rw [hpc]; exact id) rfl rfl
  | @raise thread hpc hempty =>
      refine ⟨fun _ => ⟨hempty, ?_⟩, fun _ _ => rfl⟩
      intro other
      -- The producer that raises `is_eof` is the only one.
      rw [Subsingleton.elim other thread]
      simp [ProducerPc.Leaving]
  | @again thread hpc hne =>
      exact hclosed.of_not_leaving (by rw [hpc]; exact id) rfl rfl
  | @push thread x hpc =>
      exact hclosed.of_not_leaving (by rw [hpc]; exact id) rfl rfl
  | @broadcast thread again hpc =>
      constructor
      · intro hraised
        obtain ⟨hempty, hleaving⟩ := hclosed.drained hraised
        refine ⟨hempty, fun other => ?_⟩
        rw [Subsingleton.elim other thread]
        have hthread := hleaving thread
        rw [hpc] at hthread
        cases again with
        | false => simp [ProducerPc.Leaving]
        | true => cases hthread
      · intro other hother
        apply hclosed.consumer other
        dsimp only at hother
        cases hpc' : before.consumer other <;> simp_all [ConsumerPc.wake]
  | @take thread hpc =>
      rcases take_cases before.buffer before.isEof with
        ⟨htake, -, -⟩ | ⟨htake, -, hraised⟩ | ⟨x, rest, hcons, htake⟩
      · rw [htake]
        exact hclosed.move_consumer hbuffer (by simp)
      · rw [htake]
        exact hclosed.move_consumer hbuffer (fun _ => hraised)
      · rw [htake]
        refine hclosed.move_consumer (fun hraised => ?_) (by simp)
        rw [hbuffer hraised] at hcons
        cases hcons
  | @apply thread x hpc => exact hclosed.move_consumer hbuffer (by simp)
  | @add thread res hpc => exact hclosed.move_consumer hbuffer (by simp)
  | @spurious thread hpc => exact hclosed.move_consumer hbuffer (by simp)

theorem closed_reachable [Subsingleton Producer] {f : CInt → CLong}
    {input : List CInt} {trailing : Bool}
    {state : State CInt CLong Producer Consumer}
    (hreach : (system f input trailing).Reachable state) : Closed state := by
  refine System.invariant_of_step ?_ ?_ hreach
  · intro start hstart
    rw [show start = main CLong Producer Consumer input trailing from hstart]
    exact ⟨by simp [main], by simp [main]⟩
  · intro before label after _ hbefore hstep
    exact hbefore.effect (step_cases hstep)

/-! ## Two producers, or no consumer -/

section Strand

variable (f : CInt → CLong) (input : List CInt) (trailing : Bool)

/-- All threads at the heads of their loops, with the buffer empty. -/
def idle (Producer Consumer : Type*) (ints : List CInt) (trailing : Bool)
    (sum : CLong) : State CInt CLong Producer Consumer where
  stdin := Stdin.start ints trailing
  buffer := []
  isEof := false
  sum := sum
  producer _ := .feof
  consumer _ := .lock

/-- One integer passes from `producer` through the buffer to `consumer`. -/
theorem run_relay (producer : Producer) (consumer : Consumer) (x y : CInt)
    (rest : List CInt) (sum : CLong) :
    ∃ labels, (system f input trailing).Run
      (idle Producer Consumer (x :: y :: rest) trailing sum) labels
      (idle Producer Consumer (y :: rest) trailing (sum + f x)) := by
  refine ⟨List.replicate 4 (.producer producer) ++
    List.replicate 3 (.consumer consumer), System.run_of_foldlM _ ?_⟩
  simp [idle, step, Stdin.feof, Stdin.scanf, Stdin.start, push, take, pop,
    ConsumerPc.wake, List.replicate]

/-- All integers but the last can be read and consumed one at a time. -/
theorem exists_run_drain (producer : Producer) (consumer : Consumer)
    (ints : List CInt) (hints : ints ≠ []) (sum : CLong) :
    ∃ x total labels, (system f input trailing).Run
      (idle Producer Consumer ints trailing sum) labels
      (idle Producer Consumer [x] trailing total) := by
  induction ints generalizing sum with
  | nil => exact absurd rfl hints
  | cons x rest ih =>
      cases rest with
      | nil => exact ⟨x, sum, [], .nil⟩
      | cons y rest =>
          obtain ⟨first, hfirst⟩ :=
            run_relay f input trailing producer consumer x y rest sum
          obtain ⟨last, total, second, hsecond⟩ := ih (by simp) (sum + f x)
          exact ⟨last, total, first ++ second, hfirst.append hsecond⟩

/-- The state in which `reader` holds the last integer and `other` has raised
`is_eof`. -/
def closing (Consumer : Type*) (reader other : Producer) (x : CInt)
    (trailing : Bool) (sum : CLong) : State CInt CLong Producer Consumer where
  stdin := ⟨[], trailing, true⟩
  buffer := []
  isEof := true
  sum := sum
  producer := Function.update
    (Function.update (fun _ => .feof) reader (.lock (some x))) other
    (.broadcast false)
  consumer _ := .lock

theorem exists_run_closing (Consumer : Type*) [DecidableEq Consumer]
    {reader other : Producer} (hne : other ≠ reader) (x : CInt) (sum : CLong) :
    ∃ labels, (system f input trailing).Run
      (idle Producer Consumer [x] trailing sum) labels
      (closing Consumer reader other x trailing sum) := by
  cases trailing with
  | false =>
      refine ⟨[.producer reader, .producer reader, .producer other,
        .producer other], System.run_of_foldlM _ ?_⟩
      simp [idle, closing, step, Stdin.feof, Stdin.scanf, Stdin.start, hne]
  | true =>
      refine ⟨[.producer reader, .producer reader, .producer other,
        .producer other, .producer other], System.run_of_foldlM _ ?_⟩
      simp [idle, closing, step, Stdin.feof, Stdin.scanf, Stdin.start, hne]

/-- With `is_eof` up and the buffer empty, any set of consumers can leave. -/
theorem exists_run_leave
    (state : State CInt CLong Producer Consumer) (hisEof : state.isEof = true)
    (hbuffer : state.buffer = []) (leavers : Finset Consumer) :
    ∃ labels, (system f input trailing).Run
      { state with consumer := fun _ => .lock } labels
      { state with
        consumer := fun thread =>
          if thread ∈ leavers then .returned else .lock } := by
  induction leavers using Finset.induction_on with
  | empty => exact ⟨[], by simpa using .nil⟩
  | insert thread leavers hnew ih =>
      obtain ⟨labels, hrun⟩ := ih
      refine ⟨labels ++ [.consumer thread], hrun.snoc ?_⟩
      change step f _ _ = some _
      simp only [step, hnew, if_false, hisEof, hbuffer, take]
      congr 2
      funext other
      by_cases hother : other = thread
      · subst other
        simp
      · simp [hother]

/-- Two producers can strand the last integer. -/
theorem exists_stranded_of_two [Fintype Consumer] {reader other : Producer}
    (hne : other ≠ reader) (consumer : Consumer) (hinput : input ≠ []) :
    ∃ state : State CInt CLong Producer Consumer,
      (system f input trailing).Reachable state ∧ Stranded state := by
  obtain ⟨x, sum, _, hdrain⟩ :=
    exists_run_drain f input trailing reader consumer input hinput 0
  obtain ⟨_, hclosing⟩ :=
    exists_run_closing f input trailing Consumer hne x sum
  obtain ⟨_, hleave⟩ := exists_run_leave f input trailing
    (closing Consumer reader other x trailing sum) rfl rfl Finset.univ
  refine ⟨_, ((System.reachable_of_init rfl).run hdrain).run
    (hclosing.append hleave), ?_, .inr ⟨reader, x, ?_⟩⟩
  · intro thread
    simp
  · simp [closing, Function.update_of_ne hne.symm]

/-- Without a consumer the first integer that is read is already stranded. -/
theorem exists_stranded_of_isEmpty (Consumer : Type*) [DecidableEq Consumer]
    [IsEmpty Consumer] (reader : Producer) (hinput : input ≠ []) :
    ∃ state : State CInt CLong Producer Consumer,
      (system f input trailing).Reachable state ∧ Stranded state := by
  obtain ⟨x, rest, rfl⟩ := List.exists_cons_of_ne_nil hinput
  have hrun : (system f (x :: rest) trailing).Run
      (main CLong Producer Consumer (x :: rest) trailing)
      [.producer reader, .producer reader]
      { main CLong Producer Consumer (x :: rest) trailing with
        stdin := (Stdin.start (x :: rest) trailing).scanf.2
        producer := Function.update (fun _ => .feof) reader
          (.lock (some x)) } := by
    apply System.run_of_foldlM
    simp [main, step, Stdin.feof, Stdin.scanf, Stdin.start]
  refine ⟨_, (System.reachable_of_init rfl).run hrun, isEmptyElim,
    .inr ⟨reader, x, ?_⟩⟩
  simp

end Strand

/-- The program strands no integer in any run exactly when there is nothing to
read, nobody to read it, or a single producer and somebody to consume. -/
theorem never_stranded_iff [Fintype Consumer] (f : CInt → CLong)
    (input : List CInt) (trailing : Bool) :
    (∀ state : State CInt CLong Producer Consumer,
        (system f input trailing).Reachable state → ¬ Stranded state) ↔
      input = [] ∨ IsEmpty Producer ∨
        (Subsingleton Producer ∧ Nonempty Consumer) := by
  constructor
  · intro hnever
    by_contra hcondition
    simp only [not_or, not_and, not_isEmpty_iff, not_nonempty_iff]
      at hcondition
    obtain ⟨hinput, ⟨reader⟩, hsolo⟩ := hcondition
    rcases isEmpty_or_nonempty Consumer with hempty | ⟨⟨consumer⟩⟩
    · obtain ⟨state, hreach, hstranded⟩ :=
        exists_stranded_of_isEmpty f input trailing Consumer reader hinput
      exact hnever state hreach hstranded
    · have hmany : ¬ Subsingleton Producer := fun hsub =>
        (hsolo hsub).elim consumer
      rw [not_subsingleton_iff_nontrivial] at hmany
      obtain ⟨other, hne⟩ := exists_ne reader
      obtain ⟨state, hreach, hstranded⟩ :=
        exists_stranded_of_two f input trailing hne consumer hinput
      exact hnever state hreach hstranded
  · intro hcondition state hreach
    rcases hcondition with hinput | hproducer | ⟨hsolo, hconsumer⟩
    · exact (untouched_reachable (fun _ => hinput) hreach).not_stranded
    · exact (untouched_reachable
        (fun hnonempty => (not_isEmpty_iff.mpr hnonempty hproducer).elim)
        hreach).not_stranded
    · exact (closed_reachable hreach).not_stranded

/-- Two producers, one consumer and the input `5`: the first producer reads the
integer, the second sees the end of the input and raises `is_eof`, and the
consumer leaves. -/
theorem stranded_two_producers :
    ∃ state : State ℤ ℤ Bool Unit,
      (system id [5] true).Reachable state ∧ Stranded state := by
  refine ⟨_, (System.reachable_of_init rfl).run (System.run_of_foldlM
    [.producer true, .producer true, .producer false, .producer false,
      .producer false, .consumer ()] rfl), fun _ => rfl, .inr ⟨true, 5, rfl⟩⟩

end JyyOS.Midterm.V1
