import Mathlib.Logic.Relation
import Mathlib.Tactic

/-!
# Fair schedules and what they lead to

The threads of a program are resumed one at a time by a schedule, an infinite
sequence of thread names.  A schedule is fair when it resumes every thread again and
again.  The main rule derives progress from a rank: every step keeps it or lowers it,
and as long as it is kept, one and the same thread would lower it.
-/

namespace JyyOS.Fairness

variable {State Thread : Type*} (step : State → Thread → State)

/-- The state after this many turns of the schedule. -/
def run (start : State) (schedule : ℕ → Thread) : ℕ → State
  | 0 => start
  | n + 1 => step (run start schedule n) (schedule n)

/-- Every thread has infinitely many turns. -/
def Fair (schedule : ℕ → Thread) : Prop :=
  ∀ thread n, ∃ m, n ≤ m ∧ schedule m = thread

/-- Under every fair schedule `Q` holds some time after `P` did. -/
def LeadsTo (P Q : State → Prop) : Prop :=
  ∀ schedule, Fair schedule → ∀ start, P start → ∃ n, Q (run step start schedule n)

variable {step} {P Q R : State → Prop} {schedule : ℕ → Thread}

theorem run_add (start : State) (schedule : ℕ → Thread) (n m : ℕ) :
    run step start schedule (n + m) =
      run step (run step start schedule n) (fun k => schedule (n + k)) m := by
  induction m with
  | zero => rfl
  | succ m ih => rw [← Nat.add_assoc, run, run, ih]

/-- A run replays the turns of the schedule. -/
theorem run_eq_foldl (start : State) (schedule : ℕ → Thread) (n : ℕ) :
    run step start schedule n = ((List.range n).map schedule).foldl step start := by
  induction n with
  | zero => rfl
  | succ n ih =>
      rw [run, ih, List.range_succ, List.map_append, List.foldl_append]
      rfl

theorem run_invariant {I : State → Prop} (hstep : ∀ state thread, I state → I (step state thread))
    {start : State} (hstart : I start) (n : ℕ) : I (run step start schedule n) := by
  induction n with
  | zero => exact hstart
  | succ n ih => exact hstep _ _ ih

theorem Fair.shift (hfair : Fair schedule) (n : ℕ) : Fair fun k => schedule (n + k) := by
  intro thread k
  obtain ⟨m, hle, hturn⟩ := hfair thread (n + k)
  refine ⟨m - n, by omega, ?_⟩
  show schedule (n + (m - n)) = thread
  rw [show n + (m - n) = m by omega, hturn]

/-- One thread after the other. -/
theorem fair_ofNat (k : ℕ) [NeZero k] : Fair (Fin.ofNat k) := by
  intro thread n
  refine ⟨n * k + thread, ?_, Fin.ext ?_⟩
  · exact (Nat.le_mul_of_pos_right n (Nat.pos_of_neZero k)).trans (Nat.le_add_right _ _)
  · rw [Fin.val_ofNat, Nat.mul_add_mod_self_right, Nat.mod_eq_of_lt thread.isLt]

namespace LeadsTo

theorem mono {P' Q' : State → Prop} (hleads : LeadsTo step P Q)
    (hbefore : ∀ state, P' state → P state) (hafter : ∀ state, Q state → Q' state) :
    LeadsTo step P' Q' := by
  intro schedule hfair start hstart
  obtain ⟨n, hn⟩ := hleads schedule hfair start (hbefore start hstart)
  exact ⟨n, hafter _ hn⟩

theorem trans (hfirst : LeadsTo step P Q) (hsecond : LeadsTo step Q R) : LeadsTo step P R := by
  intro schedule hfair start hstart
  obtain ⟨n, hn⟩ := hfirst schedule hfair start hstart
  obtain ⟨m, hm⟩ := hsecond _ (hfair.shift n) _ hn
  exact ⟨n + m, by rwa [run_add]⟩

theorem or {P' : State → Prop} (hleft : LeadsTo step P Q) (hright : LeadsTo step P' Q) :
    LeadsTo step (fun state => P state ∨ P' state) Q := by
  intro schedule hfair start hstart
  obtain hstart | hstart := hstart
  · exact hleft schedule hfair start hstart
  · exact hright schedule hfair start hstart

/-- What `P` leads to whenever `P` holds throughout is reached again and again. -/
theorem infinitely_often (hleads : LeadsTo step P Q)
    (hstep : ∀ state thread, P state → P (step state thread)) (hfair : Fair schedule)
    {start : State} (hstart : P start) (n : ℕ) :
    ∃ m, n ≤ m ∧ Q (run step start schedule m) := by
  obtain ⟨k, hk⟩ := hleads _ (hfair.shift n) _ (run_invariant hstep hstart n)
  exact ⟨n + k, Nat.le_add_right n k, by rwa [run_add]⟩

end LeadsTo

/-- A step reaches `Q`, or it keeps `P` and lowers the rank, or it keeps the rank and
the thread that would lower it, and is not a step of that thread. -/
def Approaches (step : State → Thread → State) (P Q : State → Prop) (rank : State → ℕ)
    (helper : State → Thread) (state : State) (thread : Thread) : Prop :=
  Q (step state thread) ∨ P (step state thread) ∧
    (rank (step state thread) < rank state ∨
      thread ≠ helper state ∧ rank (step state thread) = rank state ∧
        helper (step state thread) = helper state)

/-- Until the helper has its turn, `Q` is reached or the rank gets lower. -/
theorem lower_of_turn {rank : State → ℕ} {helper : State → Thread}
    (hstep : ∀ state thread, P state → ¬ Q state → Approaches step P Q rank helper state thread)
    {start : State} (hstart : P start) (wait : ℕ) (hturn : schedule wait = helper start) :
    ∃ n, Q (run step start schedule n) ∨
      P (run step start schedule n) ∧ rank (run step start schedule n) < rank start := by
  induction wait generalizing start schedule with
  | zero =>
      by_cases hgoal : Q start
      · exact ⟨0, .inl hgoal⟩
      · obtain hreached | ⟨hkept, hlower | ⟨hother, -, -⟩⟩ := hstep start (schedule 0) hstart hgoal
        · exact ⟨1, .inl hreached⟩
        · exact ⟨1, .inr ⟨hkept, hlower⟩⟩
        · exact absurd hturn hother
  | succ wait ih =>
      by_cases hgoal : Q start
      · exact ⟨0, .inl hgoal⟩
      · obtain hreached | ⟨hkept, hlower | ⟨-, hrank, hhelper⟩⟩ :=
          hstep start (schedule 0) hstart hgoal
        · exact ⟨1, .inl hreached⟩
        · exact ⟨1, .inr ⟨hkept, hlower⟩⟩
        · obtain ⟨n, hn⟩ := @ih (fun k => schedule (1 + k)) (step start (schedule 0)) hkept
            (by rw [hhelper, ← hturn, Nat.add_comm])
          refine ⟨1 + n, ?_⟩
          rw [run_add, ← hrank]
          exact hn

/-- The rule of ranks. -/
theorem LeadsTo.of_rank (rank : State → ℕ) (helper : State → Thread)
    (hstep : ∀ state thread, P state → ¬ Q state →
      Approaches step P Q rank helper state thread) : LeadsTo step P Q := by
  intro schedule hfair start hstart
  induction hrank : rank start using Nat.strong_induction_on generalizing start schedule with
  | _ value ih =>
      obtain ⟨wait, -, hturn⟩ := hfair (helper start) 0
      obtain ⟨n, hgoal | ⟨hkept, hlower⟩⟩ := lower_of_turn hstep hstart wait hturn
      · exact ⟨n, hgoal⟩
      · obtain ⟨m, hm⟩ := ih _ (hrank ▸ hlower) _ (hfair.shift n) _ hkept rfl
        exact ⟨n + m, by rwa [run_add]⟩

end JyyOS.Fairness
