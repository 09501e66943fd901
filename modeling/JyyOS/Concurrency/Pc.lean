import JyyOS.Core.Monitor
import JyyOS.Concurrency.Brackets

/-!
# The mutex and condition-variable producer-consumers (`pc.c`, `pc-cv.c`)

Both programs keep `count` and the printed brackets in step inside one critical
section.  `pc.c` retries with the mutex released while the buffer is full or
empty; `pc-cv.c` waits on one condition variable that producers and consumers
share and broadcasts after every change of `count`.
-/

namespace JyyOS.Pc

open JyyOS.Brackets
open JyyOS.Monitor

/-- `count` and what has been printed so far. -/
structure Shared where
  count : ℤ
  out : List Char

def Shared.add (shared : Shared) (change : ℤ) : Shared :=
  { shared with count := shared.count + change }

def Shared.printf (shared : Shared) (symbol : Char) : Shared :=
  { shared with out := shared.out ++ [symbol] }

/-- `int n, count = 0;` and an empty standard output. -/
def Shared.init : Shared := ⟨0, []⟩

/-- The condition under which a thread of this role has to wait. -/
def stuck (n : ℕ) : Role → Shared → Bool
  | .producer, shared => shared.count == n
  | .consumer, shared => shared.count == 0

def change : Role → ℤ
  | .producer => 1
  | .consumer => -1

def symbol : Role → Char
  | .producer => '('
  | .consumer => ')'

/-- `count` counts the open brackets, and so did every earlier prefix. -/
def Consistent (n : ℕ) (shared : Shared) : Prop :=
  depth shared.out = shared.count ∧ Bounded n shared.out

theorem depth_symbol (role : Role) : depth [symbol role] = change role := by
  cases role <;> rfl

theorem Consistent.range {n : ℕ} {shared : Shared}
    (hconsistent : Consistent n shared) :
    0 ≤ shared.count ∧ shared.count ≤ n := by
  rw [← hconsistent.1]
  exact hconsistent.2 _ (List.prefix_refl _)

theorem consistent_init (n : ℕ) : Consistent n Shared.init :=
  ⟨rfl, bounded_nil (Int.natCast_nonneg n)⟩

/-- A thread that does not have to wait can change `count` within bounds. -/
theorem Consistent.room {n : ℕ} {role : Role} {shared : Shared}
    (hconsistent : Consistent n shared) (hroom : stuck n role shared = false) :
    0 ≤ shared.count + change role ∧ shared.count + change role ≤ n := by
  obtain ⟨hlow, hhigh⟩ := hconsistent.range
  cases role with
  | producer =>
      have hne : shared.count ≠ n := by simpa [stuck] using hroom
      simp only [change]
      omega
  | consumer =>
      have hne : shared.count ≠ 0 := by simpa [stuck] using hroom
      simp only [change]
      omega

/-! ## The retrying version -/

namespace Retry

inductive Loc where
  | lock
  | test
  | retry
  | update
  | print
  | unlock

/-- Body shared by `Tproduce` and `Tconsume` of `pc.c`. -/
def body (n : ℕ) (role : Role) : Loc → Instr Loc Shared
  | .lock => .lock .test
  | .test => .branch (stuck n role) .retry .update
  | .retry => .unlock .lock
  | .update => .act (·.add (change role)) .print
  | .print => .act (·.printf (symbol role)) .unlock
  | .unlock => .unlock .lock

def Tproduce (n : ℕ) : Loc → Instr Loc Shared := body n .producer

def Tconsume (n : ℕ) : Loc → Instr Loc Shared := body n .consumer

variable {Thread : Type*}

def code (n : ℕ) (role : Thread → Role) (thread : Thread) :
    Loc → Instr Loc Shared :=
  match role thread with
  | .producer => Tproduce n
  | .consumer => Tconsume n

theorem code_eq (n : ℕ) (role : Thread → Role) (thread : Thread) :
    code n role thread = body n (role thread) := by
  unfold code
  cases role thread <;> rfl

def main (Thread : Type*) : State Thread Loc Shared where
  owner := none
  mode _ := .running .lock
  value := Shared.init

/-- The bracket is still to be printed when `count` has been changed. -/
def outline (n : ℕ) (role : Thread → Role) : Outline Thread Loc Shared where
  locked _
    | .lock => false
    | _ => true
  invariant := Consistent n
  assertion thread
    | .update => fun shared =>
        Consistent n shared ∧ stuck n (role thread) shared = false
    | .print => fun shared =>
        depth shared.out + change (role thread) = shared.count ∧
          0 ≤ shared.count ∧ shared.count ≤ n ∧ Bounded n shared.out
    | _ => Consistent n

theorem outline_valid (n : ℕ) (role : Thread → Role) :
    (outline n role).Valid (code n role) := by
  intro thread loc
  rw [code_eq]
  cases loc with
  | lock => exact ⟨rfl, rfl, fun _ hshared => hshared⟩
  | test =>
      refine ⟨rfl, rfl, rfl, ?_⟩
      intro shared hshared
      cases hstuck : stuck n (role thread) shared with
      | true => exact hshared
      | false => exact ⟨hshared, hstuck⟩
  | retry => exact ⟨rfl, rfl, fun _ hshared => hshared⟩
  | update =>
      refine ⟨rfl, rfl, ?_⟩
      rintro shared ⟨hshared, hroom⟩
      obtain ⟨hlow, hhigh⟩ := hshared.room hroom
      exact ⟨by simp [Shared.add, hshared.1], hlow, hhigh, hshared.2⟩
  | print =>
      refine ⟨rfl, rfl, ?_⟩
      rintro shared ⟨hdepth, hlow, hhigh, hbounded⟩
      have hnew : depth (shared.out ++ [symbol (role thread)]) =
          shared.count := by
        simp [hdepth, depth_symbol]
      exact ⟨hnew, hbounded.snoc (by rw [hnew]; exact ⟨hlow, hhigh⟩)⟩
  | unlock => exact ⟨rfl, rfl, fun _ hshared => hshared⟩

theorem outline_init (n : ℕ) (role : Thread → Role) :
    (outline n role).Holds (main Thread) := by
  refine ⟨fun _ => consistent_init n, fun thread => ⟨by simp [main, outline], ?_⟩⟩
  intro hlocked
  simp [outline] at hlocked

theorem bounded_of_assertion {n : ℕ} {role : Thread → Role} {thread : Thread}
    {loc : Loc} {shared : Shared}
    (hassert : (outline n role).assertion thread loc shared) :
    Bounded n shared.out := by
  cases loc with
  | lock => exact hassert.2
  | test => exact hassert.2
  | retry => exact hassert.2
  | update => exact hassert.1.2
  | print => exact hassert.2.2.2
  | unlock => exact hassert.2

end Retry

/-! ## The waiting version -/

namespace Cv

inductive Loc where
  | lock
  | test
  | wait
  | print
  | update
  | broadcast
  | unlock

/-- Body shared by `Tproduce` and `Tconsume` of `pc-cv.c`. -/
def body (n : ℕ) (role : Role) : Loc → Instr Loc Shared
  | .lock => .lock .test
  | .test => .branch (stuck n role) .wait .print
  | .wait => .wait .test
  | .print => .act (·.printf (symbol role)) .update
  | .update => .act (·.add (change role)) .broadcast
  | .broadcast => .broadcast .unlock
  | .unlock => .unlock .lock

def Tproduce (n : ℕ) : Loc → Instr Loc Shared := body n .producer

def Tconsume (n : ℕ) : Loc → Instr Loc Shared := body n .consumer

variable {Thread : Type*}

def code (n : ℕ) (role : Thread → Role) (thread : Thread) :
    Loc → Instr Loc Shared :=
  match role thread with
  | .producer => Tproduce n
  | .consumer => Tconsume n

theorem code_eq (n : ℕ) (role : Thread → Role) (thread : Thread) :
    code n role thread = body n (role thread) := by
  unfold code
  cases role thread <;> rfl

def main (Thread : Type*) : State Thread Loc Shared where
  owner := none
  mode _ := .running .lock
  value := Shared.init

/-- Here the bracket is printed first and `count` follows. -/
def outline (n : ℕ) (role : Thread → Role) : Outline Thread Loc Shared where
  locked _
    | .lock => false
    | _ => true
  invariant := Consistent n
  assertion thread
    | .wait => fun shared =>
        Consistent n shared ∧ stuck n (role thread) shared = true
    | .print => fun shared =>
        Consistent n shared ∧ stuck n (role thread) shared = false
    | .update => fun shared =>
        depth shared.out = shared.count + change (role thread) ∧
          Bounded n shared.out
    | _ => Consistent n

theorem outline_valid (n : ℕ) (role : Thread → Role) :
    (outline n role).Valid (code n role) := by
  intro thread loc
  rw [code_eq]
  cases loc with
  | lock => exact ⟨rfl, rfl, fun _ hshared => hshared⟩
  | test =>
      refine ⟨rfl, rfl, rfl, ?_⟩
      intro shared hshared
      cases hstuck : stuck n (role thread) shared with
      | true => exact ⟨hshared, hstuck⟩
      | false => exact ⟨hshared, hstuck⟩
  | wait => exact ⟨rfl, rfl, fun _ hshared => hshared.1, fun _ hshared => hshared⟩
  | print =>
      refine ⟨rfl, rfl, ?_⟩
      rintro shared ⟨hshared, hroom⟩
      have hnew : depth (shared.out ++ [symbol (role thread)]) =
          shared.count + change (role thread) := by
        simp [hshared.1, depth_symbol]
      exact ⟨hnew, hshared.2.snoc (by rw [hnew]; exact hshared.room hroom)⟩
  | update => exact ⟨rfl, rfl, fun _ hshared => hshared⟩
  | broadcast => exact ⟨rfl, fun _ hshared => hshared⟩
  | unlock => exact ⟨rfl, rfl, fun _ hshared => hshared⟩

theorem outline_init (n : ℕ) (role : Thread → Role) :
    (outline n role).Holds (main Thread) := by
  refine ⟨fun _ => consistent_init n, fun thread => ⟨by simp [main, outline], ?_⟩⟩
  intro hlocked
  simp [outline] at hlocked

theorem bounded_of_assertion {n : ℕ} {role : Thread → Role} {thread : Thread}
    {loc : Loc} {shared : Shared}
    (hassert : (outline n role).assertion thread loc shared) :
    Bounded n shared.out := by
  cases loc with
  | lock => exact hassert.2
  | test => exact hassert.2
  | wait => exact hassert.1.2
  | print => exact hassert.1.2
  | update => exact hassert.2
  | broadcast => exact hassert.2
  | unlock => exact hassert.2

/-- A thread sleeps because it is stuck.  Between the change of `count` and the
broadcast that may be outdated. -/
def wakeup (n : ℕ) (role : Thread → Role) : Wakeup Thread Loc Shared where
  reason thread shared := stuck n (role thread) shared = true
  dirty _
    | .broadcast => true
    | _ => false

theorem wakeup_valid (n : ℕ) (role : Thread → Role) :
    (wakeup n role).Valid (outline n role) (code n role) := by
  intro thread loc
  rw [code_eq]
  cases loc with
  | lock => trivial
  | test => exact ⟨rfl, rfl⟩
  | wait => exact ⟨rfl, fun _ hshared => hshared.2⟩
  | print =>
      intro _
      refine ⟨rfl, ?_⟩
      intro sleeper shared _ hreason
      simp only [wakeup] at hreason ⊢
      cases hrole : role sleeper <;> simpa [hrole, stuck, Shared.printf] using hreason
  | update => intro hdirty; cases hdirty
  | broadcast => trivial
  | unlock => rfl

theorem wakeup_init (n : ℕ) (role : Thread → Role) :
    (wakeup n role).Holds (main Thread) := by
  intro _ sleeper resume hasleep
  cases hasleep

end Cv

/-! ## The bounded-buffer contract -/

variable {Thread : Type*} [DecidableEq Thread]

omit [DecidableEq Thread] in
/-- If the outline bounds the output at every location, it bounds it in every
state it describes. -/
theorem bounded_of_holds {Loc : Type*} {n : ℕ}
    {outline : Outline Thread Loc Shared} {state : State Thread Loc Shared}
    (hholds : outline.Holds state)
    (hfree : ∀ shared, outline.invariant shared → Bounded n shared.out)
    (hheld : ∀ thread loc shared,
      outline.assertion thread loc shared → Bounded n shared.out) :
    Bounded n state.value.out := by
  cases howner : state.owner with
  | none => exact hfree _ (hholds.free howner)
  | some thread =>
      obtain ⟨loc, hmode, hlocked⟩ := hholds.running_of_owner howner
      exact hheld thread loc _ (hholds.owner hmode hlocked).2

theorem stuck_both {n : ℕ} {shared : Shared}
    (hproducer : stuck n .producer shared = true)
    (hconsumer : stuck n .consumer shared = true) : n = 0 := by
  simp only [stuck, beq_iff_eq] at hproducer hconsumer
  omega

section Output

variable {role : Thread → Role} {n : ℕ}

theorem Retry.out_bounded {state : State Thread Retry.Loc Shared}
    (hreach : (system (Retry.code n role) (Retry.main Thread)).Reachable state) :
    Bounded n state.value.out :=
  bounded_of_holds
    (Outline.holds_of_reachable (Retry.outline_valid n role) (Retry.outline_init n role) hreach)
    (fun _ hshared => hshared.2) fun _ _ _ => Retry.bounded_of_assertion

theorem Cv.out_bounded {state : State Thread Cv.Loc Shared}
    (hreach : (system (Cv.code n role) (Cv.main Thread)).Reachable state) :
    Bounded n state.value.out :=
  bounded_of_holds
    (Outline.holds_of_reachable (Cv.outline_valid n role) (Cv.outline_init n role) hreach)
    (fun _ hshared => hshared.2) fun _ _ _ => Cv.bounded_of_assertion

/-- Whatever either program has printed passes `pc-check.py`. -/
theorem pcCheck_out :
    (∀ state, (system (Retry.code n role) (Retry.main Thread)).Reachable state →
      pcCheck n 0 state.value.out = true) ∧
    ∀ state, (system (Cv.code n role) (Cv.main Thread)).Reachable state →
      pcCheck n 0 state.value.out = true :=
  ⟨fun _ hreach => pcCheck_eq_true (Retry.out_bounded hreach),
    fun _ hreach => pcCheck_eq_true (Cv.out_bounded hreach)⟩

end Output

/-- `pc.c` and `pc-cv.c` print within bounds and keep `count` equal to the
bracket depth whenever the mutex is free; in `pc-cv.c` with a slot and a thread
of each kind never are all threads asleep, and some thread can always move. -/
theorem bounded_buffer_contract (role : Thread → Role) (n : ℕ) :
    (∀ state, (system (Retry.code n role) (Retry.main Thread)).Reachable state →
        Bounded n state.value.out ∧
          (state.owner = none → depth state.value.out = state.value.count)) ∧
      (∀ state, (system (Cv.code n role) (Cv.main Thread)).Reachable state →
        Bounded n state.value.out ∧
          (state.owner = none → depth state.value.out = state.value.count) ∧
          (1 ≤ n → (∃ thread, role thread = .producer) →
            (∃ thread, role thread = .consumer) →
              (¬ ∀ thread, ∃ resume, state.mode thread = .asleep resume) ∧
                ¬ ∀ thread, Blocked (Cv.code n role) state thread)) := by
  constructor
  · intro state hreach
    have hholds := Outline.holds_of_reachable (Retry.outline_valid n role)
      (Retry.outline_init n role) hreach
    exact ⟨Retry.out_bounded hreach, fun howner => (hholds.free howner).1⟩
  · intro state hreach
    have hholds := Outline.holds_of_reachable (Cv.outline_valid n role)
      (Cv.outline_init n role) hreach
    have hwakeup := Wakeup.holds_of_reachable (Cv.outline_valid n role)
      (Cv.wakeup_valid n role) (Cv.outline_init n role)
      (Cv.wakeup_init n role) hreach
    refine ⟨Cv.out_bounded hreach, fun howner => (hholds.free howner).1, ?_⟩
    rintro hn ⟨producer, hproducer⟩ ⟨consumer, hconsumer⟩
    have hawake : ¬ ∀ thread, ∃ resume, state.mode thread = .asleep resume := by
      intro hasleep
      have hclean : (Cv.wakeup n role).Clean state := by
        intro thread loc _ hmode
        obtain ⟨resume, hresume⟩ := hasleep thread
        rw [hmode] at hresume
        cases hresume
      obtain ⟨_, hfirst⟩ := hasleep producer
      obtain ⟨_, hsecond⟩ := hasleep consumer
      have hfull := hwakeup hclean producer _ hfirst
      have hempty := hwakeup hclean consumer _ hsecond
      simp only [Cv.wakeup, hproducer, hconsumer] at hfull hempty
      exact absurd (stuck_both hfull hempty) (by omega)
    exact ⟨hawake, fun hblocked => hawake fun thread =>
      Outline.asleep_of_all_blocked (Cv.outline_valid n role) hholds hblocked
        thread⟩

/-- One producer and one consumer over one slot, after a whole iteration of
the producer in either program. -/
theorem bounded_buffer_contract_one_slot :
    (∃ state, (List.replicate 5 (Label.run Role.producer)).foldlM
          (step (Retry.code 1 id)) (Retry.main Role) = some state ∧
        Bounded 1 state.value.out ∧ depth state.value.out = state.value.count) ∧
      ∃ state, (List.replicate 6 (Label.run Role.producer)).foldlM
          (step (Cv.code 1 id)) (Cv.main Role) = some state ∧
        state.value.out = ['('] ∧ Bounded 1 state.value.out ∧
        depth state.value.out = state.value.count ∧
        ¬ ∀ thread, Blocked (Cv.code 1 id) state thread := by
  obtain ⟨hretry, hcv⟩ := bounded_buffer_contract (id : Role → Role) 1
  constructor
  · refine ⟨_, rfl, ?_⟩
    obtain ⟨hbounded, hcount⟩ := hretry _
      ((Transition.System.reachable_of_init rfl).run
        (Transition.System.run_of_foldlM (List.replicate 5 (.run .producer)) rfl))
    exact ⟨hbounded, hcount rfl⟩
  · refine ⟨_, rfl, rfl, ?_⟩
    obtain ⟨hbounded, hcount, hlive⟩ := hcv _
      ((Transition.System.reachable_of_init rfl).run
        (Transition.System.run_of_foldlM (List.replicate 6 (.run .producer)) rfl))
    exact ⟨hbounded, hcount rfl,
      (hlive (le_refl 1) ⟨.producer, rfl⟩ ⟨.consumer, rfl⟩).2⟩

end JyyOS.Pc
