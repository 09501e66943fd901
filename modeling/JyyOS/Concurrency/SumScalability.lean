import JyyOS.Core.ThreadSum
import JyyOS.Core.Transition

/-!
# Counting under a spinlock (`sum-scalability.c`, `thread-sync.h`)

The lock is one `int` that `atomic_xchg` writes and reads in one step; `sum++`
is a load and a later store.  `main` creates the threads in the pool of
`thread.h`, joins them and asserts the total.
-/

namespace JyyOS.SumScalability

open JyyOS.Transition

/-! ## The program -/

/-- Where a thread is in `Tsum`, by what it does next. -/
inductive Point where
  /-- `i < n` -/
  | test
  /-- `atomic_xchg(lk, 1)` in the loop of `spin_lock`. -/
  | lock
  /-- The load of `sum++`. -/
  | load
  /-- The store of `sum++`, with the value loaded. -/
  | store (loaded : ℕ)
  /-- `atomic_xchg(lk, 0)`, and `i++` after it. -/
  | unlock
  | returned
deriving DecidableEq

structure Local where
  i : ℕ
  point : Point

/-- Where `main` is. -/
inductive Main where
  /-- In the loop with `create(Tsum)`, by its `i`. -/
  | creating (i : ℕ)
  /-- In the loop of `join`, by its `i`. -/
  | joining (i : ℕ)
  /-- Behind `assert(sum == n * nthread)`, with its outcome. -/
  | asserted (holds : Bool)
  /-- `assert(tptr - tpool < NTHREAD)` failed in `create`. -/
  | full

abbrev NTHREAD := 6400

structure State (nthread : ℕ) where
  lock : ℤ
  sum : ℕ
  locals : Fin nthread → Local
  main : Main

inductive Actor (nthread : ℕ) where
  | main
  | thread (thread : Fin nthread)

variable {n nthread : ℕ}

/-- One step of a thread: the shared variables and its own state after it. -/
def Tsum (n : ℕ) (lock : ℤ) (sum : ℕ) (own : Local) : ℤ × ℕ × Local :=
  match own.point with
  | .test => (lock, sum, ⟨own.i, if own.i < n then .lock else .returned⟩)
  | .lock => (1, sum, ⟨own.i, if lock = 0 then .load else .lock⟩)
  | .load => (lock, sum, ⟨own.i, .store sum⟩)
  | .store loaded => (lock, loaded + 1, ⟨own.i, .unlock⟩)
  | .unlock => (0, sum, ⟨own.i + 1, .test⟩)
  | .returned => (lock, sum, own)

/-- The threads that `main` has created. -/
def Main.created (nthread : ℕ) : Main → ℕ
  | .creating i => i
  | .joining _ | .asserted _ => nthread
  | .full => NTHREAD

/-- One step of `main`, `none` while `pthread_join` blocks and at the end.  Every
thread that was created is `T_LIVE` until it has been joined. -/
def State.mainStep (n : ℕ) (state : State nthread) : Option Main :=
  match state.main with
  | .creating i =>
      if i < nthread then some (if i < NTHREAD then .creating (i + 1) else .full)
      else some (.joining 0)
  | .joining i =>
      if h : i < nthread then
        if (state.locals ⟨i, h⟩).point = .returned then some (.joining (i + 1)) else none
      else some (.asserted (state.sum = n * nthread))
  | .asserted _ | .full => none

def State.step (n : ℕ) (state : State nthread) : Actor nthread → Option (State nthread)
  | .main => do some { state with main := ← state.mainStep n }
  | .thread thread =>
      if thread < state.main.created nthread ∧
          (state.locals thread).point ≠ .returned then
        let (lock, sum, own) := Tsum n state.lock state.sum (state.locals thread)
        some { state with
          lock := lock
          sum := sum
          locals := Function.update state.locals thread own }
      else none

def initial (nthread : ℕ) : State nthread :=
  ⟨0, 0, fun _ => ⟨0, .test⟩, .creating 0⟩

/-- Any interleaving of `main` and the threads. -/
def program (n nthread : ℕ) : System (State nthread) (Actor nthread) :=
  .ofPartial (fun state => state = initial nthread) (State.step n)

/-! ## Mutual exclusion and the count -/

/-- The thread is between a successful `spin_lock` and its `spin_unlock`. -/
def Local.Inside (own : Local) : Prop :=
  match own.point with
  | .load | .store _ | .unlock => True
  | _ => False

/-- The stores of `sum` that the thread has made. -/
def Local.stored (own : Local) : ℕ := if own.point = .unlock then own.i + 1 else own.i

/-- Where the loop counter is allowed to be. -/
def Local.Counts (n : ℕ) (own : Local) : Prop :=
  match own.point with
  | .test => own.i ≤ n
  | .returned => own.i = n
  | _ => own.i < n

structure Inv (n : ℕ) (lock : ℤ) (sum : ℕ) (locals : Fin nthread → Local) : Prop where
  alone : ∀ thread other, (locals thread).Inside → (locals other).Inside →
    thread = other
  free : lock = 0 ↔ ∀ thread, ¬ (locals thread).Inside
  /-- A loaded value is not stale. -/
  fresh : ∀ thread loaded, (locals thread).point = .store loaded → loaded = sum
  stored : sum = ∑ thread, (locals thread).stored
  counts : ∀ thread, (locals thread).Counts n

section Inv

variable {lock : ℤ} {sum : ℕ} {locals : Fin nthread → Local} {thread : Fin nthread}
  {own : Local}

theorem Inv.counts_update (hinv : Inv n lock sum locals) (hcounts : own.Counts n) :
    ∀ other, (Function.update locals thread own other).Counts n :=
  (Function.forall_update_iff locals fun _ own => own.Counts n).mpr
    ⟨hcounts, fun other _ => hinv.counts other⟩

theorem Inv.fresh_update (hinv : Inv n lock sum locals)
    (hfresh : ∀ loaded, own.point = .store loaded → loaded = sum) :
    ∀ other loaded, (Function.update locals thread own other).point = .store loaded →
      loaded = sum :=
  (Function.forall_update_iff locals fun _ own =>
    ∀ loaded, own.point = .store loaded → loaded = sum).mpr
    ⟨hfresh, fun other _ => hinv.fresh other⟩

/-- A thread that neither enters nor leaves, and stores nothing. -/
theorem Inv.move (hinv : Inv n lock sum locals)
    (hinside : own.Inside ↔ (locals thread).Inside)
    (hfresh : ∀ loaded, own.point = .store loaded → loaded = sum)
    (hstored : own.stored = (locals thread).stored) (hcounts : own.Counts n) :
    Inv n lock sum (Function.update locals thread own) := by
  have hiff : ∀ other, (Function.update locals thread own other).Inside ↔
      (locals other).Inside :=
    (Function.forall_update_iff locals fun other own =>
      own.Inside ↔ (locals other).Inside).mpr ⟨hinside, fun _ _ => Iff.rfl⟩
  refine ⟨?_, ?_, hinv.fresh_update hfresh, ?_, hinv.counts_update hcounts⟩
  · intro first second hfirst hsecond
    exact hinv.alone first second ((hiff first).mp hfirst) ((hiff second).mp hsecond)
  · rw [hinv.free]
    exact forall_congr' fun other => not_congr (hiff other).symm
  · rw [ThreadSum.sum_update_eq (fun _ => Local.stored) locals thread own hstored]
    exact hinv.stored

/-- `atomic_xchg` finds the lock free. -/
theorem Inv.acquire (hinv : Inv n 0 sum locals) (hpoint : (locals thread).point = .lock) :
    Inv n 1 sum (Function.update locals thread ⟨(locals thread).i, .load⟩) := by
  have hnobody := hinv.free.mp rfl
  have honly : ∀ other, (Function.update locals thread ⟨(locals thread).i, .load⟩
      other).Inside → other = thread :=
    (Function.forall_update_iff locals fun other own => own.Inside → other = thread).mpr
      ⟨fun _ => rfl, fun other _ hinside => absurd hinside (hnobody other)⟩
  have hcounts := hinv.counts thread
  simp only [Local.Counts, hpoint] at hcounts
  refine ⟨?_, ?_, hinv.fresh_update nofun, ?_, hinv.counts_update hcounts⟩
  · intro first second hfirst hsecond
    rw [honly first hfirst, honly second hsecond]
  · refine iff_of_false one_ne_zero fun hall => hall thread ?_
    rw [Function.update_self]
    trivial
  · rw [ThreadSum.sum_update_eq (fun _ => Local.stored) locals thread]
    · exact hinv.stored
    · simp [Local.stored, hpoint]

/-- The store of `sum++`, which nobody has overtaken. -/
theorem Inv.store (hinv : Inv n lock sum locals) {loaded : ℕ}
    (hpoint : (locals thread).point = .store loaded) :
    Inv n lock (loaded + 1)
      (Function.update locals thread ⟨(locals thread).i, .unlock⟩) := by
  have hinside : (locals thread).Inside := by
    rw [Local.Inside, hpoint]
    trivial
  have hcounts := hinv.counts thread
  simp only [Local.Counts, hpoint] at hcounts
  have hiff : ∀ other, (Function.update locals thread ⟨(locals thread).i, .unlock⟩
      other).Inside ↔ (locals other).Inside :=
    (Function.forall_update_iff locals fun other own =>
      own.Inside ↔ (locals other).Inside).mpr
      ⟨iff_of_true trivial hinside, fun _ _ => Iff.rfl⟩
  refine ⟨?_, ?_, ?_, ?_, hinv.counts_update hcounts⟩
  · intro first second hfirst hsecond
    exact hinv.alone first second ((hiff first).mp hfirst) ((hiff second).mp hsecond)
  · rw [hinv.free]
    exact forall_congr' fun other => not_congr (hiff other).symm
  · refine (Function.forall_update_iff locals fun _ own =>
      ∀ value, own.point = .store value → value = loaded + 1).mpr ⟨?_, ?_⟩
    · nofun
    · intro other hother value hvalue
      have hstoring : (locals other).Inside := by
        rw [Local.Inside, hvalue]
        trivial
      exact absurd (hinv.alone other thread hstoring hinside) hother
  · have hsum := ThreadSum.sum_update (fun _ => Local.stored) locals thread
      ⟨(locals thread).i, .unlock⟩
    simp only [Local.stored, hpoint, if_true] at hsum
    have hloaded := hinv.fresh thread loaded hpoint
    have hstored := hinv.stored
    simp only [Local.stored] at hstored ⊢
    simp only [reduceCtorEq, if_false] at hsum
    omega

/-- `spin_unlock` and the end of the round. -/
theorem Inv.unlock (hinv : Inv n lock sum locals)
    (hpoint : (locals thread).point = .unlock) :
    Inv n 0 sum (Function.update locals thread ⟨(locals thread).i + 1, .test⟩) := by
  have hinside : (locals thread).Inside := by
    rw [Local.Inside, hpoint]
    trivial
  have hcounts := hinv.counts thread
  simp only [Local.Counts, hpoint] at hcounts
  have hnobody : ∀ other, ¬ (Function.update locals thread
      ⟨(locals thread).i + 1, .test⟩ other).Inside := by
    refine (Function.forall_update_iff locals fun _ own => ¬ own.Inside).mpr ⟨?_, ?_⟩
    · exact not_false
    · intro other hother hinside'
      exact hother (hinv.alone other thread hinside' hinside)
  refine ⟨?_, iff_of_true rfl hnobody, hinv.fresh_update nofun, ?_,
    hinv.counts_update hcounts⟩
  · intro first second hfirst
    exact absurd hfirst (hnobody first)
  · rw [ThreadSum.sum_update_eq (fun _ => Local.stored) locals thread]
    · exact hinv.stored
    · simp [Local.stored, hpoint]

/-- Every step of a thread keeps the invariant. -/
theorem Inv.Tsum (hinv : Inv n lock sum locals) (thread : Fin nthread) :
    Inv n (SumScalability.Tsum n lock sum (locals thread)).1
      (SumScalability.Tsum n lock sum (locals thread)).2.1
      (Function.update locals thread
        (SumScalability.Tsum n lock sum (locals thread)).2.2) := by
  have hcounts := hinv.counts thread
  unfold SumScalability.Tsum
  cases hpoint : (locals thread).point with
  | test =>
      simp only [Local.Counts, hpoint] at hcounts
      apply hinv.move
      · simp only [Local.Inside, hpoint]
        split_ifs <;> rfl
      · intro loaded hloaded
        split_ifs at hloaded
      · simp only [Local.stored, hpoint]
        split_ifs <;> simp_all
      · simp only [Local.Counts]
        split_ifs with htest
        · exact htest
        · exact le_antisymm hcounts (not_lt.mp htest)
  | lock =>
      by_cases hlock : lock = 0
      · subst hlock
        exact hinv.acquire hpoint
      · simp only [if_neg hlock]
        have htaken : Inv n 1 sum locals := { hinv with
          free := (iff_of_false one_ne_zero hlock).trans hinv.free }
        simp only [Local.Counts, hpoint] at hcounts
        exact htaken.move (by simp [Local.Inside, hpoint]) nofun
          (by simp [Local.stored, hpoint]) hcounts
  | load =>
      simp only [Local.Counts, hpoint] at hcounts
      apply hinv.move
      · simp [Local.Inside, hpoint]
      · intro loaded hloaded
        cases hloaded
        rfl
      · simp [Local.stored, hpoint]
      · exact hcounts
  | store loaded => exact hinv.store hpoint
  | unlock => exact hinv.unlock hpoint
  | returned =>
      simp only [Function.update_eq_self]
      exact hinv

end Inv

/-! ## Every run -/

/-- What `main` has seen of its threads. -/
def Main.Sees (locals : Fin nthread → Local) : Main → Prop
  | .joining i => ∀ thread : Fin nthread, thread < i → (locals thread).point = .returned
  | .asserted holds => holds = true
  | .creating _ | .full => True

/-- When all threads have returned, every increment is in `sum`. -/
theorem Inv.total {lock : ℤ} {sum : ℕ} {locals : Fin nthread → Local}
    (hinv : Inv n lock sum locals)
    (hreturned : ∀ thread, (locals thread).point = .returned) : sum = n * nthread := by
  have hstored : ∀ thread, (locals thread).stored = n := by
    intro thread
    have hcounts := hinv.counts thread
    simp only [Local.Counts, hreturned thread] at hcounts
    simp [Local.stored, hreturned thread, hcounts]
  rw [hinv.stored, Finset.sum_congr rfl fun thread _ => hstored thread]
  simp [mul_comm]

theorem step_cases {before after : State nthread} {actor : Actor nthread}
    (hstep : before.step n actor = some after) :
    (∃ main, before.mainStep n = some main ∧ after = { before with main := main }) ∨
    (∃ thread, (before.locals thread).point ≠ .returned ∧ after = { before with
      lock := (Tsum n before.lock before.sum (before.locals thread)).1
      sum := (Tsum n before.lock before.sum (before.locals thread)).2.1
      locals := Function.update before.locals thread
        (Tsum n before.lock before.sum (before.locals thread)).2.2 }) := by
  cases actor with
  | main =>
      obtain ⟨main, hmain, hafter⟩ := Option.bind_eq_some_iff.mp hstep
      cases hafter
      exact .inl ⟨main, hmain, rfl⟩
  | thread thread =>
      simp only [State.step] at hstep
      split_ifs at hstep with hcan
      cases hstep
      exact .inr ⟨thread, hcan.2, rfl⟩

/-- `main` goes on past a thread only when it has returned. -/
theorem mainStep_sees {state : State nthread} {main : Main}
    (hinv : Inv n state.lock state.sum state.locals) (hsees : state.main.Sees state.locals)
    (hmain : state.mainStep n = some main) : main.Sees state.locals := by
  unfold State.mainStep at hmain
  split at hmain
  case h_1 i _ =>
    split_ifs at hmain <;> cases hmain
    · trivial
    · trivial
    · exact fun _ hthread => absurd hthread (Nat.not_lt_zero _)
  case h_2 i hjoining =>
    rw [hjoining] at hsees
    split_ifs at hmain with hi hreturned
    · cases hmain
      intro thread hthread
      obtain hless | heq := Nat.lt_succ_iff_lt_or_eq.mp hthread
      · exact hsees thread hless
      · rw [← hreturned]
        congr 2
        exact Fin.ext heq
    · cases hmain
      apply decide_eq_true
      apply hinv.total
      intro thread
      exact hsees thread (lt_of_lt_of_le thread.isLt (not_lt.mp hi))
  case h_3 => cases hmain
  case h_4 => cases hmain

/-- Nobody takes a returned thread back. -/
theorem sees_update {locals : Fin nthread → Local} {thread : Fin nthread}
    (hthread : (locals thread).point ≠ .returned) (own : Local) {main : Main}
    (hsees : main.Sees locals) : main.Sees (Function.update locals thread own) := by
  cases main with
  | joining i =>
      intro other hother
      have hreturned := hsees other hother
      rw [Function.update_of_ne]
      · exact hreturned
      · rintro rfl
        exact hthread hreturned
  | creating _ | asserted _ | full => exact hsees

theorem inv_of_reachable {state : State nthread}
    (hreach : (program n nthread).Reachable state) :
    Inv n state.lock state.sum state.locals ∧ state.main.Sees state.locals := by
  apply System.invariant_of_step (I := fun state : State nthread =>
    Inv n state.lock state.sum state.locals ∧ state.main.Sees state.locals) ?_ ?_ hreach
  · rintro _ rfl
    refine ⟨⟨nofun, iff_of_true rfl nofun, nofun, ?_, ?_⟩, trivial⟩
    · simp [initial, Local.stored]
    · intro thread
      exact Nat.zero_le n
  · rintro before actor after - ⟨hinv, hsees⟩ hstep
    obtain ⟨main, hmain, rfl⟩ | ⟨thread, hthread, rfl⟩ := step_cases hstep
    · have hafter : main.Sees before.locals := mainStep_sees hinv hsees hmain
      exact ⟨hinv, hafter⟩
    · exact ⟨hinv.Tsum thread, sees_update hthread _ hsees⟩

/-- In every run at most one thread is between `spin_lock` and `spin_unlock`, no
increment is lost, and the assertion of `main` holds. -/
theorem spinlock_loses_no_update (n nthread : ℕ) (state : State nthread)
    (hreach : (program n nthread).Reachable state) :
    (∀ thread other, (state.locals thread).Inside → (state.locals other).Inside →
      thread = other) ∧
    ((∀ thread, (state.locals thread).point = .returned) → state.sum = n * nthread) ∧
    ∀ holds, state.main = .asserted holds → holds = true := by
  obtain ⟨hinv, hsees⟩ := inv_of_reachable hreach
  refine ⟨hinv.alone, hinv.total, ?_⟩
  intro holds hmain
  rw [hmain] at hsees
  exact hsees

/-- Two threads with one round each, the second one spinning once, to the end of
`main`. -/
def schedule : List (Actor 2) :=
  [.main, .thread 0, .main, .thread 1, .main, .thread 0, .thread 1, .thread 0, .thread 0,
    .thread 0, .thread 1, .thread 0, .thread 1, .main, .thread 1, .thread 1, .thread 1,
    .main, .main]

theorem spinlock_loses_no_update_two :
    ∃ state, schedule.foldlM (State.step 1) (initial 2) = some state ∧
      (program 1 2).Reachable state ∧
      (∀ thread, (state.locals thread).point = .returned) ∧
      state.sum = 1 * 2 ∧ state.main = .asserted true := by
  have hreach : ∀ state, schedule.foldlM (State.step 1) (initial 2) = some state →
      (program 1 2).Reachable state := fun state hstate =>
    (System.reachable_of_init rfl).run (System.run_of_foldlM schedule hstate)
  have hreturned : ∀ state, schedule.foldlM (State.step 1) (initial 2) = some state →
      ∀ thread, (state.locals thread).point = .returned := by
    rintro _ ⟨⟩ thread
    fin_cases thread <;> rfl
  refine ⟨_, rfl, hreach _ rfl, hreturned _ rfl, ?_, rfl⟩
  exact (spinlock_loses_no_update 1 2 _ (hreach _ rfl)).2.1 (hreturned _ rfl)

end JyyOS.SumScalability
