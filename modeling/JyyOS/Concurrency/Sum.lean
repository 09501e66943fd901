import JyyOS.Core.ThreadSum
import JyyOS.Core.Transition

/-!
# Counting without a lock (`sum.c`, `midterm-demo.c`, `midterm.py`)

Two threads add 1 to `sum` `N` times each.  An increment is a load, an addition
in a register or a variable of the thread, and a store: written out in `do_sum`
and in `t1` and `t2`, and in the one instruction `addq` in `Tsum`, which is not
locked.  The threads of `midterm-demo.c` and `midterm.py` have `N = 3`.
-/

namespace JyyOS.Sum

open JyyOS.Transition

/-! ## The program -/

/-- The next part of an increment. -/
inductive Point where
  /-- `t = sum` -/
  | load
  /-- `t += 1` -/
  | add
  /-- `sum = t` -/
  | store
deriving DecidableEq

/-- A thread with the number of increments it has finished. -/
structure Local where
  i : ℕ
  t : ℕ
  point : Point

structure State where
  sum : ℕ
  locals : Fin 2 → Local

/-- One step of a thread: `sum` and its own state after it. -/
def doSum (sum : ℕ) (own : Local) : ℕ × Local :=
  match own.point with
  | .load => (sum, { own with t := sum, point := .add })
  | .add => (sum, { own with t := own.t + 1, point := .store })
  | .store => (own.t, { own with i := own.i + 1, point := .load })

def State.step (N : ℕ) (state : State) (thread : Fin 2) : Option State :=
  if (state.locals thread).i < N then
    some { sum := (doSum state.sum (state.locals thread)).1
           locals := Function.update state.locals thread
             (doSum state.sum (state.locals thread)).2 }
  else none

def initial : State := ⟨0, fun _ => ⟨0, 0, .load⟩⟩

/-- Any interleaving of the two threads. -/
def program (N : ℕ) : System State (Fin 2) := .ofPartial (· = initial) (State.step N)

/-- Both threads have returned, so that `join` returns. -/
def State.Joined (N : ℕ) (state : State) : Prop := ∀ thread, (state.locals thread).i = N

/-- What `main` can print. -/
def finals (N : ℕ) : Set ℕ :=
  {value | ∃ state, (program N).Reachable state ∧ state.Joined N ∧ state.sum = value}

/-! ## No final value is below 2 or above `2 * N` -/

/-- The increments that both threads have finished. -/
def State.total (state : State) : ℕ := ∑ thread, (state.locals thread).i

/-- The bounds on the copy of a thread when `total` increments are finished.  A
copy made after the first increment of the thread is not 0. -/
def Local.Sound (total : ℕ) (own : Local) : Prop :=
  match own.point with
  | .load => True
  | .add => own.t ≤ total ∧ (1 ≤ own.i → 1 ≤ own.t)
  | .store => 1 ≤ own.t ∧ own.t ≤ total + 1 ∧ (1 ≤ own.i → 2 ≤ own.t)

structure Inv (state : State) : Prop where
  le : state.sum ≤ state.total
  pos : 1 ≤ state.total → 1 ≤ state.sum
  /-- The last store was not the first one of its thread. -/
  two : (∀ thread, 2 ≤ (state.locals thread).i) → 2 ≤ state.sum
  sound : ∀ thread, (state.locals thread).Sound state.total

theorem Local.Sound.mono {own : Local} {total total' : ℕ} (hsound : own.Sound total)
    (hle : total ≤ total') : own.Sound total' := by
  obtain ⟨i, t, point⟩ := own
  cases point with
  | load => trivial
  | add => exact ⟨hsound.1.trans hle, hsound.2⟩
  | store => exact ⟨hsound.1, hsound.2.1.trans (Nat.succ_le_succ hle), hsound.2.2⟩

theorem le_total (state : State) (thread : Fin 2) :
    (state.locals thread).i ≤ state.total :=
  Finset.single_le_sum (f := fun thread => (state.locals thread).i)
    (fun _ _ => Nat.zero_le _) (Finset.mem_univ thread)

/-- The state after a step of a thread. -/
def State.moved (state : State) (thread : Fin 2) (sum : ℕ) (own : Local) : State :=
  ⟨sum, Function.update state.locals thread own⟩

theorem moved_self (state : State) (thread : Fin 2) (sum : ℕ) (own : Local) :
    (state.moved thread sum own).locals thread = own :=
  Function.update_self ..

theorem moved_other (state : State) {thread other : Fin 2} (hother : other ≠ thread)
    (sum : ℕ) (own : Local) :
    (state.moved thread sum own).locals other = state.locals other :=
  Function.update_of_ne hother ..

theorem total_moved (state : State) (thread : Fin 2) (sum : ℕ) (own : Local) :
    (state.moved thread sum own).total + (state.locals thread).i =
      state.total + own.i :=
  ThreadSum.sum_update (fun _ => Local.i) state.locals thread own

theorem sound_moved {state : State} (hinv : Inv state) {thread : Fin 2} {sum : ℕ}
    {own : Local} (hle : state.total ≤ (state.moved thread sum own).total)
    (hown : own.Sound (state.moved thread sum own).total) (other : Fin 2) :
    ((state.moved thread sum own).locals other).Sound
      (state.moved thread sum own).total := by
  by_cases hother : other = thread
  · rwa [hother, moved_self]
  · rw [moved_other state hother]
    exact (hinv.sound other).mono hle

/-- A step that stores nothing. -/
theorem Inv.keep {state : State} (hinv : Inv state) {thread : Fin 2} {own : Local}
    (hi : own.i = (state.locals thread).i) (hown : own.Sound state.total) :
    Inv (state.moved thread state.sum own) := by
  have htotal := total_moved state thread state.sum own
  rw [hi, Nat.add_right_cancel_iff] at htotal
  have his : ∀ other, ((state.moved thread state.sum own).locals other).i =
      (state.locals other).i := by
    intro other
    by_cases hother : other = thread
    · rw [hother, moved_self, hi]
    · rw [moved_other state hother]
  refine ⟨?_, ?_, ?_, ?_⟩
  · rw [htotal]
    exact hinv.le
  · rw [htotal]
    exact hinv.pos
  · intro htwo
    exact hinv.two fun other => his other ▸ htwo other
  · exact sound_moved hinv htotal.ge (htotal.symm ▸ hown)

theorem Inv.store {state : State} (hinv : Inv state) {thread : Fin 2}
    (hpoint : (state.locals thread).point = .store) :
    Inv (state.moved thread (state.locals thread).t
      ⟨(state.locals thread).i + 1, (state.locals thread).t, .load⟩) := by
  have hown := hinv.sound thread
  simp only [Local.Sound, hpoint] at hown
  have htotal := total_moved state thread (state.locals thread).t
    ⟨(state.locals thread).i + 1, (state.locals thread).t, .load⟩
  change _ = _ + ((state.locals thread).i + 1) at htotal
  refine ⟨?_, ?_, ?_, ?_⟩
  · show (state.locals thread).t ≤ _
    omega
  · intro _
    exact hown.1
  · intro htwo
    have hself := htwo thread
    rw [moved_self] at hself
    exact hown.2.2 (Nat.le_of_succ_le_succ hself)
  · exact sound_moved hinv (by omega) trivial

theorem Inv.step {N : ℕ} {before after : State} {thread : Fin 2} (hinv : Inv before)
    (hstep : before.step N thread = some after) : Inv after := by
  unfold State.step at hstep
  split_ifs at hstep
  cases hstep
  have hown := hinv.sound thread
  cases hpoint : (before.locals thread).point with
  | load =>
      simp only [doSum, hpoint]
      refine hinv.keep rfl ⟨hinv.le, ?_⟩
      intro hone
      exact hinv.pos (hone.trans (le_total before thread))
  | add =>
      simp only [Local.Sound, hpoint] at hown
      simp only [doSum, hpoint]
      refine hinv.keep rfl ⟨Nat.succ_pos _, Nat.succ_le_succ hown.1, ?_⟩
      intro hone
      exact Nat.succ_le_succ (hown.2 hone)
  | store =>
      simp only [doSum, hpoint]
      exact hinv.store hpoint

theorem inv_of_reachable {N : ℕ} {state : State} (hreach : (program N).Reachable state) :
    Inv state := by
  apply System.invariant_of_step (I := Inv) ?_ ?_ hreach
  · rintro _ rfl
    exact ⟨Nat.zero_le _, fun hone => absurd hone (by simp [State.total, initial]),
      fun htwo => absurd (htwo 0) (by simp [initial]), fun _ => trivial⟩
  · exact fun before thread after _ hinv hstep => hinv.step hstep

theorem finals_subset {N : ℕ} (hN : 2 ≤ N) : finals N ⊆ Set.Icc 2 (2 * N) := by
  rintro _ ⟨state, hreach, hjoined, rfl⟩
  have hinv := inv_of_reachable hreach
  constructor
  · apply hinv.two
    intro thread
    rw [hjoined thread]
    exact hN
  · calc state.sum
        ≤ state.total := hinv.le
      _ = ∑ _ : Fin 2, N := Finset.sum_congr rfl fun thread _ => hjoined thread
      _ = 2 * N := by simp

/-! ## Every value from 2 to `2 * N` is final for some schedule -/

section Schedules

variable {N : ℕ} {state : State} {thread other : Fin 2}

/-- The thread is between two increments. -/
def Idle (state : State) (thread : Fin 2) (i : ℕ) : Prop :=
  ∃ t, state.locals thread = ⟨i, t, .load⟩

/-- The thread is about to store `t`. -/
def Loaded (state : State) (thread : Fin 2) (i t : ℕ) : Prop :=
  state.locals thread = ⟨i, t, .store⟩

/-- A run that leaves a thread alone. -/
def Leads (N : ℕ) (other : Fin 2) (before after : State) : Prop :=
  (∃ labels, (program N).Run before labels after) ∧ after.locals other = before.locals other

theorem Leads.trans {first second third : State} (hfirst : Leads N other first second)
    (hsecond : Leads N other second third) : Leads N other first third := by
  obtain ⟨⟨labels, hlabels⟩, hother⟩ := hfirst
  obtain ⟨⟨more, hmore⟩, hother'⟩ := hsecond
  exact ⟨⟨labels ++ more, hlabels.append hmore⟩, hother'.trans hother⟩

theorem leads_step (hne : other ≠ thread) {own : Local}
    (hown : state.locals thread = own) (hi : own.i < N) :
    Leads N other state
      (state.moved thread (doSum state.sum own).1 (doSum state.sum own).2) := by
  subst hown
  refine ⟨⟨[thread], System.Run.single ?_⟩, moved_other state hne _ _⟩
  show state.step N thread = _
  rw [State.step, if_pos hi]
  rfl

/-- The thread loads `sum` and adds 1 to its copy. -/
theorem leads_load (hne : other ≠ thread) {i : ℕ} (hidle : Idle state thread i)
    (hi : i < N) :
    ∃ after, Leads N other state after ∧ after.sum = state.sum ∧
      Loaded after thread i (state.sum + 1) := by
  obtain ⟨t, hown⟩ := hidle
  have hload := leads_step hne hown hi
  have hadd := leads_step hne (moved_self state thread
    (doSum state.sum ⟨i, t, .load⟩).1 (doSum state.sum ⟨i, t, .load⟩).2) hi
  exact ⟨_, hload.trans hadd, rfl, moved_self ..⟩

theorem leads_store (hne : other ≠ thread) {i t : ℕ} (hloaded : Loaded state thread i t)
    (hi : i < N) :
    ∃ after, Leads N other state after ∧ after.sum = t ∧ Idle after thread (i + 1) :=
  ⟨_, leads_step hne hloaded hi, rfl, t, moved_self ..⟩

/-- A thread that is not disturbed counts right. -/
theorem leads_count (hne : other ≠ thread) {i : ℕ} (hidle : Idle state thread i) (k : ℕ)
    (hk : i + k ≤ N) :
    ∃ after, Leads N other state after ∧ after.sum = state.sum + k ∧
      Idle after thread (i + k) := by
  induction k with
  | zero => exact ⟨state, ⟨⟨[], System.Run.nil⟩, rfl⟩, rfl, hidle⟩
  | succ k ih =>
      have hlt : i + k < N := hk
      obtain ⟨middle, hmiddle, hsum, hcounted⟩ := ih hlt.le
      obtain ⟨loaded, hload, -, hloaded⟩ := leads_load hne hcounted hlt
      obtain ⟨after, hstore, hafter, hidle'⟩ := leads_store hne hloaded hlt
      refine ⟨after, (hmiddle.trans hload).trans hstore, ?_, hidle'⟩
      rw [hafter, hsum]
      rfl

theorem Leads.idle {before after : State} (hleads : Leads N other before after) {i : ℕ}
    (hidle : Idle before other i) : Idle after other i := by
  rwa [Idle, hleads.2]

theorem Leads.loaded {before after : State} (hleads : Leads N other before after)
    {i t : ℕ} (hloaded : Loaded before other i t) : Loaded after other i t := by
  rwa [Loaded, hleads.2]

theorem Leads.reachable {before after : State} (hleads : Leads N other before after)
    (hreach : (program N).Reachable before) : (program N).Reachable after := by
  obtain ⟨labels, hrun⟩ := hleads.1
  exact hreach.run hrun

theorem mem_finals (hreach : (program N).Reachable state) (hzero : Idle state 0 N)
    (hone : Idle state 1 N) : state.sum ∈ finals N := by
  refine ⟨state, hreach, ?_, rfl⟩
  intro thread
  obtain ⟨_, hzero⟩ := hzero
  obtain ⟨_, hone⟩ := hone
  fin_cases thread
  · exact congrArg Local.i hzero
  · exact congrArg Local.i hone

/-- Thread 0 loads 0; thread 1 counts to `j`; thread 0 stores 1. -/
theorem exists_overwritten (hN : 1 ≤ N) {j : ℕ} (hj : j ≤ N) :
    ∃ state, (program N).Reachable state ∧ state.sum = 1 ∧ Idle state 0 1 ∧
      Idle state 1 j := by
  have hstart : ∀ thread, Idle initial thread 0 := fun _ => ⟨0, rfl⟩
  have hcount : 0 + j ≤ N := (Nat.zero_add j).symm ▸ hj
  obtain ⟨first, hfirst, -, hloaded⟩ := leads_load one_ne_zero (hstart 0) hN
  obtain ⟨second, hsecond, -, hcounted⟩ :=
    leads_count zero_ne_one (hfirst.idle (hstart 1)) j hcount
  obtain ⟨third, hthird, hsum, hidle⟩ :=
    leads_store one_ne_zero (hsecond.loaded hloaded) hN
  refine ⟨third, ?_, hsum, hidle, ?_⟩
  · exact hthird.reachable (hsecond.reachable (hfirst.reachable
      (System.reachable_of_init rfl)))
  · rw [Nat.zero_add] at hcounted
    exact hthird.idle hcounted

/-- Thread 0 overwrites `j` increments of thread 1; then both count on. -/
theorem sub_mem_finals (hN : 1 ≤ N) {j : ℕ} (hj : j ≤ N) : 2 * N - j ∈ finals N := by
  obtain ⟨first, hreach, hsum, hzero, hone⟩ := exists_overwritten hN hj
  obtain ⟨second, hsecond, hsumZero, hzero⟩ :=
    leads_count one_ne_zero hzero (N - 1) (by omega : 1 + (N - 1) ≤ N)
  obtain ⟨third, hthird, hsumOne, hone⟩ :=
    leads_count zero_ne_one (hsecond.idle hone) (N - j) (by omega : j + (N - j) ≤ N)
  rw [show 1 + (N - 1) = N by omega] at hzero
  rw [show j + (N - j) = N by omega] at hone
  have hmem := mem_finals (hthird.reachable (hsecond.reachable hreach))
    (hthird.idle hzero) hone
  rwa [hsumOne, hsumZero, hsum, show 1 + (N - 1) + (N - j) = 2 * N - j by omega] at hmem

/-- Thread 1 loads the 1 that thread 0 stored over its increments, and stores 2
over the rest of those of thread 0; then it makes its last `r` increments. -/
theorem add_mem_finals (hN : 2 ≤ N) {r : ℕ} (hr : r < N) : 2 + r ∈ finals N := by
  have hj : N - 1 - r < N := by omega
  obtain ⟨first, hreach, hsum, hzero, hone⟩ := exists_overwritten (by omega : 1 ≤ N) hj.le
  obtain ⟨second, hsecond, -, hloaded⟩ := leads_load zero_ne_one hone hj
  obtain ⟨third, hthird, -, hzero⟩ :=
    leads_count one_ne_zero (hsecond.idle hzero) (N - 1) (by omega : 1 + (N - 1) ≤ N)
  obtain ⟨fourth, hfourth, hstored, hone⟩ :=
    leads_store zero_ne_one (hthird.loaded hloaded) hj
  obtain ⟨fifth, hfifth, hcounted, hone⟩ :=
    leads_count zero_ne_one hone r (by omega : N - 1 - r + 1 + r ≤ N)
  rw [show 1 + (N - 1) = N by omega] at hzero
  rw [show N - 1 - r + 1 + r = N by omega] at hone
  have hmem := mem_finals
    (hfifth.reachable (hfourth.reachable (hthird.reachable (hsecond.reachable hreach))))
    (hfifth.idle (hfourth.idle hzero)) hone
  rwa [hcounted, hstored, hsum] at hmem

end Schedules

/-- With at least two increments a thread, the final values are exactly those from
2 to `2 * N`. -/
theorem unlocked_sum_finals (N : ℕ) (hN : 2 ≤ N) :
    finals N = Set.Icc 2 (2 * N) := by
  apply Set.Subset.antisymm (finals_subset hN)
  rintro value ⟨hlow, hhigh⟩
  obtain hsmall | hlarge := Nat.lt_or_ge value (N + 2)
  · rw [show value = 2 + (value - 2) by omega]
    exact add_mem_finals hN (by omega)
  · rw [show value = 2 * N - (2 * N - value) by omega]
    exact sub_mem_finals (by omega) (by omega)

/-- The threads of `midterm-demo.c` and `midterm.py`. -/
theorem midterm_finals : 2 ≤ 3 ∧ finals 3 = Set.Icc 2 6 :=
  ⟨by decide, unlocked_sum_finals 3 (by decide)⟩

end JyyOS.Sum
