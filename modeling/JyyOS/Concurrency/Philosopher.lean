import JyyOS.Core.SemaphoreThreads

/-!
# The philosophers (`philosopher.c`)

Every philosopher takes the lock on its left and then the one on its right,
except the last one, which takes them in the other order.  So each takes the
lock with the lower number first.
-/

namespace JyyOS.Philosopher

open JyyOS.SemaphoreThreads JyyOS.Transition

/-- The statements of the `while (1)` body, in either order of the locks. -/
inductive Pc where
  | takeFirst
  | printFirst
  | takeSecond
  | printSecond
  | giveFirst
  | giveSecond
deriving DecidableEq

def next : Pc → Pc
  | .takeFirst => .printFirst
  | .printFirst => .takeSecond
  | .takeSecond => .printSecond
  | .printSecond => .giveFirst
  | .giveFirst => .giveSecond
  | .giveSecond => .takeFirst

variable {N : ℕ}

/-- Ids count from 1. -/
def id (thread : Fin N) : ℕ := thread + 1

def lhs (thread : Fin N) : Fin N :=
  ⟨(N + id thread - 1) % N, Nat.mod_lt _ thread.pos⟩

def rhs (thread : Fin N) : Fin N :=
  ⟨id thread % N, Nat.mod_lt _ thread.pos⟩

/-- One of the two loops: `T%d Got %d` is printed for each lock. -/
def loop (id : ℕ) (first second : Fin N) : Pc → Op (Fin N) (ℕ × ℕ)
  | .takeFirst => .P first
  | .printFirst => .print (id, first + 1)
  | .takeSecond => .P second
  | .printSecond => .print (id, second + 1)
  | .giveFirst => .V first
  | .giveSecond => .V second

def Tphilosopher (thread : Fin N) : Pc → Op (Fin N) (ℕ × ℕ) :=
  if id thread = N then loop (id thread) (rhs thread) (lhs thread)
  else loop (id thread) (lhs thread) (rhs thread)

def code (N : ℕ) : Code (Fin N) Pc (Fin N) (ℕ × ℕ) where
  op := Tphilosopher
  next _ := next

def main (N : ℕ) : State (Fin N) Pc (Fin N) (ℕ × ℕ) where
  value _ := 1
  pc _ := .takeFirst
  out := []

/-! ## Locks and their holders -/

/-- The lock that a philosopher takes first. -/
def first (thread : Fin N) : Fin N := if id thread = N then rhs thread else lhs thread

def second (thread : Fin N) : Fin N := if id thread = N then lhs thread else rhs thread

theorem Tphilosopher_eq (thread : Fin N) :
    Tphilosopher thread = loop (id thread) (first thread) (second thread) := by
  unfold Tphilosopher first second
  split_ifs <;> rfl

theorem lhs_val (thread : Fin N) : (lhs thread : ℕ) = thread := by
  have hlt := thread.isLt
  show (N + (thread + 1) - 1) % N = thread
  rw [show N + ((thread : ℕ) + 1) - 1 = thread + N by omega, Nat.add_mod_right,
    Nat.mod_eq_of_lt hlt]

theorem rhs_val (thread : Fin N) :
    (rhs thread : ℕ) = if id thread = N then 0 else id thread := by
  have hlt := thread.isLt
  show id thread % N = _
  split_ifs with hlast
  · rw [hlast, Nat.mod_self]
  · apply Nat.mod_eq_of_lt
    unfold id at hlast ⊢
    omega

/-- Every philosopher takes the lower lock first. -/
theorem first_lt_second (hN : 2 ≤ N) (thread : Fin N) : first thread < second thread := by
  rw [Fin.lt_def]
  unfold first second
  split_ifs with hlast
  · rw [rhs_val, if_pos hlast, lhs_val]
    unfold id at hlast
    omega
  · rw [rhs_val, if_neg hlast, lhs_val]
    exact Nat.lt_succ_self _

/-- The locks that a philosopher has at a point of its loop. -/
def Holds (thread : Fin N) (pc : Pc) (lock : Fin N) : Prop :=
  (lock = first thread ∧
    (pc = .printFirst ∨ pc = .takeSecond ∨ pc = .printSecond ∨ pc = .giveFirst)) ∨
  (lock = second thread ∧ (pc = .printSecond ∨ pc = .giveFirst ∨ pc = .giveSecond))

instance (thread : Fin N) (pc : Pc) (lock : Fin N) : Decidable (Holds thread pc lock) :=
  inferInstanceAs (Decidable (_ ∨ _))

/-- One unit for the token of a lock and for whoever holds it. -/
def lockWeights (lock : Fin N) : Weights (Fin N) Pc (Fin N) (ℕ × ℕ) where
  token other := if other = lock then 1 else 0
  symbol _ := 0
  point thread pc := if Holds thread pc lock then 1 else 0

theorem lockWeights_balanced (hN : 2 ≤ N) (lock : Fin N) :
    (lockWeights lock).Balanced (code N) := by
  intro thread pc
  have hne := (first_lt_second hN thread).ne
  simp only [code, Tphilosopher_eq]
  by_cases hfirst : lock = first thread
  · subst hfirst
    cases pc <;> simp [lockWeights, loop, next, Holds, Weights.effect, hne, hne.symm]
  · by_cases hsecond : lock = second thread
    · subst hsecond
      cases pc <;> simp [lockWeights, loop, next, Holds, Weights.effect, hne, hne.symm]
    · cases pc <;> simp [lockWeights, loop, next, Holds, Weights.effect, hfirst, hsecond,
        Ne.symm hfirst, Ne.symm hsecond]

section Reachable

variable {state : State (Fin N) Pc (Fin N) (ℕ × ℕ)}

def holders (state : State (Fin N) Pc (Fin N) (ℕ × ℕ)) (lock : Fin N) :
    Finset (Fin N) :=
  Finset.univ.filter fun thread => Holds thread (state.pc thread) lock

/-- A lock is free or has one holder. -/
theorem value_add_holders (hN : 2 ≤ N)
    (hreach : (system (code N) (main N)).Reachable state) (lock : Fin N) :
    state.value lock + (holders state lock).card = 1 := by
  have htotal := (lockWeights lock).total_reachable (lockWeights_balanced hN lock) hreach
  have hvalue : ∀ state : State (Fin N) Pc (Fin N) (ℕ × ℕ),
      (lockWeights lock).total state =
        state.value lock + ((holders state lock).card : ℤ) := by
    intro state
    simp [Weights.total, lockWeights, holders, Finset.sum_boole]
  rw [hvalue, hvalue] at htotal
  have hstart : holders (main N) lock = ∅ := by
    simp [holders, Holds, main]
  rw [hstart, Finset.card_empty] at htotal
  have hinit : (main N).value lock = 1 := rfl
  omega

/-- Two philosophers do not hold one lock. -/
theorem eq_of_holds (hN : 2 ≤ N)
    (hreach : (system (code N) (main N)).Reachable state) {lock thread other : Fin N}
    (hthread : Holds thread (state.pc thread) lock)
    (hother : Holds other (state.pc other) lock) : thread = other := by
  have hcard : (holders state lock).card ≤ 1 := by
    have hsum := value_add_holders hN hreach lock
    omega
  exact Finset.card_le_one.mp hcard thread (by simpa [holders] using hthread) other
    (by simpa [holders] using hother)

/-- A philosopher that holds a lock waits for a higher one. -/
theorem held_lt_awaited (hN : 2 ≤ N) {thread sem held : Fin N} {pc : Pc}
    (hop : (code N).op thread pc = .P sem) (hholds : Holds thread pc held) :
    held < sem := by
  simp only [code, Tphilosopher_eq] at hop
  obtain ⟨rfl, rfl | rfl | rfl | rfl⟩ | ⟨rfl, rfl | rfl | rfl⟩ := hholds
  · cases hop
  · cases hop
    exact first_lt_second hN thread
  · cases hop
  · cases hop
  · cases hop
  · cases hop
  · cases hop

/-- The philosopher on the right, whose left lock is this one's right lock. -/
def Neighbours (thread other : Fin N) : Prop := id other = id thread % N + 1

theorem rhs_eq_lhs {thread other : Fin N} (hnext : Neighbours thread other) :
    rhs thread = lhs other := by
  apply Fin.ext
  rw [lhs_val]
  show id thread % N = other
  unfold Neighbours id at hnext
  unfold id
  omega

/-- Between the second `P` and the first `V`. -/
def Eats : Pc → Prop
  | .printSecond | .giveFirst => True
  | _ => False

theorem Eats.holds {pc : Pc} (heats : Eats pc) (thread : Fin N) :
    Holds thread pc (lhs thread) ∧ Holds thread pc (rhs thread) := by
  have hboth : Holds thread pc (first thread) ∧ Holds thread pc (second thread) := by
    cases pc <;> simp_all [Eats, Holds]
  unfold first second at hboth
  split_ifs at hboth
  · exact hboth.symm
  · exact hboth

end Reachable

/-- The philosophers never deadlock, a lock has at most one holder, and
neighbours do not eat together. -/
theorem philosophers_never_deadlock (N : ℕ) (hN : 2 ≤ N)
    (state : State (Fin N) Pc (Fin N) (ℕ × ℕ))
    (hreach : (system (code N) (main N)).Reachable state) :
    (∃ thread, ¬ Blocked (code N) state thread) ∧
      (∀ lock, (state.value lock = 0 ∨ state.value lock = 1) ∧
        state.value lock + (holders state lock).card = 1) ∧
      ∀ thread other, Neighbours thread other →
        ¬ (Eats (state.pc thread) ∧ Eats (state.pc other)) := by
  refine ⟨?_, ?_, ?_⟩
  · have : Nonempty (Fin N) := ⟨⟨0, by omega⟩⟩
    apply exists_not_blocked_of_ordered fun thread => Holds thread (state.pc thread)
    · intro lock hempty
      have hsum := value_add_holders hN hreach lock
      have hcard : 0 < (holders state lock).card := by omega
      obtain ⟨thread, hthread⟩ := Finset.card_pos.mp hcard
      exact ⟨thread, by simpa [holders] using hthread⟩
    · intro thread sem held hop hholds
      exact held_lt_awaited hN hop hholds
  · intro lock
    have hsum := value_add_holders hN hreach lock
    exact ⟨by omega, hsum⟩
  · rintro thread other hnext ⟨hthread, hother⟩
    have hshared := (hthread.holds thread).2
    rw [rhs_eq_lhs hnext] at hshared
    have heq := eq_of_holds hN hreach hshared (hother.holds other).1
    subst heq
    unfold Neighbours id at hnext
    have hlt := thread.isLt
    by_cases hlast : (thread : ℕ) + 1 = N
    · rw [hlast, Nat.mod_self] at hnext
      omega
    · rw [Nat.mod_eq_of_lt (by omega)] at hnext
      omega

/-- Three philosophers, the first of which eats. -/
theorem philosophers_never_deadlock_three :
    2 ≤ 3 ∧ ∃ state, (List.replicate 3 (0 : Fin 3)).foldlM (step (code 3)) (main 3) =
        some state ∧
      (∃ thread, ¬ Blocked (code 3) state thread) ∧ Eats (state.pc 0) := by
  refine ⟨by decide, _, rfl, ?_, trivial⟩
  exact (philosophers_never_deadlock 3 (by decide) _
    ((System.reachable_of_init rfl).run
      (System.run_of_foldlM (List.replicate 3 (0 : Fin 3)) rfl))).1

end JyyOS.Philosopher
