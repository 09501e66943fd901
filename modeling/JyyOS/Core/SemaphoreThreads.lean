import JyyOS.Core.Transition
import JyyOS.Core.ThreadSum

/-!
# Threads that communicate through counting semaphores

Each thread runs a fixed cycle of operations: `P` and `V` on counting
semaphores and atomic prints.  No lock protects anything else, so what can be
said about all interleavings is linear: a weighting of semaphores, printed
symbols and program points that each operation balances is conserved by every
run.
-/

namespace JyyOS.SemaphoreThreads

open JyyOS.Transition

variable {Thread Pc Sem Out : Type*}

inductive Op (Sem Out : Type*) where
  | P (sem : Sem)
  | V (sem : Sem)
  | print (symbol : Out)

/-- The operation at each program point of each thread, and the point control
moves to once the operation is done. -/
structure Code (Thread Pc Sem Out : Type*) where
  op : Thread → Pc → Op Sem Out
  next : Thread → Pc → Pc

structure State (Thread Pc Sem Out : Type*) where
  value : Sem → ℕ
  pc : Thread → Pc
  out : List Out

variable [DecidableEq Thread] [DecidableEq Sem]

/-- One operation of `thread`.  The result is `none` exactly when the thread
is blocked in `P` on a semaphore that holds no token. -/
def step (code : Code Thread Pc Sem Out) (state : State Thread Pc Sem Out)
    (thread : Thread) : Option (State Thread Pc Sem Out) :=
  let moved := Function.update state.pc thread
    (code.next thread (state.pc thread))
  match code.op thread (state.pc thread) with
  | .P sem =>
      if state.value sem = 0 then none
      else some { state with
        value := Function.update state.value sem (state.value sem - 1)
        pc := moved }
  | .V sem =>
      some { state with
        value := Function.update state.value sem (state.value sem + 1)
        pc := moved }
  | .print symbol =>
      some { state with out := state.out ++ [symbol], pc := moved }

def Blocked (code : Code Thread Pc Sem Out) (state : State Thread Pc Sem Out)
    (thread : Thread) : Prop :=
  step code state thread = none

theorem blocked_iff {code : Code Thread Pc Sem Out}
    {state : State Thread Pc Sem Out} {thread : Thread} :
    Blocked code state thread ↔
      ∃ sem, code.op thread (state.pc thread) = .P sem ∧
        state.value sem = 0 := by
  unfold Blocked step
  cases code.op thread (state.pc thread) with
  | P sem => simp
  | V sem => simp
  | print symbol => simp

def system (code : Code Thread Pc Sem Out)
    (init : State Thread Pc Sem Out) :
    System (State Thread Pc Sem Out) Thread :=
  System.ofPartial (fun state => state = init) (step code)

/-- What one step can do, with its guard. -/
theorem step_cases {code : Code Thread Pc Sem Out}
    {before after : State Thread Pc Sem Out} {thread : Thread}
    (hstep : step code before thread = some after) :
    after.pc = Function.update before.pc thread
        (code.next thread (before.pc thread)) ∧
      ((∃ sem, code.op thread (before.pc thread) = .P sem ∧
          before.value sem ≠ 0 ∧
          after.value = Function.update before.value sem
            (before.value sem - 1) ∧ after.out = before.out) ∨
        (∃ sem, code.op thread (before.pc thread) = .V sem ∧
          after.value = Function.update before.value sem
            (before.value sem + 1) ∧ after.out = before.out) ∨
        (∃ symbol, code.op thread (before.pc thread) = .print symbol ∧
          after.value = before.value ∧
          after.out = before.out ++ [symbol])) := by
  unfold step at hstep
  cases hop : code.op thread (before.pc thread) with
  | P sem =>
      simp only [hop] at hstep
      split at hstep
      · cases hstep
      · cases hstep
        exact ⟨rfl, .inl ⟨sem, rfl, ‹_›, rfl, rfl⟩⟩
  | V sem =>
      simp only [hop, Option.some.injEq] at hstep
      subst hstep
      exact ⟨rfl, .inr (.inl ⟨sem, rfl, rfl, rfl⟩)⟩
  | print symbol =>
      simp only [hop, Option.some.injEq] at hstep
      subst hstep
      exact ⟨rfl, .inr (.inr ⟨symbol, rfl, rfl, rfl⟩)⟩

section Linear

variable [Fintype Thread] [Fintype Sem]

/-- Integer weights of tokens, printed symbols and program points. -/
structure Weights (Thread Pc Sem Out : Type*) where
  token : Sem → ℤ
  symbol : Out → ℤ
  point : Thread → Pc → ℤ

namespace Weights

variable (weights : Weights Thread Pc Sem Out)

/-- What an operation adds to the token and output part of the total. -/
def effect : Op Sem Out → ℤ
  | .P sem => -weights.token sem
  | .V sem => weights.token sem
  | .print symbol => weights.symbol symbol

/-- Every operation is paid for by the thread's change of program point. -/
def Balanced (code : Code Thread Pc Sem Out) : Prop :=
  ∀ thread pc,
    weights.point thread (code.next thread pc) +
      weights.effect (code.op thread pc) = weights.point thread pc

def total (state : State Thread Pc Sem Out) : ℤ :=
  (∑ sem, weights.token sem * state.value sem) +
    (state.out.map weights.symbol).sum +
      ∑ thread, weights.point thread (state.pc thread)

/-- A balanced weighting gives every state of a run the same total. -/
theorem total_step {code : Code Thread Pc Sem Out}
    (hbalanced : weights.Balanced code)
    {before after : State Thread Pc Sem Out} {thread : Thread}
    (hstep : step code before thread = some after) :
    weights.total after = weights.total before := by
  obtain ⟨hpc, hcases⟩ := step_cases hstep
  have hpoints := ThreadSum.sum_update weights.point before.pc thread
    (code.next thread (before.pc thread))
  have hbalance := hbalanced thread (before.pc thread)
  rw [← hpc] at hpoints
  rcases hcases with ⟨sem, hop, hpositive, hvalue, hout⟩ |
    ⟨sem, hop, hvalue, hout⟩ | ⟨symbol, hop, hvalue, hout⟩
  · have htokens := ThreadSum.sum_update
      (fun other (count : ℕ) => weights.token other * (count : ℤ))
      before.value sem (before.value sem - 1)
    rw [← hvalue, Nat.cast_sub (Nat.one_le_iff_ne_zero.mpr hpositive)]
      at htokens
    rw [hop] at hbalance
    simp only [effect, Nat.cast_one] at hbalance htokens
    simp only [total, hout]
    linarith
  · have htokens := ThreadSum.sum_update
      (fun other (count : ℕ) => weights.token other * (count : ℤ))
      before.value sem (before.value sem + 1)
    rw [← hvalue] at htokens
    rw [hop] at hbalance
    simp only [effect, Nat.cast_add, Nat.cast_one] at hbalance htokens
    simp only [total, hout]
    linarith
  · rw [hop] at hbalance
    simp only [effect] at hbalance
    simp only [total, hvalue, hout, List.map_append, List.map_cons,
      List.map_nil, List.sum_append, List.sum_singleton]
    linarith

theorem total_reachable {code : Code Thread Pc Sem Out}
    (hbalanced : weights.Balanced code)
    {init state : State Thread Pc Sem Out}
    (hreach : (system code init).Reachable state) :
    weights.total state = weights.total init := by
  refine System.invariant_of_step
    (I := fun current => weights.total current = weights.total init)
    ?_ ?_ hreach
  · intro start hstart
    rw [show start = init from hstart]
  · intro before thread after _ hbefore hstep
    rw [weights.total_step hbalanced hstep, hbefore]

end Weights

end Linear

/-! ## Ordered acquisition -/

section Ordered

variable {code : Code Thread Pc Sem Out} {state : State Thread Pc Sem Out}

/-- When an empty semaphore is held by some thread, and a thread waits only for
semaphores above those that it holds, the threads are not all blocked. -/
theorem exists_not_blocked_of_ordered [Finite Thread] [Nonempty Thread]
    [LinearOrder Sem] (holds : Thread → Sem → Prop)
    (hholder : ∀ sem, state.value sem = 0 → ∃ thread, holds thread sem)
    (hordered : ∀ thread sem held, code.op thread (state.pc thread) = .P sem →
      holds thread held → held < sem) :
    ∃ thread, ¬ Blocked code state thread := by
  by_contra hall
  push Not at hall
  have hwaits : ∀ thread, ∃ sem, code.op thread (state.pc thread) = .P sem ∧
      state.value sem = 0 := fun thread => blocked_iff.mp (hall thread)
  choose awaited hop hempty using hwaits
  -- whoever holds the highest semaphore that is waited for waits for a higher one
  obtain ⟨last, hlast⟩ := Finite.exists_max awaited
  obtain ⟨holder, hholds⟩ := hholder (awaited last) (hempty last)
  exact absurd (hordered holder _ _ (hop holder) hholds) (not_lt.mpr (hlast holder))

end Ordered

end JyyOS.SemaphoreThreads
