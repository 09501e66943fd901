import JyyOS.Core.SemaphoreThreads
import JyyOS.Concurrency.Brackets

/-!
# The semaphore producer-consumer (`pc-sem.c`)

Printing happens between `P` and `V` and holds no lock, so several producers
and consumers can be between two operations at once.  Two conservation laws
over both semaphores and all threads in flight give the bracket bound and the
absence of a state in which every thread is blocked.
-/

namespace JyyOS.PcSem

open JyyOS.Brackets
open JyyOS.SemaphoreThreads

inductive Sem where
  | fill
  | empty
  deriving DecidableEq

instance : Fintype Sem where
  elems := {.fill, .empty}
  complete sem := by cases sem <;> decide

/-- The three statements of the `while (1)` body of either thread function. -/
inductive Pc where
  | first
  | second
  | third
  deriving DecidableEq

def next : Pc → Pc
  | .first => .second
  | .second => .third
  | .third => .first

def producer : Pc → Op Sem Char
  | .first => .P .empty
  | .second => .print '('
  | .third => .V .fill

def consumer : Pc → Op Sem Char
  | .first => .P .fill
  | .second => .print ')'
  | .third => .V .empty

def body : Role → Pc → Op Sem Char
  | .producer => producer
  | .consumer => consumer

variable {Thread : Type*} [DecidableEq Thread]

def code (role : Thread → Role) : Code Thread Pc Sem Char where
  op thread := body (role thread)
  next _ := next

/-- The state after `SEM_INIT(&fill, 0)` and `SEM_INIT(&empty, n)`, with every
thread still at the head of its loop. -/
def main (Thread : Type*) (n : ℕ) : State Thread Pc Sem Char where
  value
    | .fill => 0
    | .empty => n
  pc _ := .first
  out := []

/-! ## Two conservation laws -/

section Laws

variable [Fintype Thread]

/-- One unit for every token and for every thread between its `P` and its
`V`. -/
def slotWeights (Thread : Type*) : Weights Thread Pc Sem Char where
  token _ := 1
  symbol _ := 0
  point _
    | .first => 0
    | .second => 1
    | .third => 1

/-- Printed brackets against filled slots: a producer before its `V(&fill)`
and a consumer before its `)` have already taken their side. -/
def bracketWeights (role : Thread → Role) : Weights Thread Pc Sem Char where
  token
    | .fill => -1
    | .empty => 0
  symbol := weight
  point thread pc :=
    match role thread, pc with
    | .producer, .third => -1
    | .consumer, .second => -1
    | _, _ => 0

omit [DecidableEq Thread] [Fintype Thread] in
theorem slotWeights_balanced (role : Thread → Role) :
    (slotWeights Thread).Balanced (code role) := by
  intro thread pc
  simp only [code]
  cases role thread <;> cases pc <;> rfl

omit [DecidableEq Thread] [Fintype Thread] in
theorem bracketWeights_balanced (role : Thread → Role) :
    (bracketWeights role).Balanced (code role) := by
  intro thread pc
  simp only [code, bracketWeights]
  cases role thread <;> cases pc <;> rfl

variable {role : Thread → Role} {n : ℕ} {state : State Thread Pc Sem Char}

private theorem sum_sem (f : Sem → ℤ) : ∑ sem, f sem = f .fill + f .empty := by
  rw [show (Finset.univ : Finset Sem) = {.fill, .empty} from rfl]
  simp

/-- Free slots, filled slots and threads in flight always add up to `n`. -/
theorem slots_conserved (hreach : (system (code role) (main Thread n)).Reachable state) :
    (state.value .fill : ℤ) + state.value .empty +
        ∑ thread, (slotWeights Thread).point thread (state.pc thread) = n := by
  have htotal := (slotWeights Thread).total_reachable
    (slotWeights_balanced role) hreach
  simp only [Weights.total, sum_sem] at htotal
  simpa [slotWeights, main] using htotal

/-- The bracket depth counts filled slots, producers that printed and
consumers that are about to print. -/
theorem depth_conserved (hreach : (system (code role) (main Thread n)).Reachable state) :
    depth state.out = state.value .fill -
        ∑ thread, (bracketWeights role).point thread (state.pc thread) := by
  have htotal := (bracketWeights role).total_reachable
    (bracketWeights_balanced role) hreach
  simp only [Weights.total, sum_sem] at htotal
  have hstart : ∑ thread, (bracketWeights role).point thread
      ((main Thread n).pc thread) = 0 := by
    apply Finset.sum_eq_zero
    intro thread _
    simp only [bracketWeights, main]
    cases role thread <;> rfl
  rw [hstart] at htotal
  simp only [bracketWeights, main, List.map_nil, List.sum_nil,
    Nat.cast_zero] at htotal
  simp only [depth, bracketWeights]
  linarith

omit [DecidableEq Thread] [Fintype Thread] in
theorem bracketWeights_nonpos (thread : Thread) (pc : Pc) :
    (bracketWeights role).point thread pc ≤ 0 := by
  simp only [bracketWeights]
  cases role thread <;> cases pc <;> decide

omit [DecidableEq Thread] [Fintype Thread] in
theorem bracketWeights_add_slotWeights (thread : Thread) (pc : Pc) :
    0 ≤ (bracketWeights role).point thread pc +
      (slotWeights Thread).point thread pc := by
  simp only [bracketWeights, slotWeights]
  cases role thread <;> cases pc <;> decide

/-- Depth of the whole output of a reachable state. -/
theorem depth_reachable (hreach : (system (code role) (main Thread n)).Reachable state) :
    0 ≤ depth state.out ∧ depth state.out ≤ n := by
  have hslots := slots_conserved hreach
  have hdepth := depth_conserved hreach
  have hnonpos : ∑ thread, (bracketWeights role).point thread
      (state.pc thread) ≤ 0 :=
    Finset.sum_nonpos fun thread _ => bracketWeights_nonpos thread _
  have hcover : 0 ≤ (∑ thread, (bracketWeights role).point thread
      (state.pc thread)) +
        ∑ thread, (slotWeights Thread).point thread (state.pc thread) := by
    rw [← Finset.sum_add_distrib]
    exact Finset.sum_nonneg fun thread _ =>
      bracketWeights_add_slotWeights thread _
  constructor
  · have : (0 : ℤ) ≤ state.value .fill := Int.natCast_nonneg _
    linarith
  · have : (0 : ℤ) ≤ state.value .empty := Int.natCast_nonneg _
    linarith

theorem out_bounded (hreach : (system (code role) (main Thread n)).Reachable state) :
    Bounded n state.out := by
  refine Transition.System.invariant_of_step
    (I := fun current => Bounded n current.out) ?_ ?_ hreach
  · intro start hstart
    rw [show start = main Thread n from hstart]
    exact bounded_nil (Int.natCast_nonneg n)
  · intro before thread after hbefore hbounded hstep
    have hafter := depth_reachable (hbefore.step hstep)
    obtain ⟨-, ⟨_, _, _, _, hout⟩ | ⟨_, _, _, hout⟩ | ⟨_, _, _, hout⟩⟩ :=
      step_cases hstep
    · rwa [hout]
    · rwa [hout]
    · rw [hout] at hafter ⊢
      exact hbounded.snoc hafter

/-- Whatever the threads have printed passes `pc-check.py`. -/
theorem pcCheck_out (hreach : (system (code role) (main Thread n)).Reachable state) :
    pcCheck n 0 state.out = true :=
  pcCheck_eq_true (out_bounded hreach)

omit [Fintype Thread] in
/-- A blocked thread waits at its first statement on an empty semaphore. -/
theorem blocked_cases {thread : Thread}
    (hblocked : Blocked (code role) state thread) :
    state.pc thread = .first ∧
      (role thread = .producer → state.value .empty = 0) ∧
      (role thread = .consumer → state.value .fill = 0) := by
  obtain ⟨sem, hop, hzero⟩ := blocked_iff.mp hblocked
  cases hrole : role thread <;> cases hpc : state.pc thread <;>
    simp_all [code, body, producer, consumer]

end Laws

/-- Every prefix of what the threads print keeps between zero and `n` brackets
open, and with a slot and a thread of each kind never are all threads blocked
in `P`. -/
theorem bounded_buffer [Fintype Thread] (role : Thread → Role) (n : ℕ)
    (state : State Thread Pc Sem Char)
    (hreach : (system (code role) (main Thread n)).Reachable state) :
    Bounded n state.out ∧
      (1 ≤ n → (∃ thread, role thread = .producer) →
        (∃ thread, role thread = .consumer) →
          ¬ ∀ thread, Blocked (code role) state thread) := by
  refine ⟨out_bounded hreach, ?_⟩
  rintro hn ⟨first, hfirst⟩ ⟨second, hsecond⟩ hblocked
  have hempty := (blocked_cases (hblocked first)).2.1 hfirst
  have hfill := (blocked_cases (hblocked second)).2.2 hsecond
  have hidle : ∑ thread, (slotWeights Thread).point thread
      (state.pc thread) = 0 := by
    apply Finset.sum_eq_zero
    intro thread _
    rw [(blocked_cases (hblocked thread)).1]
    rfl
  have hslots := slots_conserved hreach
  rw [hempty, hfill, hidle] at hslots
  simp only [Nat.cast_zero, add_zero] at hslots
  omega

/-- A producer and a consumer over one slot, after the producer printed. -/
theorem bounded_buffer_one_slot :
    ∃ state : State Role Pc Sem Char,
      [Role.producer, .producer].foldlM (step (code id)) (main Role 1) =
          some state ∧
        state.out = ['('] ∧ Bounded 1 state.out ∧
          ¬ ∀ thread, Blocked (code id) state thread := by
  refine ⟨_, rfl, rfl, ?_⟩
  obtain ⟨hbounded, hblocked⟩ := bounded_buffer (id : Role → Role) 1 _
    ((Transition.System.reachable_of_init rfl).run
      (Transition.System.run_of_foldlM [.producer, .producer] rfl))
  exact ⟨hbounded,
    hblocked (le_refl 1) ⟨.producer, rfl⟩ ⟨.consumer, rfl⟩⟩

end JyyOS.PcSem
