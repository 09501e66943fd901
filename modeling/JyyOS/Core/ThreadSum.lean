import Mathlib.Algebra.BigOperators.Fin
import Mathlib.Data.Fintype.BigOperators
import Mathlib.Tactic

/-!
# Sums over threads

A step of an interleaved system changes the local state of one thread.  The
lemmas here say what that does to a quantity summed over all threads; they are
stated without subtraction so that they apply in every commutative monoid.
-/

namespace JyyOS.ThreadSum

variable {Thread Local M : Type*} [Fintype Thread] [DecidableEq Thread]
variable [AddCommMonoid M]

/-- Replacing the local state of `thread` trades its old contribution for its
new one. -/
theorem sum_update (weight : Thread → Local → M) (locals : Thread → Local)
    (thread : Thread) (value : Local) :
    (∑ other, weight other (Function.update locals thread value other)) +
        weight thread (locals thread) =
      (∑ other, weight other (locals other)) + weight thread value := by
  rw [← Finset.add_sum_erase Finset.univ _ (Finset.mem_univ thread),
    ← Finset.add_sum_erase Finset.univ (fun other => weight other (locals other))
      (Finset.mem_univ thread)]
  have hrest :
      (∑ other ∈ Finset.univ.erase thread,
          weight other (Function.update locals thread value other)) =
        ∑ other ∈ Finset.univ.erase thread, weight other (locals other) := by
    apply Finset.sum_congr rfl
    intro other hother
    rw [Function.update_of_ne (Finset.ne_of_mem_erase hother)]
  rw [hrest, Function.update_self]
  abel

/-- A replacement that does not change the contribution of the thread leaves
the sum alone. -/
theorem sum_update_eq (weight : Thread → Local → M) (locals : Thread → Local)
    (thread : Thread) (value : Local)
    (hsame : weight thread value = weight thread (locals thread)) :
    (∑ other, weight other (Function.update locals thread value other)) =
      ∑ other, weight other (locals other) := by
  apply Finset.sum_congr rfl
  intro other _
  by_cases hother : other = thread
  · subst other
    rw [Function.update_self, hsame]
  · rw [Function.update_of_ne hother]

end JyyOS.ThreadSum
