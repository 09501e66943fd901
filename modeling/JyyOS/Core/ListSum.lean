import Mathlib.Algebra.BigOperators.Group.List.Basic
import Mathlib.Data.Multiset.Basic
import Mathlib.Tactic

/-!
# Sums over a growing list of components

Where components come into being during a run (processes that fork), the
system is a list of local states and a step replaces one of them or appends a
new one.  The lemmas say what that does to a quantity summed over the list.
-/

namespace JyyOS.ListSum

variable {Local M : Type*} [AddCommMonoid M]

/-- A quantity summed over all components. -/
def total (weight : Local → M) (locals : List Local) : M := (locals.map weight).sum

variable {weight : Local → M} {locals : List Local}

@[simp] theorem total_nil : total weight [] = 0 := rfl

@[simp] theorem total_cons (value : Local) :
    total weight (value :: locals) = weight value + total weight locals := by
  simp [total]

theorem total_append (more : List Local) :
    total weight (locals ++ more) = total weight locals + total weight more := by
  simp [total]

variable (weight) in
/-- One component's share of the sum and the rest, which does not depend on what
the component is. -/
theorem total_split {index : ℕ} {old : Local} (hold : locals[index]? = some old) :
    ∃ rest, total weight locals = weight old + rest ∧
      ∀ new, total weight (locals.set index new) = weight new + rest := by
  induction locals generalizing index with
  | nil => simp at hold
  | cons value locals ih =>
      cases index with
      | zero =>
          obtain rfl : value = old := by simpa using hold
          exact ⟨total weight locals, by simp, by simp⟩
      | succ index =>
          obtain ⟨rest, hlocals, hset⟩ := ih (by simpa using hold)
          refine ⟨weight value + rest, ?_, fun new => ?_⟩
          · rw [total_cons, hlocals, add_left_comm]
          · rw [List.set_cons_succ, total_cons, hset, add_left_comm]

/-- A replacement that does not change the contribution leaves the sum alone. -/
theorem total_set_eq {index : ℕ} {old new : Local} (hold : locals[index]? = some old)
    (hsame : weight new = weight old) :
    total weight (locals.set index new) = total weight locals := by
  obtain ⟨rest, hlocals, hset⟩ := total_split weight hold
  rw [hset, hlocals, hsame]

theorem total_map (f : Local → Local)
    (hsame : ∀ value ∈ locals, weight (f value) = weight value) :
    total weight (locals.map f) = total weight locals := by
  rw [total, total, List.map_map]
  exact congrArg List.sum (List.map_congr_left hsame)

/-- A component's contribution to a sum of multisets is in it. -/
theorem mem_total {Item : Type*} {weight : Local → Multiset Item} {item : Item} :
    item ∈ total weight locals ↔ ∃ value ∈ locals, item ∈ weight value := by
  induction locals with
  | nil => simp
  | cons value locals ih => simp [ih]

theorem total_singleton {Item : Type*} (f : Local → Item) :
    total (fun value => ({f value} : Multiset Item)) locals = (locals.map f : Multiset Item) := by
  induction locals with
  | nil => rfl
  | cons value locals ih =>
      rw [total_cons, ih, List.map_cons, Multiset.singleton_add, Multiset.cons_coe]

theorem total_eq_zero (hzero : ∀ value ∈ locals, weight value = 0) :
    total weight locals = 0 := by
  induction locals with
  | nil => rfl
  | cons value locals ih =>
      rw [total_cons, hzero value List.mem_cons_self,
        ih fun other hother => hzero other (List.mem_cons_of_mem _ hother), add_zero]

end JyyOS.ListSum
