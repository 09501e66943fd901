import Mathlib.Data.List.Basic
import Mathlib.Tactic

/-!
# Sequences written at an offset

A writer that starts at offset zero lays what it writes over what is there.
Several such writers, one after the other, leave the same as if each had written
behind the end exactly when there was nothing to lay anything over.
-/

namespace JyyOS.Overwrite

variable {Item : Type*}

/-- Write a chunk at an offset; a gap behind the end is filled.  Writing nothing
changes nothing. -/
def write (fill : Item) (offset : ℕ) (chunk old : List Item) : List Item :=
  if chunk.isEmpty then old
  else old.takeD offset fill ++ chunk ++ old.drop (offset + chunk.length)

/-- What is there when `out` has been written from offset zero on. -/
def overlay (old out : List Item) : List Item := out ++ old.drop out.length

@[simp]
theorem overlay_nil (old : List Item) : overlay old [] = old := rfl

/-- The next chunk goes behind what has been written. -/
theorem write_overlay (fill : Item) (old out chunk : List Item) :
    write fill out.length chunk (overlay old out) = overlay old (out ++ chunk) := by
  unfold write
  split_ifs with hempty
  · rw [List.isEmpty_iff.mp hempty, List.append_nil]
  · have htake : (overlay old out).takeD out.length fill = out := by
      rw [overlay, List.takeD_eq_take _ (by simp), List.take_left]
    have hdrop : (overlay old out).drop (out.length + chunk.length) =
        old.drop (out ++ chunk).length := by
      rw [overlay, List.drop_append, List.drop_eq_nil_of_le (by simp), List.nil_append,
        List.drop_drop, List.length_append]
      congr 1
      omega
    rw [htake, hdrop, overlay]

theorem length_overlay (old out : List Item) :
    (overlay old out).length = max old.length out.length := by
  rw [overlay, List.length_append, List.length_drop]
  omega

theorem length_foldl_overlay_le (old : List Item) (outs : List (List Item)) :
    (outs.foldl overlay old).length ≤ old.length + outs.flatten.length := by
  induction outs generalizing old with
  | nil => simp
  | cons out outs ih =>
      have hrest := ih (overlay old out)
      rw [length_overlay] at hrest
      rw [List.foldl_cons, List.flatten_cons, List.length_append]
      omega

theorem foldl_overlay_of_nil {outs : List (List Item)} (houts : ∀ out ∈ outs, out = [])
    (old : List Item) : outs.foldl overlay old = old := by
  induction outs with
  | nil => rfl
  | cons out outs ih =>
      rw [List.foldl_cons, houts out List.mem_cons_self, overlay_nil]
      exact ih fun other hother => houts other (List.mem_cons_of_mem _ hother)

/-- The last writer that has written something goes on. -/
theorem write_foldl_overlay (fill : Item) (old out chunk : List Item)
    (front : List (List Item)) {back : List (List Item)} (hback : ∀ other ∈ back, other = []) :
    write fill out.length chunk ((front ++ out :: back).foldl overlay old) =
      (front ++ (out ++ chunk) :: back).foldl overlay old := by
  simp only [List.foldl_append, List.foldl_cons, foldl_overlay_of_nil hback]
  exact write_overlay fill _ out chunk

/-- Two writers do not overlap if one of them has nothing to write. -/
theorem overlay_of_nil {old out : List Item} (hnil : old = [] ∨ out = []) :
    overlay old out = old ++ out := by
  obtain rfl | rfl := hnil
  · simp [overlay]
  · simp

/-- The writers add to each other if and only if at most one of them, the first
content included, has something to write. -/
theorem foldl_overlay_eq_iff (old : List Item) (outs : List (List Item)) :
    outs.foldl overlay old = old ++ outs.flatten ↔
      (old :: outs).Pairwise fun left right => left = [] ∨ right = [] := by
  induction outs generalizing old with
  | nil => simp
  | cons out outs ih =>
      have hmerge : (old = [] ∨ out = []) →
          ((out :: outs).foldl overlay old = old ++ (out :: outs).flatten ↔
            ((old ++ out) :: outs).Pairwise fun left right => left = [] ∨ right = []) := by
        intro hnil
        rw [List.foldl_cons, overlay_of_nil hnil, List.flatten_cons, ← List.append_assoc]
        exact ih _
      constructor
      · intro heq
        have hnil : old = [] ∨ out = [] := by
          have hlength := length_foldl_overlay_le (overlay old out) outs
          have hsum := congrArg List.length heq
          rw [List.foldl_cons, List.length_append, List.flatten_cons, List.length_append] at hsum
          rw [length_overlay] at hlength
          rw [← List.length_eq_zero_iff, ← List.length_eq_zero_iff]
          omega
        obtain ⟨hfirst, hrest⟩ := List.pairwise_cons.mp ((hmerge hnil).mp heq)
        simp only [List.append_eq_nil_iff] at hfirst
        refine List.pairwise_cons.mpr ⟨fun other hother => ?_,
          List.pairwise_cons.mpr ⟨fun other hother => ?_, hrest⟩⟩
        · obtain rfl | hother := List.mem_cons.mp hother
          · exact hnil
          · exact (hfirst other hother).imp_left And.left
        · exact (hfirst other hother).imp_left And.right
      · intro hpairs
        obtain ⟨hold, hpairs⟩ := List.pairwise_cons.mp hpairs
        obtain ⟨hout, hrest⟩ := List.pairwise_cons.mp hpairs
        refine (hmerge (hold out List.mem_cons_self)).mpr
          (List.pairwise_cons.mpr ⟨fun other hother => ?_, hrest⟩)
        obtain hnil | hnil := hold other (List.mem_cons_of_mem _ hother)
        · exact (hout other hother).imp_left fun hempty => by rw [hnil, hempty]; rfl
        · exact .inr hnil

end JyyOS.Overwrite
