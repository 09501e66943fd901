import Mathlib.Data.List.Basic
import Mathlib.Logic.Relation
import Mathlib.Tactic

/-!
# Depth-first walks

A node of a graph has a list of items: references to other nodes, and values
that the node emits.  A walk goes through a list of items; it enters each
referenced node the first time, marking it before its items, and collects the
emitted values in this order.
-/

namespace JyyOS.DepthFirst

variable {Node Value : Type*}

inductive Item (Node Value : Type*) where
  | enter (node : Node)
  | emit (value : Value)

/-- A walk over items that starts with `seen` marked, ends with `seen'` marked
and emits `out`. -/
inductive Walk (body : Node → List (Item Node Value)) :
    List Node → List (Item Node Value) → List Node → List Value → Prop
  | nil {seen : List Node} : Walk body seen [] seen []
  | skip {seen seen' : List Node} {node : Node} {items : List (Item Node Value)}
      {out : List Value} (hseen : node ∈ seen)
      (hrest : Walk body seen items seen' out) :
      Walk body seen (.enter node :: items) seen' out
  | enter {seen middle seen' : List Node} {node : Node}
      {items : List (Item Node Value)} {inner out : List Value}
      (hnew : node ∉ seen)
      (hinner : Walk body (seen ++ [node]) (body node) middle inner)
      (hrest : Walk body middle items seen' out) :
      Walk body seen (.enter node :: items) seen' (inner ++ out)
  | emit {seen seen' : List Node} {value : Value} {items : List (Item Node Value)}
      {out : List Value} (hrest : Walk body seen items seen' out) :
      Walk body seen (.emit value :: items) seen' (value :: out)

variable {body : Node → List (Item Node Value)}

/-- There is one walk at most. -/
theorem Walk.unique {seen seen₁ seen₂ : List Node} {items : List (Item Node Value)}
    {out₁ out₂ : List Value} (hfirst : Walk body seen items seen₁ out₁)
    (hsecond : Walk body seen items seen₂ out₂) : seen₁ = seen₂ ∧ out₁ = out₂ := by
  induction hfirst generalizing seen₂ out₂ with
  | nil =>
      cases hsecond
      exact ⟨rfl, rfl⟩
  | skip hseen _ ih =>
      cases hsecond with
      | skip _ hrest => exact ih hrest
      | enter hnew _ _ => exact absurd hseen hnew
  | enter hnew _ _ ihInner ihRest =>
      cases hsecond with
      | skip hseen _ => exact absurd hseen hnew
      | enter _ hinner hrest =>
          obtain ⟨rfl, rfl⟩ := ihInner hinner
          obtain ⟨rfl, rfl⟩ := ihRest hrest
          exact ⟨rfl, rfl⟩
  | emit _ ih =>
      cases hsecond with
      | emit hrest =>
          obtain ⟨rfl, rfl⟩ := ih hrest
          exact ⟨rfl, rfl⟩

/-- What holds of the items of every node that is entered holds of what the walk
emits. -/
theorem Walk.forall_mem {seen seen' : List Node} {items : List (Item Node Value)}
    {out : List Value} (hwalk : Walk body seen items seen' out)
    {P : Value → Prop} {Q : Node → Prop}
    (hbody : ∀ node, Q node → (∀ next, .enter next ∈ body node → Q next) ∧
      ∀ value, .emit value ∈ body node → P value)
    (henter : ∀ node, .enter node ∈ items → Q node)
    (hemit : ∀ value, .emit value ∈ items → P value) : ∀ value ∈ out, P value := by
  induction hwalk with
  | nil => exact fun value hvalue => absurd hvalue List.not_mem_nil
  | skip _ _ ih =>
      exact ih (fun node hnode => henter node (List.mem_cons_of_mem _ hnode))
        (fun value hvalue => hemit value (List.mem_cons_of_mem _ hvalue))
  | enter _ _ _ ihInner ihRest =>
      obtain ⟨hnext, hvalues⟩ := hbody _ (henter _ List.mem_cons_self)
      intro value hvalue
      obtain hvalue | hvalue := List.mem_append.mp hvalue
      · exact ihInner hnext hvalues value hvalue
      · exact ihRest (fun node hnode => henter node (List.mem_cons_of_mem _ hnode))
          (fun value hvalue => hemit value (List.mem_cons_of_mem _ hvalue)) value hvalue
  | emit _ ih =>
      rw [List.forall_mem_cons]
      exact ⟨hemit _ List.mem_cons_self,
        ih (fun node hnode => henter node (List.mem_cons_of_mem _ hnode))
          (fun value hvalue => hemit value (List.mem_cons_of_mem _ hvalue))⟩

/-- A set that is closed under a relation holds whatever its elements lead
to. -/
theorem mem_of_reflTransGen {r : Node → Node → Prop} {S : Set Node}
    (hclosed : ∀ node ∈ S, ∀ next, r node next → next ∈ S) {first last : Node}
    (hfirst : first ∈ S) (hreaches : Relation.ReflTransGen r first last) :
    last ∈ S := by
  induction hreaches with
  | refl => exact hfirst
  | tail _ hstep ih => exact hclosed _ ih _ hstep

end JyyOS.DepthFirst
