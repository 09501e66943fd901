import JyyOS.ModelChecker.Heap
import JyyOS.ModelChecker.Position

/-!
# Python statements do not see addresses

The simple statements, conditions and iterables of a checked class are left
open, but each of them comes with a proof that it only depends on its store up
to a renaming of addresses.  Two generators whose control and stores agree up
to such a renaming then stay in step.
-/

namespace JyyOS.ModelChecker

/-- A `self` object: its attributes, and the heap everything lives in. -/
structure Obj where
  attrs : String → Option Value
  heap : Heap

/-- What a thread can read and write. -/
structure Store where
  obj : Obj
  locals : String → Option Value

/-- Variables bound to the same values. -/
def SameEnv (naming : Addr → Addr → Prop) (left right : String → Option Value) : Prop :=
  ∀ name, Option.Rel (Value.Same naming) (left name) (right name)

structure Obj.Same (naming : Addr → Addr → Prop) (left right : Obj) : Prop where
  heap : Heap.Same naming left.heap right.heap
  attrs : SameEnv naming left.attrs right.attrs

structure Store.Same (naming : Addr → Addr → Prop) (left right : Store) : Prop where
  obj : Obj.Same naming left.obj right.obj
  locals : SameEnv naming left.locals right.locals

theorem SameEnv.mono {naming larger : Addr → Addr → Prop} (hle : naming ≤ larger)
    {left right : String → Option Value} (hsame : SameEnv naming left right) :
    SameEnv larger left right :=
  fun name => Rel.mono (hsame name) fun _ _ hvalue => hvalue.mono hle

/-- Results that agree once the objects allocated on the way are named too. -/
def Later {α : Type} (naming : Addr → Addr → Prop)
    (same : (Addr → Addr → Prop) → α → α → Prop) (left right : α) : Prop :=
  ∃ larger, naming ≤ larger ∧ Relator.BiUnique larger ∧ same larger left right

/-! ## The language of checked classes -/

/-- A simple statement. -/
structure Statement where
  run : Store → Option Store
  respects : ∀ naming left right, Relator.BiUnique naming →
    Store.Same naming left right →
      Option.Rel (Later naming Store.Same) (run left) (run right)

/-- The condition of an `if` or a `while`. -/
structure Condition where
  run : Store → Option (Bool × Store)
  respects : ∀ naming left right, Relator.BiUnique naming →
    Store.Same naming left right →
      Option.Rel (Later naming fun larger x y => x.1 = y.1 ∧ Store.Same larger x.2 y.2)
        (run left) (run right)

/-- Iterators over ranges and lists. -/
inductive Iterator where
  | range (next stop step : ℤ)
  | list (addr : Addr) (position : ℕ)

inductive Iterator.Same (naming : Addr → Addr → Prop) : Iterator → Iterator → Prop
  | range (next stop step : ℤ) :
      Same naming (.range next stop step) (.range next stop step)
  | list {addr addr' : Addr} (haddr : naming addr addr') (position : ℕ) :
      Same naming (.list addr position) (.list addr' position)

/-- The header of a `for` loop: its iterable and the assignment of its target. -/
structure ForHeader where
  iterable : Store → Option (Iterator × Store)
  target : Value → Store → Option Store
  iterable_respects : ∀ naming left right, Relator.BiUnique naming →
    Store.Same naming left right →
      Option.Rel (Later naming fun larger x y =>
        Iterator.Same larger x.1 y.1 ∧ Store.Same larger x.2 y.2)
        (iterable left) (iterable right)
  target_respects : ∀ naming value value' left right, Relator.BiUnique naming →
    Value.Same naming value value' → Store.Same naming left right →
      Option.Rel (Later naming Store.Same) (target value left) (target value' right)

/-- `next` of an iterator, without the assignment. -/
def Iterator.next (heap : Heap) : Iterator → Option (Option (Value × Iterator))
  | .range next stop step =>
      if (0 < step ∧ next < stop) ∨ (step < 0 ∧ stop < next) then
        some (some (.atom (.int next), .range (next + step) stop step))
      else some none
  | .list addr position =>
      match heap[addr]? with
      | some (.list items) =>
          some (items[position]?.map fun item => (item, .list addr (position + 1)))
      | _ => none

def python : Language where
  Act := Statement
  Cond := Condition
  Loop := ForHeader
  Store := Store
  Iterator := Iterator
  exec act := act.run
  test cond := cond.run
  iter loop := loop.iterable
  advance loop iterator store := do
    match ← iterator.next store.obj.heap with
    | none => some none
    | some (value, iterator) =>
        (loop.target value store).map fun store => some (iterator, store)

theorem Iterator.Same.mono {naming larger : Addr → Addr → Prop} (hle : naming ≤ larger)
    {left right : Iterator} (hsame : Iterator.Same naming left right) :
    Iterator.Same larger left right := by
  cases hsame with
  | range next stop step => exact .range next stop step
  | list haddr position => exact .list (hle _ _ haddr) position

theorem Iterator.Same.next {naming : Addr → Addr → Prop} {heap heap' : Heap}
    (hheap : Heap.Same naming heap heap') {left right : Iterator}
    (hsame : Iterator.Same naming left right) :
    Option.Rel (Option.Rel fun x y =>
      Value.Same naming x.1 y.1 ∧ Iterator.Same naming x.2 y.2)
      (left.next heap) (right.next heap') := by
  cases hsame with
  | range next stop step =>
      simp only [Iterator.next]
      split
      · exact Option.Rel.some (Option.Rel.some ⟨.atom _, .range _ _ _⟩)
      · exact Option.Rel.some Option.Rel.none
  | list haddr position =>
      obtain ⟨cell, cell', hcell, hcell', hcells⟩ := hheap _ _ haddr
      simp only [Iterator.next, hcell, hcell']
      cases hcells with
      | dict => exact .none
      | list hitems =>
          apply Option.Rel.some
          rw [Option.map_eq_bind, Option.map_eq_bind]
          apply Rel.bind (sameItems_get? hitems position)
          exact fun _ _ hitem => .some ⟨hitem, .list haddr _⟩

theorem advance_same {naming : Addr → Addr → Prop} (hunique : Relator.BiUnique naming)
    (loop : ForHeader) {iterator iterator' : Iterator} {left right : Store}
    (hiterator : Iterator.Same naming iterator iterator')
    (hstore : Store.Same naming left right) :
    Option.Rel (Option.Rel (Later naming fun larger x y =>
      Iterator.Same larger x.1 y.1 ∧ Store.Same larger x.2 y.2))
      (python.advance loop iterator left) (python.advance loop iterator' right) := by
  apply Rel.bind (hiterator.next hstore.obj.heap)
  rintro _ _ (⟨hvalue, hnext⟩ | _)
  · simp only [Option.map_eq_bind]
    apply Rel.bind (loop.target_respects naming _ _ _ _ hunique hvalue hstore)
    rintro store store' ⟨larger, hle, hunique', hstore'⟩
    exact .some (Option.Rel.some ⟨larger, hle, hunique', hnext.mono hle, hstore'⟩)
  · exact .some Option.Rel.none

/-! ## Generators in step -/

namespace Language

/-- The same level of control with the same progress. -/
inductive SameFrame (naming : Addr → Addr → Prop) : python.Frame → python.Frame → Prop
  | suite (rest) : SameFrame naming (.suite rest) (.suite rest)
  | whileLoop (cond body others) :
      SameFrame naming (.whileLoop cond body others) (.whileLoop cond body others)
  | forLoop (loop body others) {iterator iterator'}
      (hiterator : Iterator.Same naming iterator iterator') :
      SameFrame naming (.forLoop loop iterator body others)
        (.forLoop loop iterator' body others)

abbrev SameStack (naming : Addr → Addr → Prop) : python.Stack → python.Stack → Prop :=
  List.Forall₂ (SameFrame naming)

theorem SameStack.mono {naming larger : Addr → Addr → Prop} (hle : naming ≤ larger)
    {left right : python.Stack} (hsame : SameStack naming left right) :
    SameStack larger left right := by
  apply hsame.imp
  intro frame frame' hframe
  cases hframe with
  | suite rest => exact .suite rest
  | whileLoop cond body others => exact .whileLoop cond body others
  | forLoop loop body others hiterator =>
      exact .forLoop loop body others (hiterator.mono hle)

theorem sameStack_toLoop {naming : Addr → Addr → Prop} {left right : python.Stack}
    (hsame : SameStack naming left right) :
    SameStack naming (toLoop left) (toLoop right) := by
  induction hsame with
  | nil => exact .nil
  | cons hframe hstack ih =>
      cases hframe with
      | suite rest => exact ih
      | whileLoop cond body others => exact .cons (.whileLoop cond body others) hstack
      | forLoop loop body others hiterator =>
          exact .cons (.forLoop loop body others hiterator) hstack

theorem sameStack_tail {naming : Addr → Addr → Prop} {left right : python.Stack}
    (hsame : SameStack naming left right) : SameStack naming left.tail right.tail := by
  cases hsame with
  | nil => exact .nil
  | cons _ hstack => exact hstack

/-- Control and store agree. -/
def SameConfig (naming : Addr → Addr → Prop)
    (left right : python.Stack × python.Store) : Prop :=
  SameStack naming left.1 right.1 ∧ Store.Same naming left.2 right.2

inductive SameEvent (naming : Addr → Addr → Prop) : python.Event → python.Event → Prop
  | silent {stack stack' store store'}
      (hlater : Later naming SameConfig (stack, store) (stack', store')) :
      SameEvent naming (.silent stack store) (.silent stack' store')
  | worked {stack stack' store store'}
      (hlater : Later naming SameConfig (stack, store) (stack', store')) :
      SameEvent naming (.worked stack store) (.worked stack' store')
  | yielded (line) {stack stack'} (hstack : SameStack naming stack stack') :
      SameEvent naming (.yielded line stack) (.yielded line stack')
  | stopped : SameEvent naming .stopped .stopped
  | raised : SameEvent naming .raised .raised

inductive SameOutcome (naming : Addr → Addr → Prop) :
    python.Outcome → python.Outcome → Prop
  | yielded (line) {stack stack' store store'}
      (hconfig : SameConfig naming (stack, store) (stack', store')) :
      SameOutcome naming (.yielded line stack store) (.yielded line stack' store')
  | stopped {store store'} (hstore : Store.Same naming store store') :
      SameOutcome naming (.stopped store) (.stopped store')
  | raised : SameOutcome naming .raised .raised

theorem later_trans {α : Type} {naming middle : Addr → Addr → Prop}
    {same : (Addr → Addr → Prop) → α → α → Prop} {left right : α}
    (hle : naming ≤ middle) (hlater : Later middle same left right) :
    Later naming same left right := by
  obtain ⟨larger, hmore, hunique, hsame⟩ := hlater
  exact ⟨larger, hle.trans hmore, hunique, hsame⟩

section Micro

variable {naming : Addr → Addr → Prop} (hunique : Relator.BiUnique naming)
  {below below' : python.Stack} (hbelow : SameStack naming below below')
  {store store' : python.Store} (hstore : Store.Same naming store store')

include hunique hbelow hstore

theorem sameEvent_simple (act : python.Act) (rest : python.Code) :
    SameEvent naming (micro (.suite (.leaf (.simple act) rest) :: below) store)
      (micro (.suite (.leaf (.simple act) rest) :: below') store') := by
  have hrun := act.respects naming store store' hunique hstore
  simp only [micro, python]
  generalize act.run store = result at hrun
  generalize act.run store' = result' at hrun
  cases hrun with
  | none => exact .raised
  | some hlater =>
      obtain ⟨larger, hle, hunique', hafter⟩ := hlater
      exact .worked ⟨larger, hle, hunique', .cons (.suite rest) (hbelow.mono hle), hafter⟩

omit hbelow in
/-- A condition and the two ways on from it. -/
theorem sameEvent_test (cond : python.Cond) {yes yes' no no' : python.Stack}
    (hyes : SameStack naming yes yes') (hno : SameStack naming no no') :
    SameEvent naming (.ofTest yes no (python.test cond store))
      (.ofTest yes' no' (python.test cond store')) := by
  have hrun := cond.respects naming store store' hunique hstore
  simp only [python]
  generalize cond.run store = result at hrun
  generalize cond.run store' = result' at hrun
  cases hrun with
  | none => exact .raised
  | some hlater =>
      rename_i first second
      obtain ⟨truth, after⟩ := first
      obtain ⟨truth', after'⟩ := second
      obtain ⟨larger, hle, hunique', rfl, hafter⟩ := hlater
      cases truth with
      | true => exact .worked ⟨larger, hle, hunique', hyes.mono hle, hafter⟩
      | false => exact .worked ⟨larger, hle, hunique', hno.mono hle, hafter⟩

theorem sameEvent_forEach (loop : python.Loop) (body others rest : python.Code) :
    SameEvent naming
      (micro (.suite (.compound (.forEach loop) body others rest) :: below) store)
      (micro (.suite (.compound (.forEach loop) body others rest) :: below') store') := by
  have hrun := loop.iterable_respects naming store store' hunique hstore
  simp only [micro, python]
  generalize loop.iterable store = result at hrun
  generalize loop.iterable store' = result' at hrun
  cases hrun with
  | none => exact .raised
  | some hlater =>
      obtain ⟨larger, hle, hunique', hiterator, hafter⟩ := hlater
      exact .silent ⟨larger, hle, hunique', .cons (.forLoop loop body others hiterator)
        (.cons (.suite rest) (hbelow.mono hle)), hafter⟩

theorem sameEvent_forLoop (loop : python.Loop) (body others : python.Code)
    {iterator iterator' : python.Iterator}
    (hiterator : Iterator.Same naming iterator iterator') :
    SameEvent naming (micro (.forLoop loop iterator body others :: below) store)
      (micro (.forLoop loop iterator' body others :: below') store') := by
  have hrun := advance_same hunique loop hiterator hstore
  simp only [micro]
  generalize python.advance loop iterator store = result at hrun
  generalize python.advance loop iterator' store' = result' at hrun
  cases hrun with
  | none => exact .raised
  | some hnext =>
      cases hnext with
      | none =>
          exact .worked ⟨naming, le_rfl, hunique, .cons (.suite others) hbelow, hstore⟩
      | some hlater =>
          obtain ⟨larger, hle, hunique', hiterator', hafter⟩ := hlater
          exact .worked ⟨larger, hle, hunique', .cons (.suite body)
            (.cons (.forLoop loop body others hiterator') (hbelow.mono hle)), hafter⟩

theorem sameEvent_suite (code : python.Code) :
    SameEvent naming (micro (.suite code :: below) store)
      (micro (.suite code :: below') store') := by
  cases code with
  | nil => exact .silent ⟨naming, le_rfl, hunique, hbelow, hstore⟩
  | leaf statement rest =>
      cases statement with
      | simple act => exact sameEvent_simple hunique hbelow hstore act rest
      | brk =>
          exact .worked ⟨naming, le_rfl, hunique,
            sameStack_tail (sameStack_toLoop hbelow), hstore⟩
      | cont => exact .worked ⟨naming, le_rfl, hunique, sameStack_toLoop hbelow, hstore⟩
      | ret => exact .worked ⟨naming, le_rfl, hunique, .nil, hstore⟩
      | checkpoint line => exact .yielded line (.cons (.suite rest) hbelow)
  | compound head body others rest =>
      have hrest : SameStack naming (.suite rest :: below) (.suite rest :: below') :=
        .cons (.suite rest) hbelow
      cases head with
      | ifTest cond =>
          exact sameEvent_test hunique hstore cond (.cons (.suite body) hrest)
            (.cons (.suite others) hrest)
      | whileTest cond =>
          exact .silent ⟨naming, le_rfl, hunique,
            .cons (.whileLoop cond body others) hrest, hstore⟩
      | forEach loop => exact sameEvent_forEach hunique hbelow hstore loop body others rest

end Micro

theorem micro_same {naming : Addr → Addr → Prop} (hunique : Relator.BiUnique naming)
    {stack stack' : python.Stack} {store store' : python.Store}
    (hstack : SameStack naming stack stack') (hstore : Store.Same naming store store') :
    SameEvent naming (micro stack store) (micro stack' store') := by
  cases hstack with
  | nil => exact .stopped
  | cons hframe hbelow =>
      cases hframe with
      | suite code => exact sameEvent_suite hunique hbelow hstore code
      | whileLoop cond body others =>
          exact sameEvent_test hunique hstore cond
            (.cons (.suite body) (.cons (.whileLoop cond body others) hbelow))
            (.cons (.suite others) hbelow)
      | forLoop loop body others hiterator =>
          exact sameEvent_forLoop hunique hbelow hstore loop body others hiterator

/-- Generators that agree up to a renaming of addresses come back in the same
way, at the same line. -/
theorem resume_same (fuel : ℕ) {naming : Addr → Addr → Prop}
    (hunique : Relator.BiUnique naming) {stack stack' : python.Stack}
    {store store' : python.Store} (hstack : SameStack naming stack stack')
    (hstore : Store.Same naming store store') :
    Option.Rel (fun x y => x.1 = y.1 ∧ Later naming SameOutcome x.2 y.2)
      (resume fuel stack store) (resume fuel stack' store') := by
  induction fuel generalizing naming stack stack' store store' with
  | zero => exact .none
  | succ fuel ih =>
      have hevent := micro_same hunique hstack hstore
      simp only [resume]
      generalize micro stack store = event at hevent
      generalize micro stack' store' = event' at hevent
      cases hevent with
      | silent hlater =>
          obtain ⟨larger, hle, hunique', hstack', hafter⟩ := hlater
          exact Rel.mono (ih hunique' hstack' hafter) fun x y hxy =>
            ⟨hxy.1, later_trans hle hxy.2⟩
      | worked hlater =>
          obtain ⟨larger, hle, hunique', hstack', hafter⟩ := hlater
          simp only [Option.map_eq_bind]
          apply Rel.bind (ih hunique' hstack' hafter)
          rintro ⟨work, outcome⟩ ⟨work', outcome'⟩ ⟨hwork, hlater⟩
          exact .some ⟨congrArg (· + 1) hwork, later_trans hle hlater⟩
      | yielded line hstack' =>
          exact .some ⟨rfl, naming, le_rfl, hunique, .yielded line ⟨hstack', hstore⟩⟩
      | stopped => exact .some ⟨rfl, naming, le_rfl, hunique, .stopped hstore⟩
      | raised => exact .some ⟨rfl, naming, le_rfl, hunique, .raised⟩

end Language

end JyyOS.ModelChecker
