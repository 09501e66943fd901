import Mathlib.Data.List.Forall2
import Mathlib.Logic.Relator
import Mathlib.Tactic

/-!
# Values, references and what a recorded value shows of them

Lists and dictionaries are objects with an identity; a variable holds a
reference to one.  A recorded value shows the contents that can be reached by
following references, but neither which of them are the same object nor in
which order a dictionary was filled.  The second half shows that contents,
sharing and filling order together determine a store up to a renaming of
addresses.
-/

namespace JyyOS.ModelChecker

/-! ## Related options -/

section Related

variable {α β γ δ : Type*} {R : α → β → Prop} {S : γ → δ → Prop}

theorem Rel.bind {left : Option α} {right : Option β} {f : α → Option γ}
    {g : β → Option δ} (hrel : Option.Rel R left right)
    (hbind : ∀ x y, R x y → Option.Rel S (f x) (g y)) :
    Option.Rel S (left.bind f) (right.bind g) := by
  cases hrel with
  | none => exact .none
  | some hxy => exact hbind _ _ hxy

theorem Rel.isSome_eq {left : Option α} {right : Option β}
    (hrel : Option.Rel R left right) : left.isSome = right.isSome := by
  cases hrel <;> rfl

theorem Rel.mono {T : α → β → Prop} {left : Option α} {right : Option β}
    (hrel : Option.Rel R left right) (hle : ∀ x y, R x y → T x y) :
    Option.Rel T left right := by
  cases hrel with
  | none => exact .none
  | some hxy => exact .some (hle _ _ hxy)

theorem Rel.map_eq {left : Option α} {right : Option β} {f : α → γ} {g : β → γ}
    (hrel : Option.Rel R left right) (hmap : ∀ x y, R x y → f x = g y) :
    left.map f = right.map g := by
  cases hrel with
  | none => rfl
  | some hxy => exact congrArg some (hmap _ _ hxy)

theorem Rel.bind_eq {left : Option α} {right : Option β} {f : α → Option γ}
    {g : β → Option γ} (hrel : Option.Rel R left right)
    (hbind : ∀ x y, R x y → f x = g y) : left.bind f = right.bind g := by
  cases hrel with
  | none => rfl
  | some hxy => exact hbind _ _ hxy

end Related

/-! ## Values and heaps -/

abbrev Addr := ℕ

inductive Atom where
  | none
  | int (value : ℤ)
  | bool (value : Bool)
  | str (value : String)
deriving DecidableEq

/-- Keys of dictionaries: constants and tuples of them. -/
inductive Key where
  | atom (atom : Atom)
  | tuple (items : List Key)

inductive Value where
  | atom (atom : Atom)
  | tuple (items : List Value)
  | ref (addr : Addr)

/-- A dictionary remembers the order in which its keys were inserted. -/
structure Dict where
  order : List Key
  get : Key → Option Value
  mem_order : ∀ key, key ∈ order ↔ (get key).isSome

inductive Cell where
  | list (items : List Value)
  | dict (entries : Dict)

/-- A new object takes the next address. -/
abbrev Heap := List Cell

/-! ## Access paths -/

inductive Selector where
  | index (position : ℕ)
  | key (key : Key)

/-- What a value shows of itself. -/
inductive Shape where
  | atom (atom : Atom)
  | tuple (length : ℕ)
  | list (length : ℕ)
  | dict (keys : Key → Bool)

def Cell.shape : Cell → Shape
  | .list items => .list items.length
  | .dict entries => .dict fun key => (entries.get key).isSome

def Cell.select : Cell → Selector → Option Value
  | .list items, .index position => items[position]?
  | .dict entries, .key key => entries.get key
  | _, _ => none

namespace Value

variable (heap : Heap)

def shape : Value → Option Shape
  | .atom value => some (.atom value)
  | .tuple items => some (.tuple items.length)
  | .ref addr => heap[addr]?.map Cell.shape

def select : Value → Selector → Option Value
  | .tuple items, .index position => items[position]?
  | .ref addr, selector => heap[addr]?.bind (·.select selector)
  | _, _ => none

def resolve (value : Value) : List Selector → Option Value
  | [] => some value
  | selector :: path => (value.select heap selector).bind (·.resolve path)

/-- The contents of a value: what each access path finds. -/
def observe (value : Value) (path : List Selector) : Option Shape :=
  (value.resolve heap path).bind fun found => found.shape heap

theorem resolve_append (value : Value) (path more : List Selector) :
    value.resolve heap (path ++ more) =
      (value.resolve heap path).bind (·.resolve heap more) := by
  induction path generalizing value with
  | nil => rfl
  | cons selector path ih =>
      simp only [List.cons_append, resolve]
      cases value.select heap selector with
      | none => rfl
      | some inner => exact ih inner

theorem resolve_snoc {value inner : Value} {path : List Selector}
    (hinner : value.resolve heap path = some inner) (selector : Selector) :
    value.resolve heap (path ++ [selector]) = inner.select heap selector := by
  rw [resolve_append, hinner]
  cases hselect : inner.select heap selector <;> simp [resolve, hselect]

/-- Values that show the same are of the same kind. -/
theorem kind_of_shape {heap heap' : Heap} {value value' : Value}
    (hshape : value.shape heap = value'.shape heap')
    (hsome : (value.shape heap).isSome) :
    (∃ shown, value = .atom shown ∧ value' = .atom shown) ∨
      (∃ items items', value = .tuple items ∧ value' = .tuple items' ∧
        items.length = items'.length) ∨
      ∃ addr addr', value = .ref addr ∧ value' = .ref addr' := by
  match value, value' with
  | .atom shown, .atom shown' => simpa [shape, eq_comm] using hshape
  | .tuple items, .tuple items' => simpa [shape] using hshape
  | .ref addr, .ref addr' => simp
  | .atom shown, .tuple items => simp [shape] at hshape
  | .tuple items, .atom shown => simp [shape] at hshape
  | .atom shown, .ref addr =>
      obtain ⟨cell, -, hcell⟩ := Option.map_eq_some_iff.mp hshape.symm
      cases cell <;> cases hcell
  | .tuple items, .ref addr =>
      obtain ⟨cell, -, hcell⟩ := Option.map_eq_some_iff.mp hshape.symm
      cases cell <;> cases hcell
  | .ref addr, .atom shown =>
      obtain ⟨cell, -, hcell⟩ := Option.map_eq_some_iff.mp hshape
      cases cell <;> cases hcell
  | .ref addr, .tuple items =>
      obtain ⟨cell, -, hcell⟩ := Option.map_eq_some_iff.mp hshape
      cases cell <;> cases hcell

@[elab_as_elim]
theorem induction {P : Value → Prop} (hatom : ∀ shown, P (.atom shown))
    (htuple : ∀ items, (∀ item ∈ items, P item) → P (.tuple items))
    (href : ∀ addr, P (.ref addr)) (value : Value) : P value :=
  @Value.rec P (fun items => ∀ item ∈ items, P item) hatom htuple href (by simp)
    (fun _ _ hitem hitems => List.forall_mem_cons.mpr ⟨hitem, hitems⟩) value

end Value

/-! ## Equality up to a renaming of addresses -/

/-- Items at the same positions are related. -/
def SameItems (same : Value → Value → Prop) (left right : List Value) : Prop :=
  left.length = right.length ∧
    ∀ (position : ℕ) x y, left[position]? = some x → right[position]? = some y → same x y

inductive Value.Same (naming : Addr → Addr → Prop) : Value → Value → Prop
  | atom (atom : Atom) : Same naming (.atom atom) (.atom atom)
  | tuple {left right : List Value} (hlength : left.length = right.length)
      (hitems : ∀ (position : ℕ) x y, left[position]? = some x → right[position]? = some y →
        Same naming x y) : Same naming (.tuple left) (.tuple right)
  | ref {addr addr' : Addr} (haddr : naming addr addr') :
      Same naming (.ref addr) (.ref addr')

inductive Cell.Same (naming : Addr → Addr → Prop) : Cell → Cell → Prop
  | list {left right : List Value}
      (hitems : SameItems (Value.Same naming) left right) :
      Same naming (.list left) (.list right)
  | dict {left right : Dict} (horder : left.order = right.order)
      (hget : ∀ key, Option.Rel (Value.Same naming) (left.get key) (right.get key)) :
      Same naming (.dict left) (.dict right)

/-- Renamed addresses are allocated on both sides and hold the same contents. -/
def Heap.Same (naming : Addr → Addr → Prop) (left right : Heap) : Prop :=
  ∀ addr addr', naming addr addr' → ∃ cell cell',
    left[addr]? = some cell ∧ right[addr']? = some cell' ∧ Cell.Same naming cell cell'

theorem Value.Same.mono {naming larger : Addr → Addr → Prop}
    (hle : ∀ addr addr', naming addr addr' → larger addr addr')
    {left right : Value} (hsame : Value.Same naming left right) :
    Value.Same larger left right := by
  induction hsame with
  | atom atom => exact .atom atom
  | tuple hlength _ ih => exact .tuple hlength ih
  | ref haddr => exact .ref (hle _ _ haddr)

theorem Cell.Same.mono {naming larger : Addr → Addr → Prop}
    (hle : ∀ addr addr', naming addr addr' → larger addr addr')
    {left right : Cell} (hsame : Cell.Same naming left right) :
    Cell.Same larger left right := by
  cases hsame with
  | list hitems =>
      exact .list ⟨hitems.1, fun position x y hx hy => (hitems.2 position x y hx hy).mono hle⟩
  | dict horder hget =>
      exact .dict horder fun key => Rel.mono (hget key) fun _ _ hvalue => hvalue.mono hle

/-- Objects allocated on both sides are named by one another. -/
theorem Heap.Same.alloc {naming : Addr → Addr → Prop} (hunique : Relator.BiUnique naming)
    {left right : Heap} (hheap : Heap.Same naming left right) {cell cell' : Cell}
    (hcell : Cell.Same naming cell cell') :
    ∃ larger : Addr → Addr → Prop, naming ≤ larger ∧ Relator.BiUnique larger ∧
      larger left.length right.length ∧
        Heap.Same larger (left ++ [cell]) (right ++ [cell']) := by
  have hbound : ∀ addr addr', naming addr addr' →
      addr < left.length ∧ addr' < right.length := by
    intro addr addr' hnaming
    obtain ⟨_, _, hleft, hright, -⟩ := hheap addr addr' hnaming
    exact ⟨(List.getElem?_eq_some_iff.mp hleft).1, (List.getElem?_eq_some_iff.mp hright).1⟩
  let larger : Addr → Addr → Prop := fun addr addr' =>
    naming addr addr' ∨ addr = left.length ∧ addr' = right.length
  have hle : naming ≤ larger := fun _ _ hnaming => .inl hnaming
  refine ⟨larger, hle, ⟨?_, ?_⟩, .inr ⟨rfl, rfl⟩, ?_⟩
  · rintro addr addr' found (hold | ⟨rfl, rfl⟩) (hold' | ⟨rfl, hfound⟩)
    · exact hunique.1 hold hold'
    · exact absurd hfound (hbound _ _ hold).2.ne
    · exact absurd (hbound _ _ hold').2 (lt_irrefl _)
    · rfl
  · rintro addr found found' (hold | ⟨rfl, rfl⟩) (hold' | ⟨haddr, rfl⟩)
    · exact hunique.2 hold hold'
    · exact absurd haddr (hbound _ _ hold).1.ne
    · exact absurd (hbound _ _ hold').1 (lt_irrefl _)
    · rfl
  · rintro addr addr' (hold | ⟨rfl, rfl⟩)
    · obtain ⟨first, second, hleft, hright, hsame⟩ := hheap addr addr' hold
      obtain ⟨hlt, hlt'⟩ := hbound addr addr' hold
      refine ⟨first, second, ?_, ?_, hsame.mono hle⟩
      · rw [List.getElem?_append_left hlt, hleft]
      · rw [List.getElem?_append_left hlt', hright]
    · exact ⟨cell, cell', List.getElem?_concat_length, List.getElem?_concat_length,
        hcell.mono hle⟩

theorem sameItems_get? {same : Value → Value → Prop} {left right : List Value}
    (hitems : SameItems same left right) (position : ℕ) :
    Option.Rel same left[position]? right[position]? := by
  by_cases hposition : position < left.length
  · have hposition' : position < right.length := hitems.1 ▸ hposition
    have hleft := List.getElem?_eq_getElem hposition
    have hright := List.getElem?_eq_getElem hposition'
    rw [hleft, hright]
    exact .some (hitems.2 position _ _ hleft hright)
  · have hposition' : ¬ position < right.length := hitems.1 ▸ hposition
    rw [List.getElem?_eq_none (Nat.le_of_not_lt hposition),
      List.getElem?_eq_none (Nat.le_of_not_lt hposition')]
    exact .none

section Same

variable {naming : Addr → Addr → Prop} {heap heap' : Heap}
  (hheap : Heap.Same naming heap heap')

include hheap

theorem Value.Same.select {left right : Value}
    (hsame : Value.Same naming left right) (selector : Selector) :
    Option.Rel (Value.Same naming) (left.select heap selector)
      (right.select heap' selector) := by
  cases hsame with
  | atom atom => exact .none
  | tuple hlength hitems =>
      cases selector with
      | index position => exact sameItems_get? ⟨hlength, hitems⟩ position
      | key key => exact .none
  | ref haddr =>
      obtain ⟨cell, cell', hcell, hcell', hsame⟩ := hheap _ _ haddr
      simp only [Value.select, hcell, hcell', Option.bind_some]
      cases hsame with
      | list hitems =>
          cases selector with
          | index position => exact sameItems_get? hitems position
          | key key => exact .none
      | dict _ hget =>
          cases selector with
          | index position => exact .none
          | key key => exact hget key

theorem Value.Same.resolve {left right : Value}
    (hsame : Value.Same naming left right) (path : List Selector) :
    Option.Rel (Value.Same naming) (left.resolve heap path)
      (right.resolve heap' path) := by
  induction path generalizing left right with
  | nil => exact .some hsame
  | cons selector path ih =>
      exact Rel.bind (hsame.select hheap selector) fun _ _ hinner => ih hinner

theorem Value.Same.shape {left right : Value}
    (hsame : Value.Same naming left right) :
    left.shape heap = right.shape heap' ∧ (left.shape heap).isSome := by
  cases hsame with
  | atom atom => exact ⟨rfl, rfl⟩
  | tuple hlength _ => exact ⟨by simp [Value.shape, hlength], rfl⟩
  | ref haddr =>
      obtain ⟨cell, cell', hcell, hcell', hsame⟩ := hheap _ _ haddr
      simp only [Value.shape, hcell, hcell', Option.map_some, Option.isSome_some, and_true]
      cases hsame with
      | list hitems => simp [Cell.shape, hitems.1]
      | dict _ hget =>
          have hkeys := funext fun key => Rel.isSome_eq (hget key)
          simp only [Cell.shape, hkeys]

theorem Value.Same.observe {left right : Value}
    (hsame : Value.Same naming left right) :
    left.observe heap = right.observe heap' := by
  funext path
  exact Rel.bind_eq (hsame.resolve hheap path) fun _ _ hinner => (hinner.shape hheap).1

end Same

/-! ## Heaps with roots -/

/-- A heap and the variables it is entered from. -/
structure Rooted (Root : Type) where
  heap : Heap
  root : Root → Option Value

namespace Rooted

variable {Root : Type}

def reach (store : Rooted Root) (root : Root) (path : List Selector) : Option Value :=
  (store.root root).bind (·.resolve store.heap path)

/-- Two access paths lead to the same object. -/
def Shares (store : Rooted Root) (first second : Root × List Selector) : Prop :=
  ∃ addr, store.reach first.1 first.2 = some (.ref addr) ∧
    store.reach second.1 second.2 = some (.ref addr)

def dictAt (store : Rooted Root) (root : Root) (path : List Selector) : Option Dict :=
  match store.reach root path with
  | some (.ref addr) =>
      match store.heap[addr]? with
      | some (.dict entries) => some entries
      | _ => none
  | _ => none

/-- No dangling reference can be reached. -/
def Closed (store : Rooted Root) : Prop :=
  ∀ root path value, store.reach root path = some value →
    (value.shape store.heap).isSome

/-- Variables with the same contents. -/
def SameContents (left right : Rooted Root) (root : Root) : Prop :=
  (left.root root).map (Value.observe left.heap) =
    (right.root root).map (Value.observe right.heap)

/-- The two stores share objects between the same access paths. -/
def SameSharing (left right : Rooted Root) : Prop :=
  ∀ first second, left.Shares first second ↔ right.Shares first second

/-- Dictionaries at the same place were filled in the same order. -/
def SameOrder (left right : Rooted Root) : Prop :=
  ∀ root path entries entries', left.dictAt root path = some entries →
    right.dictAt root path = some entries' → entries.order = entries'.order

/-- Equal up to a renaming of addresses. -/
def Same (naming : Addr → Addr → Prop) (left right : Rooted Root) : Prop :=
  Heap.Same naming left.heap right.heap ∧
    ∀ root, Option.Rel (Value.Same naming) (left.root root) (right.root root)

theorem reach_snoc {store : Rooted Root} {root : Root} {path : List Selector}
    {value : Value} (hreach : store.reach root path = some value)
    (selector : Selector) :
    store.reach root (path ++ [selector]) = value.select store.heap selector := by
  obtain ⟨start, hroot, hpath⟩ := Option.bind_eq_some_iff.mp hreach
  rw [reach, hroot]
  exact Value.resolve_snoc _ hpath selector

section Renaming

variable {left right : Rooted Root} {naming : Addr → Addr → Prop}
  (hsame : Same naming left right)

include hsame

theorem Same.reach (root : Root) (path : List Selector) :
    Option.Rel (Value.Same naming) (left.reach root path) (right.reach root path) :=
  Rel.bind (hsame.2 root) fun _ _ hvalue => hvalue.resolve hsame.1 path

theorem Same.sameContents (root : Root) : SameContents left right root :=
  Rel.map_eq (hsame.2 root) fun _ _ hvalue => hvalue.observe hsame.1

theorem Same.ref_left {root : Root} {path : List Selector} {addr : Addr}
    (hleft : left.reach root path = some (.ref addr)) :
    ∃ addr', right.reach root path = some (.ref addr') ∧ naming addr addr' := by
  have hreach := hsame.reach root path
  rw [hleft] at hreach
  generalize right.reach root path = found at hreach
  cases hreach with
  | some hvalue =>
      cases hvalue with
      | ref haddr => exact ⟨_, rfl, haddr⟩

theorem Same.ref_right {root : Root} {path : List Selector} {addr' : Addr}
    (hright : right.reach root path = some (.ref addr')) :
    ∃ addr, left.reach root path = some (.ref addr) ∧ naming addr addr' := by
  have hreach := hsame.reach root path
  rw [hright] at hreach
  generalize left.reach root path = found at hreach
  cases hreach with
  | some hvalue =>
      cases hvalue with
      | ref haddr => exact ⟨_, rfl, haddr⟩

theorem Same.sameSharing (hunique : Relator.BiUnique naming) :
    SameSharing left right := by
  intro first second
  constructor
  · rintro ⟨addr, hfirst, hsecond⟩
    obtain ⟨found, hfound, hnaming⟩ := hsame.ref_left hfirst
    obtain ⟨found', hfound', hnaming'⟩ := hsame.ref_left hsecond
    obtain rfl := hunique.2 hnaming hnaming'
    exact ⟨found, hfound, hfound'⟩
  · rintro ⟨addr, hfirst, hsecond⟩
    obtain ⟨found, hfound, hnaming⟩ := hsame.ref_right hfirst
    obtain ⟨found', hfound', hnaming'⟩ := hsame.ref_right hsecond
    obtain rfl := hunique.1 hnaming hnaming'
    exact ⟨found, hfound, hfound'⟩

omit hsame in
theorem dictAt_eq_some {store : Rooted Root} {root : Root} {path : List Selector}
    {entries : Dict} (hdict : store.dictAt root path = some entries) :
    ∃ addr, store.reach root path = some (.ref addr) ∧
      store.heap[addr]? = some (.dict entries) := by
  unfold dictAt at hdict
  split at hdict
  · split at hdict
    · cases hdict
      exact ⟨_, ‹_›, ‹_›⟩
    · cases hdict
  · cases hdict

theorem Same.sameOrder : SameOrder left right := by
  intro root path entries entries' hleft hright
  obtain ⟨addr, hreach, hcell⟩ := dictAt_eq_some hleft
  obtain ⟨addr', hreach', hcell'⟩ := dictAt_eq_some hright
  obtain ⟨found, hfound, hnaming⟩ := hsame.ref_left hreach
  cases hreach'.symm.trans hfound
  obtain ⟨cell, cell', hleftCell, hrightCell, hcells⟩ := hsame.1 _ _ hnaming
  cases hcell.symm.trans hleftCell
  cases hcell'.symm.trans hrightCell
  cases hcells with
  | dict horder _ => exact horder

end Renaming

theorem Same.closed {store : Rooted Root} {naming : Addr → Addr → Prop}
    (hsame : Same naming store store) : Closed store := by
  intro root path value hvalue
  have hreach := hsame.reach root path
  rw [hvalue] at hreach
  cases hreach with
  | some hself => exact (hself.shape hsame.1).2

/-! ## Contents, sharing and order determine a store -/

/-- Addresses found by following one access path in both stores. -/
def Paired (left right : Rooted Root) (addr addr' : Addr) : Prop :=
  ∃ root path, left.reach root path = some (.ref addr) ∧
    right.reach root path = some (.ref addr')

theorem biUnique_paired {left right : Rooted Root}
    (hsharing : SameSharing left right) : Relator.BiUnique (Paired left right) := by
  constructor
  · rintro addr addr' found ⟨root, path, hleft, hright⟩ ⟨root', path', hleft', hright'⟩
    obtain ⟨shared, hfirst, hsecond⟩ :=
      (hsharing (root, path) (root', path')).mpr ⟨found, hright, hright'⟩
    cases hleft.symm.trans hfirst
    cases hleft'.symm.trans hsecond
    rfl
  · rintro addr found found' ⟨root, path, hleft, hright⟩ ⟨root', path', hleft', hright'⟩
    obtain ⟨shared, hfirst, hsecond⟩ :=
      (hsharing (root, path) (root', path')).mp ⟨addr, hleft, hleft'⟩
    cases hright.symm.trans hfirst
    cases hright'.symm.trans hsecond
    rfl

section Paired

variable {left right : Rooted Root}
  (hcontents : ∀ root, SameContents left right root) (hleft : Closed left)

include hcontents

/-- Along one access path both stores show the same. -/
theorem shape_reach (root : Root) (path : List Selector) :
    (left.reach root path).bind (·.shape left.heap) =
      (right.reach root path).bind (·.shape right.heap) := by
  have hroot := hcontents root
  unfold SameContents at hroot
  unfold reach
  cases hl : left.root root with
  | none =>
      cases hr : right.root root with
      | none => rfl
      | some value' => simp [hl, hr] at hroot
  | some value =>
      cases hr : right.root root with
      | none => simp [hl, hr] at hroot
      | some value' =>
          rw [hl, hr] at hroot
          exact congrFun (Option.some.inj hroot) path

include hleft

theorem reach_right {root : Root} {path : List Selector} {value : Value}
    (hvalue : left.reach root path = some value) :
    ∃ value', right.reach root path = some value' ∧
      value.shape left.heap = value'.shape right.heap := by
  have hshape := shape_reach hcontents root path
  obtain ⟨shown, hshown⟩ := Option.isSome_iff_exists.mp (hleft root path value hvalue)
  rw [hvalue, Option.bind_some, hshown] at hshape
  obtain ⟨value', hvalue', hshown'⟩ := Option.bind_eq_some_iff.mp hshape.symm
  exact ⟨value', hvalue', hshown.trans hshown'.symm⟩

/-- Values at the end of one access path are equal up to the pairing. -/
theorem same_of_reach {value value' : Value} {root : Root} {path : List Selector}
    (hvalue : left.reach root path = some value)
    (hvalue' : right.reach root path = some value') :
    Value.Same (Paired left right) value value' := by
  induction value using Value.induction generalizing value' path with
  | hatom first =>
      obtain ⟨found, hfound, hshape⟩ := reach_right hcontents hleft hvalue
      cases hvalue'.symm.trans hfound
      rcases Value.kind_of_shape hshape rfl with ⟨_, heq, rfl⟩ | ⟨_, _, hnot, -⟩ |
        ⟨_, _, hnot, -⟩
      · cases heq
        exact .atom _
      · cases hnot
      · cases hnot
  | htuple items ih =>
      obtain ⟨found, hfound, hshape⟩ := reach_right hcontents hleft hvalue
      cases hvalue'.symm.trans hfound
      rcases Value.kind_of_shape hshape rfl with ⟨_, hnot, -⟩ | ⟨_, items', heq, rfl, hlength⟩ |
        ⟨_, _, hnot, -⟩
      · cases hnot
      · cases heq
        apply Value.Same.tuple hlength
        intro position item item' hitem hitem'
        exact ih item (List.mem_of_getElem? hitem)
          ((reach_snoc hvalue (.index position)).trans hitem)
          ((reach_snoc hvalue' (.index position)).trans hitem')
      · cases hnot
  | href addr =>
      have hsome := hleft root path _ hvalue
      obtain ⟨found, hfound, hshape⟩ := reach_right hcontents hleft hvalue
      cases hvalue'.symm.trans hfound
      rcases Value.kind_of_shape hshape hsome with ⟨_, hnot, -⟩ | ⟨_, _, hnot, -⟩ |
        ⟨_, addr', -, rfl⟩
      · cases hnot
      · cases hnot
      · exact .ref ⟨root, path, hvalue, hvalue'⟩

theorem cell_same_of_reach (horder : SameOrder left right) {addr addr' : Addr}
    (hpaired : Paired left right addr addr') :
    ∃ cell cell', left.heap[addr]? = some cell ∧ right.heap[addr']? = some cell' ∧
      Cell.Same (Paired left right) cell cell' := by
  obtain ⟨root, path, hvalue, hvalue'⟩ := hpaired
  have hsome := hleft root path _ hvalue
  obtain ⟨found, hfound, hshape⟩ := reach_right hcontents hleft hvalue
  cases hvalue'.symm.trans hfound
  obtain ⟨cell, hcell⟩ : ∃ cell, left.heap[addr]? = some cell := by
    simpa [Value.shape, Option.isSome_iff_exists] using hsome
  obtain ⟨cell', hcell'⟩ : ∃ cell', right.heap[addr']? = some cell' := by
    rw [hshape] at hsome
    simpa [Value.shape, Option.isSome_iff_exists] using hsome
  refine ⟨cell, cell', hcell, hcell', ?_⟩
  have hselect : ∀ selector, left.reach root (path ++ [selector]) = cell.select selector := by
    intro selector
    rw [reach_snoc hvalue, Value.select, hcell, Option.bind_some]
  have hselect' : ∀ selector,
      right.reach root (path ++ [selector]) = cell'.select selector := by
    intro selector
    rw [reach_snoc hvalue', Value.select, hcell', Option.bind_some]
  have hinner : ∀ selector item item', cell.select selector = some item →
      cell'.select selector = some item' → Value.Same (Paired left right) item item' :=
    fun selector item item' hitem hitem' =>
      same_of_reach hcontents hleft ((hselect selector).trans hitem)
        ((hselect' selector).trans hitem')
  simp only [Value.shape, hcell, hcell', Option.map_some, Option.some.injEq] at hshape
  match cell, cell' with
  | .list items, .list items' =>
      simp only [Cell.shape, Shape.list.injEq] at hshape
      exact .list ⟨hshape, fun position => hinner (.index position)⟩
  | .dict entries, .dict entries' =>
      simp only [Cell.shape, Shape.dict.injEq] at hshape
      apply Cell.Same.dict
      · apply horder root path
        · simp [dictAt, hvalue, hcell]
        · simp [dictAt, hvalue', hcell']
      · intro key
        have hkey := congrFun hshape key
        cases hget : entries.get key with
        | none =>
            cases hget' : entries'.get key with
            | none => exact .none
            | some item' => simp [hget, hget'] at hkey
        | some item =>
            cases hget' : entries'.get key with
            | none => simp [hget, hget'] at hkey
            | some item' => exact .some (hinner (.key key) item item' hget hget')
  | .list items, .dict entries => simp [Cell.shape] at hshape
  | .dict entries, .list items => simp [Cell.shape] at hshape

/-- Same contents, sharing and filling order: the stores are equal up to a
renaming of addresses. -/
theorem same_paired (horder : SameOrder left right) :
    Same (Paired left right) left right := by
  constructor
  · intro addr addr' hpaired
    exact cell_same_of_reach hcontents hleft horder hpaired
  · intro root
    have hroot := hcontents root
    unfold SameContents at hroot
    cases hl : left.root root with
    | none =>
        cases hr : right.root root with
        | none => exact .none
        | some value' => simp [hl, hr] at hroot
    | some value =>
        cases hr : right.root root with
        | none => simp [hl, hr] at hroot
        | some value' =>
            have hvalue : left.reach root [] = some value := by simp [reach, hl, Value.resolve]
            have hvalue' : right.reach root [] = some value' := by
              simp [reach, hr, Value.resolve]
            exact .some (same_of_reach hcontents hleft hvalue hvalue')

end Paired

end Rooted

end JyyOS.ModelChecker
