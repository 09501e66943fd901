import Mathlib

/-!
# The names of states (`model-checker.py`, `State`)

A state is named by the absolute value of the hash of its frozen form, and
`check_bfs` takes states with one name for the same.  The hashes of strings,
`None` and tuples are CPython's and a parameter here; that of a tuple is a
function of its elements' hashes.
-/

namespace JyyOS.ModelChecker.Names

/-! ## The code -/

/-- The values of a checked program; the entries of a dict are in its own order. -/
inductive Value where
  | none
  | int (n : ℤ)
  | bool (b : Bool)
  | str (s : String)
  | list (items : List Value)
  | tuple (items : List Value)
  | dict (entries : List (String × Value))

/-- The hashable counterparts. -/
inductive Frozen where
  | none
  | int (n : ℤ)
  | bool (b : Bool)
  | str (s : String)
  | tuple (items : List Frozen)

/-- `tuple(sorted(…))` of key-value pairs: the keys of a dict differ, so that the
values are never compared. -/
def Frozen.sortedPairs (entries : List (String × Frozen)) : Frozen :=
  .tuple ((entries.insertionSort fun first second => first.1 ≤ second.1).map fun entry =>
    .tuple [.str entry.1, entry.2])

mutual

/-- `State.freeze` -/
def freeze : Value → Frozen
  | .none => .none
  | .int n => .int n
  | .bool b => .bool b
  | .str s => .str s
  | .list items => .tuple (freezeItems items)
  | .tuple items => .tuple (freezeItems items)
  | .dict entries => .sortedPairs (freezeEntries entries)

def freezeItems : List Value → List Frozen
  | [] => []
  | item :: items => freeze item :: freezeItems items

def freezeEntries : List (String × Value) → List (String × Frozen)
  | [] => []
  | entry :: entries => freezeEntry entry :: freezeEntries entries

def freezeEntry : String × Value → String × Frozen
  | (key, value) => (key, freeze value)

end

/-- `hash(n)` -/
def intHash (n : ℤ) : ℤ :=
  let residue := n.sign * (n.natAbs % (2 ^ 61 - 1) : ℕ)
  if residue = -1 then -2 else residue

/-- The hashes that CPython defines in some way of its own. -/
structure Hashes where
  none : ℤ
  str : String → ℤ
  tuple : List ℤ → ℤ

mutual

/-- `obj.__hash__()` -/
def Hashes.hash (hashes : Hashes) : Frozen → ℤ
  | .none => hashes.none
  | .int n => intHash n
  | .bool b => if b then 1 else 0
  | .str s => hashes.str s
  | .tuple items => hashes.tuple (hashes.hashItems items)

def Hashes.hashItems (hashes : Hashes) : List Frozen → List ℤ
  | [] => []
  | item :: items => hashes.hash item :: hashes.hashItems items

end

/-- The threads with their lines and locals, and the attributes: a dict. -/
structure State where
  entries : List (String × Value)
  nodup : (entries.map Prod.fst).Nodup

/-- `State.name` -/
def State.name (hashes : Hashes) (state : State) : String :=
  "s" ++ Nat.repr (hashes.hash (freeze (.dict state.entries))).natAbs

/-! ## Values of one hash -/

/-- Ints and bools as numbers. -/
def Value.number : Value → Option ℤ
  | .int n => some n
  | .bool b => some (if b then 1 else 0)
  | _ => Option.none

/-- The entries of a dict by their keys. -/
def sortEntries (entries : List (String × Value)) : List (String × Value) :=
  entries.insertionSort fun first second => first.1 ≤ second.1

/-- Lists and tuples by their elements, and dicts by their sorted entries. -/
def Value.elements : Value → Option (List Value)
  | .list items | .tuple items => some items
  | .dict entries =>
      some ((sortEntries entries).map fun entry => .tuple [.str entry.1, entry.2])
  | _ => Option.none

/-- The same value, but for numbers that CPython hashes alike, and for lists, tuples and
dicts of the same elements. -/
inductive Value.Alike : Value → Value → Prop
  | none : Alike .none .none
  | str (s : String) : Alike (.str s) (.str s)
  | number {v w : Value} {m n : ℤ} (hv : v.number = some m) (hw : w.number = some n)
      (hhash : intHash m = intHash n) : Alike v w
  | elements {v w : Value} {xs ys : List Value} (hv : v.elements = some xs)
      (hw : w.elements = some ys) (halike : List.Forall₂ Alike xs ys) : Alike v w

/-- The states have the same variables, and each has values that are alike. -/
structure State.Alike (left right : State) : Prop where
  names : ∀ name, name ∈ left.entries.map Prod.fst ↔ name ∈ right.entries.map Prod.fst
  values : ∀ name v w, (name, v) ∈ left.entries → (name, w) ∈ right.entries → v.Alike w

/-! ## Accidents -/

inductive Shape where
  | none | num | str (s : String) | tuple
deriving DecidableEq

def Frozen.shape : Frozen → Shape
  | .none => .none
  | .int _ | .bool _ => .num
  | .str s => .str s
  | .tuple _ => .tuple

def Frozen.items : Frozen → List Frozen
  | .tuple items => items
  | .none | .int _ | .bool _ | .str _ => []

/-- The hashes of the elements. -/
def Hashes.lanes (hashes : Hashes) (v : Frozen) : List ℤ := v.items.map hashes.hash

/-- The two values do not have the same hash by accident, nor do the values at the same
place in them: as values of different types, as different strings, or as tuples whose
elements have different hashes. -/
inductive Hashes.Clear (hashes : Hashes) : Frozen → Frozen → Prop
  | intro {v w : Frozen}
      (here : hashes.hash v = hashes.hash w → v.shape = w.shape ∧
        hashes.lanes v = hashes.lanes w)
      (inside : ∀ pair ∈ v.items.zip w.items, Clear hashes pair.1 pair.2) :
      Clear hashes v w

/-- The hash of a variable with its value. -/
def Hashes.entry (hashes : Hashes) (entry : String × Value) : ℤ :=
  hashes.tuple [hashes.str entry.1, hashes.hash (freeze entry.2)]

/-- What is assumed for two states: no accident between their variables, between the
values of one variable, and between the states, nor one of the absolute value. -/
structure NoAccident (hashes : Hashes) (left right : State) : Prop where
  state : (hashes.hash (freeze (.dict left.entries))).natAbs =
      (hashes.hash (freeze (.dict right.entries))).natAbs →
    (sortEntries left.entries).map hashes.entry = (sortEntries right.entries).map hashes.entry
  entry : ∀ first ∈ left.entries, ∀ second ∈ right.entries,
    hashes.entry first = hashes.entry second →
      first.1 = second.1 ∧ hashes.hash (freeze first.2) = hashes.hash (freeze second.2)
  value : ∀ name v w, (name, v) ∈ left.entries → (name, w) ∈ right.entries →
    hashes.Clear (freeze v) (freeze w)

section Hashing

variable {hashes : Hashes}

theorem hashItems_eq_map (items : List Frozen) :
    hashes.hashItems items = items.map hashes.hash := by
  induction items with
  | nil => rfl
  | cons item items ih => rw [Hashes.hashItems, ih, List.map_cons]

theorem hash_tuple (items : List Frozen) :
    hashes.hash (.tuple items) = hashes.tuple (items.map hashes.hash) := by
  rw [Hashes.hash, hashItems_eq_map]

theorem freezeItems_eq_map (items : List Value) : freezeItems items = items.map freeze := by
  induction items with
  | nil => rfl
  | cons item items ih => rw [freezeItems, ih, List.map_cons]

theorem freezeEntries_eq_map (entries : List (String × Value)) :
    freezeEntries entries = entries.map fun entry => (entry.1, freeze entry.2) := by
  induction entries with
  | nil => rfl
  | cons entry entries ih => rw [freezeEntries, ih, List.map_cons, freezeEntry]

/-- Freezing sorts the entries and freezes each value. -/
theorem freeze_dict (entries : List (String × Value)) : freeze (.dict entries) =
    .tuple ((sortEntries entries).map fun entry => .tuple [.str entry.1, freeze entry.2]) := by
  have hsort : (sortEntries entries).map (fun entry => (entry.1, freeze entry.2)) =
      (entries.map fun entry => (entry.1, freeze entry.2)).insertionSort
        fun first second => first.1 ≤ second.1 :=
    List.map_insertionSort _ _ _ _ fun _ _ _ _ => Iff.rfl
  rw [freeze, Frozen.sortedPairs, freezeEntries_eq_map, ← hsort, List.map_map]
  rfl

/-- The elements are frozen one by one. -/
theorem freeze_elements {v : Value} {xs : List Value} (helements : v.elements = some xs) :
    freeze v = .tuple (xs.map freeze) := by
  cases v with
  | list items | tuple items =>
      cases helements
      rw [freeze, freezeItems_eq_map]
  | dict entries =>
      cases helements
      rw [freeze_dict, List.map_map]
      rfl
  | none | int | bool | str => cases helements

theorem hash_number {v : Value} {n : ℤ} (hnumber : v.number = some n) :
    hashes.hash (freeze v) = intHash n := by
  cases v with
  | int m =>
      cases hnumber
      rfl
  | bool b =>
      cases hnumber
      cases b <;> rfl
  | none | str | list | tuple | dict => cases hnumber

theorem number_of_shape {v : Value} (hshape : (freeze v).shape = .num) :
    ∃ n, v.number = some n := by
  cases v with
  | int n => exact ⟨n, rfl⟩
  | bool b => exact ⟨_, rfl⟩
  | none | str | list | tuple | dict => cases hshape

theorem elements_of_shape {v : Value} (hshape : (freeze v).shape = .tuple) :
    ∃ xs, v.elements = some xs := by
  cases v with
  | list items | tuple items => exact ⟨items, rfl⟩
  | dict entries => exact ⟨_, rfl⟩
  | none | int | bool | str => cases hshape

/-- Induction over the elements of tuples. -/
theorem Frozen.tuple_induction {P : Frozen → Prop} (atom : ∀ v, v.shape ≠ .tuple → P v)
    (tuple : ∀ items, (∀ item ∈ items, P item) → P (.tuple items)) (v : Frozen) : P v := by
  induction hsize : sizeOf v using Nat.strong_induction_on generalizing v with
  | _ size ih =>
      cases v with
      | tuple items =>
          refine tuple items fun item hitem => ih (sizeOf item) ?_ item rfl
          have hlt := List.sizeOf_lt_of_mem hitem
          rw [← hsize, Frozen.tuple.sizeOf_spec]
          omega
      | none => exact atom _ (by simp [Frozen.shape])
      | int n => exact atom _ (by simp [Frozen.shape])
      | bool b => exact atom _ (by simp [Frozen.shape])
      | str s => exact atom _ (by simp [Frozen.shape])

/-- A hash does not tell values apart that are alike. -/
theorem Value.Alike.hash_eq {v w : Value} (halike : v.Alike w) :
    hashes.hash (freeze v) = hashes.hash (freeze w) := by
  generalize hfrozen : freeze v = frozen
  induction frozen using Frozen.tuple_induction generalizing v w with
  | atom frozen hatom =>
      cases halike with
      | none | str => rw [← hfrozen]
      | number hv hw hhash => rw [← hfrozen, hash_number hv, hash_number hw, hhash]
      | elements hv =>
          rw [← hfrozen, freeze_elements hv] at hatom
          exact absurd rfl hatom
  | tuple items ih =>
      cases halike with
      | none | str => rw [← hfrozen]
      | number hv hw hhash => rw [← hfrozen, hash_number hv, hash_number hw, hhash]
      | elements hv hw hitems =>
          rw [freeze_elements hv] at hfrozen
          cases hfrozen
          rw [freeze_elements hw, hash_tuple, hash_tuple]
          congr 1
          clear hv hw
          induction hitems with
          | nil => rfl
          | cons hhead _ ihItems =>
              simp only [List.map_cons, List.mem_cons, forall_eq_or_imp] at ih ⊢
              rw [ih.1 hhead rfl, ihItems ih.2]

/-- Lists of values whose hashes agree are alike if the values are. -/
theorem forall₂_of_map_eq {α β γ : Type} {f : α → γ} {g : β → γ} {R : α → β → Prop}
    {left : List α} {right : List β} (hvalues : ∀ pair ∈ left.zip right,
      f pair.1 = g pair.2 → R pair.1 pair.2) (heq : left.map f = right.map g) :
    List.Forall₂ R left right := by
  induction left generalizing right with
  | nil =>
      cases right with
      | nil => exact .nil
      | cons w right => cases heq
  | cons v left ih =>
      cases right with
      | nil => cases heq
      | cons w right =>
          obtain ⟨hhead, htail⟩ := List.cons.inj heq
          rw [List.zip_cons_cons, List.forall_mem_cons] at hvalues
          exact .cons (hvalues.1 hhead) (ih hvalues.2 htail)

theorem exists_of_forall₂ {α β : Type} {R : α → β → Prop} {left : List α} {right : List β}
    (hall : List.Forall₂ R left right) {v : α} (hv : v ∈ left) : ∃ w ∈ right, R v w := by
  induction hall with
  | nil => cases hv
  | cons hhead _ ih =>
      obtain rfl | hv := List.mem_cons.mp hv
      · exact ⟨_, List.mem_cons_self, hhead⟩
      · obtain ⟨w, hw, hrel⟩ := ih hv
        exact ⟨w, List.mem_cons_of_mem _ hw, hrel⟩

/-- A value has its own hash by no accident. -/
theorem Hashes.Clear.refl (v : Frozen) : hashes.Clear v v := by
  induction v using Frozen.tuple_induction with
  | atom v hatom =>
      refine .intro (fun _ => ⟨rfl, rfl⟩) fun pair hpair => ?_
      cases v with
      | tuple items => exact absurd rfl hatom
      | none | int | bool | str => cases hpair
  | tuple items ih =>
      refine .intro (fun _ => ⟨rfl, rfl⟩) fun ⟨item, other⟩ hpair => ?_
      exact List.forall₂_zip (List.forall₂_same.mpr ih) hpair

theorem Hashes.Clear.int (m n : ℤ) : hashes.Clear (.int m) (.int n) :=
  .intro (fun _ => ⟨rfl, rfl⟩) nofun

/-- Without accidents it tells all others apart. -/
theorem alike_of_hash_eq {v w : Value} (hclear : hashes.Clear (freeze v) (freeze w))
    (heq : hashes.hash (freeze v) = hashes.hash (freeze w)) : v.Alike w := by
  generalize hfrozen : freeze v = frozen at hclear heq
  induction frozen using Frozen.tuple_induction generalizing v w with
  | atom frozen hatom =>
      obtain ⟨here, -⟩ := hclear
      obtain ⟨hshape, -⟩ := here heq
      subst hfrozen
      cases v with
      | none =>
          cases w with
          | none => exact .none
          | int | bool | str | list | tuple | dict => cases hshape
      | str s =>
          cases w with
          | str t =>
              cases hshape
              exact .str s
          | none | int | bool | list | tuple | dict => cases hshape
      | int m =>
          obtain ⟨n, hn⟩ := number_of_shape hshape.symm
          exact .number rfl hn (heq.trans (hash_number hn))
      | bool b =>
          obtain ⟨n, hn⟩ := number_of_shape hshape.symm
          exact .number rfl hn ((hash_number rfl).symm.trans (heq.trans (hash_number hn)))
      | list | tuple | dict => exact absurd rfl hatom
  | tuple items ih =>
      obtain ⟨here, inside⟩ := hclear
      obtain ⟨hshape, hlanes⟩ := here heq
      obtain ⟨xs, hxs⟩ := elements_of_shape (v := v) (by rw [hfrozen]; rfl)
      obtain ⟨ys, hys⟩ := elements_of_shape hshape.symm
      rw [freeze_elements hxs] at hfrozen
      cases hfrozen
      rw [freeze_elements hys] at inside hlanes
      refine .elements hxs hys (forall₂_of_map_eq (f := hashes.hash ∘ freeze)
        (g := hashes.hash ∘ freeze) ?_ ?_)
      · intro pair hpair hhash
        refine ih (freeze pair.1) (List.mem_map_of_mem (List.of_mem_zip hpair).1) rfl ?_ hhash
        refine inside (freeze pair.1, freeze pair.2) ?_
        simp only [Frozen.items, List.zip_map, List.mem_map]
        exact ⟨pair, hpair, rfl⟩
      · simpa [Hashes.lanes, Frozen.items] using hlanes

end Hashing

/-! ## Names -/

section Names

variable {hashes : Hashes} {left right : State}

theorem mem_sortEntries {entries : List (String × Value)} {entry : String × Value} :
    entry ∈ sortEntries entries ↔ entry ∈ entries :=
  List.mem_insertionSort _

theorem State.value_unique (state : State) {name : String} {v w : Value}
    (hv : (name, v) ∈ state.entries) (hw : (name, w) ∈ state.entries) : v = w := by
  have hinjective := List.inj_on_of_nodup_map state.nodup
  exact congrArg Prod.snd (hinjective hv hw rfl)

theorem sortEntries_names (entries : List (String × Value)) :
    (sortEntries entries).map Prod.fst = (entries.map Prod.fst).insertionSort (· ≤ ·) :=
  List.map_insertionSort _ _ _ _ fun _ _ _ _ => Iff.rfl

/-- States with the same variables have them in the same order. -/
theorem sorted_names_eq
    (hnames : ∀ name, name ∈ left.entries.map Prod.fst ↔ name ∈ right.entries.map Prod.fst) :
    (sortEntries left.entries).map Prod.fst = (sortEntries right.entries).map Prod.fst := by
  rw [sortEntries_names, sortEntries_names]
  apply List.Perm.eq_of_sortedLE List.sortedLE_insertionSort List.sortedLE_insertionSort
  have hperm := (List.perm_ext_iff_of_nodup left.nodup right.nodup).mpr hnames
  exact ((List.perm_insertionSort _ _).trans hperm).trans (List.perm_insertionSort _ _).symm

/-- States are alike exactly when their sorted entries are, one by one. -/
theorem State.alike_iff : left.Alike right ↔
    List.Forall₂ (fun first second => first.1 = second.1 ∧ first.2.Alike second.2)
      (sortEntries left.entries) (sortEntries right.entries) := by
  constructor
  · rintro ⟨hnames, hvalues⟩
    apply forall₂_of_map_eq ?_ (sorted_names_eq hnames)
    intro ⟨first, second⟩ hpair hname
    obtain ⟨hv, hw⟩ := List.of_mem_zip hpair
    exact ⟨hname, hvalues first.1 first.2 second.2 (mem_sortEntries.mp hv)
      (by rw [show first.1 = second.1 from hname]; exact mem_sortEntries.mp hw)⟩
  · intro hentries
    have hfst : (sortEntries left.entries).map Prod.fst =
        (sortEntries right.entries).map Prod.fst := by
      rw [← List.forall₂_eq_eq_eq, List.forall₂_map_left_iff, List.forall₂_map_right_iff]
      exact hentries.imp fun _ _ hentry => hentry.1
    have hmem : ∀ (state : State) name, name ∈ state.entries.map Prod.fst ↔
        name ∈ (sortEntries state.entries).map Prod.fst := by
      intro state name
      simp only [List.mem_map, mem_sortEntries]
    refine ⟨fun name => by rw [hmem, hmem, hfst], fun name v w hv hw => ?_⟩
    obtain ⟨⟨_, w'⟩, hw', rfl, halike⟩ := exists_of_forall₂ hentries (mem_sortEntries.mpr hv)
    exact right.value_unique (mem_sortEntries.mp hw') hw ▸ halike

theorem hash_state (state : State) : hashes.hash (freeze (.dict state.entries)) =
    hashes.tuple ((sortEntries state.entries).map hashes.entry) := by
  rw [freeze_dict, hash_tuple, List.map_map]
  congr 1

theorem name_eq_iff (hashes : Hashes) (left right : State) :
    State.name hashes left = State.name hashes right ↔
      (hashes.hash (freeze (.dict left.entries))).natAbs =
        (hashes.hash (freeze (.dict right.entries))).natAbs := by
  rw [State.name, State.name, String.append_right_inj, Nat.repr_inj]

/-- States that are alike have one hash. -/
theorem State.Alike.name_eq (halike : left.Alike right) :
    State.name hashes left = State.name hashes right := by
  have hentries : (sortEntries left.entries).map hashes.entry =
      (sortEntries right.entries).map hashes.entry := by
    rw [← List.forall₂_eq_eq_eq, List.forall₂_map_left_iff, List.forall₂_map_right_iff]
    refine (State.alike_iff.mp halike).imp ?_
    rintro first second ⟨hname, hvalue⟩
    rw [Hashes.entry, Hashes.entry, hname, hvalue.hash_eq]
  rw [name_eq_iff, hash_state, hash_state, hentries]

/-- Two states get different names exactly when they are not alike. -/
theorem names_differ_iff (hashes : Hashes) (left right : State)
    (hclear : NoAccident hashes left right) :
    State.name hashes left ≠ State.name hashes right ↔ ¬ left.Alike right := by
  refine not_congr ⟨fun hname => ?_, State.Alike.name_eq⟩
  have hentries := hclear.state ((name_eq_iff hashes left right).mp hname)
  refine State.alike_iff.mpr (forall₂_of_map_eq ?_ hentries)
  intro ⟨⟨name, v⟩, ⟨name', w⟩⟩ hpair hhash
  obtain ⟨hv, hw⟩ := List.of_mem_zip hpair
  rw [mem_sortEntries] at hv hw
  obtain ⟨rfl, hvalue⟩ := hclear.entry _ hv _ hw hhash
  exact ⟨rfl, alike_of_hash_eq (hclear.value name v w hv hw) hvalue⟩

end Names

/-! ## CPython's tuple hash -/

/-- The next value of the accumulator in `tuplehash`. -/
def xxLane (acc lane : ℕ) : ℕ :=
  let sum := (acc + lane * 14029467366897019727) % 2 ^ 64
  let rotated := (sum * 2 ^ 31) % 2 ^ 64 + sum / 2 ^ 33
  (rotated * 11400714785074694791) % 2 ^ 64

/-- `tuplehash` -/
def tupleHash (lanes : List ℤ) : ℤ :=
  let acc : ℕ := lanes.foldl (fun acc lane => xxLane acc (lane % 2 ^ 64).toNat) 2870177450012600261
  let acc : ℕ := (acc + (lanes.length ^^^ (2870177450012600261 ^^^ 3527539))) % 2 ^ 64
  if acc = 2 ^ 64 - 1 then 1546275796
  else if acc < 2 ^ 63 then (acc : ℤ) else (acc : ℤ) - 2 ^ 64

/-- A process that drew these hashes for `None` and the strings; the empty string always
has the hash of 0 and `False`. -/
def sampleHashes : Hashes where
  none := 8758562458191
  str s :=
    if s = "x" then -3368204716105132637
    else if s = "t1" then -4083693479756652729
    else if s = "waits" then 2104226965785274526 else 0
  tuple := tupleHash

/-- A thread without locals at line 8, and two attributes. -/
def sampleState (x : ℤ) : State where
  entries := [("x", .int x), ("waits", .str ""), ("t1", .tuple [.int 8, .dict []])]
  nodup := by simp

example : State.name sampleHashes (sampleState 1) = "s917272332087818267" := by decide

/-- The states differ in `x` only. -/
theorem sample_clear {m n : ℤ} (name : String) (v w : Value)
    (hv : (name, v) ∈ (sampleState m).entries) (hw : (name, w) ∈ (sampleState n).entries) :
    sampleHashes.Clear (freeze v) (freeze w) := by
  simp only [sampleState, List.mem_cons, Prod.mk.injEq, List.not_mem_nil, or_false] at hv hw
  obtain ⟨rfl, rfl⟩ | ⟨rfl, rfl⟩ | ⟨rfl, rfl⟩ := hv
  · obtain ⟨-, rfl⟩ | ⟨hname, -⟩ | ⟨hname, -⟩ := hw
    · exact .int m n
    · simp at hname
    · simp at hname
  · obtain ⟨hname, -⟩ | ⟨-, rfl⟩ | ⟨hname, -⟩ := hw
    · simp at hname
    · exact .refl _
    · simp at hname
  · obtain ⟨hname, -⟩ | ⟨hname, -⟩ | ⟨-, rfl⟩ := hw
    · simp at hname
    · simp at hname
    · exact .refl _

theorem sample_names_differ :
    NoAccident sampleHashes (sampleState 0) (sampleState 1) ∧
      State.name sampleHashes (sampleState 0) ≠ State.name sampleHashes (sampleState 1) := by
  have hclear : NoAccident sampleHashes (sampleState 0) (sampleState 1) :=
    ⟨by decide, by decide, sample_clear⟩
  refine ⟨hclear, (names_differ_iff _ _ _ hclear).mpr fun halike => ?_⟩
  have hvalues := halike.values "x" (.int 0) (.int 1) (by simp [sampleState])
    (by simp [sampleState])
  cases hvalues with
  | number hv hw hhash =>
      cases hv
      cases hw
      exact absurd hhash (by decide)
  | elements hv => cases hv

/-- An attribute that is -1 in one state and -2 in the other. -/
theorem names_collide :
    NoAccident sampleHashes (sampleState (-1)) (sampleState (-2)) ∧
      sampleState (-1) ≠ sampleState (-2) ∧
      State.name sampleHashes (sampleState (-1)) = State.name sampleHashes (sampleState (-2)) :=
  ⟨⟨by decide, by decide, sample_clear⟩, by simp [sampleState], by decide⟩

end JyyOS.ModelChecker.Names
