import JyyOS.ModelChecker.Execute
import JyyOS.ModelChecker.Renaming

/-!
# Does the recorded state determine the future?

`check_bfs` drops a state that it has seen before, on the ground that what
follows depends on the recorded state alone.  A record holds line numbers,
local variables and attributes.  It does not hold how far the pending `for`
loops have come, which lists and dictionaries are one object, and the order in
which a dictionary was filled.  Records that agree together with these hidden
parts do have the same future; records alone do not.
-/

namespace JyyOS.ModelChecker

open JyyOS.ModelChecker.Language

/-- A thread generator. -/
structure Gen where
  stack : python.Stack
  locals : String → Option Value

/-- The values of the dictionary `S`: what `checkpoint` returned, or the value
of an attribute. -/
inductive Entry where
  | point (line : ℕ) (locals : String → Option Value)
  | attr (value : Value)

/-- An entry with its references followed. -/
inductive Recorded where
  | point (line : ℕ) (locals : String → Option (List Selector → Option Shape))
  | attr (contents : List Selector → Option Shape)

def Entry.read (heap : Heap) : Entry → Recorded
  | .point line locals => .point line fun name => (locals name).map (·.observe heap)
  | .attr value => .attr (value.observe heap)

/-- The test in `attrs`: not a name like `__init__`, and a value of one of the
listed types, of which `None` is not one. -/
def recordable (name : String) : Value → Bool
  | .atom .none => false
  | _ => !name.startsWith "__"

/-- A class in the checked language. -/
structure PyClass where
  /-- The `@thread` functions in the order of their decorators. -/
  functions : List python.ThreadFunction
  /-- The attribute names that the class mentions, listed by `dir`. -/
  names : List String
  /-- A new object with its attributes copied. -/
  obj : Obj
  nodup : (functions.map (·.name)).Nodup
  apart : ∀ function ∈ functions, function.name ∉ names
  /-- Its references lead to allocated objects. -/
  closed : ∃ naming, Relator.BiUnique naming ∧ Obj.Same naming obj obj

namespace PyClass

variable (cls : PyClass)

abbrev Thread := Fin (cls.functions.map (·.name)).length

def function (thread : cls.Thread) : python.ThreadFunction :=
  cls.functions.get (thread.cast (List.length_map _))

def attr? (obj : Obj) (name : String) : Option Entry := do
  let value ← obj.attrs name
  if recordable name value then some (.attr value) else none

/-- The class as `execute` runs it, with a bound on the moves between two
checkpoints. -/
abbrev checked (fuel : ℕ) : CheckedClass where
  Obj := Obj
  Gen := Gen
  Entry := Entry
  Value := Recorded
  threads := cls.functions.map (·.name)
  new := cls.obj
  call thread := ⟨(cls.function thread).call, fun _ => none⟩
  next gen obj :=
    match resume fuel gen.stack ⟨obj, gen.locals⟩ with
    | some (_, .yielded line stack store) =>
        some (.yielded (.point line store.locals) ⟨stack, store.locals⟩ store.obj)
    | some (_, .stopped store) => some (.stopped store.obj)
    | _ => none
  attrs obj := cls.names.filterMap fun name => (attr? obj name).map (name, ·)
  read obj := Entry.read obj.heap

variable {cls}

theorem threadName_eq (fuel : ℕ) (thread : cls.Thread) :
    (cls.checked fuel).threadName thread = (cls.function thread).name := by
  simp [CheckedClass.threadName, checked, function]

theorem function_mem (thread : cls.Thread) : cls.function thread ∈ cls.functions :=
  List.get_mem _ _

theorem threadName_injective (fuel : ℕ) :
    Function.Injective (cls.checked fuel).threadName := by
  intro thread thread' hname
  exact cls.nodup.get_inj_iff.mp hname

/-! ## Records -/

theorem foldl_attrs (names : List String) (entry : String → Option Entry)
    (S : String → Option Entry) (name : String) :
    (names.filterMap fun name => (entry name).map (name, ·)).foldl
        (fun S (x : String × Entry) => Function.update S x.1 (some x.2)) S name =
      if name ∈ names then (entry name).or (S name) else S name := by
  induction names generalizing S with
  | nil => simp
  | cons first names ih =>
      cases hfirst : entry first with
      | none =>
          rw [List.filterMap_cons, hfirst]
          by_cases hname : name = first
          · subst hname
            simp [ih, hfirst]
          · simp [ih, hname]
      | some value =>
          rw [List.filterMap_cons, hfirst]
          by_cases hname : name = first
          · subst hname
            simp [ih, hfirst]
          · simp [ih, hname]

theorem record_eq (fuel : ℕ) (machine : (cls.checked fuel).Machine) (name : String) :
    (cls.checked fuel).record machine name =
      ((if name ∈ cls.names then (attr? machine.obj name).or (machine.S name)
        else machine.S name)).map (Entry.read machine.obj.heap) :=
  congrArg (Option.map (Entry.read machine.obj.heap)) (foldl_attrs cls.names _ _ name)

/-! ## What a machine holds for each thread -/

section Machines

variable {fuel : ℕ}

abbrev Machine (cls : PyClass) (fuel : ℕ) := (cls.checked fuel).Machine

/-- A live thread waits at the line that `S` has for it, with the local
variables that `S` has for it. -/
def Live (machine : Machine cls fuel) (thread : cls.Thread) (gen : Gen)
    (line : ℕ) : Prop :=
  machine.T thread = some gen ∧
    machine.S ((cls.checked fuel).threadName thread) = some (.point line gen.locals) ∧
      Position [] (cls.function thread).hacked line gen.stack ∧
        Placed (cls.function thread).hacked gen.stack

def Tracked (machine : Machine cls fuel) (thread : cls.Thread) : Prop :=
  (machine.T thread = none ∧
    machine.S ((cls.checked fuel).threadName thread) = none) ∨
      ∃ gen line, Live machine thread gen line

/-- `S` has nothing under other names until the attributes are added. -/
def OnlyThreads (machine : Machine cls fuel) : Prop :=
  ∀ name, (∀ thread, name ≠ (cls.checked fuel).threadName thread) →
    machine.S name = none

theorem next_yielded {gen after : Gen} {obj obj' : Obj} {entry : Entry}
    (hnext : (cls.checked fuel).next gen obj = some (.yielded entry after obj')) :
    ∃ work line store, resume fuel gen.stack ⟨obj, gen.locals⟩ =
        some (work, .yielded line after.stack store) ∧
      entry = .point line after.locals ∧ store.locals = after.locals ∧
        store.obj = obj' := by
  simp only [checked] at hnext
  split at hnext
  case h_1 work line stack store hresume =>
    cases hnext
    exact ⟨work, line, store, hresume, rfl, rfl, rfl⟩
  all_goals cases hnext

/-- The machine after a thread's generator has come back. -/
def settle (machine : Machine cls fuel) (thread : cls.Thread) (obj : Obj)
    (gen : Option Gen) (entry : Option Entry) : Machine cls fuel where
  obj := obj
  T := Function.update machine.T thread gen
  S := Function.update machine.S ((cls.checked fuel).threadName thread) entry

section Settle

variable (machine : Machine cls fuel) (thread : cls.Thread) (obj : Obj)
  (gen : Option Gen) (entry : Option Entry)

theorem settle_T_self : (settle machine thread obj gen entry).T thread = gen :=
  Function.update_self ..

theorem settle_S_self :
    (settle machine thread obj gen entry).S ((cls.checked fuel).threadName thread) =
      entry :=
  Function.update_self ..

variable {thread}

theorem settle_T_of_ne {other : cls.Thread} (hother : other ≠ thread) :
    (settle machine thread obj gen entry).T other = machine.T other :=
  Function.update_of_ne hother ..

theorem settle_S_of_ne {name : String}
    (hname : name ≠ (cls.checked fuel).threadName thread) :
    (settle machine thread obj gen entry).S name = machine.S name :=
  Function.update_of_ne hname ..

end Settle

theorem tracked_settle_yielded {machine : Machine cls fuel} {thread : cls.Thread}
    {gen after : Gen} {obj' : Obj} {entry : Entry}
    (hplaced : Placed (cls.function thread).hacked gen.stack)
    (hnext : (cls.checked fuel).next gen machine.obj =
      some (.yielded entry after obj')) :
    Tracked (settle machine thread obj' (some after) (some entry)) thread := by
  obtain ⟨work, line, store, hresume, rfl, -, -⟩ := next_yielded hnext
  obtain ⟨hposition, hplaced'⟩ := hplaced.resume hresume
  exact .inr ⟨after, line, settle_T_self .., settle_S_self .., hposition, hplaced'⟩

/-- Other threads are tracked as before. -/
theorem Tracked.settle {machine : Machine cls fuel} {other thread : cls.Thread}
    (htracked : Tracked machine other) (hother : other ≠ thread)
    (obj : Obj) (gen : Option Gen) (entry : Option Entry) :
    Tracked (settle machine thread obj gen entry) other := by
  have hname : (cls.checked fuel).threadName other ≠
      (cls.checked fuel).threadName thread :=
    fun hname => hother (threadName_injective fuel hname)
  unfold Tracked Live
  rw [settle_T_of_ne _ _ _ _ hother, settle_S_of_ne _ _ _ _ hname]
  exact htracked

theorem OnlyThreads.settle {machine : Machine cls fuel} (honly : OnlyThreads machine)
    (thread : cls.Thread) (obj : Obj) (gen : Option Gen) (entry : Option Entry) :
    OnlyThreads (settle machine thread obj gen entry) := by
  intro name hname
  rw [settle_S_of_ne _ _ _ _ (hname thread)]
  exact honly name hname

/-- Starting a thread. -/
theorem begin_cases {machine after : Machine cls fuel} {thread : cls.Thread}
    (hbegin : machine.begin thread = some after) :
    ∃ entry gen obj, (cls.checked fuel).next ⟨(cls.function thread).call, fun _ => none⟩
        machine.obj = some (.yielded entry gen obj) ∧
      after = settle machine thread obj (some gen) (some entry) := by
  obtain ⟨next, hnext, hafter⟩ := Option.bind_eq_some_iff.mp hbegin
  cases next with
  | stopped obj => cases hafter
  | yielded entry gen obj =>
      cases hafter
      exact ⟨entry, gen, obj, hnext, rfl⟩

/-- A round of the scheduling loop. -/
theorem resume_cases {machine after : Machine cls fuel} {chosen : cls.Thread}
    (hresume : machine.resume chosen = some after) :
    (machine.T chosen = none ∧ after = machine) ∨
      ∃ gen, machine.T chosen = some gen ∧
        ((∃ entry gen' obj, (cls.checked fuel).next gen machine.obj =
              some (.yielded entry gen' obj) ∧
            after = settle machine chosen obj (some gen') (some entry)) ∨
          ∃ obj, (cls.checked fuel).next gen machine.obj = some (.stopped obj) ∧
            after = settle machine chosen obj none none) := by
  unfold CheckedClass.Machine.resume at hresume
  split at hresume
  case h_1 hgen =>
    cases hresume
    exact .inl ⟨hgen, rfl⟩
  case h_2 gen hgen =>
    obtain ⟨next, hnext, hafter⟩ := Option.bind_eq_some_iff.mp hresume
    cases next with
    | yielded entry gen' obj =>
        cases hafter
        exact .inr ⟨gen, hgen, .inl ⟨entry, gen', obj, hnext, rfl⟩⟩
    | stopped obj =>
        cases hafter
        exact .inr ⟨gen, hgen, .inr ⟨obj, hnext, rfl⟩⟩

theorem begin_tracked {machine after : Machine cls fuel} {thread : cls.Thread}
    (hbegin : machine.begin thread = some after) :
    Tracked after thread ∧
      (∀ other, Tracked machine other → Tracked after other) ∧
        (OnlyThreads machine → OnlyThreads after) := by
  obtain ⟨entry, gen, obj, hnext, rfl⟩ := begin_cases hbegin
  have hself := tracked_settle_yielded (placed_call _) hnext
  refine ⟨hself, fun other htracked => ?_, fun honly => honly.settle thread obj _ _⟩
  by_cases hother : other = thread
  · exact hother ▸ hself
  · exact htracked.settle hother obj _ _

theorem resume_tracked {machine after : Machine cls fuel} {chosen : cls.Thread}
    (hresume : machine.resume chosen = some after)
    (htracked : ∀ thread, Tracked machine thread) (honly : OnlyThreads machine) :
    (∀ thread, Tracked after thread) ∧ OnlyThreads after := by
  rcases resume_cases hresume with ⟨-, rfl⟩ | ⟨gen, hgen, ⟨entry, gen', obj, hnext, rfl⟩ |
    ⟨obj, -, rfl⟩⟩
  · exact ⟨htracked, honly⟩
  · refine ⟨fun thread => ?_, honly.settle chosen obj _ _⟩
    by_cases hthread : thread = chosen
    · subst hthread
      rcases htracked thread with ⟨hnone, -⟩ | ⟨before, line, hbefore, -, -, hplaced⟩
      · cases hnone.symm.trans hgen
      · cases hbefore.symm.trans hgen
        exact tracked_settle_yielded hplaced hnext
    · exact (htracked thread).settle hthread obj _ _
  · refine ⟨fun thread => ?_, honly.settle chosen obj _ _⟩
    by_cases hthread : thread = chosen
    · subst hthread
      exact .inl ⟨settle_T_self .., settle_S_self ..⟩
    · exact (htracked thread).settle hthread obj _ _

theorem foldlM_begin_tracked {threads : List cls.Thread}
    {machine after : Machine cls fuel} (honly : OnlyThreads machine)
    (hfold : threads.foldlM CheckedClass.Machine.begin machine = some after) :
    (∀ thread, Tracked machine thread ∨ thread ∈ threads → Tracked after thread) ∧
      OnlyThreads after := by
  induction threads generalizing machine with
  | nil =>
      cases hfold
      exact ⟨fun thread hthread => by simpa using hthread, honly⟩
  | cons first threads ih =>
      rw [List.foldlM_cons] at hfold
      obtain ⟨middle, hbegin, hrest⟩ := Option.bind_eq_some_iff.mp hfold
      obtain ⟨hself, hothers, honly'⟩ := begin_tracked hbegin
      obtain ⟨htracked, honlyAfter⟩ := ih (honly' honly) hrest
      refine ⟨fun thread hthread => htracked thread ?_, honlyAfter⟩
      rcases hthread with hbefore | hmem
      · exact .inl (hothers thread hbefore)
      · rcases List.mem_cons.mp hmem with rfl | hmem
        · exact .inl hself
        · exact .inr hmem

/-- Along every trace `S` follows the generators. -/
theorem replay_tracked {trace : List cls.Thread} {machine : Machine cls fuel}
    (hreplay : (cls.checked fuel).replay trace = some machine) :
    (∀ thread, Tracked machine thread) ∧ OnlyThreads machine := by
  induction trace using List.reverseRecOn generalizing machine with
  | nil =>
      obtain ⟨started, hstarted, heq⟩ := Option.bind_eq_some_iff.mp hreplay
      cases heq
      obtain ⟨htracked, honly⟩ := foldlM_begin_tracked (fun _ _ => rfl) hstarted
      exact ⟨fun thread => htracked thread (.inr (List.mem_finRange thread)), honly⟩
  | append_singleton trace chosen ih =>
      rw [CheckedClass.replay_snoc] at hreplay
      obtain ⟨before, hbefore, hresume⟩ := Option.bind_eq_some_iff.mp hreplay
      obtain ⟨htracked, honly⟩ := ih hbefore
      exact resume_tracked hresume htracked honly

/-! ## Machines in step -/

def SameGen (naming : Addr → Addr → Prop) (left right : Gen) : Prop :=
  SameStack naming left.stack right.stack ∧ SameEnv naming left.locals right.locals

inductive SameEntry (naming : Addr → Addr → Prop) : Entry → Entry → Prop
  | point (line : ℕ) {left right : String → Option Value}
      (hlocals : SameEnv naming left right) :
      SameEntry naming (.point line left) (.point line right)
  | attr {left right : Value} (hvalue : Value.Same naming left right) :
      SameEntry naming (.attr left) (.attr right)

/-- Two machines that agree up to a renaming of addresses. -/
structure Coupled (naming : Addr → Addr → Prop) (left right : Machine cls fuel) :
    Prop where
  obj : Obj.Same naming left.obj right.obj
  gens : ∀ thread, Option.Rel (SameGen naming) (left.T thread) (right.T thread)
  entries : ∀ name, Option.Rel (SameEntry naming) (left.S name) (right.S name)

section Coupled

variable {naming : Addr → Addr → Prop}

theorem SameGen.mono {larger : Addr → Addr → Prop} (hle : naming ≤ larger)
    {left right : Gen} (hsame : SameGen naming left right) :
    SameGen larger left right :=
  ⟨SameStack.mono hle hsame.1, hsame.2.mono hle⟩

theorem SameEntry.mono {larger : Addr → Addr → Prop} (hle : naming ≤ larger)
    {left right : Entry} (hsame : SameEntry naming left right) :
    SameEntry larger left right := by
  cases hsame with
  | point line hlocals => exact .point line (hlocals.mono hle)
  | attr hvalue => exact .attr (hvalue.mono hle)

theorem SameEntry.read {heap heap' : Heap} (hheap : Heap.Same naming heap heap')
    {left right : Entry} (hsame : SameEntry naming left right) :
    left.read heap = right.read heap' := by
  cases hsame with
  | point line hlocals =>
      have hvalues := funext fun name =>
        Rel.map_eq (hlocals name) fun _ _ hvalue => hvalue.observe hheap
      simp only [Entry.read, hvalues]
  | attr hvalue => simp only [Entry.read, hvalue.observe hheap]

theorem recordable_eq {left right : Value} (hsame : Value.Same naming left right)
    (name : String) : recordable name left = recordable name right := by
  cases hsame <;> rfl

theorem attr?_same {left right : Obj} (hsame : Obj.Same naming left right)
    (name : String) :
    Option.Rel (SameEntry naming) (attr? left name) (attr? right name) := by
  apply Rel.bind (hsame.attrs name)
  intro value value' hvalue
  rw [recordable_eq hvalue]
  split
  · exact .some (.attr hvalue)
  · exact .none

theorem rel_or {α β : Type} {R : α → β → Prop} {left left' : Option α}
    {right right' : Option β} (hrel : Option.Rel R left right)
    (hrel' : Option.Rel R left' right') :
    Option.Rel R (left.or left') (right.or right') := by
  cases hrel with
  | none => simpa using hrel'
  | some hxy => exact .some hxy

/-- Machines in step record the same state. -/
theorem Coupled.record {left right : Machine cls fuel}
    (hcoupled : Coupled naming left right) :
    (cls.checked fuel).record left = (cls.checked fuel).record right := by
  funext name
  rw [record_eq, record_eq]
  have hentry : Option.Rel (SameEntry naming)
      (if name ∈ cls.names then (attr? left.obj name).or (left.S name) else left.S name)
      (if name ∈ cls.names then (attr? right.obj name).or (right.S name)
        else right.S name) := by
    split
    · exact rel_or (attr?_same hcoupled.obj name) (hcoupled.entries name)
    · exact hcoupled.entries name
  exact Rel.map_eq hentry fun _ _ hsame => hsame.read hcoupled.obj.heap

theorem Coupled.settle {larger : Addr → Addr → Prop} (hle : naming ≤ larger)
    {left right : Machine cls fuel} (hcoupled : Coupled naming left right)
    (thread : cls.Thread) {obj obj' : Obj} (hobj : Obj.Same larger obj obj')
    {gen gen' : Option Gen} (hgen : Option.Rel (SameGen larger) gen gen')
    {entry entry' : Option Entry} (hentry : Option.Rel (SameEntry larger) entry entry') :
    Coupled larger (settle left thread obj gen entry)
      (settle right thread obj' gen' entry') where
  obj := hobj
  gens other := by
    by_cases hother : other = thread
    · subst hother
      rw [settle_T_self, settle_T_self]
      exact hgen
    · rw [settle_T_of_ne _ _ _ _ hother, settle_T_of_ne _ _ _ _ hother]
      exact Rel.mono (hcoupled.gens other) fun _ _ h => h.mono hle
  entries name := by
    by_cases hname : name = (cls.checked fuel).threadName thread
    · subst hname
      rw [settle_S_self, settle_S_self]
      exact hentry
    · rw [settle_S_of_ne _ _ _ _ hname, settle_S_of_ne _ _ _ _ hname]
      exact Rel.mono (hcoupled.entries name) fun _ _ h => h.mono hle

inductive SameNext (naming : Addr → Addr → Prop) :
    Next Obj Gen Entry → Next Obj Gen Entry → Prop
  | yielded {entry entry' gen gen' obj obj'} (hentry : SameEntry naming entry entry')
      (hgen : SameGen naming gen gen') (hobj : Obj.Same naming obj obj') :
      SameNext naming (.yielded entry gen obj) (.yielded entry' gen' obj')
  | stopped {obj obj'} (hobj : Obj.Same naming obj obj') :
      SameNext naming (.stopped obj) (.stopped obj')

theorem next_same (hunique : Relator.BiUnique naming) {gen gen' : Gen} {obj obj' : Obj}
    (hgen : SameGen naming gen gen') (hobj : Obj.Same naming obj obj') :
    Option.Rel (Later naming SameNext) ((cls.checked fuel).next gen obj)
      ((cls.checked fuel).next gen' obj') := by
  have hstore : Store.Same naming ⟨obj, gen.locals⟩ ⟨obj', gen'.locals⟩ := ⟨hobj, hgen.2⟩
  have hresume := resume_same fuel hunique hgen.1 hstore
  dsimp only
  generalize resume fuel gen.stack ⟨obj, gen.locals⟩ = result at hresume ⊢
  generalize resume fuel gen'.stack ⟨obj', gen'.locals⟩ = result' at hresume ⊢
  cases hresume with
  | none => exact .none
  | some hboth =>
      obtain ⟨-, larger, hle, hunique', houtcome⟩ := hboth
      rename_i first second
      obtain ⟨work, outcome⟩ := first
      obtain ⟨work', outcome'⟩ := second
      cases houtcome with
      | yielded line hconfig =>
          exact .some ⟨larger, hle, hunique', .yielded (.point line hconfig.2.locals)
            ⟨hconfig.1, hconfig.2.locals⟩ hconfig.2.obj⟩
      | stopped hstore => exact .some ⟨larger, hle, hunique', .stopped hstore.obj⟩
      | raised => exact .none

end Coupled

section Replay

variable {naming : Addr → Addr → Prop} (hunique : Relator.BiUnique naming)
  {left right : Machine cls fuel} (hcoupled : Coupled naming left right)

include hunique hcoupled

theorem begin_coupled (thread : cls.Thread) :
    Option.Rel (Later naming Coupled) (left.begin thread) (right.begin thread) := by
  have hcall : SameGen naming ⟨(cls.function thread).call, fun _ => none⟩
      ⟨(cls.function thread).call, fun _ => none⟩ :=
    ⟨.cons (.suite _) .nil, fun _ => .none⟩
  apply Rel.bind (next_same hunique hcall hcoupled.obj)
  rintro next next' ⟨larger, hle, hunique', hnext⟩
  cases hnext with
  | yielded hentry hgen hobj =>
      exact .some ⟨larger, hle, hunique',
        hcoupled.settle hle thread hobj (.some hgen) (.some hentry)⟩
  | stopped hobj => exact .none

theorem resume_coupled (chosen : cls.Thread) :
    Option.Rel (Later naming Coupled) (left.resume chosen) (right.resume chosen) := by
  have hgens := hcoupled.gens chosen
  unfold CheckedClass.Machine.resume
  generalize left.T chosen = gen at hgens ⊢
  generalize right.T chosen = gen' at hgens ⊢
  cases hgens with
  | none => exact .some ⟨naming, le_rfl, hunique, hcoupled⟩
  | some hgen =>
      apply Rel.bind (next_same hunique hgen hcoupled.obj)
      rintro next next' ⟨larger, hle, hunique', hnext⟩
      cases hnext with
      | yielded hentry hgen' hobj =>
          exact .some ⟨larger, hle, hunique',
            hcoupled.settle hle chosen hobj (.some hgen') (.some hentry)⟩
      | stopped hobj =>
          exact .some ⟨larger, hle, hunique', hcoupled.settle hle chosen hobj .none .none⟩

end Replay

/-- Steps that keep machines coupled keep them coupled over a list of threads. -/
theorem foldlM_coupled {step : Machine cls fuel → cls.Thread → Option (Machine cls fuel)}
    (hstep : ∀ (naming : Addr → Addr → Prop) (left right : Machine cls fuel) (thread),
      Relator.BiUnique naming → Coupled naming left right →
        Option.Rel (Later naming Coupled) (step left thread) (step right thread))
    (threads : List cls.Thread) {naming : Addr → Addr → Prop}
    (hunique : Relator.BiUnique naming) {left right : Machine cls fuel}
    (hcoupled : Coupled naming left right) :
    Option.Rel (Later naming Coupled) (threads.foldlM step left)
      (threads.foldlM step right) := by
  induction threads generalizing naming left right with
  | nil => exact .some ⟨naming, le_rfl, hunique, hcoupled⟩
  | cons thread threads ih =>
      rw [List.foldlM_cons, List.foldlM_cons]
      apply Rel.bind (hstep naming left right thread hunique hcoupled)
      rintro middle middle' ⟨larger, hle, hunique', hcoupled'⟩
      exact Rel.mono (ih hunique' hcoupled') fun _ _ h => later_trans hle h

/-- The machine before any generator is started. -/
def created (cls : PyClass) (fuel : ℕ) : Machine cls fuel where
  obj := cls.obj
  T thread := some ⟨(cls.function thread).call, fun _ => none⟩
  S _ := none

/-- Every machine that `execute` comes to agrees with itself: it has no
dangling references. -/
theorem replay_coupled_self {trace : List cls.Thread} {machine : Machine cls fuel}
    (hreplay : (cls.checked fuel).replay trace = some machine) :
    ∃ naming, Relator.BiUnique naming ∧ Coupled naming machine machine := by
  obtain ⟨naming, hunique, hobj⟩ := cls.closed
  have hcreated : Coupled naming (created cls fuel) (created cls fuel) :=
    ⟨hobj, fun _ => .some ⟨.cons (.suite _) .nil, fun _ => .none⟩, fun _ => .none⟩
  have hself : Option.Rel (Later naming Coupled) ((cls.checked fuel).replay trace)
      ((cls.checked fuel).replay trace) := by
    apply Rel.bind (foldlM_coupled (fun _ _ _ thread hunique hcoupled =>
      begin_coupled hunique hcoupled thread) _ hunique hcreated)
    rintro started started' ⟨larger, hle, hunique', hcoupled⟩
    exact Rel.mono (foldlM_coupled (fun _ _ _ thread hunique hcoupled =>
      resume_coupled hunique hcoupled thread) trace hunique' hcoupled)
      fun _ _ h => later_trans hle h
  rw [hreplay] at hself
  cases hself with
  | some hlater =>
      obtain ⟨larger, -, hunique', hcoupled⟩ := hlater
      exact ⟨larger, hunique', hcoupled⟩

/-! ## The hidden part of a state -/

/-- The iterators of the pending `for` loops, innermost first. -/
def iterators : python.Stack → List Iterator
  | [] => []
  | .forLoop _ iterator _ _ :: stack => iterator :: iterators stack
  | _ :: stack => iterators stack

/-- The list that an iterator runs over. -/
def iterated : Iterator → Option Value
  | .range _ _ _ => none
  | .list addr _ => some (.ref addr)

/-- Iterators that have come equally far. -/
inductive SameProgress : Iterator → Iterator → Prop
  | range (next stop step : ℤ) :
      SameProgress (.range next stop step) (.range next stop step)
  | list (addr addr' : Addr) (position : ℕ) :
      SameProgress (.list addr position) (.list addr' position)

/-- Where a machine's references start. -/
inductive Root (cls : PyClass) where
  | attr (name : String)
  | local (thread : cls.Thread) (name : String)
  | pending (thread : cls.Thread) (depth : ℕ)

def rooted (machine : Machine cls fuel) : Rooted (Root cls) where
  heap := machine.obj.heap
  root
    | .attr name => machine.obj.attrs name
    | .local thread name => (machine.T thread).bind fun gen => gen.locals name
    | .pending thread depth =>
        (machine.T thread).bind fun gen => (iterators gen.stack)[depth]?.bind iterated

/-- Agreement of what a record does not show. -/
structure SameHidden (left right : Machine cls fuel) : Prop where
  /-- Pending `for` loops have come equally far. -/
  progress : ∀ thread gen gen', left.T thread = some gen → right.T thread = some gen' →
    List.Forall₂ SameProgress (iterators gen.stack) (iterators gen'.stack)
  /-- They run over lists with the same contents. -/
  pending : ∀ thread depth,
    Rooted.SameContents (rooted left) (rooted right) (.pending thread depth)
  /-- Attributes that `attrs` skips have the same contents. -/
  skipped : ∀ name, name ∉ cls.names ∨
      attr? left.obj name = none ∧ attr? right.obj name = none →
    Rooted.SameContents (rooted left) (rooted right) (.attr name)
  /-- The same variables and items are one object. -/
  sharing : Rooted.SameSharing (rooted left) (rooted right)
  /-- Dictionaries were filled in the same order. -/
  order : Rooted.SameOrder (rooted left) (rooted right)

theorem sameIterators {naming : Addr → Addr → Prop} {left right : List Iterator}
    (hprogress : List.Forall₂ SameProgress left right)
    (hlists : ∀ depth : ℕ, Option.Rel (Value.Same naming) (left[depth]?.bind iterated)
      (right[depth]?.bind iterated)) :
    List.Forall₂ (Iterator.Same naming) left right := by
  induction hprogress with
  | nil => exact .nil
  | cons hfirst _ ih =>
      refine .cons ?_ (ih fun depth => by simpa using hlists (depth + 1))
      cases hfirst with
      | range next stop step => exact .range next stop step
      | list addr addr' position =>
          have hlist := hlists 0
          simp only [List.getElem?_cons_zero, Option.bind_some, iterated] at hlist
          cases hlist with
          | some hvalue =>
              cases hvalue with
              | ref haddr => exact .list haddr position

/-- The same levels with the same iterators. -/
theorem sameStack_of_sameLevel {naming : Addr → Addr → Prop}
    {left right : python.Stack} (hlevels : List.Forall₂ SameLevel left right)
    (hiterators : List.Forall₂ (Iterator.Same naming) (iterators left)
      (iterators right)) : SameStack naming left right := by
  induction hlevels with
  | nil => exact .nil
  | cons hlevel _ ih =>
      cases hlevel with
      | suite rest => exact .cons (.suite rest) (ih hiterators)
      | whileLoop cond body others =>
          exact .cons (.whileLoop cond body others) (ih hiterators)
      | forLoop loop iterator iterator' body others =>
          obtain ⟨hfirst, hrest⟩ := List.forall₂_cons.mp hiterators
          exact .cons (.forLoop loop body others hfirst) (ih hrest)

theorem iterators_same {naming : Addr → Addr → Prop} {left right : python.Stack}
    (hstack : SameStack naming left right) :
    List.Forall₂ (Iterator.Same naming) (iterators left) (iterators right) := by
  induction hstack with
  | nil => exact .nil
  | cons hframe _ ih =>
      cases hframe with
      | suite rest => exact ih
      | whileLoop cond body others => exact ih
      | forLoop loop body others hiterator => exact .cons hiterator ih

theorem iterated_same {naming : Addr → Addr → Prop} {left right : List Iterator}
    (hsame : List.Forall₂ (Iterator.Same naming) left right) (depth : ℕ) :
    Option.Rel (Value.Same naming) (left[depth]?.bind iterated)
      (right[depth]?.bind iterated) := by
  induction hsame generalizing depth with
  | nil => exact .none
  | cons hfirst _ ih =>
      cases depth with
      | succ depth => simpa using ih depth
      | zero =>
          simp only [List.getElem?_cons_zero, Option.bind_some]
          cases hfirst with
          | range next stop step => exact .none
          | list haddr position => exact .some (.ref haddr)

theorem Coupled.rooted {naming : Addr → Addr → Prop} {left right : Machine cls fuel}
    (hcoupled : Coupled naming left right) :
    Rooted.Same naming (rooted left) (rooted right) := by
  refine ⟨hcoupled.obj.heap, fun root => ?_⟩
  cases root with
  | attr name => exact hcoupled.obj.attrs name
  | «local» thread name =>
      exact Rel.bind (hcoupled.gens thread) fun _ _ hgen => hgen.2 name
  | pending thread depth =>
      exact Rel.bind (hcoupled.gens thread) fun _ _ hgen =>
        iterated_same (iterators_same hgen.1) depth

/-- Machines that are the same but for the names of objects agree in what a record does
not show. -/
theorem Coupled.sameHidden {naming : Addr → Addr → Prop} {left right : Machine cls fuel}
    (hcoupled : Coupled naming left right) (hunique : Relator.BiUnique naming) :
    SameHidden left right where
  progress thread gen gen' hgen hgen' := by
    have hgens := hcoupled.gens thread
    rw [hgen, hgen'] at hgens
    cases hgens with
    | some hsame =>
        apply (iterators_same hsame.1).imp
        intro iterator iterator' hiterator
        cases hiterator with
        | range next stop step => exact .range next stop step
        | list haddr position => exact .list _ _ position
  pending thread depth := hcoupled.rooted.sameContents (.pending thread depth)
  skipped name _ := hcoupled.rooted.sameContents (.attr name)
  sharing := hcoupled.rooted.sameSharing hunique
  order := hcoupled.rooted.sameOrder

/-! ## Equal records -/

section Records

variable {left right : Machine cls fuel}
  (hrecord : (cls.checked fuel).record left = (cls.checked fuel).record right)

include hrecord

/-- A thread's part of the record. -/
theorem entry_of_record (thread : cls.Thread) :
    (left.S ((cls.checked fuel).threadName thread)).map (Entry.read left.obj.heap) =
      (right.S ((cls.checked fuel).threadName thread)).map
        (Entry.read right.obj.heap) := by
  have hname : (cls.checked fuel).threadName thread ∉ cls.names := by
    rw [threadName_eq]
    exact cls.apart _ (function_mem thread)
  have hat := congrFun hrecord ((cls.checked fuel).threadName thread)
  rwa [record_eq, record_eq, if_neg hname, if_neg hname] at hat

/-- Live threads are the same ones, at the same lines, with the same locals. -/
theorem live_of_record {thread : cls.Thread} (hright : Tracked right thread)
    {gen : Gen} {line : ℕ} (hlive : Live left thread gen line) :
    ∃ gen', Live right thread gen' line ∧
      (fun name => (gen.locals name).map (·.observe left.obj.heap)) =
        fun name => (gen'.locals name).map (·.observe right.obj.heap) := by
  have hentry := entry_of_record hrecord thread
  rw [hlive.2.1] at hentry
  rcases hright with ⟨-, hnone⟩ | ⟨gen', line', hlive'⟩
  · rw [hnone] at hentry
    cases hentry
  · rw [hlive'.2.1] at hentry
    simp only [Option.map_some, Entry.read, Option.some.injEq, Recorded.point.injEq]
      at hentry
    obtain ⟨rfl, hlocals⟩ := hentry
    exact ⟨gen', hlive', hlocals⟩

theorem finished_of_record {thread : cls.Thread} (hright : Tracked right thread)
    (hfinished : left.S ((cls.checked fuel).threadName thread) = none) :
    right.T thread = none ∧ right.S ((cls.checked fuel).threadName thread) = none := by
  have hentry := entry_of_record hrecord thread
  rw [hfinished] at hentry
  rcases hright with hnone | ⟨gen', line', hlive'⟩
  · exact hnone
  · rw [hlive'.2.1] at hentry
    cases hentry

/-- The recorded attributes have the same contents. -/
theorem attr_of_record (hleft : OnlyThreads left) (hright : OnlyThreads right)
    {name : String} (hname : name ∈ cls.names) :
    (attr? left.obj name).map (Entry.read left.obj.heap) =
      (attr? right.obj name).map (Entry.read right.obj.heap) := by
  have hthread : ∀ thread, name ≠ (cls.checked fuel).threadName thread := by
    intro thread heq
    rw [threadName_eq] at heq
    exact cls.apart _ (function_mem thread) (heq ▸ hname)
  have hat := congrFun hrecord name
  rw [record_eq, record_eq, if_pos hname, if_pos hname, hleft name hthread,
    hright name hthread] at hat
  simpa using hat

end Records

theorem attr?_eq_some {obj : Obj} {name : String} {entry : Entry}
    (hattr : attr? obj name = some entry) :
    ∃ value, obj.attrs name = some value ∧ entry = .attr value := by
  obtain ⟨value, hvalue, hentry⟩ := Option.bind_eq_some_iff.mp hattr
  split at hentry
  · cases hentry
    exact ⟨value, hvalue, rfl⟩
  · cases hentry

section Determined

variable {left right : Machine cls fuel}
  (hrecord : (cls.checked fuel).record left = (cls.checked fuel).record right)
  (hhidden : SameHidden left right)
  (hleft : (∀ thread, Tracked left thread) ∧ OnlyThreads left)
  (hright : (∀ thread, Tracked right thread) ∧ OnlyThreads right)

include hrecord hhidden hleft hright

theorem sameContents_attr (name : String) :
    Rooted.SameContents (rooted left) (rooted right) (.attr name) := by
  by_cases hname : name ∈ cls.names
  · have hattr := attr_of_record hrecord hleft.2 hright.2 hname
    cases hl : attr? left.obj name with
    | none =>
        rw [hl] at hattr
        exact hhidden.skipped name (.inr ⟨hl, by simpa using hattr.symm⟩)
    | some entry =>
        obtain ⟨value, hvalue, rfl⟩ := attr?_eq_some hl
        rw [hl] at hattr
        obtain ⟨entry', hr, hread⟩ := Option.map_eq_some_iff.mp hattr.symm
        obtain ⟨value', hvalue', rfl⟩ := attr?_eq_some hr
        simp only [Entry.read, Recorded.attr.injEq] at hread
        simp [Rooted.SameContents, rooted, hvalue, hvalue', hread]
  · exact hhidden.skipped name (.inl hname)

omit hhidden in
theorem sameContents_local (thread : cls.Thread) (name : String) :
    Rooted.SameContents (rooted left) (rooted right) (.local thread name) := by
  unfold Rooted.SameContents
  simp only [rooted]
  rcases hleft.1 thread with ⟨hgen, hentry⟩ | ⟨gen, line, hlive⟩
  · rw [hgen, (finished_of_record hrecord (hright.1 thread) hentry).1]
    rfl
  · obtain ⟨gen', hlive', hlocals⟩ := live_of_record hrecord (hright.1 thread) hlive
    rw [hlive.1, hlive'.1]
    exact congrFun hlocals name

theorem sameContents_of_record (root : Root cls) :
    Rooted.SameContents (rooted left) (rooted right) root := by
  cases root with
  | attr name => exact sameContents_attr hrecord hhidden hleft hright name
  | «local» thread name => exact sameContents_local hrecord hleft hright thread name
  | pending thread depth => exact hhidden.pending thread depth

/-- Equal records with equal hidden parts: the machines are in step. -/
theorem coupled_of_record (hclosed : Rooted.Closed (rooted left)) :
    Coupled (Rooted.Paired (rooted left) (rooted right)) left right := by
  have hsame := Rooted.same_paired
    (sameContents_of_record hrecord hhidden hleft hright) hclosed hhidden.order
  have hlocals : ∀ thread gen gen', left.T thread = some gen → right.T thread = some gen' →
      SameEnv (Rooted.Paired (rooted left) (rooted right)) gen.locals gen'.locals := by
    intro thread gen gen' hgen hgen' name
    have hroot := hsame.2 (.local thread name)
    simp only [rooted, hgen, hgen', Option.bind_some] at hroot
    exact hroot
  refine ⟨⟨hsame.1, fun name => hsame.2 (.attr name)⟩, fun thread => ?_, fun name => ?_⟩
  · rcases hleft.1 thread with ⟨hgen, hentry⟩ | ⟨gen, line, hlive⟩
    · rw [hgen, (finished_of_record hrecord (hright.1 thread) hentry).1]
      exact .none
    · obtain ⟨gen', hlive', -⟩ := live_of_record hrecord (hright.1 thread) hlive
      rw [hlive.1, hlive'.1]
      refine .some ⟨?_, hlocals thread gen gen' hlive.1 hlive'.1⟩
      apply sameStack_of_sameLevel
        (sameLevel_of_line (cls.function thread) hlive.2.2.1 hlive'.2.2.1)
      apply sameIterators (hhidden.progress thread gen gen' hlive.1 hlive'.1)
      intro depth
      have hroot := hsame.2 (.pending thread depth)
      simp only [rooted, hlive.1, hlive'.1, Option.bind_some] at hroot
      exact hroot
  · by_cases hname : ∃ thread, name = (cls.checked fuel).threadName thread
    · obtain ⟨thread, rfl⟩ := hname
      rcases hleft.1 thread with ⟨-, hentry⟩ | ⟨gen, line, hlive⟩
      · rw [hentry, (finished_of_record hrecord (hright.1 thread) hentry).2]
        exact .none
      · obtain ⟨gen', hlive', -⟩ := live_of_record hrecord (hright.1 thread) hlive
        rw [hlive.2.1, hlive'.2.1]
        exact .some (.point line (hlocals thread gen gen' hlive.1 hlive'.1))
    · have hother : ∀ thread, name ≠ (cls.checked fuel).threadName thread :=
        fun thread heq => hname ⟨thread, heq⟩
      rw [hleft.2 name hother, hright.2 name hother]
      exact .none

end Determined

end Machines

/-! ## A loop variable that is overwritten -/

section Overwritten

theorem same_update {naming : Addr → Addr → Prop} {left right : Store}
    (hsame : Store.Same naming left right) (name : String) {value value' : Value}
    (hvalue : Value.Same naming value value') :
    Store.Same naming
      { left with locals := Function.update left.locals name (some value) }
      { right with locals := Function.update right.locals name (some value') } := by
  refine ⟨hsame.obj, fun other => ?_⟩
  by_cases hother : other = name
  · subst hother
    simpa using Option.Rel.some hvalue
  · simpa [hother] using hsame.locals other

/-- `name = value` for a constant. -/
def assign (name : String) (value : Atom) : Statement where
  run store :=
    some { store with locals := Function.update store.locals name (some (.atom value)) }
  respects naming _ _ hunique hsame :=
    .some ⟨naming, le_rfl, hunique, same_update hsame name (.atom value)⟩

def pass : Statement where
  run := some
  respects naming _ _ hunique hsame := .some ⟨naming, le_rfl, hunique, hsame⟩

/-- `for name in range(stop)`. -/
def forRange (name : String) (stop : ℤ) : ForHeader where
  iterable store := some (.range 0 stop 1, store)
  target value store :=
    some { store with locals := Function.update store.locals name (some value) }
  iterable_respects naming _ _ hunique hsame :=
    .some ⟨naming, le_rfl, hunique, .range 0 stop 1, hsame⟩
  target_respects naming _ _ _ _ hunique hvalue hsame :=
    .some ⟨naming, le_rfl, hunique, same_update hsame name hvalue⟩

/-- One thread: `for _ in range(2):` with the body `_ = None` and `pass`. -/
def overwriting : PyClass where
  functions := [
    { name := "t"
      body := .compound (.forEach (forRange "_" 2))
        (.leaf (.simple (assign "_" .none)) (.leaf (.simple pass) .nil)) .nil .nil
      suite := by simp [Body.Suite]
      line := 4 }]
  names := []
  obj := { attrs := fun _ => none, heap := [] }
  nodup := by simp
  apart := by simp
  closed := ⟨fun _ _ => False, ⟨fun _ _ _ h => h.elim, fun _ _ _ h => h.elim⟩,
    fun _ _ h => h.elim, fun _ => .none⟩

def overwritingT : overwriting.Thread := ⟨0, Nat.one_pos⟩

/-- In the first and in the second round the thread waits before `pass` with
`_` bound to `None`. -/
theorem overwriting_same_record :
    (overwriting.checked 10).execute [overwritingT, overwritingT] =
      (overwriting.checked 10).execute
        [overwritingT, overwritingT, overwritingT, overwritingT] := by
  refine congrArg some (funext fun name => ?_)
  by_cases hname : name = "t"
  · subst hname
    refine congrArg (fun locals => some (Recorded.point 8 locals)) (funext fun name => ?_)
    by_cases hname : name = "_"
    · subst hname
      rfl
    · have hlocal : ∀ (locals : String → Option Value) value,
          Function.update locals "_" value name = locals name :=
        fun locals value => Function.update_of_ne hname value locals
      simp only [hlocal]
  · have hother : ∀ trace machine, (overwriting.checked 10).replay trace = some machine →
        (overwriting.checked 10).record machine name = none := by
      intro trace machine hreplay
      have hnone : machine.S name = none := (replay_tracked hreplay).2 name fun thread =>
        Fin.fin_one_eq_zero thread ▸ hname
      rw [record_eq, hnone]
      rfl
    exact (hother [overwritingT, overwritingT] _ rfl).trans
      (hother [overwritingT, overwritingT, overwritingT, overwritingT] _ rfl).symm

end Overwritten

/-! ## A list that is made anew -/

section Reallocated

theorem sameCell_singleton (naming : Addr → Addr → Prop) (item : Atom) :
    Cell.Same naming (.list [.atom item]) (.list [.atom item]) := by
  refine .list ⟨rfl, fun position x y hx hy => ?_⟩
  cases hx.symm.trans hy
  obtain rfl := List.mem_singleton.mp (List.mem_of_getElem? hx)
  exact .atom item

/-- `self.name = [item]` for a constant. -/
def assignList (name : String) (item : Atom) : Statement where
  run store :=
    some { store with
      obj :=
        { attrs := Function.update store.obj.attrs name (some (.ref store.obj.heap.length))
          heap := store.obj.heap ++ [.list [.atom item]] } }
  respects naming left right hunique hsame := by
    obtain ⟨larger, hle, hunique', hnew, hheap⟩ :=
      hsame.obj.heap.alloc hunique (sameCell_singleton naming item)
    refine .some ⟨larger, hle, hunique', ⟨hheap, fun other => ?_⟩, hsame.locals.mono hle⟩
    by_cases hother : other = name
    · subst hother
      simpa using Option.Rel.some (Value.Same.ref hnew)
    · simpa [hother] using hsame.obj.attrs.mono hle other

/-- `True` -/
def always : Condition where
  run store := some (true, store)
  respects naming _ _ hunique hsame := .some ⟨naming, le_rfl, hunique, rfl, hsame⟩

/-- One thread: `while True:` with the body `self.items = [0]`. -/
def reallocating : PyClass where
  functions := [
    { name := "t"
      body := .compound (.whileTest always)
        (.leaf (.simple (assignList "items" (.int 0))) .nil) .nil .nil
      suite := by simp [Body.Suite]
      line := 4 }]
  names := ["items"]
  obj := { attrs := fun _ => none, heap := [] }
  nodup := by simp
  apart := by simp
  closed := ⟨fun _ _ => False, ⟨fun _ _ _ h => h.elim, fun _ _ _ h => h.elim⟩,
    fun _ _ h => h.elim, fun _ => .none⟩

def reallocatingT : reallocating.Thread := ⟨0, Nat.one_pos⟩

/-- After two rounds the attribute refers to another object than after one. -/
theorem reallocating_coupled : ∃ left right,
    (reallocating.checked 10).replay (List.replicate 2 reallocatingT) = some left ∧
    (reallocating.checked 10).replay (List.replicate 3 reallocatingT) = some right ∧
    left.obj.attrs "items" = some (.ref 0) ∧ right.obj.attrs "items" = some (.ref 1) ∧
    ∃ naming, Relator.BiUnique naming ∧ Coupled naming left right := by
  refine ⟨_, _, rfl, rfl, rfl, rfl, fun addr addr' => addr = 0 ∧ addr' = 1,
    ⟨fun _ _ _ h h' => h.1.trans h'.1.symm, fun _ _ _ h h' => h.2.trans h'.2.symm⟩,
    ⟨?_, fun name => ?_⟩, fun thread => ?_, fun name => ?_⟩
  · rintro _ _ ⟨rfl, rfl⟩
    exact ⟨_, _, rfl, rfl, sameCell_singleton _ (.int 0)⟩
  · by_cases hname : name = "items"
    · subst hname
      exact .some (.ref ⟨rfl, rfl⟩)
    · have hattr : ∀ (attrs : String → Option Value) value,
          Function.update attrs "items" value name = attrs name :=
        fun attrs value => Function.update_of_ne hname value attrs
      simp only [hattr]
      exact .none
  · obtain rfl : thread = reallocatingT := Fin.fin_one_eq_zero thread
    exact .some ⟨.cons (.suite _) (.cons (.whileLoop _ _ _) (.cons (.suite _) .nil)),
      fun _ => .none⟩
  · by_cases hname : name = "t"
    · subst hname
      exact .some (.point _ fun _ => .none)
    · have hentry : ∀ thread (S : String → Option Entry) value,
          Function.update S ((reallocating.checked 10).threadName thread) value name = S name :=
        fun thread S value => by
          obtain rfl : thread = reallocatingT := Fin.fin_one_eq_zero thread
          exact Function.update_of_ne hname value S
      simp only [hentry]
      exact .none

end Reallocated

end PyClass

end JyyOS.ModelChecker
