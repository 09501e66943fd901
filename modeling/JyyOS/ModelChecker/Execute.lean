import JyyOS.Core.WordSearch

/-!
# Re-executing a trace and searching all traces (`model-checker.py`)

The model checker keeps no live state.  `execute` starts a fresh object of the
instrumented class and resumes one thread generator after the other as a trace
says; `check_bfs` searches breadth first over traces and merges states by
name.  What the checked class does between two checkpoints is a parameter here.
-/

namespace JyyOS.ModelChecker

/-- What one `__next__` of a thread generator does. -/
inductive Next (Obj Gen Entry : Type) where
  | yielded (entry : Entry) (gen : Gen) (obj : Obj)
  | stopped (obj : Obj)

/-- An instrumented class with deterministic threads.  `next` is `none` when
the generator raises an exception or never comes back. -/
structure CheckedClass where
  /-- The object together with everything reachable from it. -/
  Obj : Type
  Gen : Type
  /-- What `checkpoint` returns, and what an attribute is bound to. -/
  Entry : Type
  /-- The value an entry has once its references are followed. -/
  Value : Type
  threads : List String
  /-- `hack(Class).hacked()` with its attributes copied. -/
  new : Obj
  call : Fin threads.length → Gen
  next : Gen → Obj → Option (Next Obj Gen Entry)
  attrs : Obj → List (String × Entry)
  read : Obj → Entry → Value

namespace CheckedClass

variable (Class : CheckedClass)

abbrev Thread := Fin Class.threads.length

def threadName (thread : Class.Thread) : String := Class.threads.get thread

/-- The recorded state: a dictionary from thread and attribute names. -/
abbrev Record := String → Option Class.Value

/-- The local variables of `execute`. -/
structure Machine where
  obj : Class.Obj
  T : Class.Thread → Option Class.Gen
  S : String → Option Class.Entry

variable {Class}

/-- `S[t] = T[i].__next__()` for a generator that has not started; a generator
that stops at once raises `StopIteration` out of `execute`. -/
def Machine.begin (machine : Class.Machine) (thread : Class.Thread) :
    Option Class.Machine := do
  match ← Class.next (Class.call thread) machine.obj with
  | .yielded entry gen obj =>
      some { obj := obj
             T := Function.update machine.T thread (some gen)
             S := Function.update machine.S (Class.threadName thread) (some entry) }
  | .stopped _ => none

/-- One round of the scheduling loop.  A finished thread is skipped. -/
def Machine.resume (machine : Class.Machine) (chosen : Class.Thread) :
    Option Class.Machine :=
  match machine.T chosen with
  | none => some machine
  | some gen => do
      match ← Class.next gen machine.obj with
      | .yielded entry gen obj =>
          some { obj := obj
                 T := Function.update machine.T chosen (some gen)
                 S := Function.update machine.S (Class.threadName chosen)
                   (some entry) }
      | .stopped obj =>
          some { obj := obj
                 T := Function.update machine.T chosen none
                 S := Function.update machine.S (Class.threadName chosen) none }

theorem Machine.begin_of_yielded {machine : Class.Machine} {thread : Class.Thread}
    {entry : Class.Entry} {gen : Class.Gen} {obj : Class.Obj}
    (hnext : Class.next (Class.call thread) machine.obj =
      some (.yielded entry gen obj)) :
    machine.begin thread = some
      { obj := obj
        T := Function.update machine.T thread (some gen)
        S := Function.update machine.S (Class.threadName thread) (some entry) } := by
  simp only [begin, hnext, Option.bind_eq_bind, Option.bind_some]

theorem Machine.resume_of_yielded {machine : Class.Machine} {chosen : Class.Thread}
    {entry : Class.Entry} {gen gen' : Class.Gen} {obj : Class.Obj}
    (hgen : machine.T chosen = some gen)
    (hnext : Class.next gen machine.obj = some (.yielded entry gen' obj)) :
    machine.resume chosen = some
      { obj := obj
        T := Function.update machine.T chosen (some gen')
        S := Function.update machine.S (Class.threadName chosen) (some entry) } := by
  simp only [resume, hgen, hnext, Option.bind_eq_bind, Option.bind_some]

theorem Machine.resume_of_stopped {machine : Class.Machine} {chosen : Class.Thread}
    {gen : Class.Gen} {obj : Class.Obj} (hgen : machine.T chosen = some gen)
    (hnext : Class.next gen machine.obj = some (.stopped obj)) :
    machine.resume chosen = some
      { obj := obj
        T := Function.update machine.T chosen none
        S := Function.update machine.S (Class.threadName chosen) none } := by
  simp only [resume, hgen, hnext, Option.bind_eq_bind, Option.bind_some]

variable (Class)

/-- `execute` up to the end of its scheduling loop. -/
def replay (trace : List Class.Thread) : Option Class.Machine := do
  let created : Class.Machine :=
    { obj := Class.new
      T := fun thread => some (Class.call thread)
      S := fun _ => none }
  let started ← (List.finRange Class.threads.length).foldlM Machine.begin created
  trace.foldlM Machine.resume started

/-- The final `S[attr] = val` loop, and the values that the entries then
have. -/
def record (machine : Class.Machine) : Class.Record :=
  let S := (Class.attrs machine.obj).foldl
    (fun S (attr, entry) => Function.update S attr (some entry)) machine.S
  fun name => (S name).map (Class.read machine.obj)

def execute (trace : List Class.Thread) : Option Class.Record :=
  (Class.replay trace).map Class.record

/-- The thread at this index has finished along the trace. -/
def Finished (trace : List Class.Thread) (thread : Class.Thread) : Prop :=
  ∃ machine, Class.replay trace = some machine ∧ machine.T thread = none

variable {Class}

theorem replay_append (trace more : List Class.Thread) :
    Class.replay (trace ++ more) =
      (Class.replay trace).bind (more.foldlM Machine.resume) := by
  simp [replay, List.foldlM_append, Option.bind_assoc]

theorem replay_snoc (trace : List Class.Thread) (thread : Class.Thread) :
    Class.replay (trace ++ [thread]) =
      (Class.replay trace).bind (·.resume thread) := by
  simp [replay, List.foldlM_append, Option.bind_assoc]

/-- Choosing a finished thread changes nothing. -/
theorem execute_of_finished {trace : List Class.Thread} {thread : Class.Thread}
    (hfinished : Class.Finished trace thread) :
    Class.execute (trace ++ [thread]) = Class.execute trace := by
  obtain ⟨machine, hreplay, hthread⟩ := hfinished
  rw [execute, execute, replay_snoc, hreplay]
  simp [Machine.resume, hthread]

end CheckedClass

/-! ## Breadth-first search -/

/-- A `State` object: the trace it was made from, what `execute` recorded, and
the name by which states are compared. -/
structure State (Class : CheckedClass) where
  trace : List Class.Thread
  state : Class.Record
  name : String

def State.make (Class : CheckedClass) (hash : Class.Record → String)
    (trace : List Class.Thread) : Option (State Class) :=
  (Class.execute trace).map fun state => ⟨trace, state, hash state⟩

/-- The local variables of `check_bfs`.  `vertices` is a dictionary keyed by
name, in insertion order. -/
structure Bfs (Class : CheckedClass) where
  queue : List (State Class)
  vertices : List (String × State Class)
  edges : List (State Class × State Class × Class.Thread)

section CheckBfs

variable (Class : CheckedClass) (hash : Class.Record → String)

/-- The body of the inner loop of `check_bfs`. -/
def Bfs.visit (u : State Class) (bfs : Bfs Class) (chosen : Class.Thread) :
    Option (Bfs Class) := do
  let v ← State.make Class hash (u.trace ++ [chosen])
  if v.name ∈ bfs.vertices.map Prod.fst then
    some { bfs with edges := bfs.edges ++ [(u, v, chosen)] }
  else
    some { queue := bfs.queue ++ [v]
           vertices := bfs.vertices ++ [(v.name, v)]
           edges := bfs.edges ++ [(u, v, chosen)] }

/-- The outer loop of `check_bfs`, `none` if it needs more iterations than the
fuel allows or an execution does not return. -/
def Bfs.loop : ℕ → Bfs Class → Option (Bfs Class)
  | 0, bfs =>
      match bfs.queue with
      | [] => some bfs
      | _ :: _ => none
  | fuel + 1, bfs =>
      match bfs.queue with
      | [] => some bfs
      | u :: queue => do
          Bfs.loop fuel
            (← (List.finRange Class.threads.length).foldlM
              (Bfs.visit Class hash u) { bfs with queue := queue })

def checkBfs (fuel : ℕ) : Option (Bfs Class) := do
  let s0 ← State.make Class hash []
  Bfs.loop Class hash fuel
    { queue := [s0], vertices := [(s0.name, s0)], edges := [] }

end CheckBfs

end JyyOS.ModelChecker
