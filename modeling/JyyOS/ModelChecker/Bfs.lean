import JyyOS.ModelChecker.Execute

/-!
# `check_bfs` explores exactly the reachable states

`check_bfs` is the breadth-first word search of `JyyOS.Core.WordSearch`, with
`execute` as the evaluation of a word and the state name as the key.
-/

namespace JyyOS.ModelChecker

open JyyOS.WordSearch (Node Search)

section Refinement

variable {Class : CheckedClass} (hash : Class.Record → String)
variable (eval : List Class.Thread → Class.Record)

def toState (vertex : Node Class.Thread Class.Record) : State Class :=
  ⟨vertex.word, vertex.state, hash vertex.state⟩

/-- The variables of `check_bfs` that a word search stands for. -/
def toBfs (search : Search Class.Thread Class.Record) : Bfs Class where
  queue := search.queue.map (toState hash)
  vertices := search.found.map fun vertex =>
    (hash vertex.state, toState hash vertex)
  edges := search.edges.map fun edge =>
    (toState hash edge.1, toState hash edge.2.1, edge.2.2)

variable {eval} (hexecute : ∀ trace, Class.execute trace = some (eval trace))

include hexecute

theorem make_eq (trace : List Class.Thread) :
    State.make Class hash trace =
      some (toState hash (WordSearch.node eval trace)) := by
  simp [State.make, hexecute, toState, WordSearch.node]

theorem visit_eq (u : Node Class.Thread Class.Record)
    (search : Search Class.Thread Class.Record) (chosen : Class.Thread) :
    Bfs.visit Class hash (toState hash u) (toBfs hash search) chosen =
      some (toBfs hash (WordSearch.visit eval hash u search chosen)) := by
  have hnames : (toBfs hash search).vertices.map Prod.fst =
      WordSearch.keys hash search.found := by
    simp [toBfs, WordSearch.keys]
  unfold Bfs.visit
  rw [show (toState hash u).trace = u.word from rfl, make_eq hash hexecute]
  simp only [Option.bind_eq_bind, Option.bind_some, hnames]
  unfold WordSearch.visit
  simp only [show ∀ vertex, (toState hash vertex).name = hash vertex.state
    from fun _ => rfl]
  split
  · simp [toBfs]
  · simp [toBfs]

theorem foldlM_visit_eq (u : Node Class.Thread Class.Record)
    (threads : List Class.Thread) (search : Search Class.Thread Class.Record) :
    threads.foldlM (Bfs.visit Class hash (toState hash u)) (toBfs hash search) =
      some (toBfs hash
        (threads.foldl (WordSearch.visit eval hash u) search)) := by
  induction threads generalizing search with
  | nil => rfl
  | cons chosen threads ih =>
      rw [List.foldlM_cons, visit_eq hash hexecute]
      exact ih _

theorem loop_eq (fuel : ℕ) (search : Search Class.Thread Class.Record) :
    Bfs.loop Class hash fuel (toBfs hash search) =
      (WordSearch.run eval hash (List.finRange Class.threads.length) fuel
        search).map (toBfs hash) := by
  induction fuel generalizing search with
  | zero =>
      cases hqueue : search.queue with
      | nil => simp [Bfs.loop, WordSearch.run, toBfs, hqueue]
      | cons u rest => simp [Bfs.loop, WordSearch.run, toBfs, hqueue]
  | succ fuel ih =>
      cases hqueue : search.queue with
      | nil => simp [Bfs.loop, WordSearch.run, toBfs, hqueue]
      | cons u rest =>
          have hhead : (toBfs hash search).queue =
              toState hash u :: rest.map (toState hash) := by
            simp [toBfs, hqueue]
          have hpopped : { toBfs hash search with
              queue := rest.map (toState hash) } =
                toBfs hash { search with queue := rest } := rfl
          rw [Bfs.loop, hhead]
          dsimp only
          rw [hpopped, foldlM_visit_eq hash hexecute]
          simp only [Option.bind_eq_bind, Option.bind_some]
          rw [ih, WordSearch.run, hqueue]

theorem checkBfs_eq (fuel : ℕ) :
    checkBfs Class hash fuel =
      (WordSearch.run eval hash (List.finRange Class.threads.length) fuel
        (WordSearch.start eval)).map (toBfs hash) := by
  rw [← loop_eq hash hexecute, checkBfs, make_eq hash hexecute]
  rfl

end Refinement

/-- If every execution returns, the recorded state determines the next one,
states are told apart by their names and only finitely many are reachable, then
`check_bfs` ends; its vertices are the reachable states, each once and with a
shortest trace; and it has one edge for every vertex and thread, which leads to
the vertex's own state when the thread has finished. -/
theorem checkBfs_explores (Class : CheckedClass)
    (hash : Class.Record → String)
    (hreturns : ∀ trace, ∃ state, Class.execute trace = some state)
    (hdetermined : ∀ left right thread,
      Class.execute left = Class.execute right →
        Class.execute (left ++ [thread]) = Class.execute (right ++ [thread]))
    (hnames : ∀ left right state state',
      Class.execute left = some state → Class.execute right = some state' →
        hash state = hash state' → state = state')
    (hfinite : {state | ∃ trace, Class.execute trace = some state}.Finite) :
    ∃ fuel result, checkBfs Class hash fuel = some result ∧
      (result.vertices.map fun vertex => vertex.2.state).Nodup ∧
      (∀ state, state ∈ (result.vertices.map fun vertex => vertex.2.state) ↔
        ∃ trace, Class.execute trace = some state) ∧
      (∀ name vertex, (name, vertex) ∈ result.vertices →
        name = hash vertex.state ∧ vertex.name = name ∧
          Class.execute vertex.trace = some vertex.state ∧
            ∀ trace, Class.execute trace = some vertex.state →
              vertex.trace.length ≤ trace.length) ∧
      (result.edges.map fun edge => (edge.1, edge.2.2)) =
        (result.vertices.flatMap fun vertex =>
          (List.finRange Class.threads.length).map fun thread =>
            (vertex.2, thread)) ∧
      ∀ u v thread, (u, v, thread) ∈ result.edges →
        State.make Class hash (u.trace ++ [thread]) = some v ∧
          (Class.Finished u.trace thread → v.state = u.state) := by
  classical
  choose eval hexecute using hreturns
  have hact : ∀ left right thread, eval left = eval right →
      eval (left ++ [thread]) = eval (right ++ [thread]) := by
    intro left right thread hsame
    have hnext := hdetermined left right thread
      (by rw [hexecute, hexecute, hsame])
    rw [hexecute, hexecute] at hnext
    exact Option.some.inj hnext
  have hkey : ∀ left right, hash (eval left) = hash (eval right) →
      eval left = eval right := by
    intro left right
    exact hnames left right _ _ (hexecute left) (hexecute right)
  have hrange : (Set.range eval).Finite := by
    apply hfinite.subset
    rintro _ ⟨trace, rfl⟩
    exact ⟨trace, hexecute trace⟩
  obtain ⟨fuel, search, hrun, hexplored⟩ :=
    WordSearch.exists_explored hact hkey
      (fun thread => List.mem_finRange thread) hrange
  have hexecute_iff : ∀ trace state, Class.execute trace = some state ↔
      eval trace = state := by
    intro trace state
    rw [hexecute, Option.some.injEq]
  have hstates : ((toBfs hash search).vertices.map fun vertex =>
      vertex.2.state) = search.found.map Node.state := by
    simp [toBfs, toState]
  refine ⟨fuel, toBfs hash search, ?_, ?_, ?_, ?_, ?_, ?_⟩
  · rw [checkBfs_eq hash hexecute, hrun]
    rfl
  · rw [hstates]
    exact hexplored.nodup
  · intro state
    rw [hstates, hexplored.covers]
    simp only [hexecute_iff]
  · intro name vertex hvertex
    obtain ⟨node, hnode, heq⟩ := List.mem_map.mp hvertex
    cases heq
    refine ⟨rfl, rfl, ?_, ?_⟩
    · rw [hexecute_iff]
      exact hexplored.evaluated node hnode
    · intro trace htrace
      exact hexplored.shortest node hnode trace ((hexecute_iff _ _).mp htrace)
  · simp [toBfs, hexplored.edges, WordSearch.edgesOf, List.map_flatMap,
      List.flatMap_map, Function.comp_def]
  · intro u v thread hedge
    obtain ⟨edge, hmem, heq⟩ := List.mem_map.mp hedge
    rw [hexplored.edges] at hmem
    obtain ⟨source, hsource, hedgeOf⟩ := List.mem_flatMap.mp hmem
    obtain ⟨letter, _, rfl⟩ := List.mem_map.mp hedgeOf
    cases heq
    refine ⟨make_eq hash hexecute _, ?_⟩
    intro hfinished
    have hsame := CheckedClass.execute_of_finished hfinished
    rw [hexecute, hexecute, Option.some.injEq] at hsame
    exact hsame.trans (hexplored.evaluated source hsource)

/-! ## Two threads that write one attribute -/

/-- `t1` has the statement `self.x = 1` and `t2` has `self.x = 2`. -/
def writers : CheckedClass where
  Obj := ℕ
  -- the value to be written, and whether the thread has yet to come to its statement
  Gen := ℕ × Bool
  Entry := ℕ
  Value := ℕ
  threads := ["t1", "t2"]
  new := 0
  call thread := (thread.val + 1, true)
  next gen obj :=
    some (if gen.2 then .yielded gen.1 (gen.1, false) obj else .stopped gen.1)
  attrs obj := [("x", obj)]
  read _ entry := entry

namespace Writers

def name (state : String → Option ℕ) : String :=
  match state "t1", state "t2", state "x" with
  | some _, some _, _ => "new"
  | none, some _, _ => "t1"
  | some _, none, _ => "t2"
  | none, none, some 2 => "t1t2"
  | none, none, _ => "t2t1"

def t1 : writers.Thread := ⟨0, Nat.two_pos⟩

def t2 : writers.Thread := ⟨1, Nat.one_lt_two⟩

/-- The orders in which the statements can be executed. -/
def orders : List (List writers.Thread) := [[], [t1], [t2], [t1, t2], [t2, t1]]

/-- A thread that has finished changes nothing. -/
theorem replay_order_snoc {order : List writers.Thread} (horder : order ∈ orders)
    (thread : writers.Thread) :
    ∃ next ∈ orders, (∀ other, other ∈ next ↔ other ∈ order ++ [thread]) ∧
      writers.replay (order ++ [thread]) = writers.replay next := by
  have hthread : thread = t1 ∨ thread = t2 := by
    obtain ⟨index, hindex⟩ := thread
    have hlt : index < 2 := hindex
    interval_cases index
    · exact .inl rfl
    · exact .inr rfl
  simp only [orders, List.mem_cons, List.not_mem_nil, or_false] at horder
  rcases horder with rfl | rfl | rfl | rfl | rfl <;> rcases hthread with rfl | rfl
  · exact ⟨[t1], by decide, by decide, rfl⟩
  · exact ⟨[t2], by decide, by decide, rfl⟩
  · exact ⟨[t1], by decide, by decide, rfl⟩
  · exact ⟨[t1, t2], by decide, by decide, rfl⟩
  · exact ⟨[t2, t1], by decide, by decide, rfl⟩
  · exact ⟨[t2], by decide, by decide, rfl⟩
  · exact ⟨[t1, t2], by decide, by decide, rfl⟩
  · exact ⟨[t1, t2], by decide, by decide, rfl⟩
  · exact ⟨[t2, t1], by decide, by decide, rfl⟩
  · exact ⟨[t2, t1], by decide, by decide, rfl⟩

theorem replay_orders (trace : List writers.Thread) :
    ∃ order ∈ orders, (∀ thread, thread ∈ order ↔ thread ∈ trace) ∧
      writers.replay trace = writers.replay order := by
  induction trace using List.reverseRecOn with
  | nil => exact ⟨[], by decide, fun _ => Iff.rfl, rfl⟩
  | append_singleton trace thread ih =>
      obtain ⟨order, horder, hmem, hreplay⟩ := ih
      obtain ⟨next, hnext, hmem', hreplay'⟩ := replay_order_snoc horder thread
      refine ⟨next, hnext, fun other => ?_, ?_⟩
      · rw [hmem', List.mem_append, List.mem_append, hmem]
      · rw [← hreplay', CheckedClass.replay_snoc, CheckedClass.replay_snoc, hreplay]

theorem execute_orders : ∀ order ∈ orders, (writers.execute order).isSome := by
  decide

theorem name_orders : ∀ left ∈ orders, ∀ right ∈ orders,
    (writers.execute left).map name = (writers.execute right).map name → left = right := by
  decide

/-- Traces whose states have one name have executed the same in the same order. -/
theorem order_of_name {left right : List writers.Thread}
    (hname : (writers.execute left).map name = (writers.execute right).map name) :
    (∀ thread, thread ∈ left ↔ thread ∈ right) ∧
      writers.replay left = writers.replay right := by
  obtain ⟨first, hfirst, hmem, hreplay⟩ := replay_orders left
  obtain ⟨second, hsecond, hmem', hreplay'⟩ := replay_orders right
  have hsame : first = second := by
    refine name_orders first hfirst second hsecond ?_
    simpa only [CheckedClass.execute, hreplay, hreplay'] using hname
  subst hsame
  exact ⟨fun thread => (hmem thread).symm.trans (hmem' thread),
    hreplay.trans hreplay'.symm⟩

theorem returns (trace : List writers.Thread) :
    ∃ state, writers.execute trace = some state := by
  obtain ⟨order, horder, -, hreplay⟩ := replay_orders trace
  have hsome := execute_orders order horder
  rw [CheckedClass.execute, ← hreplay] at hsome
  exact Option.isSome_iff_exists.mp hsome

theorem determined (left right : List writers.Thread) (thread : writers.Thread)
    (hsame : writers.execute left = writers.execute right) :
    writers.execute (left ++ [thread]) = writers.execute (right ++ [thread]) := by
  have hreplay := (order_of_name (congrArg (Option.map name) hsame)).2
  simp only [CheckedClass.execute, CheckedClass.replay_snoc, hreplay]

theorem names (left right : List writers.Thread) (state state' : writers.Record)
    (hleft : writers.execute left = some state)
    (hright : writers.execute right = some state') (hname : name state = name state') :
    state = state' := by
  have hsame : (writers.execute left).map name = (writers.execute right).map name := by
    rw [hleft, hright]
    exact congrArg some hname
  have hreplay := (order_of_name hsame).2
  rw [CheckedClass.execute, hreplay] at hleft
  exact Option.some.inj (hleft.symm.trans hright)

theorem finite : {state | ∃ trace, writers.execute trace = some state}.Finite := by
  refine ((List.finite_toSet (orders.map writers.execute)).preimage
    (Option.some_injective _).injOn).subset ?_
  rintro state ⟨trace, htrace⟩
  obtain ⟨order, horder, -, hreplay⟩ := replay_orders trace
  rw [CheckedClass.execute, hreplay] at htrace
  exact List.mem_map.mpr ⟨order, horder, htrace⟩

end Writers

/-- The search on the two writers finds the states that their orders lead to. -/
theorem checkBfs_writers :
    ∃ fuel result,
      checkBfs writers Writers.name fuel = some result ∧
        (result.vertices.map fun vertex => vertex.2.state).Nodup ∧
        ∀ state, state ∈ (result.vertices.map fun vertex => vertex.2.state) ↔
          ∃ trace, writers.execute trace = some state := by
  obtain ⟨fuel, result, hrun, hnodup, hcovers, -⟩ :=
    checkBfs_explores writers Writers.name Writers.returns Writers.determined Writers.names
      Writers.finite
  exact ⟨fuel, result, hrun, hnodup, hcovers⟩

end JyyOS.ModelChecker
