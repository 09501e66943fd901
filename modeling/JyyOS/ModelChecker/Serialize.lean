import JyyOS.Core.Substitution
import JyyOS.ModelChecker.Bfs
import JyyOS.ModelChecker.Reduce

/-!
# From `check_bfs` to what `visualize.py` reads back

`serialize` prints a call for every state and every transition, with the states
renamed to `s0`, `s1`, ...; `visualize.py` evaluates the lines again.  A line is
modelled by its call: the arguments are printed with `repr` and read with `eval`.
-/

namespace JyyOS.Visualize

/-! ## Reading -/

/-- A line of the output of the model checker. -/
inductive Line (Record Mark : Type) where
  | CLASS (cl : String)
  | STATE (u : String) (state : Record) (marks : List Mark)
  | TRANS (u v t : String)

structure Vertex (Record Mark : Type) where
  name : String
  state : Record
  marks : List Mark

/-- The named tuple `Edge`, with its two vertices. -/
structure Transition (Record Mark : Type) where
  name : String
  u : Vertex Record Mark
  v : Vertex Record Mark
  t : String

section Parse

variable {Record Mark : Type}

/-- What `reduce` looks at. -/
def Transition.edge (e : Transition Record Mark) : Edge := ⟨e.u.name, e.v.name, e.t⟩

/-- The globals that `parse_input` fills. -/
structure Input (Record Mark : Type) where
  hackedSrc : Option String
  vertices : List (String × Vertex Record Mark)
  edges : List (Transition Record Mark)
  threads : List String

def Input.empty : Input Record Mark := ⟨none, [], [], []⟩

/-- `dict[key] = value` -/
def assign {Value : Type} (dict : List (String × Value)) (key : String) (value : Value) :
    List (String × Value) :=
  if key ∈ dict.map Prod.fst then
    dict.map fun entry => if entry.1 = key then (key, value) else entry
  else dict ++ [(key, value)]

def STATE (input : Input Record Mark) (u : String) (state : Record) (marks : List Mark) :
    Input Record Mark :=
  { input with vertices := assign input.vertices u ⟨u, state, marks⟩ }

/-- `none` is a `KeyError`. -/
def TRANS (input : Input Record Mark) (u v t : String) : Option (Input Record Mark) := do
  let source ← input.vertices.lookup u
  let target ← input.vertices.lookup v
  some { input with
    edges := input.edges ++ [⟨u ++ "-" ++ v, source, target, t⟩]
    threads := if t ∉ input.threads then input.threads ++ [t] else input.threads }

def evalLine (input : Input Record Mark) : Line Record Mark → Option (Input Record Mark)
  | .CLASS cl => some { input with hackedSrc := some cl }
  | .STATE u state marks => some (STATE input u state marks)
  | .TRANS u v t => TRANS input u v t

def parseInput (lines : List (Line Record Mark)) : Option (Input Record Mark) :=
  lines.foldlM evalLine .empty

/-! ## Well-formed output is read back -/

def Vertex.line (v : Vertex Record Mark) : Line Record Mark := .STATE v.name v.state v.marks

/-- The transition that is read back for a source, a target and a thread. -/
def transition (u v : Vertex Record Mark) (t : String) : Transition Record Mark :=
  ⟨u.name ++ "-" ++ v.name, u, v, t⟩

def Transition.line (e : Transition Record Mark) : Line Record Mark :=
  .TRANS e.u.name e.v.name e.t

def Vertex.entry (v : Vertex Record Mark) : String × Vertex Record Mark := (v.name, v)

theorem assign_of_notMem {Value : Type} {dict : List (String × Value)} {key : String}
    (hnew : key ∉ dict.map Prod.fst) (value : Value) :
    assign dict key value = dict ++ [(key, value)] := by
  rw [assign, if_neg hnew]

theorem lookup_entries {vertices : List (Vertex Record Mark)}
    (hnames : (vertices.map Vertex.name).Nodup) {v : Vertex Record Mark} (hv : v ∈ vertices) :
    (vertices.map Vertex.entry).lookup v.name = some v := by
  refine Substitution.lookup_of_mem ?_ (List.mem_map_of_mem hv)
  rw [List.map_map]
  exact hnames

/-- A label in `threads` is a label of an edge. -/
theorem exists_of_mem_threads {edges : List Edge} {t : String} (ht : t ∈ threads edges) :
    ∃ e ∈ edges, e.t = t := by
  have hgeneral : ∀ (part : List Edge) (seen : List String),
      t ∈ part.foldl (fun seen e => if e.t ∉ seen then seen ++ [e.t] else seen) seen →
        t ∈ seen ∨ ∃ e ∈ part, e.t = t := by
    intro part
    induction part with
    | nil => exact fun seen ht => .inl ht
    | cons e part ih =>
        intro seen ht
        rcases ih _ ht with hseen | ⟨e', he', rfl⟩
        · dsimp only at hseen
          split at hseen
          · rcases List.mem_append.mp hseen with hold | hlast
            · exact .inl hold
            · exact .inr ⟨e, List.mem_cons_self, (List.mem_singleton.mp hlast).symm⟩
          · exact .inl hseen
        · exact .inr ⟨e', List.mem_cons_of_mem _ he', rfl⟩
  rcases hgeneral edges [] ht with hnil | hedge
  · cases hnil
  · exact hedge

theorem foldlM_states (vertices : List (Vertex Record Mark)) (input : Input Record Mark)
    (hnames : (input.vertices.map Prod.fst ++ vertices.map Vertex.name).Nodup) :
    (vertices.map Vertex.line).foldlM evalLine input =
      some { input with vertices := input.vertices ++ vertices.map Vertex.entry } := by
  induction vertices generalizing input with
  | nil => simp
  | cons v rest ih =>
      have hnew : v.name ∉ input.vertices.map Prod.fst := by
        intro hold
        exact (List.nodup_append'.mp hnames).2.2 hold (by simp)
      have hread : evalLine input v.line =
          some { input with vertices := input.vertices ++ [v.entry] } := by
        rw [Vertex.line, evalLine, STATE, assign_of_notMem hnew]
        rfl
      rw [List.map_cons, List.foldlM_cons, hread]
      refine (ih _ ?_).trans ?_
      · simpa [Vertex.entry] using hnames
      · simp

theorem foldlM_transitions (transitions : List (Transition Record Mark))
    (vertices : List (Vertex Record Mark)) (input : Input Record Mark)
    (hvertices : input.vertices = vertices.map Vertex.entry)
    (hnames : (vertices.map Vertex.name).Nodup)
    (hends : ∀ e ∈ transitions, e = transition e.u e.v e.t ∧ e.u ∈ vertices ∧ e.v ∈ vertices) :
    (transitions.map Transition.line).foldlM evalLine input =
      some { input with
        edges := input.edges ++ transitions
        threads := (transitions.map Transition.edge).foldl
          (fun seen e => if e.t ∉ seen then seen ++ [e.t] else seen) input.threads } := by
  induction transitions generalizing input with
  | nil => simp
  | cons e rest ih =>
      obtain ⟨hname, hu, hv⟩ := hends e List.mem_cons_self
      have hread : evalLine input e.line = some { input with
          edges := input.edges ++ [e]
          threads := if e.t ∉ input.threads then input.threads ++ [e.t]
            else input.threads } := by
        have hsame : (⟨e.u.name ++ "-" ++ e.v.name, e.u, e.v, e.t⟩ : Transition Record Mark) = e :=
          hname.symm
        simp only [Transition.line, evalLine, TRANS, hvertices, lookup_entries hnames hu,
          lookup_entries hnames hv, Option.bind_eq_bind, Option.bind_some, hsame]
      rw [List.map_cons, List.foldlM_cons, hread]
      refine Eq.trans (ih _ hvertices fun e' he' => hends e' (List.mem_cons_of_mem _ he')) ?_
      simp [Transition.edge]

/-- Lines with different vertex names that only join vertices they name are read back. -/
theorem parseInput_lines (cl : String) {vertices : List (Vertex Record Mark)}
    {transitions : List (Transition Record Mark)} (hnames : (vertices.map Vertex.name).Nodup)
    (hends : ∀ e ∈ transitions, e = transition e.u e.v e.t ∧ e.u ∈ vertices ∧ e.v ∈ vertices) :
    parseInput (.CLASS cl :: (vertices.map Vertex.line ++ transitions.map Transition.line)) =
      some ⟨some cl, vertices.map Vertex.entry, transitions,
        threads (transitions.map Transition.edge)⟩ := by
  have hstates := foldlM_states vertices (⟨some cl, [], [], []⟩ : Input Record Mark) hnames
  rw [parseInput, List.foldlM_cons]
  refine (List.foldlM_append).trans ?_
  refine (congrArg (· >>= _) hstates).trans ?_
  exact foldlM_transitions transitions vertices _ rfl hnames hends

end Parse

end JyyOS.Visualize

namespace JyyOS.ModelChecker

open JyyOS.Visualize (Line Vertex Transition Input parseInput transition parseInput_lines)
open JyyOS.WordSearch (Node Search Explored)

/-! ## Printing -/

/-- `f's{n}'` -/
def label (n : ℕ) : String := "s" ++ toString n

/-- `name` of `serialize`, with the dictionary `sid` afterwards. -/
def name (sid : List (String × ℕ)) (key : String) : List (String × ℕ) × String :=
  match sid.lookup key with
  | some n => (sid, label n)
  | none => (sid ++ [(key, sid.length)], label sid.length)

section Serialize

variable {Class : CheckedClass} {Mark : Type}

/-- `mk`; a marker is `none` where its value is false. -/
def marks (markers : List (Class.Obj → Class.Record → Option Mark)) (u : State Class) :
    List Mark :=
  markers.filterMap fun f =>
    (Class.replay u.trace).bind fun machine => f machine.obj u.state

/-- The dictionary `sid` and the lines printed so far. -/
structure Printed (Class : CheckedClass) (Mark : Type) where
  sid : List (String × ℕ)
  lines : List (Line Class.Record Mark)

def printState (markers : List (Class.Obj → Class.Record → Option Mark))
    (printed : Printed Class Mark) (u : State Class) : Printed Class Mark :=
  let (sid, text) := name printed.sid u.name
  ⟨sid, printed.lines ++ [.STATE text u.state (marks markers u)]⟩

def printTrans (printed : Printed Class Mark) (edge : State Class × State Class × Class.Thread) :
    Printed Class Mark :=
  let (sid, u) := name printed.sid edge.1.name
  let (sid, v) := name sid edge.2.1.name
  ⟨sid, printed.lines ++ [.TRANS u v (Class.threadName edge.2.2)]⟩

def serialize (hackedSrc : String) (markers : List (Class.Obj → Class.Record → Option Mark))
    (s0 : State Class) (bfs : Bfs Class) : List (Line Class.Record Mark) :=
  let states := (bfs.vertices.map Prod.snd).foldl (printState markers)
    ⟨[(s0.name, 0)], [.CLASS hackedSrc]⟩
  (bfs.edges.foldl printTrans states).lines

/-- All that `check_bfs` prints. -/
def checkBfsLines (Class : CheckedClass) (hash : Class.Record → String) (hackedSrc : String)
    (markers : List (Class.Obj → Class.Record → Option Mark)) (fuel : ℕ) :
    Option (List (Line Class.Record Mark)) := do
  let s0 ← State.make Class hash []
  let bfs ← checkBfs Class hash fuel
  some (serialize hackedSrc markers s0 bfs)

/-! ## The names -/

theorem toList_label (n : ℕ) : (label n).toList = 's' :: Nat.toDigits 10 n := by
  simp [label]

theorem label_injective : Function.Injective label := by
  intro m n hsame
  have hdigits : Nat.toDigits 10 m = Nat.toDigits 10 n := by
    have hlists := congrArg String.toList hsame
    simpa only [toList_label, List.cons.injEq, true_and] using hlists
  calc m = Nat.ofDigitChars 10 (Nat.toDigits 10 m) 0 := Nat.ofDigitChars_ten_toDigits.symm
    _ = Nat.ofDigitChars 10 (Nat.toDigits 10 n) 0 := by rw [hdigits]
    _ = n := Nat.ofDigitChars_ten_toDigits

theorem label_dash_inj {m n : ℕ} {left right : String}
    (hsame : label m ++ "-" ++ left = label n ++ "-" ++ right) : m = n ∧ left = right := by
  have hdash : ∀ k : ℕ, ∀ c ∈ 's' :: Nat.toDigits 10 k, (c != '-') = true := by
    intro k c hc
    rcases List.mem_cons.mp hc with rfl | hdigit
    · decide
    · have hisDigit := Nat.isDigit_of_mem_toDigits (by decide) (by decide) hdigit
      rw [bne_iff_ne]
      rintro rfl
      exact absurd hisDigit (by decide)
  have hcut : ∀ (k : ℕ) (text : String),
      (label k ++ "-" ++ text).toList.takeWhile (· != '-') = (label k).toList := by
    intro k text
    rw [String.toList_append, String.toList_append, toList_label, List.append_assoc,
      List.takeWhile_append_of_pos (hdash k)]
    simp
  have hlabel : label m = label n := by
    have hheads := congrArg (fun text : String => text.toList.takeWhile (· != '-')) hsame
    exact String.toList_injective (by simpa only [hcut] using hheads)
  rw [hlabel] at hsame
  exact ⟨label_injective hlabel, by simpa [String.append_assoc] using hsame⟩

/-- Every key has the number of the place at which it came in. -/
def Numbered (sid : List (String × ℕ)) : Prop := sid.map Prod.snd = List.range sid.length

def labelOf (sid : List (String × ℕ)) (key : String) : String :=
  label ((sid.lookup key).getD 0)

theorem Numbered.getElem?_of_lookup {sid : List (String × ℕ)} (hnumbered : Numbered sid)
    {key : String} {n : ℕ} (hkey : sid.lookup key = some n) : sid[n]? = some (key, n) := by
  have hmem : (key, n) ∈ sid := by
    obtain ⟨before, behind, rfl, -⟩ := List.lookup_eq_some_iff.mp hkey
    simp
  obtain ⟨i, hi, hentry⟩ := List.getElem_of_mem hmem
  have hplace : (sid.map Prod.snd)[i]? = (List.range sid.length)[i]? := by rw [hnumbered]
  rw [List.getElem?_map, List.getElem?_eq_getElem hi, hentry, List.getElem?_range hi] at hplace
  have hn : n = i := Option.some.inj hplace
  rw [hn, List.getElem?_eq_getElem hi, hentry, hn]

/-- Two keys of one name are one key. -/
theorem Numbered.labelOf_inj {sid : List (String × ℕ)} (hnumbered : Numbered sid)
    {left right : String} (hleft : (sid.lookup left).isSome) (hright : (sid.lookup right).isSome)
    (hsame : labelOf sid left = labelOf sid right) : left = right := by
  obtain ⟨m, hm⟩ := Option.isSome_iff_exists.mp hleft
  obtain ⟨n, hn⟩ := Option.isSome_iff_exists.mp hright
  rw [labelOf, labelOf, hm, hn] at hsame
  obtain rfl : m = n := label_injective hsame
  have hentry := (hnumbered.getElem?_of_lookup hm).symm.trans (hnumbered.getElem?_of_lookup hn)
  exact congrArg Prod.fst (Option.some.inj hentry)

theorem lookup_extend {sid sid' : List (String × ℕ)} (hle : sid <+: sid') {key : String}
    (hkey : (sid.lookup key).isSome) : sid'.lookup key = sid.lookup key := by
  obtain ⟨n, hn⟩ := Option.isSome_iff_exists.mp hkey
  rw [hn]
  exact hle.lookup_eq_some hn

theorem labelOf_extend {sid sid' : List (String × ℕ)} (hle : sid <+: sid') {key : String}
    (hkey : (sid.lookup key).isSome) : labelOf sid' key = labelOf sid key := by
  rw [labelOf, labelOf, lookup_extend hle hkey]

/-- `name` gives a number to a key that has none, and never changes one. -/
theorem name_spec {sid : List (String × ℕ)} (hnumbered : Numbered sid) (key : String) :
    ∃ sid', name sid key = (sid', labelOf sid' key) ∧ sid <+: sid' ∧ Numbered sid' ∧
      (sid'.lookup key).isSome := by
  cases hkey : sid.lookup key with
  | some n =>
      refine ⟨sid, ?_, List.prefix_rfl, hnumbered, by simp [hkey]⟩
      simp [name, labelOf, hkey]
  | none =>
      have hlookup : (sid ++ [(key, sid.length)]).lookup key = some sid.length := by
        rw [List.lookup_append, hkey]
        simp
      refine ⟨sid ++ [(key, sid.length)], ?_, List.prefix_append _ _, ?_, by simp [hlookup]⟩
      · simp [name, labelOf, hkey, hlookup]
      · simp [Numbered, List.range_succ, hnumbered.symm]

theorem name_of_known {sid : List (String × ℕ)} {key : String}
    (hkey : (sid.lookup key).isSome) : name sid key = (sid, labelOf sid key) := by
  obtain ⟨n, hn⟩ := Option.isSome_iff_exists.mp hkey
  simp [name, labelOf, hn]

/-- What is read back for a state. -/
def vertexOf (markers : List (Class.Obj → Class.Record → Option Mark))
    (sid : List (String × ℕ)) (u : State Class) : Vertex Class.Record Mark :=
  ⟨labelOf sid u.name, u.state, marks markers u⟩

theorem foldl_printState (markers : List (Class.Obj → Class.Record → Option Mark))
    (states : List (State Class)) (printed : Printed Class Mark)
    (hnumbered : Numbered printed.sid) :
    ∃ sid, states.foldl (printState markers) printed =
        ⟨sid, printed.lines ++ (states.map (vertexOf markers sid)).map Vertex.line⟩ ∧
      printed.sid <+: sid ∧ Numbered sid ∧ ∀ u ∈ states, (sid.lookup u.name).isSome := by
  induction states generalizing printed with
  | nil => exact ⟨printed.sid, by simp, List.prefix_rfl, hnumbered, by simp⟩
  | cons u rest ih =>
      obtain ⟨sid, hname, hle, hnumbered', hknown⟩ := name_spec hnumbered u.name
      have hprint : printState markers printed u =
          ⟨sid, printed.lines ++ [.STATE (labelOf sid u.name) u.state (marks markers u)]⟩ := by
        simp only [printState, hname]
      rw [List.foldl_cons, hprint]
      obtain ⟨last, hfold, hle', hnumbered'', hrest⟩ := ih
        ⟨sid, printed.lines ++ [.STATE (labelOf sid u.name) u.state (marks markers u)]⟩ hnumbered'
      have hlabel : labelOf last u.name = labelOf sid u.name := labelOf_extend hle' hknown
      refine ⟨last, ?_, hle.trans hle', hnumbered'', ?_⟩
      · rw [hfold]
        simp [vertexOf, Vertex.line, hlabel]
      · intro w hw
        rcases List.mem_cons.mp hw with rfl | hlater
        · rw [lookup_extend hle' hknown]
          exact hknown
        · exact hrest w hlater

/-- Once all states have names, a transition only reads them. -/
theorem foldl_printTrans (edges : List (State Class × State Class × Class.Thread))
    (printed : Printed Class Mark)
    (hknown : ∀ edge ∈ edges, (printed.sid.lookup edge.1.name).isSome ∧
      (printed.sid.lookup edge.2.1.name).isSome) :
    edges.foldl printTrans printed =
      ⟨printed.sid, printed.lines ++ edges.map fun edge =>
        .TRANS (labelOf printed.sid edge.1.name) (labelOf printed.sid edge.2.1.name)
          (Class.threadName edge.2.2)⟩ := by
  induction edges generalizing printed with
  | nil => simp
  | cons edge rest ih =>
      obtain ⟨hu, hv⟩ := hknown edge List.mem_cons_self
      have hprint : printTrans printed edge = ⟨printed.sid, printed.lines ++
          [.TRANS (labelOf printed.sid edge.1.name) (labelOf printed.sid edge.2.1.name)
            (Class.threadName edge.2.2)]⟩ := by
        simp only [printTrans, name_of_known hu, name_of_known hv]
      rw [List.foldl_cons, hprint]
      refine Eq.trans (ih ⟨printed.sid, _⟩ fun later hlater =>
        hknown later (List.mem_cons_of_mem _ hlater)) ?_
      simp

/-- The states are renamed one to one, the first to `s0`, and the transitions join the
new names. -/
theorem serialize_eq (hackedSrc : String)
    (markers : List (Class.Obj → Class.Record → Option Mark)) (s0 : State Class) (bfs : Bfs Class)
    (hknown : ∀ edge ∈ bfs.edges, ∀ u, u = edge.1 ∨ u = edge.2.1 →
      u.name ∈ bfs.vertices.map fun vertex => vertex.2.name) :
    ∃ sid, Numbered sid ∧ sid.lookup s0.name = some 0 ∧
      (∀ name ∈ bfs.vertices.map fun vertex => vertex.2.name, (sid.lookup name).isSome) ∧
      serialize hackedSrc markers s0 bfs = .CLASS hackedSrc ::
        (((bfs.vertices.map Prod.snd).map (vertexOf markers sid)).map Vertex.line ++
          bfs.edges.map fun edge =>
            .TRANS (labelOf sid edge.1.name) (labelOf sid edge.2.1.name)
              (Class.threadName edge.2.2)) := by
  obtain ⟨sid, hfold, hle, hnumbered, hstates⟩ :=
    foldl_printState markers (bfs.vertices.map Prod.snd)
      ⟨[(s0.name, 0)], [.CLASS hackedSrc]⟩ rfl
  have hnames : ∀ name ∈ bfs.vertices.map fun vertex => vertex.2.name,
      (sid.lookup name).isSome := by
    intro name hname
    obtain ⟨vertex, hvertex, rfl⟩ := List.mem_map.mp hname
    exact hstates vertex.2 (List.mem_map_of_mem hvertex)
  refine ⟨sid, hnumbered, hle.lookup_eq_some (by simp), hnames, ?_⟩
  rw [serialize, hfold, foldl_printTrans]
  · simp
  · intro edge hedge
    exact ⟨hnames _ (hknown edge hedge _ (.inl rfl)), hnames _ (hknown edge hedge _ (.inr rfl))⟩

/-! ## The graph that is read back -/

/-- What lets `check_bfs` find every reachable state. -/
structure Explorable (Class : CheckedClass) (hash : Class.Record → String) : Prop where
  returns : ∀ trace, ∃ state, Class.execute trace = some state
  determined : ∀ left right thread, Class.execute left = Class.execute right →
    Class.execute (left ++ [thread]) = Class.execute (right ++ [thread])
  names : ∀ left right state state', Class.execute left = some state →
    Class.execute right = some state' → hash state = hash state' → state = state'
  finite : {state | ∃ trace, Class.execute trace = some state}.Finite

/-- The vertices are the reachable states, each under a name of its own, and the
transitions are the steps between them. -/
structure StateGraph (markers : List (Class.Obj → Class.Record → Option Mark))
    (input : Input Class.Record Mark) : Prop where
  keys : ∀ entry ∈ input.vertices, entry.2.name = entry.1
  labelled : ∀ entry ∈ input.vertices, ∃ n, entry.1 = label n
  names_nodup : (input.vertices.map Prod.fst).Nodup
  start : ∃ v, ("s0", v) ∈ input.vertices ∧ Class.execute [] = some v.state
  states_nodup : (input.vertices.map fun entry => entry.2.state).Nodup
  covers : ∀ state, state ∈ (input.vertices.map fun entry => entry.2.state) ↔
    ∃ trace, Class.execute trace = some state
  marked : ∀ entry ∈ input.vertices, ∃ trace machine, Class.replay trace = some machine ∧
    Class.record machine = entry.2.state ∧
      entry.2.marks = markers.filterMap fun f => f machine.obj entry.2.state
  mem_edges_iff : ∀ u v t, transition u v t ∈ input.edges ↔
    u.entry ∈ input.vertices ∧ v.entry ∈ input.vertices ∧
      ∃ trace thread, Class.threadName thread = t ∧ Class.execute trace = some u.state ∧
        Class.execute (trace ++ [thread]) = some v.state
  edges_named : ∀ e ∈ input.edges, e = transition e.u e.v e.t
  mem_threads : ∀ t, t ∈ input.threads ↔ t ∈ Class.threads

/-- The vertex of a found node. -/
def vertexAt (hash : Class.Record → String)
    (markers : List (Class.Obj → Class.Record → Option Mark)) (sid : List (String × ℕ))
    (node : Node Class.Thread Class.Record) : Vertex Class.Record Mark :=
  vertexOf markers sid (toState hash node)

/-- The transitions that are read back, when `found` has for every trace the node with the
same state. -/
def drawn (hash : Class.Record → String)
    (markers : List (Class.Obj → Class.Record → Option Mark)) (sid : List (String × ℕ))
    (found : List Class.Thread → Node Class.Thread Class.Record)
    (nodes : List (Node Class.Thread Class.Record)) : List (Transition Class.Record Mark) :=
  nodes.flatMap fun node => (List.finRange Class.threads.length).map fun thread =>
    transition (vertexAt hash markers sid node)
      (vertexAt hash markers sid (found (node.word ++ [thread]))) (Class.threadName thread)

section ReadBack

variable {hash : Class.Record → String} {eval : List Class.Thread → Class.Record}
variable {search : Search Class.Thread Class.Record}
variable (hexplored : Explored eval (List.finRange Class.threads.length) search)
variable {found : List Class.Thread → Node Class.Thread Class.Record}
variable (hfound : ∀ trace, found trace ∈ search.found ∧ (found trace).state = eval trace)
variable (markers : List (Class.Obj → Class.Record → Option Mark))
variable {sid : List (String × ℕ)}

include hexplored hfound in
/-- Every edge of the search joins two vertices by their names. -/
theorem toBfs_edges_known : ∀ edge ∈ (toBfs hash search).edges, ∀ u, u = edge.1 ∨ u = edge.2.1 →
    u.name ∈ (toBfs hash search).vertices.map fun vertex => vertex.2.name := by
  intro edge hedge u hu
  have hvertices : ((toBfs hash search).vertices.map fun vertex => vertex.2.name) =
      search.found.map fun node => hash node.state := by
    simp [toBfs, toState]
  obtain ⟨⟨node, target, thread⟩, hmem, rfl⟩ := List.mem_map.mp hedge
  rw [hexplored.edges] at hmem
  obtain ⟨node', hnode, hedge'⟩ := List.mem_flatMap.mp hmem
  obtain ⟨thread', -, heq⟩ := List.mem_map.mp hedge'
  cases heq
  rw [hvertices]
  rcases hu with rfl | rfl
  · exact List.mem_map_of_mem hnode
  · obtain ⟨htarget, hstate⟩ := hfound (node.word ++ [thread])
    have hname := List.mem_map_of_mem (f := fun node => hash node.state) htarget
    rw [hstate] at hname
    exact hname

include hexplored hfound in
theorem map_line_drawn : (drawn hash markers sid found search.found).map Transition.line =
    (toBfs hash search).edges.map fun edge =>
      (.TRANS (labelOf sid edge.1.name) (labelOf sid edge.2.1.name)
        (Class.threadName edge.2.2) : Line Class.Record Mark) := by
  have hname : ∀ trace, hash (found trace).state = hash (eval trace) :=
    fun trace => congrArg hash (hfound trace).2
  simp only [drawn, toBfs, hexplored.edges, List.map_flatMap, List.map_map]
  refine List.flatMap_congr fun node _ => ?_
  rw [WordSearch.edgesOf, List.map_map]
  refine List.map_congr_left fun thread _ => ?_
  simp [Transition.line, transition, vertexAt, vertexOf, toState, hname, WordSearch.node]

include hexplored hfound in
/-- The vertices of the found nodes and the transitions between them are the state graph. -/
theorem stateGraph_drawn (hexecute : ∀ trace, Class.execute trace = some (eval trace))
    (hact : ∀ left right thread, eval left = eval right →
      eval (left ++ [thread]) = eval (right ++ [thread]))
    (hnames : ((search.found.map (vertexAt hash markers sid)).map Vertex.name).Nodup)
    (hstart : labelOf sid (hash (eval [])) = "s0") (cl : Option String) :
    StateGraph markers ⟨cl, (search.found.map (vertexAt hash markers sid)).map Vertex.entry,
      drawn hash markers sid found search.found,
      Visualize.threads ((drawn hash markers sid found search.found).map Transition.edge)⟩ := by
  have hstates : (((search.found.map (vertexAt hash markers sid)).map Vertex.entry).map
      fun entry => entry.2.state) = search.found.map Node.state := by
    simp [Vertex.entry, vertexAt, vertexOf, toState]
  have hmem : ∀ v : Vertex Class.Record Mark,
      v.entry ∈ (search.found.map (vertexAt hash markers sid)).map Vertex.entry ↔
        ∃ node ∈ search.found, vertexAt hash markers sid node = v := by
    intro v
    rw [List.mem_map_of_injective (fun left right hsame => congrArg Prod.snd hsame),
      List.mem_map]
  -- Nodes with one state are one node.
  have hunique : ∀ left ∈ search.found, ∀ right ∈ search.found,
      left.state = right.state → left = right :=
    fun left hleft right hright hsame =>
      List.inj_on_of_nodup_map hexplored.nodup hleft hright hsame
  have hdrawn : ∀ e, e ∈ drawn hash markers sid found search.found ↔
      ∃ node ∈ search.found, ∃ thread, transition (vertexAt hash markers sid node)
        (vertexAt hash markers sid (found (node.word ++ [thread])))
          (Class.threadName thread) = e := by
    intro e
    simp [drawn]
  refine ⟨?_, ?_, ?_, ?_, ?_, ?_, ?_, ?_, ?_, ?_⟩
  · intro entry hentry
    obtain ⟨v, -, rfl⟩ := List.mem_map.mp hentry
    rfl
  · intro entry hentry
    obtain ⟨v, hv, rfl⟩ := List.mem_map.mp hentry
    obtain ⟨node, -, rfl⟩ := List.mem_map.mp hv
    exact ⟨_, rfl⟩
  · rw [List.map_map]
    exact hnames
  · refine ⟨vertexAt hash markers sid (found []), ?_, ?_⟩
    · have hname : (vertexAt hash markers sid (found [])).name = "s0" := by
        rw [← hstart, ← (hfound []).2]
        rfl
      rw [← hname]
      exact (hmem _).mpr ⟨found [], (hfound []).1, rfl⟩
    · rw [hexecute, ← (hfound []).2]
      rfl
  · rw [hstates]
    exact hexplored.nodup
  · intro state
    rw [hstates, hexplored.covers]
    simp only [hexecute, Option.some.injEq]
  · intro entry hentry
    obtain ⟨v, hv, rfl⟩ := List.mem_map.mp hentry
    obtain ⟨node, hnode, rfl⟩ := List.mem_map.mp hv
    have hstate : Class.execute node.word = some node.state := by
      rw [hexecute, hexplored.evaluated node hnode]
    obtain ⟨machine, hreplay, hrecord⟩ := Option.map_eq_some_iff.mp hstate
    refine ⟨node.word, machine, hreplay, hrecord, ?_⟩
    simp [Vertex.entry, vertexAt, vertexOf, toState, marks, hreplay]
  · intro u v t
    rw [hdrawn, hmem, hmem]
    constructor
    · rintro ⟨node, hnode, thread, heq⟩
      obtain rfl : vertexAt hash markers sid node = u := congrArg Transition.u heq
      obtain rfl : vertexAt hash markers sid (found (node.word ++ [thread])) = v :=
        congrArg Transition.v heq
      obtain rfl : Class.threadName thread = t := congrArg Transition.t heq
      have htarget := hfound (node.word ++ [thread])
      refine ⟨⟨node, hnode, rfl⟩, ⟨_, htarget.1, rfl⟩, node.word, thread, rfl, ?_, ?_⟩
      · rw [hexecute, hexplored.evaluated node hnode]
        rfl
      · rw [hexecute, ← htarget.2]
        rfl
    · rintro ⟨⟨node, hnode, rfl⟩, ⟨target, htarget, rfl⟩, trace, thread, rfl, hu, hv⟩
      rw [hexecute, Option.some.injEq] at hu hv
      have hsame : eval (node.word ++ [thread]) = eval (trace ++ [thread]) :=
        hact _ _ thread ((hexplored.evaluated node hnode).trans hu.symm)
      have hnext : found (node.word ++ [thread]) = target :=
        hunique _ (hfound _).1 _ htarget ((hfound _).2.trans (hsame.trans hv))
      exact ⟨node, hnode, thread, by rw [hnext]⟩
  · intro e he
    obtain ⟨node, -, thread, rfl⟩ := (hdrawn e).mp he
    rfl
  · intro t
    constructor
    · intro ht
      obtain ⟨e, he, rfl⟩ := Visualize.exists_of_mem_threads ht
      obtain ⟨e, he', rfl⟩ := List.mem_map.mp he
      obtain ⟨node, -, thread, rfl⟩ := (hdrawn e).mp he'
      exact List.get_mem _ _
    · intro ht
      obtain ⟨k, hk, rfl⟩ := List.getElem_of_mem ht
      have he := (hdrawn _).mpr ⟨found [], (hfound []).1, ⟨k, hk⟩, rfl⟩
      exact Visualize.mem_threads (List.mem_map_of_mem (f := Transition.edge) he)

end ReadBack

/-- What `visualize.py` reads from the output of `check_bfs` is the graph of the reachable
states, with `s0` for the first. -/
theorem exists_stateGraph {hash : Class.Record → String} (hexplorable : Explorable Class hash)
    (hackedSrc : String) (markers : List (Class.Obj → Class.Record → Option Mark)) :
    ∃ fuel lines input, checkBfsLines Class hash hackedSrc markers fuel = some lines ∧
      parseInput lines = some input ∧ input.hackedSrc = some hackedSrc ∧
      input.threads = Visualize.threads (input.edges.map Transition.edge) ∧
      StateGraph markers input := by
  classical
  choose eval hexecute using hexplorable.returns
  have hact : ∀ left right thread, eval left = eval right →
      eval (left ++ [thread]) = eval (right ++ [thread]) := by
    intro left right thread hsame
    have hnext := hexplorable.determined left right thread (by rw [hexecute, hexecute, hsame])
    rw [hexecute, hexecute] at hnext
    exact Option.some.inj hnext
  have hkey : ∀ left right, hash (eval left) = hash (eval right) → eval left = eval right :=
    fun left right => hexplorable.names left right _ _ (hexecute left) (hexecute right)
  have hrange : (Set.range eval).Finite := by
    apply hexplorable.finite.subset
    rintro _ ⟨trace, rfl⟩
    exact ⟨trace, hexecute trace⟩
  obtain ⟨fuel, search, hrun, hexplored⟩ :=
    WordSearch.exists_explored hact hkey (fun thread => List.mem_finRange thread) hrange
  have hsome : ∀ trace, ∃ node ∈ search.found, node.state = eval trace := fun trace =>
    List.mem_map.mp ((hexplored.covers _).mpr ⟨trace, rfl⟩)
  choose found hfound using hsome
  let s0 : State Class := toState hash (WordSearch.node eval [])
  obtain ⟨sid, hnumbered, hroot, hknown, hlines⟩ := serialize_eq hackedSrc markers s0
    (toBfs hash search) (toBfs_edges_known hexplored hfound)
  rw [← map_line_drawn hexplored hfound markers] at hlines
  have hvertices : ((toBfs hash search).vertices.map Prod.snd).map (vertexOf markers sid) =
      search.found.map (vertexAt hash markers sid) := by
    simp [toBfs, vertexAt, Function.comp_def]
  rw [hvertices] at hlines
  -- Nodes with one name have one state.
  have hnames : ((search.found.map (vertexAt hash markers sid)).map Vertex.name).Nodup := by
    rw [List.map_map]
    refine (List.nodup_map_iff_inj_on (List.Nodup.of_map _ hexplored.nodup)).mpr ?_
    intro left hleft right hright hsame
    have hin : ∀ node ∈ search.found, (sid.lookup (hash node.state)).isSome := by
      intro node hnode
      refine hknown _ ?_
      simp only [toBfs, List.map_map]
      exact List.mem_map.mpr ⟨node, hnode, rfl⟩
    have hhash := hnumbered.labelOf_inj (hin left hleft) (hin right hright) hsame
    refine List.inj_on_of_nodup_map hexplored.nodup hleft hright ?_
    rw [← hexplored.evaluated left hleft, ← hexplored.evaluated right hright] at hhash ⊢
    exact hkey _ _ hhash
  have hstart : labelOf sid (hash (eval [])) = "s0" := by
    have hlookup : sid.lookup (hash (eval [])) = some 0 := hroot
    rw [labelOf, hlookup]
    rfl
  refine ⟨fuel, _, _, ?_, Eq.trans (congrArg parseInput hlines)
    (Visualize.parseInput_lines hackedSrc hnames ?_), rfl, rfl,
    stateGraph_drawn hexplored hfound markers hexecute hact hnames hstart _⟩
  · rw [checkBfsLines, make_eq hash hexecute, checkBfs_eq hash hexecute, hrun]
    rfl
  · intro e he
    obtain ⟨node, hnode, hedge⟩ := List.mem_flatMap.mp he
    obtain ⟨thread, -, rfl⟩ := List.mem_map.mp hedge
    exact ⟨rfl, List.mem_map_of_mem hnode, List.mem_map_of_mem (hfound _).1⟩

end Serialize

end JyyOS.ModelChecker
