import JyyOS.ModelChecker.Serialize

/-!
# What `visualize.py --tree` and `--reduce` draw

Along the edges of the tree every vertex has exactly one path from `s0`, and the
threads on it are a trace to the state of the vertex.  `--reduce` adds the edges that
close a cycle.
-/

namespace JyyOS.Visualize

/-! ## The code after the loop of `reduce` -/

def Edge.name (e : Edge) : String := e.u ++ "-" ++ e.v

/-- `filter(lambda e1: e1.v.name == u.name, edges).__next__()`, `none` for
`StopIteration`. -/
def firstInto (edges : List Edge) (u : String) : Option Edge := edges.find? (·.v = u)

/-- Whether an edge is put into `others`, `none` for an exception. -/
def isOther (edges : List Edge) (st : Forest) (e : Edge) : Option Bool :=
  if e.name ∈ st.tree.map Edge.name then some false
  else do
    let w ← firstInto edges e.u
    let leaf ← st.leaf e.u
    if leaf && w.t == e.t then some true
    else do
      let du ← st.depth e.u
      let dv ← st.depth e.v
      some (decide (du ≥ dv))

def addOther (edges : List Edge) (st : Forest) (others : List Edge) (e : Edge) :
    Option (List Edge) := do
  if ← isOther edges st e then some (others ++ [e]) else some others

def reduceAll (fuel : ℕ) (edges : List Edge) (treeOnly : Bool) :
    Option (List Edge × List Edge) := do
  let st ← reduce fuel edges
  let others ← if treeOnly then some [] else edges.foldlM (addOther edges st) []
  some (st.tree, others)

/-! ## Paths in the tree -/

/-- A path of tree edges from `s0`. -/
inductive Path (tree : List Edge) : List Edge → String → Prop where
  | root : Path tree [] "s0"
  | snoc {path : List Edge} {e : Edge} : Path tree path e.u → e ∈ tree → Path tree (path ++ [e]) e.v

section Path

variable {edges : List Edge} {st : Forest}

theorem Grown.exists_path (hgrown : Grown edges st) (d : ℕ) {v : String}
    (hv : st.depth v = some d) : ∃ path, Path st.tree path v := by
  induction d using Nat.strong_induction_on generalizing v with
  | _ d ih =>
      by_cases hroot : v = "s0"
      · exact ⟨[], hroot ▸ .root⟩
      · obtain ⟨e, he, rfl⟩ := List.mem_map.mp ((hgrown.targets v).mpr ⟨by simp [hv], hroot⟩)
        obtain ⟨du, hdu, hdv⟩ := hgrown.depths e he
        have hlt : du < d := by
          have hsame : du + 1 = d := Option.some.inj (hdv.symm.trans hv)
          omega
        obtain ⟨path, hpath⟩ := ih du hlt hdu
        exact ⟨path ++ [e], hpath.snoc he⟩

theorem Grown.path_unique (hgrown : Grown edges st) {left right : List Edge} {v : String}
    (hleft : Path st.tree left v) (hright : Path st.tree right v) : left = right := by
  have hroot : ∀ e ∈ st.tree, e.v ≠ "s0" := fun e he =>
    ((hgrown.targets e.v).mp (List.mem_map_of_mem he)).2
  induction hleft generalizing right with
  | root =>
      generalize hend : "s0" = v at hright
      cases hright with
      | root => rfl
      | snoc _ he => exact absurd hend.symm (hroot _ he)
  | @snoc path e _ he ih =>
      generalize hend : e.v = v at hright
      cases hright with
      | root => exact absurd hend (hroot e he)
      | snoc hpath' he' =>
          obtain rfl := List.inj_on_of_nodup_map hgrown.nodup he he' hend
          rw [ih hpath']

theorem Grown.existsUnique_path (hgrown : Grown edges st) {v : String}
    (hv : (st.depth v).isSome) : ∃! path, Path st.tree path v := by
  obtain ⟨d, hd⟩ := Option.isSome_iff_exists.mp hv
  obtain ⟨path, hpath⟩ := hgrown.exists_path d hd
  exact ⟨path, hpath, fun other hother => hgrown.path_unique hother hpath⟩

end Path

/-! ## The other edges -/

section Others

variable {edges : List Edge} {st : Forest}

/-- The loop over `edges` fails if one edge does, and otherwise filters them. -/
theorem foldlM_addOther {part : List Edge} (others : List Edge)
    (hreturns : ∀ e ∈ part, (isOther edges st e).isSome) :
    part.foldlM (addOther edges st) others =
      some (others ++ part.filter fun e => isOther edges st e = some true) := by
  induction part generalizing others with
  | nil => simp
  | cons e part ih =>
      have hrest := fun e' he' => hreturns e' (List.mem_cons_of_mem _ he')
      obtain ⟨other, hother⟩ :=
        Option.isSome_iff_exists.mp (hreturns e List.mem_cons_self)
      rw [List.foldlM_cons, addOther, hother]
      cases other with
      | true => simpa [hother] using ih (others ++ [e]) hrest
      | false => simpa [hother] using ih others hrest

/-- When the tree spans what can be reached, an edge that does not start there, or that
starts at a vertex without an edge into it, raises an exception. -/
theorem isOther_isSome_iff (hgrown : Grown edges st)
    (hclosed : ∀ e ∈ edges, (st.depth e.u).isSome → (st.depth e.v).isSome)
    {e : Edge} (he : e ∈ edges) :
    (isOther edges st e).isSome ↔ e.name ∈ st.tree.map Edge.name ∨
      (st.depth e.u).isSome ∧ ∃ w ∈ edges, w.v = e.u := by
  unfold isOther
  by_cases hname : e.name ∈ st.tree.map Edge.name
  · simp [hname]
  · rw [if_neg hname]
    simp only [hname, false_or]
    cases hw : firstInto edges e.u with
    | none =>
        have hnone : ¬ ∃ w ∈ edges, w.v = e.u := by
          rintro ⟨w, hw', hinto⟩
          exact absurd (List.find?_eq_none.mp hw w hw') (by simpa using hinto)
        simp [hnone]
    | some w =>
        have hinto : ∃ w ∈ edges, w.v = e.u :=
          ⟨w, List.mem_of_find?_eq_some hw, by simpa using List.find?_some hw⟩
        rw [hgrown.leaves e.u]
        cases hu : st.depth e.u with
        | none => simp
        | some du =>
            obtain ⟨dv, hv⟩ := Option.isSome_iff_exists.mp (hclosed e he (by simp [hu]))
            simp only [hv, hinto, Option.isSome_some, and_self, iff_true]
            simp only [Option.bind_eq_bind, Option.bind_some, Option.map_some]
            split <;> rfl

/-- An edge that is neither drawn in the tree nor put into `others` leads deeper. -/
theorem climbs_of_not_isOther (hgrown : Grown edges st)
    (hnames : ∀ e ∈ edges, ∀ e' ∈ edges, e.name = e'.name → e.u = e'.u ∧ e.v = e'.v)
    {e : Edge} (he : e ∈ edges) (hother : isOther edges st e = some false) :
    ∃ du dv, st.depth e.u = some du ∧ st.depth e.v = some dv ∧ du < dv := by
  unfold isOther at hother
  split at hother
  case isTrue hname =>
    obtain ⟨e', he', hsame⟩ := List.mem_map.mp hname
    obtain ⟨hu, hv⟩ := hnames e' (hgrown.subset e' he') e he hsame
    obtain ⟨d, hdu, hdv⟩ := hgrown.depths e' he'
    exact ⟨d, d + 1, hu ▸ hdu, hv ▸ hdv, d.lt_succ_self⟩
  case isFalse =>
    obtain ⟨w, -, hw⟩ := Option.bind_eq_some_iff.mp hother
    obtain ⟨leaf, -, hleaf⟩ := Option.bind_eq_some_iff.mp hw
    split at hleaf
    · cases hleaf
    · obtain ⟨du, hdu, hu⟩ := Option.bind_eq_some_iff.mp hleaf
      obtain ⟨dv, hdv, hv⟩ := Option.bind_eq_some_iff.mp hu
      exact ⟨du, dv, hdu, hdv, by simpa using hv⟩

/-- Edges that all lead deeper close no cycle. -/
theorem acyclic_of_climbs {kept : List Edge} (depth : String → Option ℕ)
    (hclimbs : ∀ e ∈ edges, e ∉ kept →
      ∃ du dv, depth e.u = some du ∧ depth e.v = some dv ∧ du < dv) (x : String) :
    ¬ Relation.TransGen (fun u v => ∃ e ∈ edges, e ∉ kept ∧ e.u = u ∧ e.v = v) x x := by
  have hdeeper : ∀ y, Relation.TransGen
      (fun u v => ∃ e ∈ edges, e ∉ kept ∧ e.u = u ∧ e.v = v) x y →
        ∃ dx dy, depth x = some dx ∧ depth y = some dy ∧ dx < dy := by
    intro y hpath
    induction hpath with
    | single hstep =>
        obtain ⟨e, he, hnot, rfl, rfl⟩ := hstep
        exact hclimbs e he hnot
    | tail _ hstep ih =>
        obtain ⟨e, he, hnot, rfl, rfl⟩ := hstep
        obtain ⟨dx, dy, hdx, hdy, hlt⟩ := ih
        obtain ⟨du, dv, hdu, hdv, hlt'⟩ := hclimbs e he hnot
        have hsame : dy = du := Option.some.inj (hdy.symm.trans hdu)
        exact ⟨dx, dv, hdx, hdv, by omega⟩
  intro hcycle
  obtain ⟨dx, dy, hdx, hdy, hlt⟩ := hdeeper x hcycle
  have hsame : dx = dy := Option.some.inj (hdx.symm.trans hdy)
  omega

end Others

end JyyOS.Visualize

namespace JyyOS.ModelChecker

open JyyOS.Visualize (Edge Forest Transition Vertex Input Grown Path Reachable Joined parseInput
  transition reduceAll isOther)

section Drawing

variable {Class : CheckedClass} {Mark : Type} {hash : Class.Record → String}
variable {markers : List (Class.Obj → Class.Record → Option Mark)}
variable {input : Input Class.Record Mark}

/-- The vertex of a name. -/
theorem StateGraph.entry_inj (hgraph : StateGraph markers input) {u v : Vertex Class.Record Mark}
    (hu : u.entry ∈ input.vertices) (hv : v.entry ∈ input.vertices) (hname : u.name = v.name) :
    u = v :=
  congrArg Prod.snd (List.inj_on_of_nodup_map hgraph.names_nodup hu hv hname)

theorem StateGraph.of_entry (hgraph : StateGraph markers input)
    {entry : String × Vertex Class.Record Mark} (hentry : entry ∈ input.vertices) :
    entry.2.entry = entry :=
  Prod.ext (hgraph.keys entry hentry) rfl

/-- The transition behind an edge. -/
theorem StateGraph.exists_transition (hgraph : StateGraph markers input) {e : Edge}
    (he : e ∈ input.edges.map Transition.edge) :
    ∃ u v : Vertex Class.Record Mark, u.entry ∈ input.vertices ∧ v.entry ∈ input.vertices ∧
      e = ⟨u.name, v.name, e.t⟩ ∧
      ∃ trace thread, Class.threadName thread = e.t ∧ Class.execute trace = some u.state ∧
        Class.execute (trace ++ [thread]) = some v.state := by
  obtain ⟨e', he', rfl⟩ := List.mem_map.mp he
  rw [hgraph.edges_named e' he'] at he'
  obtain ⟨hu, hv, hstep⟩ := (hgraph.mem_edges_iff _ _ _).mp he'
  exact ⟨e'.u, e'.v, hu, hv, rfl, hstep⟩

/-- Every reachable state has a vertex, which the edges reach from `s0`. -/
theorem StateGraph.reachable_of_execute (hexplorable : Explorable Class hash)
    (hgraph : StateGraph markers input) (trace : List Class.Thread) :
    ∃ v : Vertex Class.Record Mark, v.entry ∈ input.vertices ∧
      Class.execute trace = some v.state ∧ Reachable (input.edges.map Transition.edge) v.name := by
  induction trace using List.reverseRecOn with
  | nil =>
      obtain ⟨v, hv, hstate⟩ := hgraph.start
      have hname : v.name = "s0" := hgraph.keys _ hv
      refine ⟨v, ?_, hstate, hname ▸ .refl⟩
      rw [Vertex.entry, hname]
      exact hv
  | append_singleton trace thread ih =>
      obtain ⟨u, hu, hstate, hreach⟩ := ih
      obtain ⟨state, hnext⟩ := hexplorable.returns (trace ++ [thread])
      obtain ⟨entry, hentry, rfl⟩ := List.mem_map.mp ((hgraph.covers state).mpr ⟨_, hnext⟩)
      rw [← hgraph.of_entry hentry] at hentry
      have hedge := (hgraph.mem_edges_iff u entry.2 (Class.threadName thread)).mpr
        ⟨hu, hentry, trace, thread, rfl, hstate, hnext⟩
      refine ⟨entry.2, hentry, hnext, hreach.tail ?_⟩
      exact ⟨_, List.mem_map_of_mem hedge, rfl, rfl⟩

theorem StateGraph.reachable (hexplorable : Explorable Class hash)
    (hgraph : StateGraph markers input) {entry : String × Vertex Class.Record Mark}
    (hentry : entry ∈ input.vertices) :
    Reachable (input.edges.map Transition.edge) entry.1 := by
  obtain ⟨trace, htrace⟩ := (hgraph.covers entry.2.state).mp (List.mem_map_of_mem hentry)
  obtain ⟨v, hv, hstate, hreach⟩ := hgraph.reachable_of_execute hexplorable trace
  have hsame : v.state = entry.2.state := Option.some.inj (hstate.symm.trans htrace)
  obtain rfl : v.entry = entry := List.inj_on_of_nodup_map hgraph.states_nodup hv hentry hsame
  exact hreach

/-- The threads along a path of transitions are a trace to its last vertex. -/
theorem StateGraph.trace_of_path (hexplorable : Explorable Class hash)
    (hgraph : StateGraph markers input) {tree path : List Edge} {name : String}
    (hsubset : ∀ e ∈ tree, e ∈ input.edges.map Transition.edge) (hpath : Path tree path name) :
    ∃ (v : Vertex Class.Record Mark) (trace : List Class.Thread),
      v.entry ∈ input.vertices ∧ v.name = name ∧
      path.map Edge.t = trace.map Class.threadName ∧ Class.execute trace = some v.state := by
  induction hpath with
  | root =>
      obtain ⟨v, hv, hstate⟩ := hgraph.start
      have hname : v.name = "s0" := hgraph.keys _ hv
      exact ⟨v, [], by rw [Vertex.entry, hname]; exact hv, hname, rfl, hstate⟩
  | @snoc path e hpath he ih =>
      obtain ⟨u, trace, hu, hname, hlabels, hstate⟩ := ih
      obtain ⟨u', v, hu', hv, hedge, trace', thread, hthread, hstate', hnext⟩ :=
        hgraph.exists_transition (hsubset e he)
      have hsource : e.u = u'.name := congrArg Edge.u hedge
      obtain rfl := hgraph.entry_inj hu hu' (hname.trans hsource)
      refine ⟨v, trace ++ [thread], hv, (congrArg Edge.v hedge).symm, ?_, ?_⟩
      · simp [hlabels, hthread]
      · rw [hexplorable.determined trace trace' thread (hstate.trans hstate'.symm)]
        exact hnext

/-- The tree has an edge for every vertex but the first. -/
theorem StateGraph.length_tree (hexplorable : Explorable Class hash)
    (hgraph : StateGraph markers input) {st : Forest}
    (hgrown : Grown (input.edges.map Transition.edge) st)
    (hclosed : ∀ e ∈ input.edges.map Transition.edge,
      (st.depth e.u).isSome → (st.depth e.v).isSome) :
    st.tree.length + 1 = input.vertices.length := by
  have hspanning := hgrown.spanning hclosed
  have hroot : "s0" ∉ st.tree.map (·.v) := fun hmem => ((hgrown.targets _).mp hmem).2 rfl
  have hperm : ("s0" :: st.tree.map (·.v)).Perm (input.vertices.map Prod.fst) := by
    refine (List.perm_ext_iff_of_nodup (hgrown.nodup.cons hroot) hgraph.names_nodup).mpr ?_
    intro name
    rw [List.mem_cons, hgrown.targets]
    constructor
    · rintro (rfl | ⟨hknown, -⟩)
      · obtain ⟨v, hv, -⟩ := hgraph.start
        exact List.mem_map_of_mem hv
      · obtain ⟨path, hpath, -⟩ := hgrown.existsUnique_path hknown
        obtain ⟨v, -, hv, rfl, -⟩ := hgraph.trace_of_path hexplorable hgrown.subset hpath
        exact List.mem_map_of_mem hv
    · intro hname
      obtain ⟨entry, hentry, rfl⟩ := List.mem_map.mp hname
      by_cases hfirst : entry.1 = "s0"
      · exact .inl hfirst
      · exact .inr ⟨(hspanning.depth_iff _).mpr (hgraph.reachable hexplorable hentry), hfirst⟩
  simpa using hperm.length_eq

/-- Edges of one name join the same vertices. -/
theorem StateGraph.edge_name_inj (hgraph : StateGraph markers input)
    {left right : Edge} (hleft : left ∈ input.edges.map Transition.edge)
    (hright : right ∈ input.edges.map Transition.edge) (hname : left.name = right.name) :
    left.u = right.u ∧ left.v = right.v := by
  obtain ⟨u, v, hu, -, hedge, -⟩ := hgraph.exists_transition hleft
  obtain ⟨u', v', hu', -, hedge', -⟩ := hgraph.exists_transition hright
  obtain ⟨m, hm⟩ := hgraph.labelled _ hu
  obtain ⟨n, hn⟩ := hgraph.labelled _ hu'
  have hu : left.u = label m := (congrArg Edge.u hedge).trans hm
  have hu' : right.u = label n := (congrArg Edge.u hedge').trans hn
  rw [Edge.name, Edge.name, hu, hu'] at hname
  obtain ⟨rfl, hv⟩ := label_dash_inj hname
  exact ⟨hu.trans hu'.symm, hv⟩

/-- A path that is not empty begins with an edge from `s0`, and its trace with the thread
of that edge. -/
theorem StateGraph.first_of_path (hexplorable : Explorable Class hash)
    (hgraph : StateGraph markers input) {tree path : List Edge} {name : String}
    (hsubset : ∀ e ∈ tree, e ∈ input.edges.map Transition.edge) (hpath : Path tree path name)
    (hnonempty : path ≠ []) :
    ∃ (first : Edge) (near far : Vertex Class.Record Mark) (thread : Class.Thread)
      (trace : List Class.Thread), first ∈ tree ∧ first.u = "s0" ∧
        near.entry ∈ input.vertices ∧ near.name = first.v ∧
        Class.execute [thread] = some near.state ∧
        far.entry ∈ input.vertices ∧ far.name = name ∧
        Class.execute (thread :: trace) = some far.state := by
  induction hpath with
  | root => exact absurd rfl hnonempty
  | @snoc path e hpath he ih =>
      obtain ⟨u, v, hu, hv, hedge, trace', thread, -, hstate', hnext⟩ :=
        hgraph.exists_transition (hsubset e he)
      have hsource : e.u = u.name := congrArg Edge.u hedge
      have htarget : e.v = v.name := congrArg Edge.v hedge
      by_cases hfirst : path = []
      · subst hfirst
        obtain ⟨s0, hs0, hstart⟩ := hgraph.start
        have hroot : e.u = "s0" := by
          generalize e.u = name at hpath
          generalize hnil : ([] : List Edge) = path at hpath
          cases hpath with
          | root => rfl
          | snoc _ _ => simp at hnil
        have hname : s0.name = "s0" := hgraph.keys _ hs0
        have hentry : s0.entry ∈ input.vertices := by
          rw [Vertex.entry, hname]
          exact hs0
        obtain rfl := hgraph.entry_inj hentry hu (hname.trans (hroot.symm.trans hsource))
        have hstep : Class.execute [thread] = some v.state :=
          (hexplorable.determined [] trace' thread (hstart.trans hstate'.symm)).trans hnext
        exact ⟨e, v, v, thread, [], he, hroot, hv, htarget.symm, hstep, hv, htarget.symm, hstep⟩
      · obtain ⟨first, near, far, begin, trace, hmem, hroot, hnear, hnearName, hnearState, hfar,
          hfarName, hfarState⟩ := ih hfirst
        obtain rfl := hgraph.entry_inj hfar hu (hfarName.trans hsource)
        refine ⟨first, near, v, begin, trace ++ [thread], hmem, hroot, hnear, hnearName,
          hnearState, hv, htarget.symm, ?_⟩
        exact (hexplorable.determined (begin :: trace) trace' thread
          (hfarState.trans hstate'.symm)).trans hnext

/-- When a state tells which threads have run, the loop over `edges` raises nothing. -/
theorem StateGraph.isOther_isSome (hexplorable : Explorable Class hash)
    (hgraph : StateGraph markers input)
    (htells : ∀ left right state, Class.execute left = some state →
      Class.execute right = some state → ∀ thread, thread ∈ left → thread ∈ right) {st : Forest}
    (hgrown : Grown (input.edges.map Transition.edge) st)
    (hclosed : ∀ e ∈ input.edges.map Transition.edge,
      (st.depth e.u).isSome → (st.depth e.v).isSome) {e : Edge}
    (he : e ∈ input.edges.map Transition.edge) :
    (isOther (input.edges.map Transition.edge) st e).isSome := by
  have hspanning := hgrown.spanning hclosed
  rw [Visualize.isOther_isSome_iff hgrown hclosed he]
  obtain ⟨u, v, hu, hv, hedge, trace, thread, -, hstate, hnext⟩ := hgraph.exists_transition he
  have hknown : (st.depth e.u).isSome := by
    have hreach := hgraph.reachable hexplorable hu
    rwa [hedge, hspanning.depth_iff]
  by_cases hroot : e.u = "s0"
  · left
    obtain ⟨path, hpath, -⟩ := hgrown.existsUnique_path (hclosed e he hknown)
    obtain ⟨s0, hs0, hstart⟩ := hgraph.start
    have hsame : Class.execute trace = Class.execute [] := by
      have hentry : u.entry = ("s0", s0) :=
        List.inj_on_of_nodup_map hgraph.names_nodup hu hs0 ((congrArg Edge.u hedge).symm.trans
          hroot)
      have hvertex : u = s0 := congrArg Prod.snd hentry
      rw [hstate, hstart, hvertex]
    rw [hexplorable.determined trace [] thread hsame] at hnext
    by_cases hempty : path = []
    · -- Then the thread has not moved.
      obtain ⟨v', trace', hv', hname, hlabels, hstate'⟩ :=
        hgraph.trace_of_path hexplorable hgrown.subset hpath
      obtain rfl := hgraph.entry_inj hv' hv (hname.trans (congrArg Edge.v hedge))
      have hnil : trace' = [] := by simpa [hempty] using hlabels
      subst hnil
      exact absurd (htells _ _ _ hnext hstate' thread (by simp)) (by simp)
    · obtain ⟨first, near, far, begin, more, hmem, hfirst, hnear, hnearName, hnearState, hfar,
        hfarName, hfarState⟩ :=
        hgraph.first_of_path hexplorable hgrown.subset hpath hempty
      obtain rfl := hgraph.entry_inj hfar hv (hfarName.trans (congrArg Edge.v hedge))
      -- Only this thread has run, so the first vertex is the last one already.
      obtain rfl : begin = thread := by
        simpa using htells _ _ _ hfarState hnext begin List.mem_cons_self
      have hentry : near.entry = far.entry :=
        List.inj_on_of_nodup_map hgraph.states_nodup hnear hfar
          (Option.some.inj (hnearState.symm.trans hnext))
      have hlast : first.v = e.v := by
        rw [← hnearName, congrArg Edge.v hedge]
        exact congrArg Prod.fst hentry
      refine List.mem_map.mpr ⟨first, hmem, ?_⟩
      rw [Edge.name, Edge.name, hfirst, hroot, hlast]
  · right
    obtain ⟨w, hw, hinto⟩ := List.mem_map.mp ((hgrown.targets e.u).mpr ⟨hknown, hroot⟩)
    exact ⟨hknown, w, hgrown.subset w hw, hinto⟩

/-- The drawn tree has for every reachable state one vertex and one path of edges from
`s0`, along which the threads are a trace to the state. -/
theorem checkBfs_tree (hexplorable : Explorable Class hash) (hackedSrc : String)
    (markers : List (Class.Obj → Class.Record → Option Mark)) :
    ∃ fuel lines input need, checkBfsLines Class hash hackedSrc markers fuel = some lines ∧
      parseInput lines = some input ∧ StateGraph markers input ∧
      ∀ fuel, need < fuel → ∃ tree,
        reduceAll fuel (input.edges.map Transition.edge) true = some (tree, []) ∧
        tree.length + 1 = input.vertices.length ∧
        ∀ entry ∈ input.vertices, ∃! path, Path tree path entry.1 ∧
          ∃ trace, path.map Edge.t = trace.map Class.threadName ∧
            Class.execute trace = some entry.2.state := by
  obtain ⟨fuel, lines, input, hlines, hparse, -, -, hgraph⟩ :=
    exists_stateGraph hexplorable hackedSrc markers
  let edges := input.edges.map Transition.edge
  have htried : Visualize.Tried edges 0 0 .start := ⟨le_rfl, fun r hlt hle => absurd hlt (by omega)⟩
  refine ⟨fuel, lines, input, Visualize.roundsLeft edges 0 0 .start + edges.length, hlines, hparse,
    hgraph, fun fuel hfuel => ?_⟩
  obtain ⟨st, hrun, hgrown, hclosed⟩ :=
    Visualize.rounds_spec (Visualize.grown_start edges) htried hfuel
  have hspanning := hgrown.spanning hclosed
  refine ⟨st.tree, ?_, hgraph.length_tree hexplorable hgrown hclosed, fun entry hentry => ?_⟩
  · rw [reduceAll, Visualize.reduce, hrun]
    rfl
  · obtain ⟨path, hpath, hunique⟩ := hgrown.existsUnique_path
      ((hspanning.depth_iff _).mpr (hgraph.reachable hexplorable hentry))
    obtain ⟨v, trace, hv, hname, hlabels, hstate⟩ :=
      hgraph.trace_of_path hexplorable hgrown.subset hpath
    have hsame : v.entry = entry := List.inj_on_of_nodup_map hgraph.names_nodup hv hentry hname
    refine ⟨path, ⟨hpath, trace, hlabels, ?_⟩, fun other hother => hunique other hother.1⟩
    rw [hstate, ← hsame]
    rfl

/-- `--reduce` raises nothing when a state tells which threads have run, and what it leaves
out besides the tree closes no cycle. -/
theorem checkBfs_reduced (hexplorable : Explorable Class hash)
    (htells : ∀ left right state, Class.execute left = some state →
      Class.execute right = some state → ∀ thread, thread ∈ left → thread ∈ right)
    (hackedSrc : String) (markers : List (Class.Obj → Class.Record → Option Mark)) :
    ∃ fuel lines input need, checkBfsLines Class hash hackedSrc markers fuel = some lines ∧
      parseInput lines = some input ∧ StateGraph markers input ∧
      ∀ fuel, need < fuel → ∃ tree others,
        reduceAll fuel (input.edges.map Transition.edge) false = some (tree, others) ∧
        (∀ e ∈ tree ++ others, e ∈ input.edges.map Transition.edge) ∧
        ∀ x, ¬ Relation.TransGen (fun u v => ∃ e ∈ input.edges.map Transition.edge,
          e ∉ others ∧ e.u = u ∧ e.v = v) x x := by
  obtain ⟨fuel, lines, input, hlines, hparse, -, -, hgraph⟩ :=
    exists_stateGraph hexplorable hackedSrc markers
  let edges := input.edges.map Transition.edge
  have htried : Visualize.Tried edges 0 0 .start := ⟨le_rfl, fun r hlt hle => absurd hlt (by omega)⟩
  refine ⟨fuel, lines, input, Visualize.roundsLeft edges 0 0 .start + edges.length, hlines, hparse,
    hgraph, fun fuel hfuel => ?_⟩
  obtain ⟨st, hrun, hgrown, hclosed⟩ :=
    Visualize.rounds_spec (Visualize.grown_start edges) htried hfuel
  have hreturns : ∀ e ∈ edges, (isOther edges st e).isSome := fun e he =>
    hgraph.isOther_isSome hexplorable htells hgrown hclosed he
  refine ⟨st.tree, edges.filter fun e => isOther edges st e = some true, ?_, ?_, ?_⟩
  · rw [reduceAll, Visualize.reduce, hrun]
    exact congrArg (fun others => others.bind fun others => some (st.tree, others))
      (Visualize.foldlM_addOther [] hreturns)
  · intro e he
    rcases List.mem_append.mp he with htree | hother
    · exact hgrown.subset e htree
    · exact (List.mem_filter.mp hother).1
  · refine Visualize.acyclic_of_climbs st.depth fun e he hnot => ?_
    have hdropped : isOther edges st e = some false := by
      obtain ⟨other, hother⟩ := Option.isSome_iff_exists.mp (hreturns e he)
      cases other with
      | true => exact absurd (List.mem_filter.mpr ⟨he, by simp [hother]⟩) hnot
      | false => exact hother
    exact Visualize.climbs_of_not_isOther hgrown
      (fun left hleft right hright => hgraph.edge_name_inj hleft hright) he hdropped

end Drawing

/-! ## The two writers -/

theorem explorable_writers : Explorable writers Writers.name :=
  ⟨Writers.returns, Writers.determined, Writers.names, Writers.finite⟩

theorem checkBfs_tree_writers :
    ∃ fuel lines input need,
      checkBfsLines writers Writers.name "" [fun _ _ => some ()] fuel = some lines ∧
      parseInput lines = some input ∧ StateGraph [fun _ _ => some ()] input ∧
      ∀ fuel, need < fuel → ∃ tree,
        reduceAll fuel (input.edges.map Transition.edge) true = some (tree, []) ∧
        tree.length + 1 = input.vertices.length ∧
        ∀ entry ∈ input.vertices, ∃! path, Path tree path entry.1 ∧
          ∃ trace, path.map Edge.t = trace.map writers.threadName ∧
            writers.execute trace = some entry.2.state :=
  checkBfs_tree explorable_writers "" _

/-- The state of the two writers tells which of them have run. -/
theorem checkBfs_reduced_writers :
    ∃ fuel lines input need,
      checkBfsLines writers Writers.name "" [fun _ _ => some ()] fuel = some lines ∧
      parseInput lines = some input ∧ StateGraph [fun _ _ => some ()] input ∧
      ∀ fuel, need < fuel → ∃ tree others,
        reduceAll fuel (input.edges.map Transition.edge) false = some (tree, others) ∧
        (∀ e ∈ tree ++ others, e ∈ input.edges.map Transition.edge) ∧
        ∀ x, ¬ Relation.TransGen (fun u v => ∃ e ∈ input.edges.map Transition.edge,
          e ∉ others ∧ e.u = u ∧ e.v = v) x x := by
  refine checkBfs_reduced explorable_writers ?_ "" _
  intro left right state hleft hright thread
  have hsame : writers.execute left = writers.execute right := hleft.trans hright.symm
  exact ((Writers.order_of_name (congrArg (Option.map Writers.name) hsame)).1 thread).mp

end JyyOS.ModelChecker
