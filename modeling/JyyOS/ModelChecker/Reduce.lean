import Mathlib.Data.List.Nodup
import Mathlib.Logic.Relation
import Mathlib.Tactic

/-!
# The tree that `visualize.py` draws

`reduce` walks over the edge list again and again, one thread at a time, and
hangs every vertex it meets first under the vertex it was met from.  The dicts
are functions here, `none` for a missing key.
-/

namespace JyyOS.Visualize

/-- A transition as `TRANS` records it, its vertices by their names. -/
structure Edge where
  u : String
  v : String
  t : String
deriving DecidableEq

/-! ## The code -/

/-- `threads` after the `TRANS` lines: the labels in the order of their first
appearance. -/
def threads (edges : List Edge) : List String :=
  edges.foldl (fun seen e => if e.t ∉ seen then seen ++ [e.t] else seen) []

/-- The locals `tree`, `depth` and `leaf` of `reduce`. -/
structure Forest where
  tree : List Edge
  depth : String → Option ℕ
  leaf : String → Option Bool

def Forest.start : Forest where
  tree := []
  depth := Function.update (fun _ => none) "s0" (some 0)
  leaf := Function.update (fun _ => none) "s0" (some true)

/-- The body of the loop of `expand`, for the thread whose turn it is. -/
def expandEdge (turn : Option String) (pass : Forest × Bool) (e : Edge) : Forest × Bool :=
  match pass.1.depth e.u with
  | none => pass
  | some d =>
      if pass.1.depth e.v = none ∧ some e.t = turn then
        ({ tree := pass.1.tree ++ [e]
           depth := Function.update pass.1.depth e.v (some (d + 1))
           leaf := Function.update (Function.update pass.1.leaf e.v (some true)) e.u (some false) },
          true)
      else pass

def expand (edges : List Edge) (turn : Option String) (st : Forest) : Forest × Bool :=
  edges.foldl (expandEdge turn) (st, false)

/-- `threads[-rnd % len(threads)]` -/
def turnOf (threads : List String) (rnd : ℕ) : Option String :=
  threads[(-(rnd : ℤ) % (threads.length : ℤ)).toNat]?

/-- `while expand(): updated = rnd`, with the new value of `updated`. -/
def expandAll (edges : List Edge) (turn : Option String) (rnd : ℕ) :
    ℕ → ℕ → Forest → Option (ℕ × Forest)
  | 0, _, _ => none
  | fuel + 1, updated, st =>
      if (expand edges turn st).2 then
        expandAll edges turn rnd fuel rnd (expand edges turn st).1
      else some (updated, (expand edges turn st).1)

/-- The outer loop. -/
def rounds (edges : List Edge) : ℕ → ℕ → ℕ → Forest → Option Forest
  | 0, _, _, _ => none
  | fuel + 1, updated, rnd, st =>
      if updated + (threads edges).length > rnd then do
        let (updated, st) ←
          expandAll edges (turnOf (threads edges) (rnd + 1)) (rnd + 1) fuel updated st
        rounds edges fuel updated (rnd + 1) st
      else some st

/-- The loop of `reduce`, `none` if it takes more rounds than the fuel allows. -/
def reduce (fuel : ℕ) (edges : List Edge) : Option Forest := rounds edges fuel 0 0 .start

/-! ## What is built -/

def Joined (edges : List Edge) (u v : String) : Prop := ∃ e ∈ edges, e.u = u ∧ e.v = v

def Reachable (edges : List Edge) (v : String) : Prop :=
  Relation.ReflTransGen (Joined edges) "s0" v

/-- The tree spans what can be reached. -/
structure Spanning (edges : List Edge) (st : Forest) : Prop where
  depth_iff : ∀ v, (st.depth v).isSome ↔ Reachable edges v
  tree_subset : ∀ e ∈ st.tree, e ∈ edges
  one_parent : ∀ v, Reachable edges v → v ≠ "s0" → st.tree.countP (·.v = v) = 1
  parent_depth : ∀ e ∈ st.tree, ∃ d, st.depth e.u = some d ∧ st.depth e.v = some (d + 1)
  root : st.tree.countP (·.v = "s0") = 0
  leaf_iff : ∀ v, st.leaf v = some true ↔ (st.depth v).isSome ∧ ∀ e ∈ st.tree, e.u ≠ v

/-- What holds of the locals at any time. -/
structure Grown (edges : List Edge) (st : Forest) : Prop where
  start : st.depth "s0" = some 0
  reachable : ∀ v, (st.depth v).isSome → Reachable edges v
  subset : ∀ e ∈ st.tree, e ∈ edges
  nodup : (st.tree.map (·.v)).Nodup
  targets : ∀ v, v ∈ st.tree.map (·.v) ↔ (st.depth v).isSome ∧ v ≠ "s0"
  depths : ∀ e ∈ st.tree, ∃ d, st.depth e.u = some d ∧ st.depth e.v = some (d + 1)
  leaves : ∀ v, st.leaf v = (st.depth v).map fun _ => decide (∀ e ∈ st.tree, e.u ≠ v)

theorem grown_start (edges : List Edge) : Grown edges .start where
  start := by simp [Forest.start]
  reachable v hv := by
    by_cases hroot : v = "s0"
    · rw [hroot]
      exact .refl
    · simp [Forest.start, hroot] at hv
  subset e he := absurd he (by simp [Forest.start])
  nodup := List.nodup_nil
  targets v := by
    by_cases hroot : v = "s0" <;> simp [Forest.start, hroot]
  depths e he := absurd he (by simp [Forest.start])
  leaves v := by
    by_cases hroot : v = "s0" <;> simp [Forest.start, hroot]

/-! ## One pass -/

section Pass

variable {edges : List Edge} {turn : Option String} {st : Forest} {found : Bool} {e : Edge}

/-- The edge `e` hangs a new vertex under a known one. -/
def Hangs (turn : Option String) (st st' : Forest) (e : Edge) : Prop :=
  ∃ d, st.depth e.u = some d ∧ st.depth e.v = none ∧ some e.t = turn ∧
    st'.tree = st.tree ++ [e] ∧ st'.depth = Function.update st.depth e.v (some (d + 1)) ∧
    st'.leaf = Function.update (Function.update st.leaf e.v (some true)) e.u (some false)

/-- An edge is left alone, or it hangs its target. -/
theorem expandEdge_cases (turn : Option String) (pass : Forest × Bool) (e : Edge) :
    (expandEdge turn pass e = pass ∧
      ((pass.1.depth e.u).isSome → some e.t = turn → (pass.1.depth e.v).isSome)) ∨
    ((expandEdge turn pass e).2 = true ∧ Hangs turn pass.1 (expandEdge turn pass e).1 e) := by
  unfold expandEdge
  cases hu : pass.1.depth e.u with
  | none => exact .inl ⟨rfl, by simp⟩
  | some d =>
      by_cases hnew : pass.1.depth e.v = none ∧ some e.t = turn
      · simp only [if_pos hnew]
        exact .inr ⟨trivial, d, hu, hnew.1, hnew.2, rfl, rfl, rfl⟩
      · simp only [if_neg hnew]
        refine .inl ⟨trivial, fun _ hturn => ?_⟩
        rw [Option.isSome_iff_ne_none]
        exact fun hnone => hnew ⟨hnone, hturn⟩

theorem Hangs.ne {st' : Forest} (hhangs : Hangs turn st st' e) : e.u ≠ e.v := by
  obtain ⟨d, hu, hv, -⟩ := hhangs
  intro heq
  rw [heq, hv] at hu
  cases hu

/-- The new vertex is on no tree edge yet. -/
theorem Hangs.fresh {st' : Forest} (hhangs : Hangs turn st st' e) (hgrown : Grown edges st)
    {e' : Edge} (he' : e' ∈ st.tree) : e'.u ≠ e.v ∧ e'.v ≠ e.v := by
  obtain ⟨-, -, hv, -⟩ := hhangs
  obtain ⟨d', hd', hd''⟩ := hgrown.depths e' he'
  constructor
  · intro heq
    rw [heq, hv] at hd'
    cases hd'
  · intro heq
    rw [heq, hv] at hd''
    cases hd''

/-- The new vertex becomes a leaf, and its parent stops being one. -/
theorem Hangs.leaves {st' : Forest} (hhangs : Hangs turn st st' e) (hgrown : Grown edges st)
    (v : String) : st'.leaf v = (st'.depth v).map fun _ => decide (∀ e ∈ st'.tree, e.u ≠ v) := by
  have hne := hhangs.ne
  have hfresh : ∀ e' ∈ st.tree, e'.u ≠ e.v := fun e' he' => (hhangs.fresh hgrown he').1
  obtain ⟨d, hu, hv, -, htree, hdepth, hleaf⟩ := hhangs
  rw [hleaf, hdepth, htree]
  by_cases hparent : v = e.u
  · rw [hparent, Function.update_self, Function.update_of_ne hne, hu]
    simp
  · rw [Function.update_of_ne hparent]
    by_cases hnew : v = e.v
    · have hnone : ∀ e' ∈ st.tree ++ [e], e'.u ≠ e.v := by
        intro e' he'
        rcases List.mem_append.mp he' with hold | hlast
        · exact hfresh e' hold
        · rw [List.mem_singleton.mp hlast]
          exact hne
      rw [hnew, Function.update_self, Function.update_self, Option.map_some, decide_eq_true hnone]
    · have hsame : (∀ e' ∈ st.tree ++ [e], e'.u ≠ v) ↔ ∀ e' ∈ st.tree, e'.u ≠ v := by
        simp [or_imp, forall_and, Ne.symm hparent]
      rw [Function.update_of_ne hnew, Function.update_of_ne hnew, hgrown.leaves v]
      simp only [hsame]

theorem Hangs.grown {st' : Forest} (hhangs : Hangs turn st st' e) (he : e ∈ edges)
    (hgrown : Grown edges st) : Grown edges st' := by
  have hleaves := hhangs.leaves hgrown
  have hne := hhangs.ne
  have hfresh : ∀ e' ∈ st.tree, e'.u ≠ e.v ∧ e'.v ≠ e.v := fun e' he' => hhangs.fresh hgrown he'
  obtain ⟨d, hu, hv, -, htree, hdepth, -⟩ := hhangs
  have hroot : e.v ≠ "s0" := by
    intro heq
    rw [heq, hgrown.start] at hv
    cases hv
  refine ⟨?_, ?_, ?_, ?_, ?_, ?_, hleaves⟩
  · rw [hdepth, Function.update_of_ne hroot.symm, hgrown.start]
  · intro v hsome
    rw [hdepth] at hsome
    by_cases hcase : v = e.v
    · rw [hcase]
      exact (hgrown.reachable e.u (by simp [hu])).tail ⟨e, he, rfl, rfl⟩
    · rw [Function.update_of_ne hcase] at hsome
      exact hgrown.reachable v hsome
  · intro e' he'
    rw [htree, List.mem_append, List.mem_singleton] at he'
    rcases he' with hold | rfl
    · exact hgrown.subset e' hold
    · exact he
  · rw [htree, List.map_append, List.map_singleton]
    refine hgrown.nodup.append (List.nodup_singleton _) ?_
    rw [List.disjoint_singleton]
    intro hmem
    obtain ⟨e', he', hsame⟩ := List.mem_map.mp hmem
    exact (hfresh e' he').2 hsame
  · intro v
    rw [htree, hdepth, List.map_append, List.mem_append, hgrown.targets]
    by_cases hcase : v = e.v <;> simp [hcase, hroot]
  · intro e' he'
    rw [htree, List.mem_append, List.mem_singleton] at he'
    rw [hdepth]
    rcases he' with hold | rfl
    · rw [Function.update_of_ne (hfresh e' hold).1, Function.update_of_ne (hfresh e' hold).2]
      exact hgrown.depths e' hold
    · exact ⟨d, by rw [Function.update_of_ne hne, hu], Function.update_self _ _ _⟩

/-- The tree has no more edges than the list: their targets differ. -/
theorem Grown.length_le (hgrown : Grown edges st) : st.tree.length ≤ edges.length := by
  have hsubset : st.tree.map (·.v) ⊆ edges.map (·.v) := by
    intro v hv
    obtain ⟨e, he, rfl⟩ := List.mem_map.mp hv
    exact List.mem_map_of_mem (hgrown.subset e he)
  simpa using (hgrown.nodup.subperm hsubset).length_le

/-- No edge of the thread leads out of what is known. -/
def Closed (edges : List Edge) (turn : Option String) (st : Forest) : Prop :=
  ∀ e ∈ edges, some e.t = turn → (st.depth e.u).isSome → (st.depth e.v).isSome

/-- A pass over a part of the list: it finds nothing and changes nothing, or the
tree gets longer. -/
theorem foldl_expandEdge (turn : Option String) {part : List Edge} (hpart : ∀ e ∈ part, e ∈ edges)
    (pass : Forest × Bool) (hgrown : Grown edges pass.1) :
    Grown edges (part.foldl (expandEdge turn) pass).1 ∧
    ((part.foldl (expandEdge turn) pass = pass ∧ Closed part turn pass.1) ∨
      ((part.foldl (expandEdge turn) pass).2 = true ∧
        pass.1.tree.length < (part.foldl (expandEdge turn) pass).1.tree.length)) := by
  induction part generalizing pass with
  | nil => exact ⟨hgrown, .inl ⟨rfl, fun e he => absurd he (by simp)⟩⟩
  | cons e part ih =>
      have hrest : ∀ e ∈ part, e ∈ edges := fun e he => hpart e (List.mem_cons_of_mem _ he)
      rw [List.foldl_cons]
      rcases expandEdge_cases turn pass e with ⟨hsame, hclosed⟩ | ⟨hfound, hhangs⟩
      · rw [hsame]
        obtain ⟨hgrown', hsplit⟩ := ih hrest pass hgrown
        refine ⟨hgrown', hsplit.imp_left fun hquiet => ⟨hquiet.1, ?_⟩⟩
        intro e' he' hturn hknown
        rcases List.mem_cons.mp he' with rfl | hlater
        · exact hclosed hknown hturn
        · exact hquiet.2 e' hlater hturn hknown
      · have hlonger : pass.1.tree.length < (expandEdge turn pass e).1.tree.length := by
          obtain ⟨d, -, -, -, htree, -⟩ := hhangs
          rw [htree]
          simp
        obtain ⟨hgrown', hsplit⟩ :=
          ih hrest _ (hhangs.grown (hpart e List.mem_cons_self) hgrown)
        refine ⟨hgrown', .inr ?_⟩
        rcases hsplit with ⟨hquiet, -⟩ | ⟨hmore, hlength⟩
        · rw [hquiet]
          exact ⟨hfound, hlonger⟩
        · exact ⟨hmore, hlonger.trans hlength⟩

theorem expand_grown (hgrown : Grown edges st) : Grown edges (expand edges turn st).1 :=
  (foldl_expandEdge turn (fun _ he => he) (st, false) hgrown).1

theorem expand_quiet (hgrown : Grown edges st) (hquiet : ¬ (expand edges turn st).2) :
    (expand edges turn st).1 = st ∧ Closed edges turn st := by
  rcases (foldl_expandEdge turn (fun _ he => he) (st, false) hgrown).2 with
    ⟨hsame, hclosed⟩ | ⟨hfound, -⟩
  · exact ⟨congrArg Prod.fst hsame, hclosed⟩
  · exact absurd hfound hquiet

theorem expand_longer (hgrown : Grown edges st) (hfound : (expand edges turn st).2) :
    st.tree.length < (expand edges turn st).1.tree.length := by
  rcases (foldl_expandEdge turn (fun _ he => he) (st, false) hgrown).2 with
    ⟨hsame, -⟩ | ⟨-, hlonger⟩
  · rw [expand, hsame] at hfound
    cases hfound
  · exact hlonger

/-- The inner loop ends with the thread closed; it changes nothing, or the tree
gets longer and `updated` is the round. -/
theorem expandAll_spec {rnd fuel updated : ℕ} (hgrown : Grown edges st)
    (hfuel : edges.length - st.tree.length < fuel) :
    ∃ updated' st', expandAll edges turn rnd fuel updated st = some (updated', st') ∧
      Grown edges st' ∧ Closed edges turn st' ∧
      ((updated' = updated ∧ st' = st) ∨
        (updated' = rnd ∧ st.tree.length < st'.tree.length)) := by
  induction fuel generalizing updated st with
  | zero => omega
  | succ fuel ih =>
      rw [expandAll]
      by_cases hfound : (expand edges turn st).2
      · have hlonger := expand_longer hgrown hfound
        have hgrown' : Grown edges (expand edges turn st).1 := expand_grown hgrown
        have hbound := hgrown'.length_le
        obtain ⟨updated', st', hrun, hgrown'', hclosed, hsplit⟩ :
            ∃ updated' st', expandAll edges turn rnd fuel rnd (expand edges turn st).1 =
              some (updated', st') ∧ _ := ih hgrown' (by omega)
        rw [if_pos hfound]
        refine ⟨updated', st', hrun, hgrown'', hclosed, .inr ?_⟩
        rcases hsplit with ⟨hround, rfl⟩ | ⟨hround, hmore⟩
        · exact ⟨hround, hlonger⟩
        · exact ⟨hround, hlonger.trans hmore⟩
      · obtain ⟨hsame, hclosed⟩ := expand_quiet hgrown hfound
        rw [if_neg hfound, hsame]
        exact ⟨updated, st, rfl, hgrown, hclosed, .inl ⟨rfl, rfl⟩⟩

end Pass

/-! ## All rounds -/

section Rounds

variable {edges : List Edge} {st : Forest} {updated rnd fuel : ℕ}

/-- The turns of as many rounds as there are threads are all of them. -/
theorem exists_turn {names : List String} {t : String} (ht : t ∈ names) (updated : ℕ) :
    ∃ r, updated < r ∧ r ≤ updated + names.length ∧ some t = turnOf names r := by
  obtain ⟨i, hi, rfl⟩ := List.getElem_of_mem ht
  -- how many rounds after the next one the turn is `i`
  let wait := (-(updated + 1 : ℤ) - i) % names.length
  have hpos : (0 : ℤ) < names.length := by omega
  have hnonneg : 0 ≤ wait := Int.emod_nonneg _ hpos.ne'
  have hlt : wait < names.length := Int.emod_lt_of_pos _ hpos
  have hdef : wait = -(updated + 1 : ℤ) - i - names.length * ((-(updated + 1 : ℤ) - i) /
      names.length) := Int.emod_def _ _
  have hcast : ((updated + 1 + wait.toNat : ℕ) : ℤ) = updated + 1 + wait := by
    push_cast
    rw [Int.toNat_of_nonneg hnonneg]
  refine ⟨updated + 1 + wait.toNat, by omega, by omega, ?_⟩
  have hturn : -((updated + 1 + wait.toNat : ℕ) : ℤ) % names.length = i := by
    calc -((updated + 1 + wait.toNat : ℕ) : ℤ) % names.length
        = (i + names.length * ((-(updated + 1 : ℤ) - i) / names.length)) % names.length := by
          rw [hcast, hdef]
          ring_nf
      _ = (i : ℤ) % names.length := Int.add_mul_emod_self_left _ _ _
      _ = i := Int.emod_eq_of_lt (by omega) (by omega)
  rw [turnOf, hturn, Int.toNat_natCast, List.getElem?_eq_getElem hi]

theorem subset_foldl_threads (part : List Edge) (seen : List String) :
    seen ⊆ part.foldl (fun seen e => if e.t ∉ seen then seen ++ [e.t] else seen) seen ∧
    ∀ e ∈ part,
      e.t ∈ part.foldl (fun seen e => if e.t ∉ seen then seen ++ [e.t] else seen) seen := by
  induction part generalizing seen with
  | nil => simp
  | cons e part ih =>
      rw [List.foldl_cons]
      by_cases hseen : e.t ∈ seen
      · rw [if_neg (by simpa using hseen)]
        refine ⟨(ih seen).1, fun e' he' => ?_⟩
        rcases List.mem_cons.mp he' with rfl | hlater
        · exact (ih seen).1 hseen
        · exact (ih seen).2 e' hlater
      · rw [if_pos hseen]
        obtain ⟨hkept, hrest⟩ := ih (seen ++ [e.t])
        refine ⟨fun t ht => hkept (List.mem_append_left _ ht), fun e' he' => ?_⟩
        rcases List.mem_cons.mp he' with rfl | hlater
        · exact hkept (by simp)
        · exact hrest e' hlater

theorem mem_threads {e : Edge} (he : e ∈ edges) : e.t ∈ threads edges :=
  (subset_foldl_threads edges []).2 e he

/-- Every thread that had its turn since the last change is still closed. -/
structure Tried (edges : List Edge) (updated rnd : ℕ) (st : Forest) : Prop where
  le : updated ≤ rnd
  closed : ∀ r, updated < r → r ≤ rnd → Closed edges (turnOf (threads edges) r) st

/-- At the exit every thread had its turn. -/
theorem Tried.all_closed (htried : Tried edges updated rnd st)
    (hexit : ¬ updated + (threads edges).length > rnd) {e : Edge} (he : e ∈ edges)
    (hknown : (st.depth e.u).isSome) : (st.depth e.v).isSome := by
  obtain ⟨r, hlt, hle, hturn⟩ := exists_turn (mem_threads he) updated
  exact htried.closed r hlt (by omega) e he hturn hknown

/-- The rounds that may still come: each one is used up, or the tree grows and
every thread has another turn. -/
def roundsLeft (edges : List Edge) (updated rnd : ℕ) (st : Forest) : ℕ :=
  (edges.length - st.tree.length) * ((threads edges).length + 1) +
    (updated + (threads edges).length - rnd)

theorem rounds_spec (hgrown : Grown edges st) (htried : Tried edges updated rnd st)
    (hfuel : roundsLeft edges updated rnd st + edges.length < fuel) :
    ∃ st', rounds edges fuel updated rnd st = some st' ∧ Grown edges st' ∧
      ∀ e ∈ edges, (st'.depth e.u).isSome → (st'.depth e.v).isSome := by
  induction fuel generalizing updated rnd st with
  | zero => omega
  | succ fuel ih =>
      rw [rounds]
      by_cases hmore : updated + (threads edges).length > rnd
      · have hinner : edges.length - st.tree.length < fuel := by
          unfold roundsLeft at hfuel
          omega
        obtain ⟨updated', st', hrun, hgrown', hclosed, hsplit⟩ :
            ∃ updated' st', expandAll edges (turnOf (threads edges) (rnd + 1)) (rnd + 1) fuel
              updated st = some (updated', st') ∧ _ := expandAll_spec hgrown hinner
        rw [if_pos hmore, hrun]
        rcases hsplit with ⟨rfl, rfl⟩ | ⟨rfl, hlonger⟩
        · refine ih hgrown ⟨Nat.le_succ_of_le htried.le, ?_⟩ ?_
          · intro r hlt hle
            by_cases hlast : r = rnd + 1
            · rw [hlast]
              exact hclosed
            · exact htried.closed r hlt (by omega)
          · unfold roundsLeft at hfuel ⊢
            omega
        · refine ih hgrown' ⟨le_rfl, fun r hlt hle => absurd hlt (by omega)⟩ ?_
          have hbound := hgrown'.length_le
          have hshrinks : (edges.length - st'.tree.length + 1) * ((threads edges).length + 1) ≤
              (edges.length - st.tree.length) * ((threads edges).length + 1) :=
            Nat.mul_le_mul_right _ (by omega)
          unfold roundsLeft at hfuel ⊢
          rw [Nat.add_mul] at hshrinks
          omega
      · rw [if_neg hmore]
        exact ⟨st, rfl, hgrown, fun e he => htried.all_closed hmore he⟩

/-- With nothing left to hang, the tree spans what can be reached. -/
theorem Grown.spanning (hgrown : Grown edges st)
    (hclosed : ∀ e ∈ edges, (st.depth e.u).isSome → (st.depth e.v).isSome) :
    Spanning edges st := by
  have hdepth : ∀ v, (st.depth v).isSome ↔ Reachable edges v := by
    refine fun v => ⟨hgrown.reachable v, fun hreach => ?_⟩
    induction hreach with
    | refl => simp [hgrown.start]
    | tail _ hjoined ih =>
        obtain ⟨e, he, rfl, rfl⟩ := hjoined
        exact hclosed e he ih
  have hcount : ∀ v, st.tree.countP (·.v = v) = (st.tree.map (·.v)).count v := by
    intro v
    rw [List.count, List.countP_map]
    rfl
  refine ⟨hdepth, hgrown.subset, ?_, hgrown.depths, ?_, ?_⟩
  · intro v hreach hroot
    rw [hcount]
    exact List.count_eq_one_of_mem hgrown.nodup
      ((hgrown.targets v).mpr ⟨(hdepth v).mpr hreach, hroot⟩)
  · rw [hcount, List.count_eq_zero, hgrown.targets]
    simp
  · intro v
    rw [hgrown.leaves v]
    cases st.depth v <;> simp

end Rounds

/-- The loop of `reduce` ends, with a spanning tree of the vertices that can be
reached from `s0`. -/
theorem reduce_spanning (edges : List Edge) :
    ∃ need, ∀ fuel, need < fuel → ∃ st, reduce fuel edges = some st ∧ Spanning edges st := by
  refine ⟨roundsLeft edges 0 0 .start + edges.length, fun fuel hfuel => ?_⟩
  have htried : Tried edges 0 0 .start := ⟨le_rfl, fun r hlt hle => absurd hlt (by omega)⟩
  obtain ⟨st, hrun, hgrown, hclosed⟩ := rounds_spec (grown_start edges) htried hfuel
  exact ⟨st, hrun, hgrown.spanning hclosed⟩

example : ((reduce 20 [⟨"s0", "s1", "t1"⟩, ⟨"s0", "s2", "t2"⟩, ⟨"s1", "s2", "t1"⟩]).map
    (·.tree)) = some [⟨"s0", "s2", "t2"⟩, ⟨"s0", "s1", "t1"⟩] := by decide

end JyyOS.Visualize
