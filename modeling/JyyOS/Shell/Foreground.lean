import JyyOS.Shell.Orderly
import JyyOS.Shell.Wiring

/-!
# The foreground programs end first

Every program that is still to run, or runs, is covered by the processes that
must outlive it: the process made for a node has not ended while a foreground
program under the node is live, and if it is not itself on its way to the
program then one of its unreaped children covers it.
-/

namespace JyyOS.Shell

open Transition

/-- Something at or under the node runs or may still start. -/
def World.Live (world : World) (node : Pos) : Prop :=
  ∃ proc ∈ world.procs, proc.Touches node

section Change

variable {world after : World} {pid : ℕ} {proc : Proc}

/-! ## Where the processes of the next world come from -/

/-- A process of the world after the step. -/
inductive Origin (world : World) (pid : ℕ) (proc : Proc) (index : ℕ) (new : Proc) : Prop
  | same {old : Proc} (hold : world.procs[index]? = some old) (hheir : Heir old new)
      (hpath : new.path = old.path)
      (hkept : index ≠ pid → ¬ old.Ended →
        ¬ new.Ended ∧ ∀ node, old.Touches node → new.Touches node)
  | entered {pos : Pos} {edge : Edge} (hindex : index = pid) (hheir : Heir proc new)
      (henters : Enters proc (world.kids pid) pos edge)
      (hpath : new.path = (pos ++ [edge]) :: proc.path)
  | child {pos : Pos} {edge : Edge} (hindex : index = world.procs.length)
      (hchild : IsChild pid proc new pos edge)

theorem Heir.refl (proc : Proc) : Heir proc proc := ⟨rfl, fun _ => id, fun _ => id, id⟩

theorem Heir.of_ended {old new : Proc} (hborn : new.born = old.born)
    (hparent : new.parent = old.parent) (hended : new.Ended) : Heir old new :=
  ⟨hborn, fun _ => hparent.symm.trans,
    fun node hnode => absurd hnode (Proc.not_touches_of_ended hended node), fun _ => hended⟩

theorem Heir.trans {first second third : Proc} (hfirst : Heir first second)
    (hsecond : Heir second third) : Heir first third :=
  ⟨hsecond.born.trans hfirst.born, fun pid hpid => hfirst.parents pid (hsecond.parents pid hpid),
    fun node hnode => hfirst.touches node (hsecond.touches node hnode),
    fun hended => hsecond.ended (hfirst.ended hended)⟩

theorem heir_orphan (pid : ℕ) (proc : Proc) :
    Heir proc (proc.orphan none pid) ∧ (proc.orphan none pid).path = proc.path ∧
      (¬ proc.Ended → ¬ (proc.orphan none pid).Ended ∧
        ∀ node, proc.Touches node → (proc.orphan none pid).Touches node) := by
  unfold Proc.orphan
  split_ifs
  · exact ⟨⟨rfl, fun _ hparent => (nomatch hparent), fun _ => id, id⟩, rfl,
      fun halive => ⟨halive, fun _ => id⟩⟩
  · exact ⟨.refl _, rfl, fun halive => ⟨halive, fun _ => id⟩⟩

/-- Looking up a list with one entry replaced. -/
theorem getElem?_set_cases {α : Type*} {list : List α} {index other : ℕ} {value result : α}
    (hresult : (list.set index value)[other]? = some result) :
    (other = index ∧ result = value) ∨ (other ≠ index ∧ list[other]? = some result) := by
  rw [List.getElem?_set] at hresult
  split_ifs at hresult with hindex hlt
  · exact .inl ⟨hindex.symm, (Option.some.inj hresult).symm⟩
  · exact .inr ⟨Ne.symm hindex, hresult⟩

theorem Change.origin (hchange : Change world pid proc after)
    (hproc : world.procs[pid]? = some proc) {index : ℕ} {new : Proc}
    (hnew : after.procs[index]? = some new) : Origin world pid proc index new := by
  have huntouched : world.procs[index]? = some new → Origin world pid proc index new :=
    fun hold => .same hold (.refl _) rfl fun _ halive => ⟨halive, fun _ => id⟩
  have hmine : ∀ {mine : Proc}, Heir proc mine → mine.path = proc.path →
      Origin world pid proc pid mine :=
    fun hheir hpath => .same hproc hheir hpath fun hpid => absurd rfl hpid
  cases hchange with
  | moved hprocs hgoes hpath =>
      rw [hprocs] at hnew
      obtain ⟨rfl, rfl⟩ | ⟨-, hold⟩ := getElem?_set_cases hnew
      · obtain hpath | ⟨pos, edge, henters, hpath⟩ := hpath
        · exact hmine hgoes.toHeir hpath
        · exact .entered rfl hgoes.toHeir henters hpath
      · exact huntouched hold
  | forked hprocs hgoes hpath horderly hchild =>
      rw [hprocs, List.getElem?_append] at hnew
      split_ifs at hnew with hlt
      · obtain ⟨rfl, rfl⟩ | ⟨-, hold⟩ := getElem?_set_cases hnew
        · exact hmine hgoes.toHeir hpath
        · exact huntouched hold
      · rw [List.length_set] at hnew hlt
        obtain ⟨hindex, rfl⟩ := List.getElem?_eq_some_iff.mp hnew
        simp only [List.length_singleton, Nat.lt_one_iff] at hindex
        exact .child (by omega) (by simpa using hchild)
  | reaped hprocs hgoes hpath hkid hparent hzombie =>
      rw [hprocs] at hnew
      obtain ⟨rfl, rfl⟩ | ⟨-, hnew⟩ := getElem?_set_cases hnew
      · exact .same hkid (.of_ended rfl rfl (.inr rfl)) rfl
          fun _ halive => absurd (.inl hzombie) halive
      · obtain ⟨rfl, rfl⟩ | ⟨-, hold⟩ := getElem?_set_cases hnew
        · exact hmine hgoes.toHeir hpath
        · exact huntouched hold
  | died hprocs =>
      rw [hprocs, World.die, List.getElem?_map, Option.map_eq_some_iff] at hnew
      obtain ⟨before, hbefore, rfl⟩ := hnew
      obtain ⟨horphan, hpath, hkept⟩ := heir_orphan pid before
      obtain ⟨rfl, rfl⟩ | ⟨-, hold⟩ := getElem?_set_cases hbefore
      · have hdead : Heir proc { proc with status := .zombie } := .of_ended rfl rfl (.inl rfl)
        exact hmine (hdead.trans horphan) hpath
      · exact .same hold horphan hpath fun _ => hkept

/-- Who was on the way to what a process is on the way to now. -/
theorem Change.owner (hchange : Change world pid proc after)
    (hproc : world.procs[pid]? = some proc) {index : ℕ} {new : Proc} {node : Pos}
    (hnew : after.procs[index]? = some new) (htouches : new.Touches node) :
    ∃ (owner : ℕ) (old : Proc), world.procs[owner]? = some old ∧ old.Touches node ∧
      (index = owner ∨ (index = world.procs.length ∧ owner = pid)) := by
  cases hchange.origin hproc hnew with
  | same hold hheir => exact ⟨_, _, hold, hheir.touches node htouches, .inl rfl⟩
  | entered hindex hheir => exact ⟨_, _, hproc, hheir.touches node htouches, .inl hindex⟩
  | child hindex hchild => exact ⟨_, _, hproc, hchild.source node htouches, .inr ⟨hindex, rfl⟩⟩

/-- What is live after the step was live before it. -/
theorem Change.live (hchange : Change world pid proc after)
    (hproc : world.procs[pid]? = some proc) {node : Pos} (hlive : after.Live node) :
    world.Live node := by
  obtain ⟨new, hmem, htouches⟩ := hlive
  obtain ⟨index, hnew⟩ := List.mem_iff_getElem?.mp hmem
  obtain ⟨_, old, hold, hnode, -⟩ := hchange.owner hproc hnew htouches
  exact ⟨old, List.mem_of_getElem? hold, hnode⟩

/-- A child and its parent have different things to do. -/
theorem Change.child_apart (hchange : Change world pid proc after)
    (hproc : world.procs[pid]? = some proc) {new child : Proc} {node : Pos}
    (hnew : after.procs[pid]? = some new) (hchild : after.procs[world.procs.length]? = some child)
    (htouches : new.Touches node) : ¬ child.Touches node := by
  have hlt : pid < world.procs.length := (List.getElem?_eq_some_iff.mp hproc).1
  cases hchange with
  | moved hprocs | reaped hprocs => simp [hprocs] at hchild
  | died hprocs => simp [hprocs, World.die] at hchild
  | forked hprocs _ _ _ _ hapart =>
      rw [hprocs, List.getElem?_append_left (by simpa using hlt),
        List.getElem?_set_self hlt] at hnew
      rw [hprocs, List.getElem?_append_right (by simp)] at hchild
      obtain rfl := Option.some.inj hnew
      obtain rfl : _ = child := by simpa using hchild
      exact hapart node htouches

/-! ## Unreaped children -/

theorem kidShare_goesOn {new : Proc} (hgoes : GoesOn proc new) (other : ℕ) :
    kidShare other new = kidShare other proc := by
  have hnew : new.status ≠ .reaped := fun hreaped => hgoes.alive (.inr hreaped)
  simp [kidShare, Proc.IsKid, hgoes.parent, hgoes.born, hgoes.running, hnew]

theorem kidShare_of_parent {kid : Proc} {other : ℕ} (hparent : kid.parent ≠ some other) :
    kidShare other kid = 0 := by
  simp [kidShare, Proc.IsKid, hparent]

theorem kids_moved {new : Proc} (hproc : world.procs[pid]? = some proc)
    (hprocs : after.procs = world.procs.set pid new) (hgoes : GoesOn proc new) (other : ℕ) :
    after.kids other = world.kids other := by
  rw [World.kids, hprocs]
  exact ListSum.total_set_eq hproc (kidShare_goesOn hgoes other)

theorem kids_forked {new child : Proc} {pos : Pos} {edge : Edge}
    (hproc : world.procs[pid]? = some proc)
    (hprocs : after.procs = world.procs.set pid new ++ [child]) (hgoes : GoesOn proc new)
    (hchild : IsChild pid proc child pos edge) (other : ℕ) :
    after.kids other =
      if other = pid then (pos ++ [edge]) ::ₘ world.kids pid else world.kids other := by
  have hset : ListSum.total (kidShare other) (world.procs.set pid new) = world.kids other :=
    ListSum.total_set_eq hproc (kidShare_goesOn hgoes other)
  have hshare : kidShare other child = if other = pid then {pos ++ [edge]} else 0 := by
    have hreaped : child.status ≠ .reaped := fun hreaped => hchild.alive (.inr hreaped)
    simp [kidShare, Proc.IsKid, hchild.parent, hchild.born, hreaped, eq_comm]
  rw [World.kids, hprocs, ListSum.total_append, hset, ListSum.total_cons, ListSum.total_nil, hshare]
  split_ifs with hother
  · rw [hother, add_zero, add_comm, Multiset.singleton_add]
  · rw [add_zero, add_zero]

theorem kids_reaped {new kid : Proc} {child : ℕ} (hproc : world.procs[pid]? = some proc)
    (hprocs : after.procs = (world.procs.set pid new).set child { kid with status := .reaped })
    (hgoes : GoesOn proc new) (hkid : world.procs[child]? = some kid)
    (hparent : kid.parent = some pid) (hzombie : kid.status = .zombie) (other : ℕ) :
    after.kids other =
      if other = pid then (world.kids pid).erase kid.born else world.kids other := by
  have hdifferent := ne_of_zombie hproc hgoes.running hkid hzombie
  have hother : (world.procs.set pid new)[child]? = some kid := by
    rw [List.getElem?_set_ne hdifferent, hkid]
  obtain ⟨rest, hbefore, hset⟩ := ListSum.total_split (kidShare other) hother
  rw [ListSum.total_set_eq hproc (kidShare_goesOn hgoes other)] at hbefore
  have hreaped : kidShare other { kid with status := .reaped } = 0 := by
    simp [kidShare, Proc.IsKid]
  have hafter : after.kids other = rest := by
    rw [World.kids, hprocs, hset, hreaped, zero_add]
  rw [← World.kids] at hbefore
  rw [hafter]
  split_ifs with hpid
  · subst other
    rw [hbefore, show kidShare pid kid = {kid.born} by
      simp [kidShare, Proc.IsKid, hparent, hzombie], Multiset.singleton_add,
      Multiset.erase_cons_head]
  · rw [hbefore, kidShare_of_parent, zero_add]
    simpa [hparent] using Ne.symm hpid

theorem orphan_orderly (other : Proc) (kids : Multiset Pos) :
    (other.orphan none pid).Orderly kids ↔ other.Orderly kids := by
  unfold Proc.orphan
  split_ifs
  · exact Iff.rfl
  · exact Iff.rfl

theorem kids_died (hproc : world.procs[pid]? = some proc)
    (hprocs : after.procs = (world.die none pid proc).procs) (halive : ¬ proc.Ended)
    {other : ℕ} (hother : other ≠ pid) : after.kids other = world.kids other := by
  have horphan : ∀ kid : Proc, kidShare other (kid.orphan none pid) = kidShare other kid := by
    intro kid
    unfold Proc.orphan
    split_ifs with hparent
    · rw [kidShare_of_parent (by simp), kidShare_of_parent]
      simpa [hparent] using Ne.symm hother
    · rfl
  have hzombie : kidShare other { proc with status := .zombie } = kidShare other proc := by
    have hreaped : proc.status ≠ .reaped := fun hreaped => halive (.inr hreaped)
    simp [kidShare, Proc.IsKid, hreaped]
  rw [World.kids, hprocs, World.die, ListSum.total_map _ fun kid _ => horphan kid,
    ListSum.total_set_eq hproc hzombie, World.kids]

/-- Only the children of the process that moves can change. -/
theorem Change.kids_other (hchange : Change world pid proc after)
    (hproc : world.procs[pid]? = some proc) {other : ℕ} (hother : other ≠ pid) :
    after.kids other = world.kids other := by
  cases hchange with
  | moved hprocs hgoes => exact kids_moved hproc hprocs hgoes other
  | forked hprocs hgoes _ _ hchild =>
      rw [kids_forked hproc hprocs hgoes hchild, if_neg hother]
  | reaped hprocs hgoes _ hkid hparent hzombie =>
      rw [kids_reaped hproc hprocs hgoes hkid hparent hzombie, if_neg hother]
  | died hprocs halive => exact kids_died hproc hprocs halive hother

/-! ## The invariant -/

structure World.Foreground (world : World) : Prop where
  /-- Parents are processes. -/
  parents : ∀ proc ∈ world.procs, ∀ pid, proc.parent = some pid → pid < world.procs.length
  orderly : ∀ (pid : ℕ) (proc : Proc), world.procs[pid]? = some proc →
    proc.Orderly (world.kids pid)
  /-- Calls of `runcmd` are nested. -/
  nested : ∀ proc ∈ world.procs, proc.path.Pairwise fun inner outer => outer <+: inner
  /-- A process enters `runcmd` only in the foreground of the node that it was
  made for. -/
  own : ∀ proc ∈ world.procs, ∀ pos ∈ proc.path, proc.born <+: pos → FgUnder proc.born pos
  scope : ∀ proc ∈ world.procs, ∀ node, proc.Touches node → proc.born <+: node
  /-- No two processes are on their way to the same node. -/
  apart : ∀ (left right : ℕ) (first second : Proc) (node : Pos),
    world.procs[left]? = some first → world.procs[right]? = some second →
      first.Touches node → second.Touches node → left = right
  covered : ∀ (pid : ℕ) (proc : Proc), world.procs[pid]? = some proc → ∀ node,
    FgUnder proc.born node → world.Live node →
      ¬ proc.Ended ∧ (proc.Touches node ∨ ∃ kid ∈ world.kids pid, FgUnder kid node)
  /-- The left side of a list is over when its right side has been entered. -/
  listed : ∀ proc ∈ world.procs, ∀ pos, ∀ inner ∈ proc.path, pos ++ [.listR] <+: inner →
    ∀ node, FgUnder (pos ++ [.listL]) node → ¬ world.Live node

/-- The innermost activation is at the end of all others. -/
theorem prefix_top {path : List Pos} {pos : Pos}
    (hnested : path.Pairwise fun inner outer => outer <+: inner)
    (htop : path.head? = some pos) : ∀ outer ∈ path, outer <+: pos := by
  cases path with
  | nil => simp at htop
  | cons top path =>
      obtain rfl : top = pos := by simpa using htop
      intro outer houter
      obtain rfl | houter := List.mem_cons.mp houter
      · exact List.prefix_rfl
      · exact (List.pairwise_cons.mp hnested).1 outer houter

theorem not_prefix_snoc {pos outer : Pos} {edge : Edge} (houter : outer <+: pos) :
    ¬ pos ++ [edge] <+: outer := by
  intro hlonger
  have := (hlonger.trans houter).length_le
  simp at this

namespace Change

variable (hchange : Change world pid proc after) (hproc : world.procs[pid]? = some proc)
  (hworld : world.Foreground)

include hchange hproc hworld

theorem scope : ∀ new ∈ after.procs, ∀ node, new.Touches node → new.born <+: node := by
  intro new hmem node htouches
  obtain ⟨index, hnew⟩ := List.mem_iff_getElem?.mp hmem
  cases hchange.origin hproc hnew with
  | same hold hheir =>
      rw [hheir.born]
      exact hworld.scope _ (List.mem_of_getElem? hold) node (hheir.touches node htouches)
  | entered _ hheir =>
      rw [hheir.born]
      exact hworld.scope _ (List.mem_of_getElem? hproc) node (hheir.touches node htouches)
  | child _ hchild =>
      rw [hchild.born]
      exact (hchild.touches node).mp htouches

theorem nested :
    ∀ new ∈ after.procs, new.path.Pairwise fun inner outer => outer <+: inner := by
  intro new hmem
  obtain ⟨index, hnew⟩ := List.mem_iff_getElem?.mp hmem
  have hmine := hworld.nested proc (List.mem_of_getElem? hproc)
  cases hchange.origin hproc hnew with
  | same hold _ hpath =>
      rw [hpath]
      exact hworld.nested _ (List.mem_of_getElem? hold)
  | entered _ _ henters hpath =>
      rw [hpath]
      refine List.Pairwise.cons (fun outer houter => ?_) hmine
      exact (prefix_top hmine henters.top outer houter).trans (List.prefix_append _ _)
  | child _ hchild =>
      rw [hchild.path]
      exact hmine

theorem own :
    ∀ new ∈ after.procs, ∀ pos ∈ new.path, new.born <+: pos → FgUnder new.born pos := by
  intro new hmem pos hpos hborn
  obtain ⟨index, hnew⟩ := List.mem_iff_getElem?.mp hmem
  cases hchange.origin hproc hnew with
  | same hold hheir hpath =>
      rw [hheir.born] at hborn ⊢
      rw [hpath] at hpos
      exact hworld.own _ (List.mem_of_getElem? hold) pos hpos hborn
  | entered _ hheir henters hpath =>
      rw [hheir.born] at hborn ⊢
      rw [hpath] at hpos
      obtain rfl | hpos := List.mem_cons.mp hpos
      · exact henters.fg
      · exact hworld.own _ (List.mem_of_getElem? hproc) pos hpos hborn
  | child _ hchild =>
      -- the activations that a child inherits are outside of its own node
      rw [hchild.born] at hborn
      rw [hchild.path] at hpos
      have hmine := hworld.nested proc (List.mem_of_getElem? hproc)
      exact absurd hborn (not_prefix_snoc (prefix_top hmine hchild.top pos hpos))

theorem listed : ∀ new ∈ after.procs, ∀ pos, ∀ inner ∈ new.path, pos ++ [.listR] <+: inner →
    ∀ node, FgUnder (pos ++ [.listL]) node → ¬ after.Live node := by
  intro new hmem pos inner hinner hright node hleft hlive
  have hbefore := hchange.live hproc hlive
  have hpmem := List.mem_of_getElem? hproc
  obtain ⟨index, hnew⟩ := List.mem_iff_getElem?.mp hmem
  cases hchange.origin hproc hnew with
  | same hold _ hpath =>
      rw [hpath] at hinner
      exact hworld.listed _ (List.mem_of_getElem? hold) pos inner hinner hright node hleft hbefore
  | @entered top edge _ _ henters hpath =>
      rw [hpath] at hinner
      obtain rfl | hinner := List.mem_cons.mp hinner
      · obtain hright | hright := List.prefix_concat_iff.mp hright
        · -- the right side is entered by this very step
          obtain ⟨rfl, heq⟩ := List.append_inj' hright rfl
          obtain rfl : Edge.listR = edge := (List.cons.inj heq).1
          have hborn : FgUnder proc.born node :=
            ((henters.list rfl).snoc (by decide)).trans hleft
          obtain ⟨-, htouches | ⟨kid, hkid, -⟩⟩ := hworld.covered _ _ hproc node hborn hbefore
          · have := edge_unique ((henters.touches node).mp htouches) hleft.isPrefix
            cases this
          · rw [henters.kids] at hkid
            simp at hkid
        · have htop : top ∈ proc.path := List.mem_of_mem_head? henters.top
          exact hworld.listed _ hpmem pos top htop hright node hleft hbefore
      · exact hworld.listed _ hpmem pos inner hinner hright node hleft hbefore
  | child _ hchild =>
      rw [hchild.path] at hinner
      exact hworld.listed _ hpmem pos inner hinner hright node hleft hbefore

theorem apart : ∀ (left right : ℕ) (first second : Proc) (node : Pos),
    after.procs[left]? = some first → after.procs[right]? = some second →
      first.Touches node → second.Touches node → left = right := by
  intro left right first second node hfirst hsecond htouches htouches'
  obtain ⟨leftOwner, old, hold, hnode, hleft⟩ := hchange.owner hproc hfirst htouches
  obtain ⟨rightOwner, old', hold', hnode', hright⟩ := hchange.owner hproc hsecond htouches'
  have howner := hworld.apart _ _ _ _ node hold hold' hnode hnode'
  obtain rfl | ⟨rfl, rfl⟩ := hleft
  · obtain rfl | ⟨rfl, rfl⟩ := hright
    · exact howner
    · subst howner
      exact absurd htouches' (hchange.child_apart hproc hfirst hsecond htouches)
  · obtain rfl | ⟨rfl, rfl⟩ := hright
    · subst howner
      exact absurd htouches (hchange.child_apart hproc hsecond hfirst htouches')
    · rfl

omit hworld hproc in
theorem length_le : world.procs.length ≤ after.procs.length := by
  cases hchange with
  | moved hprocs | reaped hprocs => simp [hprocs]
  | forked hprocs => simp [hprocs]
  | died hprocs => simp [hprocs, World.die]

theorem parents : ∀ new ∈ after.procs, ∀ other, new.parent = some other →
    other < after.procs.length := by
  intro new hmem other hparent
  obtain ⟨index, hnew⟩ := List.mem_iff_getElem?.mp hmem
  refine lt_of_lt_of_le ?_ hchange.length_le
  cases hchange.origin hproc hnew with
  | same hold hheir =>
      exact hworld.parents _ (List.mem_of_getElem? hold) other (hheir.parents other hparent)
  | entered _ hheir =>
      exact hworld.parents _ (List.mem_of_getElem? hproc) other (hheir.parents other hparent)
  | child _ hchild =>
      obtain rfl := Option.some.inj (hchild.parent.symm.trans hparent)
      exact (List.getElem?_eq_some_iff.mp hproc).1

omit hchange hproc in
/-- The next process to be made has no children yet. -/
theorem kids_next : world.kids world.procs.length = 0 := by
  rw [Multiset.eq_zero_iff_forall_notMem]
  intro pos hpos
  obtain ⟨kid, hkid, hisKid, -⟩ := World.mem_kids.mp hpos
  exact absurd (hworld.parents kid hkid _ hisKid.1) (lt_irrefl _)

theorem orderly : ∀ (index : ℕ) (new : Proc), after.procs[index]? = some new →
    new.Orderly (after.kids index) := by
  intro index new hnew
  have hlt : pid < world.procs.length := (List.getElem?_eq_some_iff.mp hproc).1
  cases hchange with
  | moved hprocs hgoes _ horderly =>
      rw [kids_moved hproc hprocs hgoes]
      rw [hprocs] at hnew
      obtain ⟨rfl, rfl⟩ | ⟨-, hold⟩ := getElem?_set_cases hnew
      · exact horderly
      · exact hworld.orderly _ _ hold
  | forked hprocs hgoes _ horderly hchild =>
      rw [kids_forked hproc hprocs hgoes hchild]
      rw [hprocs, List.getElem?_append, List.length_set] at hnew
      split_ifs at hnew with hindex
      · obtain ⟨rfl, rfl⟩ | ⟨hother, hold⟩ := getElem?_set_cases hnew
        · rw [if_pos rfl]
          exact horderly
        · rw [if_neg hother]
          exact hworld.orderly _ _ hold
      · obtain ⟨hzero, rfl⟩ := List.getElem?_eq_some_iff.mp hnew
        simp only [List.length_singleton, Nat.lt_one_iff] at hzero
        obtain rfl : index = world.procs.length := by omega
        rw [if_neg (by omega), kids_next hworld]
        simpa using hchild.orderly
  | reaped hprocs hgoes _ hkid hparent hzombie horderly =>
      rw [kids_reaped hproc hprocs hgoes hkid hparent hzombie]
      rw [hprocs] at hnew
      obtain ⟨-, rfl⟩ | ⟨-, hnew⟩ := getElem?_set_cases hnew
      · exact Proc.orderly_of_ended (.inr rfl) _
      · obtain ⟨rfl, rfl⟩ | ⟨hother, hold⟩ := getElem?_set_cases hnew
        · rw [if_pos rfl]
          exact horderly
        · rw [if_neg hother]
          exact hworld.orderly _ _ hold
  | died hprocs halive =>
      have hkids := @kids_died _ _ _ _ hproc hprocs halive index
      rw [hprocs, World.die, List.getElem?_map, Option.map_eq_some_iff] at hnew
      obtain ⟨before, hbefore, rfl⟩ := hnew
      rw [orphan_orderly]
      obtain ⟨-, rfl⟩ | ⟨hother, hold⟩ := getElem?_set_cases hbefore
      · exact Proc.orderly_of_ended (.inl rfl) _
      · rw [hkids hother]
        exact hworld.orderly _ _ hold

/-- What the process that moves was on its way to is still with it, or with its
new child. -/
theorem passed_on {node : Pos} (htouches : proc.Touches node) (hlive : after.Live node) :
    (∃ new, after.procs[pid]? = some new ∧ new.Touches node) ∨
      ∃ child, after.procs[world.procs.length]? = some child ∧ child.Touches node := by
  obtain ⟨new, hmem, hnode⟩ := hlive
  obtain ⟨index, hnew⟩ := List.mem_iff_getElem?.mp hmem
  obtain ⟨owner, old, hold, htouches', howner⟩ := hchange.owner hproc hnew hnode
  obtain rfl := hworld.apart _ _ _ _ node hold hproc htouches' htouches
  obtain rfl | ⟨rfl, -⟩ := howner
  · exact .inl ⟨new, hnew, hnode⟩
  · exact .inr ⟨new, hnew, hnode⟩

/-- The cover of the process that moves. -/
theorem covered_actor {new : Proc} (hnew : after.procs[pid]? = some new) {node : Pos}
    (hborn : FgUnder proc.born node) (hlive : after.Live node) :
    ¬ new.Ended ∧ (new.Touches node ∨ ∃ kid ∈ after.kids pid, FgUnder kid node) := by
  have hlt : pid < world.procs.length := (List.getElem?_eq_some_iff.mp hproc).1
  have hpassed := fun htouches => hchange.passed_on hproc hworld htouches hlive
  have hbefore := hchange.live hproc hlive
  have hcovered := (hworld.covered _ _ hproc node hborn hbefore).2
  have hmine : ∀ {mine : Proc}, after.procs[pid]? = some mine → mine.Touches node →
      new.Touches node :=
    fun hsome htouches => Option.some.inj (hsome.symm.trans hnew) ▸ htouches
  cases hchange with
  | moved hprocs hgoes =>
      obtain rfl : _ = new := by simpa [hprocs, hlt] using hnew
      refine ⟨hgoes.alive, ?_⟩
      obtain htouches | hkid := hcovered
      · obtain ⟨mine, hsome, hnode⟩ | ⟨child, hchild, -⟩ := hpassed htouches
        · exact .inl (hmine hsome hnode)
        · simp [hprocs] at hchild
      · rw [kids_moved hproc hprocs hgoes]
        exact .inr hkid
  | forked hprocs hgoes _ _ hchild =>
      obtain rfl : _ = new := by
        simpa [hprocs, List.getElem?_append_left, hlt] using hnew
      refine ⟨hgoes.alive, ?_⟩
      rw [kids_forked hproc hprocs hgoes hchild, if_pos rfl]
      obtain htouches | ⟨kid, hkid, hunder⟩ := hcovered
      · obtain ⟨mine, hsome, hnode⟩ | ⟨child, hsome, hnode⟩ := hpassed htouches
        · exact .inl (hmine hsome hnode)
        · obtain rfl : _ = child := by
            simpa [hprocs, List.getElem?_append_right] using hsome
          -- the child was made for a node on the way
          have hstart := hworld.scope _ (List.mem_of_getElem? hproc) _
            (hchild.source _ ((hchild.touches _).mpr List.prefix_rfl))
          exact .inr ⟨_, Multiset.mem_cons_self _ _,
            hborn.of_between hstart ((hchild.touches node).mp hnode)⟩
      · exact .inr ⟨kid, Multiset.mem_cons_of_mem hkid, hunder⟩
  | @reaped goes kid child hprocs hgoes hpath hkid hparent hzombie =>
      have hdifferent := ne_of_zombie hproc hgoes.running hkid hzombie
      obtain rfl : goes = new := by
        rw [hprocs, List.getElem?_set_ne hdifferent.symm, List.getElem?_set_self hlt] at hnew
        exact Option.some.inj hnew
      refine ⟨hgoes.alive, ?_⟩
      rw [kids_reaped hproc hprocs hgoes hkid hparent hzombie, if_pos rfl]
      obtain htouches | ⟨pos, hpos, hunder⟩ := hcovered
      · obtain ⟨mine, hsome, hnode⟩ | ⟨child, hchild, -⟩ := hpassed htouches
        · exact .inl (hmine hsome hnode)
        · simp [hprocs] at hchild
      · by_cases hsame : pos = kid.born
        · subst hsame
          -- a zombie covers nothing any more
          exact absurd (.inl hzombie) (hworld.covered _ _ hkid node hunder hbefore).1
        · exact .inr ⟨pos, (Multiset.mem_erase_of_ne hsame).mpr hpos, hunder⟩
  | died hprocs halive hkids =>
      exfalso
      have hended : new.Ended := by
        rw [hprocs, World.die, List.getElem?_map, List.getElem?_set_self hlt] at hnew
        obtain rfl := Option.some.inj hnew
        exact (heir_orphan pid _).1.ended (.inl rfl)
      obtain htouches | ⟨kid, hkid, hunder⟩ := hcovered
      · obtain ⟨mine, hsome, hnode⟩ | ⟨child, hchild, -⟩ := hpassed htouches
        · exact Proc.not_touches_of_ended hended node (hmine hsome hnode)
        · simp [hprocs, World.die] at hchild
      · exact hkids kid hkid node hborn hunder

theorem covered : ∀ (index : ℕ) (new : Proc), after.procs[index]? = some new → ∀ node,
    FgUnder new.born node → after.Live node →
      ¬ new.Ended ∧ (new.Touches node ∨ ∃ kid ∈ after.kids index, FgUnder kid node) := by
  intro index new hnew node hborn hlive
  have hbefore := hchange.live hproc hlive
  by_cases hindex : index = pid
  · subst hindex
    refine hchange.covered_actor hproc hworld hnew ?_ hlive
    cases hchange.origin hproc hnew with
    | same hold hheir =>
        obtain rfl := Option.some.inj (hproc.symm.trans hold)
        exact hheir.born ▸ hborn
    | entered _ hheir => exact hheir.born ▸ hborn
    | child hlength =>
        have := (List.getElem?_eq_some_iff.mp hproc).1
        omega
  · rw [hchange.kids_other hproc hindex]
    cases hchange.origin hproc hnew with
    | same hold hheir _ hkept =>
        obtain ⟨halive, hcovered⟩ := hworld.covered _ _ hold node (hheir.born ▸ hborn) hbefore
        obtain ⟨halive, htouches⟩ := hkept hindex halive
        exact ⟨halive, hcovered.imp_left (htouches node)⟩
    | entered hpid => exact absurd hpid hindex
    | child _ hchild =>
        rw [hchild.born] at hborn
        exact ⟨hchild.alive, .inl ((hchild.touches node).mpr hborn.isPrefix)⟩

theorem foreground : after.Foreground where
  parents := hchange.parents hproc hworld
  orderly := hchange.orderly hproc hworld
  nested := hchange.nested hproc hworld
  own := hchange.own hproc hworld
  scope := hchange.scope hproc hworld
  apart := hchange.apart hproc hworld
  covered := hchange.covered hproc hworld
  listed := hchange.listed hproc hworld

end Change

end Change

/-! ## Whole runs -/

/-- The processes of a command as long as `fork` succeeds; orphans leave. -/
def forkingMachine (cmd : Cmd) (input output error : Desc) : System World Label :=
  (machine none cmd input output error).restrict fun label => label.act ≠ .forkFails

section Runs

variable {cmd : Cmd} {input output error : Desc} {world : World}

theorem foreground_start (cmd : Cmd) (input output error : Desc) :
    (World.start cmd input output error).Foreground := by
  have hkids : (World.start cmd input output error).kids 0 = 0 := by
    simp [World.kids, World.start, kidShare, Proc.IsKid]
  -- the only process, and its number
  have honly : ∀ {index : ℕ} {proc : Proc},
      (World.start cmd input output error).procs[index]? = some proc →
        index = 0 ∧ (World.start cmd input output error).procs = [proc] := by
    intro index proc hproc
    obtain ⟨hindex, rfl⟩ := List.getElem?_eq_some_iff.mp hproc
    obtain rfl : index = 0 := by simpa [World.start] using hindex
    exact ⟨rfl, rfl⟩
  constructor
  · intro proc hproc pid hparent
    obtain rfl := List.mem_singleton.mp hproc
    cases hparent
  · intro pid proc hproc
    obtain ⟨rfl, -⟩ := honly hproc
    cases hproc
    rw [hkids]
    exact Proc.orderly_of_frame rfl rfl (runcmd_orderly cmd (.refl []))
  · intro proc hproc
    obtain rfl := List.mem_singleton.mp hproc
    exact List.pairwise_singleton _ _
  · intro proc hproc pos hpos _
    obtain rfl := List.mem_singleton.mp hproc
    obtain rfl := List.mem_singleton.mp hpos
    exact .refl []
  · intro proc hproc node _
    obtain rfl := List.mem_singleton.mp hproc
    exact List.nil_prefix
  · intro left right first second node hfirst hsecond _ _
    rw [(honly hfirst).1, (honly hsecond).1]
  · intro pid proc hproc node _ hlive
    obtain ⟨-, hprocs⟩ := honly hproc
    obtain ⟨other, hother, htouches⟩ := hlive
    rw [hprocs] at hother
    obtain rfl := List.mem_singleton.mp hother
    exact ⟨fun hended => Proc.not_touches_of_ended hended node htouches, .inl htouches⟩
  · intro proc hproc pos inner hinner hright
    obtain rfl := List.mem_singleton.mp hproc
    obtain rfl := List.mem_singleton.mp hinner
    simp at hright

theorem foreground_step {before after : World} {label : Label} (hbefore : before.Foreground)
    (hstep : (forkingMachine cmd input output error).step before label after) :
    ∃ proc, before.procs[label.pid]? = some proc ∧
      Moves none before label.pid proc label.act after ∧
        Change before label.pid proc after := by
  obtain ⟨proc, hproc, hmoves⟩ := moves_of_step hstep.2
  exact ⟨proc, hproc, hmoves, hmoves.change hstep.1 (hbefore.orderly _ _ hproc)⟩

theorem foreground_reachable
    (hreach : (forkingMachine cmd input output error).Reachable world) : world.Foreground := by
  apply System.invariant_of_step (I := World.Foreground) ?_ ?_ hreach
  · rintro _ rfl
    exact foreground_start cmd input output error
  · intro before label after _ ih hstep
    obtain ⟨proc, hproc, -, hchange⟩ := foreground_step ih hstep
    exact hchange.foreground hproc ih

/-! ## Programs that are over -/

/-- The process runs the program of the node. -/
def Proc.Runs (proc : Proc) (node : Pos) : Prop :=
  proc.status = .program ∧ proc.path.head? = some node

/-- The program of the node does not run, and from now on it neither runs nor is
passed to `execve`. -/
def World.Over (system : System World Label) (world : World) (node : Pos) : Prop :=
  ∀ labels later, system.Run world labels later →
    (∀ proc ∈ later.procs, ¬ proc.Runs node) ∧
      ∃ more, later.execs = world.execs ++ more ∧ ∀ exec ∈ more, exec.node ≠ node

theorem Proc.Runs.touches {proc : Proc} {node : Pos} (hruns : proc.Runs node) :
    proc.Touches node := by
  obtain ⟨hstatus, hpath⟩ := hruns
  cases hframes : proc.frames with
  | nil => simp [path, hframes] at hpath
  | cons frame callers =>
      obtain rfl : frame.pos = node := by simpa [path, hframes] using hpath
      simp [Touches, hstatus, hframes]

/-- Only live nodes reach `execve`. -/
theorem Moves.execs_live {after : World} {pid : ℕ} {proc : Proc} {act : Act}
    (hmoves : Moves none world pid proc act after) (hproc : world.procs[pid]? = some proc) :
    ∃ more, after.execs = world.execs ++ more ∧ ∀ exec ∈ more, world.Live exec.node := by
  cases hmoves with
  | quiet hstatus hframes hquiet =>
      refine ⟨_, rfl, fun exec hexec => ⟨proc, List.mem_of_getElem? hproc, ?_⟩⟩
      rw [proc.touches_running hstatus hframes]
      cases hquiet with
      | executed hcode | execFailed hcode =>
          obtain rfl := List.mem_singleton.mp hexec
          rw [hcode]
          exact List.prefix_rfl
      | _ => cases hexec
  | _ => exact ⟨[], (List.append_nil _).symm, by simp⟩

theorem over_of_not_live (hworld : world.Foreground) {node : Pos} (hdead : ¬ world.Live node) :
    world.Over (forkingMachine cmd input output error) node := by
  intro labels later hrun
  have hlater : later.Foreground ∧ ¬ later.Live node ∧
      ∃ more, later.execs = world.execs ++ more ∧ ∀ exec ∈ more, exec.node ≠ node := by
    apply System.Run.preserves (P := fun later => later.Foreground ∧ ¬ later.Live node ∧
      ∃ more, later.execs = world.execs ++ more ∧ ∀ exec ∈ more, exec.node ≠ node)
      ?_ hrun ⟨hworld, hdead, [], by simp, by simp⟩
    rintro before label after ⟨hbefore, hdead, more, hmore, hother⟩ hstep
    obtain ⟨proc, hproc, hmoves, hchange⟩ := foreground_step hbefore hstep
    obtain ⟨next, hnext, hlive⟩ := hmoves.execs_live hproc
    refine ⟨hchange.foreground hproc hbefore, fun hlive => hdead (hchange.live hproc hlive),
      more ++ next, by rw [hnext, hmore, List.append_assoc], fun exec hexec => ?_⟩
    obtain hexec | hexec := List.mem_append.mp hexec
    · exact hother exec hexec
    · rintro rfl
      exact hdead (hlive exec hexec)
  exact ⟨fun proc hproc hruns => hlater.2.1 ⟨proc, hproc, hruns.touches⟩, hlater.2.2⟩

/-! ## Programs that have been started -/

end Runs

/-- The nodes of the programs of a command. -/
def Cmd.programs : Cmd → Pos → List Pos
  | .exec argv _, pos => if (argv 0).isNone then [] else [pos]
  | .redir cmd _ _ _ _, pos => cmd.programs (pos ++ [.redir])
  | .pipe left right, pos => left.programs (pos ++ [.pipeL]) ++ right.programs (pos ++ [.pipeR])
  | .list left right, pos => left.programs (pos ++ [.listL]) ++ right.programs (pos ++ [.listR])
  | .back cmd, pos => cmd.programs (pos ++ [.back])

/-- The nodes of the programs that code will start when its system calls succeed. -/
def Code.programs (pos : Pos) : Code → List Pos
  | .exit _ _ => []
  | .execve _ _ => [pos]
  | .print next => next.programs pos
  | .close _ next => next.programs pos
  | .open _ _ _ opened => opened.programs pos
  | .pipe _ made => made.programs pos
  | .dup _ next => next.programs pos
  | .fork _ child parent => child.programs pos ++ parent.programs pos
  | .wait next => next.programs pos
  | .call edge cmd _ => cmd.programs (pos ++ [edge])
  | .done => []

theorem runcmd_programs (cmd : Cmd) (pos : Pos) :
    (runcmd cmd).programs pos = cmd.programs pos := by
  cases cmd with
  | exec argv eargv =>
      simp only [runcmd, Cmd.programs]
      split_ifs <;> rfl
  | redir cmd file efile mode fd => rfl
  | pipe left right =>
      simp [runcmd, Code.assertPipe, Code.last, Code.programs, Cmd.programs]
  | list left right => rfl
  | back cmd => simp [runcmd, Code.last, Code.programs, Cmd.programs]

theorem Cmd.prefix_of_mem_programs {cmd : Cmd} {pos node : Pos}
    (hnode : node ∈ cmd.programs pos) : pos <+: node := by
  induction cmd generalizing pos with
  | exec argv eargv =>
      rw [programs] at hnode
      split_ifs at hnode
      · simp at hnode
      · rw [List.mem_singleton.mp hnode]
  | redir cmd file efile mode fd ih => exact (List.prefix_append _ _).trans (ih hnode)
  | pipe left right ihLeft ihRight | list left right ihLeft ihRight =>
      obtain hnode | hnode := List.mem_append.mp hnode
      · exact (List.prefix_append _ _).trans (ihLeft hnode)
      · exact (List.prefix_append _ _).trans (ihRight hnode)
  | back cmd ih => exact (List.prefix_append _ _).trans (ih hnode)

theorem Code.reaches_of_mem_programs {code : Code} {pos node : Pos}
    (hnode : node ∈ code.programs pos) : code.Reaches pos node := by
  induction code with
  | exit | done => cases hnode
  | execve argv failed =>
      rw [List.mem_singleton.mp hnode]
      exact List.prefix_rfl
  | print next ih | close fd next ih | dup fd next ih | wait next ih => exact ih hnode
  | «open» path mode failed opened _ ih => exact .inr (ih hnode)
  | pipe failed made _ ih => exact .inr (ih hnode)
  | fork edge child parent ihChild ihParent =>
      exact (List.mem_append.mp hnode).imp ihChild ihParent
  | call edge cmd next => exact Cmd.prefix_of_mem_programs hnode

/-- The process will start the program of the node, or a child of it will. -/
def Proc.Holds (proc : Proc) (node : Pos) : Prop :=
  proc.status = .running ∧ ∃ frame callers, proc.frames = frame :: callers ∧
    node ∈ frame.code.programs frame.pos

theorem Proc.Holds.touches {proc : Proc} {node : Pos} (hholds : proc.Holds node) :
    proc.Touches node := by
  obtain ⟨hstatus, frame, callers, hframes, hnode⟩ := hholds
  exact (proc.touches_running hstatus hframes node).mpr (Code.reaches_of_mem_programs hnode)

section Started

variable {world after : World} {pid : ℕ} {proc : Proc} {act : Act} {node : Pos}

/-- A system call that succeeds loses no program. -/
theorem Quiet.holds {pipes : List Pos} {frame : Frame} {fds : Fds} {outcome : Outcome}
    (hquiet : Quiet pipes frame fds act outcome) (hact : act.Succeeds)
    (hnode : node ∈ frame.code.programs frame.pos) (callers : List Frame) :
    (proc.became callers outcome).Holds node ∨ ∃ exec ∈ outcome.execs, exec.node = node := by
  cases hquiet with
  | print hcode | close hcode | dup hcode | opened hcode | made hcode =>
      rw [hcode] at hnode
      exact .inl ⟨rfl, _, callers, rfl, hnode⟩
  | executed hcode | execFailed hcode =>
      rw [hcode] at hnode
      exact .inr ⟨_, List.mem_singleton_self _, (List.mem_singleton.mp hnode).symm⟩
  | openFailed => exact absurd rfl hact.2.2
  | pipeFailed => exact absurd rfl hact.2.1
  | forkFailed => exact absurd rfl hact.1

theorem Moves.holds_actor (hmoves : Moves none world pid proc act after)
    (hproc : world.procs[pid]? = some proc) (hact : act.Succeeds) (hholds : proc.Holds node) :
    (∃ new ∈ after.procs, new.Holds node) ∨ ∃ exec ∈ after.execs, exec.node = node := by
  have hlt : pid < world.procs.length := (List.getElem?_eq_some_iff.mp hproc).1
  obtain ⟨hrunning, top, rest, htop, hnode⟩ := hholds
  -- the activation that the case is about is the innermost one
  have htop' : ∀ {frame callers}, proc.frames = frame :: callers → frame = top :=
    fun hframes => (List.cons.inj (hframes.symm.trans htop)).1
  cases hmoves with
  | quiet hstatus hframes hquiet =>
      obtain rfl := htop' hframes
      obtain hnew | ⟨exec, hexec, heq⟩ := @Quiet.holds proc _ _ _ _ _ _ hquiet hact hnode _
      · exact .inl ⟨_, List.mem_set hlt _, hnew⟩
      · exact .inr ⟨exec, List.mem_append_right _ hexec, heq⟩
  | fork hstatus hframes hcode =>
      obtain rfl := htop' hframes
      rw [hcode] at hnode
      obtain hnode | hnode := List.mem_append.mp hnode
      · exact .inl ⟨_, List.mem_append_right _ (List.mem_singleton_self _),
          hstatus, _, _, rfl, hnode⟩
      · exact .inl ⟨_, List.mem_append_left _ (List.mem_set hlt _), hstatus, _, _, rfl, hnode⟩
  | @reap frame callers next child kid hstatus hframes hcode hkid hparent hzombie =>
      obtain rfl := htop' hframes
      rw [hcode] at hnode
      have hdifferent := ne_of_zombie hproc hstatus hkid hzombie
      have hnew : ((world.put pid (proc.at frame callers next)).put child
          { kid with status := .reaped }).procs[pid]? = some (proc.at frame callers next) := by
        simp only [World.put]
        rw [List.getElem?_set_ne hdifferent.symm, List.getElem?_set_self hlt]
      exact .inl ⟨_, List.mem_of_getElem? hnew, hstatus, _, _, rfl, hnode⟩
  | childless hstatus hframes hcode hnone =>
      obtain rfl := htop' hframes
      rw [hcode] at hnode
      exact .inl ⟨_, List.mem_set hlt _, hstatus, _, _, rfl, hnode⟩
  | @call frame callers edge cmd next hstatus hframes hcode =>
      obtain rfl := htop' hframes
      rw [hcode] at hnode
      refine .inl ⟨_, List.mem_set hlt _, hstatus, _, _, rfl, ?_⟩
      rw [runcmd_programs]
      exact hnode
  | ret hstatus hframes hcode =>
      obtain rfl := htop' hframes
      rw [hcode] at hnode
      cases hnode
  | exit hstatus hframes hcode =>
      obtain rfl := htop' hframes
      rw [hcode] at hnode
      cases hnode
  | finish hstatus =>
      rw [hrunning] at hstatus
      cases hstatus

/-- A process that does not move keeps its programs. -/
theorem Moves.holds_other (hmoves : Moves none world pid proc act after) {index : ℕ}
    {other : Proc} (hindex : index ≠ pid)
    (hother : world.procs[index]? = some other) (hholds : other.Holds node) :
    ∃ new ∈ after.procs, new.Holds node := by
  have hset : ∀ new : Proc, other ∈ world.procs.set pid new := fun new =>
    List.mem_of_getElem? ((List.getElem?_set_ne hindex.symm).trans hother)
  have hdie : ∃ new ∈ (world.die none pid proc).procs, new.Holds node := by
    refine ⟨other.orphan none pid, List.mem_map_of_mem (hset _), ?_⟩
    unfold Proc.orphan
    split_ifs
    · exact hholds
    · exact hholds
  cases hmoves with
  | quiet | childless | call | ret => exact ⟨other, hset _, hholds⟩
  | fork => exact ⟨other, List.mem_append_left _ (hset _), hholds⟩
  | @reap frame callers next child kid hstatus hframes hcode hkid hparent hzombie =>
      have hdifferent := ne_of_zombie hother hholds.1 hkid hzombie
      refine ⟨other, List.mem_of_getElem? (i := index) ?_, hholds⟩
      simp only [World.put]
      rw [List.getElem?_set_ne hdifferent.symm, List.getElem?_set_ne hindex.symm, hother]
  | exit | finish => exact hdie

end Started

section Runs

variable {cmd : Cmd} {input output error : Desc} {world : World}

/-- As long as nothing fails, each program is on its way or has been started. -/
theorem smooth_accounted (hreach : (smoothMachine none cmd input output error).Reachable world) :
    ∀ node ∈ cmd.programs [], (∃ proc ∈ world.procs, proc.Holds node) ∨
      ∃ exec ∈ world.execs, exec.node = node := by
  apply System.invariant_of_step (I := fun world => ∀ node ∈ cmd.programs [],
    (∃ proc ∈ world.procs, proc.Holds node) ∨ ∃ exec ∈ world.execs, exec.node = node)
    ?_ ?_ hreach
  · rintro _ rfl node hnode
    refine .inl ⟨_, List.mem_singleton_self _, rfl, _, _, rfl, ?_⟩
    rw [runcmd_programs]
    exact hnode
  · intro before ⟨pid, act⟩ after _ ih hstep node hnode
    obtain ⟨proc, hproc, hmoves⟩ := moves_of_step hstep.2
    obtain ⟨holder, hmem, hholds⟩ | ⟨exec, hexec, heq⟩ := ih node hnode
    · obtain ⟨index, hholder⟩ := List.mem_iff_getElem?.mp hmem
      by_cases hindex : index = pid
      · subst hindex
        obtain rfl := Option.some.inj (hproc.symm.trans hholder)
        exact hmoves.holds_actor hproc hstep.1 hholds
      · exact .inl (hmoves.holds_other hindex hholder hholds)
    · obtain ⟨more, hmore, -⟩ := hmoves.execs_live hproc
      exact .inr ⟨exec, hmore ▸ List.mem_append_left _ hexec, heq⟩

/-- The program of the node has terminated: it is over, and unless an `open` or
a `pipe` has failed it has been started. -/
def World.Terminated (cmd : Cmd) (input output error : Desc) (world : World) (node : Pos) :
    Prop :=
  world.Over (forkingMachine cmd input output error) node ∧
    ((smoothMachine none cmd input output error).Reachable world → node ∈ cmd.programs [] →
      ∃ exec ∈ world.execs, exec.node = node)

theorem terminated_of_not_live
    (hreach : (forkingMachine cmd input output error).Reachable world) {node : Pos}
    (hdead : ¬ world.Live node) : world.Terminated cmd input output error node := by
  refine ⟨over_of_not_live (foreground_reachable hreach) hdead, fun hsmooth hnode => ?_⟩
  obtain ⟨proc, hproc, hholds⟩ | hexec := smooth_accounted hsmooth node hnode
  · exact absurd ⟨proc, hproc, hholds.touches⟩ hdead
  · exact hexec

end Runs

/-- The next system call of the process is the first one of `code`, in a call of
`runcmd` for the node at `pos`. -/
def Proc.Stands (proc : Proc) (pos : Pos) (code : Code) : Prop :=
  proc.status = .running ∧ ∃ frame callers, proc.frames = frame :: callers ∧
    frame.pos = pos ∧ frame.code = code

theorem Proc.Stands.orderly {proc : Proc} {pos : Pos} {code : Code} {kids : Multiset Pos}
    (hstands : proc.Stands pos code) (horderly : proc.Orderly kids) :
    code.Orderly pos proc.born kids := by
  obtain ⟨hstatus, frame, callers, hframes, rfl, rfl⟩ := hstands
  exact horderly.1 frame callers hstatus hframes

/-- In every interleaving: who enters `runcmd` has no unreaped child; each `wait4`
has one to reap, and it was forked by the same node; nobody returns from
`runcmd`; what stands at an `execve` on the right of a list finds the foreground
of its left terminated; and who has ended has, for each node that it entered,
seen the foreground programs under it terminated. -/
theorem runcmd_foreground_order (cmd : Cmd) (input output error : Desc) (world : World)
    (hreach : (forkingMachine cmd input output error).Reachable world) :
    (∀ (pid : ℕ) (proc : Proc), world.procs[pid]? = some proc → ∀ pos,
      (∀ edge sub next, proc.Stands pos (.call edge sub next) →
        ∀ kid ∈ world.procs, ¬ kid.IsKid pid) ∧
      (∀ next, proc.Stands pos (.wait next) →
        (∃ kid ∈ world.procs, kid.IsKid pid) ∧
          ∀ kid ∈ world.procs, kid.IsKid pid → ∃ edge, kid.born = pos ++ [edge]) ∧
      ¬ proc.Stands pos .done ∧
      (∀ argv failed list, proc.Stands pos (.execve argv failed) →
        list ++ [.listR] <+: pos → ∀ node, FgUnder (list ++ [.listL]) node →
          world.Terminated cmd input output error node)) ∧
    ∀ proc ∈ world.procs, proc.Ended → ∀ pos ∈ proc.path, proc.born <+: pos →
      ∀ node, FgUnder pos node → world.Terminated cmd input output error node := by
  have hworld := foreground_reachable hreach
  refine ⟨fun pid proc hproc pos => ⟨?_, ?_, ?_, ?_⟩, ?_⟩
  · intro edge sub next hstands kid hkid hisKid
    obtain ⟨hnone, -⟩ := hstands.orderly (hworld.orderly pid proc hproc)
    have hmem := World.mem_kids.mpr ⟨kid, hkid, hisKid, rfl⟩
    rw [hnone] at hmem
    simp at hmem
  · intro next hstands
    obtain ⟨hsome, hkids⟩ := hstands.orderly (hworld.orderly pid proc hproc)
    refine ⟨?_, fun kid hkid hisKid => ?_⟩
    · obtain ⟨born, hborn⟩ := Multiset.exists_mem_of_ne_zero hsome
      obtain ⟨kid, hkid, hisKid, -⟩ := World.mem_kids.mp hborn
      exact ⟨kid, hkid, hisKid⟩
    · exact (hkids _ (World.mem_kids.mpr ⟨kid, hkid, hisKid, rfl⟩)).1
  · exact fun hstands => hstands.orderly (hworld.orderly pid proc hproc)
  · rintro argv failed list ⟨hstatus, frame, callers, hframes, rfl, -⟩ hright node hnode
    apply terminated_of_not_live hreach
    exact hworld.listed proc (List.mem_of_getElem? hproc) list frame.pos
      (by simp [Proc.path, hframes]) hright node hnode
  · intro proc hmem hended pos hpos hborn node hnode
    obtain ⟨pid, hproc⟩ := List.mem_iff_getElem?.mp hmem
    apply terminated_of_not_live hreach
    intro hlive
    have hunder := (hworld.own proc hmem pos hpos hborn).trans hnode
    exact (hworld.covered pid proc hproc node hunder hlive).1 hended

/-- `(a &) ; b` -/
def listCmd : Cmd := .list (.back (.exec (argvOf 1) (argvOf 2))) (.exec (argvOf 8) (argvOf 9))
where
  argvOf (pointer : ℕ) : Slots := fun i => if i = 0 then some pointer else none

/-- `a` outlives the process that forked it. -/
def listLabels : List Label :=
  [⟨0, .go⟩, ⟨1, .go⟩, ⟨1, .go⟩, ⟨1, .go⟩, ⟨0, .reap 1⟩, ⟨0, .go⟩, ⟨2, .go⟩, ⟨2, .go⟩,
    ⟨0, .go⟩, ⟨0, .finish⟩]

theorem runcmd_foreground_order_list :
    ∃ world, (forkingMachine listCmd (.outer 0) (.outer 1) (.outer 2)).Reachable world ∧
      (∃ proc ∈ world.procs, proc.Ended ∧ proc.born = [] ∧ [] ∈ proc.path) ∧
      (∃ proc ∈ world.procs, proc.status = .program) ∧
      world.Terminated listCmd (.outer 0) (.outer 1) (.outer 2) [.listR] := by
  have hrun : (listLabels.foldlM (World.step none)
      (World.start listCmd (.outer 0) (.outer 1) (.outer 2))).any (fun world => decide
        ((∃ proc ∈ world.procs, proc.Ended ∧ proc.born = [] ∧ [] ∈ proc.path) ∧
          ∃ proc ∈ world.procs, proc.status = .program)) = true := by decide +kernel
  obtain ⟨world, hworld, hprocs⟩ := (Option.any_eq_true _ _).mp hrun
  obtain ⟨⟨proc, hproc, hended, hborn, hpath⟩, hprogram⟩ := of_decide_eq_true hprocs
  have hrun : (machine none listCmd (.outer 0) (.outer 1) (.outer 2)).Run _ listLabels world :=
    System.run_of_foldlM _ hworld
  have hreach : (forkingMachine listCmd (.outer 0) (.outer 1) (.outer 2)).Reachable world :=
    ⟨_, _, rfl, hrun.restrict (by decide)⟩
  refine ⟨world, hreach, ⟨proc, hproc, hended, hborn, hpath⟩, hprogram, ?_⟩
  exact (runcmd_foreground_order _ _ _ _ world hreach).2 proc hproc hended [] hpath
    (hborn ▸ List.prefix_rfl) _ ⟨_, rfl, by decide⟩

end JyyOS.Shell
