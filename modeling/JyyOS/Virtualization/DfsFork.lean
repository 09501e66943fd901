import JyyOS.Core.ListSum
import JyyOS.Core.Transition
import JyyOS.Virtualization.Maze

/-!
# The forking search of `dfs-fork.c`

Every process searches from one cell with a map of its own: `fork` copies it,
and the child goes on from the next cell behind its arrow.  The processes run
interleaved, a step at a time.  A process waits for all of its children before
it ends, so that the first one ends last.
-/

namespace JyyOS.DfsFork

open JyyOS.Transition

/-! ## The code -/

/-- Where a process is in `dfs`. -/
inductive Phase where
  /-- At the call. -/
  | enter
  /-- In the loop over `moves`, with those still to come. -/
  | loop (todo : List Move) (nfork : ℕ)
  /-- The child behind the fork for a move. -/
  | forked (m : Move)
  /-- At `while (nfork--)`. -/
  | waits (nfork : ℕ)
  /-- Behind the `exit(0)`, or returned from the initial call. -/
  | ended
  /-- Waited for. -/
  | reaped
  /-- A read outside of the map. -/
  | fault
deriving DecidableEq

structure Proc (height width : ℕ) where
  parent : Option ℕ
  map : Grid height width
  c : Cell
  phase : Phase

/-- All processes so far, the initial one first, and the maps that were passed
to `display`. -/
structure State (height width : ℕ) where
  procs : List (Proc height width)
  displayed : List (Grid height width)

variable {height width : ℕ}

def start (map : Grid height width) : State height width :=
  ⟨[⟨none, map, (1, 1), .enter⟩], []⟩

def State.put (st : State height width) (pid : ℕ) (proc : Proc height width) :
    State height width :=
  { st with procs := st.procs.set pid proc }

/-- A child of a process that it has not waited for. -/
def Proc.IsKid (pid : ℕ) (kid : Proc height width) : Prop :=
  kid.parent = some pid ∧ kid.phase ≠ .reaped

instance (pid : ℕ) (kid : Proc height width) : Decidable (kid.IsKid pid) :=
  inferInstanceAs (Decidable (_ ∧ _))

/-- `wait(NULL)`: it takes a child that has ended, and returns at once if there
is no child at all. -/
def waitStep (st : State height width) (pid : ℕ) (proc : Proc height width) (child : ℕ) :
    Option (State height width) :=
  if ∀ kid ∈ st.procs, ¬ kid.IsKid pid then some (st.put pid proc)
  else do
    let kid ← st.procs[child]?
    if kid.parent = some pid ∧ kid.phase = .ended then
      some ((st.put pid proc).put child { kid with phase := .reaped })
    else none

/-- One step of a process; a `wait` takes the child. -/
def procStep (st : State height width) (pid child : ℕ) (proc : Proc height width) :
    Option (State height width) :=
  match proc.phase with
  | .enter =>
      match read proc.map proc.c with
      | none => some (st.put pid { proc with phase := .fault })
      | some ch =>
          if ch = DEST then
            some { st.put pid { proc with phase := .ended } with
              displayed := st.displayed ++ [proc.map] }
          else some (st.put pid { proc with phase := .loop moves 0 })
  | .loop [] nfork => some (st.put pid { proc with phase := .waits nfork })
  | .loop (m :: todo) nfork =>
      match read proc.map (m.next proc.c) with
      | none => some (st.put pid { proc with phase := .fault })
      | some ch =>
          if ch = DEST ∨ ch = EMPTY then
            let st := st.put pid { proc with phase := .loop todo (nfork + 1) }
            some { st with
              procs := st.procs ++ [{ proc with parent := some pid, phase := .forked m }] }
          else some (st.put pid { proc with phase := .loop todo nfork })
  | .forked m =>
      some (st.put pid
        { proc with map := write proc.map proc.c m.ch, c := m.next proc.c, phase := .enter })
  | .waits 0 => some (st.put pid { proc with phase := .ended })
  | .waits (nfork + 1) => waitStep st pid { proc with phase := .waits nfork } child
  | .ended | .reaped | .fault => none

/-- One step of the process `label.1`, with its child `label.2`. -/
def step (st : State height width) (label : ℕ × ℕ) : Option (State height width) :=
  st.procs[label.1]?.bind (procStep st label.1 label.2)

/-- `main` on a map. -/
def search (map : Grid height width) : System (State height width) (ℕ × ℕ) :=
  System.ofPartial (· = start map) step

/-- The initial call has returned. -/
def Returned (st : State height width) : Prop :=
  ∃ proc, st.procs[0]? = some proc ∧ proc.phase = .ended

/-! ## The steps of a process -/

/-- A step that only the process itself takes part in. -/
inductive Quiet (proc : Proc height width) : Proc height width → Prop
  | fault (hphase : proc.phase = .enter) (hread : read proc.map proc.c = none) :
      Quiet proc { proc with phase := .fault }
  | leave {ch : Char} (hphase : proc.phase = .enter) (hread : read proc.map proc.c = some ch)
      (hdest : ch ≠ DEST) : Quiet proc { proc with phase := .loop moves 0 }
  | stray {m : Move} {todo : List Move} {nfork : ℕ} (hphase : proc.phase = .loop (m :: todo) nfork)
      (hread : read proc.map (m.next proc.c) = none) : Quiet proc { proc with phase := .fault }
  | skip {m : Move} {todo : List Move} {nfork : ℕ} {ch : Char}
      (hphase : proc.phase = .loop (m :: todo) nfork)
      (hread : read proc.map (m.next proc.c) = some ch) (hclosed : ¬ (ch = DEST ∨ ch = EMPTY)) :
      Quiet proc { proc with phase := .loop todo nfork }
  | tried {nfork : ℕ} (hphase : proc.phase = .loop [] nfork) :
      Quiet proc { proc with phase := .waits nfork }
  | move {m : Move} (hphase : proc.phase = .forked m) :
      Quiet proc
        { proc with map := write proc.map proc.c m.ch, c := m.next proc.c, phase := .enter }
  | finish (hphase : proc.phase = .waits 0) : Quiet proc { proc with phase := .ended }

/-- All that a process can do. -/
inductive Moves (st : State height width) (pid : ℕ) (proc : Proc height width) :
    State height width → Prop
  | quiet {next : Proc height width} (hquiet : Quiet proc next) :
      Moves st pid proc (st.put pid next)
  | display (hphase : proc.phase = .enter) (hread : read proc.map proc.c = some DEST) :
      Moves st pid proc { st.put pid { proc with phase := .ended } with
        displayed := st.displayed ++ [proc.map] }
  | fork {m : Move} {todo : List Move} {nfork : ℕ} {ch : Char}
      (hphase : proc.phase = .loop (m :: todo) nfork)
      (hread : read proc.map (m.next proc.c) = some ch) (hopen : ch = DEST ∨ ch = EMPTY) :
      Moves st pid proc
        { st with
          procs := st.procs.set pid { proc with phase := .loop todo (nfork + 1) } ++
            [{ proc with parent := some pid, phase := .forked m }] }
  | childless {nfork : ℕ} (hphase : proc.phase = .waits (nfork + 1))
      (hnone : ∀ kid ∈ st.procs, ¬ kid.IsKid pid) :
      Moves st pid proc (st.put pid { proc with phase := .waits nfork })
  | reap {nfork child : ℕ} {kid : Proc height width} (hphase : proc.phase = .waits (nfork + 1))
      (hkid : st.procs[child]? = some kid) (hparent : kid.parent = some pid)
      (hended : kid.phase = .ended) :
      Moves st pid proc ((st.put pid { proc with phase := .waits nfork }).put child
        { kid with phase := .reaped })

theorem moves_of_waitStep {st st' : State height width} {pid child nfork : ℕ}
    {proc : Proc height width} (hphase : proc.phase = .waits (nfork + 1))
    (hwait : waitStep st pid { proc with phase := .waits nfork } child = some st') :
    Moves st pid proc st' := by
  unfold waitStep at hwait
  split_ifs at hwait with hnone
  · cases hwait
    exact .childless hphase hnone
  · obtain ⟨kid, hkid, htake⟩ := Option.bind_eq_some_iff.mp hwait
    split_ifs at htake with hready
    cases htake
    exact .reap hphase hkid hready.1 hready.2

theorem step_moves {st st' : State height width} {label : ℕ × ℕ}
    (hstep : step st label = some st') :
    ∃ proc, st.procs[label.1]? = some proc ∧ Moves st label.1 proc st' := by
  obtain ⟨proc, hproc, hrun⟩ := Option.bind_eq_some_iff.mp hstep
  refine ⟨proc, hproc, ?_⟩
  unfold procStep at hrun
  cases hphase : proc.phase with
  | enter =>
      simp only [hphase] at hrun
      cases hread : read proc.map proc.c with
      | none =>
          simp only [hread] at hrun
          cases hrun
          exact .quiet (.fault hphase hread)
      | some ch =>
          simp only [hread] at hrun
          split_ifs at hrun with hdest
          · cases hrun
            exact .display hphase (hdest ▸ hread)
          · cases hrun
            exact .quiet (.leave hphase hread hdest)
  | loop todo nfork =>
      cases todo with
      | nil =>
          simp only [hphase] at hrun
          cases hrun
          exact .quiet (.tried hphase)
      | cons m todo =>
          simp only [hphase] at hrun
          cases hread : read proc.map (m.next proc.c) with
          | none =>
              simp only [hread] at hrun
              cases hrun
              exact .quiet (.stray hphase hread)
          | some ch =>
              simp only [hread] at hrun
              split_ifs at hrun with hopen
              · cases hrun
                exact .fork hphase hread hopen
              · cases hrun
                exact .quiet (.skip hphase hread hopen)
  | forked m =>
      simp only [hphase] at hrun
      cases hrun
      exact .quiet (.move hphase)
  | waits nfork =>
      cases nfork with
      | zero =>
          simp only [hphase] at hrun
          cases hrun
          exact .quiet (.finish hphase)
      | succ nfork =>
          simp only [hphase] at hrun
          exact moves_of_waitStep hphase hrun
  | ended => simp [hphase] at hrun
  | reaped => simp [hphase] at hrun
  | fault => simp [hphase] at hrun

/-! ## Every read is inside of the map -/

/-- The border is closed. -/
def Walled (map : Grid height width) : Prop :=
  ∀ i : Fin height × Fin width,
    (i.1 : ℕ) = 0 ∨ (i.1 : ℕ) + 1 = height ∨ (i.2 : ℕ) = 0 ∨ (i.2 : ℕ) + 1 = width →
      map i ≠ EMPTY ∧ map i ≠ DEST

def Open (map : Grid height width) (c : Cell) : Prop :=
  read map c = some EMPTY ∨ read map c = some DEST

/-- What a process relies on. -/
structure Fine (proc : Proc height width) : Prop where
  walled : Walled proc.map
  phase : match proc.phase with
    | .enter => Open proc.map proc.c
    | .loop _ _ => read proc.map proc.c = some EMPTY
    | .forked m => read proc.map proc.c = some EMPTY ∧ Open proc.map (m.next proc.c)
    | .waits _ | .ended | .reaped => True
    | .fault => False

section Reads

variable {map : Grid height width} {c : Cell}

theorem Walled.write (hwalled : Walled map) (c : Cell) (m : Move) :
    Walled (write map c m.ch) := by
  intro i hborder
  unfold DfsFork.write
  split_ifs
  · exact m.ch_ne
  · exact hwalled i hborder

/-- All neighbours of an empty cell can be read. -/
theorem Walled.exists_read (hwalled : Walled map) (hempty : read map c = some EMPTY) (m : Move) :
    ∃ ch, read map (m.next c) = some ch := by
  obtain ⟨i, rfl, hi⟩ := exists_position hempty
  have hinner := mt (hwalled i) (by simp [hi])
  have hx := i.1.isLt
  have hy := i.2.isLt
  rw [read, dif_pos]
  · exact ⟨_, rfl⟩
  · cases m <;> simp only [Move.next, Move.x, Move.y, position] <;> omega

theorem Open.write {m : Move} (hopen : Open map (m.next c)) :
    Open (write map c m.ch) (m.next c) := by
  unfold Open
  rw [read_write_of_ne (m.next_ne c)]
  exact hopen

theorem Open.empty {ch : Char} (hopen : Open map c) (hread : read map c = some ch)
    (hdest : ch ≠ DEST) : read map c = some EMPTY := by
  rcases hopen with hempty | hother
  · exact hempty
  · rw [hread] at hother
    exact absurd (Option.some.inj hother) hdest

end Reads

/-- A process stays fine by what it does on its own. -/
theorem Quiet.fine {proc next : Proc height width} (hquiet : Quiet proc next)
    (hfine : Fine proc) : Fine next := by
  obtain ⟨hwalled, hphase'⟩ := hfine
  cases hquiet with
  | fault hphase hread =>
      simp only [hphase, Open, hread, reduceCtorEq, or_self] at hphase'
  | leave hphase hread hdest =>
      simp only [hphase] at hphase'
      exact ⟨hwalled, hphase'.empty hread hdest⟩
  | stray hphase hread =>
      simp only [hphase] at hphase'
      obtain ⟨ch, hch⟩ := hwalled.exists_read hphase' _
      rw [hread] at hch
      cases hch
  | skip hphase hread hclosed =>
      simp only [hphase] at hphase'
      exact ⟨hwalled, hphase'⟩
  | tried hphase => exact ⟨hwalled, trivial⟩
  | move hphase =>
      simp only [hphase] at hphase'
      exact ⟨hwalled.write _ _, hphase'.2.write⟩
  | finish hphase => exact ⟨hwalled, trivial⟩

theorem Moves.fine {st st' : State height width} {pid : ℕ} {proc : Proc height width}
    (hmoves : Moves st pid proc st') (hproc : st.procs[pid]? = some proc)
    (hfine : ∀ proc ∈ st.procs, Fine proc) : ∀ proc ∈ st'.procs, Fine proc := by
  have hown := hfine proc (List.mem_of_getElem? hproc)
  have hset : ∀ next : Proc height width, Fine next → ∀ other ∈ st.procs.set pid next,
      Fine other := by
    intro next hnext other hother
    rcases List.mem_or_eq_of_mem_set hother with hold | rfl
    · exact hfine other hold
    · exact hnext
  cases hmoves with
  | quiet hquiet => exact hset _ (hquiet.fine hown)
  | display hphase hread => exact hset _ ⟨hown.walled, trivial⟩
  | @fork m todo nfork ch hphase hread hopen =>
      have hempty := hown.phase
      simp only [hphase] at hempty
      have hparent : Fine { proc with phase := .loop todo (nfork + 1) } := ⟨hown.walled, hempty⟩
      intro other hother
      rcases List.mem_append.mp hother with hold | hnew
      · exact hset _ hparent other hold
      · rw [List.mem_singleton.mp hnew]
        refine ⟨hown.walled, hempty, ?_⟩
        rcases hopen with rfl | rfl
        · exact .inr hread
        · exact .inl hread
  | childless hphase hnone => exact hset _ ⟨hown.walled, trivial⟩
  | @reap nfork child kid hphase hkid hparent hended =>
      have hnext : Fine { proc with phase := .waits nfork } := ⟨hown.walled, trivial⟩
      intro other hother
      rcases List.mem_or_eq_of_mem_set hother with hold | rfl
      · exact hset _ hnext other hold
      · exact ⟨(hfine _ (List.mem_of_getElem? hkid)).walled, trivial⟩

/-! ## What is still to be displayed -/

/-- The maps that the child for a move displays. -/
def branch (map : Grid height width) (c : Cell) (m : Move) : List (Grid height width) :=
  (paths (write map c m.ch) (m.next c)).map (draw (write map c m.ch) (m.next c))

/-- The maps that a process and its children to come still display. -/
def due (proc : Proc height width) : Multiset (Grid height width) :=
  match proc.phase with
  | .enter => ((paths proc.map proc.c).map (draw proc.map proc.c) : List _)
  | .loop todo _ => (todo.flatMap (branch proc.map proc.c) : List _)
  | .forked m => (branch proc.map proc.c m : List _)
  | .waits _ | .ended | .reaped | .fault => 0

section Due

variable {map : Grid height width} {c : Cell}

/-- The paths from an empty cell, by their first steps. -/
theorem map_draw_paths (hempty : read map c = some EMPTY) :
    (paths map c).map (draw map c) = moves.flatMap (branch map c) := by
  rw [paths_empty hempty, List.map_flatMap]
  congr 1
  funext m
  rw [List.map_map, branch]
  apply List.map_congr_left
  intro path hpath
  exact draw_cons ((mem_paths.mp hpath).left_behind hempty)

theorem branch_closed {m : Move} {ch : Char} (hread : read map (m.next c) = some ch)
    (hclosed : ¬ (ch = DEST ∨ ch = EMPTY)) : branch map c m = [] := by
  have hstays : read (write map c m.ch) (m.next c) = read map (m.next c) :=
    read_write_of_ne (m.next_ne c) m.ch
  rw [branch, paths_closed, List.map_nil]
  · rw [hstays, hread]
    exact fun hempty => hclosed (.inr (Option.some.inj hempty))
  · rw [hstays, hread]
    exact fun hdest => hclosed (.inl (Option.some.inj hdest))

end Due

theorem Quiet.due {proc next : Proc height width} (hquiet : Quiet proc next)
    (hfine : Fine proc) : due next = due proc := by
  have hphase' := hfine.phase
  cases hquiet with
  | fault hphase hread =>
      simp only [hphase, Open, hread, reduceCtorEq, or_self] at hphase'
  | leave hphase hread hdest =>
      simp only [hphase] at hphase'
      simp only [DfsFork.due, hphase, map_draw_paths (hphase'.empty hread hdest)]
  | stray hphase hread =>
      simp only [hphase] at hphase'
      obtain ⟨ch, hch⟩ := hfine.walled.exists_read hphase' _
      rw [hread] at hch
      cases hch
  | skip hphase hread hclosed =>
      simp only [DfsFork.due, hphase, List.flatMap_cons, branch_closed hread hclosed,
        List.nil_append]
  | tried hphase => simp [DfsFork.due, hphase]
  | move hphase => simp [DfsFork.due, hphase, branch]
  | finish hphase => simp [DfsFork.due, hphase]

/-- A process that waits is not the child that it reaps. -/
theorem kid_of_set {st : State height width} {pid child nfork : ℕ} {proc kid : Proc height width}
    (hproc : st.procs[pid]? = some proc) (hphase : proc.phase = .waits nfork)
    (hkid : st.procs[child]? = some kid) (hended : kid.phase = .ended)
    (next : Proc height width) : (st.procs.set pid next)[child]? = some kid := by
  have hne : pid ≠ child := by
    rintro rfl
    rw [hproc] at hkid
    cases hkid
    rw [hphase] at hended
    cases hended
  rw [List.getElem?_set_ne hne, hkid]

/-- No display is lost and none is made twice. -/
theorem Moves.conserved {st st' : State height width} {pid : ℕ} {proc : Proc height width}
    (hmoves : Moves st pid proc st') (hproc : st.procs[pid]? = some proc) (hfine : Fine proc) :
    (st'.displayed : Multiset _) + ListSum.total due st'.procs =
      (st.displayed : Multiset _) + ListSum.total due st.procs := by
  obtain ⟨rest, hall, hset⟩ := ListSum.total_split due hproc
  cases hmoves with
  | quiet hquiet =>
      rw [State.put, ListSum.total_set_eq hproc (hquiet.due hfine)]
  | display hphase hread =>
      have hdue : due proc = {proc.map} := by
        simp only [due, hphase, paths_dest hread, List.map_singleton]
        rfl
      have hafter : ListSum.total due (st.procs.set pid { proc with phase := .ended }) = rest :=
        (hset _).trans (zero_add rest)
      rw [State.put, hafter, hall, hdue, ← Multiset.coe_add, Multiset.coe_singleton, add_assoc]
  | @fork m todo nfork ch hphase hread hopen =>
      have hdue : due proc = due { proc with phase := .loop todo (nfork + 1) } +
          due { proc with parent := some pid, phase := .forked m } := by
        simp only [due, hphase, List.flatMap_cons, ← Multiset.coe_add]
        exact add_comm _ _
      rw [ListSum.total_append, hset, hall, hdue, ListSum.total_cons, ListSum.total_nil, add_zero,
        add_right_comm]
  | childless hphase hnone =>
      rw [State.put, ListSum.total_set_eq hproc (by simp [due, hphase])]
  | @reap nfork child kid hphase hkid hparent hended =>
      have hkid' := kid_of_set hproc hphase hkid hended { proc with phase := .waits nfork }
      rw [State.put, State.put, ListSum.total_set_eq hkid' (by simp [due, hended]),
        ListSum.total_set_eq hproc (by simp [due, hphase])]

/-! ## Every run ends -/

/-- A bound on the steps of a process that enters a map with so many empty
cells, and of all its children. -/
def cost : ℕ → ℕ
  | 0 => 1
  | empties + 1 => 4 * (cost empties + 3) + 3

/-- A bound on the steps that a process and its children to come still take. -/
def effort (proc : Proc height width) : ℕ :=
  match proc.phase with
  | .enter => cost (dots proc.map)
  | .loop todo nfork => todo.length * (cost (dots proc.map - 1) + 3) + 2 + nfork
  | .forked _ => cost (dots proc.map - 1) + 1
  | .waits nfork => nfork + 1
  | .ended | .reaped | .fault => 0

theorem cost_pos (empties : ℕ) : 0 < cost empties := by
  cases empties <;> simp [cost]

theorem Quiet.effort_lt {proc next : Proc height width} (hquiet : Quiet proc next)
    (hfine : Fine proc) : effort next < effort proc := by
  have hphase' := hfine.phase
  cases hquiet with
  | fault hphase hread =>
      simp only [hphase, Open, hread, reduceCtorEq, or_self] at hphase'
  | leave hphase hread hdest =>
      simp only [hphase] at hphase'
      have hdots := dots_write (hphase'.empty hread hdest) .up
      obtain ⟨empties, hempties⟩ : ∃ empties, dots proc.map = empties + 1 := ⟨_, hdots.symm⟩
      simp only [effort, hphase, hempties, cost, moves, List.length_cons, List.length_nil,
        Nat.add_sub_cancel]
      omega
  | stray hphase hread =>
      simp only [effort, hphase, List.length_cons]
      omega
  | skip hphase hread hclosed =>
      simp only [effort, hphase, List.length_cons, Nat.add_mul]
      omega
  | tried hphase =>
      simp only [effort, hphase, List.length_nil]
      omega
  | @move m hphase =>
      simp only [hphase] at hphase'
      have hdots : dots (write proc.map proc.c m.ch) = dots proc.map - 1 :=
        Nat.eq_sub_of_add_eq (dots_write hphase'.1 m)
      simp only [effort, hphase, hdots]
      omega
  | finish hphase => simp [effort, hphase]

theorem Moves.effort_lt {st st' : State height width} {pid : ℕ} {proc : Proc height width}
    (hmoves : Moves st pid proc st') (hproc : st.procs[pid]? = some proc) (hfine : Fine proc) :
    ListSum.total effort st'.procs < ListSum.total effort st.procs := by
  obtain ⟨rest, hall, hset⟩ := ListSum.total_split effort hproc
  cases hmoves with
  | quiet hquiet =>
      rw [State.put, hset, hall]
      exact Nat.add_lt_add_right (hquiet.effort_lt hfine) rest
  | display hphase hread =>
      have hpos := cost_pos (dots proc.map)
      rw [State.put, hset, hall]
      simp only [effort, hphase]
      omega
  | @fork m todo nfork ch hphase hread hopen =>
      rw [ListSum.total_append, hset, hall, ListSum.total_cons, ListSum.total_nil]
      simp only [effort, hphase, List.length_cons, Nat.add_mul]
      omega
  | childless hphase hnone =>
      rw [State.put, hset, hall]
      simp only [effort, hphase]
      omega
  | @reap nfork child kid hphase hkid hparent hended =>
      have hkid' := kid_of_set hproc hphase hkid hended { proc with phase := .waits nfork }
      rw [State.put, State.put, ListSum.total_set_eq hkid' (by simp [effort, hended]), hset, hall]
      simp only [effort, hphase]
      omega

/-! ## Children -/

/-- The children that a process has not waited for. -/
def kids (procs : List (Proc height width)) (pid : ℕ) : ℕ :=
  ListSum.total (fun kid => if kid.IsKid pid then 1 else 0) procs

/-- The children that the code counts. -/
def Proc.nfork (proc : Proc height width) : ℕ :=
  match proc.phase with
  | .loop _ nfork | .waits nfork => nfork
  | .enter | .forked _ | .ended | .reaped | .fault => 0

def parents (procs : List (Proc height width)) : List (Option ℕ) := procs.map (·.parent)

/-- Only the initial process has no parent, parents come before their children,
and every process counts its children. -/
structure Family (st : State height width) : Prop where
  root : (parents st.procs)[0]? = some none
  unreaped : ∀ proc, st.procs[0]? = some proc → proc.phase ≠ .reaped
  orphan : ∀ pid : ℕ, (parents st.procs)[pid]? = some none → pid = 0
  older : ∀ pid parent : ℕ, (parents st.procs)[pid]? = some (some parent) → parent < pid
  counted : ∀ pid proc, st.procs[pid]? = some proc → kids st.procs pid = proc.nfork

section Kids

variable {st : State height width} {procs : List (Proc height width)} {pid other : ℕ}
variable {proc next : Proc height width}

theorem parents_set (hproc : procs[pid]? = some proc) (hparent : next.parent = proc.parent) :
    parents (procs.set pid next) = parents procs := by
  apply List.ext_getElem?
  intro index
  rw [parents, parents, List.getElem?_map, List.getElem?_map]
  by_cases hindex : index = pid
  · subst hindex
    rw [List.getElem?_set_self (List.getElem?_eq_some_iff.mp hproc).1, hproc, Option.map_some,
      Option.map_some, hparent]
  · rw [List.getElem?_set_ne (Ne.symm hindex)]

theorem kids_set (hproc : procs[pid]? = some proc) (hparent : next.parent = proc.parent)
    (hold : proc.phase ≠ .reaped) (hnew : next.phase ≠ .reaped) :
    kids (procs.set pid next) other = kids procs other := by
  apply ListSum.total_set_eq hproc
  simp [Proc.IsKid, hparent, hold, hnew]

theorem kids_eq_zero :
    kids procs other = 0 ↔ ∀ kid ∈ procs, ¬ kid.IsKid other := by
  induction procs with
  | nil => simp [kids]
  | cons proc procs ih =>
      simp only [kids] at ih
      simp [kids, ih]

/-- A process that has just been made has no children. -/
theorem Family.kids_fresh (hfamily : Family st) : kids st.procs st.procs.length = 0 := by
  rw [kids_eq_zero]
  intro kid hkid hisKid
  obtain ⟨index, hindex, rfl⟩ := List.getElem_of_mem hkid
  have hparent : (parents st.procs)[index]? = some (some st.procs.length) := by
    rw [parents, List.getElem?_map, List.getElem?_eq_getElem hindex, Option.map_some, hisKid.1]
  have := hfamily.older index _ hparent
  omega

theorem Family.unreaped_set (hfamily : Family st) (hnew : next.phase ≠ .reaped) :
    ∀ proc, (st.procs.set pid next)[0]? = some proc → proc.phase ≠ .reaped := by
  intro proc' hproc'
  by_cases hroot : pid = 0
  · subst hroot
    rw [List.getElem?_set_self'] at hproc'
    obtain ⟨-, -, rfl⟩ := Option.map_eq_some_iff.mp hproc'
    exact hnew
  · rw [List.getElem?_set_ne hroot] at hproc'
    exact hfamily.unreaped proc' hproc'

/-- A process goes on without a change to its children. -/
theorem Family.set (hfamily : Family st) (hproc : st.procs[pid]? = some proc)
    (hparent : next.parent = proc.parent) (hold : proc.phase ≠ .reaped)
    (hnew : next.phase ≠ .reaped) (hnfork : next.nfork = proc.nfork) :
    Family (st.put pid next) := by
  have hparents := parents_set hproc hparent
  refine ⟨?_, ?_, ?_, ?_, ?_⟩
  · rw [State.put, hparents]
    exact hfamily.root
  · exact hfamily.unreaped_set hnew
  · rw [State.put, hparents]
    exact hfamily.orphan
  · rw [State.put, hparents]
    exact hfamily.older
  · intro index proc' hproc'
    rw [State.put] at hproc' ⊢
    rw [kids_set hproc hparent hold hnew]
    by_cases hindex : index = pid
    · subst hindex
      rw [List.getElem?_set_self (List.getElem?_eq_some_iff.mp hproc).1] at hproc'
      cases hproc'
      rw [hnfork]
      exact hfamily.counted index proc hproc
    · rw [List.getElem?_set_ne (Ne.symm hindex)] at hproc'
      exact hfamily.counted index proc' hproc'

end Kids

theorem Quiet.family {proc next : Proc height width} (hquiet : Quiet proc next)
    (hnext : Fine next) :
    next.parent = proc.parent ∧ proc.phase ≠ .reaped ∧ next.phase ≠ .reaped ∧
      next.nfork = proc.nfork := by
  cases hquiet with
  | fault hphase hread => exact absurd hnext.phase id
  | leave hphase hread hdest => simp [Proc.nfork, hphase]
  | stray hphase hread => exact absurd hnext.phase id
  | skip hphase hread hclosed => simp [Proc.nfork, hphase]
  | tried hphase => simp [Proc.nfork, hphase]
  | move hphase => simp [Proc.nfork, hphase]
  | finish hphase => simp [Proc.nfork, hphase]

theorem Family.fork {st : State height width} {pid : ℕ} {proc next kid : Proc height width}
    (hfamily : Family st) (hproc : st.procs[pid]? = some proc)
    (hparent : next.parent = proc.parent) (hold : proc.phase ≠ .reaped)
    (hnew : next.phase ≠ .reaped) (hnfork : next.nfork = proc.nfork + 1)
    (hkid : kid.parent = some pid) (hborn : kid.phase ≠ .reaped) (hnone : kid.nfork = 0) :
    Family { st with procs := st.procs.set pid next ++ [kid] } := by
  have hpid := (List.getElem?_eq_some_iff.mp hproc).1
  have hparents : parents (st.procs.set pid next ++ [kid]) = parents st.procs ++ [some pid] := by
    rw [parents, List.map_append, List.map_singleton, hkid]
    exact congrArg (· ++ [some pid]) (parents_set hproc hparent)
  have hlength : (parents st.procs).length = st.procs.length := List.length_map _
  have hkids : ∀ other, kids (st.procs.set pid next ++ [kid]) other =
      kids st.procs other + if other = pid then 1 else 0 := by
    intro other
    rw [kids, ListSum.total_append, ListSum.total_cons, ListSum.total_nil, add_zero]
    have hset : kids (st.procs.set pid next) other = kids st.procs other :=
      kids_set hproc hparent hold hnew
    rw [← hset, kids]
    simp [Proc.IsKid, hkid, hborn, eq_comm]
  refine ⟨?_, ?_, ?_, ?_, ?_⟩
  · rw [hparents, List.getElem?_append_left (by omega)]
    exact hfamily.root
  · intro root hroot
    rw [List.getElem?_append_left (by rw [List.length_set]; omega)] at hroot
    exact hfamily.unreaped_set hnew root hroot
  · intro index hnoparent
    rw [hparents] at hnoparent
    by_cases hindex : index < st.procs.length
    · rw [List.getElem?_append_left (by omega)] at hnoparent
      exact hfamily.orphan index hnoparent
    · rw [List.getElem?_append_right (by omega)] at hnoparent
      have := List.mem_of_getElem? hnoparent
      simp at this
  · intro index parent hsome
    rw [hparents] at hsome
    by_cases hindex : index < st.procs.length
    · rw [List.getElem?_append_left (by omega)] at hsome
      exact hfamily.older index parent hsome
    · rw [List.getElem?_append_right (by omega)] at hsome
      have hlast := List.mem_of_getElem? hsome
      have hparent' : parent = pid := by simpa using hlast
      omega
  · intro index proc' hproc'
    rw [hkids]
    by_cases hindex : index < st.procs.length
    · rw [List.getElem?_append_left (by simpa using hindex)] at hproc'
      by_cases hself : index = pid
      · subst hself
        rw [List.getElem?_set_self hpid] at hproc'
        cases hproc'
        rw [if_pos rfl, hnfork, hfamily.counted index proc hproc]
      · rw [List.getElem?_set_ne (Ne.symm hself)] at hproc'
        rw [if_neg hself, hfamily.counted index proc' hproc', add_zero]
    · rw [List.getElem?_append_right (by simpa using hindex), List.length_set] at hproc'
      have hlast : index - st.procs.length = 0 := by
        by_contra hpos
        rw [List.getElem?_eq_none (by simp; omega)] at hproc'
        cases hproc'
      obtain rfl : index = st.procs.length := by omega
      rw [hlast] at hproc'
      cases hproc'
      rw [hfamily.kids_fresh, if_neg (by omega), hnone]

theorem Family.reap {st : State height width} {pid child nfork : ℕ} {proc kid : Proc height width}
    (hfamily : Family st) (hproc : st.procs[pid]? = some proc)
    (hphase : proc.phase = .waits (nfork + 1)) (hkid : st.procs[child]? = some kid)
    (hparent : kid.parent = some pid) (hended : kid.phase = .ended) :
    Family ((st.put pid { proc with phase := .waits nfork }).put child
      { kid with phase := .reaped }) := by
  have hpid := (List.getElem?_eq_some_iff.mp hproc).1
  have hchild := (List.getElem?_eq_some_iff.mp hkid).1
  have hkid' := kid_of_set hproc hphase hkid hended { proc with phase := .waits nfork }
  have hparents : parents ((st.put pid { proc with phase := .waits nfork }).put child
      { kid with phase := .reaped }).procs = parents st.procs := by
    have hnext : ({ kid with phase := .reaped } : Proc height width).parent = kid.parent := rfl
    exact (parents_set hkid' hnext).trans (parents_set hproc rfl)
  have hkids : ∀ other, kids st.procs other =
      kids ((st.procs.set pid { proc with phase := .waits nfork }).set child
        { kid with phase := .reaped }) other + if other = pid then 1 else 0 := by
    intro other
    have hset : kids (st.procs.set pid { proc with phase := .waits nfork }) other =
        kids st.procs other := kids_set hproc rfl (by simp [hphase]) (by simp)
    obtain ⟨rest, hall, hafter⟩ := ListSum.total_split
      (fun kid : Proc height width => if kid.IsKid other then 1 else 0) hkid'
    rw [← hset, kids, kids, hafter, hall]
    simp only [Proc.IsKid, hparent, hended]
    by_cases hother : other = pid
    · simp [hother, add_comm]
    · simp [hother, Ne.symm hother]
  have hnotRoot : child ≠ 0 := by
    rintro rfl
    have hroot := hfamily.root
    rw [parents, List.getElem?_map, hkid, Option.map_some, hparent] at hroot
    cases hroot
  refine ⟨?_, ?_, ?_, ?_, ?_⟩
  · rw [hparents]
    exact hfamily.root
  · intro root hroot
    simp only [State.put] at hroot
    rw [List.getElem?_set_ne hnotRoot] at hroot
    exact hfamily.unreaped_set (by simp) root hroot
  · rw [hparents]
    exact hfamily.orphan
  · rw [hparents]
    exact hfamily.older
  · intro index proc' hproc'
    have hcount := hkids index
    simp only [State.put] at hproc' ⊢
    by_cases hindex : index = child
    · subst hindex
      rw [List.getElem?_set_self (by simpa using hchild)] at hproc'
      cases hproc'
      have hzero : kids st.procs index = 0 := by
        rw [hfamily.counted index kid hkid, Proc.nfork, hended]
      show _ = 0
      omega
    · rw [List.getElem?_set_ne (Ne.symm hindex)] at hproc'
      by_cases hself : index = pid
      · subst hself
        rw [List.getElem?_set_self hpid] at hproc'
        cases hproc'
        have hone : kids st.procs index = nfork + 1 := by
          rw [hfamily.counted index proc hproc, Proc.nfork, hphase]
        rw [if_pos rfl] at hcount
        show _ = nfork
        omega
      · rw [List.getElem?_set_ne (Ne.symm hself)] at hproc'
        rw [if_neg hself, hfamily.counted index proc' hproc'] at hcount
        omega

theorem Moves.family {st st' : State height width} {pid : ℕ} {proc : Proc height width}
    (hmoves : Moves st pid proc st') (hproc : st.procs[pid]? = some proc) (hfine : Fine proc)
    (hfamily : Family st) : Family st' := by
  cases hmoves with
  | quiet hquiet =>
      obtain ⟨hparent, hold, hnew, hnfork⟩ := hquiet.family (hquiet.fine hfine)
      exact hfamily.set hproc hparent hold hnew hnfork
  | display hphase hread =>
      have hput : Family (st.put pid { proc with phase := .ended }) :=
        hfamily.set hproc rfl (by simp [hphase]) (by simp) (by simp [Proc.nfork, hphase])
      exact ⟨hput.root, hput.unreaped, hput.orphan, hput.older, hput.counted⟩
  | fork hphase hread hopen =>
      exact hfamily.fork hproc rfl (by simp [hphase]) (by simp) (by simp [Proc.nfork, hphase]) rfl
        (by simp) rfl
  | childless hphase hnone =>
      have hzero : kids st.procs pid = 0 := kids_eq_zero.mpr hnone
      rw [hfamily.counted pid proc hproc, Proc.nfork, hphase] at hzero
      cases hzero
  | reap hphase hkid hparent hended => exact hfamily.reap hproc hphase hkid hparent hended

/-! ## Whole runs -/

section Runs

variable {map : Grid height width} {st : State height width}

/-- The drawings of all simple paths. -/
def drawings (map : Grid height width) : Multiset (Grid height width) :=
  ((paths map (1, 1)).map (draw map (1, 1)) : List (Grid height width))

/-- What holds in every state of a run. -/
structure Sound (map : Grid height width) (st : State height width) : Prop where
  fine : ∀ proc ∈ st.procs, Fine proc
  family : Family st
  conserved : (st.displayed : Multiset (Grid height width)) + ListSum.total due st.procs =
    drawings map

theorem sound_start (hwalled : Walled map) (hstart : read map (1, 1) = some EMPTY) :
    Sound map (start map) where
  fine proc hproc := by
    rw [List.mem_singleton.mp hproc]
    exact ⟨hwalled, .inl hstart⟩
  family := by
    refine ⟨rfl, ?_, ?_, ?_, ?_⟩
    · intro proc hproc
      rw [List.mem_singleton.mp (List.mem_of_getElem? hproc)]
      simp
    · intro pid hpid
      have := (List.getElem?_eq_some_iff.mp hpid).1
      simpa [parents, start] using this
    · intro pid parent hpid
      have := List.mem_of_getElem? hpid
      simp [parents, start] at this
    · intro pid proc hproc
      rw [kids_eq_zero.mpr, List.mem_singleton.mp (List.mem_of_getElem? hproc)]
      · rfl
      · intro kid hkid hisKid
        rw [List.mem_singleton.mp hkid] at hisKid
        cases hisKid.1
  conserved := by
    rw [start, ListSum.total_cons, ListSum.total_nil, add_zero]
    exact zero_add _

theorem sound_step {st' : State height width} {label : ℕ × ℕ} (hsound : Sound map st)
    (hstep : step st label = some st') : Sound map st' := by
  obtain ⟨proc, hproc, hmoves⟩ := step_moves hstep
  have hfine := hsound.fine proc (List.mem_of_getElem? hproc)
  exact ⟨hmoves.fine hproc hsound.fine, hmoves.family hproc hfine hsound.family,
    (hmoves.conserved hproc hfine).trans hsound.conserved⟩

theorem Sound.of_run {labels : List (ℕ × ℕ)} (hsound : Sound map (start map))
    (hrun : (search map).Run (start map) labels st) : Sound map st := by
  apply hrun.preserves (P := Sound map) _ hsound
  exact fun before label after hbefore hstep => sound_step hbefore hstep

/-- Each step is paid for. -/
theorem length_le_effort {labels : List (ℕ × ℕ)} (hsound : Sound map (start map))
    (hrun : (search map).Run (start map) labels st) :
    labels.length + ListSum.total effort st.procs ≤ ListSum.total effort (start map).procs := by
  induction hrun with
  | nil => simp
  | snoc hbefore hstep ih =>
      obtain ⟨proc, hproc, hmoves⟩ := step_moves hstep
      have hfine := (hsound.of_run hbefore).fine proc (List.mem_of_getElem? hproc)
      have := hmoves.effort_lt hproc hfine
      rw [List.length_append, List.length_singleton]
      omega

/-- A process that is done has waited for its children. -/
theorem Family.kid_reaped {pid index : ℕ} {proc kid : Proc height width} (hfamily : Family st)
    (hproc : st.procs[pid]? = some proc) (hdone : proc.nfork = 0)
    (hkid : st.procs[index]? = some kid) (hparent : kid.parent = some pid) :
    kid.phase = .reaped := by
  have hnone := kids_eq_zero.mp ((hfamily.counted pid proc hproc).trans hdone)
  by_contra hphase
  exact hnone kid (List.mem_of_getElem? hkid) ⟨hparent, hphase⟩

/-- Once the initial call has returned, every process is done. -/
theorem Family.all_done (hfamily : Family st) (hreturned : Returned st) {pid : ℕ}
    {proc : Proc height width} (hproc : st.procs[pid]? = some proc) :
    proc.phase = .ended ∨ proc.phase = .reaped := by
  induction pid using Nat.strong_induction_on generalizing proc with
  | _ pid ih =>
      cases hparent : proc.parent with
      | none =>
          have hroot := hfamily.orphan pid (by simp [parents, hproc, hparent])
          obtain ⟨root, hroot', hended⟩ := hreturned
          rw [hroot, hroot'] at hproc
          cases hproc
          exact .inl hended
      | some parent =>
          have hlt := hfamily.older pid parent (by simp [parents, hproc, hparent])
          have hpid := (List.getElem?_eq_some_iff.mp hproc).1
          have hget := List.getElem?_eq_getElem (hlt.trans hpid)
          have hdone : st.procs[parent].nfork = 0 := by
            rcases ih parent hlt hget with hphase | hphase <;> rw [Proc.nfork, hphase]
          exact .inr (hfamily.kid_reaped hget hdone hproc hparent)

theorem Sound.displayed_of_returned (hsound : Sound map st) (hreturned : Returned st) :
    (st.displayed : Multiset (Grid height width)) = drawings map := by
  rw [← hsound.conserved, ListSum.total_eq_zero, add_zero]
  intro proc hproc
  obtain ⟨pid, hpid, rfl⟩ := List.getElem_of_mem hproc
  rcases hsound.family.all_done hreturned (List.getElem?_eq_getElem hpid) with hphase | hphase <;>
    rw [due, hphase]

/-- A process that is not done can go on, or it waits. -/
theorem step_of_live {pid : ℕ} {proc : Proc height width} (hproc : st.procs[pid]? = some proc)
    (hfine : Fine proc) (hended : proc.phase ≠ .ended) (hreaped : proc.phase ≠ .reaped) :
    (∃ nfork, proc.phase = .waits (nfork + 1)) ∨ ∃ st', step st (pid, 0) = some st' := by
  rw [step, hproc, Option.bind_some, procStep]
  cases hphase : proc.phase with
  | enter =>
      right
      simp only
      cases read proc.map proc.c with
      | none => exact ⟨_, rfl⟩
      | some ch =>
          simp only
          split_ifs <;> exact ⟨_, rfl⟩
  | loop todo nfork =>
      right
      cases todo with
      | nil => exact ⟨_, rfl⟩
      | cons m todo =>
          simp only
          cases read proc.map (m.next proc.c) with
          | none => exact ⟨_, rfl⟩
          | some ch =>
              simp only
              split_ifs <;> exact ⟨_, rfl⟩
  | forked m => exact .inr ⟨_, rfl⟩
  | waits nfork =>
      cases nfork with
      | zero => exact .inr ⟨_, rfl⟩
      | succ nfork => exact .inl ⟨nfork, rfl⟩
  | ended => exact absurd hphase hended
  | reaped => exact absurd hphase hreaped
  | fault =>
      have hfault := hfine.phase
      rw [hphase] at hfault
      exact hfault.elim

/-- A process that waits can take a child that has ended. -/
theorem step_of_ended {pid child nfork : ℕ} {proc kid : Proc height width}
    (hproc : st.procs[pid]? = some proc) (hphase : proc.phase = .waits (nfork + 1))
    (hkid : st.procs[child]? = some kid) (hparent : kid.parent = some pid)
    (hended : kid.phase = .ended) : ∃ st', step st (pid, child) = some st' := by
  have hsome : ¬ ∀ kid ∈ st.procs, ¬ kid.IsKid pid := by
    intro hnone
    exact hnone kid (List.mem_of_getElem? hkid) ⟨hparent, by simp [hended]⟩
  rw [step, hproc, Option.bind_some, procStep]
  simp only [hphase, waitStep, if_neg hsome, hkid, Option.bind_eq_bind, Option.bind_some,
    hparent, hended, and_self, if_true]
  exact ⟨_, rfl⟩

/-- Somebody below a process that is not done can go on: if it waits for a child
that has not ended, look there. -/
theorem Sound.exists_step_of_live (hsound : Sound map st) {pid : ℕ} {proc : Proc height width}
    (hproc : st.procs[pid]? = some proc) (hended : proc.phase ≠ .ended)
    (hreaped : proc.phase ≠ .reaped) : ∃ label st', step st label = some st' := by
  induction hgap : st.procs.length - pid using Nat.strong_induction_on generalizing pid proc with
  | _ gap ih =>
      rcases step_of_live hproc (hsound.fine proc (List.mem_of_getElem? hproc)) hended hreaped with
        ⟨nfork, hphase⟩ | ⟨st', hstep⟩
      · have hkids : kids st.procs pid ≠ 0 := by
          rw [hsound.family.counted pid proc hproc, Proc.nfork, hphase]
          exact Nat.succ_ne_zero nfork
        rw [Ne, kids_eq_zero] at hkids
        push Not at hkids
        obtain ⟨kid, hmem, hparent, hunreaped⟩ := hkids
        obtain ⟨child, hchild, hget⟩ := List.getElem_of_mem hmem
        have hkid : st.procs[child]? = some kid := by
          rw [List.getElem?_eq_getElem hchild, hget]
        have hlt := hsound.family.older child pid (by simp [parents, hkid, hparent])
        by_cases hkidEnded : kid.phase = .ended
        · obtain ⟨st', hstep⟩ := step_of_ended hproc hphase hkid hparent hkidEnded
          exact ⟨_, st', hstep⟩
        · exact ih (st.procs.length - child) (by omega) hkid hkidEnded hunreaped rfl
      · exact ⟨_, st', hstep⟩

theorem Sound.exists_step (hsound : Sound map st) (hreturned : ¬ Returned st) :
    ∃ label st', step st label = some st' := by
  have hroot := hsound.family.root
  rw [parents, List.getElem?_map] at hroot
  obtain ⟨proc, hproc, -⟩ := Option.map_eq_some_iff.mp hroot
  exact hsound.exists_step_of_live hproc (fun hended => hreturned ⟨proc, hproc, hended⟩)
    (hsound.family.unreaped proc hproc)

end Runs

/-- The search on a walled map ends and never reads outside of it; when the
initial call returns, the drawings of all simple paths to a destination have
been displayed, each of them once. -/
theorem dfs_displays_paths (map : Grid height width) (hwalled : Walled map)
    (hstart : read map (1, 1) = some EMPTY) :
    (∃ bound, ∀ labels st, (search map).Run (start map) labels st → labels.length ≤ bound) ∧
    (∀ labels st, (search map).Run (start map) labels st →
      (∀ proc ∈ st.procs, proc.phase ≠ .fault) ∧
      (Returned st ∨ ∃ label st', (search map).step st label st')) ∧
    ∃ all : Finset (List Move), (∀ path, path ∈ all ↔ SimplePath map (1, 1) path) ∧
      ∀ labels st, (search map).Run (start map) labels st → Returned st →
        (st.displayed : Multiset (Grid height width)) = all.val.map (draw map (1, 1)) := by
  have hsound := sound_start hwalled hstart
  refine ⟨⟨ListSum.total effort (start map).procs, fun labels st hrun => ?_⟩,
    fun labels st hrun => ⟨?_, ?_⟩,
    ⟨(paths map (1, 1) : Multiset (List Move)), nodup_paths map (1, 1)⟩, fun path => mem_paths,
    fun labels st hrun hreturned => (hsound.of_run hrun).displayed_of_returned hreturned⟩
  · exact (Nat.le_add_right _ _).trans (length_le_effort hsound hrun)
  · intro proc hproc hfault
    have hphase := ((hsound.of_run hrun).fine proc hproc).phase
    rw [hfault] at hphase
    exact hphase
  · by_cases hreturned : Returned st
    · exact .inl hreturned
    · exact .inr ((hsound.of_run hrun).exists_step hreturned)

/-- The map of the program. -/
def sourceMap : Grid 6 7 := fun i =>
  ((["#######", "#.#.#+#", "#.....#", "#.....#", "#...#.#", "#######"]).getD i.1 "").toList.getD
    i.2 ' '

theorem dfs_displays_source_map :
    Walled sourceMap ∧ read sourceMap (1, 1) = some EMPTY ∧
    ∃ all : Finset (List Move), (∀ path, path ∈ all ↔ SimplePath sourceMap (1, 1) path) ∧
      ∀ labels st, (search sourceMap).Run (start sourceMap) labels st → Returned st →
        (st.displayed : Multiset (Grid 6 7)) = all.val.map (draw sourceMap (1, 1)) := by
  have hwalled : Walled sourceMap := by
    unfold Walled
    decide
  have hstart : read sourceMap (1, 1) = some EMPTY := by decide
  exact ⟨hwalled, hstart, (dfs_displays_paths sourceMap hwalled hstart).2.2⟩

end JyyOS.DfsFork
