import JyyOS.Core.ListSum
import JyyOS.Shell.Process

/-!
# Waiting for the foreground

What the code left of a process can still start, and in which order: it calls
`runcmd` and `execve` only without unreaped children, each `wait4` finds one
that the same node forked, and at the end only a background child is left.
-/

namespace JyyOS.Shell

/-! ## Foreground positions -/

/-- The node lies under a position with no BACK node in between. -/
def FgUnder (pos node : Pos) : Prop := ∃ rest, node = pos ++ rest ∧ Edge.back ∉ rest

namespace FgUnder

variable {pos middle node : Pos} {edge : Edge}

theorem refl (pos : Pos) : FgUnder pos pos := ⟨[], by simp, by simp⟩

theorem isPrefix (hunder : FgUnder pos node) : pos <+: node := by
  obtain ⟨rest, rfl, -⟩ := hunder
  exact List.prefix_append _ _

theorem trans (hfirst : FgUnder pos middle) (hsecond : FgUnder middle node) :
    FgUnder pos node := by
  obtain ⟨first, rfl, hfirst⟩ := hfirst
  obtain ⟨second, rfl, hsecond⟩ := hsecond
  exact ⟨first ++ second, List.append_assoc _ _ _, by simp [hfirst, hsecond]⟩

theorem snoc (hunder : FgUnder pos node) (hedge : edge ≠ .back) :
    FgUnder pos (node ++ [edge]) :=
  hunder.trans ⟨[edge], rfl, by simpa using hedge.symm⟩

/-- The part of a foreground path behind a position on it. -/
theorem of_between (hunder : FgUnder pos node) (hmiddle : pos <+: middle)
    (hnode : middle <+: node) : FgUnder middle node := by
  obtain ⟨rest, rfl, hback⟩ := hunder
  obtain ⟨first, rfl⟩ := hmiddle
  obtain ⟨second, hsecond⟩ := hnode
  rw [List.append_assoc, List.append_cancel_left_eq] at hsecond
  refine ⟨second, by rw [← hsecond, List.append_assoc], fun hmem => hback ?_⟩
  rw [← hsecond]
  exact List.mem_append_right _ hmem

theorem not_back (hunder : FgUnder pos node) (hmiddle : pos <+: middle) :
    ¬ middle ++ [.back] <+: node := by
  intro hnode
  obtain ⟨rest, rfl, hback⟩ := hunder.of_between hmiddle ((List.prefix_append _ _).trans hnode)
  rw [List.prefix_append_right_inj] at hnode
  exact hback (hnode.subset (by simp))

end FgUnder

/-! ## Code -/

namespace Code

/-- The code may still start something at or under the node. -/
def Reaches (pos : Pos) : Code → Pos → Prop
  | .exit _ _, _ => False
  | .execve _ _, node => pos <+: node
  | .print next, node => next.Reaches pos node
  | .close _ next, node => next.Reaches pos node
  | .open _ _ failed opened, node => failed.Reaches pos node ∨ opened.Reaches pos node
  | .pipe failed made, node => failed.Reaches pos node ∨ made.Reaches pos node
  | .dup _ next, node => next.Reaches pos node
  | .fork _ child parent, node => child.Reaches pos node ∨ parent.Reaches pos node
  | .wait next, node => next.Reaches pos node
  | .call edge _ _, node => pos ++ [edge] <+: node
  | .done, _ => False

/-- The code of a process made for `born`, with unreaped children for `kids`,
keeps the order that the header of this file describes. -/
def Orderly (pos : Pos) : Code → Pos → Multiset Pos → Prop
  | .exit _ _, born, kids => ∀ kid ∈ kids, kid = pos ++ [.back] ∧ born <+: pos
  | .execve _ failed, _, kids => kids = 0 ∧ failed.Quits
  | .print next, born, kids => next.Orderly pos born kids
  | .close _ next, born, kids => next.Orderly pos born kids
  | .open _ _ failed opened, born, kids =>
      failed.Orderly pos born kids ∧ opened.Orderly pos born kids
  | .pipe failed made, born, kids =>
      failed.Orderly pos born kids ∧ made.Orderly pos born kids
  | .dup _ next, born, kids => next.Orderly pos born kids
  | .fork edge child parent, born, kids =>
      (child.Orderly pos (pos ++ [edge]) 0 ∧
          ∀ node, child.Reaches pos node ↔ pos ++ [edge] <+: node) ∧
        parent.Orderly pos born ((pos ++ [edge]) ::ₘ kids) ∧
          ∀ node, parent.Reaches pos node → ¬ pos ++ [edge] <+: node
  | .wait next, born, kids =>
      kids ≠ 0 ∧ ∀ kid ∈ kids, (∃ edge, kid = pos ++ [edge]) ∧
        next.Orderly pos born (kids.erase kid)
  | .call edge _ _, born, kids =>
      kids = 0 ∧ FgUnder born (pos ++ [edge]) ∧ (edge = .listR → FgUnder born pos)
  | .done, _, _ => False

theorem Quits.orderly {code : Code} (hcode : code.Quits) (pos born : Pos) :
    code.Orderly pos born 0 := by
  induction code with
  | exit => simp [Orderly]
  | print next ih => exact ih hcode
  | _ => exact hcode.elim

theorem Quits.not_reaches {code : Code} (hcode : code.Quits) (pos node : Pos) :
    ¬ code.Reaches pos node := by
  induction code with
  | exit => exact id
  | print next ih => exact ih hcode
  | _ => exact hcode.elim

/-- Two subcommands of a node. -/
theorem not_prefix_of_ne {pos : Pos} {edge other : Edge} (hedges : edge ≠ other) (node : Pos)
    (hnode : pos ++ [edge] <+: node) : ¬ pos ++ [other] <+: node :=
  fun hother => hedges (edge_unique hnode hother)

end Code

theorem runcmd_reaches (cmd : Cmd) {pos node : Pos}
    (hreaches : (runcmd cmd).Reaches pos node) : pos <+: node := by
  have hunder : ∀ {edge : Edge}, pos ++ [edge] <+: node → pos <+: node :=
    (List.prefix_append _ _).trans
  cases cmd with
  | exec argv eargv =>
      simp only [runcmd] at hreaches
      split_ifs at hreaches
      · exact hreaches.elim
      · exact hreaches
  | redir cmd file efile mode fd =>
      obtain hreaches | hreaches := hreaches
      · exact hreaches.elim
      · exact hunder hreaches
  | pipe left right =>
      obtain hreaches | hreaches | hreaches | hreaches := hreaches
      · exact hreaches.elim
      · exact hunder hreaches
      · exact hunder hreaches
      · exact hreaches.elim
  | list left right =>
      obtain hreaches | hreaches := hreaches
      · exact hunder hreaches
      · exact hunder hreaches
  | back cmd =>
      obtain hreaches | hreaches := hreaches
      · exact hunder hreaches
      · exact hreaches.elim

/-- The last `wait4` of a node, with one child left. -/
theorem last_wait_orderly (pos born : Pos) (edge : Edge) :
    (Code.wait .last).Orderly pos born {pos ++ [edge]} := by
  refine ⟨by simp, fun kid hkid => ?_⟩
  obtain rfl := Multiset.mem_singleton.mp hkid
  refine ⟨⟨edge, rfl⟩, fun kid hkid => ?_⟩
  simp at hkid

theorem runcmd_orderly (cmd : Cmd) {pos born : Pos} (hpos : FgUnder born pos) :
    (runcmd cmd).Orderly pos born 0 := by
  cases cmd with
  | exec argv eargv =>
      simp only [runcmd]
      split_ifs
      · simp [Code.Orderly]
      · exact ⟨rfl, trivial⟩
  | redir cmd file efile mode fd =>
      exact ⟨by simp [Code.Orderly], rfl, hpos.snoc (by decide), nofun⟩
  | pipe left right =>
      refine ⟨by simp [Code.Orderly], ⟨⟨rfl, .refl _, nofun⟩, fun _ => Iff.rfl⟩,
        ⟨⟨⟨rfl, .refl _, nofun⟩, fun _ => Iff.rfl⟩, ?_, fun _ => False.elim⟩, ?_⟩
      · refine ⟨by simp, fun kid hkid => ?_⟩
        obtain rfl | hkid := Multiset.mem_cons.mp hkid
        · rw [Multiset.erase_cons_head]
          exact ⟨⟨_, rfl⟩, last_wait_orderly _ _ _⟩
        · obtain rfl := Multiset.mem_singleton.mp hkid
          rw [Multiset.erase_cons_tail _ (by simp), Multiset.erase_cons_head]
          exact ⟨⟨_, rfl⟩, last_wait_orderly _ _ _⟩
      · intro node hnode
        obtain hnode | hnode := hnode
        · exact Code.not_prefix_of_ne (by decide) node hnode
        · exact hnode.elim
  | list left right =>
      refine ⟨⟨⟨rfl, .refl _, nofun⟩, fun _ => Iff.rfl⟩, ⟨by simp, ?_⟩,
        Code.not_prefix_of_ne (by decide)⟩
      intro kid hkid
      obtain rfl := Multiset.mem_singleton.mp hkid
      exact ⟨⟨_, rfl⟩, by simp, hpos.snoc (by decide), fun _ => hpos⟩
  | back cmd =>
      refine ⟨⟨⟨rfl, .refl _, nofun⟩, fun _ => Iff.rfl⟩, ?_, fun _ => False.elim⟩
      intro kid hkid
      exact ⟨Multiset.mem_singleton.mp hkid, hpos.isPrefix⟩

/-! ## Processes -/

/-- The process runs something at or under the node, or may start it, itself or
through children that it still has to fork. -/
def Proc.Touches (proc : Proc) (node : Pos) : Prop :=
  match proc.status, proc.frames with
  | .running, frame :: _ => frame.code.Reaches frame.pos node
  | .program, frame :: _ => frame.pos <+: node
  | _, _ => False

/-- The nodes of the activations, the innermost first. -/
def Proc.path (proc : Proc) : List Pos := proc.frames.map Frame.pos

def Proc.Orderly (proc : Proc) (kids : Multiset Pos) : Prop :=
  (∀ frame callers, proc.status = .running → proc.frames = frame :: callers →
    frame.code.Orderly frame.pos proc.born kids) ∧
  (proc.status = .program → kids = 0)

/-- The share of one process in the children of `pid`. -/
def kidShare (pid : ℕ) (kid : Proc) : Multiset Pos := if kid.IsKid pid then {kid.born} else 0

/-- The nodes of the unreaped children. -/
def World.kids (world : World) (pid : ℕ) : Multiset Pos :=
  ListSum.total (kidShare pid) world.procs

theorem World.mem_kids {world : World} {pid : ℕ} {pos : Pos} :
    pos ∈ world.kids pid ↔ ∃ kid ∈ world.procs, kid.IsKid pid ∧ kid.born = pos := by
  rw [kids, ListSum.mem_total]
  constructor
  · rintro ⟨kid, hkid, hpos⟩
    rw [kidShare] at hpos
    split_ifs at hpos with hisKid
    · exact ⟨kid, hkid, hisKid, (Multiset.mem_singleton.mp hpos).symm⟩
    · simp at hpos
  · rintro ⟨kid, hkid, hisKid, rfl⟩
    exact ⟨kid, hkid, by simp [kidShare, hisKid]⟩

theorem Proc.touches_running {proc : Proc} {frame : Frame} {callers : List Frame}
    (hstatus : proc.status = .running) (hframes : proc.frames = frame :: callers)
    (node : Pos) : proc.Touches node ↔ frame.code.Reaches frame.pos node := by
  simp [Touches, hstatus, hframes]

theorem Proc.not_touches_of_ended {proc : Proc} (hended : proc.Ended) (node : Pos) :
    ¬ proc.Touches node := by
  obtain hstatus | hstatus := hended
  · simp [Touches, hstatus]
  · simp [Touches, hstatus]

theorem Proc.orderly_of_ended {proc : Proc} (hended : proc.Ended) (kids : Multiset Pos) :
    proc.Orderly kids := by
  obtain hstatus | hstatus := hended
  · simp [Orderly, hstatus]
  · simp [Orderly, hstatus]

theorem Proc.orderly_of_frame {proc : Proc} {frame : Frame} {callers : List Frame}
    {kids : Multiset Pos} (hstatus : proc.status = .running)
    (hframes : proc.frames = frame :: callers)
    (horderly : frame.code.Orderly frame.pos proc.born kids) : proc.Orderly kids := by
  refine ⟨fun top rest _ heq => ?_, fun hprogram => ?_⟩
  · obtain ⟨rfl, -⟩ := List.cons.inj (hframes.symm.trans heq)
    exact horderly
  · rw [hstatus] at hprogram
    cases hprogram

/-! ## What a step changes -/

/-- What `new` has from `old`. -/
structure Heir (old new : Proc) : Prop where
  born : new.born = old.born
  parents : ∀ pid, new.parent = some pid → old.parent = some pid
  touches : ∀ node, new.Touches node → old.Touches node
  ended : old.Ended → new.Ended

/-- The process goes on, still with the same parent. -/
structure GoesOn (old new : Proc) : Prop extends Heir old new where
  parent : new.parent = old.parent
  running : old.status = .running
  alive : ¬ new.Ended

/-- The process enters `runcmd` once more. -/
structure Enters (proc : Proc) (kids : Multiset Pos) (pos : Pos) (edge : Edge) : Prop where
  top : proc.path.head? = some pos
  kids : kids = 0
  fg : FgUnder proc.born (pos ++ [edge])
  list : edge = .listR → FgUnder proc.born pos
  touches : ∀ node, proc.Touches node ↔ pos ++ [edge] <+: node

/-- `child` is new, for a subcommand of the node at `pos`. -/
structure IsChild (pid : ℕ) (proc child : Proc) (pos : Pos) (edge : Edge) : Prop where
  top : proc.path.head? = some pos
  path : child.path = proc.path
  parent : child.parent = some pid
  born : child.born = pos ++ [edge]
  alive : ¬ child.Ended
  orderly : child.Orderly 0
  touches : ∀ node, child.Touches node ↔ pos ++ [edge] <+: node
  source : ∀ node, child.Touches node → proc.Touches node

/-- What a step of an orderly process changes. -/
inductive Change (world : World) (pid : ℕ) (proc : Proc) : World → Prop
  | moved {after : World} {new : Proc} (hprocs : after.procs = world.procs.set pid new)
      (hgoes : GoesOn proc new)
      (hpath : new.path = proc.path ∨ ∃ pos edge, Enters proc (world.kids pid) pos edge ∧
        new.path = (pos ++ [edge]) :: proc.path)
      (horderly : new.Orderly (world.kids pid)) : Change world pid proc after
  | forked {after : World} {new child : Proc} {pos : Pos} {edge : Edge}
      (hprocs : after.procs = world.procs.set pid new ++ [child])
      (hgoes : GoesOn proc new) (hpath : new.path = proc.path)
      (horderly : new.Orderly ((pos ++ [edge]) ::ₘ world.kids pid))
      (hchild : IsChild pid proc child pos edge)
      (hapart : ∀ node, new.Touches node → ¬ child.Touches node) :
      Change world pid proc after
  | reaped {after : World} {new kid : Proc} {child : ℕ}
      (hprocs : after.procs = (world.procs.set pid new).set child
        { kid with status := .reaped })
      (hgoes : GoesOn proc new) (hpath : new.path = proc.path)
      (hkid : world.procs[child]? = some kid) (hparent : kid.parent = some pid)
      (hzombie : kid.status = .zombie)
      (horderly : new.Orderly ((world.kids pid).erase kid.born)) :
      Change world pid proc after
  | died {after : World} (hprocs : after.procs = (world.die none pid proc).procs)
      (halive : ¬ proc.Ended)
      (hkids : ∀ kid ∈ world.kids pid, ∀ node, FgUnder proc.born node → ¬ FgUnder kid node) :
      Change world pid proc after

section Change

variable {world after : World} {pid : ℕ} {proc : Proc} {act : Act}

theorem Quiet.reaches {pipes : List Pos} {frame : Frame} {fds : Fds} {outcome : Outcome}
    {born : Pos} {kids : Multiset Pos} (hquiet : Quiet pipes frame fds act outcome)
    (horderly : frame.code.Orderly frame.pos born kids) (callers : List Frame) (node : Pos)
    (htouches : (proc.became callers outcome).Touches node) :
    frame.code.Reaches frame.pos node := by
  cases hquiet with
  | print hcode | close hcode | dup hcode | executed hcode =>
      rw [hcode]
      exact htouches
  | opened hcode | made hcode | forkFailed hcode =>
      rw [hcode]
      exact .inr htouches
  | openFailed hcode | pipeFailed hcode =>
      rw [hcode]
      exact .inl htouches
  | execFailed hcode =>
      rw [hcode] at horderly
      exact absurd htouches (horderly.2.not_reaches _ _)

theorem Quiet.orderly {pipes : List Pos} {frame : Frame} {fds : Fds} {outcome : Outcome}
    {kids : Multiset Pos} (hquiet : Quiet pipes frame fds act outcome)
    (hact : act ≠ .forkFails) (horderly : frame.code.Orderly frame.pos proc.born kids)
    (callers : List Frame) : (proc.became callers outcome).Orderly kids := by
  cases hquiet with
  | print hcode | close hcode | dup hcode =>
      rw [hcode] at horderly
      exact Proc.orderly_of_frame rfl rfl horderly
  | opened hcode | made hcode =>
      rw [hcode] at horderly
      exact Proc.orderly_of_frame rfl rfl horderly.2
  | openFailed hcode | pipeFailed hcode =>
      rw [hcode] at horderly
      exact Proc.orderly_of_frame rfl rfl horderly.1
  | executed hcode =>
      rw [hcode] at horderly
      exact ⟨fun _ _ hstatus => (nomatch hstatus), fun _ => horderly.1⟩
  | execFailed hcode =>
      rw [hcode] at horderly
      obtain ⟨rfl, hquits⟩ := horderly
      exact Proc.orderly_of_frame rfl rfl (hquits.orderly _ _)
  | forkFailed => exact absurd rfl hact

theorem Quiet.alive {pipes : List Pos} {frame : Frame} {fds : Fds} {outcome : Outcome}
    (hquiet : Quiet pipes frame fds act outcome) :
    (outcome.status = .running ∨ outcome.status = .program) ∧ outcome.frame.pos = frame.pos := by
  cases hquiet <;> simp

theorem touches_at (frame : Frame) (callers : List Frame) (hstatus : proc.status = .running)
    (code : Code) (node : Pos) :
    (proc.at frame callers code).Touches node ↔ code.Reaches frame.pos node := by
  simp [Proc.Touches, Proc.at, hstatus]

theorem goesOn_at {frame : Frame} {callers : List Frame} (hstatus : proc.status = .running)
    (hframes : proc.frames = frame :: callers) {code : Code}
    (hreaches : ∀ node, code.Reaches frame.pos node → frame.code.Reaches frame.pos node) :
    GoesOn proc (proc.at frame callers code) where
  born := rfl
  parents _ := id
  parent := rfl
  running := hstatus
  touches node htouches :=
    (proc.touches_running hstatus hframes node).mpr
      (hreaches node ((touches_at frame callers hstatus code node).mp htouches))
  ended := id
  alive := by simp [Proc.Ended, Proc.at, hstatus]

theorem path_at {frame : Frame} {callers : List Frame}
    (hframes : proc.frames = frame :: callers) (code : Code) :
    (proc.at frame callers code).path = proc.path := by
  simp [Proc.path, Proc.at, hframes]

/-- The code-level case analysis, done once for all invariants. -/
theorem Moves.change (hmoves : Moves none world pid proc act after) (hact : act ≠ .forkFails)
    (horderly : proc.Orderly (world.kids pid)) : Change world pid proc after := by
  cases hmoves with
  | @quiet frame callers _ outcome hstatus hframes hquiet =>
      have hcode := horderly.1 _ _ hstatus hframes
      obtain ⟨halive, hpos⟩ := hquiet.alive
      refine .moved rfl
        ⟨⟨rfl, fun _ => id, fun node htouches => ?_, fun hended => ?_⟩, rfl, hstatus, ?_⟩
        (.inl ?_) (hquiet.orderly hact hcode callers)
      · rw [proc.touches_running hstatus hframes]
        exact hquiet.reaches hcode callers node htouches
      · simp [Proc.Ended, hstatus] at hended
      · obtain halive | halive := halive
        · simp [Proc.Ended, Proc.became, halive]
        · simp [Proc.Ended, Proc.became, halive]
      · simp [Proc.path, Proc.became, hframes, hpos]
  | @fork frame callers edge child parent hstatus hframes hcode =>
      have horder := horderly.1 _ _ hstatus hframes
      rw [hcode] at horder
      obtain ⟨⟨hchild, hreach⟩, hparent, hapart⟩ := horder
      have hforked : ∀ node, Proc.Touches
          { proc.at frame callers child with
            parent := some pid
            born := frame.pos ++ [edge] } node ↔ child.Reaches frame.pos node :=
        touches_at frame callers hstatus child
      refine .forked rfl (goesOn_at hstatus hframes fun node hnode => ?_)
        (path_at hframes parent) (Proc.orderly_of_frame hstatus rfl hparent)
        ⟨by simp [Proc.path, hframes], path_at hframes child, rfl, rfl, ?_,
          Proc.orderly_of_frame hstatus rfl hchild,
          fun node => (hforked node).trans (hreach node), fun node hnode => ?_⟩
        fun node hnew hnode => ?_
      · rw [hcode]
        exact .inr hnode
      · simp [Proc.Ended, Proc.at, hstatus]
      · rw [proc.touches_running hstatus hframes, hcode]
        exact .inl ((hforked node).mp hnode)
      · exact hapart node ((touches_at frame callers hstatus parent node).mp hnew)
          ((hreach node).mp ((hforked node).mp hnode))
  | @reap frame callers next child kid hstatus hframes hcode hkid hparent hzombie =>
      have horder := horderly.1 _ _ hstatus hframes
      rw [hcode] at horder
      have hmem : kid.born ∈ world.kids pid :=
        World.mem_kids.mpr ⟨kid, List.mem_of_getElem? hkid, ⟨hparent, by simp [hzombie]⟩, rfl⟩
      exact .reaped rfl (goesOn_at hstatus hframes fun node hnode => by rw [hcode]; exact hnode)
        (path_at hframes next) hkid hparent hzombie
        (Proc.orderly_of_frame hstatus rfl (horder.2 _ hmem).2)
  | childless hstatus hframes hcode hnone =>
      have horder := horderly.1 _ _ hstatus hframes
      rw [hcode] at horder
      obtain ⟨pos, hpos⟩ := Multiset.exists_mem_of_ne_zero horder.1
      obtain ⟨kid, hkid, hisKid, -⟩ := World.mem_kids.mp hpos
      exact absurd hisKid (hnone kid hkid)
  | @call frame callers edge cmd next hstatus hframes hcode =>
      have horder := horderly.1 _ _ hstatus hframes
      rw [hcode] at horder
      obtain ⟨hkids, hfg, hlist⟩ := horder
      have htouches : ∀ node, proc.Touches node ↔ frame.pos ++ [edge] <+: node := by
        intro node
        rw [proc.touches_running hstatus hframes, hcode]
        rfl
      refine .moved rfl ⟨⟨rfl, fun _ => id, fun node hnode => ?_, ?_⟩, rfl, hstatus, ?_⟩
        (.inr ⟨frame.pos, edge, ⟨by simp [Proc.path, hframes], hkids, hfg, hlist, htouches⟩,
          by simp [Proc.path, hframes]⟩)
        (Proc.orderly_of_frame hstatus rfl (hkids ▸ runcmd_orderly cmd hfg))
      · simp only [Proc.Touches, hstatus] at hnode
        exact (htouches node).mpr (runcmd_reaches cmd hnode)
      · exact id
      · simp [Proc.Ended, hstatus]
  | ret hstatus hframes hcode =>
      have horder := horderly.1 _ _ hstatus hframes
      rw [hcode] at horder
      exact horder.elim
  | exit hstatus hframes hcode =>
      have horder := horderly.1 _ _ hstatus hframes
      rw [hcode] at horder
      refine .died rfl (by simp [Proc.Ended, hstatus]) fun kid hkid node hborn hunder => ?_
      obtain ⟨rfl, hpos⟩ := horder kid hkid
      exact hborn.not_back hpos hunder.isPrefix
  | finish hstatus =>
      refine .died rfl (by simp [Proc.Ended, hstatus]) fun kid hkid => ?_
      rw [horderly.2 hstatus] at hkid
      simp at hkid

end Change

end JyyOS.Shell
