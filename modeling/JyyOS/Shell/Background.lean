import JyyOS.Core.ListSum
import JyyOS.Shell.Session

/-!
# When the prompt waits for the foreground command

Without a background command every process inside `runcmd` has waited for its
children when it ends, so the shell gets no orphans even as the init process, as
long as the programs leave none either.  Otherwise orphans come to the init
process, and a session shows what they do there.
-/

namespace JyyOS.Shell

open JyyOS.Transition

/-! ## Code that waits for its children -/

/-- The tree has a BACK node. -/
def Cmd.HasBack : Cmd → Prop
  | .exec _ _ => False
  | .redir cmd _ _ _ _ => cmd.HasBack
  | .pipe left right => left.HasBack ∨ right.HasBack
  | .list left right => left.HasBack ∨ right.HasBack
  | .back _ => True

/-- The line runs a command in the background. -/
def Line.Background (line : Line) : Prop :=
  ¬ isCd line.text ∧
    ∃ cmd text, parsecmd (4 * line.es + 4) line = .ok (cmd, text) ∧ cmd.HasBack

/-- With this many unreaped children the code has waited for all of them
wherever it exits, executes a program or enters `runcmd`. -/
def Code.Settles : Code → ℕ → Prop
  | .exit _ _, kids => kids = 0
  | .execve _ failed, kids => kids = 0 ∧ failed.Settles 0
  | .print next, kids => next.Settles kids
  | .close _ next, kids => next.Settles kids
  | .open _ _ failed opened, kids => failed.Settles kids ∧ opened.Settles kids
  | .pipe failed made, kids => failed.Settles kids ∧ made.Settles kids
  | .dup _ next, kids => next.Settles kids
  | .fork _ child parent, kids =>
      child.Settles 0 ∧ parent.Settles kids ∧ parent.Settles (kids + 1)
  | .wait next, kids => next.Settles (kids - 1)
  | .call _ cmd _, kids => kids = 0 ∧ ¬ cmd.HasBack
  | .done, _ => False

theorem runcmd_settles {cmd : Cmd} (hcmd : ¬ cmd.HasBack) :
    (runcmd cmd).Settles 0 := by
  cases cmd with
  | exec argv eargv =>
      simp only [runcmd]
      split_ifs
      · exact rfl
      · exact ⟨rfl, rfl⟩
  | redir cmd file efile mode fd => exact ⟨rfl, rfl, hcmd⟩
  | pipe left right =>
      obtain ⟨hleft, hright⟩ := not_or.mp hcmd
      have hrest : ∀ kids ≤ 2, (Code.close .p0 (.close .p1
          (.wait (.wait .last)))).Settles kids := by
        intro kids hkids
        show kids - 1 - 1 = 0
        omega
      have hsecond : ∀ kids ≤ 1, (Code.fork .pipeR
          (.close (.const 0) (.dup .p0 (.close .p0 (.close .p1 (.call .pipeR right
            (.close .p0 (.close .p1 (.wait (.wait .last)))))))))
          (.close .p0 (.close .p1 (.wait (.wait .last))))).Settles kids :=
        fun kids hkids => ⟨⟨rfl, hright⟩, hrest kids (by omega), hrest _ (by omega)⟩
      exact ⟨rfl, ⟨rfl, hleft⟩, hsecond 0 (by omega), hsecond 1 (by omega)⟩
  | list left right =>
      obtain ⟨hleft, hright⟩ := not_or.mp hcmd
      exact ⟨⟨rfl, hleft⟩, ⟨rfl, hright⟩, ⟨rfl, hright⟩⟩
  | back cmd => exact absurd trivial hcmd

theorem runLine_settles {line : Line} (hline : ¬ line.Background)
    (hcd : ¬ isCd line.text) (rest : Code) : (runLine line rest).Settles 0 := by
  unfold runLine
  split
  next cmd text hparse =>
    exact ⟨rfl, fun hback => hline ⟨hcd, cmd, text, hparse, hback⟩⟩
  next => exact rfl

/-! ## Counting children -/

def World.children (world : World) (pid : ℕ) : ℕ :=
  ListSum.total (fun kid => if kid.IsKid pid then 1 else 0) world.procs

theorem World.children_eq_zero {world : World} {pid : ℕ} :
    world.children pid = 0 ↔ ∀ kid ∈ world.procs, ¬ kid.IsKid pid := by
  rw [children, ListSum.total, List.sum_eq_zero_iff]
  simp

section Children

variable {reaper : Option ℕ} {world after : World} {pid other : ℕ}
  {proc : Proc} {act : Act}

theorem children_set {new : Proc} (hproc : world.procs[pid]? = some proc)
    (hsame : new.IsKid other ↔ proc.IsKid other) :
    (World.put world pid new).children other = world.children other := by
  apply ListSum.total_set_eq hproc
  simp only [hsame]

/-- A process that goes on stays the child that it was. -/
theorem isKid_running {old new : Proc} (hold : old.status = .running)
    (hparent : new.parent = old.parent) (hnew : new.status ≠ .reaped) :
    new.IsKid other ↔ old.IsKid other := by
  simp [Proc.IsKid, hold, hparent, hnew]

theorem isKid_at (frame : Frame) (callers : List Frame) (code : Code)
    (hstatus : proc.status = .running) :
    (proc.at frame callers code).IsKid other ↔ proc.IsKid other :=
  isKid_running hstatus rfl (by simp [Proc.at, hstatus])

theorem children_fork {new child : Proc} (hproc : world.procs[pid]? = some proc)
    (hsame : new.IsKid other ↔ proc.IsKid other)
    (hprocs : after.procs = world.procs.set pid new ++ [child]) :
    after.children other =
      world.children other + if child.IsKid other then 1 else 0 := by
  rw [World.children, hprocs, ListSum.total_append, ListSum.total_cons,
    ListSum.total_nil, add_zero]
  exact congrArg (· + _) (children_set hproc hsame)

/-- A child that is waited for counts no longer. -/
theorem children_reap {new kid : Proc} {child : ℕ}
    (hproc : world.procs[pid]? = some proc) (hne : pid ≠ child)
    (hsame : new.IsKid other ↔ proc.IsKid other)
    (hkid : world.procs[child]? = some kid) (hzombie : kid.status = .zombie) :
    world.children other =
      ((world.put pid new).put child { kid with status := .reaped }).children other +
        if kid.parent = some other then 1 else 0 := by
  have hkid' : (world.procs.set pid new)[child]? = some kid := by
    rw [List.getElem?_set_ne hne, hkid]
  obtain ⟨rest, hall, hset⟩ := ListSum.total_split
    (fun kid : Proc => if kid.IsKid other then 1 else 0) hkid'
  have hbefore : ListSum.total (fun kid : Proc => if kid.IsKid other then 1 else 0)
      (world.procs.set pid new) = world.children other := children_set hproc hsame
  rw [← hbefore, hall, World.children, World.put, World.put, hset]
  have hgone : ¬ Proc.IsKid other { kid with status := .reaped } :=
    fun hisKid => hisKid.2 rfl
  have hwas : kid.IsKid other ↔ kid.parent = some other := by
    simp [Proc.IsKid, hzombie]
  simp only [hgone, hwas, if_false]
  omega

/-- A process that leaves no child behind, or none to `other`. -/
theorem children_die (hproc : world.procs[pid]? = some proc)
    (halive : ¬ proc.Ended) (hother : other ≠ pid)
    (hleft : reaper ≠ some other ∨ world.children pid = 0) :
    (world.die reaper pid proc).children other = world.children other := by
  have hunreaped : proc.status ≠ .reaped := fun hreaped => halive (.inr hreaped)
  have hdead : (World.put world pid { proc with status := .zombie }).children other =
      world.children other := by
    apply children_set hproc
    simp [Proc.IsKid, hunreaped]
  have hown : reaper = some other → ∀ kid ∈ world.procs.set pid
      { proc with status := .zombie }, ¬ kid.IsKid pid := by
    intro hreaper kid hkid hisKid
    have hnone := World.children_eq_zero.mp (hleft.resolve_left (by simp [hreaper]))
    obtain hold | rfl := List.mem_or_eq_of_mem_set hkid
    · exact hnone kid hold hisKid
    · exact hnone proc (List.mem_of_getElem? hproc) ⟨hisKid.1, hunreaped⟩
  refine (ListSum.total_map _ fun kid hkid => ?_).trans hdead
  have hiff : (kid.orphan reaper pid).IsKid other ↔ kid.IsKid other := by
    rw [Proc.IsKid, Proc.IsKid, Proc.orphan_status]
    refine and_congr_left fun hkidUnreaped => ?_
    obtain hsame | ⟨hchild, hnew⟩ := kid.orphan_parent
    · rw [hsame]
    · rw [hnew, hchild]
      refine iff_of_false (fun hreaper => hown hreaper kid hkid ⟨hchild, hkidUnreaped⟩) ?_
      simpa using hother.symm
  simp only [hiff]

/-- The children of a process that does not move. -/
theorem Moves.children_other (hmoves : Moves reaper world pid proc act after)
    (hproc : world.procs[pid]? = some proc) (hother : other ≠ pid)
    (hleft : reaper ≠ some other ∨ (world.Exits ⟨pid, act⟩ → world.children pid = 0)) :
    after.children other = world.children other := by
  have hpid : some pid ≠ some other := by simpa using hother.symm
  cases hmoves with
  | quiet hstatus hframes hquiet =>
      refine children_set hproc (isKid_running hstatus rfl ?_)
      cases hquiet <;> simp [Proc.became]
  | @fork frame callers edge child parent hstatus hframes hcode =>
      rw [children_fork hproc (isKid_at frame callers parent hstatus) rfl]
      simp [Proc.IsKid, hpid]
  | @reap frame callers next child kid hstatus hframes hcode hkid hparent hzombie =>
      rw [children_reap hproc (ne_of_zombie hproc hstatus hkid hzombie)
        (isKid_at frame callers next hstatus) hkid hzombie,
        if_neg (by rw [hparent]; exact hpid), add_zero]
  | childless hstatus hframes hcode hnone =>
      exact children_set hproc (isKid_at _ _ _ hstatus)
  | call hstatus hframes hcode =>
      exact children_set hproc (isKid_running hstatus rfl (by simp [hstatus]))
  | ret hstatus hframes hcode =>
      exact children_set hproc (isKid_running hstatus rfl (by simp [hstatus]))
  | exit hstatus hframes hcode =>
      have hexit := Proc.code?_running hstatus hframes
      rw [hcode] at hexit
      exact children_die hproc (by simp [Proc.Ended, hstatus]) hother
        (hleft.imp_right fun hzero => hzero ⟨proc, hproc, .inr ⟨_, _, hexit⟩⟩)
  | finish hstatus =>
      exact children_die hproc (by simp [Proc.Ended, hstatus]) hother
        (hleft.imp_right fun hzero => hzero ⟨proc, hproc, .inl rfl⟩)

/-- The children of a process that does not move, in a session. -/
theorem Steps.children_other (hsteps : Steps reaper world pid proc act after)
    (hproc : world.procs[pid]? = some proc) (hother : other ≠ pid)
    (hleft : reaper ≠ some other ∨ (world.Exits ⟨pid, act⟩ → world.children pid = 0)) :
    after.children other = world.children other := by
  cases hsteps with
  | moves hmoves => exact hmoves.children_other hproc hother hleft
  | spawn hstatus =>
      have hprocs : (world.spawn pid proc).procs =
          world.procs.set pid proc ++ [{ proc with parent := some pid }] :=
        congrArg (·.procs ++ _) (World.put_self hproc).symm
      rw [children_fork hproc Iff.rfl hprocs]
      simp [Proc.IsKid, hother.symm]
  | @wait child kid hstatus hkid hparent hzombie =>
      have hne : pid ≠ child := by
        rintro rfl
        obtain rfl := Option.some.inj (hproc.symm.trans hkid)
        cases hstatus.symm.trans hzombie
      have hnot : ¬ kid.parent = some other := by
        rw [hparent]
        simpa using hother.symm
      have hcount := children_reap hproc hne (Iff.rfl : proc.IsKid other ↔ _) hkid hzombie
      rw [if_neg hnot, add_zero, World.put_self hproc] at hcount
      exact hcount.symm

end Children

/-! ## Settled worlds -/

/-- The code left of the process settles its children. -/
def Proc.Settles (proc : Proc) (kids : ℕ) : Prop :=
  ∀ code, proc.code? = some code → code.Settles kids

/-- Nothing is left of a process outside `runcmd`. -/
theorem Proc.settles_of_status {proc : Proc} (hstatus : proc.status ≠ .running)
    (kids : ℕ) : proc.Settles kids := by
  intro code hcode
  unfold code? at hcode
  split at hcode
  next hrunning _ => exact absurd hrunning hstatus
  next => cases hcode

theorem Proc.settles_of_ended {proc : Proc} (hended : proc.Ended) (kids : ℕ) :
    proc.Settles kids := by
  apply settles_of_status
  obtain hstatus | hstatus := hended
  · simp [hstatus]
  · simp [hstatus]

theorem Proc.settles_of_code {proc : Proc} {code : Code} {kids : ℕ}
    (hcode : proc.code? = some code) (hsettles : code.Settles kids) :
    proc.Settles kids := by
  intro other hother
  obtain rfl := Option.some.inj (hcode.symm.trans hother)
  exact hsettles

section Settles

variable {reaper : Option ℕ} {world after : World} {pid : ℕ} {proc : Proc}
  {act : Act}

theorem Quiet.settles {pipes : List Pos} {frame : Frame} {fds : Fds}
    {outcome : Outcome} {kids : ℕ} (hquiet : Quiet pipes frame fds act outcome)
    (hsettles : frame.code.Settles kids) (callers : List Frame) :
    (proc.became callers outcome).Settles kids := by
  cases hquiet with
  | print hcode | close hcode | dup hcode =>
      rw [hcode] at hsettles
      exact Proc.settles_of_code rfl hsettles
  | opened hcode | made hcode =>
      rw [hcode] at hsettles
      exact Proc.settles_of_code rfl hsettles.2
  | openFailed hcode | pipeFailed hcode =>
      rw [hcode] at hsettles
      exact Proc.settles_of_code rfl hsettles.1
  | executed hcode =>
      exact Proc.settles_of_status (by simp [Proc.became]) _
  | execFailed hcode =>
      rw [hcode] at hsettles
      obtain ⟨rfl, hfailed⟩ := hsettles
      exact Proc.settles_of_code rfl hfailed
  | forkFailed hcode =>
      rw [hcode] at hsettles
      exact Proc.settles_of_code rfl hsettles.2.1

/-- The process that moves still settles its children. -/
theorem Moves.settles_actor (hmoves : Moves reaper world pid proc act after)
    (hproc : world.procs[pid]? = some proc)
    (hsettles : proc.Settles (world.children pid)) {new : Proc}
    (hnew : after.procs[pid]? = some new) :
    new.Settles (after.children pid) := by
  have hlt : pid < world.procs.length := (List.getElem?_eq_some_iff.mp hproc).1
  cases hmoves with
  | @quiet frame callers _ outcome hstatus hframes hquiet =>
      have hcode := hsettles _ (Proc.code?_running hstatus hframes)
      obtain rfl := Option.some.inj ((List.getElem?_set_self hlt).symm.trans hnew)
      have hcount : World.children ⟨world.procs.set pid (proc.became callers outcome),
          world.pipes ++ outcome.pipes, world.execs ++ outcome.execs⟩ pid =
          world.children pid := by
        refine children_set hproc (isKid_running hstatus rfl ?_)
        cases hquiet <;> simp [Proc.became]
      rw [hcount]
      exact hquiet.settles hcode callers
  | @fork frame callers edge child parent hstatus hframes hcode =>
      have hsettled := hsettles _ (Proc.code?_running hstatus hframes)
      rw [hcode] at hsettled
      rw [List.getElem?_append_left (by simpa using hlt),
        List.getElem?_set_self hlt, Option.some.injEq] at hnew
      rw [children_fork hproc (isKid_at frame callers parent hstatus) rfl, ← hnew,
        if_pos ⟨rfl, by simp [Proc.at, hstatus]⟩]
      exact Proc.settles_of_code (Proc.code?_running hstatus rfl) hsettled.2.2
  | @reap frame callers next child kid hstatus hframes hcode hkid hparent hzombie =>
      have hsettled := hsettles _ (Proc.code?_running hstatus hframes)
      have hne := ne_of_zombie hproc hstatus hkid hzombie
      rw [hcode, Code.Settles, children_reap hproc hne
        (isKid_at frame callers next hstatus) hkid hzombie, if_pos hparent,
        Nat.add_sub_cancel] at hsettled
      rw [World.put, List.getElem?_set_ne hne.symm, World.put,
        List.getElem?_set_self hlt, Option.some.injEq] at hnew
      rw [← hnew]
      exact Proc.settles_of_code (Proc.code?_running hstatus rfl) hsettled
  | @childless frame callers next hstatus hframes hcode hnone =>
      have hsettled := hsettles _ (Proc.code?_running hstatus hframes)
      rw [hcode, Code.Settles, World.children_eq_zero.mpr hnone] at hsettled
      rw [World.put, List.getElem?_set_self hlt, Option.some.injEq] at hnew
      rw [children_set hproc (isKid_at frame callers next hstatus),
        World.children_eq_zero.mpr hnone, ← hnew]
      exact Proc.settles_of_code (Proc.code?_running hstatus rfl) hsettled
  | @call frame callers edge cmd next hstatus hframes hcode =>
      have hsettled := hsettles _ (Proc.code?_running hstatus hframes)
      rw [hcode] at hsettled
      rw [World.put, List.getElem?_set_self hlt, Option.some.injEq] at hnew
      have hsame : new.IsKid pid ↔ proc.IsKid pid := by
        rw [← hnew]
        exact isKid_running hstatus rfl (by simp [hstatus])
      rw [hnew, children_set hproc hsame, hsettled.1, ← hnew]
      exact Proc.settles_of_code (Proc.code?_running hstatus rfl)
        (runcmd_settles hsettled.2)
  | ret hstatus hframes hcode =>
      have hsettled := hsettles _ (Proc.code?_running hstatus hframes)
      rw [hcode] at hsettled
      exact hsettled.elim
  | exit hstatus hframes hcode | finish hstatus =>
      rw [World.die, List.getElem?_map, List.getElem?_set_self hlt, Option.map_some,
        Option.some.injEq] at hnew
      rw [← hnew]
      exact Proc.settles_of_ended (.inl (Proc.orphan_status _)) _

/-- A child settles its children, for it has none. -/
theorem Moves.settles_born (hmoves : Moves reaper world pid proc act after)
    (hsettles : proc.Settles (world.children pid)) {index : ℕ} {new : Proc}
    (hnew : after.procs[index]? = some new)
    (hnone : world.procs[index]? = none) : new.Settles 0 := by
  have hle : world.procs.length ≤ index := List.getElem?_eq_none_iff.mp hnone
  have hbound : index < after.procs.length := (List.getElem?_eq_some_iff.mp hnew).1
  cases hmoves with
  | @fork frame callers edge child parent hstatus hframes hcode =>
      have hsettled := hsettles _ (Proc.code?_running hstatus hframes)
      rw [hcode] at hsettled
      obtain rfl : index = world.procs.length := by
        simp only [List.length_append, List.length_set, List.length_singleton] at hbound
        omega
      rw [List.getElem?_append_right (by simp)] at hnew
      simp only [List.length_set, Nat.sub_self, List.getElem?_cons_zero,
        Option.some.injEq] at hnew
      rw [← hnew]
      exact Proc.settles_of_code (Proc.code?_running hstatus rfl) hsettled.1
  | _ =>
      simp only [World.put, World.die, List.length_set, List.length_map] at hbound
      omega

/-- A program has nothing left to settle, and neither has its child. -/
theorem Steps.settles_actor (hsteps : Steps reaper world pid proc act after)
    (hproc : world.procs[pid]? = some proc)
    (hsettles : proc.Settles (world.children pid)) {new : Proc}
    (hnew : after.procs[pid]? = some new) :
    new.Settles (after.children pid) := by
  have hlt : pid < world.procs.length := (List.getElem?_eq_some_iff.mp hproc).1
  cases hsteps with
  | moves hmoves => exact hmoves.settles_actor hproc hsettles hnew
  | spawn hstatus =>
      obtain rfl := Option.some.inj
        (hproc.symm.trans ((List.getElem?_append_left hlt).symm.trans hnew))
      exact Proc.settles_of_status (by simp [hstatus]) _
  | @wait child kid hstatus hkid hparent hzombie =>
      have hne : child ≠ pid := by
        rintro rfl
        obtain rfl := Option.some.inj (hproc.symm.trans hkid)
        cases hstatus.symm.trans hzombie
      obtain rfl := Option.some.inj
        (hproc.symm.trans ((List.getElem?_set_ne hne).symm.trans hnew))
      exact Proc.settles_of_status (by simp [hstatus]) _

theorem Steps.settles_born (hsteps : Steps reaper world pid proc act after)
    (hsettles : proc.Settles (world.children pid)) {index : ℕ} {new : Proc}
    (hnew : after.procs[index]? = some new)
    (hnone : world.procs[index]? = none) : new.Settles 0 := by
  cases hsteps with
  | moves hmoves => exact hmoves.settles_born hsettles hnew hnone
  | spawn hstatus =>
      have hspawn : Steps reaper world pid proc .go (world.spawn pid proc) := .spawn hstatus
      obtain ⟨rfl, -⟩ := hspawn.born hnew hnone
      rw [World.spawn, List.getElem?_concat_length, Option.some.injEq] at hnew
      exact Proc.settles_of_status (by simp [← hnew, hstatus]) _
  | wait hstatus hkid hparent hzombie =>
      have hlt := (List.getElem?_eq_some_iff.mp hnew).1
      rw [World.put, List.length_set] at hlt
      exact absurd hlt (List.getElem?_eq_none_iff.mp hnone).not_gt

end Settles

/-- Parents exist, the shell has a child only while it waits, and an init
process is left no child by the others. -/
structure World.Settled (init : Bool) (all : List Line) (world : World) : Prop where
  parents : ∀ proc ∈ world.procs, ∀ pid, proc.parent = some pid →
    pid < world.procs.length
  shell : ∃ shell, world.procs[0]? = some shell ∧ shell.parent = none ∧
    (shell.Ended ∨ ∃ waiting, shell.At all waiting ∧
      world.children 0 ≤ waiting.toNat)
  settles : init = true → ∀ (pid : ℕ) (proc : Proc), pid ≠ 0 →
    world.procs[pid]? = some proc → proc.Settles (world.children pid)

section Settled

variable {init : Bool} {all : List Line} {world after : World} {pid : ℕ}
  {proc shell : Proc} {act : Act}

/-- A program has waited for its children when it ends. -/
def Session.Gathers (session : Session) (label : Label) : Prop :=
  label.act = .finish → ∀ kid ∈ session.world.procs, ¬ kid.IsKid label.pid

theorem settled_start (lines : List Line) (input output error : Desc) :
    (Session.start lines input output error).world.Settled init lines := by
  have hkids : (Session.start lines input output error).world.children 0 = 0 :=
    World.children_eq_zero.mpr (by simp [Session.start, Proc.IsKid])
  refine ⟨by simp [Session.start], ⟨_, rfl, rfl, .inr ⟨false,
    ⟨rfl, _, rfl, .prompt fun _ => id⟩, hkids.le⟩⟩, ?_⟩
  intro _ index proc hindex hproc
  obtain ⟨hlt, -⟩ := List.getElem?_eq_some_iff.mp hproc
  simp only [Session.start, List.length_singleton] at hlt
  omega

theorem World.Settled.step_parents (hworld : world.Settled init all)
    (hsteps : Steps (reaper init) world pid proc act after)
    (hproc : world.procs[pid]? = some proc) :
    ∀ new ∈ after.procs, ∀ parent, new.parent = some parent →
      parent < after.procs.length := by
  have hkept : ∀ index < world.procs.length, index < after.procs.length := by
    intro index hindex
    obtain ⟨new, hnew, -⟩ := hsteps.fate hproc (List.getElem?_eq_getElem hindex)
    exact (List.getElem?_eq_some_iff.mp hnew).1
  have hpid : pid < world.procs.length := (List.getElem?_eq_some_iff.mp hproc).1
  intro new hmem parent hparent
  obtain ⟨index, hnew⟩ := List.mem_iff_getElem?.mp hmem
  apply hkept
  cases hold : world.procs[index]? with
  | none =>
      obtain ⟨-, hborn⟩ := hsteps.born hnew hold
      obtain rfl := Option.some.inj (hborn.symm.trans hparent)
      exact hpid
  | some old =>
      obtain ⟨new', hnew', hfate⟩ := hsteps.fate hproc hold
      obtain rfl := Option.some.inj (hnew'.symm.trans hnew)
      obtain hsame | ⟨-, -, hreaper, -⟩ := hfate.parent
      · exact hworld.parents old (List.mem_of_getElem? hold) parent
          (hsame.symm.trans hparent)
      · rw [hreaper] at hparent
        cases init with
        | false => cases hparent
        | true =>
            cases hparent
            exact Nat.zero_lt_of_lt hpid

/-- A process that ends as a child of an init shell has no children. -/
theorem World.Settled.no_children (hworld : world.Settled init all)
    (hinit : init = true) (hpid : pid ≠ 0)
    (hgathers : act = .finish → world.children pid = 0)
    (hproc : world.procs[pid]? = some proc) (hexits : world.Exits ⟨pid, act⟩) :
    world.children pid = 0 := by
  have hsettles := hworld.settles hinit pid proc hpid hproc
  obtain ⟨proc', hproc', hfinish | ⟨status, next, hcode⟩⟩ := hexits
  · exact hgathers hfinish
  · obtain rfl := Option.some.inj (hproc'.symm.trans hproc)
    exact hsettles _ hcode

theorem World.Settled.children_kept (hworld : world.Settled init all)
    (hsteps : Steps (reaper init) world pid proc act after)
    (hproc : world.procs[pid]? = some proc)
    (hgathers : init = true → act = .finish → world.children pid = 0) (hpid : pid ≠ 0)
    {other : ℕ} (hother : other ≠ pid) : after.children other = world.children other := by
  apply hsteps.children_other hproc hother
  cases init with
  | false => exact .inl nofun
  | true => exact .inr (hworld.no_children rfl hpid (hgathers rfl) hproc)

theorem World.children_of_procs {other : World}
    (hprocs : after.procs = other.procs) (pid : ℕ) :
    after.children pid = other.children pid := by
  rw [children, hprocs, children]

/-- The children of the shell after a step of its own. -/
theorem ShellMoves.children {reaper : Option ℕ} {waiting : Bool}
    (hmoves : ShellMoves reaper all world shell waiting act after)
    (hshell : world.procs[0]? = some shell) (hat : shell.At all waiting)
    (horphan : shell.parent = none)
    (hkids : world.children 0 ≤ waiting.toNat) :
    ∃ new, after.procs[0]? = some new ∧ new.parent = none ∧
      (new.Ended ∨ ∃ waiting, new.At all waiting ∧
        after.children 0 ≤ waiting.toNat) := by
  have hlt : 0 < world.procs.length := (List.getElem?_eq_some_iff.mp hshell).1
  have hsame : ∀ {waiting : Bool} {new : Proc}, new.At all waiting →
      new.parent = shell.parent → (new.IsKid 0 ↔ shell.IsKid 0) := by
    intro waiting new hnew hparent
    exact isKid_running hat.1 hparent (by simp [hnew.1])
  have hset : ∀ {new : Proc} {waiting : Bool}, after.procs = world.procs.set 0 new →
      new.At all waiting → new.parent = shell.parent →
        after.procs[0]? = some new ∧ new.parent = none ∧
          after.children 0 = world.children 0 := by
    intro new waiting hprocs hnew hparent
    refine ⟨by rw [hprocs, List.getElem?_set_self hlt], hparent.trans horphan, ?_⟩
    rw [← children_set hshell (hsame hnew hparent)]
    exact World.children_of_procs hprocs 0
  cases hmoves with
  | @silent _ new hprocs hparent hnew =>
      obtain ⟨hzero, hnone, hcount⟩ := hset hprocs hnew hparent
      exact ⟨new, hzero, hnone, .inr ⟨false, hnew, hcount.trans_le hkids⟩⟩
  | @fork _ new child _ _ _ hprocs hparent hnew hcode hkid hstatus =>
      refine ⟨new, ?_, hparent.trans horphan, .inr ⟨true, hnew, ?_⟩⟩
      · rw [hprocs, List.getElem?_append_left (by simpa using hlt),
          List.getElem?_set_self hlt]
      · rw [children_fork hshell (hsame hnew hparent) hprocs, Nat.le_zero.mp hkids,
          if_pos ⟨hkid, by simp [hstatus]⟩]
        exact le_rfl
  | @forkFails _ new hprocs hparent hnew =>
      obtain ⟨hzero, hnone, hcount⟩ := hset hprocs hnew hparent
      refine ⟨new, hzero, hnone, .inr ⟨true, hnew, ?_⟩⟩
      rw [hcount, Nat.le_zero.mp hkids]
      exact Nat.zero_le _
  | @reap _ new kid child hprocs hparent hnew hkid hzombie hisKid =>
      have hne := ne_of_zombie hshell hat.1 hkid hzombie
      refine ⟨new, ?_, hparent.trans horphan, .inr ⟨false, hnew, ?_⟩⟩
      · rw [hprocs, List.getElem?_set_ne hne.symm, List.getElem?_set_self hlt]
      · rw [children_reap hshell hne (hsame hnew hparent) hkid hzombie,
          if_pos hisKid] at hkids
        have hcount : after.children 0 = ((world.put 0 new).put child
            { kid with status := .reaped }).children 0 :=
          World.children_of_procs hprocs 0
        rw [hcount]
        exact Nat.le_of_succ_le_succ hkids
  | @childless _ new hprocs hparent hnew hnone =>
      obtain ⟨hzero, hparent, hcount⟩ := hset hprocs hnew hparent
      refine ⟨new, hzero, hparent, .inr ⟨false, hnew, ?_⟩⟩
      rw [hcount, World.children_eq_zero.mpr hnone]
      exact le_rfl
  | exit hprocs =>
      refine ⟨Proc.orphan reaper 0 { shell with status := .zombie }, ?_, ?_,
        .inl (.inl (Proc.orphan_status _))⟩
      · rw [hprocs, World.die, List.getElem?_map, List.getElem?_set_self hlt]
        rfl
      · simp [Proc.orphan, horphan]

theorem World.Settled.step_shell (hworld : world.Settled init all)
    (hsteps : Steps (reaper init) world pid proc act after)
    (hproc : world.procs[pid]? = some proc)
    (hgathers : init = true → act = .finish → world.children pid = 0) :
    ∃ shell, after.procs[0]? = some shell ∧ shell.parent = none ∧
      (shell.Ended ∨ ∃ waiting, shell.At all waiting ∧
        after.children 0 ≤ waiting.toNat) := by
  obtain ⟨shell, hshell, horphan, hstate⟩ := hworld.shell
  by_cases hpid : pid = 0
  · subst hpid
    obtain rfl := Option.some.inj (hshell.symm.trans hproc)
    obtain ⟨waiting, hat, hkids⟩ := hstate.resolve_left hsteps.alive
    exact (hsteps.of_shell hat).children hshell hat horphan hkids
  · obtain ⟨new, hnew, hfate⟩ := hsteps.fate hproc hshell
    obtain ⟨hparent, hstatus, hframes⟩ := hfate.of_shell horphan hpid
    refine ⟨new, hnew, hparent, ?_⟩
    rw [hworld.children_kept hsteps hproc hgathers hpid (Ne.symm hpid)]
    refine hstate.imp hfate.ended fun ⟨waiting, hat, hkids⟩ => ⟨waiting, ?_, hkids⟩
    simpa only [Proc.At, hstatus, hframes] using hat

/-- The process that the shell forks for a line without background commands. -/
theorem ShellMoves.settles_born {reaper : Option ℕ} {waiting : Bool}
    (hmoves : ShellMoves reaper all world shell waiting act after)
    (hall : ∀ line ∈ all, ¬ line.Background) {index : ℕ} {new : Proc}
    (hnew : after.procs[index]? = some new)
    (hnone : world.procs[index]? = none) : new.Settles 0 := by
  have hle : world.procs.length ≤ index := List.getElem?_eq_none_iff.mp hnone
  have hbound : index < after.procs.length := (List.getElem?_eq_some_iff.mp hnew).1
  cases hmoves with
  | fork hprocs hparent hat hcode hkid hstatus hline hcd hframes hframe =>
      rw [hprocs] at hnew hbound
      obtain rfl : index = world.procs.length := by
        simp only [List.length_append, List.length_set, List.length_singleton] at hbound
        omega
      rw [List.getElem?_append_right (by simp)] at hnew
      simp only [List.length_set, Nat.sub_self, List.getElem?_cons_zero,
        Option.some.injEq] at hnew
      rw [← hnew]
      refine Proc.settles_of_code (Proc.code?_running hstatus hframes) ?_
      rw [hframe]
      exact runLine_settles (hall _ hline) hcd _
  | silent hprocs | forkFails hprocs | reap hprocs | childless hprocs | exit hprocs =>
      rw [hprocs] at hbound
      simp only [World.die, List.length_set, List.length_map] at hbound
      omega

theorem World.Settled.step_settles (hworld : world.Settled init all)
    (hall : ∀ line ∈ all, ¬ line.Background) (hinit : init = true)
    (hsteps : Steps (reaper init) world pid proc act after)
    (hproc : world.procs[pid]? = some proc) {index : ℕ} {new : Proc}
    (hindex : index ≠ 0) (hnew : after.procs[index]? = some new) :
    new.Settles (after.children index) := by
  have hpid : pid < world.procs.length := (List.getElem?_eq_some_iff.mp hproc).1
  cases hold : world.procs[index]? with
  | none =>
      -- the child of a fork has no children yet
      have hlength := (hsteps.born hnew hold).1
      have hzero : after.children index = 0 := by
        rw [hsteps.children_other hproc (by omega) (.inl ?_)]
        · refine World.children_eq_zero.mpr fun kid hkid hisKid => ?_
          have := hworld.parents kid hkid index hisKid.1
          omega
        · rw [hinit]
          simpa [reaper] using hindex.symm
      rw [hzero]
      by_cases hzeroPid : pid = 0
      · subst hzeroPid
        obtain ⟨shell, hshell, -, hstate⟩ := hworld.shell
        obtain rfl := Option.some.inj (hshell.symm.trans hproc)
        obtain ⟨waiting, hat, -⟩ := hstate.resolve_left hsteps.alive
        exact (hsteps.of_shell hat).settles_born hall hnew hold
      · exact hsteps.settles_born (hworld.settles hinit pid proc hzeroPid hproc) hnew hold
  | some old =>
      by_cases hmover : index = pid
      · subst hmover
        exact hsteps.settles_actor hproc (hworld.settles hinit index proc hindex hproc) hnew
      · obtain ⟨new', hnew', hfate⟩ := hsteps.fate hproc hold
        obtain rfl := Option.some.inj (hnew'.symm.trans hnew)
        rw [hsteps.children_other hproc hmover (.inl (by
          rw [hinit]
          simpa [reaper] using hindex.symm))]
        obtain ⟨hframes, hstatus | ⟨-, hreaped⟩⟩ := hfate.other hmover
        · have hsettles := hworld.settles hinit index old hindex hold
          simpa only [Proc.Settles, Proc.code?, hframes, hstatus] using hsettles
        · exact Proc.settles_of_ended (.inr hreaped) _

end Settled

section Sessions

variable {init : Bool} {all : List Line} {input output error : Desc}
  {allowed : Session → Label → Prop} {current : Session}
  (hquiet : init = false ∨ (∀ line ∈ all, ¬ line.Background) ∧
    ∀ before label, allowed before label → before.Gathers label)
  (hreach : ((session init all input output error).guard allowed).Reachable current)

include hquiet hreach

theorem settled_of_reachable : current.world.Settled init all := by
  apply System.invariant_of_step
    (I := fun current => current.world.Settled init all) ?_ ?_ hreach
  · rintro _ rfl
    exact settled_start all input output error
  · rintro before ⟨pid, act⟩ after - hworld ⟨hallowed, hstep⟩
    obtain ⟨world, proc, hproc, hsteps, rfl⟩ := Session.steps_of_step hstep
    have hinit : init = true → (∀ line ∈ all, ¬ line.Background) ∧
        ∀ before label, allowed before label → before.Gathers label :=
      fun hinit => hquiet.resolve_left (by simp [hinit])
    refine ⟨hworld.step_parents hsteps hproc, hworld.step_shell hsteps hproc ?_, ?_⟩
    · exact fun htrue hfinish =>
        World.children_eq_zero.mpr ((hinit htrue).2 before _ hallowed hfinish)
    · exact fun htrue index new hindex hnew =>
        hworld.step_settles (hinit htrue).1 htrue hsteps hproc hindex hnew

omit hquiet hreach in
/-- In a settled world a step is undisturbed, if the program that ends with it has
gathered its children. -/
theorem World.Settled.undisturbed {after : Session} {label : Label}
    (hworld : current.world.Settled init all)
    (hgathers : init = true → current.Gathers label)
    (hstep : current.step init label = some after) :
    current.Undisturbed init label := by
  obtain ⟨world, proc, hproc, hsteps, -⟩ := Session.steps_of_step hstep
  refine ⟨?_, fun hinit hpid _ hexits => World.children_eq_zero.mp
    (hworld.no_children hinit hpid
      (fun hfinish => World.children_eq_zero.mpr (hgathers hinit hfinish)) hproc hexits)⟩
  rintro hpid - ⟨shell, edge, child, parent, hshell, hcode⟩
  obtain ⟨found, hfound, -, hstate⟩ := hworld.shell
  obtain rfl := Option.some.inj (hfound.symm.trans hshell)
  have halive : ¬ found.Ended := by
    rintro (hstatus | hstatus)
    · simp [Proc.code?, hstatus] at hcode
    · simp [Proc.code?, hstatus] at hcode
  obtain ⟨waiting, ⟨hstatus, frame, hframes, hpoint⟩, hkids⟩ :=
    hstate.resolve_left halive
  rw [Proc.code?_running hstatus hframes, Option.some.injEq] at hcode
  have hpointCode := hpoint.code
  rw [hcode] at hpointCode
  cases hpointCode with
  | fork => exact World.children_eq_zero.mp (Nat.le_zero.mp hkids)

/-- Runs whose steps are all undisturbed. -/
theorem undisturbed_of_reachable :
    ((session init all input output error).guard
      (Session.Undisturbed init)).Reachable current := by
  apply System.invariant_of_step (I := ((session init all input output error).guard
    (Session.Undisturbed init)).Reachable) ?_ ?_ hreach
  · exact fun start hstart => System.reachable_of_init hstart
  · intro before label after hbefore ih hstep
    refine ih.step ⟨(settled_of_reachable hquiet hbefore).undisturbed (fun hinit => ?_)
      hstep.2, hstep.2⟩
    exact (hquiet.resolve_left (by simp [hinit])).2 before label hstep.1

end Sessions

/-- The prompt waits for the foreground command in every run whose steps leave
the shell alone.  These are all runs when the shell is not the init process; and
when no line runs a command in the background, all runs in which no program leaves
a child behind. -/
theorem start_waits_for_line (init : Bool) (all : List Line)
    (input output error : Desc) :
    (∀ current, ((session init all input output error).guard
        (Session.Undisturbed init)).Reachable current → current.Waits init) ∧
      (init = false → ∀ current,
        (session init all input output error).Reachable current → current.Waits init) ∧
      ((∀ line ∈ all, ¬ line.Background) → ∀ current,
        ((session init all input output error).guard Session.Gathers).Reachable current →
          current.Waits init) := by
  refine ⟨fun current hreach => (follows_of_reachable hreach).waits,
    fun hinit current hreach => ?_, fun hquiet current hreach => ?_⟩
  · have hguard : ((session init all input output error).guard fun _ _ => True).Reachable
        current := hreach.guard fun _ _ _ _ _ => trivial
    exact (follows_of_reachable (undisturbed_of_reachable (.inl hinit) hguard)).waits
  · have hgathers : ∀ before label, Session.Gathers before label →
        Session.Gathers before label := fun _ _ => id
    exact (follows_of_reachable
      (undisturbed_of_reachable (.inr ⟨hquiet, hgathers⟩) hreach)).waits

/-! ## A session of the init process -/

/-- `a &` and then `b`. -/
def initLines : List Line :=
  [⟨bytes "a &\n", by decide⟩, ⟨bytes "b\n", by decide⟩]

/-- Process 2 runs `a`.  Its parent, process 1, ends first; it ends itself
after the shell has forked process 3 for `b`. -/
def initLabels : List Label :=
  [⟨0, .go⟩, ⟨0, .go⟩, ⟨1, .go⟩, ⟨1, .go⟩, ⟨1, .go⟩, ⟨0, .reap 1⟩, ⟨0, .go⟩,
    ⟨0, .go⟩, ⟨2, .go⟩, ⟨2, .go⟩, ⟨2, .finish⟩]

/-- The wait for `b` is answered by `a`. -/
theorem init_wait_answered :
    ¬ ∀ current, (session true initLines (.outer 0) (.outer 1) (.outer 2)).Reachable
      current → current.Waits true := by
  have hrun : (initLabels.foldlM (Session.step true)
      (Session.start initLines (.outer 0) (.outer 1) (.outer 2))).any (fun current =>
        decide ((current.step true ⟨0, .reap 2⟩).isSome ∧ current.line = some 3 ∧
          ∀ proc, current.world.procs[3]? = some proc → ¬ proc.Ended)) = true := by
    decide +kernel
  obtain ⟨current, hcurrent, hstate⟩ := (Option.any_eq_true _ _).mp hrun
  obtain ⟨hstep, hline, halive⟩ := of_decide_eq_true hstate
  obtain ⟨after, hafter⟩ := Option.isSome_iff_exists.mp hstep
  intro hwaits
  have hreach : (session true initLines (.outer 0) (.outer 1) (.outer 2)).Reachable
      current := ⟨_, _, rfl, System.run_of_foldlM _ hcurrent⟩
  obtain ⟨proc, hproc, hended⟩ := (hwaits current hreach).1 ⟨0, .reap 2⟩ after hafter
    ⟨rfl, .inr ⟨2, rfl⟩⟩ 3 hline
  exact halive proc hproc hended

end JyyOS.Shell
