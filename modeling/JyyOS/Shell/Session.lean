import JyyOS.Shell.Getcmd
import JyyOS.Shell.Process

/-!
# The loop of `_start` among the processes that it starts

The shell is process 0 of the world, and its code is the loop of `_start` over
the lines that `getcmd` returns.  `wait4(-1, ...)` returns any child.  When the
shell is the init process, orphans become its children, so a background command
of an earlier line can answer the wait for a later one.  The programs that are
executed may fork and wait as well.
-/

namespace JyyOS.Shell

open JyyOS.Transition

/-! ## Code -/

/-- `runcmd(parsecmd(buf))` in the child, and what would follow it there. -/
def runLine (line : Line) (rest : Code) : Code :=
  match parsecmd (4 * line.es + 4) line with
  | .ok (cmd, _) => .call .listL cmd rest
  | .error _ => .print (.exit 1 rest)

/-- The body of the loop behind `getcmd`.  `chdir` and its message concern
neither processes nor descriptors. -/
def dispatch (line : Line) (next : Code) : Code :=
  if isCd line.text then .print next
  else
    let rest := .wait next
    .fork .listL (runLine line rest) rest

/-- `_start` with these lines still to come; `getcmd` prints the prompt. -/
def loop : List Line → Code
  | [] => .print .last
  | line :: lines => .print (dispatch line (loop lines))

/-! ## Programs -/

namespace World

/-- A program forks, and the child goes on in it. -/
def spawn (world : World) (pid : ℕ) (proc : Proc) : World :=
  { world with procs := world.procs ++ [{ proc with parent := some pid }] }

/-- What a program does to processes, besides its end: it forks, or it waits for
a child. -/
def programStep (world : World) (label : Label) : Option World :=
  match world.procs[label.pid]? with
  | none => none
  | some proc =>
      match proc.status, label.act with
      | .program, .go => some (world.spawn label.pid proc)
      | .program, .reap child =>
          match world.procs[child]? with
          | none => none
          | some kid =>
              if kid.parent = some label.pid ∧ kid.status = .zombie then
                some (world.put child { kid with status := .reaped })
              else none
      | _, _ => none

end World

/-! ## Sessions -/

structure Session where
  world : World
  /-- The process that the last `fork` of the shell made.  The shell does not
  keep it. -/
  line : Option ℕ

/-- Where orphans go. -/
def reaper (init : Bool) : Option ℕ := if init then some 0 else none

namespace Session

/-- The process forked for a line, after a step of the shell from `world`. -/
def lineAfter (session : Session) (label : Label) (after : World) : Option ℕ :=
  if label.pid = 0 then
    if label.act = .forkFails then none
    else if session.world.procs.length < after.procs.length then
      some session.world.procs.length
    else session.line
  else session.line

def step (init : Bool) (session : Session) (label : Label) : Option Session :=
  ((session.world.step (reaper init) label).or (session.world.programStep label)).map
    fun after => ⟨after, session.lineAfter label after⟩

def start (lines : List Line) (input output error : Desc) : Session where
  world :=
    { procs := [{
        parent := none
        status := .running
        frames := [⟨[], loop lines, (0, 0)⟩]
        fds := [some input, some output, some error]
        born := [] }]
      pipes := []
      execs := [] }
  line := none

end Session

/-- The shell run on some lines; `init` when it is process 1. -/
def session (init : Bool) (lines : List Line) (input output error : Desc) :
    System Session Label :=
  .ofPartial (· = Session.start lines input output error) (Session.step init)

/-- A `wait4` of the shell returns. -/
def WaitReturns (label : Label) : Prop :=
  label.pid = 0 ∧ (label.act = .childless ∨ ∃ child, label.act = .reap child)

/-- The process forked for the line has terminated. -/
def Session.LineEnded (session : Session) : Prop :=
  ∀ pid, session.line = some pid →
    ∃ proc, session.world.procs[pid]? = some proc ∧ proc.Ended

/-- The innermost code of a process that runs. -/
def Proc.code? (proc : Proc) : Option Code :=
  match proc.status, proc.frames with
  | .running, frame :: _ => some frame.code
  | _, _ => none

/-- The shell waits only for the command: neither does a `wait4` return nor is
there a prompt before it has terminated. -/
def Session.Waits (init : Bool) (session : Session) : Prop :=
  (∀ label after, session.step init label = some after → WaitReturns label →
    session.LineEnded) ∧
  ∀ shell lines, session.world.procs[0]? = some shell →
    shell.code? = some (loop lines) → session.LineEnded

/-- The label ends the process. -/
def World.Exits (world : World) (label : Label) : Prop :=
  ∃ proc, world.procs[label.pid]? = some proc ∧
    (label.act = .finish ∨
      ∃ status next, proc.code? = some (.exit status next))

/-- The shell forks without unreaped children, and none but the process of the
line leaves it any. -/
def Session.Undisturbed (init : Bool) (session : Session) (label : Label) :
    Prop :=
  (label.pid = 0 → label.act = .go →
    (∃ shell edge child parent, session.world.procs[0]? = some shell ∧
      shell.code? = some (.fork edge child parent)) →
    ∀ kid ∈ session.world.procs, ¬ kid.IsKid 0) ∧
  (init = true → label.pid ≠ 0 → session.line ≠ some label.pid →
    session.world.Exits label →
    ∀ kid ∈ session.world.procs, ¬ kid.IsKid label.pid)

/-! ## What a step does to a process -/

theorem Proc.code?_running {proc : Proc} {frame : Frame} {callers : List Frame}
    (hstatus : proc.status = .running) (hframes : proc.frames = frame :: callers) :
    proc.code? = some frame.code := by
  simp [code?, hstatus, hframes]

section Fate

variable {reaper : Option ℕ} {world after : World} {pid : ℕ} {proc : Proc}
  {act : Act}

/-- What becomes of the process `index` in a step. -/
structure Fate (reaper : Option ℕ) (world : World) (label : Label)
    (after : World) (index : ℕ) (old new : Proc) : Prop where
  parent : new.parent = old.parent ∨
    world.Exits label ∧ old.parent = some label.pid ∧ new.parent = reaper ∧
      ∃ dead, after.procs[label.pid]? = some dead ∧ dead.Ended
  ended : old.Ended → new.Ended
  reaped : old.status = .reaped → new.status = .reaped
  other : index ≠ label.pid → new.frames = old.frames ∧
    (new.status = old.status ∨
      old.parent = some label.pid ∧ new.status = .reaped)

theorem Fate.same (label : Label) (index : ℕ) (old : Proc) :
    Fate reaper world label after index old old :=
  ⟨.inl rfl, id, id, fun _ => ⟨rfl, .inl rfl⟩⟩

/-- The process that moves goes on. -/
theorem Fate.actor {old new : Proc} (hstatus : old.status = .running)
    (hparent : new.parent = old.parent) :
    Fate reaper world ⟨pid, act⟩ after pid old new := by
  refine ⟨.inl hparent, ?_, ?_, fun hne => absurd rfl hne⟩
  · simp [Proc.Ended, hstatus]
  · simp [hstatus]

theorem fate_set {index : ℕ} {old : Proc} (new : Proc)
    (hproc : world.procs[pid]? = some proc) (hstatus : proc.status = .running)
    (hparent : new.parent = proc.parent)
    (hold : world.procs[index]? = some old) :
    ∃ next, (world.procs.set pid new)[index]? = some next ∧
      Fate reaper world ⟨pid, act⟩ after index old next := by
  by_cases hindex : pid = index
  · subst hindex
    obtain rfl := Option.some.inj (hproc.symm.trans hold)
    have hlt : pid < world.procs.length := (List.getElem?_eq_some_iff.mp hproc).1
    exact ⟨new, List.getElem?_set_self hlt, .actor hstatus hparent⟩
  · exact ⟨old, by rw [List.getElem?_set_ne hindex, hold], .same _ _ _⟩

theorem Proc.orphan_status (kid : Proc) :
    (kid.orphan reaper pid).status = kid.status := by
  unfold orphan
  split_ifs
  · rfl
  · rfl

theorem Proc.orphan_frames (kid : Proc) :
    (kid.orphan reaper pid).frames = kid.frames := by
  unfold orphan
  split_ifs
  · rfl
  · rfl

theorem Proc.orphan_parent (kid : Proc) :
    (kid.orphan reaper pid).parent = kid.parent ∨
      kid.parent = some pid ∧ (kid.orphan reaper pid).parent = reaper := by
  unfold orphan
  split_ifs with hparent
  · exact .inr ⟨hparent, rfl⟩
  · exact .inl rfl

theorem fate_die (hproc : world.procs[pid]? = some proc)
    (halive : ¬ proc.Ended) (hexits : world.Exits ⟨pid, act⟩) {index : ℕ}
    {old : Proc} (hold : world.procs[index]? = some old) :
    ∃ new, (world.die reaper pid proc).procs[index]? = some new ∧
      Fate reaper world ⟨pid, act⟩ (world.die reaper pid proc) index old new := by
  have hlt : pid < world.procs.length := (List.getElem?_eq_some_iff.mp hproc).1
  have hdead : ∃ dead, (world.die reaper pid proc).procs[pid]? = some dead ∧
      dead.Ended := by
    refine ⟨Proc.orphan reaper pid { proc with status := .zombie }, ?_, ?_⟩
    · rw [World.die, List.getElem?_map, List.getElem?_set_self hlt]
      rfl
    · exact .inl (Proc.orphan_status _)
  have hget : (world.die reaper pid proc).procs[index]? =
      ((world.procs.set pid { proc with status := .zombie })[index]?).map
        (Proc.orphan reaper pid) := by
    rw [World.die, List.getElem?_map]
  by_cases hindex : pid = index
  · subst hindex
    obtain rfl := Option.some.inj (hproc.symm.trans hold)
    rw [List.getElem?_set_self hlt] at hget
    refine ⟨_, hget, ?_, ?_, ?_, fun hne => absurd rfl hne⟩
    · obtain hparent | ⟨hold, hnew⟩ :=
        Proc.orphan_parent { proc with status := .zombie }
      · exact .inl hparent
      · exact .inr ⟨hexits, hold, hnew, hdead⟩
    · exact fun hended => absurd hended halive
    · exact fun hreaped => absurd (.inr hreaped) halive
  · rw [List.getElem?_set_ne hindex, hold] at hget
    refine ⟨_, hget, ?_, ?_, ?_, fun _ => ⟨old.orphan_frames, .inl old.orphan_status⟩⟩
    · obtain hparent | ⟨hold, hnew⟩ := old.orphan_parent
      · exact .inl hparent
      · exact .inr ⟨hexits, hold, hnew, hdead⟩
    · simp [Proc.Ended, Proc.orphan_status]
    · simp [Proc.orphan_status]

theorem Moves.fate (hmoves : Moves reaper world pid proc act after)
    (hproc : world.procs[pid]? = some proc) {index : ℕ} {old : Proc}
    (hold : world.procs[index]? = some old) :
    ∃ new, after.procs[index]? = some new ∧
      Fate reaper world ⟨pid, act⟩ after index old new := by
  cases hmoves with
  | quiet hstatus hframes hquiet => exact fate_set _ hproc hstatus rfl hold
  | @fork frame callers edge child parent hstatus hframes hcode =>
      obtain ⟨new, hnew, hfate⟩ :=
        fate_set (proc.at frame callers parent) hproc hstatus rfl hold
      refine ⟨new, ?_, hfate⟩
      rw [List.getElem?_append_left (List.getElem?_eq_some_iff.mp hnew).1]
      exact hnew
  | @reap frame callers next child kid hstatus hframes hcode hkid hparent hzombie =>
      by_cases hindex : child = index
      · subst hindex
        obtain rfl := Option.some.inj (hkid.symm.trans hold)
        have hlt : child < world.procs.length :=
          (List.getElem?_eq_some_iff.mp hkid).1
        exact ⟨_, List.getElem?_set_self (by simpa [World.put] using hlt),
          .inl rfl, fun _ => .inr rfl, fun _ => rfl,
          fun _ => ⟨rfl, .inr ⟨hparent, rfl⟩⟩⟩
      · obtain ⟨new, hnew, hfate⟩ :=
          fate_set (proc.at frame callers next) hproc hstatus rfl hold
        refine ⟨new, ?_, hfate⟩
        rw [World.put, List.getElem?_set_ne hindex]
        exact hnew
  | childless hstatus hframes hcode hnone => exact fate_set _ hproc hstatus rfl hold
  | call hstatus hframes hcode => exact fate_set _ hproc hstatus rfl hold
  | ret hstatus hframes hcode => exact fate_set _ hproc hstatus rfl hold
  | exit hstatus hframes hcode =>
      have hexit := Proc.code?_running hstatus hframes
      rw [hcode] at hexit
      exact fate_die hproc (by simp [Proc.Ended, hstatus])
        ⟨proc, hproc, .inr ⟨_, _, hexit⟩⟩ hold
  | finish hstatus =>
      exact fate_die hproc (by simp [Proc.Ended, hstatus])
        ⟨proc, hproc, .inl rfl⟩ hold

/-- The only new process is a child of the one that moves. -/
theorem Moves.born (hmoves : Moves reaper world pid proc act after)
    {index : ℕ} {new : Proc} (hnew : after.procs[index]? = some new)
    (hnone : world.procs[index]? = none) :
    index = world.procs.length ∧ new.parent = some pid := by
  have hle : world.procs.length ≤ index := List.getElem?_eq_none_iff.mp hnone
  have hlt : index < after.procs.length := (List.getElem?_eq_some_iff.mp hnew).1
  cases hmoves with
  | fork hstatus hframes hcode =>
      have hindex : index = world.procs.length := by
        simp only [List.length_append, List.length_set, List.length_singleton] at hlt
        omega
      subst hindex
      rw [List.getElem?_append_right (by simp)] at hnew
      simp only [List.length_set, Nat.sub_self, List.getElem?_cons_zero,
        Option.some.injEq] at hnew
      exact ⟨rfl, hnew ▸ rfl⟩
  | _ =>
      simp only [World.put, World.die, List.length_set, List.length_map] at hlt
      omega

end Fate

/-! ## Steps of a session -/

/-- The world after a step of `proc`, in `runcmd` or in a program. -/
inductive Steps (reaper : Option ℕ) (world : World) (pid : ℕ) (proc : Proc) :
    Act → World → Prop
  | moves {act : Act} {after : World}
      (hmoves : Moves reaper world pid proc act after) :
      Steps reaper world pid proc act after
  | spawn (hstatus : proc.status = .program) :
      Steps reaper world pid proc .go (world.spawn pid proc)
  | wait {child : ℕ} {kid : Proc} (hstatus : proc.status = .program)
      (hkid : world.procs[child]? = some kid) (hparent : kid.parent = some pid)
      (hzombie : kid.status = .zombie) :
      Steps reaper world pid proc (.reap child)
        (world.put child { kid with status := .reaped })

theorem Session.steps_of_step {init : Bool} {session after : Session} {pid : ℕ}
    {act : Act} (hstep : session.step init ⟨pid, act⟩ = some after) :
    ∃ world proc, session.world.procs[pid]? = some proc ∧
      Steps (reaper init) session.world pid proc act world ∧
        after = ⟨world, session.lineAfter ⟨pid, act⟩ world⟩ := by
  obtain ⟨world, hworld, rfl⟩ := Option.map_eq_some_iff.mp hstep
  obtain hmove | ⟨-, hprogram⟩ := Option.or_eq_some_iff.mp hworld
  · obtain ⟨proc, hproc, hmoves⟩ := moves_of_step hmove
    exact ⟨world, proc, hproc, .moves hmoves, rfl⟩
  · unfold World.programStep at hprogram
    split at hprogram
    · cases hprogram
    next proc hproc =>
      refine ⟨world, proc, hproc, ?_, rfl⟩
      split at hprogram
      next hstatus hact =>
        cases hprogram
        obtain rfl : act = .go := hact
        exact .spawn hstatus
      next child hstatus hact =>
        obtain rfl : act = .reap child := hact
        split at hprogram
        · cases hprogram
        next kid hkid =>
          split_ifs at hprogram with hzombie
          cases hprogram
          exact .wait hstatus hkid hzombie.1 hzombie.2
      next => cases hprogram

section Steps

variable {reaper : Option ℕ} {world after : World} {pid : ℕ} {proc : Proc}
  {act : Act}

theorem World.put_self (hproc : world.procs[pid]? = some proc) :
    world.put pid proc = world := by
  obtain ⟨hlt, rfl⟩ := List.getElem?_eq_some_iff.mp hproc
  rw [put, List.set_getElem_self]

theorem Moves.alive (hmoves : Moves reaper world pid proc act after) :
    ¬ proc.Ended := by
  cases hmoves with
  | finish hstatus => simp [Proc.Ended, hstatus]
  | _ hstatus => simp [Proc.Ended, hstatus]

theorem Steps.alive (hsteps : Steps reaper world pid proc act after) :
    ¬ proc.Ended := by
  cases hsteps with
  | moves hmoves => exact hmoves.alive
  | spawn hstatus => simp [Proc.Ended, hstatus]
  | wait hstatus => simp [Proc.Ended, hstatus]

theorem Steps.fate (hsteps : Steps reaper world pid proc act after)
    (hproc : world.procs[pid]? = some proc) {index : ℕ} {old : Proc}
    (hold : world.procs[index]? = some old) :
    ∃ new, after.procs[index]? = some new ∧
      Fate reaper world ⟨pid, act⟩ after index old new := by
  have hlt : index < world.procs.length := (List.getElem?_eq_some_iff.mp hold).1
  cases hsteps with
  | moves hmoves => exact hmoves.fate hproc hold
  | spawn hstatus =>
      exact ⟨old, (List.getElem?_append_left hlt).trans hold, .same _ _ _⟩
  | @wait child kid hstatus hkid hparent hzombie =>
      by_cases hindex : child = index
      · subst hindex
        obtain rfl := Option.some.inj (hkid.symm.trans hold)
        exact ⟨_, List.getElem?_set_self hlt, .inl rfl, fun _ => .inr rfl, fun _ => rfl,
          fun _ => ⟨rfl, .inr ⟨hparent, rfl⟩⟩⟩
      · exact ⟨old, (List.getElem?_set_ne hindex).trans hold, .same _ _ _⟩

theorem Steps.born (hsteps : Steps reaper world pid proc act after)
    {index : ℕ} {new : Proc} (hnew : after.procs[index]? = some new)
    (hnone : world.procs[index]? = none) :
    index = world.procs.length ∧ new.parent = some pid := by
  have hle : world.procs.length ≤ index := List.getElem?_eq_none_iff.mp hnone
  have hlt : index < after.procs.length := (List.getElem?_eq_some_iff.mp hnew).1
  cases hsteps with
  | moves hmoves => exact hmoves.born hnew hnone
  | spawn hstatus =>
      rw [World.spawn, List.length_append, List.length_singleton] at hlt
      obtain rfl : index = world.procs.length := by omega
      rw [World.spawn, List.getElem?_concat_length, Option.some.injEq] at hnew
      exact ⟨rfl, hnew ▸ rfl⟩
  | wait =>
      rw [World.put, List.length_set] at hlt
      omega

end Steps

/-! ## The shell -/

/-- The points of the loop; `true` is the `wait4`. -/
inductive Point (all : List Line) : Bool → Code → Prop
  | prompt {lines : List Line} (hlines : lines ⊆ all) : Point all false (loop lines)
  | read {line : Line} {lines : List Line} (hline : line ∈ all)
      (hlines : lines ⊆ all) : Point all false (dispatch line (loop lines))
  | quit : Point all false .last
  | wait {lines : List Line} (hlines : lines ⊆ all) :
      Point all true (.wait (loop lines))

/-- The shell stands at a point of its loop. -/
def Proc.At (all : List Line) (waiting : Bool) (shell : Proc) : Prop :=
  shell.status = .running ∧
    ∃ frame, shell.frames = [frame] ∧ Point all waiting frame.code

/-- A step of the shell from a point of its loop. -/
inductive ShellMoves (reaper : Option ℕ) (all : List Line) (world : World)
    (shell : Proc) : Bool → Act → World → Prop
  | silent {after : World} {new : Proc}
      (hprocs : after.procs = world.procs.set 0 new)
      (hparent : new.parent = shell.parent) (hnew : new.At all false) :
      ShellMoves reaper all world shell false .go after
  | fork {after : World} {new child : Proc} {frame : Frame} {line : Line}
      {rest : Code} (hprocs : after.procs = world.procs.set 0 new ++ [child])
      (hparent : new.parent = shell.parent) (hnew : new.At all true)
      (hcode : ∃ edge code rest, shell.code? = some (.fork edge code rest))
      (hkid : child.parent = some 0) (hstatus : child.status = .running)
      (hline : line ∈ all) (hcd : ¬ isCd line.text) (hframes : child.frames = [frame])
      (hframe : frame.code = runLine line rest) :
      ShellMoves reaper all world shell false .go after
  | forkFails {after : World} {new : Proc}
      (hprocs : after.procs = world.procs.set 0 new)
      (hparent : new.parent = shell.parent) (hnew : new.At all true) :
      ShellMoves reaper all world shell false .forkFails after
  | reap {after : World} {new kid : Proc} {child : ℕ}
      (hprocs : after.procs = (world.procs.set 0 new).set child
        { kid with status := .reaped })
      (hparent : new.parent = shell.parent) (hnew : new.At all false)
      (hkid : world.procs[child]? = some kid) (hzombie : kid.status = .zombie)
      (hisKid : kid.parent = some 0) :
      ShellMoves reaper all world shell true (.reap child) after
  | childless {after : World} {new : Proc}
      (hprocs : after.procs = world.procs.set 0 new)
      (hparent : new.parent = shell.parent) (hnew : new.At all false)
      (hnone : ∀ kid ∈ world.procs, ¬ kid.IsKid 0) :
      ShellMoves reaper all world shell true .childless after
  | exit {after : World}
      (hprocs : after.procs = (world.die reaper 0 shell).procs) :
      ShellMoves reaper all world shell false .go after

section Shell

variable {reaper : Option ℕ} {all : List Line} {world after : World}
  {shell : Proc} {waiting : Bool} {act : Act}

/-- What stands at a point is `print`, `exit`, `fork` or `wait`. -/
inductive PointCode (all : List Line) : Bool → Code → Prop
  | print {next : Code} (hnext : Point all false next) :
      PointCode all false (.print next)
  | exit : PointCode all false .last
  | fork {line : Line} {lines : List Line} (hline : line ∈ all)
      (hcd : ¬ isCd line.text) (hlines : lines ⊆ all) :
      PointCode all false (.fork .listL (runLine line (.wait (loop lines)))
        (.wait (loop lines)))
  | wait {lines : List Line} (hlines : lines ⊆ all) :
      PointCode all true (.wait (loop lines))

theorem Point.code {code : Code} (hpoint : Point all waiting code) :
    PointCode all waiting code := by
  cases hpoint with
  | @prompt lines hlines =>
      cases lines with
      | nil => exact .print .quit
      | cons line lines =>
          exact .print (.read (hlines List.mem_cons_self)
            fun other hother => hlines (List.mem_cons_of_mem _ hother))
  | @read line lines hline hlines =>
      unfold dispatch
      split_ifs with hcd
      · exact .print (.prompt hlines)
      · exact .fork hline hcd hlines
  | quit => exact .exit
  | wait hlines => exact .wait hlines

theorem Moves.of_shell (hmoves : Moves reaper world 0 shell act after)
    (hat : shell.At all waiting) :
    ShellMoves reaper all world shell waiting act after := by
  obtain ⟨hrunning, top, htop, hpoint⟩ := hat
  have hcases := hpoint.code
  have hframe : ∀ {frame : Frame} {callers : List Frame},
      shell.frames = frame :: callers → top = frame ∧ [] = callers :=
    fun hframes => List.cons.inj (htop.symm.trans hframes)
  cases hmoves with
  | @quiet frame callers _ outcome hstatus hframes hquiet =>
      obtain ⟨rfl, rfl⟩ := hframe hframes
      cases hquiet with
      | print hcode =>
          rw [hcode] at hcases
          obtain ⟨hnext⟩ := hcases
          exact .silent rfl rfl ⟨rfl, _, rfl, hnext⟩
      | forkFailed hcode =>
          rw [hcode] at hcases
          cases hcases with
          | fork hline hcd hlines => exact .forkFails rfl rfl ⟨rfl, _, rfl, .wait hlines⟩
      | _ hcode =>
          rw [hcode] at hcases
          cases hcases
  | @fork frame callers edge child parent hstatus hframes hcode =>
      obtain ⟨rfl, rfl⟩ := hframe hframes
      have hfork := Proc.code?_running hstatus hframes
      rw [hcode] at hcases hfork
      cases hcases with
      | fork hline hcd hlines =>
          exact .fork rfl rfl ⟨hstatus, _, rfl, .wait hlines⟩ ⟨_, _, _, hfork⟩ rfl
            hstatus hline hcd rfl rfl
  | @reap frame callers next child kid hstatus hframes hcode hkid hparent hzombie =>
      obtain ⟨rfl, rfl⟩ := hframe hframes
      rw [hcode] at hcases
      cases hcases with
      | wait hlines =>
          exact .reap rfl rfl ⟨hstatus, _, rfl, .prompt hlines⟩ hkid hzombie hparent
  | childless hstatus hframes hcode hnone =>
      obtain ⟨rfl, rfl⟩ := hframe hframes
      rw [hcode] at hcases
      cases hcases with
      | wait hlines =>
          exact .childless rfl rfl ⟨hstatus, _, rfl, .prompt hlines⟩ hnone
  | call hstatus hframes hcode =>
      obtain ⟨rfl, rfl⟩ := hframe hframes
      rw [hcode] at hcases
      cases hcases
  | ret hstatus hframes hcode =>
      obtain ⟨rfl, rfl⟩ := hframe hframes
      rw [hcode] at hcases
      cases hcases
  | exit hstatus hframes hcode =>
      obtain ⟨rfl, rfl⟩ := hframe hframes
      rw [hcode] at hcases
      cases hcases with
      | exit => exact .exit rfl
  | finish hstatus =>
      rw [hrunning] at hstatus
      cases hstatus

/-- The shell is in no program. -/
theorem Steps.of_shell (hsteps : Steps reaper world 0 shell act after)
    (hat : shell.At all waiting) :
    ShellMoves reaper all world shell waiting act after := by
  cases hsteps with
  | moves hmoves => exact hmoves.of_shell hat
  | spawn hstatus => exact nomatch hstatus.symm.trans hat.1
  | wait hstatus => exact nomatch hstatus.symm.trans hat.1

end Shell

/-! ## The process of the line -/

/-- As long as the process of the line lives, it is the only child. -/
def Session.OnlyKid (session : Session) : Prop :=
  ∀ pid proc, session.line = some pid →
    session.world.procs[pid]? = some proc → ¬ proc.Ended →
      ∀ index kid, session.world.procs[index]? = some kid → kid.IsKid 0 →
        index = pid

/-- The shell has ended, or it stands at a point and the process of its line is
its child: over before the next prompt, and alone while it runs. -/
def Session.Follows (all : List Line) (session : Session) : Prop :=
  ∃ shell, session.world.procs[0]? = some shell ∧ shell.parent = none ∧
    (shell.Ended ∨
      (∃ waiting, shell.At all waiting ∧ (waiting = false → session.LineEnded) ∧
        (waiting = true → session.OnlyKid)) ∧
      ∀ pid, session.line = some pid →
        ∃ proc, session.world.procs[pid]? = some proc ∧ proc.parent = some 0)

section Follows

variable {init : Bool} {all : List Line} {session : Session} {after : World}
  {pid : ℕ} {proc shell : Proc} {act : Act}

theorem Session.LineEnded.keep (hended : session.LineEnded)
    (hsteps : Steps (reaper init) session.world pid proc act after)
    (hproc : session.world.procs[pid]? = some proc) :
    LineEnded ⟨after, session.line⟩ := by
  intro line hline
  obtain ⟨old, hold, hended⟩ := hended line hline
  obtain ⟨new, hnew, hfate⟩ := hsteps.fate hproc hold
  exact ⟨new, hnew, hfate.ended hended⟩

theorem Fate.of_shell {reaper : Option ℕ} {world : World}
    (hfate : Fate reaper world ⟨pid, act⟩ after 0 shell proc)
    (horphan : shell.parent = none) (hpid : pid ≠ 0) :
    proc.parent = none ∧ proc.status = shell.status ∧
      proc.frames = shell.frames := by
  have hne : shell.parent ≠ some pid := by
    rw [horphan]
    exact nofun
  obtain ⟨hframes, hstatus⟩ := hfate.other hpid.symm
  refine ⟨?_, hstatus.resolve_right fun hreaped => hne hreaped.1, hframes⟩
  obtain hparent | ⟨-, hparent, -⟩ := hfate.parent
  · rw [hparent, horphan]
  · exact absurd hparent hne

/-- A step of another process. -/
theorem Session.Follows.other (hfollows : session.Follows all)
    (hsteps : Steps (reaper init) session.world pid proc act after)
    (hproc : session.world.procs[pid]? = some proc) (hpid : pid ≠ 0)
    (hundisturbed : session.Undisturbed init ⟨pid, act⟩) :
    Follows all ⟨after, session.line⟩ := by
  obtain ⟨shell, hshell, horphan, hstate⟩ := hfollows
  obtain ⟨new, hnew, hfate⟩ := hsteps.fate hproc hshell
  obtain ⟨hparent, hstatus, hframes⟩ := hfate.of_shell horphan hpid
  refine ⟨new, hnew, hparent, ?_⟩
  obtain hended | ⟨⟨waiting, hat, hidle, honly⟩, hline⟩ := hstate
  · exact .inl (hfate.ended hended)
  refine .inr ⟨⟨waiting, ?_, fun hwaiting => (hidle hwaiting).keep hsteps hproc,
    fun hwaiting => ?_⟩, fun line heq => ?_⟩
  · simpa only [Proc.At, hstatus, hframes] using hat
  · intro line now heq hnow halive index kid hkid hisKid
    cases hold : session.world.procs[index]? with
    | none =>
        obtain ⟨-, hborn⟩ := hsteps.born hkid hold
        exact absurd (Option.some.inj (hborn.symm.trans hisKid.1)) hpid
    | some old =>
        obtain ⟨kid', hkid', hkidFate⟩ := hsteps.fate hproc hold
        obtain rfl := Option.some.inj (hkid'.symm.trans hkid)
        have hunreaped : old.status ≠ .reaped := fun hreaped =>
          hisKid.2 (hkidFate.reaped hreaped)
        obtain hsame | ⟨hexits, hchild, hreaper, dead, hdead, hended⟩ :=
          hkidFate.parent
        · obtain ⟨before, hbefore, -⟩ := hline line heq
          obtain ⟨now', hnow', hlineFate⟩ := hsteps.fate hproc hbefore
          obtain rfl := Option.some.inj (hnow'.symm.trans hnow)
          exact honly hwaiting line before heq hbefore
            (mt hlineFate.ended halive) index old hold
            ⟨hsame.symm.trans hisKid.1, hunreaped⟩
        · -- an orphan comes to the shell, so the process of the line has died
          have hinit : init = true := by
            rw [hisKid.1] at hreaper
            cases init
            · cases hreaper
            · rfl
          by_cases hlinePid : session.line = some pid
          · obtain rfl := Option.some.inj (heq.symm.trans hlinePid)
            obtain rfl := Option.some.inj (hdead.symm.trans hnow)
            exact absurd hended halive
          · exact absurd ⟨hchild, hunreaped⟩
              (hundisturbed.2 hinit hpid hlinePid hexits old
                (List.mem_of_getElem? hold))
  · obtain ⟨old, hold, hzero⟩ := hline line heq
    obtain ⟨next, hnext, hnextFate⟩ := hsteps.fate hproc hold
    refine ⟨next, hnext, ?_⟩
    obtain hsame | ⟨-, hchild, -⟩ := hnextFate.parent
    · exact hsame.trans hzero
    · exact absurd (Option.some.inj (hchild.symm.trans hzero)) hpid

/-- What stands in the way of a step of the shell. -/
theorem Session.Follows.shell_state (hfollows : session.Follows all)
    (hshell : session.world.procs[0]? = some shell) (halive : ¬ shell.Ended) :
    shell.parent = none ∧
      (∃ waiting, shell.At all waiting ∧ (waiting = false → session.LineEnded) ∧
        (waiting = true → session.OnlyKid)) ∧
      ∀ pid, session.line = some pid →
        pid ≠ 0 ∧ ∃ proc, session.world.procs[pid]? = some proc ∧
          proc.parent = some 0 := by
  obtain ⟨found, hfound, horphan, hstate⟩ := hfollows
  obtain rfl := Option.some.inj (hfound.symm.trans hshell)
  obtain ⟨hpoint, hline⟩ := hstate.resolve_left halive
  refine ⟨horphan, hpoint, fun pid heq => ?_⟩
  obtain ⟨proc, hproc, hparent⟩ := hline pid heq
  refine ⟨?_, proc, hproc, hparent⟩
  rintro rfl
  obtain rfl := Option.some.inj (hfound.symm.trans hproc)
  rw [horphan] at hparent
  cases hparent

/-- When a `wait4` of the shell returns, the process of the line is over. -/
theorem Session.Follows.line_ended (hfollows : session.Follows all)
    (hsteps : Steps (reaper init) session.world 0 shell act after)
    (hshell : session.world.procs[0]? = some shell)
    (hact : act = .childless ∨ ∃ child, act = .reap child) :
    session.LineEnded := by
  obtain ⟨horphan, ⟨waiting, hat, hidle, honly⟩, hline⟩ :=
    hfollows.shell_state hshell hsteps.alive
  intro pid heq
  obtain ⟨hpid, proc, hproc, hparent⟩ := hline pid heq
  refine ⟨proc, hproc, ?_⟩
  cases hsteps.of_shell hat with
  | silent | fork | forkFails | exit => simp at hact
  | @reap _ _ kid child hprocs hsame hnew hkid hzombie hisKid =>
      by_contra halive
      obtain rfl := honly rfl pid proc heq hproc halive child kid hkid
        ⟨hisKid, by simp [hzombie]⟩
      obtain rfl := Option.some.inj (hkid.symm.trans hproc)
      exact halive (.inl hzombie)
  | childless hprocs hsame hnew hnone =>
      by_contra halive
      refine hnone proc (List.mem_of_getElem? hproc) ⟨hparent, ?_⟩
      exact fun hreaped => halive (.inr hreaped)

/-- Only the shell has changed, and it does not wait. -/
theorem follows_of_set {new : Proc}
    (hprocs : after.procs = session.world.procs.set 0 new)
    (hlt : 0 < session.world.procs.length) (horphan : new.parent = none)
    (hnew : new.At all false)
    (hended : Session.LineEnded ⟨after, session.line⟩)
    (hline : ∀ pid, session.line = some pid → pid ≠ 0 ∧
      ∃ proc, session.world.procs[pid]? = some proc ∧ proc.parent = some 0) :
    Session.Follows all ⟨after, session.line⟩ := by
  refine ⟨new, by rw [hprocs, List.getElem?_set_self hlt], horphan,
    .inr ⟨⟨false, hnew, fun _ => hended, nofun⟩, ?_⟩⟩
  intro pid heq
  obtain ⟨hpid, proc, hproc, hparent⟩ := hline pid heq
  exact ⟨proc, by rw [hprocs, List.getElem?_set_ne hpid.symm, hproc], hparent⟩

/-- A step of the shell. -/
theorem Session.Follows.own (hfollows : session.Follows all)
    (hsteps : Steps (reaper init) session.world 0 shell act after)
    (hshell : session.world.procs[0]? = some shell)
    (hundisturbed : session.Undisturbed init ⟨0, act⟩) :
    Follows all ⟨after, session.lineAfter ⟨0, act⟩ after⟩ := by
  obtain ⟨horphan, ⟨waiting, hat, hidle, honly⟩, hline⟩ :=
    hfollows.shell_state hshell hsteps.alive
  have hlt : 0 < session.world.procs.length :=
    (List.getElem?_eq_some_iff.mp hshell).1
  cases hsteps.of_shell hat with
  | @silent _ new hprocs hsame hnew =>
      have hkeep : session.lineAfter ⟨0, .go⟩ after = session.line := by
        simp [lineAfter, hprocs]
      rw [hkeep]
      exact follows_of_set hprocs hlt (hsame.trans horphan) hnew
        ((hidle rfl).keep hsteps hshell) hline
  | @fork _ new child _ _ _ hprocs hsame hnew hcode hkid hstatus =>
      have hkeep : session.lineAfter ⟨0, .go⟩ after =
          some session.world.procs.length := by
        simp [lineAfter, hprocs]
      have hchild : after.procs[session.world.procs.length]? = some child := by
        rw [hprocs, List.getElem?_append_right (by simp)]
        simp
      have hzero : after.procs[0]? = some new := by
        rw [hprocs, List.getElem?_append_left (by simpa using hlt),
          List.getElem?_set_self hlt]
      rw [hkeep]
      refine ⟨new, hzero, hsame.trans horphan,
        .inr ⟨⟨true, hnew, nofun, fun _ => ?_⟩, ?_⟩⟩
      · intro pid proc heq _ _ index kid hindex hisKid
        obtain rfl := Option.some.inj heq
        by_contra hne
        -- every other process is an old one, and no child of the shell
        have hbound : index < after.procs.length :=
          (List.getElem?_eq_some_iff.mp hindex).1
        simp only [hprocs, List.length_append, List.length_set,
          List.length_singleton] at hbound
        have hold : (session.world.procs.set 0 new)[index]? = some kid := by
          rwa [hprocs, List.getElem?_append_left (by simp; omega)] at hindex
        by_cases hfirst : index = 0
        · subst hfirst
          obtain rfl := Option.some.inj (hzero.symm.trans hindex)
          rw [Proc.IsKid, hsame, horphan] at hisKid
          exact nomatch hisKid.1
        · rw [List.getElem?_set_ne (Ne.symm hfirst)] at hold
          obtain ⟨edge, code, rest, hcode⟩ := hcode
          exact hundisturbed.1 rfl rfl ⟨shell, edge, code, rest, hshell, hcode⟩ kid
            (List.mem_of_getElem? hold) hisKid
      · intro pid heq
        obtain rfl := Option.some.inj heq
        exact ⟨child, hchild, hkid⟩
  | @forkFails _ new hprocs hsame hnew =>
      have hkeep : session.lineAfter ⟨0, .forkFails⟩ after = none := by
        simp [lineAfter]
      rw [hkeep]
      exact ⟨new, by rw [hprocs, List.getElem?_set_self hlt], hsame.trans horphan,
        .inr ⟨⟨true, hnew, nofun, fun _ => nofun⟩, nofun⟩⟩
  | @reap _ new kid child hprocs hsame hnew hkid hzombie hisKid =>
      have hkeep : session.lineAfter ⟨0, .reap child⟩ after = session.line := by
        simp [lineAfter, hprocs]
      have hchild : child ≠ 0 := by
        rintro rfl
        obtain rfl := Option.some.inj (hshell.symm.trans hkid)
        rw [horphan] at hisKid
        cases hisKid
      rw [hkeep]
      refine ⟨new, by rw [hprocs, List.getElem?_set_ne hchild,
        List.getElem?_set_self hlt], hsame.trans horphan,
        .inr ⟨⟨false, hnew, fun _ => ?_, nofun⟩, ?_⟩⟩
      · exact (hfollows.line_ended hsteps hshell (.inr ⟨child, rfl⟩)).keep hsteps
          hshell
      · intro pid heq
        obtain ⟨hpid, proc, hproc, hparent⟩ := hline pid heq
        by_cases hreaped : child = pid
        · subst hreaped
          have hbound : child < session.world.procs.length :=
            (List.getElem?_eq_some_iff.mp hkid).1
          exact ⟨{ kid with status := .reaped }, by
            rw [hprocs, List.getElem?_set_self (by simpa using hbound)], hisKid⟩
        · exact ⟨proc, by rw [hprocs, List.getElem?_set_ne hreaped,
            List.getElem?_set_ne hpid.symm, hproc], hparent⟩
  | @childless _ new hprocs hsame hnew hnone =>
      have hkeep : session.lineAfter ⟨0, .childless⟩ after = session.line := by
        simp [lineAfter, hprocs]
      rw [hkeep]
      exact follows_of_set hprocs hlt (hsame.trans horphan) hnew
        ((hfollows.line_ended hsteps hshell (.inl rfl)).keep hsteps hshell) hline
  | exit hprocs =>
      refine ⟨Proc.orphan (reaper init) 0 { shell with status := .zombie }, ?_, ?_,
        .inl (.inl (Proc.orphan_status _))⟩
      · rw [hprocs, World.die, List.getElem?_map, List.getElem?_set_self hlt]
        rfl
      · simp [Proc.orphan, horphan]

end Follows

/-- The run lemma: undisturbed steps keep the shell with its line. -/
theorem follows_of_reachable {init : Bool} {all : List Line}
    {input output error : Desc} {current : Session}
    (hreach : ((session init all input output error).guard
      (Session.Undisturbed init)).Reachable current) :
    current.Follows all := by
  apply System.invariant_of_step (I := Session.Follows all) ?_ ?_ hreach
  · rintro _ rfl
    exact ⟨_, rfl, rfl, .inr ⟨⟨false, ⟨rfl, _, rfl, .prompt fun _ => id⟩,
      fun _ => nofun, nofun⟩, nofun⟩⟩
  · rintro before ⟨pid, act⟩ after - hfollows ⟨hundisturbed, hstep⟩
    obtain ⟨world, proc, hproc, hsteps, rfl⟩ := Session.steps_of_step hstep
    by_cases hpid : pid = 0
    · subst hpid
      exact hfollows.own hsteps hproc hundisturbed
    · have hkeep : before.lineAfter ⟨pid, act⟩ world = before.line := by
        simp [Session.lineAfter, hpid]
      rw [hkeep]
      exact hfollows.other hsteps hproc hpid hundisturbed

theorem Session.Follows.waits {init : Bool} {all : List Line}
    {session : Session} (hfollows : session.Follows all) :
    session.Waits init := by
  refine ⟨?_, fun shell lines hshell hcode => ?_⟩
  · rintro ⟨pid, act⟩ after hstep ⟨rfl, hact⟩
    obtain ⟨world, proc, hproc, hsteps, rfl⟩ := Session.steps_of_step hstep
    exact hfollows.line_ended hsteps hproc hact
  · have halive : ¬ shell.Ended := by
      rintro (hstatus | hstatus)
      · simp [Proc.code?, hstatus] at hcode
      · simp [Proc.code?, hstatus] at hcode
    obtain ⟨-, ⟨waiting, ⟨hstatus, frame, hframes, hpoint⟩, hidle, -⟩, -⟩ :=
      hfollows.shell_state hshell halive
    rw [Proc.code?_running hstatus hframes] at hcode
    apply hidle
    generalize frame.code = code at hpoint hcode
    cases hpoint with
    | wait hlines => cases lines <;> simp [loop] at hcode
    | _ => rfl

end JyyOS.Shell
