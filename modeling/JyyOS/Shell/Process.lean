import JyyOS.Core.Transition
import JyyOS.Shell.Parser
import JyyOS.Shell.Descriptors

/-!
# `runcmd` and the processes that it forks

The body of `runcmd` is a tree of system calls: a call with two outcomes has a
branch for each, and `fork` has one for the child and one for the parent.  A
branch holds all that follows it, so a child that returned from its inner
`runcmd` would go on in its parent's continuation.

The world is a list of processes, indexed by pid.  Any process that can move
may be the next one to do so, and every system call is one step.
-/

namespace JyyOS.Shell

/-! ## Positions in the command tree -/

/-- The edge from a node to one of its subcommands. -/
inductive Edge where
  | redir | listL | listR | pipeL | pipeR | back
deriving DecidableEq

/-- The path from the root to a node. -/
abbrev Pos := List Edge

theorem edge_unique {pos node : Pos} {left right : Edge} (hleft : pos ++ [left] <+: node)
    (hright : pos ++ [right] <+: node) : left = right := by
  obtain ⟨more, rfl⟩ := hleft
  rw [List.append_assoc, List.prefix_append_right_inj] at hright
  obtain ⟨rest, hrest⟩ := hright
  exact (List.cons.inj hrest).1.symm

/-! ## Code -/

/-- A descriptor that `runcmd` names. -/
inductive FdArg where
  | const (fd : ℕ)
  /-- `p[0]` -/
  | p0
  /-- `p[1]` -/
  | p1

def FdArg.value (p : ℕ × ℕ) : FdArg → ℕ
  | const fd => fd
  | p0 => p.1
  | p1 => p.2

/-- What is left to do of a call of `runcmd`. -/
inductive Code where
  | exit (status : ℕ) (next : Code)
  | execve (argv : Slots) (failed : Code)
  | print (next : Code)
  | close (fd : FdArg) (next : Code)
  | open (path mode : ℕ) (failed opened : Code)
  | pipe (failed made : Code)
  | dup (fd : FdArg) (next : Code)
  /-- The edge leads to the subcommand that the child is for. -/
  | fork (edge : Edge) (child parent : Code)
  | wait (next : Code)
  | call (edge : Edge) (cmd : Cmd) (next : Code)
  /-- The closing brace. -/
  | done

namespace Code

/-- Nothing follows but messages and the end. -/
def Quits : Code → Prop
  | .exit _ _ => True
  | .print next => next.Quits
  | _ => False

/-- `syscall(SYS_exit, 0); }` -/
def last : Code := .exit 0 .done

/-- `assert(syscall(SYS_pipe, p) >= 0)` -/
def assertPipe (next : Code) : Code := .pipe (.print (.exit 1 next)) next

end Code

open Code in
/-- A null `cmd` and an unknown type cannot be built here. -/
def runcmd : Cmd → Code
  | .exec argv _ =>
      let exec := execve argv (print last)
      if (argv 0).isNone then exit 1 exec else exec
  | .redir cmd file _ mode fd =>
      let rest := call .redir cmd last
      close (.const fd) (.open file mode (print (exit 1 rest)) rest)
  | .list left right =>
      let rest := wait (call .listR right last)
      fork .listL (call .listL left rest) rest
  | .pipe left right =>
      let rest := close .p0 (close .p1 (wait (wait last)))
      let second :=
        fork .pipeR
          (close (.const 0) (dup .p0 (close .p0 (close .p1 (call .pipeR right rest)))))
          rest
      assertPipe
        (fork .pipeL
          (close (.const 1) (dup .p1 (close .p0 (close .p1 (call .pipeL left second)))))
          second)
  | .back cmd => fork .back (call .back cmd last) last

/-! ## The world -/

/-- An activation record of `runcmd`. -/
structure Frame where
  pos : Pos
  code : Code
  /-- The local array `p`; no code reads it before `pipe` has filled it. -/
  p : ℕ × ℕ

inductive Status where
  | running
  /-- `execve` has replaced `runcmd`. -/
  | program
  | zombie
  | reaped
deriving DecidableEq

structure Proc where
  /-- `none` is a process outside. -/
  parent : Option ℕ
  status : Status
  /-- The innermost activation comes first; `fork` copies the parent's. -/
  frames : List Frame
  fds : Fds
  /-- The node that the process was made for. -/
  born : Pos

/-- One call of `execve`, with the descriptors open at it. -/
structure Exec where
  node : Pos
  argv : Slots
  fds : Fds

structure World where
  procs : List Proc
  /-- The pipes made so far, each with the node that made it. -/
  pipes : List Pos
  /-- The calls of `execve` so far. -/
  execs : List Exec

/-- How the next system call of a process turns out. -/
inductive Act where
  | go
  | execFails
  | openFails
  | pipeFails
  | forkFails
  /-- `wait4` returns this child. -/
  | reap (child : ℕ)
  /-- `wait4` fails, for there is no child. -/
  | childless
  /-- The program ends. -/
  | finish
deriving DecidableEq

structure Label where
  pid : ℕ
  act : Act
deriving DecidableEq

/-- A child of `pid` that has not been waited for. -/
def Proc.IsKid (pid : ℕ) (kid : Proc) : Prop := kid.parent = some pid ∧ kid.status ≠ .reaped

instance (pid : ℕ) (kid : Proc) : Decidable (kid.IsKid pid) :=
  inferInstanceAs (Decidable (_ ∧ _))

/-- The process has terminated. -/
def Proc.Ended (proc : Proc) : Prop := proc.status = .zombie ∨ proc.status = .reaped

instance (proc : Proc) : Decidable proc.Ended := inferInstanceAs (Decidable (_ ∨ _))

/-- What the death of `pid` does to its children. -/
def Proc.orphan (reaper : Option ℕ) (pid : ℕ) (proc : Proc) : Proc :=
  if proc.parent = some pid then { proc with parent := reaper } else proc

namespace World

def put (world : World) (pid : ℕ) (proc : Proc) : World :=
  { world with procs := world.procs.set pid proc }

/-- The process ends and its children pass to `reaper`. -/
def die (reaper : Option ℕ) (world : World) (pid : ℕ) (proc : Proc) : World :=
  { world with
    procs := (world.procs.set pid { proc with status := .zombie }).map
      (Proc.orphan reaper pid) }

/-- One system call of a process that is inside `runcmd`. -/
def syscall (reaper : Option ℕ) (world : World) (pid : ℕ) (proc : Proc) (frame : Frame)
    (callers : List Frame) (act : Act) : Option World :=
  -- the process after the call, going on at `code`
  let goto (code : Code) : Proc :=
    { proc with frames := { frame with code := code } :: callers }
  match frame.code, act with
  | .exit _ _, .go => some (world.die reaper pid proc)
  | .execve argv failed, .go =>
      some { world.put pid { goto failed with status := .program } with
        execs := world.execs ++ [⟨frame.pos, argv, proc.fds⟩] }
  | .execve argv failed, .execFails =>
      some { world.put pid (goto failed) with
        execs := world.execs ++ [⟨frame.pos, argv, proc.fds⟩] }
  | .print next, .go => some (world.put pid (goto next))
  | .close fd next, .go =>
      some (world.put pid { goto next with fds := proc.fds.close (fd.value frame.p) })
  | .open path mode _ opened, .go =>
      some (world.put pid { goto opened with fds := proc.fds.alloc (.file path mode) })
  | .open _ _ failed _, .openFails => some (world.put pid (goto failed))
  | .pipe _ made, .go =>
      let name := world.pipes.length
      let first := proc.fds.alloc (.readEnd name)
      some { world.put pid
          { proc with
            frames :=
              { frame with code := made, p := (proc.fds.lowest, first.lowest) } :: callers
            fds := first.alloc (.writeEnd name) } with
        pipes := world.pipes ++ [frame.pos] }
  | .pipe failed _, .pipeFails => some (world.put pid (goto failed))
  | .dup fd next, .go =>
      some (world.put pid { goto next with fds := proc.fds.dup (fd.value frame.p) })
  | .fork edge child parent, .go =>
      some { world with
        procs := world.procs.set pid (goto parent) ++
          [{ goto child with parent := some pid, born := frame.pos ++ [edge] }] }
  | .fork _ _ parent, .forkFails => some (world.put pid (goto parent))
  | .wait next, .reap child =>
      match world.procs[child]? with
      | none => none
      | some kid =>
          if kid.parent = some pid ∧ kid.status = .zombie then
            some ((world.put pid (goto next)).put child { kid with status := .reaped })
          else none
  | .wait next, .childless =>
      if ∃ kid ∈ world.procs, kid.IsKid pid then none else some (world.put pid (goto next))
  | .call edge cmd next, .go =>
      some (world.put pid
        { proc with
          frames := ⟨frame.pos ++ [edge], runcmd cmd, (0, 0)⟩ ::
            { frame with code := next } :: callers })
  | .done, .go => some (world.put pid { proc with frames := callers })
  | _, _ => none

def step (reaper : Option ℕ) (world : World) (label : Label) : Option World :=
  match world.procs[label.pid]? with
  | none => none
  | some proc =>
      match proc.status, proc.frames, label.act with
      | .running, frame :: callers, act =>
          world.syscall reaper label.pid proc frame callers act
      | .program, _, .finish => some (world.die reaper label.pid proc)
      | _, _, _ => none

/-- The process forked for a command has entered `runcmd` with the standard
descriptors. -/
def start (cmd : Cmd) (input output error : Desc) : World where
  procs := [{
    parent := none
    status := .running
    frames := [⟨[], runcmd cmd, (0, 0)⟩]
    fds := [some input, some output, some error]
    born := [] }]
  pipes := []
  execs := []

end World

/-- The processes of a command; orphans go to `reaper`. -/
def machine (reaper : Option ℕ) (cmd : Cmd) (input output error : Desc) :
    Transition.System World Label :=
  .ofPartial (· = World.start cmd input output error) (World.step reaper)

/-! ## What a step can do -/

/-- What a system call changes that touches no other process. -/
structure Outcome where
  status : Status
  frame : Frame
  fds : Fds
  pipes : List Pos
  execs : List Exec

/-- The calls that touch no other process, given the pipes made so far. -/
inductive Quiet (pipes : List Pos) (frame : Frame) (fds : Fds) : Act → Outcome → Prop
  | print {next : Code} (hcode : frame.code = .print next) :
      Quiet pipes frame fds .go ⟨.running, { frame with code := next }, fds, [], []⟩
  | close {fd : FdArg} {next : Code} (hcode : frame.code = .close fd next) :
      Quiet pipes frame fds .go
        ⟨.running, { frame with code := next }, fds.close (fd.value frame.p), [], []⟩
  | dup {fd : FdArg} {next : Code} (hcode : frame.code = .dup fd next) :
      Quiet pipes frame fds .go
        ⟨.running, { frame with code := next }, fds.dup (fd.value frame.p), [], []⟩
  | opened {path mode : ℕ} {failed opened : Code}
      (hcode : frame.code = .open path mode failed opened) :
      Quiet pipes frame fds .go
        ⟨.running, { frame with code := opened }, fds.alloc (.file path mode), [], []⟩
  | openFailed {path mode : ℕ} {failed opened : Code}
      (hcode : frame.code = .open path mode failed opened) :
      Quiet pipes frame fds .openFails ⟨.running, { frame with code := failed }, fds, [], []⟩
  | made {failed made : Code} (hcode : frame.code = .pipe failed made) :
      Quiet pipes frame fds .go
        ⟨.running,
          { frame with
            code := made
            p := (fds.lowest, (fds.alloc (.readEnd pipes.length)).lowest) },
          (fds.alloc (.readEnd pipes.length)).alloc (.writeEnd pipes.length),
          [frame.pos], []⟩
  | pipeFailed {failed made : Code} (hcode : frame.code = .pipe failed made) :
      Quiet pipes frame fds .pipeFails ⟨.running, { frame with code := failed }, fds, [], []⟩
  | executed {argv : Slots} {failed : Code} (hcode : frame.code = .execve argv failed) :
      Quiet pipes frame fds .go
        ⟨.program, { frame with code := failed }, fds, [], [⟨frame.pos, argv, fds⟩]⟩
  | execFailed {argv : Slots} {failed : Code} (hcode : frame.code = .execve argv failed) :
      Quiet pipes frame fds .execFails
        ⟨.running, { frame with code := failed }, fds, [], [⟨frame.pos, argv, fds⟩]⟩
  | forkFailed {edge : Edge} {child parent : Code}
      (hcode : frame.code = .fork edge child parent) :
      Quiet pipes frame fds .forkFails ⟨.running, { frame with code := parent }, fds, [], []⟩

def Proc.became (proc : Proc) (callers : List Frame) (outcome : Outcome) : Proc :=
  { proc with
    status := outcome.status
    frames := outcome.frame :: callers
    fds := outcome.fds }

/-- The process with its innermost activation at another point. -/
def Proc.at (proc : Proc) (frame : Frame) (callers : List Frame) (code : Code) : Proc :=
  { proc with frames := { frame with code := code } :: callers }

/-- The world after a step of `proc`, the process with number `pid`. -/
inductive Moves (reaper : Option ℕ) (world : World) (pid : ℕ) (proc : Proc) :
    Act → World → Prop
  | quiet {frame : Frame} {callers : List Frame} {act : Act} {outcome : Outcome}
      (hstatus : proc.status = .running) (hframes : proc.frames = frame :: callers)
      (hquiet : Quiet world.pipes frame proc.fds act outcome) :
      Moves reaper world pid proc act
        ⟨world.procs.set pid (proc.became callers outcome), world.pipes ++ outcome.pipes,
          world.execs ++ outcome.execs⟩
  | fork {frame : Frame} {callers : List Frame} {edge : Edge} {child parent : Code}
      (hstatus : proc.status = .running) (hframes : proc.frames = frame :: callers)
      (hcode : frame.code = .fork edge child parent) :
      Moves reaper world pid proc .go
        { world with
          procs := world.procs.set pid (proc.at frame callers parent) ++
            [{ proc.at frame callers child with
              parent := some pid
              born := frame.pos ++ [edge] }] }
  | reap {frame : Frame} {callers : List Frame} {next : Code} {child : ℕ} {kid : Proc}
      (hstatus : proc.status = .running) (hframes : proc.frames = frame :: callers)
      (hcode : frame.code = .wait next) (hkid : world.procs[child]? = some kid)
      (hparent : kid.parent = some pid) (hzombie : kid.status = .zombie) :
      Moves reaper world pid proc (.reap child)
        ((world.put pid (proc.at frame callers next)).put child
          { kid with status := .reaped })
  | childless {frame : Frame} {callers : List Frame} {next : Code}
      (hstatus : proc.status = .running) (hframes : proc.frames = frame :: callers)
      (hcode : frame.code = .wait next) (hnone : ∀ kid ∈ world.procs, ¬ kid.IsKid pid) :
      Moves reaper world pid proc .childless (world.put pid (proc.at frame callers next))
  | call {frame : Frame} {callers : List Frame} {edge : Edge} {cmd : Cmd} {next : Code}
      (hstatus : proc.status = .running) (hframes : proc.frames = frame :: callers)
      (hcode : frame.code = .call edge cmd next) :
      Moves reaper world pid proc .go
        (world.put pid
          { proc with
            frames := ⟨frame.pos ++ [edge], runcmd cmd, (0, 0)⟩ ::
              { frame with code := next } :: callers })
  | ret {frame : Frame} {callers : List Frame}
      (hstatus : proc.status = .running) (hframes : proc.frames = frame :: callers)
      (hcode : frame.code = .done) :
      Moves reaper world pid proc .go (world.put pid { proc with frames := callers })
  | exit {frame : Frame} {callers : List Frame} {status : ℕ} {next : Code}
      (hstatus : proc.status = .running) (hframes : proc.frames = frame :: callers)
      (hcode : frame.code = .exit status next) :
      Moves reaper world pid proc .go (world.die reaper pid proc)
  | finish (hstatus : proc.status = .program) :
      Moves reaper world pid proc .finish (world.die reaper pid proc)

/-- A process does not reap itself. -/
theorem ne_of_zombie {procs : List Proc} {pid child : ℕ} {proc kid : Proc}
    (hproc : procs[pid]? = some proc) (hstatus : proc.status = .running)
    (hkid : procs[child]? = some kid) (hzombie : kid.status = .zombie) : pid ≠ child := by
  rintro rfl
  obtain rfl := Option.some.inj (hproc.symm.trans hkid)
  rw [hzombie] at hstatus
  cases hstatus

theorem moves_of_syscall {reaper : Option ℕ} {world after : World} {pid : ℕ} {proc : Proc}
    {frame : Frame} {callers : List Frame} {act : Act} (hstatus : proc.status = .running)
    (hframes : proc.frames = frame :: callers)
    (hstep : world.syscall reaper pid proc frame callers act = some after) :
    Moves reaper world pid proc act after := by
  have hquiet : ∀ {outcome : Outcome}, Quiet world.pipes frame proc.fds act outcome →
      ⟨world.procs.set pid (proc.became callers outcome), world.pipes ++ outcome.pipes,
        world.execs ++ outcome.execs⟩ = after → Moves reaper world pid proc act after :=
    fun hcall heq => heq ▸ .quiet hstatus hframes hcall
  unfold World.syscall at hstep
  split at hstep
  next hcode =>
    cases hstep
    exact .exit hstatus hframes hcode
  next hcode =>
    cases hstep
    exact hquiet (.executed hcode) (by simp [World.put, Proc.became])
  next hcode =>
    cases hstep
    exact hquiet (.execFailed hcode) (by simp [World.put, Proc.became, hstatus])
  next hcode =>
    cases hstep
    exact hquiet (.print hcode) (by simp [World.put, Proc.became, hstatus])
  next hcode =>
    cases hstep
    exact hquiet (.close hcode) (by simp [World.put, Proc.became, hstatus])
  next hcode =>
    cases hstep
    exact hquiet (.opened hcode) (by simp [World.put, Proc.became, hstatus])
  next hcode =>
    cases hstep
    exact hquiet (.openFailed hcode) (by simp [World.put, Proc.became, hstatus])
  next hcode =>
    cases hstep
    exact hquiet (.made hcode) (by simp [World.put, Proc.became, hstatus])
  next hcode =>
    cases hstep
    exact hquiet (.pipeFailed hcode) (by simp [World.put, Proc.became, hstatus])
  next hcode =>
    cases hstep
    exact hquiet (.dup hcode) (by simp [World.put, Proc.became, hstatus])
  next hcode =>
    cases hstep
    exact .fork hstatus hframes hcode
  next hcode =>
    cases hstep
    exact hquiet (.forkFailed hcode) (by simp [World.put, Proc.became, hstatus])
  next hcode =>
    split at hstep
    · cases hstep
    next hkid =>
      split_ifs at hstep with hzombie
      cases hstep
      exact .reap hstatus hframes hcode hkid hzombie.1 hzombie.2
  next hcode =>
    split_ifs at hstep with hkids
    cases hstep
    exact .childless hstatus hframes hcode fun kid hkid hisKid => hkids ⟨kid, hkid, hisKid⟩
  next hcode =>
    cases hstep
    exact .call hstatus hframes hcode
  next hcode =>
    cases hstep
    exact .ret hstatus hframes hcode
  next => cases hstep

theorem moves_of_step {reaper : Option ℕ} {world after : World} {pid : ℕ} {act : Act}
    (hstep : world.step reaper ⟨pid, act⟩ = some after) :
    ∃ proc, world.procs[pid]? = some proc ∧ Moves reaper world pid proc act after := by
  unfold World.step at hstep
  split at hstep
  · cases hstep
  next proc hproc =>
    refine ⟨proc, hproc, ?_⟩
    split at hstep
    next hstatus hframes => exact moves_of_syscall hstatus hframes hstep
    next hstatus hact =>
      cases hstep
      obtain rfl : act = .finish := hact
      exact .finish hstatus
    next => cases hstep

end JyyOS.Shell
