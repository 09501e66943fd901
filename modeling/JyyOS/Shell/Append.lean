import JyyOS.Core.Overwrite
import JyyOS.Shell.Foreground
import JyyOS.Shell.Redirections
import JyyOS.Shell.Session

/-!
# What `>>` leaves in a file

The files under the processes of a command.  `open` starts at offset zero and
`write` goes to the offset of what descriptor 1 is bound to, unless the file was
opened with `O_APPEND`; the mode that `parseredirs` gives to `>>` does not have
it.  So each program of `p1 >> f; ...; pk >> f` lays its output over the file.
-/

namespace JyyOS.Shell

open Transition Overwrite

/-! ## Files -/

abbrev O_APPEND := 1024

/-- The processes of a command and the files.  A file that a redirection has
opened is known by the pointer to its name: every REDIR node has a pointer of its
own. -/
structure Disk where
  world : World
  /-- What is in the file with a name. -/
  content : List Byte → List Byte
  /-- The offset of what has been opened. -/
  offset : ℕ → ℕ
  /-- What the program of a node has written to its descriptor 1. -/
  written : Pos → List Byte

inductive DiskEvent where
  | call (label : Label)
  /-- A program writes to its descriptor 1. -/
  | write (pid : ℕ) (chunk : List Byte)

/-- What a step of `runcmd` opens, with the mode. -/
def World.opening (world : World) (label : Label) : Option (ℕ × ℕ) :=
  match world.procs[label.pid]? with
  | none => none
  | some proc =>
      match proc.status, proc.frames.head?.map Frame.code, label.act with
      | .running, some (.open path mode _ _), .go => some (path, mode)
      | _, _, _ => none

namespace Disk

/-- `text` is the line, in which the names of the files are. -/
def opened (text : List Byte) (disk : Disk) (path mode : ℕ) : Disk :=
  let name := cstring (text.drop path)
  { disk with
    content :=
      if mode &&& Line.O_TRUNC = 0 then disk.content
      else Function.update disk.content name []
    offset := Function.update disk.offset path 0 }

def wrote (text : List Byte) (disk : Disk) (path mode : ℕ) (chunk : List Byte) : Disk :=
  let name := cstring (text.drop path)
  let old := disk.content name
  let start := if mode &&& O_APPEND = 0 then disk.offset path else old.length
  { disk with
    content := Function.update disk.content name (write 0 start chunk old)
    offset := Function.update disk.offset path (start + chunk.length) }

/-- The output of the program of a node goes on. -/
def emitted (disk : Disk) (node : Pos) (chunk : List Byte) : Disk :=
  { disk with written := Function.update disk.written node (disk.written node ++ chunk) }

def step (text : List Byte) (disk : Disk) : DiskEvent → Option Disk
  | .call label =>
      match disk.world.step none label, disk.world.opening label with
      | none, _ => none
      | some world, none => some { disk with world := world }
      | some world, some (path, mode) => some { disk.opened text path mode with world := world }
  | .write pid chunk =>
      match disk.world.procs[pid]? with
      | none => none
      | some proc =>
          match proc.status, proc.frames, proc.fds.get 1 with
          | .program, frame :: _, some (.file path mode) =>
              some ((disk.wrote text path mode chunk).emitted frame.pos chunk)
          | .program, frame :: _, some _ => some (disk.emitted frame.pos chunk)
          | _, _, _ => none

def start (cmd : Cmd) (input output error : Desc) (content : List Byte → List Byte) : Disk where
  world := World.start cmd input output error
  content := content
  offset := fun _ => 0
  written := fun _ => []

end Disk

/-- A call of `fork` that fails is left out. -/
def DiskEvent.Forks : DiskEvent → Prop
  | .call label => label.act ≠ .forkFails
  | .write _ _ => True

/-- The command `cmd` of the line `text` runs on these files, as long as `fork`
succeeds. -/
def diskMachine (text : List Byte) (cmd : Cmd) (input output error : Desc)
    (content : List Byte → List Byte) : System Disk DiskEvent :=
  (System.ofPartial (· = Disk.start cmd input output error content) (Disk.step text)).restrict
    DiskEvent.Forks

/-! ## What a step can do -/

/-- The state after a step. -/
inductive Disk.Moves (text : List Byte) (disk : Disk) : DiskEvent → Disk → Prop
  | called {label : Label} {world : World} (hstep : disk.world.step none label = some world) :
      Moves text disk (.call label) { disk with world := world }
  | opened {pid path mode : ℕ} {proc : Proc} {frame : Frame} {callers : List Frame}
      {failed opened : Code} {world : World}
      (hstep : disk.world.step none ⟨pid, .go⟩ = some world)
      (hproc : disk.world.procs[pid]? = some proc) (hstatus : proc.status = .running)
      (hframes : proc.frames = frame :: callers)
      (hcode : frame.code = .open path mode failed opened) :
      Moves text disk (.call ⟨pid, .go⟩) { disk.opened text path mode with world := world }
  | wrote {pid path mode : ℕ} {chunk : List Byte} {proc : Proc} {frame : Frame}
      {callers : List Frame} (hproc : disk.world.procs[pid]? = some proc)
      (hstatus : proc.status = .program) (hframes : proc.frames = frame :: callers)
      (hdesc : proc.fds.get 1 = some (.file path mode)) :
      Moves text disk (.write pid chunk)
        ((disk.wrote text path mode chunk).emitted frame.pos chunk)
  | elsewhere {pid : ℕ} {chunk : List Byte} {proc : Proc} {frame : Frame}
      {callers : List Frame} (hproc : disk.world.procs[pid]? = some proc)
      (hstatus : proc.status = .program) (hframes : proc.frames = frame :: callers)
      (hdesc : ∀ path mode, proc.fds.get 1 ≠ some (.file path mode)) :
      Moves text disk (.write pid chunk) (disk.emitted frame.pos chunk)

theorem opening_eq_some {world : World} {label : Label} {path mode : ℕ}
    (hopening : world.opening label = some (path, mode)) :
    label.act = .go ∧ ∃ proc frame callers failed opened,
      world.procs[label.pid]? = some proc ∧ proc.status = .running ∧
        proc.frames = frame :: callers ∧ frame.code = .open path mode failed opened := by
  unfold World.opening at hopening
  split at hopening
  · cases hopening
  next proc hproc =>
    split at hopening
    next hstatus hcode hact =>
      cases hopening
      obtain ⟨frame, hhead, hcode⟩ := Option.map_eq_some_iff.mp hcode
      exact ⟨hact, proc, frame, proc.frames.tail, _, _, hproc, hstatus,
        (List.cons_head?_tail hhead).symm, hcode⟩
    next => cases hopening

theorem Disk.moves_of_step {text : List Byte} {disk after : Disk} {event : DiskEvent}
    (hstep : disk.step text event = some after) : disk.Moves text event after := by
  unfold Disk.step at hstep
  split at hstep
  next label =>
    split at hstep
    · cases hstep
    next hworld hopening =>
      cases hstep
      exact .called hworld
    next hworld hopening =>
      cases hstep
      obtain ⟨pid, act⟩ := label
      obtain ⟨rfl, proc, frame, callers, failed, opened, hproc, hstatus, hframes, hcode⟩ :=
        opening_eq_some hopening
      exact .opened hworld hproc hstatus hframes hcode
  next pid chunk =>
    split at hstep
    · cases hstep
    next proc hproc =>
      split at hstep
      next hstatus hframes hdesc =>
        cases hstep
        exact .wrote hproc hstatus hframes hdesc
      next hdesc hstatus hframes hother =>
        cases hstep
        exact .elsewhere hproc hstatus hframes fun path mode heq =>
          hdesc path mode (Option.some.inj (hother.symm.trans heq))
      next => cases hstep

/-- The processes do not see the files. -/
theorem Disk.world_reachable {text : List Byte} {cmd : Cmd} {input output error : Desc}
    {content : List Byte → List Byte} {disk : Disk}
    (hreach : (diskMachine text cmd input output error content).Reachable disk) :
    (forkingMachine cmd input output error).Reachable disk.world := by
  apply System.invariant_of_step
    (I := fun disk => (forkingMachine cmd input output error).Reachable disk.world) ?_ ?_ hreach
  · rintro _ rfl
    exact System.reachable_of_init rfl
  · intro before event after _ ih hstep
    cases Disk.moves_of_step hstep.2 with
    | called hworld => exact ih.step ⟨hstep.1, hworld⟩
    | opened hworld => exact ih.step ⟨hstep.1, hworld⟩
    | wrote => exact ih
    | elsewhere => exact ih

/-! ## Programs that write -/

/-- The first node is on the left side of a list and the second on its right
side. -/
def Before (first second : Pos) : Prop :=
  ∃ pos : Pos, FgUnder (pos ++ [.listL]) first ∧ pos ++ [.listR] <+: second

theorem Before.ne {first second : Pos} (hbefore : Before first second) : first ≠ second := by
  rintro rfl
  obtain ⟨pos, hleft, hright⟩ := hbefore
  cases edge_unique hleft.isPrefix hright

section Programs

variable {world after : World} {pid : ℕ} {proc : Proc} {act : Act}

/-- A program only ends. -/
theorem Moves.after_program (hmoves : Moves none world pid proc act after)
    (hprogram : proc.status = .program) : after = world.die none pid proc := by
  cases hmoves with
  | finish => rfl
  | quiet hstatus | fork hstatus | reap hstatus | childless hstatus | call hstatus | ret hstatus
  | exit hstatus => exact absurd (hstatus.symm.trans hprogram) (by decide)

/-- A program that is still live goes on. -/
theorem Moves.program_kept (hmoves : Moves none world pid proc act after)
    (hproc : world.procs[pid]? = some proc) {index : ℕ} {old new : Proc}
    (hold : world.procs[index]? = some old) (hprogram : old.status = .program)
    (hnew : after.procs[index]? = some new) : new.status = .program ∨ new.Ended := by
  obtain ⟨next, hnext, hfate⟩ := hmoves.fate hproc hold
  obtain rfl := Option.some.inj (hnext.symm.trans hnew)
  by_cases hindex : index = pid
  · subst hindex
    obtain rfl := Option.some.inj (hproc.symm.trans hold)
    rw [hmoves.after_program hprogram, World.die, List.getElem?_map, Option.map_eq_some_iff]
      at hnew
    obtain ⟨dead, hdead, rfl⟩ := hnew
    obtain ⟨-, rfl⟩ | ⟨hne, -⟩ := getElem?_set_cases hdead
    · exact .inr (.inl (Proc.orphan_status _))
    · exact absurd rfl hne
  · obtain ⟨-, hkept | ⟨-, hreaped⟩⟩ := hfate.other hindex
    · exact .inl (hkept.trans hprogram)
    · exact .inr (.inr hreaped)

end Programs

/-! ## Programs that write to one file -/

/-- A program, and the pointer to the name of the file that its descriptor 1 is
bound to. -/
structure Target where
  node : Pos
  path : ℕ

/-- The mode of `>>`. -/
abbrev appendMode := Line.O_WRONLY ||| Line.O_CREAT

/-- Without `O_APPEND` a program writes at its offset. -/
theorem Disk.wrote_appendMode (text : List Byte) (disk : Disk) (path : ℕ) (chunk : List Byte) :
    disk.wrote text path appendMode chunk =
      { disk with
        content := Function.update disk.content (cstring (text.drop path))
          (write 0 (disk.offset path) chunk (disk.content (cstring (text.drop path))))
        offset := Function.update disk.offset path (disk.offset path + chunk.length) } := by
  have hmode : appendMode &&& O_APPEND = 0 := by decide
  simp only [Disk.wrote, hmode, if_true]

/-- The programs run one after the other and write to one file. -/
structure Targets (text name : List Byte) (targets : List Target) : Prop where
  ordered : targets.Pairwise fun first second => Before first.node second.node
  paths : (targets.map Target.path).Nodup
  named : ∀ target ∈ targets, cstring (text.drop target.path) = name

theorem Targets.nodes {text name : List Byte} {targets : List Target}
    (htargets : Targets text name targets) : (targets.map Target.node).Nodup :=
  List.pairwise_map.mpr (htargets.ordered.imp Before.ne)

/-- Only the targets run, each with the file that is opened for it. -/
def appendPlan (targets : List Target) : Plan where
  program program := ∃ target ∈ targets,
    program.node = target.node ∧ program.output = some (.file target.path appendMode)
  file pos path mode := ⟨pos ++ [.redir], path⟩ ∈ targets ∧ mode = appendMode

/-- The outputs of the targets lie over `old` in their order. -/
structure Disk.Sound (name old : List Byte) (targets : List Target) (disk : Disk) : Prop where
  /-- Nobody else is on the way to a program that has written something. -/
  runs : ∀ node, disk.written node ≠ [] → ∀ proc ∈ disk.world.procs, proc.Touches node →
    proc.status = .program
  earlier : ∀ node, disk.written node ≠ [] → ∀ first, Before first node →
    ¬ disk.world.Live first
  offset : ∀ target ∈ targets, disk.offset target.path = (disk.written target.node).length
  content : disk.content name =
    (targets.map fun target => disk.written target.node).foldl overlay old

namespace Disk.Sound

variable {text name old : List Byte} {targets : List Target} {disk : Disk} {error : Desc}
  {pid : ℕ} {proc : Proc} {frame : Frame} {callers : List Frame}

theorem start {content : List Byte → List Byte} (hold : content name = old) {cmd : Cmd}
    {input output : Desc} : (Disk.start cmd input output error content).Sound name old targets where
  runs node hwritten := absurd rfl hwritten
  earlier node hwritten := absurd rfl hwritten
  offset target htarget := rfl
  content := by
    refine hold.trans (foldl_overlay_of_nil (fun out hout => ?_) _).symm
    obtain ⟨target, -, rfl⟩ := List.mem_map.mp hout
    rfl

/-- A system call of `runcmd`. -/
theorem called (hsound : disk.Sound name old targets) (hworld : disk.world.Foreground)
    {label : Label} {world : World} (hact : label.act ≠ .forkFails)
    (hstep : disk.world.step none label = some world) :
    { disk with world := world }.Sound name old targets := by
  obtain ⟨proc, hproc, hmoves⟩ := Shell.moves_of_step hstep
  have hchange := hmoves.change hact (hworld.orderly _ _ hproc)
  refine ⟨fun node hwritten new hnew htouches => ?_, fun node hwritten first hfirst hlive => ?_,
    hsound.offset, hsound.content⟩
  · obtain ⟨index, hnew⟩ := List.mem_iff_getElem?.mp hnew
    obtain ⟨owner, before, hbefore, htouches', howner⟩ := hchange.owner hproc hnew htouches
    have hprogram := hsound.runs node hwritten before (List.mem_of_getElem? hbefore) htouches'
    obtain rfl | ⟨rfl, rfl⟩ := howner
    · obtain hkept | hended := hmoves.program_kept hproc hbefore hprogram hnew
      · exact hkept
      · exact absurd htouches (Proc.not_touches_of_ended hended node)
    · obtain rfl := Option.some.inj (hproc.symm.trans hbefore)
      have hlt := (List.getElem?_eq_some_iff.mp hnew).1
      rw [hmoves.after_program hprogram] at hlt
      simp [World.die] at hlt
  · exact hsound.earlier node hwritten first hfirst (hchange.live hproc hlive)

/-- Nothing has been written yet by the program for which a file is opened. -/
theorem opened (hsound : disk.Sound name old targets) (htargets : Targets text name targets)
    (hkeeps : disk.world.Keeps (appendPlan targets) error) {path mode : ℕ}
    {failed opened : Code} (hproc : disk.world.procs[pid]? = some proc)
    (hstatus : proc.status = .running) (hframes : proc.frames = frame :: callers)
    (hcode : frame.code = .open path mode failed opened) :
    (disk.opened text path mode).Sound name old targets := by
  have hmem := List.mem_of_getElem? hproc
  have hplan := (hkeeps.procs proc hmem).code frame callers hstatus hframes
  rw [hcode] at hplan
  obtain ⟨-, ⟨htarget, rfl⟩, hreaches, -⟩ := hplan
  have hfresh : disk.written (frame.pos ++ [.redir]) = [] := by
    by_contra hwritten
    have htouches : proc.Touches (frame.pos ++ [.redir]) := by
      rw [proc.touches_running hstatus hframes, hcode]
      exact .inr hreaches
    have hprogram := hsound.runs _ hwritten proc hmem htouches
    exact absurd (hstatus.symm.trans hprogram) (by decide)
  refine ⟨hsound.runs, hsound.earlier, fun target hmem' => ?_, hsound.content⟩
  by_cases hpath : target.path = path
  · obtain rfl := List.inj_on_of_nodup_map htargets.paths hmem' htarget hpath
    simp [Disk.opened, hfresh]
  · simpa [Disk.opened, Function.update_of_ne hpath] using hsound.offset target hmem'

/-- A program that writes is the last one that has written something. -/
theorem content_goesOn (hsound : disk.Sound name old targets)
    (htargets : Targets text name targets) {target : Target} (htarget : target ∈ targets)
    (hlive : disk.world.Live target.node) (chunk : List Byte) :
    write 0 (disk.offset target.path) chunk (disk.content name) =
      (targets.map fun other => Function.update disk.written target.node
        (disk.written target.node ++ chunk) other.node).foldl overlay old := by
  have hoffset := hsound.offset target htarget
  have hcontent := hsound.content
  have hnodes := htargets.nodes
  have hordered := htargets.ordered
  obtain ⟨front, back, rfl⟩ := List.append_of_mem htarget
  have hback : ∀ out ∈ back.map fun later => disk.written later.node, out = [] := by
    intro out hout
    obtain ⟨later, hlater, rfl⟩ := List.mem_map.mp hout
    by_contra hsome
    have hbefore := (List.pairwise_cons.mp (List.pairwise_append.mp hordered).2.1).1 later hlater
    exact hsound.earlier _ hsome _ hbefore hlive
  rw [List.map_append, List.map_cons, List.nodup_middle, List.nodup_cons, ← List.map_append]
    at hnodes
  have hkept : ∀ {rest : List Target}, (∀ other ∈ rest, other ∈ front ++ back) →
      (rest.map fun other => Function.update disk.written target.node
        (disk.written target.node ++ chunk) other.node) =
      rest.map fun other => disk.written other.node := by
    refine fun hrest => List.map_congr_left fun other hother => Function.update_of_ne ?_ _ _
    exact fun heq => hnodes.1 (heq ▸ List.mem_map_of_mem (hrest other hother))
  rw [hoffset, hcontent, List.map_append, List.map_append, List.map_cons, List.map_cons,
    hkept fun _ => List.mem_append_left _, hkept fun _ => List.mem_append_right _,
    Function.update_self]
  exact write_foldl_overlay 0 old _ chunk _ hback

/-- A program writes to its file. -/
theorem wrote (hsound : disk.Sound name old targets) (htargets : Targets text name targets)
    (hworld : disk.world.Foreground) (hkeeps : disk.world.Keeps (appendPlan targets) error)
    {path mode : ℕ} (hproc : disk.world.procs[pid]? = some proc)
    (hstatus : proc.status = .program) (hframes : proc.frames = frame :: callers)
    (hdesc : proc.fds.get 1 = some (.file path mode)) (chunk : List Byte) :
    ((disk.wrote text path mode chunk).emitted frame.pos chunk).Sound name old targets := by
  have hmem := List.mem_of_getElem? hproc
  obtain ⟨argv, target, htarget, hnode, houtput⟩ :=
    (hkeeps.procs proc hmem).program frame callers hstatus hframes
  cases hdesc.symm.trans houtput
  have hnode : frame.pos = target.node := hnode
  have htouches : proc.Touches target.node := by simp [Proc.Touches, hstatus, hframes, hnode]
  have hwritten : ∀ {node : Pos}, node ≠ target.node →
      Function.update disk.written target.node (disk.written target.node ++ chunk) node =
        disk.written node := fun hne => Function.update_of_ne hne _ _
  rw [hnode, Disk.wrote_appendMode]
  refine ⟨fun node hsome other hother htouches' => ?_, fun node hsome first hfirst => ?_,
    fun other hother => ?_, ?_⟩
  · by_cases heq : node = target.node
    · subst heq
      obtain ⟨index, hother⟩ := List.mem_iff_getElem?.mp hother
      obtain rfl := hworld.apart _ _ _ _ _ hother hproc htouches' htouches
      obtain rfl := Option.some.inj (hproc.symm.trans hother)
      exact hstatus
    · exact hsound.runs node (hwritten heq ▸ hsome) other hother htouches'
  · by_cases heq : node = target.node
    · subst heq
      obtain ⟨pos, hleft, hright⟩ := hfirst
      refine hworld.listed proc hmem pos target.node ?_ hright first hleft
      simp [Proc.path, hframes, hnode]
    · exact hsound.earlier node (hwritten heq ▸ hsome) first hfirst
  · by_cases hpath : other.path = target.path
    · obtain rfl := List.inj_on_of_nodup_map htargets.paths hother htarget hpath
      simp [Disk.emitted, hsound.offset other hother]
    · have hne : other.node ≠ target.node := fun heq =>
        hpath (congrArg _ (List.inj_on_of_nodup_map htargets.nodes hother htarget heq))
      simp [Disk.emitted, Function.update_of_ne hpath, Function.update_of_ne hne,
        hsound.offset other hother]
  · simp only [Disk.emitted, htargets.named target htarget, Function.update_self]
    exact hsound.content_goesOn htargets htarget ⟨proc, hmem, htouches⟩ chunk

end Disk.Sound

theorem sound_of_reachable {text name : List Byte} {targets : List Target}
    (htargets : Targets text name targets) {cmd : Cmd} {input output error : Desc}
    (hcmd : cmd.Keeps (appendPlan targets) [] (some input) (some output))
    {content : List Byte → List Byte} {disk : Disk}
    (hreach : (diskMachine text cmd input output error content).Reachable disk) :
    disk.Sound name (content name) targets := by
  refine System.invariant_of_step ?_ ?_ hreach
  · rintro _ rfl
    exact .start rfl
  · intro before event after hbefore ih hstep
    have hworld := Disk.world_reachable hbefore
    have hforeground := foreground_reachable hworld
    have hkeeps := machine_keeps hcmd hworld.of_restrict
    cases Disk.moves_of_step hstep.2 with
    | called hcall => exact ih.called hforeground hstep.1 hcall
    | opened hcall hproc hstatus hframes hcode =>
        have hopened := ih.opened htargets hkeeps hproc hstatus hframes hcode
        exact hopened.called hforeground hstep.1 hcall
    | wrote hproc hstatus hframes hdesc =>
        exact ih.wrote htargets hforeground hkeeps hproc hstatus hframes hdesc _
    | elsewhere hproc hstatus hframes hdesc =>
        obtain ⟨argv, target, -, -, houtput⟩ :=
          (hkeeps.procs _ (List.mem_of_getElem? hproc)).program _ _ hstatus hframes
        exact absurd houtput (hdesc _ _)

/-! ## The lines -/

/-- The phrase is `p1 >> f; ...; pk >> f`, where `f` is called `name`. -/
inductive Line.Appends (line : Line) (name : List Byte) : Deriv .line → Prop
  | last {redirs : List Redir} {words : List (Slice × List Redir)} {file : Slice}
      (hredirs : redirs ++ words.flatMap (·.2) = [⟨.append, file⟩])
      (hname : line.slice file = name) :
      Appends line name (.lineEnd (.pipeEnd (.simple redirs words)) 0)
  | more {redirs : List Redir} {words : List (Slice × List Redir)} {file : Slice}
      {rest : Deriv .line} (hredirs : redirs ++ words.flatMap (·.2) = [⟨.append, file⟩])
      (hname : line.slice file = name) (hrest : Appends line name rest) :
      Appends line name (.lineMore (.pipeEnd (.simple redirs words)) 0 rest)

/-- The program of a command, with its first redirection of descriptor 1. -/
def Command.target (command : Command) : Target :=
  ⟨command.node, (command.outs.head?.map fun redir => redir.file.start).getD 0⟩

section One

variable {redirs : List Redir} {words : List (Slice × List Redir)} {file : Slice}
  (hredirs : redirs ++ words.flatMap (·.2) = [⟨.append, file⟩])

include hredirs

/-- The only simple command. -/
theorem commands_simple (pos : Pos) :
    (Deriv.simple redirs words).commands pos [] [] =
      [⟨pos ++ [.redir], words.map (·.1), [], [⟨.append, file⟩]⟩] := by
  rw [Deriv.commands, hredirs]
  rfl

theorem commands_last (pos : Pos) :
    (Deriv.lineEnd (.pipeEnd (.simple redirs words)) 0).commands pos [] [] =
      [⟨pos ++ [.redir], words.map (·.1), [], [⟨.append, file⟩]⟩] := by
  show (Deriv.simple redirs words).commands (pos ++ []) [] [] = _
  rw [List.append_nil, commands_simple hredirs]

theorem commands_more (rest : Deriv .line) (pos : Pos) :
    (Deriv.lineMore (.pipeEnd (.simple redirs words)) 0 rest).commands pos [] [] =
      ⟨pos ++ [.listL] ++ [.redir], words.map (·.1), [], [⟨.append, file⟩]⟩ ::
        rest.commands (pos ++ [.listR]) [] [] := by
  show (Deriv.simple redirs words).commands (pos ++ [.listL]) [] [] ++ _ = _
  rw [commands_simple hredirs, List.singleton_append]

theorem tree_keeps {targets : List Target} {pos : Pos}
    (htarget : ⟨pos ++ [.redir], file.start⟩ ∈ targets) (input output : Option Desc) :
    (Deriv.simple redirs words).tree.Keeps (appendPlan targets) pos input output := by
  refine ⟨Deriv.tree_wired _, ?_, ?_⟩
  · rw [Deriv.tree, hredirs]
    exact fun _ => ⟨_, htarget, rfl, rfl⟩
  · rw [Deriv.tree, hredirs]
    exact ⟨⟨htarget, rfl⟩, trivial⟩

theorem mem_yield_append : .word file ∈ (Deriv.simple redirs words).yield := by
  have hmem : (⟨.append, file⟩ : Redir) ∈ redirs ++ words.flatMap (·.2) := by simp [hredirs]
  obtain hmem | hmem := List.mem_append.mp hmem
  · exact List.mem_append_left _ (mem_redirsYield hmem)
  · obtain ⟨pair, hpair, hmem⟩ := List.mem_flatMap.mp hmem
    exact List.mem_append_right _ (List.mem_flatMap.mpr
      ⟨pair, hpair, List.mem_cons_of_mem _ (mem_redirsYield hmem)⟩)

end One

namespace Line.Appends

variable {line : Line} {name : List Byte} {phrase : Deriv .line}

/-- What the command of a line is planned to do. -/
theorem keeps (happends : line.Appends name phrase) {targets : List Target} {pos : Pos}
    (htargets : ∀ command ∈ phrase.commands pos [] [], command.target ∈ targets)
    (input output : Option Desc) : phrase.tree.Keeps (appendPlan targets) pos input output := by
  induction happends generalizing pos input output with
  | last hredirs hname =>
      rw [commands_last hredirs] at htargets
      exact tree_keeps hredirs (htargets _ List.mem_cons_self) input output
  | more hredirs hname hrest ih =>
      rw [commands_more hredirs, List.forall_mem_cons] at htargets
      have hfirst := tree_keeps hredirs htargets.1 input output
      have hlater := ih htargets.2 input output
      exact ⟨⟨hfirst.wired, hlater.wired⟩, ⟨hfirst.starts, hlater.starts⟩,
        hfirst.opens, hlater.opens⟩

theorem isPrefix (happends : line.Appends name phrase) (pos : Pos) :
    ∀ command ∈ phrase.commands pos [] [], pos <+: command.node := by
  induction happends generalizing pos with
  | last hredirs hname =>
      rw [commands_last hredirs]
      simp
  | more hredirs hname hrest ih =>
      rw [commands_more hredirs, List.forall_mem_cons, List.append_assoc]
      refine ⟨List.prefix_append _ _, fun command hcommand => ?_⟩
      exact (List.prefix_append _ _).trans (ih _ command hcommand)

/-- The programs run one after the other. -/
theorem ordered (happends : line.Appends name phrase) (pos : Pos) :
    (phrase.commands pos [] []).Pairwise fun first second => Before first.node second.node := by
  induction happends generalizing pos with
  | last hredirs hname =>
      rw [commands_last hredirs]
      exact List.pairwise_singleton _ _
  | more hredirs hname hrest ih =>
      rw [commands_more hredirs, List.pairwise_cons]
      exact ⟨fun command hcommand => ⟨pos, (FgUnder.refl _).snoc (by decide),
        hrest.isPrefix _ command hcommand⟩, ih _⟩

/-- Every command has its own file name in the line. -/
theorem files (happends : line.Appends name phrase) (pos : Pos) :
    ∃ files : List Slice,
      (phrase.commands pos [] []).map (fun command => command.target.path) =
        files.map (·.start) ∧
      (files.map Token.word).Sublist phrase.yield := by
  induction happends generalizing pos with
  | @last redirs words file hredirs hname =>
      refine ⟨[file], by rw [commands_last hredirs]; rfl, ?_⟩
      exact List.singleton_sublist.mpr (List.mem_append_left _ (mem_yield_append hredirs))
  | @more redirs words file rest hredirs hname hrest ih =>
      obtain ⟨files, hpaths, hsublist⟩ := ih (pos ++ [.listR])
      refine ⟨file :: files, ?_, ?_⟩
      · rw [commands_more hredirs, List.map_cons, hpaths]
        rfl
      · have hfirst : [Token.word file].Sublist ((Deriv.simple redirs words).yield ++ []) :=
          List.singleton_sublist.mpr (List.mem_append_left _ (mem_yield_append hredirs))
        exact hfirst.append (hsublist.cons _)

theorem outs (happends : line.Appends name phrase) (pos : Pos) :
    ∀ command ∈ phrase.commands pos [] [],
      ∃ file, command.outs = [⟨.append, file⟩] ∧ line.slice file = name := by
  induction happends generalizing pos with
  | last hredirs hname =>
      rw [commands_last hredirs, List.forall_mem_singleton]
      exact ⟨_, rfl, hname⟩
  | more hredirs hname hrest ih =>
      rw [commands_more hredirs, List.forall_mem_cons]
      exact ⟨⟨_, rfl, hname⟩, ih _⟩

theorem targets (happends : line.Appends name phrase) (hderives : line.Derives phrase) :
    Targets (phrase.tree.nulterminate (line.text ++ [0])) name
      ((phrase.commands [] [] []).map Command.target) where
  ordered := List.pairwise_map.mpr (happends.ordered [])
  paths := by
    obtain ⟨files, hpaths, hsublist⟩ := happends.files []
    rw [List.map_map, Function.comp_def, hpaths]
    rw [hderives.yield] at hsublist
    have hincreasing := List.pairwise_map.mp ((tokens_increasing 0 line.text).sublist hsublist)
    exact List.pairwise_map.mpr (hincreasing.imp fun hlt => (hlt _ _ rfl rfl).ne)
  named := by
    intro target htarget
    obtain ⟨command, hcommand, rfl⟩ := List.mem_map.mp htarget
    obtain ⟨file, houts, hname⟩ := happends.outs [] command hcommand
    have hspelled := (hderives.spelled_redirs command hcommand).2
    rw [houts, List.forall_mem_singleton] at hspelled
    rw [Command.target, houts, ← hname]
    exact hspelled.same

end Line.Appends

/-- When `p1 >> f; ...; pk >> f` runs, at any time, and so in the end, the outputs
lie over the old content of `f` one after the other.  They come behind it, each
behind the one before, exactly if at most one of them and the old content is not
empty. -/
theorem append_iff (line : Line) (fuel : ℕ) (tree : Cmd) (text : List Byte)
    (hparse : parsecmd fuel line = .ok (tree, text)) (phrase : Deriv .line)
    (hyield : phrase.yield = line.tokens) (name : List Byte)
    (happends : line.Appends name phrase) (stdin stdout stderr : ℕ)
    (content : List Byte → List Byte) (disk : Disk)
    (hreach : (diskMachine text tree (.outer stdin) (.outer stdout) (.outer stderr)
      content).Reachable disk) :
    let outs := (phrase.commands [] [] []).map fun command => disk.written command.node
    disk.content name = outs.foldl overlay (content name) ∧
      (disk.content name = content name ++ outs.flatten ↔
        (content name :: outs).Pairwise fun left right => left = [] ∨ right = []) := by
  obtain ⟨phrase', hderives, rfl, rfl⟩ := derives_of_parsecmd hparse
  obtain rfl : phrase' = phrase := Deriv.unique_of_yield (hderives.yield.trans hyield.symm)
  have hsound : disk.Sound name (content name) ((phrase'.commands [] [] []).map Command.target) :=
    sound_of_reachable (happends.targets hderives)
      (happends.keeps (fun _ => List.mem_map_of_mem) _ _) hreach
  have hcontent := hsound.content
  rw [List.map_map] at hcontent
  refine ⟨hcontent, ?_⟩
  rw [hcontent]
  exact foldl_overlay_eq_iff _ _

/-- `a >>f; b >>f` -/
def appendLine : Line where
  text := bytes "a >>f; b >>f\n"
  noNul := by decide

def appendPhrase : Deriv .line :=
  .lineMore (.pipeEnd (.simple [] [(⟨0, 1⟩, [⟨.append, ⟨4, 5⟩⟩])])) 0
    (.lineEnd (.pipeEnd (.simple [] [(⟨7, 8⟩, [⟨.append, ⟨11, 12⟩⟩])])) 0)

theorem appendLine_derives : appendLine.Derives appendPhrase :=
  ⟨by decide, by simp [appendPhrase, Deriv.FewWords], by decide⟩

theorem appendLine_appends : appendLine.Appends (bytes "f") appendPhrase :=
  .more rfl (by decide) (.last rfl (by decide))

/-- Calls of one process that succeed. -/
def calls (pid count : ℕ) : List DiskEvent := List.replicate count (.call ⟨pid, .go⟩)

/-- A program writes and ends. -/
def writes (pid : ℕ) (output : List Byte) : List DiskEvent :=
  [.write pid output, .call ⟨pid, .finish⟩]

/-- One run: `a` writes the first output and ends, then `b` writes the second. -/
def appendEvents (first second : List Byte) : List DiskEvent :=
  calls 0 1 ++ calls 1 5 ++ writes 1 first ++
    .call ⟨0, .reap 1⟩ :: (calls 0 5 ++ writes 0 second)

/-- A file system with `old` in the file `f`. -/
def onlyF (old : List Byte) : List Byte → List Byte :=
  fun name => if name = bytes "f" then old else []

theorem exists_appended (old first second new : List Byte)
    (hreplay : ((appendEvents first second).foldlM
      (Disk.step (appendPhrase.tree.nulterminate (appendLine.text ++ [0])))
      (Disk.start appendPhrase.tree (.outer 0) (.outer 1) (.outer 2) (onlyF old))).any
        (fun disk => (∀ proc ∈ disk.world.procs, proc.Ended) ∧
          (appendPhrase.commands [] [] []).map (fun command => disk.written command.node) =
            [first, second] ∧ disk.content (bytes "f") = new) = true) :
    ∃ disk, (diskMachine (appendPhrase.tree.nulterminate (appendLine.text ++ [0]))
        appendPhrase.tree (.outer 0) (.outer 1) (.outer 2) (onlyF old)).Reachable disk ∧
      (∀ proc ∈ disk.world.procs, proc.Ended) ∧
      (appendPhrase.commands [] [] []).map (fun command => disk.written command.node) =
        [first, second] ∧ disk.content (bytes "f") = new := by
  obtain ⟨disk, hdisk, hdecide⟩ := (Option.any_eq_true _ _).mp hreplay
  refine ⟨disk, ⟨_, _, rfl, (System.run_of_foldlM _ hdisk).restrict ?_⟩,
    of_decide_eq_true hdecide⟩
  simp [appendEvents, calls, writes, DiskEvent.Forks]

/-- The file is empty and only `b` writes. -/
theorem append_empty :
    ∃ text disk, parsecmd 64 appendLine = .ok (appendPhrase.tree, text) ∧
      (diskMachine text appendPhrase.tree (.outer 0) (.outer 1) (.outer 2)
        (onlyF [])).Reachable disk ∧
      (∀ proc ∈ disk.world.procs, proc.Ended) ∧ disk.content (bytes "f") = bytes "z" := by
  have hparse : parsecmd 64 appendLine = .ok (appendPhrase.tree, _) :=
    parsecmd_of_derives (by decide) appendLine_derives
  obtain ⟨disk, hreach, hended, houts, -⟩ :=
    exists_appended [] [] (bytes "z") (bytes "z") (by decide +kernel)
  refine ⟨_, disk, hparse, hreach, hended, ?_⟩
  have happend := (append_iff appendLine 64 _ _ hparse appendPhrase appendLine_derives.yield
    (bytes "f") appendLine_appends 0 1 2 (onlyF []) disk hreach).2
  rw [houts] at happend
  exact happend.mpr (by decide)

/-- Each program lays its output over what is there. -/
theorem append_overwrites :
    ∃ text disk, parsecmd 64 appendLine = .ok (appendPhrase.tree, text) ∧
      (diskMachine text appendPhrase.tree (.outer 0) (.outer 1) (.outer 2)
        (onlyF (bytes "xyz"))).Reachable disk ∧
      (∀ proc ∈ disk.world.procs, proc.Ended) ∧
      (appendPhrase.commands [] [] []).map (fun command => disk.written command.node) =
        [bytes "12", bytes "3"] ∧
      disk.content (bytes "f") = bytes "32z" ∧
      disk.content (bytes "f") ≠ bytes "xyz" ++ [bytes "12", bytes "3"].flatten := by
  obtain ⟨disk, hreach, hended, houts, hcontent⟩ :=
    exists_appended (bytes "xyz") (bytes "12") (bytes "3") (bytes "32z") (by decide +kernel)
  refine ⟨_, disk, parsecmd_of_derives (by decide) appendLine_derives, hreach, hended, houts,
    hcontent, ?_⟩
  rw [hcontent]
  decide

end JyyOS.Shell
