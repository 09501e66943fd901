import JyyOS.Core.ListSum
import JyyOS.Shell.ParserExact
import JyyOS.Shell.Process

/-!
# `runcmd` wires descriptors as the command tree says

`wire` says which programs a command denotes and what their descriptors 0 and
1 are.  A walk through the code that is left of a process says which programs
it and its future children will still start.  What all processes will still
start and what has been started add up to `wire` in every reachable world.
-/

namespace JyyOS.Shell

open Transition

/-! ## The denotation of a command -/

/-- A program, its node and what its descriptors 0 and 1 are bound to. -/
structure Program where
  node : Pos
  argv : Slots
  input : Option Desc
  output : Option Desc

/-- The programs of the command at a node; `fresh` names the pipe of each PIPE
node. -/
def wire (fresh : Pos → ℕ) : Pos → Cmd → Option Desc → Option Desc → Multiset Program
  | pos, .exec argv _, input, output =>
      if (argv 0).isNone then 0 else {⟨pos, argv, input, output⟩}
  | pos, .redir cmd file _ mode fd, input, output =>
      if fd = 0 then wire fresh (pos ++ [.redir]) cmd (some (.file file mode)) output
      else wire fresh (pos ++ [.redir]) cmd input (some (.file file mode))
  | pos, .pipe left right, input, output =>
      wire fresh (pos ++ [.pipeL]) left input (some (.writeEnd (fresh pos))) +
        wire fresh (pos ++ [.pipeR]) right (some (.readEnd (fresh pos))) output
  | pos, .list left right, input, output =>
      wire fresh (pos ++ [.listL]) left input output +
        wire fresh (pos ++ [.listR]) right input output
  | pos, .back cmd, input, output => wire fresh (pos ++ [.back]) cmd input output

/-- Every redirection is one of descriptor 0 or 1. -/
def Cmd.Wired : Cmd → Prop
  | .exec _ _ => True
  | .redir cmd _ _ _ fd => (fd = 0 ∨ fd = 1) ∧ cmd.Wired
  | .pipe left right => left.Wired ∧ right.Wired
  | .list left right => left.Wired ∧ right.Wired
  | .back cmd => cmd.Wired

theorem Redir.wrap_wired {cmd : Cmd} (hcmd : cmd.Wired) (redir : Redir) :
    (redir.wrap cmd).Wired := by
  obtain ⟨op, file⟩ := redir
  cases op with
  | input => exact ⟨.inl rfl, hcmd⟩
  | output => exact ⟨.inr rfl, hcmd⟩
  | append => exact ⟨.inr rfl, hcmd⟩

theorem wraps_wired (redirs : List Redir) {cmd : Cmd} (hcmd : cmd.Wired) :
    (redirs.foldl Redir.wrap cmd).Wired := by
  induction redirs generalizing cmd with
  | nil => exact hcmd
  | cons redir redirs ih => exact ih (Redir.wrap_wired hcmd redir)

theorem backs_wired (amps : ℕ) {cmd : Cmd} (hcmd : cmd.Wired) :
    (Cmd.back^[amps] cmd).Wired := by
  induction amps generalizing cmd with
  | zero => exact hcmd
  | succ amps ih => exact ih hcmd

theorem Deriv.tree_wired {symbol : Nonterminal} (phrase : Deriv symbol) :
    phrase.tree.Wired := by
  induction phrase with
  | lineEnd pipe amps ih => exact backs_wired amps ih
  | lineMore pipe amps line ihPipe ihLine => exact ⟨backs_wired amps ihPipe, ihLine⟩
  | pipeEnd exec ih => exact ih
  | pipeMore exec pipe ihExec ihPipe => exact ⟨ihExec, ihPipe⟩
  | block line redirs ih => exact wraps_wired redirs ih
  | simple redirs words => exact wraps_wired _ trivial

/-- What the parser hands to `runcmd` redirects only the descriptors 0 and 1. -/
theorem parsecmd_wired {line : Line} {fuel : ℕ} {tree : Cmd} {text : List Byte}
    (hparse : parsecmd fuel line = .ok (tree, text)) : tree.Wired := by
  obtain ⟨phrase, -, rfl, -⟩ := derives_of_parsecmd hparse
  exact phrase.tree_wired

/-! ## Tallies -/

/-- What a program and a pipe count for. -/
structure Tally (M : Type*) where
  exec : Program → M
  pipe : Pos → M

section Tally

variable {M : Type*} [AddCommMonoid M]

namespace Tally

/-- All that a command counts for. -/
def denote (tally : Tally M) (fresh : Pos → ℕ) :
    Pos → Cmd → Option Desc → Option Desc → M
  | pos, .exec argv _, input, output =>
      if (argv 0).isNone then 0 else tally.exec ⟨pos, argv, input, output⟩
  | pos, .redir cmd file _ mode fd, input, output =>
      if fd = 0 then tally.denote fresh (pos ++ [.redir]) cmd (some (.file file mode)) output
      else tally.denote fresh (pos ++ [.redir]) cmd input (some (.file file mode))
  | pos, .pipe left right, input, output =>
      tally.pipe pos +
        (tally.denote fresh (pos ++ [.pipeL]) left input (some (.writeEnd (fresh pos))) +
          tally.denote fresh (pos ++ [.pipeR]) right (some (.readEnd (fresh pos))) output)
  | pos, .list left right, input, output =>
      tally.denote fresh (pos ++ [.listL]) left input output +
        tally.denote fresh (pos ++ [.listR]) right input output
  | pos, .back cmd, input, output => tally.denote fresh (pos ++ [.back]) cmd input output

/-- All that code will count for when its system calls succeed. -/
def walk (tally : Tally M) (fresh : Pos → ℕ) (pos : Pos) : Code → ℕ × ℕ → Fds → M
  | .exit _ _, _, _ => 0
  | .execve argv _, _, fds => tally.exec ⟨pos, argv, fds.get 0, fds.get 1⟩
  | .print next, p, fds => tally.walk fresh pos next p fds
  | .close fd next, p, fds => tally.walk fresh pos next p (fds.close (fd.value p))
  | .open path mode _ opened, p, fds =>
      tally.walk fresh pos opened p (fds.alloc (.file path mode))
  | .pipe _ made, _, fds =>
      let first := fds.alloc (.readEnd (fresh pos))
      tally.pipe pos +
        tally.walk fresh pos made (fds.lowest, first.lowest)
          (first.alloc (.writeEnd (fresh pos)))
  | .dup fd next, p, fds => tally.walk fresh pos next p (fds.dup (fd.value p))
  | .fork _ child parent, p, fds =>
      tally.walk fresh pos child p fds + tally.walk fresh pos parent p fds
  | .wait next, p, fds => tally.walk fresh pos next p fds
  | .call edge cmd _, _, fds =>
      tally.denote fresh (pos ++ [edge]) cmd (fds.get 0) (fds.get 1)
  | .done, _, _ => 0

end Tally

namespace Code

/-- Wherever the code gets to `execve` or to another `runcmd`, exactly the
standard descriptors are open, and it never falls off its end. -/
def Tidy (error : Desc) : Code → ℕ × ℕ → Fds → Prop
  | .exit _ _, _, _ => True
  | .execve _ failed, _, fds => fds.Standard error ∧ failed.Quits
  | .print next, p, fds => next.Tidy error p fds
  | .close fd next, p, fds => next.Tidy error p (fds.close (fd.value p))
  | .open path mode _ opened, p, fds => opened.Tidy error p (fds.alloc (.file path mode))
  | .pipe _ made, _, fds => ∀ name,
      made.Tidy error (fds.lowest, (fds.alloc (.readEnd name)).lowest)
        ((fds.alloc (.readEnd name)).alloc (.writeEnd name))
  | .dup fd next, p, fds => next.Tidy error p (fds.dup (fd.value p))
  | .fork _ child parent, p, fds => child.Tidy error p fds ∧ parent.Tidy error p fds
  | .wait next, p, fds => next.Tidy error p fds
  | .call _ cmd _, _, fds => fds.Standard error ∧ cmd.Wired
  | .done, _, _ => False

theorem Quits.tidy {code : Code} (hcode : code.Quits) (error : Desc) (p : ℕ × ℕ)
    (fds : Fds) : code.Tidy error p fds := by
  induction code with
  | exit => trivial
  | print next ih => exact ih hcode
  | _ => exact hcode.elim

theorem Quits.walk {code : Code} (hcode : code.Quits) (tally : Tally M) (fresh : Pos → ℕ)
    (pos : Pos) (p : ℕ × ℕ) (fds : Fds) : tally.walk fresh pos code p fds = 0 := by
  induction code with
  | exit => rfl
  | print next ih => exact ih hcode
  | _ => exact hcode.elim

end Code

/-! ## The body of `runcmd` -/

section Runcmd

variable {error : Desc} {fds : Fds} {p : ℕ × ℕ}

theorem runcmd_tidy {cmd : Cmd} (hcmd : cmd.Wired) (hfds : fds.Standard error) :
    (runcmd cmd).Tidy error p fds := by
  obtain ⟨input, output, hget⟩ := hfds
  cases cmd with
  | exec argv eargv =>
      simp only [runcmd]
      split_ifs
      · trivial
      · exact ⟨⟨input, output, hget⟩, trivial⟩
  | redir cmd file efile mode fd =>
      obtain ⟨rfl | rfl, hsub⟩ := hcmd
      · exact ⟨⟨_, _, Fds.redirect_input hget _⟩, hsub⟩
      · exact ⟨⟨_, _, Fds.redirect_output hget _⟩, hsub⟩
  | pipe left right =>
      intro name
      obtain ⟨hlowest, hpiped⟩ := Fds.pipe_standard hget name
      rw [Fds.lowest_standard hget, hlowest]
      exact ⟨⟨⟨_, _, Fds.pipe_left hpiped⟩, hcmd.1⟩, ⟨⟨_, _, Fds.pipe_right hpiped⟩, hcmd.2⟩,
        trivial⟩
  | list left right =>
      exact ⟨⟨⟨input, output, hget⟩, hcmd.1⟩, ⟨input, output, hget⟩, hcmd.2⟩
  | back cmd => exact ⟨⟨⟨input, output, hget⟩, hcmd⟩, trivial⟩

theorem walk_runcmd {cmd : Cmd} (hcmd : cmd.Wired) (hfds : fds.Standard error)
    (tally : Tally M) (fresh : Pos → ℕ) (pos : Pos) :
    tally.walk fresh pos (runcmd cmd) p fds =
      tally.denote fresh pos cmd (fds.get 0) (fds.get 1) := by
  obtain ⟨input, output, hget⟩ := hfds
  cases cmd with
  | exec argv eargv =>
      simp only [runcmd, Tally.denote]
      split_ifs <;> rfl
  | redir cmd file efile mode fd =>
      obtain ⟨rfl | rfl, -⟩ := hcmd
      · simp [runcmd, Tally.walk, Tally.denote, FdArg.value, Fds.redirect_input hget, hget,
          Fds.standard]
      · simp [runcmd, Tally.walk, Tally.denote, FdArg.value, Fds.redirect_output hget, hget,
          Fds.standard]
  | pipe left right =>
      obtain ⟨hlowest, hpiped⟩ := Fds.pipe_standard hget (fresh pos)
      simp [runcmd, Code.assertPipe, Code.last, Tally.walk, Tally.denote, FdArg.value,
        Fds.lowest_standard hget, hlowest, Fds.pipe_left hpiped, Fds.pipe_right hpiped, hget,
        Fds.standard]
  | list left right => rfl
  | back cmd =>
      simp [runcmd, Code.last, Tally.walk, Tally.denote]

end Runcmd

/-! ## The law of conservation -/

/-- What the table of an `execve` call makes of it. -/
def Exec.program (exec : Exec) : Program :=
  ⟨exec.node, exec.argv, exec.fds.get 0, exec.fds.get 1⟩

/-- What a process and its future children still count for. -/
def Tally.pending (tally : Tally M) (fresh : Pos → ℕ) (proc : Proc) : M :=
  match proc.status, proc.frames with
  | .running, frame :: _ => tally.walk fresh frame.pos frame.code frame.p proc.fds
  | _, _ => 0

/-- All that is pending and all that is done. -/
def Tally.sum (tally : Tally M) (fresh : Pos → ℕ) (world : World) : M :=
  ListSum.total (tally.pending fresh) world.procs +
    (ListSum.total (tally.exec ∘ Exec.program) world.execs +
      ListSum.total tally.pipe world.pipes)

/-- The innermost activation of a process inside `runcmd` is tidy. -/
def Proc.Tidy (error : Desc) (proc : Proc) : Prop :=
  ∀ frame callers, proc.status = .running → proc.frames = frame :: callers →
    frame.code.Tidy error frame.p proc.fds

theorem Proc.tidy_of_frame {error : Desc} {proc : Proc} {frame : Frame}
    {callers : List Frame} (hframes : proc.frames = frame :: callers)
    (htidy : frame.code.Tidy error frame.p proc.fds) : proc.Tidy error := by
  intro top rest _ heq
  obtain ⟨rfl, -⟩ := List.cons.inj (hframes.symm.trans heq)
  exact htidy

theorem Proc.tidy_of_status {error : Desc} {proc : Proc} (hstatus : proc.status ≠ .running) :
    proc.Tidy error :=
  fun _ _ hrunning => absurd hrunning hstatus

/-- `fresh` gives each pipe made so far its name. -/
def World.Named (fresh : Pos → ℕ) (world : World) : Prop :=
  ∀ (name : ℕ) (pos : Pos), world.pipes[name]? = some pos → fresh pos = name

/-- Neither `fork` nor `pipe` nor `open` fails. -/
def Act.Succeeds (act : Act) : Prop :=
  act ≠ .forkFails ∧ act ≠ .pipeFails ∧ act ≠ .openFails

instance (act : Act) : Decidable act.Succeeds := inferInstanceAs (Decidable (_ ∧ _ ∧ _))

theorem Tally.pending_running (tally : Tally M) (fresh : Pos → ℕ) {proc : Proc}
    {frame : Frame} {callers : List Frame} (hstatus : proc.status = .running)
    (hframes : proc.frames = frame :: callers) :
    tally.pending fresh proc = tally.walk fresh frame.pos frame.code frame.p proc.fds := by
  simp [pending, hstatus, hframes]

section Quiet

variable {pipes : List Pos} {frame : Frame} {fds : Fds} {act : Act} {outcome : Outcome}
  {error : Desc}

theorem Quiet.tidy (hquiet : Quiet pipes frame fds act outcome) (hact : act.Succeeds)
    (htidy : frame.code.Tidy error frame.p fds) :
    outcome.frame.code.Tidy error outcome.frame.p outcome.fds := by
  cases hquiet with
  | print hcode => simpa [hcode, Code.Tidy] using htidy
  | close hcode => simpa [hcode, Code.Tidy] using htidy
  | dup hcode => simpa [hcode, Code.Tidy] using htidy
  | opened hcode => simpa [hcode, Code.Tidy] using htidy
  | made hcode =>
      rw [hcode] at htidy
      exact htidy _
  | executed hcode =>
      rw [hcode] at htidy
      exact htidy.2.tidy _ _ _
  | execFailed hcode =>
      rw [hcode] at htidy
      exact htidy.2.tidy _ _ _
  | openFailed => exact absurd rfl hact.2.2
  | pipeFailed => exact absurd rfl hact.2.1
  | forkFailed => exact absurd rfl hact.1

theorem Quiet.conserves (hquiet : Quiet pipes frame fds act outcome) (hact : act.Succeeds)
    (htidy : frame.code.Tidy error frame.p fds) (tally : Tally M) {fresh : Pos → ℕ}
    (hfresh : ∀ pos, outcome.pipes = [pos] → fresh pos = pipes.length) (proc : Proc)
    (callers : List Frame) :
    tally.pending fresh (proc.became callers outcome) +
        (ListSum.total (tally.exec ∘ Exec.program) outcome.execs +
          ListSum.total tally.pipe outcome.pipes) =
      tally.walk fresh frame.pos frame.code frame.p fds := by
  cases hquiet with
  | print hcode => simp [hcode, Tally.walk, Tally.pending, Proc.became]
  | close hcode => simp [hcode, Tally.walk, Tally.pending, Proc.became]
  | dup hcode => simp [hcode, Tally.walk, Tally.pending, Proc.became]
  | opened hcode => simp [hcode, Tally.walk, Tally.pending, Proc.became]
  | made hcode =>
      have hname : fresh frame.pos = pipes.length := hfresh _ rfl
      simp [hcode, Tally.walk, Tally.pending, Proc.became, hname, add_comm]
  | executed hcode =>
      simp [hcode, Tally.walk, Tally.pending, Proc.became, Exec.program]
  | execFailed hcode =>
      rw [hcode] at htidy
      simp [hcode, Tally.walk, Tally.pending, Proc.became, Exec.program,
        htidy.2.walk]
  | openFailed => exact absurd rfl hact.2.2
  | pipeFailed => exact absurd rfl hact.2.1
  | forkFailed => exact absurd rfl hact.1

end Quiet

section Moves

variable {reaper : Option ℕ} {world after : World} {pid : ℕ} {proc : Proc} {act : Act}
  {error : Desc}

theorem Moves.tidy (hmoves : Moves reaper world pid proc act after)
    (hproc : world.procs[pid]? = some proc) (hact : act.Succeeds)
    (hall : ∀ other ∈ world.procs, other.Tidy error) :
    ∀ other ∈ after.procs, other.Tidy error := by
  have hmine := hall proc (List.mem_of_getElem? hproc)
  -- only the process that moves has to be looked at
  have hset : ∀ {new : Proc}, new.Tidy error →
      ∀ other ∈ world.procs.set pid new, other.Tidy error := by
    intro new hnew other hother
    obtain hother | rfl := List.mem_or_eq_of_mem_set hother
    · exact hall other hother
    · exact hnew
  have hdie : ∀ other ∈ (world.die reaper pid proc).procs, other.Tidy error := by
    intro other hother
    obtain ⟨before, hbefore, rfl⟩ := List.mem_map.mp hother
    have htidy := hset (Proc.tidy_of_status (by simp)) before hbefore
    unfold Proc.orphan
    split_ifs
    · exact htidy
    · exact htidy
  cases hmoves with
  | quiet hstatus hframes hquiet =>
      exact hset (Proc.tidy_of_frame rfl (hquiet.tidy hact (hmine _ _ hstatus hframes)))
  | fork hstatus hframes hcode =>
      have htidy := hmine _ _ hstatus hframes
      rw [hcode] at htidy
      intro other hother
      obtain hother | hother := List.mem_append.mp hother
      · exact hset (Proc.tidy_of_frame rfl htidy.2) other hother
      · obtain rfl := List.mem_singleton.mp hother
        exact Proc.tidy_of_frame rfl htidy.1
  | reap hstatus hframes hcode hkid hparent hzombie =>
      have htidy := hmine _ _ hstatus hframes
      rw [hcode] at htidy
      intro other hother
      obtain hother | rfl := List.mem_or_eq_of_mem_set hother
      · exact hset (Proc.tidy_of_frame rfl htidy) other hother
      · exact Proc.tidy_of_status (by simp)
  | childless hstatus hframes hcode hnone =>
      have htidy := hmine _ _ hstatus hframes
      rw [hcode] at htidy
      exact hset (Proc.tidy_of_frame rfl htidy)
  | call hstatus hframes hcode =>
      have htidy := hmine _ _ hstatus hframes
      rw [hcode] at htidy
      exact hset (Proc.tidy_of_frame rfl (runcmd_tidy htidy.2 htidy.1))
  | ret hstatus hframes hcode =>
      have htidy := hmine _ _ hstatus hframes
      rw [hcode] at htidy
      exact htidy.elim
  | exit => exact hdie
  | finish => exact hdie

theorem pending_orphan (tally : Tally M) (fresh : Pos → ℕ) (other : Proc) :
    tally.pending fresh (other.orphan reaper pid) = tally.pending fresh other := by
  unfold Proc.orphan
  split_ifs
  · rfl
  · rfl

theorem Moves.conserves (hmoves : Moves reaper world pid proc act after)
    (hproc : world.procs[pid]? = some proc) (hact : act.Succeeds)
    (htidy : proc.Tidy error) (tally : Tally M) {fresh : Pos → ℕ}
    (hnamed : after.Named fresh) : tally.sum fresh after = tally.sum fresh world := by
  obtain ⟨rest, hbefore, hset⟩ := ListSum.total_split (tally.pending fresh) hproc
  have hdie : tally.pending fresh proc = 0 →
      tally.sum fresh (world.die reaper pid proc) = tally.sum fresh world := by
    intro hnothing
    simp only [Tally.sum, World.die,
      ListSum.total_map _ fun kid _ => pending_orphan tally fresh kid, hset, hbefore, hnothing]
    rfl
  have hpending : ∀ {frame callers}, proc.status = .running → proc.frames = frame :: callers →
      tally.pending fresh proc = tally.walk fresh frame.pos frame.code frame.p proc.fds :=
    fun hstatus hframes => tally.pending_running fresh hstatus hframes
  cases hmoves with
  | @quiet _ callers _ outcome hstatus hframes hquiet =>
      have hfresh : ∀ pos, outcome.pipes = [pos] → fresh pos = world.pipes.length := by
        intro pos hpos
        apply hnamed
        simp [hpos]
      have hconserves := hquiet.conserves hact (htidy _ _ hstatus hframes) tally hfresh proc
        callers
      simp only [Tally.sum, ListSum.total_append, hset, hbefore, hpending hstatus hframes,
        ← hconserves]
      abel
  | fork hstatus hframes hcode =>
      simp only [Tally.sum, ListSum.total_append, hset, hbefore, hpending hstatus hframes, hcode,
        Tally.walk, ListSum.total_cons, ListSum.total_nil]
      simp only [Tally.pending, Proc.at, hstatus]
      abel
  | @reap frame callers next child kid hstatus hframes hcode hkid hparent hzombie =>
      have hother : (world.procs.set pid (proc.at frame callers next))[child]? =
          some kid := by
        rw [List.getElem?_set_ne (ne_of_zombie hproc hstatus hkid hzombie), hkid]
      have hreaped : tally.pending fresh { kid with status := .reaped } =
          tally.pending fresh kid := by
        simp [Tally.pending, hzombie]
      simp only [Tally.sum, World.put, ListSum.total_set_eq hother hreaped, hset, hbefore,
        hpending hstatus hframes, hcode]
      simp [Tally.pending, Proc.at, hstatus, Tally.walk]
  | childless hstatus hframes hcode hnone =>
      simp only [Tally.sum, World.put, hset, hbefore, hpending hstatus hframes, hcode]
      simp [Tally.pending, Proc.at, hstatus, Tally.walk]
  | call hstatus hframes hcode =>
      have hcall := htidy _ _ hstatus hframes
      rw [hcode] at hcall
      simp only [Tally.sum, World.put, hset, hbefore, hpending hstatus hframes, hcode]
      simp [Tally.pending, hstatus, Tally.walk, walk_runcmd hcall.2 hcall.1]
  | ret hstatus hframes hcode =>
      have hret := htidy _ _ hstatus hframes
      rw [hcode] at hret
      exact hret.elim
  | exit hstatus hframes hcode =>
      apply hdie
      rw [hpending hstatus hframes, hcode]
      rfl
  | finish hstatus =>
      apply hdie
      simp [Tally.pending, hstatus]

end Moves

/-! ## Whole runs -/

variable {reaper : Option ℕ} {cmd : Cmd} {input output error : Desc} {world : World}

/-- The processes of a command as long as `fork`, `pipe` and `open` succeed. -/
def smoothMachine (reaper : Option ℕ) (cmd : Cmd) (input output error : Desc) :
    System World Label :=
  (machine reaper cmd input output error).restrict fun label => label.act.Succeeds

theorem start_standard (input output error : Desc) :
    Fds.get [some input, some output, some error] = Fds.standard input output error := by
  funext fd
  match fd with
  | 0 | 1 | 2 | _ + 3 => rfl

theorem smooth_tidy (hcmd : cmd.Wired)
    (hreach : (smoothMachine reaper cmd input output error).Reachable world) :
    ∀ proc ∈ world.procs, proc.Tidy error := by
  apply System.invariant_of_step (I := fun world => ∀ proc ∈ world.procs, proc.Tidy error)
    ?_ ?_ hreach
  · rintro _ rfl proc hproc
    obtain rfl := List.mem_singleton.mp hproc
    exact Proc.tidy_of_frame rfl (runcmd_tidy hcmd ⟨_, _, start_standard _ _ _⟩)
  · intro before ⟨pid, act⟩ after _ ih hstep
    obtain ⟨proc, hproc, hmoves⟩ := moves_of_step hstep.2
    exact hmoves.tidy hproc hstep.1 ih

/-- Pipes are only added. -/
theorem Moves.pipes_grow {after : World} {pid : ℕ} {proc : Proc} {act : Act}
    (hmoves : Moves reaper world pid proc act after) : world.pipes <+: after.pipes := by
  cases hmoves with
  | quiet => exact List.prefix_append _ _
  | _ => exact List.prefix_rfl

theorem World.Named.earlier {fresh : Pos → ℕ} {before after : World}
    (hnamed : after.Named fresh) (hgrow : before.pipes <+: after.pipes) :
    before.Named fresh := by
  intro name pos hpos
  obtain ⟨more, hmore⟩ := hgrow
  apply hnamed
  rw [← hmore, List.getElem?_append_left (List.getElem?_eq_some_iff.mp hpos).1, hpos]

/-- What is pending and what is done make up the whole command. -/
theorem smooth_sum (hcmd : cmd.Wired) (tally : Tally M) (fresh : Pos → ℕ)
    (hreach : (smoothMachine reaper cmd input output error).Reachable world)
    (hnamed : world.Named fresh) :
    tally.sum fresh world = tally.denote fresh [] cmd (some input) (some output) := by
  revert hnamed
  apply System.invariant_of_step
    (I := fun world => world.Named fresh →
      tally.sum fresh world = tally.denote fresh [] cmd (some input) (some output))
    ?_ ?_ hreach
  · rintro _ rfl -
    simp [Tally.sum, World.start, Tally.pending, walk_runcmd hcmd ⟨_, _, start_standard _ _ _⟩,
      Fds.get]
  · intro before move after hbefore ih hstep hnamed
    obtain ⟨proc, hproc, hmoves⟩ := moves_of_step hstep.2
    have htidy := smooth_tidy hcmd hbefore proc (List.mem_of_getElem? hproc)
    rw [hmoves.conserves hproc hstep.1 htidy tally hnamed]
    exact ih (hnamed.earlier hmoves.pipes_grow)

end Tally

/-! ## Every node acts once -/

/-- All that is counted for a program or a pipe has its place at its node. -/
structure Tally.Placed {Item : Type*} (tally : Tally (Multiset Item)) (place : Item → Pos) :
    Prop where
  exec : ∀ program, ∀ item ∈ tally.exec program, place item = program.node
  pipe : ∀ pos, ∀ item ∈ tally.pipe pos, place item = pos

theorem Tally.Placed.under {Item : Type*} {tally : Tally (Multiset Item)} {place : Item → Pos}
    (hplaced : tally.Placed place) (fresh : Pos → ℕ) (pos : Pos) (cmd : Cmd)
    (input output : Option Desc) {item : Item}
    (hitem : item ∈ tally.denote fresh pos cmd input output) : pos <+: place item := by
  induction cmd generalizing pos input output with
  | exec argv eargv =>
      simp only [Tally.denote] at hitem
      split_ifs at hitem
      · simp at hitem
      · rw [hplaced.exec _ _ hitem]
  | redir cmd file efile mode fd ih =>
      simp only [Tally.denote] at hitem
      split_ifs at hitem
      · exact (List.prefix_append _ _).trans (ih _ _ _ hitem)
      · exact (List.prefix_append _ _).trans (ih _ _ _ hitem)
  | pipe left right ihLeft ihRight =>
      simp only [Tally.denote, Multiset.mem_add] at hitem
      obtain hitem | hitem | hitem := hitem
      · rw [hplaced.pipe _ _ hitem]
      · exact (List.prefix_append _ _).trans (ihLeft _ _ _ hitem)
      · exact (List.prefix_append _ _).trans (ihRight _ _ _ hitem)
  | list left right ihLeft ihRight =>
      simp only [Tally.denote, Multiset.mem_add] at hitem
      obtain hitem | hitem := hitem
      · exact (List.prefix_append _ _).trans (ihLeft _ _ _ hitem)
      · exact (List.prefix_append _ _).trans (ihRight _ _ _ hitem)
  | back cmd ih => exact (List.prefix_append _ _).trans (ih _ _ _ hitem)

/-- Programs and pipes count for their nodes. -/
def nodeTally : Tally (Multiset Pos) where
  exec program := {program.node}
  pipe pos := {pos}

theorem nodeTally_placed : nodeTally.Placed id where
  exec _ _ hitem := Multiset.mem_singleton.mp hitem
  pipe _ _ hitem := Multiset.mem_singleton.mp hitem

theorem nodeTally_disjoint (fresh : Pos → ℕ) (pos : Pos) {left right : Edge}
    (hedges : left ≠ right) (leftCmd rightCmd : Cmd) (input output input' output' : Option Desc) :
    Disjoint (nodeTally.denote fresh (pos ++ [left]) leftCmd input output)
      (nodeTally.denote fresh (pos ++ [right]) rightCmd input' output') := by
  rw [Multiset.disjoint_left]
  intro node hleft hright
  exact hedges (edge_unique (nodeTally_placed.under _ _ _ _ _ hleft)
    (nodeTally_placed.under _ _ _ _ _ hright))

theorem nodeTally_nodup (fresh : Pos → ℕ) (pos : Pos) (cmd : Cmd)
    (input output : Option Desc) : (nodeTally.denote fresh pos cmd input output).Nodup := by
  induction cmd generalizing pos input output with
  | exec argv eargv =>
      simp only [Tally.denote]
      split_ifs
      · exact Multiset.nodup_zero
      · exact Multiset.nodup_singleton _
  | redir cmd file efile mode fd ih =>
      simp only [Tally.denote]
      split_ifs
      · exact ih _ _ _
      · exact ih _ _ _
  | pipe left right ihLeft ihRight =>
      have hbelow : ∀ (edge : Edge) (cmd : Cmd) (input output : Option Desc),
          pos ∉ nodeTally.denote fresh (pos ++ [edge]) cmd input output := by
        intro edge cmd input output hmem
        have hlength := (nodeTally_placed.under _ _ _ _ _ hmem).length_le
        simp at hlength
      have hnode : nodeTally.pipe pos = {pos} := rfl
      simp only [Tally.denote, hnode, Multiset.singleton_add, Multiset.nodup_cons,
        Multiset.mem_add, not_or]
      exact ⟨⟨hbelow _ _ _ _, hbelow _ _ _ _⟩,
        Multiset.nodup_add.mpr ⟨ihLeft _ _ _, ihRight _ _ _,
          nodeTally_disjoint _ _ (by decide) _ _ _ _ _ _⟩⟩
  | list left right ihLeft ihRight =>
      exact Multiset.nodup_add.mpr ⟨ihLeft _ _ _, ihRight _ _ _,
        nodeTally_disjoint _ _ (by decide) _ _ _ _ _ _⟩
  | back cmd ih => exact ih _ _ _

section Fresh

variable {reaper : Option ℕ} {cmd : Cmd} {input output error : Desc} {world : World}

/-- Names for all positions that agree with the pipes made so far. -/
theorem exists_named (hnodup : world.pipes.Nodup) :
    ∃ fresh : Pos → ℕ, Function.Injective fresh ∧ world.Named fresh := by
  have hedges : Countable Edge := Function.Injective.countable (f := Edge.ctorIdx) (by
    intro left right heq
    cases left <;> cases right <;> first | rfl | exact absurd heq (by decide))
  obtain ⟨code, hcode⟩ := exists_injective_nat Pos
  refine ⟨fun pos => if pos ∈ world.pipes then world.pipes.idxOf pos
    else world.pipes.length + code pos, ?_, ?_⟩
  · intro left right heq
    by_cases hleft : left ∈ world.pipes <;> by_cases hright : right ∈ world.pipes <;>
      simp only [hleft, hright, if_true, if_false] at heq
    · exact (List.idxOf_inj hleft).mp heq
    · have := List.idxOf_lt_length_of_mem hleft
      omega
    · have := List.idxOf_lt_length_of_mem hright
      omega
    · exact hcode (Nat.add_left_cancel heq)
  · intro name pos hpos
    obtain ⟨hlt, rfl⟩ := List.getElem?_eq_some_iff.mp hpos
    simp [hnodup.idxOf_getElem]

/-- A node whose pipe is pending has not made one. -/
theorem not_mem_pipes {fresh : Pos → ℕ} (hnodup : (nodeTally.sum fresh world).Nodup)
    {proc : Proc} (hproc : proc ∈ world.procs) {node : Pos}
    (hnode : node ∈ nodeTally.pending fresh proc) : node ∉ world.pipes := by
  intro hmem
  have hpending : node ∈ ListSum.total (nodeTally.pending fresh) world.procs :=
    ListSum.mem_total.mpr ⟨proc, hproc, hnode⟩
  have hmade : node ∈ ListSum.total nodeTally.pipe world.pipes :=
    ListSum.mem_total.mpr ⟨node, hmem, Multiset.mem_singleton_self node⟩
  exact Multiset.disjoint_left.mp (Multiset.nodup_add.mp hnodup).2.2 hpending
    (Multiset.mem_add.mpr (.inr hmade))

theorem Moves.pipes_nodup {after : World} {pid : ℕ} {proc : Proc} {act : Act}
    (hmoves : Moves reaper world pid proc act after) (hproc : world.procs[pid]? = some proc)
    {fresh : Pos → ℕ} (hsum : (nodeTally.sum fresh world).Nodup)
    (hnodup : world.pipes.Nodup) : after.pipes.Nodup := by
  cases hmoves with
  | quiet hstatus hframes hquiet =>
      cases hquiet with
      | made hcode =>
          simp only [← List.concat_eq_append]
          apply List.Nodup.concat _ hnodup
          apply not_mem_pipes hsum (List.mem_of_getElem? hproc)
          rw [nodeTally.pending_running fresh hstatus hframes, hcode]
          exact Multiset.mem_add.mpr (.inl (Multiset.mem_singleton_self _))
      | _ => simpa using hnodup
  | _ => exact hnodup

theorem smooth_pipes_nodup (hcmd : cmd.Wired)
    (hreach : (smoothMachine reaper cmd input output error).Reachable world) :
    world.pipes.Nodup := by
  apply System.invariant_of_step (I := fun world => world.pipes.Nodup) ?_ ?_ hreach
  · rintro _ rfl
    exact List.nodup_nil
  · intro before ⟨pid, act⟩ after hbefore ih hstep
    obtain ⟨fresh, -, hnamed⟩ := exists_named ih
    have hnodup := nodeTally_nodup fresh [] cmd (some input) (some output)
    rw [← smooth_sum hcmd nodeTally fresh hbefore hnamed] at hnodup
    obtain ⟨proc, hproc, hmoves⟩ := moves_of_step hstep.2
    exact hmoves.pipes_nodup hproc hnodup ih

/-! ## The programs -/

/-- Each program counts for itself. -/
def programTally : Tally (Multiset Program) where
  exec program := {program}
  pipe _ := 0

theorem programTally_denote (fresh : Pos → ℕ) (pos : Pos) (cmd : Cmd)
    (input output : Option Desc) :
    programTally.denote fresh pos cmd input output = wire fresh pos cmd input output := by
  induction cmd generalizing pos input output with
  | exec argv eargv => rfl
  | redir cmd file efile mode fd ih => simp only [Tally.denote, wire, ih]
  | pipe left right ihLeft ihRight =>
      have hpipe : programTally.pipe pos = 0 := rfl
      simp only [Tally.denote, wire, ihLeft, ihRight, hpipe, zero_add]
  | list left right ihLeft ihRight => simp only [Tally.denote, wire, ihLeft, ihRight]
  | back cmd ih => simp only [Tally.denote, wire, ih]

/-- The programs that have been passed to `execve`. -/
def World.started (world : World) : Multiset Program :=
  (world.execs.map Exec.program : List Program)

theorem pending_of_ended {fresh : Pos → ℕ} (hended : ∀ proc ∈ world.procs, proc.Ended) :
    ListSum.total (programTally.pending fresh) world.procs = 0 := by
  apply ListSum.total_eq_zero
  intro proc hproc
  obtain hstatus | hstatus := hended proc hproc
  · simp [Tally.pending, hstatus]
  · simp [Tally.pending, hstatus]

theorem smooth_programs (hcmd : cmd.Wired) {fresh : Pos → ℕ}
    (hreach : (smoothMachine reaper cmd input output error).Reachable world)
    (hnamed : world.Named fresh) :
    ListSum.total (programTally.pending fresh) world.procs + world.started =
      wire fresh [] cmd (some input) (some output) := by
  rw [← programTally_denote, ← smooth_sum hcmd programTally fresh hreach hnamed]
  have hexecs : ListSum.total (programTally.exec ∘ Exec.program) world.execs = world.started :=
    ListSum.total_singleton _
  have hpipes : ListSum.total programTally.pipe world.pipes = 0 :=
    ListSum.total_eq_zero fun _ _ => rfl
  rw [Tally.sum, hexecs, hpipes, add_zero]

theorem Moves.execs_standard {after : World} {pid : ℕ} {proc : Proc} {act : Act}
    (hmoves : Moves reaper world pid proc act after) (htidy : proc.Tidy error)
    (hall : ∀ exec ∈ world.execs, exec.fds.Standard error) :
    ∀ exec ∈ after.execs, exec.fds.Standard error := by
  cases hmoves with
  | quiet hstatus hframes hquiet =>
      intro exec hexec
      obtain hexec | hexec := List.mem_append.mp hexec
      · exact hall exec hexec
      · have hcode := htidy _ _ hstatus hframes
        cases hquiet with
        | executed hexecve | execFailed hexecve =>
            obtain rfl := List.mem_singleton.mp hexec
            rw [hexecve] at hcode
            exact hcode.1
        | _ => cases hexec
  | _ => exact hall

theorem smooth_execs_standard (hcmd : cmd.Wired)
    (hreach : (smoothMachine reaper cmd input output error).Reachable world) :
    ∀ exec ∈ world.execs, exec.fds.Standard error := by
  apply System.invariant_of_step
    (I := fun world => ∀ exec ∈ world.execs, exec.fds.Standard error) ?_ ?_ hreach
  · rintro _ rfl exec hexec
    cases hexec
  · intro before ⟨pid, act⟩ after hbefore ih hstep
    obtain ⟨proc, hproc, hmoves⟩ := moves_of_step hstep.2
    exact hmoves.execs_standard (smooth_tidy hcmd hbefore proc (List.mem_of_getElem? hproc)) ih

end Fresh

/-- In every interleaving, what reaches `execve` has exactly the descriptors 0,
1 and 2 open, with 2 as it was and 0 and 1 as `wire` says; and once all
processes have ended, just the programs of `wire` have been started. -/
theorem runcmd_wires (reaper : Option ℕ) (cmd : Cmd) (hcmd : cmd.Wired)
    (stdin stdout stderr : ℕ) (world : World)
    (hreach : (smoothMachine reaper cmd (.outer stdin) (.outer stdout)
      (.outer stderr)).Reachable world) :
    (∀ exec ∈ world.execs, (∀ fd, (exec.fds.get fd).isSome ↔ fd < 3) ∧
      exec.fds.get 2 = some (.outer stderr)) ∧
    ∃ fresh : Pos → ℕ, Function.Injective fresh ∧
      world.started ≤
        wire fresh [] cmd (some (.outer stdin)) (some (.outer stdout)) ∧
      ((∀ proc ∈ world.procs, proc.Ended) →
        world.started =
          wire fresh [] cmd (some (.outer stdin)) (some (.outer stdout))) := by
  obtain ⟨fresh, hinjective, hnamed⟩ := exists_named (smooth_pipes_nodup hcmd hreach)
  have hprograms := smooth_programs hcmd hreach hnamed
  refine ⟨fun exec hexec => ?_, fresh, hinjective, ?_, fun hended => ?_⟩
  · obtain ⟨input, output, hget⟩ := smooth_execs_standard hcmd hreach exec hexec
    rw [hget]
    refine ⟨fun fd => ?_, rfl⟩
    match fd with
    | 0 | 1 | 2 => simp [Fds.standard]
    | _ + 3 => simp [Fds.standard]
  · rw [← hprograms]
    exact Multiset.le_add_left _ _
  · rw [← hprograms, pending_of_ended hended, zero_add]

/-- The same of a line that the parser accepts: no hypothesis on its redirections is
left. -/
theorem line_started {line : Line} {fuel : ℕ} {tree : Cmd} {text : List Byte}
    (hparse : parsecmd fuel line = .ok (tree, text)) {reaper : Option ℕ}
    {stdin stdout stderr : ℕ} {world : World}
    (hreach : (smoothMachine reaper tree (.outer stdin) (.outer stdout)
      (.outer stderr)).Reachable world) (hended : ∀ proc ∈ world.procs, proc.Ended) :
    ∃ fresh : Pos → ℕ, Function.Injective fresh ∧
      world.started =
        wire fresh [] tree (some (.outer stdin)) (some (.outer stdout)) := by
  have hwired := parsecmd_wired hparse
  obtain ⟨fresh, hinjective, hnamed⟩ := exists_named (smooth_pipes_nodup hwired hreach)
  have hprograms := smooth_programs hwired hreach hnamed
  exact ⟨fresh, hinjective, by rw [← hprograms, pending_of_ended hended, zero_add]⟩

/-- `a <f | b` -/
def sampleCmd : Cmd :=
  .pipe
    (.redir (.exec (slotsOf 0) (slotsOf 1)) 3 4 Line.O_RDONLY 0)
    (.exec (slotsOf 7) (slotsOf 8))
where
  slotsOf (pointer : ℕ) : Slots := fun i => if i = 0 then some pointer else none

/-- The right side of the pipe runs first. -/
def sampleLabels : List Label :=
  (List.replicate 5 ⟨0, .go⟩ ++ List.replicate 6 ⟨2, .go⟩ ++ [⟨2, .finish⟩, ⟨0, .reap 2⟩]) ++
    (List.replicate 9 ⟨1, .go⟩ ++ [⟨1, .finish⟩, ⟨0, .reap 1⟩, ⟨0, .go⟩])

theorem runcmd_wires_sample :
    ∃ world, (smoothMachine none sampleCmd (.outer 0) (.outer 1) (.outer 2)).Reachable world ∧
      (∀ proc ∈ world.procs, proc.Ended) ∧
      ∃ fresh, world.started =
        wire fresh [] sampleCmd (some (.outer 0)) (some (.outer 1)) := by
  have hended : (sampleLabels.foldlM (World.step none)
      (World.start sampleCmd (.outer 0) (.outer 1) (.outer 2))).any
        (fun world => decide (∀ proc ∈ world.procs, proc.Ended)) = true := by decide +kernel
  obtain ⟨world, hworld, hall⟩ := (Option.any_eq_true _ _).mp hended
  have hrun : (machine none sampleCmd (.outer 0) (.outer 1) (.outer 2)).Run _ sampleLabels
      world := System.run_of_foldlM _ hworld
  have hreach : (smoothMachine none sampleCmd (.outer 0) (.outer 1) (.outer 2)).Reachable
      world :=
    ⟨_, _, rfl, hrun.restrict (by decide)⟩
  obtain ⟨-, fresh, -, -, hwire⟩ := runcmd_wires none sampleCmd (by simp [sampleCmd, Cmd.Wired])
    0 1 2 world hreach
  exact ⟨world, hreach, of_decide_eq_true hall, fresh, hwire (of_decide_eq_true hall)⟩

end JyyOS.Shell
