import JyyOS.Shell.Orderly
import JyyOS.Shell.Wiring

/-!
# What the processes of a command may do

A plan says which programs may be started, with which descriptors, and which
files may be opened.  A command keeps to it if its nodes do, and then so does
every run, whatever calls fail in it.
-/

namespace JyyOS.Shell

open Transition

/-! ## Plans -/

/-- What the processes of a command may do: the programs that they start, and the
files that they open at a node, with the mode. -/
structure Plan where
  program : Program → Prop
  file : Pos → ℕ → ℕ → Prop

/-- Every program of the command at a node satisfies `P`, whatever its pipes are
called. -/
def Cmd.Starts (P : Program → Prop) : Pos → Cmd → Option Desc → Option Desc → Prop
  | pos, .exec argv _, input, output => (argv 0).isSome → P ⟨pos, argv, input, output⟩
  | pos, .redir cmd file _ mode fd, input, output =>
      if fd = 0 then cmd.Starts P (pos ++ [.redir]) (some (.file file mode)) output
      else cmd.Starts P (pos ++ [.redir]) input (some (.file file mode))
  | pos, .pipe left right, input, output => ∀ name,
      left.Starts P (pos ++ [.pipeL]) input (some (.writeEnd name)) ∧
        right.Starts P (pos ++ [.pipeR]) (some (.readEnd name)) output
  | pos, .list left right, input, output =>
      left.Starts P (pos ++ [.listL]) input output ∧
        right.Starts P (pos ++ [.listR]) input output
  | pos, .back cmd, input, output => cmd.Starts P (pos ++ [.back]) input output

/-- Every file of a redirection under a node satisfies `Q`. -/
def Cmd.Opens (Q : Pos → ℕ → ℕ → Prop) : Pos → Cmd → Prop
  | _, .exec _ _ => True
  | pos, .redir cmd file _ mode _ => Q pos file mode ∧ cmd.Opens Q (pos ++ [.redir])
  | pos, .pipe left right =>
      left.Opens Q (pos ++ [.pipeL]) ∧ right.Opens Q (pos ++ [.pipeR])
  | pos, .list left right =>
      left.Opens Q (pos ++ [.listL]) ∧ right.Opens Q (pos ++ [.listR])
  | pos, .back cmd => cmd.Opens Q (pos ++ [.back])

/-- The command at a node keeps to the plan. -/
structure Cmd.Keeps (plan : Plan) (pos : Pos) (cmd : Cmd) (input output : Option Desc) :
    Prop where
  wired : cmd.Wired
  starts : cmd.Starts plan.program pos input output
  opens : cmd.Opens plan.file pos

/-- What the code may still do is in the plan; where a call fails, the code quits
or goes on without it. -/
def Code.Keeps (plan : Plan) (error : Desc) (pos : Pos) : Code → ℕ × ℕ → Fds → Prop
  | .exit _ _, _, _ => True
  | .execve argv failed, _, fds =>
      fds.Standard error ∧ plan.program ⟨pos, argv, fds.get 0, fds.get 1⟩ ∧ failed.Quits
  | .print next, p, fds => next.Keeps plan error pos p fds
  | .close fd next, p, fds => next.Keeps plan error pos p (fds.close (fd.value p))
  | .open path mode failed opened, p, fds =>
      failed.Quits ∧ plan.file pos path mode ∧ opened.Reaches pos (pos ++ [.redir]) ∧
        opened.Keeps plan error pos p (fds.alloc (.file path mode))
  | .pipe failed made, _, fds => failed.Quits ∧ ∀ name,
      made.Keeps plan error pos (fds.lowest, (fds.alloc (.readEnd name)).lowest)
        ((fds.alloc (.readEnd name)).alloc (.writeEnd name))
  | .dup fd next, p, fds => next.Keeps plan error pos p (fds.dup (fd.value p))
  | .fork _ child parent, p, fds =>
      child.Keeps plan error pos p fds ∧ parent.Keeps plan error pos p fds
  | .wait next, p, fds => next.Keeps plan error pos p fds
  | .call edge cmd _, _, fds =>
      fds.Standard error ∧ cmd.Keeps plan (pos ++ [edge]) (fds.get 0) (fds.get 1)
  | .done, _, _ => False

section Keeps

variable {plan : Plan} {error : Desc} {fds : Fds} {p : ℕ × ℕ} {pos : Pos}

theorem Cmd.opens_of_forall {Q : Pos → ℕ → ℕ → Prop} (hall : ∀ pos path mode, Q pos path mode)
    (cmd : Cmd) : cmd.Opens Q pos := by
  induction cmd generalizing pos with
  | exec argv eargv => trivial
  | redir cmd file efile mode fd ih => exact ⟨hall _ _ _, ih⟩
  | pipe left right ihLeft ihRight => exact ⟨ihLeft, ihRight⟩
  | list left right ihLeft ihRight => exact ⟨ihLeft, ihRight⟩
  | back cmd ih => exact ih

theorem Code.Quits.keeps {code : Code} (hcode : code.Quits) :
    code.Keeps plan error pos p fds := by
  induction code with
  | exit => trivial
  | print next ih => exact ih hcode
  | _ => exact hcode.elim

/-- The body of `runcmd` does what the command denotes. -/
theorem runcmd_keeps {cmd : Cmd} (hfds : fds.Standard error)
    (hcmd : cmd.Keeps plan pos (fds.get 0) (fds.get 1)) :
    (runcmd cmd).Keeps plan error pos p fds := by
  obtain ⟨input, output, hget⟩ := hfds
  obtain ⟨hwired, hstarts, hopens⟩ := hcmd
  cases cmd with
  | exec argv eargv =>
      simp only [runcmd]
      split_ifs with hnone
      · trivial
      · refine ⟨⟨input, output, hget⟩, hstarts ?_, trivial⟩
        simpa [Option.isSome_iff_ne_none] using hnone
  | redir cmd file efile mode fd =>
      obtain ⟨rfl | rfl, hsub⟩ := hwired
      · have hredirect := Fds.redirect_input hget (.file file mode)
        refine ⟨trivial, hopens.1, List.prefix_rfl, ⟨_, _, hredirect⟩, hsub, ?_, hopens.2⟩
        simpa [Cmd.Starts, FdArg.value, hredirect, hget, Fds.standard] using hstarts
      · have hredirect := Fds.redirect_output hget (.file file mode)
        refine ⟨trivial, hopens.1, List.prefix_rfl, ⟨_, _, hredirect⟩, hsub, ?_, hopens.2⟩
        simpa [Cmd.Starts, FdArg.value, hredirect, hget, Fds.standard] using hstarts
  | pipe left right =>
      refine ⟨trivial, fun name => ?_⟩
      obtain ⟨hlowest, hpiped⟩ := Fds.pipe_standard hget name
      have hleft := Fds.pipe_left hpiped
      have hright := Fds.pipe_right hpiped
      rw [Fds.lowest_standard hget, hlowest]
      have hstarts' := hstarts name
      rw [hget] at hstarts'
      refine ⟨⟨⟨_, _, hleft⟩, hwired.1, ?_, hopens.1⟩,
        ⟨⟨_, _, hright⟩, hwired.2, ?_, hopens.2⟩, trivial⟩
      · simpa [FdArg.value, hleft, Fds.standard] using hstarts'.1
      · simpa [FdArg.value, hright, Fds.standard] using hstarts'.2
  | list left right =>
      have hstandard : fds.Standard error := ⟨input, output, hget⟩
      exact ⟨⟨hstandard, hwired.1, hstarts.1, hopens.1⟩,
        hstandard, hwired.2, hstarts.2, hopens.2⟩
  | back cmd => exact ⟨⟨⟨input, output, hget⟩, hwired, hstarts, hopens⟩, trivial⟩

/-- The innermost activation of a process keeps to the plan, and so does the
program that has replaced it. -/
structure Proc.Keeps (plan : Plan) (error : Desc) (proc : Proc) : Prop where
  code : ∀ frame callers, proc.status = .running → proc.frames = frame :: callers →
    frame.code.Keeps plan error frame.pos frame.p proc.fds
  program : ∀ frame callers, proc.status = .program → proc.frames = frame :: callers →
    ∃ argv, plan.program ⟨frame.pos, argv, proc.fds.get 0, proc.fds.get 1⟩

theorem Proc.keeps_of_frame {proc : Proc} {frame : Frame} {callers : List Frame}
    (hstatus : proc.status = .running) (hframes : proc.frames = frame :: callers)
    (hcode : frame.code.Keeps plan error frame.pos frame.p proc.fds) :
    proc.Keeps plan error := by
  refine ⟨fun top rest _ heq => ?_, fun top rest hprogram => ?_⟩
  · obtain ⟨rfl, -⟩ := List.cons.inj (hframes.symm.trans heq)
    exact hcode
  · rw [hstatus] at hprogram
    cases hprogram

theorem Proc.keeps_at {proc : Proc} {frame : Frame} {callers : List Frame} {code : Code}
    (hstatus : proc.status = .running)
    (hcode : code.Keeps plan error frame.pos frame.p proc.fds) :
    (proc.at frame callers code).Keeps plan error :=
  Proc.keeps_of_frame hstatus rfl hcode

theorem Proc.keeps_of_ended {proc : Proc} (hended : proc.Ended) : proc.Keeps plan error := by
  obtain hstatus | hstatus := hended
  · exact ⟨by simp [hstatus], by simp [hstatus]⟩
  · exact ⟨by simp [hstatus], by simp [hstatus]⟩

/-- All processes keep to the plan, and so did all that is over. -/
structure World.Keeps (plan : Plan) (error : Desc) (world : World) : Prop where
  procs : ∀ proc ∈ world.procs, proc.Keeps plan error
  execs : ∀ exec ∈ world.execs, plan.program exec.program

theorem Quiet.keeps {pipes : List Pos} {frame : Frame} {callers : List Frame} {proc : Proc}
    {act : Act} {outcome : Outcome} (hquiet : Quiet pipes frame proc.fds act outcome)
    (hcode : frame.code.Keeps plan error frame.pos frame.p proc.fds) :
    (proc.became callers outcome).Keeps plan error ∧
      ∀ exec ∈ outcome.execs, plan.program exec.program := by
  cases hquiet with
  | print heq | close heq | dup heq =>
      rw [heq] at hcode
      exact ⟨Proc.keeps_of_frame rfl rfl hcode, by simp⟩
  | opened heq =>
      rw [heq] at hcode
      exact ⟨Proc.keeps_of_frame rfl rfl hcode.2.2.2, by simp⟩
  | made heq =>
      rw [heq] at hcode
      exact ⟨Proc.keeps_of_frame rfl rfl (hcode.2 _), by simp⟩
  | openFailed heq | pipeFailed heq =>
      rw [heq] at hcode
      exact ⟨Proc.keeps_of_frame rfl rfl hcode.1.keeps, by simp⟩
  | executed heq =>
      rw [heq] at hcode
      obtain ⟨-, hprogram, -⟩ := hcode
      refine ⟨⟨fun _ _ hstatus => (nomatch hstatus), fun top rest _ hframes => ?_⟩, ?_⟩
      · obtain ⟨rfl, -⟩ := List.cons.inj hframes
        exact ⟨_, hprogram⟩
      · intro exec hexec
        obtain rfl := List.mem_singleton.mp hexec
        exact hprogram
  | execFailed heq =>
      rw [heq] at hcode
      obtain ⟨-, hprogram, hquits⟩ := hcode
      refine ⟨Proc.keeps_of_frame rfl rfl hquits.keeps, fun exec hexec => ?_⟩
      obtain rfl := List.mem_singleton.mp hexec
      exact hprogram
  | forkFailed heq =>
      rw [heq] at hcode
      exact ⟨Proc.keeps_of_frame rfl rfl hcode.2, by simp⟩

/-- A step of a process keeps to the plan, be it a failure. -/
theorem Moves.keeps {reaper : Option ℕ} {world after : World} {pid : ℕ} {proc : Proc}
    {act : Act} (hmoves : Moves reaper world pid proc act after)
    (hproc : world.procs[pid]? = some proc) (hworld : world.Keeps plan error) :
    after.Keeps plan error := by
  have hmine := hworld.procs proc (List.mem_of_getElem? hproc)
  have hset : ∀ {new : Proc}, new.Keeps plan error →
      ∀ other ∈ world.procs.set pid new, other.Keeps plan error := by
    intro new hnew other hother
    obtain hother | rfl := List.mem_or_eq_of_mem_set hother
    · exact hworld.procs other hother
    · exact hnew
  have hdie : (world.die reaper pid proc).Keeps plan error := by
    refine ⟨fun other hother => ?_, hworld.execs⟩
    obtain ⟨before, hbefore, rfl⟩ := List.mem_map.mp hother
    have hkeeps := hset (Proc.keeps_of_ended (.inl rfl)) before hbefore
    unfold Proc.orphan
    split_ifs
    · exact ⟨hkeeps.code, hkeeps.program⟩
    · exact hkeeps
  cases hmoves with
  | quiet hstatus hframes hquiet =>
      obtain ⟨hnext, hexecs⟩ := hquiet.keeps (hmine.code _ _ hstatus hframes)
      refine ⟨hset hnext, fun exec hexec => ?_⟩
      obtain hexec | hexec := List.mem_append.mp hexec
      · exact hworld.execs exec hexec
      · exact hexecs exec hexec
  | fork hstatus hframes heq =>
      have hcode := hmine.code _ _ hstatus hframes
      rw [heq] at hcode
      refine ⟨fun other hother => ?_, hworld.execs⟩
      obtain hother | hother := List.mem_append.mp hother
      · exact hset (Proc.keeps_at hstatus hcode.2) other hother
      · obtain rfl := List.mem_singleton.mp hother
        exact Proc.keeps_of_frame hstatus rfl hcode.1
  | @reap frame callers next child kid hstatus hframes heq hkid hparent hzombie =>
      have hcode := hmine.code _ _ hstatus hframes
      rw [heq] at hcode
      have hnext : (proc.at frame callers next).Keeps plan error := Proc.keeps_at hstatus hcode
      refine ⟨fun other hother => ?_, hworld.execs⟩
      obtain hother | rfl := List.mem_or_eq_of_mem_set hother
      · exact hset hnext other hother
      · exact Proc.keeps_of_ended (.inr rfl)
  | childless hstatus hframes heq hnone =>
      have hcode := hmine.code _ _ hstatus hframes
      rw [heq] at hcode
      exact ⟨hset (Proc.keeps_at hstatus hcode), hworld.execs⟩
  | call hstatus hframes heq =>
      have hcode := hmine.code _ _ hstatus hframes
      rw [heq] at hcode
      refine ⟨hset (Proc.keeps_of_frame hstatus rfl ?_), hworld.execs⟩
      exact runcmd_keeps hcode.1 hcode.2
  | ret hstatus hframes heq =>
      have hcode := hmine.code _ _ hstatus hframes
      rw [heq] at hcode
      exact hcode.elim
  | exit => exact hdie
  | finish => exact hdie

/-- Every run of a command that keeps to the plan does. -/
theorem machine_keeps {reaper : Option ℕ} {cmd : Cmd} {input output : Desc} {world : World}
    (hcmd : cmd.Keeps plan [] (some input) (some output))
    (hreach : (machine reaper cmd input output error).Reachable world) :
    world.Keeps plan error := by
  refine System.invariant_of_step ?_ ?_ hreach
  · rintro _ rfl
    refine ⟨fun proc hproc => ?_, fun exec hexec => absurd hexec (by simp [World.start])⟩
    obtain rfl := List.mem_singleton.mp hproc
    exact Proc.keeps_of_frame rfl rfl (runcmd_keeps ⟨_, _, start_standard _ _ _⟩ hcmd)
  · intro before label after _ ih hstep
    obtain ⟨proc, hproc, hmoves⟩ := moves_of_step hstep
    exact hmoves.keeps hproc ih

end Keeps

end JyyOS.Shell
