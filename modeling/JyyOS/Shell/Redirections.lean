import JyyOS.Shell.Nulterminate
import JyyOS.Shell.Plan

/-!
# Which redirection decides

`parseredirs` wraps a command in the order of the text, so that the first
redirection is the innermost node, and `runcmd` opens the files from the
outside in.  Of several redirections of one descriptor the first one is opened
last and decides.  This holds in every run, whatever calls fail in it.
-/

namespace JyyOS.Shell

open Transition

/-! ## The redirections of a program -/

def Redir.isInput (redir : Redir) : Bool := redir.op == .input

/-- The redirections of descriptor 0. -/
def inputs (redirs : List Redir) : List Redir := redirs.filter Redir.isInput

/-- The redirections of descriptor 1. -/
def outputs (redirs : List Redir) : List Redir := redirs.filter fun redir => !redir.isInput

/-- The redirections of one descriptor that are meant for a program: those of
its command, or else those that hold around the command. -/
def governing (own around : List Redir) : List Redir := if own.isEmpty then around else own

/-- A simple command of a line: its node, its words and the redirections that
are meant for it, in the order of the text. -/
structure Command where
  node : Pos
  words : List Slice
  ins : List Redir
  outs : List Redir

/-- The simple commands of a phrase whose tree is at a node and around which the
given redirections hold. -/
def Deriv.commands : {symbol : Nonterminal} → Deriv symbol → Pos → List Redir → List Redir →
    List Command
  | _, lineEnd pipe amps, pos, ins, outs =>
      pipe.commands (pos ++ List.replicate amps .back) ins outs
  | _, lineMore pipe amps line, pos, ins, outs =>
      pipe.commands (pos ++ .listL :: List.replicate amps .back) ins outs ++
        line.commands (pos ++ [.listR]) ins outs
  | _, pipeEnd exec, pos, ins, outs => exec.commands pos ins outs
  -- the pipe takes the place of what is redirected around it
  | _, pipeMore exec pipe, pos, ins, outs =>
      exec.commands (pos ++ [.pipeL]) ins [] ++ pipe.commands (pos ++ [.pipeR]) [] outs
  | _, block line redirs, pos, ins, outs =>
      line.commands (pos ++ List.replicate redirs.length .redir) (governing (inputs redirs) ins)
        (governing (outputs redirs) outs)
  | _, simple redirs words, pos, ins, outs =>
      let all := redirs ++ words.flatMap (·.2)
      [⟨pos ++ List.replicate all.length .redir, words.map (·.1), governing (inputs all) ins,
        governing (outputs all) outs⟩]

/-! ## The first redirection decides -/

/-- The description that a redirection opens. -/
def Redir.desc (redir : Redir) : Desc :=
  match redir.op with
  | .input => .file redir.file.start Line.O_RDONLY
  | .output => .file redir.file.start (Line.O_WRONLY ||| Line.O_CREAT ||| Line.O_TRUNC)
  | .append => .file redir.file.start (Line.O_WRONLY ||| Line.O_CREAT)

/-- What a descriptor is bound to behind these redirections of it. -/
def rebind (redirs : List Redir) (desc : Option Desc) : Option Desc :=
  (redirs.head?.map Redir.desc).or desc

/-- The descriptor is bound to what the first redirection opens. -/
def FirstDecides (redirs : List Redir) (desc : Option Desc) : Prop :=
  ∀ first ∈ redirs.head?, desc = some first.desc

theorem FirstDecides.rebind {around : List Redir} {desc : Option Desc}
    (hfirst : FirstDecides around desc) (own : List Redir) :
    FirstDecides (governing own around) (rebind own desc) := by
  cases own with
  | nil => exact hfirst
  | cons redir own =>
      intro first hhead
      obtain rfl : redir = first := Option.some.inj hhead
      rfl

theorem firstDecides_nil (desc : Option Desc) : FirstDecides [] desc := by
  simp [FirstDecides]

theorem rebind_snoc (redirs : List Redir) (last : Redir) (desc : Option Desc) :
    rebind (redirs ++ [last]) desc = rebind redirs (some last.desc) := by
  cases redirs <;> rfl

theorem rebind_inputs_snoc (redirs : List Redir) (last : Redir) (desc : Option Desc) :
    rebind (inputs (redirs ++ [last])) desc =
      rebind (inputs redirs) (if last.isInput then some last.desc else desc) := by
  by_cases hinput : last.isInput = true
  · simp [inputs, hinput, rebind_snoc]
  · simp [inputs, hinput]

theorem rebind_outputs_snoc (redirs : List Redir) (last : Redir) (desc : Option Desc) :
    rebind (outputs (redirs ++ [last])) desc =
      rebind (outputs redirs) (if last.isInput then desc else some last.desc) := by
  by_cases hinput : last.isInput = true
  · simp [outputs, hinput]
  · simp [outputs, hinput, rebind_snoc]

section Phrases

variable {P : Program → Prop} {pos : Pos} {input output : Option Desc}

theorem starts_wrap {cmd : Cmd} {redir : Redir} :
    (redir.wrap cmd).Starts P pos input output ↔
      cmd.Starts P (pos ++ [.redir]) (if redir.isInput then some redir.desc else input)
        (if redir.isInput then output else some redir.desc) := by
  obtain ⟨op, file⟩ := redir
  cases op with
  | input => rfl
  | output => rfl
  | append => rfl

/-- The first redirection is the innermost node: it is opened last. -/
theorem starts_wraps (redirs : List Redir) {cmd : Cmd}
    (hcmd : cmd.Starts P (pos ++ List.replicate redirs.length .redir)
      (rebind (inputs redirs) input) (rebind (outputs redirs) output)) :
    (redirs.foldl Redir.wrap cmd).Starts P pos input output := by
  induction redirs using List.reverseRecOn generalizing pos input output with
  | nil => simpa [inputs, outputs, rebind] using hcmd
  | append_singleton redirs last ih =>
      rw [List.foldl_append, List.foldl_cons, List.foldl_nil, starts_wrap]
      apply ih
      rwa [List.append_assoc, List.singleton_append, ← List.replicate_succ,
        ← rebind_inputs_snoc, ← rebind_outputs_snoc, ← List.length_concat, List.concat_eq_append]

theorem starts_backs (amps : ℕ) {cmd : Cmd}
    (hcmd : cmd.Starts P (pos ++ List.replicate amps .back) input output) :
    (Cmd.back^[amps] cmd).Starts P pos input output := by
  induction amps generalizing pos with
  | zero => simpa using hcmd
  | succ amps ih =>
      rw [Function.iterate_succ_apply']
      apply ih
      rwa [List.append_assoc, List.singleton_append, ← List.replicate_succ]

/-- Every program of the tree of a phrase is that of a simple command, and the
first redirections that are meant for it decide. -/
theorem Deriv.starts {symbol : Nonterminal} (phrase : Deriv symbol) {ins outs : List Redir}
    (hP : ∀ command ∈ phrase.commands pos ins outs, ∀ input output,
      FirstDecides command.ins input → FirstDecides command.outs output →
        P ⟨command.node, slots (command.words.map (·.start)), input, output⟩)
    (hins : FirstDecides ins input) (houts : FirstDecides outs output) :
    phrase.tree.Starts P pos input output := by
  induction phrase generalizing pos ins outs input output with
  | lineEnd pipe amps ih => exact starts_backs amps (ih hP hins houts)
  | lineMore pipe amps line ihPipe ihLine =>
      refine ⟨starts_backs amps (ihPipe (fun command hmem => ?_) hins houts),
        ihLine (fun command hmem => ?_) hins houts⟩
      · refine hP command (List.mem_append_left _ ?_)
        simpa using hmem
      · exact hP command (List.mem_append_right _ hmem)
  | pipeEnd exec ih => exact ih hP hins houts
  | pipeMore exec pipe ihExec ihPipe =>
      refine fun name => ⟨ihExec (fun command hmem => ?_) hins (firstDecides_nil _),
        ihPipe (fun command hmem => ?_) (firstDecides_nil _) houts⟩
      · exact hP command (List.mem_append_left _ hmem)
      · exact hP command (List.mem_append_right _ hmem)
  | block line redirs ih =>
      exact starts_wraps redirs (ih hP (hins.rebind _) (houts.rebind _))
  | simple redirs words =>
      refine starts_wraps _ fun _ => ?_
      exact hP _ List.mem_cons_self _ _ (hins.rebind _) (houts.rebind _)

end Phrases

/-- The program is that of a simple command of the line, and the first redirections
that are meant for it decide. -/
def Deriv.Denotes (phrase : Deriv .line) (program : Program) : Prop :=
  ∃ command ∈ phrase.commands [] [] [], program.node = command.node ∧
    program.argv = slots (command.words.map (·.start)) ∧
    FirstDecides command.ins program.input ∧ FirstDecides command.outs program.output

theorem Deriv.tree_starts (phrase : Deriv .line) (input output : Option Desc) :
    phrase.tree.Starts phrase.Denotes [] input output :=
  phrase.starts (fun command hcommand _ _ hins houts =>
    ⟨command, hcommand, rfl, rfl, hins, houts⟩) (firstDecides_nil _) (firstDecides_nil _)

/-! ## The files -/

theorem nodes_wrap (cmd : Cmd) (redir : Redir) :
    (redir.wrap cmd).nodes = redir.wrap cmd :: cmd.nodes := by
  obtain ⟨op, file⟩ := redir
  cases op <;> rfl

theorem mem_nodes_wraps (redirs : List Redir) {cmd node : Cmd} (hnode : node ∈ cmd.nodes) :
    node ∈ (redirs.foldl Redir.wrap cmd).nodes := by
  induction redirs generalizing cmd with
  | nil => exact hnode
  | cons redir redirs ih =>
      refine ih ?_
      rw [nodes_wrap]
      exact List.mem_cons_of_mem _ hnode

theorem exists_wrap_mem_nodes {redirs : List Redir} {redir : Redir} (hmem : redir ∈ redirs)
    (cmd : Cmd) : ∃ sub, redir.wrap sub ∈ (redirs.foldl Redir.wrap cmd).nodes := by
  induction redirs generalizing cmd with
  | nil => cases hmem
  | cons first redirs ih =>
      obtain rfl | hmem := List.mem_cons.mp hmem
      · refine ⟨cmd, mem_nodes_wraps redirs ?_⟩
        rw [nodes_wrap]
        exact List.mem_cons_self
      · exact ih hmem _

theorem mem_nodes_backs (amps : ℕ) {cmd node : Cmd} (hnode : node ∈ cmd.nodes) :
    node ∈ (Cmd.back^[amps] cmd).nodes := by
  induction amps with
  | zero => exact hnode
  | succ amps ih =>
      rw [Function.iterate_succ_apply']
      exact List.mem_cons_of_mem _ ih

theorem forall_mem_governing {Q : Redir → Prop} {own around : List Redir}
    (hown : ∀ redir ∈ own, Q redir) (haround : ∀ redir ∈ around, Q redir) :
    ∀ redir ∈ governing own around, Q redir := by
  unfold governing
  split_ifs
  · exact haround
  · exact hown

/-- What holds of the redirections among the nodes of the tree, and of those
around it, holds of all that are meant for a command. -/
theorem Deriv.commands_forall {Q : Redir → Prop} {symbol : Nonterminal} (phrase : Deriv symbol)
    {pos : Pos} {ins outs : List Redir}
    (hnodes : ∀ sub redir, Redir.wrap sub redir ∈ phrase.tree.nodes → Q redir)
    (hins : ∀ redir ∈ ins, Q redir) (houts : ∀ redir ∈ outs, Q redir) :
    ∀ command ∈ phrase.commands pos ins outs,
      (∀ redir ∈ command.ins, Q redir) ∧ ∀ redir ∈ command.outs, Q redir := by
  have hredirs : ∀ {redirs : List Redir} {cmd : Cmd},
      (∀ sub redir, Redir.wrap sub redir ∈ (redirs.foldl Redir.wrap cmd).nodes → Q redir) →
      (∀ redir ∈ inputs redirs, Q redir) ∧ ∀ redir ∈ outputs redirs, Q redir := by
    intro redirs cmd hwraps
    have hall : ∀ redir ∈ redirs, Q redir := fun redir hmem =>
      (exists_wrap_mem_nodes hmem cmd).elim fun sub => hwraps sub redir
    exact ⟨fun redir hmem => hall redir (List.mem_of_mem_filter hmem),
      fun redir hmem => hall redir (List.mem_of_mem_filter hmem)⟩
  induction phrase generalizing pos ins outs with
  | lineEnd pipe amps ih =>
      exact ih (fun sub redir hmem => hnodes sub redir (mem_nodes_backs amps hmem)) hins houts
  | lineMore pipe amps line ihPipe ihLine =>
      intro command hcommand
      obtain hcommand | hcommand := List.mem_append.mp hcommand
      · refine ihPipe (fun sub redir hmem => hnodes sub redir ?_) hins houts command hcommand
        exact List.mem_cons_of_mem _ (List.mem_append_left _ (mem_nodes_backs amps hmem))
      · refine ihLine (fun sub redir hmem => hnodes sub redir ?_) hins houts command hcommand
        exact List.mem_cons_of_mem _ (List.mem_append_right _ hmem)
  | pipeEnd exec ih => exact ih hnodes hins houts
  | pipeMore exec pipe ihExec ihPipe =>
      intro command hcommand
      obtain hcommand | hcommand := List.mem_append.mp hcommand
      · refine ihExec (fun sub redir hmem => hnodes sub redir ?_) hins (by simp) command hcommand
        exact List.mem_cons_of_mem _ (List.mem_append_left _ hmem)
      · refine ihPipe (fun sub redir hmem => hnodes sub redir ?_) (by simp) houts command hcommand
        exact List.mem_cons_of_mem _ (List.mem_append_right _ hmem)
  | block line redirs ih =>
      obtain ⟨hown, hown'⟩ := hredirs hnodes
      exact ih (fun sub redir hmem => hnodes sub redir (mem_nodes_wraps redirs hmem))
        (forall_mem_governing hown hins) (forall_mem_governing hown' houts)
  | simple redirs words =>
      obtain ⟨hown, hown'⟩ := hredirs hnodes
      intro command hcommand
      obtain rfl := List.mem_singleton.mp hcommand
      exact ⟨forall_mem_governing hown hins, forall_mem_governing hown' houts⟩

/-- The files of the redirections that are meant for a command are words of the
line. -/
theorem Line.Derives.spelled_redirs {line : Line} {phrase : Deriv .line}
    (hderives : line.Derives phrase) : ∀ command ∈ phrase.commands [] [] [],
      (∀ redir ∈ command.ins, line.Spelled (phrase.tree.nulterminate (line.text ++ [0]))
        redir.file.start redir.file.stop) ∧
      ∀ redir ∈ command.outs, line.Spelled (phrase.tree.nulterminate (line.text ++ [0]))
        redir.file.start redir.file.stop := by
  refine phrase.commands_forall (fun sub redir hmem => ?_) (by simp) (by simp)
  obtain ⟨op, slice⟩ := redir
  cases op with
  | input => exact hderives.spelled_file hmem
  | output => exact hderives.spelled_file hmem
  | append => exact hderives.spelled_file hmem

/-! ## Every simple command is started -/

section Wire

variable {fresh : Pos → ℕ} {pos : Pos} {input output : Option Desc}

theorem wire_wraps (redirs : List Redir) (cmd : Cmd) :
    wire fresh pos (redirs.foldl Redir.wrap cmd) input output =
      wire fresh (pos ++ List.replicate redirs.length .redir) cmd
        (rebind (inputs redirs) input) (rebind (outputs redirs) output) := by
  induction redirs using List.reverseRecOn generalizing pos input output with
  | nil => simp [inputs, outputs, rebind]
  | append_singleton redirs last ih =>
      rw [rebind_inputs_snoc, rebind_outputs_snoc, ← List.concat_eq_append, List.length_concat,
        List.replicate_succ, ← List.singleton_append, ← List.append_assoc, ← ih,
        List.concat_eq_append, List.foldl_append]
      obtain ⟨op, file⟩ := last
      cases op <;> rfl

theorem wire_backs (amps : ℕ) (cmd : Cmd) :
    wire fresh pos (Cmd.back^[amps] cmd) input output =
      wire fresh (pos ++ List.replicate amps .back) cmd input output := by
  induction amps generalizing pos with
  | zero => simp
  | succ amps ih =>
      rw [Function.iterate_succ_apply', List.replicate_succ, ← List.singleton_append,
        ← List.append_assoc, ← ih]
      rfl

theorem Deriv.exists_mem_wire {symbol : Nonterminal} (phrase : Deriv symbol)
    {ins outs : List Redir} {command : Command} (hmem : command ∈ phrase.commands pos ins outs)
    (hwords : command.words ≠ []) :
    ∃ program ∈ wire fresh pos phrase.tree input output, program.node = command.node := by
  induction phrase generalizing pos ins outs input output with
  | lineEnd pipe amps ih =>
      rw [Deriv.tree, wire_backs]
      exact ih hmem
  | lineMore pipe amps line ihPipe ihLine =>
      simp only [Deriv.tree, wire, wire_backs, Multiset.mem_add, or_and_right, exists_or]
      obtain hmem | hmem := List.mem_append.mp hmem
      · have hpipe : command ∈
            pipe.commands (pos ++ [.listL] ++ List.replicate amps .back) ins outs := by
          simpa using hmem
        exact .inl (ihPipe hpipe)
      · exact .inr (ihLine hmem)
  | pipeEnd exec ih => exact ih hmem
  | pipeMore exec pipe ihExec ihPipe =>
      simp only [Deriv.tree, wire, Multiset.mem_add, or_and_right, exists_or]
      obtain hmem | hmem := List.mem_append.mp hmem
      · exact .inl (ihExec hmem)
      · exact .inr (ihPipe hmem)
  | block line redirs ih =>
      rw [Deriv.tree, wire_wraps]
      exact ih hmem
  | simple redirs words =>
      obtain rfl := List.mem_singleton.mp hmem
      have hfirst : (slots ((words.map (·.1)).map (·.start)) 0).isNone = false := by
        cases words with
        | nil => exact absurd rfl hwords
        | cons word words => rfl
      rw [Deriv.tree, wire_wraps, wordsNode, wire, hfirst]
      exact ⟨_, Multiset.mem_singleton_self _, rfl⟩

end Wire

/-! ## The last redirection -/

section Last

variable {File : Type*} (file : List Byte → File) (line : Line) (text : List Byte)

/-- The descriptor is bound to the file of the redirection; `file` says which
file a path names. -/
def Line.BoundTo (desc : Option Desc) (redir : Redir) : Prop :=
  ∃ path mode, desc = some (.file path mode) ∧
    file (cstring (text.drop path)) = file (line.slice redir.file)

/-- The descriptor is bound to the file of the last redirection, if any. -/
def Line.LastWins (redirs : List Redir) (desc : Option Desc) : Prop :=
  ∀ last ∈ redirs.getLast?, line.BoundTo file text desc last

/-- The first and the last redirection are of one file. -/
def Line.EndsAgree (redirs : List Redir) : Prop :=
  ∀ first ∈ redirs.head?, ∀ last ∈ redirs.getLast?,
    file (line.slice first.file) = file (line.slice last.file)

variable {file line text}

theorem Redir.exists_desc_eq (redir : Redir) :
    ∃ mode, redir.desc = .file redir.file.start mode := by
  obtain ⟨op, slice⟩ := redir
  cases op <;> exact ⟨_, rfl⟩

theorem boundTo_iff {first last : Redir}
    (hspelled : line.Spelled text first.file.start first.file.stop) :
    line.BoundTo file text (some first.desc) last ↔
      file (line.slice first.file) = file (line.slice last.file) := by
  obtain ⟨mode, hdesc⟩ := first.exists_desc_eq
  rw [Line.BoundTo, hdesc]
  constructor
  · rintro ⟨path, mode', heq, hfile⟩
    cases heq
    rwa [hspelled.same] at hfile
  · intro hfile
    refine ⟨_, _, rfl, ?_⟩
    rwa [hspelled.same]

theorem lastWins_iff {redirs : List Redir} {desc : Option Desc} (hfirst : FirstDecides redirs desc)
    (hspelled : ∀ redir ∈ redirs, line.Spelled text redir.file.start redir.file.stop) :
    line.LastWins file text redirs desc ↔ line.EndsAgree file redirs := by
  cases redirs with
  | nil => simp [Line.LastWins, Line.EndsAgree]
  | cons first redirs =>
      obtain rfl := hfirst first rfl
      have hspelled' := hspelled first List.mem_cons_self
      simp [Line.LastWins, Line.EndsAgree, boundTo_iff hspelled']

end Last

/-- On a line on which `parsecmd` returns, whatever fails in the run, a program is
started for a simple command, and its descriptor 0 (or 1) is bound to the file of
the last redirection that is meant for it exactly if the first one is of the same
file.  When nothing fails, every simple command has been started in the end. -/
theorem last_redirection_wins_iff {File : Type*} (file : List Byte → File) (line : Line)
    (fuel : ℕ) (tree : Cmd) (text : List Byte) (hrun : parsecmd fuel line = .ok (tree, text))
    (reaper : Option ℕ) (stdin stdout stderr : ℕ) :
    ∃ phrase, line.Derives phrase ∧ tree = phrase.tree ∧
      (∀ world, (machine reaper tree (.outer stdin) (.outer stdout) (.outer stderr)).Reachable
        world → ∀ exec ∈ world.execs, ∃ command ∈ phrase.commands [] [] [],
          exec.node = command.node ∧ exec.argv = slots (command.words.map (·.start)) ∧
          (line.LastWins file text command.ins (exec.fds.get 0) ↔
            line.EndsAgree file command.ins) ∧
          (line.LastWins file text command.outs (exec.fds.get 1) ↔
            line.EndsAgree file command.outs)) ∧
      ∀ world, (smoothMachine reaper tree (.outer stdin) (.outer stdout)
        (.outer stderr)).Reachable world → (∀ proc ∈ world.procs, proc.Ended) →
          ∀ command ∈ phrase.commands [] [] [], command.words ≠ [] →
            ∃ exec ∈ world.execs, exec.node = command.node := by
  obtain ⟨phrase, hderives, rfl, rfl⟩ := derives_of_parsecmd hrun
  refine ⟨phrase, hderives, rfl, fun world hreach exec hexec => ?_,
    fun world hreach hended command hcommand hwords => ?_⟩
  · have hkeeps : phrase.tree.Keeps ⟨phrase.Denotes, fun _ _ _ => True⟩ []
        (some (.outer stdin)) (some (.outer stdout)) :=
      ⟨phrase.tree_wired, phrase.tree_starts _ _, Cmd.opens_of_forall (fun _ _ _ => trivial) _⟩
    obtain ⟨command, hcommand, hnode, hargv, hins, houts⟩ :=
      (machine_keeps hkeeps hreach).execs exec hexec
    obtain ⟨hins', houts'⟩ := hderives.spelled_redirs command hcommand
    exact ⟨command, hcommand, hnode, hargv, lastWins_iff hins hins', lastWins_iff houts houts'⟩
  · obtain ⟨fresh, -, hnamed⟩ :=
      exists_named (smooth_pipes_nodup phrase.tree_wired hreach)
    have hprograms := smooth_programs phrase.tree_wired hreach hnamed
    rw [pending_of_ended hended, zero_add] at hprograms
    obtain ⟨program, hprogram, hnode⟩ := phrase.exists_mem_wire hcommand hwords
    rw [← hprograms, World.started, Multiset.mem_coe, List.mem_map] at hprogram
    obtain ⟨exec, hexec, rfl⟩ := hprogram
    exact ⟨exec, hexec, hnode⟩

/-- `a >x >>x` -/
def repeatedLine : Line where
  text := bytes "a >x >>x\n"
  noNul := by decide

def repeatedPhrase : Deriv .line :=
  .lineEnd (.pipeEnd
    (.simple [] [(⟨0, 1⟩, [⟨.output, ⟨3, 4⟩⟩, ⟨.append, ⟨7, 8⟩⟩])])) 0

theorem repeated_derives : repeatedLine.Derives repeatedPhrase :=
  ⟨by decide, by simp [repeatedPhrase, Deriv.FewWords], by decide⟩

/-- `a >x >y` -/
def replacedLine : Line where
  text := bytes "a >x >y\n"
  noNul := by decide

def replacedPhrase : Deriv .line :=
  .lineEnd (.pipeEnd
    (.simple [] [(⟨0, 1⟩, [⟨.output, ⟨3, 4⟩⟩, ⟨.output, ⟨6, 7⟩⟩])])) 0

theorem replaced_derives : replacedLine.Derives replacedPhrase :=
  ⟨by decide, by simp [replacedPhrase, Deriv.FewWords], by decide⟩

/-- Two redirections and `execve`. -/
def redirectTwice : List Label := List.replicate 7 ⟨0, .go⟩

theorem exists_redirected (tree : Cmd) (node : Pos) (fds : Fds)
    (hreplay : (redirectTwice.foldlM (World.step none)
      (World.start tree (.outer 0) (.outer 1) (.outer 2))).any (fun world =>
        world.execs.any fun exec => exec.node = node ∧ exec.fds = fds) = true) :
    ∃ world, (machine none tree (.outer 0) (.outer 1) (.outer 2)).Reachable world ∧
      (smoothMachine none tree (.outer 0) (.outer 1) (.outer 2)).Reachable world ∧
      ∃ exec ∈ world.execs, exec.node = node ∧ exec.fds = fds := by
  obtain ⟨world, hworld, hany⟩ := (Option.any_eq_true _ _).mp hreplay
  have hrun : (machine none tree (.outer 0) (.outer 1) (.outer 2)).Run _ redirectTwice world :=
    System.run_of_foldlM _ hworld
  obtain ⟨exec, hexec, hdecide⟩ := List.any_eq_true.mp hany
  exact ⟨world, ⟨_, _, rfl, hrun⟩, ⟨_, _, rfl, hrun.restrict (by decide)⟩, exec, hexec,
    of_decide_eq_true hdecide⟩

theorem last_redirection_wins_repeated :
    ∃ text world, parsecmd 64 repeatedLine = .ok (repeatedPhrase.tree, text) ∧
      (machine none repeatedPhrase.tree (.outer 0) (.outer 1) (.outer 2)).Reachable world ∧
      ∃ exec ∈ world.execs, ∃ command ∈ repeatedPhrase.commands [] [] [],
        exec.node = command.node ∧ command.outs = [⟨.output, ⟨3, 4⟩⟩, ⟨.append, ⟨7, 8⟩⟩] ∧
        repeatedLine.LastWins id text command.outs (exec.fds.get 1) := by
  have hparse : parsecmd 64 repeatedLine = .ok (repeatedPhrase.tree, _) :=
    parsecmd_of_derives (by decide) repeated_derives
  obtain ⟨world, hreach, -, exec, hexec, -, -⟩ :=
    exists_redirected repeatedPhrase.tree [.redir, .redir]
      [some (.outer 0), some (.file 3 577), some (.outer 2)] (by decide +kernel)
  obtain ⟨phrase, hderives, -, hexecs, -⟩ :=
    last_redirection_wins_iff id repeatedLine 64 _ _ hparse none 0 1 2
  obtain rfl : phrase = repeatedPhrase :=
    Deriv.unique_of_yield (hderives.yield.trans repeated_derives.yield.symm)
  obtain ⟨command, hcommand, hnode, -, -, houts⟩ := hexecs world hreach exec hexec
  refine ⟨_, world, hparse, hreach, exec, hexec, command, hcommand, hnode, ?_, houts.mpr ?_⟩
  · obtain rfl := List.mem_singleton.mp hcommand
    rfl
  · obtain rfl := List.mem_singleton.mp hcommand
    intro first hfirst last hlast
    cases hfirst
    cases hlast
    decide

/-- Descriptor 1 is bound to `x`. -/
theorem last_redirection_loses :
    ∃ text world, parsecmd 64 replacedLine = .ok (replacedPhrase.tree, text) ∧
      (smoothMachine none replacedPhrase.tree (.outer 0) (.outer 1) (.outer 2)).Reachable world ∧
      ∃ exec ∈ world.execs, ∃ command ∈ replacedPhrase.commands [] [] [],
        exec.node = command.node ∧
        ¬ replacedLine.LastWins id text command.outs (exec.fds.get 1) := by
  obtain ⟨world, -, hreach, exec, hexec, hnode, hfds⟩ :=
    exists_redirected replacedPhrase.tree [.redir, .redir]
      [some (.outer 0), some (.file 3 577), some (.outer 2)] (by decide +kernel)
  refine ⟨_, world, parsecmd_of_derives (by decide) replaced_derives, hreach, exec, hexec, _,
    List.mem_cons_self, hnode, fun hwins => ?_⟩
  obtain ⟨path, mode, hdesc, hfile⟩ := hwins ⟨.output, ⟨6, 7⟩⟩ rfl
  rw [hfds] at hdesc
  cases hdesc
  revert hfile
  decide

end JyyOS.Shell
