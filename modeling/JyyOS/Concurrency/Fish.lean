import JyyOS.Core.Monitor

/-!
# The fish threads (`fish.c`)

Threads of different roles print the words `<><_` and `><>_` together.  An
automaton says which character may come next; a thread takes `quota` under the
mutex, prints its character without it, and then advances the automaton and
gives `quota` back.
-/

namespace JyyOS.Fish

open JyyOS.Monitor JyyOS.Transition

/-! ## The automaton -/

inductive Node where
  | A | B | C | D | E | F
deriving DecidableEq

/-- `struct rule`; its fields `from` and `to` are the source and the target. -/
structure Rule where
  source : Node
  ch : Char
  target : Node

def rules : List Rule :=
  [⟨.A, '<', .B⟩, ⟨.B, '>', .C⟩, ⟨.C, '<', .D⟩, ⟨.A, '>', .E⟩, ⟨.E, '<', .F⟩,
    ⟨.F, '>', .D⟩, ⟨.D, '_', .A⟩]

/-- `next`, with `none` for 0. -/
def next (current : Option Node) (ch : Char) : Option Node :=
  (rules.find? fun rule => some rule.source = current ∧ rule.ch = ch).map Rule.target

/-- Where the automaton is after some output. -/
def reads (output : List Char) : Option Node :=
  output.foldl next (some .A)

/-- `<><_` and `><>_` -/
def words : List (List Char) := [['<', '>', '<', '_'], ['>', '<', '>', '_']]

/-- The beginnings of words that lead to a node. -/
def beginnings : Node → List (List Char)
  | .A => [[]]
  | .B => [['<']]
  | .C => [['<', '>']]
  | .D => [['<', '>', '<'], ['>', '<', '>']]
  | .E => [['>']]
  | .F => [['>', '<']]

theorem reads_snoc (output : List Char) (ch : Char) :
    reads (output ++ [ch]) = next (reads output) ch := by
  rw [reads, List.foldl_append]
  rfl

theorem next_eq_some {current : Option Node} {ch : Char} {node : Node}
    (hnext : next current ch = some node) :
    ∃ rule ∈ rules, some rule.source = current ∧ rule.ch = ch ∧ rule.target = node := by
  obtain ⟨rule, hrule, rfl⟩ := Option.map_eq_some_iff.mp hnext
  have hmatch := List.find?_some hrule
  rw [decide_eq_true_iff] at hmatch
  exact ⟨rule, List.mem_of_find?_eq_some hrule, hmatch.1, hmatch.2, rfl⟩

/-- The output consists of whole words and the beginning of one. -/
theorem words_of_reads {output : List Char} {node : Node}
    (hreads : reads output = some node) :
    ∃ whole : List (List Char), (∀ word ∈ whole, word ∈ words) ∧
      ∃ beginning ∈ beginnings node, output = whole.flatten ++ beginning := by
  have hrules : ∀ rule ∈ rules, ∀ beginning ∈ beginnings rule.source,
      beginning ++ [rule.ch] ∈ beginnings rule.target ∨
        rule.target = .A ∧ beginning ++ [rule.ch] ∈ words := by
    decide
  induction output using List.reverseRecOn generalizing node with
  | nil =>
      cases hreads
      exact ⟨[], fun _ hmem => absurd hmem List.not_mem_nil, [], List.mem_singleton_self _,
        rfl⟩
  | append_singleton output ch ih =>
      rw [reads_snoc] at hreads
      obtain ⟨rule, hrule, hsource, rfl, rfl⟩ := next_eq_some hreads
      obtain ⟨whole, hwhole, beginning, hbeginning, rfl⟩ := ih hsource.symm
      obtain hlonger | ⟨htarget, hword⟩ := hrules rule hrule beginning hbeginning
      · exact ⟨whole, hwhole, _, hlonger, List.append_assoc _ _ _⟩
      · refine ⟨whole ++ [beginning ++ [rule.ch]], ?_, [], ?_, by simp⟩
        · intro word hmem
          obtain hmem | hlast := List.mem_append.mp hmem
          · exact hwhole word hmem
          · exact List.mem_singleton.mp hlast ▸ hword
        · simp [htarget, beginnings]

/-- The output can be completed to whole words. -/
def OnlyFish (output : List Char) : Prop :=
  ∃ whole : List (List Char), (∀ word ∈ whole, word ∈ words) ∧ output <+: whole.flatten

theorem onlyFish_of_reads {output : List Char} {node : Node}
    (hreads : reads output = some node) : OnlyFish output := by
  have hbeginnings : ∀ node, ∀ beginning ∈ beginnings node,
      ∃ word ∈ words, beginning <+: word := by
    intro node
    cases node <;> decide
  obtain ⟨whole, hwhole, beginning, hbeginning, rfl⟩ := words_of_reads hreads
  obtain ⟨word, hword, hprefix⟩ := hbeginnings node beginning hbeginning
  refine ⟨whole ++ [word], ?_, ?_⟩
  · intro other hmem
    obtain hmem | hlast := List.mem_append.mp hmem
    · exact hwhole other hmem
    · exact List.mem_singleton.mp hlast ▸ hword
  · rw [List.flatten_append, List.prefix_append_right_inj]
    simpa using hprefix

/-! ## The threads -/

structure Pond where
  current : Option Node
  quota : ℤ
  output : List Char

inductive Loc where
  | lockBefore
  | test
  | wait
  | take
  | unlockBefore
  | putchar
  | lockAfter
  | give
  | advance
  | assert
  | broadcast
  | unlockAfter
  | aborted

/-- `next(ch) && quota` -/
def ready (ch : Char) (pond : Pond) : Bool :=
  (next pond.current ch).isSome && pond.quota != 0

def fish_thread (role : Char) : Loc → Instr Loc Pond
  -- `fish_before`
  | .lockBefore => .lock .test
  | .test => .branch (ready role) .take .wait
  | .wait => .wait .test
  | .take => .act (fun pond => { pond with quota := pond.quota - 1 }) .unlockBefore
  | .unlockBefore => .unlock .putchar
  | .putchar =>
      .act (fun pond => { pond with output := pond.output ++ [role] }) .lockAfter
  -- `fish_after`
  | .lockAfter => .lock .give
  | .give => .act (fun pond => { pond with quota := pond.quota + 1 }) .advance
  | .advance =>
      .act (fun pond => { pond with current := next pond.current role }) .assert
  | .assert => .branch (fun pond => pond.current.isSome) .broadcast .aborted
  | .broadcast => .broadcast .unlockAfter
  | .unlockAfter => .unlock .lockBefore
  | .aborted => .act id .aborted

def main (Thread : Type*) : State Thread Loc Pond where
  owner := none
  mode _ := .running .lockBefore
  value := ⟨some .A, 1, []⟩

/-! ## Turns -/

/-- What a thread still owes: nothing, its character, the advance of the
automaton with `quota` taken, or with `quota` given back. -/
inductive Stage where
  | outside
  | held
  | printed
  | given
deriving DecidableEq

def Loc.stage : Loc → Stage
  | .unlockBefore | .putchar => .held
  | .lockAfter | .give => .printed
  | .advance => .given
  | _ => .outside

def stageOf : Mode Loc → Stage
  | .running loc => loc.stage
  | _ => .outside

/-- The automaton, `quota` and the output during a thread's turn. -/
def Engaged (ch : Char) (pond : Pond) : Stage → Prop
  | .outside => False
  | .held => (next pond.current ch).isSome ∧ pond.quota = 0 ∧
      reads pond.output = pond.current
  | .printed => (next pond.current ch).isSome ∧ pond.quota = 0 ∧
      reads pond.output = next pond.current ch
  | .given => (next pond.current ch).isSome ∧ pond.quota = 1 ∧
      reads pond.output = next pond.current ch

def Idle (pond : Pond) : Prop :=
  pond.current.isSome ∧ pond.quota = 1 ∧ reads pond.output = pond.current

section Turn

variable {Thread : Type*} {role : Thread → Char} {stages : Thread → Stage}
  {pond : Pond} {thread : Thread}

/-- One thread at most has its turn. -/
def Turn (role : Thread → Char) (stages : Thread → Stage) (pond : Pond) : Prop :=
  ((∀ thread, stages thread = .outside) ∧ Idle pond) ∨
    ∃ thread, (∀ other, other ≠ thread → stages other = .outside) ∧
      Engaged (role thread) pond (stages thread)

theorem Turn.engaged (hturn : Turn role stages pond)
    (hstage : stages thread ≠ .outside) :
    (∀ other, other ≠ thread → stages other = .outside) ∧
      Engaged (role thread) pond (stages thread) := by
  obtain ⟨houtside, -⟩ | ⟨owner, hothers, hengaged⟩ := hturn
  · exact absurd (houtside thread) hstage
  · by_cases howner : thread = owner
    · exact howner ▸ ⟨hothers, hengaged⟩
    · exact absurd (hothers thread howner) hstage

theorem Turn.quota (hturn : Turn role stages pond) :
    pond.quota = 0 ∨ pond.quota = 1 := by
  obtain ⟨-, -, hquota, -⟩ | ⟨thread, -, hengaged⟩ := hturn
  · exact .inr hquota
  · cases hstage : stages thread <;> rw [hstage] at hengaged
    · exact absurd hengaged id
    · exact .inl hengaged.2.1
    · exact .inl hengaged.2.1
    · exact .inr hengaged.2.1

/-- The output is always a beginning of fish. -/
theorem Turn.onlyFish (hturn : Turn role stages pond) : OnlyFish pond.output := by
  have hsome : (reads pond.output).isSome := by
    obtain ⟨-, hcurrent, -, hreads⟩ | ⟨thread, -, hengaged⟩ := hturn
    · rwa [hreads]
    · cases hstage : stages thread <;> rw [hstage] at hengaged
      · exact absurd hengaged id
      · rw [hengaged.2.2]
        obtain ⟨node, hnode⟩ := Option.isSome_iff_exists.mp hengaged.1
        obtain ⟨rule, -, hsource, -⟩ := next_eq_some hnode
        rw [← hsource]
        rfl
      · rw [hengaged.2.2]
        exact hengaged.1
      · rw [hengaged.2.2]
        exact hengaged.1
  obtain ⟨node, hnode⟩ := Option.isSome_iff_exists.mp hsome
  exact onlyFish_of_reads hnode

/-- No turn is on when `quota` can be taken and nobody is about to advance. -/
theorem Turn.idle (hturn : Turn role stages pond)
    (hgiven : ∀ other, stages other ≠ .given) (hquota : pond.quota ≠ 0) :
    (∀ other, stages other = .outside) ∧ Idle pond := by
  obtain hidle | ⟨owner, -, hengaged⟩ := hturn
  · exact hidle
  · cases hstage : stages owner <;> rw [hstage] at hengaged
    · exact absurd hengaged id
    · exact absurd hengaged.2.1 hquota
    · exact absurd hengaged.2.1 hquota
    · exact absurd hstage (hgiven owner)

variable [DecidableEq Thread]

/-- The turn of `thread` goes on at another stage. -/
theorem Turn.go {stage : Stage} {after : Pond}
    (hothers : ∀ other, other ≠ thread → stages other = .outside)
    (hengaged : Engaged (role thread) after stage) :
    Turn role (Function.update stages thread stage) after := by
  refine .inr ⟨thread, fun other hother => ?_, ?_⟩
  · rw [Function.update_of_ne hother]
    exact hothers other hother
  · rwa [Function.update_self]

theorem Turn.take (hturn : Turn role stages pond)
    (hgiven : ∀ other, stages other ≠ .given) (hready : ready (role thread) pond) :
    Turn role (Function.update stages thread .held)
      { pond with quota := pond.quota - 1 } := by
  have hready : (next pond.current (role thread)).isSome ∧ pond.quota ≠ 0 := by
    simpa [ready] using hready
  obtain ⟨houtside, -, hquota, hreads⟩ := hturn.idle hgiven hready.2
  refine Turn.go (fun other _ => houtside other) ⟨hready.1, ?_, hreads⟩
  show pond.quota - 1 = 0
  omega

theorem Turn.putchar (hturn : Turn role stages pond) (hstage : stages thread = .held) :
    Turn role (Function.update stages thread .printed)
      { pond with output := pond.output ++ [role thread] } := by
  obtain ⟨hothers, hengaged⟩ := hturn.engaged (by rw [hstage]; decide)
  rw [hstage] at hengaged
  obtain ⟨hnext, hquota, hreads⟩ := hengaged
  refine Turn.go hothers ⟨hnext, hquota, ?_⟩
  show reads (pond.output ++ [role thread]) = next pond.current (role thread)
  rw [reads_snoc, hreads]

theorem Turn.give (hturn : Turn role stages pond) (hstage : stages thread = .printed) :
    Turn role (Function.update stages thread .given)
      { pond with quota := pond.quota + 1 } := by
  obtain ⟨hothers, hengaged⟩ := hturn.engaged (by rw [hstage]; decide)
  rw [hstage] at hengaged
  obtain ⟨hnext, hquota, hreads⟩ := hengaged
  refine Turn.go hothers ⟨hnext, ?_, hreads⟩
  show pond.quota + 1 = 1
  omega

theorem Turn.advance (hturn : Turn role stages pond) (hstage : stages thread = .given) :
    Turn role (Function.update stages thread .outside)
      { pond with current := next pond.current (role thread) } ∧
    (next pond.current (role thread)).isSome := by
  obtain ⟨hothers, hengaged⟩ := hturn.engaged (by rw [hstage]; decide)
  rw [hstage] at hengaged
  obtain ⟨hnext, hquota, hreads⟩ := hengaged
  refine ⟨.inl ⟨fun other => ?_, hnext, hquota, hreads⟩, hnext⟩
  by_cases hother : other = thread
  · rw [hother, Function.update_self]
  · rw [Function.update_of_ne hother]
    exact hothers other hother

end Turn

/-! ## The invariant -/

section Invariant

variable {Thread : Type*} [DecidableEq Thread] {role : Thread → Char}
  {before after : State Thread Loc Pond} {thread : Thread}

def code (role : Thread → Char) (thread : Thread) : Loc → Instr Loc Pond :=
  fish_thread (role thread)

def locked (_ : Thread) : Loc → Bool
  | .lockBefore | .putchar | .lockAfter => false
  | _ => true

omit [DecidableEq Thread] in
theorem disciplined (role : Thread → Char) (thread : Thread) (loc : Loc) :
    Disciplined locked thread loc (code role thread loc) := by
  cases loc with
  | lockBefore | wait | unlockBefore | lockAfter | unlockAfter => exact ⟨rfl, rfl⟩
  | test | assert => exact ⟨rfl, rfl⟩
  | take | putchar | give | advance | broadcast | aborted => rfl

/-- What a thread knows at a location where it holds the mutex. -/
def Guard (ch : Char) (pond : Pond) : Loc → Prop
  | .take => ready ch pond = true
  | .wait => ready ch pond = false
  | .assert => pond.current.isSome = true
  | .aborted => False
  | _ => True

/-- The broadcast for a change is still to come. -/
def Loc.dirty : Loc → Bool
  | .advance | .assert | .broadcast => true
  | _ => false

def Dirty (modes : Thread → Mode Loc) : Prop :=
  ∃ thread loc, modes thread = .running loc ∧ loc.dirty = true

structure Inv (role : Thread → Char) (state : State Thread Loc Pond) : Prop where
  exclusive : Exclusive locked state
  turn : Turn role (fun thread => stageOf (state.mode thread)) state.value
  guard : ∀ thread loc, state.mode thread = .running loc →
    Guard (role thread) state.value loc
  resume : ∀ thread loc,
    state.mode thread = .asleep loc ∨ state.mode thread = .woken loc → loc = .test
  sleeper : ∀ thread loc, state.mode thread = .asleep loc →
    ready (role thread) state.value = false ∨ Dirty state.mode

omit [DecidableEq Thread] in
theorem inv_main (role : Thread → Char) : Inv role (main Thread) where
  exclusive _ := iff_of_false nofun nofun
  turn := .inl ⟨fun _ => rfl, rfl, rfl, rfl⟩
  guard _ loc hmode := by
    cases hmode
    trivial
  resume _ _ hmode := by
    obtain hmode | hmode := hmode
    · cases hmode
    · cases hmode
  sleeper _ _ hmode := by cases hmode

theorem stages_update (modes : Thread → Mode Loc) (thread : Thread) (mode : Mode Loc) :
    (fun other => stageOf (Function.update modes thread mode other)) =
      Function.update (fun other => stageOf (modes other)) thread (stageOf mode) := by
  funext other
  by_cases hother : other = thread
  · rw [hother, Function.update_self, Function.update_self]
  · rw [Function.update_of_ne hother, Function.update_of_ne hother]

/-- A thread moves and leaves the shared variables alone. -/
theorem Inv.move {mode : Mode Loc} (hinv : Inv role before)
    (hexclusive : Exclusive locked after)
    (hafter : after.mode = Function.update before.mode thread mode)
    (hvalue : after.value = before.value)
    (hstage : stageOf mode = stageOf (before.mode thread))
    (hguard : ∀ loc, mode = .running loc → Guard (role thread) before.value loc)
    (hresume : ∀ loc, mode = .asleep loc ∨ mode = .woken loc → loc = .test)
    (hasleep : ∀ loc, mode = .asleep loc → ready (role thread) before.value = false)
    (hdirty : ∀ loc, before.mode thread = .running loc → loc.dirty = true →
      (∃ next, mode = .running next ∧ next.dirty = true) ∨
        ∀ other resume, before.mode other ≠ .asleep resume) :
    Inv role after := by
  have hother : ∀ other, other ≠ thread → after.mode other = before.mode other := by
    intro other hother
    rw [hafter, Function.update_of_ne hother]
  have hself : after.mode thread = mode := by
    rw [hafter, Function.update_self]
  have hkept : ∀ sleeper resume, before.mode sleeper = .asleep resume →
      Dirty before.mode → Dirty after.mode := by
    rintro sleeper resume hsleeper ⟨owner, loc, hmode, hloc⟩
    by_cases howner : owner = thread
    · subst howner
      obtain ⟨next, hnext, hnextDirty⟩ | hawake := hdirty loc hmode hloc
      · exact ⟨owner, next, hself.trans hnext, hnextDirty⟩
      · exact absurd hsleeper (hawake sleeper resume)
    · exact ⟨owner, loc, (hother owner howner).trans hmode, hloc⟩
  refine ⟨hexclusive, ?_, ?_, ?_, ?_⟩
  · rw [hvalue, hafter, stages_update, hstage, Function.update_eq_self]
    exact hinv.turn
  · intro other loc hmode
    rw [hvalue]
    by_cases heq : other = thread
    · subst heq
      exact hguard loc (hself ▸ hmode)
    · exact hinv.guard other loc (hother other heq ▸ hmode)
  · intro other loc hmode
    by_cases heq : other = thread
    · subst heq
      exact hresume loc (hself ▸ hmode)
    · exact hinv.resume other loc (hother other heq ▸ hmode)
  · intro other loc hmode
    rw [hvalue]
    by_cases heq : other = thread
    · subst heq
      exact .inl (hasleep loc (hself ▸ hmode))
    · rw [hother other heq] at hmode
      exact (hinv.sleeper other loc hmode).imp id (hkept other loc hmode)

/-- A thread goes on to another location. -/
theorem Inv.run {loc next : Loc} (hinv : Inv role before)
    (hexclusive : Exclusive locked after)
    (hafter : after.mode = Function.update before.mode thread (.running next))
    (hvalue : after.value = before.value)
    (hmode : before.mode thread = .running loc) (hstage : next.stage = loc.stage)
    (hguard : Guard (role thread) before.value next)
    (hdirty : loc.dirty = true → next.dirty = true) : Inv role after := by
  refine hinv.move hexclusive hafter hvalue ?_ ?_ ?_ nofun ?_
  · rw [hmode]
    exact hstage
  · intro other hother
    cases hother
    exact hguard
  · rintro other (hother | hother)
    · cases hother
    · cases hother
  · intro other hother hotherDirty
    rw [hmode] at hother
    cases hother
    exact .inl ⟨next, rfl, hdirty hotherDirty⟩

/-- A thread changes the shared variables. -/
theorem Inv.change {next : Loc} (hinv : Inv role before)
    (hexclusive : Exclusive locked after)
    (hafter : after.mode = Function.update before.mode thread (.running next))
    (hturn : Turn role (Function.update (fun other => stageOf (before.mode other)) thread
      next.stage) after.value)
    (hothers : ∀ other loc, other ≠ thread → before.mode other = .running loc →
      Guard (role other) after.value loc)
    (hguard : Guard (role thread) after.value next)
    (hsleeper : ∀ other loc, other ≠ thread → before.mode other = .asleep loc →
      ready (role other) after.value = false ∨ Dirty after.mode) :
    Inv role after := by
  have hother : ∀ other, other ≠ thread → after.mode other = before.mode other := by
    intro other hother
    rw [hafter, Function.update_of_ne hother]
  have hself : after.mode thread = .running next := by
    rw [hafter, Function.update_self]
  refine ⟨hexclusive, ?_, ?_, ?_, ?_⟩
  · rw [hafter, stages_update]
    exact hturn
  · intro other loc hmode
    by_cases heq : other = thread
    · subst heq
      rw [hself] at hmode
      cases hmode
      exact hguard
    · exact hothers other loc heq (hother other heq ▸ hmode)
  · intro other loc hmode
    by_cases heq : other = thread
    · subst heq
      rw [hself] at hmode
      obtain hmode | hmode := hmode
      · cases hmode
      · cases hmode
    · exact hinv.resume other loc (hother other heq ▸ hmode)
  · intro other loc hmode
    by_cases heq : other = thread
    · subst heq
      rw [hself] at hmode
      cases hmode
    · exact hsleeper other loc heq (hother other heq ▸ hmode)

omit [DecidableEq Thread] in
/-- While a thread holds the mutex, the others know nothing that it could
change. -/
theorem Inv.guard_other {loc : Loc} (hinv : Inv role before)
    (hmode : before.mode thread = .running loc) (hlocked : locked thread loc = true)
    {other : Thread} {otherLoc : Loc} (hother : other ≠ thread)
    (hotherMode : before.mode other = .running otherLoc) (pond : Pond) :
    Guard (role other) pond otherLoc := by
  have hfree : locked other otherLoc = false := by
    rw [Bool.eq_false_iff]
    intro hotherLocked
    exact hother (hinv.exclusive.eq hmode hlocked hotherMode hotherLocked).symm
  cases otherLoc <;> trivial

omit [DecidableEq Thread] in
theorem stageOf_running {loc : Loc} (hmode : before.mode thread = .running loc) :
    stageOf (before.mode thread) = loc.stage := by
  rw [hmode]
  rfl

theorem Inv.take (hinv : Inv role before)
    (hmode : before.mode thread = .running .take) (hexclusive : Exclusive locked after)
    (hafter : after = { before with
      mode := Function.update before.mode thread (.running .unlockBefore)
      value := { before.value with quota := before.value.quota - 1 } }) :
    Inv role after := by
  subst hafter
  have hready := hinv.guard thread _ hmode
  have hgiven : ∀ other, stageOf (before.mode other) ≠ .given := by
    intro other hstage
    cases hother : before.mode other with
    | asleep loc | woken loc =>
        rw [hother] at hstage
        cases hstage
    | running loc =>
        rw [hother] at hstage
        cases loc <;> cases hstage
        have heq := hinv.exclusive.eq hmode rfl hother rfl
        rw [heq, hother] at hmode
        cases hmode
  have hturn := hinv.turn.take hgiven hready
  have hquota : before.value.quota - 1 = 0 := by
    have hne : before.value.quota ≠ 0 := by
      have hboth : ready (role thread) before.value = true := hready
      simp only [ready, Bool.and_eq_true, bne_iff_ne] at hboth
      exact hboth.2
    obtain hzero | hone := hinv.turn.quota
    · exact absurd hzero hne
    · omega
  refine hinv.change hexclusive rfl hturn
    (fun other loc hother hotherMode =>
      hinv.guard_other hmode rfl hother hotherMode _) trivial ?_
  intro other loc _ _
  left
  simp [ready, hquota]

theorem Inv.putchar (hinv : Inv role before)
    (hmode : before.mode thread = .running .putchar)
    (hexclusive : Exclusive locked after)
    (hafter : after = { before with
      mode := Function.update before.mode thread (.running .lockAfter)
      value := { before.value with
        output := before.value.output ++ [role thread] } }) :
    Inv role after := by
  subst hafter
  refine hinv.change hexclusive rfl
    (hinv.turn.putchar (stageOf_running hmode)) ?_ trivial ?_
  · intro other loc _ hotherMode
    have hguard := hinv.guard other loc hotherMode
    cases loc <;> exact hguard
  · intro other loc _ hotherMode
    refine (hinv.sleeper other loc hotherMode).imp id ?_
    rintro ⟨owner, ownerLoc, howner, hdirty⟩
    have hne : owner ≠ thread := by
      rintro rfl
      rw [hmode] at howner
      cases howner
      cases hdirty
    exact ⟨owner, ownerLoc, (Function.update_of_ne hne ..).trans howner, hdirty⟩

theorem Inv.give (hinv : Inv role before)
    (hmode : before.mode thread = .running .give) (hexclusive : Exclusive locked after)
    (hafter : after = { before with
      mode := Function.update before.mode thread (.running .advance)
      value := { before.value with quota := before.value.quota + 1 } }) :
    Inv role after := by
  subst hafter
  refine hinv.change hexclusive rfl (hinv.turn.give (stageOf_running hmode))
    (fun other loc hother hotherMode =>
      hinv.guard_other hmode rfl hother hotherMode _) trivial ?_
  intro other loc _ _
  exact .inr ⟨thread, .advance, Function.update_self .., rfl⟩

theorem Inv.advance (hinv : Inv role before)
    (hmode : before.mode thread = .running .advance)
    (hexclusive : Exclusive locked after)
    (hafter : after = { before with
      mode := Function.update before.mode thread (.running .assert)
      value := { before.value with
        current := next before.value.current (role thread) } }) :
    Inv role after := by
  subst hafter
  obtain ⟨hturn, hsome⟩ := hinv.turn.advance (stageOf_running hmode)
  refine hinv.change hexclusive rfl hturn
    (fun other loc hother hotherMode =>
      hinv.guard_other hmode rfl hother hotherMode _) hsome ?_
  intro other loc _ _
  exact .inr ⟨thread, .assert, Function.update_self .., rfl⟩

omit [DecidableEq Thread] in
/-- A broadcast wakes every sleeper. -/
theorem Inv.wake (hinv : Inv role before) :
    Inv role { before with mode := fun other => (before.mode other).wake } where
  exclusive other := (hinv.exclusive other).wake
  turn := by
    have hstage : ∀ mode : Mode Loc, stageOf mode.wake = stageOf mode := by
      intro mode
      cases mode <;> rfl
    simpa only [hstage] using hinv.turn
  guard other loc hmode := hinv.guard other loc (Mode.wake_eq_running hmode)
  resume other loc hmode := by
    obtain hmode | hmode := hmode
    · exact absurd hmode (Mode.wake_ne_asleep _ loc)
    · exact hinv.resume other loc (Mode.wake_eq_woken hmode)
  sleeper other loc hmode := absurd hmode (Mode.wake_ne_asleep _ loc)

theorem Inv.effect (hinv : Inv role before) (heffect : Effect (code role) before after) :
    Inv role after := by
  have hexclusive := hinv.exclusive.effect (disciplined role) heffect
  cases heffect with
  | @lock thread loc next hmode hcode howner =>
      cases loc <;> cases hcode
      · exact hinv.run hexclusive rfl rfl hmode rfl trivial nofun
      · exact hinv.run hexclusive rfl rfl hmode rfl trivial nofun
  | @unlock thread loc next hmode hcode =>
      cases loc <;> cases hcode
      · exact hinv.run hexclusive rfl rfl hmode rfl trivial nofun
      · exact hinv.run hexclusive rfl rfl hmode rfl trivial nofun
  | @act thread loc next effect hmode hcode =>
      cases loc <;> cases hcode
      · exact hinv.take hmode hexclusive rfl
      · exact hinv.putchar hmode hexclusive rfl
      · exact hinv.give hmode hexclusive rfl
      · exact hinv.advance hmode hexclusive rfl
      · exact absurd (hinv.guard thread _ hmode) id
  | @branch thread loc yes no test hmode hcode =>
      cases loc <;> cases hcode
      · cases hready : ready (role thread) before.value with
        | true =>
            simp only [hready, if_true] at hexclusive ⊢
            exact hinv.run hexclusive rfl rfl hmode rfl hready nofun
        | false =>
            simp only [hready, Bool.false_eq_true, if_false] at hexclusive ⊢
            exact hinv.run hexclusive rfl rfl hmode rfl hready nofun
      · have hsome : before.value.current.isSome = true := hinv.guard thread _ hmode
        simp only [hsome, if_true] at hexclusive ⊢
        exact hinv.run hexclusive rfl rfl hmode rfl trivial fun _ => rfl
  | @wait thread loc next hmode hcode =>
      cases loc <;> cases hcode
      refine hinv.move hexclusive rfl rfl (stageOf_running hmode).symm nofun ?_
        (fun _ _ => hinv.guard thread _ hmode) ?_
      · rintro loc (hloc | hloc)
        · cases hloc
          rfl
        · cases hloc
      · intro loc hloc hdirty
        rw [hmode] at hloc
        cases hloc
        cases hdirty
  | @broadcast thread loc next hmode hcode =>
      cases loc <;> cases hcode
      have hwoken : (before.mode thread).wake = .running .broadcast := by
        rw [hmode]
        rfl
      refine hinv.wake.move hexclusive rfl rfl ?_ ?_ ?_ nofun
        (fun _ _ _ => .inr fun other resume => Mode.wake_ne_asleep _ resume)
      · exact (congrArg stageOf hwoken).symm
      · intro loc hloc
        cases hloc
        trivial
      · rintro loc (hloc | hloc)
        · cases hloc
        · cases hloc
  | @relock thread resume hmode howner =>
      cases hinv.resume thread resume (.inr hmode)
      refine hinv.move hexclusive rfl rfl (by rw [hmode]; rfl) ?_ ?_ nofun ?_
      · intro loc hloc
        cases hloc
        trivial
      · rintro loc (hloc | hloc)
        · cases hloc
        · cases hloc
      · intro loc hloc
        rw [hmode] at hloc
        cases hloc
  | @spurious thread resume hmode =>
      cases hinv.resume thread resume (.inl hmode)
      refine hinv.move hexclusive rfl rfl (by rw [hmode]; rfl) nofun ?_ nofun ?_
      · rintro loc (hloc | hloc)
        · cases hloc
        · cases hloc
          rfl
      · intro loc hloc
        rw [hmode] at hloc
        cases hloc

theorem inv_of_reachable {state : State Thread Loc Pond}
    (hreach : (system (code role) (main Thread)).Reachable state) : Inv role state := by
  refine System.invariant_of_step ?_ ?_ hreach
  · intro start hstart
    rw [show start = main Thread from hstart]
    exact inv_main role
  · intro _ _ _ _ hbefore hstep
    exact hbefore.effect (step_cases hstep)

omit [DecidableEq Thread] in
/-- A sleeping thread has a reason, and not every character can have one. -/
theorem Inv.not_all_asleep {state : State Thread Loc Pond} (hinv : Inv role state)
    (hleft : ∃ thread, role thread = '<') (hright : ∃ thread, role thread = '>')
    (htail : ∃ thread, role thread = '_') :
    ¬ ∀ thread, ∃ resume, state.mode thread = .asleep resume := by
  intro hasleep
  have hclean : ¬ Dirty state.mode := by
    rintro ⟨thread, loc, hmode, -⟩
    obtain ⟨resume, hresume⟩ := hasleep thread
    rw [hmode] at hresume
    cases hresume
  have hstuck : ∀ thread, ready (role thread) state.value = false := by
    intro thread
    obtain ⟨resume, hresume⟩ := hasleep thread
    exact (hinv.sleeper thread resume hresume).resolve_right hclean
  have hidle : Idle state.value := by
    obtain ⟨-, hidle⟩ | ⟨thread, -, hengaged⟩ := hinv.turn
    · exact hidle
    · obtain ⟨resume, hresume⟩ := hasleep thread
      simp only [hresume] at hengaged
      exact absurd hengaged id
  obtain ⟨hsome, hquota, -⟩ := hidle
  obtain ⟨node, hnode⟩ := Option.isSome_iff_exists.mp hsome
  have hnext : ∀ thread, next (some node) (role thread) = none := by
    intro thread
    have hready := hstuck thread
    simpa [ready, hnode, hquota] using hready
  obtain ⟨left, hleft⟩ := hleft
  obtain ⟨right, hright⟩ := hright
  obtain ⟨tail, htail⟩ := htail
  have hone := hnext left
  have htwo := hnext right
  have hthree := hnext tail
  rw [hleft] at hone
  rw [hright] at htwo
  rw [htail] at hthree
  cases node with
  | A | C | E => exact absurd hone (by decide)
  | B | F => exact absurd htwo (by decide)
  | D => exact absurd hthree (by decide)

/-- The threads print only fish, whatever their roles, and do not all wait when
every character has a thread. -/
theorem threads_print_fish (role : Thread → Char) (state : State Thread Loc Pond)
    (hreach : (system (code role) (main Thread)).Reachable state) :
    OnlyFish state.value.output ∧
      (state.value.quota = 0 ∨ state.value.quota = 1) ∧
      (∀ thread other, stageOf (state.mode thread) ≠ .outside →
        stageOf (state.mode other) ≠ .outside → thread = other) ∧
      (∀ thread, state.mode thread ≠ .running .aborted) ∧
      ((∃ thread, role thread = '<') → (∃ thread, role thread = '>') →
        (∃ thread, role thread = '_') →
        (¬ ∀ thread, ∃ resume, state.mode thread = .asleep resume) ∧
          ¬ ∀ thread, Blocked (code role) state thread) := by
  have hinv := inv_of_reachable hreach
  refine ⟨hinv.turn.onlyFish, hinv.turn.quota, ?_, ?_, ?_⟩
  · intro thread other hthread hother
    by_contra hne
    exact hthread ((hinv.turn.engaged hother).1 thread hne)
  · intro thread hmode
    exact hinv.guard thread .aborted hmode
  · intro hleft hright htail
    have hawake := hinv.not_all_asleep hleft hright htail
    exact ⟨hawake, fun hblocked => hawake
      (hinv.exclusive.asleep_of_all_blocked (disciplined role) hblocked)⟩

end Invariant

/-- `roles`, a string of 13 characters and its NUL. -/
def roles : List Char :=
  ['.', '<', '<', '<', '<', '<', '>', '>', '>', '>', '_', '_', '_', Char.ofNat 0]

/-- `main` creates 13 threads, whose ids count from 1. -/
def roleOf (id : Fin 13) : Char := roles.getD (id + 1) '.'

/-- The shipped threads, after the first of them has printed its character. -/
theorem threads_print_fish_shipped :
    ∃ state, (List.replicate 5 (Label.run 0)).foldlM (step (code roleOf))
        (main (Fin 13)) = some state ∧
      state.value.output = ['<'] ∧ OnlyFish state.value.output ∧
      ¬ ∀ thread, Blocked (code roleOf) state thread := by
  refine ⟨_, rfl, rfl, ?_⟩
  obtain ⟨honly, -, -, -, hlive⟩ := threads_print_fish roleOf _
    ((System.reachable_of_init rfl).run
      (System.run_of_foldlM (List.replicate 5 (.run 0)) rfl))
  exact ⟨honly, (hlive ⟨0, rfl⟩ ⟨5, rfl⟩ ⟨9, rfl⟩).2⟩

end JyyOS.Fish
