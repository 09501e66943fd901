import JyyOS.Core.Tso

/-!
# Peterson's algorithm with barriers (`peterson-barrier.c`)

`TA` and `TB` on x86-TSO.  A barrier follows each store, so a store buffer never
holds more than the one store in front of the barrier, and a thread has its flag
and its turn in memory before it looks at those of the other.
-/

namespace JyyOS.PetersonBarrier

open JyyOS.Transition JyyOS.Tso

/-! ## The program -/

inductive Thread where
  | A
  | B
deriving DecidableEq

inductive Loc where
  | x
  | y
  | turn
  | nested
  | count
deriving DecidableEq

/-- Where a thread is in `TA` or `TB`, by what it does next. -/
inductive Pc where
  | setFlag
  | flagBarrier
  | setTurn
  | turnBarrier
  /-- `if (!y) break;` -/
  | testFlag
  | testFlagBarrier
  /-- `if (turn != B) break;` -/
  | testTurn
  | testTurnBarrier
  /-- `atomic_fetch_add(&count, 1)` in `critical_section`. -/
  | addCount
  /-- `atomic_fetch_add(&nested, 1)` -/
  | addNested
  /-- `printf` and `assert(0)` -/
  | assertFails
  /-- `atomic_fetch_add(&nested, -1)` -/
  | subNested
  | clearFlag
  | clearBarrier
deriving DecidableEq

def Thread.other : Thread → Thread
  | .A => .B
  | .B => .A

/-- The macros `A` and `B`. -/
def Thread.id : Thread → ℤ
  | .A => 1
  | .B => 2

def Thread.flag : Thread → Loc
  | .A => .x
  | .B => .y

/-- The loop of `TA` and of `TB`. -/
def code (thread : Thread) : Pc → Op Loc ℤ Pc
  | .setFlag => .store thread.flag 1 .flagBarrier
  | .flagBarrier => .fence .setTurn
  | .setTurn => .store .turn thread.other.id .turnBarrier
  | .turnBarrier => .fence .testFlag
  | .testFlag => .load thread.other.flag fun value =>
      if value = 0 then .addCount else .testFlagBarrier
  | .testFlagBarrier => .fence .testTurn
  | .testTurn => .load .turn fun value =>
      if value ≠ thread.other.id then .addCount else .testTurnBarrier
  | .testTurnBarrier => .fence .testFlag
  | .addCount => .modify .count (· + 1) fun _ => .addNested
  | .addNested => .modify .nested (· + 1) fun value =>
      if value + 1 ≠ 1 then .assertFails else .subNested
  | .assertFails => .halt
  | .subNested => .modify .nested (· - 1) fun _ => .clearFlag
  | .clearFlag => .store thread.flag 0 .clearBarrier
  | .clearBarrier => .fence .setFlag

def start : State Thread Loc ℤ Pc := ⟨fun _ => 0, fun _ => [], fun _ => .setFlag⟩

/-- `main` creates the two threads, which may start at any time. -/
def program : System (State Thread Loc ℤ Pc) (Label Thread) := system code start

/-- The thread is in `critical_section`. -/
def Inside : Pc → Prop
  | .addCount | .addNested | .assertFails | .subNested => True
  | _ => False

/-! ## The invariant -/

/-- The store in front of the barrier that comes next. -/
def pending (thread : Thread) : Pc → Option (Loc × ℤ)
  | .flagBarrier => some (thread.flag, 1)
  | .turnBarrier => some (.turn, thread.other.id)
  | .clearBarrier => some (thread.flag, 0)
  | _ => none

/-- The flag of the thread is up in memory. -/
def Raised (pc : Pc) (buffer : List (Loc × ℤ)) : Prop :=
  match pc with
  | .setFlag | .clearBarrier => False
  | .flagBarrier => buffer = []
  | _ => True

/-- The thread has its turn in memory and is not through with the critical
section. -/
def Committed (pc : Pc) (buffer : List (Loc × ℤ)) : Prop :=
  match pc with
  | .setFlag | .flagBarrier | .setTurn | .clearFlag | .clearBarrier => False
  | .turnBarrier => buffer = []
  | _ => True

def nesting (pc : Pc) : ℤ := if pc = .subNested then 1 else 0

structure Inv (state : State Thread Loc ℤ Pc) : Prop where
  buffers : ∀ thread, state.buffer thread = [] ∨
    ∃ store, pending thread (state.pc thread) = some store ∧
      state.buffer thread = [store]
  raised : ∀ thread, Raised (state.pc thread) (state.buffer thread) →
    state.memory thread.flag = 1
  turn : ∀ thread, Committed (state.pc thread) (state.buffer thread) →
    state.memory .turn = thread.id ∨ state.memory .turn = thread.other.id
  /-- Whoever commits while the other is inside gives it the turn. -/
  inside : ∀ thread, Inside (state.pc thread) →
    Committed (state.pc thread.other) (state.buffer thread.other) →
      state.memory .turn = thread.id
  nested : state.memory .nested = nesting (state.pc .A) + nesting (state.pc .B)
  sound : ∀ thread, state.pc thread ≠ .assertFails

theorem other_other (thread : Thread) : thread.other.other = thread := by
  cases thread <;> rfl

theorem other_ne (thread : Thread) : thread.other ≠ thread := by
  cases thread <;> decide

theorem id_ne (thread : Thread) : thread.other.id ≠ thread.id := by
  cases thread <;> decide

theorem eq_other {thread other : Thread} (hne : other ≠ thread) : other = thread.other := by
  cases thread <;> cases other <;> first | rfl | exact absurd rfl hne

theorem flag_ne (thread : Thread) : thread.flag ≠ thread.other.flag := by
  cases thread <;> decide

theorem flag_ne_turn (thread : Thread) : thread.flag ≠ .turn := by
  cases thread <;> decide

theorem flag_ne_nested (thread : Thread) : thread.flag ≠ .nested := by
  cases thread <;> decide

theorem Inside.committed {pc : Pc} (hinside : Inside pc) (buffer : List (Loc × ℤ)) :
    Committed pc buffer := by
  cases pc <;> first | exact hinside | trivial

theorem Committed.raised {pc : Pc} {buffer : List (Loc × ℤ)}
    (hcommitted : Committed pc buffer) : Raised pc buffer := by
  cases pc <;> first | exact hcommitted | trivial

section Inv

variable {state : State Thread Loc ℤ Pc} {thread : Thread}

/-- Two threads inside would each have given the turn to the other. -/
theorem Inv.alone (hinv : Inv state) (hinside : Inside (state.pc thread))
    (hother : Inside (state.pc thread.other)) : False := by
  have hturn := hinv.inside thread hinside (hother.committed _)
  have hturn' := hinv.inside thread.other hother (by
    rw [other_other]
    exact hinside.committed _)
  exact id_ne thread (hturn'.symm.trans hturn)

theorem Inv.empty (hinv : Inv state) (hpending : pending thread (state.pc thread) = none) :
    state.buffer thread = [] := by
  obtain hempty | ⟨store, hstore, -⟩ := hinv.buffers thread
  · exact hempty
  · rw [hpending] at hstore
    cases hstore

theorem Inv.buffers_drained (hinv : Inv state) (other : Thread) :
    Function.update state.buffer thread [] other = [] ∨
      ∃ store, pending other (state.pc other) = some store ∧
        Function.update state.buffer thread [] other = [store] := by
  by_cases hother : other = thread
  · subst hother
    exact .inl (Function.update_self ..)
  · simpa only [Function.update_of_ne hother] using hinv.buffers other

theorem nesting_update (pcs : Thread → Pc) (thread : Thread) (pc : Pc) :
    nesting (Function.update pcs thread pc .A) + nesting (Function.update pcs thread pc .B) +
        nesting (pcs thread) =
      nesting (pcs .A) + nesting (pcs .B) + nesting pc := by
  cases thread with
  | A =>
      rw [Function.update_self, Function.update_of_ne (by decide)]
      ring
  | B =>
      rw [Function.update_self, Function.update_of_ne (by decide)]
      ring

/-- A step of a thread that changes at most the counters in memory. -/
theorem Inv.move (hinv : Inv state) {memory : Loc → ℤ} {pc : Pc}
    {buffer : List (Loc × ℤ)}
    (hflag : ∀ other : Thread, memory other.flag = state.memory other.flag)
    (hturn : memory .turn = state.memory .turn)
    (hnested : memory .nested + nesting (state.pc thread) =
      state.memory .nested + nesting pc)
    (hbuffer : buffer = [] ∨ ∃ store, pending thread pc = some store ∧ buffer = [store])
    (hraised : Raised pc buffer → Raised (state.pc thread) (state.buffer thread))
    (hcommitted : Committed pc buffer →
      Committed (state.pc thread) (state.buffer thread))
    (hinside : Inside pc → Inside (state.pc thread) ∨
      (Committed (state.pc thread.other) (state.buffer thread.other) →
        state.memory .turn = thread.id))
    (hsound : pc ≠ .assertFails) :
    Inv ⟨memory, Function.update state.buffer thread buffer,
      Function.update state.pc thread pc⟩ := by
  refine ⟨?_, ?_, ?_, ?_, ?_, ?_⟩
  · intro other
    by_cases hother : other = thread
    · subst hother
      simpa only [Function.update_self] using hbuffer
    · simpa only [Function.update_of_ne hother] using hinv.buffers other
  · intro other
    simp only [hflag]
    by_cases hother : other = thread
    · subst hother
      simp only [Function.update_self]
      exact fun hup => hinv.raised other (hraised hup)
    · simpa only [Function.update_of_ne hother] using hinv.raised other
  · intro other
    simp only [hturn]
    by_cases hother : other = thread
    · subst hother
      simp only [Function.update_self]
      exact fun hcommit => hinv.turn other (hcommitted hcommit)
    · simpa only [Function.update_of_ne hother] using hinv.turn other
  · intro other
    simp only [hturn]
    by_cases hother : other = thread
    · subst hother
      simp only [Function.update_self, Function.update_of_ne (other_ne other)]
      intro hin hcommit
      exact (hinside hin).elim (fun hin => hinv.inside other hin hcommit)
        fun hgiven => hgiven hcommit
    · cases eq_other hother
      simp only [Function.update_of_ne hother, other_other, Function.update_self]
      intro hin hcommit
      refine hinv.inside thread.other hin ?_
      rw [other_other]
      exact hcommitted hcommit
  · have hsum := nesting_update state.pc thread pc
    have hbefore := hinv.nested
    show memory .nested = _
    linarith
  · intro other
    by_cases hother : other = thread
    · subst hother
      simpa only [Function.update_self] using hsound
    · simpa only [Function.update_of_ne hother] using hinv.sound other

/-- A thread that does not touch memory. -/
theorem Inv.keep (hinv : Inv state) {pc : Pc} {buffer : List (Loc × ℤ)}
    (hbuffer : buffer = [] ∨ ∃ store, pending thread pc = some store ∧ buffer = [store])
    (hraised : Raised pc buffer → Raised (state.pc thread) (state.buffer thread))
    (hcommitted : Committed pc buffer →
      Committed (state.pc thread) (state.buffer thread))
    (hinside : Inside pc → Inside (state.pc thread) ∨
      (Committed (state.pc thread.other) (state.buffer thread.other) →
        state.memory .turn = thread.id))
    (hnesting : nesting pc = nesting (state.pc thread)) (hsound : pc ≠ .assertFails) :
    Inv ⟨state.memory, Function.update state.buffer thread buffer,
      Function.update state.pc thread pc⟩ :=
  hinv.move (fun _ => rfl) rfl (by rw [hnesting]) hbuffer hraised hcommitted hinside hsound

/-- The flag of the thread reaches memory. -/
theorem Inv.drain_flag (hinv : Inv state) {value : ℤ}
    (hpc : state.pc thread = .flagBarrier ∧ value = 1 ∨
      state.pc thread = .clearBarrier ∧ value = 0) :
    Inv ⟨Function.update state.memory thread.flag value,
      Function.update state.buffer thread [], state.pc⟩ := by
  have hnot : ∀ buffer, ¬ Committed (state.pc thread) buffer := by
    rintro buffer hcommitted
    obtain ⟨hpc, -⟩ | ⟨hpc, -⟩ := hpc
    · rw [hpc] at hcommitted
      exact hcommitted
    · rw [hpc] at hcommitted
      exact hcommitted
  have hturn : Function.update state.memory thread.flag value .turn = state.memory .turn :=
    Function.update_of_ne (flag_ne_turn thread).symm _ _
  refine ⟨hinv.buffers_drained, ?_, ?_, ?_, ?_, hinv.sound⟩
  · intro other hraised
    by_cases hother : other = thread
    · subst hother
      obtain ⟨-, rfl⟩ | ⟨hpc, -⟩ := hpc
      · exact Function.update_self ..
      · rw [hpc] at hraised
        exact hraised.elim
    · cases eq_other hother
      simp only [Function.update_of_ne hother] at hraised
      show Function.update state.memory thread.flag value thread.other.flag = 1
      rw [Function.update_of_ne (flag_ne thread).symm]
      exact hinv.raised _ hraised
  · intro other hcommitted
    by_cases hother : other = thread
    · subst hother
      exact absurd hcommitted (hnot _)
    · simp only [Function.update_of_ne hother] at hcommitted
      simp only [hturn]
      exact hinv.turn other hcommitted
  · intro other hinside hcommitted
    by_cases hother : other = thread
    · subst hother
      exact absurd (hinside.committed []) (hnot _)
    · cases eq_other hother
      simp only [other_other] at hcommitted
      exact absurd hcommitted (hnot _)
  · show Function.update state.memory thread.flag value .nested = _
    rw [Function.update_of_ne (flag_ne_nested thread).symm]
    exact hinv.nested

/-- The turn that the thread gives away reaches memory. -/
theorem Inv.drain_turn (hinv : Inv state) (hpc : state.pc thread = .turnBarrier) :
    Inv ⟨Function.update state.memory .turn thread.other.id,
      Function.update state.buffer thread [], state.pc⟩ := by
  have hflag : ∀ other : Thread,
      Function.update state.memory .turn thread.other.id other.flag =
        state.memory other.flag :=
    fun other => Function.update_of_ne (flag_ne_turn other) _ _
  have hturn : Function.update state.memory .turn thread.other.id .turn =
      thread.other.id :=
    Function.update_self ..
  refine ⟨hinv.buffers_drained, ?_, ?_, ?_, ?_, hinv.sound⟩
  · intro other hraised
    simp only [hflag]
    by_cases hother : other = thread
    · subst hother
      apply hinv.raised other
      rw [hpc]
      trivial
    · simp only [Function.update_of_ne hother] at hraised
      exact hinv.raised other hraised
  · intro other _
    simp only [hturn]
    by_cases hother : other = thread
    · subst hother
      exact .inr rfl
    · cases eq_other hother
      exact .inl rfl
  · intro other hinside _
    simp only [hturn]
    by_cases hother : other = thread
    · subst hother
      rw [hpc] at hinside
      exact hinside.elim
    · cases eq_other hother
      rfl
  · exact hinv.nested

/-- A thread with an empty buffer goes on. -/
theorem Inv.goto (hinv : Inv state) (hempty : state.buffer thread = []) {pc : Pc}
    (hraised : Raised pc [] → Raised (state.pc thread) [])
    (hcommitted : Committed pc [] → Committed (state.pc thread) [])
    (hinside : Inside pc → Inside (state.pc thread) ∨
      (Committed (state.pc thread.other) (state.buffer thread.other) →
        state.memory .turn = thread.id))
    (hnesting : nesting pc = nesting (state.pc thread)) (hsound : pc ≠ .assertFails) :
    Inv { state with pc := Function.update state.pc thread pc } := by
  have hkept : Inv ⟨state.memory, Function.update state.buffer thread [],
      Function.update state.pc thread pc⟩ :=
    hinv.keep (.inl rfl) (by rwa [hempty]) (by rwa [hempty]) hinside hnesting hsound
  rwa [show Function.update state.buffer thread [] = state.buffer by
    rw [← hempty, Function.update_eq_self]] at hkept

theorem Inv.store (hinv : Inv state) {loc : Loc} {value : ℤ} {next : Pc}
    (hop : code thread (state.pc thread) = .store loc value next) :
    Inv { state with
      buffer := Function.update state.buffer thread (state.buffer thread ++ [(loc, value)])
      pc := Function.update state.pc thread next } := by
  have hempty : state.buffer thread = [] := by
    apply hinv.empty
    cases hpc : state.pc thread <;> rw [hpc] at hop <;> first | rfl | cases hop
  rw [hempty, List.nil_append]
  cases hpc : state.pc thread <;> rw [hpc] at hop <;> cases hop
  case setFlag =>
    exact hinv.keep (.inr ⟨_, rfl, rfl⟩) nofun nofun nofun (by rw [hpc]; rfl) nofun
  case setTurn =>
    exact hinv.keep (.inr ⟨_, rfl, rfl⟩) (by rw [hpc]; exact id) nofun nofun
      (by rw [hpc]; rfl) nofun
  case clearFlag =>
    exact hinv.keep (.inr ⟨_, rfl, rfl⟩) nofun nofun nofun (by rw [hpc]; rfl) nofun

theorem Inv.fence (hinv : Inv state) {next : Pc}
    (hop : code thread (state.pc thread) = .fence next) (hempty : state.buffer thread = []) :
    Inv { state with pc := Function.update state.pc thread next } := by
  cases hpc : state.pc thread <;> rw [hpc] at hop <;> cases hop
  case flagBarrier =>
    exact hinv.goto hempty (by rw [hpc]; exact fun _ => rfl) nofun nofun
      (by rw [hpc]; rfl) nofun
  case turnBarrier =>
    exact hinv.goto hempty (by rw [hpc]; exact id) (by rw [hpc]; exact fun _ => rfl) nofun
      (by rw [hpc]; rfl) nofun
  case testFlagBarrier =>
    exact hinv.goto hempty (by rw [hpc]; exact id) (by rw [hpc]; exact id) nofun
      (by rw [hpc]; rfl) nofun
  case testTurnBarrier =>
    exact hinv.goto hempty (by rw [hpc]; exact id) (by rw [hpc]; exact id) nofun
      (by rw [hpc]; rfl) nofun
  case clearBarrier =>
    exact hinv.goto hempty nofun nofun nofun (by rw [hpc]; rfl) nofun

/-- The two tests read memory.  A flag that is down belongs to a thread that has
not committed, and a turn that is not the other's is the own one. -/
theorem Inv.load (hinv : Inv state) {loc : Loc} {next : ℤ → Pc}
    (hop : code thread (state.pc thread) = .load loc next) :
    Inv { state with
      pc := Function.update state.pc thread (next (state.read thread loc)) } := by
  have hempty : state.buffer thread = [] := by
    apply hinv.empty
    cases hpc : state.pc thread <;> rw [hpc] at hop <;> first | rfl | cases hop
  rw [read_of_empty hempty]
  cases hpc : state.pc thread <;> rw [hpc] at hop <;> cases hop
  case testFlag =>
    beta_reduce
    split_ifs with hdown
    · refine hinv.goto hempty (by rw [hpc]; exact id) (by rw [hpc]; exact id) ?_
        (by rw [hpc]; rfl) nofun
      intro _
      right
      intro hcommitted
      have hup := hinv.raised _ hcommitted.raised
      rw [hdown] at hup
      cases hup
    · exact hinv.goto hempty (by rw [hpc]; exact id) (by rw [hpc]; exact id) nofun
        (by rw [hpc]; rfl) nofun
  case testTurn =>
    beta_reduce
    split_ifs with hmine
    · refine hinv.goto hempty (by rw [hpc]; exact id) (by rw [hpc]; exact id) ?_
        (by rw [hpc]; rfl) nofun
      intro _
      right
      intro _
      exact (hinv.turn thread (by rw [hpc]; trivial)).resolve_right hmine
    · exact hinv.goto hempty (by rw [hpc]; exact id) (by rw [hpc]; exact id) nofun
        (by rw [hpc]; rfl) nofun

/-- `critical_section`: nobody else is inside. -/
theorem Inv.modify (hinv : Inv state) {loc : Loc} {update : ℤ → ℤ} {next : ℤ → Pc}
    (hop : code thread (state.pc thread) = .modify loc update next)
    (hempty : state.buffer thread = []) :
    Inv { state with
      memory := Function.update state.memory loc (update (state.memory loc))
      pc := Function.update state.pc thread (next (state.memory loc)) } := by
  have hbuffer : state.buffer = Function.update state.buffer thread [] := by
    rw [← hempty, Function.update_eq_self]
  have hflag : loc = .count ∨ loc = .nested → ∀ (value : ℤ) (other : Thread),
      Function.update state.memory loc value other.flag = state.memory other.flag := by
    rintro (rfl | rfl) value other <;>
      exact Function.update_of_ne (by cases other <;> decide) _ _
  have hturn : loc = .count ∨ loc = .nested → ∀ value : ℤ,
      Function.update state.memory loc value .turn = state.memory .turn := by
    rintro (rfl | rfl) value <;> exact Function.update_of_ne (by decide) _ _
  rw [hbuffer]
  cases hpc : state.pc thread <;> rw [hpc] at hop <;> cases hop
  case addCount =>
    refine hinv.move (hflag (.inl rfl) _) (hturn (.inl rfl) _) ?_ (.inl rfl)
      (by rw [hpc]; exact id) (by rw [hpc]; exact id) (by rw [hpc]; exact .inl) nofun
    rw [Function.update_of_ne (by decide), hpc]
    rfl
  case addNested =>
    have hzero : state.memory .nested = 0 := by
      have hother : nesting (state.pc thread.other) = 0 := by
        apply if_neg
        intro hsub
        exact hinv.alone (by rw [hpc]; trivial) (by rw [hsub]; trivial)
      have hself : nesting (state.pc thread) = 0 := by
        rw [hpc]
        rfl
      rw [hinv.nested]
      cases thread with
      | A => exact (congrArg₂ (· + ·) hself hother)
      | B => exact (congrArg₂ (· + ·) hother hself)
    simp only [hzero, zero_add, ne_eq, not_true_eq_false, if_false]
    refine hinv.move (hflag (.inr rfl) _) (hturn (.inr rfl) _) ?_ (.inl rfl)
      (by rw [hpc]; exact id) (by rw [hpc]; exact id) (by rw [hpc]; exact .inl) nofun
    rw [Function.update_self, hzero, hpc]
    rfl
  case subNested =>
    refine hinv.move (hflag (.inr rfl) _) (hturn (.inr rfl) _) ?_ (.inl rfl)
      (by rw [hpc]; exact id) nofun nofun nofun
    rw [Function.update_self, hpc]
    show state.memory .nested - 1 + 1 = state.memory .nested + 0
    ring

theorem Inv.drain (hinv : Inv state) {loc : Loc} {value : ℤ} {rest : List (Loc × ℤ)}
    (hbuffer : state.buffer thread = (loc, value) :: rest) :
    Inv { state with
      memory := Function.update state.memory loc value
      buffer := Function.update state.buffer thread rest } := by
  obtain hempty | ⟨store, hstore, hsingle⟩ := hinv.buffers thread
  · rw [hbuffer] at hempty
    cases hempty
  · rw [hbuffer] at hsingle
    cases hsingle
    cases hpc : state.pc thread <;> rw [hpc] at hstore <;> cases hstore
    · exact hinv.drain_flag (.inl ⟨hpc, rfl⟩)
    · exact hinv.drain_turn hpc
    · exact hinv.drain_flag (.inr ⟨hpc, rfl⟩)

theorem Inv.step {after : State Thread Loc ℤ Pc} (hinv : Inv state)
    (hsteps : Steps code state after) : Inv after := by
  cases hsteps with
  | store hop => exact hinv.store hop
  | load hop => exact hinv.load hop
  | fence hop hempty => exact hinv.fence hop hempty
  | modify hop hempty => exact hinv.modify hop hempty
  | drain hbuffer => exact hinv.drain hbuffer

end Inv

theorem inv_of_reachable {state : State Thread Loc ℤ Pc}
    (hreach : program.Reachable state) : Inv state := by
  apply System.invariant_of_step (I := Inv) ?_ ?_ hreach
  · rintro _ rfl
    exact ⟨fun _ => .inl rfl, nofun, nofun, nofun, rfl, nofun⟩
  · exact fun before label after _ hinv hstep => hinv.step (steps_of_step hstep)

/-- In every run on x86-TSO at most one thread is in the critical section, and the
assertion in it does not fail. -/
theorem peterson_barrier_excludes (state : State Thread Loc ℤ Pc)
    (hreach : program.Reachable state) :
    (∀ thread other, Inside (state.pc thread) → Inside (state.pc other) →
      thread = other) ∧
    ∀ thread, state.pc thread ≠ .assertFails := by
  have hinv := inv_of_reachable hreach
  refine ⟨?_, hinv.sound⟩
  intro thread other hthread hother
  by_contra hne
  cases eq_other (Ne.symm hne)
  exact hinv.alone hthread hother

/-- `TA` is in the critical section while `TB` has its turn in its buffer. -/
theorem peterson_barrier_excludes_sample :
    ∃ state, [Label.exec .A, .drain .A, .exec .A, .exec .A, .drain .A, .exec .A, .exec .B,
        .exec .A, .drain .B, .exec .B, .exec .A, .exec .B, .exec .A].foldlM
          (State.step code) start = some state ∧
      state.pc .A = .subNested ∧ state.buffer .B = [(.turn, 1)] ∧
      (∀ thread other, Inside (state.pc thread) → Inside (state.pc other) →
        thread = other) ∧
      ∀ thread, state.pc thread ≠ .assertFails := by
  refine ⟨_, rfl, rfl, rfl, ?_⟩
  exact peterson_barrier_excludes _ ((System.reachable_of_init rfl).run
    (System.run_of_foldlM [Label.exec .A, .drain .A, .exec .A, .exec .A, .drain .A, .exec .A,
      .exec .B, .exec .A, .drain .B, .exec .B, .exec .A, .exec .B, .exec .A] rfl))

end JyyOS.PetersonBarrier
