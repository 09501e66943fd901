import JyyOS.ModelChecker.Program

/-!
# Dekker's algorithm (`dekker.py`)

Both threads ask for the critical section for ever: a thread raises its flag, and as
long as it finds the other flag raised it lowers its own one when it is not its turn
and waits for the turn.
-/

namespace JyyOS.ModelChecker.DekkerLock

open JyyOS.ModelChecker.Language

/-! ## The class -/

/-- The attributes; the items of `flag` and the values of `turn` are named by the
threads with these numbers. -/
structure Attrs where
  flag : Side → Bool
  turn : Side

structure Locals where
  this : Option Side
  another : Option Side
  cs : Option Bool

abbrev Code := (overScope Attrs Locals).Code

/-- `this, another = ...` -/
def bind (side : Side) (scope : Scope Attrs Locals) : Option (Scope Attrs Locals) :=
  some { scope with
    locals := { scope.locals with this := some side, another := some side.other } }

/-- `self.flag[this] = value` -/
def setFlag (value : Bool) (scope : Scope Attrs Locals) : Option (Scope Attrs Locals) := do
  let this ← scope.locals.this
  some { scope with
    self := { scope.self with flag := Function.update scope.self.flag this value } }

/-- `self.flag[another]` -/
def flagOfAnother (scope : Scope Attrs Locals) : Option (Bool × Scope Attrs Locals) := do
  let another ← scope.locals.another
  some (scope.self.flag another, scope)

/-- `self.turn == another` -/
def turnOfAnother (scope : Scope Attrs Locals) : Option (Bool × Scope Attrs Locals) := do
  let another ← scope.locals.another
  some (decide (scope.self.turn = another), scope)

/-- `self.turn = another` -/
def giveTurn (scope : Scope Attrs Locals) : Option (Scope Attrs Locals) := do
  let another ← scope.locals.another
  some { scope with self := { scope.self with turn := another } }

def setCs (scope : Scope Attrs Locals) : Option (Scope Attrs Locals) :=
  some { scope with locals := { scope.locals with cs := some true } }

/-- `del` of an unbound variable raises. -/
def delCs (scope : Scope Attrs Locals) : Option (Scope Attrs Locals) := do
  let _ ← scope.locals.cs
  some { scope with locals := { scope.locals with cs := none } }

def body (side : Side) : Code :=
  .leaf (.simple (bind side))
    (.compound (.whileTest forever)
      (.leaf (.simple (setFlag true))
        (.compound (.whileTest flagOfAnother)
          (.compound (.ifTest turnOfAnother)
            (.leaf (.simple (setFlag false))
              (.compound (.whileTest turnOfAnother) (.leaf (.simple some) .nil) .nil
                (.leaf (.simple (setFlag true)) .nil)))
            .nil .nil)
          .nil
          (.leaf (.simple setCs)
            (.leaf (.simple delCs)
              (.leaf (.simple giveTurn)
                (.leaf (.simple (setFlag false)) .nil))))))
      .nil .nil)

inductive Value where
  | flag (items : Side → Bool)
  | turn (side : Side)

/-- The class, with the lines where the bodies of the two functions begin. -/
abbrev program (line : Side → ℕ) : Program Side Attrs Locals Value where
  ids := [.t1, .t2]
  function side :=
    { name := side.name
      body := body side
      suite := by simp [body, Body.Suite]
      line := line side }
  new := ⟨fun _ => false, .t1⟩
  unbound := ⟨none, none, none⟩
  attrs self := [("flag", .flag self.flag), ("turn", .turn self.turn)]

/-! ## Control points -/

/-- The checkpoints of a thread, by the statement that comes next. -/
inductive Point where
  /-- `this, another = ...` -/
  | bind
  /-- `while True` -/
  | loop
  /-- `self.flag[this] = True` -/
  | lift
  /-- `while self.flag[another]` -/
  | look
  /-- `if self.turn == another` -/
  | ask
  /-- `self.flag[this] = False` in the loop -/
  | drop
  /-- `while self.turn == another` -/
  | spin
  | pass
  /-- `self.flag[this] = True` in the loop -/
  | again
  /-- `cs = True` -/
  | enter
  /-- `del cs` -/
  | leave
  /-- `self.turn = another` -/
  | give
  /-- `self.flag[this] = False` at the end -/
  | release
deriving DecidableEq

def critical (line : ℕ) : Code :=
  .leaf (.checkpoint (line + 18)) (.leaf (.simple setCs)
    (.leaf (.checkpoint (line + 20)) (.leaf (.simple delCs)
      (.leaf (.checkpoint (line + 22)) (.leaf (.simple giveTurn)
        (.leaf (.checkpoint (line + 24)) (.leaf (.simple (setFlag false)) .nil)))))))

/-- The rest of the body of the `if` behind its inner loop. -/
def back (line : ℕ) : Code :=
  .leaf (.checkpoint (line + 16)) (.leaf (.simple (setFlag true)) .nil)

def spinning (line : ℕ) : Code :=
  .leaf (.checkpoint (line + 14)) (.leaf (.simple some) .nil)

def waiting (line : ℕ) : Code :=
  .compound (.whileTest turnOfAnother) (spinning line) .nil (back line)

def question (line : ℕ) : Code :=
  .compound (.ifTest turnOfAnother)
    (.leaf (.checkpoint (line + 10)) (.leaf (.simple (setFlag false))
      (.leaf (.checkpoint (line + 12)) (waiting line))))
    .nil .nil

def looking (line : ℕ) : Code :=
  .compound (.whileTest flagOfAnother) (.leaf (.checkpoint (line + 8)) (question line)) .nil
    (critical line)

def round (line : ℕ) : Code :=
  .leaf (.checkpoint (line + 4)) (.leaf (.simple (setFlag true))
    (.leaf (.checkpoint (line + 6)) (looking line)))

/-- The loop around everything. -/
def outer (line : ℕ) : (overScope Attrs Locals).Stack :=
  [.whileLoop forever (round line) .nil, .suite .nil]

/-- The loop that looks at the other flag. -/
def inner (line : ℕ) : (overScope Attrs Locals).Stack :=
  .whileLoop flagOfAnother (.leaf (.checkpoint (line + 8)) (question line)) .nil ::
    .suite (critical line) :: outer line

/-- The control of a thread at a checkpoint. -/
def stack (line : ℕ) (side : Side) : Point → (overScope Attrs Locals).Stack
  | .bind => [.suite (.leaf (.simple (bind side))
      (.leaf (.checkpoint (line + 2)) (.compound (.whileTest forever) (round line) .nil .nil)))]
  | .loop => [.suite (.compound (.whileTest forever) (round line) .nil .nil)]
  | .lift => .suite (.leaf (.simple (setFlag true))
      (.leaf (.checkpoint (line + 6)) (looking line))) :: outer line
  | .look => .suite (looking line) :: outer line
  | .ask => .suite (question line) :: inner line
  | .drop => .suite (.leaf (.simple (setFlag false))
      (.leaf (.checkpoint (line + 12)) (waiting line))) :: .suite .nil :: inner line
  | .spin => .suite (waiting line) :: .suite .nil :: inner line
  | .pass => .suite (.leaf (.simple some) .nil) ::
      .whileLoop turnOfAnother (spinning line) .nil :: .suite (back line) ::
        .suite .nil :: inner line
  | .again => .suite (.leaf (.simple (setFlag true)) .nil) :: .suite .nil :: inner line
  | .enter => .suite (.leaf (.simple setCs)
      (.leaf (.checkpoint (line + 20)) (.leaf (.simple delCs)
        (.leaf (.checkpoint (line + 22)) (.leaf (.simple giveTurn)
          (.leaf (.checkpoint (line + 24)) (.leaf (.simple (setFlag false)) .nil))))))) ::
            outer line
  | .leave => .suite (.leaf (.simple delCs)
      (.leaf (.checkpoint (line + 22)) (.leaf (.simple giveTurn)
        (.leaf (.checkpoint (line + 24)) (.leaf (.simple (setFlag false)) .nil))))) ::
          outer line
  | .give => .suite (.leaf (.simple giveTurn)
      (.leaf (.checkpoint (line + 24)) (.leaf (.simple (setFlag false)) .nil))) :: outer line
  | .release => .suite (.leaf (.simple (setFlag false)) .nil) :: outer line

/-- The locals at a checkpoint: `cs` is bound inside the critical section only. -/
def localsAt (side : Side) : Point → Locals
  | .bind => ⟨none, none, none⟩
  | .leave => ⟨some side, some side.other, some true⟩
  | _ => ⟨some side, some side.other, none⟩

/-- What a thread does up to its next checkpoint.  The condition of a loop is tested
again without one. -/
def advance (side : Side) (point : Point) (self : Attrs) : Point × Attrs :=
  let inspect (self : Attrs) : Point × Attrs :=
    (if self.flag side.other then .ask else .enter, self)
  match point with
  | .bind => (.loop, self)
  | .loop => (.lift, self)
  | .lift => (.look, { self with flag := Function.update self.flag side true })
  | .look => inspect self
  | .ask => if self.turn = side.other then (.drop, self) else inspect self
  | .drop => (.spin, { self with flag := Function.update self.flag side false })
  | .spin | .pass => (if self.turn = side.other then .pass else .again, self)
  | .again => inspect { self with flag := Function.update self.flag side true }
  | .enter => (.leave, self)
  | .leave => (.give, self)
  | .give => (.release, { self with turn := side.other })
  | .release => (.lift, { self with flag := Function.update self.flag side false })

section Resume

variable (line : ℕ) (side : Side) (self : Attrs) (extra : ℕ)

/-- The locals outside the critical section. -/
def outside : Locals := ⟨some side, some side.other, none⟩

/-- The test of the loop that looks at the other flag. -/
theorem resume_inner :
    ∃ work next, resume (extra + 4) (inner line) ⟨self, outside side⟩ =
      some (work, .yielded next
        (stack line side (if self.flag side.other then .ask else .enter))
        ⟨self, localsAt side (if self.flag side.other then .ask else .enter)⟩) := by
  have htest : ∀ holds, self.flag side.other = holds →
      (overScope Attrs Locals).test flagOfAnother ⟨self, outside side⟩ =
        some (holds, ⟨self, outside side⟩) := by
    rintro _ rfl
    rfl
  cases hflag : self.flag side.other with
  | true =>
      rw [inner, resume_whileLoop (htest true hflag) (extra + 3)]
      exact ⟨_, _, rfl⟩
  | false =>
      rw [inner, resume_whileLoop (htest false hflag) (extra + 3)]
      exact ⟨_, _, rfl⟩

theorem test_turn {holds : Bool} (hturn : decide (self.turn = side.other) = holds) :
    (overScope Attrs Locals).test turnOfAnother ⟨self, outside side⟩ =
      some (holds, ⟨self, outside side⟩) := by
  subst hturn
  rfl

/-- The test of the spinning loop, on entry and again after each `pass`. -/
theorem resume_waiting :
    ∃ work next, resume (extra + 4) (.whileLoop turnOfAnother (spinning line) .nil ::
        .suite (back line) :: .suite .nil :: inner line) ⟨self, outside side⟩ =
      some (work, .yielded next
        (stack line side (if self.turn = side.other then .pass else .again))
        ⟨self, localsAt side (if self.turn = side.other then .pass else .again)⟩) := by
  by_cases hturn : self.turn = side.other
  · rw [if_pos hturn, resume_whileLoop (test_turn side self (decide_eq_true hturn)) (extra + 3)]
    exact ⟨_, _, rfl⟩
  · rw [if_neg hturn, resume_whileLoop (test_turn side self (decide_eq_false hturn)) (extra + 3)]
    exact ⟨_, _, rfl⟩

theorem resume_question :
    ∃ work next, resume (extra + 8) (.suite (question line) :: inner line) ⟨self, outside side⟩ =
      some (work, .yielded next (stack line side (advance side .ask self).1)
        ⟨(advance side .ask self).2, localsAt side (advance side .ask self).1⟩) := by
  by_cases hturn : self.turn = side.other
  · rw [question, resume_ifTest (test_turn side self (decide_eq_true hturn)) (extra + 7)]
    simp only [advance, if_pos hturn]
    exact ⟨_, _, rfl⟩
  · rw [question, resume_ifTest (test_turn side self (decide_eq_false hturn)) (extra + 7)]
    simp only [advance, if_neg hturn]
    exact exists_resume_map (resume_inner line side self (extra + 1))

/-- A resumed thread goes from checkpoint to checkpoint. -/
theorem resume_stack (point : Point) :
    ∃ work next, resume (extra + 8) (stack line side point) ⟨self, localsAt side point⟩ =
      some (work, .yielded next (stack line side (advance side point self).1)
        ⟨(advance side point self).2, localsAt side (advance side point self).1⟩) := by
  cases point with
  | bind => exact ⟨_, _, rfl⟩
  | loop => exact ⟨_, _, rfl⟩
  | lift => exact ⟨_, _, rfl⟩
  | look => exact resume_inner line side self (extra + 3)
  | ask => exact resume_question line side self extra
  | drop => exact ⟨_, _, rfl⟩
  | spin => exact resume_waiting line side self (extra + 3)
  | pass => exact exists_resume_map (resume_waiting line side self (extra + 2))
  | again =>
      exact exists_resume_map (resume_inner line side
        { self with flag := Function.update self.flag side true } (extra + 1))
  | enter => exact ⟨_, _, rfl⟩
  | leave => exact ⟨_, _, rfl⟩
  | give => exact ⟨_, _, rfl⟩
  | release => exact ⟨_, _, rfl⟩

end Resume

abbrev endless (line : Side → ℕ) (extra : ℕ) : Endless (program line) (extra + 8) where
  Point := Point
  start := .bind
  stack side := stack (line side) side
  locals := localsAt
  advance := advance
  call_yields side _ := by
    cases side with
    | t1 => exact ⟨_, _, rfl⟩
    | t2 => exact ⟨_, _, rfl⟩
  point_yields side point obj := resume_stack (line side) side obj extra point

/-! ## Mutual exclusion -/

/-- The flag of a thread at this point. -/
def raised : Point → Bool
  | .look | .ask | .drop | .enter | .leave | .give | .release => true
  | .bind | .loop | .lift | .spin | .pass | .again => false

/-- The thread found the other flag lowered and has not lowered its own one since. -/
def inside : Point → Bool
  | .enter | .leave | .give | .release => true
  | _ => false

structure Inv (places : Places Side Attrs Point) : Prop where
  flags : ∀ side, places.obj.flag side = raised (places.point side)
  alone : ∀ side, inside (places.point side) → ¬ inside (places.point side.other)

section Steps

variable {side : Side} {point : Point} {self : Attrs} {places : Places Side Attrs Point}

theorem raised_of_inside (hinside : inside point) : raised point := by
  cases point <;> first | rfl | cases hinside

theorem flag_advance (hflag : self.flag side = raised point) :
    (advance side point self).2.flag =
      Function.update self.flag side (raised (advance side point self).1) := by
  have hkeep : Function.update self.flag side (raised point) = self.flag := by
    rw [← hflag, Function.update_eq_self]
  cases point with
  | bind | loop | enter | leave | give => exact hkeep.symm
  | lift | drop | release => rfl
  | look =>
      simp only [advance]
      split_ifs
      · exact hkeep.symm
      · exact hkeep.symm
  | ask =>
      simp only [advance]
      split_ifs
      · exact hkeep.symm
      · exact hkeep.symm
      · exact hkeep.symm
  | spin | pass =>
      simp only [advance]
      split_ifs
      · exact hkeep.symm
      · exact hkeep.symm
  | again =>
      simp only [advance]
      split_ifs
      · rfl
      · rfl

/-- Whoever gets inside has just found the other flag lowered. -/
theorem inside_advance (hinside : inside (advance side point self).1) :
    inside point ∨ self.flag side.other = false := by
  have hupdate : Function.update self.flag side true side.other = self.flag side.other :=
    Function.update_of_ne side.other_ne _ _
  cases hflag : self.flag side.other with
  | false => exact .inr rfl
  | true =>
      left
      cases point <;> simp_all [advance, inside]
      all_goals split_ifs at hinside

theorem Inv.step (hinv : Inv places) (side : Side) (line : Side → ℕ) (extra : ℕ) :
    Inv ((endless line extra).step places side) := by
  have hmoved : ((endless line extra).step places side).point =
      Function.update places.point side (advance side (places.point side) places.obj).1 := rfl
  have hflags : ((endless line extra).step places side).obj.flag =
      Function.update places.obj.flag side
        (raised (advance side (places.point side) places.obj).1) :=
    flag_advance (hinv.flags side)
  have halone : inside (advance side (places.point side) places.obj).1 →
      ¬ inside (places.point side.other) := by
    intro hinside hother
    obtain hbefore | hlowered := inside_advance hinside
    · exact hinv.alone side hbefore hother
    · rw [hinv.flags, raised_of_inside hother] at hlowered
      cases hlowered
  constructor
  · intro thread
    rw [hmoved, hflags]
    by_cases hthread : thread = side
    · subst hthread
      simp only [Function.update_self]
    · simp only [Function.update_of_ne hthread, hinv.flags]
  · intro thread
    rw [hmoved]
    obtain rfl | rfl := side.eq_or_eq_other thread
    · rw [Function.update_self, Function.update_of_ne thread.other_ne]
      exact halone
    · rw [Side.other_other, Function.update_self, Function.update_of_ne side.other_ne]
      exact fun hother hinside => halone hinside hother

theorem inv_init (line : Side → ℕ) (extra : ℕ) : Inv (endless line extra).init :=
  ⟨fun _ => rfl, fun _ hinside => by cases hinside⟩

end Steps

/-- `localvar(state, t, 'cs')`, which the markers ask for. -/
abbrev InCriticalSection {line : Side → ℕ} {fuel : ℕ}
    (machine : ((program line).checked fuel).Machine)
    (index : ((program line).checked fuel).Thread) : Prop :=
  Program.Sets Locals.cs machine index

theorem cs_localsAt_iff {side : Side} {point : Point} :
    (localsAt side point).cs = some true ↔ point = .leave := by
  cases point <;> simp [localsAt]

/-- In no trace are both threads in the critical section. -/
theorem dekker_excludes (line : Side → ℕ) (extra : ℕ)
    (trace : List ((program line).checked (extra + 8)).Thread) :
    ∃ machine, ((program line).checked (extra + 8)).replay trace = some machine ∧
      ∀ first second, InCriticalSection machine first → InCriticalSection machine second →
        first = second := by
  apply Endless.excludes (endless line extra) (by decide : [Side.t1, Side.t2].Nodup) Locals.cs
    (inv_init line extra) (fun places side hinv => hinv.step side line extra)
  intro places side hinv hfirst hsecond
  rw [cs_localsAt_iff] at hfirst hsecond
  exact hinv.alone side (by rw [hfirst]; rfl) (by rw [hsecond]; rfl)

/-! ## No starvation -/

/-- The steps of the other thread until it has lowered its flag and waits, when it is
not its turn. -/
def rival : Point → ℕ
  | .enter => 10
  | .leave => 9
  | .give => 8
  | .release => 7
  | .bind => 6
  | .loop => 5
  | .lift => 4
  | .look | .again => 3
  | .ask => 2
  | .drop => 1
  | .spin | .pass => 0

/-- How far a thread is from the critical section when it is its turn; it may have to
wait for the other thread in front of the `if`. -/
def ahead (rival : ℕ) : Point → ℕ
  | .bind => 80
  | .loop | .drop | .release => 60
  | .lift | .spin | .pass => 40
  | .look | .again => 20
  | .ask => 2 + rival
  | .enter => 1
  | .leave | .give => 0

section Progress

variable {side : Side} {point : Point} {self : Attrs} {places : Places Side Attrs Point}

theorem rival_le (point : Point) : rival point ≤ 10 := by
  cases point <;> decide

theorem lowered_of_rival (hzero : rival point = 0) : raised point = false := by
  cases point <;> first | rfl | simp [rival] at hzero

/-- When it is not its turn and it finds the other flag raised, a thread comes to wait. -/
theorem rival_advance (hturn : self.turn = side.other) (hflag : self.flag side.other = true) :
    rival (advance side point self).1 < rival point ∨
      rival point = 0 ∧ rival (advance side point self).1 = 0 := by
  have hupdate : Function.update self.flag side true side.other = true := by
    rw [Function.update_of_ne side.other_ne, hflag]
  cases point <;> simp [advance, rival, hturn, hflag, hupdate]

/-- A thread does not give the turn away but on leaving, and never takes it. -/
theorem turn_advance (side : Side) (point : Point) (self : Attrs) :
    (advance side point self).2.turn = if point = .give then side.other else self.turn := by
  cases point with
  | ask =>
      simp only [advance, reduceCtorEq, if_false]
      split_ifs <;> rfl
  | _ => rfl

/-- When it is its turn, each step brings a thread nearer but the question in the loop. -/
theorem ahead_advance (hturn : self.turn = side) (hask : point ≠ .ask) (hleave : point ≠ .leave)
    (hgive : point ≠ .give) {r : ℕ} (hr : r ≤ 10) :
    (advance side point self).1 ≠ .give ∧
      (point = .enter ∧ (advance side point self).1 = .leave ∨
        ahead r (advance side point self).1 < ahead r point) := by
  have hother : side ≠ side.other := side.other_ne.symm
  cases point with
  | bind | loop | lift | drop | enter | release => simp [advance, ahead]
  | look | again =>
      simp only [advance]
      split_ifs <;> simp [ahead]
      all_goals omega
  | spin | pass => simp [advance, ahead, hturn, hother]
  | ask => exact absurd rfl hask
  | leave => exact absurd rfl hleave
  | give => exact absurd rfl hgive

/-- It is the turn of the thread, and it is not about to give it away. -/
def OnTurn (side : Side) (places : Places Side Attrs Point) : Prop :=
  Inv places ∧ places.obj.turn = side ∧ places.point side ≠ .give

def Entered (side : Side) (places : Places Side Attrs Point) : Prop :=
  Inv places ∧ places.obj.turn = side ∧ places.point side = .leave

variable (line : Side → ℕ) (extra : ℕ)

theorem step_self (side : Side) (places : Places Side Attrs Point) :
    ((endless line extra).step places side).point side =
      (advance side (places.point side) places.obj).1 :=
  Function.update_self ..

theorem step_other {thread : Side} (places : Places Side Attrs Point) (hthread : thread ≠ side) :
    ((endless line extra).step places side).point thread = places.point thread :=
  Function.update_of_ne hthread ..

theorem step_turn (places : Places Side Attrs Point) :
    ((endless line extra).step places side).obj.turn =
      if places.point side = .give then side.other else places.obj.turn :=
  turn_advance side (places.point side) places.obj

/-- The thread that brings `side` nearer to the critical section. -/
def helper (side : Side) (places : Places Side Attrs Point) : Side :=
  if places.point side = .ask ∧ rival (places.point side.other) ≠ 0 then side.other else side

def distance (side : Side) (places : Places Side Attrs Point) : ℕ :=
  ahead (rival (places.point side.other)) (places.point side)

/-- A step of the thread whose turn it is. -/
theorem approaches_self (hturn : OnTurn side places) (hgoal : ¬ Entered side places) :
    Fairness.Approaches (endless line extra).step (OnTurn side) (Entered side) (distance side)
      (helper side) places side := by
  obtain ⟨hinv, hturn, hgive⟩ := hturn
  have hinv' := hinv.step side line extra
  have hkept : ((endless line extra).step places side).obj.turn = side := by
    rw [step_turn, if_neg hgive, hturn]
  have hrival : rival (((endless line extra).step places side).point side.other) =
      rival (places.point side.other) := by
    rw [step_other line extra places side.other_ne]
  have hleave : places.point side ≠ .leave := fun hleave => hgoal ⟨hinv, hturn, hleave⟩
  by_cases hask : places.point side = .ask
  · have hself := step_self line extra side places
    have hother : side ≠ side.other := side.other_ne.symm
    rw [hask] at hself
    simp only [advance, hturn, if_neg hother] at hself
    cases hflag : places.obj.flag side.other with
    | false =>
        rw [hflag, if_neg Bool.false_ne_true] at hself
        refine .inr ⟨⟨hinv', hkept, by rw [hself]; nofun⟩, .inl ?_⟩
        simp only [distance, hself, hask, ahead]
        omega
    | true =>
        -- the other thread has not lowered its flag, and so is the one to move
        rw [hflag, if_pos rfl] at hself
        have hbusy : rival (places.point side.other) ≠ 0 := by
          intro hzero
          rw [hinv.flags, lowered_of_rival hzero] at hflag
          cases hflag
        have hhelper : helper side places = side.other := if_pos ⟨hask, hbusy⟩
        refine .inr ⟨⟨hinv', hkept, by rw [hself]; nofun⟩, .inr ⟨?_, ?_, ?_⟩⟩
        · rw [hhelper]
          exact hother
        · simp only [distance, hself, hask, hrival]
        · rw [hhelper]
          exact if_pos ⟨hself, by rwa [hrival]⟩
  · obtain ⟨hgive', hnearer⟩ := ahead_advance hturn hask hleave hgive (rival_le _)
    rw [← step_self line extra _ places] at hgive' hnearer
    obtain ⟨-, hentered⟩ | hlower := hnearer
    · exact .inl ⟨hinv', hkept, hentered⟩
    · refine .inr ⟨⟨hinv', hkept, hgive'⟩, .inl ?_⟩
      simp only [distance, hrival]
      exact hlower

/-- A step of the other thread. -/
theorem approaches_other (hturn : OnTurn side places) :
    Fairness.Approaches (endless line extra).step (OnTurn side) (Entered side) (distance side)
      (helper side) places side.other := by
  obtain ⟨hinv, hturn, hgive⟩ := hturn
  have hinv' := hinv.step side.other line extra
  have hsame : ((endless line extra).step places side.other).point side = places.point side :=
    step_other line extra places side.other_ne.symm
  have hkept : OnTurn side ((endless line extra).step places side.other) := by
    refine ⟨hinv', ?_, by rwa [hsame]⟩
    rw [step_turn, Side.other_other, hturn, ite_self]
  refine .inr ⟨hkept, ?_⟩
  by_cases hask : places.point side = .ask
  · have hflag : places.obj.flag side = true := by
      rw [hinv.flags, hask]
      rfl
    have hwaits := @rival_advance side.other (places.point side.other) places.obj
      (by rw [Side.other_other, hturn]) (by rw [Side.other_other, hflag])
    rw [← step_self line extra _ places] at hwaits
    obtain hlower | ⟨hzero, hzero'⟩ := hwaits
    · left
      simp only [distance, hsame, hask, ahead]
      omega
    · right
      have hhelper : ∀ state : Places Side Attrs Point, rival (state.point side.other) = 0 →
          helper side state = side := fun _ hrival => if_neg fun hboth => hboth.2 hrival
      rw [hhelper _ hzero, hhelper _ hzero']
      simp only [distance, hsame, hzero, hzero']
      exact ⟨side.other_ne, trivial, trivial⟩
  · right
    have hhelper : ∀ state : Places Side Attrs Point, state.point side = places.point side →
        helper side state = side ∧
          ∀ r, ahead r (state.point side) = ahead 0 (places.point side) := by
      intro state hstate
      refine ⟨if_neg fun hboth => hask (hstate.symm.trans hboth.1), fun r => ?_⟩
      rw [hstate]
      cases hpoint : places.point side <;> first | rfl | exact absurd hpoint hask
    obtain ⟨hbefore, hrank⟩ := hhelper places rfl
    obtain ⟨hafter, hrank'⟩ := hhelper _ hsame
    rw [hbefore, hafter]
    simp only [distance, hrank, hrank']
    exact ⟨side.other_ne, trivial, trivial⟩

/-- Whoever has the turn enters the critical section. -/
theorem leadsTo_entered (side : Side) :
    Fairness.LeadsTo (endless line extra).step (OnTurn side) (Entered side) := by
  apply Fairness.LeadsTo.of_rank (distance side) (helper side)
  intro places thread hturn hgoal
  obtain rfl | rfl := side.eq_or_eq_other thread
  · exact approaches_self line extra hturn hgoal
  · exact approaches_other line extra hturn

/-- The thread is about to give its turn away. -/
def Leaving (side : Side) (places : Places Side Attrs Point) : Prop :=
  Inv places ∧ places.obj.turn = side ∧
    (places.point side = .leave ∨ places.point side = .give)

/-- It gives the turn to the other thread. -/
theorem leadsTo_onTurn_other (side : Side) :
    Fairness.LeadsTo (endless line extra).step (Leaving side) (OnTurn side.other) := by
  let steps (places : Places Side Attrs Point) : ℕ :=
    if places.point side = .leave then 1 else 0
  apply Fairness.LeadsTo.of_rank steps fun _ => side
  intro places thread hleaving _
  obtain ⟨hinv, hturn, hpoint⟩ := hleaving
  have hinv' := hinv.step thread line extra
  obtain rfl | rfl := side.eq_or_eq_other thread
  · have hself := step_self line extra thread places
    obtain hpoint | hpoint := hpoint
    · rw [hpoint] at hself
      refine .inr ⟨⟨hinv', ?_, .inr hself⟩, .inl ?_⟩
      · rw [step_turn, hpoint, if_neg nofun, hturn]
      · simp [steps, hself, hpoint, advance]
    · refine .inl ⟨hinv', ?_, ?_⟩
      · rw [step_turn, if_pos hpoint]
      · rw [step_other line extra places thread.other_ne]
        intro hgive
        exact hinv.alone thread (by rw [hpoint]; rfl) (by rw [hgive]; rfl)
  · have hsame : ((endless line extra).step places side.other).point side = places.point side :=
      step_other line extra places side.other_ne.symm
    refine .inr ⟨⟨hinv', ?_, by rwa [hsame]⟩, .inr ⟨side.other_ne, ?_, rfl⟩⟩
    · rw [step_turn, Side.other_other, hturn, ite_self]
    · simp only [steps, hsame]

/-- From any state each thread gets into the critical section. -/
theorem leadsTo_critical (side : Side) :
    Fairness.LeadsTo (endless line extra).step Inv (Entered side) := by
  have hother : Fairness.LeadsTo (endless line extra).step (Leaving side.other) (Entered side) := by
    have hback := leadsTo_onTurn_other line extra side.other
    rw [Side.other_other] at hback
    exact hback.trans (leadsTo_entered line extra side)
  have hturned : Fairness.LeadsTo (endless line extra).step (OnTurn side.other) (Entered side) :=
    ((leadsTo_entered line extra side.other).mono (fun _ => id)
      fun _ hentered => ⟨hentered.1, hentered.2.1, .inl hentered.2.2⟩).trans hother
  have hown : Fairness.LeadsTo (endless line extra).step (Leaving side) (Entered side) :=
    (leadsTo_onTurn_other line extra side).trans hturned
  refine (((leadsTo_entered line extra side).or hown).or (hturned.or hother)).mono ?_ fun _ => id
  intro places hinv
  obtain hturn | hturn := side.eq_or_eq_other places.obj.turn
  · left
    by_cases hgive : places.point side = .give
    · exact .inr ⟨hinv, hturn, .inr hgive⟩
    · exact .inl ⟨hinv, hturn, hgive⟩
  · right
    by_cases hgive : places.point side.other = .give
    · exact .inr ⟨hinv, hturn, .inr hgive⟩
    · exact .inl ⟨hinv, hturn, hgive⟩

end Progress

/-- Under every fair schedule each thread is in the critical section again and again. -/
theorem dekker_serves (line : Side → ℕ) (extra : ℕ)
    (schedule : ℕ → ((program line).checked (extra + 8)).Thread)
    (hfair : Fairness.Fair schedule) (index : ((program line).checked (extra + 8)).Thread)
    (n : ℕ) :
    ∃ m machine, n ≤ m ∧
      ((program line).checked (extra + 8)).replay ((List.range m).map schedule) = some machine ∧
      InCriticalSection machine index := by
  apply Endless.serves rfl Locals.cs (endless line extra) (inv_init line extra)
    (fun places side hinv => hinv.step side line extra) ?_ hfair
  intro side
  refine (leadsTo_critical line extra side).mono (fun _ => id) fun places hentered => ?_
  exact cs_localsAt_iff.mpr hentered.2.2

/-- The lines where `astor` prints the bodies of the file. -/
def shippedLine : Side → ℕ
  | .t1 => 6
  | .t2 => 34

/-- The two threads in turn. -/
theorem dekker_serves_shipped :
    Fairness.Fair (Fin.ofNat 2) ∧
      ∀ index n, ∃ m machine, n ≤ m ∧
        ((program shippedLine).checked 8).replay ((List.range m).map (Fin.ofNat 2)) =
          some machine ∧ InCriticalSection machine index :=
  ⟨Fairness.fair_ofNat 2, fun index n =>
    dekker_serves shippedLine 0 (Fin.ofNat 2) (Fairness.fair_ofNat 2) index n⟩

end JyyOS.ModelChecker.DekkerLock
