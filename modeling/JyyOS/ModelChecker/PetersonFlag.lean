import JyyOS.ModelChecker.Program

/-!
# Peterson's algorithm (`peterson-flag.py`)

A thread raises its flag, gives the turn to the other one and waits as long as the
other flag is raised and the turn is the other's.
-/

namespace JyyOS.ModelChecker.PetersonFlag

open JyyOS.ModelChecker.Language

/-! ## The class -/

/-- The attributes.  `flag` is a string with one character for each thread, its mark or
a blank; `turn` is the mark of a thread, or a blank. -/
structure Attrs where
  flag : Side → Bool
  turn : Option Side

/-- The local variable `cs`. -/
abbrev Locals := Option Bool

abbrev Code := (overScope Attrs Locals).Code

/-- `self.flag = ...`, which replaces one of the two characters. -/
def setFlag (side : Side) (value : Bool) (scope : Scope Attrs Locals) :
    Option (Scope Attrs Locals) :=
  some { scope with
    self := { scope.self with flag := Function.update scope.self.flag side value } }

/-- `self.turn = ...` -/
def giveTurn (side : Side) (scope : Scope Attrs Locals) : Option (Scope Attrs Locals) :=
  some { scope with self := { scope.self with turn := some side.other } }

/-- The condition of the waiting loop. -/
def mustWait (side : Side) (self : Attrs) : Bool :=
  self.flag side.other && decide (self.turn = some side.other)

def testWait (side : Side) (scope : Scope Attrs Locals) : Option (Bool × Scope Attrs Locals) :=
  some (mustWait side scope.self, scope)

def setCs (scope : Scope Attrs Locals) : Option (Scope Attrs Locals) :=
  some { scope with locals := some true }

/-- `del` of an unbound variable raises. -/
def delCs (scope : Scope Attrs Locals) : Option (Scope Attrs Locals) := do
  let _ ← scope.locals
  some { scope with locals := none }

def body (side : Side) : Code :=
  .compound (.whileTest forever)
    (.leaf (.simple (setFlag side true))
      (.leaf (.simple (giveTurn side))
        (.compound (.whileTest (testWait side)) (.leaf (.simple some) .nil) .nil
          (.leaf (.simple setCs)
            (.leaf (.simple delCs)
              (.leaf (.simple (setFlag side false)) .nil))))))
    .nil .nil

inductive Value where
  | flag (characters : Side → Bool)
  | turn (character : Option Side)

/-- The class, with the lines where the bodies of the two functions begin. -/
abbrev program (line : Side → ℕ) : Program Side Attrs Locals Value where
  ids := [.t1, .t2]
  function side :=
    { name := side.name
      body := body side
      suite := by simp [body, Body.Suite]
      line := line side }
  new := ⟨fun _ => false, none⟩
  unbound := none
  attrs self := [("flag", .flag self.flag), ("turn", .turn self.turn)]

/-! ## Control points -/

/-- The checkpoints of a thread, by the statement that comes next. -/
inductive Point where
  /-- `while True` -/
  | loop
  /-- `self.flag = ...` at the beginning -/
  | lift
  /-- `self.turn = ...` -/
  | give
  /-- `while self.flag[...] != ' ' and self.turn == ...` -/
  | look
  | pass
  /-- `cs = True` -/
  | enter
  /-- `del cs` -/
  | leave
  /-- `self.flag = ...` at the end -/
  | lower
deriving DecidableEq

def critical (line : ℕ) (side : Side) : Code :=
  .leaf (.checkpoint (line + 10)) (.leaf (.simple setCs)
    (.leaf (.checkpoint (line + 12)) (.leaf (.simple delCs)
      (.leaf (.checkpoint (line + 14)) (.leaf (.simple (setFlag side false)) .nil)))))

def spinning (line : ℕ) : Code :=
  .leaf (.checkpoint (line + 8)) (.leaf (.simple some) .nil)

def waiting (line : ℕ) (side : Side) : Code :=
  .compound (.whileTest (testWait side)) (spinning line) .nil (critical line side)

def round (line : ℕ) (side : Side) : Code :=
  .leaf (.checkpoint (line + 2)) (.leaf (.simple (setFlag side true))
    (.leaf (.checkpoint (line + 4)) (.leaf (.simple (giveTurn side))
      (.leaf (.checkpoint (line + 6)) (waiting line side)))))

/-- The loop around everything. -/
def outer (line : ℕ) (side : Side) : (overScope Attrs Locals).Stack :=
  [.whileLoop forever (round line side) .nil, .suite .nil]

/-- The control of a thread at a checkpoint. -/
def stack (line : ℕ) (side : Side) : Point → (overScope Attrs Locals).Stack
  | .loop => [.suite (.compound (.whileTest forever) (round line side) .nil .nil)]
  | .lift => .suite (.leaf (.simple (setFlag side true))
      (.leaf (.checkpoint (line + 4)) (.leaf (.simple (giveTurn side))
        (.leaf (.checkpoint (line + 6)) (waiting line side))))) :: outer line side
  | .give => .suite (.leaf (.simple (giveTurn side))
      (.leaf (.checkpoint (line + 6)) (waiting line side))) :: outer line side
  | .look => .suite (waiting line side) :: outer line side
  | .pass => .suite (.leaf (.simple some) .nil) ::
      .whileLoop (testWait side) (spinning line) .nil ::
        .suite (critical line side) :: outer line side
  | .enter => .suite (.leaf (.simple setCs)
      (.leaf (.checkpoint (line + 12)) (.leaf (.simple delCs)
        (.leaf (.checkpoint (line + 14)) (.leaf (.simple (setFlag side false)) .nil))))) ::
          outer line side
  | .leave => .suite (.leaf (.simple delCs)
      (.leaf (.checkpoint (line + 14)) (.leaf (.simple (setFlag side false)) .nil))) ::
        outer line side
  | .lower => .suite (.leaf (.simple (setFlag side false)) .nil) :: outer line side

/-- `cs` is bound inside the critical section only. -/
def csAt : Point → Option Bool
  | .leave => some true
  | _ => none

/-- What a thread does up to its next checkpoint.  The condition of the waiting loop is
tested again without one. -/
def advance (side : Side) (point : Point) (self : Attrs) : Point × Attrs :=
  match point with
  | .loop => (.lift, self)
  | .lift => (.give, { self with flag := Function.update self.flag side true })
  | .give => (.look, { self with turn := some side.other })
  | .look | .pass => (if mustWait side self then .pass else .enter, self)
  | .enter => (.leave, self)
  | .leave => (.lower, self)
  | .lower => (.lift, { self with flag := Function.update self.flag side false })

section Resume

variable (line : ℕ) (side : Side) (self : Attrs) (extra : ℕ)

/-- The test of the waiting loop, on entry and again after each `pass`. -/
theorem resume_waiting :
    ∃ work next, resume (extra + 4) (.whileLoop (testWait side) (spinning line) .nil ::
        .suite (critical line side) :: outer line side) ⟨self, none⟩ =
      some (work, .yielded next
        (stack line side (if mustWait side self then .pass else .enter))
        ⟨self, csAt (if mustWait side self then .pass else .enter)⟩) := by
  have htest : ∀ holds, mustWait side self = holds →
      (overScope Attrs Locals).test (testWait side) ⟨self, none⟩ =
        some (holds, ⟨self, none⟩) := by
    rintro _ rfl
    rfl
  cases hwait : mustWait side self with
  | true =>
      rw [resume_whileLoop (htest true hwait) (extra + 3)]
      exact ⟨_, _, rfl⟩
  | false =>
      rw [resume_whileLoop (htest false hwait) (extra + 3)]
      exact ⟨_, _, rfl⟩

/-- A resumed thread goes from checkpoint to checkpoint. -/
theorem resume_stack (point : Point) :
    ∃ work next, resume (extra + 8) (stack line side point) ⟨self, csAt point⟩ =
      some (work, .yielded next (stack line side (advance side point self).1)
        ⟨(advance side point self).2, csAt (advance side point self).1⟩) := by
  cases point with
  | loop => exact ⟨_, _, rfl⟩
  | lift => exact ⟨_, _, rfl⟩
  | give => exact ⟨_, _, rfl⟩
  | look => exact resume_waiting line side self (extra + 3)
  | pass => exact exists_resume_map (resume_waiting line side self (extra + 2))
  | enter => exact ⟨_, _, rfl⟩
  | leave => exact ⟨_, _, rfl⟩
  | lower => exact ⟨_, _, rfl⟩

end Resume

abbrev endless (line : Side → ℕ) (extra : ℕ) : Endless (program line) (extra + 8) where
  Point := Point
  start := .loop
  stack side := stack (line side) side
  locals _ := csAt
  advance := advance
  call_yields side _ := by
    cases side with
    | t1 => exact ⟨_, _, rfl⟩
    | t2 => exact ⟨_, _, rfl⟩
  point_yields side point obj := resume_stack (line side) side obj extra point

/-! ## Mutual exclusion -/

/-- The thread has raised its flag and not lowered it. -/
def raised : Point → Bool
  | .give | .look | .pass | .enter | .leave | .lower => true
  | .loop | .lift => false

/-- The thread has given the turn away since it raised its flag. -/
def past : Point → Bool
  | .look | .pass | .enter | .leave | .lower => true
  | .loop | .lift | .give => false

/-- The thread does not have to wait any more. -/
def inside : Point → Bool
  | .enter | .leave | .lower => true
  | _ => false

structure Inv (places : Places Side Attrs Point) : Prop where
  flags : ∀ side, places.obj.flag side = raised (places.point side)
  settled : ∀ side, past (places.point side) → places.obj.turn ≠ none
  clear : ∀ side, inside (places.point side) →
    places.obj.turn = some side ∨ past (places.point side.other) = false

section Steps

variable {side : Side} {point : Point} {self : Attrs} {places : Places Side Attrs Point}

theorem flag_advance (hflag : self.flag side = raised point) :
    (advance side point self).2.flag =
      Function.update self.flag side (raised (advance side point self).1) := by
  have hkeep : Function.update self.flag side (raised point) = self.flag := by
    rw [← hflag, Function.update_eq_self]
  cases point with
  | loop | give | enter | leave => exact hkeep.symm
  | lift | lower => rfl
  | look | pass =>
      simp only [advance]
      split_ifs
      · exact hkeep.symm
      · exact hkeep.symm

theorem turn_advance (side : Side) (point : Point) (self : Attrs) :
    (advance side point self).2.turn =
      if point = .give then some side.other else self.turn := by
  cases point <;> rfl

theorem past_advance (hpast : past (advance side point self).1) : point = .give ∨ past point := by
  cases point <;> simp_all [advance, past]

theorem inside_advance (hinside : inside (advance side point self).1) :
    point ≠ .give ∧ (inside point ∨ past point ∧ mustWait side self = false) := by
  cases point with
  | look | pass =>
      simp only [advance] at hinside
      split_ifs at hinside with hwait
      · cases hinside
      · exact ⟨nofun, .inr ⟨rfl, Bool.eq_false_iff.mpr hwait⟩⟩
  | enter | leave => exact ⟨nofun, .inl rfl⟩
  | loop | lift | give | lower => cases hinside

theorem raised_of_past (hpast : past point) : raised point := by
  cases point <;> first | rfl | cases hpast

theorem past_of_inside (hinside : inside point) : past point := by
  cases point <;> first | rfl | cases hinside

/-- Whoever does not have to wait finds the other flag lowered or has the turn. -/
theorem Inv.clear_of_not_mustWait (hinv : Inv places) (hpast : past (places.point side))
    (hwait : mustWait side places.obj = false) :
    places.obj.turn = some side ∨ past (places.point side.other) = false := by
  rw [mustWait, Bool.and_eq_false_iff, decide_eq_false_iff_not, hinv.flags] at hwait
  obtain hlowered | hturn := hwait
  · right
    rw [Bool.eq_false_iff]
    intro hother
    rw [raised_of_past hother] at hlowered
    cases hlowered
  · left
    obtain ⟨owner, howner⟩ := Option.ne_none_iff_exists'.mp (hinv.settled side hpast)
    obtain rfl | rfl := side.eq_or_eq_other owner
    · exact howner
    · exact absurd howner hturn

theorem Inv.step (hinv : Inv places) (side : Side) (line : Side → ℕ) (extra : ℕ) :
    Inv ((endless line extra).step places side) := by
  have hmoved : ((endless line extra).step places side).point =
      Function.update places.point side (advance side (places.point side) places.obj).1 := rfl
  have hflags : ((endless line extra).step places side).obj.flag =
      Function.update places.obj.flag side
        (raised (advance side (places.point side) places.obj).1) :=
    flag_advance (hinv.flags side)
  have hturn : ((endless line extra).step places side).obj.turn =
      if places.point side = .give then some side.other else places.obj.turn :=
    turn_advance side (places.point side) places.obj
  have hsettled : ∀ thread, (thread = side → places.point side ≠ .give) →
      past (((endless line extra).step places side).point thread) →
      past (places.point thread) := by
    intro thread hgive hpast
    rw [hmoved] at hpast
    by_cases hthread : thread = side
    · subst hthread
      rw [Function.update_self] at hpast
      exact (past_advance hpast).resolve_left (hgive rfl)
    · rwa [Function.update_of_ne hthread] at hpast
  refine ⟨?_, ?_, ?_⟩
  · intro thread
    rw [hmoved, hflags]
    by_cases hthread : thread = side
    · subst hthread
      simp only [Function.update_self]
    · simp only [Function.update_of_ne hthread, hinv.flags]
  · intro thread hpast
    rw [hturn]
    split_ifs with hgive
    · nofun
    · exact hinv.settled thread (hsettled thread (fun _ => hgive) hpast)
  · intro thread hinside
    obtain rfl | rfl := side.eq_or_eq_other thread
    · rw [hmoved, Function.update_self] at hinside
      obtain ⟨hgive, hinside⟩ := inside_advance hinside
      rw [hturn, if_neg hgive, hmoved, Function.update_of_ne thread.other_ne]
      obtain hinside | ⟨hpast, hwait⟩ := hinside
      · exact hinv.clear thread hinside
      · exact hinv.clear_of_not_mustWait hpast hwait
    · rw [hmoved, Function.update_of_ne side.other_ne] at hinside
      rw [hturn]
      split_ifs with hgive
      · exact .inl rfl
      · obtain howns | hother := hinv.clear side.other hinside
        · exact .inl howns
        · right
          rw [Bool.eq_false_iff]
          rw [Side.other_other] at hother ⊢
          intro hpast
          rw [hsettled side (fun _ => hgive) hpast] at hother
          cases hother

/-- No two threads are inside. -/
theorem Inv.alone (hinv : Inv places) (hinside : inside (places.point side)) :
    ¬ inside (places.point side.other) := by
  intro hother
  have hturn := (hinv.clear side hinside).resolve_right
    (by simp [past_of_inside hother])
  have hturn' := (hinv.clear side.other hother).resolve_right
    (by simp [past_of_inside hinside])
  rw [hturn] at hturn'
  exact side.other_ne (Option.some.inj hturn').symm

theorem inv_init (line : Side → ℕ) (extra : ℕ) : Inv (endless line extra).init where
  flags _ := rfl
  settled _ hpast := by cases hpast
  clear _ hinside := by cases hinside

end Steps

/-- `localvar(state, t, 'cs')`, which the markers ask for. -/
abbrev InCriticalSection {line : Side → ℕ} {fuel : ℕ}
    (machine : ((program line).checked fuel).Machine)
    (index : ((program line).checked fuel).Thread) : Prop :=
  Program.Sets id machine index

theorem csAt_iff {point : Point} : csAt point = some true ↔ point = .leave := by
  cases point <;> simp [csAt]

/-- In no trace are both threads in the critical section. -/
theorem peterson_flag_excludes (line : Side → ℕ) (extra : ℕ)
    (trace : List ((program line).checked (extra + 8)).Thread) :
    ∃ machine, ((program line).checked (extra + 8)).replay trace = some machine ∧
      ∀ first second, InCriticalSection machine first → InCriticalSection machine second →
        first = second := by
  apply Endless.excludes (endless line extra) (by decide : [Side.t1, Side.t2].Nodup) id
    (inv_init line extra) (fun places side hinv => hinv.step side line extra)
  intro places side hinv hfirst hsecond
  rw [id, csAt_iff] at hfirst hsecond
  exact hinv.alone (by rw [hfirst]; rfl) (by rw [hsecond]; rfl)

/-! ## No starvation -/

/-- How far the other thread is from giving the turn to a thread that waits for it. -/
def rival (owner : Bool) (point : Point) : ℕ :=
  if owner then 0
  else match point with
    | .look | .pass => 7
    | .enter => 6
    | .leave => 5
    | .lower => 4
    | .loop => 4
    | .lift => 3
    | .give => 2

/-- How far a thread is from the critical section. -/
def ahead (rival : ℕ) : Point → ℕ
  | .lower => 50
  | .loop => 50
  | .lift => 40
  | .give => 30
  | .look | .pass => 2 + rival
  | .enter => 1
  | .leave => 0

def Waits (point : Point) : Prop := point = .look ∨ point = .pass

instance (point : Point) : Decidable (Waits point) := inferInstanceAs (Decidable (_ ∨ _))

section Progress

variable {side : Side} {point : Point} {self : Attrs} {places : Places Side Attrs Point}
  (line : Side → ℕ) (extra : ℕ)

/-- What keeps `side` waiting. -/
def rivalOf (side : Side) (places : Places Side Attrs Point) : ℕ :=
  rival (decide (places.obj.turn ≠ some side.other)) (places.point side.other)

def distance (side : Side) (places : Places Side Attrs Point) : ℕ :=
  ahead (rivalOf side places) (places.point side)

/-- The thread that brings `side` nearer to the critical section. -/
def helper (side : Side) (places : Places Side Attrs Point) : Side :=
  if Waits (places.point side) ∧ places.obj.turn = some side.other then side.other else side

def Entered (side : Side) (places : Places Side Attrs Point) : Prop :=
  places.point side = .leave

theorem rivalOf_le (side : Side) (places : Places Side Attrs Point) : rivalOf side places ≤ 7 := by
  simp only [rivalOf, rival]
  split_ifs
  · decide
  · cases places.point side.other <;> decide

theorem step_self (side : Side) (places : Places Side Attrs Point) :
    ((endless line extra).step places side).point side =
      (advance side (places.point side) places.obj).1 :=
  Function.update_self ..

theorem step_other {thread : Side} (places : Places Side Attrs Point) (hthread : thread ≠ side) :
    ((endless line extra).step places side).point thread = places.point thread :=
  Function.update_of_ne hthread ..

theorem step_turn (side : Side) (places : Places Side Attrs Point) :
    ((endless line extra).step places side).obj.turn =
      if places.point side = .give then some side.other else places.obj.turn :=
  turn_advance side (places.point side) places.obj

/-- Outside the waiting loop every step leads on. -/
theorem ahead_advance (hwaits : ¬ Waits point) (hleave : point ≠ .leave) {r r' : ℕ}
    (hr : r' ≤ 7) : ahead r' (advance side point self).1 < ahead r point := by
  cases point with
  | loop | lift | enter | lower => simp [advance, ahead]
  | give =>
      simp only [advance, ahead]
      omega
  | look => exact absurd (.inl rfl) hwaits
  | pass => exact absurd (.inr rfl) hwaits
  | leave => exact absurd rfl hleave

theorem ahead_eq (hwaits : ¬ Waits point) (r r' : ℕ) : ahead r point = ahead r' point := by
  cases point <;> first | rfl | exact absurd (.inl rfl) hwaits | exact absurd (.inr rfl) hwaits

theorem ahead_of_waits (hwaits : Waits point) (r : ℕ) : ahead r point = 2 + r := by
  obtain rfl | rfl := hwaits
  · rfl
  · rfl

theorem advance_of_waits (hwaits : Waits point) :
    advance side point self = (if mustWait side self then .pass else .enter, self) := by
  obtain rfl | rfl := hwaits
  · rfl
  · rfl

/-- A thread that has the turn comes to give it away. -/
theorem rival_advance (hturn : self.turn ≠ some side.other) (hgive : point ≠ .give) :
    rival false (advance side point self).1 < rival false point := by
  have hwait : mustWait side self = false := by
    rw [mustWait, decide_eq_false hturn, Bool.and_false]
  cases point with
  | look | pass => simp [advance, hwait, rival]
  | give => exact absurd rfl hgive
  | loop | lift | enter | leave | lower => simp [advance, rival]

/-- A step of the thread itself. -/
theorem approaches_self (hinv : Inv places) (hgoal : ¬ Entered side places) :
    Fairness.Approaches (endless line extra).step Inv (Entered side) (distance side) (helper side)
      places side := by
  have hself := step_self line extra side places
  refine .inr ⟨hinv.step side line extra, ?_⟩
  by_cases hwaits : Waits (places.point side)
  · rw [advance_of_waits hwaits] at hself
    cases hwait : mustWait side places.obj with
    | false =>
        rw [hwait, if_neg Bool.false_ne_true] at hself
        left
        rw [distance, hself, distance, ahead_of_waits hwaits]
        exact (by omega : 1 < 2 + rivalOf side places)
    | true =>
        rw [hwait, if_pos rfl] at hself
        have hturn : places.obj.turn = some side.other :=
          of_decide_eq_true (Bool.and_eq_true_iff.mp hwait).2
        have hgive : places.point side ≠ .give := by
          intro hgive
          rw [hgive] at hwaits
          exact hwaits.elim nofun nofun
        have hturn' : ((endless line extra).step places side).obj.turn = some side.other := by
          rw [step_turn, if_neg hgive, hturn]
        have hhelper : helper side places = side.other := if_pos ⟨hwaits, hturn⟩
        refine .inr ⟨?_, ?_, ?_⟩
        · rw [hhelper]
          exact side.other_ne.symm
        · have hpass : Waits Point.pass := .inr rfl
          simp only [distance, hself, ahead_of_waits hwaits, ahead_of_waits hpass, rivalOf, hturn,
            hturn', step_other line extra places side.other_ne]
        · rw [hhelper]
          exact if_pos ⟨.inr hself, hturn'⟩
  · left
    simp only [distance, hself]
    exact ahead_advance hwaits hgoal (rivalOf_le side _)

/-- A step of the other thread. -/
theorem approaches_other (hinv : Inv places) :
    Fairness.Approaches (endless line extra).step Inv (Entered side) (distance side) (helper side)
      places side.other := by
  have hsame : ((endless line extra).step places side.other).point side = places.point side :=
    step_other line extra places side.other_ne.symm
  have hturn := step_turn line extra side.other places
  rw [Side.other_other] at hturn
  refine .inr ⟨hinv.step side.other line extra, ?_⟩
  by_cases hwaits : Waits (places.point side)
  · by_cases howner : places.obj.turn = some side.other
    · left
      simp only [distance, hsame, ahead_of_waits hwaits, Nat.add_lt_add_iff_left, rivalOf]
      by_cases hgive : places.point side.other = .give
      · rw [if_pos hgive] at hturn
        simp [hturn, howner, hgive, rival, side.other_ne.symm]
      · rw [if_neg hgive, howner] at hturn
        rw [hturn, howner, decide_eq_false (not_not_intro rfl), step_self]
        refine rival_advance ?_ hgive
        rw [howner, Side.other_other]
        exact fun hsides => side.other_ne (Option.some.inj hsides)
    · right
      have howner' : ((endless line extra).step places side.other).obj.turn ≠ some side.other := by
        rw [hturn]
        split_ifs
        · exact fun hsides => side.other_ne (Option.some.inj hsides).symm
        · exact howner
      have hhelper : helper side places = side := if_neg fun hboth => howner hboth.2
      have hhelper' : helper side ((endless line extra).step places side.other) = side :=
        if_neg fun hboth => howner' hboth.2
      rw [hhelper, hhelper']
      simp only [distance, hsame, rivalOf, decide_eq_true howner, decide_eq_true howner']
      exact ⟨side.other_ne, rfl, trivial⟩
  · right
    have hhelper : helper side places = side := if_neg fun hboth => hwaits hboth.1
    have hhelper' : helper side ((endless line extra).step places side.other) = side :=
      if_neg fun hboth => hwaits (hsame ▸ hboth.1)
    rw [hhelper, hhelper']
    simp only [distance, hsame]
    exact ⟨side.other_ne, ahead_eq hwaits _ _, trivial⟩

theorem leadsTo_entered (side : Side) :
    Fairness.LeadsTo (endless line extra).step Inv (Entered side) := by
  apply Fairness.LeadsTo.of_rank (distance side) (helper side)
  intro places thread hinv hgoal
  obtain rfl | rfl := side.eq_or_eq_other thread
  · exact approaches_self line extra hinv hgoal
  · exact approaches_other line extra hinv

end Progress

/-- Under every fair schedule each thread is in the critical section again and again. -/
theorem peterson_flag_serves (line : Side → ℕ) (extra : ℕ)
    (schedule : ℕ → ((program line).checked (extra + 8)).Thread)
    (hfair : Fairness.Fair schedule) (index : ((program line).checked (extra + 8)).Thread)
    (n : ℕ) :
    ∃ m machine, n ≤ m ∧
      ((program line).checked (extra + 8)).replay ((List.range m).map schedule) = some machine ∧
      InCriticalSection machine index := by
  apply Endless.serves rfl id (endless line extra) (inv_init line extra)
    (fun places side hinv => hinv.step side line extra) ?_ hfair
  intro side
  exact (leadsTo_entered line extra side).mono (fun _ => id) fun places hentered =>
    csAt_iff.mpr hentered

/-- The lines where `astor` prints the bodies of the file. -/
def shippedLine : Side → ℕ
  | .t1 => 6
  | .t2 => 24

/-- The two threads in turn. -/
theorem peterson_flag_serves_shipped :
    Fairness.Fair (Fin.ofNat 2) ∧
      ∀ index n, ∃ m machine, n ≤ m ∧
        ((program shippedLine).checked 8).replay ((List.range m).map (Fin.ofNat 2)) =
          some machine ∧ InCriticalSection machine index :=
  ⟨Fairness.fair_ofNat 2, fun index n =>
    peterson_flag_serves shippedLine 0 (Fin.ofNat 2) (Fairness.fair_ofNat 2) index n⟩

end JyyOS.ModelChecker.PetersonFlag
