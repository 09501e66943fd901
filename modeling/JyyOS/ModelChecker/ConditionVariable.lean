import JyyOS.Core.ThreadSum
import JyyOS.ModelChecker.Program

/-!
# A condition variable (`pc-cv.py`)

`ProducerConsumer` for any producers and consumers of a buffer with one place.  The
mutex is a spin lock; waiting on the condition variable releases it, adds the id of the
thread to `waits` and spins until the id is gone; every production and consumption
clears `waits`.
-/

namespace JyyOS.ModelChecker.ProducerConsumer

open JyyOS.ModelChecker.Language

/-! ## The class -/

/-- The attributes.  `locked` is the empty string or the lock, and `waits` is the ids
of the waiting threads, one behind the other. -/
structure Attrs where
  locked : Bool
  count : ℤ
  log : List Char
  waits : Str

/-- The values of the variable `_`. -/
inductive Blank where
  | unbound
  /-- Bound by the `for` loop. -/
  | int (value : ℕ)
  /-- Bound to the result of `release`. -/
  | none
deriving DecidableEq

/-- Which of the two functions the thread runs: `tp` produces in a loop, `tc1` and
`tc2` consume once. -/
inductive Role where
  | producer (rounds : ℕ)
  | consumer
deriving DecidableEq

abbrev Code := (overScope Attrs Blank).Code

namespace Attrs

def tryacquire (self : Attrs) : Bool × Attrs :=
  (!self.locked, { self with locked := true })

def release (self : Attrs) : Attrs := { self with locked := false }

end Attrs

/-- `not self.tryacquire()` -/
def notAcquired (scope : Scope Attrs Blank) :
    Option (Bool × Scope Attrs Blank) :=
  some (!scope.self.tryacquire.1, { scope with self := scope.self.tryacquire.2 })

/-- The value of `count` that the role waits for to change. -/
def Role.blocks : Role → ℤ
  | .producer _ => 1
  | .consumer => 0

/-- `self.count == ...` -/
def countBlocks (role : Role) (scope : Scope Attrs Blank) :
    Option (Bool × Scope Attrs Blank) :=
  some (decide (scope.self.count = role.blocks), scope)

/-- `_, self.waits = self.release(), self.waits + ...` -/
def condWait (id : Str) (scope : Scope Attrs Blank) :
    Option (Scope Attrs Blank) :=
  some ⟨{ scope.self.release with waits := scope.self.waits ++ id }, .none⟩

def inWaits (id : Str) (scope : Scope Attrs Blank) :
    Option (Bool × Scope Attrs Blank) :=
  some (decide (id <:+: scope.self.waits), scope)

def Role.char : Role → Char
  | .producer _ => '('
  | .consumer => ')'

def Role.change : Role → ℤ
  | .producer _ => 1
  | .consumer => -1

/-- `self.log, self.count = self.log + ..., self.count ± 1` -/
def Attrs.act (role : Role) (self : Attrs) : Attrs :=
  { self with log := self.log ++ [role.char], count := self.count + role.change }

def doAct (role : Role) (scope : Scope Attrs Blank) : Option (Scope Attrs Blank) :=
  some { scope with self := scope.self.act role }

/-- `self.waits = ''` -/
def wakeAll (scope : Scope Attrs Blank) : Option (Scope Attrs Blank) :=
  some { scope with self := { scope.self with waits := [] } }

def callRelease (scope : Scope Attrs Blank) : Option (Scope Attrs Blank) :=
  some { scope with self := scope.self.release }

/-- One production or consumption. -/
def common (role : Role) (id : Str) : Code :=
  .compound (.whileTest notAcquired) (.leaf (.simple some) .nil) .nil
    (.compound (.whileTest (countBlocks role))
      (.leaf (.simple (condWait id))
        (.compound (.whileTest (inWaits id)) (.leaf (.simple some) .nil) .nil
          (.compound (.whileTest notAcquired) (.leaf (.simple some) .nil) .nil .nil)))
      .nil
      (.leaf (.simple (doAct role))
        (.leaf (.simple wakeAll)
          (.leaf (.simple callRelease) .nil))))

/-- `for _ in range(rounds)` -/
def roundsLoop (rounds : ℕ) : Range Attrs Blank := ⟨rounds, fun value _ => .int value⟩

def body (role : Role) (id : Str) : Code :=
  match role with
  | .producer rounds =>
      .compound (.forEach (roundsLoop rounds)) (common (.producer rounds) id) .nil .nil
  | .consumer => common .consumer id

inductive Value where
  | locked (value : Bool)
  | count (value : ℤ)
  | log (value : List Char)
  | waits (value : Str)

/-- The class for threads with these roles, names and lines where their bodies
begin. -/
abbrev program (ids : List Str) (role : Str → Role) (name : Str → String) (line : Str → ℕ) :
    Program Str Attrs Blank Value where
  ids := ids
  function id :=
    { name := name id
      body := body (role id) id
      suite := by
        unfold body
        split
        · simp [common, Body.Suite]
        · simp [common, Body.Suite]
      line := line id }
  new := ⟨false, 0, [], []⟩
  unbound := .unbound
  attrs self := [("count", .count self.count), ("locked", .locked self.locked),
    ("log", .log self.log), ("waits", .waits self.waits)]

/-- `mark_negative`, from this value of its counter. -/
def markNegative (count : ℤ) : List Char → Option String
  | [] => none
  | ch :: rest =>
      let count := if ch = '(' then count + 1 else count
      let count := if ch = ')' then count - 1 else count
      if count < 0 then some "red" else markNegative count rest

/-! ## Control points -/

/-- The checkpoints of a thread, by the statement that comes next. -/
inductive Place where
  /-- The first statement of the function. -/
  | first
  /-- `while not self.tryacquire()` -/
  | lock
  | lockPass
  /-- `while self.count == ...` -/
  | test
  /-- `_, self.waits = self.release(), ...` -/
  | wait
  /-- `while ... in self.waits` -/
  | asleep
  | asleepPass
  /-- `while not self.tryacquire()` after the wait -/
  | relock
  | relockPass
  /-- `self.log, self.count = ...` -/
  | act
  /-- `self.waits = ''` -/
  | wake
  /-- `self.release()` -/
  | unlock
deriving DecidableEq

/-- Where a thread is, how many rounds of its loop have begun, and its variable. -/
structure Point where
  place : Place
  begun : ℕ
  blank : Blank

/-- A loop that only passes. -/
def passing (line : ℕ) : Code := .leaf (.checkpoint line) (.leaf (.simple some) .nil)

/-- The statements from the production or consumption on, with this line. -/
def finishing (role : Role) (line : ℕ) : Code :=
  .leaf (.checkpoint line) (.leaf (.simple (doAct role))
    (.leaf (.checkpoint (line + 2)) (.leaf (.simple wakeAll)
      (.leaf (.checkpoint (line + 4)) (.leaf (.simple callRelease) .nil)))))

def relocking (line : ℕ) : Code :=
  .compound (.whileTest notAcquired) (passing (line + 1)) .nil .nil

def sleeping (id : Str) (line : ℕ) : Code :=
  .compound (.whileTest (inWaits id)) (passing (line + 1)) .nil
    (.leaf (.checkpoint (line + 3)) (relocking (line + 4)))

/-- The body of the loop that waits for the count to change. -/
def waiting (id : Str) (line : ℕ) : Code :=
  .leaf (.checkpoint line) (.leaf (.simple (condWait id))
    (.leaf (.checkpoint (line + 2)) (sleeping id (line + 3))))

def testing (role : Role) (id : Str) (line : ℕ) : Code :=
  .compound (.whileTest (countBlocks role)) (waiting id (line + 1)) .nil
    (finishing role (line + 11))

def locking (role : Role) (id : Str) (line : ℕ) : Code :=
  .compound (.whileTest notAcquired) (passing (line + 1)) .nil
    (.leaf (.checkpoint (line + 3)) (testing role id (line + 4)))

/-- The line of the header of the first loop on the mutex. -/
def Role.base (line : ℕ) : Role → ℕ
  | .producer _ => line + 3
  | .consumer => line + 1

/-- The body of the `for` loop. -/
def round (role : Role) (id : Str) (line : ℕ) : Code :=
  .leaf (.checkpoint (line + 2)) (locking role id (role.base line))

/-- The control around a round. -/
def outer (role : Role) (id : Str) (line begun : ℕ) : (overScope Attrs Blank).Stack :=
  match role with
  | .producer rounds =>
      [.forLoop (roundsLoop rounds) begun (round role id line) .nil, .suite .nil]
  | .consumer => []

/-- The control around the loop that waits for the count to change. -/
def testLoop (role : Role) (id : Str) (line begun : ℕ) :
    (overScope Attrs Blank).Stack :=
  .whileLoop (countBlocks role) (waiting id (role.base line + 5)) .nil ::
    .suite (finishing role (role.base line + 15)) :: outer role id line begun

def relockLoop (role : Role) (id : Str) (line begun : ℕ) :
    (overScope Attrs Blank).Stack :=
  .whileLoop notAcquired (passing (role.base line + 13)) .nil :: .suite .nil ::
    testLoop role id line begun

def sleepLoop (role : Role) (id : Str) (line begun : ℕ) :
    (overScope Attrs Blank).Stack :=
  .whileLoop (inWaits id) (passing (role.base line + 9)) .nil ::
    .suite (.leaf (.checkpoint (role.base line + 11)) (relocking (role.base line + 12))) ::
      testLoop role id line begun

def lockLoop (role : Role) (id : Str) (line begun : ℕ) :
    (overScope Attrs Blank).Stack :=
  .whileLoop notAcquired (passing (role.base line + 1)) .nil ::
    .suite (.leaf (.checkpoint (role.base line + 3)) (testing role id (role.base line + 4))) ::
      outer role id line begun

/-- The control of a thread at a checkpoint. -/
def stack (role : Role) (id : Str) (line begun : ℕ) :
    Place → (overScope Attrs Blank).Stack
  | .first => match role with
      | .producer rounds =>
          [.suite (.compound (.forEach (roundsLoop rounds)) (round role id line) .nil .nil)]
      | .consumer => [.suite (locking role id (role.base line))]
  | .lock => .suite (locking role id (role.base line)) :: outer role id line begun
  | .lockPass => .suite (.leaf (.simple some) .nil) :: lockLoop role id line begun
  | .test => .suite (testing role id (role.base line + 4)) :: outer role id line begun
  | .wait => .suite (.leaf (.simple (condWait id)) (.leaf (.checkpoint (role.base line + 7))
      (sleeping id (role.base line + 8)))) :: testLoop role id line begun
  | .asleep => .suite (sleeping id (role.base line + 8)) :: testLoop role id line begun
  | .asleepPass => .suite (.leaf (.simple some) .nil) :: sleepLoop role id line begun
  | .relock => .suite (relocking (role.base line + 12)) :: testLoop role id line begun
  | .relockPass => .suite (.leaf (.simple some) .nil) :: relockLoop role id line begun
  | .act => .suite (.leaf (.simple (doAct role)) (.leaf (.checkpoint (role.base line + 17))
      (.leaf (.simple wakeAll) (.leaf (.checkpoint (role.base line + 19))
        (.leaf (.simple callRelease) .nil))))) :: outer role id line begun
  | .wake => .suite (.leaf (.simple wakeAll) (.leaf (.checkpoint (role.base line + 19))
      (.leaf (.simple callRelease) .nil))) :: outer role id line begun
  | .unlock => .suite (.leaf (.simple callRelease) .nil) :: outer role id line begun

/-- The next round of the loop of a producer, or the end. -/
def nextRound (role : Role) (point : Point) : Option Point :=
  match role with
  | .producer rounds =>
      if point.begun < rounds then some ⟨.lock, point.begun + 1, .int point.begun⟩ else none
  | .consumer => none

/-- The place behind the test of the count. -/
def tested (role : Role) (self : Attrs) : Place :=
  if self.count = role.blocks then .wait else .act

/-- What a thread does up to its next checkpoint or its end. -/
def advance (role : Role) (id : Str) (point : Point) (self : Attrs) :
    Option Point × Attrs :=
  let acquire (free busy : Place) : Option Point × Attrs :=
    (some { point with place := if self.locked then busy else free },
      { self with locked := true })
  match point.place with
  | .first => match role with
      | .producer _ => (nextRound role { point with begun := 0 }, self)
      | .consumer => acquire .test .lockPass
  | .lock | .lockPass => acquire .test .lockPass
  | .test => (some { point with place := tested role self }, self)
  | .wait => (some { point with place := .asleep, blank := .none },
      { self.release with waits := self.waits ++ id })
  | .asleep | .asleepPass =>
      (some { point with place := if id <:+: self.waits then .asleepPass else .relock }, self)
  | .relock | .relockPass => acquire (tested role self) .relockPass
  | .act => (some { point with place := .wake }, self.act role)
  | .wake => (some { point with place := .unlock }, { self with waits := [] })
  | .unlock => (nextRound role point, self.release)

section Resume

variable (role : Role) (id : Str) (line begun : ℕ) (self : Attrs) (blank : Blank)
  (extra : ℕ)

theorem resume_testLoop :
    ∃ work next, resume (extra + 3) (testLoop role id line begun) ⟨self, blank⟩ =
      some (work, .yielded next (stack role id line begun (tested role self))
        ⟨self, blank⟩) := by
  have htest : ∀ holds, decide (self.count = role.blocks) = holds →
      (overScope Attrs Blank).test (countBlocks role) ⟨self, blank⟩ =
        some (holds, ⟨self, blank⟩) := by
    rintro _ rfl
    rfl
  by_cases hcount : self.count = role.blocks
  · rw [testLoop, resume_whileLoop (htest true (decide_eq_true hcount)) (extra + 2), tested,
      if_pos hcount]
    exact ⟨_, _, rfl⟩
  · rw [testLoop, resume_whileLoop (htest false (decide_eq_false hcount)) (extra + 2), tested,
      if_neg hcount]
    exact ⟨_, _, rfl⟩

theorem test_notAcquired {held : Bool} (hlocked : self.locked = held) :
    (overScope Attrs Blank).test notAcquired ⟨self, blank⟩ =
      some (held, ⟨{ self with locked := true }, blank⟩) := by
  subst hlocked
  show some (!(!self.locked), _) = _
  rw [Bool.not_not]
  rfl

theorem resume_lockLoop :
    ∃ work next, resume (extra + 3) (lockLoop role id line begun) ⟨self, blank⟩ =
      some (work, .yielded next
        (stack role id line begun (if self.locked then .lockPass else .test))
        ⟨{ self with locked := true }, blank⟩) := by
  cases hlocked : self.locked with
  | true =>
      rw [lockLoop, resume_whileLoop (test_notAcquired self blank hlocked) (extra + 2)]
      exact ⟨_, _, rfl⟩
  | false =>
      rw [lockLoop, resume_whileLoop (test_notAcquired self blank hlocked) (extra + 2)]
      exact ⟨_, _, rfl⟩

/-- A thread that has locked the mutex after its wait tests the count at once. -/
theorem resume_relockLoop :
    ∃ work next, resume (extra + 6) (relockLoop role id line begun) ⟨self, blank⟩ =
      some (work, .yielded next
        (stack role id line begun (if self.locked then .relockPass else tested role self))
        ⟨{ self with locked := true }, blank⟩) := by
  cases hlocked : self.locked with
  | true =>
      rw [relockLoop, resume_whileLoop (test_notAcquired self blank hlocked) (extra + 5)]
      exact ⟨_, _, rfl⟩
  | false =>
      rw [relockLoop, resume_whileLoop (test_notAcquired self blank hlocked) (extra + 5)]
      exact exists_resume_map
        (resume_testLoop role id line begun { self with locked := true } blank extra)

theorem resume_sleepLoop :
    ∃ work next, resume (extra + 3) (sleepLoop role id line begun) ⟨self, blank⟩ =
      some (work, .yielded next
        (stack role id line begun (if id <:+: self.waits then .asleepPass else .relock))
        ⟨self, blank⟩) := by
  have htest : ∀ holds, decide (id <:+: self.waits) = holds →
      (overScope Attrs Blank).test (inWaits id) ⟨self, blank⟩ =
        some (holds, ⟨self, blank⟩) := by
    rintro _ rfl
    rfl
  by_cases hwaits : id <:+: self.waits
  · rw [sleepLoop, resume_whileLoop (htest true (decide_eq_true hwaits)) (extra + 2),
      if_pos hwaits]
    exact ⟨_, _, rfl⟩
  · rw [sleepLoop, resume_whileLoop (htest false (decide_eq_false hwaits)) (extra + 2),
      if_neg hwaits]
    exact ⟨_, _, rfl⟩

/-- What a resumption of a thread at this point should be. -/
def Resumes (fuel : ℕ) (control : (overScope Attrs Blank).Stack)
    (after : Option Point × Attrs) : Prop :=
  match after.1 with
  | some point => ∃ work next, resume fuel control ⟨self, blank⟩ = some (work, .yielded next
      (stack role id line point.begun point.place) ⟨after.2, point.blank⟩)
  | none => ∃ work blank', resume fuel control ⟨self, blank⟩ =
      some (work, .stopped ⟨after.2, blank'⟩)

theorem resume_forLoop (rounds : ℕ) :
    Resumes (.producer rounds) id line self blank (extra + 5)
      (outer (.producer rounds) id line begun)
      (nextRound (.producer rounds) ⟨.unlock, begun, blank⟩, self) := by
  by_cases hbegun : begun < rounds
  · have hadvance : (overScope Attrs Blank).advance (roundsLoop rounds) begun
        ⟨self, blank⟩ = some (some (begun + 1, ⟨self, .int begun⟩)) := by
      show some (if begun < rounds then _ else _) = _
      rw [if_pos hbegun]
      rfl
    simp only [Resumes, nextRound, if_pos hbegun, outer, resume, micro, hadvance]
    exact ⟨_, _, rfl⟩
  · have hadvance : (overScope Attrs Blank).advance (roundsLoop rounds) begun
        ⟨self, blank⟩ = some none := by
      show some (if begun < rounds then _ else _) = _
      rw [if_neg hbegun]
      rfl
    simp only [Resumes, nextRound, if_neg hbegun, outer, resume, micro, hadvance]
    exact ⟨_, _, rfl⟩

/-- What is found behind a statement is found by the statement. -/
theorem Resumes.behind {role : Role} {id : Str} {line fuel fuel' : ℕ}
    {self self' : Attrs} {blank : Blank}
    {control control' : (overScope Attrs Blank).Stack} {after : Option Point × Attrs}
    (hrest : Resumes role id line self' blank fuel' control' after)
    (hmove : resume fuel control ⟨self, blank⟩ =
      (resume fuel' control' ⟨self', blank⟩).map fun (work, outcome) => (work + 1, outcome)) :
    Resumes role id line self blank fuel control after := by
  obtain ⟨_ | point, store⟩ := after
  · obtain ⟨work, blank', hresume⟩ := hrest
    exact ⟨work + 1, blank', by rw [hmove, hresume]; rfl⟩
  · obtain ⟨work, next, hresume⟩ := hrest
    exact ⟨work + 1, next, by rw [hmove, hresume]; rfl⟩

/-- A resumed thread goes from checkpoint to checkpoint. -/
theorem resume_stack (point : Point) :
    Resumes role id line self point.blank (extra + 8)
      (stack role id line point.begun point.place) (advance role id point self) := by
  obtain ⟨place, begun, blank⟩ := point
  cases place with
  | first =>
      cases role with
      | producer rounds => exact resume_forLoop id line 0 self blank (extra + 2) rounds
      | consumer => exact resume_lockLoop .consumer id line begun self blank (extra + 4)
  | lock => exact resume_lockLoop role id line begun self blank (extra + 4)
  | lockPass =>
      exact exists_resume_map (resume_lockLoop role id line begun self blank (extra + 3))
  | test => exact resume_testLoop role id line begun self blank (extra + 4)
  | wait => exact ⟨_, _, rfl⟩
  | asleep => exact resume_sleepLoop role id line begun self blank (extra + 4)
  | asleepPass =>
      exact exists_resume_map (resume_sleepLoop role id line begun self blank (extra + 3))
  | relock => exact resume_relockLoop role id line begun self blank (extra + 1)
  | relockPass =>
      exact exists_resume_map (resume_relockLoop role id line begun self blank extra)
  | act => exact ⟨_, _, rfl⟩
  | wake => exact ⟨_, _, rfl⟩
  | unlock =>
      cases role with
      | producer rounds =>
          exact (resume_forLoop id line begun self.release blank (extra + 1) rounds).behind rfl
      | consumer => exact ⟨_, _, rfl⟩

theorem resume_call (obj : Attrs) :
    ∃ work next, resume (extra + 8) [.suite (instrument (body role id) line)]
      ⟨obj, .unbound⟩ = some (work, .yielded next (stack role id line 0 .first)
        ⟨obj, .unbound⟩) := by
  cases role with
  | producer rounds => exact ⟨_, _, rfl⟩
  | consumer => exact ⟨_, _, rfl⟩

end Resume

section Staged

variable (ids : List Str) (role : Str → Role) (name : Str → String) (line : Str → ℕ) (extra : ℕ)

abbrev staged : Staged ((program ids role name line).checked (extra + 8)) where
  Point := Point
  start := ⟨.first, 0, .unbound⟩
  gen index point :=
    let id := (program ids role name line).idOf index
    ⟨stack (role id) id (line id) point.begun point.place, point.blank⟩
  advance index point obj :=
    let id := (program ids role name line).idOf index
    advance (role id) id point obj
  call_yields index obj := by
    obtain ⟨work, next, hresume⟩ := resume_call (role ((program ids role name line).idOf index))
      ((program ids role name line).idOf index) (line ((program ids role name line).idOf index))
      extra obj
    refine ⟨.point next .unbound, ?_⟩
    simp only [ThreadFunction.call, ThreadFunction.hacked, hresume]
  gen_yields index point obj point' hpoint := by
    have hresume := resume_stack (role ((program ids role name line).idOf index))
      ((program ids role name line).idOf index) (line ((program ids role name line).idOf index))
      obj extra point
    rw [Resumes, hpoint] at hresume
    obtain ⟨work, next, hresume⟩ := hresume
    refine ⟨.point next point'.blank, ?_⟩
    simp only [hresume]
  gen_stops index point obj hpoint := by
    have hresume := resume_stack (role ((program ids role name line).idOf index))
      ((program ids role name line).idOf index) (line ((program ids role name line).idOf index))
      obj extra point
    rw [Resumes, hpoint] at hresume
    obtain ⟨work, blank, hresume⟩ := hresume
    simp only [hresume]

end Staged

/-! ## The invariant -/

/-- The thread is between a successful `tryacquire` and its `release`. -/
def Place.holds : Place → ℕ
  | .test | .wait | .act | .wake | .unlock => 1
  | _ => 0

def Place.Sleeps (place : Place) : Prop := place = .asleep ∨ place = .asleepPass

def holds : Option Point → ℕ
  | none => 0
  | some point => point.place.holds

/-- How often the thread produces or consumes. -/
def Role.total : Role → ℕ
  | .producer rounds => rounds
  | .consumer => 1

/-- The productions and consumptions that have begun, with the current one. -/
def Role.rounds (begun : ℕ) : Role → ℕ
  | .producer _ => begun
  | .consumer => 1

def Point.acted (role : Role) (point : Point) : ℕ :=
  match point.place with
  | .first => 0
  | .wake | .unlock => role.rounds point.begun
  | _ => role.rounds point.begun - 1

/-- How often the thread has produced or consumed. -/
def acted (role : Role) : Option Point → ℕ
  | none => role.total
  | some point => point.acted role

/-- The rounds of a producer are numbered from one. -/
def Point.Valid (role : Role) (point : Point) : Prop :=
  point.place = .first ∨ 0 < role.rounds point.begun ∧ role.rounds point.begun ≤ role.total

/-- The brackets of the first productions and consumptions. -/
def alternating (length : ℕ) : List Char :=
  (List.range length).map fun index => if index % 2 = 0 then '(' else ')'

section Inv

variable {Thread : Type} [Fintype Thread] [DecidableEq Thread] {id : Thread → Char}
  {role : Thread → Role} {self : Attrs} {points : Thread → Option Point} {thread : Thread}
  {point : Point}

/-- What holds whatever the ids of the threads are. -/
structure Inv (role : Thread → Role) (obj : Attrs)
    (points : Thread → Option Point) : Prop where
  mutex : ∑ thread, holds (points thread) = if obj.locked then 1 else 0
  valid : ∀ thread point, points thread = some point → point.Valid (role thread)
  waits : ∀ thread point, points thread = some point → point.place = .wait →
    obj.count = (role thread).blocks
  acts : ∀ thread point, points thread = some point → point.place = .act →
    obj.count ≠ (role thread).blocks
  count : obj.count = ∑ thread, (role thread).change * (acted (role thread) (points thread) : ℤ)
  parity : obj.count = ((∑ thread, acted (role thread) (points thread)) % 2 : ℕ)
  log : obj.log = alternating (∑ thread, acted (role thread) (points thread))

theorem sum_holds_update (hpoint : points thread = some point) (point' : Option Point) :
    (∑ other, holds (Function.update points thread point' other)) + point.place.holds =
      (∑ other, holds (points other)) + holds point' := by
  have hsum := ThreadSum.sum_update (fun _ => holds) points thread point'
  rw [hpoint] at hsum
  exact hsum

theorem sum_acted_update (role : Thread → Role) (hpoint : points thread = some point)
    (point' : Option Point) (gain : ℕ)
    (hacted : acted (role thread) point' = point.acted (role thread) + gain) :
    ∑ other, acted (role other) (Function.update points thread point' other) =
      (∑ other, acted (role other) (points other)) + gain := by
  have hsum := ThreadSum.sum_update (fun other => acted (role other)) points thread point'
  rw [hpoint, hacted] at hsum
  have hbefore : acted (role thread) (some point) = point.acted (role thread) := rfl
  omega

/-- At most one thread holds the mutex. -/
theorem Inv.alone (hinv : Inv role self points) (hpoint : points thread = some point)
    (hholds : point.place.holds = 1) :
    self.locked ∧ ∀ other, other ≠ thread → holds (points other) = 0 := by
  have hsum := sum_holds_update hpoint none
  have hmutex := hinv.mutex
  have hnone : holds none = 0 := rfl
  cases hlocked : self.locked with
  | false =>
      rw [hlocked, if_neg (by decide)] at hmutex
      omega
  | true =>
      rw [hlocked, if_pos rfl] at hmutex
      refine ⟨rfl, fun other hother => ?_⟩
      have hzero : ∑ other, holds (Function.update points thread none other) = 0 := by omega
      have hone := (Finset.sum_eq_zero_iff.mp hzero) other (Finset.mem_univ other)
      rwa [Function.update_of_ne hother] at hone

/-- A thread moves on and neither produces nor consumes. -/
theorem Inv.move (hinv : Inv role self points)
    (hpoint : points thread = some point) {point' : Option Point} {self' : Attrs}
    (hcount : self'.count = self.count) (hlog : self'.log = self.log)
    (hmutex : (if self'.locked then 1 else 0) + point.place.holds =
      (if self.locked then 1 else 0) + holds point')
    (hvalid : ∀ next, point' = some next → next.Valid (role thread))
    (hacted : acted (role thread) point' = point.acted (role thread))
    (hplace : ∀ next, point' = some next →
      (next.place = .wait → self.count = (role thread).blocks) ∧
        (next.place = .act → self.count ≠ (role thread).blocks)) :
    Inv role self' (Function.update points thread point') := by
  have hsum := sum_acted_update role hpoint point' 0 hacted
  refine ⟨?_, ?_, ?_, ?_, ?_, ?_, ?_⟩
  · have hbefore := hinv.mutex
    have hholds := sum_holds_update hpoint point'
    omega
  · intro other next hnext
    by_cases hother : other = thread
    · subst hother
      rw [Function.update_self] at hnext
      exact hvalid next hnext
    · rw [Function.update_of_ne hother] at hnext
      exact hinv.valid other next hnext
  · intro other next hnext
    rw [hcount]
    by_cases hother : other = thread
    · subst hother
      rw [Function.update_self] at hnext
      exact (hplace next hnext).1
    · rw [Function.update_of_ne hother] at hnext
      exact hinv.waits other next hnext
  · intro other next hnext
    rw [hcount]
    by_cases hother : other = thread
    · subst hother
      rw [Function.update_self] at hnext
      exact (hplace next hnext).2
    · rw [Function.update_of_ne hother] at hnext
      exact hinv.acts other next hnext
  · rw [hcount, hinv.count]
    symm
    apply ThreadSum.sum_update_eq (fun other local' => (role other).change *
      (acted (role other) local' : ℤ))
    rw [hpoint, hacted]
    rfl
  · rw [hcount, hsum]
    exact hinv.parity
  · rw [hlog, hsum]
    exact hinv.log

/-- `tryacquire` in the test of a loop. -/
theorem Inv.acquire (hinv : Inv role self points) (hpoint : points thread = some point)
    (hholds : point.place.holds = 0) {free busy : Place}
    (hfree : free.holds = 1) (hbusy : busy.holds = 0)
    (hvalid : ∀ place, place = free ∨ place = busy →
      Point.Valid (role thread) { point with place })
    (hacted : ∀ place, place = free ∨ place = busy →
      Point.acted (role thread) { point with place } = point.acted (role thread))
    (hwait : free = .wait → self.count = (role thread).blocks)
    (hact : free = .act → self.count ≠ (role thread).blocks) :
    Inv role { self with locked := true } (Function.update points thread
      (some { point with place := if self.locked then busy else free })) := by
  cases hlocked : self.locked with
  | true =>
      refine hinv.move hpoint rfl rfl ?_ ?_ ?_ ?_
      · rw [hlocked, hholds]
        exact congrArg (1 + ·) hbusy.symm
      · intro next hnext
        cases hnext
        exact hvalid busy (.inr rfl)
      · exact hacted busy (.inr rfl)
      · intro next hnext
        cases hnext
        refine ⟨fun hplace => ?_, fun hplace => ?_⟩
        · rw [show busy = .wait from hplace] at hbusy
          cases hbusy
        · rw [show busy = .act from hplace] at hbusy
          cases hbusy
  | false =>
      refine hinv.move hpoint rfl rfl ?_ ?_ ?_ ?_
      · rw [hlocked, hholds]
        exact congrArg (0 + ·) hfree.symm
      · intro next hnext
        cases hnext
        exact hvalid free (.inl rfl)
      · exact hacted free (.inl rfl)
      · intro next hnext
        cases hnext
        exact ⟨hwait, hact⟩

theorem tested_holds (role : Role) (self : Attrs) : (tested role self).holds = 1 := by
  unfold tested
  split_ifs
  · rfl
  · rfl

theorem count_of_tested_wait {role : Role} (hplace : tested role self = .wait) :
    self.count = role.blocks := by
  unfold tested at hplace
  split_ifs at hplace with hcount
  exact hcount

theorem count_of_tested_act {role : Role} (hplace : tested role self = .act) :
    self.count ≠ role.blocks := by
  unfold tested at hplace
  split_ifs at hplace with hcount
  exact hcount

/-- What is so at both places is so behind the test. -/
theorem tested_or {P : Place → Prop} (hwait : P .wait) (hact : P .act) (role : Role)
    (self : Attrs) : P (tested role self) := by
  unfold tested
  split_ifs
  · exact hwait
  · exact hact

/-- The step to the next round, or to the end. -/
theorem nextRound_spec (role : Role) (point : Point)
    (hvalid : role.rounds point.begun ≤ role.total) :
    (∀ next, nextRound role point = some next → next.Valid role ∧ next.place = .lock) ∧
      (role = .consumer → nextRound role point = none) ∧
      holds (nextRound role point) = 0 ∧
      acted role (nextRound role point) = role.rounds point.begun := by
  cases role with
  | consumer => exact ⟨nofun, fun _ => rfl, rfl, rfl⟩
  | producer rounds =>
      have hle : point.begun ≤ rounds := hvalid
      by_cases hbegun : point.begun < rounds
      · rw [nextRound, if_pos hbegun]
        refine ⟨?_, nofun, rfl, rfl⟩
        rintro _ ⟨⟩
        exact ⟨.inr ⟨Nat.succ_pos _, hbegun⟩, rfl⟩
      · rw [nextRound, if_neg hbegun]
        exact ⟨nofun, nofun, rfl, (Nat.le_antisymm hle (Nat.le_of_not_lt hbegun)).symm⟩

omit [Fintype Thread] [DecidableEq Thread] in
/-- A thread produces or consumes in the step behind the test only. -/
theorem acted_advance {role : Role} {id : Str} (hvalid : point.Valid role) :
    acted role (advance role id point self).1 =
      point.acted role + if point.place = .act then 1 else 0 := by
  obtain ⟨place, begun, blank⟩ := point
  have hrounds : place ≠ .first → 0 < role.rounds begun ∧ role.rounds begun ≤ role.total :=
    hvalid.resolve_left
  cases place with
  | first =>
      cases role with
      | producer rounds =>
          exact (nextRound_spec (.producer rounds) ⟨.first, 0, blank⟩ (Nat.zero_le _)).2.2.2
      | consumer =>
          show acted .consumer (some ⟨if self.locked then .lockPass else .test, begun, blank⟩) = 0
          cases self.locked <;> rfl
  | lock | lockPass =>
      show acted role (some ⟨if self.locked then .lockPass else .test, begun, blank⟩) = _
      cases self.locked <;> rfl
  | test =>
      exact tested_or (P := fun place => acted role (some ⟨place, begun, blank⟩) = _) rfl rfl
        role self
  | wait => rfl
  | asleep | asleepPass =>
      by_cases hqueued : id <:+: self.waits
      · simp only [advance, if_pos hqueued]
        rfl
      · simp only [advance, if_neg hqueued]
        rfl
  | relock | relockPass =>
      show acted role (some ⟨if self.locked then .relockPass else tested role self, begun,
        blank⟩) = _
      cases self.locked with
      | true => rfl
      | false =>
          exact tested_or (P := fun place => acted role (some ⟨place, begun, blank⟩) = _) rfl
            rfl role self
  | act => exact (Nat.sub_add_cancel (hrounds nofun).1).symm
  | wake => rfl
  | unlock => exact (nextRound_spec role ⟨.unlock, begun, blank⟩ (hrounds nofun).2).2.2.2

theorem alternating_succ (length : ℕ) : alternating (length + 1) =
    alternating length ++ [if length % 2 = 0 then '(' else ')'] := by
  rw [alternating, alternating, List.range_succ, List.map_append, List.map_singleton]

/-- Behind the test the parity of the log says which role the thread has. -/
theorem char_of_not_blocks {role : Role} {length : ℕ}
    (hnot : ((length % 2 : ℕ) : ℤ) ≠ role.blocks) :
    (if length % 2 = 0 then '(' else ')') = role.char ∧
      ((length % 2 : ℕ) : ℤ) + role.change = ((length + 1) % 2 : ℕ) := by
  cases role with
  | producer rounds =>
      have hzero : length % 2 = 0 := by
        simp only [Role.blocks] at hnot
        omega
      refine ⟨if_pos hzero, ?_⟩
      simp only [Role.change]
      omega
  | consumer =>
      have hone : length % 2 = 1 := by
        simp only [Role.blocks] at hnot
        omega
      refine ⟨if_neg (by omega), ?_⟩
      simp only [Role.change]
      omega

/-- A production or consumption changes the count to what the other side waits for. -/
theorem Inv.act (hinv : Inv role self points) (hpoint : points thread = some point)
    (hplace : point.place = .act) :
    Inv role (self.act (role thread))
      (Function.update points thread (some { point with place := .wake })) := by
  have hvalid := (hinv.valid thread point hpoint).resolve_left (by simp [hplace])
  have hparity := hinv.parity
  have hlog := hinv.log
  obtain ⟨hchar, hchange⟩ :=
    char_of_not_blocks (hparity ▸ hinv.acts thread point hpoint hplace)
  obtain ⟨-, halone⟩ := hinv.alone hpoint (by rw [hplace]; rfl)
  have hwake : ∀ next, Function.update points thread (some { point with place := .wake })
      thread = some next → next.place = .wake := by
    intro next hnext
    rw [Function.update_self] at hnext
    cases hnext
    rfl
  have hothers : ∀ other next, Function.update points thread (some { point with place := .wake })
      other = some next → next.place.holds = 1 → next.place = .wake := by
    intro other next hnext hholds
    by_cases hother : other = thread
    · subst hother
      exact hwake next hnext
    · rw [Function.update_of_ne hother] at hnext
      have hzero := halone other hother
      rw [hnext] at hzero
      exact absurd (hholds.symm.trans hzero) one_ne_zero
  have hacted : acted (role thread) (some { point with place := .wake }) =
      point.acted (role thread) + 1 := by
    have hbefore : point.acted (role thread) = (role thread).rounds point.begun - 1 := by
      rw [Point.acted, hplace]
    rw [hbefore]
    show (role thread).rounds point.begun = _
    omega
  have hsum := sum_acted_update role hpoint _ 1 hacted
  refine ⟨?_, ?_, ?_, ?_, ?_, ?_, ?_⟩
  · have hbefore := hinv.mutex
    have hholds := sum_holds_update hpoint (some { point with place := .wake })
    rw [hplace] at hholds
    have hone : holds (some { point with place := .wake }) = Place.act.holds := rfl
    show _ = if self.locked then 1 else 0
    omega
  · intro other next hnext
    by_cases hother : other = thread
    · subst hother
      rw [Function.update_self] at hnext
      cases hnext
      exact .inr hvalid
    · rw [Function.update_of_ne hother] at hnext
      exact hinv.valid other next hnext
  · intro other next hnext hwait
    rw [hothers other next hnext (by rw [hwait]; rfl)] at hwait
    cases hwait
  · intro other next hnext hact
    rw [hothers other next hnext (by rw [hact]; rfl)] at hact
    cases hact
  · have hmoved := ThreadSum.sum_update (fun other local' => (role other).change *
      (acted (role other) local' : ℤ)) points thread (some { point with place := .wake })
    have hbefore := hinv.count
    have hpoint' : acted (role thread) (some point) = point.acted (role thread) := rfl
    rw [hpoint, hacted, hpoint'] at hmoved
    push_cast at hmoved
    show self.count + (role thread).change = _
    linarith
  · rw [hsum, ← hchange, ← hparity]
    rfl
  · rw [hsum, alternating_succ, hchar, ← hlog]
    rfl

/-- The invariant holds from checkpoint to checkpoint. -/
theorem Inv.step (hinv : Inv role self points) (hpoint : points thread = some point)
    (id : Str) :
    Inv role (advance (role thread) id point self).2
      (Function.update points thread (advance (role thread) id point self).1) := by
  have hvalid := hinv.valid thread point hpoint
  obtain ⟨place, begun, blank⟩ := point
  cases place with
  | first =>
      cases hrole : role thread with
      | producer rounds =>
          obtain ⟨hnext, -, hholds, hacted⟩ := nextRound_spec (.producer rounds)
            ⟨.first, 0, blank⟩ (Nat.zero_le _)
          simp only [advance]
          refine hinv.move hpoint rfl rfl ?_ ?_ ?_ ?_
          · rw [hholds]
            rfl
          · rw [hrole]
            exact fun next hsome => (hnext next hsome).1
          · rw [hrole]
            exact hacted
          · intro next hsome
            rw [(hnext next hsome).2]
            exact ⟨nofun, nofun⟩
      | consumer =>
          refine hinv.acquire hpoint rfl rfl rfl ?_ ?_ nofun nofun
          · rw [hrole]
            exact fun _ _ => .inr ⟨Nat.one_pos, Nat.le_refl 1⟩
          · rw [hrole]
            rintro _ (rfl | rfl)
            · rfl
            · rfl
  | lock | lockPass =>
      have hrounds := hvalid.resolve_left nofun
      refine hinv.acquire hpoint rfl rfl rfl ?_ ?_ nofun nofun
      · rintro _ (rfl | rfl)
        · exact .inr hrounds
        · exact .inr hrounds
      · rintro _ (rfl | rfl)
        · rfl
        · rfl
  | test =>
      have hrounds := hvalid.resolve_left nofun
      refine hinv.move hpoint rfl rfl ?_ ?_ ?_ ?_
      · exact congrArg (_ + ·) (tested_holds _ _).symm
      · rintro _ ⟨⟩
        exact .inr hrounds
      · exact tested_or (P := fun place => acted (role thread) (some ⟨place, begun, blank⟩) = _)
          rfl rfl (role thread) self
      · rintro _ ⟨⟩
        exact ⟨count_of_tested_wait, count_of_tested_act⟩
  | wait =>
      obtain ⟨hlocked, -⟩ := hinv.alone hpoint rfl
      have hrounds := hvalid.resolve_left nofun
      refine hinv.move hpoint rfl rfl ?_ ?_ rfl ?_
      · rw [hlocked]
        rfl
      · rintro _ ⟨⟩
        exact .inr hrounds
      · rintro _ ⟨⟩
        exact ⟨nofun, nofun⟩
  | asleep | asleepPass =>
      have hrounds := hvalid.resolve_left nofun
      by_cases hqueued : id <:+: self.waits
      · simp only [advance, if_pos hqueued]
        refine hinv.move hpoint rfl rfl rfl ?_ rfl ?_
        · rintro _ ⟨⟩
          exact .inr hrounds
        · rintro _ ⟨⟩
          exact ⟨nofun, nofun⟩
      · simp only [advance, if_neg hqueued]
        refine hinv.move hpoint rfl rfl rfl ?_ rfl ?_
        · rintro _ ⟨⟩
          exact .inr hrounds
        · rintro _ ⟨⟩
          exact ⟨nofun, nofun⟩
  | relock | relockPass =>
      have hrounds := hvalid.resolve_left nofun
      refine hinv.acquire hpoint rfl (tested_holds _ _) rfl ?_ ?_ count_of_tested_wait
        count_of_tested_act
      · rintro _ (rfl | rfl)
        · exact .inr hrounds
        · exact .inr hrounds
      · rintro _ (rfl | rfl)
        · exact tested_or (P := fun place =>
            Point.acted (role thread) ⟨place, begun, blank⟩ = _) rfl rfl (role thread) self
        · rfl
  | act => exact hinv.act hpoint rfl
  | wake =>
      have hrounds := hvalid.resolve_left nofun
      refine hinv.move hpoint rfl rfl rfl ?_ rfl ?_
      · rintro _ ⟨⟩
        exact .inr hrounds
      · rintro _ ⟨⟩
        exact ⟨nofun, nofun⟩
  | unlock =>
      obtain ⟨hlocked, -⟩ := hinv.alone hpoint rfl
      have hrounds := hvalid.resolve_left nofun
      obtain ⟨hnext, -, hholds, hacted⟩ := nextRound_spec _ ⟨.unlock, begun, blank⟩ hrounds.2
      refine hinv.move hpoint rfl rfl ?_ ?_ ?_ ?_
      · rw [hlocked]
        exact congrArg (1 + ·) hholds.symm
      · exact fun next hsome => (hnext next hsome).1
      · exact hacted
      · intro next hsome
        rw [(hnext next hsome).2]
        exact ⟨nofun, nofun⟩

/-! ## The queue -/

def AtWake (points : Thread → Option Point) : Prop :=
  ∃ thread point, points thread = some point ∧ point.place = .wake

/-- What is known of `waits` when the ids are different characters. -/
structure Queue (id : Thread → Char) (role : Thread → Role) (obj : Attrs)
    (points : Thread → Option Point) : Prop where
  queued : ∀ waiter ∈ obj.waits, ∃ thread point, id thread = waiter ∧
    points thread = some point ∧ point.place.Sleeps
  /-- No wakeup is lost. -/
  blocked : ∀ thread, id thread ∈ obj.waits →
    obj.count = (role thread).blocks ∨ AtWake points

omit [Fintype Thread] [DecidableEq Thread] in
theorem Queue.sleeps (hinjective : Function.Injective id)
    (hqueue : Queue id role self points) (hqueued : id thread ∈ self.waits) :
    ∃ point, points thread = some point ∧ point.place.Sleeps := by
  obtain ⟨other, point, hid, hpoint, hsleeps⟩ := hqueue.queued _ hqueued
  exact ⟨point, hinjective hid ▸ hpoint, hsleeps⟩

omit [Fintype Thread] in
/-- The other threads stay where they are. -/
theorem Queue.move (hqueue : Queue id role self points) {point' : Option Point}
    {self' : Attrs}
    (hwaits : ∀ waiter ∈ self'.waits, waiter ∈ self.waits ∨ waiter = id thread)
    (hqueued : id thread ∈ self'.waits → ∃ next, point' = some next ∧ next.place.Sleeps)
    (hblocked : ∀ other, id other ∈ self'.waits →
      self'.count = (role other).blocks ∨ AtWake (Function.update points thread point')) :
    Queue id role self' (Function.update points thread point') := by
  refine ⟨?_, hblocked⟩
  intro waiter hwaiter
  by_cases hself : waiter = id thread
  · subst hself
    obtain ⟨next, hnext, hsleeps⟩ := hqueued hwaiter
    exact ⟨thread, next, rfl, by rw [Function.update_self, hnext], hsleeps⟩
  · obtain ⟨other, next, hid, hnext, hsleeps⟩ :=
      hqueue.queued waiter ((hwaits waiter hwaiter).resolve_right hself)
    have hother : other ≠ thread := by
      rintro rfl
      exact hself hid.symm
    exact ⟨other, next, hid, by rwa [Function.update_of_ne hother], hsleeps⟩

omit [Fintype Thread] in
/-- A thread that is about to wake the others up is so after a step of another one. -/
theorem AtWake.update (hat : AtWake points) (hpoint : points thread = some point)
    (hwake : point.place ≠ .wake) (point' : Option Point) :
    AtWake (Function.update points thread point') := by
  obtain ⟨waker, next, hnext, hplace⟩ := hat
  have hwaker : waker ≠ thread := by
    rintro rfl
    rw [hpoint] at hnext
    cases hnext
    exact hwake hplace
  exact ⟨waker, next, by rwa [Function.update_of_ne hwaker], hplace⟩

omit [Fintype Thread] in
/-- A thread moves on and leaves `waits` and `count` alone. -/
theorem Queue.turn (hinjective : Function.Injective id) (hqueue : Queue id role self points)
    (hpoint : points thread = some point) (hwake : point.place ≠ .wake)
    {point' : Option Point} {self' : Attrs} (hcount : self'.count = self.count)
    (hwaits : self'.waits = self.waits)
    (hsleeps : point.place.Sleeps → id thread ∈ self.waits →
      ∃ next, point' = some next ∧ next.place.Sleeps) :
    Queue id role self' (Function.update points thread point') := by
  apply hqueue.move
  · intro waiter hwaiter
    exact .inl (hwaits ▸ hwaiter)
  · intro hqueued
    rw [hwaits] at hqueued
    obtain ⟨next, hnext, hsleeps'⟩ := hqueue.sleeps hinjective hqueued
    rw [hpoint] at hnext
    cases hnext
    exact hsleeps hsleeps' hqueued
  · intro other hother
    rw [hwaits] at hother
    rw [hcount]
    exact (hqueue.blocked other hother).imp_right fun hat => hat.update hpoint hwake point'

/-- The queue is kept from checkpoint to checkpoint. -/
theorem Queue.step (hinjective : Function.Injective id) (hinv : Inv role self points)
    (hqueue : Queue id role self points) (hpoint : points thread = some point) :
    Queue id role (advance (role thread) [id thread] point self).2
      (Function.update points thread (advance (role thread) [id thread] point self).1) := by
  obtain ⟨place, begun, blank⟩ := point
  cases place with
  | first =>
      cases role thread with
      | producer rounds =>
          exact hqueue.turn hinjective hpoint nofun rfl rfl (by simp [Place.Sleeps])
      | consumer => exact hqueue.turn hinjective hpoint nofun rfl rfl (by simp [Place.Sleeps])
  | lock | lockPass | test | relock | relockPass | unlock =>
      exact hqueue.turn hinjective hpoint nofun rfl rfl (by simp [Place.Sleeps])
  | wait =>
      apply hqueue.move
      · intro waiter hwaiter
        exact (List.mem_append.mp hwaiter).imp_right List.mem_singleton.mp
      · exact fun _ => ⟨_, rfl, .inl rfl⟩
      · intro other hother
        obtain hbefore | hself := List.mem_append.mp hother
        · exact (hqueue.blocked other hbefore).imp_right fun hat => hat.update hpoint nofun _
        · rw [hinjective (List.mem_singleton.mp hself)]
          exact .inl (hinv.waits thread _ hpoint rfl)
  | asleep | asleepPass =>
      apply hqueue.turn hinjective hpoint nofun rfl rfl
      intro _ hqueued
      refine ⟨_, rfl, .inr ?_⟩
      exact if_pos ((List.singleton_infix_iff _ _).mpr hqueued)
  | act =>
      -- a production or consumption changes the count, and its thread wakes all others up
      apply hqueue.move
      · exact fun waiter hwaiter => .inl hwaiter
      · intro hqueued
        obtain ⟨next, hnext, hsleeps⟩ := hqueue.sleeps hinjective hqueued
        rw [hpoint] at hnext
        cases hnext
        simp [Place.Sleeps] at hsleeps
      · exact fun _ _ => .inr ⟨thread, _, Function.update_self .., rfl⟩
  | wake => exact hqueue.move nofun nofun nofun

/-! ## Every thread ends -/

/-- The thread would not go on spinning in the queue. -/
def Awake (id : Thread → Char) (self : Attrs) (points : Thread → Option Point)
    (thread : Thread) : Prop :=
  ∃ point, points thread = some point ∧ ¬ (point.place.Sleeps ∧ id thread ∈ self.waits)

/-- The thread makes progress when it has its turn: it holds the mutex, or nobody does
and it is awake. -/
def Ready (id : Thread → Char) (self : Attrs) (points : Thread → Option Point)
    (thread : Thread) : Prop :=
  if self.locked then holds (points thread) = 1 else Awake id self points thread

/-- There are as many productions as consumptions. -/
def Balanced (role : Thread → Role) : Prop :=
  ∑ thread, (role thread).change * ((role thread).total : ℤ) = 0

omit [Fintype Thread] [DecidableEq Thread] in
theorem Inv.acted_lt [Fintype Thread] (hinv : Inv role self points)
    (hpoint : points thread = some point) (hsleeps : point.place.Sleeps) :
    acted (role thread) (points thread) < (role thread).total := by
  obtain hfirst | ⟨hpos, hle⟩ := hinv.valid thread point hpoint
  · rw [hfirst] at hsleeps
    simp [Place.Sleeps] at hsleeps
  · have hacted : point.acted (role thread) = (role thread).rounds point.begun - 1 := by
      obtain hplace | hplace := hsleeps
      · rw [Point.acted, hplace]
      · rw [Point.acted, hplace]
    rw [hpoint]
    show point.acted (role thread) < _
    omega

theorem change_eq_of_blocks {first second : Role} (hblocks : first.blocks = second.blocks) :
    first.change = second.change := by
  cases first <;> cases second <;> first | rfl | cases hblocks

theorem change_mul_self (role : Role) : role.change * role.change = 1 := by
  cases role <;> rfl

omit [DecidableEq Thread] in
/-- The threads do not all wait for each other: those that wait for the same count
have their productions or consumptions still before them. -/
theorem Inv.exists_awake (hinv : Inv role self points)
    (hqueue : Queue id role self points) (hbalanced : Balanced role)
    (hunlocked : self.locked = false) (hlive : ∃ thread, points thread ≠ none) :
    ∃ thread, Awake id self points thread := by
  by_contra hnone
  have hasleep : ∀ thread point, points thread = some point →
      point.place.Sleeps ∧ id thread ∈ self.waits := by
    intro thread point hpoint
    by_contra hnot
    exact hnone ⟨thread, point, hpoint, hnot⟩
  have hholds : ∀ thread, holds (points thread) = 0 := by
    have hmutex := hinv.mutex
    rw [hunlocked, if_neg (by decide)] at hmutex
    exact fun thread => (Finset.sum_eq_zero_iff.mp hmutex) thread (Finset.mem_univ thread)
  have hcount : ∀ thread, points thread ≠ none → self.count = (role thread).blocks := by
    intro thread hne
    obtain ⟨point, hpoint⟩ := Option.ne_none_iff_exists'.mp hne
    obtain hblocks | ⟨waker, next, hnext, hwake⟩ :=
      hqueue.blocked thread (hasleep thread point hpoint).2
    · exact hblocks
    · have hzero := hholds waker
      rw [hnext, holds, hwake] at hzero
      cases hzero
  have hleft : self.count = -∑ thread, (role thread).change *
      ((role thread).total - acted (role thread) (points thread) : ℤ) := by
    have hsplit : ∑ thread, (role thread).change *
        ((role thread).total - acted (role thread) (points thread) : ℤ) =
        ∑ thread, (role thread).change * ((role thread).total : ℤ) -
          ∑ thread, (role thread).change * (acted (role thread) (points thread) : ℤ) := by
      rw [← Finset.sum_sub_distrib]
      exact Finset.sum_congr rfl fun thread _ => mul_sub _ _ _
    rw [hsplit, hbalanced, ← hinv.count]
    ring
  obtain ⟨first, hfirst⟩ := hlive
  have hterm : ∀ thread, points thread ≠ none →
      0 < (role first).change * ((role thread).change *
        ((role thread).total - acted (role thread) (points thread) : ℤ)) := by
    intro thread hne
    obtain ⟨point, hpoint⟩ := Option.ne_none_iff_exists'.mp hne
    have hlt := hinv.acted_lt hpoint (hasleep thread point hpoint).1
    have hsame : (role first).change = (role thread).change :=
      change_eq_of_blocks ((hcount first hfirst).symm.trans (hcount thread hne))
    rw [hsame, ← mul_assoc, change_mul_self, one_mul]
    omega
  have hpos : 0 < ∑ thread, (role first).change * ((role thread).change *
      ((role thread).total - acted (role thread) (points thread) : ℤ)) := by
    apply Finset.sum_pos' ?_ ⟨first, Finset.mem_univ first, hterm first hfirst⟩
    intro thread _
    by_cases hended : points thread = none
    · rw [hended, acted, sub_self, mul_zero, mul_zero]
    · exact (hterm thread hended).le
  have hneg : 0 < (role first).change * -self.count := by
    rw [hleft, neg_neg, Finset.mul_sum]
    exact hpos
  rw [hcount first hfirst] at hneg
  cases hrole : role first with
  | producer rounds =>
      rw [hrole] at hneg
      exact absurd hneg (by simp [Role.change, Role.blocks])
  | consumer =>
      rw [hrole] at hneg
      exact absurd hneg (by simp [Role.change, Role.blocks])

/-- The steps of a thread until it spins or has released the mutex. -/
def Place.rank (queued : Bool) : Place → ℕ
  | .first => 16
  | .lock | .lockPass => 15
  | .test => 14
  | .asleep | .asleepPass => if queued then 8 else 13
  | .relock | .relockPass => 12
  | .wait => 9
  | .act => 7
  | .wake => 6
  | .unlock => 5

/-- The steps of a thread while nobody wakes it up. -/
def cost (role : Role) (queued : Bool) : Option Point → ℕ
  | none => 0
  | some point =>
      20 * (if point.place = .first then role.total
        else role.total - role.rounds point.begun) + point.place.rank queued

/-- How often the thread will wake the others up. -/
def wakes (role : Role) (point : Option Point) : ℕ :=
  role.total - acted role point + if point.map Point.place = some .wake then 1 else 0

/-- The thread spins. -/
def Idle (id : Char) (self : Attrs) (point : Point) : Prop :=
  self.locked ∧ point.place ∈ [Place.lock, .lockPass, .relock, .relockPass] ∨
    point.place.Sleeps ∧ id ∈ self.waits

omit [Fintype Thread] [DecidableEq Thread] in
theorem cost_tested {role : Role} (begun : ℕ) (blank : Blank) (queued : Bool) :
    cost role queued (some ⟨tested role self, begun, blank⟩) ≤
      20 * (role.total - role.rounds begun) + 9 :=
  tested_or (P := fun place => cost role queued (some ⟨place, begun, blank⟩) ≤ _)
    (Nat.le_refl _) (Nat.add_le_add_left (by decide : 7 ≤ 9) _) role self

omit [Fintype Thread] [DecidableEq Thread] in
/-- A new round costs less than what the budget of a round is. -/
theorem cost_nextRound {role : Role} (queued : Bool) :
    cost role queued (nextRound role point) ≤ 20 * (role.total - role.rounds point.begun) := by
  cases role with
  | consumer => exact Nat.zero_le _
  | producer rounds =>
      by_cases hbegun : point.begun < rounds
      · rw [nextRound, if_pos hbegun]
        show 20 * (rounds - (point.begun + 1)) + 15 ≤ 20 * (rounds - point.begun)
        omega
      · rw [nextRound, if_neg hbegun]
        exact Nat.zero_le _

omit [Fintype Thread] [DecidableEq Thread] in
/-- A turn that is not idle brings the thread forward. -/
theorem cost_advance {role : Role} {id : Char} (hidle : ¬ Idle id self point) :
    cost role (decide (id ∈ (advance role [id] point self).2.waits))
        (advance role [id] point self).1 <
      cost role (decide (id ∈ self.waits)) (some point) := by
  obtain ⟨place, begun, blank⟩ := point
  have hunlocked : place ∈ [Place.lock, .lockPass, .relock, .relockPass] →
      self.locked = false := by
    intro hplace
    by_contra hlocked
    exact hidle (.inl ⟨Bool.of_not_eq_false hlocked, hplace⟩)
  cases place with
  | first =>
      cases role with
      | producer rounds =>
          exact (cost_nextRound _).trans_lt (Nat.lt_add_of_pos_right (by decide : 0 < 16))
      | consumer =>
          show cost .consumer _ (some ⟨if self.locked then .lockPass else .test, begun, blank⟩) < 36
          cases self.locked with
          | true => exact show 15 < 36 by decide
          | false => exact show 14 < 36 by decide
  | lock | lockPass =>
      simp only [advance, hunlocked (by simp)]
      exact Nat.add_lt_add_left (by decide : 14 < 15) _
  | test => exact (cost_tested _ _ _).trans_lt (Nat.add_lt_add_left (by decide : 9 < 14) _)
  | wait =>
      have hqueued : decide (id ∈ self.waits ++ [id]) = true := by simp
      show cost role (decide (id ∈ self.waits ++ [id])) _ < _
      rw [hqueued]
      exact Nat.add_lt_add_left (by decide : 8 < 9) _
  | asleep | asleepPass =>
      have hawake : id ∉ self.waits := fun hmem => hidle (.inr ⟨by simp [Place.Sleeps], hmem⟩)
      simp only [advance, List.singleton_infix_iff, if_neg hawake, decide_eq_false hawake]
      exact Nat.add_lt_add_left (by decide : 12 < 13) _
  | relock | relockPass =>
      simp only [advance, hunlocked (by simp)]
      exact (cost_tested _ _ _).trans_lt (Nat.add_lt_add_left (by decide : 9 < 12) _)
  | act => exact Nat.add_lt_add_left (by decide : 6 < 7) _
  | wake => exact Nat.add_lt_add_left (by decide : 5 < 6) _
  | unlock => exact (cost_nextRound _).trans_lt (Nat.lt_add_of_pos_right (by decide : 0 < 5))

omit [Fintype Thread] [DecidableEq Thread] in
/-- Of its own queue entries a thread adds one when it waits. -/
theorem mem_waits_advance {role : Role} {own other : Char} (hwake : point.place ≠ .wake)
    (hother : other ≠ own) :
    other ∈ (advance role [own] point self).2.waits ↔ other ∈ self.waits := by
  obtain ⟨place, begun, blank⟩ := point
  cases place with
  | wake => exact absurd rfl hwake
  | wait =>
      show other ∈ self.waits ++ [own] ↔ _
      simp [hother]
  | first => cases role <;> rfl
  | lock | lockPass | test | asleep | asleepPass | relock | relockPass | act | unlock => rfl

theorem nextRound_ne_wake (role : Role) (point : Point) :
    (nextRound role point).map Point.place ≠ some .wake := by
  cases role with
  | consumer => nofun
  | producer rounds =>
      by_cases hbegun : point.begun < rounds
      · simp [nextRound, hbegun]
      · simp [nextRound, hbegun]

omit [Fintype Thread] [DecidableEq Thread] in
theorem wake_advance_iff {role : Role} {id : Str} :
    (advance role id point self).1.map Point.place = some .wake ↔ point.place = .act := by
  have hbusy : ∀ busy : Place, busy ≠ .wake →
      (if self.locked then busy else .test) ≠ Place.wake := by
    intro busy hne
    split_ifs
    · exact hne
    · nofun
  obtain ⟨place, begun, blank⟩ := point
  cases place with
  | act => exact iff_of_true rfl rfl
  | first =>
      refine iff_of_false ?_ nofun
      cases role with
      | producer rounds => exact nextRound_ne_wake (.producer rounds) ⟨.first, 0, blank⟩
      | consumer => exact fun hwake => hbusy .lockPass nofun (Option.some.inj hwake)
  | lock | lockPass =>
      exact iff_of_false (fun hwake => hbusy .lockPass nofun (Option.some.inj hwake)) nofun
  | test =>
      refine iff_of_false (fun hwake => ?_) nofun
      exact tested_or (P := fun place => place ≠ .wake) nofun nofun role self
        (Option.some.inj hwake)
  | asleep | asleepPass =>
      refine iff_of_false (fun hwake => ?_) nofun
      have hplace : (if id <:+: self.waits then Place.asleepPass else .relock) = .wake :=
        Option.some.inj hwake
      split_ifs at hplace
  | relock | relockPass =>
      refine iff_of_false (fun hwake => ?_) nofun
      have hplace : (if self.locked then Place.relockPass else tested role self) = .wake :=
        Option.some.inj hwake
      split_ifs at hplace
      exact tested_or (P := fun place => place ≠ .wake) nofun nofun role self hplace
  | wait | wake => exact iff_of_false nofun nofun
  | unlock => exact iff_of_false (nextRound_ne_wake _ _) nofun

omit [Fintype Thread] [DecidableEq Thread] in
/-- A thread wakes the others up once for each production or consumption. -/
theorem wakes_advance {role : Role} {id : Str} (hvalid : point.Valid role) :
    wakes role (advance role id point self).1 + (if point.place = .wake then 1 else 0) =
      wakes role (some point) := by
  have hacted : acted role (advance role id point self).1 =
      point.acted role + if point.place = .act then 1 else 0 := acted_advance hvalid
  have hbefore : acted role (some point) = point.acted role := rfl
  simp only [wakes, wake_advance_iff, Option.map_some, Option.some.injEq, hacted, hbefore]
  by_cases hact : point.place = .act
  · have hrounds := hvalid.resolve_left (by simp [hact])
    have hbefore : point.acted role = role.rounds point.begun - 1 := by
      rw [Point.acted, hact]
    simp only [hact, if_true, reduceCtorEq, if_false]
    omega
  · simp only [hact, if_false, Nat.add_zero]

/-- The budget of all threads: each of the wakeups that are still to come may send all
of them back to the mutex. -/
def rank (id : Thread → Char) (role : Thread → Role) (self : Attrs)
    (points : Thread → Option Point) : ℕ :=
  (∑ thread, cost (role thread) (decide (id thread ∈ self.waits)) (points thread)) +
    5 * Fintype.card Thread * ∑ thread, wakes (role thread) (points thread)

omit [Fintype Thread] [DecidableEq Thread] in
/-- A wakeup sends a thread back by five steps at most. -/
theorem cost_le (role : Role) (before after : Bool) (point : Option Point) :
    cost role after point ≤ cost role before point + 5 := by
  cases point with
  | none => exact Nat.zero_le _
  | some point =>
      have hrank : point.place.rank after ≤ point.place.rank before + 5 := by
        cases point.place <;> cases before <;> cases after <;> decide
      simp only [cost]
      omega

/-- A turn that is not idle lowers the rank. -/
theorem rank_lt (hinjective : Function.Injective id) (hinv : Inv role self points)
    (hpoint : points thread = some point) (hidle : ¬ Idle (id thread) self point) :
    rank id role (advance (role thread) [id thread] point self).2
        (Function.update points thread (advance (role thread) [id thread] point self).1) <
      rank id role self points := by
  have hlower : cost (role thread) (decide (id thread ∈
      (advance (role thread) [id thread] point self).2.waits))
        (advance (role thread) [id thread] point self).1 <
      cost (role thread) (decide (id thread ∈ self.waits)) (some point) := cost_advance hidle
  have hspent : wakes (role thread) (advance (role thread) [id thread] point self).1 +
      (if point.place = .wake then 1 else 0) = wakes (role thread) (some point) :=
    wakes_advance (hinv.valid thread point hpoint)
  have hwakes := ThreadSum.sum_update (fun other => wakes (role other)) points thread
    (advance (role thread) [id thread] point self).1
  rw [hpoint, ← hspent] at hwakes
  have hothers : point.place ≠ .wake → ∀ other, other ≠ thread →
      (id other ∈ (advance (role thread) [id thread] point self).2.waits ↔
        id other ∈ self.waits) := fun hwake other hother =>
    mem_waits_advance hwake fun hid => hother (hinjective hid)
  generalize advance (role thread) [id thread] point self = after at *
  obtain ⟨point', self'⟩ := after
  dsimp only at hlower hspent hwakes hothers ⊢
  unfold rank
  by_cases hwake : point.place = .wake
  · have hcosts : ∑ other, cost (role other) (decide (id other ∈ self'.waits))
          (Function.update points thread point' other) <
        ∑ other, (cost (role other) (decide (id other ∈ self.waits)) (points other) + 5) := by
      apply Finset.sum_lt_sum
      · intro other _
        by_cases hother : other = thread
        · subst hother
          rw [Function.update_self, hpoint]
          exact hlower.le.trans (Nat.le_add_right _ 5)
        · rw [Function.update_of_ne hother]
          exact cost_le _ _ _ _
      · refine ⟨thread, Finset.mem_univ thread, ?_⟩
        rw [Function.update_self, hpoint]
        exact Nat.lt_add_right 5 hlower
    rw [Finset.sum_add_distrib, Finset.sum_const, Finset.card_univ, smul_eq_mul] at hcosts
    have hone : (∑ other, wakes (role other) (Function.update points thread point' other)) + 1 =
        ∑ other, wakes (role other) (points other) := by
      rw [if_pos hwake] at hwakes
      omega
    rw [← hone, Nat.mul_succ]
    omega
  · have hcosts : ∑ other, cost (role other) (decide (id other ∈ self'.waits))
          (Function.update points thread point' other) <
        ∑ other, cost (role other) (decide (id other ∈ self.waits)) (points other) := by
      apply Finset.sum_lt_sum
      · intro other _
        by_cases hother : other = thread
        · subst hother
          rw [Function.update_self, hpoint]
          exact hlower.le
        · rw [Function.update_of_ne hother, decide_eq_decide.mpr (hothers hwake other hother)]
      · refine ⟨thread, Finset.mem_univ thread, ?_⟩
        rw [Function.update_self, hpoint]
        exact hlower
    have hsame : ∑ other, wakes (role other) (Function.update points thread point' other) =
        ∑ other, wakes (role other) (points other) := by
      rw [if_neg hwake] at hwakes
      omega
    rw [hsame]
    omega

omit [Fintype Thread] [DecidableEq Thread] in
/-- What an idle turn does. -/
theorem advance_of_idle (role : Role) {id : Char} (hidle : Idle id self point) :
    ∃ place, advance role [id] point self = (some { point with place }, self) ∧
      point.place.holds = 0 ∧ place.holds = 0 ∧ (place.Sleeps ↔ point.place.Sleeps) ∧
      (∀ queued, cost role queued (some { point with place }) = cost role queued (some point)) ∧
      wakes role (some { point with place }) = wakes role (some point) := by
  obtain ⟨place, begun, blank⟩ := point
  obtain ⟨hlocked, hplace⟩ | ⟨hsleeps, hqueued⟩ := hidle
  · have hbusy : ∀ free busy : Place,
        ((some ⟨if self.locked then busy else free, begun, blank⟩,
          { self with locked := true }) : Option Point × Attrs) =
        (some ⟨busy, begun, blank⟩, self) := by
      intro free busy
      rw [if_pos hlocked]
      congr 1
      rw [← hlocked]
    simp only [List.mem_cons, List.not_mem_nil, or_false] at hplace
    obtain rfl | rfl | rfl | rfl := hplace
    · exact ⟨.lockPass, hbusy .test .lockPass, rfl, rfl, by simp [Place.Sleeps], fun _ => rfl, rfl⟩
    · exact ⟨.lockPass, hbusy .test .lockPass, rfl, rfl, by simp [Place.Sleeps], fun _ => rfl, rfl⟩
    · exact ⟨.relockPass, hbusy _ .relockPass, rfl, rfl, by simp [Place.Sleeps], fun _ => rfl, rfl⟩
    · exact ⟨.relockPass, hbusy _ .relockPass, rfl, rfl, by simp [Place.Sleeps], fun _ => rfl, rfl⟩
  · obtain rfl | rfl := hsleeps
    · refine ⟨.asleepPass, ?_, rfl, rfl, by simp [Place.Sleeps], fun _ => rfl, rfl⟩
      simp only [advance, List.singleton_infix_iff, if_pos hqueued]
    · refine ⟨.asleepPass, ?_, rfl, rfl, by simp [Place.Sleeps], fun _ => rfl, rfl⟩
      simp only [advance, List.singleton_infix_iff, if_pos hqueued]

/-- An idle turn leaves the rank and the ready threads alone. -/
theorem idle_step (id : Thread → Char) (role : Thread → Role) (self : Attrs)
    (hpoint : points thread = some point) {place : Place}
    (hpoint_holds : point.place.holds = 0) (hholds : place.holds = 0)
    (hsleeps : place.Sleeps ↔ point.place.Sleeps)
    (hcost : ∀ queued, cost (role thread) queued (some { point with place }) =
      cost (role thread) queued (some point))
    (hwakes : wakes (role thread) (some { point with place }) =
      wakes (role thread) (some point)) :
    rank id role self (Function.update points thread (some { point with place })) =
        rank id role self points ∧
      Ready id self (Function.update points thread (some { point with place })) =
        Ready id self points := by
  constructor
  · unfold rank
    rw [ThreadSum.sum_update_eq (fun other => cost (role other) (decide (id other ∈ self.waits)))
        points thread _ (by rw [hpoint, hcost]),
      ThreadSum.sum_update_eq (fun other => wakes (role other)) points thread _
        (by rw [hpoint, hwakes])]
  · funext other
    unfold Ready Awake
    by_cases hother : other = thread
    · subst hother
      simp only [Function.update_self, hpoint, Option.some.injEq, exists_eq_left', hsleeps, holds,
        hholds, hpoint_holds]
    · simp only [Function.update_of_ne hother]

omit [Fintype Thread] [DecidableEq Thread] in
theorem Ready.ne_none (hready : Ready id self points thread) : points thread ≠ none := by
  intro hnone
  unfold Ready at hready
  split_ifs at hready
  · rw [hnone] at hready
    cases hready
  · obtain ⟨point, hpoint, -⟩ := hready
    rw [hnone] at hpoint
    cases hpoint

omit [Fintype Thread] [DecidableEq Thread] in
/-- An idle thread is not ready. -/
theorem not_ready_of_idle (hpoint : points thread = some point)
    (hidle : Idle (id thread) self point) : ¬ Ready id self points thread := by
  intro hready
  obtain ⟨-, -, hholds, -⟩ := advance_of_idle .consumer hidle
  unfold Ready at hready
  split_ifs at hready with hlocked
  · rw [hpoint] at hready
    exact one_ne_zero (hready.symm.trans hholds)
  · obtain ⟨found, hfound, hawake⟩ := hready
    rw [hpoint] at hfound
    cases hfound
    obtain ⟨hlocked', -⟩ | hasleep := hidle
    · exact hlocked hlocked'
    · exact hawake hasleep

theorem Place.holds_le_one (place : Place) : place.holds ≤ 1 := by
  cases place <;> decide

omit [DecidableEq Thread] in
theorem Inv.exists_ready (hinv : Inv role self points)
    (hqueue : Queue id role self points) (hbalanced : Balanced role)
    (hlive : ∃ thread, points thread ≠ none) : ∃ thread, Ready id self points thread := by
  unfold Ready
  cases hlocked : self.locked with
  | false => exact hinv.exists_awake hqueue hbalanced hlocked hlive
  | true =>
      have hmutex := hinv.mutex
      rw [hlocked, if_pos rfl] at hmutex
      obtain ⟨thread, -, hholds⟩ := Finset.exists_ne_zero_of_sum_ne_zero
        (hmutex.trans_ne one_ne_zero)
      refine ⟨thread, ?_⟩
      show holds (points thread) = 1
      cases hpoint : points thread with
      | none =>
          rw [hpoint] at hholds
          exact absurd rfl hholds
      | some point =>
          rw [hpoint] at hholds
          exact Nat.le_antisymm point.place.holds_le_one (Nat.one_le_iff_ne_zero.mpr hholds)

end Inv

/-! ## The condition variable in every trace -/

section Runs

variable {ids : List Str} {role : Str → Role} {name : Str → String} {line : Str → ℕ} {extra : ℕ}

/-- The threads of the class with their roles. -/
abbrev StateInv (state : (staged ids role name line extra).State) : Prop :=
  Inv (fun index => role ((program ids role name line).idOf index)) state.obj state.points

theorem stateInv_init : StateInv (staged ids role name line extra).init where
  mutex := by simp [Staged.init, holds, Place.holds]
  valid := by
    rintro index _ ⟨⟩
    exact .inl rfl
  waits := by
    rintro index _ ⟨⟩
    nofun
  acts := by
    rintro index _ ⟨⟩
    nofun
  count := by simp [Staged.init, acted, Point.acted]
  parity := by simp [Staged.init, acted, Point.acted]
  log := by simp [Staged.init, acted, Point.acted, alternating]

theorem StateInv.step {state : (staged ids role name line extra).State}
    (hinv : StateInv state) (index : ((program ids role name line).checked (extra + 8)).Thread) :
    StateInv (state.step index) := by
  cases hpoint : state.points index with
  | none => rwa [Staged.State.step_of_end hpoint]
  | some point =>
      rw [Staged.State.step_of_point hpoint]
      exact Inv.step hinv hpoint _

theorem stateInv_run (trace : List ((program ids role name line).checked (extra + 8)).Thread) :
    StateInv ((staged ids role name line extra).run trace) :=
  Staged.run_induction stateInv_init (fun _ index hinv => hinv.step index) trace

section Ends

variable {char : Fin (program ids role name line).threads.length → Char}

/-- The invariant with the queue, for threads with these ids. -/
abbrev QueueInv (char : Fin (program ids role name line).threads.length → Char)
    (state : (staged ids role name line extra).State) : Prop :=
  StateInv state ∧ Queue char (fun index => role ((program ids role name line).idOf index))
    state.obj state.points

theorem queueInv_init : QueueInv char (staged ids role name line extra).init :=
  ⟨stateInv_init, nofun, nofun⟩

theorem QueueInv.step (hinjective : Function.Injective char)
    (hchar : ∀ index, (program ids role name line).idOf index = [char index])
    {state : (staged ids role name line extra).State} (hinv : QueueInv char state)
    (index : ((program ids role name line).checked (extra + 8)).Thread) :
    QueueInv char (state.step index) := by
  refine ⟨hinv.1.step index, ?_⟩
  cases hpoint : state.points index with
  | none =>
      rw [Staged.State.step_of_end hpoint]
      exact hinv.2
  | some point =>
      have hstep := Queue.step hinjective hinv.1 hinv.2 hpoint
      rw [← hchar] at hstep
      rwa [Staged.State.step_of_point hpoint]

/-- Every turn of a thread brings the end nearer, or another thread can do so. -/
theorem leadsTo_end (hinjective : Function.Injective char)
    (hchar : ∀ index, (program ids role name line).idOf index = [char index])
    (hbalanced : Balanced fun index => role ((program ids role name line).idOf index))
    [Nonempty ((program ids role name line).checked (extra + 8)).Thread] :
    Fairness.LeadsTo (@Staged.State.step _ (staged ids role name line extra)) (QueueInv char)
      fun state => ∀ index, state.points index = none := by
  apply Fairness.LeadsTo.of_rank
    (fun state => rank char
      (fun index => role ((program ids role name line).idOf index)) state.obj state.points)
    (fun state => Classical.epsilon (Ready char state.obj state.points))
  intro state index hinv hlive
  right
  refine ⟨hinv.step hinjective hchar index, ?_⟩
  have hready := Classical.epsilon_spec
    (hinv.1.exists_ready hinv.2 hbalanced (not_forall.mp hlive))
  cases hpoint : state.points index with
  | none =>
      right
      rw [Staged.State.step_of_end hpoint]
      refine ⟨?_, rfl, rfl⟩
      rintro rfl
      exact hready.ne_none hpoint
  | some point =>
      rw [Staged.State.step_of_point hpoint]
      by_cases hidle : Idle (char index) state.obj point
      · obtain ⟨place, hadvance, hbefore, hafter, hsleeps, hcost, hwakes⟩ :=
          advance_of_idle (role ((program ids role name line).idOf index)) hidle
        obtain ⟨hrank, hsame⟩ := idle_step char
          (fun index => role ((program ids role name line).idOf index)) state.obj hpoint
          hbefore hafter hsleeps hcost hwakes
        rw [← hchar] at hadvance
        right
        refine ⟨?_, ?_, ?_⟩
        · rintro rfl
          exact not_ready_of_idle hpoint hidle hready
        · simp only [hadvance]
          exact hrank
        · simp only [hadvance, hsame]
      · have hlower := rank_lt hinjective hinv.1 hpoint hidle
        rw [← hchar] at hlower
        exact .inl hlower

end Ends

theorem sum_idOf {M : Type} [AddCommMonoid M] (value : Str → M) :
    ∑ index, value ((program ids role name line).idOf index) = (ids.map value).sum := by
  rw [← Fin.sum_univ_fun_getElem ids value]
  exact Fintype.sum_equiv (finCongr (List.length_map _)) _ _ fun _ => rfl

theorem markNegative_alternating (start length : ℕ) :
    markNegative ((start % 2 : ℕ) : ℤ) ((List.range' start length).map fun index =>
      if index % 2 = 0 then '(' else ')') = none := by
  induction length generalizing start with
  | zero => rfl
  | succ length ih =>
      have hnext := ih (start + 1)
      rw [List.range'_succ, List.map_cons]
      obtain heven | hodd := Nat.mod_two_eq_zero_or_one start
      · rw [show (start + 1) % 2 = 1 by omega] at hnext
        rw [heven, if_pos rfl]
        exact hnext
      · rw [show (start + 1) % 2 = 0 by omega] at hnext
        rw [hodd, if_neg one_ne_zero]
        exact hnext

theorem length_alternating (length : ℕ) : (alternating length).length = length := by
  rw [alternating, List.length_map, List.length_range]

/-- In every trace the brackets in the log match, as far as it goes: productions and
consumptions take turns.  No two threads hold the mutex. -/
theorem brackets_match (ids : List Str) (role : Str → Role)
    (name : Str → String) (line : Str → ℕ) (extra : ℕ)
    (trace : List ((program ids role name line).checked (extra + 8)).Thread) :
    ∃ machine, ((program ids role name line).checked (extra + 8)).replay trace = some machine ∧
      machine.obj.log = alternating machine.obj.log.length ∧
      machine.obj.count = (machine.obj.log.length % 2 : ℕ) ∧
      markNegative 0 machine.obj.log = none ∧
      Staged.Placed machine ((staged ids role name line extra).run trace) ∧
      ∀ first second, holds (((staged ids role name line extra).run trace).points first) = 1 →
        holds (((staged ids role name line extra).run trace).points second) = 1 →
          first = second := by
  obtain ⟨machine, hreplay, hplaced⟩ :=
    Staged.replay_placed (staged ids role name line extra) trace
  have hinv : StateInv ((staged ids role name line extra).run trace) := stateInv_run trace
  obtain ⟨length, hlog, hparity⟩ : ∃ length, machine.obj.log = alternating length ∧
      machine.obj.count = (length % 2 : ℕ) := by
    rw [hplaced.obj]
    exact ⟨_, hinv.log, hinv.parity⟩
  refine ⟨machine, hreplay, ?_, ?_, ?_, hplaced, ?_⟩
  · rw [hlog, length_alternating]
  · rw [hparity, hlog, length_alternating]
  · rw [hlog, alternating, List.range_eq_range']
    exact markNegative_alternating 0 length
  · intro first second hfirst hsecond
    by_contra hne
    cases hpoint : ((staged ids role name line extra).run trace).points first with
    | none =>
        rw [hpoint] at hfirst
        cases hfirst
    | some point =>
        rw [hpoint] at hfirst
        have hzero := (hinv.alone hpoint hfirst).2 second (Ne.symm hne)
        exact one_ne_zero (hsecond.symm.trans hzero)

/-- The threads of the file: one that produces twice and two that consume. -/
abbrev shippedIds : List Str := [['1'], ['2'], ['3']]

abbrev shippedRole (id : Str) : Role := if id = ['1'] then .producer 2 else .consumer

abbrev shippedName (id : Str) : String :=
  if id = ['1'] then "tp" else if id = ['2'] then "tc1" else "tc2"

/-- The lines where `astor` prints the bodies. -/
abbrev shippedLine (id : Str) : ℕ := if id = ['1'] then 12 else if id = ['2'] then 38 else 62

abbrev shipped : CheckedClass :=
  (program shippedIds shippedRole shippedName shippedLine).checked (0 + 8)

/-- `tp` has produced once and has not woken the others up yet. -/
theorem brackets_match_shipped :
    ∃ machine, shipped.replay [⟨0, by decide⟩, ⟨0, by decide⟩, ⟨0, by decide⟩,
        ⟨0, by decide⟩] = some machine ∧
      machine.obj.log = ['('] ∧ machine.obj.log = alternating machine.obj.log.length ∧
      markNegative 0 machine.obj.log = none := by
  obtain ⟨machine, hreplay, hlog, -, hmark, -⟩ := brackets_match shippedIds
    shippedRole shippedName shippedLine 0
    [⟨0, by decide⟩, ⟨0, by decide⟩, ⟨0, by decide⟩, ⟨0, by decide⟩]
  refine ⟨machine, hreplay, ?_, hlog, hmark⟩
  cases hreplay
  rfl

/-- When there are as many productions as consumptions and the threads have different ids
of one character each, every fair schedule brings all threads to their end. -/
theorem all_end (ids : List Str) (hids : ids.Nodup) (hone : ∀ id ∈ ids, id.length = 1)
    (role : Str → Role) (name : Str → String) (line : Str → ℕ) (extra : ℕ)
    (hbalanced : (ids.map fun id => (role id).change * ((role id).total : ℤ)).sum = 0)
    (schedule : ℕ → ((program ids role name line).checked (extra + 8)).Thread)
    (hfair : Fairness.Fair schedule) :
    ∃ n, ∀ m, n ≤ m → ∃ machine,
      ((program ids role name line).checked (extra + 8)).replay ((List.range m).map schedule) =
        some machine ∧
      (∀ index, machine.T index = none) ∧
      machine.obj.log = alternating (ids.map fun id => (role id).total).sum ∧
      machine.obj.count = 0 := by
  have hnonempty : Nonempty ((program ids role name line).checked (extra + 8)).Thread :=
    ⟨schedule 0⟩
  have hsum : Balanced fun index => role ((program ids role name line).idOf index) := by
    rw [Balanced, sum_idOf fun id => (role id).change * ((role id).total : ℤ)]
    exact hbalanced
  obtain ⟨char, hinjective, hchar⟩ := exists_chars hids hone (List.length_map _)
  obtain ⟨n, hend⟩ := leadsTo_end hinjective hchar hsum schedule hfair
    (staged ids role name line extra).init queueInv_init
  refine ⟨n, fun m hle => ?_⟩
  obtain ⟨k, rfl⟩ := Nat.exists_eq_add_of_le hle
  obtain ⟨machine, hreplay, hplaced⟩ := Staged.replay_placed
    (staged ids role name line extra) ((List.range (n + k)).map schedule)
  have hrun : (staged ids role name line extra).run ((List.range (n + k)).map schedule) =
      Fairness.run Staged.State.step (staged ids role name line extra).init schedule (n + k) :=
    (Fairness.run_eq_foldl _ _ _).symm
  have hinv : StateInv ((staged ids role name line extra).run
      ((List.range (n + k)).map schedule)) := stateInv_run _
  have hended : ∀ index, ((staged ids role name line extra).run
      ((List.range (n + k)).map schedule)).points index = none := by
    rw [hrun, Fairness.run_add]
    apply Fairness.run_invariant (I := fun state : (staged ids role name line extra).State =>
      ∀ index, state.points index = none) ?_ hend
    intro state index hnone
    rwa [Staged.State.step_of_end (hnone index)]
  have hacted : ∀ index, acted (role ((program ids role name line).idOf index))
      (((staged ids role name line extra).run ((List.range (n + k)).map schedule)).points index) =
      (role ((program ids role name line).idOf index)).total := by
    intro index
    rw [hended]
    rfl
  have hlog := hinv.log
  have hcount := hinv.count
  simp only [hacted] at hlog hcount
  refine ⟨machine, hreplay, ?_, ?_, ?_⟩
  · intro index
    rw [hplaced.gens, hended]
    rfl
  · rw [hplaced.obj, hlog, sum_idOf fun id => (role id).total]
  · rw [hplaced.obj, hcount]
    exact hsum

/-- The file with one thread after the other. -/
theorem all_end_shipped : ∃ n, ∀ m, n ≤ m → ∃ machine,
    shipped.replay ((List.range m).map (Fin.ofNat 3)) = some machine ∧
      (∀ index, machine.T index = none) ∧ machine.obj.log = ['(', ')', '(', ')'] := by
  obtain ⟨n, hend⟩ := all_end shippedIds (by decide) (by decide) shippedRole shippedName
    shippedLine 0 (by decide) (Fin.ofNat 3) (Fairness.fair_ofNat 3)
  refine ⟨n, fun m hle => ?_⟩
  obtain ⟨machine, hreplay, hended, hlog, -⟩ := hend m hle
  exact ⟨machine, hreplay, hended, hlog⟩

end Runs

end JyyOS.ModelChecker.ProducerConsumer
