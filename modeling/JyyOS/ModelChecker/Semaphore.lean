import JyyOS.Core.ThreadSum
import JyyOS.ModelChecker.Python
import JyyOS.ModelChecker.Staged

/-!
# The semaphore (`sem.py`)

The threads of `Semaphore` for any number of threads and of tokens.  `P` and
`V` are statements of the thread functions and not instrumented themselves, so
each is one step.  A `V` that finds a waiter hands its token to it by removing
the id, and `token` stays as it is.
-/

namespace JyyOS.ModelChecker

open JyyOS.ModelChecker.Language

/-- The attributes.  `waits` is the ids of the waiting threads, one behind the other. -/
structure Semaphore where
  token : ℕ
  waits : Str

namespace Semaphore

/-! ## The class -/

def P (tid : Str) (self : Semaphore) : Semaphore :=
  if self.token > 0 then { self with token := self.token - 1 }
  else { self with waits := self.waits ++ tid }

def V (self : Semaphore) : Semaphore :=
  match self.waits with
  | [] => { self with token := self.token + 1 }
  | _ :: waits => { self with waits := waits }

/-- The attributes and the local variable of a thread. -/
structure Store where
  self : Semaphore
  cs : Option Bool

def language : Language where
  Act := Store → Option (Store)
  Cond := Store → Option (Bool × Store)
  Loop := Empty
  Store := Store
  Iterator := Empty
  exec act := act
  test cond := cond
  iter loop := nomatch loop
  advance loop := nomatch loop

def callP (tid : Str) (store : Store) : Option (Store) :=
  some { store with self := store.self.P tid }

def inWaits (id : Str) (store : Store) :
    Option (Bool × Store) :=
  some (decide (id <:+: store.self.waits), store)

def setCs (store : Store) : Option (Store) := some { store with cs := some true }

/-- `del` of an unbound variable raises. -/
def delCs (store : Store) : Option (Store) := do
  let _ ← store.cs
  some { store with cs := none }

def callV (store : Store) : Option (Store) :=
  some { store with self := store.self.V }

def body (id : Str) : language.Code :=
  .leaf (.simple (callP id))
    (.compound (.whileTest (inWaits id)) (.leaf (.simple some) .nil) .nil
      (.leaf (.simple setCs)
        (.leaf (.simple delCs)
          (.leaf (.simple callV) .nil))))

/-- A thread with its id, the name of its method and the line of the printed
source where its body begins. -/
def thread (name : String) (line : ℕ) (id : Str) : language.ThreadFunction where
  name := name
  body := body id
  suite := by simp [body, Body.Suite]
  line := line

structure Gen where
  stack : language.Stack
  cs : Option Bool

/-- What the recorded state holds: a line and the local variable, or an
attribute. -/
inductive Entry where
  | point (line : ℕ) (cs : Option Bool)
  | token (value : ℕ)
  | waits (value : Str)

def idOf (ids : List Str) (name : Str → String) (index : Fin (ids.map name).length) :
    Str :=
  ids.get (index.cast (List.length_map _))

/-- The class with `k` tokens and a thread for each id.  Every resumption of a
thread is given `fuel`. -/
abbrev checked (k : ℕ) (ids : List Str) (name : Str → String) (line : Str → ℕ)
    (fuel : ℕ) : CheckedClass where
  Obj := Semaphore
  Gen := Gen
  Entry := Entry
  Value := Entry
  threads := ids.map name
  new := ⟨k, []⟩
  call index :=
    let id := idOf ids name index
    ⟨(thread (name id) (line id) id).call, none⟩
  next gen obj :=
    match resume fuel gen.stack ⟨obj, gen.cs⟩ with
    | some (_, .yielded line stack store) =>
        some (.yielded (.point line store.cs) ⟨stack, store.cs⟩ store.self)
    | some (_, .stopped store) => some (.stopped store.self)
    | _ => none
  attrs obj := [("token", .token obj.token), ("waits", .waits obj.waits)]
  read _ entry := entry

/-! ## Control points -/

/-- The checkpoints of a thread, by the statement that comes next. -/
inductive Point where
  /-- `self.P(...)` -/
  | acquire
  /-- `while ... in self.waits` -/
  | spin
  | pass
  /-- `cs = True` -/
  | enter
  /-- `del cs` -/
  | leave
  /-- `self.V()` -/
  | release
deriving DecidableEq

/-- The rest of the body behind the loop. -/
def critical (line : ℕ) : language.Code :=
  .leaf (.checkpoint (line + 6)) (.leaf (.simple setCs)
    (.leaf (.checkpoint (line + 8)) (.leaf (.simple delCs)
      (.leaf (.checkpoint (line + 10)) (.leaf (.simple callV) .nil)))))

def spinning (line : ℕ) : language.Code :=
  .leaf (.checkpoint (line + 4)) (.leaf (.simple some) .nil)

def waiting (line : ℕ) (id : Str) : language.Code :=
  .compound (.whileTest (inWaits id)) (spinning line) .nil (critical line)

/-- The control of a thread at a checkpoint. -/
def control (line : ℕ) (id : Str) : Point → language.Stack
  | .acquire => [.suite (.leaf (.simple (callP id))
      (.leaf (.checkpoint (line + 2)) (waiting line id)))]
  | .spin => [.suite (waiting line id)]
  | .pass => [.suite (.leaf (.simple some) .nil),
      .whileLoop (inWaits id) (spinning line) .nil, .suite (critical line)]
  | .enter => [.suite (.leaf (.simple setCs)
      (.leaf (.checkpoint (line + 8)) (.leaf (.simple delCs)
        (.leaf (.checkpoint (line + 10)) (.leaf (.simple callV) .nil)))))]
  | .leave => [.suite (.leaf (.simple delCs)
      (.leaf (.checkpoint (line + 10)) (.leaf (.simple callV) .nil)))]
  | .release => [.suite (.leaf (.simple callV) .nil)]

/-- The local variable at a checkpoint: it is bound inside the critical section
only. -/
def csAt : Point → Option Bool
  | .leave => some true
  | _ => none

/-- What a thread does up to its next checkpoint or its end. -/
def advance (id : Str) (self : Semaphore) : Point → Option Point × Semaphore
  | .acquire => (some .spin, self.P id)
  | .spin | .pass => (some (if id <:+: self.waits then .pass else .enter), self)
  | .enter => (some .leave, self)
  | .leave => (some .release, self)
  | .release => (none, self.V)

/-- The test of the spinning loop, on entry and again after each `pass`. -/
theorem resume_waiting (line : ℕ) (id : Str) (self : Semaphore) (extra : ℕ) :
    ∃ work next, resume (extra + 6)
        [.whileLoop (inWaits id) (spinning line) .nil, .suite (critical line)]
          ⟨self, none⟩ =
      some (work, .yielded next
        (control line id (if id <:+: self.waits then .pass else .enter)) ⟨self, none⟩) := by
  have htest : ∀ holds, decide (id <:+: self.waits) = holds →
      language.test (inWaits id) ⟨self, none⟩ = some (holds, ⟨self, none⟩) := by
    rintro _ rfl
    rfl
  by_cases hqueued : id <:+: self.waits
  · rw [if_pos hqueued, resume_whileLoop (htest true (decide_eq_true hqueued)) (extra + 5)]
    exact ⟨_, _, rfl⟩
  · rw [if_neg hqueued, resume_whileLoop (htest false (decide_eq_false hqueued)) (extra + 5)]
    exact ⟨_, _, rfl⟩

/-- A resumed thread goes from checkpoint to checkpoint. -/
theorem resume_control (line : ℕ) (id : Str) (self : Semaphore)
    (point point' : Point) (extra : ℕ) (hpoint : (advance id self point).1 = some point') :
    ∃ work next, resume (extra + 8) (control line id point) ⟨self, csAt point⟩ =
      some (work, .yielded next (control line id point')
        ⟨(advance id self point).2, csAt point'⟩) := by
  have hwaiting : csAt (if id <:+: self.waits then .pass else .enter) = none := by
    split_ifs
    · rfl
    · rfl
  cases point with
  | acquire =>
      cases hpoint
      exact ⟨_, _, rfl⟩
  | spin =>
      obtain ⟨work, next, hresume⟩ := resume_waiting line id self (extra + 1)
      cases hpoint
      rw [hwaiting]
      exact ⟨work, next, hresume⟩
  | pass =>
      obtain ⟨work, next, hresume⟩ := resume_waiting line id self extra
      cases hpoint
      rw [hwaiting]
      refine ⟨work + 1, next, ?_⟩
      exact congrArg (Option.map fun result : ℕ × language.Outcome =>
        (result.1 + 1, result.2)) hresume
  | enter =>
      cases hpoint
      exact ⟨_, _, rfl⟩
  | leave =>
      cases hpoint
      exact ⟨_, _, rfl⟩
  | release => cases hpoint

/-! ## Conservation -/

/-- The thread is past `P` and has not done `V`. -/
def entered : Option Point → ℕ
  | none | some .acquire => 0
  | some _ => 1

/-- The thread is past `P`, its id is not in the queue and it has not done
`V`. -/
def Holds (id : Str) (self : Semaphore) : Option Point → Prop
  | some .spin | some .pass => ¬ id <:+: self.waits
  | some .enter | some .leave | some .release => True
  | some .acquire | none => False

/-- The thread spins with its id in the queue. -/
def Waits (id : Str) (self : Semaphore) : Option Point → Prop
  | some .spin | some .pass => id <:+: self.waits
  | _ => False

instance (id : Str) (self : Semaphore) : ∀ point, Decidable (Holds id self point)
  | none => inferInstanceAs (Decidable False)
  | some .acquire => inferInstanceAs (Decidable False)
  | some .spin => inferInstanceAs (Decidable (¬ id <:+: self.waits))
  | some .pass => inferInstanceAs (Decidable (¬ id <:+: self.waits))
  | some .enter => inferInstanceAs (Decidable True)
  | some .leave => inferInstanceAs (Decidable True)
  | some .release => inferInstanceAs (Decidable True)

section Inv

variable {Thread : Type} [Fintype Thread] [DecidableEq Thread] {k : ℕ}
  {id : Thread → Char} {sem : Semaphore} {points : Thread → Option Point}
  {thread : Thread}

structure Inv (k : ℕ) (id : Thread → Char) (sem : Semaphore)
    (points : Thread → Option Point) : Prop where
  nodup : sem.waits.Nodup
  queued : ∀ waiter ∈ sem.waits, ∃ thread, id thread = waiter ∧
    (points thread = some .spin ∨ points thread = some .pass)
  empty : sem.waits ≠ [] → sem.token = 0
  conserved : sem.token + ∑ thread, entered (points thread) = k + sem.waits.length

omit [DecidableEq Thread] in
/-- The thread of a queued id is not one that does something else. -/
theorem Inv.queued_ne (hinv : Inv k id sem points) {point : Option Point}
    (hpoint : points thread = point) (hspin : point ≠ some .spin)
    (hpass : point ≠ some .pass) {waiter : Char} (hwaiter : waiter ∈ sem.waits) :
    ∃ other, other ≠ thread ∧ id other = waiter ∧
      (points other = some .spin ∨ points other = some .pass) := by
  obtain ⟨other, hid, hother⟩ := hinv.queued waiter hwaiter
  refine ⟨other, ?_, hid, hother⟩
  rintro rfl
  rw [hpoint] at hother
  exact hother.elim hspin hpass

/-- A thread that is not queued does a statement that queues nobody. -/
theorem Inv.leave_queue (hinv : Inv k id sem points) {point point' : Option Point}
    (hpoint : points thread = point) (hspin : point ≠ some .spin)
    (hpass : point ≠ some .pass) {waits : Str} (hwaits : waits ⊆ sem.waits) :
    ∀ waiter ∈ waits, ∃ other, id other = waiter ∧
      (Function.update points thread point' other = some .spin ∨
        Function.update points thread point' other = some .pass) := by
  intro waiter hwaiter
  obtain ⟨other, hne, hid, hother⟩ := hinv.queued_ne hpoint hspin hpass (hwaits hwaiter)
  refine ⟨other, hid, ?_⟩
  rwa [Function.update_of_ne hne]

/-- Threads count for what they were worth before, but for the one that moved. -/
theorem sum_entered (points : Thread → Option Point) (thread : Thread)
    (point' : Option Point) :
    (∑ other, entered (Function.update points thread point' other)) +
        entered (points thread) =
      (∑ other, entered (points other)) + entered point' :=
  ThreadSum.sum_update (fun _ => entered) points thread point'

/-- `P` takes a token or queues the thread. -/
theorem Inv.P (hinjective : Function.Injective id) (hinv : Inv k id sem points)
    (hpoint : points thread = some .acquire) :
    Inv k id (sem.P [id thread]) (Function.update points thread (some .spin)) := by
  have hsum := sum_entered points thread (some .spin)
  rw [hpoint] at hsum
  change _ + 0 = _ + 1 at hsum
  have hconserved := hinv.conserved
  unfold Semaphore.P
  split_ifs with htoken
  · have hempty : sem.waits = [] := by
      by_contra hne
      exact Nat.ne_of_gt htoken (hinv.empty hne)
    refine ⟨hinv.nodup, ?_, fun hne => absurd hempty hne, ?_⟩
    · exact hinv.leave_queue hpoint nofun nofun (List.Subset.refl _)
    · show sem.token - 1 + _ = k + sem.waits.length
      omega
  · have hnew : id thread ∉ sem.waits := by
      intro hqueued
      obtain ⟨other, hne, hid, -⟩ := hinv.queued_ne hpoint nofun nofun hqueued
      exact hne (hinjective hid)
    refine ⟨?_, ?_, fun _ => Nat.eq_zero_of_not_pos htoken, ?_⟩
    · show (sem.waits ++ [id thread]).Nodup
      rw [← List.concat_eq_append]
      exact hinv.nodup.concat hnew
    · intro waiter hwaiter
      obtain hwaiter | hself := List.mem_append.mp hwaiter
      · exact hinv.leave_queue hpoint nofun nofun (List.Subset.refl _) waiter hwaiter
      · cases List.mem_singleton.mp hself
        exact ⟨thread, rfl, .inl (Function.update_self ..)⟩
    · simp only [List.length_append, List.length_singleton]
      omega

/-- `V` hands the token to the first waiter or puts it back. -/
theorem Inv.V (hinv : Inv k id sem points) (hpoint : points thread = some .release) :
    Inv k id sem.V (Function.update points thread none) := by
  have hsum := sum_entered points thread none
  rw [hpoint] at hsum
  change _ + 1 = _ + 0 at hsum
  have hconserved := hinv.conserved
  have hnodup := hinv.nodup
  unfold Semaphore.V
  split
  case h_1 hwaits =>
    refine ⟨hinv.nodup, ?_, fun hne => absurd hwaits hne, ?_⟩
    · exact hinv.leave_queue hpoint nofun nofun (List.Subset.refl _)
    · show sem.token + 1 + _ = k + sem.waits.length
      omega
  case h_2 head rest hwaits =>
    rw [hwaits] at hconserved hnodup
    refine ⟨(List.nodup_cons.mp hnodup).2, ?_, ?_, ?_⟩
    · apply hinv.leave_queue hpoint nofun nofun
      rw [hwaits]
      exact List.subset_cons_self head rest
    · intro _
      exact hinv.empty (by rw [hwaits]; exact List.cons_ne_nil _ _)
    · simp only [List.length_cons] at hconserved ⊢
      omega

/-- A thread past `P` moves on and leaves the attributes alone. -/
theorem Inv.move (hinv : Inv k id sem points) {point' : Option Point}
    (hentered : entered point' = entered (points thread))
    (hqueued : points thread = some .spin ∨ points thread = some .pass →
      id thread ∈ sem.waits → point' = some .spin ∨ point' = some .pass) :
    Inv k id sem (Function.update points thread point') := by
  refine ⟨hinv.nodup, ?_, hinv.empty, ?_⟩
  · intro waiter hwaiter
    obtain ⟨other, rfl, hpoint⟩ := hinv.queued waiter hwaiter
    refine ⟨other, rfl, ?_⟩
    by_cases hother : other = thread
    · subst hother
      rw [Function.update_self]
      exact hqueued hpoint hwaiter
    · rwa [Function.update_of_ne hother]
  · rw [ThreadSum.sum_update_eq (fun _ => entered) points thread point' hentered]
    exact hinv.conserved

/-- The invariant holds from checkpoint to checkpoint. -/
theorem Inv.step (hinjective : Function.Injective id) (hinv : Inv k id sem points)
    {point : Point} (hpoint : points thread = some point) :
    Inv k id (advance [id thread] sem point).2
      (Function.update points thread (advance [id thread] sem point).1) := by
  cases point with
  | acquire => exact hinv.P hinjective hpoint
  | spin | pass =>
      by_cases hqueued : id thread ∈ sem.waits
      · simp only [advance, List.singleton_infix_iff, if_pos hqueued]
        exact hinv.move (by simp [hpoint, entered]) fun _ _ => .inr rfl
      · simp only [advance, List.singleton_infix_iff, if_neg hqueued]
        exact hinv.move (by simp [hpoint, entered]) fun _ hwaits => absurd hwaits hqueued
  | enter => exact hinv.move (by rw [hpoint]; rfl) (by simp [hpoint])
  | leave => exact hinv.move (by rw [hpoint]; rfl) (by simp [hpoint])
  | release => exact hinv.V hpoint

omit [DecidableEq Thread] in
/-- A thread with a queued id spins. -/
theorem Inv.spins (hinjective : Function.Injective id) (hinv : Inv k id sem points)
    (hqueued : id thread ∈ sem.waits) :
    points thread = some .spin ∨ points thread = some .pass := by
  obtain ⟨other, hid, hother⟩ := hinv.queued _ hqueued
  rwa [hinjective hid] at hother

omit [DecidableEq Thread] in
/-- A queue of distinct ids is as long as it has threads. -/
theorem Inv.card_queued (hinjective : Function.Injective id)
    (hinv : Inv k id sem points) :
    (Finset.univ.filter fun thread => id thread ∈ sem.waits).card =
      sem.waits.length := by
  rw [← List.toFinset_card_of_nodup hinv.nodup,
    ← Finset.card_image_of_injective _ hinjective]
  congr 1
  ext waiter
  simp only [Finset.mem_image, Finset.mem_filter, Finset.mem_univ, true_and,
    List.mem_toFinset]
  constructor
  · rintro ⟨thread, hqueued, rfl⟩
    exact hqueued
  · intro hwaiter
    obtain ⟨thread, rfl, -⟩ := hinv.queued waiter hwaiter
    exact ⟨thread, hwaiter, rfl⟩

omit [DecidableEq Thread] in
/-- The threads past `P` are the holders and the waiters. -/
theorem Inv.card_holders (hinjective : Function.Injective id)
    (hinv : Inv k id sem points) :
    sem.token + (Finset.univ.filter fun thread =>
      Holds [id thread] sem (points thread)).card = k := by
  have hsplit : ∀ thread, entered (points thread) =
      (if Holds [id thread] sem (points thread) then 1 else 0) +
        if id thread ∈ sem.waits then 1 else 0 := by
    intro thread
    by_cases hqueued : id thread ∈ sem.waits
    · obtain hpoint | hpoint := hinv.spins hinjective hqueued
      · simp [hpoint, Holds, List.singleton_infix_iff, hqueued, entered]
      · simp [hpoint, Holds, List.singleton_infix_iff, hqueued, entered]
    · rw [if_neg hqueued]
      cases points thread with
      | none => rfl
      | some point => cases point <;> simp [Holds, List.singleton_infix_iff, hqueued, entered]
  have hsum : ∑ thread, entered (points thread) =
      (Finset.univ.filter fun thread => Holds [id thread] sem (points thread)).card +
        sem.waits.length := by
    rw [Finset.sum_congr rfl fun thread _ => hsplit thread, Finset.sum_add_distrib,
      ← Finset.card_filter, ← Finset.card_filter, hinv.card_queued hinjective]
  have hconserved := hinv.conserved
  omega

/-! ## The order of waking -/

/-- The id that a step puts on the queue. -/
def blockedBy (id : Str) (self : Semaphore) : Option Point → Str
  | some .acquire => if self.token = 0 then id else []
  | _ => []

/-- What a step takes off the queue. -/
def wokenBy (self : Semaphore) : Option Point → Str
  | some .release => self.waits.take 1
  | _ => []

omit [Fintype Thread] [DecidableEq Thread] in
/-- The queue loses its ids at the front and gains them at the back. -/
theorem waits_advance (id : Str) (sem : Semaphore) (point : Point) :
    sem.waits ++ blockedBy id sem (some point) =
      wokenBy sem (some point) ++ (advance id sem point).2.waits := by
  cases point with
  | acquire =>
      simp only [blockedBy, wokenBy, advance, P]
      by_cases htoken : sem.token = 0
      · simp [htoken]
      · simp [htoken, Nat.pos_of_ne_zero htoken]
  | release =>
      simp only [blockedBy, wokenBy, advance, V]
      cases sem.waits with
      | nil => rfl
      | cons head rest => simp
  | spin | pass | enter | leave => simp [blockedBy, wokenBy, advance]

theorem waits_iff {id : Str} {sem : Semaphore} {point : Option Point} :
    Waits id sem point ↔
      (point = some .spin ∨ point = some .pass) ∧ id <:+: sem.waits := by
  cases point with
  | none => simp [Waits]
  | some point => cases point <;> simp [Waits]

theorem holds_of_spins {id : Str} {sem : Semaphore} {point : Option Point}
    (hspins : point = some .spin ∨ point = some .pass) :
    Holds id sem point ↔ ¬ id <:+: sem.waits := by
  obtain rfl | rfl := hspins
  · rfl
  · rfl

theorem mem_wokenBy {char : Char} {sem : Semaphore} {point : Point} :
    char ∈ wokenBy sem (some point) ↔ point = .release ∧ [char] <+: sem.waits := by
  cases point with
  | release =>
      cases hwaits : sem.waits with
      | nil => simp [wokenBy, hwaits]
      | cons head rest => simp [wokenBy, hwaits, List.cons_prefix_cons]
  | acquire | spin | pass | enter | leave => simp [wokenBy]

/-- A step makes a waiter a holder exactly when it is a `V` and the waiter is the
first in the queue. -/
theorem Inv.woken_iff (hinjective : Function.Injective id) (hinv : Inv k id sem points)
    {point : Point} (hpoint : points thread = some point) (waiter : Thread) :
    (Waits [id waiter] sem (points waiter) ∧
      Holds [id waiter] (advance [id thread] sem point).2
        (Function.update points thread (advance [id thread] sem point).1 waiter)) ↔
      point = .release ∧ [id waiter] <+: sem.waits := by
  have hqueue := waits_advance [id thread] sem point
  constructor
  · rintro ⟨hwaits, hholds⟩
    obtain ⟨hspins, hinfix⟩ := waits_iff.mp hwaits
    have hqueued := (List.singleton_infix_iff _ _).mp hinfix
    by_cases hself : waiter = thread
    · -- a waiting thread goes on waiting
      subst hself
      rw [hpoint] at hspins
      rw [Function.update_self] at hholds
      obtain hspin | hpass := hspins
      · cases hspin
        simp [advance, hinfix, Holds] at hholds
      · cases hpass
        simp [advance, hinfix, Holds] at hholds
    · rw [Function.update_of_ne hself, holds_of_spins hspins,
        List.singleton_infix_iff] at hholds
      have hmem := List.mem_append_left (blockedBy [id thread] sem (some point)) hqueued
      rw [hqueue] at hmem
      exact mem_wokenBy.mp ((List.mem_append.mp hmem).resolve_right hholds)
  · rintro ⟨rfl, rest, hwaits⟩
    replace hwaits : sem.waits = id waiter :: rest := hwaits.symm
    have hqueued : id waiter ∈ sem.waits := by
      rw [hwaits]
      exact List.mem_cons_self
    have hspins := hinv.spins hinjective hqueued
    have hself : waiter ≠ thread := by
      rintro rfl
      rw [hpoint] at hspins
      exact hspins.elim nofun nofun
    refine ⟨waits_iff.mpr ⟨hspins, (List.singleton_infix_iff _ _).mpr hqueued⟩, ?_⟩
    rw [Function.update_of_ne hself, holds_of_spins hspins, List.singleton_infix_iff]
    have hnodup := hinv.nodup
    rw [hwaits] at hnodup
    simp only [advance, Semaphore.V, hwaits]
    exact (List.nodup_cons.mp hnodup).1

end Inv

section Staged

variable (k : ℕ) (ids : List Str) (name : Str → String) (line : Str → ℕ) (extra : ℕ)

abbrev staged : Staged (checked k ids name line (extra + 8)) where
  Point := Point
  start := .acquire
  gen index point :=
    ⟨control (line (idOf ids name index)) (idOf ids name index) point, csAt point⟩
  advance index point obj := advance (idOf ids name index) obj point
  call_yields _ _ := ⟨_, rfl⟩
  gen_yields index point obj point' hpoint := by
    obtain ⟨work, next, hresume⟩ := resume_control (line (idOf ids name index))
      (idOf ids name index) obj point point' extra hpoint
    refine ⟨.point next (csAt point'), ?_⟩
    simp only [hresume]
  gen_stops index point obj hpoint := by
    cases point with
    | release => rfl
    | acquire | spin | pass | enter | leave => cases hpoint

/-! ## The semaphore in every trace -/

variable {k ids name line extra}

/-- The threads past `P` whose id is not in the queue and that have not done
`V`. -/
def holders (state : (staged k ids name line extra).State) :
    Finset (Fin (ids.map name).length) :=
  Finset.univ.filter fun index =>
    Holds (idOf ids name index) state.obj (state.points index)

/-- The ids one behind the other, in the order in which their threads blocked. -/
def blocked (trace : List (checked k ids name line (extra + 8)).Thread) : Str :=
  Staged.log (fun (state : (staged k ids name line extra).State) chosen =>
    blockedBy (idOf ids name chosen) state.obj (state.points chosen)) trace

/-- The ids in the order in which `V` took them off the queue. -/
def woken (trace : List (checked k ids name line (extra + 8)).Thread) : Str :=
  Staged.log (fun (state : (staged k ids name line extra).State) chosen =>
    wokenBy state.obj (state.points chosen)) trace

/-- `localvar(state, t, 'cs')`, which the markers ask for. -/
def InCriticalSection (machine : (checked k ids name line (extra + 8)).Machine)
    (index : Fin (ids.map name).length) : Prop :=
  ∃ gen, machine.T index = some gen ∧ gen.cs = some true

theorem run_inv {char : Fin (ids.map name).length → Char}
    (hinjective : Function.Injective char)
    (hchar : ∀ index, idOf ids name index = [char index])
    (trace : List (checked k ids name line (extra + 8)).Thread) :
    Inv k char ((staged k ids name line extra).run trace).obj
      ((staged k ids name line extra).run trace).points := by
  apply Staged.run_induction (P := fun state : (staged k ids name line extra).State =>
    Inv k char state.obj state.points)
  · refine ⟨List.nodup_nil, nofun, absurd rfl, ?_⟩
    show k + ∑ _, entered (some .acquire) = k + 0
    simp [entered]
  · intro state chosen hinv
    cases hpoint : state.points chosen with
    | none => rwa [Staged.State.step_of_end hpoint]
    | some point =>
        have hstep := hinv.step hinjective hpoint
        rw [← hchar] at hstep
        rwa [Staged.State.step_of_point hpoint]

/-- Those that blocked first were woken, and the others are queued in the same
order. -/
theorem blocked_eq (trace : List (checked k ids name line (extra + 8)).Thread) :
    blocked trace = woken trace ++ ((staged k ids name line extra).run trace).obj.waits := by
  induction trace using List.reverseRecOn with
  | nil => rfl
  | append_singleton trace chosen ih =>
      rw [blocked, woken, Staged.log_snoc, Staged.log_snoc, Staged.run_snoc]
      rw [blocked, woken] at ih
      rw [ih, List.append_assoc, List.append_assoc]
      congr 1
      cases hpoint : ((staged k ids name line extra).run trace).points chosen with
      | none =>
          rw [Staged.State.step_of_end hpoint]
          exact List.append_nil _
      | some point =>
          rw [Staged.State.step_of_point hpoint]
          exact waits_advance _ _ point

/-- Whoever is in the critical section holds a token. -/
theorem mem_holders_of_cs {machine : (checked k ids name line (extra + 8)).Machine}
    {state : (staged k ids name line extra).State} (hplaced : Staged.Placed machine state)
    {index : Fin (ids.map name).length} (hcs : InCriticalSection machine index) :
    index ∈ holders state := by
  obtain ⟨gen, hgen, hset⟩ := hcs
  rw [hplaced.gens] at hgen
  obtain ⟨point, hpoint, rfl⟩ := Option.map_eq_some_iff.mp hgen
  rw [holders, Finset.mem_filter, hpoint]
  refine ⟨Finset.mem_univ index, ?_⟩
  cases point <;> cases hset
  trivial

theorem woken_iff_step {char : Fin (ids.map name).length → Char}
    (hinjective : Function.Injective char)
    (hchar : ∀ index, idOf ids name index = [char index])
    (trace : List (checked k ids name line (extra + 8)).Thread)
    (chosen waiter : Fin (ids.map name).length) :
    (Waits (idOf ids name waiter) ((staged k ids name line extra).run trace).obj
        (((staged k ids name line extra).run trace).points waiter) ∧
      waiter ∈ holders ((staged k ids name line extra).run (trace ++ [chosen]))) ↔
    (((staged k ids name line extra).run trace).points chosen = some .release ∧
      idOf ids name waiter <+: ((staged k ids name line extra).run trace).obj.waits) := by
  have hinv := run_inv hinjective hchar trace
  rw [Staged.run_snoc, holders, Finset.mem_filter]
  simp only [Finset.mem_univ, true_and]
  cases hpoint : ((staged k ids name line extra).run trace).points chosen with
  | none =>
      rw [Staged.State.step_of_end hpoint]
      refine iff_of_false ?_ (by simp)
      rintro ⟨hwaits, hholds⟩
      obtain ⟨hspins, hqueued⟩ := waits_iff.mp hwaits
      exact (holds_of_spins hspins).mp hholds hqueued
  | some point =>
      rw [Staged.State.step_of_point hpoint, Option.some.injEq]
      have hwoken := hinv.woken_iff hinjective hpoint waiter
      rwa [← hchar waiter, ← hchar chosen] at hwoken

/-- For threads with different ids of one character each: tokens are conserved, at most
`k` threads are in the critical section, and each `V` that finds waiters makes the one
that has blocked for longest a holder. -/
theorem semaphore_conserves (k : ℕ) (ids : List Str) (hids : ids.Nodup)
    (hone : ∀ id ∈ ids, id.length = 1) (name : Str → String) (line : Str → ℕ) (extra : ℕ)
    (trace : List (checked k ids name line (extra + 8)).Thread) :
    ∃ machine, (checked k ids name line (extra + 8)).replay trace = some machine ∧
      Staged.Placed machine ((staged k ids name line extra).run trace) ∧
      machine.obj.token + (holders ((staged k ids name line extra).run trace)).card = k ∧
      (∀ inside : Finset (Fin (ids.map name).length),
        (∀ index ∈ inside, InCriticalSection machine index) → inside.card ≤ k) ∧
      (machine.obj.waits ≠ [] → machine.obj.token = 0) ∧
      blocked trace = woken trace ++ machine.obj.waits ∧
      ∀ chosen waiter,
        (Waits (idOf ids name waiter) machine.obj
            (((staged k ids name line extra).run trace).points waiter) ∧
          waiter ∈ holders ((staged k ids name line extra).run (trace ++ [chosen]))) ↔
        (((staged k ids name line extra).run trace).points chosen = some .release ∧
          idOf ids name waiter <+: machine.obj.waits) := by
  obtain ⟨machine, hreplay, hplaced⟩ :=
    Staged.replay_placed (staged k ids name line extra) trace
  obtain ⟨char, hinjective, hchar⟩ := exists_chars hids hone (List.length_map name)
  have hinv : Inv k char _ _ := run_inv hinjective hchar trace
  have hcard : machine.obj.token +
      (holders ((staged k ids name line extra).run trace)).card = k := by
    have hholders := hinv.card_holders hinjective
    simp only [← hchar] at hholders
    rwa [hplaced.obj]
  refine ⟨machine, hreplay, hplaced, hcard, ?_, ?_, ?_, ?_⟩
  · intro inside hinside
    calc inside.card
        ≤ (holders ((staged k ids name line extra).run trace)).card :=
          Finset.card_le_card fun index hindex =>
            mem_holders_of_cs hplaced (hinside index hindex)
      _ ≤ k := by omega
  · rw [hplaced.obj]
    exact hinv.empty
  · rw [hplaced.obj]
    exact blocked_eq trace
  · rw [hplaced.obj]
    exact woken_iff_step hinjective hchar trace

/-- The two threads of the file. -/
abbrev shippedIds : List Str := [['1'], ['2']]

abbrev shippedName (id : Str) : String := "t" ++ String.ofList id

/-- The lines where `astor` prints the bodies. -/
abbrev shippedLine (id : Str) : ℕ := if id = ['1'] then 19 else 33

/-- The file has one token. -/
abbrev shipped : CheckedClass := checked 1 shippedIds shippedName shippedLine (0 + 8)

def t1 : shipped.Thread := ⟨0, by decide⟩

def t2 : shipped.Thread := ⟨1, by decide⟩

/-- `t1` is in the critical section and `t2` has blocked. -/
theorem semaphore_conserves_shipped :
    shippedIds.Nodup ∧ (∀ id ∈ shippedIds, id.length = 1) ∧
    ∃ machine, shipped.replay [t1, t2, t1, t1] = some machine ∧
      InCriticalSection machine t1 ∧ machine.obj.waits = ['2'] ∧
      machine.obj.token +
        (holders ((staged 1 shippedIds shippedName shippedLine 0).run [t1, t2, t1, t1])).card =
          1 ∧
      (∀ inside : Finset (Fin 2),
        (∀ index ∈ inside, InCriticalSection machine index) → inside.card ≤ 1) ∧
      (machine.obj.waits ≠ [] → machine.obj.token = 0) := by
  obtain ⟨machine, hreplay, -, hholders, hinside, hempty, -⟩ := semaphore_conserves 1
    shippedIds (by decide) (by decide) shippedName shippedLine 0 [t1, t2, t1, t1]
  refine ⟨by decide, by decide, machine, hreplay, ?_, ?_, hholders, hinside, hempty⟩
  · cases hreplay
    exact ⟨_, rfl, rfl⟩
  · cases hreplay
    rfl

/-- The file with the ids `1` and `11`. -/
abbrev nested : CheckedClass :=
  checked 1 [['1'], ['1', '1']] shippedName shippedLine (0 + 8)

def n1 : nested.Thread := ⟨0, by decide⟩

def n11 : nested.Thread := ⟨1, by decide⟩

/-- `1` has taken the token and `11` blocks: `1` finds its own id in that of `11`, so
that nobody holds the token and both spin. -/
theorem nested_ids_lose_token :
    [['1'], ['1', '1']].Nodup ∧
    ∃ machine, nested.replay [n1, n11] = some machine ∧
      Staged.Placed machine
        ((staged 1 [['1'], ['1', '1']] shippedName shippedLine 0).run [n1, n11]) ∧
      machine.obj.token + (holders
        ((staged 1 [['1'], ['1', '1']] shippedName shippedLine 0).run [n1, n11])).card = 0 := by
  obtain ⟨machine, hreplay, hplaced⟩ := Staged.replay_placed
    (staged 1 [['1'], ['1', '1']] shippedName shippedLine 0) [n1, n11]
  refine ⟨by decide, machine, hreplay, hplaced, ?_⟩
  rw [hplaced.obj]
  decide

end Staged

end Semaphore

end JyyOS.ModelChecker
