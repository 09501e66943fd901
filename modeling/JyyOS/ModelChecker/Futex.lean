import JyyOS.ModelChecker.Python
import JyyOS.ModelChecker.Staged

/-!
# The futex lock (`futex.py`)

The thread body of `Futex` for any number of threads.  A thread that fails to
take the lock queues its id and spins until the id has left the queue; the
thread that releases the lock hands it to the head of the queue by removing the
id, and `locked` stays set.

Between two checkpoints a thread does what `advance` says, so that the traces
of the model checker are runs of a small transition system.
-/

namespace JyyOS.ModelChecker

open JyyOS.ModelChecker.Language

/-- The attributes.  `locked` is a string that is empty or not, and `waits` is the
ids of the waiting threads, one behind the other. -/
structure Futex where
  locked : Bool
  waits : Str

namespace Futex

/-! ## The class -/

/-- The attributes and the local variable of a thread. -/
structure Store where
  self : Futex
  cs : Option Bool

/-- The call in the header of the `if`, with the result of its comparison. -/
def tryacquire (store : Store) : Option (Bool × Store) :=
  if store.self.locked then some (true, store)
  else some (false, { store with self := { store.self with locked := true } })

def release (self : Futex) : Futex :=
  match self.waits with
  | [] => { self with locked := false }
  | _ :: waits => { self with waits := waits }

def enqueue (id : Str) (self : Futex) : Futex :=
  { self with waits := self.waits ++ id }

def language : Language where
  Act := Store → Option (Store)
  Cond := Store → Option (Bool × Store)
  Loop := Empty
  Store := Store
  Iterator := Empty
  exec act := act
  test cond := cond
  iter loop := nomatch loop
  advance loop := nomatch loop

def forever (store : Store) : Option (Bool × Store) := some (true, store)

def append (id : Str) (store : Store) : Option (Store) :=
  some { store with self := store.self.enqueue id }

def inWaits (id : Str) (store : Store) : Option (Bool × Store) :=
  some (decide (id <:+: store.self.waits), store)

def setCs (store : Store) : Option (Store) := some { store with cs := some true }

/-- `del` of an unbound variable raises. -/
def delCs (store : Store) : Option (Store) := do
  let _ ← store.cs
  some { store with cs := none }

def callRelease (store : Store) : Option (Store) :=
  some { store with self := store.self.release }

def body (id : Str) : language.Code :=
  .compound (.whileTest forever)
    (.compound (.ifTest tryacquire)
      (.leaf (.simple (append id))
        (.compound (.whileTest (inWaits id)) (.leaf (.simple some) .nil) .nil .nil))
      .nil
      (.leaf (.simple setCs)
        (.leaf (.simple delCs)
          (.leaf (.simple callRelease) .nil))))
    .nil .nil

/-- A thread with its id, the name of its method and the line of the printed
source where its body begins. -/
def thread (name : String) (line : ℕ) (id : Str) : language.ThreadFunction where
  name := name
  body := body id
  suite := by simp [body, Body.Suite]
  line := line

structure Gen where
  stack : language.Stack
  cs : Option Bool

/-- What the recorded state holds: a line and the local variable, or an
attribute. -/
inductive Entry where
  | point (line : ℕ) (cs : Option Bool)
  | locked (value : Bool)
  | waits (value : Str)

def idOf (ids : List Str) (name : Str → String) (index : Fin (ids.map name).length) :
    Str :=
  ids.get (index.cast (List.length_map _))

/-- The class with a thread for each id.  Every resumption of a thread is given
`fuel`. -/
abbrev checked (ids : List Str) (name : Str → String) (line : Str → ℕ) (fuel : ℕ) :
    CheckedClass where
  Obj := Futex
  Gen := Gen
  Entry := Entry
  Value := Entry
  threads := ids.map name
  new := ⟨false, []⟩
  call index :=
    let id := idOf ids name index
    ⟨(thread (name id) (line id) id).call, none⟩
  next gen obj :=
    match resume fuel gen.stack ⟨obj, gen.cs⟩ with
    | some (_, .yielded line stack store) =>
        some (.yielded (.point line store.cs) ⟨stack, store.cs⟩ store.self)
    | some (_, .stopped store) => some (.stopped store.self)
    | _ => none
  attrs obj := [("locked", .locked obj.locked), ("waits", .waits obj.waits)]
  read _ entry := entry

/-! ## Control points -/

/-- The checkpoints of a thread, by the statement that comes next. -/
inductive Point where
  /-- `while True` -/
  | start
  /-- `if self.tryacquire() == ...` -/
  | acquire
  /-- `self.waits = self.waits + ...` -/
  | queue
  /-- `while ... in self.waits` -/
  | spin
  | pass
  /-- `cs = True` -/
  | enter
  /-- `del cs` -/
  | leave
  | release
deriving DecidableEq

/-- The rest of the loop body behind the `if`. -/
def critical (line : ℕ) : language.Code :=
  .leaf (.checkpoint (line + 10)) (.leaf (.simple setCs)
    (.leaf (.checkpoint (line + 12)) (.leaf (.simple delCs)
      (.leaf (.checkpoint (line + 14)) (.leaf (.simple callRelease) .nil)))))

def spinning (line : ℕ) : language.Code :=
  .leaf (.checkpoint (line + 8)) (.leaf (.simple some) .nil)

def waiting (line : ℕ) (id : Str) : language.Code :=
  .compound (.whileTest (inWaits id)) (spinning line) .nil .nil

def attempt (line : ℕ) (id : Str) : language.Code :=
  .compound (.ifTest tryacquire)
    (.leaf (.checkpoint (line + 4)) (.leaf (.simple (append id))
      (.leaf (.checkpoint (line + 6)) (waiting line id))))
    .nil (critical line)

/-- The loop around everything. -/
def outer (line : ℕ) (id : Str) : language.Stack :=
  [.whileLoop forever (.leaf (.checkpoint (line + 2)) (attempt line id)) .nil,
    .suite .nil]

/-- The control of a thread at a checkpoint. -/
def control (line : ℕ) (id : Str) : Point → language.Stack
  | .start => [.suite (.compound (.whileTest forever)
      (.leaf (.checkpoint (line + 2)) (attempt line id)) .nil .nil)]
  | .acquire => .suite (attempt line id) :: outer line id
  | .queue => .suite (.leaf (.simple (append id))
      (.leaf (.checkpoint (line + 6)) (waiting line id))) ::
        .suite (critical line) :: outer line id
  | .spin => .suite (waiting line id) :: .suite (critical line) :: outer line id
  | .pass => .suite (.leaf (.simple some) .nil) ::
      .whileLoop (inWaits id) (spinning line) .nil :: .suite .nil ::
        .suite (critical line) :: outer line id
  | .enter => .suite (.leaf (.simple setCs)
      (.leaf (.checkpoint (line + 12)) (.leaf (.simple delCs)
        (.leaf (.checkpoint (line + 14)) (.leaf (.simple callRelease) .nil))))) ::
          outer line id
  | .leave => .suite (.leaf (.simple delCs)
      (.leaf (.checkpoint (line + 14)) (.leaf (.simple callRelease) .nil))) ::
        outer line id
  | .release => .suite (.leaf (.simple callRelease) .nil) :: outer line id

/-- The local variable at a checkpoint: it is bound inside the critical section
only. -/
def csAt : Point → Option Bool
  | .leave => some true
  | _ => none

/-- What a thread does up to its next checkpoint. -/
def advance (id : Str) (self : Futex) : Point → Point × Futex
  | .start => (.acquire, self)
  | .acquire =>
      if self.locked then (.queue, self) else (.enter, { self with locked := true })
  | .queue => (.spin, self.enqueue id)
  | .spin | .pass => (if id <:+: self.waits then .pass else .enter, self)
  | .enter => (.leave, self)
  | .leave => (.release, self)
  | .release => (.acquire, self.release)

/-- The test of the spinning loop, on entry and again after each `pass`. -/
theorem resume_waiting (line : ℕ) (id : Str) (self : Futex) (extra : ℕ) :
    ∃ work next, resume (extra + 6)
        (.whileLoop (inWaits id) (spinning line) .nil :: .suite .nil ::
          .suite (critical line) :: outer line id) ⟨self, none⟩ =
      some (work, .yielded next
        (control line id (if id <:+: self.waits then .pass else .enter)) ⟨self, none⟩) := by
  have htest : ∀ holds, decide (id <:+: self.waits) = holds →
      language.test (inWaits id) ⟨self, none⟩ = some (holds, ⟨self, none⟩) := by
    rintro _ rfl
    rfl
  by_cases hqueued : id <:+: self.waits
  · rw [if_pos hqueued, resume_whileLoop (htest true (decide_eq_true hqueued)) (extra + 5)]
    exact ⟨_, _, rfl⟩
  · rw [if_neg hqueued, resume_whileLoop (htest false (decide_eq_false hqueued)) (extra + 5)]
    exact ⟨_, _, rfl⟩

theorem csAt_waiting (id : Str) (self : Futex) :
    csAt (if id <:+: self.waits then .pass else .enter) = none := by
  split_ifs <;> rfl

/-- A resumed thread goes from checkpoint to checkpoint. -/
theorem resume_control (line : ℕ) (id : Str) (self : Futex) (point : Point)
    (extra : ℕ) :
    ∃ work next, resume (extra + 8) (control line id point) ⟨self, csAt point⟩ =
      some (work, .yielded next (control line id (advance id self point).1)
        ⟨(advance id self point).2, csAt (advance id self point).1⟩) := by
  cases point with
  | start => exact ⟨_, _, rfl⟩
  | acquire =>
      obtain ⟨locked, waits⟩ := self
      cases locked with
      | true => exact ⟨_, _, rfl⟩
      | false => exact ⟨_, _, rfl⟩
  | queue => exact ⟨_, _, rfl⟩
  | spin =>
      obtain ⟨work, next, hresume⟩ := resume_waiting line id self (extra + 1)
      simp only [advance, csAt_waiting]
      exact ⟨work, next, hresume⟩
  | pass =>
      obtain ⟨work, next, hresume⟩ := resume_waiting line id self extra
      simp only [advance, csAt_waiting]
      refine ⟨work + 1, next, ?_⟩
      exact congrArg (Option.map fun result : ℕ × language.Outcome =>
        (result.1 + 1, result.2)) hresume
  | enter => exact ⟨_, _, rfl⟩
  | leave => exact ⟨_, _, rfl⟩
  | release => exact ⟨_, _, rfl⟩

/-- The control of a thread tells where it is. -/
theorem control_injective (line : ℕ) (id : Str) :
    Function.Injective (control line id) := by
  intro point other hcontrol
  cases point <;> cases other <;>
    simp [control, attempt, waiting, outer] at hcontrol ⊢

/-! ## The lock -/

/-- The thread took the lock or was handed it, and has not released it. -/
def Owns (id : Str) (futex : Futex) : Point → Prop
  | .enter | .leave | .release => True
  | .spin | .pass => ¬ id <:+: futex.waits
  | _ => False

/-- The thread spins with its id in the queue. -/
def Waits (id : Str) (futex : Futex) : Point → Prop
  | .spin | .pass => id <:+: futex.waits
  | _ => False

section Lock

variable {Thread : Type} [DecidableEq Thread] {id : Thread → Char} {futex : Futex}
  {points : Thread → Point} {thread : Thread}

structure Inv (id : Thread → Char) (futex : Futex) (points : Thread → Point) :
    Prop where
  nodup : futex.waits.Nodup
  queued : ∀ waiter ∈ futex.waits, ∃ thread, id thread = waiter ∧
    (points thread = .spin ∨ points thread = .pass)
  unique : ∀ thread other, Owns [id thread] futex (points thread) →
    Owns [id other] futex (points other) → thread = other
  locked_iff : futex.locked = true ↔
    ∃ thread, Owns [id thread] futex (points thread)
  /-- Whoever released the lock last has not tried to take it since. -/
  free : futex.locked = false → ∃ thread,
    points thread = .start ∨ points thread = .acquire

omit [DecidableEq Thread] in
/-- The thread of a queued id is not one that does something else. -/
theorem Inv.queued_ne (hinv : Inv id futex points) {point : Point}
    (hpoint : points thread = point) (hspin : point ≠ .spin) (hpass : point ≠ .pass)
    {waiter : Char} (hwaiter : waiter ∈ futex.waits) :
    ∃ other, other ≠ thread ∧ id other = waiter ∧
      (points other = .spin ∨ points other = .pass) := by
  obtain ⟨other, hid, hother⟩ := hinv.queued waiter hwaiter
  refine ⟨other, ?_, hid, hother⟩
  rintro rfl
  rw [hpoint] at hother
  exact hother.elim hspin hpass

/-- Such a thread moves, and the queued ids keep their threads. -/
theorem Inv.queued_update (hinv : Inv id futex points) {point : Point}
    (hpoint : points thread = point) (hspin : point ≠ .spin) (hpass : point ≠ .pass)
    (next : Point) {waiter : Char} (hwaiter : waiter ∈ futex.waits) :
    ∃ other, id other = waiter ∧ (Function.update points thread next other = .spin ∨
      Function.update points thread next other = .pass) := by
  obtain ⟨other, hne, hid, hother⟩ := hinv.queued_ne hpoint hspin hpass hwaiter
  refine ⟨other, hid, ?_⟩
  rwa [Function.update_of_ne hne]

/-- A thread moves and leaves the attributes alone. -/
theorem Inv.move (hinv : Inv id futex points) {point : Point}
    (howns : Owns [id thread] futex point ↔
      Owns [id thread] futex (points thread))
    (hqueued : points thread = .spin ∨ points thread = .pass →
      id thread ∈ futex.waits → point = .spin ∨ point = .pass)
    (hfree : futex.locked = false →
      points thread = .start ∨ points thread = .acquire →
        point = .start ∨ point = .acquire) :
    Inv id futex (Function.update points thread point) := by
  have hiff : ∀ other, Owns [id other] futex
      (Function.update points thread point other) ↔
        Owns [id other] futex (points other) := by
    intro other
    by_cases hother : other = thread
    · rw [hother, Function.update_self]
      exact howns
    · rw [Function.update_of_ne hother]
  refine ⟨hinv.nodup, ?_, ?_, ?_, ?_⟩
  · intro waiter hwaiter
    obtain ⟨other, rfl, hpoint⟩ := hinv.queued waiter hwaiter
    refine ⟨other, rfl, ?_⟩
    by_cases hother : other = thread
    · subst hother
      rw [Function.update_self]
      exact hqueued hpoint hwaiter
    · rwa [Function.update_of_ne hother]
  · intro first second hfirst hsecond
    exact hinv.unique first second ((hiff first).mp hfirst) ((hiff second).mp hsecond)
  · rw [hinv.locked_iff]
    exact exists_congr fun other => (hiff other).symm
  · intro hunlocked
    obtain ⟨other, hpoint⟩ := hinv.free hunlocked
    refine ⟨other, ?_⟩
    by_cases hother : other = thread
    · subst hother
      rw [Function.update_self]
      exact hfree hunlocked hpoint
    · rwa [Function.update_of_ne hother]

omit [DecidableEq Thread] in
/-- No thread owns a lock that is not set. -/
theorem Inv.not_owns (hinv : Inv id futex points) (hunlocked : futex.locked = false)
    (other : Thread) : ¬ Owns [id other] futex (points other) := by
  intro howns
  have hlocked := hinv.locked_iff.mpr ⟨other, howns⟩
  rw [hunlocked] at hlocked
  cases hlocked

theorem Inv.acquire (hinv : Inv id futex points) (hpoint : points thread = .acquire)
    (hunlocked : futex.locked = false) :
    Inv id { futex with locked := true } (Function.update points thread .enter) := by
  have howner : ∀ other, Owns [id other] { futex with locked := true }
      (Function.update points thread .enter other) → other = thread := by
    intro other howns
    by_contra hother
    rw [Function.update_of_ne hother] at howns
    apply hinv.not_owns hunlocked other
    cases hmode : points other <;> rw [hmode] at howns <;> exact howns
  refine ⟨hinv.nodup, ?_, ?_, ?_, nofun⟩
  · intro waiter hwaiter
    exact hinv.queued_update hpoint nofun nofun _ hwaiter
  · intro first second hfirst hsecond
    rw [howner first hfirst, howner second hsecond]
  · refine iff_of_true rfl ⟨thread, ?_⟩
    rw [Function.update_self]
    trivial

theorem Inv.queue (hinjective : Function.Injective id) (hinv : Inv id futex points)
    (hpoint : points thread = .queue) :
    Inv id (futex.enqueue [id thread]) (Function.update points thread .spin) := by
  have hnew : id thread ∉ futex.waits := by
    intro hqueued
    obtain ⟨other, hne, hid, -⟩ := hinv.queued_ne hpoint nofun nofun hqueued
    exact hne (hinjective hid)
  have hiff : ∀ other, Owns [id other] (futex.enqueue [id thread])
      (Function.update points thread .spin other) ↔
        Owns [id other] futex (points other) := by
    intro other
    by_cases hother : other = thread
    · subst hother
      rw [Function.update_self, hpoint]
      simp [Owns, enqueue, List.singleton_infix_iff]
    · rw [Function.update_of_ne hother]
      have hne : id other ≠ id thread := fun hid => hother (hinjective hid)
      cases points other <;> simp [Owns, enqueue, List.singleton_infix_iff, hne]
  refine ⟨?_, ?_, ?_, ?_, ?_⟩
  · show (futex.waits ++ [id thread]).Nodup
    rw [← List.concat_eq_append]
    exact hinv.nodup.concat hnew
  · intro waiter hwaiter
    obtain hwaiter | hself := List.mem_append.mp hwaiter
    · exact hinv.queued_update hpoint nofun nofun _ hwaiter
    · cases List.mem_singleton.mp hself
      exact ⟨thread, rfl, .inl (Function.update_self ..)⟩
  · intro first second hfirst hsecond
    exact hinv.unique first second ((hiff first).mp hfirst) ((hiff second).mp hsecond)
  · rw [exists_congr hiff]
    exact hinv.locked_iff
  · intro hunlocked
    obtain ⟨other, hother⟩ := hinv.free hunlocked
    have hne : other ≠ thread := by
      rintro rfl
      rw [hpoint] at hother
      obtain hother | hother := hother
      · cases hother
      · cases hother
    exact ⟨other, by rwa [Function.update_of_ne hne]⟩

/-- Nobody waits, and the lock is given back. -/
theorem Inv.unlock (hinv : Inv id futex points) (hpoint : points thread = .release)
    (hwaits : futex.waits = []) :
    Inv id { futex with locked := false } (Function.update points thread .acquire) := by
  have howns : Owns [id thread] futex (points thread) := by
    rw [hpoint]
    trivial
  have hnobody : ∀ other, ¬ Owns [id other] { futex with locked := false }
      (Function.update points thread .acquire other) := by
    intro other hother
    by_cases hne : other = thread
    · rw [hne, Function.update_self] at hother
      exact hother
    · rw [Function.update_of_ne hne] at hother
      apply hne
      apply hinv.unique other thread _ howns
      cases hmode : points other <;> rw [hmode] at hother <;> exact hother
  refine ⟨hinv.nodup, ?_, ?_, ?_, ?_⟩
  · intro waiter hwaiter
    change waiter ∈ futex.waits at hwaiter
    rw [hwaits] at hwaiter
    cases hwaiter
  · intro first second hfirst
    exact absurd hfirst (hnobody first)
  · exact iff_of_false Bool.false_ne_true fun ⟨other, hother⟩ => hnobody other hother
  · intro _
    exact ⟨thread, .inr (Function.update_self ..)⟩

/-- The lock is handed to the thread at the head of the queue. -/
theorem Inv.hand (hinjective : Function.Injective id) (hinv : Inv id futex points)
    (hpoint : points thread = .release) {head : Char} {rest : Str}
    (hwaits : futex.waits = head :: rest) :
    Inv id { futex with waits := rest } (Function.update points thread .acquire) := by
  have howns : Owns [id thread] futex (points thread) := by
    rw [hpoint]
    trivial
  have hnodup : head ∉ rest ∧ rest.Nodup := by
    rw [← List.nodup_cons, ← hwaits]
    exact hinv.nodup
  have hhead : head ∈ futex.waits := by
    rw [hwaits]
    exact List.mem_cons_self
  obtain ⟨heir, hheir, rfl, hspins⟩ := hinv.queued_ne hpoint nofun nofun hhead
  have hiff : ∀ other, Owns [id other] { futex with waits := rest }
      (Function.update points thread .acquire other) ↔ other = heir := by
    intro other
    by_cases hne : other = thread
    · rw [hne, Function.update_self]
      exact iff_of_false False.elim fun heq => hheir heq.symm
    · rw [Function.update_of_ne hne]
      have hwaiting : ¬ Owns [id other] futex (points other) := by
        intro hother
        exact hne (hinv.unique other thread hother howns)
      have hmem : id other ∈ futex.waits → (id other ∉ rest ↔ other = heir) := by
        rw [hwaits, List.mem_cons]
        rintro (heq | hrest)
        · exact iff_of_true (heq ▸ hnodup.1) (hinjective heq)
        · refine iff_of_false (not_not_intro hrest) ?_
          rintro rfl
          exact hnodup.1 hrest
      cases hmode : points other <;> rw [hmode] at hwaiting
      case spin | pass =>
        simp only [Owns, List.singleton_infix_iff, not_not] at hwaiting ⊢
        exact hmem hwaiting
      case enter | leave | release => exact absurd trivial hwaiting
      all_goals
        refine iff_of_false False.elim ?_
        rintro rfl
        rw [hmode] at hspins
        exact hspins.elim nofun nofun
  refine ⟨hnodup.2, ?_, ?_, ?_, ?_⟩
  · intro waiter hwaiter
    have hqueued : waiter ∈ futex.waits := by
      rw [hwaits]
      exact List.mem_cons_of_mem _ hwaiter
    exact hinv.queued_update hpoint nofun nofun _ hqueued
  · intro first second hfirst hsecond
    rw [(hiff first).mp hfirst, (hiff second).mp hsecond]
  · exact iff_of_true (hinv.locked_iff.mpr ⟨thread, howns⟩) ⟨heir, (hiff heir).mpr rfl⟩
  · intro hunlocked
    exact absurd howns (hinv.not_owns hunlocked thread)

theorem Inv.release (hinjective : Function.Injective id) (hinv : Inv id futex points)
    (hpoint : points thread = .release) :
    Inv id futex.release (Function.update points thread .acquire) := by
  unfold Futex.release
  split
  case h_1 hwaits => exact hinv.unlock hpoint hwaits
  case h_2 head rest hwaits => exact hinv.hand hinjective hpoint hwaits

/-- The invariant holds from checkpoint to checkpoint. -/
theorem Inv.step (hinjective : Function.Injective id) (hinv : Inv id futex points)
    (thread : Thread) :
    Inv id (advance [id thread] futex (points thread)).2
      (Function.update points thread (advance [id thread] futex (points thread)).1) := by
  cases hpoint : points thread with
  | start =>
      exact hinv.move (by rw [hpoint]; rfl) (by simp [hpoint]) fun _ _ => .inr rfl
  | acquire =>
      cases hlocked : futex.locked with
      | true =>
          simp only [advance, hlocked, if_true]
          exact hinv.move (by rw [hpoint]; rfl) (by simp [hpoint]) (by simp [hlocked])
      | false =>
          simp only [advance, hlocked, Bool.false_eq_true, if_false]
          exact hinv.acquire hpoint hlocked
  | queue => exact hinv.queue hinjective hpoint
  | spin | pass =>
      by_cases hqueued : id thread ∈ futex.waits
      · simp only [advance, List.singleton_infix_iff, if_pos hqueued]
        exact hinv.move (by simp [hpoint, Owns]) (fun _ _ => .inr rfl) (by simp [hpoint])
      · simp only [advance, List.singleton_infix_iff, if_neg hqueued]
        exact hinv.move (by simp [hpoint, Owns, List.singleton_infix_iff, hqueued])
          (by simp [hqueued]) (by simp [hpoint])
  | enter => exact hinv.move (by rw [hpoint]; rfl) (by simp [hpoint]) (by simp [hpoint])
  | leave => exact hinv.move (by rw [hpoint]; rfl) (by simp [hpoint]) (by simp [hpoint])
  | release => exact hinv.release hinjective hpoint

omit [DecidableEq Thread] in
theorem Inv.initial [Nonempty Thread] (id : Thread → Char) :
    Inv id ⟨false, []⟩ fun _ => .start where
  nodup := List.nodup_nil
  queued := nofun
  unique := nofun
  locked_iff := iff_of_false Bool.false_ne_true nofun
  free _ := ⟨Classical.arbitrary Thread, .inl rfl⟩

omit [DecidableEq Thread] in
/-- Some thread is not in the queue. -/
theorem Inv.exists_not_waits (hinv : Inv id futex points) :
    ∃ thread, ¬ Waits [id thread] futex (points thread) := by
  cases hlocked : futex.locked with
  | true =>
      obtain ⟨thread, howns⟩ := hinv.locked_iff.mp hlocked
      refine ⟨thread, fun hwaits => ?_⟩
      cases hpoint : points thread <;> rw [hpoint] at howns hwaits
      case spin | pass => exact howns hwaits
      all_goals exact hwaits
  | false =>
      obtain ⟨thread, hpoint⟩ := hinv.free hlocked
      refine ⟨thread, fun hwaits => ?_⟩
      obtain hpoint | hpoint := hpoint
      · rw [hpoint] at hwaits
        exact hwaits
      · rw [hpoint] at hwaits
        exact hwaits

end Lock

/-! ## Traces -/

section Traces

variable {ids : List Str} {name : Str → String} {line : Str → ℕ} {extra : ℕ}

/-- The generator of a thread at a checkpoint. -/
def genAt (line : Str → ℕ) (id : Str) (point : Point) : Gen :=
  ⟨control (line id) id point, csAt point⟩

variable (ids name line extra) in
def staged : Staged (checked ids name line (extra + 8)) where
  Point := Point
  start := .start
  gen index := genAt line (idOf ids name index)
  advance index point obj :=
    (some (advance (idOf ids name index) obj point).1,
      (advance (idOf ids name index) obj point).2)
  call_yields _ _ := ⟨_, rfl⟩
  gen_yields index point obj point' hpoint := by
    cases hpoint
    obtain ⟨work, next, hresume⟩ := resume_control (line (idOf ids name index))
      (idOf ids name index) obj point extra
    refine ⟨.point next (csAt (advance (idOf ids name index) obj point).1), ?_⟩
    simp only [checked, genAt, hresume]
  gen_stops _ _ _ hpoint := by cases hpoint

/-- Every thread is at the checkpoint given. -/
def Placed (machine : (checked ids name line (extra + 8)).Machine)
    (points : Fin (ids.map name).length → Point) : Prop :=
  ∀ index, machine.T index = some (genAt line (idOf ids name index) (points index))

/-- No thread has ended, and the invariant holds for threads with these ids. -/
def Holds (char : Fin (ids.map name).length → Char)
    (state : (staged ids name line extra).State) : Prop :=
  ∃ points : Fin (ids.map name).length → Point,
    (∀ index, state.points index = some (points index)) ∧
      (ids ≠ [] → Inv char state.obj points)

theorem run_holds {char : Fin (ids.map name).length → Char}
    (hinjective : Function.Injective char)
    (hchar : ∀ index, idOf ids name index = [char index])
    (trace : List (checked ids name line (extra + 8)).Thread) :
    Holds char ((staged ids name line extra).run trace) := by
  apply Staged.run_induction (P := Holds char)
  · refine ⟨fun _ => .start, fun _ => rfl, ?_⟩
    intro hne
    have : Nonempty (Fin (ids.map name).length) :=
      ⟨⟨0, by simpa [List.length_pos_iff] using hne⟩⟩
    exact Inv.initial _
  · rintro state chosen ⟨points, hpoints, hinv⟩
    rw [Staged.State.step_of_point (hpoints chosen)]
    refine ⟨Function.update points chosen
      (advance (idOf ids name chosen) state.obj (points chosen)).1, ?_, ?_⟩
    · intro index
      by_cases hindex : index = chosen
      · subst hindex
        simp only [Function.update_self]
        rfl
      · simp only [Function.update_of_ne hindex]
        exact hpoints index
    · intro hne
      have hstep := (hinv hne).step hinjective chosen
      rwa [← hchar] at hstep

variable (name line extra) in
/-- The ids of the threads are characters, and the invariant holds of them. -/
theorem replay_placed (hids : ids.Nodup) (hone : ∀ id ∈ ids, id.length = 1)
    (trace : List (checked ids name line (extra + 8)).Thread) :
    ∃ machine points char, (checked ids name line (extra + 8)).replay trace = some machine ∧
      Placed machine points ∧ (∀ index, idOf ids name index = [char index]) ∧
      (ids ≠ [] → Inv char machine.obj points) := by
  obtain ⟨machine, hreplay, hplaced⟩ :=
    Staged.replay_placed (staged ids name line extra) trace
  obtain ⟨char, hinjective, hchar⟩ := exists_chars hids hone (List.length_map name)
  obtain ⟨points, hpoints, hinv⟩ : Holds char _ := run_holds hinjective hchar trace
  refine ⟨machine, points, char, hreplay, ?_, hchar, ?_⟩
  · intro index
    rw [hplaced.gens, hpoints]
    rfl
  · rwa [hplaced.obj]

/-! ## The lock in every trace -/

/-- The generator of the thread stands at this checkpoint. -/
def At (machine : (checked ids name line (extra + 8)).Machine)
    (index : Fin (ids.map name).length) (point : Point) : Prop :=
  ∃ gen, machine.T index = some gen ∧
    gen.stack = control (line (idOf ids name index)) (idOf ids name index) point

/-- `localvar(state, t, 'cs')`, which `mark_both` counts. -/
def InCriticalSection (machine : (checked ids name line (extra + 8)).Machine)
    (index : Fin (ids.map name).length) : Prop :=
  ∃ gen, machine.T index = some gen ∧ gen.cs = some true

/-- The thread acquired the lock or was dequeued, and has not released it. -/
def Owner (machine : (checked ids name line (extra + 8)).Machine)
    (index : Fin (ids.map name).length) : Prop :=
  ∃ point, At machine index point ∧ Owns (idOf ids name index) machine.obj point

/-- The thread waits with its id in the queue. -/
def Waiting (machine : (checked ids name line (extra + 8)).Machine)
    (index : Fin (ids.map name).length) : Prop :=
  ∃ point, At machine index point ∧ Waits (idOf ids name index) machine.obj point

section Placed

variable {machine : (checked ids name line (extra + 8)).Machine}
  {points : Fin (ids.map name).length → Point} {index : Fin (ids.map name).length}

theorem Placed.at_iff (hplaced : Placed machine points) {point : Point} :
    At machine index point ↔ point = points index := by
  constructor
  · rintro ⟨gen, hgen, hstack⟩
    rw [hplaced index] at hgen
    cases hgen
    exact (control_injective _ _ hstack).symm
  · rintro rfl
    exact ⟨_, hplaced index, rfl⟩

theorem Placed.owner_iff (hplaced : Placed machine points) :
    Owner machine index ↔ Owns (idOf ids name index) machine.obj (points index) := by
  simp only [Owner, hplaced.at_iff, exists_eq_left]

theorem Placed.waiting_iff (hplaced : Placed machine points) :
    Waiting machine index ↔ Waits (idOf ids name index) machine.obj (points index) := by
  simp only [Waiting, hplaced.at_iff, exists_eq_left]

/-- Whoever is in the critical section owns the lock. -/
theorem Placed.owner_of_cs (hplaced : Placed machine points)
    (hcs : InCriticalSection machine index) : Owner machine index := by
  obtain ⟨gen, hgen, hset⟩ := hcs
  rw [hplaced index] at hgen
  cases hgen
  rw [hplaced.owner_iff]
  change csAt (points index) = some true at hset
  cases hpoint : points index <;> rw [hpoint] at hset <;> cases hset
  trivial

end Placed

/-- For threads with different ids of one character each: in every trace at most one
thread is in the critical section, the lock is set exactly when it has exactly one
owner, and some thread is not waiting. -/
theorem futex_excludes_without_deadlock (ids : List Str) (hids : ids.Nodup)
    (hone : ∀ id ∈ ids, id.length = 1) (hne : ids ≠ []) (name : Str → String)
    (line : Str → ℕ) (extra : ℕ)
    (trace : List (checked ids name line (extra + 8)).Thread) :
    ∃ machine, (checked ids name line (extra + 8)).replay trace = some machine ∧
      (∀ first second, InCriticalSection machine first →
        InCriticalSection machine second → first = second) ∧
      (∀ first second, Owner machine first → Owner machine second → first = second) ∧
      (machine.obj.locked = true ↔ ∃! index, Owner machine index) ∧
      ¬ ∀ index, Waiting machine index := by
  obtain ⟨machine, points, char, hreplay, hplaced, hchar, hinv⟩ :=
    replay_placed name line extra hids hone trace
  replace hinv := hinv hne
  have howner : ∀ index, Owner machine index ↔
      Owns [char index] machine.obj (points index) := by
    intro index
    rw [hplaced.owner_iff, hchar]
  have hunique : ∀ first second, Owner machine first → Owner machine second →
      first = second := by
    intro first second hfirst hsecond
    exact hinv.unique first second ((howner first).mp hfirst) ((howner second).mp hsecond)
  refine ⟨machine, hreplay, ?_, hunique, ?_, ?_⟩
  · intro first second hfirst hsecond
    exact hunique first second (hplaced.owner_of_cs hfirst) (hplaced.owner_of_cs hsecond)
  · rw [hinv.locked_iff]
    constructor
    · rintro ⟨index, howns⟩
      refine ⟨index, (howner index).mpr howns, ?_⟩
      intro other hother
      exact hunique other index hother ((howner index).mpr howns)
    · rintro ⟨index, hindex, -⟩
      exact ⟨index, (howner index).mp hindex⟩
  · intro hall
    obtain ⟨index, hwaits⟩ := hinv.exists_not_waits
    have hwaiting := hplaced.waiting_iff.mp (hall index)
    rw [hchar] at hwaiting
    exact hwaits hwaiting

/-- The three threads of the file. -/
abbrev shippedIds : List Str := [['1'], ['2'], ['3']]

abbrev shippedName (id : Str) : String := "t" ++ String.ofList id

/-- The lines where `astor` prints the bodies. -/
abbrev shippedLine (id : Str) : ℕ := if id = ['1'] then 18 else if id = ['2'] then 36 else 54

abbrev shipped : CheckedClass := checked shippedIds shippedName shippedLine (0 + 8)

def t1 : shipped.Thread := ⟨0, by decide⟩

def t2 : shipped.Thread := ⟨1, by decide⟩

def t3 : shipped.Thread := ⟨2, by decide⟩

/-- `t2` queues after `t1` has given the lock back, and `t3` is in the critical
section. -/
theorem futex_excludes_shipped :
    shippedIds.Nodup ∧ (∀ id ∈ shippedIds, id.length = 1) ∧ shippedIds ≠ [] ∧
    ∃ machine, shipped.replay [t1, t1, t2, t2, t1, t1, t1, t2, t3, t3, t3] =
        some machine ∧
      (InCriticalSection machine t3 ∧ Waiting machine t2) ∧
      (∀ first second, InCriticalSection machine first →
        InCriticalSection machine second → first = second) ∧
      (∀ first second, Owner machine first → Owner machine second → first = second) ∧
      (machine.obj.locked = true ↔ ∃! index, Owner machine index) ∧
      ¬ ∀ index, Waiting machine index := by
  obtain ⟨machine, hreplay, hexcludes⟩ := futex_excludes_without_deadlock
    shippedIds (by decide) (by decide) (by decide) shippedName shippedLine 0
    [t1, t1, t2, t2, t1, t1, t1, t2, t3, t3, t3]
  refine ⟨by decide, by decide, by decide, machine, hreplay, ?_, hexcludes⟩
  cases hreplay
  exact ⟨⟨_, rfl, rfl⟩, .spin, ⟨_, rfl, rfl⟩, List.infix_refl ['2']⟩

/-! ## An id inside another one -/

/-- The file with the ids `1` and `11`. -/
abbrev nested : CheckedClass := checked [['1'], ['1', '1']] shippedName shippedLine (0 + 8)

def n1 : nested.Thread := ⟨0, by decide⟩

def n11 : nested.Thread := ⟨1, by decide⟩

/-- `11` hands the lock to `1` and queues: `1` finds its own id in that of `11` and
goes on spinning, so that both threads wait on a lock that nobody owns. -/
theorem nested_ids_all_wait :
    [['1'], ['1', '1']].Nodup ∧
    ∃ machine, nested.replay [n11, n11, n1, n1, n1, n11, n11, n11, n11, n11] =
        some machine ∧
      (∀ index, Waiting machine index) ∧ machine.obj.locked = true := by
  refine ⟨by decide, _, rfl, ?_, rfl⟩
  intro index
  fin_cases index
  · exact ⟨.spin, ⟨_, rfl, rfl⟩, [], ['1'], rfl⟩
  · exact ⟨.spin, ⟨_, rfl, rfl⟩, List.infix_refl ['1', '1']⟩

/-! ## Waiters on a free lock -/

/-- Nobody waits for a lock that is not set. -/
def Guarded (futex : Futex) : Prop := futex.waits ≠ [] → futex.locked = true

/-- Only the append of a thread can leave a waiter behind on a free lock. -/
theorem Guarded.advance {id : Str} {futex : Futex} {point : Point}
    (hguarded : Guarded futex) (hqueue : point = .queue → futex.locked = true) :
    Guarded (Futex.advance id futex point).2 := by
  cases point with
  | acquire =>
      simp only [Futex.advance]
      split_ifs
      · exact hguarded
      · exact fun _ => rfl
  | queue => exact fun _ => hqueue rfl
  | release =>
      simp only [Futex.advance, release]
      split
      case h_1 hwaits => exact fun hne => absurd hwaits hne
      case h_2 head rest hwaits =>
        exact fun _ => hguarded (by rw [hwaits]; exact List.cons_ne_nil _ _)
  | start | spin | pass | enter | leave => exact hguarded

theorem at_iff_points {trace : List (checked ids name line (extra + 8)).Thread}
    {machine : (checked ids name line (extra + 8)).Machine}
    (hreplay : (checked ids name line (extra + 8)).replay trace = some machine)
    {index : Fin (ids.map name).length} {point : Point} :
    At machine index point ↔
      ((staged ids name line extra).run trace).points index = some point := by
  have hgen := (Staged.placed_of_replay (staged ids name line extra) hreplay).gens index
  constructor
  · rintro ⟨gen, hat, hstack⟩
    rw [hgen] at hat
    obtain ⟨found, hfound, rfl⟩ := Option.map_eq_some_iff.mp hat
    rw [hfound]
    exact congrArg some (control_injective _ _ hstack)
  · intro hpoint
    rw [hpoint] at hgen
    exact ⟨_, hgen, rfl⟩

/-- Along a trace whose appends all happen while the lock is set, nobody waits
for a free lock. -/
theorem run_guarded {trace : List (checked ids name line (extra + 8)).Thread}
    (happends : ∀ past thread, past ++ [thread] <+: trace →
      ((staged ids name line extra).run past).points thread = some Point.queue →
        ((staged ids name line extra).run past).obj.locked = true) :
    Guarded ((staged ids name line extra).run trace).obj := by
  induction trace using List.reverseRecOn with
  | nil => exact absurd rfl
  | append_singleton trace thread ih =>
      have hbefore : Guarded ((staged ids name line extra).run trace).obj := by
        apply ih
        intro past other hpast
        exact happends past other (hpast.trans (List.prefix_append _ _))
      rw [Staged.run_snoc]
      cases hpoint : ((staged ids name line extra).run trace).points thread with
      | none => rwa [Staged.State.step_of_end hpoint]
      | some point =>
          rw [Staged.State.step_of_point hpoint]
          apply hbefore.advance
          rintro rfl
          exact happends trace thread (List.prefix_refl _) hpoint

/-- Each append of the trace happens while the lock is set. -/
def AppendsLocked (ids : List Str) (name : Str → String) (line : Str → ℕ) (extra : ℕ)
    (trace : List (checked ids name line (extra + 8)).Thread) : Prop :=
  ∀ past thread, past ++ [thread] <+: trace →
    ∀ machine, (checked ids name line (extra + 8)).replay past = some machine →
      At machine thread .queue → machine.obj.locked = true

/-- Nobody waits for a free lock along a trace with such appends. -/
theorem AppendsLocked.guarded {trace past : List (checked ids name line (extra + 8)).Thread}
    (happends : AppendsLocked ids name line extra trace) (hpast : past <+: trace)
    {machine : (checked ids name line (extra + 8)).Machine}
    (hreplay : (checked ids name line (extra + 8)).replay past = some machine) :
    Guarded machine.obj := by
  rw [(Staged.placed_of_replay (staged ids name line extra) hreplay).obj]
  apply run_guarded
  intro before thread hbefore hpoint
  obtain ⟨found, hfound, hfoundPlaced⟩ :=
    Staged.replay_placed (staged ids name line extra) before
  rw [← hfoundPlaced.obj]
  exact happends before thread (hbefore.trans hpast) found hfound
    ((at_iff_points hfound).mpr hpoint)

/-- Whoever has appended its id waits with it. -/
theorem appendsLocked_of_waiters
    {trace : List (checked ids name line (extra + 8)).Thread}
    (hwaiters : ∀ past, past <+: trace →
      ∃ machine, (checked ids name line (extra + 8)).replay past = some machine ∧
        ∀ waiter, idOf ids name waiter <:+: machine.obj.waits →
          machine.obj.locked = true) :
    AppendsLocked ids name line extra trace := by
  intro past thread hpast machine hreplay hat
  obtain ⟨after, hafter, hlocked⟩ := hwaiters (past ++ [thread]) hpast
  have hplaced := Staged.placed_of_replay (staged ids name line extra) hreplay
  have hobj := (Staged.placed_of_replay (staged ids name line extra) hafter).obj
  rw [Staged.run_snoc, Staged.State.step_of_point ((at_iff_points hreplay).mp hat),
    ← hplaced.obj] at hobj
  change after.obj = machine.obj.enqueue (idOf ids name thread) at hobj
  rw [hobj] at hlocked
  exact hlocked thread (List.suffix_append _ _).isInfix

/-- Every state along a trace keeps its waiters on a lock that is set, exactly when
each append in it happens while the lock is set.  With ids of one character each the
lock then has an owner. -/
theorem waiters_find_owner_iff (ids : List Str) (hids : ids.Nodup)
    (hnonempty : ∀ id ∈ ids, id ≠ []) (name : Str → String) (line : Str → ℕ)
    (extra : ℕ) (trace : List (checked ids name line (extra + 8)).Thread) :
    ((∀ past, past <+: trace →
      ∃ machine, (checked ids name line (extra + 8)).replay past = some machine ∧
        ∀ waiter, idOf ids name waiter <:+: machine.obj.waits →
          machine.obj.locked = true) ↔
      AppendsLocked ids name line extra trace) ∧
    ((∀ id ∈ ids, id.length = 1) →
      ((∀ past, past <+: trace →
        ∃ machine, (checked ids name line (extra + 8)).replay past = some machine ∧
          ∀ waiter, idOf ids name waiter <:+: machine.obj.waits →
            machine.obj.locked = true ∧ ∃ owner, Owner machine owner) ↔
        AppendsLocked ids name line extra trace)) := by
  have hwaits : ∀ waiter {waits : Str}, idOf ids name waiter <:+: waits → waits ≠ [] := by
    rintro waiter _ hinfix rfl
    exact hnonempty _ (List.get_mem ids _) (List.infix_nil.mp hinfix)
  refine ⟨⟨appendsLocked_of_waiters, ?_⟩, fun hone => ⟨?_, ?_⟩⟩
  · intro happends past hpast
    obtain ⟨machine, hreplay, -⟩ := Staged.replay_placed (staged ids name line extra) past
    exact ⟨machine, hreplay, fun waiter hwaiter =>
      happends.guarded hpast hreplay (hwaits waiter hwaiter)⟩
  · intro hwaiters
    apply appendsLocked_of_waiters
    intro past hpast
    obtain ⟨machine, hreplay, hlocked⟩ := hwaiters past hpast
    exact ⟨machine, hreplay, fun waiter hwaiter => (hlocked waiter hwaiter).1⟩
  · intro happends past hpast
    obtain ⟨machine, points, char, hreplay, hplaced, hchar, hinv⟩ :=
      replay_placed name line extra hids hone past
    refine ⟨machine, hreplay, ?_⟩
    intro waiter hwaiter
    have hlocked := happends.guarded hpast hreplay (hwaits waiter hwaiter)
    have hne : ids ≠ [] := by
      rintro rfl
      exact waiter.elim0
    obtain ⟨owner, howns⟩ := (hinv hne).locked_iff.mp hlocked
    rw [← hchar] at howns
    exact ⟨hlocked, owner, hplaced.owner_iff.mpr howns⟩

/-- The three threads of the file, with `t2` queueing while `t1` is in the critical
section. -/
theorem waiters_find_owner_shipped :
    shippedIds.Nodup ∧ (∀ id ∈ shippedIds, id ≠ []) ∧
    (∀ id ∈ shippedIds, id.length = 1) ∧
    ((∀ past, past <+: [t1, t1, t1, t2, t2, t2] →
      ∃ machine, shipped.replay past = some machine ∧
        ∀ waiter, idOf shippedIds shippedName waiter <:+: machine.obj.waits →
          machine.obj.locked = true ∧ ∃ owner, Owner machine owner) ↔
      AppendsLocked shippedIds shippedName shippedLine 0 [t1, t1, t1, t2, t2, t2]) := by
  obtain ⟨-, howners⟩ := waiters_find_owner_iff shippedIds (by decide) (by decide)
    shippedName shippedLine 0 [t1, t1, t1, t2, t2, t2]
  exact ⟨by decide, by decide, by decide, howners (by decide)⟩

/-- `t1` releases the lock between the failed attempt of `t2` and its append: the
lock is free and `t2` waits. -/
theorem shipped_waits_on_free_lock :
    ∃ machine, shipped.replay [t1, t1, t2, t2, t1, t1, t1, t2] = some machine ∧
      idOf shippedIds shippedName t2 <:+: machine.obj.waits ∧
      machine.obj.locked = false :=
  ⟨_, rfl, List.infix_refl ['2'], rfl⟩

end Traces

end Futex

end JyyOS.ModelChecker
