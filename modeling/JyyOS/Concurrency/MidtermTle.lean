import JyyOS.Concurrency.Midterm

/-!
# One thread for each integer, in a pool of slots (`midterm-tle.c`)

`main` reads an integer, waits for a free slot of `tpool`, writes the integer
into it and starts a worker on the slot; the worker frees the slot itself when
it has added its result.  Every access to a shared variable is a step of its
own, and `pthread_create` is taken to succeed.
-/

namespace JyyOS.MidtermTle

open JyyOS.Transition JyyOS.Midterm

variable {n : ℕ} {CInt CLong : Type*}

inductive Status where
  | free
  | live
  | dead
deriving DecidableEq

/-- `struct thread`.  A thread is named by the number of workers started before
it, and `none` is the zero that a compound literal leaves in `thread`. -/
structure Slot (CInt : Type*) where
  arg : CInt
  status : Status
  thread : Option ℕ

inductive Party where
  | main
  | worker (w : ℕ)

/-- Program points of `wrapper`.  At `storeSum` the sum has been read for
`sum += res`. -/
inductive WorkerPc (CInt CLong : Type*) where
  | readArg
  | callF (x : CInt)
  | lockSum (res : CLong)
  | loadSum (res : CLong)
  | storeSum (res loaded : CLong)
  | unlockSum
  | lockPool
  | markFree
  | broadcast
  | unlockPool
  | returned

/-- A worker.  No step reads `job`, what main had written into the slot when it
started the worker, or `passed`, what the worker has called `f` with. -/
structure Worker (n : ℕ) (CInt CLong : Type*) where
  slot : Fin n
  pc : WorkerPc CInt CLong
  job : CInt
  passed : List CInt

/-- Program points of `main`, with those of `create`, `free_index` and `join`
in it.  The index `none` is `-1`; `aborted` is a failed assertion, and `fault`
is a join of no thread. -/
inductive MainPc (n : ℕ) (CInt : Type*) where
  | feof
  | scanf
  | lockPool (x : CInt)
  | freeIndex (x : CInt) (i : ℕ)
  | whileTest (x : CInt) (index : Option (Fin n))
  | condWait (x : CInt)
  | asleep (x : CInt)
  | woken (x : CInt)
  | asserts (x : CInt) (index : Option (Fin n))
  | fill (x : CInt) (i : Fin n)
  | unlockPool (x : CInt) (i : Fin n)
  | pthreadCreate (x : CInt) (i : Fin n)
  | storeThread (i : Fin n) (w : ℕ)
  | joinTest (i : ℕ)
  | pthreadJoin (i : Fin n)
  | markDead (i : Fin n)
  | printf
  | exited
  | aborted
  | fault

def MainPc.wake : MainPc n CInt → MainPc n CInt
  | .asleep x => .woken x
  | pc => pc

structure State (n : ℕ) (CInt CLong : Type*) where
  stdin : Stdin CInt
  tpool : Fin n → Slot CInt
  tpoolLk : Option Party
  sumLk : Option ℕ
  sum : CLong
  mainPc : MainPc n CInt
  workers : List (Worker n CInt CLong)

inductive Label where
  | main
  | spurious
  | worker (w : ℕ)

def State.setStatus (state : State n CInt CLong) (i : Fin n) (status : Status) :
    State n CInt CLong :=
  { state with tpool := Function.update state.tpool i { state.tpool i with status := status } }

def State.setMain (state : State n CInt CLong) (pc : MainPc n CInt) : State n CInt CLong :=
  { state with mainPc := pc }

def State.setWorker (state : State n CInt CLong) (w : ℕ) (worker : Worker n CInt CLong) :
    State n CInt CLong :=
  { state with workers := state.workers.set w worker }

/-- One step of `main`, `none` when it is blocked or has ended. -/
def mainStep (state : State n CInt CLong) : Option (State n CInt CLong) :=
  match state.mainPc with
  | .feof => some (state.setMain (if state.stdin.feof then .joinTest 0 else .scanf))
  | .scanf =>
      some { state with
        stdin := state.stdin.scanf.2
        mainPc := state.stdin.scanf.1.elim (.joinTest 0) .lockPool }
  | .lockPool x | .woken x =>
      match state.tpoolLk with
      | none => some { state with tpoolLk := some .main, mainPc := .freeIndex x 0 }
      | some _ => none
  | .freeIndex x i =>
      if hi : i < n then
        some (state.setMain (if (state.tpool ⟨i, hi⟩).status = .free then
          .whileTest x (some ⟨i, hi⟩) else .freeIndex x (i + 1)))
      else some (state.setMain (.whileTest x none))
  | .whileTest x index =>
      some (state.setMain (if index = none then .condWait x else .asserts x index))
  | .condWait x => some { state with tpoolLk := none, mainPc := .asleep x }
  | .asserts x index =>
      match index with
      | none => some (state.setMain .aborted)
      | some i => some (state.setMain
          (if (state.tpool i).status = .free then .fill x i else .aborted))
  | .fill x i =>
      some { state with
        tpool := Function.update state.tpool i ⟨x, .live, none⟩
        mainPc := .unlockPool x i }
  | .unlockPool x i => some { state with tpoolLk := none, mainPc := .pthreadCreate x i }
  | .pthreadCreate _ i =>
      some { state with
        workers := state.workers ++ [⟨i, .readArg, (state.tpool i).arg, []⟩]
        mainPc := .storeThread i state.workers.length }
  | .storeThread i w =>
      some { state with
        tpool := Function.update state.tpool i { state.tpool i with thread := some w }
        mainPc := .feof }
  | .joinTest i =>
      if hi : i < n then
        some (state.setMain (if (state.tpool ⟨i, hi⟩).status = .live then
          .pthreadJoin ⟨i, hi⟩ else .joinTest (i + 1)))
      else some (state.setMain .printf)
  | .pthreadJoin i =>
      match (state.tpool i).thread with
      | none => some (state.setMain .fault)
      | some w =>
          match state.workers[w]?.map Worker.pc with
          | some .returned => some (state.setMain (.markDead i))
          | _ => none
  | .markDead i => some ((state.setStatus i .dead).setMain (.joinTest (i + 1)))
  | .printf => some (state.setMain .exited)
  | .asleep _ | .exited | .aborted | .fault => none

/-- One step of the worker `w`. -/
def workerStep [Add CLong] (f : CInt → CLong) (state : State n CInt CLong) (w : ℕ)
    (worker : Worker n CInt CLong) : Option (State n CInt CLong) :=
  let goto pc := state.setWorker w { worker with pc := pc }
  match worker.pc with
  | .readArg => some (goto (.callF (state.tpool worker.slot).arg))
  | .callF x =>
      some (state.setWorker w
        { worker with pc := .lockSum (f x), passed := worker.passed ++ [x] })
  | .lockSum res =>
      match state.sumLk with
      | none => some { goto (.loadSum res) with sumLk := some w }
      | some _ => none
  | .loadSum res => some (goto (.storeSum res state.sum))
  | .storeSum res loaded => some { goto .unlockSum with sum := loaded + res }
  | .unlockSum => some { goto .lockPool with sumLk := none }
  | .lockPool =>
      match state.tpoolLk with
      | none => some { goto .markFree with tpoolLk := some (.worker w) }
      | some _ => none
  | .markFree => some ((goto .broadcast).setStatus worker.slot .free)
  | .broadcast => some ((goto .unlockPool).setMain state.mainPc.wake)
  | .unlockPool => some { goto .returned with tpoolLk := none }
  | .returned => none

def step [Add CLong] (f : CInt → CLong) (state : State n CInt CLong) :
    Label → Option (State n CInt CLong)
  | .main => mainStep state
  | .spurious =>
      match state.mainPc with
      | .asleep x => some (state.setMain (.woken x))
      | _ => none
  | .worker w => state.workers[w]?.bind (workerStep f state w)

/-- The static variables are zero. -/
def start (n : ℕ) [Zero CInt] [Zero CLong] (input : List CInt) (trailing : Bool) :
    State n CInt CLong where
  stdin := Stdin.start input trailing
  tpool _ := ⟨0, .free, none⟩
  tpoolLk := none
  sumLk := none
  sum := 0
  mainPc := .feof
  workers := []

def system (n : ℕ) [Zero CInt] [AddCommMonoid CLong] (f : CInt → CLong)
    (input : List CInt) (trailing : Bool) : System (State n CInt CLong) Label :=
  System.ofPartial (fun state => state = start n input trailing) (step f)

/-! ## Lists of workers -/

section Workers

variable {workers : List (Worker n CInt CLong)} {w other : ℕ}
variable {worker next found : Worker n CInt CLong}

theorem of_set (hfound : (workers.set w next)[other]? = some found) :
    (other = w ∧ found = next) ∨ workers[other]? = some found := by
  by_cases hother : w = other
  · subst hother
    rw [List.getElem?_set_self (by simpa using (List.getElem?_eq_some_iff.mp hfound).1)] at hfound
    exact .inl ⟨rfl, (Option.some.inj hfound).symm⟩
  · rw [List.getElem?_set_ne hother] at hfound
    exact .inr hfound

theorem of_snoc (hfound : (workers ++ [next])[other]? = some found) :
    workers[other]? = some found ∨ (other = workers.length ∧ found = next) := by
  rw [List.getElem?_append] at hfound
  split at hfound
  · exact .inl hfound
  · rw [List.getElem?_singleton] at hfound
    split at hfound
    · exact .inr ⟨by omega, (Option.some.inj hfound).symm⟩
    · cases hfound

end Workers

/-! ## The slots -/

/-- `wrapper` has not yet executed `thread->status = T_FREE`. -/
def WorkerPc.unmarked : WorkerPc CInt CLong → Bool
  | .broadcast | .unlockPool | .returned => false
  | _ => true

/-- What a step of a worker can do to what the others see of it. -/
structure Shape (before after : State n CInt CLong) (w : ℕ) (worker next : Worker n CInt CLong) :
    Prop where
  workers : after.workers = before.workers.set w next
  slot : next.slot = worker.slot
  job : next.job = worker.job
  unmarked : next.pc.unmarked = true → worker.pc.unmarked = true
  stdin : after.stdin = before.stdin
  mainPc : after.mainPc = before.mainPc ∨ after.mainPc = before.mainPc.wake
  arg : ∀ i, (after.tpool i).arg = (before.tpool i).arg
  thread : ∀ i, (after.tpool i).thread = (before.tpool i).thread
  status : ∀ i, (after.tpool i).status = (before.tpool i).status ∨
    i = worker.slot ∧ (after.tpool i).status = .free ∧ worker.pc.unmarked = true ∧
      next.pc.unmarked = false

section Steps

variable [Add CLong] {f : CInt → CLong} {before after : State n CInt CLong} {w : ℕ}
variable {worker next : Worker n CInt CLong}

/-- What a step of a worker can do, and what the worker is after it. -/
inductive WorkerEffect (f : CInt → CLong) (before : State n CInt CLong) (w : ℕ)
    (worker : Worker n CInt CLong) : Worker n CInt CLong → State n CInt CLong → Prop
  | readArg : worker.pc = .readArg →
      WorkerEffect f before w worker { worker with pc := .callF (before.tpool worker.slot).arg }
        (before.setWorker w { worker with pc := .callF (before.tpool worker.slot).arg })
  | callF {x : CInt} : worker.pc = .callF x →
      WorkerEffect f before w worker
        { worker with pc := .lockSum (f x), passed := worker.passed ++ [x] }
        (before.setWorker w
          { worker with pc := .lockSum (f x), passed := worker.passed ++ [x] })
  | lockSum {res : CLong} : worker.pc = .lockSum res → before.sumLk = none →
      WorkerEffect f before w worker { worker with pc := .loadSum res }
        { before.setWorker w { worker with pc := .loadSum res } with sumLk := some w }
  | loadSum {res : CLong} : worker.pc = .loadSum res →
      WorkerEffect f before w worker { worker with pc := .storeSum res before.sum }
        (before.setWorker w { worker with pc := .storeSum res before.sum })
  | storeSum {res loaded : CLong} : worker.pc = .storeSum res loaded →
      WorkerEffect f before w worker { worker with pc := .unlockSum }
        { before.setWorker w { worker with pc := .unlockSum } with sum := loaded + res }
  | unlockSum : worker.pc = .unlockSum →
      WorkerEffect f before w worker { worker with pc := .lockPool }
        { before.setWorker w { worker with pc := .lockPool } with sumLk := none }
  | lockPool : worker.pc = .lockPool → before.tpoolLk = none →
      WorkerEffect f before w worker { worker with pc := .markFree }
        { before.setWorker w { worker with pc := .markFree } with tpoolLk := some (.worker w) }
  | markFree : worker.pc = .markFree →
      WorkerEffect f before w worker { worker with pc := .broadcast }
        ((before.setWorker w { worker with pc := .broadcast }).setStatus worker.slot .free)
  | broadcast : worker.pc = .broadcast →
      WorkerEffect f before w worker { worker with pc := .unlockPool }
        ((before.setWorker w { worker with pc := .unlockPool }).setMain before.mainPc.wake)
  | unlockPool : worker.pc = .unlockPool →
      WorkerEffect f before w worker { worker with pc := .returned }
        { before.setWorker w { worker with pc := .returned } with tpoolLk := none }

theorem workerStep_cases (hstep : workerStep f before w worker = some after) :
    ∃ next, WorkerEffect f before w worker next after := by
  cases hpc : worker.pc with
  | readArg =>
      simp only [workerStep, hpc, Option.some.injEq] at hstep
      subst hstep
      exact ⟨_, .readArg hpc⟩
  | callF x =>
      simp only [workerStep, hpc, Option.some.injEq] at hstep
      subst hstep
      exact ⟨_, .callF hpc⟩
  | lockSum res =>
      simp only [workerStep, hpc] at hstep
      split at hstep
      · cases hstep
        exact ⟨_, .lockSum hpc ‹_›⟩
      · cases hstep
  | loadSum res =>
      simp only [workerStep, hpc, Option.some.injEq] at hstep
      subst hstep
      exact ⟨_, .loadSum hpc⟩
  | storeSum res loaded =>
      simp only [workerStep, hpc, Option.some.injEq] at hstep
      subst hstep
      exact ⟨_, .storeSum hpc⟩
  | unlockSum =>
      simp only [workerStep, hpc, Option.some.injEq] at hstep
      subst hstep
      exact ⟨_, .unlockSum hpc⟩
  | lockPool =>
      simp only [workerStep, hpc] at hstep
      split at hstep
      · cases hstep
        exact ⟨_, .lockPool hpc ‹_›⟩
      · cases hstep
  | markFree =>
      simp only [workerStep, hpc, Option.some.injEq] at hstep
      subst hstep
      exact ⟨_, .markFree hpc⟩
  | broadcast =>
      simp only [workerStep, hpc, Option.some.injEq] at hstep
      subst hstep
      exact ⟨_, .broadcast hpc⟩
  | unlockPool =>
      simp only [workerStep, hpc, Option.some.injEq] at hstep
      subst hstep
      exact ⟨_, .unlockPool hpc⟩
  | returned => simp [workerStep, hpc] at hstep

theorem WorkerEffect.shape (heffect : WorkerEffect f before w worker next after) :
    Shape before after w worker next := by
  cases heffect with
  | readArg hpc | callF hpc | lockSum hpc | loadSum hpc | storeSum hpc | unlockSum hpc
  | lockPool hpc | unlockPool hpc =>
      exact ⟨rfl, rfl, rfl, by simp [hpc, WorkerPc.unmarked], rfl, .inl rfl, fun _ => rfl,
        fun _ => rfl, fun _ => .inl rfl⟩
  | broadcast hpc =>
      exact ⟨rfl, rfl, rfl, by simp [WorkerPc.unmarked], rfl, .inr rfl, fun _ => rfl,
        fun _ => rfl, fun _ => .inl rfl⟩
  | markFree hpc =>
      refine ⟨rfl, rfl, rfl, by simp [hpc, WorkerPc.unmarked], rfl, .inl rfl, ?_, ?_, ?_⟩
      all_goals
        intro i
        by_cases hi : i = worker.slot <;>
          simp [State.setStatus, State.setWorker, hi, hpc, WorkerPc.unmarked]

end Steps

/-- Moves of `main` that change nothing but its program point and the mutex. -/
inductive Move (state : State n CInt CLong) : MainPc n CInt → MainPc n CInt → Prop
  | more : Move state .feof .scanf
  | eof : state.stdin.feof = true → Move state .feof (.joinTest 0)
  | lock (x) : Move state (.lockPool x) (.freeIndex x 0)
  | relock (x) : Move state (.woken x) (.freeIndex x 0)
  | found (x) {i : Fin n} : (state.tpool i).status = .free →
      Move state (.freeIndex x i) (.whileTest x (some i))
  | next (x i) : Move state (.freeIndex x i) (.freeIndex x (i + 1))
  | full (x i) : Move state (.freeIndex x i) (.whileTest x none)
  | loop (x) : Move state (.whileTest x none) (.condWait x)
  | leave (x i) : Move state (.whileTest x (some i)) (.asserts x (some i))
  | wait (x) : Move state (.condWait x) (.asleep x)
  | wake (x) : Move state (.asleep x) (.woken x)
  | noIndex (x) : Move state (.asserts x none) .aborted
  | free (x) {i : Fin n} : (state.tpool i).status = .free →
      Move state (.asserts x (some i)) (.fill x i)
  | notFree (x) {i : Fin n} : (state.tpool i).status ≠ .free →
      Move state (.asserts x (some i)) .aborted
  | unlock (x i) : Move state (.unlockPool x i) (.pthreadCreate x i)
  | live {i : Fin n} : (state.tpool i).status = .live →
      Move state (.joinTest i) (.pthreadJoin i)
  | notLive {i : Fin n} : (state.tpool i).status ≠ .live →
      Move state (.joinTest i) (.joinTest (i + 1))
  | last {i : ℕ} : n ≤ i → Move state (.joinTest i) .printf
  | joinNone {i : Fin n} : (state.tpool i).thread = none → Move state (.pthreadJoin i) .fault
  | join {i : Fin n} {w : ℕ} : (state.tpool i).thread = some w →
      state.workers[w]?.map Worker.pc = some .returned → Move state (.pthreadJoin i) (.markDead i)
  | exit : Move state .printf .exited

/-- What a step of `main` can do. -/
inductive MainEffect (before : State n CInt CLong) : State n CInt CLong → Prop
  | move {pc : MainPc n CInt} (lk : Option Party) : Move before before.mainPc pc →
      MainEffect before { before with tpoolLk := lk, mainPc := pc }
  | scanf : before.mainPc = .scanf →
      MainEffect before
        { before with
          stdin := before.stdin.scanf.2
          mainPc := before.stdin.scanf.1.elim (.joinTest 0) .lockPool }
  | fill {x : CInt} {i : Fin n} : before.mainPc = .fill x i →
      MainEffect before
        { before with
          tpool := Function.update before.tpool i ⟨x, .live, none⟩
          mainPc := .unlockPool x i }
  | create {x : CInt} {i : Fin n} : before.mainPc = .pthreadCreate x i →
      MainEffect before
        { before with
          workers := before.workers ++ [⟨i, .readArg, (before.tpool i).arg, []⟩]
          mainPc := .storeThread i before.workers.length }
  | store {i : Fin n} {w : ℕ} : before.mainPc = .storeThread i w →
      MainEffect before
        { before with
          tpool := Function.update before.tpool i { before.tpool i with thread := some w }
          mainPc := .feof }
  | markDead {i : Fin n} : before.mainPc = .markDead i →
      MainEffect before ((before.setStatus i .dead).setMain (.joinTest (i + 1)))

theorem MainEffect.goto {before : State n CInt CLong} {pc old : MainPc n CInt}
    (hpc : before.mainPc = old) (hmove : Move before old pc) :
    MainEffect before (before.setMain pc) :=
  .move before.tpoolLk (hpc ▸ hmove)

theorem mainStep_cases {before after : State n CInt CLong}
    (hstep : mainStep before = some after) : MainEffect before after := by
  cases hpc : before.mainPc with
  | feof =>
      simp only [mainStep, hpc, Option.some.injEq] at hstep
      subst hstep
      split
      · exact .goto hpc (.eof ‹_›)
      · exact .goto hpc .more
  | scanf =>
      simp only [mainStep, hpc, Option.some.injEq] at hstep
      exact hstep ▸ .scanf hpc
  | lockPool x =>
      simp only [mainStep, hpc] at hstep
      split at hstep
      · cases hstep
        exact .move _ (hpc ▸ .lock x)
      · cases hstep
  | woken x =>
      simp only [mainStep, hpc] at hstep
      split at hstep
      · cases hstep
        exact .move _ (hpc ▸ .relock x)
      · cases hstep
  | freeIndex x i =>
      simp only [mainStep, hpc] at hstep
      split at hstep
      · cases hstep
        split
        · exact .goto hpc (.found x ‹_›)
        · exact .goto hpc (.next x i)
      · cases hstep
        exact .goto hpc (.full x i)
  | whileTest x index =>
      simp only [mainStep, hpc, Option.some.injEq] at hstep
      subst hstep
      cases index with
      | none => exact .goto hpc (.loop x)
      | some i => exact .goto hpc (.leave x i)
  | condWait x =>
      simp only [mainStep, hpc, Option.some.injEq] at hstep
      exact hstep ▸ .move _ (hpc ▸ .wait x)
  | asserts x index =>
      cases index with
      | none =>
          simp only [mainStep, hpc, Option.some.injEq] at hstep
          exact hstep ▸ .goto hpc (.noIndex x)
      | some i =>
          simp only [mainStep, hpc, Option.some.injEq] at hstep
          subst hstep
          split
          · exact .goto hpc (.free x ‹_›)
          · exact .goto hpc (.notFree x ‹_›)
  | fill x i =>
      simp only [mainStep, hpc, Option.some.injEq] at hstep
      exact hstep ▸ .fill hpc
  | unlockPool x i =>
      simp only [mainStep, hpc, Option.some.injEq] at hstep
      exact hstep ▸ .move _ (hpc ▸ .unlock x i)
  | pthreadCreate x i =>
      simp only [mainStep, hpc, Option.some.injEq] at hstep
      exact hstep ▸ .create hpc
  | storeThread i w =>
      simp only [mainStep, hpc, Option.some.injEq] at hstep
      exact hstep ▸ .store hpc
  | joinTest i =>
      simp only [mainStep, hpc] at hstep
      split at hstep
      · cases hstep
        split
        · exact .goto hpc (.live ‹_›)
        · exact .goto hpc (.notLive ‹_›)
      · cases hstep
        exact .goto hpc (.last (by omega))
  | pthreadJoin i =>
      simp only [mainStep, hpc] at hstep
      split at hstep
      · cases hstep
        exact .goto hpc (.joinNone ‹_›)
      · split at hstep
        · cases hstep
          exact .goto hpc (.join ‹_› ‹_›)
        · cases hstep
  | markDead i =>
      simp only [mainStep, hpc, Option.some.injEq] at hstep
      exact hstep ▸ .markDead hpc
  | printf =>
      simp only [mainStep, hpc, Option.some.injEq] at hstep
      exact hstep ▸ .goto hpc .exit
  | asleep | exited | aborted | fault => simp [mainStep, hpc] at hstep

/-- The worker has not yet marked its slot free. -/
def Active (state : State n CInt CLong) (w : ℕ) (worker : Worker n CInt CLong) : Prop :=
  state.workers[w]? = some worker ∧ worker.pc.unmarked = true

def Occupied (state : State n CInt CLong) (i : Fin n) : Prop :=
  ∃ w worker, Active state w worker ∧ worker.slot = i

/-- The slot that `create` has written and for which it has no thread yet. -/
def MainPc.filling : MainPc n CInt → Option (Fin n)
  | .unlockPool _ i | .pthreadCreate _ i | .storeThread i _ => some i
  | _ => none

/-- What `main` knows of the slots at a program point. -/
def MainSlots (state : State n CInt CLong) : MainPc n CInt → Prop
  | .whileTest _ (some i) | .asserts _ (some i) | .fill _ i => (state.tpool i).status = .free
  | .asserts _ none | .aborted | .fault => False
  | .unlockPool _ i | .pthreadCreate _ i =>
      (state.tpool i).status = .live ∧ (state.tpool i).thread = none ∧ ¬Occupied state i
  | .storeThread i _ => (state.tpool i).thread = none
  | .joinTest i => ∀ j : Fin n, j < i → ¬Occupied state j
  | .pthreadJoin i => (∀ j < i, ¬Occupied state j) ∧ (state.tpool i).thread ≠ none
  | .markDead i => ∀ j ≤ i, ¬Occupied state j
  | .printf | .exited => ∀ j, ¬Occupied state j
  | _ => True

structure Slots (state : State n CInt CLong) : Prop where
  live : ∀ w worker, Active state w worker → (state.tpool worker.slot).status = .live
  apart : ∀ w other worker found, Active state w worker → Active state other found →
    worker.slot = found.slot → w = other
  thread : ∀ w worker, Active state w worker →
    state.mainPc = .storeThread worker.slot w ∨ (state.tpool worker.slot).thread = some w
  named : ∀ i, (state.tpool i).status = .live →
    (state.tpool i).thread ≠ none ∨ state.mainPc.filling = some i
  main : MainSlots state state.mainPc

namespace Slots

variable {before after : State n CInt CLong}

theorem not_occupied (hslots : Slots before) {i : Fin n}
    (hstatus : (before.tpool i).status ≠ .live) : ¬Occupied before i := by
  rintro ⟨w, worker, hactive, rfl⟩
  exact hstatus (hslots.live w worker hactive)

section Worker

variable {w : ℕ} {worker next : Worker n CInt CLong}

theorem active_of_shape (hworker : before.workers[w]? = some worker)
    (hshape : Shape before after w worker next) {other : ℕ} {found : Worker n CInt CLong}
    (hactive : Active after other found) :
    ∃ old, Active before other old ∧ old.slot = found.slot := by
  obtain ⟨hfound, hunmarked⟩ := hactive
  rw [hshape.workers] at hfound
  rcases of_set hfound with ⟨rfl, rfl⟩ | hfound
  · exact ⟨worker, ⟨hworker, hshape.unmarked hunmarked⟩, hshape.slot.symm⟩
  · exact ⟨found, ⟨hfound, hunmarked⟩, rfl⟩

theorem occupied_of_shape (hworker : before.workers[w]? = some worker)
    (hshape : Shape before after w worker next) {i : Fin n} (hoccupied : Occupied after i) :
    Occupied before i := by
  obtain ⟨other, found, hactive, rfl⟩ := hoccupied
  obtain ⟨old, hold, hslot⟩ := active_of_shape hworker hshape hactive
  exact ⟨other, old, hold, hslot⟩

theorem free_of_shape (hshape : Shape before after w worker next) {i : Fin n}
    (hfree : (before.tpool i).status = .free) : (after.tpool i).status = .free := by
  rcases hshape.status i with hsame | ⟨-, hfree, -⟩
  · rw [hsame, hfree]
  · exact hfree

theorem mainSlots_of_shape (hworker : before.workers[w]? = some worker)
    (hshape : Shape before after w worker next) (hmain : MainSlots before before.mainPc) :
    MainSlots after before.mainPc := by
  have hoccupied : ∀ i, ¬Occupied before i → ¬Occupied after i :=
    fun i => mt (occupied_of_shape hworker hshape)
  cases hpc : before.mainPc with
  | whileTest x index | asserts x index =>
      rw [hpc] at hmain
      cases index with
      | none => exact hmain
      | some i => exact free_of_shape hshape hmain
  | fill x i =>
      rw [hpc] at hmain
      exact free_of_shape hshape hmain
  | unlockPool x i | pthreadCreate x i =>
      rw [hpc] at hmain
      obtain ⟨hlive, hthread, hvacant⟩ := hmain
      refine ⟨?_, by rw [hshape.thread, hthread], hoccupied i hvacant⟩
      rcases hshape.status i with hsame | ⟨rfl, -, hunmarked, -⟩
      · rw [hsame, hlive]
      · exact absurd ⟨w, worker, ⟨hworker, hunmarked⟩, rfl⟩ hvacant
  | storeThread i other =>
      rw [hpc] at hmain
      exact (hshape.thread i).trans hmain
  | joinTest i =>
      rw [hpc] at hmain
      exact fun j hj => hoccupied j (hmain j hj)
  | pthreadJoin i =>
      rw [hpc] at hmain
      exact ⟨fun j hj => hoccupied j (hmain.1 j hj), by rw [hshape.thread]; exact hmain.2⟩
  | markDead i =>
      rw [hpc] at hmain
      exact fun j hj => hoccupied j (hmain j hj)
  | printf | exited =>
      rw [hpc] at hmain
      exact fun j => hoccupied j (hmain j)
  | aborted | fault =>
      rw [hpc] at hmain
      exact hmain
  | feof | scanf | lockPool | freeIndex | condWait | asleep | woken => trivial

theorem mainSlots_wake {state : State n CInt CLong} {pc : MainPc n CInt}
    (hmain : MainSlots state pc) : MainSlots state pc.wake := by
  cases pc <;> exact hmain

theorem wake_filling (pc : MainPc n CInt) : pc.wake.filling = pc.filling := by
  cases pc <;> rfl

theorem wake_storeThread {pc : MainPc n CInt} {i : Fin n} {w : ℕ}
    (hpc : pc = .storeThread i w) : pc.wake = .storeThread i w := by
  rw [hpc]
  rfl

/-- A worker can free its own slot only, and while it has not, no other worker
is on that slot. -/
theorem of_shape (hslots : Slots before) (hworker : before.workers[w]? = some worker)
    (hshape : Shape before after w worker next) : Slots after := by
  refine ⟨?_, ?_, ?_, ?_, ?_⟩
  · intro other found hactive
    obtain ⟨old, hold, hslot⟩ := active_of_shape hworker hshape hactive
    rcases hshape.status found.slot with hsame | ⟨hown, -, hmarking, hmarked⟩
    · rw [hsame, ← hslot, hslots.live other old hold]
    · obtain rfl := hslots.apart w other worker old ⟨hworker, hmarking⟩ hold
        (hown.symm.trans hslot.symm)
      obtain ⟨hfound, hunmarked⟩ := hactive
      rw [hshape.workers, List.getElem?_set_self (List.getElem?_eq_some_iff.mp hworker).1]
        at hfound
      cases hfound
      rw [hmarked] at hunmarked
      cases hunmarked
  · intro first second found found' hactive hactive' hsame
    obtain ⟨old, hold, hslot⟩ := active_of_shape hworker hshape hactive
    obtain ⟨old', hold', hslot'⟩ := active_of_shape hworker hshape hactive'
    exact hslots.apart first second old old' hold hold'
      (hslot.trans (hsame.trans hslot'.symm))
  · intro other found hactive
    obtain ⟨old, hold, hslot⟩ := active_of_shape hworker hshape hactive
    rw [hshape.thread, ← hslot]
    refine (hslots.thread other old hold).imp (fun hmain => ?_) id
    rcases hshape.mainPc with hpc | hpc
    · exact hpc.trans hmain
    · exact hpc.trans (wake_storeThread hmain)
  · intro i hlive
    have hbefore : (before.tpool i).status = .live := by
      rcases hshape.status i with hsame | ⟨-, hfree, -⟩
      · exact hsame ▸ hlive
      · rw [hfree] at hlive
        cases hlive
    rw [hshape.thread]
    refine (hslots.named i hbefore).imp id fun hfilling => ?_
    rcases hshape.mainPc with hpc | hpc
    · rw [hpc, hfilling]
    · rw [hpc, wake_filling, hfilling]
  · have hmain := mainSlots_of_shape hworker hshape hslots.main
    rcases hshape.mainPc with hpc | hpc
    · rwa [hpc]
    · rw [hpc]
      exact mainSlots_wake hmain

end Worker

section Main

/-- A step of `main` that leaves the slots and the workers alone. -/
theorem move (hslots : Slots before) (htpool : after.tpool = before.tpool)
    (hworkers : after.workers = before.workers)
    (hfilling : after.mainPc.filling = before.mainPc.filling)
    (hstored : ∀ i w, before.mainPc ≠ .storeThread i w)
    (hmain : MainSlots after after.mainPc) : Slots after := by
  have hactive : ∀ w worker, Active after w worker → Active before w worker := by
    intro w worker hactive
    rwa [Active, hworkers] at hactive
  refine ⟨?_, ?_, ?_, ?_, hmain⟩
  · intro w worker hworker
    rw [htpool]
    exact hslots.live w worker (hactive w worker hworker)
  · intro w other worker found hworker hfound
    exact hslots.apart w other worker found (hactive w worker hworker)
      (hactive other found hfound)
  · intro w worker hworker
    rw [htpool]
    refine (hslots.thread w worker (hactive w worker hworker)).imp (fun hpc => ?_) id
    exact absurd hpc (hstored _ _)
  · intro i hlive
    rw [htpool] at hlive ⊢
    rw [hfilling]
    exact hslots.named i hlive

theorem occupied_congr (hworkers : after.workers = before.workers) {i : Fin n} :
    Occupied after i ↔ Occupied before i := by
  simp only [Occupied, Active, hworkers]

/-- A step of `main` that writes one slot.  Before it no other slot was being
filled. -/
theorem write (hslots : Slots before) {i : Fin n} {slot : Slot CInt}
    (htpool : after.tpool = Function.update before.tpool i slot)
    (hworkers : after.workers = before.workers)
    (hown : ∀ w worker, Active before w worker → worker.slot = i →
      slot.status = .live ∧ slot.thread = some w)
    (hnamed : slot.status = .live → slot.thread ≠ none ∨ after.mainPc.filling = some i)
    (hfilling : ∀ j ≠ i, before.mainPc.filling ≠ some j)
    (hmain : MainSlots after after.mainPc) : Slots after := by
  have hactive : ∀ w worker, Active after w worker → Active before w worker := by
    intro w worker hactive
    rwa [Active, hworkers] at hactive
  refine ⟨?_, ?_, ?_, ?_, hmain⟩
  · intro w worker hworker
    replace hworker := hactive w worker hworker
    rw [htpool]
    by_cases hslot : worker.slot = i
    · rw [hslot, Function.update_self]
      exact (hown w worker hworker hslot).1
    · rw [Function.update_of_ne hslot]
      exact hslots.live w worker hworker
  · intro w other worker found hworker hfound
    exact hslots.apart w other worker found (hactive w worker hworker)
      (hactive other found hfound)
  · intro w worker hworker
    replace hworker := hactive w worker hworker
    right
    rw [htpool]
    by_cases hslot : worker.slot = i
    · rw [hslot, Function.update_self]
      exact (hown w worker hworker hslot).2
    · rw [Function.update_of_ne hslot]
      refine (hslots.thread w worker hworker).resolve_left fun hpc => hfilling _ hslot ?_
      rw [hpc]
      rfl
  · intro j hlive
    rw [htpool] at hlive ⊢
    by_cases hj : j = i
    · subst hj
      rw [Function.update_self] at hlive ⊢
      exact hnamed hlive
    · rw [Function.update_of_ne hj] at hlive ⊢
      exact .inl ((hslots.named j hlive).resolve_right (hfilling j hj))

/-- `tpool[index] = (struct thread){...}`: the slot was free, so no worker is on
it. -/
theorem fill (hslots : Slots before) {x : CInt} {i : Fin n} (hpc : before.mainPc = .fill x i)
    (htpool : after.tpool = Function.update before.tpool i ⟨x, .live, none⟩)
    (hworkers : after.workers = before.workers) (hafter : after.mainPc = .unlockPool x i) :
    Slots after := by
  have hfree : (before.tpool i).status = .free := by
    have hmain := hslots.main
    rwa [hpc] at hmain
  have hvacant : ¬Occupied before i := hslots.not_occupied (by rw [hfree]; exact nofun)
  refine hslots.write htpool hworkers ?_ ?_ ?_ ?_
  · exact fun w worker hactive hslot => absurd ⟨w, worker, hactive, hslot⟩ hvacant
  · intro _
    right
    rw [hafter]
    rfl
  · rw [hpc]
    exact fun j _ => nofun
  · rw [hafter]
    refine ⟨?_, ?_, ?_⟩
    · rw [htpool, Function.update_self]
    · rw [htpool, Function.update_self]
    · rwa [occupied_congr hworkers]

/-- The only worker on the slot is the one that `pthread_create` has just
started, as the slot had no thread before. -/
theorem store (hslots : Slots before) {i : Fin n} {w : ℕ}
    (hpc : before.mainPc = .storeThread i w)
    (htpool : after.tpool =
      Function.update before.tpool i { before.tpool i with thread := some w })
    (hworkers : after.workers = before.workers) (hafter : after.mainPc = .feof) :
    Slots after := by
  have hthread : (before.tpool i).thread = none := by
    have hmain := hslots.main
    rwa [hpc] at hmain
  refine hslots.write htpool hworkers ?_ ?_ ?_ ?_
  · rintro other worker hactive rfl
    refine ⟨hslots.live other worker hactive, ?_⟩
    rcases hslots.thread other worker hactive with hmain | hnamed
    · rw [hpc] at hmain
      cases hmain
      rfl
    · rw [hthread] at hnamed
      cases hnamed
  · exact fun _ => .inl nofun
  · intro j hj hfilling
    rw [hpc] at hfilling
    exact hj (Option.some.inj hfilling).symm
  · rw [hafter]
    trivial

theorem markDead (hslots : Slots before) {i : Fin n} (hpc : before.mainPc = .markDead i)
    (htpool : after.tpool =
      Function.update before.tpool i { before.tpool i with status := .dead })
    (hworkers : after.workers = before.workers)
    (hafter : after.mainPc = .joinTest (i + 1)) : Slots after := by
  have hjoined : ∀ j ≤ i, ¬Occupied before j := by
    have hmain := hslots.main
    rwa [hpc] at hmain
  refine hslots.write htpool hworkers ?_ ?_ ?_ ?_
  · exact fun w worker hactive hslot =>
      absurd ⟨w, worker, hactive, hslot⟩ (hjoined i le_rfl)
  · exact nofun
  · rw [hpc]
    exact fun j _ => nofun
  · rw [hafter]
    intro j hj
    rw [occupied_congr hworkers]
    exact hjoined j (Fin.le_def.mpr (by omega))

/-- `pthread_create` puts the new worker on the slot that nobody is on. -/
theorem create (hslots : Slots before) {x : CInt} {i : Fin n} {new : Worker n CInt CLong}
    (hpc : before.mainPc = .pthreadCreate x i) (hnew : new.slot = i)
    (htpool : after.tpool = before.tpool) (hworkers : after.workers = before.workers ++ [new])
    (hafter : after.mainPc = .storeThread i before.workers.length) : Slots after := by
  obtain ⟨hlive, hthread, hvacant⟩ : (before.tpool i).status = .live ∧
      (before.tpool i).thread = none ∧ ¬Occupied before i := by
    have hmain := hslots.main
    rwa [hpc] at hmain
  have hactive : ∀ w worker, Active after w worker →
      (Active before w worker ∧ worker.slot ≠ i) ∨
        (w = before.workers.length ∧ worker.slot = i) := by
    rintro w worker ⟨hworker, hunmarked⟩
    rw [hworkers] at hworker
    rcases of_snoc hworker with hold | ⟨hlast, rfl⟩
    · exact .inl ⟨⟨hold, hunmarked⟩,
        fun hslot => hvacant ⟨w, worker, ⟨hold, hunmarked⟩, hslot⟩⟩
    · exact .inr ⟨hlast, hnew⟩
  refine ⟨?_, ?_, ?_, ?_, ?_⟩
  · intro w worker hworker
    rw [htpool]
    rcases hactive w worker hworker with ⟨hold, -⟩ | ⟨-, hslot⟩
    · exact hslots.live w worker hold
    · rw [hslot, hlive]
  · intro w other worker found hworker hfound hslot
    rcases hactive w worker hworker with ⟨hold, hne⟩ | ⟨hlast, hi⟩
    · rcases hactive other found hfound with ⟨hold', -⟩ | ⟨-, hi⟩
      · exact hslots.apart w other worker found hold hold' hslot
      · exact absurd (hslot.trans hi) hne
    · rcases hactive other found hfound with ⟨-, hne⟩ | ⟨hlast', -⟩
      · exact absurd (hslot.symm.trans hi) hne
      · rw [hlast, hlast']
  · intro w worker hworker
    rcases hactive w worker hworker with ⟨hold, -⟩ | ⟨hlast, hslot⟩
    · rw [htpool]
      refine (hslots.thread w worker hold).imp (fun hmain => ?_) id
      rw [hpc] at hmain
      cases hmain
    · exact .inl (by rw [hafter, hlast, hslot])
  · intro j hj
    rw [htpool] at hj ⊢
    refine (hslots.named j hj).imp id fun hfilling => ?_
    rw [hpc] at hfilling
    rw [hafter]
    exact hfilling
  · rw [hafter, MainSlots, htpool]
    exact hthread

/-- Once the thread of the slot has returned, no worker is on the slot. -/
theorem joined (hslots : Slots before) {i : Fin n} {w : ℕ}
    (hpc : before.mainPc = .pthreadJoin i) (hthread : (before.tpool i).thread = some w)
    (hreturned : before.workers[w]?.map Worker.pc = some .returned) :
    ∀ j ≤ i, ¬Occupied before j := by
  have hbelow : ∀ j < i, ¬Occupied before j := by
    have hmain := hslots.main
    rw [hpc] at hmain
    exact hmain.1
  intro j hj
  rcases hj.lt_or_eq with hlt | rfl
  · exact hbelow j hlt
  rintro ⟨other, worker, ⟨hworker, hunmarked⟩, rfl⟩
  rcases hslots.thread other worker ⟨hworker, hunmarked⟩ with hmain | hnamed
  · rw [hpc] at hmain
    cases hmain
  · rw [hthread] at hnamed
    cases hnamed
    rw [hworker, Option.map_some, Option.some.injEq] at hreturned
    rw [hreturned] at hunmarked
    cases hunmarked

/-- The moves that read a status find what the slots say. -/
theorem mainSlots_move (hslots : Slots before) {pc : MainPc n CInt}
    (hmove : Move before before.mainPc pc) : MainSlots before pc := by
  have hmain := hslots.main
  have hnot : ∀ i, (before.tpool i).status ≠ .live → ¬Occupied before i :=
    fun i => hslots.not_occupied
  generalize hpc : before.mainPc = old at hmove hmain
  cases hmove with
  | more | lock | relock | next | full | loop | wait | wake => trivial
  | eof => exact fun j hj => absurd hj (Nat.not_lt_zero _)
  | found _ hfree => exact hfree
  | leave => exact hmain
  | noIndex => exact hmain
  | free _ hfree => exact hfree
  | notFree _ hstatus => exact hstatus hmain
  | unlock => exact hmain
  | @live i hlive =>
      refine ⟨hmain, (hslots.named i hlive).resolve_right ?_⟩
      rw [hpc]
      exact nofun
  | @notLive i hstatus =>
      intro j hj
      rcases (Nat.lt_succ_iff.mp hj).lt_or_eq with hlt | heq
      · exact hmain j hlt
      · exact Fin.ext heq ▸ hnot i hstatus
  | last hn => exact fun j => hmain j (by omega)
  | joinNone hthread => exact hmain.2 hthread
  | join hthread hreturned => exact hslots.joined hpc hthread hreturned
  | exit => exact hmain

theorem move_filling {pc : MainPc n CInt} (hmove : Move before before.mainPc pc) :
    pc.filling = before.mainPc.filling := by
  generalize before.mainPc = old at hmove
  cases hmove <;> rfl

theorem move_ne_store {old pc : MainPc n CInt} (hmove : Move before old pc) (i : Fin n)
    (w : ℕ) : old ≠ .storeThread i w := by
  cases hmove <;> exact nofun

theorem of_main (hslots : Slots before) (heffect : MainEffect before after) :
    Slots after := by
  cases heffect with
  | move lk hmove =>
      exact hslots.move rfl rfl (move_filling hmove) (move_ne_store hmove)
        (hslots.mainSlots_move hmove)
  | scanf hpc =>
      refine hslots.move rfl rfl ?_ (by rw [hpc]; exact fun _ _ => nofun) ?_
      · rw [hpc]
        cases before.stdin.scanf.1 <;> rfl
      · cases hscanf : before.stdin.scanf.1 with
        | none => exact fun j hj => absurd hj (Nat.not_lt_zero _)
        | some x => trivial
  | fill hpc => exact hslots.fill hpc rfl rfl rfl
  | create hpc => exact hslots.create hpc rfl rfl rfl rfl
  | store hpc => exact hslots.store hpc rfl rfl rfl
  | markDead hpc => exact hslots.markDead hpc rfl rfl rfl

end Main

theorem start [Zero CInt] [Zero CLong] (input : List CInt) (trailing : Bool) :
    Slots (MidtermTle.start n input trailing : State n CInt CLong) where
  live w worker hactive := by simp [Active, MidtermTle.start] at hactive
  apart w other worker found hactive := by simp [Active, MidtermTle.start] at hactive
  thread w worker hactive := by simp [Active, MidtermTle.start] at hactive
  named i hlive := by cases hlive
  main := trivial

end Slots

/-- Every step is one of `main` or of a worker. -/
theorem step_cases [Add CLong] {f : CInt → CLong} {before after : State n CInt CLong}
    {label : Label} (hstep : step f before label = some after) :
    MainEffect before after ∨ ∃ w worker next, before.workers[w]? = some worker ∧
      WorkerEffect f before w worker next after := by
  cases label with
  | main => exact .inl (mainStep_cases hstep)
  | spurious =>
      simp only [step] at hstep
      split at hstep
      · cases hstep
        exact .inl (.goto ‹_› (.wake _))
      · cases hstep
  | worker w =>
      obtain ⟨worker, hworker, hstep⟩ := Option.bind_eq_some_iff.mp hstep
      obtain ⟨next, heffect⟩ := workerStep_cases hstep
      exact .inr ⟨w, worker, next, hworker, heffect⟩

theorem slots_reachable [Zero CInt] [AddCommMonoid CLong] {f : CInt → CLong}
    {input : List CInt} {trailing : Bool} {state : State n CInt CLong}
    (hreach : (system n f input trailing).Reachable state) : Slots state := by
  refine System.invariant_of_step ?_ ?_ hreach
  · rintro _ rfl
    exact Slots.start input trailing
  · intro before label after _ hslots hstep
    rcases step_cases hstep with heffect | ⟨w, worker, next, hworker, heffect⟩
    · exact hslots.of_main heffect
    · exact hslots.of_shape hworker heffect.shape

end JyyOS.MidtermTle
