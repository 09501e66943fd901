import JyyOS.Core.ListSum
import JyyOS.Concurrency.MidtermTle

/-!
# The sum that `midterm-tle.c` prints

The workers in the order in which they were started have the integers of the
input in their order, and what a worker has not yet added is what the sum still
lacks.  When `join` has come to its end, no worker is before its `T_FREE`, and
so none is before its addition.
-/

namespace JyyOS.MidtermTle

open JyyOS.Transition JyyOS.Midterm

variable {n : ℕ} {CInt CLong : Type*}

/-! ## The jobs -/

/-- What `main` has read and not yet started a worker for. -/
def MainPc.pending : MainPc n CInt → List CInt
  | .lockPool x | .freeIndex x _ | .whileTest x _ | .condWait x | .asleep x | .woken x
  | .asserts x _ | .fill x _ | .unlockPool x _ | .pthreadCreate x _ => [x]
  | _ => []

/-- `main` has left its loop. -/
def MainPc.joining : MainPc n CInt → Bool
  | .joinTest _ | .pthreadJoin _ | .markDead _ | .printf | .exited => true
  | _ => false

/-- A worker against the job it was started for, with what its slot holds. -/
def WorkerJob (f : CInt → CLong) (arg : CInt) (worker : Worker n CInt CLong) : Prop :=
  match worker.pc with
  | .readArg => arg = worker.job ∧ worker.passed = []
  | .callF x => x = worker.job ∧ worker.passed = []
  | .lockSum res | .loadSum res | .storeSum res _ =>
      res = f worker.job ∧ worker.passed = [worker.job]
  | _ => worker.passed = [worker.job]

structure Jobs (f : CInt → CLong) (input : List CInt) (state : State n CInt CLong) : Prop where
  sound : state.stdin.Sound
  read : state.workers.map Worker.job ++ state.mainPc.pending ++ state.stdin.ints = input
  done : state.mainPc.joining = true → state.stdin.ints = []
  arg : ∀ x i, state.mainPc = .unlockPool x i ∨ state.mainPc = .pthreadCreate x i →
    (state.tpool i).arg = x
  worker : ∀ (w : ℕ) worker, state.workers[w]? = some worker →
    WorkerJob f (state.tpool worker.slot).arg worker

namespace Jobs

variable {f : CInt → CLong} {input : List CInt} {before after : State n CInt CLong}

/-- Only a worker that has not read its argument depends on its slot. -/
theorem worker_congr {arg arg' : CInt} {worker : Worker n CInt CLong}
    (hsame : worker.pc.unmarked = true → arg' = arg) (hjob : WorkerJob f arg worker) :
    WorkerJob f arg' worker := by
  unfold WorkerJob at hjob ⊢
  cases hpc : worker.pc with
  | readArg =>
      rw [hpc] at hjob hsame
      exact ⟨(hsame rfl).trans hjob.1, hjob.2⟩
  | _ =>
      rw [hpc] at hjob
      exact hjob

/-- A step of a worker keeps the jobs of the workers. -/
theorem map_job_set {workers : List (Worker n CInt CLong)} {w : ℕ}
    {worker next : Worker n CInt CLong} (hworker : workers[w]? = some worker)
    (hjob : next.job = worker.job) :
    (workers.set w next).map Worker.job = workers.map Worker.job := by
  obtain ⟨hlt, rfl⟩ := List.getElem?_eq_some_iff.mp hworker
  have hlt' : w < (workers.map Worker.job).length := by rwa [List.length_map]
  rw [List.map_set, hjob, ← List.getElem_map Worker.job (h := hlt'), List.set_getElem_self]

theorem wake_pending (pc : MainPc n CInt) : pc.wake.pending = pc.pending := by
  cases pc <;> rfl

theorem wake_joining (pc : MainPc n CInt) : pc.wake.joining = pc.joining := by
  cases pc <;> rfl

theorem of_wake_filled {pc : MainPc n CInt} {x : CInt} {i : Fin n}
    (hpc : pc.wake = .unlockPool x i ∨ pc.wake = .pthreadCreate x i) :
    pc = .unlockPool x i ∨ pc = .pthreadCreate x i := by
  cases pc with
  | asleep => rcases hpc with hpc | hpc <;> cases hpc
  | _ => exact hpc

theorem workerJob_of_effect [Add CLong] {w : ℕ} {worker next : Worker n CInt CLong}
    (heffect : WorkerEffect f before w worker next after)
    (hjob : WorkerJob f (before.tpool worker.slot).arg worker) :
    WorkerJob f (before.tpool worker.slot).arg next := by
  unfold WorkerJob at hjob
  cases heffect with
  | readArg hpc =>
      rw [hpc] at hjob
      exact hjob
  | callF hpc =>
      rw [hpc] at hjob
      obtain ⟨rfl, hpassed⟩ := hjob
      exact ⟨rfl, by rw [hpassed, List.nil_append]⟩
  | lockSum hpc | loadSum hpc =>
      rw [hpc] at hjob
      exact hjob
  | storeSum hpc =>
      rw [hpc] at hjob
      exact hjob.2
  | unlockSum hpc | lockPool hpc | markFree hpc | broadcast hpc | unlockPool hpc =>
      rw [hpc] at hjob
      exact hjob

theorem of_worker [Add CLong] (hjobs : Jobs f input before) {w : ℕ}
    {worker next : Worker n CInt CLong} (hworker : before.workers[w]? = some worker)
    (heffect : WorkerEffect f before w worker next after) : Jobs f input after := by
  have hshape := heffect.shape
  have hpending : after.mainPc.pending = before.mainPc.pending := by
    rcases hshape.mainPc with hpc | hpc
    · rw [hpc]
    · rw [hpc, wake_pending]
  have hjoining : after.mainPc.joining = before.mainPc.joining := by
    rcases hshape.mainPc with hpc | hpc
    · rw [hpc]
    · rw [hpc, wake_joining]
  refine ⟨?_, ?_, ?_, ?_, ?_⟩
  · rw [hshape.stdin]
    exact hjobs.sound
  · rw [hshape.workers, hshape.stdin, hpending, map_job_set hworker hshape.job]
    exact hjobs.read
  · rw [hjoining, hshape.stdin]
    exact hjobs.done
  · intro x i hfilled
    rw [hshape.arg]
    apply hjobs.arg x i
    rcases hshape.mainPc with hpc | hpc
    · rwa [hpc] at hfilled
    · rw [hpc] at hfilled
      exact of_wake_filled hfilled
  · intro other found hfound
    rw [hshape.arg]
    rw [hshape.workers] at hfound
    rcases of_set hfound with ⟨-, rfl⟩ | hfound
    · rw [hshape.slot]
      exact workerJob_of_effect heffect (hjobs.worker w worker hworker)
    · exact hjobs.worker other found hfound

theorem move_pending {old pc : MainPc n CInt} (hmove : Move before old pc)
    (hlegal : MainSlots before pc) : pc.pending = old.pending := by
  cases hmove with
  | noIndex | notFree => exact hlegal.elim
  | _ => rfl

theorem move_joining {pc : MainPc n CInt} (hjobs : Jobs f input before)
    (hmove : Move before before.mainPc pc) (hjoining : pc.joining = true) :
    before.stdin.ints = [] := by
  have hdone := hjobs.done
  generalize before.mainPc = old at hmove hdone
  cases hmove with
  | eof heof => exact hjobs.sound heof
  | live | notLive | last | join | exit => exact hdone rfl
  | _ => cases hjoining

theorem move_filled {old pc : MainPc n CInt} (hmove : Move before old pc) {x : CInt}
    {i : Fin n} (hpc : pc = .unlockPool x i ∨ pc = .pthreadCreate x i) :
    old = .unlockPool x i := by
  cases hmove with
  | unlock x' i' =>
      rcases hpc with hpc | hpc
      · cases hpc
      · cases hpc
        rfl
  | _ => rcases hpc with hpc | hpc <;> cases hpc

section Args

variable {tpool : Fin n → Slot CInt} {i : Fin n} {slot : Slot CInt}

theorem arg_update_of_ne {j : Fin n} (hj : j ≠ i) :
    (Function.update tpool i slot j).arg = (tpool j).arg := by
  rw [Function.update_of_ne hj]

theorem arg_update_of_eq (harg : slot.arg = (tpool i).arg) (j : Fin n) :
    (Function.update tpool i slot j).arg = (tpool j).arg := by
  by_cases hj : j = i
  · rw [hj, Function.update_self, harg]
  · exact arg_update_of_ne hj

end Args

theorem scanf_cases (stdin : Stdin CInt) :
    (stdin.scanf.1 = none ∧ stdin.ints = [] ∧ stdin.scanf.2.ints = []) ∨
      ∃ x, stdin.scanf.1 = some x ∧ stdin.ints = x :: stdin.scanf.2.ints := by
  unfold Stdin.scanf
  cases stdin.ints with
  | nil => exact .inl ⟨rfl, rfl, rfl⟩
  | cons x rest => exact .inr ⟨x, rfl, rfl⟩

theorem of_main (hjobs : Jobs f input before) (hslots : Slots before)
    (heffect : MainEffect before after) : Jobs f input after := by
  cases heffect with
  | move lk hmove =>
      refine ⟨hjobs.sound, ?_, hjobs.move_joining hmove, ?_, hjobs.worker⟩
      · show before.workers.map Worker.job ++ _ ++ before.stdin.ints = input
        rw [move_pending hmove (hslots.mainSlots_move hmove)]
        exact hjobs.read
      · exact fun x i hpc => hjobs.arg x i (.inl (move_filled hmove hpc))
  | scanf hpc =>
      have hread := hjobs.read
      rw [hpc] at hread
      rcases scanf_cases before.stdin with ⟨hnone, hempty, hrest⟩ | ⟨x, hsome, hints⟩
      · simp only [hnone, Option.elim_none]
        refine ⟨hjobs.sound.scanf, ?_, fun _ => hrest, ?_, hjobs.worker⟩
        · rw [← hread, hempty, hrest]
          rfl
        · rintro y i (hfilled | hfilled) <;> cases hfilled
      · simp only [hsome, Option.elim_some]
        refine ⟨hjobs.sound.scanf, ?_, nofun, ?_, hjobs.worker⟩
        · rw [← hread, hints]
          simp [MainPc.pending]
        · rintro y i (hfilled | hfilled) <;> cases hfilled
  | @fill x i hpc =>
      have hfree : (before.tpool i).status = .free := by
        have hmain := hslots.main
        rwa [hpc] at hmain
      have hvacant : ¬Occupied before i := hslots.not_occupied (by rw [hfree]; exact nofun)
      have hread := hjobs.read
      rw [hpc] at hread
      refine ⟨hjobs.sound, hread, nofun, ?_, ?_⟩
      · rintro y j (hfilled | hfilled)
        · cases hfilled
          show (Function.update before.tpool i ⟨x, .live, none⟩ i).arg = x
          rw [Function.update_self]
        · cases hfilled
      · intro w worker hworker
        refine worker_congr (fun hunmarked => ?_) (hjobs.worker w worker hworker)
        exact arg_update_of_ne fun hslot =>
          hvacant ⟨w, worker, ⟨hworker, hunmarked⟩, hslot⟩
  | @create x i hpc =>
      have harg : (before.tpool i).arg = x := hjobs.arg x i (.inr hpc)
      have hread := hjobs.read
      rw [hpc] at hread
      refine ⟨hjobs.sound, ?_, nofun, fun y j => by simp, ?_⟩
      · rw [← hread]
        simp [harg, MainPc.pending]
      · intro w worker hworker
        rcases of_snoc hworker with hold | ⟨-, rfl⟩
        · exact hjobs.worker w worker hold
        · exact ⟨rfl, rfl⟩
  | @store i w hpc =>
      have hread := hjobs.read
      rw [hpc] at hread
      refine ⟨hjobs.sound, hread, nofun, fun y j => by simp, ?_⟩
      have harg : ∀ j, (Function.update before.tpool i
          { before.tpool i with thread := some w } j).arg = (before.tpool j).arg :=
        arg_update_of_eq rfl
      exact fun other worker hworker =>
        worker_congr (fun _ => harg _) (hjobs.worker other worker hworker)
  | @markDead i hpc =>
      have hread := hjobs.read
      have hdone := hjobs.done
      rw [hpc] at hread hdone
      refine ⟨hjobs.sound, hread, fun _ => hdone rfl, fun y j => by simp [State.setMain], ?_⟩
      have harg : ∀ j, (Function.update before.tpool i
          { before.tpool i with status := .dead } j).arg = (before.tpool j).arg :=
        arg_update_of_eq rfl
      exact fun other worker hworker =>
        worker_congr (fun _ => harg _) (hjobs.worker other worker hworker)

theorem start [Zero CInt] [Zero CLong] (f : CInt → CLong) (input : List CInt)
    (trailing : Bool) : Jobs f input (MidtermTle.start n input trailing) where
  sound := Stdin.sound_start input trailing
  read := rfl
  done := nofun
  arg x i hfilled := by rcases hfilled with hfilled | hfilled <;> cases hfilled
  worker w worker hworker := by simp [MidtermTle.start] at hworker

/-- A job that has been passed to `f` has been passed once. -/
theorem passed {state : State n CInt CLong} (hjobs : Jobs f input state) {w : ℕ}
    {worker : Worker n CInt CLong} (hworker : state.workers[w]? = some worker) :
    worker.passed = [] ∨ worker.passed = [worker.job] := by
  have hjob := hjobs.worker w worker hworker
  unfold WorkerJob at hjob
  cases hpc : worker.pc with
  | readArg | callF =>
      rw [hpc] at hjob
      exact .inl hjob.2
  | lockSum | loadSum | storeSum =>
      rw [hpc] at hjob
      exact .inr hjob.2
  | unlockSum | lockPool | markFree | broadcast | unlockPool | returned =>
      rw [hpc] at hjob
      exact .inr hjob

end Jobs

section Reachable

variable [Zero CInt] [AddCommMonoid CLong] {f : CInt → CLong} {input : List CInt}
variable {trailing : Bool} {state : State n CInt CLong}

theorem jobs_reachable (hreach : (system n f input trailing).Reachable state) :
    Jobs f input state := by
  refine System.invariant_of_step ?_ ?_ hreach
  · rintro _ rfl
    exact Jobs.start f input trailing
  · intro before label after hbefore hjobs hstep
    rcases step_cases hstep with heffect | ⟨w, worker, next, hworker, heffect⟩
    · exact hjobs.of_main (slots_reachable hbefore) heffect
    · exact hjobs.of_worker hworker heffect

end Reachable

/-! ## The sum -/

/-- The worker has not yet stored its addition. -/
def WorkerPc.owes : WorkerPc CInt CLong → Bool
  | .readArg | .callF _ | .lockSum _ | .loadSum _ | .storeSum _ _ => true
  | _ => false

def WorkerPc.holdsSum : WorkerPc CInt CLong → Bool
  | .loadSum _ | .storeSum _ _ | .unlockSum => true
  | _ => false

def owed [Zero CLong] (f : CInt → CLong) (worker : Worker n CInt CLong) : CLong :=
  if worker.pc.owes then f worker.job else 0

structure Sums [AddCommMonoid CLong] (f : CInt → CLong) (state : State n CInt CLong) :
    Prop where
  held : ∀ (w : ℕ) worker, state.workers[w]? = some worker → worker.pc.holdsSum = true →
    state.sumLk = some w
  loaded : ∀ (w : ℕ) worker res loaded, state.workers[w]? = some worker →
    worker.pc = .storeSum res loaded → loaded = state.sum
  total : state.sum + ListSum.total (owed f) state.workers =
    ListSum.total (fun worker => f worker.job) state.workers

namespace Sums

variable [AddCommMonoid CLong] {f : CInt → CLong} {before after : State n CInt CLong}

theorem of_main (hsums : Sums f before) (heffect : MainEffect before after) :
    Sums f after := by
  cases heffect with
  | move | scanf | fill | store | markDead => exact ⟨hsums.held, hsums.loaded, hsums.total⟩
  | create hpc =>
      refine ⟨?_, ?_, ?_⟩
      · intro w worker hworker hholds
        rcases of_snoc hworker with hold | ⟨-, rfl⟩
        · exact hsums.held w worker hold hholds
        · cases hholds
      · intro w worker res loaded hworker hstore
        rcases of_snoc hworker with hold | ⟨-, rfl⟩
        · exact hsums.loaded w worker res loaded hold hstore
        · cases hstore
      · have hnew : ∀ i arg, owed f (⟨i, .readArg, arg, []⟩ : Worker n CInt CLong) = f arg :=
          fun _ _ => rfl
        simp only [ListSum.total_append, ListSum.total_cons, ListSum.total_nil, hnew, add_zero]
        rw [← add_assoc, hsums.total]

section Worker

variable {w : ℕ} {worker next : Worker n CInt CLong}

theorem total_set (hworker : before.workers[w]? = some worker) (howed : owed f next = owed f worker)
    (hjob : next.job = worker.job) (hsums : Sums f before) :
    before.sum + ListSum.total (owed f) (before.workers.set w next) =
      ListSum.total (fun worker => f worker.job) (before.workers.set w next) := by
  rw [ListSum.total_set_eq hworker howed, hsums.total,
    ListSum.total_set_eq hworker (congrArg f hjob)]

/-- A worker that neither takes nor has the sum's mutex and does not add. -/
theorem of_aside (hsums : Sums f before) (hworker : before.workers[w]? = some worker)
    (hworkers : after.workers = before.workers.set w next) (hjob : next.job = worker.job)
    (howes : next.pc.owes = worker.pc.owes) (hholds : next.pc.holdsSum = false)
    (hlk : after.sumLk = before.sumLk) (hsum : after.sum = before.sum) : Sums f after := by
  refine ⟨?_, ?_, ?_⟩
  · intro other found hfound hfoundHolds
    rw [hworkers] at hfound
    rw [hlk]
    rcases of_set hfound with ⟨-, rfl⟩ | hfound
    · rw [hholds] at hfoundHolds
      cases hfoundHolds
    · exact hsums.held other found hfound hfoundHolds
  · intro other found res loaded hfound hstore
    rw [hworkers] at hfound
    rw [hsum]
    rcases of_set hfound with ⟨-, rfl⟩ | hfound
    · rw [hstore] at hholds
      cases hholds
    · exact hsums.loaded other found res loaded hfound hstore
  · rw [hsum, hworkers]
    exact hsums.total_set hworker (by rw [owed, owed, howes, hjob]) hjob

/-- The worker holds the sum's mutex, so nobody else has it. -/
theorem alone (hsums : Sums f before) (hworker : before.workers[w]? = some worker)
    (hholds : worker.pc.holdsSum = true) {other : ℕ} {found : Worker n CInt CLong}
    (hfound : (before.workers.set w next)[other]? = some found)
    (hfoundHolds : found.pc.holdsSum = true) : other = w ∧ found = next := by
  rcases of_set hfound with hself | hold
  · exact hself
  · have hsame := (hsums.held w worker hworker hholds).symm.trans
      (hsums.held other found hold hfoundHolds)
    cases hsame
    rw [List.getElem?_set_self (List.getElem?_eq_some_iff.mp hworker).1] at hfound
    exact ⟨rfl, (Option.some.inj hfound).symm⟩

theorem of_worker {input : List CInt} (hsums : Sums f before) (hjobs : Jobs f input before)
    (hworker : before.workers[w]? = some worker)
    (heffect : WorkerEffect f before w worker next after) : Sums f after := by
  cases heffect with
  | readArg hpc | callF hpc | lockPool hpc | markFree hpc | broadcast hpc | unlockPool hpc =>
      exact hsums.of_aside hworker rfl rfl (by rw [hpc]; rfl) rfl rfl rfl
  | lockSum hpc hfree =>
      refine ⟨?_, ?_, ?_⟩
      · intro other found hfound hholds
        rcases of_set hfound with ⟨rfl, -⟩ | hold
        · rfl
        · have hheld := hsums.held other found hold hholds
          rw [hfree] at hheld
          cases hheld
      · intro other found res loaded hfound hstore
        rcases of_set hfound with ⟨-, rfl⟩ | hold
        · cases hstore
        · exact hsums.loaded other found res loaded hold hstore
      · exact hsums.total_set hworker (by rw [owed, owed, hpc]; rfl) rfl
  | loadSum hpc =>
      have hholds : worker.pc.holdsSum = true := by rw [hpc]; rfl
      refine ⟨?_, ?_, ?_⟩
      · intro other found hfound hfoundHolds
        obtain ⟨rfl, -⟩ := hsums.alone hworker hholds hfound hfoundHolds
        exact hsums.held other worker hworker hholds
      · intro other found res loaded hfound hstore
        obtain ⟨-, rfl⟩ := hsums.alone hworker hholds hfound (by rw [hstore]; rfl)
        cases hstore
        rfl
      · exact hsums.total_set hworker (by rw [owed, owed, hpc]; rfl) rfl
  | storeSum hpc =>
      have hholds : worker.pc.holdsSum = true := by rw [hpc]; rfl
      have hloaded := hsums.loaded w worker _ _ hworker hpc
      have hjob := hjobs.worker w worker hworker
      rw [WorkerJob, hpc] at hjob
      obtain ⟨rfl, -⟩ := hjob
      refine ⟨?_, ?_, ?_⟩
      · intro other found hfound hfoundHolds
        obtain ⟨rfl, -⟩ := hsums.alone hworker hholds hfound hfoundHolds
        exact hsums.held other worker hworker hholds
      · intro other found res loaded hfound hstore
        obtain ⟨-, rfl⟩ := hsums.alone hworker hholds hfound (by rw [hstore]; rfl)
        cases hstore
      · obtain ⟨rest, hbefore, hafter⟩ := ListSum.total_split (owed f) hworker
        have howed : owed f worker = f worker.job := by
          rw [owed, hpc]
          rfl
        have hpaid : owed f { worker with pc := .unlockSum } = 0 := rfl
        have htotal := hsums.total
        rw [hbefore, howed] at htotal
        have hsame : ListSum.total (fun worker => f worker.job)
            (before.workers.set w { worker with pc := .unlockSum }) = _ :=
          ListSum.total_set_eq hworker rfl
        simp only [State.setWorker]
        rw [hafter, hpaid, zero_add, hloaded, hsame, ← htotal, add_assoc]
  | unlockSum hpc =>
      have hholds : worker.pc.holdsSum = true := by rw [hpc]; rfl
      refine ⟨?_, ?_, ?_⟩
      · intro other found hfound hfoundHolds
        obtain ⟨-, rfl⟩ := hsums.alone hworker hholds hfound hfoundHolds
        cases hfoundHolds
      · intro other found res loaded hfound hstore
        obtain ⟨-, rfl⟩ := hsums.alone hworker hholds hfound (by rw [hstore]; rfl)
        cases hstore
      · exact hsums.total_set hworker (by rw [owed, owed, hpc]; rfl) rfl

end Worker

end Sums

theorem sums_reachable [Zero CInt] [AddCommMonoid CLong] {f : CInt → CLong}
    {input : List CInt} {trailing : Bool} {state : State n CInt CLong}
    (hreach : (system n f input trailing).Reachable state) : Sums f state := by
  refine System.invariant_of_step ?_ ?_ hreach
  · rintro _ rfl
    refine ⟨?_, ?_, add_zero _⟩
    · intro w worker hworker
      simp [start] at hworker
    · intro w worker res loaded hworker
      simp [start] at hworker
  · intro before label after hbefore hsums hstep
    rcases step_cases hstep with heffect | ⟨w, worker, next, hworker, heffect⟩
    · exact hsums.of_main heffect
    · exact hsums.of_worker (jobs_reachable hbefore) hworker heffect

/-! ## The pool -/

section Pool

variable {state : State n CInt CLong}

/-- The workers that have not marked their slot free are on slots of their own. -/
theorem Slots.count (hslots : Slots state) :
    (state.workers.filter fun worker => worker.pc.unmarked).length ≤ n := by
  have hnodup : ((state.workers.filter fun worker => worker.pc.unmarked).map
      Worker.slot).Nodup := by
    rw [List.Nodup, List.pairwise_map, List.pairwise_filter, List.pairwise_iff_getElem]
    intro i j hi hj hlt hunmarked hunmarked' hslot
    exact hlt.ne (hslots.apart i j _ _ ⟨List.getElem?_eq_getElem hi, hunmarked⟩
      ⟨List.getElem?_eq_getElem hj, hunmarked'⟩ hslot)
  have hcard := hnodup.length_le_card
  rwa [List.length_map, Fintype.card_fin] at hcard

variable {f : CInt → CLong} {input : List CInt}

/-- The `w`-th worker is the one for the `w`-th integer. -/
theorem Jobs.of_input (hjobs : Jobs f input state) {w : ℕ} {worker : Worker n CInt CLong}
    (hworker : state.workers[w]? = some worker) : input[w]? = some worker.job := by
  have hlt : w < state.workers.length := (List.getElem?_eq_some_iff.mp hworker).1
  rw [← hjobs.read, List.append_assoc, List.getElem?_append_left (by rwa [List.length_map]),
    List.getElem?_map, hworker, Option.map_some]

theorem passed_of_marked (hjobs : Jobs f input state) {w : ℕ} {worker : Worker n CInt CLong}
    (hworker : state.workers[w]? = some worker) (hmarked : worker.pc.unmarked = false) :
    worker.passed = [worker.job] ∧ worker.pc.owes = false := by
  have hjob := hjobs.worker w worker hworker
  unfold WorkerJob at hjob
  cases hpc : worker.pc with
  | broadcast | unlockPool | returned =>
      rw [hpc] at hjob
      exact ⟨hjob, rfl⟩
  | _ =>
      rw [hpc] at hmarked
      cases hmarked

end Pool

/-- One slot for two integers: `main` waits for the first worker to free it. -/
def schedule : List Label :=
  List.replicate 17 Label.main ++ List.replicate 10 (Label.worker 0) ++
    List.replicate 10 Label.main ++ List.replicate 10 (Label.worker 1) ++
    List.replicate 3 Label.main

end JyyOS.MidtermTle
