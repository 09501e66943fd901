import JyyOS.Core.LostUpdate
import JyyOS.Core.Transition

/-!
# The Mandelbrot workers and their display (`mandelbrot.c`)

`NT` workers fill the picture `x`, each in the columns that `belongs` gives to it,
and count themselves in `done` when they have finished.  A further thread draws the
picture again and again until it finds `done == NT`, and writes the final image then.
-/

namespace JyyOS.Mandelbrot

open JyyOS.Transition
open JyyOS.LostUpdate (Counter Phase)

/-! ## The columns of a worker -/

/-- `belongs` for an image `width` columns wide; `none` is the trap of a division by
zero. -/
def belongs (width NT x _y t : ℤ) : Option Bool :=
  if NT = 0 ∨ width.tdiv NT = 0 then none else some (x.tdiv (width.tdiv NT) == t)

/-- The worker `tid` of `NT` renders the pixel `(i, j)`. -/
def Renders (width NT i j tid : ℤ) : Prop :=
  1 ≤ tid ∧ tid ≤ NT ∧ belongs width NT i j (tid - 1) = some true

/-- Every pixel is rendered by exactly one worker. -/
def Partitions (width NT : ℤ) : Prop :=
  ∀ i j, 0 ≤ i → i < width → ∃! tid, Renders width NT i j tid

section Columns

variable {width NT i j tid : ℤ}

theorem columns_pos (hNT : 1 ≤ NT) (hwidth : NT ≤ width) : 0 < width / NT :=
  (Int.le_ediv_iff_mul_le hNT).mpr (by omega : 1 * NT ≤ width)

/-- With at least one column a worker, `belongs` never divides by zero. -/
theorem belongs_eq (hNT : 1 ≤ NT) (hwidth : NT ≤ width) (hi : 0 ≤ i) (t : ℤ) :
    belongs width NT i j t = some (i / (width / NT) == t) := by
  have hcolumns := columns_pos hNT hwidth
  have htdiv : width.tdiv NT = width / NT := Int.tdiv_eq_ediv_of_nonneg (by omega)
  rw [belongs, if_neg, htdiv, Int.tdiv_eq_ediv_of_nonneg hi]
  rw [htdiv]
  omega

theorem renders_iff (hNT : 1 ≤ NT) (hwidth : NT ≤ width) (hi : 0 ≤ i) :
    Renders width NT i j tid ↔ tid ≤ NT ∧ tid = i / (width / NT) + 1 := by
  have hcolumn : 0 ≤ i / (width / NT) := Int.ediv_nonneg hi (columns_pos hNT hwidth).le
  rw [Renders, belongs_eq hNT hwidth hi, Option.some.injEq, beq_iff_eq]
  constructor
  · rintro ⟨-, hle, hcolumn⟩
    exact ⟨hle, by omega⟩
  · rintro ⟨hle, rfl⟩
    exact ⟨by omega, hle, by omega⟩

/-- The first `NT * (width / NT)` columns have one worker, the others none. -/
theorem existsUnique_renders_iff (hNT : 1 ≤ NT) (hwidth : NT ≤ width) (hi : 0 ≤ i) :
    (∃! tid, Renders width NT i j tid) ↔ i < NT * (width / NT) := by
  have hcolumns := columns_pos hNT hwidth
  calc (∃! tid, Renders width NT i j tid)
      ↔ ∃! tid, tid ≤ NT ∧ tid = i / (width / NT) + 1 :=
        existsUnique_congr fun _ => renders_iff hNT hwidth hi
    _ ↔ i / (width / NT) < NT := by
        constructor
        · rintro ⟨_, ⟨hle, rfl⟩, -⟩
          omega
        · exact fun hlt => ⟨_, ⟨hlt, rfl⟩, fun _ htid => htid.2⟩
    _ ↔ i < NT * (width / NT) := Int.ediv_lt_iff_lt_mul hcolumns

end Columns

/-- The workers partition the picture exactly when their number divides its width; the
columns from `NT * (width / NT)` on belong to nobody. -/
theorem partitions_iff_dvd (width NT : ℤ) (hNT : 1 ≤ NT) (hwidth : NT ≤ width) :
    (∀ i j, 0 ≤ i → i < width →
      ((∃! tid, Renders width NT i j tid) ↔ i < NT * (width / NT))) ∧
      (Partitions width NT ↔ NT ∣ width) := by
  refine ⟨fun i j hi _ => existsUnique_renders_iff hNT hwidth hi, ?_⟩
  constructor
  · intro hpartitions
    -- the last column decides
    have hlast := (existsUnique_renders_iff hNT hwidth (by omega)).mp
      (hpartitions (width - 1) 0 (by omega) (by omega))
    have hle : NT * (width / NT) ≤ width := Int.mul_ediv_self_le (by omega)
    exact ⟨width / NT, by omega⟩
  · intro hdvd i j hi hlt
    apply (existsUnique_renders_iff hNT hwidth hi).mpr
    rwa [Int.mul_ediv_cancel' hdvd]

/-- The 32 workers of the `Makefile`. -/
theorem partitions_makefile :
    (1 : ℤ) ≤ 32 ∧ (32 : ℤ) ≤ 12800 ∧ Partitions 12800 32 :=
  ⟨by decide, by decide, (partitions_iff_dvd 12800 32 (by decide) (by decide)).2.mpr (by decide)⟩

/-- With 3 workers nobody renders the last two columns. -/
theorem not_partitions_three :
    (1 : ℤ) ≤ 3 ∧ (3 : ℤ) ≤ 12800 ∧ (¬ ∃! tid, Renders 12800 3 12799 0 tid) ∧
      ¬ Partitions 12800 3 := by
  have hlast : ¬ ∃! tid, Renders 12800 3 12799 0 tid := by
    rw [existsUnique_renders_iff (by decide) (by decide) (by decide)]
    decide
  exact ⟨by decide, by decide, hlast,
    fun hall => hlast (hall 12799 0 (by decide) (by decide))⟩

/-! ## The program -/

abbrev W : ℕ := 12800

abbrev H : ℕ := 12800

abbrev NTHREAD : ℕ := 6400

/-- What all threads share: the iterations counted in each pixel, and `done`. -/
structure Shared where
  x : ℕ → ℕ → ℕ
  done : ℕ

/-- Where a worker is, by what it does next. -/
inductive Point where
  /-- The tests of the two loops, and `belongs`. -/
  | pixel (i j : ℕ)
  /-- The condition of the `while` and its body. -/
  | iterate (i j : ℕ) (a b : Float)
  /-- The load of `done++`. -/
  | load
  /-- The store of `done++`, with the value loaded. -/
  | store (loaded : ℕ)
  | returned

/-- `x[i][j]++` -/
def Shared.count (shared : Shared) (i j : ℕ) : Shared :=
  { shared with
    x := Function.update shared.x i (Function.update (shared.x i) j (shared.x i j + 1)) }

/-- One step of `Tworker(tid)`, `none` when it has returned and when `belongs` traps. -/
def Tworker (NT : ℕ) (tid : ℤ) (shared : Shared) : Point → Option (Shared × Point)
  | .pixel i j =>
      if i < W then
        if j < H then do
          let own ← belongs W NT i j (tid - 1)
          some (shared, if own then .iterate i j 0 0 else .pixel i (j + 1))
        else some (shared, .pixel (i + 1) 0)
      else some (shared, .load)
  | .iterate i j a b =>
      let c := a * a
      let d := b * b
      if c + d < 4 then
        let b' := 2 * a * b + Float.ofNat j * 1024.0 / Float.ofNat H * 8e-9 - 0.645411
        let a' := c - d + Float.ofNat i * 1024.0 / Float.ofNat W * 8e-9 + 0.356888
        -- the increment happens whether or not the bound is reached
        some (shared.count i j,
          if shared.x i j < 880 then .iterate i j a' b' else .pixel i (j + 1))
      else some (shared, .pixel i (j + 1))
  | .load => some (shared, .store shared.done)
  | .store loaded => some ({ shared with done := loaded + 1 }, .returned)
  | .returned => none

/-- A call of `display`: the next pixel, and the pixels written before it. -/
structure Frame where
  i : ℕ
  j : ℕ
  pixels : List ℕ

def Frame.start : Frame := ⟨0, 0, []⟩

/-- One step of the loops of `display`, `none` when they end. -/
def display (step : ℕ) (x : ℕ → ℕ → ℕ) (frame : Frame) : Option Frame :=
  if frame.j < H then
    if frame.i < W then
      some ⟨frame.i + step, frame.j, frame.pixels ++ [x frame.i frame.j]⟩
    else some ⟨0, frame.j + step, frame.pixels⟩
  else none

/-- Where `Tdisplay` is. -/
inductive Display where
  /-- In `display(fp, W / 256)`. -/
  | viu (frame : Frame)
  /-- `if (done == NT) break;` -/
  | test
  | usleep
  /-- In `display(fp, 2)`, behind the loop. -/
  | image (frame : Frame)
  /-- The image file is closed. -/
  | returned (pixels : List ℕ)

def Tdisplay (NT : ℕ) (shared : Shared) : Display → Option Display
  | .viu frame => some ((display (W / 256) shared.x frame).elim .test .viu)
  | .test => some (if shared.done = NT then .image .start else .usleep)
  | .usleep => some (.viu .start)
  | .image frame => some ((display 2 shared.x frame).elim (.returned frame.pixels) .image)
  | .returned _ => none

/-- Where `main` is. -/
inductive Main where
  /-- Before the next `create`, by the threads created so far. -/
  | creating (created : ℕ)
  | join
  /-- `assert(tptr - tpool < NTHREAD)` failed in `create`. -/
  | full

structure State (NT : ℕ) where
  shared : Shared
  workers : Fin NT → Point
  display : Display
  main : Main

inductive Actor (NT : ℕ) where
  | main
  | worker (worker : Fin NT)
  | display

variable {NT : ℕ}

/-- The worker has been created in a process that still runs. -/
def Main.Created : Main → Fin NT → Prop
  | .creating created, worker => worker < created
  | .join, _ => True
  | .full, _ => False

instance : (main : Main) → (worker : Fin NT) → Decidable (main.Created worker)
  | .creating created, worker => inferInstanceAs (Decidable (worker.val < created))
  | .join, _ => .isTrue trivial
  | .full, _ => .isFalse id

/-- One step of `main`: `NT` workers first, `Tdisplay` after them. -/
def State.mainStep (state : State NT) : Option (State NT) :=
  match state.main with
  | .creating created =>
      some { state with
        main := if created < NTHREAD then
            if created < NT then .creating (created + 1) else .join
          else .full }
  | .join | .full => none

def State.workerStep (state : State NT) (worker : Fin NT) : Option (State NT) :=
  if state.main.Created worker then do
    let (shared, own) ← Tworker NT (worker + 1) state.shared (state.workers worker)
    some { state with
      shared := shared
      workers := Function.update state.workers worker own }
  else none

def State.displayStep (state : State NT) : Option (State NT) :=
  match state.main with
  | .join => do some { state with display := ← Tdisplay NT state.shared state.display }
  | .creating _ | .full => none

def State.step (state : State NT) : Actor NT → Option (State NT)
  | .main => state.mainStep
  | .worker worker => state.workerStep worker
  | .display => state.displayStep

def initial (NT : ℕ) : State NT :=
  ⟨⟨fun _ _ => 0, 0⟩, fun _ => .pixel 0 0, .viu .start, .creating 0⟩

/-- Any interleaving of `main`, the workers and `Tdisplay`. -/
def program (NT : ℕ) : System (State NT) (Actor NT) :=
  .ofPartial (fun state => state = initial NT) State.step

/-! ## The counting of the workers -/

def Point.phase : Point → Phase
  | .store loaded => .loaded loaded
  | .returned => .stored
  | .pixel .. | .iterate .. | .load => .idle

/-- The increments of `done`, one per worker. -/
def State.counter (state : State NT) : Counter (Fin NT) :=
  ⟨state.shared.done, fun worker => (state.workers worker).phase⟩

/-- All workers have returned. -/
def State.Returned (state : State NT) : Prop := ∀ worker, state.workers worker = .returned

/-- A worker loads `done` only while no other one is between its load and its store. -/
def Alone (state : State NT) : Actor NT → Prop
  | .worker worker => state.workers worker = .load →
      ∀ other loaded, state.workers other ≠ .store loaded
  | .main | .display => True

theorem Point.phase_eq_loaded {point : Point} {loaded : ℕ} :
    point.phase = .loaded loaded ↔ point = .store loaded := by
  cases point <;> simp [Point.phase]

theorem Point.phase_eq_stored {point : Point} : point.phase = .stored ↔ point = .returned := by
  cases point <;> simp [Point.phase]

theorem joined_iff {state : State NT} : state.counter.Joined ↔ state.Returned :=
  forall_congr' fun _ => Point.phase_eq_stored

theorem pending_iff {state : State NT} {worker : Fin NT} :
    state.counter.Pending worker ↔ ∃ loaded, state.workers worker = .store loaded :=
  exists_congr fun _ => Point.phase_eq_loaded

/-- What a step of a worker does to `done` and to its own part of the count. -/
theorem Tworker_cases {tid : ℤ} {shared shared' : Shared} {own own' : Point}
    (hstep : Tworker NT tid shared own = some (shared', own')) :
    (own ≠ .load ∧ shared'.done = shared.done ∧ own.phase = .idle ∧ own'.phase = .idle) ∨
      (own = .load ∧ shared'.done = shared.done ∧ own' = .store shared.done) ∨
      (∃ loaded, own = .store loaded ∧ shared'.done = loaded + 1 ∧ own' = .returned) := by
  cases own with
  | pixel i j =>
      left
      simp only [Tworker, Option.bind_eq_bind] at hstep
      split_ifs at hstep with hi hj
      · obtain ⟨own, -, hown⟩ := Option.bind_eq_some_iff.mp hstep
        cases hown
        refine ⟨Point.noConfusion, rfl, rfl, ?_⟩
        cases own <;> rfl
      · cases hstep
        exact ⟨Point.noConfusion, rfl, rfl, rfl⟩
      · cases hstep
        exact ⟨Point.noConfusion, rfl, rfl, rfl⟩
  | iterate i j a b =>
      left
      simp only [Tworker] at hstep
      split_ifs at hstep
      all_goals
        cases hstep
        exact ⟨Point.noConfusion, rfl, rfl, rfl⟩
  | load =>
      cases hstep
      exact .inr (.inl ⟨rfl, rfl, rfl⟩)
  | store loaded =>
      cases hstep
      exact .inr (.inr ⟨loaded, rfl, rfl, rfl⟩)
  | returned => cases hstep

theorem counter_update (state : State NT) (worker : Fin NT) (shared : Shared) (own : Point) :
    State.counter { state with
      shared := shared
      workers := Function.update state.workers worker own } =
      ⟨shared.done, Function.update state.counter.phases worker own.phase⟩ := by
  have hphases : (fun other => (Function.update state.workers worker own other).phase) =
      Function.update state.counter.phases worker own.phase := by
    funext other
    exact Function.apply_update (fun _ => Point.phase) state.workers worker own other
  exact congrArg (Counter.mk shared.done) hphases

theorem workerStep_eq {before after : State NT} {worker : Fin NT}
    (hstep : before.workerStep worker = some after) :
    before.main.Created worker ∧ ∃ shared own,
      Tworker NT (worker + 1) before.shared (before.workers worker) = some (shared, own) ∧
      after = { before with
        shared := shared
        workers := Function.update before.workers worker own } := by
  unfold State.workerStep at hstep
  split_ifs at hstep with hcreated
  obtain ⟨next, hnext, hafter⟩ := Option.bind_eq_some_iff.mp hstep
  cases hafter
  exact ⟨hcreated, next.1, next.2, hnext, rfl⟩

theorem mainStep_eq {before after : State NT} (hstep : before.mainStep = some after) :
    ∃ main, after = { before with main := main } := by
  unfold State.mainStep at hstep
  split at hstep
  · cases hstep
    exact ⟨_, rfl⟩
  · cases hstep
  · cases hstep

theorem displayStep_eq {before after : State NT} (hstep : before.displayStep = some after) :
    before.main = .join ∧ ∃ display, Tdisplay NT before.shared before.display = some display ∧
      after = { before with display := display } := by
  unfold State.displayStep at hstep
  split at hstep
  · obtain ⟨display, hdisplay, hafter⟩ := Option.bind_eq_some_iff.mp hstep
    cases hafter
    exact ⟨by assumption, display, hdisplay, rfl⟩
  · cases hstep
  · cases hstep

/-- Every step of the program is one of the count or leaves it alone, and the loads of
the count are those of the workers. -/
theorem step_counter {before after : State NT} {actor : Actor NT}
    (hstep : before.step actor = some after) :
    (Alone before actor ∧ after.counter = before.counter) ∨
      (∃ worker, actor = .worker worker ∧ before.workers worker = .load ∧
        after.counter = before.counter.load worker) ∨
      (∃ worker loaded, Alone before actor ∧ before.workers worker = .store loaded ∧
        after.counter = before.counter.store worker loaded) := by
  cases actor with
  | main =>
      obtain ⟨main, rfl⟩ := mainStep_eq hstep
      exact .inl ⟨trivial, rfl⟩
  | display =>
      obtain ⟨-, display, -, rfl⟩ := displayStep_eq hstep
      exact .inl ⟨trivial, rfl⟩
  | worker worker =>
      obtain ⟨-, shared, own, hown, rfl⟩ := workerStep_eq hstep
      rw [counter_update]
      rcases Tworker_cases hown with ⟨hload, hdone, hidle, hidle'⟩ | ⟨hload, hdone, rfl⟩ |
        ⟨loaded, hstore, hdone, rfl⟩
      · left
        refine ⟨fun hat => absurd hat hload, ?_⟩
        have hsame : before.counter.phases worker = own.phase := hidle.trans hidle'.symm
        rw [← hsame, Function.update_eq_self, hdone]
        rfl
      · right; left
        refine ⟨worker, rfl, hload, ?_⟩
        rw [hdone]
        rfl
      · right; right
        refine ⟨worker, loaded, ?_, hstore, ?_⟩
        · intro hat
          rw [hstore] at hat
          cases hat
        · rw [hdone]
          rfl

section Count

variable {before after state : State NT} {actor : Actor NT} {labels : List (Actor NT)}

theorem idle_of_load {worker : Fin NT} (hload : before.workers worker = .load) :
    before.counter.phases worker = .idle := by
  show (before.workers worker).phase = .idle
  rw [hload]
  rfl

theorem loaded_of_store {worker : Fin NT} {loaded : ℕ}
    (hstore : before.workers worker = .store loaded) :
    before.counter.phases worker = .loaded loaded :=
  Point.phase_eq_loaded.mpr hstore

/-- The program refines the count. -/
theorem counter_step (hstep : before.step actor = some after) :
    after.counter = before.counter ∨ before.counter.Step after.counter := by
  rcases step_counter hstep with ⟨-, hsame⟩ | ⟨worker, -, hload, hafter⟩ |
    ⟨worker, loaded, -, hstore, hafter⟩
  · exact .inl hsame
  · right
    rw [hafter]
    exact .load worker (idle_of_load hload)
  · right
    rw [hafter]
    exact .store worker loaded (loaded_of_store hstore)

theorem sound_of_reachable (hreach : (program NT).Reachable state) : state.counter.Sound := by
  apply System.invariant_of_step (I := fun state => state.counter.Sound) ?_ ?_ hreach
  · rintro _ rfl
    exact Counter.fresh_sound
  · intro before actor after _ hsound hstep
    rcases counter_step hstep with hsame | hcount
    · rwa [hsame]
    · exact hsound.step hcount

theorem clean_step (hclean : before.counter.Clean) (halone : Alone before actor)
    (hstep : before.step actor = some after) : after.counter.Clean := by
  rcases step_counter hstep with ⟨-, hsame⟩ | ⟨worker, rfl, hload, hafter⟩ |
    ⟨worker, loaded, -, hstore, hafter⟩
  · rwa [hsame]
  · rw [hafter]
    refine hclean.load (idle_of_load hload) ?_
    intro other hpending
    obtain ⟨loaded, hloaded⟩ := pending_iff.mp hpending
    exact halone hload other loaded hloaded
  · rw [hafter]
    exact hclean.store (loaded_of_store hstore)

theorem lost_step (hsound : before.counter.Sound) (hlost : before.counter.Lost)
    (hstep : before.step actor = some after) : after.counter.Lost := by
  rcases counter_step hstep with hsame | hcount
  · rwa [hsame]
  · exact hlost.step hsound hcount

/-- A step that is not alone loads beside a pending store. -/
theorem lost_of_not_alone (halone : ¬ Alone before actor)
    (hstep : before.step actor = some after) : after.counter.Lost := by
  rcases step_counter hstep with ⟨hyes, -⟩ | ⟨worker, rfl, hload, hafter⟩ |
    ⟨_, _, hyes, -⟩
  · exact absurd hyes halone
  · rw [hafter]
    simp only [Alone, not_forall, not_not] at halone
    obtain ⟨-, other, loaded, hstore⟩ := halone
    have hother : other ≠ worker := by
      rintro rfl
      rw [hload] at hstore
      cases hstore
    exact Counter.Lost.of_load hother (pending_iff.mpr ⟨loaded, hstore⟩)
  · exact absurd hyes halone

theorem clean_of_alone
    (hrun : ((program NT).guard Alone).Run (initial NT) labels state) :
    state.counter.Clean := by
  apply hrun.preserves (P := fun state => state.counter.Clean) ?_ Counter.fresh_clean
  exact fun before actor after hclean hstep => clean_step hclean hstep.1 hstep.2

/-- A run that was not alone everywhere has lost an increment. -/
theorem alone_or_lost (hrun : (program NT).Run (initial NT) labels state) :
    ((program NT).guard Alone).Run (initial NT) labels state ∨ state.counter.Lost := by
  induction hrun with
  | nil => exact .inl System.Run.nil
  | @snoc _ before after actor hbefore hstep ih =>
      have hsound := sound_of_reachable ⟨_, _, rfl, hbefore⟩
      by_cases halone : Alone before actor
      · exact ih.imp (fun hguard => hguard.snoc ⟨halone, hstep⟩)
          fun hlost => lost_step hsound hlost hstep
      · exact .inr (lost_of_not_alone halone hstep)

/-- When all workers have returned, `done` is `NT` exactly after the runs in which
every load was alone. -/
theorem done_eq_iff (hrun : (program NT).Run (initial NT) labels state)
    (hreturned : state.Returned) :
    state.shared.done = NT ↔ ((program NT).guard Alone).Run (initial NT) labels state := by
  have hjoined := joined_iff.mpr hreturned
  constructor
  · intro hdone
    refine (alone_or_lost hrun).resolve_right fun hlost => hlost.count_ne_card hjoined ?_
    rw [Fintype.card_fin]
    exact hdone
  · intro halone
    have hcount := (clean_of_alone halone).count_eq_card hjoined
    rwa [Fintype.card_fin] at hcount

end Count

/-! ## The exit of the display thread -/

/-- Behind the loop of `Tdisplay`. -/
def Display.Ended : Display → Prop
  | .image _ | .returned _ => True
  | .viu _ | .test | .usleep => False

/-- What `main` has created, and that `Tdisplay` does nothing before. -/
def State.Started (state : State NT) : Prop :=
  match state.main with
  | .creating created => created ≤ NT ∧ ¬ state.display.Ended
  | .join => NT < NTHREAD
  | .full => NTHREAD ≤ NT ∧ ¬ state.display.Ended

section Exit

variable {before after state : State NT} {actor : Actor NT} {labels : List (Actor NT)}

theorem Tdisplay_ended {shared : Shared} {display display' : Display}
    (hstep : Tdisplay NT shared display = some display') (hended : display'.Ended) :
    display.Ended ∨ shared.done = NT := by
  cases display with
  | viu frame =>
      cases hstep
      cases hframe : JyyOS.Mandelbrot.display (W / 256) shared.x frame <;>
        simp [hframe, Display.Ended] at hended
  | test =>
      right
      cases hstep
      by_contra hdone
      simp [hdone, Display.Ended] at hended
  | usleep =>
      cases hstep
      exact absurd hended id
  | image frame => exact .inl trivial
  | returned pixels => exact .inl trivial

theorem started_step (hstarted : before.Started) (hstep : before.step actor = some after) :
    after.Started := by
  cases actor with
  | worker worker =>
      obtain ⟨-, shared, own, -, rfl⟩ := workerStep_eq hstep
      exact hstarted
  | display =>
      obtain ⟨hmain, display, -, rfl⟩ := displayStep_eq hstep
      simp only [State.Started, hmain] at hstarted ⊢
      exact hstarted
  | main =>
      simp only [State.step, State.mainStep] at hstep
      cases hmain : before.main with
      | creating created =>
          simp only [State.Started, hmain] at hstarted
          simp only [hmain] at hstep
          cases hstep
          split_ifs with hroom hworkers
          · exact ⟨hworkers, hstarted.2⟩
          · exact (Nat.le_antisymm hstarted.1 (not_lt.mp hworkers)) ▸ hroom
          · exact ⟨(not_lt.mp hroom).trans hstarted.1, hstarted.2⟩
      | join => simp [hmain] at hstep
      | full => simp [hmain] at hstep

theorem started_of_reachable (hreach : (program NT).Reachable state) : state.Started := by
  apply System.invariant_of_step (I := State.Started) ?_ ?_ hreach
  · rintro _ rfl
    exact ⟨Nat.zero_le _, id⟩
  · exact fun before actor after _ hstarted hstep => started_step hstarted hstep

theorem not_worker_of_returned (hreturned : before.Returned) {worker : Fin NT} :
    before.workerStep worker ≠ some after := by
  intro hstep
  obtain ⟨-, shared, own, hown, -⟩ := workerStep_eq hstep
  rw [hreturned worker] at hown
  cases hown

/-- When all workers have returned, the picture and `done` stand still. -/
theorem returned_step (hreturned : before.Returned) (hstep : before.step actor = some after) :
    after.Returned ∧ after.shared = before.shared := by
  cases actor with
  | main =>
      obtain ⟨main, rfl⟩ := mainStep_eq hstep
      exact ⟨hreturned, rfl⟩
  | worker worker => exact absurd hstep (not_worker_of_returned hreturned)
  | display =>
      obtain ⟨-, display, -, rfl⟩ := displayStep_eq hstep
      exact ⟨hreturned, rfl⟩

theorem returned_run (hrun : (program NT).Run before labels after)
    (hreturned : before.Returned) :
    after.Returned ∧ after.shared = before.shared := by
  apply hrun.preserves (P := fun state => state.Returned ∧ state.shared = before.shared) ?_
    ⟨hreturned, rfl⟩
  rintro middle actor finish ⟨hmiddle, hshared⟩ hstep
  have hafter := returned_step hmiddle hstep
  exact ⟨hafter.1, hafter.2.trans hshared⟩

theorem returned_of_done (hreach : (program NT).Reachable state)
    (hdone : state.shared.done = NT) : state.Returned :=
  joined_iff.mp ((sound_of_reachable hreach).joined_of_count
    (hdone.trans (Fintype.card_fin NT).symm))

/-- `Tdisplay` leaves its loop only when all workers have returned. -/
theorem done_of_ended (hreach : (program NT).Reachable state) (hended : state.display.Ended) :
    state.shared.done = NT := by
  revert hended
  apply System.invariant_of_step
    (I := fun state : State NT => state.display.Ended → state.shared.done = NT) ?_ ?_ hreach
  · rintro _ rfl hended
    exact absurd hended id
  · intro before actor after hreach ih hstep hended
    cases actor with
    | main =>
        obtain ⟨main, rfl⟩ := mainStep_eq hstep
        exact ih hended
    | worker worker =>
        have hbefore : before.display.Ended := by
          obtain ⟨-, shared, own, -, rfl⟩ := workerStep_eq hstep
          exact hended
        exact absurd hstep (not_worker_of_returned (returned_of_done hreach (ih hbefore)))
    | display =>
        obtain ⟨-, display, hdisplay, rfl⟩ := displayStep_eq hstep
        exact (Tdisplay_ended hdisplay hended).elim ih id

theorem join_of_ended (hreach : (program NT).Reachable state) (hended : state.display.Ended) :
    NT < NTHREAD := by
  have hstarted := started_of_reachable hreach
  unfold State.Started at hstarted
  split at hstarted
  · exact absurd hended hstarted.2
  · exact hstarted
  · exact absurd hended hstarted.2

end Exit

/-! ## The image is written when `done == NT` -/

/-- The final image is written in some continuation of the run. -/
def State.Finishes (state : State NT) : Prop :=
  ∃ labels after pixels, (program NT).Run state labels after ∧
    after.display = .returned pixels

/-- `Tdisplay` gets from one point to another while nobody else moves. -/
def Draws (NT : ℕ) (shared : Shared) : Display → Display → Prop :=
  Relation.ReflTransGen fun before after => Tdisplay NT shared before = some after

section Finish

variable {shared : Shared} {state : State NT}

theorem draws_single {before after : Display} (hstep : Tdisplay NT shared before = some after) :
    Draws NT shared before after :=
  Relation.ReflTransGen.single hstep

/-- A call of `display` with a positive step ends. -/
theorem display_ends {step : ℕ} (hstep : 0 < step) (x : ℕ → ℕ → ℕ) (frame : Frame) :
    ∃ last, Relation.ReflTransGen (fun before after => display step x before = some after)
      frame last ∧ display step x last = none := by
  by_cases hj : frame.j < H
  · by_cases hi : frame.i < W
    · have hnext : display step x frame =
          some ⟨frame.i + step, frame.j, frame.pixels ++ [x frame.i frame.j]⟩ := by
        rw [display, if_pos hj, if_pos hi]
      obtain ⟨last, hlast, hend⟩ := display_ends hstep x
        ⟨frame.i + step, frame.j, frame.pixels ++ [x frame.i frame.j]⟩
      exact ⟨last, hlast.head hnext, hend⟩
    · have hnext : display step x frame = some ⟨0, frame.j + step, frame.pixels⟩ := by
        rw [display, if_pos hj, if_neg hi]
      obtain ⟨last, hlast, hend⟩ := display_ends hstep x ⟨0, frame.j + step, frame.pixels⟩
      exact ⟨last, hlast.head hnext, hend⟩
  · exact ⟨frame, .refl, if_neg hj⟩
termination_by (H - frame.j, W - frame.i)

theorem draws_frame (frame : Frame) {step : ℕ} (hstep : 0 < step)
    (wrap finish : Frame → Display)
    (hdisplay : ∀ frame, Tdisplay NT shared (wrap frame) =
      some ((display step shared.x frame).elim (finish frame) wrap)) :
    ∃ last, Draws NT shared (wrap frame) (finish last) := by
  obtain ⟨last, hlast, hend⟩ := display_ends hstep shared.x frame
  have hlift : Draws NT shared (wrap frame) (wrap last) := by
    apply hlast.lift wrap
    intro before after hnext
    show Tdisplay NT shared (wrap before) = some (wrap after)
    rw [hdisplay, hnext]
    rfl
  refine ⟨last, hlift.trans (draws_single ?_)⟩
  rw [hdisplay, hend]
  rfl

/-- Once `done` is `NT`, `Tdisplay` leaves its loop from wherever it is. -/
theorem draws_returned (hdone : shared.done = NT) (display : Display) :
    ∃ pixels, Draws NT shared display (.returned pixels) := by
  have himage : ∀ frame, ∃ pixels, Draws NT shared (.image frame) (.returned pixels) := by
    intro frame
    have hframe : ∃ last, Draws NT shared (.image frame) (.returned (Frame.pixels last)) :=
      draws_frame frame two_pos .image (fun last => .returned last.pixels) fun _ => rfl
    exact hframe.imp' Frame.pixels fun _ => id
  have htest : ∃ pixels, Draws NT shared .test (.returned pixels) := by
    obtain ⟨pixels, hpixels⟩ := himage .start
    have hleave : Tdisplay NT shared .test = some (.image .start) := by
      rw [Tdisplay, if_pos hdone]
    exact ⟨pixels, (draws_single hleave).trans hpixels⟩
  have hviu : ∀ frame, ∃ pixels, Draws NT shared (.viu frame) (.returned pixels) := by
    intro frame
    obtain ⟨_, hframe⟩ : ∃ _last : Frame, Draws NT shared (.viu frame) .test :=
      draws_frame frame (by decide : 0 < W / 256) .viu (fun _ => .test) fun _ => rfl
    exact htest.imp fun _ => hframe.trans
  cases display with
  | viu frame => exact hviu frame
  | test => exact htest
  | usleep =>
      obtain ⟨pixels, hpixels⟩ := hviu .start
      exact ⟨pixels, (draws_single rfl).trans hpixels⟩
  | image frame => exact himage frame
  | returned pixels => exact ⟨pixels, .refl⟩

theorem run_of_draws (state : State NT) {display display' : Display} (hjoin : state.main = .join)
    (hdraws : Draws NT state.shared display display') :
    ∃ labels, (program NT).Run { state with display := display } labels
      { state with display := display' } := by
  induction hdraws with
  | refl => exact ⟨[], System.Run.nil⟩
  | @tail before after _ hstep ih =>
      obtain ⟨labels, hrun⟩ := ih
      refine ⟨labels ++ [.display], hrun.snoc ?_⟩
      show State.displayStep _ = _
      simp only [State.displayStep, hjoin, hstep]
      rfl

/-- `main` gets to its `join` by itself when the pool is large enough. -/
theorem run_to_join (hNT : NT < NTHREAD) (state : State NT) {created : ℕ}
    (hcreated : created ≤ NT) (hmain : state.main = .creating created) :
    ∃ labels, (program NT).Run state labels { state with main := .join } := by
  have hstep : ∀ {next : Main}, (if created < NT then .creating (created + 1) else .join) = next →
      (program NT).step state .main { state with main := next } := by
    rintro next rfl
    show state.mainStep = _
    simp only [State.mainStep, hmain, if_pos (hcreated.trans_lt hNT)]
  by_cases hlt : created < NT
  · obtain ⟨labels, hrun⟩ := run_to_join hNT
      { state with main := .creating (created + 1) } hlt rfl
    exact ⟨_, (System.Run.single (hstep (if_pos hlt))).append hrun⟩
  · exact ⟨_, System.Run.single (hstep (if_neg hlt))⟩
termination_by NT - created

theorem finishes_of_done (hNT : NT < NTHREAD) (hreach : (program NT).Reachable state)
    (hdone : state.shared.done = NT) : state.Finishes := by
  have hstarted := started_of_reachable hreach
  have hjoin : ∃ labels, (program NT).Run state labels { state with main := .join } := by
    cases hmain : state.main with
    | creating created =>
        simp only [State.Started, hmain] at hstarted
        exact run_to_join hNT state hstarted.1 hmain
    | join =>
        rw [← hmain]
        exact ⟨[], System.Run.nil⟩
    | full =>
        simp only [State.Started, hmain] at hstarted
        exact absurd hNT (not_lt.mpr hstarted.1)
  obtain ⟨labels, hrun⟩ := hjoin
  obtain ⟨pixels, hdraws⟩ := draws_returned hdone state.display
  obtain ⟨more, hmore⟩ := run_of_draws { state with main := .join } rfl hdraws
  exact ⟨_, _, pixels, hrun.append hmore, rfl⟩

theorem done_of_finishes (hreach : (program NT).Reachable state) (hreturned : state.Returned)
    (hfinishes : state.Finishes) : NT < NTHREAD ∧ state.shared.done = NT := by
  obtain ⟨labels, after, pixels, hrun, hafter⟩ := hfinishes
  have hended : after.display.Ended := hafter ▸ trivial
  have hreach' := hreach.run hrun
  refine ⟨join_of_ended hreach' hended, ?_⟩
  rw [← (returned_run hrun hreturned).2]
  exact done_of_ended hreach' hended

end Finish

/-! ## A worker that is left alone -/

/-- The worker `tid` gets from one point to another without touching `done`, whatever
the picture is. -/
def Works (NT : ℕ) (tid : ℤ) (own own' : Point) : Prop :=
  ∀ shared, ∃ shared' : Shared, shared'.done = shared.done ∧
    Relation.ReflTransGen (fun before after => Tworker NT tid before.1 before.2 = some after)
      (shared, own) (shared', own')

section Works

variable {tid : ℤ}

theorem Works.trans {first second third : Point} (hfirst : Works NT tid first second)
    (hsecond : Works NT tid second third) : Works NT tid first third := by
  intro shared
  obtain ⟨middle, hmiddle, hto⟩ := hfirst shared
  obtain ⟨finish, hfinish, hon⟩ := hsecond middle
  exact ⟨finish, hfinish.trans hmiddle, hto.trans hon⟩

theorem works_single {own own' : Point}
    (hstep : ∀ shared, Tworker NT tid shared own = some (shared, own')) :
    Works NT tid own own' :=
  fun shared => ⟨shared, rfl, .single (hstep shared)⟩

/-- The inner loop ends, as it counts in the pixel up to 881. -/
theorem iterate_ends (k i j : ℕ) (a b : Float) (shared : Shared)
    (hk : 880 ≤ shared.x i j + k) :
    ∃ shared' : Shared, shared'.done = shared.done ∧
      Relation.ReflTransGen (fun before after => Tworker NT tid before.1 before.2 = some after)
        (shared, .iterate i j a b) (shared', .pixel i (j + 1)) := by
  by_cases hinside : a * a + b * b < 4
  · by_cases hbound : shared.x i j < 880
    · cases k with
      | zero => omega
      | succ k =>
          have hcount : (shared.count i j).x i j = shared.x i j + 1 := by
            simp [Shared.count]
          obtain ⟨finish, hfinish, hruns⟩ := iterate_ends k i j
            (a * a - b * b + Float.ofNat i * 1024.0 / Float.ofNat W * 8e-9 + 0.356888)
            (2 * a * b + Float.ofNat j * 1024.0 / Float.ofNat H * 8e-9 - 0.645411)
            (shared.count i j) (by omega)
          refine ⟨finish, hfinish, hruns.head ?_⟩
          simp only [Tworker, if_pos hinside, if_pos hbound]
    · refine ⟨shared.count i j, rfl, .single ?_⟩
      simp only [Tworker, if_pos hinside, if_neg hbound]
  · refine ⟨shared, rfl, .single ?_⟩
    simp only [Tworker, if_neg hinside]

theorem works_pixel {i j : ℕ} (hi : i < W) (hj : j < H)
    (hbelongs : (belongs W NT i j (tid - 1)).isSome) :
    Works NT tid (.pixel i j) (.pixel i (j + 1)) := by
  obtain ⟨own, hown⟩ := Option.isSome_iff_exists.mp hbelongs
  have hstep : ∀ shared, Tworker NT tid shared (.pixel i j) =
      some (shared, if own then .iterate i j 0 0 else .pixel i (j + 1)) := by
    intro shared
    simp only [Tworker, if_pos hi, if_pos hj, hown]
    rfl
  cases own with
  | true =>
      refine (works_single hstep).trans ?_
      exact fun shared => iterate_ends 880 i j 0 0 shared (Nat.le_add_left _ _)
  | false => exact works_single hstep

theorem works_column {i j : ℕ} (hi : i < W) (k : ℕ) (hk : j + k = H)
    (hbelongs : ∀ j : ℕ, (belongs W NT i j (tid - 1)).isSome) :
    Works NT tid (.pixel i j) (.pixel (i + 1) 0) := by
  induction k generalizing j with
  | zero =>
      have hend : ¬ j < H := by omega
      apply works_single
      intro shared
      simp only [Tworker, if_pos hi, if_neg hend]
  | succ k ih =>
      exact (works_pixel hi (by omega) (hbelongs j)).trans (ih (by omega))

theorem works_columns {i : ℕ} (k : ℕ) (hk : i + k = W)
    (hbelongs : ∀ i j : ℕ, (belongs W NT i j (tid - 1)).isSome) :
    Works NT tid (.pixel i 0) .load := by
  induction k generalizing i with
  | zero =>
      have hend : ¬ i < W := by omega
      apply works_single
      intro shared
      simp only [Tworker, if_neg hend]
  | succ k ih =>
      exact (works_column (by omega) H (Nat.zero_add H) (hbelongs i)).trans (ih (by omega))

/-- With at least one column a worker, a worker comes to its `done++`. -/
theorem works_load (hpos : 1 ≤ NT) (hNT : NT ≤ W) : Works NT tid (.pixel 0 0) .load := by
  apply works_columns W (Nat.zero_add W)
  intro i j
  rw [belongs_eq (by omega) (by omega) (by omega)]
  rfl

theorem run_of_works (state : State NT) {worker : Fin NT} {own : Point}
    (hcreated : state.main.Created worker)
    (hworks : Works NT (worker + 1) (state.workers worker) own) :
    ∃ labels shared, shared.done = state.shared.done ∧
      (program NT).Run state labels { state with
        shared := shared
        workers := Function.update state.workers worker own } := by
  obtain ⟨shared, hdone, hsteps⟩ := hworks state.shared
  suffices hrun : ∀ finish, Relation.ReflTransGen
      (fun before after => Tworker NT (worker + 1) before.1 before.2 = some after)
      (state.shared, state.workers worker) finish →
      ∃ labels, (program NT).Run state labels { state with
        shared := finish.1
        workers := Function.update state.workers worker finish.2 } by
    obtain ⟨labels, hlabels⟩ := hrun _ hsteps
    exact ⟨labels, shared, hdone, hlabels⟩
  intro finish hfinish
  induction hfinish with
  | refl =>
      refine ⟨[], ?_⟩
      rw [Function.update_eq_self]
      exact System.Run.nil
  | @tail before after _ hstep ih =>
      obtain ⟨labels, hlabels⟩ := ih
      refine ⟨labels ++ [.worker worker], hlabels.snoc ?_⟩
      show State.workerStep _ worker = _
      simp only [State.workerStep, if_pos hcreated, Function.update_self, hstep]
      simp only [Option.bind_eq_bind, Option.bind_some, Function.update_idem]

/-- All workers can come to their `done++` before any of them loads. -/
theorem run_to_loads (hpos : 1 ≤ NT) (hNT : NT < NTHREAD) :
    ∃ labels shared, shared.done = 0 ∧
      (program NT).Run (initial NT) labels ⟨shared, fun _ => .load, .viu .start, .join⟩ := by
  suffices hsome : ∀ k ≤ NT, ∃ labels shared, shared.done = 0 ∧
      (program NT).Run (initial NT) labels
        ⟨shared, fun worker => if worker < k then .load else .pixel 0 0, .viu .start, .join⟩ by
    obtain ⟨labels, shared, hdone, hrun⟩ := hsome NT le_rfl
    refine ⟨labels, shared, hdone, ?_⟩
    simpa only [Fin.is_lt, if_true] using hrun
  intro k
  induction k with
  | zero =>
      intro _
      obtain ⟨labels, hrun⟩ := run_to_join hNT (initial NT) (Nat.zero_le NT) rfl
      refine ⟨labels, (initial NT).shared, rfl, ?_⟩
      simp only [Nat.not_lt_zero, if_false]
      exact hrun
  | succ k ih =>
      intro hk
      obtain ⟨labels, shared, hdone, hrun⟩ := ih (by omega)
      have hworks : Works NT ((⟨k, hk⟩ : Fin NT) + 1)
          (if (⟨k, hk⟩ : Fin NT) < k then .load else .pixel 0 0) .load := by
        rw [if_neg (lt_irrefl k)]
        exact works_load hpos (hNT.le.trans (by decide))
      obtain ⟨more, shared', hdone', hmore⟩ := run_of_works
        ⟨shared, fun worker => if worker < k then .load else .pixel 0 0, .viu .start, .join⟩
        trivial hworks
      refine ⟨labels ++ more, shared', hdone'.trans hdone, ?_⟩
      have hworkers : Function.update
          (fun worker : Fin NT => if worker < k then Point.load else .pixel 0 0) ⟨k, hk⟩ .load =
          fun worker : Fin NT => if worker < k + 1 then Point.load else .pixel 0 0 := by
        funext worker
        by_cases hworker : worker = ⟨k, hk⟩
        · subst hworker
          rw [Function.update_self, if_pos (Nat.lt_succ_self k)]
        · have hne : worker.val ≠ k := fun heq => hworker (Fin.ext heq)
          rw [Function.update_of_ne hworker]
          exact if_congr (by omega) rfl rfl
      rw [← hworkers]
      exact hrun.append hmore

/-- The second worker loads `done` after the first one has stored it. -/
theorem run_in_turn : ∃ labels state, (program 2).Run (initial 2) labels state ∧
    state.Returned ∧ state.shared.done = 2 := by
  obtain ⟨labels, shared, hdone, hrun⟩ := run_to_loads one_le_two (by decide : 2 < NTHREAD)
  have hcount : (program 2).Run ⟨shared, fun _ => .load, .viu .start, .join⟩
      [.worker 0, .worker 0, .worker 1, .worker 1] ⟨{ shared with done := shared.done + 1 + 1 },
        Function.update (Function.update (Function.update (Function.update (fun _ => .load)
          0 (.store shared.done)) 0 .returned) 1 (.store (shared.done + 1))) 1 .returned,
        .viu .start, .join⟩ :=
    System.run_of_foldlM _ rfl
  refine ⟨_, _, hrun.append hcount, ?_, congrArg (· + 1 + 1) hdone⟩
  intro worker
  fin_cases worker
  · rfl
  · rfl

/-- Both workers load `done` before one of them stores it. -/
theorem run_two : ∃ labels state, (program 2).Run (initial 2) labels state ∧
    state.Returned ∧ state.shared.done = 1 := by
  obtain ⟨labels, shared, hdone, hrun⟩ := run_to_loads one_le_two (by decide : 2 < NTHREAD)
  have hcount : (program 2).Run ⟨shared, fun _ => .load, .viu .start, .join⟩
      [.worker 0, .worker 1, .worker 0, .worker 1] ⟨{ shared with done := shared.done + 1 },
        Function.update (Function.update (Function.update (Function.update (fun _ => .load)
          0 (.store shared.done)) 1 (.store shared.done)) 0 .returned) 1 .returned,
        .viu .start, .join⟩ :=
    System.run_of_foldlM _ rfl
  refine ⟨_, _, hrun.append hcount, ?_, congrArg Nat.succ hdone⟩
  intro worker
  fin_cases worker
  · rfl
  · rfl

end Works

/-- Whenever all workers have returned: `done` is `NT` and the final image gets written
exactly when the pool had room for `Tdisplay` and no worker has loaded `done` while
another one was between its load and its store. -/
theorem finishes_iff_alone (NT : ℕ) {labels : List (Actor NT)} {state : State NT}
    (hrun : (program NT).Run (initial NT) labels state) (hreturned : state.Returned) :
    (state.shared.done = NT ∧ state.Finishes) ↔
      (NT < NTHREAD ∧ ((program NT).guard Alone).Run (initial NT) labels state) := by
  have hreach : (program NT).Reachable state := ⟨_, _, rfl, hrun⟩
  constructor
  · rintro ⟨hdone, hfinishes⟩
    exact ⟨(done_of_finishes hreach hreturned hfinishes).1,
      (done_eq_iff hrun hreturned).mp hdone⟩
  · rintro ⟨hNT, halone⟩
    have hdone := (done_eq_iff hrun hreturned).mpr halone
    exact ⟨hdone, finishes_of_done hNT hreach hdone⟩

/-- Two workers in turn. -/
theorem exists_run_in_turn : ∃ labels state, (program 2).Run (initial 2) labels state ∧
    state.Returned ∧ state.shared.done = 2 ∧ state.Finishes ∧
    2 < NTHREAD ∧ ((program 2).guard Alone).Run (initial 2) labels state := by
  obtain ⟨labels, state, hrun, hreturned, hdone⟩ := run_in_turn
  have halone : 2 < NTHREAD ∧ ((program 2).guard Alone).Run (initial 2) labels state :=
    ⟨by decide, (done_eq_iff hrun hreturned).mp hdone⟩
  obtain ⟨-, hfinishes⟩ := (finishes_iff_alone 2 hrun hreturned).mpr halone
  exact ⟨labels, state, hrun, hreturned, hdone, hfinishes, halone⟩

/-- Two workers that both load 0 leave `done` at 1, and `Tdisplay` goes on for ever. -/
theorem exists_lost_increment : ∃ state, (program 2).Reachable state ∧ state.Returned ∧
    state.shared.done = 1 ∧ ¬ state.Finishes := by
  obtain ⟨labels, state, hrun, hreturned, hdone⟩ := run_two
  have hreach : (program 2).Reachable state := ⟨_, _, rfl, hrun⟩
  refine ⟨state, hreach, hreturned, hdone, ?_⟩
  intro hfinishes
  have htwo := (done_of_finishes hreach hreturned hfinishes).2
  exact absurd (hdone.symm.trans htwo) (by decide)

end JyyOS.Mandelbrot
