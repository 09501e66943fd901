import JyyOS.Core.ThreadSum

/-!
# One unlocked increment per thread

Every thread adds 1 to a shared counter once, by a load and a later store.  This
module says what the counter is worth when all threads have stored: it has the
number of threads exactly as long as no thread loads while another one is between
its load and its store, and one such load costs at least one increment for good.
-/

namespace JyyOS.LostUpdate

variable {Thread : Type*} [Fintype Thread] [DecidableEq Thread]

/-- What a thread has done of its increment. -/
inductive Phase where
  | idle
  | loaded (value : ℕ)
  | stored
deriving DecidableEq

structure Counter (Thread : Type*) where
  count : ℕ
  phases : Thread → Phase

namespace Counter

def load (counter : Counter Thread) (thread : Thread) : Counter Thread :=
  ⟨counter.count, Function.update counter.phases thread (.loaded counter.count)⟩

def store (counter : Counter Thread) (thread : Thread) (value : ℕ) : Counter Thread :=
  ⟨value + 1, Function.update counter.phases thread .stored⟩

/-- One step of a thread. -/
inductive Step (counter : Counter Thread) : Counter Thread → Prop
  | load (thread : Thread) (hidle : counter.phases thread = .idle) :
      Step counter (counter.load thread)
  | store (thread : Thread) (value : ℕ) (hloaded : counter.phases thread = .loaded value) :
      Step counter (counter.store thread value)

/-- The thread is between its load and its store. -/
def Pending (counter : Counter Thread) (thread : Thread) : Prop :=
  ∃ value, counter.phases thread = .loaded value

/-- All threads have stored. -/
def Joined (counter : Counter Thread) : Prop := ∀ thread, counter.phases thread = .stored

def weight : Phase → ℕ
  | .stored => 1
  | _ => 0

/-- The number of stores so far. -/
def stores (counter : Counter Thread) : ℕ := ∑ thread, weight (counter.phases thread)

/-! ## The number of stores -/

section Stores

variable {counter : Counter Thread} {thread other : Thread} {value : ℕ}

theorem stores_load (hidle : counter.phases thread = .idle) :
    (counter.load thread).stores = counter.stores := by
  apply ThreadSum.sum_update_eq (fun _ => weight)
  rw [hidle]
  rfl

theorem stores_store (hloaded : counter.phases thread = .loaded value) :
    (counter.store thread value).stores = counter.stores + 1 := by
  have hsum := ThreadSum.sum_update (fun _ => weight) counter.phases thread .stored
  rwa [hloaded] at hsum

theorem weight_le_one (phase : Phase) : weight phase ≤ 1 := by
  cases phase with
  | idle => exact Nat.zero_le 1
  | loaded value => exact Nat.zero_le 1
  | stored => exact le_refl 1

omit [DecidableEq Thread] in
theorem stores_le_card (counter : Counter Thread) :
    counter.stores ≤ Fintype.card Thread :=
  calc counter.stores
      ≤ ∑ _ : Thread, 1 := Finset.sum_le_sum fun thread _ => weight_le_one _
    _ = Fintype.card Thread := by simp

omit [DecidableEq Thread] in
/-- The number of stores reaches the number of threads with the last one. -/
theorem stores_eq_card_iff (counter : Counter Thread) :
    counter.stores = Fintype.card Thread ↔ counter.Joined := by
  have hcard : Fintype.card Thread = ∑ _ : Thread, 1 := by simp
  rw [hcard, stores, Finset.sum_eq_sum_iff_of_le fun thread _ => weight_le_one _]
  constructor
  · intro hall thread
    have hone := hall thread (Finset.mem_univ thread)
    cases hphase : counter.phases thread with
    | idle => simp [hphase, weight] at hone
    | loaded value => simp [hphase, weight] at hone
    | stored => rfl
  · intro hjoined thread _
    rw [hjoined thread]
    rfl

end Stores

/-! ## What every step keeps -/

/-- No value read so far is above the number of stores. -/
structure Sound (counter : Counter Thread) : Prop where
  count_le : counter.count ≤ counter.stores
  loaded_le : ∀ thread value, counter.phases thread = .loaded value →
    value ≤ counter.stores

/-- No increment is lost: the counter counts the stores, and a thread between its
load and its store is alone there with the right value. -/
structure Clean (counter : Counter Thread) : Prop where
  count_eq : counter.count = counter.stores
  fresh : ∀ thread value, counter.phases thread = .loaded value → value = counter.stores
  alone : ∀ thread other, counter.Pending thread → counter.Pending other → thread = other

/-- An increment is lost: whichever thread stores last, it stores too small a
value. -/
structure Lost (counter : Counter Thread) : Prop where
  stale : ∀ thread value, counter.phases thread = .loaded value →
    value < counter.stores ∨ ∃ other, other ≠ thread ∧ counter.Pending other
  count_lt : (∀ thread, ¬ counter.Pending thread) → counter.count < counter.stores

section Update

omit [Fintype Thread]

variable {counter : Counter Thread} {thread other : Thread} {value loaded : ℕ}

theorem load_self (counter : Counter Thread) (thread : Thread) :
    (counter.load thread).phases thread = .loaded counter.count :=
  Function.update_self ..

theorem load_other (hother : other ≠ thread) :
    (counter.load thread).phases other = counter.phases other :=
  Function.update_of_ne hother ..

theorem store_self (counter : Counter Thread) (thread : Thread) (value : ℕ) :
    (counter.store thread value).phases thread = .stored :=
  Function.update_self ..

theorem store_other (hother : other ≠ thread) :
    (counter.store thread value).phases other = counter.phases other :=
  Function.update_of_ne hother ..

theorem ne_of_loaded_store
    (hloaded : (counter.store thread value).phases other = .loaded loaded) :
    other ≠ thread := by
  rintro rfl
  rw [store_self] at hloaded
  cases hloaded

theorem pending_load_self (counter : Counter Thread) (thread : Thread) :
    (counter.load thread).Pending thread :=
  ⟨_, load_self counter thread⟩

theorem pending_load (hother : other ≠ thread) :
    (counter.load thread).Pending other ↔ counter.Pending other := by
  rw [Pending, Pending, load_other hother]

theorem pending_store :
    (counter.store thread value).Pending other ↔ other ≠ thread ∧ counter.Pending other := by
  constructor
  · rintro ⟨loaded, hloaded⟩
    have hne := ne_of_loaded_store hloaded
    exact ⟨hne, loaded, (store_other hne).symm.trans hloaded⟩
  · rintro ⟨hne, loaded, hloaded⟩
    exact ⟨loaded, (store_other hne).trans hloaded⟩

/-- What a thread has loaded after a load. -/
theorem loaded_load (hloaded : (counter.load thread).phases other = .loaded loaded) :
    (other = thread ∧ loaded = counter.count) ∨
      (other ≠ thread ∧ counter.phases other = .loaded loaded) := by
  by_cases hother : other = thread
  · subst hother
    rw [load_self] at hloaded
    exact .inl ⟨rfl, (Phase.loaded.inj hloaded).symm⟩
  · exact .inr ⟨hother, (load_other hother).symm.trans hloaded⟩

end Update

section Steps

variable {counter after : Counter Thread} {thread other : Thread} {value : ℕ}

theorem Sound.step (hsound : counter.Sound) (hstep : counter.Step after) : after.Sound := by
  cases hstep with
  | load thread hidle =>
      refine ⟨?_, ?_⟩
      · rw [stores_load hidle]
        exact hsound.count_le
      · intro other loaded hloaded
        rw [stores_load hidle]
        rcases loaded_load hloaded with ⟨-, rfl⟩ | ⟨-, hbefore⟩
        · exact hsound.count_le
        · exact hsound.loaded_le other loaded hbefore
  | store thread value hvalue =>
      refine ⟨?_, ?_⟩
      · rw [stores_store hvalue]
        exact Nat.succ_le_succ (hsound.loaded_le thread value hvalue)
      · intro other loaded hloaded
        rw [store_other (ne_of_loaded_store hloaded)] at hloaded
        rw [stores_store hvalue]
        exact (hsound.loaded_le other loaded hloaded).trans (Nat.le_succ _)

/-- A load while no other thread is between its load and its store. -/
theorem Clean.load (hclean : counter.Clean) (hidle : counter.phases thread = .idle)
    (halone : ∀ other, ¬ counter.Pending other) : (counter.load thread).Clean := by
  have honly : ∀ other, (counter.load thread).Pending other → other = thread := by
    intro other hpending
    by_contra hother
    exact halone other ((pending_load hother).mp hpending)
  refine ⟨?_, ?_, ?_⟩
  · rw [stores_load hidle]
    exact hclean.count_eq
  · intro other loaded hloaded
    rw [stores_load hidle]
    rcases loaded_load hloaded with ⟨-, rfl⟩ | ⟨-, hbefore⟩
    · exact hclean.count_eq
    · exact hclean.fresh other loaded hbefore
  · intro first second hfirst hsecond
    rw [honly first hfirst, honly second hsecond]

theorem Clean.store (hclean : counter.Clean)
    (hvalue : counter.phases thread = .loaded value) : (counter.store thread value).Clean := by
  have hnone : ∀ other, ¬ (counter.store thread value).Pending other := by
    intro other hpending
    have hbefore := pending_store.mp hpending
    exact hbefore.1 (hclean.alone other thread hbefore.2 ⟨value, hvalue⟩)
  refine ⟨?_, ?_, ?_⟩
  · rw [stores_store hvalue]
    exact congrArg Nat.succ (hclean.fresh thread value hvalue)
  · exact fun other loaded hloaded => absurd ⟨loaded, hloaded⟩ (hnone other)
  · exact fun first _ hfirst _ => absurd hfirst (hnone first)

/-- A load while another thread is between its load and its store loses an
increment. -/
theorem Lost.of_load (hother : other ≠ thread) (hpending : counter.Pending other) :
    (counter.load thread).Lost := by
  refine ⟨?_, ?_⟩
  · intro third value hloaded
    right
    rcases loaded_load hloaded with ⟨rfl, -⟩ | ⟨hne, -⟩
    · exact ⟨other, hother, (pending_load hother).mpr hpending⟩
    · exact ⟨thread, hne.symm, pending_load_self counter thread⟩
  · intro hnone
    exact absurd (pending_load_self counter thread) (hnone thread)

/-- The store of a thread leaves every other loaded value one further behind. -/
theorem Lost.step (hsound : counter.Sound) (hlost : counter.Lost)
    (hstep : counter.Step after) : after.Lost := by
  cases hstep with
  | load thread hidle =>
      by_cases hnone : ∀ other, ¬ counter.Pending other
      · refine ⟨?_, fun hafter => absurd (pending_load_self counter thread) (hafter thread)⟩
        intro other loaded hloaded
        rcases loaded_load hloaded with ⟨-, rfl⟩ | ⟨-, hbefore⟩
        · rw [stores_load hidle]
          exact .inl (hlost.count_lt hnone)
        · exact absurd ⟨loaded, hbefore⟩ (hnone other)
      · push Not at hnone
        obtain ⟨other, hpending⟩ := hnone
        have hother : other ≠ thread := by
          rintro rfl
          obtain ⟨value, hvalue⟩ := hpending
          rw [hidle] at hvalue
          cases hvalue
        exact Lost.of_load hother hpending
  | store thread value hvalue =>
      refine ⟨?_, ?_⟩
      · intro other loaded hloaded
        rw [store_other (ne_of_loaded_store hloaded)] at hloaded
        rw [stores_store hvalue]
        exact .inl (Nat.lt_succ_of_le (hsound.loaded_le other loaded hloaded))
      · intro hnone
        rw [stores_store hvalue]
        rcases hlost.stale thread value hvalue with hlt | ⟨other, hother, hpending⟩
        · exact Nat.succ_lt_succ hlt
        · exact absurd (pending_store.mpr ⟨hother, hpending⟩) (hnone other)

end Steps

/-! ## When all threads have stored -/

section Joined

omit [DecidableEq Thread]

theorem Clean.count_eq_card {counter : Counter Thread} (hclean : counter.Clean)
    (hjoined : counter.Joined) : counter.count = Fintype.card Thread :=
  hclean.count_eq.trans (counter.stores_eq_card_iff.mpr hjoined)

theorem Lost.count_ne_card {counter : Counter Thread} (hlost : counter.Lost)
    (hjoined : counter.Joined) : counter.count ≠ Fintype.card Thread := by
  have hnone : ∀ thread, ¬ counter.Pending thread := by
    rintro thread ⟨value, hvalue⟩
    rw [hjoined thread] at hvalue
    cases hvalue
  rw [← counter.stores_eq_card_iff.mpr hjoined]
  exact (hlost.count_lt hnone).ne

/-- The counter reaches the number of threads only when all have stored. -/
theorem Sound.joined_of_count {counter : Counter Thread} (hsound : counter.Sound)
    (hcount : counter.count = Fintype.card Thread) : counter.Joined :=
  counter.stores_eq_card_iff.mp
    (le_antisymm counter.stores_le_card (hcount ▸ hsound.count_le))

/-- Before the first load. -/
def fresh : Counter Thread := ⟨0, fun _ => .idle⟩

theorem fresh_stores : (fresh : Counter Thread).stores = 0 := by
  simp [stores, fresh, weight]

omit [Fintype Thread] in
theorem fresh_not_loaded {thread : Thread} {value : ℕ} :
    (fresh : Counter Thread).phases thread ≠ .loaded value := by
  simp [fresh]

theorem fresh_clean : (fresh : Counter Thread).Clean := by
  refine ⟨fresh_stores.symm, ?_, ?_⟩
  · exact fun thread value hloaded => absurd hloaded fresh_not_loaded
  · rintro thread _ ⟨value, hloaded⟩ _
    exact absurd hloaded fresh_not_loaded

theorem fresh_sound : (fresh : Counter Thread).Sound :=
  ⟨Nat.zero_le _, fun _ _ hloaded => absurd hloaded fresh_not_loaded⟩

end Joined

end Counter

end JyyOS.LostUpdate
