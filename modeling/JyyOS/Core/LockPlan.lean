import JyyOS.Core.Transition

/-!
# Threads that take locks and keep them

Every thread takes the locks of its plan in their order and gives all of them back at its
end.  A run can get stuck exactly when the plans have a jam: some threads, each with a
beginning of its plan, have no lock twice, and each of them goes on with a lock that one
of them has.  Plans in the order of the locks have none.
-/

namespace JyyOS.LockPlan

open Transition (System)

variable {Thread Lock : Type*} [Fintype Thread] [DecidableEq Thread] [DecidableEq Lock]

/-- How many locks of its plan each thread has taken, `none` after its end. -/
abbrev State (Thread : Type*) := Thread → Option ℕ

/-- The locks that a thread has. -/
def held (plan : List Lock) : Option ℕ → List Lock
  | some taken => plan.take taken
  | none => []

def step (plan : Thread → List Lock) (state : State Thread) (thread : Thread) :
    Option (State Thread) :=
  match state thread with
  | none => none
  | some taken =>
      match (plan thread)[taken]? with
      | some lock =>
          if ∀ other, lock ∉ held (plan other) (state other) then
            some (Function.update state thread (some (taken + 1)))
          else none
      | none => some (Function.update state thread none)

def start : State Thread := fun _ => some 0

def system (plan : Thread → List Lock) : System (State Thread) Thread :=
  System.ofPartial (· = start) (step plan)

/-- No thread can go on. -/
def Still (plan : Thread → List Lock) (state : State Thread) : Prop :=
  ∀ thread, step plan state thread = none

/-- No thread can go on, and not all have come to their end. -/
def Dead (plan : Thread → List Lock) (state : State Thread) : Prop :=
  Still plan state ∧ ∃ thread, state thread ≠ none

/-- Threads that wait for each other when each has taken so many locks of its plan. -/
structure Jam (plan : Thread → List Lock) (members : Finset Thread) (taken : Thread → ℕ) :
    Prop where
  nonempty : members.Nonempty
  nodup : ∀ thread ∈ members, ((plan thread).take (taken thread)).Nodup
  apart : ∀ thread ∈ members, ∀ other ∈ members, thread ≠ other →
    ((plan thread).take (taken thread)).Disjoint ((plan other).take (taken other))
  waits : ∀ thread ∈ members, ∃ lock, (plan thread)[taken thread]? = some lock ∧
    ∃ other ∈ members, lock ∈ (plan other).take (taken other)

section Prefix

variable {plan : List Lock} {taken : ℕ} {lock : Lock}

omit [DecidableEq Lock]

theorem take_next (hnext : plan[taken]? = some lock) :
    plan.take (taken + 1) = plan.take taken ++ [lock] := by
  rw [List.take_add_one, hnext, Option.toList_some]

theorem take_sublist {k : ℕ} (hle : taken ≤ k) : (plan.take taken).Sublist (plan.take k) := by
  have hsame : (plan.take k).take taken = plan.take taken := by
    rw [List.take_take, Nat.min_eq_left hle]
  rw [← hsame]
  exact List.take_sublist ..

/-- The next lock is among the first ones of the plan, and once only. -/
theorem mem_take_of_next (hnext : plan[taken]? = some lock) {k : ℕ} (hlt : taken < k) :
    lock ∈ plan.take k := by
  apply (take_sublist hlt).subset
  rw [take_next hnext]
  exact List.mem_append_right _ List.mem_cons_self

theorem notMem_take_of_next (hnext : plan[taken]? = some lock) {k : ℕ} (hlt : taken < k)
    (hnodup : (plan.take k).Nodup) : lock ∉ plan.take taken := by
  have hless := hnodup.sublist (take_sublist hlt)
  rw [take_next hnext, List.nodup_append] at hless
  exact fun hlock => hless.2.2 lock hlock lock List.mem_cons_self rfl

end Prefix

section Step

variable {plan : Thread → List Lock} {state after : State Thread} {thread : Thread}

/-- What a thread can do: take its next lock when nobody has it, or end. -/
theorem step_cases (hstep : step plan state thread = some after) :
    ∃ taken, state thread = some taken ∧
      ((∃ lock, (plan thread)[taken]? = some lock ∧
          (∀ other, lock ∉ held (plan other) (state other)) ∧
          after = Function.update state thread (some (taken + 1))) ∨
        (plan thread)[taken]? = none ∧ after = Function.update state thread none) := by
  unfold step at hstep
  split at hstep
  case h_1 => cases hstep
  case h_2 taken htaken =>
    refine ⟨taken, htaken, ?_⟩
    split at hstep
    case h_1 lock hnext =>
      split_ifs at hstep with hfree
      exact .inl ⟨lock, hnext, hfree, (Option.some.inj hstep).symm⟩
    case h_2 hnext => exact .inr ⟨hnext, (Option.some.inj hstep).symm⟩

theorem step_take {taken : ℕ} {lock : Lock} (htaken : state thread = some taken)
    (hnext : (plan thread)[taken]? = some lock)
    (hfree : ∀ other, lock ∉ held (plan other) (state other)) :
    step plan state thread = some (Function.update state thread (some (taken + 1))) := by
  simp only [step, htaken, hnext]
  exact if_pos hfree

/-- A thread that cannot go on waits for a lock that some thread has. -/
theorem waits_of_step_eq_none {taken : ℕ} (htaken : state thread = some taken)
    (hnone : step plan state thread = none) :
    ∃ lock, (plan thread)[taken]? = some lock ∧
      ∃ other, lock ∈ held (plan other) (state other) := by
  simp only [step, htaken] at hnone
  cases hnext : (plan thread)[taken]? with
  | none => simp [hnext] at hnone
  | some lock =>
      refine ⟨lock, rfl, ?_⟩
      by_contra hheld
      have hfree : ∀ other, lock ∉ held (plan other) (state other) :=
        fun other hlock => hheld ⟨other, hlock⟩
      simp only [hnext, if_pos hfree] at hnone
      cases hnone

/-! ## No lock is taken twice -/

structure Exclusive (plan : Thread → List Lock) (state : State Thread) : Prop where
  nodup : ∀ thread, (held (plan thread) (state thread)).Nodup
  apart : ∀ thread other, thread ≠ other →
    (held (plan thread) (state thread)).Disjoint (held (plan other) (state other))

omit [Fintype Thread] [DecidableEq Thread] [DecidableEq Lock] in
theorem exclusive_start : Exclusive plan start where
  nodup _ := List.nodup_nil
  apart _ _ _ := List.disjoint_nil_left _

theorem Exclusive.step (hexclusive : Exclusive plan state)
    (hstep : LockPlan.step plan state thread = some after) : Exclusive plan after := by
  obtain ⟨taken, htaken, ⟨lock, hnext, hfree, rfl⟩ | ⟨-, rfl⟩⟩ := step_cases hstep
  · have hself : held (plan thread) (Function.update state thread (some (taken + 1)) thread) =
        held (plan thread) (state thread) ++ [lock] := by
      rw [Function.update_self, htaken]
      exact take_next hnext
    have hothers : ∀ other, other ≠ thread →
        Function.update state thread (some (taken + 1)) other = state other :=
      fun other hne => Function.update_of_ne hne ..
    have hnew : ∀ other, other ≠ thread →
        (held (plan thread) (state thread) ++ [lock]).Disjoint
          (held (plan other) (state other)) := by
      intro other hne
      rw [List.disjoint_append_left, List.singleton_disjoint]
      exact ⟨hexclusive.apart thread other hne.symm, hfree other⟩
    constructor
    · intro other
      by_cases hsame : other = thread
      · rw [hsame, hself, List.nodup_append]
        refine ⟨hexclusive.nodup thread, List.nodup_singleton lock, ?_⟩
        intro first hfirst second hsecond heq
        rw [List.mem_singleton.mp hsecond] at heq
        exact hfree thread (heq ▸ hfirst)
      · rw [hothers other hsame]
        exact hexclusive.nodup other
    · intro first second hne
      by_cases hsame : first = thread
      · subst hsame
        rw [hself, hothers second hne.symm]
        exact hnew second hne.symm
      · rw [hothers first hsame]
        by_cases hsame' : second = thread
        · subst hsame'
          rw [hself]
          exact (hnew first hsame).symm
        · rw [hothers second hsame']
          exact hexclusive.apart first second hne
  · have hless : ∀ other, (held (plan other) (Function.update state thread none other)).Sublist
        (held (plan other) (state other)) := by
      intro other
      by_cases hsame : other = thread
      · rw [hsame, Function.update_self]
        exact List.nil_sublist _
      · rw [Function.update_of_ne hsame]
    constructor
    · exact fun other => (hexclusive.nodup other).sublist (hless other)
    · exact fun first second hne lock hfirst hsecond =>
        hexclusive.apart first second hne ((hless first).subset hfirst)
          ((hless second).subset hsecond)

theorem exclusive_reachable (hreach : (system plan).Reachable state) : Exclusive plan state := by
  apply System.invariant_of_step (I := Exclusive plan) ?_ ?_ hreach
  · rintro _ rfl
    exact exclusive_start
  · exact fun _ _ _ _ hexclusive hstep => hexclusive.step hstep

/-- The threads that have not ended in a dead state are a jam. -/
theorem Exclusive.jam (hexclusive : Exclusive plan state) (hdead : Dead plan state) :
    Jam plan (Finset.univ.filter fun thread => state thread ≠ none)
      fun thread => (state thread).getD 0 := by
  have hheld : ∀ thread, held (plan thread) (state thread) ≠ [] → state thread ≠ none := by
    intro thread hne hnone
    rw [hnone] at hne
    exact hne rfl
  have htake : ∀ thread, state thread ≠ none →
      (plan thread).take ((state thread).getD 0) = held (plan thread) (state thread) := by
    intro thread hlive
    obtain ⟨taken, htaken⟩ := Option.ne_none_iff_exists'.mp hlive
    rw [htaken]
    rfl
  obtain ⟨hstill, live, hlive⟩ := hdead
  constructor
  · exact ⟨live, Finset.mem_filter.mpr ⟨Finset.mem_univ _, hlive⟩⟩
  · intro thread hthread
    rw [htake thread (Finset.mem_filter.mp hthread).2]
    exact hexclusive.nodup thread
  · intro thread hthread other hother hne
    rw [htake thread (Finset.mem_filter.mp hthread).2, htake other (Finset.mem_filter.mp hother).2]
    exact hexclusive.apart thread other hne
  · intro thread hthread
    obtain ⟨taken, htaken⟩ := Option.ne_none_iff_exists'.mp (Finset.mem_filter.mp hthread).2
    obtain ⟨lock, hnext, other, hlock⟩ := waits_of_step_eq_none htaken (hstill thread)
    have hother := hheld other (List.ne_nil_of_mem hlock)
    refine ⟨lock, by rw [htaken]; exact hnext, other, ?_, ?_⟩
    · exact Finset.mem_filter.mpr ⟨Finset.mem_univ _, hother⟩
    · rw [htake other hother]
      exact hlock

end Step

/-! ## Every jam is reached -/

section Reached

variable {plan : Thread → List Lock} {state after : State Thread} {thread : Thread}
  {members part : Finset Thread} {taken : Thread → ℕ}

/-- Some threads have come so far, the others have not begun. -/
def reached (taken : Thread → ℕ) (part : Finset Thread) : State Thread :=
  fun thread => if thread ∈ part then some (taken thread) else some 0

theorem Jam.climb (hjam : Jam plan members taken) (hmem : thread ∈ members)
    (hpart : part ⊆ members) (hnew : thread ∉ part)
    (hreach : (system plan).Reachable (reached taken part)) (k : ℕ) (hle : k ≤ taken thread) :
    (system plan).Reachable (Function.update (reached taken part) thread (some k)) := by
  induction k with
  | zero =>
      have hsame : Function.update (reached taken part) thread (some 0) = reached taken part := by
        rw [Function.update_eq_self_iff]
        exact (if_neg hnew).symm
      rw [hsame]
      exact hreach
  | succ k ih =>
      obtain ⟨last, hlast, -⟩ := hjam.waits thread hmem
      have hlength : taken thread < (plan thread).length := (List.getElem?_eq_some_iff.mp hlast).1
      have hnext : (plan thread)[k]? = some (plan thread)[k] := List.getElem?_eq_getElem (by omega)
      have hfree : ∀ other, (plan thread)[k] ∉ held (plan other)
          (Function.update (reached taken part) thread (some k) other) := by
        intro other
        by_cases hsame : other = thread
        · subst hsame
          rw [Function.update_self]
          exact notMem_take_of_next hnext hle (hjam.nodup other hmem)
        · rw [Function.update_of_ne hsame]
          by_cases hother : other ∈ part
          · rw [reached, if_pos hother]
            exact hjam.apart thread hmem other (hpart hother) (Ne.symm hsame)
              (mem_take_of_next hnext hle)
          · rw [reached, if_neg hother]
            exact List.not_mem_nil
      have hstep :=
        step_take (Function.update_self thread (some k) (reached taken part)) hnext hfree
      rw [Function.update_idem] at hstep
      exact (ih (Nat.le_of_succ_le hle)).step hstep

theorem Jam.reachable (hjam : Jam plan members taken) (hpart : part ⊆ members) :
    (system plan).Reachable (reached taken part) := by
  induction part using Finset.induction_on with
  | empty => exact System.reachable_of_init rfl
  | insert thread part hnew ih =>
      have hmem : thread ∈ members := hpart (Finset.mem_insert_self thread part)
      have hrest : part ⊆ members := (Finset.subset_insert thread part).trans hpart
      have hsame : reached taken (insert thread part) =
          Function.update (reached taken part) thread (some (taken thread)) := by
        funext other
        by_cases hother : other = thread
        · rw [hother, Function.update_self, reached, if_pos (Finset.mem_insert_self thread part)]
        · rw [Function.update_of_ne hother, reached, reached]
          simp [hother]
      rw [hsame]
      exact hjam.climb hmem hrest hnew (ih hrest) (taken thread) le_rfl

/-- The threads of a jam wait for ever. -/
theorem Jam.stay (hjam : Jam plan members taken)
    (hwaiting : ∀ member ∈ members, state member = some (taken member))
    (hstep : LockPlan.step plan state thread = some after) :
    ∀ member ∈ members, after member = some (taken member) := by
  obtain ⟨k, hk, hcases⟩ := step_cases hstep
  have hnot : thread ∉ members := by
    intro hmem
    obtain rfl : taken thread = k := Option.some.inj ((hwaiting thread hmem).symm.trans hk)
    obtain ⟨lock, hnext, other, hother, hlock⟩ := hjam.waits thread hmem
    obtain ⟨lock', hnext', hfree, -⟩ | ⟨hnone, -⟩ := hcases
    · obtain rfl : lock = lock' := Option.some.inj (hnext.symm.trans hnext')
      apply hfree other
      rw [hwaiting other hother]
      exact hlock
    · rw [hnext] at hnone
      cases hnone
  intro member hmember
  have hne : member ≠ thread := fun hsame => hnot (hsame ▸ hmember)
  obtain ⟨lock, -, -, rfl⟩ | ⟨-, rfl⟩ := hcases
  · rw [Function.update_of_ne hne, hwaiting member hmember]
  · rw [Function.update_of_ne hne, hwaiting member hmember]

/-! ## Every run ends -/

/-- The steps that a thread has still before it. -/
def share (plan : List Lock) : Option ℕ → ℕ
  | some taken => plan.length - taken + 1
  | none => 0

def left (plan : Thread → List Lock) (state : State Thread) : ℕ :=
  ∑ thread, share (plan thread) (state thread)

omit [DecidableEq Lock] in
theorem left_update_lt {place : Option ℕ}
    (hlt : share (plan thread) place < share (plan thread) (state thread)) :
    left plan (Function.update state thread place) < left plan state := by
  apply Finset.sum_lt_sum
  · intro other _
    by_cases hsame : other = thread
    · subst hsame
      rw [Function.update_self]
      exact hlt.le
    · rw [Function.update_of_ne hsame]
  · exact ⟨thread, Finset.mem_univ _, by rwa [Function.update_self]⟩

theorem left_lt (hstep : LockPlan.step plan state thread = some after) :
    left plan after < left plan state := by
  obtain ⟨k, hk, ⟨lock, hnext, -, rfl⟩ | ⟨-, rfl⟩⟩ := step_cases hstep
  · have hlength : k < (plan thread).length := (List.getElem?_eq_some_iff.mp hnext).1
    apply left_update_lt
    simp only [hk, share]
    omega
  · apply left_update_lt
    simp only [hk, share]
    omega

/-- A run has no more steps than there were left. -/
theorem length_le_left {labels : List Thread} (hrun : (system plan).Run state labels after) :
    labels.length + left plan after ≤ left plan state := by
  induction hrun with
  | nil => simp
  | snoc _ hstep ih =>
      have hless := left_lt hstep
      rw [List.length_append, List.length_singleton]
      omega

theorem exists_still (plan : Thread → List Lock) (state : State Thread) :
    ∃ labels after, (system plan).Run state labels after ∧ Still plan after := by
  induction hleft : left plan state using Nat.strong_induction_on generalizing state with
  | _ n ih =>
      by_cases hstill : Still plan state
      · exact ⟨[], state, System.Run.nil, hstill⟩
      · obtain ⟨thread, hsome⟩ := not_forall.mp hstill
        obtain ⟨after, hstep⟩ := Option.ne_none_iff_exists'.mp hsome
        obtain ⟨labels, last, hrun, hend⟩ := ih (left plan after) (hleft ▸ left_lt hstep) after rfl
        exact ⟨[thread] ++ labels, last, (System.Run.single hstep).append hrun, hend⟩

/-- A run can get stuck exactly when the plans have a jam. -/
theorem dead_iff_jam : (∃ state, (system plan).Reachable state ∧ Dead plan state) ↔
    ∃ members taken, Jam plan members taken := by
  constructor
  · rintro ⟨state, hreach, hdead⟩
    exact ⟨_, _, (exclusive_reachable hreach).jam hdead⟩
  · rintro ⟨members, taken, hjam⟩
    obtain ⟨labels, state, hrun, hstill⟩ := exists_still plan (reached taken members)
    have hwaiting : ∀ member ∈ members, state member = some (taken member) := by
      apply hrun.preserves
        (P := fun state => ∀ member ∈ members, state member = some (taken member))
      · intro before thread after hbefore hstep
        exact hjam.stay hbefore hstep
      · exact fun _ hmember => if_pos hmember
    obtain ⟨member, hmember⟩ := hjam.nonempty
    refine ⟨state, (hjam.reachable subset_rfl).run hrun, hstill, member, ?_⟩
    rw [hwaiting member hmember]
    exact Option.some_ne_none _

end Reached

section Sorted

variable {Rank : Type*} [LinearOrder Rank] {plan : Thread → List Lock} {rank : Lock → Rank}

omit [Fintype Thread] [DecidableEq Thread] [DecidableEq Lock]

/-- The lock of the highest rank that a thread of a jam waits for is held by a thread that
waits for one of a higher rank. -/
theorem not_jam_of_sorted
    (hsorted : ∀ thread, (plan thread).Pairwise fun first second => rank first < rank second)
    (members : Finset Thread) (taken : Thread → ℕ) : ¬ Jam plan members taken := by
  intro hjam
  obtain ⟨member, hmember⟩ := hjam.nonempty
  have hinhabited : Nonempty Lock := (hjam.waits member hmember).nonempty
  choose! next hnext holder hholder hheld using hjam.waits
  obtain ⟨highest, hmem, hmax⟩ :=
    Finset.exists_max_image members (fun thread => rank (next thread)) hjam.nonempty
  have hother := hholder highest hmem
  have hrise := (hsorted (holder highest)).sublist
    (List.take_sublist (taken (holder highest) + 1) _)
  rw [take_next (hnext _ hother), List.pairwise_append] at hrise
  have hhigher := hrise.2.2 _ (hheld highest hmem) _ List.mem_cons_self
  exact absurd (hmax _ hother) (not_le_of_gt hhigher)

end Sorted

end JyyOS.LockPlan
