import JyyOS.Core.LockPlan

/-!
# Processes that lock files (`flock-demo.c`, `run.sh`)

A process locks the files of its command line one after the other and never unlocks one;
the kernel does when it exits.  Every `open` gives a description of its own, so a process
also waits for a lock that it has taken through another one.
-/

namespace JyyOS.Flock

open LockPlan (Jam Dead Still)
open Transition (System)

variable {Path File : Type*} [DecidableEq File]

/-- The files that `main` locks, one for each round of its loop.  It aborts at the first
argument that cannot be opened. -/
def main (file : Path → Option File) : List Path → List File
  | [] => []
  | path :: paths =>
      match file path with
      | none => []
      | some opened => opened :: main file paths

/-- Processes that were started together.  Nothing but `flock` concerns the others, so a
round is one step; the last step of a process is its exit. -/
def processes {Process : Type*} [Fintype Process] [DecidableEq Process]
    (file : Path → Option File) (argv : Process → List Path) :
    System (LockPlan.State Process) Process :=
  LockPlan.system fun process => main file (argv process)

/-- No process can go on, and one has not exited. -/
def Deadlock {Process : Type*} [Fintype Process] [DecidableEq Process]
    (file : Path → Option File) (argv : Process → List Path)
    (state : LockPlan.State Process) : Prop :=
  Dead (fun process => main file (argv process)) state

/-! ## Two processes -/

section Cut

variable {files : List File} {P : File → Prop} [DecidablePred P]

omit [DecidableEq File]

/-- The first file with a property. -/
theorem exists_first (hexists : ∃ opened ∈ files, P opened) :
    ∃ k opened, files[k]? = some opened ∧ P opened ∧ ∀ earlier ∈ files.take k, ¬ P earlier := by
  induction files with
  | nil => simp at hexists
  | cons head files ih =>
      by_cases hhead : P head
      · exact ⟨0, head, rfl, hhead, by simp⟩
      · obtain ⟨opened, hmem, hopened⟩ := hexists
        have hrest : opened ∈ files := by
          refine (List.mem_cons.mp hmem).resolve_left ?_
          rintro rfl
          exact hhead hopened
        obtain ⟨k, first, hfirst, hP, hearlier⟩ := ih ⟨opened, hrest, hopened⟩
        refine ⟨k + 1, first, hfirst, hP, ?_⟩
        rw [List.take_succ_cons]
        exact List.forall_mem_cons.mpr ⟨hhead, hearlier⟩

/-- What `find?` finds is not behind another file with the property. -/
theorem find_mem_take {k : ℕ} {opened found : File} (hmem : opened ∈ files.take k)
    (hopened : P opened) (hfound : files.find? (fun other => P other) = some found) :
    found ∈ files.take k := by
  have hsome : ((files.take k).find? fun other => P other).isSome := by
    rw [List.find?_isSome]
    exact ⟨opened, hmem, decide_eq_true hopened⟩
  obtain ⟨first, hfirst⟩ := Option.isSome_iff_exists.mp hsome
  rw [← List.take_append_drop k files, List.find?_append, hfirst, Option.some_or] at hfound
  rw [← Option.some.inj hfound]
  exact List.mem_of_find?_eq_some hfirst

theorem find_mem_take_of_ne {k : ℕ} {next found : File} (hnext : files[k]? = some next)
    (hP : P next) (hfound : files.find? (fun other => P other) = some found)
    (hne : found ≠ next) : found ∈ files.take k := by
  have hmem := find_mem_take (LockPlan.mem_take_of_next hnext (Nat.lt_succ_self k)) hP hfound
  rw [LockPlan.take_next hnext, List.mem_append, List.mem_singleton] at hmem
  exact hmem.resolve_right hne

/-- The first file that comes a second time. -/
theorem exists_again (hagain : ¬ files.Nodup) :
    ∃ k opened, files[k]? = some opened ∧ opened ∈ files.take k ∧ (files.take k).Nodup := by
  induction files using List.reverseRecOn with
  | nil => exact absurd List.nodup_nil hagain
  | append_singleton files last ih =>
      by_cases hnodup : files.Nodup
      · refine ⟨files.length, last, by simp, ?_, by simpa using hnodup⟩
        rw [List.take_left']
        · by_contra hnew
          apply hagain
          rw [List.nodup_append]
          refine ⟨hnodup, List.nodup_singleton last, ?_⟩
          intro first hfirst second hsecond heq
          rw [List.mem_singleton.mp hsecond] at heq
          exact hnew (heq ▸ hfirst)
        · rfl
      · obtain ⟨k, opened, hopened, hmem, htake⟩ := ih hnodup
        have hlt : k < files.length := (List.getElem?_eq_some_iff.mp hopened).1
        have hsame : (files ++ [last]).take k = files.take k :=
          List.take_append_of_le_length hlt.le
        refine ⟨k, opened, ?_, hsame ▸ hmem, hsame ▸ htake⟩
        rw [List.getElem?_append_left hlt]
        exact hopened

end Cut

section Jam

variable {plan : Fin 2 → List File}

omit [DecidableEq File] in
/-- A process that has a file twice waits for itself. -/
theorem jam_of_again {process : Fin 2} (hagain : ¬ (plan process).Nodup) :
    ∃ members taken, Jam plan members taken := by
  obtain ⟨k, opened, hopened, hmem, hnodup⟩ := exists_again hagain
  refine ⟨{process}, fun _ => k, Finset.singleton_nonempty process, ?_, ?_, ?_⟩
  · intro thread hthread
    rwa [Finset.mem_singleton.mp hthread]
  · intro thread hthread other hother hne
    rw [Finset.mem_singleton] at hthread hother
    exact absurd (hthread.trans hother.symm) hne
  · intro thread hthread
    obtain rfl := Finset.mem_singleton.mp hthread
    exact ⟨opened, hopened, thread, Finset.mem_singleton_self thread, hmem⟩

omit [DecidableEq File] in
/-- Without a file twice, both processes are in a jam and wait for each other. -/
theorem waits_other {members : Finset (Fin 2)} {taken : Fin 2 → ℕ} (hjam : Jam plan members taken)
    {process : Fin 2} (hmem : process ∈ members) (hnodup : (plan process).Nodup) :
    process + 1 ∈ members ∧ ∃ opened, (plan process)[taken process]? = some opened ∧
      opened ∈ (plan (process + 1)).take (taken (process + 1)) := by
  obtain ⟨opened, hnext, other, hother, hheld⟩ := hjam.waits process hmem
  have hne : other ≠ process := by
    rintro rfl
    exact LockPlan.notMem_take_of_next hnext (Nat.lt_succ_self _)
      (hnodup.sublist (List.take_sublist ..)) hheld
  obtain rfl : other = process + 1 := by omega
  exact ⟨hother, opened, hnext, hheld⟩

/-- When both have the same first common file, who has it keeps the other from all other
common ones. -/
theorem not_jam_of_find_eq (hnodup : ∀ process, (plan process).Nodup)
    (hfirst : ∀ process, (plan process).find? (· ∈ plan (process + 1)) =
      (plan (process + 1)).find? (· ∈ plan process))
    (members : Finset (Fin 2)) (taken : Fin 2 → ℕ) : ¬ Jam plan members taken := by
  intro hjam
  obtain ⟨process, hmem⟩ := hjam.nonempty
  obtain ⟨hother, next, hnext, hheld⟩ := waits_other hjam hmem (hnodup process)
  obtain ⟨-, next', hnext', hheld'⟩ := waits_other hjam hother (hnodup (process + 1))
  have hback : process + 1 + 1 = process := by omega
  rw [hback] at hheld'
  have hcommon : ((plan process).find? (· ∈ plan (process + 1))).isSome := by
    rw [List.find?_isSome]
    exact ⟨next', List.mem_of_mem_take hheld', decide_eq_true (List.mem_of_getElem? hnext')⟩
  obtain ⟨found, hfound⟩ := Option.isSome_iff_exists.mp hcommon
  have hown : found ∈ (plan process).take (taken process) :=
    find_mem_take hheld' (List.mem_of_getElem? hnext') hfound
  rw [hfirst process] at hfound
  have hothers : found ∈ (plan (process + 1)).take (taken (process + 1)) :=
    find_mem_take hheld (List.mem_of_getElem? hnext) hfound
  exact hjam.apart process hmem (process + 1) hother (by omega) hown hothers

/-- When the first common files differ, each process can take its own one first. -/
theorem jam_of_find_ne (hnodup : ∀ process, (plan process).Nodup)
    (hne : (plan 0).find? (· ∈ plan 1) ≠ (plan 1).find? (· ∈ plan 0)) :
    ∃ members taken, Jam plan members taken := by
  have hnone : (plan 0).find? (· ∈ plan 1) = none ↔ (plan 1).find? (· ∈ plan 0) = none := by
    simp only [List.find?_eq_none, decide_eq_true_eq]
    exact ⟨fun hall opened hmem hother => hall opened hother hmem,
      fun hall opened hmem hother => hall opened hother hmem⟩
  obtain ⟨first, hfirst⟩ : ∃ first, (plan 0).find? (· ∈ plan 1) = some first := by
    rw [← Option.ne_none_iff_exists']
    exact fun hzero => hne (hzero.trans (hnone.mp hzero).symm)
  obtain ⟨second, hsecond⟩ : ∃ second, (plan 1).find? (· ∈ plan 0) = some second := by
    rw [← Option.ne_none_iff_exists']
    exact fun hone => hne ((hnone.mpr hone).trans hone.symm)
  rw [hfirst, hsecond] at hne
  have hdiffer : first ≠ second := fun hsame => hne (congrArg some hsame)
  have hfirstMem : first ∈ plan 1 := by simpa using List.find?_some hfirst
  have hsecondMem : second ∈ plan 0 := by simpa using List.find?_some hsecond
  -- the first process stops in front of `second`, the other one in front of what it has then
  obtain ⟨k, _, hk, rfl, hbefore⟩ := exists_first (P := (· = second)) ⟨_, hsecondMem, rfl⟩
  have hfirstHeld : first ∈ (plan 0).take k :=
    find_mem_take_of_ne hk (List.mem_of_find?_eq_some hsecond) hfirst hdiffer
  obtain ⟨l, next, hl, hnext, hbefore'⟩ :=
    exists_first (P := (· ∈ (plan 0).take k)) ⟨first, hfirstMem, hfirstHeld⟩
  have hsecondHeld := find_mem_take_of_ne hl (List.mem_of_mem_take hnext) hsecond
    fun hsame => hbefore next hnext hsame.symm
  refine ⟨Finset.univ, ![k, l], Finset.univ_nonempty, ?_, ?_, ?_⟩
  · exact fun process _ => (hnodup process).sublist (List.take_sublist ..)
  · have hdisjoint : ((plan 0).take k).Disjoint ((plan 1).take l) :=
      fun opened hmem hother => hbefore' opened hother hmem
    intro process _ other _ hother
    obtain rfl | rfl : process = 0 ∨ process = 1 := by omega
    · obtain rfl : other = 1 := by omega
      exact hdisjoint
    · obtain rfl : other = 0 := by omega
      exact hdisjoint.symm
  · intro process _
    obtain rfl | rfl : process = 0 ∨ process = 1 := by omega
    · exact ⟨_, hk, 1, Finset.mem_univ 1, hsecondHeld⟩
    · exact ⟨next, hl, 0, Finset.mem_univ 0, hnext⟩

end Jam

/-- Two processes can get into a deadlock just when one of them has a file twice, or the
first file of the one that the other has too is not the first one of the other that it
has. -/
theorem deadlock_iff (file : Path → Option File) (argv : Fin 2 → List Path) :
    (∃ state, (processes file argv).Reachable state ∧ Deadlock file argv state) ↔
      ¬ (main file (argv 0)).Nodup ∨ ¬ (main file (argv 1)).Nodup ∨
        (main file (argv 0)).find? (· ∈ main file (argv 1)) ≠
          (main file (argv 1)).find? (· ∈ main file (argv 0)) := by
  refine Iff.trans LockPlan.dead_iff_jam ⟨?_, ?_⟩
  · rintro ⟨members, taken, hjam⟩
    by_contra hgood
    simp only [ne_eq, not_or, not_not] at hgood
    obtain ⟨hzero, hone, hfirst⟩ := hgood
    refine not_jam_of_find_eq ?_ ?_ members taken hjam
    · exact Fin.forall_fin_two.mpr ⟨hzero, hone⟩
    · exact Fin.forall_fin_two.mpr ⟨hfirst, hfirst.symm⟩
  · intro hbad
    by_cases hzero : (main file (argv 0)).Nodup
    · by_cases hone : (main file (argv 1)).Nodup
      · obtain hne := (hbad.resolve_left (not_not.mpr hzero)).resolve_left (not_not.mpr hone)
        exact jam_of_find_ne (Fin.forall_fin_two.mpr ⟨hzero, hone⟩) hne
      · exact jam_of_again hone
    · exact jam_of_again hzero

/-- When every process locks its files in one and the same order, all processes exit,
whatever the schedule. -/
theorem ordered_exits {Process Rank : Type*} [Fintype Process] [DecidableEq Process]
    [LinearOrder Rank] (file : Path → Option File) (argv : Process → List Path)
    (rank : File → Rank)
    (hordered : ∀ process, (main file (argv process)).Pairwise fun first second =>
      rank first < rank second) :
    (∀ labels state, (processes file argv).Run LockPlan.start labels state →
      labels.length ≤ ∑ process, ((main file (argv process)).length + 1)) ∧
    ∀ state, (processes file argv).Reachable state →
      Still (fun process => main file (argv process)) state → ∀ process, state process = none := by
  constructor
  · intro labels state hrun
    have hleft := LockPlan.length_le_left hrun
    exact (Nat.le_add_right _ _).trans hleft
  · intro state hreach hstill process
    by_contra hlive
    obtain ⟨members, taken, hjam⟩ :=
      LockPlan.dead_iff_jam.mp ⟨state, hreach, hstill, process, hlive⟩
    exact LockPlan.not_jam_of_sorted hordered members taken hjam

/-- The files of `run.sh`. -/
def inode : String → Option ℕ
  | "foo" => some 1
  | "bar" => some 2
  | _ => none

/-- `run.sh` with the files of the second process in the order of the first one. -/
theorem ordered_exits_run :
    (∀ labels state, (processes inode fun _ : Fin 2 => ["foo", "bar"]).Run LockPlan.start
      labels state → labels.length ≤ ∑ _ : Fin 2, ((main inode ["foo", "bar"]).length + 1)) ∧
    ∀ state, (processes inode fun _ : Fin 2 => ["foo", "bar"]).Reachable state →
      Still (fun _ => main inode ["foo", "bar"]) state → ∀ process, state process = none :=
  ordered_exits inode (fun _ : Fin 2 => ["foo", "bar"]) id fun _ => by
    simp [main, inode]

end JyyOS.Flock
