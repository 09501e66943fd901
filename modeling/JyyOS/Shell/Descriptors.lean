import Mathlib.Data.List.Basic
import Mathlib.Tactic

/-!
# Descriptor tables

What a descriptor of the shell's processes can be bound to, and the table of
one process.  `open`, `dup` and `pipe` take the lowest free descriptor.
-/

namespace JyyOS.Shell

/-- An open file description. -/
inductive Desc where
  /-- Open before the command started. -/
  | outer (name : ℕ)
  /-- Opened by a redirection. -/
  | file (path mode : ℕ)
  | readEnd (pipe : ℕ)
  | writeEnd (pipe : ℕ)
deriving DecidableEq

abbrev Fds := List (Option Desc)

namespace Fds

/-- What a descriptor is bound to; `none` when it is closed. -/
def get (fds : Fds) (fd : ℕ) : Option Desc := fds[fd]?.join

def close (fds : Fds) (fd : ℕ) : Fds := fds.set fd none

/-- The lowest free descriptor. -/
def lowest (fds : Fds) : ℕ := fds.findIdx Option.isNone

/-- The table with the lowest free descriptor bound. -/
def alloc (fds : Fds) (desc : Desc) : Fds :=
  if fds.lowest < fds.length then fds.set fds.lowest (some desc) else fds ++ [some desc]

/-- `dup(fd)`; a closed descriptor is an error without effect. -/
def dup (fds : Fds) (fd : ℕ) : Fds :=
  match fds.get fd with
  | some desc => fds.alloc desc
  | none => fds

theorem get_close (fds : Fds) (fd : ℕ) :
    (fds.close fd).get = Function.update fds.get fd none := by
  funext other
  simp only [get, close, List.getElem?_set, Function.update_apply]
  by_cases hother : fd = other
  · subst other
    by_cases hlt : fd < fds.length <;> simp [hlt]
  · simp [hother, Ne.symm hother]

theorem get_alloc (fds : Fds) (desc : Desc) :
    (fds.alloc desc).get = Function.update fds.get fds.lowest (some desc) := by
  funext other
  unfold alloc
  split_ifs with hlt
  · simp only [get, List.getElem?_set, Function.update_apply]
    by_cases hother : fds.lowest = other
    · simp [← hother, hlt]
    · simp [hother, Ne.symm hother]
  · have hlowest : fds.lowest = fds.length :=
      le_antisymm List.findIdx_le_length (not_lt.mp hlt)
    simp only [get, List.getElem?_append, Function.update_apply, hlowest]
    rcases lt_trichotomy other fds.length with hother | hother | hother
    · simp [hother, hother.ne]
    · simp [hother]
    · simp [hother.not_gt, hother.ne', Nat.sub_ne_zero_of_lt hother]

/-- The lowest free descriptor is free and all below it are in use. -/
theorem lowest_eq {fds : Fds} {fd : ℕ} (hfree : fds.get fd = none)
    (hused : ∀ other < fd, fds.get other ≠ none) : fds.lowest = fd := by
  have hbelow : ∀ other < fd, ∃ desc, fds[other]? = some (some desc) := by
    intro other hother
    obtain ⟨desc, hdesc⟩ := Option.ne_none_iff_exists'.mp (hused other hother)
    exact ⟨desc, by simpa [get, Option.join_eq_some_iff] using hdesc⟩
  apply le_antisymm
  · by_contra hlt
    push Not at hlt
    have hlength : fd < fds.length := hlt.trans_le List.findIdx_le_length
    have hsome := List.not_of_lt_findIdx hlt
    rw [get, List.getElem?_eq_getElem hlength] at hfree
    simp only [Option.join_some] at hfree
    simp [hfree] at hsome
  · by_contra hlt
    push Not at hlt
    obtain ⟨desc, hdesc⟩ := hbelow _ hlt
    have hlength : fds.findIdx Option.isNone < fds.length :=
      (List.getElem?_eq_some_iff.mp hdesc).1
    have hnone := List.findIdx_getElem (w := hlength)
    have := (List.getElem?_eq_some_iff.mp hdesc).2
    simp only [lowest] at this
    rw [this] at hnone
    simp at hnone

/-! ## The standard descriptors -/

/-- The table in which exactly the descriptors 0, 1 and 2 are open. -/
def standard (input output error : Desc) : ℕ → Option Desc
  | 0 => some input
  | 1 => some output
  | 2 => some error
  | _ => none

/-- The table behind `pipe` in a process with the standard descriptors. -/
def piped (input output error : Desc) (name : ℕ) : ℕ → Option Desc
  | 3 => some (.readEnd name)
  | 4 => some (.writeEnd name)
  | fd => standard input output error fd

section Standard

variable {fds : Fds} {input output error : Desc}

/-- A descriptor that is closed is the next one to be bound, as long as all below
it are in use. -/
theorem reopen {fd : ℕ} (hused : ∀ other < fd, fds.get other ≠ none) (desc : Desc) :
    ((fds.close fd).alloc desc).get = Function.update fds.get fd (some desc) := by
  have hlowest : (fds.close fd).lowest = fd := by
    apply lowest_eq
    · rw [get_close, Function.update_self]
    · intro other hother
      rw [get_close, Function.update_of_ne hother.ne]
      exact hused other hother
  rw [get_alloc, hlowest, get_close, Function.update_idem]

/-- A redirection of descriptor 0: close it, then open. -/
theorem redirect_input (hfds : fds.get = standard input output error) (desc : Desc) :
    ((fds.close 0).alloc desc).get = standard desc output error := by
  rw [reopen (by simp), hfds]
  funext fd
  match fd with
  | 0 | 1 | 2 | _ + 3 => rfl

theorem redirect_output (hfds : fds.get = standard input output error) (desc : Desc) :
    ((fds.close 1).alloc desc).get = standard input desc error := by
  rw [reopen (by simp [hfds, standard]), hfds]
  funext fd
  match fd with
  | 0 | 1 | 2 | _ + 3 => rfl

theorem lowest_standard (hfds : fds.get = standard input output error) :
    fds.lowest = 3 := by
  apply lowest_eq
  · rw [hfds]
    rfl
  · intro fd hfd
    rw [hfds]
    interval_cases fd <;> simp [standard]

/-- `pipe` fills the descriptors 3 and 4. -/
theorem pipe_standard (hfds : fds.get = standard input output error) (name : ℕ) :
    (fds.alloc (.readEnd name)).lowest = 4 ∧
      ((fds.alloc (.readEnd name)).alloc (.writeEnd name)).get =
        piped input output error name := by
  have hfirst : (fds.alloc (.readEnd name)).get =
      Function.update (standard input output error) 3 (some (.readEnd name)) := by
    rw [get_alloc, lowest_standard hfds, hfds]
  have hlowest : (fds.alloc (.readEnd name)).lowest = 4 := by
    apply lowest_eq
    · rw [hfirst]
      rfl
    · intro fd hfd
      rw [hfirst]
      interval_cases fd <;> simp [standard]
  refine ⟨hlowest, ?_⟩
  rw [get_alloc, hlowest, hfirst]
  funext fd
  match fd with
  | 0 | 1 | 2 | 3 | 4 | _ + 5 => rfl

/-- `close(fd); dup(source)` for another descriptor `source`. -/
theorem reopen_dup {fd source : ℕ} {desc : Desc} (hused : ∀ other < fd, fds.get other ≠ none)
    (hsource : fds.get source = some desc) (hother : source ≠ fd) :
    ((fds.close fd).dup source).get = Function.update fds.get fd (some desc) := by
  have hclosed : (fds.close fd).get source = some desc := by
    rw [get_close, Function.update_of_ne hother, hsource]
  rw [dup, hclosed]
  exact reopen hused desc

/-- The left child of a pipe: its output goes to the write end. -/
theorem pipe_left {name : ℕ} (hfds : fds.get = piped input output error name) :
    ((((fds.close 1).dup 4).close 3).close 4).get =
      standard input (.writeEnd name) error := by
  have hused : ∀ other < 1, fds.get other ≠ none := by simp [hfds, piped, standard]
  have hsource : fds.get 4 = some (.writeEnd name) := by rw [hfds, piped]
  rw [get_close, get_close, reopen_dup hused hsource (by decide), hfds]
  funext fd
  match fd with
  | 0 | 1 | 2 | 3 | 4 | _ + 5 => rfl

theorem pipe_right {name : ℕ} (hfds : fds.get = piped input output error name) :
    ((((fds.close 0).dup 3).close 3).close 4).get =
      standard (.readEnd name) output error := by
  have hsource : fds.get 3 = some (.readEnd name) := by rw [hfds, piped]
  rw [get_close, get_close, reopen_dup (by simp) hsource (by decide), hfds]
  funext fd
  match fd with
  | 0 | 1 | 2 | 3 | 4 | _ + 5 => rfl

end Standard

/-- Exactly the standard descriptors are open, and 2 is bound to `error`. -/
def Standard (error : Desc) (fds : Fds) : Prop :=
  ∃ input output, fds.get = standard input output error

end Fds

end JyyOS.Shell
