import JyyOS.Core.Transition
import Mathlib.Data.List.TakeWhile

/-!
# Searching the memory of another process (`dosbox-hack.c`)

`scan` reads the writable regions that `pmap` lists and keeps in `found` the
addresses of a 16-bit value: the first scan after a reset collects them, a later one
sets to 0 those that it visits with another value.  `overwrite` writes to the
addresses that are left.
-/

namespace JyyOS.DosboxHack

open JyyOS.Transition

/-! ## The program -/

/-- A line that `scan` reads from `pmap`. -/
structure Line where
  start : ℕ
  kb : ℕ
  perm : List Char
deriving DecidableEq

/-- `(intptr_t)start > 0` for an address of 64 bits. -/
def Line.positive (line : Line) : Bool := 0 < line.start && line.start < 2 ^ 63

def Line.writable (line : Line) : Bool := line.perm[1]? == some 'w'

def Line.size (line : Line) : ℕ := line.kb * 1024 % 2 ^ 64

/-- What reads of `/proc/pid/mem` give, `none` where they fail. -/
abbrev Memory := ℕ → Option (BitVec 8)

/-- The `uint16_t` at an address. -/
def halfword (memory : Memory) (address : ℕ) : Option (BitVec 16) := do
  let low ← memory address
  let high ← memory (address + 1)
  some (high ++ low)

/-- `read(fd, mem, size) == size`; one `read` returns at most `0x7ffff000` bytes. -/
def readable (memory : Memory) (start size : ℕ) : Bool :=
  size ≤ 0x7ffff000 && (List.range size).all fun i => (memory (start + i)).isSome

/-- The addresses `start + i` with their values, for `i = 0, 2, …` below `size`. -/
def cells (memory : Memory) (start size : ℕ) : List (ℕ × BitVec 16) :=
  (List.range ((size + 1) / 2)).filterMap fun k =>
    (halfword memory (start + 2 * k)).map fun v => (start + 2 * k, v)

/-- `LENGTH(found)` -/
abbrev LENGTH : ℕ := 4096

/-- The body of the loop over `i`. -/
def visit (val : BitVec 16) (reset : Bool) (found : List ℕ) (cell : ℕ × BitVec 16) : List ℕ :=
  if reset then
    if val = cell.2 ∧ found.length < LENGTH then found ++ [cell.1] else found
  else found.map fun address => if address = cell.1 ∧ cell.2 ≠ val then 0 else address

/-- The loop over the lines; `none` is a failed assertion. -/
def regions (val : BitVec 16) (reset : Bool) (memory : Memory) :
    List Line → List ℕ → Option (List ℕ)
  | [], found => some found
  | line :: lines, found =>
      if line.positive then
        if line.writable then
          if readable memory line.start line.size then
            regions val reset memory lines
              ((cells memory line.start line.size).foldl (visit val reset) found)
          else none
        else regions val reset memory lines found
      else some found

/-- `found[0]` to `found[n - 1]`, and the flag. -/
structure State where
  found : List ℕ
  reset : Bool
deriving DecidableEq

def scan (val : BitVec 16) (listing : List Line) (memory : Memory) (state : State) :
    Option State := do
  let found ← regions val state.reset memory listing (if state.reset then [] else state.found)
  some ⟨found, false⟩

/-- The writes of `overwrite`: where and what. -/
def overwrite (val : BitVec 16) (state : State) : List (ℕ × BitVec 16) :=
  (state.found.filter (· ≠ 0)).map fun address => (address, val)

/-- The number that `scan` prints at its end, and `overwrite` as well. -/
def State.matches (state : State) : ℕ := state.found.countP (· ≠ 0)

/-- A scan command, with what the target looks like when it runs. -/
structure Scan where
  val : ℤ
  listing : List Line
  memory : Memory

/-- The commands of `main`. -/
inductive Command where
  | s (scan : Scan)
  | w (val : ℤ)
  | r

/-- The conversion of `int` to `uint16_t`. -/
def uint16 (val : ℤ) : BitVec 16 := BitVec.ofInt 16 val

def step (state : State) : Command → Option State
  | .s command => scan (uint16 command.val) command.listing command.memory state
  | .w _ => some state
  | .r => some { state with reset := true }

def initial : State := ⟨[], true⟩

/-- Any commands, on a target that changes at will between them. -/
def session : System State Command := .ofPartial (· = initial) step

/-! ## What should hold -/

/-- The address lies in a listed writable region and holds the value of the scan. -/
def Scan.Matches (command : Scan) (address : ℕ) : Prop :=
  (∃ line ∈ command.listing, line.writable ∧ line.start ≤ address ∧
    address < line.start + line.size) ∧
  halfword command.memory address = some (uint16 command.val)

/-- Whether a reset is due, and the scans since the last one that was carried out. -/
def record (history : Bool × List Scan) : Command → Bool × List Scan
  | .s command => (false, if history.1 then [command] else history.2 ++ [command])
  | .w _ => history
  | .r => (true, history.2)

def sinceReset (commands : List Command) : List Scan := (commands.foldl record (true, [])).2

/-- Every candidate matched at every scan. -/
def Matched (commands : List Command) (state : State) : Prop :=
  ∀ address ∈ state.found, address ≠ 0 → ∀ command ∈ sinceReset commands,
    command.Matches address

/-- The regions that the loop reads. -/
def visited (listing : List Line) : List Line :=
  (listing.takeWhile Line.positive).filter Line.writable

/-- The loop comes to the address. -/
def Visits (listing : List Line) (address : ℕ) : Prop :=
  ∃ line ∈ visited listing, ∃ k, 2 * k < line.size ∧ address = line.start + 2 * k

/-- A later scan visits every candidate that is left. -/
def Covered (state : State) : Command → Prop
  | .s command => state.reset = false →
      ∀ address ∈ state.found, address ≠ 0 → Visits command.listing address
  | .w _ | .r => True

/-! ## One scan -/

section Visit

variable {val : BitVec 16} {found : List ℕ} {address : ℕ} {cell : ℕ × BitVec 16}

theorem mem_visit_first (hmem : address ∈ visit val true found cell) :
    address ∈ found ∨ (address = cell.1 ∧ cell.2 = val) := by
  simp only [visit, if_true] at hmem
  split_ifs at hmem with hmatch
  · rcases List.mem_append.mp hmem with hfound | hcell
    · exact .inl hfound
    · exact .inr ⟨List.mem_singleton.mp hcell, hmatch.1.symm⟩
  · exact .inl hmem

/-- What the first scan collects. -/
theorem mem_visits_first (cells : List (ℕ × BitVec 16))
    (hmem : address ∈ cells.foldl (visit val true) found) :
    address ∈ found ∨ (address, val) ∈ cells := by
  induction cells generalizing found with
  | nil => exact .inl hmem
  | cons cell cells ih =>
      rcases ih hmem with hfound | hcells
      · rcases mem_visit_first hfound with hbefore | ⟨rfl, rfl⟩
        · exact .inl hbefore
        · exact .inr List.mem_cons_self
      · exact .inr (List.mem_cons_of_mem cell hcells)

theorem mem_visit_later (haddress : address ≠ 0) :
    address ∈ visit val false found cell ↔
      address ∈ found ∧ (cell.1 = address → cell.2 = val) := by
  simp only [visit, Bool.false_eq_true, if_false, List.mem_map]
  constructor
  · rintro ⟨before, hbefore, hkept⟩
    split_ifs at hkept with hcell
    · exact absurd hkept.symm haddress
    · subst hkept
      exact ⟨hbefore, fun heq => by_contra fun hval => hcell ⟨heq.symm, hval⟩⟩
  · rintro ⟨hfound, hkept⟩
    refine ⟨address, hfound, if_neg ?_⟩
    rintro ⟨heq, hval⟩
    exact hval (hkept heq.symm)

/-- What a later scan leaves. -/
theorem mem_visits_later (haddress : address ≠ 0) (cells : List (ℕ × BitVec 16)) :
    address ∈ cells.foldl (visit val false) found ↔
      address ∈ found ∧ ∀ cell ∈ cells, cell.1 = address → cell.2 = val := by
  induction cells generalizing found with
  | nil => simp
  | cons cell cells ih =>
      rw [List.foldl_cons, ih, mem_visit_later haddress, List.forall_mem_cons, and_assoc]

theorem length_visit_le (reset : Bool) (hlength : found.length ≤ LENGTH) :
    (visit val reset found cell).length ≤ LENGTH := by
  unfold visit
  split_ifs with hreset hmatch
  · rw [List.length_append]
    exact hmatch.2
  · exact hlength
  · rwa [List.length_map]

theorem length_visits_le (reset : Bool) (cells : List (ℕ × BitVec 16))
    (hlength : found.length ≤ LENGTH) :
    (cells.foldl (visit val reset) found).length ≤ LENGTH := by
  induction cells generalizing found with
  | nil => exact hlength
  | cons cell cells ih => exact ih (length_visit_le reset hlength)

end Visit

section Regions

variable {val : BitVec 16} {reset : Bool} {memory : Memory} {listing : List Line}
  {found found' : List ℕ} {address : ℕ}

/-- The lines that the loop reads are those of `visited`, all of them readable. -/
theorem regions_eq_some (hregions : regions val reset memory listing found = some found') :
    found' = ((visited listing).flatMap fun line =>
        cells memory line.start line.size).foldl (visit val reset) found ∧
      ∀ line ∈ visited listing, readable memory line.start line.size := by
  induction listing generalizing found with
  | nil =>
      cases hregions
      exact ⟨rfl, fun line hline => absurd hline List.not_mem_nil⟩
  | cons line lines ih =>
      simp only [regions] at hregions
      split_ifs at hregions with hpositive hwritable hreadable
      · obtain ⟨hfound, hlines⟩ := ih hregions
        have hvisited : visited (line :: lines) = line :: visited lines := by
          simp [visited, hpositive, hwritable]
        rw [hvisited, List.flatMap_cons, List.foldl_append]
        exact ⟨hfound, List.forall_mem_cons.mpr ⟨hreadable, hlines⟩⟩
      · have hvisited : visited (line :: lines) = visited lines := by
          simp [visited, hpositive, hwritable]
        rw [hvisited]
        exact ih hregions
      · have hvisited : visited (line :: lines) = [] := by
          simp [visited, hpositive]
        cases hregions
        rw [hvisited]
        exact ⟨rfl, fun line hline => absurd hline List.not_mem_nil⟩

theorem mem_cells {start size : ℕ} {cell : ℕ × BitVec 16} :
    cell ∈ cells memory start size ↔ (∃ k, 2 * k < size ∧ cell.1 = start + 2 * k) ∧
      halfword memory cell.1 = some cell.2 := by
  simp only [cells, List.mem_filterMap, List.mem_range, Option.map_eq_some_iff]
  constructor
  · rintro ⟨k, hk, v, hv, rfl⟩
    exact ⟨⟨k, by omega, rfl⟩, hv⟩
  · rintro ⟨⟨k, hk, hcell⟩, hv⟩
    refine ⟨k, by omega, cell.2, ?_, Prod.ext hcell.symm rfl⟩
    rwa [← hcell]

/-- A cell that the loop comes to, with its value. -/
theorem mem_visited_cells {cell : ℕ × BitVec 16} :
    (cell ∈ (visited listing).flatMap fun line => cells memory line.start line.size) ↔
      Visits listing cell.1 ∧ halfword memory cell.1 = some cell.2 := by
  simp only [List.mem_flatMap, mem_cells, Visits]
  constructor
  · rintro ⟨line, hline, hk, hv⟩
    exact ⟨⟨line, hline, hk⟩, hv⟩
  · rintro ⟨⟨line, hline, hk⟩, hv⟩
    exact ⟨line, hline, hk, hv⟩

theorem size_even (line : Line) : 2 ∣ line.size := by
  unfold Line.size
  omega

theorem halfword_isSome {start size : ℕ} (hreadable : readable memory start size)
    (hsize : 2 ∣ size) {k : ℕ} (hk : 2 * k < size) :
    (halfword memory (start + 2 * k)).isSome := by
  simp only [readable, Bool.and_eq_true, List.all_eq_true, List.mem_range] at hreadable
  obtain ⟨low, hlow⟩ := Option.isSome_iff_exists.mp (hreadable.2 (2 * k) hk)
  obtain ⟨high, hhigh⟩ := Option.isSome_iff_exists.mp (hreadable.2 (2 * k + 1) (by omega))
  rw [← Nat.add_assoc] at hhigh
  simp [halfword, hlow, hhigh]

/-- Every visited address has a value when the assertions hold. -/
theorem halfword_of_visits (hregions : regions val reset memory listing found = some found')
    (hvisits : Visits listing address) : ∃ v, halfword memory address = some v := by
  obtain ⟨line, hline, k, hk, rfl⟩ := hvisits
  exact Option.isSome_iff_exists.mp
    (halfword_isSome ((regions_eq_some hregions).2 line hline) (size_even line) hk)

theorem mem_visited {line : Line} (hline : line ∈ visited listing) :
    line ∈ listing ∧ line.positive ∧ line.writable := by
  obtain ⟨htake, hwritable⟩ := List.mem_filter.mp hline
  exact ⟨(List.takeWhile_sublist _).subset htake, List.mem_takeWhile_imp htake, hwritable⟩

theorem Visits.writable (hvisits : Visits listing address) :
    ∃ line ∈ listing, line.writable ∧ line.start ≤ address ∧
      address < line.start + line.size := by
  obtain ⟨line, hline, k, hk, rfl⟩ := hvisits
  obtain ⟨hlisting, -, hwritable⟩ := mem_visited hline
  exact ⟨line, hlisting, hwritable, Nat.le_add_right _ _, Nat.add_lt_add_left hk _⟩

/-- After the first scan every candidate was visited and matched. -/
theorem mem_regions_first (hregions : regions val true memory listing [] = some found')
    (hmem : address ∈ found') :
    Visits listing address ∧ halfword memory address = some val := by
  rw [(regions_eq_some hregions).1] at hmem
  rcases mem_visits_first _ hmem with hnil | hcell
  · exact absurd hnil List.not_mem_nil
  · exact mem_visited_cells.mp hcell

/-- A later scan leaves a candidate unless it visits it with another value. -/
theorem mem_regions_later (hregions : regions val false memory listing found = some found')
    (haddress : address ≠ 0) :
    address ∈ found' ↔ address ∈ found ∧
      (Visits listing address → halfword memory address = some val) := by
  rw [(regions_eq_some hregions).1, mem_visits_later haddress]
  refine and_congr_right fun _ => ?_
  constructor
  · intro hcells hvisits
    obtain ⟨v, hv⟩ := halfword_of_visits hregions hvisits
    rw [hv]
    exact congrArg some (hcells (address, v) (mem_visited_cells.mpr ⟨hvisits, hv⟩) rfl)
  · rintro hkept cell hcell rfl
    obtain ⟨hvisits, hv⟩ := mem_visited_cells.mp hcell
    exact Option.some.inj (hv.symm.trans (hkept hvisits))

end Regions

/-! ## Runs -/

section Runs

variable {commands : List Command} {command : Command} {before after state : State}

theorem sinceReset_snoc (commands : List Command) (command : Command) :
    sinceReset (commands ++ [command]) =
      (record (commands.foldl record (true, [])) command).2 := by
  rw [sinceReset, List.foldl_append]
  rfl

theorem scan_eq_some {val : BitVec 16} {listing : List Line} {memory : Memory}
    (hscan : scan val listing memory before = some after) :
    after.reset = false ∧ regions val before.reset memory listing
      (if before.reset then [] else before.found) = some after.found := by
  obtain ⟨found, hfound, hafter⟩ := Option.bind_eq_some_iff.mp hscan
  cases hafter
  exact ⟨rfl, hfound⟩

/-- Where a candidate comes from when a scan leaves it. -/
theorem mem_of_scan {scanned : Scan} (hstep : step before (.s scanned) = some after)
    {address : ℕ} (hmem : address ∈ after.found) (haddress : address ≠ 0) :
    (before.reset = true ∧ Visits scanned.listing address ∧
      halfword scanned.memory address = some (uint16 scanned.val)) ∨
    (before.reset = false ∧ address ∈ before.found ∧ (Visits scanned.listing address →
      halfword scanned.memory address = some (uint16 scanned.val))) := by
  obtain ⟨-, hregions⟩ := scan_eq_some hstep
  cases hflag : before.reset with
  | true =>
      rw [hflag] at hregions
      exact .inl ⟨rfl, mem_regions_first hregions hmem⟩
  | false =>
      rw [hflag] at hregions
      exact .inr ⟨rfl, (mem_regions_later hregions haddress).mp hmem⟩

/-- The flag of the program is that of the record. -/
theorem reset_eq (hrun : session.Run initial commands state) :
    state.reset = (commands.foldl record (true, [])).1 := by
  induction hrun with
  | nil => rfl
  | @snoc commands before after command _ hstep ih =>
      rw [List.foldl_append]
      cases command with
      | s command => exact (scan_eq_some hstep).1
      | w val =>
          cases hstep
          exact ih
      | r =>
          cases hstep
          rfl

/-- The candidates of a scan matched at this scan and at those since the reset before
it, when it visits all that are left. -/
theorem matched_scan {scanned : Scan} (hreset : before.reset =
      (commands.foldl record (true, [])).1) (hmatched : Matched commands before)
    (hcovered : Covered before (.s scanned)) (hstep : step before (.s scanned) = some after) :
    Matched (commands ++ [.s scanned]) after := by
  intro address hmem haddress
  rw [sinceReset_snoc, record, ← hreset]
  rcases mem_of_scan hstep hmem haddress with ⟨hflag, hvisits, hvalue⟩ | ⟨hflag, hbefore, hkept⟩
  · simp only [hflag, if_true, List.mem_singleton, forall_eq]
    exact ⟨hvisits.writable, hvalue⟩
  · have hvisits := hcovered hflag address hbefore haddress
    simp only [hflag, Bool.false_eq_true, if_false, List.mem_append, List.mem_singleton]
    rintro earlier (hearlier | rfl)
    · exact hmatched address hbefore haddress earlier hearlier
    · exact ⟨hvisits.writable, hkept hvisits⟩

theorem matched_step (hreset : before.reset = (commands.foldl record (true, [])).1)
    (hmatched : Matched commands before) (hcovered : Covered before command)
    (hstep : step before command = some after) : Matched (commands ++ [command]) after := by
  cases command with
  | s scanned => exact matched_scan hreset hmatched hcovered hstep
  | w val =>
      cases hstep
      intro address hmem haddress
      rw [sinceReset_snoc]
      exact hmatched address hmem haddress
  | r =>
      cases hstep
      intro address hmem haddress
      rw [sinceReset_snoc]
      exact hmatched address hmem haddress

theorem matched_of_guard (hrun : (session.guard Covered).Run initial commands state) :
    Matched commands state := by
  induction hrun with
  | nil => exact fun address hmem => absurd hmem List.not_mem_nil
  | snoc hbefore hstep ih =>
      exact matched_step (reset_eq hbefore.of_guard) ih hstep.1 hstep.2

/-- The candidates fit into `found`. -/
theorem length_found_le (hreach : session.Reachable state) : state.found.length ≤ LENGTH := by
  apply System.invariant_of_step (I := fun state : State => state.found.length ≤ LENGTH)
    ?_ ?_ hreach
  · rintro _ rfl
    exact Nat.zero_le _
  · intro before command after _ hlength hstep
    cases command with
    | s scanned =>
        obtain ⟨-, hregions⟩ := scan_eq_some hstep
        rw [(regions_eq_some hregions).1]
        apply length_visits_le
        split_ifs
        · exact Nat.zero_le _
        · exact hlength
    | w val =>
        cases hstep
        exact hlength
    | r =>
        cases hstep
        exact hlength

theorem length_overwrite (val : BitVec 16) (state : State) :
    (overwrite val state).length = state.matches := by
  rw [overwrite, List.length_map, State.matches, List.countP_eq_length_filter]

/-- No command writes to more places than `found` has. -/
theorem length_overwrite_le (hreach : session.Reachable state) (val : BitVec 16) :
    (overwrite val state).length ≤ LENGTH := by
  rw [length_overwrite]
  exact List.countP_le_length.trans (length_found_le hreach)

theorem mem_overwrite {val : BitVec 16} {write : ℕ × BitVec 16}
    (hwrite : write ∈ overwrite val state) : write.1 ∈ state.found ∧ write.1 ≠ 0 := by
  obtain ⟨address, hmem, rfl⟩ := List.mem_map.mp hwrite
  simpa using hmem

end Runs

/-! ## Listings as `pmap` prints them -/

/-- Regions start at a page, and no writable one is listed behind the line that ends the
loop. -/
def Regular : Command → Prop
  | .s command => ∀ line ∈ command.listing, 4096 ∣ line.start ∧
      (line.writable → line ∈ command.listing.takeWhile Line.positive)
  | .w _ | .r => True

section Regular

variable {commands : List Command} {command : Command} {before after state : State}

theorem Visits.even {scanned : Scan} (hregular : Regular (.s scanned)) {address : ℕ}
    (hvisits : Visits scanned.listing address) : 2 ∣ address := by
  obtain ⟨line, hline, k, -, rfl⟩ := hvisits
  have hpage := (hregular line (mem_visited hline).1).1
  omega

theorem visits_of_matches {scanned : Scan} (hregular : Regular (.s scanned)) {address : ℕ}
    (heven : 2 ∣ address) (hmatches : scanned.Matches address) :
    Visits scanned.listing address := by
  obtain ⟨⟨line, hline, hwritable, hlow, hhigh⟩, -⟩ := hmatches
  obtain ⟨hpage, htake⟩ := hregular line hline
  refine ⟨line, List.mem_filter.mpr ⟨htake hwritable, hwritable⟩,
    (address - line.start) / 2, ?_, ?_⟩
  all_goals omega

theorem even_of_run (hrun : session.Run initial commands state)
    (hregular : ∀ command ∈ commands, Regular command) :
    ∀ address ∈ state.found, 2 ∣ address := by
  induction hrun with
  | nil => exact fun address hmem => absurd hmem List.not_mem_nil
  | @snoc commands before after command _ hstep ih =>
      have hbefore := ih fun command hmem => hregular command (List.mem_append_left _ hmem)
      cases command with
      | s scanned =>
          intro address hmem
          by_cases haddress : address = 0
          · exact haddress ▸ dvd_zero 2
          rcases mem_of_scan hstep hmem haddress with ⟨-, hvisits, -⟩ | ⟨-, hfound, -⟩
          · exact hvisits.even (hregular _ (by simp))
          · exact hbefore address hfound
      | w val =>
          cases hstep
          exact hbefore
      | r =>
          cases hstep
          exact hbefore

/-- A candidate that a later scan does not visit stays, without having matched. -/
theorem covered_of_matched (hrun : session.Run initial commands before)
    (hstep : step before command = some after)
    (hregular : ∀ earlier ∈ commands ++ [command], Regular earlier)
    (hmatched : Matched (commands ++ [command]) after) : Covered before command := by
  cases command with
  | w val => trivial
  | r => trivial
  | s scanned =>
      intro hflag address hmem haddress
      by_contra hvisits
      obtain ⟨-, hregions⟩ := scan_eq_some hstep
      rw [hflag] at hregions
      have hkept : address ∈ after.found :=
        (mem_regions_later hregions haddress).mpr ⟨hmem, fun hyes => absurd hyes hvisits⟩
      have hlast : scanned ∈ sinceReset (commands ++ [.s scanned]) := by
        rw [sinceReset_snoc, record, ← reset_eq hrun, hflag]
        exact List.mem_append_right _ List.mem_cons_self
      have heven := even_of_run hrun
        (fun earlier hearlier => hregular earlier (List.mem_append_left _ hearlier)) address hmem
      exact hvisits (visits_of_matches (hregular _ (by simp)) heven
        (hmatched address hkept haddress scanned hlast))

theorem guard_of_matched (hrun : session.Run initial commands state)
    (hregular : ∀ command ∈ commands, Regular command)
    (hmatched : ∀ first second middle, first ++ second = commands →
      session.Run initial first middle → Matched first middle) :
    (session.guard Covered).Run initial commands state := by
  induction hrun with
  | nil => exact System.Run.nil
  | @snoc commands before after command hbefore hstep ih =>
      have hguard := ih
        (fun earlier hearlier => hregular earlier (List.mem_append_left _ hearlier))
        fun first second middle hfirst =>
          hmatched first (second ++ [command]) middle (by rw [← List.append_assoc, hfirst])
      have hafter := hmatched _ [] after (List.append_nil _) (hbefore.snoc hstep)
      exact hguard.snoc ⟨covered_of_matched hbefore hstep hregular hafter, hstep⟩

end Regular

/-- When every later scan visits all candidates that are left, the candidates and the
addresses that `overwrite` writes to have matched at every scan since the reset; on
listings of `pmap` this is the only way. -/
theorem matched_iff_covered {commands : List Command} {state : State}
    (hrun : session.Run initial commands state) :
    ((session.guard Covered).Run initial commands state →
      Matched commands state ∧
        ∀ val, ∀ write ∈ overwrite val state, ∀ command ∈ sinceReset commands,
          command.Matches write.1) ∧
    ((∀ command ∈ commands, Regular command) →
      (∀ first second middle, first ++ second = commands →
        session.Run initial first middle → Matched first middle) →
      (session.guard Covered).Run initial commands state) := by
  constructor
  · intro hguard
    have hmatched := matched_of_guard hguard
    refine ⟨hmatched, ?_⟩
    intro val write hwrite
    obtain ⟨hmem, haddress⟩ := mem_overwrite hwrite
    exact hmatched write.1 hmem haddress
  · exact guard_of_matched hrun

/-- A region of one page whose first value is 7. -/
def page : Scan where
  val := 7
  listing := [⟨0x1000, 4, "rw---".toList⟩]
  memory address :=
    if 0x1000 ≤ address ∧ address < 0x2000 then some (if address = 0x1000 then 7 else 0)
    else none

section Page

theorem page_memory {address : ℕ} (hlow : 0x1000 ≤ address) (hhigh : address < 0x2000) :
    page.memory address = some (if address = 0x1000 then 7 else 0) :=
  if_pos ⟨hlow, hhigh⟩

theorem readable_page : readable page.memory 0x1000 4096 := by
  simp only [readable, Bool.and_eq_true, List.all_eq_true, List.mem_range]
  refine ⟨by decide, fun i hi => ?_⟩
  rw [page_memory (by omega) (by omega)]
  rfl

theorem page_halfword {k : ℕ} (hk : k < 2048) :
    halfword page.memory (0x1000 + 2 * k) = some (if k = 0 then 7 else 0) := by
  rw [halfword, page_memory (by omega) (by omega), page_memory (by omega) (by omega)]
  simp only [Option.bind_eq_bind, Option.bind_some]
  rw [if_neg (by omega : ¬ 0x1000 + 2 * k + 1 = 0x1000)]
  by_cases hzero : k = 0
  · rw [if_pos hzero, if_pos (by omega)]
    rfl
  · rw [if_neg hzero, if_neg (by omega)]
    rfl

/-- The loop over a cell that changes nothing. -/
theorem visits_eq_self {val : BitVec 16} {reset : Bool} {found : List ℕ}
    (cells : List (ℕ × BitVec 16))
    (hcells : ∀ cell ∈ cells, visit val reset found cell = found) :
    cells.foldl (visit val reset) found = found := by
  induction cells with
  | nil => rfl
  | cons cell cells ih =>
      rw [List.foldl_cons, hcells cell List.mem_cons_self]
      exact ih fun other hother => hcells other (List.mem_cons_of_mem cell hother)

/-- Only the first cell holds 7. -/
theorem page_cells : ∃ rest, cells page.memory 0x1000 4096 = (0x1000, 7) :: rest ∧
    ∀ cell ∈ rest, cell.1 ≠ 0x1000 ∧ cell.2 = 0 := by
  refine ⟨((List.range 2047).map Nat.succ).filterMap fun k =>
    (halfword page.memory (0x1000 + 2 * k)).map fun v => (0x1000 + 2 * k, v), ?_, ?_⟩
  · have hrange : List.range ((4096 + 1) / 2) = 0 :: (List.range 2047).map Nat.succ :=
      List.range_succ_eq_map
    rw [cells, hrange]
    apply List.filterMap_cons_some
    rw [page_halfword (by decide)]
    rfl
  · intro cell hcell
    obtain ⟨k, hk, hcell⟩ := List.mem_filterMap.mp hcell
    obtain ⟨j, hj, rfl⟩ := List.mem_map.mp hk
    have hlt : j.succ < 2048 := by
      have := List.mem_range.mp hj
      omega
    rw [page_halfword hlt, if_neg (Nat.succ_ne_zero j)] at hcell
    cases hcell
    refine ⟨?_, rfl⟩
    show 0x1000 + 2 * (j + 1) ≠ 0x1000
    omega

theorem scan_page {found : List ℕ} {reset : Bool} (hfound : (cells page.memory 0x1000 4096).foldl
      (visit 7 reset) (if reset then [] else found) = [0x1000]) :
    step ⟨found, reset⟩ (.s page) = some ⟨[0x1000], false⟩ := by
  have hregions : regions 7 reset page.memory page.listing (if reset then [] else found) =
      some [0x1000] := by
    rw [← hfound]
    simp only [page, regions]
    rw [if_pos (by decide), if_pos (by decide)]
    exact if_pos readable_page
  show scan 7 page.listing page.memory ⟨found, reset⟩ = _
  rw [scan, hregions]
  rfl

theorem step_page : step initial (.s page) = some ⟨[0x1000], false⟩ := by
  apply scan_page
  obtain ⟨rest, hcells, hrest⟩ := page_cells
  rw [hcells, List.foldl_cons]
  apply visits_eq_self
  intro cell hcell
  simp [visit, (hrest cell hcell).2]

theorem step_page_again : step ⟨[0x1000], false⟩ (.s page) = some ⟨[0x1000], false⟩ := by
  apply scan_page
  obtain ⟨rest, hcells, hrest⟩ := page_cells
  rw [hcells, List.foldl_cons]
  apply visits_eq_self
  intro cell hcell
  simp [visit, (hrest cell hcell).1.symm]

theorem visits_page : Visits page.listing 0x1000 :=
  ⟨_, List.mem_cons_self, 0, by decide, rfl⟩

theorem guard_page : (session.guard Covered).Run initial [.s page, .s page]
    ⟨[0x1000], false⟩ := by
  have hfirst : (session.guard Covered).step initial (.s page) ⟨[0x1000], false⟩ := by
    refine ⟨?_, step_page⟩
    intro hflag
    cases hflag
  have hsecond : (session.guard Covered).step ⟨[0x1000], false⟩ (.s page)
      ⟨[0x1000], false⟩ := by
    refine ⟨?_, step_page_again⟩
    intro _ address hmem _
    rw [List.mem_singleton.mp hmem]
    exact visits_page
  exact (System.Run.single hfirst).snoc hsecond

end Page

/-- Two scans of the same page. -/
theorem matched_page : ∃ state, session.Run initial [.s page, .s page] state ∧
    (session.guard Covered).Run initial [.s page, .s page] state ∧
    Matched [.s page, .s page] state := by
  have hrun := guard_page.of_guard
  exact ⟨_, hrun, guard_page, ((matched_iff_covered hrun).1 guard_page).1⟩

/-- The page is gone at the second scan, and its candidate is still there. -/
theorem not_matched_unmapped : ∃ state, session.Run initial
      [.s page, .s { page with listing := [], memory := fun _ => none }] state ∧
    ¬ Matched [.s page, .s { page with listing := [], memory := fun _ => none }] state ∧
    overwrite 9 state = [(0x1000, 9)] := by
  have hfirst : session.Run initial [.s page] ⟨[0x1000], false⟩ := .single step_page
  refine ⟨⟨[0x1000], false⟩, hfirst.snoc rfl, ?_, by decide⟩
  intro hmatched
  have hlast := hmatched 0x1000 List.mem_cons_self (by decide) _
    (List.mem_cons_of_mem _ List.mem_cons_self)
  obtain ⟨⟨line, hline, -⟩, -⟩ := hlast
  exact List.not_mem_nil hline

end JyyOS.DosboxHack
