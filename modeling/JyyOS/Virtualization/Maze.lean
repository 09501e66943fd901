import Mathlib.Data.Fintype.Card
import Mathlib.Data.Fintype.Prod
import Mathlib.Data.List.Nodup
import Mathlib.Tactic

/-!
# Mazes and their simple paths

The map of `dfs-fork.c` and the paths that its search is about, with their
drawing.  The paths are enumerated by recursion: a step leaves its arrow behind,
so that no later step comes back.
-/

namespace JyyOS.DfsFork

abbrev DEST := '+'
abbrev EMPTY := '.'

/-- Row and column, as the code computes them. -/
abbrev Cell := ℤ × ℤ

/-- A rectangular map. -/
abbrev Grid (height width : ℕ) := Fin height × Fin width → Char

/-- The entries of `moves`. -/
inductive Move where
  | right | down | left | up
deriving DecidableEq

def moves : List Move := [.right, .down, .left, .up]

def Move.x : Move → ℤ
  | .right => 0
  | .down => 1
  | .left => 0
  | .up => -1

def Move.y : Move → ℤ
  | .right => 1
  | .down => 0
  | .left => -1
  | .up => 0

def Move.ch : Move → Char
  | .right => '>'
  | .down => 'v'
  | .left => '<'
  | .up => '^'

/-- `x + m->x, y + m->y` -/
def Move.next (m : Move) (c : Cell) : Cell := (c.1 + m.x, c.2 + m.y)

theorem Move.ch_ne (m : Move) : m.ch ≠ EMPTY ∧ m.ch ≠ DEST := by
  cases m <;> decide

theorem Move.next_ne (m : Move) (c : Cell) : m.next c ≠ c := by
  intro heq
  have hx := congrArg Prod.fst heq
  have hy := congrArg Prod.snd heq
  cases m <;> simp [Move.next, Move.x, Move.y] at hx hy

section Maps

variable {height width : ℕ} {map : Grid height width} {c : Cell}

/-- The coordinates of an index. -/
def position (i : Fin height × Fin width) : Cell := (i.1, i.2)

theorem position_injective : Function.Injective (position : Fin height × Fin width → Cell) := by
  intro i j heq
  have hx : ((i.1 : ℕ) : ℤ) = (j.1 : ℕ) := congrArg Prod.fst heq
  have hy : ((i.2 : ℕ) : ℤ) = (j.2 : ℕ) := congrArg Prod.snd heq
  exact Prod.ext (Fin.ext (by omega)) (Fin.ext (by omega))

/-- `map[x][y]`, `none` outside of the map. -/
def read (map : Grid height width) (c : Cell) : Option Char :=
  if hc : (0 ≤ c.1 ∧ c.1 < height) ∧ (0 ≤ c.2 ∧ c.2 < width) then
    some (map (⟨c.1.toNat, by omega⟩, ⟨c.2.toNat, by omega⟩))
  else none

/-- `map[x][y] = ch` -/
def write (map : Grid height width) (c : Cell) (ch : Char) : Grid height width :=
  fun i => if position i = c then ch else map i

@[simp]
theorem read_position (map : Grid height width) (i : Fin height × Fin width) :
    read map (position i) = some (map i) := by
  have hx := i.1.isLt
  have hy := i.2.isLt
  rw [read, dif_pos (by simp only [position]; omega)]
  exact congrArg (fun j => some (map j)) (Prod.ext (Fin.ext (by simp [position]))
    (Fin.ext (by simp [position])))

/-- A cell that can be read is one of the map. -/
theorem exists_position {ch : Char} (hread : read map c = some ch) :
    ∃ i : Fin height × Fin width, position i = c ∧ map i = ch := by
  unfold read at hread
  split_ifs at hread with hc
  refine ⟨_, ?_, Option.some.inj hread⟩
  exact Prod.ext (Int.toNat_of_nonneg hc.1.1) (Int.toNat_of_nonneg hc.2.1)

theorem read_write_self {old : Char} (hread : read map c = some old) (ch : Char) :
    read (write map c ch) c = some ch := by
  obtain ⟨i, rfl, -⟩ := exists_position hread
  rw [read_position, write, if_pos rfl]

theorem read_write_of_ne {c' : Cell} (hne : c' ≠ c) (ch : Char) :
    read (write map c ch) c' = read map c' := by
  unfold read
  split_ifs with hc
  · refine congrArg some (if_neg ?_)
    intro heq
    apply hne
    rw [← heq]
    exact Prod.ext (Int.toNat_of_nonneg hc.1.1).symm (Int.toNat_of_nonneg hc.2.1).symm
  · rfl

/-! ## Paths -/

/-- The cells that a path leaves. -/
def cells (c : Cell) : List Move → List Cell
  | [] => []
  | m :: path => c :: cells (m.next c) path

/-- The cell where a path ends. -/
def finish (c : Cell) : List Move → Cell
  | [] => c
  | m :: path => finish (m.next c) path

/-- A path through different empty cells that ends at its first destination. -/
structure SimplePath (map : Grid height width) (c : Cell) (path : List Move) : Prop where
  empty : ∀ cell ∈ cells c path, read map cell = some EMPTY
  nodup : (cells c path).Nodup
  dest : read map (finish c path) = some DEST

/-- The arrow of the step that a path takes from a cell. -/
def arrow (c : Cell) : List Move → Cell → Option Char
  | [], _ => none
  | m :: path, cell => if cell = c then some m.ch else arrow (m.next c) path cell

/-- The map with the arrows of a path. -/
def draw (map : Grid height width) (c : Cell) (path : List Move) : Grid height width :=
  fun i => (arrow c path (position i)).getD (map i)

theorem arrow_eq_none {path : List Move} {cell : Cell} (hcell : cell ∉ cells c path) :
    arrow c path cell = none := by
  induction path generalizing c with
  | nil => rfl
  | cons m path ih =>
      simp only [cells, List.mem_cons, not_or] at hcell
      rw [arrow, if_neg hcell.1, ih hcell.2]

/-- The first arrow can be written ahead if the path does not come back. -/
theorem draw_cons {m : Move} {path : List Move} (hleft : c ∉ cells (m.next c) path) :
    draw map c (m :: path) = draw (write map c m.ch) (m.next c) path := by
  funext i
  by_cases hi : position i = c
  · simp only [draw, arrow, write, hi, if_true, arrow_eq_none hleft, Option.getD_some,
      Option.getD_none]
  · simp only [draw, arrow, write, hi, if_false]

theorem simplePath_nil : SimplePath map c [] ↔ read map c = some DEST :=
  ⟨fun hpath => hpath.dest, fun hread => ⟨by simp [cells], List.nodup_nil, hread⟩⟩

/-- A path does not come back to a cell with an arrow on it. -/
theorem SimplePath.left_behind {m : Move} {c' : Cell} {path : List Move} {old : Char}
    (hread : read map c = some old) (hpath : SimplePath (write map c m.ch) c' path) :
    c ∉ cells c' path := by
  intro hback
  have hempty := hpath.empty c hback
  rw [read_write_self hread] at hempty
  exact m.ch_ne.1 (Option.some.inj hempty)

/-- The rest of a simple path is one on the map with the arrow of its first
step. -/
theorem simplePath_cons {m : Move} {path : List Move} :
    SimplePath map c (m :: path) ↔
      read map c = some EMPTY ∧ SimplePath (write map c m.ch) (m.next c) path := by
  constructor
  · intro hpath
    have hread : read map c = some EMPTY := hpath.empty c List.mem_cons_self
    have hnodup := List.nodup_cons.mp hpath.nodup
    have hdest : finish (m.next c) path ≠ c := by
      intro heq
      have hread' := hpath.dest
      rw [finish, heq, hread] at hread'
      exact absurd hread' (by decide)
    refine ⟨hread, fun cell hcell => ?_, hnodup.2, ?_⟩
    · have hne : cell ≠ c := fun heq => hnodup.1 (heq ▸ hcell)
      rw [read_write_of_ne hne]
      exact hpath.empty cell (List.mem_cons_of_mem _ hcell)
    · rw [read_write_of_ne hdest]
      exact hpath.dest
  · rintro ⟨hread, hrest⟩
    have hback := hrest.left_behind hread
    have hdest : finish (m.next c) path ≠ c := by
      intro heq
      have hread' := hrest.dest
      rw [heq, read_write_self hread] at hread'
      exact m.ch_ne.2 (Option.some.inj hread')
    refine ⟨fun cell hcell => ?_, List.nodup_cons.mpr ⟨hback, hrest.nodup⟩, ?_⟩
    · rcases List.mem_cons.mp hcell with rfl | hlater
      · exact hread
      · have hne : cell ≠ c := fun heq => hback (heq ▸ hlater)
        rw [← read_write_of_ne hne m.ch]
        exact hrest.empty cell hlater
    · rw [finish, ← read_write_of_ne hdest m.ch]
      exact hrest.dest

/-! ## All simple paths -/

def dots (map : Grid height width) : ℕ := (Finset.univ.filter fun i => map i = EMPTY).card

/-- An arrow takes one empty cell away. -/
theorem dots_write (hread : read map c = some EMPTY) (m : Move) :
    dots (write map c m.ch) + 1 = dots map := by
  obtain ⟨i, rfl, hi⟩ := exists_position hread
  have herase : (Finset.univ.filter fun j => write map (position i) m.ch j = EMPTY) =
      (Finset.univ.filter fun j => map j = EMPTY).erase i := by
    ext j
    simp only [Finset.mem_filter, Finset.mem_univ, true_and, Finset.mem_erase, write,
      position_injective.eq_iff]
    by_cases hj : j = i
    · simp [hj, m.ch_ne.1]
    · simp [hj]
  rw [dots, herase]
  exact Finset.card_erase_add_one (by simpa using hi)

/-- The simple paths from a cell. -/
def paths (map : Grid height width) (c : Cell) : List (List Move) :=
  if read map c = some DEST then [[]]
  else if _ : read map c = some EMPTY then
    moves.flatMap fun m => (paths (write map c m.ch) (m.next c)).map (m :: ·)
  else []
termination_by dots map
decreasing_by
  have := dots_write ‹read map c = some EMPTY› m
  omega

theorem paths_dest (hread : read map c = some DEST) : paths map c = [[]] := by
  rw [paths, if_pos hread]

theorem paths_empty (hread : read map c = some EMPTY) :
    paths map c =
      moves.flatMap fun m => (paths (write map c m.ch) (m.next c)).map (m :: ·) := by
  rw [paths, if_neg (by rw [hread]; decide), dif_pos hread]

theorem paths_closed (hempty : read map c ≠ some EMPTY) (hdest : read map c ≠ some DEST) :
    paths map c = [] := by
  rw [paths, if_neg hdest, dif_neg hempty]

theorem mem_moves (m : Move) : m ∈ moves := by
  cases m <;> decide

theorem mem_paths {path : List Move} : path ∈ paths map c ↔ SimplePath map c path := by
  induction path generalizing map c with
  | nil =>
      rw [simplePath_nil]
      by_cases hdest : read map c = some DEST
      · simp [paths_dest hdest, hdest]
      · by_cases hempty : read map c = some EMPTY
        · simp [paths_empty hempty, hdest]
        · simp [paths_closed hempty hdest, hdest]
  | cons m path ih =>
      rw [simplePath_cons, ← ih]
      by_cases hempty : read map c = some EMPTY
      · simp [paths_empty hempty, hempty, mem_moves]
      · by_cases hdest : read map c = some DEST
        · simp [paths_dest hdest, hempty]
        · simp [paths_closed hempty hdest, hempty]

theorem nodup_paths (map : Grid height width) (c : Cell) : (paths map c).Nodup := by
  induction map, c using paths.induct with
  | case1 map c hdest =>
      rw [paths_dest hdest]
      exact List.nodup_singleton _
  | case2 map c hdest hempty ih =>
      rw [paths_empty hempty, List.nodup_flatMap]
      refine ⟨fun m _ => (ih m).map (List.cons_injective), ?_⟩
      have hmoves : moves.Nodup := by decide
      refine hmoves.imp fun {m m'} hne => ?_
      rw [Function.onFun, List.disjoint_left]
      intro path hfirst hsecond
      obtain ⟨rest, -, rfl⟩ := List.mem_map.mp hfirst
      obtain ⟨rest', -, hsame⟩ := List.mem_map.mp hsecond
      exact hne (List.cons.inj hsame).1.symm
  | case3 map c hdest hempty =>
      rw [paths_closed hempty hdest]
      exact List.nodup_nil

end Maps

end JyyOS.DfsFork
