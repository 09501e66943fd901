import Mathlib.Data.List.Infix
import Mathlib.Tactic

/-!
# The law of the producer-consumer printers

`pc-check.py` reads what a producer-consumer program prints and asserts after
every character that the number of open brackets is between zero and the
buffer size.  `Bounded` states that law over prefixes, and `pcCheck` is the
loop of the script.
-/

namespace JyyOS.Brackets

/-- The two thread functions that `main` starts any number of times. -/
inductive Role where
  | producer
  | consumer
  deriving DecidableEq

instance : Fintype Role where
  elems := {.producer, .consumer}
  complete role := by cases role <;> decide

/-- Contribution of one printed character to `count` in `pc-check.py`. -/
def weight (symbol : Char) : ℤ :=
  if symbol = '(' then 1 else if symbol = ')' then -1 else 0

/-- `#'(' - #')'`. -/
def depth (out : List Char) : ℤ :=
  (out.map weight).sum

@[simp]
theorem depth_nil : depth [] = 0 := rfl

@[simp]
theorem depth_append (left right : List Char) :
    depth (left ++ right) = depth left + depth right := by
  simp [depth]

@[simp]
theorem depth_open : depth ['('] = 1 := rfl

@[simp]
theorem depth_close : depth [')'] = -1 := rfl

/-- Every prefix of the output keeps the bracket depth in `[0, limit]`. -/
def Bounded (limit : ℤ) (out : List Char) : Prop :=
  ∀ read, read <+: out → 0 ≤ depth read ∧ depth read ≤ limit

theorem bounded_nil {limit : ℤ} (hlimit : 0 ≤ limit) : Bounded limit [] := by
  intro read hread
  rw [List.prefix_nil.mp hread]
  exact ⟨le_refl 0, hlimit⟩

/-- One more printed character keeps the law when the depth after it is in
range. -/
theorem Bounded.snoc {limit : ℤ} {out : List Char} {symbol : Char}
    (hbounded : Bounded limit out)
    (hlast : 0 ≤ depth (out ++ [symbol]) ∧ depth (out ++ [symbol]) ≤ limit) :
    Bounded limit (out ++ [symbol]) := by
  intro read hread
  rcases List.prefix_concat_iff.mp hread with rfl | hshorter
  · exact hlast
  · exact hbounded read hshorter

/-- The loop of `pc-check.py` on the characters still to be read. -/
def pcCheck (limit : ℤ) : ℤ → List Char → Bool
  | _, [] => true
  | count, symbol :: rest =>
      let count := count + weight symbol
      decide (0 ≤ count ∧ count ≤ limit) && pcCheck limit count rest

theorem pcCheck_of_bounded {limit : ℤ} (read rest : List Char)
    (hbounded : Bounded limit (read ++ rest)) :
    pcCheck limit (depth read) rest = true := by
  induction rest generalizing read with
  | nil => rfl
  | cons symbol rest ih =>
      have hnext : depth read + weight symbol = depth (read ++ [symbol]) := by
        simp [depth]
      have hrange := hbounded (read ++ [symbol]) ⟨rest, by simp⟩
      have hrest : pcCheck limit (depth (read ++ [symbol])) rest = true := by
        apply ih
        simpa using hbounded
      simp only [pcCheck, hnext, hrange, hrest, and_self, decide_true,
        Bool.and_self]

/-- Output that obeys the law passes the script. -/
theorem pcCheck_eq_true {limit : ℤ} {out : List Char}
    (hbounded : Bounded limit out) : pcCheck limit 0 out = true :=
  pcCheck_of_bounded [] out hbounded

end JyyOS.Brackets
