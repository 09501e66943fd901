import Mathlib.Logic.Relation
import Mathlib.Tactic

/-!
# Hanoi with and without recursion (`hanoi-r.c`, `hanoi-nr.c`)

`hanoi-nr.c` runs the recursive function with frames of its own, each with a
program counter.  Both programs print the moves of `moves`; the interpreter
does so by a run for each frame, nested as the calls are.
-/

namespace JyyOS.Hanoi

/-- A `char`. -/
abbrev Peg := UInt8

/-- A line `"%c -> %c\n"`. -/
structure Line where
  fromPeg : Peg
  toPeg : Peg
deriving DecidableEq

/-! ## The recursive function -/

/-- `hanoi` of `hanoi-r.c`, `none` when the fuel does not suffice for the depth
of its recursion. -/
def hanoiR : ℕ → Int32 → Peg → Peg → Peg → Option (List Line)
  | 0, _, _, _, _ => none
  | fuel + 1, n, fromPeg, toPeg, viaPeg =>
      if n = 1 then some [⟨fromPeg, toPeg⟩]
      else do
        let first ← hanoiR fuel (n - 1) fromPeg viaPeg toPeg
        let middle ← hanoiR fuel 1 fromPeg toPeg viaPeg
        let last ← hanoiR fuel (n - 1) viaPeg toPeg fromPeg
        some (first ++ middle ++ last)

/-! ## The interpreter -/

structure Frame where
  pc : UInt32
  n : UInt32
  fromPeg : Peg
  toPeg : Peg
  viaPeg : Peg

/-- The local variables of `hanoi` in `hanoi-nr.c` and what has been printed.
`depth` is `top + 1 - stk`, and `stk` has no end. -/
structure State where
  stk : ℕ → Frame
  depth : ℕ
  out : List Line

/-- The macro `call`. -/
def State.call (state : State) (n : UInt32) (fromPeg toPeg viaPeg : Peg) : State :=
  { state with
    stk := Function.update state.stk state.depth ⟨0, n, fromPeg, toPeg, viaPeg⟩
    depth := state.depth + 1 }

/-- The macro `ret`. -/
def State.ret (state : State) : State := { state with depth := state.depth - 1 }

/-- `f->pc = pc` -/
def State.setPc (state : State) (f : ℕ) (pc : UInt32) : State :=
  { state with stk := Function.update state.stk f { state.stk f with pc := pc } }

section Fields

variable (state : State) (f : ℕ) (pc n : UInt32) (fromPeg toPeg viaPeg : Peg)

@[simp] theorem setPc_depth : (state.setPc f pc).depth = state.depth := rfl

@[simp] theorem setPc_out : (state.setPc f pc).out = state.out := rfl

@[simp] theorem setPc_top : (state.setPc f pc).stk f = { state.stk f with pc := pc } := by
  simp [State.setPc]

theorem setPc_of_ne {i : ℕ} (hi : i ≠ f) : (state.setPc f pc).stk i = state.stk i :=
  Function.update_of_ne hi ..

@[simp] theorem call_depth :
    (state.call n fromPeg toPeg viaPeg).depth = state.depth + 1 := rfl

@[simp] theorem call_out : (state.call n fromPeg toPeg viaPeg).out = state.out := rfl

theorem call_top :
    (state.call n fromPeg toPeg viaPeg).stk state.depth = ⟨0, n, fromPeg, toPeg, viaPeg⟩ :=
  Function.update_self ..

theorem call_below {i : ℕ} (hi : i < state.depth) :
    (state.call n fromPeg toPeg viaPeg).stk i = state.stk i :=
  Function.update_of_ne hi.ne ..

end Fields

def State.printf (state : State) (line : Line) : State :=
  { state with out := state.out ++ [line] }

/-- The `switch`, `none` when it comes to `assert(0)`. -/
def State.switch (state : State) (f : ℕ) : Option State :=
  let frame := state.stk f
  if frame.pc = 0 then
    if frame.n = 1 then
      some ((state.printf ⟨frame.fromPeg, frame.toPeg⟩).setPc f 3)
    else some state
  else if frame.pc = 1 then
    some (state.call (frame.n - 1) frame.fromPeg frame.viaPeg frame.toPeg)
  else if frame.pc = 2 then some (state.call 1 frame.fromPeg frame.toPeg frame.viaPeg)
  else if frame.pc = 3 then
    some (state.call (frame.n - 1) frame.viaPeg frame.toPeg frame.fromPeg)
  else if frame.pc = 4 then some state.ret
  else none

/-- One round of the `for` loop: `f` stays the frame that was on top before the
`switch`, also when it has been returned from. -/
def State.round (state : State) : Option State := do
  let f := state.depth - 1
  let after ← state.switch f
  some (after.setPc f ((after.stk f).pc + 1))

/-- The loop after this many rounds. -/
def State.rounds (state : State) : ℕ → Option State
  | 0 => some state
  | k + 1 => do
      let before ← state.rounds k
      if before.depth = 0 then some before else before.round

/-- The state behind the first `call`. -/
def hanoi (stk : ℕ → Frame) (n : Int32) (fromPeg toPeg viaPeg : Peg) : State :=
  State.call ⟨stk, 0, []⟩ n.toUInt32 fromPeg toPeg viaPeg

/-! ## The moves -/

/-- What both programs print for `n` disks. -/
def moves : ℕ → Peg → Peg → Peg → List Line
  | 0, _, _, _ => []
  | n + 1, fromPeg, toPeg, viaPeg =>
      moves n fromPeg viaPeg toPeg ++ [⟨fromPeg, toPeg⟩] ++ moves n viaPeg toPeg fromPeg

theorem toInt_sub_one {n : Int32} {k : ℕ} (hn : n.toInt = k + 2) :
    (n - 1).toInt = k + 1 := by
  have hlt := n.toInt_lt
  rw [Int32.toInt_sub, hn]
  rw [hn] at hlt
  simp [Int.bmod]
  omega

/-- The recursion is as deep as there are disks. -/
theorem hanoiR_eq (k : ℕ) {n : Int32} (hn : n.toInt = k + 1) {fuel : ℕ} (hfuel : k < fuel)
    (fromPeg toPeg viaPeg : Peg) :
    hanoiR fuel n fromPeg toPeg viaPeg = some (moves (k + 1) fromPeg toPeg viaPeg) := by
  induction k generalizing n fuel fromPeg toPeg viaPeg with
  | zero =>
      obtain ⟨fuel, rfl⟩ : ∃ less, fuel = less + 1 := ⟨fuel - 1, by omega⟩
      have hone : n = 1 := Int32.toInt_inj.mp hn
      rw [hanoiR, if_pos hone]
      rfl
  | succ k ih =>
      obtain ⟨fuel, rfl⟩ : ∃ less, fuel = less + 1 := ⟨fuel - 1, by omega⟩
      have hmany : n ≠ 1 := by
        rintro rfl
        have hone : (1 : Int32).toInt = 1 := rfl
        omega
      have hless : (n - 1).toInt = k + 1 := toInt_sub_one (by rw [hn]; push_cast; ring)
      obtain ⟨fuel, rfl⟩ : ∃ less, fuel = less + 1 := ⟨fuel - 1, by omega⟩
      have hmiddle : hanoiR (fuel + 1) 1 fromPeg toPeg viaPeg = some [⟨fromPeg, toPeg⟩] := by
        rw [hanoiR, if_pos rfl]
      rw [hanoiR, if_neg hmany, ih hless (by omega), ih hless (by omega), hmiddle]
      rfl

/-! ## Runs of the loop -/

/-- One round, taken with a frame on the stack and leaving no more than `bound`. -/
def Within (bound : ℕ) (state after : State) : Prop :=
  0 < state.depth ∧ state.round = some after ∧ after.depth ≤ bound

/-- The loop comes from `state` to `after`, prints `lines` on the way and leaves
the frames below `t` as they were. -/
structure Leads (bound t : ℕ) (lines : List Line) (state after : State) : Prop where
  run : Relation.ReflTransGen (Within bound) state after
  out : after.out = state.out ++ lines
  below : ∀ i < t, after.stk i = state.stk i

namespace Leads

variable {bound t : ℕ} {first second : List Line} {state middle after : State}

theorem trans (hfirst : Leads bound t first state middle)
    (hsecond : Leads bound t second middle after) :
    Leads bound t (first ++ second) state after where
  run := hfirst.run.trans hsecond.run
  out := by rw [hsecond.out, hfirst.out, List.append_assoc]
  below i hi := (hsecond.below i hi).trans (hfirst.below i hi)

theorem of_above (hleads : Leads bound (t + 1) first state after) :
    Leads bound t first state after :=
  { hleads with below := fun i hi => hleads.below i (by omega) }

end Leads

section Rounds

variable {t : ℕ} {state after : State}

/-- A round on the frame `t`, which is the top one. -/
theorem round_eq (hdepth : state.depth = t + 1) (hswitch : state.switch t = some after) :
    state.round = some (after.setPc t ((after.stk t).pc + 1)) := by
  rw [State.round, hdepth, Nat.add_sub_cancel, hswitch]
  rfl

theorem leads_round (bound : ℕ) (lines : List Line) (hdepth : state.depth = t + 1)
    (hswitch : state.switch t = some after) (hbound : after.depth ≤ bound)
    (hout : after.out = state.out ++ lines) (hbelow : ∀ i < t, after.stk i = state.stk i) :
    ∃ next, Leads bound t lines state next ∧ next.depth = after.depth ∧
      next.stk t = { after.stk t with pc := (after.stk t).pc + 1 } ∧
      ∀ i ≠ t, next.stk i = after.stk i := by
  refine ⟨after.setPc t ((after.stk t).pc + 1), ⟨?_, hout, ?_⟩, rfl, setPc_top .., ?_⟩
  · exact Relation.ReflTransGen.single ⟨by omega, round_eq hdepth hswitch, hbound⟩
  · intro i hi
    rw [setPc_of_ne _ _ _ (by omega), hbelow i hi]
  · exact fun i hi => setPc_of_ne _ _ _ hi

end Rounds

/-- The frame `t`, on top with these values and not yet begun, is worked off:
`lines` are printed, and the frame is popped. -/
def Performs (bound t : ℕ) (n : UInt32) (fromPeg toPeg viaPeg : Peg) (lines : List Line) :
    Prop :=
  ∀ state : State, state.depth = t + 1 → state.stk t = ⟨0, n, fromPeg, toPeg, viaPeg⟩ →
    ∃ after, Leads bound t lines state after ∧ after.depth = t

section Frames

variable {bound t : ℕ} {state : State} {frame : Frame}

/-- A call in the frame `t`: the callee is worked off, and the frame is on top
again with its program counter advanced. -/
theorem Performs.call {n : UInt32} {fromPeg toPeg viaPeg : Peg} {lines : List Line}
    (hcallee : Performs bound (t + 1) n fromPeg toPeg viaPeg lines)
    (hdepth : state.depth = t + 1) (hframe : state.stk t = frame)
    (hswitch : state.switch t = some (state.call n fromPeg toPeg viaPeg))
    (hbound : t + 2 ≤ bound) :
    ∃ after, Leads bound t lines state after ∧ after.depth = t + 1 ∧
      after.stk t = { frame with pc := frame.pc + 1 } := by
  have hkept : ∀ i < t + 1, (state.call n fromPeg toPeg viaPeg).stk i = state.stk i :=
    fun i hi => call_below _ _ _ _ _ (by omega)
  obtain ⟨called, hcall, hdepthCalled, hframeCalled, hothers⟩ :=
    leads_round bound [] hdepth hswitch (by rw [call_depth, hdepth]; exact hbound)
      (List.append_nil _).symm fun i hi => hkept i (by omega)
  have htop : called.stk (t + 1) = ⟨0, n, fromPeg, toPeg, viaPeg⟩ := by
    rw [hothers _ (by omega), ← hdepth, call_top]
  obtain ⟨after, hrun, hafter⟩ :=
    hcallee called (by rw [hdepthCalled, call_depth, hdepth]) htop
  refine ⟨after, hcall.trans hrun.of_above, hafter, ?_⟩
  rw [hrun.below t (by omega), hframeCalled, hkept t (by omega), hframe]

/-- `case 4` -/
theorem leads_ret (bound : ℕ) (hdepth : state.depth = t + 1) (hframe : state.stk t = frame)
    (hpc : frame.pc = 4) (hbound : t ≤ bound) :
    ∃ after, Leads bound t [] state after ∧ after.depth = t := by
  have hswitch : state.switch t = some state.ret := by
    simp [State.switch, hframe, hpc]
  have hpopped : state.ret.depth = t := by rw [State.ret, hdepth, Nat.add_sub_cancel]
  obtain ⟨after, hrun, hafter, -⟩ := leads_round bound [] hdepth hswitch
    (hpopped.trans_le hbound) (List.append_nil _).symm fun i _ => rfl
  exact ⟨after, hrun, hafter.trans hpopped⟩

theorem performs_one (bound : ℕ) (hbound : t + 1 ≤ bound) (fromPeg toPeg viaPeg : Peg) :
    Performs bound t 1 fromPeg toPeg viaPeg [⟨fromPeg, toPeg⟩] := by
  intro state hdepth hframe
  have hswitch : state.switch t = some ((state.printf ⟨fromPeg, toPeg⟩).setPc t 3) := by
    simp [State.switch, hframe]
  obtain ⟨printed, hprint, hdepthPrinted, hframePrinted, -⟩ :=
    leads_round bound [⟨fromPeg, toPeg⟩] hdepth hswitch (hdepth.trans_le hbound) rfl
      fun i hi => setPc_of_ne _ _ _ (by omega)
  obtain ⟨after, hret, hafter⟩ :=
    leads_ret bound (hdepthPrinted.trans hdepth) hframePrinted (by simp) (by omega)
  exact ⟨after, hprint.trans hret, hafter⟩

/-- The frames above `t` are as many as the disks but one. -/
theorem performs_moves (k : ℕ) {n : UInt32} (hn : n.toNat = k + 1)
    (hbound : t + k + 1 ≤ bound) (fromPeg toPeg viaPeg : Peg) :
    Performs bound t n fromPeg toPeg viaPeg (moves (k + 1) fromPeg toPeg viaPeg) := by
  induction k generalizing n t fromPeg toPeg viaPeg with
  | zero =>
      obtain rfl : n = 1 := UInt32.toNat_inj.mp hn
      exact performs_one bound hbound fromPeg toPeg viaPeg
  | succ k ih =>
      intro state hdepth hframe
      have hless : (n - 1).toNat = k + 1 := by
        rw [UInt32.toNat_sub_of_le _ _ (UInt32.le_iff_toNat_le.mpr (by rw [hn]; simp)), hn]
        rfl
      have hmany : n ≠ 1 := by
        rintro rfl
        exact absurd hn (by simp)
      have hswitch : state.switch t = some state := by simp [State.switch, hframe, hmany]
      obtain ⟨start, hstart, hdepthStart, hframeStart, -⟩ :=
        leads_round bound [] hdepth hswitch (by omega) (List.append_nil _).symm fun i _ => rfl
      rw [hframe] at hframeStart
      obtain ⟨one, hone, hdepthOne, hframeOne⟩ :=
        (ih hless (by omega) fromPeg viaPeg toPeg).call (hdepthStart.trans hdepth) hframeStart
          (by simp [State.switch, hframeStart]) (by omega)
      obtain ⟨two, htwo, hdepthTwo, hframeTwo⟩ :=
        (performs_one bound (by omega) fromPeg toPeg viaPeg).call hdepthOne hframeOne
          (by simp [State.switch, hframeOne]) (by omega)
      obtain ⟨three, hthree, hdepthThree, hframeThree⟩ :=
        (ih hless (by omega) viaPeg toPeg fromPeg).call hdepthTwo hframeTwo
          (by simp [State.switch, hframeTwo]) (by omega)
      obtain ⟨after, hret, hafter⟩ := leads_ret bound hdepthThree hframeThree (by simp) (by omega)
      refine ⟨after, ?_, hafter⟩
      have hrun := (((hstart.trans hone).trans htwo).trans hthree).trans hret
      rwa [List.append_nil, List.nil_append] at hrun

end Frames

/-! ## The whole loop -/

section Loop

variable {bound : ℕ} {state final : State}

theorem rounds_reach {after : State}
    (hrun : Relation.ReflTransGen (Within bound) state after) :
    ∃ k, state.rounds k = some after := by
  induction hrun with
  | refl => exact ⟨0, rfl⟩
  | tail _ hround ih =>
      obtain ⟨k, hk⟩ := ih
      refine ⟨k + 1, ?_⟩
      rw [State.rounds, hk, Option.bind_eq_bind, Option.bind_some, if_neg hround.1.ne',
        hround.2.1]

/-- Every round of a loop that ends is one of those on the way to its end. -/
theorem rounds_within (hrun : Relation.ReflTransGen (Within bound) state final)
    (hfinal : final.depth = 0) (hdepth : state.depth ≤ bound) (k : ℕ) :
    ∃ after, state.rounds k = some after ∧ after.depth ≤ bound ∧
      Relation.ReflTransGen (Within bound) after final := by
  induction k with
  | zero => exact ⟨state, rfl, hdepth, hrun⟩
  | succ k ih =>
      obtain ⟨before, hbefore, hbound, hrest⟩ := ih
      rw [State.rounds, hbefore, Option.bind_eq_bind, Option.bind_some]
      by_cases hzero : before.depth = 0
      · exact ⟨before, if_pos hzero, hbound, hrest⟩
      rcases hrest.cases_head with rfl | ⟨after, hround, hrest⟩
      · exact absurd hfinal hzero
      · exact ⟨after, (if_neg hzero).trans hround.2.1, hround.2.2, hrest⟩

end Loop

/-- The interpreter works off its first frame. -/
theorem hanoi_leads {disks : ℕ} {n : Int32} (hdisks : n.toInt = disks + 1) (stk : ℕ → Frame)
    (fromPeg toPeg viaPeg : Peg) :
    ∃ final, final.depth = 0 ∧ Leads (disks + 1) 0 (moves (disks + 1) fromPeg toPeg viaPeg)
      (hanoi stk n fromPeg toPeg viaPeg) final := by
  have hpositive : 0 ≤ n := Int32.le_iff_toInt_le.mpr (by rw [hdisks]; exact Int.natCast_nonneg _)
  have hword : n.toUInt32.toNat = disks + 1 := by
    rw [Int32.toNat_toUInt32_of_le hpositive, Int32.toNatClampNeg, hdisks]
    rfl
  obtain ⟨final, hleads, hfinal⟩ :=
    performs_moves disks hword (show 0 + disks + 1 ≤ disks + 1 by omega) fromPeg toPeg viaPeg
      (hanoi stk n fromPeg toPeg viaPeg) rfl (call_top ..)
  exact ⟨final, hfinal, hleads⟩

/-- With at least one disk the interpreter comes to its end without
`assert(0)`, has at no time more frames than there are disks, and prints what
the recursive function prints. -/
theorem frames_refine_recursion (n : Int32) (hn : 1 ≤ n) (stk : ℕ → Frame)
    (fromPeg toPeg viaPeg : Peg) :
    (∀ k, ∃ state, (hanoi stk n fromPeg toPeg viaPeg).rounds k = some state ∧
      (state.depth : ℤ) ≤ n.toInt ∧ (n ≤ 64 → state.depth ≤ 64)) ∧
    ∃ k final fuel, (hanoi stk n fromPeg toPeg viaPeg).rounds k = some final ∧
      final.depth = 0 ∧ hanoiR fuel n fromPeg toPeg viaPeg = some final.out := by
  have hpositive : 1 ≤ n.toInt := Int32.le_iff_toInt_le.mp hn
  obtain ⟨disks, hdisks⟩ : ∃ disks : ℕ, n.toInt = disks + 1 :=
    ⟨(n.toInt - 1).toNat, by omega⟩
  obtain ⟨final, hfinal, hleads⟩ := hanoi_leads hdisks stk fromPeg toPeg viaPeg
  constructor
  · intro k
    obtain ⟨state, hstate, hdepth, -⟩ :=
      rounds_within hleads.run hfinal (show 1 ≤ disks + 1 by omega) k
    refine ⟨state, hstate, by omega, fun hsmall => ?_⟩
    have hsixtyfour : n.toInt ≤ 64 := Int32.le_iff_toInt_le.mp hsmall
    omega
  · obtain ⟨k, hk⟩ := rounds_reach hleads.run
    refine ⟨k, final, disks + 1, hk, hfinal, ?_⟩
    rw [hanoiR_eq disks hdisks (by omega), hleads.out]
    rfl

/-- The call of `main`. -/
theorem frames_refine_recursion_main :
    let start := hanoi (fun _ => ⟨0, 0, 0, 0, 0⟩) 10 65 66 67
    (∀ k, ∃ state, start.rounds k = some state ∧
      (state.depth : ℤ) ≤ (10 : Int32).toInt ∧ ((10 : Int32) ≤ 64 → state.depth ≤ 64)) ∧
    ∃ k final fuel, start.rounds k = some final ∧ final.depth = 0 ∧
      hanoiR fuel 10 65 66 67 = some final.out :=
  frames_refine_recursion 10 (by decide) (fun _ => ⟨0, 0, 0, 0, 0⟩) 65 66 67

end JyyOS.Hanoi
