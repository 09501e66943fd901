import JyyOS.Hanoi.Puzzle

/-!
# The moves of `hanoi` are the shortest solution

Before the largest disk leaves its peg, the smaller ones have to be on the third peg, and
after it arrives they have to come back from there.  A plan that moves the largest disk
more than once is longer than one that moves it once, so the shortest plan is unique.
-/

namespace JyyOS.Hanoi

/-- On these pegs every disk lies on larger ones, and on one peg only. -/
structure Board.Ordered (pegs : Finset Peg) (board : Board) : Prop where
  sorted : ∀ peg ∈ pegs, (board peg).Pairwise (· < ·)
  apart : ∀ peg ∈ pegs, ∀ other ∈ pegs, ∀ disk, disk ∈ board peg → disk ∈ board other →
    peg = other

/-- The `n` smallest disks are on the peg. -/
def Board.Holds (board : Board) (peg : Peg) (n : ℕ) : Prop :=
  ∀ disk, 1 ≤ disk → disk ≤ n → disk ∈ board peg

/-- The moves go from one of these pegs to another. -/
def OnPegs (pegs : Finset Peg) (plan : List Line) : Prop :=
  ∀ line ∈ plan, line.fromPeg ∈ pegs ∧ line.toPeg ∈ pegs

/-- A replay that begins with a property and ends without it has a step that takes it
away. -/
theorem exists_last_before {State Label : Type} {step : State → Label → Option State}
    {P : State → Prop} {labels : List Label} {start finish : State}
    (hreplay : labels.foldlM step start = some finish) (hstart : P start) (hfinish : ¬ P finish) :
    ∃ first label rest before after, labels = first ++ label :: rest ∧
      first.foldlM step start = some before ∧ P before ∧ step before label = some after ∧
        ¬ P after ∧ rest.foldlM step after = some finish := by
  induction labels generalizing start with
  | nil =>
      cases hreplay
      exact absurd hstart hfinish
  | cons label labels ih =>
      rw [List.foldlM_cons] at hreplay
      obtain ⟨after, hstep, hrest⟩ := Option.bind_eq_some_iff.mp hreplay
      by_cases hafter : P after
      · obtain ⟨first, other, rest, before, next, hlabels, hfirst, hfound⟩ := ih hrest hafter
        refine ⟨label :: first, other, rest, before, next, by rw [hlabels]; rfl, ?_, hfound⟩
        rw [List.foldlM_cons, hstep]
        exact hfirst
      · exact ⟨[], label, labels, start, after, rfl, rfl, hstart, hstep, hafter, hrest⟩

section Move

variable {pegs : Finset Peg} {board after : Board} {line : Line} {plan : List Line} {n : ℕ}

theorem move_eq (hmove : board.move line = some after) :
    ∃ disk rest, board line.fromPeg = disk :: rest ∧
      (∀ top ∈ (Function.update board line.fromPeg rest line.toPeg).head?, disk < top) ∧
      after = Function.update (Function.update board line.fromPeg rest) line.toPeg
        (disk :: Function.update board line.fromPeg rest line.toPeg) := by
  unfold Board.move at hmove
  split at hmove
  case h_1 => cases hmove
  case h_2 disk rest hfrom =>
    dsimp only at hmove
    split_ifs at hmove with hhead
    refine ⟨disk, rest, hfrom, ?_, (Option.some.inj hmove).symm⟩
    intro top htop
    exact of_decide_eq_true (Option.all_eq_true _ _ |>.mp hhead top htop)

/-- What a move does: the smallest disk of the peg goes to a peg with no smaller one. -/
theorem Board.Ordered.move (hordered : board.Ordered pegs) (hfromPeg : line.fromPeg ∈ pegs)
    (htoPeg : line.toPeg ∈ pegs) (hmove : board.move line = some after) :
    after.Ordered pegs ∧ ∃ disk, disk ∈ board line.fromPeg ∧
      (∀ other ∈ board line.fromPeg, disk ≤ other) ∧
      (∀ other ∈ board line.toPeg, disk ≤ other) ∧
      ∀ peg ∈ pegs, ∀ other, other ∈ after peg ↔
        other = disk ∧ peg = line.toPeg ∨ other ≠ disk ∧ other ∈ board peg := by
  obtain ⟨disk, rest, hfrom, hhead, rfl⟩ := move_eq hmove
  have hsorted := hordered.sorted line.fromPeg hfromPeg
  rw [hfrom, List.pairwise_cons] at hsorted
  have hdisk : disk ∈ board line.fromPeg := by
    rw [hfrom]
    exact List.mem_cons_self
  have hlifted : ∀ peg ∈ pegs, ∀ other,
      other ∈ Function.update board line.fromPeg rest peg ↔
        other ≠ disk ∧ other ∈ board peg := by
    intro peg hpeg other
    by_cases hsame : peg = line.fromPeg
    · subst hsame
      rw [Function.update_self, hfrom, List.mem_cons]
      constructor
      · exact fun hrest => ⟨(hsorted.1 other hrest).ne', .inr hrest⟩
      · rintro ⟨hne, hself | hrest⟩
        · exact absurd hself hne
        · exact hrest
    · rw [Function.update_of_ne hsame]
      refine ⟨fun hother => ⟨?_, hother⟩, And.right⟩
      rintro rfl
      exact hsame (hordered.apart peg hpeg line.fromPeg hfromPeg other hother hdisk)
  have hliftedSorted : ∀ peg ∈ pegs,
      (Function.update board line.fromPeg rest peg).Pairwise (· < ·) := by
    intro peg hpeg
    by_cases hsame : peg = line.fromPeg
    · rw [hsame, Function.update_self]
      exact hsorted.2
    · rw [Function.update_of_ne hsame]
      exact hordered.sorted peg hpeg
  have hlarge : ∀ other ∈ Function.update board line.fromPeg rest line.toPeg,
      disk < other := by
    have hto := hliftedSorted line.toPeg htoPeg
    generalize Function.update board line.fromPeg rest line.toPeg = pile at hhead hto
    cases pile with
    | nil => nofun
    | cons top pile =>
        have htop : disk < top := hhead top rfl
        rw [List.pairwise_cons] at hto
        exact List.forall_mem_cons.mpr ⟨htop, fun other hother => htop.trans (hto.1 other hother)⟩
  have hmem : ∀ peg ∈ pegs, ∀ other, other ∈ Function.update (Function.update board
      line.fromPeg rest) line.toPeg
        (disk :: Function.update board line.fromPeg rest line.toPeg) peg ↔
      other = disk ∧ peg = line.toPeg ∨ other ≠ disk ∧ other ∈ board peg := by
    intro peg hpeg other
    by_cases hsame : peg = line.toPeg
    · rw [hsame, Function.update_self, List.mem_cons, hlifted line.toPeg htoPeg]
      simp
    · rw [Function.update_of_ne hsame, hlifted peg hpeg]
      simp [hsame]
  refine ⟨⟨?_, ?_⟩, disk, hdisk, ?_, ?_, hmem⟩
  · intro peg hpeg
    by_cases hsame : peg = line.toPeg
    · rw [hsame, Function.update_self, List.pairwise_cons]
      exact ⟨hlarge, hliftedSorted line.toPeg htoPeg⟩
    · rw [Function.update_of_ne hsame]
      exact hliftedSorted peg hpeg
  · intro peg hpeg other hother moved hfirst hsecond
    rw [hmem peg hpeg] at hfirst
    rw [hmem other hother] at hsecond
    obtain ⟨hmoved, hfirst⟩ | ⟨hmoved, hfirst⟩ := hfirst
    · obtain ⟨-, hsecond⟩ | ⟨hne, -⟩ := hsecond
      · rw [hfirst, hsecond]
      · exact absurd hmoved hne
    · obtain ⟨hself, -⟩ | ⟨-, hsecond⟩ := hsecond
      · exact absurd hself hmoved
      · exact hordered.apart peg hpeg other hother moved hfirst hsecond
  · rw [hfrom]
    exact List.forall_mem_cons.mpr ⟨le_rfl, fun other hother => (hsorted.1 other hother).le⟩
  · intro other hother
    by_cases hself : other = disk
    · exact hself.ge
    · exact (hlarge other ((hlifted line.toPeg htoPeg other).mpr ⟨hself, hother⟩)).le

/-- The disk that changes its peg in a move, and where the smaller ones are then. -/
theorem Board.Ordered.moved (hordered : board.Ordered pegs) (hfromPeg : line.fromPeg ∈ pegs)
    (htoPeg : line.toPeg ∈ pegs) (hmove : board.move line = some after) {peg : Peg}
    (hpeg : peg ∈ pegs) (disk : ℕ) (hchanged : ¬ (disk ∈ after peg ↔ disk ∈ board peg)) :
    disk ∈ board line.fromPeg ∧ disk ∈ after line.toPeg ∧
      (∀ other < disk, other ∉ board line.fromPeg ∧ other ∉ board line.toPeg) ∧
      ∀ any ∈ pegs, ∀ other, other ≠ disk → (other ∈ after any ↔ other ∈ board any) := by
  obtain ⟨-, moved, hfrom, hsmallest, hlarge, hmem⟩ := hordered.move hfromPeg htoPeg hmove
  have hself : disk = moved := by
    by_contra hne
    rw [hmem peg hpeg] at hchanged
    simp [hne] at hchanged
  subst hself
  refine ⟨hfrom, (hmem line.toPeg htoPeg disk).mpr (.inl ⟨rfl, rfl⟩), ?_, ?_⟩
  · intro other hlt
    exact ⟨fun hother => absurd (hsmallest other hother) (Nat.not_le_of_lt hlt),
      fun hother => absurd (hlarge other hother) (Nat.not_le_of_lt hlt)⟩
  · intro any hany other hne
    rw [hmem any hany]
    simp [hne]

/-- What a plan keeps. -/
theorem Board.Ordered.replay (hordered : board.Ordered pegs) (hplan : OnPegs pegs plan)
    (hreplay : plan.foldlM Board.move board = some after) :
    after.Ordered pegs ∧ ∀ disk, (∃ peg ∈ pegs, disk ∈ board peg) →
      ∃ peg ∈ pegs, disk ∈ after peg := by
  induction plan generalizing board with
  | nil =>
      cases hreplay
      exact ⟨hordered, fun _ => id⟩
  | cons line plan ih =>
      rw [List.foldlM_cons] at hreplay
      obtain ⟨next, hmove, hrest⟩ := Option.bind_eq_some_iff.mp hreplay
      obtain ⟨hfromPeg, htoPeg⟩ := hplan line List.mem_cons_self
      obtain ⟨hnext, moved, -, -, -, hmem⟩ := hordered.move hfromPeg htoPeg hmove
      obtain ⟨hafter, hkept⟩ :=
        ih hnext (fun other hother => hplan other (List.mem_cons_of_mem _ hother)) hrest
      refine ⟨hafter, fun disk hdisk => hkept disk ?_⟩
      by_cases hmoved : disk = moved
      · exact ⟨line.toPeg, htoPeg, (hmem _ htoPeg disk).mpr (.inl ⟨hmoved, rfl⟩)⟩
      · obtain ⟨peg, hpeg, hdisk⟩ := hdisk
        exact ⟨peg, hpeg, (hmem peg hpeg disk).mpr (.inr ⟨hmoved, hdisk⟩)⟩

end Move

/-- When the disk above `n` leaves for a peg, the `n` smaller ones are on the third. -/
theorem holds_third {pegs : Finset Peg} {board : Board} {n : ℕ} {source target third : Peg}
    (hpegs : ∀ peg ∈ pegs, peg = source ∨ peg = target ∨ peg = third)
    (hplaced : ∀ disk, 1 ≤ disk → disk ≤ n → ∃ peg ∈ pegs, disk ∈ board peg)
    (hsmaller : ∀ other < n + 1, other ∉ board source ∧ other ∉ board target) :
    board.Holds third n := by
  intro disk hone hle
  obtain ⟨peg, hpeg, hdisk⟩ := hplaced disk hone hle
  obtain ⟨hsource, htarget⟩ := hsmaller disk (Nat.lt_succ_of_le hle)
  obtain rfl | rfl | rfl := hpegs peg hpeg
  · exact absurd hdisk hsource
  · exact absurd hdisk htarget
  · exact hdisk

/-- No plan is shorter than the moves of `hanoi`, and no other one is as short. -/
theorem moves_shortest (n : ℕ) {pegs : Finset Peg} {fromPeg toPeg viaPeg : Peg}
    (hpegs : ∀ peg, peg ∈ pegs ↔ peg = fromPeg ∨ peg = toPeg ∨ peg = viaPeg)
    (hto : toPeg ≠ fromPeg) (hvia : viaPeg ≠ fromPeg) (hother : viaPeg ≠ toPeg)
    {board after : Board} {plan : List Line} (hordered : board.Ordered pegs)
    (hplan : OnPegs pegs plan) (hstart : board.Holds fromPeg n)
    (hreplay : plan.foldlM Board.move board = some after) (hend : after.Holds toPeg n) :
    2 ^ n ≤ plan.length + 1 ∧
      (plan.length + 1 = 2 ^ n → plan = moves n fromPeg toPeg viaPeg) := by
  induction n generalizing fromPeg toPeg viaPeg board after plan with
  | zero =>
      refine ⟨Nat.le_add_left 1 _, fun hlength => ?_⟩
      exact List.length_eq_zero_iff.mp (Nat.succ.inj hlength)
  | succ n ih =>
      have hfromMem : fromPeg ∈ pegs := (hpegs fromPeg).mpr (.inl rfl)
      have htoMem : toPeg ∈ pegs := (hpegs toPeg).mpr (.inr (.inl rfl))
      have hviaMem : viaPeg ∈ pegs := (hpegs viaPeg).mpr (.inr (.inr rfl))
      have hlast : n + 1 ∈ after toPeg := hend _ (Nat.le_add_left 1 n) le_rfl
      -- the first time that the largest disk leaves its peg
      obtain ⟨first, line, rest, before, next, rfl, hfirst, hin, hmove, hout, hrest⟩ :=
        exists_last_before (P := fun board : Board => n + 1 ∈ board fromPeg) hreplay
          (hstart _ (Nat.le_add_left 1 n) le_rfl) fun hleft =>
            hto ((hordered.replay hplan hreplay).1.apart toPeg htoMem fromPeg hfromMem _
              hlast hleft)
      have hplanFirst : OnPegs pegs first := fun other hmem =>
        hplan other (List.mem_append_left _ hmem)
      have hplanRest : OnPegs pegs rest := fun other hmem =>
        hplan other (List.mem_append_right _ (List.mem_cons_of_mem _ hmem))
      obtain ⟨hlineFrom, hlineTo⟩ :=
        hplan line (List.mem_append_right _ List.mem_cons_self)
      obtain ⟨hbefore, hkept⟩ := hordered.replay hplanFirst hfirst
      have hplaced : ∀ disk, 1 ≤ disk → disk ≤ n → ∃ peg ∈ pegs, disk ∈ before peg :=
        fun disk hone hle =>
          hkept disk ⟨fromPeg, hfromMem, hstart disk hone (Nat.le_succ_of_le hle)⟩
      obtain ⟨hsource, htarget, hsmaller, hsame⟩ :=
        hbefore.moved hlineFrom hlineTo hmove hfromMem (n + 1) (by simp [hin, hout])
      have hsourcePeg : line.fromPeg = fromPeg :=
        hbefore.apart _ hlineFrom _ hfromMem _ hsource hin
      have hnext : next.Ordered pegs := (hbefore.move hlineFrom hlineTo hmove).1
      have hstay : ∀ peg ∈ pegs, before.Holds peg n → next.Holds peg n :=
        fun peg hpeg hholds disk hone hle =>
          (hsame peg hpeg disk (Nat.ne_of_lt (Nat.lt_succ_of_le hle))).mpr (hholds disk hone hle)
      have hend' : after.Holds toPeg n := fun disk hone hle =>
        hend disk hone (Nat.le_succ_of_le hle)
      have hstart' : board.Holds fromPeg n := fun disk hone hle =>
        hstart disk hone (Nat.le_succ_of_le hle)
      have htargetPeg : line.toPeg = toPeg ∨ line.toPeg = viaPeg := by
        refine ((hpegs line.toPeg).mp hlineTo).resolve_left fun hback => hout ?_
        rwa [hback] at htarget
      rw [List.length_append, List.length_cons]
      obtain htargetPeg | htargetPeg := htargetPeg
      · -- it goes to its goal at once, with the smaller ones on `viaPeg`
        have hthird : before.Holds viaPeg n := by
          refine holds_third (fun peg hpeg => ?_) hplaced hsmaller
          rw [hsourcePeg, htargetPeg]
          exact (hpegs peg).mp hpeg
        obtain ⟨hlengthFirst, huniqueFirst⟩ := ih (fun peg => (hpegs peg).trans (by tauto))
          hvia hto hother.symm hordered hplanFirst hstart' hfirst hthird
        obtain ⟨hlengthRest, huniqueRest⟩ := ih (fun peg => (hpegs peg).trans (by tauto))
          hother.symm hvia.symm hto.symm hnext hplanRest (hstay viaPeg hviaMem hthird) hrest
          hend'
        rw [Nat.pow_succ]
        refine ⟨by omega, fun hlength => ?_⟩
        rw [moves, ← huniqueFirst (by omega), ← huniqueRest (by omega), List.append_assoc]
        congr 2
        rw [← hsourcePeg, ← htargetPeg]
      · -- it goes to `viaPeg` first, with the smaller ones on its goal, and has to move again
        have hthird : before.Holds toPeg n := by
          refine holds_third (fun peg hpeg => ?_) hplaced hsmaller
          rw [hsourcePeg, htargetPeg]
          exact ((hpegs peg).mp hpeg).imp_right Or.symm
        have hlengthFirst := (ih hpegs hto hvia hother hordered hplanFirst hstart' hfirst
          hthird).1
        have hout' : n + 1 ∉ next toPeg := by
          intro hin'
          rw [htargetPeg] at htarget
          exact hother (hnext.apart viaPeg hviaMem toPeg htoMem _ htarget hin')
        obtain ⟨second, last, others, ready, done, rfl, hsecond, hnot, hlastMove, hdone, hothers⟩ :=
          exists_last_before (P := fun board : Board => n + 1 ∉ board toPeg) hrest hout'
            (not_not.mpr hlast)
        rw [not_not] at hdone
        have hplanSecond : OnPegs pegs second := fun other hmem =>
          hplanRest other (List.mem_append_left _ hmem)
        have hplanOthers : OnPegs pegs others := fun other hmem =>
          hplanRest other (List.mem_append_right _ (List.mem_cons_of_mem _ hmem))
        obtain ⟨hlastFrom, hlastTo⟩ :=
          hplanRest last (List.mem_append_right _ List.mem_cons_self)
        obtain ⟨hready, hkeptSecond⟩ := hnext.replay hplanSecond hsecond
        have hplacedReady : ∀ disk, 1 ≤ disk → disk ≤ n → ∃ peg ∈ pegs, disk ∈ ready peg :=
          fun disk hone hle =>
            hkeptSecond disk ⟨toPeg, htoMem, hstay toPeg htoMem hthird disk hone hle⟩
        obtain ⟨hsource', htarget', hsmaller', hsame'⟩ :=
          hready.moved hlastFrom hlastTo hlastMove htoMem (n + 1) (by simp [hnot, hdone])
        have hdoneOrdered : done.Ordered pegs := (hready.move hlastFrom hlastTo hlastMove).1
        have hgoal : last.toPeg = toPeg :=
          hdoneOrdered.apart _ hlastTo _ htoMem _ htarget' hdone
        have hstay' : ∀ peg ∈ pegs, ready.Holds peg n → done.Holds peg n :=
          fun peg hpeg hholds disk hone hle =>
            (hsame' peg hpeg disk (Nat.ne_of_lt (Nat.lt_succ_of_le hle))).mpr
              (hholds disk hone hle)
        have hlengthOthers : 2 ^ n ≤ others.length + 1 := by
          obtain hback | hback | hback := (hpegs last.fromPeg).mp hlastFrom
          · have hholds : ready.Holds viaPeg n := by
              refine holds_third (fun peg hpeg => ?_) hplacedReady hsmaller'
              rw [hback, hgoal]
              exact (hpegs peg).mp hpeg
            exact (ih (fun peg => (hpegs peg).trans (by tauto)) hother.symm hvia.symm hto.symm
              hdoneOrdered hplanOthers (hstay' viaPeg hviaMem hholds) hothers hend').1
          · rw [hback] at hsource'
            exact absurd hsource' hnot
          · have hholds : ready.Holds fromPeg n := by
              refine holds_third (fun peg hpeg => ?_) hplacedReady hsmaller'
              rw [hback, hgoal]
              exact ((hpegs peg).mp hpeg).elim (fun hpeg => .inr (.inr hpeg))
                fun hpeg => hpeg.elim (fun hpeg => .inr (.inl hpeg)) .inl
            exact (ih hpegs hto hvia hother hdoneOrdered hplanOthers
              (hstay' fromPeg hfromMem hholds) hothers hend').1
        rw [List.length_append, List.length_cons, Nat.pow_succ]
        exact ⟨by omega, fun hlength => by omega⟩

section Shortest

variable {board : Board} {fromPeg peg : Peg} {below : List ℕ} {n : ℕ}

theorem holds_of_eq (hfrom : board fromPeg = List.range' 1 n ++ below) :
    board.Holds fromPeg n := by
  intro disk hone hle
  rw [hfrom]
  exact List.mem_append_left _ (List.mem_range'_1.mpr ⟨hone, by omega⟩)

/-- The other pegs have larger disks only. -/
theorem Board.Ordered.larger {pegs : Finset Peg} (hordered : board.Ordered pegs)
    (hfrom : fromPeg ∈ pegs) (hpeg : peg ∈ pegs) (hne : peg ≠ fromPeg)
    (hholds : board.Holds fromPeg n) (hpositive : ∀ disk ∈ board peg, 1 ≤ disk) :
    ∀ disk ∈ board peg, n < disk := by
  intro disk hdisk
  by_contra hle
  have hsame : disk ∈ board fromPeg := hholds disk (hpositive disk hdisk) (Nat.le_of_not_lt hle)
  exact hne (hordered.apart peg hpeg fromPeg hfrom disk hdisk hsame)

end Shortest

/-- The moves that both programs print solve the puzzle, no legal plan on the three pegs
that solves it is shorter, and there is no other one of the same length. -/
theorem hanoi_shortest (n : Int32) (hn : 1 ≤ n) (fromPeg toPeg viaPeg : Peg)
    (hto : toPeg ≠ fromPeg) (hvia : viaPeg ≠ fromPeg) (hother : viaPeg ≠ toPeg)
    (board : Board) (below : List ℕ) (hordered : board.Ordered {fromPeg, toPeg, viaPeg})
    (hpositive : ∀ disk, disk ∈ board toPeg ∨ disk ∈ board viaPeg → 1 ≤ disk)
    (hfrom : board fromPeg = List.range' 1 n.toInt.toNat ++ below) :
    ∃ out : List Line,
      (∃ enough, ∀ fuel ≥ enough, hanoiR fuel n fromPeg toPeg viaPeg = some out) ∧
      (∀ stk, ∃ k final, (hanoi stk n fromPeg toPeg viaPeg).rounds k = some final ∧
        final.depth = 0 ∧ final.out = out) ∧
      (∃ after, out.foldlM Board.move board = some after ∧
        after.Holds toPeg n.toInt.toNat) ∧
      ∀ plan after, OnPegs {fromPeg, toPeg, viaPeg} plan →
        plan.foldlM Board.move board = some after → after.Holds toPeg n.toInt.toNat →
        out.length ≤ plan.length ∧ (plan.length = out.length → plan = out) := by
  have hone : 1 ≤ n.toInt := Int32.le_iff_toInt_le.mp hn
  obtain ⟨disks, hdisks⟩ : ∃ disks : ℕ, n.toInt = disks + 1 :=
    ⟨(n.toInt - 1).toNat, by omega⟩
  have hcount : n.toInt.toNat = disks + 1 := by omega
  rw [hcount] at hfrom ⊢
  have hpegs : ∀ peg, peg ∈ ({fromPeg, toPeg, viaPeg} : Finset Peg) ↔
      peg = fromPeg ∨ peg = toPeg ∨ peg = viaPeg := by
    intro peg
    rw [Finset.mem_insert, Finset.mem_insert, Finset.mem_singleton]
  have hfromMem := (hpegs fromPeg).mpr (.inl rfl)
  have htoMem := (hpegs toPeg).mpr (.inr (.inl rfl))
  have hviaMem := (hpegs viaPeg).mpr (.inr (.inr rfl))
  have hholds : board.Holds fromPeg (disks + 1) := holds_of_eq hfrom
  have hbelow : ∀ disk ∈ below, disks + 1 < disk := by
    intro disk hdisk
    have hsorted := hordered.sorted fromPeg hfromMem
    rw [hfrom, List.pairwise_append] at hsorted
    exact hsorted.2.2 _ (List.mem_range'_1.mpr ⟨by omega, by omega⟩) disk hdisk
  have hlength : (moves (disks + 1) fromPeg toPeg viaPeg).length + 1 = 2 ^ (disks + 1) := by
    rw [length_moves]
    exact Nat.sub_add_cancel Nat.one_le_two_pow
  refine ⟨moves (disks + 1) fromPeg toPeg viaPeg, ⟨disks + 1, fun fuel hfuel => ?_⟩, ?_, ?_, ?_⟩
  · exact hanoiR_eq disks hdisks hfuel fromPeg toPeg viaPeg
  · intro stk
    obtain ⟨final, hfinal, hleads⟩ := hanoi_leads hdisks stk fromPeg toPeg viaPeg
    obtain ⟨k, hk⟩ := rounds_reach hleads.run
    exact ⟨k, final, hk, hfinal, hleads.out⟩
  · obtain ⟨after, hafter, hmoved⟩ := moves_solve (disks + 1) hto hvia hother hfrom hbelow
      (hordered.larger hfromMem htoMem hto hholds fun disk hdisk => hpositive disk (.inl hdisk))
      (hordered.larger hfromMem hviaMem hvia hholds fun disk hdisk =>
        hpositive disk (.inr hdisk))
    exact ⟨after, hafter, holds_of_eq hmoved.arrived⟩
  · intro plan after hplan hreplay hend
    obtain ⟨hleast, hunique⟩ :=
      moves_shortest (disks + 1) hpegs hto hvia hother hordered hplan hholds hreplay hend
    exact ⟨by omega, fun hsame => hunique (by omega)⟩

/-- Three disks on `A`, with larger ones on all pegs. -/
def orderedBoard : Board := fun peg =>
  if peg = 65 then [1, 2, 3, 7] else if peg = 66 then [4, 5] else if peg = 67 then [6] else []

theorem orderedBoard_ordered : orderedBoard.Ordered {65, 66, 67} where
  sorted := by simp [orderedBoard]
  apart := by
    intro peg hpeg other hother disk hfirst hsecond
    simp only [Finset.mem_insert, Finset.mem_singleton] at hpeg hother
    obtain rfl | rfl | rfl := hpeg <;> obtain rfl | rfl | rfl := hother <;>
      simp [orderedBoard] at hfirst hsecond ⊢ <;> omega

theorem hanoi_shortest_three :
    ∃ out : List Line, hanoiR 3 3 65 66 67 = some out ∧
      ∀ plan after, OnPegs {65, 66, 67} plan → plan.foldlM Board.move orderedBoard = some after →
        after.Holds 66 3 → out.length ≤ plan.length ∧ (plan.length = out.length → plan = out) := by
  obtain ⟨out, ⟨enough, hrun⟩, -, -, hleast⟩ :=
    hanoi_shortest 3 (by decide) 65 66 67 (by decide) (by decide) (by decide) orderedBoard [7]
      orderedBoard_ordered (by
        intro disk hdisk
        have hcases : disk ∈ [4, 5] ∨ disk ∈ [6] := hdisk
        simp only [List.mem_cons, List.not_mem_nil, or_false] at hcases
        omega) rfl
  have hsame : hanoiR 3 3 65 66 67 = hanoiR (enough + 3) 3 65 66 67 :=
    (hanoiR_eq 2 rfl (by decide) 65 66 67).trans (hanoiR_eq 2 rfl (by omega) 65 66 67).symm
  exact ⟨out, hsame.trans (hrun _ (by omega)), hleast⟩

end JyyOS.Hanoi
