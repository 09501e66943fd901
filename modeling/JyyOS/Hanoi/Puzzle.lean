import JyyOS.Hanoi.Frames

/-!
# The moves of `hanoi` solve the puzzle

A board has the disks of every peg, numbered by their sizes.  The moves for `n`
disks touch none of the larger disks, so the induction is over boards with
arbitrary larger disks below.
-/

namespace JyyOS.Hanoi

/-- The disks of each peg, the top one first. -/
abbrev Board := Peg → List ℕ

/-- One move, `none` from an empty peg or onto a smaller disk. -/
def Board.move (board : Board) (line : Line) : Option Board :=
  match board line.fromPeg with
  | [] => none
  | disk :: rest =>
      let lifted := Function.update board line.fromPeg rest
      if (lifted line.toPeg).head?.all (disk < ·) then
        some (Function.update lifted line.toPeg (disk :: lifted line.toPeg))
      else none

/-- The pile is on another peg, and nothing else has changed. -/
structure Moved (fromPeg toPeg : Peg) (pile below : List ℕ) (board after : Board) : Prop where
  left : after fromPeg = below
  arrived : after toPeg = pile ++ board toPeg
  others : ∀ peg, peg ≠ fromPeg → peg ≠ toPeg → after peg = board peg

section Solve

variable {board : Board} {fromPeg toPeg viaPeg : Peg} {below : List ℕ}

theorem move_moved (hto : toPeg ≠ fromPeg) {disk : ℕ} (hfrom : board fromPeg = disk :: below)
    (hlarge : ∀ other ∈ board toPeg, disk < other) :
    ∃ after, board.move ⟨fromPeg, toPeg⟩ = some after ∧
      Moved fromPeg toPeg [disk] below board after := by
  have hhead : (board toPeg).head?.all (disk < ·) = true := by
    rw [Option.all_eq_true]
    intro other hother
    exact decide_eq_true (hlarge other (List.mem_of_mem_head? hother))
  refine ⟨Function.update (Function.update board fromPeg below) toPeg (disk :: board toPeg),
    ?_, ?_, ?_, ?_⟩
  · simp only [Board.move, hfrom]
    rw [Function.update_of_ne hto, if_pos hhead]
  · rw [Function.update_of_ne hto.symm, Function.update_self]
  · exact Function.update_self ..
  · intro peg hpegFrom hpegTo
    rw [Function.update_of_ne hpegTo, Function.update_of_ne hpegFrom]

/-- The moves for `n` disks, with larger disks below on all three pegs. -/
theorem moves_solve (n : ℕ) (hto : toPeg ≠ fromPeg) (hvia : viaPeg ≠ fromPeg)
    (hother : viaPeg ≠ toPeg) (hfrom : board fromPeg = List.range' 1 n ++ below)
    (hlargeFrom : ∀ disk ∈ below, n < disk) (hlargeTo : ∀ disk ∈ board toPeg, n < disk)
    (hlargeVia : ∀ disk ∈ board viaPeg, n < disk) :
    ∃ after, (moves n fromPeg toPeg viaPeg).foldlM Board.move board = some after ∧
      Moved fromPeg toPeg (List.range' 1 n) below board after := by
  induction n generalizing board fromPeg toPeg viaPeg below with
  | zero => exact ⟨board, rfl, hfrom, rfl, fun _ _ _ => rfl⟩
  | succ n ih =>
      have hpile : List.range' 1 (n + 1) = List.range' 1 n ++ [n + 1] := by
        rw [List.range'_concat, Nat.one_mul, Nat.add_comm]
      rw [hpile, List.append_assoc, List.singleton_append] at hfrom
      -- the pile on top of the largest disk goes to the third peg
      obtain ⟨one, hone, honeFrom, honeVia, honeOthers⟩ := ih hvia hto hother.symm hfrom
        (List.forall_mem_cons.mpr ⟨by omega, fun disk hdisk => (hlargeFrom disk hdisk).le⟩)
        (fun disk hdisk => (hlargeVia disk hdisk).le)
        fun disk hdisk => (hlargeTo disk hdisk).le
      have honeTo : one toPeg = board toPeg := honeOthers toPeg hto hother.symm
      obtain ⟨two, htwo, htwoFrom, htwoTo, htwoOthers⟩ :=
        move_moved hto honeFrom (by rwa [honeTo])
      have htwoVia : two viaPeg = List.range' 1 n ++ board viaPeg :=
        (htwoOthers viaPeg hvia hother).trans honeVia
      rw [honeTo, List.singleton_append] at htwoTo
      -- and from there onto the largest disk
      obtain ⟨three, hthree, hthreeVia, hthreeTo, hthreeOthers⟩ :=
        ih hother.symm hvia.symm hto.symm htwoVia
          (fun disk hdisk => (hlargeVia disk hdisk).le)
          (by
            rw [htwoTo]
            exact List.forall_mem_cons.mpr
              ⟨by omega, fun disk hdisk => (hlargeTo disk hdisk).le⟩)
          (by
            rw [htwoFrom]
            exact fun disk hdisk => (hlargeFrom disk hdisk).le)
      refine ⟨three, ?_, ?_, ?_, ?_⟩
      · rw [moves, List.foldlM_append, List.foldlM_append, hone, Option.bind_eq_bind,
          Option.bind_some, List.foldlM_cons, htwo]
        exact hthree
      · rw [hthreeOthers fromPeg hvia.symm hto.symm, htwoFrom]
      · rw [hthreeTo, htwoTo, hpile, List.append_assoc, List.singleton_append]
      · intro peg hpegFrom hpegTo
        by_cases hpegVia : peg = viaPeg
        · rw [hpegVia, hthreeVia]
        · rw [hthreeOthers peg hpegVia hpegTo, htwoOthers peg hpegFrom hpegTo,
            honeOthers peg hpegFrom hpegVia]

end Solve

theorem length_moves (n : ℕ) (fromPeg toPeg viaPeg : Peg) :
    (moves n fromPeg toPeg viaPeg).length = 2 ^ n - 1 := by
  induction n generalizing fromPeg toPeg viaPeg with
  | zero => rfl
  | succ n ih =>
      have hpositive : 0 < 2 ^ n := Nat.two_pow_pos n
      rw [moves, List.length_append, List.length_append, ih, ih, List.length_singleton,
        pow_succ]
      omega

/-- Both programs print the same moves, and these take the disks `1` to `n` from
the first peg to the second one by `2 ^ n - 1` legal moves, whatever larger disks
there are.  The interpreter needs `n` frames for it. -/
theorem hanoi_solves (n : Int32) (hn : 1 ≤ n) (fromPeg toPeg viaPeg : Peg)
    (hto : toPeg ≠ fromPeg) (hvia : viaPeg ≠ fromPeg) (hother : viaPeg ≠ toPeg)
    (board : Board) (below : List ℕ)
    (hfrom : board fromPeg = List.range' 1 n.toInt.toNat ++ below)
    (hlarge : ∀ disk, disk ∈ below ∨ disk ∈ board toPeg ∨ disk ∈ board viaPeg →
      n.toInt < disk) :
    ∃ out : List Line,
      (∃ enough, ∀ fuel ≥ enough, hanoiR fuel n fromPeg toPeg viaPeg = some out) ∧
      (∀ stk, (∃ k final, (hanoi stk n fromPeg toPeg viaPeg).rounds k = some final ∧
          final.depth = 0 ∧ final.out = out) ∧
        ∀ k, ∃ state, (hanoi stk n fromPeg toPeg viaPeg).rounds k = some state ∧
          state.depth ≤ n.toInt.toNat) ∧
      (∃ after, out.foldlM Board.move board = some after ∧
        Moved fromPeg toPeg (List.range' 1 n.toInt.toNat) below board after) ∧
      out.length = 2 ^ n.toInt.toNat - 1 := by
  have hpositive : 1 ≤ n.toInt := Int32.le_iff_toInt_le.mp hn
  obtain ⟨disks, hdisks⟩ : ∃ disks : ℕ, n.toInt = disks + 1 :=
    ⟨(n.toInt - 1).toNat, by omega⟩
  have hcount : n.toInt.toNat = disks + 1 := by omega
  rw [hcount] at hfrom ⊢
  refine ⟨moves (disks + 1) fromPeg toPeg viaPeg, ⟨disks + 1, fun fuel hfuel => ?_⟩, ?_, ?_,
    length_moves ..⟩
  · exact hanoiR_eq disks hdisks hfuel fromPeg toPeg viaPeg
  · intro stk
    obtain ⟨final, hfinal, hleads⟩ := hanoi_leads hdisks stk fromPeg toPeg viaPeg
    obtain ⟨k, hk⟩ := rounds_reach hleads.run
    refine ⟨⟨k, final, hk, hfinal, hleads.out⟩, fun k => ?_⟩
    obtain ⟨state, hstate, hdepth, -⟩ :=
      rounds_within hleads.run hfinal (show 1 ≤ disks + 1 by omega) k
    exact ⟨state, hstate, hdepth⟩
  · have hsize : ∀ disk, disk ∈ below ∨ disk ∈ board toPeg ∨ disk ∈ board viaPeg →
        disks + 1 < disk := by
      intro disk hdisk
      have := hlarge disk hdisk
      omega
    exact moves_solve (disks + 1) hto hvia hother hfrom
      (fun disk hdisk => hsize disk (.inl hdisk))
      (fun disk hdisk => hsize disk (.inr (.inl hdisk)))
      fun disk hdisk => hsize disk (.inr (.inr hdisk))

/-- Three disks on `A`, with larger ones on all pegs. -/
def sampleBoard : Board := fun peg =>
  if peg = 65 then [1, 2, 3, 7] else if peg = 66 then [5, 4] else if peg = 67 then [6] else []

theorem hanoi_solves_three :
    ∃ out : List Line, hanoiR 3 3 65 66 67 = some out ∧ out.length = 7 ∧
      ∃ after, out.foldlM Board.move sampleBoard = some after ∧
        after 65 = [7] ∧ after 66 = [1, 2, 3, 5, 4] ∧ after 67 = [6] := by
  obtain ⟨out, ⟨enough, hrun⟩, -, ⟨after, hboard, hmoved⟩, hlength⟩ :=
    hanoi_solves 3 (by decide) 65 66 67 (by decide) (by decide) (by decide) sampleBoard [7] rfl
      (by
        intro disk hdisk
        have hcases : disk ∈ [7] ∨ disk ∈ [5, 4] ∨ disk ∈ [6] := hdisk
        have hthree : (3 : Int32).toInt = 3 := rfl
        rw [hthree]
        simp only [List.mem_cons, List.not_mem_nil, or_false] at hcases
        omega)
  have hsame : hanoiR 3 3 65 66 67 = hanoiR (enough + 3) 3 65 66 67 :=
    (hanoiR_eq 2 rfl (by decide) 65 66 67).trans (hanoiR_eq 2 rfl (by omega) 65 66 67).symm
  exact ⟨out, hsame.trans (hrun _ (by omega)), hlength, after, hboard, hmoved.left,
    hmoved.arrived, hmoved.others 67 (by decide) (by decide)⟩

end JyyOS.Hanoi
