import JyyOS.ModelChecker.Python

/-!
# A line number determines the control of a generator

`checkpoint` records only the line a generator waits at.  Every checkpoint of
an instrumented function stands on a line of its own, so this line fixes the
whole nest of suites and loops around it.  What it does not fix is how far the
enclosing `for` loops have come.
-/

namespace JyyOS.ModelChecker

/-! ## Lines are distinct -/

namespace Body

variable {Act Head : Type}

theorem mem_lines_toSource {body : Body Act Head} {line found : ℕ}
    (hfound : found ∈ (body.toSource line).lines) :
    line ≤ found ∧ found < line + body.height := by
  induction body generalizing line with
  | nil => cases hfound
  | leaf statement rest ih =>
      cases statement with
      | checkpoint _ =>
          rcases List.mem_cons.mp hfound with rfl | hrest
          · simp [height]
          · have := ih hrest
            simp only [height]
            omega
      | _ =>
          have := ih hfound
          simp only [height]
          omega
  | compound head body others rest ihBody ihOthers ihRest =>
      simp only [toSource, lines, List.mem_append] at hfound
      simp only [height]
      rcases hfound with (hbody | hothers) | hrest
      · have := ihBody hbody
        omega
      · have := ihOthers hothers
        split <;> omega
      · have := ihRest hrest
        split at this <;> split <;> omega

theorem nodup_lines_toSource (body : Body Act Head) (line : ℕ) :
    (body.toSource line).lines.Nodup := by
  induction body generalizing line with
  | nil => exact List.nodup_nil
  | leaf statement rest ih =>
      cases statement with
      | checkpoint _ =>
          apply List.nodup_cons.mpr ⟨_, ih (line + 1)⟩
          intro hmem
          have := mem_lines_toSource hmem
          omega
      | _ => exact ih (line + 1)
  | compound head body others rest ihBody ihOthers ihRest =>
      simp only [toSource, lines]
      apply List.Nodup.append _ (ihRest _)
      · intro found hleft hright
        have hlow := mem_lines_toSource hright
        rcases List.mem_append.mp hleft with hbody | hothers
        · have := mem_lines_toSource hbody
          omega
        · have := mem_lines_toSource hothers
          split at hlow <;> omega
      · apply List.Nodup.append (ihBody _) (ihOthers _)
        intro found hleft hright
        have := mem_lines_toSource hleft
        have := mem_lines_toSource hright
        omega

end Body

namespace Language

variable {language : Language}

/-! ## Positions in a suite -/

/-- `Position below code line stack`: a generator that runs `code` on top of
`below` can wait at this line with this control. -/
inductive Position : language.Stack → language.Code → ℕ → language.Stack → Prop
  | here {below line rest} :
      Position below (.leaf (.checkpoint line) rest) line (.suite rest :: below)
  | leaf {below statement rest line stack} :
      Position below rest line stack →
        Position below (.leaf statement rest) line stack
  | rest {below head body others rest line stack} :
      Position below rest line stack →
        Position below (.compound head body others rest) line stack
  | others {below head body others rest line stack} :
      Position (.suite rest :: below) others line stack →
        Position below (.compound head body others rest) line stack
  | ifBody {below cond body others rest line stack} :
      Position (.suite rest :: below) body line stack →
        Position below (.compound (.ifTest cond) body others rest) line stack
  | whileBody {below cond body others rest line stack} :
      Position (.whileLoop cond body others :: .suite rest :: below) body line stack →
        Position below (.compound (.whileTest cond) body others rest) line stack
  | forBody {below loop iterator body others rest line stack} :
      Position (.forLoop loop iterator body others :: .suite rest :: below) body line
        stack →
        Position below (.compound (.forEach loop) body others rest) line stack

theorem Position.mem_lines {below stack : language.Stack} {code : language.Code}
    {line : ℕ} (hposition : Position below code line stack) : line ∈ code.lines := by
  induction hposition with
  | here => exact List.mem_cons_self
  | leaf _ ih =>
      rename_i statement _ _ _ _
      cases statement with
      | checkpoint line => exact List.mem_cons_of_mem _ ih
      | _ => exact ih
  | _ => simp_all [Body.lines]

/-- The same level of control, up to the progress of a `for` loop. -/
inductive SameLevel : language.Frame → language.Frame → Prop
  | suite (rest) : SameLevel (.suite rest) (.suite rest)
  | whileLoop (cond body others) :
      SameLevel (.whileLoop cond body others) (.whileLoop cond body others)
  | forLoop (loop iterator iterator' body others) :
      SameLevel (.forLoop loop iterator body others) (.forLoop loop iterator' body others)

/-- Two positions on one line of a suite whose lines are distinct agree up to
the progress of `for` loops. -/
theorem Position.sameLevel {code : language.Code} (hnodup : code.lines.Nodup)
    {below below' stack stack' : language.Stack} {line : ℕ}
    (hbelow : List.Forall₂ SameLevel below below')
    (hleft : Position below code line stack)
    (hright : Position below' code line stack') :
    List.Forall₂ SameLevel stack stack' := by
  induction code generalizing below below' with
  | nil => cases hleft
  | leaf statement rest ih =>
      cases hleft with
      | here =>
          cases hright with
          | here => exact .cons (.suite rest) hbelow
          | leaf hright => exact absurd hright.mem_lines (List.nodup_cons.mp hnodup).1
      | leaf hleft =>
          cases hright with
          | here => exact absurd hleft.mem_lines (List.nodup_cons.mp hnodup).1
          | leaf hright =>
              refine ih ?_ hbelow hleft hright
              cases statement with
              | checkpoint line => exact (List.nodup_cons.mp hnodup).2
              | _ => exact hnodup
  | compound head body others rest ihBody ihOthers ihRest =>
      obtain ⟨hinner, hrest, hapart⟩ := List.nodup_append'.mp hnodup
      obtain ⟨hbody, hothers, hsplit⟩ := List.nodup_append'.mp hinner
      have hbelow' : List.Forall₂ SameLevel (.suite rest :: below)
          (.suite rest :: below') := .cons (.suite rest) hbelow
      cases hleft with
      | rest hleft =>
          cases hright with
          | rest hright => exact ihRest hrest hbelow hleft hright
          | others hright | ifBody hright | whileBody hright | forBody hright =>
              exact absurd hleft.mem_lines
                (hapart (by simp [hright.mem_lines]))
      | others hleft =>
          cases hright with
          | others hright => exact ihOthers hothers hbelow' hleft hright
          | rest hright =>
              exact absurd hright.mem_lines
                (hapart (by simp [hleft.mem_lines]))
          | ifBody hright | whileBody hright | forBody hright =>
              exact absurd hleft.mem_lines (hsplit hright.mem_lines)
      | ifBody hleft =>
          cases hright with
          | ifBody hright => exact ihBody hbody hbelow' hleft hright
          | rest hright =>
              exact absurd hright.mem_lines
                (hapart (by simp [hleft.mem_lines]))
          | others hright => exact absurd hright.mem_lines (hsplit hleft.mem_lines)
      | whileBody hleft =>
          cases hright with
          | whileBody hright =>
              exact ihBody hbody (.cons (.whileLoop _ _ _) hbelow') hleft hright
          | rest hright =>
              exact absurd hright.mem_lines
                (hapart (by simp [hleft.mem_lines]))
          | others hright => exact absurd hright.mem_lines (hsplit hleft.mem_lines)
      | forBody hleft =>
          cases hright with
          | forBody hright =>
              exact ihBody hbody (.cons (.forLoop _ _ _ _ _) hbelow') hleft hright
          | rest hright =>
              exact absurd hright.mem_lines
                (hapart (by simp [hleft.mem_lines]))
          | others hright => exact absurd hright.mem_lines (hsplit hleft.mem_lines)

/-! ## Generators stay in their code -/

/-- Every checkpoint that lies ahead at some level is a position of the code. -/
def Placed (code : language.Code) : language.Stack → Prop
  | [] => True
  | .suite rest :: stack =>
      (∀ line stack', Position stack rest line stack' → Position [] code line stack') ∧
        Placed code stack
  | .whileLoop cond body others :: stack =>
      (∀ line stack', Position (.whileLoop cond body others :: stack) body line stack' →
        Position [] code line stack') ∧
      (∀ line stack', Position stack others line stack' →
        Position [] code line stack') ∧ Placed code stack
  | .forLoop loop _ body others :: stack =>
      (∀ iterator line stack',
        Position (.forLoop loop iterator body others :: stack) body line stack' →
          Position [] code line stack') ∧
      (∀ line stack', Position stack others line stack' →
        Position [] code line stack') ∧ Placed code stack

theorem placed_call (code : language.Code) : Placed code [.suite code] :=
  ⟨fun _ _ hposition => hposition, trivial⟩

theorem Placed.tail {code : language.Code} {frame : language.Frame}
    {stack : language.Stack} (hplaced : Placed code (frame :: stack)) :
    Placed code stack := by
  cases frame with
  | suite rest => exact hplaced.2
  | whileLoop cond body others => exact hplaced.2.2
  | forLoop loop iterator body others => exact hplaced.2.2

theorem Placed.to_loop {code : language.Code} {stack : language.Stack}
    (hplaced : Placed code stack) : Placed code (toLoop stack) := by
  induction stack with
  | nil => exact hplaced
  | cons frame stack ih =>
      cases frame with
      | suite rest => exact ih hplaced.tail
      | whileLoop cond body others => exact hplaced
      | forLoop loop iterator body others => exact hplaced

theorem Placed.drop_loop {code : language.Code} {stack : language.Stack}
    (hplaced : Placed code stack) : Placed code (toLoop stack).tail := by
  have hloop := hplaced.to_loop
  cases hcases : toLoop stack with
  | nil => exact trivial
  | cons frame rest =>
      rw [hcases] at hloop
      exact hloop.tail

theorem Placed.flow {code : language.Code} {before after : language.Stack}
    (hplaced : Placed code before) (hflow : Flow before after) :
    Placed code after := by
  cases hflow with
  | skip => exact hplaced.2
  | simple => exact ⟨fun line stack h => hplaced.1 line stack h.leaf, hplaced.2⟩
  | brk => exact hplaced.2.drop_loop
  | cont => exact hplaced.2.to_loop
  | ret => exact trivial
  | ifBody =>
      exact ⟨fun line stack h => hplaced.1 line stack h.ifBody,
        fun line stack h => hplaced.1 line stack h.rest, hplaced.2⟩
  | ifOthers =>
      exact ⟨fun line stack h => hplaced.1 line stack h.others,
        fun line stack h => hplaced.1 line stack h.rest, hplaced.2⟩
  | whileEnter =>
      exact ⟨fun line stack h => hplaced.1 line stack h.whileBody,
        fun line stack h => hplaced.1 line stack h.others,
        fun line stack h => hplaced.1 line stack h.rest, hplaced.2⟩
  | whileBody => exact ⟨hplaced.1, hplaced⟩
  | whileOthers => exact ⟨hplaced.2.1, hplaced.2.2⟩
  | forEnter =>
      exact ⟨fun _ line stack h => hplaced.1 line stack h.forBody,
        fun line stack h => hplaced.1 line stack h.others,
        fun line stack h => hplaced.1 line stack h.rest, hplaced.2⟩
  | forBody => exact ⟨hplaced.1 _, hplaced⟩
  | forOthers => exact ⟨hplaced.2.1, hplaced.2.2⟩

theorem Placed.resume {code : language.Code} {fuel work line : ℕ}
    {stack after : language.Stack} {store store' : language.Store}
    (hplaced : Placed code stack)
    (hresume : Language.resume fuel stack store =
      some (work, .yielded line after store')) :
    Position [] code line after ∧ Placed code after := by
  obtain ⟨rest, below, hbefore, rfl⟩ :=
    resume_yielded (fun _ _ hbefore => hbefore.flow) hplaced hresume
  exact ⟨hbefore.1 line _ .here, fun line stack h => hbefore.1 line stack h.leaf,
    hbefore.2⟩

/-- Two generators of one function that wait at the same line have the same
control, up to the progress of their `for` loops. -/
theorem sameLevel_of_line (function : language.ThreadFunction) {line : ℕ}
    {stack stack' : language.Stack}
    (hleft : Position [] function.hacked line stack)
    (hright : Position [] function.hacked line stack') :
    List.Forall₂ SameLevel stack stack' :=
  Position.sameLevel (Body.nodup_lines_toSource _ _) .nil hleft hright

end Language

end JyyOS.ModelChecker
