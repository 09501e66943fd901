import JyyOS.Shell.Parser

/-!
# Reading command lines

`getcmd` reads one byte at a time into a buffer of 100 bytes and returns at a
newline or when the buffer is full.  The loop of `_start` changes the directory
itself and forks a child for every other command.
-/

namespace JyyOS.Shell

abbrev newline : Byte := '\n'.toUInt8

/-- The C string at the start of a buffer. -/
def cstring (buf : List Byte) : List Byte := buf.takeWhile (· ≠ 0)

/-! ## The code -/

/-- The loop of `getcmd`.  `nbuf` counts down, the next byte goes to `pos`, and
`input` is what is left of the standard input. -/
def getcmdLoop :
    ℕ → ℕ → List Byte → List Byte → Option (List Byte × List Byte)
  | nbuf + 2, pos, buf, byte :: input =>
      let buf := buf.set pos byte
      if byte = newline then some (buf, input)
      else getcmdLoop (nbuf + 1) (pos + 1) buf input
  -- `read` returns 0, and `getcmd` returns -1
  | _ + 2, _, _, [] => none
  | _, _, buf, input => some (buf, input)

/-- `getcmd` behind its prompt: the buffer and the rest of the input. -/
def getcmd (nbuf : ℕ) (input : List Byte) : Option (List Byte × List Byte) :=
  getcmdLoop nbuf 0 (List.replicate nbuf 0) input

/-- What `_start` does that can be seen from outside. -/
inductive Event where
  | print (text : List Byte)
  | chdir (path : List Byte)
  /-- A child is forked for `parsecmd(buf)` and waited for. -/
  | run (buf : List Byte)
deriving DecidableEq

/-- `sizeof(buf)` -/
abbrev bufSize := 100

/-- The bytes that one call takes from the input: up to a newline, at most
`room` of them. -/
def chunk : ℕ → List Byte → Option (List Byte × List Byte)
  | 0, input => some ([], input)
  | _ + 1, [] => none
  | room + 1, byte :: input =>
      if byte = newline then some ([byte], input)
      else (chunk room input).map fun (text, rest) => (byte :: text, rest)

/-- The buffer holds what was read, followed by the zeros of the initial
loop. -/
theorem getcmdLoop_eq (room : ℕ) (read input : List Byte) :
    getcmdLoop (room + 1) read.length (read ++ List.replicate (room + 1) 0)
        input =
      (chunk room input).map fun (text, rest) =>
        (read ++ text ++ List.replicate (room + 1 - text.length) 0, rest) := by
  induction room generalizing read input with
  | zero => simp [getcmdLoop, chunk]
  | succ room ih =>
      cases input with
      | nil => rfl
      | cons byte input =>
          have hset : (read ++ List.replicate (room + 2) 0).set read.length
              byte = read ++ [byte] ++ List.replicate (room + 1) 0 := by
            simp [List.replicate_succ]
          rw [getcmdLoop, hset]
          simp only [chunk]
          split_ifs with hbyte
          · simp
          · have hlength : read.length + 1 = (read ++ [byte]).length := by simp
            rw [hlength, ih (read ++ [byte]) input]
            simp [Function.comp_def]

theorem getcmd_eq (room : ℕ) (input : List Byte) :
    getcmd (room + 1) input =
      (chunk room input).map fun (text, rest) =>
        (text ++ List.replicate (room + 1 - text.length) 0, rest) := by
  simpa [getcmd] using getcmdLoop_eq room [] input

theorem chunk_append {room : ℕ} {input text rest : List Byte}
    (hchunk : chunk room input = some (text, rest)) :
    input = text ++ rest ∧ text.length ≤ room ∧ (room ≠ 0 → text ≠ []) := by
  induction room generalizing input text rest with
  | zero =>
      cases hchunk
      simp
  | succ room ih =>
      cases input with
      | nil => cases hchunk
      | cons byte input =>
          simp only [chunk] at hchunk
          split_ifs at hchunk with hbyte
          · cases hchunk
            simp
          · obtain ⟨⟨more, rest'⟩, hmore, heq⟩ := Option.map_eq_some_iff.mp hchunk
            cases heq
            obtain ⟨rfl, hlength, -⟩ := ih hmore
            simpa using hlength

/-- Every call takes at least one byte. -/
theorem getcmd_rest_lt {input buf rest : List Byte}
    (hgetcmd : getcmd bufSize input = some (buf, rest)) :
    rest.length < input.length := by
  rw [getcmd_eq 99 input] at hgetcmd
  obtain ⟨⟨text, rest'⟩, hchunk, heq⟩ := Option.map_eq_some_iff.mp hgetcmd
  cases heq
  obtain ⟨rfl, -, htext⟩ := chunk_append hchunk
  have := List.length_pos_of_ne_nil (htext (by decide))
  rw [List.length_append]
  omega

/-- `buf[0] == 'c' && buf[1] == 'd' && buf[2] == ' '` -/
def isCd (buf : List Byte) : Prop :=
  buf[0]? = some 'c'.toUInt8 ∧ buf[1]? = some 'd'.toUInt8 ∧
    buf[2]? = some ' '.toUInt8

instance (buf : List Byte) : Decidable (isCd buf) :=
  inferInstanceAs (Decidable (_ ∧ _))

/-- What the loop of `_start` does with a line. -/
def perform (chdir : List Byte → Bool) (buf : List Byte) : List Event :=
  if isCd buf then
    -- buf[strlen(buf) - 1] = 0
    let buf := buf.set ((cstring buf).length - 1) 0
    let path := cstring (buf.drop 3)
    .chdir path ::
      if chdir path then [] else [.print (bytes "cannot cd "), .print path,
        .print (bytes "\n")]
  else [.run (cstring buf)]

/-- The loop of `_start`; `chdir` tells whether the call for the line with this
number succeeds. -/
def start (chdir : ℕ → List Byte → Bool) (line : ℕ) (input : List Byte) :
    List Event :=
  .print (bytes "> ") ::
    match hgetcmd : getcmd bufSize input with
    | none => []
    | some (buf, rest) =>
        have : rest.length < input.length := getcmd_rest_lt hgetcmd
        perform (chdir line) buf ++ start chdir (line + 1) rest
termination_by input.length

/-! ## What is asked of it -/

/-- A line of the input; `ended` when a newline follows it. -/
structure TextLine where
  text : List Byte
  ended : Bool
deriving DecidableEq

def splitLines : List Byte → List TextLine
  | [] => []
  | byte :: input =>
      if byte = newline then ⟨[], true⟩ :: splitLines input
      else
        match splitLines input with
        | [] => [⟨[byte], false⟩]
        | line :: lines => ⟨byte :: line.text, line.ended⟩ :: lines

/-- A call that changes the directory or runs a command. -/
def Event.isAction : Event → Bool
  | .print _ => false
  | _ => true

def actions (chdir : ℕ → List Byte → Bool) (input : List Byte) : List Event :=
  (start chdir 0 input).filter Event.isAction

/-- The action carries out the line; its newline may be left on. -/
def Performs (action : Event) (line : TextLine) : Prop :=
  if isCd line.text then action = .chdir (line.text.drop 3)
  else action = .run line.text ∨ action = .run (line.text ++ [newline])

/-- A line with its newline fits into the buffer, where `getcmd` keeps one byte
for the NUL.  Without a newline only a line that fills the buffer is returned,
and the directory change would lose its last byte. -/
def Fits (line : TextLine) : Prop :=
  if line.ended then line.text.length + 1 < bufSize
  else line.text.length + 1 = bufSize ∧ ¬ isCd line.text

instance (line : TextLine) : Decidable (Fits line) :=
  inferInstanceAs (Decidable
    (if line.ended then line.text.length + 1 < bufSize
      else line.text.length + 1 = bufSize ∧ ¬ isCd line.text))

/-! ## Lines and chunks -/

theorem splitLines_ended {text : List Byte} (htext : newline ∉ text)
    (rest : List Byte) :
    splitLines (text ++ newline :: rest) = ⟨text, true⟩ :: splitLines rest := by
  induction text with
  | nil => simp [splitLines]
  | cons byte text ih =>
      have hbyte : byte ≠ newline := fun heq => htext (by simp [heq])
      rw [List.cons_append, splitLines, if_neg hbyte,
        ih fun hmem => htext (List.mem_cons_of_mem _ hmem)]

theorem splitLines_last {text : List Byte} (htext : newline ∉ text)
    (hne : text ≠ []) : splitLines text = [⟨text, false⟩] := by
  induction text with
  | nil => exact absurd rfl hne
  | cons byte text ih =>
      have hbyte : byte ≠ newline := fun heq => htext (by simp [heq])
      have hmore : newline ∉ text := fun hmem => htext (List.mem_cons_of_mem _ hmem)
      rw [splitLines, if_neg hbyte]
      cases text with
      | nil => rfl
      | cons next text => rw [ih hmore (by simp)]

/-- The input starts with a line that a newline ends, or is the last line. -/
theorem line_cases (input : List Byte) :
    (∃ text rest, newline ∉ text ∧ input = text ++ newline :: rest) ∨
      newline ∉ input := by
  by_cases hmem : newline ∈ input
  · obtain ⟨text, rest, hinput, htext⟩ := List.eq_append_cons_of_mem hmem
    exact .inl ⟨text, rest, htext, hinput⟩
  · exact .inr hmem

theorem chunk_ended {room : ℕ} {text : List Byte} (htext : newline ∉ text)
    (hroom : text.length < room) (rest : List Byte) :
    chunk room (text ++ newline :: rest) = some (text ++ [newline], rest) := by
  induction text generalizing room with
  | nil =>
      obtain ⟨room, rfl⟩ := Nat.exists_eq_add_of_lt hroom
      simp [chunk]
  | cons byte text ih =>
      have hbyte : byte ≠ newline := fun heq => htext (by simp [heq])
      cases room with
      | zero => simp at hroom
      | succ room =>
          rw [List.cons_append, chunk, if_neg hbyte,
            ih (fun hmem => htext (List.mem_cons_of_mem _ hmem))
              (by simpa using hroom)]
          rfl

theorem chunk_newline (rest : List Byte) :
    chunk 99 (newline :: rest) = some ([newline], rest) := rfl

theorem chunk_full {text : List Byte} (htext : newline ∉ text)
    (rest : List Byte) :
    chunk text.length (text ++ rest) = some (text, rest) := by
  induction text with
  | nil => rfl
  | cons byte text ih =>
      have hbyte : byte ≠ newline := fun heq => htext (by simp [heq])
      rw [List.cons_append, List.length_cons, chunk, if_neg hbyte,
        ih fun hmem => htext (List.mem_cons_of_mem _ hmem)]
      rfl

theorem chunk_last {room : ℕ} {text : List Byte} (htext : newline ∉ text)
    (hroom : text.length < room) : chunk room text = none := by
  induction text generalizing room with
  | nil =>
      cases room with
      | zero => simp at hroom
      | succ room => rfl
  | cons byte text ih =>
      have hbyte : byte ≠ newline := fun heq => htext (by simp [heq])
      cases room with
      | zero => simp at hroom
      | succ room =>
          rw [chunk, if_neg hbyte,
            ih (fun hmem => htext (List.mem_cons_of_mem _ hmem))
              (by simpa using hroom)]
          rfl

/-! ## What a chunk does -/

theorem isCd_append {text more : List Byte} (hmore : ∀ byte ∈ more.head?,
    byte ≠ 'c'.toUInt8 ∧ byte ≠ 'd'.toUInt8 ∧ byte ≠ ' '.toUInt8) :
    isCd (text ++ more) ↔ isCd text := by
  match text, more with
  | [], [] | [_], [] | [_, _], [] => simp
  | [], byte :: more => simp_all [isCd]
  | [_], byte :: more => simp_all [isCd]
  | [_, _], byte :: more => simp_all [isCd]
  | _ :: _ :: _ :: text, more => simp [isCd]

theorem isCd_append_long {text : List Byte} (htext : 3 ≤ text.length)
    (more : List Byte) : isCd (text ++ more) ↔ isCd text := by
  match text with
  | _ :: _ :: _ :: text => simp [isCd]

theorem length_of_isCd {text : List Byte} (hcd : isCd text) :
    3 ≤ text.length := by
  obtain ⟨hlt, -⟩ := List.getElem?_eq_some_iff.mp hcd.2.2
  omega

theorem cstring_append {text : List Byte} (htext : 0 ∉ text)
    (more : List Byte) : cstring (text ++ 0 :: more) = text := by
  have hall : ∀ byte ∈ text, decide (byte ≠ 0) = true := by
    intro byte hbyte
    have hne : byte ≠ 0 := by
      rintro rfl
      exact htext hbyte
    simpa using hne
  rw [cstring, List.takeWhile_append_of_pos hall]
  simp

/-- `buf[strlen(buf) - 1] = 0`, seen behind the first three bytes. -/
theorem cstring_chop {text : List Byte} (htext : 0 ∉ text)
    (hlength : 3 ≤ text.length) (zeros : ℕ) :
    cstring (((text ++ List.replicate zeros 0).set (text.length - 1) 0).drop 3) =
      text.dropLast.drop 3 := by
  obtain ⟨start, last, rfl⟩ : ∃ start last, text = start ++ [last] :=
    ⟨_, _, (List.dropLast_append_getLast (by
      rintro rfl
      simp at hlength)).symm⟩
  have hset : (start ++ [last] ++ List.replicate zeros 0).set
      ((start ++ [last]).length - 1) 0 = start ++ 0 :: List.replicate zeros 0 := by
    simp
  have hstart : 0 ∉ start.drop 3 := fun hmem =>
    htext (List.mem_append_left _ (List.mem_of_mem_drop hmem))
  rw [hset, List.dropLast_concat]
  by_cases hlong : 3 ≤ start.length
  · rw [List.drop_append_of_le_length hlong, cstring_append hstart]
  · -- the line is `cd ` alone
    have hlength : start.length = 2 := by
      rw [List.length_append, List.length_singleton] at hlength
      omega
    rw [List.drop_append, hlength, List.drop_eq_nil_of_le (by omega)]
    cases zeros with
    | zero => rfl
    | succ zeros => rfl

/-- The action for a chunk. -/
def act (text : List Byte) : Event :=
  if isCd text then .chdir (text.dropLast.drop 3) else .run text

theorem perform_actions (chdir : List Byte → Bool) {text : List Byte}
    (htext : 0 ∉ text) (zeros : ℕ) :
    (perform chdir (text ++ List.replicate (zeros + 1) 0)).filter
      Event.isAction = [act text] := by
  have hcd : isCd (text ++ List.replicate (zeros + 1) 0) ↔ isCd text := by
    apply isCd_append
    rw [List.replicate_succ, List.head?_cons]
    rintro byte ⟨⟩
    decide
  have hstring : cstring (text ++ List.replicate (zeros + 1) 0) = text :=
    cstring_append htext _
  rw [perform, act, hstring]
  by_cases hisCd : isCd text
  · rw [if_pos (hcd.mpr hisCd), if_pos hisCd]
    simp only [cstring_chop htext (length_of_isCd hisCd)]
    split_ifs
    · rfl
    · rfl
  · rw [if_neg (mt hcd.mp hisCd), if_neg hisCd]
    rfl

/-- The actions from the line with this number on. -/
theorem actions_of_chunk {chdir : ℕ → List Byte → Bool} (line : ℕ)
    {input text rest : List Byte} (hnul : 0 ∉ input)
    (hchunk : chunk 99 input = some (text, rest)) :
    (start chdir line input).filter Event.isAction =
      act text :: (start chdir (line + 1) rest).filter Event.isAction := by
  obtain ⟨rfl, hlength, -⟩ := chunk_append hchunk
  have htext : 0 ∉ text := fun hmem => hnul (List.mem_append_left _ hmem)
  obtain ⟨zeros, hzeros⟩ : ∃ zeros, 99 + 1 - text.length = zeros + 1 :=
    ⟨99 - text.length, by omega⟩
  have hgetcmd : getcmd bufSize (text ++ rest) =
      some (text ++ List.replicate (zeros + 1) 0, rest) := by
    rw [getcmd_eq 99, hchunk, ← hzeros]
    rfl
  rw [start]
  split
  next heq =>
    rw [hgetcmd] at heq
    cases heq
  next heq =>
    rw [hgetcmd] at heq
    cases heq
    simp only [List.filter_cons, Event.isAction, Bool.false_eq_true, if_false,
      List.filter_append, perform_actions (chdir line) htext zeros,
      List.singleton_append]

theorem actions_of_end {chdir : ℕ → List Byte → Bool} (line : ℕ)
    {input : List Byte} (hchunk : chunk 99 input = none) :
    (start chdir line input).filter Event.isAction = [] := by
  have hgetcmd : getcmd bufSize input = none := by
    rw [getcmd_eq 99, hchunk, Option.map_none]
  rw [start]
  split
  next => rfl
  next heq =>
    rw [hgetcmd] at heq
    cases heq

/-! ## Whether the action carries out the line -/

theorem performs_act_ended {text : List Byte} :
    Performs (act (text ++ [newline])) ⟨text, true⟩ := by
  have hcd : isCd (text ++ [newline]) ↔ isCd text := by
    apply isCd_append
    rintro byte ⟨⟩
    decide
  by_cases hisCd : isCd text
  · simp [Performs, act, hcd, hisCd]
  · simp [Performs, act, hcd, hisCd]

/-- Without its newline a line loses the end of its path. -/
theorem performs_act_whole {text : List Byte} (htext : 3 < text.length)
    (ended : Bool) : Performs (act text) ⟨text, ended⟩ ↔ ¬ isCd text := by
  by_cases hisCd : isCd text
  · have hne : text.dropLast.drop 3 ≠ text.drop 3 := by
      intro heq
      have := congrArg List.length heq
      simp only [List.length_drop, List.length_dropLast] at this
      omega
    simp [Performs, act, hisCd, hne]
  · simp [Performs, act, hisCd]

/-- A chunk that is not the whole line. -/
theorem not_performs_act_part {text more : List Byte} (htext : 3 < text.length)
    (hmore : more ≠ []) (ended : Bool) :
    ¬ Performs (act text) ⟨text ++ more, ended⟩ := by
  have hcd : isCd (text ++ more) ↔ isCd text := isCd_append_long (by omega) more
  have hpos := List.length_pos_of_ne_nil hmore
  by_cases hisCd : isCd text
  · simp only [Performs, act, hcd, hisCd, if_true, Event.chdir.injEq]
    intro heq
    have := congrArg List.length heq
    simp only [List.length_drop, List.length_dropLast, List.length_append] at this
    omega
  · simp [Performs, act, hcd, hisCd, hmore]

/-! ## All lines -/

/-- A newline left over from a full buffer is one command too many. -/
theorem not_performs_shifted {chdir : ℕ → List Byte → Bool} (line : ℕ)
    (input : List Byte) (hnul : 0 ∉ input) :
    ¬ List.Forall₂ Performs
      ((start chdir line (newline :: input)).filter Event.isAction)
      (splitLines input) := by
  induction input generalizing line with
  | nil =>
      rw [actions_of_chunk line (by decide) (chunk_newline [])]
      rintro ⟨⟩
  | cons byte input ih =>
      have hnul' : 0 ∉ newline :: byte :: input := by
        rw [List.mem_cons, not_or]
        exact ⟨by decide, hnul⟩
      rw [actions_of_chunk line hnul' (chunk_newline (byte :: input)), splitLines]
      split_ifs with hbyte
      · subst hbyte
        intro hall
        exact ih (line + 1) (fun hmem => hnul (List.mem_cons_of_mem _ hmem))
          (List.forall₂_cons.mp hall).2
      · -- the surplus command is empty and the line is not
        have hhead : ∀ (text : List Byte) (ended : Bool),
            ¬ Performs (act [newline]) ⟨byte :: text, ended⟩ := by
          intro text ended hperforms
          have hact : act [newline] = .run [newline] := rfl
          rw [Performs, hact] at hperforms
          split_ifs at hperforms
          obtain heq | heq := hperforms
          · exact hbyte (List.cons.inj (Event.run.inj heq)).1.symm
          · exact hbyte (List.cons.inj (Event.run.inj heq)).1.symm
        split
        · exact fun hall => hhead _ _ (List.forall₂_cons.mp hall).1
        · exact fun hall => hhead _ _ (List.forall₂_cons.mp hall).1

theorem fits_ended {text : List Byte} :
    Fits ⟨text, true⟩ ↔ text.length < 99 :=
  Nat.succ_lt_succ_iff

theorem fits_last {text : List Byte} :
    Fits ⟨text, false⟩ ↔ text.length = 99 ∧ ¬ isCd text :=
  and_congr_left' Nat.succ_inj

/-- The first 99 bytes of a line that is longer. -/
theorem exists_part {text : List Byte} (hlong : 99 < text.length) :
    ∃ part more, text = part ++ more ∧ part.length = 99 ∧ more ≠ [] := by
  refine ⟨text.take 99, text.drop 99, (List.take_append_drop ..).symm, ?_, ?_⟩
  · simp only [List.length_take]
    omega
  · simpa using hlong

section Lines

variable {chdir : ℕ → List Byte → Bool} {input text rest : List Byte}

/-- A line that is cut at the end of the buffer. -/
theorem not_performs_cut (line : ℕ) (hnul : 0 ∉ text ++ rest)
    (htext : newline ∉ text) (hlong : 99 < text.length) (ended : Bool)
    (lines : List TextLine) :
    ¬ List.Forall₂ Performs
      ((start chdir line (text ++ rest)).filter Event.isAction)
      (⟨text, ended⟩ :: lines) := by
  obtain ⟨part, more, rfl, hpart, hmore⟩ := exists_part hlong
  have hchunk : chunk 99 (part ++ more ++ rest) = some (part, more ++ rest) := by
    rw [List.append_assoc, ← hpart]
    exact chunk_full (fun hmem => htext (List.mem_append_left _ hmem)) _
  rw [actions_of_chunk line hnul hchunk]
  intro hall
  exact not_performs_act_part (by omega) hmore ended
    (List.forall₂_cons.mp hall).1

theorem performs_last_iff (line : ℕ) (hnul : 0 ∉ text)
    (htext : newline ∉ text) :
    List.Forall₂ Performs ((start chdir line text).filter Event.isAction)
      [⟨text, false⟩] ↔ Fits ⟨text, false⟩ := by
  rw [fits_last]
  obtain hshort | hfull | hlong := lt_trichotomy text.length 99
  · rw [actions_of_end line (chunk_last htext hshort)]
    exact iff_of_false (by rintro ⟨⟩) (by omega)
  · have hchunk : chunk 99 text = some (text, []) := by
      simpa [hfull] using chunk_full htext []
    rw [actions_of_chunk line hnul hchunk, actions_of_end (line + 1) rfl,
      List.forall₂_cons, performs_act_whole (by omega)]
    simp [hfull]
  · refine iff_of_false (fun hall => ?_) (by omega)
    rw [← List.append_nil text] at hnul hall
    exact not_performs_cut line hnul htext hlong false [] (by simpa using hall)

theorem performs_ended_iff (line : ℕ) (hnul : 0 ∉ text ++ newline :: rest)
    (htext : newline ∉ text) :
    List.Forall₂ Performs
        ((start chdir line (text ++ newline :: rest)).filter Event.isAction)
        (⟨text, true⟩ :: splitLines rest) ↔
      Fits ⟨text, true⟩ ∧ List.Forall₂ Performs
        ((start chdir (line + 1) rest).filter Event.isAction)
        (splitLines rest) := by
  rw [fits_ended]
  obtain hshort | hfull | hlong := lt_trichotomy text.length 99
  · rw [actions_of_chunk line hnul (chunk_ended htext hshort rest),
      List.forall₂_cons]
    simp [performs_act_ended, hshort]
  · -- the newline stays behind and becomes a command of its own
    have hchunk : chunk 99 (text ++ newline :: rest) =
        some (text, newline :: rest) := by
      rw [← hfull]
      exact chunk_full htext _
    have hrest : 0 ∉ rest := fun hmem =>
      hnul (List.mem_append_right _ (List.mem_cons_of_mem _ hmem))
    refine iff_of_false (fun hall => ?_) (by omega)
    rw [actions_of_chunk line hnul hchunk] at hall
    exact not_performs_shifted (line + 1) rest hrest
      (List.forall₂_cons.mp hall).2
  · exact iff_of_false (not_performs_cut line hnul htext hlong true _) (by omega)

theorem performs_lines_iff (line : ℕ) (hnul : 0 ∉ input) :
    List.Forall₂ Performs ((start chdir line input).filter Event.isAction)
      (splitLines input) ↔ ∀ line ∈ splitLines input, Fits line := by
  induction hlength : input.length using Nat.strong_induction_on
    generalizing input line with
  | _ length ih =>
      obtain ⟨text, rest, htext, rfl⟩ | hlast := line_cases input
      · have hrest : 0 ∉ rest := fun hmem =>
          hnul (List.mem_append_right _ (List.mem_cons_of_mem _ hmem))
        have hlt : rest.length < length := by
          rw [← hlength, List.length_append, List.length_cons]
          omega
        rw [splitLines_ended htext, performs_ended_iff line hnul htext,
          ih _ hlt (line + 1) hrest rfl, List.forall_mem_cons]
      · by_cases hne : input = []
        · subst hne
          rw [actions_of_end line rfl]
          simp [splitLines]
        · rw [splitLines_last hlast hne, performs_last_iff line hnul hlast]
          simp

end Lines

/-- The shell acts once for each line, as the line says, exactly when every
line fits. -/
theorem start_line_by_line_iff (chdir : ℕ → List Byte → Bool)
    (input : List Byte) (hnul : 0 ∉ input) :
    List.Forall₂ Performs (actions chdir input) (splitLines input) ↔
      ∀ line ∈ splitLines input, Fits line :=
  performs_lines_iff 0 hnul

theorem start_line_by_line_pwd :
    0 ∉ bytes "cd /tmp\npwd\n" ∧
      List.Forall₂ Performs (actions (fun _ _ => true) (bytes "cd /tmp\npwd\n"))
        [⟨bytes "cd /tmp", true⟩, ⟨bytes "pwd", true⟩] :=
  ⟨by decide, (start_line_by_line_iff _ _ (by decide)).mpr (by decide)⟩

/-- The last line of `pwd` without a newline is lost. -/
theorem start_loses_last_line :
    0 ∉ bytes "pwd" ∧ ¬ List.Forall₂ Performs
      (actions (fun _ _ => true) (bytes "pwd")) (splitLines (bytes "pwd")) := by
  have hnone : actions (fun _ _ => true) (bytes "pwd") = [] :=
    actions_of_end 0 (by decide)
  rw [hnone]
  exact ⟨by decide, by rintro ⟨⟩⟩

end JyyOS.Shell
