import JyyOS.Shell.Getcmd
import JyyOS.Shell.ParserExact

/-!
# The words that `nulterminate` leaves in the line

`nulterminate` writes a NUL behind every word of the tree, into the line in
which the words themselves are.  Where a word ends there is no word byte, so no
word loses a byte to the end of another one, whatever the order of the writes.
-/

namespace JyyOS.Shell

/-! ## Words of a text -/

/-- The slice is a longest run of word bytes of a text that stands at an offset
of the line. -/
def IsRun (offset : ℕ) (text : List Byte) (slice : Slice) : Prop :=
  ∃ before word after, text = before ++ word ++ after ∧
    slice = ⟨offset + before.length, offset + before.length + word.length⟩ ∧
    word ≠ [] ∧ (∀ byte ∈ word, isWord byte = true) ∧
    ∀ byte ∈ after.head?, isWord byte = false

theorem IsRun.append {offset : ℕ} {text : List Byte} {slice : Slice} (front : List Byte)
    (hrun : IsRun (offset + front.length) text slice) :
    IsRun offset (front ++ text) slice := by
  obtain ⟨before, word, after, rfl, rfl, hword⟩ := hrun
  refine ⟨front ++ before, word, after, by simp, ?_, hword⟩
  rw [List.length_append, ← Nat.add_assoc]

theorem symbolToken_ne_word {byte : Byte} (slice : Slice) :
    symbolToken byte ≠ some (.word slice) := by
  intro hsymbol
  cases (symbolToken_code hsymbol).2

/-- A symbol takes one byte or two and is no word. -/
theorem tokens_of_symbol {byte : Byte} (hspace : isSpace byte = false) {token : Token}
    (hsymbol : symbolToken byte = some token) (offset : ℕ) (rest : List Byte) :
    ∃ front tail symbol, byte :: rest = front ++ tail ∧ front ≠ [] ∧
      tokens offset (byte :: rest) = symbol :: tokens (offset + front.length) tail ∧
      ∀ slice, symbol ≠ .word slice := by
  by_cases hgt : token = .gt
  · subst hgt
    by_cases hnext : rest.head? = some '>'.toUInt8
    · obtain ⟨rest, rfl⟩ : ∃ more, rest = '>'.toUInt8 :: more :=
        ⟨rest.tail, (List.cons_head?_tail hnext).symm⟩
      exact ⟨[byte, '>'.toUInt8], rest, .append, rfl, by simp,
        tokens_append hspace hsymbol offset rest, by simp⟩
    · exact ⟨[byte], rest, .gt, rfl, by simp, tokens_gt hspace hsymbol offset hnext, by simp⟩
  · refine ⟨[byte], rest, token, rfl, by simp, tokens_symbol hspace hsymbol hgt offset rest, ?_⟩
    rintro slice rfl
    exact symbolToken_ne_word slice hsymbol

/-- Induction along the tokens of a text: in front is a space or a symbol, or a
longest word. -/
theorem tokens_induction {P : ℕ → List Byte → List Token → Prop}
    (hnil : ∀ offset, P offset [] [])
    (hskip : ∀ offset front rest symbols toks, (∀ slice, .word slice ∉ symbols) →
      P (offset + front.length) rest toks → P offset (front ++ rest) (symbols ++ toks))
    (hword : ∀ offset word rest toks, word ≠ [] → (∀ byte ∈ word, isWord byte = true) →
      (∀ byte ∈ rest.head?, isWord byte = false) → P (offset + word.length) rest toks →
        P offset (word ++ rest) (.word ⟨offset, offset + word.length⟩ :: toks))
    (offset : ℕ) (text : List Byte) : P offset text (tokens offset text) := by
  induction hlength : text.length using Nat.strong_induction_on generalizing offset text with
  | _ length ih =>
      cases text with
      | nil => simpa [tokens] using hnil offset
      | cons byte rest =>
          have hrest : ∀ (front tail : List Byte), byte :: rest = front ++ tail → front ≠ [] →
              P (offset + front.length) tail (tokens (offset + front.length) tail) := by
            intro front tail hsplit hfront
            have hshorter : tail.length < length := by
              have := List.length_pos_iff.mpr hfront
              rw [← hlength, hsplit, List.length_append]
              omega
            exact ih tail.length hshorter _ _ rfl
          by_cases hspace : isSpace byte = true
          · rw [tokens_space hspace]
            exact hskip offset [byte] rest [] _ (by simp) (hrest [byte] rest rfl (by simp))
          replace hspace : isSpace byte = false := Bool.eq_false_iff.mpr hspace
          cases hsymbol : symbolToken byte with
          | none =>
              have hisWord : isWord byte = true := isWord_iff.mpr ⟨hspace, hsymbol⟩
              have hsplit : byte :: rest =
                  (byte :: rest.takeWhile isWord) ++ rest.dropWhile isWord := by simp
              have hlast : offset + 1 + (rest.takeWhile isWord).length =
                  offset + (byte :: rest.takeWhile isWord).length := by
                rw [List.length_cons]
                omega
              rw [tokens_word hisWord, hsplit, hlast]
              refine hword _ _ _ _ (by simp) ?_ ?_ (hrest _ _ hsplit (by simp))
              · simpa [hisWord] using List.all_eq_true.mp (List.all_takeWhile (l := rest))
              · intro other hother
                have hnot := List.head?_dropWhile_not isWord rest
                rw [Option.mem_def.mp hother] at hnot
                exact hnot
          | some token =>
              obtain ⟨front, tail, symbol, hsplit, hfront, htokens, hnot⟩ :=
                tokens_of_symbol hspace hsymbol offset rest
              rw [htokens, hsplit]
              refine hskip offset front tail [symbol] _ (fun slice hmem => ?_)
                (hrest front tail hsplit hfront)
              exact hnot slice (List.mem_singleton.mp hmem).symm

theorem isRun_of_mem_tokens {offset : ℕ} {text : List Byte} {slice : Slice}
    (hmem : .word slice ∈ tokens offset text) : IsRun offset text slice := by
  revert hmem
  refine tokens_induction (P := fun offset text toks => .word slice ∈ toks →
    IsRun offset text slice) ?_ ?_ ?_ offset text
  · simp
  · intro offset front rest symbols toks hsymbols ih hmem
    exact .append front (ih ((List.mem_append.mp hmem).resolve_left (hsymbols slice)))
  · intro offset word rest toks hnonempty hword hrest ih hmem
    obtain hfirst | hmem := List.mem_cons.mp hmem
    · cases hfirst
      exact ⟨[], word, rest, rfl, rfl, hnonempty, hword, hrest⟩
    · exact .append word (ih hmem)

/-- The words of a text stand one behind the other. -/
theorem tokens_increasing (offset : ℕ) (text : List Byte) :
    (tokens offset text).Pairwise fun left right =>
      ∀ first second, left = .word first → right = .word second → first.start < second.start := by
  refine (tokens_induction (P := fun offset _ toks =>
    (∀ slice, .word slice ∈ toks → offset ≤ slice.start) ∧ toks.Pairwise fun left right =>
      ∀ first second, left = .word first → right = .word second →
        first.start < second.start) ?_ ?_ ?_ offset text).2
  · simp
  · rintro offset front rest symbols toks hsymbols ⟨hbound, hpairs⟩
    refine ⟨fun slice hmem => ?_, List.pairwise_append.mpr ⟨?_, hpairs, ?_⟩⟩
    · have := hbound slice ((List.mem_append.mp hmem).resolve_left (hsymbols slice))
      omega
    · refine List.pairwise_of_forall_mem_list fun left hleft _ _ first _ hfirst => ?_
      exact absurd (hfirst ▸ hleft) (hsymbols first)
    · exact fun left hleft _ _ first _ hfirst => absurd (hfirst ▸ hleft) (hsymbols first)
  · rintro offset word rest toks hnonempty - - ⟨hbound, hpairs⟩
    have hpositive := List.length_pos_iff.mpr hnonempty
    refine ⟨fun slice hmem => ?_, List.pairwise_cons.mpr ⟨?_, hpairs⟩⟩
    · obtain hfirst | hmem := List.mem_cons.mp hmem
      · cases hfirst
        exact le_rfl
      · exact (Nat.le_add_right _ _).trans (hbound slice hmem)
    · rintro right hright first second hfirst rfl
      cases hfirst
      have := hbound second hright
      simp only
      omega

section Run

variable {text : List Byte} {slice : Slice}

theorem IsRun.inside (hrun : IsRun 0 text slice) {i : ℕ} (hstart : slice.start ≤ i)
    (hstop : i < slice.stop) : ∃ byte, text[i]? = some byte ∧ isWord byte = true := by
  obtain ⟨before, word, after, rfl, rfl, -, hword, -⟩ := hrun
  simp only [Nat.zero_add] at hstart hstop
  have hlt : i - before.length < word.length := by omega
  refine ⟨word[i - before.length], ?_, hword _ (List.getElem_mem hlt)⟩
  rw [List.append_assoc, List.getElem?_append_right hstart, List.getElem?_append_left hlt,
    List.getElem?_eq_getElem hlt]

theorem IsRun.behind (hrun : IsRun 0 text slice) {byte : Byte}
    (hbyte : text[slice.stop]? = some byte) : isWord byte = false := by
  obtain ⟨before, word, after, rfl, rfl, -, -, hafter⟩ := hrun
  rw [List.getElem?_append_right (by simp)] at hbyte
  simp only [Nat.zero_add, List.length_append, Nat.sub_self] at hbyte
  exact hafter byte (by rwa [List.head?_eq_getElem?])

theorem IsRun.bounds (hrun : IsRun 0 text slice) :
    slice.start < slice.stop ∧ slice.stop ≤ text.length := by
  obtain ⟨before, word, after, rfl, rfl, hnonempty, -⟩ := hrun
  have hpositive := List.length_pos_iff.mpr hnonempty
  simp only [List.length_append]
  omega

end Run

/-! ## The writes -/

/-- Where `nulterminate` writes, in its order. -/
def Cmd.writes : Cmd → List ℕ
  | .exec argv eargv =>
      ((List.finRange MAXARGS).takeWhile fun i => (argv i).isSome).map fun i =>
        (eargv i).getD 0
  | .redir cmd _ efile _ _ => cmd.writes ++ [efile]
  | .pipe left right => left.writes ++ right.writes
  | .list left right => left.writes ++ right.writes
  | .back cmd => cmd.writes

theorem nulterminate_eq (cmd : Cmd) (text : List Byte) :
    cmd.nulterminate text = cmd.writes.foldl (fun text pos => text.set pos 0) text := by
  induction cmd generalizing text with
  | exec argv eargv => rw [Cmd.nulterminate, Cmd.writes, List.foldl_map]
  | redir cmd file efile mode fd ih =>
      rw [Cmd.nulterminate, Cmd.writes, List.foldl_append, ih]
      rfl
  | pipe left right ihLeft ihRight =>
      rw [Cmd.nulterminate, Cmd.writes, List.foldl_append, ihLeft, ihRight]
  | list left right ihLeft ihRight =>
      rw [Cmd.nulterminate, Cmd.writes, List.foldl_append, ihLeft, ihRight]
  | back cmd ih => rw [Cmd.nulterminate, Cmd.writes, ih]

theorem getElem?_writes (writes : List ℕ) (text : List Byte) {i : ℕ} (hi : i < text.length) :
    (writes.foldl (fun text pos => text.set pos 0) text)[i]? =
      if i ∈ writes then some 0 else text[i]? := by
  induction writes generalizing text with
  | nil => simp
  | cons pos writes ih =>
      rw [List.foldl_cons, ih _ (by rwa [List.length_set])]
      by_cases hlater : i ∈ writes
      · rw [if_pos hlater, if_pos (List.mem_cons_of_mem _ hlater)]
      · rw [if_neg hlater]
        by_cases hpos : pos = i
        · rw [hpos, List.getElem?_set_self hi, if_pos List.mem_cons_self]
        · rw [List.getElem?_set_ne hpos, if_neg (by simp [hlater, Ne.symm hpos])]

/-! ## The tree -/

/-- All nodes of a tree. -/
def Cmd.nodes : Cmd → List Cmd
  | .exec argv eargv => [.exec argv eargv]
  | .redir cmd file efile mode fd => .redir cmd file efile mode fd :: cmd.nodes
  | .pipe left right => .pipe left right :: (left.nodes ++ right.nodes)
  | .list left right => .list left right :: (left.nodes ++ right.nodes)
  | .back cmd => .back cmd :: cmd.nodes

/-- The pointers of a tree are those of words among the tokens, at most nine in
one command. -/
def Cmd.Spells (toks : List Token) : Cmd → Prop
  | .exec argv eargv => ∃ words : List Slice, words.length ≤ 9 ∧
      argv = slots (words.map (·.start)) ∧ eargv = slots (words.map (·.stop)) ∧
      ∀ word ∈ words, .word word ∈ toks
  | .redir cmd file efile _ _ => cmd.Spells toks ∧ .word ⟨file, efile⟩ ∈ toks
  | .pipe left right => left.Spells toks ∧ right.Spells toks
  | .list left right => left.Spells toks ∧ right.Spells toks
  | .back cmd => cmd.Spells toks

namespace Cmd

variable {toks more : List Token}

theorem Spells.mono {cmd : Cmd} (hsub : ∀ word, .word word ∈ toks → .word word ∈ more)
    (hspells : cmd.Spells toks) : cmd.Spells more := by
  induction cmd with
  | exec argv eargv =>
      obtain ⟨words, hfew, hargv, heargv, hwords⟩ := hspells
      exact ⟨words, hfew, hargv, heargv, fun word hword => hsub word (hwords word hword)⟩
  | redir cmd file efile mode fd ih => exact ⟨ih hspells.1, hsub _ hspells.2⟩
  | pipe left right ihLeft ihRight => exact ⟨ihLeft hspells.1, ihRight hspells.2⟩
  | list left right ihLeft ihRight => exact ⟨ihLeft hspells.1, ihRight hspells.2⟩
  | back cmd ih => exact ih hspells

theorem Spells.wraps {cmd : Cmd} {redirs : List Redir} (hspells : cmd.Spells toks)
    (hredirs : ∀ redir ∈ redirs, .word redir.file ∈ toks) :
    (redirs.foldl Redir.wrap cmd).Spells toks := by
  induction redirs generalizing cmd with
  | nil => exact hspells
  | cons redir redirs ih =>
      refine ih ?_ fun other hother => hredirs other (List.mem_cons_of_mem _ hother)
      have hfile := hredirs redir List.mem_cons_self
      unfold Redir.wrap
      split <;> exact ⟨hspells, hfile⟩

theorem Spells.backs {cmd : Cmd} (hspells : cmd.Spells toks) (amps : ℕ) :
    (Cmd.back^[amps] cmd).Spells toks := by
  induction amps with
  | zero => exact hspells
  | succ amps ih =>
      rw [Function.iterate_succ_apply']
      exact ih

end Cmd

theorem mem_redirsYield {redirs : List Redir} {redir : Redir} (hmem : redir ∈ redirs) :
    .word redir.file ∈ redirsYield redirs :=
  List.mem_flatMap.mpr ⟨redir, hmem, by simp [Redir.yield]⟩

theorem spells_tree {symbol : Nonterminal} (phrase : Deriv symbol)
    (hwords : phrase.FewWords) : phrase.tree.Spells phrase.yield := by
  induction phrase with
  | lineEnd pipe amps ih =>
      exact ((ih hwords).mono fun _ => List.mem_append_left _).backs amps
  | lineMore pipe amps line ihPipe ihLine =>
      refine ⟨((ihPipe hwords.1).mono fun word hword => ?_).backs amps,
        (ihLine hwords.2).mono fun word hword => ?_⟩
      · simp [Deriv.yield, hword]
      · simp [Deriv.yield, hword]
  | pipeEnd exec ih => exact ih hwords
  | pipeMore exec pipe ihExec ihPipe =>
      refine ⟨(ihExec hwords.1).mono fun word hword => ?_,
        (ihPipe hwords.2).mono fun word hword => ?_⟩
      · simp [Deriv.yield, hword]
      · simp [Deriv.yield, hword]
  | block line redirs ih =>
      refine ((ih hwords).mono fun word hword => ?_).wraps fun redir hredir => ?_
      · simp [Deriv.yield, hword]
      · simp [Deriv.yield, mem_redirsYield hredir]
  | simple redirs words =>
      refine Cmd.Spells.wraps ⟨words.map (·.1), by rw [List.length_map]; exact hwords, rfl,
        rfl, ?_⟩ ?_
      · intro word hword
        obtain ⟨pair, hpair, rfl⟩ := List.mem_map.mp hword
        refine List.mem_append_right _ (List.mem_flatMap.mpr ⟨pair, hpair, ?_⟩)
        exact List.mem_cons_self
      · intro redir hredir
        rcases List.mem_append.mp hredir with hfirst | hlater
        · exact List.mem_append_left _ (mem_redirsYield hfirst)
        · obtain ⟨pair, hpair, hredir⟩ := List.mem_flatMap.mp hlater
          refine List.mem_append_right _ (List.mem_flatMap.mpr ⟨pair, hpair, ?_⟩)
          exact List.mem_cons_of_mem _ (mem_redirsYield hredir)

/-! ## The writes of a tree -/

section Writes

variable {words : List Slice} {toks : List Token}

/-- The loop of `nulterminate` reaches the arguments in front of the first null
pointer. -/
theorem mem_takeWhile_finRange {n : ℕ} {keep : Fin n → Bool} {i : Fin n}
    (hkeep : ∀ j ≤ i, keep j = true) : i ∈ (List.finRange n).takeWhile keep := by
  rw [← List.take_append_drop (i.val + 1) (List.finRange n), List.takeWhile_append_of_pos]
  · refine List.mem_append_left _ (List.mem_take_iff_getElem.mpr ⟨i.val, by simp, ?_⟩)
    simp
  · intro j hj
    obtain ⟨k, hk, rfl⟩ := List.mem_take_iff_getElem.mp hj
    apply hkeep
    rw [List.getElem_finRange, Fin.le_def]
    simp only [Fin.val_cast]
    omega

theorem mem_writes_exec (hfew : words.length ≤ 9) (pos : ℕ) :
    pos ∈ (wordsNode words).writes ↔ ∃ word ∈ words, pos = word.stop := by
  simp only [wordsNode, Cmd.writes, List.mem_map]
  constructor
  · rintro ⟨i, hi, rfl⟩
    have hsome := List.all_eq_true.mp List.all_takeWhile i hi
    have hlt : i.val < words.length := by simpa [slots] using hsome
    exact ⟨words[i.val], List.getElem_mem hlt, by simp [slots, hlt]⟩
  · rintro ⟨word, hword, rfl⟩
    obtain ⟨k, hk, rfl⟩ := List.mem_iff_getElem.mp hword
    refine ⟨⟨k, Nat.lt_succ_of_lt (hk.trans_le hfew)⟩,
      mem_takeWhile_finRange fun j hj => ?_, by simp [slots, hk]⟩
    have hlt : j.val < words.length := (Fin.le_def.mp hj).trans_lt hk
    simp [slots, hlt]

theorem Cmd.Spells.writes {cmd : Cmd} (hspells : cmd.Spells toks) {pos : ℕ}
    (hpos : pos ∈ cmd.writes) : ∃ word, .word word ∈ toks ∧ pos = word.stop := by
  induction cmd with
  | exec argv eargv =>
      obtain ⟨words, hfew, rfl, rfl, hwords⟩ := hspells
      obtain ⟨word, hword, rfl⟩ := (mem_writes_exec hfew pos).mp hpos
      exact ⟨word, hwords word hword, rfl⟩
  | redir cmd file efile mode fd ih =>
      rcases List.mem_append.mp hpos with hinner | hown
      · exact ih hspells.1 hinner
      · exact ⟨⟨file, efile⟩, hspells.2, List.mem_singleton.mp hown⟩
  | pipe left right ihLeft ihRight =>
      exact (List.mem_append.mp hpos).elim (ihLeft hspells.1) (ihRight hspells.2)
  | list left right ihLeft ihRight =>
      exact (List.mem_append.mp hpos).elim (ihLeft hspells.1) (ihRight hspells.2)
  | back cmd ih => exact ih hspells hpos

theorem Cmd.Spells.node {cmd node : Cmd} (hspells : cmd.Spells toks)
    (hnode : node ∈ cmd.nodes) :
    node.Spells toks ∧ ∀ pos ∈ node.writes, pos ∈ cmd.writes := by
  induction cmd with
  | exec argv eargv =>
      obtain rfl := List.mem_singleton.mp hnode
      exact ⟨hspells, fun _ => id⟩
  | redir cmd file efile mode fd ih =>
      rcases List.mem_cons.mp hnode with rfl | hnode
      · exact ⟨hspells, fun _ => id⟩
      · obtain ⟨hown, hsub⟩ := ih hspells.1 hnode
        exact ⟨hown, fun pos hpos => List.mem_append_left _ (hsub pos hpos)⟩
  | pipe left right ihLeft ihRight | list left right ihLeft ihRight =>
      rcases List.mem_cons.mp hnode with rfl | hnode
      · exact ⟨hspells, fun _ => id⟩
      rcases List.mem_append.mp hnode with hnode | hnode
      · obtain ⟨hown, hsub⟩ := ihLeft hspells.1 hnode
        exact ⟨hown, fun pos hpos => List.mem_append_left _ (hsub pos hpos)⟩
      · obtain ⟨hown, hsub⟩ := ihRight hspells.2 hnode
        exact ⟨hown, fun pos hpos => List.mem_append_right _ (hsub pos hpos)⟩
  | back cmd ih =>
      rcases List.mem_cons.mp hnode with rfl | hnode
      · exact ⟨hspells, fun _ => id⟩
      · exact ih hspells hnode

end Writes

/-! ## The line behind `parsecmd` -/

/-- The bytes of a slice in the line as it was read. -/
def Line.slice (line : Line) (slice : Slice) : List Byte :=
  (line.text.drop slice.start).take (slice.stop - slice.start)

/-- The C string at `q` is the word of the line that starts there. -/
structure Line.Spelled (line : Line) (text : List Byte) (q eq : ℕ) : Prop where
  token : .word ⟨q, eq⟩ ∈ line.tokens
  ended : 0 ∈ text.drop q
  same : cstring (text.drop q) = line.slice ⟨q, eq⟩
  nonempty : cstring (text.drop q) ≠ []

theorem cstring_eq {word rest : List Byte} (hword : 0 ∉ word) :
    cstring (word ++ 0 :: rest) = word := by
  rw [cstring, List.takeWhile_append_of_pos]
  · simp
  · intro byte hbyte
    simpa using fun hzero : byte = 0 => hword (hzero ▸ hbyte)

theorem eq_append_cons {Item : Type*} {list front : List Item} {item : Item}
    (hfront : ∀ i < front.length, list[i]? = front[i]?)
    (hitem : list[front.length]? = some item) : ∃ rest, list = front ++ item :: rest := by
  obtain ⟨hlt, hget⟩ := List.getElem?_eq_some_iff.mp hitem
  refine ⟨list.drop (front.length + 1), ?_⟩
  have htake : list.take front.length = front := by
    apply List.ext_getElem?
    intro i
    rw [List.getElem?_take]
    split_ifs with hi
    · exact hfront i hi
    · rw [List.getElem?_eq_none (Nat.le_of_not_lt hi)]
  calc list = list.take front.length ++ list.drop front.length :=
        (List.take_append_drop _ _).symm
    _ = front ++ item :: list.drop (front.length + 1) := by
        rw [htake, List.drop_eq_getElem_cons hlt, hget]

section Parsed

variable {line : Line}

/-- No word ends inside a word. -/
theorem stop_not_inside {word other : Slice} (hword : .word word ∈ line.tokens)
    (hother : .word other ∈ line.tokens) (hstart : word.start ≤ other.stop) :
    word.stop ≤ other.stop := by
  by_contra hinside
  obtain ⟨byte, hbyte, hisWord⟩ :=
    (isRun_of_mem_tokens hword).inside hstart (Nat.lt_of_not_le hinside)
  rw [(isRun_of_mem_tokens hother).behind hbyte] at hisWord
  cases hisWord

/-- The bytes of a word are not written, and the byte behind it is. -/
theorem spelled_of_writes {writes : List ℕ} {word : Slice}
    (hwrites : ∀ pos ∈ writes, ∃ other, .word other ∈ line.tokens ∧ pos = other.stop)
    (hword : .word word ∈ line.tokens) (hstop : word.stop ∈ writes) :
    line.Spelled (writes.foldl (fun text pos => text.set pos 0) (line.text ++ [0]))
      word.start word.stop := by
  set text := writes.foldl (fun text pos => text.set pos 0) (line.text ++ [0]) with htext
  obtain ⟨hlt, hle⟩ := (isRun_of_mem_tokens hword).bounds
  have hlength : (line.slice word).length = word.stop - word.start := by
    rw [Line.slice, List.length_take, List.length_drop]
    omega
  have hkept : ∀ i < (line.slice word).length,
      (text.drop word.start)[i]? = (line.slice word)[i]? := by
    intro i hi
    have hfree : word.start + i ∉ writes := by
      intro hmem
      obtain ⟨other, hother, hpos⟩ := hwrites _ hmem
      have hinside := stop_not_inside hword hother (by omega)
      omega
    rw [List.getElem?_drop, htext, getElem?_writes _ _ (by simp; omega), if_neg hfree,
      List.getElem?_append_left (by omega), Line.slice, List.getElem?_take_of_lt (by omega),
      List.getElem?_drop]
  have hend : (text.drop word.start)[(line.slice word).length]? = some 0 := by
    rw [List.getElem?_drop, hlength, Nat.add_sub_cancel' hlt.le, htext,
      getElem?_writes _ _ (by simp; omega), if_pos hstop]
  have hnoNul : 0 ∉ line.slice word := fun hzero =>
    line.noNul (List.mem_of_mem_drop (List.mem_of_mem_take hzero))
  obtain ⟨rest, hrest⟩ := eq_append_cons hkept hend
  refine ⟨hword, ?_, ?_, ?_⟩
  · rw [hrest]
    exact List.mem_append_right _ List.mem_cons_self
  · rw [hrest, cstring_eq hnoNul]
  · rw [hrest, cstring_eq hnoNul]
    exact List.ne_nil_of_length_pos (by omega)

/-- The file of a redirection is a word of the line. -/
theorem Line.Derives.spelled_file {phrase : Deriv .line} (hderives : line.Derives phrase)
    {cmd : Cmd} {file efile mode fd : ℕ}
    (hnode : .redir cmd file efile mode fd ∈ phrase.tree.nodes) :
    line.Spelled (phrase.tree.nulterminate (line.text ++ [0])) file efile := by
  have hspells := spells_tree phrase hderives.fewWords
  rw [hderives.yield] at hspells
  obtain ⟨hown, hsub⟩ := hspells.node hnode
  have hstop := hsub efile (List.mem_append_right _ List.mem_cons_self)
  rw [nulterminate_eq]
  exact spelled_of_writes (fun _ => hspells.writes) hown.2 hstop

end Parsed

/-- On a line on which `parsecmd` returns, `nulterminate` has written into the
line or onto its NUL only, the arguments of every command end with a null
pointer, and every argument and every file is, as a C string, a word of the
line. -/
theorem nulterminate_spells_words (line : Line) (fuel : ℕ) (tree : Cmd) (text : List Byte)
    (hrun : parsecmd fuel line = .ok (tree, text)) :
    text = tree.writes.foldl (fun text pos => text.set pos 0) (line.text ++ [0]) ∧
    (∀ pos ∈ tree.writes, pos ≤ line.es) ∧
    (∀ argv eargv, .exec argv eargv ∈ tree.nodes →
      (∃ argc, argv argc = none ∧ ∀ i < argc, argv i ≠ none) ∧
      ∀ i q, argv i = some q → ∃ eq, eargv i = some eq ∧ line.Spelled text q eq) ∧
    ∀ cmd file efile mode fd, .redir cmd file efile mode fd ∈ tree.nodes →
      line.Spelled text file efile := by
  obtain ⟨phrase, hderives, rfl, rfl⟩ := derives_of_parsecmd hrun
  have hspells := spells_tree phrase hderives.fewWords
  rw [hderives.yield] at hspells
  have hwrites : ∀ pos ∈ phrase.tree.writes,
      ∃ word, .word word ∈ line.tokens ∧ pos = word.stop := fun pos => hspells.writes
  refine ⟨nulterminate_eq _ _, ?_, ?_, ?_⟩
  · intro pos hpos
    obtain ⟨word, hword, rfl⟩ := hwrites pos hpos
    exact (isRun_of_mem_tokens hword).bounds.2
  · intro argv eargv hnode
    obtain ⟨⟨words, hfew, rfl, rfl, hwords⟩, hsub⟩ := hspells.node hnode
    refine ⟨⟨⟨words.length, Nat.lt_succ_of_le hfew⟩, ?_, fun i hi => ?_⟩, fun i q hq => ?_⟩
    · simp [slots]
    · have hlt : i.val < words.length := hi
      simp [slots, hlt]
    · rw [nulterminate_eq]
      obtain ⟨word, hword, rfl⟩ : ∃ word, words[i.val]? = some word ∧ word.start = q := by
        simpa [slots] using hq
      have hmem := List.mem_of_getElem? hword
      refine ⟨word.stop, by simp [slots, hword], ?_⟩
      exact spelled_of_writes hwrites (hwords word hmem)
        (hsub _ ((mem_writes_exec hfew _).mpr ⟨word, hmem, rfl⟩))
  · exact fun cmd file efile mode fd hnode => hderives.spelled_file hnode

/-- Words without a space between them. -/
def abuttedLine : Line where
  text := bytes "a>b|c"
  noNul := by decide

/-- The derivation of `abuttedLine`. -/
def abuttedPhrase : Deriv .line :=
  .lineEnd (.pipeMore (.simple [] [(⟨0, 1⟩, [⟨.output, ⟨2, 3⟩⟩])])
    (.pipeEnd (.simple [] [(⟨4, 5⟩, [])]))) 0

theorem nulterminate_spells_words_abutted :
    parsecmd 24 abuttedLine = .ok (abuttedPhrase.tree, bytes "a\x00b\x00c\x00") ∧
      ∃ cmd, .redir cmd 2 3 577 1 ∈ abuttedPhrase.tree.nodes ∧
        abuttedLine.Spelled (bytes "a\x00b\x00c\x00") 2 3 := by
  have hderives : abuttedLine.Derives abuttedPhrase :=
    ⟨by decide, by simp [abuttedPhrase, Deriv.FewWords], by decide⟩
  have hrun : parsecmd 24 abuttedLine =
      .ok (abuttedPhrase.tree, bytes "a\x00b\x00c\x00") :=
    (parsecmd_of_derives (by decide) hderives).trans (by rfl)
  have hnode : .redir (wordsNode [⟨0, 1⟩]) 2 3 577 1 ∈ abuttedPhrase.tree.nodes :=
    List.mem_cons_of_mem _ List.mem_cons_self
  exact ⟨hrun, _, hnode, (nulterminate_spells_words abuttedLine 24 abuttedPhrase.tree _
    hrun).2.2.2 _ 2 3 577 1 hnode⟩

end JyyOS.Shell
