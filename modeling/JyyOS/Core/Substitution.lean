import Mathlib.Data.List.Nodup
import Mathlib.Tactic

/-!
# Replacing one text after another

A text is rewritten with a table, one entry after the other, each entry replacing all
its occurrences.  When the patterns are single letters and nothing that is put in is
taken up by another entry, the order of the entries does not matter: the table is
applied to every letter once.
-/

namespace JyyOS.Substitution

/-! ## Tables -/

section Table

variable {Key Value : Type*} [BEq Key] [LawfulBEq Key]

theorem lookup_of_mem {table : List (Key × Value)} (hkeys : (table.map Prod.fst).Nodup)
    {key : Key} {value : Value} (hmem : (key, value) ∈ table) :
    table.lookup key = some value := by
  induction table with
  | nil => cases hmem
  | cons entry rest ih =>
      obtain ⟨key', value'⟩ := entry
      rw [List.map_cons, List.nodup_cons] at hkeys
      rw [List.lookup_cons]
      rcases List.mem_cons.mp hmem with heq | hlater
      · cases heq
        simp
      · have hne : key ≠ key' := by
          rintro rfl
          exact hkeys.1 (List.mem_map.mpr ⟨_, hlater, rfl⟩)
        rw [beq_false_of_ne hne]
        exact ih hkeys.2 hlater

theorem lookup_eq_some_iff {table : List (Key × Value)} (hkeys : (table.map Prod.fst).Nodup)
    {key : Key} {value : Value} : table.lookup key = some value ↔ (key, value) ∈ table := by
  refine ⟨fun hlookup => ?_, lookup_of_mem hkeys⟩
  obtain ⟨before, behind, rfl, -⟩ := List.lookup_eq_some_iff.mp hlookup
  simp

end Table

variable {α : Type*} [DecidableEq α]

/-! ## Replacing one pattern -/

/-- Replace from the left what begins with `pattern`, once the next `skip` letters are
passed over. -/
def replaceFrom (pattern replacement : List α) : ℕ → List α → List α
  | _, [] => []
  | skip + 1, _ :: text => replaceFrom pattern replacement skip text
  | 0, letter :: text =>
      if pattern.isPrefixOf (letter :: text) then
        replacement ++ replaceFrom pattern replacement (pattern.length - 1) text
      else letter :: replaceFrom pattern replacement 0 text

def replace (pattern replacement text : List α) : List α :=
  replaceFrom pattern replacement 0 text

theorem replaceFrom_append (pattern replacement passed text : List α) :
    replaceFrom pattern replacement passed.length (passed ++ text) =
      replaceFrom pattern replacement 0 text := by
  induction passed with
  | nil => rfl
  | cons letter passed ih => exact ih

theorem replace_of_notMem {first : α} (rest replacement : List α) {text : List α}
    (hfirst : first ∉ text) : replace (first :: rest) replacement text = text := by
  rw [replace]
  induction text with
  | nil => rfl
  | cons letter text ih =>
      obtain ⟨hne, htext⟩ : first ≠ letter ∧ first ∉ text := by simpa using hfirst
      rw [replaceFrom, if_neg (by simp [hne]), ih htext]

theorem replace_singleton (letter : α) (replacement text : List α) :
    replace [letter] replacement text =
      text.flatMap fun c => if c = letter then replacement else [c] := by
  rw [replace]
  induction text with
  | nil => rfl
  | cons c text ih =>
      by_cases hc : c = letter
      · subst hc
        simp [replaceFrom, ih]
      · simp [replaceFrom, ih, hc, Ne.symm hc]

/-- Replacing a pattern by itself changes nothing. -/
theorem replace_self {pattern : List α} (hpattern : pattern ≠ []) (text : List α) :
    replace pattern pattern text = text := by
  have hskip : ∀ skip, replaceFrom pattern pattern skip text = text.drop skip := by
    induction text with
    | nil => simp [replaceFrom]
    | cons letter text ih =>
        rintro (_ | skip)
        · rw [replaceFrom]
          split
          case isTrue hmatch =>
            obtain ⟨rest, hrest⟩ := List.isPrefixOf_iff_prefix.mp hmatch
            obtain ⟨first, tail, rfl⟩ := List.exists_cons_of_ne_nil hpattern
            cases hrest
            rw [ih]
            simp
          case isFalse =>
            rw [ih]
            rfl
        · exact ih skip
  exact hskip 0

theorem isPrefixOf_map {f : α → α} {pattern : List α} (hfix : ∀ letter ∈ pattern, f letter = letter)
    (hback : ∀ letter, f letter ∈ pattern → f letter = letter) (text : List α) :
    pattern.isPrefixOf (text.map f) = pattern.isPrefixOf text := by
  induction pattern generalizing text with
  | nil => simp
  | cons first rest ih =>
      cases text with
      | nil => rfl
      | cons letter text =>
          have hletter : (first == f letter) = (first == letter) := by
            rw [Bool.eq_iff_iff, beq_iff_eq, beq_iff_eq]
            constructor
            · intro hsame
              have hfixed := hback letter (hsame ▸ List.mem_cons_self)
              rw [hsame, hfixed]
            · rintro rfl
              exact (hfix _ List.mem_cons_self).symm
          have htail := ih (fun c hc => hfix c (List.mem_cons_of_mem _ hc))
            (fun c hc => hback c (List.mem_cons_of_mem _ hc)) text
          rw [List.map_cons, List.isPrefixOf_cons_cons, List.isPrefixOf_cons_cons, hletter, htail]

/-- Renaming letters that are not in the pattern can be done afterwards. -/
theorem replace_map {f : α → α} {pattern replacement : List α}
    (hfix : ∀ letter ∈ pattern, f letter = letter)
    (hback : ∀ letter, f letter ∈ pattern → f letter = letter)
    (hreplacement : replacement.map f = replacement) (text : List α) :
    replace pattern replacement (text.map f) = (replace pattern replacement text).map f := by
  have hskip : ∀ skip, replaceFrom pattern replacement skip (text.map f) =
      (replaceFrom pattern replacement skip text).map f := by
    induction text with
    | nil => simp [replaceFrom]
    | cons letter text ih =>
        rintro (_ | skip)
        · have hmatch := isPrefixOf_map hfix hback (letter :: text)
          rw [List.map_cons] at hmatch ⊢
          rw [replaceFrom, replaceFrom, hmatch]
          split
          · rw [List.map_append, hreplacement, ih]
          · rw [List.map_cons, ih]
        · exact ih skip
  exact hskip 0

/-- The pattern is found again where it was put in for a letter, when its first letter is
nowhere else. -/
theorem replace_flatMap {first : α} (rest : List α) {letter : α} {f : α → α} {text : List α}
    (hfirst : ∀ c ∈ text, c ≠ letter → f c ≠ first) :
    replace (first :: rest) [letter]
        (text.flatMap fun c => if c = letter then first :: rest else [f c]) =
      text.map fun c => if c = letter then letter else f c := by
  rw [replace]
  induction text with
  | nil => rfl
  | cons c text ih =>
      have htext := ih fun c' hc' => hfirst c' (List.mem_cons_of_mem _ hc')
      rw [List.flatMap_cons, List.map_cons]
      by_cases hc : c = letter
      · rw [if_pos hc, if_pos hc, List.cons_append, replaceFrom, if_pos (by simp)]
        have hpassed := replaceFrom_append (first :: rest) [letter] rest
          (text.flatMap fun c => if c = letter then first :: rest else [f c])
        rw [List.length_cons, Nat.add_sub_cancel, hpassed, htext]
        rfl
      · have hne := hfirst c List.mem_cons_self hc
        rw [if_neg hc, if_neg hc, List.singleton_append, replaceFrom,
          if_neg (by simp [Ne.symm hne]), htext]

/-! ## A table of replacements -/

def replaceAll (table : List (List α × List α)) (text : List α) : List α :=
  table.foldl (fun text entry => replace entry.1 entry.2 text) text

/-- What the table has for one letter. -/
def substitute (table : List (List α × List α)) (letter : α) : List α :=
  (table.lookup [letter]).getD [letter]

/-- The patterns are single letters, or are replaced by themselves; and no entry takes up
what another one has put in. -/
structure Separate (table : List (List α × List α)) : Prop where
  patterns_nodup : (table.map Prod.fst).Nodup
  shape : ∀ entry ∈ table, (∃ letter, entry.1 = [letter]) ∨ (entry.1 = entry.2 ∧ entry.1 ≠ [])
  apart : ∀ entry ∈ table, (∃ letter, entry.1 = [letter]) → ∀ letter ∈ entry.2,
    ∀ entry' ∈ table, entry'.1 = [letter] → entry' = entry

omit [DecidableEq α] in
theorem Separate.perm {table table' : List (List α × List α)} (hseparate : Separate table)
    (hperm : table.Perm table') : Separate table' where
  patterns_nodup := (hperm.map Prod.fst).nodup_iff.mp hseparate.patterns_nodup
  shape entry hentry := hseparate.shape entry (hperm.mem_iff.mpr hentry)
  apart entry hentry hsingle letter hletter entry' hentry' :=
    hseparate.apart entry (hperm.mem_iff.mpr hentry) hsingle letter hletter entry'
      (hperm.mem_iff.mpr hentry')

omit [DecidableEq α] in
theorem Separate.sublist {table table' : List (List α × List α)} (hseparate : Separate table)
    (hsub : table'.Sublist table) : Separate table' where
  patterns_nodup := hseparate.patterns_nodup.sublist (hsub.map Prod.fst)
  shape entry hentry := hseparate.shape entry (hsub.subset hentry)
  apart entry hentry hsingle letter hletter entry' hentry' :=
    hseparate.apart entry (hsub.subset hentry) hsingle letter hletter entry' (hsub.subset hentry')

/-- One entry after the other is all entries at once. -/
theorem Separate.replaceAll_eq {table : List (List α × List α)} (hseparate : Separate table)
    (text : List α) : replaceAll table text = text.flatMap (substitute table) := by
  induction table generalizing text with
  | nil =>
      have hnone : substitute ([] : List (List α × List α)) = fun c => [c] := rfl
      simp [replaceAll, hnone]
  | cons entry rest ih =>
      have hrest := ih (hseparate.sublist (List.sublist_cons_self _ _))
      have hnodup := hseparate.patterns_nodup
      rw [List.map_cons, List.nodup_cons] at hnodup
      rw [replaceAll, List.foldl_cons, ← replaceAll, hrest]
      rcases hseparate.shape entry List.mem_cons_self with ⟨letter, hletter⟩ | ⟨hsame, hne⟩
      · rw [hletter, replace_singleton, List.flatMap_assoc]
        refine List.flatMap_congr fun c _ => ?_
        rw [substitute, List.lookup_cons, hletter]
        by_cases hc : c = letter
        · subst hc
          -- What this entry puts in is left alone by the others.
          have hkept : ∀ c' ∈ entry.2, substitute rest c' = [c'] := by
            intro c' hc'
            have hnone : rest.lookup [c'] = none := by
              rw [List.lookup_eq_none_iff]
              intro entry' hentry'
              rw [bne_iff_ne]
              intro hpattern
              have hsame := hseparate.apart entry List.mem_cons_self ⟨c, hletter⟩ c' hc' entry'
                (List.mem_cons_of_mem _ hentry') hpattern.symm
              exact hnodup.1 (hsame ▸ List.mem_map_of_mem hentry')
            rw [substitute, hnone]
            rfl
          rw [if_pos rfl, List.flatMap_congr hkept]
          simp
        · have hne : ([c] == [letter]) = false := beq_false_of_ne (by simpa using hc)
          rw [if_neg hc, hne, List.flatMap_singleton, substitute]
      · rw [← hsame, replace_self hne]
        refine List.flatMap_congr fun c _ => ?_
        rw [substitute, substitute, List.lookup_cons]
        by_cases hc : [c] = entry.1
        · have hnone : rest.lookup [c] = none := by
            rw [List.lookup_eq_none_iff]
            intro entry' hentry'
            rw [bne_iff_ne]
            intro hpattern
            exact hnodup.1 (hc ▸ hpattern ▸ List.mem_map_of_mem hentry')
          rw [hnone, ← hsame, hc, beq_self_eq_true]
          rfl
        · rw [beq_false_of_ne hc]

/-- The order of the entries does not matter. -/
theorem Separate.substitute_perm {table table' : List (List α × List α)}
    (hseparate : Separate table) (hperm : table.Perm table') (letter : α) :
    substitute table' letter = substitute table letter := by
  have hsame : table'.lookup [letter] = table.lookup [letter] := by
    refine Option.ext fun value => ?_
    rw [lookup_eq_some_iff (hseparate.perm hperm).patterns_nodup,
      lookup_eq_some_iff hseparate.patterns_nodup, hperm.mem_iff]
  rw [substitute, substitute, hsame]

end JyyOS.Substitution
