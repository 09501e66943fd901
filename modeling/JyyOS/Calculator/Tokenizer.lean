import JyyOS.Core.Substitution
import Mathlib.Data.Bool.AllAny

/-!
# The two spellings of an expression (`CalculatorExpressionTokenizer.java`)

What the user sees is spelled with the symbols of a locale, what is evaluated with the
symbols that the evaluator knows.  `getNormalizedExpression` and
`getLocalizedExpression` go through a `HashMap` of replacements one after the other, in
whatever order the map has.
-/

namespace JyyOS.Calculator2

open JyyOS.Substitution (replace replaceAll substitute Separate)

abbrev Text := List Char

/-- What the tokenizer asks its `Context` for. -/
structure Locale where
  decimalSeparator : Char
  zeroDigit : Char
  fun_cos : Text
  fun_ln : Text
  fun_log : Text
  fun_sin : Text
  fun_tan : Text

namespace Locale

def op_div : Char := '÷'
def op_mul : Char := '×'
def op_sub : Char := '−'
def inf : Char := '∞'

/-- `(char) (i + zeroDigit)` -/
def digit (locale : Locale) (i : ℕ) : Char := Char.ofNat (i + locale.zeroDigit.toNat)

/-- The entries for single characters. -/
def symbols (locale : Locale) : List (Char × Char) :=
  [('.', locale.decimalSeparator), ('0', locale.digit 0), ('1', locale.digit 1),
    ('2', locale.digit 2), ('3', locale.digit 3), ('4', locale.digit 4), ('5', locale.digit 5),
    ('6', locale.digit 6), ('7', locale.digit 7), ('8', locale.digit 8), ('9', locale.digit 9),
    ('/', op_div), ('*', op_mul), ('-', op_sub)]

def functions (locale : Locale) : List (Text × Text) :=
  [("cos".toList, locale.fun_cos), ("ln".toList, locale.fun_ln), ("log".toList, locale.fun_log),
    ("sin".toList, locale.fun_sin), ("tan".toList, locale.fun_tan)]

def infinity : Text := "Infinity".toList

/-- `mReplacementMap` -/
def replacementMap (locale : Locale) : List (Text × Text) :=
  (locale.symbols.map fun entry => ([entry.1], [entry.2])) ++ locale.functions ++
    [(infinity, [inf])]

end Locale

/-- `getNormalizedExpression`, with `entrySet` in the order of the iteration. -/
def getNormalizedExpression (entrySet : List (Text × Text)) (expr : Text) : Text :=
  entrySet.foldl (fun expr entry => replace entry.2 entry.1 expr) expr

def getLocalizedExpression (entrySet : List (Text × Text)) (expr : Text) : Text :=
  entrySet.foldl (fun expr entry => replace entry.1 entry.2 expr) expr

/-! ## Locales that keep the names of the functions -/

/-- What no symbol of a locale may look like: what has a meaning of its own in an
expression. -/
def reserved : Text := "Infinity∞cosloginsintan+()!^√πeE".toList

/-- The functions have their own names, and the symbols are different from each other,
from all that is left as it is and from the normal symbols of others. -/
structure Locale.Plain (locale : Locale) : Prop where
  functions : locale.functions = ["cos", "ln", "log", "sin", "tan"].map fun name =>
    (name.toList, name.toList)
  nodup : (locale.symbols.map Prod.snd).Nodup
  apart : ∀ entry ∈ locale.symbols, ∀ entry' ∈ locale.symbols, entry.1 = entry'.2 → entry' = entry
  unreserved : ∀ entry ∈ locale.symbols, entry.2 ∉ reserved

namespace Locale

/-- The normal symbol for a local one. -/
def sym (locale : Locale) (c : Char) : Char :=
  ((locale.symbols.map Prod.swap).lookup c).getD c

/-- The local symbol for a normal one. -/
def loc (locale : Locale) (c : Char) : Char := (locale.symbols.lookup c).getD c

/-- One character of a normalized expression. -/
def norm (locale : Locale) (c : Char) : Text := if c = inf then infinity else [locale.sym c]

theorem map_fst_symbols (locale : Locale) : locale.symbols.map Prod.fst =
    ['.', '0', '1', '2', '3', '4', '5', '6', '7', '8', '9', '/', '*', '-'] := rfl

theorem keys_nodup (locale : Locale) : (locale.symbols.map Prod.fst).Nodup := by
  rw [map_fst_symbols]
  decide

theorem inf_notKey (locale : Locale) : inf ∉ locale.symbols.map Prod.fst := by
  rw [map_fst_symbols]
  decide

theorem lookup_singletons (table : List (Char × Char)) (c : Char) :
    (table.map fun entry => ([entry.1], [entry.2])).lookup [c] = (table.lookup c).map ([·]) := by
  induction table with
  | nil => rfl
  | cons entry rest ih =>
      have hsame : ([c] == [entry.1]) = (c == entry.1) := by simp
      rw [List.map_cons, List.lookup_cons, List.lookup_cons, hsame, ih]
      cases c == entry.1 <;> rfl

section Plain

variable {locale : Locale} (hplain : locale.Plain)

include hplain

theorem Plain.lookup_functions (c : Char) : locale.functions.lookup [c] = none := by
  rw [hplain.functions, List.lookup_eq_none_iff]
  intro entry hentry
  fin_cases hentry <;> simp

theorem Plain.swap_functions : locale.functions.map Prod.swap = locale.functions := by
  rw [hplain.functions]
  rfl

/-- The table of `getNormalizedExpression`. -/
theorem Plain.normal_table : locale.replacementMap.map Prod.swap =
    ((locale.symbols.map Prod.swap).map fun entry => ([entry.1], [entry.2])) ++
      locale.functions ++ [([inf], infinity)] := by
  rw [replacementMap, List.map_append, List.map_append, hplain.swap_functions, List.map_map,
    List.map_map]
  rfl

theorem Plain.inf_notMem : inf ∉ locale.symbols.map Prod.snd := by
  intro hmem
  obtain ⟨entry, hentry, hinf⟩ := List.mem_map.mp hmem
  exact hplain.unreserved entry hentry (by rw [hinf]; decide)

theorem Plain.lookup_inf : (locale.symbols.map Prod.swap).lookup inf = none := by
  rw [List.lookup_eq_none_iff]
  intro entry hentry
  obtain ⟨symbol, hsymbol, rfl⟩ := List.mem_map.mp hentry
  rw [bne_iff_ne]
  exact fun hinf => hplain.inf_notMem (List.mem_map.mpr ⟨symbol, hsymbol, hinf.symm⟩)

theorem Plain.substitute_normal (c : Char) :
    substitute (locale.replacementMap.map Prod.swap) c = locale.norm c := by
  rw [substitute, hplain.normal_table, List.lookup_append, List.lookup_append, lookup_singletons,
    hplain.lookup_functions, Option.or_none, norm, sym]
  by_cases hc : c = inf
  · rw [hc, hplain.lookup_inf]
    rfl
  · have hlast : [([inf], infinity)].lookup [c] = none := by
      have hne : ([c] == [inf]) = false := beq_false_of_ne (by simpa using hc)
      rw [List.lookup_cons, hne]
      rfl
    rw [hlast, Option.or_none, if_neg hc]
    cases (locale.symbols.map Prod.swap).lookup c <;> rfl

theorem Plain.substitute_local (c : Char) :
    substitute ((locale.symbols.map fun entry => ([entry.1], [entry.2])) ++ locale.functions) c =
      [locale.loc c] := by
  rw [substitute, List.lookup_append, lookup_singletons, hplain.lookup_functions, Option.or_none,
    loc]
  cases locale.symbols.lookup c <;> rfl

theorem Plain.functions_nodup : (locale.functions.map Prod.fst).Nodup := by
  rw [hplain.functions]
  decide

/-- The names of the functions are no single characters. -/
theorem Plain.functions_ne {entry : Text × Text} (hentry : entry ∈ locale.functions) (c : Char) :
    entry.1 ≠ [c] ∧ entry.1 = entry.2 ∧ entry.1 ≠ [] := by
  rw [hplain.functions] at hentry
  fin_cases hentry <;> simp

theorem Plain.singletons_disjoint (table : List (Char × Char)) :
    List.Disjoint ((table.map fun entry => (([entry.1], [entry.2]) : Text × Text)).map Prod.fst)
      (locale.functions.map Prod.fst) := by
  intro pattern hsingle hfunction
  rw [List.map_map] at hsingle
  obtain ⟨entry, -, rfl⟩ := List.mem_map.mp hsingle
  obtain ⟨entry', hentry', hsame⟩ := List.mem_map.mp hfunction
  exact (hplain.functions_ne hentry' entry.1).1 hsame

omit hplain in
theorem singletons_nodup {table : List (Char × Char)} (hnodup : (table.map Prod.fst).Nodup) :
    ((table.map fun entry => (([entry.1], [entry.2]) : Text × Text)).map Prod.fst).Nodup := by
  have hmap : (table.map fun entry => (([entry.1], [entry.2]) : Text × Text)).map Prod.fst =
      (table.map Prod.fst).map ([·]) := by
    simp
  rw [hmap]
  exact hnodup.map fun left right hsame => by simpa using hsame

theorem Plain.separate_local : Separate
    ((locale.symbols.map fun entry => ([entry.1], [entry.2])) ++ locale.functions) where
  patterns_nodup := by
    rw [List.map_append]
    exact (singletons_nodup locale.keys_nodup).append hplain.functions_nodup
      (hplain.singletons_disjoint _)
  shape entry hentry := by
    rcases List.mem_append.mp hentry with hsymbol | hfunction
    · obtain ⟨symbol, -, rfl⟩ := List.mem_map.mp hsymbol
      exact .inl ⟨symbol.1, rfl⟩
    · exact .inr (hplain.functions_ne hfunction ' ').2
  apart entry hentry := by
    rintro ⟨letter, hletter⟩ c hc entry' hentry' hpattern
    rcases List.mem_append.mp hentry with hsymbol | hfunction
    · rcases List.mem_append.mp hentry' with hsymbol' | hfunction'
      · obtain ⟨symbol, hmem, rfl⟩ := List.mem_map.mp hsymbol
        obtain ⟨symbol', hmem', rfl⟩ := List.mem_map.mp hsymbol'
        obtain rfl : c = symbol.2 := List.mem_singleton.mp hc
        have hkey : symbol'.1 = symbol.2 := by simpa using hpattern
        rw [hplain.apart symbol' hmem' symbol hmem hkey]
      · exact absurd hpattern (hplain.functions_ne hfunction' c).1
    · exact absurd hletter (hplain.functions_ne hfunction letter).1

theorem Plain.separate_normal : Separate (locale.replacementMap.map Prod.swap) := by
  have hvalues : ∀ symbol ∈ locale.symbols.map Prod.swap, symbol.1 ∉ reserved := by
    intro symbol hsymbol
    obtain ⟨entry, hentry, rfl⟩ := List.mem_map.mp hsymbol
    exact hplain.unreserved entry hentry
  have hkeys : ∀ symbol ∈ locale.symbols.map Prod.swap, symbol.2 ≠ inf := by
    intro symbol hsymbol
    obtain ⟨entry, hentry, rfl⟩ := List.mem_map.mp hsymbol
    have hkey : entry.1 ∈ locale.symbols.map Prod.fst := List.mem_map_of_mem hentry
    intro hinf
    rw [Prod.snd_swap] at hinf
    rw [hinf] at hkey
    exact locale.inf_notKey hkey
  rw [hplain.normal_table]
  refine ⟨?_, ?_, ?_⟩
  · have hnodup : ((locale.symbols.map Prod.swap).map Prod.fst).Nodup := by
      rw [List.map_map]
      exact hplain.nodup
    rw [List.map_append, List.map_append]
    refine ((singletons_nodup hnodup).append hplain.functions_nodup
      (hplain.singletons_disjoint _)).append (List.nodup_singleton _) ?_
    intro pattern hmem hlast
    obtain rfl : pattern = [inf] := List.mem_singleton.mp hlast
    rcases List.mem_append.mp hmem with hsymbol | hfunction
    · rw [List.map_map] at hsymbol
      obtain ⟨symbol, hsymbol, hsame⟩ := List.mem_map.mp hsymbol
      have hinf : symbol.1 = inf := by simpa using hsame
      exact hvalues symbol hsymbol (by rw [hinf]; decide)
    · obtain ⟨entry, hentry, hsame⟩ := List.mem_map.mp hfunction
      exact (hplain.functions_ne hentry inf).1 hsame
  · intro entry hentry
    rcases List.mem_append.mp hentry with hrest | hlast
    · rcases List.mem_append.mp hrest with hsymbol | hfunction
      · obtain ⟨symbol, -, rfl⟩ := List.mem_map.mp hsymbol
        exact .inl ⟨symbol.1, rfl⟩
      · exact .inr (hplain.functions_ne hfunction ' ').2
    · rw [List.mem_singleton.mp hlast]
      exact .inl ⟨inf, rfl⟩
  · rintro entry hentry ⟨letter, hletter⟩ c hc entry' hentry' hpattern
    -- An entry for one letter is an entry for a symbol or for infinity.
    have hcases : ∀ entry : Text × Text, ∀ letter, entry.1 = [letter] →
        entry ∈ ((locale.symbols.map Prod.swap).map fun entry => ([entry.1], [entry.2])) ++
          locale.functions ++ [([inf], infinity)] →
        (∃ symbol ∈ locale.symbols, entry = ([symbol.2], [symbol.1])) ∨
          entry = ([inf], infinity) := by
      intro entry letter hletter hentry
      rcases List.mem_append.mp hentry with hrest | hlast
      · rcases List.mem_append.mp hrest with hsymbol | hfunction
        · rw [List.map_map] at hsymbol
          obtain ⟨symbol, hmem, rfl⟩ := List.mem_map.mp hsymbol
          exact .inl ⟨symbol, hmem, rfl⟩
        · exact absurd hletter (hplain.functions_ne hfunction letter).1
      · exact .inr (List.mem_singleton.mp hlast)
    rcases hcases entry letter hletter hentry with ⟨symbol, hsymbol, rfl⟩ | rfl
    · obtain rfl : c = symbol.1 := List.mem_singleton.mp hc
      rcases hcases entry' _ hpattern hentry' with ⟨symbol', hsymbol', rfl⟩ | rfl
      · have hvalue : symbol.1 = symbol'.2 := by simpa using hpattern.symm
        rw [hplain.apart symbol hsymbol symbol' hsymbol' hvalue]
      · have hinf : symbol.1 = inf := by simpa using hpattern.symm
        exact absurd hinf (hkeys (symbol.2, symbol.1) (List.mem_map.mpr ⟨symbol, hsymbol, rfl⟩))
    · rcases hcases entry' _ hpattern hentry' with ⟨symbol', hsymbol', rfl⟩ | rfl
      · have hvalue : symbol'.2 = c := by simpa using hpattern
        refine absurd ?_ (hplain.unreserved symbol' hsymbol')
        rw [hvalue]
        exact List.mem_append_left _ hc
      · rfl

omit hplain in
theorem loc_of_mem {entry : Char × Char} (hentry : entry ∈ locale.symbols) :
    locale.loc entry.1 = entry.2 := by
  rw [loc, Substitution.lookup_of_mem locale.keys_nodup hentry]
  rfl

theorem Plain.sym_of_mem {entry : Char × Char} (hentry : entry ∈ locale.symbols) :
    locale.sym entry.2 = entry.1 := by
  have hnodup : ((locale.symbols.map Prod.swap).map Prod.fst).Nodup := by
    rw [List.map_map]
    exact hplain.nodup
  rw [sym, Substitution.lookup_of_mem hnodup (List.mem_map.mpr ⟨entry, hentry, rfl⟩)]
  rfl

omit hplain in
theorem loc_of_notMem {c : Char} (hc : c ∉ locale.symbols.map Prod.fst) : locale.loc c = c := by
  have hnone : locale.symbols.lookup c = none := by
    rw [List.lookup_eq_none_iff]
    intro entry hentry
    rw [bne_iff_ne]
    rintro rfl
    exact hc (List.mem_map_of_mem hentry)
  rw [loc, hnone]
  rfl

omit hplain in
theorem sym_of_notMem {c : Char} (hc : c ∉ locale.symbols.map Prod.snd) : locale.sym c = c := by
  have hnone : (locale.symbols.map Prod.swap).lookup c = none := by
    rw [List.lookup_eq_none_iff]
    intro entry hentry
    obtain ⟨symbol, hsymbol, rfl⟩ := List.mem_map.mp hentry
    rw [bne_iff_ne]
    rintro rfl
    exact hc (List.mem_map_of_mem hsymbol)
  rw [sym, hnone]
  rfl

theorem Plain.notMem_of_reserved {c : Char} (hc : c ∈ reserved) :
    c ∉ locale.symbols.map Prod.snd := by
  intro hmem
  obtain ⟨entry, hentry, rfl⟩ := List.mem_map.mp hmem
  exact hplain.unreserved entry hentry hc

end Plain

/-- A character as it stands in an expression of the locale. -/
structure Written (locale : Locale) (c : Char) : Prop where
  ne : c ≠ 'I'
  local_of_key : c ∈ locale.symbols.map Prod.fst → c ∈ locale.symbols.map Prod.snd

section Written

variable {locale : Locale} (hplain : locale.Plain)

include hplain

theorem Plain.loc_sym {c : Char} (hwritten : locale.Written c) : locale.loc (locale.sym c) = c := by
  by_cases hvalue : c ∈ locale.symbols.map Prod.snd
  · obtain ⟨entry, hentry, rfl⟩ := List.mem_map.mp hvalue
    rw [hplain.sym_of_mem hentry, loc_of_mem hentry]
  · rw [sym_of_notMem hvalue, loc_of_notMem fun hkey => hvalue (hwritten.local_of_key hkey)]

theorem Plain.sym_ne {c : Char} (hwritten : locale.Written c) : locale.sym c ≠ 'I' := by
  by_cases hvalue : c ∈ locale.symbols.map Prod.snd
  · obtain ⟨entry, hentry, rfl⟩ := List.mem_map.mp hvalue
    rw [hplain.sym_of_mem hentry]
    intro hI
    have hkey : entry.1 ∈ locale.symbols.map Prod.fst := List.mem_map_of_mem hentry
    rw [hI, map_fst_symbols] at hkey
    exact absurd hkey (by decide)
  · rw [sym_of_notMem hvalue]
    exact hwritten.ne

/-- The local symbols and infinity are written, and so is what has no symbol. -/
theorem Plain.written_loc {c : Char} (hc : c ≠ 'I') : locale.Written (locale.loc c) := by
  have hvalues : ∀ entry ∈ locale.symbols, entry.2 ≠ 'I' := fun entry hentry hI =>
    hplain.unreserved entry hentry (by rw [hI]; decide)
  by_cases hkey : c ∈ locale.symbols.map Prod.fst
  · obtain ⟨entry, hentry, rfl⟩ := List.mem_map.mp hkey
    rw [loc_of_mem hentry]
    exact ⟨hvalues entry hentry, fun _ => List.mem_map_of_mem hentry⟩
  · rw [loc_of_notMem hkey]
    exact ⟨hc, fun hmem => absurd hmem hkey⟩

theorem Plain.loc_ne_inf {c : Char} (hc : c ≠ inf) : locale.loc c ≠ inf := by
  by_cases hkey : c ∈ locale.symbols.map Prod.fst
  · obtain ⟨entry, hentry, rfl⟩ := List.mem_map.mp hkey
    rw [loc_of_mem hentry]
    exact fun hinf => hplain.inf_notMem (List.mem_map.mpr ⟨entry, hentry, hinf⟩)
  · rwa [loc_of_notMem hkey]

omit hplain in
theorem written_inf (locale : Locale) : locale.Written inf :=
  ⟨by decide, fun hkey => absurd hkey locale.inf_notKey⟩

theorem Plain.sym_loc {c : Char}
    (hnormal : c ∈ locale.symbols.map Prod.snd → c ∈ locale.symbols.map Prod.fst) :
    locale.sym (locale.loc c) = c := by
  by_cases hkey : c ∈ locale.symbols.map Prod.fst
  · obtain ⟨entry, hentry, rfl⟩ := List.mem_map.mp hkey
    rw [loc_of_mem hentry, hplain.sym_of_mem hentry]
  · rw [loc_of_notMem hkey, sym_of_notMem fun hvalue => hkey (hnormal hvalue)]

end Written

end Locale

/-! ## The tokenizer of such a locale -/

structure Tokenizer where
  locale : Locale
  plain : locale.Plain
  entrySet : List (Text × Text)
  perm : entrySet.Perm locale.replacementMap

namespace Tokenizer

variable (tokenizer : Tokenizer)

def normalized (expr : Text) : Text := getNormalizedExpression tokenizer.entrySet expr

def localized (expr : Text) : Text := getLocalizedExpression tokenizer.entrySet expr

/-- Whatever the order of the map, every character is normalized on its own. -/
theorem normalized_eq (expr : Text) :
    tokenizer.normalized expr = expr.flatMap tokenizer.locale.norm := by
  have hperm := tokenizer.perm.map Prod.swap
  have hseparate := tokenizer.plain.separate_normal
  calc tokenizer.normalized expr
      = replaceAll (tokenizer.entrySet.map Prod.swap) expr := by
        rw [normalized, getNormalizedExpression, replaceAll, List.foldl_map]
        rfl
    _ = expr.flatMap (substitute (tokenizer.entrySet.map Prod.swap)) :=
        (hseparate.perm hperm.symm).replaceAll_eq expr
    _ = expr.flatMap tokenizer.locale.norm := by
        refine List.flatMap_congr fun c _ => ?_
        rw [hseparate.substitute_perm hperm.symm, tokenizer.plain.substitute_normal]

/-- Whatever the order of the map, infinity is found first. -/
theorem localized_eq (expr : Text) :
    tokenizer.localized expr =
      (replace Locale.infinity [Locale.inf] expr).map tokenizer.locale.loc := by
  let table := (tokenizer.locale.symbols.map fun entry => (([entry.1], [entry.2]) : Text × Text)) ++
    tokenizer.locale.functions
  have hseparate : Separate table := tokenizer.plain.separate_local
  obtain ⟨before, behind, hsplit⟩ := List.append_of_mem
    (tokenizer.perm.mem_iff.mpr (List.mem_append_right _ (List.mem_singleton.mpr rfl)) :
      (Locale.infinity, [Locale.inf]) ∈ tokenizer.entrySet)
  have hperm : (before ++ behind).Perm table := by
    have hwhole := tokenizer.perm
    rw [hsplit] at hwhole
    have hmiddle := List.perm_middle.symm.trans hwhole
    exact (hmiddle.trans (List.perm_append_singleton _ _)).cons_inv
  have hboth : Separate (before ++ behind) := hseparate.perm hperm.symm
  have hbefore : Separate before := hboth.sublist (List.sublist_append_left _ _)
  -- What stands before infinity renames symbols, and no letter of infinity is one.
  let f : Char → Char := fun c =>
    if (before.lookup [c]).isSome then tokenizer.locale.loc c else c
  have hf : ∀ c, substitute before c = [f c] := by
    intro c
    have hall := (hseparate.substitute_perm hperm.symm c).trans
      (tokenizer.plain.substitute_local c)
    rw [substitute, List.lookup_append] at hall
    simp only [f, substitute]
    cases hlookup : before.lookup [c] with
    | none => rfl
    | some value =>
        rw [hlookup] at hall
        simpa using hall
  have hletters : ∀ c ∈ Locale.infinity ++ [Locale.inf], f c = c := by
    intro c hc
    have hloc : tokenizer.locale.loc c = c := by
      apply Locale.loc_of_notMem
      rw [Locale.map_fst_symbols]
      revert c
      exact List.all_iff_forall_prop.mp (by decide)
    simp only [f, hloc, ite_self]
  have hback : ∀ c, f c ∈ Locale.infinity → f c = c := by
    intro c hmem
    by_cases hkey : c ∈ tokenizer.locale.symbols.map Prod.fst
    · obtain ⟨entry, hentry, rfl⟩ := List.mem_map.mp hkey
      simp only [f] at hmem ⊢
      split at hmem
      · rw [Locale.loc_of_mem hentry] at hmem
        exact absurd (List.mem_append_left _ hmem) (tokenizer.plain.unreserved entry hentry)
      · simp_all
    · simp only [f, Locale.loc_of_notMem hkey, ite_self]
  have hrename : ∀ text, replaceAll before text = text.map f := by
    intro text
    rw [hbefore.replaceAll_eq]
    exact (List.flatMap_congr fun c _ => hf c).trans List.map_eq_flatMap.symm
  calc tokenizer.localized expr
      = replaceAll behind (replace Locale.infinity [Locale.inf] (replaceAll before expr)) := by
        rw [localized, getLocalizedExpression, hsplit, List.foldl_append]
        rfl
    _ = replaceAll behind ((replace Locale.infinity [Locale.inf] expr).map f) := by
        rw [hrename, Substitution.replace_map
          (fun c hc => hletters c (List.mem_append_left _ hc)) hback
          (by rw [List.map_singleton, hletters _ (List.mem_append_right _ (by simp))])]
    _ = replaceAll (before ++ behind) (replace Locale.infinity [Locale.inf] expr) := by
        rw [← hrename, replaceAll, replaceAll, replaceAll, List.foldl_append]
    _ = (replace Locale.infinity [Locale.inf] expr).map tokenizer.locale.loc := by
        rw [hboth.replaceAll_eq]
        exact (List.flatMap_congr fun c _ => (hseparate.substitute_perm hperm.symm c).trans
          (tokenizer.plain.substitute_local c)).trans List.map_eq_flatMap.symm

/-- What is written in the symbols of the locale comes back. -/
theorem localized_normalized {text : Text} (hwritten : ∀ c ∈ text, tokenizer.locale.Written c) :
    tokenizer.localized (tokenizer.normalized text) = text := by
  have hfirst : ∀ c ∈ text, c ≠ Locale.inf → tokenizer.locale.sym c ≠ 'I' :=
    fun c hc _ => tokenizer.plain.sym_ne (hwritten c hc)
  rw [localized_eq, normalized_eq]
  refine Eq.trans (congrArg (List.map tokenizer.locale.loc)
    (Substitution.replace_flatMap "nfinity".toList hfirst)) ?_
  rw [List.map_map]
  refine (List.map_congr_left fun c hc => ?_).trans (List.map_id' text)
  rw [Function.comp_apply]
  by_cases hinf : c = Locale.inf
  · rw [if_pos hinf, Locale.loc_of_notMem tokenizer.locale.inf_notKey, hinf]
  · rw [if_neg hinf, tokenizer.plain.loc_sym (hwritten c hc)]

end Tokenizer

end JyyOS.Calculator2
