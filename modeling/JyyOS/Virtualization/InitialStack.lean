import Mathlib.Data.List.TakeWhile
import JyyOS.Virtualization.LoaderStatic

/-!
# The initial stack of the loaded program (`loader-static.c`)

The second half of `execve_`: the words it pushes for the new program, and the
process-entry layout of the System V ABI that the new program reads them with.
The pushes go upwards from a fixed point 4096 bytes below the end of the array.
-/

namespace JyyOS.LoaderStatic

abbrev STK_SZ := 2 ^ 20
abbrev AT_NULL := 0
abbrev AT_RANDOM := 25

/-- An array of pointers as the words of the memory from its first one on. -/
structure PtrArray where
  words : List ℕ
  terminated : 0 ∈ words

/-- The pointers in front of the first `NULL`. -/
def PtrArray.entries (array : PtrArray) : List ℕ := array.words.takeWhile (· ≠ 0)

/-! ## The code -/

/-- The pointer `sp`, the memory by words, and the addresses of the words that
were written. -/
structure Stack where
  sp : ℕ
  mem : ℕ → ℕ
  written : List ℕ

/-- The macro `push` at `intptr_t`. -/
def Stack.push (stk : Stack) (value : ℕ) : Stack :=
  { sp := (stk.sp + 8) % 2 ^ 64
    mem := Function.update stk.mem stk.sp value
    written := stk.written ++ [stk.sp] }

/-- The macro `push` at `Elf64_auxv_t`, two words. -/
def Stack.pushAuxv (stk : Stack) (type val : ℕ) : Stack := (stk.push type).push val

/-- `while (argv[argc]) argc++` -/
def countArgs : List ℕ → ℕ
  | [] => 0
  | p :: rest => if p ≠ 0 then countArgs rest + 1 else 0

/-- The loop over `envp`, where `cstring` is the string at a pointer. -/
def pushEnvp (cstring : ℕ → List Char) : List ℕ → Stack → Stack
  | [], stk => stk
  | p :: rest, stk =>
      if p = 0 then stk
      else if '_' ∉ cstring p then pushEnvp cstring rest (stk.push p)
      else pushEnvp cstring rest stk

def spExec (stack : ℕ) : ℕ := round (stack + STK_SZ - 4096) 16

/-- The pushes of `execve_`: `stack` and `rnd` are the addresses of its arrays. -/
def buildStack (stack rnd : ℕ) (cstring : ℕ → List Char) (argv envp : PtrArray)
    (mem : ℕ → ℕ) : Stack :=
  let stk : Stack := ⟨spExec stack, mem, []⟩
  let argc := countArgs argv.words
  let stk := stk.push argc
  let stk := (List.range (argc + 1)).foldl (fun stk i => stk.push (argv.words.getD i 0)) stk
  let stk := pushEnvp cstring envp.words stk
  let stk := stk.push 0
  let stk := stk.pushAuxv AT_RANDOM rnd
  stk.pushAuxv AT_NULL 0

/-! ## The process-entry layout -/

/-- The words from `addr` on up to the first `NULL`, and the address behind it. -/
def pointersFrom (mem : ℕ → ℕ) : ℕ → ℕ → Option (List ℕ × ℕ)
  | 0, _ => none
  | fuel + 1, addr =>
      if mem addr = 0 then some ([], addr + 8)
      else (pointersFrom mem fuel (addr + 8)).map fun found => (mem addr :: found.1, found.2)

/-- The pairs from `addr` on up to `AT_NULL`. -/
def auxvFrom (mem : ℕ → ℕ) : ℕ → ℕ → Option (List (ℕ × ℕ))
  | 0, _ => none
  | fuel + 1, addr =>
      if mem addr = AT_NULL then some []
      else (auxvFrom mem fuel (addr + 16)).map ((mem addr, mem (addr + 8)) :: ·)

/-- What a program finds on its stack. -/
structure Entry where
  argc : ℕ
  argv : List ℕ
  envp : List ℕ
  auxv : List (ℕ × ℕ)
deriving DecidableEq

/-- The layout from the stack pointer on, `none` if the fuel is used up or no
`NULL` stands behind the arguments. -/
def decode (fuel : ℕ) (mem : ℕ → ℕ) (sp : ℕ) : Option Entry := do
  let argc := mem sp
  let argv := (List.range argc).map fun i => mem (sp + 8 + 8 * i)
  if mem (sp + 8 + 8 * argc) = 0 then
    let (envp, auxv) ← pointersFrom mem fuel (sp + 8 + 8 * argc + 8)
    let auxv ← auxvFrom mem fuel auxv
    some ⟨argc, argv, envp, auxv⟩
  else none

/-- The entries of `envp` that are not left out. -/
def plainEnvp (cstring : ℕ → List Char) (envp : PtrArray) : List ℕ :=
  envp.entries.filter ('_' ∉ cstring ·)

/-- The stack encodes the arguments: its words decode to them, its pointer is
aligned, and it lies in the array. -/
structure Faithful (stack rnd : ℕ) (cstring : ℕ → List Char) (argv envp : PtrArray)
    (mem : ℕ → ℕ) : Prop where
  decodes : ∃ fuel,
    decode fuel (buildStack stack rnd cstring argv envp mem).mem (spExec stack) =
      some ⟨argv.entries.length, argv.entries, plainEnvp cstring envp, [(AT_RANDOM, rnd)]⟩
  aligned : spExec stack % 16 = 0
  inside : ∀ addr ∈ (buildStack stack rnd cstring argv envp mem).written,
    stack ≤ addr ∧ addr + 8 ≤ stack + STK_SZ

/-! ## The pushes as one list of words -/

/-- The words that are pushed, in their order. -/
def stackWords (rnd : ℕ) (cstring : ℕ → List Char) (argv envp : PtrArray) : List ℕ :=
  argv.entries.length :: (argv.entries ++
    0 :: (plainEnvp cstring envp ++ [0, AT_RANDOM, rnd, AT_NULL, 0]))

theorem countArgs_eq (words : List ℕ) : countArgs words = (words.takeWhile (· ≠ 0)).length := by
  induction words with
  | nil => rfl
  | cons p rest ih =>
      rw [countArgs]
      by_cases hnull : p = 0
      · simp [hnull]
      · rw [if_pos hnull, ih]
        simp [hnull]

/-- The pointers with the `NULL` behind them are a prefix of the array. -/
theorem args_eq {words : List ℕ} (hterminated : 0 ∈ words) :
    (List.range (countArgs words + 1)).map (words.getD · 0) = words.takeWhile (· ≠ 0) ++ [0] := by
  induction words with
  | nil => simp at hterminated
  | cons p rest ih =>
      by_cases hnull : p = 0
      · simp [hnull, countArgs]
      · have hrest : 0 ∈ rest := by
          rcases List.mem_cons.mp hterminated with hhead | hrest
          · exact absurd hhead.symm hnull
          · exact hrest
        rw [countArgs, if_pos hnull, List.range_succ_eq_map]
        simp only [List.map_cons, List.getD_cons_zero, List.map_map]
        rw [List.takeWhile_cons_of_pos (by simpa using hnull), List.cons_append, ← ih hrest]
        rfl

theorem pushEnvp_eq (cstring : ℕ → List Char) (words : List ℕ) (stk : Stack) :
    pushEnvp cstring words stk =
      ((words.takeWhile (· ≠ 0)).filter ('_' ∉ cstring ·)).foldl Stack.push stk := by
  induction words generalizing stk with
  | nil => rfl
  | cons p rest ih =>
      rw [pushEnvp]
      by_cases hnull : p = 0
      · simp [hnull]
      · rw [if_neg hnull, List.takeWhile_cons_of_pos (by simpa using hnull)]
        by_cases hverbose : '_' ∈ cstring p
        · rw [if_neg (by simpa using hverbose), ih,
            List.filter_cons_of_neg (by simpa using hverbose)]
        · rw [if_pos hverbose, ih, List.filter_cons_of_pos (by simpa using hverbose)]
          rfl

theorem buildStack_eq (stack rnd : ℕ) (cstring : ℕ → List Char) (argv envp : PtrArray)
    (mem : ℕ → ℕ) :
    buildStack stack rnd cstring argv envp mem =
      (stackWords rnd cstring argv envp).foldl Stack.push ⟨spExec stack, mem, []⟩ := by
  rw [buildStack, stackWords, ← List.foldl_map, args_eq argv.terminated, pushEnvp_eq,
    countArgs_eq]
  simp only [List.foldl_cons, List.foldl_append, List.foldl_nil]
  rfl

@[simp]
theorem length_stackWords (rnd : ℕ) (cstring : ℕ → List Char) (argv envp : PtrArray) :
    (stackWords rnd cstring argv envp).length =
      argv.entries.length + (plainEnvp cstring envp).length + 7 := by
  simp only [stackWords, List.length_cons, List.length_append, List.length_nil]
  omega

/-! ## What the pushes leave behind -/

/-- The words stand in the memory from `addr` on. -/
def Laid (mem : ℕ → ℕ) : ℕ → List ℕ → Prop
  | _, [] => True
  | addr, word :: words => mem addr = word ∧ Laid mem (addr + 8) words

section Laid

variable {mem : ℕ → ℕ} {left right : List ℕ}

theorem laid_append {addr : ℕ} :
    Laid mem addr (left ++ right) ↔
      Laid mem addr left ∧ Laid mem (addr + 8 * left.length) right := by
  induction left generalizing addr with
  | nil => simp [Laid]
  | cons word left ih =>
      rw [List.cons_append, Laid, Laid, ih, and_assoc, List.length_cons,
        show addr + 8 + 8 * left.length = addr + 8 * (left.length + 1) by ring]

theorem Laid.map_range {addr : ℕ} (hlaid : Laid mem addr left) :
    ((List.range left.length).map fun i => mem (addr + 8 * i)) = left := by
  induction left generalizing addr with
  | nil => rfl
  | cons word left ih =>
      have hshift : ((fun i => mem (addr + 8 * i)) ∘ Nat.succ) =
          fun i => mem (addr + 8 + 8 * i) := by
        funext i
        exact congrArg mem (by rw [Nat.succ_eq_add_one]; ring)
      rw [List.length_cons, List.range_succ_eq_map, List.map_cons, List.map_map, hshift,
        ih hlaid.2]
      exact congrArg (· :: left) hlaid.1

/-- The reader stops at the `NULL` behind pointers that are none. -/
theorem Laid.pointersFrom_eq {addr fuel : ℕ} (hlaid : Laid mem addr (left ++ [0]))
    (hpointers : ∀ p ∈ left, p ≠ 0) (hfuel : left.length < fuel) :
    pointersFrom mem fuel addr = some (left, addr + 8 * left.length + 8) := by
  induction left generalizing addr fuel with
  | nil =>
      obtain ⟨rest, rfl⟩ : ∃ rest, fuel = rest + 1 := ⟨fuel - 1, by omega⟩
      rw [pointersFrom, if_pos hlaid.1]
      simp
  | cons word left ih =>
      obtain ⟨rest, rfl⟩ : ∃ rest, fuel = rest + 1 := ⟨fuel - 1, by omega⟩
      have hword : mem addr = word := hlaid.1
      have hrest := ih hlaid.2 (fun p hp => hpointers p (List.mem_cons_of_mem _ hp))
        (Nat.lt_of_succ_lt_succ hfuel)
      rw [pointersFrom, hword, if_neg (hpointers word List.mem_cons_self), hrest, Option.map_some,
        List.length_cons, show addr + 8 + 8 * left.length + 8 =
          addr + 8 * (left.length + 1) + 8 by ring]

end Laid

theorem pushes_written (words : List ℕ) (stk : Stack) (hsp : stk.sp < 2 ^ 64) :
    (words.foldl Stack.push stk).written =
      stk.written ++ (List.range words.length).map fun i => (stk.sp + 8 * i) % 2 ^ 64 := by
  induction words generalizing stk with
  | nil => simp
  | cons word words ih =>
      have hshift : ((fun i => (stk.sp + 8 * i) % 2 ^ 64) ∘ Nat.succ) =
          fun i => ((stk.push word).sp + 8 * i) % 2 ^ 64 := by
        funext i
        show (stk.sp + 8 * (i + 1)) % 2 ^ 64 = ((stk.sp + 8) % 2 ^ 64 + 8 * i) % 2 ^ 64
        omega
      rw [List.foldl_cons, ih _ (Nat.mod_lt _ (by positivity)), List.length_cons,
        List.range_succ_eq_map, List.map_cons, List.map_map, hshift, Nat.mul_zero, Nat.add_zero,
        Nat.mod_eq_of_lt hsp]
      exact List.append_assoc _ _ _

/-- Words below the pointer stay as they are. -/
theorem pushes_below (words : List ℕ) (stk : Stack)
    (hroom : stk.sp + 8 * words.length < 2 ^ 64) {addr : ℕ} (hbelow : addr < stk.sp) :
    (words.foldl Stack.push stk).mem addr = stk.mem addr := by
  induction words generalizing stk with
  | nil => rfl
  | cons word words ih =>
      rw [List.length_cons] at hroom
      have hsp : (stk.push word).sp = stk.sp + 8 := Nat.mod_eq_of_lt (by omega)
      rw [List.foldl_cons, ih (stk.push word) (by omega) (by omega)]
      exact Function.update_of_ne hbelow.ne _ _

theorem pushes_laid (words : List ℕ) (stk : Stack)
    (hroom : stk.sp + 8 * words.length < 2 ^ 64) :
    Laid (words.foldl Stack.push stk).mem stk.sp words := by
  induction words generalizing stk with
  | nil => trivial
  | cons word words ih =>
      rw [List.length_cons] at hroom
      have hsp : (stk.push word).sp = stk.sp + 8 := Nat.mod_eq_of_lt (by omega)
      have hrest := ih (stk.push word) (by omega)
      rw [hsp] at hrest
      refine ⟨?_, hrest⟩
      rw [List.foldl_cons, pushes_below words (stk.push word) (by omega) (by omega)]
      exact Function.update_self _ _ _

/-! ## The round trip and the room -/

theorem PtrArray.entries_ne_zero (array : PtrArray) : ∀ p ∈ array.entries, p ≠ 0 := by
  intro p hp
  simpa using List.mem_takeWhile_imp hp

/-- A memory that holds the words decodes to what they were made of. -/
theorem decode_of_laid {rnd : ℕ} {cstring : ℕ → List Char} {argv envp : PtrArray} {mem : ℕ → ℕ}
    {sp : ℕ} (hlaid : Laid mem sp (stackWords rnd cstring argv envp)) :
    decode ((plainEnvp cstring envp).length + 2) mem sp =
      some ⟨argv.entries.length, argv.entries, plainEnvp cstring envp, [(AT_RANDOM, rnd)]⟩ := by
  have hargc : mem sp = argv.entries.length := hlaid.1
  have hargv := laid_append.mp hlaid.2
  have hnull : mem (sp + 8 + 8 * argv.entries.length) = 0 := hargv.2.1
  have henvp : Laid mem (sp + 8 + 8 * argv.entries.length + 8)
      ((plainEnvp cstring envp ++ [0]) ++ [AT_RANDOM, rnd, AT_NULL, 0]) := by
    simpa using hargv.2.2
  have hsplit := laid_append.mp henvp
  have hpointers : ∀ p ∈ plainEnvp cstring envp, p ≠ 0 :=
    fun p hp => envp.entries_ne_zero p (List.mem_of_mem_filter hp)
  have hread : pointersFrom mem ((plainEnvp cstring envp).length + 2)
      (sp + 8 + 8 * argv.entries.length + 8) = some (plainEnvp cstring envp, _) :=
    hsplit.1.pointersFrom_eq hpointers (by omega)
  have haux := hsplit.2
  simp only [List.length_append, List.length_singleton, Nat.mul_add, Nat.mul_one,
    ← Nat.add_assoc, Laid, and_true] at haux
  have hauxv : auxvFrom mem ((plainEnvp cstring envp).length + 2)
      (sp + 8 + 8 * argv.entries.length + 8 + 8 * (plainEnvp cstring envp).length + 8) =
        some [(AT_RANDOM, rnd)] := by
    obtain ⟨htype, hval, hend, -⟩ := haux
    rw [auxvFrom, htype, if_neg (by decide), hval, auxvFrom, hend, if_pos rfl, Option.map_some]
  simp only [decode, hargc, hnull, if_true, hread, hauxv, hargv.1.map_range,
    Option.bind_eq_bind, Option.bind_some]

section Room

variable {stack : ℕ} (hstack : stack + STK_SZ < 2 ^ 64)
include hstack

/-- The rounding goes down by what the array's own address is out of step. -/
theorem spExec_eq : spExec stack = stack + STK_SZ - 4096 - stack % 16 := by
  simp only [STK_SZ] at hstack ⊢
  have hround : round (stack + 2 ^ 20 - 4096) 16 = (stack + 2 ^ 20 - 4096) / 16 * 16 :=
    round_eq (by omega) ⟨4, rfl⟩ (by norm_num)
  rw [spExec, hround]
  omega

variable {rnd : ℕ} {cstring : ℕ → List Char} {argv envp : PtrArray} {mem : ℕ → ℕ}

/-- With too many words one of them goes behind the array: the first one that
does not fit does not wrap around. -/
theorem room_of_inside
    (hinside : ∀ addr ∈ (buildStack stack rnd cstring argv envp mem).written,
      stack ≤ addr ∧ addr + 8 ≤ stack + STK_SZ) :
    8 * (argv.entries.length + (plainEnvp cstring envp).length) + 56 ≤ 4096 + stack % 16 := by
  have hsp := spExec_eq hstack
  simp only [STK_SZ] at hstack hsp hinside
  by_contra hroom
  have hlen := length_stackWords rnd cstring argv envp
  have hwritten : (spExec stack + 8 * ((4096 + stack % 16) / 8)) % 2 ^ 64 ∈
      (buildStack stack rnd cstring argv envp mem).written := by
    rw [buildStack_eq, pushes_written _ _ (by show spExec stack < 2 ^ 64; omega)]
    refine List.mem_append_right _ (List.mem_map.mpr ⟨(4096 + stack % 16) / 8, ?_, rfl⟩)
    rw [List.mem_range, hlen]
    omega
  have hend := (hinside _ hwritten).2
  rw [Nat.mod_eq_of_lt (by omega)] at hend
  omega

theorem faithful_of_room
    (hroom : 8 * (argv.entries.length + (plainEnvp cstring envp).length) + 56 ≤
      4096 + stack % 16) :
    Faithful stack rnd cstring argv envp mem := by
  have hsp := spExec_eq hstack
  have hlen := length_stackWords rnd cstring argv envp
  simp only [STK_SZ] at hstack hsp
  refine ⟨⟨(plainEnvp cstring envp).length + 2, ?_⟩, ?_, ?_⟩
  · rw [buildStack_eq]
    apply decode_of_laid
    apply pushes_laid _ ⟨spExec stack, mem, []⟩
    show spExec stack + _ < _
    omega
  · omega
  · intro addr hwritten
    rw [buildStack_eq, pushes_written _ _ (by show spExec stack < 2 ^ 64; omega),
      List.nil_append] at hwritten
    obtain ⟨i, hi, rfl⟩ := List.mem_map.mp hwritten
    rw [List.mem_range, hlen] at hi
    show stack ≤ (spExec stack + 8 * i) % 2 ^ 64 ∧
      (spExec stack + 8 * i) % 2 ^ 64 + 8 ≤ stack + 2 ^ 20
    rw [Nat.mod_eq_of_lt (by omega)]
    omega

end Room

/-- The stack that `execve_` builds is a faithful encoding exactly when the
pointers fit in the last page of the array. -/
theorem stack_faithful_iff {stack : ℕ} (hstack : stack + STK_SZ < 2 ^ 64) (rnd : ℕ)
    (cstring : ℕ → List Char) (argv envp : PtrArray) (mem : ℕ → ℕ) :
    Faithful stack rnd cstring argv envp mem ↔
      8 * (argv.entries.length + (plainEnvp cstring envp).length) + 56 ≤ 4096 + stack % 16 :=
  ⟨fun hfaithful => room_of_inside hstack hfaithful.inside, faithful_of_room hstack⟩

/-- `HOME=/root` and `LC_ALL=C` at two addresses: the second one is left out. -/
def sampleString (p : ℕ) : List Char :=
  if p = 0x7f10 then "HOME=/root".toList else if p = 0x7f20 then "LC_ALL=C".toList else []

theorem stack_faithful_sample :
    decode 3 (buildStack 0x4c5000 0x5c5000 sampleString ⟨[0x7f00, 0x7f08, 0], by decide⟩
        ⟨[0x7f10, 0x7f20, 0], by decide⟩ fun _ => 0).mem (spExec 0x4c5000) =
      some ⟨2, [0x7f00, 0x7f08], [0x7f10], [(AT_RANDOM, 0x5c5000)]⟩ ∧
    Faithful 0x4c5000 0x5c5000 sampleString ⟨[0x7f00, 0x7f08, 0], by decide⟩
      ⟨[0x7f10, 0x7f20, 0], by decide⟩ fun _ => 0 :=
  ⟨by decide, (stack_faithful_iff (by decide) _ _ _ _ _).mpr (by decide)⟩

/-- The same argument so many times. -/
def repeated (count : ℕ) : PtrArray := ⟨List.replicate count 0x7f00 ++ [0], by simp⟩

theorem entries_repeated (count : ℕ) : (repeated count).entries = List.replicate count 0x7f00 := by
  rw [PtrArray.entries, repeated, List.takeWhile_append_of_pos]
  · simp
  · intro p hp
    rw [List.eq_of_mem_replicate hp]
    decide

/-- 506 arguments and no environment: the last word goes behind the array. -/
theorem stack_not_faithful :
    ¬ Faithful 0x4c5000 0x5c5000 (fun _ => []) (repeated 506) (repeated 0) fun _ => 0 := by
  intro hfaithful
  have hroom := room_of_inside (by decide) hfaithful.inside
  rw [entries_repeated, List.length_replicate] at hroom
  omega

end JyyOS.LoaderStatic
