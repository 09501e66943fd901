import Mathlib.Data.Set.Finite.Basic
import Mathlib.Data.List.Basic
import Mathlib.Tactic

/-!
# Breadth-first search over words

A deterministic system is explored without ever keeping a live state: a state
is known by a word that leads to it, and a successor is computed by evaluating
the longer word from the start.  States are merged by a key.

When the successor of a state depends only on the state and the key separates
states, expanding one word per state loses nothing: the search ends once
finitely many states are reachable, finds each of them once with a shortest
word, and records one edge for each state and letter.
-/

namespace JyyOS.WordSearch

variable {Letter State Key : Type*}

structure Node (Letter State : Type*) where
  word : List Letter
  state : State

structure Search (Letter State : Type*) where
  queue : List (Node Letter State)
  found : List (Node Letter State)
  edges : List (Node Letter State × Node Letter State × Letter)

def node (eval : List Letter → State) (word : List Letter) :
    Node Letter State :=
  ⟨word, eval word⟩

def keys (key : State → Key) (found : List (Node Letter State)) : List Key :=
  found.map fun vertex => key vertex.state

variable [DecidableEq Key]

/-- Evaluate one more letter after `source`; remember the result if its key is
new, and the edge in any case. -/
def visit (eval : List Letter → State) (key : State → Key)
    (source : Node Letter State) (search : Search Letter State)
    (letter : Letter) : Search Letter State :=
  let target := node eval (source.word ++ [letter])
  if key target.state ∈ keys key search.found then
    { search with edges := search.edges ++ [(source, target, letter)] }
  else
    { queue := search.queue ++ [target]
      found := search.found ++ [target]
      edges := search.edges ++ [(source, target, letter)] }

/-- Expand the queue until it is empty, `none` if the fuel runs out first. -/
def run (eval : List Letter → State) (key : State → Key)
    (letters : List Letter) :
    ℕ → Search Letter State → Option (Search Letter State)
  | 0, search =>
      match search.queue with
      | [] => some search
      | _ :: _ => none
  | fuel + 1, search =>
      match search.queue with
      | [] => some search
      | source :: rest =>
          run eval key letters fuel
            (letters.foldl (visit eval key source)
              { search with queue := rest })

def start (eval : List Letter → State) : Search Letter State where
  queue := [node eval []]
  found := [node eval []]
  edges := []

def edgesOf (eval : List Letter → State) (letters : List Letter)
    (source : Node Letter State) :
    List (Node Letter State × Node Letter State × Letter) :=
  letters.map fun letter =>
    (source, node eval (source.word ++ [letter]), letter)

/-- Everything that is true of the found nodes throughout the search, with the
nodes before `current` expanded for all letters. -/
structure Sound (eval : List Letter → State) (key : State → Key)
    (closed found : List (Node Letter State)) : Prop where
  evaluated : ∀ vertex ∈ found, vertex.state = eval vertex.word
  distinct : (keys key found).Nodup
  root : key (eval []) ∈ keys key found
  complete : ∀ vertex ∈ closed, ∀ letter,
    key (eval (vertex.word ++ [letter])) ∈ keys key found
  sorted : found.Pairwise fun left right =>
    left.word.length ≤ right.word.length
  shortest : ∀ vertex ∈ found, ∀ word, eval word = vertex.state →
    vertex.word.length ≤ word.length

section Correct

variable {eval : List Letter → State} {key : State → Key}

omit [DecidableEq Key] in
theorem mem_keys {found : List (Node Letter State)} {value : Key} :
    value ∈ keys key found ↔ ∃ vertex ∈ found, key vertex.state = value := by
  simp [keys]

variable (hact : ∀ left right letter, eval left = eval right →
    eval (left ++ [letter]) = eval (right ++ [letter]))
  (hkey : ∀ left right, key (eval left) = key (eval right) →
    eval left = eval right)

include hact hkey

omit [DecidableEq Key] in
/-- While `source` is being expanded, every word not longer than its own leads
to a state that has been found. -/
theorem Sound.found_of_length_le {closed queue : List (Node Letter State)}
    {source : Node Letter State}
    (hsound : Sound eval key closed (closed ++ source :: queue))
    (word : List Letter) (hword : word.length ≤ source.word.length) :
    key (eval word) ∈ keys key (closed ++ source :: queue) := by
  induction word using List.reverseRecOn with
  | nil => exact hsound.root
  | append_singleton word letter ih =>
      rw [List.length_append, List.length_singleton] at hword
      obtain ⟨vertex, hvertex, hsame⟩ := mem_keys.mp (ih (by omega))
      have hstate := hsound.evaluated vertex hvertex
      rw [hstate] at hsame
      have heval := hkey _ _ hsame
      have hshort := hsound.shortest vertex hvertex word (by rw [hstate, heval])
      -- A node with a shorter word stands before `source`, so it is expanded.
      have hclosed : vertex ∈ closed := by
        rcases List.mem_append.mp hvertex with hclosed | hopen
        · exact hclosed
        · exfalso
          have hsorted := (List.pairwise_append.mp hsound.sorted).2.1
          have hle : source.word.length ≤ vertex.word.length := by
            rcases List.mem_cons.mp hopen with rfl | hqueue
            · exact le_refl _
            · exact (List.pairwise_cons.mp hsorted).1 vertex hqueue
          omega
      rw [← hact _ _ letter heval]
      exact hsound.complete vertex hclosed letter

omit hact hkey [DecidableEq Key] in
private theorem keys_append (found more : List (Node Letter State)) :
    keys key (found ++ more) = keys key found ++ keys key more := by
  simp [keys]

omit [DecidableEq Key] in
/-- A node with a new key can be added behind all others. -/
theorem Sound.snoc {closed queue : List (Node Letter State)}
    {source : Node Letter State} {letter : Letter}
    (hsound : Sound eval key closed (closed ++ source :: queue))
    (hlevel : ∀ vertex ∈ closed ++ source :: queue,
      vertex.word.length ≤ source.word.length + 1)
    (hnew : key (eval (source.word ++ [letter])) ∉
      keys key (closed ++ source :: queue)) :
    Sound eval key closed (closed ++ source ::
      (queue ++ [node eval (source.word ++ [letter])])) := by
  have hsplit : closed ++ source ::
      (queue ++ [node eval (source.word ++ [letter])]) =
        (closed ++ source :: queue) ++
          [node eval (source.word ++ [letter])] := by simp
  rw [hsplit]
  refine ⟨?_, ?_, ?_, ?_, ?_, ?_⟩
  · intro vertex hvertex
    rcases List.mem_append.mp hvertex with hold | hlast
    · exact hsound.evaluated vertex hold
    · rw [List.mem_singleton.mp hlast]
      rfl
  · rw [keys_append]
    refine List.nodup_append'.mpr ⟨hsound.distinct, by simp [keys], ?_⟩
    intro value hvalue hlast
    rw [keys, List.map_singleton, List.mem_singleton] at hlast
    subst hlast
    exact hnew hvalue
  · rw [keys_append]
    exact List.mem_append_left _ hsound.root
  · intro vertex hvertex next
    rw [keys_append]
    exact List.mem_append_left _ (hsound.complete vertex hvertex next)
  · refine List.pairwise_append.mpr ⟨hsound.sorted, by simp, ?_⟩
    intro vertex hvertex last hlast
    rw [List.mem_singleton.mp hlast]
    simpa [node] using hlevel vertex hvertex
  · intro vertex hvertex word hword
    rcases List.mem_append.mp hvertex with hold | hlast
    · exact hsound.shortest vertex hold word hword
    · rw [List.mem_singleton.mp hlast] at hword ⊢
      by_contra hshorter
      simp only [node, List.length_append, List.length_singleton, not_le]
        at hshorter hword
      apply hnew
      rw [← hword]
      exact hsound.found_of_length_le hact hkey word (by omega)

/-- Loop invariant of the expansion of `source`, with the letters in `read`
already tried. -/
structure Expanding (eval : List Letter → State) (key : State → Key)
    (letters : List Letter) (closed : List (Node Letter State))
    (source : Node Letter State) (read : List Letter)
    (search : Search Letter State) : Prop where
  found : search.found = closed ++ source :: search.queue
  edges : search.edges =
    closed.flatMap (edgesOf eval letters) ++ edgesOf eval read source
  sound : Sound eval key closed search.found
  level : ∀ vertex ∈ search.found,
    vertex.word.length ≤ source.word.length + 1
  tried : ∀ letter ∈ read,
    key (eval (source.word ++ [letter])) ∈ keys key search.found

/-- The same invariant between two expansions. -/
structure Between (eval : List Letter → State) (key : State → Key)
    (letters : List Letter) (closed : List (Node Letter State))
    (search : Search Letter State) : Prop where
  found : search.found = closed ++ search.queue
  edges : search.edges = closed.flatMap (edgesOf eval letters)
  sound : Sound eval key closed search.found
  level : ∀ source rest, search.queue = source :: rest →
    ∀ vertex ∈ search.found, vertex.word.length ≤ source.word.length + 1

variable {letters : List Letter} {closed : List (Node Letter State)}
variable {source : Node Letter State} {search : Search Letter State}

theorem Expanding.visit {read : List Letter}
    (hexpanding : Expanding eval key letters closed source read search)
    (letter : Letter) :
    Expanding eval key letters closed source (read ++ [letter])
      (visit eval key source search letter) := by
  have hedges : search.edges ++
      [(source, node eval (source.word ++ [letter]), letter)] =
        closed.flatMap (edgesOf eval letters) ++
          edgesOf eval (read ++ [letter]) source := by
    rw [hexpanding.edges]
    simp [edgesOf]
  unfold WordSearch.visit
  dsimp only
  split
  case isTrue hold =>
    refine ⟨hexpanding.found, hedges, hexpanding.sound, hexpanding.level, ?_⟩
    intro other hother
    rcases List.mem_append.mp hother with hread | hlast
    · exact hexpanding.tried other hread
    · rw [List.mem_singleton.mp hlast]
      exact hold
  case isFalse hnew =>
    have hsound := hexpanding.sound
    have hlevel := hexpanding.level
    rw [hexpanding.found] at hsound hlevel
    have hnewKey : key (eval (source.word ++ [letter])) ∉
        keys key (closed ++ source :: search.queue) := by
      rw [← hexpanding.found]
      exact hnew
    have hsplit : search.found ++ [node eval (source.word ++ [letter])] =
        closed ++ source ::
          (search.queue ++ [node eval (source.word ++ [letter])]) := by
      rw [hexpanding.found]
      simp
    refine ⟨hsplit, hedges, ?_, ?_, ?_⟩
    · rw [hsplit]
      exact hsound.snoc hact hkey hlevel hnewKey
    · intro vertex hvertex
      rcases List.mem_append.mp hvertex with hold | hlast
      · exact hexpanding.level vertex hold
      · rw [List.mem_singleton.mp hlast]
        simp [node]
    · intro other hother
      rw [keys_append]
      rcases List.mem_append.mp hother with hread | hlast
      · exact List.mem_append_left _ (hexpanding.tried other hread)
      · rw [List.mem_singleton.mp hlast]
        exact List.mem_append_right _ (by simp [keys, node])

theorem Expanding.foldl {read : List Letter}
    (hexpanding : Expanding eval key letters closed source read search)
    (rest : List Letter) :
    Expanding eval key letters closed source (read ++ rest)
      (rest.foldl (WordSearch.visit eval key source) search) := by
  induction rest generalizing read search with
  | nil => simpa using hexpanding
  | cons letter rest ih =>
      have hnext := ih (hexpanding.visit hact hkey letter)
      simpa using hnext

/-- Expanding the head of the queue moves it to the closed nodes. -/
theorem Between.expand (hall : ∀ letter, letter ∈ letters)
    {rest : List (Node Letter State)}
    (hbetween : Between eval key letters closed search)
    (hqueue : search.queue = source :: rest) :
    Between eval key letters (closed ++ [source])
      (letters.foldl (WordSearch.visit eval key source)
        { search with queue := rest }) := by
  have hbegin : Expanding eval key letters closed source []
      { search with queue := rest } := by
    refine ⟨?_, ?_, hbetween.sound, hbetween.level source rest hqueue, ?_⟩
    · rw [hbetween.found, hqueue]
    · simpa [edgesOf] using hbetween.edges
    · intro letter hletter
      cases hletter
  have hend := hbegin.foldl hact hkey letters
  rw [List.nil_append] at hend
  refine ⟨?_, ?_, ?_, ?_⟩
  · rw [hend.found]
    simp
  · rw [hend.edges]
    simp
  · refine ⟨hend.sound.evaluated, hend.sound.distinct, hend.sound.root, ?_,
      hend.sound.sorted, hend.sound.shortest⟩
    intro vertex hvertex letter
    rcases List.mem_append.mp hvertex with hclosed | hlast
    · exact hend.sound.complete vertex hclosed letter
    · rw [List.mem_singleton.mp hlast]
      exact hend.tried letter (hall letter)
  · intro next tail hnext vertex hvertex
    have hsorted := hend.sound.sorted
    rw [hend.found, hnext] at hsorted
    have hle : source.word.length ≤ next.word.length :=
      (List.pairwise_cons.mp (List.pairwise_append.mp hsorted).2.1).1 next
        (by simp)
    have := hend.level vertex hvertex
    omega

omit hact hkey [DecidableEq Key] in
theorem between_start :
    Between eval key letters [] (start eval) := by
  refine ⟨rfl, rfl, ⟨?_, ?_, ?_, ?_, ?_, ?_⟩, ?_⟩
  · intro vertex hvertex
    rw [List.mem_singleton.mp hvertex]
    rfl
  · simp [start, keys]
  · simp [start, keys, node]
  · intro vertex hvertex
    cases hvertex
  · simp [start]
  · intro vertex hvertex word _
    rw [List.mem_singleton.mp hvertex]
    simp [node]
  · intro source rest hqueue vertex hvertex
    rw [List.mem_singleton.mp hvertex]
    simp [node]

omit hact hkey [DecidableEq Key] in
theorem Sound.states_nodup {found : List (Node Letter State)}
    (hsound : Sound eval key closed found) :
    (found.map Node.state).Nodup := by
  apply List.Nodup.of_map key
  rw [List.map_map]
  exact hsound.distinct

omit hact hkey [DecidableEq Key] in
/-- Found nodes carry different reachable states, so there are never more of
them than reachable states. -/
theorem Sound.length_le {found : List (Node Letter State)}
    (hsound : Sound eval key closed found) (hfinite : (Set.range eval).Finite) :
    found.length ≤ hfinite.toFinset.card := by
  classical
  rw [← List.length_map Node.state,
    ← List.toFinset_card_of_nodup hsound.states_nodup]
  apply Finset.card_le_card
  intro state hstate
  obtain ⟨vertex, hvertex, rfl⟩ :=
    List.mem_map.mp (List.mem_toFinset.mp hstate)
  rw [Set.Finite.mem_toFinset]
  exact ⟨vertex.word, (hsound.evaluated vertex hvertex).symm⟩

/-- With as much fuel as there are states left to expand, the loop ends. -/
theorem exists_run (hall : ∀ letter, letter ∈ letters)
    (hfinite : (Set.range eval).Finite) (fuel : ℕ)
    (hbetween : Between eval key letters closed search)
    (hfuel : hfinite.toFinset.card ≤ closed.length + fuel) :
    ∃ result, run eval key letters fuel search = some result ∧
      result.queue = [] ∧
      ∃ expanded, Between eval key letters expanded result := by
  have hlength := hbetween.sound.length_le hfinite
  rw [hbetween.found, List.length_append] at hlength
  induction fuel generalizing closed search with
  | zero =>
      have hqueue : search.queue = [] := by
        apply List.eq_nil_of_length_eq_zero
        omega
      exact ⟨search, by simp [run, hqueue], hqueue, closed, hbetween⟩
  | succ fuel ih =>
      cases hqueue : search.queue with
      | nil => exact ⟨search, by simp [run, hqueue], hqueue, closed, hbetween⟩
      | cons source rest =>
          have hnext := hbetween.expand hact hkey hall hqueue
          have hnextLength := hnext.sound.length_le hfinite
          rw [hnext.found, List.length_append] at hnextLength
          obtain ⟨result, hrun, hresult⟩ := ih hnext
            (by rw [List.length_append, List.length_singleton]; omega)
            hnextLength
          exact ⟨result, by simpa [run, hqueue] using hrun, hresult⟩

/-- What a finished search has found out about the system. -/
structure Explored (eval : List Letter → State) (letters : List Letter)
    (result : Search Letter State) : Prop where
  nodup : (result.found.map Node.state).Nodup
  covers : ∀ state, state ∈ result.found.map Node.state ↔
    ∃ word, eval word = state
  evaluated : ∀ vertex ∈ result.found, eval vertex.word = vertex.state
  shortest : ∀ vertex ∈ result.found, ∀ word, eval word = vertex.state →
    vertex.word.length ≤ word.length
  edges : result.edges = result.found.flatMap (edgesOf eval letters)

omit [DecidableEq Key] in
theorem Between.explored
    (hbetween : Between eval key letters closed search)
    (hqueue : search.queue = []) : Explored eval letters search := by
  have hfound : search.found = closed := by
    rw [hbetween.found, hqueue, List.append_nil]
  have hsound := hbetween.sound
  rw [hfound] at hsound
  have hreach : ∀ word, key (eval word) ∈ keys key closed := by
    intro word
    induction word using List.reverseRecOn with
    | nil => exact hsound.root
    | append_singleton word letter ih =>
        obtain ⟨vertex, hvertex, hsame⟩ := mem_keys.mp ih
        rw [hsound.evaluated vertex hvertex] at hsame
        rw [← hact _ _ letter (hkey _ _ hsame)]
        exact hsound.complete vertex hvertex letter
  refine ⟨?_, ?_, ?_, ?_, ?_⟩
  · rw [hfound]
    exact hsound.states_nodup
  · intro state
    rw [hfound]
    constructor
    · intro hstate
      obtain ⟨vertex, hvertex, rfl⟩ := List.mem_map.mp hstate
      exact ⟨vertex.word, (hsound.evaluated vertex hvertex).symm⟩
    · rintro ⟨word, rfl⟩
      obtain ⟨vertex, hvertex, hsame⟩ := mem_keys.mp (hreach word)
      have hstate := hsound.evaluated vertex hvertex
      rw [hstate] at hsame
      exact List.mem_map.mpr ⟨vertex, hvertex, hstate.trans (hkey _ _ hsame)⟩
  · intro vertex hvertex
    rw [hfound] at hvertex
    exact (hsound.evaluated vertex hvertex).symm
  · rw [hfound]
    exact hsound.shortest
  · rw [hbetween.edges, hfound]

/-- If finitely many states are reachable, the search ends and has explored
the system exactly. -/
theorem exists_explored (hall : ∀ letter, letter ∈ letters)
    (hfinite : (Set.range eval).Finite) :
    ∃ fuel result, run eval key letters fuel (start eval) = some result ∧
      Explored eval letters result := by
  obtain ⟨result, hrun, hqueue, _, hbetween⟩ :=
    exists_run hact hkey hall hfinite hfinite.toFinset.card
      between_start (by simp)
  exact ⟨_, result, hrun, hbetween.explored hact hkey hqueue⟩

end Correct

end JyyOS.WordSearch
