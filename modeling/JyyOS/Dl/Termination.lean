import JyyOS.Dl.Runs

/-!
# Loading ends

Every recursion of the loader takes a free slot of `libs`, so that one unit of
fuel for each slot and one for the first call always suffice.
-/

namespace JyyOS.Dl

open JyyOS.ByteImage

section Functions

variable {env : Env} {loader : Loader} {α : Type}

/-! ## Fuel -/

/-- The function stopped for a reason of the source, or returned. -/
def Complete : EStateM.Result Stop Loader α → Prop
  | .ok _ _ => True
  | .error stop _ => stop ≠ .fuel

theorem walkSymbols_complete {dlopen : Path → Load (Option ℕ)} {room : ℕ}
    (hagrees : ∀ name loader,
      Agrees env loader (.open (.load name)) (dlopen name loader))
    (hopen : ∀ name loader, loader.libs.length ≤ libsLength →
      libsLength < room + loader.libs.length → Complete (dlopen name loader))
    (h : ℕ) (base : UInt64) (symbols : List Symbol) (k : ℕ) (loader : Loader)
    (hroom : libsLength ≤ room + loader.libs.length) :
    Complete (walkSymbols dlopen h base k symbols loader) := by
  induction symbols generalizing k loader with
  | nil => trivial
  | cons sym symbols ih =>
      rw [walkSymbols]
      split_ifs with hload himport hexport
      · rw [bind_eq, dlload_eq]
        split_ifs with hknown hfree
        · exact ih (k + 1) loader hroom
        · have hlisted : (loader.listed sym.name).libs.length =
              loader.libs.length + 1 := by
            simp [Loader.listed]
          have hcomplete := hopen sym.name (loader.listed sym.name)
            (by omega) (by omega)
          have hmiddle := hagrees sym.name (loader.listed sym.name)
          cases hresult : dlopen sym.name (loader.listed sym.name) with
          | ok value middle =>
              rw [hresult] at hmiddle
              obtain ⟨names, hgrown, -⟩ := hmiddle.trace
              have hlength := congrArg List.length hgrown
              rw [List.length_append] at hlength
              exact ih (k + 1) middle (by omega)
          | error stop after =>
              rw [hresult] at hcomplete
              exact hcomplete
        · exact Stop.noConfusion
      · rw [bind_eq, dlsym_eq]
        cases loader.entry? sym.name with
        | none => exact Stop.noConfusion
        | some entry => exact ih (k + 1) (loader.patch h k entry.offset) hroom
      · rw [bind_eq, dlexport_eq]
        cases loader.slot? with
        | none => exact Stop.noConfusion
        | some i =>
            exact ih (k + 1) (loader.exported i (base + sym.offset) sym.name) hroom
      · exact ih (k + 1) loader hroom

/-- The recursion is as deep as there are free slots of `libs`, at most. -/
theorem dlopen_complete (fuel : ℕ) (call : Call) (loader : Loader)
    (hlibs : loader.libs.length ≤ libsLength)
    (hfuel : libsLength < fuel + loader.libs.length) :
    Complete (dlopen env fuel call loader) := by
  induction fuel generalizing call loader with
  | zero => omega
  | succ fuel ih =>
      by_cases haccepts : env.Accepts call
      · obtain ⟨base, hbase⟩ := Option.isSome_iff_exists.mp haccepts.2.2.2
        rw [dlopen_accepted fuel haccepts hbase]
        cases env.table call with
        | none => exact Stop.noConfusion
        | some symbols =>
            have hwalk := walkSymbols_complete (fun name => dlopen_agrees fuel (.load name))
              (fun name => ih (.load name)) loader.maps.length base symbols 0
              ((loader.opened call).mapped call base symbols)
              (show libsLength ≤ fuel + loader.libs.length by omega)
            revert hwalk
            dsimp only
            cases walkSymbols (fun name => dlopen env fuel (.load name))
              loader.maps.length base 0 symbols
              ((loader.opened call).mapped call base symbols) with
            | ok value after => exact id
            | error stop after => exact id
      · rw [dlopen_refused fuel haccepts]
        trivial

theorem walkSymbols_congr {first second : Path → Load (Option ℕ)}
    (hopen : ∀ name loader,
      Complete (first name loader) → second name loader = first name loader)
    (h : ℕ) (base : UInt64) (symbols : List Symbol) (k : ℕ) (loader : Loader)
    (hcomplete : Complete (walkSymbols first h base k symbols loader)) :
    walkSymbols second h base k symbols loader =
      walkSymbols first h base k symbols loader := by
  induction symbols generalizing k loader with
  | nil => rfl
  | cons sym symbols ih =>
      rw [walkSymbols] at hcomplete ⊢
      rw [walkSymbols]
      split_ifs at hcomplete ⊢ with hload himport hexport
      · rw [bind_eq, dlload_eq] at hcomplete ⊢
        rw [bind_eq, dlload_eq]
        split_ifs at hcomplete ⊢ with hknown hfree
        · exact ih (k + 1) loader hcomplete
        · have hsame := hopen sym.name (loader.listed sym.name)
          cases hresult : first sym.name (loader.listed sym.name) with
          | ok value middle =>
              rw [hresult] at hcomplete hsame
              rw [hsame trivial]
              exact ih (k + 1) middle hcomplete
          | error stop after =>
              rw [hresult] at hcomplete hsame
              rw [hsame hcomplete]
        · rfl
      · rw [bind_eq, dlsym_eq] at hcomplete ⊢
        rw [bind_eq, dlsym_eq]
        cases hentry : loader.entry? sym.name with
        | none => rfl
        | some entry =>
            rw [hentry] at hcomplete
            exact ih (k + 1) (loader.patch h k entry.offset) hcomplete
      · rw [bind_eq, dlexport_eq] at hcomplete ⊢
        rw [bind_eq, dlexport_eq]
        cases hslot : loader.slot? with
        | none => rfl
        | some i =>
            rw [hslot] at hcomplete
            exact ih (k + 1) (loader.exported i (base + sym.offset) sym.name) hcomplete
      · exact ih (k + 1) loader hcomplete

/-- More fuel than needed changes nothing. -/
theorem dlopen_fuel_succ (fuel : ℕ) (call : Call) (loader : Loader)
    (hcomplete : Complete (dlopen env fuel call loader)) :
    dlopen env (fuel + 1) call loader = dlopen env fuel call loader := by
  induction fuel generalizing call loader with
  | zero => exact absurd rfl hcomplete
  | succ fuel ih =>
      by_cases haccepts : env.Accepts call
      · obtain ⟨base, hbase⟩ := Option.isSome_iff_exists.mp haccepts.2.2.2
        rw [dlopen_accepted fuel haccepts hbase] at hcomplete ⊢
        rw [dlopen_accepted (fuel + 1) haccepts hbase]
        cases htable : env.table call with
        | none => rfl
        | some symbols =>
            have hwalk := walkSymbols_congr (fun name => ih (.load name))
              loader.maps.length base symbols 0
              ((loader.opened call).mapped call base symbols)
            rw [htable] at hcomplete
            dsimp only at hcomplete ⊢
            rw [hwalk]
            revert hcomplete
            cases walkSymbols (fun name => dlopen env fuel (.load name))
              loader.maps.length base 0 symbols
              ((loader.opened call).mapped call base symbols) with
            | ok value after => exact id
            | error stop after => exact id
      · rw [dlopen_refused fuel haccepts, dlopen_refused (fuel + 1) haccepts]

theorem dlopen_fuel (env : Env) {fuel : ℕ} (call : Call) (loader : Loader)
    (hlibs : loader.libs.length ≤ libsLength) (hfuel : libsLength < fuel) :
    dlopen env fuel call loader = dlopen env (libsLength + 1) call loader := by
  induction fuel, hfuel using Nat.le_induction with
  | base => rfl
  | succ fuel hfuel ih =>
      rw [← ih]
      apply dlopen_fuel_succ
      exact dlopen_complete fuel call loader hlibs (by omega)

/-- The tables when a function returns or is stopped. -/
def final : EStateM.Result Stop Loader α → Loader
  | .ok _ after => after
  | .error _ after => after

def stopOf : EStateM.Result Stop Loader α → Option Stop
  | .ok _ _ => none
  | .error stop _ => some stop

/-- The run of a call of `dlopen` with the fuel that always suffices. -/
theorem dlopen_exec (env : Env) (call : Call) (hlibs : loader.libs.length ≤ libsLength) :
    Exec env loader (.open call)
      (stopOf (dlopen env (libsLength + 1) call loader))
      (final (dlopen env (libsLength + 1) call loader)) := by
  have hagrees : Agrees env loader (.open call)
      (dlopen env (libsLength + 1) call loader) := dlopen_agrees _ call loader
  have hcomplete : Complete (dlopen env (libsLength + 1) call loader) :=
    dlopen_complete _ call loader hlibs (by omega)
  cases hresult : dlopen env (libsLength + 1) call loader with
  | ok value after =>
      rw [hresult] at hagrees
      exact hagrees
  | error stop after =>
      rw [hresult] at hagrees hcomplete
      exact hagrees.resolve_left hcomplete

end Functions

/-! ## Termination -/

section Termination

variable {env : Env} {loader : Loader}

def Call.loadName? : Call → Option Path
  | .top _ _ => none
  | .load name => some name

/-- What the tables keep from one call of `dlopen` to the next. -/
def Loader.Tidy (loader : Loader) : Prop :=
  loader.opens.filterMap Call.loadName? = loader.libs ∧
    loader.libs.length ≤ libsLength

theorem dlopen_tidy (env : Env) (index : ℕ) (path : Path) (htidy : loader.Tidy) :
    (final (dlopen env (libsLength + 1) (.top index path) loader)).Tidy := by
  have hexec := dlopen_exec env (.top index path) htidy.2
  obtain ⟨names, hlibs, hopens⟩ := hexec.trace
  have hnames : (names.map Call.load).filterMap Call.loadName? = names := by
    rw [List.filterMap_map]
    exact List.filterMap_some
  refine ⟨?_, hexec.libs.1 htidy.2⟩
  rw [hopens, hlibs, ← htidy.1, List.filterMap_append, List.filterMap_append, hnames]
  rfl

theorem openAll_cons (fuel index : ℕ) (path : Path) (paths : List Path)
    (loader : Loader) :
    openAll env fuel index (path :: paths) loader =
      match dlopen env fuel (.top index path) loader with
      | .ok (some _) after => openAll env fuel (index + 1) paths after
      | .ok none after => .error .exit after
      | .error stop after => .error stop after := by
  rw [openAll, bind_eq, dlopen_chk, bind_eq]
  cases dlopen env fuel (.top index path) loader with
  | ok value after => cases value <;> rfl
  | error stop after => rfl

theorem openAll_ends (hformed : ∀ call, env.Accepts call → (env.table call).isSome)
    (paths : List Path) (index : ℕ) (loader : Loader) (htidy : loader.Tidy) :
    (∀ fuel, libsLength < fuel → openAll env fuel index paths loader =
      openAll env (libsLength + 1) index paths loader) ∧
    (∀ stop ∈ stopOf (openAll env (libsLength + 1) index paths loader),
      stop = .assert ∨ stop = .exit) ∧
    (final (openAll env (libsLength + 1) index paths loader)).Tidy := by
  induction paths generalizing index loader with
  | nil => exact ⟨fun _ _ => rfl, by simp [openAll, stopOf, pure, EStateM.pure], htidy⟩
  | cons path paths ih =>
      have hafter := dlopen_tidy env index path htidy
      have hstop := (dlopen_exec env (.top index path) htidy.2).stop_eq hformed
      have hsame : ∀ fuel, libsLength < fuel →
          openAll env fuel index (path :: paths) loader =
            match dlopen env (libsLength + 1) (.top index path) loader with
            | .ok (some _) after => openAll env fuel (index + 1) paths after
            | .ok none after => .error .exit after
            | .error stop after => .error stop after := by
        intro fuel hfuel
        rw [openAll_cons, dlopen_fuel env _ loader htidy.2 hfuel]
      cases hresult : dlopen env (libsLength + 1) (.top index path) loader with
      | ok value after =>
          rw [hresult] at hsame hafter
          cases value with
          | none =>
              rw [hsame (libsLength + 1) (by omega)]
              exact ⟨hsame, by simp [stopOf], hafter⟩
          | some h =>
              rw [hsame (libsLength + 1) (by omega)]
              have hrest := ih (index + 1) after hafter
              exact ⟨fun fuel hfuel => (hsame fuel hfuel).trans (hrest.1 fuel hfuel),
                hrest.2⟩
      | error stop after =>
          rw [hresult] at hsame hafter hstop
          rw [hsame (libsLength + 1) (by omega)]
          exact ⟨hsame, fun reason hreason => .inl (hstop reason hreason), hafter⟩

/-- Every call of `dlopen` returns or fails an assertion, whatever the LOAD
records say, and in the whole process `dlload` calls `dlopen` at most 16
times. -/
theorem loading_terminates (env : Env)
    (hformed : ∀ call, env.Accepts call → (env.table call).isSome) :
    (∀ call loader, loader.libs.length ≤ libsLength →
      ∃ result, (∀ fuel, libsLength < fuel → dlopen env fuel call loader = result) ∧
        ∀ stop ∈ stopOf result, stop = .assert) ∧
    ∀ paths, ∃ result,
      (∀ fuel, libsLength < fuel → openAll env fuel 0 paths .init = result) ∧
      (∀ stop ∈ stopOf result, stop = .assert ∨ stop = .exit) ∧
      ((final result).opens.filterMap Call.loadName?).length ≤ libsLength := by
  constructor
  · intro call loader hlibs
    refine ⟨_, fun fuel hfuel => dlopen_fuel env call loader hlibs hfuel, ?_⟩
    exact (dlopen_exec env call hlibs).stop_eq hformed
  · intro paths
    have hinit : Loader.init.Tidy := ⟨rfl, Nat.zero_le _⟩
    obtain ⟨hsame, hstop, htidy⟩ := openAll_ends hformed paths 0 .init hinit
    exact ⟨_, hsame, hstop, htidy.1 ▸ htidy.2⟩

end Termination

/-! ## A disk -/

/-- A system on which the files exist that are listed, and no call fails for
them. -/
def Env.disk (files : List (Path × List Byte)) : Env where
  content path := (files.lookup path).getD []
  openFd call := if (files.lookup call.path).isSome then 3 else -1
  read call := min hdrSize ((files.lookup call.path).getD []).length
  read_le _ := ⟨min_le_left _ _, min_le_right _ _⟩
  stale _ := List.replicate hdrSize 0
  mmap
    | .top index _ => some (0x100000 + 0x10000 * UInt64.ofNat index)
    | .load name =>
        some (0x200000 + 0x10000 * UInt64.ofNat ((files.map Prod.fst).idxOf name))

theorem disk_formed (files : List (Path × List Byte))
    (hformed : ∀ path ∈ files.map Prod.fst,
      ((Env.disk files).table (.load path)).isSome) (call : Call)
    (haccepts : (Env.disk files).Accepts call) :
    ((Env.disk files).table call).isSome := by
  have hfile : (files.lookup call.path).isSome := by
    have hfd : 0 ≤ (Env.disk files).openFd call := haccepts.1
    simp only [Env.disk] at hfd
    split_ifs at hfd with hsome
    · exact hsome
    · omega
  have hpath : call.path ∈ files.map Prod.fst := by
    obtain ⟨content, hcontent⟩ := Option.isSome_iff_exists.mp hfile
    obtain ⟨before, after, rfl, -⟩ := List.lookup_eq_some_iff.mp hcontent
    simp
  cases call with
  | top index path => exact hformed path hpath
  | load name => exact hformed name hpath

/-- The file with these records. -/
def library (directives : List Directive) (code : List Stmt) : List Byte :=
  (assemble (source directives code)).getD []

/-- Two libraries that load each other, themselves and a missing file. -/
def tangled : List (Path × List Byte) :=
  [(bytes "main.dl", library [.LOAD (bytes "lib.dl"), .LOAD (bytes "gone.dl")] []),
    (bytes "lib.dl", library [.LOAD (bytes "main.dl"), .LOAD (bytes "lib.dl")] [])]

theorem tangled_terminates :
    (∀ call, (Env.disk tangled).Accepts call →
      ((Env.disk tangled).table call).isSome) ∧
    ∃ result, (∀ fuel, libsLength < fuel →
      openAll (Env.disk tangled) fuel 0 [bytes "main.dl"] .init = result) ∧
      ((final result).opens.filterMap Call.loadName?).length ≤ libsLength := by
  have hformed := disk_formed tangled (by decide +kernel)
  obtain ⟨result, hresult, -, hloads⟩ :=
    (loading_terminates (Env.disk tangled) hformed).2 [bytes "main.dl"]
  exact ⟨hformed, result, hresult, hloads⟩

end JyyOS.Dl
