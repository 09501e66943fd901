import JyyOS.Dl.Graph
import Mathlib.Data.List.TakeWhile

/-!
# Failed loads

`dlopen` returns NULL when a check fails, but `dlload` does not look at what it
returns, and the check of `read` compares unsigned numbers.  A process sees
every failure when every open that its LOAD records lead to succeeds.
-/

namespace JyyOS.Dl

open JyyOS.ByteImage

/-! ## Mapped records -/

/-- What the loader never writes in a record. -/
def Symbol.kind (sym : Symbol) : Byte × Path := (sym.type, sym.name)

/-- The records in memory are those of the file, up to their offsets. -/
def Loader.Faithful (env : Env) (loader : Loader) : Prop :=
  ∀ mapping ∈ loader.maps, ∃ symbols, env.table mapping.call = some symbols ∧
    mapping.symbols.map Symbol.kind = symbols.map Symbol.kind

section Faithful

variable {env : Env} {loader after : Loader} {task : Task} {stop : Option Stop}

theorem kinds_modify (symbols : List Symbol) (k : ℕ) (addr : UInt64) :
    (symbols.modify k fun sym => { sym with offset := addr }).map Symbol.kind =
      symbols.map Symbol.kind := by
  apply map_modify_eq
  intro sym
  rfl

theorem Loader.Faithful.patch (hfaithful : loader.Faithful env) (h k : ℕ)
    (addr : UInt64) : (loader.patch h k addr).Faithful env := by
  intro mapping hmapping
  obtain ⟨i, hi⟩ := List.mem_iff_getElem?.mp hmapping
  rw [Loader.patch, List.getElem?_modify] at hi
  obtain ⟨other, hother, rfl⟩ := Option.map_eq_some_iff.mp hi
  obtain ⟨symbols, htable, hkinds⟩ := hfaithful other (List.mem_of_getElem? hother)
  split_ifs
  · exact ⟨symbols, htable, (kinds_modify other.symbols k addr).trans hkinds⟩
  · exact ⟨symbols, htable, hkinds⟩

theorem Exec.faithful (hexec : Exec env loader task stop after)
    (hbefore : loader.Faithful env) : after.Faithful env := by
  induction hexec with
  | refused | faulted | done | full | unresolved | crowded => exact hbefore
  | accepted _ _ htable _ ih | interrupted _ _ htable _ ih =>
      apply ih
      intro mapping hmapping
      obtain hmapping | hnew := List.mem_append.mp hmapping
      · exact hbefore mapping hmapping
      · cases List.mem_singleton.mp hnew
        exact ⟨_, htable, rfl⟩
  | known _ _ _ ih => exact ih hbefore
  | resolved _ _ _ ih => exact ih (hbefore.patch _ _ _)
  | exported _ _ _ ih => exact ih hbefore
  | ignored _ _ ih => exact ih hbefore
  | loaded _ _ _ _ _ ihOpen ihRest => exact ihRest (ihOpen hbefore)
  | stopped _ _ _ _ ih => exact ih hbefore

/-- A LOAD record in memory is one of the file. -/
theorem Loader.Faithful.loads_iff (hfaithful : loader.Faithful env)
    {mapping : Mapping} (hmapping : mapping ∈ loader.maps) (name : Path) :
    env.Loads mapping.call name ↔
      ∃ sym ∈ mapping.symbols, sym.type = '+'.toUInt8 ∧ sym.name = name := by
  obtain ⟨symbols, htable, hkinds⟩ := hfaithful mapping hmapping
  have hmem : ∀ symbols : List Symbol,
      (∃ sym ∈ symbols, sym.type = '+'.toUInt8 ∧ sym.name = name) ↔
        ('+'.toUInt8, name) ∈ symbols.map Symbol.kind := by
    intro symbols
    simp [Symbol.kind, List.mem_map]
  rw [hmem, hkinds, ← hmem]
  constructor
  · rintro ⟨_, htable', hsym⟩
    rw [htable, Option.some_inj] at htable'
    exact htable' ▸ hsym
  · exact fun hsym => ⟨symbols, htable, hsym⟩

end Faithful

/-! ## Returned libraries -/

/-- What is known of a library that was returned: whatever it loads was opened, and is
mapped if the checks passed. -/
def Loader.Returns (env : Env) (loader : Loader) : Prop :=
  ∀ h ∈ loader.returned, ∃ call, loader.calls[h]? = some call ∧ env.Accepts call ∧
    ∀ name, env.Loads call name → .load name ∈ loader.opens ∧
      (env.Accepts (.load name) → .load name ∈ loader.calls)

/-- The names in `libs` are opened, up to the call that is about to be made. -/
def Task.Listed (loader : Loader) : Task → Prop
  | .open call => ∀ name ∈ loader.libs, .load name ∈ loader.opens ∨ .load name = call
  | .walk .. => ∀ name ∈ loader.libs, .load name ∈ loader.opens

section Returned

variable {env : Env} {loader after : Loader} {task : Task} {stop : Option Stop}

/-- Libraries stay where they are in `maps`. -/
theorem Exec.calls_prefix (hexec : Exec env loader task stop after) :
    loader.calls <+: after.calls := by
  induction hexec with
  | refused | faulted | done | full | unresolved | crowded => exact List.prefix_refl _
  | accepted _ _ _ _ ih | interrupted _ _ _ _ ih =>
      refine List.IsPrefix.trans ?_ ih
      simp [Loader.opened, Loader.mapped, Loader.calls]
  | known _ _ _ ih => exact ih
  | resolved _ _ _ ih =>
      rw [Loader.calls_patch] at ih
      exact ih
  | exported _ _ _ ih => exact ih
  | ignored _ _ ih => exact ih
  | loaded _ _ _ _ _ ihOpen ihRest => exact ihOpen.trans ihRest
  | stopped _ _ _ _ ih => exact ih

theorem getElem?_of_prefix {α : Type*} {first second : List α} (hle : first <+: second)
    {i : ℕ} {value : α} (hvalue : first[i]? = some value) : second[i]? = some value := by
  obtain ⟨more, rfl⟩ := hle
  rw [List.getElem?_append_left (List.getElem?_eq_some_iff.mp hvalue).1]
  exact hvalue

/-- No library is returned, and nothing is taken back. -/
theorem Loader.Returns.mono (hreturns : loader.Returns env)
    (hreturned : after.returned = loader.returned) (hcalls : loader.calls <+: after.calls)
    (hopens : loader.opens ⊆ after.opens) : after.Returns env := by
  intro h hh
  rw [hreturned] at hh
  obtain ⟨call, hcall, haccepts, hloads⟩ := hreturns h hh
  refine ⟨call, getElem?_of_prefix hcalls hcall, haccepts, fun name hname => ?_⟩
  obtain ⟨hopened, hmapped⟩ := hloads name hname
  exact ⟨hopens hopened, fun hload => hcalls.subset (hmapped hload)⟩

/-- After a run every name in `libs` has been opened. -/
theorem Exec.listed (hexec : Exec env loader task stop after)
    (hbefore : task.Listed loader) : ∀ name ∈ after.libs, .load name ∈ after.opens := by
  obtain ⟨names, hlibs, hopens⟩ := hexec.trace
  intro name hname
  rw [hlibs, List.mem_append] at hname
  rw [hopens]
  obtain hname | hname := hname
  · cases task with
    | «open» call =>
        obtain hopened | rfl := hbefore name hname
        · exact List.mem_append_left _ hopened
        · simp [Task.first]
    | walk => exact List.mem_append_left _ (hbefore name hname)
  · simp [hname]

theorem Task.Listed.start {call : Call} (hlisted : (Task.open call).Listed loader)
    (base : UInt64) (symbols : List Symbol) :
    (Task.walk call loader.maps.length base 0 symbols).Listed
      ((loader.opened call).mapped call base symbols) := by
  intro name hname
  obtain hopened | rfl := hlisted name hname
  · exact List.mem_append_left _ hopened
  · simp [Loader.opened, Loader.mapped]

theorem Task.Listed.load {call : Call} {h k : ℕ} {base : UInt64} {symbols : List Symbol}
    (hlisted : (Task.walk call h base k symbols).Listed loader) (name : Path) :
    (Task.open (.load name)).Listed (loader.listed name) := by
  intro other hother
  obtain hold | hself := List.mem_append.mp hother
  · exact .inl (hlisted other hold)
  · exact .inr (congrArg Call.load (List.mem_singleton.mp hself))

/-- A library that returns has followed all its LOAD records. -/
theorem Exec.returns (hexec : Exec env loader task stop after)
    (hbefore : loader.Returns env) (hlisted : task.Listed loader)
    (hcalls : loader.calls = loader.opens.filter env.Accepts) : after.Returns env := by
  induction hexec with
  | refused | faulted =>
      exact hbefore.mono rfl (List.prefix_refl _) (List.subset_append_left _ _)
  | done | full | unresolved | crowded => exact hbefore
  | @accepted loader after call base symbols haccepts _ htable hwalk ih =>
      have hmapped : ((loader.opened call).mapped call base symbols).calls =
          ((loader.opened call).mapped call base symbols).opens.filter env.Accepts := by
        simpa [Loader.opened, Loader.mapped, Loader.calls, haccepts] using hcalls
      have hlistedWalk := hlisted.start base symbols
      have hwalked := ih (hbefore.mono rfl
        (by simp [Loader.opened, Loader.mapped, Loader.calls])
        (List.subset_append_left _ _)) hlistedWalk hmapped
      intro h hh
      obtain hold | hnew := List.mem_append.mp hh
      · exact hwalked h hold
      · cases List.mem_singleton.mp hnew
        refine ⟨call, ?_, haccepts, ?_⟩
        · apply getElem?_of_prefix hwalk.calls_prefix
          simp [Loader.opened, Loader.mapped, Loader.calls]
        · rintro name ⟨_, htable', sym, hsym, htype, rfl⟩
          rw [htable, Option.some_inj] at htable'
          subst htable'
          have hname := (hwalk.closed rfl).1 sym hsym htype
          have hopened := hwalk.listed hlistedWalk sym.name hname
          refine ⟨hopened, fun hload => ?_⟩
          show _ ∈ after.calls
          rw [(hwalk.calls hmapped).2 (by simp), List.mem_filter]
          exact ⟨hopened, decide_eq_true hload⟩
  | @interrupted loader after call base symbols stop haccepts _ htable hwalk ih =>
      apply ih
      · exact hbefore.mono rfl (by simp [Loader.opened, Loader.mapped, Loader.calls])
          (List.subset_append_left _ _)
      · exact hlisted.start base symbols
      · simpa [Loader.opened, Loader.mapped, Loader.calls, haccepts] using hcalls
  | known _ _ _ ih => exact ih hbefore hlisted hcalls
  | resolved _ _ _ ih =>
      apply ih
      · exact hbefore.mono rfl (by rw [Loader.calls_patch]) (List.Subset.refl _)
      · exact hlisted
      · rw [Loader.calls_patch]
        exact hcalls
  | exported _ _ _ ih => exact ih hbefore hlisted hcalls
  | ignored _ _ ih => exact ih hbefore hlisted hcalls
  | @loaded loader middle after call h k base sym symbols stop _ _ _ hopen _ ihOpen ihRest =>
      have hlistedOpen := hlisted.load sym.name
      exact ihRest (ihOpen hbefore hlistedOpen hcalls) (hopen.listed hlistedOpen)
        ((hopen.calls hcalls).2 (by simp))
  | @stopped loader after call h k base sym symbols stop _ _ _ _ ih =>
      exact ih hbefore (hlisted.load sym.name) hcalls

/-- A call returns NULL exactly when the checks fail. -/
theorem Exec.failed (hexec : Exec env loader task stop after)
    (hbefore : loader.failed = loader.opens.filter (¬ env.Accepts ·)) :
    after.failed = after.opens.filter (¬ env.Accepts ·) := by
  induction hexec with
  | refused hrefused =>
      simpa [Loader.refused, Loader.opened, hrefused] using hbefore
  | faulted haccepts => simpa [Loader.opened, haccepts] using hbefore
  | accepted haccepts _ _ _ ih | interrupted haccepts _ _ _ ih =>
      apply ih
      simpa [Loader.opened, Loader.mapped, haccepts] using hbefore
  | done | full | unresolved | crowded => exact hbefore
  | known _ _ _ ih => exact ih hbefore
  | resolved _ _ _ ih => exact ih hbefore
  | exported _ _ _ ih => exact ih hbefore
  | ignored _ _ ih => exact ih hbefore
  | loaded _ _ _ _ _ ihOpen ihRest => exact ihRest (ihOpen hbefore)
  | stopped _ _ _ _ ih => exact ih hbefore

/-- `dlopen` itself does not call `exit`. -/
theorem Exec.stop_ne_exit (hexec : Exec env loader task stop after) :
    stop ≠ some .exit := by
  induction hexec with
  | refused | faulted | done | full | unresolved | crowded => simp
  | accepted => simp
  | interrupted _ _ _ _ ih => exact ih
  | known _ _ _ ih => exact ih
  | resolved _ _ _ ih => exact ih
  | exported _ _ _ ih => exact ih
  | ignored _ _ ih => exact ih
  | loaded _ _ _ _ _ _ ihRest => exact ihRest
  | stopped _ _ _ _ ih => exact ih

/-- A run that returns leaves no library of its own in progress. -/
theorem Exec.all_returned (hexec : Exec env loader task stop after) (hreturns : stop = none)
    (progress : Set ℕ)
    (hbefore : ∀ h < loader.maps.length, h ∈ loader.returned ∨ h ∈ progress) :
    ∀ h < after.maps.length, h ∈ after.returned ∨ h ∈ progress := by
  induction hexec generalizing progress with
  | refused | done => exact hbefore
  | faulted | interrupted | stopped | full | unresolved | crowded => cases hreturns
  | @accepted loader after call base symbols _ _ _ _ ih =>
      intro h hlt
      have hwalked := ih hreturns (insert loader.maps.length progress) (fun h hlt => by
        rw [Loader.mapped, List.length_append, List.length_singleton] at hlt
        obtain hold | rfl := Nat.lt_succ_iff_lt_or_eq.mp hlt
        · exact (hbefore h hold).imp_right (Set.mem_insert_of_mem _)
        · exact .inr (Set.mem_insert _ _)) h hlt
      obtain hreturned | rfl | hprogress := hwalked
      · exact .inl (List.mem_append_left _ hreturned)
      · exact .inl (List.mem_append_right _ (List.mem_singleton_self _))
      · exact .inr hprogress
  | known _ _ _ ih => exact ih hreturns progress hbefore
  | resolved _ _ _ ih =>
      apply ih hreturns progress
      rw [Loader.patch, List.length_modify]
      exact hbefore
  | exported _ _ _ ih => exact ih hreturns progress hbefore
  | ignored _ _ ih => exact ih hreturns progress hbefore
  | loaded _ _ _ _ _ ihOpen ihRest =>
      exact ihRest hreturns progress (ihOpen rfl progress hbefore)

end Returned

/-! ## Processes -/

section Process

variable {env : Env} {roots : List Call} {loader after : Loader}

/-- The calls for the arguments of the command line. -/
def tops (index : ℕ) (paths : List Path) : List Call :=
  (paths.zipIdx index).map fun argument => .top argument.2 argument.1

/-- The arguments before the first one that fails itself, which ends the process. -/
def Env.started (env : Env) (index : ℕ) (paths : List Path) : List Call :=
  (tops index paths).takeWhile fun call => env.Accepts call

theorem started_cons_of_accepts {index : ℕ} {path : Path} {paths : List Path}
    (haccepts : env.Accepts (.top index path)) :
    env.started index (path :: paths) =
      .top index path :: env.started (index + 1) paths := by
  simp [Env.started, tops, haccepts]

theorem started_cons_of_refused {index : ℕ} {path : Path} {paths : List Path}
    (hrefused : ¬ env.Accepts (.top index path)) :
    env.started index (path :: paths) = [] := by
  simp [Env.started, tops, hrefused]

/-- A call that fails itself opens nothing else. -/
theorem Env.Reaches.eq_of_refused {call other : Call} (hreaches : env.Reaches call other)
    (hrefused : ¬ env.Accepts call) : other = call := by
  obtain rfl | ⟨_, hedge, -⟩ := hreaches.cases_head
  · rfl
  · exact absurd hedge.1 hrefused

/-- What holds of the tables of a process, also when it has been stopped. -/
structure Loader.Tracked (env : Env) (loader : Loader) : Prop where
  faithful : loader.Faithful env
  returns : loader.Returns env
  listed : ∀ name, name ∈ loader.libs ↔ .load name ∈ loader.opens
  calls : loader.calls ⊆ loader.opens
  failed : loader.failed = loader.opens.filter (¬ env.Accepts ·)

theorem Loader.Tracked.init (env : Env) : Loader.init.Tracked env where
  faithful _ hmapping := absurd hmapping List.not_mem_nil
  returns _ hh := absurd hh List.not_mem_nil
  listed name := by simp [Loader.init]
  calls := List.nil_subset _
  failed := rfl

theorem Loader.Tracked.exec {index : ℕ} {path : Path} {stop : Option Stop}
    (htracked : loader.Tracked env) (hcalls : loader.calls = loader.opens.filter env.Accepts)
    (hexec : Exec env loader (.open (.top index path)) stop after) :
    after.Tracked env where
  faithful := hexec.faithful htracked.faithful
  returns := hexec.returns htracked.returns
    (fun name hname => .inl ((htracked.listed name).mp hname)) hcalls
  listed name := by
    obtain ⟨names, hlibs, hopens⟩ := hexec.trace
    simp [hlibs, hopens, htracked.listed, Task.first]
  calls := ((hexec.calls hcalls).1.trans List.filter_sublist).subset
  failed := hexec.failed htracked.failed

/-- The tables of a process that no assertion stops: all calls for the arguments have
been made that it came to, and all libraries were returned. -/
structure Loader.Ended (env : Env) (roots : List Call) (loader : Loader) : Prop where
  settled : loader.Settled env roots
  returned : ∀ h < loader.maps.length, h ∈ loader.returned

/-- How a process goes: each of its calls comes from an argument before the first that
fails, and an argument that fails itself opens nothing else. -/
theorem openAll_runs (extra : ℕ) (paths : List Path) (index : ℕ)
    (hended : loader.Ended env roots) (htracked : loader.Tracked env) :
    (final (openAll env (libsLength + 1 + extra) index paths loader)).Tracked env ∧
    (∀ call ∈ (final (openAll env (libsLength + 1 + extra) index paths loader)).opens,
      call ∈ loader.opens ∨ (∃ root ∈ env.started index paths, env.Reaches root call) ∨
        call ∈ tops index paths ∧ ¬ env.Accepts call) ∧
    (stopOf (openAll env (libsLength + 1 + extra) index paths loader) ∈
        [none, some .exit] →
      ∃ more, (final (openAll env (libsLength + 1 + extra) index paths loader)).Ended env
          (roots ++ more) ∧
        ∀ root, env.Accepts root → (root ∈ more ↔ root ∈ env.started index paths)) := by
  induction paths generalizing index loader roots with
  | nil =>
      refine ⟨htracked, fun call hcall => .inl hcall, fun _ => ⟨[], ?_, ?_⟩⟩
      · rwa [List.append_nil]
      · intro root _
        simp [Env.started, tops]
  | cons path paths ih =>
      have hlibs := hended.settled.libs_le
      have hexec := dlopen_exec env (.top index path) hlibs
      have hreaches := hexec.reaches trivial
      have htracked' := htracked.exec hended.settled.calls_eq hexec
      have hnext : tops index (path :: paths) = .top index path :: tops (index + 1) paths := rfl
      rw [openAll_cons, dlopen_fuel env _ loader hlibs (by omega)]
      cases hresult : dlopen env (libsLength + 1) (.top index path) loader with
      | error stop middle =>
          rw [hresult] at hexec hreaches htracked'
          refine ⟨htracked', ?_, ?_⟩
          · intro call hcall
            obtain hold | hreached := hreaches call hcall
            · exact .inl hold
            · by_cases haccepts : env.Accepts (.top index path)
              · rw [started_cons_of_accepts haccepts]
                exact .inr (.inl ⟨_, List.mem_cons_self, hreached⟩)
              · cases hreached.eq_of_refused haccepts
                exact .inr (.inr ⟨List.mem_cons_self, haccepts⟩)
          · have hstop := hexec.stop_ne_exit
            intro hstopped
            simp only [stopOf, List.mem_cons, reduceCtorEq, Option.some.injEq,
              List.not_mem_nil, or_false, false_or] at hstopped
            exact absurd (congrArg some hstopped) hstop
      | ok value middle =>
          rw [hresult] at hexec hreaches htracked'
          have hended' : middle.Ended env (roots ++ [.top index path]) := by
            refine ⟨hended.settled.step hexec, fun h hlt => ?_⟩
            exact (hexec.all_returned rfl ∅ (fun h hlt => .inl (hended.returned h hlt)) h
              hlt).resolve_right (Set.notMem_empty h)
          obtain ⟨haccepts, rfl⟩ | ⟨hrefused, rfl, -⟩ := dlopen_value hresult
          · obtain ⟨htracked'', hopens, hends⟩ := ih (index + 1) hended' htracked'
            rw [started_cons_of_accepts haccepts]
            refine ⟨htracked'', fun call hcall => ?_, fun hstop => ?_⟩
            · obtain hmiddle | ⟨root, hroot, hreached⟩ | ⟨htop, hrefused⟩ := hopens call hcall
              · obtain hold | hreached := hreaches call hmiddle
                · exact .inl hold
                · exact .inr (.inl ⟨_, List.mem_cons_self, hreached⟩)
              · exact .inr (.inl ⟨root, List.mem_cons_of_mem _ hroot, hreached⟩)
              · exact .inr (.inr ⟨List.mem_cons_of_mem _ htop, hrefused⟩)
            · obtain ⟨more, hended'', hmore⟩ := hends hstop
              refine ⟨.top index path :: more, ?_, fun root hroot => ?_⟩
              · rwa [List.append_cons]
              · simp only [List.mem_cons, hmore root hroot]
          · rw [started_cons_of_refused hrefused]
            refine ⟨htracked', fun call hcall => ?_, fun _ => ⟨[.top index path], hended', ?_⟩⟩
            · obtain hold | hreached := hreaches call hcall
              · exact .inl hold
              · cases hreached.eq_of_refused hrefused
                exact .inr (.inr ⟨List.mem_cons_self, hrefused⟩)
            · intro root hroot
              refine iff_of_false ?_ List.not_mem_nil
              intro hmem
              exact hrefused (List.mem_singleton.mp hmem ▸ hroot)

end Process

/-! ## Reports -/

section Reports

variable {env : Env} {roots : List Call} {loader : Loader}

/-- Every library that was returned was read as a whole, has the magic and has all its
libraries opened, and none that failed is in `libs`. -/
def Loader.Reported (env : Env) (loader : Loader) : Prop :=
  (∀ h ∈ loader.returned, ∀ mapping ∈ loader.maps[h]?,
    env.read mapping.call = hdrSize ∧ (env.content mapping.call.path).take 4 = magic ∧
    ∀ sym ∈ mapping.symbols, sym.type = '+'.toUInt8 →
      .load sym.name ∈ loader.calls) ∧
  ∀ name ∈ loader.libs, .load name ∉ loader.failed

/-- The checks pass for every library that `dlload` opens, and `read` does not fail for
one that is returned. -/
def Loader.Unfailing (env : Env) (loader : Loader) : Prop :=
  (∀ name, .load name ∈ loader.opens → env.Accepts (.load name)) ∧
  ∀ h ∈ loader.returned, ∀ call ∈ loader.calls[h]?, 0 ≤ env.read call

/-- Whatever the LOAD records lead to from here can be opened, and `read` does
not fail for it. -/
def Env.Succeeds (env : Env) (root : Call) : Prop :=
  ∀ call, env.Reaches root call → env.Accepts call ∧ 0 ≤ env.read call

theorem read_eq {call : Call} (haccepts : env.Accepts call)
    (hread : 0 ≤ env.read call) : env.read call = hdrSize := by
  have hle : env.read call ≤ 12 := (env.read_le call).1
  have hshort : ¬ env.read call % 2 ^ 64 < 12 := haccepts.2.1
  show env.read call = 12
  omega

/-- Once the header was read, its magic is that of the file. -/
theorem content_magic {call : Call} (haccepts : env.Accepts call)
    (hread : env.read call = hdrSize) :
    (env.content call.path).take 4 = magic := by
  have hlength : 12 ≤ (env.content call.path).length := by
    have hle := (env.read_le call).2
    rw [hread] at hle
    exact_mod_cast hle
  have hmagic : load 0 4 (env.hdr call) = magic := haccepts.2.2.1
  rw [← hmagic, Env.hdr, hread]
  show _ = List.take 4 (List.take 12 (env.content call.path) ++ _)
  rw [List.take_append_of_le_length (by rw [List.length_take]; omega), List.take_take]
  rfl

theorem Loader.Tracked.reported_iff (htracked : loader.Tracked env) :
    loader.Reported env ↔ loader.Unfailing env := by
  constructor
  · rintro ⟨hreturned, hlibs⟩
    refine ⟨fun name hopened => ?_, fun h hh call hcall => ?_⟩
    · have hfailed := hlibs name ((htracked.listed name).mpr hopened)
      rw [htracked.failed] at hfailed
      by_contra hrefused
      exact hfailed (List.mem_filter.mpr ⟨hopened, by simpa using hrefused⟩)
    · rw [Loader.calls, List.getElem?_map] at hcall
      obtain ⟨mapping, hmapping, rfl⟩ := Option.map_eq_some_iff.mp hcall
      rw [(hreturned h hh mapping hmapping).1]
      exact Int.natCast_nonneg _
  · rintro ⟨hopens, hreads⟩
    refine ⟨fun h hh mapping hmapping => ?_, fun name hname hfailed => ?_⟩
    · obtain ⟨call, hcall, haccepts, hloads⟩ := htracked.returns h hh
      have hself : call = mapping.call := by
        rw [Loader.calls, List.getElem?_map, hmapping] at hcall
        exact (Option.some.inj hcall).symm
      have hread := read_eq haccepts (hreads h hh call hcall)
      subst hself
      refine ⟨hread, content_magic haccepts hread, fun sym hsym htype => ?_⟩
      obtain ⟨hopened, hmapped⟩ := hloads sym.name
        ((htracked.faithful.loads_iff (List.mem_of_getElem? hmapping) sym.name).mpr
          ⟨sym, hsym, htype, rfl⟩)
      exact hmapped (hopens sym.name hopened)
    · rw [htracked.failed, List.mem_filter] at hfailed
      have haccepts := hopens name ((htracked.listed name).mp hname)
      simp [haccepts] at hfailed

theorem load_not_mem_tops (name : Path) (index : ℕ) (paths : List Path) :
    Call.load name ∉ tops index paths := by
  simp [tops]

/-- The calls that were made succeed when the graph says so. -/
theorem Loader.Tracked.unfailing {index : ℕ} {paths : List Path}
    (htracked : loader.Tracked env)
    (hopens : ∀ call ∈ loader.opens,
      (∃ root ∈ env.started index paths, env.Reaches root call) ∨
        call ∈ tops index paths ∧ ¬ env.Accepts call)
    (hsucceeds : ∀ root ∈ env.started index paths, env.Succeeds root) :
    loader.Unfailing env := by
  refine ⟨fun name hopened => ?_, fun h hh call hcall => ?_⟩
  · obtain ⟨root, hroot, hreached⟩ | ⟨htop, -⟩ := hopens _ hopened
    · exact (hsucceeds root hroot _ hreached).1
    · exact absurd htop (load_not_mem_tops name index paths)
  · obtain ⟨found, hfound, haccepts, -⟩ := htracked.returns h hh
    rw [hcall] at hfound
    cases hfound
    obtain ⟨root, hroot, hreached⟩ | ⟨-, hrefused⟩ :=
      hopens call (htracked.calls (List.mem_of_getElem? hcall))
    · exact (hsucceeds root hroot call hreached).2
    · exact absurd haccepts hrefused

/-- In a process that no assertion stops the graph is followed to its end. -/
theorem Loader.Ended.succeeds (hended : loader.Ended env roots)
    (hunfailing : loader.Unfailing env) {root : Call} (hroot : root ∈ roots)
    (haccepts : env.Accepts root) : env.Succeeds root := by
  obtain ⟨hopens, hreads⟩ := hunfailing
  have hsettled := hended.settled
  intro call hreaches
  have hcallAccepts : env.Accepts call := by
    obtain rfl | ⟨middle, hreached, -, name, -, rfl⟩ := hreaches.cases_tail
    · exact haccepts
    · exact hopens name ((hsettled.mem_opens_iff _).mpr ⟨root, hroot, hreaches⟩)
  refine ⟨hcallAccepts, ?_⟩
  obtain ⟨h, hlt, hcall⟩ := List.mem_iff_getElem.mp
    ((hsettled.mem_calls_iff call).mpr ⟨⟨root, hroot, hreaches⟩, hcallAccepts⟩)
  have hmapped : h < loader.maps.length := by
    rwa [Loader.calls, List.length_map] at hlt
  exact hreads h (hended.returned h hmapped) call (List.getElem?_eq_some_iff.mpr ⟨hlt, hcall⟩)

instance (env : Env) (loader : Loader) : Decidable (loader.Reported env) :=
  inferInstanceAs (Decidable (_ ∧ _))

/-- A process has reported every failure exactly when there was none to report: the
libraries that `dlload` opened pass the checks, and the headers of those that were
returned have been read.  When no assertion stops it, these are the libraries that
the arguments before the first failing one lead to. -/
theorem failures_reported_iff (env : Env) (paths : List Path) (extra : ℕ) :
    ((final (openAll env (libsLength + 1 + extra) 0 paths .init)).Reported env ↔
      (final (openAll env (libsLength + 1 + extra) 0 paths .init)).Unfailing env) ∧
    ((∀ call ∈ env.started 0 paths, env.Succeeds call) →
      (final (openAll env (libsLength + 1 + extra) 0 paths .init)).Reported env) ∧
    (stopOf (openAll env (libsLength + 1 + extra) 0 paths .init) ∈ [none, some .exit] →
      ((final (openAll env (libsLength + 1 + extra) 0 paths .init)).Reported env ↔
        ∀ call ∈ env.started 0 paths, env.Succeeds call)) := by
  obtain ⟨htracked, hopens, hends⟩ := openAll_runs extra paths 0
    ⟨.init env, nofun⟩ (.init env)
  replace hopens := fun call hcall =>
    (hopens call hcall).resolve_left List.not_mem_nil
  have hsufficient := fun hsucceeds =>
    htracked.reported_iff.mpr (htracked.unfailing hopens hsucceeds)
  refine ⟨htracked.reported_iff, hsufficient, fun hstop => ⟨fun hreported => ?_, hsufficient⟩⟩
  obtain ⟨more, hended, hmore⟩ := hends hstop
  intro root hroot
  have haccepts : env.Accepts root := by
    simpa using (List.mem_takeWhile_imp hroot)
  exact hended.succeeds (htracked.reported_iff.mp hreported)
    (List.mem_append_right _ ((hmore root haccepts).mpr hroot)) haccepts

end Reports

/-- A library that loads a missing file. -/
def dangling : List (Path × List Byte) :=
  [(bytes "main.dl", library [.LOAD (bytes "gone.dl")] [])]

theorem dangling_not_reported :
    stopOf (openAll (Env.disk dangling) (libsLength + 1) 0 [bytes "main.dl"] .init) =
      none ∧
    ¬ (final (openAll (Env.disk dangling) (libsLength + 1) 0 [bytes "main.dl"]
      .init)).Reported (Env.disk dangling) := by
  constructor
  · decide +kernel
  · decide +kernel

/-- The missing file is behind an import that nobody exports. -/
def unreached : List (Path × List Byte) :=
  [(bytes "main.dl", library [.IMPORT (bytes "x"), .LOAD (bytes "gone.dl")] [])]

/-- A process that asserts before it comes to the missing file, and one that opens the
diamond and then an argument that is missing. -/
theorem diamond_reported :
    (stopOf (openAll (Env.disk unreached) (libsLength + 1) 0 [bytes "main.dl"] .init) =
      some .assert ∧
    (final (openAll (Env.disk unreached) (libsLength + 1) 0 [bytes "main.dl"]
      .init)).Reported (Env.disk unreached)) ∧
    stopOf (openAll (Env.disk diamond) (libsLength + 1) 0 [bytes "main.dl", bytes "gone.dl"]
      .init) = some .exit ∧
    (final (openAll (Env.disk diamond) (libsLength + 1) 0 [bytes "main.dl", bytes "gone.dl"]
      .init)).Reported (Env.disk diamond) ∧
    ∀ call ∈ (Env.disk diamond).started 0 [bytes "main.dl", bytes "gone.dl"],
      (Env.disk diamond).Succeeds call := by
  obtain ⟨hexactUnreached, -⟩ := failures_reported_iff (Env.disk unreached)
    [bytes "main.dl"] 0
  obtain ⟨-, -, hexact⟩ := failures_reported_iff (Env.disk diamond)
    [bytes "main.dl", bytes "gone.dl"] 0
  have hopens : (final (openAll (Env.disk unreached) (libsLength + 1) 0 [bytes "main.dl"]
      .init)).opens = [.top 0 (bytes "main.dl")] := by
    decide +kernel
  have hreturned : (final (openAll (Env.disk unreached) (libsLength + 1) 0 [bytes "main.dl"]
      .init)).returned = [] := by
    decide +kernel
  have hstop : stopOf (openAll (Env.disk diamond) (libsLength + 1) 0
      [bytes "main.dl", bytes "gone.dl"] .init) = some .exit := by
    decide +kernel
  have hreported : (final (openAll (Env.disk diamond) (libsLength + 1) 0
      [bytes "main.dl", bytes "gone.dl"] .init)).Reported (Env.disk diamond) := by
    decide +kernel
  refine ⟨⟨by decide +kernel, hexactUnreached.mpr ⟨fun name hname => ?_, fun h hh => ?_⟩⟩,
    hstop, hreported, (hexact (by rw [hstop]; decide)).mp hreported⟩
  · rw [hopens] at hname
    simp at hname
  · rw [hreturned] at hh
    simp at hh

end JyyOS.Dl
