import JyyOS.Dl.Termination

/-!
# Runs and the LOAD graph

The calls of `dlopen` as vertices: a call that passes the checks has an edge to
each of the libraries that its LOAD records name.  A run opens only what can be
reached, and when it returns it has opened all of that.
-/

namespace JyyOS.Dl

open JyyOS.ByteImage

namespace Env

variable (env : Env)

instance (call : Call) : Decidable (env.Accepts call) :=
  inferInstanceAs (Decidable (_ ∧ _))

/-- The table of the library has a LOAD record with this name. -/
def Loads (call : Call) (name : Path) : Prop :=
  ∃ symbols, env.table call = some symbols ∧
    ∃ sym ∈ symbols, sym.type = '+'.toUInt8 ∧ sym.name = name

def Edge (call next : Call) : Prop :=
  env.Accepts call ∧ ∃ name, env.Loads call name ∧ next = .load name

def Reaches : Call → Call → Prop := Relation.ReflTransGen env.Edge

end Env

/-- The calls that returned a library. -/
def Loader.calls (loader : Loader) : List Call := loader.maps.map Mapping.call

/-- A change that a function does not see. -/
theorem map_modify_eq {α β : Type*} {view : α → β} {change : α → α}
    (hview : ∀ value, view (change value) = view value) (values : List α) (i : ℕ) :
    (values.modify i change).map view = values.map view := by
  apply List.ext_getElem?
  intro j
  rw [List.getElem?_map, List.getElem?_modify, List.getElem?_map]
  cases values[j]? with
  | none => rfl
  | some value =>
      show some (view (if i = j then change value else value)) = some (view value)
      split_ifs
      · rw [hview]
      · rfl

/-- Patching a record moves no library. -/
@[simp]
theorem Loader.calls_patch (loader : Loader) (h k : ℕ) (addr : UInt64) :
    (loader.patch h k addr).calls = loader.calls := by
  apply map_modify_eq
  intro mapping
  rfl

section Exec

variable {env : Env} {loader after : Loader} {task : Task} {stop : Option Stop}

/-- The records of a task belong to the table of its library. -/
def Task.Of (env : Env) : Task → Prop
  | .open _ => True
  | .walk call _ _ _ symbols => env.Accepts call ∧
      ∀ sym ∈ symbols, sym.type = '+'.toUInt8 → env.Loads call sym.name

def Task.call : Task → Call
  | .open call => call
  | .walk call _ _ _ _ => call

theorem Task.Of.tail {call : Call} {h k : ℕ} {base : UInt64} {sym : Symbol}
    {symbols : List Symbol} (hof : (Task.walk call h base k (sym :: symbols)).Of env) :
    (Task.walk call h base (k + 1) symbols).Of env :=
  ⟨hof.1, fun other hother => hof.2 other (List.mem_cons_of_mem sym hother)⟩

theorem Task.Of.start {call : Call} {h : ℕ} {base : UInt64} {symbols : List Symbol}
    (haccepts : env.Accepts call) (htable : env.table call = some symbols) :
    (Task.walk call h base 0 symbols).Of env :=
  ⟨haccepts, fun sym hsym htype => ⟨symbols, htable, sym, hsym, htype, rfl⟩⟩

theorem Task.Of.edge {call : Call} {h k : ℕ} {base : UInt64} {sym : Symbol}
    {symbols : List Symbol} (hof : (Task.walk call h base k (sym :: symbols)).Of env)
    (htype : sym.type = '+'.toUInt8) : env.Edge call (.load sym.name) :=
  ⟨hof.1, sym.name, hof.2 sym List.mem_cons_self htype, rfl⟩

/-- A run opens only what its task reaches. -/
theorem Exec.reaches (hexec : Exec env loader task stop after)
    (hof : task.Of env) :
    ∀ call ∈ after.opens, call ∈ loader.opens ∨ env.Reaches task.call call := by
  have hopened : ∀ {loader : Loader} {call other : Call},
      other ∈ (loader.opened call).opens →
        other ∈ loader.opens ∨ env.Reaches call other := by
    intro loader call other hother
    obtain hbefore | hself := List.mem_append.mp hother
    · exact .inl hbefore
    · exact .inr (List.mem_singleton.mp hself ▸ .refl)
  induction hexec with
  | refused | faulted => exact fun call hcall => hopened hcall
  | done | full | unresolved | crowded => exact fun call hcall => .inl hcall
  | accepted haccepts _ htable _ ih | interrupted haccepts _ htable _ ih =>
      intro call hcall
      obtain hbefore | hreaches := ih (.start haccepts htable) call hcall
      · exact hopened hbefore
      · exact .inr hreaches
  | known _ _ _ ih => exact ih hof.tail
  | resolved _ _ _ ih => exact ih hof.tail
  | exported _ _ _ ih => exact ih hof.tail
  | ignored _ _ ih => exact ih hof.tail
  | loaded htype _ _ _ _ ihOpen ihRest =>
      intro call hcall
      obtain hmiddle | hreaches := ihRest hof.tail call hcall
      · exact (ihOpen trivial call hmiddle).imp id (.head (hof.edge htype))
      · exact .inr hreaches
  | stopped htype _ _ _ ih =>
      intro call hcall
      exact (ih trivial call hcall).imp id (.head (hof.edge htype))

/-- A call returns a library exactly when the checks pass. -/
theorem Exec.calls (hexec : Exec env loader task stop after)
    (hbefore : loader.calls = loader.opens.filter env.Accepts) :
    after.calls.Sublist (after.opens.filter env.Accepts) ∧
      (stop ≠ some .fault → after.calls = after.opens.filter env.Accepts) := by
  induction hexec with
  | @refused loader call hrefused =>
      have hafter : ((loader.opened call).refused call).calls =
          ((loader.opened call).refused call).opens.filter env.Accepts := by
        simpa [Loader.refused, Loader.opened, Loader.calls, hrefused] using hbefore
      exact ⟨by rw [hafter], fun _ => hafter⟩
  | @faulted loader call _ _ =>
      refine ⟨?_, absurd rfl⟩
      rw [show (loader.opened call).calls = loader.calls from rfl, hbefore]
      exact (List.sublist_append_left loader.opens [call]).filter _
  | accepted haccepts _ _ _ ih | interrupted haccepts _ _ _ ih =>
      apply ih
      simpa [Loader.opened, Loader.mapped, Loader.calls, haccepts] using hbefore
  | done | full | unresolved | crowded => exact ⟨by rw [hbefore], fun _ => hbefore⟩
  | known _ _ _ ih => exact ih hbefore
  | resolved _ _ _ ih => exact ih ((Loader.calls_patch ..).trans hbefore)
  | exported _ _ _ ih => exact ih hbefore
  | ignored _ _ ih => exact ih hbefore
  | loaded _ _ _ _ _ ihOpen ihRest => exact ihRest ((ihOpen hbefore).2 (by simp))
  | stopped _ _ _ _ ih => exact ih hbefore

/-- The libraries that the records of `call` name are all in `libs`. -/
def Env.Closed (env : Env) (call : Call) (libs : List Path) : Prop :=
  env.Accepts call → ∀ name, env.Loads call name → name ∈ libs

/-- What a task leaves in `libs` when it returns. -/
def Task.Fulfilled (env : Env) (libs : List Path) : Task → Prop
  | .open call => env.Closed call libs
  | .walk _ _ _ _ symbols =>
      ∀ sym ∈ symbols, sym.type = '+'.toUInt8 → sym.name ∈ libs

theorem Exec.libs_subset (hexec : Exec env loader task stop after) :
    loader.libs ⊆ after.libs := by
  obtain ⟨names, hlibs, -⟩ := hexec.trace
  rw [hlibs]
  exact List.subset_append_left _ _

/-- A run that returns has followed the LOAD records of everything that it
opened. -/
theorem Exec.closed (hexec : Exec env loader task stop after) (hreturns : stop = none) :
    task.Fulfilled env after.libs ∧
      ∀ call ∈ after.opens, call ∈ loader.opens ∨ env.Closed call after.libs := by
  induction hexec with
  | refused hrefused =>
      refine ⟨fun haccepts => absurd haccepts hrefused, fun call hcall => ?_⟩
      obtain hbefore | hself := List.mem_append.mp hcall
      · exact .inl hbefore
      · cases List.mem_singleton.mp hself
        exact .inr fun haccepts => absurd haccepts hrefused
  | faulted | interrupted | stopped | full | unresolved | crowded => cases hreturns
  | done => exact ⟨fun _ hsym => absurd hsym List.not_mem_nil, fun _ => .inl⟩
  | @accepted loader after call base symbols haccepts _ htable _ ih =>
      obtain ⟨hrecords, hopens⟩ := ih hreturns
      have hself : env.Closed call after.libs := by
        rintro - name ⟨_, htable', sym, hsym, htype, rfl⟩
        rw [htable, Option.some_inj] at htable'
        subst htable'
        exact hrecords sym hsym htype
      refine ⟨hself, fun other hother => ?_⟩
      obtain hbefore | hclosed := hopens other hother
      · obtain hbefore | hcall := List.mem_append.mp hbefore
        · exact .inl hbefore
        · cases List.mem_singleton.mp hcall
          exact .inr hself
      · exact .inr hclosed
  | known htype hknown hrest ih =>
      obtain ⟨hrecords, hopens⟩ := ih hreturns
      refine ⟨List.forall_mem_cons.mpr ⟨fun _ => ?_, hrecords⟩, hopens⟩
      exact hrest.libs_subset hknown
  | resolved htype _ _ ih =>
      obtain ⟨hrecords, hopens⟩ := ih hreturns
      refine ⟨List.forall_mem_cons.mpr ⟨fun hload => ?_, hrecords⟩, hopens⟩
      exact absurd (htype.symm.trans hload) (by decide)
  | exported htype _ _ ih =>
      obtain ⟨hrecords, hopens⟩ := ih hreturns
      refine ⟨List.forall_mem_cons.mpr ⟨fun hload => ?_, hrecords⟩, hopens⟩
      exact absurd (htype.symm.trans hload) (by decide)
  | ignored htype _ ih =>
      obtain ⟨hrecords, hopens⟩ := ih hreturns
      exact ⟨List.forall_mem_cons.mpr ⟨fun hload => absurd hload htype.1, hrecords⟩,
        hopens⟩
  | loaded htype hnew hroom hopen hrest ihOpen ihRest =>
      obtain ⟨hrecords, hopens⟩ := ihRest hreturns
      refine ⟨List.forall_mem_cons.mpr ⟨fun _ => ?_, hrecords⟩, fun call hcall => ?_⟩
      · apply hrest.libs_subset
        apply hopen.libs_subset
        simp [Loader.listed]
      · obtain hmiddle | hclosed := hopens call hcall
        · refine ((ihOpen rfl).2 call hmiddle).imp id fun hclosed haccepts name hloads => ?_
          exact hrest.libs_subset (hclosed haccepts name hloads)
        · exact .inr hclosed

end Exec

/-! ## Between the calls -/

/-- The tables after calls of `dlopen` for `roots` that returned. -/
structure Loader.Settled (env : Env) (roots : List Call) (loader : Loader) :
    Prop where
  libs_le : loader.libs.length ≤ libsLength
  libs_nodup : loader.libs.Nodup
  libs_iff : ∀ name, name ∈ loader.libs ↔ .load name ∈ loader.opens
  calls_eq : loader.calls = loader.opens.filter env.Accepts
  roots_opened : roots ⊆ loader.opens
  reached : ∀ call ∈ loader.opens, ∃ root ∈ roots, env.Reaches root call
  closed : ∀ call ∈ loader.opens, env.Closed call loader.libs

namespace Loader.Settled

variable {env : Env} {roots : List Call} {loader after : Loader}

theorem init (env : Env) : Loader.init.Settled env [] where
  libs_le := Nat.zero_le _
  libs_nodup := List.nodup_nil
  libs_iff _ := by simp [Loader.init]
  calls_eq := rfl
  roots_opened := List.nil_subset _
  reached _ hcall := absurd hcall List.not_mem_nil
  closed _ hcall := absurd hcall List.not_mem_nil

theorem step {index : ℕ} {path : Path} (hsettled : loader.Settled env roots)
    (hexec : Exec env loader (.open (.top index path)) none after) :
    after.Settled env (roots ++ [.top index path]) where
  libs_le := hexec.libs.1 hsettled.libs_le
  libs_nodup := hexec.libs.2 hsettled.libs_nodup
  libs_iff name := by
    obtain ⟨names, hlibs, hopens⟩ := hexec.trace
    simp [hlibs, hopens, hsettled.libs_iff, Task.first]
  calls_eq := (hexec.calls hsettled.calls_eq).2 nofun
  roots_opened := by
    obtain ⟨names, -, hopens⟩ := hexec.trace
    rw [hopens]
    intro root hroot
    obtain hroot | hroot := List.mem_append.mp hroot
    · exact List.mem_append_left _ (hsettled.roots_opened hroot)
    · exact List.mem_append_right _ (List.mem_append_left _ hroot)
  reached call hcall := by
    obtain hbefore | hreaches := hexec.reaches trivial call hcall
    · obtain ⟨root, hroot, hreaches⟩ := hsettled.reached call hbefore
      exact ⟨root, List.mem_append_left _ hroot, hreaches⟩
    · exact ⟨_, List.mem_append_right _ (List.mem_singleton_self _), hreaches⟩
  closed call hcall := by
    obtain hbefore | hclosed := (hexec.closed rfl).2 call hcall
    · intro haccepts name hloads
      exact hexec.libs_subset (hsettled.closed call hbefore haccepts name hloads)
    · exact hclosed

/-- The calls of `dlopen` are those that the roots reach. -/
theorem mem_opens_iff (hsettled : loader.Settled env roots) (call : Call) :
    call ∈ loader.opens ↔ ∃ root ∈ roots, env.Reaches root call := by
  constructor
  · exact hsettled.reached call
  · rintro ⟨root, hroot, hreaches⟩
    induction hreaches with
    | refl => exact hsettled.roots_opened hroot
    | tail _ hedge ih =>
        obtain ⟨haccepts, name, hloads, rfl⟩ := hedge
        exact (hsettled.libs_iff name).mp (hsettled.closed _ ih haccepts name hloads)

theorem mem_calls_iff (hsettled : loader.Settled env roots) (call : Call) :
    call ∈ loader.calls ↔ (∃ root ∈ roots, env.Reaches root call) ∧ env.Accepts call := by
  rw [hsettled.calls_eq, List.mem_filter, hsettled.mem_opens_iff, decide_eq_true_iff]

end Loader.Settled

/-! ## Libraries that are opened once -/

section Once

variable {env : Env} {root : Path}

/-- Some library that the root reaches loads the root, which can be opened
again. -/
def Env.LoadsBack (env : Env) (root : Path) : Prop :=
  env.Reaches (.top 0 root) (.load root) ∧ env.Accepts (.load root)

/-- No file is mapped twice. -/
def Loader.MappedOnce (loader : Loader) : Prop :=
  (loader.calls.map Call.path).Nodup

/-- The paths of a run: the root and the names in `libs`. -/
theorem nodup_paths {names : List Path} (hnodup : names.Nodup) :
    (((.top 0 root :: names.map Call.load).filter env.Accepts).map Call.path).Nodup ↔
      ¬ (env.Accepts (.top 0 root) ∧ root ∈ names ∧ env.Accepts (.load root)) := by
  have hnames : ((names.map Call.load).filter env.Accepts).map Call.path =
      names.filter (fun name => env.Accepts (.load name)) := by
    rw [List.filter_map, List.map_map]
    exact List.map_id _
  have hfilter := hnodup.filter (fun name => decide (env.Accepts (.load name)))
  rw [List.filter_cons]
  split_ifs with haccepts
  · rw [List.map_cons, hnames, List.nodup_cons]
    simp only [decide_eq_true_iff] at haccepts
    simp [hfilter, haccepts, Call.path]
  · rw [hnames]
    simp only [decide_eq_true_iff] at haccepts
    simp [hfilter, haccepts]

theorem final_dl_interp (env : Env) (fuel : ℕ) (path : Path) (loader : Loader) :
    final (dl_interp env fuel path loader) =
      final (dlopen env fuel (.top 0 path) loader) := by
  rw [dl_interp, bind_eq, dlopen_chk, bind_eq]
  cases dlopen env fuel (.top 0 path) loader with
  | ok value after => cases value <;> rfl
  | error stop after => rfl

/-- A run opens the root, and other names once each. -/
theorem opens_eq (env : Env) (root : Path) :
    ∃ names : List Path, names.Nodup ∧
      (final (dlopen env (libsLength + 1) (.top 0 root) .init)).opens =
        .top 0 root :: names.map Call.load := by
  have hexec := dlopen_exec env (.top 0 root) (show Loader.init.libs.length ≤ libsLength by
    exact Nat.zero_le _)
  obtain ⟨names, hlibs, hopens⟩ := hexec.trace
  have hafter := hexec.libs.2 List.nodup_nil
  rw [hlibs] at hafter
  exact ⟨names, hafter, hopens⟩

/-- A LOAD record that the run came to names the root, which can be opened again. -/
def Env.Reloads (env : Env) (root : Path) (after : Loader) : Prop :=
  .load root ∈ after.opens ∧ env.Accepts (.load root)

instance (env : Env) (root : Path) (after : Loader) : Decidable (env.Reloads root after) :=
  inferInstanceAs (Decidable (_ ∧ _))

theorem Env.Reloads.loadsBack
    (hreloads : env.Reloads root
      (final (dlopen env (libsLength + 1) (.top 0 root) .init))) : env.LoadsBack root := by
  have hexec := dlopen_exec env (.top 0 root) (show Loader.init.libs.length ≤ libsLength by
    exact Nat.zero_le _)
  exact ⟨(hexec.reaches trivial _ hreloads.1).resolve_left List.not_mem_nil, hreloads.2⟩

theorem Env.LoadsBack.accepts (hback : env.LoadsBack root) :
    env.Accepts (.top 0 root) := by
  obtain hrefl | ⟨middle, hedge, -⟩ := hback.1.cases_head
  · cases hrefl
  · exact hedge.1

/-- The paths that a run opens are different unless it opens the root again. -/
theorem nodup_opens_iff (env : Env) (root : Path) :
    (((final (dlopen env (libsLength + 1) (.top 0 root) .init)).opens.filter
      env.Accepts).map Call.path).Nodup ↔
      ¬ env.Reloads root (final (dlopen env (libsLength + 1) (.top 0 root) .init)) := by
  obtain ⟨names, hnodup, hopens⟩ := opens_eq env root
  have hmem : .load root ∈ (final (dlopen env (libsLength + 1) (.top 0 root) .init)).opens ↔
      root ∈ names := by
    rw [hopens]
    simp
  rw [hopens, nodup_paths hnodup]
  refine not_congr ⟨fun ⟨_, hroot, haccepts⟩ => ⟨hmem.mpr hroot, haccepts⟩, ?_⟩
  intro hreloads
  exact ⟨hreloads.loadsBack.accepts, hmem.mp hreloads.1, hreloads.2⟩

/-- No file is mapped twice when nothing that the root reaches loads the root again, and
for a run that returns in no other case.  A run that an assertion stops maps no file
twice exactly when no LOAD record before that loads the root again. -/
theorem mapped_once_iff (env : Env) (root : Path) (extra : ℕ) :
    (¬ env.LoadsBack root →
      (final (dl_interp env (libsLength + 1 + extra) root .init)).MappedOnce) ∧
    (stopOf (dlopen env (libsLength + 1 + extra) (.top 0 root) .init) ≠ some .fault →
      ((final (dl_interp env (libsLength + 1 + extra) root .init)).MappedOnce ↔
        ¬ env.Reloads root (final (dl_interp env (libsLength + 1 + extra) root .init)))) ∧
    (stopOf (dlopen env (libsLength + 1 + extra) (.top 0 root) .init) = none →
      ((final (dl_interp env (libsLength + 1 + extra) root .init)).MappedOnce ↔
        ¬ env.LoadsBack root)) := by
  have hempty : Loader.init.libs.length ≤ libsLength := Nat.zero_le _
  have hfuel := dlopen_fuel env (.top 0 root) .init hempty
    (show libsLength < libsLength + 1 + extra by omega)
  have hexec := dlopen_exec env (.top 0 root) hempty
  rw [final_dl_interp, hfuel]
  have hexact : stopOf (dlopen env (libsLength + 1) (.top 0 root) .init) ≠ some .fault →
      ((final (dlopen env (libsLength + 1) (.top 0 root) .init)).MappedOnce ↔
        ¬ env.Reloads root (final (dlopen env (libsLength + 1) (.top 0 root) .init))) := by
    intro hfault
    rw [Loader.MappedOnce, (hexec.calls rfl).2 hfault]
    exact nodup_opens_iff env root
  refine ⟨fun hback => ?_, hexact, fun hreturns => ?_⟩
  · have hsublist := (hexec.calls rfl).1
    refine List.Nodup.sublist (hsublist.map Call.path) ((nodup_opens_iff env root).mpr ?_)
    exact fun hreloads => hback hreloads.loadsBack
  · rw [hexact (by rw [hreturns]; nofun)]
    refine not_congr ⟨Env.Reloads.loadsBack, fun hback => ⟨?_, hback.2⟩⟩
    rw [hreturns] at hexec
    have hsettled := (Loader.Settled.init env).step hexec
    exact (hsettled.mem_opens_iff (.load root)).mpr
      ⟨_, List.mem_singleton_self _, hback.1⟩

end Once

/-- Two libraries that load each other. -/
def looped : List (Path × List Byte) :=
  [(bytes "main.dl", library [.LOAD (bytes "lib.dl")] []),
    (bytes "lib.dl", library [.LOAD (bytes "main.dl")] [])]

theorem looped_maps_root_twice :
    ¬ (final (dl_interp (Env.disk looped) (libsLength + 1) (bytes "main.dl")
      .init)).MappedOnce := by
  unfold Loader.MappedOnce
  decide +kernel

/-- Two libraries that load a third one. -/
def diamond : List (Path × List Byte) :=
  [(bytes "main.dl", library [.LOAD (bytes "a.dl"), .LOAD (bytes "b.dl")] []),
    (bytes "a.dl", library [.LOAD (bytes "c.dl")] []),
    (bytes "b.dl", library [.LOAD (bytes "c.dl")] []),
    (bytes "c.dl", library [] [])]

/-- Two libraries that would load each other, behind an import that nobody exports. -/
def halted : List (Path × List Byte) :=
  [(bytes "main.dl", library [.IMPORT (bytes "x"), .LOAD (bytes "lib.dl")] []),
    (bytes "lib.dl", library [.LOAD (bytes "main.dl")] [])]

theorem diamond_mapped_once :
    (stopOf (dlopen (Env.disk diamond) (libsLength + 1) (.top 0 (bytes "main.dl"))
      .init) = none ∧
    (final (dl_interp (Env.disk diamond) (libsLength + 1) (bytes "main.dl")
      .init)).MappedOnce ∧ ¬ (Env.disk diamond).LoadsBack (bytes "main.dl")) ∧
    stopOf (dlopen (Env.disk halted) (libsLength + 1) (.top 0 (bytes "main.dl"))
      .init) = some .assert ∧
    (final (dl_interp (Env.disk halted) (libsLength + 1) (bytes "main.dl")
      .init)).MappedOnce := by
  have hreturns : stopOf (dlopen (Env.disk diamond) (libsLength + 1)
      (.top 0 (bytes "main.dl")) .init) = none := by
    decide +kernel
  have honce : (final (dl_interp (Env.disk diamond) (libsLength + 1)
      (bytes "main.dl") .init)).MappedOnce := by
    unfold Loader.MappedOnce
    decide +kernel
  have hstops : stopOf (dlopen (Env.disk halted) (libsLength + 1)
      (.top 0 (bytes "main.dl")) .init) = some .assert := by
    decide +kernel
  have hreloads : ¬ (Env.disk halted).Reloads (bytes "main.dl")
      (final (dl_interp (Env.disk halted) (libsLength + 1) (bytes "main.dl") .init)) := by
    decide +kernel
  refine ⟨⟨hreturns, honce, ?_⟩, hstops, ?_⟩
  · exact ((mapped_once_iff (Env.disk diamond) (bytes "main.dl") 0).2.2 hreturns).mp honce
  · refine ((mapped_once_iff (Env.disk halted) (bytes "main.dl") 0).2.1 ?_).mpr hreloads
    rw [hstops]
    nofun

end JyyOS.Dl
