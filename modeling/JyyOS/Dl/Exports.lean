import JyyOS.Core.DepthFirst
import JyyOS.Dl.Failures

/-!
# Exports in the order of the walk

Loading, exporting and resolving go on in one depth-first walk over the LOAD
graph.  The walk says in which order the EXPORT records come; the table of
symbols holds them in that order.  `Progress` is what holds in the middle of
the walk, with the libraries on the stack and the records still to be visited
set apart.
-/

namespace JyyOS.Dl

open JyyOS.ByteImage JyyOS.DepthFirst

/-! ## The walk -/

/-- An EXPORT record and the library that it belongs to. -/
structure Export where
  call : Call
  record : Symbol

/-- What a record means to the walk. -/
def item (call : Call) (sym : Symbol) : Option (Item Path Export) :=
  if sym.type = '+'.toUInt8 then some (.enter sym.name)
  else if sym.type = '#'.toUInt8 then some (.emit ⟨call, sym⟩)
  else none

def exportCount (symbols : List Symbol) : ℕ :=
  symbols.countP fun sym => sym.type = '#'.toUInt8

/-- The first export of a name. -/
def firstExport (log : List Export) (name : Path) : Option Export :=
  log.find? fun exported => exported.record.name = name

namespace Env

variable (env : Env)

def symbols (call : Call) : List Symbol := (env.table call).getD []

def items (call : Call) : List (Item Path Export) :=
  (env.symbols call).filterMap (item call)

/-- The depth-first walk from a call, with the exports that it comes to. -/
def WalkFrom (root : Call) (seen : List Path) (log : List Export) : Prop :=
  Walk (fun name => env.items (.load name)) [] (env.items root) seen log

/-- `base(L) + offset` -/
def address (exported : Export) : UInt64 :=
  (env.mmap exported.call).getD 0 + exported.record.offset

/-- The graph below a root, with the names of its LOAD records. -/
structure Linkable (root : Call) (names : Finset Path) : Prop where
  mem_names : ∀ name, name ∈ names ↔ env.Reaches root (.load name)
  names_le : names.card ≤ libsLength
  opens : ∀ call, env.Reaches root call → env.Accepts call ∧ (env.table call).isSome
  acyclic : ∀ call, env.Reaches root call → ¬ Relation.TransGen env.Edge call call
  exports_le : exportCount (env.symbols root) +
    ∑ name ∈ names, exportCount (env.symbols (.load name)) ≤ symsLength
  named : ∀ call, env.Reaches root call → ∀ sym ∈ env.symbols call, sym.name ≠ []
  /-- No LOAD record stands behind an IMPORT record. -/
  ordered : ∀ call, env.Reaches root call → (env.symbols call).Pairwise
    fun before behind => before.type = '?'.toUInt8 → behind.type ≠ '+'.toUInt8
  /-- Every import is an export of a library that the importer loads, directly
  or not. -/
  provided : ∀ call, env.Reaches root call → ∀ sym ∈ env.symbols call,
    sym.type = '?'.toUInt8 → ∃ next, Relation.TransGen env.Edge call next ∧
      ∃ record ∈ env.symbols next, record.type = '#'.toUInt8 ∧ record.name = sym.name

end Env

/-! ## The table of exports -/

section Syms

variable {env : Env} {log : List Export} {loader : Loader}

def Env.entry (env : Env) (exported : Export) : Entry :=
  ⟨env.address exported, exported.record.name⟩

/-- `syms` after these exports. -/
def Env.symsOf (env : Env) (log : List Export) : List Entry :=
  log.map env.entry ++ List.replicate (symsLength - log.length) ⟨0, []⟩

theorem entry?_symsOf (hsyms : loader.syms = env.symsOf log) {name : Path}
    (hname : name ≠ []) : loader.entry? name = (firstExport log name).map env.entry := by
  have hfree : (List.replicate (symsLength - log.length) (⟨0, []⟩ : Entry)).find?
      (fun entry => entry.name = name) = none := by
    rw [List.find?_eq_none]
    intro entry hentry
    rw [(List.mem_replicate.mp hentry).2]
    simpa using hname.symm
  rw [Loader.entry?, hsyms, Env.symsOf, List.find?_append, hfree, Option.or_none,
    List.find?_map]
  rfl

theorem slot?_symsOf (hsyms : loader.syms = env.symsOf log)
    (hnamed : ∀ exported ∈ log, exported.record.name ≠ [])
    (hroom : log.length < symsLength) : loader.slot? = some log.length := by
  obtain ⟨free, hfree⟩ : ∃ free, symsLength - log.length = free + 1 :=
    ⟨symsLength - log.length - 1, by omega⟩
  have hused : (log.map env.entry).findIdx? (fun entry => entry.name = []) = none := by
    rw [List.findIdx?_eq_none_iff]
    intro entry hentry
    obtain ⟨exported, hexported, rfl⟩ := List.mem_map.mp hentry
    exact decide_eq_false (hnamed exported hexported)
  rw [Loader.slot?, hsyms, Env.symsOf, hfree, List.findIdx?_append, hused]
  simp [List.replicate_succ, List.findIdx?_cons]

theorem symsOf_snoc (env : Env) (exported : Export) (hroom : log.length < symsLength) :
    (env.symsOf log).set log.length (env.entry exported) =
      env.symsOf (log ++ [exported]) := by
  obtain ⟨free, hfree⟩ : ∃ free, symsLength - log.length = free + 1 :=
    ⟨symsLength - log.length - 1, by omega⟩
  have hnext : symsLength - (log ++ [exported]).length = free := by
    rw [List.length_append, List.length_singleton]
    omega
  rw [Env.symsOf, Env.symsOf, hfree, hnext, List.replicate_succ]
  simp

theorem first_append (out : List Export) {name : Path} {exported : Export}
    (hfirst : firstExport log name = some exported) :
    firstExport (log ++ out) name = some exported := by
  unfold firstExport at hfirst ⊢
  rw [List.find?_append, hfirst, Option.some_or]

end Syms

/-! ## Records in memory -/

section Imports

variable {loader : Loader} {i j : ℕ} {sym : Symbol}

/-- Record `j` of library `i` is this IMPORT record. -/
def Loader.ImportAt (loader : Loader) (i j : ℕ) (sym : Symbol) : Prop :=
  sym.type = '?'.toUInt8 ∧
    ∃ mapping, loader.maps[i]? = some mapping ∧ mapping.symbols[j]? = some sym

theorem importAt_mapped {call : Call} {base : UInt64} {symbols : List Symbol}
    (himport : (loader.mapped call base symbols).ImportAt i j sym) :
    loader.ImportAt i j sym ∨ i = loader.maps.length := by
  obtain ⟨htype, mapping, hmapping, hsym⟩ := himport
  rw [Loader.mapped, List.getElem?_append] at hmapping
  split_ifs at hmapping with hold
  · exact .inl ⟨htype, mapping, hmapping, hsym⟩
  · have hlt := (List.getElem?_eq_some_iff.mp hmapping).1
    rw [List.length_singleton] at hlt
    exact .inr (by omega)

theorem importAt_patch {h k : ℕ} {addr : UInt64}
    (himport : (loader.patch h k addr).ImportAt i j sym) :
    ∃ old, loader.ImportAt i j old ∧ old.name = sym.name ∧
      ((i = h ∧ j = k ∧ sym.offset = addr) ∨ (¬ (i = h ∧ j = k) ∧ sym = old)) := by
  obtain ⟨htype, mapping, hmapping, hsym⟩ := himport
  rw [Loader.patch, List.getElem?_modify] at hmapping
  obtain ⟨old, hold, rfl⟩ := Option.map_eq_some_iff.mp hmapping
  split_ifs at hsym with hi
  · rw [List.getElem?_modify] at hsym
    obtain ⟨before, hbefore, rfl⟩ := Option.map_eq_some_iff.mp hsym
    split_ifs at htype ⊢ with hj
    · exact ⟨before, ⟨htype, old, hold, hbefore⟩, rfl, .inl ⟨hi.symm, hj.symm, rfl⟩⟩
    · exact ⟨before, ⟨htype, old, hold, hbefore⟩, rfl,
        .inr ⟨fun hij => hj hij.2.symm, rfl⟩⟩
  · exact ⟨sym, ⟨htype, old, hold, hsym⟩, rfl, .inr ⟨fun hij => hi hij.1.symm, rfl⟩⟩

/-- The records that library `h` has in memory, without their offsets. -/
def Loader.kindsAt (loader : Loader) (h : ℕ) : Option (List (Byte × Path)) :=
  loader.maps[h]?.map fun mapping => mapping.symbols.map Symbol.kind

theorem Loader.ImportAt.kind (himport : loader.ImportAt i j sym)
    {kinds : List (Byte × Path)} (hkinds : loader.kindsAt i = some kinds) :
    kinds[j]? = some ('?'.toUInt8, sym.name) := by
  obtain ⟨htype, mapping, hmapping, hsym⟩ := himport
  rw [Loader.kindsAt, hmapping, Option.map_some, Option.some_inj] at hkinds
  rw [← hkinds, List.getElem?_map, hsym, ← htype]
  rfl

theorem kindsAt_patch (loader : Loader) (i h k : ℕ) (addr : UInt64) :
    (loader.patch h k addr).kindsAt i = loader.kindsAt i := by
  rw [Loader.kindsAt, Loader.patch, List.getElem?_modify, Loader.kindsAt]
  cases loader.maps[i]? with
  | none => rfl
  | some mapping =>
      simp only [Option.map_some, Functor.map]
      split_ifs
      · rw [kinds_modify]
      · rfl

theorem Exec.kindsAt {env : Env} {after : Loader} {task : Task} {stop : Option Stop}
    (hexec : Exec env loader task stop after) {kinds : List (Byte × Path)}
    (hbefore : loader.kindsAt i = some kinds) : after.kindsAt i = some kinds := by
  induction hexec with
  | refused | faulted | done | full | unresolved | crowded => exact hbefore
  | accepted _ _ _ _ ih | interrupted _ _ _ _ ih =>
      apply ih
      rw [Loader.kindsAt, Option.map_eq_some_iff] at hbefore ⊢
      obtain ⟨mapping, hmapping, hkinds⟩ := hbefore
      refine ⟨mapping, ?_, hkinds⟩
      rw [Loader.mapped, List.getElem?_append_left]
      · exact hmapping
      · exact (List.getElem?_eq_some_iff.mp hmapping).1
  | known _ _ _ ih => exact ih hbefore
  | resolved _ _ _ ih => exact ih ((kindsAt_patch ..).trans hbefore)
  | exported _ _ _ ih => exact ih hbefore
  | ignored _ _ ih => exact ih hbefore
  | loaded _ _ _ _ _ ihOpen ihRest => exact ihRest (ihOpen hbefore)
  | stopped _ _ _ _ ih => exact ih hbefore

end Imports

/-! ## The invariant -/

/-- The walk through the records of a library is over: what it loads is
complete, and its exports are in the table. -/
structure Env.Finished (env : Env) (stack : Set Path) (libs : List Path)
    (log : List Export) (call : Call) : Prop where
  loads : ∀ sym ∈ env.symbols call, sym.type = '+'.toUInt8 →
    sym.name ∈ libs ∧ sym.name ∉ stack
  exports : ∀ sym ∈ env.symbols call, sym.type = '#'.toUInt8 → ⟨call, sym⟩ ∈ log

/-- The address in an IMPORT record is that of the first export. -/
def Env.Bound (env : Env) (log : List Export) (sym : Symbol) : Prop :=
  ∃ exported, firstExport log sym.name = some exported ∧
    sym.offset = env.address exported

/-- The tables in the middle of a walk.  The libraries on the stack are in
progress, and the pending records have not been processed. -/
structure Progress (env : Env) (names : Finset Path) (stack : Set Path)
    (pending : Set (ℕ × ℕ)) (log : List Export) (loader : Loader) : Prop where
  nodup : loader.libs.Nodup
  subset : ∀ name ∈ loader.libs, name ∈ names
  syms_eq : loader.syms = env.symsOf log
  named : ∀ exported ∈ log, exported.record.name ≠ []
  finished : ∀ name ∈ loader.libs, name ∉ stack →
    env.Finished stack loader.libs log (.load name)
  bound : ∀ i j sym, loader.ImportAt i j sym → (i, j) ∉ pending → env.Bound log sym

section Progress

variable {env : Env} {names : Finset Path} {stack : Set Path}
  {pending : Set (ℕ × ℕ)} {log : List Export} {loader : Loader}

theorem Env.Finished.mono {libs libs' : List Path} {stack' : Set Path}
    {log' : List Export} {call : Call} (hfinished : env.Finished stack libs log call)
    (hlibs : ∀ name ∈ libs, name ∉ stack → name ∈ libs' ∧ name ∉ stack')
    (hlog : log ⊆ log') : env.Finished stack' libs' log' call where
  loads sym hsym htype := by
    obtain ⟨hmem, hstack⟩ := hfinished.loads sym hsym htype
    exact hlibs sym.name hmem hstack
  exports sym hsym htype := hlog (hfinished.exports sym hsym htype)

theorem Env.Bound.append {sym : Symbol} (hbound : env.Bound log sym)
    (out : List Export) : env.Bound (log ++ out) sym := by
  obtain ⟨exported, hfirst, hoffset⟩ := hbound
  exact ⟨exported, first_append out hfirst, hoffset⟩

/-- A library is listed before it is opened, and goes on the stack. -/
theorem Progress.listed (hprogress : Progress env names stack pending log loader)
    {name : Path} (hname : name ∈ names) (hnew : name ∉ loader.libs) :
    Progress env names (insert name stack) pending log (loader.listed name) where
  nodup := nodup_listed hprogress.nodup hnew
  subset other hother := by
    obtain hother | hself := List.mem_append.mp hother
    · exact hprogress.subset other hother
    · exact List.mem_singleton.mp hself ▸ hname
  syms_eq := hprogress.syms_eq
  named := hprogress.named
  finished other hother hstack := by
    obtain ⟨hne, hstack⟩ := not_or.mp hstack
    obtain hother | hself := List.mem_append.mp hother
    · refine (hprogress.finished other hother hstack).mono ?_ (List.Subset.refl _)
      rintro sub hsub hnot
      refine ⟨List.mem_append_left _ hsub, ?_⟩
      rintro (rfl | hmem)
      · exact hnew hsub
      · exact hnot hmem
    · exact absurd (List.mem_singleton.mp hself) hne
  bound := hprogress.bound

/-- A finished library leaves the stack. -/
theorem Progress.unstack {name : Path}
    (hprogress : Progress env names (insert name stack) pending log loader)
    (hfinished : env.Finished (insert name stack) loader.libs log (.load name)) :
    Progress env names stack pending log loader where
  nodup := hprogress.nodup
  subset := hprogress.subset
  syms_eq := hprogress.syms_eq
  named := hprogress.named
  finished other hother hstack := by
    have hself : env.Finished (insert name stack) loader.libs log (.load other) := by
      by_cases heq : other = name
      · exact heq ▸ hfinished
      · exact hprogress.finished other hother (not_or.mpr ⟨heq, hstack⟩)
    exact hself.mono (fun sub hsub hnot => ⟨hsub, fun hmem => hnot (.inr hmem)⟩)
      (List.Subset.refl _)
  bound := hprogress.bound

theorem Progress.mapped (hprogress : Progress env names stack pending log loader)
    (call : Call) (base : UInt64) (symbols : List Symbol) :
    Progress env names stack (pending ∪ {site | site.1 = loader.maps.length ∧ 0 ≤ site.2})
      log ((loader.opened call).mapped call base symbols) where
  nodup := hprogress.nodup
  subset := hprogress.subset
  syms_eq := hprogress.syms_eq
  named := hprogress.named
  finished := hprogress.finished
  bound i j sym himport hpending := by
    obtain hold | rfl := importAt_mapped himport
    · exact hprogress.bound i j sym hold fun hmem => hpending (.inl hmem)
    · exact absurd (.inr ⟨rfl, Nat.zero_le j⟩) hpending

theorem Progress.returned (hprogress : Progress env names stack pending log loader)
    (h : ℕ) : Progress env names stack pending log (loader.finished h) where
  nodup := hprogress.nodup
  subset := hprogress.subset
  syms_eq := hprogress.syms_eq
  named := hprogress.named
  finished := hprogress.finished
  bound := hprogress.bound

/-- The record `k` has been processed. -/
theorem Progress.advance {h k : ℕ}
    (hprogress : Progress env names stack
      (pending ∪ {site | site.1 = h ∧ k ≤ site.2}) log loader)
    (hrecord : ∀ sym, loader.ImportAt h k sym → env.Bound log sym) :
    Progress env names stack (pending ∪ {site | site.1 = h ∧ k + 1 ≤ site.2}) log
      loader where
  nodup := hprogress.nodup
  subset := hprogress.subset
  syms_eq := hprogress.syms_eq
  named := hprogress.named
  finished := hprogress.finished
  bound i j sym himport hpending := by
    by_cases hsite : i = h ∧ j = k
    · obtain ⟨rfl, rfl⟩ := hsite
      exact hrecord sym himport
    · apply hprogress.bound i j sym himport
      rintro (hmem | ⟨rfl, hle⟩)
      · exact hpending (.inl hmem)
      · exact hpending (.inr ⟨rfl, by simp only at hle ⊢; omega⟩)

theorem Progress.patch {h k : ℕ} {addr : UInt64}
    (hprogress : Progress env names stack
      (pending ∪ {site | site.1 = h ∧ k ≤ site.2}) log loader)
    (hrecord : ∀ sym, loader.ImportAt h k sym →
      ∃ exported, firstExport log sym.name = some exported ∧
        addr = env.address exported) :
    Progress env names stack (pending ∪ {site | site.1 = h ∧ k + 1 ≤ site.2}) log
      (loader.patch h k addr) where
  nodup := hprogress.nodup
  subset := hprogress.subset
  syms_eq := hprogress.syms_eq
  named := hprogress.named
  finished := hprogress.finished
  bound i j sym himport hpending := by
    obtain ⟨old, hold, hname, ⟨rfl, rfl, hoffset⟩ | ⟨hsite, rfl⟩⟩ :=
      importAt_patch himport
    · obtain ⟨exported, hfirst, haddr⟩ := hrecord old hold
      exact ⟨exported, hname ▸ hfirst, hoffset.trans haddr⟩
    · apply hprogress.bound i j sym hold
      rintro (hmem | ⟨rfl, hle⟩)
      · exact hpending (.inl hmem)
      · exact hpending (.inr ⟨rfl, by simp only at hle ⊢; omega⟩)

theorem Progress.exported (hprogress : Progress env names stack pending log loader)
    (exported : Export) (hname : exported.record.name ≠ [])
    (hroom : log.length < symsLength) :
    Progress env names stack pending (log ++ [exported])
      (loader.exported log.length (env.address exported) exported.record.name) where
  nodup := hprogress.nodup
  subset := hprogress.subset
  syms_eq := by
    rw [← symsOf_snoc env exported hroom, ← hprogress.syms_eq]
    rfl
  named := by
    intro other hother
    obtain hother | hself := List.mem_append.mp hother
    · exact hprogress.named other hother
    · exact List.mem_singleton.mp hself ▸ hname
  finished name hlib hstack :=
    (hprogress.finished name hlib hstack).mono (fun _ hsub hnot => ⟨hsub, hnot⟩)
      (List.subset_append_left _ _)
  bound i j sym himport hpending :=
    (hprogress.bound i j sym himport hpending).append [exported]

end Progress

end JyyOS.Dl
