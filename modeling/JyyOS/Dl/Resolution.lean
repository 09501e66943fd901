import JyyOS.Dl.Exports

/-!
# Symbol resolution

Where every library lists its LOAD records before its IMPORT records and the
LOAD graph has no cycle, whatever an IMPORT record can refer to is complete
when the walk comes to it.
-/

namespace JyyOS.Dl

open JyyOS.ByteImage JyyOS.DepthFirst

/-! ## Runs -/

section Links

variable {env : Env} {root : Call} {names : Finset Path}

/-- The exports of the libraries that are not listed yet. -/
def Env.left (env : Env) (names : Finset Path) (libs : List Path) : ℕ :=
  ∑ name ∈ names with name ∉ libs, exportCount (env.symbols (.load name))

theorem left_listed (env : Env) {libs : List Path} {name : Path}
    (hname : name ∈ names) (hnew : name ∉ libs) :
    exportCount (env.symbols (.load name)) + env.left names (libs ++ [name]) =
      env.left names libs := by
  have hsplit : names.filter (· ∉ libs) =
      insert name (names.filter (· ∉ libs ++ [name])) := by
    ext other
    by_cases hother : other = name
    · simp [hother, hname, hnew]
    · simp [hother]
  rw [Env.left, Env.left, hsplit, Finset.sum_insert (by simp)]

theorem loads_iff {call : Call} {name : Path} :
    env.Loads call name ↔
      ∃ sym ∈ env.symbols call, sym.type = '+'.toUInt8 ∧ sym.name = name := by
  unfold Env.Loads Env.symbols
  cases env.table call with
  | none => simp
  | some symbols => simp

theorem Env.Linkable.table_eq (hlink : env.Linkable root names) {call : Call}
    (hreached : env.Reaches root call) : env.table call = some (env.symbols call) := by
  obtain ⟨symbols, hsymbols⟩ := Option.isSome_iff_exists.mp (hlink.opens call hreached).2
  rw [Env.symbols, hsymbols]
  rfl

theorem Env.Linkable.edge (hlink : env.Linkable root names) {call : Call}
    (hreached : env.Reaches root call) {sym : Symbol} (hsym : sym ∈ env.symbols call)
    (htype : sym.type = '+'.toUInt8) : env.Edge call (.load sym.name) :=
  ⟨(hlink.opens call hreached).1, sym.name,
    ⟨_, hlink.table_eq hreached, sym, hsym, htype, rfl⟩, rfl⟩

/-- A library that is being opened: those on the stack led to it. -/
structure Place (env : Env) (root : Call) (stack : Set Path) (call : Call) : Prop where
  reached : env.Reaches root call
  ancestors : ∀ name ∈ stack, env.Reaches (.load name) call

/-- The loop of `dlopen` is about to process `symbols`.  There is room for the
exports to come, `later` of them in the libraries on the stack. -/
structure Walking (env : Env) (root : Call) (names : Finset Path) (stack : Set Path)
    (pending : Set (ℕ × ℕ)) (later : ℕ) (log : List Export) (loader : Loader)
    (call : Call) (h : ℕ) (base : UInt64) (k : ℕ) (symbols : List Symbol) : Prop where
  place : Place env root stack call
  base_eq : env.mmap call = some base
  progress : Progress env names stack
    (pending ∪ {site | site.1 = h ∧ k ≤ site.2}) log loader
  room : log.length + exportCount symbols + env.left names loader.libs + later ≤
    symsLength
  kinds : loader.kindsAt h = some ((env.symbols call).map Symbol.kind)
  split : ∃ before, env.symbols call = before ++ symbols ∧ before.length = k ∧
    (∀ sym ∈ before, sym.type = '+'.toUInt8 →
      sym.name ∈ loader.libs ∧ sym.name ∉ stack) ∧
    ∀ sym ∈ before, sym.type = '#'.toUInt8 → ⟨call, sym⟩ ∈ log

/-- A task has returned after the exports `out`. -/
structure Linked (env : Env) (names : Finset Path) (stack : Set Path)
    (pending : Set (ℕ × ℕ)) (later : ℕ) (log out : List Export) (loader : Loader)
    (call : Call) (items : List (Item Path Export)) (after : Loader) : Prop where
  walk : Walk (fun name => env.items (.load name)) loader.libs items after.libs out
  progress : Progress env names stack pending (log ++ out) after
  room : (log ++ out).length + env.left names after.libs + later ≤ symsLength
  finished : env.Finished stack after.libs (log ++ out) call

section Walking

variable {stack : Set Path} {pending : Set (ℕ × ℕ)} {later : ℕ} {log : List Export}
  {loader : Loader} {call : Call} {h k : ℕ} {base : UInt64} {sym : Symbol}
  {symbols : List Symbol}

/-- The next record has been processed. -/
theorem Walking.next {loader' : Loader} {log' : List Export}
    (hwalking : Walking env root names stack pending later log loader call h base k
      (sym :: symbols))
    (hprogress : Progress env names stack
      (pending ∪ {site | site.1 = h ∧ k + 1 ≤ site.2}) log' loader')
    (hroom : log'.length + exportCount symbols + env.left names loader'.libs + later ≤
      symsLength)
    (hkinds : loader'.kindsAt h = some ((env.symbols call).map Symbol.kind))
    (hlibs : loader.libs ⊆ loader'.libs) (hlog : log ⊆ log')
    (hload : sym.type = '+'.toUInt8 → sym.name ∈ loader'.libs ∧ sym.name ∉ stack)
    (hexport : sym.type = '#'.toUInt8 → ⟨call, sym⟩ ∈ log') :
    Walking env root names stack pending later log' loader' call h base (k + 1)
      symbols where
  place := hwalking.place
  base_eq := hwalking.base_eq
  progress := hprogress
  room := hroom
  kinds := hkinds
  split := by
    obtain ⟨before, hsplit, hlength, hloads, hexports⟩ := hwalking.split
    refine ⟨before ++ [sym], by simp [hsplit], by simp [hlength], ?_, ?_⟩
    · intro other hother htype
      obtain hother | hself := List.mem_append.mp hother
      · obtain ⟨hmem, hnot⟩ := hloads other hother htype
        exact ⟨hlibs hmem, hnot⟩
      · cases List.mem_singleton.mp hself
        exact hload htype
    · intro other hother htype
      obtain hother | hself := List.mem_append.mp hother
      · exact hlog (hexports other hother htype)
      · cases List.mem_singleton.mp hself
        exact hexport htype

theorem Walking.mem (hwalking : Walking env root names stack pending later log loader
    call h base k (sym :: symbols)) : sym ∈ env.symbols call := by
  obtain ⟨before, hsplit, -⟩ := hwalking.split
  rw [hsplit]
  exact List.mem_append_right _ List.mem_cons_self

/-- Record `k` in memory is the next record of the table. -/
theorem Walking.importAt (hwalking : Walking env root names stack pending later log
    loader call h base k (sym :: symbols)) {other : Symbol}
    (himport : loader.ImportAt h k other) :
    sym.type = '?'.toUInt8 ∧ sym.name = other.name := by
  have hkind := himport.kind hwalking.kinds
  obtain ⟨before, hsplit, rfl, -⟩ := hwalking.split
  rw [hsplit, List.getElem?_map, List.getElem?_append_right le_rfl, Nat.sub_self] at hkind
  simpa [Symbol.kind] using hkind

/-- A record that is no IMPORT record needs no address. -/
theorem Walking.advance (hwalking : Walking env root names stack pending later log
    loader call h base k (sym :: symbols)) (htype : sym.type ≠ '?'.toUInt8) :
    Progress env names stack (pending ∪ {site | site.1 = h ∧ k + 1 ≤ site.2}) log
      loader :=
  hwalking.progress.advance fun _ himport =>
    absurd (hwalking.importAt himport).1 htype

/-- A library does not load one of those that led to it. -/
theorem Walking.not_mem_stack (hlink : env.Linkable root names)
    (hwalking : Walking env root names stack pending later log loader call h base k
      (sym :: symbols)) (htype : sym.type = '+'.toUInt8) : sym.name ∉ stack := by
  intro hstack
  have hedge := hlink.edge hwalking.place.reached hwalking.mem htype
  have hback := hwalking.place.ancestors sym.name hstack
  exact hlink.acyclic (.load sym.name) (hwalking.place.reached.tail hedge)
    (Relation.TransGen.tail' hback hedge)

theorem Walking.mem_names (hlink : env.Linkable root names)
    (hwalking : Walking env root names stack pending later log loader call h base k
      (sym :: symbols)) (htype : sym.type = '+'.toUInt8) : sym.name ∈ names :=
  (hlink.mem_names sym.name).mpr
    (hwalking.place.reached.tail (hlink.edge hwalking.place.reached hwalking.mem htype))

/-- What an IMPORT record asks for has been exported. -/
theorem Walking.provided (hlink : env.Linkable root names)
    (hwalking : Walking env root names stack pending later log loader call h base k
      (sym :: symbols)) (htype : sym.type = '?'.toUInt8) :
    ∃ exported, firstExport log sym.name = some exported := by
  have hreached := hwalking.place.reached
  obtain ⟨next, hpath, record, hrecord, hexport, hname⟩ :=
    hlink.provided call hreached sym hwalking.mem htype
  obtain ⟨_, ⟨-, name, hloads, rfl⟩, hrest⟩ := Relation.TransGen.head'_iff.mp hpath
  obtain ⟨loaded, hloaded, hplus, rfl⟩ := loads_iff.mp hloads
  -- the libraries that are complete; the first one is, for its record stands
  -- before this one
  let complete : Set Call :=
    {call | ∃ name, call = .load name ∧ name ∈ loader.libs ∧ name ∉ stack}
  have hfirst : .load loaded.name ∈ complete := by
    obtain ⟨before, hsplit, -, hbefore, -⟩ := hwalking.split
    have hordered := hlink.ordered call hreached
    rw [hsplit] at hordered hloaded
    have hbehind := List.pairwise_cons.mp (List.pairwise_append.mp hordered).2.1
    obtain hloaded | hloaded := List.mem_append.mp hloaded
    · exact ⟨loaded.name, rfl, hbefore loaded hloaded hplus⟩
    · obtain rfl | hloaded := List.mem_cons.mp hloaded
      · exact absurd (htype.symm.trans hplus) (by decide)
      · exact absurd hplus (hbehind.1 loaded hloaded htype)
  have hclosed : ∀ call ∈ complete, ∀ next, env.Edge call next → next ∈ complete := by
    rintro _ ⟨name, rfl, hlib, hstack⟩ _ ⟨-, sub, hsub, rfl⟩
    obtain ⟨other, hother, htype, rfl⟩ := loads_iff.mp hsub
    exact ⟨other.name, rfl,
      (hwalking.progress.finished name hlib hstack).loads other hother htype⟩
  obtain ⟨last, rfl, hlib, hstack⟩ := mem_of_reflTransGen hclosed hfirst hrest
  have hlog := (hwalking.progress.finished last hlib hstack).exports record hrecord hexport
  rw [← Option.isSome_iff_exists, firstExport, List.find?_isSome]
  exact ⟨_, hlog, by simpa using hname⟩

end Walking

/-- The task returns, in whatever state the walk is. -/
def Task.Links (env : Env) (root : Call) (names : Finset Path) (loader : Loader)
    (stop : Option Stop) (after : Loader) : Task → Prop
  | .open call => ∀ stack pending later log, Place env root stack call →
      Progress env names stack pending log loader →
      log.length + exportCount (env.symbols call) + env.left names loader.libs +
        later ≤ symsLength →
      stop = none ∧ ∃ out,
        Linked env names stack pending later log out loader call (env.items call) after
  | .walk call h base k symbols => ∀ stack pending later log,
      Walking env root names stack pending later log loader call h base k symbols →
      stop = none ∧ ∃ out,
        Linked env names stack pending later log out loader call
          (symbols.filterMap (item call)) after

section Steps

variable {loader middle after : Loader} {call : Call} {h k : ℕ} {base : UInt64}
  {sym : Symbol} {symbols : List Symbol} {stop : Option Stop}

theorem links_accepted {all : List Symbol}
    (hbase : env.mmap call = some base) (htable : env.table call = some all)
    (ih : (Task.walk call loader.maps.length base 0 all).Links env root names
      ((loader.opened call).mapped call base all) stop after) :
    (Task.open call).Links env root names loader stop after := by
  intro stack pending later log hplace hprogress hroom
  have hsymbols : env.symbols call = all := by
    rw [Env.symbols, htable]
    rfl
  rw [hsymbols] at hroom
  have hwalking : Walking env root names stack pending later log
      ((loader.opened call).mapped call base all) call loader.maps.length base 0 all := by
    refine ⟨hplace, hbase, hprogress.mapped call base all, hroom, ?_, [], ?_⟩
    · simp [Loader.kindsAt, Loader.mapped, Loader.opened, hsymbols]
    · simp [hsymbols]
  obtain ⟨hstop, out, hlinked⟩ := ih stack pending later log hwalking
  refine ⟨hstop, out, ?_, hlinked.progress, hlinked.room, hlinked.finished⟩
  rw [Env.items, hsymbols]
  exact hlinked.walk

theorem links_returned (hopen : (Task.open call).Links env root names loader none after)
    (h : ℕ) : (Task.open call).Links env root names loader none (after.finished h) := by
  intro stack pending later log hplace hprogress hroom
  obtain ⟨hstop, out, hlinked⟩ := hopen stack pending later log hplace hprogress hroom
  exact ⟨hstop, out, hlinked.walk, hlinked.progress.returned h, hlinked.room,
    hlinked.finished⟩

theorem links_done : (Task.walk call h base k []).Links env root names loader none
    loader := by
  intro stack pending later log hwalking
  obtain ⟨before, hsplit, hlength, hloads, hexports⟩ := hwalking.split
  rw [List.append_nil] at hsplit
  refine ⟨rfl, [], .nil, ?_, ?_, ?_⟩
  · rw [List.append_nil]
    have hprogress := hwalking.progress
    refine { hprogress with bound := fun i j sym himport hpending => ?_ }
    apply hprogress.bound i j sym himport
    rintro (hmem | ⟨rfl, hle⟩)
    · exact hpending hmem
    · have hkind := himport.kind hwalking.kinds
      rw [List.getElem?_eq_none] at hkind
      · cases hkind
      · rw [List.length_map, hsplit, hlength]
        exact hle
  · rw [List.append_nil]
    have hroom := hwalking.room
    omega
  · rw [List.append_nil]
    exact ⟨fun sym hsym => hloads sym (hsplit ▸ hsym),
      fun sym hsym => hexports sym (hsplit ▸ hsym)⟩

theorem exportCount_cons (hexport : sym.type ≠ '#'.toUInt8) :
    exportCount (sym :: symbols) = exportCount symbols := by
  simp [exportCount, hexport]

theorem item_none (hplus : sym.type ≠ '+'.toUInt8) (hsharp : sym.type ≠ '#'.toUInt8) :
    item call sym = none := by
  rw [item, if_neg hplus, if_neg hsharp]

theorem links_known (hlink : env.Linkable root names) (htype : sym.type = '+'.toUInt8)
    (hknown : sym.name ∈ loader.libs)
    (ih : (Task.walk call h base (k + 1) symbols).Links env root names loader stop
      after) :
    (Task.walk call h base k (sym :: symbols)).Links env root names loader stop
      after := by
  intro stack pending later log hwalking
  have hexport : sym.type ≠ '#'.toUInt8 := by
    rw [htype]
    decide
  have hroom := hwalking.room
  rw [exportCount_cons hexport] at hroom
  obtain ⟨hstop, out, hlinked⟩ := ih stack pending later log
    (hwalking.next (hwalking.advance (by rw [htype]; decide)) hroom hwalking.kinds
      (List.Subset.refl _) (List.Subset.refl _)
      (fun _ => ⟨hknown, hwalking.not_mem_stack hlink htype⟩)
      (fun hsharp => absurd hsharp hexport))
  refine ⟨hstop, out, ?_, hlinked.progress, hlinked.room, hlinked.finished⟩
  have hitem : item call sym = some (.enter sym.name) := if_pos htype
  rw [List.filterMap_cons_some hitem]
  exact .skip hknown hlinked.walk

/-- The place of a library that this record loads. -/
theorem Walking.enter {stack : Set Path} {pending : Set (ℕ × ℕ)} {later : ℕ}
    {log : List Export} (hlink : env.Linkable root names)
    (hwalking : Walking env root names stack pending later log loader call h base k
      (sym :: symbols)) (htype : sym.type = '+'.toUInt8) :
    Place env root (insert sym.name stack) (.load sym.name) where
  reached := hwalking.place.reached.tail
    (hlink.edge hwalking.place.reached hwalking.mem htype)
  ancestors := by
    rintro name (rfl | hstack)
    · exact .refl
    · exact (hwalking.place.ancestors name hstack).tail
        (hlink.edge hwalking.place.reached hwalking.mem htype)

/-- What remains to be done when the library of this record has been opened. -/
theorem links_opening (hlink : env.Linkable root names)
    (htype : sym.type = '+'.toUInt8) (hnew : sym.name ∉ loader.libs)
    (ih : (Task.open (.load sym.name)).Links env root names (loader.listed sym.name)
      stop after)
    {stack : Set Path} {pending : Set (ℕ × ℕ)} {later : ℕ} {log : List Export}
    (hwalking : Walking env root names stack pending later log loader call h base k
      (sym :: symbols)) :
    stop = none ∧ ∃ out, Linked env names (insert sym.name stack)
      (pending ∪ {site | site.1 = h ∧ k + 1 ≤ site.2}) (exportCount symbols + later)
      log out (loader.listed sym.name) (.load sym.name) (env.items (.load sym.name))
      after := by
  have hname := hwalking.mem_names hlink htype
  have hroom := hwalking.room
  rw [exportCount_cons (by rw [htype]; decide), ← left_listed env hname hnew] at hroom
  apply ih _ _ _ _ (hwalking.enter hlink htype)
    ((hwalking.advance (by rw [htype]; decide)).listed hname hnew)
  show log.length + exportCount (env.symbols (.load sym.name)) +
    env.left names (loader.libs ++ [sym.name]) + (exportCount symbols + later) ≤ symsLength
  omega

theorem links_loaded (hlink : env.Linkable root names)
    (htype : sym.type = '+'.toUInt8) (hnew : sym.name ∉ loader.libs)
    (hopen : Exec env (loader.listed sym.name) (.open (.load sym.name)) none middle)
    (ihOpen : (Task.open (.load sym.name)).Links env root names
      (loader.listed sym.name) none middle)
    (ihRest : (Task.walk call h base (k + 1) symbols).Links env root names middle stop
      after) :
    (Task.walk call h base k (sym :: symbols)).Links env root names loader stop
      after := by
  intro stack pending later log hwalking
  obtain ⟨-, inner, hinner⟩ := links_opening hlink htype hnew ihOpen hwalking
  have hprogress := hinner.progress.unstack hinner.finished
  have hmem : sym.name ∈ middle.libs := by
    apply hopen.libs_subset
    simp [Loader.listed]
  have hroom := hinner.room
  obtain ⟨hstop, out, hlinked⟩ := ihRest stack pending later (log ++ inner)
    (hwalking.next hprogress (by omega) (hopen.kindsAt hwalking.kinds)
      (fun name hname => hopen.libs_subset (List.mem_append_left _ hname))
      (List.subset_append_left _ _)
      (fun _ => ⟨hmem, hwalking.not_mem_stack hlink htype⟩)
      (fun hsharp => absurd (htype.symm.trans hsharp) (by decide)))
  refine ⟨hstop, inner ++ out, ?_, ?_, ?_, ?_⟩
  · have hitem : item call sym = some (.enter sym.name) := if_pos htype
    rw [List.filterMap_cons_some hitem]
    exact .enter hnew hinner.walk hlinked.walk
  · exact List.append_assoc log inner out ▸ hlinked.progress
  · exact List.append_assoc log inner out ▸ hlinked.room
  · exact List.append_assoc log inner out ▸ hlinked.finished

theorem links_resolved {entry : Entry} (hlink : env.Linkable root names)
    (htype : sym.type = '?'.toUInt8) (hentry : loader.entry? sym.name = some entry)
    (ih : (Task.walk call h base (k + 1) symbols).Links env root names
      (loader.patch h k entry.offset) stop after) :
    (Task.walk call h base k (sym :: symbols)).Links env root names loader stop
      after := by
  intro stack pending later log hwalking
  have hexport : sym.type ≠ '#'.toUInt8 := by
    rw [htype]
    decide
  have hroom := hwalking.room
  rw [exportCount_cons hexport] at hroom
  have hname := hlink.named call hwalking.place.reached sym hwalking.mem
  rw [entry?_symsOf hwalking.progress.syms_eq hname] at hentry
  obtain ⟨exported, hfirst, rfl⟩ := Option.map_eq_some_iff.mp hentry
  have hpatched := hwalking.progress.patch (h := h) (k := k) fun other himport =>
    ⟨exported, (hwalking.importAt himport).2 ▸ hfirst, rfl⟩
  obtain ⟨hstop, out, hlinked⟩ := ih stack pending later log
    (hwalking.next hpatched hroom ((kindsAt_patch ..).trans hwalking.kinds)
      (List.Subset.refl _) (List.Subset.refl _)
      (fun hplus => absurd (htype.symm.trans hplus) (by decide))
      (fun hsharp => absurd hsharp hexport))
  refine ⟨hstop, out, ?_, hlinked.progress, hlinked.room, hlinked.finished⟩
  rw [List.filterMap_cons_none (item_none (by rw [htype]; decide) hexport)]
  exact hlinked.walk

theorem links_ignored (htype : sym.type ≠ '+'.toUInt8 ∧ sym.type ≠ '?'.toUInt8 ∧
      sym.type ≠ '#'.toUInt8)
    (ih : (Task.walk call h base (k + 1) symbols).Links env root names loader stop
      after) :
    (Task.walk call h base k (sym :: symbols)).Links env root names loader stop
      after := by
  intro stack pending later log hwalking
  obtain ⟨hload, himport, hexport⟩ := htype
  have hroom := hwalking.room
  rw [exportCount_cons hexport] at hroom
  obtain ⟨hstop, out, hlinked⟩ := ih stack pending later log
    (hwalking.next (hwalking.advance himport) hroom hwalking.kinds
      (List.Subset.refl _) (List.Subset.refl _)
      (fun hplus => absurd hplus hload) (fun hsharp => absurd hsharp hexport))
  refine ⟨hstop, out, ?_, hlinked.progress, hlinked.room, hlinked.finished⟩
  rw [List.filterMap_cons_none (item_none hload hexport)]
  exact hlinked.walk

/-- There is a slot for the next export. -/
theorem Walking.slot {stack : Set Path} {pending : Set (ℕ × ℕ)} {later : ℕ}
    {log : List Export}
    (hwalking : Walking env root names stack pending later log loader call h base k
      (sym :: symbols)) (htype : sym.type = '#'.toUInt8) :
    log.length + 1 + exportCount symbols + env.left names loader.libs + later ≤
      symsLength ∧ loader.slot? = some log.length := by
  have hcount : exportCount (sym :: symbols) = exportCount symbols + 1 := by
    simp [exportCount, htype]
  have hroom := hwalking.room
  rw [hcount] at hroom
  have hprogress := hwalking.progress
  exact ⟨by omega, slot?_symsOf hprogress.syms_eq hprogress.named (by omega)⟩

theorem links_exported {i : ℕ} (hlink : env.Linkable root names)
    (htype : sym.type = '#'.toUInt8) (hslot : loader.slot? = some i)
    (ih : (Task.walk call h base (k + 1) symbols).Links env root names
      (loader.exported i (base + sym.offset) sym.name) stop after) :
    (Task.walk call h base k (sym :: symbols)).Links env root names loader stop
      after := by
  intro stack pending later log hwalking
  obtain ⟨hroom, hfree⟩ := hwalking.slot htype
  rw [hfree, Option.some_inj] at hslot
  subst hslot
  have hname := hlink.named call hwalking.place.reached sym hwalking.mem
  have haddress : env.address ⟨call, sym⟩ = base + sym.offset := by
    rw [Env.address, hwalking.base_eq]
    rfl
  have hprogress := (hwalking.advance (by rw [htype]; decide)).exported
    ⟨call, sym⟩ hname (by omega)
  rw [haddress] at hprogress
  have hroom' : (log ++ [Export.mk call sym]).length + exportCount symbols +
      env.left names loader.libs + later ≤ symsLength := by
    rw [List.length_append, List.length_singleton]
    exact hroom
  obtain ⟨hstop, out, hlinked⟩ := ih stack pending later (log ++ [⟨call, sym⟩])
    (hwalking.next hprogress hroom' hwalking.kinds (List.Subset.refl _)
      (List.subset_append_left _ _)
      (fun hplus => absurd (htype.symm.trans hplus) (by decide))
      (fun _ => List.mem_append_right _ (List.mem_singleton_self _)))
  have happend : log ++ [Export.mk call sym] ++ out = log ++ ⟨call, sym⟩ :: out :=
    List.append_assoc log [⟨call, sym⟩] out
  refine ⟨hstop, ⟨call, sym⟩ :: out, ?_, ?_, ?_, ?_⟩
  · have hplus : sym.type ≠ '+'.toUInt8 := by
      rw [htype]
      decide
    have hitem : item call sym = some (.emit ⟨call, sym⟩) := by
      rw [item, if_neg hplus, if_pos htype]
    rw [List.filterMap_cons_some hitem]
    exact .emit hlinked.walk
  · exact happend ▸ hlinked.progress
  · exact happend ▸ hlinked.room
  · exact happend ▸ hlinked.finished

/-- There is a slot for every library. -/
theorem Walking.room_libs {stack : Set Path} {pending : Set (ℕ × ℕ)} {later : ℕ}
    {log : List Export} (hlink : env.Linkable root names)
    (hwalking : Walking env root names stack pending later log loader call h base k
      (sym :: symbols)) (htype : sym.type = '+'.toUInt8)
    (hnew : sym.name ∉ loader.libs) : loader.libs.length < libsLength := by
  have hprogress := hwalking.progress
  have hsubset : insert sym.name loader.libs.toFinset ⊆ names := by
    intro name hname
    obtain rfl | hname := Finset.mem_insert.mp hname
    · exact hwalking.mem_names hlink htype
    · exact hprogress.subset name (List.mem_toFinset.mp hname)
  calc loader.libs.length
      = loader.libs.toFinset.card := (List.toFinset_card_of_nodup hprogress.nodup).symm
    _ < (insert sym.name loader.libs.toFinset).card := by
        rw [Finset.card_insert_of_notMem (by simpa using hnew)]
        exact Nat.lt_succ_self _
    _ ≤ names.card := Finset.card_le_card hsubset
    _ ≤ libsLength := hlink.names_le

end Steps

/-- In a linkable graph every task of the walk returns. -/
theorem Exec.links {loader after : Loader} {task : Task} {stop : Option Stop}
    (hlink : env.Linkable root names) (hexec : Exec env loader task stop after) :
    task.Links env root names loader stop after := by
  induction hexec with
  | refused hrefused =>
      intro stack pending later log hplace
      exact absurd (hlink.opens _ hplace.reached).1 hrefused
  | faulted _ htable =>
      intro stack pending later log hplace
      have hsome := (hlink.opens _ hplace.reached).2
      rw [htable] at hsome
      cases hsome
  | accepted _ hbase htable _ ih => exact links_returned (links_accepted hbase htable ih) _
  | interrupted _ hbase htable _ ih => exact links_accepted hbase htable ih
  | done => exact links_done
  | known htype hknown _ ih => exact links_known hlink htype hknown ih
  | loaded htype hnew _ hopen _ ihOpen ihRest =>
      exact links_loaded hlink htype hnew hopen ihOpen ihRest
  | stopped htype hnew _ _ ih =>
      intro stack pending later log hwalking
      cases (links_opening hlink htype hnew ih hwalking).1
  | full htype hnew hfull =>
      intro stack pending later log hwalking
      exact absurd (hwalking.room_libs hlink htype hnew) (not_lt.mpr hfull)
  | resolved htype hentry _ ih => exact links_resolved hlink htype hentry ih
  | unresolved htype hnone =>
      intro stack pending later log hwalking
      obtain ⟨exported, hfirst⟩ := hwalking.provided hlink htype
      have hname := hlink.named _ hwalking.place.reached _ hwalking.mem
      rw [entry?_symsOf hwalking.progress.syms_eq hname, hfirst] at hnone
      cases hnone
  | exported htype hslot _ ih => exact links_exported hlink htype hslot ih
  | crowded htype hnone =>
      intro stack pending later log hwalking
      rw [(hwalking.slot htype).2] at hnone
      cases hnone
  | ignored htype _ ih => exact links_ignored htype ih

/-- The walk exports only what the root reaches. -/
theorem Env.Linkable.reaches_log (hlink : env.Linkable root names) {seen : List Path}
    {log : List Export} (hwalk : env.WalkFrom root seen log) :
    ∀ exported ∈ log, env.Reaches root exported.call := by
  have hitems : ∀ call, env.Reaches root call →
      (∀ name, .enter name ∈ env.items call → env.Reaches root (.load name)) ∧
        ∀ exported : Export, .emit exported ∈ env.items call →
          env.Reaches root exported.call := by
    intro call hreached
    constructor
    · intro name hname
      obtain ⟨sym, hsym, hitem⟩ := List.mem_filterMap.mp hname
      unfold item at hitem
      split_ifs at hitem with hplus hsharp
      · cases hitem
        exact hreached.tail (hlink.edge hreached hsym hplus)
      · cases hitem
    · intro exported hexported
      obtain ⟨sym, hsym, hitem⟩ := List.mem_filterMap.mp hexported
      unfold item at hitem
      split_ifs at hitem with hplus hsharp
      · cases hitem
      · cases hitem
        exact hreached
  exact hwalk.forall_mem (fun name hname => hitems (.load name) hname)
    (hitems root .refl).1 (hitems root .refl).2

end Links

theorem progress_init (env : Env) (names : Finset Path) :
    Progress env names ∅ ∅ [] .init where
  nodup := List.nodup_nil
  subset _ hname := absurd hname List.not_mem_nil
  syms_eq := rfl
  named _ hexported := absurd hexported List.not_mem_nil
  finished _ hname := absurd hname List.not_mem_nil
  bound _ _ _ himport := by
    obtain ⟨-, mapping, hmapping, -⟩ := himport
    cases hmapping

/-- Nothing is pending when the first call returns. -/
theorem Linked.bound_of_mem {env : Env} {names : Finset Path} {stack : Set Path}
    {later : ℕ} {log out : List Export} {loader after : Loader} {call : Call}
    {items : List (Item Path Export)}
    (hlinked : Linked env names stack ∅ later log out loader call items after) :
    ∀ mapping ∈ after.maps, ∀ sym ∈ mapping.symbols, sym.type = '?'.toUInt8 →
      env.Bound (log ++ out) sym := by
  intro mapping hmapping sym hsym htype
  obtain ⟨i, hi⟩ := List.mem_iff_getElem?.mp hmapping
  obtain ⟨j, hj⟩ := List.mem_iff_getElem?.mp hsym
  exact hlinked.progress.bound i j sym ⟨htype, mapping, hi, hj⟩ (Set.notMem_empty _)

/-- Libraries lie where `mmap` put them. -/
theorem Exec.bases {env : Env} {loader after : Loader} {task : Task}
    {stop : Option Stop} (hexec : Exec env loader task stop after)
    (hbefore : ∀ mapping ∈ loader.maps, env.mmap mapping.call = some mapping.base) :
    ∀ mapping ∈ after.maps, env.mmap mapping.call = some mapping.base := by
  induction hexec with
  | refused | faulted | done | full | unresolved | crowded => exact hbefore
  | accepted _ hbase _ _ ih | interrupted _ hbase _ _ ih =>
      apply ih
      intro mapping hmapping
      obtain hmapping | hnew := List.mem_append.mp hmapping
      · exact hbefore mapping hmapping
      · cases List.mem_singleton.mp hnew
        exact hbase
  | known _ _ _ ih => exact ih hbefore
  | resolved _ _ _ ih =>
      apply ih
      intro mapping hmapping
      obtain ⟨i, hi⟩ := List.mem_iff_getElem?.mp hmapping
      rw [Loader.patch, List.getElem?_modify] at hi
      obtain ⟨old, hold, rfl⟩ := Option.map_eq_some_iff.mp hi
      have hmmap := hbefore old (List.mem_of_getElem? hold)
      split_ifs
      · exact hmmap
      · exact hmmap
  | exported _ _ _ ih => exact ih hbefore
  | ignored _ _ ih => exact ih hbefore
  | loaded _ _ _ _ _ ihOpen ihRest => exact ihRest (ihOpen hbefore)
  | stopped _ _ _ _ ih => exact ih hbefore

/-- `dlopen` of the root of a linkable graph returns, has opened every library,
and every IMPORT record holds the address of the first export of its name on
the depth-first walk. -/
theorem imports_bound_to_first_export (env : Env) (root : Path) (names : Finset Path)
    (extra : ℕ) (hlink : env.Linkable (.top 0 root) names) :
    ∃ after, dlopen env (libsLength + 1 + extra) (.top 0 root) .init =
        .ok (some 0) after ∧
      (∀ call, env.Reaches (.top 0 root) call → call ∈ after.calls) ∧
      (∃ seen log, env.WalkFrom (.top 0 root) seen log) ∧
      (∀ seen log, env.WalkFrom (.top 0 root) seen log →
        ∀ mapping ∈ after.maps, ∀ sym ∈ mapping.symbols, sym.type = '?'.toUInt8 →
          ∃ exported library, firstExport log sym.name = some exported ∧
            library ∈ after.maps ∧ library.call = exported.call ∧
            sym.offset = library.base + exported.record.offset) ∧
      ∀ mapping ∈ after.maps, ∀ sym ∈ mapping.symbols, sym.type = '?'.toUInt8 →
        ∀ mapping' ∈ after.maps, ∀ sym' ∈ mapping'.symbols,
          sym'.type = '?'.toUInt8 → sym'.name = sym.name →
            sym'.offset = sym.offset := by
  have hempty : Loader.init.libs.length ≤ libsLength := Nat.zero_le _
  have hfuel := dlopen_fuel env (.top 0 root) .init hempty
    (show libsLength < libsLength + 1 + extra by omega)
  have hexec := dlopen_exec env (.top 0 root) hempty
  obtain ⟨hstop, log, hlinked⟩ := hexec.links hlink ∅ ∅ 0 []
    ⟨.refl, fun _ hname => absurd hname (Set.notMem_empty _)⟩
    (progress_init env names) (by simpa [Env.left, Loader.init] using hlink.exports_le)
  cases hresult : dlopen env (libsLength + 1) (.top 0 root) .init with
  | error stop after =>
      rw [hresult] at hstop
      cases hstop
  | ok value after =>
      rw [hresult] at hexec hlinked
      have haccepts := (hlink.opens _ .refl).1
      obtain ⟨-, rfl⟩ | ⟨hrefused, -, -⟩ := dlopen_value hresult
      · have hsettled := (Loader.Settled.init env).step hexec
        have hcalls : ∀ call, env.Reaches (.top 0 root) call → call ∈ after.calls :=
          fun call hreached => (hsettled.mem_calls_iff call).mpr
            ⟨⟨_, List.mem_singleton_self _, hreached⟩, (hlink.opens call hreached).1⟩
        have hbases := hexec.bases fun _ hmapping => absurd hmapping List.not_mem_nil
        have hbound := hlinked.bound_of_mem
        refine ⟨after, hfuel.trans hresult, hcalls, ⟨_, log, hlinked.walk⟩, ?_, ?_⟩
        · intro seen log' hwalk mapping hmapping sym hsym htype
          obtain ⟨-, rfl⟩ := hlinked.walk.unique hwalk
          obtain ⟨exported, hfirst, hoffset⟩ := hbound mapping hmapping sym hsym htype
          have hreached := hlink.reaches_log hwalk exported (List.mem_of_find?_eq_some hfirst)
          obtain ⟨library, hlibrary, hcall⟩ := List.mem_map.mp (hcalls _ hreached)
          refine ⟨exported, library, hfirst, hlibrary, hcall, ?_⟩
          rw [hoffset, Env.address, ← hcall, hbases library hlibrary]
          rfl
        · intro mapping hmapping sym hsym htype mapping' hmapping' sym' hsym' htype' hname
          obtain ⟨exported, hfirst, hoffset⟩ := hbound mapping hmapping sym hsym htype
          obtain ⟨exported', hfirst', hoffset'⟩ :=
            hbound mapping' hmapping' sym' hsym' htype'
          rw [hname, hfirst, Option.some_inj] at hfirst'
          rw [hoffset, hoffset', hfirst']
      · exact absurd haccepts hrefused

/-- The tables of `main.S`, `libhello.S` and `libc.S`; every function only
returns. -/
def shipped : List (Path × List Byte) :=
  [(bytes "main.dl", library
      [.LOAD (bytes "libc.dl"), .LOAD (bytes "libhello.dl"), .IMPORT (bytes "hello"),
        .EXPORT (bytes "main")] [.label (.sym (bytes "main")), .ascii [0xc3]]),
    (bytes "libhello.dl", library libhello
      [.label (.sym (bytes "hello")), .ascii [0xc3]]),
    (bytes "libc.dl", library [.EXPORT (bytes "putchar"), .EXPORT (bytes "exit")]
      [.label (.sym (bytes "putchar")), .ascii [0xc3],
        .label (.sym (bytes "exit")), .ascii [0xc3]])]

section Shipped

/-- The calls, each before those that it leads to. -/
def shippedCalls : List Call :=
  [.top 0 (bytes "main.dl"), .load (bytes "libhello.dl"), .load (bytes "libc.dl")]

/-- The records of the tables. -/
def shippedSymbols : Call → List Symbol
  | .top _ _ =>
      [⟨0, '+'.toUInt8, bytes "libc.dl"⟩, ⟨0, '+'.toUInt8, bytes "libhello.dl"⟩,
        ⟨0, '?'.toUInt8, bytes "hello"⟩, ⟨192, '#'.toUInt8, bytes "main"⟩]
  | .load name =>
      if name = bytes "libhello.dl" then
        [⟨0, '+'.toUInt8, bytes "libc.dl"⟩, ⟨0, '?'.toUInt8, bytes "putchar"⟩,
          ⟨160, '#'.toUInt8, bytes "hello"⟩]
      else [⟨128, '#'.toUInt8, bytes "putchar"⟩, ⟨129, '#'.toUInt8, bytes "exit"⟩]

/-- What is assembled is read once; the facts below are about the records. -/
theorem shipped_symbols : ∀ call ∈ shippedCalls,
    (Env.disk shipped).symbols call = shippedSymbols call := by
  decide +kernel

theorem shipped_edge {call next : Call} (hcall : call ∈ shippedCalls)
    (hedge : (Env.disk shipped).Edge call next) :
    next ∈ shippedCalls ∧ shippedCalls.idxOf call < shippedCalls.idxOf next := by
  have hall : ∀ call ∈ shippedCalls, ∀ sym ∈ shippedSymbols call,
      sym.type = '+'.toUInt8 → .load sym.name ∈ shippedCalls ∧
        shippedCalls.idxOf call < shippedCalls.idxOf (.load sym.name) := by
    decide +kernel
  obtain ⟨-, name, hloads, rfl⟩ := hedge
  obtain ⟨sym, hsym, htype, rfl⟩ := loads_iff.mp hloads
  rw [shipped_symbols call hcall] at hsym
  exact hall call hcall sym hsym htype

theorem shipped_reached {call : Call}
    (hreached : (Env.disk shipped).Reaches (.top 0 (bytes "main.dl")) call) :
    call ∈ shippedCalls :=
  mem_of_reflTransGen (S := {call | call ∈ shippedCalls})
    (fun _ hcall _ hedge => (shipped_edge hcall hedge).1) List.mem_cons_self hreached

theorem shipped_acyclic {call next : Call} (hcall : call ∈ shippedCalls)
    (hpath : Relation.TransGen (Env.disk shipped).Edge call next) :
    next ∈ shippedCalls ∧ shippedCalls.idxOf call < shippedCalls.idxOf next := by
  induction hpath with
  | single hedge => exact shipped_edge hcall hedge
  | tail _ hedge ih =>
      obtain ⟨hmem, hlt⟩ := shipped_edge ih.1 hedge
      exact ⟨hmem, ih.2.trans hlt⟩

theorem shipped_accepts : ∀ call ∈ shippedCalls, (Env.disk shipped).Accepts call := by
  decide +kernel

theorem shipped_linkable :
    (Env.disk shipped).Linkable (.top 0 (bytes "main.dl"))
      {bytes "libhello.dl", bytes "libc.dl"} where
  mem_names name := by
    constructor
    · intro hname
      have hall : ∀ name ∈ ({bytes "libhello.dl", bytes "libc.dl"} : Finset Path),
          ∃ sym ∈ (Env.disk shipped).symbols (.top 0 (bytes "main.dl")),
            sym.type = '+'.toUInt8 ∧ sym.name = name := by
        rw [shipped_symbols _ List.mem_cons_self]
        decide +kernel
      exact .single ⟨shipped_accepts _ List.mem_cons_self, name,
        loads_iff.mpr (hall name hname), rfl⟩
    · intro hreached
      simpa [shippedCalls] using shipped_reached hreached
  names_le := by decide
  opens call hreached := by
    have hall : ∀ call ∈ shippedCalls, ((Env.disk shipped).table call).isSome := by
      decide +kernel
    exact ⟨shipped_accepts call (shipped_reached hreached),
      hall call (shipped_reached hreached)⟩
  acyclic call hreached hcycle :=
    absurd (shipped_acyclic (shipped_reached hreached) hcycle).2 (lt_irrefl _)
  exports_le := by decide +kernel
  named call hreached := by
    have hall : ∀ call ∈ shippedCalls, ∀ sym ∈ shippedSymbols call, sym.name ≠ [] := by
      decide +kernel
    rw [shipped_symbols call (shipped_reached hreached)]
    exact hall call (shipped_reached hreached)
  ordered call hreached := by
    have hall : ∀ call ∈ shippedCalls, (shippedSymbols call).Pairwise
        fun before behind =>
          before.type = '?'.toUInt8 → behind.type ≠ '+'.toUInt8 := by
      decide +kernel
    rw [shipped_symbols call (shipped_reached hreached)]
    exact hall call (shipped_reached hreached)
  provided call hreached sym hsym htype := by
    -- each import is exported by a library that is loaded directly
    have hall : ∀ call ∈ shippedCalls, ∀ sym ∈ shippedSymbols call, sym.type = '?'.toUInt8 →
        ∃ loaded ∈ shippedSymbols call, loaded.type = '+'.toUInt8 ∧
          .load loaded.name ∈ shippedCalls ∧
            ∃ record ∈ shippedSymbols (.load loaded.name),
              record.type = '#'.toUInt8 ∧ record.name = sym.name := by
      decide +kernel
    have hcall := shipped_reached hreached
    have hsame := shipped_symbols call hcall
    obtain ⟨loaded, hloaded, hplus, hlibrary, hrecord⟩ := hall call hcall sym (hsame ▸ hsym) htype
    refine ⟨.load loaded.name, .single ⟨shipped_accepts call hcall, loaded.name,
      loads_iff.mpr ⟨loaded, hsame ▸ hloaded, hplus, rfl⟩, rfl⟩, ?_⟩
    rwa [shipped_symbols _ hlibrary]

theorem shipped_bound :
    (Env.disk shipped).Linkable (.top 0 (bytes "main.dl"))
      {bytes "libhello.dl", bytes "libc.dl"} ∧
    ∃ after, dlopen (Env.disk shipped) (libsLength + 1) (.top 0 (bytes "main.dl"))
        .init = .ok (some 0) after ∧
      ∀ call ∈ shippedCalls, call ∈ after.calls := by
  refine ⟨shipped_linkable, ?_⟩
  obtain ⟨after, hreturns, hcalls, -⟩ :=
    imports_bound_to_first_export _ _ _ 0 shipped_linkable
  refine ⟨after, hreturns, fun call hcall => hcalls call ?_⟩
  simp only [shippedCalls, List.mem_cons, List.not_mem_nil, or_false] at hcall
  obtain rfl | rfl | rfl := hcall
  · exact .refl
  · exact (shipped_linkable.mem_names _).mp (by simp)
  · exact (shipped_linkable.mem_names _).mp (by simp)

end Shipped

end JyyOS.Dl
