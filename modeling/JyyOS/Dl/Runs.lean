import JyyOS.Dl.Loader

/-!
# Runs of the loader

What a call of `dlopen` can do, as one relation: the cases of `dlopen`,
`dlload` and of the loop over the records, each with its guard.  The functions
of the loader produce such runs whenever their fuel suffices.
-/

namespace JyyOS.Dl

/-! ## The relation -/

/-- The checks of `dlopen` pass. -/
def Env.Accepts (env : Env) (call : Call) : Prop :=
  0 ≤ env.openFd call ∧ ¬ env.ShortRead call ∧
    (Header.read (env.hdr call)).magic = magic ∧ (env.mmap call).isSome

namespace Loader

def opened (loader : Loader) (call : Call) : Loader :=
  { loader with opens := loader.opens ++ [call] }

def mapped (loader : Loader) (call : Call) (base : UInt64)
    (symbols : List Symbol) : Loader :=
  { loader with maps := loader.maps ++ [⟨call, base, symbols⟩] }

/-- A call returns NULL. -/
def refused (loader : Loader) (call : Call) : Loader :=
  { loader with failed := loader.failed ++ [call] }

/-- The library `h` is returned. -/
def finished (loader : Loader) (h : ℕ) : Loader :=
  { loader with returned := loader.returned ++ [h] }

def listed (loader : Loader) (name : Path) : Loader :=
  { loader with libs := loader.libs ++ [name] }

def exported (loader : Loader) (i : ℕ) (addr : UInt64) (name : Path) : Loader :=
  { loader with syms := loader.syms.set i ⟨addr, name⟩ }

/-- The entry that `dlsym` finds. -/
def entry? (loader : Loader) (name : Path) : Option Entry :=
  loader.syms.find? (fun entry => entry.name = name)

/-- The slot that `dlexport` fills. -/
def slot? (loader : Loader) : Option ℕ :=
  loader.syms.findIdx? (fun entry => entry.name = [])

end Loader

/-- What is to be done: a call of `dlopen`, or its loop over the records of the
library `h` from record `k` on. -/
inductive Task where
  | open (call : Call)
  | walk (call : Call) (h : ℕ) (base : UInt64) (k : ℕ) (symbols : List Symbol)

/-- A task takes the loader to a state and returns there, or is stopped. -/
inductive Exec (env : Env) : Loader → Task → Option Stop → Loader → Prop
  | refused {loader : Loader} {call : Call} (hrefused : ¬ env.Accepts call) :
      Exec env loader (.open call) none ((loader.opened call).refused call)
  | faulted {loader : Loader} {call : Call} (haccepts : env.Accepts call)
      (htable : env.table call = none) :
      Exec env loader (.open call) (some .fault) (loader.opened call)
  | accepted {loader after : Loader} {call : Call} {base : UInt64}
      {symbols : List Symbol} (haccepts : env.Accepts call)
      (hbase : env.mmap call = some base) (htable : env.table call = some symbols)
      (hwalk : Exec env ((loader.opened call).mapped call base symbols)
        (.walk call loader.maps.length base 0 symbols) none after) :
      Exec env loader (.open call) none (after.finished loader.maps.length)
  | interrupted {loader after : Loader} {call : Call} {base : UInt64}
      {symbols : List Symbol} {stop : Stop} (haccepts : env.Accepts call)
      (hbase : env.mmap call = some base) (htable : env.table call = some symbols)
      (hwalk : Exec env ((loader.opened call).mapped call base symbols)
        (.walk call loader.maps.length base 0 symbols) (some stop) after) :
      Exec env loader (.open call) (some stop) after
  | done {loader : Loader} {call : Call} {h k : ℕ} {base : UInt64} :
      Exec env loader (.walk call h base k []) none loader
  | known {loader after : Loader} {call : Call} {h k : ℕ} {base : UInt64}
      {sym : Symbol} {symbols : List Symbol} {stop : Option Stop}
      (htype : sym.type = '+'.toUInt8) (hknown : sym.name ∈ loader.libs)
      (hrest : Exec env loader (.walk call h base (k + 1) symbols) stop after) :
      Exec env loader (.walk call h base k (sym :: symbols)) stop after
  | loaded {loader middle after : Loader} {call : Call} {h k : ℕ}
      {base : UInt64} {sym : Symbol} {symbols : List Symbol}
      {stop : Option Stop} (htype : sym.type = '+'.toUInt8)
      (hnew : sym.name ∉ loader.libs) (hroom : loader.libs.length < libsLength)
      (hopen : Exec env (loader.listed sym.name) (.open (.load sym.name)) none middle)
      (hrest : Exec env middle (.walk call h base (k + 1) symbols) stop after) :
      Exec env loader (.walk call h base k (sym :: symbols)) stop after
  | stopped {loader after : Loader} {call : Call} {h k : ℕ} {base : UInt64}
      {sym : Symbol} {symbols : List Symbol} {stop : Stop}
      (htype : sym.type = '+'.toUInt8) (hnew : sym.name ∉ loader.libs)
      (hroom : loader.libs.length < libsLength)
      (hopen : Exec env (loader.listed sym.name) (.open (.load sym.name))
        (some stop) after) :
      Exec env loader (.walk call h base k (sym :: symbols)) (some stop) after
  | full {loader : Loader} {call : Call} {h k : ℕ} {base : UInt64}
      {sym : Symbol} {symbols : List Symbol} (htype : sym.type = '+'.toUInt8)
      (hnew : sym.name ∉ loader.libs) (hfull : libsLength ≤ loader.libs.length) :
      Exec env loader (.walk call h base k (sym :: symbols)) (some .assert) loader
  | resolved {loader after : Loader} {call : Call} {h k : ℕ} {base : UInt64}
      {sym : Symbol} {symbols : List Symbol} {entry : Entry}
      {stop : Option Stop} (htype : sym.type = '?'.toUInt8)
      (hentry : loader.entry? sym.name = some entry)
      (hrest : Exec env (loader.patch h k entry.offset)
        (.walk call h base (k + 1) symbols) stop after) :
      Exec env loader (.walk call h base k (sym :: symbols)) stop after
  | unresolved {loader : Loader} {call : Call} {h k : ℕ} {base : UInt64}
      {sym : Symbol} {symbols : List Symbol} (htype : sym.type = '?'.toUInt8)
      (hnone : loader.entry? sym.name = none) :
      Exec env loader (.walk call h base k (sym :: symbols)) (some .assert) loader
  | exported {loader after : Loader} {call : Call} {h k i : ℕ} {base : UInt64}
      {sym : Symbol} {symbols : List Symbol} {stop : Option Stop}
      (htype : sym.type = '#'.toUInt8) (hslot : loader.slot? = some i)
      (hrest : Exec env (loader.exported i (base + sym.offset) sym.name)
        (.walk call h base (k + 1) symbols) stop after) :
      Exec env loader (.walk call h base k (sym :: symbols)) stop after
  | crowded {loader : Loader} {call : Call} {h k : ℕ} {base : UInt64}
      {sym : Symbol} {symbols : List Symbol} (htype : sym.type = '#'.toUInt8)
      (hnone : loader.slot? = none) :
      Exec env loader (.walk call h base k (sym :: symbols)) (some .assert) loader
  | ignored {loader after : Loader} {call : Call} {h k : ℕ} {base : UInt64}
      {sym : Symbol} {symbols : List Symbol} {stop : Option Stop}
      (htype : sym.type ≠ '+'.toUInt8 ∧ sym.type ≠ '?'.toUInt8 ∧
        sym.type ≠ '#'.toUInt8)
      (hrest : Exec env loader (.walk call h base (k + 1) symbols) stop after) :
      Exec env loader (.walk call h base k (sym :: symbols)) stop after

/-! ## What every run keeps -/

section Exec

variable {env : Env} {loader after : Loader} {task : Task} {stop : Option Stop}

/-- The call that a task makes itself. -/
def Task.first : Task → List Call
  | .open call => [call]
  | .walk .. => []

/-- Slots of `libs` are filled behind the others, and `dlload` calls `dlopen`
once for each. -/
theorem Exec.trace (hexec : Exec env loader task stop after) :
    ∃ names, after.libs = loader.libs ++ names ∧
      after.opens = loader.opens ++ (task.first ++ names.map Call.load) := by
  induction hexec with
  | refused => exact ⟨[], by simp [Loader.refused, Loader.opened, Task.first]⟩
  | faulted => exact ⟨[], by simp [Loader.opened, Task.first]⟩
  | done | full | unresolved | crowded => exact ⟨[], by simp [Task.first]⟩
  | accepted _ _ _ _ ih | interrupted _ _ _ _ ih =>
      obtain ⟨names, hlibs, hopens⟩ := ih
      exact ⟨names, hlibs, hopens.trans (List.append_assoc _ _ _)⟩
  | known _ _ _ ih => exact ih
  | resolved _ _ _ ih => exact ih
  | exported _ _ _ ih => exact ih
  | ignored _ _ ih => exact ih
  | loaded htype hnew hroom hopen hrest ihOpen ihRest =>
      rename_i sym symbols stop
      obtain ⟨inner, hlibs, hopens⟩ := ihOpen
      obtain ⟨names, hlibs', hopens'⟩ := ihRest
      refine ⟨sym.name :: (inner ++ names), ?_, ?_⟩
      · simp [hlibs', hlibs, Loader.listed]
      · simp [hopens', hopens, Loader.listed, Task.first]
  | stopped htype hnew hroom hopen ih =>
      rename_i sym symbols stop
      obtain ⟨names, hlibs, hopens⟩ := ih
      refine ⟨sym.name :: names, ?_, ?_⟩
      · simp [hlibs, Loader.listed]
      · simp [hopens, Loader.listed, Task.first]

theorem nodup_listed {name : Path} (hnodup : loader.libs.Nodup)
    (hnew : name ∉ loader.libs) : (loader.listed name).libs.Nodup := by
  rw [Loader.listed, ← List.concat_eq_append]
  exact hnodup.concat hnew

/-- There is a slot for every name in `libs`, and no name has two. -/
theorem Exec.libs (hexec : Exec env loader task stop after) :
    (loader.libs.length ≤ libsLength → after.libs.length ≤ libsLength) ∧
      (loader.libs.Nodup → after.libs.Nodup) := by
  induction hexec with
  | refused | faulted | done | full | unresolved | crowded => exact ⟨id, id⟩
  | accepted _ _ _ _ ih | interrupted _ _ _ _ ih => exact ih
  | known _ _ _ ih => exact ih
  | resolved _ _ _ ih => exact ih
  | exported _ _ _ ih => exact ih
  | ignored _ _ ih => exact ih
  | loaded _ hnew hroom _ _ ihOpen ihRest =>
      refine ⟨fun _ => ihRest.1 (ihOpen.1 ?_), fun hnodup => ihRest.2 (ihOpen.2 ?_)⟩
      · simpa [Loader.listed] using hroom
      · exact nodup_listed hnodup hnew
  | stopped _ hnew hroom _ ih =>
      refine ⟨fun _ => ih.1 ?_, fun hnodup => ih.2 ?_⟩
      · simpa [Loader.listed] using hroom
      · exact nodup_listed hnodup hnew

/-- Only an assertion stops a run over tables that have an end. -/
theorem Exec.stop_eq (hexec : Exec env loader task stop after)
    (hformed : ∀ call, env.Accepts call → (env.table call).isSome) :
    ∀ reason ∈ stop, reason = Stop.assert := by
  induction hexec with
  | refused | done => simp
  | faulted haccepts htable =>
      have hsome := hformed _ haccepts
      simp [htable] at hsome
  | full | unresolved | crowded => simp
  | accepted _ _ _ _ ih | interrupted _ _ _ _ ih => exact ih
  | known _ _ _ ih => exact ih
  | resolved _ _ _ ih => exact ih
  | exported _ _ _ ih => exact ih
  | ignored _ _ ih => exact ih
  | loaded _ _ _ _ _ _ ihRest => exact ihRest
  | stopped _ _ _ _ ih => exact ih

end Exec

/-! ## The functions run like this -/

section Functions

variable {env : Env} {loader : Loader} {α : Type}

/-- The result of a function is a run of the task, unless it lacked fuel. -/
def Agrees (env : Env) (loader : Loader) (task : Task) :
    EStateM.Result Stop Loader α → Prop
  | .ok _ after => Exec env loader task none after
  | .error stop after => stop = .fuel ∨ Exec env loader task (some stop) after

theorem bind_eq {β : Type} (first : Load α) (next : α → Load β) (loader : Loader) :
    (first >>= next) loader =
      match first loader with
      | .ok value after => next value after
      | .error stop after => .error stop after := by
  show EStateM.bind first next loader = _
  unfold EStateM.bind
  cases first loader with
  | ok value after => rfl
  | error stop after => rfl

theorem bind_of_ok {β : Type} {first : Load α} {value : α} {after : Loader}
    (hfirst : first loader = .ok value after) (next : α → Load β) :
    (first >>= next) loader = next value after := by
  rw [bind_eq, hfirst]

theorem get_eq (loader : Loader) : (get : Load Loader) loader = .ok loader loader :=
  rfl

theorem modify_eq (f : Loader → Loader) (loader : Loader) :
    (modify f : Load Unit) loader = .ok () (f loader) :=
  rfl

theorem dlsym_eq (name : Path) (loader : Loader) :
    dlsym name loader =
      match loader.entry? name with
      | some entry => .ok entry.offset loader
      | none => .error .assert loader := by
  unfold dlsym Loader.entry?
  rw [bind_of_ok (get_eq loader)]
  cases loader.syms.find? (fun entry => entry.name = name) with
  | none => rfl
  | some entry => rfl

theorem dlexport_eq (name : Path) (addr : UInt64) (loader : Loader) :
    dlexport name addr loader =
      match loader.slot? with
      | some i => .ok () (loader.exported i addr name)
      | none => .error .assert loader := by
  unfold dlexport Loader.slot?
  rw [bind_of_ok (get_eq loader)]
  cases loader.syms.findIdx? (fun entry => entry.name = []) with
  | none => rfl
  | some i => rfl

theorem dlload_eq (dlopen : Path → Load (Option ℕ)) (sym : Symbol)
    (loader : Loader) :
    dlload dlopen sym loader =
      if sym.name ∈ loader.libs then .ok () loader
      else if loader.libs.length < libsLength then
        match dlopen sym.name (loader.listed sym.name) with
        | .ok _ after => .ok () after
        | .error stop after => .error stop after
      else .error .assert loader := by
  unfold dlload
  rw [bind_of_ok (get_eq loader)]
  split_ifs
  · rfl
  · rw [bind_eq]
    show (dlopen sym.name >>= fun _ => pure ()) (loader.listed sym.name) = _
    rw [bind_eq]
    cases dlopen sym.name (loader.listed sym.name) with
    | ok value after => rfl
    | error stop after => rfl
  · rfl

/-- The rest of a loop after its first record. -/
theorem Agrees.rest {middle : Loader} {call : Call} {h k : ℕ} {base : UInt64}
    {sym : Symbol} {symbols : List Symbol}
    {result : EStateM.Result Stop Loader α}
    (hrest : Agrees env middle (.walk call h base (k + 1) symbols) result)
    (hfirst : ∀ stop after,
      Exec env middle (.walk call h base (k + 1) symbols) stop after →
        Exec env loader (.walk call h base k (sym :: symbols)) stop after) :
    Agrees env loader (.walk call h base k (sym :: symbols)) result := by
  cases result with
  | ok value after => exact hfirst none after hrest
  | error stop after => exact hrest.imp id (hfirst (some stop) after)

theorem walkSymbols_agrees {dlopen : Path → Load (Option ℕ)}
    (hopen : ∀ name loader,
      Agrees env loader (.open (.load name)) (dlopen name loader))
    (call : Call) (h : ℕ) (base : UInt64) (symbols : List Symbol) (k : ℕ)
    (loader : Loader) :
    Agrees env loader (.walk call h base k symbols)
      (walkSymbols dlopen h base k symbols loader) := by
  induction symbols generalizing k loader with
  | nil => exact .done
  | cons sym symbols ih =>
      rw [walkSymbols]
      split_ifs with hload himport hexport
      · rw [bind_eq, dlload_eq]
        split_ifs with hknown hroom
        · exact (ih (k + 1) loader).rest fun _ _ => .known hload hknown
        · have hagrees := hopen sym.name (loader.listed sym.name)
          cases hresult : dlopen sym.name (loader.listed sym.name) with
          | ok value middle =>
              rw [hresult] at hagrees
              exact (ih (k + 1) middle).rest fun _ _ => .loaded hload hknown hroom hagrees
          | error stop after =>
              rw [hresult] at hagrees
              exact hagrees.imp id (.stopped hload hknown hroom)
        · exact .inr (.full hload hknown (not_lt.mp hroom))
      · rw [bind_eq, dlsym_eq]
        cases hentry : loader.entry? sym.name with
        | none => exact .inr (.unresolved himport hentry)
        | some entry =>
            exact (ih (k + 1) (loader.patch h k entry.offset)).rest
              fun _ _ => .resolved himport hentry
      · rw [bind_eq, dlexport_eq]
        cases hslot : loader.slot? with
        | none => exact .inr (.crowded hexport hslot)
        | some i =>
            exact (ih (k + 1) (loader.exported i (base + sym.offset) sym.name)).rest
              fun _ _ => .exported hexport hslot
      · exact (ih (k + 1) loader).rest fun _ _ => .ignored ⟨hload, himport, hexport⟩

theorem dlopen_refused {call : Call} (fuel : ℕ) (hrefused : ¬ env.Accepts call) :
    dlopen env (fuel + 1) call loader =
      .ok none ((loader.opened call).refused call) := by
  rw [dlopen, bind_of_ok (modify_eq _ loader)]
  split_ifs with hfd hread hmagic
  · rfl
  · rfl
  · rfl
  · cases hmmap : env.mmap call with
    | none => rfl
    | some base =>
        exact absurd ⟨not_lt.mp hfd, hread, not_not.mp hmagic, by simp [hmmap]⟩ hrefused

theorem dlopen_accepted {call : Call} {base : UInt64} (fuel : ℕ)
    (haccepts : env.Accepts call) (hbase : env.mmap call = some base) :
    dlopen env (fuel + 1) call loader =
      match env.table call with
      | none => .error .fault (loader.opened call)
      | some symbols =>
          match walkSymbols (fun name => dlopen env fuel (.load name))
            loader.maps.length base 0 symbols
            ((loader.opened call).mapped call base symbols) with
          | .ok _ after =>
              .ok (some loader.maps.length) (after.finished loader.maps.length)
          | .error stop after => .error stop after := by
  obtain ⟨hfd, hread, hmagic, -⟩ := haccepts
  rw [dlopen, bind_of_ok (modify_eq _ loader)]
  simp only [not_lt.mpr hfd, hread, hmagic, hbase, if_false, ne_eq, not_true_eq_false]
  cases env.table call with
  | none => rfl
  | some symbols =>
      simp only [bind_eq, get_eq, modify_eq, Loader.opened, Loader.mapped]
      cases walkSymbols (fun name => dlopen env fuel (.load name))
        loader.maps.length base 0 symbols _ with
      | ok value after => rfl
      | error stop after => rfl

/-- A call of `dlopen` runs as the relation says. -/
theorem dlopen_agrees (fuel : ℕ) (call : Call) (loader : Loader) :
    Agrees env loader (.open call) (dlopen env fuel call loader) := by
  induction fuel generalizing call loader with
  | zero => exact .inl rfl
  | succ fuel ih =>
      by_cases haccepts : env.Accepts call
      · obtain ⟨base, hbase⟩ := Option.isSome_iff_exists.mp haccepts.2.2.2
        rw [dlopen_accepted fuel haccepts hbase]
        cases htable : env.table call with
        | none => exact .inr (.faulted haccepts htable)
        | some symbols =>
            have hwalk := walkSymbols_agrees (fun name => ih (.load name)) call
              loader.maps.length base symbols 0
              ((loader.opened call).mapped call base symbols)
            revert hwalk
            dsimp only
            cases walkSymbols (fun name => dlopen env fuel (.load name))
              loader.maps.length base 0 symbols
              ((loader.opened call).mapped call base symbols) with
            | ok value after => exact .accepted haccepts hbase htable
            | error stop after =>
                exact Or.imp id (.interrupted haccepts hbase htable)
      · rw [dlopen_refused fuel haccepts]
        exact .refused haccepts

/-- `dlopen` returns the library that it mapped first. -/
theorem dlopen_value {fuel : ℕ} {call : Call} {value : Option ℕ} {after : Loader}
    (hresult : dlopen env fuel call loader = .ok value after) :
    (env.Accepts call ∧ value = some loader.maps.length) ∨
      (¬ env.Accepts call ∧ value = none ∧
        after = (loader.opened call).refused call) := by
  cases fuel with
  | zero => cases hresult
  | succ fuel =>
      by_cases haccepts : env.Accepts call
      · obtain ⟨base, hbase⟩ := Option.isSome_iff_exists.mp haccepts.2.2.2
        rw [dlopen_accepted fuel haccepts hbase] at hresult
        left
        refine ⟨haccepts, ?_⟩
        split at hresult
        · cases hresult
        · split at hresult
          · cases hresult
            rfl
          · cases hresult
      · rw [dlopen_refused fuel haccepts] at hresult
        cases hresult
        exact .inr ⟨haccepts, rfl, rfl⟩

end Functions

end JyyOS.Dl
