import JyyOS.Core.Tso

/-!
# A litmus test in rounds (`mem-ordering.c`)

`T1` writes `x` and reads `y`, `T2` writes `y` and reads `x`, both at once and without
a barrier.  `Tsync` clears the variables, starts a round by the bits of `flag` and ends
the line when both threads have cleared their bit.  On x86-TSO a line may show any two
bits; when no thread reads while its own store is still in its buffer, no line shows two
zeros.
-/

namespace JyyOS.MemOrdering

open JyyOS.Transition JyyOS.Tso

/-! ## The program -/

inductive Worker where
  | T1
  | T2
deriving DecidableEq

inductive Thread where
  | worker (worker : Worker)
  | Tsync
deriving DecidableEq

inductive Loc where
  | x
  | y
  | flag
deriving DecidableEq

/-- `int` -/
abbrev Val := BitVec 32

/-- Where a thread is, by what it does next. -/
inductive Pc where
  /-- `WAIT_FOR((FLAG & 1))` in `T1`, `WAIT_FOR((FLAG & 2))` in `T2`. -/
  | waitBit
  /-- The two instructions of `write_x_read_y` or `write_y_read_x`. -/
  | write
  | read
  /-- `printf("%d ", ..)` of the value that was read. -/
  | print (value : Val)
  /-- `FLAG_XOR(1)` or `FLAG_XOR(2)` -/
  | xorBit
  /-- `x = y = 0` stores to `y` first. -/
  | clearY
  | clearX
  /-- `__sync_synchronize()` -/
  | barrier
  /-- `assert(FLAG == 0)` -/
  | check
  | assertFails
  /-- `FLAG_XOR(3)` -/
  | xorBoth
  /-- `WAIT_FOR(FLAG == 0)` -/
  | waitZero
  /-- `printf("\n")` -/
  | newline
deriving DecidableEq

def Worker.other : Worker → Worker
  | .T1 => .T2
  | .T2 => .T1

/-- The variable that the thread writes; it reads the other one. -/
def Worker.own : Worker → Loc
  | .T1 => .x
  | .T2 => .y

def Worker.bit : Worker → Val
  | .T1 => 1
  | .T2 => 2

/-- What the threads do to memory. -/
def code : Thread → Pc → Op Loc Val Pc
  | .worker worker, .waitBit => .load .flag fun value =>
      if value &&& worker.bit ≠ 0 then .write else .waitBit
  | .worker worker, .write => .store worker.own 1 .read
  | .worker worker, .read => .load worker.other.own fun value => .print value
  | .worker worker, .xorBit => .modify .flag (· ^^^ worker.bit) fun _ => .waitBit
  | .Tsync, .clearY => .store .y 0 .clearX
  | .Tsync, .clearX => .store .x 0 .barrier
  | .Tsync, .barrier => .fence .check
  | .Tsync, .check => .load .flag fun value => if value = 0 then .xorBoth else .assertFails
  | .Tsync, .xorBoth => .modify .flag (· ^^^ 3) fun _ => .waitZero
  | .Tsync, .waitZero => .load .flag fun value => if value = 0 then .newline else .waitZero
  | _, _ => .halt

/-- What the threads print, and where they go on. -/
def printf : Thread → Pc → Option (String × Pc)
  | .worker _, .print value => some (toString value.toInt ++ " ", .xorBit)
  | .Tsync, .newline => some ("\n", .clearY)
  | _, _ => none

structure State where
  machine : Tso.State Thread Loc Val Pc
  /-- What was printed, the texts of the calls one after the other. -/
  output : List String

/-- A `printf` holds the lock of `stdout`, so its text is not torn. -/
def State.step (state : State) (label : Label Thread) : Option State :=
  let access := (state.machine.step code label).map fun machine => { state with machine }
  match label with
  | .drain _ => access
  | .exec thread =>
      match printf thread (state.machine.pc thread) with
      | some (text, next) =>
          some {
            machine := { state.machine with
              pc := Function.update state.machine.pc thread next }
            output := state.output ++ [text] }
      | none => access

def start : State where
  machine :=
    { memory := fun _ => 0
      buffer := fun _ => []
      pc := fun thread => match thread with
        | .worker _ => .waitBit
        | .Tsync => .clearY }
  output := []

/-- `main` creates the three threads, which may start at any time. -/
def program : System State (Label Thread) := .ofPartial (· = start) State.step

/-- The step is no read of a variable past a store of the same thread. -/
def InOrder (state : State) : Label Thread → Prop
  | .exec (.worker worker) => state.machine.pc (.worker worker) = .read →
      state.machine.buffer (.worker worker) = []
  | _ => True

instance (state : State) : (label : Label Thread) → Decidable (InOrder state label)
  | .exec (.worker worker) => inferInstanceAs (Decidable (state.machine.pc (.worker worker) =
      .read → state.machine.buffer (.worker worker) = []))
  | .exec .Tsync | .drain _ => .isTrue trivial

/-! ## Rounds -/

/-- The texts that the two possible values are printed as. -/
def text (bit : Bool) : String := if bit then "1 " else "0 "

/-- The line of a round. -/
def line (round : Bool × Bool) : List String := [text round.1, text round.2, "\n"]

def value (bit : Bool) : Val := if bit then 1 else 0

theorem printf_value (worker : Worker) (bit : Bool) :
    printf (.worker worker) (.print (value bit)) = some (text bit, .xorBit) := by
  cases bit <;> rfl

/-- How far a worker is in the round. -/
inductive Stage where
  /-- Between two rounds. -/
  | resting
  | called
  | writing
  | reading
  | printing (bit : Bool)
  | clearing
  | ended

namespace Stage

def pc : Stage → Pc
  | .resting | .called | .ended => .waitBit
  | .writing => .write
  | .reading => .read
  | .printing bit => .print (value bit)
  | .clearing => .xorBit

/-- The bit of the worker in `flag`. -/
def bit (worker : Worker) : Stage → Val
  | .resting | .ended => 0
  | _ => worker.bit

def printed : Stage → ℕ
  | .clearing | .ended => 1
  | _ => 0

/-- The worker has read its variable. -/
def Loaded : Stage → Prop
  | .printing _ | .clearing | .ended => True
  | _ => False

/-- The store of the worker, in its buffer or in memory. -/
def Owns (own : Loc) (buffer : List (Loc × Val)) (value : Val) : Stage → Prop
  | .resting => buffer = [] ∧ (value = 0 ∨ value = 1)
  | .called | .writing => buffer = [] ∧ value = 0
  | .ended => buffer = [] ∧ value = 1
  | _ => buffer = [] ∧ value = 1 ∨ buffer = [(own, 1)] ∧ value = 0

end Stage

/-- What both bits make of `flag`. -/
def flagOf (stage : Worker → Stage) : Val := (stage .T1).bit .T1 ^^^ (stage .T2).bit .T2

/-- The workers whose variable `Tsync` has stored a zero to. -/
def zeroed : Pc → List Worker
  | .clearX => [.T2]
  | .barrier | .check | .xorBoth => [.T2, .T1]
  | _ => []

/-- The control points of `Tsync` when its assertion does not fail. -/
def Sound : Pc → Prop
  | .clearY | .clearX | .barrier | .check | .xorBoth | .waitZero | .newline => True
  | _ => False

/-- What holds in every state, and what more when the reads are in order. -/
structure Inv (inOrder : Prop) (stage : Worker → Stage) (rounds : List (Bool × Bool))
    (shown : List Bool) (state : State) : Prop where
  pc : ∀ worker, state.machine.pc (.worker worker) = (stage worker).pc
  flag : state.machine.memory .flag = flagOf stage
  resting : ∀ worker, stage worker = .resting ↔ state.machine.pc .Tsync ≠ .waitZero
  owns : ∀ worker : Worker, (stage worker).Owns worker.own
    (state.machine.buffer (.worker worker)) (state.machine.memory worker.own)
  sound : Sound (state.machine.pc .Tsync)
  clears : state.machine.buffer .Tsync <:+
    (zeroed (state.machine.pc .Tsync)).map fun worker => (worker.own, 0)
  zero : ∀ worker ∈ zeroed (state.machine.pc .Tsync),
    (worker.own, 0) ∉ state.machine.buffer .Tsync → state.machine.memory worker.own = 0
  fenced : state.machine.pc .Tsync = .check ∨ state.machine.pc .Tsync = .xorBoth →
    state.machine.buffer .Tsync = []
  output : state.output = rounds.flatMap line ++ shown.map text
  count : shown.length =
    if state.machine.pc .Tsync = .newline then 2
    else (stage .T1).printed + (stage .T2).printed
  drained : inOrder → ∀ worker, (stage worker).Loaded →
    state.machine.buffer (.worker worker) = []
  /-- One of the two reads sees the store of the other worker. -/
  seen : inOrder → state.machine.pc .Tsync = .newline ∨ (∀ worker, (stage worker).Loaded) →
    true ∈ shown ∨ ∃ worker, stage worker = .printing true
  lines : inOrder → (false, false) ∉ rounds

theorem other_ne (worker : Worker) : worker.other ≠ worker := by
  cases worker <;> decide

theorem eq_other {worker other : Worker} (hne : other ≠ worker) : other = worker.other := by
  cases worker <;> cases other <;> first | rfl | exact absurd rfl hne

theorem forall_worker {P : Worker → Prop} {worker : Worker} (hself : P worker)
    (hother : P worker.other) (any : Worker) : P any := by
  by_cases hany : any = worker
  · exact hany ▸ hself
  · exact eq_other hany ▸ hother

theorem update_sync {α : Type} (ofThread : Thread → α) (new : α) (worker : Worker) :
    Function.update ofThread .Tsync new (.worker worker) = ofThread (.worker worker) :=
  Function.update_of_ne (by simp) _ _

theorem own_ne (worker : Worker) : worker.other.own ≠ worker.own := by
  cases worker <;> decide

theorem own_ne_flag (worker : Worker) : worker.own ≠ .flag := by
  cases worker <;> decide

/-- The bit of the worker is up exactly while it is called. -/
theorem flagOf_and (stage : Worker → Stage) (worker : Worker) :
    flagOf stage &&& worker.bit = (stage worker).bit worker := by
  cases worker <;> cases hfirst : stage .T1 <;> cases hsecond : stage .T2 <;>
    simp [flagOf, hfirst, hsecond, Stage.bit, Worker.bit]

theorem flagOf_eq_zero_iff (stage : Worker → Stage) :
    flagOf stage = 0 ↔ ∀ worker, (stage worker).bit worker = 0 := by
  constructor
  · intro hflag worker
    rw [← flagOf_and, hflag]
    exact BitVec.zero_and
  · intro hbits
    rw [flagOf, hbits, hbits]
    rfl

theorem flagOf_update (stage : Worker → Stage) (worker : Worker) (next : Stage) :
    flagOf (Function.update stage worker next) =
      flagOf stage ^^^ ((stage worker).bit worker ^^^ next.bit worker) := by
  cases worker with
  | T1 =>
      show next.bit .T1 ^^^ (stage .T2).bit .T2 = _
      rw [flagOf, BitVec.xor_comm ((stage .T1).bit .T1), BitVec.xor_assoc,
        ← BitVec.xor_assoc ((stage .T1).bit .T1), BitVec.xor_self, BitVec.zero_xor,
        BitVec.xor_comm]
  | T2 =>
      show (stage .T1).bit .T1 ^^^ next.bit .T2 = _
      rw [flagOf, BitVec.xor_assoc, ← BitVec.xor_assoc ((stage .T2).bit .T2), BitVec.xor_self,
        BitVec.zero_xor]

section Inv

variable {inOrder : Prop} {stage : Worker → Stage} {rounds : List (Bool × Bool)}
  {shown : List Bool} {state : State}

theorem Inv.waiting (hinv : Inv inOrder stage rounds shown state) {worker : Worker}
    (hactive : stage worker ≠ .resting) : state.machine.pc .Tsync = .waitZero := by
  by_contra hpc
  exact hactive ((hinv.resting worker).mpr hpc)

theorem Inv.active (hinv : Inv inOrder stage rounds shown state)
    (hpc : state.machine.pc .Tsync = .waitZero) (worker : Worker) :
    stage worker ≠ .resting :=
  fun hrest => (hinv.resting worker).mp hrest hpc

theorem printed_update (stage : Worker → Stage) (worker : Worker) (next : Stage) :
    (Function.update stage worker next .T1).printed +
        (Function.update stage worker next .T2).printed + (stage worker).printed =
      (stage .T1).printed + (stage .T2).printed + next.printed := by
  cases worker with
  | T1 =>
      rw [Function.update_self, Function.update_of_ne (by decide)]
      omega
  | T2 =>
      rw [Function.update_self, Function.update_of_ne (by decide)]
      omega

theorem Stage.printed_le (stage : Stage) : stage.printed ≤ 1 := by
  cases stage <;> simp [printed]

theorem Inv.shown_le (hinv : Inv inOrder stage rounds shown state) : shown.length ≤ 2 := by
  have hcount := hinv.count
  have hT1 := (stage .T1).printed_le
  have hT2 := (stage .T2).printed_le
  split_ifs at hcount <;> omega

/-- A line in order does not show two zeros, not even before it ends. -/
theorem Inv.shown_ne (hinv : Inv inOrder stage rounds shown state) (hordered : inOrder) :
    shown ≠ [false, false] := by
  rintro rfl
  have hcount := hinv.count
  have hseen := hinv.seen hordered
  split_ifs at hcount with hnewline
  · obtain hshown | ⟨worker, hprinting⟩ := hseen (.inl hnewline)
    · simp at hshown
    · rw [(hinv.resting worker).mpr (by simp [hnewline])] at hprinting
      cases hprinting
  · have hprinted : ∀ worker, (stage worker).printed = 1 := by
      have hT1 := (stage .T1).printed_le
      have hT2 := (stage .T2).printed_le
      rw [List.length_cons, List.length_singleton] at hcount
      intro worker
      cases worker <;> omega
    have hloaded : ∀ worker, (stage worker).Loaded := by
      intro worker
      have hone := hprinted worker
      cases hstage : stage worker <;> rw [hstage] at hone <;> trivial
    obtain hshown | ⟨worker, hprinting⟩ := hseen (.inr hloaded)
    · simp at hshown
    · have hone := hprinted worker
      rw [hprinting] at hone
      cases hone

/-- A worker that is called goes from one stage to another. -/
theorem Inv.work (hinv : Inv inOrder stage rounds shown state) {worker : Worker}
    (next : Stage) {memory : Loc → Val} {buffer : List (Loc × Val)} {shown' : List Bool}
    {output : List String} (hactive : stage worker ≠ .resting) (hnext : next ≠ .resting)
    (hmemory : ∀ other, other ≠ worker → memory other.own = state.machine.memory other.own)
    (hflag : memory .flag = flagOf (Function.update stage worker next))
    (howns : next.Owns worker.own buffer (memory worker.own))
    (hcount : shown'.length + (stage worker).printed = shown.length + next.printed)
    (houtput : output = rounds.flatMap line ++ shown'.map text)
    (hdrained : inOrder → next.Loaded → buffer = [])
    (hseen : inOrder → next.Loaded → (stage worker.other).Loaded →
      true ∈ shown' ∨ ∃ any, Function.update stage worker next any = .printing true) :
    Inv inOrder (Function.update stage worker next) rounds shown'
      ⟨⟨memory, Function.update state.machine.buffer (.worker worker) buffer,
        Function.update state.machine.pc (.worker worker) next.pc⟩, output⟩ := by
  have hwaiting := hinv.waiting hactive
  have hsync : ∀ pc : Pc, Function.update state.machine.pc (.worker worker) pc .Tsync =
      state.machine.pc .Tsync := fun pc => Function.update_of_ne (by simp) _ _
  have hclears := hinv.clears
  rw [hwaiting] at hclears
  have hempty : state.machine.buffer .Tsync = [] := List.suffix_nil.mp hclears
  refine ⟨?_, hflag, ?_, ?_, ?_, ?_, ?_, ?_, houtput, ?_, ?_, ?_, hinv.lines⟩
  · intro other
    by_cases hother : other = worker
    · subst hother
      simp only [Function.update_self]
    · have hthread : Thread.worker other ≠ .worker worker := fun heq =>
        hother (Thread.worker.inj heq)
      simp only [Function.update_of_ne hother, Function.update_of_ne hthread]
      exact hinv.pc other
  · intro other
    simp only [hsync]
    by_cases hother : other = worker
    · subst hother
      simp only [Function.update_self, hwaiting]
      simpa using hnext
    · simpa only [Function.update_of_ne hother] using hinv.resting other
  · intro other
    by_cases hother : other = worker
    · subst hother
      simpa only [Function.update_self] using howns
    · have hthread : Thread.worker other ≠ .worker worker := fun heq =>
        hother (Thread.worker.inj heq)
      simp only [Function.update_of_ne hother, Function.update_of_ne hthread, hmemory other hother]
      exact hinv.owns other
  · simp only [hsync]
    exact hinv.sound
  · simp only [hsync]
    rw [Function.update_of_ne (by simp)]
    exact hinv.clears
  · simp only [hsync, hwaiting]
    nofun
  · simp only [hsync, hwaiting]
    rintro (hpc | hpc) <;> cases hpc
  · have hbefore := hinv.count
    have hsum := printed_update stage worker next
    simp only [hsync, hwaiting, reduceCtorEq, if_false] at hbefore ⊢
    omega
  · intro hordered other hloaded
    by_cases hother : other = worker
    · subst hother
      simp only [Function.update_self] at hloaded ⊢
      exact hdrained hordered hloaded
    · have hthread : Thread.worker other ≠ .worker worker := fun heq =>
        hother (Thread.worker.inj heq)
      simp only [Function.update_of_ne hother, Function.update_of_ne hthread] at hloaded ⊢
      exact hinv.drained hordered other hloaded
  · simp only [hsync, hwaiting]
    rintro hordered (hpc | hloaded)
    · cases hpc
    · have hself := hloaded worker
      have hother := hloaded worker.other
      rw [Function.update_self] at hself
      rw [Function.update_of_ne (other_ne worker)] at hother
      exact hseen hordered hself hother

/-- A worker that is called goes on without a store of its own to memory. -/
theorem Inv.think (hinv : Inv inOrder stage rounds shown state) {worker : Worker}
    (next : Stage) {shown' : List Bool} {output : List String}
    (hactive : stage worker ≠ .resting) (hnext : next ≠ .resting)
    (hbit : next.bit worker = (stage worker).bit worker)
    (howns : next.Owns worker.own (state.machine.buffer (.worker worker))
      (state.machine.memory worker.own))
    (hcount : shown'.length + (stage worker).printed = shown.length + next.printed)
    (houtput : output = rounds.flatMap line ++ shown'.map text)
    (hdrained : inOrder → next.Loaded → state.machine.buffer (.worker worker) = [])
    (hseen : inOrder → next.Loaded → (stage worker.other).Loaded →
      true ∈ shown' ∨ ∃ any, Function.update stage worker next any = .printing true) :
    Inv inOrder (Function.update stage worker next) rounds shown'
      ⟨{ state.machine with
        pc := Function.update state.machine.pc (.worker worker) next.pc }, output⟩ := by
  have hflag : state.machine.memory .flag = flagOf (Function.update stage worker next) := by
    rw [flagOf_update, hbit, BitVec.xor_self, BitVec.xor_zero, hinv.flag]
  have hwork := hinv.work next hactive hnext (fun _ _ => rfl) hflag howns hcount houtput
    hdrained hseen
  rwa [Function.update_eq_self] at hwork

/-- A thread that looks at `flag` once more. -/
theorem Inv.stay (hinv : Inv inOrder stage rounds shown state) (thread : Thread) :
    Inv inOrder stage rounds shown
      ⟨{ state.machine with
        pc := Function.update state.machine.pc thread (state.machine.pc thread) },
        state.output⟩ := by
  rwa [Function.update_eq_self]

/-- What is in the buffer of a worker. -/
theorem Stage.Owns.buffer {own : Loc} {buffer : List (Loc × Val)} {value : Val}
    {stage : Stage} (howns : stage.Owns own buffer value) :
    buffer = [] ∨ buffer = [(own, 1)] := by
  cases stage <;> simp only [Owns] at howns <;> tauto

theorem Stage.Owns.bit {own : Loc} {buffer : List (Loc × Val)} {value : Val}
    {stage : Stage} (howns : stage.Owns own buffer value) : value = 0 ∨ value = 1 := by
  cases stage <;> simp only [Owns] at howns <;> tauto

/-- The store of a worker that has read is in memory once its buffer is empty. -/
theorem Stage.Owns.stored {own : Loc} {value : Val} {stage : Stage}
    (howns : stage.Owns own [] value) (hloaded : stage.Loaded) : value = 1 := by
  cases stage <;> simp only [Owns, Loaded] at howns hloaded <;> simp_all

/-- A worker sees memory, but for its own variable. -/
theorem Inv.read (hinv : Inv inOrder stage rounds shown state) (worker : Worker) {loc : Loc}
    (hloc : loc ≠ worker.own) :
    state.machine.read (.worker worker) loc = state.machine.memory loc := by
  obtain hempty | hstore := (hinv.owns worker).buffer
  · exact read_of_empty hempty loc
  · have hne : (loc == worker.own) = false := beq_false_of_ne hloc
    simp only [Tso.State.read, hstore, List.reverse_singleton, List.lookup_cons, hne,
      List.lookup_nil, Option.getD_none]

theorem step_exec {thread : Thread} {pc : Pc} (hpc : state.machine.pc thread = pc)
    (hprint : printf thread pc = none) :
    state.step (.exec thread) =
      (state.machine.exec thread (code thread pc)).map fun machine => { state with machine } := by
  simp only [State.step, hpc, hprint, Tso.State.step]

theorem step_print {thread : Thread} {pc next : Pc} {text : String}
    (hpc : state.machine.pc thread = pc) (hprint : printf thread pc = some (text, next)) :
    state.step (.exec thread) = some
      ⟨{ state.machine with pc := Function.update state.machine.pc thread next },
        state.output ++ [text]⟩ := by
  simp only [State.step, hpc, hprint]

/-- A step of a worker. -/
theorem Inv.exec_worker (hinv : Inv inOrder stage rounds shown state) {worker : Worker}
    {after : State} (hallowed : inOrder → InOrder state (.exec (.worker worker)))
    (hstep : state.step (.exec (.worker worker)) = some after) :
    ∃ stage' shown', Inv inOrder stage' rounds shown' after := by
  have hpc := hinv.pc worker
  have howns := hinv.owns worker
  have hflag : state.machine.read (.worker worker) .flag &&& worker.bit =
      (stage worker).bit worker := by
    rw [hinv.read worker (own_ne_flag worker).symm, hinv.flag, flagOf_and]
  have hnot_called : (stage worker).pc = .waitBit → (stage worker).bit worker = 0 →
      ∃ stage' shown', Inv inOrder stage' rounds shown' after := by
    intro hwait hbit
    rw [hwait] at hpc
    rw [step_exec hpc rfl] at hstep
    simp only [code, Tso.State.exec, Option.map_some, hflag, hbit, ne_eq, not_true_eq_false,
      if_false, Option.some.injEq] at hstep
    have hstay := hinv.stay (.worker worker)
    rw [hpc, hstep] at hstay
    exact ⟨stage, shown, hstay⟩
  cases hstage : stage worker with
  | resting =>
      rw [hstage] at hnot_called
      exact hnot_called rfl rfl
  | ended =>
      rw [hstage] at hnot_called
      exact hnot_called rfl rfl
  | called =>
      rw [hstage] at howns hflag
      rw [hstage, Stage.pc] at hpc
      rw [step_exec hpc rfl] at hstep
      have hup : worker.bit ≠ 0 := by
        cases worker <;> decide
      simp only [code, Tso.State.exec, Option.map_some, hflag, Stage.bit, ne_eq, hup,
        not_false_eq_true, if_true, Option.some.injEq] at hstep
      subst hstep
      refine ⟨_, shown, hinv.think .writing (by simp [hstage]) (by simp) ?_ howns ?_
        hinv.output (fun _ hloaded => False.elim hloaded) fun _ hloaded _ => False.elim hloaded⟩
      · rw [hstage]
        rfl
      · rw [hstage]
        rfl
  | writing =>
      rw [hstage] at howns
      rw [hstage, Stage.pc] at hpc
      rw [step_exec hpc rfl] at hstep
      simp only [code, Tso.State.exec, Option.map_some, Option.some.injEq, howns.1,
        List.nil_append] at hstep
      subst hstep
      refine ⟨_, shown, hinv.work .reading (by simp [hstage]) (by simp) (fun _ _ => rfl) ?_
        (.inr ⟨rfl, howns.2⟩) ?_ hinv.output (fun _ hloaded => False.elim hloaded)
        fun _ hloaded _ => False.elim hloaded⟩
      · rw [flagOf_update, hstage]
        exact hinv.flag.trans (by simp [Stage.bit])
      · rw [hstage]
        rfl
  | reading =>
      rw [hstage] at howns
      rw [hstage, Stage.pc] at hpc
      rw [step_exec hpc rfl] at hstep
      have hread := hinv.read worker (own_ne worker)
      obtain ⟨bit, hbit⟩ : ∃ bit, state.machine.memory worker.other.own = value bit := by
        obtain hzero | hone := (hinv.owns worker.other).bit
        · exact ⟨false, hzero⟩
        · exact ⟨true, hone⟩
      simp only [code, Tso.State.exec, Option.map_some, Option.some.injEq, hread, hbit] at hstep
      subst hstep
      have hempty : inOrder → state.machine.buffer (.worker worker) = [] := fun hordered =>
        hallowed hordered hpc
      refine ⟨_, shown, hinv.think (.printing bit) (by simp [hstage]) (by simp) ?_ howns ?_
        hinv.output (fun hordered _ => hempty hordered) ?_⟩
      · rw [hstage]
        rfl
      · rw [hstage]
        rfl
      · -- the other worker has drained its store before this read
        intro hordered _ hother
        have hone := hinv.owns worker.other
        rw [hinv.drained hordered worker.other hother] at hone
        have hvalue := hbit.symm.trans (hone.stored hother)
        have htrue : bit = true := by
          revert hvalue
          cases bit <;> decide
        subst htrue
        exact .inr ⟨worker, Function.update_self ..⟩
  | printing bit =>
      rw [hstage] at howns
      rw [hstage, Stage.pc] at hpc
      rw [step_print hpc (printf_value worker bit)] at hstep
      simp only [Option.some.injEq] at hstep
      subst hstep
      refine ⟨_, shown ++ [bit], hinv.think .clearing (by simp [hstage]) (by simp) ?_ howns ?_
        ?_ ?_ ?_⟩
      · rw [hstage]
        rfl
      · rw [hstage, List.length_append]
        rfl
      · rw [hinv.output, List.map_append, List.append_assoc]
        rfl
      · intro hordered _
        exact hinv.drained hordered worker (by simp [hstage, Stage.Loaded])
      · intro hordered _ hother
        have hself : (stage worker).Loaded := by
          rw [hstage]
          trivial
        obtain hshown | ⟨any, hany⟩ := hinv.seen hordered (.inr (forall_worker hself hother))
        · exact .inl (List.mem_append_left _ hshown)
        · by_cases hworker : any = worker
          · rw [hworker, hstage] at hany
            cases hany
            exact .inl (by simp)
          · exact .inr ⟨any, by rwa [Function.update_of_ne hworker]⟩
  | clearing =>
      rw [hstage] at howns
      rw [hstage, Stage.pc] at hpc
      rw [step_exec hpc rfl] at hstep
      simp only [code, Tso.State.exec, List.isEmpty_iff] at hstep
      split_ifs at hstep with hempty
      · simp only [Option.map_some, Option.some.injEq] at hstep
        subst hstep
        have hself : (stage worker).Loaded := by
          rw [hstage]
          trivial
        rw [hempty] at howns
        have hstored : state.machine.memory worker.own = 1 := howns.stored trivial
        have hbuffer : state.machine.buffer =
            Function.update state.machine.buffer (.worker worker) [] := by
          rw [← hempty, Function.update_eq_self]
        refine ⟨Function.update stage worker .ended, shown, ?_⟩
        rw [hbuffer]
        refine hinv.work .ended (by simp [hstage]) (by simp)
          (fun other _ => Function.update_of_ne (own_ne_flag other) _ _) ?_
          ⟨rfl, (Function.update_of_ne (own_ne_flag worker) _ _).trans hstored⟩ ?_ hinv.output
          (fun _ _ => rfl) ?_
        · rw [Function.update_self, flagOf_update, hstage, hinv.flag]
          simp [Stage.bit]
        · rw [hstage]
          rfl
        · intro hordered _ hother
          obtain hshown | ⟨any, hany⟩ := hinv.seen hordered (.inr (forall_worker hself hother))
          · exact .inl hshown
          · have hworker : any ≠ worker := by
              rintro rfl
              rw [hstage] at hany
              cases hany
            exact .inr ⟨any, by rwa [Function.update_of_ne hworker]⟩
      · cases hstep

/-- The store of a worker reaches memory. -/
theorem Inv.drain_worker (hinv : Inv inOrder stage rounds shown state) {worker : Worker}
    {after : State} (hstep : state.step (.drain (.worker worker)) = some after) :
    ∃ stage' shown', Inv inOrder stage' rounds shown' after := by
  have howns := hinv.owns worker
  obtain hempty | hstore := howns.buffer
  · simp [State.step, Tso.State.step, State.drain, hempty] at hstep
  · rw [hstore] at howns
    have hactive : stage worker ≠ .resting := by
      intro hrest
      rw [hrest] at howns
      cases howns.1
    simp only [State.step, Tso.State.step, State.drain, hstore, Option.map_some,
      Option.some.injEq] at hstep
    subst hstep
    refine ⟨Function.update stage worker (stage worker), shown, ?_⟩
    have hpc : state.machine.pc =
        Function.update state.machine.pc (.worker worker) (stage worker).pc := by
      rw [← hinv.pc, Function.update_eq_self]
    rw [hpc]
    refine hinv.work (stage worker) hactive hactive
      (fun other hother => Function.update_of_ne ?_ _ _) ?_ ?_ rfl hinv.output
      (fun _ _ => rfl) ?_
    · cases eq_other hother
      exact own_ne worker
    · rw [Function.update_of_ne (own_ne_flag worker).symm, Function.update_eq_self]
      exact hinv.flag
    · rw [Function.update_self]
      cases hstage : stage worker <;> rw [hstage] at howns <;> simp_all [Stage.Owns]
    · intro hordered hself hother
      rw [Function.update_eq_self]
      exact hinv.seen hordered (.inr (forall_worker hself hother))

/-- `Tsync` goes on between two rounds. -/
theorem Inv.pause (hinv : Inv inOrder stage rounds shown state) (pc : Pc)
    {memory : Loc → Val} {buffer : List (Loc × Val)} {rounds' : List (Bool × Bool)}
    {output : List String} (hbefore : state.machine.pc .Tsync ≠ .waitZero)
    (hafter : pc ≠ .waitZero) (hnewline : pc ≠ .newline) (hsound : Sound pc)
    (hflag : memory .flag = state.machine.memory .flag)
    (hmemory : ∀ worker : Worker,
      memory worker.own = 0 ∨ memory worker.own = state.machine.memory worker.own)
    (hclears : buffer <:+ (zeroed pc).map fun worker => (worker.own, 0))
    (hzero : ∀ worker ∈ zeroed pc, (worker.own, 0) ∉ buffer → memory worker.own = 0)
    (hfenced : pc = .check ∨ pc = .xorBoth → buffer = [])
    (houtput : output = rounds'.flatMap line)
    (hlines : inOrder → (false, false) ∉ rounds') :
    Inv inOrder stage rounds' []
      ⟨⟨memory, Function.update state.machine.buffer .Tsync buffer,
        Function.update state.machine.pc .Tsync pc⟩, output⟩ := by
  have hrest : ∀ worker, stage worker = .resting := fun worker =>
    (hinv.resting worker).mpr hbefore
  refine ⟨?_, hflag.trans hinv.flag, ?_, ?_, ?_, ?_, ?_, ?_, ?_, ?_, ?_, ?_, hlines⟩
  · intro worker
    simp only [update_sync]
    exact hinv.pc worker
  · intro worker
    simp only [Function.update_self, hrest, true_iff]
    exact hafter
  · intro worker
    have howns := hinv.owns worker
    rw [hrest] at howns ⊢
    simp only [update_sync]
    refine ⟨howns.1, ?_⟩
    obtain hzero | hsame := hmemory worker
    · exact .inl hzero
    · exact howns.2.imp hsame.trans hsame.trans
  · simpa only [Function.update_self] using hsound
  · simpa only [Function.update_self] using hclears
  · simpa only [Function.update_self] using hzero
  · simpa only [Function.update_self] using hfenced
  · rw [houtput, List.map_nil, List.append_nil]
  · simp only [Function.update_self, hnewline, if_false, hrest]
    rfl
  · intro _ worker hloaded
    rw [hrest] at hloaded
    exact hloaded.elim
  · simp only [Function.update_self, hnewline, false_or]
    intro _ hloaded
    have hfirst := hloaded .T1
    rw [hrest] at hfirst
    exact hfirst.elim

/-- Between two rounds all lines are complete. -/
theorem Inv.output_of_pause (hinv : Inv inOrder stage rounds shown state)
    (hwait : state.machine.pc .Tsync ≠ .waitZero)
    (hnewline : state.machine.pc .Tsync ≠ .newline) :
    state.output = rounds.flatMap line := by
  have hcount := hinv.count
  rw [if_neg hnewline, (hinv.resting .T1).mpr hwait, (hinv.resting .T2).mpr hwait] at hcount
  rw [hinv.output, List.length_eq_zero_iff.mp hcount, List.map_nil, List.append_nil]

/-- What `Tsync` has stored reaches memory. -/
theorem Inv.drain_sync (hinv : Inv inOrder stage rounds shown state) {after : State}
    (hstep : state.step (.drain .Tsync) = some after) :
    ∃ stage' shown', Inv inOrder stage' rounds shown' after := by
  have hclears := hinv.clears
  have hzero := hinv.zero
  have hfenced := hinv.fenced
  have hshown := hinv.count
  cases hbuffer : state.machine.buffer .Tsync with
  | nil => simp [State.step, Tso.State.step, State.drain, hbuffer] at hstep
  | cons first rest =>
      obtain ⟨loc, stored⟩ := first
      simp only [State.step, Tso.State.step, State.drain, hbuffer, Option.map_some,
        Option.some.injEq] at hstep
      subst hstep
      rw [hbuffer] at hclears hzero hfenced
      have hin : (loc, stored) ∈
          (zeroed (state.machine.pc .Tsync)).map fun worker => (worker.own, (0 : Val)) :=
        hclears.subset (List.mem_cons_self ..)
      obtain ⟨cleared, hcleared, hstored⟩ := List.mem_map.mp hin
      cases hstored
      have hwait : state.machine.pc .Tsync ≠ .waitZero := by
        intro hpc
        rw [hpc] at hcleared
        cases hcleared
      have hnewline : state.machine.pc .Tsync ≠ .newline := by
        intro hpc
        rw [hpc] at hcleared
        cases hcleared
      refine ⟨stage, [], ?_⟩
      have hpc : state.machine.pc =
          Function.update state.machine.pc .Tsync (state.machine.pc .Tsync) := by
        rw [Function.update_eq_self]
      rw [hpc]
      refine hinv.pause _ hwait hwait hnewline hinv.sound
        (Function.update_of_ne (own_ne_flag cleared).symm _ _) (fun worker => ?_)
        ((List.suffix_cons ..).trans hclears) (fun worker hworker hrest => ?_) ?_
        (hinv.output_of_pause hwait hnewline) hinv.lines
      · by_cases hsame : worker.own = cleared.own
        · exact .inl (hsame ▸ Function.update_self ..)
        · exact .inr (Function.update_of_ne hsame _ _)
      · by_cases hsame : worker.own = cleared.own
        · exact hsame ▸ Function.update_self ..
        · rw [Function.update_of_ne hsame]
          apply hzero worker hworker
          exact fun hmem => (List.mem_cons.mp hmem).elim
            (fun hfirst => hsame (congrArg Prod.fst hfirst)) hrest
      · intro hbarrier
        cases hfenced hbarrier

/-- A step of `Tsync`. -/
theorem Inv.exec_sync (hinv : Inv inOrder stage rounds shown state) {after : State}
    (hstep : state.step (.exec .Tsync) = some after) :
    ∃ stage' rounds' shown', Inv inOrder stage' rounds' shown' after := by
  have hsound := hinv.sound
  have hclears := hinv.clears
  have hempty : zeroed (state.machine.pc .Tsync) = [] → state.machine.buffer .Tsync = [] := by
    intro hnone
    rw [hnone] at hclears
    exact List.suffix_nil.mp hclears
  have hread : state.machine.buffer .Tsync = [] →
      state.machine.read .Tsync .flag = flagOf stage := by
    intro hnone
    rw [read_of_empty hnone, hinv.flag]
  cases hpc : state.machine.pc .Tsync with
  | waitBit | write | read | print | xorBit | assertFails =>
      rw [hpc] at hsound
      exact hsound.elim
  | clearY =>
      rw [hpc] at hempty
      rw [step_exec hpc rfl] at hstep
      simp only [code, Tso.State.exec, Option.map_some, Option.some.injEq, hempty rfl,
        List.nil_append] at hstep
      subst hstep
      refine ⟨stage, rounds, [], hinv.pause _ (by simp [hpc]) (by simp) (by simp) trivial rfl
        (fun _ => .inr rfl) (List.suffix_refl _) ?_ (by simp)
        (hinv.output_of_pause (by simp [hpc]) (by simp [hpc])) hinv.lines⟩
      simp [zeroed, Worker.own]
  | clearX =>
      have hzero := hinv.zero
      rw [hpc] at hclears hzero
      rw [step_exec hpc rfl] at hstep
      simp only [code, Tso.State.exec, Option.map_some, Option.some.injEq] at hstep
      subst hstep
      refine ⟨stage, rounds, [], hinv.pause _ (by simp [hpc]) (by simp) (by simp) trivial rfl
        (fun _ => .inr rfl) ?_ ?_ (by simp)
        (hinv.output_of_pause (by simp [hpc]) (by simp [hpc])) hinv.lines⟩
      · obtain ⟨drained, hdrained⟩ := hclears
        exact ⟨drained, by rw [← List.append_assoc, hdrained]; rfl⟩
      · intro worker hworker hnot
        cases worker with
        | T1 => exact absurd (List.mem_append_right _ (List.mem_singleton_self _)) hnot
        | T2 =>
            exact hzero .T2 (List.mem_singleton_self _) fun hmem =>
              hnot (List.mem_append_left _ hmem)
  | barrier =>
      have hzero := hinv.zero
      rw [hpc] at hzero
      rw [step_exec hpc rfl] at hstep
      simp only [code, Tso.State.exec, List.isEmpty_iff] at hstep
      split_ifs at hstep with hnone
      · simp only [Option.map_some, Option.some.injEq] at hstep
        subst hstep
        have hpause := hinv.pause .check (by simp [hpc]) (by simp) (by simp) trivial rfl
          (fun _ => .inr rfl) (List.nil_suffix ..) (hnone ▸ hzero) (fun _ => rfl)
          (hinv.output_of_pause (by simp [hpc]) (by simp [hpc])) hinv.lines
        rw [← hnone, Function.update_eq_self] at hpause
        exact ⟨stage, rounds, [], hpause⟩
      · cases hstep
  | check =>
      have hzero := hinv.zero
      have hnone := hinv.fenced (.inl hpc)
      have hflag : flagOf stage = 0 := by
        rw [flagOf_eq_zero_iff]
        intro worker
        rw [(hinv.resting worker).mpr (by simp [hpc])]
        rfl
      rw [hpc, hnone] at hzero
      rw [step_exec hpc rfl] at hstep
      simp only [code, Tso.State.exec, Option.map_some, Option.some.injEq, hread hnone, hflag,
        if_true] at hstep
      subst hstep
      have hpause := hinv.pause .xorBoth (by simp [hpc]) (by simp) (by simp) trivial rfl
        (fun _ => .inr rfl) (List.nil_suffix ..) hzero (fun _ => rfl)
        (hinv.output_of_pause (by simp [hpc]) (by simp [hpc])) hinv.lines
      rw [← hnone, Function.update_eq_self] at hpause
      exact ⟨stage, rounds, [], hpause⟩
  | xorBoth =>
      have hzero := hinv.zero
      have hnone := hinv.fenced (.inr hpc)
      have hrest : ∀ worker, stage worker = .resting := fun worker =>
        (hinv.resting worker).mpr (by simp [hpc])
      rw [hpc, hnone] at hzero
      rw [step_exec hpc rfl] at hstep
      simp only [code, Tso.State.exec, hnone, List.isEmpty_nil, if_true, Option.map_some,
        Option.some.injEq] at hstep
      subst hstep
      refine ⟨fun _ => .called, rounds, [], ?_, ?_, ?_, ?_, ?_, ?_, ?_, ?_, ?_, ?_, ?_, ?_,
        hinv.lines⟩
      · intro worker
        have hbefore := hinv.pc worker
        rw [hrest] at hbefore
        simp only [update_sync]
        exact hbefore
      · simp only [Function.update_self, hinv.flag, flagOf, hrest]
        decide
      · simp
      · intro worker
        have howns := hinv.owns worker
        rw [hrest] at howns
        refine ⟨howns.1, (Function.update_of_ne (own_ne_flag worker) _ _).trans ?_⟩
        cases worker with
        | T1 => exact hzero .T1 (by simp [zeroed]) (by simp)
        | T2 => exact hzero .T2 (by simp [zeroed]) (by simp)
      · simp [Sound]
      · simp [zeroed, hnone]
      · simp [zeroed]
      · simp
      · rw [List.map_nil, List.append_nil]
        exact hinv.output_of_pause (by simp [hpc]) (by simp [hpc])
      · simp [Stage.printed]
      · exact fun _ _ hloaded => False.elim hloaded
      · rintro _ (hnewline | hloaded)
        · simp at hnewline
        · exact (hloaded .T1).elim
  | waitZero =>
      rw [hpc] at hempty
      have hnone := hempty rfl
      rw [step_exec hpc rfl] at hstep
      simp only [code, Tso.State.exec, Option.map_some, hread hnone] at hstep
      by_cases hflag : flagOf stage = 0
      · have hended : ∀ worker, stage worker = .ended := by
          intro worker
          have hbit := (flagOf_eq_zero_iff stage).mp hflag worker
          have hactive := hinv.active hpc worker
          cases hstage : stage worker <;> rw [hstage] at hbit hactive <;>
            first | rfl | exact absurd rfl hactive | (cases worker <;> cases hbit)
        simp only [hflag, if_true, Option.some.injEq] at hstep
        subst hstep
        have hbefore := hinv.count
        simp only [hpc, reduceCtorEq, if_false, hended] at hbefore
        refine ⟨fun _ => .resting, rounds, shown, ?_, ?_, ?_, ?_, ?_, ?_, ?_, ?_, hinv.output,
          ?_, ?_, ?_, hinv.lines⟩
        · intro worker
          have hpc' := hinv.pc worker
          rw [hended] at hpc'
          simp only [update_sync]
          exact hpc'
        · exact hinv.flag.trans hflag
        · simp
        · intro worker
          have howns := hinv.owns worker
          rw [hended] at howns
          exact ⟨howns.1, .inr howns.2⟩
        · simp [Sound]
        · simp [zeroed, hnone]
        · simp [zeroed]
        · simp
        · simp only [Function.update_self, if_true]
          exact hbefore
        · exact fun _ _ hloaded => False.elim hloaded
        · intro hordered _
          have hloaded : ∀ worker, (stage worker).Loaded := by
            intro worker
            rw [hended]
            trivial
          obtain hseen | ⟨worker, hprinting⟩ := hinv.seen hordered (.inr hloaded)
          · exact .inl hseen
          · rw [hended] at hprinting
            cases hprinting
      · simp only [hflag, if_false, Option.some.injEq] at hstep
        have hstay := hinv.stay .Tsync
        rw [hpc, hstep] at hstay
        exact ⟨stage, rounds, shown, hstay⟩
  | newline =>
      rw [hpc] at hempty
      have hnone := hempty rfl
      have hcount := hinv.count
      rw [if_pos hpc] at hcount
      obtain ⟨first, second, rfl⟩ := List.length_eq_two.mp hcount
      rw [step_print hpc rfl] at hstep
      simp only [Option.some.injEq] at hstep
      subst hstep
      have houtput : state.output ++ ["\n"] = (rounds ++ [(first, second)]).flatMap line := by
        rw [hinv.output, List.flatMap_append]
        simp [line]
      have hlines : inOrder → (false, false) ∉ rounds ++ [(first, second)] := by
        intro hordered hmem
        obtain hbefore | hlast := List.mem_append.mp hmem
        · exact hinv.lines hordered hbefore
        · cases List.mem_singleton.mp hlast
          obtain hseen | ⟨worker, hprinting⟩ := hinv.seen hordered (.inl hpc)
          · simp at hseen
          · rw [(hinv.resting worker).mpr (by simp [hpc])] at hprinting
            cases hprinting
      have hpause := hinv.pause .clearY (by simp [hpc]) (by simp) (by simp) trivial rfl
        (fun _ => .inr rfl) (List.nil_suffix ..) (by simp [zeroed]) (fun _ => rfl) houtput hlines
      rw [← hnone, Function.update_eq_self] at hpause
      exact ⟨stage, _, [], hpause⟩

end Inv

theorem inv_start (inOrder : Prop) : Inv inOrder (fun _ => .resting) [] [] start where
  pc _ := rfl
  flag := rfl
  resting := by simp [start]
  owns _ := ⟨rfl, .inl rfl⟩
  sound := trivial
  clears := List.suffix_refl _
  zero := by simp [start, zeroed]
  fenced _ := rfl
  output := rfl
  count := rfl
  drained _ _ _ := rfl
  seen := by
    rintro _ (hnewline | hloaded)
    · cases hnewline
    · exact (hloaded .T1).elim
  lines := by simp

/-- What every step keeps, and more when it is in order. -/
theorem Inv.step {inOrder : Prop} {stage : Worker → Stage} {rounds : List (Bool × Bool)}
    {shown : List Bool} {state after : State} {label : Label Thread}
    (hinv : Inv inOrder stage rounds shown state) (hallowed : inOrder → InOrder state label)
    (hstep : state.step label = some after) :
    ∃ stage' rounds' shown', Inv inOrder stage' rounds' shown' after := by
  match label with
  | .exec (.worker worker) =>
      obtain ⟨stage', shown', hafter⟩ := hinv.exec_worker hallowed hstep
      exact ⟨stage', rounds, shown', hafter⟩
  | .exec .Tsync => exact hinv.exec_sync hstep
  | .drain (.worker worker) =>
      obtain ⟨stage', shown', hafter⟩ := hinv.drain_worker hstep
      exact ⟨stage', rounds, shown', hafter⟩
  | .drain .Tsync =>
      obtain ⟨stage', shown', hafter⟩ := hinv.drain_sync hstep
      exact ⟨stage', rounds, shown', hafter⟩

theorem exists_inv (inOrder : Prop) {allowed : State → Label Thread → Prop}
    (hallowed : ∀ state label, allowed state label → inOrder → InOrder state label)
    {state : State} (hreach : (program.guard allowed).Reachable state) :
    ∃ stage rounds shown, Inv inOrder stage rounds shown state := by
  apply System.invariant_of_step ?_ ?_ hreach
  · rintro _ rfl
    exact ⟨_, _, _, inv_start inOrder⟩
  · rintro before label after - ⟨stage, rounds, shown, hinv⟩ ⟨hlabel, hstep⟩
    exact hinv.step (hallowed before label hlabel) hstep

/-! ## Every line -/

/-- Between two rounds, with the values of the last one. -/
def between (bit : Bool) (output : List String) : State where
  machine := { start.machine with
    memory := fun loc => match loc with
      | .x | .y => value bit
      | .flag => 0 }
  output

/-- The turns of the threads in a round that prints this line. -/
def schedule (round : Bool × Bool) : List (Label Thread) :=
  let T1 := Label.exec (Thread.worker .T1)
  let T2 := Label.exec (Thread.worker .T2)
  let Tsync := Label.exec Thread.Tsync
  let drain1 := Label.drain (Thread.worker .T1)
  let drain2 := Label.drain (Thread.worker .T2)
  let workers := match round with
    | (false, false) => [T1, T1, T2, T2, T1, T2, T1, T2, drain1, drain2, T1, T2]
    | (false, true) => [T1, T1, drain1, T1, T1, T1, T2, T2, drain2, T2, T2, T2]
    | (true, false) => [T1, T1, drain1, T1, T2, T2, drain2, T2, T2, T1, T1, T2]
    | (true, true) => [T1, T1, drain1, T2, T2, drain2, T1, T2, T1, T2, T1, T2]
  [Tsync, Tsync, .drain .Tsync, .drain .Tsync, Tsync, Tsync, Tsync] ++ workers ++
    [Tsync, Tsync]

theorem eq_iff_ofThread {α : Type} {first second : Thread → α} :
    first = second ↔ first (.worker .T1) = second (.worker .T1) ∧
      first (.worker .T2) = second (.worker .T2) ∧ first .Tsync = second .Tsync := by
  constructor
  · rintro rfl
    exact ⟨rfl, rfl, rfl⟩
  · rintro ⟨hT1, hT2, hsync⟩
    funext thread
    rcases thread with (_ | _) | _ <;> assumption

theorem eq_iff_ofLoc {first second : Loc → Val} :
    first = second ↔ first .x = second .x ∧ first .y = second .y ∧ first .flag = second .flag := by
  constructor
  · rintro rfl
    exact ⟨rfl, rfl, rfl⟩
  · rintro ⟨hx, hy, hflag⟩
    funext loc
    cases loc <;> assumption

instance {α : Type} [DecidableEq α] : DecidableEq (Thread → α) := fun _ _ =>
  decidable_of_iff _ eq_iff_ofThread.symm

instance : DecidableEq (Loc → Val) := fun _ _ => decidable_of_iff _ eq_iff_ofLoc.symm

instance : DecidableEq State := fun first second =>
  decidable_of_iff (first.machine.memory = second.machine.memory ∧
      first.machine.buffer = second.machine.buffer ∧ first.machine.pc = second.machine.pc ∧
      first.output = second.output) <| by
    obtain ⟨⟨_, _, _⟩, _⟩ := first
    obtain ⟨⟨_, _, _⟩, _⟩ := second
    simp only [State.mk.injEq, Tso.State.mk.injEq, and_assoc]

/-- A step, if it is in order. -/
def State.stepInOrder (state : State) (label : Label Thread) : Option State :=
  if InOrder state label then state.step label else none

theorem foldlM_schedule : ∀ (first second bit : Bool),
    (schedule (first, second)).foldlM State.step (between bit []) =
      some (between true (line (first, second))) := by
  decide

theorem foldlM_schedule_inOrder : ∀ (first second bit : Bool), first || second →
    (schedule (first, second)).foldlM State.stepInOrder (between bit []) =
      some (between true (line (first, second))) := by
  decide

/-- The state when something else was printed before. -/
def State.behind (past : List String) (state : State) : State :=
  { state with output := past ++ state.output }

theorem step_behind (past : List String) (state : State) (label : Label Thread) :
    (state.behind past).step label = (state.step label).map (State.behind past) := by
  simp only [State.step, State.behind]
  cases label with
  | drain thread =>
      simp only [Option.map_map]
      rfl
  | exec thread =>
      cases hprint : printf thread (state.machine.pc thread) with
      | none =>
          simp only [hprint, Option.map_map]
          rfl
      | some printed =>
          simp only [hprint, Option.map_some, List.append_assoc]
          rfl

theorem stepInOrder_behind (past : List String) (state : State) (label : Label Thread) :
    (state.behind past).stepInOrder label =
      (state.stepInOrder label).map (State.behind past) := by
  have hiff : InOrder (state.behind past) label ↔ InOrder state label := Iff.rfl
  simp only [State.stepInOrder, hiff]
  split_ifs
  · exact step_behind past state label
  · rfl

/-- What is printed by a replay comes after what was printed before. -/
theorem foldlM_behind {step : State → Label Thread → Option State} {past : List String}
    (hstep : ∀ state label, step (state.behind past) label =
      (step state label).map (State.behind past))
    (labels : List (Label Thread)) (state : State) :
    labels.foldlM step (state.behind past) =
      (labels.foldlM step state).map (State.behind past) := by
  induction labels generalizing state with
  | nil => rfl
  | cons label labels ih =>
      simp only [List.foldlM_cons, hstep]
      cases step state label with
      | none => rfl
      | some after => exact ih after

/-- Round after round. -/
theorem foldlM_rounds {step : State → Label Thread → Option State}
    (hbehind : ∀ past state label, step (state.behind past) label =
      (step state label).map (State.behind past))
    (rounds : List (Bool × Bool))
    (hround : ∀ round ∈ rounds, ∀ bit, (schedule round).foldlM step (between bit []) =
      some (between true (line round)))
    (bit : Bool) (past : List String) :
    ∃ last, (rounds.flatMap schedule).foldlM step (between bit past) =
      some (between last (past ++ rounds.flatMap line)) := by
  induction rounds generalizing bit past with
  | nil => exact ⟨bit, by rw [List.flatMap_nil, List.flatMap_nil, List.append_nil]; rfl⟩
  | cons round rounds ih =>
      have hpast : ∀ (bit : Bool) (output : List String),
          between bit (past ++ output) = (between bit output).behind past := fun _ _ => rfl
      obtain ⟨last, hrest⟩ := ih (fun other hmem => hround other (List.mem_cons_of_mem _ hmem))
        true (past ++ line round)
      refine ⟨last, ?_⟩
      have hfirst : (schedule round).foldlM step (between bit past) =
          some (between true (past ++ line round)) := by
        calc (schedule round).foldlM step (between bit past)
            = (schedule round).foldlM step ((between bit []).behind past) := by
              rw [← hpast, List.append_nil]
          _ = ((schedule round).foldlM step (between bit [])).map (State.behind past) :=
              foldlM_behind (hbehind past) _ _
          _ = some (between true (past ++ line round)) := by
              rw [hround round (List.mem_cons_self ..) bit, Option.map_some, hpast]
      rw [List.flatMap_cons, List.foldlM_append, hfirst, Option.bind_eq_bind, Option.bind_some,
        hrest, List.flatMap_cons, List.append_assoc]

theorem between_start : between false [] = start := by
  decide

/-- The lines of the rounds, and what the next line shows so far. -/
def Shows (output : List String) (rounds : List (Bool × Bool)) (shown : List Bool) : Prop :=
  shown.length ≤ 2 ∧ output = rounds.flatMap line ++ shown.map text

/-- On x86-TSO the assertion never fails, every line shows two bits, and every sequence of
such lines can come out. -/
theorem lines_on_x86 :
    (∀ state, program.Reachable state → state.machine.pc .Tsync ≠ .assertFails ∧
      ∃ rounds shown, Shows state.output rounds shown) ∧
    ∀ rounds, ∃ state, program.Reachable state ∧ Shows state.output rounds [] := by
  refine ⟨fun state hreach => ?_, fun rounds => ?_⟩
  · have hguard : (program.guard fun _ _ => True).Reachable state :=
      System.Reachable.guard (fun _ _ _ _ _ => trivial) hreach
    obtain ⟨stage, rounds, shown, hinv⟩ := exists_inv False (fun _ _ _ => False.elim) hguard
    refine ⟨?_, rounds, shown, hinv.shown_le, hinv.output⟩
    intro hpc
    have hsound := hinv.sound
    rw [hpc] at hsound
    exact hsound
  · obtain ⟨last, hreplay⟩ := foldlM_rounds step_behind rounds
      (fun round _ bit => foldlM_schedule round.1 round.2 bit) false []
    rw [between_start] at hreplay
    refine ⟨_, ⟨start, _, rfl, System.run_of_foldlM _ hreplay⟩, Nat.zero_le 2, ?_⟩
    exact (List.append_nil _).symm

/-- When the reads are in order, every line shows a one, and every sequence of such lines
can come out. -/
theorem lines_in_order :
    (∀ state, (program.guard InOrder).Reachable state → ∃ rounds shown,
      Shows state.output rounds shown ∧ (false, false) ∉ rounds ∧ shown ≠ [false, false]) ∧
    ∀ rounds, (false, false) ∉ rounds →
      ∃ state, (program.guard InOrder).Reachable state ∧ Shows state.output rounds [] := by
  refine ⟨fun state hreach => ?_, fun rounds hrounds => ?_⟩
  · obtain ⟨stage, rounds, shown, hinv⟩ := exists_inv True (fun _ _ hallowed _ => hallowed) hreach
    exact ⟨rounds, shown, ⟨hinv.shown_le, hinv.output⟩, hinv.lines trivial,
      hinv.shown_ne trivial⟩
  · have hround : ∀ round ∈ rounds, ∀ bit,
        (schedule round).foldlM State.stepInOrder (between bit []) =
          some (between true (line round)) := by
      intro round hmem bit
      apply foldlM_schedule_inOrder
      obtain ⟨_ | _, _ | _⟩ := round
      · exact absurd hmem hrounds
      all_goals rfl
    obtain ⟨last, hreplay⟩ := foldlM_rounds stepInOrder_behind rounds hround false []
    rw [between_start] at hreplay
    have hrun : (System.ofPartial (· = start) State.stepInOrder).Run start _ _ :=
      System.run_of_foldlM _ hreplay
    refine ⟨_, ⟨start, _, rfl, hrun.mono ?_⟩, Nat.zero_le 2, (List.append_nil _).symm⟩
    intro before label after hstep
    have hordered : (if InOrder before label then before.step label else none) = some after :=
      hstep
    split_ifs at hordered with hallowed
    exact ⟨hallowed, hordered⟩

end JyyOS.MemOrdering
