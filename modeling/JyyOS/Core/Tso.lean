import JyyOS.Core.Transition

/-!
# Threads on x86-TSO

Every thread has a store buffer, a queue of stores that have not reached memory
yet.  A store goes to the end of the buffer; its oldest entry is drained to
memory at any time; a load takes the newest entry of the own buffer for its
location, else memory.  Fences and atomic read-modify-writes wait until the
buffer is empty.
-/

namespace JyyOS.Tso

open JyyOS.Transition

/-- What a thread does at a control point, and where it goes on. -/
inductive Op (Loc Val Pc : Type) where
  | store (loc : Loc) (value : Val) (next : Pc)
  | load (loc : Loc) (next : Val → Pc)
  | fence (next : Pc)
  | modify (loc : Loc) (update : Val → Val) (next : Val → Pc)
  | halt

structure State (Thread Loc Val Pc : Type) where
  memory : Loc → Val
  /-- The oldest store first. -/
  buffer : Thread → List (Loc × Val)
  pc : Thread → Pc

inductive Label (Thread : Type) where
  | exec (thread : Thread)
  | drain (thread : Thread)

variable {Thread Loc Val Pc : Type} [DecidableEq Thread] [DecidableEq Loc]

/-- The value that a load of the thread sees. -/
def State.read (state : State Thread Loc Val Pc) (thread : Thread) (loc : Loc) : Val :=
  ((state.buffer thread).reverse.lookup loc).getD (state.memory loc)

omit [DecidableEq Thread] in
theorem read_of_empty {state : State Thread Loc Val Pc} {thread : Thread}
    (hempty : state.buffer thread = []) (loc : Loc) :
    state.read thread loc = state.memory loc := by
  rw [State.read, hempty]
  rfl

def State.exec (state : State Thread Loc Val Pc) (thread : Thread) :
    Op Loc Val Pc → Option (State Thread Loc Val Pc)
  | .store loc value next =>
      some { state with
        buffer := Function.update state.buffer thread
          (state.buffer thread ++ [(loc, value)])
        pc := Function.update state.pc thread next }
  | .load loc next =>
      some { state with
        pc := Function.update state.pc thread (next (state.read thread loc)) }
  | .fence next =>
      if (state.buffer thread).isEmpty then
        some { state with pc := Function.update state.pc thread next }
      else none
  | .modify loc update next =>
      if (state.buffer thread).isEmpty then
        some { state with
          memory := Function.update state.memory loc (update (state.memory loc))
          pc := Function.update state.pc thread (next (state.memory loc)) }
      else none
  | .halt => none

def State.drain (state : State Thread Loc Val Pc) (thread : Thread) :
    Option (State Thread Loc Val Pc) :=
  match state.buffer thread with
  | [] => none
  | (loc, value) :: rest =>
      some { state with
        memory := Function.update state.memory loc value
        buffer := Function.update state.buffer thread rest }

def State.step (code : Thread → Pc → Op Loc Val Pc) (state : State Thread Loc Val Pc) :
    Label Thread → Option (State Thread Loc Val Pc)
  | .exec thread => state.exec thread (code thread (state.pc thread))
  | .drain thread => state.drain thread

/-- Any interleaving of the threads and of the drains of their buffers. -/
def system (code : Thread → Pc → Op Loc Val Pc) (start : State Thread Loc Val Pc) :
    System (State Thread Loc Val Pc) (Label Thread) :=
  .ofPartial (· = start) (State.step code)

/-- All that one step can do. -/
inductive Steps (code : Thread → Pc → Op Loc Val Pc) (state : State Thread Loc Val Pc) :
    State Thread Loc Val Pc → Prop
  | store {thread loc value next}
      (hop : code thread (state.pc thread) = .store loc value next) :
      Steps code state { state with
        buffer := Function.update state.buffer thread
          (state.buffer thread ++ [(loc, value)])
        pc := Function.update state.pc thread next }
  | load {thread loc next} (hop : code thread (state.pc thread) = .load loc next) :
      Steps code state { state with
        pc := Function.update state.pc thread (next (state.read thread loc)) }
  | fence {thread next} (hop : code thread (state.pc thread) = .fence next)
      (hempty : state.buffer thread = []) :
      Steps code state { state with pc := Function.update state.pc thread next }
  | modify {thread loc update next}
      (hop : code thread (state.pc thread) = .modify loc update next)
      (hempty : state.buffer thread = []) :
      Steps code state { state with
        memory := Function.update state.memory loc (update (state.memory loc))
        pc := Function.update state.pc thread (next (state.memory loc)) }
  | drain {thread loc value rest} (hbuffer : state.buffer thread = (loc, value) :: rest) :
      Steps code state { state with
        memory := Function.update state.memory loc value
        buffer := Function.update state.buffer thread rest }

theorem steps_of_step {code : Thread → Pc → Op Loc Val Pc}
    {before after : State Thread Loc Val Pc} {label : Label Thread}
    (hstep : before.step code label = some after) : Steps code before after := by
  cases label with
  | exec thread =>
      simp only [State.step] at hstep
      cases hop : code thread (before.pc thread) with
      | store loc value next =>
          rw [hop] at hstep
          cases hstep
          exact .store hop
      | load loc next =>
          rw [hop] at hstep
          cases hstep
          exact .load hop
      | fence next =>
          simp only [hop, State.exec, List.isEmpty_iff] at hstep
          split_ifs at hstep with hempty
          cases hstep
          exact .fence hop hempty
      | modify loc update next =>
          simp only [hop, State.exec, List.isEmpty_iff] at hstep
          split_ifs at hstep with hempty
          cases hstep
          exact .modify hop hempty
      | halt =>
          rw [hop] at hstep
          cases hstep
  | drain thread =>
      simp only [State.step, State.drain] at hstep
      split at hstep
      case h_1 => cases hstep
      case h_2 loc value rest hbuffer =>
        cases hstep
        exact .drain hbuffer

end JyyOS.Tso
