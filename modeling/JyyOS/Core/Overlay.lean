import Mathlib.Data.List.Basic
import Mathlib.Data.Nat.Bitwise
import Mathlib.Tactic

/-!
# Memories written block by block

A write leaves a value at the addresses it covers and nothing elsewhere.  After
a list of writes an address has what the last write that covers it left there,
so a part written early survives exactly when the last later write over each of
its addresses leaves the same value.
-/

namespace JyyOS.Overlay

variable {Addr Value Part : Type*}

/-- What a write leaves at an address, `none` where it does not write. -/
abbrev Write (Addr Value : Type*) := Addr → Option Value

def put (mem : Addr → Value) (write : Write Addr Value) (addr : Addr) : Value :=
  (write addr).getD (mem addr)

def putAll (writes : List (Write Addr Value)) (mem : Addr → Value) : Addr → Value :=
  writes.foldl put mem

/-- What the last write over an address leaves there. -/
def last (writes : List (Write Addr Value)) (addr : Addr) : Option Value :=
  (writes.filterMap (· addr)).getLast?

theorem putAll_apply (writes : List (Write Addr Value)) (mem : Addr → Value) (addr : Addr) :
    putAll writes mem addr = (last writes addr).getD (mem addr) := by
  induction writes generalizing mem with
  | nil => rfl
  | cons write writes ih =>
      rw [putAll, List.foldl_cons, ← putAll, ih, last, last, List.filterMap_cons, put]
      cases write addr with
      | none => rfl
      | some value => rw [List.getLast?_cons, Option.getD_some, Option.getD_some]

/-! ## Parts that survive -/

section Parts

variable {write : Part → Write Addr Value} {after : List Part} {addr : Addr}

/-- The later parts that reach an address are enough to know its last write. -/
theorem last_map {reaches : Part → Prop} [DecidablePred reaches] {shown : Part → Value}
    (hwrite : ∀ part ∈ after,
      write part addr = if reaches part then some (shown part) else none) :
    last (after.map write) addr = ((after.filter (reaches ·)).getLast?).map shown := by
  rw [← List.getLast?_map, last, List.filterMap_map]
  congr 1
  induction after with
  | nil => rfl
  | cons part after ih =>
      have htail := ih fun other hother => hwrite other (List.mem_cons_of_mem _ hother)
      rw [List.filterMap_cons, Function.comp_apply, hwrite part List.mem_cons_self, htail]
      by_cases hreaches : reaches part
      · rw [if_pos hreaches, List.filter_cons_of_pos (by simpa using hreaches), List.map_cons]
      · rw [if_neg hreaches, List.filter_cons_of_neg (by simpa using hreaches)]

variable (parts : List Part) (size : Part → ℕ) (cell : Part → ℕ → Addr)
  (value : Part → ℕ → Value)
  (hown : ∀ part ∈ parts, ∀ i < size part, write part (cell part i) = some (value part i))

include hown

/-- Every part that a list of writes puts down is whole at the end if and only
if the last later write over each of its cells agrees with it. -/
theorem survives_iff (mem : Addr → Value) :
    (∀ part ∈ parts, ∀ i < size part,
      putAll (parts.map write) mem (cell part i) = value part i) ↔
    ∀ before part after, parts = before ++ part :: after → ∀ i < size part,
      ∀ later ∈ last (after.map write) (cell part i), later = value part i := by
  have hput : ∀ before part after, parts = before ++ part :: after → ∀ i < size part,
      putAll (parts.map write) mem (cell part i) =
        (last (after.map write) (cell part i)).getD (value part i) := by
    rintro before part after rfl i hi
    have hvalue := hown part (by simp) i hi
    rw [List.map_append, List.map_cons, putAll, List.foldl_append, List.foldl_cons, ← putAll,
      ← putAll, putAll_apply, put, hvalue, Option.getD_some]
  constructor
  · intro hwhole before part after hparts i hi later hlater
    have hsame := hwhole part (by simp [hparts]) i hi
    rwa [hput before part after hparts i hi, Option.mem_def.mp hlater] at hsame
  · intro hagree part hpart i hi
    obtain ⟨before, after, hparts⟩ := List.append_of_mem hpart
    rw [hput before part after hparts i hi]
    cases hlast : last (after.map write) (cell part i) with
    | none => rfl
    | some later => exact hagree before part after hparts i hi later hlast

/-- The same where it is known how later parts reach over earlier ones. -/
theorem survives_iff_reached (reaches : Part → Addr → Prop)
    [∀ part addr, Decidable (reaches part addr)] (shown : Part → Addr → Value)
    (hlater : ∀ before part after, parts = before ++ part :: after → ∀ i < size part,
      ∀ other ∈ after, write other (cell part i) =
        if reaches other (cell part i) then some (shown other (cell part i)) else none)
    (mem : Addr → Value) :
    (∀ part ∈ parts, ∀ i < size part,
      putAll (parts.map write) mem (cell part i) = value part i) ↔
    ∀ before part after, parts = before ++ part :: after → ∀ i < size part,
      ∀ other ∈ (after.filter (reaches · (cell part i))).getLast?,
        shown other (cell part i) = value part i := by
  rw [survives_iff parts size cell value hown mem]
  refine forall₅_congr fun before part after hparts i => forall_congr' fun hi => ?_
  rw [last_map (hlater before part after hparts i hi)]
  constructor
  · intro hagree other hother
    exact hagree _ (Option.mem_map_of_mem (shown · (cell part i)) hother)
  · intro hagree later hlast
    obtain ⟨other, hother, rfl⟩ := Option.mem_map.mp hlast
    exact hagree other hother

end Parts

/-! ## Steps that may fail -/

section Steps

variable {State : Type*} {step : State → Part → Option State} {parts : List Part}
  {before after : State}

/-- A run that ends has done every step. -/
theorem foldlM_forall {Done : Part → Prop}
    (hstep : ∀ part ∈ parts, ∀ before after, step before part = some after → Done part)
    (hrun : parts.foldlM step before = some after) : ∀ part ∈ parts, Done part := by
  induction parts generalizing before with
  | nil => simp
  | cons part parts ih =>
      rw [List.foldlM_cons] at hrun
      obtain ⟨middle, hfirst, hrest⟩ := Option.bind_eq_some_iff.mp hrun
      have hothers := ih (fun other hother => hstep other (List.mem_cons_of_mem _ hother)) hrest
      exact List.forall_mem_cons.mpr ⟨hstep part List.mem_cons_self _ _ hfirst, hothers⟩

/-- What every step keeps is kept by a run. -/
theorem foldlM_invariant {P : State → Prop}
    (hstep : ∀ part ∈ parts, ∀ before after, step before part = some after → P before →
      P after)
    (hrun : parts.foldlM step before = some after) (hbefore : P before) : P after := by
  induction parts generalizing before with
  | nil =>
      cases hrun
      exact hbefore
  | cons part parts ih =>
      rw [List.foldlM_cons] at hrun
      obtain ⟨middle, hfirst, hrest⟩ := Option.bind_eq_some_iff.mp hrun
      exact ih (fun other hother => hstep other (List.mem_cons_of_mem _ hother)) hrest
        (hstep part List.mem_cons_self _ _ hfirst hbefore)

end Steps

/-! ## Rounding down -/

/-- Masking the low bits of a number rounds it down to a power of two. -/
theorem and_mask {x bits low : ℕ} (hx : x < 2 ^ bits) (hlow : low ≤ bits) :
    x &&& (2 ^ bits - 2 ^ low) = x / 2 ^ low * 2 ^ low := by
  have hmask : 2 ^ bits - 2 ^ low = (2 ^ (bits - low) - 1) <<< low := by
    rw [Nat.shiftLeft_eq, Nat.sub_mul, one_mul, ← pow_add, Nat.sub_add_cancel hlow]
  have hround : x / 2 ^ low * 2 ^ low = (x >>> low) <<< low := by
    rw [Nat.shiftLeft_eq, Nat.shiftRight_eq_div_pow]
  rw [hmask, hround]
  apply Nat.eq_of_testBit_eq
  intro i
  rw [Nat.testBit_and, Nat.testBit_shiftLeft, Nat.testBit_shiftLeft, Nat.testBit_shiftRight,
    Nat.testBit_two_pow_sub_one]
  by_cases hi : low ≤ i
  · rw [Nat.add_sub_cancel' hi]
    by_cases hbit : i < bits
    · have hless : i - low < bits - low := by omega
      simp [hi, hless]
    · have hzero : x.testBit i = false :=
        Nat.testBit_lt_two_pow (hx.trans_le (Nat.pow_le_pow_right (by omega) (by omega)))
      simp [hzero]
  · simp [hi]

end JyyOS.Overlay
