import Mathlib.Tactic

/-!
# Reading the nuke device (`launcher.c`)

`lx_read` hands out a fixed message.  A reader calls it with the size of its buffer
until it returns 0; the kernel keeps the file offset between the calls.
-/

namespace JyyOS.Launcher

/-! ## The driver -/

def data : List UInt8 := "This is dangerous!\n".toList.map fun char => char.toNat.toUInt8

inductive Errno where
  | EFAULT
deriving DecidableEq

/-- A call of `lx_read`: the bytes in the buffer, whose number is the value returned, and
the new offset.  `copyToUser` is the number of bytes that could not be copied. -/
def lxRead (copyToUser : List UInt8 → ℕ) (offset count : ℕ) :
    Except Errno (List UInt8 × ℕ) :=
  if offset ≠ 0 then .ok ([], offset)
  else
    let datalen := data.length
    let count := if count > datalen then datalen else count
    if copyToUser (data.take count) ≠ 0 then .error .EFAULT
    else .ok (data.take count, offset + count)

/-- Calls with these counts until one returns 0: all that was delivered before, `none`
when no call returns 0. -/
def drain (read : ℕ → ℕ → Except Errno (List UInt8 × ℕ)) : List ℕ → ℕ → Option (List UInt8)
  | [], _ => none
  | count :: counts, offset =>
      match read offset count with
      | .error _ => none
      | .ok ([], _) => some []
      | .ok (byte :: bytes, offset) =>
          (drain read counts offset).map fun rest => byte :: bytes ++ rest

/-! ## Several calls -/

section Drain

variable {read : ℕ → ℕ → Except Errno (List UInt8 × ℕ)} {counts : List ℕ}
  {count offset : ℕ} {bytes : List UInt8}

theorem drain_end (hread : read offset count = .ok ([], offset)) :
    drain read (count :: counts) offset = some [] := by
  rw [drain, hread]

theorem drain_chunk {next : ℕ} (hread : read offset count = .ok (bytes, next))
    (hbytes : bytes ≠ []) :
    drain read (count :: counts) offset =
      (drain read counts next).map fun rest => bytes ++ rest := by
  cases bytes with
  | nil => exact absurd rfl hbytes
  | cons byte bytes => rw [drain, hread]

theorem lxRead_start (count : ℕ) :
    lxRead (fun _ => 0) 0 count = .ok (data.take count, min count data.length) := by
  rw [lxRead, if_neg (not_not_intro rfl)]
  by_cases hcount : data.length < count
  · simp [hcount, hcount.le, List.take_of_length_le]
  · simp [hcount, not_lt.mp hcount]

theorem lxRead_later (hoffset : offset ≠ 0) :
    lxRead (fun _ => 0) offset count = .ok ([], offset) :=
  if_pos hoffset

/-- The first call delivers something, and the second one ends the reading. -/
theorem drain_lxRead (hcount : 0 < count) :
    drain (lxRead fun _ => 0) (count :: counts) 0 =
      if counts = [] then none else some (data.take count) := by
  have hlength : 0 < data.length := by decide
  have hbytes : data.take count ≠ [] := by
    rw [Ne, List.take_eq_nil_iff, not_or]
    exact ⟨hcount.ne', List.ne_nil_of_length_pos hlength⟩
  have hoffset : min count data.length ≠ 0 := (lt_min hcount hlength).ne'
  rw [drain_chunk (lxRead_start count) hbytes]
  cases counts with
  | nil => rfl
  | cons second rest =>
      rw [drain_end (lxRead_later hoffset), Option.map_some, List.append_nil,
        if_neg (List.cons_ne_nil second rest)]

end Drain

/-- The bytes delivered before the call that returns 0 are the message exactly when the
first buffer holds all of it. -/
theorem drain_eq_data_iff (first : ℕ) (counts : List ℕ)
    (hpos : ∀ count ∈ first :: counts, 0 < count) {delivered : List UInt8}
    (hdrain : drain (lxRead fun _ => 0) (first :: counts) 0 = some delivered) :
    delivered = data ↔ data.length ≤ first := by
  rw [drain_lxRead (hpos first List.mem_cons_self)] at hdrain
  split_ifs at hdrain
  cases hdrain
  exact List.take_eq_self_iff data

/-- A buffer as long as the message. -/
theorem drain_whole : (∀ count ∈ [19, 1], 0 < count) ∧
    drain (lxRead fun _ => 0) [19, 1] 0 = some data ∧ data.length ≤ 19 := by
  have hpos : ∀ count ∈ [19, 1], 0 < count := by decide
  exact ⟨hpos, rfl, (drain_eq_data_iff 19 [1] hpos rfl).mp rfl⟩

/-- A buffer of 4 bytes gets `This` and then the end. -/
theorem drain_four : drain (lxRead fun _ => 0) [4, 4, 4, 4, 4, 4] 0 =
    some (data.take 4) ∧ data.take 4 ≠ data :=
  ⟨rfl, by decide⟩

end JyyOS.Launcher
