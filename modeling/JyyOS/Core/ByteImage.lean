import Mathlib.Data.List.Basic
import Mathlib.Tactic

/-!
# Byte images

Little-endian numbers, and loads and stores at a position of a byte string.
-/

namespace JyyOS.ByteImage

abbrev Byte := UInt8

/-- A number as `width` bytes, the least significant one first. -/
def leBytes : ℕ → ℕ → List Byte
  | 0, _ => []
  | width + 1, value => UInt8.ofNat value :: leBytes width (value / 256)

def leValue : List Byte → ℕ
  | [] => 0
  | byte :: bytes => byte.toNat + 256 * leValue bytes

@[simp]
theorem length_leBytes (width value : ℕ) : (leBytes width value).length = width := by
  induction width generalizing value with
  | zero => rfl
  | succ width ih => simp [leBytes, ih]

theorem leValue_leBytes (width value : ℕ) :
    leValue (leBytes width value) = value % 256 ^ width := by
  induction width generalizing value with
  | zero => simp [leBytes, leValue, Nat.mod_one]
  | succ width ih =>
      have hbyte : (UInt8.ofNat value).toNat = value % 256 := UInt8.toNat_ofNat'
      rw [leBytes, leValue, ih, hbyte, pow_succ', Nat.mod_mul]

theorem leValue_lt (bytes : List Byte) : leValue bytes < 256 ^ bytes.length := by
  induction bytes with
  | nil => simp [leValue]
  | cons byte bytes ih =>
      have hbyte := byte.toNat_lt
      rw [leValue, List.length_cons, pow_succ']
      omega

/-- A little-endian field of `width` bytes. -/
def field (mem : ℕ → Byte) (pos width : ℕ) : ℕ :=
  leValue ((List.range width).map fun i => mem (pos + i))

theorem field_lt (mem : ℕ → Byte) (pos width : ℕ) : field mem pos width < 256 ^ width := by
  have hlt := leValue_lt ((List.range width).map fun i => mem (pos + i))
  rwa [List.length_map, List.length_range] at hlt

theorem field_congr {first second : ℕ → Byte} {pos other width : ℕ}
    (hsame : ∀ i < width, first (pos + i) = second (other + i)) :
    field first pos width = field second other width := by
  unfold field
  congr 1
  exact List.map_congr_left fun i hi => hsame i (List.mem_range.mp hi)

/-- `count` bytes from `pos` on. -/
def load (pos count : ℕ) (image : List Byte) : List Byte :=
  (image.drop pos).take count

/-- The image with `bytes` written at `pos`. -/
def store (pos : ℕ) (bytes image : List Byte) : List Byte :=
  image.take pos ++ bytes ++ image.drop (pos + bytes.length)

section Store

variable {pos count : ℕ} {bytes image : List Byte}

theorem length_store (hfits : pos + bytes.length ≤ image.length) :
    (store pos bytes image).length = image.length := by
  simp only [store, List.length_append, List.length_take, List.length_drop]
  omega

/-- What lies before a store is unchanged. -/
theorem take_store (hfits : pos + bytes.length ≤ image.length)
    (hbefore : count ≤ pos) : (store pos bytes image).take count = image.take count := by
  have hlength : (image.take pos).length = pos := by
    rw [List.length_take]
    omega
  rw [store, List.append_assoc, List.take_append_of_le_length (by omega),
    List.take_take, min_eq_left hbefore]

/-- What lies behind a store is unchanged. -/
theorem drop_store (hfits : pos + bytes.length ≤ image.length)
    (hbehind : pos + bytes.length ≤ count) :
    (store pos bytes image).drop count = image.drop count := by
  have hlength : (image.take pos ++ bytes).length = pos + bytes.length := by
    rw [List.length_append, List.length_take]
    omega
  rw [store, List.drop_append, hlength, List.drop_drop,
    List.drop_eq_nil_of_le (by omega), List.nil_append]
  congr 1
  omega

end Store

end JyyOS.ByteImage
