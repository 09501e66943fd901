import Mathlib.Tactic

/-!
# Patching a running function (`dsu.c`)

`DSU` makes the page or the two pages around `old` writable, stores a jump of 5 bytes
there and takes the permission away again.  The processor adds the signed 32-bit
operand of the jump to the address behind it.
-/

namespace JyyOS.Dsu

/-! ## The program -/

/-- What `getpagesize` can return: a power of two from 8 on that is an `int`. -/
structure PageSize where
  bits : ℕ
  low : 3 ≤ bits
  high : bits < 31

/-- `getpagesize()` -/
def PageSize.PG_SIZE (page : PageSize) : BitVec 32 := BitVec.twoPow 32 page.bits

/-- The conversion of an `int` to `uintptr_t` and `size_t`. -/
def unsigned (value : BitVec 32) : BitVec 64 := value.signExtend 64

structure Jmp where
  opcode : BitVec 8
  offset : BitVec 32
deriving DecidableEq

/-- `sizeof(struct jmp)`, which is packed. -/
def sizeofJmp : BitVec 64 := 5#64

/-- `JMP(off)`; the difference with `sizeof` is computed in 64 bits. -/
def JMP (off : BitVec 64) : Jmp := ⟨0xe9, (off - sizeofJmp).setWidth 32⟩

/-- The bytes of the structure in memory. -/
def Jmp.bytes (jmp : Jmp) : List (BitVec 8) :=
  [jmp.opcode, jmp.offset.extractLsb' 0 8, jmp.offset.extractLsb' 8 8,
    jmp.offset.extractLsb' 16 8, jmp.offset.extractLsb' 24 8]

def withinPage (page : PageSize) (addr : BitVec 64) : Bool :=
  addr % unsigned page.PG_SIZE + sizeofJmp ≤ unsigned page.PG_SIZE

def base (page : PageSize) (old : BitVec 64) : BitVec 64 :=
  old &&& unsigned (~~~(page.PG_SIZE - 1))

/-- `len`; the product is one of `int`s, and `none` when it overflows. -/
def len (page : PageSize) (old : BitVec 64) : Option (BitVec 64) :=
  let pages : BitVec 32 := if withinPage page old then 1#32 else 2#32
  if page.PG_SIZE.smulOverflow pages then none else some (unsigned (page.PG_SIZE * pages))

structure Prot where
  read : Bool
  write : Bool
  exec : Bool
deriving DecidableEq

/-- The memory of the process, byte by byte. -/
structure Process where
  memory : BitVec 64 → BitVec 8
  prot : BitVec 64 → Prot

/-- The address lies in the `len` bytes from `base` on. -/
def InRange (base len address : BitVec 64) : Prop :=
  base.toNat ≤ address.toNat ∧ address.toNat < base.toNat + len.toNat

instance (base len address : BitVec 64) : Decidable (InRange base len address) :=
  inferInstanceAs (Decidable (_ ∧ _))

def Process.protect (process : Process) (base len : BitVec 64) (flags : Prot) : Process :=
  { process with
    prot := fun address => if InRange base len address then flags else process.prot address }

/-- A store of some bytes, `none` when one of them is not writable. -/
def Process.store (process : Process) (address : BitVec 64) (bytes : List (BitVec 8)) :
    Option Process :=
  if (List.range bytes.length).all fun i => (process.prot (address + BitVec.ofNat 64 i)).write then
    some { process with
      memory := fun other => bytes.getD (other - address).toNat (process.memory other) }
  else none

section Patch

-- whether `mprotect` succeeds
variable (mprotect : BitVec 64 → BitVec 64 → Prot → Bool)

/-- The process after `DSU(old, new)`; `none` is an overflow or a fault. -/
def DSU (page : PageSize) (old new : BitVec 64) (process : Process) : Option Process := do
  let len ← len page old
  if mprotect (base page old) len ⟨true, true, true⟩ then
    let patched ← (process.protect (base page old) len ⟨true, true, true⟩).store old
      (JMP (new - old)).bytes
    some (if mprotect (base page old) len ⟨true, false, true⟩ then
      patched.protect (base page old) len ⟨true, false, true⟩ else patched)
  else some process

end Patch

/-- Where the processor continues after the instruction at `address`, when it is a jump
with a 32-bit operand. -/
def Process.jump (process : Process) (address : BitVec 64) : Option (BitVec 64) :=
  let byte (i : BitVec 64) : BitVec 8 := process.memory (address + i)
  let rel32 : BitVec 32 := byte 4 ++ byte 3 ++ byte 2 ++ byte 1
  if byte 0 = 0xe9 ∧ ∀ i < 5, (process.prot (address + BitVec.ofNat 64 i)).exec then
    some (address + 5 + rel32.signExtend 64)
  else none

/-! ## What a patch should do -/

/-- The 5 bytes at `old` lie on two pages. -/
def Crosses (page : PageSize) (old : BitVec 64) : Prop :=
  old.toNat / 2 ^ page.bits ≠ (old.toNat + 4) / 2 ^ page.bits

/-- The distance from behind the jump fits into its operand. -/
def Near (old new : BitVec 64) : Prop :=
  -2 ^ 31 ≤ (new - (old + 5)).toInt ∧ (new - (old + 5)).toInt < 2 ^ 31

/-- Where the patched function continues. -/
def target (old new : BitVec 64) : BitVec 64 :=
  old + 5 + (JMP (new - old)).offset.signExtend 64

structure Patched (page : PageSize) (old new size : BitVec 64) : Prop where
  len_eq : len page old = some size
  aligned : 2 ^ page.bits ∣ (base page old).toNat
  inside : ∀ i < 5, InRange (base page old) size (old + BitVec.ofNat 64 i)
  one_page : size.toNat = 2 ^ page.bits ↔ ¬ Crosses page old
  /-- Whenever the first `mprotect` succeeds, the processor finds the jump. -/
  continues : ∀ mprotect process, mprotect (base page old) size ⟨true, true, true⟩ = true →
    ∃ after, DSU mprotect page old new process = some after ∧
      after.jump old = some (target old new)
  lands : target old new = new ↔ Near old new

/-! ## The arithmetic of pages -/

section Pages

variable (page : PageSize) (old : BitVec 64)

theorem toNat_PG_SIZE : (unsigned page.PG_SIZE).toNat = 2 ^ page.bits := by
  have hall : ∀ bits < 31, (unsigned (BitVec.twoPow 32 bits)).toNat = 2 ^ bits := by decide
  exact hall page.bits page.high

theorem mask_eq : unsigned (~~~(page.PG_SIZE - 1)) = BitVec.allOnes 64 <<< page.bits := by
  have hall : ∀ bits < 31,
      unsigned (~~~(BitVec.twoPow 32 bits - 1)) = BitVec.allOnes 64 <<< bits := by decide
  exact hall page.bits page.high

theorem toNat_page : (unsigned (page.PG_SIZE * 1#32)).toNat = 2 ^ page.bits := by
  rw [BitVec.mul_one, toNat_PG_SIZE]

theorem overflow_one : page.PG_SIZE.smulOverflow 1#32 = false := by
  have hall : ∀ bits < 31, (BitVec.twoPow 32 bits).smulOverflow 1#32 = false := by decide
  exact hall page.bits page.high

/-- The product of two pages is no `int` for the largest page size. -/
theorem overflow_two : page.PG_SIZE.smulOverflow 2#32 = true ↔ page.bits = 30 := by
  have hall : ∀ bits < 31, ((BitVec.twoPow 32 bits).smulOverflow 2#32 = true ↔ bits = 30) := by
    decide
  exact hall page.bits page.high

theorem toNat_pages (hbits : page.bits < 30) :
    (unsigned (page.PG_SIZE * 2#32)).toNat = 2 * 2 ^ page.bits := by
  have hall : ∀ bits < 30, (unsigned (BitVec.twoPow 32 bits * 2#32)).toNat = 2 * 2 ^ bits := by
    decide
  exact hall page.bits hbits

/-- The mask rounds down to a page. -/
theorem toNat_base :
    (base page old).toNat = old.toNat / 2 ^ page.bits * 2 ^ page.bits := by
  rw [base, mask_eq, ← BitVec.shiftLeft_ushiftRight, BitVec.toNat_shiftLeft,
    BitVec.toNat_ushiftRight, Nat.shiftRight_eq_div_pow, Nat.shiftLeft_eq]
  exact Nat.mod_eq_of_lt ((Nat.div_mul_le_self _ _).trans_lt old.isLt)

theorem pow_page : 5 ≤ 2 ^ page.bits ∧ 2 ^ page.bits ≤ 2 ^ 30 := by
  refine ⟨?_, Nat.pow_le_pow_right two_pos (Nat.le_of_lt_succ page.high)⟩
  calc 5 ≤ 2 ^ 3 := by decide
    _ ≤ 2 ^ page.bits := Nat.pow_le_pow_right two_pos page.low

theorem mod_page_lt : old.toNat % 2 ^ page.bits < 2 ^ page.bits :=
  Nat.mod_lt _ (Nat.two_pow_pos page.bits)

/-- `old` is so many bytes into its page. -/
theorem base_add_mod : (base page old).toNat + old.toNat % 2 ^ page.bits = old.toNat := by
  rw [toNat_base, Nat.mul_comm]
  exact Nat.div_add_mod _ _

theorem withinPage_iff :
    withinPage page old = true ↔ old.toNat % 2 ^ page.bits + 5 ≤ 2 ^ page.bits := by
  have hpow := pow_page page
  have hmod := mod_page_lt page old
  have hsize : sizeofJmp.toNat = 5 := rfl
  have hsum : (old % unsigned page.PG_SIZE + sizeofJmp).toNat =
      old.toNat % 2 ^ page.bits + 5 := by
    rw [BitVec.toNat_add, BitVec.toNat_umod, toNat_PG_SIZE, hsize]
    exact Nat.mod_eq_of_lt (by omega)
  rw [withinPage, decide_eq_true_iff, BitVec.le_def, hsum, toNat_PG_SIZE]

theorem not_crosses_iff : ¬ Crosses page old ↔ withinPage page old = true := by
  have hpos := Nat.two_pow_pos page.bits
  have hbase := base_add_mod page old
  rw [withinPage_iff, Crosses, not_not, eq_comm, Nat.div_eq_iff hpos, ← toNat_base]
  omega

theorem len_of_within (hwithin : withinPage page old = true) :
    len page old = some (unsigned (page.PG_SIZE * 1#32)) := by
  simp [len, hwithin, overflow_one]

theorem len_of_crosses (hcrosses : withinPage page old = false) :
    len page old = if page.bits = 30 then none else some (unsigned (page.PG_SIZE * 2#32)) := by
  simp [len, hcrosses, overflow_two]

end Pages

/-! ## The jump -/

section Jump

variable {old new : BitVec 64}

theorem toNat_add_ofNat (hwrap : old.toNat + 5 < 2 ^ 64) {i : ℕ} (hi : i < 5) :
    (old + BitVec.ofNat 64 i).toNat = old.toNat + i := by
  rw [BitVec.toNat_add, BitVec.toNat_ofNat]
  omega

/-- The operand survives its truncation exactly when it is near. -/
theorem signExtend_setWidth_iff (distance : BitVec 64) :
    (distance.setWidth 32).signExtend 64 = distance ↔
      -2 ^ 31 ≤ distance.toInt ∧ distance.toInt < 2 ^ 31 := by
  have hoperand : ((distance.setWidth 32).signExtend 64).toInt = (distance.setWidth 32).toInt :=
    BitVec.toInt_signExtend_of_le (by decide)
  constructor
  · intro heq
    rw [heq] at hoperand
    rw [hoperand]
    exact ⟨BitVec.le_toInt _, BitVec.toInt_lt⟩
  · rintro ⟨hlow, hhigh⟩
    apply BitVec.eq_of_toInt_eq
    rw [hoperand, BitVec.toInt_setWidth]
    rw [BitVec.toInt_eq_toNat_cond] at hlow hhigh ⊢
    rw [Int.bmod_def]
    split_ifs at hlow hhigh ⊢ <;> omega

theorem target_eq_iff : target old new = new ↔ Near old new := by
  have hdistance : new - old - sizeofJmp = new - (old + 5) := by
    rw [sizeofJmp, BitVec.sub_sub]
    rfl
  have hmove : ∀ operand : BitVec 64,
      old + 5 + operand = new ↔ operand = new - (old + 5) := by
    intro operand
    constructor
    all_goals
      intro heq
      bv_omega
  rw [target, JMP, hdistance, hmove, signExtend_setWidth_iff]
  rfl

/-- The bytes of the operand, put together again. -/
theorem bytes_append (offset : BitVec 32) :
    offset.extractLsb' 24 8 ++ offset.extractLsb' 16 8 ++ offset.extractLsb' 8 8 ++
      offset.extractLsb' 0 8 = offset := by
  rw [BitVec.extractLsb'_append_extractLsb'_eq_extractLsb' (by decide),
    BitVec.extractLsb'_append_extractLsb'_eq_extractLsb' (by decide),
    BitVec.extractLsb'_append_extractLsb'_eq_extractLsb' (by decide)]
  exact BitVec.extractLsb'_eq_self

/-- A store into writable bytes succeeds and puts the bytes there. -/
theorem store_eq (process : Process) (bytes : List (BitVec 8))
    (hwrite : ∀ i < bytes.length, (process.prot (old + BitVec.ofNat 64 i)).write = true) :
    process.store old bytes = some { process with
      memory := fun other => bytes.getD (other - old).toNat (process.memory other) } := by
  apply if_pos
  simpa using hwrite

theorem jump_eq (process : Process) (jmp : Jmp) (hopcode : jmp.opcode = 0xe9)
    (hbytes : ∀ i < 5, process.memory (old + BitVec.ofNat 64 i) = jmp.bytes.getD i 0)
    (hexec : ∀ i < 5, (process.prot (old + BitVec.ofNat 64 i)).exec = true) :
    process.jump old = some (old + 5 + jmp.offset.signExtend 64) := by
  have hzero : process.memory (old + 0) = 0xe9 := (hbytes 0 (by decide)).trans hopcode
  have hrel : process.memory (old + 4) ++ process.memory (old + 3) ++
      process.memory (old + 2) ++ process.memory (old + 1) = jmp.offset := by
    rw [← bytes_append jmp.offset]
    congr 1
    · congr 1
      · congr 1
        · exact hbytes 4 (by decide)
        · exact hbytes 3 (by decide)
      · exact hbytes 2 (by decide)
    · exact hbytes 1 (by decide)
  have hjump : process.jump old = if process.memory (old + 0) = 0xe9 ∧
      ∀ i < 5, (process.prot (old + BitVec.ofNat 64 i)).exec then
        some (old + 5 + (process.memory (old + 4) ++ process.memory (old + 3) ++
          process.memory (old + 2) ++ process.memory (old + 1)).signExtend 64)
      else none := rfl
  rw [hjump, if_pos ⟨hzero, hexec⟩, hrel]

end Jump

/-! ## The patch -/

section Patch

variable {page : PageSize} {old new size : BitVec 64}

theorem protect_prot {process : Process} {base len address : BitVec 64} {flags : Prot}
    (hrange : InRange base len address) :
    (process.protect base len flags).prot address = flags :=
  if_pos hrange

/-- The process after the store of the jump. -/
def stored (page : PageSize) (old new size : BitVec 64) (process : Process) : Process where
  memory other := (JMP (new - old)).bytes.getD (other - old).toNat (process.memory other)
  prot := (process.protect (base page old) size ⟨true, true, true⟩).prot

theorem DSU_eq (hlen : len page old = some size)
    (hinside : ∀ i < 5, InRange (base page old) size (old + BitVec.ofNat 64 i))
    {mprotect : BitVec 64 → BitVec 64 → Prot → Bool} (process : Process)
    (hfirst : mprotect (base page old) size ⟨true, true, true⟩ = true) :
    DSU mprotect page old new process =
      some (if mprotect (base page old) size ⟨true, false, true⟩ then
        (stored page old new size process).protect (base page old) size ⟨true, false, true⟩
      else stored page old new size process) := by
  have hstore : (process.protect (base page old) size ⟨true, true, true⟩).store old
      (JMP (new - old)).bytes = some (stored page old new size process) := by
    apply store_eq
    intro i hi
    rw [protect_prot (hinside i hi)]
  rw [DSU, hlen]
  show (if mprotect (base page old) size ⟨true, true, true⟩ = true then _ else _) = _
  rw [if_pos hfirst, hstore]
  rfl

theorem stored_memory (hwrap : old.toNat + 5 < 2 ^ 64) (process : Process) {i : ℕ}
    (hi : i < 5) : (stored page old new size process).memory (old + BitVec.ofNat 64 i) =
      (JMP (new - old)).bytes.getD i 0 := by
  have hindex : (old + BitVec.ofNat 64 i - old).toNat = i := by
    have hsum := toNat_add_ofNat hwrap hi
    bv_omega
  have hlength : i < (JMP (new - old)).bytes.length := hi
  show (JMP (new - old)).bytes.getD (old + BitVec.ofNat 64 i - old).toNat _ = _
  rw [hindex]
  simp [List.getD_eq_getElem?_getD, hlength]

/-- When the range that is made writable covers the 5 bytes, `DSU` patches the function. -/
theorem jump_of_inside (hwrap : old.toNat + 5 < 2 ^ 64) (hlen : len page old = some size)
    (hinside : ∀ i < 5, InRange (base page old) size (old + BitVec.ofNat 64 i))
    {mprotect : BitVec 64 → BitVec 64 → Prot → Bool} (process : Process)
    (hfirst : mprotect (base page old) size ⟨true, true, true⟩ = true) :
    ∃ after, DSU mprotect page old new process = some after ∧
      after.jump old = some (target old new) := by
  refine ⟨_, DSU_eq hlen hinside process hfirst, ?_⟩
  have hbytes : ∀ i < 5, (stored page old new size process).memory (old + BitVec.ofNat 64 i) =
      (JMP (new - old)).bytes.getD i 0 := fun i hi => stored_memory hwrap process hi
  -- the second call leaves the bytes executable whether it succeeds or not
  split_ifs with hsecond
  · refine jump_eq _ (JMP (new - old)) rfl hbytes ?_
    intro i hi
    rw [protect_prot (hinside i hi)]
  · refine jump_eq _ (JMP (new - old)) rfl hbytes ?_
    intro i hi
    rw [stored, protect_prot (hinside i hi)]

/-- When the first call fails, nothing changes. -/
theorem DSU_refused (hlen : len page old = some size)
    {mprotect : BitVec 64 → BitVec 64 → Prot → Bool} (process : Process)
    (hfirst : mprotect (base page old) size ⟨true, true, true⟩ = false) :
    DSU mprotect page old new process = some process := by
  rw [DSU, hlen]
  show (if mprotect (base page old) size ⟨true, true, true⟩ = true then _ else _) = _
  rw [if_neg (Bool.eq_false_iff.mp hfirst)]

/-- The range covers the bytes, and is one page exactly when they lie on one. -/
theorem inside_of_size (hwrap : old.toNat + 5 < 2 ^ 64) {pages : ℕ}
    (hsize : size.toNat = pages * 2 ^ page.bits)
    (hpages : old.toNat % 2 ^ page.bits + 5 ≤ pages * 2 ^ page.bits) :
    ∀ i < 5, InRange (base page old) size (old + BitVec.ofNat 64 i) := by
  intro i hi
  have hbase := base_add_mod page old
  rw [InRange, toNat_add_ofNat hwrap hi, hsize]
  omega

theorem aligned_base (page : PageSize) (old : BitVec 64) :
    2 ^ page.bits ∣ (base page old).toNat :=
  ⟨old.toNat / 2 ^ page.bits, by rw [toNat_base, Nat.mul_comm]⟩

theorem patched_of_size (hwrap : old.toNat + 5 < 2 ^ 64) (hlen : len page old = some size)
    (pages : ℕ) (hsize : size.toNat = pages * 2 ^ page.bits)
    (hpages : old.toNat % 2 ^ page.bits + 5 ≤ pages * 2 ^ page.bits)
    (hone : pages = 1 ↔ ¬ Crosses page old) : Patched page old new size := by
  have hinside := inside_of_size hwrap hsize hpages
  have hpos := Nat.two_pow_pos page.bits
  refine ⟨hlen, aligned_base page old, hinside, ?_, ?_, target_eq_iff⟩
  · rw [hsize, Nat.mul_eq_right hpos.ne', hone]
  · exact fun mprotect process hfirst => jump_of_inside hwrap hlen hinside process hfirst

end Patch

/-- `DSU` does its work for every pair of addresses, unless the two pages of a patch that
crosses a page boundary are too large for an `int`. -/
theorem patched_iff (page : PageSize) (old new : BitVec 64) (hwrap : old.toNat + 5 < 2 ^ 64) :
    (∃ size, Patched page old new size) ↔ ¬ (page.bits = 30 ∧ Crosses page old) := by
  have hcrosses := not_crosses_iff page old
  constructor
  · rintro ⟨size, hpatched⟩ ⟨hbits, hyes⟩
    have hwithin : withinPage page old = false :=
      Bool.eq_false_iff.mpr fun hwithin => hcrosses.mpr hwithin hyes
    have hlen := hpatched.len_eq
    rw [len_of_crosses page old hwithin, if_pos hbits] at hlen
    cases hlen
  · intro hgood
    cases hwithin : withinPage page old with
    | true =>
        have hpages := (withinPage_iff page old).mp hwithin
        refine ⟨_, patched_of_size hwrap (len_of_within page old hwithin) 1 ?_ ?_ ?_⟩
        · rw [toNat_page, Nat.one_mul]
        · rwa [Nat.one_mul]
        · exact iff_of_true rfl (hcrosses.mpr hwithin)
    | false =>
        have hyes : Crosses page old := by
          by_contra hno
          rw [hcrosses.mp hno] at hwithin
          cases hwithin
        have hbits : page.bits ≠ 30 := fun hbits => hgood ⟨hbits, hyes⟩
        have hlen := len_of_crosses page old hwithin
        rw [if_neg hbits] at hlen
        have hmod := mod_page_lt page old
        have hpow := pow_page page
        have hhigh := page.high
        refine ⟨_, patched_of_size hwrap hlen 2 ?_ ?_ ?_⟩
        · exact toNat_pages page (by omega)
        · omega
        · exact iff_of_false (by decide) (not_not_intro hyes)

/-- A patch across the boundary of two pages of 4096 bytes, with a jump backward. -/
theorem patched_crossing : (0x402ffe : BitVec 64).toNat + 5 < 2 ^ 64 ∧
    ∃ size, Patched ⟨12, by decide, by decide⟩ 0x402ffe 0x401136 size :=
  ⟨by decide, (patched_iff ⟨12, by decide, by decide⟩ 0x402ffe 0x401136 (by decide)).mpr
    fun huge => absurd huge.1 (by decide)⟩

/-- With pages of 1 GiB the length of two of them overflows. -/
theorem not_patched_huge : (0x3ffffffe : BitVec 64).toNat + 5 < 2 ^ 64 ∧
    ¬ ∃ size, Patched ⟨30, by decide, by decide⟩ 0x3ffffffe 0x401136 size := by
  refine ⟨by decide, ?_⟩
  rintro ⟨size, hpatched⟩
  have hlen := hpatched.len_eq
  rw [show len ⟨30, by decide, by decide⟩ 0x3ffffffe = none by decide] at hlen
  cases hlen

end JyyOS.Dsu
