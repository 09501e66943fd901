import JyyOS.Core.ByteImage
import JyyOS.Core.Overlay

/-!
# The boot loader (`bootmain.c`)

The disk holds the boot sector, two sectors of arguments and the ELF image.
`load_program` copies whole sectors to the rounded-down address of a segment
and zeroes what its file part does not fill, all with 32-bit addresses.
-/

namespace JyyOS.Bootmain

open JyyOS.ByteImage

/-- Physical memory, of which the addresses below `2 ^ 32` exist. -/
abbrev Memory := ℕ → Byte

/-- The bytes of every sector. -/
abbrev Disk := ℕ → ℕ → Byte

abbrev SECTSIZE := 512
abbrev ARGSIZE := 1024

/-! ## The code -/

/-- The sector that the four `outb` of `read_disk` select. -/
def lba (sect : ℕ) : ℕ :=
  sect % 2 ^ 8 + sect / 2 ^ 8 % 2 ^ 8 * 2 ^ 8 + sect / 2 ^ 16 % 2 ^ 8 * 2 ^ 16 +
    (sect / 2 ^ 24 % 2 ^ 8 ||| 0xE0) % 2 ^ 4 * 2 ^ 24

def readDisk (disk : Disk) (mem : Memory) (buf sect : ℕ) : Memory := fun addr =>
  if buf ≤ addr ∧ addr < buf + SECTSIZE then disk (lba sect) (addr - buf) else mem addr

/-- The loop of `copy_from_disk`, `none` when it goes on beyond the fuel. -/
def copyLoop (disk : Disk) : ℕ → Memory → ℕ → ℕ → ℕ → Option Memory
  | 0, _, _, _, _ => none
  | fuel + 1, mem, cur, ed, sect =>
      if cur < ed then
        copyLoop disk fuel (readDisk disk mem cur sect) ((cur + SECTSIZE) % 2 ^ 32) ed
          ((sect + 1) % 2 ^ 32)
      else some mem

/-- `nbytes` and `disk_offset` are `int`s, and the division truncates. -/
def copyFromDisk (disk : Disk) (fuel : ℕ) (mem : Memory) (buf : ℕ) (nbytes diskOffset : ℤ) :
    Option Memory :=
  let cur := buf &&& (2 ^ 32 - SECTSIZE)
  let ed := ((buf + nbytes) % 2 ^ 32).toNat
  let sect := ((diskOffset.tdiv SECTSIZE + ARGSIZE / SECTSIZE + 1) % 2 ^ 32).toNat
  copyLoop disk fuel mem cur ed sect

/-- The loop over the `bss`, which ends when `i` has come around to `memsz`. -/
def zeroFill : ℕ → Memory → ℕ → Memory
  | 0, mem, _ => mem
  | count + 1, mem, bss => zeroFill count (Function.update mem bss 0) ((bss + 1) % 2 ^ 32)

/-- The conversion of a `uint32_t` to an `int`. -/
def toInt (value : ℕ) : ℤ := if value < 2 ^ 31 then value else value - 2 ^ 32

def loadProgram (disk : Disk) (fuel : ℕ) (mem : Memory) (filesz memsz paddr offset : ℕ) :
    Option Memory := do
  let mem ← copyFromDisk disk fuel mem paddr (toInt filesz) (toInt offset)
  some (zeroFill ((memsz + 2 ^ 32 - filesz) % 2 ^ 32) mem ((paddr + filesz) % 2 ^ 32))

/-- Where `elf.h` has the fields of the two headers, and how wide addresses and
offsets are. -/
structure Layout where
  ePhoff : ℕ
  ePhnum : ℕ
  width : ℕ
  phdrSize : ℕ
  pOffset : ℕ
  pPaddr : ℕ
  pFilesz : ℕ
  pMemsz : ℕ
  inHeader : ePhoff + width ≤ 64 ∧ ePhnum + 2 ≤ 64 := by decide
  inEntry : pOffset + width ≤ phdrSize ∧ pPaddr + width ≤ phdrSize ∧
    pFilesz + width ≤ phdrSize ∧ pMemsz + width ≤ phdrSize := by decide

def elf32 : Layout where
  ePhoff := 28
  ePhnum := 44
  width := 4
  phdrSize := 32
  pOffset := 4
  pPaddr := 12
  pFilesz := 16
  pMemsz := 20

def elf64 : Layout where
  ePhoff := 32
  ePhnum := 56
  width := 8
  phdrSize := 56
  pOffset := 8
  pPaddr := 24
  pFilesz := 32
  pMemsz := 40

structure Phdr where
  offset : ℕ
  paddr : ℕ
  filesz : ℕ
  memsz : ℕ
deriving DecidableEq

namespace Layout

variable (layout : Layout)

def phoff (elf : ℕ → Byte) (base : ℕ) : ℕ := field elf (base + layout.ePhoff) layout.width

def phnum (elf : ℕ → Byte) (base : ℕ) : ℕ := field elf (base + layout.ePhnum) 2

def phdr (mem : ℕ → Byte) (ph : ℕ) : Phdr where
  offset := field mem (ph + layout.pOffset) layout.width
  paddr := field mem (ph + layout.pPaddr) layout.width
  filesz := field mem (ph + layout.pFilesz) layout.width
  memsz := field mem (ph + layout.pMemsz) layout.width

end Layout

/-- Where `load_kernel` has read the first 4096 bytes of the image to. -/
abbrev elf := 0x8000

abbrev elfSize := 4096

/-- The loop that `load_elf32` and `load_elf64` have in common. -/
def loadLoop (disk : Disk) (layout : Layout) (fuel : ℕ) :
    ℕ → ℕ → ℕ → Memory → Option Memory
  | 0, _, _, _ => none
  | rounds + 1, i, ph, mem =>
      if i < layout.phnum mem elf then do
        let p := layout.phdr mem ph
        let mem ← loadProgram disk fuel mem (p.filesz % 2 ^ 32) (p.memsz % 2 ^ 32)
          (p.paddr % 2 ^ 32) (p.offset % 2 ^ 32)
        loadLoop disk layout fuel rounds (i + 1) ((ph + layout.phdrSize) % 2 ^ 32) mem
      else some mem

def loadElf (layout : Layout) (disk : Disk) (fuel : ℕ) (mem : Memory) : Option Memory :=
  loadLoop disk layout fuel fuel 0 ((elf + layout.phoff mem elf) % 2 ^ 32) mem

def loadElf32 : Disk → ℕ → Memory → Option Memory := loadElf elf32

def loadElf64 : Disk → ℕ → Memory → Option Memory := loadElf elf64

/-! ## Segments -/

/-- A byte of the image, which begins at the fourth sector. -/
def image (disk : Disk) (pos : ℕ) : Byte :=
  disk (pos / SECTSIZE + ARGSIZE / SECTSIZE + 1) (pos % SECTSIZE)

def entry (layout : Layout) (disk : Disk) (i : ℕ) : Phdr :=
  layout.phdr (image disk) (layout.phoff (image disk) 0 + i * layout.phdrSize)

/-- The program headers of the image. -/
def table (layout : Layout) (disk : Disk) : List Phdr :=
  (List.range (layout.phnum (image disk) 0)).map (entry layout disk)

namespace Phdr

variable (p : Phdr)

/-- What a segment is in memory: its file part, then zeros. -/
def byte (disk : Disk) (i : ℕ) : Byte :=
  if i < p.filesz then image disk (p.offset + i) else 0

/-- The rounded-down address, where the copy of the file part begins. -/
def head : ℕ := p.paddr / SECTSIZE * SECTSIZE

/-- What the copy leaves at an address of its sectors. -/
def copied (disk : Disk) (addr : ℕ) : Byte :=
  image disk (p.offset / SECTSIZE * SECTSIZE + (addr - p.head))

/-- The number of sectors of the copy. -/
def sectors : ℕ := (p.paddr + p.filesz - p.head + (SECTSIZE - 1)) / SECTSIZE

/-- The headers that a loader may be given. -/
structure Fits : Prop where
  filesz : p.filesz ≤ p.memsz
  congr : p.paddr % SECTSIZE = p.offset % SECTSIZE
  offset : p.offset < 2 ^ 31
  paddr : p.paddr < 2 ^ 32
  noWrap : p.paddr + p.memsz ≤ 2 ^ 32
  apart : p.paddr + p.memsz ≤ elf ∨ elf + elfSize ≤ p.paddr

/-- Everything that loading the segment leaves in memory. -/
def write (disk : Disk) : Overlay.Write ℕ Byte := fun addr =>
  if p.paddr + p.filesz ≤ addr ∧ addr < p.paddr + p.memsz then some 0
  else if p.head ≤ addr ∧ addr < p.head + p.sectors * SECTSIZE then some (p.copied disk addr)
  else none

end Phdr

/-- What one call of `load_program` relies on. -/
structure Phdr.Placed (p : Phdr) : Prop where
  filesz : p.filesz ≤ p.memsz
  congr : p.paddr % SECTSIZE = p.offset % SECTSIZE
  offset : p.offset < 2 ^ 31
  paddr : p.paddr < 2 ^ 32
  memsz : p.memsz < 2 ^ 32
  noWrap : p.paddr + p.memsz ≤ 2 ^ 32

theorem Phdr.Fits.placed {p : Phdr} (hfits : p.Fits) : p.Placed := by
  obtain ⟨hfilesz, hcongr, hoffset, hpaddr, hwrap, hapart⟩ := hfits
  simp only [elf, elfSize] at hapart
  exact ⟨hfilesz, hcongr, hoffset, hpaddr, by omega, hwrap⟩

/-- The conversions to `uint32_t` change nothing. -/
theorem Phdr.Fits.small {p : Phdr} (hfits : p.Fits) :
    p.filesz % 2 ^ 32 = p.filesz ∧ p.memsz % 2 ^ 32 = p.memsz ∧
      p.paddr % 2 ^ 32 = p.paddr ∧ p.offset % 2 ^ 32 = p.offset := by
  obtain ⟨hfilesz, -, hoffset, hpaddr, hmemsz, -⟩ := hfits.placed
  omega

/-! ## One segment -/

theorem lba_eq {sect : ℕ} (hsect : sect < 2 ^ 28) : lba sect = sect := by
  have hnibble : (sect / 2 ^ 24 % 2 ^ 8 ||| 0xE0) % 2 ^ 4 = sect / 2 ^ 24 := by
    rw [Nat.or_mod_two_pow]
    norm_num
    omega
  rw [lba, hnibble]
  omega

/-- A copy that stays below the last sector: `rounds` sectors from `cur` on. -/
theorem copyLoop_eq (disk : Disk) (rounds : ℕ) {fuel cur ed sect : ℕ} (mem : Memory)
    (hfuel : rounds < fuel) (hcur : cur % 512 = 0) (hed : ed ≤ 2 ^ 32 - 512)
    (hlast : ed ≤ cur + rounds * 512) (hmore : 0 < rounds → cur + (rounds - 1) * 512 < ed)
    (hsect : sect + rounds ≤ 2 ^ 28) :
    copyLoop disk fuel mem cur ed sect = some fun addr =>
      if cur ≤ addr ∧ addr < cur + rounds * 512 then
        disk (sect + (addr - cur) / 512) ((addr - cur) % 512)
      else mem addr := by
  induction rounds generalizing fuel cur sect mem with
  | zero =>
      obtain ⟨fuel, rfl⟩ : ∃ less, fuel = less + 1 := ⟨fuel - 1, by omega⟩
      rw [copyLoop, if_neg (by omega)]
      exact congrArg some (funext fun addr => (if_neg (by omega)).symm)
  | succ rounds ih =>
      obtain ⟨fuel, rfl⟩ : ∃ less, fuel = less + 1 := ⟨fuel - 1, by omega⟩
      have hless : cur < ed := by
        have := hmore (by omega)
        omega
      have hnext : (cur + SECTSIZE) % 2 ^ 32 = cur + 512 := Nat.mod_eq_of_lt (by
        simp only [SECTSIZE]
        omega)
      have hnextSect : (sect + 1) % 2 ^ 32 = sect + 1 := Nat.mod_eq_of_lt (by omega)
      rw [copyLoop, if_pos hless, hnext, hnextSect, ih _ (by omega) (by omega) (by omega) (by
        intro hrounds
        have := hmore (by omega)
        omega) (by omega)]
      refine congrArg some (funext fun addr => ?_)
      simp only [readDisk, lba_eq (show sect < 2 ^ 28 by omega), SECTSIZE]
      by_cases hhere : cur ≤ addr ∧ addr < cur + 512
      · rw [if_neg (by omega), if_pos hhere, if_pos (by omega),
          Nat.div_eq_of_lt (by omega : addr - cur < 512),
          Nat.mod_eq_of_lt (by omega : addr - cur < 512), Nat.add_zero]
      by_cases hlater : cur + 512 ≤ addr ∧ addr < cur + 512 + rounds * 512
      · have hdiv : sect + 1 + (addr - (cur + 512)) / 512 = sect + (addr - cur) / 512 := by omega
        have hmod : (addr - (cur + 512)) % 512 = (addr - cur) % 512 := by omega
        rw [if_pos hlater, if_pos (by omega), hdiv, hmod]
      · rw [if_neg hlater, if_neg hhere, if_neg (by omega)]

/-- A file part that ends in the last sector below `2 ^ 32` is copied for ever. -/
theorem copyLoop_forever (disk : Disk) (fuel : ℕ) {cur ed sect : ℕ} (mem : Memory)
    (hcur : cur % 512 = 0) (hfits : cur < 2 ^ 32) (hed : 2 ^ 32 - 512 < ed) :
    copyLoop disk fuel mem cur ed sect = none := by
  induction fuel generalizing cur sect mem with
  | zero => rfl
  | succ fuel ih =>
      rw [copyLoop, if_pos (by omega)]
      apply ih
      · simp only [SECTSIZE]
        omega
      · exact Nat.mod_lt _ (by norm_num)

theorem zeroFill_eq (count : ℕ) {bss : ℕ} (mem : Memory) (hfits : bss + count ≤ 2 ^ 32) :
    zeroFill count mem bss = fun addr =>
      if bss ≤ addr ∧ addr < bss + count then 0 else mem addr := by
  induction count generalizing bss mem with
  | zero =>
      funext addr
      rw [zeroFill, if_neg (by omega)]
  | succ count ih =>
      funext addr
      have hrest : (bss + 1) % 2 ^ 32 + count ≤ 2 ^ 32 := by omega
      rw [zeroFill, ih _ hrest]
      by_cases hbss : addr = bss
      · subst hbss
        simp only [Function.update_self, ite_self]
        rw [if_pos (by omega)]
      · simp only [Function.update_of_ne hbss]
        by_cases hinside : bss ≤ addr ∧ addr < bss + (count + 1)
        · rw [if_pos (by omega), if_pos hinside]
        · rw [if_neg (by omega), if_neg hinside]

theorem copied_eq (p : Phdr) (disk : Disk) (addr : ℕ) :
    p.copied disk addr =
      disk (p.offset / 512 + 3 + (addr - p.head) / 512) ((addr - p.head) % 512) := by
  have hsect : (p.offset / 512 * 512 + (addr - p.head)) / 512 + 1024 / 512 + 1 =
      p.offset / 512 + 3 + (addr - p.head) / 512 := by omega
  have hpos : (p.offset / 512 * 512 + (addr - p.head)) % 512 = (addr - p.head) % 512 := by
    omega
  simp only [Phdr.copied, image, SECTSIZE, ARGSIZE]
  rw [hsect, hpos]

theorem copy_end (p : Phdr) :
    (((p.paddr : ℤ) + toInt p.filesz) % 2 ^ 32).toNat = (p.paddr + p.filesz) % 2 ^ 32 := by
  unfold toInt
  split_ifs <;> omega

section Program

variable {p : Phdr} (hfits : p.Placed) (disk : Disk) (mem : Memory)

include hfits

theorem copy_sect :
    (((toInt p.offset).tdiv SECTSIZE + ARGSIZE / SECTSIZE + 1) % 2 ^ 32).toNat =
      p.offset / 512 + 3 := by
  have hsmall := hfits.offset
  rw [toInt, if_pos hsmall, ← Int.ofNat_tdiv]
  simp only [SECTSIZE, ARGSIZE]
  omega

theorem copy_cur : p.paddr &&& (2 ^ 32 - SECTSIZE) = p.head :=
  Overlay.and_mask hfits.paddr (show 9 ≤ 32 by omega)

theorem copyFromDisk_eq (fuel : ℕ) :
    copyFromDisk disk fuel mem p.paddr (toInt p.filesz) (toInt p.offset) =
      copyLoop disk fuel mem p.head ((p.paddr + p.filesz) % 2 ^ 32) (p.offset / 512 + 3) := by
  simp only [copyFromDisk, copy_cur hfits, copy_end, copy_sect hfits]

/-- The `bss` loop counts to the end of the segment. -/
theorem bss_count : (p.memsz + 2 ^ 32 - p.filesz) % 2 ^ 32 = p.memsz - p.filesz := by
  obtain ⟨hfilesz, -, -, -, hmemsz, -⟩ := hfits
  omega

theorem loadProgram_eq {fuel : ℕ} (hfuel : 2 ^ 23 < fuel)
    (hend : p.paddr + p.filesz ≤ 2 ^ 32 - 512) :
    loadProgram disk fuel mem p.filesz p.memsz p.paddr p.offset =
      some (Overlay.put mem (p.write disk)) := by
  have hhead : p.head = p.paddr / 512 * 512 := rfl
  have hsectors : p.sectors = (p.paddr + p.filesz - p.head + 511) / 512 := rfl
  have hfilesz := hfits.filesz
  have hoffset := hfits.offset
  have hwrap := hfits.noWrap
  have hcopy : copyLoop disk fuel mem p.head (p.paddr + p.filesz) (p.offset / 512 + 3) = _ :=
    copyLoop_eq disk p.sectors mem (by omega) (by omega) hend (by omega) (by omega) (by omega)
  rw [loadProgram, copyFromDisk_eq hfits, Nat.mod_eq_of_lt (by omega), hcopy, bss_count hfits]
  simp only [Option.bind_eq_bind, Option.bind_some]
  rw [zeroFill_eq _ _ (by omega), Nat.add_assoc, Nat.add_sub_cancel' hfilesz]
  refine congrArg some (funext fun addr => ?_)
  rw [Overlay.put, Phdr.write]
  split_ifs
  · rfl
  · rw [Option.getD_some, copied_eq]
  · rfl

/-- A file part that ends with the last sector is not copied at all. -/
theorem loadProgram_top {fuel : ℕ} (hfuel : 0 < fuel)
    (hend : p.paddr + p.filesz = 2 ^ 32) :
    loadProgram disk fuel mem p.filesz p.memsz p.paddr p.offset = some mem := by
  have hwrap := hfits.noWrap
  have hfilesz := hfits.filesz
  obtain ⟨fuel, rfl⟩ : ∃ less, fuel = less + 1 := ⟨fuel - 1, by omega⟩
  rw [loadProgram, copyFromDisk_eq hfits, hend, bss_count hfits, Nat.mod_self, copyLoop,
    if_neg (by omega), show p.memsz - p.filesz = 0 by omega]
  rfl

theorem loadProgram_forever (fuel : ℕ) (hlow : 2 ^ 32 - 512 < p.paddr + p.filesz)
    (hhigh : p.paddr + p.filesz < 2 ^ 32) :
    loadProgram disk fuel mem p.filesz p.memsz p.paddr p.offset = none := by
  have hhead : p.head = p.paddr / 512 * 512 := rfl
  have hpaddr := hfits.paddr
  rw [loadProgram, copyFromDisk_eq hfits, Nat.mod_eq_of_lt hhigh,
    copyLoop_forever disk fuel mem (by omega) (by omega) hlow]
  rfl

/-- What a segment is loaded as, before later ones are. -/
theorem write_own {addr : ℕ} (hlow : p.paddr ≤ addr)
    (hhigh : addr < p.paddr + p.memsz) :
    p.write disk addr = some (p.byte disk (addr - p.paddr)) := by
  have hhead : p.head = p.paddr / 512 * 512 := rfl
  have hsectors : p.sectors = (p.paddr + p.filesz - p.head + 511) / 512 := rfl
  have hcongr : p.paddr % 512 = p.offset % 512 := hfits.congr
  unfold Phdr.write Phdr.byte
  by_cases hfile : addr < p.paddr + p.filesz
  · have hpos : p.offset / 512 * 512 + (addr - p.head) = p.offset + (addr - p.paddr) := by
      omega
    rw [if_neg (by omega), if_pos (by simp only [SECTSIZE]; omega), if_pos (by omega),
      Phdr.copied]
    simp only [SECTSIZE]
    rw [hpos]
  · rw [if_pos (by omega), if_neg (by omega)]

end Program

/-- A later segment reaches below its address with its first sector only. -/
theorem write_below {p : Phdr} (disk : Disk) {addr : ℕ} (hbelow : addr < p.paddr) :
    p.write disk addr = if p.head ≤ addr then some (p.copied disk addr) else none := by
  have hhead : p.head = p.paddr / 512 * 512 := rfl
  have hsectors : p.sectors = (p.paddr + p.filesz - p.head + 511) / 512 := rfl
  unfold Phdr.write
  rw [if_neg (by omega)]
  by_cases hreach : p.head ≤ addr
  · rw [if_pos ⟨hreach, by simp only [SECTSIZE]; omega⟩, if_pos hreach]
  · rw [if_neg (by omega), if_neg hreach]

/-- The copied sectors end at the next sector boundary. -/
theorem sectors_end (p : Phdr) :
    p.head + p.sectors * SECTSIZE =
      (p.paddr + p.filesz + (SECTSIZE - 1)) / SECTSIZE * SECTSIZE := by
  simp only [Phdr.head, Phdr.sectors, SECTSIZE]
  omega

/-- `load_program` puts the file part and zeros in place and touches nothing else
but the rest of the first and of the last sector; and the arguments are read from
the two sectors in front of the image. -/
theorem load_program_exact (disk : Disk) (mem : Memory) (filesz memsz paddr offset : ℕ)
    (hfilesz : filesz ≤ memsz) (hcongr : paddr % SECTSIZE = offset % SECTSIZE)
    (hoffset : offset < 2 ^ 31) (hroom : paddr + memsz + SECTSIZE < 2 ^ 32) :
    (∃ after enough,
      (∀ fuel ≥ enough, loadProgram disk fuel mem filesz memsz paddr offset = some after) ∧
      (∀ i < filesz, after (paddr + i) = image disk (offset + i)) ∧
      (∀ i, filesz ≤ i → i < memsz → after (paddr + i) = 0) ∧
      ∀ addr,
        ¬(paddr / SECTSIZE * SECTSIZE ≤ addr ∧
          addr < (paddr + filesz + (SECTSIZE - 1)) / SECTSIZE * SECTSIZE) →
        ¬(paddr + filesz ≤ addr ∧ addr < paddr + memsz) → after addr = mem addr) ∧
    ∀ buf, buf % SECTSIZE = 0 → buf + ARGSIZE < 2 ^ 32 → ∃ enough, ∀ fuel ≥ enough,
      copyFromDisk disk fuel mem buf ARGSIZE (-ARGSIZE) = some fun addr =>
        if buf ≤ addr ∧ addr < buf + ARGSIZE then
          disk (1 + (addr - buf) / SECTSIZE) ((addr - buf) % SECTSIZE)
        else mem addr := by
  constructor
  · have hend : paddr + filesz ≤ 2 ^ 32 - 512 := by
      simp only [SECTSIZE] at hroom
      omega
    have hplaced : Phdr.Placed ⟨offset, paddr, filesz, memsz⟩ :=
      ⟨hfilesz, hcongr, hoffset, show paddr < 2 ^ 32 by omega, show memsz < 2 ^ 32 by omega,
        show paddr + memsz ≤ 2 ^ 32 by omega⟩
    have hown : ∀ i < memsz, Overlay.put mem (Phdr.write ⟨offset, paddr, filesz, memsz⟩ disk)
        (paddr + i) = Phdr.byte ⟨offset, paddr, filesz, memsz⟩ disk i := by
      intro i hi
      rw [Overlay.put, write_own hplaced disk (Nat.le_add_right paddr i)
        (Nat.add_lt_add_left hi paddr), Nat.add_sub_cancel_left, Option.getD_some]
    refine ⟨_, 2 ^ 23 + 1, fun fuel hfuel => loadProgram_eq hplaced disk mem hfuel hend, ?_, ?_,
      ?_⟩
    · intro i hi
      rw [hown i (by omega), Phdr.byte, if_pos hi]
    · intro i hlow hhigh
      rw [hown i hhigh, Phdr.byte, if_neg hlow.not_gt]
    · intro addr hsectors hbss
      rw [Overlay.put, Phdr.write, if_neg hbss, if_neg]
      · rfl
      · rw [sectors_end]
        exact hsectors
  · intro buf haligned hfits
    simp only [SECTSIZE, ARGSIZE] at haligned hfits
    refine ⟨3, fun fuel hfuel => ?_⟩
    have hcur : buf &&& (2 ^ 32 - SECTSIZE) = buf := by
      rw [show 2 ^ 32 - SECTSIZE = 2 ^ 32 - 2 ^ 9 from rfl,
        Overlay.and_mask (by omega) (show 9 ≤ 32 by omega)]
      omega
    have hed : (((buf : ℤ) + ((ARGSIZE : ℕ) : ℤ)) % 2 ^ 32).toNat = buf + 1024 := by
      simp only [ARGSIZE]
      omega
    have hsect : (((-((ARGSIZE : ℕ) : ℤ)).tdiv SECTSIZE + ARGSIZE / SECTSIZE + 1) %
        2 ^ 32).toNat = 1 := rfl
    have hcopy : copyLoop disk fuel mem buf (buf + 1024) 1 = _ :=
      copyLoop_eq disk 2 mem hfuel haligned (by omega) (by omega) (by omega) (by norm_num)
    unfold copyFromDisk
    simp only
    rw [hcur, hed, hsect, hcopy]

/-- A file part that starts and ends inside sectors, with a `bss` behind it. -/
theorem load_program_exact_sample :
    ∃ after enough,
      (∀ fuel ≥ enough,
        loadProgram (fun sect i => UInt8.ofNat (sect + i)) fuel (fun _ => 9) 600 700 0x100010
          0x1210 = some after) ∧
      after 0xfffff = 9 ∧ after 0x100010 = 28 ∧ after 0x100267 = 116 ∧ after 0x100268 = 0 ∧
      after 0x1002cb = 0 ∧ after 0x100400 = 9 := by
  obtain ⟨⟨after, enough, hload, hfile, hbss, hothers⟩, -⟩ :=
    load_program_exact (fun sect i => UInt8.ofNat (sect + i)) (fun _ => 9) 600 700 0x100010
      0x1210 (by decide) (by decide) (by decide) (by decide)
  exact ⟨after, enough, hload, hothers 0xfffff (by decide) (by decide), hfile 0 (by decide),
    hfile 599 (by decide), hbss 600 (by decide) (by decide), hbss 699 (by decide) (by decide),
    hothers 0x100400 (by decide) (by decide)⟩

/-! ## All segments -/

/-- The header buffer holds the start of the image. -/
def Headed (disk : Disk) (mem : Memory) : Prop :=
  ∀ pos < elfSize, mem (elf + pos) = image disk pos

/-- `load_kernel` reads the header before it loads the segments. -/
theorem headed_copy (disk : Disk) (mem : Memory) {fuel : ℕ} (hfuel : 8 < fuel) :
    ∃ after, copyFromDisk disk fuel mem elf elfSize 0 = some after ∧ Headed disk after := by
  have hcopy : copyLoop disk fuel mem 0x8000 0x9000 3 = _ :=
    copyLoop_eq disk 8 mem hfuel (by omega) (by omega) (by omega) (by omega) (by omega)
  refine ⟨_, hcopy, fun pos hpos => ?_⟩
  have hsect : 3 + pos / 512 = pos / 512 + 2 + 1 := by omega
  simp only [elfSize] at hpos
  simp only [elf, Nat.add_sub_cancel_left, image, SECTSIZE, ARGSIZE]
  rw [if_pos (by omega), hsect]

/-- What a call of `load_program` does when its fuel suffices: it copies for
ever into the last sector, and a part that ends with it is not copied. -/
def Phdr.step (disk : Disk) (mem : Memory) (p : Phdr) : Option Memory :=
  if p.paddr + p.filesz ≤ 2 ^ 32 - 512 then some (Overlay.put mem (p.write disk))
  else if p.paddr + p.filesz = 2 ^ 32 then some mem
  else none

theorem loadProgram_step {p : Phdr} (hfits : p.Fits) (disk : Disk) (mem : Memory) {fuel : ℕ}
    (hfuel : 2 ^ 23 < fuel) :
    loadProgram disk fuel mem p.filesz p.memsz p.paddr p.offset = p.step disk mem := by
  have hfilesz := hfits.filesz
  have hwrap := hfits.noWrap
  unfold Phdr.step
  split_ifs with hend htop
  · exact loadProgram_eq hfits.placed disk mem hfuel hend
  · exact loadProgram_top hfits.placed disk mem (by omega) htop
  · exact loadProgram_forever hfits.placed disk mem fuel (by omega) (by omega)

section Table

variable {disk : Disk} {mem : Memory} {p : Phdr}

/-- A field of the header buffer. -/
theorem Headed.field (hheaded : Headed disk mem) {pos width : ℕ}
    (hinside : pos + width ≤ elfSize) :
    field mem (elf + pos) width = field (image disk) pos width := by
  apply field_congr
  intro i hi
  rw [Nat.add_assoc]
  exact hheaded (pos + i) (by omega)

theorem write_elf (hfits : p.Fits) {pos : ℕ} (hpos : pos < elfSize) :
    p.write disk (elf + pos) = none := by
  have hhead : p.head = p.paddr / 512 * 512 := rfl
  have hsectors : p.sectors = (p.paddr + p.filesz - p.head + 511) / 512 := rfl
  have hfilesz := hfits.filesz
  have hapart := hfits.apart
  simp only [elf, elfSize] at hapart hpos
  unfold Phdr.write
  rw [if_neg (by simp only [elf]; omega), if_neg (by simp only [elf, SECTSIZE]; omega)]

theorem Headed.step (hheaded : Headed disk mem) (hfits : p.Fits) {after : Memory}
    (hstep : p.step disk mem = some after) : Headed disk after := by
  unfold Phdr.step at hstep
  split_ifs at hstep
  · cases hstep
    intro pos hpos
    rw [Overlay.put, write_elf hfits hpos]
    exact hheaded pos hpos
  · cases hstep
    exact hheaded

end Table

/-- The images that a loader may be given. -/
structure Loadable (layout : Layout) (disk : Disk) : Prop where
  inBuffer : layout.phoff (image disk) 0 +
    layout.phnum (image disk) 0 * layout.phdrSize ≤ elfSize
  fits : ∀ p ∈ table layout disk, p.Fits
  ascending : (table layout disk).Pairwise fun p q => p.paddr + p.memsz ≤ q.paddr

section Loop

variable {layout : Layout} {disk : Disk} {mem : Memory}

theorem Headed.phnum (hheaded : Headed disk mem) :
    layout.phnum mem elf = layout.phnum (image disk) 0 := by
  have hinside := layout.inHeader.2
  rw [Layout.phnum, Layout.phnum, Nat.zero_add]
  exact hheaded.field (by simp only [elfSize]; omega)

theorem Headed.phoff (hheaded : Headed disk mem) :
    layout.phoff mem elf = layout.phoff (image disk) 0 := by
  have hinside := layout.inHeader.1
  rw [Layout.phoff, Layout.phoff, Nat.zero_add]
  exact hheaded.field (by simp only [elfSize]; omega)

theorem Headed.phdr (hheaded : Headed disk mem) {pos : ℕ}
    (hinside : pos + layout.phdrSize ≤ elfSize) :
    layout.phdr mem (elf + pos) = layout.phdr (image disk) pos := by
  obtain ⟨hoffset, hpaddr, hfilesz, hmemsz⟩ := layout.inEntry
  simp only [Layout.phdr, Nat.add_assoc, Phdr.mk.injEq]
  exact ⟨hheaded.field (by omega), hheaded.field (by omega), hheaded.field (by omega),
    hheaded.field (by omega)⟩

theorem mem_table {i : ℕ} (hi : i < layout.phnum (image disk) 0) :
    entry layout disk i ∈ table layout disk :=
  List.mem_map_of_mem (List.mem_range.mpr hi)

/-- The loop from the `i`-th header on. -/
theorem loadLoop_eq (hload : Loadable layout disk) {fuel : ℕ} (hfuel : 2 ^ 23 < fuel)
    (count : ℕ) {i rounds : ℕ} (hcount : i + count = layout.phnum (image disk) 0)
    (hrounds : count < rounds) (hheaded : Headed disk mem) :
    loadLoop disk layout fuel rounds i
        (elf + (layout.phoff (image disk) 0 + i * layout.phdrSize)) mem =
      ((List.range' i count).map (entry layout disk)).foldlM (Phdr.step disk) mem := by
  induction count generalizing i rounds mem with
  | zero =>
      obtain ⟨rounds, rfl⟩ : ∃ less, rounds = less + 1 := ⟨rounds - 1, by omega⟩
      rw [loadLoop, hheaded.phnum, if_neg (by omega)]
      rfl
  | succ count ih =>
      obtain ⟨rounds, rfl⟩ : ∃ less, rounds = less + 1 := ⟨rounds - 1, by omega⟩
      have hfits := hload.fits _ (mem_table (show i < _ by omega))
      have hbuffer := hload.inBuffer
      have hmul : (i + 1) * layout.phdrSize ≤
          layout.phnum (image disk) 0 * layout.phdrSize := Nat.mul_le_mul_right _ (by omega)
      rw [Nat.add_mul, Nat.one_mul] at hmul
      have hph : (elf + (layout.phoff (image disk) 0 + i * layout.phdrSize) +
          layout.phdrSize) % 2 ^ 32 =
            elf + (layout.phoff (image disk) 0 + (i + 1) * layout.phdrSize) := by
        rw [Nat.add_mul, Nat.one_mul, Nat.mod_eq_of_lt (by simp only [elf, elfSize] at *; omega)]
        omega
      obtain ⟨hfilesz, hmemsz, hpaddr, hoffset⟩ := hfits.small
      rw [loadLoop, hheaded.phnum, if_pos (by omega), hheaded.phdr (by omega), hph]
      change (loadProgram disk fuel mem ((entry layout disk i).filesz % 2 ^ 32)
        ((entry layout disk i).memsz % 2 ^ 32) ((entry layout disk i).paddr % 2 ^ 32)
        ((entry layout disk i).offset % 2 ^ 32)).bind _ = _
      rw [hfilesz, hmemsz, hpaddr, hoffset, loadProgram_step hfits disk mem hfuel,
        List.range'_succ, List.map_cons, List.foldlM_cons]
      cases hstep : (entry layout disk i).step disk mem with
      | none => rfl
      | some after =>
          exact ih (by omega) (by omega) (hheaded.step hfits hstep)

/-- With enough fuel the loader takes the headers one after the other. -/
theorem loadElf_eq (hload : Loadable layout disk) (hheaded : Headed disk mem) {fuel : ℕ}
    (hfuel : 2 ^ 23 < fuel) (hrounds : layout.phnum (image disk) 0 < fuel) :
    loadElf layout disk fuel mem = (table layout disk).foldlM (Phdr.step disk) mem := by
  have hbuffer := hload.inBuffer
  have hph : (elf + layout.phoff mem elf) % 2 ^ 32 =
      elf + (layout.phoff (image disk) 0 + 0 * layout.phdrSize) := by
    rw [hheaded.phoff, Nat.zero_mul, Nat.add_zero]
    exact Nat.mod_eq_of_lt (by simp only [elf, elfSize] at *; omega)
  rw [loadElf, hph, loadLoop_eq hload hfuel _ (Nat.zero_add _) hrounds hheaded, table,
    List.range_eq_range']

end Loop

/-! ## Intact segments -/

/-- The loader ends, whatever was in memory, and leaves every segment as it
should be. -/
def LoadsIntact (layout : Layout) (disk : Disk) : Prop :=
  ∀ mem, Headed disk mem → ∃ enough, ∀ fuel ≥ enough, ∃ final,
    loadElf layout disk fuel mem = some final ∧
    ∀ p ∈ table layout disk, ∀ i < p.memsz, final (p.paddr + i) = p.byte disk i

/-- When the loader does so: no file part ends in the last sector of memory, and
where the first sector of later segments holds bytes of a segment, the image
has these bytes in front of the last such segment. -/
structure Undisturbed (layout : Layout) (disk : Disk) : Prop where
  ends : ∀ p ∈ table layout disk, p.paddr + p.filesz ≤ 2 ^ 32 - 512
  heads : ∀ before p after, table layout disk = before ++ p :: after → ∀ i < p.memsz,
    ∀ q ∈ (after.filter fun q => q.head ≤ p.paddr + i).getLast?,
      q.copied disk (p.paddr + i) = p.byte disk i

section Intact

variable {disk : Disk} {p : Phdr}

theorem foldlM_step_of_ends {ps : List Phdr} {mem : Memory}
    (hends : ∀ p ∈ ps, p.paddr + p.filesz ≤ 2 ^ 32 - 512) :
    ps.foldlM (Phdr.step disk) mem =
      some (Overlay.putAll (ps.map (Phdr.write · disk)) mem) := by
  induction ps generalizing mem with
  | nil => rfl
  | cons p ps ih =>
      rw [List.foldlM_cons, Phdr.step, if_pos (hends p List.mem_cons_self)]
      exact ih fun other hother => hends other (List.mem_cons_of_mem _ hother)

theorem ends_or_top {ps : List Phdr} {mem final : Memory}
    (hrun : ps.foldlM (Phdr.step disk) mem = some final) :
    ∀ p ∈ ps, p.paddr + p.filesz ≤ 2 ^ 32 - 512 ∨ p.paddr + p.filesz = 2 ^ 32 := by
  refine Overlay.foldlM_forall (fun p _ before after hstep => ?_) hrun
  unfold Phdr.step at hstep
  split_ifs at hstep with hend htop
  · exact .inl hend
  · exact .inr htop

/-- The last byte of memory is not written by segments below it. -/
theorem foldlM_step_top {ps : List Phdr} {mem final : Memory}
    (hrun : ps.foldlM (Phdr.step disk) mem = some final)
    (hbelow : ∀ p ∈ ps, p.filesz ≤ p.memsz ∧ p.paddr + p.memsz < 2 ^ 32) :
    final (2 ^ 32 - 1) = mem (2 ^ 32 - 1) := by
  refine Overlay.foldlM_invariant (P := fun now => now (2 ^ 32 - 1) = mem (2 ^ 32 - 1))
    (fun p hp before after hstep hbefore => ?_) hrun rfl
  obtain ⟨hfilesz, hlow⟩ := hbelow p hp
  unfold Phdr.step at hstep
  split_ifs at hstep with hend htop
  · cases hstep
    have hhead : p.head = p.paddr / 512 * 512 := rfl
    have hsectors : p.sectors = (p.paddr + p.filesz - p.head + 511) / 512 := rfl
    rw [Overlay.put, Phdr.write, if_neg (by omega), if_neg (by simp only [SECTSIZE]; omega)]
    exact hbefore
  · omega

/-- The last byte of memory may be any. -/
theorem exists_headed (disk : Disk) (byte : Byte) :
    ∃ mem, Headed disk mem ∧ mem (2 ^ 32 - 1) = byte := by
  refine ⟨fun addr => if elf ≤ addr ∧ addr < elf + elfSize then image disk (addr - elf) else byte,
    ?_, ?_⟩
  · intro pos hpos
    simp only
    rw [if_pos (by omega), Nat.add_sub_cancel_left]
  · simp only [elf, elfSize]
    rw [if_neg (by omega)]

section Disturbed

variable {layout : Layout} (hload : Loadable layout disk)

include hload

/-- Segments that are all copied are intact exactly when the heads agree. -/
theorem intact_iff_heads (mem : Memory) :
    (∀ p ∈ table layout disk, ∀ i < p.memsz,
      Overlay.putAll ((table layout disk).map (Phdr.write · disk)) mem (p.paddr + i) =
        p.byte disk i) ↔
    ∀ before p after, table layout disk = before ++ p :: after → ∀ i < p.memsz,
      ∀ q ∈ (after.filter fun q => q.head ≤ p.paddr + i).getLast?,
        q.copied disk (p.paddr + i) = p.byte disk i := by
  apply Overlay.survives_iff_reached (table layout disk) Phdr.memsz (fun p i => p.paddr + i)
  · intro p hp i hi
    have hown : p.write disk (p.paddr + i) = _ :=
      write_own (hload.fits p hp).placed disk (Nat.le_add_right p.paddr i)
        (Nat.add_lt_add_left hi _)
    rwa [Nat.add_sub_cancel_left] at hown
  · intro before p after htable i hi q hq
    apply write_below
    have hpairs := hload.ascending
    rw [htable, List.pairwise_append, List.pairwise_cons] at hpairs
    have hafter := hpairs.2.1.1 q hq
    omega

/-- A part that ends with the last byte of memory is the last one, and that byte
stays what it was. -/
theorem top_untouched {mem final : Memory} {p : Phdr} (hp : p ∈ table layout disk)
    (htop : p.paddr + p.filesz = 2 ^ 32)
    (hrun : (table layout disk).foldlM (Phdr.step disk) mem = some final) :
    final (2 ^ 32 - 1) = mem (2 ^ 32 - 1) := by
  obtain ⟨before, after, htable⟩ := List.append_of_mem hp
  have hfits := hload.fits
  have hpairs := hload.ascending
  rw [htable] at hfits hpairs hrun
  rw [List.pairwise_append, List.pairwise_cons] at hpairs
  obtain ⟨-, ⟨hafter, -⟩, hbefore⟩ := hpairs
  have hown := hfits p (by simp)
  have hnone : after = [] := by
    apply List.eq_nil_iff_forall_not_mem.mpr
    intro q hq
    have hpaddr := (hfits q (by simp [hq])).paddr
    have hnext := hafter q hq
    have hfilesz := hown.filesz
    omega
  rw [hnone, List.foldlM_append] at hrun
  obtain ⟨middle, hfirst, hlast⟩ := Option.bind_eq_some_iff.mp hrun
  rw [List.foldlM_cons, Phdr.step, if_neg (by omega), if_pos htop] at hlast
  cases hlast
  apply foldlM_step_top hfirst
  intro q hq
  have hless := hbefore q hq p List.mem_cons_self
  have hpaddr := hown.paddr
  exact ⟨(hfits q (by simp [hq])).filesz, by omega⟩

theorem undisturbed_of_intact (hintact : LoadsIntact layout disk) :
    Undisturbed layout disk := by
  have hrun : ∀ mem, Headed disk mem → ∃ final,
      (table layout disk).foldlM (Phdr.step disk) mem = some final ∧
      ∀ p ∈ table layout disk, ∀ i < p.memsz, final (p.paddr + i) = p.byte disk i := by
    intro mem hheaded
    obtain ⟨enough, hfuel⟩ := hintact mem hheaded
    obtain ⟨final, hload', hbytes⟩ :=
      hfuel (enough + 2 ^ 24 + layout.phnum (image disk) 0) (by omega)
    rw [loadElf_eq hload hheaded (by omega) (by omega)] at hload'
    exact ⟨final, hload', hbytes⟩
  have hends : ∀ p ∈ table layout disk, p.paddr + p.filesz ≤ 2 ^ 32 - 512 := by
    intro p hp
    obtain ⟨mem, hheaded, hbyte⟩ := exists_headed disk (p.byte disk (p.filesz - 1) + 1)
    obtain ⟨final, hfold, hbytes⟩ := hrun mem hheaded
    refine (ends_or_top hfold p hp).resolve_right fun htop => ?_
    have hfits := hload.fits p hp
    have hpaddr := hfits.paddr
    have hfilesz := hfits.filesz
    have hlast := hbytes p hp (p.filesz - 1) (by omega)
    rw [show p.paddr + (p.filesz - 1) = 2 ^ 32 - 1 by omega,
      top_untouched hload hp htop hfold, hbyte] at hlast
    simp at hlast
  obtain ⟨mem, hheaded, -⟩ := exists_headed disk 0
  obtain ⟨final, hfold, hbytes⟩ := hrun mem hheaded
  rw [foldlM_step_of_ends hends] at hfold
  cases hfold
  exact ⟨hends, (intact_iff_heads hload mem).mp hbytes⟩

theorem intact_of_undisturbed (hundisturbed : Undisturbed layout disk) :
    LoadsIntact layout disk := by
  intro mem hheaded
  refine ⟨2 ^ 24 + layout.phnum (image disk) 0, fun fuel hfuel => ?_⟩
  refine ⟨_, ?_, (intact_iff_heads hload mem).mpr hundisturbed.heads⟩
  rw [loadElf_eq hload hheaded (by omega) (by omega), foldlM_step_of_ends hundisturbed.ends]

end Disturbed

end Intact

/-- Of a loadable image the loader leaves every segment intact if and only if
nothing disturbs them. -/
theorem loads_intact_iff (layout : Layout) (disk : Disk) (hload : Loadable layout disk) :
    LoadsIntact layout disk ↔ Undisturbed layout disk :=
  ⟨undisturbed_of_intact hload, intact_of_undisturbed hload⟩

/-! ## Two segments in one sector -/

/-- An entry of the table, 16 bytes long in the file and in memory. -/
def sampleEntry (offset paddr : ℕ) : List Byte :=
  [1, offset, paddr, paddr, 16, 16, 7, 1].flatMap (leBytes 4)

/-- An ELF header and two entries, with the second file part at `second`. -/
def sampleHeader (second : ℕ) : List Byte :=
  [0x7f, 0x45, 0x4c, 0x46, 1, 1, 1] ++ List.replicate 9 0 ++
    leBytes 2 2 ++ leBytes 2 3 ++ leBytes 4 1 ++ leBytes 4 0x100000 ++ leBytes 4 52 ++
    leBytes 4 0 ++ leBytes 4 0 ++ leBytes 2 52 ++ leBytes 2 32 ++ leBytes 2 2 ++
    List.replicate 6 0 ++ sampleEntry 0x1000 0x100000 ++ sampleEntry second 0x100010

/-- A disk with the header, 16 bytes of the first segment and nothing but `2`. -/
def sampleDisk (second : ℕ) : Disk := fun sect i =>
  (sampleHeader second).getD ((sect - 3) * 512 + i)
    (if (sect - 3) * 512 + i ∈ Finset.Ico 0x1000 0x1010 then 1 else 2)

theorem table_apart :
    table elf32 (sampleDisk 0x1210) =
      [⟨0x1000, 0x100000, 16, 16⟩, ⟨0x1210, 0x100010, 16, 16⟩] := rfl

theorem table_together :
    table elf32 (sampleDisk 0x1010) =
      [⟨0x1000, 0x100000, 16, 16⟩, ⟨0x1010, 0x100010, 16, 16⟩] := rfl

theorem loadable_sample {second : ℕ} (hcongr : second % 512 = 16) (hsmall : second < 2 ^ 31)
    (htable : table elf32 (sampleDisk second) =
      [⟨0x1000, 0x100000, 16, 16⟩, ⟨second, 0x100010, 16, 16⟩])
    (hbuffer : elf32.phoff (image (sampleDisk second)) 0 +
      elf32.phnum (image (sampleDisk second)) 0 * elf32.phdrSize ≤ elfSize) :
    Loadable elf32 (sampleDisk second) where
  inBuffer := hbuffer
  fits := by
    rw [htable]
    intro p hp
    rcases List.mem_pair.mp hp with rfl | rfl
    · exact ⟨by decide, by decide, by decide, by decide, by decide, by decide⟩
    · exact ⟨le_rfl, (by decide : 0x100010 % SECTSIZE = 16).trans hcongr.symm, hsmall,
        by norm_num, by norm_num, .inr (by norm_num)⟩
  ascending := by
    rw [htable]
    simp

/-- The second segment starts in the sector of the first one, and the sector of
its file part holds other bytes in front of it. -/
theorem apart_not_intact :
    Loadable elf32 (sampleDisk 0x1210) ∧ ¬LoadsIntact elf32 (sampleDisk 0x1210) := by
  have hload : Loadable elf32 (sampleDisk 0x1210) :=
    loadable_sample (by decide) (by decide) table_apart (by decide)
  refine ⟨hload, fun hintact => ?_⟩
  have hheads := (undisturbed_of_intact hload hintact).heads [] _ _ table_apart 0
    (by decide) ⟨0x1210, 0x100010, 16, 16⟩ rfl
  exact absurd hheads (by decide)

/-- The same segments from one sector of the file. -/
theorem loads_intact_iff_together :
    Loadable elf32 (sampleDisk 0x1010) ∧ LoadsIntact elf32 (sampleDisk 0x1010) := by
  have hload : Loadable elf32 (sampleDisk 0x1010) :=
    loadable_sample (by decide) (by decide) table_together (by decide)
  refine ⟨hload, (loads_intact_iff elf32 _ hload).mpr ⟨?_, ?_⟩⟩
  · rw [table_together]
    decide
  · rw [table_together]
    intro before p after hsplit
    rcases before with - | ⟨first, - | ⟨second, before⟩⟩
    · obtain ⟨rfl, rfl⟩ := List.cons.inj hsplit
      decide
    · obtain ⟨rfl, rfl⟩ := List.cons.inj (List.cons.inj hsplit).2
      intro i _ q hq
      cases hq
    · simp at hsplit

end JyyOS.Bootmain
