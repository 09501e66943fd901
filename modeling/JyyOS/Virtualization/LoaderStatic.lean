import JyyOS.Core.ByteImage
import JyyOS.Core.Overlay

/-!
# The user-space loader (`loader-static.c`)

The loop of `execve_` that maps the segments of an executable, up to the jump.
The pages of the loader itself, the mapped header among them, are outside of
the memory that is modelled, and a read behind the header page is a fault.
-/

namespace JyyOS.LoaderStatic

open JyyOS.ByteImage

abbrev pageSize := 4096

/-! ## The kernel and the C library -/

/-- The memory of the process: the byte at an address, `none` where a touch
faults, and the protection of its page. -/
structure Memory where
  bytes : ℕ → Option Byte
  prot : ℕ → ℕ

abbrev PROT_READ := 1
abbrev PROT_WRITE := 2
abbrev PROT_EXEC := 4

/-- A byte of the file's pages: zeros fill the last one, and the pages behind it
fault. -/
def filePage (file : List Byte) (pos : ℕ) : Option Byte :=
  if pos / pageSize * pageSize < file.length then some (file.getD pos 0) else none

/-- `mmap` of a file with `MAP_PRIVATE | MAP_FIXED`, `none` for `MAP_FAILED`: a
length of zero, an address or offset inside a page, or a range behind the end
of the address space. -/
def mmap (space : ℕ) (file : List Byte) (mem : Memory) (addr length prot offset : ℕ) :
    Option Memory :=
  if length = 0 ∨ addr % pageSize ≠ 0 ∨ offset % pageSize ≠ 0 ∨ space < addr + length then none
  else
    let covered pos :=
      addr ≤ pos ∧ pos < (addr + length + (pageSize - 1)) / pageSize * pageSize
    some
      { bytes := fun pos =>
          if covered pos then filePage file (offset + (pos - addr)) else mem.bytes pos
        prot := fun pos => if covered pos then prot else mem.prot pos }

/-- A store of one byte, `none` when it faults. -/
def Memory.store (mem : Memory) (addr : ℕ) (byte : Byte) : Option Memory :=
  if (mem.bytes addr).isSome ∧ mem.prot addr &&& PROT_WRITE ≠ 0 then
    some { mem with bytes := Function.update mem.bytes addr (some byte) }
  else none

/-- `memset(addr, 0, count)` -/
def memset : ℕ → Memory → ℕ → Option Memory
  | 0, mem, _ => some mem
  | count + 1, mem, addr => do
      let mem ← mem.store addr 0
      memset count mem ((addr + 1) % 2 ^ 64)

/-! ## The code -/

/-- `align - 1` -/
def lowBits (align : ℕ) : ℕ := (align + 2 ^ 64 - 1) % 2 ^ 64

/-- The macro `ROUND`. -/
def round (x align : ℕ) : ℕ := x &&& (2 ^ 64 - 1 - lowBits align)

/-- The macro `MOD`. -/
def mod (x align : ℕ) : ℕ := x &&& lowBits align

structure Phdr where
  type : ℕ
  flags : ℕ
  offset : ℕ
  vaddr : ℕ
  filesz : ℕ
  memsz : ℕ
  align : ℕ
deriving DecidableEq

abbrev PT_LOAD := 1
abbrev PF_X := 1
abbrev PF_W := 2
abbrev PF_R := 4
abbrev ET_EXEC := 2
abbrev EM_X86_64 := 62
abbrev phdrSize := 56

/-- A field of the mapped header. -/
def header (file : List Byte) (pos width : ℕ) : Option ℕ :=
  if pos + width ≤ pageSize then some (field (file.getD · 0) pos width) else none

/-- The fields of `*p` that are read of a segment. -/
def phdr (file : List Byte) (p : ℕ) : Option Phdr := do
  let type ← header file p 4
  let flags ← header file (p + 4) 4
  let offset ← header file (p + 8) 8
  let vaddr ← header file (p + 16) 8
  let filesz ← header file (p + 32) 8
  let memsz ← header file (p + 40) 8
  let align ← header file (p + 48) 8
  some ⟨type, flags, offset, vaddr, filesz, memsz, align⟩

def protOf (flags : ℕ) : ℕ :=
  (if flags &&& PF_R ≠ 0 then PROT_READ else 0) |||
    (if flags &&& PF_W ≠ 0 then PROT_WRITE else 0) |||
    (if flags &&& PF_X ≠ 0 then PROT_EXEC else 0)

/-- The body of the `if`. -/
def mapSegment (space : ℕ) (file : List Byte) (mem : Memory) (p : Phdr) : Option Memory := do
  let mem ← mmap space file mem (round p.vaddr p.align)
    ((p.memsz + mod p.vaddr p.align) % 2 ^ 64) (protOf p.flags) (round p.offset p.align)
  memset ((p.memsz + 2 ^ 64 - p.filesz) % 2 ^ 64) mem ((p.vaddr + p.filesz) % 2 ^ 64)

/-- The loop from the `i`-th entry on. -/
def mapLoop (space : ℕ) (file : List Byte) (pht : ℕ) : ℕ → ℕ → Memory → Option Memory
  | 0, _, mem => some mem
  | count + 1, i, mem => do
      let type ← header file (pht + i * phdrSize) 4
      if type = PT_LOAD then
        let p ← phdr file (pht + i * phdrSize)
        let mem ← mapSegment space file mem p
        mapLoop space file pht count (i + 1) mem
      else mapLoop space file pht count (i + 1) mem

/-- `execve_` up to the end of the loop, `none` for a fault or a failed
assertion. -/
def execve (space : ℕ) (file : List Byte) (mem : Memory) : Option Memory := do
  let type ← header file 16 2
  let machine ← header file 18 2
  if type = ET_EXEC ∧ machine = EM_X86_64 then
    let pht ← header file 32 8
    let phnum ← header file 56 2
    mapLoop space file pht phnum 0 mem
  else none

/-! ## Segments -/

def phoff (file : List Byte) : ℕ := field (file.getD · 0) 32 8

def phnum (file : List Byte) : ℕ := field (file.getD · 0) 56 2

def entry (file : List Byte) (i : ℕ) : Phdr :=
  let value := field (file.getD · 0)
  let p := phoff file + i * phdrSize
  ⟨value p 4, value (p + 4) 4, value (p + 8) 8, value (p + 16) 8, value (p + 32) 8,
    value (p + 40) 8, value (p + 48) 8⟩

/-- The `PT_LOAD` entries of the file's table. -/
def segments (file : List Byte) : List Phdr :=
  ((List.range (phnum file)).map (entry file)).filter (·.type = PT_LOAD)

namespace Phdr

variable (p : Phdr)

/-- What a segment should be in memory: its file part, then zeros. -/
def byte (file : List Byte) (i : ℕ) : Byte :=
  if i < p.filesz then file.getD (p.offset + i) 0 else 0

/-- The rounded address, where the mapping begins. -/
def head : ℕ := p.vaddr / p.align * p.align

/-- What the mapping puts at an address. -/
def mapped (file : List Byte) (addr : ℕ) : Option Byte :=
  filePage file (p.offset / p.align * p.align + (addr - p.head))

/-- The segments that a loader may be given. -/
structure Fits (file : List Byte) : Prop where
  filesz : p.filesz ≤ p.memsz
  power : ∃ k, p.align = 2 ^ k
  pages : pageSize ∣ p.align
  congr : p.vaddr % p.align = p.offset % p.align
  inFile : p.offset + p.filesz ≤ file.length
  writable : p.filesz < p.memsz → p.flags &&& PF_W ≠ 0

/-- Everything that mapping the segment leaves in memory. -/
def write (file : List Byte) : Overlay.Write ℕ (Option Byte) := fun addr =>
  if p.vaddr + p.filesz ≤ addr ∧ addr < p.vaddr + p.memsz then some (some 0)
  else if p.head ≤ addr ∧
      addr < (p.vaddr + p.memsz + (pageSize - 1)) / pageSize * pageSize then
    some (p.mapped file addr)
  else none

end Phdr

/-- The fields of a table entry are 64 bits wide at most. -/
structure Phdr.Bounded (p : Phdr) : Prop where
  offset : p.offset < 2 ^ 64
  vaddr : p.vaddr < 2 ^ 64
  memsz : p.memsz < 2 ^ 64
  align : p.align < 2 ^ 64

theorem bounded_entry (file : List Byte) (i : ℕ) : (entry file i).Bounded := by
  have hlt : ∀ pos, field (file.getD · 0) pos 8 < 2 ^ 64 :=
    fun pos => (field_lt _ pos 8).trans_eq (by norm_num)
  exact ⟨hlt _, hlt _, hlt _, hlt _⟩

/-! ## Rounding -/

section Rounding

variable {x align : ℕ}

theorem lowBits_eq (hpower : ∃ k, align = 2 ^ k) (hsmall : align < 2 ^ 64) :
    lowBits align = align - 1 := by
  obtain ⟨k, rfl⟩ := hpower
  have hpositive : 0 < 2 ^ k := Nat.two_pow_pos k
  rw [lowBits]
  omega

theorem round_eq (hx : x < 2 ^ 64) (hpower : ∃ k, align = 2 ^ k) (hsmall : align < 2 ^ 64) :
    round x align = x / align * align := by
  have hmask := lowBits_eq hpower hsmall
  obtain ⟨k, rfl⟩ := hpower
  have hpositive : 0 < 2 ^ k := Nat.two_pow_pos k
  have hk : k ≤ 64 := ((Nat.pow_lt_pow_iff_right (by omega)).mp hsmall).le
  rw [round, hmask, show 2 ^ 64 - 1 - (2 ^ k - 1) = 2 ^ 64 - 2 ^ k by omega]
  exact Overlay.and_mask hx hk

theorem mod_eq (hpower : ∃ k, align = 2 ^ k) (hsmall : align < 2 ^ 64) :
    mod x align = x % align := by
  rw [mod, lowBits_eq hpower hsmall]
  obtain ⟨k, rfl⟩ := hpower
  exact Nat.and_two_pow_sub_one_eq_mod x k

end Rounding

/-! ## Filling -/

section Memset

variable {mem : Memory} {addr : ℕ}

theorem memset_eq (count : ℕ) (hfits : addr + count < 2 ^ 64)
    (hpresent : ∀ i < count, (mem.bytes (addr + i)).isSome ∧
      mem.prot (addr + i) &&& PROT_WRITE ≠ 0) :
    memset count mem addr = some { mem with
      bytes := fun pos => if addr ≤ pos ∧ pos < addr + count then some 0 else mem.bytes pos } := by
  induction count generalizing mem addr with
  | zero =>
      have hsame : mem.bytes = fun pos =>
          if addr ≤ pos ∧ pos < addr + 0 then some 0 else mem.bytes pos :=
        funext fun pos => (if_neg (by omega)).symm
      rw [memset, ← hsame]
  | succ count ih =>
      have hstore : mem.store addr 0 =
          some { mem with bytes := Function.update mem.bytes addr (some 0) } :=
        if_pos (hpresent 0 (by omega))
      rw [memset, hstore, Option.bind_eq_bind, Option.bind_some, Nat.mod_eq_of_lt (by omega),
        ih (by omega)]
      · congr 2
        funext pos
        simp only
        by_cases hpos : pos = addr
        · subst hpos
          rw [if_neg (by omega), Function.update_self, if_pos (by omega)]
        · rw [Function.update_of_ne hpos]
          by_cases hinside : addr ≤ pos ∧ pos < addr + (count + 1)
          · rw [if_pos (by omega), if_pos hinside]
          · rw [if_neg (by omega), if_neg hinside]
      · intro i hi
        have hnext := hpresent (i + 1) (by omega)
        rw [← Nat.add_assoc, Nat.add_right_comm] at hnext
        simp only
        rwa [Function.update_of_ne (by omega)]

theorem memset_fault (count : ℕ) (hfits : addr + count < 2 ^ 64) {i : ℕ} (hi : i < count)
    (habsent : mem.bytes (addr + i) = none) : memset count mem addr = none := by
  induction count generalizing mem addr i with
  | zero => omega
  | succ count ih =>
      rw [memset, Option.bind_eq_bind]
      unfold Memory.store
      split_ifs with hpresent
      · cases i with
        | zero =>
            rw [Nat.add_zero] at habsent
            rw [habsent] at hpresent
            simp at hpresent
        | succ i =>
            rw [Option.bind_some, Nat.mod_eq_of_lt (by omega)]
            refine ih (by omega) (show i < count by omega) ?_
            simp only
            rw [Function.update_of_ne (by omega), ← habsent]
            congr 1
            omega
      · rfl

end Memset

/-! ## One segment -/

/-- The `mmap` of the segment succeeds. -/
def Phdr.Accepted (space : ℕ) (p : Phdr) : Prop :=
  (0 < p.memsz ∨ p.vaddr % p.align ≠ 0) ∧ p.vaddr + p.memsz ≤ space

/-- The file has a page for every byte of the `bss`. -/
def Phdr.Backed (file : List Byte) (p : Phdr) : Prop :=
  p.filesz < p.memsz → (p.offset + p.memsz - 1) / pageSize * pageSize < file.length

/-- The pages in front of a page of the file are there as well. -/
theorem filePage_eq {file : List Byte} {pos last : ℕ} (hle : pos ≤ last)
    (hlast : last / pageSize * pageSize < file.length) :
    filePage file pos = some (file.getD pos 0) :=
  if_pos ((Nat.mul_le_mul_right _ (Nat.div_le_div_right hle)).trans_lt hlast)

theorem protOf_write {flags : ℕ} (hwritable : flags &&& PF_W ≠ 0) :
    protOf flags &&& PROT_WRITE ≠ 0 := by
  unfold protOf
  rw [if_pos hwritable]
  split_ifs <;> decide

section Segment

variable {space : ℕ} {file : List Byte} {p : Phdr} (hfits : p.Fits file)

include hfits

theorem head_add : p.head + p.vaddr % p.align = p.vaddr ∧
    p.offset / p.align * p.align + p.vaddr % p.align = p.offset := by
  refine ⟨Nat.div_add_mod' _ _, ?_⟩
  rw [hfits.congr]
  exact Nat.div_add_mod' _ _

/-- Inside the segment a file position and its address keep their distance. -/
theorem mapped_eq {addr : ℕ} (hhead : p.vaddr ≤ addr) :
    p.mapped file addr = filePage file (p.offset + (addr - p.vaddr)) := by
  obtain ⟨hvaddr, hoffset⟩ := head_add hfits
  have hpos : p.offset / p.align * p.align + (addr - p.head) =
      p.offset + (addr - p.vaddr) := by omega
  rw [Phdr.mapped, hpos]

section Bounded

variable (hbounded : p.Bounded)

include hbounded

theorem mmap_call (mem : Memory) :
    mmap space file mem (round p.vaddr p.align) ((p.memsz + mod p.vaddr p.align) % 2 ^ 64)
        (protOf p.flags) (round p.offset p.align) =
      mmap space file mem p.head ((p.memsz + p.vaddr % p.align) % 2 ^ 64)
        (protOf p.flags) (p.offset / p.align * p.align) := by
  rw [round_eq hbounded.vaddr hfits.power hbounded.align,
    round_eq hbounded.offset hfits.power hbounded.align, mod_eq hfits.power hbounded.align]
  rfl

/-- `memset` fills up to the end of the segment. -/
theorem bss_count : (p.memsz + 2 ^ 64 - p.filesz) % 2 ^ 64 = p.memsz - p.filesz := by
  have hfilesz := hfits.filesz
  have hmemsz := hbounded.memsz
  omega

end Bounded

theorem mmap_accepted (hspace : space < 2 ^ 64) (mem : Memory) (haccepted : p.Accepted space) :
    mmap space file mem p.head ((p.memsz + p.vaddr % p.align) % 2 ^ 64) (protOf p.flags)
        (p.offset / p.align * p.align) =
      let covered pos :=
        p.head ≤ pos ∧ pos < (p.vaddr + p.memsz + (pageSize - 1)) / pageSize * pageSize
      some
        { bytes := fun pos => if covered pos then p.mapped file pos else mem.bytes pos
          prot := fun pos => if covered pos then protOf p.flags else mem.prot pos } := by
  obtain ⟨hlength, hroom⟩ := haccepted
  obtain ⟨hvaddr, -⟩ := head_add hfits
  have hpage : ∀ x, x / p.align * p.align % pageSize = 0 := fun x =>
    Nat.mod_eq_zero_of_dvd (hfits.pages.trans (Nat.dvd_mul_left _ _))
  have hend : p.head + (p.memsz + p.vaddr % p.align) = p.vaddr + p.memsz := by omega
  rw [Nat.mod_eq_of_lt (by omega), mmap, if_neg, hend]
  · rfl
  · rw [not_or, not_or, not_or, hend]
    exact ⟨by omega, not_not.mpr (hpage _), not_not.mpr (hpage _), by omega⟩

theorem mmap_refused (hspace : space < 2 ^ 64) (mem : Memory)
    (hwrap : p.vaddr + p.memsz ≤ 2 ^ 64) (hrefused : ¬p.Accepted space) :
    mmap space file mem p.head ((p.memsz + p.vaddr % p.align) % 2 ^ 64) (protOf p.flags)
      (p.offset / p.align * p.align) = none := by
  obtain ⟨hvaddr, -⟩ := head_add hfits
  rw [mmap, if_pos]
  by_cases hlength : (p.memsz + p.vaddr % p.align) % 2 ^ 64 = 0
  · exact .inl hlength
  · refine .inr (.inr (.inr ?_))
    have hroom : ¬p.vaddr + p.memsz ≤ space := fun hroom => hrefused ⟨by omega, hroom⟩
    omega

/-- The pages of the mapping hold the whole segment. -/
theorem covered_segment {addr : ℕ} (hlow : p.vaddr ≤ addr) (hhigh : addr < p.vaddr + p.memsz) :
    p.head ≤ addr ∧ addr < (p.vaddr + p.memsz + (pageSize - 1)) / pageSize * pageSize := by
  obtain ⟨hvaddr, -⟩ := head_add hfits
  simp only [pageSize]
  omega

variable (hbounded : p.Bounded) (hspace : space < 2 ^ 64) (mem : Memory)

include hbounded hspace

theorem mapSegment_eq (haccepted : p.Accepted space) (hbacked : p.Backed file) :
    ∃ prot, mapSegment space file mem p =
      some ⟨Overlay.put mem.bytes (p.write file), prot⟩ := by
  have hfilesz := hfits.filesz
  have hroom := haccepted.2
  rw [mapSegment, mmap_call hfits hbounded, mmap_accepted hfits hspace mem haccepted,
    bss_count hfits hbounded, Nat.mod_eq_of_lt (by omega), Option.bind_eq_bind,
    Option.bind_some, memset_eq _ (by omega)]
  · refine ⟨_, congrArg (fun bytes => some (Memory.mk bytes _)) (funext fun addr => ?_)⟩
    rw [Overlay.put, Phdr.write, Nat.add_assoc, Nat.add_sub_cancel' hfilesz]
    simp only
    split_ifs
    · rfl
    · rfl
    · rfl
  · intro i hi
    have hcovered := covered_segment hfits (show p.vaddr ≤ p.vaddr + p.filesz + i by omega)
      (by omega)
    have hpos : p.offset + (p.vaddr + p.filesz + i - p.vaddr) = p.offset + (p.filesz + i) := by
      omega
    have hpage := filePage_eq (show p.offset + (p.filesz + i) ≤ p.offset + p.memsz - 1 by omega)
      (hbacked (by omega))
    simp only
    rw [if_pos hcovered, if_pos hcovered, mapped_eq hfits (by omega), hpos, hpage]
    exact ⟨rfl, protOf_write (hfits.writable (by omega))⟩

theorem mapSegment_fails (hwrap : p.vaddr + p.memsz ≤ 2 ^ 64)
    (hfails : ¬(p.Accepted space ∧ p.Backed file)) : mapSegment space file mem p = none := by
  rw [mapSegment, mmap_call hfits hbounded]
  by_cases haccepted : p.Accepted space
  · have hfilesz := hfits.filesz
    have hroom := haccepted.2
    obtain ⟨hbss, hend⟩ := Classical.not_imp.mp fun hbacked => hfails ⟨haccepted, hbacked⟩
    rw [mmap_accepted hfits hspace mem haccepted, bss_count hfits hbounded,
      Nat.mod_eq_of_lt (by omega), Option.bind_eq_bind, Option.bind_some]
    -- the last byte of the segment is on a page that the file does not reach
    refine memset_fault _ (by omega) (show p.memsz - p.filesz - 1 < _ by omega) ?_
    have haddr : p.vaddr + p.filesz + (p.memsz - p.filesz - 1) = p.vaddr + p.memsz - 1 := by
      omega
    have hpos : p.offset + (p.vaddr + p.memsz - 1 - p.vaddr) = p.offset + p.memsz - 1 := by
      omega
    simp only
    rw [haddr, if_pos (covered_segment hfits (by omega) (by omega)), mapped_eq hfits (by omega),
      hpos, filePage, if_neg hend]
  · rw [mmap_refused hfits hspace mem hwrap haccepted]
    rfl

end Segment

/-! ## The loop -/

section Loop

variable {space : ℕ} {file : List Byte}

/-- What the loop reads of an entry is on the mapped page. -/
def OnPage (file : List Byte) (i : ℕ) : Prop :=
  phoff file + i * phdrSize + 4 ≤ pageSize ∧
    ((entry file i).type = PT_LOAD → phoff file + i * phdrSize + phdrSize ≤ pageSize)

theorem header_eq {pos width : ℕ} (hpage : pos + width ≤ pageSize) :
    header file pos width = some (field (file.getD · 0) pos width) :=
  if_pos hpage

theorem header_page {pos width value : ℕ} (hread : header file pos width = some value) :
    pos + width ≤ pageSize := by
  unfold header at hread
  split_ifs at hread with hpage
  exact hpage

theorem phdr_eq {i : ℕ} (hpage : phoff file + i * phdrSize + phdrSize ≤ pageSize) :
    phdr file (phoff file + i * phdrSize) = some (entry file i) := by
  have hinside : ∀ pos width, pos + width ≤ 56 →
      header file (phoff file + i * phdrSize + pos) width =
        some (field (file.getD · 0) (phoff file + i * phdrSize + pos) width) := by
    intro pos width hentry
    apply header_eq
    rw [Nat.add_assoc]
    exact (Nat.add_le_add_left hentry _).trans hpage
  have htype := hinside 0 4 (by decide)
  rw [Nat.add_zero] at htype
  rw [phdr, htype, hinside 4 4 (by decide), hinside 8 8 (by decide), hinside 16 8 (by decide),
    hinside 32 8 (by decide), hinside 40 8 (by decide), hinside 48 8 (by decide)]
  rfl

theorem phdr_page {pos : ℕ} {p : Phdr} (hread : phdr file pos = some p) :
    pos + phdrSize ≤ pageSize := by
  unfold phdr at hread
  simp only [Option.bind_eq_bind, Option.bind_eq_some_iff] at hread
  obtain ⟨-, -, -, -, -, -, -, -, -, -, -, -, align, halign, -⟩ := hread
  have hlast := header_page halign
  rwa [Nat.add_assoc] at hlast

/-- On a table inside the page the loop maps one segment after the other. -/
theorem mapLoop_eq (count : ℕ) {i : ℕ} (mem : Memory)
    (hpage : ∀ j, i ≤ j → j < i + count → OnPage file j) :
    mapLoop space file (phoff file) count i mem =
      (((List.range' i count).map (entry file)).filter (·.type = PT_LOAD)).foldlM
        (mapSegment space file) mem := by
  induction count generalizing i mem with
  | zero => rfl
  | succ count ih =>
      obtain ⟨htype, hentry⟩ := hpage i le_rfl (by omega)
      have hread : header file (phoff file + i * phdrSize) 4 = some (entry file i).type :=
        header_eq htype
      have hrest : ∀ mem, mapLoop space file (phoff file) count (i + 1) mem = _ := fun mem =>
        ih mem fun j hlow hhigh => hpage j (by omega) (by omega)
      rw [mapLoop, hread, Option.bind_eq_bind, Option.bind_some, List.range'_succ, List.map_cons]
      by_cases hload : (entry file i).type = PT_LOAD
      · rw [if_pos hload, phdr_eq (hentry hload), Option.bind_eq_bind, Option.bind_some,
          List.filter_cons_of_pos (by simpa using hload), List.foldlM_cons]
        exact congrArg _ (funext hrest)
      · rw [if_neg hload, List.filter_cons_of_neg (by simpa using hload), hrest]

theorem onPage_of_mapLoop (count : ℕ) {i : ℕ} {mem final : Memory}
    (hrun : mapLoop space file (phoff file) count i mem = some final) :
    ∀ j, i ≤ j → j < i + count → OnPage file j := by
  induction count generalizing i mem with
  | zero => omega
  | succ count ih =>
      rw [mapLoop, Option.bind_eq_bind] at hrun
      obtain ⟨type, hread, hrun⟩ := Option.bind_eq_some_iff.mp hrun
      have hpage := header_page hread
      obtain rfl : (entry file i).type = type := by
        rw [header_eq hpage] at hread
        exact Option.some.inj hread
      have hfirst : OnPage file i ∧ ∃ mem, mapLoop space file (phoff file) count (i + 1) mem =
          some final := by
        split_ifs at hrun with hload
        · obtain ⟨p, hphdr, hrun⟩ := Option.bind_eq_some_iff.mp hrun
          obtain ⟨next, -, hrun⟩ := Option.bind_eq_some_iff.mp hrun
          exact ⟨⟨hpage, fun _ => phdr_page hphdr⟩, next, hrun⟩
        · exact ⟨⟨hpage, fun hload' => absurd hload' hload⟩, mem, hrun⟩
      obtain ⟨hfirst, next, hrun⟩ := hfirst
      intro j hlow hhigh
      rcases hlow.eq_or_lt with rfl | hlow
      · exact hfirst
      · exact ih hrun j hlow (by omega)

end Loop

/-! ## All segments -/

section Segments

variable {space : ℕ} {file : List Byte} (hspace : space < 2 ^ 64)

include hspace

theorem foldlM_mapSegment {ps : List Phdr} (mem : Memory)
    (hfits : ∀ p ∈ ps, p.Fits file ∧ p.Bounded)
    (hmapped : ∀ p ∈ ps, p.Accepted space ∧ p.Backed file) :
    ∃ prot, ps.foldlM (mapSegment space file) mem =
      some ⟨Overlay.putAll (ps.map (Phdr.write · file)) mem.bytes, prot⟩ := by
  induction ps generalizing mem with
  | nil => exact ⟨mem.prot, rfl⟩
  | cons p ps ih =>
      obtain ⟨hown, hbounded⟩ := hfits p List.mem_cons_self
      obtain ⟨haccepted, hbacked⟩ := hmapped p List.mem_cons_self
      obtain ⟨prot, hstep⟩ := mapSegment_eq hown hbounded hspace mem haccepted hbacked
      rw [List.foldlM_cons, hstep]
      exact ih _ (fun other hother => hfits other (List.mem_cons_of_mem _ hother))
        fun other hother => hmapped other (List.mem_cons_of_mem _ hother)

theorem mapped_of_foldlM {ps : List Phdr} {mem final : Memory}
    (hfits : ∀ p ∈ ps, p.Fits file ∧ p.Bounded) (hwrap : ∀ p ∈ ps, p.vaddr + p.memsz ≤ 2 ^ 64)
    (hrun : ps.foldlM (mapSegment space file) mem = some final) :
    ∀ p ∈ ps, p.Accepted space ∧ p.Backed file := by
  refine Overlay.foldlM_forall (fun p hp before after hstep => ?_) hrun
  obtain ⟨hown, hbounded⟩ := hfits p hp
  by_contra hfails
  rw [mapSegment_fails hown hbounded hspace before (hwrap p hp) hfails] at hstep
  cases hstep

end Segments

/-! ## Behind the address space -/

section Absent

variable {space : ℕ} {file : List Byte} {mem final : Memory} {pos : ℕ}

theorem memset_absent (count : ℕ) {addr : ℕ} (hrun : memset count mem addr = some final)
    (habsent : mem.bytes pos = none) : final.bytes pos = none := by
  induction count generalizing mem addr with
  | zero =>
      cases hrun
      exact habsent
  | succ count ih =>
      rw [memset, Option.bind_eq_bind] at hrun
      obtain ⟨next, hstore, hrest⟩ := Option.bind_eq_some_iff.mp hrun
      apply ih hrest
      unfold Memory.store at hstore
      split_ifs at hstore with hpresent
      cases hstore
      -- a byte that is stored to was there before
      have hpos : pos ≠ addr := by
        rintro rfl
        simp [habsent] at hpresent
      simp only
      rwa [Function.update_of_ne hpos]

theorem mmap_absent {addr length prot offset : ℕ}
    (hrun : mmap space file mem addr length prot offset = some final)
    (hbehind : space + pageSize ≤ pos + 1) (habsent : mem.bytes pos = none) :
    final.bytes pos = none := by
  unfold mmap at hrun
  split_ifs at hrun with hrefused
  cases hrun
  simp only [pageSize] at hbehind hrefused ⊢
  rwa [if_neg (by omega)]

theorem foldlM_absent {ps : List Phdr}
    (hrun : ps.foldlM (mapSegment space file) mem = some final)
    (hbehind : space + pageSize ≤ pos + 1) (habsent : mem.bytes pos = none) :
    final.bytes pos = none := by
  apply Overlay.foldlM_invariant (P := fun mem => mem.bytes pos = none) _ hrun habsent
  intro p _ before after hstep habsent
  rw [mapSegment, Option.bind_eq_bind] at hstep
  obtain ⟨middle, hmap, hset⟩ := Option.bind_eq_some_iff.mp hstep
  exact memset_absent _ hset (mmap_absent hmap hbehind habsent)

end Absent

/-! ## The memory image -/

/-- An executable of this machine whose segments fit and ascend, as they do when
their pages are disjoint. -/
structure Loadable (file : List Byte) : Prop where
  type : field (file.getD · 0) 16 2 = ET_EXEC
  machine : field (file.getD · 0) 18 2 = EM_X86_64
  fits : ∀ p ∈ segments file, p.Fits file
  ascending : (segments file).Pairwise fun p q => p.vaddr + p.memsz ≤ q.vaddr

/-- The loop ends, whatever was mapped before, and every segment is in memory. -/
def BuildsImage (space : ℕ) (file : List Byte) : Prop :=
  ∀ mem, ∃ final, execve space file mem = some final ∧
    ∀ p ∈ segments file, ∀ i < p.memsz, final.bytes (p.vaddr + i) = some (p.byte file i)

/-- When it does so: the table is on the first page of the file, every segment
can be mapped, the file has pages for every `bss`, and where the rounded
addresses of later segments are at or below a byte of a segment, the file has
that byte in front of the last such segment. -/
structure Mappable (space : ℕ) (file : List Byte) : Prop where
  table : ∀ i < phnum file, OnPage file i
  accepted : ∀ p ∈ segments file, p.Accepted space
  backed : ∀ p ∈ segments file, p.Backed file
  heads : ∀ before p after, segments file = before ++ p :: after → ∀ i < p.memsz,
    ∀ q ∈ (after.filter fun q => q.head ≤ p.vaddr + i).getLast?,
      q.mapped file (p.vaddr + i) = some (p.byte file i)

section Image

variable {space : ℕ} {file : List Byte} {p : Phdr}

/-- What a segment is mapped as, before later ones are. -/
theorem write_own (hfits : p.Fits file) {i : ℕ} (hi : i < p.memsz) :
    p.write file (p.vaddr + i) = some (some (p.byte file i)) := by
  unfold Phdr.write Phdr.byte
  by_cases hfile : i < p.filesz
  · have hinFile := hfits.inFile
    have hpage : (p.offset + i) / pageSize * pageSize < file.length :=
      (Nat.div_mul_le_self _ _).trans_lt (by omega)
    rw [if_neg (by omega), if_pos (covered_segment hfits (by omega) (by omega)),
      if_pos hfile, mapped_eq hfits (by omega), Nat.add_sub_cancel_left,
      filePage_eq le_rfl hpage]
  · rw [if_pos (by omega), if_neg hfile]

/-- A later segment reaches below its address with its rounding only. -/
theorem write_below (file : List Byte) {addr : ℕ} (hbelow : addr < p.vaddr) :
    p.write file addr = if p.head ≤ addr then some (p.mapped file addr) else none := by
  unfold Phdr.write
  rw [if_neg (by omega)]
  by_cases hreach : p.head ≤ addr
  · have hcovered : addr < (p.vaddr + p.memsz + (pageSize - 1)) / pageSize * pageSize := by
      simp only [pageSize]
      omega
    rw [if_pos ⟨hreach, hcovered⟩, if_pos hreach]
  · rw [if_neg fun hcovered => hreach hcovered.1, if_neg hreach]

theorem bounded_of_mem (hp : p ∈ segments file) : p.Bounded := by
  obtain ⟨i, -, rfl⟩ := List.mem_map.mp (List.mem_of_mem_filter hp)
  exact bounded_entry file i

variable (hload : Loadable file)

include hload

theorem image_iff_heads (mem : Memory) :
    (∀ p ∈ segments file, ∀ i < p.memsz,
      Overlay.putAll ((segments file).map (Phdr.write · file)) mem.bytes (p.vaddr + i) =
        some (p.byte file i)) ↔
    ∀ before p after, segments file = before ++ p :: after → ∀ i < p.memsz,
      ∀ q ∈ (after.filter fun q => q.head ≤ p.vaddr + i).getLast?,
        q.mapped file (p.vaddr + i) = some (p.byte file i) := by
  apply Overlay.survives_iff_reached (segments file) Phdr.memsz (fun p i => p.vaddr + i)
  · intro p hp i hi
    exact write_own (hload.fits p hp) hi
  · intro before p after hsegments i hi q hq
    apply write_below
    have hpairs := hload.ascending
    rw [hsegments, List.pairwise_append, List.pairwise_cons] at hpairs
    have hafter := hpairs.2.1.1 q hq
    omega

/-- The headers are checked, then the loop runs. -/
theorem execve_eq (mem : Memory) :
    execve space file mem = mapLoop space file (phoff file) (phnum file) 0 mem := by
  have hheader : ∀ {pos width}, pos + width ≤ 64 →
      header file pos width = some (field (file.getD · 0) pos width) := fun hpos =>
    header_eq (hpos.trans (by decide))
  rw [execve, hheader (by decide), hheader (by decide), hheader (by decide), hheader (by decide),
    hload.type, hload.machine]
  rfl

theorem execve_segments (htable : ∀ i < phnum file, OnPage file i) (mem : Memory) :
    execve space file mem = (segments file).foldlM (mapSegment space file) mem := by
  rw [execve_eq hload, mapLoop_eq _ _ fun j _ hj => htable j (by omega), segments,
    List.range_eq_range']

variable (hspace : space + pageSize ≤ 2 ^ 64)

include hspace

theorem mappable_of_image (hbuilds : BuildsImage space file) : Mappable space file := by
  -- nothing is mapped before, so the last byte of all stays unmapped
  obtain ⟨final, hrun, hbytes⟩ := hbuilds ⟨fun _ => none, fun _ => 0⟩
  have htable : ∀ i < phnum file, OnPage file i := by
    intro i hi
    rw [execve_eq hload] at hrun
    exact onPage_of_mapLoop _ hrun i (Nat.zero_le i) (by omega)
  rw [execve_segments hload htable] at hrun
  have hwrap : ∀ p ∈ segments file, p.vaddr + p.memsz ≤ 2 ^ 64 := by
    intro p hp
    by_contra hwrap
    have hvaddr := (bounded_of_mem hp).vaddr
    have hbyte := hbytes p hp (2 ^ 64 - 1 - p.vaddr) (by omega)
    rw [Nat.add_sub_cancel' (by omega),
      foldlM_absent hrun (hspace.trans (by norm_num)) rfl] at hbyte
    cases hbyte
  have hsmall : space < 2 ^ 64 := (Nat.lt_add_of_pos_right (by decide)).trans_le hspace
  have hfits : ∀ p ∈ segments file, p.Fits file ∧ p.Bounded := fun p hp =>
    ⟨hload.fits p hp, bounded_of_mem hp⟩
  have hmapped := mapped_of_foldlM hsmall hfits hwrap hrun
  obtain ⟨prot, hfold⟩ := foldlM_mapSegment hsmall ⟨fun _ => none, fun _ => 0⟩ hfits hmapped
  rw [hfold] at hrun
  cases hrun
  exact ⟨htable, fun p hp => (hmapped p hp).1, fun p hp => (hmapped p hp).2,
    (image_iff_heads hload _).mp hbytes⟩

theorem image_of_mappable (hmappable : Mappable space file) : BuildsImage space file := by
  intro mem
  have hsmall : space < 2 ^ 64 := (Nat.lt_add_of_pos_right (by decide)).trans_le hspace
  obtain ⟨prot, hfold⟩ := foldlM_mapSegment hsmall mem
    (fun p hp => ⟨hload.fits p hp, bounded_of_mem hp⟩)
    fun p hp => ⟨hmappable.accepted p hp, hmappable.backed p hp⟩
  rw [← execve_segments hload hmappable.table] at hfold
  exact ⟨_, hfold, (image_iff_heads hload mem).mpr hmappable.heads⟩

end Image

/-- Of a loadable file the loader builds the memory image if and only if it can
be mapped. -/
theorem builds_image_iff (space : ℕ) (file : List Byte) (hspace : space + pageSize ≤ 2 ^ 64)
    (hload : Loadable file) : BuildsImage space file ↔ Mappable space file :=
  ⟨mappable_of_image hload hspace, image_of_mappable hload hspace⟩

/-! ## A file of one page with two segments -/

/-- An entry of the program header table for a segment to be loaded. -/
def sampleEntry (flags offset vaddr filesz memsz : ℕ) : List Byte :=
  leBytes 4 PT_LOAD ++ leBytes 4 flags ++
    [offset, vaddr, vaddr, filesz, memsz, pageSize].flatMap (leBytes 8)

/-- The whole file to be read and executed at `0x400000`, and its last 8 bytes once more on
the next page, as the beginning of `memsz` bytes to be read and written. -/
def sampleFile (memsz : ℕ) : List Byte :=
  [0x7f, 0x45, 0x4c, 0x46, 2, 1, 1] ++ List.replicate 9 0 ++
    leBytes 2 ET_EXEC ++ leBytes 2 EM_X86_64 ++ leBytes 4 1 ++ leBytes 8 0x4000b0 ++
    leBytes 8 64 ++ leBytes 8 0 ++ leBytes 4 0 ++
    [64, phdrSize, 2, 64, 0, 0].flatMap (leBytes 2) ++
    sampleEntry (PF_R ||| PF_X) 0 0x400000 184 184 ++
    sampleEntry (PF_R ||| PF_W) 176 0x4010b0 8 memsz ++ [1, 2, 3, 4, 5, 6, 7, 8]

/-- The user part of the address space. -/
abbrev taskSize := 2 ^ 47 - pageSize

abbrev sampleText : Phdr := ⟨1, 5, 0, 0x400000, 184, 184, 4096⟩

abbrev sampleData (memsz : ℕ) : Phdr := ⟨1, 6, 176, 0x4010b0, 8, memsz, 4096⟩

theorem segments_two_pages :
    segments (sampleFile 0x2000) = [sampleText, sampleData 0x2000] := rfl

theorem segments_one_page :
    segments (sampleFile 0x100) = [sampleText, sampleData 0x100] := rfl

theorem length_sampleFile (memsz : ℕ) : (sampleFile memsz).length = 184 := by
  simp [sampleFile, sampleEntry]

theorem loadable_sample {memsz : ℕ} (hmemsz : 8 ≤ memsz)
    (htype : field ((sampleFile memsz).getD · 0) 16 2 = ET_EXEC)
    (hmachine : field ((sampleFile memsz).getD · 0) 18 2 = EM_X86_64)
    (hsegments : segments (sampleFile memsz) = [sampleText, sampleData memsz]) :
    Loadable (sampleFile memsz) where
  type := htype
  machine := hmachine
  fits := by
    have hlength := (length_sampleFile memsz).ge
    rw [hsegments]
    intro p hp
    obtain rfl | hp := List.mem_cons.mp hp
    · exact ⟨le_rfl, ⟨12, rfl⟩, dvd_rfl, (by decide : 0x400000 % 4096 = 0 % 4096),
        hlength, fun hbss => absurd hbss (lt_irrefl 184)⟩
    · obtain rfl := List.mem_singleton.mp hp
      exact ⟨hmemsz, ⟨12, rfl⟩, dvd_rfl, (by decide : 0x4010b0 % 4096 = 176 % 4096),
        hlength, fun _ => (by decide : 6 &&& PF_W ≠ 0)⟩
  ascending := by
    rw [hsegments]
    exact List.pairwise_pair.mpr (by decide : 0x400000 + 184 ≤ 0x4010b0)

/-- The second page of the data is behind the end of the file, and `memset`
faults there. -/
theorem two_pages_not_built :
    Loadable (sampleFile 0x2000) ∧ ¬BuildsImage taskSize (sampleFile 0x2000) := by
  have hload : Loadable (sampleFile 0x2000) :=
    loadable_sample (by decide) (by decide) (by decide) segments_two_pages
  refine ⟨hload, fun hbuilds => ?_⟩
  have hbacked := (mappable_of_image hload (by decide) hbuilds).backed
  rw [segments_two_pages] at hbacked
  have hpage := hbacked (sampleData 0x2000) (by simp) (by decide)
  rw [length_sampleFile] at hpage
  exact absurd hpage (by decide)

/-- A `bss` that ends with the page of the file. -/
theorem builds_image_iff_one_page :
    Loadable (sampleFile 0x100) ∧ BuildsImage taskSize (sampleFile 0x100) := by
  have hload : Loadable (sampleFile 0x100) :=
    loadable_sample (by decide) (by decide) (by decide) segments_one_page
  refine ⟨hload, (builds_image_iff taskSize _ (by decide) hload).mpr ⟨?_, ?_, ?_, ?_⟩⟩
  · intro i hi
    have hlt : i < 2 := hi
    interval_cases i
    · exact ⟨by decide, fun _ => by decide⟩
    · exact ⟨by decide, fun _ => by decide⟩
  · rw [segments_one_page]
    intro p hp
    obtain rfl | hp := List.mem_cons.mp hp
    · exact ⟨.inl (by decide), by decide⟩
    · obtain rfl := List.mem_singleton.mp hp
      exact ⟨.inl (by decide), by decide⟩
  · rw [segments_one_page]
    intro p hp
    obtain rfl | hp := List.mem_cons.mp hp
    · exact fun hbss => absurd hbss (lt_irrefl 184)
    · obtain rfl := List.mem_singleton.mp hp
      intro _
      rw [length_sampleFile]
      decide
  · rw [segments_one_page]
    intro before p after hsplit i hi q hq
    rcases before with - | ⟨first, - | ⟨second, before⟩⟩
    · -- the page of the data begins behind the text
      obtain ⟨rfl, rfl⟩ := List.cons.inj hsplit
      have hlt : i < 184 := hi
      have hhead : ¬(sampleData 0x100).head ≤ sampleText.vaddr + i := by
        change ¬0x401000 ≤ 0x400000 + i
        omega
      rw [List.filter_cons_of_neg (by simpa using hhead)] at hq
      cases hq
    · obtain ⟨rfl, hrest⟩ := List.cons.inj hsplit
      obtain ⟨rfl, rfl⟩ := List.cons.inj hrest
      cases hq
    · simp at hsplit

end JyyOS.LoaderStatic
