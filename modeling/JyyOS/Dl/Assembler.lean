import JyyOS.Core.ByteImage

/-!
# The assembler side of `dl.h`

The statements of GNU as that the macros of `dl.h` expand to, and the two
passes that lay them out: the first gives every label its address, the second
emits the bytes.
-/

namespace JyyOS.Dl

open JyyOS.ByteImage

abbrev REC_SZ := 32

def bytes (text : String) : List Byte := text.toList.map Char.toUInt8

/-- `DL_MAGIC` -/
def magic : List Byte := [0x01, 0x14, 0x05, 0x14]

/-! ## Statements -/

inductive Label where
  /-- `__hdr` -/
  | hdr
  /-- `__code` -/
  | code
  /-- `__end` -/
  | stop
  | sym (name : List Byte)
deriving DecidableEq

inductive Expr where
  | const (value : ℤ)
  /-- `left - right` -/
  | diff (left right : Label)

inductive Stmt where
  | label (name : Label)
  | ascii (text : List Byte)
  /-- `.4byte` and `.8byte`, for a width of 4 and 8. -/
  | word (width : ℕ) (expr : Expr)
  /-- `.fill count, 1, value` -/
  | fill (count : ℕ) (value : Byte)
  /-- `.align boundary, value`, where the boundary counts bytes. -/
  | align (boundary : ℕ) (value : Byte)

/-- The bytes up to the next multiple of the boundary. -/
def padding (boundary pos : ℕ) : ℕ := (boundary - pos % boundary) % boundary

namespace Stmt

/-- The bytes that a statement takes at a position. -/
def size (pos : ℕ) : Stmt → ℕ
  | .label _ => 0
  | .ascii text => text.length
  | .word width _ => width
  | .fill count _ => count
  | .align boundary _ => padding boundary pos

def labels (stmts : List Stmt) : List Label :=
  stmts.filterMap fun
    | .label name => some name
    | _ => none

/-- The first pass: where a label stands. -/
def address (name : Label) : ℕ → List Stmt → Option ℕ
  | _, [] => none
  | pos, stmt :: stmts =>
      match stmt with
      | .label other =>
          if other = name then some pos else address name pos stmts
      | stmt => address name (pos + stmt.size pos) stmts

end Stmt

def Expr.eval (address : Label → Option ℕ) : Expr → Option ℤ
  | .const value => some value
  | .diff left right => do return (← address left) - (← address right)

namespace Stmt

/-- The bytes of one statement; `none` for an undefined label. -/
def emit (address : Label → Option ℕ) (pos : ℕ) : Stmt → Option (List Byte)
  | .label _ => some []
  | .ascii text => some text
  | .word width expr =>
      (expr.eval address).map fun value =>
        leBytes width (value % 256 ^ width).toNat
  | .fill count value => some (List.replicate count value)
  | .align boundary value => some (List.replicate (padding boundary pos) value)

/-- The second pass. -/
def emitAll (address : Label → Option ℕ) : ℕ → List Stmt → Option (List Byte)
  | _, [] => some []
  | pos, stmt :: stmts => do
      let bytes ← stmt.emit address pos
      return bytes ++ (← emitAll address (pos + stmt.size pos) stmts)

end Stmt

/-- The image of a file; a label must not be defined twice. -/
def assemble (stmts : List Stmt) : Option (List Byte) :=
  if (Stmt.labels stmts).Nodup then
    Stmt.emitAll (fun name => Stmt.address name 0 stmts) 0 stmts
  else none

/-! ## The macros -/

def DL_HEAD : List Stmt :=
  [.label .hdr, .ascii magic, .word 4 (.diff .stop .hdr),
    .word 4 (.diff .code .hdr)]

def DL_CODE : List Stmt :=
  [.fill (REC_SZ - 1) 0, .align REC_SZ 0, .label .code]

def DL_END : List Stmt := [.label .stop]

/-- `sym` stands before the `.8byte`, with its colon or empty. -/
def RECORD (sym : List Stmt) (off : Expr) (name : List Byte) : List Stmt :=
  [.align REC_SZ 0] ++ sym ++ [.word 8 off, .ascii name]

inductive Directive where
  | LOAD (lib : List Byte)
  | IMPORT (sym : List Byte)
  | EXPORT (sym : List Byte)
deriving DecidableEq

namespace Directive

def name : Directive → List Byte
  | LOAD lib => lib
  | IMPORT sym => sym
  | EXPORT sym => sym

/-- The character that stands before the name. -/
def type : Directive → Byte
  | LOAD _ => '+'.toUInt8
  | IMPORT _ => '?'.toUInt8
  | EXPORT _ => '#'.toUInt8

def offset : Directive → Expr
  | LOAD _ => .const 0
  | IMPORT _ => .const 0
  | EXPORT sym => .diff (.sym sym) .hdr

def expand : Directive → List Stmt
  | LOAD lib => RECORD [] (.const 0) ('+'.toUInt8 :: lib ++ [0])
  | IMPORT sym =>
      RECORD [.label (.sym sym)] (.const 0) ('?'.toUInt8 :: sym ++ [0])
  | EXPORT sym =>
      RECORD [] (.diff (.sym sym) .hdr) ('#'.toUInt8 :: sym ++ [0])

end Directive

/-- A source file: its table and then any code. -/
def source (directives : List Directive) (code : List Stmt) : List Stmt :=
  DL_HEAD ++ directives.flatMap Directive.expand ++ DL_CODE ++ code ++ DL_END

/-! ## Layout -/

theorem padding_spec {boundary : ℕ} (hpos : 0 < boundary) (pos : ℕ) :
    (pos + padding boundary pos) % boundary = 0 := by
  have hlt := Nat.mod_lt pos hpos
  rw [padding, Nat.add_mod, Nat.mod_mod]
  by_cases hzero : pos % boundary = 0
  · simp [hzero]
  · rw [Nat.mod_eq_of_lt (by omega : boundary - pos % boundary < boundary),
      Nat.add_sub_cancel' hlt.le, Nat.mod_self]

section Emit

variable {address : Label → Option ℕ} {pos : ℕ} {stmt : Stmt}
  {stmts : List Stmt} {image : List Byte}

theorem emitAll_cons :
    Stmt.emitAll address pos (stmt :: stmts) = some image ↔
      ∃ bytes more, stmt.emit address pos = some bytes ∧
        Stmt.emitAll address (pos + stmt.size pos) stmts = some more ∧
          bytes ++ more = image := by
  simp only [Stmt.emitAll, Option.bind_eq_bind, Option.bind_eq_some_iff,
    Option.pure_def, Option.some.injEq]
  constructor
  · rintro ⟨bytes, hbytes, more, hmore, heq⟩
    exact ⟨bytes, more, hbytes, hmore, heq⟩
  · rintro ⟨bytes, more, hbytes, hmore, heq⟩
    exact ⟨bytes, hbytes, more, hmore, heq⟩

theorem length_emit (hemit : stmt.emit address pos = some image) :
    image.length = stmt.size pos := by
  cases stmt with
  | label name | ascii text | fill count value | align boundary value =>
      cases hemit
      simp [Stmt.size]
  | word width expr =>
      obtain ⟨value, -, rfl⟩ := Option.map_eq_some_iff.mp hemit
      simp [Stmt.size]

/-- A label that is defined only at the end stands there. -/
theorem address_last {name : Label} (hname : name ∉ Stmt.labels stmts)
    (hemit : Stmt.emitAll address pos (stmts ++ [.label name]) = some image) :
    Stmt.address name pos (stmts ++ [.label name]) = some (pos + image.length) := by
  induction stmts generalizing pos image with
  | nil =>
      cases hemit
      simp [Stmt.address]
  | cons stmt stmts ih =>
      obtain ⟨bytes, more, hbytes, hmore, rfl⟩ := emitAll_cons.mp hemit
      have hrest : name ∉ Stmt.labels stmts := by
        intro hmem
        apply hname
        cases stmt with
        | label other => exact List.mem_cons_of_mem _ hmem
        | ascii | word | fill | align => exact hmem
      have haddress := ih hrest hmore
      rw [List.length_append, length_emit hbytes, ← Nat.add_assoc]
      cases stmt with
      | label other =>
          have hother : other ≠ name := by
            rintro rfl
            exact hname (by simp [Stmt.labels])
          rw [List.cons_append, Stmt.address, if_neg hother]
          exact haddress
      | ascii | word | fill | align => exact haddress

end Emit

/-! ## The table -/

namespace Directive

/-- The record fits: its name has 1 to 22 bytes and no NUL. -/
def Fits (directive : Directive) : Prop :=
  0 < directive.name.length ∧ directive.name.length + 10 ≤ REC_SZ ∧
    0 ∉ directive.name

/-- `IMPORT` defines the symbol at its record. -/
def label : Directive → List Stmt
  | IMPORT sym => [.label (.sym sym)]
  | _ => []

theorem expand_eq (directive : Directive) :
    directive.expand =
      RECORD directive.label directive.offset
        (directive.type :: directive.name ++ [0]) := by
  cases directive <;> rfl

/-- A whole record, filled with zeros. -/
def record (address : Label → Option ℕ) (directive : Directive) : List Byte :=
  leBytes 8 (((directive.offset.eval address).getD 0) % 256 ^ 8).toNat ++
    directive.type :: directive.name ++
      List.replicate (23 - directive.name.length) 0

end Directive

section Table

variable {address : Label → Option ℕ} {pos : ℕ} {directive : Directive}
  {directives : List Directive} {rest : List Stmt} {image : List Byte}

/-- The position behind a record. -/
def Directive.after (pos : ℕ) (directive : Directive) : ℕ :=
  pos + padding REC_SZ pos + 10 + directive.name.length

theorem emitAll_expand
    (hemit : Stmt.emitAll address pos (directive.expand ++ rest) = some image) :
    ∃ value more, directive.offset.eval address = some value ∧
      Stmt.emitAll address (directive.after pos) rest = some more ∧
        image = List.replicate (padding REC_SZ pos) 0 ++
          leBytes 8 (value % 256 ^ 8).toNat ++
            (directive.type :: directive.name ++ [0]) ++ more := by
  have hlabel : ∀ {at_ : ℕ} {stmts : List Stmt} {bytes : List Byte},
      Stmt.emitAll address at_ (directive.label ++ stmts) = some bytes →
        Stmt.emitAll address at_ stmts = some bytes := by
    intro at_ stmts bytes hbytes
    cases directive with
    | IMPORT sym =>
        obtain ⟨first, more, hfirst, hmore, rfl⟩ := emitAll_cons.mp hbytes
        cases hfirst
        exact hmore
    | LOAD lib | EXPORT sym => exact hbytes
  rw [directive.expand_eq, RECORD, List.append_assoc, List.append_assoc,
    List.singleton_append] at hemit
  obtain ⟨_, afterPad, hpad, hrecord, rfl⟩ := emitAll_cons.mp hemit
  cases hpad
  obtain ⟨_, afterWord, hword, hname, rfl⟩ := emitAll_cons.mp (hlabel hrecord)
  obtain ⟨value, hvalue, rfl⟩ := Option.map_eq_some_iff.mp hword
  obtain ⟨_, more, hascii, hmore, rfl⟩ := emitAll_cons.mp hname
  cases hascii
  have hafter : directive.after pos = pos + padding REC_SZ pos + 8 +
      (directive.type :: directive.name ++ [0]).length := by
    simp only [Directive.after, List.length_append, List.length_cons, List.length_nil]
    omega
  exact ⟨value, more, hvalue, hafter ▸ hmore, by simp⟩

theorem padding_after (hfits : directive.Fits) :
    padding REC_SZ (directive.after pos) = 22 - directive.name.length := by
  have hpad := padding_spec (by decide : 0 < REC_SZ) pos
  obtain ⟨hpos, hname, -⟩ := hfits
  simp only [Directive.after, padding, REC_SZ] at hpad hname ⊢
  omega

theorem after_mod (hfits : directive.Fits) : directive.after pos % REC_SZ ≠ 1 := by
  have hpad := padding_spec (by decide : 0 < REC_SZ) pos
  obtain ⟨hpos, hname, -⟩ := hfits
  simp only [Directive.after, REC_SZ] at hpad hname ⊢
  omega

/-- `DL_CODE` leaves room for a zero record wherever the table ends. -/
theorem padding_code (hpos : pos % REC_SZ ≠ 1) :
    31 + padding REC_SZ (pos + 31) = padding REC_SZ pos + REC_SZ := by
  simp only [padding, REC_SZ] at hpos ⊢
  omega

theorem emitAll_table (hfits : ∀ directive ∈ directives, directive.Fits)
    (hpos : pos % REC_SZ ≠ 1)
    (hemit : Stmt.emitAll address pos
      (directives.flatMap Directive.expand ++ (DL_CODE ++ rest)) = some image) :
    (∀ directive ∈ directives, (directive.offset.eval address).isSome) ∧
      ∃ more, image = List.replicate (padding REC_SZ pos) 0 ++
        directives.flatMap (Directive.record address) ++
          List.replicate REC_SZ 0 ++ more := by
  induction directives generalizing pos image with
  | nil =>
      refine ⟨nofun, ?_⟩
      obtain ⟨_, _, hfill, halign, rfl⟩ := emitAll_cons.mp hemit
      obtain ⟨_, more, hpad, hmore, rfl⟩ := emitAll_cons.mp halign
      cases hfill
      cases hpad
      refine ⟨more, ?_⟩
      rw [← List.append_assoc, List.replicate_append_replicate,
        List.flatMap_nil, List.append_nil, List.replicate_append_replicate]
      congr 2
      exact padding_code hpos
  | cons directive directives ih =>
      rw [List.flatMap_cons, List.append_assoc] at hemit
      obtain ⟨value, more, hvalue, hmore, rfl⟩ := emitAll_expand hemit
      have hfirst := hfits directive List.mem_cons_self
      obtain ⟨hsome, last, rfl⟩ := ih
        (fun other hother => hfits other (List.mem_cons_of_mem _ hother))
        (after_mod hfirst) hmore
      refine ⟨List.forall_mem_cons.mpr ⟨by simp [hvalue], hsome⟩, last, ?_⟩
      have hzeros : 0 :: List.replicate (22 - directive.name.length) (0 : Byte) =
          List.replicate (23 - directive.name.length) 0 := by
        rw [← List.replicate_succ]
        congr 1
        have hname : directive.name.length + 10 ≤ 32 := hfirst.2.1
        omega
      rw [padding_after hfirst, List.flatMap_cons, Directive.record, hvalue]
      simp only [Option.getD_some, List.append_assoc, List.cons_append,
        List.nil_append, ← hzeros]

theorem address_code (hfits : ∀ directive ∈ directives, directive.Fits)
    (hpos : pos % REC_SZ ≠ 1) :
    Stmt.address .code pos
        (directives.flatMap Directive.expand ++ (DL_CODE ++ rest)) =
      some (pos + padding REC_SZ pos + REC_SZ * directives.length + REC_SZ) := by
  induction directives generalizing pos with
  | nil =>
      have := padding_code hpos
      simp [DL_CODE, Stmt.address, Stmt.size]
      omega
  | cons directive directives ih =>
      have hfirst := hfits directive List.mem_cons_self
      have hrest := ih
        (fun other hother => hfits other (List.mem_cons_of_mem _ hother))
        (after_mod hfirst : directive.after pos % REC_SZ ≠ 1)
      have hskip : Stmt.address .code pos
          ((directive :: directives).flatMap Directive.expand ++ (DL_CODE ++ rest)) =
          Stmt.address .code (directive.after pos)
            (directives.flatMap Directive.expand ++ (DL_CODE ++ rest)) := by
        cases directive <;>
          simp [Directive.expand, RECORD, Stmt.address, Stmt.size, Directive.after,
            Directive.name] <;> congr 1 <;> omega
      rw [hskip, hrest, padding_after hfirst, Directive.after, List.length_cons]
      have := hfirst.2.1
      simp only [REC_SZ] at this ⊢
      congr 1
      omega

end Table

end JyyOS.Dl
