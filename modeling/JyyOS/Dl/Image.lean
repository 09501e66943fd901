import JyyOS.Dl.Assembler

/-!
# The loader's view of a library file

`struct dl_hdr`, `struct symbol` and `struct dlib` as `dlbox.c` reads and
writes them.  The walk over the symbol table starts behind the first record and
stops at the first zero type.
-/

namespace JyyOS.Dl

open JyyOS.ByteImage

/-- `struct dl_hdr`, in bytes 0 to 11. -/
structure Header where
  magic : List Byte
  file_sz : ℕ
  code_off : ℕ
deriving DecidableEq

abbrev hdrSize := 12

def Header.read (image : List Byte) : Header where
  magic := load 0 4 image
  file_sz := leValue (load 4 4 image)
  code_off := leValue (load 8 4 image)

/-- `struct symbol`: eight bytes for the offset, one for the type, the others
for the name and its NUL. -/
structure Symbol where
  offset : UInt64
  type : Byte
  name : List Byte
deriving DecidableEq

/-- The string in a field; `none` when no NUL ends it there. -/
def cstring (field : List Byte) : Option (List Byte) :=
  if 0 ∈ field then some (field.takeWhile (· ≠ 0)) else none

def Symbol.read (record : List Byte) : Option Symbol :=
  (cstring (load 9 23 record)).map fun name =>
    { offset := UInt64.ofNat (leValue (load 0 8 record))
      type := (load 8 1 record).headD 0
      name := name }

/-- `for (sym = ...; sym->type; sym++)`.  `none` when the table leaves the
image before a zero type, or a name leaves its field. -/
def walk : ℕ → List Byte → Option (List Symbol)
  | 0, _ => none
  | rounds + 1, image =>
      if image.length < REC_SZ then none
      else if load 8 1 image = [0] then some []
      else do
        let symbol ← Symbol.read (image.take REC_SZ)
        return symbol :: (← walk rounds (image.drop REC_SZ))

/-- The records from `h->symtab` on. -/
def symtab (image : List Byte) : Option (List Symbol) :=
  walk image.length (image.drop REC_SZ)

/-- `h->symtab = ...; h->path = path`: the fields of `struct dlib` behind the
header. -/
def storeDlib (table path : UInt64) (image : List Byte) : List Byte :=
  store 24 (leBytes 8 path.toNat) (store 16 (leBytes 8 table.toNat) image)

/-- What a directive means to the loader. -/
def Directive.symbol (address : Label → Option ℕ) (directive : Directive) :
    Symbol where
  offset :=
    match directive with
    | EXPORT sym => UInt64.ofNat ((address (.sym sym)).getD 0)
    | _ => 0
  type := directive.type
  name := directive.name

section Walk

variable {address : Label → Option ℕ} {directive : Directive}
  {directives : List Directive}

theorem length_record (address : Label → Option ℕ) (hfits : directive.Fits) :
    (directive.record address).length = REC_SZ := by
  have hname : directive.name.length + 10 ≤ 32 := hfits.2.1
  simp only [Directive.record, List.length_append, length_leBytes, List.length_cons,
    List.length_replicate, REC_SZ]
  omega

theorem cstring_zeros {name : List Byte} (hname : 0 ∉ name) (zeros : ℕ) :
    cstring (name ++ List.replicate (zeros + 1) 0) = some name := by
  have hall : ∀ byte ∈ name, decide (byte ≠ 0) = true := by
    intro byte hbyte
    have hne : byte ≠ 0 := by
      rintro rfl
      exact hname hbyte
    simpa using hne
  rw [cstring, if_pos (by simp [List.replicate_succ]), Option.some.injEq,
    List.takeWhile_append_of_pos hall]
  simp [List.replicate_succ]

theorem ofNat_leValue (value : ℕ) :
    UInt64.ofNat (leValue (leBytes 8 value)) = UInt64.ofNat value := by
  rw [leValue_leBytes]
  exact UInt64.ofNat_mod_size

theorem ofNat_emod (value : ℕ) :
    UInt64.ofNat ((value : ℤ) % 256 ^ 8).toNat = UInt64.ofNat value :=
  UInt64.ofNat_mod_size

/-- The offset field holds `label - __hdr`. -/
theorem offset_eq (hhdr : address .hdr = some 0)
    (hsome : (directive.offset.eval address).isSome) :
    UInt64.ofNat (((directive.offset.eval address).getD 0) % 256 ^ 8).toNat =
      (directive.symbol address).offset := by
  cases directive with
  | LOAD lib | IMPORT sym => rfl
  | EXPORT sym =>
      have heval : Expr.eval address (.diff (.sym sym) .hdr) =
          (address (.sym sym)).map fun pos : ℕ => (pos : ℤ) := by
        cases hpos : address (.sym sym) with
        | none => simp [Expr.eval, hpos]
        | some pos => simp [Expr.eval, hpos, hhdr]
      simp only [Directive.offset, heval, Directive.symbol, Option.isSome_map]
        at hsome ⊢
      obtain ⟨pos, hpos⟩ := Option.isSome_iff_exists.mp hsome
      rw [hpos]
      simpa using ofNat_emod pos

theorem load_record (directive : Directive) (address : Label → Option ℕ)
    (rest : List Byte) :
    load 8 1 (directive.record address ++ rest) = [directive.type] := by
  simp [load, Directive.record]

theorem read_record (hfits : directive.Fits) (hhdr : address .hdr = some 0)
    (hsome : (directive.offset.eval address).isSome) :
    Symbol.read (directive.record address) = some (directive.symbol address) := by
  have hname : directive.name.length + 10 ≤ 32 := hfits.2.1
  obtain ⟨zeros, hzeros⟩ : ∃ zeros, 23 - directive.name.length = zeros + 1 :=
    ⟨22 - directive.name.length, by omega⟩
  have hfield : load 9 23 (directive.record address) =
      directive.name ++ List.replicate (zeros + 1) 0 := by
    have hlength : (directive.name ++ List.replicate (zeros + 1) (0 : Byte)).length = 23 := by
      simp only [List.length_append, List.length_replicate]
      omega
    simp only [load, Directive.record, List.append_assoc, List.cons_append,
      List.drop_append, length_leBytes, hzeros]
    rw [List.drop_eq_nil_of_le (by simp)]
    simpa using List.take_of_length_le hlength.le
  have hoffset : load 0 8 (directive.record address) =
      leBytes 8 (((directive.offset.eval address).getD 0) % 256 ^ 8).toNat := by
    simp [load, Directive.record]
  have htype : load 8 1 (directive.record address) = [directive.type] := by
    simpa using load_record directive address []
  rw [Symbol.read, hfield, cstring_zeros hfits.2.2, hoffset, htype, Option.map_some,
    ofNat_leValue, offset_eq hhdr hsome]
  rfl

theorem type_ne_zero (directive : Directive) : directive.type ≠ 0 := by
  cases directive with
  | LOAD lib => exact (by decide : '+'.toUInt8 ≠ 0)
  | IMPORT sym => exact (by decide : '?'.toUInt8 ≠ 0)
  | EXPORT sym => exact (by decide : '#'.toUInt8 ≠ 0)

/-- The walk reads the records and stops at the zero record. -/
theorem walk_table (hfits : ∀ directive ∈ directives, directive.Fits)
    (hhdr : address .hdr = some 0)
    (hsome : ∀ directive ∈ directives, (directive.offset.eval address).isSome)
    {rounds : ℕ} (hrounds : directives.length < rounds) (more : List Byte) :
    walk rounds (directives.flatMap (Directive.record address) ++
        List.replicate REC_SZ 0 ++ more) =
      some (directives.map (Directive.symbol address)) := by
  induction directives generalizing rounds with
  | nil =>
      obtain ⟨rounds, rfl⟩ := Nat.exists_eq_add_of_lt hrounds
      have hlength : ¬ (List.replicate REC_SZ (0 : Byte) ++ more).length < REC_SZ := by
        simp
      rw [List.flatMap_nil, List.nil_append, walk, if_neg hlength, if_pos]
      · rfl
      · simp [load, List.replicate_succ]
  | cons directive directives ih =>
      obtain ⟨hfirst, hfits⟩ := List.forall_mem_cons.mp hfits
      obtain ⟨hvalue, hsome⟩ := List.forall_mem_cons.mp hsome
      have hlength := length_record address hfirst
      cases rounds with
      | zero => simp at hrounds
      | succ rounds =>
          have htake : ∀ rest, (directive.record address ++ rest).take REC_SZ =
              directive.record address := by
            intro rest
            rw [← hlength, List.take_left]
          have hdrop : ∀ rest, (directive.record address ++ rest).drop REC_SZ =
              rest := by
            intro rest
            rw [← hlength, List.drop_left]
          rw [List.flatMap_cons, List.append_assoc, List.append_assoc, walk,
            if_neg (by rw [List.length_append, hlength]; omega), load_record,
            if_neg (by simpa using type_ne_zero directive), htake, hdrop,
            read_record hfirst hhdr hvalue, ← List.append_assoc,
            ih hfits hsome (by simpa using hrounds)]
          rfl

end Walk

/-! ## Assembled files -/

section Assembled

variable {directives : List Directive} {code : List Stmt} {image : List Byte}

/-- `DL_HEAD` and what follows it. -/
theorem emitAll_head {address : Label → Option ℕ} {rest : List Stmt}
    (hemit : Stmt.emitAll address 0 (DL_HEAD ++ rest) = some image) :
    ∃ size off more, (Expr.diff .stop .hdr).eval address = some size ∧
      (Expr.diff .code .hdr).eval address = some off ∧
      Stmt.emitAll address hdrSize rest = some more ∧
      image = magic ++ leBytes 4 (size % 256 ^ 4).toNat ++
        leBytes 4 (off % 256 ^ 4).toNat ++ more := by
  obtain ⟨_, _, hlabel, hfirst, rfl⟩ := emitAll_cons.mp hemit
  obtain ⟨_, _, hmagic, hsecond, rfl⟩ := emitAll_cons.mp hfirst
  obtain ⟨_, _, hsize, hthird, rfl⟩ := emitAll_cons.mp hsecond
  obtain ⟨_, more, hoff, hmore, rfl⟩ := emitAll_cons.mp hthird
  cases hlabel
  cases hmagic
  obtain ⟨size, hsizeEval, rfl⟩ := Option.map_eq_some_iff.mp hsize
  obtain ⟨off, hoffEval, rfl⟩ := Option.map_eq_some_iff.mp hoff
  exact ⟨size, off, more, hsizeEval, hoffEval, hmore, by simp⟩

/-- The header that `DL_HEAD` writes. -/
theorem read_header (size off : ℕ) (more : List Byte) :
    Header.read (magic ++ leBytes 4 ((size : ℤ) % 256 ^ 4).toNat ++
        leBytes 4 ((off : ℤ) % 256 ^ 4).toNat ++ more) =
      ⟨magic, size % 2 ^ 32, off % 2 ^ 32⟩ := by
  have hvalue : ∀ value : ℕ, leValue (leBytes 4 ((value : ℤ) % 256 ^ 4).toNat) =
      value % 2 ^ 32 := by
    intro value
    rw [leValue_leBytes]
    have hcast : ((value : ℤ) % 256 ^ 4).toNat = value % 256 ^ 4 := rfl
    rw [hcast, Nat.mod_mod]
    norm_num
  have hfirst : load 4 4 (magic ++ leBytes 4 ((size : ℤ) % 256 ^ 4).toNat ++
      leBytes 4 ((off : ℤ) % 256 ^ 4).toNat ++ more) =
        leBytes 4 ((size : ℤ) % 256 ^ 4).toNat := by
    simp [load, magic]
  have hsecond : load 8 4 (magic ++ leBytes 4 ((size : ℤ) % 256 ^ 4).toNat ++
      leBytes 4 ((off : ℤ) % 256 ^ 4).toNat ++ more) =
        leBytes 4 ((off : ℤ) % 256 ^ 4).toNat := by
    simp [load, magic]
  rw [Header.read, hfirst, hsecond, hvalue, hvalue]
  rfl

theorem eval_diff_hdr {address : Label → Option ℕ} {name : Label} {value : ℤ}
    {pos : ℕ} (hhdr : address .hdr = some 0) (hname : address name = some pos)
    (heval : (Expr.diff name .hdr).eval address = some value) : value = pos := by
  simpa [Expr.eval, hhdr, hname, eq_comm] using heval

/-- Everything in the image except the bytes 12 to 31 survives the stores. -/
theorem storeDlib_spec (table path : UInt64) (hlength : 32 ≤ image.length) :
    Header.read (storeDlib table path image) = Header.read image ∧
      symtab (storeDlib table path image) = symtab image := by
  have hfirst : 16 + (leBytes 8 table.toNat).length ≤ image.length := by
    rw [length_leBytes]
    omega
  have hsecond : 24 + (leBytes 8 path.toNat).length ≤
      (store 16 (leBytes 8 table.toNat) image).length := by
    rw [length_store hfirst, length_leBytes]
    omega
  have hhead : (storeDlib table path image).take hdrSize = image.take hdrSize := by
    rw [storeDlib, take_store hsecond (by decide), take_store hfirst (by decide)]
  have hload : ∀ pos count, pos + count ≤ hdrSize →
      load pos count (storeDlib table path image) = load pos count image := by
    intro pos count hle
    have hcut : ∀ other : List Byte,
        load pos count other = load pos count (other.take hdrSize) := by
      intro other
      rw [load, load, List.drop_take, List.take_take, min_eq_left (by omega)]
    rw [hcut, hhead, ← hcut]
  constructor
  · rw [Header.read, hload 0 4 (by decide), hload 4 4 (by decide),
      hload 8 4 (by decide)]
    rfl
  · rw [symtab, symtab, storeDlib, length_store hsecond, length_store hfirst,
      drop_store hsecond (by simp [REC_SZ]), drop_store hfirst (by simp [REC_SZ])]

/-- The labels of a file, with their addresses. -/
def addresses (directives : List Directive) (code : List Stmt) (name : Label) :
    Option ℕ :=
  Stmt.address name 0 (source directives code)

theorem source_eq (directives : List Directive) (code : List Stmt) :
    source directives code = DL_HEAD ++
      (directives.flatMap Directive.expand ++ (DL_CODE ++ (code ++ DL_END))) := by
  simp [source]

theorem addresses_hdr : addresses directives code .hdr = some 0 := by
  simp [addresses, source_eq, DL_HEAD, Stmt.address]

theorem addresses_code (hfits : ∀ directive ∈ directives, directive.Fits) :
    addresses directives code .code =
      some (REC_SZ + REC_SZ * directives.length + REC_SZ) := by
  have htable : Stmt.address .code hdrSize (directives.flatMap Directive.expand ++
      (DL_CODE ++ (code ++ DL_END))) =
        some (REC_SZ + REC_SZ * directives.length + REC_SZ) :=
    address_code hfits (by decide)
  rw [addresses, source_eq]
  exact htable

theorem addresses_stop (himage : assemble (source directives code) = some image) :
    addresses directives code .stop = some image.length := by
  rw [assemble] at himage
  split_ifs at himage with hlabels
  have hsplit : source directives code = DL_HEAD ++ directives.flatMap Directive.expand ++
      DL_CODE ++ code ++ [.label .stop] := rfl
  have hnew : .stop ∉ Stmt.labels (DL_HEAD ++ directives.flatMap Directive.expand ++
      DL_CODE ++ code) := by
    rw [hsplit, Stmt.labels, List.filterMap_append, List.nodup_append] at hlabels
    intro hmem
    exact hlabels.2.2 _ hmem _ List.mem_cons_self rfl
  rw [hsplit] at himage
  have hlast := address_last hnew himage
  rw [Nat.zero_add] at hlast
  exact hlast

/-- The whole file: the first record with the header, the table, the zero
record and the code. -/
theorem image_layout (hfits : ∀ directive ∈ directives, directive.Fits)
    (himage : assemble (source directives code) = some image) :
    (∀ directive ∈ directives,
      (directive.offset.eval (addresses directives code)).isSome) ∧
      Header.read image = ⟨magic, image.length % 2 ^ 32,
        (REC_SZ + REC_SZ * directives.length + REC_SZ) % 2 ^ 32⟩ ∧
      ∃ head last, head.length = REC_SZ ∧ image = head ++
        (directives.flatMap (Directive.record (addresses directives code)) ++
          List.replicate REC_SZ 0 ++ last) := by
  have hstop := addresses_stop himage
  rw [assemble] at himage
  split_ifs at himage with hlabels
  rw [source_eq] at himage
  obtain ⟨size, off, more, hsize, hoff, hmore, hbytes⟩ := emitAll_head himage
  rw [← source_eq] at hsize hoff hmore
  have hsize := eval_diff_hdr addresses_hdr hstop hsize
  have hoff := eval_diff_hdr addresses_hdr (addresses_code hfits) hoff
  rw [hsize, hoff] at hbytes
  obtain ⟨hsome, last, rfl⟩ := emitAll_table hfits (by decide) hmore
  refine ⟨hsome, ?_, magic ++ leBytes 4 ((image.length : ℤ) % 256 ^ 4).toNat ++
    leBytes 4 (((REC_SZ + REC_SZ * directives.length + REC_SZ : ℕ) : ℤ) %
      256 ^ 4).toNat ++ List.replicate (padding REC_SZ hdrSize) 0, last, ?_, ?_⟩
  · have hread := congrArg Header.read hbytes
    rwa [read_header] at hread
  · simp [magic, padding, REC_SZ, hdrSize]
  · simp only [List.append_assoc] at hbytes ⊢
    exact hbytes

theorem exported_defined {address : Label → Option ℕ} {sym : List Byte}
    (hsome : ((Directive.EXPORT sym).offset.eval address).isSome) :
    (address (.sym sym)).isSome := by
  cases hpos : address (.sym sym) with
  | none => simp [Directive.offset, Expr.eval, hpos] at hsome
  | some pos => rfl

theorem length_table (address : Label → Option ℕ)
    (hfits : ∀ directive ∈ directives, directive.Fits) :
    (directives.flatMap (Directive.record address)).length =
      REC_SZ * directives.length := by
  induction directives with
  | nil => rfl
  | cons directive directives ih =>
      obtain ⟨hfirst, hrest⟩ := List.forall_mem_cons.mp hfits
      rw [List.flatMap_cons, List.length_append, length_record address hfirst, ih hrest,
        List.length_cons]
      ring

/-- The table that the assembler lays out is the table that the loader walks. -/
theorem assembled_table_reads_back (directives : List Directive)
    (code : List Stmt) (image : List Byte)
    (hfits : ∀ directive ∈ directives, directive.Fits)
    (himage : assemble (source directives code) = some image) :
    ∃ code_off, addresses directives code .hdr = some 0 ∧
      addresses directives code .code = some code_off ∧
      (∀ sym, .EXPORT sym ∈ directives →
        (addresses directives code (.sym sym)).isSome) ∧
      symtab image =
        some (directives.map (Directive.symbol (addresses directives code))) ∧
      load (REC_SZ + REC_SZ * directives.length) REC_SZ image =
        List.replicate REC_SZ 0 ∧
      REC_SZ + REC_SZ * directives.length + REC_SZ ≤ code_off ∧
      code_off % REC_SZ = 0 ∧
      Header.read image = ⟨magic, image.length % 2 ^ 32, code_off % 2 ^ 32⟩ ∧
      ∀ table path,
        Header.read (storeDlib table path image) = Header.read image ∧
          symtab (storeDlib table path image) = symtab image := by
  obtain ⟨hsome, hheader, head, last, hhead, hlayout⟩ := image_layout hfits himage
  have hlength : image.length = REC_SZ +
      (REC_SZ * directives.length + REC_SZ + last.length) := by
    rw [hlayout]
    simp only [List.length_append, hhead, length_table _ hfits, List.length_replicate]
  have htable : image.drop REC_SZ =
      directives.flatMap (Directive.record (addresses directives code)) ++
        List.replicate REC_SZ 0 ++ last := by
    rw [hlayout, ← hhead, List.drop_left]
  refine ⟨_, addresses_hdr, addresses_code hfits,
    fun sym hsym => exported_defined (hsome _ hsym), ?_, ?_, le_rfl, ?_, hheader,
    fun table path => storeDlib_spec table path ?_⟩
  · rw [symtab, htable]
    refine walk_table hfits addresses_hdr hsome ?_ last
    simp only [hlength, REC_SZ]
    omega
  · rw [load, ← List.drop_drop, htable, List.append_assoc,
      ← length_table (addresses directives code) hfits, List.drop_left]
    exact List.take_left' (by simp)
  · simp only [REC_SZ]
    omega
  · simp only [hlength, REC_SZ]
    omega

end Assembled

/-- The table of `libhello.S`. -/
def libhello : List Directive :=
  [.LOAD (bytes "libc.dl"), .IMPORT (bytes "putchar"), .EXPORT (bytes "hello")]

theorem assembled_libhello :
    (∀ directive ∈ libhello, directive.Fits) ∧
      ∃ image, assemble (source libhello
          [.label (.sym (bytes "hello")), .ascii [0xc3]]) = some image ∧
        symtab image = some [⟨0, '+'.toUInt8, bytes "libc.dl"⟩,
          ⟨0, '?'.toUInt8, bytes "putchar"⟩, ⟨160, '#'.toUInt8, bytes "hello"⟩] := by
  have hfits : ∀ directive ∈ libhello, directive.Fits := by
    simp only [Directive.Fits]
    decide
  have hassembled : (assemble (source libhello
      [.label (.sym (bytes "hello")), .ascii [0xc3]])).isSome := by
    decide +kernel
  obtain ⟨image, himage⟩ := Option.isSome_iff_exists.mp hassembled
  obtain ⟨_, -, -, -, hsymtab, -⟩ := assembled_table_reads_back _ _ image hfits himage
  refine ⟨hfits, image, himage, hsymtab.trans ?_⟩
  decide +kernel

end JyyOS.Dl
