import JyyOS.Dl.Image

/-!
# `dlopen` and what it calls

The loader keeps two tables for the whole process: the names of the libraries
that some LOAD record asked for, and the exported symbols.  `dlopen` walks the
records of a library and acts on each at once; a LOAD record makes it call
itself through `dlload`.

What the system calls return is a parameter, one answer for each call of
`dlopen`: a call comes from the command line or from the one LOAD record that
entered its name into `libs`.
-/

namespace JyyOS.Dl

open JyyOS.ByteImage

abbrev Path := List Byte

instance : LawfulBEq Path := inferInstanceAs (LawfulBEq (List Byte))

/-- A call of `dlopen`: for an argument of the command line, or from
`dlload`. -/
inductive Call where
  | top (index : ℕ) (path : Path)
  | load (name : Path)
deriving DecidableEq

def Call.path : Call → Path
  | top _ path => path
  | load name => name

/-! ## The system -/

/-- Files and the results of system calls. -/
structure Env where
  content : Path → List Byte
  /-- `open` returns this descriptor, or a negative number. -/
  openFd : Call → ℤ
  /-- `read` returns this count, or -1. -/
  read : Call → ℤ
  read_le : ∀ call, read call ≤ hdrSize ∧ read call ≤ (content call.path).length
  /-- What the stack holds where the local variable `hdr` lies. -/
  stale : Call → List Byte
  /-- The address that `mmap` returns; `none` is `MAP_FAILED`. -/
  mmap : Call → Option UInt64

abbrev pageSize := 4096

/-- The file content that a mapping of `size` bytes shows: whole pages, zeros
behind the end of the file. -/
def pages (size : ℕ) (content : List Byte) : List Byte :=
  (content ++ List.replicate (padding pageSize content.length) 0).take
    (size + padding pageSize size)

namespace Env

variable (env : Env)

/-- The variable `hdr` after `read`. -/
def hdr (call : Call) : List Byte :=
  (env.content call.path).take (env.read call).toNat ++
    (env.stale call).drop (env.read call).toNat

/-- `read(...) < sizeof(hdr)`, which compares unsigned numbers. -/
def ShortRead (call : Call) : Prop := env.read call % 2 ^ 64 < hdrSize

instance (call : Call) : Decidable (env.ShortRead call) :=
  inferInstanceAs (Decidable (_ < _))

/-- The records of the mapped file.  The pointers that `dlopen` stores in the
first 32 bytes leave them as they are. -/
def table (call : Call) : Option (List Symbol) :=
  symtab (pages (Header.read (env.hdr call)).file_sz (env.content call.path))

end Env

/-! ## Tables -/

/-- An entry of `syms`; it is free while its name is empty. -/
structure Entry where
  offset : UInt64
  name : Path
deriving DecidableEq

/-- A mapped library. -/
structure Mapping where
  call : Call
  base : UInt64
  symbols : List Symbol
deriving DecidableEq

/-- `LENGTH(libs)` -/
abbrev libsLength := 16

/-- `LENGTH(syms)` -/
abbrev symsLength := 128

structure Loader where
  /-- The names of the filled slots of `libs`, which are filled in order. -/
  libs : List Path
  syms : List Entry
  maps : List Mapping
  /-- The calls of `dlopen` so far. -/
  opens : List Call
  /-- Those that returned NULL. -/
  failed : List Call
  /-- The libraries that were returned, by their index in `maps`. -/
  returned : List ℕ
deriving DecidableEq

def Loader.init : Loader where
  libs := []
  syms := List.replicate symsLength ⟨0, []⟩
  maps := []
  opens := []
  failed := []
  returned := []

/-- Why a run of the loader ends early. -/
inductive Stop where
  /-- `assert(0)` -/
  | assert
  /-- `exit(1)` in `dlopen_chk` -/
  | exit
  /-- The table has no end or a name without one. -/
  | fault
  | fuel
deriving DecidableEq

abbrev Load := EStateM Stop Loader

/-! ## The code -/

def dlsym (name : Path) : Load UInt64 := do
  match (← get).syms.find? (fun entry => entry.name = name) with
  | some entry => return entry.offset
  | none => throw .assert

def dlexport (name : Path) (addr : UInt64) : Load Unit := do
  match (← get).syms.findIdx? (fun entry => entry.name = []) with
  | some i =>
      modify fun loader => { loader with syms := loader.syms.set i ⟨addr, name⟩ }
  | none => throw .assert

/-- `dlopen` is passed in, for it calls `dlload` in turn. -/
def dlload (dlopen : Path → Load (Option ℕ)) (sym : Symbol) : Load Unit := do
  let libs := (← get).libs
  if sym.name ∈ libs then return
  else if libs.length < libsLength then
    modify fun loader => { loader with libs := loader.libs ++ [sym.name] }
    let _ ← dlopen sym.name
  else throw .assert

/-- `sym->offset = addr` for a record of a mapped library. -/
def Loader.patch (loader : Loader) (h k : ℕ) (addr : UInt64) : Loader :=
  { loader with
    maps := loader.maps.modify h fun mapping =>
      { mapping with
        symbols := mapping.symbols.modify k fun sym => { sym with offset := addr } } }

/-- The loop of `dlopen` over the records of the library `h`, from record `k`
on. -/
def walkSymbols (dlopen : Path → Load (Option ℕ)) (h : ℕ) (base : UInt64) :
    ℕ → List Symbol → Load Unit
  | _, [] => return
  | k, sym :: symbols => do
      if sym.type = '+'.toUInt8 then dlload dlopen sym
      else if sym.type = '?'.toUInt8 then
        let addr ← dlsym sym.name
        modify fun loader => loader.patch h k addr
      else if sym.type = '#'.toUInt8 then dlexport sym.name (base + sym.offset)
      walkSymbols dlopen h base (k + 1) symbols

/-- `bad:`, where `dlopen` returns NULL. -/
def bad (call : Call) : Load (Option ℕ) := do
  modify fun loader => { loader with failed := loader.failed ++ [call] }
  return none

/-- The library is returned as its index in `maps`, NULL as `none`. -/
def dlopen (env : Env) : ℕ → Call → Load (Option ℕ)
  | 0, _ => throw .fuel
  | fuel + 1, call => do
      modify fun loader => { loader with opens := loader.opens ++ [call] }
      if env.openFd call < 0 then return ← bad call
      if env.ShortRead call then return ← bad call
      if (Header.read (env.hdr call)).magic ≠ magic then return ← bad call
      match env.mmap call with
      | none => bad call
      | some base =>
          match env.table call with
          | none => throw .fault
          | some symbols =>
              let h := (← get).maps.length
              modify fun loader =>
                { loader with maps := loader.maps ++ [⟨call, base, symbols⟩] }
              walkSymbols (fun name => dlopen env fuel (.load name)) h base 0 symbols
              modify fun loader => { loader with returned := loader.returned ++ [h] }
              return some h

def dlopen_chk (env : Env) (fuel : ℕ) (call : Call) : Load ℕ := do
  match ← dlopen env fuel call with
  | some h => return h
  | none => throw .exit

/-- The entry point that `dl_interp` finds: the last record named `main`. -/
def entryOf (mapping : Mapping) : Option UInt64 :=
  mapping.symbols.foldl (fun entry sym =>
    if sym.name = bytes "main" then some (mapping.base + sym.offset) else entry) none

/-- `dl_interp` up to the call of the entry point. -/
def dl_interp (env : Env) (fuel : ℕ) (path : Path) : Load (Option UInt64) := do
  let h ← dlopen_chk env fuel (.top 0 path)
  return (← get).maps[h]?.bind entryOf

/-- `dl_readdl` and `dl_objdump` for the arguments of the command line, as far
as they concern the loader. -/
def openAll (env : Env) (fuel : ℕ) : ℕ → List Path → Load Unit
  | _, [] => return
  | index, path :: paths => do
      let _ ← dlopen_chk env fuel (.top index path)
      openAll env fuel (index + 1) paths

end JyyOS.Dl
