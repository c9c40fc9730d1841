import AnglOS.AddressSpace
import AnglOS.Mmu

/-!
# Loading Programs

`elfLoad` of `user/elf.c`: for every program header the loader adds an entry to the address
space, which maps the pages, clears and fills them through their virtual addresses, and gives
them their final flags.

* `ElfProgram`, `elfProgram` — the program headers.
* `ElfLoader` — the state of the loader: the paging layer, the address space, and a record of the
  accesses. A write that the processor does not accept stops the loader (`fault`).
* `elfSegment`, `elfLoop`, `elfLoad` — the loader.

The file is a sequence of bytes in kernel memory, indexed by the offset from its first byte; what
follows it in memory is part of the sequence, and offsets are 64-bit numbers. The loader reads it
through the kernel half and is assumed to find it unchanged until the kernel half is changed.
-/

namespace AnglOS

/-- `ELF_SEGMENT_LOAD`. -/
abbrev elfSegmentLoad : ℕ := 1
/-- `ELF_FLAG_EXECUTABLE`. -/
abbrev elfFlagExecutable : BitVec 32 := 1
/-- `ELF_FLAG_WRITEABLE`. -/
abbrev elfFlagWriteable : BitVec 32 := 2

/-! ### The file -/

/-- The bytes of a file and of the memory after it. -/
abbrev FileBytes := ℕ → BitVec 8

/-- The little-endian number in the `n` bytes at `pos`. -/
def FileBytes.number (file : FileBytes) (pos : ℕ) : ℕ → ℕ
  | 0 => 0
  | n + 1 => (file (pos % 2 ^ 64)).toNat + 256 * FileBytes.number file (pos + 1) n

/-- `strncmp`, which does not stop at the end of a string. -/
def strncmp (s₁ s₂ : FileBytes) : ℕ → ℤ
  | 0 => 0
  | n + 1 =>
      if s₁ 0 ≠ s₂ 0 then (s₁ 0).toNat - (s₂ 0).toNat
      else strncmp (fun k => s₁ (k + 1)) (fun k => s₂ (k + 1)) n

/-- The magic number of `elfLoad`. -/
def elfMagic : FileBytes := fun k => [0x7F, 0x45, 0x4C, 0x46].getD k 0

/-- `elf_header_t`, without the fields that nothing reads. -/
structure ElfHeader where
  programEntryPos : ℕ
  programHeaderTablePos : ℕ
  programHeaderNumEntries : ℕ

/-- The header of a file. -/
def elfHeader (file : FileBytes) : ElfHeader where
  programEntryPos := file.number 24 8
  programHeaderTablePos := file.number 32 8
  programHeaderNumEntries := file.number 56 2

/-- `elf_program_t`, without the fields that nothing reads. -/
structure ElfProgram where
  type : ℕ
  flags : BitVec 32
  offset : ℕ
  vaddr : ℕ
  sizeFile : ℕ
  sizeMem : ℕ

/-- `segments[i]`. -/
def elfProgram (file : FileBytes) (i : ℕ) : ElfProgram :=
  let pos := (elfHeader file).programHeaderTablePos + 56 * i
  { type := file.number pos 4
    flags := BitVec.ofNat 32 (file.number (pos + 4) 4)
    offset := file.number (pos + 8) 8
    vaddr := file.number (pos + 16) 8
    sizeFile := file.number (pos + 32) 8
    sizeMem := file.number (pos + 40) 8 }

/-! ### The loader -/

/-- The state of the loader. -/
structure ElfLoader where
  paging : Paging
  space : AddressSpace
  /-- A write was not accepted, and the loader does not go on. -/
  fault : Bool
  /-- The addresses through which bytes were written. -/
  writes : List ℕ
  /-- The offsets of the bytes that were copied, with the segment they were copied for. -/
  reads : List (ℕ × ℕ)

namespace ElfLoader

/-- Write a byte through its virtual address. -/
def put (v : ℕ) (b : BitVec 8) (l : ElfLoader) : ElfLoader :=
  if l.fault then l
  else
    match l.paging.writeAddress v with
    | none => { l with fault := true }
    | some a => { l with paging := l.paging.setByte a b, writes := l.writes ++ [v] }

/-- Read a byte of the file for segment `i`. -/
def get (i pos : ℕ) (l : ElfLoader) : ElfLoader :=
  if l.fault then l else { l with reads := l.reads ++ [(i, pos)] }

/-- `memset`, through virtual addresses. -/
def memset (s : ℕ) (c : BitVec 8) (n : ℕ) (l : ElfLoader) : ElfLoader :=
  loop (fun k => put (add64 s k) c) n l

/-- `memcpy` from the file, through virtual addresses. -/
def memcpy (file : FileBytes) (i dest src n : ℕ) (l : ElfLoader) : ElfLoader :=
  loop (fun k l => put (add64 dest k) (file (add64 src k)) (get i (add64 src k) l)) n l

end ElfLoader

/-- The flags that a segment ends up with. -/
def elfFlags (segment : ElfProgram) : BitVec 32 :=
  let flags := addrspaceFlagUser
  let flags := if segment.flags &&& elfFlagWriteable ≠ 0 then flags ||| addrspaceFlagWriteable
    else flags
  if segment.flags &&& elfFlagExecutable ≠ 0 then flags ||| addrspaceFlagExecutable else flags

/-- One round of the loop of `elfLoad`, for a segment of type `LOAD`. The type of the entry is an
uninitialised variable of the source. -/
def elfSegment (file : FileBytes) (type : AddrspaceType) (i : ℕ) (segment : ElfProgram)
    (l : ElfLoader) : ElfLoader :=
  if l.fault then l
  else
    let r := addressSpaceAddEntry l.space type
      (addrspaceFlagUser ||| addrspaceFlagWriteable ||| addrspaceFlagExecutable)
      segment.sizeMem segment.vaddr l.paging
    let l := { l with space := r.1, paging := r.2 }
    let l := l.memset segment.vaddr 0 segment.sizeMem
    let l := l.memcpy file i segment.vaddr segment.offset segment.sizeMem
    if l.fault then l
    else
      match addressSpaceChangeFlags l.space i (elfFlags segment) l.paging with
      | some (_, space, paging) => { l with space := space, paging := paging }
      | none => l

/-- The loop of `elfLoad` over the program headers, which ends at the first one that is not of
type `LOAD`. -/
def elfLoop (file : FileBytes) (type : AddrspaceType) : ℕ → ElfLoader → Bool × ElfLoader
  | 0, l => (true, l)
  | n + 1, l =>
      match elfLoop file type n l with
      | (false, l) => (false, l)
      | (true, l) =>
          if (elfProgram file n).type = elfSegmentLoad then
            (true, elfSegment file type n (elfProgram file n) l)
          else (false, l)

/-- `elfLoad`, with `none` for a file that is `NULL`. The result is `none` if the loader does not
return. -/
def elfLoad (space : AddressSpace) (file : Option FileBytes) (type : AddrspaceType) (s : Paging) :
    Option ℕ × ElfLoader :=
  let l : ElfLoader := ⟨s, space, false, [], []⟩
  match file with
  | none => (some (2 ^ 64 - 1), l)
  | some file =>
      if strncmp file elfMagic 4 ≠ 0 then (some (2 ^ 64 - 1), l)
      else
        match elfLoop file type (elfHeader file).programHeaderNumEntries l with
        | (ok, l) =>
            (if l.fault then none
              else if ok then some (elfHeader file).programEntryPos else some (2 ^ 64 - 1), l)

end AnglOS
