import AnglOS.Loop
import AnglOS.Memory

/-!
# The Physical Page Allocator

The model of `kernel/mm/pmm/pmm.c`: a buddy allocator over seven bitmaps that are stored
back to back in physical memory. Level `i` has one bit for every aligned block of `2 ^ i`
pages; a clear bit is a free block. The bitmaps live in byte memory, so an index past the
end of a level reads or writes the bytes of the next one, as it does in C.

Counters are 64-bit and wrap. Two ghost fields record what the C state does not hold:
`log` lists every bit access as a pair of a level and an index, and `underflow` is set
when the counter of a level is decreased below zero.
-/

namespace AnglOS

/-- `PAGE_SIZE`. -/
abbrev pageSize : ℕ := 4096

/-- `NUM_BITMAPS`. -/
abbrev numBitmaps : ℕ := 7

/-- The `LIMINE_MEMMAP_*` types of a memory-map entry. -/
inductive MemmapType
  | usable
  | reserved
  | acpiReclaimable
  | acpiNvs
  | badMemory
  | bootloaderReclaimable
  | kernelAndModules
  | framebuffer
  deriving DecidableEq, Repr

/-- `struct limine_memmap_entry`. -/
structure MemmapEntry where
  base : ℕ
  length : ℕ
  type : MemmapType
  deriving DecidableEq, Repr

/-- `bitmap_stat_t`: where a level is stored, its number of clear bits, and its size in
bytes. -/
structure BitmapStat where
  base : ℕ
  free : ℕ
  size : ℕ

/-- The static variables of `pmm.c`, the memory that holds the bitmaps, and the ghost
fields. Of `bitmaps` the rows `0`, …, `6` are used. -/
structure Pmm where
  mmapEntries : List MemmapEntry
  memSize : ℕ
  bitmapSize : ℕ
  bitmapBase : ℕ
  freeMem : ℕ
  bitmaps : ℕ → BitmapStat
  mem : Mem
  log : List (ℕ × ℕ)
  underflow : Bool

/-! ### Bits -/

/-- `pmmSetBit`. -/
def pmmSetBit (m : Mem) (base index : ℕ) : Mem :=
  m.store8 (base + index / 8) (m (base + index / 8) ||| 1#8 <<< (index % 8))

/-- `pmmClearBit`. -/
def pmmClearBit (m : Mem) (base index : ℕ) : Mem :=
  m.store8 (base + index / 8) (m (base + index / 8) &&& ~~~(1#8 <<< (index % 8)))

/-- `pmmCheckBit`. -/
def pmmCheckBit (m : Mem) (base index : ℕ) : Bool :=
  (m (base + index / 8) >>> (index % 8)) &&& 1#8 != 0#8

namespace Pmm

/-- The bit of `bitmaps[i].base` at `j`. -/
def bit (s : Pmm) (i j : ℕ) : Bool :=
  pmmCheckBit s.mem (s.bitmaps i).base j

/-- Record an access to bit `j` of level `i`. -/
def touch (s : Pmm) (i j : ℕ) : Pmm :=
  { s with log := (i, j) :: s.log }

/-- `pmmCheckBit(bitmaps[i].base, j)`. -/
def checkBit (s : Pmm) (i j : ℕ) : Bool × Pmm :=
  (s.bit i j, s.touch i j)

/-- `pmmSetBit(bitmaps[i].base, j)`. -/
def setBit (s : Pmm) (i j : ℕ) : Pmm :=
  { s.touch i j with mem := pmmSetBit s.mem (s.bitmaps i).base j }

/-- `pmmClearBit(bitmaps[i].base, j)`. -/
def clearBit (s : Pmm) (i j : ℕ) : Pmm :=
  { s.touch i j with mem := pmmClearBit s.mem (s.bitmaps i).base j }

/-- `bitmaps[i].free += k`. -/
def addFree (s : Pmm) (i k : ℕ) : Pmm :=
  { s with
    bitmaps := Function.update s.bitmaps i
      { s.bitmaps i with free := add64 (s.bitmaps i).free k } }

/-- `bitmaps[i].free -= k`. -/
def subFree (s : Pmm) (i k : ℕ) : Pmm :=
  { s with
    bitmaps := Function.update s.bitmaps i
      { s.bitmaps i with free := sub64 (s.bitmaps i).free k }
    underflow := s.underflow || decide ((s.bitmaps i).free < k) }

/-- `bitmaps[i].size * 8`, the number of bits of level `i`. A size is at most `2 ^ 49`,
so the product does not wrap. -/
def bits (s : Pmm) (i : ℕ) : ℕ :=
  (s.bitmaps i).size * 8

end Pmm

/-! ### Allocation -/

/-- `pmmPropagateDown`: give back what the first `pages` pages leave of a block. -/
def pmmPropagateDown : Pmm → ℕ → ℕ → ℕ → Pmm
  | s, _, 0, _ => s
  | s, pages, level + 1, index =>
      if pages = 2 ^ (level + 1) then s
      else if pages ≤ 2 ^ level then
        ((pmmPropagateDown s pages level (index * 2)).clearBit level (index * 2 + 1)).addFree
          level 1
      else pmmPropagateDown s (pages - 2 ^ level) level (index * 2 + 1)

/-- The loop `while (tmp & (tmp - 1)) tmp = tmp & (tmp - 1)`, which clears all bits but the
highest. A 64-bit value needs at most 63 rounds. -/
def highestBit : ℕ → ℕ → ℕ
  | 0, tmp => tmp
  | fuel + 1, tmp => if tmp &&& (tmp - 1) ≠ 0 then highestBit fuel (tmp &&& (tmp - 1)) else tmp

/-- The loop `while (tmp >>= 1) index++`. A 64-bit value needs at most 63 rounds. -/
def countShifts : ℕ → ℕ → ℕ → ℕ
  | 0, _, index => index
  | fuel + 1, tmp, index =>
      if tmp >>> 1 ≠ 0 then countShifts fuel (tmp >>> 1) (index + 1) else index

/-- The search of one level for a clear bit, from bit `j` on over `r` bits. -/
def findClear (i : ℕ) : ℕ → ℕ → Pmm → Option ℕ × Pmm
  | 0, _, s => (none, s)
  | r + 1, j, s =>
      match s.checkBit i j with
      | (false, s) => (some j, s)
      | (true, s) => findClear i r (j + 1) s

/-- The branch of `pmalloc` for a clear bit `j` of level `i` whose parent is clear too. -/
def splitParent (i j : ℕ) (s : Pmm) : Pmm :=
  if i ≠ numBitmaps - 1 then
    match s.checkBit (i + 1) (j / 2) with
    | (false, s) =>
        (((s.setBit (i + 1) (j / 2)).subFree (i + 1) 1).clearBit i (j + 1)).addFree i 1
    | (true, s) => s
  else s

/-- What `pmalloc` does with the clear bit `j` it finds on level `i`. -/
def takeBlock (s : Pmm) (pages i j : ℕ) : Pmm :=
  let s := splitParent i j ((s.setBit i j).subFree i 1)
  let s := pmmPropagateDown s pages i j
  { s with freeMem := sub64 s.freeMem (pages * pageSize) }

/-- The loop of `pmalloc` over the levels from `i` on, `r` of them. -/
def searchLevels (pages : ℕ) : ℕ → ℕ → Pmm → ℕ × Pmm
  | 0, _, s => (0, s)
  | r + 1, i, s =>
      match findClear i (s.bits i) 0 s with
      | (some j, s) => (j * (pageSize <<< i), takeBlock s pages i j)
      | (none, s) => searchLevels pages r (i + 1) s

/-- `pmalloc`: the physical address of `pages` pages, or `0` for `NULL`. -/
def pmalloc (s : Pmm) (pages : ℕ) : ℕ × Pmm :=
  if pages = 0 then (0, s)
  else
    let tmp := (highestBit 64 (pages - 1) <<< 1) % 2 ^ 64
    if 1 <<< (numBitmaps - 1) < tmp then (0, s)
    else
      let index := countShifts 64 tmp 0
      searchLevels pages (numBitmaps - index) index s

/-! ### Freeing -/

/-- The body of both loops of `coalesce`: if the bits `l` and `r` of a level are clear,
clear the bit of their parent and set both. -/
def coalescePair (level l r parent : ℕ) (s : Pmm) : Pmm :=
  match s.checkBit level l with
  | (true, s) => s
  | (false, s) =>
      match s.checkBit level r with
      | (true, s) => s
      | (false, s) =>
          let s := (s.clearBit (level + 1) parent).addFree (level + 1) 1
          ((s.setBit level l).setBit level r).subFree level 2

/-- `coalesce`. Round `k` of its loops has `i = index + 2 * k`, and `i < index + pages`
for the first `(pages + 1) / 2` rounds. The recursion ends on level
`NUM_BITMAPS - 2`, so it is at most `fuel = NUM_BITMAPS - 1` calls deep. -/
def coalesce : ℕ → ℕ → ℕ → ℕ → Pmm → Pmm
  | 0, _, _, _, s => s
  | fuel + 1, pages, level, index, s =>
      if index % 2 = 0 then
        let s := loop (fun k => coalescePair level (index + 2 * k) (index + 2 * k + 1)
          ((index + 2 * k) / 2)) ((pages + 1) / 2) s
        if level + 1 ≠ numBitmaps - 1 then coalesce fuel (pages / 2) (level + 1) (index / 2) s
        else s
      else
        let s := loop (fun k => coalescePair level (index + 2 * k - 1) (index + 2 * k)
          ((index + 2 * k) / 2)) ((pages + 1) / 2) s
        if level + 1 ≠ numBitmaps - 1 then coalesce fuel (pages / 2) (level + 1) (index / 2) s
        else s

/-- `pfree`. -/
def pfree (s : Pmm) (pptr pages : ℕ) : Pmm :=
  if pptr = 0 ∨ pages = 0 then s
  else
    let index := pptr / pageSize
    let s := loop (fun k s => (s.clearBit 0 (index + k)).addFree 0 1) pages s
    let s := coalesce (numBitmaps - 1) pages 0 index s
    { s with freeMem := add64 s.freeMem (pages * pageSize) }

/-! ### Initialisation -/

/-- `pmmGetStatusFromMMap`: the type of the first entry that holds the page. -/
def pmmGetStatusFromMMap (entries : List MemmapEntry) (page : ℕ) : MemmapType :=
  match entries.find? fun e => decide (e.base / pageSize ≤ page ∧
      page < add64 e.base e.length / pageSize) with
  | some e => e.type
  | none => .reserved

/-- `mem_size`: the end of the last entry, less two gigabytes. -/
def memSizeOf (entries : List MemmapEntry) : ℕ :=
  match entries.getLast? with
  | some e => sub64 (add64 e.base e.length) (2 * 2 ^ 30)
  | none => 0

/-- `init_size`: the number of bytes of level `0`, which is `num_pages / 8`. -/
def initSize (entries : List MemmapEntry) : ℕ :=
  memSizeOf entries / pageSize / 8

/-- `bitmap_size`: the number of bytes of all levels. -/
def bitmapSizeOf (entries : List MemmapEntry) : ℕ :=
  loop (fun i n => n + initSize entries >>> i) numBitmaps 0

/-- The first usable entry that can hold the bitmaps. -/
def bitmapIndex (entries : List MemmapEntry) : Option ℕ :=
  entries.findIdx? fun e =>
    decide (bitmapSizeOf entries ≤ e.length) && decide (e.type = .usable)

/-- The bitmap table that `initPMM` sets up for level sizes `size >> i`. -/
def initBitmaps (base size : ℕ) : ℕ → BitmapStat
  | 0 => ⟨base, 0, size⟩
  | i + 1 => ⟨(initBitmaps base size i).base + (initBitmaps base size i).size, 0,
      size >>> (i + 1)⟩

/-- The loops of `initPMM` that set every bit. -/
def fillBitmaps (bitmaps : ℕ → BitmapStat) (m : Mem) : Mem :=
  loop (fun i => loop (fun j m => m.store8 ((bitmaps i).base + j) 0xFF#8) (bitmaps i).size)
    numBitmaps m

/-- The body of the loop of `initPMM` that marks the usable pages on level `0`. -/
def markUsable (entries : List MemmapEntry) (i : ℕ) (s : Pmm) : Pmm :=
  if pmmGetStatusFromMMap entries i = .usable then (s.clearBit 0 i).addFree 0 1 else s

/-- The body of the loops of `initPMM` that clear the bit of a block whose two halves are
clear. -/
def markParent (i j : ℕ) (s : Pmm) : Pmm :=
  match s.checkBit (i - 1) (j * 2) with
  | (true, s) => s
  | (false, s) =>
      match s.checkBit (i - 1) (j * 2 + 1) with
      | (true, s) => s
      | (false, s) => (s.clearBit i j).addFree i 1

/-- The body of the loops of `initPMM` that set the bit of a block whose parent is
clear. -/
def unmarkChild (i j : ℕ) (s : Pmm) : Pmm :=
  match s.checkBit (i + 1) (j / 2) with
  | (true, s) => s
  | (false, s) => (s.setBit i j).subFree i 1

/-- The loop of `initPMM` over the pages. -/
def markPages (s : Pmm) : Pmm :=
  loop (markUsable s.mmapEntries) (s.bits 0) s

/-- The loops of `initPMM` that merge the marked pages. -/
def markParents (s : Pmm) : Pmm :=
  loop (fun i s => loop (markParent (i + 1)) (s.bits (i + 1)) s) (numBitmaps - 1) s

/-- The loops of `initPMM` that keep only the largest blocks. -/
def unmarkChildren (s : Pmm) : Pmm :=
  loop (fun i s => loop (unmarkChild i) (s.bits i) s) (numBitmaps - 1) s

/-- The loop of `initPMM` that computes `free_mem`. -/
def countFreeMem (s : Pmm) : Pmm :=
  { s with
    freeMem := loop (fun i n => add64 n ((s.bitmaps i).free * (pageSize <<< i))) numBitmaps 0 }

/-- The state of `initPMM` before its passes over the bitmaps, with the bitmaps at the start
of the entry at `index`. -/
def initState (entries : List MemmapEntry) (m : Mem) (index : ℕ) (entry : MemmapEntry) : Pmm where
  mmapEntries := entries.set index { entry with
    base := add64 entry.base (bitmapSizeOf entries)
    length := entry.length - bitmapSizeOf entries }
  memSize := memSizeOf entries
  bitmapSize := bitmapSizeOf entries
  bitmapBase := entry.base
  freeMem := 0
  bitmaps := initBitmaps entry.base (initSize entries)
  mem := fillBitmaps (initBitmaps entry.base (initSize entries)) m
  log := []
  underflow := false

/-- `initPMM`, from the memory map of the bootloader and the contents of memory. It is
`none` when no usable entry can hold the bitmaps: the C code then reads past the end of
the map. -/
def initPMM (entries : List MemmapEntry) (m : Mem) : Option Pmm := do
  let index ← bitmapIndex entries
  let entry ← entries[index]?
  pure (countFreeMem (unmarkChildren (markParents (markPages
    (initState entries m index entry)))))

end AnglOS
