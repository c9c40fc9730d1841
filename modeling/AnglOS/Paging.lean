import AnglOS.PmmRun
import Mathlib.Data.BitVec

/-!
# Page Tables

The paging layer of `mm/paging/paging.c`: the bulk cache of physical frames, the four levels
of page tables in physical memory, and the operations that map, unmap and change pages. A
table is named by its physical address; the source reaches it through the direct map, which
adds `page_direct_base` to that address and takes it away again. Virtual addresses are
64-bit numbers, entries are 64-bit words.

* `Paging` — physical memory, the allocator, the bulk cache and the paging lock, with a
  record of what was allocated and freed.
* `pmallocBulk`, `pagingAllocTable`, `pagingAddEntry`, `pagingRemoveEntry` — the parts.
* `vmallocCR3`, `videntityCR3`, `vfreeCR3`, `vflagsCR3`, `pagingCreateUser`, `initPaging` —
  the operations.

The translation buffer is not modelled: a translation is what the tables in memory say. The page
tables and the bitmaps of the allocator are two memories here, `Paging.mem` and `Pmm.mem`: no frame
that holds a table or a data page is assumed to hold a bitmap.
-/

namespace AnglOS

/-! ### Constants -/

/-- `page_direct_base`. -/
abbrev pageDirectBase : ℕ := 0xFFFF800000000000
/-- `kernel_base`. -/
abbrev kernelBase : ℕ := 0xFFFFFFFF80000000
/-- `NUM_ALLOC`. -/
abbrev numAlloc : ℕ := 64

/-- `PAGE_FLAG_PRESENT`. -/
abbrev pageFlagPresent : BitVec 64 := 0x0000000000000001
/-- `PAGE_FLAG_READWRITE`. -/
abbrev pageFlagReadwrite : BitVec 64 := 0x0000000000000002
/-- `PAGE_FLAG_USERSUPER`. -/
abbrev pageFlagUsersuper : BitVec 64 := 0x0000000000000004
/-- `PAGE_FLAG_CACHEDBLE`. -/
abbrev pageFlagCachedble : BitVec 64 := 0x0000000000000010
/-- `PAGE_FLAG_EXECDBLE`. -/
abbrev pageFlagExecdble : BitVec 64 := 0x8000000000000000

/-- The flag bits that `paging.h` documents: bits 0 to 8 and the execute-disable bit. -/
abbrev pageFlags : BitVec 64 := 0x80000000000001FF

/-- The bits of an entry that hold a physical address. -/
abbrev frameMask : BitVec 64 := 0x000FFFFFFFFFF000

instance tableSize_neZero : NeZero 512 := ⟨by decide⟩

/-- `PAGE_P1E`. -/
def pageP1E (vptr : ℕ) : Fin 512 := Fin.ofNat 512 (vptr >>> 12)
/-- `PAGE_P2E`. -/
def pageP2E (vptr : ℕ) : Fin 512 := Fin.ofNat 512 (vptr >>> 21)
/-- `PAGE_P3E`. -/
def pageP3E (vptr : ℕ) : Fin 512 := Fin.ofNat 512 (vptr >>> 30)
/-- `PAGE_P4E`. -/
def pageP4E (vptr : ℕ) : Fin 512 := Fin.ofNat 512 (vptr >>> 39)

/-- `ALIGN_TO_PAGE`. -/
def alignToPage (vptr : ℕ) : ℕ := vptr / pageSize * pageSize

/-- `GET_NUM_PAGES`, in 64-bit arithmetic. -/
def getNumPages (size : ℕ) : ℕ := add64 size (pageSize - 1) / pageSize

/-- The physical address in an entry. -/
def frameOf (e : BitVec 64) : ℕ := (e &&& frameMask).toNat

/-! ### The state -/

/-- What the record of a run tells about the frames. -/
inductive PagingEvent
  /-- `pmalloc(NUM_ALLOC)` answered with this block, `0` for a failure. -/
  | block (pptr : ℕ)
  /-- A frame was issued as a table, and whether all its entries were zero then. -/
  | table (pptr : ℕ) (clean : Bool)
  /-- A frame was issued as a data page. -/
  | data (pptr : ℕ)
  /-- A frame was returned through `pfree`. -/
  | freed (pptr : ℕ)
  deriving DecidableEq

/-- The paging layer. -/
structure Paging where
  /-- Physical memory. -/
  mem : Mem
  /-- The physical allocator. -/
  pmm : Pmm
  /-- `bulk_alloc_ptrs`. -/
  bulk : ℕ → ℕ
  /-- `curr`, the index of the next frame of the cache. -/
  curr : ℕ
  /-- The physical address of the active top-level table. -/
  cr3 : ℕ
  /-- `bsp_cr3`, as a physical address. -/
  bspCr3 : ℕ
  /-- The paging lock is taken. -/
  lock : Bool
  /-- What was allocated and freed so far. -/
  log : List PagingEvent

namespace Paging

/-- Entry `i` of the table at `t`. -/
def entry (s : Paging) (t : ℕ) (i : Fin 512) : BitVec 64 := s.mem.load64 (t + 8 * i)

/-- Assign to entry `i` of the table at `t`. -/
def setEntry (s : Paging) (t : ℕ) (i : Fin 512) (e : BitVec 64) : Paging :=
  { s with mem := s.mem.store64 (t + 8 * i) e }

/-- Record an event. -/
def record (s : Paging) (e : PagingEvent) : Paging := { s with log := s.log ++ [e] }

/-- `pfree` of one frame. -/
def free (s : Paging) (pptr : ℕ) : Paging :=
  { s.record (.freed pptr) with pmm := pfree s.pmm pptr 1 }

end Paging

/-! ### Frames and entries -/

/-- `pmallocBulk`. -/
def pmallocBulk (s : Paging) : ℕ × Paging :=
  let s :=
    if s.curr + 1 = numAlloc then
      let r := pmalloc s.pmm numAlloc
      { s.record (.block r.1) with
        pmm := r.2
        bulk := fun i => if i < numAlloc then r.1 + i * pageSize else s.bulk i
        curr := 0 }
    else s
  (s.bulk s.curr, { s with curr := s.curr + 1 })

/-- The loop of `pagingAllocTable`, which stores to the first word of the frame each time. -/
def zeroTable (m : Mem) (pptr : ℕ) : Mem := loop (fun _ m => m.store64 pptr 0) 512 m

/-- `pagingAllocTable`. -/
def pagingAllocTable (s : Paging) : ℕ × Paging :=
  let r := pmallocBulk s
  let s := { r.2 with mem := zeroTable r.2.mem r.1 }
  (r.1, s.record (.table r.1 (decide (∀ i, s.entry r.1 i = 0))))

/-- `pagingFreeTable`. -/
def pagingFreeTable (s : Paging) (pptr : ℕ) : Paging := s.free pptr

/-- The word that `pagingAddEntry` stores. -/
def makeEntry (pptr : ℕ) (flags : BitVec 64) : BitVec 64 :=
  (BitVec.ofNat 64 pptr &&& ~~~0xFFF#64) ||| flags

/-- `pagingAddEntry`. -/
def pagingAddEntry (s : Paging) (table : ℕ) (i : Fin 512) (pptr : ℕ) (flags : BitVec 64) :
    Paging :=
  s.setEntry table i (makeEntry pptr flags)

/-- `pagingRemoveEntry`: nothing happens if the entry is not present or points outside of
memory; above level 1 the table it points to is emptied and freed. -/
def pagingRemoveEntry (doPfree : Bool) : ℕ → ℕ → Fin 512 → Paging → Paging
  | 0, _, _, s => s
  | level + 1, table, i, s =>
      let e := s.entry table i
      if e &&& 1 ≠ 1 then s
      else if s.pmm.memSize ≤ frameOf e then s
      else if level = 0 then
        let s := if doPfree then s.free (frameOf e) else s
        s.setEntry table i 0
      else
        let s := loop (fun k => pagingRemoveEntry doPfree level (frameOf e) (Fin.ofNat 512 k))
          512 s
        let s := pagingFreeTable s (frameOf e)
        s.setEntry table i 0

/-- `pagingSetCR3`. -/
def pagingSetCR3 (s : Paging) (pptr : ℕ) : Paging := { s with cr3 := pptr }

/-! ### Mapping -/

/-- One upper level of `vmallocHelper` and `videntityHelper`: a missing table is allocated and
entered, and the walk goes on in the table that the entry points to. -/
def pagingDescend (s : Paging) (table : ℕ) (i : Fin 512) (flags : BitVec 64) : ℕ × Paging :=
  let s :=
    if s.entry table i = 0 then
      let r := pagingAllocTable s
      pagingAddEntry r.2 table i r.1 flags
    else s
  (frameOf (s.entry table i), s)

/-- The three upper levels of `vmallocHelper` and `videntityHelper`: the level-1 table of a
page. -/
def pagingDescendTo (s : Paging) (vptr p4tp : ℕ) (flags : BitVec 64) : ℕ × Paging :=
  let p3 := pagingDescend s p4tp (pageP4E vptr) flags
  let p2 := pagingDescend p3.2 p3.1 (pageP3E vptr) flags
  pagingDescend p2.2 p2.1 (pageP2E vptr) flags

/-- `vmallocHelper`. -/
def vmallocHelper (vptr p4tp : ℕ) (flags : BitVec 64) (s : Paging) : ℕ × Paging :=
  let p1 := pagingDescendTo s vptr p4tp flags
  let r := pmallocBulk p1.2
  (vptr, pagingAddEntry (r.2.record (.data r.1)) p1.1 (pageP1E vptr) r.1 flags)

/-- `videntityHelper`. -/
def videntityHelper (vptr pptr p4tp : ℕ) (flags : BitVec 64) (s : Paging) : ℕ × Paging :=
  let p1 := pagingDescendTo s vptr p4tp flags
  (vptr, pagingAddEntry p1.2 p1.1 (pageP1E vptr) pptr flags)

/-- The loop of `vmalloc` and `videntity` over the pages, which stops after the first page for
which the helper returns `NULL`. -/
def mapLoop (body : ℕ → Paging → ℕ × Paging) : ℕ → Paging → Bool × Paging
  | 0, s => (true, s)
  | n + 1, s =>
      match mapLoop body n s with
      | (false, s) => (false, s)
      | (true, s) =>
          let r := body n s
          (decide (r.1 ≠ 0), r.2)

/-- `vmallocCR3`. -/
def vmallocCR3 (s : Paging) (vptr pages : ℕ) (flags : BitVec 64) (cr3 : ℕ) : ℕ × Paging :=
  let s := { s with lock := true }
  match mapLoop (fun i => vmallocHelper (add64 vptr (i * pageSize)) cr3 flags) pages s with
  | (false, s) => (0, { s with lock := false })
  | (true, s) => (vptr, { s with lock := false })

/-- `vmalloc`. -/
def vmalloc (s : Paging) (vptr pages : ℕ) (flags : BitVec 64) : ℕ × Paging :=
  vmallocCR3 s vptr pages flags s.cr3

/-- `videntityCR3`. The path that returns `NULL` leaves the lock taken. -/
def videntityCR3 (s : Paging) (vptr pptr pages : ℕ) (flags : BitVec 64) (cr3 : ℕ) :
    ℕ × Paging :=
  let s := { s with lock := true }
  match mapLoop (fun i => videntityHelper (add64 vptr (i * pageSize))
      (add64 pptr (i * pageSize)) cr3 flags) pages s with
  | (false, s) => (0, s)
  | (true, s) => (vptr, { s with lock := false })

/-- `videntity`. -/
def videntity (s : Paging) (vptr pptr pages : ℕ) (flags : BitVec 64) : ℕ × Paging :=
  videntityCR3 s vptr pptr pages flags s.cr3

/-! ### Unmapping and changing flags -/

/-- The scan of a table for an entry that is not zero. -/
def Paging.tableEmpty (s : Paging) (t : ℕ) : Bool := decide (∀ i, s.entry t i = 0)

/-- `vfreeHelper`. -/
def vfreeHelper (vptr p4tp : ℕ) (doPfree : Bool) (s : Paging) : Paging :=
  let p4e := s.entry p4tp (pageP4E vptr)
  if p4e = 0 then s
  else
    let p3tp := frameOf p4e
    let p3e := s.entry p3tp (pageP3E vptr)
    if p3e = 0 then s
    else
      let p2tp := frameOf p3e
      let p2e := s.entry p2tp (pageP2E vptr)
      if p2e = 0 then s
      else
        let p1tp := frameOf p2e
        let s := pagingRemoveEntry doPfree 1 p1tp (pageP1E vptr) s
        if ¬ s.tableEmpty p1tp then s
        else
          let s := pagingRemoveEntry doPfree 2 p2tp (pageP2E vptr) s
          if ¬ s.tableEmpty p2tp then s
          else
            let s := pagingRemoveEntry doPfree 3 p3tp (pageP3E vptr) s
            if ¬ s.tableEmpty p3tp then s
            else pagingRemoveEntry doPfree 4 p4tp (pageP4E vptr) s

/-- `vfreeCR3`. -/
def vfreeCR3 (s : Paging) (vptr pages : ℕ) (doPfree : Bool) (cr3 : ℕ) : Paging :=
  let s := { s with lock := true }
  let s := loop (fun i => vfreeHelper (add64 vptr (i * pageSize)) cr3 doPfree) pages s
  { s with lock := false }

/-- `vfree`. -/
def vfree (s : Paging) (vptr pages : ℕ) (doPfree : Bool) : Paging :=
  vfreeCR3 s vptr pages doPfree s.cr3

/-- `vflagsHelper`. -/
def vflagsHelper (vptr p4tp : ℕ) (flags : BitVec 64) (s : Paging) : Paging :=
  let p4e := s.entry p4tp (pageP4E vptr)
  if p4e = 0 then s
  else
    let p3tp := frameOf p4e
    let p3e := s.entry p3tp (pageP3E vptr)
    if p3e = 0 then s
    else
      let p2tp := frameOf p3e
      let p2e := s.entry p2tp (pageP2E vptr)
      if p2e = 0 then s
      else
        let p1tp := frameOf p2e
        s.setEntry p1tp (pageP1E vptr)
          ((s.entry p1tp (pageP1E vptr) &&& 0x8FFFFFFFFFFFFFE0) ||| flags)

/-- `vflagsCR3`. -/
def vflagsCR3 (s : Paging) (vptr pages : ℕ) (flags : BitVec 64) (cr3 : ℕ) : Paging :=
  let s := { s with lock := true }
  let s := loop (fun i => vflagsHelper (add64 vptr (i * pageSize)) cr3 flags) pages s
  { s with lock := false }

/-- `vflags`. -/
def vflags (s : Paging) (vptr pages : ℕ) (flags : BitVec 64) : Paging :=
  vflagsCR3 s vptr pages flags s.cr3

/-! ### Address spaces -/

/-- The copy loop of `pagingCreateUser` over the upper half of the top-level table. -/
def copyKernelHalf (p4tp kerCr3 : ℕ) (s : Paging) : Paging :=
  loop (fun k s => s.setEntry p4tp (Fin.ofNat 512 (256 + k))
    (s.entry kerCr3 (Fin.ofNat 512 (256 + k)))) 256 s

/-- `pagingCreateUser`. -/
def pagingCreateUser (s : Paging) : ℕ × Paging :=
  let r := pagingAllocTable s
  (r.1, copyKernelHalf r.1 r.2.bspCr3 r.2)

/-- `initPaging`. -/
def initPaging (s : Paging) : Paging :=
  let s := vfree s 0 (s.pmm.memSize / pageSize) false
  { s with bspCr3 := s.cr3 }

end AnglOS
