import AnglOS.Libc

/-!
# The Kernel Heap

The model of `kernel/mm/heap/heap.c` and of the part of `kernel/mm/heap/memlib.c` it uses. A
block is a run of words with a tag in its first and a copy of it in its last word; the
payload starts behind the first tag. Free blocks are kept in twelve lists by size; their
list elements are the first two words of the payload, and the heads and tails of the lists
are in the array `free_lists`. Everything lives in one byte memory.

Pointers are natural numbers, with `0` for `NULL`; what the code adds to a pointer from a tag
may wrap. Sizes are `size_t` values where the code has them and are cut to `int` where it passes
them on as such. The lock that the exported functions take is not modelled.
-/

namespace AnglOS

/-- `kheap_base`, which `initKernelHeapMem` makes `mem_start_brk`. -/
abbrev kheapBase : ℕ := 0xFFFF900000000000

/-- `mem_max_addr`: `MAX_HEAP` bytes above the start. -/
abbrev memMaxAddr : ℕ := kheapBase + 2 ^ 25

/-- `WSIZE`. -/
abbrev wsize : ℕ := 8

/-- `MIN_BLOCK_SIZE_WORDS`. -/
abbrev minBlockSizeWords : ℕ := 8

/-- `CHUNKSIZE`. -/
abbrev chunkSize : ℕ := 36

/-- `NUM_LISTS`. -/
abbrev numLists : ℕ := 12

/-- Where the linker put the array `free_lists`: somewhere in the image of the kernel. -/
structure FreeLists where
  addr : ℕ
  in_image : 0xFFFFFFFF80000000 ≤ addr
  fits : addr + 32 * numLists ≤ 2 ^ 64

/-- The memory, and `mem_brk`. -/
structure Heap where
  mem : Mem
  memBrk : ℕ

/-- The value of a `size_t` that is passed as an `int`. -/
def toInt32 (n : ℕ) : ℤ :=
  if n % 2 ^ 32 < 2 ^ 31 then (n % 2 ^ 32 : ℕ) else (n % 2 ^ 32 : ℕ) - 2 ^ 32

/-! ### Tags -/

/-- A `struct tag`: the size in the low 63 bits, the `inuse` bit above them. -/
def mkTag (size : ℕ) (inuse : Bool) : BitVec 64 :=
  BitVec.ofNat 64 (size % 2 ^ 63 + if inuse then 2 ^ 63 else 0)

/-- The `size` of a tag. -/
def tagSize (w : BitVec 64) : ℕ :=
  w.toNat % 2 ^ 63

/-- The `inuse` bit of a tag. -/
def tagInuse (w : BitVec 64) : Bool :=
  decide (2 ^ 63 ≤ w.toNat)

/-- `FENCE`. -/
def fence : BitVec 64 :=
  mkTag 0 true

/-- `prev_blk_footer`. -/
def prevBlkFooter (blk : ℕ) : ℕ :=
  blk - wsize

/-- `blk_free`. -/
def blkFree (m : Mem) (blk : ℕ) : Bool :=
  !tagInuse (m.load64 blk)

/-- `blk_size`. -/
def blkSize (m : Mem) (blk : ℕ) : ℕ :=
  tagSize (m.load64 blk)

/-- `prev_blk`. -/
def prevBlk (m : Mem) (blk : ℕ) : ℕ :=
  sub64 blk (wsize * tagSize (m.load64 (prevBlkFooter blk)))

/-- `next_blk`. -/
def nextBlk (m : Mem) (blk : ℕ) : ℕ :=
  add64 blk (wsize * blkSize m blk)

/-- `get_footer`. -/
def getFooter (m : Mem) (blk : ℕ) : ℕ :=
  sub64 (add64 blk (wsize * blkSize m blk)) wsize

/-- The address of the payload of a block. -/
def payload (blk : ℕ) : ℕ :=
  blk + wsize

/-- `set_header_and_footer`. -/
def setHeaderAndFooter (m : Mem) (blk : ℕ) (size : ℤ) (inuse : Bool) : Mem :=
  let m := m.store64 blk (mkTag (size % 2 ^ 63).toNat inuse)
  m.store64 (getFooter m blk) (m.load64 blk)

/-- `mark_block_used`. -/
def markBlockUsed (m : Mem) (blk : ℕ) (size : ℤ) : Mem :=
  setHeaderAndFooter m blk size true

/-- `mark_block_free`: the tags, and a list element without links. -/
def markBlockFree (m : Mem) (blk : ℕ) (size : ℤ) : Mem :=
  let m := setHeaderAndFooter m blk size false
  let m := m.store64 (payload blk) 0#64
  m.store64 (payload blk + 8) 0#64

/-! ### Size classes -/

/-- `get_seg_index`. -/
def getSegIndex (words : ℕ) : ℕ :=
  if words ≤ 8 then 0
  else if words ≤ 16 then 1
  else if words ≤ 32 then 2
  else if words ≤ 64 then 3
  else if words ≤ 128 then 4
  else if words ≤ 256 then 5
  else if words ≤ 512 then 6
  else if words ≤ 1024 then 7
  else if words ≤ 2048 then 8
  else if words ≤ 4096 then 9
  else if words ≤ 8192 then 10
  else 11

/-- The address of `free_lists[i]`. -/
def FreeLists.list (L : FreeLists) (i : ℕ) : ℕ :=
  L.addr + 32 * i

/-- `get_seg_list`. -/
def getSegList (L : FreeLists) (words : ℕ) : ℕ :=
  L.list (getSegIndex words)

/-- `list_push_back(get_seg_list(blk->header.size), &blk->payload)`. -/
def pushFree (L : FreeLists) (m : Mem) (blk : ℕ) : Mem :=
  listPushBack m (getSegList L (blkSize m blk)) (payload blk)

/-- `align`. -/
def align (size : ℕ) : ℕ :=
  add64 size 15 / 16 * 16

/-! ### The break -/

/-- `mem_sbrk`. -/
def memSbrk (h : Heap) (incr : ℤ) : ℕ × Heap :=
  if incr < 0 ∨ (memMaxAddr : ℤ) < h.memBrk + incr then (0, h)
  else (h.memBrk, { h with memBrk := h.memBrk + incr.toNat })

/-! ### Splitting and joining blocks -/

/-- `coalesce`. -/
def Heap.coalesce (L : FreeLists) (m : Mem) (bp : ℕ) : ℕ × Mem :=
  let prevAlloc := tagInuse (m.load64 (prevBlkFooter bp))
  let nextAlloc := !blkFree m (nextBlk m bp)
  let size := blkSize m bp
  if prevAlloc then
    if nextAlloc then (bp, m)
    else
      let m := listRemove m (payload bp)
      let m := listRemove m (payload (nextBlk m bp))
      let m := markBlockFree m bp (toInt32 (size + blkSize m (nextBlk m bp)))
      (bp, pushFree L m bp)
  else
    if nextAlloc then
      let m := listRemove m (payload bp)
      let m := listRemove m (payload (prevBlk m bp))
      let bp := prevBlk m bp
      let m := markBlockFree m bp (toInt32 (size + blkSize m bp))
      (bp, pushFree L m bp)
    else
      let m := listRemove m (payload bp)
      let m := listRemove m (payload (prevBlk m bp))
      let m := listRemove m (payload (nextBlk m bp))
      let m := markBlockFree m (prevBlk m bp)
        (toInt32 (size + blkSize m (nextBlk m bp) + blkSize m (prevBlk m bp)))
      let bp := prevBlk m bp
      (bp, pushFree L m bp)

/-- `extend_heap`. -/
def extendHeap (L : FreeLists) (h : Heap) (words : ℕ) : ℕ × Heap :=
  let r := memSbrk h (toInt32 (words * wsize))
  if r.1 = 0 then (0, r.2)
  else
    let blk := r.1 - wsize
    let m := markBlockFree r.2.mem blk (toInt32 words)
    let m := pushFree L m blk
    let m := m.store64 (nextBlk m blk) fence
    let c := Heap.coalesce L m blk
    (c.1, { r.2 with mem := c.2 })

/-- The statements with which `place` and `_krealloc` make the first `asize` words at `blk` a
used block and the `rest` words behind it a free one; it returns the free block. -/
def splitUsed (L : FreeLists) (m : Mem) (blk asize rest : ℕ) : ℕ × Mem :=
  let m := markBlockUsed m blk (toInt32 asize)
  let blk := nextBlk m blk
  let m := markBlockFree m blk (toInt32 rest)
  (blk, pushFree L m blk)

/-- `place`. -/
def place (L : FreeLists) (m : Mem) (bp asize : ℕ) : Mem :=
  let csize := blkSize m bp
  let m := listRemove m (payload bp)
  if minBlockSizeWords ≤ sub64 csize asize then
    (splitUsed L m bp asize (sub64 csize asize)).2
  else markBlockUsed m bp (toInt32 csize)

/-- The inner loop of `find_fit` from `elem` on. It looks at `13 - (i - idx)` elements at
most, which is when `j > 11 - (i - idx)` ends it. -/
def scanList (m : Mem) (l asize : ℕ) : ℕ → ℕ → Option ℕ
  | 0, _ => none
  | r + 1, elem =>
      if elem = listEnd l then none
      else if asize ≤ blkSize m (elem - wsize) then some (elem - wsize)
      else scanList m l asize r (listNext m elem)

/-- The outer loop of `find_fit` from list `i` on, `r` lists. -/
def scanLists (L : FreeLists) (m : Mem) (asize idx : ℕ) : ℕ → ℕ → Option ℕ
  | 0, _ => none
  | r + 1, i =>
      match scanList m (L.list i) asize (13 - (i - idx)) (listBegin m (L.list i)) with
      | some blk => some blk
      | none => scanLists L m asize idx r (i + 1)

/-- `find_fit`. -/
def findFit (L : FreeLists) (m : Mem) (asize : ℕ) : Option ℕ :=
  let idx := getSegIndex asize
  scanLists L m asize idx (numLists - idx) idx

/-! ### Entry points -/

/-- `initKernelHeap`. -/
def initKernelHeap (L : FreeLists) (h : Heap) : ℤ × Heap :=
  let r := memSbrk h 32
  if r.1 = 0 then (-1, r.2)
  else
    let m := loop (fun i m => listInit m (L.list i)) numLists r.2.mem
    let m := m.store64 (r.1 + 16) fence
    let m := m.store64 (r.1 + 24) fence
    let e := extendHeap L { r.2 with mem := m } chunkSize
    if e.1 = 0 then (-1, e.2) else (0, e.2)

/-- `_kmalloc`. -/
def kmalloc (L : FreeLists) (h : Heap) (size : ℕ) : ℕ × Heap :=
  if size = 0 then (0, h)
  else
    let bsize := align (add64 size 16)
    if bsize < size then (0, h)
    else
      let awords := max minBlockSizeWords (bsize / wsize)
      match findFit L h.mem awords with
      | some bp => (payload bp, { h with mem := place L h.mem bp awords })
      | none =>
          let e := extendHeap L h (max awords chunkSize)
          if e.1 = 0 then (0, e.2)
          else (payload e.1, { e.2 with mem := place L e.2.mem e.1 awords })

/-- `_kcalloc`. It clears the range even when `_kmalloc` returned `NULL`. -/
def kcalloc (L : FreeLists) (h : Heap) (size : ℕ) : ℕ × Heap :=
  let r := kmalloc L h size
  (r.1, { r.2 with mem := memset r.2.mem r.1 0#8 size })

/-- `_kfree`. -/
def kfree (L : FreeLists) (h : Heap) (bp : ℕ) : Heap :=
  if bp = 0 then h
  else
    let blk := bp - wsize
    let m := markBlockFree h.mem blk (toInt32 (blkSize h.mem blk))
    let m := pushFree L m blk
    { h with mem := (Heap.coalesce L m blk).2 }

/-- The end of `_krealloc`: allocate, copy, and free. -/
def reallocCopy (L : FreeLists) (h : Heap) (ptr size : ℕ) : ℕ × Heap :=
  let r := kmalloc L h size
  if r.1 = 0 then (0, r.2)
  else
    let oldpayloadsize := blkSize r.2.mem (ptr - wsize) * wsize - 16
    let n := if size < oldpayloadsize then size else oldpayloadsize
    (r.1, kfree L { r.2 with mem := memmove r.2.mem r.1 ptr n } ptr)

/-- The branches of `_krealloc` that use a free neighbour, and its end. -/
def reallocMove (L : FreeLists) (h : Heap) (ptr size awords oldsize : ℕ)
    (prevAlloc nextAlloc : Bool) : ℕ × Heap :=
  let m := h.mem
  let blk := ptr - wsize
  let next := blkSize m (nextBlk m blk)
  let prev := blkSize m (prevBlk m blk)
  if (!nextAlloc && prevAlloc) = true ∧ awords < next + oldsize ∧
      minBlockSizeWords ≤ oldsize + next - awords then
    let m := listRemove m (payload (nextBlk m blk))
    (ptr, { h with mem := (splitUsed L m blk awords (oldsize + next - awords)).2 })
  else if prevAlloc = false ∧ awords < prev + oldsize + next ∧
      minBlockSizeWords ≤ oldsize + prev + next - awords ∧ nextAlloc = false then
    let blk := prevBlk m blk
    let tmp1 := blkSize m blk
    let tmp2 := blkSize m (nextBlk m (nextBlk m blk))
    let m := listRemove m (payload blk)
    let m := listRemove m (payload (nextBlk m (nextBlk m blk)))
    let m := memmove m (payload blk) (payload (nextBlk m blk)) ((oldsize - 2) * wsize)
    (payload blk,
      { h with mem := (splitUsed L m blk awords (oldsize + tmp1 + tmp2 - awords)).2 })
  else if prevAlloc = false ∧ awords < prev + oldsize ∧
      minBlockSizeWords ≤ oldsize + prev - awords then
    let blk := prevBlk m blk
    let tmp := blkSize m blk
    let m := listRemove m (payload blk)
    let m := memmove m (payload blk) (payload (nextBlk m blk)) ((oldsize - 2) * wsize)
    let r := splitUsed L m blk awords (oldsize + tmp - awords)
    (payload blk, { h with mem := (Heap.coalesce L r.2 r.1).2 })
  else reallocCopy L h ptr size

/-- `_krealloc`. The flags of the neighbours are read before the heap is extended. -/
def krealloc (L : FreeLists) (h : Heap) (ptr size : ℕ) : ℕ × Heap :=
  if ptr = 0 then kmalloc L h size
  else if size = 0 then (0, kfree L h ptr)
  else
    let blk := ptr - wsize
    let oldsize := blkSize h.mem blk
    let bsize := align (add64 size 16)
    if bsize < size then (0, h)
    else
      let awords := max minBlockSizeWords (bsize / wsize)
      let prevAlloc := tagInuse (h.mem.load64 (prevBlkFooter blk))
      let nextAlloc := !blkFree h.mem (nextBlk h.mem blk)
      let h :=
        if h.mem.load64 (nextBlk h.mem blk) = fence ∧ prevAlloc = true ∧ oldsize < awords then
          (extendHeap L h (max (awords - oldsize) chunkSize)).2
        else h
      if awords = oldsize then (ptr, h)
      else if awords < oldsize ∧ minBlockSizeWords ≤ oldsize - awords then
        let r := splitUsed L h.mem blk awords (oldsize - awords)
        (ptr, { h with mem := (Heap.coalesce L r.2 r.1).2 })
      else reallocMove L h ptr size awords oldsize prevAlloc nextAlloc

end AnglOS
