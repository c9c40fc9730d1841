import AnglOS.HeapRun

/-!
# Requests of Any Size

What one request does to the heap of any run. A reallocation carries the contents over. A request
of any 64-bit size is safe unless its rounded size has more than 32 bits and the low 32 of them
fit below the end of the heap: `mem_sbrk` and `mark_block_free` take an `int`, and then the break
moves by less than the block is said to have. A cleared request writes from address zero on when
there is no space.

## Main results

* `krealloc_preserves_of_run` — a reallocation keeps the contents, and a failed one keeps
  everything;
* `kmalloc_safe_iff` — the sizes that `kmalloc` serves or refuses without damage;
* `kcalloc_all_or_nothing_iff` — `kcalloc` is all or nothing exactly when there is space.
-/

namespace AnglOS

section

variable {L : FreeLists} {c c' : HeapClient} {bs bs' : List Cell} {p size : ℕ}

/-- The blocks in use are those of the live requests. -/
def HeapClient.LiveBlocks (c : HeapClient) (blks : List ℕ) : Prop :=
  ∀ b, b ∈ blks ∧ blkFree c.heap.mem b = false ↔ ∃ size, c.live (payload b) = some size

theorem HeapClient.Ok.liveBlocks (hok : c.Ok L bs) : c.LiveBlocks (blockAddrs bs) := by
  intro b
  constructor
  · rintro ⟨hb, hfree⟩
    obtain ⟨cell, hc⟩ := mem_blockAddrs.mp hb
    have hread := (hok.rest.read hc).2.2.1
    have hblock := hok.rest.block cell (mem_of_mem_cellsAt hc)
    cases cell with
    | free n => rw [hread.mpr trivial] at hfree; simp at hfree
    | used n d => exact hok.live_of_used b n d (mem_fenced hc)
    | raw n => exact hblock.elim
    | fence => exact hblock.elim
    | loose n => exact hblock.elim
  · rintro ⟨size, hsize⟩
    obtain ⟨a, n, d, hab, hu, -⟩ := hok.used_of_live _ size hsize
    obtain rfl := payload_inj.mp hab
    have hc := mem_of_mem_fenced hu (by simp)
    refine ⟨mem_blockAddrs.mpr ⟨_, hc⟩, ?_⟩
    have hread := (hok.rest.read hc).2.2.1
    cases hfree : blkFree c.heap.mem b with
    | false => rfl
    | true => exact (hread.mp hfree).elim

/-- The bytes of the block at the pointer `p`, with its tags, are the same. -/
def SameBlock (c c' : HeapClient) (p : ℕ) : Prop :=
  ∀ x, p - 8 ≤ x → x < p - 8 + 8 * blkSize c.heap.mem (p - 8) → c'.heap.mem x = c.heap.mem x

/-- A block that stayed is the same. -/
theorem HeapClient.Ok.sameBlock (hok : c.Ok L bs) (hok' : c'.Ok L bs') {a n : ℕ} {d : Mem}
    (hu : UsedAt bs a n d) (hu' : UsedAt bs' a n d) : SameBlock c c' (payload a) := by
  intro x h1 h2
  have hsize : blkSize c.heap.mem a = n := hok.rest.rep.blkSize hu trivial
  rw [payload, Nat.add_sub_cancel] at h1 h2
  rw [hsize] at h2
  exact hok.bytes_eq hok' hu hu' h1 h2

end

/-! ### Reallocation -/

/-- **What a reallocation promises**: `c'` is the state after `krealloc` returned `q` for the
pointer `p`. -/
structure ReallocKeeps (L : FreeLists) (c c' : HeapClient) (p size q : ℕ) : Prop where
  /-- The heap is well formed, and what is in use is live. -/
  blocks : ∃ blks, WellFormed L c'.heap blks ∧ c'.LiveBlocks blks
  /-- The new block is live, is large enough, and starts with the old contents. -/
  moved : q ≠ 0 → c'.live q = some size ∧ size ≤ 8 * blkSize c'.heap.mem (q - 8) - 16 ∧
    (∀ i < min (8 * blkSize c.heap.mem (p - 8) - 16) size,
      c'.heap.mem (q + i) = c.heap.mem (p + i)) ∧
    (c'.live p ≠ none → q = p)
  /-- A failed call keeps the block. -/
  failed : q = 0 → c'.live p = c.live p ∧ SameBlock c c' p
  /-- The other live blocks stay. -/
  others : ∀ r s, r ≠ p → c.live r = some s → c'.live r = some s ∧ SameBlock c c' r

/-- **A reallocation keeps the contents in every run**, whichever way it finds its block. -/
theorem krealloc_preserves_of_run {L : FreeLists} {h : Heap} (hbrk : h.memBrk = kheapBase)
    {ks : List HeapCall} {c : HeapClient}
    (hrun : Run (HeapClient.step L) (HeapClient.init L h) ks c) {p old size : ℕ}
    (hp : c.live p = some old) (hsize : 0 < size) (hs : roundedSize size < 2 ^ 31) :
    ReallocKeeps L c (c.exec L (.krealloc p size)) p size (krealloc L c.heap p size).1 := by
  obtain ⟨bs, hok⟩ := HeapClient.ok_of_run hbrk hrun
  obtain ⟨a, n, d, rfl, hu, -⟩ := hok.used_of_live p old hp
  obtain ⟨bs', hok', hkeep, hdone⟩ := hok.krealloc hu hsize.ne' hs
  refine ⟨⟨_, hok'.rest.wellFormed, hok'.liveBlocks⟩, fun hq => ?_, fun hq => ?_,
    fun r s hr hlive => ?_⟩
  · rcases hdone with ⟨h0, -⟩ | ⟨a', n', d', hret, hswap, hn', hd, hlive⟩
    · exact absurd h0 hq
    · have hnew : UsedAt bs' a' n' d' := (hswap.iff a' n' d').mpr (Or.inr ⟨rfl, rfl, rfl⟩)
      have hold : blkSize c.heap.mem a = n := hok.rest.rep.blkSize hu trivial
      have hnews : blkSize (c.exec L (.krealloc (payload a) size)).heap.mem a' = n' :=
        hok'.rest.rep.blkSize hnew trivial
      have ha : payload a - 8 = a := Nat.add_sub_cancel _ _
      have ha' : payload a' - 8 = a' := Nat.add_sub_cancel _ _
      rw [hret, ha, ha', hold, hnews, hlive]
      refine ⟨Function.update_self _ _ _, by omega, fun i hi => ?_, fun hne => ?_⟩
      · rw [hok'.rest.rep.payload_eq hnew (by omega), hd i (by omega) (by omega),
          hok.rest.rep.payload_eq hu (by omega)]
      · by_contra hne'
        rw [Function.update_of_ne (Ne.symm hne'), Function.update_self] at hne
        exact hne rfl
  · rcases hdone with ⟨-, hsame, hlive⟩ | ⟨a', n', d', hret, -⟩
    · exact ⟨by rw [hlive], hok.sameBlock hok' hu ((hsame a n d).mp hu)⟩
    · exact absurd (hret.symm.trans hq) (payload_ne_zero a')
  · obtain ⟨b, k, e, rfl, hv, -⟩ := hok.used_of_live r s hlive
    exact ⟨hkeep.live _ s hr hlive, hok.sameBlock hok' hv (hkeep.used b k e hr hv)⟩

/-! ### Requests without a bound -/

/-- The sizes that the allocator can tell from smaller ones: the rounded size has at most 32 bits,
or it wraps, or its low 32 bits do not fit below the end of the heap. -/
def SafeSize (h : Heap) (size : ℕ) : Prop :=
  roundedSize size < 2 ^ 32 ∨ 2 ^ 64 ≤ roundedSize size ∨
    memMaxAddr < h.memBrk + roundedSize size % 2 ^ 32

section

variable {L : FreeLists} {h : Heap} {bs : List Cell} {size w : ℕ}

theorem Rest.brk_bounds (hr : Rest L h bs) :
    kheapBase + 32 ≤ h.memBrk ∧ h.memBrk ≤ memMaxAddr := by
  obtain ⟨ls, hrep⟩ := hr.rep
  refine ⟨?_, hrep.brk_le⟩
  rw [hrep.brk_eq]
  simp only [addrOf, heapStart, fenced, words_cons, words_append, Cell.words]
  omega

/-- No block is large enough for a request that is larger than the heap. -/
theorem Rest.findFit_none (hr : Rest L h bs) (hw : 2 ^ 22 ≤ w) : findFit L h.mem w = none := by
  cases hfit : findFit L h.mem w with
  | none => rfl
  | some bp =>
      obtain ⟨n, hmem, hn⟩ := hr.rep.findFit hfit
      have hlt := hr.rep.cell_words_lt hmem
      simp only [Cell.words] at hlt
      omega

/-- What `mem_sbrk` makes of a number of words: it sees the low 32 bits of the bytes. -/
theorem Rest.memSbrk (hr : Rest L h bs) : memSbrk h (toInt32 (w * wsize)) =
    if h.memBrk + 8 * w % 2 ^ 32 ≤ memMaxAddr then
      (h.memBrk, { h with memBrk := h.memBrk + 8 * w % 2 ^ 32 })
    else (0, h) := by
  obtain ⟨hlo, -⟩ := hr.brk_bounds
  rw [wsize, Nat.mul_comm w, AnglOS.memSbrk, toInt32]
  by_cases hmax : h.memBrk + 8 * w % 2 ^ 32 ≤ memMaxAddr
  · have hsmall : 8 * w % 2 ^ 32 < 2 ^ 31 := by
      simp only [memMaxAddr, kheapBase] at hlo hmax
      omega
    rw [if_pos hmax, if_pos hsmall, if_neg (by omega), Int.toNat_natCast]
  · rw [if_neg hmax]
    by_cases hsmall : 8 * w % 2 ^ 32 < 2 ^ 31
    · rw [if_pos hsmall, if_pos (by omega)]
    · rw [if_neg hsmall, if_pos (by omega)]

/-- The heap is not extended. -/
theorem Rest.extendHeap_fails (hr : Rest L h bs) (hmax : memMaxAddr < h.memBrk + 8 * w % 2 ^ 32) :
    AnglOS.extendHeap L h w = (0, h) := by
  rw [AnglOS.extendHeap, hr.memSbrk, if_neg (not_le.mpr hmax)]
  rfl

/-- How far the break moves. -/
theorem Rest.extendHeap_memBrk (hr : Rest L h bs)
    (hmax : h.memBrk + 8 * w % 2 ^ 32 ≤ memMaxAddr) :
    (AnglOS.extendHeap L h w).2.memBrk = h.memBrk + 8 * w % 2 ^ 32 := by
  obtain ⟨hlo, -⟩ := hr.brk_bounds
  have hpos : h.memBrk ≠ 0 := by
    simp only [kheapBase] at hlo
    omega
  rw [AnglOS.extendHeap, hr.memSbrk, if_pos hmax]
  simp only [if_neg hpos]

theorem requestWords_large (hs : 2 ^ 31 ≤ roundedSize size) :
    8 * requestWords size = roundedSize size ∧ 2 ^ 22 ≤ requestWords size ∧
      max (requestWords size) chunkSize = requestWords size := by
  simp only [requestWords, roundedSize, minBlockSizeWords, wsize, chunkSize] at *
  omega

theorem align_of_wrap (hsize : size < 2 ^ 64) (hs : 2 ^ 64 ≤ roundedSize size) :
    align (add64 size 16) < size := by
  rw [roundedSize] at hs
  rw [align, add64, add64]
  omega

/-- A rounded size that wraps is refused. -/
theorem kmalloc_of_wrap (L : FreeLists) (h : Heap) (hsize : size < 2 ^ 64)
    (hs : 2 ^ 64 ≤ roundedSize size) : kmalloc L h size = (0, h) := by
  rw [kmalloc, if_neg (by rw [roundedSize] at hs; omega)]
  simp only [if_pos (align_of_wrap hsize hs)]

/-- What `_kmalloc` returns for the block `e.1` that `extend_heap` returned. -/
def placeExtended (L : FreeLists) (e : ℕ × Heap) (w : ℕ) : ℕ × Heap :=
  if e.1 = 0 then (0, e.2) else (payload e.1, { e.2 with mem := place L e.2.mem e.1 w })

theorem ite_memBrk (p : ℕ) (e : ℕ × Heap) (m : Mem) :
    (if e.1 = 0 then (0, e.2) else (p, { e.2 with mem := m })).2.memBrk = e.2.memBrk := by
  by_cases h0 : e.1 = 0
  · rw [if_pos h0]
  · rw [if_neg h0]

-- with the new memory a variable, the two breaks are compared without unfolding `place`
theorem placeExtended_memBrk (L : FreeLists) (e : ℕ × Heap) (w : ℕ) :
    (placeExtended L e w).2.memBrk = e.2.memBrk :=
  ite_memBrk (payload e.1) e (place L e.2.mem e.1 w)

/-- A request that does not wrap and that no block fits extends the heap. -/
theorem kmalloc_of_none (hpos : size ≠ 0) (hs : roundedSize size < 2 ^ 64)
    (hnone : findFit L h.mem (requestWords size) = none) :
    kmalloc L h size =
      placeExtended L (extendHeap L h (max (requestWords size) chunkSize)) (requestWords size) := by
  have hnot : ¬roundedSize size < size := not_lt.mpr (le_roundedSize size)
  have hwords : max minBlockSizeWords (roundedSize size / wsize) = requestWords size := rfl
  rw [kmalloc, if_neg hpos, align_of_lt hs]
  simp only [if_neg hnot, hwords, hnone]
  rw [placeExtended]

/-- A request that is larger than the heap extends the heap. -/
theorem Rest.kmalloc_of_large (hr : Rest L h bs) (hs : 2 ^ 31 ≤ roundedSize size)
    (hs' : roundedSize size < 2 ^ 64) : AnglOS.kmalloc L h size =
      placeExtended L (AnglOS.extendHeap L h (requestWords size)) (requestWords size) := by
  obtain ⟨-, hlarge, hchunk⟩ := requestWords_large hs
  rw [kmalloc_of_none (by rw [roundedSize] at hs; omega) hs' (hr.findFit_none hlarge), hchunk]

/-- A request of a safe size that is larger than the heap and does not wrap does not fit below
the end of the heap. -/
theorem Rest.full_of_safe (hr : Rest L h bs) (hsafe : SafeSize h size)
    (hs : 2 ^ 31 ≤ roundedSize size) (hs' : roundedSize size < 2 ^ 64) :
    memMaxAddr < h.memBrk + 8 * requestWords size % 2 ^ 32 := by
  obtain ⟨hlo, -⟩ := hr.brk_bounds
  rw [(requestWords_large hs).1]
  rcases hsafe with hsmall | hwrap | hmax
  · rw [Nat.mod_eq_of_lt hsmall]
    simp only [memMaxAddr, kheapBase] at hlo ⊢
    omega
  · omega
  · exact hmax

/-- **A large request of a safe size is refused**, and nothing changes. -/
theorem Rest.kmalloc_refused (hr : Rest L h bs) (hsize : size < 2 ^ 64) (hsafe : SafeSize h size)
    (hs : 2 ^ 31 ≤ roundedSize size) : AnglOS.kmalloc L h size = (0, h) := by
  by_cases hwrap : 2 ^ 64 ≤ roundedSize size
  · exact kmalloc_of_wrap L h hsize hwrap
  · rw [hr.kmalloc_of_large hs (not_le.mp hwrap),
      hr.extendHeap_fails (hr.full_of_safe hsafe hs (not_le.mp hwrap)), placeExtended, if_pos rfl]

end

/-! ### The tags of an extension -/

/-- Where `extend_heap` writes tags: the header and the footer of the new block, the fence behind
it, and the header and the footer of the block that `coalesce` makes of it. -/
def extendHeapTags (L : FreeLists) (h : Heap) (words : ℕ) : List ℕ :=
  let r := memSbrk h (toInt32 (words * wsize))
  if r.1 = 0 then []
  else
    let blk := r.1 - wsize
    let m := r.2.mem.store64 blk (mkTag (toInt32 words % 2 ^ 63).toNat false)
    let m' := pushFree L (markBlockFree r.2.mem blk (toInt32 words)) blk
    let e := extendHeap L h words
    [blk, getFooter m blk, nextBlk m' blk, e.1, getFooter e.2.mem e.1]

/-- Where `extend_heap` writes tags when `_kmalloc` calls it. -/
def kmallocTags (L : FreeLists) (h : Heap) (size : ℕ) : List ℕ :=
  let bsize := align (add64 size 16)
  let awords := max minBlockSizeWords (bsize / wsize)
  if size = 0 ∨ bsize < size ∨ (findFit L h.mem awords).isSome then []
  else extendHeapTags L h (max awords chunkSize)

section

variable {L : FreeLists} {h : Heap} {bs : List Cell} {size w : ℕ}

/-- The tags of an extension lie below the new break. -/
theorem Rest.extendHeapTags_lt (hr : Rest L h bs) (hw : 8 ≤ w) (hw2 : w % 2 = 0)
    (hwl : w * 8 < 2 ^ 31) :
    ∀ x ∈ extendHeapTags L h w, x + 8 ≤ (AnglOS.extendHeap L h w).2.memBrk := by
  intro x hx
  obtain ⟨hlo, hhi⟩ := hr.brk_bounds
  have hmod : 8 * w % 2 ^ 32 = 8 * w := Nat.mod_eq_of_lt (by omega)
  have hsbrk := hr.memSbrk (w := w)
  rw [hmod] at hsbrk
  by_cases hmax : h.memBrk + 8 * w ≤ memMaxAddr
  · have hbrk : h.memBrk = addrOf (.fence :: bs) + 8 := by
      obtain ⟨ls, hrep⟩ := hr.rep
      have := hrep.brk_eq
      simp only [fenced, addrOf, words_cons, words_append, words_nil, Cell.words] at this ⊢
      omega
    have hend := hr.extendHeap_memBrk (w := w) (by rwa [hmod])
    have hpos : h.memBrk ≠ 0 := by omega
    have hblk : h.memBrk - wsize = addrOf (.fence :: bs) := by
      rw [hbrk, wsize]
      omega
    have htag : (toInt32 w % 2 ^ 63).toNat = w := by
      rw [toInt32_eq (by omega)]
      omega
    have h64 : addrOf (.fence :: bs) + 8 * w < 2 ^ 64 := by
      have := memMaxAddr_lt
      omega
    have hr1 : Rep L { h with memBrk := h.memBrk + 8 * w } (.fence :: bs ++ [.raw (w + 1)]) :=
      Rep.extend (by simpa [fenced] using hr.rep) hmax
    have hnext := (hr1.addBlock hw rfl).1
    rw [hend, hmod]
    rcases hr.extendHeap hw hw2 hwl with ⟨-, hfull⟩ | ⟨P, k, hret, hrest, -, -⟩
    · omega
    have hcell := mem_cellsAt_fst (.fence :: P) (.free k) [.fence]
    have hrest' : Rep L (AnglOS.extendHeap L h w).2 (.fence :: P ++ .free k :: [.fence]) := by
      simpa [fenced] using hrest.rep
    have hfoot := hrest'.getFooter hcell trivial rfl
    have hin : addrOf (.fence :: P) + 8 * k + 8 = h.memBrk + 8 * w := by
      obtain ⟨ls, hrep⟩ := hrest'
      have := hrep.brk_eq
      rw [hend, hmod] at this
      simp only [addrOf, words_cons, words_append, words_nil, Cell.words] at this ⊢
      omega
    have hk8 : 8 ≤ k := hrest.fits (.free k) (by simp)
    simp only [extendHeapTags, hsbrk, if_pos hmax, if_neg hpos, hblk, hret, htag, hnext,
      AnglOS.getFooter, AnglOS.blkSize, Mem.load64_store64_self,
      tagSize_mkTag (show w < 2 ^ 63 by omega), wsize, add64_eq h64,
      sub64_eq h64 (show 8 ≤ addrOf (.fence :: bs) + 8 * w by omega)] at hx
    simp only [AnglOS.getFooter, AnglOS.blkSize, Cell.words, wsize] at hfoot
    rw [hfoot] at hx
    simp only [List.mem_cons, List.not_mem_nil, or_false] at hx
    omega
  · simp [extendHeapTags, hsbrk, if_neg hmax] at hx

/-- Below `2 ^ 31` bytes, the tags that a request writes when it extends the heap lie below the
break. -/
theorem Rest.kmallocTags_lt (hr : Rest L h bs) (hs : roundedSize size < 2 ^ 31) :
    ∀ x ∈ kmallocTags L h size, x + 8 ≤ (AnglOS.kmalloc L h size).2.memBrk := by
  intro x hx
  obtain ⟨hw8, hw2, hwl, -⟩ := requestWords_spec hs
  have hwords : max minBlockSizeWords (roundedSize size / wsize) = requestWords size := rfl
  rw [kmallocTags, align_eq hs] at hx
  simp only [hwords] at hx
  by_cases hno : size = 0 ∨ roundedSize size < size ∨ (findFit L h.mem (requestWords size)).isSome
  · rw [if_pos hno] at hx
    simp at hx
  · rw [if_neg hno] at hx
    push Not at hno
    obtain ⟨hpos, hge, hfit⟩ := hno
    have hfit' : findFit L h.mem (requestWords size) = none := by
      simpa using hfit
    rw [kmalloc_of_none hpos (lt_trans hs (by norm_num)) hfit', placeExtended_memBrk]
    exact hr.extendHeapTags_lt (by omega) (by simp only [chunkSize]; omega)
      (by simp only [chunkSize]; omega) x hx

end

/-! ### An extension by no bytes -/

section

variable {L : FreeLists} {h : Heap} {bs cs : List Cell} {ls : ℕ → List ℕ} {m m' : Mem} {e i w : ℕ}

/-- The byte belongs to no list head, no list tail, and no element of a list. -/
def OffNodes (L : FreeLists) (cs : List Cell) (x : ℕ) : Prop :=
  ∀ p, IsNode L cs p → ¬InNode p x

/-- The element `e` is linked between the nodes `b` and `t` in the memory `m`, and removing it gives
the nodes the links that they have in `h`. -/
structure Pushed (L : FreeLists) (h : Heap) (cs : List Cell) (e : ℕ) (m : Mem) (b t : ℕ) :
    Prop where
  node_prev : IsNode L cs b
  node_next : IsNode L cs t
  apart : NodesApart b t
  prev : listPrev m e = b
  next : listNext m e = t
  links : ∀ p, IsNode L cs p → listNext (listRemove m e) p = listNext h.mem p ∧
    listPrev (listRemove m e) p = listPrev h.mem p
  frame : ∀ x, ¬InNode b x → ¬InNode t x → listRemove m e x = m x

/-- **Pushing and removing**: an element apart from all nodes is pushed on a list and removed
again. The links of all nodes are as before, and the element still points into the list. -/
theorem RepWith.push_remove (hr : RepWith L h cs ls) (m' : Mem) (hi : i < 12) (he : e < 2 ^ 64)
    (hapart : ∀ p, IsNode L cs p → NodesApart p e)
    (hm : ∀ p, IsNode L cs p → ∀ x, InNode p x → m x = h.mem x)
    (hm' : ∀ p, p = e ∨ IsNode L cs p → ∀ x, InNode p x → m' x = listPushBack m (L.list i) e x) :
    (∀ x, ¬InNode e x → OffNodes L cs x → listPushBack m (L.list i) e x = m x) ∧
      ∃ b t, Pushed L h cs e m' b t := by
  obtain ⟨X, b, hnodes, -⟩ := exists_nodes_last L i (ls i)
  obtain ⟨t, ht⟩ : ∃ t, t = listEnd (L.list i) := ⟨_, rfl⟩
  have hlink := hr.linked i hi
  have hnd := hr.nodup_nodes hi
  have hnode : ∀ p ∈ nodes L i (ls i), IsNode L cs p := fun p hp => hr.isNode_of_mem hi hp
  rw [hnodes, ← ht] at hlink hnd hnode
  have hb := hnode b (by simp)
  have htn := hnode t (by simp)
  have hbt : b ≠ t := by
    simp only [List.nodup_append, List.nodup_cons, List.mem_cons, List.not_mem_nil,
      or_false] at hnd
    exact hnd.2.1.1
  have hne : ∀ {p q}, IsNode L cs p → IsNode L cs q → p ≠ q → NodesApart p q :=
    fun hp hq hpq => (hr.isNode_apart hp hq).resolve_left hpq
  have hsame : ∀ p, IsNode L cs p → listNext m p = listNext h.mem p ∧
      listPrev m p = listPrev h.mem p := fun p hp => links_congr (hm p hp)
  obtain ⟨hbt1, htb1⟩ := hlink.links_last
  have hpush : listPushBack m (L.list i) e = listInsert m t e := by
    rw [ht, listPushBack]
  -- the element is pushed
  obtain ⟨hnb, hne1, hpt, hpe, hn1, hp1, hframe1⟩ := listInsert_links (m := m) (t := t) (e := e)
    ((hsame t htn).2.trans htb1) he (hr.isNode_lt htn) (hapart b hb) (hapart t htn)
    (hne hb htn hbt)
  rw [← hpush] at hnb hne1 hpt hpe hn1 hp1 hframe1
  have hlinks : ∀ p, p = e ∨ IsNode L cs p →
      listNext m' p = listNext (listPushBack m (L.list i) e) p ∧
      listPrev m' p = listPrev (listPushBack m (L.list i) e) p :=
    fun p hp => links_congr (hm' p hp)
  -- and it is removed
  obtain ⟨hnb2, hpt2, hn2, hp2, hframe2⟩ := listRemove_links (m := m') (e := e)
    ((hlinks e (Or.inl rfl)).2.trans hpe) ((hlinks e (Or.inl rfl)).1.trans hne1) (hapart b hb)
    (hapart t htn) (hne hb htn hbt)
  refine ⟨fun x hxe hx => hframe1 x (hx b hb) hxe (hx t htn), b, t, hb, htn, hne hb htn hbt,
    (hlinks e (Or.inl rfl)).2.trans hpe, (hlinks e (Or.inl rfl)).1.trans hne1, fun p hp => ⟨?_, ?_⟩,
    hframe2⟩
  · by_cases hpb : p = b
    · rw [hpb, hnb2, hbt1]
    · rw [hn2 p (hne hp hb hpb) (hr.isNode_apart hp htn), (hlinks p (Or.inr hp)).1,
        hn1 p (hne hp hb hpb) (hapart p hp) (hr.isNode_apart hp htn), (hsame p hp).1]
  · by_cases hpt : p = t
    · rw [hpt, hpt2, htb1]
    · rw [hp2 p (hne hp htn hpt) (hr.isNode_apart hp hb), (hlinks p (Or.inr hp)).2,
        hp1 p (hr.isNode_apart hp hb) (hapart p hp) (hne hp htn hpt), (hsame p hp).2]

/-- The block that `coalesce` returns when the next block is in use. -/
theorem coalesce_ne_zero {a : ℕ} (ha : a ≠ 0) (hnext : blkFree m (nextBlk m a) = false)
    (hprev : tagInuse (m.load64 (prevBlkFooter a)) = false →
      prevBlk (listRemove (listRemove m (payload a))
        (payload (prevBlk (listRemove m (payload a)) a))) a ≠ 0) :
    (Heap.coalesce L m a).1 ≠ 0 := by
  rw [Heap.coalesce]
  cases hin : tagInuse (m.load64 (prevBlkFooter a)) with
  | true => simp [hnext, ha]
  | false => simpa [hnext] using hprev hin

/-- The nodes of the lists lie below the last footer of the heap, or behind the heap. -/
theorem RepWith.node_bounds (hr : RepWith L h (fenced bs) ls) {p : ℕ}
    (hp : IsNode L (fenced bs) p) :
    heapStart ≤ p ∧ p + 24 ≤ addrOf (.fence :: bs) ∨ L.addr ≤ p := by
  rcases hp with ⟨k, -, rfl⟩ | ⟨b, n, hb, rfl⟩
  · exact Or.inr (by omega)
  · left
    obtain ⟨c, hc, hne, hn, hfits⟩ : ∃ c, (b, c) ∈ cellsAt heapStart (fenced bs) ∧ c ≠ .fence ∧
        c.words = n ∧ 8 ≤ n := by
      rcases hb with hb | hb
      · exact ⟨_, hb, by simp, rfl, (hr.bounds hb).2.2⟩
      · exact ⟨_, hb, by simp, rfl, (hr.bounds hb).2.2⟩
    obtain ⟨P, Q, rfl, rfl⟩ := exists_of_mem_fenced hne hc
    have hlo := (hr.bounds hc).1
    simp only [payload, wsize, addrOf, words_cons, words_append, hn] at hlo ⊢
    omega

/-- The size in the tag of a block of `w` words when the bytes of `w` are zero in 32 bits: it is
zero, or the block ends far behind or before the heap. -/
theorem tag_of_no_bytes (hw : 8 * w % 2 ^ 32 = 0) {s : ℕ} (hs : s = (toInt32 w % 2 ^ 63).toNat) :
    s = 0 ∨ 2 ^ 29 ≤ s ∧ s < 2 ^ 31 ∨ 2 ^ 63 - 2 ^ 31 ≤ s ∧ s ≤ 2 ^ 63 - 2 ^ 29 := by
  rw [toInt32] at hs
  split_ifs at hs <;> omega

/-- When the word before the high fence is not in use, it is the footer of a free block. -/
theorem Rest.last_free (hr : Rest L h bs)
    (hfree : tagInuse (h.mem.load64 (prevBlkFooter (addrOf (.fence :: bs)))) = false) :
    ∃ P k, bs = P ++ [.free k] := by
  rcases lastUsed_or_free hr.block with hl | hl
  · have hrep : Rep L h (.fence :: bs ++ [.fence]) := by
      simpa [fenced] using hr.rep
    rw [hrep.prev_inuse hl] at hfree
    exact absurd hfree (by simp)
  · exact hl

/-- `mark_block_free` with any size `s`: the words it writes are the header, the two words of the
list element, and the word where the tag says that the block ends. -/
theorem markBlockFree_any (m : Mem) {a s N : ℕ} {z : ℤ} (hs : s = (z % 2 ^ 63).toNat)
    (hN : N = add64 a (8 * s)) (h8 : 8 ≤ N) (hoff : N ≤ a ∨ a + 16 ≤ N) :
    (markBlockFree m a z).load64 a = mkTag s false ∧
      (N = a → 8 ≤ a → (markBlockFree m a z).load64 (a - 8) = mkTag s false) ∧
      ∀ x, ¬(a ≤ x ∧ x < a + 24) → ¬(N - 8 ≤ x ∧ x < N) → markBlockFree m a z x = m x := by
  have hlt : s < 2 ^ 63 := by omega
  have hN64 : N < 2 ^ 64 := hN ▸ Nat.mod_lt _ (by norm_num)
  have hm : markBlockFree m a z = (((m.store64 a (mkTag s false)).store64 (N - 8)
      (mkTag s false)).store64 (a + 8) 0#64).store64 (a + 16) 0#64 := by
    simp only [markBlockFree, setHeaderAndFooter, getFooter, AnglOS.blkSize, ← hs,
      Mem.load64_store64_self, tagSize_mkTag hlt, wsize, payload, ← hN, sub64_eq hN64 h8]
  rw [hm]
  refine ⟨?_, fun hNa ha => ?_, fun x h1 h2 => ?_⟩
  · rw [Mem.load64_store64_of_disjoint (by omega), Mem.load64_store64_of_disjoint (by omega),
      Mem.load64_store64_of_disjoint (by omega), Mem.load64_store64_self]
  · rw [Mem.load64_store64_of_disjoint (by omega), Mem.load64_store64_of_disjoint (by omega), hNa,
      Mem.load64_store64_self]
  · rw [Mem.store64_of_not_mem (by omega), Mem.store64_of_not_mem (by omega),
      Mem.store64_of_not_mem (by omega), Mem.store64_of_not_mem (by omega)]

/-- No node overlaps the last footer and the high fence. -/
theorem RepWith.offNodes_last (hr : RepWith L h (fenced bs) ls) {a x : ℕ}
    (ha : a = addrOf (.fence :: bs)) (hL : a + 8 ≤ L.addr) (h1 : a - 8 ≤ x) (h2 : x < a + 8) :
    OffNodes L (fenced bs) x := by
  intro p hp hx
  have hbounds := hr.node_bounds hp
  rw [InNode] at hx
  omega

/-- The nodes are apart from an element behind the high fence. -/
theorem RepWith.apart_last (hr : RepWith L h (fenced bs) ls) {a p : ℕ}
    (ha : a = addrOf (.fence :: bs)) (hL : a + 24 ≤ L.addr) (hp : IsNode L (fenced bs) p) :
    NodesApart p (a + 8) := by
  have hbounds := hr.node_bounds hp
  rw [NodesApart]
  omega

/-- A removal writes to nodes only, and leaves the last footer as it is. -/
theorem RepWith.listRemove_footer (hr : RepWith L h (fenced bs) ls) {a p q : ℕ}
    (ha : a = addrOf (.fence :: bs)) (ha8 : 8 ≤ a) (hL : a + 8 ≤ L.addr)
    (hp : listPrev m e = p) (hq : listNext m e = q) (hpn : IsNode L (fenced bs) p)
    (hqn : IsNode L (fenced bs) q) (hpe : NodesApart p e) (hqe : NodesApart q e)
    (hpq : NodesApart p q) : (listRemove m e).load64 (a - 8) = m.load64 (a - 8) := by
  obtain ⟨-, -, -, -, hframe⟩ := listRemove_links hp hq hpe hqe hpq
  refine Mem.load64_congr fun x h1 h2 => hframe x ?_ ?_
  · exact hr.offNodes_last ha hL h1 (by omega) p hpn
  · exact hr.offNodes_last ha hL h1 (by omega) q hqn

/-- A pushed block of no words is removed twice. -/
theorem Pushed.remove_self {a b t : ℕ} (hpush : Pushed L h (fenced bs) (a + 8) m b t)
    (hr : RepWith L h (fenced bs) ls) (ha : a = addrOf (.fence :: bs)) (ha8 : 8 < a)
    (ha64 : a < 2 ^ 64) (hL : a + 24 ≤ L.addr) (hfoot : m.load64 (a - 8) = mkTag 0 false) :
    prevBlk (listRemove (listRemove m (payload a))
      (payload (prevBlk (listRemove m (payload a)) a))) a = a := by
  have hb := hr.apart_last ha hL hpush.node_prev
  have ht := hr.apart_last ha hL hpush.node_next
  have hkeeps : ∀ {m}, listPrev m (a + 8) = b → listNext m (a + 8) = t →
      (listRemove m (a + 8)).load64 (a - 8) = m.load64 (a - 8) := fun hp hn =>
    hr.listRemove_footer ha ha8.le (by omega) hp hn hpush.node_prev hpush.node_next hb ht
      hpush.apart
  have hback : ∀ {m}, m.load64 (a - 8) = mkTag 0 false → prevBlk m a = a := fun h => by
    rw [prevBlk, prevBlkFooter, wsize, h, tagSize_mkTag (by norm_num), Nat.mul_zero,
      sub64_eq ha64 (Nat.zero_le a), Nat.sub_zero]
  have hfoot₁ : (listRemove m (a + 8)).load64 (a - 8) = mkTag 0 false :=
    (hkeeps hpush.prev hpush.next).trans hfoot
  -- the element still points to its neighbours
  have hsame : ∀ x, InNode (a + 8) x → listRemove m (a + 8) x = m x := fun x hx => hpush.frame x
    (by rw [InNode, NodesApart] at *; omega) (by rw [InNode, NodesApart] at *; omega)
  obtain ⟨hn₁, hp₁⟩ := links_congr hsame
  rw [payload, wsize, hback hfoot₁, payload, wsize]
  exact hback ((hkeeps (hp₁.trans hpush.prev) (hn₁.trans hpush.next)).trans hfoot₁)

/-- A pushed block behind a free block is removed, and then the free block. -/
theorem Pushed.remove_last {a b t k : ℕ} {P : List Cell}
    (hpush : Pushed L h (fenced (P ++ [.free k])) (a + 8) m b t)
    (hr : RepWith L h (fenced (P ++ [.free k])) ls)
    (ha : a = addrOf (.fence :: (P ++ [.free k]))) (ha8 : 8 ≤ a) (hL : a + 24 ≤ L.addr)
    (hfoot : m.load64 (a - 8) = h.mem.load64 (a - 8)) :
    prevBlk (listRemove (listRemove m (payload a))
      (payload (prevBlk (listRemove m (payload a)) a))) a = addrOf (.fence :: P) := by
  have hcell :
      (addrOf (.fence :: P), Cell.free k) ∈ cellsAt heapStart (fenced (P ++ [.free k])) := by
    simpa [fenced] using mem_cellsAt_fst (.fence :: P) (.free k) [.fence]
  have hak : a = addrOf (.fence :: P) + 8 * k := by
    rw [ha, ← List.cons_append, addrOf_snoc_free]
  have hback : ∀ {m}, m.load64 (a - 8) = h.mem.load64 (a - 8) →
      prevBlk m a = addrOf (.fence :: P) := fun h => by
    have hpb := Rep.prevBlk ⟨ls, hr⟩ hcell trivial rfl
    simp only [Cell.words] at hpb
    rw [← hak, prevBlk, prevBlkFooter, wsize] at hpb
    rw [prevBlk, prevBlkFooter, wsize, h, hpb]
  have hfoot₁ : (listRemove m (a + 8)).load64 (a - 8) = h.mem.load64 (a - 8) :=
    (hr.listRemove_footer ha ha8 (by omega) hpush.prev hpush.next hpush.node_prev
      hpush.node_next (hr.apart_last ha hL hpush.node_prev)
      (hr.apart_last ha hL hpush.node_next) hpush.apart).trans hfoot
  -- the neighbours of the free block
  obtain ⟨X, p, q, Y, hnodes, -, hp, hq, hpe, hqe, hpq⟩ := hr.neighbours hcell
  have hmem : ∀ z ∈ X ++ p :: payload (addrOf (.fence :: P)) :: q :: Y,
      IsNode L (fenced (P ++ [.free k])) z :=
    fun z hz => hr.isNode_of_mem (getSegIndex_lt k) (hnodes ▸ hz)
  have hpn := hmem p (by simp)
  have hqn := hmem q (by simp)
  have hen := hmem (payload (addrOf (.fence :: P))) (by simp)
  have hne : ∀ {y z}, IsNode L _ y → IsNode L _ z → y ≠ z → NodesApart y z :=
    fun hy hz hyz => (hr.isNode_apart hy hz).resolve_left hyz
  obtain ⟨hl1, hl2⟩ := hpush.links _ hen
  rw [payload, wsize, hback hfoot₁]
  refine hback ((hr.listRemove_footer ha ha8 (by omega) (hl2.trans hp) (hl1.trans hq) hpn hqn
    (hne hpn hen hpe) (hne hqn hen hqe) (hne hpn hqn hpq)).trans hfoot₁)

/-- **Extending the heap by no bytes returns a block.** -/
theorem Rest.extendHeap_ne_zero (hr : Rest L h bs) (hw : 8 * w % 2 ^ 32 = 0) :
    (AnglOS.extendHeap L h w).1 ≠ 0 := by
  obtain ⟨ls, hrep⟩ := hr.rep
  obtain ⟨hlo, hhi⟩ := hr.brk_bounds
  obtain ⟨a, ha⟩ : ∃ a, a = addrOf (.fence :: bs) := ⟨_, rfl⟩
  have hbrk : h.memBrk = a + 8 := by
    have := hrep.brk_eq
    rw [ha]
    simp only [fenced, addrOf, words_cons, words_append, words_nil, Cell.words] at this ⊢
    omega
  have habove := L.in_image
  have hfits := L.fits
  obtain ⟨s, hs⟩ : ∃ s, s = (toInt32 w % 2 ^ 63).toNat := ⟨_, rfl⟩
  obtain ⟨N, hN⟩ : ∃ N, N = add64 a (8 * s) := ⟨_, rfl⟩
  simp only [kheapBase, memMaxAddr, numLists] at hlo hhi hfits
  -- where the block ends: at its own header, or far from the heap and from the lists
  have hfar : s = 0 ∧ N = a ∨ s ≠ 0 ∧ 16 ≤ N ∧ N + 8 ≤ L.addr ∧
      (N + 8 ≤ kheapBase ∨ kheapBase + 2 ^ 26 ≤ N - 8) := by
    rw [add64] at hN
    simp only [kheapBase]
    rcases tag_of_no_bytes hw hs with h0 | h0 | h0
    · left
      omega
    · right
      omega
    · right
      omega
  have hnode : ∀ p, IsNode L (fenced bs) p → heapStart ≤ p ∧ p + 24 ≤ a ∨ L.addr ≤ p :=
    fun p hp => ha ▸ hrep.node_bounds hp
  simp only [heapStart, kheapBase] at hnode hfar
  obtain ⟨htag, hfoot, hframe⟩ := markBlockFree_any h.mem hs hN (a := a) (by omega) (by omega)
  obtain ⟨m₀, hm₀⟩ : ∃ m₀, m₀ = AnglOS.markBlockFree h.mem a (toInt32 w) := ⟨_, rfl⟩
  rw [← hm₀] at htag hfoot hframe
  obtain ⟨m₁, hm₁⟩ : ∃ m₁, m₁ = AnglOS.pushFree L m₀ a := ⟨_, rfl⟩
  obtain ⟨m₂, hm₂⟩ : ∃ m₂, m₂ = m₁.store64 N fence := ⟨_, rfl⟩
  obtain ⟨i, hi⟩ : ∃ i, i = getSegIndex (AnglOS.blkSize m₀ a) := ⟨_, rfl⟩
  have hpush : m₁ = AnglOS.listPushBack m₀ (L.list i) (a + 8) := by
    rw [hm₁, AnglOS.pushFree, getSegList, ← hi, payload]
  obtain ⟨hframe₁, b, t, hpushed⟩ := hrep.push_remove (i := i)
    (e := a + 8) (m := m₀) m₂ (hi ▸ getSegIndex_lt _) (by omega)
    (fun p hp => hrep.apart_last ha (by omega) hp)
    (fun p hp x hx => by
      have := hnode p hp
      rw [InNode] at hx
      exact hframe x (by omega) (by omega))
    (fun p hp x hx => by
      have hp' : p = a + 8 ∨ _ := hp.imp_right (hnode p)
      rw [InNode] at hx
      rw [hm₂, ← hpush, Mem.store64_of_not_mem (by omega)])
  rw [← hpush] at hframe₁
  have hword : ∀ y, y = a - 8 ∨ y = a → m₁.load64 y = m₀.load64 y := fun y hy =>
    Mem.load64_congr fun x h1 h2 => hframe₁ x (by rw [InNode]; omega)
      (hrep.offNodes_last ha (by omega) (by omega) (by omega))
  have hprev₂ : m₂.load64 (a - 8) = m₀.load64 (a - 8) := by
    rw [hm₂, Mem.load64_store64_of_disjoint (by omega), hword _ (Or.inl rfl)]
  have hsize : s < 2 ^ 63 := by omega
  have hnext₁ : AnglOS.nextBlk m₁ a = N := by
    rw [AnglOS.nextBlk, AnglOS.blkSize, hword a (Or.inr rfl), htag, tagSize_mkTag hsize, hN]
  -- the block behind the new one is the fence that was just written
  have hnext₂ : AnglOS.nextBlk m₂ a = N := by
    rcases hfar with ⟨-, hNa⟩ | ⟨-, -, -, hNfar⟩
    · rw [AnglOS.nextBlk, AnglOS.blkSize, hm₂, hNa, Mem.load64_store64_self, fence,
        tagSize_mkTag (by norm_num), Nat.mul_zero, add64_eq (by omega), Nat.add_zero]
    · rw [AnglOS.nextBlk, AnglOS.blkSize, hm₂, Mem.load64_store64_of_disjoint (by omega),
        hword a (Or.inr rfl), htag, tagSize_mkTag hsize, hN]
  have hused : blkFree m₂ (AnglOS.nextBlk m₂ a) = false := by
    rw [hnext₂, blkFree, hm₂, Mem.load64_store64_self, fence, tagInuse_mkTag]
    rfl
  have hpos : h.memBrk ≠ 0 := by omega
  have hblk : h.memBrk - wsize = a := by
    rw [hbrk, wsize]
    omega
  have hsbrk : AnglOS.memSbrk h (toInt32 (w * wsize)) = (h.memBrk, h) := by
    rw [hr.memSbrk, hw, Nat.add_zero, if_pos (by simp only [memMaxAddr, kheapBase]; omega)]
  simp only [AnglOS.extendHeap, hsbrk, if_neg hpos, hblk, ← hm₀, ← hm₁, hnext₁, ← hm₂]
  refine coalesce_ne_zero (by omega) hused fun hin => ?_
  rcases hfar with ⟨rfl, hNa⟩ | ⟨hs0, -, -, hNfar⟩
  · rw [hpushed.remove_self hrep ha (by omega) (by omega) (by omega)
      (hprev₂.trans (hfoot hNa (by omega)))]
    omega
  · have hsame : m₂.load64 (a - 8) = h.mem.load64 (a - 8) :=
      hprev₂.trans (Mem.load64_congr fun x h1 h2 => hframe x (by omega) (by omega))
    rw [prevBlkFooter, wsize, hsame] at hin
    obtain ⟨P, k, rfl⟩ := hr.last_free (by rw [← ha]; exact hin)
    rw [hpushed.remove_last hrep ha (by omega) (by omega) hsame, addrOf, heapStart]
    omega

end

/-! ### Safe requests -/

/-- The block at the pointer `p` lies between the fences and has room for `size` bytes. -/
def Served (h : Heap) (p size : ℕ) : Prop :=
  p ≠ 0 ∧ heapStart + 8 ≤ p - 8 ∧ p - 8 + 8 * blkSize h.mem (p - 8) ≤ h.memBrk - 8 ∧
    size + 16 ≤ 8 * blkSize h.mem (p - 8)

/-- The bytes of the heap and of `free_lists`, which hold all tags and all links. -/
def HeapByte (L : FreeLists) (h : Heap) (x : ℕ) : Prop :=
  heapStart ≤ x ∧ x < h.memBrk ∨ L.addr ≤ x ∧ x < L.addr + 32 * numLists

/-- **What a request promises**: it fails and leaves the break, the tags, and the free lists as
they are, or it gets a block; and no tag is written at the break or above. -/
def KmallocSafe (L : FreeLists) (h : Heap) (size : ℕ) : Prop :=
  ((kmalloc L h size).1 = 0 ∧ (kmalloc L h size).2.memBrk = h.memBrk ∧
      (∀ x, HeapByte L h x → (kmalloc L h size).2.mem x = h.mem x) ∨
    Served (kmalloc L h size).2 (kmalloc L h size).1 size) ∧
  ∀ x ∈ kmallocTags L h size, x + 8 ≤ (kmalloc L h size).2.memBrk

section

variable {L : FreeLists} {h : Heap} {bs : List Cell} {size : ℕ}

/-- A block in use is served. -/
theorem Rest.served (hr : Rest L h bs) {a n : ℕ} {d : Mem} (hu : UsedAt bs a n d)
    (hn : size + 16 ≤ 8 * n) : Served h (payload a) size := by
  have hsize : AnglOS.blkSize h.mem a = n := hr.rep.blkSize hu trivial
  have hb := cellsAt_bounds (mem_of_mem_fenced hu (by simp))
  have ha : payload a - 8 = a := Nat.add_sub_cancel _ _
  obtain ⟨ls, hrep⟩ := hr.rep
  have hbrk := hrep.brk_eq
  simp only [addrOf, fenced, words_cons, words_append, words_nil, Cell.words] at hbrk hb
  rw [Served, ha, hsize]
  exact ⟨payload_ne_zero a, hb.1, by omega, hn⟩

/-- No block of the heap has room for a request that is larger than the heap. -/
theorem not_served (hbrk : h.memBrk ≤ memMaxAddr) {p : ℕ} (hs : 2 ^ 31 ≤ roundedSize size) :
    ¬Served h p size := by
  rintro ⟨-, h1, h2, h3⟩
  simp only [roundedSize, heapStart, memMaxAddr, kheapBase] at *
  omega

/-- A request of a safe size that is larger than the heap writes no tag. -/
theorem Rest.kmallocTags_refused (hr : Rest L h bs) (hsafe : SafeSize h size)
    (hs : 2 ^ 31 ≤ roundedSize size) (hsize : size < 2 ^ 64) : kmallocTags L h size = [] := by
  by_cases hwrap : 2 ^ 64 ≤ roundedSize size
  · rw [kmallocTags, if_pos (Or.inr (Or.inl (align_of_wrap hsize hwrap)))]
  · have hwords : max minBlockSizeWords (roundedSize size / wsize) = requestWords size := rfl
    obtain ⟨-, -, hchunk⟩ := requestWords_large hs
    have hfull := hr.full_of_safe hsafe hs (not_le.mp hwrap)
    rw [kmallocTags, align_of_lt (not_le.mp hwrap)]
    simp only [hwords, hchunk]
    split_ifs
    · rfl
    · rw [extendHeapTags, hr.memSbrk, if_neg (not_le.mpr hfull)]
      simp

/-- **A request of a safe size is safe.** -/
theorem Rest.kmallocSafe (hr : Rest L h bs) (hsize : size < 2 ^ 64) (hsafe : SafeSize h size) :
    KmallocSafe L h size := by
  by_cases hs : roundedSize size < 2 ^ 31
  · refine ⟨?_, hr.kmallocTags_lt hs⟩
    rcases hr.kmalloc hs with heq | ⟨bs', a, n, d, hret, hrest, hone, hn⟩
    · left
      rw [heq]
      exact ⟨rfl, rfl, fun _ _ => rfl⟩
    · right
      rw [hret]
      exact hrest.served hone.usedAt hn
  · have heq := hr.kmalloc_refused hsize hsafe (not_lt.mp hs)
    have htags := hr.kmallocTags_refused hsafe (not_lt.mp hs) hsize
    rw [KmallocSafe, heq, htags]
    exact ⟨Or.inl ⟨rfl, rfl, fun _ _ => rfl⟩, by simp⟩

/-- **A request of any other size is not**: the break moves although the request is larger than
the heap, or it stays and a block is returned all the same. -/
theorem Rest.not_kmallocSafe (hr : Rest L h bs) (hbad : ¬SafeSize h size) :
    ¬KmallocSafe L h size := by
  rw [SafeSize] at hbad
  push Not at hbad
  obtain ⟨h32, h64, hmax⟩ := hbad
  have hs : 2 ^ 31 ≤ roundedSize size := le_trans (by norm_num) h32
  obtain ⟨hwords, -, -⟩ := requestWords_large hs
  have hbrk := hr.extendHeap_memBrk (w := requestWords size) (by rwa [hwords])
  rw [hwords] at hbrk
  rintro ⟨hdone, -⟩
  rw [hr.kmalloc_of_large hs h64] at hdone
  rcases hdone with ⟨h0, hsame, -⟩ | hserved
  · rw [placeExtended_memBrk, hbrk] at hsame
    have hzero := hr.extendHeap_ne_zero (w := requestWords size) (by rw [hwords]; omega)
    rw [placeExtended, if_neg hzero] at h0
    exact payload_ne_zero _ h0
  · exact not_served (by rw [placeExtended_memBrk, hbrk]; exact hmax) hs hserved

end

/-! ### Runs with requests of any size -/

/-- What callers may do when they ask for as much as they like: as `HeapCall.Allowed`, and any
request of a safe size. -/
def HeapCall.Harmless (c : HeapClient) : HeapCall → Prop
  | .kmalloc size => size < 2 ^ 64 ∧ SafeSize c.heap size
  | .kcalloc size => (HeapCall.kcalloc size).Allowed c
  | .kfree ptr => (HeapCall.kfree ptr).Allowed c
  | .krealloc ptr size => (HeapCall.krealloc ptr size).Allowed c
  | .write ptr i v => (HeapCall.write ptr i v).Allowed c

/-- One call, with a request of any safe size. -/
def HeapClient.anyStep (L : FreeLists) (k : HeapCall) (c c' : HeapClient) : Prop :=
  k.Harmless c ∧ c' = c.exec L k

/-- A call with a request of any safe size keeps the invariant. -/
theorem HeapClient.Ok.exec_harmless {L : FreeLists} {c : HeapClient} {bs : List Cell}
    (hok : c.Ok L bs) {k : HeapCall} (hk : k.Harmless c) : ∃ bs', (c.exec L k).Ok L bs' := by
  have hallowed : k.Allowed c → ∃ bs', (c.exec L k).Ok L bs' := fun h => by
    obtain ⟨bs', hok', -⟩ := hok.exec h
    exact ⟨bs', hok'⟩
  cases k with
  | kmalloc size =>
      by_cases hs : roundedSize size < 2 ^ 31
      · exact hallowed hs
      · have hrefused : (kmalloc L c.heap size).1 = 0 ∧ Rest L (kmalloc L c.heap size).2 bs := by
          rw [hok.rest.kmalloc_refused hk.1 hk.2 (not_lt.mp hs)]
          exact ⟨rfl, hok.rest⟩
        obtain ⟨bs', hok', -⟩ := hok.grant (Or.inl hrefused)
        exact ⟨bs', hok'⟩
  | kcalloc size => exact hallowed hk
  | kfree ptr => exact hallowed hk
  | krealloc ptr size => exact hallowed hk
  | write ptr i v => exact hallowed hk

/-- The invariant holds in every run with requests of any safe size. -/
theorem HeapClient.ok_of_anyRun {L : FreeLists} {h : Heap} (hbrk : h.memBrk = kheapBase)
    {ks : List HeapCall} {c : HeapClient}
    (hrun : Run (HeapClient.anyStep L) (HeapClient.init L h) ks c) : ∃ bs, c.Ok L bs := by
  refine hrun.invariant (O := fun _ => True) (P := fun c => ∃ bs, c.Ok L bs) ?_ (by simp) ?_
  · rintro k c c' - ⟨bs, hok⟩ ⟨hk, rfl⟩
    exact hok.exec_harmless hk
  · exact HeapClient.ok_of_run hbrk (Run.nil _)

/-- **The sizes that `kmalloc` handles**: in every run, a request of any 64-bit size fails without
a trace or gets a block inside the heap if and only if the size is safe. -/
theorem kmalloc_safe_iff {L : FreeLists} {h : Heap} (hbrk : h.memBrk = kheapBase)
    {ks : List HeapCall} {c : HeapClient}
    (hrun : Run (HeapClient.anyStep L) (HeapClient.init L h) ks c) {size : ℕ}
    (hsize : size < 2 ^ 64) : KmallocSafe L c.heap size ↔ SafeSize c.heap size := by
  obtain ⟨bs, hok⟩ := HeapClient.ok_of_anyRun hbrk hrun
  constructor
  · exact fun h => by_contra fun hbad => hok.rest.not_kmallocSafe hbad h
  · exact hok.rest.kmallocSafe hsize

/-- The break of a new heap. -/
theorem init_memBrk {L : FreeLists} {h : Heap} (hbrk : h.memBrk = kheapBase) :
    (HeapClient.init L h).heap.memBrk = kheapBase + 320 := by
  obtain ⟨m, hempty, hheap, -⟩ := initKernelHeap_eq (L := L) hbrk
  rw [HeapClient.init]
  dsimp only
  rw [hheap, hempty.extendHeap_memBrk (by norm_num)]
  norm_num

/-- A request of almost 4 GiB after one of 24 bytes. -/
theorem kmalloc_safe_iff_4gib : ∃ c, Run (HeapClient.anyStep imageLists)
    (HeapClient.init imageLists zeroHeap) ([] ++ [.kmalloc 24]) c ∧
      KmallocSafe imageLists c.heap (2 ^ 32 - 32) := by
  have hrun : Run (HeapClient.anyStep imageLists) (HeapClient.init imageLists zeroHeap)
      ([] ++ [.kmalloc 24]) _ := (Run.nil _).snoc ⟨⟨by norm_num, Or.inl (by decide)⟩, rfl⟩
  exact ⟨_, hrun, (kmalloc_safe_iff rfl hrun (by norm_num)).mpr (Or.inl (by decide))⟩

/-- A new heap is damaged by a request of 4 GiB: the break moves by the 16 bytes that are left of
it in 32 bits. -/
theorem kmalloc_4gib_unsafe : ¬∀ (L : FreeLists) (h : Heap), h.memBrk = kheapBase →
    ∀ ks c, Run (HeapClient.anyStep L) (HeapClient.init L h) ks c →
      ∀ size < 2 ^ 64, KmallocSafe L c.heap size := by
  intro hall
  have hsafe := hall imageLists zeroHeap rfl [] _ (Run.nil _) (2 ^ 32) (by norm_num)
  obtain ⟨bs, hok⟩ := HeapClient.ok_of_run (L := imageLists) (h := zeroHeap) rfl (Run.nil _)
  refine hok.rest.not_kmallocSafe ?_ hsafe
  rw [SafeSize, init_memBrk rfl]
  decide

/-! ### Cleared requests -/

/-- There is space for a request of `size` bytes: nothing is asked for, or `find_fit` finds a
block, or the break can grow. -/
def HasSpace (L : FreeLists) (h : Heap) (size : ℕ) : Prop :=
  size = 0 ∨ (findFit L h.mem (requestWords size)).isSome ∨
    h.memBrk + 8 * max (requestWords size) chunkSize ≤ memMaxAddr

/-- The bytes that `_kcalloc` clears: `memset` stores to `size` bytes from the pointer on that
`_kmalloc` returned. -/
def kcallocClears (L : FreeLists) (h : Heap) (size x : ℕ) : Prop :=
  (kmalloc L h size).1 ≤ x ∧ x < (kmalloc L h size).1 + size

/-- The bytes of the tags and of the list nodes of a heap with the blocks `blks`. -/
def OwnByte (L : FreeLists) (h : Heap) (blks : List ℕ) (x : ℕ) : Prop :=
  (heapStart ≤ x ∧ x < heapStart + 8) ∨ (h.memBrk - 8 ≤ x ∧ x < h.memBrk) ∨
    (L.addr ≤ x ∧ x < L.addr + 32 * numLists) ∨
    ∃ b ∈ blks, (b ≤ x ∧ x < b + 8) ∨ (getFooter h.mem b ≤ x ∧ x < getFooter h.mem b + 8) ∨
      (blkFree h.mem b = true ∧ InNode (payload b) x)

/-- **What a cleared request promises**, with `c'` the state after it returned `q`: it fails and
writes to tags and list nodes only, or its block is live, large enough, and cleared, and the other
live blocks stay. -/
def AllOrNothing (L : FreeLists) (c c' : HeapClient) (size q : ℕ) : Prop :=
  (q = 0 ∧ ∀ blks, WellFormed L c.heap blks → ∀ x, ¬OwnByte L c.heap blks x →
      ¬kcallocClears L c.heap size x ∧ (kmalloc L c.heap size).2.mem x = c.heap.mem x) ∨
    (Served c'.heap q size ∧ c'.live q = some size ∧
      (∃ blks, WellFormed L c'.heap blks ∧ c'.LiveBlocks blks) ∧
      (∀ i < size, c'.heap.mem (q + i) = 0#8) ∧
      ∀ r s, c.live r = some s → c'.live r = some s ∧ SameBlock c c' r)

section

variable {L : FreeLists} {h : Heap} {c : HeapClient} {bs : List Cell} {size : ℕ}

/-- Where there is space, the request is small. -/
theorem Rest.rounded_of_space (hr : Rest L h bs) (hspace : HasSpace L h size) :
    roundedSize size < 2 ^ 31 := by
  obtain ⟨hlo, -⟩ := hr.brk_bounds
  by_contra hs
  obtain ⟨hwords, hlarge, hchunk⟩ := requestWords_large (not_lt.mp hs)
  rcases hspace with rfl | hfit | hmax
  · exact hs (by decide)
  · rw [hr.findFit_none hlarge] at hfit
    simp at hfit
  · rw [hchunk, hwords] at hmax
    simp only [memMaxAddr, kheapBase] at hlo hmax
    omega

/-- Where there is space, a request gets a block. -/
theorem Rest.kmalloc_ne_zero (hr : Rest L h bs) (hpos : size ≠ 0) (hspace : HasSpace L h size) :
    (AnglOS.kmalloc L h size).1 ≠ 0 := by
  have hs := hr.rounded_of_space hspace
  obtain ⟨hw8, hw2, hwl, -⟩ := requestWords_spec hs
  cases hfit : AnglOS.findFit L h.mem (requestWords size) with
  | some bp =>
      have hnot : ¬roundedSize size < size := not_lt.mpr (le_roundedSize size)
      have hwords : max minBlockSizeWords (roundedSize size / wsize) = requestWords size := rfl
      rw [AnglOS.kmalloc, if_neg hpos, align_eq hs]
      simp only [if_neg hnot, hwords, hfit]
      exact payload_ne_zero bp
  | none =>
      have hmax : h.memBrk + 8 * max (requestWords size) chunkSize ≤ memMaxAddr := by
        rcases hspace with h0 | hsome | hmax
        · exact absurd h0 hpos
        · rw [hfit] at hsome
          simp at hsome
        · exact hmax
      rw [kmalloc_of_none hpos (lt_trans hs (by norm_num)) hfit]
      rcases hr.extendHeap (w := max (requestWords size) chunkSize) (by omega)
        (by simp only [chunkSize]; omega) (by simp only [chunkSize]; omega) with
          ⟨-, hfull⟩ | ⟨P, k, hret, -⟩
      · omega
      · have hne : (AnglOS.extendHeap L h (max (requestWords size) chunkSize)).1 ≠ 0 := by
          rw [hret]
          simp only [addrOf, heapStart]
          omega
        rw [placeExtended, if_neg hne]
        exact payload_ne_zero _

/-- Where there is no space, a small request fails. -/
theorem Rest.kmalloc_no_space (hr : Rest L h bs) (hs : roundedSize size < 2 ^ 31)
    (hspace : ¬HasSpace L h size) : AnglOS.kmalloc L h size = (0, h) := by
  rw [HasSpace] at hspace
  push Not at hspace
  obtain ⟨hpos, hfit, hmax⟩ := hspace
  obtain ⟨-, -, hwl, -⟩ := requestWords_spec hs
  have hmod :
      8 * max (requestWords size) chunkSize % 2 ^ 32 = 8 * max (requestWords size) chunkSize :=
    Nat.mod_eq_of_lt (by simp only [chunkSize]; omega)
  rw [kmalloc_of_none hpos (lt_trans hs (by norm_num)) (by simpa using hfit),
    hr.extendHeap_fails (by rwa [hmod]), placeExtended, if_pos rfl]

/-- **With space, a cleared request succeeds or asked for nothing.** -/
theorem HeapClient.Ok.allOrNothing (hok : c.Ok L bs) (hspace : HasSpace L c.heap size) :
    AllOrNothing L c (c.exec L (.kcalloc size)) size (kcalloc L c.heap size).1 := by
  by_cases hpos : size = 0
  · left
    have heq : kmalloc L c.heap size = (0, c.heap) := by
      rw [kmalloc, if_pos hpos]
    refine ⟨by rw [kcalloc, heq], fun blks _ x _ => ?_⟩
    rw [kcallocClears, heq]
    exact ⟨by omega, rfl⟩
  · right
    have hne : (kcalloc L c.heap size).1 ≠ 0 := hok.rest.kmalloc_ne_zero hpos hspace
    rcases hok.rest.kcalloc (hok.rest.rounded_of_space hspace) with
      ⟨h0, -⟩ | ⟨bs', a, n, d, hret, hrest, hone, hn, hzero⟩
    · exact absurd h0 hne
    · obtain ⟨hok', hkeep⟩ := hok.grant_new hrest hone hn
      have hexec : c.exec L (.kcalloc size) = ⟨(kcalloc L c.heap size).2,
          Function.update c.live (payload a) (some size)⟩ := by
        simp [HeapClient.exec, AnglOS.grant, hret, payload_ne_zero]
      rw [hexec, hret]
      refine ⟨hrest.served hone.usedAt hn, Function.update_self _ _ _,
        ⟨_, hok'.rest.wellFormed, hok'.liveBlocks⟩, fun i hi => ?_, fun r s hr => ?_⟩
      · exact (hrest.rep.payload_eq hone.usedAt (by omega)).trans (hzero i hi)
      · obtain ⟨b, k, e, rfl, hv, -⟩ := hok.used_of_live r s hr
        have hb0 := payload_ne_zero b
        exact ⟨hkeep.live _ s hb0 hr, hok.sameBlock hok' hv (hkeep.used b k e hb0 hv)⟩

/-- **Without space, a cleared request writes from address zero on**, or returns a block that is
too small. -/
theorem HeapClient.Ok.not_allOrNothing (hok : c.Ok L bs) (hspace : ¬HasSpace L c.heap size) :
    ¬AllOrNothing L c (c.exec L (.kcalloc size)) size (kcalloc L c.heap size).1 := by
  rintro (⟨h0, hclean⟩ | ⟨hserved, -, ⟨blks, hwf, -⟩, -⟩)
  · -- byte zero is no byte of the heap
    obtain ⟨hclears, -⟩ := hclean _ hok.rest.wellFormed 0 (by
      rintro (h | h | h | ⟨b, hb, h⟩)
      · simp only [heapStart] at h
        omega
      · have := hok.rest.brk_bounds.1
        omega
      · have := L.in_image
        omega
      · obtain ⟨cell, hc⟩ := mem_blockAddrs.mp hb
        have hlo := (cellsAt_bounds hc).1
        obtain ⟨htag, hwords, -, -⟩ := (hok.rest.block cell (mem_of_mem_cellsAt hc)).facts
        rw [hok.rest.rep.getFooter (mem_fenced hc) htag hwords] at h
        simp only [InNode, payload, wsize, heapStart, kheapBase] at h hlo
        omega)
    have hret : (kmalloc L c.heap size).1 = 0 := h0
    have hpos : size ≠ 0 := fun h => hspace (Or.inl h)
    rw [kcallocClears, hret] at hclears
    omega
  · by_cases hs : roundedSize size < 2 ^ 31
    · have hret : (kcalloc L c.heap size).1 = 0 := by
        rw [kcalloc, hok.rest.kmalloc_no_space hs hspace]
      exact hserved.1 hret
    · exact not_served hwf.brk_le (not_lt.mp hs) hserved

end

/-- **Cleared requests are all or nothing exactly when there is space**, in every run and for every
size. -/
theorem kcalloc_all_or_nothing_iff {L : FreeLists} {h : Heap} (hbrk : h.memBrk = kheapBase)
    {ks : List HeapCall} {c : HeapClient}
    (hrun : Run (HeapClient.step L) (HeapClient.init L h) ks c) (size : ℕ) :
    AllOrNothing L c (c.exec L (.kcalloc size)) size (kcalloc L c.heap size).1 ↔
      HasSpace L c.heap size := by
  obtain ⟨bs, hok⟩ := HeapClient.ok_of_run hbrk hrun
  constructor
  · exact fun h => by_contra fun hspace => hok.not_allOrNothing hspace h
  · exact hok.allOrNothing

/-- A request of 24 bytes, reallocated to 100 bytes. -/
theorem krealloc_preserves_of_run_100 : ∃ c p, Run (HeapClient.step imageLists)
    (HeapClient.init imageLists zeroHeap) ([] ++ [.kmalloc 24]) c ∧ c.live p = some 24 ∧
      ReallocKeeps imageLists c (c.exec imageLists (.krealloc p 100)) p 100
        (krealloc imageLists c.heap p 100).1 := by
  have h24 : roundedSize 24 < 2 ^ 31 := by decide
  have hrun : Run (HeapClient.step imageLists) (HeapClient.init imageLists zeroHeap)
      ([] ++ [.kmalloc 24]) _ := (Run.nil _).snoc ⟨h24, rfl⟩
  obtain ⟨bs, hok⟩ := HeapClient.ok_of_run (L := imageLists) (h := zeroHeap) rfl (Run.nil _)
  have hne : firstPtr ≠ 0 := hok.rest.kmalloc_ne_zero (by decide) (Or.inr (Or.inr (by
    rw [init_memBrk rfl]
    decide)))
  have hlive : ((HeapClient.init imageLists zeroHeap).exec imageLists (.kmalloc 24)).live firstPtr =
      some 24 := by
    rw [HeapClient.exec]
    dsimp only
    rw [← firstPtr, grant, if_neg hne, Function.update_self]
  exact ⟨_, firstPtr, hrun, hlive, krealloc_preserves_of_run rfl hrun hlive (by decide) (by decide)⟩

/-- A cleared request of 24 bytes on a new heap. -/
theorem kcalloc_all_or_nothing_iff_24 :
    AllOrNothing imageLists (HeapClient.init imageLists zeroHeap)
      ((HeapClient.init imageLists zeroHeap).exec imageLists (.kcalloc 24)) 24
      (kcalloc imageLists (HeapClient.init imageLists zeroHeap).heap 24).1 :=
  (kcalloc_all_or_nothing_iff rfl (Run.nil _) 24).mpr (Or.inr (Or.inr (by
    rw [init_memBrk rfl]
    decide)))

/-- A cleared request of 64 MiB on a new heap clears the first 64 MiB of memory. -/
theorem kcalloc_64mib_clears_zero : ¬∀ (L : FreeLists) (h : Heap), h.memBrk = kheapBase →
    ∀ ks c, Run (HeapClient.step L) (HeapClient.init L h) ks c → ∀ size < 2 ^ 64,
      AllOrNothing L c (c.exec L (.kcalloc size)) size (kcalloc L c.heap size).1 := by
  intro hall
  have hdone := hall imageLists zeroHeap rfl [] _ (Run.nil _) (2 ^ 26) (by norm_num)
  obtain ⟨bs, hok⟩ := HeapClient.ok_of_run (L := imageLists) (h := zeroHeap) rfl (Run.nil _)
  refine hok.not_allOrNothing ?_ hdone
  have hfit := hok.rest.findFit_none (w := requestWords (2 ^ 26)) (by decide)
  rw [HasSpace, hfit, init_memBrk rfl]
  decide

end AnglOS
