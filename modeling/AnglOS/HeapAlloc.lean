import AnglOS.HeapOps

/-!
# Allocation, Release, and Reallocation

What the entry points of `heap.c` do to a heap at rest. Each result gives the blocks of the
heap afterwards and compares the blocks in use with those before; since a used cell carries its
payload, this also says which payloads stayed.

## Main results

* `rest_initKernelHeap` — the heap that `initKernelHeap` sets up is at rest and has one block;
* `Rest.kmalloc` — one more block is in use, or nothing changed;
* `Rest.kcalloc` — as `kmalloc`, with a cleared payload;
* `Rest.kfree` — one block less is in use;
* `Rest.krealloc` — the block was replaced by one with the same contents, or all blocks in use
  stayed.
-/

namespace AnglOS

/-- A request of `size` bytes with the space for its tags, rounded up. -/
def roundedSize (size : ℕ) : ℕ :=
  (size + 16 + 15) / 16 * 16

/-- The words that `_kmalloc` and `_krealloc` ask for. -/
def requestWords (size : ℕ) : ℕ :=
  max minBlockSizeWords (roundedSize size / wsize)

section

variable {L : FreeLists} {h : Heap} {P Q bs bs' : List Cell} {a n size : ℕ} {d : Mem}

theorem align_of_lt (hs : roundedSize size < 2 ^ 64) :
    align (add64 size 16) = roundedSize size := by
  rw [roundedSize] at hs ⊢
  rw [align, add64_eq (show size + 16 < 2 ^ 64 by omega), add64_eq (by omega)]

theorem align_eq (hs : roundedSize size < 2 ^ 31) : align (add64 size 16) = roundedSize size :=
  align_of_lt (lt_trans hs (by norm_num))

theorem le_roundedSize (size : ℕ) : size ≤ roundedSize size := by
  rw [roundedSize]
  omega

/-- The words of a request: an even number, at least eight, that holds the payload and the
tags. -/
theorem requestWords_spec (hs : roundedSize size < 2 ^ 31) :
    8 ≤ requestWords size ∧ requestWords size % 2 = 0 ∧ requestWords size * 8 < 2 ^ 31 ∧
      size + 16 ≤ 8 * requestWords size := by
  simp only [requestWords, roundedSize, minBlockSizeWords, wsize] at *
  omega

/-- A block of a heap at rest splits its list of blocks. -/
theorem exists_of_mem_fenced {c : Cell} (hc : c ≠ .fence)
    (hmem : (a, c) ∈ cellsAt heapStart (fenced bs)) :
    ∃ P Q, bs = P ++ c :: Q ∧ a = addrOf (.fence :: P) := by
  obtain ⟨P, Q, heq, rfl⟩ := mem_cellsAt.mp hmem
  cases P with
  | nil => exact absurd (List.cons.inj heq).1.symm hc
  | cons e P =>
      obtain ⟨rfl, hbs⟩ := List.cons.inj heq
      rcases List.eq_nil_or_concat Q with rfl | ⟨Q', e, rfl⟩
      · obtain ⟨-, hlast⟩ := List.append_inj' hbs rfl
        exact absurd (List.singleton_injective hlast).symm hc
      · refine ⟨P, Q', ?_, rfl⟩
        have hbs' : bs ++ [.fence] = (P ++ c :: Q') ++ [e] := by simpa using hbs
        exact (List.append_inj' hbs' rfl).1

/-- The payload of a used block. -/
theorem Rep.payload_eq {cs : List Cell} (hr : Rep L h cs)
    (hmem : (a, Cell.used n d) ∈ cellsAt heapStart cs) {i : ℕ} (hi : i < 8 * n - 16) :
    h.mem (payload a + i) = d (payload a + i) := by
  obtain ⟨ls, hr⟩ := hr
  have hok : CellOk h.mem a (.used n d) := hr.ok _ hmem
  refine hok.2 _ ?_ ?_
  · simp only [payload, wsize]
    omega
  · simp only [payload, wsize]
    omega

/-! ### Allocation -/

/-- **Allocation**: one more block is in use, or there is no space and nothing changed. -/
theorem Rest.kmalloc (hr : Rest L h bs) (hs : roundedSize size < 2 ^ 31) :
    kmalloc L h size = (0, h) ∨ ∃ bs' a n d, (kmalloc L h size).1 = payload a ∧
      Rest L (kmalloc L h size).2 bs' ∧ OneMore bs bs' a n d ∧ size + 16 ≤ 8 * n := by
  obtain ⟨hw8, hw2, hwl, hws⟩ := requestWords_spec hs
  by_cases hsize : size = 0
  · left
    rw [AnglOS.kmalloc, if_pos hsize]
  have hnot : ¬roundedSize size < size := not_lt.mpr (le_roundedSize size)
  simp only [AnglOS.kmalloc, if_neg hsize, align_eq hs, if_neg hnot]
  rw [← requestWords]
  cases hfit : AnglOS.findFit L h.mem (requestWords size) with
  | some bp =>
      right
      obtain ⟨m, hmem, hm⟩ := hr.rep.findFit hfit
      obtain ⟨P, Q, rfl, rfl⟩ := exists_of_mem_fenced (by simp) hmem
      obtain ⟨k, d, Q', hrest, hk, hone⟩ := hr.place hw8 hw2 hm
      exact ⟨_, _, k, d, rfl, hrest, hone, by omega⟩
  | none =>
      rcases hr.extendHeap (w := max (requestWords size) chunkSize) (by omega)
        (by simp only [chunkSize]; omega) (by simp only [chunkSize]; omega) with
          ⟨heq, -⟩ | ⟨P, k, hret, hrest, hk, hsame⟩
      · left
        simp only [heq, if_true]
      · right
        have hpos : addrOf (.fence :: P) ≠ 0 := by
          simp only [addrOf, heapStart]
          omega
        obtain ⟨j, d, Q', hrest', hj, hone⟩ := hrest.place (w := requestWords size) hw8 hw2
          (by omega)
        simp only [hret, if_neg hpos]
        refine ⟨_, _, j, d, rfl, hrest', ⟨?_, ?_⟩, by omega⟩
        · exact fun k e hused => hone.fresh k e ((hsame _ _ _).mp hused)
        · intro b k e
          rw [hone.iff, hsame]

/-- A used block was a free one before it was used. -/
theorem OneMore.of_used (hfits : ∀ c ∈ P ++ .used n d :: Q, c.Fits) :
    OneMore (P ++ .free n :: Q) (P ++ .used n d :: Q) (addrOf (.fence :: P)) n d := by
  have hn8 : 8 ≤ n := hfits (.used n d) (by simp)
  have := OneMore.replace (P := P) (Q := Q) (n := n) (d := d) (M := []) (N := []) hn8
    (fun k e hk => hfits (.used k e) (by
      rw [List.mem_append] at hk
      rw [List.mem_append, List.mem_cons]
      tauto)) (by simp) (by simp) rfl
  simpa using this

/-- **Writing to the payload of a used block** changes that block and nothing else. -/
theorem Rest.write (hr : Rest L h bs) (hu : UsedAt bs a n d) {m : Mem}
    (hm : ∀ x, ¬(payload a ≤ x ∧ x < payload a + (8 * n - 16)) → m x = h.mem x) :
    ∃ bs', Rest L { h with mem := m } bs' ∧ Swap bs bs' a a n m := by
  obtain ⟨P, Q, rfl, rfl⟩ := exists_of_mem_fenced (by simp) hu
  have hfits := hr.fits
  have hn8 : 8 ≤ n := hfits (.used n d) (by simp)
  simp only [payload, wsize] at hm
  have hrep : Rep L h (.fence :: P ++ [.used n d] ++ (Q ++ [.fence])) := by
    simpa [fenced] using hr.rep
  have hok : Tagged h.mem (addrOf (.fence :: P)) n true := by
    have htags := hrep.load_header (a := addrOf (.fence :: P)) (c := .used n d)
      (by simpa using mem_cellsAt_fst (.fence :: P) (.used n d) (Q ++ [.fence])) trivial
    have hfoot := hrep.load_footer (a := addrOf (.fence :: P)) (c := .used n d)
      (by simpa using mem_cellsAt_fst (.fence :: P) (.used n d) (Q ++ [.fence])) trivial
    exact ⟨htags, hfoot⟩
  have hrep' : Rep L { h with mem := m } (.fence :: P ++ [.used n m] ++ (Q ++ [.fence])) := by
    refine hrep.overwrite (by simp [Cell.IsFree]) (by simp [Cell.IsFree, Cell.Fits, hn8]) rfl
      (fun x hx => hm x ?_) ?_
    · simp only [words_cons, words_nil, Cell.words] at hx
      omega
    · simp only [cellsAt, List.mem_singleton]
      rintro _ rfl
      exact ⟨hok.congr hn8 fun x hx => hm x (by omega), fun x _ _ => rfl⟩
  have hblocks := hr.block
  refine ⟨P ++ .used n m :: Q, ⟨by simpa [fenced] using hrep', ?_,
    separated_used.mpr (separated_used.mp hr.separated)⟩, ?_⟩
  · exact isBlock_middle (fun c hc => hblocks c (by simp [hc]))
      (fun c hc => hblocks c (by simp [hc])) (hblocks (.used n d) (by simp))
  · have hfits' : ∀ c ∈ P ++ .used n m :: Q, c.Fits := fun c hc => hrep'.fits c (by
      simp only [List.mem_append, List.mem_cons] at hc ⊢
      tauto)
    exact (OneMore.of_used hfits).swap (OneMore.of_used hfits')

/-- Using a block and then another one in its place. -/
theorem OneMore.trans_swap {bs'' : List Cell} {n' : ℕ} {d' : Mem} (h : OneMore bs bs' a n d)
    (h' : Swap bs' bs'' a a n' d') : OneMore bs bs'' a n' d' where
  fresh := h.fresh
  iff b k e := by rw [h'.iff, ← h.oneLess b k e]

theorem OneMore.usedAt (h : OneMore bs bs' a n d) : UsedAt bs' a n d :=
  (h.iff a n d).mpr (Or.inr ⟨rfl, rfl, rfl⟩)

/-- **Cleared allocation**: as `Rest.kmalloc`, and the payload of the new block is zero. When there
is no space, the bytes from address zero on are cleared, which the heap does not notice. -/
theorem Rest.kcalloc (hr : Rest L h bs) (hs : roundedSize size < 2 ^ 31) :
    (kcalloc L h size).1 = 0 ∧ Rest L (kcalloc L h size).2 bs ∨
      ∃ bs' a n d, (kcalloc L h size).1 = payload a ∧ Rest L (kcalloc L h size).2 bs' ∧
        OneMore bs bs' a n d ∧ size + 16 ≤ 8 * n ∧ ∀ i < size, d (payload a + i) = 0#8 := by
  simp only [AnglOS.kcalloc]
  rcases hr.kmalloc hs with heq | ⟨bs', a, n, d, hret, hrest, hone, hn⟩
  · left
    rw [heq]
    refine ⟨rfl, Rep.frame_low hr.rep fun x hx => ?_, hr.block, hr.separated⟩
    have hsmall : size < 2 ^ 31 := lt_of_le_of_lt (le_roundedSize size) hs
    simp only [heapStart, kheapBase] at hx
    rw [memset_apply, if_neg (by omega)]
  · right
    rw [hret]
    obtain ⟨bs'', hrest', hswap⟩ := hrest.write hone.usedAt
      (m := memset (AnglOS.kmalloc L h size).2.mem (payload a) 0#8 size) fun x hx => by
        rw [memset_apply, if_neg (by omega)]
    refine ⟨bs'', a, n, _, rfl, hrest', hone.trans_swap hswap, hn, fun i hi => ?_⟩
    rw [memset_apply, if_pos (by omega)]

/-! ### Release -/

/-- **Release**: the block is not in use any more, and the other blocks in use stay. -/
theorem Rest.kfree (hr : Rest L h bs) (hu : UsedAt bs a n d) :
    ∃ bs', bs' ≠ [] ∧ Rest L (kfree L h (payload a)) bs' ∧ OneLess bs bs' a := by
  obtain ⟨P, Q, rfl, rfl⟩ := exists_of_mem_fenced (by simp) hu
  have hblocks := hr.block
  have hfits := hr.fits
  have hn8 : 8 ≤ n := hfits (.used n d) (by simp)
  have hrep : Rep L h (.fence :: P ++ [.used n d] ++ (Q ++ [.fence])) := by
    simpa [fenced] using hr.rep
  have hsize : AnglOS.blkSize h.mem (addrOf (.fence :: P)) = n :=
    hrep.blkSize (c := .used n d)
      (by simpa using mem_cellsAt_fst (.fence :: P) (.used n d) (Q ++ [.fence])) trivial
  have hr1 := hrep.makeFree (n := n) (by simp [Cell.IsFree]) hn8 (by simp [Cell.words])
  obtain ⟨hP, hQ⟩ := separated_used.mp hr.separated
  obtain ⟨P', k, Q', -, hrest, -, -, hsame⟩ := Rest.coalesce (n := n) (P := P) (Q := Q)
    (by simpa [fenced] using hr1)
    (isBlock_middle (fun c hc => hblocks c (by simp [hc])) (fun c hc => hblocks c (by simp [hc]))
      (hblocks (.used n d) (by simp))) hP hQ
  refine ⟨P' ++ .free k :: Q', by simp, ?_, ?_⟩
  · have hpos : payload (addrOf (.fence :: P)) ≠ 0 := by
      simp only [payload, wsize]
      omega
    have hblk : payload (addrOf (.fence :: P)) - wsize = addrOf (.fence :: P) := by
      rw [payload, Nat.add_sub_cancel]
    simp only [AnglOS.kfree, if_neg hpos, hblk, hsize]
    exact hrest
  · intro b k e
    rw [← hsame]
    exact (OneMore.of_used hfits).oneLess b k e

/-! ### Reallocation -/

/-- What a reallocation of the block at `a` to `size` bytes may do: fail and keep all blocks in
use, or replace the block by one that is large enough and has the same contents. -/
def Reallocated (L : FreeLists) (bs : List Cell) (a n : ℕ) (d : Mem) (size : ℕ)
    (r : ℕ × Heap) : Prop :=
  (r.1 = 0 ∧ ∃ bs', Rest L r.2 bs' ∧ SameUsed bs bs') ∨
    ∃ bs' a' n' d', r.1 = payload a' ∧ Rest L r.2 bs' ∧ Swap bs bs' a a' n' d' ∧
      size + 16 ≤ 8 * n' ∧
      ∀ i < size, i < 8 * n - 16 → d' (payload a' + i) = d (payload a + i)

theorem Reallocated.of_same {r : ℕ × Heap} (hsame : SameUsed bs bs')
    (h : Reallocated L bs' a n d size r) : Reallocated L bs a n d size r := by
  rcases h with ⟨h0, bs'', hrest, hsame'⟩ | ⟨bs'', a', n', d', hret, hrest, hswap, hn, hd⟩
  · exact Or.inl ⟨h0, bs'', hrest, hsame.trans hsame'⟩
  · refine Or.inr ⟨bs'', a', n', d', hret, hrest, ⟨fun k e hu => ?_, fun b k e => ?_⟩, hn, hd⟩
    · exact hswap.fresh k e ((hsame a' k e).mp hu)
    · rw [hswap.iff b k e, hsame b k e]

/-- Using one block and then giving up another. -/
theorem OneMore.swap_of_oneLess {bs'' : List Cell} {a' : ℕ} (h : OneMore bs bs' a n d)
    (hne : a' ≠ a) (hless : OneLess bs' bs'' a') : Swap bs bs'' a' a n d where
  fresh k e hu := absurd hu (h.fresh k e)
  iff b k e := by
    rw [hless b k e, h.iff]
    constructor
    · rintro ⟨hb | hb, hba⟩
      · exact Or.inl ⟨hb, hba⟩
      · exact Or.inr hb
    · rintro (⟨hb, hba⟩ | ⟨rfl, hb⟩)
      · exact ⟨Or.inl hb, hba⟩
      · exact ⟨Or.inr ⟨rfl, hb⟩, hne.symm⟩

/-- **Allocate, copy, and free.** -/
theorem Rest.reallocCopy (hr : Rest L h bs) (hu : UsedAt bs a n d)
    (hs : roundedSize size < 2 ^ 31) :
    Reallocated L bs a n d size (reallocCopy L h (payload a) size) := by
  rcases hr.kmalloc hs with heq | ⟨bs₁, a', n', d₁, hret, hrest₁, hone, hn'⟩
  · left
    simp only [AnglOS.reallocCopy, heq, if_true]
    exact ⟨trivial, bs, hr, fun _ _ _ => Iff.rfl⟩
  · right
    have hne : a ≠ a' := by
      rintro rfl
      exact hone.fresh n d hu
    have hu₁ : UsedAt bs₁ a n d := (hone.iff a n d).mpr (Or.inl hu)
    have hblk : payload a - wsize = a := by
      rw [payload, Nat.add_sub_cancel]
    have hsize : AnglOS.blkSize (AnglOS.kmalloc L h size).2.mem a = n :=
      hrest₁.rep.blkSize hu₁ trivial
    have hpos : payload a' ≠ 0 := by
      simp only [payload, wsize]
      omega
    obtain ⟨cnt, hcnt⟩ : ∃ cnt, cnt = if size < n * wsize - 16 then size else n * wsize - 16 :=
      ⟨_, rfl⟩
    have hle : cnt ≤ size := by
      rw [hcnt]
      split_ifs <;> omega
    -- the copy goes to the new block
    obtain ⟨bs₂, hrest₂, hswap⟩ := hrest₁.write hone.usedAt
      (m := memmove (AnglOS.kmalloc L h size).2.mem (payload a') (payload a) cnt) fun x hx => by
        rw [memmove_apply, if_neg (by omega)]
    have hone₂ := hone.trans_swap hswap
    obtain ⟨bs₃, -, hrest₃, hless⟩ := hrest₂.kfree ((hone₂.iff a n d).mpr (Or.inl hu))
    simp only [AnglOS.reallocCopy, hret, if_neg hpos, hblk, hsize, ← hcnt]
    refine ⟨bs₃, a', n', _, rfl, hrest₃, hone₂.swap_of_oneLess hne hless, hn', fun i hi hin => ?_⟩
    have hlt : i < cnt := by
      rw [hcnt, wsize]
      split_ifs <;> omega
    rw [memmove_apply, if_pos (by omega), Nat.add_sub_cancel_left]
    exact hrest₁.rep.payload_eq hu₁ hin

/-- Splitting cells on no list that lie between blocks. -/
theorem Rest.of_split {M : List Cell} {w r : ℕ}
    (hr : Rep L h (.fence :: P ++ M ++ (Q ++ [.fence]))) (hmid : ∀ c ∈ M, ¬c.IsFree)
    (hw : 8 ≤ w) (hw2 : w % 2 = 0) (hr8 : 8 ≤ r) (hr2 : r % 2 = 0) (hsum : words M = w + r)
    (hbP : ∀ c ∈ P, c.IsBlock) (hbQ : ∀ c ∈ Q, c.IsBlock) (hP : Separated P) (hQ : Separated Q)
    (hh : HeadUsed (Q ++ [.fence])) :
    Rest L { h with mem := (splitUsed L h.mem (addrOf (.fence :: P)) w r).2 }
      (P ++ .used w h.mem :: .free r :: Q) := by
  obtain ⟨-, hrep⟩ := hr.splitUsed hmid hw hr8 hsum
  refine ⟨by simpa [fenced] using hrep, ?_, separated_used.mpr ⟨hP, ?_⟩⟩
  · exact isBlock_middle hbP (isBlock_middle (P := []) (by simp) hbQ hr2) hw2
  · exact (separated_free (P := []) (by simp) hbQ).mpr
      ⟨List.isChain_nil, hQ, ⟨[], .fence, rfl, trivial⟩, hh⟩

/-- Splitting cells on no list that lie between blocks, and joining the free block with its
neighbour. -/
theorem Rest.of_split_coalesce {M : List Cell} {w r : ℕ}
    (hr : Rep L h (.fence :: P ++ M ++ (Q ++ [.fence]))) (hmid : ∀ c ∈ M, ¬c.IsFree)
    (hw : 8 ≤ w) (hw2 : w % 2 = 0) (hr8 : 8 ≤ r) (hr2 : r % 2 = 0) (hsum : words M = w + r)
    (hbP : ∀ c ∈ P, c.IsBlock) (hbQ : ∀ c ∈ Q, c.IsBlock) (hP : Separated P) (hQ : Separated Q) :
    ∃ bs', Rest L { h with
        mem := (Heap.coalesce L (splitUsed L h.mem (addrOf (.fence :: P)) w r).2
          (splitUsed L h.mem (addrOf (.fence :: P)) w r).1).2 } bs' ∧
      SameUsed (P ++ .used w h.mem :: .free r :: Q) bs' := by
  obtain ⟨hret, hrep⟩ := hr.splitUsed hmid hw hr8 hsum
  have hblocks : ∀ c ∈ (P ++ [.used w h.mem]) ++ .free r :: Q, c.IsBlock :=
    isBlock_middle (isBlock_middle hbP (by simp) hw2) hbQ hr2
  have haddr : addrOf (.fence :: (P ++ [.used w h.mem])) = addrOf (.fence :: P) + 8 * w := by
    simp only [addrOf, words_cons, words_append, words_nil, Cell.words]
    ring
  obtain ⟨P', k, Q', -, hrest, -, -, hsame⟩ := Rest.coalesce (P := P ++ [.used w h.mem]) (n := r)
    (by simpa [fenced] using hrep) hblocks (separated_used.mpr ⟨hP, List.isChain_nil⟩) hQ
  rw [haddr] at hrest
  rw [hret]
  exact ⟨_, hrest, by simpa using hsame⟩

theorem Rest.used_fits (hr : Rest L h bs) {cs : List Cell}
    (hcs : ∀ k e, Cell.used k e ∈ cs → Cell.used k e ∈ bs) :
    ∀ k e, Cell.used k e ∈ cs → 8 ≤ k :=
  fun k e hk => hr.fits (.used k e) (hcs k e hk)

/-- **Shrinking** a block in place. -/
theorem Rest.shrink (hr : Rest L h (P ++ .used n d :: Q)) (hs : roundedSize size < 2 ^ 31)
    {w : ℕ} (hw : w = requestWords size) (hwn : w + 8 ≤ n) :
    Reallocated L (P ++ .used n d :: Q) (addrOf (.fence :: P)) n d size
      (payload (addrOf (.fence :: P)), { h with
        mem := (Heap.coalesce L (splitUsed L h.mem (addrOf (.fence :: P)) w (n - w)).2
          (splitUsed L h.mem (addrOf (.fence :: P)) w (n - w)).1).2 }) := by
  obtain ⟨hw8, hw2, -, hws⟩ := requestWords_spec hs
  rw [← hw] at hw8 hw2 hws
  have hblocks := hr.block
  have hn2 : n % 2 = 0 := hblocks (.used n d) (by simp)
  obtain ⟨hP, hQ⟩ := separated_used.mp hr.separated
  have hrep : Rep L h (.fence :: P ++ [.used n d] ++ (Q ++ [.fence])) := by
    simpa [fenced] using hr.rep
  have hcell : (addrOf (.fence :: P), Cell.used n d) ∈
      cellsAt heapStart (.fence :: P ++ [.used n d] ++ (Q ++ [.fence])) := by
    simpa using mem_cellsAt_fst (.fence :: P) (.used n d) (Q ++ [.fence])
  obtain ⟨bs', hrest, hsame⟩ := Rest.of_split_coalesce hrep (by simp [Cell.IsFree]) hw8 hw2
    (show 8 ≤ n - w by omega) (by omega) (by simp only [words_cons, words_nil, Cell.words]; omega)
    (fun c hc => hblocks c (by simp [hc])) (fun c hc => hblocks c (by simp [hc])) hP hQ
  refine Or.inr ⟨bs', _, w, h.mem, rfl, hrest, (OneMore.of_used hr.fits).swap ?_, hws,
    fun i _ hin => hrep.payload_eq hcell hin⟩
  have hmore := OneMore.replace (P := P) (Q := Q) (m := n) (M := []) (N := [.free (n - w)])
    (n := w) (d := h.mem) (by omega) (hr.used_fits fun k e hk => by simp at hk ⊢; tauto) (by simp)
    (by simp) (by simp only [words_cons, words_nil, Cell.words]; omega)
  refine OneMore.trans_same ?_ hsame
  simpa using hmore

/-- **Growing** a block into the free block behind it. -/
theorem Rest.absorbNext {j : ℕ} (hr : Rest L h (P ++ .used n d :: .free j :: Q))
    (hs : roundedSize size < 2 ^ 31) {w : ℕ} (hw : w = requestWords size) (hwn : w + 8 ≤ n + j) :
    Reallocated L (P ++ .used n d :: .free j :: Q) (addrOf (.fence :: P)) n d size
      (payload (addrOf (.fence :: P)), { h with
        mem := (splitUsed L (listRemove h.mem (payload (addrOf (.fence :: P) + 8 * n)))
          (addrOf (.fence :: P)) w (n + j - w)).2 }) := by
  obtain ⟨hw8, hw2, -, hws⟩ := requestWords_spec hs
  rw [← hw] at hw8 hw2 hws
  have hblocks := hr.block
  have hn2 : n % 2 = 0 := hblocks (.used n d) (by simp)
  have hj2 : j % 2 = 0 := hblocks (.free j) (by simp)
  have hbQ : ∀ c ∈ Q, c.IsBlock := fun c hc => hblocks c (by simp [hc])
  obtain ⟨hP, hfree⟩ := separated_used.mp hr.separated
  obtain ⟨-, hQ, -, hh⟩ := (separated_free (P := []) (by simp) hbQ).mp hfree
  have hrep : Rep L h (.fence :: P ++ .used n d :: .free j :: (Q ++ [.fence])) := by
    simpa [fenced] using hr.rep
  have hr1 := hrep.listRemove_snd
  simp only [Cell.words] at hr1
  have hrest := Rest.of_split (M := [.used n d, .loose j]) (by simpa using hr1)
    (by simp [Cell.IsFree]) hw8 hw2 (show 8 ≤ n + j - w by omega) (by omega)
    (by simp only [words_cons, words_nil, Cell.words]; omega)
    (fun c hc => hblocks c (by simp [hc])) hbQ hP hQ hh
  refine Or.inr ⟨_, _, w, _, rfl, hrest, (OneMore.of_used hr.fits).swap ?_, hws,
    fun i _ hin => hr1.payload_eq (mem_cellsAt_fst _ _ _) hin⟩
  have hmore := OneMore.replace (P := P) (Q := Q) (m := n) (M := [.free j])
    (N := [.free (n + j - w)]) (n := w)
    (d := AnglOS.listRemove h.mem (payload (addrOf (.fence :: P) + 8 * n)))
    (hr.fits (.used n d) (by simp)) (hr.used_fits fun k e hk => by simp at hk ⊢; tauto) (by simp)
    (by simp) (by simp only [words_cons, words_nil, Cell.words]; omega)
  simpa using hmore

/-- `memmove` of a payload to the start of a run of cells on no list that contains it. -/
theorem Rep.slide {M : List Cell} {k w : ℕ} (hr : Rep L h (P ++ M ++ Q))
    (hmid : ∀ c ∈ M, ¬c.IsFree) (hn : 8 ≤ n) (hw : words M = w) (hkw : k + n ≤ w) :
    Rep L { h with
        mem := memmove h.mem (payload (addrOf P)) (payload (addrOf P + 8 * k)) ((n - 2) * wsize) }
      (P ++ [.raw w] ++ Q) := by
  refine hr.overwrite hmid (by simp [Cell.IsFree, Cell.Fits]) (by simp [Cell.words, hw])
    (fun x hx => ?_) (by simp [cellsAt, CellOk])
  rw [memmove_apply, if_neg]
  simp only [payload, wsize]
  omega

/-- **Sliding** a block into the free block before it, where the block behind it is free, too. -/
theorem Rest.slideBoth {j k : ℕ} (hr : Rest L h (P ++ .free k :: .used n d :: .free j :: Q))
    (hs : roundedSize size < 2 ^ 31) {w : ℕ} (hw : w = requestWords size)
    (hwn : w + 8 ≤ n + k + j) {m₁ m₂ m₃ : Mem}
    (hm₁ : m₁ = listRemove h.mem (payload (addrOf (.fence :: P))))
    (hm₂ : m₂ = listRemove m₁ (payload (nextBlk m₁ (nextBlk m₁ (addrOf (.fence :: P))))))
    (hm₃ : m₃ = memmove m₂ (payload (addrOf (.fence :: P)))
      (payload (nextBlk m₂ (addrOf (.fence :: P)))) ((n - 2) * wsize)) :
    Reallocated L (P ++ .free k :: .used n d :: .free j :: Q) (addrOf (.fence :: P) + 8 * k) n d
      size (payload (addrOf (.fence :: P)),
        { h with mem := (splitUsed L m₃ (addrOf (.fence :: P)) w (n + k + j - w)).2 }) := by
  obtain ⟨hw8, hw2, -, hws⟩ := requestWords_spec hs
  rw [← hw] at hw8 hw2 hws
  have hblocks := hr.block
  have hn8 : 8 ≤ n := hr.fits (.used n d) (by simp)
  have hn2 : n % 2 = 0 := hblocks (.used n d) (by simp)
  have hj2 : j % 2 = 0 := hblocks (.free j) (by simp)
  have hk2 : k % 2 = 0 := hblocks (.free k) (by simp)
  have hbP : ∀ c ∈ P, c.IsBlock := fun c hc => hblocks c (by simp [hc])
  have hbQ : ∀ c ∈ Q, c.IsBlock := fun c hc => hblocks c (by simp [hc])
  have hap : Separated ((P ++ [.free k]) ++ .used n d :: .free j :: Q) := by
    simpa using hr.separated
  obtain ⟨hPk, hjQ⟩ := separated_used.mp hap
  obtain ⟨hP, -, -, -⟩ := (separated_free (Q := []) hbP (by simp)).mp hPk
  obtain ⟨-, hQ, -, hh⟩ := (separated_free (P := []) (by simp) hbQ).mp hjQ
  have hrep : Rep L h (.fence :: P ++ .free k :: .used n d :: .free j :: (Q ++ [.fence])) := by
    simpa [fenced] using hr.rep
  have hr1 := hrep.listRemove
  rw [← hm₁] at hr1
  have hnext1 := hr1.nextBlk (mem_cellsAt_fst _ (.loose k) _) trivial rfl
  have hnext1' := hr1.nextBlk (mem_cellsAt_snd _ (.loose k) (.used n d) _) trivial rfl
  simp only at hnext1 hnext1'
  rw [hnext1, hnext1'] at hm₂
  have hr2 := hr1.listRemove_thd
  simp only [← hm₂] at hr2
  have hnext2 := hr2.nextBlk (mem_cellsAt_fst _ (.loose k) _) trivial rfl
  simp only at hnext2
  rw [hnext2] at hm₃
  have hr2' : Rep L { h with mem := m₂ }
      (.fence :: P ++ [.loose k, .used n d, .loose j] ++ (Q ++ [.fence])) := by
    simpa using hr2
  have hr3 := hr2'.slide (k := k) (n := n) (by simp [Cell.IsFree]) hn8 rfl
    (by simp only [words_cons, words_nil, Cell.words]; omega)
  simp only [Cell.words] at hm₃
  simp only [← hm₃] at hr3
  have hrest := Rest.of_split hr3 (by simp [Cell.IsFree]) hw8 hw2
    (show 8 ≤ n + k + j - w by omega) (by omega)
    (by simp only [words_cons, words_nil, Cell.words]; omega) hbP hbQ hP hQ hh
  have hold : OneMore (P ++ .free k :: .free n :: .free j :: Q)
      (P ++ .free k :: .used n d :: .free j :: Q) (addrOf (.fence :: P) + 8 * k) n d := by
    have := OneMore.of_used (P := P ++ [.free k]) (Q := .free j :: Q) (n := n) (d := d)
      (by simpa using hr.fits)
    rw [← List.cons_append, addrOf_snoc_free] at this
    simpa using this
  refine Or.inr ⟨_, _, w, m₃, rfl, hrest, hold.swap ?_, hws, fun i _ hin => ?_⟩
  · have hmore := OneMore.replace (P := P) (Q := Q) (m := k) (M := [.free n, .free j])
      (N := [.free (n + k + j - w)]) (n := w) (d := m₃) (hr.fits (.free k) (by simp))
      (hr.used_fits fun k e hk => by simp at hk ⊢; tauto) (by simp) (by simp)
      (by simp only [words_cons, words_nil, Cell.words]; omega)
    simpa using hmore
  · have hmove : m₃ (payload (addrOf (.fence :: P)) + i) =
        m₂ (payload (addrOf (.fence :: P) + 8 * k) + i) := by
      rw [hm₃, memmove_apply, if_pos (by simp only [wsize]; omega), Nat.add_sub_cancel_left]
    rw [hmove]
    exact hr2.payload_eq (mem_cellsAt_snd _ (.loose k) (.used n d) _) hin

/-- **Sliding** a block into the free block before it. -/
theorem Rest.slidePrev {k : ℕ} (hr : Rest L h (P ++ .free k :: .used n d :: Q))
    (hs : roundedSize size < 2 ^ 31) {w : ℕ} (hw : w = requestWords size)
    (hwn : w + 8 ≤ n + k) {m₁ m₂ : Mem}
    (hm₁ : m₁ = listRemove h.mem (payload (addrOf (.fence :: P))))
    (hm₂ : m₂ = memmove m₁ (payload (addrOf (.fence :: P)))
      (payload (nextBlk m₁ (addrOf (.fence :: P)))) ((n - 2) * wsize)) :
    Reallocated L (P ++ .free k :: .used n d :: Q) (addrOf (.fence :: P) + 8 * k) n d size
      (payload (addrOf (.fence :: P)), { h with
        mem := (Heap.coalesce L (splitUsed L m₂ (addrOf (.fence :: P)) w (n + k - w)).2
          (splitUsed L m₂ (addrOf (.fence :: P)) w (n + k - w)).1).2 }) := by
  obtain ⟨hw8, hw2, -, hws⟩ := requestWords_spec hs
  rw [← hw] at hw8 hw2 hws
  have hblocks := hr.block
  have hn8 : 8 ≤ n := hr.fits (.used n d) (by simp)
  have hn2 : n % 2 = 0 := hblocks (.used n d) (by simp)
  have hk2 : k % 2 = 0 := hblocks (.free k) (by simp)
  have hbP : ∀ c ∈ P, c.IsBlock := fun c hc => hblocks c (by simp [hc])
  have hbQ : ∀ c ∈ Q, c.IsBlock := fun c hc => hblocks c (by simp [hc])
  have hap : Separated ((P ++ [.free k]) ++ .used n d :: Q) := by simpa using hr.separated
  obtain ⟨hPk, hQ⟩ := separated_used.mp hap
  obtain ⟨hP, -, -, -⟩ := (separated_free (Q := []) hbP (by simp)).mp hPk
  have hrep : Rep L h (.fence :: P ++ .free k :: .used n d :: (Q ++ [.fence])) := by
    simpa [fenced] using hr.rep
  have hr1 := hrep.listRemove
  rw [← hm₁] at hr1
  have hnext := hr1.nextBlk (mem_cellsAt_fst _ (.loose k) _) trivial rfl
  simp only [Cell.words] at hnext
  rw [hnext] at hm₂
  have hr1' : Rep L { h with mem := m₁ }
      (.fence :: P ++ [.loose k, .used n d] ++ (Q ++ [.fence])) := by
    simpa using hr1
  have hr2 := hr1'.slide (k := k) (n := n) (by simp [Cell.IsFree]) hn8 rfl
    (by simp only [words_cons, words_nil, Cell.words]; omega)
  simp only [← hm₂] at hr2
  obtain ⟨bs', hrest, hsame⟩ := Rest.of_split_coalesce hr2 (by simp [Cell.IsFree]) hw8 hw2
    (show 8 ≤ n + k - w by omega) (by omega)
    (by simp only [words_cons, words_nil, Cell.words]; omega) hbP hbQ hP hQ
  have hold : OneMore (P ++ .free k :: .free n :: Q) (P ++ .free k :: .used n d :: Q)
      (addrOf (.fence :: P) + 8 * k) n d := by
    have := OneMore.of_used (P := P ++ [.free k]) (Q := Q) (n := n) (d := d)
      (by simpa using hr.fits)
    rw [← List.cons_append, addrOf_snoc_free] at this
    simpa using this
  refine Or.inr ⟨_, _, w, m₂, rfl, hrest, hold.swap (OneMore.trans_same ?_ hsame), hws,
    fun i _ hin => ?_⟩
  · have hmore := OneMore.replace (P := P) (Q := Q) (m := k) (M := [.free n])
      (N := [.free (n + k - w)]) (n := w) (d := m₂) (hr.fits (.free k) (by simp))
      (hr.used_fits fun k e hk => by simp at hk ⊢; tauto) (by simp) (by simp)
      (by simp only [words_cons, words_nil, Cell.words]; omega)
    simpa using hmore
  · have hmove : m₂ (payload (addrOf (.fence :: P)) + i) =
        m₁ (payload (addrOf (.fence :: P) + 8 * k) + i) := by
      rw [hm₂, memmove_apply, if_pos (by simp only [wsize]; omega), Nat.add_sub_cancel_left]
    rw [hmove]
    exact hr1.payload_eq (mem_cellsAt_snd _ (.loose k) (.used n d) _) hin

/-- With both neighbours in use, the block is copied. -/
theorem reallocMove_used (L : FreeLists) (h : Heap) (ptr size awords oldsize : ℕ) :
    reallocMove L h ptr size awords oldsize true true = reallocCopy L h ptr size := by
  simp [reallocMove]

/-- **The branches of `_krealloc` that move the block** or its end. -/
theorem Rest.reallocMove (hr : Rest L h bs) (hu : UsedAt bs a n d)
    (hs : roundedSize size < 2 ^ 31) {w : ℕ} (hw : w = requestWords size) {p q : Bool}
    (hp : p = tagInuse (h.mem.load64 (prevBlkFooter a)))
    (hq : q = !blkFree h.mem (AnglOS.nextBlk h.mem a)) :
    Reallocated L bs a n d size (reallocMove L h (payload a) size w n p q) := by
  have hcopy := hr.reallocCopy hu hs
  obtain ⟨P, Q, rfl, rfl⟩ := exists_of_mem_fenced (by simp) hu
  have hbP : ∀ c ∈ P, c.IsBlock := fun c hc => hr.block c (by simp [hc])
  have hbQ : ∀ c ∈ Q, c.IsBlock := fun c hc => hr.block c (by simp [hc])
  have hrep : Rep L h (.fence :: P ++ .used n d :: (Q ++ [.fence])) := by
    simpa [fenced] using hr.rep
  have hblk : payload (addrOf (.fence :: P)) - wsize = addrOf (.fence :: P) := by
    rw [payload, Nat.add_sub_cancel]
  have hnext := hrep.nextBlk (mem_cellsAt_fst (.fence :: P) (.used n d) _) trivial rfl
  have haddr := addrOf_snoc_used (.fence :: P) n d
  have hrep' : Rep L h (.fence :: P ++ [.used n d] ++ (Q ++ [.fence])) := by
    simpa using hrep
  simp only [Cell.words] at hnext
  rw [hnext] at hq
  -- the flags tell which neighbours are free
  have hprev : p = false → ∃ P' k, P = P' ++ [.free k] := by
    rintro rfl
    refine (lastUsed_or_free hbP).resolve_left fun hl => ?_
    rw [hrep.prev_inuse hl] at hp
    exact Bool.noConfusion hp
  have hnextf : q = false → ∃ j Q', Q = .free j :: Q' := by
    rintro rfl
    refine (headUsed_or_free hbQ).resolve_left fun hh => ?_
    rw [← haddr, hrep'.next_inuse hh] at hq
    exact Bool.noConfusion hq
  simp only [AnglOS.reallocMove, hblk, hnext]
  split_ifs with h1 h2 h3
  · -- the free block behind
    obtain ⟨hflags, -, hfit⟩ := h1
    have hqf : q = false := by
      cases q with
      | false => rfl
      | true => simp at hflags
    obtain ⟨j, Q', rfl⟩ := hnextf hqf
    have hj := hrep.blkSize (mem_cellsAt_snd (.fence :: P) (.used n d) (.free j) _) trivial
    simp only [Cell.words, Cell.size] at hj
    rw [hj] at hfit ⊢
    exact hr.absorbNext hs hw (by simp only [minBlockSizeWords] at hfit; omega)
  · -- the free blocks before and behind
    obtain ⟨hpf, -, hfit, hqf⟩ := h2
    obtain ⟨P', k, rfl⟩ := hprev hpf
    obtain ⟨j, Q', rfl⟩ := hnextf hqf
    have hrep3 : Rep L h (.fence :: P' ++ .free k :: .used n d :: .free j :: (Q' ++ [.fence])) := by
      simpa using hrep
    rw [← List.cons_append, addrOf_snoc_free] at hfit hq hp hnext ⊢
    have hprevb := hrep3.prevBlk (mem_cellsAt_fst _ (.free k) _) trivial rfl
    have hk := hrep3.blkSize (mem_cellsAt_fst _ (.free k) _) trivial
    have hj := hrep3.blkSize (mem_cellsAt_thd _ (.free k) (.used n d) (.free j) _) trivial
    have hnextk := hrep3.nextBlk (mem_cellsAt_fst _ (.free k) _) trivial rfl
    simp only [Cell.words, Cell.size] at hprevb hk hj hnextk
    simp only [hprevb, hk, hj, hnextk, hnext] at hfit ⊢
    have hr' : Rest L h (P' ++ .free k :: .used n d :: .free j :: Q') := by simpa using hr
    have := hr'.slideBoth hs hw (by simp only [minBlockSizeWords] at hfit; omega) rfl rfl rfl
    simpa using this
  · -- the free block before
    obtain ⟨hpf, -, hfit⟩ := h3
    obtain ⟨P', k, rfl⟩ := hprev hpf
    have hrep3 : Rep L h (.fence :: P' ++ .free k :: .used n d :: (Q ++ [.fence])) := by
      simpa using hrep
    rw [← List.cons_append, addrOf_snoc_free] at hfit hq hp hnext ⊢
    have hprevb := hrep3.prevBlk (mem_cellsAt_fst _ (.free k) _) trivial rfl
    have hk := hrep3.blkSize (mem_cellsAt_fst _ (.free k) _) trivial
    simp only [Cell.words, Cell.size] at hprevb hk
    simp only [hprevb, hk] at hfit ⊢
    have hr' : Rest L h (P' ++ .free k :: .used n d :: Q) := by simpa using hr
    have := hr'.slidePrev hs hw (by simp only [minBlockSizeWords] at hfit; omega) rfl rfl
    simpa using this
  · exact hcopy

/-- **Reallocation** of a block in use. -/
theorem Rest.krealloc (hr : Rest L h bs) (hu : UsedAt bs a n d) (hsize : size ≠ 0)
    (hs : roundedSize size < 2 ^ 31) :
    Reallocated L bs a n d size (krealloc L h (payload a) size) := by
  obtain ⟨hw8, hw2, hwl, hws⟩ := requestWords_spec hs
  have hpos : payload a ≠ 0 := by
    simp only [payload, wsize]
    omega
  have hblk : payload a - wsize = a := by
    rw [payload, Nat.add_sub_cancel]
  have hold : AnglOS.blkSize h.mem a = n := hr.rep.blkSize hu trivial
  have hnot : ¬roundedSize size < size := not_lt.mpr (le_roundedSize size)
  simp only [AnglOS.krealloc, if_neg hpos, if_neg hsize, hblk, hold, align_eq hs, if_neg hnot]
  rw [← requestWords]
  by_cases hext : h.mem.load64 (AnglOS.nextBlk h.mem a) = fence ∧
      tagInuse (h.mem.load64 (prevBlkFooter a)) = true ∧ n < requestWords size
  · -- both flags are stale after the heap was extended, but they only lead to a copy
    obtain ⟨hfence, hprev, hlt⟩ := hext
    have hnext : (!blkFree h.mem (AnglOS.nextBlk h.mem a)) = true := by
      rw [blkFree, hfence, fence, tagInuse_mkTag]
      rfl
    simp only [hprev, hnext, hfence, true_and, hlt, if_true, if_neg (ne_of_gt hlt),
      if_neg (show ¬(requestWords size < n ∧ minBlockSizeWords ≤ n - requestWords size) by omega),
      reallocMove_used]
    have hn2 : n % 2 = 0 := by
      obtain ⟨P, Q, rfl, -⟩ := exists_of_mem_fenced (by simp) hu
      exact hr.block (.used n d) (by simp)
    rcases hr.extendHeap (w := max (requestWords size - n) chunkSize)
      (by simp only [chunkSize]; omega) (by simp only [chunkSize]; omega)
      (by simp only [chunkSize]; omega) with ⟨heq, -⟩ | ⟨P, k, -, hrest, -, hsame⟩
    · rw [heq]
      exact hr.reallocCopy hu hs
    · exact Reallocated.of_same hsame (hrest.reallocCopy ((hsame a n d).mp hu) hs)
  · simp only [if_neg hext]
    split_ifs with heq hshrink
    · -- nothing to do
      obtain ⟨P, Q, rfl, rfl⟩ := exists_of_mem_fenced (by simp) hu
      exact Or.inr ⟨_, _, n, d, rfl, hr, (OneMore.of_used hr.fits).swap (OneMore.of_used hr.fits),
        heq ▸ hws, fun _ _ _ => rfl⟩
    · obtain ⟨P, Q, rfl, rfl⟩ := exists_of_mem_fenced (by simp) hu
      exact hr.shrink hs rfl (by simp only [minBlockSizeWords] at hshrink; omega)
    · exact hr.reallocMove hu hs rfl rfl rfl

/-! ### Initialization -/

/-- The heads and tails after the loop of `initKernelHeap`. -/
theorem listInit_loop (L : FreeLists) (m : Mem) :
    ∀ i < 12, listNext (loop (fun i m => listInit m (L.list i)) numLists m) (L.list i) =
        listEnd (L.list i) ∧
      listPrev (loop (fun i m => listInit m (L.list i)) numLists m) (listEnd (L.list i)) =
        L.list i ∧
      listPrev (loop (fun i m => listInit m (L.list i)) numLists m) (L.list i) = 0 ∧
      listNext (loop (fun i m => listInit m (L.list i)) numLists m) (listEnd (L.list i)) = 0 := by
  have hfits := L.fits
  simp only [numLists] at hfits
  refine loop_invariant (n := numLists) (s := m) (f := fun i m => listInit m (L.list i))
    (fun k m => ∀ i < k, listNext m (L.list i) = listEnd (L.list i) ∧
      listPrev m (listEnd (L.list i)) = L.list i ∧ listPrev m (L.list i) = 0 ∧
      listNext m (listEnd (L.list i)) = 0) (by simp) fun k hk m' ih i hi => ?_
  simp only [numLists] at hk
  obtain ⟨h1, h2, h3, h4, hframe⟩ := listInit_links (m := m') (l := L.list k)
    (by rw [FreeLists.list]; omega)
  rcases Nat.lt_succ_iff_lt_or_eq.mp hi with hlt | rfl
  · -- the nodes of the lists before stay
    have hsame : ∀ p, p + 16 ≤ L.list k →
        listNext (listInit m' (L.list k)) p = listNext m' p ∧
          listPrev (listInit m' (L.list k)) p = listPrev m' p := fun p hp =>
      links_congr fun x hx => hframe x (by rw [InNode] at hx; omega)
    have hhead := hsame (L.list i) (by simp only [FreeLists.list]; omega)
    have htail := hsame (listEnd (L.list i)) (by simp only [listEnd, FreeLists.list]; omega)
    rw [hhead.1, hhead.2, htail.1, htail.2]
    exact ih i hlt
  · exact ⟨h1, h2, h3, h4⟩

/-- The heap with its two fences and no block. -/
theorem rest_empty {m : Mem} (hm : ∀ i < 12, listNext m (L.list i) = listEnd (L.list i) ∧
      listPrev m (listEnd (L.list i)) = L.list i ∧ listPrev m (L.list i) = 0 ∧
      listNext m (listEnd (L.list i)) = 0) (hlow : m.load64 heapStart = fence)
    (hhigh : m.load64 (heapStart + 8) = fence) : Rest L ⟨m, kheapBase + 32⟩ [] := by
  refine ⟨⟨fun _ => [], rfl, by norm_num, by simp [fenced, Cell.Fits], ?_, ?_, ?_, ?_, ?_⟩,
    by simp, List.isChain_nil⟩
  · intro x hx
    simp only [fenced, List.nil_append, cellsAt, Cell.words, List.mem_cons, List.not_mem_nil,
      or_false] at hx
    rcases hx with rfl | rfl
    · exact hlow
    · exact hhigh
  · intro i hi
    exact List.isChain_pair.mpr ⟨(hm i hi).1, (hm i hi).2.1⟩
  · intro i hi
    exact (hm i hi).2.2
  · simp
  · intro i _ p
    constructor
    · simp
    · rintro ⟨a, n, ha, -⟩
      simp [fenced, cellsAt] at ha

/-- `initKernelHeap` extends the heap with two fences and no block. -/
theorem initKernelHeap_eq (hbrk : h.memBrk = kheapBase) : ∃ m, Rest L ⟨m, kheapBase + 32⟩ [] ∧
    (initKernelHeap L h).2 = (extendHeap L ⟨m, kheapBase + 32⟩ chunkSize).2 ∧
    ((extendHeap L ⟨m, kheapBase + 32⟩ chunkSize).1 ≠ 0 → (initKernelHeap L h).1 = 0) := by
  have hsbrk : memSbrk h 32 = (kheapBase, { h with memBrk := kheapBase + 32 }) := by
    rw [memSbrk, hbrk, if_neg (by norm_num)]
    rfl
  have hpos : kheapBase ≠ 0 := by norm_num
  obtain ⟨m₁, hm₁⟩ : ∃ m₁, m₁ = loop (fun i m => listInit m (L.list i)) numLists h.mem :=
    ⟨_, rfl⟩
  have hlists := listInit_loop L h.mem
  rw [← hm₁] at hlists
  obtain ⟨m₂, hm₂⟩ :
      ∃ m₂, m₂ = (m₁.store64 (kheapBase + 16) fence).store64 (kheapBase + 24) fence := ⟨_, rfl⟩
  -- the fences lie below the lists
  have habove := L.above
  have hlinks : ∀ p, L.addr ≤ p → listNext m₂ p = listNext m₁ p ∧ listPrev m₂ p = listPrev m₁ p :=
    fun p hp => links_congr fun x hx => by
      simp only [InNode, memMaxAddr, kheapBase] at hx habove
      rw [hm₂, Mem.store64_of_not_mem (by simp only [kheapBase]; omega),
        Mem.store64_of_not_mem (by simp only [kheapBase]; omega)]
  refine ⟨m₂, rest_empty (fun i hi => ?_) ?_ ?_, ?_⟩
  · have h1 := hlinks (L.list i) (by rw [FreeLists.list]; omega)
    have h2 := hlinks (listEnd (L.list i)) (by rw [listEnd, FreeLists.list]; omega)
    rw [h1.1, h1.2, h2.1, h2.2]
    exact hlists i hi
  · rw [hm₂, heapStart, Mem.load64_store64_of_disjoint (by omega), Mem.load64_store64_self]
  · rw [hm₂, heapStart, Nat.add_assoc, Mem.load64_store64_self]
  · rw [initKernelHeap, hsbrk]
    dsimp only
    rw [if_neg hpos, ← hm₁, ← hm₂]
    generalize extendHeap L ⟨m₂, kheapBase + 32⟩ chunkSize = e
    by_cases h0 : e.1 = 0
    · rw [if_pos h0]
      exact ⟨rfl, fun hne => absurd h0 hne⟩
    · rw [if_neg h0]
      exact ⟨rfl, fun _ => rfl⟩

/-- **Initialization** of the heap on any memory: it is at rest, and no block is in use. -/
theorem rest_initKernelHeap (hbrk : h.memBrk = kheapBase) :
    (initKernelHeap L h).1 = 0 ∧
      ∃ bs, bs ≠ [] ∧ Rest L (initKernelHeap L h).2 bs ∧ ∀ a n d, ¬UsedAt bs a n d := by
  obtain ⟨m, hempty, hheap, hret0⟩ := initKernelHeap_eq (L := L) hbrk
  rcases hempty.extendHeap (w := chunkSize) (by norm_num) (by norm_num) (by norm_num) with
    ⟨-, hfull⟩ | ⟨P, k, hret, hrest, -, hsame⟩
  · simp only [memMaxAddr, kheapBase, chunkSize] at hfull
    omega
  · have hne : addrOf (.fence :: P) ≠ 0 := by
      simp only [addrOf, heapStart]
      omega
    rw [hheap]
    refine ⟨hret0 (by rwa [hret]), P ++ [.free k], by simp, hrest, fun a n d hused => ?_⟩
    have := (hsame a n d).mpr hused
    simp [UsedAt, fenced, cellsAt] at this

end

end AnglOS
