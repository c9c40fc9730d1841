import AnglOS.HeapCells

/-!
# The Internal Operations of the Heap

What the static functions of `heap.c` do to the cells of a heap: reading the tags of a block
and of its neighbours, marking, splitting, and joining blocks, extending the heap, and
searching the free lists.

## Main results

* `Rep.splitUsed` — cells on no list become a used block and a free one;
* `Rest.coalesce` — a free block and its free neighbours become one free block;
* `Rest.extendHeap` — the heap grows by a block at its end, or stays as it is;
* `Rep.findFit` — what the search returns is a free block that is large enough;
* `Rest.place` — a free block becomes a used one, with the rest of it free.
-/

namespace AnglOS

/-! ### Tags -/

theorem mkTag_toNat (n : ℕ) (inuse : Bool) :
    (mkTag n inuse).toNat = n % 2 ^ 63 + if inuse then 2 ^ 63 else 0 := by
  rw [mkTag, BitVec.toNat_ofNat, Nat.mod_eq_of_lt]
  have : n % 2 ^ 63 < 2 ^ 63 := Nat.mod_lt _ (by norm_num)
  split_ifs <;> omega

theorem tagSize_mkTag {n : ℕ} (h : n < 2 ^ 63) (inuse : Bool) : tagSize (mkTag n inuse) = n := by
  rw [tagSize, mkTag_toNat]
  split_ifs <;> omega

theorem tagInuse_mkTag (n : ℕ) (inuse : Bool) : tagInuse (mkTag n inuse) = inuse := by
  have : n % 2 ^ 63 < 2 ^ 63 := Nat.mod_lt _ (by norm_num)
  rw [tagInuse, mkTag_toNat]
  cases inuse with
  | false => simpa using this
  | true => simp

theorem toInt32_eq {n : ℕ} (h : n < 2 ^ 31) : toInt32 n = n := by
  rw [toInt32, Nat.mod_eq_of_lt (by omega), if_pos h]

/-- The tag of a cell. -/
def Cell.tag : Cell → BitVec 64
  | .raw _ => 0#64
  | .fence => AnglOS.fence
  | .loose n => mkTag n false
  | .free n => mkTag n false
  | .used n _ => mkTag n true

/-- The size in the tag of a cell. -/
def Cell.size : Cell → ℕ
  | .fence => 0
  | c => c.words

/-- The cell is known to have tags. -/
def Cell.HasTag : Cell → Prop
  | .raw _ => False
  | _ => True

/-- The cell is a fence or a block in use. -/
def Cell.IsUsed : Cell → Prop
  | .fence => True
  | .used _ _ => True
  | _ => False

theorem Cell.IsUsed.hasTag {c : Cell} (h : c.IsUsed) : c.HasTag := by
  cases c <;> first | exact h.elim | trivial

/-- Both tags of a cell. -/
theorem CellOk.tags {m : Mem} {a : ℕ} {c : Cell} (h : CellOk m a c) (hc : c.HasTag) :
    m.load64 a = c.tag ∧ m.load64 (a + 8 * c.words - 8) = c.tag := by
  cases c with
  | raw n => exact hc.elim
  | fence => exact ⟨h, h⟩
  | loose n => exact h
  | free n => exact h
  | used n d => exact h.1

section

variable {L : FreeLists} {h : Heap} {cs : List Cell} {a : ℕ} {c d : Cell}

/-- Sizes are small. -/
theorem Rep.words_lt (hr : Rep L h cs) : words cs < 2 ^ 22 := by
  obtain ⟨ls, hr⟩ := hr
  have h1 := hr.brk_eq
  have h2 := hr.brk_le
  simp only [addrOf, heapStart, memMaxAddr, kheapBase] at h1 h2
  omega

theorem Rep.fits (hr : Rep L h cs) : ∀ c ∈ cs, c.Fits := by
  obtain ⟨ls, hr⟩ := hr
  exact hr.fits

theorem Rep.cell_words_lt (hr : Rep L h cs) (hc : (a, c) ∈ cellsAt heapStart cs) :
    c.words < 2 ^ 22 := by
  have h1 := hr.words_lt
  have h2 := cellsAt_bounds hc
  omega

/-- Cells end below the end of the address space. -/
theorem Rep.cell_end_lt (hr : Rep L h cs) (hc : (a, c) ∈ cellsAt heapStart cs) :
    a + 8 * c.words < 2 ^ 64 := by
  obtain ⟨ls, hr⟩ := hr
  have h1 := (hr.bounds hc).2.1
  have h2 := memMaxAddr_lt
  omega

theorem Rep.load_header (hr : Rep L h cs) (hc : (a, c) ∈ cellsAt heapStart cs) (ht : c.HasTag) :
    h.mem.load64 a = c.tag := by
  obtain ⟨ls, hr⟩ := hr
  exact (CellOk.tags (hr.ok _ hc) ht).1

theorem Rep.load_footer (hr : Rep L h cs) (hc : (a, c) ∈ cellsAt heapStart cs) (ht : c.HasTag) :
    h.mem.load64 (prevBlkFooter (a + 8 * c.words)) = c.tag := by
  obtain ⟨ls, hr⟩ := hr
  exact (CellOk.tags (hr.ok _ hc) ht).2

theorem Rep.tagSize_tag (hr : Rep L h cs) (hc : (a, c) ∈ cellsAt heapStart cs) (ht : c.HasTag) :
    tagSize c.tag = c.size := by
  have hlt := hr.cell_words_lt hc
  cases c with
  | raw n => exact ht.elim
  | fence => exact tagSize_mkTag (by norm_num) true
  | loose n => exact tagSize_mkTag (by simp only [Cell.words] at hlt; omega) false
  | free n => exact tagSize_mkTag (by simp only [Cell.words] at hlt; omega) false
  | used n d => exact tagSize_mkTag (by simp only [Cell.words] at hlt; omega) true

/-- The size read from the header of a block. -/
theorem Rep.blkSize (hr : Rep L h cs) (hc : (a, c) ∈ cellsAt heapStart cs) (ht : c.HasTag) :
    blkSize h.mem a = c.size := by
  rw [AnglOS.blkSize, hr.load_header hc ht, hr.tagSize_tag hc ht]

/-- The block behind a block. -/
theorem Rep.nextBlk (hr : Rep L h cs) (hc : (a, c) ∈ cellsAt heapStart cs) (ht : c.HasTag)
    (hs : c.size = c.words) : nextBlk h.mem a = a + 8 * c.words := by
  rw [AnglOS.nextBlk, hr.blkSize hc ht, hs, add64_eq (hr.cell_end_lt hc)]

/-- The footer of a block. -/
theorem Rep.getFooter (hr : Rep L h cs) (hc : (a, c) ∈ cellsAt heapStart cs) (ht : c.HasTag)
    (hs : c.size = c.words) : getFooter h.mem a = a + 8 * c.words - 8 := by
  have ha : heapStart ≤ a := (cellsAt_bounds hc).1
  rw [AnglOS.getFooter, hr.blkSize hc ht, hs, add64_eq (hr.cell_end_lt hc),
    sub64_eq (hr.cell_end_lt hc) (by simp only [heapStart, kheapBase, wsize] at ha ⊢; omega)]

/-- The block before a block. -/
theorem Rep.prevBlk (hr : Rep L h cs) (hc : (a, c) ∈ cellsAt heapStart cs) (ht : c.HasTag)
    (hs : c.size = c.words) : prevBlk h.mem (a + 8 * c.words) = a := by
  rw [AnglOS.prevBlk, hr.load_footer hc ht, hr.tagSize_tag hc ht, hs,
    sub64_eq (hr.cell_end_lt hc) (by simp only [wsize]; omega), wsize]
  omega

theorem Cell.IsUsed.tagInuse (hc : c.IsUsed) : tagInuse c.tag = true := by
  cases c with
  | fence => exact tagInuse_mkTag 0 true
  | used n d => exact tagInuse_mkTag n true
  | raw n => exact hc.elim
  | loose n => exact hc.elim
  | free n => exact hc.elim

theorem Cell.IsFree.tagInuse (hc : c.IsFree) : tagInuse c.tag = false := by
  cases c with
  | free n => exact tagInuse_mkTag n false
  | fence => exact hc.elim
  | used n d => exact hc.elim
  | raw n => exact hc.elim
  | loose n => exact hc.elim

end

/-! ### Marking blocks -/

/-- **The tags after `set_header_and_footer`**, and what else it changes: nothing. -/
theorem setHeaderAndFooter_spec (m : Mem) {a n : ℕ} (hn : 8 ≤ n) (hn' : n < 2 ^ 22)
    (ha : a + 8 * n < 2 ^ 64) (inuse : Bool) :
    Tagged (setHeaderAndFooter m a (toInt32 n) inuse) a n inuse ∧
      ∀ x, ¬(a ≤ x ∧ x < a + 8) → ¬(a + 8 * n - 8 ≤ x ∧ x < a + 8 * n) →
        setHeaderAndFooter m a (toInt32 n) inuse x = m x := by
  have hsize : ((toInt32 n) % 2 ^ 63).toNat = n := by
    rw [toInt32_eq (by omega)]
    omega
  have hm : setHeaderAndFooter m a (toInt32 n) inuse =
      (m.store64 a (mkTag n inuse)).store64 (a + 8 * n - 8) (mkTag n inuse) := by
    simp only [setHeaderAndFooter, getFooter, AnglOS.blkSize, hsize, Mem.load64_store64_self,
      tagSize_mkTag (show n < 2 ^ 63 by omega), wsize, add64_eq ha,
      sub64_eq ha (show 8 ≤ a + 8 * n by omega)]
  rw [hm]
  refine ⟨⟨?_, Mem.load64_store64_self _ _ _⟩, fun x h1 h2 => ?_⟩
  · rw [Mem.load64_store64_of_disjoint (by omega), Mem.load64_store64_self]
  · rw [Mem.store64_of_not_mem (by omega), Mem.store64_of_not_mem (by omega)]

theorem markBlockFree_spec (m : Mem) {a n : ℕ} (hn : 8 ≤ n) (hn' : n < 2 ^ 22)
    (ha : a + 8 * n < 2 ^ 64) :
    Tagged (markBlockFree m a (toInt32 n)) a n false ∧
      ∀ x, ¬(a ≤ x ∧ x < a + 24) → ¬(a + 8 * n - 8 ≤ x ∧ x < a + 8 * n) →
        markBlockFree m a (toInt32 n) x = m x := by
  obtain ⟨htag, hframe⟩ := setHeaderAndFooter_spec m hn hn' ha false
  simp only [markBlockFree, payload, wsize]
  refine ⟨htag.congr hn fun x hx => ?_, fun x h1 h2 => ?_⟩
  · rw [Mem.store64_of_not_mem (by omega), Mem.store64_of_not_mem (by omega)]
  · rw [Mem.store64_of_not_mem (by omega), Mem.store64_of_not_mem (by omega),
      hframe x (by omega) h2]

section

variable {L : FreeLists} {h : Heap} {P M Q : List Cell} {n r : ℕ}

/-- The first words of cells end below the end of the address space. -/
theorem Rep.middle_end_lt (hr : Rep L h (P ++ M ++ Q)) (hw : words M = n + r) :
    addrOf P + 8 * n < 2 ^ 64 := by
  obtain ⟨ls, hr⟩ := hr
  have h1 := hr.brk_eq
  have h2 := hr.brk_le
  have h3 := memMaxAddr_lt
  simp only [addrOf, words_append] at h1 ⊢
  omega

/-- **`mark_block_used`** makes the first words of cells on no list a used block. -/
theorem Rep.markBlockUsed (hr : Rep L h (P ++ M ++ Q)) (hmid : ∀ c ∈ M, ¬c.IsFree)
    (hn : 8 ≤ n) (hw : words M = n + r) :
    Rep L { h with mem := markBlockUsed h.mem (addrOf P) (toInt32 n) }
      (P ++ [.used n h.mem, .raw r] ++ Q) := by
  have hlt := hr.words_lt
  simp only [words_append] at hlt
  obtain ⟨htag, hframe⟩ := setHeaderAndFooter_spec h.mem hn (show n < 2 ^ 22 by omega)
    (hr.middle_end_lt hw) true
  refine hr.overwrite hmid ?_ (by simp [Cell.words, hw]) (fun x hx => ?_) ?_
  · simp [Cell.IsFree, Cell.Fits, hn]
  · exact hframe x (by omega) (by omega)
  · simp only [cellsAt, List.mem_cons, List.not_mem_nil, or_false]
    rintro _ (rfl | rfl)
    · exact ⟨htag, fun x h1 h2 => hframe x (by omega) (by omega)⟩
    · trivial

/-- **`mark_block_free`** makes the first words of cells on no list a loose block. -/
theorem Rep.markBlockFree (hr : Rep L h (P ++ M ++ Q)) (hmid : ∀ c ∈ M, ¬c.IsFree)
    (hn : 8 ≤ n) (hw : words M = n + r) :
    Rep L { h with mem := markBlockFree h.mem (addrOf P) (toInt32 n) }
      (P ++ [.loose n, .raw r] ++ Q) := by
  have hlt := hr.words_lt
  simp only [words_append] at hlt
  obtain ⟨htag, hframe⟩ := markBlockFree_spec h.mem hn (show n < 2 ^ 22 by omega)
    (hr.middle_end_lt hw)
  refine hr.overwrite hmid ?_ (by simp [Cell.words, hw]) (fun x hx => ?_) ?_
  · simp [Cell.IsFree, Cell.Fits, hn]
  · exact hframe x (by omega) (by omega)
  · simp only [cellsAt, List.mem_cons, List.not_mem_nil, or_false]
    rintro _ (rfl | rfl)
    · exact htag
    · trivial

/-- A run of no words is no cell. -/
theorem Rep.drop_raw (hr : Rep L h (P ++ [.raw 0] ++ Q)) : Rep L h (P ++ Q) := by
  have := hr.overwrite (N := []) (m := h.mem) (by simp [Cell.IsFree]) (by simp) rfl
    (fun _ _ => rfl) (by simp [cellsAt])
  simpa using this

theorem addrOf_append (cs cs' : List Cell) : addrOf (cs ++ cs') = addrOf cs + 8 * words cs' := by
  simp only [addrOf, words_append]
  ring

/-- The first cell behind the cells `P`. -/
theorem mem_cellsAt_fst (P : List Cell) (c : Cell) (Q : List Cell) :
    (addrOf P, c) ∈ cellsAt heapStart (P ++ c :: Q) :=
  mem_cellsAt_middle.mpr (Or.inr (Or.inl ⟨rfl, rfl⟩))

/-- The second cell behind the cells `P`. -/
theorem mem_cellsAt_snd (P : List Cell) (c d : Cell) (Q : List Cell) :
    (addrOf P + 8 * c.words, d) ∈ cellsAt heapStart (P ++ c :: d :: Q) := by
  simpa [addrOf_append] using mem_cellsAt_fst (P ++ [c]) d Q

/-- The third cell behind the cells `P`. -/
theorem mem_cellsAt_thd (P : List Cell) (c d e : Cell) (Q : List Cell) :
    (addrOf P + 8 * c.words + 8 * d.words, e) ∈
      cellsAt heapStart (P ++ c :: d :: e :: Q) := by
  simpa [addrOf_append] using mem_cellsAt_snd (P ++ [c]) d e Q

/-- `list_remove` of the second block. -/
theorem Rep.listRemove_snd {c : Cell} (hr : Rep L h (P ++ c :: .free n :: Q)) :
    Rep L { h with mem := AnglOS.listRemove h.mem (payload (addrOf P + 8 * c.words)) }
      (P ++ c :: .loose n :: Q) := by
  have := Rep.listRemove (L := L) (h := h) (P := P ++ [c]) (n := n) (Q := Q)
    (by simpa using hr)
  simpa [addrOf_append] using this

/-- `list_remove` of the third block. -/
theorem Rep.listRemove_thd {c d : Cell} (hr : Rep L h (P ++ c :: d :: .free n :: Q)) :
    Rep L { h with
        mem := AnglOS.listRemove h.mem (payload (addrOf P + 8 * c.words + 8 * d.words)) }
      (P ++ c :: d :: .loose n :: Q) := by
  have := Rep.listRemove_snd (L := L) (h := h) (P := P ++ [c]) (n := n) (Q := Q)
    (c := d) (by simpa using hr)
  simpa [addrOf_append] using this

/-- The push of a block onto the list of its size. -/
theorem Rep.pushFree (hr : Rep L h (P ++ .loose n :: Q)) :
    Rep L { h with mem := pushFree L h.mem (addrOf P) } (P ++ .free n :: Q) := by
  have hsize := hr.blkSize (mem_cellsAt_fst P (.loose n) Q) trivial
  simp only [AnglOS.pushFree, hsize, getSegList]
  exact hr.listPushBack

/-- Cells on no list become a free block. -/
theorem Rep.makeFree (hr : Rep L h (P ++ M ++ Q)) (hmid : ∀ c ∈ M, ¬c.IsFree)
    (hn : 8 ≤ n) (hw : words M = n) :
    Rep L { h with
        mem := AnglOS.pushFree L (AnglOS.markBlockFree h.mem (addrOf P) (toInt32 n))
          (addrOf P) }
      (P ++ .free n :: Q) := by
  have hloose := hr.markBlockFree hmid hn (r := 0) hw
  have hdrop := Rep.drop_raw (P := P ++ [.loose n]) (Q := Q) (by simpa using hloose)
  rw [List.append_assoc] at hdrop
  exact hdrop.pushFree

/-- **Splitting**: cells on no list become a used block and a free one. -/
theorem Rep.splitUsed (hr : Rep L h (P ++ M ++ Q)) (hmid : ∀ c ∈ M, ¬c.IsFree)
    (hn : 8 ≤ n) (hr' : 8 ≤ r) (hw : words M = n + r) :
    (splitUsed L h.mem (addrOf P) n r).1 = addrOf P + 8 * n ∧
      Rep L { h with mem := (splitUsed L h.mem (addrOf P) n r).2 }
        (P ++ .used n h.mem :: .free r :: Q) := by
  have hused := hr.markBlockUsed hmid hn hw
  have hnext := hused.nextBlk (a := addrOf P) (c := .used n h.mem)
    (by simpa using mem_cellsAt_fst P (.used n h.mem) (.raw r :: Q)) trivial rfl
  have hcells : P ++ [.used n h.mem, .raw r] ++ Q =
      (P ++ [.used n h.mem]) ++ [.raw r] ++ Q := by simp
  rw [hcells] at hused
  have hfree := hused.makeFree (n := r) (by simp [Cell.IsFree]) hr' (by simp [Cell.words])
  have haddr : addrOf (P ++ [.used n h.mem]) = addrOf P + 8 * n := by
    simp [addrOf_append, Cell.words]
  simp only [AnglOS.splitUsed]
  simp only [Cell.words] at hnext
  rw [hnext]
  rw [haddr] at hfree
  exact ⟨rfl, by simpa using hfree⟩

end

/-! ### Joining blocks -/

section

variable {L : FreeLists} {h : Heap} {P Q : List Cell} {n j k : ℕ}

/-- What lies before the end of the cells `P` is in use. -/
def LastUsed (P : List Cell) : Prop :=
  ∃ P' c, P = P' ++ [c] ∧ c.IsUsed

/-- What lies at the start of the cells `Q` is in use. -/
def HeadUsed (Q : List Cell) : Prop :=
  ∃ c Q', Q = c :: Q' ∧ c.IsUsed

theorem Rep.prev_inuse (hr : Rep L h (P ++ Q)) (hpre : LastUsed P) :
    tagInuse (h.mem.load64 (prevBlkFooter (addrOf P))) = true := by
  obtain ⟨P', c, rfl, hc⟩ := hpre
  have hload := hr.load_footer (a := addrOf P') (c := c)
    (by simpa using mem_cellsAt_fst P' c Q) hc.hasTag
  rw [show addrOf (P' ++ [c]) = addrOf P' + 8 * c.words by simp [addrOf_append], hload,
    hc.tagInuse]

theorem Rep.prev_free (hr : Rep L h (P ++ .free k :: Q)) :
    tagInuse (h.mem.load64 (prevBlkFooter (addrOf P + 8 * k))) = false := by
  have hload := hr.load_footer (mem_cellsAt_fst P (.free k) Q) trivial
  rw [show 8 * k = 8 * (Cell.free k).words from rfl, hload]
  exact Cell.IsFree.tagInuse trivial

theorem Rep.next_inuse (hr : Rep L h (P ++ Q)) (hpost : HeadUsed Q) :
    blkFree h.mem (addrOf P) = false := by
  obtain ⟨c, Q', rfl, hc⟩ := hpost
  rw [blkFree, hr.load_header (mem_cellsAt_fst P c Q') hc.hasTag, hc.tagInuse]
  rfl

theorem Rep.next_free (hr : Rep L h (P ++ .free k :: Q)) :
    blkFree h.mem (addrOf P) = true := by
  have hc : (Cell.free k).IsFree := trivial
  rw [blkFree, hr.load_header (mem_cellsAt_fst P (.free k) Q) trivial, hc.tagInuse]
  rfl

theorem addrOf_snoc_free (P : List Cell) (n : ℕ) :
    addrOf (P ++ [.free n]) = addrOf P + 8 * n := by
  simp [addrOf_append, Cell.words]

theorem addrOf_snoc_used (P : List Cell) (n : ℕ) (d : Mem) :
    addrOf (P ++ [.used n d]) = addrOf P + 8 * n := by
  simp [addrOf_append, Cell.words]

/-- A free block between blocks in use stays. -/
theorem Rep.coalesce_none (hr : Rep L h (P ++ .free n :: Q)) (hpre : LastUsed P)
    (hpost : HeadUsed Q) :
    Heap.coalesce L h.mem (addrOf P) = (addrOf P, h.mem) := by
  have hnext := hr.nextBlk (mem_cellsAt_fst P (.free n) Q) trivial rfl
  have hr' : Rep L h ((P ++ [.free n]) ++ Q) := by simpa using hr
  have hfree := hr'.next_inuse hpost
  rw [addrOf_snoc_free] at hfree
  simp only [Cell.words] at hnext
  simp [Heap.coalesce, hr.prev_inuse hpre, hnext, hfree]

/-- A free block is joined with the free block behind it. -/
theorem Rep.coalesce_next (hr : Rep L h (P ++ .free n :: .free k :: Q))
    (hpre : LastUsed P) : (Heap.coalesce L h.mem (addrOf P)).1 = addrOf P ∧
      Rep L { h with mem := (Heap.coalesce L h.mem (addrOf P)).2 }
        (P ++ .free (n + k) :: Q) := by
  have hfits := hr.fits (.free n) (by simp)
  have hprev := hr.prev_inuse hpre
  have hnext := hr.nextBlk (mem_cellsAt_fst P (.free n) _) trivial rfl
  have hsize := hr.blkSize (mem_cellsAt_fst P (.free n) _) trivial
  have hfree : blkFree h.mem (addrOf P + 8 * n) = true := by
    rw [← addrOf_snoc_free]
    exact Rep.next_free (L := L) (Q := Q) (k := k) (by simpa using hr)
  have hr1 := hr.listRemove
  have hnext1 := hr1.nextBlk (mem_cellsAt_fst P (.loose n) _) trivial rfl
  have hr2 := hr1.listRemove_snd
  have hnext2 := hr2.nextBlk (mem_cellsAt_fst P (.loose n) _) trivial rfl
  have hsize2 := hr2.blkSize (mem_cellsAt_snd P (.loose n) (.loose k) _) trivial
  have hr3 := Rep.makeFree (M := [.loose n, .loose k]) (n := n + k) (by simpa using hr2)
    (by simp [Cell.IsFree]) (by simp only [Cell.Fits] at hfits; omega) (by simp [Cell.words])
  simp only [Cell.words, Cell.size] at hnext hsize hnext1 hnext2 hsize2 hr3
  simp only [Heap.coalesce, hprev, hnext, hfree, hsize, hnext1, hnext2, hsize2, if_true,
    Bool.not_true, Bool.false_eq_true, if_false]
  exact ⟨trivial, hr3⟩

/-- A free block is joined with the free block before it. -/
theorem Rep.coalesce_prev (hr : Rep L h (P ++ .free k :: .free n :: Q))
    (hpost : HeadUsed Q) :
    (Heap.coalesce L h.mem (addrOf P + 8 * k)).1 = addrOf P ∧
      Rep L { h with mem := (Heap.coalesce L h.mem (addrOf P + 8 * k)).2 }
        (P ++ .free (n + k) :: Q) := by
  have hfits := hr.fits (.free n) (by simp)
  have hprev := hr.prev_free
  have hnext := hr.nextBlk (mem_cellsAt_snd P (.free k) (.free n) _) trivial rfl
  have hsize := hr.blkSize (mem_cellsAt_snd P (.free k) (.free n) _) trivial
  have hused : blkFree h.mem (addrOf P + 8 * k + 8 * n) = false := by
    have haddr : addrOf (P ++ [.free k, .free n]) = addrOf P + 8 * k + 8 * n := by
      simp only [addrOf_append, words_cons, words_nil, Cell.words]
      ring
    rw [← haddr]
    exact Rep.next_inuse (L := L) (Q := Q) (by simpa using hr) hpost
  have hr1 := hr.listRemove_snd
  have hprev1 := hr1.prevBlk (mem_cellsAt_fst P (.free k) _) trivial rfl
  have hr2 := hr1.listRemove
  have hprev2 := hr2.prevBlk (mem_cellsAt_fst P (.loose k) _) trivial rfl
  have hsize2 := hr2.blkSize (mem_cellsAt_fst P (.loose k) _) trivial
  have hr3 := Rep.makeFree (M := [.loose k, .loose n]) (n := n + k) (by simpa using hr2)
    (by simp [Cell.IsFree]) (by simp only [Cell.Fits] at hfits; omega)
    (by simp [Cell.words, Nat.add_comm])
  simp only [Cell.words, Cell.size] at hnext hsize hprev1 hprev2 hsize2 hr3
  simp only [Heap.coalesce, hprev, hnext, hused, hsize, hprev1, hprev2, hsize2, if_true,
    Bool.not_false, Bool.false_eq_true, if_false]
  exact ⟨trivial, hr3⟩

/-- `mark_block_free` does not write over the footers that it leaves in the middle of the block:
`coalesce` still finds the previous block when it looks for it once more. -/
theorem prevBlk_markBlockFree {m : Mem} {a k n : ℕ} (hk : 8 ≤ k) (hkn : k + 8 ≤ n)
    (hn : n < 2 ^ 22) (ha : a + 8 * n < 2 ^ 64) (hm : prevBlk m (a + 8 * k) = a) :
    prevBlk (markBlockFree m a (toInt32 n)) (a + 8 * k) = a := by
  obtain ⟨-, hframe⟩ := markBlockFree_spec m (by omega) hn ha
  rw [prevBlk, Mem.load64_congr fun x h1 h2 => hframe x ?_ ?_]
  · exact hm
  · simp only [prevBlkFooter, wsize] at h1 h2
    omega
  · simp only [prevBlkFooter, wsize] at h1 h2
    omega

/-- A free block is joined with both of its neighbours. -/
theorem Rep.coalesce_both (hr : Rep L h (P ++ .free k :: .free n :: .free j :: Q)) :
    (Heap.coalesce L h.mem (addrOf P + 8 * k)).1 = addrOf P ∧
      Rep L { h with mem := (Heap.coalesce L h.mem (addrOf P + 8 * k)).2 }
        (P ++ .free (n + j + k) :: Q) := by
  have hk8 : 8 ≤ k := hr.fits (.free k) (by simp)
  have hj8 : 8 ≤ j := hr.fits (.free j) (by simp)
  have hlt := hr.words_lt
  simp only [words_append, words_cons, Cell.words] at hlt
  have hprev := hr.prev_free
  have hnext := hr.nextBlk (mem_cellsAt_snd P (.free k) (.free n) _) trivial rfl
  have hsize := hr.blkSize (mem_cellsAt_snd P (.free k) (.free n) _) trivial
  have hfree : blkFree h.mem (addrOf P + 8 * k + 8 * n) = true := by
    have haddr : addrOf (P ++ [.free k, .free n]) = addrOf P + 8 * k + 8 * n := by
      simp only [addrOf_append, words_cons, words_nil, Cell.words]
      ring
    rw [← haddr]
    exact Rep.next_free (L := L) (Q := Q) (k := j) (by simpa using hr)
  have hr1 := hr.listRemove_snd
  have hprev1 := hr1.prevBlk (mem_cellsAt_fst P (.free k) _) trivial rfl
  have hr2 := hr1.listRemove
  have hnext2 := hr2.nextBlk (mem_cellsAt_snd P (.loose k) (.loose n) _) trivial rfl
  have hr3 := hr2.listRemove_thd
  have hnext3 := hr3.nextBlk (mem_cellsAt_snd P (.loose k) (.loose n) _) trivial rfl
  have hsize3 := hr3.blkSize (mem_cellsAt_thd P (.loose k) (.loose n) (.loose j) _) trivial
  have hprev3 := hr3.prevBlk (mem_cellsAt_fst P (.loose k) _) trivial rfl
  have hsize3' := hr3.blkSize (mem_cellsAt_fst P (.loose k) _) trivial
  have hr4 := Rep.makeFree (M := [.loose k, .loose n, .loose j]) (n := n + j + k)
    (by simpa using hr3) (by simp [Cell.IsFree]) (by omega)
    (by simp only [words_cons, words_nil, Cell.words]; ring)
  simp only [Cell.words, Cell.size] at hnext hsize hprev1 hnext2 hnext3 hsize3 hprev3 hsize3' hr4
  have hprev4 := prevBlk_markBlockFree hk8 (show k + 8 ≤ n + j + k by omega) (by omega)
    (Rep.middle_end_lt (M := [.free k, .free n, .free j]) (Q := Q) (r := 0) (by simpa using hr)
      (by simp only [words_cons, words_nil, Cell.words]; ring)) hprev3
  simp only [Heap.coalesce, hprev, hnext, hfree, hsize, hprev1, hnext2, hnext3, hsize3, hprev3,
    hsize3', hprev4, Bool.not_true, Bool.false_eq_true, if_false]
  exact ⟨trivial, hr4⟩

end

/-! ### The heap at rest -/

/-- A block: its size is even. -/
def Cell.IsBlock : Cell → Prop
  | .free n => n % 2 = 0
  | .used n _ => n % 2 = 0
  | _ => False

theorem Cell.IsBlock.isUsed_iff {c : Cell} (h : c.IsBlock) : c.IsUsed ↔ ¬c.IsFree := by
  cases c with
  | free n => simp [Cell.IsUsed, Cell.IsFree]
  | used n d => simp [Cell.IsUsed, Cell.IsFree]
  | raw n => exact h.elim
  | fence => exact h.elim
  | loose n => exact h.elim

/-- Blocks between the two fences. -/
def fenced (bs : List Cell) : List Cell :=
  .fence :: (bs ++ [.fence])

/-- No two adjacent blocks are both free. -/
def Separated (bs : List Cell) : Prop :=
  bs.IsChain fun c d => ¬(c.IsFree ∧ d.IsFree)

section

variable {P Q : List Cell} {n : ℕ} {d : Mem}

theorem lastUsed_snoc {c : Cell} : LastUsed (P ++ [c]) ↔ c.IsUsed := by
  constructor
  · rintro ⟨P', c', heq, hc⟩
    obtain ⟨-, hcc⟩ := List.append_inj' heq rfl
    rwa [List.singleton_injective hcc]
  · exact fun hc => ⟨P, c, rfl, hc⟩

theorem headUsed_cons {c : Cell} : HeadUsed (c :: Q) ↔ c.IsUsed := by
  constructor
  · rintro ⟨c', Q', heq, hc⟩
    rwa [(List.cons.inj heq).1]
  · exact fun hc => ⟨c, Q, rfl, hc⟩

/-- Blocks end with a free block, or what lies before their end is in use. -/
theorem lastUsed_or_free (hP : ∀ c ∈ P, c.IsBlock) :
    LastUsed (.fence :: P) ∨ ∃ P' k, P = P' ++ [.free k] := by
  rcases List.eq_nil_or_concat P with rfl | ⟨P', c, rfl⟩
  · exact Or.inl ⟨[], .fence, rfl, trivial⟩
  · cases c with
    | free k => exact Or.inr ⟨P', k, by simp⟩
    | used k d => exact Or.inl ⟨.fence :: P', .used k d, by simp, trivial⟩
    | raw k => exact absurd (hP (.raw k) (by simp)) id
    | fence => exact absurd (hP .fence (by simp)) id
    | loose k => exact absurd (hP (.loose k) (by simp)) id

/-- Blocks start with a free block, or what lies at their start is in use. -/
theorem headUsed_or_free (hQ : ∀ c ∈ Q, c.IsBlock) :
    HeadUsed (Q ++ [.fence]) ∨ ∃ k Q', Q = .free k :: Q' := by
  cases Q with
  | nil => exact Or.inl ⟨.fence, [], rfl, trivial⟩
  | cons c Q' =>
      cases c with
      | free k => exact Or.inr ⟨k, Q', rfl⟩
      | used k d => exact Or.inl ⟨.used k d, Q' ++ [.fence], rfl, trivial⟩
      | raw k => exact absurd (hQ (.raw k) (by simp)) id
      | fence => exact absurd (hQ .fence (by simp)) id
      | loose k => exact absurd (hQ (.loose k) (by simp)) id

/-- A used block may lie next to any other. -/
theorem separated_used : Separated (P ++ .used n d :: Q) ↔ Separated P ∧ Separated Q := by
  simp only [Separated, List.isChain_append, List.isChain_cons, List.head?_cons, Option.mem_def,
    Option.some.injEq, Cell.IsFree]
  constructor
  · rintro ⟨hP, ⟨-, hQ⟩, -⟩
    exact ⟨hP, hQ⟩
  · rintro ⟨hP, hQ⟩
    refine ⟨hP, ⟨?_, hQ⟩, ?_⟩
    · rintro y -
      exact fun h => h.1
    · rintro x - y rfl
      exact fun h => h.2

/-- A free block may lie between blocks in use. -/
theorem separated_free (hP : ∀ c ∈ P, c.IsBlock) (hQ : ∀ c ∈ Q, c.IsBlock) :
    Separated (P ++ .free n :: Q) ↔
      Separated P ∧ Separated Q ∧ LastUsed (.fence :: P) ∧ HeadUsed (Q ++ [.fence]) := by
  have hlast : (∀ x ∈ P.getLast?, ¬x.IsFree) ↔ LastUsed (.fence :: P) := by
    rcases List.eq_nil_or_concat P with rfl | ⟨P', c, rfl⟩
    · simpa using ⟨[], .fence, rfl, trivial⟩
    · rw [List.concat_eq_append, ← List.cons_append, lastUsed_snoc,
        (hP c (by simp)).isUsed_iff]
      simp
  have hhead : (∀ y ∈ Q.head?, ¬y.IsFree) ↔ HeadUsed (Q ++ [.fence]) := by
    cases Q with
    | nil => simpa using ⟨.fence, [], rfl, trivial⟩
    | cons c Q' =>
        rw [List.cons_append, headUsed_cons, (hQ c (by simp)).isUsed_iff]
        simp
  have hfree : (Cell.free n).IsFree := trivial
  rw [← hlast, ← hhead]
  simp only [Separated, List.isChain_append, List.isChain_cons, List.head?_cons, Option.mem_def,
    Option.some.injEq, forall_eq', hfree, true_and, and_true]
  tauto

end

/-- **The heap at rest**: the heap between two operations. Its blocks `bs` fill the space between
the fences, and no two free ones are adjacent. -/
structure Rest (L : FreeLists) (h : Heap) (bs : List Cell) : Prop where
  rep : Rep L h (fenced bs)
  block : ∀ c ∈ bs, c.IsBlock
  separated : Separated bs

/-- The used block of `n` words at `a` has payload `d`. -/
def UsedAt (bs : List Cell) (a n : ℕ) (d : Mem) : Prop :=
  (a, Cell.used n d) ∈ cellsAt heapStart (fenced bs)

/-- The same blocks are in use, with the same payloads. -/
def SameUsed (bs bs' : List Cell) : Prop :=
  ∀ a n d, UsedAt bs a n d ↔ UsedAt bs' a n d

/-- One more block is in use. -/
structure OneMore (bs bs' : List Cell) (a n : ℕ) (d : Mem) : Prop where
  fresh : ∀ k e, ¬UsedAt bs a k e
  iff : ∀ b k e, UsedAt bs' b k e ↔ UsedAt bs b k e ∨ b = a ∧ k = n ∧ e = d

/-- One block is not in use any more. -/
def OneLess (bs bs' : List Cell) (a : ℕ) : Prop :=
  ∀ b k e, UsedAt bs' b k e ↔ UsedAt bs b k e ∧ b ≠ a

/-- The used block at `a` became the used block of `n` words at `a'`. -/
structure Swap (bs bs' : List Cell) (a a' n : ℕ) (d : Mem) : Prop where
  fresh : ∀ k e, UsedAt bs a' k e → a' = a
  iff : ∀ b k e, UsedAt bs' b k e ↔ UsedAt bs b k e ∧ b ≠ a ∨ b = a' ∧ k = n ∧ e = d

section

variable {L : FreeLists} {h : Heap} {P M N Q bs bs' : List Cell} {a n w : ℕ} {d : Mem}

theorem fenced_append (P Q : List Cell) : fenced (P ++ Q) = .fence :: P ++ (Q ++ [.fence]) := by
  simp [fenced]

theorem usedAt_append : UsedAt (P ++ M ++ Q) a n d ↔
    (a, Cell.used n d) ∈ cellsAt heapStart (.fence :: P) ∨
      (a, Cell.used n d) ∈ cellsAt (addrOf (.fence :: P)) M ∨
      (a, Cell.used n d) ∈ cellsAt (addrOf (.fence :: P) + 8 * words M) (Q ++ [.fence]) := by
  rw [UsedAt, List.append_assoc, fenced_append, List.append_assoc, ← List.append_assoc,
    mem_cellsAt_append]
  rfl

theorem not_mem_cellsAt_of_not_mem (hM : ∀ k e, Cell.used k e ∉ M) {b : ℕ} :
    (a, Cell.used n d) ∉ cellsAt b M :=
  fun hmem => hM n d (mem_of_mem_cellsAt hmem)

/-- Replacing cells that are not in use keeps the used blocks. -/
theorem SameUsed.replace (hM : ∀ k e, Cell.used k e ∉ M) (hM' : ∀ k e, Cell.used k e ∉ N)
    (hw : words M = words N) : SameUsed (P ++ M ++ Q) (P ++ N ++ Q) := by
  intro a n d
  rw [usedAt_append, usedAt_append, hw]
  simp only [not_mem_cellsAt_of_not_mem hM, not_mem_cellsAt_of_not_mem hM']

/-- There is no used block at the address of a free one. -/
theorem not_usedAt_of_free {m : ℕ} (hm : 8 ≤ m) (hfits : ∀ k e, Cell.used k e ∈ bs → 8 ≤ k)
    (hmem : (a, Cell.free m) ∈ cellsAt heapStart (fenced bs)) {k : ℕ} {e : Mem} :
    ¬UsedAt bs a k e := by
  intro hused
  have hk : 8 ≤ k := hfits k e (by simpa [fenced] using mem_of_mem_cellsAt hused)
  rcases cellsAt_apart hmem hused with ⟨-, heq⟩ | hlt | hlt
  · simp at heq
  · simp only [Cell.words] at hlt
    omega
  · simp only [Cell.words] at hlt
    omega

/-- Replacing cells that are not in use by a used block and others that are not in use. -/
theorem OneMore.replace {m : ℕ} (hm : 8 ≤ m) (hfits : ∀ k e, Cell.used k e ∈ P ++ Q → 8 ≤ k)
    (hM : ∀ k e, Cell.used k e ∉ M) (hM' : ∀ k e, Cell.used k e ∉ N)
    (hw : m + words M = n + words N) :
    OneMore (P ++ .free m :: M ++ Q) (P ++ .used n d :: N ++ Q) (addrOf (.fence :: P)) n d where
  fresh k e := not_usedAt_of_free hm (fun k e hk => hfits k e (by simpa [hM] using hk)) (by
    rw [List.append_assoc, fenced_append]
    exact mem_cellsAt_fst _ _ _)
  iff b k e := by
    rw [usedAt_append, usedAt_append]
    simp only [not_mem_cellsAt_of_not_mem hM, not_mem_cellsAt_of_not_mem hM', cellsAt,
      List.mem_cons, Prod.mk.injEq, Cell.used.injEq, words_cons, Cell.words, or_false, false_or,
      hw, reduceCtorEq, and_false]
    tauto

theorem OneMore.trans_same {bs'' : List Cell} (h : OneMore bs bs' a n d)
    (h' : SameUsed bs' bs'') : OneMore bs bs'' a n d where
  fresh := h.fresh
  iff b k e := by rw [← h' b k e, h.iff]

/-- Undoing the use of a block. -/
theorem OneMore.oneLess (h : OneMore bs bs' a n d) : OneLess bs' bs a := by
  intro b k e
  rw [h.iff]
  constructor
  · intro hb
    refine ⟨Or.inl hb, ?_⟩
    rintro rfl
    exact h.fresh k e hb
  · rintro ⟨hb | hb, hne⟩
    · exact hb
    · exact absurd hb.1 hne

/-- Using one block instead of another. -/
theorem OneMore.swap {bs₀ : List Cell} {a' n' : ℕ} {d' : Mem} (h : OneMore bs₀ bs a n d)
    (h' : OneMore bs₀ bs' a' n' d') : Swap bs bs' a a' n' d' where
  fresh k e hu := by
    by_contra hne
    exact h'.fresh k e ((h.oneLess a' k e).mpr ⟨hu, hne⟩)
  iff b k e := by rw [← h.oneLess b k e, h'.iff]

theorem SameUsed.symm (h : SameUsed bs bs') : SameUsed bs' bs :=
  fun a n d => (h a n d).symm

theorem SameUsed.trans {bs'' : List Cell} (h : SameUsed bs bs') (h' : SameUsed bs' bs'') :
    SameUsed bs bs'' :=
  fun a n d => (h a n d).trans (h' a n d)

theorem SameUsed.snoc_free (bs : List Cell) (w : ℕ) : SameUsed bs (bs ++ [.free w]) := by
  intro a n d
  have h1 := usedAt_append (P := bs) (M := []) (Q := []) (a := a) (n := n) (d := d)
  have h2 := usedAt_append (P := bs) (M := [.free w]) (Q := []) (a := a) (n := n) (d := d)
  simp only [List.append_nil, List.nil_append, cellsAt, List.mem_singleton, Prod.mk.injEq,
    reduceCtorEq, and_false, List.not_mem_nil, or_false] at h1 h2
  rw [h1, h2]

theorem isBlock_middle {c : Cell} (hP : ∀ c ∈ P, c.IsBlock) (hQ : ∀ c ∈ Q, c.IsBlock)
    (hc : c.IsBlock) : ∀ c' ∈ P ++ c :: Q, c'.IsBlock := by
  intro c' hc'
  simp only [List.mem_append, List.mem_cons] at hc'
  rcases hc' with hc' | rfl | hc'
  · exact hP c' hc'
  · exact hc
  · exact hQ c' hc'

theorem Rest.fits (hr : Rest L h bs) : ∀ c ∈ bs, c.Fits :=
  fun c hc => hr.rep.fits c (by simp [fenced, hc])

/-- **Joining**: the block and its free neighbours become one free block, and everything else
stays. -/
theorem Rest.coalesce (hr : Rep L h (fenced (P ++ .free n :: Q)))
    (hb : ∀ c ∈ P ++ .free n :: Q, c.IsBlock) (hP : Separated P) (hQ : Separated Q) :
    ∃ P' k Q', (Heap.coalesce L h.mem (addrOf (.fence :: P))).1 = addrOf (.fence :: P') ∧
      Rest L { h with mem := (Heap.coalesce L h.mem (addrOf (.fence :: P))).2 }
        (P' ++ .free k :: Q') ∧ n ≤ k ∧ Q' <:+ Q ∧
      SameUsed (P ++ .free n :: Q) (P' ++ .free k :: Q') := by
  have hbP : ∀ c ∈ P, c.IsBlock := fun c hc => hb c (by simp [hc])
  have hbQ : ∀ c ∈ Q, c.IsBlock := fun c hc => hb c (by simp [hc])
  have hn : n % 2 = 0 := hb (.free n) (by simp)
  rcases lastUsed_or_free hbP with hl | ⟨P', k, rfl⟩ <;>
    rcases headUsed_or_free hbQ with hh | ⟨j, Q', rfl⟩
  · -- no neighbour is free
    have hr' : Rep L h (.fence :: P ++ .free n :: (Q ++ [.fence])) := by
      simpa [fenced] using hr
    rw [hr'.coalesce_none hl hh]
    exact ⟨P, n, Q, rfl, ⟨hr, hb, (separated_free hbP hbQ).mpr ⟨hP, hQ, hl, hh⟩⟩, le_rfl,
      List.suffix_rfl, fun _ _ _ => Iff.rfl⟩
  · -- the next block is free
    have hj : j % 2 = 0 := hbQ (.free j) (by simp)
    have hbQ' : ∀ c ∈ Q', c.IsBlock := fun c hc => hbQ c (by simp [hc])
    obtain ⟨-, hQ', -, hh⟩ := (separated_free (P := []) (by simp) hbQ').mp hQ
    have hr' : Rep L h (.fence :: P ++ .free n :: .free j :: (Q' ++ [.fence])) := by
      simpa [fenced] using hr
    obtain ⟨hret, hrep⟩ := hr'.coalesce_next hl
    have hsize : (Cell.free (n + j)).IsBlock := by
      show (n + j) % 2 = 0
      omega
    refine ⟨P, n + j, Q', hret, ⟨by simpa [fenced] using hrep, isBlock_middle hbP hbQ' hsize,
      (separated_free hbP hbQ').mpr ⟨hP, hQ', hl, hh⟩⟩, by omega, List.suffix_cons _ _, ?_⟩
    have := SameUsed.replace (P := P) (M := [.free n, .free j]) (N := [.free (n + j)])
      (Q := Q') (by simp) (by simp) (by simp [Cell.words])
    simpa using this
  · -- the previous block is free
    have hk : k % 2 = 0 := hbP (.free k) (by simp)
    have hbP' : ∀ c ∈ P', c.IsBlock := fun c hc => hbP c (by simp [hc])
    obtain ⟨hP', -, hl, -⟩ := (separated_free (Q := []) hbP' (by simp)).mp hP
    have hr' : Rep L h (.fence :: P' ++ .free k :: .free n :: (Q ++ [.fence])) := by
      simpa [fenced] using hr
    obtain ⟨hret, hrep⟩ := hr'.coalesce_prev hh
    have hsize : (Cell.free (n + k)).IsBlock := by
      show (n + k) % 2 = 0
      omega
    rw [← List.cons_append, addrOf_snoc_free]
    refine ⟨P', n + k, Q, hret, ⟨by simpa [fenced] using hrep, isBlock_middle hbP' hbQ hsize,
      (separated_free hbP' hbQ).mpr ⟨hP', hQ, hl, hh⟩⟩, by omega, List.suffix_rfl, ?_⟩
    have := SameUsed.replace (P := P') (M := [.free k, .free n]) (N := [.free (n + k)])
      (Q := Q) (by simp) (by simp) (by simp [Cell.words, Nat.add_comm])
    simpa using this
  · -- both neighbours are free
    have hk : k % 2 = 0 := hbP (.free k) (by simp)
    have hj : j % 2 = 0 := hbQ (.free j) (by simp)
    have hbP' : ∀ c ∈ P', c.IsBlock := fun c hc => hbP c (by simp [hc])
    have hbQ' : ∀ c ∈ Q', c.IsBlock := fun c hc => hbQ c (by simp [hc])
    obtain ⟨hP', -, hl, -⟩ := (separated_free (Q := []) hbP' (by simp)).mp hP
    obtain ⟨-, hQ', -, hh⟩ := (separated_free (P := []) (by simp) hbQ').mp hQ
    have hr' : Rep L h (.fence :: P' ++ .free k :: .free n :: .free j :: (Q' ++ [.fence])) := by
      simpa [fenced] using hr
    obtain ⟨hret, hrep⟩ := hr'.coalesce_both
    have hsize : (Cell.free (n + j + k)).IsBlock := by
      show (n + j + k) % 2 = 0
      omega
    rw [← List.cons_append, addrOf_snoc_free]
    refine ⟨P', n + j + k, Q', hret, ⟨by simpa [fenced] using hrep,
      isBlock_middle hbP' hbQ' hsize, (separated_free hbP' hbQ').mpr ⟨hP', hQ', hl, hh⟩⟩, by omega,
      List.suffix_cons _ _, ?_⟩
    have := SameUsed.replace (P := P') (M := [.free k, .free n, .free j])
      (N := [.free (n + j + k)]) (Q := Q') (by simp) (by simp)
      (by simp only [words_cons, words_nil, Cell.words]; ring)
    simpa using this

theorem memSbrk_eq (hwl : w * 8 < 2 ^ 31) : memSbrk h (toInt32 (w * wsize)) =
    if h.memBrk + 8 * w ≤ memMaxAddr then (h.memBrk, { h with memBrk := h.memBrk + 8 * w })
    else (0, h) := by
  rw [toInt32_eq (by simpa using hwl), memSbrk]
  by_cases hmax : h.memBrk + 8 * w ≤ memMaxAddr
  · rw [if_pos hmax, if_neg (by simp only [wsize]; omega), Int.toNat_natCast, wsize,
      Nat.mul_comm w]
  · rw [if_neg hmax, if_pos (by simp only [wsize]; omega)]

/-- The words behind the blocks, starting with those of the old fence, become a free block and
a new fence. -/
theorem Rep.addBlock (hr : Rep L h (.fence :: bs ++ [.raw (w + 1)])) (hw : 8 ≤ w) {m : Mem}
    (hm : m = AnglOS.pushFree L
      (AnglOS.markBlockFree h.mem (addrOf (.fence :: bs)) (toInt32 w)) (addrOf (.fence :: bs))) :
    AnglOS.nextBlk m (addrOf (.fence :: bs)) = addrOf (.fence :: bs) + 8 * w ∧
      Rep L { h with mem := m.store64 (addrOf (.fence :: bs) + 8 * w) AnglOS.fence }
        (fenced (bs ++ [.free w])) := by
  have hr1 := Rep.markBlockFree (L := L) (h := h) (P := .fence :: bs) (M := [.raw (w + 1)])
    (Q := []) (n := w) (r := 1) (by rwa [List.append_nil]) (by simp [Cell.IsFree]) hw rfl
  rw [List.append_nil] at hr1
  have hr2 := hr1.pushFree
  rw [show (⟨_, h.memBrk⟩ : Heap) = { h with mem := m } by rw [hm]] at hr2
  have hnext := hr2.nextBlk (mem_cellsAt_fst (.fence :: bs) (.free w) _) trivial rfl
  refine ⟨hnext, ?_⟩
  have haddr : addrOf (.fence :: bs ++ [.free w]) = addrOf (.fence :: bs) + 8 * w :=
    addrOf_snoc_free _ _
  have hr3 : Rep L { h with mem := m.store64 (addrOf (.fence :: bs) + 8 * w) AnglOS.fence }
      (.fence :: bs ++ [.free w] ++ [.fence] ++ []) := by
    refine Rep.overwrite (h := { h with mem := m }) (M := [.raw 1]) (by simpa using hr2)
      (by simp [Cell.IsFree]) (by simp [Cell.IsFree, Cell.Fits]) rfl (fun x hx => ?_) ?_
    · rw [haddr] at hx
      exact Mem.store64_of_not_mem hx
    · rw [haddr]
      simp [cellsAt, CellOk]
  simpa [fenced] using hr3

/-- **Extending the heap**: the heap gets a free block at its end, which takes in the free block
that was there, or there is no space and the heap stays as it is. -/
theorem Rest.extendHeap (hr : Rest L h bs) (hw : 8 ≤ w) (hw2 : w % 2 = 0) (hwl : w * 8 < 2 ^ 31) :
    (extendHeap L h w = (0, h) ∧ memMaxAddr < h.memBrk + 8 * w) ∨
      ∃ P k, (extendHeap L h w).1 = addrOf (.fence :: P) ∧
        Rest L (extendHeap L h w).2 (P ++ [.free k]) ∧ w ≤ k ∧ SameUsed bs (P ++ [.free k]) := by
  have hbrk : h.memBrk = addrOf (.fence :: bs) + 8 := by
    obtain ⟨ls, hrep⟩ := hr.rep
    have := hrep.brk_eq
    simp only [fenced, addrOf, words_cons, words_append, words_nil, Cell.words] at this ⊢
    omega
  have hpos : h.memBrk ≠ 0 := by omega
  have hblk : h.memBrk - wsize = addrOf (.fence :: bs) := by
    rw [hbrk, wsize]
    omega
  by_cases hmax : h.memBrk + 8 * w ≤ memMaxAddr
  · right
    have hr1 : Rep L { h with memBrk := h.memBrk + 8 * w } (.fence :: bs ++ [.raw (w + 1)]) :=
      Rep.extend (by simpa [fenced] using hr.rep) hmax
    obtain ⟨hnext, hr2⟩ := hr1.addBlock hw rfl
    have hb : ∀ c ∈ bs ++ .free w :: [], c.IsBlock := isBlock_middle hr.block (by simp) hw2
    obtain ⟨P, k, Q, hret, hrest, hk, hQ, hsame⟩ :=
      Rest.coalesce hr2 hb hr.separated List.isChain_nil
    obtain rfl : Q = [] := List.suffix_nil.mp hQ
    simp only [AnglOS.extendHeap, memSbrk_eq hwl, if_pos hmax, if_neg hpos, hblk, hnext]
    exact ⟨P, k, hret, hrest, hk, (SameUsed.snoc_free bs w).trans hsame⟩
  · left
    refine ⟨?_, not_le.mp hmax⟩
    rw [AnglOS.extendHeap, memSbrk_eq hwl, if_neg hmax]
    rfl

/-- Scanning a list finds nothing, or a free block that is large enough. -/
theorem RepWith.scanList {cs : List Cell} {ls : ℕ → List ℕ} (hr : RepWith L h cs ls) {i : ℕ}
    (hi : i < 12) {asize : ℕ} : ∀ (r : ℕ) (xs ys : List ℕ) (p : ℕ) (X Y : List ℕ) {blk : ℕ},
      ls i = xs ++ ys → ys ++ [listEnd (L.list i)] = p :: Y → nodes L i (ls i) = X ++ p :: Y →
      scanList h.mem (L.list i) asize r p = some blk →
      ∃ n, (blk, Cell.free n) ∈ cellsAt heapStart cs ∧ asize ≤ n := by
  intro r
  induction r with
  | zero =>
      intro xs ys p X Y blk _ _ _ hscan
      simp [AnglOS.scanList] at hscan
  | succ r ih =>
      intro xs ys p X Y blk hls hys hnodes hscan
      cases ys with
      | nil =>
          obtain ⟨rfl, -⟩ := List.cons.inj hys
          simp [AnglOS.scanList] at hscan
      | cons e ys =>
          rw [List.cons_append] at hys
          obtain ⟨rfl, rfl⟩ := List.cons.inj hys
          obtain ⟨a, n, ha, rfl, hn⟩ := (hr.mem_iff i hi e).mp (by simp [hls])
          have hend : payload a ≠ listEnd (L.list i) := by
            have := hr.elem_lt hi (p := payload a) (by simp [hls])
            rw [listEnd, FreeLists.list]
            omega
          have hblk : payload a - wsize = a := by
            rw [payload, Nat.add_sub_cancel]
          have hsize : AnglOS.blkSize h.mem a = n := Rep.blkSize ⟨ls, hr⟩ ha trivial
          rw [AnglOS.scanList, if_neg hend, hblk, hsize] at hscan
          by_cases hfit : asize ≤ n
          · rw [if_pos hfit, Option.some.injEq] at hscan
            exact ⟨n, hscan ▸ ha, hfit⟩
          · rw [if_neg hfit] at hscan
            obtain ⟨q, Y', hY⟩ : ∃ q Y', ys ++ [listEnd (L.list i)] = q :: Y' := by
              cases ys with
              | nil => exact ⟨_, _, rfl⟩
              | cons y ys => exact ⟨_, _, rfl⟩
            have hlink := hr.linked i hi
            rw [hnodes, hY] at hlink
            obtain ⟨-, ⟨hnext, -⟩, -⟩ := List.isChain_append_cons_cons.mp hlink
            rw [hnext] at hscan
            exact ih (xs ++ [payload a]) ys q (X ++ [payload a]) Y' (by simp [hls]) hY
              (by rw [hnodes, hY]; simp) hscan

/-- **What `find_fit` returns** is a free block that is large enough. -/
theorem Rep.findFit {cs : List Cell} (hr : Rep L h cs) {asize blk : ℕ}
    (hfit : findFit L h.mem asize = some blk) :
    ∃ n, (blk, Cell.free n) ∈ cellsAt heapStart cs ∧ asize ≤ n := by
  obtain ⟨ls, hr⟩ := hr
  have hscan : ∀ (idx r i : ℕ), i + r ≤ 12 → scanLists L h.mem asize idx r i = some blk →
      ∃ n, (blk, Cell.free n) ∈ cellsAt heapStart cs ∧ asize ≤ n := by
    intro idx r
    induction r with
    | zero =>
        intro i _ h
        simp [scanLists] at h
    | succ r ih =>
        intro i hi h
        rw [scanLists] at h
        split at h
        · next blk' hlist =>
            obtain rfl := Option.some.inj h
            obtain ⟨p, Y, hY⟩ : ∃ p Y, ls i ++ [listEnd (L.list i)] = p :: Y := by
              cases ls i with
              | nil => exact ⟨_, _, rfl⟩
              | cons y ys => exact ⟨_, _, rfl⟩
            have hlink := hr.linked i (by omega)
            rw [nodes, hY] at hlink
            rw [listBegin, (List.isChain_cons_cons.mp hlink).1.1] at hlist
            exact hr.scanList (by omega) _ [] (ls i) p [L.list i] Y rfl hY (by rw [nodes, hY]; rfl)
              hlist
        · exact ih (i + 1) (by omega) h
  have hidx := getSegIndex_lt asize
  rw [AnglOS.findFit] at hfit
  exact hscan _ _ _ (by simp only [numLists]; omega) hfit

/-- **Placing** a request in a free block. -/
theorem Rest.place (hr : Rest L h (P ++ .free n :: Q)) (hw : 8 ≤ w) (hw2 : w % 2 = 0)
    (hwn : w ≤ n) : ∃ k d Q',
      Rest L { h with mem := place L h.mem (addrOf (.fence :: P)) w } (P ++ .used k d :: Q') ∧
        w ≤ k ∧ OneMore (P ++ .free n :: Q) (P ++ .used k d :: Q') (addrOf (.fence :: P)) k d := by
  have hbP : ∀ c ∈ P, c.IsBlock := fun c hc => hr.block c (by simp [hc])
  have hbQ : ∀ c ∈ Q, c.IsBlock := fun c hc => hr.block c (by simp [hc])
  have hn2 : n % 2 = 0 := hr.block (.free n) (by simp)
  have hn8 : 8 ≤ n := hr.fits (.free n) (by simp)
  have hfits : ∀ k e, Cell.used k e ∈ P ++ Q → 8 ≤ k := fun k e hk => hr.fits (.used k e)
    (by simpa using hk)
  obtain ⟨hP, hQ, hl, hh⟩ := (separated_free hbP hbQ).mp hr.separated
  have hrep : Rep L h (.fence :: P ++ .free n :: (Q ++ [.fence])) := by
    simpa [fenced] using hr.rep
  have hn : n < 2 ^ 22 := hrep.cell_words_lt (mem_cellsAt_fst _ (.free n) _)
  have hsize := hrep.blkSize (mem_cellsAt_fst _ (.free n) _) trivial
  have hsub : sub64 n w = n - w := sub64_eq (by omega) hwn
  have hr1 : Rep L { h with mem := AnglOS.listRemove h.mem (payload (addrOf (.fence :: P))) }
      (.fence :: P ++ [.loose n] ++ (Q ++ [.fence])) := by
    simpa using hrep.listRemove
  simp only [Cell.size, Cell.words] at hsize
  simp only [AnglOS.place, hsize, hsub]
  by_cases hsplit : minBlockSizeWords ≤ n - w
  · simp only [if_pos hsplit]
    have hr2 := (hr1.splitUsed (n := w) (r := n - w) (by simp [Cell.IsFree]) hw hsplit
      (by simp only [words_cons, words_nil, Cell.words]; omega)).2
    refine ⟨w, _, .free (n - w) :: Q, ⟨by simpa [fenced] using hr2, ?_, ?_⟩, le_rfl, ?_⟩
    · refine isBlock_middle hbP (isBlock_middle (P := []) (by simp) hbQ ?_) hw2
      show (n - w) % 2 = 0
      omega
    · exact separated_used.mpr ⟨hP, (separated_free (P := []) (by simp) hbQ).mpr
        ⟨List.isChain_nil, hQ, ⟨[], .fence, rfl, trivial⟩, hh⟩⟩
    · have := OneMore.replace (P := P) (M := []) (N := [.free (n - w)]) (Q := Q) (n := w)
        (d := AnglOS.listRemove h.mem (payload (addrOf (.fence :: P)))) hn8 hfits (by simp)
        (by simp) (by simp only [words_cons, words_nil, Cell.words]; omega)
      simpa using this
  · simp only [if_neg hsplit]
    have hr2 := hr1.markBlockUsed (n := n) (r := 0) (by simp [Cell.IsFree]) (by omega)
      (by simp [Cell.words])
    have hr3 := Rep.drop_raw (P := .fence :: P ++ [.used n _]) (Q := Q ++ [.fence])
      (by simpa using hr2)
    refine ⟨n, _, Q, ⟨by simpa [fenced] using hr3, isBlock_middle hbP hbQ hn2,
      separated_used.mpr ⟨hP, hQ⟩⟩, hwn, ?_⟩
    have := OneMore.replace (P := P) (M := []) (N := []) (Q := Q) (n := n)
      (d := AnglOS.listRemove h.mem (payload (addrOf (.fence :: P)))) hn8 hfits (by simp) (by simp)
      rfl
    simpa using this

end

end AnglOS
