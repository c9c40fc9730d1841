import AnglOS.HeapRun

/-!
# The Search for a Fit

`find_fit` looks at a bounded number of blocks of each list. What the lists are is stated on its
own: they are linked, and each block is on the list for its size.

## Main results

* `getSegIndex_mono` — larger blocks are in larger classes;
* `scanList_eq` — the search of a list is a search of its first blocks;
* `findFit_complete` — the search finds a block when a list of a larger class is not empty, or one
  of the first thirteen blocks of the request's own class fits.
-/

namespace AnglOS

/-- **Segregated lists**: the free lists hold the blocks `bs 0`, …, `bs 11`, in this order, and each
block is on the list for its size. -/
structure Segregated (L : FreeLists) (m : Mem) (bs : ℕ → List ℕ) : Prop where
  linked : ∀ i < numLists, List.IsChain (fun x y => listNext m x = y)
    (L.list i :: ((bs i).map payload ++ [listEnd (L.list i)]))
  inner : ∀ i < numLists, ∀ b ∈ bs i, payload b ≠ listEnd (L.list i)
  class_eq : ∀ i < numLists, ∀ b ∈ bs i, getSegIndex (blkSize m b) = i

/-- The lists of a heap are segregated. -/
theorem RepWith.segregated {L : FreeLists} {h : Heap} {cs : List Cell} {ls : ℕ → List ℕ}
    (hr : RepWith L h cs ls) : Segregated L h.mem fun i => (ls i).map (· - wsize) := by
  have hblock : ∀ i < numLists, ∀ p ∈ ls i, payload (p - wsize) = p ∧
      p ≠ listEnd (L.list i) ∧ getSegIndex (blkSize h.mem (p - wsize)) = i := by
    intro i hi p hp
    obtain ⟨a, n, ha, rfl, hn⟩ := (hr.mem_iff i hi p).mp hp
    have hlt := hr.elem_lt hi hp
    have hback : payload a - wsize = a := by rw [payload, Nat.add_sub_cancel]
    refine ⟨by rw [hback], ?_, ?_⟩
    · rw [listEnd, FreeLists.list]
      omega
    · rw [hback, Rep.blkSize ⟨ls, hr⟩ ha trivial]
      exact hn
  have hmap : ∀ i < numLists, ((ls i).map (· - wsize)).map payload = ls i := by
    intro i hi
    rw [List.map_map]
    exact (List.map_congr_left fun p hp => (hblock i hi p hp).1).trans (List.map_id _)
  refine ⟨fun i hi => ?_, fun i hi b hb => ?_, fun i hi b hb => ?_⟩
  · rw [hmap i hi]
    exact (hr.linked i hi).imp fun x y hxy => hxy.1
  · obtain ⟨p, hp, rfl⟩ := List.mem_map.mp hb
    rw [(hblock i hi p hp).1]
    exact (hblock i hi p hp).2.1
  · obtain ⟨p, hp, rfl⟩ := List.mem_map.mp hb
    exact (hblock i hi p hp).2.2

/-- A comparison with a bound that has the smaller value below it is monotone. -/
theorem ite_le_ite_of_le {n k a c x y : ℕ} (h : n ≤ k) (hxy : x ≤ y) (hy : c ≤ y) :
    (if n ≤ a then c else x) ≤ if k ≤ a then c else y := by
  split_ifs <;> omega

/-- **Larger blocks are in larger classes.** -/
theorem getSegIndex_mono {n k : ℕ} (h : n ≤ k) : getSegIndex n ≤ getSegIndex k := by
  unfold getSegIndex
  iterate 10 refine ite_le_ite_of_le h ?_ (by split_ifs <;> omega)
  exact ite_le_ite_of_le h le_rfl (by norm_num)

section

variable {L : FreeLists} {m : Mem} {bs : ℕ → List ℕ} {asize : ℕ}

/-- **The search of a list** is a search of its first `r` blocks. -/
theorem scanList_eq {l : ℕ} {xs : List ℕ} (hend : ∀ b ∈ xs, payload b ≠ listEnd l) (r : ℕ) {p : ℕ}
    {ys : List ℕ} (hp : xs.map payload ++ [listEnd l] = p :: ys)
    (hchain : (p :: ys).IsChain fun x y => listNext m x = y) :
    scanList m l asize r p = (xs.take r).find? fun b => decide (asize ≤ blkSize m b) := by
  induction r generalizing xs p ys with
  | zero => rfl
  | succ r ih =>
    cases xs with
    | nil =>
      obtain ⟨rfl, -⟩ := List.cons.inj hp
      exact if_pos rfl
    | cons b xs =>
      rw [List.map_cons, List.cons_append] at hp
      obtain ⟨rfl, rfl⟩ := List.cons.inj hp
      have hback : payload b - wsize = b := by rw [payload, Nat.add_sub_cancel]
      rw [scanList, if_neg (hend b List.mem_cons_self), hback, List.take_succ_cons]
      by_cases hfit : asize ≤ blkSize m b
      · rw [if_pos hfit, List.find?_cons_of_pos (by simpa using hfit)]
      · rw [if_neg hfit, List.find?_cons_of_neg (by simpa using hfit)]
        obtain ⟨q, zs, hq⟩ :=
          List.exists_cons_of_ne_nil (show xs.map payload ++ [listEnd l] ≠ [] by simp)
        rw [hq] at hchain
        obtain ⟨hnext, hchain⟩ := List.isChain_cons_cons.mp hchain
        rw [hnext]
        exact ih (fun c hc => hend c (List.mem_cons_of_mem _ hc)) hq hchain

/-- The search of list `i`, from its first element on. -/
theorem Segregated.scanList (h : Segregated L m bs) {i : ℕ} (hi : i < numLists) (r : ℕ) :
    scanList m (L.list i) asize r (listBegin m (L.list i)) =
      ((bs i).take r).find? fun b => decide (asize ≤ blkSize m b) := by
  obtain ⟨q, zs, hq⟩ :=
    List.exists_cons_of_ne_nil (show (bs i).map payload ++ [listEnd (L.list i)] ≠ [] by simp)
  have hchain := h.linked i hi
  rw [hq] at hchain
  obtain ⟨hbegin, hchain⟩ := List.isChain_cons_cons.mp hchain
  rw [listBegin, hbegin]
  exact scanList_eq (h.inner i hi) r hq hchain

/-- What the search of the lists from `i` on returns is a block of one of them that fits. -/
theorem Segregated.scanLists_some (h : Segregated L m bs) {idx : ℕ} : ∀ (r : ℕ) {i blk : ℕ},
    i + r ≤ numLists → scanLists L m asize idx r i = some blk →
      ∃ j, i ≤ j ∧ j < i + r ∧ blk ∈ bs j ∧ asize ≤ blkSize m blk := by
  intro r
  induction r with
  | zero => intro i blk _ hscan; cases hscan
  | succ r ih =>
    intro i blk hi hscan
    rw [scanLists, h.scanList (by omega)] at hscan
    split at hscan
    · next b hb =>
      obtain rfl := Option.some.inj hscan
      exact ⟨i, le_rfl, by omega, List.take_subset _ _ (List.mem_of_find?_eq_some hb),
        by simpa using List.find?_some hb⟩
    · obtain ⟨j, h1, h2, h3⟩ := ih (by omega) hscan
      exact ⟨j, by omega, by omega, h3⟩

/-- The search of the lists finds a block if one of them has one among those it looks at. -/
theorem Segregated.scanLists_ne_none (h : Segregated L m bs) {idx : ℕ} : ∀ (r : ℕ) {i j b : ℕ},
    i + r ≤ numLists → i ≤ j → j < i + r → b ∈ (bs j).take (13 - (j - idx)) →
    asize ≤ blkSize m b → scanLists L m asize idx r i ≠ none := by
  intro r
  induction r with
  | zero => intro i j b _ h1 h2; omega
  | succ r ih =>
    intro i j b hi h1 h2 hb hfit
    rw [scanLists, h.scanList (by omega)]
    split
    · exact Option.some_ne_none _
    · next hnone =>
      rcases Nat.eq_or_lt_of_le h1 with rfl | hlt
      · exact absurd (decide_eq_true hfit) (List.find?_eq_none.mp hnone b hb)
      · exact ih (by omega) hlt (by omega) hb hfit

/-- A block of a larger class is larger. -/
theorem Segregated.le_of_class (h : Segregated L m bs) {i b : ℕ} (hi : i < numLists)
    (hclass : getSegIndex asize < i) (hb : b ∈ bs i) : asize ≤ blkSize m b := by
  by_contra hlt
  have := getSegIndex_mono (le_of_not_ge hlt)
  rw [h.class_eq i hi b hb] at this
  omega

end

/-- A request for which the search finds a block is served without growing the heap. -/
theorem kmalloc_of_findFit {L : FreeLists} {h : Heap} {size : ℕ} (hsize : size ≠ 0)
    (hbig : size ≤ align (add64 size 16))
    (hfit : findFit L h.mem (max minBlockSizeWords (align (add64 size 16) / wsize)) ≠ none) :
    (kmalloc L h size).1 ≠ 0 ∧ (kmalloc L h size).2.memBrk = h.memBrk := by
  obtain ⟨bp, hbp⟩ := Option.ne_none_iff_exists'.mp hfit
  rw [kmalloc, if_neg hsize, if_neg (not_lt.mpr hbig)]
  simp [hbp, payload]

/-- **`find_fit` never misses a larger class.** On segregated lists, what it returns is a block of
one of the lists that is large enough. It returns one if a list of a larger class than the request's
is not empty, or if one of the first thirteen blocks of the request's class is large enough; and
then a request of this many words is served without growing the heap. -/
theorem findFit_complete {L : FreeLists} {h : Heap} {bs : ℕ → List ℕ} (hl : Segregated L h.mem bs)
    (asize : ℕ) :
    (∀ blk, findFit L h.mem asize = some blk →
      ∃ i, getSegIndex asize ≤ i ∧ i < numLists ∧ blk ∈ bs i ∧ asize ≤ blkSize h.mem blk) ∧
    ((∃ i, getSegIndex asize < i ∧ i < numLists ∧ bs i ≠ []) ∨
        (∃ b ∈ (bs (getSegIndex asize)).take 13, asize ≤ blkSize h.mem b) →
      findFit L h.mem asize ≠ none ∧
      ∀ size, size ≠ 0 → size ≤ align (add64 size 16) →
        max minBlockSizeWords (align (add64 size 16) / wsize) = asize →
        (kmalloc L h size).1 ≠ 0 ∧ (kmalloc L h size).2.memBrk = h.memBrk) := by
  have hidx : getSegIndex asize < numLists := getSegIndex_lt asize
  have hsum : getSegIndex asize + (numLists - getSegIndex asize) = numLists := by omega
  refine ⟨fun blk hfit => ?_, fun hex => ?_⟩
  · obtain ⟨i, h1, h2, h3⟩ := hl.scanLists_some _ (by omega) hfit
    exact ⟨i, h1, by omega, h3⟩
  · have hfit : findFit L h.mem asize ≠ none := by
      rcases hex with ⟨i, hclass, hi, hne⟩ | ⟨b, hb, hlarge⟩
      · -- the first block of a larger class is looked at, and it fits
        obtain ⟨b, xs, hbs⟩ := List.exists_cons_of_ne_nil hne
        have hb : b ∈ bs i := by rw [hbs]; exact List.mem_cons_self
        have htake : b ∈ (bs i).take (13 - (i - getSegIndex asize)) := by
          obtain ⟨k, hk⟩ : ∃ k, 13 - (i - getSegIndex asize) = k + 1 :=
            ⟨12 - (i - getSegIndex asize), by simp only [numLists] at hi; omega⟩
          rw [hk, hbs, List.take_succ_cons]
          exact List.mem_cons_self
        exact hl.scanLists_ne_none _ (by omega) hclass.le (by omega) htake
          (hl.le_of_class hi hclass hb)
      · exact hl.scanLists_ne_none _ (by omega) le_rfl (by omega)
          (by rw [Nat.sub_self]; exact hb) hlarge
    exact ⟨hfit, fun size hsize hbig heq => kmalloc_of_findFit hsize hbig (heq ▸ hfit)⟩

/-- After initialization there is a free block, and a request of 24 bytes fits any. -/
theorem findFit_complete_init :
    findFit imageLists (initKernelHeap imageLists zeroHeap).2.mem 8 ≠ none ∧
      (kmalloc imageLists (initKernelHeap imageLists zeroHeap).2 24).1 ≠ 0 := by
  obtain ⟨-, bs, hne, hrest, hused⟩ := rest_initKernelHeap (L := imageLists) (h := zeroHeap) rfl
  obtain ⟨ls, hr⟩ := hrest.rep
  obtain ⟨c, bs, rfl⟩ := List.exists_cons_of_ne_nil hne
  have hcell : (addrOf [.fence], c) ∈ cellsAt heapStart (fenced (c :: bs)) :=
    mem_cellsAt_fst [Cell.fence] c (bs ++ [Cell.fence])
  obtain ⟨n, rfl⟩ : ∃ n, c = .free n := by
    have hblock := hrest.block c List.mem_cons_self
    cases c with
    | free n => exact ⟨n, rfl⟩
    | used n d => exact absurd hcell (hused _ n d)
    | raw n => exact hblock.elim
    | fence => exact hblock.elim
    | loose n => exact hblock.elim
  have hlist := (hr.mem_iff _ (getSegIndex_lt n) _).mpr ⟨_, n, hcell, rfl, rfl⟩
  have hfits : 8 ≤ n := hr.fits (.free n) (mem_of_mem_cellsAt hcell)
  obtain ⟨-, hfit⟩ := findFit_complete hr.segregated 8
  obtain ⟨p, ps, hps⟩ := List.exists_cons_of_ne_nil (List.ne_nil_of_mem hlist)
  obtain ⟨hsome, hserve⟩ := hfit (by
    rcases Nat.eq_zero_or_pos (getSegIndex n) with h0 | hpos
    · -- the first block of the first list has at least eight words
      rw [h0] at hps
      obtain ⟨a, k, hk, rfl, -⟩ := (hr.mem_iff 0 (by norm_num) p).mp (hps ▸ List.mem_cons_self)
      refine Or.inr ⟨payload a - wsize, by simp [getSegIndex, hps], ?_⟩
      rw [payload, Nat.add_sub_cancel, Rep.blkSize ⟨ls, hr⟩ hk trivial]
      exact hr.fits (.free k) (mem_of_mem_cellsAt hk)
    · exact Or.inl ⟨_, hpos, getSegIndex_lt n, by simp [hps]⟩)
  exact ⟨hsome, (hserve 24 (by norm_num) (by decide) (by decide)).1⟩

end AnglOS
