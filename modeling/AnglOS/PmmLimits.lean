import AnglOS.PmmRun

/-!
# Requests That `pmalloc` Cannot Serve

`pmalloc` rounds a request up to a power of two by clearing the low bits of `pages - 1` and
shifting the highest bit left once, and compares the result with the largest block
afterwards. The shift loses the bit when `pages - 1` has bit 63, and the search then starts
at level `0` as if one page were wanted.

## Main results

* `highestBit_eq` — the bit-clearing loop computes the highest bit;
* `pmalloc_of_large`, `pmalloc_of_wrapped` — what becomes of a request above 64 pages;
* `pmalloc_rejects_iff` — a request of no page or of more than 64 pages is rejected exactly
  if the shift keeps its highest bit or the allocator has no free block at all.
-/

namespace AnglOS

/-! ### The highest bit -/

/-- `n & (n - 1)` of an even number. -/
theorem two_mul_and_pred (m : ℕ) : 2 * m &&& (2 * m - 1) = 2 * (m &&& (m - 1)) := by
  rcases Nat.eq_zero_or_pos m with rfl | hm
  · rfl
  · apply Nat.eq_of_testBit_eq
    intro i
    have hpred : 2 * m - 1 = 2 * (m - 1) + 1 := by omega
    rw [hpred, Nat.testBit_and]
    cases i with
    | zero => simp
    | succ i => simp [Nat.testBit_succ, Nat.mul_add_div, Nat.testBit_and]

/-- `n & (n - 1)` of an odd number. -/
theorem two_mul_add_one_and_pred (m : ℕ) : (2 * m + 1) &&& (2 * m + 1 - 1) = 2 * m := by
  apply Nat.eq_of_testBit_eq
  intro i
  rw [Nat.add_sub_cancel, Nat.testBit_and]
  cases i with
  | zero => simp
  | succ i => simp [Nat.testBit_succ, Nat.mul_add_div]

/-- The bit-clearing loop commutes with doubling. -/
theorem highestBit_two_mul (fuel m : ℕ) : highestBit fuel (2 * m) = 2 * highestBit fuel m := by
  induction fuel generalizing m with
  | zero => rfl
  | succ fuel ih =>
      rw [highestBit, highestBit, two_mul_and_pred, ih]
      by_cases h : m &&& (m - 1) = 0
      · rw [if_neg (by simp [h]), if_neg (by simp [h])]
      · rw [if_pos (by omega), if_pos h]

/-- The bit-clearing loop ends with the highest bit. -/
theorem highestBit_eq {fuel n : ℕ} (h0 : n ≠ 0) (hn : n < 2 ^ fuel) :
    highestBit fuel n = 2 ^ Nat.log2 n := by
  induction n using Nat.strong_induction_on generalizing fuel with
  | _ n ih =>
      obtain ⟨fuel, rfl⟩ : ∃ k, fuel = k + 1 := by
        refine Nat.exists_eq_succ_of_ne_zero fun h => ?_
        rw [h] at hn
        omega
      have hn' : n / 2 < 2 ^ fuel := by
        rw [pow_succ] at hn
        omega
      by_cases h1 : n = 1
      · subst h1
        rfl
      have hlog : Nat.log2 n = Nat.log2 (n / 2) + 1 := by
        rw [Nat.log2_def, if_pos (by omega)]
      rw [hlog, pow_succ, Nat.mul_comm]
      rcases Nat.even_or_odd' n with ⟨m, rfl | rfl⟩
      · have hm : 2 * m / 2 = m := by omega
        rw [hm] at hn' ⊢
        rw [highestBit_two_mul, ih m (by omega) (by omega) (by rw [pow_succ]; omega)]
      · have hm : (2 * m + 1) / 2 = m := by omega
        rw [hm] at hn' ⊢
        rw [highestBit, two_mul_add_one_and_pred, if_pos (by omega), highestBit_two_mul,
          ih m (by omega) (by omega) hn']

/-! ### The search in an arbitrary state -/

namespace Pmm

/-- The search of one level, in any state: it finds a clear bit, or all bits are set. -/
theorem findClear_search (i : ℕ) : ∀ (r j : ℕ) (s : Pmm), s.SameButLog (findClear i r j s).2 ∧
    match (findClear i r j s).1 with
    | some k => j ≤ k ∧ k < j + r ∧ s.bit i k = false
    | none => ∀ k, j ≤ k → k < j + r → s.bit i k = true := by
  intro r
  induction r with
  | zero => exact fun j s => ⟨rfl, fun k h1 h2 => by omega⟩
  | succ r ih =>
      intro j s
      rw [findClear, checkBit]
      cases hb : s.bit i j with
      | false => exact ⟨rfl, le_refl j, by omega, hb⟩
      | true =>
          obtain ⟨h1, h2⟩ := ih (j + 1) (s.touch i j)
          refine ⟨(sameButLog_touch s i j).trans h1, ?_⟩
          revert h2
          cases (findClear i r (j + 1) (s.touch i j)).1 with
          | some k =>
              rintro ⟨hk1, hk2, hk3⟩
              exact ⟨by omega, by omega, hk3⟩
          | none =>
              intro h2 k hk1 hk2
              rcases Nat.eq_or_lt_of_le hk1 with rfl | hlt
              · exact hb
              · exact h2 k hlt (by omega)

/-- Nothing is given back of a block that is smaller than the request. -/
theorem pmmPropagateDown_of_lt {pages : ℕ} (s : Pmm) (level index : ℕ) (h : 2 ^ level < pages) :
    pmmPropagateDown s pages level index = s := by
  induction level generalizing pages index with
  | zero => rfl
  | succ level ih =>
      rw [pow_succ] at h
      rw [pmmPropagateDown, if_neg (by rw [pow_succ]; omega), if_neg (by omega),
        ih _ (by omega)]

/-- Setting a bit clears none. -/
theorem bit_setBit_of_bit {s : Pmm} {i j : ℕ} (i' j' : ℕ) (h : s.bit i j = true) :
    (s.setBit i' j').bit i j = true := by
  change pmmCheckBit (pmmSetBit s.mem (s.bitmaps i').base j') (s.bitmaps i).base j = true
  rw [pmmCheckBit_pmmSetBit]
  exact Bool.or_eq_true_iff.mpr (Or.inr h)

/-- A bit that is set is set. -/
theorem bit_setBit_self (s : Pmm) (i j : ℕ) : (s.setBit i j).bit i j = true := by
  change pmmCheckBit (pmmSetBit s.mem (s.bitmaps i).base j) (s.bitmaps i).base j = true
  simp [pmmCheckBit_pmmSetBit]

/-- Clearing a bit leaves the others of its level alone. -/
theorem bit_clearBit_of_ne {s : Pmm} {i j j' : ℕ} (h : j' ≠ j) :
    (s.clearBit i j).bit i j' = s.bit i j' := by
  change pmmCheckBit (pmmClearBit s.mem (s.bitmaps i).base j) (s.bitmaps i).base j' = _
  rw [pmmCheckBit_pmmClearBit, decide_eq_false (by omega)]
  rfl

/-- Splitting a parent leaves the bit of its left half set. -/
theorem bit_splitParent {s : Pmm} {i j : ℕ} (h : s.bit i j = true) :
    (splitParent i j s).bit i j = true := by
  rw [splitParent]
  split_ifs
  · rw [checkBit]
    cases s.bit (i + 1) (j / 2) with
    | true => exact h
    | false =>
        change (((((s.touch (i + 1) (j / 2)).setBit (i + 1) (j / 2)).subFree (i + 1) 1).clearBit i
          (j + 1)).addFree i 1).bit i j = true
        rw [bit_addFree, bit_clearBit_of_ne (by omega), bit_subFree]
        exact bit_setBit_of_bit (s := s.touch (i + 1) (j / 2)) _ _ h
  · exact h

theorem bit_setFreeMem (s : Pmm) (n i j : ℕ) :
    ({ s with freeMem := n } : Pmm).bit i j = s.bit i j := rfl

/-- A block taken for a request larger than itself has its bit set. -/
theorem bit_takeBlock {pages : ℕ} (s : Pmm) {i : ℕ} (j : ℕ) (h : 2 ^ i < pages) :
    (takeBlock s pages i j).bit i j = true := by
  have hset : ((s.setBit i j).subFree i 1).bit i j = true := by
    rw [bit_subFree]
    exact bit_setBit_self s i j
  rw [takeBlock, bit_setFreeMem, pmmPropagateDown_of_lt _ _ _ h]
  exact bit_splitParent hset

/-- The levels from `i` on have no clear bit. -/
def Full (s : Pmm) (i : ℕ) : Prop :=
  ∀ k, i ≤ k → k < numBitmaps → ∀ j < s.bits k, s.bit k j = true

/-- The search over the levels, in any state and for a request that is larger than every
block: it fails if no bit is clear, and takes a block otherwise. -/
theorem searchLevels_search {pages : ℕ} (hp : 2 ^ numBitmaps < pages) :
    ∀ (r i : ℕ) (s : Pmm), i + r = numBitmaps →
      (s.Full i ∧ (searchLevels pages r i s).1 = 0 ∧
          s.SameButLog (searchLevels pages r i s).2) ∨
        ∃ k j, k < numBitmaps ∧ j < s.bits k ∧ s.bit k j = false ∧
          (searchLevels pages r i s).2.bit k j = true := by
  intro r
  induction r with
  | zero => exact fun i s hi => Or.inl ⟨fun k h1 h2 => by omega, rfl, rfl⟩
  | succ r ih =>
      intro i s hi
      obtain ⟨hsame, hfound⟩ := findClear_search i (s.bits i) 0 s
      rw [searchLevels]
      revert hsame hfound
      rcases findClear i (s.bits i) 0 s with ⟨o, s'⟩
      intro hsame hfound
      cases o with
      | some j =>
          have hlt : 2 ^ i < pages :=
            lt_of_le_of_lt (Nat.pow_le_pow_right (by omega) (by omega)) hp
          exact Or.inr ⟨i, j, by omega, by simpa using hfound.2.1, hfound.2.2,
            bit_takeBlock s' j hlt⟩
      | none =>
          rcases ih (i + 1) s' (by omega) with ⟨hfull, hzero, hsame'⟩ | ⟨k, j, hk, hj, hb, hb'⟩
          · refine Or.inl ⟨fun k h1 h2 j hj => ?_, hzero, hsame.trans hsame'⟩
            rcases Nat.eq_or_lt_of_le h1 with rfl | hlt
            · exact hfound j (Nat.zero_le j) (by omega)
            · rw [← hsame.bit_eq]
              exact hfull k hlt h2 j (by rw [hsame.static.bits]; exact hj)
          · rw [hsame.static.bits] at hj
            rw [hsame.bit_eq] at hb
            exact Or.inr ⟨k, j, hk, hj, hb, hb'⟩

/-! ### `pmalloc` -/

/-- A request above 64 pages whose highest bit survives the shift fails at once. -/
theorem pmalloc_of_large {pages : ℕ} (s : Pmm) (h : 64 < pages) (h63 : pages ≤ 2 ^ 63) :
    pmalloc s pages = (0, s) := by
  have hlog : 6 ≤ Nat.log2 (pages - 1) ∧ Nat.log2 (pages - 1) < 63 :=
    ⟨(Nat.le_log2 (by omega)).mpr (by omega), (Nat.log2_lt (by omega)).mpr (by omega)⟩
  have hbit : (highestBit 64 (pages - 1) <<< 1) % 2 ^ 64 = 2 ^ (Nat.log2 (pages - 1) + 1) := by
    rw [highestBit_eq (by omega) (by omega), Nat.shiftLeft_eq, ← pow_add]
    exact Nat.mod_eq_of_lt (Nat.pow_lt_pow_right (by omega) (by omega))
  have hpow : 2 ^ 7 ≤ 2 ^ (Nat.log2 (pages - 1) + 1) :=
    Nat.pow_le_pow_right (by omega) (by omega)
  rw [pmalloc_eq, if_neg (by omega), hbit, if_pos ?_]
  simp only [numBitmaps]
  omega

/-- A request whose highest bit is lost by the shift is searched for from level `0` on. -/
theorem pmalloc_of_wrapped {pages : ℕ} (s : Pmm) (h : 2 ^ 63 < pages) (h64 : pages < 2 ^ 64) :
    pmalloc s pages = searchLevels pages numBitmaps 0 s := by
  have hlog : Nat.log2 (pages - 1) = 63 :=
    (Nat.log2_eq_iff (by omega)).mpr ⟨by omega, by omega⟩
  have hbit : (highestBit 64 (pages - 1) <<< 1) % 2 ^ 64 = 0 := by
    rw [highestBit_eq (by omega) (by omega), hlog]
    rfl
  have hstart : startLevel pages = 0 := by
    rw [startLevel, hbit]
    rfl
  rw [pmalloc_eq, if_neg (by omega), hbit, if_neg (by decide), hstart, Nat.sub_zero]

/-- No bitmap bit, no counter of free blocks and not `free_mem` differ. -/
structure SameCounts (s s' : Pmm) : Prop where
  /-- The bits of the levels. -/
  bit_eq : ∀ i < numBitmaps, ∀ j < s.bits i, s'.bit i j = s.bit i j
  /-- The counters. -/
  free_eq : ∀ i < numBitmaps, (s'.bitmaps i).free = (s.bitmaps i).free
  /-- `free_mem`. -/
  freeMem_eq : s'.freeMem = s.freeMem

theorem SameButLog.sameCounts {s s' : Pmm} (h : s.SameButLog s') : s.SameCounts s' :=
  ⟨fun i _ j _ => h.bit_eq i j, fun i _ => by rw [h], h.freeMem_eq⟩

/-- A request whose highest bit is lost fails without a change exactly if no bit is clear. -/
theorem pmalloc_wrapped_iff {pages : ℕ} (s : Pmm) (h : 2 ^ 63 < pages) (h64 : pages < 2 ^ 64) :
    ((pmalloc s pages).1 = 0 ∧ s.SameCounts (pmalloc s pages).2) ↔ s.Full 0 := by
  have hp : 2 ^ numBitmaps < pages := by
    simp only [numBitmaps]
    omega
  rw [pmalloc_of_wrapped s h h64]
  rcases searchLevels_search hp numBitmaps 0 s (by omega) with
    ⟨hfull, hzero, hsame⟩ | ⟨k, j, hk, hj, hb, hb'⟩
  · exact ⟨fun _ => hfull, fun _ => ⟨hzero, hsame.sameCounts⟩⟩
  · constructor
    · rintro ⟨-, hcounts⟩
      rw [hcounts.bit_eq k hk j hj, hb] at hb'
      exact absurd hb' (by simp)
    · exact fun hfull => absurd (hfull k (Nat.zero_le k) hk j hj) (by simp [hb])

/-- **What `pmalloc` cannot serve it rejects, as long as the shift keeps the highest bit**: in
every state and for every 64-bit request of no page or of more than 64 pages, the call
returns `NULL` and changes nothing exactly if the request is at most `2 ^ 63` pages or no
level has a clear bit. -/
theorem pmalloc_rejects_iff (s : Pmm) {pages : ℕ} (h64 : pages < 2 ^ 64)
    (h : pages = 0 ∨ 64 < pages) :
    ((pmalloc s pages).1 = 0 ∧ s.SameCounts (pmalloc s pages).2) ↔
      pages ≤ 2 ^ 63 ∨ s.Full 0 := by
  by_cases h63 : pages ≤ 2 ^ 63
  · have hrej : pmalloc s pages = (0, s) := by
      rcases h with rfl | hlarge
      · rfl
      · exact pmalloc_of_large s hlarge h63
    rw [hrej]
    exact ⟨fun _ => Or.inl h63, fun _ => ⟨rfl, SameButLog.sameCounts rfl⟩⟩
  · rw [pmalloc_wrapped_iff s (by omega) h64, or_iff_right h63]

/-- The theorem at a request that wraps, in the allocator with the one free block `64`, …,
`127`. -/
theorem pmalloc_rejects_iff_oneBlock :
    ((pmalloc oneBlock (2 ^ 63 + 1)).1 = 0 ∧
        oneBlock.SameCounts (pmalloc oneBlock (2 ^ 63 + 1)).2) ↔
      2 ^ 63 + 1 ≤ 2 ^ 63 ∨ oneBlock.Full 0 :=
  pmalloc_rejects_iff oneBlock (by omega) (Or.inr (by omega))

/-- A request of `2 ^ 63 + 1` pages takes the free block `64`, …, `127`. -/
theorem pmalloc_serves_wrapped :
    ¬∀ (s : Pmm) (pages : ℕ), pages < 2 ^ 64 → pages = 0 ∨ 64 < pages →
      (pmalloc s pages).1 = 0 ∧ s.SameCounts (pmalloc s pages).2 := by
  intro h
  have hrejects := h oneBlock (2 ^ 63 + 1) (by omega) (Or.inr (by omega))
  rw [pmalloc_wrapped_iff oneBlock (by omega) (by omega)] at hrejects
  have hbit := hrejects 6 (by decide) (by decide) 1 (by decide)
  exact absurd hbit (by decide)

end Pmm

end AnglOS
