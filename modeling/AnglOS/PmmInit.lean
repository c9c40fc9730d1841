import AnglOS.PmmRun

/-!
# What `initPMM` Leaves Behind

`initPMM` carves the bitmaps out of the memory map and fills them in four passes. When the
levels halve exactly, the passes end in the maximal blocks of the usable pages. What goes
wrong when they do not, or when the bitmaps end inside a page, is stated here too.

## Main results

* `initPMM_spec` — the state after `initPMM` on a memory whose levels halve;
* `initPMM_establishes` — the usable pages are covered once, by blocks as large as they can
  be, and all counters are exact;
* `bitmap_indices_in_range_iff` — no access leaves its level in any run exactly when the
  levels halve;
* `bitmap_pages_never_free_iff` — no page of the bitmaps is free in any run exactly when
  the bitmaps end at a page boundary or past the last page that is managed.
-/

namespace AnglOS

open Buddy Pmm

/-! ### The bitmap table -/

theorem initBitmaps_size (base size i : ℕ) : (initBitmaps base size i).size = size >>> i := by
  cases i <;> rfl

theorem initBitmaps_free (base size i : ℕ) : (initBitmaps base size i).free = 0 := by
  cases i <;> rfl

/-- A number of bytes that can be halved six times is halved exactly. -/
theorem shiftRight_halves {size i : ℕ} (h : 64 ∣ size) (hi : i < 6) :
    size >>> i = 2 * size >>> (i + 1) := by
  obtain ⟨q, rfl⟩ := h
  simp only [Nat.shiftRight_eq_div_pow]
  interval_cases i <;> omega

/-- A level that cannot be halved, below a size that cannot be halved six times. -/
theorem exists_odd_level {size : ℕ} (h : ¬64 ∣ size) :
    ∃ i < 6, size >>> i = 2 * size >>> (i + 1) + 1 := by
  simp only [Nat.shiftRight_eq_div_pow]
  by_contra hc
  push Not at hc
  have h0 := hc 0 (by omega)
  have h1 := hc 1 (by omega)
  have h2 := hc 2 (by omega)
  have h3 := hc 3 (by omega)
  have h4 := hc 4 (by omega)
  have h5 := hc 5 (by omega)
  norm_num at h0 h1 h2 h3 h4 h5
  omega

/-- The number of pages is the number of bytes of memory over the page size, so it is less
than `2 ^ 52`. -/
theorem initSize_lt (entries : List MemmapEntry) : initSize entries * 8 < 2 ^ 52 := by
  have h : memSizeOf entries < 2 ^ 64 := by
    rw [memSizeOf]
    split
    · exact Nat.mod_lt _ (by norm_num)
    · norm_num
  simp only [initSize, pageSize]
  omega

/-! ### Filling -/

/-- Every byte of the bitmaps is filled. -/
theorem fillBitmaps_apply (bitmaps : ℕ → BitmapStat) (m : Mem) :
    ∀ i < 7, ∀ j < (bitmaps i).size, fillBitmaps bitmaps m ((bitmaps i).base + j) = 0xFF#8 := by
  have hstore : ∀ (m : Mem) (a x : ℕ), m x = 0xFF#8 → m.store8 a 0xFF#8 x = 0xFF#8 := by
    intro m a x h
    rw [Mem.store8]
    split
    · rfl
    · exact h
  refine loop_invariant (fun i (m : Mem) => ∀ i' < i, ∀ j < (bitmaps i').size,
    m ((bitmaps i').base + j) = 0xFF#8) (fun i' h => absurd h (Nat.not_lt_zero i')) ?_
  intro i _ m hm
  have hinner := loop_invariant (n := (bitmaps i).size) (s := m)
    (f := fun j m => m.store8 ((bitmaps i).base + j) 0xFF#8)
    (fun j (m : Mem) => (∀ i' < i, ∀ j < (bitmaps i').size, m ((bitmaps i').base + j) = 0xFF#8) ∧
      ∀ j' < j, m ((bitmaps i).base + j') = 0xFF#8)
    ⟨hm, fun j' h => absurd h (Nat.not_lt_zero j')⟩
    (fun j _ m h => ⟨fun i' hi' j' hj' => hstore _ _ _ (h.1 i' hi' j' hj'), fun j' hj' => by
      rcases Nat.eq_or_lt_of_le (Nat.le_of_lt_succ hj') with rfl | hlt
      · exact Mem.store8_self _ _ _
      · exact hstore _ _ _ (h.2 j' hlt)⟩)
  intro i' hi' j hj
  rcases Nat.eq_or_lt_of_le (Nat.le_of_lt_succ hi') with rfl | hlt
  · exact hinner.2 j hj
  · exact hinner.1 i' hlt j hj

/-- A filled byte holds eight set bits. -/
theorem pmmCheckBit_of_filled {m : Mem} {base j : ℕ} (h : m (base + j / 8) = 0xFF#8) :
    pmmCheckBit m base j = true := by
  have hj : j % 8 < 8 := Nat.mod_lt _ (by omega)
  rw [pmmCheckBit_eq, h]
  interval_cases j % 8 <;> rfl

/-! ### Marking -/

/-- The pages below `n` that the map says are usable. -/
def usablePages (entries : List MemmapEntry) (n : ℕ) : Finset ℕ :=
  (Finset.range n).filter fun p => pmmGetStatusFromMMap entries p = .usable

/-- The state before the passes over the bitmaps. -/
structure Pmm.Filled (s : Pmm) : Prop where
  layout : s.Layout
  free_eq : ∀ i, (s.bitmaps i).free = 0
  set : ∀ i < 7, ∀ j < s.bits i, s.bit i j = true
  log_eq : s.log = []
  no_underflow : s.underflow = false

/-- Without a clear bit there is no free block. -/
theorem Pmm.Filled.sound {s : Pmm} (h : s.Filled) : s.Sound ∧ s.blocks = ∅ := by
  have hclear : ∀ i < 7, s.clearBits i = ∅ := by
    intro i hi
    refine Finset.eq_empty_of_forall_notMem fun j hj => ?_
    rw [mem_clearBits] at hj
    rw [h.set i hi j hj.1] at hj
    simp at hj
  refine ⟨⟨h.layout, fun i hi => ?_, fun a ha => ?_, h.no_underflow⟩, ?_⟩
  · rw [hclear i hi, h.free_eq]
    rfl
  · simp [h.log_eq] at ha
  · refine Finset.eq_empty_of_forall_notMem fun b hb => ?_
    have := mem_blocks.mp hb
    rw [hclear _ this.1] at this
    simp at this

/-- The first pass makes every usable page a free block. -/
theorem markPages_leads {s : Pmm} (h : s.Filled) :
    s.Leads (markPages s) ((usablePages s.mmapEntries (s.bits 0)).image (Prod.mk 0)) := by
  obtain ⟨hs, hb⟩ := h.sound
  refine loop_invariant (fun j s' => s.Leads s'
    ((usablePages s.mmapEntries j).image (Prod.mk 0))) ?_ ?_
  · simpa [usablePages, hb] using Leads.refl hs
  · intro j hj s' hs'
    rw [markUsable]
    split_ifs with husable
    · have hnew : (0, j) ∉ s'.blocks := by
        rw [hs'.blocks_eq]
        simp [usablePages]
      have hrel := hs'.sound.release (by omega) (by rw [hs'.static.bits]; exact hj) hnew
      have hins : insert (0, j) s'.blocks =
          (usablePages s.mmapEntries (j + 1)).image (Prod.mk 0) := by
        rw [hs'.blocks_eq, ← Finset.image_insert, usablePages, usablePages,
          Finset.range_add_one, Finset.filter_insert, if_pos husable]
      rw [hins] at hrel
      exact hs'.trans hrel
    · have hsame : usablePages s.mmapEntries (j + 1) = usablePages s.mmapEntries j := by
        rw [usablePages, usablePages, Finset.range_add_one, Finset.filter_insert,
          if_neg husable]
      rw [hsame]
      exact hs'

/-- The state that a pass reaches, with its free blocks described by a predicate. -/
def Pmm.Reached (s s' : Pmm) (P : ℕ → ℕ → Prop) : Prop :=
  s.Leads s' s'.blocks ∧ ∀ i j, (i, j) ∈ s'.blocks ↔ P i j

/-- A bit inside its level is clear exactly when the predicate holds. -/
theorem Pmm.Reached.bit_eq_false {s s' : Pmm} {P : ℕ → ℕ → Prop} (h : s.Reached s' P)
    {i j : ℕ} (hi : i < 7) (hj : j < s.bits i) : s'.bit i j = false ↔ P i j := by
  rw [← h.2, mem_blocks, mem_clearBits, h.1.static.bits]
  exact ⟨fun hb => ⟨hi, hj, hb⟩, fun hb => hb.2.2⟩

/-- A step that leads on from a reached state. -/
theorem Pmm.Reached.step {s s' s'' : Pmm} {P Q : ℕ → ℕ → Prop} {B : Finset Block}
    (h : s.Reached s' P) (hstep : s'.Leads s'' B) (hB : ∀ i j, (i, j) ∈ B ↔ Q i j) :
    s.Reached s'' Q := by
  have hall := h.1.trans hstep
  refine ⟨hall.blocks_eq ▸ hall, fun i j => ?_⟩
  rw [hall.blocks_eq, hB]

/-- The predicate may be replaced by an equivalent one. -/
theorem Pmm.Reached.congr {s s' : Pmm} {P Q : ℕ → ℕ → Prop} (h : s.Reached s' P)
    (hPQ : ∀ i j, P i j ↔ Q i j) : s.Reached s' Q :=
  ⟨h.1, fun i j => (h.2 i j).trans (hPQ i j)⟩

/-- Blocks of usable pages lie inside their level. -/
theorem Pmm.Layout.lt_bits_of_pages_subset {s : Pmm} (h : s.Layout) {U : Finset ℕ}
    (hU : ∀ p ∈ U, p < s.bits 0) {i j : ℕ} (hi : i < 7) (hsub : pages (i, j) ⊆ U) :
    j < s.bits i := by
  have hlt := hU _ (hsub (first_mem_pages i j))
  rw [← h.bits_mul hi] at hlt
  exact Nat.lt_of_mul_lt_mul_right hlt

/-- A block is contained in a set exactly when its halves are. -/
theorem pages_succ_subset {i k : ℕ} {U : Finset ℕ} : pages (i + 1, k) ⊆ U ↔
    pages (i, 2 * k) ⊆ U ∧ pages (i, 2 * k + 1) ⊆ U := by
  constructor
  · intro h
    exact ⟨fun p hp => h (mem_pages_succ.mpr (Or.inl hp)),
      fun p hp => h (mem_pages_succ.mpr (Or.inr hp))⟩
  · rintro ⟨hl, hr⟩ p hp
    rcases mem_pages_succ.mp hp with hp | hp
    · exact hl hp
    · exact hr hp

/-- One step of the second pass: a block is free once both halves are. -/
theorem markParent_reached {s s' : Pmm} {U : Finset ℕ} {i j : ℕ} (hi : i < 6)
    (hj : j < s.bits (i + 1)) (h : s.Reached s' fun l k =>
      (l ≤ i ∨ l = i + 1 ∧ k < j) ∧ pages (l, k) ⊆ U) :
    s.Reached (markParent (i + 1) j s') fun l k =>
      (l ≤ i ∨ l = i + 1 ∧ k < j + 1) ∧ pages (l, k) ⊆ U := by
  have hbits := h.1.sound.layout.bits_succ hi
  rw [h.1.static.bits, h.1.static.bits] at hbits
  have hl := h.bit_eq_false (i := i) (j := 2 * j) (by omega) (by omega)
  have hr := h.bit_eq_false (i := i) (j := 2 * j + 1) (by omega) (by omega)
  simp only [le_refl, true_or, true_and] at hl hr
  -- the predicate grows by the block `(i + 1, j)` if that is contained in `U`
  have hgrow : ∀ l k, ((l ≤ i ∨ l = i + 1 ∧ k < j + 1) ∧ pages (l, k) ⊆ U) ↔
      ((l ≤ i ∨ l = i + 1 ∧ k < j) ∧ pages (l, k) ⊆ U) ∨
        (l = i + 1 ∧ k = j) ∧ pages (i + 1, j) ⊆ U := by
    intro l k
    constructor
    · rintro ⟨hl, hsub⟩
      by_cases heq : l = i + 1 ∧ k = j
      · obtain ⟨rfl, rfl⟩ := heq
        exact Or.inr ⟨⟨rfl, rfl⟩, hsub⟩
      · exact Or.inl ⟨by omega, hsub⟩
    · rintro (⟨hl, hsub⟩ | ⟨⟨rfl, rfl⟩, hsub⟩)
      · exact ⟨by omega, hsub⟩
      · exact ⟨by omega, hsub⟩
  have hnot : ¬pages (i + 1, j) ⊆ U → ∀ l k, (l, k) ∈ s'.blocks ↔
      (l ≤ i ∨ l = i + 1 ∧ k < j + 1) ∧ pages (l, k) ⊆ U := by
    intro hn l k
    rw [hgrow, h.2]
    simp [hn]
  have htl := h.1.sound.touch (i := i) (j := 2 * j) (by omega)
    (by rw [h.1.static.bits]; omega)
  have htr := htl.sound.touch (i := i) (j := 2 * j + 1) (by omega)
    (by rw [htl.static.bits, h.1.static.bits]; omega)
  rw [markParent, Nat.mul_comm j 2, Nat.add_sub_cancel, checkBit]
  cases hb : s'.bit i (2 * j) with
  | true =>
      refine h.step htl (hnot fun hsub => ?_)
      exact absurd (hl.mpr (pages_succ_subset.mp hsub).1) (by simp [hb])
  | false =>
      simp only
      rw [checkBit, show (s'.touch i (2 * j)).bit i (2 * j + 1) = s'.bit i (2 * j + 1) from rfl]
      have htouch := htl.trans htr
      rw [htl.blocks_eq] at htouch
      cases hc : s'.bit i (2 * j + 1) with
      | true =>
          refine h.step htouch (hnot fun hsub => ?_)
          exact absurd (hr.mpr (pages_succ_subset.mp hsub).2) (by simp [hc])
      | false =>
          have hsub : pages (i + 1, j) ⊆ U := pages_succ_subset.mpr ⟨hl.mp hb, hr.mp hc⟩
          have hnew : (i + 1, j) ∉ s'.blocks := by
            rw [h.2]
            omega
          have hrel := htouch.sound.release (i := i + 1) (j := j) (by omega)
            (by rw [htouch.static.bits, h.1.static.bits]; exact hj)
            (by rw [htouch.blocks_eq]; exact hnew)
          rw [htouch.blocks_eq] at hrel
          refine h.step (htouch.trans hrel) fun l k => ?_
          rw [hgrow, Finset.mem_insert, h.2, Prod.mk.injEq]
          simp only [hsub, and_true]
          exact or_comm

/-- The second pass makes every block of usable pages a free block. -/
theorem markParents_reached {s s' : Pmm} {U : Finset ℕ}
    (h : s.Reached s' fun l k => l = 0 ∧ k ∈ U) (hU : ∀ p ∈ U, p < s.bits 0) :
    s.Reached (markParents s') fun l k => l < 7 ∧ pages (l, k) ⊆ U := by
  have hpage : ∀ k, pages (0, k) ⊆ U ↔ k ∈ U := by
    intro k
    constructor
    · intro hk
      exact hk (by simpa using first_mem_pages 0 k)
    · intro hk p hp
      rw [mem_pages] at hp
      simp only [pow_zero, Nat.div_one] at hp
      exact hp ▸ hk
  have hpass := loop_invariant (n := 6) (s := s')
    (f := fun i s => loop (markParent (i + 1)) (s.bits (i + 1)) s)
    (fun i s' => s.Reached s' fun l k => l ≤ i ∧ pages (l, k) ⊆ U)
    (h.congr fun l k => by
      rw [Nat.le_zero]
      exact and_congr_right fun hl => hl ▸ (hpage k).symm)
    (fun i hi s' hs' => ?_)
  · exact hpass.congr fun l k => and_congr_left fun _ => Nat.lt_succ_iff.symm
  · have hlevel := loop_invariant (n := s'.bits (i + 1)) (s := s') (f := markParent (i + 1))
      (fun j s' => s.Reached s' fun l k =>
        (l ≤ i ∨ l = i + 1 ∧ k < j) ∧ pages (l, k) ⊆ U)
      (hs'.congr fun l k => by simp)
      (fun j hj s'' hs'' => markParent_reached hi (by rwa [hs'.1.static.bits] at hj) hs'')
    rw [hs'.1.static.bits] at hlevel ⊢
    refine hlevel.congr fun l k => ?_
    constructor
    · rintro ⟨hl, hsub⟩
      exact ⟨by omega, hsub⟩
    · rintro ⟨hl, hsub⟩
      refine ⟨?_, hsub⟩
      by_cases hli : l ≤ i
      · exact Or.inl hli
      · obtain rfl : l = i + 1 := by omega
        have hlay := h.1.sound.layout
        have := hlay.lt_bits_of_pages_subset (U := U)
          (fun p hp => by rw [h.1.static.bits]; exact hU p hp) (by omega) hsub
        rw [h.1.static.bits] at this
        exact Or.inr ⟨rfl, this⟩

/-- One step of the third pass: a block whose parent is free is free no more. -/
theorem unmarkChild_reached {s s' : Pmm} {U : Finset ℕ} {i j : ℕ} (hi : i < 6)
    (hj : j < s.bits i) (h : s.Reached s' fun l k => l < 7 ∧ pages (l, k) ⊆ U ∧
      (l < i ∨ l = i ∧ k < j → ¬pages (l + 1, k / 2) ⊆ U)) :
    s.Reached (unmarkChild i j s') fun l k => l < 7 ∧ pages (l, k) ⊆ U ∧
      (l < i ∨ l = i ∧ k < j + 1 → ¬pages (l + 1, k / 2) ⊆ U) := by
  have hbits := h.1.sound.layout.bits_succ hi
  rw [h.1.static.bits, h.1.static.bits] at hbits
  have hpar := h.bit_eq_false (i := i + 1) (j := j / 2) (by omega) (by omega)
  have hgone : ¬(i + 1 < i ∨ i + 1 = i ∧ j / 2 < j) := by omega
  simp only [hgone, false_imp_iff, and_true, show i + 1 < 7 by omega, true_and] at hpar
  -- the predicate loses the block `(i, j)` if its parent is contained in `U`
  have hshrink : ∀ l k, (l < 7 ∧ pages (l, k) ⊆ U ∧
      (l < i ∨ l = i ∧ k < j + 1 → ¬pages (l + 1, k / 2) ⊆ U)) ↔
      (l < 7 ∧ pages (l, k) ⊆ U ∧ (l < i ∨ l = i ∧ k < j → ¬pages (l + 1, k / 2) ⊆ U)) ∧
        ¬((l = i ∧ k = j) ∧ pages (i + 1, j / 2) ⊆ U) := by
    intro l k
    constructor
    · rintro ⟨hl, hsub, hn⟩
      refine ⟨⟨hl, hsub, fun hc => hn (by omega)⟩, ?_⟩
      rintro ⟨⟨rfl, rfl⟩, hp⟩
      exact hn (by omega) hp
    · rintro ⟨⟨hl, hsub, hn⟩, hne⟩
      refine ⟨hl, hsub, fun hc hp => ?_⟩
      by_cases heq : l = i ∧ k = j
      · obtain ⟨rfl, rfl⟩ := heq
        exact hne ⟨⟨rfl, rfl⟩, hp⟩
      · exact hn (by omega) hp
  have htouch := h.1.sound.touch (i := i + 1) (j := j / 2) (by omega)
    (by rw [h.1.static.bits]; omega)
  rw [unmarkChild, checkBit]
  cases hb : s'.bit (i + 1) (j / 2) with
  | true =>
      refine h.step htouch fun l k => ?_
      have hn : ¬pages (i + 1, j / 2) ⊆ U := fun hp => absurd (hpar.mpr hp) (by simp [hb])
      rw [hshrink, h.2]
      simp [hn]
  | false =>
      have hsub : pages (i + 1, j / 2) ⊆ U := hpar.mp hb
      have hmem : (i, j) ∈ s'.blocks := by
        rw [h.2]
        exact ⟨by omega, (pages_subset_parent i j).trans hsub, fun hc => by omega⟩
      have hocc := htouch.sound.occupy (i := i) (j := j) (by rw [htouch.blocks_eq]; exact hmem)
      rw [htouch.blocks_eq] at hocc
      refine h.step (htouch.trans hocc) fun l k => ?_
      rw [hshrink, Finset.mem_erase, h.2, ne_eq, Prod.mk.injEq]
      simp only [hsub, and_true]
      exact and_comm

/-- The third pass keeps the maximal blocks. -/
theorem unmarkChildren_reached {s s' : Pmm} {U : Finset ℕ}
    (h : s.Reached s' fun l k => l < 7 ∧ pages (l, k) ⊆ U) (hU : ∀ p ∈ U, p < s.bits 0) :
    s.Reached (unmarkChildren s') fun l k => l < 7 ∧ pages (l, k) ⊆ U ∧
      (l < 6 → ¬pages (l + 1, k / 2) ⊆ U) := by
  refine loop_invariant (n := 6) (s := s')
    (f := fun i s => loop (unmarkChild i) (s.bits i) s)
    (fun i s' => s.Reached s' fun l k => l < 7 ∧ pages (l, k) ⊆ U ∧
      (l < i → ¬pages (l + 1, k / 2) ⊆ U)) ?_ ?_
  · exact h.congr fun l k => by simp
  · intro i hi s' hs'
    have hlevel := loop_invariant (n := s'.bits i) (s := s') (f := unmarkChild i)
      (fun j s' => s.Reached s' fun l k => l < 7 ∧ pages (l, k) ⊆ U ∧
        (l < i ∨ l = i ∧ k < j → ¬pages (l + 1, k / 2) ⊆ U))
      (hs'.congr fun l k => by simp)
      (fun j hj s'' hs'' => unmarkChild_reached hi (by rwa [hs'.1.static.bits] at hj) hs'')
    rw [hs'.1.static.bits] at hlevel ⊢
    refine hlevel.congr fun l k => ?_
    refine and_congr_right fun hl => and_congr_right fun hsub => ?_
    have hlay := h.1.sound.layout
    have hk := hlay.lt_bits_of_pages_subset (U := U)
      (fun p hp => by rw [h.1.static.bits]; exact hU p hp) hl hsub
    rw [h.1.static.bits] at hk
    constructor
    · intro hn hc
      refine hn ?_
      rcases Nat.eq_or_lt_of_le (Nat.le_of_lt_succ hc) with rfl | hlt
      · exact Or.inr ⟨rfl, hk⟩
      · exact Or.inl hlt
    · intro hn hc
      exact hn (by omega)

/-! ### The state after `initPMM` -/

/-- Where the bitmaps go, and what the passes start from. -/
theorem initPMM_eq_some {entries : List MemmapEntry} {m : Mem} {s : Pmm}
    (h : initPMM entries m = some s) : ∃ index entry, bitmapIndex entries = some index ∧
      entries[index]? = some entry ∧ s = countFreeMem (unmarkChildren (markParents (markPages
        (initState entries m index entry)))) := by
  simp only [initPMM, Option.bind_eq_bind, Option.bind_eq_some_iff, Option.pure_def,
    Option.some.injEq] at h
  obtain ⟨index, hindex, entry, hentry, rfl⟩ := h
  exact ⟨index, entry, hindex, hentry, rfl⟩

/-- An entry that holds the bitmaps is all that `initPMM` needs. -/
theorem exists_initPMM {entries : List MemmapEntry} {index : ℕ} {entry : MemmapEntry}
    (hindex : bitmapIndex entries = some index) (hentry : entries[index]? = some entry) (m : Mem) :
    ∃ s, initPMM entries m = some s := by
  simp [initPMM, hindex, hentry]

/-- The entry that holds the bitmaps is usable and large enough. -/
theorem bitmapIndex_spec {entries : List MemmapEntry} {index : ℕ} {entry : MemmapEntry}
    (h : bitmapIndex entries = some index) (hentry : entries[index]? = some entry) :
    bitmapSizeOf entries ≤ entry.length ∧ entry.type = .usable := by
  obtain ⟨hlt, hfits, -⟩ := List.findIdx?_eq_some_iff_getElem.mp h
  obtain ⟨-, rfl⟩ := List.getElem?_eq_some_iff.mp hentry
  simpa using hfits

/-- Levels that halve start out laid out and filled. -/
theorem initState_filled {entries : List MemmapEntry} (h : 64 ∣ initSize entries) (m : Mem)
    (index : ℕ) (entry : MemmapEntry) : (initState entries m index entry).Filled := by
  refine ⟨⟨?_, fun i _ => rfl, ?_⟩, fun i => initBitmaps_free _ _ i, ?_, rfl, rfl⟩
  · intro i hi
    simp only [initState, initBitmaps_size]
    exact shiftRight_halves h hi
  · exact initSize_lt entries
  · intro i hi j hj
    refine pmmCheckBit_of_filled (fillBitmaps_apply _ m i hi (j / 8) ?_)
    rw [bits] at hj
    exact Nat.div_lt_of_lt_mul (by rw [Nat.mul_comm]; exact hj)

/-- The number of free pages, level by level. -/
theorem card_freePages {s : Pmm} (h : Apart s.blocks) :
    s.freePages.card = ∑ i ∈ Finset.range 7, (s.clearBits i).card * 2 ^ i := by
  rw [freePages, card_cover h, blocks, Finset.sum_biUnion]
  · refine Finset.sum_congr rfl fun i _ => ?_
    rw [Finset.sum_image fun j _ k _ hjk => (Prod.mk.inj hjk).2]
    simp
  · intro i _ i' _ hne
    rw [Function.onFun, Finset.disjoint_left]
    rintro b hb hb'
    obtain ⟨j, -, rfl⟩ := Finset.mem_image.mp hb
    obtain ⟨k, -, hk⟩ := Finset.mem_image.mp hb'
    exact hne (Prod.mk.inj hk).1.symm

/-- The last loop counts the bytes of the free pages. -/
theorem countFreeMem_freeMem {s : Pmm} (hs : s.Sound) (ha : Apart s.blocks) :
    (countFreeMem s).freeMem = pageSize * s.freePages.card := by
  have hlt := hs.layout.card_freePages_lt
  rw [card_freePages ha] at hlt ⊢
  refine loop_invariant (fun i n => n = pageSize * ∑ i' ∈ Finset.range i,
    (s.clearBits i').card * 2 ^ i') rfl ?_
  rintro i hi n rfl
  have hle : ∑ i' ∈ Finset.range (i + 1), (s.clearBits i').card * 2 ^ i' ≤
      ∑ i' ∈ Finset.range 7, (s.clearBits i').card * 2 ^ i' :=
    Finset.sum_le_sum_of_subset (Finset.range_subset_range.mpr hi)
  have hterm : (s.bitmaps i).free * pageSize <<< i = (s.clearBits i).card * 2 ^ i * pageSize := by
    rw [hs.free_eq i hi, Nat.shiftLeft_eq]
    ring
  rw [Finset.sum_range_succ] at hle ⊢
  rw [hterm, add64_pages (by omega)]
  ring

/-- **The state after `initPMM`** on a memory whose levels halve: it is sound, its free
blocks are the maximal blocks of the usable pages, and `free_mem` counts these pages. -/
theorem initPMM_spec {entries : List MemmapEntry} {m : Mem} {s : Pmm} {index : ℕ}
    {entry : MemmapEntry} (h64 : 64 ∣ initSize entries)
    (hs : s = countFreeMem (unmarkChildren (markParents (markPages
      (initState entries m index entry))))) :
    s.Sound ∧ (initState entries m index entry).Static s ∧
      MaximalIn 6 (usablePages s.mmapEntries (8 * initSize entries)) s.blocks ∧
      s.freeMem = pageSize * s.freePages.card := by
  set s₀ := initState entries m index entry with hs₀
  have hfill := initState_filled h64 m index entry
  rw [← hs₀] at hfill
  have hbits : s₀.bits 0 = 8 * initSize entries := Nat.mul_comm _ _
  set U := usablePages s₀.mmapEntries (s₀.bits 0) with hU
  have hUlt : ∀ p ∈ U, p < s₀.bits 0 := fun p hp =>
    Finset.mem_range.mp (Finset.mem_filter.mp hp).1
  have hpages := markPages_leads hfill
  have hstart : s₀.Reached (markPages s₀) fun l k => l = 0 ∧ k ∈ U := by
    refine ⟨hpages.blocks_eq.symm ▸ hpages, fun l k => ?_⟩
    rw [hpages.blocks_eq]
    simp only [Finset.mem_image, Prod.mk.injEq]
    constructor
    · rintro ⟨p, hp, rfl, rfl⟩
      exact ⟨rfl, hp⟩
    · rintro ⟨rfl, hk⟩
      exact ⟨k, hk, rfl, rfl⟩
  have hend := unmarkChildren_reached (markParents_reached hstart hUlt) hUlt
  obtain ⟨hsound, hstatic, hblocks⟩ := hend.1.setFreeMem s.freeMem
  have heq : s = { unmarkChildren (markParents (markPages s₀)) with freeMem := s.freeMem } := by
    rw [hs]
    rfl
  rw [← heq] at hsound hstatic hblocks
  have hmax : MaximalIn 6 U s.blocks := by
    intro i j
    rw [hblocks, hend.2]
    exact and_congr_left fun _ => Nat.lt_succ_iff
  refine ⟨hsound, hstatic, ?_, ?_⟩
  · rw [hstatic.mmapEntries, ← hbits]
    exact hmax
  · have hfree : s.freePages = (unmarkChildren (markParents (markPages s₀))).freePages := by
      rw [freePages, hblocks]
      rfl
    rw [hfree, hs]
    refine countFreeMem_freeMem hend.1.sound ?_
    rw [← hblocks]
    exact hmax.apart

/-- The client that owns nothing after `initPMM` keeps what every call keeps. -/
theorem initPMM_ok {entries : List MemmapEntry} {m : Mem} {s : Pmm}
    (h64 : 64 ∣ initSize entries) (h : initPMM entries m = some s) : Client.Ok ⟨s, ∅⟩ := by
  obtain ⟨index, entry, -, -, hs⟩ := initPMM_eq_some h
  obtain ⟨hsound, -, hmax, -⟩ := initPMM_spec h64 hs
  exact ⟨hsound, hmax.apart, Finset.disjoint_empty_left _⟩

/-! ### Accesses outside a level -/

/-- A loop whose body keeps the static part keeps it. -/
theorem static_loop {f : ℕ → Pmm → Pmm} (h : ∀ j (s : Pmm), s.Static (f j s)) (n : ℕ) (s : Pmm) :
    s.Static (loop f n s) :=
  loop_invariant (fun _ s' => s.Static s') (Static.refl s) fun j _ s' hs' => hs'.trans (h j s')

theorem static_markUsable (entries : List MemmapEntry) (j : ℕ) (s : Pmm) :
    s.Static (markUsable entries j s) := by
  rw [markUsable]
  split_ifs
  · exact (s.static_clearBit 0 j).trans (static_addFree _ 0 1)
  · exact Static.refl s

theorem static_markParent (i j : ℕ) (s : Pmm) : s.Static (markParent i j s) := by
  rw [markParent, checkBit]
  cases s.bit (i - 1) (j * 2) with
  | true => exact s.static_touch _ _
  | false =>
      simp only [checkBit]
      have htouch := (s.static_touch (i - 1) (j * 2)).trans (static_touch _ (i - 1) (j * 2 + 1))
      cases (s.touch (i - 1) (j * 2)).bit (i - 1) (j * 2 + 1) with
      | true => exact htouch
      | false => exact htouch.trans ((static_clearBit _ i j).trans (static_addFree _ i 1))

theorem static_markPages (s : Pmm) : s.Static (markPages s) :=
  static_loop (static_markUsable s.mmapEntries) (s.bits 0) s

theorem static_markParents (s : Pmm) : s.Static (markParents s) :=
  static_loop (fun i s => static_loop (static_markParent (i + 1)) (s.bits (i + 1)) s) 6 s

theorem static_countFreeMem (s : Pmm) : s.Static (countFreeMem s) :=
  static_setFreeMem s _

theorem log_countFreeMem (s : Pmm) : (countFreeMem s).log = s.log :=
  log_setFreeMem s _

/-- The third pass reads the bit of the parent, whatever it does next. -/
theorem unmarkChild_log (i j : ℕ) (s : Pmm) : s.Static (unmarkChild i j s) ∧
    (i + 1, j / 2) ∈ (unmarkChild i j s).log ∧ ∀ a ∈ s.log, a ∈ (unmarkChild i j s).log := by
  rw [unmarkChild, checkBit]
  cases s.bit (i + 1) (j / 2) with
  | true =>
      exact ⟨s.static_touch _ _, List.mem_cons_self, fun a ha => List.mem_cons_of_mem _ ha⟩
  | false =>
      refine ⟨(s.static_touch _ _).trans ((static_setBit _ i j).trans (static_subFree _ i 1)),
        ?_, fun a ha => ?_⟩
      · exact List.mem_cons_of_mem _ List.mem_cons_self
      · exact List.mem_cons_of_mem _ (List.mem_cons_of_mem _ ha)

/-- The third pass reads the bit of the parent of every block below the top level. -/
theorem unmarkChildren_log (s : Pmm) : s.Static (unmarkChildren s) ∧
    ∀ i < 6, ∀ j < s.bits i, (i + 1, j / 2) ∈ (unmarkChildren s).log := by
  refine loop_invariant (n := 6) (s := s) (f := fun i s => loop (unmarkChild i) (s.bits i) s)
    (fun i s' => s.Static s' ∧ ∀ i' < i, ∀ j < s.bits i', (i' + 1, j / 2) ∈ s'.log)
    ⟨Static.refl s, fun i' h => absurd h (Nat.not_lt_zero i')⟩ ?_
  intro i _ s' hs'
  have hlevel := loop_invariant (n := s'.bits i) (s := s') (f := unmarkChild i)
    (fun j s'' => s'.Static s'' ∧ (∀ a ∈ s'.log, a ∈ s''.log) ∧
      ∀ j' < j, (i + 1, j' / 2) ∈ s''.log)
    ⟨Static.refl s', fun a ha => ha, fun j' h => absurd h (Nat.not_lt_zero j')⟩
    (fun j _ s'' hs'' => by
      obtain ⟨hst, hnew, hold⟩ := unmarkChild_log i j s''
      refine ⟨hs''.1.trans hst, fun a ha => hold a (hs''.2.1 a ha), fun j' hj' => ?_⟩
      rcases Nat.eq_or_lt_of_le (Nat.le_of_lt_succ hj') with rfl | hlt
      · exact hnew
      · exact hold _ (hs''.2.2 j' hlt))
  refine ⟨hs'.1.trans hlevel.1, fun i' hi' j hj => ?_⟩
  rcases Nat.eq_or_lt_of_le (Nat.le_of_lt_succ hi') with rfl | hlt
  · exact hlevel.2.2 j (by rw [hs'.1.bits]; exact hj)
  · exact hlevel.2.1 _ (hs'.2 i' hlt j hj)

/-- The sizes of the levels after `initPMM`, and the reads of its third pass. -/
theorem initPMM_log {entries : List MemmapEntry} {m : Mem} {s : Pmm}
    (h : initPMM entries m = some s) : (∀ i, s.bits i = (initSize entries >>> i) * 8) ∧
      ∀ i < 6, ∀ j < (initSize entries >>> i) * 8, (i + 1, j / 2) ∈ s.log := by
  obtain ⟨index, entry, -, -, rfl⟩ := initPMM_eq_some h
  have hst := (static_markPages (initState entries m index entry)).trans (static_markParents _)
  obtain ⟨hst', hlog⟩ := unmarkChildren_log (markParents (markPages
    (initState entries m index entry)))
  have hbits : ∀ i, (initState entries m index entry).bits i =
      (initSize entries >>> i) * 8 := by
    intro i
    rw [bits, initState, initBitmaps_size]
  refine ⟨fun i => ?_, fun i hi j hj => ?_⟩
  · rw [(static_countFreeMem _).bits, (hst.trans hst').bits, hbits]
  · rw [log_countFreeMem]
    exact hlog i hi j (by rw [hst.bits, hbits]; exact hj)

/-- **No access leaves its level**, in any run from `initPMM` on, exactly when the number of
bytes of the lowest level can be halved six times. -/
theorem bitmap_indices_in_range_iff {entries : List MemmapEntry} {m : Mem} {s : Pmm}
    (h : initPMM entries m = some s) :
    (∀ ks c', Run Client.step ⟨s, ∅⟩ ks c' →
      ∀ a ∈ c'.pmm.log, a.1 < 7 ∧ a.2 < c'.pmm.bits a.1) ↔ 64 ∣ initSize entries := by
  constructor
  · intro hall
    by_contra h64
    obtain ⟨i, hi, hodd⟩ := exists_odd_level h64
    obtain ⟨hbits, hlog⟩ := initPMM_log h
    have hmem := hlog i hi ((initSize entries >>> i) * 8 - 1) (by omega)
    have hlt : ((initSize entries >>> i) * 8 - 1) / 2 < s.bits (i + 1) :=
      (hall [] _ (Run.nil _) _ hmem).2
    rw [hbits] at hlt
    omega
  · intro h64 ks c' hrun
    exact ((initPMM_ok h64 h).run hrun).sound.log_lt

/-- A map whose last entry ends 8 pages above two gigabytes. -/
def eightPages : List MemmapEntry :=
  [⟨0x1000, 0x7000, .usable⟩, ⟨2 ^ 31, 8 * pageSize, .reserved⟩]

theorem eightPages_bitmapIndex : bitmapIndex eightPages = some 0 := by decide

/-- With 8 pages, level `1` has no bit, and `initPMM` reads bit `0` of it. -/
theorem initPMM_reads_past_level :
    ∃ s, initPMM eightPages (fun _ => 0#8) = some s ∧ (1, 0) ∈ s.log ∧ s.bits 1 = 0 := by
  obtain ⟨s, hs⟩ := exists_initPMM eightPages_bitmapIndex rfl fun _ => 0#8
  have hsize : initSize eightPages = 1 := by decide
  obtain ⟨hbits, hlog⟩ := initPMM_log hs
  refine ⟨s, hs, hlog 0 (by omega) 0 ?_, ?_⟩
  · simp [hsize]
  · simp [hbits, hsize]

/-- A map whose last entry ends 512 pages above two gigabytes. -/
def fiveHundredTwelvePages : List MemmapEntry :=
  [⟨0x1000, 0x1000, .usable⟩, ⟨2 ^ 31, 512 * pageSize, .reserved⟩]

theorem fiveHundredTwelvePages_bitmapIndex :
    bitmapIndex fiveHundredTwelvePages = some 0 := by decide

/-- With 512 pages, page 1 is the only one that `initPMM` leaves free. -/
theorem initPMM_freePages_512 {s : Pmm}
    (hs : initPMM fiveHundredTwelvePages (fun _ => 0#8) = some s) : s.freePages = {1} := by
  obtain ⟨index, entry, hindex, hentry, heq⟩ := initPMM_eq_some hs
  obtain rfl := Option.some.inj (fiveHundredTwelvePages_bitmapIndex.symm.trans hindex)
  obtain rfl := Option.some.inj hentry
  obtain ⟨-, hst, hmax, -⟩ := initPMM_spec (by decide) heq
  rw [freePages, hmax.cover_eq, hst.mmapEntries]
  decide +kernel

/-- With 512 pages the levels halve: no access leaves its level when a caller allocates page 1
and frees it. -/
theorem bitmap_indices_in_range_iff_512 :
    ∃ s c', initPMM fiveHundredTwelvePages (fun _ => 0#8) = some s ∧
      (pmalloc s 1).1 = 0x1000 ∧
      Run Client.step ⟨s, ∅⟩ [.pmalloc 1, .pfree 0x1000 1] c' ∧ c'.pmm.freePages = {1} ∧
      ∀ a ∈ c'.pmm.log, a.1 < 7 ∧ a.2 < c'.pmm.bits a.1 := by
  obtain ⟨s, hs⟩ := exists_initPMM fiveHundredTwelvePages_bitmapIndex rfl fun _ => 0#8
  have hfree := initPMM_freePages_512 hs
  have h64 : 64 ∣ initSize fiveHundredTwelvePages := by decide
  have hok := initPMM_ok h64 hs
  have hptr : (pmalloc s 1).1 = 0x1000 := by
    rcases pmalloc_freePages hok.sound hok.apart le_rfl (by omega) with
      ⟨-, -, hnone⟩ | ⟨-, hdvd, hsub, -⟩
    · have hmem : 1 ∈ s.freePages := by rw [hfree, Finset.mem_singleton]
      obtain ⟨i, hi, hcov⟩ := mem_freePages.mp hmem
      have hclear := mem_clearBits.mpr hcov
      rw [hnone i (by simp) hi] at hclear
      exact absurd hclear (Finset.notMem_empty _)
    · rw [hfree, range, Nat.Ico_succ_singleton, Finset.singleton_subset_singleton] at hsub
      simp only [Nat.clog_one_right, pow_zero, one_mul, pageSize] at hsub hdvd
      omega
  obtain ⟨c', hrun, hsame⟩ := hok.exists_run_pmalloc_pfree le_rfl (by omega)
    (by rw [hptr]; norm_num)
  rw [hptr] at hrun
  exact ⟨s, c', hs, hptr, hrun, hsame.trans hfree,
    (bitmap_indices_in_range_iff hs).mpr h64 _ _ hrun⟩

/-- What an initialised allocator satisfies: the usable pages of the map are covered once and
no other page is, the blocks are as large as they can be, and the counters are exact. -/
structure Pmm.Initialised (s : Pmm) : Prop where
  /-- A usable page is covered at exactly one level. -/
  usable : ∀ p < s.bits 0, pmmGetStatusFromMMap s.mmapEntries p = .usable →
    ∃! i, i < 7 ∧ s.Covers i p
  /-- Any other page is covered at no level. -/
  unusable : ∀ p < s.bits 0, pmmGetStatusFromMMap s.mmapEntries p ≠ .usable →
    ∀ i < 7, ¬s.Covers i p
  /-- No two buddies are both clear below the top level. -/
  coalesced : s.Coalesced
  /-- The counters count the clear bits. -/
  free_eq : ∀ i < 7, (s.bitmaps i).free = (s.clearBits i).card
  /-- `free_mem` counts the bytes of the usable pages. -/
  freeMem_eq : s.freeMem = pageSize * (usablePages s.mmapEntries (s.bits 0)).card

/-- **`initPMM` establishes the invariant of the allocator**: for every map with a usable entry
that can hold the bitmaps and a memory whose levels halve, it ends, and the canonical
decomposition of the usable pages is what it leaves. -/
theorem initPMM_establishes {entries : List MemmapEntry} (m : Mem)
    (hentry : ∃ e ∈ entries, e.type = .usable ∧ bitmapSizeOf entries ≤ e.length)
    (hhalves : ∀ i < 6, initSize entries >>> i = 2 * initSize entries >>> (i + 1)) :
    ∃ s, initPMM entries m = some s ∧ s.bits 0 = 8 * initSize entries ∧ s.Initialised := by
  have h64 : 64 ∣ initSize entries := by
    by_contra hc
    obtain ⟨i, hi, hodd⟩ := exists_odd_level hc
    have := hhalves i hi
    omega
  obtain ⟨index, hindex⟩ : ∃ index, bitmapIndex entries = some index := by
    obtain ⟨e, he, husable, hfits⟩ := hentry
    refine Option.isSome_iff_exists.mp ?_
    rw [bitmapIndex, List.findIdx?_isSome, List.any_eq_true]
    exact ⟨e, he, by simp [husable, hfits]⟩
  obtain ⟨hlt, -⟩ := List.findIdx?_eq_some_iff_getElem.mp hindex
  obtain ⟨s, hs⟩ := exists_initPMM hindex (List.getElem?_eq_getElem hlt) m
  obtain ⟨index', entry, -, -, heq⟩ := initPMM_eq_some hs
  obtain ⟨hsound, hstatic, hmax, hfree⟩ := initPMM_spec h64 heq
  have hbits : s.bits 0 = 8 * initSize entries := (hstatic.bits 0).trans (Nat.mul_comm _ _)
  rw [← hbits] at hmax
  have hcover : s.freePages = usablePages s.mmapEntries (s.bits 0) := hmax.cover_eq
  have hmem : ∀ p < s.bits 0, (∃ i < 7, s.Covers i p) ↔
      pmmGetStatusFromMMap s.mmapEntries p = .usable := by
    intro p hp
    rw [← mem_freePages, hcover, usablePages, Finset.mem_filter, Finset.mem_range]
    exact and_iff_right hp
  refine ⟨s, hs, hbits, ?_, ?_, coalesced_iff.mpr hmax.maximal, hsound.free_eq, ?_⟩
  · intro p hp husable
    obtain ⟨i, hi, hcov⟩ := (hmem p hp).mpr husable
    refine ⟨i, ⟨hi, hcov⟩, ?_⟩
    rintro i' ⟨hi', hcov'⟩
    exact apart_blocks_iff.mp hmax.apart p i' hi' i hi hcov' hcov
  · exact fun p hp hnot i hi hcov => hnot ((hmem p hp).mp ⟨i, hi, hcov⟩)
  · rw [hfree, hcover]

/-- The map of 512 pages. -/
theorem initPMM_establishes_512 :
    ∃ s, initPMM fiveHundredTwelvePages (fun _ => 0#8) = some s ∧
      s.bits 0 = 8 * initSize fiveHundredTwelvePages ∧ s.Initialised :=
  initPMM_establishes _ ⟨_, List.mem_cons_self, rfl, by decide⟩ (by decide)

/-! ### The pages of the bitmaps -/

/-- What the bootloader promises of its map: the entries are sorted, do not overlap, and end
below `2 ^ 64`; usable entries are page aligned and do not hold page `0`. -/
structure MemmapOk (entries : List MemmapEntry) : Prop where
  sorted : entries.Pairwise fun e e' => e.base + e.length ≤ e'.base
  bounded : ∀ e ∈ entries, e.base + e.length < 2 ^ 64
  aligned : ∀ e ∈ entries, e.type = .usable → pageSize ∣ e.base ∧ pageSize ∣ e.length
  page_zero : ∀ e ∈ entries, e.type = .usable → 0 < e.base

/-- Different entries do not overlap. -/
theorem MemmapOk.apart {entries : List MemmapEntry} (h : MemmapOk entries) {i j : ℕ}
    {e e' : MemmapEntry} (hne : i ≠ j) (hi : entries[i]? = some e) (hj : entries[j]? = some e') :
    e.base + e.length ≤ e'.base ∨ e'.base + e'.length ≤ e.base := by
  obtain ⟨hil, rfl⟩ := List.getElem?_eq_some_iff.mp hi
  obtain ⟨hjl, rfl⟩ := List.getElem?_eq_some_iff.mp hj
  rcases Nat.lt_or_gt_of_ne hne with hlt | hlt
  · exact Or.inl (List.pairwise_iff_getElem.mp h.sorted i j hil hjl hlt)
  · exact Or.inr (List.pairwise_iff_getElem.mp h.sorted j i hjl hil hlt)

/-- An entry of the map after one entry was replaced. -/
theorem mem_set_cases {entries : List MemmapEntry} {index : ℕ} {x e : MemmapEntry}
    (h : e ∈ entries.set index x) : e = x ∨ ∃ k, k ≠ index ∧ entries[k]? = some e := by
  obtain ⟨k, hk, rfl⟩ := List.mem_iff_getElem.mp h
  rw [List.getElem_set]
  split_ifs with hik
  · exact Or.inl rfl
  · rw [List.length_set] at hk
    exact Or.inr ⟨k, fun hki => hik hki.symm, List.getElem?_eq_getElem hk⟩

/-- The status of a page comes from an entry that holds it. -/
theorem pmmGetStatusFromMMap_eq_usable {entries : List MemmapEntry} {p : ℕ}
    (h : pmmGetStatusFromMMap entries p = .usable) : ∃ e ∈ entries, e.type = .usable ∧
      e.base / pageSize ≤ p ∧ p < add64 e.base e.length / pageSize := by
  rw [pmmGetStatusFromMMap] at h
  split at h
  · next e he =>
    have hp := List.find?_some he
    exact ⟨e, List.mem_of_find?_eq_some he, h, of_decide_eq_true hp⟩
  · simp at h

/-- A page that only usable entries hold, and some entry does, is usable. -/
theorem pmmGetStatusFromMMap_of_forall {entries : List MemmapEntry} {p : ℕ}
    (hex : ∃ e ∈ entries, e.base / pageSize ≤ p ∧ p < add64 e.base e.length / pageSize)
    (hall : ∀ e ∈ entries, e.base / pageSize ≤ p → p < add64 e.base e.length / pageSize →
      e.type = .usable) : pmmGetStatusFromMMap entries p = .usable := by
  rw [pmmGetStatusFromMMap]
  split
  · next e he =>
    have hp := List.find?_some he
    obtain ⟨hle, hlt⟩ := of_decide_eq_true hp
    exact hall e (List.mem_of_find?_eq_some he) hle hlt
  · next hnone =>
    obtain ⟨e, he, hp⟩ := hex
    exact absurd (decide_eq_true hp) (List.find?_eq_none.mp hnone e he)

/-- Page `p` holds a byte of the bitmaps. -/
def Pmm.HoldsBitmap (s : Pmm) (p : ℕ) : Prop :=
  ∃ a, s.bitmapBase ≤ a ∧ a < s.bitmapBase + s.bitmapSize ∧ a / pageSize = p

section Carve

variable {entries : List MemmapEntry} {index : ℕ} {entry : MemmapEntry}

/-- The pages that the bitmaps fill are not usable any more. -/
theorem not_usable_of_bitmap (hmap : MemmapOk entries) (hindex : bitmapIndex entries = some index)
    (hentry : entries[index]? = some entry) (m : Mem) {p : ℕ}
    (hlo : entry.base / pageSize ≤ p) (hhi : p < (entry.base + bitmapSizeOf entries) / pageSize) :
    pmmGetStatusFromMMap (initState entries m index entry).mmapEntries p ≠ .usable := by
  intro hstatus
  obtain ⟨hfit, husable⟩ := bitmapIndex_spec hindex hentry
  have hmem := List.mem_of_getElem? hentry
  have hbound := hmap.bounded entry hmem
  obtain ⟨hab, -⟩ := hmap.aligned entry hmem husable
  obtain ⟨e, he, heu, hle, hlt⟩ := pmmGetStatusFromMMap_eq_usable hstatus
  simp only [pageSize] at *
  rcases mem_set_cases he with rfl | ⟨k, hk, hek⟩
  · simp only at hle
    rw [add64_eq (by omega)] at hle
    omega
  · have hemem := List.mem_of_getElem? hek
    have hebound := hmap.bounded e hemem
    obtain ⟨heb, -⟩ := hmap.aligned e hemem heu
    rw [add64_eq hebound] at hlt
    have := hmap.apart hk hek hentry
    omega

/-- The page in which the bitmaps end is still usable when they do not end at its start. -/
theorem usable_of_partial_page (hmap : MemmapOk entries)
    (hindex : bitmapIndex entries = some index) (hentry : entries[index]? = some entry) (m : Mem)
    (hpart : ¬pageSize ∣ bitmapSizeOf entries) :
    pmmGetStatusFromMMap (initState entries m index entry).mmapEntries
      ((entry.base + bitmapSizeOf entries) / pageSize) = .usable := by
  obtain ⟨hfit, husable⟩ := bitmapIndex_spec hindex hentry
  have hmem := List.mem_of_getElem? hentry
  have hbound := hmap.bounded entry hmem
  obtain ⟨hab, hal⟩ := hmap.aligned entry hmem husable
  obtain ⟨hil, -⟩ := List.getElem?_eq_some_iff.mp hentry
  have hbase : add64 entry.base (bitmapSizeOf entries) = entry.base + bitmapSizeOf entries :=
    add64_eq (by omega)
  simp only [pageSize] at *
  refine pmmGetStatusFromMMap_of_forall ?_ fun e he hle hlt => ?_
  · refine ⟨_, List.mem_set hil _, ?_⟩
    simp only [hbase, pageSize]
    rw [add64_eq (by omega)]
    omega
  · rcases mem_set_cases he with rfl | ⟨k, hk, hek⟩
    · exact husable
    · have hebound := hmap.bounded e (List.mem_of_getElem? hek)
      simp only [pageSize] at hle hlt
      rw [add64_eq hebound] at hlt
      have := hmap.apart hk hek hentry
      omega

/-- **No page of the bitmaps is ever free** on a memory whose levels halve, exactly when the
bitmaps end at a page boundary or in a page that is not managed. -/
theorem bitmap_pages_never_free_iff {m : Mem} {s : Pmm} (hmap : MemmapOk entries)
    (h64 : 64 ∣ initSize entries) (h : initPMM entries m = some s)
    (hindex : bitmapIndex entries = some index) (hentry : entries[index]? = some entry) :
    (∀ ks c', Run Client.step ⟨s, ∅⟩ ks c' →
      (∀ p ∈ c'.pmm.freePages, ¬c'.pmm.HoldsBitmap p) ∧
      ∀ n, 1 ≤ n → n ≤ 64 → (pmalloc c'.pmm n).1 ≠ 0 →
        ∀ p ∈ range (pmalloc c'.pmm n).1 n, ¬c'.pmm.HoldsBitmap p) ↔
      pageSize ∣ bitmapSizeOf entries ∨
        8 * initSize entries ≤ (entry.base + bitmapSizeOf entries) / pageSize := by
  obtain ⟨index', entry', hindex', hentry', hs⟩ := initPMM_eq_some h
  obtain rfl := Option.some.inj (hindex.symm.trans hindex')
  obtain rfl := Option.some.inj (hentry.symm.trans hentry')
  obtain ⟨-, hst, hmax, -⟩ := initPMM_spec h64 hs
  have hok := initPMM_ok h64 h
  have hfree : s.freePages = usablePages (initState entries m index entry).mmapEntries
      (8 * initSize entries) := by
    rw [← hst.mmapEntries]
    exact hmax.cover_eq
  have hholds : ∀ {t : Pmm}, s.Static t → ∀ p, t.HoldsBitmap p ↔
      ∃ a, entry.base ≤ a ∧ a < entry.base + bitmapSizeOf entries ∧ a / pageSize = p := by
    intro t hst' p
    rw [HoldsBitmap, (hst.trans hst').bitmapBase, (hst.trans hst').bitmapSize]
    rfl
  constructor
  · intro hall
    by_contra hc
    push Not at hc
    obtain ⟨hpart, hmanaged⟩ := hc
    refine (hall [] _ (Run.nil _)).1 ((entry.base + bitmapSizeOf entries) / pageSize) ?_ ?_
    · rw [hfree, usablePages, Finset.mem_filter, Finset.mem_range]
      exact ⟨hmanaged, usable_of_partial_page hmap hindex hentry m hpart⟩
    · obtain ⟨-, husable⟩ := bitmapIndex_spec hindex hentry
      obtain ⟨hab, -⟩ := hmap.aligned entry (List.mem_of_getElem? hentry) husable
      refine (hholds (Static.refl s) _).mpr
        ⟨entry.base + bitmapSizeOf entries - 1, ?_⟩
      simp only [pageSize] at *
      omega
  · intro hcond ks c' hrun
    have hst' := hok.static_run hrun
    have hok' := hok.run hrun
    have hun : c'.owned ∪ c'.pmm.freePages = s.freePages := by
      have := hok.owned_union_run hrun
      rwa [Finset.empty_union] at this
    have hnot : ∀ p ∈ c'.pmm.freePages, ¬c'.pmm.HoldsBitmap p := by
      intro p hp hb
      obtain ⟨a, hlo, hhi, rfl⟩ := (hholds hst' p).mp hb
      have hps : a / pageSize ∈ s.freePages := hun ▸ Finset.mem_union_right _ hp
      rw [hfree, usablePages, Finset.mem_filter, Finset.mem_range] at hps
      refine not_usable_of_bitmap hmap hindex hentry m (Nat.div_le_div_right hlo) ?_ hps.2
      obtain ⟨-, husable⟩ := bitmapIndex_spec hindex hentry
      obtain ⟨hab, -⟩ := hmap.aligned entry (List.mem_of_getElem? hentry) husable
      have hpos := hps.1
      simp only [pageSize] at *
      omega
    refine ⟨hnot, fun n h1 h64 hr p hp => hnot p ?_⟩
    rcases pmalloc_freePages hok'.sound hok'.apart h1 h64 with hnull | ⟨-, -, hsub, -⟩
    · exact absurd hnull.1 hr
    · exact hsub hp

end Carve

/-- A map with 8 gigabytes of memory above the two that `initPMM` takes off. -/
def eightGigabytes : List MemmapEntry :=
  [⟨0x1000, 2 ^ 30, .usable⟩, ⟨2 ^ 33, 2 ^ 31, .reserved⟩]

/-- With 8 gigabytes the bitmaps end at a page boundary, so none of their pages is ever
free. -/
theorem bitmap_pages_never_free_iff_8GiB :
    ∃ s, initPMM eightGigabytes (fun _ => 0#8) = some s ∧
      ∀ ks c', Run Client.step ⟨s, ∅⟩ ks c' → ∀ p ∈ c'.pmm.freePages, ¬c'.pmm.HoldsBitmap p := by
  have hindex : bitmapIndex eightGigabytes = some 0 := by decide
  have hmap : MemmapOk eightGigabytes :=
    ⟨by decide, by decide, by decide, by decide⟩
  obtain ⟨s, hs⟩ := exists_initPMM hindex rfl fun _ => 0#8
  refine ⟨s, hs, fun ks c' hrun => ?_⟩
  exact ((bitmap_pages_never_free_iff hmap (by decide) hs hindex rfl).mpr
    (Or.inl (by decide)) ks c' hrun).1

/-- With 512 pages the bitmaps take 127 bytes of page 1, and `initPMM` leaves that page
free. -/
theorem initPMM_frees_bitmap_page :
    MemmapOk fiveHundredTwelvePages ∧ 64 ∣ initSize fiveHundredTwelvePages ∧
      ∃ s, initPMM fiveHundredTwelvePages (fun _ => 0#8) = some s ∧ 1 ∈ s.freePages ∧
        s.HoldsBitmap 1 := by
  have hmap : MemmapOk fiveHundredTwelvePages :=
    ⟨by decide, by decide, by decide, by decide⟩
  have h64 : 64 ∣ initSize fiveHundredTwelvePages := by decide
  obtain ⟨s, hs⟩ := exists_initPMM fiveHundredTwelvePages_bitmapIndex rfl fun _ => 0#8
  obtain ⟨index, entry, hindex, hentry, heq⟩ := initPMM_eq_some hs
  obtain rfl := Option.some.inj (fiveHundredTwelvePages_bitmapIndex.symm.trans hindex)
  obtain rfl := Option.some.inj hentry
  have hst := (initPMM_spec h64 heq).2.1
  refine ⟨hmap, h64, s, hs, ?_, ?_⟩
  · rw [initPMM_freePages_512 hs]
    exact Finset.mem_singleton_self 1
  · refine ⟨0x1000, ?_⟩
    rw [hst.bitmapBase, hst.bitmapSize]
    decide

end AnglOS
