import AnglOS.PmmAlloc

/-!
# Runs of the Page Allocator

The allocator as a store of pages: `Pmm.freePages` is the set of pages that some clear bit
covers, `Client` adds the pages that callers own, and `Client.step` is one call of `pmalloc`
or `pfree`. A call may free only pages that its caller owns; the pages that a call takes
out of the free set become owned, the pages that it puts into it stop being so.

## Main results

* `pmalloc_freePages`, `pfree_freePages` — what a call does to the free pages;
* `partition_of_run` — the bitmaps partition the free pages in every run;
* `refines_free_set` — a call refines an allocator that keeps a set of free pages;
* `maximal_of_run` — exactly which frees keep the buddies merged.
-/

namespace AnglOS

open Buddy

namespace Pmm

/-! ### Free pages -/

/-- Page `p` is covered at level `i`. -/
def Covers (s : Pmm) (i p : ℕ) : Prop :=
  p / 2 ^ i < s.bits i ∧ s.bit i (p / 2 ^ i) = false

/-- The pages that a clear bit covers. -/
def freePages (s : Pmm) : Finset ℕ :=
  cover s.blocks

/-- A page is free exactly when it is covered at some level. -/
theorem mem_freePages {s : Pmm} {p : ℕ} : p ∈ s.freePages ↔ ∃ i < 7, s.Covers i p := by
  simp only [freePages, mem_cover, Prod.exists, mem_blocks, mem_clearBits, mem_pages, Covers]
  constructor
  · rintro ⟨i, j, ⟨hi, hj, hb⟩, rfl⟩
    exact ⟨i, hi, hj, hb⟩
  · rintro ⟨i, hi, hj, hb⟩
    exact ⟨i, p / 2 ^ i, ⟨hi, hj, hb⟩, rfl⟩

/-- Free pages lie inside level `0`. -/
theorem Layout.freePages_lt {s : Pmm} (h : s.Layout) {p : ℕ} (hp : p ∈ s.freePages) :
    p < s.bits 0 := by
  obtain ⟨i, hi, hlt, -⟩ := mem_freePages.mp hp
  have hmul := h.bits_mul hi
  rw [Nat.div_lt_iff_lt_mul (Nat.two_pow_pos i)] at hlt
  omega

/-- There are fewer than `2 ^ 52` free pages. -/
theorem Layout.card_freePages_lt {s : Pmm} (h : s.Layout) : s.freePages.card < 2 ^ 52 := by
  have hsub : s.freePages ⊆ Finset.range (s.bits 0) :=
    fun p hp => Finset.mem_range.mpr (h.freePages_lt hp)
  have hcard := Finset.card_le_card hsub
  rw [Finset.card_range] at hcard
  have := h.small
  omega

/-- **The partition invariant**: every page is covered at one level at most, the counters
count the clear bits, and `free_mem` counts the bytes of the covered pages. -/
structure Partition (s : Pmm) : Prop where
  once : ∀ p, ∀ i < 7, ∀ i' < 7, s.Covers i p → s.Covers i' p → i = i'
  free_eq : ∀ i < 7, (s.bitmaps i).free = (s.clearBits i).card
  freeMem_eq : s.freeMem = pageSize * s.freePages.card

/-- Pages are covered once exactly when the free blocks are apart. -/
theorem apart_blocks_iff {s : Pmm} : Apart s.blocks ↔
    ∀ p, ∀ i < 7, ∀ i' < 7, s.Covers i p → s.Covers i' p → i = i' := by
  constructor
  · intro h p i hi i' hi' hc hc'
    have heq := h (i, p / 2 ^ i) (mem_blocks.mpr ⟨hi, mem_clearBits.mpr hc⟩) (i', p / 2 ^ i')
      (mem_blocks.mpr ⟨hi', mem_clearBits.mpr hc'⟩) p (mem_pages.mpr rfl) (mem_pages.mpr rfl)
    exact congrArg Prod.fst heq
  · rintro h ⟨i, j⟩ hb ⟨i', j'⟩ hb' p hp hp'
    rw [mem_pages] at hp hp'
    subst hp hp'
    rw [mem_blocks, mem_clearBits] at hb hb'
    obtain rfl := h p i hb.1 i' hb'.1 hb.2 hb'.2
    rfl

/-- The ghost fields as they are before the first call. -/
def Fresh (s : Pmm) : Prop :=
  s.log = [] ∧ s.underflow = false

/-- A laid-out state with the partition invariant is sound, once its ghost fields are. -/
theorem Partition.sound {s : Pmm} (h : s.Partition) (hl : s.Layout) (hf : s.Fresh) :
    s.Sound :=
  ⟨hl, h.free_eq, fun a ha => by simp [hf.1] at ha, hf.2⟩

end Pmm

open Pmm

/-! ### What a call does to the free pages -/

/-- The pages that `pages` pages at address `pptr` are. -/
def range (pptr pages : ℕ) : Finset ℕ :=
  Finset.Ico (pptr / pageSize) (pptr / pageSize + pages)

theorem card_range (pptr pages : ℕ) : (range pptr pages).card = pages := by
  simp [range]

/-- The address of a free block is the address of its first page. -/
theorem range_block (i j n : ℕ) :
    range (j * 2 ^ i * pageSize) n = Finset.Ico (j * 2 ^ i) (j * 2 ^ i + n) := by
  rw [range, Nat.mul_div_cancel _ (by norm_num)]

/-- **`pmalloc` on the free pages**: for the sizes it serves it fails, or it takes `n` free
pages that start at a multiple of the rounded size. -/
theorem pmalloc_freePages {s : Pmm} (hs : s.Sound) (ha : Apart s.blocks) {n : ℕ} (h1 : 1 ≤ n)
    (h64 : n ≤ 64) :
    ((pmalloc s n).1 = 0 ∧ s.SameButLog (pmalloc s n).2 ∧
        ∀ k, Nat.clog 2 n ≤ k → k < 7 → s.clearBits k = ∅) ∨
      (∃ k, Nat.clog 2 n ≤ k ∧ k < 7 ∧ (s.clearBits k).Nonempty) ∧
        2 ^ Nat.clog 2 n * pageSize ∣ (pmalloc s n).1 ∧
        range (pmalloc s n).1 n ⊆ s.freePages ∧
        (pmalloc s n).2.freePages = s.freePages \ range (pmalloc s n).1 n ∧
        (pmalloc s n).2.freeMem = sub64 s.freeMem (n * pageSize) := by
  rcases pmalloc_spec hs ha n with ⟨hr, -, hsame, hnone⟩ | ⟨k, j, -, hk, hb, hr, -, -, hB, hm⟩
  · exact Or.inl ⟨hr, hsame, hnone h1 h64⟩
  · have hpow : n ≤ 2 ^ k :=
      (Nat.le_pow_clog (by omega) n).trans (Nat.pow_le_pow_right (by omega) (hk h64))
    have hmem := mem_blocks.mp hb
    refine Or.inr ⟨⟨k, hk h64, hmem.1, ⟨j, hmem.2⟩⟩, ?_, ?_, ?_, hm⟩
    · rw [hr]
      exact Nat.mul_dvd_mul_right ((Nat.pow_dvd_pow 2 (hk h64)).trans (Dvd.intro_left j rfl)) _
    · rw [hr, range_block]
      intro p hp
      refine mem_cover.mpr ⟨_, hb, ?_⟩
      simp only [pages, Finset.mem_Ico, add_mul, one_mul] at hp ⊢
      omega
    · rw [freePages, hB, cover_erase_union_tail ha h1 hpow hb, hr, range_block]
      rfl

/-- **`pfree` on the free pages**: the pages of the range become free. -/
theorem pfree_freePages {s : Pmm} (hs : s.Sound) (ha : Apart s.blocks) {pptr n : ℕ}
    (hnull : pptr ≠ 0) (hn : n ≠ 0) (hb : pptr / pageSize + n ≤ s.bits 0)
    (hd : Disjoint s.freePages (range pptr n)) :
    (pfree s pptr n).freePages = s.freePages ∪ range pptr n ∧
      (pfree s pptr n).freeMem = add64 s.freeMem (n * pageSize) := by
  obtain ⟨-, -, hB, hm⟩ := pfree_spec hs ha hnull hn hb hd
  refine ⟨?_, hm⟩
  rw [freePages, hB, cover_mergeUp, cover_union, cover_image_zero]
  rfl

/-! ### Callers -/

/-- A call of the allocator. -/
inductive Call
  | pmalloc (pages : ℕ)
  | pfree (pptr pages : ℕ)
  deriving DecidableEq, Repr

/-- The state after a call. -/
def Call.exec (s : Pmm) : Call → Pmm
  | .pmalloc n => (AnglOS.pmalloc s n).2
  | .pfree pptr n => AnglOS.pfree s pptr n

/-- The allocator together with the pages that its callers own. -/
structure Client where
  pmm : Pmm
  owned : Finset ℕ

/-- A call that callers make: they free only pages that exist, that are not free, and that
they own. -/
def Call.Allowed (c : Client) : Call → Prop
  | .pmalloc _ => True
  | .pfree pptr n => pptr ≠ 0 →
      ∀ p ∈ range pptr n, p < c.pmm.bits 0 ∧ p ∉ c.pmm.freePages ∧ p ∈ c.owned

/-- One call: the pages that stop being free become owned, the pages that become free stop
being owned. -/
def Client.step (k : Call) (c c' : Client) : Prop :=
  k.Allowed c ∧
    c' = ⟨k.exec c.pmm, (c.owned ∪ c.pmm.freePages) \ (k.exec c.pmm).freePages⟩

/-- What every call keeps: the state is sound, the free blocks are apart, and no owned page
is free. -/
structure Client.Ok (c : Client) : Prop where
  sound : c.pmm.Sound
  apart : Apart c.pmm.blocks
  disjoint : Disjoint c.owned c.pmm.freePages

/-- A range whose pages exist ends inside level `0`. -/
theorem range_le {pptr n b : ℕ} (hn : n ≠ 0) (h : ∀ p ∈ range pptr n, p < b) :
    pptr / pageSize + n ≤ b := by
  have := h (pptr / pageSize + (n - 1)) (Finset.mem_Ico.mpr ⟨by omega, by omega⟩)
  omega

/-- **What a call does**: it changes nothing but the record of accesses, or it takes a free
block and gives back its tail, or it frees a range and merges upwards. -/
theorem Client.Ok.step_cases {k : Call} {c c' : Client} (h : c.Ok) (hstep : Client.step k c c') :
    c'.pmm.Sound ∧ c.pmm.Static c'.pmm ∧ (c.pmm.SameButLog c'.pmm ∨
      (∃ n i j, k = .pmalloc n ∧ 1 ≤ n ∧ (n ≤ 64 → Nat.clog 2 n ≤ i) ∧ (i, j) ∈ c.pmm.blocks ∧
        c'.pmm.blocks = c.pmm.blocks.erase (i, j) ∪ tail n i j ∧
        c'.pmm.freeMem = sub64 c.pmm.freeMem (n * pageSize)) ∨
      ∃ pptr n, k = .pfree pptr n ∧ pptr ≠ 0 ∧ n ≠ 0 ∧ (range pptr n ⊆ c.owned) ∧
        (∀ p ∈ range pptr n, p < c.pmm.bits 0) ∧ Disjoint c.pmm.freePages (range pptr n) ∧
        c'.pmm.blocks = mergeUp 6 (c.pmm.blocks ∪ (range pptr n).image (Prod.mk 0)) n 0
          (pptr / pageSize) ∧
        c'.pmm.freeMem = add64 c.pmm.freeMem (n * pageSize)) := by
  obtain ⟨hallow, rfl⟩ := hstep
  cases k with
  | pmalloc n =>
      rcases pmalloc_spec h.sound h.apart n with
        ⟨-, hs, hsame, -⟩ | ⟨i, j, h1, h64, hb, -, hs, hst, hB, hm⟩
      · exact ⟨hs, hsame.static, Or.inl hsame⟩
      · exact ⟨hs, hst, Or.inr (Or.inl ⟨n, i, j, rfl, h1, h64, hb, hB, hm⟩)⟩
  | pfree pptr n =>
      by_cases hnull : pptr = 0 ∨ n = 0
      · have hexec : (Call.pfree pptr n).exec c.pmm = c.pmm := by
          rw [Call.exec, pfree, if_pos hnull]
        simp only [hexec]
        exact ⟨h.sound, Static.refl _, Or.inl rfl⟩
      · push Not at hnull
        have hr := hallow hnull.1
        have hlt : ∀ p ∈ range pptr n, p < c.pmm.bits 0 := fun p hp => (hr p hp).1
        have hd : Disjoint c.pmm.freePages (range pptr n) :=
          Finset.disjoint_right.mpr fun p hp => (hr p hp).2.1
        obtain ⟨hs, hst, hB, hm⟩ := pfree_spec h.sound h.apart hnull.1 hnull.2
          (range_le hnull.2 hlt) hd
        exact ⟨hs, hst, Or.inr (Or.inr ⟨pptr, n, rfl, hnull.1, hnull.2,
          fun p hp => (hr p hp).2.2, hlt, hd, hB, hm⟩)⟩

/-- Every call keeps the state sound, the free blocks apart, and owned pages not free. -/
theorem Client.Ok.step {k : Call} {c c' : Client} (h : c.Ok) (hstep : Client.step k c c') :
    c'.Ok := by
  obtain ⟨hs, -, hcases⟩ := h.step_cases hstep
  refine ⟨hs, ?_, ?_⟩
  · rcases hcases with hsame | ⟨n, i, j, -, h1, -, hb, hB, -⟩ | ⟨pptr, n, -, -, -, -, -, hd, hB, -⟩
    · rw [hsame.blocks_eq]
      exact h.apart
    · rw [hB]
      exact apart_erase_union_tail h.apart h1 hb
    · rw [hB]
      exact Apart.mergeUp 6 n 0 _ (apart_union_image h.apart hd)
  · rw [hstep.2]
    exact Finset.sdiff_disjoint

/-- In every run the state stays sound, the free blocks apart, and owned pages not free. -/
theorem Client.Ok.run {c c' : Client} {ks : List Call} (h : c.Ok)
    (hrun : Run Client.step c ks c') : c'.Ok :=
  hrun.invariant (O := fun _ => True) (P := Client.Ok) (fun _ _ _ _ hok hstep => hok.step hstep)
    (fun _ _ => trivial) h

/-- Every call keeps the static part of the state. -/
theorem Client.Ok.static_run {c c' : Client} {ks : List Call} (h : c.Ok)
    (hrun : Run Client.step c ks c') : c.pmm.Static c'.pmm := by
  refine (hrun.invariant (O := fun _ => True) (P := fun d => d.Ok ∧ c.pmm.Static d.pmm)
    (fun k d d' _ hd hstep => ⟨hd.1.step hstep, ?_⟩) (fun _ _ => trivial)
    ⟨h, Static.refl _⟩).2
  exact hd.2.trans (hd.1.step_cases hstep).2.1

/-- No call changes which pages are owned or free. -/
theorem Client.Ok.owned_union_step {k : Call} {c c' : Client} (h : c.Ok)
    (hstep : Client.step k c c') :
    c'.owned ∪ c'.pmm.freePages = c.owned ∪ c.pmm.freePages := by
  have hsub : c'.pmm.freePages ⊆ c.owned ∪ c.pmm.freePages := by
    obtain ⟨-, -, hcases⟩ := h.step_cases hstep
    rcases hcases with hsame | ⟨n, i, j, -, h1, -, hb, hB, -⟩ | ⟨pptr, n, -, -, -, ho, -, -, hB, -⟩
    · rw [freePages, hsame.blocks_eq]
      exact Finset.subset_union_right
    · rw [freePages, hB, cover_union, cover_erase h.apart hb]
      refine Finset.union_subset (Finset.sdiff_subset.trans Finset.subset_union_right) ?_
      refine fun p hp => Finset.mem_union_right _ (mem_cover.mpr ⟨_, hb, ?_⟩)
      exact cover_tail_subset h1 hp
    · rw [freePages, hB, cover_mergeUp, cover_union, cover_image_zero]
      exact Finset.union_subset Finset.subset_union_right (ho.trans Finset.subset_union_left)
  have howned : c'.owned = (c.owned ∪ c.pmm.freePages) \ c'.pmm.freePages := by
    rw [hstep.2]
  rw [howned, Finset.sdiff_union_of_subset hsub]

/-- No run changes which pages are owned or free. -/
theorem Client.Ok.owned_union_run {c c' : Client} {ks : List Call} (h : c.Ok)
    (hrun : Run Client.step c ks c') :
    c'.owned ∪ c'.pmm.freePages = c.owned ∪ c.pmm.freePages :=
  (hrun.invariant (O := fun _ => True)
    (P := fun d => d.Ok ∧ d.owned ∪ d.pmm.freePages = c.owned ∪ c.pmm.freePages)
    (fun _ _ _ _ hd hstep => ⟨hd.1.step hstep, (hd.1.owned_union_step hstep).trans hd.2⟩)
    (fun _ _ => trivial) ⟨h, rfl⟩).2

/-! ### The partition invariant -/

/-- The sizes that `pmalloc` serves. -/
def Call.Served : Call → Prop
  | .pmalloc n => n ≤ 64
  | .pfree _ _ => True

/-- Taking pages off the count of bytes does not wrap. -/
theorem sub64_pages {a b : ℕ} (ha : a < 2 ^ 52) (h : b ≤ a) :
    sub64 (pageSize * a) (b * pageSize) + b * pageSize = pageSize * a := by
  simp only [pageSize]
  rw [sub64_eq (by omega) (by omega)]
  omega

/-- Adding pages to the count of bytes does not wrap. -/
theorem add64_pages {a b : ℕ} (h : a + b < 2 ^ 52) :
    add64 (pageSize * a) (b * pageSize) = pageSize * a + b * pageSize := by
  simp only [pageSize]
  rw [add64_eq (by omega)]

/-- The free pages after a call, with the pages it took or gave back. -/
theorem Client.Ok.freePages_step {k : Call} {c c' : Client} (h : c.Ok) (hk : k.Served)
    (hstep : Client.step k c c') :
    (c'.pmm.freePages = c.pmm.freePages ∧ c'.pmm.freeMem = c.pmm.freeMem) ∨
      (∃ P ⊆ c.pmm.freePages, c'.pmm.freePages = c.pmm.freePages \ P ∧
        c'.pmm.freeMem = sub64 c.pmm.freeMem (P.card * pageSize)) ∨
      ∃ P, Disjoint c.pmm.freePages P ∧ c'.pmm.freePages = c.pmm.freePages ∪ P ∧
        c'.pmm.freeMem = add64 c.pmm.freeMem (P.card * pageSize) := by
  obtain ⟨-, -, hcases⟩ := h.step_cases hstep
  rcases hcases with hsame | ⟨n, i, j, rfl, h1, h64, hb, hB, hm⟩ |
    ⟨pptr, n, -, -, -, -, -, hd, hB, hm⟩
  · refine Or.inl ⟨?_, hsame.freeMem_eq⟩
    rw [freePages, hsame.blocks_eq]
    rfl
  · have hpow : n ≤ 2 ^ i :=
      (Nat.le_pow_clog (by omega) n).trans (Nat.pow_le_pow_right (by omega) (h64 hk))
    refine Or.inr (Or.inl ⟨Finset.Ico (j * 2 ^ i) (j * 2 ^ i + n), fun p hp => ?_, ?_, ?_⟩)
    · refine mem_cover.mpr ⟨_, hb, ?_⟩
      simp only [pages, Finset.mem_Ico, add_mul, one_mul] at hp ⊢
      omega
    · rw [freePages, hB, cover_erase_union_tail h.apart h1 hpow hb]
      rfl
    · rw [Nat.card_Ico, Nat.add_sub_cancel_left]
      exact hm
  · refine Or.inr (Or.inr ⟨range pptr n, hd, ?_, ?_⟩)
    · rw [freePages, hB, cover_mergeUp, cover_union, cover_image_zero]
      rfl
    · rw [card_range]
      exact hm

/-- Every call of a size that is served keeps `free_mem` in step with the free pages. -/
theorem Client.Ok.freeMem_step {k : Call} {c c' : Client} (h : c.Ok) (hk : k.Served)
    (hstep : Client.step k c c') (hm : c.pmm.freeMem = pageSize * c.pmm.freePages.card) :
    c'.pmm.freeMem = pageSize * c'.pmm.freePages.card := by
  have hlt := h.sound.layout.card_freePages_lt
  have hlt' := (h.step hstep).sound.layout.card_freePages_lt
  rcases h.freePages_step hk hstep with ⟨hf, hm'⟩ | ⟨P, hP, hf, hm'⟩ | ⟨P, hP, hf, hm'⟩
  · rw [hm', hf, hm]
  · have hcard := Finset.card_le_card hP
    have hsub := sub64_pages hlt hcard
    rw [hm', hf, Finset.card_sdiff_of_subset hP, hm, Nat.mul_sub]
    rw [Nat.mul_comm P.card] at hsub ⊢
    omega
  · rw [hf, Finset.card_union_of_disjoint hP] at hlt'
    rw [hm', hf, Finset.card_union_of_disjoint hP, hm, add64_pages hlt']
    ring

/-- A laid-out state with the partition invariant, whose owned pages are not free. -/
theorem Pmm.Partition.ok {c : Client} (hp : c.pmm.Partition) (hl : c.pmm.Layout)
    (hf : c.pmm.Fresh) (hd : Disjoint c.owned c.pmm.freePages) : c.Ok :=
  ⟨hp.sound hl hf, apart_blocks_iff.mpr hp.once, hd⟩

/-- A memory of 512 pages in which the pages 64, …, 127 are free as one block. -/
def oneBlock : Pmm where
  mmapEntries := []
  memSize := 512 * pageSize
  bitmapSize := 127
  bitmapBase := 0
  freeMem := 64 * pageSize
  bitmaps := fun i => ⟨128 - 128 >>> i, if i = 6 then 1 else 0, 64 >>> i⟩
  mem := fun a => if a = 126 then 0xFD#8 else 0xFF#8
  log := []
  underflow := false

/-- The one clear bit. -/
theorem oneBlock_bit {i j : ℕ} (hi : i < 7) (hj : j < oneBlock.bits i) :
    oneBlock.bit i j = false ↔ i = 6 ∧ j = 1 := by
  have hbase : i ≠ 6 → (oneBlock.bitmaps i).base + j / 8 ≠ 126 := by
    interval_cases i <;> simp [bits, oneBlock] at hj ⊢ <;> omega
  rw [bit, pmmCheckBit_eq]
  by_cases h6 : i = 6
  · subst h6
    have hj8 : j < 8 := hj
    simp only [true_and]
    interval_cases j <;> decide
  · have hmem : oneBlock.mem ((oneBlock.bitmaps i).base + j / 8) = 0xFF#8 := if_neg (hbase h6)
    have hj8 : j % 8 < 8 := Nat.mod_lt _ (by decide)
    rw [hmem]
    simp only [h6, false_and, iff_false, Bool.not_eq_false]
    interval_cases j % 8 <;> rfl

theorem oneBlock_clearBits {i : ℕ} (hi : i < 7) :
    oneBlock.clearBits i = if i = 6 then {1} else ∅ := by
  ext j
  have h8 : 1 < oneBlock.bits 6 := by decide
  rw [mem_clearBits]
  constructor
  · rintro ⟨hj, hb⟩
    obtain ⟨rfl, rfl⟩ := (oneBlock_bit hi hj).mp hb
    simp
  · split_ifs with h6
    · subst h6
      rintro hj
      obtain rfl := Finset.mem_singleton.mp hj
      exact ⟨h8, (oneBlock_bit hi h8).mpr ⟨rfl, rfl⟩⟩
    · simp

theorem oneBlock_blocks : oneBlock.blocks = {(6, 1)} := by
  ext ⟨i, j⟩
  rw [mem_blocks, Finset.mem_singleton, Prod.mk.injEq]
  constructor
  · rintro ⟨hi, hj⟩
    rw [oneBlock_clearBits hi] at hj
    split_ifs at hj with h6
    · exact ⟨h6, Finset.mem_singleton.mp hj⟩
    · exact absurd hj (Finset.notMem_empty _)
  · rintro ⟨rfl, rfl⟩
    exact ⟨by omega, by rw [oneBlock_clearBits (by omega)]; simp⟩

theorem oneBlock_freePages : oneBlock.freePages = Finset.Ico 64 128 := by
  ext p
  simp only [freePages, oneBlock_blocks, mem_cover, Finset.mem_singleton, exists_eq_left,
    mem_pages, Finset.mem_Ico]
  omega

theorem oneBlock_layout : oneBlock.Layout :=
  ⟨by decide, by decide, by decide⟩

theorem oneBlock_fresh : oneBlock.Fresh :=
  ⟨rfl, rfl⟩

theorem oneBlock_partition : oneBlock.Partition := by
  refine ⟨apart_blocks_iff.mp ?_, fun i hi => ?_, ?_⟩
  · rw [oneBlock_blocks]
    exact apart_singleton _
  · rw [oneBlock_clearBits hi, apply_ite Finset.card]
    rfl
  · rw [oneBlock_freePages]
    rfl

/-- The allocator of `oneBlock`, of which callers own nothing. -/
def oneBlockClient : Client :=
  ⟨oneBlock, ∅⟩

/-- What `n` calls for the pages from 64 on do: the pages are owned, and freeing them
leaves nothing owned. -/
theorem oneBlock_run {n : ℕ} (h1 : 1 ≤ n) (h64 : n ≤ 64)
    (hr : (pmalloc oneBlock n).1 = 64 * pageSize) :
    (Client.step (.pmalloc n) oneBlockClient ⟨(pmalloc oneBlock n).2, Finset.Ico 64 (64 + n)⟩ ∧
      Client.step (.pfree (64 * pageSize) n) ⟨(pmalloc oneBlock n).2, Finset.Ico 64 (64 + n)⟩
        ⟨pfree (pmalloc oneBlock n).2 (64 * pageSize) n, ∅⟩) ∧
      (pmalloc oneBlock n).2.freePages = Finset.Ico (64 + n) 128 ∧
      (pfree (pmalloc oneBlock n).2 (64 * pageSize) n).freePages = Finset.Ico 64 128 := by
  have hok : oneBlockClient.Ok :=
    oneBlock_partition.ok oneBlock_layout oneBlock_fresh (Finset.disjoint_empty_left _)
  have hrange : range (64 * pageSize) n = Finset.Ico 64 (64 + n) := rfl
  have hfree : (pmalloc oneBlock n).2.freePages = Finset.Ico (64 + n) 128 := by
    rcases pmalloc_freePages (s := oneBlock) hok.sound hok.apart h1 h64 with
      ⟨h0, -⟩ | ⟨-, -, -, h, -⟩
    · exact absurd (h0.symm.trans hr) (by decide)
    · rw [h, hr, hrange, oneBlock_freePages]
      ext p
      simp only [Finset.mem_sdiff, Finset.mem_Ico]
      omega
  have hstep : Client.step (.pmalloc n) oneBlockClient
      ⟨(pmalloc oneBlock n).2, Finset.Ico 64 (64 + n)⟩ := by
    refine ⟨trivial, ?_⟩
    simp only [Call.exec, oneBlockClient, hfree, oneBlock_freePages, Client.mk.injEq, true_and]
    ext p
    simp only [Finset.mem_sdiff, Finset.mem_union, Finset.mem_Ico, Finset.notMem_empty, false_or]
    omega
  have hok₁ := hok.step hstep
  have hst := (hok.step_cases hstep).2.1
  have hbits : (pmalloc oneBlock n).2.bits 0 = 512 := hst.bits 0
  have hfree₂ : (pfree (pmalloc oneBlock n).2 (64 * pageSize) n).freePages =
      Finset.Ico 64 128 := by
    refine (pfree_freePages hok₁.sound hok₁.apart (by decide) (by omega) ?_ ?_).1.trans ?_
    · rw [hbits, Nat.mul_div_cancel _ (by decide)]
      omega
    · rw [hfree, hrange, Finset.disjoint_left]
      intro p hp hp'
      rw [Finset.mem_Ico] at hp hp'
      omega
    · rw [hfree, hrange]
      ext p
      simp only [Finset.mem_union, Finset.mem_Ico]
      omega
  refine ⟨⟨hstep, ?_, ?_⟩, hfree, hfree₂⟩
  · intro _ p hp
    rw [hrange] at hp
    simp only [hbits, hfree]
    rw [Finset.mem_Ico] at hp ⊢
    exact ⟨by omega, by omega, Finset.mem_Ico.mpr hp⟩
  · simp only [Call.exec, hfree, hfree₂, Client.mk.injEq, true_and]
    ext p
    simp only [Finset.mem_sdiff, Finset.mem_union, Finset.mem_Ico, Finset.notMem_empty,
      false_iff]
    omega

/-- The first pages of the block are handed out. -/
theorem oneBlock_pmalloc : (pmalloc oneBlock 1).1 = 64 * pageSize ∧
    (pmalloc oneBlock 64).1 = 64 * pageSize := by decide +kernel

/-- What a call of `pmalloc` that does not fail hands out: pages that were free and that nobody
owned. They stop being free, and the caller owns them. -/
structure HandsOut (n : ℕ) (c c' : Client) : Prop where
  free : range (pmalloc c.pmm n).1 n ⊆ c.pmm.freePages
  unowned : Disjoint (range (pmalloc c.pmm n).1 n) c.owned
  freePages : c'.pmm.freePages = c.pmm.freePages \ range (pmalloc c.pmm n).1 n
  owned : c'.owned = c.owned ∪ range (pmalloc c.pmm n).1 n

theorem union_sdiff_sdiff {A B R : Finset ℕ} (hd : Disjoint A B) (hR : R ⊆ B) :
    (A ∪ B) \ (B \ R) = A ∪ R := by
  ext p
  have hAB : p ∈ A → p ∉ B := fun hA => Finset.disjoint_left.mp hd hA
  have hRB : p ∈ R → p ∈ B := fun hp => hR hp
  simp only [Finset.mem_sdiff, Finset.mem_union]
  tauto

theorem Client.Ok.handsOut {c c' : Client} (h : c.Ok) {n : ℕ} (h1 : 1 ≤ n) (h64 : n ≤ 64)
    (hr : (pmalloc c.pmm n).1 ≠ 0) (hstep : Client.step (.pmalloc n) c c') :
    HandsOut n c c' := by
  rcases pmalloc_freePages h.sound h.apart h1 h64 with hfail | ⟨-, -, hsub, hfree, -⟩
  · exact absurd hfail.1 hr
  · obtain ⟨-, rfl⟩ := hstep
    refine ⟨hsub, h.disjoint.symm.mono_left hsub, hfree, ?_⟩
    rw [Call.exec, hfree]
    exact union_sdiff_sdiff h.disjoint hsub

/-- A caller may give back what `pmalloc` has just handed out, and the same pages are free
again. -/
theorem Client.Ok.exists_run_pmalloc_pfree {c : Client} (h : c.Ok) {n : ℕ} (h1 : 1 ≤ n)
    (h64 : n ≤ 64) (hr : (pmalloc c.pmm n).1 ≠ 0) :
    ∃ c', Run Client.step c [.pmalloc n, .pfree (pmalloc c.pmm n).1 n] c' ∧
      c'.pmm.freePages = c.pmm.freePages := by
  obtain ⟨c₁, hc₁⟩ : ∃ c₁, Client.step (.pmalloc n) c c₁ := ⟨_, trivial, rfl⟩
  have hout := h.handsOut h1 h64 hr hc₁
  have hok₁ := h.step hc₁
  have hst := (h.step_cases hc₁).2.1
  have hlt : ∀ p ∈ range (pmalloc c.pmm n).1 n, p < c₁.pmm.bits 0 := fun p hp => by
    rw [hst.bits]
    exact h.sound.layout.freePages_lt (hout.free hp)
  have hapart : Disjoint c₁.pmm.freePages (range (pmalloc c.pmm n).1 n) := by
    rw [hout.freePages]
    exact Finset.sdiff_disjoint
  refine ⟨_, ((Run.nil c).snoc hc₁).snoc ⟨fun _ p hp => ⟨hlt p hp, ?_, ?_⟩, rfl⟩, ?_⟩
  · exact Finset.disjoint_right.mp hapart hp
  · rw [hout.owned]
    exact Finset.mem_union_right _ hp
  · have hlast := hlt ((pmalloc c.pmm n).1 / pageSize + (n - 1))
      (Finset.mem_Ico.mpr ⟨Nat.le_add_right _ _, Nat.add_lt_add_left (by omega) _⟩)
    have hbound : (pmalloc c.pmm n).1 / pageSize + n ≤ c₁.pmm.bits 0 := by omega
    refine (pfree_freePages hok₁.sound hok₁.apart hr (by omega) hbound hapart).1.trans ?_
    rw [hout.freePages]
    exact Finset.sdiff_union_of_subset hout.free

/-- The pages that a call frees. -/
def Call.freed : Call → Finset ℕ
  | .pmalloc _ => ∅
  | .pfree pptr n => if pptr = 0 then ∅ else range pptr n

/-- A page that is owned stays so in a call that does not free it. -/
theorem Client.Ok.owned_step {k : Call} {c c' : Client} (h : c.Ok) (hk : k.Served)
    (hstep : Client.step k c c') {p : ℕ} (hp : p ∈ c.owned) (hfreed : p ∉ k.freed) :
    p ∈ c'.owned := by
  have hfree : p ∉ c.pmm.freePages := Finset.disjoint_left.mp h.disjoint hp
  have hkept : p ∉ c'.pmm.freePages := by
    obtain ⟨-, -, hcases⟩ := h.step_cases hstep
    rcases hcases with hsame | ⟨n, i, j, rfl, h1, h64, hb, hB, -⟩ |
      ⟨pptr, n, rfl, hnull, -, -, -, -, hB, -⟩
    · rw [freePages, hsame.blocks_eq]
      exact hfree
    · have hpow : n ≤ 2 ^ i :=
        (Nat.le_pow_clog (by omega) n).trans (Nat.pow_le_pow_right (by omega) (h64 hk))
      rw [freePages, hB, cover_erase_union_tail h.apart h1 hpow hb]
      exact fun hmem => hfree (Finset.mem_sdiff.mp hmem).1
    · rw [Call.freed, if_neg hnull] at hfreed
      rw [freePages, hB, cover_mergeUp, cover_union, cover_image_zero, Finset.mem_union, not_or]
      exact ⟨hfree, hfreed⟩
  rw [hstep.2] at hkept ⊢
  exact Finset.mem_sdiff.mpr ⟨Finset.mem_union_left _ hp, hkept⟩

/-- A page that is owned stays so until a call frees it. -/
theorem Client.Ok.owned_run {c c' : Client} {ks : List Call} (h : c.Ok)
    (hrun : Run Client.step c ks c') {p : ℕ} (hp : p ∈ c.owned)
    (hks : ∀ k ∈ ks, k.Served ∧ p ∉ k.freed) : p ∈ c'.owned :=
  (hrun.invariant (O := fun k => k.Served ∧ p ∉ k.freed) (P := fun d => d.Ok ∧ p ∈ d.owned)
    (fun _ _ _ hk hd hstep => ⟨hd.1.step hstep, hd.1.owned_step hk.1 hstep hd.2 hk.2⟩) hks
    ⟨h, hp⟩).2

/-- **The partition invariant holds in every run**: every page is covered once at most, the
counters count the clear bits, `free_mem` counts the free pages, and no counter runs
below zero. What the next `pmalloc` hands out is free and owned by nobody; it is no longer free
then, and no page of it is handed out again until a call frees it. -/
theorem partition_of_run {c c' : Client} {ks : List Call} (hl : c.pmm.Layout)
    (hf : c.pmm.Fresh) (hp : c.pmm.Partition) (hd : Disjoint c.owned c.pmm.freePages)
    (hrun : Run Client.step c ks c') (hks : ∀ k ∈ ks, k.Served) :
    c'.pmm.Partition ∧ c'.pmm.underflow = false ∧
      ∀ n d, 1 ≤ n → n ≤ 64 → (pmalloc c'.pmm n).1 ≠ 0 → Client.step (.pmalloc n) c' d →
        HandsOut n c' d ∧
        ∀ ks' d', Run Client.step d ks' d' → ∀ p ∈ range (pmalloc c'.pmm n).1 n,
          (∀ k ∈ ks', k.Served ∧ p ∉ k.freed) → p ∈ d'.owned ∧ p ∉ d'.pmm.freePages ∧
            ∀ m, 1 ≤ m → m ≤ 64 → (pmalloc d'.pmm m).1 ≠ 0 →
              p ∉ range (pmalloc d'.pmm m).1 m := by
  obtain ⟨hok, hm⟩ := hrun.invariant (O := Call.Served)
    (P := fun d => d.Ok ∧ d.pmm.freeMem = pageSize * d.pmm.freePages.card)
    (fun k d d' hk hd hstep => ⟨hd.1.step hstep, hd.1.freeMem_step hk hstep hd.2⟩) hks
    ⟨hp.ok hl hf hd, hp.freeMem_eq⟩
  refine ⟨⟨apart_blocks_iff.mp hok.apart, hok.sound.free_eq, hm⟩, hok.sound.no_underflow, ?_⟩
  intro n d h1 h64 hr hstep
  have hout := hok.handsOut h1 h64 hr hstep
  refine ⟨hout, fun ks' d' hrun' p hmem hks' => ?_⟩
  have hok₁ := hok.step hstep
  have howned : p ∈ d'.owned :=
    hok₁.owned_run hrun' (hout.owned ▸ Finset.mem_union_right _ hmem) hks'
  have hok' := hok₁.run hrun'
  have hfree : p ∉ d'.pmm.freePages := Finset.disjoint_left.mp hok'.disjoint howned
  refine ⟨howned, hfree, fun m hm1 hm64 hm' hagain => hfree ?_⟩
  exact (hok'.handsOut hm1 hm64 hm' ⟨trivial, rfl⟩).free hagain

/-- The run that allocates and frees one page: afterwards the invariant holds, and the page that
was handed out in between was not free then. -/
theorem partition_of_run_oneBlock :
    (pfree (pmalloc oneBlock 1).2 (64 * pageSize) 1).Partition ∧
      64 ∉ (pmalloc oneBlock 1).2.freePages := by
  obtain ⟨⟨h1, h2⟩, -, -⟩ := oneBlock_run (n := 1) (by omega) (by omega)
    oneBlock_pmalloc.1
  have hrun : Run Client.step oneBlockClient [] oneBlockClient := Run.nil _
  have hstart := partition_of_run oneBlock_layout oneBlock_fresh oneBlock_partition
    (Finset.disjoint_empty_left _) hrun (by simp)
  obtain ⟨-, hnot⟩ := hstart.2.2 1 _ le_rfl (by omega)
    (by rw [oneBlockClient, oneBlock_pmalloc.1]; decide) h1
  refine ⟨(partition_of_run oneBlock_layout oneBlock_fresh oneBlock_partition
    (Finset.disjoint_empty_left _) (((Run.nil _).snoc h1).snoc h2) (by simp [Call.Served])).1, ?_⟩
  have hmem : 64 ∈ range (pmalloc oneBlockClient.pmm 1).1 1 := by
    have hrange : range (64 * pageSize) 1 = Finset.Ico 64 (64 + 1) := rfl
    have hpmm : oneBlockClient.pmm = oneBlock := rfl
    rw [hpmm, oneBlock_pmalloc.1, hrange]
    exact Finset.left_mem_Ico.mpr (by omega)
  have hafter := hnot [] _ (Run.nil _) 64 hmem (by simp)
  dsimp only at hafter
  exact hafter.2.1

/-! ### Refinement of a set of free pages -/

/-- **A call refines an allocator that keeps a set of free pages.** `pmalloc` fails and
changes nothing exactly when no level that is high enough has a clear bit, and otherwise
takes an aligned range of free pages; `pfree` adds its range. -/
theorem refines_free_set {s : Pmm} (hl : s.Layout) (hf : s.Fresh) (hp : s.Partition)
    (h0 : 0 ∉ s.freePages) :
    (∀ n, 1 ≤ n → n ≤ 64 →
      ((pmalloc s n).1 = 0 ∧ s.SameButLog (pmalloc s n).2 ↔
        ∀ k, Nat.clog 2 n ≤ k → k < 7 → s.clearBits k = ∅) ∧
      ((∃ k, Nat.clog 2 n ≤ k ∧ k < 7 ∧ s.clearBits k ≠ ∅) →
        (pmalloc s n).1 ≠ 0 ∧ 2 ^ Nat.clog 2 n * pageSize ∣ (pmalloc s n).1 ∧
        range (pmalloc s n).1 n ⊆ s.freePages ∧
        (pmalloc s n).2.freePages = s.freePages \ range (pmalloc s n).1 n ∧
        (pmalloc s n).2.freeMem + n * pageSize = s.freeMem)) ∧
    ∀ pptr n, pptr ≠ 0 → (∀ p ∈ range pptr n, p < s.bits 0 ∧ p ∉ s.freePages) →
      (pfree s pptr n).freePages = s.freePages ∪ range pptr n ∧
      (pfree s pptr n).freeMem = s.freeMem + n * pageSize := by
  have hs := hp.sound hl hf
  have ha := apart_blocks_iff.mpr hp.once
  have hlt := hl.card_freePages_lt
  have hm := hp.freeMem_eq
  constructor
  · intro n h1 h64
    rcases pmalloc_freePages hs ha h1 h64 with
      ⟨hr, hsame, hnone⟩ | ⟨⟨k, hk, hk7, hne⟩, hdvd, hsub, hfree, hmem⟩
    · refine ⟨⟨fun _ => hnone, fun _ => ⟨hr, hsame⟩⟩, ?_⟩
      rintro ⟨k, hk, hk7, hne⟩
      exact absurd (hnone k hk hk7) hne
    · have hr : (pmalloc s n).1 ≠ 0 := by
        intro hr
        rw [hr] at hsub
        exact h0 (hsub (by simpa [range, Nat.pos_iff_ne_zero] using Nat.one_le_iff_ne_zero.mp h1))
      have hcard := Finset.card_le_card hsub
      rw [card_range] at hcard
      refine ⟨⟨fun h => absurd h.1 hr, fun h => ?_⟩, fun _ => ⟨hr, hdvd, hsub, hfree, ?_⟩⟩
      · exact absurd (h k hk hk7) hne.ne_empty
      · rw [hmem, hm, sub64_pages hlt hcard]
  · intro pptr n hnull hr
    by_cases hn : n = 0
    · subst hn
      rw [pfree, if_pos (Or.inr rfl)]
      simp [range]
    · have hd : Disjoint s.freePages (range pptr n) :=
        Finset.disjoint_right.mpr fun p hp => (hr p hp).2
      have hb := range_le hn fun p hp => (hr p hp).1
      obtain ⟨hfree, hmem⟩ := pfree_freePages hs ha hnull hn hb hd
      refine ⟨hfree, ?_⟩
      have hsub : s.freePages ∪ range pptr n ⊆ Finset.range (s.bits 0) := by
        refine Finset.union_subset (fun p hp => Finset.mem_range.mpr (hl.freePages_lt hp)) ?_
        exact fun p hp => Finset.mem_range.mpr (hr p hp).1
      have hcard := Finset.card_le_card hsub
      have hsmall := hl.small
      rw [Finset.card_union_of_disjoint hd, card_range, Finset.card_range] at hcard
      rw [hmem, hm, add64_pages (by omega)]

/-- The refinement in the state with one block. -/
theorem refines_free_set_oneBlock :
    (pmalloc oneBlock 3).1 ≠ 0 ∧ (pmalloc oneBlock 3).2.freeMem + 3 * pageSize = 64 * pageSize := by
  obtain ⟨h, -⟩ := refines_free_set oneBlock_layout oneBlock_fresh oneBlock_partition
    (by rw [oneBlock_freePages]; decide)
  obtain ⟨hr, -, -, -, hm⟩ := (h 3 (by omega) (by omega)).2
    ⟨6, (Nat.clog_mono_right 2 (by omega : 3 ≤ 2 ^ 6)).trans_eq (Nat.clog_pow 2 6 (by omega)),
      by omega, by rw [oneBlock_clearBits (by omega)]; simp⟩
  exact ⟨hr, hm⟩

/-! ### Maximal coalescing -/

/-- No two buddy bits of a level below `6` are both clear. -/
def Pmm.Coalesced (s : Pmm) : Prop :=
  ∀ i < 6, ∀ k, 2 * k + 1 < s.bits i → ¬(s.bit i (2 * k) = false ∧ s.bit i (2 * k + 1) = false)

/-- Clear buddy bits are buddies among the free blocks. -/
theorem coalesced_iff {s : Pmm} : s.Coalesced ↔ Buddy.Maximal 6 s.blocks := by
  constructor
  · rintro h i hi k ⟨hl, hr⟩
    rw [mem_blocks, mem_clearBits] at hl hr
    exact h i hi k hr.2.1 ⟨hl.2.2, hr.2.2⟩
  · rintro h i hi k hk ⟨hl, hr⟩
    refine h i hi k ⟨mem_blocks.mpr ⟨by omega, mem_clearBits.mpr ⟨by omega, hl⟩⟩, ?_⟩
    exact mem_blocks.mpr ⟨by omega, mem_clearBits.mpr ⟨hk, hr⟩⟩

/-- The calls after which no buddies are left apart: a `pmalloc` of a size that is served,
and a `pfree` that looks at every block it completes. On level `i` the latter looks at
`⌈⌊n / 2 ^ i⌋ / 2⌉` pairs, from the one that holds the first page of the range on. -/
def Call.Completes (c : Client) : Call → Prop
  | .pmalloc n => n ≤ 64
  | .pfree pptr n => pptr ≠ 0 → n ≠ 0 →
      Reaches 6 (c.pmm.freePages ∪ range pptr n) (pptr / pageSize) n

/-- A `pfree` leaves no buddies apart exactly when it looks at every block it completes. -/
theorem coalesced_pfree_iff {c : Client} (h : c.Ok) (hmax : c.pmm.Coalesced) {pptr n : ℕ}
    (hallow : (Call.pfree pptr n).Allowed c) :
    (pfree c.pmm pptr n).Coalesced ↔ (Call.pfree pptr n).Completes c := by
  rw [coalesced_iff] at *
  by_cases hnull : pptr = 0 ∨ n = 0
  · rw [pfree, if_pos hnull]
    simp only [hmax, Call.Completes, true_iff]
    intro h1 h2
    omega
  · push Not at hnull
    have hr := hallow hnull.1
    have hd : Disjoint c.pmm.freePages (range pptr n) :=
      Finset.disjoint_right.mpr fun p hp => (hr p hp).2.1
    obtain ⟨-, -, hB, -⟩ := pfree_spec h.sound h.apart hnull.1 hnull.2
      (range_le hnull.2 fun p hp => (hr p hp).1) hd
    rw [hB]
    constructor
    · intro hm _ _
      exact reaches_of_mergeUp_maximal hd hm
    · intro hreach
      have := mergeUp_maximal 6 (i := 0) (p := pptr / pageSize) (n := n)
        (pending_of_maximal hmax) (by
          rw [cover_union, cover_image_zero]
          exact hreach hnull.1 hnull.2)
      simpa using this

/-- A call that completes leaves no buddies apart. -/
theorem Client.Ok.coalesced_step {k : Call} {c c' : Client} (h : c.Ok)
    (hstep : Client.step k c c') (hk : k.Completes c) (hmax : c.pmm.Coalesced) :
    c'.pmm.Coalesced := by
  cases k with
  | pmalloc n =>
      rw [coalesced_iff] at *
      obtain ⟨-, -, hcases⟩ := h.step_cases hstep
      rcases hcases with hsame | ⟨m, i, j, -, h1, -, hb, hB, -⟩ | ⟨pptr, m, hkind, -⟩
      · rwa [hsame.blocks_eq]
      · rw [hB]
        exact hmax.erase_union_tail h.apart h1 hb
      · simp at hkind
  | pfree pptr n =>
      rw [hstep.2]
      exact (coalesced_pfree_iff h hmax hstep.1).mpr hk

/-- An aligned run of free pages of the largest block size can be allocated, unless its
address is that of the page `0`. -/
theorem Client.Ok.pmalloc_top {c : Client} (h : c.Ok) (hmax : c.pmm.Coalesced) {k : ℕ}
    (hk : pages (6, k) ⊆ c.pmm.freePages) (h0 : 0 ∉ c.pmm.freePages) :
    (pmalloc c.pmm 64).1 ≠ 0 := by
  obtain ⟨i, hi, hmem⟩ := exists_ancestor_of_maximal (coalesced_iff.mp hmax) (le_refl 6) hk
  obtain rfl : i = 6 := by
    have := (lt_bits_of_mem_blocks hmem).1
    omega
  have hclog : Nat.clog 2 64 = 6 := Nat.clog_pow 2 6 (by omega)
  rcases pmalloc_freePages h.sound h.apart (n := 64) (by omega) (by omega) with
    ⟨-, -, hnone⟩ | ⟨-, -, hsub, -⟩
  · have hempty := hnone 6 (by omega) (by omega)
    have hclear := (mem_blocks.mp hmem).2
    rw [hempty] at hclear
    exact absurd hclear (Finset.notMem_empty _)
  · intro hr
    rw [hr] at hsub
    exact h0 (hsub (by simp [range]))

theorem oneBlock_coalesced : oneBlock.Coalesced := by
  rw [coalesced_iff, oneBlock_blocks]
  intro i hi k hk
  simp at hk

/-- **When the buddies stay merged**: in every run whose frees look at every block they
complete, no two buddies are left apart; the bitmaps are those of the start once the owned
pages are, and an aligned run of 64 free pages can be allocated. In a state of such a run
a further `pfree` leaves no buddies apart only if it looks at every block it completes. -/
theorem maximal_of_run {c c' : Client} {ks : List Call} (hl : c.pmm.Layout)
    (hf : c.pmm.Fresh) (hp : c.pmm.Partition) (hd : Disjoint c.owned c.pmm.freePages)
    (hmax : c.pmm.Coalesced)
    (hrun : Run (fun k d d' => Client.step k d d' ∧ k.Completes d) c ks c') :
    c'.pmm.Coalesced ∧
      (c'.owned = c.owned → ∀ i < 7, ∀ j < c.pmm.bits i, c'.pmm.bit i j = c.pmm.bit i j) ∧
      (∀ k, pages (6, k) ⊆ c'.pmm.freePages → 0 ∉ c'.pmm.freePages →
        (pmalloc c'.pmm 64).1 ≠ 0) ∧
      ∀ pptr n, (Call.pfree pptr n).Allowed c' →
        ((pfree c'.pmm pptr n).Coalesced ↔ (Call.pfree pptr n).Completes c') := by
  have hok := hp.ok hl hf hd
  obtain ⟨hok', hmax', hst, hun⟩ := hrun.invariant (O := fun _ => True)
    (P := fun d => d.Ok ∧ d.pmm.Coalesced ∧ c.pmm.Static d.pmm ∧
      d.owned ∪ d.pmm.freePages = c.owned ∪ c.pmm.freePages)
    (fun k d d' _ hd hstep => ⟨hd.1.step hstep.1, hd.1.coalesced_step hstep.1 hstep.2 hd.2.1,
      hd.2.2.1.trans (hd.1.step_cases hstep.1).2.1,
      (hd.1.owned_union_step hstep.1).trans hd.2.2.2⟩) (fun _ _ => trivial)
    ⟨hok, hmax, Static.refl _, rfl⟩
  refine ⟨hmax', ?_, fun k hk h0 => hok'.pmalloc_top hmax' hk h0, fun pptr n hallow =>
    coalesced_pfree_iff hok' hmax' hallow⟩
  intro howned i hi j hj
  have hfree : c'.pmm.freePages = c.pmm.freePages := by
    rw [← Finset.union_sdiff_cancel_left hok'.disjoint, hun, howned,
      Finset.union_sdiff_cancel_left hok.disjoint]
  have hblocks := eq_of_maximal_of_cover_eq hok'.apart hok.apart (coalesced_iff.mp hmax')
    (coalesced_iff.mp hmax) (fun b hb => Nat.le_of_lt_succ (lt_bits_of_mem_blocks hb).1)
    (fun b hb => Nat.le_of_lt_succ (lt_bits_of_mem_blocks hb).1) hfree
  have hiff : c'.pmm.bit i j = false ↔ c.pmm.bit i j = false := by
    have hmem : (i, j) ∈ c'.pmm.blocks ↔ (i, j) ∈ c.pmm.blocks := by rw [hblocks]
    simpa only [mem_blocks, mem_clearBits, hst.bits, hi, hj, true_and] using hmem
  rw [Bool.eq_iff_iff, ← Bool.not_eq_false, ← Bool.not_eq_false, hiff]

/-- Allocating and freeing the whole block looks at every block that the free completes. -/
theorem maximal_of_run_oneBlock :
    (pfree (pmalloc oneBlock 64).2 (64 * pageSize) 64).Coalesced := by
  obtain ⟨⟨h1, h2⟩, -, -⟩ := oneBlock_run (n := 64) (by omega) (by omega)
    oneBlock_pmalloc.2
  generalize (pmalloc oneBlock 64).2 = s at h1 h2 ⊢
  have hreach : ∀ S : Finset ℕ, Reaches 6 S (64 * pageSize / pageSize) 64 := by
    rintro S i hi k - ⟨q, hq, hqk⟩
    rw [Nat.mul_div_cancel _ (by decide)] at hq ⊢
    rw [mem_pages] at hqk
    rw [Finset.mem_Ico] at hq
    interval_cases i <;> simp at hqk ⊢ <;> omega
  have hrun : Run (fun k d d' => Client.step k d d' ∧ k.Completes d) oneBlockClient
      [.pmalloc 64, .pfree (64 * pageSize) 64] _ :=
    ((Run.nil oneBlockClient).snoc ⟨h1, le_refl 64⟩).snoc ⟨h2, fun _ _ => hreach _⟩
  exact (maximal_of_run (c := oneBlockClient) oneBlock_layout oneBlock_fresh oneBlock_partition
    (Finset.disjoint_empty_left _) oneBlock_coalesced hrun).1

/-- What is left after one page of the block has been allocated and freed. -/
theorem oneBlock_pfree :
    let s := pfree (pmalloc oneBlock 1).2 (64 * pageSize) 1
    (33 < s.bits 1 ∧ s.bit 1 32 = false ∧ s.bit 1 33 = false) ∧ s.bit 6 1 = true ∧
      (pmalloc s 64).1 = 0 := by decide +kernel

/-- One page of the block is allocated and freed again. Then nothing is owned and the
pages 64, …, 127 are free, but the bits of two buddies are clear and `pmalloc(64)` fails. -/
theorem coalesce_misses_buddies :
    oneBlockClient.pmm.Layout ∧ oneBlockClient.pmm.Fresh ∧ oneBlockClient.pmm.Partition ∧
      Disjoint oneBlockClient.owned oneBlockClient.pmm.freePages ∧
      oneBlockClient.pmm.Coalesced ∧
      ∃ c', Run Client.step oneBlockClient [.pmalloc 1, .pfree (64 * pageSize) 1] c' ∧
        c'.owned = oneBlockClient.owned ∧ ¬c'.pmm.Coalesced ∧
        c'.pmm.bit 6 1 ≠ oneBlockClient.pmm.bit 6 1 ∧
        pages (6, 1) ⊆ c'.pmm.freePages ∧ (pmalloc c'.pmm 64).1 = 0 := by
  obtain ⟨⟨h1, h2⟩, -, hfree⟩ := oneBlock_run (n := 1) (by omega) (by omega)
    oneBlock_pmalloc.1
  obtain ⟨hbuddies, htop, hnone⟩ := oneBlock_pfree
  refine ⟨oneBlock_layout, oneBlock_fresh, oneBlock_partition, Finset.disjoint_empty_left _,
    oneBlock_coalesced, ⟨pfree (pmalloc oneBlock 1).2 (64 * pageSize) 1, ∅⟩, ?_, ?_, ?_, ?_,
    ?_, ?_⟩
  · exact ((Run.nil _).snoc h1).snoc h2
  · simp only [oneBlockClient]
  · intro h
    exact h 1 (by omega) 16 hbuddies.1 hbuddies.2
  · have hclear := (oneBlock_bit (by omega) (by decide : 1 < oneBlock.bits 6)).mpr ⟨rfl, rfl⟩
    rw [htop, ne_eq, Bool.true_eq, Bool.not_eq_true]
    exact hclear
  · rw [hfree]
    decide
  · exact hnone

end AnglOS
