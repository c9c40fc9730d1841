import AnglOS.BuddyMerge
import AnglOS.Pmm

/-!
# The Bitmaps as a Set of Free Blocks

`Pmm.blocks` reads the seven bitmaps as a finite set of buddy blocks. Under `Pmm.Layout`
— every level exactly half as large as the one below and stored right behind it — the
bits of different levels do not share a byte, and every statement of the allocator that
touches a bit becomes an insertion into or a removal from that set.

`Pmm.Sound` collects what the set does not show: the counters count the clear bits, every
recorded bit access was inside its level, and no counter ran below zero.
`Pmm.Leads s s' B` says that code which started in `s` ended in the sound state `s'` with
free blocks `B` and touched nothing but bits and counters; the lemmas of this module
give it for the statements of the allocator, and `Pmm.Leads.trans` composes them.
-/

namespace AnglOS

open Buddy

/-! ### Bits of a byte memory -/

/-- Reading a bit. -/
theorem pmmCheckBit_eq (m : Mem) (base j : ℕ) :
    pmmCheckBit m base j = (m (base + j / 8)).getLsbD (j % 8) := by
  rw [pmmCheckBit, Bool.eq_iff_iff, bne_iff_ne, ne_eq, BitVec.eq_of_getLsbD_eq_iff]
  have h : ∀ i, i < 8 → ((m (base + j / 8) >>> (j % 8)) &&& 1#8).getLsbD i =
      (decide (i = 0) && (m (base + j / 8)).getLsbD (j % 8)) := by
    intro i hi
    rw [BitVec.getLsbD_and, BitVec.getLsbD_ushiftRight, BitVec.getLsbD_one]
    by_cases h0 : i = 0
    · simp [h0]
    · simp [h0]
  constructor
  · intro hne
    by_contra hf
    refine hne fun i hi => ?_
    rw [h i hi, Bool.eq_false_iff.mpr hf]
    simp
  · intro ht hall
    have h0 := hall 0 (by omega)
    rw [h 0 (by omega)] at h0
    simp [ht] at h0

/-- Setting a bit makes it read as set and leaves every other bit alone. -/
theorem pmmCheckBit_pmmSetBit (m : Mem) (b j b' j' : ℕ) :
    pmmCheckBit (pmmSetBit m b j) b' j' =
      (decide (b' + j' / 8 = b + j / 8 ∧ j' % 8 = j % 8) || pmmCheckBit m b' j') := by
  simp only [pmmCheckBit_eq, pmmSetBit, Mem.store8]
  by_cases h : b' + j' / 8 = b + j / 8
  · have hj : j' % 8 < 8 := by omega
    rw [if_pos h, h, BitVec.getLsbD_or, BitVec.getLsbD_shiftLeft, BitVec.getLsbD_one]
    by_cases hb : j' % 8 = j % 8
    · simp [hb, hb ▸ hj]
    · simp only [hb, and_false, decide_false, Bool.false_or]
      grind
  · rw [if_neg h]
    simp [h]

/-- Clearing a bit makes it read as clear and leaves every other bit alone. -/
theorem pmmCheckBit_pmmClearBit (m : Mem) (b j b' j' : ℕ) :
    pmmCheckBit (pmmClearBit m b j) b' j' =
      (!decide (b' + j' / 8 = b + j / 8 ∧ j' % 8 = j % 8) && pmmCheckBit m b' j') := by
  simp only [pmmCheckBit_eq, pmmClearBit, Mem.store8]
  by_cases h : b' + j' / 8 = b + j / 8
  · have hj : j' % 8 < 8 := by omega
    rw [if_pos h, h, BitVec.getLsbD_and, BitVec.getLsbD_not, BitVec.getLsbD_shiftLeft,
      BitVec.getLsbD_one]
    by_cases hb : j' % 8 = j % 8
    · simp [hb]
    · simp only [hb, and_false, decide_false, Bool.not_false, Bool.true_and]
      grind
  · rw [if_neg h]
    simp [h]

namespace Pmm

/-! ### Layout -/

/-- The levels halve exactly and are stored back to back; level `0` has less than `2 ^ 52`
bits, because the number of bytes of memory is a 64-bit number. -/
structure Layout (s : Pmm) : Prop where
  halves : ∀ i < 6, (s.bitmaps i).size = 2 * (s.bitmaps (i + 1)).size
  adjacent : ∀ i < 6, (s.bitmaps (i + 1)).base = (s.bitmaps i).base + (s.bitmaps i).size
  small : s.bits 0 < 2 ^ 52

/-- The static part of the state: everything but the bits, the counters, and the ghost
fields. -/
structure Static (s s' : Pmm) : Prop where
  base : ∀ i, (s'.bitmaps i).base = (s.bitmaps i).base
  size : ∀ i, (s'.bitmaps i).size = (s.bitmaps i).size
  mmapEntries : s'.mmapEntries = s.mmapEntries
  memSize : s'.memSize = s.memSize
  bitmapSize : s'.bitmapSize = s.bitmapSize
  bitmapBase : s'.bitmapBase = s.bitmapBase

theorem Static.refl (s : Pmm) : s.Static s :=
  ⟨fun _ => rfl, fun _ => rfl, rfl, rfl, rfl, rfl⟩

theorem Static.trans {s s₁ s₂ : Pmm} (h₁ : s.Static s₁) (h₂ : s₁.Static s₂) : s.Static s₂ :=
  ⟨fun i => (h₂.base i).trans (h₁.base i), fun i => (h₂.size i).trans (h₁.size i),
    h₂.mmapEntries.trans h₁.mmapEntries, h₂.memSize.trans h₁.memSize,
    h₂.bitmapSize.trans h₁.bitmapSize, h₂.bitmapBase.trans h₁.bitmapBase⟩

/-- States with the same static part have equally many bits on every level. -/
theorem Static.bits {s s' : Pmm} (h : s.Static s') (i : ℕ) : s'.bits i = s.bits i := by
  rw [Pmm.bits, Pmm.bits, h.size]

/-- The layout is part of the static state. -/
theorem Layout.static {s s' : Pmm} (hl : s.Layout) (h : s.Static s') : s'.Layout where
  halves i hi := by rw [h.size, h.size, hl.halves i hi]
  adjacent i hi := by rw [h.base, h.base, h.size, hl.adjacent i hi]
  small := by rw [h.bits]; exact hl.small

/-- A level has twice as many bits as the one above it. -/
theorem Layout.bits_succ {s : Pmm} (h : s.Layout) {i : ℕ} (hi : i < 6) :
    s.bits i = 2 * s.bits (i + 1) := by
  rw [Pmm.bits, Pmm.bits, h.halves i hi]
  ring

/-- Every level describes the same pages. -/
theorem Layout.bits_mul {s : Pmm} (h : s.Layout) :
    ∀ {i : ℕ}, i < 7 → s.bits i * 2 ^ i = s.bits 0 := by
  intro i
  induction i with
  | zero => intro _; simp
  | succ i ih =>
      intro hi
      rw [← ih (by omega), h.bits_succ (i := i) (by omega), pow_succ]
      ring

/-- No level has more bits than level `0`. -/
theorem Layout.bits_le {s : Pmm} (h : s.Layout) {i : ℕ} (hi : i < 7) :
    s.bits i ≤ s.bits 0 := by
  rw [← h.bits_mul hi]
  exact Nat.le_mul_of_pos_right _ (Nat.two_pow_pos i)

/-- **Stacked levels**: each level is stored right behind the one below, and at most half as large.
This is all that the bits of different blocks need to be different bits. -/
structure Stacked (s : Pmm) : Prop where
  halves : ∀ i < 6, 2 * (s.bitmaps (i + 1)).size ≤ (s.bitmaps i).size
  adjacent : ∀ i < 6, (s.bitmaps (i + 1)).base = (s.bitmaps i).base + (s.bitmaps i).size

theorem Layout.stacked {s : Pmm} (h : s.Layout) : s.Stacked :=
  ⟨fun i hi => (h.halves i hi).ge, h.adjacent⟩

theorem Stacked.static {s s' : Pmm} (hl : s.Stacked) (h : s.Static s') : s'.Stacked where
  halves i hi := by rw [h.size, h.size]; exact hl.halves i hi
  adjacent i hi := by rw [h.base, h.base, h.size, hl.adjacent i hi]

/-- A level ends before the next ones begin. -/
theorem Stacked.base_add_size_le {s : Pmm} (h : s.Stacked) {i : ℕ} :
    ∀ {i' : ℕ}, i < i' → i' < 7 → (s.bitmaps i).base + (s.bitmaps i).size ≤
      (s.bitmaps i').base := by
  intro i'
  induction i' with
  | zero => intro h1 _; omega
  | succ i' ih =>
      intro h1 h2
      rw [h.adjacent i' (by omega)]
      rcases Nat.eq_or_lt_of_le (Nat.le_of_lt_succ h1) with rfl | hlt
      · exact le_refl _
      · exact le_trans (ih hlt (by omega)) (Nat.le_add_right _ _)

/-- Bits inside their levels share a byte and a position only if they are one bit. -/
theorem Stacked.eq_of_same_position {s : Pmm} (h : s.Stacked) {i j i' j' : ℕ} (hi : i < 7)
    (hj : j < s.bits i) (hi' : i' < 7) (hj' : j' < s.bits i')
    (hbyte : (s.bitmaps i').base + j' / 8 = (s.bitmaps i).base + j / 8)
    (hbit : j' % 8 = j % 8) : i' = i ∧ j' = j := by
  rw [Pmm.bits] at hj hj'
  rcases Nat.lt_trichotomy i i' with hlt | rfl | hlt
  · have := h.base_add_size_le hlt hi'
    omega
  · exact ⟨rfl, by omega⟩
  · have := h.base_add_size_le hlt hi
    omega

/-- Setting a bit inside its level changes that bit alone. -/
theorem bit_setBit {s : Pmm} (h : s.Layout) {i j i' j' : ℕ} (hi : i < 7) (hj : j < s.bits i)
    (hi' : i' < 7) (hj' : j' < s.bits i') :
    (s.setBit i j).bit i' j' = (decide (i' = i ∧ j' = j) || s.bit i' j') := by
  change pmmCheckBit (pmmSetBit s.mem (s.bitmaps i).base j) (s.bitmaps i').base j' = _
  rw [pmmCheckBit_pmmSetBit]
  congr 1
  rw [decide_eq_decide]
  constructor
  · rintro ⟨h1, h2⟩
    exact h.stacked.eq_of_same_position hi hj hi' hj' h1 h2
  · rintro ⟨rfl, rfl⟩
    exact ⟨rfl, rfl⟩

/-- Clearing a bit inside its level changes that bit alone. -/
theorem bit_clearBit {s : Pmm} (h : s.Stacked) {i j i' j' : ℕ} (hi : i < 7)
    (hj : j < s.bits i) (hi' : i' < 7) (hj' : j' < s.bits i') :
    (s.clearBit i j).bit i' j' = (!decide (i' = i ∧ j' = j) && s.bit i' j') := by
  change pmmCheckBit (pmmClearBit s.mem (s.bitmaps i).base j) (s.bitmaps i').base j' = _
  rw [pmmCheckBit_pmmClearBit]
  congr 2
  rw [decide_eq_decide]
  constructor
  · rintro ⟨h1, h2⟩
    exact h.eq_of_same_position hi hj hi' hj' h1 h2
  · rintro ⟨rfl, rfl⟩
    exact ⟨rfl, rfl⟩

/-! ### Free blocks -/

/-- The indices of the clear bits of level `i`. -/
def clearBits (s : Pmm) (i : ℕ) : Finset ℕ :=
  (Finset.range (s.bits i)).filter fun j => s.bit i j = false

/-- The free blocks. -/
def blocks (s : Pmm) : Finset Block :=
  (Finset.range 7).biUnion fun i => (s.clearBits i).image (Prod.mk i)

theorem mem_clearBits {s : Pmm} {i j : ℕ} :
    j ∈ s.clearBits i ↔ j < s.bits i ∧ s.bit i j = false := by
  simp [clearBits]

theorem mem_blocks {s : Pmm} {i j : ℕ} : (i, j) ∈ s.blocks ↔ i < 7 ∧ j ∈ s.clearBits i := by
  simp only [blocks, Finset.mem_biUnion, Finset.mem_range, Finset.mem_image, Prod.mk.injEq]
  constructor
  · rintro ⟨i', hi', j', hj', rfl, rfl⟩
    exact ⟨hi', hj'⟩
  · rintro ⟨hi, hj⟩
    exact ⟨i, hi, j, hj, rfl, rfl⟩

/-- A free block is inside its level. -/
theorem lt_bits_of_mem_blocks {s : Pmm} {i j : ℕ} (h : (i, j) ∈ s.blocks) :
    i < 7 ∧ j < s.bits i := by
  rw [mem_blocks, mem_clearBits] at h
  exact ⟨h.1, h.2.1⟩

/-- States that agree on the bits and on the number of bits of the seven levels have the
same free blocks. -/
theorem blocks_congr {s s' : Pmm} (hbits : ∀ i, s'.bits i = s.bits i)
    (hbit : ∀ i < 7, ∀ j < s.bits i, s'.bit i j = s.bit i j) : s'.blocks = s.blocks := by
  ext ⟨i, j⟩
  simp only [mem_blocks, mem_clearBits, hbits]
  constructor
  · rintro ⟨hi, hj, h⟩
    exact ⟨hi, hj, by rw [← hbit i hi j hj]; exact h⟩
  · rintro ⟨hi, hj, h⟩
    exact ⟨hi, hj, by rw [hbit i hi j hj]; exact h⟩

/-! ### Sound states -/

/-- The counters count the clear bits, every recorded access was inside its level, and no
counter ran below zero. -/
structure Sound (s : Pmm) : Prop where
  layout : s.Layout
  free_eq : ∀ i < 7, (s.bitmaps i).free = (s.clearBits i).card
  log_lt : ∀ a ∈ s.log, a.1 < 7 ∧ a.2 < s.bits a.1
  no_underflow : s.underflow = false

/-- The code that started in `s` ended in the sound state `s'` with free blocks `B`, and
touched only bits and counters. -/
structure Leads (s s' : Pmm) (B : Finset Block) : Prop where
  sound : s'.Sound
  blocks_eq : s'.blocks = B
  static : s.Static s'
  freeMem_eq : s'.freeMem = s.freeMem

theorem Leads.refl {s : Pmm} (h : s.Sound) : s.Leads s s.blocks :=
  ⟨h, rfl, Static.refl s, rfl⟩

theorem Leads.trans {s s₁ s₂ : Pmm} {B₁ B₂ : Finset Block} (h₁ : s.Leads s₁ B₁)
    (h₂ : s₁.Leads s₂ B₂) : s.Leads s₂ B₂ :=
  ⟨h₂.sound, h₂.blocks_eq, h₁.static.trans h₂.static, h₂.freeMem_eq.trans h₁.freeMem_eq⟩

/-- The number of clear bits of a level is a small number. -/
theorem Layout.card_clearBits_lt {s : Pmm} (h : s.Layout) {i : ℕ} (hi : i < 7) :
    (s.clearBits i).card < 2 ^ 52 := by
  have h1 : (s.clearBits i).card ≤ s.bits i := by
    calc (s.clearBits i).card ≤ (Finset.range (s.bits i)).card := Finset.card_filter_le _ _
      _ = s.bits i := Finset.card_range _
  have h2 := h.bits_le hi
  have h3 := h.small
  omega

/-! ### Statements of the allocator -/

theorem bitmaps_addFree (s : Pmm) (i k i' : ℕ) :
    ((s.addFree i k).bitmaps i').base = (s.bitmaps i').base ∧
      ((s.addFree i k).bitmaps i').size = (s.bitmaps i').size ∧
      ((s.addFree i k).bitmaps i').free =
        if i' = i then add64 (s.bitmaps i).free k else (s.bitmaps i').free := by
  simp only [addFree, Function.update_apply]
  split <;> simp_all

theorem bitmaps_subFree (s : Pmm) (i k i' : ℕ) :
    ((s.subFree i k).bitmaps i').base = (s.bitmaps i').base ∧
      ((s.subFree i k).bitmaps i').size = (s.bitmaps i').size ∧
      ((s.subFree i k).bitmaps i').free =
        if i' = i then sub64 (s.bitmaps i).free k else (s.bitmaps i').free := by
  simp only [subFree, Function.update_apply]
  split <;> simp_all

theorem static_touch (s : Pmm) (i j : ℕ) : s.Static (s.touch i j) :=
  ⟨fun _ => rfl, fun _ => rfl, rfl, rfl, rfl, rfl⟩

theorem static_setBit (s : Pmm) (i j : ℕ) : s.Static (s.setBit i j) :=
  ⟨fun _ => rfl, fun _ => rfl, rfl, rfl, rfl, rfl⟩

theorem static_clearBit (s : Pmm) (i j : ℕ) : s.Static (s.clearBit i j) :=
  ⟨fun _ => rfl, fun _ => rfl, rfl, rfl, rfl, rfl⟩

theorem static_addFree (s : Pmm) (i k : ℕ) : s.Static (s.addFree i k) :=
  ⟨fun i' => (s.bitmaps_addFree i k i').1, fun i' => (s.bitmaps_addFree i k i').2.1, rfl, rfl,
    rfl, rfl⟩

theorem static_subFree (s : Pmm) (i k : ℕ) : s.Static (s.subFree i k) :=
  ⟨fun i' => (s.bitmaps_subFree i k i').1, fun i' => (s.bitmaps_subFree i k i').2.1, rfl, rfl,
    rfl, rfl⟩

theorem bit_addFree (s : Pmm) (i k i' j : ℕ) : (s.addFree i k).bit i' j = s.bit i' j := by
  rw [bit, bit, (s.bitmaps_addFree i k i').1]
  rfl

theorem bit_subFree (s : Pmm) (i k i' j : ℕ) : (s.subFree i k).bit i' j = s.bit i' j := by
  rw [bit, bit, (s.bitmaps_subFree i k i').1]
  rfl

theorem clearBits_addFree (s : Pmm) (i k i' : ℕ) :
    (s.addFree i k).clearBits i' = s.clearBits i' := by
  ext j
  rw [mem_clearBits, mem_clearBits, bit_addFree, (s.static_addFree i k).bits]

theorem clearBits_subFree (s : Pmm) (i k i' : ℕ) :
    (s.subFree i k).clearBits i' = s.clearBits i' := by
  ext j
  rw [mem_clearBits, mem_clearBits, bit_subFree, (s.static_subFree i k).bits]

/-- Setting a bit removes it from the clear bits of its level. -/
theorem clearBits_setBit {s : Pmm} (h : s.Layout) {i j i' : ℕ} (hi : i < 7)
    (hj : j < s.bits i) (hi' : i' < 7) :
    (s.setBit i j).clearBits i' = if i' = i then (s.clearBits i).erase j else s.clearBits i' := by
  ext j'
  rw [mem_clearBits, (s.static_setBit i j).bits]
  by_cases hj' : j' < s.bits i'
  · rw [bit_setBit h hi hj hi' hj']
    split
    · next hii =>
      subst hii
      rw [Finset.mem_erase, mem_clearBits]
      by_cases hjj : j' = j <;> simp [hjj, hj']
    · next hii => rw [mem_clearBits]; simp [hii]
  · split
    · next hii => subst hii; rw [Finset.mem_erase, mem_clearBits]; simp [hj']
    · rw [mem_clearBits]; simp [hj']

/-- Clearing a bit adds it to the clear bits of its level. -/
theorem clearBits_clearBit {s : Pmm} (h : s.Layout) {i j i' : ℕ} (hi : i < 7)
    (hj : j < s.bits i) (hi' : i' < 7) :
    (s.clearBit i j).clearBits i' =
      if i' = i then insert j (s.clearBits i) else s.clearBits i' := by
  ext j'
  rw [mem_clearBits, (s.static_clearBit i j).bits]
  by_cases hj' : j' < s.bits i'
  · rw [bit_clearBit h.stacked hi hj hi' hj']
    split
    · next hii =>
      subst hii
      rw [Finset.mem_insert, mem_clearBits]
      by_cases hjj : j' = j <;> simp [hjj, hj, hj']
    · next hii => rw [mem_clearBits]; simp [hii]
  · split
    · next hii =>
      subst hii
      rw [Finset.mem_insert, mem_clearBits]
      simp only [hj', false_and, or_false, false_iff]
      rintro rfl
      exact hj' hj
    · rw [mem_clearBits]; simp [hj']

/-- The free blocks after a bit was set. -/
theorem blocks_setBit {s : Pmm} (h : s.Layout) {i j : ℕ} (hi : i < 7) (hj : j < s.bits i) :
    (s.setBit i j).blocks = s.blocks.erase (i, j) := by
  ext ⟨i', j'⟩
  rw [mem_blocks, Finset.mem_erase, mem_blocks]
  by_cases hi' : i' < 7
  · rw [clearBits_setBit h hi hj hi']
    by_cases hii : i' = i
    · subst hii; simp [and_left_comm]
    · simp [hii]
  · simp [hi']

/-- The free blocks after a bit was cleared. -/
theorem blocks_clearBit {s : Pmm} (h : s.Layout) {i j : ℕ} (hi : i < 7) (hj : j < s.bits i) :
    (s.clearBit i j).blocks = insert (i, j) s.blocks := by
  ext ⟨i', j'⟩
  rw [mem_blocks, Finset.mem_insert, mem_blocks]
  by_cases hi' : i' < 7
  · rw [clearBits_clearBit h hi hj hi']
    by_cases hii : i' = i
    · subst hii; simp [hi']
    · simp [hii]
  · have hne : (i', j') ≠ (i, j) := by
      intro heq
      obtain ⟨rfl, rfl⟩ := Prod.mk.inj heq
      exact hi' hi
    simp [hi', hne]

theorem blocks_addFree (s : Pmm) (i k : ℕ) : (s.addFree i k).blocks = s.blocks :=
  blocks_congr (s.static_addFree i k).bits fun i' _ j _ => s.bit_addFree i k i' j

theorem blocks_subFree (s : Pmm) (i k : ℕ) : (s.subFree i k).blocks = s.blocks :=
  blocks_congr (s.static_subFree i k).bits fun i' _ j _ => s.bit_subFree i k i' j

/-- Reading a bit inside its level. -/
theorem Sound.touch {s : Pmm} (h : s.Sound) {i j : ℕ} (hi : i < 7) (hj : j < s.bits i) :
    s.Leads (s.touch i j) s.blocks := by
  refine ⟨⟨?_, h.free_eq, ?_, h.no_underflow⟩, rfl, ⟨fun _ => rfl, fun _ => rfl, rfl, rfl, rfl,
    rfl⟩, rfl⟩
  · exact ⟨h.layout.halves, h.layout.adjacent, h.layout.small⟩
  · intro a ha
    rcases List.mem_cons.mp ha with rfl | ha
    · exact ⟨hi, hj⟩
    · exact h.log_lt a ha

/-- An access inside its level keeps the record of accesses in order. -/
theorem Sound.log_lt_cons {s : Pmm} (h : s.Sound) {i j : ℕ} (hi : i < 7) (hj : j < s.bits i) :
    ∀ a ∈ (i, j) :: s.log, a.1 < 7 ∧ a.2 < s.bits a.1 := by
  intro a ha
  rcases List.mem_cons.mp ha with rfl | ha
  · exact ⟨hi, hj⟩
  · exact h.log_lt a ha

/-- **Freeing a block**: clear its bit and count it. -/
theorem Sound.release {s : Pmm} (h : s.Sound) {i j : ℕ} (hi : i < 7) (hj : j < s.bits i)
    (hfree : (i, j) ∉ s.blocks) :
    s.Leads ((s.clearBit i j).addFree i 1) (insert (i, j) s.blocks) := by
  have hst := (s.static_clearBit i j).trans ((s.clearBit i j).static_addFree i 1)
  have hnot : j ∉ s.clearBits i := fun hc => hfree (mem_blocks.mpr ⟨hi, hc⟩)
  refine ⟨⟨h.layout.static hst, ?_, ?_, h.no_underflow⟩, ?_, hst, rfl⟩
  · intro i' hi'
    rw [(bitmaps_addFree _ i 1 i').2.2, clearBits_addFree, clearBits_clearBit h.layout hi hj hi']
    split
    · have h1 : ((s.clearBit i j).bitmaps i).free = (s.clearBits i).card := h.free_eq i hi
      have h2 := h.layout.card_clearBits_lt hi
      rw [Finset.card_insert_of_notMem hnot, h1, add64_eq (by omega)]
    · exact h.free_eq i' hi'
  · intro a ha
    rw [hst.bits]
    exact h.log_lt_cons hi hj a ha
  · rw [blocks_addFree, blocks_clearBit h.layout hi hj]

/-- **Taking a block**: set its bit and count it off. -/
theorem Sound.occupy {s : Pmm} (h : s.Sound) {i j : ℕ} (hfree : (i, j) ∈ s.blocks) :
    s.Leads ((s.setBit i j).subFree i 1) (s.blocks.erase (i, j)) := by
  obtain ⟨hi, hj⟩ := lt_bits_of_mem_blocks hfree
  have hst := (s.static_setBit i j).trans ((s.setBit i j).static_subFree i 1)
  have hmem : j ∈ s.clearBits i := (mem_blocks.mp hfree).2
  have hpos : 0 < (s.clearBits i).card := Finset.card_pos.mpr ⟨j, hmem⟩
  have hfr : ((s.setBit i j).bitmaps i).free = (s.clearBits i).card := h.free_eq i hi
  refine ⟨⟨h.layout.static hst, ?_, ?_, ?_⟩, ?_, hst, rfl⟩
  · intro i' hi'
    rw [(bitmaps_subFree _ i 1 i').2.2, clearBits_subFree, clearBits_setBit h.layout hi hj hi']
    split
    · have h2 := h.layout.card_clearBits_lt hi
      rw [Finset.card_erase_of_mem hmem, hfr, sub64_eq (by omega) (by omega)]
    · exact h.free_eq i' hi'
  · intro a ha
    rw [hst.bits]
    exact h.log_lt_cons hi hj a ha
  · change (s.underflow || decide (((s.setBit i j).bitmaps i).free < 1)) = false
    rw [h.no_underflow, hfr]
    simp only [Bool.false_or, decide_eq_false_iff_not]
    omega
  · rw [blocks_subFree, blocks_setBit h.layout hi hj]

/-- **Taking two blocks** of one level, with one update of the counter. -/
theorem Sound.occupy_two {s : Pmm} (h : s.Sound) {i j k : ℕ} (hj : (i, j) ∈ s.blocks)
    (hk : (i, k) ∈ s.blocks) (hne : k ≠ j) :
    s.Leads (((s.setBit i j).setBit i k).subFree i 2)
      ((s.blocks.erase (i, j)).erase (i, k)) := by
  obtain ⟨hi, hjb⟩ := lt_bits_of_mem_blocks hj
  have hkb : k < s.bits i := (lt_bits_of_mem_blocks hk).2
  have hst₁ := s.static_setBit i j
  have hst₂ := hst₁.trans ((s.setBit i j).static_setBit i k)
  have hst := hst₂.trans (((s.setBit i j).setBit i k).static_subFree i 2)
  have hl₁ := h.layout.static hst₁
  have hmj : j ∈ s.clearBits i := (mem_blocks.mp hj).2
  have hmk : k ∈ (s.clearBits i).erase j :=
    Finset.mem_erase.mpr ⟨hne, (mem_blocks.mp hk).2⟩
  have hcj := Finset.card_erase_of_mem hmj
  have hck := Finset.card_erase_of_mem hmk
  have hpj : 0 < (s.clearBits i).card := Finset.card_pos.mpr ⟨j, hmj⟩
  have hpk : 0 < ((s.clearBits i).erase j).card := Finset.card_pos.mpr ⟨k, hmk⟩
  have hfr : (((s.setBit i j).setBit i k).bitmaps i).free = (s.clearBits i).card :=
    h.free_eq i hi
  refine ⟨⟨h.layout.static hst, ?_, ?_, ?_⟩, ?_, hst, rfl⟩
  · intro i' hi'
    rw [(bitmaps_subFree _ i 2 i').2.2, clearBits_subFree, clearBits_setBit hl₁ hi hkb hi',
      clearBits_setBit h.layout hi hjb hi', clearBits_setBit h.layout hi hjb hi, if_pos rfl]
    split
    · have h2 := h.layout.card_clearBits_lt hi
      rw [hck, hcj, hfr, sub64_eq (by omega) (by omega)]
      omega
    · exact h.free_eq i' hi'
  · intro a ha
    rw [hst.bits]
    rcases List.mem_cons.mp ha with rfl | ha
    · exact ⟨hi, hkb⟩
    · exact h.log_lt_cons hi hjb a ha
  · change (s.underflow || decide ((((s.setBit i j).setBit i k).bitmaps i).free < 2)) = false
    rw [h.no_underflow, hfr]
    simp only [Bool.false_or, decide_eq_false_iff_not]
    omega
  · rw [blocks_subFree, blocks_setBit hl₁ hi hkb, blocks_setBit h.layout hi hjb]

end Pmm

end AnglOS
