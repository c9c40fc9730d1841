import AnglOS.PmmInit

/-!
# The Tail of a Block

What `pmmPropagateDown` gives back, bit by bit and counter by counter, in any state whose levels are
stacked. The free blocks and the counters of the rest of the allocator play no part.

## Main results

* `pmmPropagateDown_spec` — the bits that are cleared are those of `Buddy.tail`;
* `pmmPropagateDown_tail` — from a subtree whose bits are set, the clear bits are the canonical
  decomposition of the pages after the first `pages`.
* `initPMM_stacked` — the levels are stacked after `initPMM`, whatever the memory map.
-/

namespace AnglOS

open Buddy Pmm

/-- The levels that `initPMM` sets up are stacked. -/
theorem stacked_initState (entries : List MemmapEntry) (m : Mem) (index : ℕ) (entry : MemmapEntry) :
    (initState entries m index entry).Stacked where
  halves i _ := by
    simp only [initState, initBitmaps_size, Nat.shiftRight_succ]
    omega
  adjacent _ _ := rfl

/-- **The levels are stacked after `initPMM`**, also where they do not halve exactly. -/
theorem initPMM_stacked {entries : List MemmapEntry} {m : Mem} {s : Pmm}
    (h : initPMM entries m = some s) : s.Stacked := by
  obtain ⟨index, entry, -, -, rfl⟩ := initPMM_eq_some h
  refine (stacked_initState entries m index entry).static ?_
  exact (((static_markPages _).trans (static_markParents _)).trans (unmarkChildren_log _).1).trans
    (static_countFreeMem _)

/-- The levels below have more than the children's bits. -/
theorem Pmm.Stacked.bits_succ {s : Pmm} (h : s.Stacked) {i : ℕ} (hi : i < 6) :
    2 * s.bits (i + 1) ≤ s.bits i := by
  have := h.halves i hi
  rw [Pmm.bits, Pmm.bits]
  omega

/-- **What the splitting does**: it clears the bits of the tail, adds one to the counter of each
level on which it cleared one, and changes nothing else. -/
theorem pmmPropagateDown_spec : ∀ (level : ℕ) {s : Pmm} {pages index : ℕ}, s.Stacked →
    level < 7 → index < s.bits level →
    s.Static (pmmPropagateDown s pages level index) ∧
      (∀ i < 7, ∀ k < s.bits i, (pmmPropagateDown s pages level index).bit i k =
        (!decide ((i, k) ∈ tail pages level index) && s.bit i k)) ∧
      (∀ i k, (i, k) ∈ tail pages level index →
        ((pmmPropagateDown s pages level index).bitmaps i).free = add64 (s.bitmaps i).free 1) ∧
      ∀ i, (∀ k, (i, k) ∉ tail pages level index) →
        ((pmmPropagateDown s pages level index).bitmaps i).free = (s.bitmaps i).free := by
  intro level
  induction level with
  | zero =>
      intro s pages index _ _ _
      exact ⟨Static.refl s, by simp [pmmPropagateDown, tail], by simp [tail],
        by simp [pmmPropagateDown]⟩
  | succ level ih =>
      intro s pages index hs hl hj
      have hbits := hs.bits_succ (i := level) (by omega)
      rw [pmmPropagateDown, tail, Nat.mul_comm index 2]
      split_ifs with h1 h2
      · exact ⟨Static.refl s, by simp, by simp, by simp⟩
      · obtain ⟨hstat, hbit, hone, hnone⟩ := @ih s pages (2 * index) hs (by omega) (by omega)
        set t := pmmPropagateDown s pages level (2 * index) with ht
        have hright : 2 * index + 1 < t.bits level := by rw [hstat.bits]; omega
        -- no block of the left half's tail is on this level
        have hlow : ∀ k, (level, k) ∉ tail pages level (2 * index) := fun k hk =>
          absurd (level_lt_of_mem_tail hk) (lt_irrefl _)
        have hfree := fun i => ((t.clearBit level (2 * index + 1)).bitmaps_addFree level 1 i).2.2
        refine ⟨hstat.trans ((static_clearBit _ _ _).trans (static_addFree _ _ _)),
          fun i hi k hk => ?_, fun i k hk => ?_, fun i hi => ?_⟩
        · rw [bit_addFree, bit_clearBit (hs.static hstat) (by omega) hright hi
            (by rw [hstat.bits]; exact hk), hbit i hi k hk]
          by_cases h : i = level ∧ k = 2 * index + 1 <;> simp [h]
        · rw [hfree i]
          rcases Finset.mem_insert.mp hk with heq | hk
          · rw [if_pos (Prod.mk.inj heq).1, (Prod.mk.inj heq).1]
            exact congrArg (add64 · 1) (hnone level hlow)
          · rw [if_neg (by rintro rfl; exact hlow k hk)]
            exact hone i k hk
        · have hne : i ≠ level := by
            rintro rfl
            exact hi _ (Finset.mem_insert_self _ _)
          rw [hfree i, if_neg hne]
          exact hnone i fun k hk => hi k (Finset.mem_insert_of_mem hk)
      · exact ih hs (by omega) (by omega)

/-- A block of the subtree below block `index` of level `level`. -/
def InSubtree (level index : ℕ) (b : Block) : Prop :=
  b.1 < level ∧ b.2 / 2 ^ (level - b.1) = index

/-- The descendants of a block that is there are there too. -/
theorem Pmm.Stacked.lt_bits_of_inSubtree {s : Pmm} (hs : s.Stacked) {level index l k : ℕ}
    (hlevel : level < 7) (hindex : index < s.bits level) (h : InSubtree level index (l, k)) :
    k < s.bits l := by
  obtain ⟨hl, hk⟩ := h
  have hmul : ∀ d, l + d ≤ 6 → 2 ^ d * s.bits (l + d) ≤ s.bits l := by
    intro d
    induction d with
    | zero => simp
    | succ d ih =>
      intro hd
      have h1 := ih (by omega)
      have h2 := hs.bits_succ (i := l + d) (by omega)
      calc 2 ^ (d + 1) * s.bits (l + (d + 1)) = 2 ^ d * (2 * s.bits (l + d + 1)) := by
            rw [pow_succ]; ring_nf
        _ ≤ 2 ^ d * s.bits (l + d) := Nat.mul_le_mul_left _ h2
        _ ≤ s.bits l := h1
  have hlev := hmul (level - l) (by simp at hl; omega)
  rw [show l + (level - l) = level by simp at hl; omega] at hlev
  refine lt_of_lt_of_le ?_ hlev
  rw [Nat.mul_comm, ← Nat.div_lt_iff_lt_mul (Nat.two_pow_pos _)]
  exact hk ▸ hindex

/-- **`pmmPropagateDown` returns exactly the unused tail.** If the bits of the subtree below a block
are set, then afterwards its clear bits are those of a set of blocks which covers exactly the pages
after the first `pages`, each once, with at most one block on each level and so no two buddies.
The counter of each level has grown by the number of these blocks there, and no other bit has
changed. -/
theorem pmmPropagateDown_tail {s : Pmm} {pages level index : ℕ} (hs : s.Stacked)
    (hlevel : level ≤ 6)
    (hindex : index < s.bits level) (hpages : 1 ≤ pages)
    (hset : ∀ l k, InSubtree level index (l, k) → s.bit l k = true) :
    ∃ B : Finset Block,
      (∀ b ∈ B, InSubtree level index b) ∧
      (∀ l k, InSubtree level index (l, k) →
        ((pmmPropagateDown s pages level index).bit l k = false ↔ (l, k) ∈ B)) ∧
      cover B = Finset.Ico (index * 2 ^ level + pages) ((index + 1) * 2 ^ level) ∧
      Apart B ∧
      (∀ l k k', (l, k) ∈ B → (l, k') ∈ B → k = k') ∧
      Buddy.Maximal 7 B ∧
      (∀ l, (s.bitmaps l).free < 2 ^ 64 →
        ((pmmPropagateDown s pages level index).bitmaps l).free =
          add64 (s.bitmaps l).free (B.filter fun b => b.1 = l).card) ∧
      ∀ l < 7, ∀ k < s.bits l, ¬InSubtree level index (l, k) →
        (pmmPropagateDown s pages level index).bit l k = s.bit l k := by
  obtain ⟨-, hbit, hone, hnone⟩ :=
    @pmmPropagateDown_spec level s pages index hs (by omega) hindex
  have hsub : ∀ b ∈ tail pages level index, InSubtree level index b := fun b hb =>
    ⟨level_lt_of_mem_tail hb, ancestor_of_mem_tail hb⟩
  refine ⟨tail pages level index, hsub, fun l k h => ?_, cover_tail level hpages,
    apart_tail level hpages, fun l k k' => eq_of_mem_tail, tail_maximal 7 level, fun l hl => ?_,
    fun l hl k hk h => ?_⟩
  · have hl : l < level := h.1
    rw [hbit l (by omega) k (hs.lt_bits_of_inSubtree (by omega) hindex h), hset l k h]
    simp
  · by_cases hex : ∃ k, (l, k) ∈ tail pages level index
    · obtain ⟨k, hk⟩ := hex
      have hcard : (tail pages level index).filter (fun b => b.1 = l) = {(l, k)} := by
        ext ⟨l', k'⟩
        rw [Finset.mem_filter, Finset.mem_singleton, Prod.mk.injEq]
        constructor
        · rintro ⟨h', rfl⟩
          exact ⟨rfl, eq_of_mem_tail h' hk⟩
        · rintro ⟨rfl, rfl⟩
          exact ⟨hk, rfl⟩
      rw [hcard, Finset.card_singleton, hone l k hk]
    · have hcard : (tail pages level index).filter (fun b => b.1 = l) = ∅ := by
        refine Finset.filter_eq_empty_iff.mpr ?_
        rintro ⟨l', k'⟩ h' rfl
        exact hex ⟨k', h'⟩
      rw [hcard, Finset.card_empty, add64_eq (by omega), Nat.add_zero,
        hnone l fun k hk => hex ⟨k, hk⟩]
  · rw [hbit l hl k hk, decide_eq_false fun h' => h (hsub _ h')]
    rfl

/-- Levels of 512 pages with every bit set. -/
def fullPmm : Pmm where
  mmapEntries := []
  memSize := 512 * pageSize
  bitmapSize := 127
  bitmapBase := 0
  freeMem := 0
  bitmaps := initBitmaps 0 64
  mem := fun _ => 0xFF
  log := []
  underflow := false

theorem fullPmm_stacked : fullPmm.Stacked where
  halves i _ := by
    simp only [fullPmm, initBitmaps_size, Nat.shiftRight_succ]
    omega
  adjacent _ _ := rfl

theorem fullPmm_bit (i j : ℕ) : fullPmm.bit i j = true :=
  pmmCheckBit_of_filled rfl

/-- Five pages of the fourth block of 64: the tail is one block of one page, and one each of 2, 8,
16 and 32. -/
theorem pmmPropagateDown_tail_five : ∃ B : Finset Block,
    cover B = Finset.Ico 197 256 ∧ ∀ l k, InSubtree 6 3 (l, k) →
      ((pmmPropagateDown fullPmm 5 6 3).bit l k = false ↔ (l, k) ∈ B) := by
  obtain ⟨B, -, hbit, hcover, -⟩ := @pmmPropagateDown_tail fullPmm 5 6 3
    fullPmm_stacked le_rfl (by decide) (by norm_num) fun l k _ => fullPmm_bit l k
  exact ⟨B, hcover, hbit⟩

end AnglOS
