import AnglOS.PmmBlocks
import Mathlib.Data.Nat.Log

/-!
# What `pmalloc` and `pfree` Do to the Free Blocks

The simulation of the allocator by operations on sets of buddy blocks, one lemma for each
function of `pmm.c`:

* `pmmPropagateDown_leads` — adds the blocks `tail pages level index`;
* `findClear_spec` — finds the first clear bit of a level or shows that there is none;
* `takeBlock_spec` — removes a block and adds its tail;
* `coalescePair_leads`, `coalesce_leads` — merge one pair, merge upwards;
* `pmalloc_spec`, `pfree_spec` — the two entry points.
-/

namespace AnglOS

open Buddy

namespace Pmm

/-- The state up to its record of accesses. -/
def SameButLog (s s' : Pmm) : Prop :=
  s' = { s with log := s'.log }

theorem sameButLog_touch (s : Pmm) (i j : ℕ) : s.SameButLog (s.touch i j) := rfl

theorem SameButLog.trans {s s₁ s₂ : Pmm} (h₁ : s.SameButLog s₁) (h₂ : s₁.SameButLog s₂) :
    s.SameButLog s₂ := by
  rw [SameButLog] at *
  rw [h₂, h₁]

theorem SameButLog.blocks_eq {s s' : Pmm} (h : s.SameButLog s') : s'.blocks = s.blocks := by
  rw [h]
  rfl

theorem SameButLog.static {s s' : Pmm} (h : s.SameButLog s') : s.Static s' := by
  rw [h]
  exact ⟨fun _ => rfl, fun _ => rfl, rfl, rfl, rfl, rfl⟩

theorem SameButLog.freeMem_eq {s s' : Pmm} (h : s.SameButLog s') : s'.freeMem = s.freeMem := by
  rw [h]

theorem SameButLog.bit_eq {s s' : Pmm} (h : s.SameButLog s') (i j : ℕ) :
    s'.bit i j = s.bit i j := by
  rw [h]
  rfl

theorem static_setFreeMem (s : Pmm) (n : ℕ) : s.Static { s with freeMem := n } :=
  ⟨fun _ => rfl, fun _ => rfl, rfl, rfl, rfl, rfl⟩

theorem log_setFreeMem (s : Pmm) (n : ℕ) : { s with freeMem := n }.log = s.log := rfl

/-- The free memory counter plays no part in soundness, the static part, and the free
blocks. -/
theorem Leads.setFreeMem {s s' : Pmm} {B : Finset Block} (h : s.Leads s' B) (n : ℕ) :
    { s' with freeMem := n }.Sound ∧ s.Static { s' with freeMem := n } ∧
      { s' with freeMem := n }.blocks = B := by
  have hs := h.sound
  refine ⟨⟨⟨hs.layout.halves, hs.layout.adjacent, hs.layout.small⟩, hs.free_eq, hs.log_lt,
    hs.no_underflow⟩, h.static.trans (static_setFreeMem s' n), ?_⟩
  rw [← h.blocks_eq]
  exact blocks_congr (fun _ => rfl) fun _ _ _ _ => rfl

end Pmm

open Pmm

/-! ### Splitting -/

/-- `pmmPropagateDown` gives back the tail of a block that is not free. -/
theorem pmmPropagateDown_leads : ∀ (level : ℕ) {s : Pmm} {pages index : ℕ}, s.Sound →
    level < 7 → index < s.bits level → 1 ≤ pages →
    Disjoint (Buddy.pages (level, index)) (cover s.blocks) →
    s.Leads (pmmPropagateDown s pages level index) (s.blocks ∪ tail pages level index) := by
  intro level
  induction level with
  | zero =>
      intro s pages index hs _ _ _ _
      simpa [pmmPropagateDown, tail] using Leads.refl hs
  | succ level ih =>
      intro s pages index hs hl hj hp hd
      have hbits := hs.layout.bits_succ (i := level) (by omega)
      have hleft : Buddy.pages (level, 2 * index) ⊆ Buddy.pages (level + 1, index) :=
        fun q hq => mem_pages_succ.mpr (Or.inl hq)
      have hright : Buddy.pages (level, 2 * index + 1) ⊆ Buddy.pages (level + 1, index) :=
        fun q hq => mem_pages_succ.mpr (Or.inr hq)
      rw [pmmPropagateDown, tail, Nat.mul_comm index 2]
      split_ifs with h1 h2
      · simpa using Leads.refl hs
      · have hstep := ih hs (by omega) (show 2 * index < s.bits level by omega) hp
          (hd.mono_left hleft)
        have hnot : (level, 2 * index + 1) ∉
            (pmmPropagateDown s pages level (2 * index)).blocks := by
          rw [hstep.blocks_eq, Finset.mem_union]
          rintro (hm | hm)
          · have hq := first_mem_pages level (2 * index + 1)
            exact Finset.disjoint_left.mp hd (hright hq) (mem_cover.mpr ⟨_, hm, hq⟩)
          · exact absurd (level_lt_of_mem_tail hm) (lt_irrefl _)
        have hrel := hstep.sound.release (by omega)
          (by rw [hstep.static.bits]; omega) hnot
        rw [hstep.blocks_eq, ← Finset.union_insert] at hrel
        exact hstep.trans hrel
      · exact ih hs (by omega) (by omega) (by omega) (hd.mono_left hright)

/-! ### Searching -/

/-- The search of a level reads bits inside the level only; it returns a clear bit, or
shows that the bits it looked at are set. -/
theorem findClear_spec {i : ℕ} (hi : i < 7) : ∀ (r j : ℕ) {s : Pmm}, s.Sound →
    j + r ≤ s.bits i → (findClear i r j s).2.Sound ∧ s.SameButLog (findClear i r j s).2 ∧
      match (findClear i r j s).1 with
      | some k => (i, k) ∈ s.blocks
      | none => ∀ k, j ≤ k → k < j + r → s.bit i k = true := by
  intro r
  induction r with
  | zero =>
      intro j s hs _
      exact ⟨hs, rfl, fun k h1 h2 => by omega⟩
  | succ r ih =>
      intro j s hs hj
      have ht := hs.touch hi (show j < s.bits i by omega)
      rw [findClear, checkBit]
      cases hb : s.bit i j with
      | true =>
        obtain ⟨h1, h2, h3⟩ := ih (j + 1) ht.sound (by rw [ht.static.bits]; omega)
        refine ⟨h1, (sameButLog_touch s i j).trans h2, ?_⟩
        revert h3
        cases (findClear i r (j + 1) (s.touch i j)).1 with
        | some k => intro h3; exact ht.blocks_eq ▸ h3
        | none =>
            intro h3 k hk1 hk2
            rcases Nat.eq_or_lt_of_le hk1 with rfl | hlt
            · exact hb
            · exact h3 k hlt (by omega)
      | false =>
        exact ⟨ht.sound, rfl, mem_blocks.mpr ⟨hi, mem_clearBits.mpr ⟨by omega, hb⟩⟩⟩

/-! ### Taking a block -/

/-- The branch that splits a clear parent is not taken, because the parent of a free block
is not free. -/
theorem splitParent_leads {s : Pmm} (hs : s.Sound) {i j : ℕ} (hi : i < 7) (hj : j < s.bits i)
    (hpar : (i + 1, j / 2) ∉ s.blocks) : s.Leads (splitParent i j s) s.blocks := by
  rw [splitParent]
  split_ifs with h6
  · have hi6 : i < 6 := by simp only [numBitmaps] at h6; omega
    have hbits := hs.layout.bits_succ hi6
    have hj2 : j / 2 < s.bits (i + 1) := by omega
    rw [checkBit]
    cases hb : s.bit (i + 1) (j / 2) with
    | true => exact hs.touch (by omega) hj2
    | false =>
        exact absurd (mem_blocks.mpr ⟨by omega, mem_clearBits.mpr ⟨hj2, hb⟩⟩) hpar
  · exact Leads.refl hs

/-- What `pmalloc` does with a free block: the block goes, its tail comes. -/
theorem takeBlock_spec {s : Pmm} (hs : s.Sound) (ha : Apart s.blocks) {pages i j : ℕ}
    (hp : 1 ≤ pages) (hf : (i, j) ∈ s.blocks) :
    (takeBlock s pages i j).Sound ∧ s.Static (takeBlock s pages i j) ∧
      (takeBlock s pages i j).blocks = s.blocks.erase (i, j) ∪ tail pages i j ∧
      (takeBlock s pages i j).freeMem = sub64 s.freeMem (pages * pageSize) := by
  obtain ⟨hi, hj⟩ := lt_bits_of_mem_blocks hf
  have hocc := hs.occupy hf
  have hpar : (i + 1, j / 2) ∉ ((s.setBit i j).subFree i 1).blocks := by
    rw [hocc.blocks_eq]
    exact fun h => ha.parent_notMem hf (Finset.mem_of_mem_erase h)
  have hsplit := splitParent_leads hocc.sound hi (by rw [hocc.static.bits]; exact hj) hpar
  have hlead := hocc.trans hsplit
  have hd : Disjoint (Buddy.pages (i, j))
      (cover (splitParent i j ((s.setBit i j).subFree i 1)).blocks) := by
    rw [hsplit.blocks_eq, hocc.blocks_eq, cover_erase ha hf]
    exact Finset.disjoint_sdiff
  have hprop := pmmPropagateDown_leads i hlead.sound hi (by rw [hlead.static.bits]; exact hj)
    hp hd
  rw [hsplit.blocks_eq, hocc.blocks_eq] at hprop
  have hall := hlead.trans hprop
  obtain ⟨h1, h2, h3⟩ := hall.setFreeMem (sub64 s.freeMem (pages * pageSize))
  rw [takeBlock, hall.freeMem_eq]
  exact ⟨h1, h2, h3, rfl⟩

/-! ### `pmalloc` -/

/-- The level at which `pmalloc` starts to search. -/
def startLevel (pages : ℕ) : ℕ :=
  countShifts 64 ((highestBit 64 (pages - 1) <<< 1) % 2 ^ 64) 0

/-- For the sizes that `pmalloc` serves, the search starts at the smallest level whose
blocks are large enough. -/
theorem startLevel_eq {n : ℕ} (h1 : 1 ≤ n) (h2 : n ≤ 64) :
    startLevel n = Nat.clog 2 n ∧ ¬1 <<< (numBitmaps - 1) <
      (highestBit 64 (n - 1) <<< 1) % 2 ^ 64 := by
  have h : ∀ m ∈ Finset.Icc 1 64, m ≤ 2 ^ startLevel m ∧ 2 ^ startLevel m < 2 * m ∧
      ¬1 <<< (numBitmaps - 1) < (highestBit 64 (m - 1) <<< 1) % 2 ^ 64 := by decide +kernel
  obtain ⟨hlo, hhi, hle⟩ := h n (Finset.mem_Icc.mpr ⟨h1, h2⟩)
  refine ⟨le_antisymm ?_ (Nat.clog_le_of_le_pow hlo), hle⟩
  by_contra hc
  have hpow := Nat.le_pow_clog (b := 2) (by omega) n
  have : 2 ^ (Nat.clog 2 n + 1) ≤ 2 ^ startLevel n :=
    Nat.pow_le_pow_right (by omega) (by omega)
  rw [pow_succ] at this
  omega

/-- What the search over the levels from `i` on does: either no level from `i` on has a
clear bit and nothing but the record of accesses changes, or a free block of such a level
is taken. -/
theorem searchLevels_spec {pages : ℕ} (hp : 1 ≤ pages) : ∀ (r i : ℕ) {s : Pmm}, s.Sound →
    Apart s.blocks → i + r = 7 ∨ r = 0 →
    ((searchLevels pages r i s).1 = 0 ∧ (searchLevels pages r i s).2.Sound ∧
        s.SameButLog (searchLevels pages r i s).2 ∧
        ∀ k, i ≤ k → k < i + r → s.clearBits k = ∅) ∨
      ∃ k j, i ≤ k ∧ (k, j) ∈ s.blocks ∧
        (searchLevels pages r i s).1 = j * 2 ^ k * pageSize ∧
        (searchLevels pages r i s).2.Sound ∧ s.Static (searchLevels pages r i s).2 ∧
        (searchLevels pages r i s).2.blocks = s.blocks.erase (k, j) ∪ tail pages k j ∧
        (searchLevels pages r i s).2.freeMem =
          sub64 s.freeMem (pages * pageSize) := by
  intro r
  induction r with
  | zero =>
      intro i s hs _ _
      exact Or.inl ⟨rfl, hs, rfl, fun k h1 h2 => by omega⟩
  | succ r ih =>
      intro i s hs ha hir
      have hi : i < 7 := by omega
      obtain ⟨hfs, hsame, hfound⟩ := findClear_spec hi (s.bits i) 0 hs (by omega)
      rw [searchLevels]
      revert hfs hsame hfound
      rcases findClear i (s.bits i) 0 s with ⟨o, s'⟩
      intro hfs hsame hfound
      have ha' : Apart s'.blocks := by rw [hsame.blocks_eq]; exact ha
      cases o with
      | some j =>
          simp only at hfs hsame hfound ⊢
          rw [← hsame.blocks_eq] at hfound
          obtain ⟨h1, h2, h3, h4⟩ := takeBlock_spec hfs ha' hp hfound
          refine Or.inr ⟨i, j, le_refl i, hsame.blocks_eq ▸ hfound, ?_, h1,
            hsame.static.trans h2, hsame.blocks_eq ▸ h3, hsame.freeMem_eq ▸ h4⟩
          rw [Nat.shiftLeft_eq]
          ring
      | none =>
          simp only at hfs hsame hfound ⊢
          have hempty : s.clearBits i = ∅ := by
            ext k
            rw [mem_clearBits]
            refine ⟨fun h => ?_, fun h => absurd h (Finset.notMem_empty k)⟩
            rw [hfound k (Nat.zero_le k) (by omega)] at h
            simp at h
          rcases ih (i + 1) hfs ha' (by omega) with
            ⟨h1, h2, h3, h4⟩ | ⟨k, j, h1, h2, h3, h4, h5, h6, h7⟩
          · refine Or.inl ⟨h1, h2, hsame.trans h3, fun k hk1 hk2 => ?_⟩
            rcases Nat.eq_or_lt_of_le hk1 with rfl | hlt
            · exact hempty
            · have := h4 k hlt (by omega)
              rw [← this]
              ext x
              rw [mem_clearBits, mem_clearBits, hsame.bit_eq, hsame.static.bits]
          · exact Or.inr ⟨k, j, by omega, hsame.blocks_eq ▸ h2, h3, h4, hsame.static.trans h5,
              hsame.blocks_eq ▸ h6, hsame.freeMem_eq ▸ h7⟩

theorem pmalloc_eq (s : Pmm) (pages : ℕ) :
    pmalloc s pages =
      if pages = 0 then (0, s)
      else if 1 <<< (numBitmaps - 1) < (highestBit 64 (pages - 1) <<< 1) % 2 ^ 64 then (0, s)
      else searchLevels pages (numBitmaps - startLevel pages) (startLevel pages) s := rfl

/-- **`pmalloc`**: it fails and changes nothing but the record of accesses, or it takes a
free block, keeps the first `pages` pages of it, and returns their address. For the sizes
it serves, a failure means that no block is large enough, and the block taken is. -/
theorem pmalloc_spec {s : Pmm} (hs : s.Sound) (ha : Apart s.blocks) (pages : ℕ) :
    ((pmalloc s pages).1 = 0 ∧ (pmalloc s pages).2.Sound ∧
        s.SameButLog (pmalloc s pages).2 ∧ (1 ≤ pages → pages ≤ 64 →
          ∀ k, Nat.clog 2 pages ≤ k → k < 7 → s.clearBits k = ∅)) ∨
      ∃ k j, 1 ≤ pages ∧ (pages ≤ 64 → Nat.clog 2 pages ≤ k) ∧ (k, j) ∈ s.blocks ∧
        (pmalloc s pages).1 = j * 2 ^ k * pageSize ∧
        (pmalloc s pages).2.Sound ∧ s.Static (pmalloc s pages).2 ∧
        (pmalloc s pages).2.blocks = s.blocks.erase (k, j) ∪ tail pages k j ∧
        (pmalloc s pages).2.freeMem = sub64 s.freeMem (pages * pageSize) := by
  rw [pmalloc_eq]
  split_ifs with h0 h64
  · exact Or.inl ⟨rfl, hs, rfl, fun h => by omega⟩
  · exact Or.inl ⟨rfl, hs, rfl, fun h1 h2 => absurd h64 (startLevel_eq h1 h2).2⟩
  · rcases searchLevels_spec (show 1 ≤ pages by omega) (numBitmaps - startLevel pages)
        (startLevel pages) hs ha (by simp only [numBitmaps]; omega) with
      ⟨h1, h2, h3, h4⟩ | ⟨k, j, h1, h2⟩
    · refine Or.inl ⟨h1, h2, h3, fun hp1 hp2 k hk1 hk2 => h4 k ?_ ?_⟩
      · rw [(startLevel_eq hp1 hp2).1]
        exact hk1
      · simp only [numBitmaps]
        omega
    · refine Or.inr ⟨k, j, by omega, fun hp2 => ?_, h2⟩
      rw [← (startLevel_eq (by omega) hp2).1]
      exact h1

/-! ### Coalescing -/

/-- The body of the loops of `coalesce` merges one pair of buddies. -/
theorem coalescePair_leads {s : Pmm} (hs : s.Sound) (ha : Apart s.blocks) {level k : ℕ}
    (hl : level < 6) (hk : k < s.bits (level + 1)) :
    s.Leads (coalescePair level (2 * k) (2 * k + 1) k s) (merge s.blocks level k) := by
  have hbits := hs.layout.bits_succ hl
  have htl := hs.touch (i := level) (j := 2 * k) (by omega) (by omega)
  have htr := htl.sound.touch (i := level) (j := 2 * k + 1) (by omega)
    (by rw [htl.static.bits]; omega)
  have hmem : ∀ j, j < s.bits level → ((level, j) ∈ s.blocks ↔ s.bit level j = false) := by
    intro j hj
    rw [mem_blocks, mem_clearBits]
    exact ⟨fun h => h.2.2, fun h => ⟨by omega, hj, h⟩⟩
  have hl2 := hmem (2 * k) (by omega)
  have hr2 := hmem (2 * k + 1) (by omega)
  rw [coalescePair, checkBit]
  cases hb : s.bit level (2 * k) with
  | true =>
      rw [merge, if_neg (by simp [hl2, hb])]
      exact htl
  | false =>
      simp only
      rw [checkBit]
      have hb' : (s.touch level (2 * k)).bit level (2 * k + 1) = s.bit level (2 * k + 1) := rfl
      rw [hb']
      cases hc : s.bit level (2 * k + 1) with
      | true =>
          rw [merge, if_neg (by simp [hr2, hc])]
          exact htl.trans (htl.blocks_eq ▸ htr)
      | false =>
          have hml : (level, 2 * k) ∈ s.blocks := hl2.mpr hb
          have hmr : (level, 2 * k + 1) ∈ s.blocks := hr2.mpr hc
          have hpar : (level + 1, k) ∉ s.blocks := by
            have := ha.parent_notMem hml
            rwa [show 2 * k / 2 = k by omega] at this
          have htouch := htl.trans htr
          rw [htl.blocks_eq] at htouch
          have hrel := htouch.sound.release (i := level + 1) (j := k) (by omega)
            (by rw [htouch.static.bits]; exact hk) (by rw [htouch.blocks_eq]; exact hpar)
          rw [htouch.blocks_eq] at hrel
          have hocc := hrel.sound.occupy_two (i := level) (j := 2 * k) (k := 2 * k + 1)
            (by rw [hrel.blocks_eq]; exact Finset.mem_insert_of_mem hml)
            (by rw [hrel.blocks_eq]; exact Finset.mem_insert_of_mem hmr) (by omega)
          rw [hrel.blocks_eq] at hocc
          rw [merge, if_pos ⟨hml, hmr⟩]
          exact (htouch.trans hrel).trans hocc

/-- The loops of `coalesce` merge a run of pairs. -/
theorem coalesceLoop_leads {s : Pmm} (hs : s.Sound) (ha : Apart s.blocks) {level k : ℕ}
    (hl : level < 6) {body : ℕ → Pmm → Pmm}
    (hbody : ∀ c, body c = coalescePair level (2 * (k + c)) (2 * (k + c) + 1) (k + c)) :
    ∀ (c : ℕ), k + c ≤ s.bits (level + 1) →
      s.Leads (loop body c s) (mergeRange s.blocks level k c) := by
  intro c hc
  refine loop_invariant (fun n s' => s.Leads s' (mergeRange s.blocks level k n))
    (Leads.refl hs) fun j hj s' hs' => ?_
  have ha' : Apart s'.blocks := by rw [hs'.blocks_eq]; exact ha.mergeRange _ _ _
  have hpair := coalescePair_leads hs'.sound ha' (k := k + j) hl
    (by rw [hs'.static.bits]; omega)
  rw [hs'.blocks_eq, ← mergeRange_succ] at hpair
  rw [hbody]
  exact hs'.trans hpair

/-- **`coalesce`** merges upwards. -/
theorem coalesce_leads : ∀ (fuel : ℕ) {level pages index : ℕ} {s : Pmm}, s.Sound →
    Apart s.blocks → level + fuel = 6 → index + pages ≤ s.bits level →
    s.Leads (coalesce fuel pages level index s) (mergeUp fuel s.blocks pages level index) := by
  intro fuel
  induction fuel with
  | zero => intro level pages index s hs _ _ _; exact Leads.refl hs
  | succ fuel ih =>
      intro level pages index s hs ha hl hb
      have hbits := hs.layout.bits_succ (i := level) (by omega)
      -- both loops merge the pairs from `index / 2` on; the step that follows is the same
      have hstep : ∀ body : ℕ → Pmm → Pmm, (∀ c, body c = coalescePair level
          (2 * (index / 2 + c)) (2 * (index / 2 + c) + 1) (index / 2 + c)) →
          s.Leads (if level + 1 ≠ numBitmaps - 1 then
              coalesce fuel (pages / 2) (level + 1) (index / 2) (loop body ((pages + 1) / 2) s)
            else loop body ((pages + 1) / 2) s)
          (mergeUp (fuel + 1) s.blocks pages level index) := by
        intro body hbody
        have hloop := coalesceLoop_leads hs ha (by omega) hbody ((pages + 1) / 2) (by omega)
        rw [mergeUp]
        split_ifs with h6
        · have ha' : Apart (loop body ((pages + 1) / 2) s).blocks := by
            rw [hloop.blocks_eq]
            exact ha.mergeRange _ _ _
          have hrec := ih hloop.sound ha' (show level + 1 + fuel = 6 by omega)
            (show index / 2 + pages / 2 ≤ bits _ (level + 1) by rw [hloop.static.bits]; omega)
          rw [hloop.blocks_eq] at hrec
          exact hloop.trans hrec
        · have hf : fuel = 0 := by simp only [numBitmaps] at h6; omega
          subst hf
          exact hloop
      rw [coalesce]
      split_ifs with heven h6 h6
      · have h := hstep (fun k => coalescePair level (index + 2 * k) (index + 2 * k + 1)
          ((index + 2 * k) / 2)) (fun c => by congr 1 <;> omega)
        rwa [if_pos h6] at h
      · have h := hstep (fun k => coalescePair level (index + 2 * k) (index + 2 * k + 1)
          ((index + 2 * k) / 2)) (fun c => by congr 1 <;> omega)
        rwa [if_neg h6] at h
      · have h := hstep (fun k => coalescePair level (index + 2 * k - 1) (index + 2 * k)
          ((index + 2 * k) / 2)) (fun c => by congr 1 <;> omega)
        rwa [if_pos h6] at h
      · have h := hstep (fun k => coalescePair level (index + 2 * k - 1) (index + 2 * k)
          ((index + 2 * k) / 2)) (fun c => by congr 1 <;> omega)
        rwa [if_neg h6] at h

/-! ### `pfree` -/

/-- The loop of `pfree` makes every page of the range a free block of level `0`. -/
theorem pfreeLoop_leads {s : Pmm} (hs : s.Sound) {index : ℕ} :
    ∀ (n : ℕ), index + n ≤ s.bits 0 → (∀ p ∈ Finset.Ico index (index + n), (0, p) ∉ s.blocks) →
      s.Leads (loop (fun k s => (s.clearBit 0 (index + k)).addFree 0 1) n s)
        (s.blocks ∪ (Finset.Ico index (index + n)).image (Prod.mk 0)) := by
  intro n hn hnot
  refine loop_invariant (fun k s' => s.Leads s'
    (s.blocks ∪ (Finset.Ico index (index + k)).image (Prod.mk 0))) ?_ fun k hk s' hs' => ?_
  · simpa using Leads.refl hs
  · have hnew : (0, index + k) ∉ s'.blocks := by
      rw [hs'.blocks_eq, Finset.mem_union]
      rintro (h | h)
      · exact hnot _ (Finset.mem_Ico.mpr ⟨by omega, by omega⟩) h
      · simp at h
    have hrel := hs'.sound.release (i := 0) (j := index + k) (by omega)
      (by rw [hs'.static.bits]; omega) hnew
    rw [hs'.blocks_eq, ← Finset.union_insert, ← Finset.image_insert] at hrel
    have hico : insert (index + k) (Finset.Ico index (index + k)) =
        Finset.Ico index (index + (k + 1)) := by
      ext p
      simp only [Finset.mem_insert, Finset.mem_Ico]
      omega
    rw [hico] at hrel
    exact hs'.trans hrel

/-- **`pfree`** of a range of pages that are not free: the pages become free blocks of level
`0`, which are then merged upwards. -/
theorem pfree_spec {s : Pmm} (hs : s.Sound) (ha : Apart s.blocks) {pptr pages : ℕ}
    (hnull : pptr ≠ 0) (hpages : pages ≠ 0) (hb : pptr / pageSize + pages ≤ s.bits 0)
    (hd : Disjoint (cover s.blocks) (Finset.Ico (pptr / pageSize) (pptr / pageSize + pages))) :
    (pfree s pptr pages).Sound ∧ s.Static (pfree s pptr pages) ∧
      (pfree s pptr pages).blocks = mergeUp 6 (s.blocks ∪
        (Finset.Ico (pptr / pageSize) (pptr / pageSize + pages)).image (Prod.mk 0)) pages 0
        (pptr / pageSize) ∧
      (pfree s pptr pages).freeMem = add64 s.freeMem (pages * pageSize) := by
  set index := pptr / pageSize with hidx
  have hnot : ∀ p ∈ Finset.Ico index (index + pages), (0, p) ∉ s.blocks := by
    intro p hp hmem
    have hpp : p ∈ Buddy.pages (0, p) := by rw [mem_pages]; simp
    exact Finset.disjoint_left.mp hd (mem_cover.mpr ⟨_, hmem, hpp⟩) hp
  have hloop := pfreeLoop_leads hs pages hb hnot
  have ha' : Apart (loop (fun k s => (s.clearBit 0 (index + k)).addFree 0 1) pages s).blocks := by
    rw [hloop.blocks_eq]
    exact apart_union_image ha hd
  have hco := coalesce_leads 6 hloop.sound ha' (show 0 + 6 = 6 from rfl)
    (show index + pages ≤ bits _ 0 by rw [hloop.static.bits]; exact hb)
  rw [hloop.blocks_eq] at hco
  have hall := hloop.trans hco
  obtain ⟨h1, h2, h3⟩ := hall.setFreeMem (add64 s.freeMem (pages * pageSize))
  rw [pfree, if_neg (by omega), ← hidx]
  simp only [numBitmaps, Nat.add_one_sub_one]
  rw [hall.freeMem_eq]
  exact ⟨h1, h2, h3, rfl⟩

/-! ### The static part of the state -/

/-- `coalesce` of one pair leaves the static part alone. -/
theorem static_coalescePair (level l r parent : ℕ) (s : Pmm) :
    s.Static (coalescePair level l r parent s) := by
  rcases hl : s.bit level l
  · rcases hr : (s.touch level l).bit level r
    · simp only [coalescePair, checkBit, hl, hr]
      exact ((((((static_touch s level l).trans (static_touch _ level r)).trans
        (static_clearBit _ _ _)).trans (static_addFree _ _ _)).trans
        (static_setBit _ _ _)).trans (static_setBit _ _ _)).trans (static_subFree _ _ _)
    · simp only [coalescePair, checkBit, hl, hr]
      exact (static_touch s level l).trans (static_touch _ level r)
  · simp only [coalescePair, checkBit, hl]
    exact static_touch s level l

theorem static_coalesceLoop (level : ℕ) (l r parent : ℕ → ℕ) (n : ℕ) (s : Pmm) :
    s.Static (loop (fun k => coalescePair level (l k) (r k) (parent k)) n s) :=
  loop_invariant (fun _ s' => s.Static s') (Static.refl s)
    fun _ _ _ h => h.trans (static_coalescePair _ _ _ _ _)

theorem static_coalesce (fuel pages level index : ℕ) (s : Pmm) :
    s.Static (coalesce fuel pages level index s) := by
  induction fuel generalizing pages level index s with
  | zero => exact Static.refl s
  | succ fuel ih =>
      unfold coalesce
      split_ifs
      · exact (static_coalesceLoop level (fun k => index + 2 * k) (fun k => index + 2 * k + 1)
          (fun k => (index + 2 * k) / 2) _ s).trans (ih _ _ _ _)
      · exact static_coalesceLoop level (fun k => index + 2 * k) (fun k => index + 2 * k + 1)
          (fun k => (index + 2 * k) / 2) _ s
      · exact (static_coalesceLoop level (fun k => index + 2 * k - 1) (fun k => index + 2 * k)
          (fun k => (index + 2 * k) / 2) _ s).trans (ih _ _ _ _)
      · exact static_coalesceLoop level (fun k => index + 2 * k - 1) (fun k => index + 2 * k)
          (fun k => (index + 2 * k) / 2) _ s

/-- `pfree` leaves the static part alone, whatever it frees. -/
theorem static_pfree (s : Pmm) (pptr pages : ℕ) : s.Static (pfree s pptr pages) := by
  unfold pfree
  split_ifs
  · exact Static.refl s
  · have hloop : s.Static (loop (fun k s => (s.clearBit 0 (pptr / pageSize + k)).addFree 0 1)
        pages s) :=
      loop_invariant (fun _ s' => s.Static s') (Static.refl s)
        fun _ _ _ h => (h.trans (static_clearBit _ _ _)).trans (static_addFree _ _ _)
    exact (hloop.trans (static_coalesce _ _ _ _ _)).trans (static_setFreeMem _ _)

end AnglOS
