import AnglOS.Paging
import AnglOS.Radix

/-!
# Page Tables as Trees

The tables below a top-level table as a radix tree, and what the mapping operations do to
it. A virtual page is named by bits 12 to 47 of its addresses, so by four indices; its
translation is the leaf entry that the walk over these indices arrives at.

* `frameOf_makeEntry` — entries give back the frame and the flags they were made from.
* `Supply` — the frames that were not issued yet are distinct and not free in the allocator;
  `pmallocBulk_spec` takes one of them.
* `Tree` — the tables below a root are unshared and already issued.
* `Grows` — what the walk down to a level-1 table does: tables may be entered, no leaf changes.

## Main results

* `Tree.write`, `Tree.frame` — what one written entry, and a write outside of the tables, do to a
  tree;
* `Tree.enter`, `Tree.descendTo` — a missing table is entered, and the walk to the level-1 table of
  a page: the tree stays one and no leaf changes.
-/

namespace AnglOS

open Pmm

/-! ### Entries -/

/-- The bits of the frame mask. -/
theorem getLsbD_frameMask {i : ℕ} (hi : i < 64) :
    frameMask.getLsbD i = decide (12 ≤ i ∧ i < 52) := by
  have hall : ∀ i < 64, frameMask.getLsbD i = decide (12 ≤ i ∧ i < 52) := by decide
  exact hall i hi

/-- The bits of the offset mask. -/
theorem getLsbD_offsetMask {i : ℕ} (hi : i < 64) :
    (~~~0xFFF#64).getLsbD i = decide (12 ≤ i) := by
  have hall : ∀ i < 64, (~~~0xFFF#64).getLsbD i = decide (12 ≤ i) := by decide
  exact hall i hi

/-- Flags have no bit where an entry holds the frame. -/
def FlagBits (flags : BitVec 64) : Prop := flags &&& frameMask = 0

/-- The bits of flags. -/
theorem FlagBits.getLsbD {flags : BitVec 64} (h : FlagBits flags) {i : ℕ} (h12 : 12 ≤ i)
    (h52 : i < 52) : flags.getLsbD i = false := by
  have hi : (flags &&& frameMask).getLsbD i = false := by rw [h]; simp
  rw [BitVec.getLsbD_and, getLsbD_frameMask (by omega)] at hi
  simpa [h12, h52] using hi

/-- The bits of a page-aligned physical address. -/
theorem getLsbD_frame {f i : ℕ} (hal : f % pageSize = 0) (hlt : f < 2 ^ 52)
    (h : i < 12 ∨ 52 ≤ i) : (BitVec.ofNat 64 f).getLsbD i = false := by
  rw [BitVec.getLsbD_ofNat]
  rcases h with h | h
  · have hdvd : 2 ^ (i + 1) ∣ f := by
      refine (Nat.pow_dvd_pow 2 (show i + 1 ≤ 12 by omega)).trans ?_
      exact Nat.dvd_of_mod_eq_zero hal
    rw [Nat.testBit_eq_decide_div_mod_eq]
    obtain ⟨k, rfl⟩ := hdvd
    have : 2 ^ (i + 1) * k / 2 ^ i = 2 * k := by
      rw [pow_succ, mul_assoc, Nat.mul_div_cancel_left _ (Nat.two_pow_pos i)]
    simp [this]
  · rw [Nat.testBit_lt_two_pow (hlt.trans_le (Nat.pow_le_pow_right (by decide) h))]
    simp

/-- **An entry gives back its frame.** -/
theorem makeEntry_frame {f : ℕ} {flags : BitVec 64} (hal : f % pageSize = 0) (hlt : f < 2 ^ 52)
    (hflags : FlagBits flags) : makeEntry f flags &&& frameMask = BitVec.ofNat 64 f := by
  apply BitVec.eq_of_getLsbD_eq
  intro i hi
  rw [makeEntry, BitVec.getLsbD_and, BitVec.getLsbD_or, BitVec.getLsbD_and,
    getLsbD_frameMask hi, getLsbD_offsetMask hi]
  by_cases h : 12 ≤ i ∧ i < 52
  · simp [h, hflags.getLsbD h.1 h.2]
  · rw [getLsbD_frame hal hlt (by omega)]
    simp [h]

/-- The frame of an entry as an address. -/
theorem frameOf_makeEntry {f : ℕ} {flags : BitVec 64} (hal : f % pageSize = 0)
    (hlt : f < 2 ^ 52) (hflags : FlagBits flags) : frameOf (makeEntry f flags) = f := by
  rw [frameOf, makeEntry_frame hal hlt hflags, BitVec.toNat_ofNat, Nat.mod_eq_of_lt (by omega)]

/-- **An entry gives back its flags.** -/
theorem makeEntry_flags {f : ℕ} {flags : BitVec 64} (hal : f % pageSize = 0) (hlt : f < 2 ^ 52)
    (hflags : FlagBits flags) : makeEntry f flags &&& ~~~frameMask = flags := by
  apply BitVec.eq_of_getLsbD_eq
  intro i hi
  have hmask : (~~~frameMask).getLsbD i = !decide (12 ≤ i ∧ i < 52) := by
    rw [BitVec.getLsbD_not, getLsbD_frameMask hi, decide_eq_true hi, Bool.true_and]
  rw [makeEntry, BitVec.getLsbD_and, BitVec.getLsbD_or, BitVec.getLsbD_and, hmask,
    getLsbD_offsetMask hi]
  by_cases h : 12 ≤ i ∧ i < 52
  · simp [h, hflags.getLsbD h.1 h.2]
  · rw [getLsbD_frame hal hlt (by omega)]
    simp [h]

/-- An entry with the present flag is present. -/
theorem makeEntry_present {f : ℕ} {flags : BitVec 64} (hpres : flags &&& 1 = 1) :
    makeEntry f flags &&& 1 = 1 := by
  have hmask : ~~~0xFFF#64 &&& 1 = 0#64 := by decide
  rw [makeEntry, BitVec.and_or_distrib_right, BitVec.and_assoc, hmask, hpres, BitVec.and_zero,
    BitVec.zero_or]

/-- An entry with the present flag is not zero. -/
theorem makeEntry_ne_zero {f : ℕ} {flags : BitVec 64} (hpres : flags &&& 1 = 1) :
    makeEntry f flags ≠ 0 := by
  intro h
  have hbit := makeEntry_present (f := f) hpres
  rw [h] at hbit
  exact absurd hbit (by decide)

/-- Frames in entries are page-aligned. -/
theorem frameOf_mod (e : BitVec 64) : frameOf e % pageSize = 0 := by
  have h : (BitVec.ofNat 64 (frameOf e)) &&& 0xFFF#64 = 0 := by
    apply BitVec.eq_of_getLsbD_eq
    intro i hi
    rw [frameOf, BitVec.ofNat_toNat, BitVec.setWidth_eq, BitVec.getLsbD_and, BitVec.getLsbD_and,
      getLsbD_frameMask hi]
    have hoff : (0xFFF#64).getLsbD i = decide (i < 12) := by
      have hall : ∀ i < 64, (0xFFF#64).getLsbD i = decide (i < 12) := by decide
      exact hall i hi
    rw [hoff]
    by_cases h12 : i < 12
    · simp [h12, show ¬ 12 ≤ i by omega]
    · simp [h12]
  have hnat := congrArg BitVec.toNat h
  have hlt : frameOf e < 2 ^ 64 := (e &&& frameMask).isLt
  rw [BitVec.toNat_and, BitVec.toNat_ofNat, Nat.mod_eq_of_lt hlt] at hnat
  have hmod : frameOf e &&& (2 ^ 12 - 1) = frameOf e % 2 ^ 12 := Nat.and_two_pow_sub_one_eq_mod _ 12
  exact hmod.symm.trans hnat

/-! ### The supply of frames -/

/-- The frames that were not issued yet: those left in the bulk cache, of which the last slot
is never issued, and the free pages of the allocator. -/
def Paging.unissued (s : Paging) : Set ℕ :=
  {f | (∃ i, s.curr ≤ i ∧ i < 63 ∧ f = s.bulk i) ∨ ∃ p ∈ s.pmm.freePages, f = p * pageSize}

/-- The frames that were not issued yet are distinct 52-bit page addresses, and the allocator
is in order. -/
structure Supply (s : Paging) : Prop where
  /-- The allocator's counters and accesses are in order. -/
  sound : s.pmm.Sound
  /-- The allocator's free blocks are apart. -/
  apart : Buddy.Apart s.pmm.blocks
  /-- The cache index is a slot. -/
  curr_le : s.curr ≤ 63
  /-- No frame is in the cache twice. -/
  inj : ∀ i j, s.curr ≤ i → i < 63 → s.curr ≤ j → j < 63 → s.bulk i = s.bulk j → i = j
  /-- No frame of the cache is free in the allocator. -/
  cached : ∀ i, s.curr ≤ i → i < 63 → ∀ p ∈ s.pmm.freePages, s.bulk i ≠ p * pageSize
  /-- Frames are page-aligned. -/
  aligned : ∀ f ∈ s.unissued, f % pageSize = 0
  /-- Frames are 52-bit addresses. -/
  lt : ∀ f ∈ s.unissued, f < 2 ^ 52

/-- What no operation changes. -/
structure Paging.Kept (s s' : Paging) : Prop where
  /-- The static part of the allocator. -/
  pmm : s.pmm.Static s'.pmm
  /-- The active table. -/
  cr3 : s'.cr3 = s.cr3
  /-- The table of the boot processor. -/
  bspCr3 : s'.bspCr3 = s.bspCr3
  /-- The record only grows. -/
  log : s.log <+: s'.log

theorem Paging.Kept.refl (s : Paging) : s.Kept s :=
  ⟨Static.refl _, rfl, rfl, List.prefix_rfl⟩

theorem Paging.Kept.trans {s s₁ s₂ : Paging} (h₁ : s.Kept s₁) (h₂ : s₁.Kept s₂) : s.Kept s₂ :=
  ⟨h₁.pmm.trans h₂.pmm, h₂.cr3.trans h₁.cr3, h₂.bspCr3.trans h₁.bspCr3, h₁.log.trans h₂.log⟩

/-- The event reports no failure: the block was obtained, the table had only zero entries. -/
def PagingEvent.Good : PagingEvent → Prop
  | .block pptr => pptr ≠ 0
  | .table _ clean => clean = true
  | .data _ | .freed _ => True

/-- The event reports a block that was obtained. -/
def PagingEvent.Served : PagingEvent → Prop
  | .block pptr => pptr ≠ 0
  | .table .. | .data _ | .freed _ => True

theorem PagingEvent.Good.served {e : PagingEvent} (h : e.Good) : e.Served := by
  cases e with
  | block pptr => exact h
  | table pptr clean => exact trivial
  | data pptr => exact trivial
  | freed pptr => exact trivial

/-- The next frame does not need a refill of the cache, or the refill succeeds. -/
def Paging.RefillOk (s : Paging) : Prop :=
  s.curr + 1 = numAlloc → (pmalloc s.pmm numAlloc).1 ≠ 0

/-- A record without failure shows that the refill succeeded. -/
theorem refillOk_of_log {s : Paging} (h : ∀ e ∈ (pmallocBulk s).2.log, e.Served) :
    s.RefillOk := by
  intro hcurr
  exact h (.block (pmalloc s.pmm numAlloc).1) (by simp [pmallocBulk, hcurr, Paging.record])

/-- What the refill of the cache does. -/
theorem Supply.refill {s : Paging} (h : Supply s) (hok : (pmalloc s.pmm numAlloc).1 ≠ 0) :
    s.pmm.Static (pmalloc s.pmm numAlloc).2 ∧ (pmalloc s.pmm numAlloc).2.Sound ∧
      Buddy.Apart (pmalloc s.pmm numAlloc).2.blocks ∧
      ∃ g, (pmalloc s.pmm numAlloc).1 = g * pageSize ∧
        (∀ i < 64, g + i ∈ s.pmm.freePages) ∧
        ∀ p, p ∈ (pmalloc s.pmm numAlloc).2.freePages ↔
          p ∈ s.pmm.freePages ∧ (p < g ∨ g + 64 ≤ p) := by
  have hclient : (⟨s.pmm, ∅⟩ : Client).Ok := ⟨h.sound, h.apart, by simp⟩
  have hstep : Client.step (.pmalloc numAlloc) ⟨s.pmm, ∅⟩ _ := ⟨trivial, rfl⟩
  have hok' := hclient.step hstep
  refine ⟨(hclient.step_cases hstep).2.1, hok'.sound, hok'.apart, ?_⟩
  rcases pmalloc_freePages h.sound h.apart (n := numAlloc) (by decide) (by decide) with
    ⟨hz, -⟩ | ⟨-, hdvd, hsub, hfree, -⟩
  · exact absurd hz hok
  · have hdvd' : pageSize ∣ (pmalloc s.pmm numAlloc).1 := (Dvd.intro_left _ rfl).trans hdvd
    have hrange : ∀ p, p ∈ range (pmalloc s.pmm numAlloc).1 numAlloc ↔
        (pmalloc s.pmm numAlloc).1 / pageSize ≤ p ∧
          p < (pmalloc s.pmm numAlloc).1 / pageSize + 64 := fun p => Finset.mem_Ico
    refine ⟨(pmalloc s.pmm numAlloc).1 / pageSize, (Nat.div_mul_cancel hdvd').symm, ?_, ?_⟩
    · intro i hi
      exact hsub ((hrange _).mpr ⟨by omega, by omega⟩)
    · intro p
      rw [hfree, Finset.mem_sdiff, hrange]
      exact and_congr_right fun _ => by omega

/-- **`pmallocBulk`** issues a frame that was not issued yet. -/
theorem pmallocBulk_spec {s : Paging} (h : Supply s) (hok : s.RefillOk) :
    (pmallocBulk s).1 ∈ s.unissued ∧ Supply (pmallocBulk s).2 ∧
      (pmallocBulk s).2.unissued ⊆ s.unissued \ {(pmallocBulk s).1} ∧
      (pmallocBulk s).2.mem = s.mem ∧ s.Kept (pmallocBulk s).2 := by
  by_cases hcurr : s.curr + 1 = numAlloc
  · -- the cache is used up: the first frame of a new block is issued
    have hs : pmallocBulk s = ((pmalloc s.pmm numAlloc).1,
        { s.record (.block (pmalloc s.pmm numAlloc).1) with
          pmm := (pmalloc s.pmm numAlloc).2
          bulk := fun i => if i < numAlloc then (pmalloc s.pmm numAlloc).1 + i * pageSize
            else s.bulk i
          curr := 1 }) := by
      simp [pmallocBulk, hcurr]
    rw [hs]
    have hne : (pmalloc s.pmm numAlloc).1 ≠ 0 := hok hcurr
    obtain ⟨hstatic, hsound, hapart, g, hg, hfree, hfree'⟩ := h.refill hne
    have hbulk : ∀ i < 64, (if i < numAlloc then (pmalloc s.pmm numAlloc).1 + i * pageSize
        else s.bulk i) = (g + i) * pageSize := by
      intro i hi
      rw [if_pos hi, hg]
      ring
    have hsub : ∀ f, (∃ i, 1 ≤ i ∧ i < 63 ∧ f = (if i < numAlloc then
        (pmalloc s.pmm numAlloc).1 + i * pageSize else s.bulk i)) ∨
        (∃ p ∈ (pmalloc s.pmm numAlloc).2.freePages, f = p * pageSize) →
        f ∈ s.unissued ∧ f ≠ g * pageSize := by
      rintro f (⟨i, hi, hi', rfl⟩ | ⟨p, hp, rfl⟩)
      · rw [hbulk i (by omega)]
        refine ⟨Or.inr ⟨g + i, hfree i (by omega), rfl⟩, ?_⟩
        simp only [pageSize]
        omega
      · have hp' := (hfree' p).mp hp
        refine ⟨Or.inr ⟨p, hp'.1, rfl⟩, ?_⟩
        simp only [pageSize]
        omega
    refine ⟨Or.inr ⟨g, hfree 0 (by decide), hg⟩, ?_, ?_, rfl, ?_⟩
    · refine ⟨hsound, hapart, by dsimp only; omega, ?_, ?_, ?_, ?_⟩
      · intro i j hi hi' hj hj' hij
        simp only [hbulk i (by omega), hbulk j (by omega), pageSize] at hij
        omega
      · intro i hi hi' p hp
        have hp' := (hfree' p).mp hp
        simp only [hbulk i (by omega), pageSize]
        omega
      · exact fun f hf => h.aligned f (hsub f hf).1
      · exact fun f hf => h.lt f (hsub f hf).1
    · intro f hf
      obtain ⟨h1, h2⟩ := hsub f hf
      exact ⟨h1, by rw [hg]; exact h2⟩
    · exact ⟨hstatic, rfl, rfl, List.prefix_append _ _⟩
  · have hs : pmallocBulk s = (s.bulk s.curr, { s with curr := s.curr + 1 }) := by
      simp [pmallocBulk, hcurr]
    rw [hs]
    have hlt : s.curr < 63 := by
      have := h.curr_le
      simp only [numAlloc] at hcurr
      omega
    have hsub : ∀ f, (∃ i, s.curr + 1 ≤ i ∧ i < 63 ∧ f = s.bulk i) ∨
        (∃ p ∈ s.pmm.freePages, f = p * pageSize) → f ∈ s.unissued ∧ f ≠ s.bulk s.curr := by
      rintro f (⟨i, hi, hi', rfl⟩ | ⟨p, hp, rfl⟩)
      · refine ⟨Or.inl ⟨i, by omega, hi', rfl⟩, fun heq => ?_⟩
        have := h.inj i s.curr (by omega) hi' le_rfl hlt heq
        omega
      · exact ⟨Or.inr ⟨p, hp, rfl⟩, (h.cached s.curr le_rfl hlt p hp).symm⟩
    refine ⟨Or.inl ⟨s.curr, le_rfl, hlt, rfl⟩, ?_, ?_, rfl, ?_⟩
    · refine ⟨h.sound, h.apart, hlt, ?_, ?_, ?_, ?_⟩
      · intro i j hi hi' hj hj'
        exact h.inj i j (Nat.le_of_succ_le hi) hi' (Nat.le_of_succ_le hj) hj'
      · exact fun i hi hi' => h.cached i (Nat.le_of_succ_le hi) hi'
      · exact fun f hf => h.aligned f (hsub f hf).1
      · exact fun f hf => h.lt f (hsub f hf).1
    · exact fun f hf => ⟨(hsub f hf).1, (hsub f hf).2⟩
    · exact ⟨Static.refl _, rfl, rfl, List.prefix_rfl⟩

/-! ### Trees of tables -/

/-- The table that a path of indices leads to from the top-level table at `root`. -/
abbrev Paging.tableAt (s : Paging) (root : ℕ) (p : List (Fin 512)) : Option ℕ :=
  AnglOS.tableAt frameOf s.entry root p

/-- The entry that a path and one more index lead to, zero if there is no such table. -/
abbrev Paging.entryAt (s : Paging) (root : ℕ) (p : List (Fin 512)) (i : Fin 512) : BitVec 64 :=
  AnglOS.entryAt frameOf s.entry root p i

/-- The indices of a virtual address in the three upper levels. -/
def pagePath (v : ℕ) : List (Fin 512) := [pageP4E v, pageP3E v, pageP2E v]

/-- The number of a virtual page: bits 12 to 47 of its addresses. -/
def pageNumber (v : ℕ) : ℕ := v / pageSize % 2 ^ 36

/-- The leaf entry of a virtual page, zero if the page is not translated. -/
def Paging.leaf (s : Paging) (root v : ℕ) : BitVec 64 := s.entryAt root (pagePath v) (pageP1E v)

/-- The translation of a virtual page: the frame and the flags of its leaf entry. -/
def Paging.walk (s : Paging) (root v : ℕ) : Option (ℕ × BitVec 64) :=
  if s.leaf root v = 0 then none
  else some (frameOf (s.leaf root v), s.leaf root v &&& ~~~frameMask)

/-- Two addresses have the same indices exactly when they have the same page number. -/
theorem pagePath_eq_iff {v w : ℕ} :
    (pagePath v = pagePath w ∧ pageP1E v = pageP1E w) ↔ pageNumber v = pageNumber w := by
  simp only [pagePath, pageP4E, pageP3E, pageP2E, pageP1E, pageNumber, List.cons.injEq, and_true,
    Fin.ext_iff, Fin.val_ofNat, Nat.shiftRight_eq_div_pow, pageSize]
  omega

/-- Pages with the same number have the same translation. -/
theorem leaf_congr (s : Paging) (root : ℕ) {v w : ℕ} (h : pageNumber v = pageNumber w) :
    s.leaf root v = s.leaf root w := by
  obtain ⟨h1, h2⟩ := pagePath_eq_iff.mpr h
  rw [Paging.leaf, Paging.leaf, h1, h2]

theorem pagePath_length (v : ℕ) : (pagePath v).length = 3 := rfl

/-- The tables below a top-level table: aligned, unshared, and already issued. -/
structure Tree (s : Paging) (root : ℕ) : Prop where
  /-- The top-level table is page-aligned. -/
  root_mod : root % pageSize = 0
  /-- No table is referenced twice. -/
  unshared : Unshared frameOf s.entry root 3
  /-- No table is a frame that may still be issued. -/
  issued : ∀ p t, p.length ≤ 3 → s.tableAt root p = some t → t ∉ s.unissued

/-- An empty top-level table has no tables below it. -/
theorem tableAt_of_empty {s : Paging} {root t : ℕ} {p : List (Fin 512)}
    (hempty : ∀ i, s.entry root i = 0) (ht : s.tableAt root p = some t) : p = [] ∧ t = root := by
  cases p with
  | nil => exact ⟨rfl, (Option.some.inj ht).symm⟩
  | cons i p =>
      rw [Paging.tableAt, tableAt, if_pos (hempty i)] at ht
      cases ht

/-- An empty top-level table is a tree. -/
theorem tree_of_empty {s : Paging} {root : ℕ} (hroot : root % pageSize = 0)
    (hissued : root ∉ s.unissued) (hempty : ∀ i, s.entry root i = 0) : Tree s root := by
  refine ⟨hroot, fun p q t _ _ hp hq => ?_, fun p t _ ht => ?_⟩
  · rw [(tableAt_of_empty hempty hp).1, (tableAt_of_empty hempty hq).1]
  · rw [(tableAt_of_empty hempty ht).2]
    exact hissued

/-- A table below the root is not the root. -/
theorem Tree.ne_root {s : Paging} {root t : ℕ} (h : Tree s root) {p : List (Fin 512)}
    (hp : p.length ≤ 3) (hnil : p ≠ []) (ht : s.tableAt root p = some t) : t ≠ root := by
  rintro rfl
  exact hnil (h.unshared p [] t hp (Nat.zero_le 3) ht rfl)

/-- Tables are page-aligned. -/
theorem tableAt_mod {s : Paging} {root t : ℕ} (hroot : root % pageSize = 0)
    {p : List (Fin 512)} (h : s.tableAt root p = some t) : t % pageSize = 0 := by
  cases p using List.reverseRecOn with
  | nil => rw [← Option.some.inj h, hroot]
  | append_singleton p i =>
      rw [Paging.tableAt, tableAt_concat] at h
      split_ifs at h
      rw [← Option.some.inj h, frameOf_mod]

/-- **An assignment to one entry** of an aligned table is seen there and nowhere else. -/
theorem entry_setEntry {s : Paging} {t t' : ℕ} {i i' : Fin 512} {e : BitVec 64}
    (ht : t % pageSize = 0) (ht' : t' % pageSize = 0) :
    (s.setEntry t i e).entry t' i' = if t' = t ∧ i' = i then e else s.entry t' i' := by
  have hi := i.isLt
  have hi' := i'.isLt
  simp only [pageSize] at ht ht'
  rw [Paging.entry, Paging.setEntry, Mem.load64_store64_aligned (by omega) (by omega)]
  by_cases h : t' = t ∧ i' = i
  · rw [if_pos h, if_pos (by rw [h.1, h.2])]
  · rw [if_neg h, if_neg]
    · rfl
    · intro heq
      exact h ⟨by omega, Fin.ext (by omega)⟩

/-! ### The record of the parts -/

theorem pmallocBulk_log (s : Paging) : s.log <+: (pmallocBulk s).2.log := by
  unfold pmallocBulk
  split_ifs
  · exact List.prefix_append _ _
  · exact List.prefix_rfl

/-- Issuing a frame does not touch memory. -/
theorem pmallocBulk_mem (s : Paging) : (pmallocBulk s).2.mem = s.mem := by
  unfold pmallocBulk
  split_ifs <;> rfl

theorem pagingAllocTable_log (s : Paging) : s.log <+: (pagingAllocTable s).2.log :=
  (pmallocBulk_log s).trans (List.prefix_append _ _)

theorem pagingDescend_log (s : Paging) (t : ℕ) (i : Fin 512) (flags : BitVec 64) :
    s.log <+: (pagingDescend s t i flags).2.log := by
  unfold pagingDescend
  split_ifs
  · exact pagingAllocTable_log s
  · exact List.prefix_rfl

theorem pagingDescendTo_log (s : Paging) (v root : ℕ) (flags : BitVec 64) :
    s.log <+: (pagingDescendTo s v root flags).2.log :=
  ((pagingDescend_log s _ _ _).trans (pagingDescend_log _ _ _ _)).trans
    (pagingDescend_log _ _ _ _)

/-! ### Allocating a table -/

/-- The loop of `pagingAllocTable` stores one zero word. -/
theorem zeroTable_eq (m : Mem) (pptr : ℕ) : zeroTable m pptr = m.store64 pptr 0 := by
  have hloop := loop_invariant (f := fun _ (m : Mem) => m.store64 pptr 0) (n := 512) (s := m)
    (fun j m' => (j = 0 → m' = m) ∧ (j ≠ 0 → m' = m.store64 pptr 0)) ⟨fun _ => rfl, by simp⟩ ?_
  · exact hloop.2 (by decide)
  · rintro j - m' ⟨h0, h1⟩
    refine ⟨by simp, fun _ => ?_⟩
    by_cases hj : j = 0
    · rw [h0 hj]
    · rw [h1 hj]
      funext x
      by_cases hx : pptr ≤ x ∧ x < pptr + 8
      · simp [Mem.store64, hx]
      · simp [Mem.store64, hx]

/-- The memory after `pagingAllocTable`. -/
theorem pagingAllocTable_mem (s : Paging) :
    (pagingAllocTable s).2.mem = zeroTable (pmallocBulk s).2.mem (pmallocBulk s).1 := rfl

/-- The entries after `pagingAllocTable`: the first one of the new table is zero, all others
are what they were. -/
theorem pagingAllocTable_entry {s : Paging} (hmem : (pmallocBulk s).2.mem = s.mem) {t : ℕ}
    {i : Fin 512} (hf : (pmallocBulk s).1 % pageSize = 0) (ht : t % pageSize = 0) :
    (pagingAllocTable s).2.entry t i
      = if t = (pmallocBulk s).1 ∧ i = 0 then 0 else s.entry t i := by
  have hset : (pagingAllocTable s).2.entry t i
      = (s.setEntry (pmallocBulk s).1 0 0).entry t i := by
    rw [Paging.entry, Paging.entry, pagingAllocTable_mem, zeroTable_eq, hmem]
    rfl
  rw [hset, entry_setEntry hf ht]

/-- **`pagingAllocTable`** issues a frame; its entries but the first are left alone. -/
theorem pagingAllocTable_spec {s : Paging} (h : Supply s) (hok : s.RefillOk) :
    (pagingAllocTable s).1 ∈ s.unissued ∧ Supply (pagingAllocTable s).2 ∧
      (pagingAllocTable s).2.unissued ⊆ s.unissued \ {(pagingAllocTable s).1} ∧
      (∀ t i, t % pageSize = 0 → (pagingAllocTable s).2.entry t i
        = if t = (pagingAllocTable s).1 ∧ i = 0 then 0 else s.entry t i) ∧
      (∀ x, alignToPage x ≠ (pagingAllocTable s).1 → (pagingAllocTable s).2.mem x = s.mem x) ∧
      s.Kept (pagingAllocTable s).2 := by
  have hlog : (pmallocBulk s).2.log <+: (pagingAllocTable s).2.log := List.prefix_append _ _
  obtain ⟨hmem, hsup, hsub, hm, hkept⟩ := pmallocBulk_spec h hok
  refine ⟨hmem, ⟨hsup.1, hsup.2, hsup.3, hsup.4, hsup.5, hsup.6, hsup.7⟩, hsub, ?_, ?_, ?_⟩
  · exact fun t i ht => pagingAllocTable_entry hm (h.aligned _ hmem) ht
  · intro x hx
    have hal := h.aligned _ hmem
    rw [pagingAllocTable_mem, zeroTable_eq, hm]
    simp only [alignToPage, pageSize] at hx hal
    refine Mem.store64_of_not_mem ?_
    have hx : x / 4096 * 4096 ≠ (pmallocBulk s).1 := hx
    omega
  · exact ⟨hkept.pmm, hkept.cr3, hkept.bspCr3, hkept.log.trans hlog⟩

/-- A table that the record calls clean has only zero entries. -/
theorem pagingAllocTable_clean {s : Paging}
    (hok : ∀ e ∈ (pagingAllocTable s).2.log, e.Good) (i : Fin 512) :
    (pagingAllocTable s).2.entry (pagingAllocTable s).1 i = 0 := by
  have hlast : ∃ b, PagingEvent.table (pagingAllocTable s).1 b ∈ (pagingAllocTable s).2.log ∧
      b = decide (∀ i, (pagingAllocTable s).2.entry (pagingAllocTable s).1 i = 0) :=
    ⟨_, List.mem_append_right _ (List.mem_singleton_self _), rfl⟩
  obtain ⟨b, hb, hdec⟩ := hlast
  have hclean : b = true := hok _ hb
  rw [hclean] at hdec
  exact of_decide_eq_true hdec.symm i

/-! ### Writing one entry -/

/-- The state after a write to one entry of a table of the tree and to frames outside of it:
the tree is still one, and a walk sees exactly this entry change, if the tables that the entry
leads to are empty before and after. -/
theorem Tree.write {s s' : Paging} {root t₀ : ℕ} {p₀ : List (Fin 512)} {i₀ : Fin 512}
    (h : Tree s root) (hp₀ : p₀.length ≤ 3) (ht₀ : s.tableAt root p₀ = some t₀)
    (hsame : ∀ p t i, p.length ≤ 3 → s.tableAt root p = some t → (t ≠ t₀ ∨ i ≠ i₀) →
      s'.entry t i = s.entry t i)
    (hold : p₀.length < 3 → EmptyBelow frameOf s.entry root (p₀ ++ [i₀]))
    (hnew : p₀.length < 3 → EmptyBelow frameOf s'.entry root (p₀ ++ [i₀]))
    (hfresh : p₀.length < 3 → s'.entry t₀ i₀ ≠ 0 →
      frameOf (s'.entry t₀ i₀) ∉ s'.unissued ∧ ∀ q, q.length ≤ 3 → ¬ p₀ ++ [i₀] <+: q →
        s.tableAt root q ≠ some (frameOf (s'.entry t₀ i₀)))
    (hunissued : ∀ p t, p.length ≤ 3 → s.tableAt root p = some t → t ∉ s'.unissued) :
    Tree s' root ∧ ∀ p i, p.length ≤ 3 → s'.entryAt root p i
      = if p = p₀ ∧ i = i₀ then s'.entry t₀ i₀ else s.entryAt root p i := by
  have hagree : AgreesOff frameOf s.entry s'.entry root 3 p₀ i₀ :=
    h.unshared.agreesOff hp₀ ht₀ hsame
  refine ⟨⟨h.root_mod, ?_, ?_⟩, fun p i hp => ?_⟩
  · exact hagree.unshared h.unshared hp₀ ht₀ hnew fun hlt hne => (hfresh hlt hne).2
  · intro p t hp ht
    rcases hagree.tableAt_cases hp₀ ht₀ hnew hp ht with ⟨-, ht'⟩ | ⟨hpe, hne, rfl⟩
    · exact hunissued p t hp ht'
    · have hlt : p₀.length < 3 := by
        rw [hpe] at hp
        simpa using hp
      exact (hfresh hlt hne).1
  · obtain ⟨h1, h2⟩ := hagree.entryAt_eq (p := p) (i := i) hp₀ ht₀ hold hnew hp
    split_ifs with heq
    · exact h1 heq
    · exact h2 (by tauto)

/-- Growing a tree: entries that are present stay, upper entries that are absent may become
entries of new tables, leaf entries stay, and memory outside of the tree and of the frames
that were not issued yet stays. -/
structure Grows (s s' : Paging) (root : ℕ) (flags : BitVec 64) : Prop where
  /-- The frames that were not issued yet are in order. -/
  supply : Supply s'
  /-- The tree is one. -/
  tree : Tree s' root
  /-- Frames are only issued. -/
  unissued : s'.unissued ⊆ s.unissued
  /-- The rest of the state. -/
  kept : s.Kept s'
  /-- What a walk sees. -/
  entries : ∀ p i, p.length ≤ 3 → s'.entryAt root p i = s.entryAt root p i ∨
    (p.length < 3 ∧ s.entryAt root p i = 0 ∧
      ∃ f ∈ s.unissued, s'.entryAt root p i = makeEntry f flags)
  /-- The tables of the tree. -/
  tables : ∀ p t, p.length ≤ 3 → s'.tableAt root p = some t →
    s.tableAt root p = some t ∨ t ∈ s.unissued
  /-- Memory elsewhere. -/
  frame : ∀ x, alignToPage x ∉ s.unissued →
    (∀ p, p.length ≤ 3 → s.tableAt root p ≠ some (alignToPage x)) → s'.mem x = s.mem x
  /-- The frames that are still not issued. -/
  fresh : ∀ x, alignToPage x ∈ s'.unissued → s'.mem x = s.mem x

theorem Grows.refl {s : Paging} {root : ℕ} (flags : BitVec 64) (hs : Supply s)
    (ht : Tree s root) : Grows s s root flags where
  supply := hs
  tree := ht
  unissued := subset_rfl
  kept := Paging.Kept.refl s
  entries := fun _ _ _ => Or.inl rfl
  tables := fun _ _ _ h => Or.inl h
  frame := fun _ _ _ => rfl
  fresh := fun _ _ => rfl

theorem Grows.trans {s s₁ s₂ : Paging} {root : ℕ} {flags : BitVec 64}
    (h₁ : Grows s s₁ root flags) (h₂ : Grows s₁ s₂ root flags) : Grows s s₂ root flags where
  supply := h₂.supply
  tree := h₂.tree
  unissued := h₂.unissued.trans h₁.unissued
  kept := h₁.kept.trans h₂.kept
  entries := by
    intro p i hp
    rcases h₂.entries p i hp with e₂ | ⟨hlt, hz, f, hf, e₂⟩
    · rw [e₂]
      exact h₁.entries p i hp
    · rcases h₁.entries p i hp with e₁ | ⟨-, hz₁, f₁, hf₁, e₁⟩
      · exact Or.inr ⟨hlt, e₁ ▸ hz, f, h₁.unissued hf, e₂⟩
      · exact Or.inr ⟨hlt, hz₁, f, h₁.unissued hf, e₂⟩
  tables := by
    intro p t hp ht
    rcases h₂.tables p t hp ht with ht | ht
    · exact h₁.tables p t hp ht
    · exact Or.inr (h₁.unissued ht)
  frame := by
    intro x hx hp
    have hx₁ : ∀ p, p.length ≤ 3 → s₁.tableAt root p ≠ some (alignToPage x) := by
      intro p hlen ht
      rcases h₁.tables p _ hlen ht with ht | ht
      · exact hp p hlen ht
      · exact hx ht
    rw [h₂.frame x (fun hmem => hx (h₁.unissued hmem)) hx₁, h₁.frame x hx hp]
  fresh := fun x hx => (h₂.fresh x hx).trans (h₁.fresh x (h₂.unissued hx))

/-- Leaf entries stay. -/
theorem Grows.leaf {s s' : Paging} {root : ℕ} {flags : BitVec 64} (h : Grows s s' root flags)
    (v : ℕ) : s'.leaf root v = s.leaf root v := by
  rcases h.entries (pagePath v) (pageP1E v) le_rfl with he | ⟨hlt, -⟩
  · exact he
  · simp [pagePath_length] at hlt

/-- Tables stay where they are if the upper entries that are not zero do. -/
theorem tableAt_of_upper {s s' : Paging} {root t : ℕ}
    (h : ∀ p i, p.length < 3 → s.entryAt root p i ≠ 0 → s'.entryAt root p i = s.entryAt root p i)
    {p : List (Fin 512)} (hp : p.length ≤ 3) (ht : s.tableAt root p = some t) :
    s'.tableAt root p = some t := by
  obtain rfl | ⟨q, i, rfl⟩ := List.eq_nil_or_concat p
  · exact ht
  · rw [List.concat_eq_append] at hp ht ⊢
    rw [Paging.tableAt, tableAt_concat] at ht ⊢
    split_ifs at ht with hz
    have he : AnglOS.entryAt frameOf s'.entry root q i = _ := h q i (by simp at hp; omega) hz
    rw [he, if_neg hz, ht]

/-- Tables stay where they are. -/
theorem Grows.tableAt {s s' : Paging} {root t : ℕ} {flags : BitVec 64}
    (h : Grows s s' root flags) {p : List (Fin 512)} (hp : p.length ≤ 3)
    (ht : s.tableAt root p = some t) : s'.tableAt root p = some t :=
  tableAt_of_upper (fun q i hq hne => (h.entries q i hq.le).resolve_right
    fun hc => hne hc.2.1) hp ht

/-- A store of one word changes nothing outside of its page. -/
theorem setEntry_mem {s : Paging} {t : ℕ} {i : Fin 512} {e : BitVec 64} (ht : t % pageSize = 0)
    {x : ℕ} (hx : alignToPage x ≠ t) : (s.setEntry t i e).mem x = s.mem x := by
  have hi := i.isLt
  simp only [alignToPage, pageSize] at ht hx
  exact Mem.store64_of_not_mem (by omega)

/-- The entries of a frame are what its bytes are. -/
theorem entry_congr {s s' : Paging} {f : ℕ} (hf : f % pageSize = 0)
    (h : ∀ x, alignToPage x = f → s'.mem x = s.mem x) (i : Fin 512) :
    s'.entry f i = s.entry f i := by
  refine Mem.load64_congr fun x h1 h2 => h x ?_
  have hi := i.isLt
  simp only [alignToPage, pageSize] at hf ⊢
  omega

/-- **A write outside of a tree** changes nothing that a walk sees. -/
theorem Tree.frame {s : Paging} {root : ℕ} (h : Tree s root) (s' : Paging)
    (hmem : ∀ x, (∃ p, p.length ≤ 3 ∧ s.tableAt root p = some (alignToPage x)) →
      s'.mem x = s.mem x) (hsub : s'.unissued ⊆ s.unissued) :
    Tree s' root ∧ (∀ p, p.length ≤ 3 → s'.tableAt root p = s.tableAt root p) ∧
      ∀ p i, p.length ≤ 3 → s'.entryAt root p i = s.entryAt root p i := by
  have hent : ∀ p t i, p.length ≤ 3 → s.tableAt root p = some t → s'.entry t i = s.entry t i :=
    fun p t i hp ht => entry_congr (tableAt_mod h.root_mod ht)
      (fun x hx => hmem x ⟨p, hp, hx ▸ ht⟩) i
  have htab : ∀ p, p.length ≤ 3 → s'.tableAt root p = s.tableAt root p := fun p hp =>
    tableAt_congr_store (n := 3) hent (by omega)
  refine ⟨⟨h.root_mod, fun p q t hp hq htp htq => ?_, fun p t hp ht hiss => ?_⟩, htab,
    fun p i hp => ?_⟩
  · exact h.unshared p q t hp hq ((htab p hp).symm.trans htp) ((htab q hq).symm.trans htq)
  · exact h.issued p t hp ((htab p hp).symm.trans ht) (hsub hiss)
  · cases ht : s.tableAt root p with
    | none =>
        rw [Paging.entryAt, Paging.entryAt, entryAt_of_tableAt_none ht,
          entryAt_of_tableAt_none ((htab p hp).trans ht)]
    | some t =>
        rw [Paging.entryAt, Paging.entryAt, entryAt_of_tableAt ht,
          entryAt_of_tableAt ((htab p hp).trans ht)]
        exact hent p t i hp ht

/-! ### Descending -/

/-- Another active table changes nothing of the supply. -/
theorem Supply.setCR3 {s : Paging} (h : Supply s) (root : ℕ) : Supply (pagingSetCR3 s root) :=
  ⟨h.1, h.2, h.3, h.4, h.5, h.6, h.7⟩

theorem pagingSetCR3_unissued (s : Paging) (root : ℕ) :
    (pagingSetCR3 s root).unissued = s.unissued := rfl

theorem pagingSetCR3_entry (s : Paging) (root t : ℕ) (i : Fin 512) :
    (pagingSetCR3 s root).entry t i = s.entry t i := rfl

/-- An assignment to an entry leaves the supply of frames alone. -/
theorem Supply.setEntry {s : Paging} (h : Supply s) (t : ℕ) (i : Fin 512) (e : BitVec 64) :
    Supply (s.setEntry t i e) :=
  ⟨h.1, h.2, h.3, h.4, h.5, h.6, h.7⟩

/-- An assignment to an entry leaves the rest of the state alone. -/
theorem Paging.Kept.setEntry {s s' : Paging} (h : s.Kept s') (t : ℕ) (i : Fin 512)
    (e : BitVec 64) : s.Kept (s'.setEntry t i e) :=
  ⟨h.pmm, h.cr3, h.bspCr3, h.log⟩

/-- Entering an empty table, whose frame was just issued, for an absent entry of an upper
table. -/
theorem Tree.enter {s s₁ : Paging} {root t f : ℕ} {p : List (Fin 512)} {i : Fin 512}
    {flags : BitVec 64} (h : Tree s root) (hp : p.length < 3) (ht : s.tableAt root p = some t)
    (hz : s.entry t i = 0) (hflags : FlagBits flags) (hpres : flags &&& 1 = 1)
    (hs : Supply s) (hf : f ∈ s.unissued) (hsup : Supply s₁)
    (hsub : s₁.unissued ⊆ s.unissued \ {f})
    (hent : ∀ t i, t % pageSize = 0 → t ≠ f → s₁.entry t i = s.entry t i)
    (hclean : ∀ i, s₁.entry f i = 0) (hmem : ∀ x, alignToPage x ≠ f → s₁.mem x = s.mem x)
    (hkept : s.Kept s₁) :
    Grows s (pagingAddEntry s₁ t i f flags) root flags ∧
      (pagingAddEntry s₁ t i f flags).tableAt root (p ++ [i]) = some f ∧
      ∀ q j, q.length ≤ 3 → ¬(q = p ∧ j = i) →
        (pagingAddEntry s₁ t i f flags).entryAt root q j = s.entryAt root q j := by
  have htmod : t % pageSize = 0 := tableAt_mod h.root_mod ht
  have hfmod : f % pageSize = 0 := hs.aligned f hf
  have hframe : frameOf (makeEntry f flags) = f := frameOf_makeEntry hfmod (hs.lt f hf) hflags
  have hne : ∀ q u, q.length ≤ 3 → s.tableAt root q = some u → u ≠ f := by
    rintro q u hq hu rfl
    exact h.issued q u hq hu hf
  have htf : t ≠ f := hne p t hp.le ht
  have hsame : ∀ q u j, q.length ≤ 3 → s.tableAt root q = some u → (u ≠ t ∨ j ≠ i) →
      (pagingAddEntry s₁ t i f flags).entry u j = s.entry u j := by
    intro q u j hq hu hdiff
    have hu' : u % pageSize = 0 := tableAt_mod h.root_mod hu
    rw [pagingAddEntry, entry_setEntry htmod hu', if_neg (by tauto), hent u j hu' (hne q u hq hu)]
  have hself : (pagingAddEntry s₁ t i f flags).entry t i = makeEntry f flags := by
    rw [pagingAddEntry, entry_setEntry htmod htmod, if_pos ⟨rfl, rfl⟩]
  have hagree : AgreesOff frameOf s.entry (pagingAddEntry s₁ t i f flags).entry root 3 p i :=
    h.unshared.agreesOff hp.le ht hsame
  have htab : (pagingAddEntry s₁ t i f flags).tableAt root (p ++ [i]) = some f := by
    rw [Paging.tableAt, tableAt_concat, entryAt_of_tableAt ((hagree.tableAt_self hp.le).trans ht),
      hself, if_neg (makeEntry_ne_zero hpres), hframe]
  have hnew : EmptyBelow frameOf (pagingAddEntry s₁ t i f flags).entry root (p ++ [i]) := by
    intro u hu j
    obtain rfl : f = u := Option.some.inj (htab.symm.trans hu)
    rw [pagingAddEntry, entry_setEntry htmod hfmod, if_neg fun hc => htf hc.1.symm]
    exact hclean j
  have hold : EmptyBelow frameOf s.entry root (p ++ [i]) := by
    intro u hu
    rw [tableAt_concat, entryAt_of_tableAt ht, hz, if_pos rfl] at hu
    cases hu
  have hfresh : f ∉ (pagingAddEntry s₁ t i f flags).unissued := fun hmem => (hsub hmem).2 rfl
  obtain ⟨htree, hentries⟩ := h.write hp.le ht hsame (fun _ => hold) (fun _ => hnew)
    (fun _ _ => by
      rw [hself, hframe]
      exact ⟨hfresh, fun q hq _ hu => hne q f hq hu rfl⟩)
    (fun q u hq hu hmem => h.issued q u hq hu (hsub hmem).1)
  refine ⟨⟨hsup.setEntry _ _ _, htree, fun g hg => (hsub hg).1, hkept.setEntry _ _ _, ?_, ?_,
    ?_, ?_⟩, htab, fun q j hq hne => by rw [hentries q j hq, if_neg hne]⟩
  · intro q j hq
    rw [hentries q j hq]
    split_ifs with heq
    · refine Or.inr ⟨heq.1 ▸ hp, ?_, f, hf, hself⟩
      rw [heq.1, heq.2, Paging.entryAt, entryAt_of_tableAt ht, hz]
    · exact Or.inl rfl
  · intro q u hq hu
    rcases hagree.tableAt_cases hp.le ht (fun _ => hnew) hq hu with ⟨-, hu'⟩ | ⟨-, -, rfl⟩
    · exact Or.inl hu'
    · rw [hself, hframe]
      exact Or.inr hf
  · intro x hx hxt
    have hxt' : alignToPage x ≠ t := fun heq => hxt p hp.le (by rw [ht, heq])
    have hxf : alignToPage x ≠ f := fun heq => hx (heq ▸ hf)
    rw [pagingAddEntry, setEntry_mem htmod hxt', hmem x hxf]
  · intro x hx
    obtain ⟨hx, hxf⟩ := hsub hx
    have hxt : alignToPage x ≠ t := fun heq => h.issued p t hp.le ht (heq ▸ hx)
    rw [pagingAddEntry, setEntry_mem htmod hxt, hmem x hxf]

/-- One upper level where the entry is absent. -/
theorem pagingDescend_of_zero {s : Paging} {t : ℕ} {i : Fin 512} {flags : BitVec 64}
    (hz : s.entry t i = 0) :
    (pagingDescend s t i flags).2
      = pagingAddEntry (pagingAllocTable s).2 t i (pagingAllocTable s).1 flags := by
  rw [pagingDescend, if_pos hz]

/-- One upper level where the entry is present. -/
theorem pagingDescend_of_ne {s : Paging} {t : ℕ} {i : Fin 512} {flags : BitVec 64}
    (hz : s.entry t i ≠ 0) : pagingDescend s t i flags = (frameOf (s.entry t i), s) := by
  rw [pagingDescend, if_neg hz]

/-- The walk goes on in the table that the entry then points to. -/
theorem pagingDescend_fst (s : Paging) (t : ℕ) (i : Fin 512) (flags : BitVec 64) :
    (pagingDescend s t i flags).1 = frameOf ((pagingDescend s t i flags).2.entry t i) := rfl

/-- **One upper level of a mapping**: the walk goes on in a table of a grown tree. -/
theorem Tree.descend {s : Paging} {root t : ℕ} {p : List (Fin 512)} {i : Fin 512}
    {flags : BitVec 64} (hs : Supply s) (h : Tree s root) (hp : p.length < 3)
    (ht : s.tableAt root p = some t) (hflags : FlagBits flags) (hpres : flags &&& 1 = 1)
    (hok : ∀ e ∈ (pagingDescend s t i flags).2.log, e.Good) :
    Grows s (pagingDescend s t i flags).2 root flags ∧
      (pagingDescend s t i flags).2.tableAt root (p ++ [i])
        = some (pagingDescend s t i flags).1 ∧
      ∀ q j, q.length ≤ 3 → ¬(q = p ∧ j = i) →
        (pagingDescend s t i flags).2.entryAt root q j = s.entryAt root q j := by
  by_cases hz : s.entry t i = 0
  · rw [pagingDescend_fst, pagingDescend_of_zero hz]
    rw [pagingDescend_of_zero hz] at hok
    have hok : ∀ e ∈ (pagingAllocTable s).2.log, e.Good := hok
    obtain ⟨hf, hsup, hsub, hent, hmem, hkept⟩ :=
      pagingAllocTable_spec hs (refillOk_of_log fun e he =>
        (hok e (List.mem_append_left _ he)).served)
    obtain ⟨hgrow, htab, hoff⟩ := h.enter hp ht hz hflags hpres hs hf hsup hsub
      (fun u j hu hne => by rw [hent u j hu, if_neg fun hc => hne hc.1])
      (pagingAllocTable_clean hok) hmem hkept
    refine ⟨hgrow, ?_, hoff⟩
    have hstep := htab
    rw [Paging.tableAt, tableAt_concat, entryAt_of_tableAt (hgrow.tableAt hp.le ht)] at hstep ⊢
    split_ifs at hstep ⊢
    rfl
  · rw [pagingDescend_of_ne hz]
    refine ⟨Grows.refl flags hs h, ?_, fun _ _ _ _ => rfl⟩
    rw [Paging.tableAt, tableAt_concat, entryAt_of_tableAt ht, if_neg hz]

/-- **The three upper levels**: the level-1 table of the page, in a grown tree. -/
theorem Tree.descendTo {s : Paging} {root v : ℕ} {flags : BitVec 64} (hs : Supply s)
    (h : Tree s root) (hflags : FlagBits flags) (hpres : flags &&& 1 = 1)
    (hok : ∀ e ∈ (pagingDescendTo s v root flags).2.log, e.Good) :
    Grows s (pagingDescendTo s v root flags).2 root flags ∧
      (pagingDescendTo s v root flags).2.tableAt root (pagePath v)
        = some (pagingDescendTo s v root flags).1 ∧
      ∀ q j, q.length ≤ 3 → ¬ q ++ [j] <+: pagePath v →
        (pagingDescendTo s v root flags).2.entryAt root q j = s.entryAt root q j := by
  unfold pagingDescendTo at hok ⊢
  have hok₂ := fun e he => hok e ((pagingDescend_log _ _ _ _).subset he)
  have hok₃ := fun e he => hok₂ e ((pagingDescend_log _ _ _ _).subset he)
  obtain ⟨hg₃, ht₃, hoff₃⟩ :=
    Tree.descend (p := []) hs h (Nat.zero_lt_succ 2) rfl hflags hpres hok₃
  obtain ⟨hg₂, ht₂, hoff₂⟩ :=
    Tree.descend hg₃.supply hg₃.tree (by simp) ht₃ hflags hpres hok₂
  obtain ⟨hg₁, ht₁, hoff₁⟩ := Tree.descend hg₂.supply hg₂.tree (by simp) ht₂ hflags hpres hok
  refine ⟨(hg₃.trans hg₂).trans hg₁, ht₁, fun q j hq hpre => ?_⟩
  refine (hoff₁ q j hq ?_).trans ((hoff₂ q j hq ?_).trans (hoff₃ q j hq ?_))
  · rintro ⟨rfl, rfl⟩
    exact hpre List.prefix_rfl
  · rintro ⟨rfl, rfl⟩
    exact hpre ⟨[pageP2E v], rfl⟩
  · rintro ⟨rfl, rfl⟩
    exact hpre ⟨[pageP3E v, pageP2E v], rfl⟩

end AnglOS
