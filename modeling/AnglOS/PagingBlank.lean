import AnglOS.PagingMap

/-!
# Blank Tables

What the mapping operations do when frames are issued with arbitrary contents. The loop of
`pagingAllocTable` stores to the first word of the new table 512 times, so the other 511
entries are what the frame held before. Whether an operation brings in stray translations
depends on the frames that are still to be issued, and only on these.

* `issueState`, `Available`, `Issuable` — the frames that later calls of `pmallocBulk` return.
* `Blanks` — these frames have zero words after the first.
* `Ready` — a tree in a state with blank frames; mapping keeps it.
* `NoStray` — new tables are empty, and neither mapping a range nor creating an address space
  brings in translations of its own.

## Main results

* `noStray_iff` — there are no stray translations exactly if the frames to come are blank;
* `stray_in_stale_frame` — a frame that held other data makes a page table with entries;
* `map_range_exact` — when every new table is empty, mapping a range is exact.
-/

namespace AnglOS

open Pmm

/-! ### The frames to come -/

/-- The state after `k` more calls of `pmallocBulk`. -/
def issueState (s : Paging) : ℕ → Paging
  | 0 => s
  | k + 1 => issueState (pmallocBulk s).2 k

/-- The next `k` calls of `pmallocBulk` find a frame: each refill that they need succeeds. -/
def Available (s : Paging) (k : ℕ) : Prop := ∀ j < k, (issueState s j).RefillOk

/-- The frames that some later call of `pmallocBulk` returns. -/
def Issuable (s : Paging) : Set ℕ :=
  {f | ∃ k, Available s (k + 1) ∧ f = (pmallocBulk (issueState s k)).1}

theorem Available.mono {s : Paging} {k l : ℕ} (h : Available s l) (hkl : k ≤ l) :
    Available s k :=
  fun j hj => h j (by omega)

theorem Available.refillOk {s : Paging} {k : ℕ} (h : Available s (k + 1)) : s.RefillOk :=
  h 0 (by omega)

/-- After one frame was issued, one fewer is available. -/
theorem Available.next {s : Paging} {k : ℕ} (h : Available s (k + 1)) :
    Available (pmallocBulk s).2 k :=
  fun j hj => h (j + 1) (by omega)

theorem available_succ {s : Paging} {k : ℕ} (hok : s.RefillOk)
    (h : Available (pmallocBulk s).2 k) : Available s (k + 1) := by
  intro j hj
  cases j with
  | zero => exact hok
  | succ j => exact h j (by omega)

/-- The frames that are issued later were not issued yet. -/
theorem issuable_succ {s : Paging} (hok : s.RefillOk) :
    Issuable (pmallocBulk s).2 ⊆ Issuable s := by
  rintro f ⟨k, hk, rfl⟩
  exact ⟨k + 1, available_succ hok hk, rfl⟩

/-- Two states with the same allocator and the same cache. -/
structure Paging.SameSource (s s' : Paging) : Prop where
  pmm : s'.pmm = s.pmm
  bulk : s'.bulk = s.bulk
  curr : s'.curr = s.curr

theorem Paging.SameSource.symm {s s' : Paging} (h : s.SameSource s') : s'.SameSource s :=
  ⟨h.pmm.symm, h.bulk.symm, h.curr.symm⟩

theorem Paging.SameSource.refillOk {s s' : Paging} (h : s.SameSource s') (hok : s.RefillOk) :
    s'.RefillOk := by
  rw [Paging.RefillOk, h.pmm, h.curr]
  exact hok

/-- Which frame is issued, and what is left, depends on the allocator and the cache alone. -/
theorem Paging.SameSource.pmallocBulk {s s' : Paging} (h : s.SameSource s') :
    (pmallocBulk s').1 = (AnglOS.pmallocBulk s).1 ∧
      (AnglOS.pmallocBulk s).2.SameSource (AnglOS.pmallocBulk s').2 := by
  unfold AnglOS.pmallocBulk
  rw [h.curr, h.pmm]
  split_ifs
  · exact ⟨by simp, rfl, by simp [h.bulk], rfl⟩
  · exact ⟨by simp only [h.bulk, h.curr], h.pmm, h.bulk, by simp only [h.curr]⟩

theorem Paging.SameSource.issueState {s s' : Paging} (h : s.SameSource s') (k : ℕ) :
    (issueState s k).SameSource (issueState s' k) := by
  induction k generalizing s s' with
  | zero => exact h
  | succ k ih => exact ih h.pmallocBulk.2

theorem Paging.SameSource.available {s s' : Paging} (h : s.SameSource s') {k : ℕ}
    (hk : Available s k) : Available s' k :=
  fun j hj => (h.issueState j).refillOk (hk j hj)

theorem Paging.SameSource.issuable {s s' : Paging} (h : s.SameSource s') :
    Issuable s' = Issuable s := by
  have hsub : ∀ {s s' : Paging}, s.SameSource s' → Issuable s ⊆ Issuable s' := by
    rintro s s' h f ⟨k, hk, rfl⟩
    exact ⟨k, h.available hk, (h.issueState k).pmallocBulk.1.symm⟩
  exact Set.Subset.antisymm (hsub h.symm) (hsub h)

/-- A frame that will be issued was not issued yet. -/
theorem Supply.issuable {s : Paging} (h : Supply s) : Issuable s ⊆ s.unissued := by
  rintro f ⟨k, hk, rfl⟩
  induction k generalizing s with
  | zero => exact (pmallocBulk_spec h hk.refillOk).1
  | succ k ih =>
      obtain ⟨-, hsup, hsub, -⟩ := pmallocBulk_spec h hk.refillOk
      exact (hsub (ih hsup hk.next)).1

/-! ### Blank frames -/

/-- Every frame that some later call of `pmallocBulk` returns holds zero in all its words after
the first. -/
def Blanks (s : Paging) : Prop := ∀ f ∈ Issuable s, ∀ i : Fin 512, i ≠ 0 → s.entry f i = 0

/-- Frames stay blank as long as nobody writes to them. -/
theorem Blanks.keep {s s' : Paging} (h : Blanks s) (hs' : Supply s')
    (hsub : Issuable s' ⊆ Issuable s)
    (hfresh : ∀ x, alignToPage x ∈ s'.unissued → s'.mem x = s.mem x) : Blanks s' := by
  intro f hf i hi
  have hf' := hs'.issuable hf
  rw [entry_congr (hs'.aligned f hf') (fun x hx => hfresh x (hx ▸ hf')) i]
  exact h f (hsub hf) i hi

/-- The table that `pagingAllocTable` returns is empty if its frame is blank. -/
theorem pagingAllocTable_blank {s : Paging} (hs : Supply s) (hok : s.RefillOk) :
    (∀ i, (pagingAllocTable s).2.entry (pagingAllocTable s).1 i = 0) ↔
      ∀ i : Fin 512, i ≠ 0 → s.entry (pmallocBulk s).1 i = 0 := by
  obtain ⟨hf, -, -, hent, -⟩ := pagingAllocTable_spec hs hok
  have hmod := hs.aligned _ hf
  refine ⟨fun h i hi => ?_, fun h i => ?_⟩
  · have hz := h i
    rw [hent _ i hmod, if_neg fun hc => hi hc.2] at hz
    exact hz
  · rw [hent _ i hmod]
    split_ifs with hc
    · rfl
    · exact h i fun hi => hc ⟨rfl, hi⟩

/-- The next frame of a blank supply is blank. -/
theorem Blanks.head {s : Paging} (h : Blanks s) (hok : s.RefillOk) (i : Fin 512) (hi : i ≠ 0) :
    s.entry (pmallocBulk s).1 i = 0 :=
  h _ ⟨0, available_succ hok fun _ hj => absurd hj (Nat.not_lt_zero _), rfl⟩ i hi

/-! ### Mapping with blank frames -/

/-- A tree in a state whose frames to come are blank, with a record of no failure. -/
structure Ready (s : Paging) (root : ℕ) : Prop where
  /-- The frames that were not issued yet are in order. -/
  supply : Supply s
  /-- The tree is one. -/
  tree : Tree s root
  /-- The frames to come are blank. -/
  blanks : Blanks s
  /-- No table that was entered had entries. -/
  good : ∀ e ∈ s.log, e.Good

/-- The events that issuing a frame adds. -/
theorem pmallocBulk_log_mem {s : Paging} {e : PagingEvent} (h : e ∈ (pmallocBulk s).2.log) :
    e ∈ s.log ∨ e = .block (pmalloc s.pmm numAlloc).1 := by
  unfold pmallocBulk at h
  split_ifs at h
  · simpa [Paging.record] using h
  · exact Or.inl h

theorem good_pmallocBulk {s : Paging} (hgood : ∀ e ∈ s.log, e.Good)
    (hserved : ∀ e ∈ (pmallocBulk s).2.log, e.Served) :
    ∀ e ∈ (pmallocBulk s).2.log, e.Good := by
  intro e he
  rcases pmallocBulk_log_mem he with h | rfl
  · exact hgood e h
  · exact hserved _ he

/-- **A table from a blank supply** is recorded as clean. -/
theorem Blanks.good_pagingAllocTable {s : Paging} (hs : Supply s) (hb : Blanks s)
    (hgood : ∀ e ∈ s.log, e.Good) (hserved : ∀ e ∈ (pagingAllocTable s).2.log, e.Served) :
    ∀ e ∈ (pagingAllocTable s).2.log, e.Good := by
  have hserved' : ∀ e ∈ (pmallocBulk s).2.log, e.Served :=
    fun e he => hserved e (List.mem_append_left _ he)
  have hok := refillOk_of_log hserved'
  have hclean := (pagingAllocTable_blank hs hok).mpr (hb.head hok)
  intro e he
  rcases List.mem_append.mp he with he | he
  · exact good_pmallocBulk hgood hserved' e he
  · rw [List.mem_singleton.mp he]
    exact decide_eq_true hclean

/-- The frames to come after `pagingAllocTable`. -/
theorem issuable_pagingAllocTable {s : Paging} (hok : s.RefillOk) :
    Issuable (pagingAllocTable s).2 ⊆ Issuable s := by
  have hsame : (pmallocBulk s).2.SameSource (pagingAllocTable s).2 := ⟨rfl, rfl, rfl⟩
  rw [hsame.issuable]
  exact issuable_succ hok

/-- **One upper level of a mapping** with blank frames. -/
theorem Ready.descend {s : Paging} {root t : ℕ} {p : List (Fin 512)} {i : Fin 512}
    {flags : BitVec 64} (h : Ready s root) (hp : p.length < 3)
    (ht : s.tableAt root p = some t) (hflags : FlagBits flags) (hpres : flags &&& 1 = 1)
    (hserved : ∀ e ∈ (pagingDescend s t i flags).2.log, e.Served) :
    Ready (pagingDescend s t i flags).2 root ∧
      (pagingDescend s t i flags).2.tableAt root (p ++ [i])
        = some (pagingDescend s t i flags).1 := by
  have hgood : ∀ e ∈ (pagingDescend s t i flags).2.log, e.Good := by
    by_cases hz : s.entry t i = 0
    · rw [pagingDescend_of_zero hz] at hserved ⊢
      exact h.blanks.good_pagingAllocTable h.supply h.good hserved
    · rw [pagingDescend_of_ne hz]
      exact h.good
  obtain ⟨hgrow, htab, -⟩ := h.tree.descend h.supply hp ht hflags hpres hgood
  refine ⟨⟨hgrow.supply, hgrow.tree, h.blanks.keep hgrow.supply ?_ hgrow.fresh, hgood⟩, htab⟩
  by_cases hz : s.entry t i = 0
  · have hok : s.RefillOk := by
      rw [pagingDescend_of_zero hz] at hserved
      exact refillOk_of_log fun e he => hserved e (List.mem_append_left _ he)
    have hsame : (pagingAllocTable s).2.SameSource (pagingDescend s t i flags).2 := by
      rw [pagingDescend_of_zero hz]
      exact ⟨rfl, rfl, rfl⟩
    rw [hsame.issuable]
    exact issuable_pagingAllocTable hok
  · rw [pagingDescend_of_ne hz]

/-- The three upper levels with blank frames. -/
theorem Ready.descendTo {s : Paging} {root v : ℕ} {flags : BitVec 64} (h : Ready s root)
    (hflags : FlagBits flags) (hpres : flags &&& 1 = 1)
    (hserved : ∀ e ∈ (pagingDescendTo s v root flags).2.log, e.Served) :
    Ready (pagingDescendTo s v root flags).2 root ∧
      (pagingDescendTo s v root flags).2.tableAt root (pagePath v)
        = some (pagingDescendTo s v root flags).1 := by
  unfold pagingDescendTo at hserved ⊢
  have hserved₂ := fun e he => hserved e ((pagingDescend_log _ _ _ _).subset he)
  have hserved₃ := fun e he => hserved₂ e ((pagingDescend_log _ _ _ _).subset he)
  obtain ⟨h₃, ht₃⟩ := Ready.descend (p := []) h (Nat.zero_lt_succ 2) rfl hflags hpres hserved₃
  obtain ⟨h₂, ht₂⟩ := Ready.descend h₃ (by simp) ht₃ hflags hpres hserved₂
  exact Ready.descend h₂ (by simp) ht₂ hflags hpres hserved

/-- Storing a leaf keeps the frames to come blank. -/
theorem Ready.setLeaf {s : Paging} {root t v : ℕ} (h : Ready s root)
    (ht : s.tableAt root (pagePath v) = some t) (e : BitVec 64) :
    Ready (s.setEntry t (pageP1E v) e) root := by
  have hmaps := h.tree.setLeaf h.supply ht 0 e
  have hsame : s.SameSource (s.setEntry t (pageP1E v) e) := ⟨rfl, rfl, rfl⟩
  exact ⟨hmaps.supply, hmaps.tree, h.blanks.keep hmaps.supply hsame.issuable.subset hmaps.fresh,
    h.good⟩

/-- Issuing a data frame keeps the frames to come blank. -/
theorem Ready.pmallocBulk {s : Paging} {root : ℕ} (h : Ready s root)
    (hserved : ∀ e ∈ (pmallocBulk s).2.log, e.Served) (f : ℕ) :
    Ready ((AnglOS.pmallocBulk s).2.record (.data f)) root := by
  have hok := refillOk_of_log hserved
  have hgrow := h.tree.pmallocBulk h.supply hok 0 (.data f)
  have hsame : (AnglOS.pmallocBulk s).2.SameSource
      ((AnglOS.pmallocBulk s).2.record (.data f)) := ⟨rfl, rfl, rfl⟩
  refine ⟨hgrow.supply, hgrow.tree, h.blanks.keep hgrow.supply ?_ hgrow.fresh, ?_⟩
  · rw [hsame.issuable]
    exact issuable_succ hok
  · intro e he
    rcases List.mem_append.mp he with he | he
    · exact good_pmallocBulk h.good hserved e he
    · rw [List.mem_singleton.mp he]
      exact trivial

/-- **`videntityHelper`** with blank frames. -/
theorem Ready.videntityHelper {s : Paging} {root v p : ℕ} {flags : BitVec 64} (h : Ready s root)
    (hflags : FlagBits flags) (hpres : flags &&& 1 = 1)
    (hserved : ∀ e ∈ (videntityHelper v p root flags s).2.log, e.Served) :
    Ready (AnglOS.videntityHelper v p root flags s).2 root := by
  obtain ⟨h₁, ht⟩ := h.descendTo hflags hpres hserved
  exact h₁.setLeaf ht _

/-- **`vmallocHelper`** with blank frames. -/
theorem Ready.vmallocHelper {s : Paging} {root v : ℕ} {flags : BitVec 64} (h : Ready s root)
    (hflags : FlagBits flags) (hpres : flags &&& 1 = 1)
    (hserved : ∀ e ∈ (vmallocHelper v root flags s).2.log, e.Served) :
    Ready (AnglOS.vmallocHelper v root flags s).2 root := by
  have hserved₂ : ∀ e ∈ (AnglOS.pmallocBulk (pagingDescendTo s v root flags).2).2.log, e.Served :=
    fun e he => hserved e (List.mem_append_left _ he)
  obtain ⟨h₁, ht⟩ := h.descendTo hflags hpres fun e he =>
    hserved₂ e ((pmallocBulk_log _).subset he)
  have h₂ := h₁.pmallocBulk hserved₂ (AnglOS.pmallocBulk (pagingDescendTo s v root flags).2).1
  have ht₂ := (h₁.tree.pmallocBulk h₁.supply (refillOk_of_log hserved₂) flags
    (.data (AnglOS.pmallocBulk (pagingDescendTo s v root flags).2).1)).tableAt le_rfl ht
  exact h₂.setLeaf ht₂ _

/-- **The loop over the pages** with blank frames, which may stop early. -/
theorem Ready.mapLoop {body : ℕ → Paging → ℕ × Paging} {root : ℕ}
    (hlog : ∀ i s, s.log <+: (body i s).2.log)
    (hbody : ∀ i s, Ready s root → (∀ e ∈ (body i s).2.log, e.Served) → Ready (body i s).2 root)
    {s : Paging} (h : Ready s root) {n : ℕ}
    (hserved : ∀ e ∈ (mapLoop body n s).2.log, e.Served) :
    Ready (AnglOS.mapLoop body n s).2 root := by
  induction n with
  | zero => exact h
  | succ n ih =>
      have hready := ih fun e he => hserved e ((mapLoop_log hlog n s).subset he)
      rcases hr : AnglOS.mapLoop body n s with ⟨_ | _, s₁⟩
      · rw [hr] at hready
        simpa [AnglOS.mapLoop, hr] using hready
      · have hloop : (AnglOS.mapLoop body (n + 1) s).2 = (body n s₁).2 := by
          simp [AnglOS.mapLoop, hr]
        rw [hr] at hready
        rw [hloop] at hserved ⊢
        exact hbody n s₁ hready hserved

theorem Ready.withLock {s : Paging} {root : ℕ} (h : Ready s root) (b : Bool) :
    Ready { s with lock := b } root := by
  have hsame : s.SameSource { s with lock := b } := ⟨rfl, rfl, rfl⟩
  exact ⟨h.supply.withLock b, h.tree.withLock b,
    h.blanks.keep (h.supply.withLock b) hsame.issuable.subset fun _ _ => rfl, h.good⟩

theorem Ready.setCR3 {s : Paging} {r : ℕ} (h : Ready s r) (root : ℕ) :
    Ready (pagingSetCR3 s root) r := by
  have hsame : s.SameSource (pagingSetCR3 s root) := ⟨rfl, rfl, rfl⟩
  exact ⟨h.supply.setCR3 root, ⟨h.tree.1, h.tree.2, h.tree.3⟩,
    h.blanks.keep (h.supply.setCR3 root) hsame.issuable.subset fun _ _ => rfl, h.good⟩

/-- `vmallocCR3` with blank frames. -/
theorem Ready.vmallocCR3 {s : Paging} {root v n : ℕ} {flags : BitVec 64} (h : Ready s root)
    (hflags : FlagBits flags) (hpres : flags &&& 1 = 1)
    (hserved : ∀ e ∈ (vmallocCR3 s v n flags root).2.log, e.Served) :
    Ready (AnglOS.vmallocCR3 s v n flags root).2 root := by
  rw [vmallocCR3_snd] at hserved ⊢
  have hready := (h.withLock true).mapLoop (fun i s => vmallocHelper_log _ _ _ s)
    (fun i s hs hserved => hs.vmallocHelper hflags hpres hserved) hserved
  exact hready.withLock false

/-- `videntityCR3` with blank frames. -/
theorem Ready.videntityCR3 {s : Paging} {root v p n : ℕ} {flags : BitVec 64} (h : Ready s root)
    (hflags : FlagBits flags) (hpres : flags &&& 1 = 1)
    (hserved : ∀ e ∈ (videntityCR3 s v p n flags root).2.log, e.Served) :
    Ready (AnglOS.videntityCR3 s v p n flags root).2 root := by
  obtain ⟨b, hsnd⟩ := videntityCR3_snd s v p n flags root
  rw [hsnd] at hserved ⊢
  have hready := (h.withLock true).mapLoop (fun i s => videntityHelper_log _ _ _ _ s)
    (fun i s hs hserved => hs.videntityHelper hflags hpres hserved) hserved
  exact hready.withLock b

/-! ### Operations that are served -/

/-- The record reports no failed refill, and the next `k` frames are available. -/
structure Serves (s : Paging) (k : ℕ) : Prop where
  served : ∀ e ∈ s.log, e.Served
  available : Available s k

theorem Serves.mono {s : Paging} {k l : ℕ} (h : Serves s l) (hkl : k ≤ l) : Serves s k :=
  ⟨h.served, h.available.mono hkl⟩

/-- A change that leaves the allocator and the cache alone and adds only served events. -/
theorem Serves.keep {s s' : Paging} {k : ℕ} (h : Serves s k) (hsame : s.SameSource s')
    (hlog : ∀ e ∈ s'.log, e ∈ s.log ∨ e.Served) : Serves s' k := by
  refine ⟨fun e he => ?_, hsame.available h.available⟩
  rcases hlog e he with he | he
  · exact h.served e he
  · exact he

theorem Serves.setCR3 {s : Paging} {k : ℕ} (h : Serves s k) (root : ℕ) :
    Serves (pagingSetCR3 s root) k :=
  h.keep ⟨rfl, rfl, rfl⟩ fun _ he => Or.inl he

theorem Serves.pmallocBulk {s : Paging} {k : ℕ} (h : Serves s (k + 1)) :
    Serves (pmallocBulk s).2 k := by
  refine ⟨fun e he => ?_, h.available.next⟩
  by_cases hcurr : s.curr + 1 = numAlloc
  · rcases pmallocBulk_log_mem he with he | rfl
    · exact h.served e he
    · exact h.available.refillOk hcurr
  · simp only [AnglOS.pmallocBulk, if_neg hcurr] at he
    exact h.served e he

theorem Serves.pagingAllocTable {s : Paging} {k : ℕ} (h : Serves s (k + 1)) :
    Serves (pagingAllocTable s).2 k := by
  refine h.pmallocBulk.keep ⟨rfl, rfl, rfl⟩ fun e he => ?_
  rcases List.mem_append.mp he with he | he
  · exact Or.inl he
  · rw [List.mem_singleton.mp he]
    exact Or.inr trivial

theorem Serves.descend {s : Paging} {k t : ℕ} {i : Fin 512} {flags : BitVec 64}
    (h : Serves s (k + 1)) : Serves (pagingDescend s t i flags).2 k := by
  by_cases hz : s.entry t i = 0
  · rw [pagingDescend_of_zero hz]
    exact h.pagingAllocTable.keep ⟨rfl, rfl, rfl⟩ fun e he => Or.inl he
  · rw [pagingDescend_of_ne hz]
    exact h.mono (Nat.le_succ k)

theorem Serves.descendTo {s : Paging} {k v root : ℕ} {flags : BitVec 64}
    (h : Serves s (k + 3)) : Serves (pagingDescendTo s v root flags).2 k :=
  h.descend.descend.descend

theorem Serves.videntityHelper {s : Paging} {k v p root : ℕ} {flags : BitVec 64}
    (h : Serves s (k + 4)) : Serves (videntityHelper v p root flags s).2 k :=
  (h.mono (Nat.le_succ (k + 3))).descendTo.keep ⟨rfl, rfl, rfl⟩ fun _ he => Or.inl he

theorem Serves.vmallocHelper {s : Paging} {k v root : ℕ} {flags : BitVec 64}
    (h : Serves s (k + 4)) : Serves (vmallocHelper v root flags s).2 k := by
  have h₁ : Serves (pagingDescendTo s v root flags).2 (k + 1) := Serves.descendTo h
  refine h₁.pmallocBulk.keep ⟨rfl, rfl, rfl⟩ fun e he => ?_
  rcases List.mem_append.mp he with he | he
  · exact Or.inl he
  · rw [List.mem_singleton.mp he]
    exact Or.inr trivial

/-- A loop over `n` pages needs at most four frames for each. -/
theorem Serves.mapLoop {body : ℕ → Paging → ℕ × Paging}
    (hbody : ∀ i s k, Serves s (k + 4) → Serves (body i s).2 k) {s : Paging} {n k : ℕ}
    (h : Serves s (k + 4 * n)) : Serves (mapLoop body n s).2 k := by
  induction n generalizing k with
  | zero => exact h
  | succ n ih =>
      have hn : Serves (AnglOS.mapLoop body n s).2 (k + 4) := ih (h.mono (by omega))
      rcases hr : AnglOS.mapLoop body n s with ⟨_ | _, s₁⟩
      · rw [hr] at hn
        simpa [AnglOS.mapLoop, hr] using hn.mono (Nat.le_add_right k 4)
      · rw [hr] at hn
        simpa [AnglOS.mapLoop, hr] using hbody n s₁ k hn

/-- **Mapping `n` pages is served** if `4 * n` frames are available. -/
theorem Serves.vmallocCR3 {s : Paging} {v n root k : ℕ} {flags : BitVec 64}
    (h : Serves s (k + 4 * n)) : Serves (vmallocCR3 s v n flags root).2 k := by
  rw [vmallocCR3_snd]
  have hlock : Serves { s with lock := true } (k + 4 * n) :=
    h.keep ⟨rfl, rfl, rfl⟩ fun _ he => Or.inl he
  exact (hlock.mapLoop fun i s k hs => hs.vmallocHelper).keep ⟨rfl, rfl, rfl⟩
    fun _ he => Or.inl he

theorem Serves.videntityCR3 {s : Paging} {v p n root k : ℕ} {flags : BitVec 64}
    (h : Serves s (k + 4 * n)) : Serves (videntityCR3 s v p n flags root).2 k := by
  obtain ⟨b, hsnd⟩ := videntityCR3_snd s v p n flags root
  rw [hsnd]
  have hlock : Serves { s with lock := true } (k + 4 * n) :=
    h.keep ⟨rfl, rfl, rfl⟩ fun _ he => Or.inl he
  exact (hlock.mapLoop fun i s k hs => hs.videntityHelper).keep ⟨rfl, rfl, rfl⟩
    fun _ he => Or.inl he

/-- The frames left in the cache are available. -/
theorem available_of_curr {s : Paging} {k : ℕ} (h : s.curr + k < 64) : Available s k := by
  induction k generalizing s with
  | zero => exact fun j hj => absurd hj (Nat.not_lt_zero j)
  | succ k ih =>
      have hne : ¬ s.curr + 1 = numAlloc := by
        simp only [numAlloc]
        omega
      refine available_succ (fun hc => absurd hc hne) (ih ?_)
      simp only [pmallocBulk, if_neg hne]
      omega

/-- A refill makes 63 frames available. -/
theorem available_of_refill {s : Paging} (h : s.curr = 63) (hok : s.RefillOk) :
    Available s 63 := by
  refine available_succ hok (available_of_curr ?_)
  have hcurr : s.curr + 1 = numAlloc := by
    simp only [numAlloc]
    omega
  simp only [pmallocBulk, if_pos hcurr]
  omega

/-! ### Creating an address space -/

/-- The copy loop only writes to memory. -/
theorem copyKernelHalf_withMem (p4tp ker : ℕ) (s : Paging) :
    ∃ m, copyKernelHalf p4tp ker s = { s with mem := m } := by
  refine loop_invariant (fun _ s' => ∃ m, s' = { s with mem := m }) ⟨s.mem, rfl⟩ ?_
  rintro j - s' ⟨m, rfl⟩
  exact ⟨_, rfl⟩

/-- The state after `pagingCreateUser`. -/
theorem pagingCreateUser_withMem (s : Paging) :
    ∃ m, (pagingCreateUser s).2 = { (pagingAllocTable s).2 with mem := m } :=
  copyKernelHalf_withMem _ _ _

/-- **The copy loop**: the upper half of the new table is that of the table it is copied from,
and nothing else changes. -/
theorem copyKernelHalf_spec {s : Paging} {p4tp ker : ℕ} (hp : p4tp % pageSize = 0)
    (hk : ker % pageSize = 0) (hne : ker ≠ p4tp) :
    (∀ t i, t % pageSize = 0 → (copyKernelHalf p4tp ker s).entry t i
      = if t = p4tp ∧ 256 ≤ i.val then s.entry ker i else s.entry t i) ∧
    ∀ x, alignToPage x ≠ p4tp → (copyKernelHalf p4tp ker s).mem x = s.mem x := by
  have hloop := loop_invariant
    (f := fun k s => s.setEntry p4tp (Fin.ofNat 512 (256 + k))
      (s.entry ker (Fin.ofNat 512 (256 + k)))) (n := 256) (s := s)
    (fun j s' => (∀ t i, t % pageSize = 0 → s'.entry t i
        = if t = p4tp ∧ 256 ≤ i.val ∧ i.val < 256 + j then s.entry ker i else s.entry t i) ∧
      ∀ x, alignToPage x ≠ p4tp → s'.mem x = s.mem x)
    ⟨fun t i _ => by rw [if_neg (by omega)], fun _ _ => rfl⟩ ?_
  · obtain ⟨hent, hmem⟩ := hloop
    refine ⟨fun t i ht => (hent t i ht).trans ?_, hmem⟩
    have hi := i.isLt
    by_cases h : t = p4tp ∧ 256 ≤ i.val
    · rw [if_pos h, if_pos ⟨h.1, h.2, by omega⟩]
    · rw [if_neg h, if_neg fun hc => h ⟨hc.1, hc.2.1⟩]
  · rintro j hj s' ⟨hent, hmem⟩
    have hval : (Fin.ofNat 512 (256 + j)).val = 256 + j := by
      rw [Fin.val_ofNat]
      omega
    refine ⟨fun t i ht => ?_, fun x hx => ?_⟩
    · have hker : ∀ k, s'.entry ker k = s.entry ker k := fun k => by
        rw [hent ker k hk, if_neg fun hc => hne hc.1]
      rw [entry_setEntry hp ht, hker, hent t i ht]
      by_cases hi : i = Fin.ofNat 512 (256 + j)
      · have hiv : i.val = 256 + j := by rw [hi, hval]
        rw [← hi]
        simp [hiv]
      · have hiv : i.val ≠ 256 + j := fun hc => hi (Fin.ext (hc.trans hval.symm))
        have hlt : i.val < 256 + (j + 1) ↔ i.val < 256 + j := by omega
        rw [if_neg fun hc => hi hc.2]
        simp only [hlt]
    · rw [setEntry_mem hp hx, hmem x hx]

/-- **`pagingCreateUser`** issues a frame; its first entry is zero, its upper half is that of
the boot processor's table, and the rest of its lower half is what the frame held. -/
theorem pagingCreateUser_spec {s : Paging} (hs : Supply s) (hok : s.RefillOk)
    (hbsp : s.bspCr3 % pageSize = 0) (hbsp' : s.bspCr3 ∉ s.unissued) :
    (pagingCreateUser s).1 ∈ s.unissued ∧ Supply (pagingCreateUser s).2 ∧
      (pagingCreateUser s).2.unissued ⊆ s.unissued \ {(pagingCreateUser s).1} ∧
      (∀ t i, t % pageSize = 0 → (pagingCreateUser s).2.entry t i
        = if t = (pagingCreateUser s).1 then
            if 256 ≤ i.val then s.entry s.bspCr3 i
            else if i = 0 then 0 else s.entry (pagingCreateUser s).1 i
          else s.entry t i) ∧
      (∀ x, alignToPage x ≠ (pagingCreateUser s).1 → (pagingCreateUser s).2.mem x = s.mem x) ∧
      s.Kept (pagingCreateUser s).2 := by
  obtain ⟨hf, hsup, hsub, hent, hmem, hkept⟩ := pagingAllocTable_spec hs hok
  have hfmod := hs.aligned _ hf
  have hne : s.bspCr3 ≠ (pagingAllocTable s).1 := fun h => hbsp' (h ▸ hf)
  have hker : (pagingAllocTable s).2.bspCr3 = s.bspCr3 := hkept.bspCr3
  have hfst : (pagingCreateUser s).1 = (pagingAllocTable s).1 := rfl
  have hsnd : (pagingCreateUser s).2
      = copyKernelHalf (pagingAllocTable s).1 s.bspCr3 (pagingAllocTable s).2 := by
    rw [pagingCreateUser, hker]
  obtain ⟨hcopy, hcmem⟩ := copyKernelHalf_spec (s := (pagingAllocTable s).2) hfmod hbsp hne
  obtain ⟨m, hm⟩ := copyKernelHalf_withMem (pagingAllocTable s).1 s.bspCr3 (pagingAllocTable s).2
  rw [hfst, hsnd]
  refine ⟨hf, ?_, ?_, fun t i ht => ?_, fun x hx => ?_, ?_⟩
  · rw [hm]
    exact ⟨hsup.1, hsup.2, hsup.3, hsup.4, hsup.5, hsup.6, hsup.7⟩
  · rw [hm]
    exact hsub
  · have hker' : (pagingAllocTable s).2.entry s.bspCr3 i = s.entry s.bspCr3 i := by
      rw [hent s.bspCr3 i hbsp, if_neg fun hc => hne hc.1]
    rw [hcopy t i ht, hker', hent t i ht]
    by_cases htf : t = (pagingAllocTable s).1
    · simp [htf]
    · simp [htf]
  · rw [hcmem x hx, hmem x hx]
  · rw [hm]
    exact ⟨hkept.pmm, hkept.cr3, hkept.bspCr3, hkept.log⟩

/-! ### A memory of one block -/

/-- A paging layer over the allocator `oneBlock`, with an unused cache, the top-level table at
`0x1000` and the same byte everywhere in memory. -/
def filledWith (b : BitVec 8) : Paging where
  mem := fun _ => b
  pmm := oneBlock
  bulk := fun _ => 0
  curr := 63
  cr3 := 0x1000
  bspCr3 := 0x1000
  lock := false
  log := []

theorem filledWith_pmm (b : BitVec 8) : (filledWith b).pmm = oneBlock := rfl

theorem filledWith_unissued {b : BitVec 8} {f : ℕ} (h : f ∈ (filledWith b).unissued) :
    ∃ p, 64 ≤ p ∧ p < 128 ∧ f = p * pageSize := by
  simp only [Paging.unissued, Set.mem_ofPred_eq, filledWith_pmm, oneBlock_freePages,
    Finset.mem_Ico] at h
  rcases h with ⟨i, hi, hi', -⟩ | ⟨p, hp, rfl⟩
  · exact absurd hi (by simp only [filledWith]; omega)
  · exact ⟨p, hp.1, hp.2, rfl⟩

theorem filledWith_supply (b : BitVec 8) : Supply (filledWith b) := by
  have hok : oneBlockClient.Ok :=
    oneBlock_partition.ok oneBlock_layout oneBlock_fresh (Finset.disjoint_empty_left _)
  refine ⟨hok.sound, hok.apart, le_rfl, ?_, ?_, ?_, ?_⟩
  · intro i j hi hi'
    exact absurd hi (by simp only [filledWith]; omega)
  · intro i hi hi'
    exact absurd hi (by simp only [filledWith]; omega)
  · intro f hf
    obtain ⟨p, -, -, rfl⟩ := filledWith_unissued hf
    exact Nat.mul_mod_left p pageSize
  · intro f hf
    obtain ⟨p, -, hp, rfl⟩ := filledWith_unissued hf
    simp only [pageSize]
    omega

theorem filledWith_root (b : BitVec 8) : (filledWith b).bspCr3 ∉ (filledWith b).unissued := by
  intro h
  obtain ⟨p, hp, -, heq⟩ := filledWith_unissued h
  simp only [filledWith, pageSize] at heq
  omega

theorem filledWith_refillOk (b : BitVec 8) : (filledWith b).RefillOk := by
  intro _
  rw [filledWith_pmm, oneBlock_pmalloc.2]
  decide

theorem filledWith_entry (b : BitVec 8) (t : ℕ) (i : Fin 512) :
    (filledWith b).entry t i = b ++ b ++ b ++ b ++ b ++ b ++ b ++ b := rfl

/-- The frames of a memory full of zeros are blank. -/
theorem filledWith_blanks : Blanks (filledWith 0) := by
  intro f _ i _
  rw [filledWith_entry]
  rfl

/-- The first address space in a memory full of ones: the table keeps the word of its frame,
and a lower-half page translates through it. -/
theorem filledWith_createUser :
    (pagingCreateUser (filledWith 0xFF)).2.walk (pagingCreateUser (filledWith 0xFF)).1
      0x8000000000 = some (frameMask.toNat, ~~~frameMask) := by
  obtain ⟨hf, -, -, hent, -⟩ := pagingCreateUser_spec (filledWith_supply 0xFF)
    (filledWith_refillOk _) rfl (filledWith_root _)
  have hfmod := (filledWith_supply 0xFF).aligned _ hf
  obtain ⟨p, -, hp, hfp⟩ := filledWith_unissued hf
  have hword : ∀ t i, (filledWith 0xFF).entry t i = BitVec.allOnes 64 := fun t i => by
    rw [filledWith_entry]
    rfl
  have hframe : frameOf (BitVec.allOnes 64) = frameMask.toNat := by decide
  have hne : frameMask.toNat ≠ (pagingCreateUser (filledWith 0xFF)).1 := by
    have hmask : frameMask.toNat = 0x000FFFFFFFFFF000 := rfl
    rw [hfp, hmask]
    simp only [pageSize]
    omega
  have hroot : (pagingCreateUser (filledWith 0xFF)).2.entry (pagingCreateUser (filledWith 0xFF)).1
      (pageP4E 0x8000000000) = BitVec.allOnes 64 := by
    rw [hent _ _ hfmod, if_pos rfl, if_neg (by decide), if_neg (by decide), hword]
  have hbelow : ∀ i, (pagingCreateUser (filledWith 0xFF)).2.entry frameMask.toNat i
      = BitVec.allOnes 64 := fun i => by
    rw [hent _ _ (by decide), if_neg hne, hword]
  have hones : BitVec.allOnes 64 ≠ 0 := by decide
  have hleaf : (pagingCreateUser (filledWith 0xFF)).2.leaf (pagingCreateUser (filledWith 0xFF)).1
      0x8000000000 = BitVec.allOnes 64 := by
    rw [Paging.leaf, Paging.entryAt, entryAt_of_tableAt (t := frameMask.toNat)]
    · exact hbelow _
    · simp only [pagePath, tableAt, hroot, hbelow, hframe, if_neg hones]
  rw [Paging.walk, hleaf, if_neg hones, hframe]
  decide

/-! ### Stray translations -/

/-- New tables bring in no translations of their own: every table that a later call of
`pagingAllocTable` returns is empty; mapping a range below any tree, as long as refills succeed,
leaves the translation of every page outside of the range alone; a new address space translates
no page of the lower half and has the upper half of the boot processor's table. -/
structure NoStray (s : Paging) : Prop where
  /-- Tables are empty. -/
  tables : ∀ k, Available s (k + 1) → ∀ i, (pagingAllocTable (issueState s k)).2.entry
    (pagingAllocTable (issueState s k)).1 i = 0
  /-- `vmallocCR3`. -/
  vmalloc : ∀ root v n flags, Tree s root → FlagBits flags → flags &&& 1 = 1 →
    (∀ e ∈ (vmallocCR3 s v n flags root).2.log, e.Served) →
    ∀ w, (∀ i < n, pageNumber w ≠ pageNumber (add64 v (i * pageSize))) →
      (vmallocCR3 s v n flags root).2.walk root w = s.walk root w
  /-- `videntityCR3`. -/
  videntity : ∀ root v p n flags, Tree s root → FlagBits flags → flags &&& 1 = 1 →
    (∀ e ∈ (videntityCR3 s v p n flags root).2.log, e.Served) →
    ∀ w, (∀ i < n, pageNumber w ≠ pageNumber (add64 v (i * pageSize))) →
      (videntityCR3 s v p n flags root).2.walk root w = s.walk root w
  /-- `pagingCreateUser`, lower half. -/
  lower : s.RefillOk → ∀ w, (pageP4E w).val < 256 →
    (pagingCreateUser s).2.walk (pagingCreateUser s).1 w = none
  /-- `pagingCreateUser`, upper half. -/
  upper : s.RefillOk → ∀ i : Fin 512, 256 ≤ i.val →
    (pagingCreateUser s).2.entry (pagingCreateUser s).1 i = s.entry s.bspCr3 i

/-- A page whose top-level entry is absent is not translated. -/
theorem walk_eq_none_of_entry {s : Paging} {root v : ℕ} (h : s.entry root (pageP4E v) = 0) :
    s.walk root v = none := by
  have hleaf : s.leaf root v = 0 := by
    refine entryAt_of_tableAt_none ?_
    rw [pagePath, tableAt, if_pos h]
  rw [Paging.walk, if_pos hleaf]

theorem issueState_supply {s : Paging} (h : Supply s) {k : ℕ} (hk : Available s k) :
    Supply (issueState s k) ∧ (issueState s k).mem = s.mem := by
  induction k generalizing s with
  | zero => exact ⟨h, rfl⟩
  | succ k ih =>
      obtain ⟨-, hsup, -, hmem, -⟩ := pmallocBulk_spec h hk.refillOk
      obtain ⟨h1, h2⟩ := ih hsup hk.next
      exact ⟨h1, h2.trans hmem⟩

/-- The entries of the `k`-th table that is allocated from here on. -/
theorem table_empty_iff {s : Paging} (hs : Supply s) {k : ℕ} (hk : Available s (k + 1)) :
    (∀ i, (pagingAllocTable (issueState s k)).2.entry
      (pagingAllocTable (issueState s k)).1 i = 0) ↔
      ∀ i : Fin 512, i ≠ 0 → s.entry (pmallocBulk (issueState s k)).1 i = 0 := by
  obtain ⟨hsup, hmem⟩ := issueState_supply hs (hk.mono (Nat.le_succ k))
  rw [pagingAllocTable_blank hsup (hk k (Nat.lt_succ_self k))]
  simp only [Paging.entry, hmem]

/-- **New page tables bring in no stray translations exactly if the frames to come are blank**:
if every frame that a later call of `pmallocBulk` returns holds zero in its words 1 to 511. -/
theorem noStray_iff {s : Paging} (hs : Supply s) (hlog : s.log = [])
    (hbsp : s.bspCr3 % pageSize = 0) (hbsp' : s.bspCr3 ∉ s.unissued) :
    NoStray s ↔ Blanks s := by
  constructor
  · rintro h f ⟨k, hk, rfl⟩
    exact (table_empty_iff hs hk).mp (h.tables k hk)
  · intro hb
    have hready : ∀ root, Tree s root → Ready s root := fun root ht =>
      ⟨hs, ht, hb, by simp [hlog]⟩
    refine ⟨fun k hk => ?_, fun root v n flags ht hflags hpres hserved w hw => ?_,
      fun root v p n flags ht hflags hpres hserved w hw => ?_, fun hok w hw => ?_,
      fun hok i hi => ?_⟩
    · exact (table_empty_iff hs hk).mpr (hb _ ⟨k, hk, rfl⟩)
    · have hgood := ((hready root ht).vmallocCR3 hflags hpres hserved).good
      exact walk_congr ((vmallocCR3_reshapes hs ht hflags hpres hgood).2 w hw)
    · have hgood := ((hready root ht).videntityCR3 hflags hpres hserved).good
      exact walk_congr ((videntityCR3_reshapes hs ht hflags hpres hgood).2 w hw)
    · obtain ⟨hf, -, -, hent, -⟩ := pagingCreateUser_spec hs hok hbsp hbsp'
      refine walk_eq_none_of_entry ?_
      rw [hent _ _ (hs.aligned _ hf), if_pos rfl, if_neg (by omega)]
      split_ifs with h0
      · rfl
      · exact hb.head hok _ h0
    · obtain ⟨hf, -, -, hent, -⟩ := pagingCreateUser_spec hs hok hbsp hbsp'
      rw [hent _ _ (hs.aligned _ hf), if_pos rfl, if_pos hi]

/-- The condition on the frames is met in a memory full of zeros, and there are no stray
translations there. -/
theorem noStray_iff_zeros : Blanks (filledWith 0) ∧ NoStray (filledWith 0) :=
  ⟨filledWith_blanks, (noStray_iff (filledWith_supply 0) rfl rfl (filledWith_root 0)).mpr
    filledWith_blanks⟩

/-- **Stale frames make stray translations**: in a memory full of ones the first table that is
allocated has an entry, and the first new address space translates the lower-half page
`0x8000000000`. -/
theorem stray_in_stale_frame : ¬ NoStray (filledWith 0xFF) ∧
    (pagingAllocTable (filledWith 0xFF)).2.entry (pagingAllocTable (filledWith 0xFF)).1 1
      = BitVec.allOnes 64 ∧
    (pagingCreateUser (filledWith 0xFF)).2.walk (pagingCreateUser (filledWith 0xFF)).1
      0x8000000000 = some (frameMask.toNat, ~~~frameMask) := by
  refine ⟨fun h => ?_, ?_, filledWith_createUser⟩
  · have hnone := h.lower (filledWith_refillOk _) 0x8000000000 (by decide)
    rw [filledWith_createUser] at hnone
    cases hnone
  · obtain ⟨hf, -, -, hent, -⟩ := pagingAllocTable_spec (filledWith_supply 0xFF)
      (filledWith_refillOk _)
    rw [hent _ _ ((filledWith_supply 0xFF).aligned _ hf), if_neg fun hc => absurd hc.2 (by decide),
      filledWith_entry]
    rfl

/-! ### Exact mapping -/

/-- **Page mapping is exact.** In a well-formed tree, with documented flags that have the
present bit, for every range of at most `2 ^ 36` pages that does not wrap and does not contain
the address 0, and if every refill of the bulk cache succeeds and every new table is filled
with zeros: after `videntityCR3` to page-aligned physical addresses below `2 ^ 52`, and after
`vmallocCR3`, each page of the range translates to its frame with exactly these flags, every
page with another number translates as before, and the tree is well formed again. For
`vmallocCR3` the frames are the data frames it issued, in order. -/
theorem map_range_exact {s : Paging} {root v n : ℕ} {flags : BitVec 64} (hs : Supply s)
    (ht : Tree s root) (hlog : s.log = []) (hflags : flags &&& ~~~pageFlags = 0)
    (hpres : flags &&& pageFlagPresent = pageFlagPresent) (hn : n ≤ 2 ^ 36)
    (hwrap : v + n * pageSize ≤ 2 ^ 64) (hzero : ∀ i < n, v + i * pageSize ≠ 0) :
    (∀ p, p % pageSize = 0 → p + n * pageSize ≤ 2 ^ 52 →
      (∀ e ∈ (videntityCR3 s v p n flags root).2.log, e.Good) →
      MapsRange s (videntityCR3 s v p n flags root).2 root v n
        fun i => some (p + i * pageSize, flags)) ∧
    ((∀ e ∈ (vmallocCR3 s v n flags root).2.log, e.Good) →
      (dataFrames (vmallocCR3 s v n flags root).2.log).length = n ∧
      MapsRange s (vmallocCR3 s v n flags root).2 root v n
        fun i => (dataFrames (vmallocCR3 s v n flags root).2.log)[i]?.map fun f => (f, flags)) := by
  have hbits := FlagBits.of_documented hflags
  exact ⟨fun p hp hp52 hok => videntityCR3_maps hs ht hbits hpres hn hwrap hzero hp hp52 hok,
    fun hok => vmallocCR3_maps hs ht hlog hbits hpres hn hwrap hzero hok⟩

/-- In a memory full of zeros all entries are zero. -/
theorem filledWith_zero (t : ℕ) (i : Fin 512) : (filledWith 0).entry t i = 0 := by
  rw [filledWith_entry]
  rfl

/-- A memory full of zeros has no entries. -/
theorem filledWith_entryAt (p : List (Fin 512)) (i : Fin 512) :
    (filledWith 0).entryAt 0x1000 p i = 0 := by
  by_contra hz
  obtain ⟨t, -, hent⟩ := exists_tableAt_of_entryAt_ne hz
  exact hz (hent.symm.trans (filledWith_zero t i))

/-- The top-level table in a memory full of zeros is a tree. -/
theorem filledWith_tree : Tree (filledWith 0) 0x1000 :=
  tree_of_empty rfl (filledWith_root 0) (filledWith_zero 0x1000)

/-- Mapping up to 15 pages in a memory full of zeros reports no failure. -/
theorem filledWith_good {v p n : ℕ} {flags : BitVec 64} (hn : 4 * n ≤ 63)
    (hflags : FlagBits flags) (hpres : flags &&& 1 = 1) :
    (∀ e ∈ (videntityCR3 (filledWith 0) v p n flags 0x1000).2.log, e.Good) ∧
      ∀ e ∈ (vmallocCR3 (filledWith 0) v n flags 0x1000).2.log, e.Good := by
  have hserves : Serves (filledWith 0) (0 + 4 * n) :=
    ⟨fun e he => absurd he List.not_mem_nil,
      (available_of_refill rfl (filledWith_refillOk 0)).mono (by omega)⟩
  have hready : Ready (filledWith 0) 0x1000 :=
    ⟨filledWith_supply 0, filledWith_tree, filledWith_blanks,
      fun e he => absurd he List.not_mem_nil⟩
  exact ⟨(hready.videntityCR3 hflags hpres hserves.videntityCR3.served).good,
    (hready.vmallocCR3 hflags hpres hserves.vmallocCR3.served).good⟩

/-- Two pages across the boundary between two level-1 tables, mapped in a memory full of
zeros. -/
theorem map_range_exact_zeros :
    MapsRange (filledWith 0) (videntityCR3 (filledWith 0) 0x1FF000 0x200000 2 3 0x1000).2 0x1000
        0x1FF000 2 (fun i => some (0x200000 + i * pageSize, 3)) ∧
      (dataFrames (vmallocCR3 (filledWith 0) 0x1FF000 2 3 0x1000).2.log).length = 2 := by
  obtain ⟨hid, hmalloc⟩ := map_range_exact (v := 0x1FF000) (n := 2) (filledWith_supply 0)
    filledWith_tree rfl (by decide : (3 : BitVec 64) &&& ~~~pageFlags = 0) (by decide)
    (by decide) (by decide) (by decide)
  obtain ⟨hgood, hgood'⟩ := filledWith_good (v := 0x1FF000) (p := 0x200000) (n := 2)
    (by decide) (by unfold FlagBits; decide : FlagBits 3) (by decide)
  exact ⟨hid 0x200000 (by decide) (by decide) hgood, (hmalloc hgood').1⟩

/-- **Mapping across the end of the lower half** changes the translation of a page that is not
in the range: two pages from `0x7FFFFFFFF000` on do not contain `0xFFFF800000000000`, but the
second one has the same bits 12 to 47. -/
theorem map_range_aliases :
    (∀ e ∈ (videntityCR3 (filledWith 0) 0x7FFFFFFFF000 0x200000 2 3 0x1000).2.log, e.Good) ∧
      (∀ i < 2, 0xFFFF800000000000 ≠ 0x7FFFFFFFF000 + i * pageSize) ∧
      (filledWith 0).walk 0x1000 0xFFFF800000000000 = none ∧
      (videntityCR3 (filledWith 0) 0x7FFFFFFFF000 0x200000 2 3 0x1000).2.walk 0x1000
        0xFFFF800000000000 = some (0x201000, 3) := by
  have hflags : FlagBits 3 := by
    unfold FlagBits
    decide
  obtain ⟨hgood, -⟩ := filledWith_good (v := 0x7FFFFFFFF000) (p := 0x200000) (n := 2)
    (by decide) hflags (by decide)
  have hmaps := videntityCR3_maps (v := 0x7FFFFFFFF000) (p := 0x200000) (n := 2)
    (filledWith_supply 0) filledWith_tree hflags (by decide) (by decide) (by decide) (by decide)
    (by decide) (by decide) hgood
  refine ⟨hgood, by decide, walk_eq_none_of_entry ?_, ?_⟩
  · rw [filledWith_entry]
    rfl
  · have hpage : pageNumber 0xFFFF800000000000 = pageNumber (0x7FFFFFFFF000 + 1 * pageSize) := by
      decide
    have hwalk := hmaps.range 1 (by decide)
    rw [Paging.walk, leaf_congr _ _ hpage]
    exact hwalk

end AnglOS
