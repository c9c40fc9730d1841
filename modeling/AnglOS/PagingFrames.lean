import AnglOS.PagingLedger
import AnglOS.PagingLock

/-!
# The Frames of a Call

Which frames a call of `vmalloc` takes is fixed before the call: the frames that later calls of
`pmallocBulk` return are those of the cache and of the blocks that `pmalloc` finds.

* `frameToCome`, `FrameServed` — a frame that a later call returns, from a block of `pmalloc`.
* `Issues` — a call issues the frames to come, in order.
* `Orderly` — an allocator and a tree in order; a mapping in which nothing goes wrong keeps it.

## Main results

* `vmallocCR3_issues_frames` — every call issues the frames to come;
* `Orderly.tableAt_vmallocHelper`, `Orderly.tableAt_videntityHelper` — which tables are missing
  after a page is mapped.
-/

namespace AnglOS

open Pmm

/-! ### The frames to come -/

/-- The frame that an event issues. -/
def PagingEvent.issued : PagingEvent → Option ℕ
  | .table pptr _ | .data pptr => some pptr
  | .block _ | .freed _ => none

/-- The frames that were issued, as tables or as data pages. -/
def issuedFrames (log : List PagingEvent) : List ℕ := log.filterMap PagingEvent.issued

theorem length_issuedFrames (log : List PagingEvent) :
    (issuedFrames log).length = framesIssued log := by
  rw [issuedFrames, List.length_filterMap_eq_countP, framesIssued]
  congr 1
  funext e
  cases e <;> rfl

/-- The frames that were issued since the state `s`. -/
def installed (s s' : Paging) : List ℕ :=
  (issuedFrames s'.log).drop (issuedFrames s.log).length

/-- The frame is a page of a block that `pmalloc` returned. -/
def FromBlock (log : List PagingEvent) (f : ℕ) : Prop :=
  ∃ p, PagingEvent.block p ∈ log ∧ p ≠ 0 ∧ ∃ i < numAlloc, f = p + i * pageSize

/-- The frame that the call of `pmallocBulk` after `j` others returns. -/
def frameToCome (s : Paging) (j : ℕ) : ℕ := (pmallocBulk (issueState s j)).1

/-- That frame is a page of a block that `pmalloc` has returned by then. -/
def FrameServed (s : Paging) (j : ℕ) : Prop :=
  FromBlock (issueState s (j + 1)).log (frameToCome s j)

theorem FromBlock.ne_zero {log : List PagingEvent} {f : ℕ} (h : FromBlock log f) : f ≠ 0 := by
  obtain ⟨p, -, hp, i, -, rfl⟩ := h
  omega

/-- The last of several calls of `pmallocBulk`. -/
theorem issueState_succ (s : Paging) (k : ℕ) :
    issueState s (k + 1) = (pmallocBulk (issueState s k)).2 := by
  induction k generalizing s with
  | zero => rfl
  | succ k ih => exact ih (pmallocBulk s).2

/-- The blocks in the record after a frame was issued. -/
theorem block_mem_pmallocBulk (s : Paging) (p : ℕ) :
    PagingEvent.block p ∈ (pmallocBulk s).2.log ↔
      .block p ∈ s.log ∨ s.curr + 1 = numAlloc ∧ p = (pmalloc s.pmm numAlloc).1 := by
  rcases pmallocBulk_cases s with ⟨hfull, heq⟩ | ⟨hfull, heq⟩
  · rw [heq]
    simp [Paging.record, hfull]
  · rw [heq]
    simp [hfull]

/-- A refill that fails issues the page at address 0. -/
theorem refillOk_of_served {s : Paging} {j : ℕ} (h : FrameServed s j) :
    (issueState s j).RefillOk := by
  intro hfull hnull
  refine h.ne_zero ?_
  rw [frameToCome, pmallocBulk]
  simp [hfull, hnull]

theorem available_of_served {s : Paging} {k : ℕ} (h : ∀ j < k, FrameServed s j) : Available s k :=
  fun j hj => refillOk_of_served (h j hj)

/-- The same allocator and cache, and the same blocks in the record. -/
structure Paging.SameHistory (s s' : Paging) : Prop extends s.SameSource s' where
  blocks : ∀ p, PagingEvent.block p ∈ s'.log ↔ .block p ∈ s.log

theorem Paging.SameHistory.fromBlock {s s' : Paging} (h : s.SameHistory s') (f : ℕ) :
    FromBlock s'.log f ↔ FromBlock s.log f :=
  exists_congr fun p => and_congr_left' (h.blocks p)

/-- An event that is no block. -/
theorem Paging.SameHistory.record {s s' : Paging} (h : s.SameHistory s') {e : PagingEvent}
    (he : ∀ p, e ≠ .block p) : s.SameHistory (s'.record e) := by
  refine ⟨⟨h.pmm, h.bulk, h.curr⟩, fun p => ?_⟩
  rw [← h.blocks p, Paging.record, List.mem_append, List.mem_singleton,
    or_iff_left (he p).symm]

theorem Paging.SameHistory.pmallocBulk {s s' : Paging} (h : s.SameHistory s') :
    (pmallocBulk s').1 = (AnglOS.pmallocBulk s).1 ∧
      (AnglOS.pmallocBulk s).2.SameHistory (AnglOS.pmallocBulk s').2 := by
  obtain ⟨hfst, hsame⟩ := h.toSameSource.pmallocBulk
  refine ⟨hfst, hsame, fun p => ?_⟩
  rw [block_mem_pmallocBulk, block_mem_pmallocBulk, h.blocks p, h.curr, h.pmm]

theorem Paging.SameHistory.issueState {s s' : Paging} (h : s.SameHistory s') (k : ℕ) :
    (issueState s k).SameHistory (issueState s' k) := by
  induction k generalizing s s' with
  | zero => exact h
  | succ k ih => exact ih h.pmallocBulk.2

/-! ### The frames that a call issues -/

/-- The state `t` is one after `k` frames were issued. -/
structure Issues (s t : Paging) (k : ℕ) : Prop where
  /-- The record goes on. -/
  log : s.log <+: t.log
  /-- The frames. -/
  frames : issuedFrames t.log = issuedFrames s.log ++ (List.range k).map (frameToCome s)
  /-- The allocator, the cache and the blocks. -/
  source : (issueState s k).SameHistory t
  /-- Each frame was a page of a block when it was issued if it was to be one. -/
  served : (∀ l e f, s.log ++ l ++ [e] <+: t.log → e.issued = some f → FromBlock (s.log ++ l) f) ↔
    ∀ j < k, FrameServed s j

theorem Issues.refl (s : Paging) : Issues s s 0 := by
  refine ⟨List.prefix_rfl, by simp, ⟨⟨rfl, rfl, rfl⟩, fun _ => Iff.rfl⟩,
    iff_of_true (fun l e f hl => ?_) fun j hj => absurd hj (Nat.not_lt_zero j)⟩
  have hlen := hl.length_le
  simp only [List.length_append, List.length_singleton] at hlen
  omega

/-- A change that leaves the allocator, the cache and the record alone. -/
theorem Issues.keep {s t t' : Paging} {k : ℕ} (h : Issues s t k) (hsame : t.SameSource t')
    (hlog : t'.log = t.log) : Issues s t' k := by
  refine ⟨hlog ▸ h.log, hlog ▸ h.frames, ⟨⟨hsame.pmm.trans h.source.pmm,
    hsame.bulk.trans h.source.bulk, hsame.curr.trans h.source.curr⟩, fun p => ?_⟩, hlog ▸ h.served⟩
  rw [hlog]
  exact h.source.blocks p

/-- A refill issues no frame. -/
theorem issuedFrames_pmallocBulk (s : Paging) :
    issuedFrames (pmallocBulk s).2.log = issuedFrames s.log := by
  rcases pmallocBulk_cases s with ⟨-, heq⟩ | ⟨-, heq⟩
  · rw [heq]
    simp [issuedFrames, Paging.record, PagingEvent.issued]
  · rw [heq]

/-- The events of a refill issue no frame. -/
theorem prefix_of_issued {t : Paging} {l : List PagingEvent} {e : PagingEvent} {f : ℕ}
    (hl : l ++ [e] <+: (pmallocBulk t).2.log) (he : e.issued = some f) : l ++ [e] <+: t.log := by
  rcases pmallocBulk_cases t with ⟨-, heq⟩ | ⟨-, heq⟩
  · rw [heq] at hl
    rcases List.prefix_concat_iff.mp hl with hl | hl
    · obtain ⟨-, rfl⟩ := List.append_inj' hl rfl |>.imp_right List.singleton_inj.mp
      cases he
    · exact hl
  · rwa [heq] at hl

theorem ne_block_of_issued {e : PagingEvent} {f : ℕ} (he : e.issued = some f) (p : ℕ) :
    e ≠ .block p := by
  rintro rfl
  cases he

/-- **One more frame** is the next one. -/
theorem Issues.issue {s t : Paging} {k : ℕ} (h : Issues s t k) {e : PagingEvent}
    (he : e.issued = some (pmallocBulk t).1) : Issues s ((pmallocBulk t).2.record e) (k + 1) := by
  obtain ⟨hfst, hsnd⟩ := h.source.pmallocBulk
  have hnext : (issueState s (k + 1)).SameHistory (pmallocBulk t).2 := issueState_succ s k ▸ hsnd
  have hserved : FromBlock (pmallocBulk t).2.log (pmallocBulk t).1 ↔ FrameServed s k := by
    rw [hnext.fromBlock, hfst]
    rfl
  have hlog : s.log <+: (pmallocBulk t).2.log := h.log.trans (pmallocBulk_log t)
  refine ⟨hlog.trans (List.prefix_append _ _), ?_, hnext.record (ne_block_of_issued he), ?_⟩
  · have hlast : issuedFrames ((pmallocBulk t).2.record e).log
        = issuedFrames (pmallocBulk t).2.log ++ [(pmallocBulk t).1] := by
      simp [issuedFrames, Paging.record, he]
    rw [hlast, issuedFrames_pmallocBulk, h.frames, hfst, List.range_succ, List.map_append,
      List.append_assoc]
    rfl
  · constructor
    · intro hall j hj
      rcases Nat.lt_succ_iff_lt_or_eq.mp hj with hj | rfl
      · exact h.served.mp (fun l e' f hl => hall l e' f (hl.trans ((pmallocBulk_log t).trans
          (List.prefix_append _ _)))) j hj
      · obtain ⟨l, hl⟩ := hlog
        rw [← hserved, ← hl]
        exact hall l e _ (by rw [hl]; exact List.prefix_rfl) he
    · intro hall l e' f hl he'
      rcases List.prefix_concat_iff.mp hl with hl | hl
      · obtain ⟨hlast, he''⟩ := List.append_inj' hl rfl
        obtain rfl := List.singleton_inj.mp he''
        obtain rfl := Option.some.inj (he'.symm.trans he)
        rw [hlast]
        exact hserved.mpr (hall k (Nat.lt_succ_self k))
      · exact h.served.mpr (fun j hj => hall j (Nat.lt_succ_of_lt hj)) l e' f
          (prefix_of_issued hl he') he'

theorem Issues.installed_eq {s t : Paging} {k : ℕ} (h : Issues s t k) :
    installed s t = (List.range k).map (frameToCome s) := by
  rw [installed, h.frames, List.drop_left]

/-- **A call issues the frames to come.** -/
theorem vmallocCR3_issues_frames (s : Paging) (v n : ℕ) (flags : BitVec 64) (root : ℕ) :
    ∃ k, Issues s (vmallocCR3 s v n flags root).2 k := by
  refine vmallocCR3_issues (Q := fun t => ∃ k, Issues s t k) ?_ ?_ ?_ ?_ ⟨0, Issues.refl s⟩
  · rintro t m ⟨k, hk⟩
    exact ⟨k, hk.keep ⟨rfl, rfl, rfl⟩ rfl⟩
  · rintro t b ⟨k, hk⟩
    exact ⟨k, hk.keep ⟨rfl, rfl, rfl⟩ rfl⟩
  · rintro t b ⟨k, hk⟩
    exact ⟨k + 1, hk.issue rfl⟩
  · rintro t ⟨k, hk⟩
    exact ⟨k + 1, hk.issue rfl⟩

/-! ### A record behind another -/

/-- The state with an older record. -/
def Paging.behind (s : Paging) (old : List PagingEvent) : Paging := { s with log := old ++ s.log }

/-- The state without its record. -/
def Paging.forget (s : Paging) : Paging := { s with log := [] }

theorem Paging.forget_behind (s : Paging) : s.forget.behind s.log = s := by
  rw [behind, forget, List.append_nil]

section

variable (s : Paging) (old : List PagingEvent)

theorem behind_pmallocBulk :
    pmallocBulk (s.behind old) = ((pmallocBulk s).1, (pmallocBulk s).2.behind old) := by
  unfold pmallocBulk
  by_cases hfull : s.curr + 1 = numAlloc
  · simp [Paging.behind, Paging.record, hfull]
  · simp [Paging.behind, hfull]

theorem behind_pagingDescend (tab : ℕ) (i : Fin 512) (flags : BitVec 64) :
    pagingDescend (s.behind old) tab i flags
      = ((pagingDescend s tab i flags).1, (pagingDescend s tab i flags).2.behind old) := by
  by_cases hz : s.entry tab i = 0
  · have hz' : (s.behind old).entry tab i = 0 := hz
    have halloc : pagingAllocTable (s.behind old)
        = ((pagingAllocTable s).1, (pagingAllocTable s).2.behind old) := by
      rw [pagingAllocTable, behind_pmallocBulk]
      simp only [pagingAllocTable, Paging.behind, Paging.record, List.append_assoc]
      rfl
    refine Prod.ext ?_ ?_
    · rw [pagingDescend_fst, pagingDescend_fst, pagingDescend_of_zero hz, pagingDescend_of_zero hz',
        halloc]
      rfl
    · rw [pagingDescend_of_zero hz, pagingDescend_of_zero hz', halloc]
      rfl
  · have hz' : (s.behind old).entry tab i ≠ 0 := hz
    rw [pagingDescend_of_ne hz, pagingDescend_of_ne hz']
    rfl

theorem behind_vmallocHelper (v root : ℕ) (flags : BitVec 64) :
    vmallocHelper v root flags (s.behind old)
      = ((vmallocHelper v root flags s).1, (vmallocHelper v root flags s).2.behind old) := by
  simp only [vmallocHelper, pagingDescendTo, behind_pagingDescend, behind_pmallocBulk]
  simp only [Paging.behind, Paging.record, pagingAddEntry, Paging.setEntry, List.append_assoc]

/-- **A call does not read the record**, and only adds to it. -/
theorem behind_vmallocCR3 (v n : ℕ) (flags : BitVec 64) (root : ℕ) :
    (vmallocCR3 (s.behind old) v n flags root).2
      = (vmallocCR3 s v n flags root).2.behind old := by
  have hloop : ∀ n t, mapLoop (fun i => vmallocHelper (add64 v (i * pageSize)) root flags) n
      (t.behind old) = ((mapLoop (fun i => vmallocHelper (add64 v (i * pageSize)) root flags) n
        t).1, (mapLoop (fun i => vmallocHelper (add64 v (i * pageSize)) root flags) n
        t).2.behind old) := by
    intro n t
    induction n with
    | zero => rfl
    | succ n ih =>
      rw [mapLoop, mapLoop, ih]
      rcases mapLoop (fun i => vmallocHelper (add64 v (i * pageSize)) root flags) n t
        with ⟨_ | _, u⟩
      · rfl
      · dsimp only
        rw [behind_vmallocHelper]
  rw [vmallocCR3_snd, vmallocCR3_snd]
  have hlock : { s.behind old with lock := true } = { s with lock := true }.behind old := rfl
  rw [hlock, hloop]
  rfl

end

/-! ### Trees in order -/

/-- An allocator and a tree in order, and a record of no failure. -/
structure Orderly (s : Paging) (root : ℕ) : Prop where
  /-- The frames that were not issued yet are in order. -/
  supply : Supply s
  /-- The tree is one. -/
  tree : Tree s root
  /-- Every refill succeeded, and no table that was entered had entries. -/
  good : ∀ e ∈ s.log, e.Good

section

variable {s : Paging} {root v : ℕ} {flags : BitVec 64}

/-- Blank frames or not. -/
theorem Ready.orderly (h : Ready s root) : Orderly s root := ⟨h.supply, h.tree, h.good⟩

theorem Orderly.descend {tab : ℕ} {p : List (Fin 512)} {i : Fin 512} (h : Orderly s root)
    (hp : p.length < 3) (ht : s.tableAt root p = some tab) (hflags : FlagBits flags)
    (hpres : flags &&& 1 = 1) (hgood : ∀ e ∈ (pagingDescend s tab i flags).2.log, e.Good) :
    Orderly (pagingDescend s tab i flags).2 root ∧
      (pagingDescend s tab i flags).2.tableAt root (p ++ [i])
        = some (pagingDescend s tab i flags).1 := by
  obtain ⟨hgrow, htab, -⟩ := h.tree.descend h.supply hp ht hflags hpres hgood
  exact ⟨⟨hgrow.supply, hgrow.tree, hgood⟩, htab⟩

theorem Orderly.vmallocHelper (h : Orderly s root) (hflags : FlagBits flags)
    (hpres : flags &&& 1 = 1) (hgood : ∀ e ∈ (vmallocHelper v root flags s).2.log, e.Good) :
    Orderly (AnglOS.vmallocHelper v root flags s).2 root := by
  obtain ⟨f, -, hmaps, -⟩ := h.tree.vmallocHelper h.supply hflags hpres hgood
  exact ⟨hmaps.supply, hmaps.tree, hgood⟩

theorem Orderly.videntityHelper (h : Orderly s root) (p : ℕ) (hflags : FlagBits flags)
    (hpres : flags &&& 1 = 1) (hgood : ∀ e ∈ (videntityHelper v p root flags s).2.log, e.Good) :
    Orderly (AnglOS.videntityHelper v p root flags s).2 root := by
  have hmaps := h.tree.videntityHelper h.supply hflags hpres hgood
  exact ⟨hmaps.supply, hmaps.tree, hgood⟩

theorem Supply.forget (h : Supply s) : Supply s.forget :=
  ⟨h.1, h.2, h.3, h.4, h.5, h.6, h.7⟩

theorem Tree.forget (h : Tree s root) : Tree s.forget root := ⟨h.1, h.2, h.3⟩

theorem Orderly.forget (hs : Supply s) (ht : Tree s root) : Orderly s.forget root :=
  ⟨hs.forget, ht.forget, fun _ he => nomatch he⟩

theorem Orderly.setLeaf {tab : ℕ} (h : Orderly s root)
    (ht : s.tableAt root (pagePath v) = some tab) (e : BitVec 64) :
    Orderly (s.setEntry tab (pageP1E v) e) root := by
  have hmaps := h.tree.setLeaf h.supply ht 0 e
  exact ⟨hmaps.supply, hmaps.tree, h.good⟩

theorem Orderly.withLock (h : Orderly s root) (b : Bool) : Orderly { s with lock := b } root :=
  ⟨h.supply.withLock b, h.tree.withLock b, h.good⟩

end

/-! ### The tables after a page is mapped -/

section

variable {t : Paging} {root w : ℕ} {flags : BitVec 64}

/-- A missing table is a missing entry. -/
theorem entry_eq_zero_iff {tab : ℕ} {p : List (Fin 512)} {i : Fin 512}
    (ht : t.tableAt root p = some tab) : t.entry tab i = 0 ↔ t.tableAt root (p ++ [i]) = none := by
  rw [Paging.tableAt, tableAt_concat, entryAt_of_tableAt ht]
  by_cases hz : t.entry tab i = 0
  · rw [if_pos hz]
    exact iff_of_true hz rfl
  · rw [if_neg hz]
    exact iff_of_false hz (Option.some_ne_none _)

/-- An upper level enters one table, and does not change which others are missing. -/
theorem Orderly.tableAt_descend {tab : ℕ} {p q : List (Fin 512)} {i j : Fin 512}
    (h : Orderly t root) (hp : p.length < 3) (ht : t.tableAt root p = some tab)
    (hflags : FlagBits flags) (hpres : flags &&& 1 = 1)
    (hgood : ∀ e ∈ (pagingDescend t tab i flags).2.log, e.Good)
    (hq : q.length ≤ 3) (hne : q ≠ p) :
    (pagingDescend t tab i flags).2.tableAt root (q ++ [j]) = t.tableAt root (q ++ [j]) := by
  have hnext := (h.descend (i := i) hp ht hflags hpres hgood).1
  have hent := (h.tree.descend h.supply hp ht hflags hpres hnext.good).2.2 q j hq
    fun hc => hne hc.1
  rw [Paging.entryAt] at hent
  rw [Paging.tableAt, tableAt_concat, Paging.tableAt, tableAt_concat, hent]

/-- The second level of the walk to a page. -/
theorem Orderly.second_entry (h : Orderly t root) (hflags : FlagBits flags)
    (hpres : flags &&& 1 = 1)
    (hgood : ∀ e ∈ (pagingDescend t root (pageP4E w) flags).2.log, e.Good) :
    (pagingDescend t root (pageP4E w) flags).2.entry
        (pagingDescend t root (pageP4E w) flags).1 (pageP3E w) = 0 ↔
      t.tableAt root [pageP4E w, pageP3E w] = none := by
  have htab := (h.descend (p := []) (by simp) rfl hflags hpres hgood).2
  rw [entry_eq_zero_iff htab]
  exact iff_of_eq (congrArg (· = none)
    (h.tableAt_descend (p := []) (q := [pageP4E w]) (by simp) rfl hflags hpres hgood (by simp)
      (by simp)))

/-- The third level of the walk to a page. -/
theorem Orderly.third_entry (h : Orderly t root) (hflags : FlagBits flags) (hpres : flags &&& 1 = 1)
    {u : Paging} {tab : ℕ} (hu : pagingDescend t root (pageP4E w) flags = (tab, u))
    (hgood : ∀ e ∈ (pagingDescend u tab (pageP3E w) flags).2.log, e.Good) :
    (pagingDescend u tab (pageP3E w) flags).2.entry (pagingDescend u tab (pageP3E w) flags).1
        (pageP2E w) = 0 ↔ t.tableAt root (pagePath w) = none := by
  have hgood' : ∀ e ∈ (pagingDescend t root (pageP4E w) flags).2.log, e.Good := by
    rw [hu]
    exact fun e he => hgood e ((pagingDescend_log u tab _ flags).subset he)
  obtain ⟨hnext, htab⟩ := h.descend (p := []) (by simp) rfl hflags hpres hgood'
  have hsame := h.tableAt_descend (p := []) (q := [pageP4E w, pageP3E w]) (j := pageP2E w)
    (by simp) rfl hflags hpres hgood' (by simp) (by simp)
  rw [hu] at hnext htab hsame
  have htab₂ := (hnext.descend (by simp) htab hflags hpres hgood).2
  rw [entry_eq_zero_iff htab₂]
  exact iff_of_eq (congrArg (· = none) ((hnext.tableAt_descend (q := [pageP4E w, pageP3E w])
    (by simp) htab hflags hpres hgood (by simp) (by simp)).trans hsame))

/-- The three upper levels leave a tree with the level-1 table of the page. -/
theorem Orderly.descendTo (h : Orderly t root) (hflags : FlagBits flags) (hpres : flags &&& 1 = 1)
    (hgood : ∀ e ∈ (pagingDescendTo t w root flags).2.log, e.Good) :
    Orderly (pagingDescendTo t w root flags).2 root ∧
      (pagingDescendTo t w root flags).2.tableAt root (pagePath w)
        = some (pagingDescendTo t w root flags).1 := by
  obtain ⟨hgrow, htab, -⟩ := h.tree.descendTo (v := w) h.supply hflags hpres hgood
  exact ⟨⟨hgrow.supply, hgrow.tree, hgood⟩, htab⟩

/-- **The tables after the upper levels**: those on the way to the page, and those there were. -/
theorem Orderly.tableAt_descendTo (h : Orderly t root) (hflags : FlagBits flags)
    (hpres : flags &&& 1 = 1) (hgood : ∀ e ∈ (pagingDescendTo t w root flags).2.log, e.Good)
    {p : List (Fin 512)} (hp : p.length ≤ 3) :
    (pagingDescendTo t w root flags).2.tableAt root p = none ↔
      t.tableAt root p = none ∧ ¬p <+: pagePath w := by
  obtain ⟨-, htab, hoff⟩ := h.tree.descendTo (v := w) h.supply hflags hpres hgood
  by_cases hpre : p <+: pagePath w
  · obtain ⟨q, hq⟩ := hpre
    rw [← hq] at htab
    obtain ⟨tab, ht⟩ := exists_tableAt_of_append htab
    refine iff_of_false ?_ fun hc => hc.2 ⟨q, hq⟩
    rw [Paging.tableAt, ht]
    exact Option.some_ne_none tab
  · rw [and_iff_left hpre]
    obtain rfl | ⟨q, j, rfl⟩ := List.eq_nil_or_concat p
    · exact absurd List.nil_prefix hpre
    rw [List.concat_eq_append] at hp hpre ⊢
    have hent := hoff q j (by rw [List.length_append] at hp; omega) hpre
    rw [Paging.entryAt] at hent
    rw [Paging.tableAt, tableAt_concat, Paging.tableAt, tableAt_concat, hent]

/-- **The tables after a page is mapped** to a physical page. -/
theorem Orderly.tableAt_videntityHelper (h : Orderly t root) (q : ℕ) (hflags : FlagBits flags)
    (hpres : flags &&& 1 = 1)
    (hgood : ∀ e ∈ (AnglOS.videntityHelper w q root flags t).2.log, e.Good)
    {p : List (Fin 512)} (hp : p.length ≤ 3) :
    (AnglOS.videntityHelper w q root flags t).2.tableAt root p = none ↔
      t.tableAt root p = none ∧ ¬p <+: pagePath w := by
  obtain ⟨hord, htab⟩ := h.descendTo hflags hpres hgood
  rw [← h.tableAt_descendTo hflags hpres hgood hp]
  exact iff_of_eq (congrArg (· = none)
    ((setLeaf_walks hord.tree.root_mod hord.tree.unshared htab (makeEntry q flags)).1 p hp))

/-- **The tables after a page is mapped** to a new frame. -/
theorem Orderly.tableAt_vmallocHelper (h : Orderly t root) (hflags : FlagBits flags)
    (hpres : flags &&& 1 = 1)
    (hgood : ∀ e ∈ (AnglOS.vmallocHelper w root flags t).2.log, e.Good)
    {p : List (Fin 512)} (hp : p.length ≤ 3) :
    (AnglOS.vmallocHelper w root flags t).2.tableAt root p = none ↔
      t.tableAt root p = none ∧ ¬p <+: pagePath w := by
  have hgood₂ : ∀ e ∈ (AnglOS.pmallocBulk (pagingDescendTo t w root flags).2).2.log, e.Good :=
    fun e he => hgood e (List.mem_append_left _ he)
  have hgood₁ : ∀ e ∈ (pagingDescendTo t w root flags).2.log, e.Good :=
    fun e he => hgood₂ e ((pmallocBulk_log _).subset he)
  obtain ⟨hord, htab⟩ := h.descendTo hflags hpres hgood₁
  have hsame : (AnglOS.vmallocHelper w root flags t).2.tableAt root p
      = (pagingDescendTo t w root flags).2.tableAt root p := by
    have h₂ := hord.tree.pmallocBulk hord.supply
      (refillOk_of_log fun e he => (hgood₂ e he).served) flags
      (.data (AnglOS.pmallocBulk (pagingDescendTo t w root flags).2).1)
    have hent := pmallocBulk_entry (pagingDescendTo t w root flags).2
      (.data (AnglOS.pmallocBulk (pagingDescendTo t w root flags).2).1)
    refine ((setLeaf_walks h₂.tree.root_mod h₂.tree.unshared (h₂.tableAt le_rfl htab) _).1 p
      hp).trans ?_
    rw [Paging.tableAt, hent]
  rw [hsame]
  exact h.tableAt_descendTo hflags hpres hgood₁ hp

end

end AnglOS
