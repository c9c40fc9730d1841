import AnglOS.PagingFrames

/-!
# What a Call Takes Its Frames For

Whether a mapping call finds the frames that it needs is a property of the state before it: the
call takes a frame for each table that is missing on the way to its pages, and `vmalloc` takes one
for each page. It goes wrong if a refill of the cache fails, or if a frame that becomes a table
holds entries of something else.

* `FramesReady` — the next frames are there, and those that become tables are blank.
* `Takes` — a piece of a call takes the next frames for some uses.
* `rangeUses`, `framesNeeded` — what the frames of a range are for, in the order in which they are
  taken, and how many they are.

## Main results

* `takes_vmallocCR3` — a call takes the frames of its range, and goes wrong with one of them;
* `vmallocCR3_good_iff`, `videntityCR3_good_iff`, `pagingCreateUser_good_iff` — nothing goes wrong
  in a call exactly if the frames that it takes are ready.
-/

namespace AnglOS

open Pmm

/-! ### The next frames -/

/-- What a frame is taken for. -/
inductive FrameUse
  | table
  | data
  deriving DecidableEq

/-- The next frames are there, and those that become tables hold zero in all their words but the
first, which `pagingAllocTable` clears. -/
structure FramesReady (s : Paging) (uses : List FrameUse) : Prop where
  /-- Each refill of the cache succeeds. -/
  available : Available s uses.length
  /-- No frame that becomes a table holds other entries. -/
  blank : ∀ j, uses[j]? = some .table → ∀ i : Fin 512, i ≠ 0 → s.entry (frameToCome s j) i = 0

section

variable {s t : Paging} {us : List FrameUse} {k : ℕ}

theorem framesReady_nil (s : Paging) : FramesReady s [] :=
  ⟨fun _ hj => absurd hj (Nat.not_lt_zero _), fun _ hj => by simp at hj⟩

/-- Frames of a blank supply are ready for any use. -/
theorem Blanks.framesReady (hb : Blanks s) (ha : Available s k) (hk : us.length ≤ k) :
    FramesReady s us := by
  refine ⟨ha.mono hk, fun j hj => hb _ ⟨j, ha.mono ?_, rfl⟩⟩
  have := (List.getElem?_eq_some_iff.mp hj).1
  omega

/-- **One frame after the other.** -/
theorem framesReady_cons {u : FrameUse} : FramesReady s (u :: us) ↔
    (s.RefillOk ∧ (u = .table → ∀ i : Fin 512, i ≠ 0 → s.entry (pmallocBulk s).1 i = 0)) ∧
      FramesReady (pmallocBulk s).2 us := by
  have hent : (pmallocBulk s).2.entry = s.entry := pmallocBulk_entry s (.data 0)
  constructor
  · intro h
    refine ⟨⟨h.available.refillOk, fun hu => h.blank 0 (by rw [hu]; rfl)⟩, h.available.next,
      fun j hj => ?_⟩
    rw [hent]
    exact h.blank (j + 1) hj
  · rintro ⟨⟨hok, hfirst⟩, hrest⟩
    refine ⟨available_succ hok hrest.available, fun j hj => ?_⟩
    cases j with
    | zero => exact hfirst (Option.some.inj hj)
    | succ j =>
      have hblank := hrest.blank j hj
      rw [hent] at hblank
      exact hblank

/-- Only the allocator, the cache and the frames themselves decide whether frames are ready. -/
theorem framesReady_iff_of_entry (hsame : s.SameSource t) (hent : Available s us.length →
      ∀ j < us.length, ∀ i, t.entry (frameToCome s j) i = s.entry (frameToCome s j) i) :
    FramesReady t us ↔ FramesReady s us := by
  have hframe : ∀ j, frameToCome t j = frameToCome s j := fun j =>
    (hsame.issueState j).pmallocBulk.1
  have hlt : ∀ {j u}, us[j]? = some u → j < us.length := fun hj =>
    (List.getElem?_eq_some_iff.mp hj).1
  constructor
  · rintro ⟨ha, hb⟩
    refine ⟨hsame.symm.available ha, fun j hj i hi => ?_⟩
    rw [← hent (hsame.symm.available ha) j (hlt hj), ← hframe]
    exact hb j hj i hi
  · rintro ⟨ha, hb⟩
    refine ⟨hsame.available ha, fun j hj i hi => ?_⟩
    rw [hframe, hent ha j (hlt hj)]
    exact hb j hj i hi

/-- Memory other than that of the frames to come does not matter. -/
theorem framesReady_congr (hs : Supply s) (hsame : s.SameSource t)
    (hmem : ∀ x, alignToPage x ∈ s.unissued → t.mem x = s.mem x) :
    FramesReady t us ↔ FramesReady s us := by
  refine framesReady_iff_of_entry hsame fun ha j hj => ?_
  have hmem' : frameToCome s j ∈ s.unissued := hs.issuable ⟨j, ha.mono hj, rfl⟩
  exact entry_congr (hs.aligned _ hmem') fun x hx => hmem x (hx ▸ hmem')

/-- A lock does not matter. -/
theorem framesReady_withLock (s : Paging) (b : Bool) :
    FramesReady { s with lock := b } us ↔ FramesReady s us :=
  framesReady_iff_of_entry ⟨rfl, rfl, rfl⟩ fun _ _ _ _ => rfl

/-- The frames that were not issued yet are those of the allocator and the cache. -/
theorem Paging.SameSource.unissued (h : s.SameSource t) : t.unissued = s.unissued := by
  rw [Paging.unissued, Paging.unissued, h.pmm, h.bulk, h.curr]

/-- A refill goes wrong only if it fails. -/
theorem good_pmallocBulk_iff (hgood : ∀ e ∈ s.log, e.Good) :
    (∀ e ∈ (pmallocBulk s).2.log, e.Good) ↔ s.RefillOk := by
  refine ⟨fun h => refillOk_of_log fun e he => (h e he).served, fun hok => ?_⟩
  rcases pmallocBulk_cases s with ⟨hfull, heq⟩ | ⟨-, heq⟩
  · intro e he
    rcases pmallocBulk_log_mem he with he | rfl
    · exact hgood e he
    · exact hok hfull
  · rw [heq]
    exact hgood

/-- A new table goes wrong if the refill fails or the frame is not blank. -/
theorem good_pagingAllocTable_iff (hs : Supply s) (hgood : ∀ e ∈ s.log, e.Good) :
    (∀ e ∈ (pagingAllocTable s).2.log, e.Good) ↔
      s.RefillOk ∧ ∀ i : Fin 512, i ≠ 0 → s.entry (pmallocBulk s).1 i = 0 := by
  constructor
  · intro h
    have hok : s.RefillOk := (good_pmallocBulk_iff hgood).mp fun e he =>
      h e (List.mem_append_left _ he)
    exact ⟨hok, (pagingAllocTable_blank hs hok).mp (pagingAllocTable_clean h)⟩
  · rintro ⟨hok, hblank⟩ e he
    rcases List.mem_append.mp he with he | he
    · exact (good_pmallocBulk_iff hgood).mpr hok e he
    · rw [List.mem_singleton.mp he]
      exact decide_eq_true ((pagingAllocTable_blank hs hok).mpr hblank)

end

/-! ### What a piece of a call takes -/

/-- Between the two states frames are taken for `uses`. -/
structure Takes (s t : Paging) (uses : List FrameUse) : Prop where
  /-- Nothing goes wrong exactly if these are ready, and the frames that are ready then are those
  that were to come after them. -/
  ready : ∀ us, FramesReady s (uses ++ us) ↔ (∀ e ∈ t.log, e.Good) ∧ FramesReady t us
  /-- If nothing goes wrong, so many frames are issued. -/
  issued : (∀ e ∈ t.log, e.Good) → framesIssued t.log = framesIssued s.log + uses.length
  /-- If something goes wrong, it does so with a frame that is issued. -/
  blame : (¬∀ e ∈ t.log, e.Good) → ∃ j < uses.length, ¬FramesReady s (uses.take (j + 1)) ∧
    framesIssued s.log + j < framesIssued t.log

section

variable {s t u : Paging} {a b : List FrameUse}

/-- One piece after the other. -/
theorem Takes.trans (h₁ : Takes s t a) (hlog : t.log <+: u.log)
    (h₂ : (∀ e ∈ t.log, e.Good) → Takes t u b) : Takes s u (a ++ b) := by
  have hgood' : (∀ e ∈ u.log, e.Good) → ∀ e ∈ t.log, e.Good := fun hgood e he =>
    hgood e (hlog.subset he)
  refine ⟨fun us => ?_, fun hgood => ?_, fun hbad => ?_⟩
  · rw [List.append_assoc, h₁.ready]
    constructor
    · rintro ⟨hgood, hready⟩
      exact ((h₂ hgood).ready us).mp hready
    · rintro ⟨hgood, hready⟩
      exact ⟨hgood' hgood, ((h₂ (hgood' hgood)).ready us).mpr ⟨hgood, hready⟩⟩
  · have h₁' := h₁.issued (hgood' hgood)
    have h₂' := (h₂ (hgood' hgood)).issued hgood
    rw [List.length_append]
    omega
  · rw [List.length_append]
    by_cases hgood : ∀ e ∈ t.log, e.Good
    · obtain ⟨j, hj, hnot, hlt⟩ := (h₂ hgood).blame hbad
      have h₁' := h₁.issued hgood
      refine ⟨a.length + j, by omega, ?_, by omega⟩
      rw [Nat.add_assoc, List.take_length_add_append]
      exact fun hready => hnot ((h₁.ready _).mp hready).2
    · obtain ⟨j, hj, hnot, hlt⟩ := h₁.blame hgood
      have hmono : framesIssued t.log ≤ framesIssued u.log := hlog.sublist.countP_le
      refine ⟨j, by omega, ?_, by omega⟩
      rwa [List.take_append_of_le_length hj]

/-- A change that takes nothing and does not touch the frames to come. -/
theorem takes_nil (hs : Supply s) (hgood : ∀ e ∈ s.log, e.Good) (hsame : s.SameSource t)
    (hlog : t.log = s.log) (hmem : ∀ x, alignToPage x ∈ s.unissued → t.mem x = s.mem x) :
    Takes s t [] := by
  refine ⟨fun us => ?_, fun _ => by rw [hlog]; rfl, fun hbad => absurd (hlog ▸ hgood) hbad⟩
  rw [List.nil_append, framesReady_congr hs hsame hmem, hlog]
  exact (and_iff_right hgood).symm

/-- One frame. -/
theorem takes_one {k : FrameUse}
    (hready : ∀ us, FramesReady s (k :: us) ↔ (∀ e ∈ t.log, e.Good) ∧ FramesReady t us)
    (hissued : framesIssued t.log = framesIssued s.log + 1) : Takes s t [k] := by
  refine ⟨hready, fun _ => hissued, fun hbad => ⟨0, Nat.one_pos, fun h => ?_, by omega⟩⟩
  exact hbad ((hready []).mp h).1

/-- The lock does not matter. -/
theorem Takes.withLock {b c : Bool} (h : Takes { s with lock := b } t a) :
    Takes s { t with lock := c } a := by
  refine ⟨fun us => ?_, h.issued, fun hbad => ?_⟩
  · rw [← framesReady_withLock s b, h.ready us, framesReady_withLock t c]
  · obtain ⟨j, hj, hnot, hlt⟩ := h.blame hbad
    rw [framesReady_withLock s b] at hnot
    exact ⟨j, hj, hnot, hlt⟩

/-- **All in all**: nothing goes wrong exactly if the frames are ready. -/
theorem Takes.good_iff (h : Takes s t a) : (∀ e ∈ t.log, e.Good) ↔ FramesReady s a := by
  have hall := h.ready []
  rw [List.append_nil] at hall
  rw [hall]
  exact (and_iff_left (framesReady_nil t)).symm

/-- It is enough that the frames that are issued are ready. -/
theorem Takes.good_of_issued (h : Takes s t a) (hready : ∀ j < a.length,
    framesIssued s.log + j < framesIssued t.log → FramesReady s (a.take (j + 1))) :
    ∀ e ∈ t.log, e.Good := by
  by_contra hbad
  obtain ⟨j, hj, hnot, hlt⟩ := h.blame hbad
  exact hnot (hready j hj hlt)

/-- A refill is no frame, and the event of a frame is one. -/
theorem framesIssued_pmallocBulk (s : Paging) :
    framesIssued (pmallocBulk s).2.log = framesIssued s.log := by
  rcases pmallocBulk_cases s with ⟨-, heq⟩ | ⟨-, heq⟩
  · rw [heq]
    simp [framesIssued, Paging.record]
  · rw [heq]

theorem framesIssued_record {e : PagingEvent} (he : e.isIssue) (s : Paging) :
    framesIssued (s.record e).log = framesIssued s.log + 1 := by
  simp [framesIssued, Paging.record, he]

end

/-! ### The frames of one page -/

/-- The use of a frame as a table that may be missing. -/
def tableUse (missing : Prop) [Decidable missing] : List FrameUse :=
  if missing then [.table] else []

/-- The tables on the way to a page, where those at the paths `missing` are missing. -/
def pageTables (w : ℕ) (missing : List (Fin 512) → Prop) [DecidablePred missing] : List FrameUse :=
  tableUse (missing [pageP4E w]) ++ tableUse (missing [pageP4E w, pageP3E w]) ++
    tableUse (missing (pagePath w))

section

variable {s t : Paging} {root v w : ℕ} {flags : BitVec 64}

theorem tableUse_congr {p q : Prop} [Decidable p] [Decidable q] (h : p ↔ q) :
    tableUse p = tableUse q := by
  rw [tableUse, tableUse, if_congr h rfl rfl]

theorem pageTables_congr {p q : List (Fin 512) → Prop} [DecidablePred p] [DecidablePred q]
    (h : ∀ path, path <+: pagePath w → (p path ↔ q path)) : pageTables w p = pageTables w q := by
  rw [pageTables, pageTables, tableUse_congr (h _ ⟨[pageP3E w, pageP2E w], rfl⟩),
    tableUse_congr (h _ ⟨[pageP2E w], rfl⟩), tableUse_congr (h _ List.prefix_rfl)]

/-- **One upper level** takes a frame if the entry is missing. -/
theorem Orderly.takes_descend {tab : ℕ} {p : List (Fin 512)} {i : Fin 512} (h : Orderly t root)
    (hp : p.length < 3) (ht : t.tableAt root p = some tab) (hflags : FlagBits flags)
    (hpres : flags &&& 1 = 1) :
    Takes t (pagingDescend t tab i flags).2 (tableUse (t.entry tab i = 0)) := by
  by_cases hz : t.entry tab i = 0
  · have hlog : (pagingDescend t tab i flags).2.log = (pagingAllocTable t).2.log := by
      rw [pagingDescend_of_zero hz]
      rfl
    rw [tableUse, if_pos hz]
    refine takes_one (fun us => ?_) ?_
    · have hready : t.RefillOk ∧ (FrameUse.table = .table →
          ∀ i : Fin 512, i ≠ 0 → t.entry (pmallocBulk t).1 i = 0) ↔
            ∀ e ∈ (pagingDescend t tab i flags).2.log, e.Good := by
        rw [hlog, good_pagingAllocTable_iff h.supply h.good]
        exact and_congr_right' ⟨fun hb => hb rfl, fun hb _ => hb⟩
      rw [framesReady_cons, hready]
      refine and_congr_right fun hgood => ?_
      have hok : t.RefillOk := (hready.mpr hgood).1
      have hsame : (pmallocBulk t).2.SameSource (pagingDescend t tab i flags).2 := by
        rw [pagingDescend_of_zero hz]
        exact ⟨rfl, rfl, rfl⟩
      have hfresh := (h.tree.descend h.supply hp ht hflags hpres hgood).1.fresh
      refine (framesReady_congr (h.supply.pmallocBulk hok) hsame fun x hx => ?_).symm
      rw [pmallocBulk_mem]
      exact hfresh x (by rwa [hsame.unissued])
    · rw [hlog, ← framesIssued_pmallocBulk t]
      exact framesIssued_record rfl _
  · rw [tableUse, if_neg hz, pagingDescend_of_ne hz]
    exact takes_nil h.supply h.good ⟨rfl, rfl, rfl⟩ rfl fun _ _ => rfl

/-- **The three upper levels** take a frame for each table that is missing. -/
theorem Orderly.takes_descendTo (h : Orderly t root) (hflags : FlagBits flags)
    (hpres : flags &&& 1 = 1) : Takes t (pagingDescendTo t w root flags).2
      (pageTables w fun p => t.tableAt root p = none) := by
  have hfirst := h.takes_descend (p := []) (i := pageP4E w) (by simp) rfl hflags hpres
  rw [tableUse_congr (entry_eq_zero_iff (p := []) rfl), List.nil_append] at hfirst
  have hnext := fun hgood => h.descend (i := pageP4E w) (p := []) (by simp) rfl hflags hpres hgood
  have hsecond := h.second_entry (w := w) hflags hpres
  rw [pagingDescendTo]
  rcases hu : pagingDescend t root (pageP4E w) flags with ⟨tab, u⟩
  rw [hu] at hfirst hnext hsecond
  have hthird := h.third_entry (w := w) hflags hpres hu
  dsimp only at hfirst hnext hsecond ⊢
  rw [pageTables]
  refine (hfirst.trans (pagingDescend_log _ _ _ _) fun hgood => ?_).trans
    (pagingDescend_log _ _ _ _) fun hgood => ?_
  · obtain ⟨hord, htab⟩ := hnext hgood
    rw [← tableUse_congr (hsecond hgood)]
    exact hord.takes_descend (by simp) htab hflags hpres
  · obtain ⟨hord, htab⟩ := hnext fun e he => hgood e ((pagingDescend_log _ _ _ _).subset he)
    obtain ⟨hord, htab⟩ := hord.descend (by simp) htab hflags hpres hgood
    rw [← tableUse_congr (hthird hgood)]
    exact hord.takes_descend (by simp) htab hflags hpres

/-- Storing a leaf entry takes nothing. -/
theorem Orderly.takes_setLeaf {tab : ℕ} (h : Orderly t root)
    (ht : t.tableAt root (pagePath w) = some tab) (e : BitVec 64) :
    Takes t (t.setEntry tab (pageP1E w) e) [] :=
  takes_nil h.supply h.good ⟨rfl, rfl, rfl⟩ rfl (h.tree.setLeaf h.supply ht 0 e).fresh

/-- A data page takes its frame. -/
theorem Orderly.takes_data (h : Orderly t root) (f : ℕ) :
    Takes t ((pmallocBulk t).2.record (.data f)) [.data] := by
  refine takes_one (fun us => ?_) ?_
  · have hgood : (∀ e ∈ ((pmallocBulk t).2.record (.data f)).log, e.Good) ↔ t.RefillOk := by
      rw [← good_pmallocBulk_iff h.good]
      refine ⟨fun hall e he => hall e (List.mem_append_left _ he), fun hall e he => ?_⟩
      rcases List.mem_append.mp he with he | he
      · exact hall e he
      · rw [List.mem_singleton.mp he]
        exact trivial
    have hready : t.RefillOk ∧ (FrameUse.data = .table →
        ∀ i : Fin 512, i ≠ 0 → t.entry (pmallocBulk t).1 i = 0) ↔ t.RefillOk :=
      and_iff_left fun hd => nomatch hd
    rw [framesReady_cons, hgood, hready]
    refine and_congr_right fun hok => ?_
    have hsame : (pmallocBulk t).2.SameSource ((pmallocBulk t).2.record (.data f)) :=
      ⟨rfl, rfl, rfl⟩
    exact (framesReady_congr (h.supply.pmallocBulk hok) hsame fun _ _ => rfl).symm
  · rw [← framesIssued_pmallocBulk t]
    exact framesIssued_record rfl _

/-- **`videntityHelper`** takes the frames of the missing tables. -/
theorem Orderly.takes_videntityHelper (h : Orderly t root) (p : ℕ) (hflags : FlagBits flags)
    (hpres : flags &&& 1 = 1) :
    Takes t (AnglOS.videntityHelper w p root flags t).2
      (pageTables w fun p => t.tableAt root p = none) := by
  have hdown := h.takes_descendTo (w := w) hflags hpres
  have hall := hdown.trans (u := (AnglOS.videntityHelper w p root flags t).2) List.prefix_rfl
    fun hgood => by
      obtain ⟨hord, htab⟩ := h.descendTo hflags hpres hgood
      exact hord.takes_setLeaf htab (makeEntry p flags)
  rwa [List.append_nil] at hall

/-- **`vmallocHelper`** takes one frame more, for the page. -/
theorem Orderly.takes_vmallocHelper (h : Orderly t root) (hflags : FlagBits flags)
    (hpres : flags &&& 1 = 1) :
    Takes t (AnglOS.vmallocHelper w root flags t).2
      (pageTables w (fun p => t.tableAt root p = none) ++ [.data]) := by
  have hlog := (pmallocBulk_log (pagingDescendTo t w root flags).2).trans
    (List.prefix_append _ [.data (pmallocBulk (pagingDescendTo t w root flags).2).1])
  have hdown := (h.takes_descendTo (w := w) hflags hpres).trans hlog fun hgood =>
    (h.descendTo hflags hpres hgood).1.takes_data _
  have hall := hdown.trans (u := (AnglOS.vmallocHelper w root flags t).2) List.prefix_rfl
    fun hgood => by
      obtain ⟨hord, htab⟩ := h.descendTo hflags hpres fun e he => hgood e (hlog.subset he)
      have hok : (pagingDescendTo t w root flags).2.RefillOk :=
        refillOk_of_log fun e he => (hgood e (List.mem_append_left _ he)).served
      have hgrow := hord.tree.pmallocBulk hord.supply hok flags
        (.data (pmallocBulk (pagingDescendTo t w root flags).2).1)
      exact Orderly.takes_setLeaf ⟨hgrow.supply, hgrow.tree, hgood⟩ (hgrow.tableAt le_rfl htab) _
  rwa [List.append_nil] at hall

end

/-! ### The frames of a range -/

/-- What the frames of page `i` of a range are for: the tables that are missing and that no page
before it entered, and then `leaf`. After a page at address 0 the loop takes none. -/
def pageUses (s : Paging) (root v i : ℕ) (leaf : List FrameUse) : List FrameUse :=
  if ∃ j < i, add64 v (j * pageSize) = 0 then [] else
    pageTables (add64 v (i * pageSize)) (fun p => s.tableAt root p = none ∧
      ∀ j < i, ¬p <+: pagePath (add64 v (j * pageSize))) ++ leaf

/-- What the frames that a range takes are for. -/
def rangeUses (s : Paging) (root v n : ℕ) (leaf : List FrameUse) : List FrameUse :=
  (List.range n).flatMap fun i => pageUses s root v i leaf

/-- The tree after some pages of a range, and the tables that are missing then. -/
structure Entered (s t : Paging) (root v m : ℕ) : Prop where
  /-- The tree is in order. -/
  orderly : Orderly t root
  /-- The tables that are missing. -/
  tables : ∀ p, p.length ≤ 3 → (t.tableAt root p = none ↔
    s.tableAt root p = none ∧ ∀ i < m, ¬p <+: pagePath (add64 v (i * pageSize)))

section

variable {s t : Paging} {root v n : ℕ} {flags : BitVec 64}

theorem rangeUses_succ (s : Paging) (root v n : ℕ) (leaf : List FrameUse) :
    rangeUses s root v (n + 1) leaf = rangeUses s root v n leaf ++ pageUses s root v n leaf := by
  simp [rangeUses, List.range_succ]

theorem length_tableUse_le (missing : Prop) [Decidable missing] :
    (tableUse missing).length ≤ 1 := by
  unfold tableUse
  split_ifs <;> simp

/-- A range takes at most three tables for each page. -/
theorem length_rangeUses_le (s : Paging) (root v n : ℕ) (leaf : List FrameUse) :
    (rangeUses s root v n leaf).length ≤ (3 + leaf.length) * n := by
  have htables : ∀ w (missing : List (Fin 512) → Prop) [DecidablePred missing],
      (pageTables w missing).length ≤ 3 := by
    intro w missing _
    have h₄ := length_tableUse_le (missing [pageP4E w])
    have h₃ := length_tableUse_le (missing [pageP4E w, pageP3E w])
    have h₂ := length_tableUse_le (missing (pagePath w))
    simp only [pageTables, List.length_append]
    omega
  induction n with
  | zero => exact le_rfl
  | succ n ih =>
    rw [rangeUses_succ, List.length_append, Nat.mul_succ]
    refine Nat.add_le_add ih ?_
    unfold pageUses
    split_ifs
    · simp
    · rw [List.length_append]
      exact Nat.add_le_add_right (htables _ _) _

/-- **The loop over the pages** takes the frames of the range, if each round takes those of its
page. -/
theorem Orderly.takes_mapLoop (h : Orderly s root) (v : ℕ) (leaf : List FrameUse)
    (body : ℕ → Paging → ℕ × Paging)
    (hfst : ∀ i t, (body i t).1 = add64 v (i * pageSize))
    (hlog : ∀ i t, t.log <+: (body i t).2.log)
    (htakes : ∀ i t, Orderly t root → Takes t (body i t).2
      (pageTables (add64 v (i * pageSize)) (fun p => t.tableAt root p = none) ++ leaf))
    (hbody : ∀ i t, Orderly t root → (∀ e ∈ (body i t).2.log, e.Good) →
      Orderly (body i t).2 root ∧ ∀ p, p.length ≤ 3 → ((body i t).2.tableAt root p = none ↔
        t.tableAt root p = none ∧ ¬p <+: pagePath (add64 v (i * pageSize)))) (n : ℕ) :
    Takes s (mapLoop body n s).2 (rangeUses s root v n leaf) ∧
      ((mapLoop body n s).1 = true → (∀ e ∈ (mapLoop body n s).2.log, e.Good) →
        Entered s (mapLoop body n s).2 root v n) := by
  induction n with
  | zero =>
    refine ⟨takes_nil h.supply h.good ⟨rfl, rfl, rfl⟩ rfl fun _ _ => rfl,
      fun _ _ => ⟨h, fun p _ => ?_⟩⟩
    exact ⟨fun hnone => ⟨hnone, fun i hi => absurd hi (Nat.not_lt_zero i)⟩, fun hc => hc.1⟩
  | succ n ih =>
    obtain ⟨ih, hentered⟩ := ih
    have hstop := mapLoop_fst_iff body (fun i => add64 v (i * pageSize)) hfst n s
    rw [rangeUses_succ]
    rcases hr : mapLoop body n s with ⟨_ | _, t⟩
    · -- a page before was at address 0
      have hloop : mapLoop body (n + 1) s = (false, t) := by simp [mapLoop, hr]
      have hnone : pageUses s root v n leaf = [] := by
        rw [hr] at hstop
        refine if_pos ?_
        by_contra hno
        push Not at hno
        exact absurd (hstop.mpr hno) (by simp)
      rw [hloop, hnone, List.append_nil]
      rw [hr] at ih
      exact ⟨ih, fun hc => absurd hc (by simp)⟩
    · have hloop : mapLoop body (n + 1) s = (decide ((body n t).1 ≠ 0), (body n t).2) := by
        simp [mapLoop, hr]
      rw [hr] at ih hentered hstop
      have hgo := hstop.mp rfl
      have huses : pageUses s root v n leaf = pageTables (add64 v (n * pageSize)) (fun p =>
          s.tableAt root p = none ∧ ∀ j < n, ¬p <+: pagePath (add64 v (j * pageSize))) ++ leaf := by
        refine if_neg ?_
        rintro ⟨j, hj, hzero⟩
        exact hgo j hj hzero
      rw [hloop]
      refine ⟨ih.trans (hlog n t) fun hgood => ?_, fun _ hgood => ?_⟩
      · have hnow := hentered rfl hgood
        rw [huses, ← pageTables_congr fun p hp => hnow.tables p hp.length_le]
        exact htakes n t hnow.orderly
      · have hnow := hentered rfl fun e he => hgood e ((hlog n t).subset he)
        obtain ⟨hord, htabs⟩ := hbody n t hnow.orderly hgood
        refine ⟨hord, fun p hp => ?_⟩
        rw [htabs p hp, hnow.tables p hp, and_assoc]
        refine and_congr_right fun _ => ⟨fun hboth i hi => ?_, fun hall => ?_⟩
        · rcases Nat.lt_succ_iff_lt_or_eq.mp hi with hi | rfl
          · exact hboth.1 i hi
          · exact hboth.2
        · exact ⟨fun i hi => hall i (by omega), hall n (Nat.lt_succ_self n)⟩

/-- **`vmallocCR3`** takes the frames of its range. -/
theorem takes_vmallocCR3 (h : Orderly s root) (hflags : FlagBits flags) (hpres : flags &&& 1 = 1)
    (v n : ℕ) : Takes s (vmallocCR3 s v n flags root).2 (rangeUses s root v n [.data]) := by
  have hloop := (h.withLock true).takes_mapLoop v [.data]
    (fun i => vmallocHelper (add64 v (i * pageSize)) root flags) (fun _ _ => rfl)
    (fun _ _ => vmallocHelper_log _ _ _ _)
    (fun _ _ hord => hord.takes_vmallocHelper hflags hpres)
    (fun _ _ hord hgood => ⟨hord.vmallocHelper hflags hpres hgood,
      fun _ hp => hord.tableAt_vmallocHelper hflags hpres hgood hp⟩) n
  rw [vmallocCR3_snd]
  exact hloop.1.withLock

/-- **`videntityCR3`** takes the frames of its range, which are tables only. -/
theorem takes_videntityCR3 (h : Orderly s root) (hflags : FlagBits flags)
    (hpres : flags &&& 1 = 1) (v p n : ℕ) :
    Takes s (videntityCR3 s v p n flags root).2 (rangeUses s root v n []) := by
  have hloop := (h.withLock true).takes_mapLoop v []
    (fun i => videntityHelper (add64 v (i * pageSize)) (add64 p (i * pageSize)) root flags)
    (fun _ _ => rfl) (fun _ _ => videntityHelper_log _ _ _ _ _)
    (fun _ _ hord => by
      rw [List.append_nil]
      exact hord.takes_videntityHelper _ hflags hpres)
    (fun _ _ hord hgood => ⟨hord.videntityHelper _ hflags hpres hgood,
      fun _ hp => hord.tableAt_videntityHelper _ hflags hpres hgood hp⟩) n
  obtain ⟨b, hsnd⟩ := videntityCR3_snd s v p n flags root
  rw [hsnd]
  exact hloop.1.withLock

/-- **`vmallocCR3` goes wrong** exactly if a frame that it takes is not ready. -/
theorem vmallocCR3_good_iff (h : Orderly s root) (hflags : FlagBits flags) (hpres : flags &&& 1 = 1)
    (v n : ℕ) : (∀ e ∈ (vmallocCR3 s v n flags root).2.log, e.Good) ↔
      FramesReady s (rangeUses s root v n [.data]) :=
  (takes_vmallocCR3 h hflags hpres v n).good_iff

/-- **`videntityCR3` goes wrong** exactly if a frame that it takes is not ready. -/
theorem videntityCR3_good_iff (h : Orderly s root) (hflags : FlagBits flags)
    (hpres : flags &&& 1 = 1) (v p n : ℕ) :
    (∀ e ∈ (videntityCR3 s v p n flags root).2.log, e.Good) ↔
      FramesReady s (rangeUses s root v n []) :=
  (takes_videntityCR3 h hflags hpres v p n).good_iff

/-- **`pagingCreateUser` goes wrong** exactly if the frame for the new table is not ready. -/
theorem pagingCreateUser_good_iff (hs : Supply s) (hgood : ∀ e ∈ s.log, e.Good) :
    (∀ e ∈ (pagingCreateUser s).2.log, e.Good) ↔ FramesReady s [.table] := by
  obtain ⟨m, hm⟩ := pagingCreateUser_withMem s
  have hlog : (pagingCreateUser s).2.log = (pagingAllocTable s).2.log := by rw [hm]
  rw [hlog, good_pagingAllocTable_iff hs hgood, framesReady_cons]
  exact ⟨fun h => ⟨⟨h.1, fun _ => h.2⟩, framesReady_nil _⟩, fun h => ⟨h.1.1, h.1.2 rfl⟩⟩

end

/-! ### How many frames a range needs -/

/-- The paths of the tables on the way to a page. -/
def pathPrefixes (w : ℕ) : Finset (List (Fin 512)) :=
  {[pageP4E w], [pageP4E w, pageP3E w], pagePath w}

/-- The paths of the tables that the pages of a range are missing. -/
def missingTables (s : Paging) (root v n : ℕ) : Finset (List (Fin 512)) :=
  ((Finset.range n).biUnion fun i => pathPrefixes (add64 v (i * pageSize))).filter
    fun p => s.tableAt root p = none

/-- The number of frames that mapping a range needs: one for each page and one for each table
that is missing. -/
def framesNeeded (s : Paging) (root v n : ℕ) : ℕ := n + (missingTables s root v n).card

theorem mem_pathPrefixes {w : ℕ} {p : List (Fin 512)} :
    p ∈ pathPrefixes w ↔ p ≠ [] ∧ p <+: pagePath w := by
  simp only [pathPrefixes, Finset.mem_insert, Finset.mem_singleton, pagePath]
  constructor
  · rintro (rfl | rfl | rfl)
    · exact ⟨by simp, ⟨[pageP3E w, pageP2E w], rfl⟩⟩
    · exact ⟨by simp, ⟨[pageP2E w], rfl⟩⟩
    · exact ⟨by simp, List.prefix_rfl⟩
  · rintro ⟨hne, hpre⟩
    rw [List.prefix_cons_iff] at hpre
    obtain rfl | ⟨q, rfl, hpre⟩ := hpre
    · exact absurd rfl hne
    rw [List.prefix_cons_iff] at hpre
    obtain rfl | ⟨q, rfl, hpre⟩ := hpre
    · exact Or.inl rfl
    rw [List.prefix_cons_iff] at hpre
    obtain rfl | ⟨q, rfl, hpre⟩ := hpre
    · exact Or.inr (Or.inl rfl)
    · rw [List.prefix_nil.mp hpre]
      exact Or.inr (Or.inr rfl)

section

variable {s : Paging} {root v n w : ℕ}

/-- The tables on the way to a page, level by level. -/
theorem length_pageTables (w : ℕ) (missing : List (Fin 512) → Prop) [DecidablePred missing] :
    (pageTables w missing).length = ((pathPrefixes w).filter missing).card := by
  have huse : ∀ (q : Prop) [Decidable q], (tableUse q).length = if q then 1 else 0 := by
    intro q _
    unfold tableUse
    split_ifs <;> rfl
  rw [Finset.card_filter, pathPrefixes, Finset.sum_insert (by simp [pagePath]),
    Finset.sum_insert (by simp [pagePath]), Finset.sum_singleton, ← Nat.add_assoc]
  simp only [pageTables, List.length_append, huse]

/-- One page more: the tables that are missing and that no page before it entered. -/
theorem framesNeeded_succ (s : Paging) (root v n : ℕ) :
    framesNeeded s root v (n + 1) = framesNeeded s root v n +
      (((pathPrefixes (add64 v (n * pageSize))).filter fun p => s.tableAt root p = none ∧
        ∀ j < n, ¬p <+: pagePath (add64 v (j * pageSize))).card + 1) := by
  have hunion : missingTables s root v (n + 1) = missingTables s root v n ∪
      (pathPrefixes (add64 v (n * pageSize))).filter fun p => s.tableAt root p = none ∧
        ∀ j < n, ¬p <+: pagePath (add64 v (j * pageSize)) := by
    ext p
    simp only [missingTables, Finset.mem_union, Finset.mem_filter, Finset.mem_biUnion,
      Finset.mem_range, mem_pathPrefixes]
    constructor
    · rintro ⟨⟨i, hi, hnil, hpre⟩, hnone⟩
      by_cases hbefore : ∃ j < n, p <+: pagePath (add64 v (j * pageSize))
      · obtain ⟨j, hj, hpre⟩ := hbefore
        exact Or.inl ⟨⟨j, hj, hnil, hpre⟩, hnone⟩
      · push Not at hbefore
        obtain rfl : i = n := by
          by_contra hne
          exact hbefore i (by omega) hpre
        exact Or.inr ⟨⟨hnil, hpre⟩, hnone, hbefore⟩
    · rintro (⟨⟨i, hi, hp⟩, hnone⟩ | ⟨hp, hnone, -⟩)
      · exact ⟨⟨i, by omega, hp⟩, hnone⟩
      · exact ⟨⟨n, by omega, hp⟩, hnone⟩
  have hdisj : Disjoint (missingTables s root v n)
      ((pathPrefixes (add64 v (n * pageSize))).filter fun p => s.tableAt root p = none ∧
        ∀ j < n, ¬p <+: pagePath (add64 v (j * pageSize))) := by
    rw [Finset.disjoint_left]
    intro p hp hp'
    simp only [missingTables, Finset.mem_filter, Finset.mem_biUnion, Finset.mem_range,
      mem_pathPrefixes] at hp hp'
    obtain ⟨⟨i, hi, -, hpre⟩, -⟩ := hp
    exact hp'.2.2 i hi hpre
  rw [framesNeeded, framesNeeded, hunion, Finset.card_union_of_disjoint hdisj]
  omega

/-- **A range takes the frames that it needs**, if no page of it is at address 0. -/
theorem length_rangeUses (hne : ∀ i < n, add64 v (i * pageSize) ≠ 0) :
    (rangeUses s root v n [.data]).length = framesNeeded s root v n := by
  induction n with
  | zero => rfl
  | succ n ih =>
    have hgo : ¬∃ j < n, add64 v (j * pageSize) = 0 := by
      rintro ⟨j, hj, hzero⟩
      exact hne j (by omega) hzero
    rw [rangeUses_succ, List.length_append, ih fun i hi => hne i (by omega), pageUses, if_neg hgo,
      List.length_append, length_pageTables, framesNeeded_succ]
    rfl

end

end AnglOS
