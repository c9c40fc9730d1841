import AnglOS.PagingTree

/-!
# Mapping Ranges

What `vmallocCR3` and `videntityCR3` do to the translations below a top-level table. Both
walk down to the level-1 table of each page, entering tables that are missing, and store one
leaf entry; so a range changes the leaf entries of its own pages, in the order of the loop,
and nothing else that a walk can see.

* `Reshapes` — what mapping keeps: the tree, the supply of frames, the upper entries that were
  present, and the memory elsewhere.
* `MapsPage` — one page: exactly its leaf entry changes.
* `mapLoop_maps` — the loop over the pages.

## Main results

`videntityCR3_maps` and `vmallocCR3_maps`: after mapping a range of at most `2 ^ 36` pages, each
page of the range translates to its frame with the given flags, every other page as before,
and the tree is well formed again.
-/

namespace AnglOS

open Pmm

/-! ### What mapping keeps -/

/-- What mapping keeps, whatever it maps. -/
structure Reshapes (s s' : Paging) (root : ℕ) (flags : BitVec 64) : Prop where
  /-- The frames that were not issued yet are in order. -/
  supply : Supply s'
  /-- The tree is one. -/
  tree : Tree s' root
  /-- Frames are only issued. -/
  unissued : s'.unissued ⊆ s.unissued
  /-- The rest of the state. -/
  kept : s.Kept s'
  /-- The upper entries: those present stay, those absent may become entries of new tables. -/
  upper : ∀ p i, p.length < 3 → s'.entryAt root p i = s.entryAt root p i ∨
    (s.entryAt root p i = 0 ∧ ∃ f ∈ s.unissued, s'.entryAt root p i = makeEntry f flags)
  /-- The tables of the tree. -/
  tables : ∀ p t, p.length ≤ 3 → s'.tableAt root p = some t →
    s.tableAt root p = some t ∨ t ∈ s.unissued
  /-- Memory elsewhere. -/
  frame : ∀ x, alignToPage x ∉ s.unissued →
    (∀ p, p.length ≤ 3 → s.tableAt root p ≠ some (alignToPage x)) → s'.mem x = s.mem x
  /-- The frames that are still not issued. -/
  fresh : ∀ x, alignToPage x ∈ s'.unissued → s'.mem x = s.mem x

theorem Grows.reshapes {s s' : Paging} {root : ℕ} {flags : BitVec 64}
    (h : Grows s s' root flags) : Reshapes s s' root flags where
  supply := h.supply
  tree := h.tree
  unissued := h.unissued
  kept := h.kept
  upper := fun p i hp => by
    rcases h.entries p i hp.le with he | ⟨-, hz, hf⟩
    · exact Or.inl he
    · exact Or.inr ⟨hz, hf⟩
  tables := h.tables
  frame := h.frame
  fresh := h.fresh

theorem Reshapes.refl {s : Paging} {root : ℕ} (flags : BitVec 64) (hs : Supply s)
    (ht : Tree s root) : Reshapes s s root flags :=
  (Grows.refl flags hs ht).reshapes

theorem Reshapes.trans {s s₁ s₂ : Paging} {root : ℕ} {flags : BitVec 64}
    (h₁ : Reshapes s s₁ root flags) (h₂ : Reshapes s₁ s₂ root flags) :
    Reshapes s s₂ root flags where
  supply := h₂.supply
  tree := h₂.tree
  unissued := h₂.unissued.trans h₁.unissued
  kept := h₁.kept.trans h₂.kept
  upper := by
    intro p i hp
    rcases h₂.upper p i hp with e₂ | ⟨hz, f, hf, e₂⟩
    · rw [e₂]
      exact h₁.upper p i hp
    · rcases h₁.upper p i hp with e₁ | ⟨hz₁, -⟩
      · exact Or.inr ⟨e₁ ▸ hz, f, h₁.unissued hf, e₂⟩
      · exact Or.inr ⟨hz₁, f, h₁.unissued hf, e₂⟩
  tables := by
    intro p t hp ht
    rcases h₂.tables p t hp ht with ht | ht
    · exact h₁.tables p t hp ht
    · exact Or.inr (h₁.unissued ht)
  frame := by
    intro x hx hp
    have hx₁ : ∀ p, p.length ≤ 3 → s₁.tableAt root p ≠ some (alignToPage x) := by
      intro p hlen ht
      rcases h₁.tables p _ hlen ht with ht | ht
      · exact hp p hlen ht
      · exact hx ht
    rw [h₂.frame x (fun hmem => hx (h₁.unissued hmem)) hx₁, h₁.frame x hx hp]
  fresh := fun x hx => (h₂.fresh x hx).trans (h₁.fresh x (h₂.unissued hx))

/-- One page is mapped: a walk sees exactly its leaf entry change, apart from new tables. -/
structure MapsPage (s s' : Paging) (root : ℕ) (flags : BitVec 64) (v : ℕ) (e : BitVec 64) : Prop
    extends Reshapes s s' root flags where
  /-- The leaf entries. -/
  leaf : ∀ w, s'.leaf root w = if pageNumber w = pageNumber v then e else s.leaf root w

/-! ### One page -/

/-- Storing a leaf entry changes no table and no other entry. -/
theorem setLeaf_walks {s : Paging} {root t v : ℕ} (hmod : root % pageSize = 0)
    (hun : Unshared frameOf s.entry root 3) (ht : s.tableAt root (pagePath v) = some t)
    (e : BitVec 64) :
    (∀ p, p.length ≤ 3 → (s.setEntry t (pageP1E v) e).tableAt root p = s.tableAt root p) ∧
    (∀ p i, p.length ≤ 3 → ¬(p = pagePath v ∧ i = pageP1E v) →
      (s.setEntry t (pageP1E v) e).entryAt root p i = s.entryAt root p i) ∧
    ∀ w, (s.setEntry t (pageP1E v) e).leaf root w
      = if pageNumber w = pageNumber v then e else s.leaf root w := by
  have htmod : t % pageSize = 0 := tableAt_mod hmod ht
  have hsame : ∀ q u j, q.length ≤ 3 → s.tableAt root q = some u → (u ≠ t ∨ j ≠ pageP1E v) →
      (s.setEntry t (pageP1E v) e).entry u j = s.entry u j := by
    intro q u j _ hu hdiff
    rw [entry_setEntry htmod (tableAt_mod hmod hu), if_neg (by tauto)]
  have hagree : AgreesOff frameOf s.entry (s.setEntry t (pageP1E v) e).entry root 3 (pagePath v)
      (pageP1E v) := hun.agreesOff le_rfl ht hsame
  have htab : ∀ p, p.length ≤ 3 →
      (s.setEntry t (pageP1E v) e).tableAt root p = s.tableAt root p := by
    intro p hp
    refine hagree.tableAt_off (by omega) fun hpre => ?_
    have hlen := hpre.length_le
    simp [pagePath_length] at hlen
    omega
  have hent : ∀ p i, p.length ≤ 3 → ¬ (p = pagePath v ∧ i = pageP1E v) →
      (s.setEntry t (pageP1E v) e).entryAt root p i = s.entryAt root p i := by
    intro p i hp hne
    cases hu : s.tableAt root p with
    | none => rw [Paging.entryAt, Paging.entryAt, entryAt_of_tableAt_none hu,
        entryAt_of_tableAt_none ((htab p hp).trans hu)]
    | some u =>
        rw [Paging.entryAt, Paging.entryAt, entryAt_of_tableAt hu,
          entryAt_of_tableAt ((htab p hp).trans hu)]
        refine hsame p u i hp hu ?_
        by_contra hc
        push Not at hc
        exact hne ⟨hun p (pagePath v) t hp le_rfl (hc.1 ▸ hu) ht, hc.2⟩
  refine ⟨htab, hent, fun w => ?_⟩
  by_cases hw : pageNumber w = pageNumber v
  · obtain ⟨hpath, hindex⟩ := pagePath_eq_iff.mpr hw
    rw [if_pos hw, Paging.leaf, hpath, hindex, Paging.entryAt,
      entryAt_of_tableAt ((htab _ le_rfl).trans ht), entry_setEntry htmod htmod,
      if_pos ⟨rfl, rfl⟩]
  · rw [if_neg hw]
    exact hent _ _ le_rfl fun hc => hw (pagePath_eq_iff.mp hc)

/-- A path that is shorter than that of a page is another one. -/
theorem ne_pagePath {p : List (Fin 512)} {i j : Fin 512} {v : ℕ} (hp : p.length < 3) :
    ¬(p = pagePath v ∧ i = j) := by
  rintro ⟨rfl, -⟩
  simp [pagePath_length] at hp

/-- **Storing a leaf entry** in the level-1 table of a page. -/
theorem Tree.setLeaf {s : Paging} {root t v : ℕ} (h : Tree s root) (hs : Supply s)
    (ht : s.tableAt root (pagePath v) = some t) (flags e : BitVec 64) :
    MapsPage s (s.setEntry t (pageP1E v) e) root flags v e := by
  have htmod : t % pageSize = 0 := tableAt_mod h.root_mod ht
  obtain ⟨htab, hupper, hleaf⟩ := setLeaf_walks h.root_mod h.unshared ht e
  refine { supply := hs.setEntry _ _ _, tree := ⟨h.root_mod, ?_, ?_⟩, unissued := subset_rfl,
           kept := (Paging.Kept.refl s).setEntry _ _ _,
           upper := fun p i hp => Or.inl (hupper p i hp.le (ne_pagePath hp)),
           tables := fun p u hp hu => Or.inl ((htab p hp).symm.trans hu), frame := ?_,
           fresh := ?_, leaf := hleaf }
  · exact fun p q u hp hq hu hu' => h.unshared p q u hp hq ((htab p hp).symm.trans hu)
      ((htab q hq).symm.trans hu')
  · exact fun p u hp hu => h.issued p u hp ((htab p hp).symm.trans hu)
  · intro x _ hxt
    exact setEntry_mem htmod fun heq => hxt (pagePath v) le_rfl (by rw [ht, heq])
  · intro x hx
    exact setEntry_mem htmod fun heq => h.issued (pagePath v) t le_rfl ht (heq ▸ hx)

/-- A leaf is stored after the tree has grown. -/
theorem Grows.mapsPage {s s₁ s' : Paging} {root v : ℕ} {flags e : BitVec 64}
    (h₁ : Grows s s₁ root flags) (h₂ : MapsPage s₁ s' root flags v e) :
    MapsPage s s' root flags v e where
  toReshapes := h₁.reshapes.trans h₂.toReshapes
  leaf := fun w => by rw [h₂.leaf w, h₁.leaf w]

/-- **`videntityHelper`** maps its page. -/
theorem Tree.videntityHelper {s : Paging} {root v p : ℕ} {flags : BitVec 64} (hs : Supply s)
    (h : Tree s root) (hflags : FlagBits flags) (hpres : flags &&& 1 = 1)
    (hok : ∀ e ∈ (videntityHelper v p root flags s).2.log, e.Good) :
    MapsPage s (AnglOS.videntityHelper v p root flags s).2 root flags v (makeEntry p flags) := by
  obtain ⟨hgrow, ht, -⟩ := h.descendTo (v := v) hs hflags hpres hok
  exact hgrow.mapsPage (hgrow.tree.setLeaf hgrow.supply ht flags _)

/-- Recording an event changes nothing else. -/
theorem Tree.record {s : Paging} {root : ℕ} (h : Tree s root) (e : PagingEvent) :
    Tree (s.record e) root := ⟨h.1, h.2, h.3⟩

theorem Supply.record {s : Paging} (h : Supply s) (e : PagingEvent) : Supply (s.record e) :=
  ⟨h.1, h.2, h.3, h.4, h.5, h.6, h.7⟩

/-- Issuing a data frame changes no entry. -/
theorem pmallocBulk_entry (s : Paging) (e : PagingEvent) :
    ((pmallocBulk s).2.record e).entry = s.entry := by
  funext t i
  exact congrArg (fun m : Mem => m.load64 (t + 8 * i)) (pmallocBulk_mem s)

/-- Issuing a data frame leaves every tree alone. -/
theorem Tree.pmallocBulk {s : Paging} {root : ℕ} (hs : Supply s) (h : Tree s root)
    (hok : s.RefillOk) (flags : BitVec 64) (e : PagingEvent) :
    Grows s ((AnglOS.pmallocBulk s).2.record e) root flags := by
  obtain ⟨-, hsup, hsub, hmem, hkept⟩ := pmallocBulk_spec hs hok
  have hentry := pmallocBulk_entry s e
  have hent : ((AnglOS.pmallocBulk s).2.record e).entryAt root = s.entryAt root := by
    unfold Paging.entryAt
    rw [hentry]
  have htab : ((AnglOS.pmallocBulk s).2.record e).tableAt root = s.tableAt root := by
    unfold Paging.tableAt
    rw [hentry]
  have hsub' : ((AnglOS.pmallocBulk s).2.record e).unissued ⊆ s.unissued :=
    fun g hg => (hsub hg).1
  refine ⟨hsup.record e, ⟨h.root_mod, ?_, ?_⟩, hsub', ?_, ?_, ?_, ?_, fun x _ => congrFun hmem x⟩
  · rw [hentry]
    exact h.unshared
  · intro p t hp ht hmem
    rw [htab] at ht
    exact h.issued p t hp ht (hsub' hmem)
  · exact ⟨hkept.pmm, hkept.cr3, hkept.bspCr3, hkept.log.trans (List.prefix_append _ _)⟩
  · intro p i _
    rw [hent]
    exact Or.inl rfl
  · intro p t _ ht
    rw [htab] at ht
    exact Or.inl ht
  · intro x _ _
    exact congrFun hmem x

/-- The data frame that an event reports. -/
def PagingEvent.dataFrame : PagingEvent → Option ℕ
  | .data f => some f
  | .block _ | .table .. | .freed _ => none

/-- The data frames of a record, in the order they were issued. -/
def dataFrames (log : List PagingEvent) : List ℕ := log.filterMap PagingEvent.dataFrame

theorem dataFrames_pmallocBulk (s : Paging) :
    dataFrames (pmallocBulk s).2.log = dataFrames s.log := by
  unfold pmallocBulk
  split_ifs
  · simp [dataFrames, Paging.record, PagingEvent.dataFrame]
  · rfl

theorem dataFrames_pagingDescend (s : Paging) (t : ℕ) (i : Fin 512) (flags : BitVec 64) :
    dataFrames (pagingDescend s t i flags).2.log = dataFrames s.log := by
  by_cases hz : s.entry t i = 0
  · rw [pagingDescend_of_zero hz]
    have hlog : ∃ b, (pagingAllocTable s).2.log
        = (pmallocBulk s).2.log ++ [.table (pmallocBulk s).1 b] := ⟨_, rfl⟩
    obtain ⟨b, hlog⟩ := hlog
    show dataFrames (pagingAllocTable s).2.log = _
    rw [hlog, dataFrames, List.filterMap_append]
    exact (List.append_nil _).trans (dataFrames_pmallocBulk s)
  · rw [pagingDescend_of_ne hz]

theorem dataFrames_pagingDescendTo (s : Paging) (v root : ℕ) (flags : BitVec 64) :
    dataFrames (pagingDescendTo s v root flags).2.log = dataFrames s.log := by
  unfold pagingDescendTo
  rw [dataFrames_pagingDescend, dataFrames_pagingDescend, dataFrames_pagingDescend]

/-- **`vmallocHelper`** maps its page to a frame that was not issued yet, and records it. -/
theorem Tree.vmallocHelper {s : Paging} {root v : ℕ} {flags : BitVec 64} (hs : Supply s)
    (h : Tree s root) (hflags : FlagBits flags) (hpres : flags &&& 1 = 1)
    (hok : ∀ e ∈ (vmallocHelper v root flags s).2.log, e.Good) :
    ∃ f ∈ s.unissued,
      MapsPage s (AnglOS.vmallocHelper v root flags s).2 root flags v (makeEntry f flags) ∧
      dataFrames (AnglOS.vmallocHelper v root flags s).2.log = dataFrames s.log ++ [f] ∧
      f ∉ (AnglOS.vmallocHelper v root flags s).2.unissued ∧
      ∀ p, p.length ≤ 3 → (AnglOS.vmallocHelper v root flags s).2.tableAt root p ≠ some f := by
  have hlog : (AnglOS.vmallocHelper v root flags s).2.log
      = (AnglOS.pmallocBulk (pagingDescendTo s v root flags).2).2.log
        ++ [.data (AnglOS.pmallocBulk (pagingDescendTo s v root flags).2).1] := rfl
  have hlog₁ := pmallocBulk_log (pagingDescendTo s v root flags).2
  have hok₂ : ∀ e ∈ (AnglOS.pmallocBulk (pagingDescendTo s v root flags).2).2.log, e.Good :=
    fun e he => hok e (by rw [hlog]; exact List.mem_append_left _ he)
  obtain ⟨hgrow, ht, -⟩ := h.descendTo (v := v) hs hflags hpres fun e he =>
    hok₂ e (hlog₁.subset he)
  have hserved : (pagingDescendTo s v root flags).2.RefillOk :=
    refillOk_of_log fun e he => (hok₂ e he).served
  obtain ⟨hf, -, hsub, -⟩ := pmallocBulk_spec hgrow.supply hserved
  have hgrow₂ := hgrow.tree.pmallocBulk hgrow.supply hserved flags
    (.data (AnglOS.pmallocBulk (pagingDescendTo s v root flags).2).1)
  have hleaf := hgrow₂.tree.setLeaf hgrow₂.supply (hgrow₂.tableAt le_rfl ht) flags
    (makeEntry (AnglOS.pmallocBulk (pagingDescendTo s v root flags).2).1 flags)
  refine ⟨_, hgrow.unissued hf, (hgrow.trans hgrow₂).mapsPage hleaf, ?_, fun hmem =>
    (hsub hmem).2 rfl, fun p hp htp => ?_⟩
  · rw [hlog, dataFrames, List.filterMap_append]
    congr 1
    exact (dataFrames_pmallocBulk _).trans (dataFrames_pagingDescendTo s v root flags)
  · rcases hleaf.tables p _ hp htp with htab | hmem
    · rw [Paging.tableAt, pmallocBulk_entry] at htab
      exact hgrow.tree.issued p _ hp htab hf
    · exact (hsub hmem).2 rfl

/-! ### The loop -/

theorem videntityHelper_log (v p root : ℕ) (flags : BitVec 64) (s : Paging) :
    s.log <+: (videntityHelper v p root flags s).2.log :=
  pagingDescendTo_log s v root flags

theorem vmallocHelper_log (v root : ℕ) (flags : BitVec 64) (s : Paging) :
    s.log <+: (vmallocHelper v root flags s).2.log :=
  ((pagingDescendTo_log s v root flags).trans (pmallocBulk_log _)).trans (List.prefix_append _ _)

/-- The loop over the pages only adds to the record. -/
theorem mapLoop_log {body : ℕ → Paging → ℕ × Paging}
    (hlog : ∀ i s, s.log <+: (body i s).2.log) (n : ℕ) (s : Paging) :
    (mapLoop body n s).2.log <+: (mapLoop body (n + 1) s).2.log := by
  rcases hr : mapLoop body n s with ⟨_ | _, s₁⟩
  · simp [mapLoop, hr]
  · simpa [mapLoop, hr] using hlog n s₁

/-- **The loop over the pages**: each round maps its page, so after the loop every page of the
range has the leaf entry of the last round for it, and every other page the one it had. -/
theorem mapLoop_maps (body : ℕ → Paging → ℕ × Paging) (page : ℕ → ℕ) (root : ℕ)
    (flags : BitVec 64) (X : ℕ → Paging → List (BitVec 64) → Prop) {s : Paging}
    (hlog : ∀ i s, s.log <+: (body i s).2.log) {n : ℕ} (hne : ∀ i < n, ∀ s, (body i s).1 ≠ 0)
    (hbody : ∀ i < n, ∀ s es, Supply s → Tree s root → X i s es →
      (∀ e ∈ (body i s).2.log, e.Good) →
      ∃ e, MapsPage s (body i s).2 root flags (page i) e ∧ X (i + 1) (body i s).2 (es ++ [e]))
    (hs : Supply s) (ht : Tree s root) (hx : X 0 s [])
    (hok : ∀ e ∈ (mapLoop body n s).2.log, e.Good) :
    (mapLoop body n s).1 = true ∧ Reshapes s (mapLoop body n s).2 root flags ∧
    (∀ w, (∀ i < n, pageNumber w ≠ pageNumber (page i)) →
      (mapLoop body n s).2.leaf root w = s.leaf root w) ∧
    ∃ es : List (BitVec 64), es.length = n ∧ X n (mapLoop body n s).2 es ∧
      ∀ i e, es[i]? = some e → (∀ j, i < j → j < n → pageNumber (page j) ≠ pageNumber (page i)) →
        (mapLoop body n s).2.leaf root (page i) = e := by
  induction n with
  | zero =>
      exact ⟨rfl, Reshapes.refl flags hs ht, fun _ _ => rfl, [], rfl, hx, by simp⟩
  | succ n ih =>
      obtain ⟨hgo, hre, hold, es, hlen, hxn, hnew⟩ := ih (fun i hi => hne i (by omega))
        (fun i hi => hbody i (by omega)) fun e he => hok e ((mapLoop_log hlog n s).subset he)
      have hloop : mapLoop body (n + 1) s = (decide ((body n (mapLoop body n s).2).1 ≠ 0),
          (body n (mapLoop body n s).2).2) := by
        rw [mapLoop]
        rcases hr : mapLoop body n s with ⟨b, s₁⟩
        rw [hr] at hgo
        simp only at hgo
        rw [hgo]
      rw [hloop] at hok ⊢
      obtain ⟨e, hmap, hxe⟩ := hbody n (by omega) _ es hre.supply hre.tree hxn hok
      refine ⟨decide_eq_true (hne n (by omega) _), hre.trans hmap.toReshapes, ?_, es ++ [e],
        by simp [hlen], hxe, ?_⟩
      · intro w hw
        rw [hmap.leaf w, if_neg (hw n (by omega)), hold w fun i hi => hw i (by omega)]
      · intro i e' hi hlast
        rw [hmap.leaf]
        by_cases hin : i = n
        · rw [hin, if_pos rfl]
          rw [hin, ← hlen, List.getElem?_concat_length] at hi
          exact Option.some.inj hi
        · have hilt : i < n := by
            have := (List.getElem?_eq_some_iff.mp hi).1
            simp only [List.length_append, List.length_singleton] at this
            omega
          rw [if_neg fun heq => hlast n hilt (by omega) heq.symm]
          rw [List.getElem?_append_left (by omega)] at hi
          exact hnew i e' hi fun j hij hjn => hlast j hij (by omega)

/-- **A loop over pages, which may stop early**, keeps what mapping one page keeps, and changes no
leaf entry outside of its pages. -/
theorem mapLoop_reshapes {body : ℕ → Paging → ℕ × Paging} {root : ℕ} (flags : BitVec 64)
    (page : ℕ → ℕ) (hlog : ∀ i s, s.log <+: (body i s).2.log)
    (hbody : ∀ i s, Supply s → Tree s root → (∀ e ∈ (body i s).2.log, e.Good) →
      ∃ e, MapsPage s (body i s).2 root flags (page i) e)
    {s : Paging} (hs : Supply s) (ht : Tree s root) {n : ℕ}
    (hgood : ∀ e ∈ (mapLoop body n s).2.log, e.Good) :
    Reshapes s (mapLoop body n s).2 root flags ∧
      ∀ w, (∀ i < n, pageNumber w ≠ pageNumber (page i)) →
        (mapLoop body n s).2.leaf root w = s.leaf root w := by
  induction n with
  | zero => exact ⟨Reshapes.refl flags hs ht, fun _ _ => rfl⟩
  | succ n ih =>
      obtain ⟨hre, hleaf⟩ := ih fun e he => hgood e ((mapLoop_log hlog n s).subset he)
      rcases hr : mapLoop body n s with ⟨_ | _, s₁⟩
      · -- the helper returned `NULL` before
        rw [hr] at hre hleaf
        have hloop : (mapLoop body (n + 1) s).2 = s₁ := by simp [mapLoop, hr]
        rw [hloop]
        exact ⟨hre, fun w hw => hleaf w fun i hi => hw i (by omega)⟩
      · rw [hr] at hre hleaf
        have hloop : (mapLoop body (n + 1) s).2 = (body n s₁).2 := by simp [mapLoop, hr]
        rw [hloop] at hgood ⊢
        obtain ⟨e, hmaps⟩ := hbody n s₁ hre.supply hre.tree hgood
        refine ⟨hre.trans hmaps.toReshapes, fun w hw => ?_⟩
        rw [hmaps.leaf w, if_neg (hw n (by omega)), hleaf w fun i hi => hw i (by omega)]

/-! ### Ranges -/

/-- A state with the lock taken or freed is the same to every walk. -/
theorem Reshapes.unlock {s s' : Paging} {root : ℕ} {flags : BitVec 64} {a b : Bool}
    (h : Reshapes { s with lock := a } s' root flags) :
    Reshapes s { s' with lock := b } root flags where
  supply := ⟨h.supply.1, h.supply.2, h.supply.3, h.supply.4, h.supply.5, h.supply.6, h.supply.7⟩
  tree := ⟨h.tree.1, h.tree.2, h.tree.3⟩
  unissued := h.unissued
  kept := ⟨h.kept.pmm, h.kept.cr3, h.kept.bspCr3, h.kept.log⟩
  upper := h.upper
  tables := h.tables
  frame := h.frame
  fresh := h.fresh

theorem Supply.withLock {s : Paging} (h : Supply s) (b : Bool) : Supply { s with lock := b } :=
  ⟨h.1, h.2, h.3, h.4, h.5, h.6, h.7⟩

theorem Tree.withLock {s : Paging} {root : ℕ} (h : Tree s root) (b : Bool) :
    Tree { s with lock := b } root := ⟨h.1, h.2, h.3⟩

/-- The state after `vmallocCR3`. -/
theorem vmallocCR3_snd (s : Paging) (v n : ℕ) (flags : BitVec 64) (root : ℕ) :
    (vmallocCR3 s v n flags root).2 = { (mapLoop (fun i => vmallocHelper (add64 v (i * pageSize))
      root flags) n { s with lock := true }).2 with lock := false } := by
  rcases hr : mapLoop (fun i => vmallocHelper (add64 v (i * pageSize)) root flags) n
    { s with lock := true } with ⟨_ | _, s'⟩
  · simp only [vmallocCR3, hr]
  · simp only [vmallocCR3, hr]

/-- The state after `videntityCR3`. -/
theorem videntityCR3_snd (s : Paging) (v p n : ℕ) (flags : BitVec 64) (root : ℕ) :
    ∃ b, (videntityCR3 s v p n flags root).2 = { (mapLoop (fun i => videntityHelper
      (add64 v (i * pageSize)) (add64 p (i * pageSize)) root flags) n
        { s with lock := true }).2 with lock := b } := by
  rcases hr : mapLoop (fun i => videntityHelper (add64 v (i * pageSize)) (add64 p (i * pageSize))
    root flags) n { s with lock := true } with ⟨_ | _, s'⟩
  · exact ⟨s'.lock, by simp only [videntityCR3, hr]⟩
  · exact ⟨false, by simp only [videntityCR3, hr]⟩

theorem vmallocCR3_log (s : Paging) (v n : ℕ) (flags : BitVec 64) (root : ℕ) :
    s.log <+: (vmallocCR3 s v n flags root).2.log := by
  rw [vmallocCR3_snd]
  induction n with
  | zero => exact List.prefix_rfl
  | succ n ih => exact ih.trans (mapLoop_log (fun i s => vmallocHelper_log _ _ _ s) n _)

/-- `vmallocCR3` of any range. -/
theorem vmallocCR3_reshapes {s : Paging} {root v n : ℕ} {flags : BitVec 64} (hs : Supply s)
    (ht : Tree s root) (hflags : FlagBits flags) (hpres : flags &&& 1 = 1)
    (hgood : ∀ e ∈ (vmallocCR3 s v n flags root).2.log, e.Good) :
    Reshapes s (vmallocCR3 s v n flags root).2 root flags ∧
      ∀ w, (∀ i < n, pageNumber w ≠ pageNumber (add64 v (i * pageSize))) →
        (vmallocCR3 s v n flags root).2.leaf root w = s.leaf root w := by
  rw [vmallocCR3_snd] at hgood ⊢
  obtain ⟨hre, hleaf⟩ := mapLoop_reshapes flags (fun i => add64 v (i * pageSize))
    (fun i s => vmallocHelper_log _ _ _ s)
    (fun i s hs ht hgood => by
      obtain ⟨f, -, hmaps, -⟩ := ht.vmallocHelper hs hflags hpres hgood
      exact ⟨_, hmaps⟩) (hs.withLock true) (ht.withLock true) hgood
  exact ⟨hre.unlock, hleaf⟩

/-- `videntityCR3` of any range. -/
theorem videntityCR3_reshapes {s : Paging} {root v p n : ℕ} {flags : BitVec 64} (hs : Supply s)
    (ht : Tree s root) (hflags : FlagBits flags) (hpres : flags &&& 1 = 1)
    (hgood : ∀ e ∈ (videntityCR3 s v p n flags root).2.log, e.Good) :
    Reshapes s (videntityCR3 s v p n flags root).2 root flags ∧
      ∀ w, (∀ i < n, pageNumber w ≠ pageNumber (add64 v (i * pageSize))) →
        (videntityCR3 s v p n flags root).2.leaf root w = s.leaf root w := by
  obtain ⟨b, hsnd⟩ := videntityCR3_snd s v p n flags root
  rw [hsnd] at hgood ⊢
  obtain ⟨hre, hleaf⟩ := mapLoop_reshapes flags (fun i => add64 v (i * pageSize))
    (fun i s => videntityHelper_log _ _ _ _ s)
    (fun i s hs ht hgood => ⟨_, ht.videntityHelper hs hflags hpres hgood⟩) (hs.withLock true)
    (ht.withLock true) hgood
  exact ⟨hre.unlock, hleaf⟩

/-- The pages of a range of at most `2 ^ 36` pages have different numbers. -/
theorem pageNumber_range {v i j n : ℕ} (hn : n ≤ 2 ^ 36) (hij : i < j) (hj : j < n) :
    pageNumber (v + j * pageSize) ≠ pageNumber (v + i * pageSize) := by
  simp only [pageNumber, pageSize]
  omega

/-- The documented flags have no bit where an entry holds the frame. -/
theorem FlagBits.of_documented {flags : BitVec 64} (h : flags &&& ~~~pageFlags = 0) :
    FlagBits flags := by
  have hsub : frameMask &&& ~~~pageFlags = frameMask := by decide
  calc flags &&& frameMask = flags &&& (frameMask &&& ~~~pageFlags) := by rw [hsub]
    _ = (flags &&& ~~~pageFlags) &&& frameMask := by
        rw [BitVec.and_comm frameMask, ← BitVec.and_assoc]
    _ = 0 := by rw [h]; simp

/-- The translation that a leaf entry gives. -/
theorem walk_of_leaf {s : Paging} {root v f : ℕ} {flags : BitVec 64} (hf : f % pageSize = 0)
    (hlt : f < 2 ^ 52) (hflags : FlagBits flags) (hpres : flags &&& 1 = 1)
    (h : s.leaf root v = makeEntry f flags) : s.walk root v = some (f, flags) := by
  rw [Paging.walk, h, if_neg (makeEntry_ne_zero hpres), frameOf_makeEntry hf hlt hflags,
    makeEntry_flags hf hlt hflags]

theorem walk_congr {s s' : Paging} {root v : ℕ} (h : s'.leaf root v = s.leaf root v) :
    s'.walk root v = s.walk root v := by
  rw [Paging.walk, Paging.walk, h]

/-- The range of `n` pages from `v` on is mapped to the given frames and flags, every other
page translates as before, and the tree and the supply of frames are in order. -/
structure MapsRange (s s' : Paging) (root v n : ℕ) (target : ℕ → Option (ℕ × BitVec 64)) :
    Prop where
  /-- The pages of the range. -/
  range : ∀ i < n, s'.walk root (v + i * pageSize) = target i
  /-- The other pages. -/
  others : ∀ w, (∀ i < n, pageNumber w ≠ pageNumber (v + i * pageSize)) →
    s'.walk root w = s.walk root w
  /-- The supply of frames. -/
  supply : Supply s'
  /-- The tree. -/
  tree : Tree s' root

/-- `videntityCR3` of a range that does not wrap. -/
theorem videntityCR3_maps {s : Paging} {root v p n : ℕ} {flags : BitVec 64} (hs : Supply s)
    (ht : Tree s root) (hflags : FlagBits flags) (hpres : flags &&& 1 = 1)
    (hn : n ≤ 2 ^ 36) (hwrap : v + n * pageSize ≤ 2 ^ 64)
    (hzero : ∀ i < n, v + i * pageSize ≠ 0) (hp : p % pageSize = 0)
    (hp52 : p + n * pageSize ≤ 2 ^ 52)
    (hok : ∀ e ∈ (videntityCR3 s v p n flags root).2.log, e.Good) :
    MapsRange s (videntityCR3 s v p n flags root).2 root v n
      fun i => some (p + i * pageSize, flags) := by
  obtain ⟨b, hsnd⟩ := videntityCR3_snd s v p n flags root
  have hpage : ∀ i < n, add64 v (i * pageSize) = v + i * pageSize := fun i hi =>
    add64_eq (by simp only [pageSize] at *; omega)
  have hframe : ∀ i < n, add64 p (i * pageSize) = p + i * pageSize := fun i hi =>
    add64_eq (by simp only [pageSize] at *; omega)
  rw [hsnd] at hok ⊢
  obtain ⟨-, hre, hothers, es, hlen, hx, hrange⟩ := mapLoop_maps
    (fun i => videntityHelper (add64 v (i * pageSize)) (add64 p (i * pageSize)) root flags)
    (fun i => v + i * pageSize) root flags
    (fun k _ es => es = (List.range k).map fun i => makeEntry (p + i * pageSize) flags)
    (fun i s => videntityHelper_log _ _ _ _ s)
    (fun i hi s => by rw [videntityHelper, hpage i hi]; exact hzero i hi)
    (fun i hi s es hs ht hx hok => by
      rw [hpage i hi, hframe i hi] at hok ⊢
      refine ⟨_, ht.videntityHelper hs hflags hpres hok, ?_⟩
      rw [hx, List.range_succ, List.map_append]
      rfl)
    (hs.withLock true) (ht.withLock true) rfl hok
  have hre' := hre.unlock (b := b)
  refine ⟨fun i hi => ?_, fun w hw => walk_congr (hothers w hw), hre'.supply, hre'.tree⟩
  have hget : es[i]? = some (makeEntry (p + i * pageSize) flags) := by
    rw [hx]
    simp [hi]
  refine walk_of_leaf ?_ ?_ hflags hpres
    (hrange i _ hget fun j hij hj => pageNumber_range hn hij hj)
  · simp only [pageSize] at hp ⊢
    omega
  · simp only [pageSize] at hp52 ⊢
    omega

/-- `vmallocCR3` of a range that does not wrap. -/
theorem vmallocCR3_maps {s : Paging} {root v n : ℕ} {flags : BitVec 64} (hs : Supply s)
    (ht : Tree s root) (hlog : s.log = []) (hflags : FlagBits flags) (hpres : flags &&& 1 = 1)
    (hn : n ≤ 2 ^ 36) (hwrap : v + n * pageSize ≤ 2 ^ 64)
    (hzero : ∀ i < n, v + i * pageSize ≠ 0)
    (hok : ∀ e ∈ (vmallocCR3 s v n flags root).2.log, e.Good) :
    (dataFrames (vmallocCR3 s v n flags root).2.log).length = n ∧
      MapsRange s (vmallocCR3 s v n flags root).2 root v n
        fun i => (dataFrames (vmallocCR3 s v n flags root).2.log)[i]?.map fun f => (f, flags) := by
  have hpage : ∀ i < n, add64 v (i * pageSize) = v + i * pageSize := fun i hi =>
    add64_eq (by simp only [pageSize] at *; omega)
  have hnil : dataFrames s.log = [] := by rw [hlog]; rfl
  rw [vmallocCR3_snd] at hok ⊢
  obtain ⟨-, hre, hothers, es, hlen, ⟨hes, hframes, -⟩, hrange⟩ := mapLoop_maps
    (fun i => vmallocHelper (add64 v (i * pageSize)) root flags)
    (fun i => v + i * pageSize) root flags
    (fun _ s' es => es = (dataFrames s'.log).map (fun f => makeEntry f flags) ∧
      (∀ f ∈ dataFrames s'.log, f ∈ s.unissued) ∧ s'.unissued ⊆ s.unissued)
    (fun i s => vmallocHelper_log _ _ _ s)
    (fun i hi s => by rw [vmallocHelper, hpage i hi]; exact hzero i hi)
    (fun i hi s' es hs' ht' hx hok => by
      rw [hpage i hi] at hok ⊢
      obtain ⟨f, hf, hmap, hdata, -⟩ := ht'.vmallocHelper hs' hflags hpres hok
      obtain ⟨hes, hframes, hsub⟩ := hx
      refine ⟨_, hmap, ?_, ?_, hmap.unissued.trans hsub⟩
      · rw [hdata, hes, List.map_append]
        rfl
      · intro g hg
        rw [hdata] at hg
        rcases List.mem_append.mp hg with hg | hg
        · exact hframes g hg
        · exact hsub ((List.mem_singleton.mp hg) ▸ hf))
    (hs.withLock true) (ht.withLock true) ⟨by simp [hnil], by simp [hnil], subset_rfl⟩ hok
  have hre' := hre.unlock (b := false)
  have hlen' : (dataFrames (mapLoop (fun i => vmallocHelper (add64 v (i * pageSize)) root flags) n
      { s with lock := true }).2.log).length = n := by
    have hcount := congrArg List.length hes
    rw [List.length_map] at hcount
    exact hcount.symm.trans hlen
  refine ⟨hlen', fun i hi => ?_, fun w hw => walk_congr (hothers w hw), hre'.supply, hre'.tree⟩
  obtain ⟨f, hf⟩ : ∃ f, (dataFrames (mapLoop (fun i => vmallocHelper (add64 v (i * pageSize)) root
      flags) n { s with lock := true }).2.log)[i]? = some f :=
    ⟨_, List.getElem?_eq_getElem (hlen'.symm ▸ hi)⟩
  have hfmem : f ∈ s.unissued := hframes f (List.mem_of_getElem? hf)
  rw [hf, Option.map_some]
  refine walk_of_leaf (hs.aligned f hfmem) (hs.lt f hfmem) hflags hpres
    (hrange i _ ?_ fun j hij hj => pageNumber_range hn hij hj)
  rw [hes, List.getElem?_map, hf, Option.map_some]

end AnglOS
