import AnglOS.PagingFlags

/-!
# Mapping the User Half

A new address space shares its kernel half with the others, and the boot loader may have built
that half in any way, with large pages too. Operations on user pages neither read nor write the
upper half of the top-level table, so what they do can be studied in the state without it.

* `Paging.lower` — the state without the upper half of a top-level table.
* `UserSpace` — an address space whose user half was built from frames that were free: its tables
  and its data frames are apart, and nothing else has changed.

## Main results

* `lower_vmallocHelper`, `lower_vflagsHelper` — operations on user pages do the same without
  the upper half;
* `UserSpace.vmallocHelper`, `UserSpace.setByte`, `UserSpace.vflagsHelper` — mapping a user page,
  writing through one, and changing the flags of one;
* `UserSpace.translation_kernel` — the translations of the kernel half stay.
-/

namespace AnglOS

/-! ### The state without the upper half -/

/-- The paging layer without the upper half of the top-level table `r`. -/
def Paging.lower (s : Paging) (r : ℕ) : Paging :=
  { s with mem := fun x => if r + 2048 ≤ x ∧ x < r + 4096 then 0 else s.mem x }

theorem Supply.lower {s : Paging} (h : Supply s) (r : ℕ) : Supply (s.lower r) :=
  ⟨h.1, h.2, h.3, h.4, h.5, h.6, h.7⟩

theorem lower_unissued (s : Paging) (r : ℕ) : (s.lower r).unissued = s.unissued := rfl

theorem setEntry_unissued (s : Paging) (t : ℕ) (i : Fin 512) (e : BitVec 64) :
    (s.setEntry t i e).unissued = s.unissued := rfl

theorem lower_entry {s : Paging} {r t : ℕ} (hr : r % pageSize = 0) (ht : t % pageSize = 0)
    (i : Fin 512) :
    (s.lower r).entry t i = if t = r ∧ 256 ≤ i.val then 0 else s.entry t i := by
  have hi := i.isLt
  simp only [pageSize] at hr ht
  split_ifs with h
  · obtain ⟨rfl, h256⟩ := h
    have hzero : (s.lower t).entry t i = Mem.load64 (fun _ => 0) (t + 8 * i) := by
      refine Mem.load64_congr fun x h1 h2 => ?_
      simp only [Paging.lower]
      rw [if_pos (by omega)]
    rw [hzero]
    simp [Mem.load64]
  · refine Mem.load64_congr fun x h1 h2 => ?_
    simp only [Paging.lower]
    rw [if_neg]
    rintro ⟨h3, h4⟩
    refine h ⟨?_, ?_⟩ <;> omega

theorem lower_setEntry {s : Paging} {r t : ℕ} {i : Fin 512} (hr : r % pageSize = 0)
    (ht : t % pageSize = 0) (h : t ≠ r ∨ i.val < 256) (e : BitVec 64) :
    (s.lower r).setEntry t i e = (s.setEntry t i e).lower r := by
  have hi := i.isLt
  simp only [pageSize] at hr ht
  simp only [Paging.lower, Paging.setEntry, Paging.mk.injEq, and_true]
  funext x
  simp only [Mem.store64]
  by_cases hx : r + 2048 ≤ x ∧ x < r + 4096
  · rw [if_pos hx, if_neg (by omega), if_pos hx]
  · rw [if_neg hx, if_neg hx]

/-- The upper half of the top-level table stays. -/
def Paging.TopKept (s s' : Paging) (r : ℕ) : Prop :=
  ∀ x, r + 2048 ≤ x → x < r + 4096 → s'.mem x = s.mem x

theorem Paging.TopKept.trans {s s₁ s₂ : Paging} {r : ℕ} (h₁ : s.TopKept s₁ r)
    (h₂ : s₁.TopKept s₂ r) : s.TopKept s₂ r :=
  fun x hx hx' => (h₂ x hx hx').trans (h₁ x hx hx')

theorem topKept_setEntry {s : Paging} {r t : ℕ} {i : Fin 512} (hr : r % pageSize = 0)
    (ht : t % pageSize = 0) (h : t ≠ r ∨ i.val < 256) (e : BitVec 64) :
    s.TopKept (s.setEntry t i e) r := by
  intro x hx hx'
  have hi := i.isLt
  simp only [pageSize] at hr ht
  exact Mem.store64_of_not_mem (by omega)

theorem lower_pmallocBulk (s : Paging) (r : ℕ) :
    pmallocBulk (s.lower r) = ((pmallocBulk s).1, (pmallocBulk s).2.lower r) := by
  unfold pmallocBulk
  split_ifs with h <;> simp_all [Paging.lower, Paging.record]

/-- `pagingAllocTable` as a store of one entry. -/
theorem pagingAllocTable_eq (s : Paging) : pagingAllocTable s = ((pmallocBulk s).1,
    ((pmallocBulk s).2.setEntry (pmallocBulk s).1 0 0).record (.table (pmallocBulk s).1
      (decide (∀ i, ((pmallocBulk s).2.setEntry (pmallocBulk s).1 0 0).entry
        (pmallocBulk s).1 i = 0)))) := by
  unfold pagingAllocTable
  simp only [zeroTable_eq]
  rfl

theorem lower_pagingAllocTable {s : Paging} {r : ℕ} (hr : r % pageSize = 0)
    (hf : (pmallocBulk s).1 % pageSize = 0) (hne : (pmallocBulk s).1 ≠ r) :
    pagingAllocTable (s.lower r) = ((pagingAllocTable s).1, (pagingAllocTable s).2.lower r) ∧
      s.TopKept (pagingAllocTable s).2 r := by
  rw [pagingAllocTable_eq, pagingAllocTable_eq, lower_pmallocBulk]
  refine ⟨?_, fun x hx hx' => (topKept_setEntry hr hf (Or.inl hne) 0 x hx hx').trans
    (congrFun (pmallocBulk_mem s) x)⟩
  simp only [lower_setEntry hr hf (Or.inl hne), lower_entry hr hf]
  have hsame : ∀ i : Fin 512, (if (pmallocBulk s).1 = r ∧ 256 ≤ i.val then (0 : BitVec 64)
      else ((pmallocBulk s).2.setEntry (pmallocBulk s).1 0 0).entry (pmallocBulk s).1 i)
      = ((pmallocBulk s).2.setEntry (pmallocBulk s).1 0 0).entry (pmallocBulk s).1 i :=
    fun i => if_neg fun h => hne h.1
  simp only [hsame]
  rfl

/-- One level of the walk down, in the lower half. -/
theorem lower_pagingDescend {s : Paging} {r t : ℕ} {i : Fin 512} {flags : BitVec 64}
    (hs : Supply s) (hr : r % pageSize = 0) (hrn : r ∉ s.unissued) (ht : t % pageSize = 0)
    (h : t ≠ r ∨ i.val < 256) (hok : ∀ e ∈ (pagingDescend s t i flags).2.log, e.Good) :
    pagingDescend (s.lower r) t i flags
        = ((pagingDescend s t i flags).1, (pagingDescend s t i flags).2.lower r) ∧
      s.TopKept (pagingDescend s t i flags).2 r := by
  have hentry : (s.lower r).entry t i = s.entry t i := by
    rw [lower_entry hr ht, if_neg]
    rintro ⟨rfl, hi⟩
    exact h.elim (fun h => h rfl) fun h => by omega
  have hsnd : (pagingDescend (s.lower r) t i flags).2 = (pagingDescend s t i flags).2.lower r ∧
      s.TopKept (pagingDescend s t i flags).2 r := by
    by_cases hz : s.entry t i = 0
    · rw [pagingDescend_of_zero hz] at hok ⊢
      rw [pagingDescend_of_zero (hentry.trans hz)]
      obtain ⟨hf, -⟩ := pagingAllocTable_spec hs (refillOk_of_log fun e he =>
        (hok e (List.mem_append_left _ he)).served)
      have hne : (pmallocBulk s).1 ≠ r := fun heq => hrn (heq ▸ hf)
      obtain ⟨hcomm, htop⟩ := lower_pagingAllocTable hr (hs.aligned _ hf) hne
      rw [hcomm]
      exact ⟨lower_setEntry hr ht h _, htop.trans (topKept_setEntry hr ht h _)⟩
    · rw [pagingDescend_of_ne hz, pagingDescend_of_ne (by rw [hentry]; exact hz)]
      exact ⟨rfl, fun _ _ _ => rfl⟩
  refine ⟨Prod.ext ?_ hsnd.1, hsnd.2⟩
  rw [pagingDescend_fst, hsnd.1, pagingDescend_fst, lower_entry hr ht, if_neg]
  rintro ⟨rfl, hi⟩
  exact h.elim (fun h => h rfl) fun h => by omega

theorem Supply.of_lower {s : Paging} {r : ℕ} (h : Supply (s.lower r)) : Supply s :=
  ⟨h.1, h.2, h.3, h.4, h.5, h.6, h.7⟩

/-- One level of the walk down in the tree of the lower half. -/
theorem Tree.lower_descend {s : Paging} {r t : ℕ} {p : List (Fin 512)} {i : Fin 512}
    {flags : BitVec 64} (h : Tree (s.lower r) r) (hs : Supply s) (hp : p.length < 3)
    (ht : (s.lower r).tableAt r p = some t) (hi : p = [] → i.val < 256) (hflags : FlagBits flags)
    (hpres : flags &&& 1 = 1) (hok : ∀ e ∈ (pagingDescend s t i flags).2.log, e.Good) :
    pagingDescend (s.lower r) t i flags
        = ((pagingDescend s t i flags).1, (pagingDescend s t i flags).2.lower r) ∧
      Grows (s.lower r) ((pagingDescend s t i flags).2.lower r) r flags ∧
      ((pagingDescend s t i flags).2.lower r).tableAt r (p ++ [i])
        = some (pagingDescend s t i flags).1 ∧
      s.TopKept (pagingDescend s t i flags).2 r := by
  have hroot : r ∉ s.unissued := h.issued [] r (Nat.zero_le 3) rfl
  have hne : t ≠ r ∨ i.val < 256 := by
    by_cases hnil : p = []
    · exact Or.inr (hi hnil)
    · exact Or.inl (h.ne_root hp.le hnil ht)
  obtain ⟨hcomm, htop⟩ :=
    lower_pagingDescend hs h.root_mod hroot (tableAt_mod h.root_mod ht) hne hok
  have hok' : ∀ e ∈ (pagingDescend (s.lower r) t i flags).2.log, e.Good := by
    rw [hcomm]
    exact hok
  obtain ⟨hgrow, ht', -⟩ := h.descend (i := i) (hs.lower r) hp ht hflags hpres hok'
  rw [hcomm] at hgrow ht'
  exact ⟨hcomm, hgrow, ht', htop⟩

/-- **The walk down to the level-1 table of a user page** does the same without the upper half. -/
theorem Tree.lower_descendTo {s : Paging} {r v : ℕ} {flags : BitVec 64} (h : Tree (s.lower r) r)
    (hs : Supply s) (hv : (pageP4E v).val < 256) (hflags : FlagBits flags)
    (hpres : flags &&& 1 = 1) (hok : ∀ e ∈ (pagingDescendTo s v r flags).2.log, e.Good) :
    pagingDescendTo (s.lower r) v r flags
        = ((pagingDescendTo s v r flags).1, (pagingDescendTo s v r flags).2.lower r) ∧
      s.TopKept (pagingDescendTo s v r flags).2 r := by
  unfold pagingDescendTo at hok ⊢
  have hok₂ := fun e he => hok e ((pagingDescend_log _ _ _ _).subset he)
  have hok₁ := fun e he => hok₂ e ((pagingDescend_log _ _ _ _).subset he)
  obtain ⟨hcomm₁, hgrow₁, ht₁, htop₁⟩ := h.lower_descend hs (p := []) (by simp) rfl (fun _ => hv)
    hflags hpres hok₁
  obtain ⟨hcomm₂, hgrow₂, ht₂, htop₂⟩ := hgrow₁.tree.lower_descend hgrow₁.supply.of_lower (by simp)
    ht₁ (fun hnil => absurd hnil (by simp)) hflags hpres hok₂
  obtain ⟨hcomm₃, -, -, htop₃⟩ := hgrow₂.tree.lower_descend hgrow₂.supply.of_lower (by simp) ht₂
    (fun hnil => absurd hnil (by simp)) hflags hpres hok
  refine ⟨?_, (htop₁.trans htop₂).trans htop₃⟩
  rw [hcomm₁]
  simp only
  rw [hcomm₂]
  exact hcomm₃

/-- The level-1 table of a user page, in the lower half. -/
theorem Tree.lower_tableAt {s : Paging} {r v : ℕ} {flags : BitVec 64} (h : Tree (s.lower r) r)
    (hs : Supply s) (hv : (pageP4E v).val < 256) (hflags : FlagBits flags)
    (hpres : flags &&& 1 = 1) (hok : ∀ e ∈ (pagingDescendTo s v r flags).2.log, e.Good) :
    Grows (s.lower r) ((pagingDescendTo s v r flags).2.lower r) r flags ∧
      ((pagingDescendTo s v r flags).2.lower r).tableAt r (pagePath v)
        = some (pagingDescendTo s v r flags).1 := by
  obtain ⟨hcomm, -⟩ := h.lower_descendTo hs hv hflags hpres hok
  have hgrow := h.descendTo (v := v) (hs.lower r) hflags hpres (by rw [hcomm]; exact hok)
  rw [hcomm] at hgrow
  exact ⟨hgrow.1, hgrow.2.1⟩

/-- **`vmallocHelper` of a user page** does the same without the upper half. -/
theorem lower_vmallocHelper {s : Paging} {r v : ℕ} {flags : BitVec 64}
    (h : Tree (s.lower r) r) (hs : Supply s) (hv : (pageP4E v).val < 256)
    (hflags : FlagBits flags) (hpres : flags &&& 1 = 1)
    (hok : ∀ e ∈ (vmallocHelper v r flags s).2.log, e.Good) :
    vmallocHelper v r flags (s.lower r)
        = ((vmallocHelper v r flags s).1, (vmallocHelper v r flags s).2.lower r) ∧
      s.TopKept (vmallocHelper v r flags s).2 r := by
  have hok₂ : ∀ e ∈ (pmallocBulk (pagingDescendTo s v r flags).2).2.log, e.Good :=
    fun e he => hok e (List.mem_append_left _ he)
  have hok₁ : ∀ e ∈ (pagingDescendTo s v r flags).2.log, e.Good :=
    fun e he => hok₂ e ((pmallocBulk_log _).subset he)
  obtain ⟨hgrow, ht⟩ := h.lower_tableAt hs hv hflags hpres hok₁
  have hne := hgrow.tree.ne_root le_rfl (by simp [pagePath]) ht
  have htmod := tableAt_mod h.root_mod ht
  obtain ⟨hcomm, htop⟩ := h.lower_descendTo hs hv hflags hpres hok₁
  unfold vmallocHelper
  rw [hcomm]
  simp only [lower_pmallocBulk, pagingAddEntry]
  have hset := lower_setEntry (s := (pmallocBulk (pagingDescendTo s v r flags).2).2.record
    (.data (pmallocBulk (pagingDescendTo s v r flags).2).1)) (i := pageP1E v) h.root_mod htmod
    (Or.inl hne)
  refine ⟨Prod.ext rfl (hset _), fun x hx hx' => ?_⟩
  exact ((topKept_setEntry h.root_mod htmod (Or.inl hne) _ x hx hx').trans
    (congrFun (pmallocBulk_mem _) x)).trans (htop x hx hx')

/-- In the tree of the lower half, a user page has the tables and the leaf that it has in memory. -/
theorem lower_tableAt {s : Paging} {r v : ℕ} (h : Tree (s.lower r) r)
    (hv : (pageP4E v).val < 256) :
    (s.lower r).tableAt r (pagePath v) = s.tableAt r (pagePath v) ∧
      (s.lower r).leaf r v = s.leaf r v := by
  have hroot : (s.lower r).entry r (pageP4E v) = s.entry r (pageP4E v) := by
    rw [lower_entry h.root_mod h.root_mod, if_neg (by omega)]
  have hbelow : ∀ p t i, p.length ≤ 3 → p ≠ [] → (s.lower r).tableAt r p = some t →
      (s.lower r).entry t i = s.entry t i := fun p t i hp hnil ht => by
    rw [lower_entry h.root_mod (tableAt_mod h.root_mod ht), if_neg fun hc =>
      h.ne_root hp hnil ht hc.1]
  have hstep : ∀ p i, p.length ≤ 3 → p ≠ [] → (s.lower r).tableAt r p = s.tableAt r p →
      (s.lower r).tableAt r (p ++ [i]) = s.tableAt r (p ++ [i]) ∧
        (s.lower r).entryAt r p i = s.entryAt r p i := by
    intro p i hp hnil heq
    have hent : (s.lower r).entryAt r p i = s.entryAt r p i := by
      cases ht : s.tableAt r p with
      | none => rw [Paging.entryAt, Paging.entryAt, entryAt_of_tableAt_none ht,
          entryAt_of_tableAt_none (heq.trans ht)]
      | some t => rw [Paging.entryAt, Paging.entryAt, entryAt_of_tableAt ht,
          entryAt_of_tableAt (heq.trans ht), hbelow p t i hp hnil (heq.trans ht)]
    refine ⟨?_, hent⟩
    rw [Paging.tableAt, Paging.tableAt, tableAt_concat, tableAt_concat]
    rw [Paging.entryAt, Paging.entryAt] at hent
    rw [hent]
  have h₁ : (s.lower r).tableAt r [pageP4E v] = s.tableAt r [pageP4E v] := by
    rw [Paging.tableAt, Paging.tableAt, tableAt, tableAt, hroot, tableAt, tableAt]
  have h₂ := (hstep [pageP4E v] (pageP3E v) (by simp) (by simp) h₁).1
  have h₃ := (hstep _ (pageP2E v) (by simp) (by simp) h₂).1
  exact ⟨h₃, (hstep (pagePath v) (pageP1E v) (by simp [pagePath]) (by simp [pagePath]) h₃).2⟩

/-- **`vflagsHelper` of a user page** does the same without the upper half. -/
theorem lower_vflagsHelper {s : Paging} {r v : ℕ} (h : Tree (s.lower r) r)
    (hv : (pageP4E v).val < 256) (flags : BitVec 64) :
    vflagsHelper v r flags (s.lower r) = (vflagsHelper v r flags s).lower r ∧
      s.TopKept (vflagsHelper v r flags s) r := by
  obtain ⟨htab, hleaf⟩ := lower_tableAt h hv
  rcases vflagsHelper_cases v r flags s with ⟨hs, hnone⟩ | ⟨t, ht, hs⟩
  · rcases vflagsHelper_cases v r flags (s.lower r) with ⟨hs', -⟩ | ⟨t, ht, -⟩
    · rw [hs', hs]
      exact ⟨rfl, fun _ _ _ => rfl⟩
    · rw [htab, hnone] at ht
      cases ht
  · rcases vflagsHelper_cases v r flags (s.lower r) with ⟨-, hnone⟩ | ⟨t', ht', hs'⟩
    · rw [htab, ht] at hnone
      cases hnone
    · rw [htab, ht] at ht'
      obtain rfl := Option.some.inj ht'
      have htl := htab.trans ht
      have htmod := tableAt_mod h.root_mod htl
      have hne := h.ne_root le_rfl (by simp [pagePath]) htl
      rw [hs', hs, hleaf]
      exact ⟨lower_setEntry h.root_mod htmod (Or.inl hne) _,
        topKept_setEntry h.root_mod htmod (Or.inl hne) _⟩

/-! ### The user half of an address space -/

/-- The address space `r`, whose user half was built from frames that were free in `s₀`: its
tables and its data frames are such frames and apart, and nothing else has changed. -/
structure UserSpace (s₀ s : Paging) (r : ℕ) : Prop where
  /-- The frames that were not issued yet are in order. -/
  supply : Supply s
  /-- The tables of the user half. -/
  tree : Tree (s.lower r) r
  /-- The top-level table was there before. -/
  root : r ∉ s₀.unissued
  /-- Frames are only issued. -/
  unissued : s.unissued ⊆ s₀.unissued
  /-- The rest of the state. -/
  kept : s₀.Kept s
  /-- The upper entries. -/
  small : SmallPages (s.lower r) r
  /-- The tables are frames that were free. -/
  tables : ∀ p t, p ≠ [] → p.length ≤ 3 → (s.lower r).tableAt r p = some t → t ∈ s₀.unissued
  /-- So are the data frames, and they are issued and no tables. -/
  data : ∀ v, (s.lower r).leaf r v ≠ 0 → frameOf ((s.lower r).leaf r v) ∈ s₀.unissued ∧
    frameOf ((s.lower r).leaf r v) ∉ s.unissued ∧
    ∀ p, p.length ≤ 3 → (s.lower r).tableAt r p ≠ some (frameOf ((s.lower r).leaf r v))
  /-- The leaf entries are present. -/
  present : ∀ v, (s.lower r).leaf r v ≠ 0 → (s.lower r).leaf r v &&& 1 = 1
  /-- No frame is mapped twice. -/
  inj : ∀ v w, (s.lower r).leaf r v ≠ 0 → (s.lower r).leaf r w ≠ 0 →
    frameOf ((s.lower r).leaf r v) = frameOf ((s.lower r).leaf r w) → pageNumber v = pageNumber w
  /-- Memory that was in use. -/
  frame : ∀ x, alignToPage x ∉ s₀.unissued → alignToPage x ≠ r → s.mem x = s₀.mem x
  /-- The upper half of the top-level table. -/
  top : s₀.TopKept s r

/-- A top-level table without entries in its lower half has none in the state without the upper
half. -/
theorem lower_empty {s : Paging} {r : ℕ} (hr : r % pageSize = 0)
    (hempty : ∀ i : Fin 512, i.val < 256 → s.entry r i = 0) (i : Fin 512) :
    (s.lower r).entry r i = 0 := by
  rw [lower_entry hr hr]
  split_ifs with h
  · rfl
  · exact hempty i (by omega)

/-- It has no user pages. -/
theorem lower_leaf_of_empty {s : Paging} {r : ℕ} (hr : r % pageSize = 0)
    (hempty : ∀ i : Fin 512, i.val < 256 → s.entry r i = 0) (v : ℕ) :
    (s.lower r).leaf r v = 0 := by
  rw [Paging.leaf, Paging.entryAt, pagePath, entryAt, tableAt, if_pos (lower_empty hr hempty _)]

/-- A new address space has an empty user half. -/
theorem UserSpace.init {s : Paging} {r : ℕ} (hs : Supply s) (hr : r % pageSize = 0)
    (hroot : r ∉ s.unissued) (hempty : ∀ i : Fin 512, i.val < 256 → s.entry r i = 0) :
    UserSpace s s r := by
  have hzero := lower_empty hr hempty
  have htab : ∀ p t, (s.lower r).tableAt r p = some t → p = [] ∧ t = r :=
    fun p t => tableAt_of_empty hzero
  have hleaf := lower_leaf_of_empty hr hempty
  refine ⟨hs, tree_of_empty hr hroot hzero, hroot, subset_rfl,
    Paging.Kept.refl s, fun p i _ => ?_, fun p t hnil _ ht => absurd (htab p t ht).1 hnil,
    fun v hv => absurd (hleaf v) hv, fun v hv => absurd (hleaf v) hv,
    fun v w hv => absurd (hleaf v) hv, fun _ _ _ => rfl, fun _ _ _ => rfl⟩
  · refine Or.inl ?_
    cases ht : (s.lower r).tableAt r p with
    | none => exact entryAt_of_tableAt_none ht
    | some t =>
        rw [Paging.entryAt, entryAt_of_tableAt ht, (htab p t ht).2]
        exact hzero i

/-- The lower half of the memory decides the state without the upper half. -/
theorem lower_mem {s : Paging} {r x : ℕ} (h : ¬ (r + 2048 ≤ x ∧ x < r + 4096)) :
    (s.lower r).mem x = s.mem x := if_neg h

theorem Paging.Kept.of_lower {s s' : Paging} {r : ℕ} (h : (s.lower r).Kept (s'.lower r)) :
    s.Kept s' := ⟨h.1, h.2, h.3, h.4⟩

/-- Memory outside of the tables of the user half. -/
theorem UserSpace.mem_of_frame {s₀ s s' : Paging} {r : ℕ} (h : UserSpace s₀ s r)
    (hframe : ∀ x, alignToPage x ∉ s.unissued →
      (∀ p, p.length ≤ 3 → (s.lower r).tableAt r p ≠ some (alignToPage x)) →
      (s'.lower r).mem x = (s.lower r).mem x) {x : ℕ} (hx : alignToPage x ∉ s₀.unissued)
    (hxr : alignToPage x ≠ r) : s'.mem x = s.mem x := by
  have hnot : ¬ (r + 2048 ≤ x ∧ x < r + 4096) := by
    rintro ⟨h1, h2⟩
    have hr := h.tree.root_mod
    simp only [alignToPage, pageSize] at hxr hr
    omega
  have hsame := hframe x (fun hmem => hx (h.unissued hmem)) fun p hp ht => ?_
  · rwa [lower_mem hnot, lower_mem hnot] at hsame
  · by_cases hnil : p = []
    · rw [hnil] at ht
      exact hxr (Option.some.inj ht).symm
    · exact hx (h.tables p _ hnil hp ht)

/-- The page of an address in a frame. -/
theorem alignToPage_add {f x : ℕ} (hf : f % pageSize = 0) (hx : x < pageSize) :
    alignToPage (f + x) = f := by
  simp only [alignToPage, pageSize] at hf hx ⊢
  omega

/-! ### The bytes of the user half -/

/-- The byte at a user address, `none` if its page is not mapped. -/
def Paging.userByte (s : Paging) (r v : ℕ) : Option (BitVec 8) :=
  if (s.lower r).leaf r v = 0 then none
  else some (s.mem (frameOf ((s.lower r).leaf r v) + v % pageSize))

theorem userByte_ne_none {s : Paging} {r v : ℕ} :
    s.userByte r v ≠ none ↔ (s.lower r).leaf r v ≠ 0 := by
  unfold Paging.userByte
  split_ifs with h
  · exact ⟨fun hn => absurd rfl hn, fun hn => absurd h hn⟩
  · exact ⟨fun _ => h, fun _ => Option.some_ne_none _⟩

/-- The data frames of the user half are not touched by a change of its tables. -/
theorem UserSpace.mem_of_data {s₀ s s' : Paging} {r w : ℕ} (h : UserSpace s₀ s r)
    (hframe : ∀ x, alignToPage x ∉ s.unissued →
      (∀ p, p.length ≤ 3 → (s.lower r).tableAt r p ≠ some (alignToPage x)) →
      (s'.lower r).mem x = (s.lower r).mem x) (hw : (s.lower r).leaf r w ≠ 0) {x : ℕ}
    (hx : alignToPage x = frameOf ((s.lower r).leaf r w)) : s'.mem x = s.mem x := by
  obtain ⟨h₀, hiss, htab⟩ := h.data w hw
  have hnot : ¬ (r + 2048 ≤ x ∧ x < r + 4096) := by
    rintro ⟨h1, h2⟩
    refine h.root ?_
    have hr := h.tree.root_mod
    have hxr : alignToPage x = r := by
      simp only [alignToPage, pageSize] at hr ⊢
      omega
    rw [← hxr, hx]
    exact h₀
  have hsame := hframe x (hx ▸ hiss) (hx ▸ htab)
  rwa [lower_mem hnot, lower_mem hnot] at hsame

/-- A user byte stays if its page stays mapped to its frame and the frame is left alone. -/
theorem userByte_congr {s s' : Paging} {r w : ℕ}
    (hzero : (s'.lower r).leaf r w = 0 ↔ (s.lower r).leaf r w = 0)
    (hframe : (s.lower r).leaf r w ≠ 0 →
      frameOf ((s'.lower r).leaf r w) = frameOf ((s.lower r).leaf r w))
    (hmem : (s.lower r).leaf r w ≠ 0 →
      ∀ x, alignToPage x = frameOf ((s.lower r).leaf r w) → s'.mem x = s.mem x) :
    s'.userByte r w = s.userByte r w := by
  rw [Paging.userByte, Paging.userByte]
  by_cases hz : (s.lower r).leaf r w = 0
  · rw [if_pos hz, if_pos (hzero.mpr hz)]
  · rw [if_neg hz, if_neg fun hz' => hz (hzero.mp hz'), hframe hz, hmem hz]
    exact alignToPage_add (frameOf_mod _) (Nat.mod_lt _ (by decide))

/-! ### The operations on user pages -/

/-- **Mapping a user page.** -/
theorem UserSpace.vmallocHelper {s₀ s : Paging} {r v : ℕ} {flags : BitVec 64}
    (h : UserSpace s₀ s r) (hv : (pageP4E v).val < 256) (hflags : FlagBits flags)
    (hbits : flags &&& 0x83 = 3)
    (hok : ∀ e ∈ (vmallocHelper v r flags s).2.log, e.Good) :
    UserSpace s₀ (AnglOS.vmallocHelper v r flags s).2 r ∧
      ∃ f ∈ s.unissued, ∀ w, ((AnglOS.vmallocHelper v r flags s).2.lower r).leaf r w
          = (if pageNumber w = pageNumber v then makeEntry f flags else (s.lower r).leaf r w) ∧
        (pageNumber w ≠ pageNumber v →
          (AnglOS.vmallocHelper v r flags s).2.userByte r w = s.userByte r w) := by
  have hpres : flags &&& 1 = 1 := and_of_mask hbits (by decide)
  obtain ⟨hcomm, htop⟩ := lower_vmallocHelper h.tree h.supply hv hflags hpres hok
  have hok' : ∀ e ∈ (AnglOS.vmallocHelper v r flags (s.lower r)).2.log, e.Good := by
    rw [hcomm]
    exact hok
  obtain ⟨f, hf, hmaps, -, hissued, hapart⟩ := h.tree.vmallocHelper (h.supply.lower r) hflags hpres
    hok'
  rw [hcomm] at hmaps hissued hapart
  have hfs := h.supply.aligned f hf
  have hframe : frameOf (makeEntry f flags) = f := frameOf_makeEntry hfs (h.supply.lt f hf) hflags
  generalize (AnglOS.vmallocHelper v r flags s).2 = s' at hmaps hissued hapart htop ⊢
  refine ⟨⟨hmaps.supply.of_lower, hmaps.tree, h.root, hmaps.unissued.trans h.unissued,
    h.kept.trans hmaps.kept.of_lower, fun p i hp => ?_, fun p t hnil hp ht => ?_, fun w hw => ?_,
    fun w hw => ?_, fun w w' hw hw' heq => ?_, fun x hx hxr => ?_, h.top.trans htop⟩, f, hf,
    fun w => ⟨hmaps.leaf w, fun hwv => ?_⟩⟩
  · rcases hmaps.upper p i hp with heq | ⟨-, g, hg, heq⟩
    · rw [heq]
      exact h.small p i hp
    · rw [heq]
      exact Or.inr ((and_of_mask (makeEntry_flags (h.supply.aligned g hg) (h.supply.lt g hg) hflags)
        (by decide)).trans hbits)
  · rcases hmaps.tables p t hp ht with ht | ht
    · exact h.tables p t hnil hp ht
    · exact h.unissued ht
  · rw [hmaps.leaf w] at hw ⊢
    split_ifs at hw ⊢ with hwv
    · rw [hframe]
      exact ⟨h.unissued hf, hissued, hapart⟩
    · obtain ⟨h₀, hiss, htab⟩ := h.data w hw
      refine ⟨h₀, fun hmem => hiss (hmaps.unissued hmem), fun p hp ht => ?_⟩
      rcases hmaps.tables p _ hp ht with ht | ht
      · exact htab p hp ht
      · exact hiss ht
  · rw [hmaps.leaf w] at hw ⊢
    split_ifs at hw ⊢ with hwv
    · exact (and_of_mask (makeEntry_flags hfs (h.supply.lt f hf) hflags) (by decide)).trans hpres
    · exact h.present w hw
  · rw [hmaps.leaf w] at hw heq
    rw [hmaps.leaf w'] at hw' heq
    split_ifs at hw hw' heq with hwv hwv' hwv'
    · rw [hwv, hwv']
    · rw [hframe] at heq
      exact absurd (heq ▸ hf) (h.data w' hw').2.1
    · rw [hframe] at heq
      exact absurd (heq ▸ hf) (h.data w hw).2.1
    · exact h.inj w w' hw hw' heq
  · rw [h.mem_of_frame hmaps.frame hx hxr, h.frame x hx hxr]
  · have hleaf := hmaps.leaf w
    rw [if_neg hwv] at hleaf
    exact userByte_congr (by rw [hleaf]) (fun _ => by rw [hleaf])
      fun hw x => h.mem_of_data hmaps.frame hw

/-- A change that keeps the tables, the upper entries and the frames of the leaves. -/
theorem UserSpace.update {s₀ s s' : Paging} {r : ℕ} (h : UserSpace s₀ s r) (hs' : Supply s')
    (htree : Tree (s'.lower r) r) (hunissued : s'.unissued = s.unissued) (hkept : s.Kept s')
    (htab : ∀ p t, p.length ≤ 3 → (s'.lower r).tableAt r p = some t →
      (s.lower r).tableAt r p = some t)
    (hupper : ∀ p i, p.length < 3 → (s'.lower r).entryAt r p i = (s.lower r).entryAt r p i)
    (hleaf : ∀ w, (s'.lower r).leaf r w ≠ 0 → (s.lower r).leaf r w ≠ 0 ∧
      frameOf ((s'.lower r).leaf r w) = frameOf ((s.lower r).leaf r w))
    (hpresent : ∀ w, (s'.lower r).leaf r w ≠ 0 → (s'.lower r).leaf r w &&& 1 = 1)
    (hmem : ∀ x, alignToPage x ∉ s₀.unissued → alignToPage x ≠ r → s'.mem x = s.mem x)
    (htop : s.TopKept s' r) : UserSpace s₀ s' r := by
  refine ⟨hs', htree, h.root, hunissued ▸ h.unissued, h.kept.trans hkept, fun p i hp => ?_,
    fun p t hnil hp ht => h.tables p t hnil hp (htab p t hp ht), fun w hw => ?_, hpresent,
    fun w w' hw hw' heq => ?_, fun x hx hxr => ?_, h.top.trans htop⟩
  · rw [hupper p i hp]
    exact h.small p i hp
  · obtain ⟨hne, heq⟩ := hleaf w hw
    rw [heq, hunissued]
    exact ⟨(h.data w hne).1, (h.data w hne).2.1, fun p hp ht =>
      (h.data w hne).2.2 p hp (htab p _ hp ht)⟩
  · obtain ⟨hne, hf⟩ := hleaf w hw
    obtain ⟨hne', hf'⟩ := hleaf w' hw'
    exact h.inj w w' hne hne' (hf.symm.trans (heq.trans hf'))
  · rw [hmem x hx hxr, h.frame x hx hxr]

/-- **Writing through a user page** changes a data frame and nothing else. -/
theorem UserSpace.setByte {s₀ s : Paging} {r v a : ℕ} (h : UserSpace s₀ s r)
    (hv : (s.lower r).leaf r v ≠ 0) (ha : alignToPage a = frameOf ((s.lower r).leaf r v))
    (b : BitVec 8) :
    UserSpace s₀ (s.setByte a b) r ∧
      (∀ w, ((s.setByte a b).lower r).leaf r w = (s.lower r).leaf r w) ∧
      ∀ w, (s.setByte a b).userByte r w
        = if pageNumber w = pageNumber v ∧ w % pageSize = a % pageSize then some b
          else s.userByte r w := by
  obtain ⟨h₀, -, htab⟩ := h.data v hv
  have hroot : frameOf ((s.lower r).leaf r v) ≠ r := fun heq => h.root (heq ▸ h₀)
  have hother : ∀ x, alignToPage x ≠ frameOf ((s.lower r).leaf r v) →
      (s.setByte a b).mem x = s.mem x := fun x hx =>
    Mem.store8_of_ne fun heq => hx (by rw [heq, ha])
  obtain ⟨htree, htables, hentries⟩ := h.tree.frame ((s.setByte a b).lower r)
    (fun x ⟨p, hp, ht⟩ => by
      have hx := hother x fun heq => htab p hp (heq ▸ ht)
      simp only [Paging.lower, hx]) subset_rfl
  have hleaf : ∀ w, ((s.setByte a b).lower r).leaf r w = (s.lower r).leaf r w :=
    fun w => hentries (pagePath w) (pageP1E w) le_rfl
  have hsup := h.supply
  refine ⟨h.update ⟨hsup.1, hsup.2, hsup.3, hsup.4, hsup.5, hsup.6, hsup.7⟩ htree rfl
    ⟨(Paging.Kept.refl s).pmm, rfl, rfl, List.prefix_rfl⟩ (fun p t hp ht => ?_)
    (fun p i hp => hentries p i hp.le) (fun w hw => ?_) (fun w hw => ?_) (fun x hx _ =>
      hother x fun heq => hx (heq ▸ h₀)) (fun x hx hx' => hother x fun heq => hroot ?_), hleaf,
    fun w => ?_⟩
  · rw [← htables p hp]
    exact ht
  · rw [hleaf] at hw ⊢
    exact ⟨hw, rfl⟩
  · rw [hleaf] at hw ⊢
    exact h.present w hw
  · have hr := h.tree.root_mod
    rw [← heq]
    simp only [alignToPage, pageSize] at hr ⊢
    omega
  · have hfmod := frameOf_mod ((s.lower r).leaf r v)
    have hadd : frameOf ((s.lower r).leaf r v) + a % pageSize = a := by
      rw [← ha, alignToPage]
      exact Nat.div_add_mod' a pageSize
    rw [Paging.userByte, Paging.userByte, hleaf]
    split_ifs with hw hwv hwv
    · rw [leaf_congr _ _ hwv.1] at hw
      exact absurd hw hv
    · rfl
    · rw [leaf_congr _ _ hwv.1, hwv.2, hadd]
      exact congrArg some (Mem.store8_self _ _ _)
    · refine congrArg some (Mem.store8_of_ne fun heq => hwv ?_)
      have hpage : frameOf ((s.lower r).leaf r w) = frameOf ((s.lower r).leaf r v) := by
        rw [← ha, ← heq, alignToPage_add (frameOf_mod _) (Nat.mod_lt _ (by decide))]
      refine ⟨h.inj w v hw hv hpage, ?_⟩
      rw [← heq, hpage, Nat.add_mod, hfmod, Nat.zero_add, Nat.mod_mod, Nat.mod_mod]

/-- **Changing the flags of a user page** that is mapped. -/
theorem UserSpace.vflagsHelper {s₀ s : Paging} {r v : ℕ} {flags : BitVec 64}
    (h : UserSpace s₀ s r) (hv : (pageP4E v).val < 256) (hleaf : (s.lower r).leaf r v ≠ 0)
    (hflags : FlagBits flags) (hpres : flags &&& 1 = 1) :
    UserSpace s₀ (vflagsHelper v r flags s) r ∧
      ∀ w, ((AnglOS.vflagsHelper v r flags s).lower r).leaf r w
          = (if pageNumber w = pageNumber v
            then ((s.lower r).leaf r v &&& 0x8FFFFFFFFFFFFFE0) ||| flags
            else (s.lower r).leaf r w) ∧
        (AnglOS.vflagsHelper v r flags s).userByte r w = s.userByte r w := by
  obtain ⟨hcomm, htop⟩ := lower_vflagsHelper h.tree hv flags
  rcases vflagsHelper_cases v r flags (s.lower r) with ⟨-, hnone⟩ | ⟨t, ht, hs⟩
  · exact absurd (leaf_eq_zero hnone) hleaf
  have hmaps := h.tree.setLeaf (h.supply.lower r) ht flags
    (((s.lower r).leaf r v &&& 0x8FFFFFFFFFFFFFE0) ||| flags)
  obtain ⟨htab, hupper, -⟩ := setLeaf_walks h.tree.root_mod h.tree.unshared ht
    (((s.lower r).leaf r v &&& 0x8FFFFFFFFFFFFFE0) ||| flags)
  rw [← hs, hcomm] at hmaps htab hupper
  generalize AnglOS.vflagsHelper v r flags s = s' at hmaps htab hupper hcomm htop ⊢
  have hunissued : s'.unissued = s.unissued := by
    rw [← lower_unissued s' r, ← hcomm, hs, setEntry_unissued, lower_unissued]
  have hbit : (((s.lower r).leaf r v &&& 0x8FFFFFFFFFFFFFE0) ||| flags) &&& 1 = 1 := by
    have hmask : (0x8FFFFFFFFFFFFFE0 : BitVec 64) &&& 1 = 0#64 := by decide
    rw [BitVec.and_or_distrib_right, BitVec.and_assoc, hmask, hpres, BitVec.and_zero,
      BitVec.zero_or]
  have hne : ((s.lower r).leaf r v &&& 0x8FFFFFFFFFFFFFE0) ||| flags ≠ 0 := by
    intro hz
    rw [hz] at hbit
    exact absurd hbit (by decide)
  have hkeep : ∀ w, (s.lower r).leaf r w ≠ 0 → (s'.lower r).leaf r w ≠ 0 := by
    intro w hw
    rw [hmaps.leaf w]
    split_ifs with hwv
    · exact hne
    · exact hw
  have hframe : ∀ w, (s'.lower r).leaf r w ≠ 0 → (s.lower r).leaf r w ≠ 0 ∧
      frameOf ((s'.lower r).leaf r w) = frameOf ((s.lower r).leaf r w) := by
    intro w hw
    rw [hmaps.leaf w] at hw ⊢
    split_ifs at hw ⊢ with hwv
    · rw [leaf_congr _ _ hwv, frameOf_vflags hflags]
      exact ⟨hleaf, rfl⟩
    · exact ⟨hw, rfl⟩
  refine ⟨h.update hmaps.supply.of_lower hmaps.tree hunissued hmaps.kept.of_lower
    (fun p t hp ht => by rw [← htab p hp]; exact ht)
    (fun p i hp => hupper p i hp.le (ne_pagePath hp)) (fun w hw => ?_) (fun w hw => ?_)
    (fun x => h.mem_of_frame hmaps.frame) htop, fun w => ⟨hmaps.leaf w, ?_⟩⟩
  · exact hframe w hw
  · rw [hmaps.leaf w] at hw ⊢
    split_ifs at hw ⊢ with hwv
    · exact hbit
    · exact h.present w hw
  · refine userByte_congr ⟨fun hz => ?_, fun hz => ?_⟩ (fun hw => ?_)
      fun hw x => h.mem_of_data hmaps.frame hw
    · rw [hmaps.leaf w] at hz
      split_ifs at hz with hwv
      · exact absurd hz hne
      · exact hz
    · rw [hmaps.leaf w, if_neg]
      · exact hz
      · intro hwv
        rw [leaf_congr _ _ hwv] at hz
        exact hleaf hz
    · exact (hframe w (hkeep w hw)).2

/-! ### What the processor sees -/

/-- **The translations of the kernel half stay**: those whose walks pass tables that are in use,
and the top-level table in its upper half only. -/
theorem UserSpace.translation_kernel {s₀ s : Paging} {r root v : ℕ} (h : UserSpace s₀ s r)
    (hroot : root % pageSize = 0)
    (hpass : ∀ l t, s₀.Passes root v l t →
      t ∉ s₀.unissued ∧ (t = r → 256 ≤ (pageIndex l v).val)) :
    s.translation root v = s₀.translation root v := by
  refine translation_congr fun l t ht => ?_
  obtain ⟨hissued, hupper⟩ := hpass l t ht
  obtain ⟨p, -, htab⟩ := ht.tableAt
  have htmod := tableAt_mod hroot htab
  by_cases htr : t = r
  · have hidx := hupper htr
    have hlt := (pageIndex l v).isLt
    refine Mem.load64_congr fun x h1 h2 => h.top x ?_ ?_ <;> omega
  · exact entry_congr htmod (fun x hx => h.frame x (hx ▸ hissued) (hx ▸ htr)) _

/-- The translation of a user page is that of the tree of the lower half. -/
theorem lower_translation {s : Paging} {r v : ℕ} (h : Tree (s.lower r) r)
    (hv : (pageP4E v).val < 256) : s.translation r v = (s.lower r).translation r v := by
  refine translation_congr fun l t ht => ?_
  obtain ⟨p, hp, htab⟩ := ht.tableAt
  rw [lower_entry h.root_mod (tableAt_mod h.root_mod htab), if_neg]
  rintro ⟨rfl, hidx⟩
  by_cases hnil : p = []
  · rw [hnil] at hp
    obtain rfl : l = 3 := by simpa using hp
    exact absurd hv (not_lt.mpr hidx)
  · exact h.ne_root (by omega) hnil htab rfl

/-- The physical address of a user page that is mapped. -/
theorem UserSpace.translation_user {s₀ s : Paging} {r v : ℕ} (h : UserSpace s₀ s r)
    (hv : (pageP4E v).val < 256) :
    if (s.lower r).leaf r v &&& pageFlagPresent = 0 then s.translation r v = none
    else ∃ rights, s.translation r v = some ⟨12, (s.lower r).leaf r v, rights⟩ ∧
      rights &&& 2 = (s.lower r).leaf r v &&& 2 := by
  rw [lower_translation h.tree hv]
  exact translation_of_small h.small v

/-- The physical address under a small page. -/
theorem Translation.address_small (e rights : BitVec 64) (v : ℕ) :
    Translation.address ⟨12, e, rights⟩ v = frameOf e + v % pageSize := by
  have hmod := frameOf_mod e
  simp only [Translation.address, pageSize] at hmod ⊢
  omega

/-- User addresses are those of the lower half of the top-level table. -/
theorem pageP4E_lt {v : ℕ} (hv : v < 2 ^ 47) : (pageP4E v).val < 256 := by
  simp only [pageP4E, Fin.val_ofNat, Nat.shiftRight_eq_div_pow]
  omega

/-- A leaf entry of the user half that is there is present. -/
theorem UserSpace.not_absent {s₀ s : Paging} {r v : ℕ} (h : UserSpace s₀ s r)
    (hleaf : (s.lower r).leaf r v ≠ 0) : ¬ (s.lower r).leaf r v &&& pageFlagPresent = 0 := by
  rw [h.present v hleaf]
  decide

/-- A read of a user byte that is mapped. -/
theorem UserSpace.readAddress {s₀ s : Paging} {r v : ℕ} (h : UserSpace s₀ s r) (hcr3 : s.cr3 = r)
    (hv : v < 2 ^ 47) (hleaf : (s.lower r).leaf r v ≠ 0) :
    s.readAddress v = some (frameOf ((s.lower r).leaf r v) + v % pageSize) := by
  have htr := h.translation_user (pageP4E_lt hv)
  rw [if_neg (h.not_absent hleaf)] at htr
  obtain ⟨rights, htr, -⟩ := htr
  rw [Paging.readAddress, if_pos (show canonical v from Or.inl hv), hcr3, htr, Option.map_some,
    Translation.address_small]

/-- A write to a user byte that is mapped and writable. -/
theorem UserSpace.writeAddress {s₀ s : Paging} {r v : ℕ} (h : UserSpace s₀ s r) (hcr3 : s.cr3 = r)
    (hv : v < 2 ^ 47) (hleaf : (s.lower r).leaf r v ≠ 0)
    (hwrite : (s.lower r).leaf r v &&& 2 ≠ 0) :
    s.writeAddress v = some (frameOf ((s.lower r).leaf r v) + v % pageSize) := by
  have htr := h.translation_user (pageP4E_lt hv)
  rw [if_neg (h.not_absent hleaf)] at htr
  obtain ⟨rights, htr, hrights⟩ := htr
  rw [← hrights] at hwrite
  rw [Paging.writeAddress, if_pos (show canonical v from Or.inl hv), hcr3, htr, Option.bind_some,
    if_neg hwrite, Translation.address_small]

/-- A write to the user half that does not fault goes to the frame of its page. -/
theorem UserSpace.leaf_of_writeAddress {s₀ s : Paging} {r v a : ℕ} (h : UserSpace s₀ s r)
    (hcr3 : s.cr3 = r) (hv : (pageP4E v).val < 256) (ha : s.writeAddress v = some a) :
    (s.lower r).leaf r v ≠ 0 ∧ a = frameOf ((s.lower r).leaf r v) + v % pageSize := by
  have htr := h.translation_user hv
  rw [Paging.writeAddress, hcr3] at ha
  split_ifs at ha with hcan
  split_ifs at htr with hp
  · rw [htr] at ha
    cases ha
  · obtain ⟨rights, htr, -⟩ := htr
    rw [htr, Option.bind_some] at ha
    split_ifs at ha
    refine ⟨fun hz => hp (by rw [hz]; decide), ?_⟩
    rw [← Option.some.inj ha, Translation.address_small]

/-! ### Ranges of user pages -/

theorem UserSpace.withLock {s₀ s : Paging} {r : ℕ} (h : UserSpace s₀ s r) (b : Bool) :
    UserSpace s₀ { s with lock := b } r :=
  ⟨h.supply.withLock b, ⟨h.tree.1, h.tree.2, h.tree.3⟩, h.root, h.unissued,
    ⟨h.kept.1, h.kept.2, h.kept.3, h.kept.4⟩, h.small, h.tables, h.data, h.present, h.inj, h.frame,
    h.top⟩

/-- The pages of a range are mapped, those after the page at address 0 excepted, and the other
user pages stay. -/
structure MapsUser (s s' : Paging) (r v n : ℕ) (flags : BitVec 64) : Prop where
  others : ∀ w, (∀ i < n, pageNumber w ≠ pageNumber (add64 v (i * pageSize))) →
    (s'.lower r).leaf r w = (s.lower r).leaf r w ∧ s'.userByte r w = s.userByte r w
  mapped : ∀ i < n, (∀ j < i, add64 v (j * pageSize) ≠ 0) →
    ∃ f, f % pageSize = 0 ∧ f < 2 ^ 52 ∧
      (s'.lower r).leaf r (add64 v (i * pageSize)) = makeEntry f flags
  stopped : ∀ i < n, (∃ j < i, add64 v (j * pageSize) = 0) →
    (∀ j < i, pageNumber (add64 v (i * pageSize)) ≠ pageNumber (add64 v (j * pageSize))) →
    (s'.lower r).leaf r (add64 v (i * pageSize)) = (s.lower r).leaf r (add64 v (i * pageSize))

/-- The address is on a page of a range up to the page at address 0. -/
def OnMapped (v n w : ℕ) : Prop :=
  ∃ i < n, (∀ j < i, add64 v (j * pageSize) ≠ 0) ∧
    pageNumber w = pageNumber (add64 v (i * pageSize))

/-- Pages behind the page at address 0 are not mapped. -/
theorem MapsUser.leaf_of_not_onMapped {s s' : Paging} {r v n w : ℕ} {flags : BitVec 64}
    (h : MapsUser s s' r v n flags) (hw : ¬OnMapped v n w) :
    (s'.lower r).leaf r w = (s.lower r).leaf r w := by
  by_cases hon : ∃ i, i < n ∧ pageNumber w = pageNumber (add64 v (i * pageSize))
  · -- the first round for the page comes after the page at address 0
    classical
    obtain ⟨hi, hwi⟩ := Nat.find_spec hon
    have hfirst : ∀ j < Nat.find hon, pageNumber (add64 v (Nat.find hon * pageSize)) ≠
        pageNumber (add64 v (j * pageSize)) := fun j hj heq =>
      Nat.find_min hon hj ⟨hj.trans hi, hwi.trans heq⟩
    have hzero : ∃ j < Nat.find hon, add64 v (j * pageSize) = 0 := by
      by_contra hnone
      push Not at hnone
      exact hw ⟨_, hi, hnone, hwi⟩
    rw [leaf_congr _ _ hwi, leaf_congr _ _ hwi]
    exact h.stopped _ hi hzero hfirst
  · push Not at hon
    exact (h.others w hon).1

/-- The loop of `vmallocCR3` over user pages. It stops after the page at address 0. -/
theorem UserSpace.mapLoop {s₀ s : Paging} {r v n : ℕ} {flags : BitVec 64} (h : UserSpace s₀ s r)
    (hv : ∀ i < n, (pageP4E (add64 v (i * pageSize))).val < 256) (hflags : FlagBits flags)
    (hbits : flags &&& 0x83 = 3)
    (hok : ∀ e ∈ (mapLoop (fun i => AnglOS.vmallocHelper (add64 v (i * pageSize)) r flags)
      n s).2.log, e.Good) :
    UserSpace s₀ (AnglOS.mapLoop (fun i => AnglOS.vmallocHelper (add64 v (i * pageSize)) r flags)
        n s).2 r ∧
      ((AnglOS.mapLoop (fun i => AnglOS.vmallocHelper (add64 v (i * pageSize)) r flags) n s).1
        = false ↔ ∃ i < n, add64 v (i * pageSize) = 0) ∧
      MapsUser s (AnglOS.mapLoop (fun i => AnglOS.vmallocHelper (add64 v (i * pageSize)) r flags)
        n s).2 r v n flags := by
  induction n with
  | zero =>
      exact ⟨h, by simp [AnglOS.mapLoop], ⟨fun w _ => ⟨rfl, rfl⟩,
        fun i hi => absurd hi (Nat.not_lt_zero i), fun i hi => absurd hi (Nat.not_lt_zero i)⟩⟩
  | succ n ih =>
      obtain ⟨hus, hstop, hmaps⟩ := ih (fun i hi => hv i (by omega)) fun e he =>
        hok e ((mapLoop_log (fun i s => vmallocHelper_log _ _ _ s) n s).subset he)
      rcases hr : AnglOS.mapLoop (fun i => AnglOS.vmallocHelper (add64 v (i * pageSize)) r flags)
        n s with ⟨_ | _, s₁⟩
      · have hloop : AnglOS.mapLoop (fun i => AnglOS.vmallocHelper (add64 v (i * pageSize)) r flags)
            (n + 1) s = (false, s₁) := by simp [AnglOS.mapLoop, hr]
        rw [hr] at hus hstop hmaps
        rw [hloop]
        obtain ⟨j, hj, hjz⟩ := hstop.mp rfl
        refine ⟨hus, ⟨fun _ => ⟨j, by omega, hjz⟩, fun _ => rfl⟩, fun w hw => ?_,
          fun i hi hne => ?_, fun i hi hz hdist => ?_⟩
        · exact hmaps.others w fun i hi => hw i (by omega)
        · by_cases hin : i < n
          · exact hmaps.mapped i hin hne
          · obtain rfl : i = n := by omega
            exact absurd hjz (hne j hj)
        · by_cases hin : i < n
          · exact hmaps.stopped i hin hz hdist
          · obtain rfl : i = n := by omega
            exact (hmaps.others _ hdist).1
      · have hloop : AnglOS.mapLoop (fun i => AnglOS.vmallocHelper (add64 v (i * pageSize)) r flags)
            (n + 1) s = (decide (add64 v (n * pageSize) ≠ 0),
              (AnglOS.vmallocHelper (add64 v (n * pageSize)) r flags s₁).2) := by
          simp only [AnglOS.mapLoop, hr]
          rfl
        rw [hr] at hus hstop hmaps
        rw [hloop] at hok ⊢
        have hnz : ∀ i < n, add64 v (i * pageSize) ≠ 0 := fun i hi hz =>
          absurd (hstop.mpr ⟨i, hi, hz⟩) (by simp)
        obtain ⟨hus', f, hf, hstep⟩ := hus.vmallocHelper (hv n (by omega)) hflags hbits hok
        refine ⟨hus', ?_, fun w hw => ?_, fun i hi _ => ?_, fun i hi hstopped => ?_⟩
        · rw [decide_eq_false_iff_not, not_not]
          constructor
          · exact fun hz => ⟨n, by omega, hz⟩
          · rintro ⟨i, hi, hz⟩
            by_cases hin : i < n
            · exact absurd hz (hnz i hin)
            · obtain rfl : i = n := by omega
              exact hz
        · obtain ⟨hleaf, hbyte⟩ := hmaps.others w fun i hi => hw i (by omega)
          have hne := hw n (by omega)
          rw [(hstep w).1, if_neg hne, (hstep w).2 hne]
          exact ⟨hleaf, hbyte⟩
        · rw [(hstep _).1]
          split_ifs with hpage
          · exact ⟨f, hus.supply.aligned f hf, hus.supply.lt f hf, rfl⟩
          · have hin : i < n := by
              by_contra hin
              obtain rfl : i = n := by omega
              exact hpage rfl
            exact hmaps.mapped i hin fun j hj => hnz j (by omega)
        · obtain ⟨j, hj, hz⟩ := hstopped
          exact absurd hz (hnz j (by omega))

/-- **`vmallocCR3` of user pages.** -/
theorem UserSpace.vmallocCR3 {s₀ s : Paging} {r v n : ℕ} {flags : BitVec 64} (h : UserSpace s₀ s r)
    (hv : ∀ i < n, (pageP4E (add64 v (i * pageSize))).val < 256) (hflags : FlagBits flags)
    (hbits : flags &&& 0x83 = 3)
    (hok : ∀ e ∈ (vmallocCR3 s v n flags r).2.log, e.Good) :
    UserSpace s₀ (AnglOS.vmallocCR3 s v n flags r).2 r ∧
      MapsUser s (AnglOS.vmallocCR3 s v n flags r).2 r v n flags := by
  rw [vmallocCR3_snd] at hok ⊢
  obtain ⟨hus, -, hmaps⟩ := (h.withLock true).mapLoop hv hflags hbits hok
  exact ⟨hus.withLock false, ⟨hmaps.others, hmaps.mapped, hmaps.stopped⟩⟩

/-- **`vflagsCR3` of user pages** that are mapped. -/
theorem UserSpace.vflagsCR3 {s₀ s : Paging} {r v n : ℕ} {flags : BitVec 64} (h : UserSpace s₀ s r)
    (hv : ∀ i < n, (pageP4E (add64 v (i * pageSize))).val < 256)
    (hleaf : ∀ i < n, (s.lower r).leaf r (add64 v (i * pageSize)) ≠ 0) (hflags : FlagBits flags)
    (hpres : flags &&& 1 = 1) :
    UserSpace s₀ (vflagsCR3 s v n flags r) r ∧
      (∀ w, (AnglOS.vflagsCR3 s v n flags r).userByte r w = s.userByte r w) ∧
      ∀ w, (∀ i < n, pageNumber w ≠ pageNumber (add64 v (i * pageSize))) →
        ((AnglOS.vflagsCR3 s v n flags r).lower r).leaf r w = (s.lower r).leaf r w := by
  have hloop := loop_invariant (n := n) (s := { s with lock := true })
    (f := fun i => AnglOS.vflagsHelper (add64 v (i * pageSize)) r flags)
    (fun j s' => UserSpace s₀ s' r ∧ (∀ w, s'.userByte r w = s.userByte r w) ∧
      ∀ w, (∀ i < j, pageNumber w ≠ pageNumber (add64 v (i * pageSize))) →
        (s'.lower r).leaf r w = (s.lower r).leaf r w)
    ⟨h.withLock true, fun _ => rfl, fun _ _ => rfl⟩ ?_
  · obtain ⟨hus, hbytes, hothers⟩ := hloop
    exact ⟨hus.withLock false, hbytes, hothers⟩
  · rintro j hj s' ⟨hus, hbytes, hothers⟩
    have hne : (s'.lower r).leaf r (add64 v (j * pageSize)) ≠ 0 := by
      rw [← userByte_ne_none, hbytes, userByte_ne_none]
      exact hleaf j hj
    obtain ⟨hus', hstep⟩ := hus.vflagsHelper (hv j hj) hne hflags hpres
    refine ⟨hus', fun w => (hstep w).2.trans (hbytes w), fun w hw => ?_⟩
    rw [(hstep w).1, if_neg (hw j (by omega))]
    exact hothers w fun i hi => hw i (by omega)

end AnglOS
