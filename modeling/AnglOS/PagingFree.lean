import AnglOS.PagingBlank

/-!
# Unmapping Pages

What `vfreeCR3` does to the translations below a top-level table, to the tables and to the
physical allocator. For each page it removes the leaf entry, and then, as long as the table
it removed from has no entry left, the entry of that table in the table above. Entries that
are not present or point outside of memory are never removed.

* `Paging.Removable` — the entries that `pagingRemoveEntry` acts on.
* `Unmaps` — a part of an unmapping: which leaf entries vanish, which tables are gone, and how
  often each frame was returned; parts compose (`Unmaps.trans`).
* `unmaps_leaf`, `unmaps_table` — the two kinds of parts.

## Main results

`vfreeUp_pruned`: the way up from a leaf entry removes it and the tables that it leaves empty.
-/

namespace AnglOS

open Pmm

/-! ### What is removed -/

/-- The entries that `pagingRemoveEntry` acts on: present, and pointing into memory. -/
def Paging.Removable (s : Paging) (e : BitVec 64) : Prop :=
  e &&& 1 = 1 ∧ frameOf e < s.pmm.memSize

instance (s : Paging) (e : BitVec 64) : Decidable (s.Removable e) :=
  inferInstanceAs (Decidable (_ ∧ _))

theorem Paging.Removable.ne_zero {s : Paging} {e : BitVec 64} (h : s.Removable e) : e ≠ 0 := by
  rintro rfl
  exact absurd h.1 (by decide)

@[simp] theorem not_removable_zero (s : Paging) : ¬ s.Removable 0#64 := fun h => h.ne_zero rfl

/-- The number of a page names the page. -/
theorem pageNumber_mul_pageSize (v : ℕ) : pageNumber (pageNumber v * pageSize) = pageNumber v := by
  simp only [pageNumber, pageSize]
  omega

/-- The pages of a set, given by their numbers, whose removable leaf entry holds the frame
`f`. -/
def Paging.leafPages (s : Paging) (root : ℕ) (W : Finset ℕ) (f : ℕ) : Finset ℕ :=
  W.filter fun k => s.Removable (s.leaf root (k * pageSize)) ∧
    frameOf (s.leaf root (k * pageSize)) = f

/-- The frame `f` is a table of the tree before, and its path leads to no table after. -/
def Gone (s s' : Paging) (root f : ℕ) : Prop :=
  ∃ p, p.length ≤ 3 ∧ s.tableAt root p = some f ∧ s'.tableAt root p = none

open Classical in
/-- How often a frame is returned by an unmapping: once for each page of the range that it is
the leaf of, if leaves are returned, and once if it is a table that is gone. -/
noncomputable def returns (s s' : Paging) (root : ℕ) (doPfree : Bool) (W : Finset ℕ) (f : ℕ) : ℕ :=
  (if doPfree then (s.leafPages root W f).card else 0) + if Gone s s' root f then 1 else 0

/-- A part of an unmapping below `root`: `W` holds the numbers of the pages that lose their leaf
entry, if it can be removed. -/
structure Unmaps (s s' : Paging) (root : ℕ) (doPfree : Bool) (W : Finset ℕ) : Prop where
  /-- The tables stay unshared. -/
  unshared : Unshared frameOf s'.entry root 3
  /-- Entries stay or vanish. -/
  entries : ∀ p i, p.length ≤ 3 → s'.entryAt root p i = s.entryAt root p i ∨
    (s'.entryAt root p i = 0 ∧ s.Removable (s.entryAt root p i))
  /-- The leaf entries. -/
  leaf : ∀ w, s'.leaf root w
    = if pageNumber w ∈ W ∧ s.Removable (s.leaf root w) then 0 else s.leaf root w
  /-- Tables stay or vanish. -/
  tables : ∀ p t, p.length ≤ 3 → s'.tableAt root p = some t → s.tableAt root p = some t
  /-- The tables that are gone are empty. -/
  emptied : ∀ p t, p.length ≤ 3 → s.tableAt root p = some t → s'.tableAt root p = none →
    ∀ i, s'.entry t i = 0
  /-- Memory outside of the tables stays. -/
  frame : ∀ x, (∀ p, p.length ≤ 3 → s.tableAt root p ≠ some (alignToPage x)) →
    s'.mem x = s.mem x
  /-- The static part of the allocator. -/
  static : s.pmm.Static s'.pmm
  /-- The cache and the roots stay. -/
  others : ∃ m pmm lock log, s' = { s with mem := m, pmm := pmm, lock := lock, log := log }
  /-- What was returned. -/
  count : ∀ f, s'.log.count (.freed f) = s.log.count (.freed f) + returns s s' root doPfree W f

/-- Removability depends on the size of memory alone. -/
theorem removable_iff {s s' : Paging} (h : s.pmm.Static s'.pmm) (e : BitVec 64) :
    s'.Removable e ↔ s.Removable e := by
  rw [Paging.Removable, Paging.Removable, h.memSize]

theorem Unmaps.removable {s s' : Paging} {root : ℕ} {doPfree : Bool} {W : Finset ℕ}
    (h : Unmaps s s' root doPfree W) (e : BitVec 64) : s'.Removable e ↔ s.Removable e :=
  removable_iff h.static e

theorem not_gone_self (s : Paging) (root f : ℕ) : ¬ Gone s s root f := by
  rintro ⟨p, -, h, h'⟩
  rw [h] at h'
  cases h'

theorem Unmaps.refl {s : Paging} {root : ℕ} (h : Unshared frameOf s.entry root 3)
    (doPfree : Bool) : Unmaps s s root doPfree ∅ where
  unshared := h
  entries := fun _ _ _ => Or.inl rfl
  leaf := fun w => by rw [if_neg (by simp)]
  tables := fun _ _ _ h => h
  emptied := fun p t _ h h' => by
    rw [h] at h'
    cases h'
  frame := fun _ _ => rfl
  static := Static.refl _
  others := ⟨_, _, _, _, rfl⟩
  count := fun f => by simp [returns, Paging.leafPages, not_gone_self]

/-! ### Parts compose -/

/-- The tables that are gone after two parts. -/
theorem gone_trans {s s₁ s₂ : Paging} {root : ℕ} {b : Bool} {W₁ W₂ : Finset ℕ}
    (h₁ : Unmaps s s₁ root b W₁) (h₂ : Unmaps s₁ s₂ root b W₂) (f : ℕ) :
    Gone s s₂ root f ↔ Gone s s₁ root f ∨ Gone s₁ s₂ root f := by
  constructor
  · rintro ⟨p, hp, ht, hgone⟩
    cases ht₁ : s₁.tableAt root p with
    | none => exact Or.inl ⟨p, hp, ht, ht₁⟩
    | some t =>
        have htt := h₁.tables p t hp ht₁
        rw [ht] at htt
        rw [← Option.some.inj htt] at ht₁
        exact Or.inr ⟨p, hp, ht₁, hgone⟩
  · rintro (⟨p, hp, ht, hgone⟩ | ⟨p, hp, ht, hgone⟩)
    · refine ⟨p, hp, ht, ?_⟩
      cases ht₂ : s₂.tableAt root p with
      | none => rfl
      | some t =>
          have hcon := h₂.tables p t hp ht₂
          rw [hgone] at hcon
          cases hcon
    · exact ⟨p, hp, h₁.tables p f hp ht, hgone⟩

/-- A table that is gone is no table of the tree any more. -/
theorem Unmaps.not_tableAt_of_gone {s s' : Paging} {root f : ℕ} {b : Bool} {W : Finset ℕ}
    (h : Unmaps s s' root b W) (hun : Unshared frameOf s.entry root 3) (hg : Gone s s' root f)
    {q : List (Fin 512)} (hq : q.length ≤ 3) : s'.tableAt root q ≠ some f := by
  obtain ⟨p, hp, ht, hgone⟩ := hg
  intro htq
  have hpq := hun p q f hp hq ht (h.tables q f hq htq)
  rw [hpq, htq] at hgone
  cases hgone

/-- The pages that lose their leaf entry in two parts. -/
theorem leafPages_trans {s s₁ : Paging} {root : ℕ} {b : Bool} {W₁ W₂ : Finset ℕ}
    (h₁ : Unmaps s s₁ root b W₁) (hW₁ : ∀ k ∈ W₁, pageNumber (k * pageSize) = k)
    (hW₂ : ∀ k ∈ W₂, pageNumber (k * pageSize) = k) (f : ℕ) :
    (s.leafPages root (W₁ ∪ W₂) f).card
      = (s.leafPages root W₁ f).card + (s₁.leafPages root W₂ f).card := by
  rw [← Finset.card_union_of_disjoint]
  · congr 1
    ext k
    simp only [Paging.leafPages, Finset.mem_filter, Finset.mem_union, h₁.removable]
    by_cases hk₁ : k ∈ W₁
    · have hleaf := h₁.leaf (k * pageSize)
      rw [hW₁ k hk₁] at hleaf
      by_cases hrem : s.Removable (s.leaf root (k * pageSize))
      · rw [if_pos ⟨hk₁, hrem⟩] at hleaf
        simp [hk₁, hrem, hleaf]
      · rw [if_neg fun hc => hrem hc.2] at hleaf
        simp [hrem, hleaf]
    · by_cases hk₂ : k ∈ W₂
      · have hleaf := h₁.leaf (k * pageSize)
        rw [hW₂ k hk₂, if_neg fun hc => hk₁ hc.1] at hleaf
        simp [hk₁, hk₂, hleaf]
      · simp [hk₁, hk₂]
  · rw [Finset.disjoint_left]
    intro k hk hk'
    simp only [Paging.leafPages, Finset.mem_filter] at hk hk'
    have hleaf := h₁.leaf (k * pageSize)
    rw [hW₁ k hk.1, if_pos ⟨hk.1, hk.2.1⟩] at hleaf
    rw [hleaf] at hk'
    exact not_removable_zero _ hk'.2.1

open Classical in
/-- What two parts return. -/
theorem returns_trans {s s₁ s₂ : Paging} {root : ℕ} {b : Bool} {W₁ W₂ : Finset ℕ}
    (hun : Unshared frameOf s.entry root 3) (h₁ : Unmaps s s₁ root b W₁)
    (h₂ : Unmaps s₁ s₂ root b W₂) (hW₁ : ∀ k ∈ W₁, pageNumber (k * pageSize) = k)
    (hW₂ : ∀ k ∈ W₂, pageNumber (k * pageSize) = k) (f : ℕ) :
    returns s s₂ root b (W₁ ∪ W₂) f = returns s s₁ root b W₁ f + returns s₁ s₂ root b W₂ f := by
  have hexcl : Gone s s₁ root f → ¬ Gone s₁ s₂ root f := by
    rintro hg ⟨q, hq, htq, -⟩
    exact h₁.not_tableAt_of_gone hun hg hq htq
  have hgone : (if Gone s s₂ root f then 1 else 0)
      = (if Gone s s₁ root f then 1 else 0) + if Gone s₁ s₂ root f then 1 else 0 := by
    have hiff := gone_trans h₁ h₂ f
    by_cases hg : Gone s s₁ root f
    · rw [if_pos (hiff.mpr (Or.inl hg)), if_pos hg, if_neg (hexcl hg)]
    · by_cases hg₂ : Gone s₁ s₂ root f
      · rw [if_pos (hiff.mpr (Or.inr hg₂)), if_neg hg, if_pos hg₂]
      · rw [if_neg fun hc => (hiff.mp hc).elim hg hg₂, if_neg hg, if_neg hg₂]
  rw [returns, returns, returns, leafPages_trans h₁ hW₁ hW₂ f, hgone]
  cases b
  · simp
  · simp only [if_true]
    omega

/-- **Parts of an unmapping compose.** -/
theorem Unmaps.trans {s s₁ s₂ : Paging} {root : ℕ} {b : Bool} {W₁ W₂ : Finset ℕ}
    (hroot : root % pageSize = 0) (hun : Unshared frameOf s.entry root 3)
    (h₁ : Unmaps s s₁ root b W₁) (h₂ : Unmaps s₁ s₂ root b W₂)
    (hW₁ : ∀ k ∈ W₁, pageNumber (k * pageSize) = k)
    (hW₂ : ∀ k ∈ W₂, pageNumber (k * pageSize) = k) : Unmaps s s₂ root b (W₁ ∪ W₂) where
  unshared := h₂.unshared
  entries := by
    intro p i hp
    rcases h₂.entries p i hp with e₂ | ⟨e₂, r₂⟩
    · rw [e₂]
      exact h₁.entries p i hp
    · rw [h₁.removable] at r₂
      rcases h₁.entries p i hp with e₁ | ⟨e₁, -⟩
      · exact Or.inr ⟨e₂, e₁ ▸ r₂⟩
      · rw [e₁] at r₂
        exact absurd r₂ (not_removable_zero s)
  leaf := by
    intro w
    have hleaf := h₁.leaf w
    simp only [h₂.leaf w, h₁.removable]
    by_cases hw₁ : pageNumber w ∈ W₁ ∧ s.Removable (s.leaf root w)
    · rw [if_pos hw₁] at hleaf
      simp [hleaf, hw₁]
    · rw [if_neg hw₁] at hleaf
      rw [hleaf]
      simp only [Finset.mem_union]
      by_cases hrem : s.Removable (s.leaf root w)
      · simp only [hrem, and_true] at hw₁
        simp [hrem, hw₁]
      · simp [hrem]
  tables := fun p t hp ht => h₁.tables p t hp (h₂.tables p t hp ht)
  emptied := by
    intro p t hp ht hgone i
    cases ht₁ : s₁.tableAt root p with
    | none =>
        have hmod : t % pageSize = 0 := tableAt_mod hroot ht
        rw [entry_congr hmod fun x hx => h₂.frame x fun q hq => hx ▸
          h₁.not_tableAt_of_gone hun ⟨p, hp, ht, ht₁⟩ hq]
        exact h₁.emptied p t hp ht ht₁ i
    | some t' =>
        have htt := h₁.tables p t' hp ht₁
        rw [ht] at htt
        rw [← Option.some.inj htt] at ht₁
        exact h₂.emptied p t hp ht₁ hgone i
  frame := by
    intro x hx
    rw [h₂.frame x fun p hp ht => hx p hp (h₁.tables p _ hp ht), h₁.frame x hx]
  static := h₁.static.trans h₂.static
  others := by
    obtain ⟨m₁, pmm₁, lock₁, log₁, rfl⟩ := h₁.others
    obtain ⟨m₂, pmm₂, lock₂, log₂, rfl⟩ := h₂.others
    exact ⟨m₂, pmm₂, lock₂, log₂, rfl⟩
  count := by
    intro f
    rw [h₂.count f, h₁.count f, returns_trans hun h₁ h₂ hW₁ hW₂ f, add_assoc]

/-! ### The two kinds of parts -/

/-- Entry `i₀` of the table at `t₀` is erased; besides, the allocator, the lock and the record
may change. -/
structure Erases (s s' : Paging) (t₀ : ℕ) (i₀ : Fin 512) : Prop where
  mem : s'.mem = (s.setEntry t₀ i₀ 0).mem
  static : s.pmm.Static s'.pmm
  others : ∃ m pmm lock log, s' = { s with mem := m, pmm := pmm, lock := lock, log := log }

theorem Erases.entry {s s' : Paging} {t₀ : ℕ} {i₀ : Fin 512} (h : Erases s s' t₀ i₀)
    (ht₀ : t₀ % pageSize = 0) {t : ℕ} (ht : t % pageSize = 0) (i : Fin 512) :
    s'.entry t i = if t = t₀ ∧ i = i₀ then 0 else s.entry t i := by
  have hset : s'.entry t i = (s.setEntry t₀ i₀ 0).entry t i :=
    congrArg (fun m : Mem => m.load64 (t + 8 * i)) h.mem
  rw [hset, entry_setEntry ht₀ ht]

section
variable {s s' : Paging} {root t₀ : ℕ} {p₀ : List (Fin 512)} {i₀ : Fin 512}
variable (h : Erases s s' t₀ i₀) (hroot : root % pageSize = 0)
  (hun : Unshared frameOf s.entry root 3) (hp₀ : p₀.length ≤ 3)
  (ht₀ : s.tableAt root p₀ = some t₀)
include h hroot hun hp₀ ht₀

/-- The tables of the tree agree but for the erased entry. -/
theorem Erases.agreesOff : AgreesOff frameOf s.entry s'.entry root 3 p₀ i₀ := by
  refine hun.agreesOff hp₀ ht₀ fun p t i _ ht hne => ?_
  rw [h.entry (tableAt_mod hroot ht₀) (tableAt_mod hroot ht), if_neg (by tauto)]

omit hun hp₀ in
/-- The erased entry. -/
theorem Erases.entry_self : s'.entry t₀ i₀ = 0 := by
  rw [h.entry (tableAt_mod hroot ht₀) (tableAt_mod hroot ht₀), if_pos ⟨rfl, rfl⟩]

/-- What a walk sees of an erasure. -/
theorem Erases.entryAt (hold : p₀.length < 3 → EmptyBelow frameOf s.entry root (p₀ ++ [i₀]))
    {p : List (Fin 512)} (hp : p.length ≤ 3) (i : Fin 512) :
    s'.entryAt root p i = if p = p₀ ∧ i = i₀ then 0 else s.entryAt root p i := by
  obtain ⟨h1, h2⟩ := (h.agreesOff hroot hun hp₀ ht₀).entryAt_erase (p := p) (i := i) hp₀ ht₀
    (h.entry_self hroot ht₀) hold hp
  split_ifs with heq
  · exact h1 heq
  · exact h2 (by tauto)

/-- An erasure as a part of an unmapping, up to the leaf entries, the tables that are gone and
what was returned. -/
theorem Erases.unmaps (hold : p₀.length < 3 → EmptyBelow frameOf s.entry root (p₀ ++ [i₀]))
    (hrem : s.Removable (s.entry t₀ i₀)) {b : Bool} {W : Finset ℕ}
    (hleaf : ∀ w, s'.leaf root w
      = if pageNumber w ∈ W ∧ s.Removable (s.leaf root w) then 0 else s.leaf root w)
    (hempty : ∀ p t, p.length ≤ 3 → s.tableAt root p = some t → s'.tableAt root p = none →
      ∀ i, s'.entry t i = 0)
    (hcount : ∀ f, s'.log.count (.freed f)
      = s.log.count (.freed f) + returns s s' root b W f) :
    Unmaps s s' root b W where
  unshared := (h.agreesOff hroot hun hp₀ ht₀).unshared_erase hun hp₀ ht₀
    (h.entry_self hroot ht₀)
  entries := by
    intro p i hp
    rw [h.entryAt hroot hun hp₀ ht₀ hold hp i]
    split_ifs with heq
    · refine Or.inr ⟨rfl, ?_⟩
      rw [heq.1, heq.2, Paging.entryAt, entryAt_of_tableAt ht₀]
      exact hrem
    · exact Or.inl rfl
  leaf := hleaf
  tables := fun p t hp ht => (h.agreesOff hroot hun hp₀ ht₀).tableAt_of_erase hp₀ ht₀
    (h.entry_self hroot ht₀) hp ht
  emptied := hempty
  frame := by
    intro x hx
    rw [h.mem]
    exact setEntry_mem (tableAt_mod hroot ht₀) fun heq => hx p₀ hp₀ (by rw [ht₀, heq])
  static := h.static
  others := h.others
  count := hcount

end

/-- **Removing a leaf entry.** -/
theorem unmaps_leaf {s s' : Paging} {root t v : ℕ} {b : Bool} (hroot : root % pageSize = 0)
    (hun : Unshared frameOf s.entry root 3) (ht : s.tableAt root (pagePath v) = some t)
    (hrem : s.Removable (s.entry t (pageP1E v))) (h : Erases s s' t (pageP1E v))
    (hlog : s'.log = s.log ++ if b then [.freed (frameOf (s.entry t (pageP1E v)))] else []) :
    Unmaps s s' root b {pageNumber v} ∧
      ∀ p, p.length ≤ 3 → s'.tableAt root p = s.tableAt root p := by
  have hlen : ¬ (pagePath v).length < 3 := by simp [pagePath_length]
  have hleafv : s.leaf root v = s.entry t (pageP1E v) := entryAt_of_tableAt ht
  have htables : ∀ p, p.length ≤ 3 → s'.tableAt root p = s.tableAt root p := by
    intro p hp
    refine (h.agreesOff hroot hun le_rfl ht).tableAt_off (by omega) fun hpre => ?_
    have hle := hpre.length_le
    simp only [List.length_append, List.length_singleton, pagePath_length] at hle
    omega
  have hgone : ∀ f, ¬ Gone s s' root f := by
    rintro f ⟨p, hp, hs, hs'⟩
    rw [htables p hp, hs] at hs'
    cases hs'
  refine ⟨h.unmaps hroot hun le_rfl ht (fun hlt => absurd hlt hlen) hrem ?_ ?_ ?_, htables⟩
  · intro w
    rw [Paging.leaf, h.entryAt hroot hun le_rfl ht (fun hlt => absurd hlt hlen) le_rfl]
    by_cases hw : pageNumber w = pageNumber v
    · have hww : s.leaf root w = s.entry t (pageP1E v) := (leaf_congr s root hw).trans hleafv
      rw [if_pos (pagePath_eq_iff.mpr hw), if_pos ⟨by simp [hw], by rw [hww]; exact hrem⟩]
    · rw [if_neg fun hc => hw (pagePath_eq_iff.mp hc), if_neg (by simp [hw])]
      rfl
  · intro p u hp hu hu'
    rw [htables p hp, hu] at hu'
    cases hu'
  · intro f
    have hpages : s.leafPages root {pageNumber v} f
        = if frameOf (s.entry t (pageP1E v)) = f then {pageNumber v} else ∅ := by
      have hk : s.leaf root (pageNumber v * pageSize) = s.entry t (pageP1E v) :=
        (leaf_congr s root (pageNumber_mul_pageSize v)).trans hleafv
      rw [Paging.leafPages, Finset.filter_singleton, hk]
      simp [hrem]
    rw [hlog, List.count_append, returns, hpages, if_neg (hgone f)]
    cases b
    · simp
    · by_cases hf : frameOf (s.entry t (pageP1E v)) = f
      · simp [hf]
      · simp [hf]

/-- **Removing the entry of an empty table.** -/
theorem unmaps_table {s s' : Paging} {root t : ℕ} {p : List (Fin 512)} {i : Fin 512} (b : Bool)
    (hroot : root % pageSize = 0) (hun : Unshared frameOf s.entry root 3) (hp : p.length < 3)
    (ht : s.tableAt root p = some t) (hrem : s.Removable (s.entry t i))
    (hempty : ∀ j, s.entry (frameOf (s.entry t i)) j = 0) (h : Erases s s' t i)
    (hlog : s'.log = s.log ++ [.freed (frameOf (s.entry t i))]) :
    Unmaps s s' root b ∅ ∧ ∀ q, q.length ≤ 3 → q ≠ p ++ [i] →
      s'.tableAt root q = s.tableAt root q := by
  have hchild : s.tableAt root (p ++ [i]) = some (frameOf (s.entry t i)) := by
    rw [Paging.tableAt, tableAt_concat, entryAt_of_tableAt ht, if_neg hrem.ne_zero]
  have hold : EmptyBelow frameOf s.entry root (p ++ [i]) := by
    intro u hu j
    rw [Option.some.inj (hu.symm.trans hchild)]
    exact hempty j
  have hlen : (p ++ [i]).length ≤ 3 := by
    simp only [List.length_append, List.length_singleton]
    omega
  have hne : frameOf (s.entry t i) ≠ t := by
    intro heq
    rw [heq] at hchild
    have hpp := hun _ _ t hlen hp.le hchild ht
    simp at hpp
  have hagree := h.agreesOff hroot hun hp.le ht
  have hback : ∀ q u, q.length ≤ 3 → s'.tableAt root q = some u → s.tableAt root q = some u :=
    fun q u hq hu => hagree.tableAt_of_erase hp.le ht (h.entry_self hroot ht) hq hu
  have htables : ∀ q, q.length ≤ 3 → q ≠ p ++ [i] → s'.tableAt root q = s.tableAt root q := by
    intro q hq hqne
    cases hu : s.tableAt root q with
    | some u => exact hagree.tableAt_erase hold hq hu hqne
    | none =>
        cases hu' : s'.tableAt root q with
        | none => rfl
        | some u =>
            rw [hback q u hq hu'] at hu
            cases hu
  have hgone : s'.tableAt root (p ++ [i]) = none := by
    rw [Paging.tableAt, tableAt_concat, entryAt_of_tableAt ((hagree.tableAt_self hp.le).trans ht),
      h.entry_self hroot ht, if_pos rfl]
  have hgone_iff : ∀ f, Gone s s' root f ↔ f = frameOf (s.entry t i) := by
    intro f
    constructor
    · rintro ⟨q, hq, hs, hs'⟩
      by_cases hqe : q = p ++ [i]
      · rw [hqe, hchild] at hs
        exact (Option.some.inj hs).symm
      · rw [htables q hq hqe, hs] at hs'
        cases hs'
    · rintro rfl
      exact ⟨_, hlen, hchild, hgone⟩
  refine ⟨h.unmaps hroot hun hp.le ht (fun _ => hold) hrem ?_ ?_ ?_, htables⟩
  · intro w
    rw [if_neg (by simp), Paging.leaf, h.entryAt hroot hun hp.le ht (fun _ => hold) le_rfl, if_neg]
    · rfl
    · rintro ⟨hpath, -⟩
      rw [← hpath, pagePath_length] at hp
      omega
  · intro q u hq hu hu' j
    have hg := (hgone_iff u).mp ⟨q, hq, hu, hu'⟩
    rw [h.entry (tableAt_mod hroot ht) (tableAt_mod hroot hu), if_neg fun hc => hne (hg ▸ hc.1), hg]
    exact hempty j
  · intro f
    rw [hlog, List.count_append, returns]
    by_cases hf : f = frameOf (s.entry t i)
    · rw [if_pos ((hgone_iff f).mpr hf)]
      simp [Paging.leafPages, hf]
    · rw [if_neg fun hc => hf ((hgone_iff f).mp hc)]
      simp [Paging.leafPages, Ne.symm hf]

/-! ### `pagingRemoveEntry` -/

theorem pagingRemoveEntry_of_not_removable {s : Paging} {t : ℕ} {i : Fin 512} (b : Bool)
    (level : ℕ) (h : ¬ s.Removable (s.entry t i)) : pagingRemoveEntry b level t i s = s := by
  cases level with
  | zero => rfl
  | succ level =>
      rw [pagingRemoveEntry]
      by_cases hpres : s.entry t i &&& 1 = 1
      · rw [if_neg (not_not.mpr hpres), if_pos (not_lt.mp fun hlt => h ⟨hpres, hlt⟩)]
      · rw [if_pos hpres]

/-- `pfree` of one frame, as the paging layer sees it. -/
theorem erases_free (s : Paging) (f t : ℕ) (i : Fin 512) :
    Erases s ((s.free f).setEntry t i 0) t i :=
  ⟨rfl, static_pfree s.pmm f 1, _, _, _, _, rfl⟩

theorem erases_setEntry (s : Paging) (t : ℕ) (i : Fin 512) : Erases s (s.setEntry t i 0) t i :=
  ⟨rfl, Static.refl _, _, _, _, _, rfl⟩

/-- Level 1: the frame is returned if asked for, and the entry is erased. -/
theorem pagingRemoveEntry_leaf {s : Paging} {t : ℕ} {i : Fin 512} (b : Bool)
    (h : s.Removable (s.entry t i)) : Erases s (pagingRemoveEntry b 1 t i s) t i ∧
      (pagingRemoveEntry b 1 t i s).log
        = s.log ++ if b then [.freed (frameOf (s.entry t i))] else [] := by
  rw [pagingRemoveEntry, if_neg (not_not.mpr h.1), if_neg (not_le.mpr h.2), if_pos rfl]
  cases b
  · exact ⟨erases_setEntry s t i, (List.append_nil _).symm⟩
  · exact ⟨erases_free s _ t i, rfl⟩

/-- Above level 1: the recursion finds nothing to do in an empty table, which is then returned
and its entry erased. -/
theorem pagingRemoveEntry_table {s : Paging} {t : ℕ} {i : Fin 512} (b : Bool) (level : ℕ)
    (h : s.Removable (s.entry t i)) (hempty : ∀ j, s.entry (frameOf (s.entry t i)) j = 0) :
    Erases s (pagingRemoveEntry b (level + 2) t i s) t i ∧
      (pagingRemoveEntry b (level + 2) t i s).log
        = s.log ++ [.freed (frameOf (s.entry t i))] := by
  have hloop : loop (fun k => pagingRemoveEntry b (level + 1) (frameOf (s.entry t i))
      (Fin.ofNat 512 k)) 512 s = s := by
    refine loop_invariant (fun _ s' => s' = s) rfl ?_
    rintro j - s' rfl
    exact pagingRemoveEntry_of_not_removable b _ (by rw [hempty]; exact not_removable_zero s')
  rw [pagingRemoveEntry, if_neg (not_not.mpr h.1), if_neg (not_le.mpr h.2),
    if_neg (Nat.succ_ne_zero level), hloop]
  exact ⟨erases_free s _ t i, rfl⟩

/-! ### Empty tables -/

/-- Every entry of a table that is not zero can be removed. -/
def Regular (s : Paging) (root : ℕ) : Prop :=
  ∀ p i, p.length < 3 → s.entryAt root p i ≠ 0 → s.Removable (s.entryAt root p i)

/-- No table is empty, but for the root and the one at `q`. -/
def DenseBut (s : Paging) (root : ℕ) (q : List (Fin 512)) : Prop :=
  ∀ p t, p ≠ [] → p ≠ q → p.length ≤ 3 → s.tableAt root p = some t → ∃ i, s.entry t i ≠ 0

/-- An entry that is left can be removed if it could be before. -/
theorem Unmaps.entry_removable {s s' : Paging} {root : ℕ} {b : Bool} {W : Finset ℕ}
    (h : Unmaps s s' root b W) {p : List (Fin 512)} {i : Fin 512} (hp : p.length ≤ 3)
    (hold : s.entryAt root p i ≠ 0 → s.Removable (s.entryAt root p i))
    (hne : s'.entryAt root p i ≠ 0) : s'.Removable (s'.entryAt root p i) := by
  rw [h.removable]
  rcases h.entries p i hp with he | ⟨he, -⟩
  · rw [he] at hne ⊢
    exact hold hne
  · exact absurd he hne

theorem Unmaps.regular {s s' : Paging} {root : ℕ} {b : Bool} {W : Finset ℕ}
    (h : Unmaps s s' root b W) (hreg : Regular s root) : Regular s' root :=
  fun p i hp => h.entry_removable hp.le (hreg p i hp)

/-- An erasure may leave its own table empty, and no other. -/
theorem DenseBut.erase {s s' : Paging} {root t₀ : ℕ} {p₀ q : List (Fin 512)} {i₀ : Fin 512}
    (hd : DenseBut s root q) (h : Erases s s' t₀ i₀) (hroot : root % pageSize = 0)
    (hun : Unshared frameOf s.entry root 3) (hp₀ : p₀.length ≤ 3)
    (ht₀ : s.tableAt root p₀ = some t₀) (hq : q = [] ∨ s'.tableAt root q = none) :
    DenseBut s' root p₀ := by
  intro p t hnil hne hp ht
  have hts : s.tableAt root p = some t := (h.agreesOff hroot hun hp₀ ht₀).tableAt_of_erase hp₀ ht₀
    (h.entry_self hroot ht₀) hp ht
  have hpq : p ≠ q := by
    rintro rfl
    rcases hq with hq | hq
    · exact hnil hq
    · rw [hq] at ht
      cases ht
  have htt : t ≠ t₀ := by
    rintro rfl
    exact hne (hun p p₀ t hp hp₀ hts ht₀)
  obtain ⟨i, hi⟩ := hd p t hnil hpq hp hts
  refine ⟨i, ?_⟩
  rw [h.entry (tableAt_mod hroot ht₀) (tableAt_mod hroot hts), if_neg fun hc => htt hc.1]
  exact hi

/-- If the table at `q` is not empty, no table is. -/
theorem DenseBut.of_entry {s : Paging} {root c : ℕ} {q : List (Fin 512)} (h : DenseBut s root q)
    (hc : s.tableAt root q = some c) (hne : ∃ i, s.entry c i ≠ 0) : DenseBut s root [] := by
  intro p t hnil _ hp ht
  by_cases hpq : p = q
  · rw [hpq, hc] at ht
    rw [← Option.some.inj ht]
    exact hne
  · exact h p t hnil hpq hp ht

/-! ### One page -/

/-- The page `v` is unmapped, and the tables on its path that are longer than `q` have been
dealt with: the table at `q` is the only one that may be empty, and the tables above it have
not been written to. -/
structure Pruned (s s' : Paging) (root : ℕ) (b : Bool) (v : ℕ) (q : List (Fin 512)) : Prop where
  unmaps : Unmaps s s' root b {pageNumber v}
  tables : ∀ p, p.length ≤ q.length → s'.tableAt root p = s.tableAt root p
  dense : Regular s root → DenseBut s root [] → DenseBut s' root q
  frame : ∀ x, (∀ p, q.length ≤ p.length → p.length ≤ 3 →
    s.tableAt root p ≠ some (alignToPage x)) → s'.mem x = s.mem x

/-- A page without a removable leaf entry needs no unmapping. -/
theorem unmaps_absent {s : Paging} {root v : ℕ} (b : Bool) (hun : Unshared frameOf s.entry root 3)
    (h : ¬ s.Removable (s.leaf root v)) : Unmaps s s root b {pageNumber v} := by
  have hpages : ∀ f, s.leafPages root {pageNumber v} f = ∅ := by
    intro f
    rw [Paging.leafPages, Finset.filter_singleton,
      leaf_congr s root (pageNumber_mul_pageSize v), if_neg fun hc => h hc.1]
  refine { Unmaps.refl hun b with leaf := fun w => ?_, count := fun f => ?_ }
  · rw [if_neg]
    rintro ⟨hw, hrem⟩
    rw [leaf_congr s root (Finset.mem_singleton.mp hw)] at hrem
    exact h hrem
  · rw [returns, hpages, if_neg (not_gone_self s root f)]
    cases b <;> simp

/-- Level 1 of `vfreeHelper`. -/
theorem pruned_leaf {s : Paging} {root t v : ℕ} (b : Bool) (hroot : root % pageSize = 0)
    (hun : Unshared frameOf s.entry root 3) (ht : s.tableAt root (pagePath v) = some t) :
    Pruned s (pagingRemoveEntry b 1 t (pageP1E v) s) root b v (pagePath v) := by
  have hleaf : s.leaf root v = s.entry t (pageP1E v) := entryAt_of_tableAt ht
  by_cases hrem : s.Removable (s.entry t (pageP1E v))
  · obtain ⟨herase, hlog⟩ := pagingRemoveEntry_leaf b hrem
    obtain ⟨hunmaps, htables⟩ := unmaps_leaf hroot hun ht hrem herase hlog
    refine ⟨hunmaps, htables, fun _ hd => hd.erase herase hroot hun le_rfl ht (Or.inl rfl),
      fun x hx => ?_⟩
    rw [herase.mem]
    exact setEntry_mem (tableAt_mod hroot ht) fun heq => hx _ le_rfl le_rfl (by rw [ht, heq])
  · rw [pagingRemoveEntry_of_not_removable b 1 hrem]
    exact ⟨unmaps_absent b hun (hleaf ▸ hrem), fun _ _ => rfl,
      fun _ hd p t hnil _ => hd p t hnil hnil, fun _ _ => rfl⟩

theorem Unmaps.trans_empty {s s₁ s₂ : Paging} {root v : ℕ} {b : Bool}
    (hroot : root % pageSize = 0) (hun : Unshared frameOf s.entry root 3)
    (h₁ : Unmaps s s₁ root b {pageNumber v}) (h₂ : Unmaps s₁ s₂ root b ∅) :
    Unmaps s s₂ root b {pageNumber v} := by
  have h := h₁.trans hroot hun h₂
    (fun k hk => by rw [Finset.mem_singleton.mp hk, pageNumber_mul_pageSize])
    fun k hk => absurd hk (Finset.notMem_empty k)
  rwa [Finset.union_empty] at h

/-- **One level up**: the table at `p ++ [i]` is empty and its entry is removed. -/
theorem Pruned.up {s s₁ : Paging} {root t c v : ℕ} {b : Bool} {p : List (Fin 512)} {i : Fin 512}
    (h : Pruned s s₁ root b v (p ++ [i])) (hroot : root % pageSize = 0)
    (hun : Unshared frameOf s.entry root 3) (hp : p.length < 3) (ht : s.tableAt root p = some t)
    (hc : s.tableAt root (p ++ [i]) = some c) (hempty : ∀ j, s₁.entry c j = 0) (level : ℕ) :
    Pruned s (pagingRemoveEntry b (level + 2) t i s₁) root b v p := by
  have ht₁ : s₁.tableAt root p = some t := by
    rw [h.tables p (by simp), ht]
  have hc₁ : s₁.tableAt root (p ++ [i]) = some c := by
    rw [h.tables _ le_rfl, hc]
  have hent : s₁.entry t i ≠ 0 ∧ frameOf (s₁.entry t i) = c := by
    rw [Paging.tableAt, tableAt_concat, entryAt_of_tableAt ht₁] at hc₁
    split_ifs at hc₁ with hz
    exact ⟨hz, Option.some.inj hc₁⟩
  have hempty' : ∀ j, s₁.entry (frameOf (s₁.entry t i)) j = 0 := by
    rw [hent.2]
    exact hempty
  by_cases hrem : s₁.Removable (s₁.entry t i)
  · obtain ⟨herase, hlog⟩ := pagingRemoveEntry_table b level hrem hempty'
    obtain ⟨hunmaps, htables⟩ :=
      unmaps_table b hroot h.unmaps.unshared hp ht₁ hrem hempty' herase hlog
    have hgone : (pagingRemoveEntry b (level + 2) t i s₁).tableAt root (p ++ [i]) = none := by
      have hself := (herase.agreesOff hroot h.unmaps.unshared hp.le ht₁).tableAt_self hp.le
      rw [Paging.tableAt, tableAt_concat, entryAt_of_tableAt (hself.trans ht₁),
        herase.entry_self hroot ht₁, if_pos rfl]
    have hlen : (p ++ [i]).length = p.length + 1 := by simp
    refine ⟨h.unmaps.trans_empty hroot hun hunmaps, fun q hq => ?_, fun hreg hd => ?_,
      fun x hx => ?_⟩
    · have hne : q ≠ p ++ [i] := by
        rintro rfl
        simp at hq
      rw [htables q (by omega) hne, h.tables q (by simp; omega)]
    · exact (h.dense hreg hd).erase herase hroot h.unmaps.unshared hp.le ht₁ (Or.inr hgone)
    · rw [herase.mem, setEntry_mem (tableAt_mod hroot ht) fun heq =>
        hx p le_rfl hp.le (by rw [ht, heq])]
      exact h.frame x fun q hq => hx q (by omega)
  · rw [pagingRemoveEntry_of_not_removable b _ hrem]
    refine ⟨h.unmaps, fun q hq => h.tables q (by simp; omega), fun hreg _ => ?_,
      fun x hx => h.frame x fun q hq => hx q (by simp at hq; omega)⟩
    have hreg₁ := h.unmaps.regular hreg p i hp
    rw [Paging.entryAt, entryAt_of_tableAt ht₁] at hreg₁
    exact absurd (hreg₁ hent.1) hrem

/-- The table at `q` is not empty: the unmapping of the page ends, and the shorter paths need
not be looked at. -/
theorem Pruned.done {s s₁ : Paging} {root c v : ℕ} {b : Bool} {q : List (Fin 512)}
    (h : Pruned s s₁ root b v q) (hc : s.tableAt root q = some c) (hne : ¬ s₁.tableEmpty c)
    {r : List (Fin 512)} (hr : r.length ≤ q.length) : Pruned s s₁ root b v r := by
  refine ⟨h.unmaps, fun p hp => h.tables p (hp.trans hr), fun hreg hd => ?_,
    fun x hx => h.frame x fun p hp => hx p (hr.trans hp)⟩
  have hdense : DenseBut s₁ root [] := by
    refine (h.dense hreg hd).of_entry (c := c) (by rw [h.tables q le_rfl, hc]) ?_
    by_contra hall
    push Not at hall
    exact hne (decide_eq_true hall)
  exact fun p t hnil _ => hdense p t hnil hnil

/-- The part of `vfreeHelper` after the walk down: `p3tp`, `p2tp` and `p1tp` are the tables on the
path of the page. -/
def vfreeUp (vptr p4tp p3tp p2tp p1tp : ℕ) (doPfree : Bool) (s : Paging) : Paging :=
  let s := pagingRemoveEntry doPfree 1 p1tp (pageP1E vptr) s
  if ¬ s.tableEmpty p1tp then s
  else
    let s := pagingRemoveEntry doPfree 2 p2tp (pageP2E vptr) s
    if ¬ s.tableEmpty p2tp then s
    else
      let s := pagingRemoveEntry doPfree 3 p3tp (pageP3E vptr) s
      if ¬ s.tableEmpty p3tp then s
      else pagingRemoveEntry doPfree 4 p4tp (pageP4E vptr) s

theorem tableEmpty_iff {s : Paging} {t : ℕ} : s.tableEmpty t = true ↔ ∀ i, s.entry t i = 0 :=
  decide_eq_true_iff

/-- From the leaf upwards, as long as the tables are empty. -/
theorem vfreeUp_pruned {s : Paging} {root p3tp p2tp p1tp v : ℕ} (b : Bool)
    (hroot : root % pageSize = 0) (hun : Unshared frameOf s.entry root 3)
    (ht3 : s.tableAt root ([] ++ [pageP4E v]) = some p3tp)
    (ht2 : s.tableAt root ([pageP4E v] ++ [pageP3E v]) = some p2tp)
    (ht1 : s.tableAt root ([pageP4E v, pageP3E v] ++ [pageP2E v]) = some p1tp) :
    Pruned s (vfreeUp v root p3tp p2tp p1tp b s) root b v [] := by
  have h1 := pruned_leaf b hroot hun ht1
  unfold vfreeUp
  generalize hs1 : pagingRemoveEntry b 1 p1tp (pageP1E v) s = s1 at h1 ⊢
  by_cases he1 : s1.tableEmpty p1tp
  · have h2 := h1.up hroot hun (by simp) ht2 ht1 (tableEmpty_iff.mp he1) 0
    rw [if_neg (not_not.mpr he1)]
    generalize hs2 : pagingRemoveEntry b 2 p2tp (pageP2E v) s1 = s2 at h2 ⊢
    by_cases he2 : s2.tableEmpty p2tp
    · have h3 := h2.up hroot hun (by simp) ht3 ht2 (tableEmpty_iff.mp he2) 1
      rw [if_neg (not_not.mpr he2)]
      generalize hs3 : pagingRemoveEntry b 3 p3tp (pageP3E v) s2 = s3 at h3 ⊢
      by_cases he3 : s3.tableEmpty p3tp
      · rw [if_neg (not_not.mpr he3)]
        exact h3.up hroot hun (by simp) rfl ht3 (tableEmpty_iff.mp he3) 2
      · rw [if_pos he3]
        exact h3.done ht3 he3 (Nat.zero_le _)
    · rw [if_pos he2]
      exact h2.done ht2 he2 (Nat.zero_le _)
  · rw [if_pos he1]
    exact h1.done ht1 he1 (Nat.zero_le _)

end AnglOS
