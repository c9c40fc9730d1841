import AnglOS.PagingUses

/-!
# The Shared Kernel Half

Address spaces share the tables of the kernel half: `pagingCreateUser` copies the upper 256
entries of the boot processor's top-level table once, and never again. All address spaces
agree on the kernel half as long as nobody changes these entries in one table only.

* `vmallocHelper_root`, `vfreeHelper_root` — an operation that finds its top-level entry and
  leaves it there does the same below every top-level table with this entry.
* `UserTable`, `KernelOk` — the invariant: the user tables are copies, and apart from the
  tables they share.
* `Spaces`, `SpaceCall` — the runs; `SpaceCall.Keeps` — the calls that keep the shared entries.

## Main results

* `kernel_half_of_run` — in a run of calls that keep the shared entries, all address spaces agree
  on the kernel half, and none references a table that was returned;
* `kernel_half_disagrees` — mapping the first page of a slot is seen in one address space only.
-/

namespace AnglOS

open Pmm

/-! ### Mapping below an entry that is there -/

/-- The walk down does not depend on the top-level table, but on its entry. -/
theorem pagingDescendTo_root {s : Paging} {v r root : ℕ} {flags : BitVec 64}
    (heq : s.entry r (pageP4E v) = s.entry root (pageP4E v))
    (hne : s.entry root (pageP4E v) ≠ 0) :
    pagingDescendTo s v r flags = pagingDescendTo s v root flags := by
  have hner : s.entry r (pageP4E v) ≠ 0 := fun hz => hne (heq.symm.trans hz)
  have hfirst : pagingDescend s r (pageP4E v) flags = pagingDescend s root (pageP4E v) flags := by
    rw [pagingDescend_of_ne hne, pagingDescend_of_ne hner, heq]
  unfold pagingDescendTo
  rw [hfirst]

theorem vmallocHelper_root {s : Paging} {v r root : ℕ} {flags : BitVec 64}
    (heq : s.entry r (pageP4E v) = s.entry root (pageP4E v))
    (hne : s.entry root (pageP4E v) ≠ 0) :
    vmallocHelper v r flags s = vmallocHelper v root flags s := by
  rw [vmallocHelper, vmallocHelper, pagingDescendTo_root heq hne]

theorem videntityHelper_root {s : Paging} {v p r root : ℕ} {flags : BitVec 64}
    (heq : s.entry r (pageP4E v) = s.entry root (pageP4E v))
    (hne : s.entry root (pageP4E v) ≠ 0) :
    videntityHelper v p r flags s = videntityHelper v p root flags s := by
  rw [videntityHelper, videntityHelper, pagingDescendTo_root heq hne]

/-- One level of the walk down changes no entry of a table that is neither the one it is in nor
a frame that was not issued yet. -/
theorem pagingDescend_entry {s : Paging} {t r : ℕ} {i : Fin 512} {flags : BitVec 64}
    (hs : Supply s) (htmod : t % pageSize = 0) (hrmod : r % pageSize = 0) (hrt : r ≠ t)
    (hr : r ∉ s.unissued) (hok : ∀ e ∈ (pagingDescend s t i flags).2.log, e.Good) (j : Fin 512) :
    (pagingDescend s t i flags).2.entry r j = s.entry r j := by
  by_cases hz : s.entry t i = 0
  · rw [pagingDescend_of_zero hz] at hok ⊢
    obtain ⟨hf, -, -, hent, -⟩ := pagingAllocTable_spec hs (refillOk_of_log fun e he =>
      (hok e (List.mem_append_left _ he)).served)
    have hrf : r ≠ (pagingAllocTable s).1 := fun heq => hr (heq ▸ hf)
    rw [pagingAddEntry, entry_setEntry htmod hrmod, if_neg fun hc => hrt hc.1, hent r j hrmod,
      if_neg fun hc => hrf hc.1]
  · rw [pagingDescend_of_ne hz]

/-- **The walk down below an entry that is there** changes no entry of the top-level table. -/
theorem pagingDescendTo_entry {s : Paging} {root v : ℕ} {flags : BitVec 64} (hs : Supply s)
    (h : Tree s root) (hflags : FlagBits flags) (hpres : flags &&& 1 = 1)
    (hne : s.entry root (pageP4E v) ≠ 0)
    (hok : ∀ e ∈ (pagingDescendTo s v root flags).2.log, e.Good) (j : Fin 512) :
    (pagingDescendTo s v root flags).2.entry root j = s.entry root j := by
  have ht₃ : s.tableAt root [pageP4E v] = some (frameOf (s.entry root (pageP4E v))) := by
    rw [Paging.tableAt, tableAt, if_neg hne, tableAt]
  have hunfold : pagingDescendTo s v root flags
      = pagingDescend (pagingDescend s (frameOf (s.entry root (pageP4E v))) (pageP3E v) flags).2
        (pagingDescend s (frameOf (s.entry root (pageP4E v))) (pageP3E v) flags).1 (pageP2E v)
        flags := by
    unfold pagingDescendTo
    rw [pagingDescend_of_ne hne]
  rw [hunfold] at hok ⊢
  have hok₁ : ∀ e ∈ (pagingDescend s (frameOf (s.entry root (pageP4E v))) (pageP3E v) flags).2.log,
      e.Good := fun e he => hok e ((pagingDescend_log _ _ _ _).subset he)
  obtain ⟨hgrow, ht₂, -⟩ := h.descend (i := pageP3E v) hs (by simp) ht₃ hflags hpres hok₁
  have hroot : root ∉ s.unissued := h.issued [] root (Nat.zero_le 3) rfl
  rw [pagingDescend_entry hgrow.supply (tableAt_mod h.root_mod ht₂) h.root_mod
      (hgrow.tree.ne_root (by simp) (by simp) ht₂).symm (fun hmem => hroot (hgrow.unissued hmem))
      hok,
    pagingDescend_entry hs (tableAt_mod h.root_mod ht₃) h.root_mod
      (h.ne_root (by simp) (by simp) ht₃).symm hroot hok₁]

/-- Storing a leaf changes no entry of the top-level table. -/
theorem setLeaf_entry {s : Paging} {root t v : ℕ} (h : Tree s root)
    (ht : s.tableAt root (pagePath v) = some t) (e : BitVec 64) (j : Fin 512) :
    (s.setEntry t (pageP1E v) e).entry root j = s.entry root j := by
  rw [entry_setEntry (tableAt_mod h.root_mod ht) h.root_mod,
    if_neg fun hc => h.ne_root le_rfl (by simp [pagePath]) ht hc.1.symm]

theorem videntityHelper_entry {s : Paging} {root v p : ℕ} {flags : BitVec 64} (hs : Supply s)
    (h : Tree s root) (hflags : FlagBits flags) (hpres : flags &&& 1 = 1)
    (hne : s.entry root (pageP4E v) ≠ 0)
    (hok : ∀ e ∈ (videntityHelper v p root flags s).2.log, e.Good) (j : Fin 512) :
    (videntityHelper v p root flags s).2.entry root j = s.entry root j := by
  obtain ⟨hgrow, ht, -⟩ := h.descendTo (v := v) hs hflags hpres hok
  exact (setLeaf_entry hgrow.tree ht _ j).trans (pagingDescendTo_entry hs h hflags hpres hne hok j)

theorem vmallocHelper_entry {s : Paging} {root v : ℕ} {flags : BitVec 64} (hs : Supply s)
    (h : Tree s root) (hflags : FlagBits flags) (hpres : flags &&& 1 = 1)
    (hne : s.entry root (pageP4E v) ≠ 0)
    (hok : ∀ e ∈ (vmallocHelper v root flags s).2.log, e.Good) (j : Fin 512) :
    (vmallocHelper v root flags s).2.entry root j = s.entry root j := by
  have hok₂ : ∀ e ∈ (pmallocBulk (pagingDescendTo s v root flags).2).2.log, e.Good :=
    fun e he => hok e (List.mem_append_left _ he)
  have hok₁ : ∀ e ∈ (pagingDescendTo s v root flags).2.log, e.Good :=
    fun e he => hok₂ e ((pmallocBulk_log _).subset he)
  obtain ⟨hgrow, ht, -⟩ := h.descendTo (v := v) hs hflags hpres hok₁
  have hgrow₂ := hgrow.tree.pmallocBulk hgrow.supply
    (refillOk_of_log fun e he => (hok₂ e he).served) flags
    (.data (pmallocBulk (pagingDescendTo s v root flags).2).1)
  have hmem : ((pmallocBulk (pagingDescendTo s v root flags).2).2.record
      (.data (pmallocBulk (pagingDescendTo s v root flags).2).1)).entry root j
      = (pagingDescendTo s v root flags).2.entry root j :=
    congrArg (fun m : Mem => m.load64 (root + 8 * j)) (pmallocBulk_mem _)
  exact ((setLeaf_entry hgrow₂.tree (hgrow₂.tableAt le_rfl ht) _ j).trans hmem).trans
    (pagingDescendTo_entry hs h hflags hpres hne hok₁ j)

/-! ### Unmapping below an entry that stays -/

/-- A leaf below a level-3 table is an entry of that table. -/
theorem exists_entry_of_leaf {s : Paging} {root p3tp w : ℕ}
    (ht : s.tableAt root [pageP4E w] = some p3tp) (hleaf : s.leaf root w ≠ 0) :
    ∃ i, s.entry p3tp i ≠ 0 := by
  obtain ⟨t, htab, -⟩ := exists_tableAt_of_entryAt_ne hleaf
  have hpath : pagePath w = [pageP4E w] ++ [pageP3E w, pageP2E w] := rfl
  have ht : tableAt frameOf s.entry root [pageP4E w] = some p3tp := ht
  rw [hpath, tableAt_append, ht, Option.bind_some, tableAt] at htab
  split_ifs at htab with hz
  exact ⟨_, hz⟩

/-- The way up ends below the top level if a leaf of the same slot stays. -/
theorem vfreeUp_keeps {s : Paging} {root p3tp p2tp p1tp v w : ℕ} (b : Bool)
    (hroot : root % pageSize = 0) (hun : Unshared frameOf s.entry root 3)
    (ht3 : s.tableAt root ([] ++ [pageP4E v]) = some p3tp)
    (ht2 : s.tableAt root ([pageP4E v] ++ [pageP3E v]) = some p2tp)
    (ht1 : s.tableAt root ([pageP4E v, pageP3E v] ++ [pageP2E v]) = some p1tp)
    (hslot : pageP4E w = pageP4E v) (hleaf : s.leaf root w ≠ 0)
    (hkeep : ¬ (pageNumber w ∈ ({pageNumber v} : Finset ℕ) ∧ s.Removable (s.leaf root w))) (r : ℕ) :
    vfreeUp v r p3tp p2tp p1tp b s = vfreeUp v root p3tp p2tp p1tp b s ∧
      Pruned s (vfreeUp v root p3tp p2tp p1tp b s) root b v [pageP4E v] := by
  have h1 := pruned_leaf b hroot hun ht1
  unfold vfreeUp
  generalize pagingRemoveEntry b 1 p1tp (pageP1E v) s = s1 at h1 ⊢
  by_cases he1 : s1.tableEmpty p1tp
  · have h2 := h1.up hroot hun (by simp) ht2 ht1 (tableEmpty_iff.mp he1) 0
    rw [if_neg (not_not.mpr he1), if_neg (not_not.mpr he1)]
    generalize pagingRemoveEntry b 2 p2tp (pageP2E v) s1 = s2 at h2 ⊢
    by_cases he2 : s2.tableEmpty p2tp
    · have h3 := h2.up hroot hun (by simp) ht3 ht2 (tableEmpty_iff.mp he2) 1
      rw [if_neg (not_not.mpr he2), if_neg (not_not.mpr he2)]
      generalize pagingRemoveEntry b 3 p3tp (pageP3E v) s2 = s3 at h3 ⊢
      have hstays : s3.leaf root w ≠ 0 := by
        rw [h3.unmaps.leaf w, if_neg hkeep]
        exact hleaf
      have ht : s3.tableAt root [pageP4E w] = some p3tp := by
        rw [hslot, h3.tables _ le_rfl]
        exact ht3
      obtain ⟨i, hi⟩ := exists_entry_of_leaf ht hstays
      have he3 : ¬ s3.tableEmpty p3tp := fun he => hi (tableEmpty_iff.mp he i)
      rw [if_pos he3, if_pos he3]
      exact ⟨rfl, h3⟩
    · rw [if_pos he2, if_pos he2]
      exact ⟨rfl, h2.done ht2 he2 (by simp)⟩
  · rw [if_pos he1, if_pos he1]
    exact ⟨rfl, h1.done ht1 he1 (by simp [pagePath])⟩

/-- Tables below the same top-level entry are the same. -/
theorem tableAt_congr_root {s : Paging} {r root : ℕ} {i : Fin 512}
    (heq : s.entry r i = s.entry root i) (p : List (Fin 512)) :
    s.tableAt r (i :: p) = s.tableAt root (i :: p) := by
  rw [Paging.tableAt, Paging.tableAt, tableAt, tableAt, heq]

/-- Some leaf of the slot of `v` stays when the page `v` is unmapped, or there is nothing in the
slot. -/
def SlotKept (s : Paging) (root v : ℕ) (W : Finset ℕ) : Prop :=
  s.entry root (pageP4E v) = 0 ∨ ∃ w, pageP4E w = pageP4E v ∧ s.leaf root w ≠ 0 ∧
    ¬ (pageNumber w ∈ W ∧ s.Removable (s.leaf root w))

/-- **Unmapping below an entry that stays** does the same below every top-level table with this
entry, and changes no entry of the top-level table. -/
theorem vfreeHelper_root {s : Paging} {r root v : ℕ} (b : Bool) (hroot : root % pageSize = 0)
    (hun : Unshared frameOf s.entry root 3)
    (heq : s.entry r (pageP4E v) = s.entry root (pageP4E v))
    (hkept : SlotKept s root v {pageNumber v}) :
    vfreeHelper v r b s = vfreeHelper v root b s ∧
      ∀ j, (vfreeHelper v root b s).entry root j = s.entry root j := by
  have htab := tableAt_congr_root heq
  rcases vfreeHelper_cases v root b s with ⟨hs, hnone⟩ | ⟨p3tp, p2tp, p1tp, ht3, ht2, ht1, hs⟩
  · rcases vfreeHelper_cases v r b s with ⟨hs', -⟩ | ⟨_, _, _, -, -, ht1, -⟩
    · exact ⟨hs'.trans hs.symm, fun j => by rw [hs]⟩
    · rw [pagePath, htab] at ht1
      rw [pagePath, ht1] at hnone
      cases hnone
  · have hne : s.entry root (pageP4E v) ≠ 0 := by
      intro hz
      rw [Paging.tableAt, tableAt, if_pos hz] at ht3
      cases ht3
    obtain ⟨w, hslot, hleaf, hkeep⟩ := hkept.resolve_left hne
    obtain ⟨hup, hpruned⟩ := vfreeUp_keeps b hroot hun ht3 ht2 ht1 hslot hleaf hkeep r
    constructor
    · rcases vfreeHelper_cases v r b s with ⟨-, hnone⟩ | ⟨q3tp, q2tp, q1tp, hq3, hq2, hq1, hs'⟩
      · rw [pagePath, htab] at hnone
        rw [pagePath, hnone] at ht1
        cases ht1
      · rw [htab] at hq3 hq2
        rw [pagePath, htab] at hq1
        obtain rfl : p3tp = q3tp := Option.some.inj (ht3.symm.trans hq3)
        obtain rfl : p2tp = q2tp := Option.some.inj (ht2.symm.trans hq2)
        obtain rfl : p1tp = q1tp := Option.some.inj (ht1.symm.trans hq1)
        rw [hs', hs, hup]
    · intro j
      rw [hs]
      refine entry_congr hroot (fun x hx => hpruned.frame x fun p hp hp3 ht => ?_) j
      rw [hx] at ht
      have hnil := hun p [] root hp3 (Nat.zero_le 3) ht rfl
      rw [hnil] at hp
      simp at hp

/-! ### The invariant -/

/-- A top-level table that shares the kernel half: its lower half is empty, its upper half is that
of the boot processor's table, and it is neither a table below that one nor a frame that may
still be issued. -/
structure UserTable (s : Paging) (r : ℕ) : Prop where
  aligned : r % pageSize = 0
  issued : r ∉ s.unissued
  apart : ∀ p, p.length ≤ 3 → s.tableAt s.bspCr3 p ≠ some r
  lower : ∀ i : Fin 512, i.val < 256 → s.entry r i = 0
  upper : ∀ i : Fin 512, 256 ≤ i.val → s.entry r i = s.entry s.bspCr3 i

/-- The paging layer with the tree of the boot processor. -/
structure KernelTables (s : Paging) : Prop where
  /-- The frames that were not issued yet are in order. -/
  supply : Supply s
  /-- No refill failed, and no table had entries when it was issued. -/
  good : ∀ e ∈ s.log, e.Good
  /-- The tables below the boot processor's table. -/
  tree : Tree s s.bspCr3
  /-- The allocator takes back what it hands out. -/
  returnable : ∀ f ∈ s.unissued, Returnable s.pmm f
  /-- The allocator takes back every table. -/
  tables : ∀ p t, p ≠ [] → p.length ≤ 3 → s.tableAt s.bspCr3 p = some t → Returnable s.pmm t

/-- The paging layer with user tables that share the kernel half. -/
structure KernelOk (s : Paging) (users : List ℕ) : Prop extends KernelTables s where
  /-- The user tables. -/
  user : ∀ r ∈ users, UserTable s r

/-- What can be returned depends on the static part of the allocator. -/
theorem Returnable.static {pmm pmm' : Pmm} {f : ℕ} (h : Returnable pmm f)
    (hst : pmm.Static pmm') : Returnable pmm' f :=
  ⟨h.ne_zero, h.aligned, hst.bits 0 ▸ h.managed⟩

/-- The top-level entries of the boot processor's table stay. -/
def SameTop (s s' : Paging) : Prop :=
  s'.bspCr3 = s.bspCr3 ∧ s'.cr3 = s.cr3 ∧ ∀ i, s'.entry s.bspCr3 i = s.entry s.bspCr3 i

theorem SameTop.refl (s : Paging) : SameTop s s := ⟨rfl, rfl, fun _ => rfl⟩

theorem SameTop.trans {s s₁ s₂ : Paging} (h₁ : SameTop s s₁) (h₂ : SameTop s₁ s₂) :
    SameTop s s₂ := by
  refine ⟨h₂.1.trans h₁.1, h₂.2.1.trans h₁.2.1, fun i => ?_⟩
  have h := h₂.2.2 i
  rw [h₁.1] at h
  rw [h, h₁.2.2 i]

/-- A user table stays one if its page and the top-level entries are left alone. -/
theorem UserTable.keep {s s' : Paging} {r : ℕ} (h : UserTable s r) (htop : SameTop s s')
    (hissued : r ∉ s'.unissued) (hapart : ∀ p, p.length ≤ 3 → s'.tableAt s.bspCr3 p ≠ some r)
    (hmem : ∀ x, alignToPage x = r → s'.mem x = s.mem x) : UserTable s' r := by
  have hent := entry_congr h.aligned hmem
  refine ⟨h.aligned, hissued, ?_, fun i hi => ?_, fun i hi => ?_⟩
  · rw [htop.1]
    exact hapart
  · rw [hent, h.lower i hi]
  · rw [hent, h.upper i hi, htop.1, htop.2.2 i]

/-- Mapping keeps the tree of the boot processor. -/
theorem KernelTables.reshapes {s s' : Paging} {flags : BitVec 64} (h : KernelTables s)
    (hr : Reshapes s s' s.bspCr3 flags) (hgood : ∀ e ∈ s'.log, e.Good) : KernelTables s' := by
  have hbsp : s'.bspCr3 = s.bspCr3 := hr.kept.bspCr3
  refine ⟨hr.supply, hgood, ?_, fun f hf => ?_, fun p t hnil hp ht => ?_⟩
  · rw [hbsp]
    exact hr.tree
  · exact (h.returnable f (hr.unissued hf)).static hr.kept.pmm
  · rw [hbsp] at ht
    rcases hr.tables p t hp ht with ht | ht
    · exact (h.tables p t hnil hp ht).static hr.kept.pmm
    · exact (h.returnable t ht).static hr.kept.pmm

/-- The tables below a user table are tables of the kernel half. -/
theorem UserTable.tableAt_cons {s : Paging} {r t : ℕ} {i : Fin 512} {p : List (Fin 512)}
    (h : UserTable s r) (ht : s.tableAt r (i :: p) = some t) :
    s.tableAt s.bspCr3 (i :: p) = some t := by
  by_cases hi : 256 ≤ i.val
  · rw [tableAt_congr_root (h.upper i hi)] at ht
    exact ht
  · rw [Paging.tableAt, AnglOS.tableAt, if_pos (h.lower i (by omega))] at ht
    cases ht

/-- **A user table is the root of a tree.** -/
theorem UserTable.tree {s : Paging} {r : ℕ} (h : UserTable s r) (htree : Tree s s.bspCr3) :
    Tree s r := by
  refine ⟨h.aligned, fun p q t hp hq ht ht' => ?_, fun p t hp ht => ?_⟩
  · cases p with
    | nil =>
      obtain rfl : r = t := Option.some.inj ht
      cases q with
      | nil => rfl
      | cons j q => exact absurd (h.tableAt_cons ht') (h.apart _ hq)
    | cons i p =>
      cases q with
      | nil =>
        obtain rfl : r = t := Option.some.inj ht'
        exact absurd (h.tableAt_cons ht) (h.apart _ hp)
      | cons j q =>
        exact htree.unshared _ _ t hp hq (h.tableAt_cons ht) (h.tableAt_cons ht')
  · cases p with
    | nil =>
      obtain rfl : r = t := Option.some.inj ht
      exact h.issued
    | cons i p => exact htree.issued _ t hp (h.tableAt_cons ht)

/-- Below every top-level table there is a tree in order. -/
theorem KernelOk.orderly {s : Paging} {users : List ℕ} {r : ℕ} (h : KernelOk s users)
    (hr : r ∈ s.bspCr3 :: users) : Orderly s r := by
  refine ⟨h.supply, ?_, h.good⟩
  rcases List.mem_cons.mp hr with rfl | hr
  · exact h.tree
  · exact (h.user r hr).tree h.tree

/-- **Mapping below shared entries keeps the invariant.** -/
theorem KernelOk.reshapes {s s' : Paging} {users : List ℕ} {flags : BitVec 64}
    (h : KernelOk s users) (hr : Reshapes s s' s.bspCr3 flags)
    (hgood : ∀ e ∈ s'.log, e.Good) (hent : ∀ i, s'.entry s.bspCr3 i = s.entry s.bspCr3 i) :
    KernelOk s' users ∧ SameTop s s' := by
  have htop : SameTop s s' := ⟨hr.kept.bspCr3, hr.kept.cr3, hent⟩
  refine ⟨⟨h.toKernelTables.reshapes hr hgood, fun r hrm => ?_⟩, htop⟩
  have hu := h.user r hrm
  refine hu.keep htop (fun hmem => hu.issued (hr.unissued hmem)) (fun p hp ht => ?_)
    fun x hx => ?_
  · rcases hr.tables p r hp ht with ht | ht
    · exact hu.apart p hp ht
    · exact hu.issued ht
  · exact hr.frame x (hx ▸ hu.issued) fun p hp ht => hu.apart p hp (hx ▸ ht)

/-- What returning frames needs: the leaf frames of the range are frames that the allocator
takes back, mapped once, and neither tables nor frames that were not issued. -/
def LeavesOwned (s : Paging) (users : List ℕ) (W : Finset ℕ) : Prop :=
  ∀ k ∈ W, s.Removable (s.leaf s.bspCr3 (k * pageSize)) →
    Returnable s.pmm (frameOf (s.leaf s.bspCr3 (k * pageSize))) ∧
    frameOf (s.leaf s.bspCr3 (k * pageSize)) ∉ s.unissued ∧
    (∀ p, p.length ≤ 3 →
      s.tableAt s.bspCr3 p ≠ some (frameOf (s.leaf s.bspCr3 (k * pageSize)))) ∧
    frameOf (s.leaf s.bspCr3 (k * pageSize)) ∉ users ∧
    ∀ l ∈ W, s.Removable (s.leaf s.bspCr3 (l * pageSize)) →
      frameOf (s.leaf s.bspCr3 (l * pageSize)) = frameOf (s.leaf s.bspCr3 (k * pageSize)) → l = k

/-- Frames in entries are 52-bit addresses. -/
theorem frameOf_lt (e : BitVec 64) : frameOf e < 2 ^ 52 := by
  have hle : (e &&& frameMask).toNat ≤ frameMask.toNat := by
    rw [BitVec.toNat_and]
    exact Nat.and_le_right
  have hmask : frameMask.toNat < 2 ^ 52 := by decide
  exact lt_of_le_of_lt hle hmask

open Classical in
/-- The frames that an unmapping returns, if its leaves may be returned: they are distinct, and
tables that are gone or leaf frames. -/
theorem returned_frames {s s' : Paging} {users : List ℕ} {b : Bool} {W : Finset ℕ} {fs : List ℕ}
    (hu : Unmaps s s' s.bspCr3 b W) (hf : Frees s s' fs)
    (hown : b = true → LeavesOwned s users W) :
    fs.Nodup ∧ ∀ f ∈ fs, Gone s s' s.bspCr3 f ∨
      (b = true ∧ ∃ k ∈ W, s.Removable (s.leaf s.bspCr3 (k * pageSize)) ∧
        frameOf (s.leaf s.bspCr3 (k * pageSize)) = f) := by
  have hinj : Function.Injective PagingEvent.freed := fun f g hfg => PagingEvent.freed.inj hfg
  have hcount : ∀ f, fs.count f = returns s s' s.bspCr3 b W f := by
    intro f
    have hc := hu.count f
    rw [hf.log, List.count_append, List.count_map_of_injective _ _ hinj] at hc
    omega
  have hpages : ∀ f, b = true → (s.leafPages s.bspCr3 W f).card ≤ 1 := by
    intro f hb
    rw [Finset.card_le_one]
    intro k hk l hl
    simp only [Paging.leafPages, Finset.mem_filter] at hk hl
    exact (hown hb l hl.1 hl.2.1).2.2.2.2 k hk.1 hk.2.1 (hk.2.2.trans hl.2.2.symm)
  constructor
  · rw [List.nodup_iff_count_le_one]
    intro f
    rw [hcount, returns]
    by_cases hg : Gone s s' s.bspCr3 f
    · have hempty : b = true → s.leafPages s.bspCr3 W f = ∅ := by
        intro hb
        rw [Finset.eq_empty_iff_forall_notMem]
        intro k hk
        simp only [Paging.leafPages, Finset.mem_filter] at hk
        obtain ⟨p, hp, ht, -⟩ := hg
        exact (hown hb k hk.1 hk.2.1).2.2.1 p hp (by rw [ht, hk.2.2])
      cases b
      · simp [hg]
      · simp [hg, hempty rfl]
    · cases b
      · simp [hg]
      · simpa [hg] using hpages f rfl
  · intro f hmem
    have hpos : 0 < fs.count f := List.count_pos_iff.mpr hmem
    rw [hcount, returns] at hpos
    by_cases hg : Gone s s' s.bspCr3 f
    · exact Or.inl hg
    · cases b
      · simp [hg] at hpos
      · rw [if_neg hg, if_pos rfl, add_zero, Finset.card_pos] at hpos
        obtain ⟨k, hk⟩ := hpos
        simp only [Paging.leafPages, Finset.mem_filter] at hk
        exact Or.inr ⟨rfl, k, hk.1, hk.2.1, hk.2.2⟩

/-- Unmapping keeps the tree of the boot processor, and the frames that were not issued are
those from before and tables or leaves of the tree. -/
theorem KernelTables.unmaps {s s' : Paging} {users : List ℕ} {b : Bool} {W : Finset ℕ}
    {fs : List ℕ} (h : KernelTables s) (hu : Unmaps s s' s.bspCr3 b W) (hf : Frees s s' fs)
    (hown : b = true → LeavesOwned s users W) :
    KernelTables s' ∧ ∀ f ∈ s'.unissued, f ∈ s.unissued ∨ f ∉ users ∨
      ∃ p, p.length ≤ 3 ∧ s.tableAt s.bspCr3 p = some f := by
  have hbsp : s'.bspCr3 = s.bspCr3 := by
    obtain ⟨m, pmm, lock, log, rfl⟩ := hf.others
    rfl
  obtain ⟨hnodup, hfrom⟩ := returned_frames hu hf hown
  -- no frame that is returned is a table afterwards, or not issued before
  have hback : ∀ f ∈ fs, Returnable s.pmm f ∧ f < 2 ^ 52 ∧ f ∉ s.unissued ∧
      (f ∉ users ∨ ∃ p, p.length ≤ 3 ∧ s.tableAt s.bspCr3 p = some f) ∧
      ∀ p, p.length ≤ 3 → s'.tableAt s.bspCr3 p ≠ some f := by
    intro f hmem
    rcases hfrom f hmem with ⟨p, hp, ht, hnone⟩ | ⟨hb, k, hk, hrem, rfl⟩
    · have hnil : p ≠ [] := by
        rintro rfl
        cases hnone
      refine ⟨h.tables p f hnil hp ht, ?_, h.tree.issued p f hp ht, Or.inr ⟨p, hp, ht⟩,
        fun q hq => hu.not_tableAt_of_gone h.tree.unshared ⟨p, hp, ht, hnone⟩ hq⟩
      obtain ⟨q, i, rfl⟩ : ∃ q i, p = q ++ [i] :=
        ⟨p.dropLast, p.getLast hnil, (List.dropLast_append_getLast hnil).symm⟩
      rw [Paging.tableAt, tableAt_concat] at ht
      split_ifs at ht
      rw [← Option.some.inj ht]
      exact frameOf_lt _
    · obtain ⟨hret, hiss, htab, hnu, -⟩ := hown hb k hk hrem
      exact ⟨hret, frameOf_lt _, hiss, Or.inl hnu, fun q hq ht => htab q hq (hu.tables q _ hq ht)⟩
  obtain ⟨hsup, hunissued⟩ := h.supply.frees hf hnodup fun f hmem =>
    ⟨(hback f hmem).1, (hback f hmem).2.1, (hback f hmem).2.2.1⟩
  have hgood : ∀ e ∈ s'.log, e.Good := by
    intro e he
    rw [hf.log] at he
    rcases List.mem_append.mp he with he | he
    · exact h.good e he
    · obtain ⟨f, -, rfl⟩ := List.mem_map.mp he
      exact trivial
  refine ⟨⟨hsup, hgood, ?_, fun f hmem => ?_, fun p t hnil hp ht => ?_⟩, fun f hmem => ?_⟩
  · rw [hbsp]
    refine ⟨h.tree.root_mod, hu.unshared, fun p t hp ht hmem => ?_⟩
    rw [hunissued] at hmem
    rcases hmem with hmem | hmem
    · exact h.tree.issued p t hp (hu.tables p t hp ht) hmem
    · exact (hback t hmem).2.2.2.2 p hp ht
  · rw [hunissued] at hmem
    rcases hmem with hmem | hmem
    · exact (h.returnable f hmem).static hu.static
    · exact (hback f hmem).1.static hu.static
  · rw [hbsp] at ht
    exact (h.tables p t hnil hp (hu.tables p t hp ht)).static hu.static
  · rw [hunissued] at hmem
    exact hmem.imp id fun hmem => (hback f hmem).2.2.2.1

/-- **Unmapping below shared entries keeps the invariant.** -/
theorem KernelOk.unmaps {s s' : Paging} {users : List ℕ} {b : Bool} {W : Finset ℕ} {fs : List ℕ}
    (h : KernelOk s users) (hu : Unmaps s s' s.bspCr3 b W) (hf : Frees s s' fs)
    (hown : b = true → LeavesOwned s users W)
    (hent : ∀ i, s'.entry s.bspCr3 i = s.entry s.bspCr3 i) :
    KernelOk s' users ∧ SameTop s s' := by
  have htop : SameTop s s' := by
    obtain ⟨m, pmm, lock, log, rfl⟩ := hf.others
    exact ⟨rfl, rfl, hent⟩
  obtain ⟨htables, hunissued⟩ := h.toKernelTables.unmaps hu hf hown
  refine ⟨⟨htables, fun r hrm => ?_⟩, htop⟩
  have hut := h.user r hrm
  refine hut.keep htop (fun hmem => ?_) (fun p hp ht => hut.apart p hp (hu.tables p r hp ht))
    fun x hx => hu.frame x fun p hp ht => hut.apart p hp (hx ▸ ht)
  rcases hunissued r hmem with hold | hnu | ⟨p, hp, ht⟩
  · exact hut.issued hold
  · exact hnu hrm
  · exact hut.apart p hp ht

/-! ### The operations -/

/-- All top-level tables have the same upper half. -/
theorem KernelOk.entry_root {s : Paging} {users : List ℕ} (h : KernelOk s users) {r : ℕ}
    (hr : r ∈ s.bspCr3 :: users) {i : Fin 512} (hi : 256 ≤ i.val) :
    s.entry r i = s.entry s.bspCr3 i := by
  rcases List.mem_cons.mp hr with rfl | hr
  · rfl
  · exact (h.user r hr).upper i hi

theorem KernelOk.vmallocHelper {s : Paging} {users : List ℕ} {r v : ℕ} {flags : BitVec 64}
    (h : KernelOk s users) (hr : r ∈ s.bspCr3 :: users) (hv : 256 ≤ (pageP4E v).val)
    (hflags : FlagBits flags) (hpres : flags &&& 1 = 1)
    (hne : s.entry s.bspCr3 (pageP4E v) ≠ 0)
    (hgood : ∀ e ∈ (vmallocHelper v r flags s).2.log, e.Good) :
    KernelOk (AnglOS.vmallocHelper v r flags s).2 users ∧
      SameTop s (AnglOS.vmallocHelper v r flags s).2 := by
  rw [vmallocHelper_root (h.entry_root hr hv) hne] at hgood ⊢
  obtain ⟨f, -, hmaps, -⟩ := h.tree.vmallocHelper h.supply hflags hpres hgood
  exact h.reshapes hmaps.toReshapes hgood
    (vmallocHelper_entry h.supply h.tree hflags hpres hne hgood)

theorem KernelOk.videntityHelper {s : Paging} {users : List ℕ} {r v p : ℕ} {flags : BitVec 64}
    (h : KernelOk s users) (hr : r ∈ s.bspCr3 :: users) (hv : 256 ≤ (pageP4E v).val)
    (hflags : FlagBits flags) (hpres : flags &&& 1 = 1)
    (hne : s.entry s.bspCr3 (pageP4E v) ≠ 0)
    (hgood : ∀ e ∈ (videntityHelper v p r flags s).2.log, e.Good) :
    KernelOk (AnglOS.videntityHelper v p r flags s).2 users ∧
      SameTop s (AnglOS.videntityHelper v p r flags s).2 := by
  rw [videntityHelper_root (h.entry_root hr hv) hne] at hgood ⊢
  exact h.reshapes (h.tree.videntityHelper h.supply hflags hpres hgood).toReshapes hgood
    (videntityHelper_entry h.supply h.tree hflags hpres hne hgood)

/-- The loop over the pages keeps the invariant if each round does. -/
theorem KernelOk.mapLoop {s : Paging} {users : List ℕ} (h : KernelOk s users)
    (body : ℕ → Paging → ℕ × Paging) (hlog : ∀ i s, s.log <+: (body i s).2.log) {n : ℕ}
    (hbody : ∀ i < n, ∀ s', KernelOk s' users → SameTop s s' →
      (∀ e ∈ (body i s').2.log, e.Good) →
      KernelOk (body i s').2 users ∧ SameTop s' (body i s').2)
    (hgood : ∀ e ∈ (mapLoop body n s).2.log, e.Good) :
    KernelOk (AnglOS.mapLoop body n s).2 users ∧ SameTop s (AnglOS.mapLoop body n s).2 := by
  induction n with
  | zero => exact ⟨h, SameTop.refl s⟩
  | succ n ih =>
      obtain ⟨hok, htop⟩ := ih (fun i hi => hbody i (by omega))
        fun e he => hgood e ((mapLoop_log hlog n s).subset he)
      rcases hr : AnglOS.mapLoop body n s with ⟨_ | _, s₁⟩
      · have hloop : (AnglOS.mapLoop body (n + 1) s).2 = s₁ := by simp [AnglOS.mapLoop, hr]
        rw [hr] at hok htop
        rw [hloop]
        exact ⟨hok, htop⟩
      · have hloop : (AnglOS.mapLoop body (n + 1) s).2 = (body n s₁).2 := by
          simp [AnglOS.mapLoop, hr]
        rw [hr] at hok htop
        rw [hloop] at hgood ⊢
        obtain ⟨hok', htop'⟩ := hbody n (by omega) s₁ hok htop hgood
        exact ⟨hok', htop.trans htop'⟩

theorem KernelOk.withLock {s : Paging} {users : List ℕ} (h : KernelOk s users) (b : Bool) :
    KernelOk { s with lock := b } users ∧ SameTop s { s with lock := b } :=
  ⟨⟨⟨h.supply.withLock b, h.good, h.tree.withLock b, h.returnable, h.tables⟩,
    fun r hr => ⟨(h.user r hr).1, (h.user r hr).2, (h.user r hr).3, (h.user r hr).4,
      (h.user r hr).5⟩⟩, rfl, rfl, fun _ => rfl⟩

/-- **`vmallocCR3`** in the kernel half, below entries that are there. -/
theorem KernelOk.vmallocCR3 {s : Paging} {users : List ℕ} {r v n : ℕ} {flags : BitVec 64}
    (h : KernelOk s users) (hr : r ∈ s.bspCr3 :: users)
    (hv : ∀ i < n, 256 ≤ (pageP4E (add64 v (i * pageSize))).val)
    (hflags : FlagBits flags) (hpres : flags &&& 1 = 1)
    (hne : ∀ i < n, s.entry s.bspCr3 (pageP4E (add64 v (i * pageSize))) ≠ 0)
    (hgood : ∀ e ∈ (vmallocCR3 s v n flags r).2.log, e.Good) :
    KernelOk (AnglOS.vmallocCR3 s v n flags r).2 users ∧
      SameTop s (AnglOS.vmallocCR3 s v n flags r).2 := by
  rw [vmallocCR3_snd] at hgood ⊢
  obtain ⟨hok, htop⟩ := h.withLock true
  obtain ⟨hok₁, htop₁⟩ := hok.mapLoop
    (fun i => AnglOS.vmallocHelper (add64 v (i * pageSize)) r flags)
    (fun i s => vmallocHelper_log _ _ _ s)
    (fun i hi s' hs' ht' hg => hs'.vmallocHelper (by rw [ht'.1]; exact hr) (hv i hi) hflags hpres
      (by rw [ht'.1, ht'.2.2]; exact hne i hi) hg) hgood
  obtain ⟨hok₂, htop₂⟩ := hok₁.withLock false
  exact ⟨hok₂, (htop.trans htop₁).trans htop₂⟩

/-- **`videntityCR3`** in the kernel half, below entries that are there. -/
theorem KernelOk.videntityCR3 {s : Paging} {users : List ℕ} {r v p n : ℕ} {flags : BitVec 64}
    (h : KernelOk s users) (hr : r ∈ s.bspCr3 :: users)
    (hv : ∀ i < n, 256 ≤ (pageP4E (add64 v (i * pageSize))).val)
    (hflags : FlagBits flags) (hpres : flags &&& 1 = 1)
    (hne : ∀ i < n, s.entry s.bspCr3 (pageP4E (add64 v (i * pageSize))) ≠ 0)
    (hgood : ∀ e ∈ (videntityCR3 s v p n flags r).2.log, e.Good) :
    KernelOk (AnglOS.videntityCR3 s v p n flags r).2 users ∧
      SameTop s (AnglOS.videntityCR3 s v p n flags r).2 := by
  obtain ⟨b, hsnd⟩ := videntityCR3_snd s v p n flags r
  rw [hsnd] at hgood ⊢
  obtain ⟨hok, htop⟩ := h.withLock true
  obtain ⟨hok₁, htop₁⟩ := hok.mapLoop
    (fun i => AnglOS.videntityHelper (add64 v (i * pageSize)) (add64 p (i * pageSize)) r flags)
    (fun i s => videntityHelper_log _ _ _ _ s)
    (fun i hi s' hs' ht' hg => hs'.videntityHelper (by rw [ht'.1]; exact hr) (hv i hi) hflags hpres
      (by rw [ht'.1, ht'.2.2]; exact hne i hi) hg) hgood
  obtain ⟨hok₂, htop₂⟩ := hok₁.withLock b
  exact ⟨hok₂, (htop.trans htop₁).trans htop₂⟩

/-- The loop of `vfreeCR3` below entries that stay: it does what it does below the boot
processor's table. -/
theorem KernelOk.vfreeLoop {s : Paging} {users : List ℕ} {r v n : ℕ} {b : Bool}
    (h : KernelOk s users) (hr : r ∈ s.bspCr3 :: users)
    (hv : ∀ i < n, 256 ≤ (pageP4E (add64 v (i * pageSize))).val)
    (hkept : ∀ i < n, SlotKept s s.bspCr3 (add64 v (i * pageSize)) (rangePages v n)) :
    Unmaps s (loop (fun i => vfreeHelper (add64 v (i * pageSize)) r b) n s) s.bspCr3 b
        (rangePages v n) ∧
      ∀ i, (loop (fun i => vfreeHelper (add64 v (i * pageSize)) r b) n s).entry s.bspCr3 i
        = s.entry s.bspCr3 i := by
  refine loop_invariant (fun j s' => Unmaps s s' s.bspCr3 b (rangePages v j) ∧
    ∀ i, s'.entry s.bspCr3 i = s.entry s.bspCr3 i)
    ⟨Unmaps.refl h.tree.unshared b, fun _ => rfl⟩ ?_
  rintro j hj s' ⟨hu, hent⟩
  have hroot := h.tree.root_mod
  have heq : s'.entry r (pageP4E (add64 v (j * pageSize)))
      = s'.entry s.bspCr3 (pageP4E (add64 v (j * pageSize))) := by
    rcases List.mem_cons.mp hr with rfl | hr
    · rfl
    · have hut := h.user r hr
      rw [hent, ← hut.upper _ (hv j hj)]
      exact entry_congr hut.aligned
        (fun x hx => hu.frame x fun p hp ht => hut.apart p hp (hx ▸ ht)) _
  have hslot : SlotKept s' s.bspCr3 (add64 v (j * pageSize))
      {pageNumber (add64 v (j * pageSize))} := by
    rcases hkept j hj with hz | ⟨w, hw, hleaf, hkeep⟩
    · exact Or.inl ((hent _).trans hz)
    · have hleaf' : s'.leaf s.bspCr3 w = s.leaf s.bspCr3 w := by
        rw [hu.leaf w, if_neg]
        rintro ⟨hmem, hrem⟩
        obtain ⟨i, hi, heq⟩ := mem_rangePages.mp hmem
        exact hkeep ⟨mem_rangePages.mpr ⟨i, by omega, heq⟩, hrem⟩
      refine Or.inr ⟨w, hw, by rw [hleaf']; exact hleaf, ?_⟩
      rw [hleaf', hu.removable, Finset.mem_singleton]
      rintro ⟨hmem, hrem⟩
      exact hkeep ⟨mem_rangePages.mpr ⟨j, hj, hmem.symm⟩, hrem⟩
  obtain ⟨hsame, hent'⟩ := vfreeHelper_root b hroot hu.unshared heq hslot
  rw [hsame]
  refine ⟨?_, fun i => (hent' i).trans (hent i)⟩
  rw [rangePages_succ]
  exact hu.trans hroot h.tree.unshared (vfreeHelper_pruned _ b hroot hu.unshared).unmaps
    (fun k hk => pageNumber_of_mem_rangePages hk)
    fun k hk => by rw [Finset.mem_singleton.mp hk, pageNumber_mul_pageSize]

/-- **`vfreeCR3`** in the kernel half, below entries that stay. -/
theorem KernelOk.vfreeCR3 {s : Paging} {users : List ℕ} {r v n : ℕ} {b : Bool}
    (h : KernelOk s users) (hr : r ∈ s.bspCr3 :: users)
    (hv : ∀ i < n, 256 ≤ (pageP4E (add64 v (i * pageSize))).val)
    (hkept : ∀ i < n, SlotKept s s.bspCr3 (add64 v (i * pageSize)) (rangePages v n))
    (hown : b = true → LeavesOwned s users (rangePages v n)) :
    KernelOk (vfreeCR3 s v n b r) users ∧ SameTop s (AnglOS.vfreeCR3 s v n b r) := by
  obtain ⟨hu, hent⟩ := (h.withLock true).1.vfreeLoop (b := b) hr hv hkept
  obtain ⟨fs, hfs⟩ := vfreeCR3_frees s v n b r
  exact h.unmaps (hu.withLock (d := false)) hfs hown hent

/-- **`pagingCreateUser`** makes a table that shares the kernel half. -/
theorem KernelOk.createUser {s : Paging} {users : List ℕ} (h : KernelOk s users)
    (hgood : ∀ e ∈ (pagingCreateUser s).2.log, e.Good) :
    KernelOk (pagingCreateUser s).2 (users ++ [(pagingCreateUser s).1]) ∧
      SameTop s (pagingCreateUser s).2 := by
  obtain ⟨m, hm⟩ := pagingCreateUser_withMem s
  have hgood' : ∀ e ∈ (pagingAllocTable s).2.log, e.Good := by
    rw [hm] at hgood
    exact hgood
  have hok : s.RefillOk := refillOk_of_log fun e he =>
    (hgood' e (List.mem_append_left _ he)).served
  have hroot : s.bspCr3 ∉ s.unissued := h.tree.issued [] _ (Nat.zero_le 3) rfl
  obtain ⟨hf, hsup, hsub, hent, hmem, hkept⟩ :=
    pagingCreateUser_spec h.supply hok h.tree.root_mod hroot
  have hfmod := h.supply.aligned _ hf
  have hsub' : (pagingCreateUser s).2.unissued ⊆ s.unissued := fun g hg => (hsub hg).1
  have htables : ∀ p t, p.length ≤ 3 → s.tableAt s.bspCr3 p = some t →
      t ≠ (pagingCreateUser s).1 :=
    fun p t hp ht heq => h.tree.issued p t hp ht (heq ▸ hf)
  have htop : SameTop s (pagingCreateUser s).2 := by
    refine ⟨hkept.bspCr3, hkept.cr3, fun i => ?_⟩
    rw [hent _ i h.tree.root_mod, if_neg (htables [] _ (Nat.zero_le 3) rfl)]
  obtain ⟨htree, htab, -⟩ := h.tree.frame (pagingCreateUser s).2
    (fun x ⟨p, hp, ht⟩ => hmem x (htables p _ hp ht)) hsub'
  have hlower : ∀ i : Fin 512, i ≠ 0 → s.entry (pagingCreateUser s).1 i = 0 := by
    intro i hi
    have hclean := pagingAllocTable_clean hgood' i
    obtain ⟨hf', -, -, hent', -⟩ := pagingAllocTable_spec h.supply hok
    rw [hent' _ i (h.supply.aligned _ hf'), if_neg fun hc => hi hc.2] at hclean
    exact hclean
  refine ⟨⟨⟨hsup, hgood, ?_, fun g hg => (h.returnable g (hsub' hg)).static hkept.pmm,
    fun p t hnil hp ht => ?_⟩, fun r hr => ?_⟩, htop⟩
  · rw [htop.1]
    exact htree
  · rw [htop.1, htab p hp] at ht
    exact (h.tables p t hnil hp ht).static hkept.pmm
  · rcases List.mem_append.mp hr with hr | hr
    · have hu := h.user r hr
      have hrne : r ≠ (pagingCreateUser s).1 := fun heq => hu.issued (heq ▸ hf)
      refine hu.keep htop (fun hmem => hu.issued (hsub' hmem)) (fun p hp ht => ?_)
        fun x hx => hmem x (hx ▸ hrne)
      exact hu.apart p hp ((htab p hp).symm.trans ht)
    · rw [List.mem_singleton.mp hr]
      refine ⟨hfmod, fun hmem => (hsub hmem).2 rfl, fun p hp ht => ?_, fun i hi => ?_,
        fun i hi => ?_⟩
      · rw [htop.1, htab p hp] at ht
        exact htables p _ hp ht rfl
      · rw [hent _ i hfmod, if_pos rfl, if_neg (by omega)]
        split_ifs with h0
        · rfl
        · exact hlower i h0
      · rw [hent _ i hfmod, if_pos rfl, if_pos hi, htop.1, htop.2.2 i]

/-! ### Runs over several address spaces -/

/-- The paging layer and the top-level tables that `pagingCreateUser` made. -/
structure Spaces where
  paging : Paging
  users : List ℕ

/-- The top-level tables that exist. -/
def Spaces.roots (S : Spaces) : List ℕ := S.paging.bspCr3 :: S.users

/-- The calls of a run. A mapping call without a top-level table works under `CR3`. -/
inductive SpaceCall where
  | createUser
  | setCR3 (root : ℕ)
  | vmalloc (vptr pages : ℕ) (flags : BitVec 64)
  | vmallocCR3 (vptr pages : ℕ) (flags : BitVec 64) (root : ℕ)
  | videntity (vptr pptr pages : ℕ) (flags : BitVec 64)
  | videntityCR3 (vptr pptr pages : ℕ) (flags : BitVec 64) (root : ℕ)
  | vfree (vptr pages : ℕ) (doPfree : Bool)
  | vfreeCR3 (vptr pages : ℕ) (doPfree : Bool) (root : ℕ)

/-- What a call does. -/
def SpaceCall.exec (S : Spaces) : SpaceCall → Spaces
  | .createUser =>
      let r := pagingCreateUser S.paging
      ⟨r.2, S.users ++ [r.1]⟩
  | .setCR3 root => { S with paging := pagingSetCR3 S.paging root }
  | .vmalloc v n flags => { S with paging := (AnglOS.vmalloc S.paging v n flags).2 }
  | .vmallocCR3 v n flags root =>
      { S with paging := (AnglOS.vmallocCR3 S.paging v n flags root).2 }
  | .videntity v p n flags => { S with paging := (AnglOS.videntity S.paging v p n flags).2 }
  | .videntityCR3 v p n flags root =>
      { S with paging := (AnglOS.videntityCR3 S.paging v p n flags root).2 }
  | .vfree v n b => { S with paging := AnglOS.vfree S.paging v n b }
  | .vfreeCR3 v n b root => { S with paging := AnglOS.vfreeCR3 S.paging v n b root }

/-- The pages that a call maps or unmaps: an address and a number of pages. -/
def SpaceCall.range : SpaceCall → ℕ × ℕ
  | .createUser | .setCR3 _ => (0, 0)
  | .vmalloc v n _ | .vmallocCR3 v n _ _ | .videntity v _ n _ | .videntityCR3 v _ n _ _
  | .vfree v n _ | .vfreeCR3 v n _ _ => (v, n)

/-- The top-level table that a call names. -/
def SpaceCall.root : SpaceCall → Option ℕ
  | .createUser | .vmalloc .. | .videntity .. | .vfree .. => none
  | .setCR3 r | .vmallocCR3 _ _ _ r | .videntityCR3 _ _ _ _ r | .vfreeCR3 _ _ _ r => some r

/-- A step of the run: a call on pages of the kernel half, under a table that exists. -/
structure Spaces.step (c : SpaceCall) (S S' : Spaces) : Prop where
  half : ∀ i < c.range.2, 256 ≤ (pageP4E (add64 c.range.1 (i * pageSize))).val
  root : ∀ r ∈ c.root, r ∈ S.roots
  next : S' = c.exec S

/-- All address spaces agree on the kernel half, and no user table references a frame that is in
the allocator or waits in the cache. -/
structure Spaces.Agree (S : Spaces) : Prop where
  same : ∀ r ∈ S.users, ∀ w, 256 ≤ (pageP4E w).val →
    S.paging.walk r w = S.paging.walk S.paging.bspCr3 w
  live : ∀ r ∈ S.users, ∀ p t, p.length ≤ 3 → S.paging.tableAt r p = some t →
    t ∉ S.paging.unissued

/-- Mapping keeps the shared entries: the flags are those of a present page, and the slots of the
pages have their tables, once there are user tables. -/
def MapKeeps (S : Spaces) (v n : ℕ) (flags : BitVec 64) : Prop :=
  FlagBits flags ∧ flags &&& 1 = 1 ∧ (S.users = [] ∨
    ∀ i < n, S.paging.entry S.paging.bspCr3 (pageP4E (add64 v (i * pageSize))) ≠ 0)

/-- Unmapping keeps the shared entries: every slot of the range keeps a leaf, once there are user
tables, and frames are only returned if they are data frames that are mapped once. -/
def FreeKeeps (S : Spaces) (v n : ℕ) (b : Bool) : Prop :=
  (S.users = [] ∨ ∀ i < n,
      SlotKept S.paging S.paging.bspCr3 (add64 v (i * pageSize)) (rangePages v n)) ∧
    (b = true → LeavesOwned S.paging S.users (rangePages v n))

/-- What the frames that a call takes are for. -/
def SpaceCall.uses (S : Spaces) : SpaceCall → List FrameUse
  | .createUser => [.table]
  | .vmalloc v n _ => rangeUses S.paging S.paging.cr3 v n [.data]
  | .vmallocCR3 v n _ root => rangeUses S.paging root v n [.data]
  | .videntity v _ n _ => rangeUses S.paging S.paging.cr3 v n []
  | .videntityCR3 v _ n _ root => rangeUses S.paging root v n []
  | .setCR3 _ | .vfree .. | .vfreeCR3 .. => []

/-- The call keeps the upper half of the top-level tables, and the frames that it takes are
ready. -/
structure SpaceCall.Keeps (c : SpaceCall) (S : Spaces) : Prop where
  shared : match c with
    | .createUser | .setCR3 _ => True
    | .vmalloc v n flags | .vmallocCR3 v n flags _
    | .videntity v _ n flags | .videntityCR3 v _ n flags _ => MapKeeps S v n flags
    | .vfree v n b | .vfreeCR3 v n b _ => FreeKeeps S v n b
  frames : FramesReady S.paging (c.uses S)

/-- A step by a call that keeps the shared entries of the state before it. -/
def SharingStep (c : SpaceCall) (S S' : Spaces) : Prop := Spaces.step c S S' ∧ c.Keeps S

/-- The state that the run keeps. -/
structure Spaces.Ok (S : Spaces) : Prop where
  kernel : KernelOk S.paging S.users
  cr3 : S.paging.cr3 ∈ S.roots

/-- A step that leaves the registers alone. -/
theorem Spaces.Ok.of_kept {S : Spaces} {s' : Paging} (h : S.Ok) (hs' : KernelOk s' S.users)
    (hbsp : s'.bspCr3 = S.paging.bspCr3) (hcr3 : s'.cr3 = S.paging.cr3) :
    Spaces.Ok { S with paging := s' } := by
  refine ⟨hs', ?_⟩
  have hmem := h.cr3
  rw [Spaces.roots, ← hbsp, ← hcr3] at hmem
  exact hmem

theorem Spaces.Ok.of_top {S : Spaces} {s' : Paging} (h : S.Ok)
    (hs' : KernelOk s' S.users ∧ SameTop S.paging s') : Spaces.Ok { S with paging := s' } :=
  h.of_kept hs'.1 hs'.2.1 hs'.2.2.1

/-- Without user tables there is only the boot processor's table. -/
theorem Spaces.roots_alone {S : Spaces} (hnil : S.users = []) {r : ℕ} (hr : r ∈ S.roots) :
    r = S.paging.bspCr3 := by
  rw [Spaces.roots, hnil] at hr
  exact List.mem_singleton.mp hr

/-- Mapping while there are no user tables. -/
theorem Spaces.Ok.reshapes_alone {S : Spaces} {s' : Paging} {flags : BitVec 64} (h : S.Ok)
    (hnil : S.users = []) (hr : Reshapes S.paging s' S.paging.bspCr3 flags)
    (hgood : ∀ e ∈ s'.log, e.Good) : Spaces.Ok { S with paging := s' } := by
  refine h.of_kept ⟨h.kernel.toKernelTables.reshapes hr hgood, ?_⟩ hr.kept.bspCr3 hr.kept.cr3
  rw [hnil]
  exact fun r hr => absurd hr List.not_mem_nil

theorem Spaces.Ok.vmallocCR3 {S : Spaces} {v n r : ℕ} {flags : BitVec 64} (h : S.Ok)
    (hr : r ∈ S.roots) (hv : ∀ i < n, 256 ≤ (pageP4E (add64 v (i * pageSize))).val)
    (hkeeps : MapKeeps S v n flags)
    (hframes : FramesReady S.paging (rangeUses S.paging r v n [.data])) :
    Spaces.Ok { S with paging := (AnglOS.vmallocCR3 S.paging v n flags r).2 } := by
  obtain ⟨hflags, hpres, hshared⟩ := hkeeps
  have hgood := (vmallocCR3_good_iff (h.kernel.orderly hr) hflags hpres v n).mpr hframes
  rcases hshared with hnil | hne
  · obtain rfl := Spaces.roots_alone hnil hr
    exact h.reshapes_alone hnil
      (vmallocCR3_reshapes h.kernel.supply h.kernel.tree hflags hpres hgood).1 hgood
  · exact h.of_top (h.kernel.vmallocCR3 hr hv hflags hpres hne hgood)

theorem Spaces.Ok.videntityCR3 {S : Spaces} {v p n r : ℕ} {flags : BitVec 64} (h : S.Ok)
    (hr : r ∈ S.roots) (hv : ∀ i < n, 256 ≤ (pageP4E (add64 v (i * pageSize))).val)
    (hkeeps : MapKeeps S v n flags)
    (hframes : FramesReady S.paging (rangeUses S.paging r v n [])) :
    Spaces.Ok { S with paging := (AnglOS.videntityCR3 S.paging v p n flags r).2 } := by
  obtain ⟨hflags, hpres, hshared⟩ := hkeeps
  have hgood := (videntityCR3_good_iff (h.kernel.orderly hr) hflags hpres v p n).mpr hframes
  rcases hshared with hnil | hne
  · obtain rfl := Spaces.roots_alone hnil hr
    exact h.reshapes_alone hnil
      (videntityCR3_reshapes h.kernel.supply h.kernel.tree hflags hpres hgood).1 hgood
  · exact h.of_top (h.kernel.videntityCR3 hr hv hflags hpres hne hgood)

theorem Spaces.Ok.vfreeCR3 {S : Spaces} {v n r : ℕ} {b : Bool} (h : S.Ok)
    (hr : r ∈ S.roots) (hv : ∀ i < n, 256 ≤ (pageP4E (add64 v (i * pageSize))).val)
    (hkeeps : FreeKeeps S v n b) :
    Spaces.Ok { S with paging := AnglOS.vfreeCR3 S.paging v n b r } := by
  obtain ⟨hnil | hkept, hown⟩ := hkeeps
  · obtain rfl := Spaces.roots_alone hnil hr
    obtain ⟨hu, -⟩ := vfreeCR3_unmaps v n b h.kernel.tree.root_mod h.kernel.tree.unshared
    obtain ⟨fs, hfs⟩ := vfreeCR3_frees S.paging v n b S.paging.bspCr3
    obtain ⟨m, pmm, lock, log, heq⟩ := hfs.others
    refine h.of_kept ⟨(h.kernel.toKernelTables.unmaps hu hfs hown).1, ?_⟩ (by rw [heq])
      (by rw [heq])
    rw [hnil]
    exact fun r hr => absurd hr List.not_mem_nil
  · exact h.of_top (h.kernel.vfreeCR3 hr hv hkept hown)

/-- **One step.** -/
theorem Spaces.Ok.step {S S' : Spaces} {c : SpaceCall} (h : S.Ok) (hstep : SharingStep c S S') :
    S'.Ok := by
  obtain ⟨⟨hhalf, hroot, rfl⟩, hkeeps, hframes⟩ := hstep
  cases c with
  | createUser =>
      obtain ⟨hok, htop⟩ := h.kernel.createUser
        ((pagingCreateUser_good_iff h.kernel.supply h.kernel.good).mpr hframes)
      refine ⟨hok, ?_⟩
      have hcr3 := h.cr3
      rw [Spaces.roots, ← htop.1, ← htop.2.1] at hcr3
      rcases List.mem_cons.mp hcr3 with heq | hmem
      · exact List.mem_cons.mpr (Or.inl heq)
      · exact List.mem_cons_of_mem _ (List.mem_append_left _ hmem)
  | setCR3 root =>
      have hk := h.kernel
      exact ⟨⟨⟨hk.supply.setCR3 root, hk.good, ⟨hk.tree.1, hk.tree.2, hk.tree.3⟩, hk.returnable,
        hk.tables⟩, fun r hr => ⟨(hk.user r hr).1, (hk.user r hr).2, (hk.user r hr).3,
          (hk.user r hr).4, (hk.user r hr).5⟩⟩, hroot root rfl⟩
  | vmalloc v n flags => exact h.vmallocCR3 h.cr3 hhalf hkeeps hframes
  | vmallocCR3 v n flags root => exact h.vmallocCR3 (hroot root rfl) hhalf hkeeps hframes
  | videntity v p n flags => exact h.videntityCR3 h.cr3 hhalf hkeeps hframes
  | videntityCR3 v p n flags root => exact h.videntityCR3 (hroot root rfl) hhalf hkeeps hframes
  | vfree v n b => exact h.vfreeCR3 h.cr3 hhalf hkeeps
  | vfreeCR3 v n b root => exact h.vfreeCR3 (hroot root rfl) hhalf hkeeps

/-- Tables with the same upper half translate the kernel half alike. -/
theorem UserTable.walk {s : Paging} {r w : ℕ} (h : UserTable s r)
    (hw : 256 ≤ (pageP4E w).val) : s.walk r w = s.walk s.bspCr3 w := by
  have hleaf : s.leaf r w = s.leaf s.bspCr3 w := by
    have htab : AnglOS.tableAt frameOf s.entry r [pageP4E w, pageP3E w, pageP2E w]
        = AnglOS.tableAt frameOf s.entry s.bspCr3 [pageP4E w, pageP3E w, pageP2E w] :=
      tableAt_congr_root (h.upper _ hw) _
    rw [Paging.leaf, Paging.leaf, pagePath, Paging.entryAt, Paging.entryAt, entryAt, entryAt, htab]
  rw [Paging.walk, Paging.walk, hleaf]

theorem Spaces.Ok.agree {S : Spaces} (h : S.Ok) : S.Agree :=
  ⟨fun r hr _ hw => (h.kernel.user r hr).walk hw,
    fun r hr p t hp ht => ((h.kernel.user r hr).tree h.kernel.tree).issued p t hp ht⟩

/-- **Whole runs.** -/
theorem Spaces.Ok.run {s : Paging} {cs : List SpaceCall} {S : Spaces} (hs : KernelOk s [])
    (hcr3 : s.cr3 = s.bspCr3) (hrun : Run SharingStep ⟨s, []⟩ cs S) : S.Ok := by
  refine Run.invariant (O := fun _ => True) (P := Spaces.Ok) ?_ hrun (fun _ _ => trivial)
    ⟨hs, by rw [hcr3]; exact List.mem_cons_self⟩
  intro c S S' _ hS hstep
  exact hS.step hstep

/-- **All address spaces agree on the kernel half**: in every run of calls that keep the shared
entries, every kernel-half page translates alike through every user table and through the boot
processor's table, and no user table references a frame that was returned. -/
theorem kernel_half_of_run {s : Paging} {cs : List SpaceCall} {S : Spaces} (hs : KernelOk s [])
    (hcr3 : s.cr3 = s.bspCr3) (hrun : Run SharingStep ⟨s, []⟩ cs S) : S.Agree :=
  (Spaces.Ok.run hs hcr3 hrun).agree

/-! ### An address space more -/

theorem filledWith_kernelTables : KernelTables (filledWith 0) := by
  refine ⟨filledWith_supply 0, fun e he => absurd he List.not_mem_nil, filledWith_tree,
    fun f hf => ?_,
    fun p t hnil _ ht => absurd (tableAt_of_empty (filledWith_zero 0x1000) ht).1 hnil⟩
  obtain ⟨p, hp, hp', rfl⟩ := filledWith_unissued hf
  have hbits : 128 ≤ (filledWith 0).pmm.bits 0 := by
    rw [filledWith_pmm]
    decide +kernel
  refine ⟨?_, Nat.mul_mod_left p pageSize, ?_⟩
  · simp only [pageSize]
    omega
  · rw [Nat.mul_div_cancel _ (by decide : 0 < pageSize)]
    omega

/-- A memory full of zeros with 63 frames to come. -/
theorem filledWith_serves : Serves (filledWith 0) 63 :=
  ⟨fun _ he => absurd he List.not_mem_nil, available_of_refill rfl (filledWith_refillOk 0)⟩

theorem filledWith_ready : Ready (filledWith 0) 0x1000 :=
  ⟨filledWith_supply 0, filledWith_tree, filledWith_blanks, fun _ he => absurd he List.not_mem_nil⟩

/-- A range that needs no more frames than that finds them. -/
theorem filledWith_framesReady {root v n : ℕ} (hn : 4 * n ≤ 63) :
    FramesReady (filledWith 0) (rangeUses (filledWith 0) root v n [.data]) :=
  filledWith_blanks.framesReady filledWith_serves.available
    ((length_rangeUses_le _ _ _ _ _).trans hn)

/-- A new address space leaves the cache as `pagingAllocTable` does. -/
theorem Serves.createUser {s : Paging} {k : ℕ} (h : Serves s (k + 1)) :
    Serves (pagingCreateUser s).2 k := by
  obtain ⟨m, hm⟩ := pagingCreateUser_withMem s
  rw [hm]
  exact h.pagingAllocTable.keep ⟨rfl, rfl, rfl⟩ fun e he => Or.inl he

/-- **A new address space** in a state whose frames to come are blank. -/
theorem Ready.createUser {s : Paging} (h : Ready s s.bspCr3)
    (hserved : ∀ e ∈ (pagingCreateUser s).2.log, e.Served) :
    Ready (pagingCreateUser s).2 s.bspCr3 := by
  obtain ⟨m, hm⟩ := pagingCreateUser_withMem s
  have hserved' : ∀ e ∈ (pagingAllocTable s).2.log, e.Served := by
    rw [hm] at hserved
    exact hserved
  have hok : s.RefillOk := refillOk_of_log fun e he => hserved' e (List.mem_append_left _ he)
  obtain ⟨hf, hsup, hsub, -, hmem, -⟩ := pagingCreateUser_spec h.supply hok h.tree.root_mod
    (h.tree.issued [] _ (Nat.zero_le 3) rfl)
  have hsource : (pagingAllocTable s).2.SameSource (pagingCreateUser s).2 := by
    rw [hm]
    exact ⟨rfl, rfl, rfl⟩
  refine ⟨hsup, ?_, h.blanks.keep hsup ?_ fun x hx => hmem x (hsub hx).2, ?_⟩
  · refine (h.tree.frame _ (fun x ⟨p, hp, ht⟩ => hmem x fun heq => ?_) fun g hg => (hsub hg).1).1
    exact h.tree.issued p _ hp ht (heq ▸ hf)
  · rw [hsource.issuable]
    exact issuable_pagingAllocTable hok
  · rw [hm]
    exact h.blanks.good_pagingAllocTable h.supply h.good hserved'

/-- A page at the start of a slot of the kernel half. -/
def slotPage : ℕ := 0xFFFF900000000000

theorem flagBits_three : FlagBits 3 := by
  unfold FlagBits
  decide

/-- Mapping one page under the boot processor's table. -/
theorem mapPage_ready {s : Paging} {v p k : ℕ} (h : Ready s s.bspCr3) (hserves : Serves s (k + 4))
    (hv : v ≠ 0) (hv64 : v + pageSize ≤ 2 ^ 64) (hp : p % pageSize = 0)
    (hp52 : p + pageSize ≤ 2 ^ 52) :
    Ready (videntityCR3 s v p 1 3 s.bspCr3).2 s.bspCr3 ∧
      Serves (videntityCR3 s v p 1 3 s.bspCr3).2 k ∧
      s.Kept (videntityCR3 s v p 1 3 s.bspCr3).2 ∧
      (videntityCR3 s v p 1 3 s.bspCr3).2.walk s.bspCr3 v = some (p, 3) := by
  have hserves' : Serves (videntityCR3 s v p 1 3 s.bspCr3).2 k :=
    Serves.videntityCR3 (n := 1) (k := k) (hserves.mono (by omega))
  have hready := h.videntityCR3 (v := v) (p := p) (n := 1) flagBits_three (by decide)
    hserves'.served
  refine ⟨hready, hserves', ?_, ?_⟩
  · exact (videntityCR3_reshapes h.supply h.tree flagBits_three (by decide) hready.good).1.kept
  · have hmaps := videntityCR3_maps (v := v) (p := p) (n := 1) h.supply h.tree flagBits_three
      (by decide) (by decide) (by omega) (fun i hi => by omega) hp (by omega) hready.good
    simpa using hmaps.range 0 Nat.one_pos

/-- Mapping one page of the kernel half is a step of the run. -/
theorem step_mapPage {S : Spaces} {v p : ℕ} (hcr3 : S.paging.cr3 = S.paging.bspCr3)
    (hv : 256 ≤ (pageP4E (add64 v (0 * pageSize))).val) :
    Spaces.step (.videntity v p 1 3) S
      ⟨(videntityCR3 S.paging v p 1 3 S.paging.bspCr3).2, S.users⟩ := by
  refine ⟨fun i hi => ?_, fun r hr => absurd hr (by simp [SpaceCall.root]), ?_⟩
  · obtain rfl : i = 0 := Nat.lt_one_iff.mp hi
    exact hv
  · simp only [SpaceCall.exec, videntity, hcr3]

/-- It keeps the shared entries if the slot has its tables. -/
theorem sharingStep_mapPage {S : Spaces} {v p : ℕ} (hcr3 : S.paging.cr3 = S.paging.bspCr3)
    (hv : 256 ≤ (pageP4E (add64 v (0 * pageSize))).val)
    (hslot : S.users = [] ∨ S.paging.entry S.paging.bspCr3 (pageP4E (add64 v (0 * pageSize))) ≠ 0)
    (hord : Orderly S.paging S.paging.bspCr3)
    (hready : Ready (videntityCR3 S.paging v p 1 3 S.paging.bspCr3).2 S.paging.bspCr3) :
    SharingStep (.videntity v p 1 3) S
      ⟨(videntityCR3 S.paging v p 1 3 S.paging.bspCr3).2, S.users⟩ := by
  have hstep := step_mapPage (p := p) hcr3 hv
  refine ⟨hstep, ⟨flagBits_three, by decide, hslot.imp id fun hne i hi => ?_⟩, ?_⟩
  · obtain rfl : i = 0 := Nat.lt_one_iff.mp hi
    exact hne
  · rw [SpaceCall.uses, hcr3]
    exact (videntityCR3_good_iff hord flagBits_three (by decide) v p 1).mp hready.good

/-- Creating an address space is a step of the run. -/
theorem step_createUser (S : Spaces) : Spaces.step .createUser S
    ⟨(pagingCreateUser S.paging).2, S.users ++ [(pagingCreateUser S.paging).1]⟩ :=
  ⟨fun i hi => absurd hi (Nat.not_lt_zero i), fun r hr => absurd hr (by simp [SpaceCall.root]), rfl⟩

/-- A translated page has a top-level entry. -/
theorem entry_ne_of_walk {s : Paging} {root v : ℕ} {x : ℕ × BitVec 64}
    (h : s.walk root v = some x) : s.entry root (pageP4E v) ≠ 0 := by
  intro hz
  rw [walk_eq_none_of_entry hz] at h
  cases h

/-- Without user tables the invariant is about the tables of the boot processor. -/
theorem filledWith_kernelOk : KernelOk (filledWith 0) [] :=
  ⟨filledWith_kernelTables, fun _ hr => absurd hr List.not_mem_nil⟩

/-- A page of a slot is mapped, a user table is created, and the next page of the slot is mapped:
the user table translates it too. -/
theorem kernel_half_of_run_videntity : ∃ S root, Run SharingStep ⟨filledWith 0, []⟩
      [.videntity slotPage 0x200000 1 3, .createUser,
        .videntity (slotPage + pageSize) 0x201000 1 3] S ∧ S.users = [root] ∧ S.Agree ∧
      S.paging.walk root (slotPage + pageSize) = some (0x201000, 3) := by
  obtain ⟨hready₁, hserves₁, hkept₁, hwalk₁⟩ := mapPage_ready (v := slotPage) (p := 0x200000)
    (k := 59) filledWith_ready filledWith_serves (by decide) (by decide) (by decide) (by decide)
  have hrun₁ : Run SharingStep ⟨filledWith 0, []⟩ [.videntity slotPage 0x200000 1 3] _ :=
    (Run.nil _).snoc
      (sharingStep_mapPage rfl (by decide) (Or.inl rfl) filledWith_ready.orderly hready₁)
  generalize (videntityCR3 (filledWith 0) slotPage 0x200000 1 3 (filledWith 0).bspCr3).2 = s₁
    at hready₁ hserves₁ hkept₁ hwalk₁ hrun₁
  have hcr3₁ : s₁.cr3 = s₁.bspCr3 := hkept₁.cr3.trans hkept₁.bspCr3.symm
  rw [← hkept₁.bspCr3] at hready₁ hwalk₁
  have hserves₂ := hserves₁.createUser
  have hready₂ := hready₁.createUser hserves₂.served
  have hrun₂ := hrun₁.append_one .createUser ⟨step_createUser _, trivial,
    (pagingCreateUser_good_iff hready₁.supply hready₁.good).mp hready₂.good⟩
  obtain ⟨-, htop⟩ :=
    (Spaces.Ok.run filledWith_kernelOk rfl hrun₁).kernel.createUser hready₂.good
  have hentry := entry_ne_of_walk hwalk₁
  generalize pagingCreateUser s₁ = r at hserves₂ hready₂ hrun₂ htop
  obtain ⟨root, s₂⟩ := r
  rw [← htop.2.2, ← htop.1] at hentry
  rw [← htop.1] at hready₂
  obtain ⟨hready₃, -, hkept₃, hwalk₃⟩ := mapPage_ready (v := slotPage + pageSize) (p := 0x201000)
    (k := 54) hready₂ hserves₂ (by decide) (by decide) (by decide) (by decide)
  have hslot : pageP4E (add64 (slotPage + pageSize) (0 * pageSize)) = pageP4E slotPage := by
    decide
  have hrun₃ := hrun₂.append_one (.videntity (slotPage + pageSize) 0x201000 1 3)
    (sharingStep_mapPage (htop.2.1.trans (hcr3₁.trans htop.1.symm)) (by decide)
      (Or.inr (by rw [hslot]; exact hentry)) hready₂.orderly hready₃)
  have hagree := kernel_half_of_run filledWith_kernelOk rfl hrun₃
  refine ⟨_, root, hrun₃, rfl, hagree, ?_⟩
  rw [hagree.same root List.mem_cons_self _ (by decide)]
  exact (congrArg (fun b => Paging.walk _ b _) hkept₃.bspCr3).trans hwalk₃

/-- **The first page of a slot is mapped in one address space only**: after a user table was
created, the boot processor's table translates the page and the user table does not. -/
theorem kernel_half_disagrees : ∃ S root, Run Spaces.step ⟨filledWith 0, []⟩
      [.createUser, .videntity slotPage 0x200000 1 3] S ∧ ¬ S.Agree ∧ S.users = [root] ∧
      S.paging.walk S.paging.bspCr3 slotPage = some (0x200000, 3) ∧
      S.paging.walk root slotPage = none := by
  have hserves₁ := filledWith_serves.createUser
  have hready₁ := filledWith_ready.createUser hserves₁.served
  have hrun₁ : Run Spaces.step ⟨filledWith 0, []⟩ [.createUser] _ :=
    (Run.nil _).snoc (step_createUser _)
  obtain ⟨hok, htop⟩ := filledWith_kernelOk.createUser hready₁.good
  have hzero : (filledWith 0).entry (filledWith 0).bspCr3 (pageP4E slotPage) = 0 := by
    rw [filledWith_entry]
    rfl
  rw [← htop.2.2] at hzero
  generalize pagingCreateUser (filledWith 0) = r at hserves₁ hready₁ hrun₁ hok htop hzero
  obtain ⟨root, s₁⟩ := r
  have hcr3 : s₁.cr3 = s₁.bspCr3 := htop.2.1.trans htop.1.symm
  rw [← htop.1] at hready₁ hzero
  obtain ⟨hready₂, -, hkept₂, hwalk₂⟩ := mapPage_ready (v := slotPage) (p := 0x200000)
    (k := 58) hready₁ hserves₁ (by decide) (by decide) (by decide) (by decide)
  have hrun₂ := hrun₁.append_one (.videntity slotPage 0x200000 1 3)
    (step_mapPage hcr3 (by decide))
  have hwalk : (videntityCR3 s₁ slotPage 0x200000 1 3 s₁.bspCr3).2.walk
      (videntityCR3 s₁ slotPage 0x200000 1 3 s₁.bspCr3).2.bspCr3 slotPage = some (0x200000, 3) := by
    rw [hkept₂.bspCr3]
    exact hwalk₂
  have hnone : (videntityCR3 s₁ slotPage 0x200000 1 3 s₁.bspCr3).2.walk root slotPage = none := by
    have hu : UserTable s₁ root := hok.user root (by simp)
    obtain ⟨hreshapes, -⟩ := videntityCR3_reshapes hready₁.supply hready₁.tree flagBits_three
      (by decide) hready₂.good
    refine walk_eq_none_of_entry ?_
    rw [entry_congr hu.aligned fun x hx => hreshapes.frame x (hx ▸ hu.issued) fun p hp ht =>
      hu.apart p hp (hx ▸ ht), hu.upper _ (by decide)]
    exact hzero
  refine ⟨_, root, hrun₂, fun hagree => ?_, rfl, hwalk, hnone⟩
  have hsame := hagree.same root List.mem_cons_self slotPage (by decide)
  rw [hnone, hwalk] at hsame
  cases hsame

end AnglOS
