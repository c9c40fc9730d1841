import AnglOS.Mmu
import AnglOS.PagingUnmap

/-!
# Unmapping at Boot

What `initPaging` does to the tables that the boot loader left: it unmaps the lowest pages, as many
as memory has, in a tree that the kernel did not build and in which an entry of level 3 or 2 may map
a large page. A table of this tree is one that the processor's walks pass. `vfreeHelper` takes every
entry that is not zero for a table's, so its walk may end in the data of a large page.

## Main results

* `BootCleared.helper` — the step: one page whose walk ends in its level-1 table, or in data that is
  spared;
* `translation_of_bootCleared` — the translations of all other pages stay;
* `BootCleared.harmed` — a walk that ends in other data erases a byte of it or frees its frame;
* `initPaging_unmaps_iff` — the whole of it: when other translations and the memory outside of the
  tables stay, and only tables that are not free are freed;
* `initPaging_clears_data` — the data of a large page is erased.
-/

namespace AnglOS

open Pmm

/-! ### The tables of the boot loader -/

/-- An entry of an upper level as the processor takes it for a table's: present and without the bit
for a large page, zero otherwise. -/
def Paging.tableEntry (s : Paging) (t : ℕ) (i : Fin 512) : BitVec 64 :=
  if s.entry t i &&& 0x81 = 1 then s.entry t i else 0

/-- The table that a path leads to over such entries. -/
abbrev Paging.bootTable (s : Paging) (root : ℕ) (p : List (Fin 512)) : Option ℕ :=
  AnglOS.tableAt frameOf s.tableEntry root p

/-- **The tables that the boot loader installs**: a tree, in which entries of level 4 do not have
the reserved bit for a large page. Those that lie in memory are in frames that the allocator manages
and does not count as free. -/
structure BootTree (s : Paging) (root : ℕ) : Prop where
  root_mod : root % pageSize = 0
  unshared : Unshared frameOf s.tableEntry root 3
  top : ∀ i, s.entry root i &&& pageFlagLarge = 0
  tables : ∀ p t, p ≠ [] → p.length ≤ 3 → s.bootTable root p = some t → t < s.pmm.memSize →
    Returnable s.pmm t ∧ t / pageSize ∉ s.pmm.freePages

/-- Data that `vfreeHelper` takes for the level-1 table of a page is spared: the word in the place
of the page's entry is not removed, and if the entry that leads to the data can be removed then the
data does not look like an empty table and is no other table. -/
def Spared (s : Paging) (root t v : ℕ) : Prop :=
  ¬s.Removable (s.entry t (pageP1E v)) ∧
    (s.Removable (s.entryAt root [pageP4E v, pageP3E v] (pageP2E v)) →
      (∃ j, s.entry t j ≠ 0) ∧ ∀ p, p.length ≤ 3 → s.bootTable root p ≠ some t)

/-- **The walks to the lowest `n` pages are safe**: each misses a level-1 table, or ends in the
level-1 table of the page, or ends in data that is spared. -/
def SafeWalks (s : Paging) (root n : ℕ) : Prop :=
  ∀ k < n, ∀ t, s.tableAt root (pagePath (k * pageSize)) = some t →
    s.bootTable root (pagePath (k * pageSize)) = some t ∨ Spared s root t (k * pageSize)

/-- The walk to a page takes no table for another: what it passes are the tables on the page's path,
or no tables. -/
def SeparateWalk (s : Paging) (root v : ℕ) : Prop :=
  ∀ p t, p <+: pagePath v → s.tableAt root p = some t →
    s.bootTable root p = some t ∨ ∀ q, q.length ≤ 3 → s.bootTable root q ≠ some t

/-- **Unmapping touches only the tables**: translations of addresses outside of memory's size stay,
memory outside of the tables stays, and `pfree` was called on tables only, each time on one that was
not free. -/
structure BootUnmapped (s s' : Paging) (root : ℕ) : Prop where
  translations : ∀ v, canonical v → s.pmm.memSize ≤ v → s'.translation root v = s.translation root v
  memory : ∀ x, (∀ p, p.length ≤ 3 → s.bootTable root p ≠ some (alignToPage x)) →
    s'.mem x = s.mem x
  frees : ∃ fs, s'.log = s.log ++ fs.map .freed ∧ s'.pmm = freeAll s.pmm fs ∧
    ∀ gs f hs, fs = gs ++ f :: hs →
      (∃ p, p ≠ [] ∧ p.length ≤ 3 ∧ s.bootTable root p = some f) ∧
        f / pageSize ∉ (freeAll s.pmm gs).freePages

/-! ### What has been cleared -/

/-- The indices of an address in the lowest `level` levels. -/
def pathBelow (v : ℕ) : ℕ → List (Fin 512)
  | 0 => []
  | level + 1 => pageIndex level v :: pathBelow v level

/-- The entry at a path and an index may be gone: it is the leaf entry of one of the lowest `n`
pages, or led to a table that is empty now. -/
def MayVanish (s s' : Paging) (n t : ℕ) (p : List (Fin 512)) (i : Fin 512) : Prop :=
  (∃ k < n, p ++ [i] = pathBelow (k * pageSize) 4) ∨
    p.length < 3 ∧ s.entry t i &&& 0x81 = 1 ∧ ∀ j, s'.entry (frameOf (s.entry t i)) j = 0

/-- **A part of the unmapping**, after which the lowest `n` pages may have lost their leaf entries
and the frames `fs` were freed. -/
structure BootCleared (s s' : Paging) (root n : ℕ) (fs : List ℕ) : Prop where
  frees : Frees s s' fs
  memory : ∀ x, (∀ p, p.length ≤ 3 → s.bootTable root p ≠ some (alignToPage x)) →
    s'.mem x = s.mem x
  entries : ∀ p t i, p.length ≤ 3 → s.bootTable root p = some t →
    s'.entry t i = s.entry t i ∨ s'.entry t i = 0 ∧ MayVanish s s' n t p i
  freed : ∀ f ∈ fs, f < s.pmm.memSize ∧ ∃ p i t, p.length < 3 ∧ s.bootTable root p = some t ∧
    s.bootTable root (p ++ [i]) = some f ∧ s'.entry t i = 0
  nodup : fs.Nodup

section

variable {s s' s'' : Paging} {root n t : ℕ} {fs : List ℕ} {p : List (Fin 512)} {i : Fin 512}

theorem BootCleared.refl (s : Paging) (root : ℕ) : BootCleared s s root 0 [] where
  frees := .refl s
  memory _ _ := rfl
  entries _ _ _ _ _ := .inl rfl
  freed _ hf := absurd hf List.not_mem_nil
  nodup := .nil

/-- More pages. -/
theorem BootCleared.mono (h : BootCleared s s' root n fs) {n' : ℕ} (hn : n ≤ n') :
    BootCleared s s' root n' fs where
  frees := h.frees
  memory := h.memory
  entries p t i hp ht := (h.entries p t i hp ht).imp_right fun hz => by
    obtain ⟨hzero, ⟨k, hk, hpath⟩ | hempty⟩ := hz
    · exact ⟨hzero, .inl ⟨k, hk.trans_le hn, hpath⟩⟩
    · exact ⟨hzero, .inr hempty⟩
  freed := h.freed
  nodup := h.nodup

theorem BootCleared.memSize (h : BootCleared s s' root n fs) :
    s'.pmm.memSize = s.pmm.memSize := by
  rw [h.frees.pmm]
  exact (static_freeAll s.pmm fs).memSize

/-- The entries that can be removed are the same. -/
theorem BootCleared.removable (h : BootCleared s s' root n fs) {e : BitVec 64} :
    s'.Removable e ↔ s.Removable e := by
  rw [Paging.Removable, Paging.Removable, h.memSize]

/-- An entry that the processor takes for a table's is not zero. -/
theorem tableEntry_ne_zero (h : s.entry t i &&& 0x81 = 1) :
    s.tableEntry t i = s.entry t i ∧ s.tableEntry t i ≠ 0 := by
  have heq : s.tableEntry t i = s.entry t i := if_pos h
  refine ⟨heq, fun hz => ?_⟩
  rw [← heq, hz] at h
  exact absurd h (by decide)

/-- It leads to a table. -/
theorem bootTable_concat (ht : s.bootTable root p = some t) (h : s.entry t i &&& 0x81 = 1) :
    s.bootTable root (p ++ [i]) = some (frameOf (s.entry t i)) := by
  obtain ⟨heq, hne⟩ := tableEntry_ne_zero h
  rw [Paging.bootTable, tableAt_concat, entryAt_of_tableAt ht, if_neg hne, heq]

/-- The entry that leads to a table. -/
theorem entry_of_bootTable {c : ℕ} (ht : s.bootTable root p = some t)
    (hc : s.bootTable root (p ++ [i]) = some c) :
    s.entry t i &&& 0x81 = 1 ∧ frameOf (s.entry t i) = c := by
  rw [Paging.bootTable, tableAt_concat, entryAt_of_tableAt ht] at hc
  split_ifs at hc with hz
  have htable : s.entry t i &&& 0x81 = 1 := by
    by_contra hne
    exact hz (if_neg hne)
  rw [(tableEntry_ne_zero htable).1] at hc
  exact ⟨htable, Option.some.inj hc⟩

/-- Tables in the processor's sense are tables. -/
theorem tableAt_of_bootTable (ht : s.bootTable root p = some t) : s.tableAt root p = some t := by
  induction p using List.reverseRecOn generalizing t with
  | nil => exact ht
  | append_singleton p i ih =>
    obtain ⟨u, hu⟩ : ∃ u, s.bootTable root p = some u := exists_tableAt_of_append ht
    obtain ⟨htable, rfl⟩ := entry_of_bootTable hu ht
    have hne : s.entry u i ≠ 0 := fun hz => by
      rw [hz] at htable
      exact absurd htable (by decide)
    rw [Paging.tableAt, tableAt_concat, entryAt_of_tableAt (ih hu), if_neg hne]

/-- Tables are page-aligned. -/
theorem bootTable_mod (hroot : root % pageSize = 0) (ht : s.bootTable root p = some t) :
    t % pageSize = 0 :=
  tableAt_mod hroot (tableAt_of_bootTable ht)

/-- **Erasing one entry** that may be gone, and freeing the table it led to. -/
theorem BootCleared.erase {gs : List ℕ} (h : BootCleared s s' root n fs)
    (hroot : root % pageSize = 0) (hun : Unshared frameOf s.tableEntry root 3) (hp : p.length ≤ 3)
    (ht : s.bootTable root p = some t) (herase : Erases s' s'' t i) (hfrees : Frees s' s'' gs)
    (hvanish : MayVanish s s'' n t p i)
    (hgs : ∀ f ∈ gs, f < s.pmm.memSize ∧ p.length < 3 ∧ s.bootTable root (p ++ [i]) = some f ∧
      s'.entry t i ≠ 0)
    (hone : gs.length ≤ 1) : BootCleared s s'' root n (fs ++ gs) := by
  have htmod := bootTable_mod hroot ht
  have hkeeps {u : ℕ} (hu : u % pageSize = 0) {j : Fin 512} (hz : s'.entry u j = 0) :
      s''.entry u j = 0 := by
    rw [herase.entry htmod hu]
    split_ifs
    · rfl
    · exact hz
  refine ⟨h.frees.trans hfrees, fun x hx => ?_, fun q u j hq hu => ?_, fun f hf => ?_, ?_⟩
  · rw [herase.mem, setEntry_mem htmod fun heq => hx p hp (heq ▸ ht), h.memory x hx]
  · rw [herase.entry htmod (bootTable_mod hroot hu)]
    split_ifs with heq
    · obtain ⟨rfl, rfl⟩ := heq
      obtain rfl := hun q p u hq hp hu ht
      exact .inr ⟨rfl, hvanish⟩
    · refine (h.entries q u j hq hu).imp_right fun ⟨hz, hmay⟩ => ⟨hz, ?_⟩
      exact hmay.imp_right fun ⟨hlen, htable, hempty⟩ =>
        ⟨hlen, htable, fun k => hkeeps (frameOf_mod _) (hempty k)⟩
  · rw [List.mem_append] at hf
    obtain hf | hf := hf
    · obtain ⟨hlt, q, j, u, hq, hu, hchild, hz⟩ := h.freed f hf
      exact ⟨hlt, q, j, u, hq, hu, hchild, hkeeps (bootTable_mod hroot hu) hz⟩
    · obtain ⟨hlt, hlen, hchild, -⟩ := hgs f hf
      refine ⟨hlt, p, i, t, hlen, ht, hchild, ?_⟩
      rw [herase.entry htmod htmod, if_pos ⟨rfl, rfl⟩]
  · have hnew : ∀ f ∈ gs, f ∉ fs := by
      intro f hf hmem
      obtain ⟨-, hlen, hchild, hne⟩ := hgs f hf
      obtain ⟨-, q, j, u, hq, hu, hchild', hz⟩ := h.freed f hmem
      have hpath := hun (q ++ [j]) (p ++ [i]) f (by simp; omega) (by simp; omega) hchild' hchild
      obtain ⟨rfl, hji⟩ := List.append_inj' hpath rfl
      obtain rfl := List.singleton_inj.1 hji
      obtain rfl := Option.some.inj (hu.symm.trans ht)
      exact hne hz
    refine List.Nodup.append h.nodup ?_ (List.disjoint_left.2 fun f hf hf' => hnew f hf' hf)
    match gs, hone with
    | [], _ => exact .nil
    | [f], _ => exact List.nodup_singleton f

theorem freed_injective : Function.Injective PagingEvent.freed :=
  fun _ _ h => PagingEvent.freed.inj h

/-- The calls of `pfree` are those in the record. -/
theorem frees_of_log (fs : List ℕ) (h : ∃ gs, Frees s s' gs)
    (hlog : s'.log = s.log ++ fs.map .freed) : Frees s s' fs := by
  obtain ⟨gs, hgs⟩ := h
  have hmap := List.append_cancel_left (hgs.log.symm.trans hlog)
  rwa [← List.map_injective_iff.2 freed_injective hmap]

/-! ### One page -/

/-- **A leaf entry** is erased if it is present and points into memory. -/
theorem BootCleared.leaf {k : ℕ} (h : BootCleared s s' root n fs) (hroot : root % pageSize = 0)
    (hun : Unshared frameOf s.tableEntry root 3) (hk : k < n)
    (ht : s.bootTable root (pagePath (k * pageSize)) = some t) :
    BootCleared s (pagingRemoveEntry false 1 t (pageP1E (k * pageSize)) s') root n fs := by
  by_cases hrem : s'.Removable (s'.entry t (pageP1E (k * pageSize)))
  · obtain ⟨herase, hlog⟩ := pagingRemoveEntry_leaf false hrem
    have hfrees := frees_of_log [] (pagingRemoveEntry_frees false 1 t _ s') hlog
    have hpath : pagePath (k * pageSize) ++ [pageP1E (k * pageSize)] =
        pathBelow (k * pageSize) 4 := rfl
    have hcleared := h.erase hroot hun (pagePath_length _).le ht herase hfrees
      (.inl ⟨k, hk, hpath⟩) (fun f hf => absurd hf List.not_mem_nil) (Nat.zero_le 1)
    rwa [List.append_nil] at hcleared
  · rw [pagingRemoveEntry_of_not_removable false 1 hrem]
    exact h

/-- **An entry that leads to an empty table** is erased and the table freed, if it points into
memory. -/
theorem BootCleared.up (h : BootCleared s s' root n fs) (hroot : root % pageSize = 0)
    (hun : Unshared frameOf s.tableEntry root 3) (hp : p.length < 3)
    (ht : s.bootTable root p = some t) (htable : s.entry t i &&& 0x81 = 1)
    (hempty : ∀ j, s'.entry (frameOf (s.entry t i)) j = 0) (level : ℕ) :
    ∃ gs, BootCleared s (pagingRemoveEntry false (level + 2) t i s') root n gs := by
  by_cases hrem : s'.Removable (s'.entry t i)
  · have hsame : s'.entry t i = s.entry t i :=
      (h.entries p t i hp.le ht).resolve_right fun hz => hrem.ne_zero hz.1
    rw [← hsame] at hempty
    obtain ⟨herase, hlog⟩ := pagingRemoveEntry_table false level hrem hempty
    have hfrees := frees_of_log [frameOf (s'.entry t i)]
      (pagingRemoveEntry_frees false _ t i s') hlog
    refine ⟨_, h.erase hroot hun hp.le ht herase hfrees (.inr ⟨hp, htable, fun j => ?_⟩)
      (fun f hf => ?_) le_rfl⟩
    · rw [← hsame, herase.entry (bootTable_mod hroot ht) (frameOf_mod _), hempty j, ite_self]
    · rw [List.mem_singleton.1 hf, hsame]
      exact ⟨h.memSize ▸ hsame ▸ hrem.2, hp, bootTable_concat ht htable, hsame ▸ hrem.ne_zero⟩
  · rw [pagingRemoveEntry_of_not_removable false _ hrem]
    exact ⟨fs, h⟩

/-- Words of page-aligned frames stay or are erased. -/
theorem BootCleared.entry_or (h : BootCleared s s' root n fs) (ht : t % pageSize = 0)
    (i : Fin 512) : s'.entry t i = s.entry t i ∨ s'.entry t i = 0 := by
  by_cases htable : ∃ p, p.length ≤ 3 ∧ s.bootTable root p = some t
  · obtain ⟨p, hp, hboot⟩ := htable
    exact (h.entries p t i hp hboot).imp_right And.left
  · refine .inl (entry_congr ht (fun x hx => h.memory x fun p hp hboot => ?_) i)
    exact htable ⟨p, hp, hx ▸ hboot⟩

/-- Words of frames that are no tables stay. -/
theorem BootCleared.entry_off (h : BootCleared s s' root n fs) (hroot : root % pageSize = 0)
    (ht : s.tableAt root p = some t) (hoff : ∀ q, q.length ≤ 3 → s.bootTable root q ≠ some t)
    (i : Fin 512) : s'.entry t i = s.entry t i :=
  entry_congr (tableAt_mod hroot ht) (fun _ hx => h.memory _ fun q hq => hx ▸ hoff q hq) i

/-- The tables that `vfreeHelper` passes are those it passed before. -/
theorem BootCleared.tableAt (h : BootCleared s s' root n fs) (hroot : root % pageSize = 0)
    (ht : s'.tableAt root p = some t) : s.tableAt root p = some t := by
  induction p using List.reverseRecOn generalizing t with
  | nil => exact ht
  | append_singleton p i ih =>
    obtain ⟨u, hu⟩ := exists_tableAt_of_append ht
    have hold := ih hu
    rw [Paging.tableAt, tableAt_concat, entryAt_of_tableAt hu] at ht
    split_ifs at ht with hz
    have hsame := (h.entry_or (tableAt_mod hroot hold) i).resolve_right hz
    rw [hsame] at hz ht
    rw [Paging.tableAt, tableAt_concat, entryAt_of_tableAt hold, if_neg hz, ht]

/-- A walk that ends in a table passes tables. -/
theorem bootTable_of_append {q : List (Fin 512)} {u : ℕ} (ht : s.bootTable root (p ++ q) = some t)
    (hu : s.tableAt root p = some u) : s.bootTable root p = some u := by
  obtain ⟨w, hw⟩ : ∃ w, s.bootTable root p = some w := exists_tableAt_of_append ht
  rw [hw, ← tableAt_of_bootTable hw, hu]

/-- A data page that is spared stops `vfreeHelper`. -/
theorem BootCleared.spared {v p2tp p1tp : ℕ} (h : BootCleared s s' root n fs)
    (hroot : root % pageSize = 0) (hspared : Spared s root p1tp v)
    (ht2 : s'.tableAt root [pageP4E v, pageP3E v] = some p2tp)
    (ht1 : s'.tableAt root (pagePath v) = some p1tp) (p4tp p3tp : ℕ) :
    vfreeUp v p4tp p3tp p2tp p1tp false s' = s' := by
  obtain ⟨hleaf, hentry⟩ := hspared
  have hold2 := h.tableAt hroot ht2
  have hmod1 := tableAt_mod hroot (h.tableAt hroot ht1)
  have hleaf' : ¬s'.Removable (s'.entry p1tp (pageP1E v)) := by
    obtain hsame | hz := h.entry_or hmod1 (pageP1E v)
    · rwa [hsame, h.removable]
    · rw [hz]
      exact not_removable_zero s'
  -- the entry that leads to the data is not zero, and so the same as before
  have hne : s'.entry p2tp (pageP2E v) ≠ 0 := by
    intro hz
    have hnone : s'.tableAt root (pagePath v) = none := by
      change s'.tableAt root ([pageP4E v, pageP3E v] ++ [pageP2E v]) = none
      rw [Paging.tableAt, tableAt_concat, entryAt_of_tableAt ht2, if_pos hz]
    rw [ht1] at hnone
    cases hnone
  have hsame := (h.entry_or (tableAt_mod hroot hold2) (pageP2E v)).resolve_right hne
  rw [Paging.entryAt, entryAt_of_tableAt hold2, ← hsame] at hentry
  unfold vfreeUp
  rw [pagingRemoveEntry_of_not_removable false 1 hleaf']
  dsimp only
  by_cases hempty1 : s'.tableEmpty p1tp
  swap
  · rw [if_pos hempty1]
  have hrem2 : ¬s'.Removable (s'.entry p2tp (pageP2E v)) := by
    intro hrem
    obtain ⟨⟨j, hj⟩, hoff⟩ := hentry (h.removable.1 hrem)
    have hkept := h.entry_off hroot (h.tableAt hroot ht1) hoff j
    exact hj (hkept.symm.trans (tableEmpty_iff.1 hempty1 j))
  have hfull2 : ¬s'.tableEmpty p2tp := fun hempty2 => hne (tableEmpty_iff.1 hempty2 _)
  rw [if_neg (not_not.2 hempty1), pagingRemoveEntry_of_not_removable false 2 hrem2, if_pos hfull2]

/-- **One page** whose walk is safe. -/
theorem BootCleared.helper {k : ℕ} (h : BootCleared s s' root k fs) (hroot : root % pageSize = 0)
    (hun : Unshared frameOf s.tableEntry root 3)
    (hsafe : ∀ t, s.tableAt root (pagePath (k * pageSize)) = some t →
      s.bootTable root (pagePath (k * pageSize)) = some t ∨ Spared s root t (k * pageSize)) :
    ∃ gs, BootCleared s (vfreeHelper (k * pageSize) root false s') root (k + 1) gs := by
  obtain ⟨heq, -⟩ | ⟨p3tp, p2tp, p1tp, ht3, ht2, ht1, heq⟩ :=
    vfreeHelper_cases (k * pageSize) root false s'
  · rw [heq]
    exact ⟨fs, h.mono (Nat.le_succ k)⟩
  obtain hb1 | hspared := hsafe p1tp (h.tableAt hroot ht1)
  swap
  · rw [heq, h.spared hroot hspared ht2 ht1]
    exact ⟨fs, h.mono (Nat.le_succ k)⟩
  have hb3 := bootTable_of_append (p := [pageP4E _]) hb1 (h.tableAt hroot ht3)
  have hb2 := bootTable_of_append (p := [pageP4E _, pageP3E _]) hb1 (h.tableAt hroot ht2)
  obtain ⟨htable1, hframe1⟩ := entry_of_bootTable (p := [pageP4E _, pageP3E _]) hb2 hb1
  obtain ⟨htable2, hframe2⟩ := entry_of_bootTable (p := [pageP4E _]) hb3 hb2
  obtain ⟨htable3, hframe3⟩ := entry_of_bootTable (p := []) rfl hb3
  have h1 := (h.mono (Nat.le_succ k)).leaf hroot hun (Nat.lt_succ_self k) hb1
  rw [heq]
  unfold vfreeUp
  generalize pagingRemoveEntry false 1 p1tp (pageP1E (k * pageSize)) s' = s₁ at h1 ⊢
  dsimp only
  by_cases he1 : s₁.tableEmpty p1tp
  swap
  · rw [if_pos he1]
    exact ⟨fs, h1⟩
  rw [if_neg (not_not.mpr he1)]
  obtain ⟨fs₂, h2⟩ := h1.up hroot hun (p := [pageP4E _, pageP3E _]) (by simp) hb2 htable1
    (hframe1 ▸ tableEmpty_iff.mp he1) 0
  generalize pagingRemoveEntry false (0 + 2) p2tp (pageP2E (k * pageSize)) s₁ = s₂ at h2 ⊢
  by_cases he2 : s₂.tableEmpty p2tp
  swap
  · rw [if_pos he2]
    exact ⟨fs₂, h2⟩
  rw [if_neg (not_not.mpr he2)]
  obtain ⟨fs₃, h3⟩ := h2.up hroot hun (p := [pageP4E _]) (by simp) hb3 htable2
    (hframe2 ▸ tableEmpty_iff.mp he2) 1
  generalize pagingRemoveEntry false (1 + 2) p3tp (pageP3E (k * pageSize)) s₂ = s₃ at h3 ⊢
  by_cases he3 : s₃.tableEmpty p3tp
  swap
  · rw [if_pos he3]
    exact ⟨fs₃, h3⟩
  rw [if_neg (not_not.mpr he3)]
  exact h3.up hroot hun (p := []) (by simp) rfl htable3 (hframe3 ▸ tableEmpty_iff.mp he3) 2

/-! ### The translations of other pages -/

@[simp] theorem pathBelow_length (v level : ℕ) : (pathBelow v level).length = level := by
  induction level with
  | zero => rfl
  | succ level ih => rw [pathBelow, List.length_cons, ih]

/-- An address above one of the lowest pages has another path. -/
theorem pathBelow_ne {v k : ℕ} (hv : canonical v) (hk : (k + 1) * pageSize ≤ v)
    (hk' : (k + 1) * pageSize ≤ 2 ^ 47) : pathBelow v 4 ≠ pathBelow (k * pageSize) 4 := by
  intro heq
  have happend : pagePath v ++ [pageP1E v] =
      pagePath (k * pageSize) ++ [pageP1E (k * pageSize)] := heq
  obtain ⟨hpath, hlast⟩ := List.append_inj' happend rfl
  have hnumber := pagePath_eq_iff.1 ⟨hpath, List.singleton_inj.1 hlast⟩
  simp only [pageNumber, pageSize, canonical] at hnumber hk hk' hv
  omega

/-- A present entry that maps no large page leads to a table. -/
theorem table_bits {e : BitVec 64} (hpres : ¬e &&& pageFlagPresent = 0)
    (hlarge : e &&& pageFlagLarge = 0) : e &&& 0x81 = 1 := by
  have hone : e &&& 1 = 1 := by
    replace hpres : ¬e &&& 1#64 = 0#64 := hpres
    change e &&& 1#64 = 1#64
    rw [BitVec.and_one_eq_setWidth_ofBool_getLsbD] at hpres ⊢
    cases hbit : e.getLsbD 0 with
    | false =>
      rw [hbit] at hpres
      exact absurd rfl hpres
    | true => rfl
  have hmask : (0x81 : BitVec 64) = 1 ||| 0x80 := rfl
  rw [hmask, BitVec.and_or_distrib_left, hone, hlarge]
  rfl

/-- The entry of an address that is not in the lowest pages may be gone only if it led to a table
that is empty now. -/
theorem MayVanish.table {v level : ℕ} (h : MayVanish s s' n t p (pageIndex level v))
    (hoff : ∀ k < n, pathBelow v 4 ≠ pathBelow (k * pageSize) 4)
    (hp : p ++ pathBelow v (level + 1) = pathBelow v 4) :
    level ≠ 0 ∧ s.entry t (pageIndex level v) &&& 0x81 = 1 ∧
      ∀ j, s'.entry (frameOf (s.entry t (pageIndex level v))) j = 0 := by
  have hlen : p.length + (level + 1) = 4 := by
    simpa only [List.length_append, pathBelow_length] using congrArg List.length hp
  obtain ⟨k, hk, hpath⟩ | ⟨hlt, htable, hempty⟩ := h
  · have hlast := congrArg List.length hpath
    simp only [List.length_append, List.length_singleton, pathBelow_length] at hlast
    obtain rfl : level = 0 := by omega
    exact absurd (hp.symm.trans hpath) (hoff k hk)
  · exact ⟨by omega, htable, hempty⟩

/-- A walk on which an entry is zero now, and which leads to none of the lowest pages, found nothing
before. -/
theorem BootCleared.translationFrom_eq_none {v level : ℕ} {r : BitVec 64}
    (h : BootCleared s s' root n fs)
    (hoff : ∀ k < n, pathBelow v 4 ≠ pathBelow (k * pageSize) 4)
    (hp : p ++ pathBelow v (level + 1) = pathBelow v 4) (ht : s.bootTable root p = some t)
    (hz : s'.entry t (pageIndex level v) = 0) : s.translationFrom v (level + 1) t r = none := by
  induction level generalizing p t r with
  | zero =>
    have hlen : p.length + 1 = 4 := by
      simpa only [List.length_append, pathBelow_length] using congrArg List.length hp
    obtain hsame | ⟨-, hmay⟩ := h.entries p t (pageIndex 0 v) (by omega) ht
    · exact translationFrom_zero (hsame ▸ hz)
    · exact absurd rfl (hmay.table hoff hp).1
  | succ level ih =>
    have hlen : p.length + (level + 2) = 4 := by
      simpa only [List.length_append, pathBelow_length] using congrArg List.length hp
    obtain hsame | ⟨-, hmay⟩ := h.entries p t (pageIndex (level + 1) v) (by omega) ht
    · exact translationFrom_zero (hsame ▸ hz)
    · obtain ⟨hlevel, htable, hempty⟩ := hmay.table hoff hp
      rw [translationFrom_table hlevel htable]
      exact ih (by rw [List.append_assoc]; exact hp) (bootTable_concat ht htable) (hempty _)

/-- One walk of the processor. -/
theorem BootCleared.translationFrom {v level : ℕ} {r : BitVec 64} (h : BootCleared s s' root n fs)
    (htop : ∀ i, s.entry root i &&& pageFlagLarge = 0)
    (hoff : ∀ k < n, pathBelow v 4 ≠ pathBelow (k * pageSize) 4)
    (hp : p ++ pathBelow v level = pathBelow v 4) (ht : s.bootTable root p = some t) :
    s'.translationFrom v level t r = s.translationFrom v level t r := by
  induction level generalizing p t r with
  | zero => rfl
  | succ level ih =>
    have hlen : p.length + (level + 1) = 4 := by
      simpa only [List.length_append, pathBelow_length] using congrArg List.length hp
    by_cases hz : s'.entry t (pageIndex level v) = 0
    · rw [translationFrom_zero hz, h.translationFrom_eq_none hoff hp ht hz]
    have hsame := (h.entries p t (pageIndex level v) (by omega) ht).resolve_right fun hc => hz hc.1
    rw [Paging.translationFrom, Paging.translationFrom]
    simp only [hsame]
    split_ifs with hpres hmaps
    · rfl
    · rfl
    · have hlarge : s.entry t (pageIndex level v) &&& pageFlagLarge = 0 := by
        by_cases hlevel : level ≤ 2
        · by_contra hbit
          exact hmaps (.inr ⟨hlevel, hbit⟩)
        · -- the path is empty and the entry one of level 4
          obtain rfl : p = [] := List.length_eq_zero_iff.1 (by omega)
          obtain rfl := Option.some.inj ht
          exact htop _
      exact ih (by rw [List.append_assoc]; exact hp)
        (bootTable_concat ht (table_bits hpres hlarge))

/-- **The translations of all other pages stay.** -/
theorem translation_of_bootCleared {v : ℕ} (h : BootCleared s s' root n fs)
    (htop : ∀ i, s.entry root i &&& pageFlagLarge = 0)
    (hoff : ∀ k < n, pathBelow v 4 ≠ pathBelow (k * pageSize) 4) :
    s'.translation root v = s.translation root v :=
  h.translationFrom htop hoff (p := []) rfl rfl

/-! ### Harm -/

/-- **Harm was done**: a byte outside of the tables was erased, or a frame that is no table was
freed. -/
def Harmed (s s' : Paging) (root : ℕ) : Prop :=
  (∃ x, (∀ p, p.length ≤ 3 → s.bootTable root p ≠ some (alignToPage x)) ∧ s.mem x ≠ 0 ∧
    s'.mem x = 0) ∨
  ∃ (fs : List ℕ) (f : ℕ), s'.log = s.log ++ fs.map .freed ∧ f ∈ fs ∧
    ∀ p, p.length ≤ 3 → s.bootTable root p ≠ some f

/-- Unmapping writes nothing but zeros. -/
theorem setEntry_zero_mem {x : ℕ} (h : s.mem x = 0) (t : ℕ) (i : Fin 512) :
    (s.setEntry t i 0).mem x = 0 := by
  change s.mem.store64 _ _ x = 0
  rw [Mem.store64]
  split_ifs
  · exact BitVec.extractLsb'_zero
  · exact h

theorem pagingRemoveEntry_zero_mem {x : ℕ} (h : s.mem x = 0) (b : Bool) (level t : ℕ)
    (i : Fin 512) : (pagingRemoveEntry b level t i s).mem x = 0 := by
  induction level generalizing t i s with
  | zero => exact h
  | succ level ih =>
    rw [pagingRemoveEntry]
    dsimp only
    split_ifs
    · exact h
    · exact h
    · exact setEntry_zero_mem (s := s.free _) h t i
    · exact setEntry_zero_mem h t i
    · refine setEntry_zero_mem (s := pagingFreeTable _ _) ?_ t i
      exact loop_invariant (fun _ (s' : Paging) => s'.mem x = 0) h fun j _ s' hs' => ih hs' _ _

theorem vfreeUp_zero_mem {x v p4tp p3tp p2tp p1tp : ℕ} {b : Bool}
    (h : (pagingRemoveEntry b 1 p1tp (pageP1E v) s).mem x = 0) :
    (vfreeUp v p4tp p3tp p2tp p1tp b s).mem x = 0 := by
  unfold vfreeUp
  generalize pagingRemoveEntry b 1 p1tp (pageP1E v) s = s₁ at h ⊢
  have h2 := pagingRemoveEntry_zero_mem h b 2 p2tp (pageP2E v)
  dsimp only
  generalize pagingRemoveEntry b 2 p2tp (pageP2E v) s₁ = s₂ at h2 ⊢
  have h3 := pagingRemoveEntry_zero_mem h2 b 3 p3tp (pageP3E v)
  generalize pagingRemoveEntry b 3 p3tp (pageP3E v) s₂ = s₃ at h3 ⊢
  split_ifs
  · exact pagingRemoveEntry_zero_mem h3 b 4 p4tp (pageP4E v)
  · exact h3
  · exact h2
  · exact h

theorem vfreeHelper_zero_mem {x : ℕ} (h : s.mem x = 0) (v root : ℕ) (b : Bool) :
    (vfreeHelper v root b s).mem x = 0 := by
  obtain ⟨heq, -⟩ | ⟨p3tp, p2tp, p1tp, -, -, -, heq⟩ := vfreeHelper_cases v root b s
  · rw [heq, h]
  · rw [heq]
    exact vfreeUp_zero_mem (pagingRemoveEntry_zero_mem h b 1 p1tp (pageP1E v))

/-- Harm is not undone. -/
theorem Harmed.helper (h : Harmed s s' root) (v : ℕ) :
    Harmed s (vfreeHelper v root false s') root := by
  obtain ⟨x, hoff, hx, hz⟩ | ⟨fs, f, hlog, hf, hoff⟩ := h
  · exact .inl ⟨x, hoff, hx, vfreeHelper_zero_mem hz v root false⟩
  · obtain ⟨gs, hgs⟩ := vfreeHelper_frees v root false s'
    refine .inr ⟨fs ++ gs, f, ?_, List.mem_append_left gs hf, hoff⟩
    rw [hgs.log, hlog, List.map_append, List.append_assoc]

/-- It is what `BootUnmapped` excludes. -/
theorem Harmed.not_bootUnmapped (h : Harmed s s' root) : ¬BootUnmapped s s' root := by
  intro hun
  obtain ⟨x, hoff, hx, hz⟩ | ⟨fs, f, hlog, hf, hoff⟩ := h
  · exact hx ((hun.memory x hoff).symm.trans hz)
  · obtain ⟨gs, hgs, -, htables⟩ := hun.frees
    obtain rfl :=
      List.map_injective_iff.2 freed_injective (List.append_cancel_left (hlog.symm.trans hgs))
    obtain ⟨l, r, hsplit⟩ := List.append_of_mem hf
    obtain ⟨⟨p, -, hp, ht⟩, -⟩ := htables l f r hsplit
    exact hoff p hp ht

/-- An entry of an upper level is gone only if it led to a table that is empty now. -/
theorem BootCleared.upper (h : BootCleared s s' root n fs) (hp : p.length < 3)
    (ht : s.bootTable root p = some t) (i : Fin 512) : s'.entry t i = s.entry t i ∨
      s.entry t i &&& 0x81 = 1 ∧ ∀ j, s'.entry (frameOf (s.entry t i)) j = 0 := by
  obtain hsame | ⟨-, ⟨k, -, hpath⟩ | ⟨-, hempty⟩⟩ := h.entries p t i hp.le ht
  · exact .inl hsame
  · have hlast := congrArg List.length hpath
    simp only [List.length_append, List.length_singleton, pathBelow_length] at hlast
    omega
  · exact .inr hempty

/-- The entries on a walk that ends in data are still there. -/
theorem BootCleared.entry_on_walk {v : ℕ} (h : BootCleared s s' root n fs)
    (hroot : root % pageSize = 0) (hsep : SeparateWalk s root v)
    (ht : s.tableAt root (pagePath v) = some t) (hstray : s.bootTable root (pagePath v) ≠ some t)
    {q : List (Fin 512)} {u : ℕ} (hp : p ++ i :: q = pagePath v)
    (hu : s.tableAt root p = some u) : s'.entry u i = s.entry u i := by
  induction q generalizing p i u with
  | nil =>
    obtain hboot | hoff := hsep p u ⟨[i], hp⟩ hu
    swap
    · exact h.entry_off hroot hu hoff i
    have hlen : p.length < 3 := by
      rw [← pagePath_length v, ← hp, List.length_append, List.length_singleton]
      exact Nat.lt_succ_self _
    refine (h.upper hlen hboot i).resolve_right ?_
    rintro ⟨htable, -⟩
    have hchild := bootTable_concat hboot htable
    rw [hp] at hchild
    exact hstray (hchild.trans ((tableAt_of_bootTable hchild).symm.trans ht))
  | cons j q ih =>
    obtain hboot | hoff := hsep p u ⟨i :: j :: q, hp⟩ hu
    swap
    · exact h.entry_off hroot hu hoff i
    have hlen : p.length < 3 := by
      rw [← pagePath_length v, ← hp, List.length_append, List.length_cons]
      omega
    refine (h.upper hlen hboot i).resolve_right ?_
    rintro ⟨htable, hempty⟩
    -- the table that the entry led to has an entry of this walk, and is not empty
    have hchild := tableAt_of_bootTable (bootTable_concat hboot htable)
    have hnext : p ++ [i] ++ j :: q = pagePath v := by
      rw [List.append_assoc]
      exact hp
    have hzero : s.entry (frameOf (s.entry u i)) j = 0 := (ih hnext hchild).symm.trans (hempty j)
    rw [← hnext, List.append_cons] at ht
    obtain ⟨w, hw⟩ := exists_tableAt_of_append ht
    rw [tableAt_concat, entryAt_of_tableAt hchild, if_pos hzero] at hw
    cases hw

/-- `vfreeHelper` still finds the data. -/
theorem BootCleared.tableAt_of_stray {v u : ℕ} (h : BootCleared s s' root n fs)
    (hroot : root % pageSize = 0) (hsep : SeparateWalk s root v)
    (ht : s.tableAt root (pagePath v) = some t) (hstray : s.bootTable root (pagePath v) ≠ some t)
    (hp : p <+: pagePath v) (hu : s.tableAt root p = some u) : s'.tableAt root p = some u := by
  rw [← hu]
  refine tableAt_congr_walk fun q i w hq hw => ?_
  obtain ⟨l, hl⟩ := hq.trans hp
  exact h.entry_on_walk hroot hsep ht hstray ((List.append_cons q i l).trans hl) hw

/-- The first byte of a present entry is not zero. -/
theorem mem_ne_zero_of_present (h : s.entry t i &&& 1 = 1) : s.mem (t + 8 * i) ≠ 0 := by
  intro hz
  have hbit : (s.entry t i &&& 1).getLsbD 0 = false := by
    rw [BitVec.getLsbD_and, Paging.entry, Mem.getLsbD_load64 _ _ (by decide)]
    have hzero : s.mem (t + 8 * i + 0 / 8) = 0 := hz
    rw [hzero]
    rfl
  rw [h] at hbit
  exact absurd hbit (by decide)

/-- An empty frame is freed as a table if the entry that leads to it can be removed. -/
theorem vfreeUp_frees_empty (p4tp p3tp : ℕ) {v p2tp p1tp : ℕ}
    (hempty : ∀ j, s.entry p1tp j = 0) (hrem : s.Removable (s.entry p2tp (pageP2E v)))
    (hframe : frameOf (s.entry p2tp (pageP2E v)) = p1tp) :
    ∃ gs, Frees s (vfreeUp v p4tp p3tp p2tp p1tp false s) (p1tp :: gs) := by
  have hleaf : ¬s.Removable (s.entry p1tp (pageP1E v)) := by
    rw [hempty]
    exact not_removable_zero s
  rw [← hframe] at hempty
  have hlog := (pagingRemoveEntry_table false 0 hrem hempty).2
  have h2 := frees_of_log [frameOf (s.entry p2tp (pageP2E v))]
    (pagingRemoveEntry_frees false 2 p2tp (pageP2E v) s) hlog
  rw [hframe] at hempty h2
  unfold vfreeUp
  rw [pagingRemoveEntry_of_not_removable false 1 hleaf]
  dsimp only
  rw [if_neg (not_not.2 (tableEmpty_iff.2 hempty))]
  generalize pagingRemoveEntry false 2 p2tp (pageP2E v) s = s₂ at h2 ⊢
  obtain ⟨f₃, h3⟩ := pagingRemoveEntry_frees false 3 p3tp (pageP3E v) s₂
  generalize pagingRemoveEntry false 3 p3tp (pageP3E v) s₂ = s₃ at h3 ⊢
  obtain ⟨f₄, h4⟩ := pagingRemoveEntry_frees false 4 p4tp (pageP4E v) s₃
  split_ifs
  · exact ⟨_, h2.trans (h3.trans h4)⟩
  · exact ⟨_, h2.trans h3⟩
  · exact ⟨[], h2⟩

/-- **One page** whose walk ends in data that is not spared. -/
theorem BootCleared.harmed {v : ℕ} (h : BootCleared s s' root n fs) (hroot : root % pageSize = 0)
    (hsep : SeparateWalk s root v) (ht : s.tableAt root (pagePath v) = some t)
    (hstray : s.bootTable root (pagePath v) ≠ some t) (hns : ¬Spared s root t v) :
    Harmed s (vfreeHelper v root false s') root := by
  have hoff := (hsep (pagePath v) t List.prefix_rfl ht).resolve_left hstray
  have hsame := h.entry_off hroot ht hoff
  have ht' := h.tableAt_of_stray hroot hsep ht hstray List.prefix_rfl ht
  obtain ⟨-, hnone⟩ | ⟨p3tp, p2tp, p1tp, -, ht2, ht1, heq⟩ := vfreeHelper_cases v root false s'
  · rw [ht'] at hnone
    cases hnone
  obtain rfl : t = p1tp := Option.some.inj (ht'.symm.trans ht1)
  rw [heq]
  by_cases hleaf : s'.Removable (s'.entry t (pageP1E v))
  · -- a byte of the data is erased
    have hmod := tableAt_mod hroot ht
    refine .inl ⟨t + 8 * pageP1E v, fun p hp hboot => hoff p hp ?_, ?_, vfreeUp_zero_mem ?_⟩
    · rw [hboot, Option.some.injEq]
      have hlt := (pageP1E v).isLt
      simp only [alignToPage, pageSize] at hmod ⊢
      omega
    · rw [hsame] at hleaf
      exact mem_ne_zero_of_present hleaf.1
    · rw [(pagingRemoveEntry_leaf false hleaf).1.mem]
      change s'.mem.store64 _ _ _ = 0
      rw [Mem.store64, if_pos ⟨le_rfl, by omega⟩]
      exact BitVec.extractLsb'_zero
  · -- the data looks like an empty table, and its frame is freed
    have hold2 := h.tableAt hroot ht2
    have hentry : s'.entry p2tp (pageP2E v) = s.entry p2tp (pageP2E v) :=
      h.entry_on_walk hroot hsep ht hstray (p := [pageP4E v, pageP3E v]) (q := []) rfl hold2
    have hchild : s'.entry p2tp (pageP2E v) ≠ 0 ∧ frameOf (s'.entry p2tp (pageP2E v)) = t := by
      change s'.tableAt root ([pageP4E v, pageP3E v] ++ [pageP2E v]) = some t at ht1
      rw [Paging.tableAt, tableAt_concat, entryAt_of_tableAt ht2] at ht1
      split_ifs at ht1 with hz
      exact ⟨hz, Option.some.inj ht1⟩
    rw [hsame, h.removable] at hleaf
    rw [Spared, Paging.entryAt, entryAt_of_tableAt hold2, ← hentry] at hns
    push Not at hns
    obtain ⟨hrem, hfull⟩ := hns hleaf
    have hempty : ∀ j, s'.entry t j = 0 := by
      intro j
      rw [hsame]
      by_contra hj
      obtain ⟨q, hq, hboot⟩ := hfull ⟨j, hj⟩
      exact hoff q hq hboot
    obtain ⟨gs, hgs⟩ :=
      vfreeUp_frees_empty root p3tp hempty (h.removable.2 hrem) hchild.2
    have hall := h.frees.trans hgs
    exact .inr ⟨_, t, hall.log, by simp, hoff⟩

/-! ### All pages -/

/-- A change of the lock changes nothing else. -/
theorem BootCleared.withLock {c d : Bool} (h : BootCleared { s with lock := c } s' root n fs) :
    BootCleared s { s' with lock := d } root n fs where
  frees := by
    refine ⟨h.frees.log, h.frees.pmm, ?_⟩
    obtain ⟨m, pmm, lock, log, hs'⟩ := h.frees.others
    exact ⟨m, pmm, d, log, by rw [hs']⟩
  memory := h.memory
  entries := h.entries
  freed := h.freed
  nodup := h.nodup

/-- The pages below the middle of the address space do not wrap. -/
theorem add64_page {k : ℕ} (hn : n * pageSize ≤ 2 ^ 47) (hk : k < n) :
    add64 0 (k * pageSize) = k * pageSize := by
  have hlt : k * pageSize < n * pageSize := Nat.mul_lt_mul_of_pos_right hk (by decide)
  rw [add64_eq (by omega), Nat.zero_add]

/-- **The lowest pages**, whose walks are safe. -/
theorem bootCleared_vfreeCR3 (hroot : root % pageSize = 0)
    (hun : Unshared frameOf s.tableEntry root 3) (hn : n * pageSize ≤ 2 ^ 47)
    (hsafe : SafeWalks s root n) :
    ∃ fs, BootCleared s (vfreeCR3 s 0 n false root) root n fs := by
  have hloop := loop_invariant (f := fun i => vfreeHelper (add64 0 (i * pageSize)) root false)
    (n := n) (s := { s with lock := true }) (fun k s' => ∃ fs, BootCleared s s' root k fs)
    ⟨[], (BootCleared.refl s root).withLock⟩ ?_
  · obtain ⟨fs, hfs⟩ := hloop
    exact ⟨fs, hfs.withLock⟩
  · rintro k hk s' ⟨fs, hfs⟩
    rw [add64_page hn hk]
    exact hfs.helper hroot hun (hsafe k hk)

/-- The walks are safe, or harm is done. -/
theorem safeWalks_or_harmed (hroot : root % pageSize = 0)
    (hun : Unshared frameOf s.tableEntry root 3) (hn : n * pageSize ≤ 2 ^ 47)
    (hsep : ∀ k < n, SeparateWalk s root (k * pageSize)) :
    SafeWalks s root n ∨ Harmed s (vfreeCR3 s 0 n false root) root := by
  have hloop := loop_invariant (f := fun i => vfreeHelper (add64 0 (i * pageSize)) root false)
    (n := n) (s := { s with lock := true })
    (fun k s' => (SafeWalks s root k ∧ ∃ fs, BootCleared s s' root k fs) ∨ Harmed s s' root)
    (.inl ⟨fun k hk => absurd hk (Nat.not_lt_zero k), [], (BootCleared.refl s root).withLock⟩) ?_
  · exact hloop.imp_left And.left
  · rintro k hk s' (⟨hsafe, fs, hfs⟩ | hharm)
    swap
    · exact .inr (hharm.helper _)
    rw [add64_page hn hk]
    by_cases hpage : ∀ t, s.tableAt root (pagePath (k * pageSize)) = some t →
        s.bootTable root (pagePath (k * pageSize)) = some t ∨ Spared s root t (k * pageSize)
    · refine .inl ⟨fun j hj => ?_, hfs.helper hroot hun hpage⟩
      obtain hj | rfl := Nat.lt_succ_iff_lt_or_eq.1 hj
      · exact hsafe j hj
      · exact hpage
    · push Not at hpage
      obtain ⟨t, ht, hstray, hns⟩ := hpage
      exact .inr (hfs.harmed hroot (hsep k hk) ht hstray hns)

end

/-- Unmapping at boot touches only the tables if the walks to the pages of memory are safe. -/
theorem bootUnmapped_of_safeWalks {s : Paging} (h : BootTree s s.cr3) (hs : s.pmm.Sound)
    (ha : Buddy.Apart s.pmm.blocks) (hmem : s.pmm.memSize ≤ 2 ^ 47)
    (hsafe : SafeWalks s s.cr3 (s.pmm.memSize / pageSize)) :
    BootUnmapped s (initPaging s) s.cr3 := by
  have hn : s.pmm.memSize / pageSize * pageSize ≤ s.pmm.memSize := Nat.div_mul_le_self _ _
  obtain ⟨fs, hcleared⟩ := bootCleared_vfreeCR3 h.root_mod h.unshared (hn.trans hmem) hsafe
  have htable : ∀ f ∈ fs, ∃ p, p ≠ [] ∧ p.length ≤ 3 ∧ s.bootTable s.cr3 p = some f := by
    intro f hf
    obtain ⟨-, p, i, t, hp, -, hchild, -⟩ := hcleared.freed f hf
    exact ⟨p ++ [i], by simp, by simpa using hp, hchild⟩
  obtain ⟨-, -, -, hused⟩ := freeAll_spec hs ha hcleared.nodup fun f hf => by
    obtain ⟨p, hnil, hp, ht⟩ := htable f hf
    exact h.tables p f hnil hp ht (hcleared.freed f hf).1
  refine ⟨fun v hv hle => ?_, hcleared.memory, fs, hcleared.frees.log, hcleared.frees.pmm,
    fun gs f hs hsplit => ⟨htable f (by simp [hsplit]), hused gs f hs hsplit⟩⟩
  have htranslation := translation_of_bootCleared (v := v) hcleared h.top fun k hk =>
    pathBelow_ne hv ((Nat.mul_le_mul_right _ hk).trans (hn.trans hle))
      ((Nat.mul_le_mul_right _ hk).trans (hn.trans hmem))
  rw [← htranslation]
  exact translation_congr fun _ _ _ => rfl

/-- **Unmapping at boot touches only the tables** if the walks to the pages of memory are safe, and
only then as far as they take no table for another. -/
theorem initPaging_unmaps_iff {s : Paging} (h : BootTree s s.cr3) (hs : s.pmm.Sound)
    (ha : Buddy.Apart s.pmm.blocks) (hmem : s.pmm.memSize ≤ 2 ^ 47) :
    (SafeWalks s s.cr3 (s.pmm.memSize / pageSize) → BootUnmapped s (initPaging s) s.cr3) ∧
      ((∀ k < s.pmm.memSize / pageSize, SeparateWalk s s.cr3 (k * pageSize)) →
        BootUnmapped s (initPaging s) s.cr3 →
        SafeWalks s s.cr3 (s.pmm.memSize / pageSize)) := by
  refine ⟨bootUnmapped_of_safeWalks h hs ha hmem, fun hsep hunmapped => ?_⟩
  have hn : s.pmm.memSize / pageSize * pageSize ≤ 2 ^ 47 := (Nat.div_mul_le_self _ _).trans hmem
  refine (safeWalks_or_harmed h.root_mod h.unshared hn hsep).resolve_right fun hharm => ?_
  have hharmed : Harmed s (initPaging s) s.cr3 := hharm
  exact hharmed.not_bootUnmapped hunmapped

/-! ### Two trees -/

/-- The frames below the free block can be returned. -/
theorem oneBlock_used {k : ℕ} (hk : 0 < k) (hlt : k < 64) : Returnable oneBlock (0x1000 * k) ∧
    0x1000 * k / pageSize ∉ oneBlock.freePages := by
  have hbits : 128 ≤ oneBlock.bits 0 := by decide +kernel
  rw [oneBlock_freePages, Finset.mem_Ico]
  simp only [pageSize]
  exact ⟨⟨by omega, by simp only [pageSize]; omega, by simp only [pageSize]; omega⟩, by omega⟩

/-- A tree of tables whose entries are zero or lead to tables in frames below the free ones. -/
theorem oneLeaf_bootTree : BootTree oneLeaf 0x1000 := by
  refine ⟨rfl, fun p q t hp hq htp htq => ?_, fun i => ?_, fun p t hnil hp ht _ => ?_⟩
  · obtain ⟨hp', ht⟩ := oneLeaf_tableAt hp (tableAt_of_bootTable htp)
    obtain ⟨hq', ht'⟩ := oneLeaf_tableAt hq (tableAt_of_bootTable htq)
    rw [hp', hq', show p.length = q.length by omega]
  · rw [oneLeaf_entry rfl]
    split_ifs <;> rfl
  · obtain ⟨-, rfl⟩ := oneLeaf_tableAt hp (tableAt_of_bootTable ht)
    exact oneBlock_used (Nat.succ_pos _) (by omega)

/-- Tables whose entries are zero or lead to tables are tables in the processor's sense. -/
theorem bootTable_of_tableAt {s : Paging} {root t : ℕ} {p : List (Fin 512)}
    (hroot : root % pageSize = 0)
    (hentry : ∀ t, t % pageSize = 0 → ∀ i, s.entry t i = 0 ∨ s.entry t i &&& 0x81 = 1)
    (ht : s.tableAt root p = some t) : s.bootTable root p = some t := by
  induction p using List.reverseRecOn generalizing t with
  | nil => exact ht
  | append_singleton p i ih =>
    obtain ⟨u, hu⟩ : ∃ u, s.tableAt root p = some u := exists_tableAt_of_append ht
    rw [Paging.tableAt, tableAt_concat, entryAt_of_tableAt hu] at ht
    split_ifs at ht with hz
    rw [← ht]
    exact bootTable_concat (ih hu) ((hentry u (tableAt_mod hroot hu) i).resolve_left hz)

/-- The tree with one leaf, below 2 MiB of memory. -/
theorem initPaging_unmaps_iff_oneLeaf :
    BootUnmapped oneLeaf (initPaging oneLeaf) oneLeaf.cr3 := by
  have hmem : oneLeaf.pmm.memSize ≤ 2 ^ 47 := by
    change 512 * 4096 ≤ 2 ^ 47
    norm_num
  have hentry : ∀ t, t % pageSize = 0 → ∀ i, oneLeaf.entry t i = 0 ∨
      oneLeaf.entry t i &&& 0x81 = 1 := by
    intro t ht i
    rw [oneLeaf_entry ht]
    split_ifs
    all_goals first | exact .inl rfl | exact .inr rfl
  have hroot : oneLeaf.cr3 % pageSize = 0 := rfl
  exact (initPaging_unmaps_iff oneLeaf_bootTree (filledWith_supply 0).sound
    (filledWith_supply 0).apart hmem).1 fun k _ t ht => .inl (bootTable_of_tableAt hroot hentry ht)

/-- The tables at `0x1000`, `0x2000` and `0x3000` map the 2 MiB at address 0 as a large page, and
the first word there is `0x5003`. -/
def largeLeaf : Paging :=
  ((((filledWith 0).setEntry 0x1000 0 0x2003).setEntry 0x2000 0 0x3003).setEntry 0x3000 0
    0x83).setEntry 0 0 0x5003

theorem largeLeaf_entry {t : ℕ} (ht : t % pageSize = 0) (i : Fin 512) :
    largeLeaf.entry t i = if t = 0 ∧ i = 0 then 0x5003 else if t = 0x3000 ∧ i = 0 then 0x83
      else if t = 0x2000 ∧ i = 0 then 0x3003 else if t = 0x1000 ∧ i = 0 then 0x2003 else 0 := by
  rw [largeLeaf, entry_setEntry rfl ht, entry_setEntry rfl ht, entry_setEntry rfl ht,
    entry_setEntry rfl ht, filledWith_entry]
  rfl

/-- The tables of this tree. -/
theorem largeLeaf_bootTable {p : List (Fin 512)} {t : ℕ} (hp : p.length ≤ 3)
    (ht : largeLeaf.bootTable 0x1000 p = some t) :
    p = List.replicate p.length 0 ∧ t = 0x1000 * (p.length + 1) ∧ p.length ≤ 2 := by
  induction p using List.reverseRecOn generalizing t with
  | nil => exact ⟨rfl, (Option.some.inj ht).symm, Nat.zero_le 2⟩
  | append_singleton p i ih =>
    simp only [List.length_append, List.length_singleton] at hp ⊢
    obtain ⟨u, hu⟩ : ∃ u, largeLeaf.bootTable 0x1000 p = some u := exists_tableAt_of_append ht
    obtain ⟨hrep, rfl, hlen⟩ := ih (by omega) hu
    obtain ⟨htable, rfl⟩ := entry_of_bootTable hu ht
    rw [largeLeaf_entry (bootTable_mod rfl hu)] at htable ⊢
    obtain rfl : i = 0 := by
      by_contra hne
      simp [hne] at htable
    rw [List.replicate_succ', ← hrep]
    obtain h | h | h : p.length = 0 ∨ p.length = 1 ∨ p.length = 2 := by omega
    · rw [h]
      exact ⟨rfl, rfl, by omega⟩
    · rw [h]
      exact ⟨rfl, rfl, le_rfl⟩
    · rw [h] at htable
      exact absurd htable (by decide)

/-- A tree in which the entry of a large page does not lead to a table. -/
theorem largeLeaf_bootTree : BootTree largeLeaf 0x1000 := by
  refine ⟨rfl, fun p q t hp hq htp htq => ?_, fun i => ?_, fun p t hnil hp ht _ => ?_⟩
  · obtain ⟨hp', ht, -⟩ := largeLeaf_bootTable hp htp
    obtain ⟨hq', ht', -⟩ := largeLeaf_bootTable hq htq
    rw [hp', hq', show p.length = q.length by omega]
  · rw [largeLeaf_entry rfl, if_neg (by omega), if_neg (by omega)]
    split_ifs <;> rfl
  · obtain ⟨-, rfl, -⟩ := largeLeaf_bootTable hp ht
    exact oneBlock_used (Nat.succ_pos _) (by omega)

/-- `vfreeHelper` takes the large page for a level-1 table. -/
theorem largeLeaf_tableAt : largeLeaf.tableAt 0x1000 (pagePath 0) = some 0 := by
  have h4 : largeLeaf.entry 0x1000 0 = 0x2003 := by
    rw [largeLeaf_entry rfl]
    rfl
  have h3 : largeLeaf.entry 0x2000 0 = 0x3003 := by
    rw [largeLeaf_entry rfl]
    rfl
  have h2 : largeLeaf.entry 0x3000 0 = 0x83 := by
    rw [largeLeaf_entry rfl]
    rfl
  have hpath : pagePath 0 = [0, 0, 0] := rfl
  rw [hpath, Paging.tableAt, tableAt, h4, if_neg (by decide), tableAt]
  change (if largeLeaf.entry 0x2000 0 = 0 then none
    else tableAt frameOf largeLeaf.entry (frameOf (largeLeaf.entry 0x2000 0)) [0]) = some 0
  rw [h3, if_neg (by decide), tableAt]
  change (if largeLeaf.entry 0x3000 0 = 0 then none
    else tableAt frameOf largeLeaf.entry (frameOf (largeLeaf.entry 0x3000 0)) []) = some 0
  rw [h2, if_neg (by decide)]
  rfl

/-- Its first word is erased with the first page. -/
theorem largeLeaf_vfreeHelper {s : Paging} (hmem : s.mem = largeLeaf.mem)
    (hpmm : s.pmm = oneBlock) : (vfreeHelper 0 0x1000 false s).mem 0 = 0 := by
  have hentry : s.entry = largeLeaf.entry := by
    funext t i
    rw [Paging.entry, hmem, Paging.entry]
  have htable : s.tableAt 0x1000 (pagePath 0) = some 0 := by
    rw [Paging.tableAt, hentry]
    exact largeLeaf_tableAt
  obtain ⟨-, hnone⟩ | ⟨p3tp, p2tp, p1tp, -, -, ht1, heq⟩ := vfreeHelper_cases 0 0x1000 false s
  · rw [htable] at hnone
    cases hnone
  rw [heq]
  obtain rfl : p1tp = 0 := Option.some.inj (ht1.symm.trans htable)
  have hword : s.entry 0 (pageP1E 0) = 0x5003 := by
    rw [hentry, largeLeaf_entry rfl]
    rfl
  have hrem : s.Removable (s.entry 0 (pageP1E 0)) := by
    rw [hword]
    refine ⟨rfl, ?_⟩
    rw [hpmm]
    change 0x5000 < 512 * 4096
    norm_num
  refine vfreeUp_zero_mem ?_
  rw [(pagingRemoveEntry_leaf false hrem).1.mem]
  exact BitVec.extractLsb'_zero

/-- It stays erased. -/
theorem largeLeaf_loop {s : Paging} (hmem : s.mem = largeLeaf.mem) (hpmm : s.pmm = oneBlock)
    (n : ℕ) : (loop (fun i => vfreeHelper (add64 0 (i * pageSize)) 0x1000 false) (n + 1) s).mem 0 =
      0 := by
  have hfirst : add64 0 (0 * pageSize) = 0 := rfl
  induction n with
  | zero =>
    rw [loop_succ, loop_zero, hfirst]
    exact largeLeaf_vfreeHelper hmem hpmm
  | succ n ih => exact vfreeHelper_zero_mem ih _ _ _

/-- What `initPaging` does to memory. -/
theorem initPaging_mem (s : Paging) : (initPaging s).mem =
    (loop (fun i => vfreeHelper (add64 0 (i * pageSize)) s.cr3 false)
      (s.pmm.memSize / pageSize) { s with lock := true }).mem := rfl

/-- **The data of a large page is erased**: after the boot loader mapped the lowest 2 MiB as one
page, the byte at address 0, which lies in none of its tables, is lost. -/
theorem initPaging_clears_data : BootTree largeLeaf largeLeaf.cr3 ∧ largeLeaf.pmm.Sound ∧
    Buddy.Apart largeLeaf.pmm.blocks ∧ largeLeaf.pmm.memSize ≤ 2 ^ 47 ∧
    ¬BootUnmapped largeLeaf (initPaging largeLeaf) largeLeaf.cr3 := by
  have hmem : largeLeaf.pmm.memSize ≤ 2 ^ 47 := by
    change 512 * 4096 ≤ 2 ^ 47
    norm_num
  refine ⟨largeLeaf_bootTree, (filledWith_supply 0).sound, (filledWith_supply 0).apart, hmem,
    fun h => ?_⟩
  have hkept : (initPaging largeLeaf).mem 0 = largeLeaf.mem 0 := by
    refine h.memory 0 fun p hp ht => ?_
    obtain ⟨-, hzero, -⟩ := largeLeaf_bootTable hp ht
    change 0 = 0x1000 * (p.length + 1) at hzero
    omega
  have hlost : (initPaging largeLeaf).mem 0 = 0 := by
    obtain ⟨n, hn⟩ : ∃ n, largeLeaf.pmm.memSize / pageSize = n + 1 := ⟨511, rfl⟩
    rw [initPaging_mem, hn]
    exact largeLeaf_loop (s := { largeLeaf with lock := true }) rfl rfl n
  have hword : largeLeaf.mem 0 = 3 := rfl
  rw [hlost, hword] at hkept
  exact absurd hkept (by decide)

end AnglOS
