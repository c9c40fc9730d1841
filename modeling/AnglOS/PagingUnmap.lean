import AnglOS.PagingFree

/-!
# Unmapping Ranges

`vfreeHelper` and `vfreeCR3` as a whole: the calls of `pfree` they make, in order, and what they
leave of the tree. The frames that are returned are known from the parts of the unmapping;
if they are distinct and not free already, the allocator takes them back one by one.

* `Frees` — the allocator changed by the recorded calls of `pfree` alone.
* `freeAll_spec`, `Supply.frees` — returning distinct frames that are not free.
* `vfreeHelper_pruned`, `vfreeCR3_unmaps` — one page, and a range.

## Main results

`vfree_exact`: in a tree whose tables are all in use, unmapping a range removes exactly the
translations of its pages, leaves no empty table, and returns each leaf and each table that
became empty exactly once.
-/

namespace AnglOS

open Pmm

/-! ### The calls of `pfree` -/

/-- The allocator after `pfree` of each of the frames, in order. -/
def freeAll (pmm : Pmm) (fs : List ℕ) : Pmm := fs.foldl (fun pmm f => pfree pmm f 1) pmm

/-- The allocator changed by the recorded calls of `pfree` alone, and the cache and the roots did
not change. -/
structure Frees (s s' : Paging) (fs : List ℕ) : Prop where
  log : s'.log = s.log ++ fs.map .freed
  pmm : s'.pmm = freeAll s.pmm fs
  others : ∃ m pmm lock log, s' = { s with mem := m, pmm := pmm, lock := lock, log := log }

theorem Frees.refl (s : Paging) : Frees s s [] :=
  ⟨(List.append_nil _).symm, rfl, _, _, _, _, rfl⟩

theorem Frees.trans {s s₁ s₂ : Paging} {fs gs : List ℕ} (h₁ : Frees s s₁ fs)
    (h₂ : Frees s₁ s₂ gs) : Frees s s₂ (fs ++ gs) where
  log := by rw [h₂.log, h₁.log, List.map_append, List.append_assoc]
  pmm := by rw [h₂.pmm, h₁.pmm, freeAll, freeAll, freeAll, List.foldl_append]
  others := by
    obtain ⟨m₁, pmm₁, lock₁, log₁, rfl⟩ := h₁.others
    obtain ⟨m₂, pmm₂, lock₂, log₂, rfl⟩ := h₂.others
    exact ⟨m₂, pmm₂, lock₂, log₂, rfl⟩

theorem frees_free (s : Paging) (f : ℕ) : Frees s (s.free f) [f] :=
  ⟨rfl, rfl, _, _, _, _, rfl⟩

theorem frees_setEntry (s : Paging) (t : ℕ) (i : Fin 512) (e : BitVec 64) :
    Frees s (s.setEntry t i e) [] :=
  ⟨(List.append_nil _).symm, rfl, _, _, _, _, rfl⟩

/-- A loop of parts. -/
theorem frees_loop {body : ℕ → Paging → Paging} (h : ∀ k s, ∃ fs, Frees s (body k s) fs) (n : ℕ)
    (s : Paging) : ∃ fs, Frees s (loop body n s) fs := by
  refine loop_invariant (fun _ s' => ∃ fs, Frees s s' fs) ⟨[], Frees.refl s⟩ ?_
  rintro j - s' ⟨fs, hfs⟩
  obtain ⟨gs, hgs⟩ := h j s'
  exact ⟨_, hfs.trans hgs⟩

theorem pagingRemoveEntry_frees (b : Bool) (level t : ℕ) (i : Fin 512) (s : Paging) :
    ∃ fs, Frees s (pagingRemoveEntry b level t i s) fs := by
  induction level generalizing t i s with
  | zero => exact ⟨[], Frees.refl s⟩
  | succ level ih =>
      rw [pagingRemoveEntry]
      dsimp only
      split_ifs
      · exact ⟨[], Frees.refl s⟩
      · exact ⟨[], Frees.refl s⟩
      · exact ⟨_, (frees_free s _).trans (frees_setEntry _ t i 0)⟩
      · exact ⟨_, frees_setEntry s t i 0⟩
      · obtain ⟨fs, hfs⟩ := frees_loop
          (fun k s' => ih (frameOf (s.entry t i)) (Fin.ofNat 512 k) s') 512 s
        exact ⟨_, (hfs.trans (frees_free _ _)).trans (frees_setEntry _ t i 0)⟩

theorem vfreeUp_frees (v p4tp p3tp p2tp p1tp : ℕ) (b : Bool) (s : Paging) :
    ∃ fs, Frees s (vfreeUp v p4tp p3tp p2tp p1tp b s) fs := by
  obtain ⟨f₁, h₁⟩ := pagingRemoveEntry_frees b 1 p1tp (pageP1E v) s
  unfold vfreeUp
  generalize pagingRemoveEntry b 1 p1tp (pageP1E v) s = s₁ at h₁ ⊢
  obtain ⟨f₂, h₂⟩ := pagingRemoveEntry_frees b 2 p2tp (pageP2E v) s₁
  dsimp only
  generalize pagingRemoveEntry b 2 p2tp (pageP2E v) s₁ = s₂ at h₂ ⊢
  obtain ⟨f₃, h₃⟩ := pagingRemoveEntry_frees b 3 p3tp (pageP3E v) s₂
  generalize pagingRemoveEntry b 3 p3tp (pageP3E v) s₂ = s₃ at h₃ ⊢
  obtain ⟨f₄, h₄⟩ := pagingRemoveEntry_frees b 4 p4tp (pageP4E v) s₃
  split_ifs
  · exact ⟨_, h₁.trans (h₂.trans (h₃.trans h₄))⟩
  · exact ⟨_, h₁.trans (h₂.trans h₃)⟩
  · exact ⟨_, h₁.trans h₂⟩
  · exact ⟨_, h₁⟩

/-- A frame that `pfree` can take back: an address of a managed page. -/
structure Returnable (pmm : Pmm) (f : ℕ) : Prop where
  ne_zero : f ≠ 0
  aligned : f % pageSize = 0
  managed : f / pageSize < pmm.bits 0

/-- One call of `pfree` on a frame that is not free. -/
theorem pfree_one {pmm : Pmm} (hs : pmm.Sound) (ha : Buddy.Apart pmm.blocks) {f : ℕ}
    (hf : Returnable pmm f) (hfree : f / pageSize ∉ pmm.freePages) :
    (pfree pmm f 1).Sound ∧ Buddy.Apart (pfree pmm f 1).blocks ∧
      ∀ p, p ∈ (pfree pmm f 1).freePages ↔ p ∈ pmm.freePages ∨ p * pageSize = f := by
  have hrange : range f 1 = {f / pageSize} := by
    ext p
    rw [range, Finset.mem_Ico, Finset.mem_singleton]
    omega
  have hclient : (⟨pmm, {f / pageSize}⟩ : Client).Ok :=
    ⟨hs, ha, Finset.disjoint_singleton_left.mpr hfree⟩
  have hstep : Client.step (.pfree f 1) ⟨pmm, {f / pageSize}⟩ _ :=
    ⟨fun _ p hp => by
      rw [hrange, Finset.mem_singleton] at hp
      rw [hp]
      exact ⟨hf.managed, hfree, Finset.mem_singleton_self _⟩, rfl⟩
  have hok := hclient.step hstep
  obtain ⟨hpages, -⟩ := pfree_freePages hs ha hf.ne_zero Nat.one_ne_zero hf.managed
    (by rw [hrange]; exact Finset.disjoint_singleton_right.mpr hfree)
  refine ⟨hok.sound, hok.apart, fun p => ?_⟩
  rw [hpages, hrange, Finset.mem_union, Finset.mem_singleton]
  have hal := hf.aligned
  simp only [pageSize] at hal ⊢
  refine or_congr_right ⟨fun h => ?_, fun h => ?_⟩ <;> omega

theorem static_freeAll (pmm : Pmm) (fs : List ℕ) : pmm.Static (freeAll pmm fs) := by
  induction fs generalizing pmm with
  | nil => exact Static.refl pmm
  | cons f fs ih => exact (static_pfree pmm f 1).trans (ih _)

/-- **Returning distinct frames that are not free**: each call finds its frame not free, and
exactly these frames become free. -/
theorem freeAll_spec {pmm : Pmm} (hs : pmm.Sound) (ha : Buddy.Apart pmm.blocks) {fs : List ℕ}
    (hnodup : fs.Nodup) (hfs : ∀ f ∈ fs, Returnable pmm f ∧ f / pageSize ∉ pmm.freePages) :
    (freeAll pmm fs).Sound ∧ Buddy.Apart (freeAll pmm fs).blocks ∧
      (∀ p, p ∈ (freeAll pmm fs).freePages ↔ p ∈ pmm.freePages ∨ p * pageSize ∈ fs) ∧
      ∀ gs f hs, fs = gs ++ f :: hs → f / pageSize ∉ (freeAll pmm gs).freePages := by
  induction fs generalizing pmm with
  | nil =>
      refine ⟨hs, ha, fun p => by simp [freeAll], fun gs f hs heq => ?_⟩
      simp at heq
  | cons f fs ih =>
      obtain ⟨hf, hfree⟩ := hfs f (by simp)
      obtain ⟨hs₁, ha₁, hpages⟩ := pfree_one hs ha hf hfree
      have hstatic := static_pfree pmm f 1
      obtain ⟨hs₂, ha₂, hpages₂, hlast⟩ := ih hs₁ ha₁ (List.nodup_cons.mp hnodup).2 fun g hg => by
        obtain ⟨hret, hgfree⟩ := hfs g (List.mem_cons_of_mem f hg)
        refine ⟨⟨hret.ne_zero, hret.aligned, hstatic.bits 0 ▸ hret.managed⟩, fun hmem => ?_⟩
        rcases (hpages _).mp hmem with hmem | hgf
        · exact hgfree hmem
        · rw [Nat.div_mul_cancel (Nat.dvd_of_mod_eq_zero hret.aligned)] at hgf
          exact (List.nodup_cons.mp hnodup).1 (hgf ▸ hg)
      refine ⟨hs₂, ha₂, fun p => ?_, fun gs g hs heq => ?_⟩
      · have hfold : freeAll pmm (f :: fs) = freeAll (pfree pmm f 1) fs := rfl
        rw [hfold, hpages₂ p, hpages p, List.mem_cons, or_assoc]
      · cases gs with
        | nil =>
            obtain ⟨rfl, -⟩ := List.cons.inj heq
            exact hfree
        | cons g' gs =>
            obtain ⟨rfl, htail⟩ := List.cons.inj heq
            exact hlast gs g hs htail

/-- **Returning frames keeps the supply in order.** -/
theorem Supply.frees {s s' : Paging} {fs : List ℕ} (h : Supply s) (hf : Frees s s' fs)
    (hnodup : fs.Nodup)
    (hfs : ∀ f ∈ fs, Returnable s.pmm f ∧ f < 2 ^ 52 ∧ f ∉ s.unissued) :
    Supply s' ∧ s'.unissued = s.unissued ∪ {f | f ∈ fs} := by
  obtain ⟨hs, ha, hpages, -⟩ := freeAll_spec h.sound h.apart hnodup fun f hf => by
    obtain ⟨hret, -, hiss⟩ := hfs f hf
    refine ⟨hret, fun hmem => hiss (Or.inr ⟨_, hmem, ?_⟩)⟩
    exact (Nat.div_mul_cancel (Nat.dvd_of_mod_eq_zero hret.aligned)).symm
  obtain ⟨m, pmm, lock, log, rfl⟩ := hf.others
  obtain rfl : pmm = freeAll s.pmm fs := hf.pmm
  have hunissued : Paging.unissued { s with
        mem := m, pmm := freeAll s.pmm fs, lock := lock, log := log }
      = s.unissued ∪ {f | f ∈ fs} := by
    ext f
    constructor
    · rintro (hcache | ⟨p, hp, rfl⟩)
      · exact Or.inl (Or.inl hcache)
      · rcases (hpages p).mp hp with hp | hp
        · exact Or.inl (Or.inr ⟨p, hp, rfl⟩)
        · exact Or.inr hp
    · rintro ((hcache | ⟨p, hp, rfl⟩) | hmem)
      · exact Or.inl hcache
      · exact Or.inr ⟨p, (hpages p).mpr (Or.inl hp), rfl⟩
      · have hal := (hfs f hmem).1.aligned
        have heq : f / pageSize * pageSize = f :=
          Nat.div_mul_cancel (Nat.dvd_of_mod_eq_zero hal)
        exact Or.inr ⟨f / pageSize, (hpages _).mpr (Or.inr (heq.symm ▸ hmem)), heq.symm⟩
  refine ⟨⟨hs, ha, h.curr_le, h.inj, ?_, ?_, ?_⟩, hunissued⟩
  · intro i hi hi' p hp heq
    rcases (hpages p).mp hp with hp | hp
    · exact h.cached i hi hi' p hp heq
    · exact (hfs _ hp).2.2 (Or.inl ⟨i, hi, hi', heq.symm⟩)
  · intro f hf
    rw [hunissued] at hf
    rcases hf with hf | hf
    · exact h.aligned f hf
    · exact (hfs f hf).1.aligned
  · intro f hf
    rw [hunissued] at hf
    rcases hf with hf | hf
    · exact h.lt f hf
    · exact (hfs f hf).2.1

/-- `vfreeHelper` walks down and then works upwards. -/
theorem vfreeHelper_cases (v root : ℕ) (b : Bool) (s : Paging) :
    (vfreeHelper v root b s = s ∧ s.tableAt root (pagePath v) = none) ∨
      ∃ p3tp p2tp p1tp, s.tableAt root [pageP4E v] = some p3tp ∧
        s.tableAt root [pageP4E v, pageP3E v] = some p2tp ∧
        s.tableAt root (pagePath v) = some p1tp ∧
        vfreeHelper v root b s = vfreeUp v root p3tp p2tp p1tp b s := by
  unfold vfreeHelper
  by_cases h4 : s.entry root (pageP4E v) = 0
  · rw [if_pos h4]
    exact Or.inl ⟨rfl, by rw [pagePath, Paging.tableAt, tableAt, if_pos h4]⟩
  rw [if_neg h4]
  by_cases h3 : s.entry (frameOf (s.entry root (pageP4E v))) (pageP3E v) = 0
  · rw [if_pos h3]
    exact Or.inl ⟨rfl, by rw [pagePath, Paging.tableAt, tableAt, if_neg h4, tableAt, if_pos h3]⟩
  rw [if_neg h3]
  by_cases h2 : s.entry (frameOf (s.entry (frameOf (s.entry root (pageP4E v))) (pageP3E v)))
      (pageP2E v) = 0
  · rw [if_pos h2]
    exact Or.inl ⟨rfl, by
      rw [pagePath, Paging.tableAt, tableAt, if_neg h4, tableAt, if_neg h3, tableAt, if_pos h2]⟩
  rw [if_neg h2]
  refine Or.inr ⟨frameOf (s.entry root (pageP4E v)),
    frameOf (s.entry (frameOf (s.entry root (pageP4E v))) (pageP3E v)),
    frameOf (s.entry (frameOf (s.entry (frameOf (s.entry root (pageP4E v))) (pageP3E v)))
      (pageP2E v)), ?_, ?_, ?_, ?_⟩
  · rw [Paging.tableAt, tableAt, if_neg h4, tableAt]
  · rw [Paging.tableAt, tableAt, if_neg h4, tableAt, if_neg h3, tableAt]
  · rw [pagePath, Paging.tableAt, tableAt, if_neg h4, tableAt, if_neg h3, tableAt, if_neg h2,
      tableAt]
  · unfold vfreeUp
    rfl

/-- **`vfreeHelper`** unmaps its page. -/
theorem vfreeHelper_pruned {s : Paging} {root : ℕ} (v : ℕ) (b : Bool) (hroot : root % pageSize = 0)
    (hun : Unshared frameOf s.entry root 3) :
    Pruned s (vfreeHelper v root b s) root b v [] := by
  rcases vfreeHelper_cases v root b s with ⟨heq, hnone⟩ | ⟨p3tp, p2tp, p1tp, ht3, ht2, ht1, heq⟩
  · rw [heq]
    refine ⟨unmaps_absent b hun ?_, fun _ _ => rfl, fun _ hd => hd, fun _ _ => rfl⟩
    rw [Paging.leaf, Paging.entryAt, entryAt_of_tableAt_none hnone]
    exact not_removable_zero s
  · rw [heq]
    exact vfreeUp_pruned b hroot hun ht3 ht2 ht1

/-- The calls of `pfree` in `vfreeHelper`. -/
theorem vfreeHelper_frees (v root : ℕ) (b : Bool) (s : Paging) :
    ∃ fs, Frees s (vfreeHelper v root b s) fs := by
  rcases vfreeHelper_cases v root b s with ⟨heq, -⟩ | ⟨p3tp, p2tp, p1tp, -, -, -, heq⟩
  · rw [heq]
    exact ⟨[], Frees.refl s⟩
  · rw [heq]
    exact vfreeUp_frees v root p3tp p2tp p1tp b s

/-- The calls of `pfree` in `vfreeCR3`. -/
theorem vfreeCR3_frees (s : Paging) (v n : ℕ) (b : Bool) (root : ℕ) :
    ∃ fs, Frees s (vfreeCR3 s v n b root) fs := by
  obtain ⟨fs, hfs⟩ := frees_loop
    (fun i s => vfreeHelper_frees (add64 v (i * pageSize)) root b s) n { s with lock := true }
  refine ⟨fs, hfs.log, hfs.pmm, ?_⟩
  obtain ⟨m, pmm, lock, log, hs'⟩ := hfs.others
  exact ⟨m, pmm, false, log, by rw [vfreeCR3, hs']⟩

/-! ### Ranges -/

/-- The numbers of the pages of a range. -/
def rangePages (v n : ℕ) : Finset ℕ :=
  (Finset.range n).image fun i => pageNumber (add64 v (i * pageSize))

theorem mem_rangePages {v n k : ℕ} :
    k ∈ rangePages v n ↔ ∃ i < n, pageNumber (add64 v (i * pageSize)) = k := by
  simp [rangePages]

theorem rangePages_succ (v n : ℕ) :
    rangePages v (n + 1) = rangePages v n ∪ {pageNumber (add64 v (n * pageSize))} := by
  rw [rangePages, Finset.range_add_one, Finset.image_insert, Finset.union_comm]
  rfl

theorem pageNumber_of_mem_rangePages {v n k : ℕ} (h : k ∈ rangePages v n) :
    pageNumber (k * pageSize) = k := by
  obtain ⟨i, -, rfl⟩ := mem_rangePages.mp h
  exact pageNumber_mul_pageSize _

/-- A change of the lock changes nothing else. -/
theorem Unmaps.withLock {s s' : Paging} {root : ℕ} {b c d : Bool} {W : Finset ℕ}
    (h : Unmaps { s with lock := c } s' root b W) : Unmaps s { s' with lock := d } root b W where
  unshared := h.unshared
  entries := h.entries
  leaf := h.leaf
  tables := h.tables
  emptied := h.emptied
  frame := h.frame
  static := h.static
  others := by
    obtain ⟨m, pmm, lock, log, hs'⟩ := h.others
    exact ⟨m, pmm, d, log, by rw [hs']⟩
  count := h.count

/-- **`vfreeCR3`** unmaps the pages of its range, and leaves no empty table if there was none and
every entry of a table can be removed. -/
theorem vfreeCR3_unmaps {s : Paging} {root : ℕ} (v n : ℕ) (b : Bool)
    (hroot : root % pageSize = 0) (hun : Unshared frameOf s.entry root 3) :
    Unmaps s (vfreeCR3 s v n b root) root b (rangePages v n) ∧
      (Regular s root → DenseBut s root [] → DenseBut (vfreeCR3 s v n b root) root []) := by
  have hlock : Unshared frameOf { s with lock := true }.entry root 3 := hun
  have hloop := loop_invariant
    (f := fun i => vfreeHelper (add64 v (i * pageSize)) root b) (n := n)
    (s := { s with lock := true })
    (fun j s' => Unmaps { s with lock := true } s' root b (rangePages v j) ∧
      (Regular s root → DenseBut s root [] → DenseBut s' root []))
    ⟨Unmaps.refl hlock b, fun _ hd => hd⟩ ?_
  · exact ⟨hloop.1.withLock, hloop.2⟩
  · rintro j - s' ⟨hunmaps, hdense⟩
    have hpage := vfreeHelper_pruned (add64 v (j * pageSize)) b hroot hunmaps.unshared
    refine ⟨?_, fun hreg hd => hpage.dense (hunmaps.regular hreg) (hdense hreg hd)⟩
    rw [rangePages_succ]
    exact hunmaps.trans hroot hlock hpage.unmaps (fun k hk => pageNumber_of_mem_rangePages hk)
      fun k hk => by rw [Finset.mem_singleton.mp hk, pageNumber_mul_pageSize]

/-- A tree of 4 KiB leaves: tables are aligned and referenced once, entries that are not zero
are present and point into memory, and below the root no table is empty. -/
structure FullTree (s : Paging) (root : ℕ) : Prop where
  root_mod : root % pageSize = 0
  unshared : Unshared frameOf s.entry root 3
  present : ∀ p i, p.length ≤ 3 → s.entryAt root p i ≠ 0 → s.entryAt root p i &&& 1 = 1
  below : ∀ p i, p.length ≤ 3 → s.entryAt root p i ≠ 0 →
    frameOf (s.entryAt root p i) < s.pmm.memSize
  full : ∀ p t, p ≠ [] → p.length ≤ 3 → s.tableAt root p = some t → ∃ i, s.entry t i ≠ 0

theorem FullTree.removable {s : Paging} {root : ℕ} (h : FullTree s root) {p : List (Fin 512)}
    {i : Fin 512} (hp : p.length ≤ 3) (hne : s.entryAt root p i ≠ 0) :
    s.Removable (s.entryAt root p i) :=
  ⟨h.present p i hp hne, h.below p i hp hne⟩

theorem FullTree.regular {s : Paging} {root : ℕ} (h : FullTree s root) : Regular s root :=
  fun _ _ hp hne => h.removable hp.le hne

/-- The frame `f` is a table below the root that has no entry after. -/
def BecameEmpty (s s' : Paging) (root f : ℕ) : Prop :=
  ∃ p, p ≠ [] ∧ p.length ≤ 3 ∧ s.tableAt root p = some f ∧ ∀ i, s'.entry f i = 0

/-- The tables that are gone are those that became empty. -/
theorem gone_iff_becameEmpty {s s' : Paging} {root f : ℕ} {b : Bool} {W : Finset ℕ}
    (h : Unmaps s s' root b W) (hd : DenseBut s' root []) :
    Gone s s' root f ↔ BecameEmpty s s' root f := by
  constructor
  · rintro ⟨p, hp, ht, hgone⟩
    refine ⟨p, ?_, hp, ht, h.emptied p f hp ht hgone⟩
    rintro rfl
    cases hgone
  · rintro ⟨p, hnil, hp, ht, hempty⟩
    refine ⟨p, hp, ht, ?_⟩
    cases ht' : s'.tableAt root p with
    | none => rfl
    | some t =>
        have htt := h.tables p t hp ht'
        rw [ht] at htt
        rw [← Option.some.inj htt] at ht'
        obtain ⟨i, hi⟩ := hd p f hnil hnil hp ht'
        exact absurd (hempty i) hi

/-- The pages of a set that translate to a frame. -/
def framePages (s : Paging) (root : ℕ) (W : Finset ℕ) (f : ℕ) : Finset ℕ :=
  W.filter fun k => (s.walk root (k * pageSize)).map Prod.fst = some f

theorem FullTree.leafPages_eq {s : Paging} {root : ℕ} (h : FullTree s root) (W : Finset ℕ)
    (f : ℕ) : s.leafPages root W f = framePages s root W f := by
  rw [Paging.leafPages, framePages]
  refine Finset.filter_congr fun k _ => ?_
  by_cases hz : s.leaf root (k * pageSize) = 0
  · simp [Paging.walk, hz]
  · rw [Paging.walk, if_neg hz, Option.map_some, Option.some.injEq]
    exact and_iff_right (h.removable le_rfl hz)

/-- A tree with one leaf: the tables at `0x1000`, `0x2000`, `0x3000` and `0x4000` lead to the
frame `0x5000`. -/
def oneLeaf : Paging :=
  ((((filledWith 0).setEntry 0x1000 0 0x2003).setEntry 0x2000 0 0x3003).setEntry 0x3000 0
    0x4003).setEntry 0x4000 0 0x5003

theorem oneLeaf_entry {t : ℕ} (ht : t % pageSize = 0) (i : Fin 512) :
    oneLeaf.entry t i = if t = 0x4000 ∧ i = 0 then 0x5003 else if t = 0x3000 ∧ i = 0 then 0x4003
      else if t = 0x2000 ∧ i = 0 then 0x3003 else if t = 0x1000 ∧ i = 0 then 0x2003 else 0 := by
  rw [oneLeaf, entry_setEntry rfl ht, entry_setEntry rfl ht, entry_setEntry rfl ht,
    entry_setEntry rfl ht, filledWith_entry]
  rfl

/-- The tables of this tree. -/
theorem oneLeaf_tableAt {p : List (Fin 512)} {t : ℕ} (hp : p.length ≤ 3)
    (ht : oneLeaf.tableAt 0x1000 p = some t) :
    p = List.replicate p.length 0 ∧ t = 0x1000 * (p.length + 1) := by
  induction p using List.reverseRecOn generalizing t with
  | nil => exact ⟨rfl, (Option.some.inj ht).symm⟩
  | append_singleton p i ih =>
      simp only [List.length_append, List.length_singleton] at hp
      obtain ⟨u, hu⟩ := exists_tableAt_of_append ht
      obtain ⟨hrep, hu'⟩ := ih (by omega) hu
      rw [Paging.tableAt, tableAt_concat, entryAt_of_tableAt hu, hu',
        oneLeaf_entry (by simp only [pageSize]; omega)] at ht
      have hi : i = 0 := by
        by_contra hne
        simp [hne] at ht
      have hlen : p.length = 0 ∨ p.length = 1 ∨ p.length = 2 := by omega
      constructor
      · rw [List.length_append, List.length_singleton, List.replicate_succ', ← hrep, hi]
      · rw [hi] at ht
        rw [List.length_append, List.length_singleton]
        rcases hlen with h | h | h <;> rw [h] at ht ⊢ <;> exact (Option.some.inj ht).symm

theorem oneLeaf_fullTree : FullTree oneLeaf 0x1000 := by
  have hentry : ∀ p i, p.length ≤ 3 → oneLeaf.entryAt 0x1000 p i ≠ 0 →
      oneLeaf.entryAt 0x1000 p i ∈ ({0x5003, 0x4003, 0x3003, 0x2003} : Set (BitVec 64)) := by
    intro p i hp hne
    obtain ⟨t, ht, hent⟩ := exists_tableAt_of_entryAt_ne hne
    rw [Paging.entryAt, ← hent] at hne ⊢
    rw [oneLeaf_entry (tableAt_mod rfl ht)] at hne ⊢
    split_ifs at hne ⊢ <;> simp_all
  refine ⟨rfl, fun p q t hp hq htp htq => ?_, fun p i hp hne => ?_, fun p i hp hne => ?_,
    fun p t hnil hp ht => ?_⟩
  · obtain ⟨hp', ht'⟩ := oneLeaf_tableAt hp htp
    obtain ⟨hq', ht''⟩ := oneLeaf_tableAt hq htq
    rw [hp', hq', show p.length = q.length by omega]
  · rcases hentry p i hp hne with h | h | h | h <;> rw [h] <;> decide
  · rcases hentry p i hp hne with h | h | h | h <;> rw [h] <;> decide
  · obtain ⟨-, rfl⟩ := oneLeaf_tableAt hp ht
    have hlen : p.length ≠ 0 := fun h => hnil (List.length_eq_zero_iff.mp h)
    refine ⟨0, ?_⟩
    rw [oneLeaf_entry (tableAt_mod rfl ht)]
    have hcases : p.length = 1 ∨ p.length = 2 ∨ p.length = 3 := by omega
    rcases hcases with h | h | h <;> rw [h] <;> decide

open Classical in
/-- The calls of `pfree` on a frame: one for each page of the range that translated to it, if leaves
are to be freed, and one if it is a table that became empty. -/
theorem FullTree.count_freed {s : Paging} {root : ℕ} (h : FullTree s root) (v n : ℕ)
    (doPfree : Bool) (f : ℕ) :
    (vfreeCR3 s v n doPfree root).log.count (.freed f) = s.log.count (.freed f) +
      ((if doPfree then (framePages s root (rangePages v n) f).card else 0) +
        if BecameEmpty s (vfreeCR3 s v n doPfree root) root f then 1 else 0) := by
  obtain ⟨hunmaps, hdense⟩ := vfreeCR3_unmaps v n doPfree h.root_mod h.unshared
  have hd := hdense h.regular fun p t hnil _ hp ht => h.full p t hnil hp ht
  rw [hunmaps.count f, returns, h.leafPages_eq]
  simp only [gone_iff_becameEmpty hunmaps hd]

/-- Mapping a page in a level-1 table of the tree to a frame of memory. -/
theorem FullTree.setLeaf {s : Paging} {root t v : ℕ} {e : BitVec 64} (h : FullTree s root)
    (ht : s.tableAt root (pagePath v) = some t) (hpres : e &&& 1 = 1)
    (hlt : frameOf e < s.pmm.memSize) : FullTree (s.setEntry t (pageP1E v) e) root := by
  have htmod : t % pageSize = 0 := tableAt_mod h.root_mod ht
  obtain ⟨htab, hent, hleaf⟩ := setLeaf_walks h.root_mod h.unshared ht e
  have hne : e ≠ 0 := by
    rintro rfl
    exact absurd hpres (by decide)
  have hcases : ∀ p i, p.length ≤ 3 →
      (s.setEntry t (pageP1E v) e).entryAt root p i = e ∨
        (s.setEntry t (pageP1E v) e).entryAt root p i = s.entryAt root p i := by
    intro p i hp
    by_cases hpi : p = pagePath v ∧ i = pageP1E v
    · obtain ⟨rfl, rfl⟩ := hpi
      exact Or.inl ((hleaf v).trans (if_pos rfl))
    · exact Or.inr (hent p i hp hpi)
  refine ⟨h.root_mod, fun p q u hp hq hu hu' => ?_, fun p i hp hz => ?_, fun p i hp hz => ?_,
    fun p u hnil hp hu => ?_⟩
  · exact h.unshared p q u hp hq ((htab p hp).symm.trans hu) ((htab q hq).symm.trans hu')
  · rcases hcases p i hp with heq | heq <;> rw [heq] at hz ⊢
    · exact hpres
    · exact h.present p i hp hz
  · rcases hcases p i hp with heq | heq <;> rw [heq] at hz ⊢
    · exact hlt
    · exact h.below p i hp hz
  · rw [htab p hp] at hu
    obtain ⟨i, hi⟩ := h.full p u hnil hp hu
    refine ⟨i, ?_⟩
    rw [entry_setEntry htmod (tableAt_mod h.root_mod hu)]
    split_ifs
    · exact hne
    · exact hi

open Classical in
/-- **Unmapping is exact and reclaims exactly the empty tables.** In a tree of 4 KiB leaves with
no empty table below the root, after `vfreeCR3` of any range: no page of the range is
translated, every other page translates as before, the tree is of the same kind and has no
empty table below the root, and `pfree` was called on each frame once for each page of the range
that translated to it, if leaves are to be freed, and once if it is a table that became
empty. -/
theorem vfree_exact {s : Paging} {root : ℕ} (h : FullTree s root) (v n : ℕ) (doPfree : Bool) :
    (∀ i < n, (vfreeCR3 s v n doPfree root).walk root (add64 v (i * pageSize)) = none) ∧
    (∀ w, (∀ i < n, pageNumber w ≠ pageNumber (add64 v (i * pageSize))) →
      (vfreeCR3 s v n doPfree root).walk root w = s.walk root w) ∧
    FullTree (vfreeCR3 s v n doPfree root) root ∧
    ∀ f, (vfreeCR3 s v n doPfree root).log.count (.freed f) = s.log.count (.freed f) +
      ((if doPfree then (framePages s root (rangePages v n) f).card else 0) +
        if BecameEmpty s (vfreeCR3 s v n doPfree root) root f then 1 else 0) := by
  obtain ⟨hunmaps, hdense⟩ := vfreeCR3_unmaps v n doPfree h.root_mod h.unshared
  have hd := hdense h.regular fun p t hnil _ hp ht => h.full p t hnil hp ht
  have hreg : ∀ p i, p.length ≤ 3 → (vfreeCR3 s v n doPfree root).entryAt root p i ≠ 0 →
      (vfreeCR3 s v n doPfree root).Removable ((vfreeCR3 s v n doPfree root).entryAt root p i) :=
    fun p i hp => hunmaps.entry_removable hp (h.removable hp)
  refine ⟨fun i hi => ?_, fun w hw => walk_congr ?_, ?_, h.count_freed v n doPfree⟩
  · rw [Paging.walk, if_pos]
    rw [hunmaps.leaf]
    split_ifs with hc
    · rfl
    · by_contra hz
      exact hc ⟨mem_rangePages.mpr ⟨i, hi, rfl⟩, h.removable le_rfl hz⟩
  · rw [hunmaps.leaf, if_neg]
    rintro ⟨hmem, -⟩
    obtain ⟨i, hi, heq⟩ := mem_rangePages.mp hmem
    exact hw i hi heq.symm
  · exact ⟨h.root_mod, hunmaps.unshared, fun p i hp hne => (hreg p i hp hne).1,
      fun p i hp hne => (hreg p i hp hne).2, fun p t hnil hp ht => hd p t hnil hnil hp ht⟩

/-- The page 0 of the tree with one leaf is unmapped, and its frame and the tables are
returned. -/
theorem vfree_exact_oneLeaf : FullTree oneLeaf 0x1000 ∧
    FullTree (vfreeCR3 oneLeaf 0 1 true 0x1000) 0x1000 ∧
    (vfreeCR3 oneLeaf 0 1 true 0x1000).walk 0x1000 0 = none :=
  ⟨oneLeaf_fullTree, (vfree_exact oneLeaf_fullTree 0 1 true).2.2.1,
    (vfree_exact oneLeaf_fullTree 0 1 true).1 0 Nat.one_pos⟩

/-- The tree with one leaf, in which page 1 is mapped to the same frame as page 0. -/
def sharedLeaf : Paging := oneLeaf.setEntry 0x4000 (pageP1E pageSize) 0x5003

theorem oneLeaf_tableAt_page : oneLeaf.tableAt 0x1000 (pagePath pageSize) = some 0x4000 := by
  have hpath : pagePath pageSize = [0, 0, 0] := by decide
  have h1 : oneLeaf.entry 0x1000 0 = 0x2003 := oneLeaf_entry rfl 0
  have h2 : oneLeaf.entry (frameOf 0x2003) 0 = 0x3003 := oneLeaf_entry rfl 0
  have h3 : oneLeaf.entry (frameOf 0x3003) 0 = 0x4003 := oneLeaf_entry rfl 0
  simp only [hpath, Paging.tableAt, tableAt, h1, h2, h3]
  rfl

/-- **A frame that two pages share is freed twice**: the tree is in order, `vfreeCR3` unmaps both
pages, and calls `pfree` on their frame, which is no table, once for each. -/
theorem shared_leaf_freed_twice : FullTree sharedLeaf 0x1000 ∧
    sharedLeaf.walk 0x1000 0 = some (0x5000, 3) ∧
    sharedLeaf.walk 0x1000 pageSize = some (0x5000, 3) ∧
    (∀ p, p.length ≤ 3 → sharedLeaf.tableAt 0x1000 p ≠ some 0x5000) ∧
    (vfreeCR3 sharedLeaf 0 2 true 0x1000).log.count (.freed 0x5000) =
      sharedLeaf.log.count (.freed 0x5000) + 2 := by
  obtain ⟨htab, -, hleaf⟩ := setLeaf_walks oneLeaf_fullTree.root_mod oneLeaf_fullTree.unshared
    oneLeaf_tableAt_page 0x5003
  have hfull : FullTree sharedLeaf 0x1000 :=
    oneLeaf_fullTree.setLeaf oneLeaf_tableAt_page (by decide) (by decide)
  have hnotable : ∀ p, p.length ≤ 3 → sharedLeaf.tableAt 0x1000 p ≠ some 0x5000 := by
    intro p hp ht
    have hlen := (oneLeaf_tableAt hp ((htab p hp).symm.trans ht)).2
    omega
  have hzero : sharedLeaf.leaf 0x1000 0 = 0x5003 := by
    refine (hleaf 0).trans ((if_neg (by decide)).trans ?_)
    have hpath : pagePath 0 = pagePath pageSize := by decide
    have hindex : pageP1E 0 = 0 := by decide
    rw [Paging.leaf, hpath, hindex, Paging.entryAt, entryAt_of_tableAt oneLeaf_tableAt_page]
    exact oneLeaf_entry rfl 0
  have hone : sharedLeaf.leaf 0x1000 pageSize = 0x5003 := (hleaf pageSize).trans (if_pos rfl)
  have hwalk : ∀ w, sharedLeaf.leaf 0x1000 w = 0x5003 →
      sharedLeaf.walk 0x1000 w = some (0x5000, 3) := by
    intro w hw
    rw [Paging.walk, hw]
    decide
  refine ⟨hfull, hwalk 0 hzero, hwalk pageSize hone, hnotable, ?_⟩
  have hpages : framePages sharedLeaf 0x1000 (rangePages 0 2) 0x5000 = {0, 1} := by
    have hrange : rangePages 0 2 = {0, 1} := by decide
    rw [framePages, hrange, Finset.filter_eq_self]
    intro k hk
    rcases Finset.mem_insert.mp hk with rfl | hk
    · rw [Nat.zero_mul, hwalk 0 hzero]
      rfl
    · rw [Finset.mem_singleton.mp hk, Nat.one_mul, hwalk pageSize hone]
      rfl
  have hkept : ¬BecameEmpty sharedLeaf (vfreeCR3 sharedLeaf 0 2 true 0x1000) 0x1000 0x5000 := by
    rintro ⟨p, -, hp, ht, -⟩
    exact hnotable p hp ht
  rw [hfull.count_freed, hpages, if_neg hkept]
  rfl

end AnglOS
