import AnglOS.PagingUnmap

/-!
# Unmapping What Was Mapped

`vfreeCR3` after `videntityCR3` of the same range. Mapping leaves no table empty, and a tree
without empty tables is determined by its leaf entries, so the tree is restored as soon as the
leaf entries are. But `pagingRemoveEntry` does not remove an entry that points outside of
memory, and `videntityCR3` may have made such entries.

## Main results

* `DenseBut.videntityHelper` — mapping a page leaves no table empty;
* `exists_leaf_of_tableAt` — every table of a tree without empty tables leads to a leaf entry;
* `round_trip_iff` — the round trip restores every translation and the set of tables exactly if
  the physical range lies below `mem_size`.
-/

namespace AnglOS

/-! ### Mapping leaves no table empty -/

/-- `videntityHelper` changes only entries on the path of its page. -/
theorem Tree.videntityHelper_off {s : Paging} {root v p : ℕ} {flags : BitVec 64} (hs : Supply s)
    (h : Tree s root) (hflags : FlagBits flags) (hpres : flags &&& 1 = 1)
    (hok : ∀ e ∈ (AnglOS.videntityHelper v p root flags s).2.log, e.Good) {q : List (Fin 512)}
    {j : Fin 512} (hq : q.length ≤ 3) (hoff : ¬ q ++ [j] <+: pagePath v ++ [pageP1E v]) :
    (AnglOS.videntityHelper v p root flags s).2.entryAt root q j = s.entryAt root q j := by
  obtain ⟨hgrow, ht, hpath⟩ := h.descendTo (v := v) hs hflags hpres hok
  refine ((setLeaf_walks hgrow.tree.root_mod hgrow.tree.unshared ht _).2.1 q j hq ?_).trans
    (hpath q j hq fun hpre => hoff (hpre.trans (List.prefix_append _ _)))
  rintro ⟨rfl, rfl⟩
  exact hoff List.prefix_rfl

/-- The tables on the path of a leaf entry are not empty. -/
theorem entry_ne_of_leaf {s : Paging} {root v t : ℕ} {p : List (Fin 512)}
    (hleaf : s.leaf root v ≠ 0) (hpre : p <+: pagePath v) (ht : s.tableAt root p = some t) :
    ∃ i, s.entry t i ≠ 0 := by
  obtain ⟨u, hu, hent⟩ := exists_tableAt_of_entryAt_ne hleaf
  obtain ⟨r, hr⟩ := hpre
  cases r with
  | nil =>
      rw [List.append_nil] at hr
      obtain rfl : t = u := Option.some.inj (by rw [← ht, hr]; exact hu)
      refine ⟨pageP1E v, ?_⟩
      rw [hent]
      exact hleaf
  | cons i r =>
      rw [← hr, show p ++ i :: r = (p ++ [i]) ++ r by simp] at hu
      obtain ⟨c, hc⟩ := exists_tableAt_of_append hu
      refine ⟨i, fun hz => ?_⟩
      rw [tableAt_concat, entryAt_of_tableAt ht, if_pos hz] at hc
      cases hc

/-- Changing entries on the path of one page, whose leaf entry is there afterwards, leaves no
table empty. -/
theorem DenseBut.of_path {s s' : Paging} {root v : ℕ} (hd : DenseBut s root [])
    (hoff : ∀ q j, q.length ≤ 3 → ¬ q ++ [j] <+: pagePath v ++ [pageP1E v] →
      s'.entryAt root q j = s.entryAt root q j) (hleaf : s'.leaf root v ≠ 0) :
    DenseBut s' root [] := by
  intro p t hnil _ hp ht
  by_cases hpre : p <+: pagePath v
  · exact entry_ne_of_leaf hleaf hpre ht
  have hne : ∀ r, ¬ p ++ r <+: pagePath v ++ [pageP1E v] := fun r hr =>
    hpre (List.prefix_of_prefix_length_le ((List.prefix_append p r).trans hr)
      (List.prefix_append _ _) hp)
  have htab : s'.tableAt root p = s.tableAt root p := by
    obtain ⟨q, j, rfl⟩ := (List.eq_nil_or_concat p).resolve_left hnil
    rw [List.concat_eq_append] at hp hne ⊢
    have hent := hoff q j (by simp at hp; omega) fun hc => hne [] (by simpa using hc)
    rw [Paging.entryAt, Paging.entryAt] at hent
    rw [Paging.tableAt, Paging.tableAt, tableAt_concat, tableAt_concat, hent]
  obtain ⟨i, hi⟩ := hd p t hnil hnil hp (htab ▸ ht)
  have hent := hoff p i hp (hne [i])
  rw [Paging.entryAt, Paging.entryAt, entryAt_of_tableAt ht, entryAt_of_tableAt (htab ▸ ht)] at hent
  exact ⟨i, hent ▸ hi⟩

/-- **Mapping a page leaves no table empty.** -/
theorem DenseBut.videntityHelper {s : Paging} {root v p : ℕ} {flags : BitVec 64}
    (hd : DenseBut s root []) (hs : Supply s) (h : Tree s root) (hflags : FlagBits flags)
    (hpres : flags &&& 1 = 1)
    (hok : ∀ e ∈ (AnglOS.videntityHelper v p root flags s).2.log, e.Good) :
    DenseBut (AnglOS.videntityHelper v p root flags s).2 root [] := by
  refine hd.of_path (fun q j hq => h.videntityHelper_off hs hflags hpres hok hq) (v := v) ?_
  rw [(h.videntityHelper hs hflags hpres hok).leaf v, if_pos rfl]
  exact makeEntry_ne_zero hpres

/-! ### Tables lead to leaf entries -/

/-- Every path and index belong to a page. -/
theorem exists_page (p : List (Fin 512)) (hp : p.length = 3) (i : Fin 512) :
    ∃ w, pagePath w = p ∧ pageP1E w = i := by
  obtain ⟨a, b, c, rfl⟩ := List.length_eq_three.mp hp
  have ha := a.isLt
  have hb := b.isLt
  have hc := c.isLt
  have hi := i.isLt
  refine ⟨a * 2 ^ 39 + b * 2 ^ 30 + c * 2 ^ 21 + i * 2 ^ 12, ?_, ?_⟩
  · simp only [pagePath, pageP4E, pageP3E, pageP2E, List.cons.injEq, and_true, Fin.ext_iff,
      Fin.val_ofNat, Nat.shiftRight_eq_div_pow]
    omega
  · simp only [pageP1E, Fin.ext_iff, Fin.val_ofNat, Nat.shiftRight_eq_div_pow]
    omega

/-- **Every table of a tree without empty tables leads to a leaf entry.** -/
theorem exists_leaf_of_tableAt {s : Paging} {root : ℕ} (hd : DenseBut s root []) :
    ∀ (k : ℕ) (p : List (Fin 512)) (t : ℕ), p.length + k = 3 → p ≠ [] →
      s.tableAt root p = some t → ∃ w, p <+: pagePath w ∧ s.leaf root w ≠ 0 := by
  intro k
  induction k with
  | zero =>
      intro p t hp hnil ht
      obtain ⟨i, hi⟩ := hd p t hnil hnil (by omega) ht
      obtain ⟨w, rfl, rfl⟩ := exists_page p (by omega) i
      refine ⟨w, List.prefix_rfl, ?_⟩
      rw [Paging.leaf, Paging.entryAt, entryAt_of_tableAt ht]
      exact hi
  | succ k ih =>
      intro p t hp hnil ht
      obtain ⟨i, hi⟩ := hd p t hnil hnil (by omega) ht
      have hstep : s.tableAt root (p ++ [i]) = some (frameOf (s.entry t i)) := by
        rw [Paging.tableAt, tableAt_concat, entryAt_of_tableAt ht, if_neg hi]
      obtain ⟨w, hpre, hleaf⟩ := ih (p ++ [i]) _ (by simp; omega) (by simp) hstep
      exact ⟨w, (List.prefix_append p [i]).trans hpre, hleaf⟩

/-- A tree without empty tables has a table wherever another one with the same leaf entries
does. -/
theorem exists_tableAt_of_leaf {s s' : Paging} {root t : ℕ} (hd : DenseBut s root [])
    (hleaf : ∀ w, s'.leaf root w = s.leaf root w) {p : List (Fin 512)} (hp : p.length ≤ 3)
    (ht : s.tableAt root p = some t) : ∃ t', s'.tableAt root p = some t' := by
  by_cases hnil : p = []
  · exact ⟨root, by rw [hnil]; rfl⟩
  obtain ⟨w, ⟨r, hr⟩, hne⟩ := exists_leaf_of_tableAt hd (3 - p.length) p t (by omega) hnil ht
  rw [← hleaf w] at hne
  obtain ⟨u, hu, -⟩ := exists_tableAt_of_entryAt_ne hne
  rw [← hr] at hu
  exact exists_tableAt_of_append hu

/-! ### The round trip -/

/-- A tree that `vfreeCR3` can take apart: the allocator, the cache and the tree are in order, all
tables lie in memory, the tree has no empty table below the root, and the frames that may become
tables lie in memory. -/
structure Reclaimable (s : Paging) (root : ℕ) : Prop where
  supply : Supply s
  tree : Tree s root
  regular : Regular s root
  dense : DenseBut s root []
  below : ∀ f ∈ s.unissued, f < s.pmm.memSize

/-- Every page translates as before, and the tables are the same frames. -/
structure Restored (s s' : Paging) (root : ℕ) : Prop where
  walk : ∀ w, s'.walk root w = s.walk root w
  tables : ∀ t, (∃ p, p.length ≤ 3 ∧ s'.tableAt root p = some t) ↔
    ∃ p, p.length ≤ 3 ∧ s.tableAt root p = some t

/-- Tables stay where they are. -/
theorem Reshapes.tableAt {s s' : Paging} {root t : ℕ} {flags : BitVec 64}
    (h : Reshapes s s' root flags) {p : List (Fin 512)} (hp : p.length ≤ 3)
    (ht : s.tableAt root p = some t) : s'.tableAt root p = some t :=
  tableAt_of_upper (fun q i hq hne => (h.upper q i hq).resolve_right fun hc => hne hc.1) hp ht

/-- What `k` rounds of the loop of `videntityCR3` have done. -/
structure MapsFrom (s s' : Paging) (root v p k : ℕ) (flags : BitVec 64) : Prop where
  reshapes : Reshapes s s' root flags
  dense : DenseBut s root [] → DenseBut s' root []
  /-- A page of the range has the entry of the last round that was about it. -/
  range : ∀ i < k, ∃ j < k, i ≤ j ∧ s'.leaf root (v + i * pageSize)
    = makeEntry (p + j * pageSize) flags
  others : ∀ w, (∀ i < k, pageNumber w ≠ pageNumber (v + i * pageSize)) →
    s'.leaf root w = s.leaf root w

/-- One round. -/
theorem MapsFrom.next {s s' : Paging} {root v p k : ℕ} {flags : BitVec 64}
    (h : MapsFrom s s' root v p k flags) (hflags : FlagBits flags) (hpres : flags &&& 1 = 1)
    (hok : ∀ e ∈ (videntityHelper (v + k * pageSize) (p + k * pageSize) root flags s').2.log,
      e.Good) :
    MapsFrom s (videntityHelper (v + k * pageSize) (p + k * pageSize) root flags s').2 root v p
      (k + 1) flags := by
  have hmaps := h.reshapes.tree.videntityHelper h.reshapes.supply hflags hpres hok
  refine ⟨h.reshapes.trans hmaps.toReshapes, fun hd => (h.dense hd).videntityHelper
    h.reshapes.supply h.reshapes.tree hflags hpres hok, fun i hi => ?_, fun w hw => ?_⟩
  · rw [hmaps.leaf]
    by_cases hik : pageNumber (v + i * pageSize) = pageNumber (v + k * pageSize)
    · exact ⟨k, by omega, by omega, if_pos hik⟩
    · have hlt : i < k := by
        refine lt_of_le_of_ne (by omega) ?_
        rintro rfl
        exact hik rfl
      obtain ⟨j, hj, hij, hleaf⟩ := h.range i hlt
      exact ⟨j, by omega, hij, by rw [if_neg hik, hleaf]⟩
  · rw [hmaps.leaf, if_neg (hw k (by omega)), h.others w fun i hi => hw i (by omega)]

/-- **`videntityCR3`** of any range that does not wrap, also of one that meets its own pages
again. -/
theorem videntityCR3_mapsFrom {s : Paging} {root v p n : ℕ} {flags : BitVec 64} (hs : Supply s)
    (ht : Tree s root) (hflags : FlagBits flags) (hpres : flags &&& 1 = 1)
    (hwrap : v + n * pageSize ≤ 2 ^ 64) (hzero : ∀ i < n, v + i * pageSize ≠ 0)
    (hp52 : p + n * pageSize ≤ 2 ^ 52)
    (hok : ∀ e ∈ (videntityCR3 s v p n flags root).2.log, e.Good) :
    MapsFrom s (videntityCR3 s v p n flags root).2 root v p n flags := by
  obtain ⟨b, hsnd⟩ := videntityCR3_snd s v p n flags root
  rw [hsnd] at hok ⊢
  have hbody : ∀ i < n, videntityHelper (add64 v (i * pageSize)) (add64 p (i * pageSize)) root flags
      = videntityHelper (v + i * pageSize) (p + i * pageSize) root flags := by
    intro i hi
    rw [add64_eq, add64_eq] <;> simp only [pageSize] at * <;> omega
  have hloop : ∀ k ≤ n, (∀ e ∈ (mapLoop (fun i => videntityHelper (add64 v (i * pageSize))
        (add64 p (i * pageSize)) root flags) k { s with lock := true }).2.log, e.Good) →
      (mapLoop (fun i => videntityHelper (add64 v (i * pageSize)) (add64 p (i * pageSize)) root
        flags) k { s with lock := true }).1 = true ∧
      MapsFrom { s with lock := true } (mapLoop (fun i => videntityHelper (add64 v (i * pageSize))
        (add64 p (i * pageSize)) root flags) k { s with lock := true }).2 root v p k flags := by
    intro k
    induction k with
    | zero =>
        exact fun _ _ => ⟨rfl, Reshapes.refl flags (hs.withLock true) (ht.withLock true),
          fun hd => hd, fun i hi => absurd hi (by omega), fun _ _ => rfl⟩
    | succ k ih =>
        intro hk hok
        obtain ⟨htrue, hmaps⟩ := ih (by omega) fun e he =>
          hok e ((mapLoop_log (fun i s => videntityHelper_log _ _ _ _ s) k _).subset he)
        generalize hr : mapLoop (fun i => videntityHelper (add64 v (i * pageSize))
          (add64 p (i * pageSize)) root flags) k { s with lock := true } = r at htrue hmaps
        obtain ⟨_ | _, s₁⟩ := r
        · cases htrue
        have hnext : mapLoop (fun i => videntityHelper (add64 v (i * pageSize))
            (add64 p (i * pageSize)) root flags) (k + 1) { s with lock := true }
            = (true, (videntityHelper (v + k * pageSize) (p + k * pageSize) root flags s₁).2) := by
          have hfst : (videntityHelper (v + k * pageSize) (p + k * pageSize) root flags s₁).1 ≠ 0 :=
            hzero k (by omega)
          simp only [mapLoop, hr, hbody k (by omega), decide_eq_true hfst]
        rw [hnext] at hok ⊢
        exact ⟨rfl, hmaps.next hflags hpres hok⟩
  have hmaps := (hloop n le_rfl hok).2
  exact ⟨hmaps.reshapes.unlock, hmaps.dense, hmaps.range, hmaps.others⟩

/-- The tables of a tree that can be taken apart still can after a mapping. -/
theorem Reclaimable.regular_of_reshapes {s s' : Paging} {root : ℕ} {flags : BitVec 64}
    (h : Reclaimable s root) (hre : Reshapes s s' root flags) (hflags : FlagBits flags)
    (hpres : flags &&& 1 = 1) : Regular s' root := by
  intro p i hp hne
  rw [removable_iff hre.kept.pmm]
  rcases hre.upper p i hp with he | ⟨-, f, hf, he⟩
  · rw [he] at hne ⊢
    exact h.regular p i hp hne
  · rw [he]
    refine ⟨makeEntry_present hpres, ?_⟩
    rw [frameOf_makeEntry (h.supply.aligned f hf) (h.supply.lt f hf) hflags]
    exact h.below f hf

/-- Leaf entries that are restored restore the tree. -/
theorem Reclaimable.restored {s s₁ s₂ : Paging} {root : ℕ} {flags : BitVec 64} {b : Bool}
    {W : Finset ℕ} (h : Reclaimable s root) (hre : Reshapes s s₁ root flags)
    (hun : Unmaps s₁ s₂ root b W) (hd : DenseBut s₂ root [])
    (hleaf : ∀ w, s₂.leaf root w = s.leaf root w) : Restored s s₂ root := by
  refine ⟨fun w => walk_congr (hleaf w), fun t => ⟨?_, ?_⟩⟩
  · rintro ⟨p, hp, ht⟩
    obtain ⟨t', ht'⟩ := exists_tableAt_of_leaf hd (fun w => (hleaf w).symm) hp ht
    have heq := (hun.tables p t hp ht).symm.trans (hre.tableAt hp ht')
    exact ⟨p, hp, by rw [ht', ← Option.some.inj heq]⟩
  · rintro ⟨p, hp, ht⟩
    obtain ⟨t', ht'⟩ := exists_tableAt_of_leaf h.dense hleaf hp ht
    have heq := (hun.tables p t' hp ht').symm.trans (hre.tableAt hp ht)
    exact ⟨p, hp, by rw [ht', Option.some.inj heq]⟩

/-- The entries that the range gets can be removed exactly if they point into memory. -/
theorem MapsFrom.removable_iff {s s₁ : Paging} {root v p n : ℕ} {flags : BitVec 64}
    (h : MapsFrom s s₁ root v p n flags) (hflags : FlagBits flags) (hpres : flags &&& 1 = 1)
    (hp : p % pageSize = 0) (hp52 : p + n * pageSize ≤ 2 ^ 52) {j : ℕ} (hj : j < n) :
    s₁.Removable (makeEntry (p + j * pageSize) flags) ↔ p + j * pageSize < s.pmm.memSize := by
  rw [AnglOS.removable_iff h.reshapes.kept.pmm, Paging.Removable, frameOf_makeEntry
    (by simp only [pageSize] at *; omega) (by simp only [pageSize] at *; omega) hflags]
  exact and_iff_right (makeEntry_present hpres)

/-- An entry that points outside of memory stays. -/
theorem MapsFrom.below_of_restored {s s₁ s₂ : Paging} {root v p n : ℕ} {flags : BitVec 64}
    {b : Bool} {W : Finset ℕ} (h : MapsFrom s s₁ root v p n flags) (hun : Unmaps s₁ s₂ root b W)
    (hflags : FlagBits flags) (hpres : flags &&& 1 = 1) (hp : p % pageSize = 0)
    (hp52 : p + n * pageSize ≤ 2 ^ 52)
    (hunmapped : ∀ i < n, s.leaf root (v + i * pageSize) = 0) (hrest : Restored s s₂ root) :
    ∀ i < n, p + i * pageSize < s.pmm.memSize := by
  intro i hi
  by_contra hge
  obtain ⟨j, hj, hij, hleaf⟩ := h.range i hi
  have hnot : ¬ s₁.Removable (s₁.leaf root (v + i * pageSize)) := by
    have hmul := Nat.mul_le_mul_right pageSize hij
    rw [hleaf, h.removable_iff hflags hpres hp hp52 hj]
    exact fun hlt => hge (lt_of_le_of_lt (Nat.add_le_add_left hmul p) hlt)
  have hkept := hun.leaf (v + i * pageSize)
  rw [if_neg fun hc => hnot hc.2, hleaf] at hkept
  have hwalk := hrest.walk (v + i * pageSize)
  rw [Paging.walk, Paging.walk, hkept, if_neg (makeEntry_ne_zero hpres), hunmapped i hi,
    if_pos rfl] at hwalk
  cases hwalk

/-- Entries that point into memory are removed. -/
theorem MapsFrom.leaf_restored {s s₁ s₂ : Paging} {root v p n : ℕ} {flags : BitVec 64} {b : Bool}
    (h : MapsFrom s s₁ root v p n flags) (hun : Unmaps s₁ s₂ root b (rangePages v n))
    (hflags : FlagBits flags) (hpres : flags &&& 1 = 1) (hp : p % pageSize = 0)
    (hp52 : p + n * pageSize ≤ 2 ^ 52) (hwrap : v + n * pageSize ≤ 2 ^ 64)
    (hunmapped : ∀ i < n, s.leaf root (v + i * pageSize) = 0)
    (hbelow : ∀ i < n, p + i * pageSize < s.pmm.memSize) (w : ℕ) :
    s₂.leaf root w = s.leaf root w := by
  have hpage : ∀ i < n, add64 v (i * pageSize) = v + i * pageSize := fun i hi =>
    add64_eq (by simp only [pageSize] at *; omega)
  rw [hun.leaf]
  by_cases hw : ∃ i < n, pageNumber w = pageNumber (v + i * pageSize)
  · obtain ⟨i, hi, hwi⟩ := hw
    obtain ⟨j, hj, -, hleaf⟩ := h.range i hi
    have hmem : pageNumber w ∈ rangePages v n :=
      mem_rangePages.mpr ⟨i, hi, by rw [hpage i hi, hwi]⟩
    rw [leaf_congr s₁ root hwi, leaf_congr s root hwi, hleaf, hunmapped i hi,
      if_pos ⟨hmem, (h.removable_iff hflags hpres hp hp52 hj).mpr (hbelow j hj)⟩]
  · push Not at hw
    have hmem : pageNumber w ∉ rangePages v n := by
      intro hc
      obtain ⟨i, hi, heq⟩ := mem_rangePages.mp hc
      exact hw i hi (by rw [← heq, hpage i hi])
    rw [if_neg fun hc => hmem hc.1, h.others w hw]

/-- **`vfreeCR3` undoes `videntityCR3` exactly on memory**: in every well-formed tree, for every
range that does not wrap, is not mapped and does not hold the address `0`, every aligned
physical range of 52-bit addresses and all flags with `PRESENT`, mapping and unmapping restores
every translation and the set of tables if and only if the physical range lies below
`mem_size`. -/
theorem round_trip_iff {s : Paging} {root v p n : ℕ} {flags : BitVec 64} (h : Reclaimable s root)
    (hflags : FlagBits flags) (hpres : flags &&& 1 = 1) (hwrap : v + n * pageSize ≤ 2 ^ 64)
    (hzero : ∀ i < n, v + i * pageSize ≠ 0)
    (hunmapped : ∀ i < n, s.leaf root (v + i * pageSize) = 0) (hp : p % pageSize = 0)
    (hp52 : p + n * pageSize ≤ 2 ^ 52)
    (hok : ∀ e ∈ (videntityCR3 s v p n flags root).2.log, e.Good) :
    Restored s (vfreeCR3 (videntityCR3 s v p n flags root).2 v n false root) root ↔
      ∀ i < n, p + i * pageSize < s.pmm.memSize := by
  have hmaps := videntityCR3_mapsFrom h.supply h.tree hflags hpres hwrap hzero hp52 hok
  have hre := hmaps.reshapes
  obtain ⟨hun, hdense⟩ := vfreeCR3_unmaps v n false hre.tree.root_mod hre.tree.unshared
  constructor
  · exact hmaps.below_of_restored hun hflags hpres hp hp52 hunmapped
  · intro hbelow
    exact h.restored hre hun (hdense (h.regular_of_reshapes hre hflags hpres)
      (hmaps.dense h.dense))
      (hmaps.leaf_restored hun hflags hpres hp hp52 hwrap hunmapped hbelow)

/-! ### An empty tree -/

theorem filledWith_reclaimable : Reclaimable (filledWith 0) 0x1000 := by
  refine ⟨filledWith_supply 0, filledWith_tree, fun p i _ hne => ?_, fun p t hnil _ _ ht => ?_,
    fun f hf => ?_⟩
  · obtain ⟨t, ht, hent⟩ := exists_tableAt_of_entryAt_ne hne
    rw [Paging.entryAt, ← hent, filledWith_zero] at hne
    exact absurd rfl hne
  · exact absurd (tableAt_of_empty (filledWith_zero 0x1000) ht).1 hnil
  · obtain ⟨q, -, hq, rfl⟩ := filledWith_unissued hf
    have hsize : (filledWith 0).pmm.memSize = 512 * pageSize := rfl
    rw [hsize]
    simp only [pageSize]
    omega

theorem filledWith_leaf (w : ℕ) : (filledWith 0).leaf 0x1000 w = 0 := by
  by_contra hne
  obtain ⟨t, ht, hent⟩ := exists_tableAt_of_entryAt_ne hne
  rw [Paging.leaf, Paging.entryAt, ← hent, filledWith_zero] at hne
  exact hne rfl

/-- Two pages of memory are mapped and unmapped. -/
theorem round_trip_iff_memory :
    Restored (filledWith 0) (vfreeCR3 (videntityCR3 (filledWith 0) 0x1000 0x10000 2 3 0x1000).2
      0x1000 2 false 0x1000) 0x1000 := by
  have hflags : FlagBits 3 := by
    unfold FlagBits
    decide
  refine (round_trip_iff filledWith_reclaimable hflags (by decide) (by decide)
    (fun i hi => by simp only [pageSize]; omega) (fun i _ => filledWith_leaf _) (by decide)
    (by decide) (filledWith_good (by decide) hflags (by decide)).1).mpr fun i hi => ?_
  have hsize : (filledWith 0).pmm.memSize = 512 * pageSize := rfl
  rw [hsize]
  simp only [pageSize]
  omega

/-- **Device memory stays mapped**: a page whose frame lies above memory is still translated after
it was unmapped. -/
theorem round_trip_keeps_device :
    (filledWith 0).pmm.memSize = 0x200000 ∧
      ¬ Restored (filledWith 0) (vfreeCR3 (videntityCR3 (filledWith 0) 0x1000 0x200000 1 3
        0x1000).2 0x1000 1 false 0x1000) 0x1000 := by
  have hflags : FlagBits 3 := by
    unfold FlagBits
    decide
  have hmaps := videntityCR3_mapsFrom (v := 0x1000) (p := 0x200000) (n := 1) (filledWith_supply 0)
    filledWith_tree hflags (by decide) (by decide) (fun i hi => by simp only [pageSize]; omega)
    (by decide) (filledWith_good (by decide) hflags (by decide)).1
  obtain ⟨hun, -⟩ := vfreeCR3_unmaps 0x1000 1 false hmaps.reshapes.tree.root_mod
    hmaps.reshapes.tree.unshared
  refine ⟨rfl, fun hrest => ?_⟩
  have hlt := hmaps.below_of_restored hun hflags (by decide) (by decide) (by decide)
    (fun i _ => filledWith_leaf _) hrest 0 Nat.one_pos
  exact absurd hlt (by decide)

end AnglOS
