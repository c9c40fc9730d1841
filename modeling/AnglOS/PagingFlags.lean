import AnglOS.AddressSpace
import AnglOS.Mmu
import AnglOS.PagingUnmap

/-!
# Changing the Flags of Mapped Pages

`vflagsCR3` replaces the low five flag bits of the leaf entries of a range. It asks at three
levels whether there is a table, but not at the last one whether there is a page: a hole in an
existing level-1 table becomes a present entry for the frame `0`.

## Main results

* `vflagsHelper_cases` — what the helper stores, and where;
* `vflagsCR3_leaf` — all leaf entries after a call;
* `vflags_keeps_mappings_iff` — a call keeps every translation, the accessed and dirty bits, and
  all pages outside of its range, exactly if no page of the range is a hole.
-/

namespace AnglOS

/-! ### One page -/

/-- The bits of a leaf entry that `vflagsHelper` keeps. -/
abbrev vflagsMask : BitVec 64 := 0x8FFFFFFFFFFFFFE0

/-- What `vflagsHelper` does. -/
theorem vflagsHelper_cases (v r : ℕ) (flags : BitVec 64) (s : Paging) :
    (vflagsHelper v r flags s = s ∧ s.tableAt r (pagePath v) = none) ∨
      ∃ t, s.tableAt r (pagePath v) = some t ∧ vflagsHelper v r flags s
        = s.setEntry t (pageP1E v) ((s.leaf r v &&& vflagsMask) ||| flags) := by
  unfold vflagsHelper
  by_cases h4 : s.entry r (pageP4E v) = 0
  · refine Or.inl ⟨by simp only [if_pos h4], ?_⟩
    simp only [pagePath, tableAt, if_pos h4]
  by_cases h3 : s.entry (frameOf (s.entry r (pageP4E v))) (pageP3E v) = 0
  · refine Or.inl ⟨by simp only [if_neg h4, if_pos h3], ?_⟩
    simp only [pagePath, tableAt, if_neg h4, if_pos h3]
  by_cases h2 : s.entry (frameOf (s.entry (frameOf (s.entry r (pageP4E v))) (pageP3E v)))
      (pageP2E v) = 0
  · refine Or.inl ⟨by simp only [if_neg h4, if_neg h3, if_pos h2], ?_⟩
    simp only [pagePath, tableAt, if_neg h4, if_neg h3, if_pos h2]
  have ht : s.tableAt r (pagePath v) = some (frameOf (s.entry (frameOf (s.entry (frameOf
      (s.entry r (pageP4E v))) (pageP3E v))) (pageP2E v))) := by
    simp only [pagePath, tableAt, if_neg h4, if_neg h3, if_neg h2]
  have hleaf : s.leaf r v = _ := entryAt_of_tableAt ht
  refine Or.inr ⟨_, ht, ?_⟩
  rw [hleaf]
  simp only [if_neg h4, if_neg h3, if_neg h2]

/-- The frame of an entry with changed flags. -/
theorem frameOf_vflags {e flags : BitVec 64} (hflags : FlagBits flags) :
    frameOf ((e &&& 0x8FFFFFFFFFFFFFE0) ||| flags) = frameOf e := by
  have hmask : (0x8FFFFFFFFFFFFFE0 : BitVec 64) &&& frameMask = frameMask := by decide
  have hzero : flags &&& frameMask = 0 := hflags
  rw [frameOf, frameOf, BitVec.and_or_distrib_right, BitVec.and_assoc, hmask, hzero]
  exact congrArg BitVec.toNat BitVec.or_zero

/-- The flags of entries are flag bits, and pages are present. -/
theorem convAddrSpaceFlagsToPaging_bits (flags : BitVec 32) :
    FlagBits (convAddrSpaceFlagsToPaging flags) ∧ convAddrSpaceFlagsToPaging flags &&& 1 = 1 := by
  unfold convAddrSpaceFlagsToPaging FlagBits
  simp only
  split_ifs <;> decide

/-- The flags of entries are flag bits, do not contain the accessed and the dirty bit, and say
that the page is present. -/
theorem convAddrSpaceFlagsToPaging_accessed (flags : BitVec 32) :
    convAddrSpaceFlagsToPaging flags &&& 0x60 = 0 := by
  unfold convAddrSpaceFlagsToPaging
  simp only
  split_ifs <;> decide

/-- Changing flags twice. -/
theorem vflags_idem (e flags : BitVec 64) :
    (((e &&& vflagsMask) ||| flags) &&& vflagsMask) ||| flags = (e &&& vflagsMask) ||| flags := by
  apply BitVec.eq_of_getLsbD_eq
  intro i hi
  simp only [BitVec.getLsbD_or, BitVec.getLsbD_and]
  cases e.getLsbD i <;> cases flags.getLsbD i <;> cases vflagsMask.getLsbD i <;> rfl

/-- An entry with changed flags is present. -/
theorem vflags_present {e flags : BitVec 64} (hpres : flags &&& 1 = 1) :
    ((e &&& vflagsMask) ||| flags) &&& 1 = 1 := by
  have hmask : vflagsMask &&& 1 = 0#64 := by decide
  rw [BitVec.and_or_distrib_right, BitVec.and_assoc, hmask, hpres, BitVec.and_zero,
    BitVec.zero_or]

/-- The accessed and the dirty bit of an entry with changed flags. -/
theorem vflags_accessed {e flags : BitVec 64} (hflags : flags &&& 0x60 = 0) :
    ((e &&& vflagsMask) ||| flags) &&& 0x60 = e &&& 0x60 := by
  have hmask : vflagsMask &&& 0x60 = 0x60#64 := by decide
  rw [BitVec.and_or_distrib_right, BitVec.and_assoc, hmask, hflags]
  exact BitVec.or_zero

/-! ### A range -/

/-- The page of `w` is one of the `n` pages from `v` on. -/
def InRange (v n w : ℕ) : Prop := ∃ i < n, pageNumber w = pageNumber (add64 v (i * pageSize))

instance (v n w : ℕ) : Decidable (InRange v n w) := inferInstanceAs (Decidable (∃ _ < _, _))

/-- **The leaf entries after `vflagsCR3`**: every entry of the range that a level-1 table holds is
changed, whether it was present or not. Tables and upper entries stay. -/
theorem vflagsCR3_leaf {s : Paging} {root : ℕ} (hmod : root % pageSize = 0)
    (hun : Unshared frameOf s.entry root 3) (v n : ℕ) (flags : BitVec 64) :
    (∀ p i, p.length < 3 →
      (vflagsCR3 s v n flags root).entryAt root p i = s.entryAt root p i) ∧
    ∀ w, (vflagsCR3 s v n flags root).leaf root w
      = if InRange v n w ∧ s.tableAt root (pagePath w) ≠ none
        then (s.leaf root w &&& vflagsMask) ||| flags else s.leaf root w := by
  have hinv := loop_invariant
    (f := fun i => vflagsHelper (add64 v (i * pageSize)) root flags) (n := n)
    (s := { s with lock := true })
    (fun k s' => (∀ p, p.length ≤ 3 → s'.tableAt root p = s.tableAt root p) ∧
      (∀ p i, p.length < 3 → s'.entryAt root p i = s.entryAt root p i) ∧
      ∀ w, s'.leaf root w = if InRange v k w ∧ s.tableAt root (pagePath w) ≠ none
        then (s.leaf root w &&& vflagsMask) ||| flags else s.leaf root w)
    ⟨fun _ _ => rfl, fun _ _ _ => rfl, fun w => by
      rw [if_neg]
      · rfl
      · rintro ⟨⟨i, hi, -⟩, -⟩
        omega⟩ ?_
  · exact hinv.2
  rintro k hk s' ⟨htab, hupper, hleaf⟩
  have hsucc : ∀ w, InRange v (k + 1) w ↔
      InRange v k w ∨ pageNumber w = pageNumber (add64 v (k * pageSize)) := by
    intro w
    constructor
    · rintro ⟨i, hi, heq⟩
      rcases Nat.lt_succ_iff_lt_or_eq.mp hi with hlt | rfl
      · exact Or.inl ⟨i, hlt, heq⟩
      · exact Or.inr heq
    · rintro (⟨i, hi, heq⟩ | heq)
      · exact ⟨i, by omega, heq⟩
      · exact ⟨k, by omega, heq⟩
  have hun' : Unshared frameOf s'.entry root 3 := fun p q u hp hq hu hu' =>
    hun p q u hp hq ((htab p hp).symm.trans hu) ((htab q hq).symm.trans hu')
  have hpath : ∀ w, pageNumber w = pageNumber (add64 v (k * pageSize)) →
      pagePath w = pagePath (add64 v (k * pageSize)) := fun w hw => (pagePath_eq_iff.mpr hw).1
  rcases vflagsHelper_cases (add64 v (k * pageSize)) root flags s' with
    ⟨hsame, hnone⟩ | ⟨t, ht, hset⟩
  · rw [hsame]
    refine ⟨htab, hupper, fun w => ?_⟩
    rw [hleaf w]
    rw [htab _ le_rfl] at hnone
    refine if_congr (and_congr_left fun hsome => ?_) rfl rfl
    rw [hsucc w, or_iff_left]
    exact fun hw => hsome (by rw [hpath w hw]; exact hnone)
  · obtain ⟨htab', hupper', hleaf'⟩ := setLeaf_walks hmod hun' ht
      ((s'.leaf root (add64 v (k * pageSize)) &&& vflagsMask) ||| flags)
    rw [hset]
    refine ⟨fun p hp => (htab' p hp).trans (htab p hp),
      fun p i hp => (hupper' p i hp.le (ne_pagePath hp)).trans (hupper p i hp), fun w => ?_⟩
    rw [hleaf' w]
    by_cases hw : pageNumber w = pageNumber (add64 v (k * pageSize))
    · have hsome : s.tableAt root (pagePath w) ≠ none := by
        rw [hpath w hw, ← htab _ le_rfl, ht]
        exact Option.some_ne_none t
      rw [if_pos hw, if_pos ⟨(hsucc w).mpr (Or.inr hw), hsome⟩, ← leaf_congr _ _ hw, hleaf w]
      split_ifs
      · exact vflags_idem _ _
      · rfl
    · rw [if_neg hw, hleaf w]
      exact if_congr (by rw [hsucc w, or_iff_left hw]) rfl rfl

/-- What a change of flags leaves alone. -/
structure KeepsMappings (s s' : Paging) (root v n : ℕ) : Prop where
  /-- Exactly the pages that were translated are, each to the same frame. -/
  translated : ∀ w, (s'.translation root w).map (fun t => t.address w)
    = (s.translation root w).map fun t => t.address w
  /-- The accessed and the dirty bits. -/
  accessed : ∀ w, s'.leaf root w &&& 0x60 = s.leaf root w &&& 0x60
  /-- The pages outside of the range: the entries of all levels stay. -/
  upper : ∀ p i, p.length < 3 → s'.entryAt root p i = s.entryAt root p i
  others : ∀ w, ¬ InRange v n w → s'.leaf root w = s.leaf root w

/-- A hole: the page has a level-1 table, but its entry there is not present. -/
def Hole (s : Paging) (root w : ℕ) : Prop :=
  s.tableAt root (pagePath w) ≠ none ∧ s.leaf root w &&& 1 = 0

/-- The physical address that a page is translated to. -/
theorem address_of_plain {s : Paging} {root : ℕ} (h : PlainTables s root) (w : ℕ) :
    (s.translation root w).map (fun t => t.address w)
      = if s.leaf root w &&& 1 = 0 then none
        else some (frameOf (s.leaf root w) / 2 ^ 12 * 2 ^ 12 + w % 2 ^ 12) := by
  have htr := translation_of_plain h w
  by_cases hpres : s.leaf root w &&& 1 = 0
  · rw [if_pos hpres] at htr ⊢
    rw [htr]
    rfl
  · rw [if_neg hpres] at htr ⊢
    obtain ⟨rights, heq, -⟩ := htr
    rw [heq]
    rfl

/-- The tables of the tree map no large page after a change of flags. -/
theorem PlainTables.vflagsCR3 {s : Paging} {root : ℕ} (h : PlainTables s root)
    (hmod : root % pageSize = 0) (hun : Unshared frameOf s.entry root 3) (v n : ℕ)
    (flags : BitVec 64) : PlainTables (vflagsCR3 s v n flags root) root := by
  intro p i hp
  rw [(vflagsCR3_leaf hmod hun v n flags).1 p i hp]
  exact h p i hp

/-- A hole becomes a mapping. -/
theorem KeepsMappings.not_hole {s : Paging} {root : ℕ} (hmod : root % pageSize = 0)
    (hun : Unshared frameOf s.entry root 3) (hplain : PlainTables s root) {v n w : ℕ}
    {flags : BitVec 64} (hpres : flags &&& 1 = 1)
    (h : KeepsMappings s (vflagsCR3 s v n flags root) root v n) (hw : InRange v n w) :
    ¬ Hole s root w := by
  rintro ⟨hsome, hleaf⟩
  have hnew := (vflagsCR3_leaf hmod hun v n flags).2 w
  rw [if_pos ⟨hw, hsome⟩] at hnew
  have htr := h.translated w
  rw [address_of_plain hplain, address_of_plain (hplain.vflagsCR3 hmod hun v n flags), hnew,
    vflags_present hpres, if_neg (by decide), if_pos hleaf] at htr
  cases htr

/-- **Changing flags keeps every mapping exactly if the range has no hole**: in every
well-formed tree, for every range and every value of `convAddrSpaceFlagsToPaging`, after
`vflagsCR3` exactly the pages that were translated are, each to the same frame, with the same
accessed and dirty bits, and the pages outside of the range are as before, if and only if every
page of the range that has a level-1 table is present in it. -/
theorem vflags_keeps_mappings_iff {s : Paging} {root : ℕ} (hmod : root % pageSize = 0)
    (hun : Unshared frameOf s.entry root 3) (hplain : PlainTables s root) (v n : ℕ)
    (f : BitVec 32) :
    KeepsMappings s (vflagsCR3 s v n (convAddrSpaceFlagsToPaging f) root) root v n ↔
      ∀ i < n, ¬ Hole s root (add64 v (i * pageSize)) := by
  obtain ⟨hflags, hpres⟩ := convAddrSpaceFlagsToPaging_bits f
  constructor
  · exact fun h i hi => h.not_hole hmod hun hplain hpres ⟨i, hi, rfl⟩
  intro hholes
  obtain ⟨hupper, hleaf⟩ := vflagsCR3_leaf hmod hun v n (convAddrSpaceFlagsToPaging f)
  have hplain' := hplain.vflagsCR3 hmod hun v n (convAddrSpaceFlagsToPaging f)
  refine ⟨fun w => ?_, fun w => ?_, hupper, fun w hw => by rw [hleaf w, if_neg fun hc => hw hc.1]⟩
  · rw [address_of_plain hplain, address_of_plain hplain', hleaf w]
    by_cases hin : InRange v n w ∧ s.tableAt root (pagePath w) ≠ none
    · have hpresent : ¬ s.leaf root w &&& 1 = 0 := by
        obtain ⟨⟨i, hi, hw⟩, hsome⟩ := hin
        intro hz
        refine hholes i hi ⟨?_, ?_⟩
        · rw [← (pagePath_eq_iff.mpr hw).1]
          exact hsome
        · rw [← leaf_congr _ _ hw]
          exact hz
      rw [if_pos hin, vflags_present hpres, if_neg (by decide), if_neg hpresent,
        frameOf_vflags hflags]
    · rw [if_neg hin]
  · rw [hleaf w]
    split_ifs
    · exact vflags_accessed (convAddrSpaceFlagsToPaging_accessed f)
    · rfl

/-! ### The tree with one leaf -/

theorem oneLeaf_plain : PlainTables oneLeaf 0x1000 := by
  intro p i hp
  by_cases hne : oneLeaf.entryAt 0x1000 p i = 0
  · exact Or.inl hne
  obtain ⟨t, ht, hent⟩ := exists_tableAt_of_entryAt_ne hne
  refine Or.inr ?_
  rw [Paging.entryAt, ← hent] at hne ⊢
  rw [oneLeaf_entry (tableAt_mod rfl ht)] at hne ⊢
  obtain ⟨-, rfl⟩ := oneLeaf_tableAt hp.le ht
  split_ifs at hne ⊢ <;> first | decide | omega | exact absurd rfl hne

theorem oneLeaf_leaf {v : ℕ} (hpath : pagePath v = [0, 0, 0]) :
    oneLeaf.tableAt 0x1000 (pagePath v) = some 0x4000 ∧
      oneLeaf.leaf 0x1000 v = if pageP1E v = 0 then 0x5003 else 0 := by
  have htab : oneLeaf.tableAt 0x1000 (pagePath v) = some 0x4000 := by
    have h4 : oneLeaf.entry 0x1000 0 = 0x2003 := by
      rw [oneLeaf_entry rfl]
      rfl
    have h3 : oneLeaf.entry 0x2000 0 = 0x3003 := by
      rw [oneLeaf_entry rfl]
      rfl
    have h2 : oneLeaf.entry 0x3000 0 = 0x4003 := by
      rw [oneLeaf_entry rfl]
      rfl
    rw [hpath, Paging.tableAt, tableAt, h4, if_neg (by decide), tableAt,
      show frameOf 0x2003 = 0x2000 from rfl, h3, if_neg (by decide), tableAt,
      show frameOf 0x3003 = 0x3000 from rfl, h2, if_neg (by decide)]
    rfl
  refine ⟨htab, ?_⟩
  rw [Paging.leaf, Paging.entryAt, entryAt_of_tableAt htab, oneLeaf_entry rfl]
  simp

/-- The flags of the one mapped page are changed. -/
theorem vflags_keeps_mappings_iff_oneLeaf :
    KeepsMappings oneLeaf (vflagsCR3 oneLeaf 0 1 (convAddrSpaceFlagsToPaging 2) 0x1000) 0x1000
      0 1 := by
  refine (vflags_keeps_mappings_iff rfl oneLeaf_fullTree.unshared oneLeaf_plain 0 1 2).mpr ?_
  rintro i hi ⟨-, hleaf⟩
  obtain rfl : i = 0 := by omega
  rw [(oneLeaf_leaf (v := add64 0 (0 * pageSize)) rfl).2] at hleaf
  exact absurd hleaf (by decide)

/-- The page after it is a hole, and a change of its flags maps it to the frame `0`. -/
theorem vflags_maps_hole :
    ¬ KeepsMappings oneLeaf (vflagsCR3 oneLeaf 0x1000 1 (convAddrSpaceFlagsToPaging 2) 0x1000)
        0x1000 0x1000 1 ∧
      oneLeaf.translation 0x1000 0x1000 = none ∧
      (vflagsCR3 oneLeaf 0x1000 1 (convAddrSpaceFlagsToPaging 2) 0x1000).leaf 0x1000 0x1000
        = convAddrSpaceFlagsToPaging 2 := by
  obtain ⟨htab, hleaf⟩ := oneLeaf_leaf (v := 0x1000) rfl
  rw [if_neg (by decide)] at hleaf
  have hsome : oneLeaf.tableAt 0x1000 (pagePath 0x1000) ≠ none := by
    rw [htab]
    exact Option.some_ne_none _
  have hrange : InRange 0x1000 1 0x1000 := ⟨0, by decide, by decide⟩
  refine ⟨fun h => h.not_hole rfl oneLeaf_fullTree.unshared oneLeaf_plain (by decide) hrange
    ⟨hsome, ?_⟩, ?_, ?_⟩
  · rw [hleaf]
    decide
  · have htr := translation_of_plain oneLeaf_plain 0x1000
    rwa [hleaf, if_pos (by decide)] at htr
  · rw [(vflagsCR3_leaf rfl oneLeaf_fullTree.unshared _ _ _).2, if_pos ⟨hrange, hsome⟩, hleaf]
    decide

end AnglOS
