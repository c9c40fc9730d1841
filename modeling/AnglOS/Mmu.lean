import AnglOS.PagingTree

/-!
# The Memory Management Unit

What the processor makes of a tree of page tables. In contrast to the walks of `paging.c`, which
ask whether an entry is zero, the processor asks whether it is present, and an entry of level 3
or 2 with the page-size bit maps a large page and ends the walk.

* `Translation`, `Paging.translation` — the entry that maps an address, the size of the page,
  and the rights that the entries of all levels grant.
* `Paging.writeAddress`, `Paging.readAddress` — the physical address of an access in kernel mode,
  if it does not fault.

## Main results

* `translation_congr` — a translation depends on the tables that its walk passes;
* `translation_of_plain`, `translation_of_small` — the translation of a page below upper entries
  that are present and map no large page.
-/

namespace AnglOS

/-- The page-size bit of an entry of level 3 or 2. -/
abbrev pageFlagLarge : BitVec 64 := 0x80

/-- An address that the processor accepts: bits 47 to 63 are equal. -/
def canonical (v : ℕ) : Prop := v < 2 ^ 47 ∨ (2 ^ 64 - 2 ^ 47 ≤ v ∧ v < 2 ^ 64)

instance (v : ℕ) : Decidable (canonical v) := inferInstanceAs (Decidable (_ ∨ _))

/-- How an address is mapped. -/
structure Translation where
  /-- The page has `2 ^ shift` bytes. -/
  shift : ℕ
  /-- The entry that maps the page. -/
  entry : BitVec 64
  /-- The bits that the entries of all levels have. -/
  rights : BitVec 64
  deriving DecidableEq

/-- The physical address of `v` under a translation. -/
def Translation.address (t : Translation) (v : ℕ) : ℕ :=
  frameOf t.entry / 2 ^ t.shift * 2 ^ t.shift + v % 2 ^ t.shift

/-- The index of an address in a table of level `level + 1`. -/
def pageIndex (level v : ℕ) : Fin 512 := Fin.ofNat 512 (v >>> (12 + 9 * level))

/-- An entry of a table of level `level + 1` that maps a page, if it is present. -/
def MapsAt (level : ℕ) (e : BitVec 64) : Prop :=
  level = 0 ∨ (level ≤ 2 ∧ e &&& pageFlagLarge ≠ 0)

instance (level : ℕ) (e : BitVec 64) : Decidable (MapsAt level e) :=
  inferInstanceAs (Decidable (_ ∨ _))

/-- The walk of the processor through the tables of the lowest `level` levels. -/
def Paging.translationFrom (s : Paging) (v : ℕ) : (level table : ℕ) → BitVec 64 →
    Option Translation
  | 0, _, _ => none
  | level + 1, table, rights =>
      let e := s.entry table (pageIndex level v)
      if e &&& pageFlagPresent = 0 then none
      else if MapsAt level e then some ⟨12 + 9 * level, e, rights &&& e⟩
      else s.translationFrom v level (frameOf e) (rights &&& e)

/-- The translation of an address. -/
def Paging.translation (s : Paging) (root v : ℕ) : Option Translation :=
  s.translationFrom v 4 root (BitVec.allOnes 64)

/-- The physical address that a read of the byte at `v` goes to, `none` for a fault. -/
def Paging.readAddress (s : Paging) (v : ℕ) : Option ℕ :=
  if canonical v then (s.translation s.cr3 v).map fun t => t.address v else none

/-- The physical address that a write of the byte at `v` goes to, `none` for a fault. Kernel mode
respects the write bit, since `CR0.WP` is set. -/
def Paging.writeAddress (s : Paging) (v : ℕ) : Option ℕ :=
  if canonical v then
    (s.translation s.cr3 v).bind fun t =>
      if t.rights &&& pageFlagReadwrite = 0 then none else some (t.address v)
  else none

/-- Assign to a byte of physical memory. -/
def Paging.setByte (s : Paging) (a : ℕ) (b : BitVec 8) : Paging :=
  { s with mem := s.mem.store8 a b }

/-! ### What a translation depends on -/

/-- The processor's walk for `v` from a table of level `level` on passes `t` as a table of level
`l + 1`. -/
def Paging.PassesFrom (s : Paging) (v l t : ℕ) : (level table : ℕ) → Prop
  | 0, _ => False
  | level + 1, table =>
      (l = level ∧ t = table) ∨ (s.entry table (pageIndex level v) &&& pageFlagPresent ≠ 0 ∧
        ¬ MapsAt level (s.entry table (pageIndex level v)) ∧
        s.PassesFrom v l t level (frameOf (s.entry table (pageIndex level v))))

/-- The processor's walk for `v` passes `t` as a table of level `l + 1`. -/
def Paging.Passes (s : Paging) (root v l t : ℕ) : Prop := s.PassesFrom v l t 4 root

theorem translationFrom_congr {s s' : Paging} {v level table : ℕ} (rights : BitVec 64)
    (h : ∀ l t, s.PassesFrom v l t level table →
      s'.entry t (pageIndex l v) = s.entry t (pageIndex l v)) :
    s'.translationFrom v level table rights = s.translationFrom v level table rights := by
  induction level generalizing table rights with
  | zero => rfl
  | succ level ih =>
      simp only [Paging.translationFrom]
      rw [h level table (Or.inl ⟨rfl, rfl⟩)]
      split_ifs with hp hm
      · rfl
      · rfl
      · exact ih _ fun l t ht => h l t (Or.inr ⟨hp, hm, ht⟩)

/-- **A translation depends on the entries that its walk passes.** -/
theorem translation_congr {s s' : Paging} {root v : ℕ}
    (h : ∀ l t, s.Passes root v l t → s'.entry t (pageIndex l v) = s.entry t (pageIndex l v)) :
    s'.translation root v = s.translation root v :=
  translationFrom_congr _ h

/-- The tables that a walk passes are tables of the tree. -/
theorem passesFrom_tableAt {s : Paging} {root v l t level table : ℕ} {p : List (Fin 512)}
    (hp : p.length + level = 4) (htable : s.tableAt root p = some table)
    (h : s.PassesFrom v l t level table) : ∃ q, q.length + l = 3 ∧ s.tableAt root q = some t := by
  induction level generalizing p table with
  | zero => exact h.elim
  | succ level ih =>
      rcases h with ⟨rfl, rfl⟩ | ⟨hpres, -, h⟩
      · exact ⟨p, by omega, htable⟩
      · refine ih (p := p ++ [pageIndex level v]) (by simp; omega) ?_ h
        have hne : s.entry table (pageIndex level v) ≠ 0 := by
          intro hz
          rw [hz] at hpres
          exact hpres (by decide)
        rw [Paging.tableAt, tableAt_concat, entryAt_of_tableAt htable, if_neg hne]

theorem Paging.Passes.tableAt {s : Paging} {root v l t : ℕ} (h : s.Passes root v l t) :
    ∃ p, p.length + l = 3 ∧ s.tableAt root p = some t :=
  passesFrom_tableAt (p := []) rfl rfl h

/-! ### Small pages -/

/-- Bits of a word under a mask. -/
theorem and_of_mask {e m b c : BitVec 64} (h : e &&& m = c) (hm : m &&& b = b) :
    e &&& b = c &&& b := by
  rw [← h, BitVec.and_assoc, hm]

/-- The processor's walk goes on in the table that an entry leads to. -/
theorem translationFrom_table {s : Paging} {v level t : ℕ} {r : BitVec 64} (hlevel : level ≠ 0)
    (h : s.entry t (pageIndex level v) &&& 0x81 = 1) :
    s.translationFrom v (level + 1) t r =
      s.translationFrom v level (frameOf (s.entry t (pageIndex level v)))
        (r &&& s.entry t (pageIndex level v)) := by
  have hpres : s.entry t (pageIndex level v) &&& 1 = 1 := and_of_mask h rfl
  have hlarge : s.entry t (pageIndex level v) &&& 0x80 = 0 := and_of_mask h rfl
  have hmaps : ¬MapsAt level (s.entry t (pageIndex level v)) := by
    rintro (hzero | ⟨-, hbit⟩)
    · exact hlevel hzero
    · exact hbit hlarge
  have hnp : ¬s.entry t (pageIndex level v) &&& pageFlagPresent = 0 := by
    rw [hpres]
    decide
  rw [Paging.translationFrom]
  simp only [if_neg hnp, if_neg hmaps]

/-- The processor's walk ends at an entry that is zero. -/
theorem translationFrom_zero {s : Paging} {v level t : ℕ} {r : BitVec 64}
    (hz : s.entry t (pageIndex level v) = 0) : s.translationFrom v (level + 1) t r = none := by
  rw [Paging.translationFrom, hz]
  rfl

/-- The upper entries of the tree are absent, or present and map no large page. -/
def PlainTables (s : Paging) (root : ℕ) : Prop :=
  ∀ p i, p.length < 3 → s.entryAt root p i = 0 ∨ s.entryAt root p i &&& 0x81 = 1

/-- The upper entries of the tree are absent or have the bits `b`. -/
def UpperBits (s : Paging) (root : ℕ) (b : BitVec 64) : Prop :=
  ∀ p i, p.length < 3 → s.entryAt root p i = 0 ∨ s.entryAt root p i &&& b = b

/-- The upper entries of the tree are absent, or present and writable and map no large page. -/
def SmallPages (s : Paging) (root : ℕ) : Prop :=
  ∀ p i, p.length < 3 → s.entryAt root p i = 0 ∨ s.entryAt root p i &&& 0x83 = 3

theorem SmallPages.plain {s : Paging} {root : ℕ} (h : SmallPages s root) : PlainTables s root :=
  fun p i hp => (h p i hp).imp_right fun hbits => and_of_mask hbits (by decide)

theorem SmallPages.upperBits {s : Paging} {root : ℕ} (h : SmallPages s root) :
    UpperBits s root 2 :=
  fun p i hp => (h p i hp).imp_right fun hbits => and_of_mask hbits (by decide)

/-- One level of the walk in a tree of small pages. -/
theorem translationFrom_step {s : Paging} {root v level t : ℕ} {p : List (Fin 512)}
    (rights : BitVec 64) (hplain : PlainTables s root) (hp : p.length < 3)
    (ht : s.tableAt root p = some t) (hlevel : level ≠ 0) :
    s.translationFrom v (level + 1) t rights =
      if s.entry t (pageIndex level v) = 0 then none
      else s.translationFrom v level (frameOf (s.entry t (pageIndex level v)))
        (rights &&& s.entry t (pageIndex level v)) := by
  have hentry := hplain p (pageIndex level v) hp
  rw [Paging.entryAt, entryAt_of_tableAt ht] at hentry
  rcases hentry with hz | hbits
  · rw [translationFrom_zero hz, if_pos hz]
  · have hne : s.entry t (pageIndex level v) ≠ 0 := by
      intro hz
      rw [hz] at hbits
      exact absurd hbits (by decide)
    rw [translationFrom_table hlevel hbits, if_neg hne]

/-- The walk goes on in the table that an entry points to, and the rights keep the bits that all
upper entries have. -/
theorem translationFrom_down {s : Paging} {root v level t : ℕ} {p : List (Fin 512)}
    (rights : BitVec 64) (hplain : PlainTables s root) (hp : p.length < 3)
    (ht : s.tableAt root p = some t) (hlevel : level ≠ 0) :
    (s.translationFrom v (level + 1) t rights = none ∧
        s.tableAt root (p ++ [pageIndex level v]) = none) ∨
      ∃ t' rights', s.translationFrom v (level + 1) t rights
          = s.translationFrom v level t' rights' ∧
        (∀ b, UpperBits s root b → rights &&& b = b → rights' &&& b = b) ∧
        s.tableAt root (p ++ [pageIndex level v]) = some t' := by
  have htab : s.tableAt root (p ++ [pageIndex level v]) = if s.entry t (pageIndex level v) = 0
      then none else some (frameOf (s.entry t (pageIndex level v))) := by
    rw [Paging.tableAt, tableAt_concat, entryAt_of_tableAt ht]
  rw [htab, translationFrom_step (v := v) rights hplain hp ht hlevel]
  by_cases hz : s.entry t (pageIndex level v) = 0
  · rw [if_pos hz, if_pos hz]
    exact Or.inl ⟨rfl, rfl⟩
  · rw [if_neg hz, if_neg hz]
    refine Or.inr ⟨_, _, rfl, fun b hupper hrights => ?_, rfl⟩
    have hbit := hupper p (pageIndex level v) hp
    rw [Paging.entryAt, entryAt_of_tableAt ht] at hbit
    rw [BitVec.and_assoc, hbit.resolve_left hz, hrights]

/-- A page without its level-1 table has no leaf. -/
theorem leaf_eq_zero {s : Paging} {root v : ℕ} (h : s.tableAt root (pagePath v) = none) :
    s.leaf root v = 0 := entryAt_of_tableAt_none h

/-- **The translation in a tree of small pages** is that of its leaf entry, and its rights have a
bit that all upper entries have if the leaf entry has it. -/
theorem translation_of_plain {s : Paging} {root : ℕ} (hplain : PlainTables s root) (v : ℕ) :
    if s.leaf root v &&& pageFlagPresent = 0 then s.translation root v = none
    else ∃ rights, s.translation root v = some ⟨12, s.leaf root v, rights⟩ ∧
      ∀ b, UpperBits s root b → rights &&& b = s.leaf root v &&& b := by
  have hmissing : s.translation root v = none → s.tableAt root (pagePath v) = none →
      if s.leaf root v &&& pageFlagPresent = 0 then s.translation root v = none
      else ∃ rights, s.translation root v = some ⟨12, s.leaf root v, rights⟩ ∧
        ∀ b, UpperBits s root b → rights &&& b = s.leaf root v &&& b := by
    intro hnone htab
    rw [leaf_eq_zero htab, if_pos (by decide)]
    exact hnone
  have hbelow : ∀ p q, s.tableAt root p = none → p ++ q = pagePath v →
      s.tableAt root (pagePath v) = none := by
    intro p q hnone hpq
    rw [← hpq, Paging.tableAt, tableAt_append,
      show tableAt frameOf s.entry root p = none from hnone]
    rfl
  unfold Paging.translation at hmissing ⊢
  rcases translationFrom_down (v := v) (BitVec.allOnes 64) hplain (p := []) (by simp) rfl
    (by decide : (3 : ℕ) ≠ 0) with ⟨hnone, htab⟩ | ⟨t₃, r₃, heq₃, hr₃, ht₃⟩
  · exact hmissing hnone (hbelow _ [pageP3E v, pageP2E v] htab rfl)
  rcases translationFrom_down (v := v) r₃ hplain (by simp) ht₃ (by decide : (2 : ℕ) ≠ 0) with
    ⟨hnone, htab⟩ | ⟨t₂, r₂, heq₂, hr₂, ht₂⟩
  · exact hmissing (heq₃.trans hnone) (hbelow _ [pageP2E v] htab rfl)
  rcases translationFrom_down (v := v) r₂ hplain (by simp) ht₂ (by decide : (1 : ℕ) ≠ 0) with
    ⟨hnone, htab⟩ | ⟨t₁, r₁, heq₁, hr₁, ht₁⟩
  · exact hmissing ((heq₃.trans heq₂).trans hnone) htab
  have hleaf : s.leaf root v = s.entry t₁ (pageIndex 0 v) := entryAt_of_tableAt ht₁
  rw [heq₃, heq₂, heq₁, Paging.translationFrom, hleaf]
  have hmaps : MapsAt 0 (s.entry t₁ (pageIndex 0 v)) := Or.inl rfl
  by_cases hp : s.entry t₁ (pageIndex 0 v) &&& pageFlagPresent = 0
  · simp only [if_pos hp]
  · simp only [if_neg hp, if_pos hmaps]
    refine ⟨_, rfl, fun b hupper => ?_⟩
    have hbits := hr₁ b hupper (hr₂ b hupper (hr₃ b hupper BitVec.allOnes_and))
    rw [BitVec.and_assoc, BitVec.and_comm _ b, ← BitVec.and_assoc, hbits, BitVec.and_comm]

/-- **The translation in a tree of small, writable pages**: a write needs the write bit of the
leaf entry only. -/
theorem translation_of_small {s : Paging} {root : ℕ} (hsmall : SmallPages s root) (v : ℕ) :
    if s.leaf root v &&& pageFlagPresent = 0 then s.translation root v = none
    else ∃ rights, s.translation root v = some ⟨12, s.leaf root v, rights⟩ ∧
      rights &&& 2 = s.leaf root v &&& 2 := by
  have h := translation_of_plain hsmall.plain v
  split_ifs at h ⊢
  · exact h
  · obtain ⟨rights, htr, hbits⟩ := h
    exact ⟨rights, htr, hbits 2 hsmall.upperBits⟩

end AnglOS
