import AnglOS.Buddy

/-!
# Merging Buddies

`merge B i k` replaces the buddies `(i, 2k)` and `(i, 2k + 1)` by their parent
`(i + 1, k)` when both are in `B`; `mergeRange` merges a run of consecutive pairs of one
level, and `mergeUp` repeats that level by level while it halves the start and the number
of the pairs it looks at. Merging never changes which pages are covered.

`mergeUp` looks at `(n / 2 ^ i + 1) / 2` pairs on level `i`, starting with the pair of
page `p`. `Reaches` says that these pairs include every parent block that the `n` pages
at `p` complete; under it `mergeUp` restores maximality (`mergeUp_maximal`), and only
under it (`reaches_of_mergeUp_maximal`).
-/

namespace AnglOS.Buddy

/-- Replace two buddies by their parent, if both are there. -/
def merge (B : Finset Block) (i k : ℕ) : Finset Block :=
  if (i, 2 * k) ∈ B ∧ (i, 2 * k + 1) ∈ B then
    ((insert (i + 1, k) B).erase (i, 2 * k)).erase (i, 2 * k + 1)
  else B

/-- Merge the `c` pairs of level `i` from pair `k` on. -/
def mergeRange (B : Finset Block) (i k : ℕ) : ℕ → Finset Block
  | 0 => B
  | c + 1 => mergeRange (merge B i k) i (k + 1) c

/-- Merge upwards over `r` levels from level `i`, halving the start `p` and the number of
blocks `n` at every level. -/
def mergeUp : ℕ → Finset Block → ℕ → ℕ → ℕ → Finset Block
  | 0, B, _, _, _ => B
  | r + 1, B, n, i, p => mergeUp r (mergeRange B i (p / 2) ((n + 1) / 2)) (n / 2) (i + 1) (p / 2)

/-! ### One merge -/

/-- Membership after a merge that takes place. -/
theorem mem_merge_of_both {B : Finset Block} {i k : ℕ}
    (h : (i, 2 * k) ∈ B ∧ (i, 2 * k + 1) ∈ B) {b : Block} :
    b ∈ merge B i k ↔ b ≠ (i, 2 * k + 1) ∧ b ≠ (i, 2 * k) ∧ (b = (i + 1, k) ∨ b ∈ B) := by
  rw [merge, if_pos h]
  simp only [Finset.mem_erase, Finset.mem_insert]

/-- Merging does not change the pages covered. -/
theorem cover_merge (B : Finset Block) (i k : ℕ) : cover (merge B i k) = cover B := by
  by_cases h : (i, 2 * k) ∈ B ∧ (i, 2 * k + 1) ∈ B
  · ext p
    simp only [mem_cover]
    constructor
    · rintro ⟨b, hb, hp⟩
      obtain ⟨-, -, rfl | hb⟩ := (mem_merge_of_both h).mp hb
      · rcases mem_pages_succ.mp hp with hp | hp
        · exact ⟨_, h.1, hp⟩
        · exact ⟨_, h.2, hp⟩
      · exact ⟨b, hb, hp⟩
    · rintro ⟨b, hb, hp⟩
      have hpar : (i + 1, k) ∈ merge B i k := by
        refine (mem_merge_of_both h).mpr ⟨?_, ?_, Or.inl rfl⟩ <;>
          · intro heq
            have := congrArg Prod.fst heq
            simp at this
      by_cases h1 : b = (i, 2 * k + 1)
      · exact ⟨_, hpar, mem_pages_succ.mpr (Or.inr (h1 ▸ hp))⟩
      by_cases h2 : b = (i, 2 * k)
      · exact ⟨_, hpar, mem_pages_succ.mpr (Or.inl (h2 ▸ hp))⟩
      · exact ⟨b, (mem_merge_of_both h).mpr ⟨h1, h2, Or.inr hb⟩, hp⟩
  · rw [merge, if_neg h]

/-- Merging keeps blocks apart. -/
theorem Apart.merge {B : Finset Block} (hB : Apart B) (i k : ℕ) : Apart (merge B i k) := by
  by_cases h : (i, 2 * k) ∈ B ∧ (i, 2 * k + 1) ∈ B
  · have hpar : ∀ b ∈ B, b ≠ (i, 2 * k + 1) → b ≠ (i, 2 * k) → ∀ p ∈ pages b,
        p ∉ pages (i + 1, k) := by
      intro b hb h1 h2 p hp hpk
      rcases mem_pages_succ.mp hpk with hpk | hpk
      · exact h2 (hB b hb _ h.1 p hp hpk)
      · exact h1 (hB b hb _ h.2 p hp hpk)
    intro b hb c hc p hpb hpc
    obtain ⟨hb1, hb2, rfl | hb⟩ := (mem_merge_of_both h).mp hb <;>
      obtain ⟨hc1, hc2, rfl | hc⟩ := (mem_merge_of_both h).mp hc
    · rfl
    · exact absurd hpb (hpar c hc hc1 hc2 p hpc)
    · exact absurd hpc (hpar b hb hb1 hb2 p hpb)
    · exact hB b hb c hc p hpb hpc
  · rwa [Buddy.merge, if_neg h]

/-- Blocks of levels other than the two that a merge touches stay as they are. -/
theorem mem_merge_of_level {B : Finset Block} {i k i' j : ℕ} (h1 : i' ≠ i)
    (h2 : i' ≠ i + 1) : (i', j) ∈ merge B i k ↔ (i', j) ∈ B := by
  by_cases h : (i, 2 * k) ∈ B ∧ (i, 2 * k + 1) ∈ B
  · rw [mem_merge_of_both h]
    simp [h1, h2]
  · rw [merge, if_neg h]

/-- On its own level a merge keeps the other pairs. -/
theorem mem_merge_level {B : Finset Block} {i k j : ℕ} :
    (i, j) ∈ merge B i k ↔
      (i, j) ∈ B ∧ ¬(j / 2 = k ∧ (i, 2 * k) ∈ B ∧ (i, 2 * k + 1) ∈ B) := by
  by_cases h : (i, 2 * k) ∈ B ∧ (i, 2 * k + 1) ∈ B
  · rw [mem_merge_of_both h]
    have hj : (j ≠ 2 * k + 1 ∧ j ≠ 2 * k) ↔ j / 2 ≠ k := by omega
    simp only [ne_eq, Prod.mk.injEq, true_and, h, and_self, and_true]
    rw [← and_assoc, hj]
    simp [and_comm]
  · rw [merge, if_neg h]
    tauto

/-- On the level above, a merge adds the parent it makes. -/
theorem mem_merge_succ {B : Finset Block} {i k j : ℕ} :
    (i + 1, j) ∈ merge B i k ↔
      (i + 1, j) ∈ B ∨ j = k ∧ (i, 2 * k) ∈ B ∧ (i, 2 * k + 1) ∈ B := by
  by_cases h : (i, 2 * k) ∈ B ∧ (i, 2 * k + 1) ∈ B
  · rw [mem_merge_of_both h]
    simp [h, or_comm]
  · rw [merge, if_neg h]
    tauto

/-! ### A run of merges on one level -/

/-- The last merge of a run, split off. -/
theorem mergeRange_succ (i : ℕ) : ∀ (c k : ℕ) (B : Finset Block),
    mergeRange B i k (c + 1) = merge (mergeRange B i k c) i (k + c) := by
  intro c
  induction c with
  | zero => intro k B; rfl
  | succ c ih =>
      intro k B
      rw [mergeRange, ih, mergeRange]
      congr 1
      omega

/-- A run of merges does not change the pages covered. -/
theorem cover_mergeRange (i : ℕ) : ∀ (c k : ℕ) (B : Finset Block),
    cover (mergeRange B i k c) = cover B := by
  intro c
  induction c with
  | zero => intro k B; rfl
  | succ c ih => intro k B; rw [mergeRange, ih, cover_merge]

/-- A run of merges keeps blocks apart. -/
theorem Apart.mergeRange (i : ℕ) : ∀ (c k : ℕ) {B : Finset Block}, Apart B →
    Apart (mergeRange B i k c) := by
  intro c
  induction c with
  | zero => intro k B h; exact h
  | succ c ih => intro k B h; exact ih (k + 1) (h.merge i k)

/-- Levels other than the two touched stay as they are. -/
theorem mem_mergeRange_of_level {i i' j : ℕ} (h1 : i' ≠ i) (h2 : i' ≠ i + 1) :
    ∀ (c k : ℕ) (B : Finset Block), (i', j) ∈ mergeRange B i k c ↔ (i', j) ∈ B := by
  intro c
  induction c with
  | zero => intro k B; rfl
  | succ c ih => intro k B; rw [mergeRange, ih, mem_merge_of_level h1 h2]

/-- On its own level a run of merges removes exactly the pairs of the run that are
complete. -/
theorem mem_mergeRange_level {i j : ℕ} : ∀ (c k : ℕ) (B : Finset Block),
    (i, j) ∈ mergeRange B i k c ↔
      (i, j) ∈ B ∧ ¬(k ≤ j / 2 ∧ j / 2 < k + c ∧
        (i, 2 * (j / 2)) ∈ B ∧ (i, 2 * (j / 2) + 1) ∈ B) := by
  intro c
  induction c with
  | zero => intro k B; simp only [mergeRange]; constructor <;> intro h <;> grind
  | succ c ih =>
      intro k B
      rw [mergeRange, ih]
      simp only [mem_merge_level]
      have h1 : 2 * (j / 2) / 2 = j / 2 := by omega
      have h2 : (2 * (j / 2) + 1) / 2 = j / 2 := by omega
      rw [h1, h2]
      by_cases hk : j / 2 = k
      · rw [hk]
        constructor
        · rintro ⟨⟨hj, hn⟩, -⟩
          exact ⟨hj, fun h => hn ⟨rfl, h.2.2⟩⟩
        · rintro ⟨hj, hn⟩
          exact ⟨⟨hj, fun h => hn ⟨le_refl _, by omega, h.2⟩⟩, fun h => by omega⟩
      · constructor
        · rintro ⟨⟨hj, -⟩, hn⟩
          refine ⟨hj, fun h => hn ⟨by omega, by omega, ?_⟩⟩
          exact ⟨⟨h.2.2.1, fun h' => hk h'.1⟩, h.2.2.2, fun h' => hk h'.1⟩
        · rintro ⟨hj, hn⟩
          exact ⟨⟨hj, fun h => hk h.1⟩, fun h => hn ⟨by omega, by omega, h.2.2.1.1, h.2.2.2.1⟩⟩

/-- On the level above, a run of merges adds the parents of the complete pairs of the
run. -/
theorem mem_mergeRange_succ {i j : ℕ} : ∀ (c k : ℕ) (B : Finset Block),
    (i + 1, j) ∈ mergeRange B i k c ↔
      (i + 1, j) ∈ B ∨ k ≤ j ∧ j < k + c ∧ (i, 2 * j) ∈ B ∧ (i, 2 * j + 1) ∈ B := by
  intro c
  induction c with
  | zero => intro k B; simp only [mergeRange]; constructor <;> intro h <;> grind
  | succ c ih =>
      intro k B
      rw [mergeRange, ih, mem_merge_succ]
      simp only [mem_merge_level]
      have h1 : 2 * j / 2 = j := by omega
      have h2 : (2 * j + 1) / 2 = j := by omega
      rw [h1, h2]
      by_cases hk : j = k
      · subst hk
        constructor
        · rintro ((h | ⟨-, h⟩) | h)
          · exact Or.inl h
          · exact Or.inr ⟨le_refl _, by omega, h⟩
          · omega
        · rintro (h | h)
          · exact Or.inl (Or.inl h)
          · exact Or.inl (Or.inr ⟨rfl, h.2.2⟩)
      · constructor
        · rintro ((h | ⟨h, -⟩) | h)
          · exact Or.inl h
          · exact absurd h hk
          · exact Or.inr ⟨by omega, by omega, h.2.2.1.1, h.2.2.2.1⟩
        · rintro (h | h)
          · exact Or.inl (Or.inl h)
          · refine Or.inr ⟨by omega, by omega, ⟨h.2.2.1, fun h' => hk h'.1⟩, h.2.2.2, ?_⟩
            exact fun h' => hk h'.1

/-! ### Merging upwards -/

/-- Merging upwards does not change the pages covered. -/
theorem cover_mergeUp : ∀ (r : ℕ) (B : Finset Block) (n i p : ℕ),
    cover (mergeUp r B n i p) = cover B := by
  intro r
  induction r with
  | zero => intro B n i p; rfl
  | succ r ih => intro B n i p; rw [mergeUp, ih, cover_mergeRange]

/-- Merging upwards keeps blocks apart. -/
theorem Apart.mergeUp : ∀ (r : ℕ) {B : Finset Block} (n i p : ℕ), Apart B →
    Apart (mergeUp r B n i p) := by
  intro r
  induction r with
  | zero => intro B n i p h; exact h
  | succ r ih => intro B n i p h; exact ih _ _ _ (h.mergeRange i _ _)

/-- The pairs that `mergeUp` looks at on each level below `t`, when it starts with `n`
pages at page `p`, include every block of the next level that these pages complete to a
block inside `S`. -/
def Reaches (t : ℕ) (S : Finset ℕ) (p n : ℕ) : Prop :=
  ∀ i < t, ∀ k, pages (i + 1, k) ⊆ S → (∃ q ∈ Finset.Ico p (p + n), q ∈ pages (i + 1, k)) →
    k < p / 2 ^ (i + 1) + (n / 2 ^ i + 1) / 2

/-- Below level `t`, buddies that are both in `B` occur on level `i` only, and each such
pair holds one of the pages `P`. -/
structure Pending (t : ℕ) (P : Finset ℕ) (i : ℕ) (B : Finset Block) : Prop where
  elsewhere : ∀ i' < t, i' ≠ i → ∀ k, ¬((i', 2 * k) ∈ B ∧ (i', 2 * k + 1) ∈ B)
  meets : i < t → ∀ k, (i, 2 * k) ∈ B → (i, 2 * k + 1) ∈ B →
    ∃ q ∈ P, q ∈ pages (i + 1, k)

/-- The run of merges on level `i` moves the pending pairs up by one level: the pairs of
level `i` that are still both there were not looked at, and `Reaches` excludes them; a
new pair on level `i + 1` has a new member, which holds a page of `P`. -/
theorem Pending.mergeRange {t i p n : ℕ} {B : Finset Block} (hi : i < t)
    (h : Pending t (Finset.Ico p (p + n)) i B) (hr : Reaches t (cover B) p n) :
    Pending t (Finset.Ico p (p + n)) (i + 1)
      (mergeRange B i (p / 2 ^ (i + 1)) ((n / 2 ^ i + 1) / 2)) := by
  constructor
  · intro i' hi' hne k hk
    by_cases hii : i' = i
    · subst hii
      obtain ⟨⟨hl, hnl⟩, hr', -⟩ := And.imp (mem_mergeRange_level _ _ _).mp
        (mem_mergeRange_level _ _ _).mp hk
      obtain ⟨q, hq, hqk⟩ := h.meets hi' k hl hr'
      have hsub : pages (i' + 1, k) ⊆ cover B := by
        intro x hx
        rcases mem_pages_succ.mp hx with hx | hx
        · exact mem_cover.mpr ⟨_, hl, hx⟩
        · exact mem_cover.mpr ⟨_, hr', hx⟩
      have hup := hr i' hi' k hsub ⟨q, hq, hqk⟩
      have hlo : p / 2 ^ (i' + 1) ≤ k := by
        rw [mem_pages] at hqk
        rw [← hqk]
        exact Nat.div_le_div_right (Finset.mem_Ico.mp hq).1
      have h2 : 2 * k / 2 = k := by omega
      rw [h2] at hnl
      exact hnl ⟨hlo, hup, hl, hr'⟩
    · rw [mem_mergeRange_of_level hii hne, mem_mergeRange_of_level hii hne] at hk
      exact h.elsewhere i' hi' hii k hk
  · intro hit k hl hr'
    rw [mem_mergeRange_succ] at hl hr'
    rcases hl with hl | ⟨-, -, hl1, hl2⟩
    · rcases hr' with hr' | ⟨-, -, hr1, hr2⟩
      · exact absurd ⟨hl, hr'⟩ (h.elsewhere (i + 1) hit (by omega) k)
      · obtain ⟨q, hq, hqk⟩ := h.meets hi _ hr1 hr2
        exact ⟨q, hq, mem_pages_succ.mpr (Or.inr hqk)⟩
    · obtain ⟨q, hq, hqk⟩ := h.meets hi _ hl1 hl2
      exact ⟨q, hq, mem_pages_succ.mpr (Or.inl hqk)⟩

/-- **Merging upwards restores maximality** when it reaches every block that the pages
complete. -/
theorem mergeUp_maximal {p n : ℕ} : ∀ (r : ℕ) {i : ℕ} {B : Finset Block},
    Pending (i + r) (Finset.Ico p (p + n)) i B → Reaches (i + r) (cover B) p n →
    Maximal (i + r) (mergeUp r B (n / 2 ^ i) i (p / 2 ^ i)) := by
  intro r
  induction r with
  | zero =>
      intro i B h _ i' hi' k
      exact h.elsewhere i' hi' (by omega) k
  | succ r ih =>
      intro i B h hr
      have hp : p / 2 ^ i / 2 = p / 2 ^ (i + 1) := by
        rw [Nat.div_div_eq_div_mul, ← pow_succ]
      have hn : n / 2 ^ i / 2 = n / 2 ^ (i + 1) := by
        rw [Nat.div_div_eq_div_mul, ← pow_succ]
      have hstep := h.mergeRange (by omega) hr
      rw [show i + (r + 1) = i + 1 + r by omega] at hstep hr ⊢
      rw [mergeUp, hp, hn]
      refine ih hstep ?_
      rwa [cover_mergeRange]

/-- Adding the pages `P` as single blocks to a maximal set leaves pairs pending on level
zero only. -/
theorem pending_of_maximal {t : ℕ} {B : Finset Block} {P : Finset ℕ} (hB : Maximal t B) :
    Pending t P 0 (B ∪ P.image (Prod.mk 0)) := by
  have hmem : ∀ i j, (i, j) ∈ B ∪ P.image (Prod.mk 0) ↔ (i, j) ∈ B ∨ i = 0 ∧ j ∈ P := by
    intro i j
    simp only [Finset.mem_union, Finset.mem_image, Prod.mk.injEq]
    constructor
    · rintro (h | ⟨q, hq, rfl, rfl⟩)
      · exact Or.inl h
      · exact Or.inr ⟨rfl, hq⟩
    · rintro (h | ⟨rfl, hq⟩)
      · exact Or.inl h
      · exact Or.inr ⟨j, hq, rfl, rfl⟩
  constructor
  · intro i' hi' hne k hk
    simp only [hmem, hne, false_and, or_false] at hk
    exact hB i' hi' k hk
  · intro ht k hl hr
    simp only [hmem, true_and] at hl hr
    have hpage : ∀ j, j / 2 = k → j ∈ pages (0 + 1, k) := by
      intro j hj
      rw [mem_pages]
      simpa using hj
    rcases hl with hl | hl
    · rcases hr with hr | hr
      · exact absurd ⟨hl, hr⟩ (hB 0 ht k)
      · exact ⟨_, hr, hpage _ (by omega)⟩
    · exact ⟨_, hl, hpage _ (by omega)⟩

/-! ### Necessity -/

/-- Levels below the start of `mergeUp` stay as they are. -/
theorem mem_mergeUp_of_lt {i' j : ℕ} : ∀ (r : ℕ) {B : Finset Block} {n i p : ℕ}, i' < i →
    ((i', j) ∈ mergeUp r B n i p ↔ (i', j) ∈ B) := by
  intro r
  induction r with
  | zero => intro B n i p _; rfl
  | succ r ih =>
      intro B n i p h
      rw [mergeUp, ih (by omega), mem_mergeRange_of_level (by omega) (by omega)]

/-- A block of the start level inside a member of the result lies inside a member of the
same or a higher level to begin with. -/
theorem exists_mem_of_mem_mergeUp : ∀ (r : ℕ) {B : Finset Block} {n i p i' j' k : ℕ},
    (i', j') ∈ mergeUp r B n i p → i ≤ i' → pages (i, k) ⊆ pages (i', j') →
    ∃ c ∈ B, i ≤ c.1 ∧ pages (i, k) ⊆ pages c := by
  intro r
  induction r with
  | zero => intro B n i p i' j' k h hi hk; exact ⟨_, h, hi, hk⟩
  | succ r ih =>
      intro B n i p i' j' k h hi hk
      rw [mergeUp] at h
      rcases Nat.eq_or_lt_of_le hi with rfl | hlt
      · rw [mem_mergeUp_of_lt r (Nat.lt_succ_self _)] at h
        exact ⟨_, ((mem_mergeRange_level _ _ _).mp h).1, hi, hk⟩
      · have hpar : pages (i + 1, k / 2) ⊆ pages (i', j') :=
          pages_subset_of_mem hlt (pages_subset_parent i k (first_mem_pages i k))
            (hk (first_mem_pages i k))
        obtain ⟨⟨a, b⟩, hc, hle, hsub⟩ := ih h hlt hpar
        have hkc := (pages_subset_parent i k).trans hsub
        by_cases ha : a = i + 1
        · subst ha
          rcases (mem_mergeRange_succ _ _ _).mp hc with hc | ⟨-, -, h1, h2⟩
          · exact ⟨_, hc, by simp, hkc⟩
          · have hb := hkc (first_mem_pages i k)
            rcases mem_pages_succ.mp hb with hb | hb
            · exact ⟨_, h1, le_refl _, pages_subset_of_mem (le_refl _) (first_mem_pages i k) hb⟩
            · exact ⟨_, h2, le_refl _, pages_subset_of_mem (le_refl _) (first_mem_pages i k) hb⟩
        · simp only at hle
          rw [mem_mergeRange_of_level (by omega) ha] at hc
          exact ⟨_, hc, by simp only; omega, hkc⟩

/-- A block inside a member of the result was looked at on the level below it, unless it
was inside a member to begin with. -/
theorem looked_at_of_mem_mergeUp {p n : ℕ} : ∀ (r : ℕ) {B : Finset Block} {i i' j' l k : ℕ},
    (i', j') ∈ mergeUp r B (n / 2 ^ i) i (p / 2 ^ i) → i ≤ l → l < i' →
    pages (l + 1, k) ⊆ pages (i', j') →
    (∃ c ∈ B, l + 1 ≤ c.1 ∧ pages (l + 1, k) ⊆ pages c) ∨
      k < p / 2 ^ (l + 1) + (n / 2 ^ l + 1) / 2 := by
  intro r
  induction r with
  | zero => intro B i i' j' l k h _ hl hk; exact Or.inl ⟨_, h, hl, hk⟩
  | succ r ih =>
      intro B i i' j' l k h hil hl hk
      have hp : p / 2 ^ i / 2 = p / 2 ^ (i + 1) := by
        rw [Nat.div_div_eq_div_mul, ← pow_succ]
      have hn : n / 2 ^ i / 2 = n / 2 ^ (i + 1) := by
        rw [Nat.div_div_eq_div_mul, ← pow_succ]
      rw [mergeUp, hp, hn] at h
      rcases Nat.eq_or_lt_of_le hil with rfl | hlt
      · obtain ⟨⟨a, b⟩, hc, hle, hsub⟩ := exists_mem_of_mem_mergeUp r h hl hk
        by_cases ha : a = i + 1
        · subst ha
          obtain rfl : k = b :=
            eq_of_mem_pages (first_mem_pages _ k) (hsub (first_mem_pages _ k))
          rcases (mem_mergeRange_succ _ _ _).mp hc with hc | ⟨-, hup, -⟩
          · exact Or.inl ⟨_, hc, hle, hsub⟩
          · exact Or.inr hup
        · simp only at hle
          rw [mem_mergeRange_of_level (by omega) ha] at hc
          exact Or.inl ⟨_, hc, hle, hsub⟩
      · rcases ih h hlt hl hk with ⟨⟨a, b⟩, hc, hle, hsub⟩ | hup
        · simp only at hle
          rw [mem_mergeRange_of_level (by omega) (by omega)] at hc
          exact Or.inl ⟨_, hc, hle, hsub⟩
        · exact Or.inr hup

/-- **Only then**: if merging upwards ends in a maximal set, it reached every block that
the pages complete. -/
theorem reaches_of_mergeUp_maximal {t p n : ℕ} {B : Finset Block}
    (hP : Disjoint (cover B) (Finset.Ico p (p + n)))
    (hmax : Maximal t (mergeUp t (B ∪ (Finset.Ico p (p + n)).image (Prod.mk 0)) n 0 p)) :
    Reaches t (cover B ∪ Finset.Ico p (p + n)) p n := by
  intro i hi k hsub hmeet
  obtain ⟨q, hq, hqk⟩ := hmeet
  have hcov : cover (mergeUp t (B ∪ (Finset.Ico p (p + n)).image (Prod.mk 0)) n 0 p) =
      cover B ∪ Finset.Ico p (p + n) := by
    rw [cover_mergeUp, cover_union, cover_image_zero]
  obtain ⟨i', hle, hmem⟩ := exists_ancestor_of_maximal hmax hi (hcov ▸ hsub)
  have hin : pages (i + 1, k) ⊆ pages (i', k / 2 ^ (i' - (i + 1))) := pages_subset_of_le hle
  have hmem' : (i', k / 2 ^ (i' - (i + 1))) ∈
      mergeUp t (B ∪ (Finset.Ico p (p + n)).image (Prod.mk 0)) (n / 2 ^ 0) 0 (p / 2 ^ 0) := by
    simpa using hmem
  rcases looked_at_of_mem_mergeUp t hmem' (Nat.zero_le _) hle hin with ⟨c, hc, hlc, hck⟩ | hup
  · exfalso
    rcases Finset.mem_union.mp hc with hc | hc
    · exact Finset.disjoint_left.mp hP (mem_cover.mpr ⟨c, hc, hck hqk⟩) hq
    · obtain ⟨x, -, rfl⟩ := Finset.mem_image.mp hc
      simp at hlc
  · exact hup

end AnglOS.Buddy
