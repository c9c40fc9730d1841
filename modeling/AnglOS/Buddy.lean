import Mathlib.Tactic
import Mathlib.Data.Finset.Card
import Mathlib.Data.Finset.Union
import Mathlib.Order.Interval.Finset.Nat

/-!
# Buddy Blocks

The general theory of a binary buddy system. A *block* `(i, j)` is the aligned run of
`2 ^ i` pages that starts at page `j * 2 ^ i`; a finite set of blocks describes which
pages are free. The theory knows nothing of bitmaps, counters, or a particular number
of levels.

* `Apart` — no page lies in two blocks of the set; `cover` is the set of pages.
* `tail n i j` — the blocks that remain of block `(i, j)` once its first `n` pages are
  taken, as the recursive splitting of a buddy allocator produces them. `cover_tail`
  says which pages they hold.
* `Maximal t` — below level `t` no two buddies are both in the set. `mem_iff_of_maximal`
  shows that such a set is determined by the pages it covers.
-/

namespace AnglOS.Buddy

/-- A block: its level and its index on that level. -/
abbrev Block := ℕ × ℕ

/-- The pages of a block. -/
def pages (b : Block) : Finset ℕ :=
  Finset.Ico (b.2 * 2 ^ b.1) ((b.2 + 1) * 2 ^ b.1)

/-- The pages that a set of blocks covers. -/
def cover (B : Finset Block) : Finset ℕ :=
  B.biUnion pages

/-- No page lies in two blocks. -/
def Apart (B : Finset Block) : Prop :=
  ∀ b ∈ B, ∀ c ∈ B, ∀ p ∈ pages b, p ∈ pages c → b = c

/-- Below level `t` no two buddies are both in the set. -/
def Maximal (t : ℕ) (B : Finset Block) : Prop :=
  ∀ i < t, ∀ k, ¬((i, 2 * k) ∈ B ∧ (i, 2 * k + 1) ∈ B)

/-! ### Pages of a block -/

/-- A page lies in block `(i, j)` exactly when its index on level `i` is `j`. -/
theorem mem_pages {i j p : ℕ} : p ∈ pages (i, j) ↔ p / 2 ^ i = j := by
  have h : 0 < 2 ^ i := Nat.two_pow_pos i
  simp only [pages, Finset.mem_Ico]
  rw [Nat.div_eq_iff h]
  constructor
  · rintro ⟨h1, h2⟩
    rw [Nat.add_mul] at h2
    omega
  · rintro ⟨h1, h2⟩
    rw [Nat.add_mul]
    omega

/-- The first page of a block is one of its pages. -/
theorem first_mem_pages (i j : ℕ) : j * 2 ^ i ∈ pages (i, j) := by
  rw [mem_pages, Nat.mul_div_cancel _ (Nat.two_pow_pos i)]

/-- A page lies in a block of level `i + 1` exactly when its child index does. -/
theorem mem_pages_succ {i k p : ℕ} :
    p ∈ pages (i + 1, k) ↔ p ∈ pages (i, 2 * k) ∨ p ∈ pages (i, 2 * k + 1) := by
  simp only [mem_pages, pow_succ, ← Nat.div_div_eq_div_mul]
  omega

/-- A block is contained in its parent. -/
theorem pages_subset_parent (i j : ℕ) : pages (i, j) ⊆ pages (i + 1, j / 2) := by
  intro p hp
  rw [mem_pages] at hp ⊢
  rw [pow_succ, ← Nat.div_div_eq_div_mul, hp]

/-- Two blocks of one level that share a page are equal. -/
theorem eq_of_mem_pages {i j k p : ℕ} (hj : p ∈ pages (i, j)) (hk : p ∈ pages (i, k)) :
    j = k := by
  rw [mem_pages] at hj hk
  omega

/-- A block is contained in each of its ancestors. -/
theorem pages_subset_of_le {i i' j : ℕ} (h : i ≤ i') :
    pages (i, j) ⊆ pages (i', j / 2 ^ (i' - i)) := by
  intro p hp
  rw [mem_pages] at hp ⊢
  rw [← hp, Nat.div_div_eq_div_mul, ← pow_add]
  congr 2
  omega

/-- A block that shares a page with a block of a level at least as high is contained
in it. -/
theorem pages_subset_of_mem {i i' j j' p : ℕ} (h : i ≤ i') (hp : p ∈ pages (i, j))
    (hp' : p ∈ pages (i', j')) : pages (i, j) ⊆ pages (i', j') := by
  have h1 := pages_subset_of_le (j := j) h
  rw [eq_of_mem_pages (h1 hp) hp'] at h1
  exact h1

/-! ### Cover -/

/-- A page is covered exactly when some block of the set holds it. -/
theorem mem_cover {B : Finset Block} {p : ℕ} : p ∈ cover B ↔ ∃ b ∈ B, p ∈ pages b := by
  simp [cover]

/-- Adding a block adds its pages. -/
theorem cover_insert (b : Block) (B : Finset Block) :
    cover (insert b B) = pages b ∪ cover B := by
  simp [cover]

/-- The cover of a union is the union of the covers. -/
theorem cover_union (A B : Finset Block) : cover (A ∪ B) = cover A ∪ cover B := by
  ext p
  simp only [mem_cover, Finset.mem_union]
  constructor
  · rintro ⟨b, hb | hb, hp⟩
    · exact Or.inl ⟨b, hb, hp⟩
    · exact Or.inr ⟨b, hb, hp⟩
  · rintro (⟨b, hb, hp⟩ | ⟨b, hb, hp⟩)
    · exact ⟨b, Or.inl hb, hp⟩
    · exact ⟨b, Or.inr hb, hp⟩

/-- Single pages cover themselves. -/
theorem cover_image_zero (P : Finset ℕ) : cover (P.image (Prod.mk 0)) = P := by
  ext p
  simp [mem_cover, mem_pages]

/-- In a set of apart blocks, removing a block removes exactly its pages. -/
theorem cover_erase {B : Finset Block} (hB : Apart B) {b : Block} (hb : b ∈ B) :
    cover (B.erase b) = cover B \ pages b := by
  ext p
  simp only [mem_cover, Finset.mem_erase, Finset.mem_sdiff]
  constructor
  · rintro ⟨c, ⟨hne, hc⟩, hp⟩
    exact ⟨⟨c, hc, hp⟩, fun hpb => hne (hB c hc b hb p hp hpb)⟩
  · rintro ⟨⟨c, hc, hp⟩, hnot⟩
    exact ⟨c, ⟨fun h => hnot (h ▸ hp), hc⟩, hp⟩

/-! ### Apartness -/

/-- A subset of apart blocks is apart. -/
theorem Apart.mono {A B : Finset Block} (hB : Apart B) (h : A ⊆ B) : Apart A :=
  fun b hb c hc => hB b (h hb) c (h hc)

/-- Two apart sets with disjoint covers are apart together. -/
theorem Apart.union {A B : Finset Block} (hA : Apart A) (hB : Apart B)
    (h : Disjoint (cover A) (cover B)) : Apart (A ∪ B) := by
  have hcross : ∀ b ∈ A, ∀ c ∈ B, ∀ p ∈ pages b, p ∉ pages c := fun b hb c hc p hpb hpc =>
    Finset.disjoint_left.mp h (mem_cover.mpr ⟨b, hb, hpb⟩) (mem_cover.mpr ⟨c, hc, hpc⟩)
  intro b hb c hc p hpb hpc
  rcases Finset.mem_union.mp hb with hb | hb <;> rcases Finset.mem_union.mp hc with hc | hc
  · exact hA b hb c hc p hpb hpc
  · exact absurd hpc (hcross b hb c hc p hpb)
  · exact absurd hpb (hcross c hc b hb p hpc)
  · exact hB b hb c hc p hpb hpc

/-- One block is apart. -/
theorem apart_singleton (b : Block) : Apart {b} := by
  intro c hc d hd _ _ _
  rw [Finset.mem_singleton.mp hc, Finset.mem_singleton.mp hd]

/-- A block whose pages are not covered may be added. -/
theorem Apart.insert {B : Finset Block} (hB : Apart B) {b : Block}
    (h : Disjoint (pages b) (cover B)) : Apart (insert b B) := by
  rw [Finset.insert_eq]
  refine (apart_singleton b).union hB ?_
  simpa [cover] using h

/-- Single pages that are not covered may be added. -/
theorem apart_union_image {B : Finset Block} (hB : Apart B) {P : Finset ℕ}
    (h : Disjoint (cover B) P) : Apart (B ∪ P.image (Prod.mk 0)) := by
  refine hB.union ?_ (by rwa [cover_image_zero])
  intro b hb c hc p hp hq
  obtain ⟨x, -, rfl⟩ := Finset.mem_image.mp hb
  obtain ⟨y, -, rfl⟩ := Finset.mem_image.mp hc
  rw [eq_of_mem_pages hp hq]

/-- In a set of apart blocks, no proper ancestor of a member is a member. -/
theorem Apart.parent_notMem {B : Finset Block} (hB : Apart B) {i j : ℕ} (h : (i, j) ∈ B) :
    (i + 1, j / 2) ∉ B := by
  intro hp
  have heq := hB _ h _ hp _ (first_mem_pages i j)
    (pages_subset_parent i j (first_mem_pages i j))
  have : i = i + 1 := congrArg Prod.fst heq
  omega

/-! ### Splitting a block -/

/-- The blocks left of block `(i, j)` when its first `n` pages are taken: while the taken
part fits in the left half the right half is left over whole, otherwise the left half is
used up and the right half is split further. -/
def tail : ℕ → ℕ → ℕ → Finset Block
  | _, 0, _ => ∅
  | n, i + 1, j =>
      if n = 2 ^ (i + 1) then ∅
      else if n ≤ 2 ^ i then insert (i, 2 * j + 1) (tail n i (2 * j))
      else tail (n - 2 ^ i) i (2 * j + 1)

/-- The leftover blocks lie on strictly lower levels. -/
theorem level_lt_of_mem_tail {b : Block} :
    ∀ {i n j : ℕ}, b ∈ tail n i j → b.1 < i := by
  intro i
  induction i with
  | zero => intro n j h; simp [tail] at h
  | succ i ih =>
      intro n j h
      rw [tail] at h
      split_ifs at h with h1 h2
      · simp at h
      · rcases Finset.mem_insert.mp h with rfl | h
        · exact Nat.lt_succ_self i
        · exact Nat.lt_succ_of_lt (ih h)
      · exact Nat.lt_succ_of_lt (ih h)

/-- The leftover blocks are descendants of the block that was split. -/
theorem ancestor_of_mem_tail {l k : ℕ} :
    ∀ {i n j : ℕ}, (l, k) ∈ tail n i j → k / 2 ^ (i - l) = j := by
  intro i
  induction i with
  | zero => intro n j h; simp [tail] at h
  | succ i ih =>
      intro n j h
      have hlt := level_lt_of_mem_tail h
      have hpow : 2 ^ (i + 1 - l) = 2 ^ (i - l) * 2 := by
        rw [← pow_succ]
        congr 1
        omega
      rw [hpow, ← Nat.div_div_eq_div_mul]
      rw [tail] at h
      split_ifs at h with h1 h2
      · simp at h
      · rcases Finset.mem_insert.mp h with heq | h
        · obtain ⟨rfl, rfl⟩ := Prod.mk.inj heq
          rw [Nat.sub_self, pow_zero, Nat.div_one]
          omega
        · rw [ih h]
          omega
      · rw [ih h]
        omega

/-- No two leftover blocks are on one level. -/
theorem eq_of_mem_tail {l k k' : ℕ} :
    ∀ {i n j : ℕ}, (l, k) ∈ tail n i j → (l, k') ∈ tail n i j → k = k' := by
  intro i
  induction i with
  | zero => intro n j h; simp [tail] at h
  | succ i ih =>
      intro n j h h'
      rw [tail] at h h'
      split_ifs at h h' with h1 h2
      · simp at h
      · rw [Finset.mem_insert, Prod.mk.injEq] at h h'
        rcases h with ⟨rfl, rfl⟩ | h <;> rcases h' with ⟨h', rfl⟩ | h'
        · rfl
        · exact absurd (level_lt_of_mem_tail h') (lt_irrefl _)
        · exact absurd (h' ▸ level_lt_of_mem_tail h) (lt_irrefl _)
        · exact ih h h'
      · exact ih h h'

/-- The leftover blocks hold exactly the pages after the first `n`. -/
theorem cover_tail : ∀ (i : ℕ) {n j : ℕ}, 1 ≤ n →
    cover (tail n i j) = Finset.Ico (j * 2 ^ i + n) ((j + 1) * 2 ^ i) := by
  intro i
  induction i with
  | zero =>
      intro n j hn
      rw [tail, Finset.Ico_eq_empty (by simp; omega)]
      rfl
  | succ i ih =>
      intro n j hn
      have hpow : 2 ^ (i + 1) = 2 * 2 ^ i := by ring
      have hj : j * 2 ^ (i + 1) = 2 * (j * 2 ^ i) := by ring
      have hj1 : (j + 1) * 2 ^ (i + 1) = 2 * (j * 2 ^ i) + 2 * 2 ^ i := by ring
      have hl : 2 * j * 2 ^ i = 2 * (j * 2 ^ i) := by ring
      have hl1 : (2 * j + 1) * 2 ^ i = 2 * (j * 2 ^ i) + 2 ^ i := by ring
      have hl2 : (2 * j + 1 + 1) * 2 ^ i = 2 * (j * 2 ^ i) + 2 * 2 ^ i := by ring
      rw [tail]
      split_ifs with h1 h2
      · rw [Finset.Ico_eq_empty (by omega)]
        rfl
      · rw [cover_insert, ih hn]
        ext p
        simp only [pages, Finset.mem_union, Finset.mem_Ico]
        omega
      · rw [ih (by omega)]
        ext p
        simp only [Finset.mem_Ico]
        omega

/-- The leftover blocks lie inside the block that was split. -/
theorem cover_tail_subset {i n j : ℕ} (hn : 1 ≤ n) : cover (tail n i j) ⊆ pages (i, j) := by
  rw [cover_tail i hn, pages]
  exact Finset.Ico_subset_Ico_left (by simp)

/-- The leftover blocks are apart. -/
theorem apart_tail : ∀ (i : ℕ) {n j : ℕ}, 1 ≤ n → Apart (tail n i j) := by
  intro i
  induction i with
  | zero => intro n j _ b hb; simp [tail] at hb
  | succ i ih =>
      intro n j hn
      rw [tail]
      split_ifs with h1 h2
      · intro b hb; simp at hb
      · refine (ih hn).insert (Finset.disjoint_left.mpr fun p hp hc => ?_)
        have := eq_of_mem_pages hp (cover_tail_subset hn hc)
        omega
      · exact ih (by omega)

/-- No two leftover blocks are buddies. -/
theorem tail_maximal (t : ℕ) : ∀ (i : ℕ) {n j : ℕ}, Maximal t (tail n i j) := by
  intro i
  induction i with
  | zero => intro n j i' _ k h; simp [tail] at h
  | succ i ih =>
      intro n j i' hi' k h
      rw [tail] at h
      split_ifs at h with h1 h2
      · simp at h
      · simp only [Finset.mem_insert, Prod.mk.injEq] at h
        obtain ⟨⟨rfl, h3⟩ | h3, ⟨h4, h5⟩ | h4⟩ := h
        · omega
        · exact absurd (level_lt_of_mem_tail h4) (lt_irrefl _)
        · exact absurd (h4 ▸ level_lt_of_mem_tail h3) (lt_irrefl _)
        · exact ih i' hi' k ⟨h3, h4⟩
      · exact ih i' hi' k h

/-- Taking the first `n` pages of a free block removes exactly these pages. -/
theorem cover_erase_union_tail {B : Finset Block} (hB : Apart B) {n i j : ℕ} (hn : 1 ≤ n)
    (hi : n ≤ 2 ^ i) (hb : (i, j) ∈ B) :
    cover (B.erase (i, j) ∪ tail n i j) =
      cover B \ Finset.Ico (j * 2 ^ i) (j * 2 ^ i + n) := by
  rw [cover_union, cover_erase hB hb, cover_tail i hn]
  ext p
  have hin : p ∈ pages (i, j) → p ∈ cover B := fun hp => mem_cover.mpr ⟨_, hb, hp⟩
  simp only [pages, Finset.mem_union, Finset.mem_sdiff, Finset.mem_Ico, add_mul, one_mul] at *
  constructor
  · rintro (⟨h1, h2⟩ | h)
    · exact ⟨h1, by omega⟩
    · exact ⟨hin (by omega), by omega⟩
  · rintro ⟨h1, h2⟩
    by_cases h3 : j * 2 ^ i ≤ p ∧ p < j * 2 ^ i + 2 ^ i
    · exact Or.inr (by omega)
    · exact Or.inl ⟨h1, h3⟩

/-- What is left of the free blocks when a block is taken and its tail comes back stays
apart. -/
theorem apart_erase_union_tail {B : Finset Block} (hB : Apart B) {n i j : ℕ} (hn : 1 ≤ n)
    (hb : (i, j) ∈ B) : Apart (B.erase (i, j) ∪ tail n i j) := by
  refine (hB.mono (Finset.erase_subset _ _)).union (apart_tail i hn) ?_
  rw [cover_erase hB hb]
  exact Finset.disjoint_sdiff.symm.mono_right (cover_tail_subset hn)

/-- Taking the first pages of a free block leaves no buddies together: a leftover block
and its buddy lie in the block that was taken, which is free no more. -/
theorem Maximal.erase_union_tail {t : ℕ} {B : Finset Block} (hB : Maximal t B) (ha : Apart B)
    {n i j : ℕ} (hn : 1 ≤ n) (hb : (i, j) ∈ B) : Maximal t (B.erase (i, j) ∪ tail n i j) := by
  have hmixed : ∀ {l k k' : ℕ}, (l, k) ∈ tail n i j → k / 2 = k' / 2 →
      (l, k') ∉ B.erase (i, j) := by
    intro l k k' htail hkk hmem
    have hlt : l < i := level_lt_of_mem_tail htail
    have hin := cover_tail_subset hn (mem_cover.mpr ⟨_, htail, first_mem_pages l k⟩)
    have hpar : pages (l + 1, k / 2) ⊆ pages (i, j) :=
      pages_subset_of_mem hlt (pages_subset_parent l k (first_mem_pages l k)) hin
    have hpage : k' * 2 ^ l ∈ pages (i, j) :=
      hpar (hkk ▸ pages_subset_parent l k' (first_mem_pages l k'))
    obtain ⟨hne, hmem⟩ := Finset.mem_erase.mp hmem
    exact hne (ha _ hmem _ hb _ (first_mem_pages l k') hpage)
  rintro l hl k ⟨hleft, hright⟩
  rcases Finset.mem_union.mp hleft with hleft | hleft <;>
    rcases Finset.mem_union.mp hright with hright | hright
  · exact hB l hl k ⟨Finset.mem_of_mem_erase hleft, Finset.mem_of_mem_erase hright⟩
  · exact hmixed hright (by omega) hleft
  · exact hmixed hleft (by omega) hright
  · exact tail_maximal t i l hl k ⟨hleft, hright⟩

/-! ### Maximal sets are determined by their cover -/

/-- In a maximal set, a block whose pages are all covered lies inside a member of a
level at least as high. Induction on the level: two halves that are members themselves
would be buddies. -/
theorem exists_ancestor_of_maximal {t : ℕ} {B : Finset Block}
    (hmax : Maximal t B) : ∀ {i j : ℕ}, i ≤ t → pages (i, j) ⊆ cover B →
      ∃ i', i ≤ i' ∧ (i', j / 2 ^ (i' - i)) ∈ B := by
  intro i
  induction i with
  | zero =>
      intro j _ hsub
      obtain ⟨⟨i', j'⟩, hb, hp⟩ := mem_cover.mp (hsub (first_mem_pages 0 j))
      rw [mem_pages] at hp
      refine ⟨i', Nat.zero_le _, ?_⟩
      simpa [← hp] using hb
  | succ i ih =>
      intro j hi hsub
      have hchild : ∀ c, pages (i, 2 * j + c) ⊆ pages (i + 1, j) → c ≤ 1 →
          (i, 2 * j + c) ∈ B ∨ ∃ i', i + 1 ≤ i' ∧ (i', j / 2 ^ (i' - (i + 1))) ∈ B := by
        intro c hc hc1
        obtain ⟨i', hle, hmem⟩ := ih (by omega) (hc.trans hsub)
        rcases Nat.eq_or_lt_of_le hle with rfl | hlt
        · exact Or.inl (by simpa using hmem)
        · refine Or.inr ⟨i', hlt, ?_⟩
          have hexp : 2 ^ (i' - i) = 2 * 2 ^ (i' - (i + 1)) := by
            rw [← pow_succ']
            congr 1
            omega
          have hdiv : (2 * j + c) / 2 = j := by omega
          rwa [hexp, ← Nat.div_div_eq_div_mul, hdiv] at hmem
      have hsubl : pages (i, 2 * j + 0) ⊆ pages (i + 1, j) := fun p hp =>
        mem_pages_succ.mpr (Or.inl hp)
      have hsubr : pages (i, 2 * j + 1) ⊆ pages (i + 1, j) := fun p hp =>
        mem_pages_succ.mpr (Or.inr hp)
      rcases hchild 0 hsubl (by omega) with hl | h
      · rcases hchild 1 hsubr (by omega) with hr | h
        · exact absurd ⟨hl, hr⟩ (hmax i (by omega) j)
        · exact h
      · exact h

/-- A maximal set of apart blocks is determined by its cover: it holds the covered blocks
whose parent is not covered. -/
theorem mem_iff_of_maximal {t : ℕ} {B : Finset Block} (hB : Apart B) (hmax : Maximal t B)
    (ht : ∀ b ∈ B, b.1 ≤ t) {i j : ℕ} (hi : i ≤ t) :
    (i, j) ∈ B ↔ pages (i, j) ⊆ cover B ∧ (i = t ∨ ¬pages (i + 1, j / 2) ⊆ cover B) := by
  constructor
  · intro h
    refine ⟨fun p hp => mem_cover.mpr ⟨_, h, hp⟩, ?_⟩
    by_contra hc
    push Not at hc
    obtain ⟨i', hle, hmem⟩ := exists_ancestor_of_maximal hmax (by omega) hc.2
    have hp := first_mem_pages i j
    have heq := hB _ h _ hmem _ hp
      (pages_subset_of_le hle (pages_subset_parent i j hp))
    have : i = i' := congrArg Prod.fst heq
    omega
  · rintro ⟨hsub, htop⟩
    obtain ⟨i', hle, hmem⟩ := exists_ancestor_of_maximal hmax hi hsub
    rcases Nat.eq_or_lt_of_le hle with rfl | hlt
    · simpa using hmem
    · exfalso
      have hi' := ht _ hmem
      refine htop.elim (fun h => by simp only at hi'; omega) fun h => h fun p hp => ?_
      refine mem_cover.mpr ⟨_, hmem, ?_⟩
      have hexp : 2 ^ (i' - i) = 2 * 2 ^ (i' - (i + 1)) := by
        rw [← pow_succ']
        congr 1
        omega
      rw [hexp, ← Nat.div_div_eq_div_mul]
      exact pages_subset_of_le hlt hp

/-- Two maximal sets of apart blocks that cover the same pages are equal. -/
theorem eq_of_maximal_of_cover_eq {t : ℕ} {A B : Finset Block} (hA : Apart A) (hB : Apart B)
    (hAmax : Maximal t A) (hBmax : Maximal t B) (hAt : ∀ b ∈ A, b.1 ≤ t)
    (hBt : ∀ b ∈ B, b.1 ≤ t) (h : cover A = cover B) : A = B := by
  ext ⟨i, j⟩
  by_cases hi : i ≤ t
  · rw [mem_iff_of_maximal hA hAmax hAt hi, mem_iff_of_maximal hB hBmax hBt hi, h]
  · exact ⟨fun hm => absurd (hAt _ hm) hi, fun hm => absurd (hBt _ hm) hi⟩

/-! ### The maximal blocks of a set of pages -/

/-- The set holds exactly the blocks of level at most `t` that are contained in `U` and, on
levels below `t`, whose parent is not. -/
def MaximalIn (t : ℕ) (U : Finset ℕ) (B : Finset Block) : Prop :=
  ∀ i j, (i, j) ∈ B ↔ i ≤ t ∧ pages (i, j) ⊆ U ∧ (i < t → ¬pages (i + 1, j / 2) ⊆ U)

/-- The maximal blocks are apart. -/
theorem MaximalIn.apart {t : ℕ} {U : Finset ℕ} {B : Finset Block} (h : MaximalIn t U B) :
    Apart B := by
  have hlt : ∀ {i j i' j' p : ℕ}, (i, j) ∈ B → (i', j') ∈ B → p ∈ pages (i, j) →
      p ∈ pages (i', j') → ¬i < i' := by
    intro i j i' j' p hb hb' hp hp' hlt
    obtain ⟨-, -, htop⟩ := (h i j).mp hb
    obtain ⟨hle, hsub, -⟩ := (h i' j').mp hb'
    refine htop (by omega) ((pages_subset_of_mem hlt ?_ hp').trans hsub)
    exact pages_subset_parent i j hp
  rintro ⟨i, j⟩ hb ⟨i', j'⟩ hb' p hp hp'
  obtain rfl : i = i' := le_antisymm (not_lt.mp (hlt hb' hb hp' hp)) (not_lt.mp (hlt hb hb' hp hp'))
  rw [eq_of_mem_pages hp hp']

/-- No two maximal blocks are buddies. -/
theorem MaximalIn.maximal {t : ℕ} {U : Finset ℕ} {B : Finset Block} (h : MaximalIn t U B) :
    Maximal t B := by
  rintro i hi k ⟨hl, hr⟩
  obtain ⟨-, hsub, htop⟩ := (h i _).mp hl
  obtain ⟨-, hsub', -⟩ := (h i _).mp hr
  refine htop hi fun p hp => ?_
  rw [show 2 * k / 2 = k by omega] at hp
  rcases mem_pages_succ.mp hp with hp | hp
  · exact hsub hp
  · exact hsub' hp

/-- The maximal blocks cover the set: a page lies in the largest block around it that is
contained in the set. -/
theorem MaximalIn.cover_eq {t : ℕ} {U : Finset ℕ} {B : Finset Block} (h : MaximalIn t U B) :
    cover B = U := by
  ext p
  rw [mem_cover]
  constructor
  · rintro ⟨⟨i, j⟩, hb, hp⟩
    exact ((h i j).mp hb).2.1 hp
  · intro hp
    have hzero : pages (0, p / 2 ^ 0) ⊆ U := by
      intro q hq
      rw [mem_pages] at hq
      simp only [pow_zero, Nat.div_one] at hq
      exact hq ▸ hp
    set l := Nat.findGreatest (fun l => pages (l, p / 2 ^ l) ⊆ U) t with hl
    have hsub : pages (l, p / 2 ^ l) ⊆ U :=
      Nat.findGreatest_spec (P := fun l => pages (l, p / 2 ^ l) ⊆ U) (Nat.zero_le t) hzero
    refine ⟨(l, p / 2 ^ l), (h _ _).mpr ⟨Nat.findGreatest_le t, hsub, fun hlt => ?_⟩,
      mem_pages.mpr rfl⟩
    rw [Nat.div_div_eq_div_mul, ← pow_succ]
    exact Nat.findGreatest_is_greatest (Nat.lt_succ_self l) hlt

/-- Apart blocks cover the sum of their sizes. -/
theorem card_cover {B : Finset Block} (h : Apart B) : (cover B).card = ∑ b ∈ B, 2 ^ b.1 := by
  rw [cover, Finset.card_biUnion]
  · refine Finset.sum_congr rfl fun b _ => ?_
    rw [pages, Nat.card_Ico, add_mul, one_mul, Nat.add_sub_cancel_left]
  · intro b hb c hc hne
    exact Finset.disjoint_left.mpr fun p hp hq => hne (h b hb c hc p hp hq)

end AnglOS.Buddy
