import AnglOS.ElfImage

/-!
# Processes and Their Memories

Every process has a top-level table of its own, and all of them draw their tables and their data
frames from one allocator. This module follows the user halves of all processes together: which
frames each of them holds, and what an operation on one of them leaves alone. A translation is what
the tables say; the translation buffer and `pagingFlushTLB` are not modelled.

* `Paging.userFrames` — the frames of a user half: its tables and its data frames.
* `OwnsHalf` — a user half that was built from frames that were free at some time.
* `Confined` — the operation touched frames of one user half, and frames that nobody held.

## Main results

* `OwnsHalf.keep` — a user half does not notice what happens to other frames;
* `UserSpace.vmallocCR3_confined`, `UserSpace.vflagsCR3_confined`, `UserSpace.setByte_confined`,
  `UserSpace.confined` — mapping, changing flags, writing and loading are confined.
-/

namespace AnglOS

open Pmm

/-! ### The frames of a user half -/

/-- The frames of the user half of `r`: its tables and its data frames. -/
def Paging.userFrames (s : Paging) (r : ℕ) : Set ℕ :=
  {f | (∃ p, p.length ≤ 3 ∧ (s.lower r).tableAt r p = some f) ∨
    ∃ v, (s.lower r).leaf r v ≠ 0 ∧ f = frameOf ((s.lower r).leaf r v)}

/-- The user half of `r` was built from frames that were free at some time. -/
def OwnsHalf (s : Paging) (r : ℕ) : Prop := ∃ s₀, UserSpace s₀ s r

theorem mem_userFrames_root (s : Paging) (r : ℕ) : r ∈ s.userFrames r :=
  Or.inl ⟨[], Nat.zero_le 3, rfl⟩

theorem mem_userFrames_data {s : Paging} {r v : ℕ} (h : (s.lower r).leaf r v ≠ 0) :
    frameOf ((s.lower r).leaf r v) ∈ s.userFrames r :=
  Or.inr ⟨v, h, rfl⟩

/-- No frame of a user half is free. -/
theorem UserSpace.not_unissued {s₀ s : Paging} {r f : ℕ} (h : UserSpace s₀ s r)
    (hf : f ∈ s.userFrames r) : f ∉ s.unissued := by
  rcases hf with ⟨p, hp, ht⟩ | ⟨v, hv, rfl⟩
  · exact h.tree.issued p f hp ht
  · exact (h.data v hv).2.1

/-- The frames of a user half are its top-level table and frames that were free. -/
theorem UserSpace.userFrames_subset {s₀ s : Paging} {r f : ℕ} (h : UserSpace s₀ s r)
    (hf : f ∈ s.userFrames r) : f = r ∨ f ∈ s₀.unissued := by
  rcases hf with ⟨p, hp, ht⟩ | ⟨v, hv, rfl⟩
  · by_cases hnil : p = []
    · rw [hnil] at ht
      exact Or.inl (Option.some.inj ht).symm
    · exact Or.inr (h.tables p f hnil hp ht)
  · exact Or.inr (h.data v hv).1

/-- Where memory is the same, so is the user half. -/
theorem Tree.userHalf_congr {s s' : Paging} {r : ℕ} (h : Tree (s.lower r) r)
    (hsub : s'.unissued ⊆ s.unissued)
    (hmem : ∀ x, alignToPage x ∈ s.userFrames r → s'.mem x = s.mem x) :
    Tree (s'.lower r) r ∧
      (∀ p, p.length ≤ 3 → (s'.lower r).tableAt r p = (s.lower r).tableAt r p) ∧
      ∀ p i, p.length ≤ 3 → (s'.lower r).entryAt r p i = (s.lower r).entryAt r p i :=
  h.frame (s'.lower r) (fun x hx => by simp only [Paging.lower, hmem x (Or.inl hx)]) hsub

/-- **A user half does not notice what happens to other frames**: if its own frames keep their
bytes and frames are only issued, it keeps its frames and its bytes. -/
theorem OwnsHalf.keep {s s' : Paging} {r : ℕ} (h : OwnsHalf s r) (hsup : Supply s')
    (hstatic : s.pmm.Static s'.pmm) (hsub : s'.unissued ⊆ s.unissued)
    (hmem : ∀ x, alignToPage x ∈ s.userFrames r → s'.mem x = s.mem x) :
    OwnsHalf s' r ∧ s'.userFrames r = s.userFrames r ∧
      (∀ v, (s'.lower r).leaf r v = (s.lower r).leaf r v) ∧
      ∀ v, s'.userByte r v = s.userByte r v := by
  obtain ⟨s₀, h⟩ := h
  obtain ⟨htree, htab, hent⟩ := h.tree.userHalf_congr hsub hmem
  have hleaf : ∀ v, (s'.lower r).leaf r v = (s.lower r).leaf r v :=
    fun v => hent (pagePath v) (pageP1E v) le_rfl
  have htabs : ∀ f, (∃ p, p.length ≤ 3 ∧ (s'.lower r).tableAt r p = some f) ↔
      ∃ p, p.length ≤ 3 ∧ (s.lower r).tableAt r p = some f := fun f =>
    exists_congr fun p => and_congr_right fun hp => by rw [htab p hp]
  refine ⟨⟨{ s' with pmm := s₀.pmm, bulk := s₀.bulk, curr := s₀.curr }, ?_⟩, ?_, hleaf,
    fun v => ?_⟩
  · exact {
      supply := hsup
      tree := htree
      root := h.root
      unissued := hsub.trans h.unissued
      kept := ⟨h.kept.pmm.trans hstatic, rfl, rfl, List.prefix_rfl⟩
      small := fun p i hp => by
        rw [hent p i hp.le]
        exact h.small p i hp
      tables := fun p t hnil hp ht => h.tables p t hnil hp (by rwa [htab p hp] at ht)
      data := fun v hv => by
        rw [hleaf] at hv ⊢
        obtain ⟨hfree, hissued, hapart⟩ := h.data v hv
        exact ⟨hfree, fun hf => hissued (hsub hf), fun p hp => by
          rw [htab p hp]
          exact hapart p hp⟩
      present := fun v hv => by
        rw [hleaf] at hv ⊢
        exact h.present v hv
      inj := fun v w hv hw heq => by
        rw [hleaf] at hv heq
        rw [hleaf] at hw heq
        exact h.inj v w hv hw heq
      frame := fun _ _ _ => rfl
      top := fun _ _ _ => rfl }
  · ext f
    simp only [Paging.userFrames, Set.mem_ofPred_eq, htabs, hleaf]
  · exact userByte_congr (by rw [hleaf]) (fun _ => by rw [hleaf])
      fun hv x hx => hmem x (hx ▸ mem_userFrames_data hv)

/-! ### Operations that stay inside a user half -/

/-- The operation touched frames of the user half of `r` and frames that nobody held. -/
structure Confined (s s' : Paging) (r : ℕ) : Prop where
  /-- Frames are only issued. -/
  unissued : s'.unissued ⊆ s.unissued
  /-- New frames were free. -/
  frames : s'.userFrames r ⊆ s.userFrames r ∪ s.unissued
  /-- All other memory. -/
  mem : ∀ x, alignToPage x ∉ s.userFrames r → alignToPage x ∉ s.unissued → s'.mem x = s.mem x
  /-- The upper half of the top-level table. -/
  top : s.TopKept s' r
  /-- The rest of the state. -/
  kept : s.Kept s'

theorem Confined.refl (s : Paging) (r : ℕ) : Confined s s r :=
  ⟨subset_rfl, Set.subset_union_left, fun _ _ _ => rfl, fun _ _ _ => rfl, Paging.Kept.refl s⟩

theorem Confined.trans {s s₁ s₂ : Paging} {r : ℕ} (h₁ : Confined s s₁ r)
    (h₂ : Confined s₁ s₂ r) : Confined s s₂ r where
  unissued := h₂.unissued.trans h₁.unissued
  frames := fun f hf => (h₂.frames hf).elim (fun hf => h₁.frames hf)
    fun hf => Or.inr (h₁.unissued hf)
  mem := fun x hx hfree => by
    rw [h₂.mem x (fun hf => (h₁.frames hf).elim hx hfree) fun hf => hfree (h₁.unissued hf),
      h₁.mem x hx hfree]
  top := h₁.top.trans h₂.top
  kept := h₁.kept.trans h₂.kept

theorem Confined.withLock {s s' : Paging} {r : ℕ} {a b : Bool}
    (h : Confined { s with lock := a } s' r) : Confined s { s' with lock := b } r :=
  ⟨h.unissued, h.frames, h.mem, h.top, h.kept.1, h.kept.2, h.kept.3, h.kept.4⟩

/-- Whatever was built from free frames is confined to the new user half. -/
theorem UserSpace.confined {s₀ s : Paging} {r : ℕ} (h : UserSpace s₀ s r) : Confined s₀ s r where
  unissued := h.unissued
  frames := fun f hf => by
    rcases h.userFrames_subset hf with rfl | hf
    · exact Or.inl (mem_userFrames_root s₀ f)
    · exact Or.inr hf
  mem := fun x hx hfree => h.frame x hfree fun heq => hx (by
    rw [heq]
    exact mem_userFrames_root s₀ r)
  top := h.top
  kept := h.kept

/-- A change of entries in the tree of the lower half is confined. -/
theorem Reshapes.confined {s s' : Paging} {r : ℕ} {flags : BitVec 64} (hr : r % pageSize = 0)
    (h : Reshapes (s.lower r) (s'.lower r) r flags) (htop : s.TopKept s' r)
    (hdata : ∀ v, (s'.lower r).leaf r v ≠ 0 →
      frameOf ((s'.lower r).leaf r v) ∈ s.userFrames r ∪ s.unissued) : Confined s s' r where
  unissued := h.unissued
  frames := by
    rintro f (⟨p, hp, ht⟩ | ⟨v, hv, rfl⟩)
    · rcases h.tables p f hp ht with ht | ht
      · exact Or.inl (Or.inl ⟨p, hp, ht⟩)
      · exact Or.inr ht
    · exact hdata v hv
  mem := fun x hx hfree => by
    have hnot : ¬(r + 2048 ≤ x ∧ x < r + 4096) := by
      rintro ⟨h1, h2⟩
      have hxr : alignToPage x = r := by
        simp only [alignToPage, pageSize] at hr ⊢
        omega
      rw [hxr] at hx
      exact hx (mem_userFrames_root s r)
    have hsame := h.frame x hfree fun p hp ht => hx (Or.inl ⟨p, hp, ht⟩)
    rwa [lower_mem hnot, lower_mem hnot] at hsame
  top := htop
  kept := h.kept.of_lower

/-- **Mapping a user page** is confined. -/
theorem UserSpace.vmallocHelper_confined {s₀ s : Paging} {r v : ℕ} {flags : BitVec 64}
    (h : UserSpace s₀ s r) (hv : (pageP4E v).val < 256) (hflags : FlagBits flags)
    (hpres : flags &&& 1 = 1) (hok : ∀ e ∈ (AnglOS.vmallocHelper v r flags s).2.log, e.Good) :
    Confined s (AnglOS.vmallocHelper v r flags s).2 r := by
  obtain ⟨hcomm, htop⟩ := lower_vmallocHelper h.tree h.supply hv hflags hpres hok
  obtain ⟨f, hf, hmaps, -⟩ := h.tree.vmallocHelper (v := v) (h.supply.lower r) hflags hpres
    (by rwa [hcomm])
  rw [hcomm] at hmaps
  refine hmaps.toReshapes.confined h.tree.root_mod htop fun w hw => ?_
  rw [hmaps.leaf w] at hw ⊢
  split_ifs at hw ⊢ with hpage
  · rw [frameOf_makeEntry (h.supply.aligned f hf) (h.supply.lt f hf) hflags]
    exact Or.inr hf
  · exact Or.inl (mem_userFrames_data hw)

/-- **Changing the flags of a user page** is confined. -/
theorem UserSpace.vflagsHelper_confined {s₀ s : Paging} {r v : ℕ} {flags : BitVec 64}
    (h : UserSpace s₀ s r) (hv : (pageP4E v).val < 256) (hleaf : (s.lower r).leaf r v ≠ 0)
    (hflags : FlagBits flags) : Confined s (AnglOS.vflagsHelper v r flags s) r := by
  obtain ⟨hcomm, htop⟩ := lower_vflagsHelper h.tree hv flags
  rcases vflagsHelper_cases v r flags (s.lower r) with ⟨-, hnone⟩ | ⟨t, ht, hs⟩
  · exact absurd (leaf_eq_zero hnone) hleaf
  have hmaps := h.tree.setLeaf (h.supply.lower r) ht flags
    (((s.lower r).leaf r v &&& 0x8FFFFFFFFFFFFFE0) ||| flags)
  rw [← hs, hcomm] at hmaps
  refine hmaps.toReshapes.confined h.tree.root_mod htop fun w hw => ?_
  rw [hmaps.leaf w] at hw ⊢
  split_ifs at hw ⊢ with hpage
  · rw [frameOf_vflags hflags]
    exact Or.inl (mem_userFrames_data hleaf)
  · exact Or.inl (mem_userFrames_data hw)

/-- **Writing through a user page** is confined. -/
theorem UserSpace.setByte_confined {s₀ s : Paging} {r v a : ℕ} (h : UserSpace s₀ s r)
    (hv : (s.lower r).leaf r v ≠ 0) (ha : alignToPage a = frameOf ((s.lower r).leaf r v))
    (b : BitVec 8) : Confined s (s.setByte a b) r := by
  have hmem : ∀ x, alignToPage x ≠ alignToPage a → (s.setByte a b).mem x = s.mem x :=
    fun x hx => Mem.store8_of_ne fun heq => hx (by rw [heq])
  refine ⟨subset_rfl, fun f hf => Or.inl ?_, fun x hx _ => hmem x fun heq => hx ?_,
    fun x hx hx' => ((h.setByte hv ha b).1.top x hx hx').trans (h.top x hx hx').symm,
    ⟨Static.refl _, rfl, rfl, List.prefix_rfl⟩⟩
  · have htabs := (h.tree.frame ((s.setByte a b).lower r) (fun x ⟨p, hp, ht⟩ => by
      have hx := hmem x fun heq => (h.data v hv).2.2 p hp (by rw [ht, heq, ha])
      simp only [Paging.lower, hx]) subset_rfl).2.1
    rcases hf with ⟨p, hp, ht⟩ | ⟨w, hw, rfl⟩
    · exact Or.inl ⟨p, hp, by rwa [htabs p hp] at ht⟩
    · rw [(h.setByte hv ha b).2.1 w] at hw ⊢
      exact mem_userFrames_data hw
  · rw [heq, ha]
    exact mem_userFrames_data hv

/-! ### Ranges -/

/-- The rule for the loop over the pages, which only adds to the record. -/
theorem mapLoop_invariant {body : ℕ → Paging → ℕ × Paging} {P : Paging → Prop} {n : ℕ}
    {s : Paging} (hlog : ∀ i s, s.log <+: (body i s).2.log) (hs : P s)
    (hbody : ∀ i < n, ∀ s, P s → (∀ e ∈ (body i s).2.log, e.Good) → P (body i s).2)
    (hok : ∀ e ∈ (mapLoop body n s).2.log, e.Good) : P (mapLoop body n s).2 := by
  induction n with
  | zero => exact hs
  | succ n ih =>
    have hrec := ih (fun i hi => hbody i (by omega)) fun e he =>
      hok e ((mapLoop_log hlog n s).subset he)
    rcases hr : mapLoop body n s with ⟨_ | _, s₁⟩
    · simpa [mapLoop, hr] using hrec
    · simp only [mapLoop, hr] at hok hrec ⊢
      exact hbody n (Nat.lt_succ_self n) s₁ hrec hok

/-- **Mapping user pages** is confined. -/
theorem UserSpace.vmallocCR3_confined {s₀ s : Paging} {r v n : ℕ} {flags : BitVec 64}
    (h : UserSpace s₀ s r) (hv : ∀ i < n, (pageP4E (add64 v (i * pageSize))).val < 256)
    (hflags : FlagBits flags) (hbits : flags &&& 0x83 = 3)
    (hok : ∀ e ∈ (AnglOS.vmallocCR3 s v n flags r).2.log, e.Good) :
    Confined s (AnglOS.vmallocCR3 s v n flags r).2 r := by
  rw [vmallocCR3_snd] at hok ⊢
  have hpres : flags &&& 1 = 1 := and_of_mask hbits (by decide)
  refine Confined.withLock (mapLoop_invariant (P := fun s' => UserSpace s₀ s' r ∧
    Confined { s with lock := true } s' r) (fun i s => vmallocHelper_log _ _ _ s)
    ⟨h.withLock true, Confined.refl _ _⟩ (fun i hi s' hs' hgood => ?_) hok).2
  exact ⟨(hs'.1.vmallocHelper (hv i hi) hflags hbits hgood).1,
    hs'.2.trans (hs'.1.vmallocHelper_confined (hv i hi) hflags hpres hgood)⟩

/-- **Changing the flags of user pages** that are mapped is confined. -/
theorem UserSpace.vflagsCR3_confined {s₀ s : Paging} {r v n : ℕ} {flags : BitVec 64}
    (h : UserSpace s₀ s r) (hv : ∀ i < n, (pageP4E (add64 v (i * pageSize))).val < 256)
    (hleaf : ∀ i < n, (s.lower r).leaf r (add64 v (i * pageSize)) ≠ 0)
    (hflags : FlagBits flags) (hpres : flags &&& 1 = 1) :
    Confined s (AnglOS.vflagsCR3 s v n flags r) r := by
  have hloop := loop_invariant (n := n) (s := { s with lock := true })
    (f := fun i => AnglOS.vflagsHelper (add64 v (i * pageSize)) r flags)
    (fun _ s' => UserSpace s₀ s' r ∧ (∀ w, s'.userByte r w = s.userByte r w) ∧
      Confined { s with lock := true } s' r)
    ⟨h.withLock true, fun _ => rfl, Confined.refl _ _⟩ ?_
  · exact Confined.withLock hloop.2.2
  · rintro j hj s' ⟨hus, hbytes, hconf⟩
    have hne : (s'.lower r).leaf r (add64 v (j * pageSize)) ≠ 0 := by
      rw [← userByte_ne_none, hbytes, userByte_ne_none]
      exact hleaf j hj
    obtain ⟨hus', hstep⟩ := hus.vflagsHelper (hv j hj) hne hflags hpres
    exact ⟨hus', fun w => (hstep w).2.trans (hbytes w),
      hconf.trans (hus.vflagsHelper_confined (hv j hj) hne hflags)⟩

end AnglOS
