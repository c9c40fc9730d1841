import AnglOS.PagingLock
import AnglOS.KernelHalf
import AnglOS.Mmu

/-!
# Rights of Mapped Pages

The processor grants a page the write and the user right if the entries of all four levels have
the bit, and takes away execution if any of them has the execute-disable bit. Mapping a page sets
its leaf entry and the entries of the tables that it creates, all with the flags of the call; the
entries of tables that exist keep theirs.

## Main results

* `mapLoop_leaf` — the leaf entries after a loop over pages that may stop early;
* `mapping_rights_iff` — after any calls that map, the pages of the next call have the rights that
  it asks for exactly when the upper entries on their paths that exist already do not restrict
  them.
-/

namespace AnglOS

/-! ### The leaf entries after mapping -/

/-- The loop over `n` pages gets to page `i`: no page before it is at address 0. -/
def Reached (page : ℕ → ℕ) (n i : ℕ) : Prop :=
  i < n ∧ ∀ j < i, page j ≠ 0

section

variable {s : Paging} {root v p n : ℕ} {flags : BitVec 64}

/-- **The leaf entries after a loop over pages**: a page that the loop gets to has an entry of one
of its rounds, every other page has the entry it had. -/
theorem mapLoop_leaf (body : ℕ → Paging → ℕ × Paging) (page : ℕ → ℕ) (E : ℕ → BitVec 64 → Prop)
    (hlog : ∀ i s, s.log <+: (body i s).2.log) (hpage : ∀ i s, (body i s).1 = page i)
    (hbody : ∀ i s, Supply s → Tree s root → (∀ e ∈ (body i s).2.log, e.Good) →
      ∃ e, E i e ∧ MapsPage s (body i s).2 root flags (page i) e)
    (hs : Supply s) (ht : Tree s root) (hgood : ∀ e ∈ (mapLoop body n s).2.log, e.Good) (w : ℕ) :
    ((∃ i, Reached page n i ∧ pageNumber w = pageNumber (page i)) →
      ∃ i < n, pageNumber w = pageNumber (page i) ∧ E i ((mapLoop body n s).2.leaf root w)) ∧
    ((∀ i, Reached page n i → pageNumber w ≠ pageNumber (page i)) →
      (mapLoop body n s).2.leaf root w = s.leaf root w) := by
  induction n with
  | zero =>
    refine ⟨?_, fun _ => rfl⟩
    rintro ⟨i, ⟨hi, -⟩, -⟩
    omega
  | succ n ih =>
    have hgood' : ∀ e ∈ (mapLoop body n s).2.log, e.Good := fun e he =>
      hgood e ((mapLoop_log hlog n s).subset he)
    obtain ⟨hin, hout⟩ := ih hgood'
    have hre := (mapLoop_reshapes flags page hlog (fun i s hs ht hg => by
      obtain ⟨e, -, hmaps⟩ := hbody i s hs ht hg
      exact ⟨e, hmaps⟩) hs ht hgood').1
    have hiff := mapLoop_fst_iff body page hpage n s
    rcases hr : mapLoop body n s with ⟨_ | _, s₁⟩ <;> rw [hr] at hin hout hiff hre
    · -- the loop has stopped, so it does not get to page `n`
      have hloop : (mapLoop body (n + 1) s).2 = s₁ := by simp [mapLoop, hr]
      have hstop : ∀ i, Reached page (n + 1) i → Reached page n i := by
        rintro i ⟨hi, hne⟩
        refine ⟨?_, hne⟩
        by_contra hge
        obtain rfl : i = n := by omega
        exact absurd (hiff.mpr hne) (by simp)
      rw [hloop]
      refine ⟨?_, fun h => hout fun i hi => h i ⟨by have := hi.1; omega, hi.2⟩⟩
      rintro ⟨i, hi, hw⟩
      obtain ⟨j, hj, hj'⟩ := hin ⟨i, hstop i hi, hw⟩
      exact ⟨j, by omega, hj'⟩
    · have hloop : (mapLoop body (n + 1) s).2 = (body n s₁).2 := by simp [mapLoop, hr]
      rw [hloop] at hgood ⊢
      obtain ⟨e, he, hmaps⟩ := hbody n s₁ hre.supply hre.tree hgood
      rw [hmaps.leaf w]
      by_cases hw : pageNumber w = pageNumber (page n)
      · rw [if_pos hw]
        refine ⟨fun _ => ⟨n, by omega, hw, he⟩, fun h => ?_⟩
        exact absurd hw (h n ⟨by omega, fun j hj => hiff.mp rfl j hj⟩)
      · rw [if_neg hw]
        refine ⟨?_, fun h => hout fun i hi => h i ⟨by have := hi.1; omega, hi.2⟩⟩
        rintro ⟨i, hi, hwi⟩
        have hlt : i < n := by
          have := hi.1
          by_contra hge
          obtain rfl : i = n := by omega
          exact hw hwi
        obtain ⟨j, hj, hj'⟩ := hin ⟨i, ⟨hlt, hi.2⟩, hwi⟩
        exact ⟨j, by omega, hj'⟩

/-- An entry for a frame, with the flags of a call. -/
def EntryWith (flags e : BitVec 64) : Prop :=
  ∃ f, f < 2 ^ 52 ∧ e = makeEntry f flags

/-- The leaf entries after `vmallocCR3`. -/
theorem vmallocCR3_leaf (hs : Supply s) (ht : Tree s root) (hflags : FlagBits flags)
    (hpres : flags &&& 1 = 1) (hgood : ∀ e ∈ (vmallocCR3 s v n flags root).2.log, e.Good) (w : ℕ) :
    ((∃ i, Reached (fun i => add64 v (i * pageSize)) n i ∧
        pageNumber w = pageNumber (add64 v (i * pageSize))) →
      EntryWith flags ((vmallocCR3 s v n flags root).2.leaf root w)) ∧
    ((∀ i, Reached (fun i => add64 v (i * pageSize)) n i →
        pageNumber w ≠ pageNumber (add64 v (i * pageSize))) →
      (vmallocCR3 s v n flags root).2.leaf root w = s.leaf root w) := by
  rw [vmallocCR3_snd] at hgood ⊢
  obtain ⟨hin, hout⟩ := mapLoop_leaf (fun i => vmallocHelper (add64 v (i * pageSize)) root
    flags) (fun i => add64 v (i * pageSize)) (fun _ => EntryWith flags)
    (fun i s => vmallocHelper_log _ _ _ s) (fun _ _ => rfl)
    (fun i s hs ht hg => by
      obtain ⟨f, hf, hmaps, -⟩ := ht.vmallocHelper hs hflags hpres hg
      exact ⟨_, ⟨f, hs.lt f hf, rfl⟩, hmaps⟩) (hs.withLock true) (ht.withLock true) hgood w
  refine ⟨fun h => ?_, hout⟩
  obtain ⟨i, -, -, he⟩ := hin h
  exact he

/-- The leaf entries after `videntityCR3`. -/
theorem videntityCR3_leaf (hs : Supply s) (ht : Tree s root) (hflags : FlagBits flags)
    (hpres : flags &&& 1 = 1) (hp : p + n * pageSize ≤ 2 ^ 52)
    (hgood : ∀ e ∈ (videntityCR3 s v p n flags root).2.log, e.Good) (w : ℕ) :
    ((∃ i, Reached (fun i => add64 v (i * pageSize)) n i ∧
        pageNumber w = pageNumber (add64 v (i * pageSize))) →
      EntryWith flags ((videntityCR3 s v p n flags root).2.leaf root w)) ∧
    ((∀ i, Reached (fun i => add64 v (i * pageSize)) n i →
        pageNumber w ≠ pageNumber (add64 v (i * pageSize))) →
      (videntityCR3 s v p n flags root).2.leaf root w = s.leaf root w) := by
  obtain ⟨b, hsnd⟩ := videntityCR3_snd s v p n flags root
  rw [hsnd] at hgood ⊢
  obtain ⟨hin, hout⟩ := mapLoop_leaf (fun i => videntityHelper (add64 v (i * pageSize))
    (add64 p (i * pageSize)) root flags) (fun i => add64 v (i * pageSize))
    (fun i e => e = makeEntry (add64 p (i * pageSize)) flags)
    (fun i s => videntityHelper_log _ _ _ _ s) (fun _ _ => rfl)
    (fun i s hs ht hg => ⟨_, rfl, ht.videntityHelper hs hflags hpres hg⟩) (hs.withLock true)
    (ht.withLock true) hgood w
  refine ⟨fun h => ?_, hout⟩
  obtain ⟨i, hi, -, he⟩ := hin h
  refine ⟨_, ?_, he⟩
  have hlt : p + i * pageSize < 2 ^ 52 := by
    simp only [pageSize] at hp ⊢
    omega
  rw [add64_eq (by omega)]
  exact hlt

end

/-! ### Rights -/

/-- The upper entries on the path of a page. -/
def Paging.upperEntries (s : Paging) (root v : ℕ) : List (BitVec 64) :=
  [s.entryAt root [] (pageP4E v), s.entryAt root [pageP4E v] (pageP3E v),
    s.entryAt root [pageP4E v, pageP3E v] (pageP2E v)]

/-- The entries of all four levels on the path of a page. -/
def Paging.pathEntries (s : Paging) (root v : ℕ) : List (BitVec 64) :=
  s.upperEntries root v ++ [s.leaf root v]

/-- **The page has the rights of `flags`**: the write and the user right need the bit at all four
levels, and one level disables execution. -/
structure HasRights (s : Paging) (root v : ℕ) (flags : BitVec 64) : Prop where
  mapped : ∀ e ∈ s.pathEntries root v, e ≠ 0
  write : (∀ e ∈ s.pathEntries root v, e &&& pageFlagReadwrite ≠ 0) ↔
    flags &&& pageFlagReadwrite ≠ 0
  user : (∀ e ∈ s.pathEntries root v, e &&& pageFlagUsersuper ≠ 0) ↔
    flags &&& pageFlagUsersuper ≠ 0
  execdble : (∃ e ∈ s.pathEntries root v, e &&& pageFlagExecdble ≠ 0) ↔
    flags &&& pageFlagExecdble ≠ 0

/-- An upper entry does not restrict the rights of `flags`. -/
structure Permits (e flags : BitVec 64) : Prop where
  write : flags &&& pageFlagReadwrite ≠ 0 → e &&& pageFlagReadwrite ≠ 0
  user : flags &&& pageFlagUsersuper ≠ 0 → e &&& pageFlagUsersuper ≠ 0
  execdble : e &&& pageFlagExecdble ≠ 0 → flags &&& pageFlagExecdble ≠ 0

section

variable {s s' : Paging} {root v p n f : ℕ} {flags b e : BitVec 64}

/-- The flag bits of an entry are those of its flags. -/
theorem makeEntry_and (hf : f < 2 ^ 52) (hb : FlagBits b) :
    makeEntry f flags &&& b = flags &&& b := by
  apply BitVec.eq_of_getLsbD_eq
  intro i hi
  rw [makeEntry, BitVec.getLsbD_and, BitVec.getLsbD_or, BitVec.getLsbD_and, BitVec.getLsbD_and,
    getLsbD_offsetMask hi]
  by_cases h12 : 12 ≤ i
  · by_cases h52 : i < 52
    · simp [hb.getLsbD h12 h52]
    · have hbit : (BitVec.ofNat 64 f).getLsbD i = false := by
        rw [BitVec.getLsbD_ofNat, Nat.testBit_lt_two_pow
          (hf.trans_le (Nat.pow_le_pow_right (by decide) (by omega)))]
        simp
      simp [hbit]
  · simp [h12]

theorem EntryWith.and (h : EntryWith flags e) (hb : FlagBits b) : e &&& b = flags &&& b := by
  obtain ⟨f, hf, rfl⟩ := h
  exact makeEntry_and hf hb

theorem EntryWith.ne_zero (h : EntryWith flags e) (hpres : flags &&& 1 = 1) : e ≠ 0 := by
  obtain ⟨f, -, rfl⟩ := h
  exact makeEntry_ne_zero hpres

/-- A page with a leaf entry has all upper entries. -/
theorem upperEntries_ne_zero (h : s.leaf root v ≠ 0) : ∀ e ∈ s.upperEntries root v, e ≠ 0 := by
  have htab : s.tableAt root (pagePath v) ≠ none := fun hnone => h (leaf_eq_zero hnone)
  have h4 : s.entry root (pageP4E v) ≠ 0 := by
    intro hz
    apply htab
    simp only [pagePath, tableAt, if_pos hz]
  have ht3 : s.tableAt root [pageP4E v] = some (frameOf (s.entry root (pageP4E v))) := by
    simp only [tableAt, if_neg h4]
  have h3 : s.entry (frameOf (s.entry root (pageP4E v))) (pageP3E v) ≠ 0 := by
    intro hz
    apply htab
    simp only [pagePath, tableAt, if_neg h4, if_pos hz]
  have ht2 : s.tableAt root [pageP4E v, pageP3E v] =
      some (frameOf (s.entry (frameOf (s.entry root (pageP4E v))) (pageP3E v))) := by
    simp only [tableAt, if_neg h4, if_neg h3]
  have h2 : s.entry (frameOf (s.entry (frameOf (s.entry root (pageP4E v))) (pageP3E v)))
      (pageP2E v) ≠ 0 := by
    intro hz
    apply htab
    simp only [pagePath, tableAt, if_neg h4, if_neg h3, if_pos hz]
  intro e he
  simp only [Paging.upperEntries, List.mem_cons, List.not_mem_nil, or_false] at he
  rcases he with rfl | rfl | rfl
  · exact h4
  · rw [Paging.entryAt, entryAt_of_tableAt ht3]
    exact h3
  · rw [Paging.entryAt, entryAt_of_tableAt ht2]
    exact h2

/-- **What mapping does to the upper entries of a page**: an entry that exists stays, and a new one
has the flags of the call. -/
theorem Reshapes.upperEntries (h : Reshapes s s' root flags) (hs : Supply s)
    (hleaf : s'.leaf root v ≠ 0) :
    (∀ e ∈ s'.upperEntries root v, EntryWith flags e ∨ e ∈ s.upperEntries root v ∧ e ≠ 0) ∧
      ∀ e ∈ s.upperEntries root v, e ≠ 0 → e ∈ s'.upperEntries root v := by
  have hne := upperEntries_ne_zero hleaf
  have hup : ∀ p i, p.length < 3 → s'.entryAt root p i ≠ 0 →
      (EntryWith flags (s'.entryAt root p i) ∧ s.entryAt root p i = 0) ∨
        s'.entryAt root p i = s.entryAt root p i := by
    intro p i hp hz
    rcases h.upper p i hp with heq | ⟨hzero, f, hf, heq⟩
    · exact Or.inr heq
    · exact Or.inl ⟨⟨f, hs.lt f hf, heq⟩, hzero⟩
  have h4 := hup [] (pageP4E v) (by simp) (hne _ (by simp [Paging.upperEntries]))
  have h3 := hup [pageP4E v] (pageP3E v) (by simp) (hne _ (by simp [Paging.upperEntries]))
  have h2 := hup [pageP4E v, pageP3E v] (pageP2E v) (by simp)
    (hne _ (by simp [Paging.upperEntries]))
  simp only [Paging.upperEntries, List.mem_cons, List.not_mem_nil, or_false] at hne ⊢
  refine ⟨fun e he => ?_, fun e he hz => ?_⟩
  · have hez := hne e he
    rcases he with rfl | rfl | rfl
    · exact h4.imp And.left fun heq => ⟨Or.inl heq, hez⟩
    · exact h3.imp And.left fun heq => ⟨Or.inr (Or.inl heq), hez⟩
    · exact h2.imp And.left fun heq => ⟨Or.inr (Or.inr heq), hez⟩
  · rcases he with rfl | rfl | rfl
    · exact Or.inl (h4.resolve_left fun hnew => hz hnew.2).symm
    · exact Or.inr (Or.inl (h3.resolve_left fun hnew => hz hnew.2).symm)
    · exact Or.inr (Or.inr (h2.resolve_left fun hnew => hz hnew.2).symm)

/-- **One page**: it has the rights of the call exactly when no upper entry on its path that existed
before restricts them. -/
theorem Reshapes.hasRights_iff (h : Reshapes s s' root flags) (hs : Supply s)
    (hpres : flags &&& 1 = 1) (hleaf : EntryWith flags (s'.leaf root v)) :
    HasRights s' root v flags ↔ ∀ e ∈ s.upperEntries root v, e ≠ 0 → Permits e flags := by
  obtain ⟨hnew, hold⟩ := h.upperEntries hs (hleaf.ne_zero hpres)
  have hw : FlagBits pageFlagReadwrite := by unfold FlagBits; decide
  have hu : FlagBits pageFlagUsersuper := by unfold FlagBits; decide
  have hx : FlagBits pageFlagExecdble := by unfold FlagBits; decide
  have hmem : ∀ {e}, e ∈ s'.upperEntries root v → e ∈ s'.pathEntries root v := fun he =>
    List.mem_append_left _ he
  have hlast : s'.leaf root v ∈ s'.pathEntries root v :=
    List.mem_append_right _ (List.mem_singleton_self _)
  have hcases : ∀ e ∈ s'.pathEntries root v, EntryWith flags e ∨
      e ∈ s.upperEntries root v ∧ e ≠ 0 := by
    intro e he
    rcases List.mem_append.mp he with he | he
    · exact hnew e he
    · exact Or.inl (List.mem_singleton.mp he ▸ hleaf)
  constructor
  · intro hr e he hz
    have he' := hmem (hold e he hz)
    exact ⟨fun hf => hr.write.mpr hf e he', fun hf => hr.user.mpr hf e he',
      fun hf => hr.execdble.mp ⟨e, he', hf⟩⟩
  · intro hperm
    refine ⟨fun e he => ?_, ⟨fun hall => ?_, fun hf e he => ?_⟩,
      ⟨fun hall => ?_, fun hf e he => ?_⟩, ⟨?_, fun hf => ⟨_, hlast, by rwa [hleaf.and hx]⟩⟩⟩
    · exact (hcases e he).elim (fun hew => hew.ne_zero hpres) And.right
    · rw [← hleaf.and hw]
      exact hall _ hlast
    · rcases hcases e he with hew | ⟨heo, hz⟩
      · rwa [hew.and hw]
      · exact (hperm e heo hz).write hf
    · rw [← hleaf.and hu]
      exact hall _ hlast
    · rcases hcases e he with hew | ⟨heo, hz⟩
      · rwa [hew.and hu]
      · exact (hperm e heo hz).user hf
    · rintro ⟨e, he, hf⟩
      rcases hcases e he with hew | ⟨heo, hz⟩
      · rwa [hew.and hx] at hf
      · exact (hperm e heo hz).execdble hf

/-- A page that keeps its leaf entry keeps its rights. -/
theorem Reshapes.hasRights_same (h : Reshapes s s' root flags) {asked : BitVec 64}
    (hleaf : s'.leaf root v = s.leaf root v) :
    HasRights s' root v asked ↔ HasRights s root v asked := by
  by_cases hz : s.leaf root v = 0
  · have hlast : ∀ s : Paging, s.leaf root v = 0 → ¬HasRights s root v asked := fun s hs hr =>
      hr.mapped _ (List.mem_append_right _ (List.mem_singleton_self _)) hs
    exact iff_of_false (hlast s' (hleaf.trans hz)) (hlast s hz)
  · have hne := upperEntries_ne_zero hz
    have hup : ∀ p i, p.length < 3 → s.entryAt root p i ≠ 0 →
        s'.entryAt root p i = s.entryAt root p i := fun p i hp hz =>
      (h.upper p i hp).resolve_right fun hnew => hz hnew.1
    have hpath : s'.pathEntries root v = s.pathEntries root v := by
      rw [Paging.pathEntries, Paging.pathEntries, hleaf, Paging.upperEntries, Paging.upperEntries,
        hup _ _ (by simp) (hne _ (by simp [Paging.upperEntries])),
        hup _ _ (by simp) (hne _ (by simp [Paging.upperEntries])),
        hup _ _ (by simp) (hne _ (by simp [Paging.upperEntries]))]
    constructor
    · intro hr
      exact ⟨hpath ▸ hr.mapped, hpath ▸ hr.write, hpath ▸ hr.user, hpath ▸ hr.execdble⟩
    · intro hr
      exact ⟨hpath ▸ hr.mapped, hpath ▸ hr.write, hpath ▸ hr.user, hpath ▸ hr.execdble⟩

end

/-! ### Histories of calls -/

/-- A call that maps a range in one address space. -/
inductive MapCall
  | vmalloc (vptr pages : ℕ) (flags : BitVec 64)
  | vmallocCR3 (vptr pages : ℕ) (flags : BitVec 64)
  | videntity (vptr pptr pages : ℕ) (flags : BitVec 64)
  | videntityCR3 (vptr pptr pages : ℕ) (flags : BitVec 64)

namespace MapCall

/-- The first address of the range. -/
def vptr : MapCall → ℕ
  | vmalloc v _ _ | vmallocCR3 v _ _ | videntity v _ _ _ | videntityCR3 v _ _ _ => v

/-- The number of pages of the range. -/
def pages : MapCall → ℕ
  | vmalloc _ n _ | vmallocCR3 _ n _ | videntity _ _ n _ | videntityCR3 _ _ n _ => n

/-- The flags of the call. -/
def flags : MapCall → BitVec 64
  | vmalloc _ _ f | vmallocCR3 _ _ f | videntity _ _ _ f | videntityCR3 _ _ _ f => f

/-- The page `i` of the range. -/
def page (c : MapCall) (i : ℕ) : ℕ := add64 c.vptr (i * pageSize)

/-- The state after the call on the tree at `root`. -/
def exec (root : ℕ) (s : Paging) : MapCall → Paging
  | vmalloc v n f => (AnglOS.vmalloc s v n f).2
  | vmallocCR3 v n f => (AnglOS.vmallocCR3 s v n f root).2
  | videntity v p n f => (AnglOS.videntity s v p n f).2
  | videntityCR3 v p n f => (AnglOS.videntityCR3 s v p n f root).2

/-- What the frames that the call takes are for. -/
def uses (root : ℕ) (s : Paging) : MapCall → List FrameUse
  | vmalloc v n _ => rangeUses s s.cr3 v n [.data]
  | vmallocCR3 v n _ => rangeUses s root v n [.data]
  | videntity v _ n _ => rangeUses s s.cr3 v n []
  | videntityCR3 v _ n _ => rangeUses s root v n []

/-- What a caller passes: flags with `PRESENT` and no address bits, and physical addresses that an
entry has room for. -/
structure Valid (c : MapCall) : Prop where
  flags : FlagBits c.flags
  present : c.flags &&& 1 = 1
  phys : match c with
    | videntity _ p n _ | videntityCR3 _ p n _ => p + n * pageSize ≤ 2 ^ 52
    | vmalloc .. | vmallocCR3 .. => True

/-- A call whose frames are ready. -/
structure Step (root : ℕ) (c : MapCall) (s s' : Paging) : Prop where
  valid : c.Valid
  frames : FramesReady s (c.uses root s)
  exec : s' = c.exec root s

/-- The call gets to the page of `w`. -/
def Reaches (c : MapCall) (w : ℕ) : Prop :=
  ∃ j, Reached c.page c.pages j ∧ pageNumber w = pageNumber (c.page j)

/-- The state of one address space between two calls. -/
structure Ok (root : ℕ) (s : Paging) : Prop where
  orderly : Orderly s root
  active : s.cr3 = root

/-- What a call leaves of the state `s` that maps `n` pages from `v` on, as far as it gets. -/
structure Mapped (root v n : ℕ) (flags : BitVec 64) (s s' : Paging) : Prop where
  ok : Ok root s'
  reshapes : Reshapes s s' root flags
  inside : ∀ w, (∃ j, Reached (fun i => add64 v (i * pageSize)) n j ∧
    pageNumber w = pageNumber (add64 v (j * pageSize))) → EntryWith flags (s'.leaf root w)
  outside : ∀ w, (¬∃ j, Reached (fun i => add64 v (i * pageSize)) n j ∧
    pageNumber w = pageNumber (add64 v (j * pageSize))) → s'.leaf root w = s.leaf root w

theorem Ok.vmallocCR3 {root v n : ℕ} {flags : BitVec 64} {s : Paging} (hs : Ok root s)
    (hflags : FlagBits flags) (hpres : flags &&& 1 = 1)
    (hframes : FramesReady s (rangeUses s root v n [.data])) :
    Mapped root v n flags s (AnglOS.vmallocCR3 s v n flags root).2 := by
  have hgood := (vmallocCR3_good_iff hs.orderly hflags hpres v n).mpr hframes
  have hre := (vmallocCR3_reshapes hs.orderly.supply hs.orderly.tree hflags hpres hgood).1
  have hleaf := vmallocCR3_leaf hs.orderly.supply hs.orderly.tree hflags hpres hgood
  exact ⟨⟨⟨hre.supply, hre.tree, hgood⟩, hre.kept.cr3.trans hs.active⟩, hre, fun w => (hleaf w).1,
    fun w hno => (hleaf w).2 fun i hi hw => hno ⟨i, hi, hw⟩⟩

theorem Ok.videntityCR3 {root v p n : ℕ} {flags : BitVec 64} {s : Paging} (hs : Ok root s)
    (hflags : FlagBits flags) (hpres : flags &&& 1 = 1) (hphys : p + n * pageSize ≤ 2 ^ 52)
    (hframes : FramesReady s (rangeUses s root v n [])) :
    Mapped root v n flags s (AnglOS.videntityCR3 s v p n flags root).2 := by
  have hgood := (videntityCR3_good_iff hs.orderly hflags hpres v p n).mpr hframes
  have hre := (videntityCR3_reshapes hs.orderly.supply hs.orderly.tree hflags hpres hgood).1
  have hleaf := videntityCR3_leaf hs.orderly.supply hs.orderly.tree hflags hpres hphys hgood
  exact ⟨⟨⟨hre.supply, hre.tree, hgood⟩, hre.kept.cr3.trans hs.active⟩, hre, fun w => (hleaf w).1,
    fun w hno => (hleaf w).2 fun i hi hw => hno ⟨i, hi, hw⟩⟩

/-- **One call** maps its range, on the active table or on one that is passed. -/
theorem Step.mapped {root : ℕ} {c : MapCall} {s s' : Paging} (h : c.Step root s s')
    (hs : Ok root s) : Mapped root c.vptr c.pages c.flags s s' := by
  obtain ⟨⟨hflags, hpres, hphys⟩, hframes, rfl⟩ := h
  cases c with
  | vmalloc v n f =>
    rw [uses, hs.active] at hframes
    have hmapped : Mapped root v n f s (AnglOS.vmallocCR3 s v n f root).2 :=
      hs.vmallocCR3 hflags hpres hframes
    rw [← hs.active] at hmapped ⊢
    exact hmapped
  | vmallocCR3 v n f => exact hs.vmallocCR3 hflags hpres hframes
  | videntity v p n f =>
    rw [uses, hs.active] at hframes
    have hmapped : Mapped root v n f s (AnglOS.videntityCR3 s v p n f root).2 :=
      hs.videntityCR3 hflags hpres hphys hframes
    rw [← hs.active] at hmapped ⊢
    exact hmapped
  | videntityCR3 v p n f => exact hs.videntityCR3 hflags hpres hphys hframes

/-- **One call**: what it keeps, and the leaf entries after it. -/
theorem Step.spec {root : ℕ} {c : MapCall} {s s' : Paging} (h : c.Step root s s')
    (hs : Ok root s) : Ok root s' ∧ Reshapes s s' root c.flags ∧
      ∀ w, (c.Reaches w → EntryWith c.flags (s'.leaf root w)) ∧
        (¬c.Reaches w → s'.leaf root w = s.leaf root w) := by
  have hmapped := h.mapped hs
  exact ⟨hmapped.ok, hmapped.reshapes, fun w => ⟨hmapped.inside w, hmapped.outside w⟩⟩

/-- **What decides the rights of a page of the call**: a page that the call gets to must have no
restricting upper entry on its path, and a page that it does not get to must have the rights
already. -/
def Grants (c : MapCall) (root : ℕ) (s : Paging) (w : ℕ) : Prop :=
  (c.Reaches w ∧ ∀ e ∈ s.upperEntries root w, e ≠ 0 → Permits e c.flags) ∨
    (¬c.Reaches w ∧ HasRights s root w c.flags)

/-- A range without the page at address 0 before its last page is mapped to its end. -/
theorem reaches_page {c : MapCall} (h : ∀ i, i + 1 < c.pages → c.page i ≠ 0) {i : ℕ}
    (hi : i < c.pages) : c.Reaches (c.page i) :=
  ⟨i, ⟨hi, fun j hj => h j (by omega)⟩, rfl⟩

end MapCall

/-- **The rights of the pages of a call**, after any calls that map in the same address space: each
page of the range has exactly the rights in the flags if and only if no upper entry on its path
that the earlier calls left restricts them, and the call gets to the page. -/
theorem mapping_rights_iff {root : ℕ} {s₀ s s' : Paging} {cs : List MapCall} {c : MapCall}
    (h₀ : MapCall.Ok root s₀) (hrun : Run (MapCall.Step root) s₀ cs s)
    (hstep : c.Step root s s') :
    (∀ i < c.pages, HasRights s' root (c.page i) c.flags) ↔
      ∀ i < c.pages, c.Grants root s (c.page i) := by
  have hok : MapCall.Ok root s := hrun.invariant (O := fun _ => True)
    (fun c s s' _ hs hstep => (hstep.spec hs).1) (fun _ _ => trivial) h₀
  obtain ⟨-, hre, hleaf⟩ := hstep.spec hok
  refine forall₂_congr fun i _ => ?_
  obtain ⟨hin, hout⟩ := hleaf (c.page i)
  by_cases hr : c.Reaches (c.page i)
  · rw [hre.hasRights_iff hok.orderly.supply hstep.valid.present (hin hr)]
    simp [MapCall.Grants, hr]
  · rw [hre.hasRights_same (hout hr)]
    simp [MapCall.Grants, hr]

/-! ### Two calls in one region -/

/-- The upper entries on the path of the first page that is mapped have the flags of its call. -/
theorem upperEntries_first {c : MapCall} {s : Paging} (h : c.Step 0x1000 (filledWith 0) s) {w : ℕ}
    (hw : c.Reaches w) : ∀ e ∈ s.upperEntries 0x1000 w, EntryWith c.flags e := by
  obtain ⟨-, hre, hleaf⟩ := h.spec ⟨filledWith_ready.orderly, rfl⟩
  have hne := ((hleaf w).1 hw).ne_zero h.valid.present
  intro e he
  refine ((hre.upperEntries (filledWith_supply 0) hne).1 e he).resolve_right ?_
  rintro ⟨hmem, hz⟩
  simp only [Paging.upperEntries, filledWith_entryAt, List.mem_cons, List.not_mem_nil, or_false,
    or_self] at hmem
  exact hz hmem

/-- The first call of a history in a memory full of zeros. -/
theorem step_first (flags : BitVec 64) (hflags : FlagBits flags) (hpres : flags &&& 1 = 1) :
    (MapCall.vmalloc 0x400000 1 flags).Step 0x1000 (filledWith 0)
      ((MapCall.vmalloc 0x400000 1 flags).exec 0x1000 (filledWith 0)) :=
  ⟨⟨hflags, hpres, trivial⟩, filledWith_framesReady (by decide), rfl⟩

/-- There are frames for the next page. -/
theorem step_next {first flags : BitVec 64} (hfirst : FlagBits first) (hone : first &&& 1 = 1)
    (hflags : FlagBits flags) (hpres : flags &&& 1 = 1) :
    ∃ s', (MapCall.vmallocCR3 0x401000 1 flags).Step 0x1000
      ((MapCall.vmalloc 0x400000 1 first).exec 0x1000 (filledWith 0)) s' := by
  have hserves : Serves (filledWith 0) (59 + 4 * 1) := filledWith_serves
  have hserves' : Serves (vmallocCR3 (filledWith 0) 0x400000 1 first 0x1000).2 59 :=
    hserves.vmallocCR3
  exact ⟨_, ⟨hflags, hpres, trivial⟩, (filledWith_ready.vmallocCR3 hfirst hone
    hserves'.served).blanks.framesReady hserves'.available
      ((length_rangeUses_le _ _ _ _ _).trans (by decide)), rfl⟩

theorem flagBits_one : FlagBits 1 := by
  rw [FlagBits]
  decide

theorem flagBits_seven : FlagBits 7 := by
  rw [FlagBits]
  decide

/-- A page that is mapped for the user next to one that is. -/
theorem mapping_rights_iff_next : ∃ s s', Run (MapCall.Step 0x1000) (filledWith 0)
      [.vmalloc 0x400000 1 7] s ∧ (MapCall.vmallocCR3 0x401000 1 7).Step 0x1000 s s' ∧
      HasRights s' 0x1000 0x401000 7 := by
  have hfirst := step_first 7 flagBits_seven (by decide)
  obtain ⟨s', hnext⟩ := step_next flagBits_seven (by decide) flagBits_seven (by decide)
  have hrun : Run (MapCall.Step 0x1000) (filledWith 0) ([] ++ [.vmalloc 0x400000 1 7]) _ :=
    (Run.nil _).snoc hfirst
  refine ⟨_, s', hrun, hnext, (mapping_rights_iff ⟨filledWith_ready.orderly, rfl⟩ hrun
    hnext).mpr ?_ 0 (by decide)⟩
  intro i hi
  obtain rfl : i = 0 := Nat.lt_one_iff.mp hi
  refine Or.inl ⟨MapCall.reaches_page (fun j hj => ?_) hi, fun e he _ => ?_⟩
  · exact absurd hj (by simp [MapCall.pages])
  · have hew := upperEntries_first hfirst (MapCall.reaches_page (i := 0) (fun j hj =>
      absurd hj (by simp [MapCall.pages])) (by decide)) e he
    have hand : ∀ b, FlagBits b → e &&& b = 7 &&& b := fun b hb => hew.and hb
    exact ⟨by rw [hand _ (by rw [FlagBits]; decide)]; exact id,
      by rw [hand _ (by rw [FlagBits]; decide)]; exact id,
      by rw [hand _ (by rw [FlagBits]; decide)]; exact id⟩

/-- **A page mapped for the user next to a page of the kernel** is neither writable nor open to the
user. -/
theorem mapping_rights_lost : ∃ s s', Run (MapCall.Step 0x1000) (filledWith 0)
      [.vmalloc 0x400000 1 1] s ∧ (MapCall.vmallocCR3 0x401000 1 7).Step 0x1000 s s' ∧
      ¬HasRights s' 0x1000 0x401000 7 := by
  have hfirst := step_first 1 flagBits_one (by decide)
  obtain ⟨s', hnext⟩ := step_next flagBits_one (by decide) flagBits_seven (by decide)
  have hrun : Run (MapCall.Step 0x1000) (filledWith 0) ([] ++ [.vmalloc 0x400000 1 1]) _ :=
    (Run.nil _).snoc hfirst
  refine ⟨_, s', hrun, hnext, fun hrights => ?_⟩
  have hok := (hfirst.spec ⟨filledWith_ready.orderly, rfl⟩).1
  obtain ⟨-, hre, hleaf⟩ := hnext.spec hok
  have hreach : (MapCall.vmallocCR3 0x401000 1 7).Reaches 0x401000 :=
    MapCall.reaches_page (i := 0) (fun j hj => absurd hj (by simp [MapCall.pages])) (by decide)
  have hperm := (hre.hasRights_iff hok.orderly.supply (by decide) ((hleaf _).1 hreach)).mp hrights
  have hmem := upperEntries_first hfirst (MapCall.reaches_page (i := 0) (fun j hj =>
    absurd hj (by simp [MapCall.pages])) (by decide))
  obtain ⟨e, he⟩ : ∃ e, e ∈ ((MapCall.vmalloc 0x400000 1 1).exec 0x1000 (filledWith 0)).upperEntries
      0x1000 0x400000 := ⟨_, List.mem_cons_self⟩
  have hew := hmem e he
  have hwrite := (hperm e he (hew.ne_zero (by decide))).write (by decide)
  rw [hew.and (by rw [FlagBits]; decide)] at hwrite
  exact hwrite (by decide)

end AnglOS
