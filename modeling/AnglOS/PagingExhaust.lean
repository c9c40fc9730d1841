import AnglOS.KernelHalf
import AnglOS.PagingFlags
import AnglOS.PagingRoundTrip

/-!
# Running Out of Frames

`pmallocBulk` fills the cache with the 64 pages after whatever `pmalloc` returns, and `pmalloc`
returns `NULL` when it has no block of 64 pages. The pages 0 to 63 are then installed as tables and
as data pages, and `vmalloc` reports success. Whether that happens is decided before the call.

* `ReportsExhaustion` — the call returns `NULL`, or every frame that it installed is a page of a
  block that `pmalloc` returned and is not in use elsewhere.
* `EnoughFrames` — the frames that the range needs are pages of such blocks.

## Main results

* `exhaustion_reported_iff` — when exhaustion is reported;
* `null_frames_installed` — an allocator without a block of 64 pages.
-/

namespace AnglOS

open Pmm

/-! ### A cache that was filled -/

/-- The frames left in the cache are pages of blocks that `pmalloc` returned. -/
def CacheFilled (s : Paging) : Prop := ∀ i, s.curr ≤ i → i < 63 → FromBlock s.log (s.bulk i)

/-- Issuing a frame whose refill succeeds. -/
theorem CacheFilled.pmallocBulk {t : Paging} (h : CacheFilled t) (hcurr : t.curr ≤ 63)
    (hok : t.RefillOk) :
    CacheFilled (pmallocBulk t).2 ∧
      FromBlock (AnglOS.pmallocBulk t).2.log (AnglOS.pmallocBulk t).1 ∧
      (AnglOS.pmallocBulk t).2.curr ≤ 63 := by
  rcases pmallocBulk_cases t with ⟨hfull, heq⟩ | ⟨hfull, heq⟩
  · have hblock : ∀ i < numAlloc, FromBlock (AnglOS.pmallocBulk t).2.log
        ((pmalloc t.pmm numAlloc).1 + i * pageSize) := by
      intro i hi
      refine ⟨_, ?_, hok hfull, i, hi, rfl⟩
      rw [heq]
      exact List.mem_append_right _ (List.mem_singleton_self _)
    refine ⟨fun i hi hi' => ?_, ?_, ?_⟩
    · have hbulk : (AnglOS.pmallocBulk t).2.bulk i = (pmalloc t.pmm numAlloc).1 + i * pageSize := by
        rw [heq]
        exact if_pos (by simp only [numAlloc]; omega)
      rw [hbulk]
      exact hblock i (by simp only [numAlloc]; omega)
    · have hzero := hblock 0 (by decide)
      rwa [Nat.zero_mul, Nat.add_zero, show (pmalloc t.pmm numAlloc).1 = (AnglOS.pmallocBulk t).1 by
        rw [heq]] at hzero
    · rw [heq]
      exact (by decide : 1 ≤ 63)
  · have hlt : t.curr < 63 := by
      simp only [numAlloc] at hfull
      omega
    rw [heq]
    exact ⟨fun i hi hi' => h i (Nat.le_of_succ_le hi) hi', h t.curr le_rfl hlt, hlt⟩

/-- **Behind a cache that was filled**, a frame is a page of a block if every refill up to it
succeeds. -/
theorem CacheFilled.frameServed {s : Paging} {j : ℕ} (h : CacheFilled s) (hcurr : s.curr ≤ 63)
    (hav : Available s (j + 1)) : FrameServed s j := by
  induction j generalizing s with
  | zero => exact (h.pmallocBulk hcurr hav.refillOk).2.1
  | succ j ih =>
    obtain ⟨hnext, -, hcurr'⟩ := h.pmallocBulk hcurr hav.refillOk
    exact ih hnext hcurr' hav.next

/-! ### The pages of the range afterwards -/

/-- The last round for a page. -/
theorem InRange.last {v n w : ℕ} (h : InRange v n w) :
    ∃ i < n, pageNumber w = pageNumber (add64 v (i * pageSize)) ∧
      ∀ j, i < j → j < n → pageNumber w ≠ pageNumber (add64 v (j * pageSize)) := by
  induction n with
  | zero =>
    obtain ⟨i, hi, -⟩ := h
    omega
  | succ n ih =>
    by_cases hn : pageNumber w = pageNumber (add64 v (n * pageSize))
    · exact ⟨n, by omega, hn, fun j hj hj' => by omega⟩
    · obtain ⟨i, hi, hwi⟩ := h
      have hin : i < n := by
        by_contra hge
        obtain rfl : i = n := by omega
        exact hn hwi
      obtain ⟨k, hk, hwk, hlast⟩ := ih ⟨i, hin, hwi⟩
      refine ⟨k, by omega, hwk, fun j hj hj' => ?_⟩
      by_cases hjn : j = n
      · rwa [hjn]
      · exact hlast j hj (by omega)

section

variable {s : Paging} {root v n : ℕ} {flags : BitVec 64}

/-- **The leaf entries after a call**: the pages of the range have frames of their own, which are
not tables, and every other page is as before. -/
theorem vmallocCR3_leaves (hs : Supply s) (ht : Tree s root) (hflags : FlagBits flags)
    (hpres : flags &&& 1 = 1) (hne : ∀ i < n, add64 v (i * pageSize) ≠ 0)
    (hgood : ∀ e ∈ (vmallocCR3 s v n flags root).2.log, e.Good) :
    (∀ w, ¬InRange v n w → (vmallocCR3 s v n flags root).2.leaf root w = s.leaf root w) ∧
    ∃ frames : List ℕ, frames.Nodup ∧
      (∀ f ∈ frames, frameOf (makeEntry f flags) = f ∧
        ∀ p, p.length ≤ 3 → (vmallocCR3 s v n flags root).2.tableAt root p ≠ some f) ∧
      ∀ w, InRange v n w → ∃ i f, frames[i]? = some f ∧
        pageNumber w = pageNumber (add64 v (i * pageSize)) ∧
        (vmallocCR3 s v n flags root).2.leaf root w = makeEntry f flags := by
  rw [vmallocCR3_snd] at hgood ⊢
  obtain ⟨-, hre, hothers, es, hlen, ⟨frames, hes, hnodup, hframes, -⟩, hrange⟩ := mapLoop_maps
    (fun i => vmallocHelper (add64 v (i * pageSize)) root flags)
    (fun i => add64 v (i * pageSize)) root flags
    (fun _ t es => ∃ frames : List ℕ, es = frames.map (fun f => makeEntry f flags) ∧
      frames.Nodup ∧ (∀ f ∈ frames, f ∈ s.unissued ∧ f ∉ t.unissued ∧
        ∀ p, p.length ≤ 3 → t.tableAt root p ≠ some f) ∧ t.unissued ⊆ s.unissued)
    (fun i s => vmallocHelper_log _ _ _ s) (fun i hi s => hne i hi)
    (fun i hi t es hs' ht' hx hok => by
      obtain ⟨frames, hes, hnodup, hframes, hsub⟩ := hx
      obtain ⟨f, hf, hmap, -, hf', htab⟩ := ht'.vmallocHelper hs' hflags hpres hok
      refine ⟨_, hmap, frames ++ [f], by simp [hes], ?_, fun g hg => ?_, hmap.unissued.trans hsub⟩
      · rw [List.nodup_append]
        refine ⟨hnodup, List.nodup_singleton f, fun a ha b hb hab => ?_⟩
        rw [List.mem_singleton.mp hb] at hab
        exact (hframes a ha).2.1 (hab ▸ hf)
      · rcases List.mem_append.mp hg with hg | hg
        · obtain ⟨h1, h2, h3⟩ := hframes g hg
          refine ⟨h1, fun hg' => h2 (hmap.unissued hg'), fun p hp hpt => ?_⟩
          rcases hmap.tables p g hp hpt with hold | hnew
          · exact h3 p hp hold
          · exact h2 hnew
        · rw [List.mem_singleton.mp hg]
          exact ⟨hsub hf, hf', htab⟩)
    (hs.withLock true) (ht.withLock true) ⟨[], rfl, List.nodup_nil, by simp, subset_rfl⟩ hgood
  refine ⟨fun w hw => hothers w fun i hi heq => hw ⟨i, hi, heq⟩, frames, hnodup, fun f hf => ?_,
    fun w hw => ?_⟩
  · obtain ⟨hun, -, htab⟩ := hframes f hf
    exact ⟨frameOf_makeEntry (hs.aligned f hun) (hs.lt f hun) hflags, htab⟩
  · obtain ⟨i, hi, hwi, hlast⟩ := hw.last
    have hcount : frames.length = n := by rw [← hlen, hes, List.length_map]
    obtain ⟨f, hf⟩ : ∃ f, frames[i]? = some f :=
      ⟨_, List.getElem?_eq_getElem (hcount.symm ▸ hi)⟩
    refine ⟨i, f, hf, hwi, ?_⟩
    have hleaf := hrange i (makeEntry f flags) (by rw [hes, List.getElem?_map, hf, Option.map_some])
      fun j hij hjn heq => hlast j hij hjn (hwi.trans heq.symm)
    exact (leaf_congr _ root hwi).trans hleaf

end

/-! ### Reporting exhaustion -/

/-- The frame is in use at one place of the tree at most, which is a table or a page of the
range. -/
structure NotElsewhere (s : Paging) (root v n f : ℕ) : Prop where
  /-- It is not the top-level table. -/
  ne_root : f ≠ root
  /-- One entry refers to it. -/
  once : ∀ p i q j, p.length ≤ 3 → q.length ≤ 3 → s.entryAt root p i ≠ 0 →
    s.entryAt root q j ≠ 0 → frameOf (s.entryAt root p i) = f → frameOf (s.entryAt root q j) = f →
    p = q ∧ i = j
  /-- No page outside of the range has it. -/
  outside : ∀ w, ¬InRange v n w → s.leaf root w ≠ 0 → frameOf (s.leaf root w) ≠ f

theorem NotElsewhere.behind {s : Paging} {root v n f : ℕ} (h : NotElsewhere s root v n f)
    (old : List PagingEvent) : NotElsewhere (s.behind old) root v n f :=
  ⟨h.ne_root, h.once, h.outside⟩

/-- **Exhaustion is reported**: the call returns `NULL`, or it returns its address and every frame
that it installed is a page of a block that `pmalloc` had returned by then and not in use elsewhere.
`vmalloc` is the call for the table `s.cr3`. -/
def ReportsExhaustion (s : Paging) (v n : ℕ) (flags : BitVec 64) (root : ℕ) : Prop :=
  (vmallocCR3 s v n flags root).1 = 0 ∨ (vmallocCR3 s v n flags root).1 = v ∧
    (∀ l e f, s.log ++ l ++ [e] <+: (vmallocCR3 s v n flags root).2.log → e.issued = some f →
      FromBlock (s.log ++ l) f) ∧
    ∀ f ∈ installed s (vmallocCR3 s v n flags root).2,
      NotElsewhere (vmallocCR3 s v n flags root).2 root v n f

/-- **There are enough frames**: the frames that the range needs are pages of blocks that `pmalloc`
returns, and no page outside of the range has one of them already. -/
structure EnoughFrames (s : Paging) (root v n : ℕ) : Prop where
  served : ∀ j < framesNeeded s root v n, FrameServed s j
  unmapped : ∀ w, ¬InRange v n w → s.leaf root w ≠ 0 →
    ∀ j < framesNeeded s root v n, frameOf (s.leaf root w) ≠ frameToCome s j

/-- **The new tables are blank**: a frame of a block that becomes a table holds zero in all its
words but the first, which `pagingAllocTable` clears. -/
def EntersClean (s : Paging) (root v n : ℕ) : Prop :=
  ∀ j, (rangeUses s root v n [.data])[j]? = some .table → FrameServed s j →
    ∀ i : Fin 512, i ≠ 0 → s.entry (frameToCome s j) i = 0

section

variable {s : Paging} {root v n k : ℕ} {flags : BitVec 64}

theorem vmallocCR3_forget :
    (vmallocCR3 s v n flags root).2 = (vmallocCR3 s.forget v n flags root).2.behind s.log := by
  rw [← behind_vmallocCR3, s.forget_behind]

/-- The frames that are pages of blocks are ready. -/
theorem EntersClean.framesReady (h : EntersClean s root v n) {l : ℕ}
    (hserved : ∀ j < l, FrameServed s j) :
    FramesReady s ((rangeUses s root v n [.data]).take l) := by
  refine ⟨(available_of_served hserved).mono (List.length_take_le _ _), fun j hj => ?_⟩
  rw [List.getElem?_take] at hj
  split_ifs at hj with hlt
  exact h j hj (hserved j hlt)

/-- An entry of the tree after a call that refers to a frame to come: it enters a table, or it
is the leaf entry of a page of the range. -/
theorem entry_refers {s' : Paging} {f : ℕ} {p : List (Fin 512)} {i : Fin 512}
    (houtside : ∀ w, ¬InRange v n w → s'.leaf root w ≠ 0 → frameOf (s'.leaf root w) ≠ f)
    (hp : p.length ≤ 3) (hne : s'.entryAt root p i ≠ 0)
    (hf : frameOf (s'.entryAt root p i) = f) :
    (p.length < 3 ∧ s'.tableAt root (p ++ [i]) = some f) ∨
      ∃ w, pagePath w = p ∧ pageP1E w = i ∧ InRange v n w ∧ frameOf (s'.leaf root w) = f := by
  by_cases hlt : p.length < 3
  · refine Or.inl ⟨hlt, ?_⟩
    rw [Paging.tableAt, tableAt_concat, if_neg hne]
    exact congrArg some hf
  · obtain ⟨w, rfl, rfl⟩ := exists_page p (by omega) i
    refine Or.inr ⟨w, rfl, rfl, ?_, hf⟩
    by_contra hw
    exact houtside w hw hne hf

/-- **The frames that were installed are not in use elsewhere.** -/
theorem EnoughFrames.notElsewhere (henough : EnoughFrames s root v n) (hs : Supply s)
    (ht : Tree s root) (hflags : FlagBits flags) (hpres : flags &&& 1 = 1)
    (hne : ∀ i < n, add64 v (i * pageSize) ≠ 0)
    (hgood : ∀ e ∈ (vmallocCR3 s.forget v n flags root).2.log, e.Good) {j : ℕ}
    (hj : j < framesNeeded s root v n) :
    NotElsewhere (vmallocCR3 s v n flags root).2 root v n (frameToCome s j) := by
  rw [vmallocCR3_forget]
  refine NotElsewhere.behind ?_ s.log
  obtain ⟨hothers, frames, hnodup, hframes, hrange⟩ :=
    vmallocCR3_leaves hs.forget ht.forget hflags hpres hne hgood
  have htree := (vmallocCR3_reshapes hs.forget ht.forget hflags hpres hgood).1.tree
  have hun : frameToCome s j ∈ s.unissued :=
    hs.issuable ⟨j, (available_of_served henough.served).mono (by omega), rfl⟩
  have houtside : ∀ w, ¬InRange v n w → (vmallocCR3 s.forget v n flags root).2.leaf root w ≠ 0 →
      frameOf ((vmallocCR3 s.forget v n flags root).2.leaf root w) ≠ frameToCome s j := by
    intro w hw hleaf
    rw [hothers w hw] at hleaf ⊢
    exact henough.unmapped w hw hleaf j hj
  -- the frame of a page of the range is no table
  have hdata : ∀ w, InRange v n w → ∀ p, p.length ≤ 3 →
      (vmallocCR3 s.forget v n flags root).2.tableAt root p
        ≠ some (frameOf ((vmallocCR3 s.forget v n flags root).2.leaf root w)) := by
    intro w hw
    obtain ⟨i, f, hf, -, hleaf⟩ := hrange w hw
    obtain ⟨hframe, htab⟩ := hframes f (List.mem_of_getElem? hf)
    rw [hleaf, hframe]
    exact htab
  refine ⟨?_, fun p i q l hp hq hpi hql hpf hqf => ?_, houtside⟩
  · rintro heq
    exact ht.issued [] root (by simp) rfl (heq ▸ hun)
  rcases entry_refers houtside hp hpi hpf with ⟨hp3, hpt⟩ | ⟨w, rfl, rfl, hw, hwf⟩ <;>
    rcases entry_refers houtside hq hql hqf with ⟨hq3, hqt⟩ | ⟨w', rfl, rfl, hw', hwf'⟩
  · have happ := htree.unshared _ _ _ (by simp; omega) (by simp; omega) hpt hqt
    exact ⟨(List.append_inj' happ rfl).1, by simpa using (List.append_inj' happ rfl).2⟩
  · exact absurd (hwf' ▸ hpt) (hdata w' hw' _ (by simp; omega))
  · exact absurd (hwf ▸ hqt) (hdata w hw _ (by simp; omega))
  · obtain ⟨i, f, hf, hwi, hleaf⟩ := hrange w hw
    obtain ⟨i', f', hf', hwi', hleaf'⟩ := hrange w' hw'
    rw [hleaf, (hframes f (List.mem_of_getElem? hf)).1] at hwf
    rw [hleaf', (hframes f' (List.mem_of_getElem? hf')).1] at hwf'
    have hlt := (List.getElem?_eq_some_iff.mp hf).1
    obtain rfl : i = i' := (List.getElem?_inj hlt hnodup).mp (by rw [hf, hf', hwf, hwf'])
    exact pagePath_eq_iff.mpr (hwi.trans hwi'.symm)

/-- The frames in the new part of the record. -/
theorem Issues.new_frames (hk : Issues s (vmallocCR3 s v n flags root).2 k) :
    issuedFrames (vmallocCR3 s.forget v n flags root).2.log
      = (List.range k).map (frameToCome s) := by
  have hframes := hk.frames
  rw [vmallocCR3_forget, Paging.behind, issuedFrames, List.filterMap_append] at hframes
  exact List.append_cancel_left hframes

/-- A range that is not empty takes a frame. -/
theorem Issues.pos (hn : 0 < n) (hk : Issues s (vmallocCR3 s v n flags root).2 k) : 0 < k := by
  by_contra hzero
  obtain rfl : k = 0 := by omega
  obtain ⟨m, rfl⟩ := Nat.exists_eq_add_of_lt hn
  rw [Nat.zero_add] at hk
  have hnil := List.filterMap_eq_nil_iff.mp hk.new_frames
  refine framesIssued_vmallocCR3 s.forget v m root flags (List.countP_eq_zero.mpr fun e he => ?_)
  have hnone := hnil e he
  cases e with
  | block _ => simp
  | table _ _ => cases hnone
  | data _ => cases hnone
  | freed _ => simp

/-- Without its record, the call issues as many frames. -/
theorem Issues.framesIssued_eq (hk : Issues s (vmallocCR3 s v n flags root).2 k) :
    framesIssued (vmallocCR3 s.forget v n flags root).2.log = k := by
  rw [← length_issuedFrames, hk.new_frames, List.length_map, List.length_range]

/-- What the call should do, from the frames that it issues. -/
theorem reportsExhaustion_iff (hne : ∀ i < n, add64 v (i * pageSize) ≠ 0)
    (hk : Issues s (vmallocCR3 s v n flags root).2 k) :
    ReportsExhaustion s v n flags root ↔ v = 0 ∨ (∀ j < k, FrameServed s j) ∧
      ∀ j < k, NotElsewhere (vmallocCR3 s v n flags root).2 root v n (frameToCome s j) := by
  have hfst : (vmallocCR3 s v n flags root).1 = v := by rw [vmallocCR3_fst, if_pos hne]
  rw [ReportsExhaustion, hfst, hk.served, hk.installed_eq]
  simp

/-- **The frames that are issued are as they should be exactly if there are enough**, with the
allocator and the tree in order and the new tables blank. -/
theorem Issues.enoughFrames_iff (hk : Issues s (vmallocCR3 s v n flags root).2 k) (hs : Supply s)
    (ht : Tree s root) (hclean : EntersClean s root v n) (hflags : FlagBits flags)
    (hpres : flags &&& 1 = 1) (hne : ∀ i < n, add64 v (i * pageSize) ≠ 0) :
    ((∀ j < k, FrameServed s j) ∧
      ∀ j < k, NotElsewhere (vmallocCR3 s v n flags root).2 root v n (frameToCome s j)) ↔
      EnoughFrames s root v n := by
  have htakes := takes_vmallocCR3 (Orderly.forget hs ht) hflags hpres v n
  have hready : ∀ l, FramesReady s.forget ((rangeUses s root v n [.data]).take l) ↔
      FramesReady s ((rangeUses s root v n [.data]).take l) := fun l =>
    framesReady_iff_of_entry ⟨rfl, rfl, rfl⟩ fun _ _ _ _ => rfl
  have hlen : (rangeUses s root v n [.data]).length = framesNeeded s root v n :=
    length_rangeUses hne
  have hcount : (∀ e ∈ (vmallocCR3 s.forget v n flags root).2.log, e.Good) →
      k = framesNeeded s root v n := fun hgood => by
    have hissued := htakes.issued hgood
    rw [hk.framesIssued_eq] at hissued
    exact (hissued.trans (Nat.zero_add _)).trans hlen
  constructor
  · rintro ⟨hserved, hother⟩
    have hgood := htakes.good_of_issued fun j hj hlt => by
      rw [hk.framesIssued_eq] at hlt
      have hjk : j < k := (Nat.zero_add j).symm ▸ hlt
      exact (hready _).mpr (hclean.framesReady fun i hi => hserved i (by omega))
    obtain rfl := hcount hgood
    refine ⟨hserved, fun w hw hleaf j hj => ?_⟩
    have hsame := (vmallocCR3_leaves hs.forget ht.forget hflags hpres hne hgood).1 w hw
    have hsame : (vmallocCR3 s v n flags root).2.leaf root w = s.leaf root w := by
      rw [vmallocCR3_forget]
      exact hsame
    rw [← hsame] at hleaf ⊢
    exact (hother j hj).outside w hw hleaf
  · intro henough
    have hgood : ∀ e ∈ (vmallocCR3 s.forget v n flags root).2.log, e.Good := by
      have hall := hclean.framesReady fun j hj => henough.served j (hlen ▸ hj)
      rw [← hready, List.take_length] at hall
      exact htakes.good_iff.mpr hall
    obtain rfl := hcount hgood
    exact ⟨henough.served, fun j hj => henough.notElsewhere hs ht hflags hpres hne hgood hj⟩

/-- **When exhaustion is reported**: a call does what it should exactly if its range contains the
page at address 0, for which it returns `NULL`, or if there are enough frames for it. The allocator
and the tree are in order and the new tables blank, unless the next frame is from a refill that
failed. -/
theorem exhaustion_reported_iff (hflags : FlagBits flags) (hpres : flags &&& 1 = 1)
    (hstate : FrameServed s 0 → Supply s ∧ Tree s root ∧ EntersClean s root v n) :
    ReportsExhaustion s v n flags root ↔
      (∃ i < n, add64 v (i * pageSize) = 0) ∨ EnoughFrames s root v n := by
  by_cases hz : ∃ i < n, add64 v (i * pageSize) = 0
  · refine iff_of_true (Or.inl ?_) (Or.inl hz)
    rw [vmallocCR3_fst, if_neg]
    push Not
    exact hz
  have hne : ∀ i < n, add64 v (i * pageSize) ≠ 0 := by
    push Not at hz
    exact hz
  obtain ⟨k, hk⟩ := vmallocCR3_issues_frames s v n flags root
  rw [or_iff_right hz, reportsExhaustion_iff hne hk]
  rcases Nat.eq_zero_or_pos n with rfl | hn
  · -- nothing is done
    have hissues : Issues s (vmallocCR3 s v 0 flags root).2 0 :=
      (Issues.refl s).keep ⟨rfl, rfl, rfl⟩ rfl
    obtain rfl : k = 0 := by
      have hlen := congrArg List.length (hk.frames.symm.trans hissues.frames)
      simpa using hlen
    have hneeded : framesNeeded s root v 0 = 0 := rfl
    refine iff_of_true (Or.inr (by simp)) ⟨fun j hj => ?_, fun _ _ _ j hj => ?_⟩
    · omega
    · omega
  have hv : v ≠ 0 := fun hv => hne 0 hn (by rw [hv]; rfl)
  rw [or_iff_right hv]
  by_cases hfirst : FrameServed s 0
  · obtain ⟨hs, ht, hclean⟩ := hstate hfirst
    exact hk.enoughFrames_iff hs ht hclean hflags hpres hne
  · -- the next frame is from a refill that failed
    exact iff_of_false (fun h => hfirst (h.1 0 (hk.pos hn)))
      fun h => hfirst (h.served 0 (Nat.lt_add_right _ hn))

end

/-! ### An allocator with a block, and one without -/

/-- One page in a memory with a block of 64 pages. -/
theorem exhaustion_reported_iff_one : ReportsExhaustion (filledWith 0) 0x400000 1 3 0x1000 := by
  have hflags : FlagBits 3 := by
    unfold FlagBits
    decide
  have hfilled : CacheFilled (filledWith 0) := fun i hi hi' => absurd hi (by
    have hcurr : (filledWith 0).curr = 63 := rfl
    omega)
  have hclean : EntersClean (filledWith 0) 0x1000 0x400000 1 := fun _ _ _ i _ =>
    filledWith_zero _ i
  refine (exhaustion_reported_iff hflags (by decide)
    fun _ => ⟨filledWith_ready.supply, filledWith_ready.tree, hclean⟩).mpr
    (Or.inr ⟨fun j hj => ?_, fun w _ hleaf => ?_⟩)
  · have hcard : (missingTables (filledWith 0) 0x1000 0x400000 1).card ≤ 3 := by
      refine (Finset.card_filter_le _ _).trans ?_
      rw [Finset.range_one, Finset.singleton_biUnion]
      exact Finset.card_le_three
    rw [framesNeeded] at hj
    exact hfilled.frameServed filledWith_ready.supply.curr_le
      (filledWith_serves.available.mono (by omega))
  · exact absurd (filledWith_entryAt _ _) hleaf

/-- The memory of `filledWith`, without the block of 64 pages. -/
def withoutBlock : Paging := { filledWith 0 with pmm := (pmalloc oneBlock 64).2 }

/-- **Without a block of 64 pages** `vmalloc` installs the pages from address 0 on, and reports
success. -/
theorem null_frames_installed : (pmalloc withoutBlock.pmm numAlloc).1 = 0 ∧
    (vmallocCR3 withoutBlock 0x400000 1 3 0x1000).1 = 0x400000 ∧
    0 ∈ installed withoutBlock (vmallocCR3 withoutBlock 0x400000 1 3 0x1000).2 ∧
    ¬ReportsExhaustion withoutBlock 0x400000 1 3 0x1000 := by
  have hnull : (pmalloc withoutBlock.pmm numAlloc).1 = 0 := by
    obtain ⟨⟨hstep, -⟩, hfree, -⟩ := oneBlock_run (n := 64) (by omega) (by omega) oneBlock_pmalloc.2
    have hok := (oneBlock_partition.ok (c := oneBlockClient) oneBlock_layout oneBlock_fresh
      (Finset.disjoint_empty_left _)).step hstep
    rcases pmalloc_freePages hok.sound hok.apart (n := numAlloc) (by decide) (by decide) with
      ⟨hnull, -⟩ | ⟨-, -, hsub, -⟩
    · exact hnull
    · rw [hfree] at hsub
      have hmem := hsub (Finset.left_mem_Ico.mpr (Nat.lt_add_of_pos_right (by decide)))
      simp at hmem
  have hfst : (vmallocCR3 withoutBlock 0x400000 1 3 0x1000).1 = 0x400000 := by
    rw [vmallocCR3_fst, if_pos (by decide)]
  have hfirst : frameToCome withoutBlock 0 = 0 := by
    rcases pmallocBulk_cases withoutBlock with ⟨-, heq⟩ | ⟨hfull, -⟩
    · exact (congrArg Prod.fst heq).trans hnull
    · exact absurd rfl hfull
  obtain ⟨k, hk⟩ := vmallocCR3_issues_frames withoutBlock 0x400000 1 3 0x1000
  refine ⟨hnull, hfst, ?_, fun hreport => ?_⟩
  · rw [hk.installed_eq]
    exact List.mem_map.mpr ⟨0, List.mem_range.mpr (hk.pos Nat.one_pos), hfirst⟩
  · obtain ⟨-, hserved, -⟩ := hreport.resolve_left (by rw [hfst]; decide)
    exact (hk.served.mp hserved 0 (hk.pos Nat.one_pos)).ne_zero hfirst

end AnglOS
