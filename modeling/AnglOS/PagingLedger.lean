import AnglOS.PagingLock
import AnglOS.PagingUnmap

/-!
# The Ledger of Frames

What becomes of the frames of the blocks that `pmallocBulk` requests. The record of a run tells
for each page of a block what happened to it since the block was obtained: nothing, issued as
a table, issued as a data page, or returned after that. A page to which nothing happened should
still be on its way: some later call of `pmallocBulk` should return it.

* `vmallocCR3_issues` and its parts — what every way of issuing frames keeps.
* `Ledger`, `PagingCall` — the runs: tables and address spaces are allocated, ranges are mapped
  and unmapped.
* `history`, `InClass`, `Accounted` — where each page of each block is.

## Main results

* `blocks_of_run` — after `k` calls of `pmallocBulk`, `⌈k / 63⌉` blocks have been requested;
* `accounted_iff_idle` — every page is accounted for after every step of a run exactly if
  the run never calls `pmallocBulk`: the last page of a block is never issued.
-/

namespace AnglOS

open Pmm

/-! ### What issuing frames keeps -/

section
variable {Q : Paging → Prop}
variable (hmem : ∀ s m, Q s → Q { s with mem := m }) (hlock : ∀ s b, Q s → Q { s with lock := b })
  (htable : ∀ s b, Q s → Q ((pmallocBulk s).2.record (.table (pmallocBulk s).1 b)))
  (hdata : ∀ s, Q s → Q ((pmallocBulk s).2.record (.data (pmallocBulk s).1)))

include hmem htable in
theorem pagingAllocTable_issues {s : Paging} (h : Q s) : Q (pagingAllocTable s).2 :=
  hmem _ (zeroTable (pmallocBulk s).2.mem (pmallocBulk s).1) (htable s _ h)

include hmem htable in
theorem pagingDescend_issues {s : Paging} {t : ℕ} {i : Fin 512} {flags : BitVec 64} (h : Q s) :
    Q (pagingDescend s t i flags).2 := by
  by_cases hz : s.entry t i = 0
  · rw [pagingDescend_of_zero hz]
    exact hmem _ _ (pagingAllocTable_issues hmem htable h)
  · rw [pagingDescend_of_ne hz]
    exact h

include hmem htable in
theorem pagingDescendTo_issues {s : Paging} {v root : ℕ} {flags : BitVec 64} (h : Q s) :
    Q (pagingDescendTo s v root flags).2 := by
  have h₄ : Q (pagingDescend s root (pageP4E v) flags).2 := pagingDescend_issues hmem htable h
  exact pagingDescend_issues hmem htable (pagingDescend_issues hmem htable h₄)

include hmem htable hdata in
theorem vmallocHelper_issues {s : Paging} {v root : ℕ} {flags : BitVec 64} (h : Q s) :
    Q (vmallocHelper v root flags s).2 :=
  hmem _ _ (hdata _ (pagingDescendTo_issues hmem htable h))

include hmem hlock htable hdata in
/-- **Mapping a range** keeps what issuing frames, writing to memory and locking keep. -/
theorem vmallocCR3_issues {s : Paging} {v n root : ℕ} {flags : BitVec 64} (h : Q s) :
    Q (vmallocCR3 s v n flags root).2 := by
  rw [vmallocCR3_snd]
  exact hlock _ _ (mapLoop_induction _ (fun _ _ ht => vmallocHelper_issues hmem htable hdata ht)
    (hlock s true h) n)

end

/-- Mapping a range for which every refill succeeds keeps what issuing frames then keeps. -/
theorem vmallocCR3_serves {Q : Paging → Prop} (hmem : ∀ s m, Q s → Q { s with mem := m })
    (hlock : ∀ s b, Q s → Q { s with lock := b })
    (htable : ∀ s b, s.RefillOk → Q s → Q ((pmallocBulk s).2.record (.table (pmallocBulk s).1 b)))
    (hdata : ∀ s, s.RefillOk → Q s → Q ((pmallocBulk s).2.record (.data (pmallocBulk s).1)))
    {s : Paging} {v n root : ℕ} {flags : BitVec 64}
    (hserved : ∀ e ∈ (vmallocCR3 s v n flags root).2.log, e.Served) (h : Q s) :
    Q (vmallocCR3 s v n flags root).2 := by
  -- a record without failure shows that each refill before it succeeded
  have hissue : ∀ s e, (∀ e' ∈ ((pmallocBulk s).2.record e).log, e'.Served) →
      s.RefillOk ∧ ∀ e' ∈ s.log, e'.Served := by
    intro s e hs
    have hbulk : ∀ e' ∈ (pmallocBulk s).2.log, e'.Served :=
      fun e' he => hs e' (List.mem_append_left _ he)
    exact ⟨refillOk_of_log hbulk, fun e' he => hbulk e' ((pmallocBulk_log s).subset he)⟩
  refine vmallocCR3_issues (Q := fun t => (∀ e ∈ t.log, e.Served) → Q t)
    (fun t m ht hs => hmem t m (ht hs)) (fun t b ht hs => hlock t b (ht hs))
    (fun t b ht hs => ?_) (fun t ht hs => ?_) (fun _ => h) hserved
  · obtain ⟨hok, hs'⟩ := hissue t _ hs
    exact htable t b hok (ht hs')
  · obtain ⟨hok, hs'⟩ := hissue t _ hs
    exact hdata t hok (ht hs')

/-! ### Runs -/

/-- The calls of a client of the paging layer. -/
inductive PagingCall
  /-- `pagingAllocTable`. -/
  | allocTable
  /-- `pagingCreateUser`. -/
  | createUser
  /-- `vmallocCR3`. -/
  | vmalloc (root v n : ℕ) (flags : BitVec 64)
  /-- `vfreeCR3` with `do_pfree`. -/
  | vfree (root v n : ℕ)

/-- The paging layer, and the pages that were mapped by `vmallocCR3` and not unmapped since, by
the root they were mapped below and their number. -/
structure Ledger where
  paging : Paging
  mapped : Set (ℕ × ℕ)

/-- The pages of a range below a root. -/
def pagesBelow (root v n : ℕ) : Set (ℕ × ℕ) := {x | x.1 = root ∧ x.2 ∈ rangePages v n}

/-- What a call does. -/
def PagingCall.exec (c : Ledger) : PagingCall → Ledger
  | .allocTable => ⟨(pagingAllocTable c.paging).2, c.mapped⟩
  | .createUser => ⟨(pagingCreateUser c.paging).2, c.mapped⟩
  | .vmalloc root v n flags =>
      ⟨(vmallocCR3 c.paging v n flags root).2, c.mapped ∪ pagesBelow root v n⟩
  | .vfree root v n => ⟨vfreeCR3 c.paging v n true root, c.mapped \ pagesBelow root v n⟩

/-- Ranges are mapped that were not mapped before, and unmapped that `vmallocCR3` mapped. -/
def PagingCall.Allowed (c : Ledger) : PagingCall → Prop
  | .allocTable | .createUser => True
  | .vmalloc root v n _ => ∀ i < n, c.paging.walk root (add64 v (i * pageSize)) = none
  | .vfree root v n => pagesBelow root v n ⊆ c.mapped

/-- One call of a run in which `pmalloc(64)` never fails. -/
def Ledger.step (k : PagingCall) (c c' : Ledger) : Prop :=
  k.Allowed c ∧ c' = k.exec c ∧ ∀ e ∈ c'.paging.log, e.Served

/-- The paging layer at the start: the cache is used up, and nothing is recorded. -/
structure Ledger.Start (c : Ledger) : Prop where
  supply : Supply c.paging
  curr : c.paging.curr = 63
  log : c.paging.log = []
  mapped : c.mapped = ∅

/-! ### Counting -/

/-- The event reports a block. -/
def PagingEvent.isBlock : PagingEvent → Bool
  | .block _ => true
  | .table .. | .data _ | .freed _ => false

/-- The event reports a frame that `pmallocBulk` returned. -/
def PagingEvent.isIssue : PagingEvent → Bool
  | .table .. | .data _ => true
  | .block _ | .freed _ => false

@[simp] theorem isBlock_block (g : ℕ) : (PagingEvent.block g).isBlock = true := rfl
@[simp] theorem isIssue_block (g : ℕ) : (PagingEvent.block g).isIssue = false := rfl
@[simp] theorem isBlock_freed (f : ℕ) : (PagingEvent.freed f).isBlock = false := rfl
@[simp] theorem isIssue_freed (f : ℕ) : (PagingEvent.freed f).isIssue = false := rfl

/-- How many blocks were requested. -/
def blocksRequested (log : List PagingEvent) : ℕ := log.countP PagingEvent.isBlock

/-- How often `pmallocBulk` was called. -/
def framesIssued (log : List PagingEvent) : ℕ := log.countP PagingEvent.isIssue

/-- The books balance: each block gives 63 frames. -/
structure Tally (s : Paging) : Prop where
  issued : framesIssued s.log + (63 - s.curr) = 63 * blocksRequested s.log
  one_le : 1 ≤ s.curr
  curr_le : s.curr ≤ 63

/-- Issuing a frame: the two cases. -/
theorem pmallocBulk_cases (s : Paging) :
    (s.curr + 1 = numAlloc ∧ pmallocBulk s = ((pmalloc s.pmm numAlloc).1,
      { s.record (.block (pmalloc s.pmm numAlloc).1) with
        pmm := (pmalloc s.pmm numAlloc).2
        bulk := fun i => if i < numAlloc then (pmalloc s.pmm numAlloc).1 + i * pageSize
          else s.bulk i
        curr := 1 })) ∨
    (s.curr + 1 ≠ numAlloc ∧ pmallocBulk s = (s.bulk s.curr, { s with curr := s.curr + 1 })) := by
  by_cases hcurr : s.curr + 1 = numAlloc
  · exact Or.inl ⟨hcurr, by simp [pmallocBulk, hcurr]⟩
  · exact Or.inr ⟨hcurr, by simp [pmallocBulk, hcurr]⟩

theorem Tally.issue {s : Paging} (h : Tally s) {e : PagingEvent} (he : e.isIssue = true)
    (he' : e.isBlock = false) : Tally ((pmallocBulk s).2.record e) := by
  obtain ⟨hissued, hone, hle⟩ := h
  rcases pmallocBulk_cases s with ⟨hcurr, heq⟩ | ⟨hcurr, heq⟩
  · have hlog : ((pmallocBulk s).2.record e).log
        = s.log ++ [.block (pmalloc s.pmm numAlloc).1, e] := by
      rw [heq]
      simp [Paging.record]
    have hc : ((pmallocBulk s).2.record e).curr = 1 := by
      rw [heq]
      rfl
    simp only [numAlloc] at hcurr
    refine ⟨?_, by omega, by omega⟩
    rw [hc, hlog, framesIssued, blocksRequested, List.countP_append, List.countP_append]
    simp only [framesIssued, blocksRequested] at hissued
    simp only [List.countP_cons, List.countP_nil, isBlock_block, isIssue_block, he, he']
    simp only [if_true, Bool.false_eq_true, if_false]
    omega
  · have hlog : ((pmallocBulk s).2.record e).log = s.log ++ [e] := by
      rw [heq]
      rfl
    have hc : ((pmallocBulk s).2.record e).curr = s.curr + 1 := by
      rw [heq]
      rfl
    simp only [numAlloc] at hcurr
    refine ⟨?_, by omega, by omega⟩
    rw [hc, hlog, framesIssued, blocksRequested, List.countP_append, List.countP_append]
    simp only [framesIssued, blocksRequested] at hissued
    simp [he, he']
    omega

/-- Returning frames does not touch the books. -/
theorem Tally.frees {s s' : Paging} {fs : List ℕ} (h : Tally s) (hf : Frees s s' fs) :
    Tally s' := by
  have hblock : (fs.map PagingEvent.freed).countP PagingEvent.isBlock = 0 := by
    rw [List.countP_eq_zero]
    rintro e he
    obtain ⟨f, -, rfl⟩ := List.mem_map.mp he
    simp
  have hissue : (fs.map PagingEvent.freed).countP PagingEvent.isIssue = 0 := by
    rw [List.countP_eq_zero]
    rintro e he
    obtain ⟨f, -, rfl⟩ := List.mem_map.mp he
    simp
  have hcurr : s'.curr = s.curr := by
    obtain ⟨m, pmm, lock, log, rfl⟩ := hf.others
    rfl
  refine ⟨?_, hcurr ▸ h.one_le, hcurr ▸ h.curr_le⟩
  rw [hf.log, hcurr, framesIssued, blocksRequested, List.countP_append, List.countP_append, hblock,
    hissue]
  exact h.issued

theorem Tally.step {k : PagingCall} {c c' : Ledger} (h : Tally c.paging)
    (hstep : Ledger.step k c c') : Tally c'.paging := by
  obtain ⟨-, rfl, -⟩ := hstep
  have hmem : ∀ s m, Tally s → Tally { s with mem := m } := fun s m hs => ⟨hs.1, hs.2, hs.3⟩
  have hlock : ∀ s b, Tally s → Tally { s with lock := b } := fun s b hs => ⟨hs.1, hs.2, hs.3⟩
  have htable : ∀ s b, Tally s →
      Tally ((pmallocBulk s).2.record (.table (pmallocBulk s).1 b)) :=
    fun s b hs => hs.issue rfl rfl
  cases k with
  | allocTable => exact pagingAllocTable_issues hmem htable h
  | createUser =>
      obtain ⟨m, hm⟩ := pagingCreateUser_withMem c.paging
      simp only [PagingCall.exec, hm]
      exact hmem _ m (hmem _ _ (Tally.issue h rfl rfl))
  | vmalloc root v n flags =>
      exact vmallocCR3_issues hmem hlock htable (fun s hs => hs.issue rfl rfl) h
  | vfree root v n =>
      obtain ⟨fs, hfs⟩ := vfreeCR3_frees c.paging v n true root
      exact h.frees hfs

/-- **Blocks are requested for 63 frames each**: after `k` calls of `pmallocBulk`, `⌈k / 63⌉`
blocks have been requested. -/
theorem blocks_of_run {c c' : Ledger} {ks : List PagingCall} (hstart : c.Start)
    (hrun : Run Ledger.step c ks c') :
    blocksRequested c'.paging.log = (framesIssued c'.paging.log + 62) / 63 := by
  have h₀ : Tally c.paging := by
    refine ⟨?_, ?_, ?_⟩
    · rw [hstart.log, hstart.curr]
      rfl
    · rw [hstart.curr]
      decide
    · rw [hstart.curr]
  have h := hrun.invariant (O := fun _ => True) (P := fun c => Tally c.paging)
    (fun k c c' _ hc hstep => hc.step hstep) (fun _ _ => trivial) h₀
  have h1 := h.issued
  have h2 := h.one_le
  have h3 := h.curr_le
  omega

/-! ### Where the pages of a block are -/

/-- What one event tells about the page `f`, given what happened to it since its block was
obtained; `none` if it is in no block. -/
def historyStep (f : ℕ) (h : Option (List PagingEvent)) : PagingEvent → Option (List PagingEvent)
  | .block g => if g ≤ f ∧ f < g + numAlloc * pageSize then some [] else h
  | .table t clean => if t = f then h.map (· ++ [.table t clean]) else h
  | .data t => if t = f then h.map (· ++ [.data t]) else h
  | .freed t => if t = f then h.map (· ++ [.freed t]) else h

/-- What happened to the page `f` since the last block that contains it was obtained. -/
def history (log : List PagingEvent) (f : ℕ) : Option (List PagingEvent) :=
  log.foldl (historyStep f) none

theorem history_append (log log' : List PagingEvent) (f : ℕ) :
    history (log ++ log') f = log'.foldl (historyStep f) (history log f) :=
  List.foldl_append

/-- An event that reports another frame tells nothing. -/
theorem historyStep_of_ne {f g : ℕ} (h : Option (List PagingEvent)) (hne : g ≠ f) :
    (∀ b, historyStep f h (.table g b) = h) ∧ historyStep f h (.data g) = h :=
  ⟨fun _ => if_neg hne, if_neg hne⟩

/-- The page `f`, to which `h` happened since its block was obtained, is in exactly one class:
not issued and still to be issued, issued as one table, issued as the leaf of one page, or
returned. -/
inductive InClass (c : Ledger) (f : ℕ) : List PagingEvent → Prop
  | waiting : f ∈ Issuable c.paging → InClass c f []
  | table (clean : Bool) : InClass c f [.table f clean]
  | leaf : (∃! x, x ∈ c.mapped ∧
      (c.paging.walk x.1 (x.2 * pageSize)).map Prod.fst = some f) → InClass c f [.data f]
  | returned {e : PagingEvent} : e.isIssue = true → InClass c f [e, .freed f]

/-- No frame is lost or issued twice: every page of every block that was obtained is in its
class, and one block was requested for each 64 calls of `pmallocBulk`. -/
structure Accounted (c : Ledger) : Prop where
  pages : ∀ f h, f % pageSize = 0 → history c.paging.log f = some h → InClass c f h
  blocks : blocksRequested c.paging.log = (framesIssued c.paging.log + 63) / 64

/-! ### The last page of a block -/

/-- The cache holds the block at `g`, whose last page has not been issued. -/
structure Leaky (s : Paging) (g : ℕ) : Prop where
  supply : Supply s
  one_le : 1 ≤ s.curr
  aligned : g % pageSize = 0
  bulk : ∀ i < 64, s.bulk i = g + i * pageSize
  taken : ∀ i < 64, ∀ p ∈ s.pmm.freePages, g + i * pageSize ≠ p * pageSize
  waits : history s.log (g + 63 * pageSize) = some []

/-- The last page of the block in the cache is never issued. -/
theorem Leaky.not_issuable {s : Paging} {g : ℕ} (h : Leaky s g) :
    g + 63 * pageSize ∉ Issuable s := by
  intro hmem
  rcases h.supply.issuable hmem with ⟨i, -, hi, heq⟩ | ⟨p, hp, heq⟩
  · rw [h.bulk i (by omega)] at heq
    simp only [pageSize] at heq
    omega
  · exact h.taken 63 (by decide) p hp heq

theorem Leaky.not_accounted {c : Ledger} {g : ℕ} (h : Leaky c.paging g) : ¬ Accounted c := by
  intro hacc
  have haligned := h.aligned
  have hin := hacc.pages (g + 63 * pageSize) [] (by simp only [pageSize] at *; omega) h.waits
  cases hin with
  | waiting hmem => exact h.not_issuable hmem

theorem Supply.pmallocBulk {s : Paging} (h : Supply s) (hok : s.RefillOk) :
    Supply (pmallocBulk s).2 := (pmallocBulk_spec h hok).2.1

/-- After a refill the cache holds a new block. -/
theorem leaky_refill {s : Paging} (h : Supply s) (hok : s.RefillOk) (hcurr : s.curr + 1 = numAlloc)
    {e : PagingEvent} (he : (∃ b, e = .table (pmallocBulk s).1 b) ∨ e = .data (pmallocBulk s).1) :
    Leaky ((pmallocBulk s).2.record e) (pmalloc s.pmm numAlloc).1 := by
  have hsup := (h.pmallocBulk hok).record e
  obtain ⟨-, -, -, g, hg, -, hfree⟩ := h.refill (hok hcurr)
  rcases pmallocBulk_cases s with ⟨-, heq⟩ | ⟨hne, -⟩
  · rw [heq] at hsup he ⊢
    refine ⟨hsup, Nat.le_refl 1, ?_, fun i hi => if_pos hi, fun i hi p hp => ?_, ?_⟩
    · rw [hg]
      exact Nat.mul_mod_left g pageSize
    · have hp' := (hfree p).mp hp
      rw [hg]
      simp only [pageSize]
      omega
    · have hblock : historyStep ((pmalloc s.pmm numAlloc).1 + 63 * pageSize)
          (history s.log ((pmalloc s.pmm numAlloc).1 + 63 * pageSize))
          (.block (pmalloc s.pmm numAlloc).1) = some [] :=
        if_pos ⟨Nat.le_add_right _ _, by simp only [numAlloc, pageSize]; omega⟩
      have hne : (pmalloc s.pmm numAlloc).1 ≠ (pmalloc s.pmm numAlloc).1 + 63 * pageSize := by
        simp only [pageSize]
        omega
      rw [Paging.record, Paging.record, history_append, history_append]
      simp only [List.foldl_cons, List.foldl_nil, hblock]
      rcases he with ⟨b, rfl⟩ | rfl
      · exact (historyStep_of_ne _ hne).1 b
      · exact (historyStep_of_ne _ hne).2
  · exact absurd hcurr hne

/-- Between refills the cache holds the same block. -/
theorem Leaky.next {s : Paging} {g : ℕ} (h : Leaky s g) (hok : s.RefillOk)
    (hcurr : s.curr + 1 ≠ numAlloc) {e : PagingEvent}
    (he : (∃ b, e = .table (pmallocBulk s).1 b) ∨ e = .data (pmallocBulk s).1) :
    Leaky ((pmallocBulk s).2.record e) g := by
  have hsup := (h.supply.pmallocBulk hok).record e
  have hle := h.supply.curr_le
  simp only [numAlloc] at hcurr
  rcases pmallocBulk_cases s with ⟨hc, -⟩ | ⟨-, heq⟩
  · exact absurd hc hcurr
  · rw [heq] at hsup he ⊢
    have hne : s.bulk s.curr ≠ g + 63 * pageSize := by
      rw [h.bulk _ (by omega)]
      simp only [pageSize]
      omega
    refine ⟨hsup, Nat.le_add_left 1 s.curr, h.aligned, h.bulk, h.taken, ?_⟩
    rw [Paging.record, history_append]
    simp only [List.foldl_cons, List.foldl_nil]
    rcases he with ⟨b, rfl⟩ | rfl
    · exact ((historyStep_of_ne _ hne).1 b).trans h.waits
    · exact (historyStep_of_ne _ hne).2.trans h.waits

/-- Either nothing was issued, or the last page of the block in the cache was not. -/
def UnusedOrLeaky (s : Paging) : Prop :=
  (Supply s ∧ s.curr = 63 ∧ framesIssued s.log = 0) ∨ ∃ g, Leaky s g

theorem UnusedOrLeaky.issue {s : Paging} (h : UnusedOrLeaky s) (hok : s.RefillOk)
    {e : PagingEvent} (he : (∃ b, e = .table (pmallocBulk s).1 b) ∨ e = .data (pmallocBulk s).1) :
    ∃ g, Leaky ((pmallocBulk s).2.record e) g := by
  rcases h with ⟨hsup, hcurr, -⟩ | ⟨g, hg⟩
  · exact ⟨_, leaky_refill hsup hok (by rw [hcurr]) he⟩
  · by_cases hcurr : s.curr + 1 = numAlloc
    · exact ⟨_, leaky_refill hg.supply hok hcurr he⟩
    · exact ⟨g, hg.next hok hcurr he⟩

theorem Leaky.withMem {s : Paging} {g : ℕ} (h : Leaky s g) (m : Mem) :
    Leaky { s with mem := m } g :=
  ⟨⟨h.1.1, h.1.2, h.1.3, h.1.4, h.1.5, h.1.6, h.1.7⟩, h.2, h.3, h.4, h.5, h.6⟩

theorem UnusedOrLeaky.withMem {s : Paging} (h : UnusedOrLeaky s) (m : Mem) :
    UnusedOrLeaky { s with mem := m } := by
  rcases h with ⟨h, hcurr, hlog⟩ | ⟨g, hg⟩
  · exact Or.inl ⟨⟨h.1, h.2, h.3, h.4, h.5, h.6, h.7⟩, hcurr, hlog⟩
  · exact Or.inr ⟨g, hg.withMem m⟩

theorem UnusedOrLeaky.withLock {s : Paging} (h : UnusedOrLeaky s) (b : Bool) :
    UnusedOrLeaky { s with lock := b } := by
  rcases h with ⟨h, hcurr, hlog⟩ | ⟨g, h⟩
  · exact Or.inl ⟨⟨h.1, h.2, h.3, h.4, h.5, h.6, h.7⟩, hcurr, hlog⟩
  · exact Or.inr ⟨g, ⟨h.1.1, h.1.2, h.1.3, h.1.4, h.1.5, h.1.6, h.1.7⟩, h.2, h.3, h.4, h.5, h.6⟩

/-! ### Every run -/

/-- The call issues no frame. -/
def PagingCall.Idle : PagingCall → Prop
  | .allocTable | .createUser => False
  | .vmalloc _ _ n _ => n = 0
  | .vfree .. => True

/-- Nothing was issued or mapped yet. -/
structure Ledger.Unused (c : Ledger) : Prop where
  supply : Supply c.paging
  curr : c.paging.curr = 63
  issued : framesIssued c.paging.log = 0
  blocks : blocksRequested c.paging.log = 0
  mapped : c.mapped = ∅

theorem Ledger.Start.unused {c : Ledger} (h : c.Start) : c.Unused := by
  refine ⟨h.supply, h.curr, ?_, ?_, h.mapped⟩
  · rw [h.log]
    rfl
  · rw [h.log]
    rfl

/-- Without a block nothing is known of any page. -/
theorem history_eq_none {log : List PagingEvent} (h : blocksRequested log = 0) (f : ℕ) :
    history log f = none := by
  induction log using List.reverseRecOn with
  | nil => rfl
  | append_singleton log e ih =>
      rw [blocksRequested, List.countP_append] at h
      rw [history_append, ih (by rw [blocksRequested]; omega)]
      cases e with
      | block g => simp at h
      | table t b => simp [historyStep]
      | data t => simp [historyStep]
      | freed t => simp [historyStep]

theorem Ledger.Unused.accounted {c : Ledger} (h : c.Unused) : Accounted c := by
  refine ⟨fun f hist _ hh => ?_, by rw [h.blocks, h.issued]⟩
  rw [history_eq_none h.blocks] at hh
  cases hh

/-- Mapping at least one page issues a frame. -/
theorem framesIssued_vmallocCR3 (s : Paging) (v n root : ℕ) (flags : BitVec 64) :
    framesIssued (vmallocCR3 s v (n + 1) flags root).2.log ≠ 0 := by
  have hfirst : ∀ m,
      (vmallocHelper (add64 v (0 * pageSize)) root flags { s with lock := true }).2.log <+:
        (mapLoop (fun i => vmallocHelper (add64 v (i * pageSize)) root flags) (m + 1)
          { s with lock := true }).2.log := by
    intro m
    induction m with
    | zero => exact List.prefix_rfl
    | succ m ih => exact ih.trans (mapLoop_log (fun i s => vmallocHelper_log _ _ _ s) (m + 1) _)
  rw [vmallocCR3_snd]
  intro hzero
  have hnone := List.countP_eq_zero.mp hzero _ ((hfirst n).subset
    (List.mem_append_right _ (List.mem_singleton_self _)))
  exact hnone rfl

/-- **The first call that issues a frame** leaves the last page of the block behind. -/
theorem Ledger.Unused.step {k : PagingCall} {c c' : Ledger} (h : c.Unused)
    (hstep : Ledger.step k c c') :
    (k.Idle ∧ c'.Unused) ∨ (¬ k.Idle ∧ ∃ g, Leaky c'.paging g) := by
  obtain ⟨hallowed, rfl, hserved⟩ := hstep
  have hunused : UnusedOrLeaky c.paging := Or.inl ⟨h.supply, h.curr, h.issued⟩
  cases k with
  | allocTable =>
      have hok := refillOk_of_log fun e he => hserved e (List.mem_append_left _ he)
      obtain ⟨g, hg⟩ := hunused.issue hok (Or.inl ⟨_, rfl⟩)
      exact Or.inr ⟨id, g, hg.withMem _⟩
  | createUser =>
      obtain ⟨m, hm⟩ := pagingCreateUser_withMem c.paging
      simp only [PagingCall.exec, hm] at hserved ⊢
      have hok := refillOk_of_log fun e he => hserved e (List.mem_append_left _ he)
      obtain ⟨g, hg⟩ := hunused.issue hok (Or.inl ⟨_, rfl⟩)
      exact Or.inr ⟨id, g, (hg.withMem _).withMem m⟩
  | vmalloc root v n flags =>
      cases n with
      | zero =>
          have hs : (vmallocCR3 c.paging v 0 flags root).2 = { c.paging with lock := false } := rfl
          refine Or.inl ⟨rfl, ?_⟩
          simp only [PagingCall.exec, hs]
          refine ⟨h.supply.withLock false, h.curr, h.issued, h.blocks, ?_⟩
          simp [h.mapped, pagesBelow, rangePages]
      | succ n =>
          refine Or.inr ⟨Nat.succ_ne_zero n, ?_⟩
          have hq := vmallocCR3_serves (Q := UnusedOrLeaky) (fun s m hs => hs.withMem m)
            (fun s b hs => hs.withLock b)
            (fun s b hok hs => Or.inr (hs.issue hok (Or.inl ⟨b, rfl⟩)))
            (fun s hok hs => Or.inr (hs.issue hok (Or.inr rfl))) hserved hunused
          rcases hq with ⟨-, -, hissued⟩ | hleaky
          · exact absurd hissued (framesIssued_vmallocCR3 _ v n root flags)
          · exact hleaky
  | vfree root v n =>
      cases n with
      | zero =>
          have hs : vfreeCR3 c.paging v 0 true root = { c.paging with lock := false } := rfl
          refine Or.inl ⟨trivial, ?_⟩
          simp only [PagingCall.exec, hs]
          refine ⟨h.supply.withLock false, h.curr, h.issued, h.blocks, ?_⟩
          simp [h.mapped]
      | succ n =>
          have hmem : (root, pageNumber (add64 v (0 * pageSize))) ∈ c.mapped :=
            hallowed ⟨rfl, mem_rangePages.mpr ⟨0, Nat.succ_pos n, rfl⟩⟩
          rw [h.mapped] at hmem
          exact absurd hmem (Set.notMem_empty _)

/-- All states of a run, from the first to the last, satisfy `P`. -/
def Always (P : Ledger → Prop) (c : Ledger) (ks : List PagingCall) (c' : Ledger) : Prop :=
  ∀ ks₁ ks₂ c₁, ks = ks₁ ++ ks₂ → Run Ledger.step c ks₁ c₁ → Run Ledger.step c₁ ks₂ c' → P c₁

/-- As long as all calls are idle, nothing is issued. -/
theorem Ledger.Unused.run {c c' : Ledger} {ks : List PagingCall} (h : c.Unused)
    (hrun : Run Ledger.step c ks c') (hidle : ∀ k ∈ ks, k.Idle) : c'.Unused :=
  hrun.invariant (O := PagingCall.Idle) (P := Ledger.Unused)
    (fun _ _ _ hk hc hstep => (hc.step hstep).elim And.right fun hbad => absurd hk hbad.1) hidle h

/-- **The paging layer accounts for every frame exactly if it issues none**: in a run from the
start, every page of every block is in exactly one class after every step, and one block is
requested for 64 frames, if and only if no call of the run allocates a table or an address
space or maps a page. -/
theorem accounted_iff_idle {c c' : Ledger} {ks : List PagingCall} (hstart : c.Start)
    (hrun : Run Ledger.step c ks c') :
    Always Accounted c ks c' ↔ ∀ k ∈ ks, k.Idle := by
  constructor
  · intro hall
    induction hrun with
    | nil => simp
    | @snoc c₁ c₂ ks k hrun hstep ih =>
        have hidle := ih fun ks₁ ks₂ c₃ hks h₁ h₂ =>
          hall ks₁ (ks₂ ++ [k]) c₃ (by rw [hks, List.append_assoc]) h₁ (h₂.snoc hstep)
        intro k' hk'
        rcases List.mem_append.mp hk' with hk' | hk'
        · exact hidle k' hk'
        · rw [List.mem_singleton.mp hk']
          rcases (hstart.unused.run hrun hidle).step hstep with ⟨hk, -⟩ | ⟨-, g, hg⟩
          · exact hk
          · refine absurd ?_ hg.not_accounted
            exact hall (ks ++ [k]) [] c₂ (by simp) (hrun.snoc hstep) (Run.nil c₂)
  · intro hidle ks₁ ks₂ c₁ hks h₁ _
    refine (hstart.unused.run h₁ fun k hk => hidle k ?_).accounted
    rw [hks]
    exact List.mem_append_left ks₂ hk

/-- The start over the allocator with one block. -/
def oneBlockLedger : Ledger := ⟨filledWith 0, ∅⟩

theorem oneBlockLedger_start : oneBlockLedger.Start := ⟨filledWith_supply 0, rfl, rfl, rfl⟩

/-- One call of `pagingAllocTable`. -/
theorem oneBlockLedger_step :
    Ledger.step .allocTable oneBlockLedger (PagingCall.allocTable.exec oneBlockLedger) := by
  refine ⟨trivial, rfl, ?_⟩
  have hserves : Serves (filledWith 0) (0 + 1) :=
    ⟨fun e he => absurd he List.not_mem_nil,
      (available_of_refill rfl (filledWith_refillOk 0)).mono (by decide)⟩
  exact hserves.pagingAllocTable.served

/-- A run of one call: the equivalence, whose sides are both false there. -/
theorem accounted_iff_idle_alloc :
    Run Ledger.step oneBlockLedger [.allocTable] (PagingCall.allocTable.exec oneBlockLedger) ∧
      (Always Accounted oneBlockLedger [.allocTable] (PagingCall.allocTable.exec oneBlockLedger) ↔
        ∀ k ∈ [PagingCall.allocTable], k.Idle) :=
  ⟨(Run.nil _).snoc oneBlockLedger_step,
    accounted_iff_idle oneBlockLedger_start ((Run.nil _).snoc oneBlockLedger_step)⟩

/-- **After the first call of `pagingAllocTable` a page is lost**: the last page of the block is
not issued, and no later call of `pmallocBulk` returns it. -/
theorem lost_after_alloc :
    Run Ledger.step oneBlockLedger [.allocTable] (PagingCall.allocTable.exec oneBlockLedger) ∧
      ¬ Accounted (PagingCall.allocTable.exec oneBlockLedger) := by
  refine ⟨(Run.nil _).snoc oneBlockLedger_step, ?_⟩
  have hunused : UnusedOrLeaky oneBlockLedger.paging := Or.inl ⟨filledWith_supply 0, rfl, rfl⟩
  obtain ⟨g, hg⟩ := hunused.issue (filledWith_refillOk 0) (Or.inl ⟨_, rfl⟩)
  exact (hg.withMem _).not_accounted

end AnglOS
