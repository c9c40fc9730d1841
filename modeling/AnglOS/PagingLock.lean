import AnglOS.PagingBlank

/-!
# The Paging Lock

Every entry point of the paging layer takes the lock, goes over its range, and frees the lock. The
calls that map leave their loop at a page for which the helper returns `NULL`. The helper returns
the address of the page after it has mapped it, so this happens exactly at the page at address 0.
`vmalloc` frees the lock on this path; `videntity` returns before it does. Both have mapped pages
when they report that they have not.

## Main results

* `mapLoop_fst_iff` — when the loop over the pages runs to its end;
* `paging_call_honest_iff` — a call leaves the lock free and reports `NULL` only if it has mapped
  nothing, exactly when it does not map the page at address 0.
-/

namespace AnglOS

/-! ### Calls -/

/-- A call that takes the paging lock. -/
inductive LockCall
  | vmalloc (vptr pages : ℕ) (flags : BitVec 64)
  | vmallocCR3 (vptr pages : ℕ) (flags : BitVec 64) (cr3 : ℕ)
  | videntity (vptr pptr pages : ℕ) (flags : BitVec 64)
  | videntityCR3 (vptr pptr pages : ℕ) (flags : BitVec 64) (cr3 : ℕ)
  | vfree (vptr pages : ℕ) (doPfree : Bool)
  | vfreeCR3 (vptr pages : ℕ) (doPfree : Bool) (cr3 : ℕ)
  | vflags (vptr pages : ℕ) (flags : BitVec 64)
  | vflagsCR3 (vptr pages : ℕ) (flags : BitVec 64) (cr3 : ℕ)

/-- The result of a call, `none` for a function without one, and the state after it. -/
def LockCall.exec (s : Paging) : LockCall → Option ℕ × Paging
  | .vmalloc v n flags => ((AnglOS.vmalloc s v n flags).map some id)
  | .vmallocCR3 v n flags cr3 => ((AnglOS.vmallocCR3 s v n flags cr3).map some id)
  | .videntity v p n flags => ((AnglOS.videntity s v p n flags).map some id)
  | .videntityCR3 v p n flags cr3 => ((AnglOS.videntityCR3 s v p n flags cr3).map some id)
  | .vfree v n b => (none, AnglOS.vfree s v n b)
  | .vfreeCR3 v n b cr3 => (none, AnglOS.vfreeCR3 s v n b cr3)
  | .vflags v n flags => (none, AnglOS.vflags s v n flags)
  | .vflagsCR3 v n flags cr3 => (none, AnglOS.vflagsCR3 s v n flags cr3)

/-- The range of a call that maps. -/
def LockCall.mapped : LockCall → Option (ℕ × ℕ)
  | .vmalloc v n _ | .vmallocCR3 v n _ _ | .videntity v _ n _ | .videntityCR3 v _ n _ _ =>
    some (v, n)
  | .vfree .. | .vfreeCR3 .. | .vflags .. | .vflagsCR3 .. => none

/-- The call maps the page at address 0. -/
def LockCall.MapsNull (c : LockCall) : Prop :=
  ∃ v n, c.mapped = some (v, n) ∧ ∃ i < n, add64 v (i * pageSize) = 0

/-- **An honest outcome** of a call in `s`: a free lock is free again, and the result is `NULL` only
if no data frame was issued and no memory was written. -/
structure HonestOutcome (s : Paging) (r : Option ℕ × Paging) : Prop where
  unlocked : s.lock = false → r.2.lock = false
  null : r.1 = some 0 → dataFrames r.2.log = dataFrames s.log ∧ r.2.mem = s.mem

/-! ### The loop -/

section

variable {s : Paging} {body : ℕ → Paging → ℕ × Paging} {page : ℕ → ℕ}

/-- **The loop runs to its end exactly when no page is at address 0.** -/
theorem mapLoop_fst_iff (body : ℕ → Paging → ℕ × Paging) (page : ℕ → ℕ)
    (hpage : ∀ i s, (body i s).1 = page i) (n : ℕ) (s : Paging) :
    (mapLoop body n s).1 = true ↔ ∀ i < n, page i ≠ 0 := by
  induction n with
  | zero => simp [mapLoop]
  | succ n ih =>
    rcases hr : mapLoop body n s with ⟨_ | _, s₁⟩
    · rw [hr] at ih
      have hstop : (mapLoop body (n + 1) s).1 = false := by simp [mapLoop, hr]
      rw [hstop]
      simp only [Bool.false_eq_true, false_iff] at ih ⊢
      exact fun h => ih fun i hi => h i (by omega)
    · rw [hr] at ih
      have hgo : (mapLoop body (n + 1) s).1 = decide (page n ≠ 0) := by
        simp [mapLoop, hr, hpage]
      rw [hgo, decide_eq_true_iff]
      constructor
      · intro hn i hi
        rcases Nat.lt_succ_iff_lt_or_eq.mp hi with hlt | rfl
        · exact ih.mp rfl i hlt
        · exact hn
      · exact fun h => h n (by omega)

/-- What every round keeps, the loop keeps. -/
theorem mapLoop_induction (body : ℕ → Paging → ℕ × Paging) {P : Paging → Prop}
    (hbody : ∀ i s, P s → P (body i s).2) (hs : P s)
    (n : ℕ) : P (mapLoop body n s).2 := by
  induction n with
  | zero => exact hs
  | succ n ih =>
    rcases hr : mapLoop body n s with ⟨_ | _, s₁⟩ <;> rw [hr] at ih
    · simpa [mapLoop, hr] using ih
    · simpa [mapLoop, hr] using hbody n s₁ ih

/-! ### One page -/

theorem pmallocBulk_lock (s : Paging) : (pmallocBulk s).2.lock = s.lock := by
  rw [pmallocBulk]
  split_ifs <;> rfl

theorem pagingDescend_lock (s : Paging) (t : ℕ) (i : Fin 512) (flags : BitVec 64) :
    (pagingDescend s t i flags).2.lock = s.lock := by
  rw [pagingDescend]
  split_ifs
  · exact pmallocBulk_lock s
  · rfl

theorem pagingDescendTo_lock (s : Paging) (v root : ℕ) (flags : BitVec 64) :
    (pagingDescendTo s v root flags).2.lock = s.lock :=
  (pagingDescend_lock _ _ _ _).trans
    ((pagingDescend_lock _ _ _ _).trans (pagingDescend_lock _ _ _ _))

theorem videntityHelper_lock (v p root : ℕ) (flags : BitVec 64) (s : Paging) :
    (videntityHelper v p root flags s).2.lock = s.lock :=
  pagingDescendTo_lock _ _ _ _

/-- A page that `vmallocHelper` maps is one more data frame. -/
theorem dataFrames_vmallocHelper (v root : ℕ) (flags : BitVec 64) (s : Paging) :
    ∃ f, dataFrames (vmallocHelper v root flags s).2.log = dataFrames s.log ++ [f] := by
  refine ⟨(pmallocBulk (pagingDescendTo s v root flags).2).1, ?_⟩
  have hlog : (vmallocHelper v root flags s).2.log =
      (pmallocBulk (pagingDescendTo s v root flags).2).2.log ++
        [.data (pmallocBulk (pagingDescendTo s v root flags).2).1] := rfl
  rw [hlog, dataFrames, List.filterMap_append]
  change dataFrames _ ++ _ = _
  rw [dataFrames_pmallocBulk, dataFrames_pagingDescendTo]
  rfl

/-! ### The calls that map -/

/-- `vmallocCR3` of a range with a page: a data frame is issued, whatever the result is. -/
theorem dataFrames_vmallocCR3 (s : Paging) (v : ℕ) {n : ℕ} (hn : 0 < n) (flags : BitVec 64)
    (root : ℕ) : dataFrames (vmallocCR3 s v n flags root).2.log ≠ dataFrames s.log := by
  rw [vmallocCR3_snd]
  dsimp only
  obtain ⟨n, rfl⟩ := Nat.exists_eq_succ_of_ne_zero hn.ne'
  -- the first round issues a frame, and the later ones only add to the record
  have hmono : ∀ m, (dataFrames s.log).length < (dataFrames (mapLoop (fun i =>
      vmallocHelper (add64 v (i * pageSize)) root flags) (m + 1)
        { s with lock := true }).2.log).length := by
    intro m
    induction m with
    | zero =>
      obtain ⟨f, hf⟩ := dataFrames_vmallocHelper (add64 v (0 * pageSize)) root flags
        { s with lock := true }
      simp only [mapLoop, hf, List.length_append, List.length_singleton]
      omega
    | succ m ih =>
      have hpre := mapLoop_log
        (fun i s => vmallocHelper_log (add64 v (i * pageSize)) root flags s) (m + 1)
        { s with lock := true }
      exact ih.trans_le (hpre.filterMap PagingEvent.dataFrame).length_le
  intro heq
  have := hmono n
  rw [heq] at this
  exact lt_irrefl _ this

theorem vmallocCR3_lock (s : Paging) (v n : ℕ) (flags : BitVec 64) (root : ℕ) :
    (vmallocCR3 s v n flags root).2.lock = false := by
  rw [vmallocCR3_snd]

/-- What `vmallocCR3` returns. -/
theorem vmallocCR3_fst (s : Paging) (v n : ℕ) (flags : BitVec 64) (root : ℕ) :
    (vmallocCR3 s v n flags root).1 =
      if ∀ i < n, add64 v (i * pageSize) ≠ 0 then v else 0 := by
  have hiff := mapLoop_fst_iff (fun i => vmallocHelper (add64 v (i * pageSize)) root flags)
    (fun i => add64 v (i * pageSize)) (fun _ _ => rfl) n { s with lock := true }
  rcases hr : mapLoop (fun i => vmallocHelper (add64 v (i * pageSize)) root flags) n
    { s with lock := true } with ⟨_ | _, s'⟩ <;> rw [hr] at hiff
  · rw [if_neg (by simpa using hiff)]
    simp only [vmallocCR3, hr]
  · rw [if_pos (hiff.mp rfl)]
    simp only [vmallocCR3, hr]

/-- What `videntityCR3` returns, and whether it leaves the lock taken. -/
theorem videntityCR3_fst (s : Paging) (v p n : ℕ) (flags : BitVec 64) (root : ℕ) :
    ((videntityCR3 s v p n flags root).1 =
        if ∀ i < n, add64 v (i * pageSize) ≠ 0 then v else 0) ∧
      ((videntityCR3 s v p n flags root).2.lock = false ↔
        ∀ i < n, add64 v (i * pageSize) ≠ 0) := by
  have hiff := mapLoop_fst_iff (fun i => videntityHelper (add64 v (i * pageSize))
    (add64 p (i * pageSize)) root flags) (fun i => add64 v (i * pageSize))
    (fun _ _ => rfl) n { s with lock := true }
  have hlock := mapLoop_induction (fun i => videntityHelper (add64 v (i * pageSize))
    (add64 p (i * pageSize)) root flags) (P := fun s => s.lock = true)
    (fun i s h => (videntityHelper_lock _ _ _ _ s).trans h) (s := { s with lock := true }) rfl n
  rcases hr : mapLoop (fun i => videntityHelper (add64 v (i * pageSize)) (add64 p (i * pageSize))
    root flags) n { s with lock := true } with ⟨_ | _, s'⟩ <;> rw [hr] at hiff hlock
  · have hnot : ¬∀ i < n, add64 v (i * pageSize) ≠ 0 := by simpa using hiff
    simp only [videntityCR3, hr, if_neg hnot, true_and, iff_false_right hnot]
    simpa using hlock
  · have hall := hiff.mp rfl
    simp only [videntityCR3, hr, if_pos hall, true_and]
    exact iff_of_true trivial hall

theorem vmallocCR3_honest_iff (s : Paging) (v n : ℕ) (flags : BitVec 64) (root : ℕ) :
    HonestOutcome s ((vmallocCR3 s v n flags root).map some id) ↔
      ∀ i < n, add64 v (i * pageSize) ≠ 0 := by
  constructor
  · intro h
    by_contra hnull
    have hn : 0 < n := by
      push Not at hnull
      obtain ⟨i, hi, -⟩ := hnull
      omega
    have hres : (vmallocCR3 s v n flags root).1 = 0 := by rw [vmallocCR3_fst, if_neg hnull]
    exact dataFrames_vmallocCR3 s v hn flags root (h.null (congrArg some hres)).1
  · refine fun hall => ⟨fun _ => vmallocCR3_lock s v n flags root, fun hzero => ?_⟩
    have hv : v = 0 := by
      rw [Prod.map_fst, vmallocCR3_fst, if_pos hall] at hzero
      exact Option.some.inj hzero
    obtain rfl : n = 0 := by
      by_contra hn
      exact hall 0 (by omega) (by rw [hv]; rfl)
    exact ⟨rfl, rfl⟩

theorem videntityCR3_honest_iff {s : Paging} (hlock : s.lock = false) (v p n : ℕ)
    (flags : BitVec 64) (root : ℕ) :
    HonestOutcome s ((videntityCR3 s v p n flags root).map some id) ↔
      ∀ i < n, add64 v (i * pageSize) ≠ 0 := by
  obtain ⟨hfst, hfree⟩ := videntityCR3_fst s v p n flags root
  constructor
  · exact fun h => hfree.mp (h.unlocked hlock)
  · refine fun hall => ⟨fun _ => hfree.mpr hall, fun hzero => ?_⟩
    have hv : v = 0 := by
      rw [Prod.map_fst, hfst, if_pos hall] at hzero
      exact Option.some.inj hzero
    obtain rfl : n = 0 := by
      by_contra hn
      exact hall 0 (by omega) (by rw [hv]; rfl)
    exact ⟨rfl, rfl⟩

/-- **A paging call is honest exactly when it does not map the page at address 0.** -/
theorem paging_call_honest_iff (c : LockCall) {s : Paging} (hlock : s.lock = false) :
    HonestOutcome s (c.exec s) ↔ ¬c.MapsNull := by
  have hmapped : ∀ {v n}, c.mapped = some (v, n) →
      (¬c.MapsNull ↔ ∀ i < n, add64 v (i * pageSize) ≠ 0) := by
    intro v n hc
    constructor
    · exact fun h i hi hz => h ⟨v, n, hc, i, hi, hz⟩
    · rintro h ⟨v', n', hc', i, hi, hz⟩
      obtain ⟨rfl, rfl⟩ : v = v' ∧ n = n' := by simpa using hc.symm.trans hc'
      exact h i hi hz
  have hother : c.mapped = none → ¬c.MapsNull := by
    rintro hc ⟨v, n, hc', -⟩
    simp [hc] at hc'
  cases c with
  | vmalloc v n flags =>
    rw [hmapped rfl]
    exact vmallocCR3_honest_iff s v n flags s.cr3
  | vmallocCR3 v n flags cr3 =>
    rw [hmapped rfl]
    exact vmallocCR3_honest_iff s v n flags cr3
  | videntity v p n flags =>
    rw [hmapped rfl]
    exact videntityCR3_honest_iff hlock v p n flags s.cr3
  | videntityCR3 v p n flags cr3 =>
    rw [hmapped rfl]
    exact videntityCR3_honest_iff hlock v p n flags cr3
  | vfree v n b => exact iff_of_true ⟨fun _ => rfl, fun h => by cases h⟩ (hother rfl)
  | vfreeCR3 v n b cr3 => exact iff_of_true ⟨fun _ => rfl, fun h => by cases h⟩ (hother rfl)
  | vflags v n flags => exact iff_of_true ⟨fun _ => rfl, fun h => by cases h⟩ (hother rfl)
  | vflagsCR3 v n flags cr3 => exact iff_of_true ⟨fun _ => rfl, fun h => by cases h⟩ (hother rfl)

end

/-- Mapping one page of a device. -/
theorem paging_call_honest_iff_page :
    HonestOutcome (filledWith 0)
      ((LockCall.videntity 0x400000 0xFEE00000 1 3).exec (filledWith 0)) :=
  (paging_call_honest_iff _ rfl).mpr (by
    rintro ⟨v, n, hc, i, hi, hz⟩
    obtain ⟨rfl, rfl⟩ : 0x400000 = v ∧ 1 = n := by simpa [LockCall.mapped] using hc
    obtain rfl : i = 0 := by omega
    exact absurd hz (by decide))

/-- `videntity` of the first page never frees the lock. -/
theorem videntity_null_keeps_lock : ¬∀ (c : LockCall) (s : Paging), s.lock = false →
    HonestOutcome s (c.exec s) := by
  intro h
  have hout := h (.videntity 0 0 1 3) (filledWith 0) rfl
  have hall := (videntityCR3_honest_iff rfl 0 0 1 3 (filledWith 0).cr3).mp hout
  exact hall 0 (by norm_num) rfl

end AnglOS
