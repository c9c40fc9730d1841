import AnglOS.HeapAlloc

/-!
# Runs of the Heap

The heap in the hands of its callers. `HeapClient` adds to the heap the requests that are live;
`HeapCall` is a call of one of the entry points, or a write of a caller to the bytes it asked
for. A caller may free and reallocate only live pointers, and its requests stay below `2 ^ 31`
bytes.

## Main results

* `heap_invariant_of_run` — tags, tiling, free lists, and joining in every run;
* `live_isolated_of_run` — live blocks overlap nothing, and no call returns or touches one that is
  not its argument.
-/

namespace AnglOS

/-- A call, or a write of a caller to its own bytes. -/
inductive HeapCall
  | kmalloc (size : ℕ)
  | kcalloc (size : ℕ)
  | kfree (ptr : ℕ)
  | krealloc (ptr size : ℕ)
  | write (ptr i : ℕ) (v : BitVec 8)

/-- The heap, and for every live pointer the bytes that were asked for. -/
structure HeapClient where
  heap : Heap
  live : ℕ → Option ℕ

/-- What callers may do: their requests are small when rounded, they free and reallocate live
pointers or `NULL`, and they write to the bytes they asked for. -/
def HeapCall.Allowed (c : HeapClient) : HeapCall → Prop
  | .kmalloc size => roundedSize size < 2 ^ 31
  | .kcalloc size => roundedSize size < 2 ^ 31
  | .kfree ptr => ptr = 0 ∨ ∃ old, c.live ptr = some old
  | .krealloc ptr size => roundedSize size < 2 ^ 31 ∧ (ptr = 0 ∨ ∃ old, c.live ptr = some old)
  | .write ptr i _ => ∃ size, c.live ptr = some size ∧ i < size

/-- The live pointers after a request of `size` bytes returned `ptr`. -/
def grant (live : ℕ → Option ℕ) (ptr size : ℕ) : ℕ → Option ℕ :=
  if ptr = 0 then live else Function.update live ptr (some size)

/-- The state after a call. A reallocation to no bytes is a release. -/
def HeapClient.exec (L : FreeLists) (c : HeapClient) : HeapCall → HeapClient
  | .kmalloc size => ⟨(kmalloc L c.heap size).2, grant c.live (kmalloc L c.heap size).1 size⟩
  | .kcalloc size => ⟨(kcalloc L c.heap size).2, grant c.live (kcalloc L c.heap size).1 size⟩
  | .kfree ptr => ⟨kfree L c.heap ptr, Function.update c.live ptr none⟩
  | .krealloc ptr size =>
      ⟨(krealloc L c.heap ptr size).2,
        if size = 0 ∨ (krealloc L c.heap ptr size).1 ≠ 0 then
          grant (Function.update c.live ptr none) (krealloc L c.heap ptr size).1 size
        else c.live⟩
  | .write ptr i v => { c with heap.mem := c.heap.mem.store8 (ptr + i) v }

/-- The pointer that is the argument of a call. -/
def HeapCall.arg : HeapCall → ℕ
  | .kmalloc _ => 0
  | .kcalloc _ => 0
  | .kfree ptr => ptr
  | .krealloc ptr _ => ptr
  | .write ptr _ _ => ptr

/-- The pointer that a call returns, `NULL` where it returns none. -/
def HeapClient.returned (L : FreeLists) (c : HeapClient) : HeapCall → ℕ
  | .kmalloc size => (kmalloc L c.heap size).1
  | .kcalloc size => (kcalloc L c.heap size).1
  | .kfree _ => 0
  | .krealloc ptr size => (krealloc L c.heap ptr size).1
  | .write .. => 0

/-- One call. -/
def HeapClient.step (L : FreeLists) (k : HeapCall) (c c' : HeapClient) : Prop :=
  k.Allowed c ∧ c' = c.exec L k

/-- **The invariant of a run**: the heap is at rest, and its used blocks are the live ones. -/
structure HeapClient.Ok (L : FreeLists) (c : HeapClient) (bs : List Cell) : Prop where
  rest : Rest L c.heap bs
  nonempty : bs ≠ []
  live_of_used : ∀ a n d, UsedAt bs a n d → ∃ size, c.live (payload a) = some size
  used_of_live : ∀ p size, c.live p = some size →
    ∃ a n d, p = payload a ∧ UsedAt bs a n d ∧ size + 16 ≤ 8 * n

/-- The used blocks and the live requests except those at `p` stay. -/
structure Keeps (c c' : HeapClient) (bs bs' : List Cell) (p : ℕ) : Prop where
  used : ∀ a n d, payload a ≠ p → UsedAt bs a n d → UsedAt bs' a n d
  live : ∀ q size, q ≠ p → c.live q = some size → c'.live q = some size

/-! ### What a call does to the invariant -/

section

variable {L : FreeLists} {c : HeapClient} {h' : Heap} {bs bs' : List Cell} {a a' n n' size : ℕ}
  {d d' : Mem}

theorem payload_inj {b : ℕ} : payload a = payload b ↔ a = b := by
  simp [payload]

theorem payload_ne_zero (a : ℕ) : payload a ≠ 0 := by
  simp only [payload, wsize]
  omega

theorem UsedAt.ne_nil (hu : UsedAt bs a n d) : bs ≠ [] := by
  rintro rfl
  simp [UsedAt, fenced, cellsAt] at hu

/-- A request that got a block. -/
theorem HeapClient.Ok.grant_new (hok : c.Ok L bs) (hrest : Rest L h' bs')
    (hone : OneMore bs bs' a n d) (hn : size + 16 ≤ 8 * n) :
    HeapClient.Ok L ⟨h', Function.update c.live (payload a) (some size)⟩ bs' ∧
      Keeps c ⟨h', Function.update c.live (payload a) (some size)⟩ bs bs' 0 := by
  -- the new block was not live before
  have hkeep : ∀ q s, c.live q = some s →
      Function.update c.live (payload a) (some size) q = some s := by
    intro q s hq
    obtain ⟨b, k, e, rfl, hb, -⟩ := hok.used_of_live q s hq
    rw [Function.update_of_ne, hq]
    intro hba
    exact hone.fresh k e (payload_inj.mp hba ▸ hb)
  refine ⟨⟨hrest, hone.usedAt.ne_nil, fun b k e hb => ?_, fun p s hp => ?_⟩,
    fun b k e _ hb => (hone.iff b k e).mpr (Or.inl hb), fun q s _ hq => hkeep q s hq⟩
  · rcases (hone.iff b k e).mp hb with hb | ⟨rfl, -⟩
    · obtain ⟨s, hs⟩ := hok.live_of_used b k e hb
      exact ⟨s, hkeep _ s hs⟩
    · exact ⟨size, Function.update_self _ _ _⟩
  · dsimp only at hp
    by_cases hpa : p = payload a
    · rw [hpa, Function.update_self, Option.some.injEq] at hp
      exact ⟨a, n, d, hpa, hone.usedAt, hp ▸ hn⟩
    · rw [Function.update_of_ne hpa] at hp
      obtain ⟨b, k, e, rfl, hb, hk⟩ := hok.used_of_live p s hp
      exact ⟨b, k, e, rfl, (hone.iff b k e).mpr (Or.inl hb), hk⟩

/-- A request, and what it granted. -/
theorem HeapClient.Ok.grant (hok : c.Ok L bs) {r : ℕ × Heap}
    (h : r.1 = 0 ∧ Rest L r.2 bs ∨ ∃ bs' a n d, r.1 = payload a ∧ Rest L r.2 bs' ∧
      OneMore bs bs' a n d ∧ size + 16 ≤ 8 * n) :
    ∃ bs', HeapClient.Ok L ⟨r.2, grant c.live r.1 size⟩ bs' ∧
      Keeps c ⟨r.2, AnglOS.grant c.live r.1 size⟩ bs bs' 0 := by
  rcases h with ⟨h0, hrest⟩ | ⟨bs', a, n, d, hret, hrest, hone, hn⟩
  · have hlive : AnglOS.grant c.live r.1 size = c.live := if_pos h0
    rw [hlive]
    exact ⟨bs, ⟨hrest, hok.nonempty, hok.live_of_used, hok.used_of_live⟩, fun _ _ _ _ hu => hu,
      fun _ _ _ hq => hq⟩
  · have hlive : AnglOS.grant c.live r.1 size = Function.update c.live (payload a) (some size) := by
      rw [AnglOS.grant, hret, if_neg (payload_ne_zero a)]
    rw [hlive]
    exact ⟨bs', hok.grant_new hrest hone hn⟩

/-- A release. -/
theorem HeapClient.Ok.release (hok : c.Ok L bs) (hne : bs' ≠ []) (hrest : Rest L h' bs')
    (hless : OneLess bs bs' a) :
    HeapClient.Ok L ⟨h', Function.update c.live (payload a) none⟩ bs' ∧
      Keeps c ⟨h', Function.update c.live (payload a) none⟩ bs bs' (payload a) := by
  refine ⟨⟨hrest, hne, fun b k e hb => ?_, fun p s hp => ?_⟩, fun b k e hba hb => ?_,
    fun q s hqa hq => (Function.update_of_ne hqa _ _).trans hq⟩
  · obtain ⟨hb, hba⟩ := (hless b k e).mp hb
    obtain ⟨s, hs⟩ := hok.live_of_used b k e hb
    exact ⟨s, (Function.update_of_ne (by rwa [ne_eq, payload_inj]) _ _).trans hs⟩
  · dsimp only at hp
    by_cases hpa : p = payload a
    · simp [hpa] at hp
    · rw [Function.update_of_ne hpa] at hp
      obtain ⟨b, k, e, rfl, hb, hk⟩ := hok.used_of_live p s hp
      exact ⟨b, k, e, rfl, (hless b k e).mpr ⟨hb, by rwa [payload_inj] at hpa⟩, hk⟩
  · exact (hless b k e).mpr ⟨hb, by rwa [ne_eq, payload_inj] at hba⟩

/-- A block that became another one. -/
theorem HeapClient.Ok.swap (hok : c.Ok L bs) (hrest : Rest L h' bs')
    (hswap : Swap bs bs' a a' n' d') (hn : size + 16 ≤ 8 * n') {live' : ℕ → Option ℕ}
    (hlive : live' =
      Function.update (Function.update c.live (payload a) none) (payload a') (some size)) :
    HeapClient.Ok L ⟨h', live'⟩ bs' ∧ Keeps c ⟨h', live'⟩ bs bs' (payload a) := by
  have hnew : UsedAt bs' a' n' d' := (hswap.iff a' n' d').mpr (Or.inr ⟨rfl, rfl, rfl⟩)
  have hkeep : ∀ q s, q ≠ payload a → c.live q = some s → live' q = some s := by
    intro q s hqa hq
    obtain ⟨b, k, e, rfl, hb, -⟩ := hok.used_of_live q s hq
    rw [hlive, Function.update_of_ne, Function.update_of_ne hqa, hq]
    intro hba
    obtain rfl := payload_inj.mp hba
    exact hqa (by rw [hswap.fresh k e hb])
  refine ⟨⟨hrest, hnew.ne_nil, fun b k e hb => ?_, fun p s hp => ?_⟩, fun b k e hba hb => ?_,
    hkeep⟩
  · rcases (hswap.iff b k e).mp hb with ⟨hb, hba⟩ | ⟨rfl, -⟩
    · obtain ⟨s, hs⟩ := hok.live_of_used b k e hb
      exact ⟨s, hkeep _ s (by rwa [ne_eq, payload_inj]) hs⟩
    · exact ⟨size, by dsimp only; rw [hlive, Function.update_self]⟩
  · dsimp only at hp
    rw [hlive] at hp
    by_cases hpa' : p = payload a'
    · rw [hpa', Function.update_self, Option.some.injEq] at hp
      exact ⟨a', n', d', hpa', hnew, hp ▸ hn⟩
    · rw [Function.update_of_ne hpa'] at hp
      by_cases hpa : p = payload a
      · simp [hpa] at hp
      · rw [Function.update_of_ne hpa] at hp
        obtain ⟨b, k, e, rfl, hb, hk⟩ := hok.used_of_live p s hp
        exact ⟨b, k, e, rfl, (hswap.iff b k e).mpr (Or.inl ⟨hb, by rwa [payload_inj] at hpa⟩), hk⟩
  · exact (hswap.iff b k e).mpr (Or.inl ⟨hb, by rwa [ne_eq, payload_inj] at hba⟩)

/-- A call that changed no used block. -/
theorem HeapClient.Ok.same (hok : c.Ok L bs) (hrest : Rest L h' bs') (hsame : SameUsed bs bs')
    (hu : UsedAt bs a n d) (p : ℕ) :
    HeapClient.Ok L ⟨h', c.live⟩ bs' ∧ Keeps c ⟨h', c.live⟩ bs bs' p := by
  refine ⟨⟨hrest, ((hsame a n d).mp hu).ne_nil, fun b k e hb => ?_, fun p s hp => ?_⟩,
    fun b k e _ hb => (hsame b k e).mp hb, fun _ _ _ hq => hq⟩
  · exact hok.live_of_used b k e ((hsame b k e).mpr hb)
  · obtain ⟨b, k, e, hpb, hb, hk⟩ := hok.used_of_live p s hp
    exact ⟨b, k, e, hpb, (hsame b k e).mp hb, hk⟩

/-- What a reallocation of the block at `a` does to the used blocks and to the live requests: it
fails and both stay, or the block became another one with its contents. -/
def ReallocDone (c c' : HeapClient) (bs bs' : List Cell) (a n : ℕ) (d : Mem) (size q : ℕ) : Prop :=
  (q = 0 ∧ SameUsed bs bs' ∧ c'.live = c.live) ∨
    ∃ a' n' d', q = payload a' ∧ Swap bs bs' a a' n' d' ∧ size + 16 ≤ 8 * n' ∧
      (∀ i < size, i < 8 * n - 16 → d' (payload a' + i) = d (payload a + i)) ∧
      c'.live = Function.update (Function.update c.live (payload a) none) (payload a') (some size)

/-- **A reallocation keeps the invariant.** -/
theorem HeapClient.Ok.krealloc (hok : c.Ok L bs) (hu : UsedAt bs a n d) (hsize : size ≠ 0)
    (hs : roundedSize size < 2 ^ 31) :
    ∃ bs', (c.exec L (.krealloc (payload a) size)).Ok L bs' ∧
      Keeps c (c.exec L (.krealloc (payload a) size)) bs bs' (payload a) ∧
      ReallocDone c (c.exec L (.krealloc (payload a) size)) bs bs' a n d size
        (AnglOS.krealloc L c.heap (payload a) size).1 := by
  rcases hok.rest.krealloc hu hsize hs with
    ⟨h0, bs', hrest, hsame⟩ | ⟨bs', a', n', d', hret, hrest, hswap, hn', hd⟩
  · have hexec : c.exec L (.krealloc (payload a) size) =
        ⟨(AnglOS.krealloc L c.heap (payload a) size).2, c.live⟩ := by
      simp [HeapClient.exec, h0, hsize]
    obtain ⟨hok', hkeep⟩ := hok.same hrest hsame hu (payload a)
    rw [hexec]
    exact ⟨bs', hok', hkeep, Or.inl ⟨h0, hsame, rfl⟩⟩
  · have hlive : (c.exec L (.krealloc (payload a) size)).live = Function.update
        (Function.update c.live (payload a) none) (payload a') (some size) := by
      simp [HeapClient.exec, hret, payload_ne_zero, AnglOS.grant]
    obtain ⟨hok', hkeep⟩ := hok.swap hrest hswap hn' hlive
    exact ⟨bs', hok', hkeep, Or.inr ⟨a', n', d', hret, hswap, hn', hd, hlive⟩⟩

/-- There is nothing live at `NULL`. -/
theorem HeapClient.Ok.live_zero (hok : c.Ok L bs) : c.live 0 = none := by
  cases hl : c.live 0 with
  | none => rfl
  | some s =>
      obtain ⟨a, n, d, ha, -⟩ := hok.used_of_live 0 s hl
      simp only [payload, wsize] at ha
      omega

/-- **A call keeps the invariant**, and it keeps the used blocks that are not its argument. -/
theorem HeapClient.Ok.exec (hok : c.Ok L bs) {k : HeapCall} (hk : k.Allowed c) :
    ∃ bs', (c.exec L k).Ok L bs' ∧ Keeps c (c.exec L k) bs bs' k.arg := by
  have hzero : Function.update c.live 0 none = c.live :=
    Function.update_eq_self_iff.mpr hok.live_zero.symm
  have hmalloc : ∀ size, roundedSize size < 2 ^ 31 → ∃ bs',
      (c.exec L (.kmalloc size)).Ok L bs' ∧ Keeps c (c.exec L (.kmalloc size)) bs bs' 0 := by
    intro size hs
    refine hok.grant ?_
    rcases hok.rest.kmalloc hs with heq | hnew
    · exact Or.inl ⟨by rw [heq], by rw [heq]; exact hok.rest⟩
    · exact Or.inr hnew
  have hfree : ∀ ptr old, c.live ptr = some old → ∃ bs',
      (c.exec L (.kfree ptr)).Ok L bs' ∧ Keeps c (c.exec L (.kfree ptr)) bs bs' ptr := by
    intro ptr old hold
    obtain ⟨a, n, d, rfl, hu, -⟩ := hok.used_of_live ptr old hold
    obtain ⟨bs', hne, hrest, hless⟩ := hok.rest.kfree hu
    exact ⟨bs', hok.release hne hrest hless⟩
  cases k with
  | kmalloc size => exact hmalloc size hk
  | kcalloc size =>
      refine hok.grant ?_
      rcases hok.rest.kcalloc hk with hnull | ⟨bs', a, n, d, hret, hrest, hone, hn, -⟩
      · exact Or.inl hnull
      · exact Or.inr ⟨bs', a, n, d, hret, hrest, hone, hn⟩
  | kfree ptr =>
      rcases hk with rfl | ⟨old, hold⟩
      · have hexec : c.exec L (.kfree 0) = c := by
          simp only [HeapClient.exec, hzero, AnglOS.kfree, if_true]
        rw [hexec]
        exact ⟨bs, hok, fun _ _ _ _ hu => hu, fun _ _ _ hq => hq⟩
      · exact hfree ptr old hold
  | krealloc ptr size =>
      obtain ⟨hs, rfl | ⟨old, hold⟩⟩ := hk
      · have hexec : c.exec L (.krealloc 0 size) = c.exec L (.kmalloc size) := by
          simp only [HeapClient.exec, hzero, AnglOS.krealloc, if_true, AnglOS.grant]
          split_ifs with h1 h2 h3 <;> first | rfl | omega
        rw [hexec]
        exact hmalloc size hs
      · obtain ⟨a, n, d, rfl, hu, hn⟩ := hok.used_of_live ptr old hold
        by_cases hsize : size = 0
        · have hexec : c.exec L (.krealloc (payload a) size) = c.exec L (.kfree (payload a)) := by
            simp [HeapClient.exec, AnglOS.krealloc, payload_ne_zero, hsize, AnglOS.grant]
          rw [hexec]
          exact hfree _ _ hold
        · obtain ⟨bs', hok', hkeep, -⟩ := hok.krealloc hu hsize hs
          exact ⟨bs', hok', hkeep⟩
  | write ptr i v =>
      obtain ⟨size, hold, hi⟩ := hk
      obtain ⟨a, n, d, rfl, hu, hn⟩ := hok.used_of_live ptr size hold
      obtain ⟨bs', hrest, hswap⟩ := hok.rest.write hu
        (m := c.heap.mem.store8 (payload a + i) v) fun x hx => Mem.store8_of_ne (by omega)
      exact ⟨bs', hok.swap hrest hswap hn (by
        rw [Function.update_idem, Function.update_eq_self_iff.mpr hold.symm])⟩

/-- The pointer of a block that was not in use was not live. -/
theorem HeapClient.Ok.live_fresh (hok : c.Ok L bs) (hfresh : ∀ k e, ¬UsedAt bs a k e) :
    c.live (payload a) = none := by
  cases hlive : c.live (payload a) with
  | none => rfl
  | some s =>
    obtain ⟨b, k, e, hab, hu, -⟩ := hok.used_of_live _ s hlive
    obtain rfl := payload_inj.mp hab
    exact absurd hu (hfresh k e)

/-- A request returns `NULL` or a pointer that was not live. -/
theorem HeapClient.Ok.kmalloc_fresh (hok : c.Ok L bs) (hs : roundedSize size < 2 ^ 31)
    (h0 : (kmalloc L c.heap size).1 ≠ 0) : c.live (kmalloc L c.heap size).1 = none := by
  rcases hok.rest.kmalloc hs with heq | ⟨bs', a, n, d, hret, -, hone, -⟩
  · exact absurd (by rw [heq]) h0
  · rw [hret]
    exact hok.live_fresh hone.fresh

/-- **No call returns a live pointer** other than its argument. -/
theorem HeapClient.Ok.returned_fresh (hok : c.Ok L bs) {k : HeapCall} (hk : k.Allowed c)
    (h0 : c.returned L k ≠ 0) (harg : c.returned L k ≠ k.arg) :
    c.live (c.returned L k) = none := by
  cases k with
  | kmalloc size => exact hok.kmalloc_fresh hk h0
  | kcalloc size =>
      rcases hok.rest.kcalloc hk with hnull | ⟨bs', a, n, d, hret, -, hone, -⟩
      · exact absurd hnull.1 h0
      · rw [HeapClient.returned, hret]
        exact hok.live_fresh hone.fresh
  | kfree ptr => exact absurd rfl h0
  | krealloc ptr size =>
      obtain ⟨hs, hptr⟩ := hk
      by_cases hnull : ptr = 0
      · subst hnull
        have hret : c.returned L (.krealloc 0 size) = (AnglOS.kmalloc L c.heap size).1 := by
          simp [HeapClient.returned, AnglOS.krealloc]
        rw [hret] at h0 ⊢
        exact hok.kmalloc_fresh hs h0
      · obtain ⟨old, hold⟩ := hptr.resolve_left hnull
        obtain ⟨a, n, d, rfl, hu, -⟩ := hok.used_of_live ptr old hold
        by_cases hsize : size = 0
        · exact absurd (by simp [HeapClient.returned, AnglOS.krealloc, hsize, hnull]) h0
        · rcases hok.rest.krealloc hu hsize hs with
            ⟨hret, -⟩ | ⟨bs', a', n', d', hret, -, hswap, -⟩
          · exact absurd hret h0
          · rw [HeapClient.returned, hret] at harg ⊢
            refine hok.live_fresh fun k e hke => harg ?_
            rw [hswap.fresh k e hke, HeapCall.arg]
  | write ptr i v => exact absurd rfl h0

end

/-! ### The invariant in memory -/

/-- Following the sizes in the headers from `a` on meets the blocks of the list and then `e`. -/
def Tiles (m : Mem) (e : ℕ) : ℕ → List ℕ → Prop
  | a, [] => a = e
  | a, b :: blks => b = a ∧ Tiles m e (nextBlk m a) blks

/-- **The heap is well formed**: `blks` are the addresses of its blocks. -/
structure WellFormed (L : FreeLists) (h : Heap) (blks : List ℕ) : Prop where
  /-- The low fence. -/
  low : h.mem.load64 heapStart = fence
  /-- The blocks fill the space between the fences. -/
  tiles : Tiles h.mem (h.memBrk - 8) (heapStart + 8) blks
  /-- The high fence is the last word below the break. -/
  high : h.mem.load64 (h.memBrk - 8) = fence
  brk_le : h.memBrk ≤ memMaxAddr
  /-- Every block has two equal tags and an even size. -/
  tags : ∀ b ∈ blks, h.mem.load64 (getFooter h.mem b) = h.mem.load64 b ∧
    blkSize h.mem b % 2 = 0 ∧ 8 ≤ blkSize h.mem b
  /-- The free blocks are the elements of the free lists, each once and on the list for its
  size; the links of every list are consistent, and nothing is linked beyond its ends. -/
  lists : ∃ ls : ℕ → List ℕ, ∀ i < numLists,
    Linked (listNext h.mem) (listPrev h.mem) (L.list i :: (ls i ++ [listEnd (L.list i)])) ∧
    listPrev h.mem (L.list i) = 0 ∧ listNext h.mem (listEnd (L.list i)) = 0 ∧
    (ls i).Nodup ∧ ∀ p, p ∈ ls i ↔ ∃ b ∈ blks, blkFree h.mem b = true ∧ p = payload b ∧
      getSegIndex (blkSize h.mem b) = i
  /-- No two adjacent blocks are both free. -/
  joined : blks.IsChain fun b b' => ¬(blkFree h.mem b = true ∧ blkFree h.mem b' = true)

section

variable {L : FreeLists} {h : Heap} {bs : List Cell} {a n : ℕ} {d : Mem}

/-- The addresses of blocks. -/
def blockAddrs (bs : List Cell) : List ℕ :=
  (cellsAt (heapStart + 8) bs).map Prod.fst

theorem mem_blockAddrs {b : ℕ} :
    b ∈ blockAddrs bs ↔ ∃ c, (b, c) ∈ cellsAt (heapStart + 8) bs := by
  simp [blockAddrs]

/-- The blocks are among the cells. -/
theorem mem_fenced {b : ℕ} {c : Cell} (hc : (b, c) ∈ cellsAt (heapStart + 8) bs) :
    (b, c) ∈ cellsAt heapStart (fenced bs) := by
  rw [fenced, cellsAt, cellsAt_append]
  exact List.mem_cons_of_mem _ (List.mem_append_left _ hc)

theorem mem_of_mem_fenced {b : ℕ} {c : Cell} (hc : (b, c) ∈ cellsAt heapStart (fenced bs))
    (hne : c ≠ .fence) : (b, c) ∈ cellsAt (heapStart + 8) bs := by
  obtain ⟨P, Q, rfl, rfl⟩ := exists_of_mem_fenced hne hc
  refine mem_cellsAt.mpr ⟨P, Q, rfl, ?_⟩
  simp only [addrOf, words_cons, Cell.words]
  ring

theorem Cell.IsBlock.facts {c : Cell} (hc : c.IsBlock) : c.HasTag ∧ c.size = c.words ∧
    c ≠ .fence ∧ c.words % 2 = 0 := by
  cases c with
  | free n => exact ⟨trivial, rfl, by simp, hc⟩
  | used n d => exact ⟨trivial, rfl, by simp, hc⟩
  | raw n => exact hc.elim
  | fence => exact hc.elim
  | loose n => exact hc.elim

theorem map_snd_cellsAt : ∀ (bs : List Cell) (a : ℕ), (cellsAt a bs).map Prod.snd = bs := by
  intro bs
  induction bs with
  | nil => intro a; rfl
  | cons c bs ih => intro a; rw [cellsAt, List.map_cons, ih]

theorem tiles_cellsAt {m : Mem} : ∀ (bs : List Cell) (a : ℕ),
    (∀ x ∈ cellsAt a bs, nextBlk m x.1 = x.1 + 8 * x.2.words) →
      Tiles m (a + 8 * words bs) a ((cellsAt a bs).map Prod.fst) := by
  intro bs
  induction bs with
  | nil => intro a _; simp [cellsAt, Tiles]
  | cons c bs ih =>
      intro a hnext
      have h1 := hnext (a, c) List.mem_cons_self
      have h2 := ih (a + 8 * c.words) fun x hx => hnext x (List.mem_cons_of_mem _ hx)
      rw [cellsAt, List.map_cons, Tiles]
      dsimp only at h1 ⊢
      rw [h1, words_cons,
        show a + 8 * (c.words + words bs) = a + 8 * c.words + 8 * words bs by ring]
      exact ⟨rfl, h2⟩

/-- What the header of a block says. -/
theorem Rest.read (hr : Rest L h bs) {b : ℕ} {c : Cell}
    (hc : (b, c) ∈ cellsAt (heapStart + 8) bs) :
    blkSize h.mem b = c.words ∧ nextBlk h.mem b = b + 8 * c.words ∧
      (blkFree h.mem b = true ↔ c.IsFree) ∧
      h.mem.load64 (getFooter h.mem b) = h.mem.load64 b := by
  have hblock := hr.block c (mem_of_mem_cellsAt hc)
  obtain ⟨htag, hsize, -, -⟩ := hblock.facts
  have hload := hr.rep.load_header (mem_fenced hc) htag
  have hblk := hr.rep.blkSize (mem_fenced hc) htag
  rw [hsize] at hblk
  refine ⟨hblk, hr.rep.nextBlk (mem_fenced hc) htag hsize, ?_, ?_⟩
  · rw [blkFree, hload]
    by_cases hfree : c.IsFree
    · simp [hfree, hfree.tagInuse]
    · simp [hfree, (hblock.isUsed_iff.mpr hfree).tagInuse]
  · rw [hr.rep.getFooter (mem_fenced hc) htag hsize, hload]
    exact hr.rep.load_footer (mem_fenced hc) htag

/-- **A heap at rest is well formed.** -/
theorem Rest.wellFormed (hr : Rest L h bs) : WellFormed L h (blockAddrs bs) := by
  obtain ⟨ls, hrep⟩ := hr.rep
  have hbrk : h.memBrk - 8 = heapStart + 8 + 8 * words bs := by
    have := hrep.brk_eq
    simp only [addrOf, fenced, words_cons, words_append, words_nil, Cell.words] at this
    omega
  have hlow : (heapStart, Cell.fence) ∈ cellsAt heapStart (fenced bs) := List.mem_cons_self
  have hhigh : (heapStart + 8 + 8 * words bs, Cell.fence) ∈ cellsAt heapStart (fenced bs) := by
    refine mem_cellsAt.mpr ⟨.fence :: bs, [], by simp [fenced], ?_⟩
    simp only [words_cons, Cell.words]
    ring
  refine ⟨hr.rep.load_header hlow trivial, ?_, ?_, hrep.brk_le, ?_, ⟨ls, fun i hi => ?_⟩, ?_⟩
  · rw [hbrk]
    exact tiles_cellsAt bs _ fun x hx => (hr.read hx).2.1
  · rw [hbrk]
    exact hr.rep.load_header hhigh trivial
  · intro b hb
    obtain ⟨c, hc⟩ := mem_blockAddrs.mp hb
    obtain ⟨hsize, -, -, hfoot⟩ := hr.read hc
    have hblock := hr.block c (mem_of_mem_cellsAt hc)
    have hfits := hr.fits c (mem_of_mem_cellsAt hc)
    rw [hsize]
    refine ⟨hfoot, hblock.facts.2.2.2, ?_⟩
    cases c with
    | free n => exact hfits
    | used n d => exact hfits
    | raw n => exact hblock.elim
    | fence => exact hblock.elim
    | loose n => exact hblock.elim
  · refine ⟨hrep.linked i hi, (hrep.ends i hi).1, (hrep.ends i hi).2, hrep.nodup i hi, fun p => ?_⟩
    rw [hrep.mem_iff i hi p]
    constructor
    · rintro ⟨a, n, ha, hp, hn⟩
      have hc := mem_of_mem_fenced ha (by simp)
      obtain ⟨hsize, -, hfree, -⟩ := hr.read hc
      exact ⟨a, mem_blockAddrs.mpr ⟨_, hc⟩, hfree.mpr trivial, hp, by rw [hsize]; exact hn⟩
    · rintro ⟨b, hb, hbf, hp, hn⟩
      obtain ⟨c, hc⟩ := mem_blockAddrs.mp hb
      obtain ⟨hsize, -, hfree, -⟩ := hr.read hc
      rw [hsize] at hn
      cases c with
      | free n => exact ⟨b, n, mem_fenced hc, hp, hn⟩
      | used n d => exact (hfree.mp hbf).elim
      | raw n => exact (hfree.mp hbf).elim
      | fence => exact (hfree.mp hbf).elim
      | loose n => exact (hfree.mp hbf).elim
  · have hchain : ((cellsAt (heapStart + 8) bs).map Prod.snd).IsChain
        fun c d => ¬(c.IsFree ∧ d.IsFree) := by
      rw [map_snd_cellsAt]
      exact hr.separated
    rw [blockAddrs, List.isChain_map]
    refine ((List.isChain_map _).mp hchain).imp_of_mem_imp fun x y hx hy hxy hfree => hxy ?_
    exact ⟨(hr.read hx).2.2.1.mp hfree.1, (hr.read hy).2.2.1.mp hfree.2⟩

/-- When no block is in use, the heap is one free block. -/
theorem Rest.single (hr : Rest L h bs) (hne : bs ≠ []) (hu : ∀ a n d, ¬UsedAt bs a n d) :
    ∃ b, blockAddrs bs = [b] ∧ blkFree h.mem b = true := by
  have hfree : ∀ x ∈ cellsAt (heapStart + 8) bs, x.2.IsFree := by
    rintro ⟨b, c⟩ hx
    have hblock := hr.block c (mem_of_mem_cellsAt hx)
    cases c with
    | free n => trivial
    | used n d => exact absurd (mem_fenced hx) (hu b n d)
    | raw n => exact hblock.elim
    | fence => exact hblock.elim
    | loose n => exact hblock.elim
  cases bs with
  | nil => exact absurd rfl hne
  | cons c bs =>
      have hc : (heapStart + 8, c) ∈ cellsAt (heapStart + 8) (c :: bs) := List.mem_cons_self
      cases bs with
      | nil =>
          exact ⟨heapStart + 8, rfl, (hr.read hc).2.2.1.mpr (hfree _ hc)⟩
      | cons c' bs =>
          have hc' :
              (heapStart + 8 + 8 * c.words, c') ∈ cellsAt (heapStart + 8) (c :: c' :: bs) := by
            simp [cellsAt]
          exact absurd ⟨hfree _ hc, hfree _ hc'⟩ (List.isChain_cons_cons.mp hr.separated).1

end

/-! ### Every run -/

/-- The heap before the first call. -/
def HeapClient.init (L : FreeLists) (h : Heap) : HeapClient :=
  ⟨(initKernelHeap L h).2, fun _ => none⟩

/-- The invariant holds in every run. -/
theorem HeapClient.ok_of_run {L : FreeLists} {h : Heap} (hbrk : h.memBrk = kheapBase)
    {ks : List HeapCall} {c : HeapClient}
    (hrun : Run (HeapClient.step L) (HeapClient.init L h) ks c) : ∃ bs, c.Ok L bs := by
  refine hrun.invariant (O := fun _ => True) (P := fun c => ∃ bs, c.Ok L bs) ?_ (by simp) ?_
  · rintro k c c' - ⟨bs, hok⟩ ⟨hk, rfl⟩
    obtain ⟨bs', hok', -⟩ := hok.exec hk
    exact ⟨bs', hok'⟩
  · obtain ⟨-, bs, hne, hrest, hnone⟩ := rest_initKernelHeap (L := L) hbrk
    exact ⟨bs, hrest, hne, fun a n d hu => absurd hu (hnone a n d), by simp [HeapClient.init]⟩

/-- **The heap is well formed in every run**: `initKernelHeap` succeeds, and after every call the
blocks tile the heap between its fences, their tags agree, the free ones are exactly the elements
of the free lists, and no two free ones are adjacent; when nothing is live, the heap is one free
block. -/
theorem heap_invariant_of_run {L : FreeLists} {h : Heap} (hbrk : h.memBrk = kheapBase)
    {ks : List HeapCall} {c : HeapClient}
    (hrun : Run (HeapClient.step L) (HeapClient.init L h) ks c) :
    (initKernelHeap L h).1 = 0 ∧ ∃ blks, WellFormed L c.heap blks ∧
      ((∀ p, c.live p = none) → ∃ b, blks = [b] ∧ blkFree c.heap.mem b = true) := by
  obtain ⟨bs, hok⟩ := HeapClient.ok_of_run hbrk hrun
  refine ⟨(rest_initKernelHeap hbrk).1, blockAddrs bs, hok.rest.wellFormed, fun hnone => ?_⟩
  refine hok.rest.single hok.nonempty fun a n d hu => ?_
  obtain ⟨size, hsize⟩ := hok.live_of_used a n d hu
  rw [hnone] at hsize
  simp at hsize

/-- The free lists at the start of the image of the kernel. -/
def imageLists : FreeLists :=
  ⟨0xFFFFFFFF80000000, le_rfl, by norm_num⟩

/-- The heap of a memory that is all zero. -/
def zeroHeap : Heap :=
  ⟨fun _ => 0#8, kheapBase⟩

/-- The pointer that the first request gets. -/
def firstPtr : ℕ :=
  (kmalloc imageLists (HeapClient.init imageLists zeroHeap).heap 24).1

/-- A request of 24 bytes and its release. -/
theorem run_kmalloc_kfree : ∃ c, Run (HeapClient.step imageLists)
    (HeapClient.init imageLists zeroHeap) ([] ++ [.kmalloc 24] ++ [.kfree firstPtr]) c := by
  refine ⟨_, ((Run.nil _).snoc ⟨?_, rfl⟩).snoc ⟨?_, rfl⟩⟩
  · by_cases h0 : firstPtr = 0
    · exact Or.inl h0
    · refine Or.inr ⟨24, ?_⟩
      rw [HeapClient.exec]
      dsimp only
      rw [← firstPtr, grant, if_neg h0, Function.update_self]
  · show roundedSize 24 < 2 ^ 31
    decide

/-- The heap after a request and its release. -/
theorem heap_invariant_of_run_kfree : ∃ c, Run (HeapClient.step imageLists)
    (HeapClient.init imageLists zeroHeap) ([] ++ [.kmalloc 24] ++ [.kfree firstPtr]) c ∧
      ∃ blks, WellFormed imageLists c.heap blks := by
  obtain ⟨c, hrun⟩ := run_kmalloc_kfree
  obtain ⟨-, blks, hwf, -⟩ := heap_invariant_of_run rfl hrun
  exact ⟨c, hrun, blks, hwf⟩

/-! ### Isolation -/

/-- Words are determined by their bytes. -/
theorem Mem.byte_eq_of_load64_eq {m m' : Mem} {a x : ℕ} (h : m'.load64 a = m.load64 a)
    (h1 : a ≤ x) (h2 : x < a + 8) : m' x = m x := by
  apply BitVec.eq_of_getLsbD_eq
  intro i hi
  have hx : a + (8 * (x - a) + i) / 8 = x := by omega
  have hm := Mem.getLsbD_load64 m a (i := 8 * (x - a) + i) (by omega)
  have hm' := Mem.getLsbD_load64 m' a (i := 8 * (x - a) + i) (by omega)
  rw [hx, show (8 * (x - a) + i) % 8 = i by omega] at hm hm'
  rw [← hm', h, hm]

theorem words_even {P : List Cell} (hP : ∀ c ∈ P, c.IsBlock) : words P % 2 = 0 := by
  induction P with
  | nil => rfl
  | cons c P ih =>
      have h1 := (hP c (by simp)).facts.2.2.2
      have h2 := ih fun c hc => hP c (by simp [hc])
      rw [words_cons]
      omega

section

variable {L : FreeLists} {c c' : HeapClient} {bs bs' : List Cell} {p size : ℕ}

/-- The bytes of a live request are part of the payload of a block. -/
theorem HeapClient.Ok.extent (hok : c.Ok L bs) (hp : c.live p = some size) :
    p % 16 = 0 ∧ heapStart + 8 < p ∧ p + size < c.heap.memBrk - 8 := by
  obtain ⟨a, n, d, rfl, hu, hn⟩ := hok.used_of_live p size hp
  have hb := cellsAt_bounds (mem_of_mem_fenced hu (by simp))
  obtain ⟨P, Q, rfl, rfl⟩ := exists_of_mem_fenced (by simp) hu
  have heven : words P % 2 = 0 := words_even fun c hc => hok.rest.block c (by simp [hc])
  obtain ⟨ls, hrep⟩ := hok.rest.rep
  have hbrk := hrep.brk_eq
  simp only [addrOf, fenced, words_cons, words_append, words_nil, Cell.words] at hbrk hb
  simp only [payload, wsize, addrOf, words_cons, Cell.words]
  refine ⟨?_, by omega, by omega⟩
  simp only [heapStart, kheapBase]
  omega

/-- The bytes of a live request overlap the block `b` only if it is the request's own block, and
then not its tags. -/
theorem HeapClient.Ok.off_tags (hok : c.Ok L bs) (hp : c.live p = some size) {b : ℕ}
    (hb : b ∈ blockAddrs bs) : (p + size ≤ b ∨ b + 8 ≤ p) ∧
      (p + size ≤ getFooter c.heap.mem b ∨ getFooter c.heap.mem b + 8 ≤ p) := by
  obtain ⟨a, n, d, rfl, hu, hn⟩ := hok.used_of_live p size hp
  obtain ⟨cell, hc⟩ := mem_blockAddrs.mp hb
  have hsize := (hok.rest.read hc).1
  have htags := (hok.rest.wellFormed.tags b hb).2.2
  obtain ⟨htag, hwords, -, -⟩ := (hok.rest.block cell (mem_of_mem_cellsAt hc)).facts
  rw [hok.rest.rep.getFooter (mem_fenced hc) htag hwords]
  simp only [payload, wsize]
  rw [hsize] at htags
  rcases cellsAt_apart (mem_of_mem_fenced hu (by simp)) hc with ⟨rfl, rfl⟩ | hlt | hlt
  · simp only [Cell.words]
    omega
  · simp only [Cell.words] at hlt
    omega
  · omega

/-- Different live requests do not overlap. -/
theorem HeapClient.Ok.disjoint (hok : c.Ok L bs) (hp : c.live p = some size) {q s : ℕ}
    (hq : c.live q = some s) (hne : q ≠ p) : p + size ≤ q ∨ q + s ≤ p := by
  obtain ⟨a, n, d, rfl, hu, hn⟩ := hok.used_of_live p size hp
  obtain ⟨b, k, e, rfl, hv, hk⟩ := hok.used_of_live q s hq
  rcases cellsAt_apart hu hv with ⟨rfl, -⟩ | hlt | hlt
  · exact absurd rfl hne
  · simp only [Cell.words, payload, wsize] at hlt ⊢
    omega
  · simp only [Cell.words, payload, wsize] at hlt ⊢
    omega

/-- A block that stayed has the same bytes. -/
theorem HeapClient.Ok.bytes_eq (hok : c.Ok L bs) (hok' : c'.Ok L bs') {a n : ℕ} {d : Mem}
    (hu : UsedAt bs a n d) (hu' : UsedAt bs' a n d) {x : ℕ} (h1 : a ≤ x) (h2 : x < a + 8 * n) :
    c'.heap.mem x = c.heap.mem x := by
  obtain ⟨ls, hrep⟩ := hok.rest.rep
  obtain ⟨ls', hrep'⟩ := hok'.rest.rep
  obtain ⟨⟨hhead, hfoot⟩, hbytes⟩ := hrep.ok _ hu
  obtain ⟨⟨hhead', hfoot'⟩, hbytes'⟩ := hrep'.ok _ hu'
  by_cases hx1 : x < a + 8
  · exact Mem.byte_eq_of_load64_eq (hhead'.trans hhead.symm) h1 hx1
  by_cases hx2 : x < a + 8 * n - 8
  · rw [hbytes x (by omega) hx2, hbytes' x (by omega) hx2]
  · exact Mem.byte_eq_of_load64_eq (hfoot'.trans hfoot.symm) (by omega) (by omega)

end

/-- **Live blocks are isolated in every run**: the bytes of a live request are aligned, lie
between the fences, and overlap neither the bytes of another live request nor a tag; a call returns
no pointer that is live, its argument apart, and changes no byte of a live block other than its
argument. -/
theorem live_isolated_of_run {L : FreeLists} {h : Heap} (hbrk : h.memBrk = kheapBase)
    {ks : List HeapCall} {c : HeapClient}
    (hrun : Run (HeapClient.step L) (HeapClient.init L h) ks c) :
    (∃ blks, WellFormed L c.heap blks ∧ ∀ p size, c.live p = some size →
      p % 16 = 0 ∧ heapStart + 8 < p ∧ p + size < c.heap.memBrk - 8 ∧
      (∀ q s, c.live q = some s → q ≠ p → p + size ≤ q ∨ q + s ≤ p) ∧
      ∀ b ∈ blks, (p + size ≤ b ∨ b + 8 ≤ p) ∧
        (p + size ≤ getFooter c.heap.mem b ∨ getFooter c.heap.mem b + 8 ≤ p)) ∧
    ∀ k c', HeapClient.step L k c c' →
      (c.returned L k ≠ 0 → c.returned L k ≠ k.arg → c.live (c.returned L k) = none) ∧
      ∀ p size, c.live p = some size → p ≠ k.arg → c'.live p = some size ∧
        ∀ x, p - 8 ≤ x → x < p - 8 + 8 * blkSize c.heap.mem (p - 8) →
          c'.heap.mem x = c.heap.mem x := by
  obtain ⟨bs, hok⟩ := HeapClient.ok_of_run hbrk hrun
  constructor
  · refine ⟨blockAddrs bs, hok.rest.wellFormed, fun p size hp => ?_⟩
    obtain ⟨h1, h2, h3⟩ := hok.extent hp
    exact ⟨h1, h2, h3, fun q s hq hne => hok.disjoint hp hq hne, fun b hb => hok.off_tags hp hb⟩
  · rintro k c' ⟨hk, rfl⟩
    refine ⟨hok.returned_fresh hk, fun p size hp hne => ?_⟩
    obtain ⟨bs', hok', hkeep⟩ := hok.exec hk
    obtain ⟨a, n, d, rfl, hu, -⟩ := hok.used_of_live p size hp
    refine ⟨hkeep.live _ size hne hp, fun x h1 h2 => ?_⟩
    have hsize : blkSize c.heap.mem a = n := hok.rest.rep.blkSize hu trivial
    rw [payload, Nat.add_sub_cancel] at h1 h2
    rw [hsize] at h2
    exact hok.bytes_eq hok' hu (hkeep.used a n d hne hu) h1 h2

/-- The live requests after two requests. -/
theorem live_isolated_of_run_kcalloc : ∃ c, Run (HeapClient.step imageLists)
    (HeapClient.init imageLists zeroHeap) ([] ++ [.kmalloc 24] ++ [.kcalloc 100]) c ∧
      ∀ p size, c.live p = some size → p % 16 = 0 ∧
        ∀ q s, c.live q = some s → q ≠ p → p + size ≤ q ∨ q + s ≤ p := by
  have h24 : roundedSize 24 < 2 ^ 31 := by decide
  have h100 : roundedSize 100 < 2 ^ 31 := by decide
  have hrun : Run (HeapClient.step imageLists) (HeapClient.init imageLists zeroHeap)
      ([] ++ [.kmalloc 24] ++ [.kcalloc 100]) _ :=
    ((Run.nil _).snoc ⟨h24, rfl⟩).snoc ⟨h100, rfl⟩
  obtain ⟨⟨blks, -, hlive⟩, -⟩ := live_isolated_of_run rfl hrun
  exact ⟨_, hrun, fun p size hp => ⟨(hlive p size hp).1, (hlive p size hp).2.2.2.1⟩⟩

end AnglOS
