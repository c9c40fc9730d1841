import AnglOS.Linked
import AnglOS.Loop
import AnglOS.Memory

/-!
# Memory and List Routines

The models of `memmove`, `memset` and `strcmp` of `kernel/libc/string.c` and of the list routines of
`kernel/libc/kernel/list.c`, on a byte memory. A `struct list_elem` at address `p` holds its
`prev` pointer at `p` and its `next` pointer at `p + 8`; a `struct list` holds its head and
then its tail.

## Main results

* `memmove_apply` — `memmove` copies as if through a temporary, whichever way it runs;
* `memmove_copies` — the same, byte by byte;
* `strcmp_spec` — `strcmp` returns zero exactly when its first argument is a prefix of its second;
* `listRemove_links`, `listInsert_links` — the links of all nodes after the two list edits,
  as long as different nodes do not overlap.
-/

namespace AnglOS

/-! ### `string.c` -/

/-- `memmove`. It copies from the end when the source lies below the destination. -/
def memmove (m : Mem) (dest src n : ℕ) : Mem :=
  if src < dest then
    loop (fun k m => m.store8 (dest + n - 1 - k) (m (src + n - 1 - k))) n m
  else loop (fun k m => m.store8 (dest + k) (m (src + k))) n m

/-- `memset`. -/
def memset (m : Mem) (s : ℕ) (c : BitVec 8) (n : ℕ) : Mem :=
  loop (fun k m => m.store8 (s + k) c) n m

/-- The loop of `memmove` that runs upwards reads a byte before it is overwritten, as long as
the source does not lie below the destination. -/
theorem copyUp_apply {m : Mem} {dest src : ℕ} (h : dest ≤ src) (n x : ℕ) :
    loop (fun k m => m.store8 (dest + k) (m (src + k))) n m x =
      if dest ≤ x ∧ x < dest + n then m (src + (x - dest)) else m x := by
  have hinv := loop_invariant (n := n) (s := m)
    (f := fun k m => m.store8 (dest + k) (m (src + k)))
    (fun k m' => ∀ y, m' y = if dest ≤ y ∧ y < dest + k then m (src + (y - dest)) else m y)
    (fun y => by rw [if_neg (by omega)]) (fun k hk m' hm' y => ?_)
  · exact hinv x
  · by_cases hy : y = dest + k
    · rw [hy, Mem.store8_self, hm', if_neg (by omega), if_pos (by omega)]
      congr 1
      omega
    · rw [Mem.store8_of_ne hy, hm']
      refine if_congr ?_ rfl rfl
      omega

/-- The loop of `memmove` that runs downwards reads a byte before it is overwritten, as long
as the source lies below the destination. -/
theorem copyDown_apply {m : Mem} {dest src : ℕ} (h : src < dest) (n x : ℕ) :
    loop (fun k m => m.store8 (dest + n - 1 - k) (m (src + n - 1 - k))) n m x =
      if dest ≤ x ∧ x < dest + n then m (src + (x - dest)) else m x := by
  have hinv := loop_invariant (n := n) (s := m)
    (f := fun k m => m.store8 (dest + n - 1 - k) (m (src + n - 1 - k)))
    (fun k m' => ∀ y, m' y = if dest + n - k ≤ y ∧ y < dest + n then m (src + (y - dest))
      else m y) (fun y => by rw [if_neg (by omega)]) (fun k hk m' hm' y => ?_)
  · rw [hinv]
    refine if_congr ?_ rfl rfl
    omega
  · by_cases hy : y = dest + n - 1 - k
    · rw [hy, Mem.store8_self, hm', if_neg (by omega), if_pos (by omega)]
      congr 1
      omega
    · rw [Mem.store8_of_ne hy, hm']
      refine if_congr ?_ rfl rfl
      omega

/-- **`memmove` copies as if through a temporary**, whether its ranges overlap or not. -/
theorem memmove_apply (m : Mem) (dest src n x : ℕ) :
    memmove m dest src n x =
      if dest ≤ x ∧ x < dest + n then m (src + (x - dest)) else m x := by
  by_cases hdir : src < dest
  · rw [memmove, if_pos hdir, copyDown_apply hdir]
  · rw [memmove, if_neg hdir, copyUp_apply (not_lt.mp hdir)]

/-- **`memmove` is a simultaneous copy**: each byte of the destination gets the old byte of the
source, however the two overlap, and every other byte stays. -/
theorem memmove_copies (m : Mem) (dest src n : ℕ) :
    (∀ k < n, memmove m dest src n (dest + k) = m (src + k)) ∧
      ∀ x, (x < dest ∨ dest + n ≤ x) → memmove m dest src n x = m x := by
  refine ⟨fun k hk => ?_, fun x hx => ?_⟩
  · rw [memmove_apply, if_pos (by omega), Nat.add_sub_cancel_left]
  · rw [memmove_apply, if_neg (by omega)]

/-- `memset` writes its range and nothing else. -/
theorem memset_apply (m : Mem) (s : ℕ) (c : BitVec 8) (n x : ℕ) :
    memset m s c n x = if s ≤ x ∧ x < s + n then c else m x := by
  have h := loop_invariant (n := n) (s := m) (f := fun k m => m.store8 (s + k) c)
    (fun k m' => m' x = if s ≤ x ∧ x < s + k then c else m x)
    (by rw [if_neg (by omega)]) (fun k _ m' h => by
      by_cases hx : x = s + k
      · rw [hx, Mem.store8_self, if_pos (by omega)]
      · rw [Mem.store8_of_ne hx, h]
        refine if_congr ?_ rfl rfl
        omega)
  exact h

/-! ### Strings -/

/-- The NUL-terminated string at `p` has the bytes `s`. -/
def CString (m : Mem) : ℕ → List (BitVec 8) → Prop
  | p, [] => m p = 0
  | p, c :: s => m p = c ∧ c ≠ 0 ∧ CString m (p + 1) s

/-- The loop of `strcmp`, which compares signed characters. `none` means that it goes on. -/
def strcmp (m : Mem) : ℕ → ℕ → ℕ → Option ℤ
  | 0, _, _ => none
  | fuel + 1, s₁, s₂ =>
    if m s₁ = 0 then some 0
    else if m s₁ ≠ m s₂ then some ((m s₁).toInt - (m s₂).toInt)
    else strcmp m fuel (s₁ + 1) (s₂ + 1)

/-- The bytes of a string are determined by its address. -/
theorem CString.unique {m : Mem} {p : ℕ} {s t : List (BitVec 8)} (hs : CString m p s)
    (ht : CString m p t) : s = t := by
  induction s generalizing p t with
  | nil =>
    cases t with
    | nil => rfl
    | cons d t => exact absurd (ht.1.symm.trans hs) ht.2.1
  | cons c s ih =>
    cases t with
    | nil => exact absurd (hs.1.symm.trans ht) hs.2.1
    | cons d t => rw [ih hs.2.2 ht.2.2, ← hs.1, ← ht.1]

/-- **`strcmp` returns zero for a prefix**: it stops at the end of its first argument. -/
theorem strcmp_spec {m : Mem} {p q : ℕ} {s t : List (BitVec 8)} (hs : CString m p s)
    (ht : CString m q t) {fuel : ℕ} (hfuel : s.length < fuel) :
    ∃ r, strcmp m fuel p q = some r ∧ (r = 0 ↔ s <+: t) := by
  induction fuel generalizing p q s t with
  | zero => omega
  | succ fuel ih =>
    cases s with
    | nil => exact ⟨0, if_pos hs, by simp⟩
    | cons c s =>
      obtain ⟨hc, hc0, hs⟩ := hs
      rw [strcmp, if_neg (hc ▸ hc0), hc]
      cases t with
      | nil =>
        rw [show m q = 0 from ht, if_pos hc0]
        refine ⟨_, rfl, ?_⟩
        rw [sub_eq_zero, BitVec.toInt_inj]
        simpa using hc0
      | cons d t =>
        obtain ⟨hd, -, ht⟩ := ht
        rw [hd]
        by_cases hcd : c = d
        · rw [if_neg (not_not.mpr hcd), hcd, List.prefix_cons_inj]
          exact ih hs ht (by simpa using hfuel)
        · rw [if_pos hcd]
          refine ⟨_, rfl, ?_⟩
          rw [sub_eq_zero, BitVec.toInt_inj]
          exact ⟨fun h => absurd h hcd, fun h => absurd (List.cons_prefix_cons.mp h).1 hcd⟩

/-- A comparison that has come to its end does not depend on how long it may take. -/
theorem strcmp_mono {m : Mem} {p q fuel fuel' : ℕ} {r : ℤ} (h : strcmp m fuel p q = some r)
    (hle : fuel ≤ fuel') : strcmp m fuel' p q = some r := by
  induction fuel generalizing p q fuel' with
  | zero => cases h
  | succ fuel ih =>
    obtain ⟨fuel', rfl⟩ : ∃ f, fuel' = f + 1 := ⟨fuel' - 1, by omega⟩
    rw [strcmp] at h ⊢
    split_ifs at h ⊢
    · exact h
    · exact h
    · exact ih h (by omega)

/-! ### `list.c` -/

/-- `list_next`. -/
def listNext (m : Mem) (elem : ℕ) : ℕ :=
  (m.load64 (elem + 8)).toNat

/-- `list_prev`. -/
def listPrev (m : Mem) (elem : ℕ) : ℕ :=
  (m.load64 elem).toNat

/-- `list_begin`. -/
def listBegin (m : Mem) (list : ℕ) : ℕ :=
  listNext m list

/-- `list_end`. -/
def listEnd (list : ℕ) : ℕ :=
  list + 16

/-- `list_init`. -/
def listInit (m : Mem) (list : ℕ) : Mem :=
  let m := m.store64 list 0#64
  let m := m.store64 (list + 8) (BitVec.ofNat 64 (list + 16))
  let m := m.store64 (list + 16) (BitVec.ofNat 64 list)
  m.store64 (list + 24) 0#64

/-- `list_insert`. -/
def listInsert (m : Mem) (before elem : ℕ) : Mem :=
  let m := m.store64 elem (m.load64 before)
  let m := m.store64 (elem + 8) (BitVec.ofNat 64 before)
  let m := m.store64 (listPrev m before + 8) (BitVec.ofNat 64 elem)
  m.store64 before (BitVec.ofNat 64 elem)

/-- `list_push_back`. -/
def listPushBack (m : Mem) (list elem : ℕ) : Mem :=
  listInsert m (listEnd list) elem

/-- `list_remove`. The heap does not use the element it returns. -/
def listRemove (m : Mem) (elem : ℕ) : Mem :=
  let m := m.store64 (listPrev m elem + 8) (m.load64 (elem + 8))
  m.store64 (listNext m elem) (m.load64 elem)

/-- Two nodes do not overlap. -/
def NodesApart (p q : ℕ) : Prop :=
  p + 16 ≤ q ∨ q + 16 ≤ p

/-- A byte of the node at `p`. -/
def InNode (p x : ℕ) : Prop :=
  p ≤ x ∧ x < p + 16

theorem listNext_store_next (m : Mem) (p : ℕ) (v : BitVec 64) :
    listNext (m.store64 (p + 8) v) p = v.toNat := by
  simp [listNext]

theorem listPrev_store_prev (m : Mem) (p : ℕ) (v : BitVec 64) :
    listPrev (m.store64 p v) p = v.toNat := by
  simp [listPrev]

theorem listNext_store_prev (m : Mem) (p : ℕ) (v : BitVec 64) :
    listNext (m.store64 p v) p = listNext m p := by
  rw [listNext, Mem.load64_store64_of_disjoint (by omega), listNext]

theorem listPrev_store_next (m : Mem) (p : ℕ) (v : BitVec 64) :
    listPrev (m.store64 (p + 8) v) p = listPrev m p := by
  rw [listPrev, Mem.load64_store64_of_disjoint (by omega), listPrev]

/-- A store to one node does not change the links of a node apart from it. -/
theorem links_store_of_apart {m : Mem} {p q a : ℕ} {v : BitVec 64} (h : NodesApart p q)
    (ha : a = q ∨ a = q + 8) :
    listNext (m.store64 a v) p = listNext m p ∧ listPrev (m.store64 a v) p = listPrev m p := by
  rw [NodesApart] at h
  rw [listNext, listPrev, Mem.load64_store64_of_disjoint (by omega),
    Mem.load64_store64_of_disjoint (by omega)]
  exact ⟨rfl, rfl⟩

/-- A link word copied from memory or made from an address that fits is that address. -/
theorem toNat_ofNat_64 {p : ℕ} (h : p < 2 ^ 64) : (BitVec.ofNat 64 p).toNat = p := by
  rw [BitVec.toNat_ofNat, Nat.mod_eq_of_lt h]

/-- **The links after `list_remove`**: the neighbours of the element point at each other. -/
theorem listRemove_links {m : Mem} {e a b : ℕ} (ha : listPrev m e = a) (hb : listNext m e = b)
    (hae : NodesApart a e) (hbe : NodesApart b e) (hab : NodesApart a b) :
    listNext (listRemove m e) a = b ∧ listPrev (listRemove m e) b = a ∧
      (∀ p, NodesApart p a → (p = b ∨ NodesApart p b) →
        listNext (listRemove m e) p = listNext m p) ∧
      (∀ p, NodesApart p b → (p = a ∨ NodesApart p a) →
        listPrev (listRemove m e) p = listPrev m p) ∧
      ∀ x, ¬InNode a x → ¬InNode b x → listRemove m e x = m x := by
  have hea : NodesApart e a := hae.symm
  obtain ⟨hn, hp⟩ := links_store_of_apart (m := m) (a := a + 8) (v := m.load64 (e + 8)) hea
    (Or.inr rfl)
  have hm : listRemove m e = (m.store64 (a + 8) (m.load64 (e + 8))).store64 b
      ((m.store64 (a + 8) (m.load64 (e + 8))).load64 e) := by
    rw [listRemove]
    simp only [ha, hn, hb]
  rw [hm]
  refine ⟨?_, ?_, fun p hpa hpb => ?_, fun p hpb hpa => ?_, fun x hxa hxb => ?_⟩
  · rw [(links_store_of_apart hab (Or.inl rfl)).1, listNext_store_next]
    exact hb
  · rw [listPrev_store_prev]
    exact hp.trans ha
  · rcases hpb with rfl | hpb
    · rw [listNext_store_prev, (links_store_of_apart hpa (Or.inr rfl)).1]
    · rw [(links_store_of_apart hpb (Or.inl rfl)).1, (links_store_of_apart hpa (Or.inr rfl)).1]
  · rw [(links_store_of_apart hpb (Or.inl rfl)).2]
    rcases hpa with rfl | hpa
    · rw [listPrev_store_next]
    · rw [(links_store_of_apart hpa (Or.inr rfl)).2]
  · rw [InNode] at hxa hxb
    rw [Mem.store64_of_not_mem (by omega), Mem.store64_of_not_mem (by omega)]

/-- **The links after `list_insert`**: the new element stands between the element it was
inserted before and the one that preceded that. -/
theorem listInsert_links {m : Mem} {t e a : ℕ} (ha : listPrev m t = a) (he : e < 2 ^ 64)
    (ht : t < 2 ^ 64) (hae : NodesApart a e) (hte : NodesApart t e) (hat : NodesApart a t) :
    listNext (listInsert m t e) a = e ∧ listNext (listInsert m t e) e = t ∧
      listPrev (listInsert m t e) t = e ∧ listPrev (listInsert m t e) e = a ∧
      (∀ p, NodesApart p a → NodesApart p e → (p = t ∨ NodesApart p t) →
        listNext (listInsert m t e) p = listNext m p) ∧
      (∀ p, (p = a ∨ NodesApart p a) → NodesApart p e → NodesApart p t →
        listPrev (listInsert m t e) p = listPrev m p) ∧
      ∀ x, ¬InNode a x → ¬InNode e x → ¬InNode t x → listInsert m t e x = m x := by
  have hea : NodesApart e a := hae.symm
  have het : NodesApart e t := hte.symm
  set m₁ := m.store64 e (m.load64 t) with hm₁
  set m₂ := m₁.store64 (e + 8) (BitVec.ofNat 64 t) with hm₂
  have hpt : listPrev m₂ t = a := by
    rw [hm₂, (links_store_of_apart hte (Or.inr rfl)).2, hm₁,
      (links_store_of_apart hte (Or.inl rfl)).2, ha]
  have hm : listInsert m t e =
      (m₂.store64 (a + 8) (BitVec.ofNat 64 e)).store64 t (BitVec.ofNat 64 e) := by
    rw [listInsert]
    simp only [← hm₁, ← hm₂, hpt]
  rw [hm]
  refine ⟨?_, ?_, ?_, ?_, fun p hpa hpe hpt' => ?_, fun p hpa hpe hpt' => ?_,
    fun x hxa hxe hxt => ?_⟩
  · rw [(links_store_of_apart hat (Or.inl rfl)).1, listNext_store_next, toNat_ofNat_64 he]
  · rw [(links_store_of_apart het (Or.inl rfl)).1, (links_store_of_apart hea (Or.inr rfl)).1, hm₂,
      listNext_store_next, toNat_ofNat_64 ht]
  · rw [listPrev_store_prev, toNat_ofNat_64 he]
  · rw [(links_store_of_apart het (Or.inl rfl)).2, (links_store_of_apart hea (Or.inr rfl)).2, hm₂,
      listPrev_store_next, hm₁, listPrev_store_prev]
    exact ha
  · have hbefore : listNext (m₂.store64 (a + 8) (BitVec.ofNat 64 e)) p = listNext m p := by
      rw [(links_store_of_apart hpa (Or.inr rfl)).1, hm₂,
        (links_store_of_apart hpe (Or.inr rfl)).1, hm₁, (links_store_of_apart hpe (Or.inl rfl)).1]
    rcases hpt' with rfl | hpt'
    · rw [listNext_store_prev, hbefore]
    · rw [(links_store_of_apart hpt' (Or.inl rfl)).1, hbefore]
  · rw [(links_store_of_apart hpt' (Or.inl rfl)).2]
    have hbefore : listPrev m₂ p = listPrev m p := by
      rw [hm₂, (links_store_of_apart hpe (Or.inr rfl)).2, hm₁,
        (links_store_of_apart hpe (Or.inl rfl)).2]
    rcases hpa with rfl | hpa
    · rw [listPrev_store_next, hbefore]
    · rw [(links_store_of_apart hpa (Or.inr rfl)).2, hbefore]
  · rw [InNode] at hxa hxe hxt
    rw [Mem.store64_of_not_mem (by omega), Mem.store64_of_not_mem (by omega), hm₂,
      Mem.store64_of_not_mem (by omega), hm₁, Mem.store64_of_not_mem (by omega)]

/-- **The links after `list_init`**: head and tail point at each other and at nothing else. -/
theorem listInit_links {m : Mem} {l : ℕ} (hl : l + 16 < 2 ^ 64) :
    listNext (listInit m l) l = listEnd l ∧ listPrev (listInit m l) (listEnd l) = l ∧
      listPrev (listInit m l) l = 0 ∧ listNext (listInit m l) (listEnd l) = 0 ∧
      ∀ x, (x < l ∨ l + 32 ≤ x) → listInit m l x = m x := by
  simp only [listInit, listNext, listPrev, listEnd]
  refine ⟨?_, ?_, ?_, ?_, fun x hx => ?_⟩
  · rw [Mem.load64_store64_of_disjoint (by omega), Mem.load64_store64_of_disjoint (by omega),
      Mem.load64_store64_self, toNat_ofNat_64 hl]
  · rw [Mem.load64_store64_of_disjoint (by omega), Mem.load64_store64_self,
      toNat_ofNat_64 (by omega)]
  · rw [Mem.load64_store64_of_disjoint (by omega), Mem.load64_store64_of_disjoint (by omega),
      Mem.load64_store64_of_disjoint (by omega), Mem.load64_store64_self]
    rfl
  · rw [Mem.load64_store64_self]
    rfl
  · rw [Mem.store64_of_not_mem (by omega), Mem.store64_of_not_mem (by omega),
      Mem.store64_of_not_mem (by omega), Mem.store64_of_not_mem (by omega)]

end AnglOS
