import AnglOS.KernelList

/-!
# What the List Routines Do

Every edit of `list.c` unlinks a range of elements, links one in, or does both. The two halves keep
any number of lists apart; the routines follow from them.

## Main results

* `Lists.unlink`, `Lists.link` — the two halves;
* `Lists.splice` — a range moves within a list or to another list;
* `Lists.reverse` — the fields of all elements are swapped.
-/

namespace AnglOS

/-- The first half of `list_splice`, which unlinks the elements from `first` to `last`. -/
def unlinkRange (m : Mem) (first last : ℕ) : Mem :=
  let m := setNext m (listPrev m first) (listNext m last)
  setPrev m (listNext m last) (listPrev m first)

/-- The second half of `list_splice`, which links the elements from `first` to `last` in. -/
def linkRange (m : Mem) (before first last : ℕ) : Mem :=
  let m := setPrev m first (listPrev m before)
  let m := setNext m last before
  let m := setNext m (listPrev m before) first
  setPrev m before last

/-- `list_splice` unlinks a range and links it in again. -/
theorem listSplice_eq {m : Mem} {before first last : ℕ} (h : first ≠ last) :
    listSplice m before first last = linkRange (unlinkRange m first (listPrev m last)) before first
      (listPrev m last) := by
  rw [listSplice, if_neg h]
  rfl

/-- A link that is copied. -/
theorem ofNat_toNat_64 (w : BitVec 64) : BitVec.ofNat 64 w.toNat = w := by
  simp

/-- `list_remove` unlinks one element. -/
theorem listRemove_eq (m : Mem) (e : ℕ) : listRemove m e = unlinkRange m e e := by
  simp only [listRemove, unlinkRange, setNext, setPrev, listNext, listPrev, ofNat_toNat_64]

/-- `list_insert` links one element in. -/
theorem listInsert_eq (m : Mem) (before e : ℕ) :
    listInsert m before e = linkRange m before e e := by
  simp only [listInsert, linkRange, setNext, setPrev, listPrev, ofNat_toNat_64]

section

variable {N : Set ℕ} {m₀ m : Mem} {S : ListState} {L first last : ℕ} {xs rs ys : List ℕ}

/-- One list changes, and the other lists keep their links. -/
theorem Lists.relink {m' : Mem} {l : List ℕ} (h : Lists N m₀ m S)
    (hshape : ListState.Shape N (Function.update S L (some l)))
    (hlinked : Linked (listNext m') (listPrev m') (listNodes L l))
    (hends : listPrev m' L = 0 ∧ listNext m' (listEnd L) = 0)
    (hothers : ∀ L' l', L' ≠ L → S L' = some l' → ∀ p ∈ listNodes L' l',
      listNext m' p = listNext m p ∧ listPrev m' p = listPrev m p)
    (helse : SameElsewhere N m₀ m') : Lists N m₀ m' (Function.update S L (some l)) := by
  have hcases : ∀ {L' l'}, Function.update S L (some l) L' = some l' →
      (L' = L ∧ l' = l) ∨ (L' ≠ L ∧ S L' = some l') := by
    intro L' l' hL'
    rcases eq_or_ne L' L with rfl | hne
    · rw [Function.update_self] at hL'
      exact Or.inl ⟨rfl, (Option.some.inj hL').symm⟩
    · rw [Function.update_of_ne hne] at hL'
      exact Or.inr ⟨hne, hL'⟩
  refine ⟨hshape, fun L' l' hL' => ?_, fun L' l' hL' => ?_, helse⟩
  · rcases hcases hL' with ⟨rfl, rfl⟩ | ⟨hne, hS⟩
    · exact hlinked
    · refine (h.linked L' l' hS).congr (fun p hp => ?_) fun p hp => ?_
      · exact (hothers L' l' hne hS p (List.dropLast_subset _ hp)).1
      · exact (hothers L' l' hne hS p (List.mem_of_mem_tail hp)).2
  · rcases hcases hL' with ⟨rfl, rfl⟩ | ⟨hne, hS⟩
    · exact hends
    · rw [(hothers L' l' hne hS L' (by simp [listNodes])).2,
        (hothers L' l' hne hS (listEnd L') (by simp [listNodes])).1]
      exact h.ends L' l' hS

/-- The nodes of a list around a range of its elements. -/
theorem exists_nodes_range (L : ℕ) (xs rs ys : List ℕ) : ∃ X Y,
    L ∈ X ++ [xs.getLastD L] ∧ listEnd L ∈ ys.headD (listEnd L) :: Y ∧
      listNodes L (xs ++ rs ++ ys) = X ++ xs.getLastD L :: (rs ++ ys.headD (listEnd L) :: Y) ∧
      listNodes L (xs ++ ys) = X ++ xs.getLastD L :: ys.headD (listEnd L) :: Y := by
  obtain ⟨X, hX⟩ := exists_head_snoc L xs
  obtain ⟨Y, hY⟩ := exists_cons_tail (listEnd L) ys
  refine ⟨X, Y, ?_, ?_, ?_, ?_⟩
  · rw [← hX]
    exact List.mem_cons_self
  · rw [← hY]
    simp
  · rw [listNodes, List.append_assoc, List.append_assoc, hY, ← List.cons_append, hX,
      List.append_assoc, List.singleton_append]
  · rw [listNodes, List.append_assoc, hY, ← List.cons_append, hX, List.append_assoc,
      List.singleton_append]

/-- **Unlinking a range**: the list loses its elements, and they stay linked. -/
theorem Lists.unlink (hN : NodeSet N) (h : Lists N m₀ m S) (hL : S L = some (xs ++ rs ++ ys))
    (hf : rs.head? = some first) (hl : rs.getLast? = some last) :
    Lists N m₀ (unlinkRange m first last) (Function.update S L (some (xs ++ ys))) ∧
      Linked (listNext (unlinkRange m first last)) (listPrev (unlinkRange m first last)) rs := by
  obtain ⟨X, Y, hhead, hend, hnodes, hnodes'⟩ := exists_nodes_range L xs rs ys
  have hprev : listPrev m first = xs.getLastD L := by
    obtain ⟨rs', rfl⟩ := List.head?_eq_some_iff.mp hf
    exact h.prev_elem (by simpa using hL : S L = some (xs ++ first :: (rs' ++ ys)))
  have hnext : listNext m last = ys.headD (listEnd L) := by
    obtain ⟨rs', rfl⟩ := List.getLast?_eq_some_iff.mp hl
    exact h.next_elem (by simpa using hL : S L = some (xs ++ rs' ++ last :: ys))
  have hnd := h.shape.nodup L _ hL
  have hmem := h.shape.mem L _ hL
  have hlinked := h.linked L _ hL
  have hends := h.ends L _ hL
  have hdisj := h.shape.disjoint
  rw [hnodes] at hnd hmem hlinked
  have hlastmem : last ∈ N := hmem last (by simp [List.mem_of_getLast? hl])
  have hfirstmem : first ∈ N := hmem first (by simp [List.mem_of_mem_head? hf])
  generalize xs.getLastD L = a at *
  generalize ys.headD (listEnd L) = b at *
  have ha : a ∈ N := hmem a (by simp)
  have hb : b ∈ N := hmem b (by simp)
  have hm : unlinkRange m first last = setPrev (setNext m a b) b a := by
    have hnext' : listNext (setNext m a b) last = b := by
      rw [hN.next_setNext ha hlastmem (hN.lt b hb)]
      split_ifs
      · rfl
      · exact hnext
    simp only [unlinkRange, hprev, hnext, hnext', hN.prev_setNext ha hfirstmem]
  have hn : ∀ p ∈ N, listNext (unlinkRange m first last) p = if p = a then b else listNext m p := by
    intro p hp
    rw [hm, hN.next_setPrev hb hp, hN.next_setNext ha hp (hN.lt b hb)]
  have hp : ∀ p ∈ N, listPrev (unlinkRange m first last) p = if p = b then a else listPrev m p := by
    intro p hp
    rw [hm, hN.prev_setPrev hb hp (hN.lt a ha), hN.prev_setNext ha hp]
  obtain ⟨hlist, hrange⟩ := hlinked.remove_range hnd ((hn a ha).trans (if_pos rfl))
    ((hp b hb).trans (if_pos rfl)) (fun x hx hxa => (hn x (hmem x hx)).trans (if_neg hxa))
    fun y hy hyb => (hp y (hmem y hy)).trans (if_neg hyb)
  have hsub : ∀ p ∈ listNodes L (xs ++ ys), p ∈ X ++ a :: (rs ++ b :: Y) := by
    intro p hp
    rw [hnodes'] at hp
    simp only [List.mem_append, List.mem_cons] at hp ⊢
    tauto
  have hnd' := hnd
  simp only [List.nodup_append, List.nodup_cons, List.mem_append, List.mem_cons, not_or] at hnd'
  obtain ⟨-, ⟨⟨-, hab, haY⟩, -⟩, hX⟩ := hnd'
  refine ⟨h.relink ?_ (hnodes' ▸ hlist) ⟨?_, ?_⟩ (fun L' l' hne hS p hp' => ?_) ?_, hrange⟩
  · refine h.shape.replace ?_ (fun p hp => hmem p (hsub p hp)) fun p hp L' l' hne hS hp' =>
      hdisj L' l' L _ hS hL hne p hp' (hnodes ▸ hsub p hp)
    rw [hnodes']
    refine hnd.sublist (List.Sublist.append_left (List.Sublist.cons_cons a ?_) X)
    exact List.sublist_append_right _ _
  · have hLb : L ≠ b := by
      rintro rfl
      rcases List.mem_append.mp hhead with hLX | hLa
      · exact hX L hLX L (by simp) rfl
      · exact hab (List.mem_singleton.mp hLa).symm
    rw [hp L (hmem L (by simp only [List.mem_append, List.mem_singleton] at hhead; simp; tauto)),
      if_neg hLb]
    exact hends.1
  · have hTa : listEnd L ≠ a := by
      intro hTa
      rcases List.mem_cons.mp hend with hTb | hTY
      · exact hab (hTa ▸ hTb)
      · exact haY (hTa ▸ hTY)
    rw [hn _ (hmem _ (by simp only [List.mem_cons] at hend; simp; tauto)), if_neg hTa]
    exact hends.2
  · have hpa : ∀ q ∈ X ++ a :: (rs ++ b :: Y), p ≠ q := by
      rintro q hq rfl
      exact hdisj L' l' L _ hS hL hne p hp' (hnodes ▸ hq)
    have hpN := h.shape.mem L' l' hS p hp'
    rw [hn p hpN, hp p hpN, if_neg (hpa a (by simp)), if_neg (hpa b (by simp))]
    exact ⟨rfl, rfl⟩
  · rw [hm]
    exact (h.elsewhere.setNext ha).setPrev hb

/-- **Linking a range in**: free elements that are linked join a list. -/
theorem Lists.link (hN : NodeSet N) (h : Lists N m₀ m S) (hL : S L = some (xs ++ ys))
    (hr : Linked (listNext m) (listPrev m) rs) (hf : rs.head? = some first)
    (hl : rs.getLast? = some last) (hnd : rs.Nodup) (hrN : ∀ p ∈ rs, p ∈ N)
    (hfree : ∀ p ∈ rs, S.Free p) :
    Lists N m₀ (linkRange m (ys.headD (listEnd L)) first last)
      (Function.update S L (some (xs ++ rs ++ ys))) := by
  obtain ⟨X, Y, hhead, hend, hnodes, hnodes'⟩ := exists_nodes_range L xs rs ys
  have hprev : listPrev m (ys.headD (listEnd L)) = xs.getLastD L := (h.links hL).2
  have hnd' := h.shape.nodup L _ hL
  have hmem := h.shape.mem L _ hL
  have hlinked := h.linked L _ hL
  have hends := h.ends L _ hL
  have hdisj := h.shape.disjoint
  have hfirst : first ∈ rs := List.mem_of_mem_head? hf
  have hlast : last ∈ rs := List.mem_of_getLast? hl
  have hfreeL : ∀ p ∈ rs, p ∉ listNodes L (xs ++ ys) := fun p hp => hfree p hp L _ hL
  rw [hnodes'] at hnd' hmem hlinked hfreeL
  generalize xs.getLastD L = a at *
  generalize ys.headD (listEnd L) = b at *
  have ha : a ∈ N := hmem a (by simp)
  have hb : b ∈ N := hmem b (by simp)
  have hfN := hrN first hfirst
  have hlN := hrN last hlast
  have hne : ∀ p ∈ rs, ∀ q ∈ X ++ a :: b :: Y, p ≠ q := by
    rintro p hp q hq rfl
    exact hfreeL p hp hq
  have hsplit : (X ++ a :: (rs ++ b :: Y)).Nodup := by
    have hperm : (X ++ a :: (rs ++ b :: Y)).Perm (rs ++ (X ++ a :: b :: Y)) := by
      have h₁ : X ++ a :: (rs ++ b :: Y) = (X ++ [a]) ++ (rs ++ b :: Y) := by simp
      have h₂ : X ++ a :: b :: Y = (X ++ [a]) ++ (b :: Y) := by simp
      rw [h₁, h₂, ← List.append_assoc, ← List.append_assoc rs]
      exact List.perm_append_comm.append_right _
    rw [hperm.nodup_iff]
    exact List.nodup_append.mpr ⟨hnd, hnd', hne⟩
  have hmem' : ∀ p ∈ X ++ a :: (rs ++ b :: Y), p ∈ N := by
    intro p hp
    simp only [List.mem_append, List.mem_cons] at hp
    rcases hp with hp | rfl | hp | rfl | hp
    · exact hmem p (by simp [hp])
    · exact ha
    · exact hrN p hp
    · exact hb
    · exact hmem p (by simp [hp])
  have hm : linkRange m b first last =
      setPrev (setNext (setNext (setPrev m first a) last b) a first) b last := by
    have hprev' : listPrev (setNext (setPrev m first a) last b) b = a := by
      rw [hN.prev_setNext hlN hb, hN.prev_setPrev hfN hb (hN.lt a ha),
        if_neg (hne first hfirst b (by simp)).symm, hprev]
    simp only [linkRange, hprev, hprev']
  have hn : ∀ p ∈ N, listNext (linkRange m b first last) p =
      if p = a then first else if p = last then b else listNext m p := by
    intro p hp
    rw [hm, hN.next_setPrev hb hp, hN.next_setNext ha hp (hN.lt first hfN),
      hN.next_setNext hlN hp (hN.lt b hb), hN.next_setPrev hfN hp]
  have hp : ∀ p ∈ N, listPrev (linkRange m b first last) p =
      if p = b then last else if p = first then a else listPrev m p := by
    intro p hp
    rw [hm, hN.prev_setPrev hb hp (hN.lt last hlN), hN.prev_setNext ha hp,
      hN.prev_setNext hlN hp, hN.prev_setPrev hfN hp (hN.lt a ha)]
  have hlist := hlinked.insert_range hr hf hl hsplit ((hn a ha).trans (if_pos rfl))
    ((hn last hlN).trans ((if_neg (hne last hlast a (by simp))).trans (if_pos rfl)))
    ((hp b hb).trans (if_pos rfl))
    ((hp first hfN).trans ((if_neg (hne first hfirst b (by simp))).trans (if_pos rfl)))
    (fun x hx hxa hxl => (hn x (hmem' x hx)).trans ((if_neg hxa).trans (if_neg hxl)))
    fun y hy hyb hyf => (hp y (hmem' y hy)).trans ((if_neg hyb).trans (if_neg hyf))
  have hLmem : L ∈ X ++ a :: b :: Y := by
    simp only [List.mem_append, List.mem_singleton] at hhead
    simp only [List.mem_append, List.mem_cons]
    tauto
  have hTmem : listEnd L ∈ X ++ a :: b :: Y := by
    simp only [List.mem_cons] at hend
    simp only [List.mem_append, List.mem_cons]
    tauto
  have hnd₂ := hnd'
  simp only [List.nodup_append, List.nodup_cons, List.mem_cons, not_or] at hnd₂
  obtain ⟨-, ⟨⟨hab, haY⟩, -⟩, hX⟩ := hnd₂
  refine h.relink ?_ (hnodes ▸ hlist) ⟨?_, ?_⟩ (fun L' l' hL' hS p hp' => ?_) ?_
  · refine h.shape.replace (hnodes ▸ hsplit) (fun p hp => hmem' p (hnodes ▸ hp)) ?_
    intro p hp L' l' hL' hS hp'
    rw [hnodes] at hp
    simp only [List.mem_append, List.mem_cons] at hp
    have hold : p ∈ rs ∨ p ∈ X ++ a :: b :: Y := by
      simp only [List.mem_append, List.mem_cons]
      tauto
    rcases hold with hp | hp
    · exact hfree p hp L' l' hS hp'
    · exact hdisj L' l' L _ hS hL hL' p hp' (hnodes' ▸ hp)
  · have hLb : L ≠ b := by
      rintro rfl
      rcases List.mem_append.mp hhead with hLX | hLa
      · exact hX L hLX L (by simp) rfl
      · exact hab (List.mem_singleton.mp hLa).symm
    rw [hp L (hmem L hLmem), if_neg hLb, if_neg (hne first hfirst L hLmem).symm]
    exact hends.1
  · have hTa : listEnd L ≠ a := by
      intro hTa
      rcases List.mem_cons.mp hend with hTb | hTY
      · exact hab (hTa ▸ hTb)
      · exact haY (hTa ▸ hTY)
    rw [hn _ (hmem _ hTmem), if_neg hTa, if_neg (hne last hlast _ hTmem).symm]
    exact hends.2
  · have hpq : ∀ q ∈ X ++ a :: b :: Y, p ≠ q := by
      rintro q hq rfl
      exact hdisj L' l' L _ hS hL hL' p hp' (hnodes' ▸ hq)
    have hpr : ∀ q ∈ rs, p ≠ q := by
      rintro q hq rfl
      exact hfree p hq L' l' hS hp'
    have hpN := h.shape.mem L' l' hS p hp'
    rw [hn p hpN, hp p hpN, if_neg (hpq a (by simp)), if_neg (hpr last hlast),
      if_neg (hpq b (by simp)), if_neg (hpr first hfirst)]
    exact ⟨rfl, rfl⟩
  · rw [hm]
    exact (((h.elsewhere.setPrev hfN).setNext hlN).setNext ha).setPrev hb

/-- The elements of an unlinked range are free. -/
theorem ListState.Shape.free_of_unlink (h : S.Shape N) (hL : S L = some (xs ++ rs ++ ys)) {p : ℕ}
    (hp : p ∈ rs) : ListState.Free (Function.update S L (some (xs ++ ys))) p := by
  intro L' l' hL' hp'
  have hpL : p ∈ listNodes L (xs ++ rs ++ ys) := by simp [listNodes, hp]
  rcases eq_or_ne L' L with rfl | hne
  · rw [Function.update_self] at hL'
    obtain rfl := Option.some.inj hL'
    obtain ⟨X, Y, -, -, hnodes, hnodes'⟩ := exists_nodes_range L' xs rs ys
    have hnd := h.nodup L' _ hL
    rw [hnodes] at hnd
    rw [hnodes'] at hp'
    simp only [List.nodup_append, List.nodup_cons, List.mem_append, List.mem_cons, not_or] at hnd
    simp only [List.mem_append, List.mem_cons] at hp'
    obtain ⟨-, ⟨⟨har, -, -⟩, -, -, hr⟩, hX⟩ := hnd
    rcases hp' with hp' | rfl | hp'
    · exact hX p hp' p (Or.inr (Or.inl hp)) rfl
    · exact har hp
    · exact hr p hp p hp' rfl
  · rw [Function.update_of_ne hne] at hL'
    exact h.disjoint L' l' L _ hL' hL hne p hp' hpL

/-- The elements of a list are different from each other. -/
theorem ListState.Shape.nodup_elems {l : List ℕ} (h : S.Shape N) (hL : S L = some l) :
    l.Nodup := by
  have hnd := h.nodup L _ hL
  rw [listNodes, List.nodup_cons, List.nodup_append] at hnd
  exact hnd.2.1

/-- The elements of a list are nodes. -/
theorem ListState.Shape.mem_elems {l : List ℕ} {p : ℕ} (h : S.Shape N) (hL : S L = some l)
    (hp : p ∈ l) : p ∈ N :=
  h.mem L _ hL p (by simp [listNodes, hp])

/-! ### An empty list -/

/-- **`list_init`** of a list whose sentinels are in no other list. -/
theorem Lists.init (hN : NodeSet N) (h : Lists N m₀ m S) (hL : L ∈ N) (hT : listEnd L ∈ N)
    (hfree : ∀ p ∈ listNodes L [], ∀ L' l', L' ≠ L → S L' = some l' → p ∉ listNodes L' l') :
    Lists N m₀ (listInit m L) (Function.update S L (some [])) := by
  have hm : listInit m L =
      setNext (setPrev (setNext (setPrev m L 0) L (listEnd L)) (listEnd L) L) (listEnd L) 0 := rfl
  have hLT : L ≠ listEnd L := by
    rw [listEnd]
    omega
  have hmem : ∀ p ∈ listNodes L [], p ∈ N := by
    intro p hp
    rcases (by simpa [listNodes] using hp : p = L ∨ p = listEnd L) with rfl | rfl
    · exact hL
    · exact hT
  have hn : ∀ p ∈ N, listNext (listInit m L) p =
      if p = listEnd L then 0 else if p = L then listEnd L else listNext m p := by
    intro p hp
    rw [hm, hN.next_setNext hT hp (by omega), hN.next_setPrev hT hp,
      hN.next_setNext hL hp (hN.lt _ hT), hN.next_setPrev hL hp]
  have hp : ∀ p ∈ N, listPrev (listInit m L) p =
      if p = listEnd L then L else if p = L then 0 else listPrev m p := by
    intro p hp
    rw [hm, hN.prev_setNext hT hp, hN.prev_setPrev hT hp (hN.lt _ hL), hN.prev_setNext hL hp,
      hN.prev_setPrev hL hp (by omega)]
  refine h.relink (h.shape.replace (by simpa [listNodes] using hLT) hmem hfree) ?_ ⟨?_, ?_⟩
    (fun L' l' hne hS p hp' => ?_) ?_
  · refine List.isChain_pair.mpr ⟨?_, ?_⟩
    · rw [hn L hL, if_neg hLT, if_pos rfl]
    · rw [hp _ hT, if_pos rfl]
  · rw [hp L hL, if_neg hLT, if_pos rfl]
  · rw [hn _ hT, if_pos rfl]
  · have hpN := h.shape.mem L' l' hS p hp'
    have hpL : p ≠ L := by
      rintro rfl
      exact hfree p (by simp [listNodes]) L' l' hne hS hp'
    have hpT : p ≠ listEnd L := by
      rintro rfl
      exact hfree _ (by simp [listNodes]) L' l' hne hS hp'
    rw [hn p hpN, hp p hpN, if_neg hpT, if_neg hpL, if_neg hpT, if_neg hpL]
    exact ⟨rfl, rfl⟩
  · rw [hm]
    exact (((h.elsewhere.setPrev hL).setNext hL).setPrev hT).setNext hT

/-! ### Edits of one element -/

variable {e : ℕ}

/-- **`list_insert`** of a free element before any node but the head. -/
theorem Lists.insert (hN : NodeSet N) (h : Lists N m₀ m S) (hL : S L = some (xs ++ ys))
    (he : e ∈ N) (hfree : S.Free e) :
    Lists N m₀ (listInsert m (ys.headD (listEnd L)) e)
      (Function.update S L (some (xs ++ e :: ys))) := by
  rw [listInsert_eq]
  have hlink := h.link hN hL (List.isChain_singleton e) rfl rfl
    (List.nodup_singleton e) (by simpa using he) (by simpa using hfree)
  simpa using hlink

/-- **`list_remove`** of an element of any list. -/
theorem Lists.remove (hN : NodeSet N) (h : Lists N m₀ m S) (hL : S L = some (xs ++ e :: ys)) :
    Lists N m₀ (listRemove m e) (Function.update S L (some (xs ++ ys))) := by
  rw [listRemove_eq]
  exact (h.unlink hN (by simpa using hL : S L = some (xs ++ [e] ++ ys)) rfl rfl).1

/-- `list_push_front`. -/
theorem Lists.pushFront (hN : NodeSet N) (h : Lists N m₀ m S) (hL : S L = some ys)
    (he : e ∈ N) (hfree : S.Free e) :
    Lists N m₀ (listPushFront m L e) (Function.update S L (some (e :: ys))) := by
  rw [listPushFront, h.begin hL]
  rw [← List.nil_append ys] at hL
  have hinsert := h.insert hN hL he hfree
  exact hinsert

/-- `list_push_back`. -/
theorem Lists.pushBack (hN : NodeSet N) (h : Lists N m₀ m S) (hL : S L = some xs)
    (he : e ∈ N) (hfree : S.Free e) :
    Lists N m₀ (listPushBack m L e) (Function.update S L (some (xs ++ [e]))) := by
  rw [← List.append_nil xs] at hL
  have hinsert := h.insert hN hL he hfree
  exact hinsert

/-- `list_front` of a list that is not empty. -/
theorem Lists.front (h : Lists N m₀ m S) (hL : S L = some (e :: ys)) : listFront m L = e :=
  h.begin hL

/-- `list_back` of a list that is not empty. -/
theorem Lists.back (h : Lists N m₀ m S) (hL : S L = some (xs ++ [e])) : listBack m L = e := by
  have hlinks := h.links (by simpa using hL : S L = some (xs ++ [e] ++ []))
  simpa [listBack] using hlinks.2

/-! ### Splicing -/

/-- **`list_splice`** takes a range out of its list and links it in before any node but a head, of
this list or of another one. -/
theorem Lists.splice {D : ℕ} {us vs : List ℕ} (hN : NodeSet N) (h : Lists N m₀ m S)
    (hL : S L = some (xs ++ rs ++ ys)) (hf : rs.head? = some first)
    (hD : Function.update S L (some (xs ++ ys)) D = some (us ++ vs)) :
    Lists N m₀ (listSplice m (vs.headD (listEnd D)) first (ys.headD (listEnd L)))
      (Function.update (Function.update S L (some (xs ++ ys))) D (some (us ++ rs ++ vs))) := by
  obtain ⟨rs', rfl⟩ := List.head?_eq_some_iff.mp hf
  obtain ⟨last, hl⟩ : ∃ last, (first :: rs').getLast? = some last :=
    ⟨_, List.getLast?_eq_some_getLast (List.cons_ne_nil _ _)⟩
  have hne : first ≠ ys.headD (listEnd L) := by
    intro heq
    have hnd := h.shape.nodup L _ hL
    obtain ⟨X, Y, -, -, hnodes, -⟩ := exists_nodes_range L xs (first :: rs') ys
    rw [hnodes, heq] at hnd
    simp [List.nodup_append] at hnd
  have hlast : listPrev m (ys.headD (listEnd L)) = last := by
    obtain ⟨rs'', hrs⟩ := List.getLast?_eq_some_iff.mp hl
    rw [(h.links hL).2, hrs, ← List.append_assoc, List.getLastD_concat]
  rw [listSplice_eq hne, hlast]
  obtain ⟨hun, hrange⟩ := h.unlink hN hL hf hl
  refine hun.link hN hD hrange hf hl ?_ (fun p hp => ?_) fun p hp => h.shape.free_of_unlink hL hp
  · exact (h.shape.nodup_elems hL).sublist (by simp)
  · exact h.shape.mem_elems hL (List.mem_append_left _ (List.mem_append_right _ hp))

/-! ### Traversals -/

/-- `list_size` counts the elements. -/
theorem Lists.size (h : Lists N m₀ m S) (hL : S L = some ys) {fuel : ℕ} (hfuel : ys.length < fuel) :
    listSize fuel m L = some ys.length := by
  have hloop : ∀ (ys xs : List ℕ) (fuel cnt : ℕ), S L = some (xs ++ ys) → ys.length < fuel →
      listSizeLoop m L fuel (ys.headD (listEnd L)) cnt = some (cnt + ys.length) := by
    intro ys
    induction ys with
    | nil =>
      intro xs fuel cnt _ hfuel
      obtain ⟨fuel, rfl⟩ := Nat.exists_eq_succ_of_ne_zero (Nat.ne_of_gt hfuel)
      simp [listSizeLoop]
    | cons y ys ih =>
      intro xs fuel cnt hxs hfuel
      obtain ⟨fuel, rfl⟩ := Nat.exists_eq_succ_of_ne_zero (Nat.ne_of_gt (Nat.zero_lt_of_lt hfuel))
      rw [List.headD_cons, listSizeLoop, if_neg (h.shape.ne_end hxs), h.next_elem hxs,
        ih (xs ++ [y]) fuel (cnt + 1) (by simpa using hxs) (by simpa using hfuel),
        List.length_cons, Nat.add_right_comm, Nat.add_assoc]
  rw [listSize, h.begin hL, hloop ys [] fuel 0 hL hfuel, Nat.zero_add]

/-- `list_empty`. -/
theorem Lists.empty (h : Lists N m₀ m S) (hL : S L = some ys) : listEmpty m L = ys.isEmpty := by
  rw [listEmpty, h.begin hL, Bool.eq_iff_iff, decide_eq_true_iff,
    h.shape.headD_eq_end (show S L = some ([] ++ ys) from hL), List.isEmpty_iff]

/-! ### Reversing -/

/-- The two fields of the elements `done` are swapped. -/
def Swapped (N : Set ℕ) (m : Mem) (done : List ℕ) (m' : Mem) : Prop :=
  ∀ p ∈ N, listNext m' p = (if p ∈ done then listPrev m p else listNext m p) ∧
    listPrev m' p = if p ∈ done then listNext m p else listPrev m p

/-- The loop of `list_reverse` swaps the fields of the elements that are left. -/
theorem Lists.reverseLoop (hN : NodeSet N) (h : Lists N m₀ m S) {done rest : List ℕ} {fuel : ℕ}
    {m' : Mem} (hL : S L = some (done ++ rest)) (hswapped : Swapped N m done m')
    (helse : SameElsewhere N m₀ m') (hfuel : rest.length < fuel) :
    ∃ m'', listReverseLoop L fuel m' (rest.headD (listEnd L)) = some m'' ∧
      Swapped N m (done ++ rest) m'' ∧ SameElsewhere N m₀ m'' := by
  induction rest generalizing done fuel m' with
  | nil =>
    obtain ⟨fuel, rfl⟩ := Nat.exists_eq_succ_of_ne_zero (Nat.ne_of_gt hfuel)
    exact ⟨m', by simp [listReverseLoop], by simpa using hswapped, helse⟩
  | cons e rest ih =>
    obtain ⟨fuel, rfl⟩ := Nat.exists_eq_succ_of_ne_zero (Nat.ne_of_gt (Nat.zero_lt_of_lt hfuel))
    have heN : e ∈ N := h.shape.mem_elems hL (by simp)
    have hedone : e ∉ done := by
      have hnd := h.shape.nodup_elems hL
      intro he
      exact (List.nodup_append.mp hnd).2.2 e he e List.mem_cons_self rfl
    obtain ⟨hnext, hprev⟩ := hswapped e heN
    rw [if_neg hedone] at hnext hprev
    have hn : ∀ p ∈ N, listNext (swapFields m' e) p = if p = e then listPrev m e
        else listNext m' p := by
      intro p hp
      rw [swapFields, hN.next_setNext heN hp (listPrev_lt m' e), hN.next_setPrev heN hp, hprev]
    have hp : ∀ p ∈ N, listPrev (swapFields m' e) p = if p = e then listNext m e
        else listPrev m' p := by
      intro p hp
      rw [swapFields, hN.prev_setNext heN hp, hN.prev_setPrev heN hp (listNext_lt m' e), hnext]
    have hswapped' : Swapped N m (done ++ [e]) (swapFields m' e) := by
      intro p hpN
      obtain ⟨hnp, hpp⟩ := hswapped p hpN
      rw [hn p hpN, hp p hpN, hnp, hpp]
      rcases eq_or_ne p e with rfl | hpe
      · simp
      · simp [hpe]
    obtain ⟨m'', hrun, hdone, helse'⟩ := ih
      (by simpa using hL : S L = some (done ++ [e] ++ rest)) hswapped'
      ((helse.setPrev heN).setNext heN) (by simpa using hfuel)
    refine ⟨m'', ?_, by simpa using hdone, helse'⟩
    rw [List.headD_cons, listReverseLoop, if_neg (h.shape.ne_end hL), hp e heN, if_pos rfl,
      h.next_elem hL]
    exact hrun

/-- The fields of the nodes of a list whose elements `a`, …, `z` were reversed. -/
structure Reversed (N : Set ℕ) (m : Mem) (L : ℕ) (l : List ℕ) (a z : ℕ) (m' : Mem) : Prop where
  next : ∀ p ∈ N, listNext m' p = if p = a then listEnd L else if p = L then z
    else if p ∈ l then listPrev m p else listNext m p
  prev : ∀ p ∈ N, listPrev m' p = if p = z then L else if p = listEnd L then a
    else if p ∈ l then listNext m p else listPrev m p

/-- The sentinels of a list are not among its elements. -/
theorem ListState.Shape.not_mem_elems {l : List ℕ} (h : S.Shape N) (hL : S L = some l) :
    L ∉ l ∧ listEnd L ∉ l ∧ L ≠ listEnd L := by
  have hnd := h.nodup L _ hL
  simp only [listNodes, List.nodup_cons, List.nodup_append, List.mem_append,
    List.mem_singleton, not_or] at hnd
  exact ⟨hnd.1.1, fun hmem => hnd.2.2.2 _ hmem _ rfl rfl, hnd.1.2⟩

/-- An element is not a sentinel. -/
theorem ListState.Shape.elem_ne {l : List ℕ} {p : ℕ} (h : S.Shape N) (hL : S L = some l)
    (hp : p ∈ l) : p ≠ L ∧ p ≠ listEnd L := by
  obtain ⟨hLl, hTl, -⟩ := h.not_mem_elems hL
  refine ⟨?_, ?_⟩
  · rintro rfl
    exact hLl hp
  · rintro rfl
    exact hTl hp

/-- **The code of `list_reverse`** swaps the fields of the elements, and those of the ends. -/
theorem Lists.reverse_fields (hN : NodeSet N) (h : Lists N m₀ m S) {a z : ℕ} {l l' : List ℕ}
    (hL : S L = some (a :: l)) (hz : a :: l = l' ++ [z]) {fuel : ℕ}
    (hfuel : (a :: l).length < fuel) :
    ∃ m', listReverse fuel m L = some m' ∧ Reversed N m L (a :: l) a z m' ∧
      SameElsewhere N m₀ m' := by
  obtain ⟨m₁, hrun, hswapped, helse⟩ := h.reverseLoop hN
    (show S L = some ([] ++ a :: l) from hL) (fun p _ => by simp) h.elsewhere hfuel
  rw [List.nil_append] at hswapped
  have hnodes := h.shape.mem L _ hL
  have hzmem : z ∈ a :: l := by simp [hz]
  have hLN : L ∈ N := hnodes L (by simp [listNodes])
  have hTN : listEnd L ∈ N := hnodes _ (by simp [listNodes])
  have haN : a ∈ N := hnodes a (mem_listNodes List.mem_cons_self)
  have hzN : z ∈ N := hnodes z (mem_listNodes hzmem)
  obtain ⟨hLl, hTl, -⟩ := h.shape.not_mem_elems hL
  have hn₁ : ∀ p ∈ N, listNext m₁ p = if p ∈ a :: l then listPrev m p else listNext m p :=
    fun p hp => (hswapped p hp).1
  have hp₁ : ∀ p ∈ N, listPrev m₁ p = if p ∈ a :: l then listNext m p else listPrev m p :=
    fun p hp => (hswapped p hp).2
  -- the assignments behind the loop, two fields at a time
  obtain ⟨m₂, hm₂⟩ : ∃ m₂, m₂ = setPrev (setNext m₁ L z) (listEnd L) a := ⟨_, rfl⟩
  have hn₂ : ∀ p ∈ N, listNext m₂ p = if p = L then z else listNext m₁ p := by
    intro p hp
    rw [hm₂, hN.next_setPrev hTN hp, hN.next_setNext hLN hp (hN.lt z hzN)]
  have hp₂ : ∀ p ∈ N, listPrev m₂ p = if p = listEnd L then a else listPrev m₁ p := by
    intro p hp
    rw [hm₂, hN.prev_setPrev hTN hp (hN.lt a haN), hN.prev_setNext hLN hp]
  refine ⟨setNext (setPrev m₂ z L) a (listEnd L), ?_, ⟨fun p hp => ?_, fun p hp => ?_⟩, ?_⟩
  · have hbegin : listBegin m L = (a :: l).headD (listEnd L) := h.begin hL
    have ht : listNext m₁ L = a := by
      rw [hn₁ L hLN, if_neg hLl]
      exact hbegin
    have hT : listPrev m₁ (listEnd L) = z := by
      rw [hp₁ _ hTN, if_neg hTl]
      exact h.back (hz ▸ hL)
    have hfront : listNext m₂ L = z := by rw [hn₂ L hLN, if_pos rfl]
    have hback : listPrev m₂ (listEnd L) = a := by rw [hp₂ _ hTN, if_pos rfl]
    have ht' : listPrev m₂ z = listEnd L := by
      rw [hp₂ z hzN, if_neg (h.shape.elem_ne hL hzmem).2, hp₁ z hzN, if_pos hzmem]
      exact h.next_elem (show S L = some (l' ++ z :: []) from hz ▸ hL)
    have hL' : listNext m₂ a = L := by
      rw [hn₂ a haN, if_neg (h.shape.elem_ne hL List.mem_cons_self).1, hn₁ a haN,
        if_pos List.mem_cons_self]
      exact h.prev_elem (show S L = some ([] ++ a :: l) from hL)
    rw [listReverse, h.empty hL, List.isEmpty_cons, if_neg Bool.false_ne_true, hbegin, hrun]
    simp only [Option.bind_eq_bind, Option.bind_some, ht, hT, ← hm₂, hfront, hback, ht', hL']
  · rw [hN.next_setNext haN hp (hN.lt _ hTN), hN.next_setPrev hzN hp, hn₂ p hp, hn₁ p hp]
  · rw [hN.prev_setNext haN hp, hN.prev_setPrev hzN hp (hN.lt L hLN), hp₂ p hp, hp₁ p hp]
  · rw [hm₂]
    exact (((helse.setNext hLN).setPrev hTN).setPrev hzN).setNext haN

/-- Such fields link the elements in the other order. -/
theorem Lists.linked_reversed (h : Lists N m₀ m S) {m' : Mem} {a z : ℕ} {l l' : List ℕ}
    (hL : S L = some (a :: l)) (hz : a :: l = l' ++ [z]) (hm : Reversed N m L (a :: l) a z m') :
    Linked (listNext m') (listPrev m') (listNodes L (a :: l).reverse) := by
  have hnodes := h.shape.mem L _ hL
  have hndl := h.shape.nodup_elems hL
  obtain ⟨hLl, hTl, -⟩ := h.shape.not_mem_elems hL
  have hzmem : z ∈ a :: l := by simp [hz]
  have hinner : Linked (listNext m) (listPrev m) (a :: l) := by
    have hlinked := h.linked L _ hL
    rw [listNodes] at hlinked
    exact List.IsChain.left_of_append hlinked.tail
  have hrev : Linked (listNext m') (listPrev m') (a :: l).reverse := by
    refine hinner.reverse.congr (fun p hp => ?_) fun p hp => ?_
    · have hpl : p ∈ l := by
        rw [List.reverse_cons, List.dropLast_concat] at hp
        exact List.mem_reverse.mp hp
      have hpmem : p ∈ a :: l := List.mem_cons_of_mem a hpl
      have hpa : p ≠ a := by
        rintro rfl
        exact (List.nodup_cons.mp hndl).1 hpl
      rw [hm.next p (hnodes p (mem_listNodes hpmem)), if_neg hpa,
        if_neg (h.shape.elem_ne hL hpmem).1, if_pos hpmem]
    · rw [hz, List.reverse_append, List.reverse_singleton, List.singleton_append,
        List.tail_cons, List.mem_reverse] at hp
      have hpmem : p ∈ a :: l := by simp [hz, hp]
      have hpz : p ≠ z := by
        rintro rfl
        rw [hz] at hndl
        exact (List.nodup_append.mp hndl).2.2 p hp p (by simp) rfl
      rw [hm.prev p (hnodes p (mem_listNodes hpmem)), if_neg hpz,
        if_neg (h.shape.elem_ne hL hpmem).2, if_pos hpmem]
  have hzrev : (a :: l).reverse = z :: l'.reverse := by simp [hz]
  have harev : (a :: l).reverse = l.reverse ++ [a] := List.reverse_cons
  have hlast : Linked (listNext m') (listPrev m') ((a :: l).reverse ++ [listEnd L]) := by
    rw [harev, List.append_assoc, List.singleton_append]
    refine List.isChain_append_cons_cons.mpr ⟨harev ▸ hrev, ⟨?_, ?_⟩, List.isChain_singleton _⟩
    · rw [hm.next a (hnodes a (mem_listNodes List.mem_cons_self)), if_pos rfl]
    · rw [hm.prev _ (hnodes _ (by simp [listNodes])),
        if_neg (h.shape.elem_ne hL hzmem).2.symm, if_pos rfl]
  rw [listNodes]
  rw [hzrev] at hlast ⊢
  refine List.isChain_cons_cons.mpr ⟨⟨?_, ?_⟩, hlast⟩
  · rw [hm.next L (hnodes L (by simp [listNodes])),
      if_neg (h.shape.elem_ne hL List.mem_cons_self).1.symm, if_pos rfl]
  · rw [hm.prev z (hnodes z (mem_listNodes hzmem)), if_pos rfl]

/-- **`list_reverse`**. -/
theorem Lists.reverse (hN : NodeSet N) (h : Lists N m₀ m S) {l : List ℕ} (hL : S L = some l)
    {fuel : ℕ} (hfuel : l.length < fuel) :
    ∃ m', listReverse fuel m L = some m' ∧
      Lists N m₀ m' (Function.update S L (some l.reverse)) := by
  cases l with
  | nil =>
    refine ⟨m, by rw [listReverse, if_pos (by rw [h.empty hL]; rfl)], ?_⟩
    rwa [List.reverse_nil, ← hL, Function.update_eq_self]
  | cons a l =>
    obtain ⟨l', z, hz⟩ : ∃ l' z, a :: l = l' ++ [z] :=
      ⟨_, _, (List.dropLast_append_getLast (List.cons_ne_nil a l)).symm⟩
    obtain ⟨m', hrun, hm, helse⟩ := h.reverse_fields hN hL hz hfuel
    obtain ⟨hLl, hTl, hLT⟩ := h.shape.not_mem_elems hL
    have hzmem : z ∈ a :: l := by simp [hz]
    have hnodes := h.shape.mem L _ hL
    have hout : ∀ L' l'', L' ≠ L → S L' = some l'' → ∀ p ∈ listNodes L' l'',
        ∀ q ∈ listNodes L (a :: l), p ≠ q := by
      rintro L' l'' hne hS p hp q hq rfl
      exact h.shape.disjoint L' l'' L _ hS hL hne p hp hq
    refine ⟨m', hrun, h.relink ?_ (h.linked_reversed hL hz hm) ?_ (fun L' l'' hne hS p hp => ?_)
      helse⟩
    · have hmem : ∀ p ∈ listNodes L (a :: l).reverse, p ∈ listNodes L (a :: l) := by
        intro p hp
        simpa [listNodes, or_comm, or_left_comm, or_assoc] using hp
      refine h.shape.replace ?_ (fun p hp => hnodes p (hmem p hp)) fun p hp L' l'' hne hS hp' =>
        hout L' l'' hne hS p hp' p (hmem p hp) rfl
      have hperm : (listNodes L (a :: l).reverse).Perm (listNodes L (a :: l)) :=
        ((List.reverse_perm (a :: l)).append_right _).cons L
      exact hperm.nodup_iff.mpr (h.shape.nodup L _ hL)
    · rw [hm.prev L (hnodes L (by simp [listNodes])), if_neg (h.shape.elem_ne hL hzmem).1.symm,
        if_neg hLT, if_neg hLl, hm.next _ (hnodes _ (by simp [listNodes])),
        if_neg (h.shape.elem_ne hL List.mem_cons_self).2.symm, if_neg hLT.symm, if_neg hTl]
      exact h.ends L _ hL
    · have hpN := h.shape.mem L' l'' hS p hp
      have hne' := hout L' l'' hne hS p hp
      have hpl : p ∉ a :: l := fun hmem => hne' p (mem_listNodes hmem) rfl
      rw [hm.next p hpN, hm.prev p hpN, if_neg (hne' a (mem_listNodes List.mem_cons_self)),
        if_neg (hne' L (by simp [listNodes])), if_neg hpl, if_neg (hne' z (mem_listNodes hzmem)),
        if_neg (hne' _ (by simp [listNodes])), if_neg hpl]
      exact ⟨rfl, rfl⟩

end

end AnglOS
