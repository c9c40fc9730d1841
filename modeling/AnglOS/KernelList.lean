import AnglOS.Libc
import AnglOS.NaturalSort

/-!
# The Kernel's Lists

The doubly linked lists of `kernel/libc/kernel/list.c` as a component: any number of lists in one
memory, and the edits that move elements within a list and between lists. The comparison that the
ordered edits take is a function of the memory and two elements. A loop takes the number of
rounds that it may run.

* `listSplice`, `listReverse`, `listSort`, `listInsertOrdered`, `listUnique`, `listMax`, `listMin` —
  the routines that are not in `AnglOS.Libc`.
* `Lists N m₀ m S` — the memory `m` has the lists `S` on the nodes `N`, and is `m₀` elsewhere.
* `Lists.unlink`, `Lists.link` — the two halves that every edit is made of.
-/

namespace AnglOS

/-! ### `list.c` -/

/-- `elem->next = v`. -/
def setNext (m : Mem) (elem v : ℕ) : Mem :=
  m.store64 (elem + 8) (BitVec.ofNat 64 v)

/-- `elem->prev = v`. -/
def setPrev (m : Mem) (elem v : ℕ) : Mem :=
  m.store64 elem (BitVec.ofNat 64 v)

/-- `list_splice`. -/
def listSplice (m : Mem) (before first last : ℕ) : Mem :=
  if first = last then m
  else
    let last := listPrev m last
    let m := setNext m (listPrev m first) (listNext m last)
    let m := setPrev m (listNext m last) (listPrev m first)
    let m := setPrev m first (listPrev m before)
    let m := setNext m last before
    let m := setNext m (listPrev m before) first
    setPrev m before last

/-- `list_push_front`. -/
def listPushFront (m : Mem) (list elem : ℕ) : Mem :=
  listInsert m (listBegin m list) elem

/-- `list_front`. -/
def listFront (m : Mem) (list : ℕ) : ℕ :=
  listNext m list

/-- `list_back`. -/
def listBack (m : Mem) (list : ℕ) : ℕ :=
  listPrev m (listEnd list)

/-- `list_pop_front`, with the element it returns. -/
def listPopFront (m : Mem) (list : ℕ) : Mem × ℕ :=
  let front := listFront m list
  (listRemove m front, front)

/-- `list_pop_back`, with the element it returns. -/
def listPopBack (m : Mem) (list : ℕ) : Mem × ℕ :=
  let back := listBack m list
  (listRemove m back, back)

/-- `list_empty`. -/
def listEmpty (m : Mem) (list : ℕ) : Bool :=
  listBegin m list = listEnd list

/-- The loop of `list_size`, which has counted `cnt` elements before `e`. -/
def listSizeLoop (m : Mem) (list : ℕ) : ℕ → ℕ → ℕ → Option ℕ
  | 0, _, _ => none
  | fuel + 1, e, cnt =>
    if e = listEnd list then some cnt else listSizeLoop m list fuel (listNext m e) (cnt + 1)

/-- `list_size`. -/
def listSize (fuel : ℕ) (m : Mem) (list : ℕ) : Option ℕ :=
  listSizeLoop m list fuel (listBegin m list) 0

/-- `swap` of the two fields of an element. -/
def swapFields (m : Mem) (e : ℕ) : Mem :=
  let t := listPrev m e
  setNext (setPrev m e (listNext m e)) e t

/-- The loop of `list_reverse`. -/
def listReverseLoop (list : ℕ) : ℕ → Mem → ℕ → Option Mem
  | 0, _, _ => none
  | fuel + 1, m, e =>
    if e = listEnd list then some m
    else listReverseLoop list fuel (swapFields m e) (listPrev (swapFields m e) e)

/-- `list_reverse`. -/
def listReverse (fuel : ℕ) (m : Mem) (list : ℕ) : Option Mem :=
  if listEmpty m list then some m
  else do
    let m ← listReverseLoop list fuel m (listBegin m list)
    -- the fields `head.next` and `tail.prev` are swapped
    let t := listNext m list
    let m := setNext m list (listPrev m (listEnd list))
    let m := setPrev m (listEnd list) t
    -- the fields `head.next->prev` and `tail.prev->next` are swapped
    let front := listNext m list
    let back := listPrev m (listEnd list)
    let t := listPrev m front
    let m := setPrev m front (listNext m back)
    some (setNext m back t)

section

variable (less : Mem → ℕ → ℕ → Bool)

/-- `find_end_of_run`. -/
def findEndOfRun (m : Mem) : ℕ → ℕ → ℕ → Option ℕ
  | 0, _, _ => none
  | fuel + 1, a, b =>
    let a := listNext m a
    if a ≠ b ∧ !less m a (listPrev m a) then findEndOfRun m fuel a b else some a

/-- `inplace_merge`. -/
def inplaceMerge : ℕ → Mem → ℕ → ℕ → ℕ → Option Mem
  | 0, _, _, _, _ => none
  | fuel + 1, m, a0, a1b0, b1 =>
    if a0 ≠ a1b0 ∧ a1b0 ≠ b1 then
      if !less m a1b0 a0 then inplaceMerge fuel m (listNext m a0) a1b0 b1
      else
        let a1b0 := listNext m a1b0
        inplaceMerge fuel (listSplice m a0 (listPrev m a1b0) a1b0) a0 a1b0 b1
    else some m

/-- One pass of `list_sort`, which has put out `cnt` runs before `a0`. -/
def listSortPass (inner : ℕ) (list : ℕ) : ℕ → Mem → ℕ → ℕ → Option (Mem × ℕ)
  | 0, _, _, _ => none
  | fuel + 1, m, a0, cnt =>
    if a0 = listEnd list then some (m, cnt)
    else do
      let a1b0 ← findEndOfRun less m inner a0 (listEnd list)
      if a1b0 = listEnd list then some (m, cnt + 1)
      else
        let b1 ← findEndOfRun less m inner a1b0 (listEnd list)
        let m ← inplaceMerge less inner m a0 a1b0 b1
        listSortPass inner list fuel m b1 (cnt + 1)

/-- The loop of `list_sort` over the passes. -/
def listSortLoop (inner : ℕ) (list : ℕ) : ℕ → Mem → Option Mem
  | 0, _ => none
  | fuel + 1, m => do
    let (m, outputRunCnt) ← listSortPass less inner list inner m (listBegin m list) 0
    if 1 < outputRunCnt then listSortLoop inner list fuel m else some m

/-- `list_sort`. -/
def listSort (fuel : ℕ) (m : Mem) (list : ℕ) : Option Mem :=
  listSortLoop less fuel list fuel m

/-- The loop of `list_insert_ordered`: the element before which `elem` belongs. -/
def insertOrderedLoop (m : Mem) (list elem : ℕ) : ℕ → ℕ → Option ℕ
  | 0, _ => none
  | fuel + 1, e =>
    if e = listEnd list then some e
    else if less m elem e then some e
    else insertOrderedLoop m list elem fuel (listNext m e)

/-- `list_insert_ordered`. -/
def listInsertOrdered (fuel : ℕ) (m : Mem) (list elem : ℕ) : Option Mem :=
  (insertOrderedLoop less m list elem fuel (listBegin m list)).map fun e => listInsert m e elem

/-- The loop of `list_unique`. -/
def listUniqueLoop (list : ℕ) (duplicates : Option ℕ) : ℕ → Mem → ℕ → Option Mem
  | 0, _, _ => none
  | fuel + 1, m, elem =>
    let next := listNext m elem
    if next = listEnd list then some m
    else if !less m elem next && !less m next elem then
      let m := listRemove m next
      let m := match duplicates with
        | none => m
        | some duplicates => listPushBack m duplicates next
      listUniqueLoop list duplicates fuel m elem
    else listUniqueLoop list duplicates fuel m next

/-- `list_unique`. -/
def listUnique (fuel : ℕ) (m : Mem) (list : ℕ) (duplicates : Option ℕ) : Option Mem :=
  if listEmpty m list then some m
  else listUniqueLoop less list duplicates fuel m (listBegin m list)

/-- The loop of `list_max` and `list_min`, where `better m a b` says that the element `b` replaces
the element `a`. -/
def listBestLoop (better : Mem → ℕ → ℕ → Bool) (m : Mem) (list : ℕ) : ℕ → ℕ → ℕ → Option ℕ
  | 0, _, _ => none
  | fuel + 1, best, e =>
    if e = listEnd list then some best
    else listBestLoop better m list fuel (if better m best e then e else best) (listNext m e)

/-- The code of `list_max` and `list_min`. -/
def listBest (better : Mem → ℕ → ℕ → Bool) (fuel : ℕ) (m : Mem) (list : ℕ) : Option ℕ :=
  let best := listBegin m list
  if best ≠ listEnd list then listBestLoop better m list fuel best (listNext m best)
  else some best

/-- `list_max`, where `less(max, e)` replaces `max`. -/
def listMax (fuel : ℕ) (m : Mem) (list : ℕ) : Option ℕ :=
  listBest less fuel m list

/-- `list_min`, where `less(e, min)` replaces `min`. -/
def listMin (fuel : ℕ) (m : Mem) (list : ℕ) : Option ℕ :=
  listBest (fun m min e => less m e min) fuel m list

end

/-! ### The fields of nodes -/

/-- Addresses of list elements that do not overlap. -/
structure NodeSet (N : Set ℕ) : Prop where
  lt : ∀ p ∈ N, p < 2 ^ 64
  apart : ∀ p ∈ N, ∀ q ∈ N, p ≠ q → NodesApart p q

theorem listNext_lt (m : Mem) (p : ℕ) : listNext m p < 2 ^ 64 :=
  (m.load64 (p + 8)).isLt

theorem listPrev_lt (m : Mem) (p : ℕ) : listPrev m p < 2 ^ 64 :=
  (m.load64 p).isLt

section

variable {N : Set ℕ} {m : Mem} {p q v : ℕ}

/-- An assignment to a `next` field changes this field. -/
theorem NodeSet.next_setNext (hN : NodeSet N) (hp : p ∈ N) (hq : q ∈ N) (hv : v < 2 ^ 64) :
    listNext (setNext m p v) q = if q = p then v else listNext m q := by
  split_ifs with hqp
  · rw [hqp, setNext, listNext_store_next, toNat_ofNat_64 hv]
  · exact (links_store_of_apart (hN.apart q hq p hp hqp) (Or.inr rfl)).1

/-- An assignment to a `next` field changes no `prev` field. -/
theorem NodeSet.prev_setNext (hN : NodeSet N) (hp : p ∈ N) (hq : q ∈ N) :
    listPrev (setNext m p v) q = listPrev m q := by
  rcases eq_or_ne q p with rfl | hqp
  · exact listPrev_store_next m q _
  · exact (links_store_of_apart (hN.apart q hq p hp hqp) (Or.inr rfl)).2

/-- An assignment to a `prev` field changes this field. -/
theorem NodeSet.prev_setPrev (hN : NodeSet N) (hp : p ∈ N) (hq : q ∈ N) (hv : v < 2 ^ 64) :
    listPrev (setPrev m p v) q = if q = p then v else listPrev m q := by
  split_ifs with hqp
  · rw [hqp, setPrev, listPrev_store_prev, toNat_ofNat_64 hv]
  · exact (links_store_of_apart (hN.apart q hq p hp hqp) (Or.inl rfl)).2

/-- An assignment to a `prev` field changes no `next` field. -/
theorem NodeSet.next_setPrev (hN : NodeSet N) (hp : p ∈ N) (hq : q ∈ N) :
    listNext (setPrev m p v) q = listNext m q := by
  rcases eq_or_ne q p with rfl | hqp
  · exact listNext_store_prev m q _
  · exact (links_store_of_apart (hN.apart q hq p hp hqp) (Or.inl rfl)).1

/-- Memory outside of the nodes. -/
def SameElsewhere (N : Set ℕ) (m₀ m : Mem) : Prop :=
  ∀ x, (∀ p ∈ N, ¬InNode p x) → m x = m₀ x

variable {m₀ : Mem}

theorem SameElsewhere.setNext (h : SameElsewhere N m₀ m) (hp : p ∈ N) :
    SameElsewhere N m₀ (setNext m p v) := by
  intro x hx
  have hout := hx p hp
  rw [InNode] at hout
  rw [AnglOS.setNext, Mem.store64_of_not_mem (by omega), h x hx]

theorem SameElsewhere.setPrev (h : SameElsewhere N m₀ m) (hp : p ∈ N) :
    SameElsewhere N m₀ (setPrev m p v) := by
  intro x hx
  have hout := hx p hp
  rw [InNode] at hout
  rw [AnglOS.setPrev, Mem.store64_of_not_mem (by omega), h x hx]

end

/-! ### Many lists in one memory -/

/-- The nodes of a list: its head, its elements, and its tail. -/
def listNodes (L : ℕ) (l : List ℕ) : List ℕ :=
  L :: (l ++ [listEnd L])

theorem mem_listNodes {L p : ℕ} {l : List ℕ} (hp : p ∈ l) : p ∈ listNodes L l :=
  List.mem_cons_of_mem L (List.mem_append_left _ hp)

/-- Which lists there are, by the addresses of their heads, and their elements. -/
abbrev ListState := ℕ → Option (List ℕ)

/-- A node that no list has. -/
def ListState.Free (S : ListState) (p : ℕ) : Prop :=
  ∀ L l, S L = some l → p ∉ listNodes L l

/-- The lists are made of the nodes `N`, and no node has two places. -/
structure ListState.Shape (N : Set ℕ) (S : ListState) : Prop where
  nodup : ∀ L l, S L = some l → (listNodes L l).Nodup
  mem : ∀ L l, S L = some l → ∀ p ∈ listNodes L l, p ∈ N
  disjoint : ∀ L l L' l', S L = some l → S L' = some l' → L ≠ L' → ∀ p ∈ listNodes L l,
    p ∉ listNodes L' l'

/-- The memory `m` has the lists `S` on the nodes `N`, and outside of these it is `m₀`. -/
structure Lists (N : Set ℕ) (m₀ m : Mem) (S : ListState) : Prop where
  shape : S.Shape N
  linked : ∀ L l, S L = some l → Linked (listNext m) (listPrev m) (listNodes L l)
  ends : ∀ L l, S L = some l → listPrev m L = 0 ∧ listNext m (listEnd L) = 0
  elsewhere : SameElsewhere N m₀ m

/-- A list may be replaced by one of nodes that no other list has. -/
theorem ListState.Shape.replace {N : Set ℕ} {S : ListState} (h : S.Shape N) {L : ℕ} {l : List ℕ}
    (hnodup : (listNodes L l).Nodup) (hmem : ∀ p ∈ listNodes L l, p ∈ N)
    (hfree : ∀ p ∈ listNodes L l, ∀ L' l', L' ≠ L → S L' = some l' → p ∉ listNodes L' l') :
    ListState.Shape N (Function.update S L (some l)) := by
  have hcases : ∀ {L' l'}, Function.update S L (some l) L' = some l' →
      (L' = L ∧ l' = l) ∨ (L' ≠ L ∧ S L' = some l') := by
    intro L' l' hL'
    rcases eq_or_ne L' L with rfl | hne
    · rw [Function.update_self] at hL'
      exact Or.inl ⟨rfl, (Option.some.inj hL').symm⟩
    · rw [Function.update_of_ne hne] at hL'
      exact Or.inr ⟨hne, hL'⟩
  refine ⟨fun L' l' hL' => ?_, fun L' l' hL' => ?_, fun L₁ l₁ L₂ l₂ h₁ h₂ hne p hp => ?_⟩
  · rcases hcases hL' with ⟨rfl, rfl⟩ | ⟨-, hL'⟩
    · exact hnodup
    · exact h.nodup L' l' hL'
  · rcases hcases hL' with ⟨rfl, rfl⟩ | ⟨-, hL'⟩
    · exact hmem
    · exact h.mem L' l' hL'
  · rcases hcases h₁ with ⟨rfl, rfl⟩ | ⟨hne₁, hS₁⟩ <;>
      rcases hcases h₂ with ⟨rfl, rfl⟩ | ⟨hne₂, hS₂⟩
    · exact absurd rfl hne
    · exact hfree p hp L₂ l₂ hne₂ hS₂
    · exact fun hp' => hfree p hp' L₁ l₁ hne₁ hS₁ hp
    · exact h.disjoint L₁ l₁ L₂ l₂ hS₁ hS₂ hne p hp

/-- The last node of the head and some elements, and what is before it. -/
theorem exists_head_snoc (L : ℕ) (xs : List ℕ) : ∃ X, L :: xs = X ++ [xs.getLastD L] := by
  rcases List.eq_nil_or_concat xs with rfl | ⟨xs, x, rfl⟩
  · exact ⟨[], rfl⟩
  · exact ⟨L :: xs, by simp⟩

/-- The first node of some elements and the tail, and what is behind it. -/
theorem exists_cons_tail (T : ℕ) (ys : List ℕ) : ∃ Y, ys ++ [T] = ys.headD T :: Y := by
  cases ys with
  | nil => exact ⟨[], rfl⟩
  | cons y ys => exact ⟨ys ++ [T], rfl⟩

section

variable {N : Set ℕ} {m₀ m : Mem} {S : ListState} {L : ℕ} {xs ys : List ℕ}

/-- **Neighbours point at each other**, wherever a list is divided. -/
theorem Lists.links (h : Lists N m₀ m S) (hL : S L = some (xs ++ ys)) :
    listNext m (xs.getLastD L) = ys.headD (listEnd L) ∧
      listPrev m (ys.headD (listEnd L)) = xs.getLastD L := by
  obtain ⟨X, hX⟩ := exists_head_snoc L xs
  obtain ⟨Y, hY⟩ := exists_cons_tail (listEnd L) ys
  have hnodes : listNodes L (xs ++ ys) = X ++ xs.getLastD L :: ys.headD (listEnd L) :: Y := by
    rw [listNodes, List.append_assoc, hY, ← List.cons_append, hX, List.append_assoc,
      List.singleton_append]
  have hlinked := h.linked L _ hL
  rw [hnodes] at hlinked
  exact hlinked.pair

/-- The node behind an element. -/
theorem Lists.next_elem {e : ℕ} (h : Lists N m₀ m S) (hL : S L = some (xs ++ e :: ys)) :
    listNext m e = ys.headD (listEnd L) := by
  have hlinks := h.links (by simpa using hL : S L = some (xs ++ [e] ++ ys))
  simpa using hlinks.1

/-- The node before an element. -/
theorem Lists.prev_elem {e : ℕ} (h : Lists N m₀ m S) (hL : S L = some (xs ++ e :: ys)) :
    listPrev m e = xs.getLastD L := by
  simpa using (h.links hL).2

/-- The first node behind the head. -/
theorem Lists.begin (h : Lists N m₀ m S) (hL : S L = some ys) :
    listBegin m L = ys.headD (listEnd L) := by
  have hlinks := h.links (show S L = some ([] ++ ys) from hL)
  simpa [listBegin] using hlinks.1

/-- An element is not the tail. -/
theorem ListState.Shape.ne_end {e : ℕ} (h : S.Shape N) (hL : S L = some (xs ++ e :: ys)) :
    e ≠ listEnd L := by
  have hnd := h.nodup L _ hL
  simp only [listNodes, List.nodup_cons, List.nodup_append] at hnd
  exact hnd.2.2.2 e (by simp) (listEnd L) (by simp)

/-- The first node of a part of a list is the tail only if the part is empty. -/
theorem ListState.Shape.headD_eq_end (h : S.Shape N) (hL : S L = some (xs ++ ys)) :
    ys.headD (listEnd L) = listEnd L ↔ ys = [] := by
  cases ys with
  | nil => simp
  | cons y ys => simpa using h.ne_end hL

end

end AnglOS
