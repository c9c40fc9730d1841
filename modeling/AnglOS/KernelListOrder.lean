import AnglOS.KernelListEdits
import Mathlib.Data.List.Destutter
import Mathlib.Data.List.Sort

/-!
# The Ordered List Routines

The routines of `list.c` that take a comparison `less`. The comparison reads what it likes outside
of the nodes of the lists, and the routines change the links only, so it stays the same comparison
while they run. The order of two elements is `!less(b, a)`.

## Main results

* `Lists.sort` — the natural merge sort of `list_sort` ends, and leaves the list that
  `List.mergeSort` computes;
* `Lists.insertOrdered` — an element joins a list before the first greater element;
* `Lists.unique` — of neighbours that are equal in the order the first one stays;
* `Lists.max`, `Lists.min` — the first greatest and the first least element.
-/

namespace AnglOS

variable {N : Set ℕ} {m₀ m : Mem} {S : ListState} {less : Mem → ℕ → ℕ → Bool} {L : ℕ}

/-- The comparison reads nothing of the nodes. -/
def ReadsElsewhere (N : Set ℕ) (m₀ : Mem) (less : Mem → ℕ → ℕ → Bool) : Prop :=
  ∀ m, SameElsewhere N m₀ m → less m = less m₀

/-- The order of two elements: the second one is not below the first. -/
def notAbove (less : Mem → ℕ → ℕ → Bool) (m₀ : Mem) (a b : ℕ) : Bool :=
  !less m₀ b a

theorem Lists.update_same (h : Lists N m₀ m S) {l : List ℕ} (hL : S L = some l) :
    Lists N m₀ m (Function.update S L (some l)) := by
  rwa [← hL, Function.update_eq_self]

section

variable (hless : ReadsElsewhere N m₀ less)
include hless

/-! ### Sorting -/

/-- **`find_end_of_run`** finds the node behind a run. -/
theorem Lists.findEndOfRun (h : Lists N m₀ m S) {xs r ys : List ℕ} {x : ℕ}
    (hL : S L = some (xs ++ (x :: r) ++ ys))
    (hr : (x :: r).IsChain fun a b => notAbove less m₀ a b)
    (hends : ∀ a ∈ (x :: r).getLast?, ∀ b ∈ ys.head?, notAbove less m₀ a b = false) {fuel : ℕ}
    (hfuel : r.length < fuel) :
    AnglOS.findEndOfRun less m fuel x (listEnd L) = some (ys.headD (listEnd L)) := by
  induction r generalizing xs x fuel with
  | nil =>
    obtain ⟨fuel, rfl⟩ := Nat.exists_eq_succ_of_ne_zero (Nat.ne_of_gt hfuel)
    have hnext : listNext m x = ys.headD (listEnd L) := h.next_elem (by simpa using hL)
    rw [AnglOS.findEndOfRun, hnext]
    cases ys with
    | nil => simp
    | cons y ys =>
      have hprev : listPrev m y = x := by
        simpa using h.prev_elem (by simpa using hL : S L = some (xs ++ [x] ++ y :: ys))
      have hstop : less m y x = true := by
        have hxy := hends x (by simp) y (by simp)
        rw [notAbove, ← hless m h.elsewhere] at hxy
        simpa using hxy
      simp [hprev, hstop]
  | cons x' r ih =>
    obtain ⟨fuel, rfl⟩ := Nat.exists_eq_succ_of_ne_zero (Nat.ne_of_gt (Nat.zero_lt_of_lt hfuel))
    obtain ⟨hxx', hr'⟩ := List.isChain_cons_cons.mp hr
    have hL' : S L = some (xs ++ [x] ++ (x' :: r) ++ ys) := by simpa using hL
    have hnext : listNext m x = x' := 
      h.next_elem (by simpa using hL : S L = some (xs ++ x :: (x' :: r ++ ys)))
    have hprev : listPrev m x' = x := by
      simpa using h.prev_elem (by simpa using hL : S L = some (xs ++ [x] ++ x' :: (r ++ ys)))
    have hne : x' ≠ listEnd L :=
      h.shape.ne_end (by simpa using hL : S L = some (xs ++ [x] ++ x' :: (r ++ ys)))
    rw [notAbove, ← hless m h.elsewhere] at hxx'
    rw [AnglOS.findEndOfRun, hnext, hprev, if_pos ⟨hne, hxx'⟩]
    exact ih hL' hr' (by simpa using hends) (by simpa using hfuel)

/-- **`inplace_merge`** merges two neighbouring parts of a list. -/
theorem Lists.merge (hN : NodeSet N) (h : Lists N m₀ m S) {xs A B ys : List ℕ} {fuel : ℕ}
    (hL : S L = some (xs ++ A ++ B ++ ys)) (hfuel : A.length + B.length < fuel) :
    ∃ m', inplaceMerge less fuel m ((A ++ B ++ ys).headD (listEnd L))
        ((B ++ ys).headD (listEnd L)) (ys.headD (listEnd L)) = some m' ∧
      Lists N m₀ m' (Function.update S L (some (xs ++ A.merge B (notAbove less m₀) ++ ys))) := by
  induction fuel generalizing m S xs A B with
  | zero => exact absurd hfuel (Nat.not_lt_zero _)
  | succ fuel ih =>
    have hnd := h.shape.nodup_elems hL
    cases A with
    | nil => exact ⟨m, by simp [inplaceMerge], by simpa using h.update_same hL⟩
    | cons a A =>
      cases B with
      | nil => exact ⟨m, by simp [inplaceMerge], by simpa using h.update_same hL⟩
      | cons b B =>
        have hab : a ≠ b := by
          rintro rfl
          simp [List.nodup_append] at hnd
        have hbR : b ≠ ys.headD (listEnd L) := by
          cases ys with
          | nil => 
            exact h.shape.ne_end (by simpa using hL : S L = some (xs ++ a :: A ++ b :: B))
          | cons y ys =>
            rintro rfl
            simp [List.nodup_append] at hnd
        rw [inplaceMerge, if_pos ⟨by simpa using hab, by simpa using hbR⟩]
        simp only [List.cons_append, List.headD_cons, hless m h.elsewhere]
        by_cases hle : notAbove less m₀ a b = true
        · -- the first part gives its first element
          have hnext : listNext m a = (A ++ (b :: B) ++ ys).headD (listEnd L) :=
            h.next_elem (by simpa using hL)
          obtain ⟨m', hrun, hm'⟩ := ih h
            (by simpa using hL : S L = some (xs ++ [a] ++ A ++ b :: B ++ ys))
            (by simp at hfuel ⊢; omega)
          rw [List.cons_merge_cons_pos _ _ _ hle]
          rw [notAbove] at hle
          refine ⟨m', ?_, by simpa using hm'⟩
          rw [if_pos hle, hnext]
          exact hrun
        · -- the first element of the second part moves to the front of the first part
          have hnext : listNext m b = (B ++ ys).headD (listEnd L) :=
            h.next_elem (by simpa using hL : S L = some (xs ++ a :: A ++ b :: (B ++ ys)))
          have hprev : listPrev m ((B ++ ys).headD (listEnd L)) = b := by
            have hlinks :=
              h.links (by simpa using hL : S L = some (xs ++ a :: A ++ [b] ++ (B ++ ys)))
            rw [hlinks.2, List.getLastD_concat]
          have hsplice := h.splice hN
            (by simpa using hL : S L = some (xs ++ a :: A ++ [b] ++ (B ++ ys))) rfl
            (by simp : Function.update S L (some (xs ++ a :: A ++ (B ++ ys))) L =
              some (xs ++ (a :: A ++ (B ++ ys))))
          rw [Function.update_idem] at hsplice
          obtain ⟨m', hrun, hm'⟩ := ih hsplice
            (by simp : _ = some (xs ++ [b] ++ a :: A ++ B ++ ys)) (by simp at hfuel ⊢; omega)
          rw [Function.update_idem] at hm'
          rw [List.cons_merge_cons_neg _ _ _ hle]
          rw [notAbove] at hle
          refine ⟨m', ?_, by simpa using hm'⟩
          rw [if_neg hle, hnext, hprev]
          exact hrun

/-- **A pass of `list_sort`** from the node at which a run begins. -/
theorem Lists.sortPass (hN : NodeSet N) (h : Lists N m₀ m S) {xs : List ℕ} {rs : List (List ℕ)}
    (hL : S L = some (xs ++ rs.flatten))
    (hrs : rs.flatten.splitBy (notAbove less m₀) = rs) {inner fuel : ℕ}
    (hinner : rs.flatten.length < inner) (hfuel : rs.length < fuel) (cnt : ℕ) :
    ∃ m', listSortPass less inner L fuel m (rs.flatten.headD (listEnd L)) cnt =
        some (m', cnt + (mergePairs (notAbove less m₀) rs).length) ∧
      Lists N m₀ m' (Function.update S L
        (some (xs ++ (mergePairs (notAbove less m₀) rs).flatten))) := by
  obtain ⟨fuel, rfl⟩ := Nat.exists_eq_succ_of_ne_zero (Nat.ne_of_gt (Nat.zero_lt_of_lt hfuel))
  induction rs using mergePairs.induct generalizing m S xs fuel cnt with
  | case1 r s rs ih =>
    obtain ⟨hs, hrne, hr, hrends⟩ := splitBy_flatten_cons hrs
    obtain ⟨hrest, hsne, hs, hsends⟩ := splitBy_flatten_cons hs
    obtain ⟨a, r, rfl⟩ := List.exists_cons_of_ne_nil hrne
    obtain ⟨b, s, rfl⟩ := List.exists_cons_of_ne_nil hsne
    have hfind₁ := h.findEndOfRun hless
      (by simpa using hL : S L = some (xs ++ a :: r ++ ((b :: s) :: rs).flatten)) hr hrends
      (by simp at hinner; omega : r.length < inner)
    have hfind₂ := h.findEndOfRun hless
      (by simpa using hL : S L = some (xs ++ a :: r ++ b :: s ++ rs.flatten)) hs hsends
      (by simp at hinner; omega : s.length < inner)
    obtain ⟨m₁, hmerge, h₁⟩ := h.merge hless hN
      (by simpa using hL : S L = some (xs ++ a :: r ++ b :: s ++ rs.flatten))
      (by simp at hinner ⊢; omega : (a :: r).length + (b :: s).length < inner)
    obtain ⟨fuel, rfl⟩ := Nat.exists_eq_succ_of_ne_zero
      (by simp at hfuel; omega : fuel ≠ 0)
    obtain ⟨m', hrun, h'⟩ := ih h₁ (Function.update_self ..) hrest (by simp at hinner ⊢; omega)
      (cnt + 1) fuel (by simp at hfuel ⊢; omega : rs.length < fuel + 1)
    rw [Function.update_idem] at h'
    have hae : a ≠ listEnd L := h.shape.ne_end
      (by simpa using hL : S L = some (xs ++ a :: (r ++ ((b :: s) :: rs).flatten)))
    have hbe : b ≠ listEnd L := h.shape.ne_end
      (by simpa using hL : S L = some (xs ++ a :: r ++ b :: (s ++ rs.flatten)))
    refine ⟨m', ?_, by simpa [mergePairs] using h'⟩
    have hhead : ((a :: r) :: (b :: s) :: rs).flatten.headD (listEnd L) = a := rfl
    rw [listSortPass, hhead, if_neg hae]
    simp only [List.flatten_cons, List.cons_append, List.headD_cons, Option.bind_eq_bind] at *
    rw [hfind₁, Option.bind_some, if_neg hbe, hfind₂, Option.bind_some, hmerge, Option.bind_some,
      hrun]
    simp only [mergePairs, List.length_cons]
    congr 2
    omega
  | case2 r =>
    obtain ⟨-, hrne, hr, -⟩ := splitBy_flatten_cons hrs
    obtain ⟨a, r, rfl⟩ := List.exists_cons_of_ne_nil hrne
    have hfind := h.findEndOfRun hless (by simpa using hL : S L = some (xs ++ a :: r ++ [])) hr
      (by simp) (by simp at hinner; omega : r.length < inner)
    have hae : a ≠ listEnd L := h.shape.ne_end (by simpa using hL : S L = some (xs ++ a :: r))
    refine ⟨m, ?_, by simpa [mergePairs] using h.update_same hL⟩
    have hhead : [a :: r].flatten.headD (listEnd L) = a := by simp
    rw [listSortPass, hhead, if_neg hae]
    simp [hfind, mergePairs]
  | case3 =>
    exact ⟨m, by simp [listSortPass, mergePairs], by simpa [mergePairs] using h.update_same hL⟩

section

variable (htrans : ∀ a b c, notAbove less m₀ a b → notAbove less m₀ b c → notAbove less m₀ a c)
  (htotal : ∀ a b, notAbove less m₀ a b || notAbove less m₀ b a)
include htrans htotal

/-- The passes of `list_sort` rearrange the list until it is in order. -/
theorem Lists.sortLoop (hN : NodeSet N) (h : Lists N m₀ m S) {l : List ℕ} (hL : S L = some l)
    {inner fuel : ℕ} (hinner : l.length < inner) (hfuel : passRuns (notAbove less m₀) l < fuel) :
    ∃ m' l', listSortLoop less inner L fuel m = some m' ∧
      Lists N m₀ m' (Function.update S L (some l')) ∧ Rearranges (notAbove less m₀) l l' ∧
      l'.Pairwise fun a b => notAbove less m₀ a b := by
  induction fuel generalizing m S l with
  | zero => exact absurd hfuel (Nat.not_lt_zero _)
  | succ fuel ih =>
    have hsplit := List.flatten_splitBy (notAbove less m₀) l
    have hruns := length_splitBy_le (notAbove less m₀) l
    obtain ⟨m₁, hrun, h₁⟩ := h.sortPass hless hN
      (by simpa [hsplit] using hL : S L = some ([] ++ (l.splitBy (notAbove less m₀)).flatten))
      (by rw [hsplit]) (by rwa [hsplit] : _ < inner) (by omega : _ < inner) 0
    rw [hsplit, ← h.begin hL, Nat.zero_add, ← passRuns] at hrun
    rw [List.nil_append, ← AnglOS.sortPass] at h₁
    have hrearr := rearranges_sortPass htrans l
    rw [listSortLoop, hrun]
    simp only [Option.bind_eq_bind, Option.bind_some]
    by_cases hmore : 1 < passRuns (notAbove less m₀) l
    · have hlt := passRuns_sortPass_lt htrans htotal hmore
      obtain ⟨m', l', hrun', h', hrearr', hsorted⟩ := ih h₁ (by rw [Function.update_self])
        (by rw [hrearr.perm.length_eq]; exact hinner) (by omega)
      rw [Function.update_idem] at h'
      exact ⟨m', l', by rw [if_pos hmore, hrun'], h', hrearr.trans hrearr', hsorted⟩
    · exact ⟨m₁, _, by rw [if_neg hmore], h₁, hrearr,
        sortPass_pairwise htrans htotal (Nat.not_lt.mp hmore)⟩

/-- **`list_sort`** ends, and the list is then in the order that a stable sort gives it. -/
theorem Lists.sort (hN : NodeSet N) (h : Lists N m₀ m S) {l : List ℕ} (hL : S L = some l)
    {fuel : ℕ} (hfuel : l.length < fuel) :
    ∃ m', listSort less fuel m L = some m' ∧
      Lists N m₀ m' (Function.update S L (some (l.mergeSort (notAbove less m₀)))) := by
  obtain ⟨m', l', hrun, h', hrearr, hsorted⟩ := h.sortLoop hless htrans htotal hN hL hfuel
    (Nat.lt_of_le_of_lt (passRuns_le_length l) hfuel)
  have hl' := hrearr.eq_mergeSort htrans htotal (h.shape.nodup_elems hL) hsorted
  exact ⟨m', hrun, hl' ▸ h'⟩

end

/-! ### Inserting in order -/

/-- **`list_insert_ordered`** puts an element before the first element that is above it. -/
theorem Lists.insertOrdered (hN : NodeSet N) (h : Lists N m₀ m S) {l : List ℕ} {e : ℕ}
    (hL : S L = some l) (he : e ∈ N) (hfree : S.Free e) {fuel : ℕ} (hfuel : l.length < fuel) :
    ∃ m', listInsertOrdered less fuel m L e = some m' ∧ Lists N m₀ m' (Function.update S L
      (some (l.orderedInsert (fun a b => less m₀ a b) e))) := by
  have hloop : ∀ (ys xs : List ℕ) (fuel : ℕ), S L = some (xs ++ ys) → ys.length < fuel →
      insertOrderedLoop less m L e fuel (ys.headD (listEnd L)) =
        some ((ys.dropWhile fun b => ¬less m₀ e b).headD (listEnd L)) := by
    intro ys
    induction ys with
    | nil =>
      intro xs fuel _ hfuel
      obtain ⟨fuel, rfl⟩ := Nat.exists_eq_succ_of_ne_zero (Nat.ne_of_gt hfuel)
      simp [insertOrderedLoop]
    | cons y ys ih =>
      intro xs fuel hxs hfuel
      obtain ⟨fuel, rfl⟩ := Nat.exists_eq_succ_of_ne_zero (Nat.ne_of_gt (Nat.zero_lt_of_lt hfuel))
      rw [List.headD_cons, insertOrderedLoop, if_neg (h.shape.ne_end hxs), hless m h.elsewhere]
      by_cases hlt : less m₀ e y = true
      · simp [hlt]
      · rw [if_neg hlt, h.next_elem hxs, ih (xs ++ [y]) fuel (by simpa using hxs)
          (by simpa using hfuel)]
        simp [hlt]
  have hdivide : l.takeWhile (fun b => ¬less m₀ e b) ++ l.dropWhile (fun b => ¬less m₀ e b) = l :=
    List.takeWhile_append_dropWhile
  refine ⟨_, by rw [listInsertOrdered, h.begin hL, hloop l [] fuel hL hfuel, Option.map_some], ?_⟩
  rw [List.orderedInsert_eq_take_drop]
  exact h.insert hN (by rw [hdivide]; exact hL) he hfree

/-! ### Duplicates -/

/-- The elements that `List.destutter'` leaves out. -/
def stutter' {α : Type*} (R : α → α → Prop) [DecidableRel R] : α → List α → List α
  | _, [] => []
  | a, b :: l => if R a b then stutter' R b l else b :: stutter' R a l

/-- The elements that `List.destutter` leaves out. -/
def stutter {α : Type*} (R : α → α → Prop) [DecidableRel R] : List α → List α
  | [] => []
  | a :: l => stutter' R a l

/-- Two elements that the order tells apart. -/
def Differ (less : Mem → ℕ → ℕ → Bool) (m₀ : Mem) (a b : ℕ) : Prop :=
  less m₀ a b ∨ less m₀ b a

instance (m₀ : Mem) : DecidableRel (Differ less m₀) := fun a b =>
  inferInstanceAs (Decidable (less m₀ a b ∨ less m₀ b a))

/-- The lists when `L` keeps `kept`, and the elements `removed` go to the list `duplicates` if there
is one. -/
def ListState.remove (S : ListState) (L : ℕ) (duplicates : Option ℕ) (kept removed : List ℕ) :
    ListState :=
  match duplicates with
  | none => Function.update S L (some kept)
  | some D => Function.update (Function.update S L (some kept)) D
      ((S D).map fun ds => ds ++ removed)

omit hless in
/-- With nothing to keep out the lists stay as they are. -/
theorem ListState.remove_nil {l : List ℕ} {duplicates : Option ℕ} (hL : S L = some l) :
    S.remove L duplicates l [] = S := by
  cases duplicates with
  | none => rw [ListState.remove, ← hL, Function.update_eq_self]
  | some D => simp [ListState.remove, ← hL]

omit hless in
/-- Elements are removed one after the other. -/
theorem ListState.remove_remove {l kept removed : List ℕ} {b : ℕ} {duplicates : Option ℕ}
    (hdup : ∀ D ∈ duplicates, D ≠ L ∧ (S D).isSome) :
    (S.remove L duplicates l [b]).remove L duplicates kept removed =
      S.remove L duplicates kept (b :: removed) := by
  cases duplicates with
  | none => rw [ListState.remove, ListState.remove, ListState.remove, Function.update_idem]
  | some D =>
    obtain ⟨hne, hsome⟩ := hdup D rfl
    obtain ⟨ds, hds⟩ := Option.isSome_iff_exists.mp hsome
    funext L'
    simp only [ListState.remove, Function.update_apply]
    split_ifs <;> simp_all

omit hless in
/-- A duplicate leaves its list, and joins the list of duplicates if there is one. -/
theorem Lists.removeDuplicate (hN : NodeSet N) (h : Lists N m₀ m S) {xs ys : List ℕ} {b : ℕ}
    {duplicates : Option ℕ} (hL : S L = some (xs ++ b :: ys))
    (hdup : ∀ D ∈ duplicates, D ≠ L ∧ (S D).isSome) :
    Lists N m₀ (match (motive := Option ℕ → Mem) duplicates with
        | none => listRemove m b
        | some D => listPushBack (listRemove m b) D b)
      (S.remove L duplicates (xs ++ ys) [b]) := by
  have hremoved := h.remove hN hL
  cases duplicates with
  | none => exact hremoved
  | some D =>
    obtain ⟨hne, hsome⟩ := hdup D rfl
    obtain ⟨ds, hds⟩ := Option.isSome_iff_exists.mp hsome
    have hfree : ListState.Free (Function.update S L (some (xs ++ ys))) b :=
      h.shape.free_of_unlink (by simpa using hL : S L = some (xs ++ [b] ++ ys))
        List.mem_cons_self
    rw [ListState.remove, hds]
    exact hremoved.pushBack hN (by rw [Function.update_of_ne hne, hds])
      (h.shape.mem_elems hL (by simp)) hfree

/-- The loop of `list_unique` from an element that stays. -/
theorem Lists.uniqueLoop (hN : NodeSet N) (h : Lists N m₀ m S) {xs ys : List ℕ} {a fuel : ℕ}
    {duplicates : Option ℕ} (hL : S L = some (xs ++ a :: ys))
    (hdup : ∀ D ∈ duplicates, D ≠ L ∧ (S D).isSome) (hfuel : ys.length < fuel) :
    ∃ m', listUniqueLoop less L duplicates fuel m a = some m' ∧
      Lists N m₀ m' (S.remove L duplicates (xs ++ ys.destutter' (Differ less m₀) a)
        (stutter' (Differ less m₀) a ys)) := by
  induction ys generalizing m S xs a fuel with
  | nil =>
    obtain ⟨fuel, rfl⟩ := Nat.exists_eq_succ_of_ne_zero (Nat.ne_of_gt hfuel)
    refine ⟨m, ?_, ?_⟩
    · rw [listUniqueLoop, h.next_elem hL]
      simp
    · rw [List.destutter'_nil, stutter', ListState.remove_nil hL]
      exact h
  | cons b ys ih =>
    obtain ⟨fuel, rfl⟩ := Nat.exists_eq_succ_of_ne_zero (Nat.ne_of_gt (Nat.zero_lt_of_lt hfuel))
    have hnext : listNext m a = b := h.next_elem hL
    have hbe : b ≠ listEnd L := 
      h.shape.ne_end (by simpa using hL : S L = some (xs ++ [a] ++ b :: ys))
    rw [listUniqueLoop, hnext, hless m h.elsewhere]
    simp only [if_neg hbe]
    by_cases hdiffer : Differ less m₀ a b
    · obtain ⟨m', hrun, h'⟩ := ih h
        (by simpa using hL : S L = some (xs ++ [a] ++ b :: ys)) hdup (by simpa using hfuel)
      refine ⟨m', ?_, by simpa [stutter', hdiffer] using h'⟩
      rw [if_neg, hrun]
      rcases hdiffer with hab | hba
      · simp [hab]
      · simp [hba]
    · have hstep := h.removeDuplicate hN
        (by simpa using hL : S L = some (xs ++ [a] ++ b :: ys)) hdup
      have hL' : S.remove L duplicates (xs ++ [a] ++ ys) [b] L = some (xs ++ a :: ys) := by
        cases duplicates with
        | none => simp [ListState.remove]
        | some D => simp [ListState.remove, Function.update_of_ne (hdup D rfl).1.symm]
      have hdup' : ∀ D ∈ duplicates, D ≠ L ∧
          (S.remove L duplicates (xs ++ [a] ++ ys) [b] D).isSome := by
        rintro D rfl
        obtain ⟨hne, hsome⟩ := hdup D rfl
        exact ⟨hne, by simpa [ListState.remove] using hsome⟩
      obtain ⟨m', hrun, h'⟩ := ih hstep hL' hdup'
        (by simpa using hfuel : ys.length < fuel)
      rw [ListState.remove_remove hdup] at h'
      rw [List.destutter'_cons_neg _ hdiffer, stutter', if_neg hdiffer]
      refine ⟨m', ?_, h'⟩
      rw [Differ, not_or, Bool.not_eq_true, Bool.not_eq_true] at hdiffer
      rw [if_pos (by simp [hdiffer.1, hdiffer.2])]
      cases duplicates with
      | none => exact hrun
      | some D => exact hrun

/-- **`list_unique`** keeps the first of neighbours that the order does not tell apart, and moves
the other ones to the list `duplicates`. -/
theorem Lists.unique (hN : NodeSet N) (h : Lists N m₀ m S) {l : List ℕ} {duplicates : Option ℕ}
    (hL : S L = some l) (hdup : ∀ D ∈ duplicates, D ≠ L ∧ (S D).isSome) {fuel : ℕ}
    (hfuel : l.length < fuel) :
    ∃ m', listUnique less fuel m L duplicates = some m' ∧
      Lists N m₀ m' (S.remove L duplicates (l.destutter (Differ less m₀))
        (stutter (Differ less m₀) l)) := by
  rw [listUnique, h.empty hL]
  cases l with
  | nil => exact ⟨m, by simp, by rwa [List.destutter_nil, stutter, ListState.remove_nil hL]⟩
  | cons a l =>
    obtain ⟨m', hrun, h'⟩ := h.uniqueLoop hless hN
      (show S L = some ([] ++ a :: l) from hL) hdup (Nat.lt_of_succ_lt hfuel)
    exact ⟨m', by rw [h.begin hL]; exact hrun, h'⟩

/-! ### Greatest and least elements -/

omit hless in
/-- **A search that changes its mind for better elements only** ends at the first of the best
ones. -/
theorem exists_first_foldl {α : Type*} {better : α → α → Bool}
    (hasymm : ∀ a b, better a b → !better b a)
    (hcotrans : ∀ a b c, better a c → better a b || better b c) (x : α) (ys : List α) :
    ∃ xs zs, x :: ys = xs ++ ys.foldl (fun a b => if better a b then b else a) x :: zs ∧
      (∀ a ∈ xs, better a (ys.foldl (fun a b => if better a b then b else a) x)) ∧
      ∀ a ∈ zs, !better (ys.foldl (fun a b => if better a b then b else a) x) a := by
  induction ys using List.reverseRecOn with
  | nil => exact ⟨[], [], rfl, by simp, by simp⟩
  | append_singleton ys y ih =>
    obtain ⟨xs, zs, hxs, hbefore, hbehind⟩ := ih
    rw [List.foldl_append, List.foldl_cons, List.foldl_nil]
    generalize ys.foldl (fun a b => if better a b then b else a) x = best at *
    by_cases hy : better best y = true
    · refine ⟨xs ++ best :: zs, [], ?_, fun a ha => ?_, by simp⟩
      · rw [if_pos hy, ← hxs, List.cons_append]
      · rw [if_pos hy]
        have hab : better best a = false := by
          rcases List.mem_append.mp ha with ha | ha
          · simpa using hasymm a best (hbefore a ha)
          · rcases List.mem_cons.mp ha with rfl | ha
            · by_contra hself
              have hself : better a a = true := by simpa using hself
              simpa [hself] using hasymm a a hself
            · simpa using hbehind a ha
        simpa [hab] using hcotrans best a y hy
    · refine ⟨xs, zs ++ [y], ?_, ?_, ?_⟩
      · rw [if_neg hy, ← List.cons_append, hxs, List.append_assoc, List.cons_append]
      · simpa [hy] using hbefore
      · intro a ha
        rw [if_neg hy]
        rcases List.mem_append.mp ha with ha | ha
        · exact hbehind a ha
        · rw [List.mem_singleton.mp ha]
          simpa using hy

omit hless in
/-- The search of `list_max` and `list_min`. -/
theorem Lists.best (h : Lists N m₀ m S) (better : Mem → ℕ → ℕ → Bool)
    (hasymm : ∀ a b, better m a b → !better m b a)
    (hcotrans : ∀ a b c, better m a c → better m a b || better m b c) {x fuel : ℕ} {ys : List ℕ}
    (hL : S L = some (x :: ys)) (hfuel : ys.length < fuel) :
    ∃ xs best zs, x :: ys = xs ++ best :: zs ∧ listBest better fuel m L = some best ∧
      (∀ a ∈ xs, better m a best) ∧ ∀ a ∈ zs, !better m best a := by
  have hloop : ∀ (ys xs : List ℕ) (fuel best : ℕ), S L = some (xs ++ ys) → ys.length < fuel →
      listBestLoop better m L fuel best (ys.headD (listEnd L)) =
        some (ys.foldl (fun a b => if better m a b then b else a) best) := by
    intro ys
    induction ys with
    | nil =>
      intro xs fuel best _ hfuel
      obtain ⟨fuel, rfl⟩ := Nat.exists_eq_succ_of_ne_zero (Nat.ne_of_gt hfuel)
      simp [listBestLoop]
    | cons y ys ih =>
      intro xs fuel best hxs hfuel
      obtain ⟨fuel, rfl⟩ := Nat.exists_eq_succ_of_ne_zero (Nat.ne_of_gt (Nat.zero_lt_of_lt hfuel))
      rw [List.headD_cons, listBestLoop, if_neg (h.shape.ne_end hxs), h.next_elem hxs,
        ih (xs ++ [y]) fuel _ (by simpa using hxs) (by simpa using hfuel), List.foldl_cons]
  obtain ⟨xs, zs, hxs, hbefore, hbehind⟩ := exists_first_foldl hasymm hcotrans x ys
  refine ⟨xs, _, zs, hxs, ?_, hbefore, hbehind⟩
  have hL' : S L = some ([] ++ x :: ys) := hL
  have hne : x ≠ listEnd L := h.shape.ne_end hL'
  have hnext : listNext m x = ys.headD (listEnd L) := h.next_elem hL'
  rw [listBest, h.begin hL, List.headD_cons, if_pos hne, hnext, hloop ys [x] fuel x hL hfuel]

section

variable (htrans : ∀ a b c, notAbove less m₀ a b → notAbove less m₀ b c → notAbove less m₀ a c)
  (htotal : ∀ a b, notAbove less m₀ a b || notAbove less m₀ b a)
include htrans htotal

omit hless in
/-- The order in terms of `less`. -/
theorem less_of_order : (∀ a b, less m₀ a b → !less m₀ b a) ∧
    ∀ a b c, less m₀ a c → less m₀ a b || less m₀ b c := by
  refine ⟨fun a b hab => by simpa [notAbove, hab] using htotal a b, fun a b c hac => ?_⟩
  by_contra hnot
  simp only [Bool.or_eq_true, not_or, Bool.not_eq_true] at hnot
  have hca := htrans c b a (by simp [notAbove, hnot.2]) (by simp [notAbove, hnot.1])
  simp [notAbove, hac] at hca

/-- **`list_max`** is the first of the greatest elements. -/
theorem Lists.max (h : Lists N m₀ m S) {x fuel : ℕ} {ys : List ℕ} (hL : S L = some (x :: ys))
    (hfuel : ys.length < fuel) :
    ∃ xs max zs, x :: ys = xs ++ max :: zs ∧ listMax less fuel m L = some max ∧
      (∀ a ∈ xs, less m₀ a max) ∧ ∀ a ∈ zs, notAbove less m₀ a max := by
  obtain ⟨hasymm, hcotrans⟩ := less_of_order htrans htotal
  rw [← hless m h.elsewhere] at hasymm hcotrans
  simpa only [listMax, notAbove, hless m h.elsewhere] using h.best _ hasymm hcotrans hL hfuel

/-- **`list_min`** is the first of the least elements. -/
theorem Lists.min (h : Lists N m₀ m S) {x fuel : ℕ} {ys : List ℕ} (hL : S L = some (x :: ys))
    (hfuel : ys.length < fuel) :
    ∃ xs min zs, x :: ys = xs ++ min :: zs ∧ listMin less fuel m L = some min ∧
      (∀ a ∈ xs, less m₀ min a) ∧ ∀ a ∈ zs, notAbove less m₀ min a := by
  obtain ⟨hasymm, hcotrans⟩ := less_of_order htrans htotal
  rw [← hless m h.elsewhere] at hasymm hcotrans
  have hcotrans' : ∀ a b c, less m c a → less m b a || less m c b := fun a b c hca => by
    simpa [or_comm] using hcotrans c b a hca
  simpa only [listMin, notAbove, hless m h.elsewhere] using
    h.best (fun m min e => less m e min) (fun a b hab => hasymm b a hab) hcotrans' hL
      hfuel

end

end

end AnglOS
