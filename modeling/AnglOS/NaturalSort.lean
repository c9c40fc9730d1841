import Mathlib.Data.List.SplitBy
import Mathlib.Data.List.Pairwise
import Mathlib.Tactic

/-!
# Natural Merge Sort

The general theory of the natural merge sort of a list. A *run* is a maximal stretch of
neighbours in order; `List.splitBy` gives the runs of a list. One pass merges the runs in pairs.
The theory says nothing of how the list is stored, or of how a pass moves its elements.

* `mergePairs`, `sortPass` — one pass; `passRuns` counts the runs that it puts out.
* `Rearranges` — a permutation that keeps every sublist that is in order, so that elements that
  are equal in the order stay in their order.

## Main results

* `rearranges_sortPass` — a pass rearranges the list;
* `sortPass_pairwise` — a pass that puts out one run has sorted the list;
* `passRuns_sortPass_lt` — the next pass puts out fewer runs, as long as there is more than one;
* `Rearranges.eq_mergeSort` — there is one way to rearrange distinct elements in order.
-/

namespace AnglOS

variable {α : Type*} {le : α → α → Bool}

/-! ### Rearranging -/

/-- The list `l'` has the elements of `l`, and every sublist of `l` that is in order is a sublist
of `l'`. -/
structure Rearranges (le : α → α → Bool) (l l' : List α) : Prop where
  perm : l'.Perm l
  stable : ∀ ys : List α, ys.Pairwise (fun a b => le a b) → ys.Sublist l → ys.Sublist l'

theorem Rearranges.refl (l : List α) : Rearranges le l l :=
  ⟨List.Perm.refl l, fun _ _ h => h⟩

theorem Rearranges.trans {l₁ l₂ l₃ : List α} (h : Rearranges le l₁ l₂)
    (h' : Rearranges le l₂ l₃) : Rearranges le l₁ l₃ :=
  ⟨h'.perm.trans h.perm, fun ys hys hsub => h'.stable ys hys (h.stable ys hys hsub)⟩

/-- Parts are rearranged on their own. -/
theorem Rearranges.append {l₁ l₁' l₂ l₂' : List α} (h₁ : Rearranges le l₁ l₁')
    (h₂ : Rearranges le l₂ l₂') : Rearranges le (l₁ ++ l₂) (l₁' ++ l₂') := by
  refine ⟨h₁.perm.append h₂.perm, fun ys hys hsub => ?_⟩
  obtain ⟨ys₁, ys₂, rfl, hsub₁, hsub₂⟩ := List.sublist_append_iff.mp hsub
  obtain ⟨hys₁, hys₂, -⟩ := List.pairwise_append.mp hys
  exact (h₁.stable _ hys₁ hsub₁).append (h₂.stable _ hys₂ hsub₂)

/-- **Merging two lists in order rearranges them.** -/
theorem Rearranges.merge (htrans : ∀ a b c, le a b → le b c → le a c) {xs ys : List α}
    (hxs : xs.Pairwise fun a b => le a b) (hys : ys.Pairwise fun a b => le a b) :
    Rearranges le (xs ++ ys) (xs.merge ys le) := by
  refine ⟨List.merge_perm_append le, fun zs hzs hsub => ?_⟩
  induction xs generalizing ys zs with
  | nil => simpa using hsub
  | cons x xs ihx =>
    induction ys generalizing zs with
    | nil => simpa using hsub
    | cons y ys ihy =>
      obtain ⟨hx, hxs'⟩ := List.pairwise_cons.mp hxs
      by_cases hle : le x y = true
      · rw [List.cons_merge_cons_pos _ _ _ hle]
        cases zs with
        | nil => exact List.nil_sublist _
        | cons z zs =>
          rcases List.cons_sublist_cons'.mp hsub with hrest | ⟨rfl, hrest⟩
          · exact (ihx hxs' hys _ hzs hrest).cons _
          · exact (ihx hxs' hys _ (List.pairwise_cons.mp hzs).2 hrest).cons_cons _
      · rw [List.cons_merge_cons_neg _ _ _ hle]
        -- nothing of the first list is below the head of the second
        have hnot : ∀ a ∈ x :: xs, ¬le a y = true := by
          intro a ha hay
          rcases List.mem_cons.mp ha with rfl | ha
          · exact hle hay
          · exact hle (htrans x a y (hx a ha) hay)
        obtain ⟨zs₁, zs₂, rfl, hsub₁, hsub₂⟩ := List.sublist_append_iff.mp hsub
        obtain ⟨hzs₁, hzs₂, hzs₁₂⟩ := List.pairwise_append.mp hzs
        cases zs₂ with
        | nil =>
          have hsub' : (zs₁ ++ []).Sublist (x :: xs ++ ys) := by
            simpa using hsub₁.trans (List.sublist_append_left _ _)
          exact (ihy (List.pairwise_cons.mp hys).2 _ hzs hsub').cons _
        | cons z zs₂ =>
          rcases List.cons_sublist_cons'.mp hsub₂ with hrest | ⟨rfl, hrest⟩
          · exact (ihy (List.pairwise_cons.mp hys).2 _ hzs (hsub₁.append hrest)).cons _
          · cases zs₁ with
            | nil =>
              have hsub' : zs₂.Sublist (x :: xs ++ ys) :=
                hrest.trans (List.sublist_append_right _ _)
              exact (ihy (List.pairwise_cons.mp hys).2 _ (List.pairwise_cons.mp hzs).2
                hsub').cons_cons _
            | cons w zs₁ =>
              exact absurd (hzs₁₂ w List.mem_cons_self z List.mem_cons_self)
                (hnot w (hsub₁.subset List.mem_cons_self))

/-- Distinct elements have one order in a list. -/
theorem not_sublist_swap {l : List α} (hnd : l.Nodup) {a b : α} (hab : [a, b].Sublist l) :
    ¬[b, a].Sublist l := by
  induction l with
  | nil => simp at hab
  | cons c l ih =>
    obtain ⟨hc, hnd⟩ := List.nodup_cons.mp hnd
    intro hba
    rcases List.cons_sublist_cons'.mp hab with h₁ | ⟨rfl, h₁⟩ <;>
      rcases List.cons_sublist_cons'.mp hba with h₂ | ⟨rfl, h₂⟩
    · exact ih hnd h₁ h₂
    · exact hc (h₁.subset (by simp))
    · exact hc (h₂.subset (by simp))
    · exact hc (h₁.subset (by simp))

/-- Of two elements one is before the other. -/
theorem sublist_or_swap {l : List α} {a b : α} (ha : a ∈ l) (hb : b ∈ l) (hne : a ≠ b) :
    [a, b].Sublist l ∨ [b, a].Sublist l := by
  obtain ⟨xs, ys, rfl⟩ := List.append_of_mem ha
  rcases List.mem_append.mp hb with hb | hb
  · exact Or.inr ((List.singleton_sublist.mpr hb).append (List.singleton_sublist.mpr (by simp)))
  · have hb : b ∈ ys := (List.mem_cons.mp hb).resolve_left hne.symm
    refine Or.inl (List.Sublist.trans ?_ (List.sublist_append_right _ _))
    exact (List.singleton_sublist.mpr hb).cons_cons a

/-- Of a list in order, elements that are equal in the order stand as they stood before. -/
theorem Rearranges.pairwise {l l' : List α} (h : Rearranges le l l') (hnd : l.Nodup)
    (hsorted : l'.Pairwise fun a b => le a b) :
    l'.Pairwise fun a b => le a b ∧ (le b a → [a, b].Sublist l) := by
  have hnd' : l'.Nodup := h.perm.nodup_iff.mpr hnd
  rw [List.pairwise_iff_forall_sublist] at hsorted ⊢
  intro a b hab
  refine ⟨hsorted hab, fun hba => ?_⟩
  have hmem : ∀ x ∈ [a, b], x ∈ l := fun x hx => h.perm.subset (hab.subset hx)
  have hne : a ≠ b := by
    rintro rfl
    exact not_sublist_swap hnd' hab hab
  refine (sublist_or_swap (hmem a (by simp)) (hmem b (by simp)) hne).resolve_right fun hswap => ?_
  exact not_sublist_swap hnd' hab (h.stable _ (List.pairwise_pair.mpr hba) hswap)

/-- **Distinct elements have one rearrangement in order**, which `List.mergeSort` computes. -/
theorem Rearranges.eq_mergeSort (htrans : ∀ a b c, le a b → le b c → le a c)
    (htotal : ∀ a b, le a b || le b a) {l l' : List α} (h : Rearranges le l l') (hnd : l.Nodup)
    (hsorted : l'.Pairwise fun a b => le a b) : l' = l.mergeSort le := by
  have hmerge : Rearranges le l (l.mergeSort le) :=
    ⟨List.mergeSort_perm l le, fun _ => List.sublist_mergeSort htrans htotal⟩
  have hsorted' := List.pairwise_mergeSort htrans htotal l
  refine (h.perm.trans hmerge.perm.symm).eq_of_pairwise (fun a b _ _ hab hba => ?_)
    (h.pairwise hnd hsorted) (hmerge.pairwise hnd hsorted')
  exact absurd (hba.2 hab.1) (not_sublist_swap hnd (hab.2 hba.1))

/-! ### Passes -/

/-- The runs are merged in pairs; the last one of an odd number of runs stays as it is. -/
def mergePairs (le : α → α → Bool) : List (List α) → List (List α)
  | r :: s :: rs => r.merge s le :: mergePairs le rs
  | [r] => [r]
  | [] => []

/-- One pass over a list. -/
def sortPass (le : α → α → Bool) (l : List α) : List α :=
  (mergePairs le (l.splitBy le)).flatten

/-- The number of runs that a pass puts out. -/
def passRuns (le : α → α → Bool) (l : List α) : ℕ :=
  (mergePairs le (l.splitBy le)).length

theorem length_mergePairs (rs : List (List α)) :
    (mergePairs le rs).length = (rs.length + 1) / 2 := by
  induction rs using mergePairs.induct with
  | case1 r s rs ih =>
    simp only [mergePairs, List.length_cons, ih]
    omega
  | case2 r => simp [mergePairs]
  | case3 => simp [mergePairs]

section

variable (htrans : ∀ a b c, le a b → le b c → le a c)
include htrans

/-- Merging runs in pairs rearranges the list that they make up. -/
theorem rearranges_mergePairs {rs : List (List α)}
    (hrs : ∀ r ∈ rs, r.Pairwise fun a b => le a b) :
    Rearranges le rs.flatten (mergePairs le rs).flatten := by
  induction rs using mergePairs.induct with
  | case1 r s rs ih =>
    have hmerge := Rearranges.merge htrans (hrs r (by simp)) (hrs s (by simp))
    have hrest := ih fun r hr => hrs r (by simp [hr])
    simpa [mergePairs] using hmerge.append hrest
  | case2 r => exact .refl _
  | case3 => exact .refl _

/-- The runs of a list are in order. -/
theorem pairwise_of_mem_splitBy {l r : List α} (hr : r ∈ l.splitBy le) :
    r.Pairwise fun a b => le a b := by
  have : Trans (fun a b => le a b = true) (fun a b => le a b = true)
      (fun a b => le a b = true) := ⟨fun {a b c} => htrans a b c⟩
  exact List.isChain_iff_pairwise.mp (List.isChain_of_mem_splitBy hr)

/-- **A pass rearranges the list.** -/
theorem rearranges_sortPass (l : List α) : Rearranges le l (sortPass le l) := by
  have h := rearranges_mergePairs htrans fun r hr => pairwise_of_mem_splitBy htrans (l := l) hr
  rwa [List.flatten_splitBy] at h

variable (htotal : ∀ a b, le a b || le b a)
include htotal

/-- What a pass puts out is in order. -/
theorem pairwise_of_mem_mergePairs {rs : List (List α)}
    (hrs : ∀ r ∈ rs, r.Pairwise fun a b => le a b) :
    ∀ r ∈ mergePairs le rs, r.Pairwise fun a b => le a b := by
  induction rs using mergePairs.induct with
  | case1 r s rs ih =>
    simp only [mergePairs, List.mem_cons]
    rintro _ (rfl | hr)
    · exact List.pairwise_merge htrans htotal r s (hrs r (by simp)) (hrs s (by simp))
    · exact ih (fun r hr => hrs r (by simp [hr])) _ hr
  | case2 r => simpa [mergePairs] using hrs
  | case3 => simp [mergePairs]

/-- **A pass that puts out at most one run has sorted the list.** -/
theorem sortPass_pairwise {l : List α} (h : passRuns le l ≤ 1) :
    (sortPass le l).Pairwise fun a b => le a b := by
  have hruns := pairwise_of_mem_mergePairs htrans htotal fun r hr =>
    pairwise_of_mem_splitBy htrans (l := l) hr
  rw [sortPass]
  rw [passRuns] at h
  rcases List.length_eq_zero_iff.or List.length_eq_one_iff |>.mp
    (Nat.le_one_iff_eq_zero_or_eq_one.mp h) with hnil | ⟨r, hr⟩
  · simp [hnil]
  · simpa [hr] using hruns

end

/-! ### Counting runs -/

/-- Behind the first run of a list the runs go on. -/
theorem splitBy_flatten_cons {r : List α} {rs : List (List α)}
    (h : (r :: rs).flatten.splitBy le = r :: rs) :
    rs.flatten.splitBy le = rs ∧ r ≠ [] ∧ r.IsChain (fun a b => le a b) ∧
      ∀ a ∈ r.getLast?, ∀ b ∈ rs.flatten.head?, le a b = false := by
  obtain ⟨-, hnil, hchain, hends⟩ := List.splitBy_eq_iff.mp h
  simp only [List.mem_cons, not_or] at hnil
  have hr : r ≠ [] := fun h => hnil.1 h.symm
  refine ⟨List.splitBy_eq_iff.mpr ⟨rfl, hnil.2, fun t ht => hchain t (by simp [ht]),
    hends.tail⟩, hr, hchain r (by simp), fun a ha b hb => ?_⟩
  cases rs with
  | nil => simp at hb
  | cons s rs =>
    obtain ⟨⟨hr', hs, hle⟩, -⟩ := List.isChain_cons_cons.mp hends
    rw [List.flatten_cons, List.head?_append_of_ne_nil _ hs, List.head?_eq_some_head hs,
      Option.mem_some_iff] at hb
    rw [List.getLast?_eq_some_getLast hr', Option.mem_some_iff] at ha
    rwa [← ha, ← hb]

/-- A list in order before another one adds at most one run. -/
theorem length_splitBy_append_le {r m : List α} (hr : r.IsChain fun a b => le a b) :
    ((r ++ m).splitBy le).length ≤ (m.splitBy le).length + 1 := by
  rcases eq_or_ne r [] with rfl | hne
  · simp
  obtain ⟨hm, hnil, hchain, hends⟩ := List.splitBy_eq_iff.mp (rfl : m.splitBy le = m.splitBy le)
  cases hsplit : m.splitBy le with
  | nil =>
    rw [List.splitBy_eq_nil.mp hsplit, List.append_nil, List.splitBy_of_isChain hne hr]
    simp
  | cons s rs =>
    rw [hsplit] at hm hnil hchain hends
    simp only [List.mem_cons, not_or] at hnil
    have hs : s ≠ [] := fun h => hnil.1 h.symm
    have hmhead : m.head? = some (s.head hs) := by
      rw [hm, List.flatten_cons, List.head?_append_of_ne_nil _ hs, List.head?_eq_some_head]
    by_cases hle : le (r.getLast hne) (s.head hs) = true
    · -- the first run grows
      have hgrow : (r ++ m).splitBy le = (r ++ s) :: rs := by
        rw [List.splitBy_eq_iff]
        refine ⟨by simp [hm], by simp [hne, hnil.2], ?_, ?_⟩
        · rintro t ht
          rcases List.mem_cons.mp ht with rfl | ht
          · refine List.isChain_append.mpr ⟨hr, hchain s (by simp), fun x hx y hy => ?_⟩
            rw [List.getLast?_eq_some_getLast hne, Option.mem_some_iff] at hx
            rw [List.head?_eq_some_head hs, Option.mem_some_iff] at hy
            rw [← hx, ← hy]
            exact hle
          · exact hchain t (by simp [ht])
        · cases rs with
          | nil => exact List.isChain_singleton _
          | cons t rs =>
            obtain ⟨⟨hs', ht, hst⟩, hrest⟩ := List.isChain_cons_cons.mp hends
            refine List.isChain_cons_cons.mpr ⟨⟨by simp [hne], ht, ?_⟩, hrest⟩
            rwa [List.getLast_append_of_ne_nil _ hs']
      rw [hgrow]
      simp
    · have happ : (r ++ m).splitBy le = r.splitBy le ++ m.splitBy le := by
        refine List.splitBy_append fun x hx y hy => ?_
        rw [List.getLast?_eq_some_getLast hne, Option.mem_some_iff] at hx
        rw [hmhead, Option.mem_some_iff] at hy
        rw [← hx, ← hy]
        simpa using hle
      rw [happ, List.splitBy_of_isChain hne hr, hsplit]
      simp

/-- Lists in order, one after the other, have at most as many runs as there are lists. -/
theorem length_splitBy_flatten_le (rs : List (List α))
    (hrs : ∀ r ∈ rs, r.IsChain fun a b => le a b) :
    (rs.flatten.splitBy le).length ≤ rs.length := by
  induction rs with
  | nil => simp
  | cons r rs ih =>
    have hle := length_splitBy_append_le (m := rs.flatten) (hrs r (by simp))
    have := ih fun r hr => hrs r (by simp [hr])
    simp only [List.flatten_cons, List.length_cons]
    omega

variable (le) in
/-- A list has at most as many runs as elements. -/
theorem length_splitBy_le (l : List α) : (l.splitBy le).length ≤ l.length := by
  have hruns := length_splitBy_flatten_le (l.map fun a => [a]) fun r hr =>
    show r.IsChain fun a b => le a b by
      obtain ⟨a, -, rfl⟩ := List.mem_map.mp hr
      exact List.isChain_singleton a
  rwa [List.length_map, ← List.flatMap_def, List.flatMap_singleton'] at hruns

theorem passRuns_le_length (l : List α) : passRuns le l ≤ l.length := by
  have hruns := length_splitBy_le le l
  rw [passRuns, length_mergePairs]
  omega

/-- **The next pass puts out fewer runs**, unless there is at most one. -/
theorem passRuns_sortPass_lt (htrans : ∀ a b c, le a b → le b c → le a c)
    (htotal : ∀ a b, le a b || le b a) {l : List α} (h : 1 < passRuns le l) :
    passRuns le (sortPass le l) < passRuns le l := by
  have hle : ((sortPass le l).splitBy le).length ≤ passRuns le l :=
    length_splitBy_flatten_le _ fun r hr => (pairwise_of_mem_mergePairs htrans htotal
      (fun r hr => pairwise_of_mem_splitBy htrans (l := l) hr) r hr).isChain
  rw [passRuns, length_mergePairs]
  omega

end AnglOS
