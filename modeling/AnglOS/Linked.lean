import Mathlib.Data.List.Chain
import Mathlib.Data.List.Nodup

/-!
# Doubly Linked Lists

A doubly linked list over arbitrary nodes, given by its two link functions. `Linked nxt prv l`
says that consecutive nodes of `l` point at each other; sentinels, if there are any, are the
first and the last node of `l`. The rules say what unlinking a node and linking one in
before the last node do, in terms of new link functions that are only known on the nodes
of the list. Ranges of nodes are unlinked and linked in the same way.
-/

namespace AnglOS

variable {α : Type*} {nxt prv nxt' prv' : α → α}

/-- Consecutive nodes point at each other. -/
def Linked (nxt prv : α → α) (l : List α) : Prop :=
  l.IsChain fun x y => nxt x = y ∧ prv y = x

/-- The links of three consecutive nodes. -/
theorem Linked.links {xs ys : List α} {a e b : α} (h : Linked nxt prv (xs ++ a :: e :: b :: ys)) :
    nxt a = e ∧ prv e = a ∧ nxt e = b ∧ prv b = e := by
  obtain ⟨-, ⟨h1, h2⟩, h3⟩ := List.isChain_append_cons_cons.mp h
  obtain ⟨⟨h4, h5⟩, -⟩ := List.isChain_cons_cons.mp h3
  exact ⟨h1, h2, h4, h5⟩

/-- The links of the last two nodes. -/
theorem Linked.links_last {xs : List α} {a t : α} (h : Linked nxt prv (xs ++ [a, t])) :
    nxt a = t ∧ prv t = a := by
  obtain ⟨-, h1, -⟩ := List.isChain_append_cons_cons.mp h
  exact h1

/-- A linked list stays linked when the forward links of all nodes but the last and the
backward links of all nodes but the first stay. -/
theorem Linked.congr {l : List α} (h : Linked nxt prv l)
    (hn : ∀ x ∈ l.dropLast, nxt' x = nxt x) (hp : ∀ y ∈ l.tail, prv' y = prv y) :
    Linked nxt' prv' l := by
  rw [Linked, List.isChain_iff_forall_rel_of_append_cons_cons] at *
  intro a b l₁ l₂ hl
  obtain ⟨h1, h2⟩ := h hl
  have ha : a ∈ l.dropLast := by
    rw [hl, List.dropLast_append_of_ne_nil (by simp)]
    simp
  have hb : b ∈ l.tail := by
    rw [hl]
    cases l₁ <;> simp
  exact ⟨(hn a ha).trans h1, (hp b hb).trans h2⟩

/-- **Unlinking a node**: its neighbours are made to point at each other, and no other link
changes. -/
theorem Linked.remove {xs ys : List α} {a e b : α}
    (h : Linked nxt prv (xs ++ a :: e :: b :: ys)) (hnd : (xs ++ a :: e :: b :: ys).Nodup)
    (hna : nxt' a = b) (hpb : prv' b = a)
    (hn : ∀ x ∈ xs ++ a :: e :: b :: ys, x ≠ a → nxt' x = nxt x)
    (hp : ∀ y ∈ xs ++ a :: e :: b :: ys, y ≠ b → prv' y = prv y) :
    Linked nxt' prv' (xs ++ a :: b :: ys) := by
  have hleft : Linked nxt prv (xs ++ [a]) := (List.isChain_append_cons_cons.mp h).1
  have hright : Linked nxt prv (b :: ys) :=
    (List.isChain_cons_cons.mp (List.isChain_append_cons_cons.mp h).2.2).2
  simp only [List.nodup_append, List.nodup_cons, List.mem_cons, not_or] at hnd
  obtain ⟨-, ⟨⟨-, hab, hay⟩, -, hby, -⟩, hx⟩ := hnd
  refine List.isChain_append_cons_cons.mpr ⟨hleft.congr ?_ ?_, ⟨hna, hpb⟩, hright.congr ?_ ?_⟩
  · intro x hxs
    rw [List.dropLast_concat] at hxs
    exact hn x (by simp [hxs]) (hx x hxs a (Or.inl rfl))
  · intro y hy
    rcases List.mem_append.mp (List.mem_of_mem_tail hy) with hy | hy
    · exact hp y (by simp [hy]) (hx y hy b (by simp))
    · rw [List.mem_singleton] at hy
      exact hp y (by simp [hy]) (by rwa [hy])
  · intro x hxs
    have hxs := List.dropLast_subset _ hxs
    refine hn x (by simp [List.mem_cons.mp hxs]) ?_
    rintro rfl
    rcases List.mem_cons.mp hxs with hxs | hxs
    · exact hab hxs
    · exact hay hxs
  · intro y hy
    rw [List.tail_cons] at hy
    refine hp y (by simp [hy]) ?_
    rintro rfl
    exact hby hy

/-- **Linking a node in** before the last node. -/
theorem Linked.insert_last {xs : List α} {a t e : α} (h : Linked nxt prv (xs ++ [a, t]))
    (hnd : (xs ++ [a, t]).Nodup) (hna : nxt' a = e) (hne : nxt' e = t) (hpt : prv' t = e)
    (hpe : prv' e = a) (hn : ∀ x ∈ xs ++ [a, t], x ≠ a → x ≠ t → nxt' x = nxt x)
    (hp : ∀ y ∈ xs ++ [a, t], y ≠ t → prv' y = prv y) : Linked nxt' prv' (xs ++ [a, e, t]) := by
  have hleft : Linked nxt prv (xs ++ [a]) := (List.isChain_append_cons_cons.mp h).1
  simp only [List.nodup_append, List.nodup_cons, List.mem_cons, List.not_mem_nil, or_false] at hnd
  obtain ⟨-, ⟨hat, -⟩, hx⟩ := hnd
  refine List.isChain_append_cons_cons.mpr ⟨hleft.congr ?_ ?_, ⟨hna, hpe⟩,
    List.isChain_pair.mpr ⟨hne, hpt⟩⟩
  · intro x hxs
    rw [List.dropLast_concat] at hxs
    exact hn x (by simp [hxs]) (hx x hxs a (Or.inl rfl)) (hx x hxs t (Or.inr rfl))
  · intro y hy
    rcases List.mem_append.mp (List.mem_of_mem_tail hy) with hy | hy
    · exact hp y (by simp [hy]) (hx y hy t (Or.inr rfl))
    · rw [List.mem_singleton] at hy
      exact hp y (by simp [hy]) (by rwa [hy])

/-- The links of two consecutive nodes. -/
theorem Linked.pair {xs ys : List α} {a b : α} (h : Linked nxt prv (xs ++ a :: b :: ys)) :
    nxt a = b ∧ prv b = a :=
  (List.isChain_append_cons_cons.mp h).2.1

/-- Read backwards, a linked list is linked. -/
theorem Linked.reverse {l : List α} (h : Linked nxt prv l) : Linked prv nxt l.reverse := by
  rw [Linked, List.isChain_reverse]
  exact List.IsChain.imp (fun _ _ => And.symm) h

/-- **Unlinking a range**: the nodes around it are made to point at each other. The range stays
linked. -/
theorem Linked.remove_range {xs rs ys : List α} {a b : α}
    (h : Linked nxt prv (xs ++ a :: (rs ++ b :: ys))) (hnd : (xs ++ a :: (rs ++ b :: ys)).Nodup)
    (hna : nxt' a = b) (hpb : prv' b = a)
    (hn : ∀ x ∈ xs ++ a :: (rs ++ b :: ys), x ≠ a → nxt' x = nxt x)
    (hp : ∀ y ∈ xs ++ a :: (rs ++ b :: ys), y ≠ b → prv' y = prv y) :
    Linked nxt' prv' (xs ++ a :: b :: ys) ∧ Linked nxt' prv' rs := by
  have hleft : Linked nxt prv (xs ++ [a]) := by
    have hchain : Linked nxt prv (xs ++ [a] ++ (rs ++ b :: ys)) := by
      rwa [List.append_assoc, List.singleton_append]
    exact List.IsChain.left_of_append hchain
  have hright : Linked nxt prv (rs ++ b :: ys) := by
    have hchain : Linked nxt prv (xs ++ [a] ++ (rs ++ b :: ys)) := by
      rwa [List.append_assoc, List.singleton_append]
    exact List.IsChain.right_of_append hchain
  have hrange : Linked nxt prv rs := List.IsChain.left_of_append hright
  have htail : Linked nxt prv (b :: ys) := List.IsChain.right_of_append hright
  simp only [List.nodup_append, List.nodup_cons, List.mem_cons, List.mem_append, not_or] at hnd
  obtain ⟨-, ⟨⟨har, hab, hay⟩, -, ⟨hby, -⟩, hrs⟩, hx⟩ := hnd
  refine ⟨List.isChain_append_cons_cons.mpr ⟨hleft.congr (fun x hxs => ?_) fun y hy => ?_,
    ⟨hna, hpb⟩, htail.congr (fun x hxs => ?_) fun y hy => ?_⟩,
    hrange.congr (fun x hxs => ?_) fun y hy => ?_⟩
  · rw [List.dropLast_concat] at hxs
    exact hn x (by simp [hxs]) (hx x hxs a (Or.inl rfl))
  · rcases List.mem_append.mp (List.mem_of_mem_tail hy) with hy | hy
    · exact hp y (by simp [hy]) (hx y hy b (by simp))
    · rw [List.mem_singleton] at hy
      exact hp y (by simp [hy]) (by rwa [hy])
  · have hxs := List.dropLast_subset _ hxs
    refine hn x (by simp [List.mem_cons.mp hxs]) ?_
    rintro rfl
    exact (List.mem_cons.mp hxs).elim hab hay
  · rw [List.tail_cons] at hy
    refine hp y (by simp [hy]) ?_
    rintro rfl
    exact hby hy
  · have hxs := List.dropLast_subset _ hxs
    refine hn x (by simp [hxs]) ?_
    rintro rfl
    exact har hxs
  · have hy := List.mem_of_mem_tail hy
    exact hp y (by simp [hy]) (hrs y hy b (Or.inl rfl))

/-- **Linking a range in** between two nodes. -/
theorem Linked.insert_range {xs rs ys : List α} {a b f g : α}
    (h : Linked nxt prv (xs ++ a :: b :: ys)) (hr : Linked nxt prv rs) (hf : rs.head? = some f)
    (hg : rs.getLast? = some g) (hnd : (xs ++ a :: (rs ++ b :: ys)).Nodup) (hna : nxt' a = f)
    (hng : nxt' g = b) (hpb : prv' b = g) (hpf : prv' f = a)
    (hn : ∀ x ∈ xs ++ a :: (rs ++ b :: ys), x ≠ a → x ≠ g → nxt' x = nxt x)
    (hp : ∀ y ∈ xs ++ a :: (rs ++ b :: ys), y ≠ b → y ≠ f → prv' y = prv y) :
    Linked nxt' prv' (xs ++ a :: (rs ++ b :: ys)) := by
  obtain ⟨fs, rfl⟩ : ∃ fs, rs = f :: fs := List.head?_eq_some_iff.mp hf
  obtain ⟨gs, hgs⟩ : ∃ gs, f :: fs = gs ++ [g] := List.getLast?_eq_some_iff.mp hg
  have hleft : Linked nxt prv (xs ++ [a]) := (List.isChain_append_cons_cons.mp h).1
  have hright : Linked nxt prv (b :: ys) := (List.isChain_append_cons_cons.mp h).2.2
  have hfmem : f ∈ f :: fs := List.mem_cons_self
  have hgmem : g ∈ f :: fs := by simp [hgs]
  have hgtail : ∀ y ∈ fs, y ≠ f := by
    simp only [List.cons_append, List.nodup_append, List.nodup_cons] at hnd
    rintro y hy rfl
    exact hnd.2.1.2.1 (List.mem_append_left _ hy)
  have hfinit : ∀ x ∈ gs, x ≠ g := by
    rw [hgs] at hnd
    simp only [List.nodup_append, List.nodup_cons] at hnd
    rintro x hx rfl
    exact hnd.2.1.2.1.2.2 x hx x (by simp) rfl
  simp only [List.nodup_append, List.nodup_cons, List.mem_append] at hnd
  obtain ⟨-, ⟨ha, -, ⟨hby, -⟩, hrb⟩, hx⟩ := hnd
  have hrange : Linked nxt' prv' (f :: fs) := by
    refine hr.congr (fun x hxs => ?_) fun y hy => ?_
    · rw [hgs, List.dropLast_concat] at hxs
      have hmem : x ∈ f :: fs := by simp [hgs, hxs]
      refine hn x (List.mem_append_right _ (List.mem_cons_of_mem _ (List.mem_append_left _ hmem)))
        ?_ (hfinit x hxs)
      rintro rfl
      exact ha (Or.inl hmem)
    · rw [List.tail_cons] at hy
      refine hp y (by simp [hy]) ?_ (hgtail y hy)
      rintro rfl
      exact hrb y (List.mem_cons_of_mem _ hy) y List.mem_cons_self rfl
  have hrest : Linked nxt' prv' (f :: fs ++ b :: ys) := by
    rw [hgs, List.append_assoc, List.singleton_append]
    refine List.isChain_append_cons_cons.mpr ⟨hgs ▸ hrange, ⟨hng, hpb⟩,
      hright.congr (fun x hxs => ?_) fun y hy => ?_⟩
    · have hxs := List.dropLast_subset _ hxs
      refine hn x (by simp [List.mem_cons.mp hxs]) ?_ ?_
      · rintro rfl
        exact ha (Or.inr hxs)
      · rintro rfl
        exact hrb x hgmem x hxs rfl
    · rw [List.tail_cons] at hy
      refine hp y (by simp [hy]) ?_ ?_
      · rintro rfl
        exact hby hy
      · rintro rfl
        exact hrb y hfmem y (List.mem_cons_of_mem _ hy) rfl
  refine List.isChain_append_cons_cons.mpr ⟨hleft.congr (fun x hxs => ?_) fun y hy => ?_,
    ⟨hna, hpf⟩, hrest⟩
  · rw [List.dropLast_concat] at hxs
    refine hn x (by simp [hxs]) (hx x hxs a List.mem_cons_self) ?_
    exact hx x hxs g (List.mem_cons_of_mem _ (List.mem_append_left _ hgmem))
  · rcases List.mem_append.mp (List.mem_of_mem_tail hy) with hy | hy
    · refine hp y (by simp [hy]) (hx y hy b (by simp)) (hx y hy f (by simp))
    · rw [List.mem_singleton] at hy
      subst hy
      refine hp y (by simp) ?_ ?_
      · rintro rfl
        exact ha (Or.inr List.mem_cons_self)
      · rintro rfl
        exact ha (Or.inl hfmem)

end AnglOS
