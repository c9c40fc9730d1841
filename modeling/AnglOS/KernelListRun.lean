import AnglOS.KernelListOrder
import AnglOS.Loop
import Mathlib.Data.Set.Card

/-!
# Runs of the List Routines

The lists that `list.c` implements, in their own terms: a number of sequences of elements, no two
of which share a node, and what each routine does to the sequences. The code does the same to the
memory, over any run of calls.

* `ListEdit` — the abstract lists: what a call does to the sequences, and what it returns.
* `listCall` — the code of a call.
* `listRun_refines` — every run of the abstract lists is one of the code.
-/

namespace AnglOS

/-- The calls of the routines of `list.c`. -/
inductive ListCall
  | init (list : ℕ)
  | insert (before elem : ℕ)
  | splice (before first last : ℕ)
  | pushFront (list elem : ℕ)
  | pushBack (list elem : ℕ)
  | remove (elem : ℕ)
  | popFront (list : ℕ)
  | popBack (list : ℕ)
  | front (list : ℕ)
  | back (list : ℕ)
  | size (list : ℕ)
  | empty (list : ℕ)
  | reverse (list : ℕ)
  | sort (list : ℕ)
  | insertOrdered (list elem : ℕ)
  | unique (list : ℕ) (duplicates : Option ℕ)
  | max (list : ℕ)
  | min (list : ℕ)
  deriving DecidableEq, Repr

/-- The code of a call: the memory that it leaves, and what it returns (0 if it returns nothing). -/
def listCall (less : Mem → ℕ → ℕ → Bool) (fuel : ℕ) (m : Mem) : ListCall → Option (Mem × ℕ)
  | .init list => some (listInit m list, 0)
  | .insert before elem => some (listInsert m before elem, 0)
  | .splice before first last => some (listSplice m before first last, 0)
  | .pushFront list elem => some (listPushFront m list elem, 0)
  | .pushBack list elem => some (listPushBack m list elem, 0)
  | .remove elem => some (listRemove m elem, listNext (listRemove m elem) elem)
  | .popFront list => some (listPopFront m list)
  | .popBack list => some (listPopBack m list)
  | .front list => some (m, listFront m list)
  | .back list => some (m, listBack m list)
  | .size list => (listSize fuel m list).map fun cnt => (m, cnt)
  | .empty list => some (m, (listEmpty m list).toNat)
  | .reverse list => (listReverse fuel m list).map fun m => (m, 0)
  | .sort list => (listSort less fuel m list).map fun m => (m, 0)
  | .insertOrdered list elem => (listInsertOrdered less fuel m list elem).map fun m => (m, 0)
  | .unique list duplicates => (listUnique less fuel m list duplicates).map fun m => (m, 0)
  | .max list => (listMax less fuel m list).map fun e => (m, e)
  | .min list => (listMin less fuel m list).map fun e => (m, e)

/-- The comparison orders the elements, though it need not tell any two apart. -/
structure WeakOrder (less : Mem → ℕ → ℕ → Bool) (m₀ : Mem) : Prop where
  trans : ∀ a b c, notAbove less m₀ a b → notAbove less m₀ b c → notAbove less m₀ a c
  total : ∀ a b, notAbove less m₀ a b || notAbove less m₀ b a

section

variable (N : Set ℕ) (less : Mem → ℕ → ℕ → Bool) (m₀ : Mem)

/-- **The abstract lists**: a call, the sequences before and after it, and what it returns. A call
that is not listed has no defined effect, such as one that takes an element off an empty list. -/
inductive ListEdit : ListCall → ListState → ListState → ℕ → Prop
  | init {S : ListState} {L : ℕ} (hL : L ∈ N) (hT : listEnd L ∈ N)
      (hfree : ∀ p ∈ listNodes L [], ∀ L' l', L' ≠ L → S L' = some l' → p ∉ listNodes L' l') :
      ListEdit (.init L) S (Function.update S L (some [])) 0
  | insert {S : ListState} {L e : ℕ} {xs ys : List ℕ} (hL : S L = some (xs ++ ys)) (he : e ∈ N)
      (hfree : S.Free e) :
      ListEdit (.insert (ys.headD (listEnd L)) e) S
        (Function.update S L (some (xs ++ e :: ys))) 0
  | spliceNone {S : ListState} {before first : ℕ} : ListEdit (.splice before first first) S S 0
  | splice {S : ListState} {L D first : ℕ} {xs rs ys us vs : List ℕ}
      (hL : S L = some (xs ++ rs ++ ys)) (hf : rs.head? = some first)
      (hD : Function.update S L (some (xs ++ ys)) D = some (us ++ vs)) :
      ListEdit (.splice (vs.headD (listEnd D)) first (ys.headD (listEnd L))) S
        (Function.update (Function.update S L (some (xs ++ ys))) D (some (us ++ rs ++ vs))) 0
  | pushFront {S : ListState} {L e : ℕ} {l : List ℕ} (hL : S L = some l) (he : e ∈ N)
      (hfree : S.Free e) :
      ListEdit (.pushFront L e) S (Function.update S L (some (e :: l))) 0
  | pushBack {S : ListState} {L e : ℕ} {l : List ℕ} (hL : S L = some l) (he : e ∈ N)
      (hfree : S.Free e) :
      ListEdit (.pushBack L e) S (Function.update S L (some (l ++ [e]))) 0
  | remove {S : ListState} {L e : ℕ} {xs ys : List ℕ} (hL : S L = some (xs ++ e :: ys)) :
      ListEdit (.remove e) S (Function.update S L (some (xs ++ ys))) (ys.headD (listEnd L))
  | popFront {S : ListState} {L e : ℕ} {l : List ℕ} (hL : S L = some (e :: l)) :
      ListEdit (.popFront L) S (Function.update S L (some l)) e
  | popBack {S : ListState} {L e : ℕ} {l : List ℕ} (hL : S L = some (l ++ [e])) :
      ListEdit (.popBack L) S (Function.update S L (some l)) e
  | front {S : ListState} {L e : ℕ} {l : List ℕ} (hL : S L = some (e :: l)) :
      ListEdit (.front L) S S e
  | back {S : ListState} {L e : ℕ} {l : List ℕ} (hL : S L = some (l ++ [e])) :
      ListEdit (.back L) S S e
  | size {S : ListState} {L : ℕ} {l : List ℕ} (hL : S L = some l) :
      ListEdit (.size L) S S l.length
  | empty {S : ListState} {L : ℕ} {l : List ℕ} (hL : S L = some l) :
      ListEdit (.empty L) S S l.isEmpty.toNat
  | reverse {S : ListState} {L : ℕ} {l : List ℕ} (hL : S L = some l) :
      ListEdit (.reverse L) S (Function.update S L (some l.reverse)) 0
  | sort {S : ListState} {L : ℕ} {l : List ℕ} (hord : WeakOrder less m₀) (hL : S L = some l) :
      ListEdit (.sort L) S (Function.update S L (some (l.mergeSort (notAbove less m₀)))) 0
  | insertOrdered {S : ListState} {L e : ℕ} {l : List ℕ} (hL : S L = some l) (he : e ∈ N)
      (hfree : S.Free e) :
      ListEdit (.insertOrdered L e) S
        (Function.update S L (some (l.orderedInsert (fun a b => less m₀ a b) e))) 0
  | unique {S : ListState} {L : ℕ} {duplicates : Option ℕ} {l : List ℕ} (hL : S L = some l)
      (hdup : ∀ D ∈ duplicates, D ≠ L ∧ (S D).isSome) :
      ListEdit (.unique L duplicates) S (S.remove L duplicates (l.destutter (Differ less m₀))
        (stutter (Differ less m₀) l)) 0
  | max {S : ListState} {L e : ℕ} {xs ys : List ℕ} (hord : WeakOrder less m₀)
      (hL : S L = some (xs ++ e :: ys)) (hbefore : ∀ a ∈ xs, less m₀ a e)
      (hbehind : ∀ a ∈ ys, notAbove less m₀ a e) : ListEdit (.max L) S S e
  | maxNone {S : ListState} {L : ℕ} (hL : S L = some []) : ListEdit (.max L) S S (listEnd L)
  | min {S : ListState} {L e : ℕ} {xs ys : List ℕ} (hord : WeakOrder less m₀)
      (hL : S L = some (xs ++ e :: ys)) (hbefore : ∀ a ∈ xs, less m₀ e a)
      (hbehind : ∀ a ∈ ys, notAbove less m₀ e a) : ListEdit (.min L) S S e
  | minNone {S : ListState} {L : ℕ} (hL : S L = some []) : ListEdit (.min L) S S (listEnd L)

end

section

variable {N : Set ℕ} {m₀ m : Mem} {S S' : ListState} {less : Mem → ℕ → ℕ → Bool}

/-- There are finitely many nodes, since they are addresses. -/
theorem NodeSet.finite (hN : NodeSet N) : N.Finite :=
  (Set.finite_lt_nat (2 ^ 64)).subset fun p hp => hN.lt p hp

/-- A list has at most as many elements as there are nodes. -/
theorem Lists.length_le (hN : NodeSet N) (h : Lists N m₀ m S) {L : ℕ} {l : List ℕ}
    (hL : S L = some l) : l.length ≤ N.ncard := by
  have hnd := h.shape.nodup_elems hL
  have hsub : (↑l.toFinset : Set ℕ) ⊆ N := by
    intro p hp
    exact h.shape.mem_elems hL (by simpa using hp)
  have hcard := Set.ncard_le_ncard hsub hN.finite
  rwa [Set.ncard_coe_finset, List.toFinset_card_of_nodup hnd] at hcard

/-- A list has at most one first element that beats all the others. -/
theorem first_best_unique (better : ℕ → ℕ → Bool) {xs ys xs' ys' : List ℕ} {a b : ℕ}
    (heq : xs ++ a :: ys = xs' ++ b :: ys') (hxs : ∀ c ∈ xs, better c a)
    (hys : ∀ c ∈ ys, !better a c) (hxs' : ∀ c ∈ xs', better c b) (hys' : ∀ c ∈ ys', !better b c) :
    a = b := by
  rcases List.append_eq_append_iff.mp heq with ⟨zs, hx, hy⟩ | ⟨zs, hx, hy⟩
  · cases zs with
    | nil => simpa using (List.cons.inj hy).1
    | cons c zs =>
      obtain ⟨rfl, rfl⟩ := List.cons.inj hy
      have hab := hxs' a (by simp [hx])
      have hnot := hys b (by simp)
      simp [hab] at hnot
  · cases zs with
    | nil => simpa using (List.cons.inj hy).1.symm
    | cons c zs =>
      obtain ⟨rfl, rfl⟩ := List.cons.inj hy
      have hba := hxs b (by simp [hx])
      have hnot := hys' a (by simp)
      simp [hba] at hnot

/-- An element keeps its link to the next one when it is removed. -/
theorem Lists.next_remove (hN : NodeSet N) (h : Lists N m₀ m S) {L e : ℕ} {xs ys : List ℕ}
    (hL : S L = some (xs ++ e :: ys)) :
    listNext (listRemove m e) e = ys.headD (listEnd L) := by
  obtain ⟨X, Y, -, -, hnodes, -⟩ := exists_nodes_range L xs [e] ys
  have hmem := h.shape.mem L _ hL
  rw [show xs ++ e :: ys = xs ++ [e] ++ ys by simp, hnodes] at hmem
  have hprev : listPrev m e ∈ N := h.prev_elem hL ▸ hmem _ (by simp)
  have hnext : listNext m e ∈ N := h.next_elem hL ▸ hmem _ (by simp)
  have he : e ∈ N := hmem e (by simp)
  have hsame : listNext (setNext m (listPrev m e) (listNext m e)) e = listNext m e := by
    rw [hN.next_setNext hprev he (hN.lt _ hnext)]
    split_ifs <;> rfl
  rw [listRemove_eq, unlinkRange]
  simp only [hsame]
  rw [hN.next_setPrev hnext he, hsame, h.next_elem hL]

/-- **A call of the code does what it does to the abstract lists**, and returns the same. -/
theorem listCall_refines (hN : NodeSet N) (hless : ReadsElsewhere N m₀ less) {fuel : ℕ}
    (hfuel : N.ncard < fuel) {c : ListCall} {r : ℕ} (hedit : ListEdit N less m₀ c S S' r)
    (h : Lists N m₀ m S) :
    ∃ m', listCall less fuel m c = some (m', r) ∧ Lists N m₀ m' S' := by
  have hlt : ∀ {L l}, S L = some l → l.length < fuel := fun hL =>
    Nat.lt_of_le_of_lt (h.length_le hN hL) hfuel
  cases hedit with
  | init hL hT hfree => exact ⟨_, rfl, h.init hN hL hT hfree⟩
  | insert hL he hfree => exact ⟨_, rfl, h.insert hN hL he hfree⟩
  | spliceNone => exact ⟨m, by simp [listCall, listSplice], h⟩
  | splice hL hf hD => exact ⟨_, rfl, h.splice hN hL hf hD⟩
  | pushFront hL he hfree => exact ⟨_, rfl, h.pushFront hN hL he hfree⟩
  | pushBack hL he hfree => exact ⟨_, rfl, h.pushBack hN hL he hfree⟩
  | remove hL => exact ⟨_, by rw [listCall, h.next_remove hN hL], h.remove hN hL⟩
  | @popFront _ L _ l hL =>
    refine ⟨_, by rw [listCall, listPopFront, h.front hL], ?_⟩
    exact h.remove hN (show S L = some ([] ++ r :: l) from hL)
  | @popBack _ L _ l hL =>
    refine ⟨_, by rw [listCall, listPopBack, h.back hL], ?_⟩
    simpa using h.remove hN (show S L = some (l ++ r :: []) from hL)
  | front hL => exact ⟨m, by rw [listCall, h.front hL], h⟩
  | back hL => exact ⟨m, by rw [listCall, h.back hL], h⟩
  | size hL => exact ⟨m, by rw [listCall, h.size hL (hlt hL), Option.map_some], h⟩
  | empty hL => exact ⟨m, by rw [listCall, h.empty hL], h⟩
  | reverse hL =>
    obtain ⟨m', hrun, h'⟩ := h.reverse hN hL (hlt hL)
    exact ⟨m', by rw [listCall, hrun, Option.map_some], h'⟩
  | sort hord hL =>
    obtain ⟨m', hrun, h'⟩ := h.sort hless hord.trans hord.total hN hL (hlt hL)
    exact ⟨m', by rw [listCall, hrun, Option.map_some], h'⟩
  | insertOrdered hL he hfree =>
    obtain ⟨m', hrun, h'⟩ := h.insertOrdered hless hN hL he hfree (hlt hL)
    exact ⟨m', by rw [listCall, hrun, Option.map_some], h'⟩
  | unique hL hdup =>
    obtain ⟨m', hrun, h'⟩ := h.unique hless hN hL hdup (hlt hL)
    exact ⟨m', by rw [listCall, hrun, Option.map_some], h'⟩
  | @max _ L _ xs ys hord hL hbefore hbehind =>
    obtain ⟨x, l, hl⟩ := List.exists_cons_of_ne_nil (List.append_ne_nil_of_right_ne_nil xs
      (List.cons_ne_nil r ys))
    obtain ⟨xs', e', ys', heq, hrun, hbefore', hbehind'⟩ := h.max hless hord.trans hord.total
      (hl ▸ hL) (Nat.lt_of_succ_lt (hl ▸ hlt hL))
    obtain rfl := first_best_unique (less m₀) (hl.trans heq) hbefore hbehind hbefore'
      hbehind'
    exact ⟨m, by rw [listCall, hrun, Option.map_some], h⟩
  | maxNone hL =>
    exact ⟨m, by simp [listCall, listMax, listBest, h.begin hL], h⟩
  | @min _ L _ xs ys hord hL hbefore hbehind =>
    obtain ⟨x, l, hl⟩ := List.exists_cons_of_ne_nil (List.append_ne_nil_of_right_ne_nil xs
      (List.cons_ne_nil r ys))
    obtain ⟨xs', e', ys', heq, hrun, hbefore', hbehind'⟩ := h.min hless hord.trans hord.total
      (hl ▸ hL) (Nat.lt_of_succ_lt (hl ▸ hlt hL))
    obtain rfl := first_best_unique (fun a b => less m₀ b a) (hl.trans heq) hbefore
      hbehind hbefore' hbehind'
    exact ⟨m, by rw [listCall, hrun, Option.map_some], h⟩
  | minNone hL =>
    exact ⟨m, by simp [listCall, listMin, listBest, h.begin hL], h⟩

/-- **Runs of the list routines**: from memory that has the lists `S`, the code makes every run of
calls that the abstract lists make, each call returns what it returns there, and the memory has
the lists at the end. The loops take at most as many rounds as there are nodes. -/
theorem listRun_refines (hN : NodeSet N) (hless : ReadsElsewhere N m₀ less) {fuel : ℕ}
    (hfuel : N.ncard < fuel) {cs : List (ListCall × ℕ)}
    (hrun : Run (fun c S S' => ListEdit N less m₀ c.1 S S' c.2) S cs S') (h : Lists N m₀ m S) :
    ∃ m', Run (fun c m m' => listCall less fuel m c.1 = some (m', c.2)) m cs m' ∧
      Lists N m₀ m' S' := by
  have hstep : ∀ (c : ListCall × ℕ) (S S' : ListState) (m : Mem), Lists N m₀ m S →
      ListEdit N less m₀ c.1 S S' c.2 →
      ∃ m', listCall less fuel m c.1 = some (m', c.2) ∧ Lists N m₀ m' S' :=
    fun _ _ _ _ h hedit => listCall_refines hN hless hfuel hedit h
  exact hrun.simulate hstep h

/-- Three elements and the sentinels of a list. -/
def smallNodes : Set ℕ := ((({16, 32, 64, 96, 128} : Finset ℕ)) : Set ℕ)

theorem smallNodes_nodeSet : NodeSet smallNodes := by
  refine ⟨fun p hp => ?_, fun p hp q hq hne => ?_⟩
  · have hp : p ∈ ({16, 32, 64, 96, 128} : Finset ℕ) := hp
    fin_cases hp <;> norm_num
  · have hp : p ∈ ({16, 32, 64, 96, 128} : Finset ℕ) := hp
    have hq : q ∈ ({16, 32, 64, 96, 128} : Finset ℕ) := hq
    rw [NodesApart]
    fin_cases hp <;> fin_cases hq <;> simp_all

/-- No lists, in memory that is all zero. -/
theorem lists_none : Lists smallNodes (fun _ => 0) (fun _ => 0) fun _ => none :=
  ⟨⟨by simp, by simp, by simp⟩, by simp, by simp, fun _ _ => rfl⟩

/-- Higher addresses come first. -/
def higher (_ : Mem) (a b : ℕ) : Bool :=
  b < a

theorem higher_weakOrder : WeakOrder higher fun _ => 0 := by
  refine ⟨fun a b c hab hbc => ?_, fun a b => ?_⟩
  · simp only [notAbove, higher, Bool.not_eq_true', decide_eq_false_iff_not, not_lt] at *
    omega
  · simp only [notAbove, higher, Bool.or_eq_true, Bool.not_eq_true', decide_eq_false_iff_not,
      not_lt]
    omega

/-- One list, at address 16. -/
def oneList (l : List ℕ) : ListState := Function.update (fun _ => none) 16 (some l)

theorem oneList_self (l : List ℕ) : oneList l 16 = some l :=
  Function.update_self ..

theorem oneList_update (l l' : List ℕ) :
    Function.update (oneList l) 16 (some l') = oneList l' :=
  Function.update_idem ..

theorem oneList_free {l : List ℕ} {e : ℕ} (he : e ∉ listNodes 16 l) : (oneList l).Free e := by
  intro L' l' hL'
  rcases eq_or_ne L' 16 with rfl | hne
  · rw [oneList_self] at hL'
    exact Option.some.inj hL' ▸ he
  · simp [oneList, Function.update_of_ne hne] at hL'

theorem mergeSort_higher : ([128, 64, 96] : List ℕ).mergeSort (notAbove higher fun _ => 0) =
    [128, 96, 64] := by
  simp [List.mergeSort, List.MergeSort.Internal.splitInTwo, notAbove, higher]

theorem listRun_refines_sorted :
    ∃ m', Run (fun c m m' => listCall higher 6 m c.1 = some (m', c.2)) (fun _ => 0)
      [(.init 16, 0), (.pushBack 16 64, 0), (.pushBack 16 96, 0), (.insertOrdered 16 128, 0),
        (.sort 16, 0), (.popFront 16, 128)] m' ∧
      Lists smallNodes (fun _ => 0) m' (oneList [96, 64]) := by
  have hmem : ∀ p ∈ ({16, 32, 64, 96, 128} : Finset ℕ), p ∈ smallNodes := fun p hp => hp
  have hfuel : smallNodes.ncard < 6 := by
    rw [smallNodes, Set.ncard_coe_finset]
    decide
  have h₁ : ListEdit smallNodes higher (fun _ => 0) (.init 16) (fun _ => none) (oneList []) 0 :=
    .init (hmem _ (by decide)) (hmem _ (by decide)) (by simp)
  have h₂ : ListEdit smallNodes higher (fun _ => 0) _ _ _ _ :=
    .pushBack (oneList_self []) (hmem 64 (by decide)) (oneList_free (by decide))
  have h₃ : ListEdit smallNodes higher (fun _ => 0) _ _ _ _ :=
    .pushBack (oneList_self [64]) (hmem 96 (by decide)) (oneList_free (by decide))
  have h₄ : ListEdit smallNodes higher (fun _ => 0) _ _ _ _ :=
    .insertOrdered (oneList_self [64, 96]) (hmem 128 (by decide)) (oneList_free (by decide))
  have h₅ : ListEdit smallNodes higher (fun _ => 0) _ _ _ _ :=
    .sort higher_weakOrder (oneList_self [128, 64, 96])
  have h₆ : ListEdit smallNodes higher (fun _ => 0) _ _ _ _ :=
    .popFront (oneList_self [128, 96, 64])
  simp only [oneList_update, List.nil_append, List.singleton_append, mergeSort_higher] at *
  have hinsert : ([64, 96] : List ℕ).orderedInsert (fun a b => higher (fun _ => 0) a b) 128 =
      [128, 64, 96] := by decide
  rw [hinsert] at h₄
  have hrun : Run (fun (c : ListCall × ℕ) S S' => ListEdit smallNodes higher (fun _ => 0) c.1 S S'
      c.2) (fun _ => none) [(.init 16, 0), (.pushBack 16 64, 0), (.pushBack 16 96, 0),
      (.insertOrdered 16 128, 0), (.sort 16, 0), (.popFront 16, 128)] (oneList [96, 64]) :=
    (((((Run.nil _).append_one _ h₁).append_one (_, _) h₂).append_one (_, _) h₃).append_one
      (_, _) h₄).append_one (_, _) h₅ |>.append_one (_, _) h₆
  exact listRun_refines smallNodes_nodeSet (fun _ _ => rfl) hfuel hrun lists_none

/-! ### Sorting and inserting in order -/

theorem lists_oneList : Lists smallNodes (fun _ => 0) (listInit (fun _ => 0) 16) (oneList []) := by
  have hmem : ∀ p ∈ ({16, 32, 64, 96, 128} : Finset ℕ), p ∈ smallNodes := fun p hp => hp
  exact lists_none.init smallNodes_nodeSet (hmem _ (by decide)) (hmem _ (by decide)) (by simp)

/-- **`list_sort` is a stable sort**: it ends, the list has the elements that it had, in order, and
elements that the order does not tell apart stay in their order. The other lists and all memory
outside of the nodes stay as they were. -/
theorem listSort_stable (hN : NodeSet N) (hless : ReadsElsewhere N m₀ less)
    (hord : WeakOrder less m₀) (h : Lists N m₀ m S) {L : ℕ} {l : List ℕ} (hL : S L = some l)
    {fuel : ℕ} (hfuel : l.length < fuel) :
    ∃ m' l', listSort less fuel m L = some m' ∧
      Lists N m₀ m' (Function.update S L (some l')) ∧ l'.Perm l ∧
      (l'.Pairwise fun a b => less m₀ b a = false) ∧
      ∀ a b, [a, b].Sublist l → less m₀ a b = false → less m₀ b a = false → [a, b].Sublist l' := by
  obtain ⟨m', hrun, h'⟩ := h.sort hless hord.trans hord.total hN hL hfuel
  refine ⟨m', _, hrun, h', List.mergeSort_perm l _, ?_, fun a b hab _ hba => ?_⟩
  · simpa [notAbove] using List.pairwise_mergeSort hord.trans hord.total l
  · refine List.sublist_mergeSort hord.trans hord.total ?_ hab
    exact List.pairwise_pair.mpr (by simp [notAbove, hba])

theorem listSort_stable_two : ∃ m' l',
    listSort higher 3 (listPushBack (listPushBack (listInit (fun _ => 0) 16) 16 64) 16 96) 16 =
      some m' ∧ Lists smallNodes (fun _ => 0) m' (Function.update (oneList [64, 96]) 16 (some l')) ∧
      l'.Perm [64, 96] ∧ (l'.Pairwise fun a b => higher (fun _ => 0) b a = false) ∧
      ∀ a b, [a, b].Sublist [64, 96] → higher (fun _ => 0) a b = false →
        higher (fun _ => 0) b a = false → [a, b].Sublist l' := by
  have hmem : ∀ p ∈ ({16, 32, 64, 96, 128} : Finset ℕ), p ∈ smallNodes := fun p hp => hp
  have h₁ := lists_oneList.pushBack smallNodes_nodeSet (oneList_self []) (hmem 64 (by decide))
    (oneList_free (by decide))
  rw [oneList_update] at h₁
  have h₂ := h₁.pushBack smallNodes_nodeSet (oneList_self [64]) (hmem 96 (by decide))
    (oneList_free (by decide))
  rw [oneList_update] at h₂
  exact listSort_stable smallNodes_nodeSet (fun _ _ => rfl) higher_weakOrder h₂
    (oneList_self [64, 96]) (by decide)

theorem perm_foldl_orderedInsert (r : ℕ → ℕ → Prop) [DecidableRel r] (l : List ℕ) :
    (l.foldl (fun acc e => acc.orderedInsert r e) []).Perm l := by
  induction l using List.reverseRecOn with
  | nil => exact .refl []
  | append_singleton l e ih =>
    rw [List.foldl_append, List.foldl_cons, List.foldl_nil]
    exact (List.perm_orderedInsert r e _).trans
      ((ih.cons e).trans (List.perm_append_singleton e l).symm)

/-- Elements that join a list in order, one by one, end up as a stable sort would leave them. -/
theorem insertOrdered_eq_mergeSort (hord : WeakOrder less m₀) {l : List ℕ} (hnd : l.Nodup) :
    l.foldl (fun acc e => acc.orderedInsert (fun a b => less m₀ a b) e) [] =
      l.mergeSort (notAbove less m₀) := by
  have hmerge : ∀ (acc : List ℕ) (e : ℕ), acc.orderedInsert (fun a b => less m₀ a b) e =
      acc.merge [e] (notAbove less m₀) := by
    intro acc e
    induction acc with
    | nil => simp
    | cons a acc ih =>
      by_cases hlt : less m₀ e a = true
      · rw [List.orderedInsert_cons, if_pos hlt,
          List.cons_merge_cons_neg _ _ _ (by simp [notAbove, hlt]), List.merge_right]
      · rw [List.orderedInsert_cons, if_neg hlt, ih,
          List.cons_merge_cons_pos _ _ _ (by simp [notAbove, hlt])]
  have hacc : ∀ l : List ℕ, Rearranges (notAbove less m₀) l
      (l.foldl (fun acc e => acc.orderedInsert (fun a b => less m₀ a b) e) []) ∧
      (l.foldl (fun acc e => acc.orderedInsert (fun a b => less m₀ a b) e) []).Pairwise
        fun a b => notAbove less m₀ a b := by
    intro l
    induction l using List.reverseRecOn with
    | nil => exact ⟨.refl [], List.Pairwise.nil⟩
    | append_singleton l e ih =>
      obtain ⟨hrearr, hsorted⟩ := ih
      rw [List.foldl_append, List.foldl_cons, List.foldl_nil, hmerge]
      exact ⟨(hrearr.append (.refl [e])).trans (.merge hord.trans hsorted (by simp)),
        List.pairwise_merge hord.trans hord.total _ _ hsorted (by simp)⟩
  exact (hacc l).1.eq_mergeSort hord.trans hord.total hnd (hacc l).2

/-- The code that pushes elements to a list. -/
def pushBackAll (m : Mem) (list : ℕ) (elems : List ℕ) : Mem :=
  elems.foldl (fun m e => listPushBack m list e) m

/-- The code that inserts elements into a list in order. -/
def insertOrderedAll (less : Mem → ℕ → ℕ → Bool) (fuel : ℕ) (m : Mem) (list : ℕ)
    (elems : List ℕ) : Option Mem :=
  elems.foldlM (fun m e => listInsertOrdered less fuel m list e) m

/-- A node that joins no list stays free. -/
theorem ListState.Free.update {L e : ℕ} {l l' : List ℕ} (hfree : S.Free e) (hL : S L = some l)
    (he : e ∉ l') : ListState.Free (Function.update S L (some l')) e := by
  intro L' l'' hL' hmem
  rcases eq_or_ne L' L with rfl | hne
  · rw [Function.update_self] at hL'
    obtain rfl := Option.some.inj hL'
    have hnot := hfree L' l hL
    simp only [listNodes, List.mem_cons, List.mem_append, List.not_mem_nil, or_false,
      not_or] at hnot hmem
    rcases hmem with hmem | hmem | hmem
    · exact hnot.1 hmem
    · exact he hmem
    · exact hnot.2.2 hmem
  · rw [Function.update_of_ne hne] at hL'
    exact hfree L' l'' hL' hmem

/-- Free elements are pushed to an empty list. -/
theorem Lists.pushBackAll (hN : NodeSet N) (h : Lists N m₀ m S) {L : ℕ} {elems : List ℕ}
    (hL : S L = some []) (hnd : elems.Nodup) (hmem : ∀ e ∈ elems, e ∈ N)
    (hfree : ∀ e ∈ elems, S.Free e) :
    Lists N m₀ (AnglOS.pushBackAll m L elems) (Function.update S L (some elems)) := by
  induction elems using List.reverseRecOn with
  | nil => exact h.update_same hL
  | append_singleton elems e ih =>
    obtain ⟨hnd', -, hne⟩ := List.nodup_append.mp hnd
    have hstep := ih hnd' (fun e he => hmem e (by simp [he])) fun e he => hfree e (by simp [he])
    rw [AnglOS.pushBackAll, List.foldl_append, List.foldl_cons, List.foldl_nil]
    have hpush := hstep.pushBack hN (Function.update_self ..) (hmem e (by simp))
      ((hfree e (by simp)).update hL fun he => hne e he e (by simp) rfl)
    rwa [Function.update_idem] at hpush

/-- Free elements are inserted in order into an empty list. -/
theorem Lists.insertOrderedAll (hN : NodeSet N) (hless : ReadsElsewhere N m₀ less)
    (h : Lists N m₀ m S) {L fuel : ℕ} {elems : List ℕ} (hL : S L = some []) (hnd : elems.Nodup)
    (hmem : ∀ e ∈ elems, e ∈ N) (hfree : ∀ e ∈ elems, S.Free e) (hfuel : elems.length < fuel) :
    ∃ m', AnglOS.insertOrderedAll less fuel m L elems = some m' ∧
      Lists N m₀ m' (Function.update S L
        (some (elems.foldl (fun acc e => acc.orderedInsert (fun a b => less m₀ a b) e) []))) := by
  induction elems using List.reverseRecOn with
  | nil => exact ⟨m, rfl, h.update_same hL⟩
  | append_singleton elems e ih =>
    obtain ⟨hnd', -, hne⟩ := List.nodup_append.mp hnd
    obtain ⟨m₁, hrun, h₁⟩ := ih hnd' (fun e he => hmem e (by simp [he]))
      (fun e he => hfree e (by simp [he])) (by simp at hfuel; omega)
    have hperm := perm_foldl_orderedInsert (fun a b => less m₀ a b = true) elems
    obtain ⟨m', hrun', h'⟩ := h₁.insertOrdered hless hN
      (Function.update_self ..) (hmem e (by simp)) ((hfree e (by simp)).update hL fun he =>
        hne e (hperm.subset he) e (by simp) rfl)
      (by rw [hperm.length_eq]; simp at hfuel; omega : _ < fuel)
    rw [Function.update_idem] at h'
    refine ⟨m', ?_, by rwa [List.foldl_append]⟩
    rw [AnglOS.insertOrderedAll] at hrun ⊢
    rw [List.foldlM_append, hrun]
    simp [hrun']

/-- **Inserting in order is sorting**: elements that `list_insert_ordered` puts into an empty list
one after the other make the same list as elements that are pushed to it and then sorted. -/
theorem insertOrderedAll_eq_listSort (hN : NodeSet N) (hless : ReadsElsewhere N m₀ less)
    (hord : WeakOrder less m₀) (h : Lists N m₀ m S) {L fuel : ℕ} {elems : List ℕ}
    (hL : S L = some []) (hnd : elems.Nodup) (hmem : ∀ e ∈ elems, e ∈ N)
    (hfree : ∀ e ∈ elems, S.Free e) (hfuel : elems.length < fuel) :
    ∃ m₁ m₂ l, insertOrderedAll less fuel m L elems = some m₁ ∧
      listSort less fuel (pushBackAll m L elems) L = some m₂ ∧
      Lists N m₀ m₁ (Function.update S L (some l)) ∧
      Lists N m₀ m₂ (Function.update S L (some l)) := by
  obtain ⟨m₁, hrun₁, h₁⟩ := h.insertOrderedAll hN hless hL hnd hmem hfree hfuel
  have hpushed := h.pushBackAll hN hL hnd hmem hfree
  obtain ⟨m₂, hrun₂, h₂⟩ := hpushed.sort hless hord.trans hord.total hN (Function.update_self ..)
    hfuel
  rw [Function.update_idem] at h₂
  rw [insertOrdered_eq_mergeSort hord hnd] at h₁
  exact ⟨m₁, m₂, _, hrun₁, hrun₂, h₁, h₂⟩

theorem insertOrderedAll_eq_listSort_three : ∃ m₁ m₂ l,
    insertOrderedAll higher 4 (listInit (fun _ => 0) 16) 16 [64, 128, 96] = some m₁ ∧
      listSort higher 4 (pushBackAll (listInit (fun _ => 0) 16) 16 [64, 128, 96]) 16 = some m₂ ∧
      Lists smallNodes (fun _ => 0) m₁ (Function.update (oneList []) 16 (some l)) ∧
      Lists smallNodes (fun _ => 0) m₂ (Function.update (oneList []) 16 (some l)) := by
  have hmem : ∀ p ∈ ({16, 32, 64, 96, 128} : Finset ℕ), p ∈ smallNodes := fun p hp => hp
  refine insertOrderedAll_eq_listSort smallNodes_nodeSet (fun _ _ => rfl) higher_weakOrder
    lists_oneList (oneList_self []) (by decide) (fun e he => hmem e ?_) (fun e he => ?_) (by decide)
  · fin_cases he <;> decide
  · fin_cases he <;> exact oneList_free (by decide)

end

end AnglOS
