import AnglOS.Heap

/-!
# The Heap as a List of Cells

The abstract view of the heap: the words from the low fence up to `mem_brk` as a list of
*cells*. Besides fences, used blocks, and free blocks, there are two kinds of cells that
occur only while an operation is under way: a loose block, which has tags but is on no list,
and raw words, about which nothing is known. A used cell carries the bytes of its payload,
so that an operation whose cells say that a block stayed is known to have kept its bytes.

`Rep L h cs` says that the memory of `h` represents the cells `cs`. The rules of this module
say how the primitive operations of the allocator act on cells:

* `Rep.overwrite` — cells that are on no list may be overwritten by any others;
* `Rep.listRemove` — a free block becomes loose;
* `Rep.listPushBack` — a loose block becomes free;
* `Rep.extend` — the high fence becomes raw words when the break moves.
-/

namespace AnglOS

/-- A run of words of the heap. -/
inductive Cell
  /-- Words about which nothing is known. -/
  | raw (n : ℕ)
  /-- A fence. -/
  | fence
  /-- A block with the tags of a free block that is on no list. -/
  | loose (n : ℕ)
  /-- A free block. -/
  | free (n : ℕ)
  /-- A block in use with its payload. -/
  | used (n : ℕ) (d : Mem)

/-- The number of words of a cell. -/
def Cell.words : Cell → ℕ
  | .raw n => n
  | .fence => 1
  | .loose n => n
  | .free n => n
  | .used n _ => n

/-- A block has at least eight words. -/
def Cell.Fits : Cell → Prop
  | .raw _ => True
  | .fence => True
  | .loose n => 8 ≤ n
  | .free n => 8 ≤ n
  | .used n _ => 8 ≤ n

/-- The cell is a free block. -/
def Cell.IsFree : Cell → Prop
  | .free _ => True
  | _ => False

instance : DecidablePred Cell.IsFree := fun c => by
  cases c <;> simp only [Cell.IsFree] <;> infer_instance

/-- The number of words of a list of cells. -/
def words (cs : List Cell) : ℕ :=
  (cs.map Cell.words).sum

@[simp] theorem words_nil : words [] = 0 := rfl

@[simp] theorem words_cons (c : Cell) (cs : List Cell) :
    words (c :: cs) = c.words + words cs := by
  simp [words]

@[simp] theorem words_append (cs cs' : List Cell) : words (cs ++ cs') = words cs + words cs' := by
  simp [words]

/-- The cells with their addresses, from address `a` on. -/
def cellsAt : ℕ → List Cell → List (ℕ × Cell)
  | _, [] => []
  | a, c :: cs => (a, c) :: cellsAt (a + 8 * c.words) cs

theorem cellsAt_append (cs' : List Cell) : ∀ (cs : List Cell) (a : ℕ),
    cellsAt a (cs ++ cs') = cellsAt a cs ++ cellsAt (a + 8 * words cs) cs' := by
  intro cs
  induction cs with
  | nil => intro a; simp [cellsAt]
  | cons c cs ih =>
      intro a
      simp only [List.cons_append, cellsAt, ih, words_cons]
      rw [show a + 8 * c.words + 8 * words cs = a + 8 * (c.words + words cs) by ring]

/-- A cell is at an address exactly when the cells before it fill the words up to there. -/
theorem mem_cellsAt {a x : ℕ} {c : Cell} {cs : List Cell} : (x, c) ∈ cellsAt a cs ↔
    ∃ P Q, cs = P ++ c :: Q ∧ x = a + 8 * words P := by
  constructor
  · induction cs generalizing a with
    | nil => intro h; simp [cellsAt] at h
    | cons c' cs ih =>
        intro h
        rcases List.mem_cons.mp h with h | h
        · obtain ⟨rfl, rfl⟩ := Prod.mk.inj h
          exact ⟨[], cs, rfl, by simp⟩
        · obtain ⟨P, Q, rfl, rfl⟩ := ih h
          exact ⟨c' :: P, Q, rfl, by simp only [words_cons]; ring⟩
  · rintro ⟨P, Q, rfl, rfl⟩
    rw [cellsAt_append]
    exact List.mem_append_right _ List.mem_cons_self

/-- Cells lie between the ends of the list. -/
theorem cellsAt_bounds {a x : ℕ} {c : Cell} {cs : List Cell} (h : (x, c) ∈ cellsAt a cs) :
    a ≤ x ∧ x + 8 * c.words ≤ a + 8 * words cs := by
  obtain ⟨P, Q, rfl, rfl⟩ := mem_cellsAt.mp h
  simp only [words_append, words_cons]
  omega

/-- Different cells do not overlap. -/
theorem cellsAt_apart {a x y : ℕ} {c d : Cell} {cs : List Cell} (hx : (x, c) ∈ cellsAt a cs)
    (hy : (y, d) ∈ cellsAt a cs) :
    (x = y ∧ c = d) ∨ x + 8 * c.words ≤ y ∨ y + 8 * d.words ≤ x := by
  induction cs generalizing a with
  | nil => simp [cellsAt] at hx
  | cons c' cs ih =>
      rcases List.mem_cons.mp hx with h | h <;> rcases List.mem_cons.mp hy with h' | h'
      · obtain ⟨rfl, rfl⟩ := Prod.mk.inj h
        obtain ⟨rfl, rfl⟩ := Prod.mk.inj h'
        exact Or.inl ⟨rfl, rfl⟩
      · obtain ⟨rfl, rfl⟩ := Prod.mk.inj h
        exact Or.inr (Or.inl (cellsAt_bounds h').1)
      · obtain ⟨rfl, rfl⟩ := Prod.mk.inj h'
        exact Or.inr (Or.inr (cellsAt_bounds h).1)
      · exact ih h h'

/-! ### What a cell says about memory -/

/-- The tags of a block of `n` words at `a`. -/
def Tagged (m : Mem) (a n : ℕ) (inuse : Bool) : Prop :=
  m.load64 a = mkTag n inuse ∧ m.load64 (a + 8 * n - 8) = mkTag n inuse

/-- What a cell at `a` says about memory. -/
def CellOk (m : Mem) (a : ℕ) : Cell → Prop
  | .raw _ => True
  | .fence => m.load64 a = AnglOS.fence
  | .loose n => Tagged m a n false
  | .free n => Tagged m a n false
  | .used n d => Tagged m a n true ∧ ∀ x, a + 8 ≤ x → x < a + 8 * n - 8 → m x = d x

/-- The bytes about which a cell at `a` says something. -/
def Foot (a : ℕ) : Cell → ℕ → Prop
  | .raw _, _ => False
  | .fence, x => a ≤ x ∧ x < a + 8
  | .loose n, x => a ≤ x ∧ x < a + 8 ∨ a + 8 * n - 8 ≤ x ∧ x < a + 8 * n
  | .free n, x => a ≤ x ∧ x < a + 8 ∨ a + 8 * n - 8 ≤ x ∧ x < a + 8 * n
  | .used n _, x => a ≤ x ∧ x < a + 8 * n

theorem Tagged.congr {m m' : Mem} {a n : ℕ} {inuse : Bool} (h : Tagged m a n inuse) (hn : 8 ≤ n)
    (hm : ∀ x, a ≤ x ∧ x < a + 8 ∨ a + 8 * n - 8 ≤ x ∧ x < a + 8 * n → m' x = m x) :
    Tagged m' a n inuse := by
  refine ⟨?_, ?_⟩
  · rw [Mem.load64_congr fun x h1 h2 => hm x (Or.inl ⟨h1, h2⟩)]
    exact h.1
  · rw [Mem.load64_congr fun x h1 h2 => hm x (Or.inr ⟨h1, by omega⟩)]
    exact h.2

/-- A cell says nothing about other bytes. -/
theorem CellOk.congr {m m' : Mem} {a : ℕ} {c : Cell} (h : CellOk m a c) (hc : c.Fits)
    (hm : ∀ x, Foot a c x → m' x = m x) : CellOk m' a c := by
  cases c with
  | raw n => trivial
  | fence =>
      rw [CellOk, Mem.load64_congr fun x h1 h2 => hm x ⟨h1, h2⟩]
      exact h
  | loose n => exact Tagged.congr h hc hm
  | free n => exact Tagged.congr h hc hm
  | used n d =>
      simp only [Cell.Fits] at hc
      refine ⟨h.1.congr hc fun x hx => hm x ?_, fun x h1 h2 => ?_⟩
      · simp only [Foot]
        omega
      · rw [hm x ⟨by omega, by omega⟩]
        exact h.2 x h1 h2

/-- A cell says something only about its own bytes. -/
theorem Foot.bounds {a x : ℕ} {c : Cell} (h : Foot a c x) (hc : c.Fits) :
    a ≤ x ∧ x < a + 8 * c.words := by
  cases c with
  | raw n => exact h.elim
  | fence => exact h
  | loose n => simp only [Foot, Cell.Fits, Cell.words] at *; omega
  | free n => simp only [Foot, Cell.Fits, Cell.words] at *; omega
  | used n d => exact h

/-! ### Representation -/

/-- The address of the low fence. -/
def heapStart : ℕ :=
  kheapBase + 16

/-- The address of the cell that follows the cells `P`. -/
def addrOf (P : List Cell) : ℕ :=
  heapStart + 8 * words P

/-- The nodes of list `i` with elements `es`: its head, the elements, and its tail. -/
def nodes (L : FreeLists) (i : ℕ) (es : List ℕ) : List ℕ :=
  L.list i :: (es ++ [listEnd (L.list i)])

/-- The heap `h` represents the cells `cs`, and the elements of the free lists are `ls`. -/
structure RepWith (L : FreeLists) (h : Heap) (cs : List Cell) (ls : ℕ → List ℕ) : Prop where
  brk_eq : h.memBrk = addrOf cs
  brk_le : h.memBrk ≤ memMaxAddr
  fits : ∀ c ∈ cs, c.Fits
  ok : ∀ x ∈ cellsAt heapStart cs, CellOk h.mem x.1 x.2
  linked : ∀ i < 12, Linked (listNext h.mem) (listPrev h.mem) (nodes L i (ls i))
  ends : ∀ i < 12, listPrev h.mem (L.list i) = 0 ∧ listNext h.mem (listEnd (L.list i)) = 0
  nodup : ∀ i < 12, (ls i).Nodup
  mem_iff : ∀ i < 12, ∀ p, p ∈ ls i ↔
    ∃ a n, (a, Cell.free n) ∈ cellsAt heapStart cs ∧ p = payload a ∧ getSegIndex n = i

/-- The heap `h` represents the cells `cs`. -/
def Rep (L : FreeLists) (h : Heap) (cs : List Cell) : Prop :=
  ∃ ls, RepWith L h cs ls

theorem getSegIndex_lt (n : ℕ) : getSegIndex n < 12 := by
  rw [getSegIndex]
  split_ifs <;> omega

/-- The heap lies below the image of the kernel. -/
theorem FreeLists.above (L : FreeLists) : memMaxAddr ≤ L.addr :=
  le_trans (by decide) L.in_image

theorem memMaxAddr_lt : memMaxAddr + 16 < 2 ^ 64 := by decide

theorem mem_of_mem_cellsAt {a x : ℕ} {c : Cell} {cs : List Cell} (h : (x, c) ∈ cellsAt a cs) :
    c ∈ cs := by
  obtain ⟨P, Q, rfl, -⟩ := mem_cellsAt.mp h
  simp

/-- Cells lie between the low fence and the break. -/
theorem RepWith.bounds {L : FreeLists} {h : Heap} {cs : List Cell} {ls : ℕ → List ℕ}
    (hr : RepWith L h cs ls) {x : ℕ} {c : Cell} (hx : (x, c) ∈ cellsAt heapStart cs) :
    heapStart ≤ x ∧ x + 8 * c.words ≤ memMaxAddr ∧ c.Fits := by
  have h1 := cellsAt_bounds hx
  have h2 := hr.brk_eq
  have h3 := hr.brk_le
  rw [addrOf] at h2
  exact ⟨h1.1, by omega, hr.fits c (mem_of_mem_cellsAt hx)⟩

/-- A list element: a head, a tail, or the start of the payload of a block that is free or
loose. -/
def IsNode (L : FreeLists) (cs : List Cell) (p : ℕ) : Prop :=
  (∃ k < 24, p = L.addr + 16 * k) ∨
    ∃ a n, ((a, Cell.free n) ∈ cellsAt heapStart cs ∨ (a, Cell.loose n) ∈ cellsAt heapStart cs) ∧
      p = payload a

theorem isNode_head (L : FreeLists) (cs : List Cell) {i : ℕ} (hi : i < 12) :
    IsNode L cs (L.list i) :=
  Or.inl ⟨2 * i, by omega, by rw [FreeLists.list]; omega⟩

theorem isNode_tail (L : FreeLists) (cs : List Cell) {i : ℕ} (hi : i < 12) :
    IsNode L cs (listEnd (L.list i)) :=
  Or.inl ⟨2 * i + 1, by omega, by rw [listEnd, FreeLists.list]; omega⟩

section

variable {L : FreeLists} {h : Heap} {cs : List Cell} {ls : ℕ → List ℕ}

/-- Nodes fit into the address space, and those of the heap lie below those of the lists. -/
theorem RepWith.isNode_lt (hr : RepWith L h cs ls) {p : ℕ} (hp : IsNode L cs p) :
    p < 2 ^ 64 := by
  rcases hp with ⟨k, hk, rfl⟩ | ⟨a, n, ha, rfl⟩
  · have := L.fits
    simp only [numLists] at this
    omega
  · have h1 := memMaxAddr_lt
    have h2 : a + 8 * n ≤ memMaxAddr := by
      rcases ha with ha | ha
      · exact (hr.bounds ha).2.1
      · exact (hr.bounds ha).2.1
    simp only [payload, wsize]
    omega

/-- Different nodes do not overlap. -/
theorem RepWith.isNode_apart (hr : RepWith L h cs ls) {p q : ℕ} (hp : IsNode L cs p)
    (hq : IsNode L cs q) : p = q ∨ NodesApart p q := by
  have hin : ∀ {a n : ℕ}, (a, Cell.free n) ∈ cellsAt heapStart cs ∨
      (a, Cell.loose n) ∈ cellsAt heapStart cs → a + 8 * n ≤ memMaxAddr ∧ 8 ≤ n ∧
        ∃ c, (a, c) ∈ cellsAt heapStart cs ∧ c.words = n := by
    rintro a n (ha | ha)
    · exact ⟨(hr.bounds ha).2.1, (hr.bounds ha).2.2, _, ha, rfl⟩
    · exact ⟨(hr.bounds ha).2.1, (hr.bounds ha).2.2, _, ha, rfl⟩
  have habove := L.above
  simp only [NodesApart]
  rcases hp with ⟨k, hk, rfl⟩ | ⟨a, n, ha, rfl⟩ <;> rcases hq with ⟨k', hk', rfl⟩ | ⟨b, n', hb, rfl⟩
  · omega
  · obtain ⟨h1, h2, -⟩ := hin hb
    simp only [payload, wsize]
    omega
  · obtain ⟨h1, h2, -⟩ := hin ha
    simp only [payload, wsize]
    omega
  · obtain ⟨-, h1, c, hc, rfl⟩ := hin ha
    obtain ⟨-, h2, d, hd, rfl⟩ := hin hb
    simp only [payload, wsize]
    rcases cellsAt_apart hc hd with ⟨rfl, -⟩ | hlt | hlt <;> omega

/-- The bytes of a node are no bytes about which a cell says something. -/
theorem RepWith.not_foot_of_inNode (hr : RepWith L h cs ls) {p x : ℕ} (hp : IsNode L cs p)
    (hx : InNode p x) {a : ℕ} {c : Cell} (ha : (a, c) ∈ cellsAt heapStart cs) : ¬Foot a c x := by
  intro hf
  obtain ⟨hlo, hhi, hfits⟩ := hr.bounds ha
  have hb := hf.bounds hfits
  have habove := L.above
  rcases hp with ⟨k, hk, rfl⟩ | ⟨b, n, hbn, rfl⟩
  · rw [InNode] at hx
    omega
  · simp only [InNode, payload, wsize] at hx
    rcases hbn with hbn | hbn
    · have hn := (hr.bounds hbn).2.2
      rcases cellsAt_apart hbn ha with ⟨rfl, rfl⟩ | hlt | hlt <;>
        simp only [Cell.words, Cell.Fits, Foot] at * <;> omega
    · have hn := (hr.bounds hbn).2.2
      rcases cellsAt_apart hbn ha with ⟨rfl, rfl⟩ | hlt | hlt <;>
        simp only [Cell.words, Cell.Fits, Foot] at * <;> omega

/-- The nodes of a list are nodes. -/
theorem RepWith.isNode_of_mem (hr : RepWith L h cs ls) {i p : ℕ} (hi : i < 12)
    (hp : p ∈ nodes L i (ls i)) : IsNode L cs p := by
  simp only [nodes, List.mem_cons, List.mem_append, List.not_mem_nil, or_false] at hp
  rcases hp with rfl | hp | rfl
  · exact isNode_head L cs hi
  · obtain ⟨a, n, ha, rfl, -⟩ := (hr.mem_iff i hi p).mp hp
    exact Or.inr ⟨a, n, Or.inl ha, rfl⟩
  · exact isNode_tail L cs hi

/-- The elements of a list lie in the heap. -/
theorem RepWith.elem_lt (hr : RepWith L h cs ls) {i p : ℕ} (hi : i < 12) (hp : p ∈ ls i) :
    p + 16 ≤ L.addr := by
  obtain ⟨a, n, ha, rfl, -⟩ := (hr.mem_iff i hi p).mp hp
  obtain ⟨-, h1, h2⟩ := hr.bounds ha
  have := L.above
  simp only [Cell.words, Cell.Fits, payload, wsize] at *
  omega

/-- Different lists have no node in common. -/
theorem RepWith.list_eq_of_mem (hr : RepWith L h cs ls) {i j p : ℕ} (hi : i < 12) (hj : j < 12)
    (hp : p ∈ nodes L i (ls i)) (hq : p ∈ nodes L j (ls j)) : i = j := by
  simp only [nodes, List.mem_cons, List.mem_append, List.not_mem_nil, or_false, listEnd,
    FreeLists.list] at hp hq
  rcases hp with rfl | hp | rfl <;> rcases hq with hq | hq | hq
  · omega
  · have := hr.elem_lt hj hq
    omega
  · omega
  · have := hr.elem_lt hi hp
    omega
  · obtain ⟨a, n, ha, rfl, rfl⟩ := (hr.mem_iff i hi p).mp hp
    obtain ⟨b, n', hb, hab, rfl⟩ := (hr.mem_iff j hj _).mp hq
    simp only [payload, wsize, Nat.add_right_cancel_iff] at hab
    subst hab
    have hf1 := (hr.bounds ha).2.2
    have hf2 := (hr.bounds hb).2.2
    simp only [Cell.Fits] at hf1 hf2
    rcases cellsAt_apart ha hb with ⟨-, heq⟩ | hlt | hlt
    · obtain rfl := Cell.free.inj heq
      rfl
    · simp only [Cell.words] at hlt
      omega
    · simp only [Cell.words] at hlt
      omega
  · have := hr.elem_lt hi hp
    omega
  · omega
  · have := hr.elem_lt hj hq
    omega
  · omega

/-- Only the first node of a list is a head. -/
theorem RepWith.ne_head (hr : RepWith L h cs ls) {i j p : ℕ} (hi : i < 12)
    (hp : p ∈ (nodes L i (ls i)).tail) : L.list j ≠ p := by
  simp only [nodes, List.tail_cons, List.mem_append, List.mem_singleton] at hp
  rcases hp with hp | rfl
  · have := hr.elem_lt hi hp
    rw [FreeLists.list]
    omega
  · simp only [listEnd, FreeLists.list]
    omega

/-- Only the last node of a list is a tail. -/
theorem RepWith.ne_tail (hr : RepWith L h cs ls) {i j p : ℕ} (hi : i < 12)
    (hp : p ∈ (nodes L i (ls i)).dropLast) : listEnd (L.list j) ≠ p := by
  rw [nodes, ← List.cons_append, List.dropLast_concat, List.mem_cons] at hp
  rcases hp with rfl | hp
  · simp only [listEnd, FreeLists.list]
    omega
  · have := hr.elem_lt hi hp
    rw [listEnd, FreeLists.list]
    omega

/-- The nodes of a list are different from each other. -/
theorem RepWith.nodup_nodes (hr : RepWith L h cs ls) {i : ℕ} (hi : i < 12) :
    (nodes L i (ls i)).Nodup := by
  have hlt : ∀ p ∈ ls i, p < L.list i := by
    intro p hp
    have := hr.elem_lt hi hp
    rw [FreeLists.list]
    omega
  rw [nodes, List.nodup_cons, List.nodup_append]
  refine ⟨?_, hr.nodup i hi, List.nodup_singleton _, ?_⟩
  · intro hmem
    rcases List.mem_append.mp hmem with hmem | hmem
    · exact absurd (hlt _ hmem) (lt_irrefl _)
    · rw [List.mem_singleton, listEnd] at hmem
      omega
  · intro p hp q hq
    rw [List.mem_singleton.mp hq, listEnd]
    have := hlt p hp
    omega

end

/-! ### Rules -/

/-- A cell of three runs of cells is a cell of one of them. -/
theorem mem_cellsAt_append {a x : ℕ} {c : Cell} {P M Q : List Cell} :
    (x, c) ∈ cellsAt a (P ++ M ++ Q) ↔ (x, c) ∈ cellsAt a P ∨
      (x, c) ∈ cellsAt (a + 8 * words P) M ∨
      (x, c) ∈ cellsAt (a + 8 * words P + 8 * words M) Q := by
  rw [cellsAt_append, cellsAt_append, List.mem_append, List.mem_append, words_append, or_assoc,
    show a + 8 * (words P + words M) = a + 8 * words P + 8 * words M by ring]

/-- The links of a node are read from its own bytes. -/
theorem links_congr {m m' : Mem} {p : ℕ} (h : ∀ x, InNode p x → m' x = m x) :
    listNext m' p = listNext m p ∧ listPrev m' p = listPrev m p := by
  simp only [InNode] at h
  refine ⟨?_, ?_⟩
  · rw [listNext, Mem.load64_congr fun x h1 h2 => h x ⟨by omega, by omega⟩, listNext]
  · rw [listPrev, Mem.load64_congr fun x h1 h2 => h x ⟨by omega, by omega⟩, listPrev]

section

variable {L : FreeLists} {h : Heap} {P M N Q : List Cell} {n : ℕ} {m : Mem}

/-- The lists do not notice writes to other bytes. -/
theorem RepWith.lists_congr {cs : List Cell} {ls : ℕ → List ℕ} (hr : RepWith L h cs ls)
    (hm : ∀ i < 12, ∀ p ∈ nodes L i (ls i), ∀ x, InNode p x → m x = h.mem x) :
    (∀ i < 12, Linked (listNext m) (listPrev m) (nodes L i (ls i))) ∧
      ∀ i < 12, listPrev m (L.list i) = 0 ∧ listNext m (listEnd (L.list i)) = 0 := by
  refine ⟨fun i hi => ?_, fun i hi => ?_⟩
  · refine (hr.linked i hi).congr (fun p hp => ?_) fun p hp => ?_
    · exact (links_congr (hm i hi p (List.dropLast_subset _ hp))).1
    · exact (links_congr (hm i hi p (List.mem_of_mem_tail hp))).2
  · rw [(links_congr (hm i hi (L.list i) (by simp [nodes]))).2,
      (links_congr (hm i hi (listEnd (L.list i)) (by simp [nodes]))).1]
    exact hr.ends i hi

/-- **Cells that are on no list may be overwritten** by any others of the same size: the
rest of the heap and the lists do not notice. -/
theorem Rep.overwrite (hr : Rep L h (P ++ M ++ Q)) (hmid : ∀ c ∈ M, ¬c.IsFree)
    (hmid' : ∀ c ∈ N, ¬c.IsFree ∧ c.Fits) (hw : words N = words M)
    (hm : ∀ x, x < addrOf P ∨ addrOf P + 8 * words M ≤ x → m x = h.mem x)
    (hok : ∀ x ∈ cellsAt (addrOf P) N, CellOk m x.1 x.2) :
    Rep L { h with mem := m } (P ++ N ++ Q) := by
  obtain ⟨ls, hr⟩ := hr
  -- a cell of the new list is one of `N`, or a cell of the old list outside `M`
  have hcells : ∀ {x c}, (x, c) ∈ cellsAt heapStart (P ++ N ++ Q) →
      (x, c) ∈ cellsAt (addrOf P) N ∨ (x, c) ∈ cellsAt heapStart (P ++ M ++ Q) ∧
        (x + 8 * c.words ≤ addrOf P ∨ addrOf P + 8 * words M ≤ x) := by
    intro x c hx
    rw [mem_cellsAt_append, hw] at hx
    rcases hx with hx | hx | hx
    · exact Or.inr ⟨mem_cellsAt_append.mpr (Or.inl hx), Or.inl (cellsAt_bounds hx).2⟩
    · exact Or.inl hx
    · exact Or.inr ⟨mem_cellsAt_append.mpr (Or.inr (Or.inr hx)), Or.inr (cellsAt_bounds hx).1⟩
  have hfree : ∀ {x k}, (x, Cell.free k) ∈ cellsAt heapStart (P ++ N ++ Q) ↔
      (x, Cell.free k) ∈ cellsAt heapStart (P ++ M ++ Q) := by
    intro x k
    rw [mem_cellsAt_append, mem_cellsAt_append, hw]
    constructor
    · rintro (hx | hx | hx)
      · exact Or.inl hx
      · exact absurd trivial (hmid' _ (mem_of_mem_cellsAt hx)).1
      · exact Or.inr (Or.inr hx)
    · rintro (hx | hx | hx)
      · exact Or.inl hx
      · exact absurd trivial (hmid _ (mem_of_mem_cellsAt hx))
      · exact Or.inr (Or.inr hx)
  have hend : addrOf P + 8 * words M ≤ memMaxAddr := by
    have h1 := hr.brk_eq
    have h2 := hr.brk_le
    simp only [addrOf, words_append] at *
    omega
  -- the links of the lists stay
  have hnode : ∀ i < 12, ∀ p ∈ nodes L i (ls i), ∀ y, InNode p y → m y = h.mem y := by
    intro i hi p hp y hy
    refine hm y ?_
    simp only [nodes, List.mem_cons, List.mem_append, List.not_mem_nil, or_false] at hp
    have habove := L.above
    simp only [InNode] at hy
    rcases hp with rfl | hp | rfl
    · rw [FreeLists.list] at hy
      omega
    · obtain ⟨a, k, ha, rfl, -⟩ := (hr.mem_iff i hi p).mp hp
      have hfits := (hr.bounds ha).2.2
      rcases hcells (hfree.mpr ha) with hx | ⟨-, hout⟩
      · exact absurd trivial (hmid' _ (mem_of_mem_cellsAt hx)).1
      · simp only [payload, wsize, Cell.words, Cell.Fits] at *
        omega
    · rw [listEnd, FreeLists.list] at hy
      omega
  obtain ⟨hlinked, hends⟩ := hr.lists_congr hnode
  refine ⟨ls, ?_, hr.brk_le, ?_, ?_, hlinked, hends, hr.nodup, ?_⟩
  · have := hr.brk_eq
    simp only [addrOf, words_append, hw] at *
    exact this
  · intro c hc
    simp only [List.mem_append] at hc
    rcases hc with (hc | hc) | hc
    · exact hr.fits c (by simp [hc])
    · exact (hmid' c hc).2
    · exact hr.fits c (by simp [hc])
  · rintro ⟨x, c⟩ hx
    rcases hcells hx with hx | ⟨hx, hout⟩
    · exact hok _ hx
    · have hfits := (hr.bounds hx).2.2
      refine (hr.ok _ hx).congr hfits fun y hy => hm y ?_
      have hin : x ≤ y ∧ y < x + 8 * c.words := Foot.bounds hy hfits
      omega
  · intro i hi p
    rw [hr.mem_iff i hi p]
    constructor
    · rintro ⟨a, k, ha, hp⟩
      exact ⟨a, k, hfree.mpr ha, hp⟩
    · rintro ⟨a, k, ha, hp⟩
      exact ⟨a, k, hfree.mp ha, hp⟩

/-- Bytes below the heap are not its business. -/
theorem Rep.frame_low {cs : List Cell} (hr : Rep L h cs)
    (hm : ∀ x, heapStart ≤ x → m x = h.mem x) : Rep L { h with mem := m } cs := by
  obtain ⟨ls, hr⟩ := hr
  have hstart : heapStart ≤ memMaxAddr := by decide
  have habove := L.above
  have hnode : ∀ i < 12, ∀ p ∈ nodes L i (ls i), ∀ x, InNode p x → m x = h.mem x := by
    intro i hi p hp x hx
    refine hm x ?_
    have hlow : heapStart ≤ p := by
      rcases hr.isNode_of_mem hi hp with ⟨k, -, rfl⟩ | ⟨a, n, ha | ha, rfl⟩
      · omega
      · exact le_trans (hr.bounds ha).1 (Nat.le_add_right _ _)
      · exact le_trans (hr.bounds ha).1 (Nat.le_add_right _ _)
    exact le_trans hlow hx.1
  obtain ⟨hlinked, hends⟩ := hr.lists_congr hnode
  refine ⟨ls, hr.brk_eq, hr.brk_le, hr.fits, fun x hx => ?_, hlinked, hends, hr.nodup, hr.mem_iff⟩
  obtain ⟨hlow, -, hfits⟩ := hr.bounds hx
  exact (hr.ok x hx).congr hfits fun y hy => hm y (le_trans hlow (hy.bounds hfits).1)

/-- **The high fence becomes raw words** when the break moves by `n` words. -/
theorem Rep.extend (hr : Rep L h (P ++ [.fence])) (hle : h.memBrk + 8 * n ≤ memMaxAddr) :
    Rep L { h with memBrk := h.memBrk + 8 * n } (P ++ [.raw (n + 1)]) := by
  have hraw : Rep L h (P ++ [.raw 1] ++ []) := by
    refine Rep.overwrite (M := [.fence]) (by simpa using hr) (by simp [Cell.IsFree])
      (by simp [Cell.IsFree, Cell.Fits]) rfl (fun _ _ => rfl) ?_
    simp [cellsAt, CellOk]
  obtain ⟨ls, hr⟩ := hraw
  have hcells : ∀ {x c}, (x, c) ∈ cellsAt heapStart (P ++ [.raw (n + 1)]) →
      (x, c) ∈ cellsAt heapStart P ∨ c = .raw (n + 1) := by
    intro x c hx
    rw [cellsAt_append, List.mem_append] at hx
    rcases hx with hx | hx
    · exact Or.inl hx
    · exact Or.inr (by simpa using mem_of_mem_cellsAt hx)
  have hpre : ∀ {x c}, (x, c) ∈ cellsAt heapStart P →
      (x, c) ∈ cellsAt heapStart (P ++ [.raw 1] ++ []) := fun hx =>
    mem_cellsAt_append.mpr (Or.inl hx)
  refine ⟨ls, ?_, hle, ?_, ?_, hr.linked, hr.ends, hr.nodup, ?_⟩
  · have := hr.brk_eq
    simp only [addrOf, words_append, words_cons, words_nil, Cell.words] at *
    omega
  · intro c hc
    rcases List.mem_append.mp hc with hc | hc
    · exact hr.fits c (by simp [hc])
    · simp only [List.mem_singleton] at hc
      rw [hc]
      trivial
  · rintro ⟨x, c⟩ hx
    rcases hcells hx with hx | rfl
    · exact hr.ok _ (hpre hx)
    · trivial
  · intro i hi p
    rw [hr.mem_iff i hi p]
    constructor
    · rintro ⟨a, k, ha, hp⟩
      rcases mem_cellsAt_append.mp ha with ha | ha | ha
      · exact ⟨a, k, by rw [cellsAt_append]; exact List.mem_append_left _ ha, hp⟩
      · simp [cellsAt] at ha
      · simp [cellsAt] at ha
    · rintro ⟨a, k, ha, hp⟩
      rcases hcells ha with ha | ha
      · exact ⟨a, k, hpre ha, hp⟩
      · simp at ha

end

/-! ### The free lists -/

/-- The neighbours of an element among the nodes of its list. -/
theorem exists_nodes_eq (L : FreeLists) (i : ℕ) (xs ys : List ℕ) (e : ℕ) :
    ∃ X a b Y, nodes L i (xs ++ e :: ys) = X ++ a :: e :: b :: Y ∧
      nodes L i (xs ++ ys) = X ++ a :: b :: Y := by
  obtain ⟨X, a, hX⟩ : ∃ X a, L.list i :: xs = X ++ [a] := by
    rcases List.eq_nil_or_concat (L.list i :: xs) with hnil | ⟨X, a, hX⟩
    · simp at hnil
    · exact ⟨X, a, by simpa using hX⟩
  obtain ⟨b, Y, hY⟩ : ∃ b Y, ys ++ [listEnd (L.list i)] = b :: Y := by
    cases ys with
    | nil => exact ⟨_, [], rfl⟩
    | cons y ys => exact ⟨y, _, rfl⟩
  refine ⟨X, a, b, Y, ?_, ?_⟩
  · rw [nodes, List.append_assoc, List.cons_append, hY, ← List.cons_append, hX]
    simp
  · rw [nodes, List.append_assoc, hY, ← List.cons_append, hX]
    simp

/-- The last node before the tail of a list. -/
theorem exists_nodes_last (L : FreeLists) (i : ℕ) (es : List ℕ) :
    ∃ X a, nodes L i es = X ++ [a, listEnd (L.list i)] ∧
      ∀ e, nodes L i (es ++ [e]) = X ++ [a, e, listEnd (L.list i)] := by
  obtain ⟨X, a, hX⟩ : ∃ X a, L.list i :: es = X ++ [a] := by
    rcases List.eq_nil_or_concat (L.list i :: es) with hnil | ⟨X, a, hX⟩
    · simp at hnil
    · exact ⟨X, a, by simpa using hX⟩
  refine ⟨X, a, ?_, fun e => ?_⟩
  · rw [nodes, ← List.cons_append, hX]
    simp
  · rw [nodes, List.append_assoc, ← List.cons_append, hX]
    simp

section

variable {L : FreeLists} {h : Heap} {P Q : List Cell} {n : ℕ} {ls : ℕ → List ℕ}

theorem mem_cellsAt_middle {a : ℕ} {c d : Cell} :
    (a, d) ∈ cellsAt heapStart (P ++ c :: Q) ↔ (a, d) ∈ cellsAt heapStart P ∨
      (a = addrOf P ∧ d = c) ∨ (a, d) ∈ cellsAt (addrOf P + 8 * c.words) Q := by
  rw [show P ++ c :: Q = P ++ [c] ++ Q by simp, mem_cellsAt_append]
  simp only [cellsAt, List.mem_singleton, Prod.mk.injEq, words_cons, words_nil, Nat.add_zero,
    addrOf]

/-- The free blocks besides the one at hand. -/
theorem mem_cellsAt_free_iff (hn : 8 ≤ n) (hfits : ∀ c ∈ P ++ Q, c.Fits) {a k : ℕ} :
    (a, Cell.free k) ∈ cellsAt heapStart (P ++ .free n :: Q) ↔
      a = addrOf P ∧ k = n ∨
        a ≠ addrOf P ∧ (a, Cell.free k) ∈ cellsAt heapStart (P ++ .loose n :: Q) := by
  rw [mem_cellsAt_middle, mem_cellsAt_middle]
  constructor
  · rintro (ha | ⟨ha, hk⟩ | ha)
    · have hk : 8 ≤ k := hfits (.free k) (by simp [mem_of_mem_cellsAt ha])
      have hb : a + 8 * k ≤ addrOf P := (cellsAt_bounds ha).2
      exact Or.inr ⟨by omega, Or.inl ha⟩
    · exact Or.inl ⟨ha, Cell.free.inj hk⟩
    · have hb : addrOf P + 8 * n ≤ a := (cellsAt_bounds ha).1
      exact Or.inr ⟨by omega, Or.inr (Or.inr ha)⟩
  · rintro (⟨ha, rfl⟩ | ⟨hne, ha | ⟨ha, -⟩ | ha⟩)
    · exact Or.inr (Or.inl ⟨ha, rfl⟩)
    · exact Or.inl ha
    · exact absurd ha hne
    · exact Or.inr (Or.inr ha)

/-- There is no other free block at the address of a loose one. -/
theorem free_ne_addrOf (hn : 8 ≤ n) (hfits : ∀ c ∈ P ++ Q, c.Fits) {a k : ℕ}
    (ha : (a, Cell.free k) ∈ cellsAt heapStart (P ++ .loose n :: Q)) : a ≠ addrOf P := by
  rcases mem_cellsAt_middle.mp ha with ha | ⟨-, hk⟩ | ha
  · have hk : 8 ≤ k := hfits (.free k) (by simp [mem_of_mem_cellsAt ha])
    have hb : a + 8 * k ≤ addrOf P := (cellsAt_bounds ha).2
    omega
  · simp at hk
  · have hb : addrOf P + 8 * n ≤ a := (cellsAt_bounds ha).1
    omega

/-- Making a loose block free adds its payload to the payloads of the free blocks. -/
theorem exists_free_iff (hn : 8 ≤ n) (hfits : ∀ c ∈ P ++ Q, c.Fits) {i p : ℕ} :
    (∃ a k, (a, Cell.free k) ∈ cellsAt heapStart (P ++ .free n :: Q) ∧
        p = payload a ∧ getSegIndex k = i) ↔
      p = payload (addrOf P) ∧ getSegIndex n = i ∨ p ≠ payload (addrOf P) ∧
        ∃ a k, (a, Cell.free k) ∈ cellsAt heapStart (P ++ .loose n :: Q) ∧
          p = payload a ∧ getSegIndex k = i := by
  constructor
  · rintro ⟨a, k, hak, rfl, hk⟩
    rcases (mem_cellsAt_free_iff hn hfits).mp hak with ⟨rfl, rfl⟩ | ⟨hne, hak⟩
    · exact Or.inl ⟨rfl, hk⟩
    · exact Or.inr ⟨by simpa [payload] using hne, a, k, hak, rfl, hk⟩
  · rintro (⟨rfl, hk⟩ | ⟨hne, a, k, hak, rfl, hk⟩)
    · exact ⟨_, n, (mem_cellsAt_free_iff hn hfits).mpr (Or.inl ⟨rfl, rfl⟩), rfl, hk⟩
    · have hne : a ≠ addrOf P := by simpa [payload] using hne
      exact ⟨a, k, (mem_cellsAt_free_iff hn hfits).mpr (Or.inr ⟨hne, hak⟩), rfl, hk⟩

/-- The cells besides the one at hand fit. -/
theorem RepWith.fits_rest {c : Cell} (hr : RepWith L h (P ++ c :: Q) ls) :
    ∀ d ∈ P ++ Q, d.Fits := by
  intro d hd
  rcases List.mem_append.mp hd with hd | hd
  · exact hr.fits d (List.mem_append_left _ hd)
  · exact hr.fits d (by simp [hd])

/-- A block becomes another one of the same size, and the lists change with it. -/
theorem RepWith.relabel {c d : Cell} {m : Mem} {ls' : ℕ → List ℕ}
    (hr : RepWith L h (P ++ c :: Q) ls) (hw : d.words = c.words) (hfits : d.Fits)
    (hok : ∀ x ∈ cellsAt heapStart (P ++ c :: Q), CellOk m x.1 x.2)
    (hd : CellOk m (addrOf P) c → CellOk m (addrOf P) d)
    (hlinked : ∀ i < 12, Linked (listNext m) (listPrev m) (nodes L i (ls' i)))
    (hends : ∀ i < 12, listPrev m (L.list i) = 0 ∧ listNext m (listEnd (L.list i)) = 0)
    (hnodup : ∀ i < 12, (ls' i).Nodup)
    (hmem : ∀ i < 12, ∀ p, p ∈ ls' i ↔ ∃ a k,
      (a, Cell.free k) ∈ cellsAt heapStart (P ++ d :: Q) ∧ p = payload a ∧ getSegIndex k = i) :
    RepWith L { h with mem := m } (P ++ d :: Q) ls' := by
  refine ⟨?_, hr.brk_le, ?_, ?_, hlinked, hends, hnodup, hmem⟩
  · simpa [addrOf, hw] using hr.brk_eq
  · intro c' hc
    rcases List.mem_append.mp hc with hc | hc
    · exact hr.fits c' (List.mem_append_left _ hc)
    · rcases List.mem_cons.mp hc with rfl | hc
      · exact hfits
      · exact hr.fits c' (by simp [hc])
  · rintro ⟨x, c'⟩ hx
    rcases mem_cellsAt_middle.mp hx with hx | ⟨rfl, rfl⟩ | hx
    · exact hok (x, c') (mem_cellsAt_middle.mpr (Or.inl hx))
    · exact hd (hok (addrOf P, c) (mem_cellsAt_middle.mpr (Or.inr (Or.inl ⟨rfl, rfl⟩))))
    · exact hok (x, c') (mem_cellsAt_middle.mpr (Or.inr (Or.inr (hw ▸ hx))))

/-- Writing to nodes only keeps what the cells say. -/
theorem RepWith.ok_of_nodes {cs : List Cell} (hr : RepWith L h cs ls) {m' : Mem}
    {S : ℕ → Prop} (hS : ∀ p, S p → IsNode L cs p)
    (hm : ∀ x, (∀ p, S p → ¬InNode p x) → m' x = h.mem x) {a : ℕ} {c : Cell}
    (ha : (a, c) ∈ cellsAt heapStart cs) : CellOk m' a c := by
  refine (hr.ok _ ha).congr (hr.bounds ha).2.2 fun x hx => hm x fun p hp hin => ?_
  exact hr.not_foot_of_inNode (hS p hp) hin ha hx

/-- A list keeps its links when only other nodes may have changed theirs. -/
theorem RepWith.linked_of_nodes {cs : List Cell} (hr : RepWith L h cs ls) {j : ℕ} {m : Mem}
    {S : ℕ → Prop} (hj : j < 12) (hS : ∀ p ∈ nodes L j (ls j), ¬S p)
    (hn : ∀ p, IsNode L cs p → ¬S p → listNext m p = listNext h.mem p)
    (hp : ∀ p, IsNode L cs p → ¬S p → listPrev m p = listPrev h.mem p) :
    Linked (listNext m) (listPrev m) (nodes L j (ls j)) := by
  refine (hr.linked j hj).congr (fun p hmem => ?_) fun p hmem => ?_
  · have hmem := List.dropLast_subset _ hmem
    exact hn p (hr.isNode_of_mem hj hmem) (hS p hmem)
  · have hmem := List.mem_of_mem_tail hmem
    exact hp p (hr.isNode_of_mem hj hmem) (hS p hmem)

/-- The neighbours of a free block on its list, and the list without the block. -/
theorem RepWith.neighbours {cs : List Cell} (hr : RepWith L h cs ls) {c : ℕ}
    (hmem : (c, Cell.free n) ∈ cellsAt heapStart cs) : ∃ X a b Y,
      nodes L (getSegIndex n) (ls (getSegIndex n)) = X ++ a :: payload c :: b :: Y ∧
      nodes L (getSegIndex n) ((ls (getSegIndex n)).erase (payload c)) = X ++ a :: b :: Y ∧
      listPrev h.mem (payload c) = a ∧ listNext h.mem (payload c) = b ∧
      a ≠ payload c ∧ b ≠ payload c ∧ a ≠ b := by
  have hi12 : getSegIndex n < 12 := getSegIndex_lt n
  obtain ⟨xs, ys, hls⟩ := List.append_of_mem
    ((hr.mem_iff _ hi12 (payload c)).mpr ⟨_, n, hmem, rfl, rfl⟩)
  have herase : (ls (getSegIndex n)).erase (payload c) = xs ++ ys := by
    have hnd := hr.nodup _ hi12
    rw [hls] at hnd ⊢
    have hxs : payload c ∉ xs := fun hx =>
      (List.nodup_append.mp hnd).2.2 _ hx _ List.mem_cons_self rfl
    rw [List.erase_append_right _ hxs, List.erase_cons_head]
  obtain ⟨X, a, b, Y, hnodes, hnodes'⟩ := exists_nodes_eq L (getSegIndex n) xs ys (payload c)
  rw [← hls] at hnodes
  rw [← herase] at hnodes'
  have hlink := hr.linked _ hi12
  have hnd := hr.nodup_nodes hi12
  rw [hnodes] at hlink hnd
  obtain ⟨-, hprev, hnext, -⟩ := hlink.links
  simp only [List.nodup_append, List.nodup_cons, List.mem_cons, not_or] at hnd
  obtain ⟨-, ⟨⟨h1, h2, -⟩, ⟨h3, -⟩, -⟩, -⟩ := hnd
  exact ⟨X, a, b, Y, hnodes, hnodes', hprev, hnext, h1, fun h => h3 h.symm, h2⟩

/-- A loose block is on no list. -/
theorem RepWith.loose_not_mem (hr : RepWith L h (P ++ .loose n :: Q) ls) {j : ℕ} (hj : j < 12) :
    payload (addrOf P) ∉ nodes L j (ls j) := by
  have hn8 : 8 ≤ n := hr.fits (.loose n) (by simp)
  have hfits := hr.fits_rest
  have hmem : (addrOf P, Cell.loose n) ∈ cellsAt heapStart (P ++ .loose n :: Q) :=
    mem_cellsAt_middle.mpr (Or.inr (Or.inl ⟨rfl, rfl⟩))
  intro hp
  simp only [nodes, List.mem_cons, List.mem_append, List.not_mem_nil, or_false] at hp
  have habove := L.above
  have hb := hr.bounds hmem
  simp only [payload, wsize, Cell.words] at hp hb
  rcases hp with hp | hp | hp
  · rw [FreeLists.list] at hp
    omega
  · obtain ⟨a, k, ha, hpa, -⟩ := (hr.mem_iff j hj _).mp hp
    refine free_ne_addrOf hn8 hfits ha ?_
    simp only [payload, wsize] at hpa
    omega
  · rw [listEnd, FreeLists.list] at hp
    omega

/-- The elements of the lists without a free block are the other free blocks. -/
theorem RepWith.mem_erase_iff (hr : RepWith L h (P ++ .free n :: Q) ls) {j p : ℕ} (hj : j < 12) :
    p ∈ Function.update ls (getSegIndex n) ((ls (getSegIndex n)).erase (payload (addrOf P))) j ↔
      ∃ a k, (a, Cell.free k) ∈ cellsAt heapStart (P ++ .loose n :: Q) ∧
        p = payload a ∧ getSegIndex k = j := by
  have hn8 : 8 ≤ n := hr.fits (.free n) (by simp)
  have hfits := hr.fits_rest
  have hiff := (hr.mem_iff j hj p).trans (exists_free_iff hn8 hfits)
  have hloose : (∃ a k, (a, Cell.free k) ∈ cellsAt heapStart (P ++ .loose n :: Q) ∧
      p = payload a ∧ getSegIndex k = j) → p ≠ payload (addrOf P) := by
    rintro ⟨a, k, hak, rfl, -⟩
    simpa [payload] using free_ne_addrOf hn8 hfits hak
  rcases eq_or_ne j (getSegIndex n) with rfl | hji
  · rw [Function.update_self, (hr.nodup _ hj).mem_erase_iff, hiff]
    constructor
    · rintro ⟨hpe, ⟨hp, -⟩ | ⟨-, hex⟩⟩
      · exact absurd hp hpe
      · exact hex
    · exact fun hex => ⟨hloose hex, Or.inr ⟨hloose hex, hex⟩⟩
  · rw [Function.update_of_ne hji, hiff]
    constructor
    · rintro (⟨-, hk⟩ | ⟨-, hex⟩)
      · exact absurd hk.symm hji
      · exact hex
    · exact fun hex => Or.inr ⟨hloose hex, hex⟩

/-- **`list_remove` makes a free block loose.** -/
theorem Rep.listRemove (hr : Rep L h (P ++ .free n :: Q)) :
    Rep L { h with mem := listRemove h.mem (payload (addrOf P)) } (P ++ .loose n :: Q) := by
  obtain ⟨ls, hr⟩ := hr
  have hi12 : getSegIndex n < 12 := getSegIndex_lt n
  have hn8 : 8 ≤ n := hr.fits (.free n) (by simp)
  have hmem : (addrOf P, Cell.free n) ∈ cellsAt heapStart (P ++ .free n :: Q) :=
    mem_cellsAt_middle.mpr (Or.inr (Or.inl ⟨rfl, rfl⟩))
  obtain ⟨X, a, b, Y, hnodes, hnodes', hprev, hnext, hne⟩ := hr.neighbours hmem
  have hlink := hr.linked _ hi12
  have hnd := hr.nodup_nodes hi12
  have hnode : ∀ p ∈ nodes L (getSegIndex n) (ls (getSegIndex n)), IsNode L _ p :=
    fun p hp => hr.isNode_of_mem hi12 hp
  rw [hnodes] at hlink hnd hnode
  have ha := hnode a (by simp)
  have hb := hnode b (by simp)
  have hapart : ∀ {p q}, IsNode L _ p → IsNode L _ q → p ≠ q → NodesApart p q :=
    fun hp hq hpq => (hr.isNode_apart hp hq).resolve_left hpq
  obtain ⟨hna, hpb, hn, hp, hframe⟩ := listRemove_links hprev hnext
    (hapart ha (hnode _ (by simp)) hne.1) (hapart hb (hnode _ (by simp)) hne.2.1)
    (hapart ha hb hne.2.2)
  -- the links of all other nodes stay
  have hnext' : ∀ p, IsNode L _ p → p ≠ a → listNext (AnglOS.listRemove h.mem _) p =
      listNext h.mem p := fun p hpn hpa => hn p (hapart hpn ha hpa) (hr.isNode_apart hpn hb)
  have hprev' : ∀ p, IsNode L _ p → p ≠ b → listPrev (AnglOS.listRemove h.mem _) p =
      listPrev h.mem p := fun p hpn hpb => hp p (hapart hpn hb hpb) (hr.isNode_apart hpn ha)
  refine ⟨Function.update ls (getSegIndex n) ((ls (getSegIndex n)).erase (payload (addrOf P))),
    hr.relabel rfl hn8 ?_ id ?_ ?_ ?_ ?_⟩
  · exact fun x hx => hr.ok_of_nodes (S := fun p => p = a ∨ p = b)
      (by rintro p (rfl | rfl) <;> assumption)
      (fun y hy => hframe y (hy a (Or.inl rfl)) (hy b (Or.inr rfl))) hx
  · intro j hj
    rcases eq_or_ne j (getSegIndex n) with rfl | hji
    · rw [Function.update_self, hnodes']
      exact hlink.remove hnd hna hpb (fun p hp => hnext' p (hnode p hp))
        fun p hp => hprev' p (hnode p hp)
    · rw [Function.update_of_ne hji]
      refine hr.linked_of_nodes (S := fun p => p = a ∨ p = b) hj ?_
        (fun p hp hpS => hnext' p hp fun hpa => hpS (Or.inl hpa))
        fun p hp hpS => hprev' p hp fun hpb => hpS (Or.inr hpb)
      rintro p hmem (hpS | hpS)
      · exact hji (hr.list_eq_of_mem hj hi12 hmem (by rw [hnodes, hpS]; simp))
      · exact hji (hr.list_eq_of_mem hj hi12 hmem (by rw [hnodes, hpS]; simp))
  · intro j hj
    have hhead : L.list j ≠ b := hr.ne_head hi12 (by
      rw [hnodes]
      cases X <;> simp)
    have htail : listEnd (L.list j) ≠ a := hr.ne_tail hi12 (by
      rw [hnodes, List.dropLast_append_of_ne_nil (by simp)]
      simp)
    rw [hprev' _ (isNode_head L _ hj) hhead, hnext' _ (isNode_tail L _ hj) htail]
    exact hr.ends j hj
  · intro j hj
    rcases eq_or_ne j (getSegIndex n) with rfl | hji
    · rw [Function.update_self]
      exact (hr.nodup _ hj).erase _
    · rw [Function.update_of_ne hji]
      exact hr.nodup j hj
  · exact fun j hj p => hr.mem_erase_iff hj

/-- The elements of the lists with a loose block are the free blocks and the block. -/
theorem RepWith.mem_push_iff (hr : RepWith L h (P ++ .loose n :: Q) ls) {j p : ℕ} (hj : j < 12) :
    p ∈ Function.update ls (getSegIndex n) (ls (getSegIndex n) ++ [payload (addrOf P)]) j ↔
      ∃ a k, (a, Cell.free k) ∈ cellsAt heapStart (P ++ .free n :: Q) ∧
        p = payload a ∧ getSegIndex k = j := by
  have hn8 : 8 ≤ n := hr.fits (.loose n) (by simp)
  have hfits := hr.fits_rest
  have hloose : p ∈ ls j → p ≠ payload (addrOf P) := by
    rintro hp rfl
    exact hr.loose_not_mem hj (by simp [nodes, hp])
  rw [exists_free_iff hn8 hfits, ← hr.mem_iff j hj p]
  rcases eq_or_ne j (getSegIndex n) with rfl | hji
  · rw [Function.update_self, List.mem_append, List.mem_singleton]
    constructor
    · rintro (hp | hp)
      · exact Or.inr ⟨hloose hp, hp⟩
      · exact Or.inl ⟨hp, rfl⟩
    · rintro (⟨hp, -⟩ | ⟨-, hp⟩)
      · exact Or.inr hp
      · exact Or.inl hp
  · rw [Function.update_of_ne hji]
    constructor
    · exact fun hp => Or.inr ⟨hloose hp, hp⟩
    · rintro (⟨-, hp⟩ | ⟨-, hp⟩)
      · exact absurd hp.symm hji
      · exact hp

/-- **`list_push_back` makes a loose block free.** -/
theorem Rep.listPushBack (hr : Rep L h (P ++ .loose n :: Q)) :
    Rep L { h with mem := listPushBack h.mem (L.list (getSegIndex n)) (payload (addrOf P)) }
      (P ++ .free n :: Q) := by
  obtain ⟨ls, hr⟩ := hr
  have hi12 : getSegIndex n < 12 := getSegIndex_lt n
  have hn8 : 8 ≤ n := hr.fits (.loose n) (by simp)
  have he : IsNode L (P ++ .loose n :: Q) (payload (addrOf P)) :=
    Or.inr ⟨_, n, Or.inr (mem_cellsAt_middle.mpr (Or.inr (Or.inl ⟨rfl, rfl⟩))), rfl⟩
  obtain ⟨X, a, hnodes, hnodes'⟩ := exists_nodes_last L (getSegIndex n) (ls (getSegIndex n))
  have hlink := hr.linked _ hi12
  have hnd := hr.nodup_nodes hi12
  have hnode : ∀ p ∈ nodes L (getSegIndex n) (ls (getSegIndex n)),
      IsNode L (P ++ .loose n :: Q) p ∧ p ≠ payload (addrOf P) :=
    fun p hp => ⟨hr.isNode_of_mem hi12 hp, fun hpe => hr.loose_not_mem hi12 (hpe ▸ hp)⟩
  rw [hnodes] at hlink hnd hnode
  obtain ⟨ha, hae⟩ := hnode a (by simp)
  obtain ⟨ht, hte⟩ := hnode (listEnd (L.list (getSegIndex n))) (by simp)
  have hapart : ∀ {p q}, IsNode L _ p → IsNode L _ q → p ≠ q → NodesApart p q :=
    fun hp hq hpq => (hr.isNode_apart hp hq).resolve_left hpq
  have hat : a ≠ listEnd (L.list (getSegIndex n)) := by
    simp only [List.nodup_append, List.nodup_cons, List.mem_cons, List.not_mem_nil,
      or_false] at hnd
    exact hnd.2.1.1
  obtain ⟨hna, hne, hpt, hpe, hn, hp, hframe⟩ := listInsert_links hlink.links_last.2
    (hr.isNode_lt he) (hr.isNode_lt ht) (hapart ha he hae) (hapart ht he hte) (hapart ha ht hat)
  rw [← AnglOS.listPushBack] at hna hne hpt hpe hn hp hframe
  -- the links of all other nodes stay
  have hnext' : ∀ p, IsNode L (P ++ .loose n :: Q) p → p ≠ payload (addrOf P) → p ≠ a →
      listNext (AnglOS.listPushBack h.mem _ _) p = listNext h.mem p := fun p hpn h1 h2 =>
    hn p (hapart hpn ha h2) (hapart hpn he h1) (hr.isNode_apart hpn ht)
  have hprev' : ∀ p, IsNode L (P ++ .loose n :: Q) p → p ≠ payload (addrOf P) →
      p ≠ listEnd (L.list (getSegIndex n)) →
      listPrev (AnglOS.listPushBack h.mem _ _) p = listPrev h.mem p := fun p hpn h1 h3 =>
    hp p (hr.isNode_apart hpn ha) (hapart hpn he h1) (hapart hpn ht h3)
  refine ⟨Function.update ls (getSegIndex n) (ls (getSegIndex n) ++ [payload (addrOf P)]),
    hr.relabel rfl hn8 ?_ id ?_ ?_ ?_ ?_⟩
  · exact fun x hx => hr.ok_of_nodes
      (S := fun p => p = a ∨ p = payload (addrOf P) ∨ p = listEnd (L.list (getSegIndex n)))
      (by rintro p (rfl | rfl | rfl) <;> assumption) (fun y hy => hframe y (hy a (Or.inl rfl))
        (hy _ (Or.inr (Or.inl rfl))) (hy _ (Or.inr (Or.inr rfl)))) hx
  · intro j hj
    rcases eq_or_ne j (getSegIndex n) with rfl | hji
    · rw [Function.update_self, hnodes']
      exact hlink.insert_last hnd hna hne hpt hpe (fun p hp hpa _ => hnext' p (hnode p hp).1
        (hnode p hp).2 hpa) fun p hp => hprev' p (hnode p hp).1 (hnode p hp).2
    · rw [Function.update_of_ne hji]
      refine hr.linked_of_nodes
        (S := fun p => p = payload (addrOf P) ∨ p = a ∨ p = listEnd (L.list (getSegIndex n)))
        hj ?_ (fun p hp hpS => hnext' p hp (fun h => hpS (Or.inl h)) fun h =>
          hpS (Or.inr (Or.inl h))) fun p hp hpS => hprev' p hp (fun h => hpS (Or.inl h))
          fun h => hpS (Or.inr (Or.inr h))
      rintro p hmem (hpS | hpS | hpS)
      · exact hr.loose_not_mem hj (hpS ▸ hmem)
      · exact hji (hr.list_eq_of_mem hj hi12 hmem (by rw [hnodes, hpS]; simp))
      · exact hji (hr.list_eq_of_mem hj hi12 hmem (by rw [hnodes, hpS]; simp))
  · intro j hj
    have hhead : L.list j ≠ payload (addrOf P) := fun hpe =>
      hr.loose_not_mem hj (by simp [nodes, ← hpe])
    have htail : listEnd (L.list j) ≠ payload (addrOf P) := fun hpe =>
      hr.loose_not_mem hj (by simp [nodes, ← hpe])
    have htail' : listEnd (L.list j) ≠ a := hr.ne_tail hi12 (by
      rw [hnodes, List.dropLast_append_of_ne_nil (by simp)]
      simp)
    have hhead' : L.list j ≠ listEnd (L.list (getSegIndex n)) := hr.ne_head hi12 (by simp [nodes])
    rw [hprev' _ (isNode_head L _ hj) hhead hhead', hnext' _ (isNode_tail L _ hj) htail htail']
    exact hr.ends j hj
  · intro j hj
    rcases eq_or_ne j (getSegIndex n) with rfl | hji
    · rw [Function.update_self, List.nodup_append]
      refine ⟨hr.nodup _ hj, List.nodup_singleton _, ?_⟩
      rintro p hp q hq rfl
      rw [List.mem_singleton] at hq
      exact hr.loose_not_mem hj (hq ▸ by simp [nodes, hp])
    · rw [Function.update_of_ne hji]
      exact hr.nodup j hj
  · exact fun j hj p => hr.mem_push_iff hj

end

end AnglOS
