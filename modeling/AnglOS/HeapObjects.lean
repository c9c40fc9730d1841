import AnglOS.HeapRun

/-!
# What the Heap Is For

To its callers the heap is a collection of objects: byte strings of the sizes that were asked for,
found by their pointers. `ObjectsStep` says what each call does to the objects, and nothing about
blocks, tags, and lists.

* `HeapClient.objects` — the objects that the heap holds in its memory.
* `ObjectsStep` — the calls on objects.

## Main results

* `heap_run_refines` — each run of the heap is a run of the same calls on objects.
-/

namespace AnglOS

/-- Objects by their pointers. -/
abbrev Objects := ℕ → Option (List (BitVec 8))

/-- The bytes from `p` on. -/
def HeapClient.contents (c : HeapClient) (p size : ℕ) : List (BitVec 8) :=
  (List.range size).map fun i => c.heap.mem (p + i)

/-- The objects of the live requests. -/
def HeapClient.objects (c : HeapClient) : Objects := fun p => (c.live p).map (c.contents p)

/-- What a call does to the objects. A request may be refused; a granted one is an object at a new
pointer, whose bytes are not determined or zero. A reallocation keeps as many bytes as the new size
has room for. -/
inductive ObjectsStep : HeapCall → Objects → Objects → Prop
  | kmalloc_refused {O : Objects} {size : ℕ} : ObjectsStep (.kmalloc size) O O
  | kmalloc {O : Objects} {size : ℕ} (q : ℕ) (bytes : List (BitVec 8)) (hnew : O q = none)
      (hsize : bytes.length = size) :
      ObjectsStep (.kmalloc size) O (Function.update O q (some bytes))
  | kcalloc_refused {O : Objects} {size : ℕ} : ObjectsStep (.kcalloc size) O O
  | kcalloc {O : Objects} {size : ℕ} (q : ℕ) (hnew : O q = none) :
      ObjectsStep (.kcalloc size) O (Function.update O q (some (List.replicate size 0)))
  | kfree {O : Objects} {p : ℕ} : ObjectsStep (.kfree p) O (Function.update O p none)
  | krealloc_refused {O : Objects} {p size : ℕ} (hsize : size ≠ 0) :
      ObjectsStep (.krealloc p size) O O
  | krealloc_free {O : Objects} {p : ℕ} :
      ObjectsStep (.krealloc p 0) O (Function.update O p none)
  | krealloc_new {O : Objects} {size : ℕ} (q : ℕ) (bytes : List (BitVec 8)) (hnew : O q = none)
      (hsize : bytes.length = size) :
      ObjectsStep (.krealloc 0 size) O (Function.update O q (some bytes))
  | krealloc {O : Objects} {p size : ℕ} {old : List (BitVec 8)} (q : ℕ) (bytes : List (BitVec 8))
      (hold : O p = some old) (hnew : q = p ∨ O q = none) (hsize : bytes.length = size)
      (hkept : old.take size <+: bytes) : ObjectsStep (.krealloc p size) O
        (Function.update (Function.update O p none) q (some bytes))
  | write {O : Objects} {p i : ℕ} {v : BitVec 8} {old : List (BitVec 8)} (hold : O p = some old)
      (hi : i < old.length) :
      ObjectsStep (.write p i v) O (Function.update O p (some (old.set i v)))

section

variable {L : FreeLists} {c c' : HeapClient} {bs bs' : List Cell} {p q r size : ℕ}

@[simp] theorem length_contents (c : HeapClient) (p size : ℕ) :
    (c.contents p size).length = size := by
  simp [HeapClient.contents]

theorem objects_of_live (h : c.live p = some size) : c.objects p = some (c.contents p size) := by
  rw [HeapClient.objects, h, Option.map_some]

theorem objects_of_none (h : c.live p = none) : c.objects p = none := by
  rw [HeapClient.objects, h, Option.map_none]

/-- The bytes of a live object that stayed in its block. -/
theorem HeapClient.Ok.contents_eq (hok : c.Ok L bs) (hok' : c'.Ok L bs') {a n : ℕ} {d : Mem}
    (hu : UsedAt bs a n d) (hu' : UsedAt bs' a n d) (hn : size + 16 ≤ 8 * n) :
    c'.contents (payload a) size = c.contents (payload a) size := by
  refine List.map_congr_left fun i hi => ?_
  have hlt := List.mem_range.mp hi
  refine hok.bytes_eq hok' hu hu' ?_ ?_ <;> simp only [payload, wsize] <;> omega

/-- No object is at the null pointer. -/
theorem HeapClient.Ok.update_objects_zero (hok : c.Ok L bs) :
    Function.update c.objects 0 none = c.objects :=
  Function.update_eq_self_iff.mpr (objects_of_none hok.live_zero).symm

/-- **Objects that are not the argument of a call stay.** -/
theorem HeapClient.Ok.objects_eq (hok : c.Ok L bs) (hok' : c'.Ok L bs')
    (hkeep : Keeps c c' bs bs' p) (hr : r ≠ p ∨ p = 0)
    (hnone : c.live r = none → c'.live r = none) : c'.objects r = c.objects r := by
  cases hlive : c.live r with
  | none => rw [objects_of_none (hnone hlive), objects_of_none hlive]
  | some s =>
    have hne : r ≠ p := by
      rcases hr with hr | rfl
      · exact hr
      · rintro rfl
        rw [hok.live_zero] at hlive
        cases hlive
    obtain ⟨a, n, d, rfl, hu, hn⟩ := hok.used_of_live r s hlive
    rw [objects_of_live hlive, objects_of_live (hkeep.live _ s hne hlive),
      hok.contents_eq hok' hu (hkeep.used a n d hne hu) hn]

/-- A call that ends a request and grants one. -/
theorem HeapClient.Ok.objects_move (hok : c.Ok L bs) (hok' : c'.Ok L bs')
    (hkeep : Keeps c c' bs bs' p)
    (hlive : c'.live = Function.update (Function.update c.live p none) q (some size)) :
    c'.objects = Function.update (Function.update c.objects p none) q
      (some (c'.contents q size)) := by
  funext r
  by_cases hq : r = q
  · rw [hq, Function.update_self]
    exact objects_of_live (by rw [hlive, Function.update_self])
  · rw [Function.update_of_ne hq]
    by_cases hp : r = p
    · rw [hp, Function.update_self]
      refine objects_of_none ?_
      rw [hlive, Function.update_of_ne (hp ▸ hq), Function.update_self]
    · rw [Function.update_of_ne hp]
      refine hok.objects_eq hok' hkeep (Or.inl hp) fun hnone => ?_
      rw [hlive, Function.update_of_ne hq, Function.update_of_ne hp, hnone]

/-- A call that grants a request at a new pointer. -/
theorem HeapClient.Ok.objects_grant (hok : c.Ok L bs) (hok' : c'.Ok L bs')
    (hkeep : Keeps c c' bs bs' 0) (hlive : c'.live = Function.update c.live q (some size)) :
    c'.objects = Function.update c.objects q (some (c'.contents q size)) := by
  have hzero : Function.update c.live 0 none = c.live :=
    Function.update_eq_self_iff.mpr hok.live_zero.symm
  rw [hok.objects_move hok' hkeep (by rw [hzero, hlive]), hok.update_objects_zero]

/-- A call that changes no live request. -/
theorem HeapClient.Ok.objects_same (hok : c.Ok L bs) (hok' : c'.Ok L bs')
    (hkeep : Keeps c c' bs bs' 0) (hlive : c'.live = c.live) : c'.objects = c.objects :=
  funext fun r => hok.objects_eq hok' hkeep (Or.inr rfl) fun hnone => by rw [hlive, hnone]

/-- A call that ends a request. -/
theorem HeapClient.Ok.objects_release (hok : c.Ok L bs) (hok' : c'.Ok L bs')
    (hkeep : Keeps c c' bs bs' p) (hlive : c'.live = Function.update c.live p none) :
    c'.objects = Function.update c.objects p none := by
  funext r
  by_cases hr : r = p
  · rw [hr, Function.update_self]
    exact objects_of_none (by rw [hlive, Function.update_self])
  · rw [Function.update_of_ne hr]
    refine hok.objects_eq hok' hkeep (Or.inl hr) fun hnone => ?_
    rw [hlive, Function.update_of_ne hr, hnone]

/-- **A request** is refused and changes nothing, or grants a new object. -/
theorem HeapClient.Ok.objects_kmalloc (hok : c.Ok L bs) (hs : roundedSize size < 2 ^ 31) :
    (c.exec L (.kmalloc size)).objects = c.objects ∨ ∃ q, c.objects q = none ∧
      (c.exec L (.kmalloc size)).objects = Function.update c.objects q
        (some ((c.exec L (.kmalloc size)).contents q size)) := by
  rcases hok.rest.kmalloc hs with heq | ⟨bs', a, n, d, hret, hrest, hone, hn⟩
  · left
    simp only [HeapClient.exec, heq, AnglOS.grant, if_true]
  · right
    obtain ⟨hok', hkeep⟩ := hok.grant_new hrest hone hn
    have hexec : c.exec L (.kmalloc size) = ⟨(kmalloc L c.heap size).2,
        Function.update c.live (payload a) (some size)⟩ := by
      simp [HeapClient.exec, AnglOS.grant, hret, payload_ne_zero]
    rw [hexec]
    exact ⟨payload a, objects_of_none (hok.live_fresh hone.fresh),
      hok.objects_grant hok' hkeep rfl⟩

/-- **A cleared request** is refused, or grants a new object of zeros. -/
theorem HeapClient.Ok.objects_kcalloc (hok : c.Ok L bs) (hs : roundedSize size < 2 ^ 31) :
    ObjectsStep (.kcalloc size) c.objects (c.exec L (.kcalloc size)).objects := by
  rcases hok.rest.kcalloc hs with ⟨h0, hrest⟩ | ⟨bs', a, n, d, hret, hrest, hone, hn, hzero⟩
  · obtain ⟨bs', hok', hkeep⟩ := hok.grant (Or.inl ⟨h0, hrest⟩)
    have hlive : (c.exec L (.kcalloc size)).live = c.live := by
      simp only [HeapClient.exec, h0, AnglOS.grant, if_true]
    have hsame : (c.exec L (.kcalloc size)).objects = c.objects :=
      hok.objects_same hok' hkeep hlive
    rw [hsame]
    exact .kcalloc_refused
  · obtain ⟨hok', hkeep⟩ := hok.grant_new hrest hone hn
    have hexec : c.exec L (.kcalloc size) = ⟨(kcalloc L c.heap size).2,
        Function.update c.live (payload a) (some size)⟩ := by
      simp [HeapClient.exec, AnglOS.grant, hret, payload_ne_zero]
    rw [hexec, hok.objects_grant hok' hkeep rfl]
    have hzeros : HeapClient.contents ⟨(kcalloc L c.heap size).2,
        Function.update c.live (payload a) (some size)⟩ (payload a) size =
          List.replicate size 0 := by
      refine List.eq_replicate_iff.mpr ⟨length_contents _ _ _, fun b hb => ?_⟩
      obtain ⟨i, hi, rfl⟩ := List.mem_map.mp hb
      have hlt := List.mem_range.mp hi
      exact (hrest.rep.payload_eq hone.usedAt (by omega)).trans (hzero i hlt)
    rw [hzeros]
    exact .kcalloc _ (objects_of_none (hok.live_fresh hone.fresh))

/-- **A release** ends its object. -/
theorem HeapClient.Ok.objects_kfree (hok : c.Ok L bs) {k : HeapCall} (hk : k = .kfree p)
    (hallowed : k.Allowed c) :
    (c.exec L k).objects = Function.update c.objects p none := by
  obtain ⟨bs', hok', hkeep⟩ := hok.exec hallowed
  subst hk
  exact hok.objects_release hok' hkeep rfl

/-- **A reallocation** of a live object. -/
theorem HeapClient.Ok.objects_krealloc (hok : c.Ok L bs) {old : ℕ} (hold : c.live p = some old)
    (hsize : size ≠ 0) (hs : roundedSize size < 2 ^ 31) :
    ObjectsStep (.krealloc p size) c.objects (c.exec L (.krealloc p size)).objects := by
  obtain ⟨a, n, d, rfl, hu, hn⟩ := hok.used_of_live p old hold
  obtain ⟨bs', hok', hkeep, hdone⟩ := hok.krealloc hu hsize hs
  generalize c.exec L (.krealloc (payload a) size) = c' at hok' hkeep hdone ⊢
  rcases hdone with ⟨-, hsame, hlive⟩ | ⟨a', n', d', -, hswap, hn', hd, hlive⟩
  · -- the block stays as it is
    have hobjects : c'.objects = c.objects := by
      funext r
      by_cases hr : r = payload a
      · rw [hr, objects_of_live hold, objects_of_live (hlive ▸ hold),
          hok.contents_eq hok' hu ((hsame a n d).mp hu) hn]
      · exact hok.objects_eq hok' hkeep (Or.inl hr) fun hnone => by rw [hlive, hnone]
    rw [hobjects]
    exact .krealloc_refused hsize
  · have hnew : UsedAt bs' a' n' d' := (hswap.iff a' n' d').mpr (Or.inr ⟨rfl, rfl, rfl⟩)
    rw [hok.objects_move hok' hkeep hlive]
    refine .krealloc _ _ (objects_of_live hold) ?_ (length_contents _ _ _) ?_
    · by_cases haa : a' = a
      · exact Or.inl (by rw [haa])
      · exact Or.inr (objects_of_none (hok.live_fresh fun k e hke => haa (hswap.fresh k e hke)))
    · -- the bytes that both sizes have room for
      have htake : (c.contents (payload a) old).take size =
          (c'.contents (payload a') size).take (min size old) := by
        rw [HeapClient.contents, HeapClient.contents, ← List.map_take, ← List.map_take,
          List.take_range, List.take_range, min_eq_left (min_le_left size old)]
        refine List.map_congr_left fun i hi => ?_
        have hlt := List.mem_range.mp hi
        rw [hok'.rest.rep.payload_eq hnew (by omega), hd i (by omega) (by omega),
          hok.rest.rep.payload_eq hu (by omega)]
      rw [htake]
      exact List.take_prefix _ _

/-- **A write** assigns a byte of its object. -/
theorem HeapClient.Ok.objects_write (hok : c.Ok L bs) {i : ℕ} {v : BitVec 8}
    (hp : c.live p = some size) (hi : i < size) :
    ObjectsStep (.write p i v) c.objects (c.exec L (.write p i v)).objects := by
  obtain ⟨bs', hok', hkeep⟩ := hok.exec (k := .write p i v) ⟨size, hp, hi⟩
  have hlive : (c.exec L (.write p i v)).live = c.live := rfl
  have hcontents : (c.exec L (.write p i v)).contents p size = (c.contents p size).set i v := by
    refine List.ext_getElem (by simp) fun j h1 h2 => ?_
    rw [length_contents] at h1
    simp only [HeapClient.contents, HeapClient.exec, List.getElem_map, List.getElem_range,
      List.getElem_set]
    by_cases hij : i = j
    · rw [if_pos hij, hij, Mem.store8_self]
    · rw [if_neg hij, Mem.store8_of_ne (by omega)]
  have hobjects : (c.exec L (.write p i v)).objects = Function.update c.objects p
      (some ((c.contents p size).set i v)) := by
    funext r
    by_cases hr : r = p
    · rw [hr, Function.update_self, objects_of_live (hlive ▸ hp), hcontents]
    · rw [Function.update_of_ne hr]
      exact hok.objects_eq hok' hkeep (Or.inl hr) fun hnone => by rw [hlive, hnone]
  rw [hobjects]
  exact .write (objects_of_live hp) (by rwa [length_contents])

/-- **Each call on the heap is one on the objects.** -/
theorem HeapClient.Ok.objectsStep (hok : c.Ok L bs) {k : HeapCall} (hk : k.Allowed c) :
    ObjectsStep k c.objects (c.exec L k).objects := by
  cases k with
  | kmalloc size =>
    rcases hok.objects_kmalloc hk with heq | ⟨q, hnew, heq⟩
    · rw [heq]
      exact .kmalloc_refused
    · rw [heq]
      exact .kmalloc q _ hnew (length_contents _ _ _)
  | kcalloc size => exact hok.objects_kcalloc hk
  | kfree p =>
    rw [hok.objects_kfree rfl hk]
    exact .kfree
  | krealloc p size =>
    obtain ⟨hs, rfl | ⟨old, hold⟩⟩ := hk
    · have hexec : c.exec L (.krealloc 0 size) = c.exec L (.kmalloc size) := by
        have hlive : Function.update c.live 0 none = c.live :=
          Function.update_eq_self_iff.mpr hok.live_zero.symm
        simp only [HeapClient.exec, hlive, AnglOS.krealloc, if_true, AnglOS.grant]
        split_ifs with h1 h2 h3 <;> first | rfl | omega
      rw [hexec]
      rcases hok.objects_kmalloc hs with heq | ⟨q, hnew, heq⟩
      · by_cases hsize : size = 0
        · have hfree : ObjectsStep (.krealloc 0 0) c.objects (Function.update c.objects 0 none) :=
            .krealloc_free
          rw [hok.update_objects_zero] at hfree
          rwa [heq, hsize]
        · rw [heq]
          exact .krealloc_refused hsize
      · rw [heq]
        exact .krealloc_new q _ hnew (length_contents _ _ _)
    · by_cases hsize : size = 0
      · have hne : p ≠ 0 := by
          rintro rfl
          rw [hok.live_zero] at hold
          cases hold
        have hexec : c.exec L (.krealloc p 0) = c.exec L (.kfree p) := by
          simp [HeapClient.exec, AnglOS.krealloc, hne, AnglOS.grant]
        rw [hsize, hexec, hok.objects_kfree rfl (Or.inr ⟨old, hold⟩)]
        exact .krealloc_free
      · exact hok.objects_krealloc hold hsize hs
  | write p i v =>
    obtain ⟨size, hp, hi⟩ := hk
    exact hok.objects_write hp hi

end

/-- **The heap is a collection of objects**: every run of requests, releases, reallocations and
writes on the heap in memory is a run of the same calls on objects, from none at the start to those
that the live requests hold at the end. -/
theorem heap_run_refines {L : FreeLists} {h : Heap} (hbrk : h.memBrk = kheapBase)
    {ks : List HeapCall} {c : HeapClient}
    (hrun : Run (HeapClient.step L) (HeapClient.init L h) ks c) :
    Run ObjectsStep (fun _ => none) ks c.objects := by
  obtain ⟨bs, hok⟩ := HeapClient.ok_of_run hbrk (Run.nil (HeapClient.init L h))
  obtain ⟨O, hobjects, -, rfl⟩ := hrun.simulate
    (R := fun c O => (∃ bs, c.Ok L bs) ∧ O = c.objects)
    (fun k c c' O hR hstep => by
      obtain ⟨⟨bs, hok⟩, rfl⟩ := hR
      obtain ⟨hk, rfl⟩ := hstep
      obtain ⟨bs', hok', -⟩ := hok.exec hk
      exact ⟨_, hok.objectsStep hk, ⟨bs', hok'⟩, rfl⟩) ⟨⟨bs, hok⟩, rfl⟩
  exact hobjects

/-- Two requests. -/
theorem heap_run_refines_two : ∃ O, Run ObjectsStep (fun _ => none)
    ([] ++ [.kmalloc 24] ++ [.kcalloc 100]) O := by
  have h24 : roundedSize 24 < 2 ^ 31 := by decide
  have h100 : roundedSize 100 < 2 ^ 31 := by decide
  have hrun : Run (HeapClient.step imageLists) (HeapClient.init imageLists zeroHeap)
      ([] ++ [.kmalloc 24] ++ [.kcalloc 100]) _ :=
    ((Run.nil _).snoc ⟨h24, rfl⟩).snoc ⟨h100, rfl⟩
  exact ⟨_, heap_run_refines rfl hrun⟩

end AnglOS
