import AnglOS.AddressSpace
import AnglOS.SchedQueue

/-!
# Thread Stacks

Where the four stacks of a thread lie. `threadCreate` computes them from the number of the
thread alone: each kind of stack has its own area, in which consecutive threads are 16 MiB
apart, and the three kernel areas are 4 GiB apart. The areas therefore run into each other
after 256 threads, and nothing bounds the numbers.

## Main results

`stacks_apart_iff`: after a run, the stacks are pairwise disjoint, in their halves of the
address space, and on pages of their own if and only if at most 256 threads were created.
-/

namespace AnglOS

/-- `STACK_SIZE`. -/
abbrev stackSize : ℕ := 2 * pageSize

/-- The stacks of a thread in the kernel half. -/
inductive StackKind
  | ker
  | irq
  | isr
  deriving DecidableEq

/-- The end of the stack of thread 0. -/
def StackKind.start : StackKind → ℕ
  | .ker => kerstackStart
  | .irq => irqstackStart
  | .isr => isrstackStart

/-- The end of a kernel stack of a thread. -/
def StackKind.top (x : Thread) : StackKind → ℕ
  | .ker => x.kerStack
  | .irq => x.irqStack
  | .isr => x.isrStack

/-- The address belongs to the stack that ends at `top`. -/
def InStack (top a : ℕ) : Prop := sub64 top stackSize ≤ a ∧ a < top

/-- The pages that `threadCreate` maps for the stack that ends at `top`. -/
def stackPages (top : ℕ) : Set ℕ := entryPages stackSize (sub64 top stackSize)

/-- Thread stacks never overlap: two different kernel stacks share no address, kernel stacks
lie between the start of the kernel half and `kernel_base`, user stacks in the lower half, and
no page that is mapped for a stack holds an address of a kernel stack of another thread. -/
structure StacksApart (s : Sched) : Prop where
  /-- Two different kernel stacks share no address. -/
  disjoint : ∀ t < s.created, ∀ u < s.created, ∀ k l : StackKind, (k, t) ≠ (l, u) →
    ∀ a, ¬(InStack (k.top (s.thread t)) a ∧ InStack (l.top (s.thread u)) a)
  /-- Kernel stacks lie in the kernel half, below `kernel_base`. -/
  kernel : ∀ t < s.created, ∀ k : StackKind,
    pageDirectBase ≤ sub64 (k.top (s.thread t)) stackSize ∧
      sub64 (k.top (s.thread t)) stackSize + stackSize = k.top (s.thread t) ∧
      k.top (s.thread t) ≤ kernelBase
  /-- User stacks lie in the canonical lower half. -/
  user : ∀ t < s.created,
    sub64 (s.thread t).usrStack stackSize + stackSize = (s.thread t).usrStack ∧
      (s.thread t).usrStack ≤ 2 ^ 47
  /-- No page mapped for a stack belongs to a kernel stack of another thread. -/
  unmapped : ∀ t < s.created, ∀ u < s.created, t ≠ u → ∀ l : StackKind, ∀ a,
    InStack (l.top (s.thread u)) a →
      alignToPage a ∉ stackPages (s.thread t).usrStack ∧
        ∀ k : StackKind, alignToPage a ∉ stackPages (k.top (s.thread t))

/-! ### The numbers of the threads -/

/-- The stacks of all threads are where `threadCreate` put them, and threads are numbered in
the order of their creation. -/
structure Numbered (s : Sched) : Prop where
  /-- The next number. -/
  next : s.nextThreadId = s.created % 2 ^ 64
  /-- The user stacks. -/
  usr : ∀ t < s.created,
    (s.thread t).usrStack = (usrstackStart + 0x1000000 * (t % 2 ^ 64)) % 2 ^ 64
  /-- The kernel stacks. -/
  top : ∀ t < s.created, ∀ k : StackKind,
    k.top (s.thread t) = (k.start + 0x1000000 * (t % 2 ^ 64)) % 2 ^ 64

/-- The stacks stay where they are when nothing but other fields of threads change. -/
theorem Numbered.congr {s s' : Sched} (h : Numbered s) (hc : s'.created = s.created)
    (hn : s'.nextThreadId = s.nextThreadId)
    (ht : ∀ t, (s'.thread t).usrStack = (s.thread t).usrStack ∧
      ∀ k : StackKind, k.top (s'.thread t) = k.top (s.thread t)) : Numbered s' where
  next := by rw [hn, hc, h.next]
  usr := fun t hlt => by rw [(ht t).1, h.usr t (hc ▸ hlt)]
  top := fun t hlt k => by rw [(ht t).2 k, h.top t (hc ▸ hlt) k]

/-- An assignment to a thread that keeps its stacks. -/
theorem setThread_stacks (s : Sched) (t : ℕ) (x : Thread)
    (hx : x.usrStack = (s.thread t).usrStack ∧ ∀ k : StackKind, k.top x = k.top (s.thread t))
    (u : ℕ) : ((s.setThread t x).thread u).usrStack = (s.thread u).usrStack ∧
      ∀ k : StackKind, k.top ((s.setThread t x).thread u) = k.top (s.thread u) := by
  rcases eq_or_ne u t with rfl | h
  · have hself : (s.setThread u x).thread u = x := Function.update_self _ _ _
    rw [hself]
    exact hx
  · have hother : (s.setThread t x).thread u = s.thread u := Function.update_of_ne h _ _
    rw [hother]
    exact ⟨rfl, fun _ => rfl⟩

/-- An assignment to the state of a thread leaves its stacks alone. -/
theorem setState_stacks (s : Sched) (t : ℕ) (st : ThreadState) (u : ℕ) :
    ((s.setState t st).thread u).usrStack = (s.thread u).usrStack ∧
      ∀ k : StackKind, k.top ((s.setState t st).thread u) = k.top (s.thread u) := by
  refine setThread_stacks s t { s.thread t with state := st } ⟨rfl, fun k => ?_⟩ u
  cases k <;> rfl

/-- Charging a thread leaves its stacks alone. -/
theorem charge_stacks (s : Sched) (u : ℕ) :
    (s.charge.thread u).usrStack = (s.thread u).usrStack ∧
      ∀ k : StackKind, k.top (s.charge.thread u) = k.top (s.thread u) := by
  unfold Sched.charge
  cases s.current with
  | none => exact ⟨rfl, fun _ => rfl⟩
  | some t =>
      refine setThread_stacks s t { s.thread t with
        runtime := ((s.thread t).runtime + s.tickMicroseconds) % 2 ^ 64 } ⟨rfl, fun k => ?_⟩ u
      cases k <;> rfl

/-- `threadCreate` numbers the new thread and puts its stacks in place. -/
theorem Numbered.create {s s' : Sched} {gs priority parent : ℕ} (h : Numbered s)
    (hc : threadCreate s gs priority parent = some s') : Numbered s' := by
  obtain ⟨m, -, rfl⟩ := Option.map_eq_some_iff.mp hc
  have hold : ∀ (x : Thread) t, t < s.created →
      Function.update s.thread s.created x t = s.thread t :=
    fun x t ht => Function.update_of_ne ht.ne _ _
  refine ⟨?_, fun t ht => ?_, fun t ht k => ?_⟩
  · simp only [h.next]
    omega
  · rcases Nat.lt_succ_iff_lt_or_eq.mp ht with ht | rfl
    · simp only [hold _ t ht]
      exact h.usr t ht
    · simp only [Function.update_self, h.next]
  · rcases Nat.lt_succ_iff_lt_or_eq.mp ht with ht | rfl
    · simp only [hold _ t ht]
      exact h.top t ht k
    · cases k <;> simp only [StackKind.top, StackKind.start, Function.update_self, h.next]

/-- Rescheduling leaves the numbers and the stacks alone. -/
theorem Numbered.next_thread {s s' : Sched} (h : Numbered s) (hn : threadNext s = some s') :
    Numbered s' := by
  unfold threadNext at hn
  simp only [Option.bind_eq_bind, Option.bind_eq_some_iff] at hn
  obtain ⟨cur, -, -, -, u, -, hn⟩ := hn
  have hcur := setState_stacks { s with contextSwitches := s.contextSwitches + 1 } cur .ready
  have hboth := fun t => setState_stacks
    (({ s with contextSwitches := s.contextSwitches + 1 } : Sched).setState cur .ready) u .running t
  have hall : ∀ t, _ := fun t =>
    And.intro ((hboth t).1.trans (hcur t).1) fun k => ((hboth t).2 k).trans ((hcur t).2 k)
  split_ifs at hn
  · obtain rfl := Option.some.inj hn
    exact h.congr rfl rfl hall
  · obtain rfl := Option.some.inj hn
    exact h.congr rfl rfl hall

/-- **Every call keeps the numbers and the stacks**, but for `threadCreate`, which adds to
them. -/
theorem Numbered.step {s s' : Sched} {c : SchedCall} (h : Numbered s) (hs : SchedStep c s s') :
    Numbered s' := by
  obtain ⟨-, hrun⟩ := hs
  cases c with
  | create gs priority parent => exact h.create hrun
  | schedule t =>
      obtain rfl := Option.some.inj hrun
      cases t with
      | none => exact h
      | some t => exact h.congr rfl rfl (setState_stacks s t .ready)
  | block t =>
      obtain rfl := Option.some.inj hrun
      cases t with
      | none => exact h
      | some t => exact h.congr rfl rfl (setState_stacks s t .blocked)
  | kill t =>
      obtain rfl := Option.some.inj hrun
      cases t with
      | none => exact h
      | some t => exact h.congr rfl rfl (setState_stacks s t .dying)
  | select t =>
      obtain rfl := Option.some.inj hrun
      cases t with
      | none => exact h
      | some t => exact h.congr rfl rfl (setState_stacks s t .running)
  | tick userGS kernGS =>
      unfold SchedCall.run irqThreadTimerHandler at hrun
      set s₁ : Sched :=
        { s with userGS := userGS, kernGS := kernGS, timerTicks := s.timerTicks + 1 } with hs₁
      have hcharge : Numbered s₁.charge := by
        refine h.congr (charge_spec s₁).2.1 ?_ (charge_stacks s₁)
        unfold Sched.charge
        cases s₁.current <;> rfl
      simp only at hrun
      split_ifs at hrun
      · exact hcharge.next_thread hrun
      · obtain rfl := Option.some.inj hrun
        exact hcharge

/-- The threads of a run are numbered in the order of their creation. -/
theorem Numbered.of_run {s₀ s : Sched} {cs : List SchedCall}
    (h : Run SchedStep s₀.start cs s) : Numbered s := by
  refine Run.invariant (O := fun _ => True) (P := Numbered) ?_ h (fun _ _ => trivial) ?_
  · exact fun c s s' _ hs hstep => hs.step hstep
  · exact ⟨rfl, fun t ht => absurd ht (Nat.not_lt_zero t),
      fun t ht => absurd ht (Nat.not_lt_zero t)⟩

/-! ### Overlap -/

/-- The three areas are 4 GiB apart and aligned to pages. -/
theorem StackKind.start_eq (k : StackKind) :
    ∃ j < 3, k.start = kerstackStart + 0x100000000 * j ∧
      ∀ l : StackKind, l.start = k.start → l = k := by
  cases k with
  | ker => exact ⟨0, by decide, rfl, fun l hl => by cases l <;> simp_all [StackKind.start]⟩
  | irq => exact ⟨1, by decide, rfl, fun l hl => by cases l <;> simp_all [StackKind.start]⟩
  | isr => exact ⟨2, by decide, rfl, fun l hl => by cases l <;> simp_all [StackKind.start]⟩

/-- The first 256 threads: nothing wraps. -/
theorem Numbered.top_eq {s : Sched} (h : Numbered s) (hc : s.created ≤ 256) {t : ℕ}
    (ht : t < s.created) (k : StackKind) :
    k.top (s.thread t) = k.start + 0x1000000 * t := by
  obtain ⟨j, hj, hstart, -⟩ := k.start_eq
  rw [h.top t ht k, hstart, Nat.mod_eq_of_lt (show t < 2 ^ 64 by omega), Nat.mod_eq_of_lt]
  simp only [kerstackStart]
  omega

/-- The user stacks of the first 256 threads. -/
theorem Numbered.usr_eq {s : Sched} (h : Numbered s) (hc : s.created ≤ 256) {t : ℕ}
    (ht : t < s.created) : (s.thread t).usrStack = usrstackStart + 0x1000000 * t := by
  rw [h.usr t ht, Nat.mod_eq_of_lt (show t < 2 ^ 64 by omega), Nat.mod_eq_of_lt]
  simp only [usrstackStart]
  omega

/-- Every address of a page that is mapped for a page-aligned stack belongs to the stack. -/
theorem inStack_of_mem_stackPages {top a : ℕ} (hlt : top < 2 ^ 64) (hle : stackSize ≤ top)
    (hal : top % pageSize = 0) (h : alignToPage a ∈ stackPages top) : InStack top a := by
  obtain ⟨i, hi, ha⟩ := h
  have hi : i < 2 := hi
  rw [sub64_eq hlt hle] at ha
  rw [InStack, sub64_eq hlt hle]
  simp only [alignToPage, add64, stackSize, pageSize] at *
  omega

/-- Up to 256 threads have their stacks apart. -/
theorem Numbered.stacksApart {s : Sched} (h : Numbered s) (hc : s.created ≤ 256) :
    StacksApart s := by
  have hrange : ∀ t < s.created, ∀ k : StackKind, pageDirectBase ≤ k.top (s.thread t) - stackSize ∧
      k.top (s.thread t) ≤ kernelBase ∧ k.top (s.thread t) % pageSize = 0 := by
    intro t ht k
    obtain ⟨j, hj, hstart, -⟩ := k.start_eq
    rw [h.top_eq hc ht k, hstart]
    simp only [kerstackStart, pageDirectBase, kernelBase, stackSize, pageSize]
    omega
  have hsub : ∀ t < s.created, ∀ k : StackKind,
      sub64 (k.top (s.thread t)) stackSize = k.top (s.thread t) - stackSize := by
    intro t ht k
    obtain ⟨h1, h2, -⟩ := hrange t ht k
    simp only [pageDirectBase, kernelBase, stackSize, pageSize] at h1 h2 ⊢
    exact sub64_eq (by omega) (by omega)
  have hdisj : ∀ t < s.created, ∀ u < s.created, ∀ k l : StackKind, (k, t) ≠ (l, u) →
      ∀ a, ¬(InStack (k.top (s.thread t)) a ∧ InStack (l.top (s.thread u)) a) := by
    rintro t ht u hu k l hne a ⟨ha, ha'⟩
    rw [InStack, hsub t ht, h.top_eq hc ht] at ha
    rw [InStack, hsub u hu, h.top_eq hc hu] at ha'
    obtain ⟨j, hj, hk, -⟩ := k.start_eq
    obtain ⟨j', hj', hl, hinj⟩ := l.start_eq
    rw [hk] at ha
    rw [hl] at ha'
    simp only [kerstackStart, stackSize, pageSize] at ha ha'
    -- the two stacks overlap only if both the area and the thread are the same
    have hjj : j = j' ∧ t = u := by omega
    exact hne (Prod.ext (hinj k (by rw [hk, hl, hjj.1])) hjj.2)
  refine ⟨hdisj, fun t ht k => ?_, fun t ht => ?_,
    fun t ht u hu htu l a ha => ⟨?_, fun k hmem => ?_⟩⟩
  · obtain ⟨h1, h2, -⟩ := hrange t ht k
    rw [hsub t ht]
    simp only [pageDirectBase, kernelBase, stackSize, pageSize] at h1 h2 ⊢
    omega
  · rw [h.usr_eq hc ht, sub64_eq]
    all_goals
      simp only [usrstackStart, stackSize, pageSize]
      omega
  · intro hmem
    have husr := h.usr_eq hc ht
    have hin := inStack_of_mem_stackPages (by rw [husr]; simp only [usrstackStart]; omega)
      (by rw [husr]; simp only [usrstackStart, stackSize, pageSize]; omega)
      (by rw [husr]; simp only [usrstackStart, pageSize]; omega) hmem
    obtain ⟨h1, -, -⟩ := hrange u hu l
    rw [InStack, hsub u hu] at ha
    rw [InStack, husr] at hin
    simp only [usrstackStart, pageDirectBase, stackSize, pageSize] at h1 ha hin
    omega
  · obtain ⟨h1, h2, h3⟩ := hrange t ht k
    have hin := inStack_of_mem_stackPages (by simp only [kernelBase] at h2; omega)
      (by simp only [pageDirectBase, stackSize, pageSize] at h1 ⊢; omega) h3 hmem
    exact hdisj t ht u hu k l (fun heq => htu (Prod.ext_iff.mp heq).2) a ⟨hin, ha⟩

/-- **Thread stacks are apart exactly up to 256 threads.** In every run from `initThread` on,
the stacks of the created threads are disjoint, in their halves of the address space, and on
pages that no other thread's stack is mapped to if and only if at most 256 threads were
created: the interrupt stack of thread 0 is the kernel stack of thread 256. -/
theorem stacks_apart_iff {s₀ s : Sched} {cs : List SchedCall}
    (h : Run SchedStep s₀.start cs s) : StacksApart s ↔ s.created ≤ 256 := by
  have hn := Numbered.of_run h
  refine ⟨fun hapart => ?_, hn.stacksApart⟩
  by_contra hc
  have hirq := hn.top 0 (by omega) .irq
  have hker := hn.top 256 (by omega) .ker
  have hsame : StackKind.top (s.thread 0) .irq = StackKind.top (s.thread 256) .ker := by
    rw [hirq, hker]
    rfl
  refine hapart.disjoint 0 (by omega) 256 (by omega) .irq .ker (by simp)
    (StackKind.top (s.thread 0) .irq - 1) ⟨?_, ?_⟩
  · rw [InStack, hirq]
    decide
  · rw [← hsame, InStack, hirq]
    decide

/-- Any number of threads can be created. -/
theorem exists_run_created (n : ℕ) :
    ∃ cs s, Run SchedStep Sched.zero.start cs s ∧ s.Agrees ∧ s.created = n := by
  induction n with
  | zero => exact ⟨[], _, Run.nil _, ⟨[], RunQueue.start _⟩, rfl⟩
  | succ n ih =>
      obtain ⟨cs, s, hrun, ⟨l, hl⟩, hn⟩ := ih
      have hcreate : ∃ s', threadCreate s 1 0 0 = some s' ∧ s'.created = s.created + 1 := by
        unfold threadCreate getMinRuntime
        rw [hl.readyList]
        exact ⟨_, rfl, rfl⟩
      obtain ⟨s', hs', hcount⟩ := hcreate
      exact ⟨_, s', hrun.append_one (.create 1 0 0) ⟨by simp [SchedCall.target], hs'⟩,
        ⟨_, (hl.create hs').1⟩, by omega⟩

/-- The first 256 threads have their stacks apart. -/
theorem stacks_apart_iff_full :
    ∃ cs s, Run SchedStep Sched.zero.start cs s ∧ s.created = 256 ∧ StacksApart s := by
  obtain ⟨cs, s, hrun, -, hn⟩ := exists_run_created 256
  exact ⟨cs, s, hrun, hn, (stacks_apart_iff hrun).mpr hn.le⟩

/-- After the creation of thread 256 two stacks are the same. -/
theorem stacks_overlap_after_257 :
    ∃ cs s, Run SchedStep Sched.zero.start cs s ∧ s.created = 257 ∧
      (s.thread 0).irqStack = (s.thread 256).kerStack ∧ ¬StacksApart s := by
  obtain ⟨cs, s, hrun, -, hn⟩ := exists_run_created 257
  have hnum := Numbered.of_run hrun
  have hirq := hnum.top 0 (by omega) .irq
  have hker := hnum.top 256 (by omega) .ker
  have hsame : (s.thread 0).irqStack = (s.thread 256).kerStack := hirq.trans hker.symm
  refine ⟨cs, s, hrun, hn, hsame, fun hapart => ?_⟩
  have htop : (s.thread 0).irqStack = irqstackStart := hirq
  refine hapart.disjoint 0 (by omega) 256 (by omega) .irq .ker (by simp) (irqstackStart - 1)
    ⟨?_, ?_⟩
  · rw [StackKind.top, htop, InStack]
    decide
  · rw [StackKind.top, ← hsame, htop, InStack]
    decide

end AnglOS
