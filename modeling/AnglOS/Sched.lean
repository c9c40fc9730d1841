import AnglOS.Loop
import AnglOS.Linked

/-!
# Threads and the Run Queue

The scheduler of `threads/thread.c`: the thread objects, the two intrusive lists, the timer
handler and the operations that move a thread between its states. A thread is named by the
number of its `threadCreate` call; the links of the intrusive lists are kept as the source
keeps them, one assignment at a time, so that an operation on an element that is not on the
list does to the links what it does in the source.

* `Links` — the list heads and the elements embedded in the threads, with `listInsert`,
  `listRemove` and the traversal `Links.walk`.
* `Thread`, `Sched` — the thread objects and the static variables of the scheduler.
* `threadCreate`, `threadSchedule`, `threadBlock`, `threadKill`, `threadSelect`,
  `threadNext`, `irqThreadTimerHandler` — the operations. An operation answers `none` where
  the source dereferences a null pointer or does not terminate.
* `SchedCall`, `SchedStep` — the calls a run is made of.

The scheduler's spinlocks are left out: every operation is one step. So is `thread->lock`, which
`threadCreate` never initialises: the operations would wait for a lock that is not free.
-/

namespace AnglOS

/-! ### The intrusive lists -/

/-- The list elements: the null pointer, the two sentinels of a list, and the element
embedded in a thread. -/
inductive Node
  | null
  | head
  | tail
  | elem (t : ℕ)
  deriving DecidableEq

/-- The `next` and `prev` fields of all elements of one list. -/
structure Links where
  /-- `elem->next`. -/
  next : Node → Node
  /-- `elem->prev`. -/
  prev : Node → Node

/-- `list_init`. -/
def Links.listInit (k : Links) : Links where
  next := Function.update (Function.update k.next .head .tail) .tail .null
  prev := Function.update (Function.update k.prev .head .null) .tail .head

/-- `list_insert`. -/
def Links.listInsert (k : Links) (before elem : Node) : Links :=
  let prev₁ := Function.update k.prev elem (k.prev before)
  let next₁ := Function.update k.next elem before
  { next := Function.update next₁ (prev₁ before) elem
    prev := Function.update prev₁ before elem }

/-- `list_push_back`. -/
def Links.listPushBack (k : Links) (elem : Node) : Links := k.listInsert .tail elem

/-- `list_remove`. -/
def Links.listRemove (k : Links) (elem : Node) : Links :=
  let next₁ := Function.update k.next (k.prev elem) (k.next elem)
  { next := next₁
    prev := Function.update k.prev (next₁ elem) (k.prev elem) }

/-- The threads that a traversal from a node up to the tail meets, or `none` if it meets the
null pointer or does not arrive within the given number of elements. -/
def Links.walk (k : Links) : ℕ → Node → Option (List ℕ)
  | _, .tail => some []
  | n + 1, .elem t => (k.walk n (k.next (.elem t))).map (t :: ·)
  | _, _ => none

/-! ### The thread objects -/

/-- `enum thread_state`. -/
inductive ThreadState
  | running
  | ready
  | blocked
  | dying
  | new
  deriving DecidableEq

/-- The states in which a thread is to stand on the run queue. -/
def ThreadState.queued : ThreadState → Bool
  | .running | .ready | .new => true
  | .blocked | .dying => false

/-- `USRSTACK_START`. -/
abbrev usrstackStart : ℕ := 0x00007FF000FFF000
/-- `KERSTACK_START`. -/
abbrev kerstackStart : ℕ := 0xFFFFFFF000FFF000
/-- `IRQSTACK_START`. -/
abbrev irqstackStart : ℕ := 0xFFFFFFF100FFF000
/-- `ISRSTACK_START`. -/
abbrev isrstackStart : ℕ := 0xFFFFFFF200FFF000

/-- `thread_t`, as far as the scheduler uses it. The links of `ready_elem` and `all_elem` are
kept in `Sched`. -/
structure Thread where
  id : ℕ
  parent : ℕ
  priority : ℕ
  state : ThreadState
  /-- In microseconds, below `2 ^ 64`. -/
  runtime : ℕ
  usrStack : ℕ
  kerStack : ℕ
  irqStack : ℕ
  isrStack : ℕ
  /-- The address of the thread's `gs_base_t`. -/
  gs : ℕ

/-- The static variables of `thread.c`, and what it sets of the processor's state. -/
structure Sched where
  /-- The thread object of each `threadCreate` call. -/
  thread : ℕ → Thread
  /-- The number of `threadCreate` calls so far. -/
  created : ℕ
  /-- `next_thread_id`. -/
  nextThreadId : ℕ
  /-- `threadlist`. -/
  threadlist : Links
  /-- `ready[0]`. -/
  ready : Links
  /-- `current_thread`. -/
  current : Option ℕ
  /-- `timer_ticks`. -/
  timerTicks : ℕ
  /-- `tick_microseconds`. -/
  tickMicroseconds : ℕ
  /-- The register `USER_GS_BASE`. -/
  userGS : ℕ
  /-- The register `KERN_GS_BASE`. -/
  kernGS : ℕ
  /-- The stack that the task state segment gives to interrupt routines. -/
  istRoutine : ℕ
  /-- The stack that the task state segment gives to exceptions. -/
  istException : ℕ
  /-- `cpu->context_switches`. -/
  contextSwitches : ℕ

/-- The static variables before anything ran. -/
def Sched.zero : Sched where
  thread := fun _ => ⟨0, 0, 0, .running, 0, 0, 0, 0, 0, 0⟩
  created := 0
  nextThreadId := 0
  threadlist := ⟨fun _ => .null, fun _ => .null⟩
  ready := ⟨fun _ => .null, fun _ => .null⟩
  current := none
  timerTicks := 0
  tickMicroseconds := 0
  userGS := 0
  kernGS := 0
  istRoutine := 0
  istException := 0
  contextSwitches := 0

/-- Assign to the fields of one thread. -/
def Sched.setThread (s : Sched) (t : ℕ) (x : Thread) : Sched :=
  { s with thread := Function.update s.thread t x }

/-- `thread->state = …`. -/
def Sched.setState (s : Sched) (t : ℕ) (st : ThreadState) : Sched :=
  s.setThread t { s.thread t with state := st }

/-- The largest value of a `uint64_t`, written `-1UL` in the source. -/
abbrev maxRuntime : ℕ := 2 ^ 64 - 1

/-! ### Choosing a thread -/

/-- The threads that a traversal of `ready[0]` meets. A traversal that meets more elements
than there are threads does not terminate. -/
def Sched.readyList (s : Sched) : Option (List ℕ) :=
  s.ready.walk s.created (s.ready.next .head)

/-- The loop of `getMinRuntime`. -/
def minRuntimeOf (f : ℕ → Thread) (l : List ℕ) : ℕ :=
  l.foldl (fun min t => if (f t).runtime < min then (f t).runtime else min) maxRuntime

/-- `getMinRuntime`. -/
def getMinRuntime (s : Sched) : Option ℕ := s.readyList.map (minRuntimeOf s.thread)

/-- The loop of `getThreadWithMinRuntime`, over the minimum and the thread that has it. -/
def minThreadOf (f : ℕ → Thread) (l : List ℕ) : ℕ × Option ℕ :=
  l.foldl (fun m t => if (f t).runtime < m.1 then ((f t).runtime, some t) else m)
    (maxRuntime, none)

/-- `getThreadWithMinRuntime`; the inner `none` is the null pointer. -/
def getThreadWithMinRuntime (s : Sched) : Option (Option ℕ) :=
  s.readyList.map fun l => (minThreadOf s.thread l).2

/-! ### The operations -/

/-- `initThread` on one processor. -/
def initThread (s : Sched) : Sched :=
  { s with threadlist := s.threadlist.listInit, ready := s.ready.listInit }

/-- `threadCreate` without the address space that it builds. The condition of the source
assigns to `thread->runtime` and is true, so the minimum just computed is overwritten. -/
def threadCreate (s : Sched) (gs priority parent : ℕ) : Option Sched :=
  (getMinRuntime s).map fun minRuntime =>
    let runtime := minRuntime
    let assigned := maxRuntime
    let runtime := if assigned ≠ 0 then 0 else runtime
    let id := s.nextThreadId
    let x : Thread :=
      { id := id
        parent := parent
        priority := priority
        state := .new
        runtime := runtime
        usrStack := (usrstackStart + 0x1000000 * id) % 2 ^ 64
        kerStack := (kerstackStart + 0x1000000 * id) % 2 ^ 64
        irqStack := (irqstackStart + 0x1000000 * id) % 2 ^ 64
        isrStack := (isrstackStart + 0x1000000 * id) % 2 ^ 64
        gs := gs }
    { s with
      thread := Function.update s.thread s.created x
      created := s.created + 1
      nextThreadId := (s.nextThreadId + 1) % 2 ^ 64
      threadlist := s.threadlist.listPushBack (.elem s.created)
      ready := s.ready.listPushBack (.elem s.created) }

/-- `threadSchedule`. -/
def threadSchedule (s : Sched) : Option ℕ → Sched
  | none => s
  | some t =>
      { s.setState t .ready with ready := s.ready.listPushBack (.elem t) }

/-- `threadBlock`. -/
def threadBlock (s : Sched) : Option ℕ → Sched
  | none => s
  | some t =>
      { s.setState t .blocked with ready := s.ready.listRemove (.elem t) }

/-- `threadKill`. -/
def threadKill (s : Sched) : Option ℕ → Sched
  | none => s
  | some t =>
      { s.setState t .dying with ready := s.ready.listRemove (.elem t) }

/-- `threadSelect`; the context switch at its end does not return. -/
def threadSelect (s : Sched) : Option ℕ → Sched
  | none => s
  | some t =>
      { s.setState t .running with
        current := some t
        userGS := 0
        kernGS := (s.thread t).gs
        istRoutine := (s.thread t).irqStack
        istException := (s.thread t).isrStack }

/-- `threadNext`. A thread that never ran is entered through `threadSelect`. -/
def threadNext (s : Sched) : Option Sched := do
  let cur ← s.current
  let s := { s with contextSwitches := s.contextSwitches + 1 }
  let s := s.setState cur .ready
  let minthread ← getThreadWithMinRuntime s
  let nextThread ← minthread
  if (s.thread nextThread).state = .new then
    return threadSelect s (some nextThread)
  else
    return { s.setState nextThread .running with
      current := some nextThread
      userGS := (s.thread nextThread).gs
      kernGS := 0
      istRoutine := (s.thread nextThread).irqStack
      istException := (s.thread nextThread).isrStack }

/-- Charge the running thread for one tick. -/
def Sched.charge (s : Sched) : Sched :=
  match s.current with
  | none => s
  | some t =>
      s.setThread t { s.thread t with
        runtime := ((s.thread t).runtime + s.tickMicroseconds) % 2 ^ 64 }

/-- `irqThreadTimerHandler`. -/
def irqThreadTimerHandler (s : Sched) : Option Sched :=
  let s := { s with timerTicks := s.timerTicks + 1 }
  let s := s.charge
  if s.userGS ≠ 0 ∧ s.kernGS = 0 then threadNext s else some s

/-! ### Runs -/

/-- The calls that a run is made of. A timer tick finds the two GS base registers as the
code it interrupts left them. -/
inductive SchedCall
  | create (gs priority parent : ℕ)
  | schedule (t : Option ℕ)
  | block (t : Option ℕ)
  | kill (t : Option ℕ)
  | select (t : Option ℕ)
  | tick (userGS kernGS : ℕ)
  deriving DecidableEq

/-- The thread a call is made on. -/
def SchedCall.target : SchedCall → Option ℕ
  | .create .. | .tick .. => none
  | .schedule t | .block t | .kill t | .select t => t

/-- The effect of a call. -/
def SchedCall.run (s : Sched) : SchedCall → Option Sched
  | .create gs priority parent => threadCreate s gs priority parent
  | .schedule t => some (threadSchedule s t)
  | .block t => some (threadBlock s t)
  | .kill t => some (threadKill s t)
  | .select t => some (threadSelect s t)
  | .tick userGS kernGS =>
      irqThreadTimerHandler { s with userGS := userGS, kernGS := kernGS }

/-- A call on a created thread leads from one state to the other. -/
def SchedStep (c : SchedCall) (s s' : Sched) : Prop :=
  (∀ t, c.target = some t → t < s.created) ∧ c.run s = some s'

/-- The scheduler after `initThread`, when no thread was created yet. -/
def Sched.start (s : Sched) : Sched :=
  initThread { s with created := 0, nextThreadId := 0, current := none }

/-! ### The choice of the next thread -/

/-- The loops of `getMinRuntime` and `getThreadWithMinRuntime` from a running minimum on: the
minimum is at most the start and every runtime met, and either nothing is below the start or
the thread kept is one of the list that has the minimum. -/
theorem minThread_foldl (f : ℕ → Thread) (l : List ℕ) (m : ℕ × Option ℕ) :
    let r := l.foldl (fun m t => if (f t).runtime < m.1 then ((f t).runtime, some t) else m) m
    r.1 ≤ m.1 ∧ (∀ t ∈ l, r.1 ≤ (f t).runtime) ∧
      (r = m ∨ ∃ t ∈ l, r = ((f t).runtime, some t) ∧ (f t).runtime < m.1) := by
  induction l generalizing m with
  | nil => simp
  | cons t l ih =>
      simp only [List.foldl_cons, List.forall_mem_cons, List.exists_mem_cons_iff]
      split_ifs with hlt
      · obtain ⟨h1, h2, h3⟩ := ih ((f t).runtime, some t)
        refine ⟨h1.trans hlt.le, ⟨h1, h2⟩, Or.inr ?_⟩
        rcases h3 with h3 | ⟨u, hu, h3, hlt'⟩
        · exact Or.inl ⟨h3, hlt⟩
        · exact Or.inr ⟨u, hu, h3, hlt'.trans hlt⟩
      · obtain ⟨h1, h2, h3⟩ := ih m
        refine ⟨h1, ⟨h1.trans (not_lt.mp hlt), h2⟩, ?_⟩
        rcases h3 with h3 | ⟨u, hu, h3, hlt'⟩
        · exact Or.inl h3
        · exact Or.inr (Or.inr ⟨u, hu, h3, hlt'⟩)

/-- The two loops keep the same minimum. -/
theorem minThreadOf_fst (f : ℕ → Thread) (l : List ℕ) :
    (minThreadOf f l).1 = minRuntimeOf f l := by
  have hgen : ∀ m : ℕ × Option ℕ,
      (l.foldl (fun m t => if (f t).runtime < m.1 then ((f t).runtime, some t) else m) m).1
        = l.foldl (fun min t => if (f t).runtime < min then (f t).runtime else min) m.1 := by
    induction l with
    | nil => simp
    | cons t l ih =>
        intro m
        simp only [List.foldl_cons, ih]
        split_ifs <;> rfl
  exact hgen (maxRuntime, none)

/-- `getMinRuntime` is a lower bound of the runtimes on the list. -/
theorem minRuntimeOf_le {f : ℕ → Thread} {l : List ℕ} {t : ℕ} (ht : t ∈ l) :
    minRuntimeOf f l ≤ (f t).runtime := by
  rw [← minThreadOf_fst]
  exact (minThread_foldl f l (maxRuntime, none)).2.1 t ht

/-- The thread `getThreadWithMinRuntime` finds is on the list and has the minimal runtime. -/
theorem minThreadOf_some {f : ℕ → Thread} {l : List ℕ} {t : ℕ}
    (h : (minThreadOf f l).2 = some t) : t ∈ l ∧ (f t).runtime = minRuntimeOf f l := by
  rw [← minThreadOf_fst]
  rcases (minThread_foldl f l (maxRuntime, none)).2.2 with hr | ⟨u, hu, hr, -⟩
  · rw [show minThreadOf f l = (maxRuntime, none) from hr] at h
    cases h
  · have hr : minThreadOf f l = ((f u).runtime, some u) := hr
    rw [hr] at h ⊢
    obtain rfl := Option.some.inj h
    exact ⟨hu, rfl⟩

/-- It finds one as soon as some runtime is below the largest value. -/
theorem minThreadOf_isSome {f : ℕ → Thread} {l : List ℕ} {t : ℕ} (ht : t ∈ l)
    (hlt : (f t).runtime < maxRuntime) : ∃ u, (minThreadOf f l).2 = some u := by
  obtain ⟨-, hle, hr | ⟨u, -, hr, -⟩⟩ := minThread_foldl f l (maxRuntime, none)
  · rw [hr] at hle
    exact absurd (hle t ht) (not_le.mpr hlt)
  · exact ⟨u, by rw [minThreadOf, hr]⟩

/-! ### What rescheduling does -/

/-- What `threadNext` does to the threads: the outgoing one becomes ready, whatever its state
was, and the one with the minimal runtime becomes the running, current one. -/
theorem threadNext_spec {s s' : Sched} (h : threadNext s = some s') :
    ∃ cur l u, s.current = some cur ∧ s.readyList = some l ∧
      (minThreadOf (s.setState cur .ready).thread l).2 = some u ∧
      s'.ready = s.ready ∧ s'.created = s.created ∧ s'.current = some u ∧
      s'.thread = ((s.setState cur .ready).setState u .running).thread ∧
      s'.tickMicroseconds = s.tickMicroseconds := by
  unfold threadNext at h
  simp only [Option.bind_eq_bind, Option.bind_eq_some_iff] at h
  obtain ⟨cur, hcur, minthread, hmin, u, rfl, h⟩ := h
  obtain ⟨l, hl, hu⟩ := Option.map_eq_some_iff.mp hmin
  refine ⟨cur, l, u, hcur, hl, hu, ?_⟩
  split_ifs at h
  · obtain rfl := Option.some.inj h
    exact ⟨rfl, rfl, rfl, rfl, rfl⟩
  · obtain rfl := Option.some.inj h
    exact ⟨rfl, rfl, rfl, rfl, rfl⟩

/-- The runtimes after an assignment to a state. -/
@[simp] theorem setState_runtime (s : Sched) (t : ℕ) (st : ThreadState) (u : ℕ) :
    ((s.setState t st).thread u).runtime = (s.thread u).runtime := by
  unfold Sched.setState Sched.setThread
  by_cases h : u = t
  · simp [h]
  · simp [h]

/-- What charging the running thread does: only its runtime changes. -/
theorem charge_spec (s : Sched) :
    s.charge.ready = s.ready ∧ s.charge.created = s.created ∧ s.charge.current = s.current ∧
      s.charge.tickMicroseconds = s.tickMicroseconds ∧ s.charge.userGS = s.userGS ∧
      s.charge.kernGS = s.kernGS ∧
      ∀ t, (s.charge.thread t).state = (s.thread t).state ∧
        (s.charge.thread t).runtime = if s.current = some t
          then ((s.thread t).runtime + s.tickMicroseconds) % 2 ^ 64 else (s.thread t).runtime := by
  unfold Sched.charge
  cases hc : s.current with
  | none => simp [hc]
  | some c =>
      refine ⟨rfl, rfl, hc, rfl, rfl, rfl, fun t => ?_⟩
      unfold Sched.setThread
      by_cases h : t = c
      · simp [h]
      · simp [h, Ne.symm h]

end AnglOS
