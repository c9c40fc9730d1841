import AnglOS.SchedQueue

/-!
# Fairness of the Scheduler

`threadNext` runs the thread with the least runtime, and the timer charges the running thread
one tick. If a new thread starts at the least runtime on the run queue, all runtimes stay
within one tick of each other. `threadCreate` starts every thread at zero instead (see
`threadCreate`), which is that value only while the least runtime is still zero;
`SchedCall.Timely` names these moments.

* `SchedCall.Fair` — the runs in question: threads are created at any moment, the first
  selected thread has the least runtime, ticks reschedule, runtimes stay below the largest
  value.
* `Even` — runtimes within one tick of each other, the current thread at the least.

## Main results

`even_of_run`: in every such run whose threads are created in time, the runtimes are even
after every step, a new thread starts at the least runtime, and the least runtime never
decreases.
-/

namespace AnglOS

/-! ### The runs -/

/-- The calls of a run in question: thread creations, the first selection of a thread with
the least runtime, and rescheduling ticks that keep the runtime of the current thread below
the largest value. -/
def SchedCall.Fair (s : Sched) : SchedCall → Prop
  | .create .. => True
  | .select t => s.current = none ∧
      ∃ u l, t = some u ∧ s.readyList = some l ∧ u ∈ l ∧
        ∀ v ∈ l, (s.thread u).runtime ≤ (s.thread v).runtime
  | .tick userGS kernGS => userGS ≠ 0 ∧ kernGS = 0 ∧
      ∀ c, s.current = some c → (s.thread c).runtime + s.tickMicroseconds < maxRuntime
  | .schedule _ | .block _ | .kill _ => False

/-- A thread is created only when the run queue is empty or its least runtime is zero. -/
def SchedCall.Timely (s : Sched) : SchedCall → Prop
  | .create .. => s.readyList = some [] ∨ getMinRuntime s = some 0
  | _ => True

/-- A step of the runs in question. -/
def FairStep (c : SchedCall) (s s' : Sched) : Prop := SchedStep c s s' ∧ c.Fair s

/-- Such a step that creates a thread only in time. -/
def TimelyStep (c : SchedCall) (s s' : Sched) : Prop := FairStep c s s' ∧ c.Timely s

/-- The runtimes on the run queue are within one tick of each other, and the current thread,
if there is one, stands on the queue at the least of them. -/
def Sched.Even (s : Sched) : Prop :=
  ∃ l, s.readyList = some l ∧
    (∀ t ∈ l, ∀ u ∈ l, (s.thread t).runtime ≤ (s.thread u).runtime + s.tickMicroseconds) ∧
    ∀ c, s.current = some c → c ∈ l ∧ ∀ t ∈ l, (s.thread c).runtime ≤ (s.thread t).runtime

/-! ### One step -/

/-- What the runs in question keep: the queue agrees with the states, the runtimes on it are
below the largest value and within one tick of each other, and the current thread is at the
least of them. -/
structure FairQueue (s : Sched) (l : List ℕ) : Prop extends RunQueue s l where
  /-- The runtimes are below the largest value. -/
  below : ∀ t ∈ l, (s.thread t).runtime < maxRuntime
  /-- The runtimes are within one tick of each other. -/
  spread : ∀ t ∈ l, ∀ u ∈ l, (s.thread t).runtime ≤ (s.thread u).runtime + s.tickMicroseconds
  /-- The current thread is on the queue, at the least runtime. -/
  least : ∀ c, s.current = some c → c ∈ l ∧ ∀ t ∈ l, (s.thread c).runtime ≤ (s.thread t).runtime

/-- The least runtime of a queue is the runtime of one of its threads. -/
theorem FairQueue.exists_least {s : Sched} {l : List ℕ} (h : FairQueue s l) (hne : l ≠ []) :
    ∃ t ∈ l, (s.thread t).runtime = minRuntimeOf s.thread l := by
  obtain ⟨t, ht⟩ := List.exists_mem_of_ne_nil l hne
  obtain ⟨u, hu⟩ := minThreadOf_isSome ht (h.below t ht)
  exact ⟨u, minThreadOf_some hu⟩

/-- The least runtime does not decrease if every runtime of the new queue is at least one of
the old queue. -/
theorem minRuntimeOf_mono {f g : ℕ → Thread} {l l' : List ℕ}
    (hbelow : ∀ t ∈ l, (f t).runtime < maxRuntime) (hne : l ≠ [])
    (h : ∀ t ∈ l', ∃ u ∈ l, (f u).runtime ≤ (g t).runtime) :
    minRuntimeOf f l ≤ minRuntimeOf g l' := by
  obtain ⟨t, ht⟩ := List.exists_mem_of_ne_nil l hne
  rcases (minThread_foldl g l' (maxRuntime, none)).2.2 with hr | ⟨u, hu, hr, -⟩
  · have hmax : minRuntimeOf g l' = maxRuntime := by
      rw [← minThreadOf_fst, minThreadOf, hr]
    rw [hmax]
    exact (minRuntimeOf_le ht).trans (hbelow t ht).le
  · have hu' : minRuntimeOf g l' = (g u).runtime := by
      rw [← minThreadOf_fst, minThreadOf, hr]
    obtain ⟨v, hv, hle⟩ := h u hu
    rw [hu']
    exact (minRuntimeOf_le hv).trans hle

/-- The runtimes and the clock after `threadCreate`. -/
theorem threadCreate_runtime {s s' : Sched} {gs priority parent : ℕ}
    (h : threadCreate s gs priority parent = some s') :
    (s'.thread s.created).runtime = 0 ∧ (∀ t, t ≠ s.created → s'.thread t = s.thread t) ∧
      s'.current = s.current ∧ s'.tickMicroseconds = s.tickMicroseconds := by
  obtain ⟨m, -, rfl⟩ := Option.map_eq_some_iff.mp h
  refine ⟨?_, fun t ht => Function.update_of_ne ht _ _, rfl, rfl⟩
  simp

/-- Creating a thread in time: it starts at the least runtime. -/
theorem FairQueue.create {s s' : Sched} {l : List ℕ} {gs priority parent : ℕ}
    (h : FairQueue s l) (htimely : (SchedCall.create gs priority parent).Timely s)
    (hc : threadCreate s gs priority parent = some s') :
    FairQueue s' (l ++ [s.created]) ∧
      (∀ t ∈ l ++ [s.created], l ≠ [] → ∃ u ∈ l, (s.thread u).runtime ≤ (s'.thread t).runtime) ∧
      (s'.thread s.created).runtime = if l = [] then 0 else minRuntimeOf s.thread l := by
  obtain ⟨hnew, hold, hcur, htick⟩ := threadCreate_runtime hc
  have hq := (h.toRunQueue.create hc).1
  have hne : ∀ t ∈ l, t ≠ s.created := fun t ht => (h.created t ht).ne
  have hzero : l = [] ∨ minRuntimeOf s.thread l = 0 := by
    rcases htimely with hl | hmin
    · exact Or.inl (Option.some.inj (h.toRunQueue.readyList.symm.trans hl))
    · rw [getMinRuntime, h.toRunQueue.readyList] at hmin
      exact Or.inr (Option.some.inj hmin)
  have hone : l ≠ [] → ∃ u ∈ l, (s.thread u).runtime = 0 := fun hl => by
    obtain ⟨u, hu, hru⟩ := h.exists_least hl
    exact ⟨u, hu, hru.trans (hzero.resolve_left hl)⟩
  have hcases : ∀ t ∈ l ++ [s.created],
      (t ∈ l ∧ (s'.thread t).runtime = (s.thread t).runtime) ∨ (s'.thread t).runtime = 0 := by
    intro t ht
    rcases List.mem_append.mp ht with ht | ht
    · exact Or.inl ⟨ht, by rw [hold t (hne t ht)]⟩
    · rw [List.mem_singleton.mp ht]
      exact Or.inr hnew
  -- every runtime of the old queue is at most one tick, because one of them is zero
  have hle : ∀ t ∈ l, (s.thread t).runtime ≤ s.tickMicroseconds := by
    intro t ht
    obtain ⟨u, hu, hru⟩ := hone (List.ne_nil_of_mem ht)
    have := h.spread t ht u hu
    omega
  refine ⟨{ toRunQueue := hq, below := ?_, spread := ?_, least := ?_ }, ?_, ?_⟩
  · intro t ht
    rcases hcases t ht with ⟨htl, hrt⟩ | hrt
    · rw [hrt]
      exact h.below t htl
    · rw [hrt]
      decide
  · intro t ht u hu
    rw [htick]
    rcases hcases t ht with ⟨htl, hrt⟩ | hrt
    · have := hle t htl
      omega
    · omega
  · intro c hcc
    obtain ⟨hcl, hleast⟩ := h.least c (hcur ▸ hcc)
    obtain ⟨u, hu, hru⟩ := hone (List.ne_nil_of_mem hcl)
    have hrc : (s'.thread c).runtime = 0 := by
      have := hleast u hu
      rw [hold c (hne c hcl)]
      omega
    exact ⟨List.mem_append_left _ hcl, fun t _ => by omega⟩
  · intro t _ hl
    obtain ⟨u, hu, hru⟩ := hone hl
    exact ⟨u, hu, by omega⟩
  · rw [hnew]
    split_ifs with hl
    · rfl
    · exact (hzero.resolve_left hl).symm

/-- The first selection. -/
theorem FairQueue.select {s : Sched} {l : List ℕ} {t : Option ℕ} (h : FairQueue s l)
    (hfair : (SchedCall.select t).Fair s) (hlt : ∀ u, t = some u → u < s.created) :
    FairQueue (threadSelect s t) l ∧
      ∀ u, ((threadSelect s t).thread u).runtime = (s.thread u).runtime := by
  obtain ⟨hnone, u, l', rfl, hl', hu, hleast⟩ := hfair
  obtain rfl : l = l' := Option.some.inj (h.toRunQueue.readyList.symm.trans hl')
  have hruntime : ∀ v, ((threadSelect s (some u)).thread v).runtime = (s.thread v).runtime :=
    fun v => setState_runtime s u .running v
  have hother : ∀ v < s.created, (s.thread v).state = .running → v = u := by
    intro v hv hrun
    rw [h.running v hv hrun] at hnone
    cases hnone
  have hq : RunQueue (threadSelect s (some u)) l :=
    (h.toRunQueue.makeRunning (hlt u rfl) ((h.mem_iff u (hlt u rfl)).mp hu) hother
      (by rfl) (by rfl) (by rfl) (by rfl) (.select (some u))).1
  refine ⟨{ toRunQueue := hq, below := ?_, spread := ?_, least := ?_ }, hruntime⟩
  · exact fun v hv => by simpa only [hruntime] using h.below v hv
  · intro v hv w hw
    rw [hruntime, hruntime]
    exact h.spread v hv w hw
  · rintro c ⟨⟩
    exact ⟨hu, fun v hv => by simpa only [hruntime] using hleast v hv⟩

/-- The rescheduling tick: the current thread, at the least runtime, is charged one tick, and
the thread with the then least runtime is chosen. -/
theorem FairQueue.tick {s s' : Sched} {l : List ℕ} {userGS kernGS : ℕ} (h : FairQueue s l)
    (hfair : (SchedCall.tick userGS kernGS).Fair s)
    (hs : (SchedCall.tick userGS kernGS).run s = some s') :
    FairQueue s' l ∧ ∀ t ∈ l, ∃ u ∈ l, (s.thread u).runtime ≤ (s'.thread t).runtime := by
  obtain ⟨hu0, hk0, hbound⟩ := hfair
  have hq : RunQueue s' l :=
    (h.toRunQueue.tick (fun _ _ c hc => (h.mem_iff c (h.current_lt c hc)).mp (h.least c hc).1)
      hs).1
  unfold SchedCall.run irqThreadTimerHandler at hs
  set s₁ : Sched :=
    { s with userGS := userGS, kernGS := kernGS, timerTicks := s.timerTicks + 1 } with hs₁
  obtain ⟨hready, hcreated, hcur, htick, hu, hk, hth⟩ := charge_spec s₁
  simp only at hs
  rw [if_pos ⟨hu.trans_ne hu0, hk.trans hk0⟩] at hs
  obtain ⟨c, l', u, hc, hl', hmin, -, -, hcur', hthread, htick'⟩ := threadNext_spec hs
  have hc : s.current = some c := hcur.symm.trans hc
  obtain ⟨hcl, hleast⟩ := h.least c hc
  have hlt := hbound c hc
  -- the runtimes after the step
  have hruntime : ∀ t, (s'.thread t).runtime
      = if t = c then (s.thread t).runtime + s.tickMicroseconds else (s.thread t).runtime := by
    intro t
    rw [hthread, setState_runtime, setState_runtime, (hth t).2]
    show (if s.current = some t then ((s.thread t).runtime + s.tickMicroseconds) % 2 ^ 64
      else (s.thread t).runtime) = _
    rw [hc]
    by_cases htc : t = c
    · rw [if_pos (by rw [htc]), if_pos htc, htc, Nat.mod_eq_of_lt (hlt.trans (by decide))]
    · rw [if_neg (fun heq => htc (Option.some.inj heq).symm), if_neg htc]
  have hl'' : s.readyList = some l' := by
    rw [← hl']
    show s.ready.walk s.created (s.ready.next .head) = _
    rw [Sched.readyList, hready, hcreated]
  obtain rfl : l = l' := Option.some.inj (h.toRunQueue.readyList.symm.trans hl'')
  have hm : minRuntimeOf (s₁.charge.setState c .ready).thread l = (s'.thread u).runtime := by
    rw [hthread, setState_runtime]
    exact (minThreadOf_some hmin).2.symm
  refine ⟨{ toRunQueue := hq, below := ?_, spread := ?_, least := ?_ }, ?_⟩
  · intro t ht
    rw [hruntime]
    split_ifs with htc
    · rwa [htc]
    · exact h.below t ht
  · intro t ht v hv
    have h1 := h.spread t ht c hcl
    have h2 := hleast v hv
    rw [hruntime, hruntime, htick', htick]
    show _ ≤ _ + s.tickMicroseconds
    split_ifs with htc hvc hvc
    · subst htc hvc
      omega
    · subst htc
      omega
    · subst hvc
      omega
    · exact h.spread t ht v hv
  · intro d hd
    obtain rfl : u = d := Option.some.inj (hcur'.symm.trans hd)
    refine ⟨(minThreadOf_some hmin).1, fun t ht => ?_⟩
    rw [← hm, hthread, setState_runtime]
    exact minRuntimeOf_le ht
  · intro t ht
    refine ⟨t, ht, ?_⟩
    rw [hruntime]
    split_ifs <;> omega

/-- `threadNext` finds a thread as soon as one on the queue is below the largest runtime. -/
theorem threadNext_exists {s : Sched} {c : ℕ} {l : List ℕ} (hc : s.current = some c)
    (hl : s.readyList = some l) {t : ℕ} (ht : t ∈ l)
    (hlt : (s.thread t).runtime < maxRuntime) : ∃ s', threadNext s = some s' := by
  obtain ⟨u, hu⟩ := minThreadOf_isSome (f := (s.setState c .ready).thread) ht (by simpa using hlt)
  have hmin : getThreadWithMinRuntime
      (({ s with contextSwitches := s.contextSwitches + 1 } : Sched).setState c .ready)
        = some (some u) := by
    rw [getThreadWithMinRuntime, Option.map_eq_some_iff]
    exact ⟨l, hl, hu⟩
  cases hn : threadNext s with
  | some s' => exact ⟨s', rfl⟩
  | none =>
      unfold threadNext at hn
      simp only [Option.bind_eq_bind, Option.bind_eq_none_iff] at hn
      have := hn c hc (some u) hmin u rfl
      split_ifs at this

/-- With a current thread the rescheduling tick always chooses a next one. -/
theorem FairQueue.tick_exists {s : Sched} {l : List ℕ} {userGS kernGS c : ℕ}
    (h : FairQueue s l) (hfair : (SchedCall.tick userGS kernGS).Fair s)
    (hc : s.current = some c) :
    ∃ s' u, (SchedCall.tick userGS kernGS).run s = some s' ∧ s'.current = some u := by
  obtain ⟨hu0, hk0, hbound⟩ := hfair
  unfold SchedCall.run irqThreadTimerHandler
  set s₁ : Sched :=
    { s with userGS := userGS, kernGS := kernGS, timerTicks := s.timerTicks + 1 } with hs₁
  obtain ⟨hready, hcreated, hcur, -, hu, hk, hth⟩ := charge_spec s₁
  simp only
  rw [if_pos ⟨hu.trans_ne hu0, hk.trans hk0⟩]
  have hl : s₁.charge.readyList = some l := by
    rw [Sched.readyList, hready, hcreated]
    exact h.toRunQueue.readyList
  have hlt : (s₁.charge.thread c).runtime < maxRuntime := by
    have := hbound c hc
    rw [(hth c).2, if_pos (show s₁.current = some c from hc)]
    rwa [Nat.mod_eq_of_lt (this.trans (by decide))]
  obtain ⟨s', hs'⟩ := threadNext_exists (hcur.trans hc) hl (h.least c hc).1 hlt
  obtain ⟨-, -, u, -, -, -, -, -, hcur', -, -⟩ := threadNext_spec hs'
  exact ⟨s', u, hs', hcur'⟩

/-- What a step does to the least runtime: it does not decrease, and a new thread starts at
it, or at zero when the queue is empty. -/
def SchedCall.Advances (c : SchedCall) (s s' : Sched) : Prop :=
  (∀ m m', s.readyList ≠ some [] → getMinRuntime s = some m → getMinRuntime s' = some m' →
    m ≤ m') ∧
  ∀ gs priority parent, c = .create gs priority parent →
    (s.readyList = some [] → (s'.thread s.created).runtime = 0) ∧
    (s.readyList ≠ some [] → getMinRuntime s = some (s'.thread s.created).runtime)

/-- The least runtime of a fair queue. -/
theorem FairQueue.getMinRuntime {s : Sched} {l : List ℕ} (h : FairQueue s l) :
    getMinRuntime s = some (minRuntimeOf s.thread l) := by
  rw [AnglOS.getMinRuntime, h.toRunQueue.readyList, Option.map_some]

/-- **One step**: a call in time keeps the queue fair and advances the least runtime. -/
theorem FairQueue.step {s s' : Sched} {l : List ℕ} {c : SchedCall} (h : FairQueue s l)
    (hs : TimelyStep c s s') : (∃ l', FairQueue s' l') ∧ c.Advances s s' := by
  obtain ⟨⟨⟨hlt, hrun⟩, hfair⟩, htimely⟩ := hs
  -- the least runtime is monotone as soon as every new runtime is at least an old one
  have hmono : ∀ l', FairQueue s' l' →
      (∀ t ∈ l', l ≠ [] → ∃ u ∈ l, (s.thread u).runtime ≤ (s'.thread t).runtime) →
      ∀ m m', s.readyList ≠ some [] → AnglOS.getMinRuntime s = some m →
        AnglOS.getMinRuntime s' = some m' → m ≤ m' := by
    intro l' h' hle m m' hne hm hm'
    have hl : l ≠ [] := fun hl => hne (by rw [h.toRunQueue.readyList, hl])
    rw [h.getMinRuntime] at hm
    rw [h'.getMinRuntime] at hm'
    obtain rfl := Option.some.inj hm
    obtain rfl := Option.some.inj hm'
    exact minRuntimeOf_mono h.below hl fun t ht => hle t ht hl
  cases c with
  | create gs priority parent =>
      obtain ⟨h', hle, hstart⟩ := h.create htimely hrun
      refine ⟨⟨_, h'⟩, hmono _ h' hle, ?_⟩
      rintro _ _ _ -
      rw [h.toRunQueue.readyList, h.getMinRuntime, hstart]
      constructor
      · intro hl
        rw [if_pos (Option.some.inj hl)]
      · intro hl
        rw [if_neg fun heq => hl (by rw [heq])]
  | select t =>
      obtain rfl := Option.some.inj hrun
      obtain ⟨h', hruntime⟩ := h.select hfair hlt
      refine ⟨⟨l, h'⟩, hmono l h' fun t ht _ => ⟨t, ht, (hruntime t).ge⟩, ?_⟩
      rintro _ _ _ ⟨⟩
  | tick userGS kernGS =>
      obtain ⟨h', hle⟩ := h.tick hfair hrun
      refine ⟨⟨l, h'⟩, hmono l h' fun t ht _ => hle t ht, ?_⟩
      rintro _ _ _ ⟨⟩
  | schedule t => exact hfair.elim
  | block t => exact hfair.elim
  | kill t => exact hfair.elim

/-! ### Whole runs -/

/-- Nothing runs and nothing is queued after `initThread`. -/
theorem FairQueue.start (s : Sched) : FairQueue s.start [] :=
  { toRunQueue := RunQueue.start s
    below := by simp
    spread := by simp
    least := by simp [Sched.start, initThread] }

/-- A fair queue is even. -/
theorem FairQueue.even {s : Sched} {l : List ℕ} (h : FairQueue s l) : s.Even :=
  ⟨l, h.toRunQueue.readyList, h.spread, h.least⟩

/-- The runs in question keep the queue fair. -/
theorem FairQueue.of_run {s₀ s : Sched} {cs : List SchedCall}
    (h : Run TimelyStep s₀.start cs s) : ∃ l, FairQueue s l := by
  refine Run.invariant (O := fun _ => True) (P := fun s => ∃ l, FairQueue s l) ?_ h
    (fun _ _ => trivial) ⟨[], FairQueue.start s₀⟩
  rintro c s s' - ⟨l, hl⟩ hstep
  exact (hl.step hstep).1

/-- **Scheduling is fair within one tick**, in every run that creates threads only in time.
After every step the runtimes on the run queue are within one tick of each other and the
current thread is at the least of them; every next step lets the least runtime only grow and
starts a new thread at it; and a rescheduling tick always chooses a next thread. -/
theorem even_of_run {s₀ s : Sched} {cs : List SchedCall} (h : Run TimelyStep s₀.start cs s) :
    s.Even ∧
    (∀ c s', TimelyStep c s s' → s'.Even ∧ c.Advances s s') ∧
    ∀ userGS kernGS c, (SchedCall.tick userGS kernGS).Fair s → s.current = some c →
      ∃ s' u, TimelyStep (.tick userGS kernGS) s s' ∧ s'.current = some u := by
  obtain ⟨l, hl⟩ := FairQueue.of_run h
  refine ⟨hl.even, fun c s' hstep => ?_, fun userGS kernGS c hfair hc => ?_⟩
  · obtain ⟨⟨l', hl'⟩, hadv⟩ := hl.step hstep
    exact ⟨hl'.even, hadv⟩
  · obtain ⟨s', u, hs', hu⟩ := hl.tick_exists hfair hc
    exact ⟨s', u, ⟨⟨⟨by rintro t ⟨⟩, hs'⟩, hfair⟩, trivial⟩, hu⟩

/-- Two threads are created and take turns: the second tick takes the first thread again. -/
theorem even_of_run_select :
    ∃ s, Run TimelyStep { Sched.zero with tickMicroseconds := 5000 }.start
        [.create 1 0 0, .create 2 0 0, .select (some 0), .tick 1 0, .tick 1 0] s ∧
      (s.thread 0).runtime = 5000 ∧ (s.thread 1).runtime = 5000 ∧ s.current = some 0 ∧
      s.Even := by
  have h₁ : Run TimelyStep { Sched.zero with tickMicroseconds := 5000 }.start
      [.create 1 0 0] _ :=
    (Run.nil _).snoc ⟨⟨⟨by simp [SchedCall.target], rfl⟩, trivial⟩, Or.inl rfl⟩
  have h₂ := h₁.append_one (.create 2 0 0)
    ⟨⟨⟨by simp [SchedCall.target], rfl⟩, trivial⟩, Or.inr rfl⟩
  have h₃ := h₂.append_one (.select (some 0))
    ⟨⟨⟨by rintro t ⟨⟩; exact Nat.two_pos, rfl⟩, rfl, 0, [0, 1], rfl, rfl, by simp,
      fun v _ => Nat.zero_le _⟩, trivial⟩
  have h₄ := h₃.append_one (.tick 1 0)
    ⟨⟨⟨by rintro t ⟨⟩, rfl⟩, by decide, rfl, by rintro c ⟨⟩; decide⟩, trivial⟩
  have h₅ := h₄.append_one (.tick 1 0)
    ⟨⟨⟨by rintro t ⟨⟩, rfl⟩, by decide, rfl, by rintro c ⟨⟩; decide⟩, trivial⟩
  exact ⟨_, h₅, rfl, rfl, rfl, (even_of_run h₅).1⟩

/-- A thread runs for two ticks before the next one is created: the new thread starts at
zero, two ticks below the only other runtime. -/
theorem uneven_after_late_create :
    ∃ s, Run FairStep { Sched.zero with tickMicroseconds := 5000 }.start
      [.create 1 0 0, .select (some 0), .tick 1 0, .tick 1 0, .create 2 0 0] s ∧ ¬s.Even := by
  have h₁ : Run FairStep { Sched.zero with tickMicroseconds := 5000 }.start
      [.create 1 0 0] _ :=
    (Run.nil _).snoc ⟨⟨by simp [SchedCall.target], rfl⟩, trivial⟩
  have h₂ := h₁.append_one (.select (some 0))
    ⟨⟨by rintro t ⟨⟩; exact Nat.one_pos, rfl⟩, rfl, 0, [0], rfl, rfl, by simp,
      fun v _ => Nat.zero_le _⟩
  have h₃ := h₂.append_one (.tick 1 0)
    ⟨⟨by rintro t ⟨⟩, rfl⟩, by decide, rfl, by rintro c ⟨⟩; decide⟩
  have h₄ := h₃.append_one (.tick 1 0)
    ⟨⟨by rintro t ⟨⟩, rfl⟩, by decide, rfl, by rintro c ⟨⟩; decide⟩
  have h₅ := h₄.append_one (.create 2 0 0) ⟨⟨by rintro t ⟨⟩, rfl⟩, trivial⟩
  refine ⟨_, h₅, ?_⟩
  rintro ⟨l, hl, hspread, -⟩
  obtain rfl : [0, 1] = l := Option.some.inj hl
  exact absurd (hspread 0 (by simp) 1 (by simp)) (by decide)

end AnglOS
