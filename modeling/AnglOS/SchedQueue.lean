import AnglOS.Sched

/-!
# The Run Queue and the Thread States

When the run queue and the states of the threads agree. The operations of `thread.c` update
the state field and the intrusive list independently of each other and do not look at either
first, so agreement is a matter of which calls are made in which state; `SchedCall.Apt`
names, for each call, the states in which it keeps the agreement.

* `Links.Holds` — the links form a list of given threads between the sentinels; its lemmas
  say what the list routines do to it.
* `RunQueue` — the list holds exactly the threads whose state says so, and only the current
  thread is running.
* `RunQueue.step` — an apt call keeps the agreement.

## Main results

`queue_agrees_of_run`: in every run of apt calls, after every step, the run queue is a
well-formed list that agrees with the states, and blocked threads stay blocked and off the
list until they are scheduled, dying ones forever.
-/

namespace AnglOS

/-! ### The list routines on well-formed lists -/

/-- The elements of a list that holds the given threads, with its sentinels. -/
def queueNodes (l : List ℕ) : List Node := (Node.head :: l.map Node.elem) ++ [Node.tail]

/-- The links form a doubly linked list of the given threads, none of them twice. -/
structure Links.Holds (k : Links) (l : List ℕ) : Prop where
  /-- Consecutive elements point at each other. -/
  linked : Linked k.next k.prev (queueNodes l)
  /-- Nothing precedes the head. -/
  head_prev : k.prev .head = .null
  /-- Nothing follows the tail. -/
  tail_next : k.next .tail = .null
  /-- No thread occurs twice. -/
  nodup : l.Nodup

/-- The elements of a list without repetition are distinct. -/
theorem queueNodes_nodup {l : List ℕ} (h : l.Nodup) : (queueNodes l).Nodup := by
  have hinj : Function.Injective Node.elem := fun _ _ hab => Node.elem.inj hab
  refine List.nodup_append.mpr ⟨List.nodup_cons.mpr ⟨by simp, h.map hinj⟩, by simp, ?_⟩
  intro x hx y hy
  rw [List.mem_singleton.mp hy]
  rcases List.mem_cons.mp hx with rfl | hx
  · simp
  · obtain ⟨t, -, rfl⟩ := List.mem_map.mp hx
    simp

/-- `list_init` makes the empty list. -/
theorem Links.Holds.init (k : Links) : k.listInit.Holds [] where
  linked := by simp [queueNodes, Linked, Links.listInit]
  head_prev := by simp [Links.listInit]
  tail_next := by simp [Links.listInit]
  nodup := List.nodup_nil

/-- The last element before the tail. -/
theorem exists_last (l : List ℕ) : ∃ xs a, Node.head :: l.map Node.elem = xs ++ [a] ∧
    a ≠ .tail ∧ a ≠ .null ∧ ∀ t, t ∉ l → a ≠ .elem t := by
  rcases List.eq_nil_or_concat l with rfl | ⟨l', t, rfl⟩
  · exact ⟨[], .head, by simp⟩
  · refine ⟨.head :: l'.map .elem, .elem t, by simp, by simp, by simp, ?_⟩
    rintro u hu ⟨rfl⟩
    simp at hu

/-- **`list_push_back`** of a thread that is not on the list appends it. -/
theorem Links.Holds.pushBack {k : Links} {l : List ℕ} (h : k.Holds l) {t : ℕ} (ht : t ∉ l) :
    (k.listPushBack (.elem t)).Holds (l ++ [t]) := by
  obtain ⟨xs, a, hxs, hat, -, hae⟩ := exists_last l
  have hnodes : queueNodes l = xs ++ [a, .tail] := by simp [queueNodes, hxs]
  have hnodes' : queueNodes (l ++ [t]) = xs ++ [a, .elem t, .tail] := by
    have : queueNodes (l ++ [t]) = (Node.head :: l.map .elem) ++ [.elem t, .tail] := by
      simp [queueNodes]
    rw [this, hxs]
    simp
  have hnd := queueNodes_nodup h.nodup
  have hlinked := h.linked
  rw [hnodes] at hnd hlinked
  obtain ⟨-, hprev⟩ := hlinked.links_last
  have hmem : ∀ x ∈ xs ++ [a, .tail], x ≠ .elem t := by
    rintro _ hx rfl
    rw [← hnodes] at hx
    simp [queueNodes, ht] at hx
  have hne : Node.tail ≠ .elem t := by simp
  have hea : Node.elem t ≠ a := (hae t ht).symm
  refine ⟨?_, ?_, ?_, ?_⟩
  · rw [hnodes']
    refine hlinked.insert_last hnd ?_ ?_ ?_ ?_ ?_ ?_
    · simp [Links.listPushBack, Links.listInsert, hprev]
    · simp [Links.listPushBack, Links.listInsert, hprev, hea]
    · simp [Links.listPushBack, Links.listInsert]
    · simp [Links.listPushBack, Links.listInsert, hprev]
    · intro x hx hxa hxt
      simp [Links.listPushBack, Links.listInsert, hprev, hxa, hmem x hx]
    · intro y hy hyt
      simp [Links.listPushBack, Links.listInsert, hyt, hmem y hy]
  · simp [Links.listPushBack, Links.listInsert, h.head_prev]
  · have : Node.tail ≠ a := hat.symm
    simp [Links.listPushBack, Links.listInsert, hprev, this, h.tail_next]
  · exact List.nodup_append.mpr ⟨h.nodup, by simp, by rintro u hu _ hv rfl; simp_all⟩

/-- The first element after a thread. -/
theorem exists_first (l : List ℕ) : ∃ b ys, l.map Node.elem ++ [Node.tail] = b :: ys ∧
    b ≠ .head := by
  cases l with
  | nil => exact ⟨.tail, [], rfl, by simp⟩
  | cons t l => exact ⟨.elem t, l.map .elem ++ [.tail], rfl, by simp⟩

/-- **`list_remove`** of a thread on the list takes it off. -/
theorem Links.Holds.remove {k : Links} {l : List ℕ} (h : k.Holds l) {t : ℕ} (ht : t ∈ l) :
    (k.listRemove (.elem t)).Holds (l.erase t) := by
  obtain ⟨l₁, l₂, rfl⟩ := List.append_of_mem ht
  have ht₁ : t ∉ l₁ := fun h₁ =>
    (List.nodup_append.mp h.nodup).2.2 t h₁ t (by simp) rfl
  obtain ⟨xs, a, hxs, hat, -, -⟩ := exists_last l₁
  obtain ⟨b, ys, hys, hbh⟩ := exists_first l₂
  have hnodes : queueNodes (l₁ ++ t :: l₂) = xs ++ a :: .elem t :: b :: ys := by
    have : queueNodes (l₁ ++ t :: l₂)
        = (Node.head :: l₁.map .elem) ++ .elem t :: (l₂.map .elem ++ [.tail]) := by
      simp [queueNodes]
    rw [this, hxs, hys]
    simp
  have hnodes' : queueNodes (l₁ ++ l₂) = xs ++ a :: b :: ys := by
    have : queueNodes (l₁ ++ l₂) = (Node.head :: l₁.map .elem) ++ (l₂.map .elem ++ [.tail]) := by
      simp [queueNodes]
    rw [this, hxs, hys]
    simp
  have hnd := queueNodes_nodup h.nodup
  have hlinked := h.linked
  rw [hnodes] at hnd hlinked
  obtain ⟨-, hea, heb, -⟩ := hlinked.links
  have hae : Node.elem t ≠ a := by
    rintro rfl
    simp [List.nodup_append] at hnd
  rw [List.erase_append_right _ ht₁, List.erase_cons_head]
  refine ⟨?_, ?_, ?_, ?_⟩
  · rw [hnodes']
    refine hlinked.remove hnd ?_ ?_ ?_ ?_
    · simp [Links.listRemove, hea, heb]
    · simp [Links.listRemove, hea, heb, hae]
    · intro x _ hxa
      simp [Links.listRemove, hea, hxa]
    · intro y _ hyb
      simp [Links.listRemove, hea, heb, hae, hyb]
  · simp [Links.listRemove, hea, heb, hae, hbh.symm, h.head_prev]
  · simp [Links.listRemove, hea, hat.symm, h.tail_next]
  · exact h.nodup.sublist (List.Sublist.append_left (List.sublist_cons_self t l₂) l₁)

/-- A traversal from an element on meets the threads that follow it. -/
theorem walk_of_linked {k : Links} {l : List ℕ} {x : Node} {n : ℕ} (hn : l.length ≤ n)
    (h : Linked k.next k.prev ((x :: l.map Node.elem) ++ [Node.tail])) :
    k.walk n (k.next x) = some l := by
  induction l generalizing x n with
  | nil =>
      have hx : k.next x = .tail := (List.isChain_cons_cons.mp h).1.1
      cases n <;> simp [hx, Links.walk]
  | cons t l ih =>
      obtain ⟨⟨hx, -⟩, hrest⟩ := List.isChain_cons_cons.mp h
      cases n with
      | zero => simp at hn
      | succ n =>
          have hn' : l.length ≤ n := by simpa using hn
          simp [hx, Links.walk, ih hn' hrest]

/-! ### Agreement of the queue and the states -/

/-- The run queue holds the given threads and agrees with the states of all threads. -/
structure RunQueue (s : Sched) (l : List ℕ) : Prop where
  /-- `ready[0]` is a well-formed list of these threads, none of them twice. -/
  holds : s.ready.Holds l
  /-- Only created threads are on the list. -/
  created : ∀ t ∈ l, t < s.created
  /-- A thread is on the list exactly when it is new, ready or running. -/
  mem_iff : ∀ t < s.created, t ∈ l ↔ (s.thread t).state.queued = true
  /-- Only the current thread is running. -/
  running : ∀ t < s.created, (s.thread t).state = .running → s.current = some t
  /-- The current thread was created. -/
  current_lt : ∀ t, s.current = some t → t < s.created

/-- The states in which a call keeps the queue and the states in agreement: a thread is
scheduled only when it is blocked, blocked or killed only when it is on the list, selected
only when it is on the list and no other thread is running, and the processor is rescheduled
only when the current thread is on the list. -/
def SchedCall.Apt (s : Sched) : SchedCall → Prop
  | .create .. => True
  | .schedule t => ∀ u, t = some u → (s.thread u).state = .blocked
  | .block t | .kill t => ∀ u, t = some u → (s.thread u).state.queued = true
  | .select t => ∀ u, t = some u → (s.thread u).state.queued = true ∧
      ∀ c, s.current = some c → (s.thread c).state = .running → c = u
  | .tick userGS kernGS => userGS ≠ 0 → kernGS = 0 →
      ∀ c, s.current = some c → (s.thread c).state.queued = true

/-- What a call leaves alone: a blocked thread stays blocked unless it is scheduled, and a
dying one stays dying. -/
def SchedCall.Keeps (c : SchedCall) (s s' : Sched) : Prop :=
  s.created ≤ s'.created ∧ ∀ t < s.created,
    ((s.thread t).state = .blocked → c ≠ .schedule (some t) →
      (s'.thread t).state = .blocked) ∧
    ((s.thread t).state = .dying → (s'.thread t).state = .dying)

/-- A traversal of the run queue meets exactly its threads. -/
theorem RunQueue.readyList {s : Sched} {l : List ℕ} (h : RunQueue s l) :
    s.readyList = some l := by
  refine walk_of_linked ?_ h.holds.linked
  have hsub : l ⊆ List.range s.created := fun t ht => List.mem_range.mpr (h.created t ht)
  simpa using (List.subperm_of_subset h.holds.nodup hsub).length_le

/-- A change that leaves the list and its membership alone keeps the agreement. -/
theorem RunQueue.restate {s s' : Sched} {l : List ℕ} (h : RunQueue s l)
    (hready : s'.ready = s.ready) (hcreated : s'.created = s.created)
    (hst : ∀ t < s.created, (s'.thread t).state.queued = (s.thread t).state.queued)
    (hrun : ∀ t < s.created, (s'.thread t).state = .running → s'.current = some t)
    (hcur : ∀ t, s'.current = some t → t < s.created) : RunQueue s' l where
  holds := hready ▸ h.holds
  created := hcreated ▸ h.created
  mem_iff := by
    intro t ht
    rw [hst t (hcreated ▸ ht)]
    exact h.mem_iff t (hcreated ▸ ht)
  running := hcreated ▸ hrun
  current_lt := hcreated ▸ hcur

/-- The states after an assignment to one of them. -/
theorem setState_state (s : Sched) (t : ℕ) (st : ThreadState) (u : ℕ) :
    ((s.setState t st).thread u).state = if u = t then st else (s.thread u).state := by
  unfold Sched.setState Sched.setThread
  by_cases h : u = t
  · simp [h]
  · simp [h]

/-- `initThread` starts with an empty queue and no thread. -/
theorem RunQueue.start (s : Sched) : RunQueue s.start [] where
  holds := Links.Holds.init _
  created := by simp
  mem_iff := by simp [Sched.start, initThread]
  running := by simp [Sched.start, initThread]
  current_lt := by simp [Sched.start, initThread]

/-- `threadCreate` puts the new thread on the list. -/
theorem RunQueue.create {s s' : Sched} {l : List ℕ} {gs priority parent : ℕ}
    (h : RunQueue s l) (hc : threadCreate s gs priority parent = some s') :
    RunQueue s' (l ++ [s.created]) ∧ (SchedCall.create gs priority parent).Keeps s s' := by
  obtain ⟨m, -, rfl⟩ := Option.map_eq_some_iff.mp hc
  have hnew : s.created ∉ l := fun hmem => (h.created _ hmem).false
  have hold : ∀ (x : Thread) t, t < s.created →
      Function.update s.thread s.created x t = s.thread t :=
    fun x t ht => Function.update_of_ne ht.ne _ _
  refine ⟨⟨h.holds.pushBack hnew, ?_, ?_, ?_, ?_⟩, Nat.le_succ _, ?_⟩
  · intro t ht
    rcases List.mem_append.mp ht with ht | ht
    · exact Nat.lt_succ_of_lt (h.created t ht)
    · exact (List.mem_singleton.mp ht) ▸ Nat.lt_succ_self _
  · intro t ht
    rcases Nat.lt_succ_iff_lt_or_eq.mp ht with ht | rfl
    · simp only [hold _ t ht, List.mem_append, List.mem_singleton, ht.ne, or_false]
      exact h.mem_iff t ht
    · simp [ThreadState.queued]
  · intro t ht hrun
    rcases Nat.lt_succ_iff_lt_or_eq.mp ht with ht | rfl
    · simp only [hold _ t ht] at hrun
      exact h.running t ht hrun
    · simp at hrun
  · exact fun t ht => Nat.lt_succ_of_lt (h.current_lt t ht)
  · intro t ht
    simp only [hold _ t ht]
    exact ⟨fun hb _ => hb, fun hd => hd⟩

/-- `threadSchedule` puts a blocked thread back on the list. -/
theorem RunQueue.schedule {s : Sched} {l : List ℕ} {t : ℕ} (h : RunQueue s l)
    (ht : t < s.created) (hb : (s.thread t).state = .blocked) :
    RunQueue (threadSchedule s (some t)) (l ++ [t]) ∧
      (SchedCall.schedule (some t)).Keeps s (threadSchedule s (some t)) := by
  have hnew : t ∉ l := by simp [h.mem_iff t ht, hb, ThreadState.queued]
  refine ⟨⟨h.holds.pushBack hnew, ?_, ?_, ?_, h.current_lt⟩, le_rfl, ?_⟩
  · intro u hu
    rcases List.mem_append.mp hu with hu | hu
    · exact h.created u hu
    · exact (List.mem_singleton.mp hu) ▸ ht
  · intro u hu
    simp only [threadSchedule, setState_state, List.mem_append, List.mem_singleton]
    split_ifs with hut
    · simp [hut, ThreadState.queued]
    · simpa [hut] using h.mem_iff u hu
  · intro u hu hrun
    simp only [threadSchedule, setState_state] at hrun
    split_ifs at hrun
    exact h.running u hu hrun
  · intro u hu
    simp only [threadSchedule, setState_state]
    split_ifs with hut
    · subst hut
      simp [hb]
    · exact ⟨fun hb _ => hb, fun hd => hd⟩

/-- Taking a thread off the list with a state that says so: the common part of `threadBlock`
and `threadKill`. -/
theorem RunQueue.unqueue {s : Sched} {l : List ℕ} {t : ℕ} {st : ThreadState}
    (h : RunQueue s l) (ht : t < s.created) (hq : (s.thread t).state.queued = true)
    (hst : st.queued = false) (c : SchedCall) :
    RunQueue { s.setState t st with ready := s.ready.listRemove (.elem t) } (l.erase t) ∧
      c.Keeps s { s.setState t st with ready := s.ready.listRemove (.elem t) } := by
  have hmem : t ∈ l := (h.mem_iff t ht).mpr hq
  refine ⟨⟨h.holds.remove hmem, ?_, ?_, ?_, h.current_lt⟩, le_rfl, ?_⟩
  · exact fun u hu => h.created u (List.mem_of_mem_erase hu)
  · intro u hu
    simp only [setState_state, h.holds.nodup.mem_erase_iff]
    split_ifs with hut
    · simp [hut, hst]
    · simpa [hut] using h.mem_iff u hu
  · intro u hu hrun
    simp only [setState_state] at hrun
    split_ifs at hrun
    · simp [hrun, ThreadState.queued] at hst
    · exact h.running u hu hrun
  · intro u hu
    simp only [setState_state]
    split_ifs with hut
    · subst hut
      constructor <;> intro h' <;> simp [h', ThreadState.queued] at hq
    · exact ⟨fun hb _ => hb, fun hd => hd⟩

/-- Making a thread on the list the running one, when no other thread runs: the common part
of `threadSelect` and `threadNext`. -/
theorem RunQueue.makeRunning {s s' : Sched} {l : List ℕ} {t : ℕ} (h : RunQueue s l)
    (ht : t < s.created) (hq : (s.thread t).state.queued = true)
    (hother : ∀ u < s.created, (s.thread u).state = .running → u = t)
    (hready : s'.ready = s.ready) (hcreated : s'.created = s.created)
    (hthread : s'.thread = (s.setState t .running).thread) (hcur : s'.current = some t)
    (c : SchedCall) : RunQueue s' l ∧ c.Keeps s s' := by
  have hstate : ∀ u, (s'.thread u).state = if u = t then .running else (s.thread u).state := by
    intro u
    rw [hthread, setState_state]
  refine ⟨h.restate hready hcreated ?_ ?_ ?_, hcreated.ge, ?_⟩
  · intro u _
    rw [hstate]
    split_ifs with hut
    · rw [hut, hq]
      rfl
    · rfl
  · intro u hu hrun
    rw [hstate] at hrun
    split_ifs at hrun with hut
    · rw [hcur, hut]
    · exact absurd (hother u hu hrun) hut
  · intro u hu
    rw [hcur] at hu
    exact (Option.some.inj hu) ▸ ht
  · intro u _
    rw [hstate]
    split_ifs with hut
    · subst hut
      constructor <;> intro h' <;> simp [h', ThreadState.queued] at hq
    · exact ⟨fun hb _ => hb, fun hd => hd⟩

/-- `threadNext` from a current thread on the list. -/
theorem RunQueue.next {s s' : Sched} {l : List ℕ} {c : SchedCall} (h : RunQueue s l)
    (hq : ∀ t, s.current = some t → (s.thread t).state.queued = true)
    (hn : threadNext s = some s') : RunQueue s' l ∧ c.Keeps s s' := by
  obtain ⟨cur, l', u, hcur, hl, hu, hready, hcreated, hcur', hthread, -⟩ := threadNext_spec hn
  obtain rfl : l = l' := Option.some.inj (h.readyList.symm.trans hl)
  have hmem : u ∈ l := (minThreadOf_some hu).1
  have hqcur := hq cur hcur
  -- after the outgoing thread is made ready, no thread is running
  have hready₁ : RunQueue (s.setState cur .ready) l := by
    refine h.restate rfl rfl (fun t _ => ?_) (fun t ht hrun => ?_) h.current_lt
    · rw [setState_state]
      split_ifs with ht
      · rw [ht, hqcur]
        rfl
      · rfl
    · rw [setState_state] at hrun
      split_ifs at hrun
      exact h.running t ht hrun
  have hnone : ∀ t < s.created, ((s.setState cur .ready).thread t).state = .running → t = u := by
    intro t ht hrun
    have hcurt : s.current = some t := hready₁.running t ht hrun
    obtain rfl := Option.some.inj (hcur.symm.trans hcurt)
    simp [setState_state] at hrun
  obtain ⟨hq', -, hkeep⟩ := hready₁.makeRunning (hready₁.created u hmem)
    ((hready₁.mem_iff u (hready₁.created u hmem)).mp hmem) hnone hready hcreated hthread hcur' c
  refine ⟨hq', hcreated.ge, fun t ht => ⟨fun hb hc => (hkeep t ht).1 ?_ hc,
    fun hd => (hkeep t ht).2 ?_⟩⟩
  · rw [setState_state, if_neg, hb]
    rintro rfl
    simp [hb, ThreadState.queued] at hqcur
  · rw [setState_state, if_neg, hd]
    rintro rfl
    simp [hd, ThreadState.queued] at hqcur

/-- The timer tick: charging does not touch the states, and rescheduling is `threadNext`. -/
theorem RunQueue.tick {s s' : Sched} {l : List ℕ} {userGS kernGS : ℕ} (h : RunQueue s l)
    (hapt : (SchedCall.tick userGS kernGS).Apt s)
    (hs : (SchedCall.tick userGS kernGS).run s = some s') :
    RunQueue s' l ∧ (SchedCall.tick userGS kernGS).Keeps s s' := by
  unfold SchedCall.run irqThreadTimerHandler at hs
  set s₁ : Sched :=
    { s with userGS := userGS, kernGS := kernGS, timerTicks := s.timerTicks + 1 } with hs₁
  obtain ⟨hready, hcreated, hcur, -, hu, hk, hth⟩ := charge_spec s₁
  have hst : ∀ t, (s₁.charge.thread t).state = (s.thread t).state := fun t => (hth t).1
  have hcharged : RunQueue s₁.charge l := by
    refine h.restate hready hcreated (fun t _ => by rw [hst]) (fun t ht hrun => ?_) ?_
    · rw [hst] at hrun
      exact hcur.trans (h.running t ht hrun)
    · exact fun t ht => h.current_lt t (hcur.symm.trans ht)
  simp only at hs
  split_ifs at hs with hresched
  · have hq : ∀ t, s₁.charge.current = some t → (s₁.charge.thread t).state.queued = true := by
      intro t ht
      rw [hst]
      exact hapt (hu.symm.trans_ne hresched.1) (hk.symm.trans hresched.2) t
        (hcur.symm.trans ht)
    obtain ⟨hq', hle, hkeep⟩ := hcharged.next (c := .tick userGS kernGS) hq hs
    refine ⟨hq', hcreated.ge.trans hle, fun t ht => ?_⟩
    rw [← hst t]
    exact hkeep t (hcreated.ge.trans' ht)
  · obtain rfl := Option.some.inj hs
    refine ⟨hcharged, hcreated.ge, fun t _ => ?_⟩
    rw [hst]
    exact ⟨fun hb _ => hb, fun hd => hd⟩

/-- **An apt call keeps the agreement**, and leaves blocked and dying threads alone. -/
theorem RunQueue.step {s s' : Sched} {l : List ℕ} {c : SchedCall} (h : RunQueue s l)
    (hapt : c.Apt s) (hs : SchedStep c s s') : ∃ l', RunQueue s' l' ∧ c.Keeps s s' := by
  obtain ⟨hlt, hrun⟩ := hs
  have hsame : ∀ c : SchedCall, c.Keeps s s := fun _ =>
    ⟨le_rfl, fun _ _ => ⟨fun hb _ => hb, fun hd => hd⟩⟩
  cases c with
  | create gs priority parent => exact ⟨_, h.create hrun⟩
  | schedule t =>
      obtain rfl := Option.some.inj hrun
      cases t with
      | none => exact ⟨l, h, hsame _⟩
      | some t => exact ⟨_, h.schedule (hlt t rfl) (hapt t rfl)⟩
  | block t =>
      obtain rfl := Option.some.inj hrun
      cases t with
      | none => exact ⟨l, h, hsame _⟩
      | some t => exact ⟨_, h.unqueue (hlt t rfl) (hapt t rfl) rfl _⟩
  | kill t =>
      obtain rfl := Option.some.inj hrun
      cases t with
      | none => exact ⟨l, h, hsame _⟩
      | some t => exact ⟨_, h.unqueue (hlt t rfl) (hapt t rfl) rfl _⟩
  | select t =>
      obtain rfl := Option.some.inj hrun
      cases t with
      | none => exact ⟨l, h, hsame _⟩
      | some t =>
          obtain ⟨hq, hother⟩ := hapt t rfl
          have honly : ∀ u < s.created, (s.thread u).state = .running → u = t :=
            fun u hu hrun => hother u (h.running u hu hrun) hrun
          have hsel : RunQueue (threadSelect s (some t)) l ∧
              (SchedCall.select (some t)).Keeps s (threadSelect s (some t)) :=
            h.makeRunning (hlt t rfl) hq honly (by rfl) (by rfl) (by rfl) (by rfl) _
          exact ⟨l, hsel⟩
  | tick userGS kernGS => exact ⟨l, h.tick hapt hrun⟩

/-! ### Whole runs -/

/-- A step by a call that is apt in the state before it. -/
def AptStep (c : SchedCall) (s s' : Sched) : Prop := SchedStep c s s' ∧ c.Apt s

/-- The agreement is kept over runs of apt calls. -/
theorem RunQueue.run {s s' : Sched} {cs : List SchedCall} (h : ∃ l, RunQueue s l)
    (hrun : Run AptStep s cs s') : ∃ l, RunQueue s' l := by
  refine Run.invariant (O := fun _ => True) (P := fun s => ∃ l, RunQueue s l) ?_ hrun
    (fun _ _ => trivial) h
  rintro c s s' - ⟨l, hl⟩ ⟨hstep, hapt⟩
  obtain ⟨l', hl', -⟩ := hl.step hapt hstep
  exact ⟨l', hl'⟩

/-- Over a run of apt calls a dying thread stays dying, and a blocked thread that is not
scheduled stays blocked. -/
theorem RunQueue.keeps {s s' : Sched} {cs : List SchedCall} (h : ∃ l, RunQueue s l)
    (hrun : Run AptStep s cs s') : s.created ≤ s'.created ∧ ∀ t < s.created,
      ((s.thread t).state = .dying → (s'.thread t).state = .dying) ∧
      ((s.thread t).state = .blocked → .schedule (some t) ∉ cs →
        (s'.thread t).state = .blocked) := by
  induction hrun with
  | nil => exact ⟨le_rfl, fun t _ => ⟨fun hd => hd, fun hb _ => hb⟩⟩
  | @snoc s₁ s₂ cs c hrun hc ih =>
      obtain ⟨hle, hold⟩ := ih
      obtain ⟨l, hl⟩ := RunQueue.run h hrun
      obtain ⟨-, -, hle', hkeep⟩ := hl.step hc.2 hc.1
      refine ⟨hle.trans hle', fun t ht => ⟨fun hd => ?_, fun hb hcs => ?_⟩⟩
      · exact (hkeep t (ht.trans_le hle)).2 ((hold t ht).1 hd)
      · rw [List.mem_append, not_or] at hcs
        exact (hkeep t (ht.trans_le hle)).1 ((hold t ht).2 hb hcs.1)
          fun hc => hcs.2 (by simp [hc])

/-- The run queue and the thread states agree: the links form a list of distinct threads,
which are exactly those whose state is new, ready or running, and only the current thread is
running. -/
def Sched.Agrees (s : Sched) : Prop := ∃ l, RunQueue s l

/-- **The run queue agrees with the thread states.** In every run of apt calls from
`initThread` on, the queue and the states agree, and in every continuation by apt calls they
still do, dying threads are still dying, and blocked threads that were not scheduled are still
blocked (and so, by the agreement, off the list). -/
theorem queue_agrees_of_run {s₀ s s' : Sched} {cs cs' : List SchedCall}
    (hrun : Run AptStep s₀.start cs s) (hrun' : Run AptStep s cs' s') :
    s.Agrees ∧ s'.Agrees ∧ ∀ t < s.created,
      ((s.thread t).state = .dying → (s'.thread t).state = .dying) ∧
      ((s.thread t).state = .blocked → .schedule (some t) ∉ cs' →
        (s'.thread t).state = .blocked) := by
  have hs : s.Agrees := RunQueue.run ⟨[], RunQueue.start s₀⟩ hrun
  exact ⟨hs, RunQueue.run hs hrun', (RunQueue.keeps hs hrun').2⟩

/-- A thread is created, selected, blocked and scheduled again. -/
theorem queue_agrees_of_run_block :
    ∃ s s', Run AptStep Sched.zero.start
        [.create 1 0 0, .select (some 0), .block (some 0)] s ∧
      Run AptStep s [.schedule (some 0)] s' ∧ s.Agrees ∧ s'.Agrees := by
  have hcreate : Run AptStep Sched.zero.start [.create 1 0 0] _ :=
    (Run.nil _).snoc ⟨⟨by simp [SchedCall.target], rfl⟩, trivial⟩
  have hselect := hcreate.append_one (.select (some 0))
    ⟨⟨by rintro t ⟨⟩; exact Nat.one_pos, rfl⟩, by rintro t ⟨⟩; exact ⟨rfl, by rintro c ⟨⟩⟩⟩
  have hblock := hselect.append_one (.block (some 0))
    ⟨⟨by rintro t ⟨⟩; exact Nat.one_pos, rfl⟩, by rintro t ⟨⟩; rfl⟩
  have hnext : ∀ {cs : List SchedCall} {s : Sched}, Run AptStep Sched.zero.start cs s →
      s.created = 1 → (s.thread 0).state = .blocked →
      ∃ s', Run AptStep s [.schedule (some 0)] s' := fun _ hc hb =>
    ⟨_, (Run.nil _).snoc ⟨⟨by rintro t ⟨⟩; simp [hc], rfl⟩, by rintro t ⟨⟩; exact hb⟩⟩
  obtain ⟨s', hschedule⟩ := hnext hblock rfl rfl
  have h := queue_agrees_of_run hblock hschedule
  exact ⟨_, s', hblock, hschedule, h.1, h.2.1⟩

/-- Scheduling a thread that was just created links its element to itself: the run queue is
no list any more. -/
theorem queue_disagrees_after_schedule :
    ∃ s, Run SchedStep Sched.zero.start [.create 1 0 0, .schedule (some 0)] s ∧ ¬s.Agrees := by
  have hcreate : Run SchedStep Sched.zero.start [.create 1 0 0] _ :=
    (Run.nil _).snoc ⟨by simp [SchedCall.target], rfl⟩
  have hschedule := hcreate.append_one (.schedule (some 0))
    ⟨by rintro t ⟨⟩; exact Nat.one_pos, rfl⟩
  refine ⟨_, hschedule, ?_⟩
  rintro ⟨l, hl⟩
  cases hl.readyList

end AnglOS
