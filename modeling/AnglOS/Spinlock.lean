import AnglOS.AtomicObject

/-!
# The Spinlock

`spinLock` and `spinUnlock` of `threads/spinlock.h`, one access to the lock byte at a time. Any
number of callers do operations on shared state, each of them between the two calls, and their
steps interleave in any order.

## Main results

* `spinLock_atomic` — the operations look atomic, one caller is inside at a time, and the lock
  byte says whether one is;
* `spinLock_free_bound` — how long a free lock can go without being taken;
* `spinLock_completes` — every call can be completed, in every state that is ever reached;
* `spinLock_stuck` — while a caller stands still inside, nobody else comes in.
-/

namespace AnglOS

/-- `BUSY`. -/
abbrev spinBusy : BitVec 8 := 1

/-- `INIT_BACKOFF`. -/
abbrev initBackoff : BitVec 32 := 2000

/-- `MAX_BACKOFF`. -/
abbrev maxBackoff : BitVec 32 := 128 * 2000

/-- `xchg_8`: the byte after the exchange, and the byte before. -/
def xchg8 (lock x : BitVec 8) : BitVec 8 × BitVec 8 :=
  (x, lock)

/-- Where a caller stands in `spinLock`: before the exchange, at the condition of the loop that
reads the lock, or in the delay loop. -/
inductive SpinAt
  | xchg
  | load (wait : BitVec 32)
  | delay (wait i : BitVec 32)

/-- The next step of `spinLock`: the lock after it, and where the caller then stands, unless the
call has returned. -/
def spinLockStep (lock : BitVec 8) : SpinAt → BitVec 8 × Option SpinAt
  | .xchg =>
    ((xchg8 lock spinBusy).1,
      if (xchg8 lock spinBusy).2 = 0 then none else some (.load initBackoff))
  | .load wait => (lock, some (if lock = 0 then .xchg else .delay wait 0))
  | .delay wait i =>
    (lock, some (if i < wait then .delay wait (i + 1)
      else .load (if wait ≤ maxBackoff then wait * 2 else wait)))

/-- Where a party stands. -/
inductive SpinPlace (κ ρ σ : Type*)
  | idle
  | spin (k : κ) (w : SpinAt)
  | inside (k : κ) (r : ρ) (ops : List (ObjectStep ρ σ))
  | done (r : ρ)

/-- The lock, the state that it guards, and where the parties stand. -/
structure SpinState (ι κ ρ σ : Type*) where
  lock : BitVec 8
  shared : σ
  place : ι → SpinPlace κ ρ σ

variable {ι κ ρ σ : Type*} [DecidableEq ι] {O : SharedObject κ ρ σ}

variable (O) in
/-- Where a step of `spinLock` leads to. -/
def SpinPlace.next (k : κ) : Option SpinAt → SpinPlace κ ρ σ
  | some w => .spin k w
  | none => .inside k (O.start k) (O.body k)

variable (O) in
/-- The steps of the parties. `spinUnlock` clears the lock. -/
inductive SpinStep : CallLabel ι κ ρ → SpinState ι κ ρ σ → SpinState ι κ ρ σ → Prop
  | call {s : SpinState ι κ ρ σ} {i : ι} (k : κ) (h : s.place i = .idle) :
      SpinStep (.call i k) s { s with place := Function.update s.place i (.spin k .xchg) }
  | spin {s : SpinState ι κ ρ σ} {i : ι} {k : κ} {w : SpinAt} (h : s.place i = .spin k w) :
      SpinStep (.tau i) s
        { s with
          lock := (spinLockStep s.lock w).1
          place := Function.update s.place i (.next O k (spinLockStep s.lock w).2) }
  | work {s : SpinState ι κ ρ σ} {i : ι} {k : κ} {r : ρ} {op : ObjectStep ρ σ}
      {ops : List (ObjectStep ρ σ)} (h : s.place i = .inside k r (op :: ops)) :
      SpinStep (.tau i) s
        { s with
          shared := (op r s.shared).2
          place := Function.update s.place i (.inside k (op r s.shared).1 ops) }
  | unlock {s : SpinState ι κ ρ σ} {i : ι} {k : κ} {r : ρ} (h : s.place i = .inside k r []) :
      SpinStep (.tau i) s { s with lock := 0, place := Function.update s.place i (.done r) }
  | ret {s : SpinState ι κ ρ σ} {i : ι} {r : ρ} (h : s.place i = .done r) :
      SpinStep (.ret i r) s { s with place := Function.update s.place i .idle }

/-- `spinInit`: the lock is free, and nobody has called anything. -/
def SpinState.init (s₀ : σ) : SpinState ι κ ρ σ :=
  ⟨0, s₀, fun _ => .idle⟩

/-- A party is between `spinLock` and `spinUnlock`. -/
def SpinState.Inside (s : SpinState ι κ ρ σ) (i : ι) : Prop :=
  ∃ k r ops, s.place i = .inside k r ops

/-! ### The steps of `spinLock` -/

theorem spinLockStep_xchg_free : spinLockStep 0 .xchg = (spinBusy, none) := rfl

theorem spinLockStep_xchg_busy {lock : BitVec 8} (h : lock ≠ 0) :
    spinLockStep lock .xchg = (spinBusy, some (.load initBackoff)) :=
  Prod.ext rfl (if_neg h)

/-- A step of `spinLock` returns exactly if it finds the lock free, and then it has taken it. -/
theorem spinLockStep_eq_none {lock : BitVec 8} {w : SpinAt} (h : (spinLockStep lock w).2 = none) :
    lock = 0 ∧ (spinLockStep lock w).1 = spinBusy := by
  cases w with
  | xchg =>
    by_cases h0 : lock = 0
    · exact ⟨h0, rfl⟩
    · rw [spinLockStep_xchg_busy h0] at h
      cases h
  | load wait => simp [spinLockStep] at h
  | delay wait i => simp [spinLockStep] at h

/-- A step of `spinLock` that does not return leaves a free lock free and a busy one busy. -/
theorem spinLockStep_eq_some {lock : BitVec 8} {w w' : SpinAt}
    (h : (spinLockStep lock w).2 = some w') : (spinLockStep lock w).1 = 0 ↔ lock = 0 := by
  cases w with
  | xchg =>
    by_cases h0 : lock = 0
    · rw [h0, spinLockStep_xchg_free] at h
      cases h
    · rw [spinLockStep_xchg_busy h0]
      exact iff_of_false (by decide) h0
  | load wait => rfl
  | delay wait i => rfl

/-! ### Atomicity -/

/-- What a place is for a lock without a loop. -/
def SpinPlace.exclusive : SpinPlace κ ρ σ → ExclusivePlace κ ρ σ
  | .idle => .idle
  | .spin k _ => .waiting k
  | .inside k r ops => .inside k r ops
  | .done r => .done r

/-- **The lock byte is zero exactly while there is no holder.** -/
structure SpinRefines (s : SpinState ι κ ρ σ) (t : ExclusiveState ι κ ρ σ) : Prop where
  shared : t.shared = s.shared
  place : ∀ i, t.place i = (s.place i).exclusive
  lock : t.holder = none ↔ s.lock = 0

theorem exclusive_update (place : ι → SpinPlace κ ρ σ) (i : ι) (p : SpinPlace κ ρ σ) (j : ι) :
    (Function.update place i p j).exclusive =
      Function.update (fun j => (place j).exclusive) i p.exclusive j := by
  rcases eq_or_ne j i with rfl | hne
  · simp
  · simp [Function.update_of_ne hne]

/-- **A step of the spinlock** is a step of a lock without a loop. -/
theorem SpinRefines.step {c : CallLabel ι κ ρ} {s s' : SpinState ι κ ρ σ}
    {t : ExclusiveState ι κ ρ σ} (h : SpinRefines s t) (hc : SpinStep O c s s') :
    ∃ t', ExclusiveStep O c t t' ∧ SpinRefines s' t' := by
  have hplace : t.place = fun j => (s.place j).exclusive := funext h.place
  cases hc with
  | @call _ i k hidle =>
    have hi : t.place i = .idle := by rw [h.place, hidle]; rfl
    exact ⟨_, .call k hi, h.shared, fun j => by rw [exclusive_update, hplace]; rfl, h.lock⟩
  | @spin _ i k w hspin =>
    have hi : t.place i = .waiting k := by rw [h.place, hspin]; rfl
    cases hnext : (spinLockStep s.lock w).2 with
    | none =>
      obtain ⟨hfree, hbusy⟩ := spinLockStep_eq_none hnext
      exact ⟨_, .enter hi (h.lock.mpr hfree), h.shared,
        fun j => by rw [exclusive_update, hplace]; rfl, by simp [hbusy]⟩
    | some w' =>
      refine ⟨t, .wait hi, h.shared, fun j => ?_,
        h.lock.trans (spinLockStep_eq_some hnext).symm⟩
      rw [exclusive_update, ← hplace]
      rcases eq_or_ne j i with rfl | hne
      · rw [Function.update_self, hi]
        rfl
      · rw [Function.update_of_ne hne]
  | @work _ i k r op ops hin =>
    have hi : t.place i = .inside k r (op :: ops) := by rw [h.place, hin]; rfl
    refine ⟨_, .work hi, ?_, fun j => ?_, h.lock⟩
    · exact congrArg (fun x => (op r x).2) h.shared
    · rw [exclusive_update, hplace, h.shared]
      rfl
  | @unlock _ i k r hin =>
    have hi : t.place i = .inside k r [] := by rw [h.place, hin]; rfl
    exact ⟨_, .leave hi, h.shared, fun j => by rw [exclusive_update, hplace]; rfl, by simp⟩
  | @ret _ i r hdone =>
    have hi : t.place i = .done r := by rw [h.place, hdone]; rfl
    exact ⟨_, .ret hi, h.shared, fun j => by rw [exclusive_update, hplace]; rfl, h.lock⟩

omit [DecidableEq ι] in
/-- What is inside for the one lock is inside for the other one. -/
theorem SpinRefines.inside {s : SpinState ι κ ρ σ} {t : ExclusiveState ι κ ρ σ}
    (h : SpinRefines s t) {i : ι} {k : κ} {r : ρ} {ops : List (ObjectStep ρ σ)} :
    s.place i = .inside k r ops ↔ t.place i = .inside k r ops := by
  rw [h.place]
  cases s.place i <;> simp [SpinPlace.exclusive]

/-- **A run of the spinlock**, seen through the lock without a loop and through the
specification. -/
theorem SpinStep.refines {s₀ : σ} {s : SpinState ι κ ρ σ} {cs : List (CallLabel ι κ ρ)}
    (h : Run (SpinStep O) (SpinState.init s₀) cs s) :
    ∃ u ds t, SpinRefines s u ∧ ExclusiveRefines O u t ∧
      Run (AtomicStep O) ⟨s₀, fun _ => .idle⟩ ds t ∧
      ds.filterMap CallLabel.look = cs.filterMap CallLabel.look := by
  have hinit : SpinRefines (SpinState.init s₀ : SpinState ι κ ρ σ) ⟨s₀, fun _ => .idle, none⟩ :=
    ⟨rfl, fun _ => rfl, by simp [SpinState.init]⟩
  obtain ⟨u, hrun, hu⟩ := h.simulate (fun _ _ _ _ hst hc => hst.step hc) hinit
  obtain ⟨ds, t, hrun', hlook, ht⟩ := ExclusiveStep.refines hrun (.initial O s₀)
  exact ⟨u, ds, t, hu, ht, hrun', hlook⟩

/-- **Who is inside**: at most one party, and one exactly while the lock byte is set. -/
theorem inside_of_run {s₀ : σ} {s : SpinState ι κ ρ σ} {cs : List (CallLabel ι κ ρ)}
    (h : Run (SpinStep O) (SpinState.init s₀) cs s) :
    (∀ i j, s.Inside i → s.Inside j → i = j) ∧ (s.lock ≠ 0 ↔ ∃ i, s.Inside i) := by
  obtain ⟨u, ds, t, hu, ht, -, -⟩ := SpinStep.refines h
  refine ⟨?_, ?_⟩
  · rintro i j ⟨k, r, ops, hi⟩ ⟨k', r', ops', hj⟩
    exact ht.only (hu.inside.mp hi) (hu.inside.mp hj)
  · rw [ne_eq, ← hu.lock, ← ne_eq, Option.ne_none_iff_exists']
    constructor
    · rintro ⟨i, hi⟩
      obtain ⟨k, r, ops, hin⟩ := ht.inside i hi
      exact ⟨i, k, r, ops, hu.inside.mpr hin⟩
    · rintro ⟨i, k, r, ops, hin⟩
      exact ⟨i, ht.holder i k r ops (hu.inside.mp hin)⟩

/-- **`spinLock` makes operations atomic**: every interleaving of any number of callers has the
calls and the results of a run in which each operation takes effect in one step, and the same
shared state while the lock is free. At most one caller is between `spinLock` and `spinUnlock`, and
one is exactly while the lock byte is set. -/
theorem spinLock_atomic {s₀ : σ} {s : SpinState ι κ ρ σ} {cs : List (CallLabel ι κ ρ)}
    (h : Run (SpinStep O) (SpinState.init s₀) cs s) :
    (∃ ds t, Run (AtomicStep O) ⟨s₀, fun _ => .idle⟩ ds t ∧
      ds.filterMap CallLabel.look = cs.filterMap CallLabel.look ∧
      (s.lock = 0 → t.shared = s.shared)) ∧
    (∀ i j, s.Inside i → s.Inside j → i = j) ∧ (s.lock ≠ 0 ↔ ∃ i, s.Inside i) := by
  obtain ⟨u, ds, t, hu, ht, hrun, hlook⟩ := SpinStep.refines h
  refine ⟨⟨ds, t, hrun, hlook, fun hfree => ?_⟩, inside_of_run h⟩
  rw [← ht.free (hu.lock.mpr hfree), hu.shared]

/-- A counter that is read and then written back one higher. -/
def ticketCounter : SharedObject Unit ℕ ℕ where
  start _ := 0
  body _ := [fun _ s => (s, s), fun r _ => (r, r + 1)]

/-- Two callers, of which the first one has read the counter. -/
theorem run_ticketCounter : ∃ s, Run (SpinStep ticketCounter) (SpinState.init 0)
    [.call true (), .call false (), .tau true, .tau true] s ∧ s.Inside true ∧
      s.place false = .spin () .xchg := by
  obtain ⟨s₁, h₁, ht₁, hf₁, hl₁⟩ : ∃ s₁, SpinStep ticketCounter (.call true ())
      (SpinState.init 0) s₁ ∧ s₁.place true = .spin () .xchg ∧ s₁.place false = .idle ∧
        s₁.lock = 0 := ⟨_, .call () rfl, rfl, rfl, rfl⟩
  obtain ⟨s₂, h₂, ht₂, hf₂, hl₂⟩ : ∃ s₂, SpinStep ticketCounter (.call false ()) s₁ s₂ ∧
      s₂.place true = .spin () .xchg ∧ s₂.place false = .spin () .xchg ∧ s₂.lock = 0 :=
    ⟨_, .call () hf₁, ht₁, rfl, hl₁⟩
  obtain ⟨s₃, h₃, ht₃, hf₃⟩ : ∃ s₃, SpinStep ticketCounter (.tau true) s₂ s₃ ∧
      s₃.place true = .inside () 0 (ticketCounter.body ()) ∧ s₃.place false = .spin () .xchg :=
    ⟨_, .spin ht₂, by rw [hl₂]; rfl, hf₂⟩
  obtain ⟨s₄, h₄, ht₄, hf₄⟩ : ∃ s₄, SpinStep ticketCounter (.tau true) s₃ s₄ ∧ s₄.Inside true ∧
      s₄.place false = .spin () .xchg := ⟨_, .work ht₃, ⟨_, _, _, rfl⟩, hf₃⟩
  exact ⟨s₄, ((((Run.nil _).append_one _ h₁).append_one _ h₂).append_one _ h₃).append_one _ h₄,
    ht₄, hf₄⟩

theorem spinLock_atomic_tickets : ∃ s : SpinState Bool Unit ℕ ℕ,
    (∃ ds t, Run (AtomicStep ticketCounter) ⟨0, fun _ => .idle⟩ ds t ∧
      ds.filterMap CallLabel.look = [.call true (), .call false ()] ∧
      (s.lock = 0 → t.shared = s.shared)) ∧
    (∀ i j, s.Inside i → s.Inside j → i = j) ∧ (s.lock ≠ 0 ↔ ∃ i, s.Inside i) := by
  obtain ⟨s, hrun, -⟩ := run_ticketCounter
  exact ⟨s, spinLock_atomic hrun⟩

/-! ### Waiting -/

/-- `2 * MAX_BACKOFF`, the most rounds that the delay loop ever makes. -/
abbrev longestWait : ℕ := 512000

/-- One more round of the delay loop. -/
theorem toNat_add_one_of_lt {i wait : BitVec 32} (h : i < wait) : (i + 1).toNat = i.toNat + 1 := by
  rw [BitVec.lt_def] at h
  have hone : (1 : BitVec 32).toNat = 1 := rfl
  rw [BitVec.toNat_add, hone, Nat.mod_eq_of_lt (by omega)]

/-- The delay doubles without wrapping. -/
theorem toNat_mul_two {wait : BitVec 32} (h : wait ≤ maxBackoff) :
    (wait * 2).toNat = wait.toNat * 2 := by
  have hle : wait.toNat ≤ 256000 := h
  have htwo : (2 : BitVec 32).toNat = 2 := rfl
  rw [BitVec.toNat_mul, htwo, Nat.mod_eq_of_lt (by omega)]

/-- The variables of `spinLock` stay in range. -/
def SpinAt.InRange : SpinAt → Prop
  | .xchg => True
  | .load wait => wait.toNat ≤ longestWait
  | .delay wait i => i.toNat ≤ wait.toNat ∧ wait.toNat ≤ longestWait

/-- How many steps a caller takes before its next exchange, if the lock is free. -/
def SpinAt.stepsLeft : SpinAt → ℕ
  | .xchg => 0
  | .load _ => 1
  | .delay wait i => wait.toNat - i.toNat + 2

/-- The delay doubles up to its largest value, and does not overflow. -/
theorem SpinAt.InRange.next {lock : BitVec 8} {w w' : SpinAt} (h : w.InRange)
    (hw : (spinLockStep lock w).2 = some w') : w'.InRange := by
  cases w with
  | xchg =>
    by_cases h0 : lock = 0
    · rw [h0, spinLockStep_xchg_free] at hw
      cases hw
    · rw [spinLockStep_xchg_busy h0] at hw
      obtain rfl := Option.some.inj hw
      exact (by decide : initBackoff.toNat ≤ longestWait)
  | load wait =>
    obtain rfl := Option.some.inj hw
    split_ifs
    · trivial
    · exact ⟨Nat.zero_le _, h⟩
  | delay wait i =>
    obtain ⟨hi, hwait⟩ := h
    obtain rfl := Option.some.inj hw
    by_cases hlt : i < wait
    · rw [if_pos hlt]
      refine ⟨?_, hwait⟩
      rw [toNat_add_one_of_lt hlt]
      exact hlt
    · rw [if_neg hlt]
      by_cases hmax : wait ≤ maxBackoff
      · have hle : wait.toNat ≤ 256000 := hmax
        rw [if_pos hmax, SpinAt.InRange, toNat_mul_two hmax]
        exact Nat.mul_le_mul_right 2 hle
      · rw [if_neg hmax]
        exact hwait

/-- A caller that finds the lock free comes closer to its next exchange. -/
theorem stepsLeft_next {w w' : SpinAt} (hw : (spinLockStep 0 w).2 = some w') :
    w'.stepsLeft + 1 = w.stepsLeft := by
  cases w with
  | xchg => cases hw
  | load wait =>
    obtain rfl := Option.some.inj hw
    rfl
  | delay wait i =>
    obtain rfl := Option.some.inj hw
    by_cases hlt : i < wait
    · have hlt' : i.toNat < wait.toNat := hlt
      rw [if_pos hlt, SpinAt.stepsLeft, SpinAt.stepsLeft, toNat_add_one_of_lt hlt]
      omega
    · have hge : ¬i.toNat < wait.toNat := hlt
      rw [if_neg hlt, SpinAt.stepsLeft, SpinAt.stepsLeft]
      omega

theorem SpinAt.InRange.stepsLeft_le {w : SpinAt} (h : w.InRange) :
    w.stepsLeft ≤ longestWait + 2 := by
  cases w with
  | xchg => exact Nat.zero_le _
  | load wait => exact Nat.le_add_left 1 _
  | delay wait i =>
    have hwait : wait.toNat ≤ longestWait := h.2
    simp only [SpinAt.stepsLeft]
    omega

/-- A party that takes no step stays where it is. -/
theorem SpinStep.place_of_ne {c : CallLabel ι κ ρ} {s s' : SpinState ι κ ρ σ} {i : ι}
    (h : SpinStep O c s s') (hi : c.party ≠ i) : s'.place i = s.place i := by
  cases h <;> exact Function.update_of_ne (Ne.symm hi) ..

/-- **The delays stay in range** in every run. -/
theorem inRange_of_run {s₀ : σ} {s : SpinState ι κ ρ σ} {cs : List (CallLabel ι κ ρ)}
    (h : Run (SpinStep O) (SpinState.init s₀) cs s) {i : ι} {k : κ} {w : SpinAt}
    (hi : s.place i = .spin k w) : w.InRange := by
  induction h generalizing k w with
  | nil => cases hi
  | @snoc s₁ s₂ cs c _ hc ih =>
    by_cases hparty : c.party = i
    · subst hparty
      cases hc with
      | call k hidle =>
        obtain ⟨-, rfl⟩ : k = _ ∧ SpinAt.xchg = w := by
          simpa [CallLabel.party] using hi
        trivial
      | @spin _ j k' w' hspin =>
        cases hnext : (spinLockStep s₁.lock w').2 with
        | none => simp [CallLabel.party, hnext, SpinPlace.next] at hi
        | some v =>
          obtain ⟨-, rfl⟩ : k' = k ∧ v = w := by
            simpa [CallLabel.party, hnext, SpinPlace.next] using hi
          exact (ih hspin).next hnext
      | work hin => simp [CallLabel.party] at hi
      | unlock hin => simp [CallLabel.party] at hi
      | ret hdone => simp [CallLabel.party] at hi
    · rw [hc.place_of_ne hparty] at hi
      exact ih hi

/-- **A free lock is taken soon**: no delay is longer than twice `MAX_BACKOFF`, and none wraps when
it is doubled; and as long as the lock is free, no caller of `spinLock` takes more steps than the
longest delay and one look at the lock need. -/
theorem spinLock_free_bound {s₀ : σ} {s s' : SpinState ι κ ρ σ} {cs₀ cs : List (CallLabel ι κ ρ)}
    (h₀ : Run (SpinStep O) (SpinState.init s₀) cs₀ s) (hfree : s.lock = 0)
    (h : Run (fun c s s' => SpinStep O c s s' ∧ s'.lock = 0) s cs s') {i : ι} {k : κ} {w : SpinAt}
    (hi : s.place i = .spin k w) :
    (∀ j k' wait n, s.place j = .spin k' (.delay wait n) → n.toNat ≤ wait.toNat ∧
      wait.toNat ≤ longestWait ∧ (wait ≤ maxBackoff → (wait * 2).toNat = wait.toNat * 2)) ∧
    (cs.filter fun c => c.party = i).length ≤ longestWait + 2 := by
  refine ⟨fun j k' wait n hj => ?_, ?_⟩
  · obtain ⟨hn, hwait⟩ := inRange_of_run h₀ hj
    exact ⟨hn, hwait, toNat_mul_two⟩
  have hinv : s'.lock = 0 ∧ ∃ w', s'.place i = .spin k w' ∧
      (cs.filter fun c => c.party = i).length + w'.stepsLeft = w.stepsLeft := by
    induction h with
    | nil => exact ⟨hfree, w, hi, by simp⟩
    | @snoc s₁ s₂ cs c _ hc ih =>
      obtain ⟨hc, hfree₂⟩ := hc
      obtain ⟨hfree₁, w', hi', hleft⟩ := ih
      refine ⟨hfree₂, ?_⟩
      rw [List.filter_append, List.length_append]
      by_cases hparty : c.party = i
      · subst hparty
        cases hc with
        | @spin _ j k' w'' hspin =>
          obtain ⟨rfl, rfl⟩ : k' = k ∧ w'' = w' := by simpa using hspin.symm.trans hi'
          rw [hfree₁] at hfree₂ ⊢
          cases hnext : (spinLockStep 0 w'').2 with
          | none =>
            obtain ⟨-, hbusy⟩ := spinLockStep_eq_none hnext
            exact absurd (hbusy.symm.trans hfree₂) (by decide)
          | some v =>
            have hv := stepsLeft_next hnext
            refine ⟨v, by simp [CallLabel.party, SpinPlace.next], ?_⟩
            simp
            omega
        | call _ h | work h | unlock h | ret h => simp [CallLabel.party, h] at hi'
      · exact ⟨w', by rw [hc.place_of_ne hparty, hi'], by simp [hparty, hleft]⟩
  obtain ⟨-, w', -, hleft⟩ := hinv
  have hle := (inRange_of_run h₀ hi).stepsLeft_le
  omega

/-- A step of a caller that does not return. -/
theorem exists_spin_step {s : SpinState ι κ ρ σ} {i : ι} {k : κ} {w w' : SpinAt}
    (hspin : s.place i = .spin k w) (hnext : (spinLockStep s.lock w).2 = some w') :
    ∃ s', SpinStep O (.tau i) s s' ∧ s'.place i = .spin k w' ∧ (s'.lock = 0 ↔ s.lock = 0) ∧
      ∀ j, j ≠ i → s'.place j = s.place j := by
  have hstep : SpinStep O (.tau i) s _ := .spin hspin
  refine ⟨_, hstep, ?_, spinLockStep_eq_some hnext, fun j hj => hstep.place_of_ne (Ne.symm hj)⟩
  simp [hnext, SpinPlace.next]

/-- **A caller that finds the lock free** gets to its next exchange in just as many steps. -/
theorem exists_run_to_exchange {i : ι} {k : κ} (n : ℕ) :
    ∀ (s : SpinState ι κ ρ σ) (w : SpinAt), w.stepsLeft = n → s.lock = 0 → s.place i = .spin k w →
      ∃ s', Run (fun c s s' => SpinStep O c s s' ∧ s'.lock = 0) s (List.replicate n (.tau i)) s' ∧
        s'.lock = 0 ∧ s'.place i = .spin k .xchg ∧ ∀ j, j ≠ i → s'.place j = s.place j := by
  induction n with
  | zero =>
    intro s w hw hfree hspin
    cases w with
    | xchg => exact ⟨s, Run.nil s, hfree, hspin, fun _ _ => rfl⟩
    | load wait => cases hw
    | delay wait i => cases hw
  | succ n ih =>
    intro s w hw hfree hspin
    cases hnext : (spinLockStep s.lock w).2 with
    | none =>
      rw [hfree] at hnext
      cases w <;> simp [spinLockStep, SpinAt.stepsLeft] at hnext hw
    | some v =>
      obtain ⟨s₁, hstep, hspin₁, hlock, hplace⟩ := exists_spin_step (O := O) hspin hnext
      rw [hfree] at hnext
      have hleft := stepsLeft_next hnext
      obtain ⟨s', hrun, hfree', hspin', hplace'⟩ := ih s₁ v (by omega) (hlock.mpr hfree) hspin₁
      refine ⟨s', ((Run.nil s).append_one _ ⟨hstep, hlock.mpr hfree⟩).append hrun, hfree', hspin',
        fun j hj => ?_⟩
      rw [hplace' j hj, hplace j hj]

/-- **A round of the delay loop** after the other, whether the lock is free or not. -/
theorem exists_run_delay {i : ι} {k : κ} {wait : BitVec 32} (n : ℕ) :
    ∀ (s : SpinState ι κ ρ σ) (m : BitVec 32), wait.toNat = m.toNat + n →
      s.place i = .spin k (.delay wait m) →
      ∃ s', Run (SpinStep O) s (List.replicate (n + 1) (.tau i)) s' ∧ (s'.lock = 0 ↔ s.lock = 0) ∧
        s'.place i = .spin k (.load (if wait ≤ maxBackoff then wait * 2 else wait)) ∧
        ∀ j, j ≠ i → s'.place j = s.place j := by
  induction n with
  | zero =>
    intro s m hm hspin
    have hend : ¬m < wait := fun hlt => by rw [BitVec.lt_def] at hlt; omega
    obtain ⟨s₁, hstep, hspin₁, hlock, hplace⟩ :=
      exists_spin_step (O := O) hspin (by rw [spinLockStep, if_neg hend])
    exact ⟨s₁, (Run.nil s).append_one _ hstep, hlock, hspin₁, hplace⟩
  | succ n ih =>
    intro s m hm hspin
    have hlt : m < wait := by rw [BitVec.lt_def]; omega
    obtain ⟨s₁, hstep, hspin₁, hlock, hplace⟩ :=
      exists_spin_step (O := O) hspin (by rw [spinLockStep, if_pos hlt])
    obtain ⟨s', hrun, hlock', hspin', hplace'⟩ :=
      ih s₁ (m + 1) (by rw [toNat_add_one_of_lt hlt]; omega) hspin₁
    refine ⟨s', ((Run.nil s).append_one _ hstep).append hrun, hlock'.trans hlock, hspin',
      fun j hj => ?_⟩
    rw [hplace' j hj, hplace j hj]

/-! ### Completing calls -/

/-- A run in which a party goes on by itself, until the lock is free and its operation done. -/
structure Settles (O : SharedObject κ ρ σ) (s : SpinState ι κ ρ σ) (i : ι)
    (s' : SpinState ι κ ρ σ) : Prop where
  run : ∃ n, Run (SpinStep O) s (List.replicate n (.tau i)) s'
  lock : s'.lock = 0
  done : ∃ r, s'.place i = .done r
  others : ∀ j, j ≠ i → s'.place j = s.place j

/-- Before such a run the party may take a step. -/
theorem Settles.cons {s s₁ s' : SpinState ι κ ρ σ} {i : ι} (hstep : SpinStep O (.tau i) s s₁)
    (h : Settles O s₁ i s') : Settles O s i s' := by
  obtain ⟨n, hrun⟩ := h.run
  refine ⟨⟨n + 1, ((Run.nil s).append_one _ hstep).append hrun⟩, h.lock, h.done, fun j hj => ?_⟩
  rw [h.others j hj, hstep.place_of_ne (Ne.symm hj)]

/-- Before such a run the party may take several steps. -/
theorem Settles.append {s s₁ s' : SpinState ι κ ρ σ} {i : ι} {n : ℕ} (h : Settles O s₁ i s')
    (hrun : Run (SpinStep O) s (List.replicate n (.tau i)) s₁)
    (hplace : ∀ j, j ≠ i → s₁.place j = s.place j) : Settles O s i s' := by
  obtain ⟨m, hrun'⟩ := h.run
  refine ⟨⟨n + m, ?_⟩, h.lock, h.done, fun j hj => (h.others j hj).trans (hplace j hj)⟩
  rw [List.replicate_add]
  exact hrun.append hrun'

/-- Who is inside can always go on and leave. -/
theorem exists_settles_of_inside {i : ι} {k : κ} (ops : List (ObjectStep ρ σ)) :
    ∀ (s : SpinState ι κ ρ σ) (r : ρ), s.place i = .inside k r ops → ∃ s', Settles O s i s' := by
  induction ops with
  | nil =>
    intro s r hin
    have hstep : SpinStep O (.tau i) s _ := .unlock hin
    exact ⟨_, ⟨1, (Run.nil s).append_one _ hstep⟩, rfl, ⟨r, Function.update_self ..⟩,
      fun j hj => hstep.place_of_ne (Ne.symm hj)⟩
  | cons op ops ih =>
    intro s r hin
    have hstep : SpinStep O (.tau i) s _ := .work hin
    obtain ⟨s', h⟩ := ih _ (op r s.shared).1 (by simp : SpinState.place { s with
      shared := (op r s.shared).2
      place := Function.update s.place i (.inside k (op r s.shared).1 ops) } i = _)
    exact ⟨s', h.cons hstep⟩

/-- Who waits for a free lock can always go on, take it, and leave. -/
theorem exists_settles_of_spin {s : SpinState ι κ ρ σ} {i : ι} {k : κ} {w : SpinAt}
    (hfree : s.lock = 0) (hspin : s.place i = .spin k w) : ∃ s', Settles O s i s' := by
  obtain ⟨s₁, hrun, hfree₁, hspin₁, hplace⟩ :=
    exists_run_to_exchange (O := O) _ s w rfl hfree hspin
  obtain ⟨s₂, hstep, hin⟩ : ∃ s₂, SpinStep O (.tau i) s₁ s₂ ∧
      s₂.place i = .inside k (O.start k) (O.body k) :=
    ⟨_, .spin hspin₁, by rw [hfree₁, spinLockStep_xchg_free]; exact Function.update_self ..⟩
  obtain ⟨s', h⟩ := exists_settles_of_inside _ s₂ _ hin
  exact ⟨s', (h.cons hstep).append (hrun.mono fun c s s' hc => hc.1) hplace⟩

/-- **No deadlock**: whatever has happened, the calls of any number of parties can all be brought
behind the lock, by steps inside of calls alone. -/
theorem spinLock_completes {s₀ : σ} {s : SpinState ι κ ρ σ} {cs₀ : List (CallLabel ι κ ρ)}
    (h₀ : Run (SpinStep O) (SpinState.init s₀) cs₀ s) (F : Finset ι) :
    ∃ cs s', Run (SpinStep O) s cs s' ∧ (∀ c ∈ cs, ∃ i, c = .tau i) ∧ s'.lock = 0 ∧
      ∀ i ∈ F, ∀ k w, s'.place i ≠ .spin k w := by
  induction F using Finset.induction_on with
  | empty =>
    -- whoever is inside goes first
    by_cases hfree : s.lock = 0
    · exact ⟨[], s, .nil s, by simp, hfree, by simp⟩
    · obtain ⟨i, k, r, ops, hin⟩ := (inside_of_run h₀).2.mp hfree
      obtain ⟨s', h⟩ := exists_settles_of_inside ops s r hin
      obtain ⟨n, hrun⟩ := h.run
      exact ⟨_, s', hrun, fun c hc => ⟨i, List.eq_of_mem_replicate hc⟩, h.lock, by simp⟩
  | insert a F _ ih =>
    obtain ⟨cs, s', hrun, hcs, hfree, hF⟩ := ih
    by_cases ha : ∃ k w, s'.place a = .spin k w
    · obtain ⟨k, w, ha⟩ := ha
      obtain ⟨s'', h⟩ := exists_settles_of_spin hfree ha
      obtain ⟨n, hrun'⟩ := h.run
      refine ⟨_, s'', hrun.append hrun', fun c hc => ?_, h.lock, fun i hi k w hspin => ?_⟩
      · rcases List.mem_append.mp hc with hc | hc
        · exact hcs c hc
        · exact ⟨a, List.eq_of_mem_replicate hc⟩
      · rcases eq_or_ne i a with rfl | hne
        · obtain ⟨r, hdone⟩ := h.done
          cases hdone.symm.trans hspin
        · rw [h.others i hne] at hspin
          exact hF i (Finset.mem_of_mem_insert_of_ne hi hne) k w hspin
    · refine ⟨cs, s', hrun, hcs, hfree, fun i hi k w hspin => ?_⟩
      rcases Finset.mem_insert.mp hi with rfl | hi
      · exact ha ⟨k, w, hspin⟩
      · exact hF i hi k w hspin

/-- The caller that waits has been through the delay loop once when the lock becomes free. -/
theorem run_waiting : ∃ cs s, Run (SpinStep ticketCounter) (SpinState.init 0) cs s ∧ s.lock = 0 ∧
    s.place false = .spin () (.delay 4000 0) := by
  obtain ⟨s, hrun, hin, hspin⟩ := run_ticketCounter
  have hbusy : s.lock ≠ 0 := (inside_of_run hrun).2.mpr ⟨true, hin⟩
  obtain ⟨s₁, h₁, hspin₁, hlock₁, hplace₁⟩ := exists_spin_step (O := ticketCounter) hspin
    (by rw [spinLockStep_xchg_busy hbusy])
  have hbusy₁ := hlock₁.not.mpr hbusy
  obtain ⟨s₂, h₂, hspin₂, hlock₂, hplace₂⟩ := exists_spin_step (O := ticketCounter) hspin₁
    (by rw [spinLockStep, if_neg hbusy₁])
  obtain ⟨s₃, h₃, hlock₃, hspin₃, hplace₃⟩ := exists_run_delay (O := ticketCounter) 2000 s₂ 0
    (by decide) hspin₂
  have hbusy₃ := hlock₃.not.mpr (hlock₂.not.mpr hbusy₁)
  obtain ⟨s₄, h₄, hspin₄, -, hplace₄⟩ := exists_spin_step (O := ticketCounter) hspin₃
    (by rw [spinLockStep, if_neg hbusy₃])
  obtain ⟨k, r, ops, hin⟩ := hin
  have hin₄ : s₄.place true = .inside k r ops := by
    rw [hplace₄ true (by decide), hplace₃ true (by decide), hplace₂ true (by decide),
      hplace₁ true (by decide), hin]
  obtain ⟨s₅, h₅⟩ := exists_settles_of_inside (O := ticketCounter) ops s₄ r hin₄
  obtain ⟨n, hrun₅⟩ := h₅.run
  refine ⟨_, s₅, (((((hrun.append_one _ h₁).append_one _ h₂).append h₃).append_one _ h₄).append
    hrun₅), h₅.lock, ?_⟩
  rw [h₅.others false (by decide), hspin₄]
  rfl

/-- The caller that waits makes its delay of twice `INIT_BACKOFF` and looks at the lock. -/
theorem spinLock_free_bound_tickets : ∃ s s' : SpinState Bool Unit ℕ ℕ,
    s.place false = .spin () (.delay 4000 0) ∧
    Run (fun c s s' => SpinStep ticketCounter c s s' ∧ s'.lock = 0) s
      (List.replicate 4002 (.tau false)) s' ∧
    s'.place false = .spin () .xchg ∧
    ((List.replicate 4002 (.tau false) : List (CallLabel Bool Unit ℕ)).filter
      fun c => c.party = false).length ≤ longestWait + 2 := by
  obtain ⟨cs, s, hrun, hfree, hspin⟩ := run_waiting
  obtain ⟨s', hrun', -, hspin', -⟩ :=
    exists_run_to_exchange (O := ticketCounter) 4002 s _ rfl hfree hspin
  exact ⟨s, s', hspin, hrun', hspin', (spinLock_free_bound hrun hfree hrun' hspin).2⟩

theorem spinLock_completes_tickets : ∃ s : SpinState Bool Unit ℕ ℕ, s.Inside true ∧
    ∃ cs s', Run (SpinStep ticketCounter) s cs s' ∧ (∀ c ∈ cs, ∃ i, c = .tau i) ∧ s'.lock = 0 ∧
      ∀ i ∈ ({true, false} : Finset Bool), ∀ k w, s'.place i ≠ .spin k w := by
  obtain ⟨s, hrun, hin, -⟩ := run_ticketCounter
  exact ⟨s, hin, spinLock_completes hrun {true, false}⟩

/-- **A caller that stands still inside keeps all others out**: as long as it takes no step, the
lock stays busy, nothing that it guards changes, and whoever waits goes on waiting. -/
theorem spinLock_stuck {s₀ : σ} {s s' : SpinState ι κ ρ σ} {cs₀ cs : List (CallLabel ι κ ρ)}
    (h₀ : Run (SpinStep O) (SpinState.init s₀) cs₀ s) {i : ι} (hin : s.Inside i)
    (h : Run (SpinStep O) s cs s') (hcs : ∀ c ∈ cs, c.party ≠ i) :
    s'.shared = s.shared ∧ s'.lock ≠ 0 ∧ s'.place i = s.place i ∧
      ∀ j k w, s.place j = .spin k w → ∃ w', s'.place j = .spin k w' := by
  induction h with
  | nil => exact ⟨rfl, (inside_of_run h₀).2.mpr ⟨i, hin⟩, rfl, fun _ _ w hw => ⟨w, hw⟩⟩
  | @snoc s₁ s₂ cs c hrun hc ih =>
    obtain ⟨hshared, hbusy, hplace, hwait⟩ := ih fun c hc => hcs c (by simp [hc])
    have hparty := hcs c (by simp)
    have hplace₂ : s₂.place i = s.place i := by rw [hc.place_of_ne hparty, hplace]
    have hin₁ : s₁.Inside i := by rwa [SpinState.Inside, hplace]
    have hin₂ : s₂.Inside i := by rwa [SpinState.Inside, hplace₂]
    have hbusy₂ := (inside_of_run (h₀.append (hrun.snoc hc))).2.mpr ⟨i, hin₂⟩
    refine ⟨?_, hbusy₂, hplace₂, fun j k w hj => ?_⟩
    · cases hc with
      | work hj => exact absurd ((inside_of_run (h₀.append hrun)).1 _ i ⟨_, _, _, hj⟩ hin₁) hparty
      | call | spin | unlock | ret => exact hshared
    · obtain ⟨w', hw'⟩ := hwait j k w hj
      by_cases hj : c.party = j
      · subst hj
        cases hc with
        | @spin _ j k' w'' hspin =>
          cases hnext : (spinLockStep s₁.lock w'').2 with
          | none => exact absurd (spinLockStep_eq_none hnext).1 hbusy
          | some v =>
            obtain ⟨rfl, -⟩ : k' = k ∧ w'' = w' := by simpa using hspin.symm.trans hw'
            exact ⟨v, by simp [CallLabel.party, SpinPlace.next]⟩
        | call _ h | work h | unlock h | ret h => simp [CallLabel.party, h] at hw'
      · exact ⟨w', by rw [hc.place_of_ne hj, hw']⟩

theorem spinLock_stuck_tickets : ∃ s s' : SpinState Bool Unit ℕ ℕ, s.Inside true ∧
    Run (SpinStep ticketCounter) s [.tau false] s' ∧ s'.shared = s.shared ∧ s'.lock ≠ 0 ∧
      s'.place true = s.place true ∧
      ∀ j k w, s.place j = .spin k w → ∃ w', s'.place j = .spin k w' := by
  obtain ⟨s, hrun, hin, hspin⟩ := run_ticketCounter
  have hstep := (Run.nil s).append_one _ (SpinStep.spin (O := ticketCounter) hspin)
  exact ⟨s, _, hin, hstep, spinLock_stuck hrun hin hstep (by decide)⟩

end AnglOS
