import AnglOS.Loop

/-!
# Objects Behind a Lock

Parties `ι` call the operations `κ` of an object with the shared state `σ`. An operation is a list
of steps, each of which reads and writes the shared state and the private state `ρ` of the call.

* `AtomicStep` — the specification: a called operation takes effect in one step, at some moment
  between its call and its return.
* `ExclusiveStep` — the implementation: the steps of different parties interleave, but a party
  enters its operation only while no other one is inside.

## Main results

* `ExclusiveStep.refines` — every interleaving of the implementation has the calls and the returns
  of a run of the specification, and the same shared state while nobody is inside;
* `AtomicStep.exists_order` — the shared state is what the operations make of it one after the
  other, each party's in the order of its calls.
-/

namespace AnglOS

variable {ι κ ρ σ : Type*}

/-- A step of an operation on the private and the shared state. -/
abbrev ObjectStep (ρ σ : Type*) := ρ → σ → ρ × σ

/-- The operations of an object: the private state at their start, and their steps. -/
structure SharedObject (κ ρ σ : Type*) where
  start : κ → ρ
  body : κ → List (ObjectStep ρ σ)

/-- Steps one after the other. -/
def execSteps (ops : List (ObjectStep ρ σ)) (x : ρ × σ) : ρ × σ :=
  ops.foldl (fun x op => op x.1 x.2) x

/-- A whole operation. -/
def SharedObject.exec (O : SharedObject κ ρ σ) (k : κ) (s : σ) : ρ × σ :=
  execSteps (O.body k) (O.start k, s)

/-- What a party does: it calls an operation, goes on inside of it, or returns a result. -/
inductive CallLabel (ι κ ρ : Type*)
  | call (i : ι) (k : κ)
  | tau (i : ι)
  | ret (i : ι) (r : ρ)

/-- The party that a label is about. -/
def CallLabel.party : CallLabel ι κ ρ → ι
  | .call i _ | .tau i | .ret i _ => i

/-- What the parties see of a step. -/
def CallLabel.look : CallLabel ι κ ρ → Option (CallLabel ι κ ρ)
  | .tau _ => none
  | c => some c

/-! ### The specification -/

/-- Where a party stands. -/
inductive CallPlace (κ ρ : Type*)
  | idle
  | called (k : κ)
  | done (r : ρ)

/-- The shared state, and where the parties stand. -/
structure AtomicState (ι κ ρ σ : Type*) where
  shared : σ
  place : ι → CallPlace κ ρ

variable [DecidableEq ι] (O : SharedObject κ ρ σ)

/-- The steps of the specification. -/
inductive AtomicStep : CallLabel ι κ ρ → AtomicState ι κ ρ σ → AtomicState ι κ ρ σ → Prop
  | call {s : AtomicState ι κ ρ σ} {i : ι} (k : κ) (h : s.place i = .idle) :
      AtomicStep (.call i k) s { s with place := Function.update s.place i (.called k) }
  | act {s : AtomicState ι κ ρ σ} {i : ι} {k : κ} (h : s.place i = .called k) :
      AtomicStep (.tau i) s
        ⟨(O.exec k s.shared).2, Function.update s.place i (.done (O.exec k s.shared).1)⟩
  | ret {s : AtomicState ι κ ρ σ} {i : ι} {r : ρ} (h : s.place i = .done r) :
      AtomicStep (.ret i r) s { s with place := Function.update s.place i .idle }

/-- The operation that a party has called and that has not taken effect. -/
def CallPlace.waiting : CallPlace κ ρ → List κ
  | .called k => [k]
  | _ => []

/-- The operations that a party calls in a run. -/
def callsOf (i : ι) (cs : List (CallLabel ι κ ρ)) : List κ :=
  cs.filterMap fun c => match c with
    | .call j k => if j = i then some k else none
    | _ => none

/-- The operations of a party in an order of operations. -/
def ownCalls (i : ι) (order : List (ι × κ)) : List κ :=
  order.filterMap fun x => if x.1 = i then some x.2 else none

/-- The shared state after operations one after the other. -/
def SharedObject.execAll (s : σ) (order : List (ι × κ)) : σ :=
  order.foldl (fun s x => (O.exec x.2 s).2) s

theorem callsOf_append (i : ι) (cs ds : List (CallLabel ι κ ρ)) :
    callsOf i (cs ++ ds) = callsOf i cs ++ callsOf i ds :=
  List.filterMap_append ..

theorem ownCalls_append (i : ι) (xs ys : List (ι × κ)) :
    ownCalls i (xs ++ ys) = ownCalls i xs ++ ownCalls i ys :=
  List.filterMap_append ..

/-- The calls of a party are what is seen of it. -/
theorem callsOf_eq_of_look (i : ι) {cs ds : List (CallLabel ι κ ρ)}
    (h : cs.filterMap CallLabel.look = ds.filterMap CallLabel.look) :
    callsOf i cs = callsOf i ds := by
  have hlook : ∀ cs : List (CallLabel ι κ ρ),
      callsOf i (cs.filterMap CallLabel.look) = callsOf i cs := by
    intro cs
    rw [callsOf, List.filterMap_filterMap, callsOf]
    congr 1
    funext c
    cases c <;> rfl
  rw [← hlook cs, h, hlook]

/-- **One operation after the other**: in every run of the specification the operations have taken
effect in an order that, for each party, is the order of its calls; only its last call can be
outstanding. -/
theorem AtomicStep.exists_order {s s' : AtomicState ι κ ρ σ} {cs : List (CallLabel ι κ ρ)}
    (h : Run (AtomicStep O) s cs s') (hs : ∀ i, s.place i = .idle) :
    ∃ order, s'.shared = O.execAll s.shared order ∧
      ∀ i, callsOf i cs = ownCalls i order ++ (s'.place i).waiting := by
  induction h with
  | nil => exact ⟨[], rfl, fun i => by simp [callsOf, ownCalls, hs i, CallPlace.waiting]⟩
  | @snoc s₁ s₂ cs c _ hc ih =>
    obtain ⟨order, hshared, hcalls⟩ := ih
    cases hc with
    | @call _ i k hidle =>
      refine ⟨order, hshared, fun j => ?_⟩
      rw [callsOf_append, hcalls j]
      rcases eq_or_ne j i with rfl | hne
      · simp [hidle, callsOf, CallPlace.waiting]
      · simp [callsOf, hne, hne.symm]
    | @act _ i k hcalled =>
      refine ⟨order ++ [(i, k)], ?_, fun j => ?_⟩
      · rw [SharedObject.execAll, List.foldl_append]
        exact congrArg (fun s => (O.exec k s).2) hshared
      · rw [callsOf_append, hcalls j, ownCalls_append]
        rcases eq_or_ne j i with rfl | hne
        · simp [hcalled, callsOf, ownCalls, CallPlace.waiting]
        · simp [callsOf, ownCalls, hne, hne.symm]
    | @ret _ i r hdone =>
      refine ⟨order, hshared, fun j => ?_⟩
      rw [callsOf_append, hcalls j]
      rcases eq_or_ne j i with rfl | hne
      · simp [hdone, callsOf, CallPlace.waiting]
      · simp [callsOf, hne]

/-! ### The implementation -/

/-- Where a party stands: with the steps that are left inside, it has the operation that it
called. -/
inductive ExclusivePlace (κ ρ σ : Type*)
  | idle
  | waiting (k : κ)
  | inside (k : κ) (r : ρ) (ops : List (ObjectStep ρ σ))
  | done (r : ρ)

/-- The shared state, where the parties stand, and who is inside. -/
structure ExclusiveState (ι κ ρ σ : Type*) where
  shared : σ
  place : ι → ExclusivePlace κ ρ σ
  holder : Option ι

/-- The steps of the implementation. A party that waits may look for its turn any number of
times. -/
inductive ExclusiveStep :
    CallLabel ι κ ρ → ExclusiveState ι κ ρ σ → ExclusiveState ι κ ρ σ → Prop
  | call {s : ExclusiveState ι κ ρ σ} {i : ι} (k : κ) (h : s.place i = .idle) :
      ExclusiveStep (.call i k) s { s with place := Function.update s.place i (.waiting k) }
  | wait {s : ExclusiveState ι κ ρ σ} {i : ι} {k : κ} (h : s.place i = .waiting k) :
      ExclusiveStep (.tau i) s s
  | enter {s : ExclusiveState ι κ ρ σ} {i : ι} {k : κ} (h : s.place i = .waiting k)
      (hfree : s.holder = none) :
      ExclusiveStep (.tau i) s
        { s with
          place := Function.update s.place i (.inside k (O.start k) (O.body k))
          holder := some i }
  | work {s : ExclusiveState ι κ ρ σ} {i : ι} {k : κ} {r : ρ} {op : ObjectStep ρ σ}
      {ops : List (ObjectStep ρ σ)} (h : s.place i = .inside k r (op :: ops)) :
      ExclusiveStep (.tau i) s
        { s with
          shared := (op r s.shared).2
          place := Function.update s.place i (.inside k (op r s.shared).1 ops) }
  | leave {s : ExclusiveState ι κ ρ σ} {i : ι} {k : κ} {r : ρ} (h : s.place i = .inside k r []) :
      ExclusiveStep (.tau i) s
        { s with place := Function.update s.place i (.done r), holder := none }
  | ret {s : ExclusiveState ι κ ρ σ} {i : ι} {r : ρ} (h : s.place i = .done r) :
      ExclusiveStep (.ret i r) s { s with place := Function.update s.place i .idle }

/-- What the specification has of a place. -/
def ExclusivePlace.spec : ExclusivePlace κ ρ σ → CallPlace κ ρ
  | .idle => .idle
  | .waiting k => .called k
  | .inside k _ _ => .called k
  | .done r => .done r

/-- **The refinement**: whoever is inside is the holder, and will have done its operation on the
shared state of the specification. -/
structure ExclusiveRefines (s : ExclusiveState ι κ ρ σ) (t : AtomicState ι κ ρ σ) : Prop where
  place : ∀ i, t.place i = (s.place i).spec
  holder : ∀ i k r ops, s.place i = .inside k r ops → s.holder = some i
  inside : ∀ i, s.holder = some i → ∃ k r ops, s.place i = .inside k r ops
  free : s.holder = none → s.shared = t.shared
  busy : ∀ i k r ops, s.place i = .inside k r ops →
    execSteps ops (r, s.shared) = O.exec k t.shared

variable {O}

omit [DecidableEq ι] in
/-- The value at a place after one place has changed. -/
theorem of_update_eq {α β : Type*} [DecidableEq α] {f : α → β} {i j : α} {a b : β}
    (h : Function.update f i a j = b) : j = i ∧ a = b ∨ j ≠ i ∧ f j = b := by
  rcases eq_or_ne j i with rfl | hne
  · exact Or.inl ⟨rfl, by rwa [Function.update_self] at h⟩
  · exact Or.inr ⟨hne, by rwa [Function.update_of_ne hne] at h⟩

/-- A party moves from one place to another one outside. -/
theorem ExclusiveRefines.move {s : ExclusiveState ι κ ρ σ} {t : AtomicState ι κ ρ σ}
    (h : ExclusiveRefines O s t) {i : ι} {p : ExclusivePlace κ ρ σ}
    (hi : ∀ k r ops, s.place i ≠ .inside k r ops) (hp : ∀ k r ops, p ≠ .inside k r ops) :
    ExclusiveRefines O { s with place := Function.update s.place i p }
      { t with place := Function.update t.place i p.spec } := by
  have hother : ∀ j k r ops, Function.update s.place i p j = .inside k r ops →
      s.place j = .inside k r ops := by
    intro j k r ops hj
    rcases of_update_eq hj with ⟨-, hj⟩ | ⟨-, hj⟩
    · exact absurd hj (hp k r ops)
    · exact hj
  refine ⟨fun j => ?_, fun j k r ops hj => h.holder j k r ops (hother j k r ops hj),
    fun j hj => ?_, h.free, fun j k r ops hj => h.busy j k r ops (hother j k r ops hj)⟩
  · rcases eq_or_ne j i with rfl | hne
    · simp
    · simp [Function.update_of_ne hne, h.place j]
  · obtain ⟨k, r, ops, hj'⟩ := h.inside j hj
    have hne : j ≠ i := fun heq => hi k r ops (heq ▸ hj')
    exact ⟨k, r, ops, by rw [← hj']; exact Function.update_of_ne hne ..⟩

omit [DecidableEq ι] in
/-- Who is inside is the only one there. -/
theorem ExclusiveRefines.only {s : ExclusiveState ι κ ρ σ} {t : AtomicState ι κ ρ σ}
    (h : ExclusiveRefines O s t) {i j : ι} {k k' : κ} {r r' : ρ} {ops ops' : List (ObjectStep ρ σ)}
    (hi : s.place i = .inside k r ops) (hj : s.place j = .inside k' r' ops') : i = j :=
  Option.some.inj ((h.holder i k r ops hi).symm.trans (h.holder j k' r' ops' hj))

/-- **A step of the implementation** is matched by the specification: the operation takes effect
there when its party leaves. -/
theorem ExclusiveRefines.step {c : CallLabel ι κ ρ} {s s' : ExclusiveState ι κ ρ σ}
    {t : AtomicState ι κ ρ σ} (h : ExclusiveRefines O s t) (hc : ExclusiveStep O c s s') :
    ∃ ds t', Run (AtomicStep O) t ds t' ∧
      ds.filterMap CallLabel.look = [c].filterMap CallLabel.look ∧ ExclusiveRefines O s' t' := by
  have hone : ∀ {c : CallLabel ι κ ρ} {t'}, AtomicStep O c t t' → Run (AtomicStep O) t [c] t' :=
    fun hstep => (Run.nil t).append_one _ hstep
  cases hc with
  | @call _ i k hidle =>
    have hplace : t.place i = .idle := by rw [h.place, hidle]; rfl
    exact ⟨_, _, hone (.call k hplace), rfl,
      h.move (p := .waiting k) (by simp [hidle]) (by simp)⟩
  | wait => exact ⟨[], t, .nil t, rfl, h⟩
  | @enter _ i k hwaiting hfree =>
    -- the operation has not taken effect, so the specification stays where it is
    refine ⟨[], t, .nil t, rfl, ⟨fun j => ?_, fun j k' r' ops' hj => ?_, fun j hj => ?_,
      fun hnone => absurd hnone (by simp), fun j k' r' ops' hj => ?_⟩⟩
    · rcases eq_or_ne j i with rfl | hne
      · simp [h.place, hwaiting, ExclusivePlace.spec]
      · simp [Function.update_of_ne hne, h.place]
    · rcases of_update_eq hj with ⟨rfl, -⟩ | ⟨-, hj⟩
      · rfl
      · simp [h.holder j k' r' ops' hj] at hfree
    · obtain rfl := Option.some.inj hj
      exact ⟨k, _, _, Function.update_self ..⟩
    · rcases of_update_eq hj with ⟨rfl, heq⟩ | ⟨-, hj⟩
      · injection heq with hk hr hops
        subst hk hr hops
        exact congrArg (O.exec k) (h.free hfree)
      · simp [h.holder j k' r' ops' hj] at hfree
  | @work _ i k r op ops hin =>
    refine ⟨[], t, .nil t, rfl, ⟨fun j => ?_, fun j k' r' ops' hj => ?_, fun j hj => ?_,
      fun hnone => absurd ((h.holder i k r _ hin).symm.trans hnone) (by simp),
      fun j k' r' ops' hj => ?_⟩⟩
    · rcases eq_or_ne j i with rfl | hne
      · simp [h.place, hin, ExclusivePlace.spec]
      · simp [Function.update_of_ne hne, h.place]
    · rcases of_update_eq hj with ⟨rfl, -⟩ | ⟨-, hj⟩
      · exact h.holder j k r _ hin
      · exact h.holder j k' r' ops' hj
    · obtain rfl := Option.some.inj ((h.holder i k r _ hin).symm.trans hj)
      exact ⟨k, _, _, Function.update_self ..⟩
    · rcases of_update_eq hj with ⟨rfl, heq⟩ | ⟨hne, hj⟩
      · injection heq with hk hr hops
        subst hk hr hops
        exact h.busy j k r _ hin
      · exact absurd (h.only hj hin) hne
  | @leave _ i k r hin =>
    have hcalled : t.place i = .called k := by rw [h.place, hin]; rfl
    have hdone : (r, s.shared) = O.exec k t.shared := h.busy i k r [] hin
    have hout : ∀ j k' r' ops', Function.update s.place i (.done r) j ≠ .inside k' r' ops' := by
      intro j k' r' ops' hj
      rcases of_update_eq hj with ⟨-, hj⟩ | ⟨hne, hj⟩
      · exact absurd hj (by simp)
      · exact hne (h.only hj hin)
    refine ⟨[.tau i], _, hone (.act hcalled), rfl, ⟨fun j => ?_,
      fun j k' r' ops' hj => absurd hj (hout j k' r' ops'), fun j hj => absurd hj (by simp),
      fun _ => ?_, fun j k' r' ops' hj => absurd hj (hout j k' r' ops')⟩⟩
    · rw [← hdone]
      rcases eq_or_ne j i with rfl | hne
      · simp [ExclusivePlace.spec]
      · simp [Function.update_of_ne hne, h.place]
    · exact congrArg Prod.snd hdone
  | @ret _ i r hdone =>
    have hplace : t.place i = .done r := by rw [h.place, hdone]; rfl
    exact ⟨_, _, hone (.ret hplace), rfl, h.move (p := .idle) (by simp [hdone]) (by simp)⟩

omit [DecidableEq ι] in
/-- Where nobody has called anything, the two agree. -/
theorem ExclusiveRefines.initial (O : SharedObject κ ρ σ) (s : σ) :
    ExclusiveRefines (ι := ι) O ⟨s, fun _ => .idle, none⟩ ⟨s, fun _ => .idle⟩ :=
  ⟨fun _ => rfl, fun _ _ _ _ h => by simp at h, fun _ h => by simp at h, fun _ => rfl,
    fun _ _ _ _ h => by simp at h⟩

/-- **Every interleaving looks atomic.** -/
theorem ExclusiveStep.refines {s s' : ExclusiveState ι κ ρ σ} {t : AtomicState ι κ ρ σ}
    {cs : List (CallLabel ι κ ρ)} (h : Run (ExclusiveStep O) s cs s')
    (hst : ExclusiveRefines O s t) :
    ∃ ds t', Run (AtomicStep O) t ds t' ∧
      ds.filterMap CallLabel.look = cs.filterMap CallLabel.look ∧ ExclusiveRefines O s' t' :=
  h.refine CallLabel.look CallLabel.look (fun _ _ _ _ hst hc => hst.step hc) hst

end AnglOS
