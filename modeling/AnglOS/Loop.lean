import Mathlib.Tactic

/-!
# Loops and Runs

Two control structures that imperative code is made of, with their invariant rules.

* `loop f n s` runs the body `f 0`, …, `f (n - 1)` in this order; `loop_invariant` is the
  rule for a property that the body carries from one index to the next.
* `Run step s cs s'` says that the labelled steps `cs` lead from `s` to `s'`;
  `Run.invariant` is the rule for a property that every step keeps, `Run.simulate` the rule for
  two systems, and `Run.refine` the rule for two systems whose steps match only as far as they
  can be seen.
-/

namespace AnglOS

variable {σ κ : Type*}

/-- The loop `for (j = 0; j < n; j++) f(j)`. -/
def loop (f : ℕ → σ → σ) : ℕ → σ → σ
  | 0, s => s
  | n + 1, s => f n (loop f n s)

@[simp] theorem loop_zero (f : ℕ → σ → σ) (s : σ) : loop f 0 s = s := rfl

theorem loop_succ (f : ℕ → σ → σ) (n : ℕ) (s : σ) :
    loop f (n + 1) s = f n (loop f n s) := rfl

/-- **The loop rule**: a property of the index and the state that holds before the loop
and that the body carries from one index to the next holds after the loop. -/
theorem loop_invariant {f : ℕ → σ → σ} {n : ℕ} {s : σ} (P : ℕ → σ → Prop) (h0 : P 0 s)
    (hstep : ∀ j < n, ∀ s, P j s → P (j + 1) (f j s)) : P n (loop f n s) := by
  induction n with
  | zero => exact h0
  | succ n ih =>
      exact hstep n (Nat.lt_succ_self n) _ (ih fun j hj => hstep j (Nat.lt_succ_of_lt hj))

/-- The labelled steps `cs`, in this order, lead from one state to the other. -/
inductive Run (step : κ → σ → σ → Prop) : σ → List κ → σ → Prop
  | nil (s : σ) : Run step s [] s
  | snoc {s s' s'' : σ} {cs : List κ} {c : κ} :
      Run step s cs s' → step c s' s'' → Run step s (cs ++ [c]) s''

/-- A run goes on with a given label. -/
theorem Run.append_one {step : κ → σ → σ → Prop} {s s' s'' : σ} {cs : List κ}
    (h : Run step s cs s') (c : κ) (hc : step c s' s'') : Run step s (cs ++ [c]) s'' :=
  h.snoc hc

/-- A run of steps that are also steps of another kind. -/
theorem Run.mono {step step' : κ → σ → σ → Prop} (hstep : ∀ c s s', step c s s' → step' c s s')
    {s s' : σ} {cs : List κ} (h : Run step s cs s') : Run step' s cs s' := by
  induction h with
  | nil => exact .nil _
  | snoc _ hc ih => exact ih.snoc (hstep _ _ _ hc)

/-- A function that does the steps one after the other makes a run. -/
theorem Run.of_foldlM {step : κ → σ → σ → Prop} {f : σ → κ → Option σ}
    (hf : ∀ c s s', f s c = some s' → step c s s') {s s' : σ} {cs : List κ}
    (h : cs.foldlM f s = some s') : Run step s cs s' := by
  induction cs using List.reverseRecOn generalizing s' with
  | nil =>
    obtain rfl := Option.some.inj h
    exact .nil s
  | append_singleton cs c ih =>
    rw [List.foldlM_append, Option.bind_eq_bind, Option.bind_eq_some_iff] at h
    obtain ⟨s₁, hs₁, hlast⟩ := h
    rw [List.foldlM_cons, Option.bind_eq_bind, Option.bind_eq_some_iff] at hlast
    obtain ⟨s₂, hs₂, hnil⟩ := hlast
    obtain rfl := Option.some.inj hnil
    exact (ih hs₁).snoc (hf _ _ _ hs₂)

/-- **The run rule**: a property that every step of the run keeps holds at its end. The
steps may be restricted to labels that satisfy `O`. -/
theorem Run.invariant {step : κ → σ → σ → Prop} {O : κ → Prop} {P : σ → Prop}
    (hstep : ∀ c s s', O c → P s → step c s s' → P s') {s s' : σ} {cs : List κ}
    (h : Run step s cs s') (hok : ∀ c ∈ cs, O c) (hs : P s) : P s' := by
  induction h with
  | nil => exact hs
  | @snoc s₁ s₂ cs c _ hc ih =>
      exact hstep c s₁ s₂ (hok c (by simp)) (ih fun d hd => hok d (by simp [hd])) hc

/-- **The simulation rule**: where each step of one system is a step of another one between related
states, each run of the one is a run of the other. -/
theorem Run.simulate {τ : Type*} {step : κ → σ → σ → Prop} {step' : κ → τ → τ → Prop}
    {R : σ → τ → Prop}
    (hstep : ∀ c s s' t, R s t → step c s s' → ∃ t', step' c t t' ∧ R s' t') {s s' : σ} {t : τ}
    {cs : List κ} (h : Run step s cs s') (hst : R s t) : ∃ t', Run step' t cs t' ∧ R s' t' := by
  induction h with
  | nil => exact ⟨t, .nil t, hst⟩
  | @snoc s₁ s₂ cs c _ hc ih =>
    obtain ⟨t₁, hrun, ht₁⟩ := ih
    obtain ⟨t₂, ht, ht₂⟩ := hstep c s₁ s₂ t₁ ht₁ hc
    exact ⟨t₂, hrun.snoc ht, ht₂⟩

/-- Runs go on with runs. -/
theorem Run.append {step : κ → σ → σ → Prop} {s s' s'' : σ} {cs ds : List κ}
    (h : Run step s cs s') (h' : Run step s' ds s'') : Run step s (cs ++ ds) s'' := by
  induction h' with
  | nil => rwa [List.append_nil]
  | snoc _ hc ih =>
    rw [← List.append_assoc]
    exact ih.snoc hc

/-- **The refinement rule**: where each step of one system is matched by a run of another one that
looks the same, each run of the one looks the same as a run of the other. -/
theorem Run.refine {τ κ' ν : Type*} {step : κ → σ → σ → Prop} {step' : κ' → τ → τ → Prop}
    (look : κ → Option ν) (look' : κ' → Option ν) {R : σ → τ → Prop}
    (hstep : ∀ c s s' t, R s t → step c s s' →
      ∃ ds t', Run step' t ds t' ∧ ds.filterMap look' = [c].filterMap look ∧ R s' t')
    {s s' : σ} {t : τ} {cs : List κ} (h : Run step s cs s') (hst : R s t) :
    ∃ ds t', Run step' t ds t' ∧ ds.filterMap look' = cs.filterMap look ∧ R s' t' := by
  induction h with
  | nil => exact ⟨[], t, .nil t, rfl, hst⟩
  | @snoc s₁ s₂ cs c _ hc ih =>
    obtain ⟨ds, t₁, hrun, hlook, ht₁⟩ := ih
    obtain ⟨es, t₂, hrun', hlook', ht₂⟩ := hstep c s₁ s₂ t₁ ht₁ hc
    refine ⟨ds ++ es, t₂, hrun.append hrun', ?_, ht₂⟩
    rw [List.filterMap_append, List.filterMap_append, hlook, hlook']

end AnglOS
