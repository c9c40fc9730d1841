import Mathlib.Tactic

/-!
# Radix Trees of Tables

A tree of tables kept in a store: `ent t i` is entry `i` of the table `t`, zero when it is
absent, and otherwise `next (ent t i)` is the table it leads to. A path of indices names a
table, and a path with one more index names an entry. Everything a walk can see is the
function `entryAt` from named entries to entry values, and the results say how writing one
entry of the store changes it.

* `tableAt`, `entryAt` — the table and the entry that a path leads to from the root;
  `tableAt_congr_walk` says that a walk depends on the entries that it passes.
* `Unshared` — no table has two paths, up to a given depth.
* `AgreesOff` — two stores agree on the tables of the tree but for one named entry.

## Main results

`AgreesOff.entryAt_eq`: if the tables that the changed entry leads to are empty before and
after, then the walk sees exactly one changed entry. This is the rule for entering a new
empty table, for writing a leaf and for removing an empty table; `AgreesOff.unshared` says
that the tree stays unshared.
-/

namespace AnglOS

variable {τ ι ε : Type*} [Zero ε] [DecidableEq ε]
variable {next : ε → τ} {ent ent' : τ → ι → ε} {root t₀ : τ} {n : ℕ} {p p₀ q : List ι} {i i₀ : ι}

/-- The table that a path of indices leads to. -/
def tableAt (next : ε → τ) (ent : τ → ι → ε) : τ → List ι → Option τ
  | t, [] => some t
  | t, i :: p => if ent t i = 0 then none else tableAt next ent (next (ent t i)) p

/-- The entry `i` of the table that a path leads to, zero if there is no such table. -/
def entryAt (next : ε → τ) (ent : τ → ι → ε) (root : τ) (p : List ι) (i : ι) : ε :=
  match tableAt next ent root p with
  | some t => ent t i
  | none => 0

/-- No table has two paths of at most `n` indices. -/
def Unshared (next : ε → τ) (ent : τ → ι → ε) (root : τ) (n : ℕ) : Prop :=
  ∀ p q t, p.length ≤ n → q.length ≤ n →
    tableAt next ent root p = some t → tableAt next ent root q = some t → p = q

/-- Two stores agree on the tables of the tree up to depth `n`, but for entry `i₀` of the
table at `p₀`. -/
def AgreesOff (next : ε → τ) (ent ent' : τ → ι → ε) (root : τ) (n : ℕ) (p₀ : List ι) (i₀ : ι) :
    Prop :=
  ∀ p t i, p.length ≤ n → tableAt next ent root p = some t → (p ≠ p₀ ∨ i ≠ i₀) →
    ent' t i = ent t i

/-! ### Walks -/

@[simp] theorem tableAt_nil (t : τ) : tableAt next ent t [] = some t := rfl

theorem entryAt_of_tableAt {t : τ} (h : tableAt next ent root p = some t) :
    entryAt next ent root p i = ent t i := by
  simp [entryAt, h]

theorem entryAt_of_tableAt_none (h : tableAt next ent root p = none) :
    entryAt next ent root p i = 0 := by
  simp [entryAt, h]

/-- A walk over one more index reads one more entry. -/
theorem tableAt_concat :
    tableAt next ent root (p ++ [i]) = if entryAt next ent root p i = 0 then none
      else some (next (entryAt next ent root p i)) := by
  induction p generalizing root with
  | nil => rfl
  | cons j p ih =>
      by_cases h : ent root j = 0
      · simp [tableAt, entryAt, h]
      · have hent : entryAt next ent root (j :: p) i
            = entryAt next ent (next (ent root j)) p i := by
          simp [entryAt, tableAt, h]
        rw [List.cons_append, tableAt, if_neg h, ih, hent]

/-- Walks compose. -/
theorem tableAt_append :
    tableAt next ent root (p ++ q) = (tableAt next ent root p).bind fun t =>
      tableAt next ent t q := by
  induction p generalizing root with
  | nil => simp
  | cons j p ih =>
      by_cases h : ent root j = 0
      · simp [tableAt, h]
      · simp [tableAt, h, ih]

/-- A nonzero entry is the entry of a table. -/
theorem exists_tableAt_of_entryAt_ne (h : entryAt next ent root p i ≠ 0) :
    ∃ t, tableAt next ent root p = some t ∧ ent t i = entryAt next ent root p i := by
  cases ht : tableAt next ent root p with
  | none => exact absurd (entryAt_of_tableAt_none ht) h
  | some t => exact ⟨t, rfl, (entryAt_of_tableAt ht).symm⟩

/-- A walk that arrives passed only tables. -/
theorem exists_tableAt_of_append {t : τ} (h : tableAt next ent root (p ++ q) = some t) :
    ∃ t', tableAt next ent root p = some t' := by
  rw [tableAt_append] at h
  obtain ⟨t', ht', -⟩ := Option.bind_eq_some_iff.mp h
  exact ⟨t', ht'⟩

/-- **A walk depends on the entries that it passes.** -/
theorem tableAt_congr_walk (h : ∀ p i t, p ++ [i] <+: q → tableAt next ent root p = some t →
    ent' t i = ent t i) : tableAt next ent' root q = tableAt next ent root q := by
  induction q using List.reverseRecOn with
  | nil => rfl
  | append_singleton q j ih =>
      have ih := ih fun p i t hp => h p i t (hp.trans (List.prefix_append q [j]))
      rw [tableAt_concat, tableAt_concat]
      suffices hent : entryAt next ent' root q j = entryAt next ent root q j by rw [hent]
      cases ht : tableAt next ent root q with
      | none => rw [entryAt_of_tableAt_none ht, entryAt_of_tableAt_none (ih.trans ht)]
      | some t =>
          rw [entryAt_of_tableAt ht, entryAt_of_tableAt (ih.trans ht)]
          exact h q j t List.prefix_rfl ht

/-- A store that agrees on the tables of the tree has the same tables. -/
theorem tableAt_congr_store (h : ∀ p t i, p.length ≤ n → tableAt next ent root p = some t →
    ent' t i = ent t i) (hq : q.length ≤ n + 1) :
    tableAt next ent' root q = tableAt next ent root q := by
  refine tableAt_congr_walk fun p i t hp ht => h p t i ?_ ht
  have hlen := hp.length_le
  simp only [List.length_append, List.length_singleton] at hlen
  omega

/-! ### Writing one entry -/

/-- A write to entry `i₀` of the table at `p₀`, and to tables outside the tree, changes
nothing else of an unshared tree. -/
theorem Unshared.agreesOff (h : Unshared next ent root n) (hp₀ : p₀.length ≤ n)
    (ht₀ : tableAt next ent root p₀ = some t₀)
    (hsame : ∀ p t i, p.length ≤ n → tableAt next ent root p = some t →
      (t ≠ t₀ ∨ i ≠ i₀) → ent' t i = ent t i) :
    AgreesOff next ent ent' root n p₀ i₀ := by
  intro p t i hp ht hne
  refine hsame p t i hp ht ?_
  rcases hne with hne | hne
  · left
    rintro rfl
    exact hne (h p p₀ t hp hp₀ ht ht₀)
  · exact Or.inr hne

/-- A walk that does not pass the changed entry arrives where it did. -/
theorem AgreesOff.tableAt_off (h : AgreesOff next ent ent' root n p₀ i₀)
    (hq : q.length ≤ n + 1) (hpre : ¬ p₀ ++ [i₀] <+: q) :
    tableAt next ent' root q = tableAt next ent root q := by
  refine tableAt_congr_walk fun p i t hp ht => ?_
  have hlen := hp.length_le
  simp only [List.length_append, List.length_singleton] at hlen
  refine h p t i (by omega) ht ?_
  by_contra hne
  push Not at hne
  obtain ⟨rfl, rfl⟩ := hne
  exact hpre hp

/-- The table of the changed entry is where it was. -/
theorem AgreesOff.tableAt_self (h : AgreesOff next ent ent' root n p₀ i₀)
    (hp₀ : p₀.length ≤ n) : tableAt next ent' root p₀ = tableAt next ent root p₀ := by
  refine h.tableAt_off (by omega) fun hpre => ?_
  have := hpre.length_le
  simp at this

/-- The tables that an entry leads to are all empty. -/
def EmptyBelow (next : ε → τ) (ent : τ → ι → ε) (root : τ) (p : List ι) : Prop :=
  ∀ t, tableAt next ent root p = some t → ∀ i, ent t i = 0

/-- Below an empty table there is none. -/
theorem EmptyBelow.tableAt_eq_none (h : EmptyBelow next ent root p) (hpre : p <+: q)
    (hne : q ≠ p) : tableAt next ent root q = none := by
  obtain ⟨r, rfl⟩ := hpre
  cases r with
  | nil => simp at hne
  | cons j r =>
      rw [tableAt_append]
      cases ht : tableAt next ent root p with
      | none => rfl
      | some t => simp [tableAt, h t ht j]

/-- The walk sees no entry in or below an empty table. -/
theorem EmptyBelow.entryAt_eq_zero (h : EmptyBelow next ent root p) (hpre : p <+: q) :
    entryAt next ent root q i = 0 := by
  by_cases hne : q = p
  · cases ht : tableAt next ent root q with
    | none => exact entryAt_of_tableAt_none ht
    | some t => rw [entryAt_of_tableAt ht, h t (hne ▸ ht)]
  · exact entryAt_of_tableAt_none (h.tableAt_eq_none hpre hne)

/-- **Writing one entry**: if the tables that the entry leads to are empty before and after,
the walk sees exactly this entry change. -/
theorem AgreesOff.entryAt_eq (h : AgreesOff next ent ent' root n p₀ i₀) (hp₀ : p₀.length ≤ n)
    (ht₀ : tableAt next ent root p₀ = some t₀)
    (hold : p₀.length < n → EmptyBelow next ent root (p₀ ++ [i₀]))
    (hnew : p₀.length < n → EmptyBelow next ent' root (p₀ ++ [i₀])) (hp : p.length ≤ n) :
    (p = p₀ ∧ i = i₀ → entryAt next ent' root p i = ent' t₀ i₀) ∧
      (p ≠ p₀ ∨ i ≠ i₀ → entryAt next ent' root p i = entryAt next ent root p i) := by
  constructor
  · rintro ⟨rfl, rfl⟩
    exact entryAt_of_tableAt ((h.tableAt_self hp₀).trans ht₀)
  · intro hne
    by_cases hpre : p₀ ++ [i₀] <+: p
    · have hlt : p₀.length < n := by
        have := hpre.length_le
        simp only [List.length_append, List.length_singleton] at this
        omega
      rw [(hold hlt).entryAt_eq_zero hpre, (hnew hlt).entryAt_eq_zero hpre]
    · have htab := h.tableAt_off (q := p) (by omega) hpre
      cases ht : tableAt next ent root p with
      | none => rw [entryAt_of_tableAt_none ht, entryAt_of_tableAt_none (htab.trans ht)]
      | some t =>
          rw [entryAt_of_tableAt ht, entryAt_of_tableAt (htab.trans ht)]
          exact h p t i hp ht hne

/-- The tables of the tree after the write: those before it, but for the one that the entry
leads to now. -/
theorem AgreesOff.tableAt_cases (h : AgreesOff next ent ent' root n p₀ i₀) (hp₀ : p₀.length ≤ n)
    (ht₀ : tableAt next ent root p₀ = some t₀)
    (hnew : p₀.length < n → EmptyBelow next ent' root (p₀ ++ [i₀])) {t : τ} (hq : q.length ≤ n)
    (ht : tableAt next ent' root q = some t) :
    (¬ p₀ ++ [i₀] <+: q ∧ tableAt next ent root q = some t) ∨
      (q = p₀ ++ [i₀] ∧ ent' t₀ i₀ ≠ 0 ∧ t = next (ent' t₀ i₀)) := by
  by_cases hpre : p₀ ++ [i₀] <+: q
  · have hlt : p₀.length < n := by
      have := hpre.length_le
      simp only [List.length_append, List.length_singleton] at this
      omega
    have hq' : q = p₀ ++ [i₀] := by
      by_contra hne
      rw [(hnew hlt).tableAt_eq_none hpre hne] at ht
      cases ht
    rw [hq', tableAt_concat, entryAt_of_tableAt ((h.tableAt_self hp₀).trans ht₀)] at ht
    split_ifs at ht with hz
    exact Or.inr ⟨hq', hz, (Option.some.inj ht).symm⟩
  · rw [h.tableAt_off (by omega) hpre] at ht
    exact Or.inl ⟨hpre, ht⟩

/-- **The tree stays unshared** if the changed entry leads to no table of the tree. -/
theorem AgreesOff.unshared (h : AgreesOff next ent ent' root n p₀ i₀)
    (hun : Unshared next ent root n) (hp₀ : p₀.length ≤ n)
    (ht₀ : tableAt next ent root p₀ = some t₀)
    (hnew : p₀.length < n → EmptyBelow next ent' root (p₀ ++ [i₀]))
    (hfresh : p₀.length < n → ent' t₀ i₀ ≠ 0 → ∀ q, q.length ≤ n → ¬ p₀ ++ [i₀] <+: q →
      tableAt next ent root q ≠ some (next (ent' t₀ i₀))) :
    Unshared next ent' root n := by
  intro p q t hp hq htp htq
  have hlen : ∀ r : List ι, r = p₀ ++ [i₀] → r.length ≤ n → p₀.length < n := by
    rintro r rfl hr
    simpa using hr
  rcases h.tableAt_cases hp₀ ht₀ hnew hp htp with ⟨hpp, htp'⟩ | ⟨hpe, hz, htp'⟩ <;>
    rcases h.tableAt_cases hp₀ ht₀ hnew hq htq with ⟨hqp, htq'⟩ | ⟨hqe, hz', htq'⟩
  · exact hun p q t hp hq htp' htq'
  · exact absurd (htq' ▸ htp') (hfresh (hlen q hqe hq) hz' p hp hpp)
  · exact absurd (htp' ▸ htq') (hfresh (hlen p hpe hp) hz q hq hqp)
  · rw [hpe, hqe]

/-! ### Erasing one entry -/

/-- Below an erased entry there is no table. -/
theorem AgreesOff.emptyBelow_erased (h : AgreesOff next ent ent' root n p₀ i₀)
    (hp₀ : p₀.length ≤ n) (ht₀ : tableAt next ent root p₀ = some t₀) (hz : ent' t₀ i₀ = 0) :
    EmptyBelow next ent' root (p₀ ++ [i₀]) := by
  intro t ht
  rw [tableAt_concat, entryAt_of_tableAt ((h.tableAt_self hp₀).trans ht₀), hz, if_pos rfl] at ht
  cases ht

/-- **Erasing one entry** that leads to an empty table or to none: the walk sees exactly this
entry vanish. -/
theorem AgreesOff.entryAt_erase (h : AgreesOff next ent ent' root n p₀ i₀) (hp₀ : p₀.length ≤ n)
    (ht₀ : tableAt next ent root p₀ = some t₀) (hz : ent' t₀ i₀ = 0)
    (hold : p₀.length < n → EmptyBelow next ent root (p₀ ++ [i₀])) (hp : p.length ≤ n) :
    (p = p₀ ∧ i = i₀ → entryAt next ent' root p i = 0) ∧
      (p ≠ p₀ ∨ i ≠ i₀ → entryAt next ent' root p i = entryAt next ent root p i) := by
  obtain ⟨h1, h2⟩ := h.entryAt_eq (p := p) (i := i) hp₀ ht₀ hold
    (fun _ => h.emptyBelow_erased hp₀ ht₀ hz) hp
  exact ⟨fun heq => (h1 heq).trans hz, h2⟩

/-- The tables after the erasure are tables from before. -/
theorem AgreesOff.tableAt_of_erase (h : AgreesOff next ent ent' root n p₀ i₀)
    (hp₀ : p₀.length ≤ n) (ht₀ : tableAt next ent root p₀ = some t₀) (hz : ent' t₀ i₀ = 0)
    {t : τ} (hq : q.length ≤ n) (ht : tableAt next ent' root q = some t) :
    tableAt next ent root q = some t := by
  rcases h.tableAt_cases hp₀ ht₀ (fun _ => h.emptyBelow_erased hp₀ ht₀ hz) hq ht with
    ⟨-, ht'⟩ | ⟨-, hne, -⟩
  · exact ht'
  · exact absurd hz hne

/-- The tables before the erasure are there after it, but for the one the entry led to. -/
theorem AgreesOff.tableAt_erase (h : AgreesOff next ent ent' root n p₀ i₀)
    (hold : EmptyBelow next ent root (p₀ ++ [i₀])) {t : τ} (hq : q.length ≤ n)
    (ht : tableAt next ent root q = some t) (hne : q ≠ p₀ ++ [i₀]) :
    tableAt next ent' root q = some t := by
  by_cases hpre : p₀ ++ [i₀] <+: q
  · rw [hold.tableAt_eq_none hpre hne] at ht
    cases ht
  · rw [h.tableAt_off (by omega) hpre, ht]

/-- Erasing an entry keeps the tree unshared. -/
theorem AgreesOff.unshared_erase (h : AgreesOff next ent ent' root n p₀ i₀)
    (hun : Unshared next ent root n) (hp₀ : p₀.length ≤ n)
    (ht₀ : tableAt next ent root p₀ = some t₀) (hz : ent' t₀ i₀ = 0) :
    Unshared next ent' root n := by
  intro p q t hp hq htp htq
  exact hun p q t hp hq (h.tableAt_of_erase hp₀ ht₀ hz hp htp)
    (h.tableAt_of_erase hp₀ ht₀ hz hq htq)

end AnglOS
