import Mathlib.Data.Nat.Digits.Lemmas

/-!
# Numerals

Positional numerals as text over any characters: separators between groups of digits, and a reader
that skips every character that is not a digit.

* `separate g sep k ds` — digits with a separator in front of every group of `g` but the first;
* `readNumeral digit base s` — the number that the digits in the text `s` make.

## Main results

* `readNumeral_reverse` — a text that was written with its last digit first;
* `readNumeral_append_left`, `readNumeral_append_right` — padding is not read.
-/

namespace AnglOS

variable {β : Type*}

/-- The digits `ds`, the first of which has the index `k`, with the separator in front of each one
whose index is a multiple of `g` other than 0. -/
def separate (g : ℕ) (sep : β) : ℕ → List β → List β
  | _, [] => []
  | k, d :: ds => (if 0 < k ∧ k % g = 0 then [sep, d] else [d]) ++ separate g sep (k + 1) ds

theorem length_separate_le (g : ℕ) (sep : β) (k : ℕ) (ds : List β) :
    (separate g sep k ds).length ≤ 2 * ds.length := by
  induction ds generalizing k with
  | nil => simp [separate]
  | cons d ds ih =>
    have hds := ih (k + 1)
    rw [separate]
    split_ifs <;> simp <;> omega

/-- Separators are no digits. -/
theorem filterMap_separate {digit : β → Option ℕ} {sep : β} (hsep : digit sep = none) (g k : ℕ)
    (ds : List β) : (separate g sep k ds).filterMap digit = ds.filterMap digit := by
  induction ds generalizing k with
  | nil => rfl
  | cons d ds ih =>
    rw [separate]
    split_ifs <;> simp [hsep, ih, List.filterMap_cons]

theorem mem_separate {g : ℕ} {sep c : β} {k : ℕ} {ds : List β} (hc : c ∈ separate g sep k ds) :
    c = sep ∨ c ∈ ds := by
  induction ds generalizing k with
  | nil => simp [separate] at hc
  | cons d ds ih =>
    rw [separate, List.mem_append] at hc
    rcases hc with hc | hc
    · split_ifs at hc <;> simp at hc ⊢ <;> tauto
    · rcases ih hc with h | h
      · exact Or.inl h
      · exact Or.inr (List.mem_cons_of_mem d h)

/-- The number that the digits in a text make, the first one being the highest. -/
def readNumeral (digit : β → Option ℕ) (base : ℕ) (s : List β) : ℕ :=
  (s.filterMap digit).foldl (fun n d => n * base + d) 0

/-- **A text that was written with its last digit first.** -/
theorem readNumeral_reverse (digit : β → Option ℕ) (base : ℕ) (s : List β) :
    readNumeral digit base s.reverse = Nat.ofDigits base (s.filterMap digit) := by
  rw [readNumeral, List.filterMap_reverse, List.foldl_reverse, Nat.ofDigits_eq_foldr]
  congr 1
  funext d n
  simp [Nat.mul_comm, Nat.add_comm]

/-- Zeros in front of a numeral are not read. -/
theorem readNumeral_append_left {digit : β → Option ℕ} (base : ℕ) {s t : List β}
    (hs : ∀ c ∈ s, digit c = none ∨ digit c = some 0) :
    readNumeral digit base (s ++ t) = readNumeral digit base t := by
  induction s with
  | nil => rfl
  | cons c s ih =>
    have hrest := ih fun c hc => hs c (by simp [hc])
    rcases hs c (by simp) with hc | hc
    · simpa [readNumeral, List.filterMap_cons, hc] using hrest
    · simpa [readNumeral, List.filterMap_cons, hc] using hrest

/-- What is behind a numeral and is no digit is not read. -/
theorem readNumeral_append_right {digit : β → Option ℕ} (base : ℕ) {s t : List β}
    (ht : ∀ c ∈ t, digit c = none) :
    readNumeral digit base (s ++ t) = readNumeral digit base s := by
  rw [readNumeral, readNumeral, List.filterMap_append, List.filterMap_eq_nil_iff.mpr ht,
    List.append_nil]

end AnglOS
