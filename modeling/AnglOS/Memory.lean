import Mathlib.Tactic

/-!
# Machine Words and Byte Memory

The wrapping 64-bit sum and difference of natural numbers, and a flat memory of bytes with
the little-endian 64-bit loads and stores that C code compiled for a 64-bit machine
performs on it. Addresses are natural numbers; the code that computes an address is
responsible for its wrap-around, so loads and stores do not wrap.

## Main results

* `getLsbD_load64` — bit `i` of a loaded word is bit `i % 8` of byte `i / 8`;
* `load64_store64_self`, `load64_store64_of_disjoint`, `load64_store64_aligned` — a
  word store is seen by a load of the same word and by no disjoint load;
* `load64_congr` — a load reads its eight bytes and nothing else.
-/

namespace AnglOS

/-! ### 64-bit arithmetic -/

/-- The 64-bit sum. -/
def add64 (a b : ℕ) : ℕ :=
  (a + b) % 2 ^ 64

/-- The 64-bit difference. -/
def sub64 (a b : ℕ) : ℕ :=
  (a + 2 ^ 64 - b % 2 ^ 64) % 2 ^ 64

/-- A sum that fits does not wrap. -/
theorem add64_eq {a b : ℕ} (h : a + b < 2 ^ 64) : add64 a b = a + b :=
  Nat.mod_eq_of_lt h

/-- A difference that is not negative does not wrap. -/
theorem sub64_eq {a b : ℕ} (ha : a < 2 ^ 64) (h : b ≤ a) : sub64 a b = a - b := by
  rw [sub64]
  omega

/-! ### Memory -/

/-- A memory assigns a byte to every address. -/
abbrev Mem := ℕ → BitVec 8

/-- The memory with the byte at `a` replaced by `v`. -/
def Mem.store8 (m : Mem) (a : ℕ) (v : BitVec 8) : Mem :=
  fun x => if x = a then v else m x

/-- The little-endian 64-bit word at `a`. -/
def Mem.load64 (m : Mem) (a : ℕ) : BitVec 64 :=
  m (a + 7) ++ m (a + 6) ++ m (a + 5) ++ m (a + 4) ++ m (a + 3) ++ m (a + 2) ++
    m (a + 1) ++ m a

/-- The memory with the little-endian 64-bit word at `a` replaced by `v`. -/
def Mem.store64 (m : Mem) (a : ℕ) (v : BitVec 64) : Mem :=
  fun x => if a ≤ x ∧ x < a + 8 then v.extractLsb' (8 * (x - a)) 8 else m x

/-! ### Bytes -/

/-- A byte store is read back. -/
@[simp] theorem Mem.store8_self (m : Mem) (a : ℕ) (v : BitVec 8) : m.store8 a v a = v := by
  simp [Mem.store8]

/-- A byte store leaves every other byte alone. -/
theorem Mem.store8_of_ne {m : Mem} {a x : ℕ} {v : BitVec 8} (h : x ≠ a) :
    m.store8 a v x = m x := by
  simp [Mem.store8, h]

/-- A word store leaves every byte outside its word alone. -/
theorem Mem.store64_of_not_mem {m : Mem} {a x : ℕ} {v : BitVec 64}
    (h : x < a ∨ a + 8 ≤ x) : m.store64 a v x = m x := by
  simp only [Mem.store64]
  rw [if_neg (by omega)]

/-! ### Words -/

/-- Bit `i` of a loaded word lives in byte `i / 8`. -/
theorem Mem.getLsbD_load64 (m : Mem) (a : ℕ) {i : ℕ} (hi : i < 64) :
    (m.load64 a).getLsbD i = (m (a + i / 8)).getLsbD (i % 8) := by
  have h : i / 8 < 8 := by omega
  obtain ⟨q, hq⟩ : ∃ q, i / 8 = q := ⟨_, rfl⟩
  simp only [Mem.load64, BitVec.getLsbD_append]
  have hq8 : q < 8 := by omega
  interval_cases q <;> grind

/-- A load reads its eight bytes and nothing else. -/
theorem Mem.load64_congr {m m' : Mem} {a : ℕ} (h : ∀ x, a ≤ x → x < a + 8 → m' x = m x) :
    m'.load64 a = m.load64 a := by
  simp only [Mem.load64]
  rw [h (a + 7) (by omega) (by omega), h (a + 6) (by omega) (by omega),
    h (a + 5) (by omega) (by omega), h (a + 4) (by omega) (by omega),
    h (a + 3) (by omega) (by omega), h (a + 2) (by omega) (by omega),
    h (a + 1) (by omega) (by omega), h a (by omega) (by omega)]

/-- A word store is read back. -/
@[simp] theorem Mem.load64_store64_self (m : Mem) (a : ℕ) (v : BitVec 64) :
    (m.store64 a v).load64 a = v := by
  apply BitVec.eq_of_getLsbD_eq
  intro i hi
  rw [Mem.getLsbD_load64 _ _ hi]
  simp only [Mem.store64]
  rw [if_pos (by omega), BitVec.getLsbD_extractLsb']
  have h1 : i % 8 < 8 := by omega
  have h2 : 8 * (a + i / 8 - a) + i % 8 = i := by omega
  rw [h2]
  simp [h1]

/-- A word store is invisible to a load of a disjoint word. -/
theorem Mem.load64_store64_of_disjoint {m : Mem} {a b : ℕ} {v : BitVec 64}
    (h : a + 8 ≤ b ∨ b + 8 ≤ a) : (m.store64 a v).load64 b = m.load64 b := by
  refine Mem.load64_congr fun x h1 h2 => ?_
  exact Mem.store64_of_not_mem (by omega)

/-- On word-aligned addresses a store is visible at exactly one address. -/
theorem Mem.load64_store64_aligned {m : Mem} {a b : ℕ} {v : BitVec 64} (ha : a % 8 = 0)
    (hb : b % 8 = 0) :
    (m.store64 a v).load64 b = if b = a then v else m.load64 b := by
  split
  · next h => rw [h, Mem.load64_store64_self]
  · next h => exact Mem.load64_store64_of_disjoint (by omega)

end AnglOS
