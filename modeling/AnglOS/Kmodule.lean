import AnglOS.Libc

/-!
# Kernel Modules

The lookup of a module by its path, `kmodule.c`. The bootloader supplies an array of pointers to
modules, each with a pointer to its path.

## Main results

* `kmoduleFindByPath_of_first` — what the search returns: the first module whose path begins with
  the path it is asked for;
* `kmoduleFindByPath_iff` — so it is the module of this path exactly when no other comes first.
-/

namespace AnglOS

/-- The answer of the bootloader: the number of modules, the pointers to them, and the pointer to
the path of the module at an address. -/
structure ModuleResponse where
  moduleCount : ℕ
  modules : ℕ → ℕ
  path : ℕ → ℕ

/-- The loop of `kmoduleFindByPath` from index `i` on. The index is a 32-bit integer, and the number
of modules is a 64-bit one. `none` means that it goes on; the inner `none` is the null pointer. -/
def findByPathLoop (m : Mem) (R : ModuleResponse) (path : ℕ) : ℕ → ℕ → Option (Option ℕ)
  | 0, _ => none
  | fuel + 1, i =>
    if i < R.moduleCount then do
      let r ← strcmp m fuel path (R.path (R.modules i))
      if r = 0 then return some (R.modules i)
      else findByPathLoop m R path fuel ((i + 1) % 2 ^ 32)
    else return none

/-- `kmoduleFindByPath`. -/
def kmoduleFindByPath (m : Mem) (R : ModuleResponse) (path fuel : ℕ) : Option (Option ℕ) :=
  findByPathLoop m R path fuel 0

/-- Every module's path is a string. -/
def ModuleResponse.Paths (R : ModuleResponse) (m : Mem) (paths : ℕ → List (BitVec 8)) : Prop :=
  ∀ i < R.moduleCount, CString m (R.path (R.modules i)) (paths i)

/-- **The right answer** for the path `s`: the first module with this path, or the null pointer when
there is none. -/
def ModuleResponse.IsFind (R : ModuleResponse) (paths : ℕ → List (BitVec 8)) (s : List (BitVec 8)) :
    Option ℕ → Prop
  | some p => ∃ i < R.moduleCount, p = R.modules i ∧ paths i = s ∧ ∀ j < i, paths j ≠ s
  | none => ∀ i < R.moduleCount, paths i ≠ s

section

variable {m : Mem} {R : ModuleResponse} {path i n : ℕ} {s : List (BitVec 8)}
  {paths : ℕ → List (BitVec 8)}

/-- One index that does not match. -/
theorem findByPathLoop_step (hR : R.Paths m paths) (hs : CString m path s)
    (hi : i < R.moduleCount) (hne : ¬s <+: paths i) {fuel : ℕ} (hfuel : s.length < fuel) :
    findByPathLoop m R path (fuel + 1) i = findByPathLoop m R path fuel ((i + 1) % 2 ^ 32) := by
  obtain ⟨r, hr, hzero⟩ := strcmp_spec hs (hR i hi) hfuel
  rw [findByPathLoop, if_pos hi, hr]
  exact if_neg (hzero.not.mpr hne)

/-- A stretch of indices that do not match. -/
theorem findByPathLoop_skip (hR : R.Paths m paths) (hs : CString m path s) (k : ℕ)
    (hk : i + k < 2 ^ 32) (hcount : i + k ≤ R.moduleCount)
    (hne : ∀ j, i ≤ j → j < i + k → ¬s <+: paths j) {fuel : ℕ} (hfuel : s.length < fuel) :
    findByPathLoop m R path (fuel + k) i = findByPathLoop m R path fuel (i + k) := by
  induction k generalizing i with
  | zero => rfl
  | succ k ih =>
    rw [← Nat.add_assoc, findByPathLoop_step hR hs (by omega) (hne i le_rfl (by omega))
      (by omega : s.length < fuel + k), Nat.mod_eq_of_lt (by omega), ih (by omega) (by omega)
      fun j hj hj' => hne j (by omega) (by omega)]
    congr 1
    omega

/-- While no index below 2³² matches and there are at least as many modules, the search goes on. -/
theorem findByPathLoop_eq_none (hR : R.Paths m paths) (hs : CString m path s)
    (hcount : 2 ^ 32 ≤ R.moduleCount) (hne : ∀ j < 2 ^ 32, ¬s <+: paths j) (fuel : ℕ)
    (hi : i < 2 ^ 32) : findByPathLoop m R path fuel i = none := by
  induction fuel generalizing i with
  | zero => rfl
  | succ fuel ih =>
    obtain ⟨r, hr, hzero⟩ := strcmp_spec hs (hR i (by omega)) (Nat.lt_succ_self s.length)
    rw [findByPathLoop, if_pos (by omega)]
    cases hc : strcmp m fuel path (R.path (R.modules i)) with
    | none => rfl
    | some r' =>
      have heq : r' = r := by
        have h1 := strcmp_mono hr (Nat.le_max_left _ fuel)
        have h2 := strcmp_mono hc (Nat.le_max_right (s.length + 1) fuel)
        exact Option.some.inj (h2.symm.trans h1)
      rw [heq]
      exact (if_neg (hzero.not.mpr (hne i hi))).trans (ih (Nat.mod_lt _ (by norm_num)))

/-- **What the search returns**: with the first index below 2³² whose path begins with `s`, the
module there. -/
theorem kmoduleFindByPath_of_first (hR : R.Paths m paths) (hs : CString m path s)
    (hi : i < R.moduleCount) (hi' : i < 2 ^ 32) (hfirst : ∀ j < i, ¬s <+: paths j)
    (hpre : s <+: paths i) :
    kmoduleFindByPath m R path (s.length + 2 + i) = some (some (R.modules i)) := by
  obtain ⟨r, hr, hzero⟩ := strcmp_spec hs (hR i hi) (Nat.lt_succ_self s.length)
  rw [kmoduleFindByPath, findByPathLoop_skip hR hs i (by omega) (by omega)
    (fun j _ hj => hfirst j (by omega)) (by omega), Nat.zero_add, findByPathLoop, if_pos hi, hr]
  exact if_pos (hzero.mpr hpre)

/-- With no such index it returns the null pointer. -/
theorem kmoduleFindByPath_of_none (hR : R.Paths m paths) (hs : CString m path s)
    (hcount : R.moduleCount < 2 ^ 32) (hne : ∀ j < R.moduleCount, ¬s <+: paths j) :
    kmoduleFindByPath m R path (s.length + 1 + R.moduleCount) = some none := by
  rw [kmoduleFindByPath, findByPathLoop_skip hR hs R.moduleCount (by omega) (by omega)
    (fun j _ hj => hne j (by omega)) (by omega), Nat.zero_add, findByPathLoop,
    if_neg (lt_irrefl _)]
  rfl

/-- A search that has come to its end does not depend on how long it may take. -/
theorem findByPathLoop_mono {fuel fuel' : ℕ} {r : Option ℕ}
    (h : findByPathLoop m R path fuel i = some r) (hle : fuel ≤ fuel') :
    findByPathLoop m R path fuel' i = some r := by
  induction fuel generalizing i fuel' with
  | zero => cases h
  | succ fuel ih =>
    obtain ⟨fuel', rfl⟩ : ∃ f, fuel' = f + 1 := ⟨fuel' - 1, by omega⟩
    rw [findByPathLoop] at h ⊢
    split_ifs at h ⊢ with hi
    · obtain ⟨c, hc, hrest⟩ := Option.bind_eq_some_iff.mp h
      refine Option.bind_eq_some_iff.mpr ⟨c, strcmp_mono hc (by omega), ?_⟩
      split_ifs at hrest ⊢
      · exact hrest
      · exact ih hrest (by omega)
    · exact h

/-- The search ends with at most one answer. -/
theorem kmoduleFindByPath_unique {fuel fuel' : ℕ} {r r' : Option ℕ}
    (h : kmoduleFindByPath m R path fuel = some r)
    (h' : kmoduleFindByPath m R path fuel' = some r') : r = r' :=
  Option.some.inj ((findByPathLoop_mono h (Nat.le_max_left fuel fuel')).symm.trans
    (findByPathLoop_mono h' (Nat.le_max_right fuel fuel')))

/-- **The lookup finds the named module** exactly when the first path that begins with the name is
the name, at an index below 2³², or when no path does and there are fewer than 2³² modules. -/
theorem kmoduleFindByPath_iff (hR : R.Paths m paths) (hs : CString m path s) :
    (∃ fuel r, kmoduleFindByPath m R path fuel = some r ∧ R.IsFind paths s r) ↔
      (∃ i < R.moduleCount, i < 2 ^ 32 ∧ paths i = s ∧ ∀ j < i, ¬s <+: paths j) ∨
        (R.moduleCount < 2 ^ 32 ∧ ∀ i < R.moduleCount, ¬s <+: paths i) := by
  constructor
  · rintro ⟨fuel, r, hrun, hfind⟩
    by_cases hex : ∃ i, i < R.moduleCount ∧ i < 2 ^ 32 ∧ s <+: paths i
    · -- the first index that matches is the answer
      obtain ⟨hi, hi', hpre⟩ := Nat.find_spec hex
      have hfirst : ∀ j < Nat.find hex, ¬s <+: paths j := fun j hj hj' =>
        Nat.find_min hex hj ⟨by omega, by omega, hj'⟩
      obtain rfl := kmoduleFindByPath_unique hrun
        (kmoduleFindByPath_of_first hR hs hi hi' hfirst hpre)
      obtain ⟨j, hj, hmod, hpath, -⟩ := hfind
      have hstring := hR _ hi
      rw [hmod] at hstring
      exact Or.inl ⟨_, hi, hi', (hstring.unique (hR j hj)).trans hpath, hfirst⟩
    · have hne : ∀ i, i < R.moduleCount → i < 2 ^ 32 → ¬s <+: paths i := fun i h h' hp =>
        hex ⟨i, h, h', hp⟩
      by_cases hcount : R.moduleCount < 2 ^ 32
      · exact Or.inr ⟨hcount, fun i hi => hne i hi (by omega)⟩
      · rw [kmoduleFindByPath, findByPathLoop_eq_none hR hs (by omega)
          (fun j hj => hne j (by omega) hj) fuel (by norm_num)] at hrun
        cases hrun
  · rintro (⟨i, hi, hi', hpath, hfirst⟩ | ⟨hcount, hne⟩)
    · refine ⟨_, _, kmoduleFindByPath_of_first hR hs hi hi' hfirst (by rw [hpath]), i, hi, rfl,
        hpath, fun j hj hj' => hfirst j hj (by rw [hj'])⟩
    · exact ⟨_, _, kmoduleFindByPath_of_none hR hs hcount hne, fun i hi hi' =>
        hne i hi (by rw [hi'])⟩

end

/-! ### A list of two modules -/

/-- Memory with the strings "a" at 1 and "ab" at 3. -/
def twoNames : Mem
  | 1 => 0x61
  | 3 => 0x61
  | 4 => 0x62
  | _ => 0

/-- The modules "ab" and "a", in this order, or the other way round. -/
def twoModules (swap : Bool) : ModuleResponse where
  moduleCount := 2
  modules i := if (i = 0) = swap then 100 else 200
  path p := if p = 100 then 1 else 3

/-- The paths of the two modules. -/
def twoPaths (swap : Bool) (i : ℕ) : List (BitVec 8) :=
  if (i = 0) = swap then [0x61] else [0x61, 0x62]

theorem twoModules_paths (swap : Bool) : (twoModules swap).Paths twoNames (twoPaths swap) := by
  intro i hi
  have hi2 : i < 2 := hi
  interval_cases i <;> cases swap <;> simp [twoModules, twoPaths, CString, twoNames]

/-- With "a" first, the lookup of "a" finds it. -/
theorem kmoduleFindByPath_iff_first : ∃ fuel r,
    kmoduleFindByPath twoNames (twoModules true) 1 fuel = some r ∧
      (twoModules true).IsFind (twoPaths true) [0x61] r :=
  (kmoduleFindByPath_iff (twoModules_paths true) (by simp [CString, twoNames])).mpr
    (Or.inl ⟨0, by decide, by norm_num, rfl, fun _ h => absurd h (Nat.not_lt_zero _)⟩)

/-- With "ab" first, the lookup of "a" returns "ab". -/
theorem kmoduleFindByPath_prefix :
    (twoModules false).Paths twoNames (twoPaths false) ∧ CString twoNames 1 [0x61] ∧
      kmoduleFindByPath twoNames (twoModules false) 1 3 =
        some (some ((twoModules false).modules 0)) ∧
      ¬(twoModules false).IsFind (twoPaths false) [0x61]
        (some ((twoModules false).modules 0)) := by
  refine ⟨twoModules_paths false, by simp [CString, twoNames], rfl, ?_⟩
  rintro ⟨i, hi, hmod, hpath, -⟩
  have hi2 : i < 2 := hi
  interval_cases i
  · simp [twoPaths] at hpath
  · simp [twoModules] at hmod

end AnglOS
