import AnglOS.Numeral
import AnglOS.Stdio

/-!
# What the Formatter Prints for an Integer

The text of `format_integer`, for every value of 64 bits, all flags, and every width and precision.

## Main results

* `integerBuf_eq` — the digits, separated, and the zeros behind them;
* `length_integerBuf_le` — the local buffer of 64 bytes is large enough;
* `formatInteger_eq` — the padding around the number;
* `readNumeral_formatInteger` — whoever skips what is no digit reads the number that was printed.
-/

namespace AnglOS

/-- The value of a digit of any of the bases. -/
def digitValue (c : BitVec 8) : Option ℕ :=
  if 48 ≤ c.toNat ∧ c.toNat ≤ 57 then some (c.toNat - 48)
  else if 97 ≤ c.toNat ∧ c.toNat ≤ 102 then some (c.toNat - 87)
  else if 65 ≤ c.toNat ∧ c.toNat ≤ 70 then some (c.toNat - 55)
  else none

/-- The bases of the formatter. -/
def IsBase (b : IntegerBase) : Prop :=
  b = baseD ∨ b = baseO ∨ b = baseX ∨ b = baseXUpper

/-- The character of a digit. -/
def IntegerBase.digitChar (b : IntegerBase) (d : ℕ) : BitVec 8 :=
  b.digits.getD d 0

section

variable {b : IntegerBase} (hb : IsBase b)
include hb

theorem IsBase.base_le : 8 ≤ b.base ∧ b.base ≤ 16 := by
  rcases hb with rfl | rfl | rfl | rfl <;> decide

/-- Digits are printed as characters that have their values. -/
theorem IsBase.digitValue_digitChar {d : ℕ} (hd : d < b.base) :
    digitValue (b.digitChar d) = some d := by
  rcases hb with rfl | rfl | rfl | rfl
  · revert d
    decide
  · revert d
    decide
  · revert d
    decide
  · revert d
    decide

/-- The letter of a base is no digit. -/
theorem IsBase.digitValue_x : digitValue b.x = none := by
  rcases hb with rfl | rfl | rfl | rfl <;> decide

end

/-- The text of the digits of `value`, the last digit first. -/
def digitText (b : IntegerBase) (flags : ConvFlags) (value : ℕ) : List (BitVec 8) :=
  let ds := (Nat.digits b.base value).map b.digitChar
  if flags.group then separate b.group (chr ',') 0 ds else ds

/-- The loop over the digits. -/
theorem digitLoop_eq (b : IntegerBase) (flags : ConvFlags) (value digitCnt : ℕ)
    (buf : List (BitVec 8)) :
    digitLoop b flags value digitCnt buf = buf ++
      (if flags.group then
        separate b.group (chr ',') digitCnt ((Nat.digits b.base value).map b.digitChar)
      else (Nat.digits b.base value).map b.digitChar) := by
  induction value using Nat.strong_induction_on generalizing digitCnt buf with
  | _ value ih =>
    rw [digitLoop]
    by_cases hv : 0 < value
    · rw [dif_pos hv]
      simp only
      rw [ih _ (Nat.div_lt_self hv b.one_lt_base), Nat.digits_def' b.one_lt_base hv]
      cases hgroup : flags.group with
      | false => simp [IntegerBase.digitChar]
      | true =>
        simp only [List.map_cons, separate, if_true, true_and]
        split_ifs <;> simp [IntegerBase.digitChar]
    · obtain rfl : value = 0 := by omega
      simp [separate]

/-- The loop over the zeros. -/
theorem precisionLoop_eq (precision : ℤ) (buf : List (BitVec 8)) :
    precisionLoop precision buf =
      buf ++ List.replicate (min precision 63 - buf.length).toNat (chr '0') := by
  fun_induction precisionLoop precision buf with
  | case1 buf h ih =>
    rw [ih]
    rw [List.length_append, List.length_singleton, List.append_assoc, List.singleton_append,
      ← List.replicate_succ]
    congr 2
    omega
  | case2 buf h =>
    have hzero : (min precision 63 - (buf.length : ℤ)).toNat = 0 := by omega
    rw [hzero, List.replicate_zero, List.append_nil]

/-- The number of zeros that `format_integer` adds for the precision. -/
def zeroCnt (b : IntegerBase) (c : KprintfConversion) (value : ℕ) : ℕ :=
  (min (if c.precision < 0 then 1 else c.precision) 63 -
    ((digitText b c.flags value).length : ℤ)).toNat

/-- The zero in front of an octal number that does not begin with one. -/
def octalZero (b : IntegerBase) (c : KprintfConversion) (s : List (BitVec 8)) : List (BitVec 8) :=
  if c.flags.pound ∧ b.base = 8 ∧ (s = [] ∨ s.getLast? ≠ some (chr '0')) then [chr '0'] else []

/-- **The buffer of `format_integer`**: the digits, the last one first, and zeros behind them. -/
theorem integerBuf_eq (value : ℕ) (b : IntegerBase) (c : KprintfConversion) :
    integerBuf value b c =
      digitText b c.flags value ++ List.replicate (zeroCnt b c value) (chr '0') ++
        octalZero b c (digitText b c.flags value ++
          List.replicate (zeroCnt b c value) (chr '0')) := by
  have hbuf : precisionLoop (if c.precision < 0 then 1 else c.precision)
      (digitLoop b c.flags value 0 []) =
      digitText b c.flags value ++ List.replicate (zeroCnt b c value) (chr '0') := by
    rw [digitLoop_eq, List.nil_append, precisionLoop_eq]
    rfl
  rw [integerBuf]
  simp only [hbuf, octalZero]
  split_ifs <;> simp

theorem length_digitText_le {b : IntegerBase} (hb : IsBase b) (flags : ConvFlags) {value : ℕ}
    (hv : value < 2 ^ 64) : (digitText b flags value).length ≤ 44 := by
  have hdigits : (Nat.digits b.base value).length ≤ 22 := by
    rw [Nat.digits_length_le_iff b.one_lt_base]
    calc value < 2 ^ 64 := hv
      _ ≤ 8 ^ 22 := by norm_num
      _ ≤ b.base ^ 22 := Nat.pow_le_pow_left hb.base_le.1 22
  have hsep := length_separate_le b.group (chr ',') 0 ((Nat.digits b.base value).map b.digitChar)
  rw [List.length_map] at hsep
  simp only [digitText]
  split_ifs
  · omega
  · rw [List.length_map]
    omega

/-- **The buffer is large enough**, and has the digits that the precision asks for, up to 63. -/
theorem length_integerBuf_le {b : IntegerBase} (hb : IsBase b) (c : KprintfConversion) {value : ℕ}
    (hv : value < 2 ^ 64) :
    (integerBuf value b c).length ≤ 64 ∧ min c.precision 63 ≤ (integerBuf value b c).length := by
  have hdigits := length_digitText_le hb c.flags hv
  have hoct : ∀ s, (octalZero b c s).length ≤ 1 := by
    intro s
    rw [octalZero]
    split_ifs <;> simp
  have hocts := hoct (digitText b c.flags value ++
    List.replicate (zeroCnt b c value) (chr '0'))
  rw [integerBuf_eq, List.length_append, List.length_append, List.length_replicate, zeroCnt] at *
  split_ifs at * <;> omega

/-- The characters of the digits of a number have its value. -/
theorem ofDigits_digitText {b : IntegerBase} (hb : IsBase b) (flags : ConvFlags) (value : ℕ) :
    (digitText b flags value).filterMap digitValue = Nat.digits b.base value := by
  have hmap : ((Nat.digits b.base value).map b.digitChar).filterMap digitValue =
      Nat.digits b.base value := by
    rw [List.filterMap_map]
    conv_rhs => rw [← List.filterMap_some (l := Nat.digits b.base value)]
    exact List.filterMap_congr fun d hd =>
      hb.digitValue_digitChar (Nat.digits_lt_base b.one_lt_base hd)
  simp only [digitText]
  split_ifs
  · rw [filterMap_separate (by decide), hmap]
  · exact hmap

/-- The buffer, read from its end, is a numeral of the value. -/
theorem readNumeral_integerBuf {b : IntegerBase} (hb : IsBase b) (c : KprintfConversion)
    (value : ℕ) : readNumeral digitValue b.base (integerBuf value b c).reverse = value := by
  have hoct : ∀ s, (octalZero b c s).filterMap digitValue =
      List.replicate (octalZero b c s).length 0 := by
    intro s
    rw [octalZero]
    split_ifs
    · decide
    · rfl
  have hzeros : ∀ k, (List.replicate k (chr '0')).filterMap digitValue = List.replicate k 0 := by
    intro k
    rw [List.filterMap_replicate]
    simp [show digitValue (chr '0') = some 0 by decide]
  rw [readNumeral_reverse, integerBuf_eq, List.filterMap_append, List.filterMap_append, hoct,
    hzeros, ofDigits_digitText hb, Nat.ofDigits_append_replicate_zero,
    Nat.ofDigits_append_replicate_zero, Nat.ofDigits_digits]

/-! ### Padding -/

/-- An `int` that does not overflow. -/
theorem int32_eq {x : ℤ} (h : -2 ^ 31 ≤ x) (h' : x < 2 ^ 31) : int32 x = x := by
  rw [int32, Int.bmod_def]
  omega

/-- A count that is not negative. -/
theorem sizeT_eq {x : ℤ} (h : 0 ≤ x) (h' : x < 2 ^ 31) : sizeT x = x.toNat := by
  rw [sizeT, Int.emod_eq_of_lt h (by omega)]

/-- The sign and the letter of the base. -/
def integerPrefix (value : ℕ) (isSigned negative : Bool) (b : IntegerBase)
    (c : KprintfConversion) : List (BitVec 8) :=
  (if signChar isSigned negative c.flags ≠ 0 then [signChar isSigned negative c.flags] else []) ++
    if xChar value b c.flags ≠ 0 then [chr '0', xChar value b c.flags] else []

/-- The pad characters of an integer. -/
def integerPad (value : ℕ) (isSigned negative : Bool) (b : IntegerBase) (c : KprintfConversion) :
    ℕ :=
  (c.width - ((integerPrefix value isSigned negative b c).length +
    (integerBuf value b c).length : ℕ)).toNat

/-- **The text of `format_integer`**: prefix, padding and digits. -/
theorem formatInteger_eq {b : IntegerBase} (hb : IsBase b) {c : KprintfConversion} {value : ℕ}
    (hv : value < 2 ^ 64) (isSigned negative : Bool) (hw : 0 ≤ c.width) (hw' : c.width < 2 ^ 31) :
    formatInteger value isSigned negative b c =
      (if ¬c.flags.minus ∧ ¬c.flags.zero then
        List.replicate (integerPad value isSigned negative b c) (chr ' ') else []) ++
      integerPrefix value isSigned negative b c ++
      (if c.flags.zero then List.replicate (integerPad value isSigned negative b c) (chr '0')
        else []) ++
      (integerBuf value b c).reverse ++
      if c.flags.minus then List.replicate (integerPad value isSigned negative b c) (chr ' ')
        else [] := by
  have hbuf := (length_integerBuf_le hb c hv).1
  have hprefix : ((integerPrefix value isSigned negative b c).length : ℤ) =
      (if xChar value b c.flags ≠ 0 then 2 else 0) +
        if signChar isSigned negative c.flags ≠ 0 then 1 else 0 := by
    rw [integerPrefix]
    split_ifs <;> simp
  have hpad : ∀ n : ℤ, n = int32 (c.width - (integerBuf value b c).length -
        (if xChar value b c.flags ≠ 0 then 2 else 0) -
        if signChar isSigned negative c.flags ≠ 0 then 1 else 0) →
      sizeT (if n < 0 then 0 else n) = integerPad value isSigned negative b c := by
    rintro n rfl
    rw [integerPad]
    generalize (integerPrefix value isSigned negative b c).length = prefixLen at hprefix
    rw [int32_eq (by split_ifs <;> omega) (by split_ifs <;> omega)]
    split_ifs at * <;> rw [sizeT_eq (by omega) (by omega)] <;> omega
  rw [formatInteger]
  simp only [hpad _ rfl, outputDup, integerPrefix, List.append_assoc]

/-- Of the prefix nothing but a zero is a digit. -/
theorem digitValue_integerPrefix {b : IntegerBase} (hb : IsBase b) {c : KprintfConversion}
    {value : ℕ} {isSigned negative : Bool} :
    ∀ ch ∈ integerPrefix value isSigned negative b c,
      digitValue ch = none ∨ digitValue ch = some 0 := by
  intro ch hch
  rw [integerPrefix, List.mem_append] at hch
  rcases hch with hch | hch
  · split_ifs at hch with hsign
    · left
      rw [List.mem_singleton.mp hch, signChar]
      split_ifs <;> decide
    · simp at hch
  · split_ifs at hch with hx
    · rcases (by simpa using hch : ch = chr '0' ∨ ch = xChar value b c.flags) with rfl | rfl
      · exact Or.inr (by decide)
      · rw [xChar]
        split_ifs
        · exact Or.inl hb.digitValue_x
        · exact Or.inl (by decide)
    · simp at hch

/-- The characters of the buffer. -/
theorem mem_integerBuf {b : IntegerBase} (hb : IsBase b) {c : KprintfConversion} {value : ℕ}
    {ch : BitVec 8} (hch : ch ∈ integerBuf value b c) :
    ch = chr ',' ∨ (digitValue ch).isSome := by
  have hdigit : ∀ d ∈ (Nat.digits b.base value).map b.digitChar, (digitValue d).isSome := by
    intro d hd
    obtain ⟨n, hn, rfl⟩ := List.mem_map.mp hd
    rw [hb.digitValue_digitChar (Nat.digits_lt_base b.one_lt_base hn)]
    rfl
  rw [integerBuf_eq, List.mem_append, List.mem_append] at hch
  rcases hch with (hch | hch) | hch
  · simp only [digitText] at hch
    split_ifs at hch
    · rcases mem_separate hch with h | h
      · exact Or.inl h
      · exact Or.inr (hdigit ch h)
    · exact Or.inr (hdigit ch hch)
  · rw [(List.mem_replicate.mp hch).2]
    exact Or.inr (by decide)
  · rw [octalZero] at hch
    split_ifs at hch
    · rw [List.mem_singleton.mp hch]
      exact Or.inr (by decide)
    · simp at hch

/-- A minus sign is printed exactly for a signed conversion of a negative value. -/
theorem minus_mem_formatInteger {b : IntegerBase} (hb : IsBase b) {c : KprintfConversion}
    {value : ℕ} (hv : value < 2 ^ 64) {isSigned negative : Bool} (hw : 0 ≤ c.width)
    (hw' : c.width < 2 ^ 31) :
    chr '-' ∈ formatInteger value isSigned negative b c ↔ isSigned ∧ negative := by
  have hbuf : chr '-' ∉ (integerBuf value b c).reverse := by
    intro h
    rcases mem_integerBuf hb (List.mem_reverse.mp h) with h | h
    · exact absurd h (by decide)
    · exact absurd h (by decide)
  have hpad : ∀ n, ∀ ch ∈ [chr ' ', chr '0'], chr '-' ∉ List.replicate n ch := by
    intro n ch hch h
    rw [List.mem_replicate] at h
    obtain ⟨-, rfl⟩ := h
    simp [chr] at hch
  have hx : chr '-' ≠ xChar value b c.flags := by
    rw [xChar]
    rcases hb with rfl | rfl | rfl | rfl <;> split_ifs <;> decide
  have hprefix : chr '-' ∈ integerPrefix value isSigned negative b c ↔ isSigned ∧ negative := by
    rw [integerPrefix, List.mem_append]
    have hletter : chr '-' ∉
        (if xChar value b c.flags ≠ 0 then [chr '0', xChar value b c.flags] else []) := by
      split_ifs
      · simpa [show chr '-' ≠ chr '0' by decide] using hx
      · simp
    rw [or_iff_left hletter, signChar]
    cases isSigned <;> cases negative <;> cases c.flags.plus <;> cases c.flags.space <;> decide
  rw [formatInteger_eq hb hv isSigned negative hw hw']
  simp only [List.mem_append, hprefix, hbuf, or_false]
  constructor
  · rintro (((h | h) | h) | h)
    · split_ifs at h
      · exact absurd h (hpad _ _ (by simp))
      · simp at h
    · exact h
    · split_ifs at h
      · exact absurd h (hpad _ _ (by simp))
      · simp at h
    · split_ifs at h
      · exact absurd h (hpad _ _ (by simp))
      · simp at h
  · exact fun h => Or.inl (Or.inl (Or.inr h))

/-- **An integer reads back**: whoever skips what is no digit reads the value. -/
theorem readNumeral_formatInteger {b : IntegerBase} (hb : IsBase b) {c : KprintfConversion}
    {value : ℕ} (hv : value < 2 ^ 64) (isSigned negative : Bool) (hw : 0 ≤ c.width)
    (hw' : c.width < 2 ^ 31) :
    readNumeral digitValue b.base (formatInteger value isSigned negative b c) = value := by
  have hzero : ∀ n, ∀ ch ∈ [chr ' ', chr '0'], ∀ d ∈ List.replicate n ch,
      digitValue d = none ∨ digitValue d = some 0 := by
    intro n ch hch d hd
    rw [(List.mem_replicate.mp hd).2]
    rcases (by simpa using hch : ch = chr ' ' ∨ ch = chr '0') with rfl | rfl
    · exact Or.inl (by decide)
    · exact Or.inr (by decide)
  rw [formatInteger_eq hb hv isSigned negative hw hw', readNumeral_append_right, List.append_assoc,
    List.append_assoc, readNumeral_append_left, readNumeral_append_left, readNumeral_append_left,
    readNumeral_integerBuf hb]
  · intro ch hch
    split_ifs at hch
    · exact hzero _ _ (by simp) ch hch
    · simp at hch
  · exact digitValue_integerPrefix hb
  · intro ch hch
    split_ifs at hch
    · exact hzero _ _ (by simp) ch hch
    · simp at hch
  · intro ch hch
    split_ifs at hch
    · rw [(List.mem_replicate.mp hch).2]
      decide
    · simp at hch

/-- **The width of an integer** is the field width, or more if prefix and digits need it. -/
theorem length_formatInteger {b : IntegerBase} (hb : IsBase b) {c : KprintfConversion}
    {value : ℕ} (hv : value < 2 ^ 64) (isSigned negative : Bool) (hw : 0 ≤ c.width)
    (hw' : c.width < 2 ^ 31) (hflags : ¬(c.flags.minus ∧ c.flags.zero)) :
    (formatInteger value isSigned negative b c).length = max c.width.toNat
      ((integerPrefix value isSigned negative b c).length + (integerBuf value b c).length) := by
  rw [formatInteger_eq hb hv isSigned negative hw hw']
  simp only [List.length_append, List.length_reverse, integerPad]
  split_ifs <;> simp_all <;> omega

end AnglOS
