import AnglOS.StdioFormat

/-!
# Printing

What the users of the formatter rely on: that a format prints its pieces, that the formatter stays
inside the format, and that integers can be read back.

## Main results

* `vkprintf_renders` — the text of a format;
* `read_past_format_iff` — the formatter reads behind a string that breaks off inside a conversion,
  and behind no other string;
* `kprintf_integer_reads_back` — an integer that is printed with any flags, width and precision.
-/

namespace AnglOS

variable {m : Mem}

/-- **The text of a format**: the formatter ends and prints the pieces in order, each conversion
with its own argument. -/
theorem vkprintf_renders {bound fuel : ℕ} {ps : List Piece} {args rest : List (BitVec 64)}
    {out : List (BitVec 8)} (hps : ∀ p ∈ ps, p.WellFormed) (h : Renders m bound ps args out rest)
    (hbound : bound ≤ 2 ^ 31) (hfuel : bound + ps.length + 24 < fuel) :
    vkprintf m fuel (formatText ps ++ [0]) args = .ok out := by
  obtain ⟨n, rfl⟩ : ∃ n, fuel = n + 1 + ps.length := ⟨fuel - 1 - ps.length, by omega⟩
  have hend : vkprintf m (n + 1) [0] rest = .ok [] := rfl
  rw [vkprintf_pieces hps h hbound (by omega) (by omega), hend]
  simp [Except.map]

/-- The format of `"%+d: %s%%"`. -/
def signedFormat : List Piece :=
  [.conv { plainSpec with flags := [.plus] } (chr 'd'), .char (chr ':'), .char (chr ' '),
    .conv plainSpec (chr 's'), .percent]

theorem vkprintf_renders_null : vkprintf (fun _ => 0) 40 (chars "%+d: %s%%" ++ [0]) [7, 0] =
    .ok (numberText { plainSpec with flags := [.plus] }.conversion (chr 'd') 7 ++
      (chr ':' :: chr ' ' :: (stringText plainSpec.conversion (chars "(null)") ++ [chr '%']))) := by
  have hwf : ∀ p ∈ signedFormat, p.WellFormed := by
    intro p hp
    simp only [signedFormat, List.mem_cons, List.not_mem_nil, or_false] at hp
    rcases hp with rfl | rfl | rfl | rfl | rfl
    · exact ⟨by decide, ⟨by decide, by decide, by decide, fun _ => ⟨by decide, by decide⟩⟩,
        fun h => absurd h (by decide)⟩
    · exact ⟨by decide, by decide⟩
    · exact ⟨by decide, by decide⟩
    · exact ⟨by decide, ⟨by decide, by decide, by decide, fun _ => ⟨by decide, by decide⟩⟩,
        fun _ => by decide⟩
    · trivial
  have hsize : (0 : ℕ) ≤ 2 ^ 31 := by norm_num
  exact vkprintf_renders hwf
    (.number (by decide) (.char (.char (.null (.percent (.nil [])))))) hsize (by decide)

/-! ### Reading behind the format -/

/-- Every specification stops at the end of a string. -/
theorem ConvSpec.stops_zero (s : ConvSpec) : s.Stops 0 := by
  have hplain : s.StopsPlain 0 := by
    refine ⟨by decide, ?_⟩
    cases s.precision with
    | none => exact ⟨by decide, fun _ => by decide⟩
    | some ds => exact fun _ => by decide
  rw [ConvSpec.Stops]
  cases s.type with
  | int => exact ⟨by decide, hplain⟩
  | short => exact (by decide : (0 : BitVec 8) ≠ chr 'h')
  | long => exact (by decide : (0 : BitVec 8) ≠ chr 'l')
  | char => trivial
  | intmax => trivial
  | longlong => trivial
  | ptrdifft => trivial
  | sizet => trivial

/-- The pieces of the format of the nested call. -/
def noConversionPieces (cs : List (BitVec 8)) : List Piece :=
  (chars "<<no ").map Piece.char ++ [.percent, .conv plainSpec (chr 'c')] ++ cs.map Piece.char

theorem formatText_chars (cs : List (BitVec 8)) : formatText (cs.map Piece.char) = cs := by
  induction cs with
  | nil => rfl
  | cons c cs ih => rw [List.map_cons, formatText_cons, ih]; rfl

theorem noConversionPieces_wellFormed {cs : List (BitVec 8)} (h0 : 0 ∉ cs) (hcs : chr '%' ∉ cs) :
    (∀ p ∈ noConversionPieces cs, p.WellFormed) ∧
      formatText (noConversionPieces cs) = chars "<<no %%%c" ++ cs := by
  have hstops : plainSpec.Stops (chr 'c') :=
    ⟨by decide, by decide, by decide, fun _ => ⟨by decide, by decide⟩⟩
  have hchars : ∀ ds : List (BitVec 8), 0 ∉ ds → chr '%' ∉ ds →
      ∀ p ∈ ds.map Piece.char, p.WellFormed := by
    intro ds hd0 hds p hp
    obtain ⟨c, hc, rfl⟩ := List.mem_map.mp hp
    refine ⟨?_, ?_⟩
    · rintro rfl
      exact hd0 hc
    · rintro rfl
      exact hds hc
  refine ⟨fun p hp => ?_, ?_⟩
  · simp only [noConversionPieces, List.mem_append, List.mem_cons, List.not_mem_nil, or_false] at hp
    rcases hp with (hp | rfl | rfl) | hp
    · exact hchars _ (by decide) (by decide) p hp
    · trivial
    · exact ⟨by decide, hstops, fun _ => by decide⟩
    · exact hchars cs h0 hcs p hp
  · rw [noConversionPieces, formatText, List.flatMap_append, List.flatMap_append]
    exact congrArg₂ (· ++ ·) rfl (formatText_chars cs)

theorem bind_eq_error {α β : Type} {r : Except Fault α} {f : α → Except Fault β} {e : Fault}
    (h : r.bind f = .error e) : r = .error e ∨ ∃ a, r = .ok a ∧ f a = .error e := by
  cases r with
  | error e' => exact Or.inl (congrArg Except.error (Except.error.inj h))
  | ok a => exact Or.inr ⟨a, rfl, h⟩

/-- What goes wrong in a conversion that is parsed is not a read behind the format, unless it goes
wrong in the nested call. -/
theorem doConversion_ne_pastFormat {fuel : ℕ}
    {kprintf : List (BitVec 8) → List (BitVec 64) → Except Fault (List (BitVec 8))}
    (hnested : ∀ cs args, 0 ∉ cs → chr '%' ∉ cs →
      kprintf (chars "<<no %%%c" ++ (cs ++ [0])) args ≠ .error .pastFormat)
    (c : KprintfConversion) (letter : BitVec 8) (args : List (BitVec 64)) :
    doConversion m fuel kprintf c letter args ≠ .error .pastFormat := by
  by_cases hl : takesNumber letter
  · cases args with
    | nil => simp [doConversion_noArgument (Or.inl hl)]
    | cons a args => simp [doConversion_number hl]
  · by_cases hs : letter = chr 's'
    · subst hs
      cases args with
      | nil => simp [doConversion_noArgument (Or.inr rfl)]
      | cons a args =>
        rw [doConversion_string, formatPointer]
        simp only
        split <;> simp [Except.map]
    · simp only [takesNumber, decide_eq_true_eq, not_or] at hl
      obtain ⟨hd, hi, ho, hu, hx, hX, hc, hp⟩ := hl
      rw [doConversion, if_neg (by simp [hd, hi]), if_neg (by simp [ho, hu, hx, hX]), if_neg hc,
        if_neg hs, if_neg hp]
      have hkernel := hnested (chars " in kernel>>") [letter.signExtend 64] (by decide) (by decide)
      have hconversion := hnested (chars " conversion>>") [letter.signExtend 64] (by decide)
        (by decide)
      split_ifs
      · intro h
        rcases bind_eq_error h with h | ⟨out, -, h⟩
        · exact hkernel h
        · cases h
      · intro h
        rcases bind_eq_error h with h | ⟨out, -, h⟩
        · exact hconversion h
        · cases h

/-- What goes wrong behind some pieces, or never, goes wrong with them in front. -/
theorem pieces_ne_pastFormat {t : List (BitVec 8)}
    (ht : ∀ fuel args, vkprintf m fuel t args ≠ .error .pastFormat) (fuel : ℕ) {ps : List Piece}
    (hps : ∀ p ∈ ps, p.WellFormed) (args : List (BitVec 64)) :
    vkprintf m fuel (formatText ps ++ t) args ≠ .error .pastFormat := by
  induction fuel using Nat.strong_induction_on generalizing t ps args with
  | _ fuel ih =>
    cases fuel with
    | zero => simp [vkprintf]
    | succ fuel =>
      have hmap : ∀ (text rest : List (BitVec 8)) (args : List (BitVec 64)),
          vkprintf m fuel rest args ≠ .error .pastFormat →
          (vkprintf m fuel rest args).map (text ++ ·) ≠ .error .pastFormat := by
        intro text rest args h h'
        cases hr : vkprintf m fuel rest args with
        | error e =>
          rw [hr] at h h'
          exact h h'
        | ok out =>
          rw [hr] at h'
          cases h'
      cases ps with
      | nil => exact ht (fuel + 1) args
      | cons p ps =>
        have hwf : ∀ p ∈ ps, p.WellFormed := fun p hp => hps p (by simp [hp])
        have hrest := fun args => ih fuel (Nat.lt_succ_self fuel) ht hwf args
        have hp := hps p (by simp)
        rw [formatText_cons, List.append_assoc]
        cases p with
        | char c =>
          rw [Piece.text, List.singleton_append, vkprintf_char hp.1 hp.2]
          exact hmap [c] _ args (hrest args)
        | percent =>
          rw [Piece.text, List.cons_append, List.cons_append, List.nil_append, vkprintf_percent]
          exact hmap [chr '%'] _ args (hrest args)
        | conv s letter =>
          rw [Piece.text, List.cons_append, List.append_assoc, List.singleton_append,
            vkprintf_conv hp.2.1 hp.2.2]
          intro h
          rcases bind_eq_error h with h | ⟨r, -, h⟩
          · refine doConversion_ne_pastFormat (fun cs args h0 hcs => ?_) _ _ _ h
            obtain ⟨hwf, htext⟩ := noConversionPieces_wellFormed h0 hcs
            rw [← List.append_assoc, ← htext]
            refine ih fuel (Nat.lt_succ_self fuel) (t := [0]) (fun fuel args => ?_) hwf args
            cases fuel <;> simp [vkprintf]
          · exact hmap r.1 _ r.2 (hrest r.2) h

/-- A star is no read behind the format. -/
theorem star_ne_pastFormat {g : List (BitVec 8)} (hg : HasStar g) (fuel : ℕ)
    (args : List (BitVec 64)) :
    vkprintf m fuel (chr '%' :: (g ++ [0])) args ≠ .error .pastFormat := by
  have hparse : parseConversion (g ++ [0]) = .error .vaList := by
    cases hg with
    | width fs t =>
      have hflags := parseFlags_append (x := chr '*') (t := t ++ [0]) (by decide) fs {}
      rw [List.append_assoc, List.cons_append, parseConversion, hflags]
      rfl
    | precision fs width t hdigits hhead =>
      obtain ⟨w, t', ht', hw⟩ := exists_head_width (x := chr '.') (t := chr '*' :: (t ++ [0]))
        hdigits hhead fun _ => by decide
      have hflags := parseFlags_append (t := t') hw fs {}
      have hwidth := parseWidth_text (x := chr '.') (t := chr '*' :: (t ++ [0])) (by decide)
        hdigits fun _ => by decide
      have hprecision : parsePrecision (chr '.' :: chr '*' :: (t ++ [0])) = .error .vaList := rfl
      rw [List.append_assoc, List.append_assoc, List.cons_append, List.cons_append,
        parseConversion, ht', hflags, ← ht']
      simp only [bind, Except.bind, hwidth, hprecision]
  obtain ⟨d, rest, hd, hne⟩ : ∃ d rest, g ++ [0] = d :: rest ∧ d ≠ chr '%' := by
    have hflag : ∀ f : FlagChar, f.char ≠ chr '%' := fun f => by cases f <;> decide
    cases hg with
    | width fs t =>
      cases fs with
      | nil => exact ⟨chr '*', _, rfl, by decide⟩
      | cons f fs => exact ⟨f.char, _, rfl, hflag f⟩
    | precision fs width t hdigits hhead =>
      cases fs with
      | nil =>
        cases width with
        | nil => exact ⟨chr '.', _, rfl, by decide⟩
        | cons c width =>
          refine ⟨c, _, rfl, ?_⟩
          rintro rfl
          exact absurd (hdigits _ List.mem_cons_self) (by decide)
      | cons f fs => exact ⟨f.char, _, rfl, hflag f⟩
  cases fuel with
  | zero => simp [vkprintf]
  | succ fuel =>
    have h0 : chr '%' ≠ 0 := by decide
    rw [hd] at hparse ⊢
    rw [vkprintf.eq_def]
    simp only [if_neg h0, ne_eq, not_true_eq_false, if_false, if_neg hne, hparse]
    simp [bind, Except.bind]

/-- Zeros are enough arguments for any pieces. -/
theorem exists_renders_zero (ps : List Piece) :
    ∃ n out, Renders m 0 ps (List.replicate n 0) out [] := by
  induction ps with
  | nil => exact ⟨0, [], .nil []⟩
  | cons p ps ih =>
    obtain ⟨n, out, h⟩ := ih
    cases p with
    | char c => exact ⟨n, _, h.char⟩
    | percent => exact ⟨n, _, h.percent⟩
    | conv s letter =>
      by_cases hl : takesNumber letter
      · exact ⟨n + 1, _, h.number hl⟩
      · by_cases hs : letter = chr 's'
        · subst hs
          exact ⟨n + 1, _, h.null⟩
        · exact ⟨n, _, h.none hl hs⟩

/-- **The formatter reads behind a string**, whatever the memory holds, exactly if the string breaks
off inside a conversion. -/
theorem read_past_format_iff {f : List (BitVec 8)} (hf : 0 ∉ f) :
    (∃ fuel args, vkprintf m fuel (f ++ [0]) args = .error .pastFormat) ↔
      ∃ (ps : List Piece) (s : ConvSpec), (∀ p ∈ ps, p.WellFormed) ∧
        f = formatText ps ++ chr '%' :: s.text := by
  constructor
  · rintro ⟨fuel, args, h⟩
    obtain ⟨ps, hps, rfl | ⟨s, rfl⟩ | ⟨g, hg, rfl⟩⟩ := exists_pieces hf
    · refine absurd h (pieces_ne_pastFormat (fun fuel args => ?_) fuel hps args)
      cases fuel <;> simp [vkprintf]
    · exact ⟨ps, s, hps, rfl⟩
    · rw [List.append_assoc, List.cons_append] at h
      exact absurd h (pieces_ne_pastFormat (star_ne_pastFormat hg) fuel hps args)
  · rintro ⟨ps, s, hps, rfl⟩
    obtain ⟨n, out, hout⟩ := exists_renders_zero (m := m) ps
    have hbreak : vkprintf m (25 + 1) (chr '%' :: (s.text ++ [0])) [] = .error .pastFormat := by
      rw [vkprintf_conv s.stops_zero fun _ => by decide,
        doConversion_none (by decide) (by decide) (by decide)]
      rfl
    refine ⟨25 + 1 + ps.length, List.replicate n 0, ?_⟩
    rw [List.append_assoc, List.cons_append, vkprintf_pieces hps hout (by norm_num) (by norm_num)
      (by norm_num), hbreak]
    rfl

theorem read_past_percent :
    ∃ fuel args, vkprintf (fun _ => 0) fuel (chars "100%" ++ [0]) args = .error .pastFormat := by
  refine (read_past_format_iff (by decide)).mpr
    ⟨[.char (chr '1'), .char (chr '0'), .char (chr '0')], plainSpec, fun p hp => ?_, rfl⟩
  fin_cases hp <;> exact ⟨by decide, by decide⟩

/-! ### Integers -/

/-- The bits of a type. -/
def ConvType.bits : ConvType → ℕ
  | .char => 8
  | .short => 16
  | .int => 32
  | _ => 64

/-- The integer that a conversion prints: the low bits of its argument, as its letter takes them. -/
def integerArgument (type : ConvType) (letter : BitVec 8) (a : BitVec 64) : ℤ :=
  if letter = chr 'd' ∨ letter = chr 'i' then (a.setWidth type.bits).toInt
  else (a.setWidth type.bits).toNat

/-- The base of the integer conversions. -/
def letterBase (letter : BitVec 8) : ℕ :=
  if letter = chr 'o' then 8 else if letter = chr 'x' ∨ letter = chr 'X' then 16 else 10

theorem signedArgument_eq (type : ConvType) (a : BitVec 64) :
    signedArgument type a = (a.setWidth type.bits).toInt := by
  cases type with
  | sizet =>
    have hsame : a - BitVec.ofNat 64 (2 ^ 64 - 1) - 1 = a := by bv_omega
    simp only [signedArgument, ConvType.bits, hsame, ite_self, BitVec.setWidth_eq]
  | char => rfl
  | short => rfl
  | int => rfl
  | intmax => simp [signedArgument, ConvType.bits]
  | long => simp [signedArgument, ConvType.bits]
  | longlong => simp [signedArgument, ConvType.bits]
  | ptrdifft => simp [signedArgument, ConvType.bits]

theorem unsignedArgument_eq (type : ConvType) (a : BitVec 64) :
    unsignedArgument type a = (a.setWidth type.bits).toNat := by
  cases type with
  | ptrdifft =>
    have hmask : BitVec.ofNat 64 (2 ^ 63 - 1) <<< 1 ||| 1 = BitVec.allOnes 64 := by decide
    rw [unsignedArgument, hmask, BitVec.and_allOnes]
    simp [ConvType.bits]
  | char => rfl
  | short => rfl
  | int => rfl
  | intmax => simp [unsignedArgument, ConvType.bits]
  | long => simp [unsignedArgument, ConvType.bits]
  | longlong => simp [unsignedArgument, ConvType.bits]
  | sizet => simp [unsignedArgument, ConvType.bits]

/-- The letters that print integers. -/
def integerLetters : List (BitVec 8) :=
  ['d', 'i', 'o', 'u', 'x', 'X'].map chr

/-- Every specification stops at them. -/
theorem ConvSpec.stops_integer (s : ConvSpec) {letter : BitVec 8} (hl : letter ∈ integerLetters) :
    s.Stops letter := by
  have hletter : ¬isTypeChar letter ∧ ¬isdigit letter ∧ letter ≠ chr '*' ∧ letter ≠ chr '.' ∧
      flagOf letter = none ∧ letter ≠ chr 'h' ∧ letter ≠ chr 'l' := by
    simp only [integerLetters, List.map_cons, List.map_nil, List.mem_cons, List.not_mem_nil,
      or_false] at hl
    rcases hl with rfl | rfl | rfl | rfl | rfl | rfl <;> decide
  obtain ⟨htype, hdigit, hstar, hdot, hflag, hh, hl⟩ := hletter
  have hplain : s.StopsPlain letter := by
    refine ⟨hdigit, ?_⟩
    cases s.precision with
    | none => exact ⟨hdot, fun _ => ⟨hstar, hflag⟩⟩
    | some ds => exact fun _ => hstar
  rw [ConvSpec.Stops]
  cases s.type with
  | int => exact ⟨htype, hplain⟩
  | short => exact hh
  | long => exact hl
  | char => trivial
  | intmax => trivial
  | longlong => trivial
  | ptrdifft => trivial
  | sizet => trivial

/-- What the code of the integer conversions does. -/
theorem numberText_integer {letter : BitVec 8} (hl : letter ∈ integerLetters) :
    ∃ b, IsBase b ∧ b.base = letterBase letter ∧ ∀ c a, numberText c letter a =
      formatInteger (integerArgument c.type letter a).natAbs (letter = chr 'd' ∨ letter = chr 'i')
        (integerArgument c.type letter a < 0) b c := by
  have hunsigned : ∀ n : ℕ, decide ((n : ℤ) < 0) = false := fun n => by simp
  simp only [integerLetters, List.map_cons, List.map_nil, List.mem_cons, List.not_mem_nil,
    or_false] at hl
  rcases hl with rfl | rfl | rfl | rfl | rfl | rfl
  · refine ⟨baseD, Or.inl rfl, by decide, fun c a => ?_⟩
    rw [numberText, if_pos (Or.inl rfl), integerArgument, if_pos (Or.inl rfl), signedArgument_eq]
    rfl
  · refine ⟨baseD, Or.inl rfl, by decide, fun c a => ?_⟩
    rw [numberText, if_pos (Or.inr rfl), integerArgument, if_pos (Or.inr rfl), signedArgument_eq]
    rfl
  · refine ⟨baseO, Or.inr (Or.inl rfl), by decide, fun c a => ?_⟩
    rw [numberText, if_neg (by decide), if_pos rfl, integerArgument, if_neg (by decide),
      hunsigned, Int.natAbs_natCast, unsignedArgument_eq]
    rfl
  · refine ⟨baseD, Or.inl rfl, by decide, fun c a => ?_⟩
    rw [numberText, if_neg (by decide), if_neg (by decide), if_pos rfl, integerArgument,
      if_neg (by decide), hunsigned, Int.natAbs_natCast, unsignedArgument_eq]
    rfl
  · refine ⟨baseX, Or.inr (Or.inr (Or.inl rfl)), by decide, fun c a => ?_⟩
    rw [numberText, if_neg (by decide), if_neg (by decide), if_neg (by decide), if_pos rfl,
      integerArgument, if_neg (by decide), hunsigned, Int.natAbs_natCast, unsignedArgument_eq]
    rfl
  · refine ⟨baseXUpper, Or.inr (Or.inr (Or.inr rfl)), by decide, fun c a => ?_⟩
    rw [numberText, if_neg (by decide), if_neg (by decide), if_neg (by decide), if_neg (by decide),
      if_pos rfl, integerArgument, if_neg (by decide), hunsigned, Int.natAbs_natCast,
      unsignedArgument_eq]
    rfl

/-- An integer of any type has an absolute value of 64 bits. -/
theorem natAbs_integerArgument_lt (type : ConvType) (letter : BitVec 8) (a : BitVec 64) :
    (integerArgument type letter a).natAbs < 2 ^ 64 := by
  have hbits : 0 < type.bits ∧ type.bits ≤ 64 := by cases type <;> decide
  have hpow : 2 ^ type.bits ≤ 2 ^ 64 := Nat.pow_le_pow_right (by norm_num) hbits.2
  rw [integerArgument]
  split_ifs
  · have hlo := BitVec.le_toInt (a.setWidth type.bits)
    have hhi := BitVec.toInt_lt (x := a.setWidth type.bits)
    have hhalf : (2 : ℤ) ^ (type.bits - 1) ≤ 2 ^ 63 :=
      pow_le_pow_right₀ (by norm_num) (by omega)
    omega
  · rw [Int.natAbs_natCast]
    exact Nat.lt_of_lt_of_le (a.setWidth type.bits).isLt hpow

/-- A single conversion. -/
theorem vkprintf_single {s : ConvSpec} {letter : BitVec 8} (hl : letter ∈ integerLetters)
    (a : BitVec 64) {fuel : ℕ} (hfuel : 1 < fuel) :
    vkprintf m fuel (chr '%' :: (s.text ++ [letter, 0])) [a] =
      .ok (numberText s.conversion letter a) := by
  obtain ⟨n, rfl⟩ : ∃ n, fuel = n + 1 + 1 := ⟨fuel - 2, by omega⟩
  have hnumber : takesNumber letter ∧ letter ≠ chr '%' := by
    simp only [integerLetters, List.map_cons, List.map_nil, List.mem_cons, List.not_mem_nil,
      or_false] at hl
    rcases hl with rfl | rfl | rfl | rfl | rfl | rfl <;> decide
  have hend : vkprintf m (n + 1) [0] [] = .ok [] := rfl
  rw [vkprintf_conv (s.stops_integer hl) fun _ => hnumber.2, doConversion_number hnumber.1]
  simp only [Except.bind, hend, Except.map, List.append_nil]

/-- A width that fits an `int` is used as it is, and padding is on one side. -/
theorem ConvSpec.conversion_of_width {s : ConvSpec} (hw : decimalValue s.width < 2 ^ 31) :
    s.conversion.width = decimalValue s.width ∧
      ¬(s.conversion.flags.minus ∧ s.conversion.flags.zero) := by
  have hvalue : s.widthValue = decimalValue s.width := int32_eq (by omega) (by omega)
  have hnonneg : ¬s.widthValue < 0 := by omega
  refine ⟨?_, ?_⟩
  · rw [← hvalue, ConvSpec.conversion, absWidth, if_neg hnonneg]
  · rw [ConvSpec.conversion, ConvFlags.forWidth, if_neg hnonneg, ConvFlags.forPrecision,
      ConvFlags.resolve]
    generalize s.flags.foldl FlagChar.set {} = flags
    obtain ⟨minus, plus, space, pound, zero, group⟩ := flags
    cases minus <;> cases plus <;> split_ifs <;> simp_all

/-- A specification without its width. -/
def ConvSpec.bare (s : ConvSpec) : ConvSpec :=
  { s with width := [], width_digits := isdigit_of_mem_nil, width_head := head?_nil_ne }

theorem ConvSpec.bare_conversion {s : ConvSpec} (hw : decimalValue s.width < 2 ^ 31) :
    s.bare.conversion.width = 0 ∧ s.bare.conversion.flags = s.conversion.flags := by
  have hzero : s.bare.widthValue = 0 :=
    int32_eq (x := ((0 : ℕ) : ℤ)) (by norm_num) (by norm_num)
  have hnonneg : ¬s.widthValue < 0 := by
    rw [ConvSpec.widthValue, int32_eq (by omega) (by omega)]
    omega
  have hflags : ∀ (flags : ConvFlags) (width : ℤ), ¬width < 0 → flags.forWidth width = flags :=
    fun flags width h => if_neg h
  refine ⟨?_, ?_⟩
  · rw [ConvSpec.conversion, hzero]
    rfl
  · rw [ConvSpec.conversion, ConvSpec.conversion, hzero, hflags _ _ hnonneg,
      hflags _ _ (by norm_num)]
    rfl

/-- **Integers read back.** For every specification whose width fits an `int`, and every argument,
an integer conversion prints a text in which the digits make the integer, a minus sign stands
exactly if it is negative, and that is as long as the width, or as without a width if that is
longer. -/
theorem kprintf_integer_reads_back {s : ConvSpec} (hw : decimalValue s.width < 2 ^ 31)
    {letter : BitVec 8} (hl : letter ∈ integerLetters) (a : BitVec 64) {fuel : ℕ}
    (hfuel : 1 < fuel) :
    ∃ out bare, vkprintf m fuel (chr '%' :: (s.text ++ [letter, 0])) [a] = .ok out ∧
      vkprintf m fuel (chr '%' :: (s.bare.text ++ [letter, 0])) [a] = .ok bare ∧
      readNumeral digitValue (letterBase letter) out = (integerArgument s.type letter a).natAbs ∧
      (chr '-' ∈ out ↔ integerArgument s.type letter a < 0) ∧
      out.length = max (decimalValue s.width) bare.length := by
  have hlt := natAbs_integerArgument_lt s.type letter a
  obtain ⟨hwidth, hflags⟩ := s.conversion_of_width hw
  obtain ⟨hwidth', hflags'⟩ := ConvSpec.bare_conversion hw
  obtain ⟨b, hb, hbase, hcode⟩ := numberText_integer hl
  have htext := hcode s.conversion a
  have hbaretext := hcode s.bare.conversion a
  rw [show s.conversion.type = s.type from rfl] at htext
  rw [show s.bare.conversion.type = s.type from rfl] at hbaretext
  refine ⟨_, _, vkprintf_single hl a hfuel, vkprintf_single hl a hfuel, ?_, ?_, ?_⟩
  · rw [htext, ← hbase]
    exact readNumeral_formatInteger hb hlt _ _ (by omega) (by omega)
  · rw [htext, minus_mem_formatInteger hb hlt (by omega) (by omega)]
    simp only [decide_eq_true_eq]
    refine ⟨fun h => h.2, fun h => ⟨?_, h⟩⟩
    by_contra hletter
    rw [integerArgument, if_neg hletter] at h
    omega
  · have hprefix : ∀ isSigned negative,
        integerPrefix (integerArgument s.type letter a).natAbs isSigned negative b
          s.bare.conversion =
        integerPrefix (integerArgument s.type letter a).natAbs isSigned negative b
          s.conversion := by
      intro isSigned negative
      rw [integerPrefix, integerPrefix, hflags']
    have hbuf : integerBuf (integerArgument s.type letter a).natAbs b s.bare.conversion =
        integerBuf (integerArgument s.type letter a).natAbs b s.conversion := by
      rw [integerBuf, integerBuf, hflags']
      rfl
    rw [htext, hbaretext, length_formatInteger hb hlt _ _ (by omega) (by omega) hflags,
      length_formatInteger hb hlt _ _ (by omega) (by omega) (hflags' ▸ hflags), hwidth, hwidth',
      hprefix, hbuf, Int.toNat_natCast, Int.toNat_zero, Nat.zero_max]

/-- The specification of `%08l`. -/
def paddedSpec : ConvSpec :=
  ⟨[.zero], [chr '8'], none, .long, by decide, by decide, isdigit_of_mem_none⟩

theorem kprintf_integer_reads_back_padded :
    ∃ out bare, vkprintf (fun _ => 0) 2 (chars "%08lx" ++ [0]) [48879] = .ok out ∧
      vkprintf (fun _ => 0) 2 (chars "%0lx" ++ [0]) [48879] = .ok bare ∧
      readNumeral digitValue 16 out = 48879 ∧ (chr '-' ∈ out ↔ (48879 : ℤ) < 0) ∧
      out.length = max 8 bare.length := by
  have hvalue : decimalValue paddedSpec.width = 8 := by decide
  have hletter : chr 'x' ∈ integerLetters := by decide
  have h := kprintf_integer_reads_back (m := fun _ => 0) (s := paddedSpec) (by omega) hletter
    48879 (by decide : 1 < 2)
  rwa [hvalue] at h

end AnglOS
