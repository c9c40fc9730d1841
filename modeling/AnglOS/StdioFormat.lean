import AnglOS.StdioInteger
import Mathlib.Data.List.TakeWhile

/-!
# Format Strings

The language of format strings, and what the formatter makes of it. A format is a sequence of
pieces: characters, `%%`, and conversions. A conversion is the characters of its specification and
a letter at which the specification stops.

* `ConvSpec`, `Piece` — conversions and pieces, with the characters that they consist of;
* `Piece.text`, `render` — the characters of a format, and the characters that it prints.

## Main results

* `parseConversion_text` — `parse_conversion` reads a specification back;
* `vkprintf_pieces` — the formatter prints the pieces in order;
* `exists_pieces` — every string is a sequence of pieces, or breaks off inside a conversion, or
  takes a width or a precision from the arguments.
-/

namespace AnglOS

/-! ### Specifications -/

/-- The flag characters. -/
inductive FlagChar
  | minus
  | plus
  | space
  | pound
  | zero
  | group
  deriving DecidableEq, Repr

/-- The character of a flag. -/
def FlagChar.char : FlagChar → BitVec 8
  | .minus => chr '-'
  | .plus => chr '+'
  | .space => chr ' '
  | .pound => chr '#'
  | .zero => chr '0'
  | .group => 39

/-- A flag is set. -/
def FlagChar.set (flags : ConvFlags) : FlagChar → ConvFlags
  | .minus => { flags with minus := true }
  | .plus => { flags with plus := true }
  | .space => { flags with space := true }
  | .pound => { flags with pound := true }
  | .zero => { flags with zero := true }
  | .group => { flags with group := true }

/-- The flag of a character. -/
def flagOf (c : BitVec 8) : Option FlagChar :=
  if c = chr '-' then some .minus
  else if c = chr '+' then some .plus
  else if c = chr ' ' then some .space
  else if c = chr '#' then some .pound
  else if c = chr '0' then some .zero
  else if c = 39 then some .group
  else none

theorem char_of_flagOf {c : BitVec 8} {f : FlagChar} (h : flagOf c = some f) : f.char = c := by
  simp only [flagOf] at h
  split_ifs at h <;> simp_all [FlagChar.char]
  all_goals
    subst h
    rfl

/-- The characters of a type. -/
def ConvType.text : ConvType → List (BitVec 8)
  | .char => chars "hh"
  | .short => chars "h"
  | .int => []
  | .intmax => chars "j"
  | .long => chars "l"
  | .longlong => chars "ll"
  | .ptrdifft => chars "t"
  | .sizet => chars "z"

/-- What stands between the percent sign and the letter of a conversion. -/
structure ConvSpec where
  flags : List FlagChar
  width : List (BitVec 8)
  precision : Option (List (BitVec 8))
  type : ConvType
  width_digits : ∀ c ∈ width, isdigit c
  width_head : width.head? ≠ some (chr '0')
  precision_digits : ∀ ds ∈ precision, ∀ c ∈ ds, isdigit c

/-- The characters of a precision. -/
def precisionText : Option (List (BitVec 8)) → List (BitVec 8)
  | none => []
  | some ds => chr '.' :: ds

/-- The characters of a specification. -/
def ConvSpec.text (s : ConvSpec) : List (BitVec 8) :=
  s.flags.map FlagChar.char ++ (s.width ++ (precisionText s.precision ++ s.type.text))

/-- The value of decimal digits. -/
def decimalValue (ds : List (BitVec 8)) : ℕ :=
  readNumeral digitValue 10 ds

/-- The value of a width. -/
def ConvSpec.widthValue (s : ConvSpec) : ℤ :=
  int32 (decimalValue s.width)

/-- The value of a precision. -/
def precisionValue : Option (List (BitVec 8)) → ℤ
  | none => -1
  | some ds => if int32 (decimalValue ds) < 0 then -1 else int32 (decimalValue ds)

/-- What a specification means. -/
def ConvSpec.conversion (s : ConvSpec) : KprintfConversion where
  flags := (((s.flags.foldl FlagChar.set {}).resolve.forWidth s.widthValue).forPrecision
    (precisionValue s.precision))
  width := absWidth s.widthValue
  precision := precisionValue s.precision
  type := s.type

/-- The characters that a type begins with. -/
def isTypeChar (c : BitVec 8) : Bool :=
  c = chr 'h' ∨ c = chr 'j' ∨ c = chr 'l' ∨ c = chr 't' ∨ c = chr 'z'

/-- A specification without a type stops at a character that cannot continue it. -/
def ConvSpec.StopsPlain (s : ConvSpec) (x : BitVec 8) : Prop :=
  ¬isdigit x ∧ match s.precision with
    | some ds => ds = [] → x ≠ chr '*'
    | none => x ≠ chr '.' ∧ (s.width = [] → x ≠ chr '*' ∧ flagOf x = none)

/-- A specification stops at a character that cannot continue it. -/
def ConvSpec.Stops (s : ConvSpec) (x : BitVec 8) : Prop :=
  match s.type with
  | .int => ¬isTypeChar x ∧ s.StopsPlain x
  | .short => x ≠ chr 'h'
  | .long => x ≠ chr 'l'
  | _ => True

/-! ### Parsing a specification -/

section

variable {x : BitVec 8} {t : List (BitVec 8)}

/-- The loop over the flags stops at the first character that is none. -/
theorem parseFlags_append (hx : flagOf x = none) (fs : List FlagChar) (flags : ConvFlags) :
    parseFlags (fs.map FlagChar.char ++ x :: t) flags =
      .ok (fs.foldl FlagChar.set flags, x :: t) := by
  induction fs generalizing flags with
  | nil =>
    simp only [flagOf] at hx
    split_ifs at hx
    simp only [List.map_nil, List.nil_append, List.foldl_nil, parseFlags]
    simp_all
  | cons f fs ih =>
    rw [List.foldl_cons, ← ih]
    cases f <;> rfl

/-- A digit has its value. -/
theorem digitValue_of_isdigit {c : BitVec 8} (hc : isdigit c) :
    digitValue c = some (c.toNat - 48) ∧ c.toInt = c.toNat ∧ 48 ≤ c.toNat := by
  simp only [isdigit, decide_eq_true_eq] at hc
  refine ⟨by rw [digitValue, if_pos hc], ?_, hc.1⟩
  rw [BitVec.toInt_eq_toNat_cond, if_pos (by omega)]

/-- A step of the loop over the digits. -/
theorem int32_step (v d : ℕ) : int32 (int32 v * 10 + (d : ℤ)) = int32 ((v * 10 + d : ℕ) : ℤ) := by
  simp only [int32]
  push_cast
  rw [← Int.bmod_add_bmod, Int.bmod_mul_bmod, Int.bmod_add_bmod]

/-- The loop over the digits stops at the first character that is none. -/
theorem parseDigits_append (hx : ¬isdigit x) {ds : List (BitVec 8)} (hds : ∀ c ∈ ds, isdigit c)
    (v : ℕ) :
    parseDigits (ds ++ x :: t) (int32 v) =
      .ok (int32 ((ds.filterMap digitValue).foldl (fun n d => n * 10 + d) v : ℕ), x :: t) := by
  induction ds generalizing v with
  | nil => simp [parseDigits, hx]
  | cons c ds ih =>
    obtain ⟨hval, hint, hle⟩ := digitValue_of_isdigit (hds c (by simp))
    have hstep : int32 (int32 v * 10 + c.toInt - 48) =
        int32 ((v * 10 + (c.toNat - 48) : ℕ) : ℤ) := by
      have hsub : int32 v * 10 + c.toInt - 48 = int32 v * 10 + ((c.toNat - 48 : ℕ) : ℤ) := by
        rw [hint, Nat.cast_sub hle]
        ring
      rw [hsub, int32_step]
    rw [List.cons_append, parseDigits, if_pos (hds c (by simp)), hstep,
      ih (fun c hc => hds c (by simp [hc]))]
    simp [hval]

theorem parseDigits_text (hx : ¬isdigit x) {ds : List (BitVec 8)} (hds : ∀ c ∈ ds, isdigit c) :
    parseDigits (ds ++ x :: t) 0 = .ok (int32 (decimalValue ds), x :: t) := by
  have h := parseDigits_append (t := t) hx hds 0
  rwa [show int32 ((0 : ℕ) : ℤ) = 0 from int32_eq (by norm_num) (by norm_num)] at h

/-- The first character of digits is not a star. -/
theorem ne_star_of_isdigit {c : BitVec 8} (hc : isdigit c) : c ≠ chr '*' := by
  rintro rfl
  exact absurd hc (by decide)

theorem parseWidth_text (hx : ¬isdigit x) {ds : List (BitVec 8)} (hds : ∀ c ∈ ds, isdigit c)
    (hstar : ds = [] → x ≠ chr '*') :
    parseWidth (ds ++ x :: t) = .ok (int32 (decimalValue ds), x :: t) := by
  cases ds with
  | nil =>
    rw [List.nil_append, parseWidth, if_neg (hstar rfl)]
    exact parseDigits_text hx hds
  | cons c ds =>
    rw [List.cons_append, parseWidth, if_neg (ne_star_of_isdigit (hds c (by simp)))]
    exact parseDigits_text hx hds

theorem parsePrecision_text {precision : Option (List (BitVec 8))}
    (hds : ∀ ds ∈ precision, ∀ c ∈ ds, isdigit c)
    (hnone : precision = none → x ≠ chr '.')
    (hsome : ∀ ds ∈ precision, ¬isdigit x ∧ (ds = [] → x ≠ chr '*')) :
    parsePrecision (precisionText precision ++ x :: t) =
      .ok (precisionValue precision, x :: t) := by
  cases precision with
  | none =>
    rw [precisionText, List.nil_append, parsePrecision.eq_def]
    simp only [if_neg (hnone rfl), precisionValue]
  | some ds =>
    obtain ⟨hx, hstar⟩ := hsome ds rfl
    have hparse := parseDigits_text (t := t) hx (hds ds rfl)
    rw [precisionText, List.cons_append, parsePrecision.eq_def]
    simp only [if_true]
    cases ds with
    | nil =>
      simp only [List.nil_append] at hparse ⊢
      simp only [if_neg (hstar rfl), hparse, bind, Except.bind, precisionValue]
    | cons c ds =>
      simp only [List.cons_append] at hparse ⊢
      simp only [if_neg (ne_star_of_isdigit (hds _ rfl c (by simp))), hparse, bind, Except.bind,
        precisionValue]

theorem parseType_text {type : ConvType} (hint : type = .int → ¬isTypeChar x)
    (hshort : type = .short → x ≠ chr 'h') (hlong : type = .long → x ≠ chr 'l') :
    parseType (type.text ++ x :: t) = .ok (type, x :: t) := by
  cases type with
  | int =>
    have hx := hint rfl
    simp only [isTypeChar, decide_eq_true_eq, not_or] at hx
    obtain ⟨hh, hj, hl, ht, hz⟩ := hx
    rw [ConvType.text, List.nil_append, parseType.eq_def]
    simp only [if_neg hh, if_neg hj, if_neg hl, if_neg ht, if_neg hz]
  | short =>
    have htext : ConvType.short.text = [chr 'h'] := rfl
    rw [htext, List.singleton_append, parseType.eq_def]
    simp only [if_true, if_neg (hshort rfl)]
  | long =>
    have htext : ConvType.long.text = [chr 'l'] := rfl
    rw [htext, List.singleton_append, parseType.eq_def]
    simp only [if_true, if_neg (hlong rfl), if_neg (by decide : chr 'l' ≠ chr 'h'),
      if_neg (by decide : chr 'l' ≠ chr 'j')]
  | char => rfl
  | intmax => rfl
  | longlong => rfl
  | ptrdifft => rfl
  | sizet => rfl

/-- A digit that is not zero is no flag. -/
theorem flagOf_of_isdigit {c : BitVec 8} (hc : isdigit c) (h0 : c ≠ chr '0') : flagOf c = none := by
  simp only [isdigit, decide_eq_true_eq] at hc
  rw [flagOf]
  have hne : ∀ d : BitVec 8, d.toNat < 48 → c ≠ d := by
    rintro d hd rfl
    omega
  rw [if_neg (hne _ (by decide)), if_neg (hne _ (by decide)), if_neg (hne _ (by decide)),
    if_neg (hne _ (by decide)), if_neg h0, if_neg (hne _ (by decide))]

/-- Every specification stops at the letters that types begin with. -/
theorem ConvSpec.stopsPlain_of_letter (s : ConvSpec) {c : BitVec 8} (hc : isTypeChar c) :
    s.StopsPlain c := by
  have hletter : ¬isdigit c ∧ c ≠ chr '*' ∧ c ≠ chr '.' ∧ flagOf c = none := by
    simp only [isTypeChar, decide_eq_true_eq] at hc
    rcases hc with rfl | rfl | rfl | rfl | rfl <;> decide
  obtain ⟨hdigit, hstar, hdot, hflag⟩ := hletter
  rw [ConvSpec.StopsPlain]
  refine ⟨hdigit, ?_⟩
  cases s.precision with
  | none => exact ⟨hdot, fun _ => ⟨hstar, hflag⟩⟩
  | some ds => exact fun _ => hstar

/-- The character behind the precision. -/
theorem ConvSpec.Stops.exists_head {s : ConvSpec} (hx : s.Stops x) :
    ∃ y t', s.type.text ++ x :: t = y :: t' ∧ s.StopsPlain y := by
  rw [ConvSpec.Stops] at hx
  cases htype : s.type with
  | int =>
    rw [htype] at hx
    exact ⟨x, t, rfl, hx.2⟩
  | short => exact ⟨_, _, rfl, s.stopsPlain_of_letter (by decide)⟩
  | long => exact ⟨_, _, rfl, s.stopsPlain_of_letter (by decide)⟩
  | char => exact ⟨_, _, rfl, s.stopsPlain_of_letter (by decide)⟩
  | intmax => exact ⟨_, _, rfl, s.stopsPlain_of_letter (by decide)⟩
  | longlong => exact ⟨_, _, rfl, s.stopsPlain_of_letter (by decide)⟩
  | ptrdifft => exact ⟨_, _, rfl, s.stopsPlain_of_letter (by decide)⟩
  | sizet => exact ⟨_, _, rfl, s.stopsPlain_of_letter (by decide)⟩

/-- The character behind the width. -/
theorem ConvSpec.StopsPlain.exists_head {s : ConvSpec} {y : BitVec 8} (hy : s.StopsPlain y) :
    ∃ z t', precisionText s.precision ++ y :: t = z :: t' ∧ ¬isdigit z ∧
      (s.width = [] → z ≠ chr '*' ∧ flagOf z = none) := by
  obtain ⟨hdigit, hrest⟩ := hy
  cases hp : s.precision with
  | none =>
    rw [hp] at hrest
    exact ⟨y, t, rfl, hdigit, hrest.2⟩
  | some ds => exact ⟨chr '.', _, rfl, by decide, fun _ => by decide⟩

/-- The character behind the flags. -/
theorem exists_head_width {width : List (BitVec 8)} (hdigits : ∀ c ∈ width, isdigit c)
    (hhead : width.head? ≠ some (chr '0')) (hx : width = [] → flagOf x = none) :
    ∃ w t', width ++ x :: t = w :: t' ∧ flagOf w = none := by
  cases width with
  | nil => exact ⟨x, t, rfl, hx rfl⟩
  | cons c ds =>
    refine ⟨c, _, rfl, flagOf_of_isdigit (hdigits c (by simp)) ?_⟩
    rintro rfl
    exact hhead rfl

/-- The parts of `parse_conversion`. -/
theorem parseConversion_eq {format f₁ f₂ f₃ f₄ : List (BitVec 8)} {flags : ConvFlags}
    {width precision : ℤ} {type : ConvType} (h₁ : parseFlags format {} = .ok (flags, f₁))
    (h₂ : parseWidth f₁ = .ok (width, f₂)) (h₃ : parsePrecision f₂ = .ok (precision, f₃))
    (h₄ : parseType f₃ = .ok (type, f₄)) :
    parseConversion format = .ok (⟨(flags.resolve.forWidth width).forPrecision precision,
      absWidth width, precision, type⟩, f₄) := by
  unfold parseConversion
  rw [h₁]
  simp only [bind, Except.bind, h₂, h₃, h₄]

/-- **`parse_conversion` reads a specification back** and stops at the character behind it. -/
theorem parseConversion_text {s : ConvSpec} (hx : s.Stops x) :
    parseConversion (s.text ++ x :: t) = .ok (s.conversion, x :: t) := by
  obtain ⟨y, t₁, ht₁, hy⟩ := hx.exists_head (t := t)
  obtain ⟨z, t₂, ht₂, hzdigit, hz⟩ := hy.exists_head (t := t₁)
  obtain ⟨w, t₃, ht₃, hw⟩ := exists_head_width (t := t₂) s.width_digits s.width_head
    fun h => (hz h).2
  have hflags : parseFlags (s.text ++ x :: t) {} =
      .ok (s.flags.foldl FlagChar.set {}, s.width ++ z :: t₂) := by
    rw [ConvSpec.text, List.append_assoc, List.append_assoc, List.append_assoc, ht₁, ht₂, ht₃]
    exact parseFlags_append hw s.flags {}
  have hwidth : parseWidth (s.width ++ z :: t₂) = .ok (s.widthValue, z :: t₂) :=
    parseWidth_text hzdigit s.width_digits fun h => (hz h).1
  have hprecision : parsePrecision (z :: t₂) = .ok (precisionValue s.precision, y :: t₁) := by
    rw [← ht₂]
    refine parsePrecision_text s.precision_digits (fun hp => ?_) fun ds hp => ?_
    · have hrest := hy.2
      rw [hp] at hrest
      exact hrest.1
    · have hrest := hy.2
      rw [Option.mem_def.mp hp] at hrest
      exact ⟨hy.1, hrest⟩
  have htype : parseType (y :: t₁) = .ok (s.type, x :: t) := by
    rw [← ht₁]
    refine parseType_text (fun h => ?_) (fun h => ?_) fun h => ?_
    all_goals
      rw [ConvSpec.Stops, h] at hx
    · exact hx.1
    · exact hx
    · exact hx
  exact parseConversion_eq hflags hwidth hprecision htype

end

/-! ### Pieces -/

/-- A piece of a format. -/
inductive Piece
  | char (c : BitVec 8)
  | percent
  | conv (s : ConvSpec) (letter : BitVec 8)

/-- The characters of a piece. -/
def Piece.text : Piece → List (BitVec 8)
  | .char c => [c]
  | .percent => [chr '%', chr '%']
  | .conv s letter => chr '%' :: (s.text ++ [letter])

/-- The piece is read as it is meant: a conversion stops at its letter, which does not make a
percent sign with the one before it. -/
def Piece.WellFormed : Piece → Prop
  | .char c => c ≠ 0 ∧ c ≠ chr '%'
  | .percent => True
  | .conv s letter => letter ≠ 0 ∧ s.Stops letter ∧ (s.text = [] → letter ≠ chr '%')

/-- The characters of a format. -/
def formatText (ps : List Piece) : List (BitVec 8) :=
  ps.flatMap Piece.text

/-- The letters that take a number, a character or a pointer from the arguments. -/
def takesNumber (letter : BitVec 8) : Bool :=
  letter = chr 'd' ∨ letter = chr 'i' ∨ letter = chr 'o' ∨ letter = chr 'u' ∨ letter = chr 'x' ∨
    letter = chr 'X' ∨ letter = chr 'c' ∨ letter = chr 'p'

/-- What is printed for a number, a character or a pointer. -/
def numberText (c : KprintfConversion) (letter : BitVec 8) (a : BitVec 64) : List (BitVec 8) :=
  if letter = chr 'd' ∨ letter = chr 'i' then
    formatInteger (signedArgument c.type a).natAbs true (signedArgument c.type a < 0) baseD c
  else if letter = chr 'o' then formatInteger (unsignedArgument c.type a) false false baseO c
  else if letter = chr 'u' then formatInteger (unsignedArgument c.type a) false false baseD c
  else if letter = chr 'x' then formatInteger (unsignedArgument c.type a) false false baseX c
  else if letter = chr 'X' then formatInteger (unsignedArgument c.type a) false false baseXUpper c
  else if letter = chr 'c' then formatString (constMem [a.setWidth 8]) 0 1 c
  else formatInteger a.toNat false false baseX { c with flags := { pound := true } }

/-- What is printed for a string: as much of it as the precision allows, padded to the width. -/
def stringText (c : KprintfConversion) (s : List (BitVec 8)) : List (BitVec 8) :=
  let t := if c.precision < 0 then s else s.take c.precision.toNat
  let pad := List.replicate (c.width - t.length).toNat (chr ' ')
  if c.flags.minus then t ++ pad else pad ++ t

/-- What is printed for a letter that the kernel does not have. -/
def noConversionText (letter : BitVec 8) : List (BitVec 8) :=
  chars "<<no %" ++ [letter] ++
    if letter = chr 'f' ∨ letter = chr 'e' ∨ letter = chr 'E' ∨ letter = chr 'g' ∨
        letter = chr 'G' ∨ letter = chr 'n' then chars " in kernel>>"
    else chars " conversion>>"

/-- **What a format prints**: the pieces, the arguments, the characters, and the arguments that
are left. Strings are shorter than `bound`. -/
inductive Renders (m : Mem) (bound : ℕ) :
    List Piece → List (BitVec 64) → List (BitVec 8) → List (BitVec 64) → Prop
  | nil (args : List (BitVec 64)) : Renders m bound [] args [] args
  | char {c : BitVec 8} {ps : List Piece} {args rest : List (BitVec 64)} {out : List (BitVec 8)} :
      Renders m bound ps args out rest → Renders m bound (.char c :: ps) args (c :: out) rest
  | percent {ps : List Piece} {args rest : List (BitVec 64)} {out : List (BitVec 8)} :
      Renders m bound ps args out rest → Renders m bound (.percent :: ps) args (chr '%' :: out) rest
  | number {s : ConvSpec} {letter : BitVec 8} {a : BitVec 64} {ps : List Piece}
      {args rest : List (BitVec 64)} {out : List (BitVec 8)} (hl : takesNumber letter) :
      Renders m bound ps args out rest →
      Renders m bound (.conv s letter :: ps) (a :: args)
        (numberText s.conversion letter a ++ out) rest
  | string {s : ConvSpec} {a : BitVec 64} {str : List (BitVec 8)} {ps : List Piece}
      {args rest : List (BitVec 64)} {out : List (BitVec 8)} (ha : a ≠ 0)
      (hstr : CString m a.toNat str) (hlen : str.length < bound) :
      Renders m bound ps args out rest →
      Renders m bound (.conv s (chr 's') :: ps) (a :: args) (stringText s.conversion str ++ out)
        rest
  | null {s : ConvSpec} {ps : List Piece} {args rest : List (BitVec 64)} {out : List (BitVec 8)} :
      Renders m bound ps args out rest →
      Renders m bound (.conv s (chr 's') :: ps) (0 :: args)
        (stringText s.conversion (chars "(null)") ++ out) rest
  | none {s : ConvSpec} {letter : BitVec 8} {ps : List Piece} {args rest : List (BitVec 64)}
      {out : List (BitVec 8)} (hl : ¬takesNumber letter) (hs : letter ≠ chr 's') :
      Renders m bound ps args out rest →
      Renders m bound (.conv s letter :: ps) args (noConversionText letter ++ out) rest

/-! ### Strings -/

section

variable {m : Mem} {p : ℕ} {s : List (BitVec 8)}

/-- `strnlen` counts the characters of a string up to its limit. -/
theorem strnlen_eq (hs : CString m p s) {fuel : ℕ} (hfuel : s.length < fuel) (maxlen : ℕ) :
    strnlen fuel m p maxlen = some (min s.length maxlen) := by
  have hloop : ∀ (s : List (BitVec 8)) (n fuel : ℕ), CString m (p + n) s → s.length < fuel →
      strnlenLoop m p maxlen fuel n =
        some (if n < maxlen then min (n + s.length) maxlen else n) := by
    intro s
    induction s with
    | nil =>
      intro n fuel hs hfuel
      obtain ⟨fuel, rfl⟩ := Nat.exists_eq_succ_of_ne_zero (Nat.ne_of_gt hfuel)
      have hend : m (p + n) = 0 := hs
      rw [strnlenLoop, if_neg (by simp [hend])]
      split_ifs with hn
      · simp [Nat.min_eq_left hn.le]
      · rfl
    | cons c s ih =>
      intro n fuel hs hfuel
      obtain ⟨fuel, rfl⟩ := Nat.exists_eq_succ_of_ne_zero (Nat.ne_of_gt (Nat.zero_lt_of_lt hfuel))
      obtain ⟨hc, hc0, hs⟩ := hs
      rw [strnlenLoop]
      by_cases hn : n < maxlen
      · rw [if_pos ⟨by rwa [hc], hn⟩, ih (n + 1) fuel hs (by simpa using hfuel)]
        simp only [List.length_cons, if_pos hn]
        split_ifs <;> congr 1 <;> omega
      · rw [if_neg (fun h => hn h.2), if_neg hn]
  rw [strnlen, hloop s 0 fuel hs hfuel]
  split_ifs <;> congr 1 <;> omega

/-- The characters of a string in memory. -/
theorem CString.map_range (hs : CString m p s) {n : ℕ} (hn : n ≤ s.length) :
    (List.range n).map (fun i => m (p + i)) = s.take n := by
  induction s generalizing p n with
  | nil =>
    obtain rfl : n = 0 := by simpa using hn
    rfl
  | cons c s ih =>
    cases n with
    | zero => rfl
    | succ n =>
      rw [List.range_succ_eq_map, List.map_cons, List.map_map, List.take_succ_cons,
        ← ih hs.2.2 (by simpa using hn), Nat.add_zero, hs.1]
      congr 1
      refine List.map_congr_left fun i _ => ?_
      simp [Nat.add_assoc, Nat.add_comm 1 i]

/-- An `int` is in its range. -/
theorem int32_range (x : ℤ) : -2 ^ 31 ≤ int32 x ∧ int32 x < 2 ^ 31 := by
  rw [int32, Int.bmod_def]
  omega

theorem absWidth_range {width : ℤ} (h : -2 ^ 31 ≤ width ∧ width < 2 ^ 31) :
    -2 ^ 31 ≤ absWidth width ∧ absWidth width < 2 ^ 31 := by
  rw [absWidth]
  split_ifs
  · exact int32_range _
  · exact h

theorem precisionValue_range (precision : Option (List (BitVec 8))) :
    -1 ≤ precisionValue precision ∧ precisionValue precision < 2 ^ 31 := by
  cases precision with
  | none => norm_num [precisionValue]
  | some ds =>
    have hrange := int32_range (decimalValue ds)
    rw [precisionValue]
    generalize int32 (decimalValue ds) = n at *
    split_ifs <;> omega

/-- The width and the precision of a specification are in the range of `int`. -/
theorem ConvSpec.conversion_range (s : ConvSpec) :
    (-2 ^ 31 ≤ s.conversion.width ∧ s.conversion.width < 2 ^ 31) ∧
      -1 ≤ s.conversion.precision ∧ s.conversion.precision < 2 ^ 31 :=
  ⟨absWidth_range (int32_range _), precisionValue_range s.precision⟩

/-- `format_string` pads what it copies. -/
theorem formatString_eq (m : Mem) (p n : ℕ) {c : KprintfConversion}
    (hw : -2 ^ 31 ≤ c.width ∧ c.width < 2 ^ 31) :
    formatString m p n c =
      if c.flags.minus then (List.range n).map (fun i => m (p + i)) ++
        List.replicate (c.width - n).toNat (chr ' ')
      else List.replicate (c.width - n).toNat (chr ' ') ++
        (List.range n).map fun i => m (p + i) := by
  have hpad : (n : ℤ) < c.width → sizeT (int32 (c.width - n)) = (c.width - n).toNat := by
    intro h
    rw [int32_eq (by omega) (by omega), sizeT_eq (by omega) (by omega)]
  rw [formatString, Int.toNat_natCast]
  by_cases hlt : (n : ℤ) < c.width
  · simp only [hlt, hpad hlt, outputDup, true_and]
    cases c.flags.minus <;> simp
  · have hzero : (c.width - (n : ℤ)).toNat = 0 := by omega
    simp only [hlt, hzero, false_and, if_false]
    cases c.flags.minus <;> simp

/-- A string, cut off at its precision and padded. -/
theorem formatString_cstring (hs : CString m p s) {fuel : ℕ} (hfuel : s.length < fuel)
    (hlen : s.length < 2 ^ 31) {c : KprintfConversion}
    (hw : -2 ^ 31 ≤ c.width ∧ c.width < 2 ^ 31)
    (hprec : -1 ≤ c.precision ∧ c.precision < 2 ^ 31) :
    ∃ n, strnlen fuel m p (sizeT c.precision) = some n ∧
      formatString m p (int32 n) c = stringText c s := by
  have hmin : min s.length (sizeT c.precision) =
      (if c.precision < 0 then s else s.take c.precision.toNat).length := by
    rcases lt_or_ge c.precision 0 with h | h
    · obtain h : c.precision = -1 := by omega
      have hmax : sizeT (-1) = 2 ^ 64 - 1 := by decide
      rw [h, hmax, if_pos (by norm_num)]
      omega
    · rw [if_neg (by omega), List.length_take, sizeT_eq h hprec.2]
      omega
  have htext : s.take (min s.length (sizeT c.precision)) =
      if c.precision < 0 then s else s.take c.precision.toNat := by
    rw [hmin]
    split_ifs
    · exact List.take_length
    · rw [List.length_take, List.take_eq_take_iff]
      omega
  have hlength := int32_eq (x := (min s.length (sizeT c.precision) : ℕ)) (by omega) (by omega)
  refine ⟨_, strnlen_eq hs hfuel _, ?_⟩
  rw [hlength, formatString_eq m p _ hw, hs.map_range (min_le_left _ _), htext, hmin, stringText]

/-- **`%s`** prints a string. -/
theorem formatPointer_eq (hs : CString m p s) (hp : p ≠ 0) {fuel : ℕ} (hfuel : s.length < fuel)
    (hlen : s.length < 2 ^ 31) {c : KprintfConversion}
    (hw : -2 ^ 31 ≤ c.width ∧ c.width < 2 ^ 31)
    (hprec : -1 ≤ c.precision ∧ c.precision < 2 ^ 31) :
    formatPointer m fuel c p = .ok (stringText c s) := by
  obtain ⟨n, hn, htext⟩ := formatString_cstring hs hfuel hlen hw hprec
  rw [formatPointer]
  simp only [if_neg hp, hn, htext]

/-- A string constant. -/
theorem cstring_constMem {t : List (BitVec 8)} (ht : 0 ∉ t) : CString (constMem t) 0 t := by
  have hpart : ∀ v u, u ++ v = t → CString (constMem t) u.length v := by
    intro v
    induction v with
    | nil =>
      rintro u rfl
      simp [CString, constMem]
    | cons c v ih =>
      rintro u rfl
      refine ⟨by simp [constMem], ?_, ?_⟩
      · rintro rfl
        exact ht (by simp)
      · simpa using ih (u ++ [c]) (by simp)
  exact hpart t [] rfl

/-- `%s` prints a null pointer. -/
theorem formatPointer_null (m : Mem) {fuel : ℕ} (hfuel : 6 < fuel) {c : KprintfConversion}
    (hw : -2 ^ 31 ≤ c.width ∧ c.width < 2 ^ 31)
    (hprec : -1 ≤ c.precision ∧ c.precision < 2 ^ 31) :
    formatPointer m fuel c 0 = .ok (stringText c (chars "(null)")) := by
  have hlength : (chars "(null)").length = 6 := by decide
  obtain ⟨n, hn, htext⟩ := formatString_cstring (cstring_constMem (t := chars "(null)") (by decide))
    (hlength ▸ hfuel) (by omega) hw hprec
  rw [formatPointer]
  simp only [if_true, hn, htext]

end

/-! ### The formatter -/

section

variable {m : Mem} {bound fuel : ℕ}

/-- **A number, a character or a pointer.** -/
theorem doConversion_number {letter : BitVec 8} (hl : takesNumber letter) (fuel : ℕ)
    (kprintf : List (BitVec 8) → List (BitVec 64) → Except Fault (List (BitVec 8)))
    (c : KprintfConversion) (a : BitVec 64) (args : List (BitVec 64)) :
    doConversion m fuel kprintf c letter (a :: args) = .ok (numberText c letter a, args) := by
  simp only [takesNumber, decide_eq_true_eq] at hl
  rcases hl with rfl | rfl | rfl | rfl | rfl | rfl | rfl | rfl <;> rfl

/-- Without an argument there is no number. -/
theorem doConversion_noArgument {letter : BitVec 8} (hl : takesNumber letter ∨ letter = chr 's')
    (fuel : ℕ) (kprintf : List (BitVec 8) → List (BitVec 64) → Except Fault (List (BitVec 8)))
    (c : KprintfConversion) :
    doConversion m fuel kprintf c letter [] = .error .noArgument := by
  simp only [takesNumber, decide_eq_true_eq] at hl
  rcases hl with (rfl | rfl | rfl | rfl | rfl | rfl | rfl | rfl) | rfl <;> rfl

/-- A string is printed as its pointer says. -/
theorem doConversion_string (fuel : ℕ)
    (kprintf : List (BitVec 8) → List (BitVec 64) → Except Fault (List (BitVec 8)))
    (c : KprintfConversion) (a : BitVec 64) (args : List (BitVec 64)) :
    doConversion m fuel kprintf c (chr 's') (a :: args) =
      (formatPointer m fuel c a.toNat).map fun out => (out, args) :=
  rfl

/-- A character is printed. -/
theorem vkprintf_char {c : BitVec 8} (h0 : c ≠ 0) (hc : c ≠ chr '%') (t : List (BitVec 8))
    (args : List (BitVec 64)) :
    vkprintf m (fuel + 1) (c :: t) args = (vkprintf m fuel t args).map (c :: ·) := by
  rw [vkprintf.eq_def]
  simp only [if_neg h0, if_pos hc]
  cases vkprintf m fuel t args <;> rfl

/-- Two percent signs print one. -/
theorem vkprintf_percent (t : List (BitVec 8)) (args : List (BitVec 64)) :
    vkprintf m (fuel + 1) (chr '%' :: chr '%' :: t) args =
      (vkprintf m fuel t args).map (chr '%' :: ·) := by
  have h0 : chr '%' ≠ 0 := by decide
  rw [vkprintf.eq_def]
  simp only [if_neg h0, ne_eq, not_true_eq_false, if_false, if_true]
  cases vkprintf m fuel t args <;> rfl

/-- There is no percent sign in a specification. -/
theorem ConvSpec.percent_not_mem (s : ConvSpec) : chr '%' ∉ s.text := by
  have hdigit : ¬isdigit (chr '%') := by decide
  have hprecision : chr '%' ∉ precisionText s.precision := by
    cases hp : s.precision with
    | none => simp [precisionText]
    | some ds =>
      rw [precisionText, List.mem_cons, not_or]
      exact ⟨by decide, fun h => hdigit (s.precision_digits ds hp _ h)⟩
  rw [ConvSpec.text]
  simp only [List.mem_append, not_or]
  refine ⟨fun h => ?_, fun h => hdigit (s.width_digits _ h), hprecision, ?_⟩
  · obtain ⟨f, -, hf⟩ := List.mem_map.mp h
    cases f <;> exact absurd hf (by decide)
  · cases s.type <;> decide

/-- A conversion is parsed and done. -/
theorem vkprintf_conv {s : ConvSpec} {letter : BitVec 8} (hl : s.Stops letter)
    (hpercent : s.text = [] → letter ≠ chr '%') (t : List (BitVec 8)) (args : List (BitVec 64)) :
    vkprintf m (fuel + 1) (chr '%' :: (s.text ++ letter :: t)) args =
      (doConversion m fuel (vkprintf m fuel) s.conversion letter args).bind fun r =>
        (vkprintf m fuel t r.2).map (r.1 ++ ·) := by
  have hparse := parseConversion_text (t := t) hl
  obtain ⟨d, rest, hd, hne⟩ : ∃ d rest, s.text ++ letter :: t = d :: rest ∧ d ≠ chr '%' := by
    cases htext : s.text with
    | nil => exact ⟨letter, t, rfl, hpercent htext⟩
    | cons d rest =>
      refine ⟨d, _, rfl, ?_⟩
      rintro rfl
      exact s.percent_not_mem (by simp [htext])
  have h0 : chr '%' ≠ 0 := by decide
  rw [hd] at hparse ⊢
  rw [vkprintf.eq_def]
  simp only [if_neg h0, ne_eq, not_true_eq_false, if_false, if_neg hne, hparse, bind, Except.bind]
  cases doConversion m fuel (vkprintf m fuel) s.conversion letter args with
  | error e => rfl
  | ok r =>
    obtain ⟨text, args⟩ := r
    simp only
    cases vkprintf m fuel t args <;> rfl

/-- Characters that are no percent signs are printed. -/
theorem vkprintf_chars {cs : List (BitVec 8)} (h0 : 0 ∉ cs) (hcs : chr '%' ∉ cs)
    (t : List (BitVec 8)) (args : List (BitVec 64)) :
    vkprintf m (fuel + cs.length) (cs ++ t) args = (vkprintf m fuel t args).map (cs ++ ·) := by
  induction cs with
  | nil =>
    rw [List.length_nil, Nat.add_zero, List.nil_append]
    cases vkprintf m fuel t args <;> rfl
  | cons c cs ih =>
    simp only [List.mem_cons, not_or] at h0 hcs
    rw [List.length_cons, ← Nat.add_assoc, List.cons_append, vkprintf_char (Ne.symm h0.1)
      (Ne.symm hcs.1), ih h0.2 hcs.2]
    cases vkprintf m fuel t args <;> rfl

theorem isdigit_of_mem_nil : ∀ c ∈ ([] : List (BitVec 8)), isdigit c := by simp

theorem head?_nil_ne : ([] : List (BitVec 8)).head? ≠ some (chr '0') := by simp

theorem isdigit_of_mem_none :
    ∀ ds ∈ (none : Option (List (BitVec 8))), ∀ c ∈ ds, isdigit c := by simp

/-- The specification without anything. -/
def plainSpec : ConvSpec where
  flags := []
  width := []
  precision := none
  type := .int
  width_digits := isdigit_of_mem_nil
  width_head := head?_nil_ne
  precision_digits := isdigit_of_mem_none

/-- **The nested call** for a letter that the kernel does not have. -/
theorem vkprintf_noConversion (letter : BitVec 8) {cs : List (BitVec 8)} (h0 : 0 ∉ cs)
    (hcs : chr '%' ∉ cs) (hfuel : 8 + cs.length < fuel) :
    vkprintf m fuel (chars "<<no %%%c" ++ (cs ++ [0])) [letter.signExtend 64] =
      .ok (chars "<<no %" ++ ([letter] ++ cs)) := by
  obtain ⟨n, rfl⟩ : ∃ n, fuel = n + 1 + cs.length + 1 + 1 + (chars "<<no ").length :=
    ⟨fuel - 8 - cs.length, by
      rw [show (chars "<<no ").length = 5 by decide]
      omega⟩
  have hformat : chars "<<no %%%c" ++ (cs ++ [0]) = chars "<<no " ++ (chr '%' :: chr '%' ::
      chr '%' :: (plainSpec.text ++ chr 'c' :: (cs ++ [0]))) := rfl
  have hend : vkprintf m (n + 1) [0] [] = .ok [] := rfl
  have hstops : plainSpec.Stops (chr 'c') :=
    ⟨by decide, by decide, by decide, fun _ => ⟨by decide, by decide⟩⟩
  have hletter : numberText plainSpec.conversion (chr 'c') (letter.signExtend 64) = [letter] := by
    have hwidth : plainSpec.conversion.width = 0 := by
      have hzero : int32 0 = 0 := int32_eq (by norm_num) (by norm_num)
      exact (congrArg absWidth hzero).trans rfl
    have hlow : (letter.signExtend 64).setWidth 8 = letter := by
      ext i hi
      rw [BitVec.getElem_setWidth, BitVec.getLsbD_signExtend]
      simp [hi, show i < 64 by omega]
    have htext : numberText plainSpec.conversion (chr 'c') (letter.signExtend 64) =
        formatString (constMem [(letter.signExtend 64).setWidth 8]) 0 (1 : ℕ)
          plainSpec.conversion := rfl
    rw [htext, formatString_eq _ _ _ plainSpec.conversion_range.1, hwidth, hlow]
    split_ifs <;> simp [constMem]
  rw [hformat, vkprintf_chars (by decide) (by decide), vkprintf_percent,
    vkprintf_conv hstops (fun _ => by decide), doConversion_number (by decide)]
  simp only [Except.bind, vkprintf_chars h0 hcs, hend, Except.map, hletter]
  simp [chars]

/-- A letter that the kernel does not have. -/
theorem doConversion_none {letter : BitVec 8} (hl : ¬takesNumber letter) (hs : letter ≠ chr 's')
    (hfuel : 24 < fuel) (c : KprintfConversion) (args : List (BitVec 64)) :
    doConversion m fuel (vkprintf m fuel) c letter args = .ok (noConversionText letter, args) := by
  simp only [takesNumber, decide_eq_true_eq, not_or] at hl
  obtain ⟨hd, hi, ho, hu, hx, hX, hc, hp⟩ := hl
  have hformat : ∀ cs, 0 ∉ cs → chr '%' ∉ cs → cs.length < 15 →
      vkprintf m fuel (chars "<<no %%%c" ++ (cs ++ [0])) [letter.signExtend 64] =
        .ok (chars "<<no %" ++ ([letter] ++ cs)) := fun cs h0 hcs hlen =>
    vkprintf_noConversion letter h0 hcs (by omega)
  have hkernel := hformat (chars " in kernel>>") (by decide) (by decide) (by decide)
  have hconversion := hformat (chars " conversion>>") (by decide) (by decide) (by decide)
  rw [doConversion, if_neg (by simp [hd, hi]), if_neg (by simp [ho, hu, hx, hX]), if_neg hc,
    if_neg hs, if_neg hp, noConversionText]
  split_ifs
  · have htext : chars "<<no %%%c in kernel>>" ++ [0] =
        chars "<<no %%%c" ++ (chars " in kernel>>" ++ [0]) := rfl
    rw [htext, hkernel, List.append_assoc]
    rfl
  · have htext : chars "<<no %%%c conversion>>" ++ [0] =
        chars "<<no %%%c" ++ (chars " conversion>>" ++ [0]) := rfl
    rw [htext, hconversion, List.append_assoc]
    rfl

theorem formatText_cons (p : Piece) (ps : List Piece) :
    formatText (p :: ps) = p.text ++ formatText ps :=
  List.flatMap_cons

/-- A conversion piece that is done. -/
theorem vkprintf_piece {s : ConvSpec} {letter : BitVec 8} {ps : List Piece}
    {args args' : List (BitVec 64)} {text : List (BitVec 8)}
    (hp : (Piece.conv s letter).WellFormed)
    (h : doConversion m fuel (vkprintf m fuel) s.conversion letter args = .ok (text, args'))
    (t : List (BitVec 8)) :
    vkprintf m (fuel + 1) (formatText (.conv s letter :: ps) ++ t) args =
      (vkprintf m fuel (formatText ps ++ t) args').map (text ++ ·) := by
  rw [formatText_cons, Piece.text, List.cons_append, List.cons_append, List.append_assoc,
    List.append_assoc, List.singleton_append, vkprintf_conv hp.2.1 hp.2.2, h]
  rfl

theorem map_append_append (r : Except Fault (List (BitVec 8))) (text out : List (BitVec 8)) :
    (r.map (out ++ ·)).map (text ++ ·) = r.map (text ++ out ++ ·) := by
  cases r with
  | error e => rfl
  | ok r => simp [Except.map]

/-- **A format prints its pieces**: the formatter goes over them and comes to what is behind. -/
theorem vkprintf_pieces {ps : List Piece} {args rest : List (BitVec 64)} {out : List (BitVec 8)}
    (hps : ∀ p ∈ ps, p.WellFormed) (h : Renders m bound ps args out rest)
    (hbound : bound ≤ 2 ^ 31) (hfuel : bound ≤ fuel) (hfuel' : 24 < fuel) (t : List (BitVec 8)) :
    vkprintf m (fuel + ps.length) (formatText ps ++ t) args =
      (vkprintf m fuel t rest).map (out ++ ·) := by
  induction h with
  | nil args =>
    rw [List.length_nil, Nat.add_zero, formatText, List.flatMap_nil, List.nil_append]
    cases vkprintf m fuel t args <;> rfl
  | @char c ps args rest out h ih =>
    obtain ⟨h0, hc⟩ := hps _ List.mem_cons_self
    rw [List.length_cons, ← Nat.add_assoc, formatText_cons, Piece.text, List.append_assoc,
      List.singleton_append, vkprintf_char h0 hc, ih fun p hp => hps p (by simp [hp])]
    exact map_append_append _ [c] out
  | @percent ps args rest out h ih =>
    rw [List.length_cons, ← Nat.add_assoc, formatText_cons, Piece.text, List.append_assoc,
      List.cons_append, List.cons_append, List.nil_append, vkprintf_percent,
      ih fun p hp => hps p (by simp [hp])]
    exact map_append_append _ [chr '%'] out
  | @number s letter a ps args rest out hl h ih =>
    rw [List.length_cons, ← Nat.add_assoc, vkprintf_piece (hps _ List.mem_cons_self)
      (doConversion_number hl _ _ _ a args), ih fun p hp => hps p (by simp [hp])]
    exact map_append_append _ _ out
  | @string s a str ps args rest out ha hstr hlen h ih =>
    obtain ⟨hw, hprec⟩ := s.conversion_range
    have ha' : a.toNat ≠ 0 := fun h0 => ha (BitVec.eq_of_toNat_eq h0)
    have hdone :=
      formatPointer_eq hstr ha' (by omega : _ < fuel + ps.length) (by omega) hw hprec
    rw [List.length_cons, ← Nat.add_assoc, vkprintf_piece (hps _ List.mem_cons_self)
      (by rw [doConversion_string, hdone]; rfl), ih fun p hp => hps p (by simp [hp])]
    exact map_append_append _ _ out
  | @null s ps args rest out h ih =>
    obtain ⟨hw, hprec⟩ := s.conversion_range
    have hdone := formatPointer_null m (by omega : _ < fuel + ps.length) hw hprec
    rw [List.length_cons, ← Nat.add_assoc, vkprintf_piece (hps _ List.mem_cons_self)
      (by rw [doConversion_string]; exact congrArg _ hdone), ih fun p hp => hps p (by simp [hp])]
    exact map_append_append _ _ out
  | @none s letter ps args rest out hl hs h ih =>
    rw [List.length_cons, ← Nat.add_assoc, vkprintf_piece (hps _ List.mem_cons_self)
      (doConversion_none hl hs (by omega) _ args), ih fun p hp => hps p (by simp [hp])]
    exact map_append_append _ _ out

end

/-! ### Every string is a format, or breaks off, or has a star -/

section

variable {g : List (BitVec 8)}

/-- A width or a precision that comes from the arguments. -/
inductive HasStar : List (BitVec 8) → Prop
  | width (fs : List FlagChar) (t : List (BitVec 8)) :
      HasStar (fs.map FlagChar.char ++ chr '*' :: t)
  | precision (fs : List FlagChar) (width t : List (BitVec 8)) (hdigits : ∀ c ∈ width, isdigit c)
      (hhead : width.head? ≠ some (chr '0')) :
      HasStar (fs.map FlagChar.char ++ (width ++ chr '.' :: chr '*' :: t))

/-- The flags at the beginning of a string. -/
theorem exists_flags (g : List (BitVec 8)) :
    ∃ (fs : List FlagChar) (t : List (BitVec 8)), g = fs.map FlagChar.char ++ t ∧
      ∀ x ∈ t.head?, flagOf x = none := by
  induction g with
  | nil => exact ⟨[], [], rfl, by simp⟩
  | cons c g ih =>
    cases hc : flagOf c with
    | none => exact ⟨[], c :: g, rfl, by simpa using hc⟩
    | some f =>
      obtain ⟨fs, t, rfl, ht⟩ := ih
      exact ⟨f :: fs, t, by rw [List.map_cons, char_of_flagOf hc, List.cons_append], ht⟩

/-- The digits at the beginning of a string. -/
theorem exists_digits (g : List (BitVec 8)) :
    ∃ ds t, g = ds ++ t ∧ (∀ c ∈ ds, isdigit c) ∧ ∀ x ∈ t.head?, ¬isdigit x := by
  refine ⟨g.takeWhile isdigit, g.dropWhile isdigit, List.takeWhile_append_dropWhile.symm,
    fun c hc => List.mem_takeWhile_imp hc, fun x hx => ?_⟩
  have h := List.head?_dropWhile_not isdigit g
  rw [Option.mem_def.mp hx] at h
  simpa using h

/-- The type at the beginning of a string, and what may stand behind it. -/
theorem exists_type (g : List (BitVec 8)) :
    ∃ (type : ConvType) (t : List (BitVec 8)), g = type.text ++ t ∧ ∀ x ∈ t.head?,
      (type = .int → ¬isTypeChar x) ∧ (type = .short → x ≠ chr 'h') ∧
        (type = .long → x ≠ chr 'l') := by
  cases g with
  | nil => exact ⟨.int, [], rfl, by simp⟩
  | cons c g =>
    by_cases hh : c = chr 'h'
    · cases g with
      | nil => exact ⟨.short, [], by rw [hh]; rfl, by simp⟩
      | cons d g =>
        by_cases hd : d = chr 'h'
        · exact ⟨.char, g, by rw [hh, hd]; rfl, by simp⟩
        · exact ⟨.short, d :: g, by rw [hh]; rfl, by simpa using hd⟩
    · by_cases hl : c = chr 'l'
      · cases g with
        | nil => exact ⟨.long, [], by rw [hl]; rfl, by simp⟩
        | cons d g =>
          by_cases hd : d = chr 'l'
          · exact ⟨.longlong, g, by rw [hl, hd]; rfl, by simp⟩
          · exact ⟨.long, d :: g, by rw [hl]; rfl, by simpa using hd⟩
      · by_cases hj : c = chr 'j'
        · exact ⟨.intmax, g, by rw [hj]; rfl, by simp⟩
        · by_cases ht : c = chr 't'
          · exact ⟨.ptrdifft, g, by rw [ht]; rfl, by simp⟩
          · by_cases hz : c = chr 'z'
            · exact ⟨.sizet, g, by rw [hz]; rfl, by simp⟩
            · refine ⟨.int, c :: g, rfl, ?_⟩
              simp [isTypeChar, hh, hl, hj, ht, hz]

/-- **What stands behind a percent sign**: a specification that ends the string or stops at a
character, or a star. -/
theorem exists_spec (g : List (BitVec 8)) :
    (∃ s : ConvSpec, g = s.text) ∨ (∃ (s : ConvSpec) (x : BitVec 8) (t : List (BitVec 8)),
      g = s.text ++ x :: t ∧ s.Stops x) ∨ HasStar g := by
  obtain ⟨fs, g₁, rfl, hflags⟩ := exists_flags g
  obtain ⟨width, g₂, rfl, hwidth, hg₂⟩ := exists_digits g₁
  have hhead : width.head? ≠ some (chr '0') := by
    intro h
    obtain ⟨ds, rfl⟩ := List.head?_eq_some_iff.mp h
    exact absurd (hflags _ rfl) (by decide)
  -- the type and what is behind it, once the precision is known
  have hrest : ∀ (precision : Option (List (BitVec 8))) (g₄ : List (BitVec 8)),
      (∀ ds ∈ precision, ∀ c ∈ ds, isdigit c) → (∀ x ∈ g₄.head?, ¬isdigit x ∧
        match precision with
        | some ds => ds = [] → x ≠ chr '*'
        | none => x ≠ chr '.' ∧ (width = [] → x ≠ chr '*' ∧ flagOf x = none)) →
      g₂ = precisionText precision ++ g₄ →
      (∃ s : ConvSpec, fs.map FlagChar.char ++ (width ++ g₂) = s.text) ∨
      (∃ (s : ConvSpec) (x : BitVec 8) (t : List (BitVec 8)),
        fs.map FlagChar.char ++ (width ++ g₂) = s.text ++ x :: t ∧ s.Stops x) := by
    rintro precision g₄ hdigits hg₄ rfl
    obtain ⟨type, g₅, rfl, hg₅⟩ := exists_type g₄
    let s : ConvSpec := ⟨fs, width, precision, type, hwidth, hhead, hdigits⟩
    cases g₅ with
    | nil => exact Or.inl ⟨s, by rw [List.append_nil]; rfl⟩
    | cons x t =>
      refine Or.inr ⟨s, x, t, by simp [s, ConvSpec.text], ?_⟩
      obtain ⟨hint, hshort, hlong⟩ := hg₅ x rfl
      cases type with
      | int => exact ⟨hint rfl, hg₄ x rfl⟩
      | short => exact hshort rfl
      | long => exact hlong rfl
      | char => trivial
      | intmax => trivial
      | longlong => trivial
      | ptrdifft => trivial
      | sizet => trivial
  cases g₂ with
  | nil =>
    rcases hrest none [] (by simp) (by simp) rfl with h | h
    · exact Or.inl h
    · exact Or.inr (Or.inl h)
  | cons y g₃ =>
    by_cases hdot : y = chr '.'
    · subst hdot
      obtain ⟨ds, g₄, rfl, hds, hg₄⟩ := exists_digits g₃
      by_cases hstar : ds = [] ∧ g₄.head? = some (chr '*')
      · obtain ⟨rfl, hstar⟩ := hstar
        obtain ⟨t, rfl⟩ := List.head?_eq_some_iff.mp hstar
        exact Or.inr (Or.inr (.precision fs width t hwidth hhead))
      · have hbehind : ∀ x ∈ g₄.head?, ¬isdigit x ∧ (ds = [] → x ≠ chr '*') := by
          refine fun x hx => ⟨hg₄ x hx, ?_⟩
          rintro hnil rfl
          exact hstar ⟨hnil, hx⟩
        rcases hrest (some ds) g₄ (by simpa using hds) hbehind rfl with h | h
        · exact Or.inl h
        · exact Or.inr (Or.inl h)
    · by_cases hstar : width = [] ∧ y = chr '*'
      · obtain ⟨rfl, rfl⟩ := hstar
        exact Or.inr (Or.inr (.width fs g₃))
      · have hbehind : ∀ x ∈ (y :: g₃).head?, ¬isdigit x ∧ x ≠ chr '.' ∧
            (width = [] → x ≠ chr '*' ∧ flagOf x = none) := by
          intro x hx
          obtain rfl : y = x := by simpa using hx
          refine ⟨hg₂ y rfl, hdot, fun hnil => ⟨fun hy => hstar ⟨hnil, hy⟩, ?_⟩⟩
          subst hnil
          exact hflags y rfl
        rcases hrest none (y :: g₃) (by simp) hbehind rfl with h | h
        · exact Or.inl h
        · exact Or.inr (Or.inl h)

/-- **Every string is a sequence of pieces**, or breaks off inside a conversion, or takes a width
or a precision from the arguments. -/
theorem exists_pieces {f : List (BitVec 8)} (hf : 0 ∉ f) :
    ∃ ps : List Piece, (∀ p ∈ ps, p.WellFormed) ∧ (f = formatText ps ∨
      (∃ s : ConvSpec, f = formatText ps ++ chr '%' :: s.text) ∨
      ∃ g, HasStar g ∧ f = formatText ps ++ chr '%' :: g) := by
  obtain ⟨n, hn⟩ : ∃ n, f.length < n := ⟨_, Nat.lt_succ_self _⟩
  induction n generalizing f with
  | zero => exact absurd hn (Nat.not_lt_zero _)
  | succ n ih =>
    -- a piece in front of a shorter string
    have hcons : ∀ (p : Piece) (t : List (BitVec 8)), p.WellFormed → f = p.text ++ t →
        t.length < f.length → ∃ ps : List Piece, (∀ p ∈ ps, p.WellFormed) ∧ (f = formatText ps ∨
          (∃ s : ConvSpec, f = formatText ps ++ chr '%' :: s.text) ∨
          ∃ g, HasStar g ∧ f = formatText ps ++ chr '%' :: g) := by
      intro p t hp hft hlt
      obtain ⟨ps, hps, hcases⟩ := ih (f := t) (fun h => hf (hft ▸ List.mem_append_right _ h))
        (by omega)
      refine ⟨p :: ps, by simpa using ⟨hp, hps⟩, ?_⟩
      rcases hcases with rfl | ⟨s, rfl⟩ | ⟨g, hg, rfl⟩
      · exact Or.inl (by rw [hft, formatText_cons])
      · exact Or.inr (Or.inl ⟨s, by rw [hft, formatText_cons, List.append_assoc]⟩)
      · exact Or.inr (Or.inr ⟨g, hg, by rw [hft, formatText_cons, List.append_assoc]⟩)
    cases f with
    | nil => exact ⟨[], by simp, Or.inl rfl⟩
    | cons c f =>
      simp only [List.mem_cons, not_or] at hf
      by_cases hc : c = chr '%'
      · subst hc
        rcases exists_spec f with ⟨s, rfl⟩ | ⟨s, x, t, rfl, hx⟩ | hstar
        · exact ⟨[], by simp, Or.inr (Or.inl ⟨s, rfl⟩)⟩
        · by_cases hpercent : s.text = [] ∧ x = chr '%'
          · obtain ⟨hnil, rfl⟩ := hpercent
            exact hcons .percent t trivial (by simp [hnil, Piece.text]) (by simp; omega)
          · refine hcons (.conv s x) t ⟨fun h0 => hf.2 (by simp [h0]), hx, fun hnil hx' =>
              hpercent ⟨hnil, hx'⟩⟩ (by simp [Piece.text]) (by simp; omega)
        · exact ⟨[], by simp, Or.inr (Or.inr ⟨f, hstar, rfl⟩)⟩
      · exact hcons (.char c) f ⟨Ne.symm hf.1, hc⟩ rfl (by simp)

end

end AnglOS
