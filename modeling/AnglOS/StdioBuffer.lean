import AnglOS.StdioFormat

/-!
# Output to a Buffer

`vsnkprintf` stores each character while the formatter goes on, so a string that a `%s` prints may
change before it is read, if it lies in the buffer. If no such string meets the buffer, the
characters are those that the formatter gives to any other `output` function.

* `stringArgs` — the arguments that `%s` prints.
* `vkprintfTo_eq` — the formatter with an `output` function that leaves these strings alone.

## Main results

* `vsnkprintf_truncates` — the buffer that `vsnkprintf` leaves.
-/

namespace AnglOS

/-- The arguments that `%s` prints. -/
def stringArgs : ℕ → List (BitVec 8) → List (BitVec 64) → List (BitVec 64)
  | 0, _, _ => []
  | _ + 1, [], _ => []
  | fuel + 1, ch :: format, args =>
    if ch = 0 then []
    else if ch ≠ chr '%' then stringArgs fuel format args
    else
      match format with
      | [] => []
      | ch :: format' =>
        if ch = chr '%' then stringArgs fuel format' args
        else
          match parseConversion format with
          | .ok (_, letter :: format) =>
            if takesNumber letter then stringArgs fuel format args.tail
            else if letter = chr 's' then args.take 1 ++ stringArgs fuel format args.tail
            else stringArgs fuel format args
          | _ => []

/-- The memories agree on the string at `a`. -/
def AgreesOn (m m' : Mem) (a : ℕ) : Prop :=
  ∀ i, (∀ j < i, m (a + j) ≠ 0) → m' (a + i) = m (a + i)

theorem AgreesOn.refl (m : Mem) (a : ℕ) : AgreesOn m m a := fun _ _ => rfl

/-! ### Strings -/

section

variable {m m' : Mem} {a maxlen fuel : ℕ}

theorem AgreesOn.strnlen (h : AgreesOn m m' a) :
    strnlen fuel m' a maxlen = strnlen fuel m a maxlen := by
  have hloop : ∀ fuel n, (∀ j < n, m (a + j) ≠ 0) →
      strnlenLoop m' a maxlen fuel n = strnlenLoop m a maxlen fuel n := by
    intro fuel
    induction fuel with
    | zero => exact fun n _ => rfl
    | succ fuel ih =>
      intro n hn
      rw [strnlenLoop, strnlenLoop, h n hn]
      split_ifs with hc
      · refine ih (n + 1) fun j hj => ?_
        rcases Nat.lt_succ_iff_lt_or_eq.mp hj with hj | rfl
        · exact hn j hj
        · exact hc.1
      · rfl
  exact hloop fuel 0 fun j hj => absurd hj (Nat.not_lt_zero j)

/-- No character that `strnlen` counts is a terminator. -/
theorem strnlen_ne_zero {l : ℕ} (h : strnlen fuel m a maxlen = some l) :
    ∀ j < l, m (a + j) ≠ 0 := by
  have hloop : ∀ fuel n, (∀ j < n, m (a + j) ≠ 0) →
      strnlenLoop m a maxlen fuel n = some l → ∀ j < l, m (a + j) ≠ 0 := by
    intro fuel
    induction fuel with
    | zero => exact fun n _ hl => nomatch hl
    | succ fuel ih =>
      intro n hn hl
      rw [strnlenLoop] at hl
      split_ifs at hl with hc
      · refine ih (n + 1) (fun j hj => ?_) hl
        rcases Nat.lt_succ_iff_lt_or_eq.mp hj with hj | rfl
        · exact hn j hj
        · exact hc.1
      · obtain rfl := Option.some.inj hl
        exact hn
  exact hloop fuel 0 (fun j hj => absurd hj (Nat.not_lt_zero j)) h

/-- The conversion to `int` makes no length larger. -/
theorem int32_toNat_le (l : ℕ) : (int32 l).toNat ≤ l := by
  have hrange := int32_range l
  rw [int32] at hrange ⊢
  rw [Int.bmod_def] at hrange ⊢
  omega

end

/-! ### The formatter with an `output` function -/

section

variable {σ : Type} {k : Sink σ} {I : ℕ → σ → Prop} {m : Mem} {fuel n : ℕ} {aux : σ}

theorem Sink.outputs_append (k : Sink σ) (aux : σ) (s t : List (BitVec 8)) :
    k.outputs aux (s ++ t) = k.outputs (k.outputs aux s) t :=
  List.foldl_append

/-- `I n` is what `n` more characters need, and each character needs one. -/
def Sink.Spends (k : Sink σ) (I : ℕ → σ → Prop) : Prop :=
  ∀ n aux c, I (n + 1) aux → I n (k.output aux c)

theorem Sink.Spends.outputs (hk : k.Spends I) {s : List (BitVec 8)} (h : I (s.length + n) aux) :
    I n (k.outputs aux s) := by
  induction s generalizing aux with
  | nil => simpa [Sink.outputs] using h
  | cons c s ih =>
    refine ih (hk _ aux c ?_)
    rwa [List.length_cons, Nat.add_right_comm] at h

/-- `format_string` on a string that no character changes. -/
theorem formatStringTo_eq (hk : k.Spends I) {mem : σ → Mem} {p : ℕ} {length : ℤ}
    (hmem : ∀ n aux, I n aux → ∀ i < length.toNat, mem aux (p + i) = m (p + i))
    (c : KprintfConversion) (hI : I ((formatString m p length c).length + n) aux) :
    formatStringTo k mem p length c aux = k.outputs aux (formatString m p length c) := by
  rw [formatString] at hI ⊢
  rw [formatStringTo, Sink.outputs_append, Sink.outputs_append]
  generalize (if length < c.width ∧ ¬c.flags.minus then
    outputDup (chr ' ') (sizeT (int32 (c.width - length))) else []) = left at hI ⊢
  generalize (if length < c.width ∧ c.flags.minus then
    outputDup (chr ' ') (sizeT (int32 (c.width - length))) else []) = right at hI ⊢
  have hcopy : ∀ l, l ≤ length.toNat →
      (List.range l).foldl (fun aux i => k.output aux (mem aux (p + i))) (k.outputs aux left) =
        k.outputs (k.outputs aux left) ((List.range l).map fun i => m (p + i)) := by
    intro l hl
    induction l with
    | zero => rfl
    | succ l ih =>
      have hspent : I ((length.toNat - l) + right.length + n)
          (k.outputs (k.outputs aux left) ((List.range l).map fun i => m (p + i))) := by
        rw [← Sink.outputs_append]
        refine hk.outputs ?_
        simp only [List.length_append, List.length_map, List.length_range] at hI ⊢
        convert hI using 1
        omega
      rw [List.range_succ, List.foldl_append, List.map_append, Sink.outputs_append,
        ih (by omega), List.foldl_cons, List.foldl_nil, hmem _ _ hspent l (by omega)]
      rfl
  rw [hcopy _ le_rfl]

/-- `%s` of a string that no character changes. -/
theorem formatPointerTo_eq (hk : k.Spends I) {c : KprintfConversion} {a : ℕ}
    (ha : a ≠ 0 → ∀ n aux, I n aux → AgreesOn m (k.mem aux) a) {out : List (BitVec 8)}
    (h : formatPointer m fuel c a = .ok out) (hI : I (out.length + n) aux) :
    formatPointerTo k fuel c a aux = .ok (k.outputs aux out) := by
  rw [formatPointer] at h
  rw [formatPointerTo]
  by_cases hz : a = 0
  · simp only [if_pos hz] at h ⊢
    cases hl : strnlen fuel (constMem (chars "(null)")) 0 (sizeT c.precision) with
    | none => simp [hl] at h
    | some l =>
      simp only [hl, Except.ok.injEq] at h ⊢
      subst h
      exact formatStringTo_eq hk (fun _ _ _ _ _ => rfl) c hI
  · simp only [if_neg hz] at h ⊢
    rw [(ha hz _ _ hI).strnlen]
    cases hl : strnlen fuel m a (sizeT c.precision) with
    | none => simp [hl] at h
    | some l =>
      simp only [hl, Except.ok.injEq] at h ⊢
      subst h
      refine formatStringTo_eq hk (fun n aux haux i hi => ha hz n aux haux i fun j hj => ?_) c hI
      have hle := int32_toNat_le l
      exact strnlen_ne_zero hl j (by omega)

theorem bind_eq_ok {α β : Type} {r : Except Fault α} {f : α → Except Fault β} {b : β}
    (h : r.bind f = .ok b) : ∃ a, r = .ok a ∧ f a = .ok b := by
  cases r with
  | error e => cases h
  | ok a => exact ⟨a, rfl, h⟩

/-- The formats of the nested calls. -/
def nestedFormats : List (List (BitVec 8)) :=
  [chars "<<no %%%c in kernel>>" ++ [0], chars "<<no %%%c conversion>>" ++ [0]]

/-- The arguments that a conversion leaves. -/
def argsAfter (letter : BitVec 8) (args : List (BitVec 64)) : List (BitVec 64) :=
  if takesNumber letter ∨ letter = chr 's' then args.tail else args

/-- **A conversion** of a string that no character changes, or of something else. -/
theorem doConversionTo_eq (hk : k.Spends I)
    {kprintfTo : List (BitVec 8) → List (BitVec 64) → σ → Except Fault σ}
    {kprintf : List (BitVec 8) → List (BitVec 64) → Except Fault (List (BitVec 8))}
    {c : KprintfConversion} {letter : BitVec 8} {args args' : List (BitVec 64)}
    (hnested : ∀ f ∈ nestedFormats, ∀ args out, kprintf f args = .ok out → I (out.length + n) aux →
      kprintfTo f args aux = .ok (k.outputs aux out))
    (hs : letter = chr 's' → ∀ a ∈ args.take 1, a ≠ 0 → ∀ n aux, I n aux →
      AgreesOn m (k.mem aux) a.toNat)
    {out : List (BitVec 8)} (h : doConversion m fuel kprintf c letter args = .ok (out, args'))
    (hI : I (out.length + n) aux) :
    doConversionTo k fuel kprintfTo c letter args aux = .ok (k.outputs aux out, args') ∧
      args' = argsAfter letter args := by
  rw [argsAfter]
  by_cases hl : takesNumber letter
  · rw [if_pos (Or.inl hl)]
    cases args with
    | nil => simp [doConversion_noArgument (Or.inl hl)] at h
    | cons a args =>
      rw [doConversion_number hl, Except.ok.injEq, Prod.mk.injEq] at h
      obtain ⟨rfl, rfl⟩ := h
      refine ⟨?_, rfl⟩
      have hchar : letter = chr 'c' → doConversionTo k fuel kprintfTo c letter (a :: args) aux =
          .ok (k.outputs aux (numberText c letter a), args) := by
        rintro rfl
        exact congrArg (fun aux => Except.ok (aux, args))
          (formatStringTo_eq hk (fun _ _ _ _ _ => rfl) c hI)
      simp only [takesNumber, decide_eq_true_eq] at hl
      rcases hl with rfl | rfl | rfl | rfl | rfl | rfl | rfl | rfl
      all_goals first | exact hchar rfl | rfl
  · by_cases hstring : letter = chr 's'
    · subst hstring
      rw [if_pos (Or.inr rfl)]
      cases args with
      | nil => simp [doConversion_noArgument (Or.inr rfl)] at h
      | cons a args =>
        rw [doConversion_string] at h
        cases hp : formatPointer m fuel c a.toNat with
        | error e => simp [hp, Except.map] at h
        | ok text =>
          simp only [hp, Except.map, Except.ok.injEq, Prod.mk.injEq] at h
          obtain ⟨rfl, rfl⟩ := h
          have hprint := formatPointerTo_eq hk (a := a.toNat) (fun hz => hs rfl a (by simp)
            fun ha => hz (by rw [ha]; rfl)) hp hI
          refine ⟨?_, rfl⟩
          have hcode : doConversionTo k fuel kprintfTo c (chr 's') (a :: args) aux =
              (formatPointerTo k fuel c a.toNat aux).bind fun aux => .ok (aux, args) := rfl
          rw [hcode, hprint]
          rfl
    · rw [if_neg (not_or.mpr ⟨hl, hstring⟩)]
      simp only [takesNumber, decide_eq_true_eq, not_or] at hl
      obtain ⟨hd, hi, ho, hu, hx, hX, hc, hp⟩ := hl
      rw [doConversion, if_neg (by simp [hd, hi]), if_neg (by simp [ho, hu, hx, hX]), if_neg hc,
        if_neg hstring, if_neg hp] at h
      rw [doConversionTo, if_neg (by simp [hd, hi]), if_neg (by simp [ho, hu, hx, hX]), if_neg hc,
        if_neg hstring, if_neg hp]
      split_ifs at h ⊢
      all_goals
        obtain ⟨text, htext, hout⟩ := bind_eq_ok h
        simp only [Except.ok.injEq, Prod.mk.injEq] at hout
        obtain ⟨rfl, rfl⟩ := hout
        refine ⟨?_, rfl⟩
      · rw [hnested _ (by simp [nestedFormats]) _ _ htext hI]
        rfl
      · rw [hnested _ (by simp [nestedFormats]) _ _ htext hI]
        rfl

end

/-! ### The strings of a format -/

section

variable {fuel : ℕ} {f : List (BitVec 8)} {args : List (BitVec 64)}

theorem stringArgs_chars {cs : List (BitVec 8)} (hcs : chr '%' ∉ cs)
    (hf : ∀ fuel, stringArgs fuel f args = []) : ∀ fuel, stringArgs fuel (cs ++ f) args = [] := by
  induction cs with
  | nil => exact hf
  | cons c cs ih =>
    obtain ⟨hc, hcs⟩ := not_or.mp (mt List.mem_cons.mpr hcs)
    intro fuel
    cases fuel with
    | zero => rfl
    | succ fuel =>
      rw [List.cons_append, stringArgs.eq_def]
      simp only [if_pos (Ne.symm hc), ih hcs, ite_self]

theorem stringArgs_terminator : ∀ fuel, stringArgs fuel [0] args = []
  | 0 => rfl
  | _ + 1 => rfl

/-- The nested calls print no string. -/
theorem stringArgs_nested (hf : f ∈ nestedFormats) : stringArgs fuel f args = [] := by
  have hconv : ∀ cs : List (BitVec 8), chr '%' ∉ cs → ∀ fuel,
      stringArgs fuel (chars "<<no " ++ chr '%' :: chr '%' :: chr '%' :: chr 'c' :: (cs ++ [0]))
        args = [] := by
    intro cs hcs
    refine stringArgs_chars (by decide) fun fuel => ?_
    match fuel with
    | 0 => rfl
    | 1 => rfl
    | fuel + 2 => exact stringArgs_chars hcs stringArgs_terminator fuel
  simp only [nestedFormats, List.mem_cons, List.not_mem_nil, or_false] at hf
  rcases hf with rfl | rfl
  · exact hconv (chars " in kernel>>") (by decide) fuel
  · exact hconv (chars " conversion>>") (by decide) fuel

/-- A conversion prints its argument as a string if its letter is `s`. -/
theorem stringArgs_conv {d letter : BitVec 8} {format : List (BitVec 8)} {c : KprintfConversion}
    (hd : d ≠ chr '%') (hc : parseConversion (d :: f) = .ok (c, letter :: format)) :
    stringArgs (fuel + 1) (chr '%' :: d :: f) args =
      (if letter = chr 's' then args.take 1 else []) ++
        stringArgs fuel format (argsAfter letter args) := by
  have h0 : chr '%' ≠ 0 := by decide
  rw [stringArgs.eq_def, argsAfter]
  simp only [if_neg h0, ne_eq, not_true_eq_false, if_false, if_neg hd, hc]
  by_cases hl : takesNumber letter
  · have hs : letter ≠ chr 's' := by
      rintro rfl
      exact absurd hl (by decide)
    rw [if_pos hl, if_neg hs, if_pos (Or.inl hl), List.nil_append]
  · rw [if_neg hl]
    by_cases hs : letter = chr 's'
    · rw [if_pos hs, if_pos hs, if_pos (Or.inr hs)]
    · rw [if_neg hs, if_neg hs, if_neg (not_or.mpr ⟨hl, hs⟩), List.nil_append]

end

section

variable {σ : Type} {k : Sink σ} {I : ℕ → σ → Prop} {m : Mem}

theorem map_eq_ok {α β : Type} {r : Except Fault α} {f : α → β} {b : β} (h : r.map f = .ok b) :
    ∃ a, r = .ok a ∧ f a = b := by
  cases r with
  | error e => cases h
  | ok a => exact ⟨a, rfl, Except.ok.inj h⟩

/-- **The formatter with an `output` function** that changes no string that is printed. -/
theorem vkprintfTo_eq (hk : k.Spends I) {fuel n : ℕ} {format : List (BitVec 8)}
    {args : List (BitVec 64)} {aux : σ} {out : List (BitVec 8)}
    (hs : ∀ a ∈ stringArgs fuel format args, a ≠ 0 → ∀ n aux, I n aux →
      AgreesOn m (k.mem aux) a.toNat)
    (h : vkprintf m fuel format args = .ok out) (hI : I (out.length + n) aux) :
    vkprintfTo k fuel format args aux = .ok (k.outputs aux out) := by
  induction fuel generalizing format args aux out n with
  | zero => cases h
  | succ fuel ih =>
    cases format with
    | nil => cases h
    | cons ch format =>
      by_cases h0 : ch = 0
      · subst h0
        obtain rfl := Except.ok.inj h
        rfl
      by_cases hch : ch ≠ chr '%'
      · rw [vkprintf_char h0 hch] at h
        obtain ⟨out, hout, rfl⟩ := map_eq_ok h
        rw [vkprintfTo.eq_def]
        simp only [if_neg h0, if_pos hch]
        rw [List.length_cons, Nat.add_right_comm] at hI
        rw [stringArgs.eq_def] at hs
        simp only [if_neg h0, if_pos hch] at hs
        exact ih hs hout (hk _ _ _ hI)
      obtain rfl := not_not.mp hch
      cases format with
      | nil => cases h
      | cons d format =>
        by_cases hd : d = chr '%'
        · subst hd
          rw [vkprintf_percent] at h
          obtain ⟨out, hout, rfl⟩ := map_eq_ok h
          rw [List.length_cons, Nat.add_right_comm] at hI
          exact ih hs hout (hk _ _ _ hI)
        rw [vkprintf.eq_def] at h
        rw [vkprintfTo.eq_def]
        simp only [if_neg h0, ne_eq, not_true_eq_false, if_false, if_neg hd] at h ⊢
        obtain ⟨⟨c, rest⟩, hc, h⟩ := bind_eq_ok h
        cases rest with
        | nil => cases h
        | cons letter rest =>
          obtain ⟨⟨text, args'⟩, htext, h⟩ := bind_eq_ok h
          obtain ⟨out, hout, h⟩ := bind_eq_ok h
          obtain rfl := Except.ok.inj h
          rw [List.length_append, Nat.add_assoc] at hI
          rw [stringArgs_conv hd hc] at hs
          obtain ⟨hprint, rfl⟩ := doConversionTo_eq hk
            (fun f hf args out hout hI =>
              ih (fun a ha => by simp [stringArgs_nested hf] at ha) hout hI)
            (fun hl a ha => hs a (List.mem_append_left _ (by rwa [if_pos hl]))) htext hI
          have hrest := ih (fun a ha => hs a (List.mem_append_right _ ha)) hout (hk.outputs hI)
          rw [Sink.outputs_append, ← hrest]
          simp only [hc, bind, Except.bind, hprint]

/-- An `output` function that leaves the memory alone gets the characters of `vkprintf`. -/
theorem vkprintfTo_of_mem (hmem : ∀ aux c, k.mem (k.output aux c) = k.mem aux) {fuel : ℕ}
    {format : List (BitVec 8)} {args : List (BitVec 64)} {aux : σ} {out : List (BitVec 8)}
    (h : vkprintf (k.mem aux) fuel format args = .ok out) :
    vkprintfTo k fuel format args aux = .ok (k.outputs aux out) := by
  refine vkprintfTo_eq (I := fun _ aux' => k.mem aux' = k.mem aux) (n := 0)
    (fun _ aux' c h => (hmem aux' c).trans h) (fun a _ _ n aux' h => ?_) h rfl
  rw [h]
  exact AgreesOn.refl _ _

end

/-! ### Output to a buffer -/

section

variable {m : Mem}

/-- The buffer after some characters: those that fit are in it, and all are counted. -/
structure Stored (m : Mem) (buffer max : ℕ) (out : List (BitVec 8)) (aux : VsnkprintfAux) :
    Prop where
  length : aux.length = out.length
  maxLength : aux.maxLength = max
  p : aux.p = buffer + min out.length max
  inside : ∀ i < min out.length max, out[i]? = some (aux.mem (buffer + i))
  outside : ∀ x, (x < buffer ∨ buffer + min out.length max ≤ x) → aux.mem x = m x

/-- One more character. -/
theorem Stored.step {buffer max : ℕ} {out : List (BitVec 8)} {aux : VsnkprintfAux}
    (h : Stored m buffer max out aux) (c : BitVec 8) (hlen : out.length + 1 < 2 ^ 31) :
    Stored m buffer max (out ++ [c]) (vsnkprintfHelper aux c) := by
  have hlength : int32 (aux.length + 1) = ((out ++ [c]).length : ℕ) := by
    rw [h.length, int32_eq (by omega) (by omega), List.length_append, List.length_singleton]
    push_cast
    rfl
  rw [vsnkprintfHelper]
  by_cases hroom : out.length < max
  · have hmin : min out.length max = out.length := by omega
    have hmin' : min (out ++ [c]).length max = out.length + 1 := by
      rw [List.length_append, List.length_singleton]
      omega
    rw [if_pos (by rw [h.length, h.maxLength]; exact_mod_cast hroom)]
    refine ⟨hlength, h.maxLength, ?_, fun i hi => ?_, fun x hx => ?_⟩
    · rw [hmin', h.p, hmin]
      rfl
    · rcases Nat.lt_or_ge i out.length with hlt | hge
      · have hne : buffer + i ≠ aux.p := by
          rw [h.p]
          omega
        rw [List.getElem?_append_left hlt, h.inside i (by omega)]
        exact congrArg some (Mem.store8_of_ne hne).symm
      · obtain rfl : i = out.length := by omega
        have hp : aux.p = buffer + out.length := by rw [h.p, hmin]
        simp [hp]
    · have hne : x ≠ aux.p := by
        rw [h.p]
        omega
      exact (Mem.store8_of_ne hne).trans (h.outside x (by omega))
  · have hmin : min out.length max = max := by omega
    have hmin' : min (out ++ [c]).length max = max := by
      rw [List.length_append, List.length_singleton]
      omega
    rw [if_neg (by rw [h.length, h.maxLength]; exact_mod_cast hroom)]
    refine ⟨hlength, h.maxLength, ?_, fun i hi => ?_, fun x hx => ?_⟩
    · rw [hmin', h.p, hmin]
    · rw [List.getElem?_append_left (by omega)]
      exact h.inside i (by omega)
    · exact h.outside x (by omega)

/-- The string at `a` and its terminator do not meet the buffer. -/
def Apart (m : Mem) (a buffer bufSize : ℕ) : Prop :=
  ∀ i, (∀ j < i, m (a + j) ≠ 0) → a + i < buffer ∨ buffer + bufSize ≤ a + i

/-- A string apart from the buffer keeps its characters. -/
theorem Stored.agreesOn {buffer bufSize a : ℕ} {out : List (BitVec 8)} {aux : VsnkprintfAux}
    (h : Stored m buffer (bufSize - 1) out aux) (ha : Apart m a buffer bufSize) :
    AgreesOn m aux.mem a :=
  fun i hi => h.outside _ ((ha i hi).imp id fun hx => by omega)

/-- The characters of `vkprintf` are stored if the strings that `%s` prints are apart from the
buffer. -/
theorem stored_vkprintfTo {fuel buffer bufSize : ℕ} {format : List (BitVec 8)}
    {args : List (BitVec 64)} {out : List (BitVec 8)}
    (hout : vkprintf m fuel format args = .ok out) (hlen : out.length < 2 ^ 31)
    (hapart : ∀ a ∈ stringArgs fuel format args, a ≠ 0 → Apart m a.toNat buffer bufSize) :
    ∃ aux, vkprintfTo ⟨vsnkprintfHelper, VsnkprintfAux.mem⟩ fuel format args
        ⟨m, buffer, 0, ((bufSize - 1 : ℕ) : ℤ)⟩ = .ok aux ∧
      Stored m buffer (bufSize - 1) out aux := by
  let k : Sink VsnkprintfAux := ⟨vsnkprintfHelper, VsnkprintfAux.mem⟩
  let I : ℕ → VsnkprintfAux → Prop := fun n aux =>
    ∃ out, Stored m buffer (bufSize - 1) out aux ∧ out.length + n < 2 ^ 31
  have hstored : ∀ text, text.length < 2 ^ 31 →
      Stored m buffer (bufSize - 1) text
        (k.outputs ⟨m, buffer, 0, ((bufSize - 1 : ℕ) : ℤ)⟩ text) := by
    intro text
    induction text using List.reverseRecOn with
    | nil =>
      exact fun _ => ⟨rfl, rfl, (Nat.add_zero buffer).symm, fun i h => absurd h (by simp),
        fun x _ => rfl⟩
    | append_singleton text c ih =>
      intro htext
      rw [List.length_append, List.length_singleton] at htext
      rw [Sink.outputs_append]
      exact (ih (by omega)).step c htext
  have hk : k.Spends I := by
    rintro n aux c ⟨text, h, htext⟩
    refine ⟨text ++ [c], h.step c (by omega), ?_⟩
    rw [List.length_append, List.length_singleton]
    omega
  refine ⟨_, vkprintfTo_eq (n := 0) hk (fun a ha hz n aux => ?_) hout ?_, hstored out hlen⟩
  · rintro ⟨text, h, -⟩
    exact h.agreesOn (hapart a ha hz)
  · exact ⟨[], hstored [] (by norm_num), by simpa using hlen⟩

/-- **`vsnkprintf` truncates.** If the format and the strings that `%s` prints do not meet the
buffer, and the text and the size of the buffer fit an `int`, then it stores as much of the text
as fits, with a terminator, writes nothing else, and returns the length of the text. -/
theorem vsnkprintf_truncates {fuel buffer bufSize : ℕ} {format : List (BitVec 8)}
    {args : List (BitVec 64)} {out : List (BitVec 8)}
    (hout : vkprintf m fuel format args = .ok out) (hlen : out.length < 2 ^ 31)
    (hsize : bufSize ≤ 2 ^ 31)
    (hapart : ∀ a ∈ stringArgs fuel format args, a ≠ 0 → Apart m a.toNat buffer bufSize) :
    ∃ m', vsnkprintf fuel m buffer bufSize format args = .ok (m', out.length) ∧
      (∀ i < min out.length (bufSize - 1), out[i]? = some (m' (buffer + i))) ∧
      (0 < bufSize → m' (buffer + min out.length (bufSize - 1)) = 0) ∧
      ∀ x, (x < buffer ∨ buffer + bufSize ≤ x) → m' x = m x := by
  have hmax : int32 (if 0 < bufSize then (bufSize : ℤ) - 1 else 0) = ((bufSize - 1 : ℕ) : ℤ) := by
    rw [int32_eq (by split_ifs <;> omega) (by split_ifs <;> omega)]
    split_ifs <;> omega
  obtain ⟨aux, haux, hlength, -, hp, hinside, houtside⟩ := stored_vkprintfTo hout hlen hapart
  rw [vsnkprintf]
  simp only [hmax, haux, bind, Except.bind, hlength]
  by_cases hpos : 0 < bufSize
  · refine ⟨_, rfl, fun i hi => ?_, fun _ => ?_, fun x hx => ?_⟩
    · rw [if_pos hpos, Mem.store8_of_ne (by omega), hinside i hi]
    · rw [if_pos hpos, hp, Mem.store8_self]
    · rw [if_pos hpos, Mem.store8_of_ne (by omega), houtside x (by omega)]
  · refine ⟨_, rfl, fun i hi => absurd hi (by omega), fun h => absurd h hpos, fun x hx => ?_⟩
    rw [if_neg hpos, houtside x (by omega)]

/-- The string `hello` at `p`. -/
def helloAt (p : ℕ) : Mem := fun x =>
  if p ≤ x then constMem (chars "hello") (x - p) else 0

theorem vsnkprintf_truncates_hello :
    ∃ m', vsnkprintf 10 (helloAt 80) 64 4 (chars "%s" ++ [0]) [80] =
        .ok (m', ((chars "hello").length : ℕ)) ∧
      (∀ i < min (chars "hello").length (4 - 1), (chars "hello")[i]? = some (m' (64 + i))) ∧
      (0 < 4 → m' (64 + min (chars "hello").length (4 - 1)) = 0) ∧
      ∀ x, (x < 64 ∨ 64 + 4 ≤ x) → m' x = helloAt 80 x :=
  vsnkprintf_truncates (by decide +kernel) (by decide) (by norm_num) (by
    intro a ha _ i _
    have hargs : stringArgs 10 (chars "%s" ++ [0]) [80] = [80] := by decide +kernel
    obtain rfl := List.mem_singleton.mp (hargs ▸ ha)
    exact Or.inr (by simp only [BitVec.reduceToNat]; omega))

end

end AnglOS
