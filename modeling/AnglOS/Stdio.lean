import AnglOS.Libc

/-!
# Formatted Output

The formatter of `kernel/libc/stdio.c`. A format is the list of the bytes from the format pointer to
the end of the string constant, the terminator included; `Fault.pastFormat` is a read behind them.
The arguments are the 64-bit slots that `va_arg` takes one after the other. The `output` function
of the source is a `Sink`, which may write to the memory that strings are read from; for one that
does not, the characters that the formatter gives to it are a list.

On this machine `va_list` is an array type, so the `&args` that `__vkprintf` gives to
`parse_conversion` is the address of a pointer and no `va_list *`. A width or a precision `*`
reads an argument through it; this is undefined and `Fault.vaList` here.

* `parseConversion`, `formatInteger`, `formatString`, `vkprintf` — the formatter;
* `vkprintfTo` — the formatter with its `output` function;
* `vsnkprintf` — formatted output to a buffer.
-/

namespace AnglOS

/-- A character constant. -/
def chr (c : Char) : BitVec 8 :=
  BitVec.ofNat 8 c.toNat

/-- The bytes of a string constant, without its terminator. -/
def chars (s : String) : List (BitVec 8) :=
  s.toList.map chr

/-- A value of type `int` after an operation. -/
@[irreducible]
def int32 (x : ℤ) : ℤ :=
  x.bmod (2 ^ 32)

/-- The conversion to `size_t`. -/
def sizeT (x : ℤ) : ℕ :=
  (x % 2 ^ 64).toNat

/-- `isdigit`. -/
def isdigit (c : BitVec 8) : Bool :=
  48 ≤ c.toNat ∧ c.toNat ≤ 57

/-- `strnlen`, which has counted `length` characters. `none` means that it goes on. -/
def strnlenLoop (m : Mem) (string maxlen : ℕ) : ℕ → ℕ → Option ℕ
  | 0, _ => none
  | fuel + 1, length =>
    if m (string + length) ≠ 0 ∧ length < maxlen then
      strnlenLoop m string maxlen fuel (length + 1)
    else some length

/-- `strnlen`. -/
def strnlen (fuel : ℕ) (m : Mem) (string maxlen : ℕ) : Option ℕ :=
  strnlenLoop m string maxlen fuel 0

/-! ### Conversions -/

/-- What can go wrong in the formatter: a read behind the format, an argument that is not there,
an argument that is taken through a pointer of a wrong type, or more rounds than allowed. -/
inductive Fault
  | pastFormat
  | noArgument
  | vaList
  | rounds
  deriving DecidableEq, Repr

/-- The flags of a conversion. -/
structure ConvFlags where
  minus : Bool := false
  plus : Bool := false
  space : Bool := false
  pound : Bool := false
  zero : Bool := false
  group : Bool := false
  deriving DecidableEq, Repr

/-- The types of an argument. -/
inductive ConvType
  | char
  | short
  | int
  | intmax
  | long
  | longlong
  | ptrdifft
  | sizet
  deriving DecidableEq, Repr

/-- `struct kprintf_conversion`. -/
structure KprintfConversion where
  flags : ConvFlags
  width : ℤ
  precision : ℤ
  type : ConvType
  deriving DecidableEq, Repr

/-- The loop over the flag characters. -/
def parseFlags : List (BitVec 8) → ConvFlags → Except Fault (ConvFlags × List (BitVec 8))
  | [], _ => .error .pastFormat
  | c :: format, flags =>
    if c = chr '-' then parseFlags format { flags with minus := true }
    else if c = chr '+' then parseFlags format { flags with plus := true }
    else if c = chr ' ' then parseFlags format { flags with space := true }
    else if c = chr '#' then parseFlags format { flags with pound := true }
    else if c = chr '0' then parseFlags format { flags with zero := true }
    else if c = 39 then parseFlags format { flags with group := true }
    else .ok (flags, c :: format)

/-- The loops over the digits of a width or a precision. -/
def parseDigits : List (BitVec 8) → ℤ → Except Fault (ℤ × List (BitVec 8))
  | [], _ => .error .pastFormat
  | c :: format, n =>
    if isdigit c then parseDigits format (int32 (n * 10 + c.toInt - 48)) else .ok (n, c :: format)

/-- The field width of a conversion. -/
def parseWidth : List (BitVec 8) → Except Fault (ℤ × List (BitVec 8))
  | [] => .error .pastFormat
  | c :: format => if c = chr '*' then .error .vaList else parseDigits (c :: format) 0

/-- The precision of a conversion. -/
def parsePrecision : List (BitVec 8) → Except Fault (ℤ × List (BitVec 8))
  | [] => .error .pastFormat
  | c :: format =>
    if c = chr '.' then
      match format with
      | [] => .error .pastFormat
      | c :: format =>
        if c = chr '*' then .error .vaList
        else do
          let (precision, format) ← parseDigits (c :: format) 0
          .ok (if precision < 0 then -1 else precision, format)
    else .ok (-1, c :: format)

/-- The type of a conversion. -/
def parseType : List (BitVec 8) → Except Fault (ConvType × List (BitVec 8))
  | [] => .error .pastFormat
  | c :: format =>
    if c = chr 'h' then
      match format with
      | [] => .error .pastFormat
      | d :: format' =>
        if d = chr 'h' then .ok (.char, format') else .ok (.short, format)
    else if c = chr 'j' then .ok (.intmax, format)
    else if c = chr 'l' then
      match format with
      | [] => .error .pastFormat
      | d :: format' =>
        if d = chr 'l' then .ok (.longlong, format') else .ok (.long, format)
    else if c = chr 't' then .ok (.ptrdifft, format)
    else if c = chr 'z' then .ok (.sizet, format)
    else .ok (.int, c :: format)

/-- The flags that switch off another one. -/
def ConvFlags.resolve (flags : ConvFlags) : ConvFlags :=
  let flags := if flags.minus then { flags with zero := false } else flags
  if flags.plus then { flags with space := false } else flags

/-- A negative width sets the flag `-`. -/
def ConvFlags.forWidth (flags : ConvFlags) (width : ℤ) : ConvFlags :=
  if width < 0 then { flags with minus := true } else flags

/-- The width that is used for a negative one. -/
def absWidth (width : ℤ) : ℤ :=
  if width < 0 then int32 (-width) else width

/-- A precision switches off the flag `0`. -/
def ConvFlags.forPrecision (flags : ConvFlags) (precision : ℤ) : ConvFlags :=
  if 0 ≤ precision then { flags with zero := false } else flags

/-- `parse_conversion`. -/
def parseConversion (format : List (BitVec 8)) :
    Except Fault (KprintfConversion × List (BitVec 8)) := do
  let (flags, format) ← parseFlags format {}
  let flags := flags.resolve
  let (width, format) ← parseWidth format
  let flags := flags.forWidth width
  let width := absWidth width
  let (precision, format) ← parsePrecision format
  let flags := flags.forPrecision precision
  let (type, format) ← parseType format
  .ok (⟨flags, width, precision, type⟩, format)

/-! ### Numbers and strings -/

/-- `struct integer_base`. The letter `x` is 0 for none. -/
structure IntegerBase where
  base : ℕ
  digits : List (BitVec 8)
  x : BitVec 8
  group : ℕ
  one_lt_base : 1 < base

/-- `base_d`. -/
def baseD : IntegerBase := ⟨10, chars "0123456789", 0, 3, by decide⟩

/-- `base_o`. -/
def baseO : IntegerBase := ⟨8, chars "01234567", 0, 3, by decide⟩

/-- `base_x`. -/
def baseX : IntegerBase := ⟨16, chars "0123456789abcdef", chr 'x', 4, by decide⟩

/-- `base_X`. -/
def baseXUpper : IntegerBase := ⟨16, chars "0123456789ABCDEF", chr 'X', 4, by decide⟩

/-- The loop that puts the digits of `value` into `buf`, the last digit first. -/
def digitLoop (b : IntegerBase) (flags : ConvFlags) (value digitCnt : ℕ) (buf : List (BitVec 8)) :
    List (BitVec 8) :=
  if h : 0 < value then
    let buf := if flags.group ∧ 0 < digitCnt ∧ digitCnt % b.group = 0 then buf ++ [chr ','] else buf
    let buf := buf ++ [b.digits.getD (value % b.base) 0]
    digitLoop b flags (value / b.base) (digitCnt + 1) buf
  else buf
  termination_by value
  decreasing_by exact Nat.div_lt_self h b.one_lt_base

/-- The loop that puts zeros into `buf`, which has 64 bytes. -/
def precisionLoop (precision : ℤ) (buf : List (BitVec 8)) : List (BitVec 8) :=
  if (buf.length : ℤ) < precision ∧ buf.length < 64 - 1 then
    precisionLoop precision (buf ++ [chr '0'])
  else buf
  termination_by 64 - buf.length
  decreasing_by
    rw [List.length_append, List.length_singleton]
    omega

/-- What `format_integer` has in `buf` when it starts to write, the last character first. -/
def integerBuf (value : ℕ) (b : IntegerBase) (c : KprintfConversion) : List (BitVec 8) :=
  let buf := digitLoop b c.flags value 0 []
  let precision := if c.precision < 0 then 1 else c.precision
  let buf := precisionLoop precision buf
  if c.flags.pound ∧ b.base = 8 ∧ (buf = [] ∨ buf.getLast? ≠ some (chr '0')) then
    buf ++ [chr '0']
  else buf

/-- The sign character of `format_integer`, 0 for none. -/
def signChar (isSigned negative : Bool) (flags : ConvFlags) : BitVec 8 :=
  if isSigned then
    if flags.plus then if negative then chr '-' else chr '+'
    else if flags.space then if negative then chr '-' else chr ' '
    else if negative then chr '-' else 0
  else 0

/-- The letter that `format_integer` puts behind a leading zero, 0 for none. -/
def xChar (value : ℕ) (b : IntegerBase) (flags : ConvFlags) : BitVec 8 :=
  if flags.pound ∧ value ≠ 0 then b.x else 0

/-- `output_dup`. -/
def outputDup (ch : BitVec 8) (cnt : ℕ) : List (BitVec 8) :=
  List.replicate cnt ch

/-- `format_integer`. -/
def formatInteger (value : ℕ) (isSigned negative : Bool) (b : IntegerBase)
    (c : KprintfConversion) : List (BitVec 8) :=
  let sign := signChar isSigned negative c.flags
  let x := xChar value b c.flags
  let buf := integerBuf value b c
  let padCnt := int32 (c.width - buf.length - (if x ≠ 0 then 2 else 0) -
    (if sign ≠ 0 then 1 else 0))
  let padCnt := if padCnt < 0 then 0 else padCnt
  (if ¬c.flags.minus ∧ ¬c.flags.zero then outputDup (chr ' ') (sizeT padCnt) else []) ++
    (if sign ≠ 0 then [sign] else []) ++
    (if x ≠ 0 then [chr '0', x] else []) ++
    (if c.flags.zero then outputDup (chr '0') (sizeT padCnt) else []) ++
    buf.reverse ++
    if c.flags.minus then outputDup (chr ' ') (sizeT padCnt) else []

/-- `format_string`. -/
def formatString (m : Mem) (string : ℕ) (length : ℤ) (c : KprintfConversion) : List (BitVec 8) :=
  (if length < c.width ∧ ¬c.flags.minus then outputDup (chr ' ') (sizeT (int32 (c.width - length)))
    else []) ++
    (List.range length.toNat).map (fun i => m (string + i)) ++
    if length < c.width ∧ c.flags.minus then outputDup (chr ' ') (sizeT (int32 (c.width - length)))
    else []

/-! ### The formatter -/

/-- The argument of `%d` and `%i`. -/
def signedArgument (type : ConvType) (a : BitVec 64) : ℤ :=
  match type with
  | .char => (a.setWidth 8).toInt
  | .short => (a.setWidth 16).toInt
  | .int => (a.setWidth 32).toInt
  | .intmax => a.toInt
  | .long => a.toInt
  | .longlong => a.toInt
  | .ptrdifft => a.toInt
  | .sizet =>
    if (2 ^ 64 - 1) / 2 < a.toNat then (a - BitVec.ofNat 64 (2 ^ 64 - 1) - 1).toInt else a.toInt

/-- The argument of `%o`, `%u`, `%x` and `%X`. -/
def unsignedArgument (type : ConvType) (a : BitVec 64) : ℕ :=
  match type with
  | .char => (a.setWidth 8).toNat
  | .short => (a.setWidth 16).toNat
  | .int => (a.setWidth 32).toNat
  | .intmax => a.toNat
  | .long => a.toNat
  | .longlong => a.toNat
  | .ptrdifft => (a &&& (BitVec.ofNat 64 (2 ^ 63 - 1) <<< 1 ||| 1)).toNat
  | .sizet => a.toNat

/-- The next argument. -/
def vaArg : List (BitVec 64) → Except Fault (BitVec 64 × List (BitVec 64))
  | [] => .error .noArgument
  | a :: args => .ok (a, args)

/-- A string constant in memory, at address 0. -/
def constMem (s : List (BitVec 8)) : Mem :=
  fun i => s.getD i 0

/-- `%s`. -/
def formatPointer (m : Mem) (fuel : ℕ) (c : KprintfConversion) (s : ℕ) :
    Except Fault (List (BitVec 8)) :=
  let (m, s) := if s = 0 then (constMem (chars "(null)"), 0) else (m, s)
  match strnlen fuel m s (sizeT c.precision) with
  | none => .error .rounds
  | some length => .ok (formatString m s (int32 length) c)

/-- The characters of `d` and `i`, of the unsigned conversions, of `c`, `s` and `p`, and of the
letters that the kernel does not have, which are printed by a call of the formatter itself. -/
def doConversion (m : Mem) (fuel : ℕ)
    (kprintf : List (BitVec 8) → List (BitVec 64) → Except Fault (List (BitVec 8)))
    (c : KprintfConversion) (letter : BitVec 8) (args : List (BitVec 64)) :
    Except Fault (List (BitVec 8) × List (BitVec 64)) :=
  if letter = chr 'd' ∨ letter = chr 'i' then do
    let (a, args) ← vaArg args
    let value := signedArgument c.type a
    .ok (formatInteger value.natAbs true (value < 0) baseD c, args)
  else if letter = chr 'o' ∨ letter = chr 'u' ∨ letter = chr 'x' ∨ letter = chr 'X' then do
    let (a, args) ← vaArg args
    let b := if letter = chr 'o' then baseO else if letter = chr 'u' then baseD
      else if letter = chr 'x' then baseX else baseXUpper
    .ok (formatInteger (unsignedArgument c.type a) false false b c, args)
  else if letter = chr 'c' then do
    let (a, args) ← vaArg args
    .ok (formatString (constMem [a.setWidth 8]) 0 1 c, args)
  else if letter = chr 's' then do
    let (a, args) ← vaArg args
    let out ← formatPointer m fuel c a.toNat
    .ok (out, args)
  else if letter = chr 'p' then do
    let (a, args) ← vaArg args
    .ok (formatInteger a.toNat false false baseX { c with flags := { pound := true } }, args)
  else if letter = chr 'f' ∨ letter = chr 'e' ∨ letter = chr 'E' ∨ letter = chr 'g' ∨
      letter = chr 'G' ∨ letter = chr 'n' then do
    let out ← kprintf (chars "<<no %%%c in kernel>>" ++ [0]) [letter.signExtend 64]
    .ok (out, args)
  else do
    let out ← kprintf (chars "<<no %%%c conversion>>" ++ [0]) [letter.signExtend 64]
    .ok (out, args)

/-- `__vkprintf` for an `output` that leaves the memory alone: the characters that it gives to
`output`, in order. -/
def vkprintf (m : Mem) : ℕ → List (BitVec 8) → List (BitVec 64) → Except Fault (List (BitVec 8))
  | 0, _, _ => .error .rounds
  | _ + 1, [], _ => .error .pastFormat
  | fuel + 1, ch :: format, args =>
    if ch = 0 then .ok []
    else if ch ≠ chr '%' then do
      let out ← vkprintf m fuel format args
      .ok (ch :: out)
    else
      match format with
      | [] => .error .pastFormat
      | ch :: format' =>
        if ch = chr '%' then do
          let out ← vkprintf m fuel format' args
          .ok (chr '%' :: out)
        else do
          let (c, format) ← parseConversion format
          match format with
          | [] => .error .pastFormat
          | letter :: format => do
            let (text, args) ← doConversion m fuel (vkprintf m fuel) c letter args
            let out ← vkprintf m fuel format args
            .ok (text ++ out)

/-! ### Output through a function -/

/-- An `output` function with its `aux`: what a character does to `aux`, and the memory then. -/
structure Sink (σ : Type) where
  output : σ → BitVec 8 → σ
  mem : σ → Mem

section

variable {σ : Type} (k : Sink σ)

/-- Characters are given to `output` one after the other. -/
def Sink.outputs (aux : σ) (text : List (BitVec 8)) : σ :=
  text.foldl k.output aux

/-- `format_string`, which reads each character when it is its turn. `mem` is where the string
is. -/
def formatStringTo (mem : σ → Mem) (string : ℕ) (length : ℤ) (c : KprintfConversion) (aux : σ) :
    σ :=
  let aux := k.outputs aux (if length < c.width ∧ ¬c.flags.minus then
    outputDup (chr ' ') (sizeT (int32 (c.width - length))) else [])
  let aux := (List.range length.toNat).foldl (fun aux i => k.output aux (mem aux (string + i))) aux
  k.outputs aux (if length < c.width ∧ c.flags.minus then
    outputDup (chr ' ') (sizeT (int32 (c.width - length))) else [])

/-- `%s`. -/
def formatPointerTo (fuel : ℕ) (c : KprintfConversion) (s : ℕ) (aux : σ) : Except Fault σ :=
  let (mem, s) := if s = 0 then (fun _ => constMem (chars "(null)"), 0) else (k.mem, s)
  match strnlen fuel (mem aux) s (sizeT c.precision) with
  | none => .error .rounds
  | some length => .ok (formatStringTo k mem s (int32 length) c aux)

/-- The conversions of `__vkprintf`. -/
def doConversionTo (fuel : ℕ)
    (kprintf : List (BitVec 8) → List (BitVec 64) → σ → Except Fault σ) (c : KprintfConversion)
    (letter : BitVec 8) (args : List (BitVec 64)) (aux : σ) :
    Except Fault (σ × List (BitVec 64)) :=
  if letter = chr 'd' ∨ letter = chr 'i' then do
    let (a, args) ← vaArg args
    let value := signedArgument c.type a
    .ok (k.outputs aux (formatInteger value.natAbs true (value < 0) baseD c), args)
  else if letter = chr 'o' ∨ letter = chr 'u' ∨ letter = chr 'x' ∨ letter = chr 'X' then do
    let (a, args) ← vaArg args
    let b := if letter = chr 'o' then baseO else if letter = chr 'u' then baseD
      else if letter = chr 'x' then baseX else baseXUpper
    .ok (k.outputs aux (formatInteger (unsignedArgument c.type a) false false b c), args)
  else if letter = chr 'c' then do
    let (a, args) ← vaArg args
    .ok (formatStringTo k (fun _ => constMem [a.setWidth 8]) 0 1 c aux, args)
  else if letter = chr 's' then do
    let (a, args) ← vaArg args
    let aux ← formatPointerTo k fuel c a.toNat aux
    .ok (aux, args)
  else if letter = chr 'p' then do
    let (a, args) ← vaArg args
    let out := formatInteger a.toNat false false baseX { c with flags := { pound := true } }
    .ok (k.outputs aux out, args)
  else if letter = chr 'f' ∨ letter = chr 'e' ∨ letter = chr 'E' ∨ letter = chr 'g' ∨
      letter = chr 'G' ∨ letter = chr 'n' then do
    let aux ← kprintf (chars "<<no %%%c in kernel>>" ++ [0]) [letter.signExtend 64] aux
    .ok (aux, args)
  else do
    let aux ← kprintf (chars "<<no %%%c conversion>>" ++ [0]) [letter.signExtend 64] aux
    .ok (aux, args)

/-- `__vkprintf`: the `aux` that it leaves. -/
def vkprintfTo : ℕ → List (BitVec 8) → List (BitVec 64) → σ → Except Fault σ
  | 0, _, _, _ => .error .rounds
  | _ + 1, [], _, _ => .error .pastFormat
  | fuel + 1, ch :: format, args, aux =>
    if ch = 0 then .ok aux
    else if ch ≠ chr '%' then vkprintfTo fuel format args (k.output aux ch)
    else
      match format with
      | [] => .error .pastFormat
      | ch :: format' =>
        if ch = chr '%' then vkprintfTo fuel format' args (k.output aux (chr '%'))
        else do
          let (c, format) ← parseConversion format
          match format with
          | [] => .error .pastFormat
          | letter :: format => do
            let (aux, args) ← doConversionTo k fuel (vkprintfTo fuel) c letter args aux
            vkprintfTo fuel format args aux

end

/-! ### Output to a buffer -/

/-- `struct vsnkprintf_aux`, with the memory that holds the buffer. -/
structure VsnkprintfAux where
  mem : Mem
  p : ℕ
  length : ℤ
  maxLength : ℤ

/-- `vsnkprintf_helper`. -/
def vsnkprintfHelper (aux : VsnkprintfAux) (ch : BitVec 8) : VsnkprintfAux :=
  let aux' := { aux with length := int32 (aux.length + 1) }
  if aux.length < aux.maxLength then
    { aux' with mem := aux.mem.store8 aux.p ch, p := aux.p + 1 }
  else aux'

/-- `vsnkprintf`: the memory that it leaves, and the length that it returns. The format is read from
outside of the buffer. -/
def vsnkprintf (fuel : ℕ) (m : Mem) (buffer bufSize : ℕ) (format : List (BitVec 8))
    (args : List (BitVec 64)) : Except Fault (Mem × ℤ) := do
  let maxLength := int32 (if 0 < bufSize then bufSize - 1 else 0)
  let aux ← vkprintfTo ⟨vsnkprintfHelper, VsnkprintfAux.mem⟩ fuel format args
    ⟨m, buffer, 0, maxLength⟩
  .ok (if 0 < bufSize then aux.mem.store8 aux.p 0 else aux.mem, aux.length)

end AnglOS
