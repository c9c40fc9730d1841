import AnglOS.Elf
import AnglOS.Libc
import AnglOS.Loop

/-!
# The Shell

The loop of the kernel's shell (`mainLoop` of `kernel/boot/kernel.c`), which edits a line in a
buffer that grows by 16 bytes. The buffer is the memory from `linebuf` on. Beside the variables of
the source the state has a record of the accesses to the buffer, each with the bytes that were
requested for the buffer then, and of the strings that the buffer held at each line feed.

## Main results

* `Shell.Edits.step` — what one byte does to the buffer, when it fits;
* `shell_lines_iff` — over every run: the accesses are inside the buffer and the lines are those
  that were typed exactly when each byte fits the state in which it arrives.
-/

namespace AnglOS

/-! ### The line buffer -/

/-- `SCREEN_CLEAR`. -/
abbrev screenClear : BitVec 8 := 0x90

/-- `CURSOR_EN`. -/
abbrev cursorEn : BitVec 8 := 0x91

/-- `CURSOR_DS`. -/
abbrev cursorDs : BitVec 8 := 0x92

/-- `'\n'`. -/
abbrev lineFeed : BitVec 8 := 10

/-- `'\b'`. -/
abbrev backspace : BitVec 8 := 8

/-- The bytes of a string constant. -/
def ascii (s : String) : List (BitVec 8) :=
  s.toList.map fun c => BitVec.ofNat 8 c.toNat

/-- The characters that `%s` prints, at most `n`. -/
def stringAt (m : Mem) : ℕ → ℕ → List (BitVec 8)
  | _, 0 => []
  | p, n + 1 => if m p = 0 then [] else m p :: stringAt m (p + 1) n

/-- How many bytes at `p` `strncmp` reads to compare them with those of a constant. -/
def strncmpReads (m : Mem) : ℕ → List (BitVec 8) → ℕ
  | _, [] => 0
  | p, c :: s => if m p = c then strncmpReads m (p + 1) s + 1 else 1

/-- An access to the buffer: its first byte, its length, and the bytes requested for the buffer. -/
structure BufferAccess where
  offset : ℕ
  length : ℕ
  room : ℕ
  deriving DecidableEq

/-- The access lies inside what was requested. -/
def BufferAccess.Inside (a : BufferAccess) : Prop :=
  a.offset + a.length ≤ a.room

/-- The variables of the shell, the memory from `linebuf` on, what was printed, and the records. -/
structure Shell where
  linebuf : Mem
  requested : ℕ
  size : ℕ
  num : ℕ
  output : List (BitVec 8)
  accesses : List BufferAccess
  lines : List (List (BitVec 8))

/-- `kprintf`. -/
def Shell.kprintf (s : Shell) (t : List (BitVec 8)) : Shell :=
  { s with output := s.output ++ t }

/-- An access to `length` bytes of the buffer. -/
def Shell.touch (s : Shell) (offset length : ℕ) : Shell :=
  { s with accesses := s.accesses ++ [⟨offset, length, s.requested⟩] }

/-- The shell before the first byte, with a buffer of `size + 1` zero bytes. -/
def Shell.start (junk : Mem) : Shell where
  linebuf := fun x => if x < 17 then 0 else junk x
  requested := 17
  size := 16
  num := 0
  output := ascii "> "
  accesses := []
  lines := []

/-- The store of a byte. -/
def Shell.put (s : Shell) (i : ℕ) (c : BitVec 8) : Shell :=
  { s.touch i 1 with linebuf := s.linebuf.store8 i c }

/-- A new prompt: `num` is reset and the buffer is cleared. The sum is one of 32-bit integers. -/
def Shell.prompt (s : Shell) : Shell :=
  { (s.kprintf (ascii "> ")).touch 0 ((s.size + 1) % 2 ^ 32) with
    num := 0
    linebuf := memset s.linebuf 0 0 ((s.size + 1) % 2 ^ 32) }

/-- The buffer grows when it is full. `krealloc` keeps the bytes that were requested before, and the
others are any. -/
def Shell.grow (s : Shell) (junk : Mem) : Shell :=
  if s.num = s.size then
    let size := (s.size + 16) % 2 ^ 32
    { s with
      linebuf := fun x => if x < s.requested then s.linebuf x else junk x
      requested := size
      size := size }
  else s

/-- The test `!strncmp(linebuf, command, n)`, of all the `n` characters of the constant. -/
def isCommand (m : Mem) (command : List (BitVec 8)) : Prop :=
  strncmp m (fun k => command.getD k 0) command.length = 0

instance isCommand.instDecidable (m : Mem) (command : List (BitVec 8)) :
    Decidable (isCommand m command) :=
  inferInstanceAs (Decidable (_ = _))

/-- What a line makes the shell read, by the lengths from the start of the buffer, and what it
prints. Both commands go on here: the one powers an emulator off, and the other returns from
`threadSelect` when no thread was created. -/
def shellCommand (m : Mem) (line : List (BitVec 8)) : List ℕ × List (BitVec 8) :=
  let q := strncmpReads m 0 (ascii "q")
  if isCommand m (ascii "q") then ([q], ascii "Exiting...")
  else
    let run := strncmpReads m 0 (ascii "run")
    if isCommand m (ascii "run") then ([q, run], [])
    else ([q, run, line.length + 1], line ++ [lineFeed])

/-- The case of a line feed. -/
def Shell.newline (s : Shell) : Shell :=
  let line := stringAt s.linebuf 0 (2 ^ 64 - 1)
  let command := shellCommand s.linebuf line
  { s with
    output := s.output ++ [lineFeed] ++ command.2
    accesses := s.accesses ++ command.1.map fun n => BufferAccess.mk 0 n s.requested
    lines := s.lines ++ [line] }.prompt

/-- One round of `mainLoop`, for the byte `c`. -/
def Shell.mainLoop (s : Shell) (c : BitVec 8) (junk : Mem) : Shell :=
  if c = lineFeed then s.newline
  else if c = backspace then
    if s.num ≠ 0 then
      let s := s.put s.num 0
      { s with num := s.num - 1 }.kprintf [backspace]
    else s
  else
    let s := s.grow junk
    let s :=
      if c ≠ cursorEn ∧ c ≠ cursorDs then
        let s := s.put s.num c
        { s with num := (s.num + 1) % 2 ^ 32 }
      else s
    let s := s.kprintf [c]
    if c = screenClear then s.prompt else s

/-! ### What was typed -/

/-- The lines that were ended, and the one being typed. -/
structure Typed where
  lines : List (List (BitVec 8))
  line : List (BitVec 8)
  deriving DecidableEq

/-- **What a byte does to the line being typed.** -/
def Typed.key (t : Typed) (c : BitVec 8) : Typed :=
  if c = lineFeed then ⟨t.lines ++ [t.line], []⟩
  else if c = backspace then { t with line := t.line.dropLast }
  else if c = screenClear then { t with line := [] }
  else if c = cursorEn ∨ c = cursorDs then t
  else { t with line := t.line ++ [c] }

/-- What was typed by a sequence of bytes. -/
def typed (cs : List (BitVec 8)) : Typed :=
  cs.foldl Typed.key ⟨[], []⟩

/-- **The line buffer implements line editing in bounds.** -/
structure Shell.Right (s : Shell) (cs : List (BitVec 8)) : Prop where
  inside : ∀ a ∈ s.accesses, a.Inside
  lines : s.lines = (typed cs).lines

/-- A round for a byte that is not NUL, in which `krealloc` gives what it is asked for: the sum of
32-bit integers is not zero. -/
def ShellStep (i : BitVec 8 × Mem) (s s' : Shell) : Prop :=
  i.1 ≠ 0 ∧ s' = s.mainLoop i.1 i.2 ∧
    (i.1 ≠ lineFeed → i.1 ≠ backspace → s.num = s.size → s.size + 16 < 2 ^ 32)

/-- **The byte fits the state**: a line feed comes before the buffer has grown, and with no erased
byte left behind the line; a clear comes before it has grown and does not make it grow; a backspace
has a byte of the buffer to write to. -/
structure Shell.Fits (s : Shell) (c : BitVec 8) : Prop where
  lineFeed : c = lineFeed → s.size < s.requested ∧ s.linebuf s.num = 0
  screenClear : c = screenClear → s.size < s.requested ∧ s.num ≠ s.size
  backspace : c = backspace → s.num = 0 ∨ s.num < s.requested

/-- A round for a byte that fits. -/
def FitStep (i : BitVec 8 × Mem) (s s' : Shell) : Prop :=
  ShellStep i s s' ∧ s.Fits i.1

/-! ### Strings in the buffer -/

section

variable {m : Mem} {p n : ℕ} {t : List (BitVec 8)}

/-- The bytes of a line and a NUL behind it make a string. -/
theorem CString.of_getElem (hbytes : ∀ i (hi : i < t.length), m (p + i) = t[i])
    (hne : ∀ c ∈ t, c ≠ 0) (hend : m (p + t.length) = 0) : CString m p t := by
  induction t generalizing p with
  | nil => exact hend
  | cons c t ih =>
    refine ⟨hbytes 0 (by simp), hne c (by simp),
      ih (fun i hi => ?_) (fun d hd => hne d (by simp [hd])) ?_⟩
    · rw [show p + 1 + i = p + (i + 1) by omega]
      exact hbytes (i + 1) (by simpa using hi)
    · rw [show p + 1 + t.length = p + (t.length + 1) by omega]
      exact hend

/-- What is printed of a string. -/
theorem stringAt_eq (h : CString m p t) (hn : t.length ≤ n) : stringAt m p n = t := by
  induction t generalizing p n with
  | nil =>
    cases n with
    | zero => rfl
    | succ n => exact if_pos h
  | cons c t ih =>
    obtain ⟨rfl, hne, htail⟩ := h
    obtain ⟨n, rfl⟩ : ∃ k, n = k + 1 := ⟨n - 1, by simp only [List.length_cons] at hn; omega⟩
    rw [stringAt, if_neg hne, ih htail (by simpa using hn)]

/-- Behind what is printed there is a NUL. -/
theorem eq_zero_of_stringAt (h : stringAt m p n = t) (hn : t.length < n) :
    m (p + t.length) = 0 := by
  induction n generalizing p t with
  | zero => omega
  | succ n ih =>
    rw [stringAt] at h
    split_ifs at h with h0
    · rw [← h]
      exact h0
    · subst h
      rw [List.length_cons, show ∀ k, p + (k + 1) = p + 1 + k by omega]
      exact ih rfl (by simpa using hn)

/-- A comparison reads no more than the constant has. -/
theorem strncmpReads_le (m : Mem) (p : ℕ) (t : List (BitVec 8)) :
    strncmpReads m p t ≤ t.length := by
  induction t generalizing p with
  | nil => exact le_rfl
  | cons c t ih =>
    rw [strncmpReads, List.length_cons]
    have := ih (p + 1)
    split_ifs <;> omega

end

/-! ### One round -/

/-- The sizes are in step, and every access was inside the buffer. -/
structure Shell.Sound (s : Shell) : Prop where
  size_le : s.size ≤ s.requested
  requested_le : s.requested ≤ s.size + 1
  size_mod : s.size % 16 = 0
  le_size : 16 ≤ s.size
  size_lt : s.size < 2 ^ 32
  inside : ∀ a ∈ s.accesses, a.Inside

/-- **The buffer holds what was typed.** -/
structure Shell.Edits (s : Shell) (t : Typed) : Prop extends s.Sound where
  num : s.num = t.line.length
  bytes : ∀ i (hi : i < t.line.length), s.linebuf i = t.line[i]
  ne_zero : ∀ c ∈ t.line, c ≠ 0
  num_le : s.num ≤ s.size
  lines : s.lines = t.lines

section

variable {s s' : Shell} {t : Typed} {c : BitVec 8} {junk : Mem}

/-- The reads of a line feed are short. -/
theorem shellCommand_reads (m : Mem) (line : List (BitVec 8)) :
    ∀ n ∈ (shellCommand m line).1, n ≤ max 3 (line.length + 1) := by
  have hq : strncmpReads m 0 (ascii "q") ≤ 1 := strncmpReads_le _ _ _
  have hrun : strncmpReads m 0 (ascii "run") ≤ 3 := strncmpReads_le _ _ _
  intro n hn
  simp only [shellCommand] at hn
  split_ifs at hn <;> simp only [List.mem_cons, List.not_mem_nil, or_false] at hn <;> omega

/-- Accesses inside the buffer. -/
theorem Shell.Sound.append (h : s.Sound) {as : List BufferAccess}
    (haccesses : s'.accesses = s.accesses ++ as) (hsize : s'.size = s.size)
    (hrequested : s'.requested = s.requested) (has : ∀ a ∈ as, a.Inside) : s'.Sound where
  size_le := by rw [hsize, hrequested]; exact h.size_le
  requested_le := by rw [hsize, hrequested]; exact h.requested_le
  size_mod := by rw [hsize]; exact h.size_mod
  le_size := by rw [hsize]; exact h.le_size
  size_lt := by rw [hsize]; exact h.size_lt
  inside := by
    intro a ha
    rw [haccesses, List.mem_append] at ha
    exact ha.elim (h.inside a) (has a)

/-- The memory that a prompt clears is the buffer and one byte more than its size. -/
theorem Shell.Sound.clear_eq (h : s.Sound) : (s.size + 1) % 2 ^ 32 = s.size + 1 := by
  have := h.size_mod
  have := h.size_lt
  omega

/-- A prompt before the buffer has grown. -/
theorem Shell.Sound.prompt (h : s.Sound) (hroom : s.size < s.requested) :
    s.prompt.Edits ⟨s.lines, []⟩ where
  toSound := h.append rfl rfl rfl (by
    simp only [List.mem_singleton, forall_eq, BufferAccess.Inside, Shell.kprintf]
    rw [h.clear_eq]
    omega)
  num := rfl
  bytes := by simp
  ne_zero := by simp
  num_le := Nat.zero_le _
  lines := rfl

/-- **A line feed** before the buffer has grown, with a NUL behind the line. -/
theorem Shell.Edits.newline (h : s.Edits t) (hroom : s.size < s.requested)
    (hend : s.linebuf s.num = 0) : s.newline.Edits (t.key lineFeed) := by
  have hstring : CString s.linebuf 0 t.line := by
    refine CString.of_getElem (fun i hi => ?_) h.ne_zero ?_
    · rw [Nat.zero_add, h.bytes i hi]
    · rw [Nat.zero_add, ← h.num, hend]
  have hline : stringAt s.linebuf 0 (2 ^ 64 - 1) = t.line := by
    refine stringAt_eq hstring ?_
    have := h.num_le
    have := h.size_lt
    have := h.num
    omega
  have hsound : Shell.Sound { s with
      output := s.output ++ [lineFeed] ++ (shellCommand s.linebuf t.line).2
      accesses := s.accesses ++
        (shellCommand s.linebuf t.line).1.map fun n => BufferAccess.mk 0 n s.requested
      lines := s.lines ++ [t.line] } := by
    refine h.toSound.append rfl rfl rfl fun a ha => ?_
    obtain ⟨n, hn, rfl⟩ := List.mem_map.1 ha
    have hle := shellCommand_reads _ _ n hn
    have := h.num_le
    have := h.num
    have := h.le_size
    simp only [BufferAccess.Inside]
    omega
  have hprompt := hsound.prompt hroom
  simp only [Shell.newline, hline, Typed.key, if_pos, ← h.lines]
  exact hprompt

/-- What is printed does not matter. -/
theorem Shell.Edits.kprintf (h : s.Edits t) (o : List (BitVec 8)) : (s.kprintf o).Edits t where
  toSound := h.toSound.append (List.append_nil _).symm rfl rfl (by simp)
  num := h.num
  bytes := h.bytes
  ne_zero := h.ne_zero
  num_le := h.num_le
  lines := h.lines

/-- **A backspace** that has a byte to write to. -/
theorem Shell.Edits.erase (h : s.Edits t) (hroom : s.num < s.requested) :
    Shell.Edits { s.put s.num 0 with num := s.num - 1 } ⟨t.lines, t.line.dropLast⟩ where
  toSound := h.toSound.append rfl rfl rfl (by simpa [BufferAccess.Inside] using hroom)
  num := by rw [List.length_dropLast, h.num]
  bytes := by
    intro i hi
    simp only [List.length_dropLast] at hi
    have := h.num
    rw [List.getElem_dropLast, ← h.bytes i (by omega)]
    exact Mem.store8_of_ne (by omega)
  ne_zero := fun c hc => h.ne_zero c (List.mem_of_mem_dropLast hc)
  num_le := (Nat.sub_le _ _).trans h.num_le
  lines := h.lines

/-- **Growing** keeps the line and makes room for a byte. -/
theorem Shell.Edits.grow (h : s.Edits t) (hgrow : s.num = s.size → s.size + 16 < 2 ^ 32)
    (junk : Mem) :
    (s.grow junk).Edits t ∧ (s.grow junk).num < (s.grow junk).size := by
  have hnum := h.num
  have hnum_le := h.num_le
  have hsize := h.size_le
  simp only [Shell.grow]
  split_ifs with hfull
  · have hlt := hgrow hfull
    rw [Nat.mod_eq_of_lt hlt]
    refine ⟨{ h with
      size_le := le_rfl
      requested_le := Nat.le_succ _
      size_mod := ?_
      le_size := ?_
      size_lt := hlt
      bytes := ?_
      num_le := ?_ }, ?_⟩
    · exact (Nat.add_mod_right _ _).trans h.size_mod
    · exact Nat.le_add_left _ _
    · intro i hi
      have hlt' : i < s.requested := by omega
      simp only [if_pos hlt']
      exact h.bytes i hi
    · exact h.num_le.trans (Nat.le_add_right _ _)
    · simp only
      omega
  · exact ⟨h, by omega⟩

/-- **A byte is stored** behind the line. -/
theorem Shell.Edits.put (h : s.Edits t) (hlt : s.num < s.size) (hc : c ≠ 0) :
    Shell.Edits { s.put s.num c with num := (s.num + 1) % 2 ^ 32 } ⟨t.lines, t.line ++ [c]⟩ := by
  have hsize := h.size_le
  have hlt32 := h.size_lt
  have hnum := h.num
  have hmod : (s.num + 1) % 2 ^ 32 = s.num + 1 := by omega
  rw [hmod]
  exact
    { toSound := h.toSound.append rfl rfl rfl (by
        simp only [List.mem_singleton, forall_eq, BufferAccess.Inside]
        omega)
      num := by rw [List.length_append, List.length_singleton, hnum]
      bytes := by
        intro i hi
        simp only [List.length_append, List.length_singleton] at hi
        by_cases hi' : i = t.line.length
        · subst hi'
          rw [List.getElem_concat_length rfl, ← hnum]
          exact Mem.store8_self _ _ _
        · rw [List.getElem_append_left (by omega), ← h.bytes i (by omega)]
          exact Mem.store8_of_ne (by omega)
      ne_zero := by
        intro d hd
        rw [List.mem_append, List.mem_singleton] at hd
        exact hd.elim (h.ne_zero d) fun hdc => hdc ▸ hc
      num_le := hlt
      lines := h.lines }

/-- **One byte that fits** does to the buffer what it does to the line. -/
theorem Shell.Edits.step {i : BitVec 8 × Mem} (h : s.Edits t) (hstep : FitStep i s s') :
    s'.Edits (t.key i.1) := by
  obtain ⟨⟨hc, rfl, hgrow⟩, hfits⟩ := hstep
  obtain ⟨c, junk⟩ := i
  simp only at hc hgrow hfits ⊢
  by_cases hlf : c = lineFeed
  · subst hlf
    obtain ⟨hroom, hend⟩ := hfits.lineFeed rfl
    exact h.newline hroom hend
  by_cases hbs : c = backspace
  · subst hbs
    rw [Typed.key, if_neg hlf, if_pos rfl, Shell.mainLoop, if_neg hlf, if_pos rfl]
    split_ifs with hnum
    · exact (h.erase ((hfits.backspace rfl).resolve_left hnum)).kprintf _
    · have hnil : t.line = [] := List.eq_nil_of_length_eq_zero (by
        have := h.num
        omega)
      rw [hnil, List.dropLast_nil, ← hnil]
      exact h
  obtain ⟨hgrown, hlt⟩ := h.grow (hgrow hlf hbs) junk
  rw [Typed.key, if_neg hlf, if_neg hbs, Shell.mainLoop, if_neg hlf, if_neg hbs]
  by_cases hclear : c = screenClear
  · subst hclear
    obtain ⟨hroom, hfull⟩ := hfits.screenClear rfl
    have hsame : s.grow junk = s := if_neg hfull
    rw [hsame] at hgrown hlt
    have hput := (hgrown.put hlt hc).kprintf [screenClear]
    have hprompt := hput.toSound.prompt hroom
    rw [hput.lines] at hprompt
    rw [if_pos rfl, hsame]
    exact hprompt
  · rw [if_neg hclear]
    simp only [if_neg hclear]
    by_cases hcursor : c = cursorEn ∨ c = cursorDs
    · rw [if_pos hcursor, if_neg (by tauto)]
      exact hgrown.kprintf _
    · rw [if_neg hcursor, if_pos (by tauto)]
      exact (hgrown.put hlt hc).kprintf _

/-- A round adds to the records: a line at a line feed, and any accesses. -/
theorem Shell.mainLoop_records (s : Shell) (c : BitVec 8) (junk : Mem) :
    s.accesses <+: (s.mainLoop c junk).accesses ∧ (s.mainLoop c junk).lines =
      s.lines ++ if c = lineFeed then [stringAt s.linebuf 0 (2 ^ 64 - 1)] else [] := by
  have hgrow : (s.grow junk).accesses = s.accesses ∧ (s.grow junk).lines = s.lines := by
    rw [Shell.grow]
    split_ifs <;> exact ⟨rfl, rfl⟩
  by_cases hlf : c = lineFeed
  · rw [Shell.mainLoop, if_pos hlf, if_pos hlf]
    exact ⟨⟨_, (List.append_assoc _ _ _).symm⟩, rfl⟩
  rw [if_neg hlf, List.append_nil]
  by_cases hbs : c = backspace
  · rw [Shell.mainLoop, if_neg hlf, if_pos hbs]
    split_ifs
    · exact ⟨⟨_, rfl⟩, rfl⟩
    · exact ⟨⟨_, List.append_nil _⟩, rfl⟩
  rw [Shell.mainLoop, if_neg hlf, if_neg hbs, ← hgrow.1, ← hgrow.2]
  dsimp only
  split_ifs
  · exact ⟨⟨_, (List.append_assoc _ _ _).symm⟩, rfl⟩
  · exact ⟨⟨_, rfl⟩, rfl⟩
  · exact ⟨⟨_, rfl⟩, rfl⟩
  · exact ⟨⟨_, List.append_nil _⟩, rfl⟩

/-- A byte ends a line when it is a line feed. -/
theorem Typed.key_lines (t : Typed) (c : BitVec 8) :
    (t.key c).lines = t.lines ++ if c = lineFeed then [t.line] else [] := by
  simp only [Typed.key]
  split_ifs <;> simp

/-- **A byte that does not fit** makes an access outside of the buffer, or a wrong line. -/
theorem Shell.Edits.fits {i : BitVec 8 × Mem} (h : s.Edits t) (hstep : ShellStep i s s')
    (hinside : ∀ a ∈ s'.accesses, a.Inside) (hlines : s'.lines = (t.key i.1).lines) :
    s.Fits i.1 := by
  obtain ⟨hc, rfl, hgrow⟩ := hstep
  obtain ⟨c, junk⟩ := i
  simp only at hc hgrow hlines hinside ⊢
  constructor
  · rintro rfl
    rw [Shell.mainLoop, if_pos rfl] at hinside
    rw [(s.mainLoop_records _ _).2, t.key_lines, if_pos rfl, if_pos rfl, h.lines,
      List.append_cancel_left_eq, List.singleton_inj] at hlines
    have hclear := hinside ⟨0, (s.size + 1) % 2 ^ 32, s.requested⟩ 
      (List.mem_append_right _ (List.mem_singleton.2 rfl))
    rw [BufferAccess.Inside, h.clear_eq] at hclear
    have hzero := eq_zero_of_stringAt hlines (by
      have := h.num_le
      have := h.num
      have := h.size_lt
      omega)
    rw [Nat.zero_add, ← h.num] at hzero
    simp only at hclear
    exact ⟨by omega, hzero⟩
  · rintro rfl
    obtain ⟨hgrown, hlt⟩ := h.grow (hgrow (by decide) (by decide)) junk
    have hclear := hinside ⟨0, ((s.grow junk).size + 1) % 2 ^ 32, (s.grow junk).requested⟩
      (List.mem_append_right _ (List.mem_singleton.2 rfl))
    rw [BufferAccess.Inside, hgrown.clear_eq] at hclear
    simp only at hclear
    by_cases hfull : s.num = s.size
    · rw [Shell.grow, if_pos hfull] at hclear
      simp only at hclear
      omega
    · rw [Shell.grow, if_neg hfull] at hclear
      exact ⟨by omega, hfull⟩
  · rintro rfl
    rw [Shell.mainLoop, if_neg (by decide), if_pos rfl] at hinside
    by_cases hnum : s.num = 0
    · exact .inl hnum
    · rw [if_pos hnum] at hinside
      have hput := hinside ⟨s.num, 1, s.requested⟩ 
        (List.mem_append_right _ (List.mem_singleton.2 rfl))
      exact .inr hput

end

/-! ### Runs -/

section

variable {s : Shell} {junk : Mem} {is : List (BitVec 8 × Mem)}

/-- The buffer at the beginning. -/
theorem Shell.start_edits (junk : Mem) : (Shell.start junk).Edits (typed []) where
  size_le := Nat.le_succ 16
  requested_le := le_refl 17
  size_mod := show 16 % 16 = 0 from rfl
  le_size := le_refl 16
  size_lt := show 16 < 2 ^ 32 by decide
  inside := by simp [Shell.start]
  num := rfl
  bytes := by simp [typed]
  ne_zero := by simp [typed]
  num_le := Nat.zero_le _
  lines := rfl

/-- The bytes of a run that goes on. -/
theorem typed_concat (is : List (BitVec 8 × Mem)) (i : BitVec 8 × Mem) :
    typed ((is ++ [i]).map Prod.fst) = (typed (is.map Prod.fst)).key i.1 := by
  rw [List.map_append, typed, List.foldl_append]
  rfl

/-- **A run whose bytes fit** holds what was typed in the buffer. -/
theorem Shell.edits_of_run (h : Run FitStep (Shell.start junk) is s) :
    s.Edits (typed (is.map Prod.fst)) := by
  generalize hs₀ : Shell.start junk = s₀ at h
  induction h with
  | nil => exact hs₀ ▸ Shell.start_edits junk
  | snoc _ hstep ih =>
    subst hs₀
    rw [typed_concat]
    exact ih.step hstep

/-- **The line buffer implements line editing in bounds** in exactly the runs whose bytes all fit:
each line feed and each clear comes before the buffer has grown, no erased byte is left behind the
line at a line feed, and no backspace comes when the line fills a buffer that has grown. -/
theorem shell_lines_iff (h : Run ShellStep (Shell.start junk) is s) :
    s.Right (is.map Prod.fst) ↔ Run FitStep (Shell.start junk) is s := by
  constructor
  · generalize hs₀ : Shell.start junk = s₀ at h ⊢
    induction h with
    | nil => exact fun _ => .nil _
    | @snoc s₁ s₂ is i hrun hstep ih =>
      subst hs₀
      intro hright
      have hs₂ := hstep.2.1
      obtain ⟨haccesses, hrecords⟩ := s₁.mainLoop_records i.1 i.2
      have hlines := hright.lines
      rw [typed_concat] at hlines
      have hfits := hlines
      rw [hs₂, hrecords, Typed.key_lines] at hlines
      have hprefix : s₁.lines = (typed (is.map Prod.fst)).lines := by
        refine (List.append_inj' hlines ?_).1
        split_ifs <;> rfl
      have hfit := ih ⟨fun a ha => hright.inside a (hs₂ ▸ haccesses.subset ha), hprefix⟩
      have hedits := Shell.edits_of_run hfit
      exact hfit.snoc ⟨hstep, hedits.fits hstep hright.inside hfits⟩
  · intro hrun
    have hedits := Shell.edits_of_run hrun
    exact ⟨hedits.inside, hedits.lines⟩

/-- The shell after the byte `a`. -/
def shellA : Shell :=
  (Shell.start fun _ => 0).mainLoop 97 fun _ => 0

/-- The byte `a` fits. -/
theorem shellA_fitStep : FitStep (97, fun _ => 0) (Shell.start fun _ => 0) shellA :=
  ⟨⟨by decide, rfl, fun _ _ h => absurd h (by decide)⟩,
    ⟨fun h => absurd h (by decide), fun h => absurd h (by decide), fun h => absurd h (by decide)⟩⟩

/-- The line `a`. -/
theorem shell_lines_iff_a : (shellA.mainLoop lineFeed fun _ => 0).Right [97, lineFeed] := by
  have hfit : FitStep (lineFeed, fun _ => 0) shellA (shellA.mainLoop lineFeed fun _ => 0) :=
    ⟨⟨by decide, rfl, fun h => absurd rfl h⟩,
      ⟨fun _ => ⟨by decide, by decide⟩, fun h => absurd h (by decide),
        fun h => absurd h (by decide)⟩⟩
  exact (shell_lines_iff (((Run.nil _).append_one _ shellA_fitStep.1).append_one _ hfit.1)).2
    (((Run.nil _).append_one _ shellA_fitStep).append_one _ hfit)

/-- **An erased byte is read**: after `a`, a backspace, and a line feed the line is `a`. -/
theorem shell_line_keeps_erased : ¬ ∀ junk is s, Run ShellStep (Shell.start junk) is s →
    s.Right (is.map Prod.fst) := by
  intro h
  have hback : ShellStep (backspace, fun _ => 0) shellA (shellA.mainLoop backspace fun _ => 0) :=
    ⟨by decide, rfl, fun _ h => absurd rfl h⟩
  have hline : ShellStep (lineFeed, fun _ => 0) (shellA.mainLoop backspace fun _ => 0)
      ((shellA.mainLoop backspace fun _ => 0).mainLoop lineFeed fun _ => 0) :=
    ⟨by decide, rfl, fun h => absurd rfl h⟩
  have hrun := ((Run.nil _).append_one _ shellA_fitStep.1).append_one _ hback
  have hright := h _ _ _ (hrun.append_one _ hline)
  exact absurd hright.lines (by decide +kernel)

end

end AnglOS
