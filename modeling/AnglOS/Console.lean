import AnglOS.Spinlock
import AnglOS.StdioFormat
import AnglOS.Text

/-!
# The Console

The output functions of `libc/kernel/console.c`. They print characters with the console lock held:
`consolePuts` and `consolePutbuf` take it once for all of their characters, `kprintf` once for
each character. What the lock guards is not read and written in one step: the count of characters
is loaded and then stored, and the screen is looked at before it is drawn on.

## Main results

* `console_output` — in every interleaving of any number of printing parties, the screen shows
  whole sections one after the other, each party's in its order, and the count is exact.
-/

namespace AnglOS

/-- What the console lock guards: `write_cnt` and the screen. -/
structure ConsoleState where
  writeCnt : BitVec 64
  text : Text

/-- What a party has read while it holds the lock. -/
structure ConsoleRegs where
  writeCnt : BitVec 64
  text : Option Text

section

variable (G : Graphics) (font : ℕ → BitVec 8)

/-- `consolePutcharLocked`: `write_cnt++`, and then `textPutc`. -/
def consolePutcharLocked (c : BitVec 8) : List (ObjectStep ConsoleRegs ConsoleState) :=
  [fun r s => ({ r with writeCnt := s.writeCnt }, s),
    fun r s => (r, { s with writeCnt := r.writeCnt + 1 }),
    fun r s => ({ r with text := some s.text }, s),
    fun r s => (r, { s with text := textPutc G font (r.text.getD s.text) c })]

/-- The console: an operation prints the characters of a section with the lock held. -/
def console : SharedObject (List (BitVec 8)) ConsoleRegs ConsoleState where
  start _ := ⟨0, none⟩
  body cs := cs.flatMap (consolePutcharLocked G font)

end

/-- A request to print. Strings and buffers are given by their characters. -/
inductive ConsolePrint
  | puts (s : List (BitVec 8))
  | putbuf (buffer : List (BitVec 8))
  | putchar (c : BitVec 32)
  | kprintf (m : Mem) (fuel : ℕ) (format : List (BitVec 8)) (args : List (BitVec 64))

/-- `consolePuts`, `consolePutbuf`, `consolePutchar`, and `kprintf` with `vkprintf_helper`: the
characters that are printed each time that the lock is held. -/
def ConsolePrint.sections : ConsolePrint → Except Fault (List (List (BitVec 8)))
  | .puts s => .ok [s ++ [chr '\n']]
  | .putbuf buffer => .ok [buffer]
  | .putchar c => .ok [[c.setWidth 8]]
  | .kprintf m fuel format args => (vkprintf m fuel format args).map fun out => out.map fun c => [c]

/-- The sections of requests one after the other. -/
def printSections (ps : List ConsolePrint) : Except Fault (List (List (BitVec 8))) :=
  (ps.mapM ConsolePrint.sections).map List.flatten

/-- The characters of sections one after the other. -/
def sectionChars {ι : Type*} (order : List (ι × List (BitVec 8))) : List (BitVec 8) :=
  order.flatMap Prod.snd

variable {G : Graphics} {font : ℕ → BitVec 8}

/-- **A section**: its characters are counted and drawn in order. -/
theorem execSteps_putcharLocked (cs : List (BitVec 8)) : ∀ (r : ConsoleRegs) (s : ConsoleState),
    (execSteps (cs.flatMap (consolePutcharLocked G font)) (r, s)).2 =
      ⟨s.writeCnt + BitVec.ofNat 64 cs.length, textPuts G font s.text cs⟩ := by
  induction cs with
  | nil => intro r s; simp [execSteps, textPuts]
  | cons c cs ih =>
    intro r s
    have hcons := ih ⟨s.writeCnt, some s.text⟩ ⟨s.writeCnt + 1, textPutc G font s.text c⟩
    rw [execSteps, List.flatMap_cons, List.foldl_append]
    refine hcons.trans ?_
    rw [List.length_cons, Nat.add_comm cs.length, BitVec.ofNat_add, ← BitVec.add_assoc]
    rfl

/-- The console after sections one after the other. -/
theorem execAll_console {ι : Type*} (order : List (ι × List (BitVec 8))) (s : ConsoleState) :
    (console G font).execAll s order =
      ⟨s.writeCnt + BitVec.ofNat 64 (sectionChars order).length,
        textPuts G font s.text (sectionChars order)⟩ := by
  induction order generalizing s with
  | nil => simp [SharedObject.execAll, sectionChars, textPuts]
  | cons x order ih =>
    have hx : ((console G font).exec x.2 s).2 =
        ⟨s.writeCnt + BitVec.ofNat 64 x.2.length, textPuts G font s.text x.2⟩ :=
      execSteps_putcharLocked x.2 _ s
    rw [SharedObject.execAll, List.foldl_cons, ← SharedObject.execAll, hx, ih]
    simp only [sectionChars, List.flatMap_cons, List.length_append, BitVec.ofNat_add,
      BitVec.add_assoc, textPuts, List.foldl_append]

/-- The section that a party waits to print. -/
def SpinPlace.waiting {κ ρ σ : Type*} : SpinPlace κ ρ σ → List κ
  | .spin k _ => [k]
  | _ => []

variable {ι : Type*} [DecidableEq ι]

/-- The sections are the first ones of what the requests print. -/
def Follows (ps : List ConsolePrint) (sections : List (List (BitVec 8))) : Prop :=
  ∃ all, printSections ps = .ok all ∧ sections <+: all

/-- **What the console shows**: parties print what they want, their steps in any order. While the
lock is free, the screen is what whole sections make of it one after the other, `write_cnt` is the
number of their characters, and each party's sections are those that it has called for in its
order, except for the one that it waits to print. -/
theorem console_output {prints : ι → List ConsolePrint} {t₀ : Text}
    {s : SpinState ι (List (BitVec 8)) ConsoleRegs ConsoleState}
    {cs : List (CallLabel ι (List (BitVec 8)) ConsoleRegs)}
    (h : Run (SpinStep (console G font)) (SpinState.init ⟨0, t₀⟩) cs s)
    (hcalls : ∀ i, Follows (prints i) (callsOf i cs)) (hfree : s.lock = 0) :
    ∃ order, s.shared = ⟨BitVec.ofNat 64 (sectionChars order).length,
        textPuts G font t₀ (sectionChars order)⟩ ∧
      ∀ i, Follows (prints i) (ownCalls i order) ∧
        callsOf i cs = ownCalls i order ++ (s.place i).waiting := by
  obtain ⟨u, ds, t, hu, ht, hrun, hlook⟩ := SpinStep.refines h
  obtain ⟨order, hshared, horder⟩ := AtomicStep.exists_order _ hrun fun _ => rfl
  have hout : ∀ i, ¬s.Inside i := fun i hi => (inside_of_run h).2.mpr ⟨i, hi⟩ hfree
  have hwaiting : ∀ i, (t.place i).waiting = (s.place i).waiting := by
    intro i
    rw [ht.place, hu.place]
    cases hi : s.place i with
    | inside k r ops => exact absurd ⟨k, r, ops, hi⟩ (hout i)
    | idle | spin | done => rfl
  have hown : ∀ i, callsOf i cs = ownCalls i order ++ (s.place i).waiting := fun i => by
    rw [← hwaiting, ← horder i, callsOf_eq_of_look i hlook]
  refine ⟨order, ?_, fun i => ⟨?_, hown i⟩⟩
  · rw [← hu.shared, ht.free (hu.lock.mpr hfree), hshared, execAll_console]
    simp
  · obtain ⟨all, hall, hprefix⟩ := hcalls i
    rw [hown i] at hprefix
    exact ⟨all, hall, (List.prefix_append _ _).trans hprefix⟩

/-- One party prints a line, and another one the text of a format. -/
def lineAndFormat : Bool → List ConsolePrint
  | true => [.puts (chars "hi")]
  | false => [.kprintf (fun _ => 0) 5 (chars "ok" ++ [0]) []]

theorem follows_lineAndFormat (n : ℕ) (i : Bool) : Follows (lineAndFormat i) (callsOf i
    ([.call true (chars "hi\n"), .call false (chars "o")] ++
      List.replicate n (CallLabel.tau (ρ := ConsoleRegs) true))) := by
  have htau : callsOf i (List.replicate n (CallLabel.tau (κ := List (BitVec 8))
      (ρ := ConsoleRegs) true)) = [] := by
    simp [callsOf]
  rw [callsOf_append, htau, List.append_nil]
  cases i with
  | true => exact ⟨[chars "hi\n"], rfl, List.prefix_rfl⟩
  | false => exact ⟨[chars "o", chars "k"], rfl, ⟨[chars "k"], rfl⟩⟩

/-- The mode that the kernel asks for. -/
def mode1024 : Graphics := ⟨1024, 768, 4096, 4⟩

theorem console_output_two :
    ∃ (s : SpinState Bool (List (BitVec 8)) ConsoleRegs ConsoleState) (order : _),
      s.shared = ⟨BitVec.ofNat 64 (sectionChars order).length,
        textPuts mode1024 (fun _ => 0) (Text.boot fun _ => 0) (sectionChars order)⟩ ∧
      ∀ i : Bool, Follows (lineAndFormat i) (ownCalls i order) := by
  obtain ⟨s₁, h₁, ht₁, hf₁, hl₁⟩ : ∃ s₁, SpinStep (console mode1024 fun _ => 0)
      (.call true (chars "hi\n")) (SpinState.init ⟨0, Text.boot fun _ => 0⟩) s₁ ∧
        s₁.place true = .spin (chars "hi\n") .xchg ∧ s₁.place false = .idle ∧ s₁.lock = 0 :=
    ⟨_, .call _ rfl, rfl, rfl, rfl⟩
  obtain ⟨s₂, h₂, ht₂, hl₂⟩ : ∃ s₂, SpinStep (console mode1024 fun _ => 0)
      (.call false (chars "o")) s₁ s₂ ∧ s₂.place true = .spin (chars "hi\n") .xchg ∧ s₂.lock = 0 :=
    ⟨_, .call _ hf₁, ht₁, hl₁⟩
  obtain ⟨s, hsettles⟩ :=
    exists_settles_of_spin (O := console mode1024 fun _ => 0) hl₂ ht₂
  obtain ⟨n, hrun⟩ := hsettles.run
  obtain ⟨order, hshared, horder⟩ := console_output
    ((((Run.nil _).append_one _ h₁).append_one _ h₂).append hrun) (follows_lineAndFormat n)
    hsettles.lock
  exact ⟨s, order, hshared, fun i => (horder i).1⟩

end AnglOS
