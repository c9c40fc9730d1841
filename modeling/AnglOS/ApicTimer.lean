import Mathlib.Algebra.Order.Floor.Div
import Mathlib.Tactic

/-!
# The APIC Timer

The calibration of the timer of the local APIC and the functions that program it
(`kernel/device/apic/timer.c`). A device register is what the code stored in it last. The current
count that the calibration reads is an argument, and so is the number of timer interrupts that a
sleep has seen.

## Main results

* `initAPICTimer_spec` — the calibration is exact as long as ten times the elapsed ticks fit 32
  bits;
* `programs_iff` — what a request programs is right exactly when its count fits the 32-bit register;
* `timer_exact_iff` — both, over every function that programs the timer.
-/

namespace AnglOS

/-! ### The functions -/

/-- `APIC_EOI`. -/
abbrev apicEoi : ℕ := 0x0B0

/-- `APIC_LVT_TMR`. -/
abbrev apicLvtTmr : ℕ := 0x320

/-- `APIC_TMRINITCNT`. -/
abbrev apicTmrInitCnt : ℕ := 0x380

/-- `APIC_TMRDIV`. -/
abbrev apicTmrDiv : ℕ := 0x3E0

/-- `IRQ0`. -/
abbrev irq0 : BitVec 32 := 32

/-- `APIC_LVT_MASK`. -/
abbrev apicLvtMask : BitVec 32 := 0x10000

/-- `TMR_PERIODIC`. -/
abbrev tmrPeriodic : BitVec 32 := 0x20000

/-- The static variables of `timer.c`, and the registers of the local APIC. -/
structure ApicTimer where
  ticksPerSecond : BitVec 64
  nanosecondsPerTick : BitVec 64
  timeCounter : BitVec 64
  regs : ℕ → BitVec 32

/-- `lapicWriteReg`, to a timer register. -/
def lapicWriteReg (reg : ℕ) (data : BitVec 32) (s : ApicTimer) : ApicTimer :=
  { s with regs := Function.update s.regs reg data }

/-- `irqAPICTimerHandler`. -/
def irqAPICTimerHandler (s : ApicTimer) : ApicTimer :=
  lapicWriteReg apicEoi 0 { s with timeCounter := s.timeCounter + 1 }

/-- `initAPICTimer`, where the register for the current count reads `curr`. `none` is a division by
zero. -/
def initAPICTimer (curr : BitVec 32) (s : ApicTimer) : Option ApicTimer :=
  let s := lapicWriteReg apicTmrDiv 0 s
  let s := lapicWriteReg apicLvtTmr irq0 s
  let s := lapicWriteReg apicTmrInitCnt 0xFFFFFFFF s
  let s := lapicWriteReg apicLvtTmr apicLvtMask s
  let ticks := 0xFFFFFFFF - curr
  let ticksPerSecond := (ticks * 10).setWidth 64
  if ticksPerSecond = 0 then none
  else some { s with
    ticksPerSecond := ticksPerSecond
    nanosecondsPerTick := 1000000000 / ticksPerSecond +
      if 1000000000 % ticksPerSecond = 0 then 0 else 1 }

/-- The body of `apicTimerOneShot` and `apicTimerPeriodicStart`, with the value for the timer's
entry in the local vector table. `none` is a division by zero. -/
def apicTimerStart (lvt : BitVec 32) (time : BitVec 64) (s : ApicTimer) : Option ApicTimer :=
  let time := if time < s.nanosecondsPerTick then s.nanosecondsPerTick else time
  let s := lapicWriteReg apicLvtTmr lvt s
  if s.nanosecondsPerTick = 0 then none
  else some (lapicWriteReg apicTmrInitCnt ((time / s.nanosecondsPerTick).setWidth 32) s)

/-- `apicTimerOneShot`. -/
def apicTimerOneShot (time : BitVec 64) (s : ApicTimer) : Option ApicTimer :=
  apicTimerStart irq0 time s

/-- `apicTimerPeriodicStart`. -/
def apicTimerPeriodicStart (time : BitVec 64) (s : ApicTimer) : Option ApicTimer :=
  apicTimerStart (irq0 ||| tmrPeriodic) time s

/-- `apicNanosleep`, as far as `irqs` timer interrupts take it: it waits for the first of them. -/
def apicNanosleep (irqs : ℕ) (nanos : BitVec 64) (s : ApicTimer) : Option ApicTimer :=
  (apicTimerOneShot nanos s).map fun s =>
    let s := irqAPICTimerHandler^[irqs] s
    if s.timeCounter = 0 then s
    else { lapicWriteReg apicLvtTmr apicLvtMask s with timeCounter := 0 }

/-- `apicMillisleep`. -/
def apicMillisleep (irqs : ℕ) (millis : BitVec 64) (s : ApicTimer) : Option ApicTimer :=
  apicNanosleep irqs (millis * 1000000) s

/-! ### What they should do -/

/-- The ticks that the calibration saw pass. -/
abbrev elapsed (curr : BitVec 32) : ℕ := 2 ^ 32 - 1 - curr.toNat

/-- **The calibration is exact** in `s`. -/
structure Calibrated (curr : BitVec 32) (s : ApicTimer) : Prop where
  ticksPerSecond : s.ticksPerSecond.toNat = 10 * elapsed curr
  nanosecondsPerTick : s.nanosecondsPerTick.toNat = 10 ^ 9 ⌈/⌉ s.ticksPerSecond.toNat
  one_le : 1 ≤ s.nanosecondsPerTick.toNat

/-- The result **programs** the longest count that does not exceed `t` nanoseconds, or one tick. -/
def Programs (t : ℕ) (r : Option ApicTimer) : Prop :=
  ∃ s, r = some s ∧ 1 ≤ (s.regs apicTmrInitCnt).toNat ∧
    (s.regs apicTmrInitCnt).toNat * s.nanosecondsPerTick.toNat ≤ max t s.nanosecondsPerTick.toNat ∧
    max t s.nanosecondsPerTick.toNat <
      ((s.regs apicTmrInitCnt).toNat + 1) * s.nanosecondsPerTick.toNat

/-- **The timer arithmetic does not wrap**: the calibration in `s` that reads `curr` is exact, and
in every later state the functions program what `t` nanoseconds and `m` milliseconds ask for. -/
def TimerExact (curr : BitVec 32) (t m : BitVec 64) (s : ApicTimer) : Prop :=
  ∃ s₀, initAPICTimer curr s = some s₀ ∧ Calibrated curr s₀ ∧
    ∀ s₁ : ApicTimer, s₁.nanosecondsPerTick = s₀.nanosecondsPerTick →
      Programs t.toNat (apicTimerOneShot t s₁) ∧ Programs t.toNat (apicTimerPeriodicStart t s₁) ∧
      ∀ irqs, Programs t.toNat (apicNanosleep irqs t s₁) ∧
        Programs (1000000 * m.toNat) (apicMillisleep irqs m s₁)

/-! ### The calibration -/

section

variable {curr : BitVec 32} {s r : ApicTimer} {t n : ℕ}

/-- The quotient and the test for a remainder round up. -/
theorem div_add_ite (a : ℕ) {b : ℕ} (hb : 0 < b) :
    a / b + (if a % b = 0 then 0 else 1) = a ⌈/⌉ b := by
  have hlt := Nat.mod_lt a hb
  have ha : a + b - 1 = b * (a / b) + (a % b + b - 1) := by
    have := Nat.div_add_mod a b
    omega
  rw [Nat.ceilDiv_eq_add_pred_div, ha, Nat.mul_add_div hb]
  congr 1
  split_ifs with h
  · rw [Nat.div_eq_of_lt (by omega)]
  · have hsplit : a % b + b - 1 = a % b - 1 + b := by omega
    rw [hsplit, Nat.add_div_right _ hb, Nat.div_eq_of_lt (by omega)]

/-- The product of 32-bit integers. -/
theorem ticks_toNat (curr : BitVec 32) :
    (((0xFFFFFFFF - curr) * 10).setWidth 64).toNat = 10 * elapsed curr % 2 ^ 32 := by
  have hcurr := curr.isLt
  have hsub : (0xFFFFFFFF - curr).toNat = 2 ^ 32 - 1 - curr.toNat := by
    rw [BitVec.toNat_sub, show (0xFFFFFFFF : BitVec 32).toNat = 2 ^ 32 - 1 from rfl]
    omega
  rw [BitVec.toNat_setWidth, BitVec.toNat_mul, hsub, show (10 : BitVec 32).toNat = 10 from rfl,
    mul_comm, Nat.mod_eq_of_lt]
  exact (Nat.mod_lt _ (by decide)).trans (by decide)

/-- The 64-bit quotient is rounded up without a wrap. -/
theorem nanosecondsPerTick_toNat {tps : BitVec 64} (h : tps ≠ 0) :
    (1000000000 / tps + if 1000000000 % tps = 0 then 0 else 1).toNat = 10 ^ 9 ⌈/⌉ tps.toNat := by
  have hpos : 0 < tps.toNat := Nat.pos_of_ne_zero fun h0 => h (BitVec.eq_of_toNat_eq h0)
  have hmod : 1000000000 % tps = 0 ↔ 10 ^ 9 % tps.toNat = 0 := by
    rw [← BitVec.toNat_inj, BitVec.toNat_umod]
    rfl
  have hite : (if 1000000000 % tps = 0 then 0 else 1 : BitVec 64).toNat =
      if 10 ^ 9 % tps.toNat = 0 then 0 else 1 := by
    simp only [hmod]
    split_ifs <;> rfl
  have hdiv : (1000000000 / tps).toNat = 10 ^ 9 / tps.toNat := BitVec.toNat_udiv
  rw [BitVec.toNat_add, hite, hdiv, ← div_add_ite _ hpos, Nat.mod_eq_of_lt]
  have hle := Nat.div_le_self (10 ^ 9) tps.toNat
  split_ifs <;> omega

/-- **The calibration.** It fails when ten times the elapsed ticks are a multiple of `2 ^ 32`, and
otherwise takes what is left of them. -/
theorem initAPICTimer_spec (curr : BitVec 32) (s : ApicTimer) :
    (10 * elapsed curr % 2 ^ 32 = 0 ∧ initAPICTimer curr s = none) ∨
    ∃ r, initAPICTimer curr s = some r ∧ 0 < r.ticksPerSecond.toNat ∧
      r.ticksPerSecond.toNat = 10 * elapsed curr % 2 ^ 32 ∧
      r.nanosecondsPerTick.toNat = 10 ^ 9 ⌈/⌉ r.ticksPerSecond.toNat := by
  have htoNat := ticks_toNat curr
  simp only [initAPICTimer]
  by_cases h0 : ((0xFFFFFFFF - curr) * 10).setWidth 64 = 0
  · rw [h0] at htoNat
    rw [if_pos h0]
    exact .inl ⟨htoNat.symm, rfl⟩
  · rw [if_neg h0]
    have hpos : 0 < (((0xFFFFFFFF - curr) * 10).setWidth 64).toNat :=
      Nat.pos_of_ne_zero fun h => h0 (BitVec.eq_of_toNat_eq h)
    exact .inr ⟨_, rfl, hpos, htoNat, nanosecondsPerTick_toNat h0⟩

/-! ### The requests -/

/-- What a request programs, when there are nanoseconds to a tick. -/
theorem apicTimerStart_spec (lvt : BitVec 32) (time : BitVec 64)
    (h0 : 0 < s.nanosecondsPerTick.toNat) :
    ∃ r, apicTimerStart lvt time s = some r ∧ r.nanosecondsPerTick = s.nanosecondsPerTick ∧
      (r.regs apicTmrInitCnt).toNat =
        max time.toNat s.nanosecondsPerTick.toNat / s.nanosecondsPerTick.toNat % 2 ^ 32 := by
  have hne : s.nanosecondsPerTick ≠ 0 := by
    intro h
    rw [h] at h0
    exact absurd h0 (by decide)
  have hmax : (if time < s.nanosecondsPerTick then s.nanosecondsPerTick else time).toNat =
      max time.toNat s.nanosecondsPerTick.toNat := by
    split_ifs with h
    · exact (max_eq_right (BitVec.lt_def.1 h).le).symm
    · exact (max_eq_left (Nat.le_of_not_lt fun hlt => h (BitVec.lt_def.2 hlt))).symm
  refine ⟨_, if_neg hne, rfl, ?_⟩
  simp only [lapicWriteReg]
  rw [Function.update_self, BitVec.toNat_setWidth, BitVec.toNat_udiv, hmax]

/-- A store to another register leaves the initial count. -/
theorem lapicWriteReg_initCnt {reg : ℕ} (h : reg ≠ apicTmrInitCnt) (data : BitVec 32)
    (s : ApicTimer) : (lapicWriteReg reg data s).regs apicTmrInitCnt = s.regs apicTmrInitCnt :=
  Function.update_of_ne h.symm _ _

/-- The interrupt handler leaves what the timer was programmed with. -/
theorem irqAPICTimerHandler_iterate (irqs : ℕ) (s : ApicTimer) :
    (irqAPICTimerHandler^[irqs] s).nanosecondsPerTick = s.nanosecondsPerTick ∧
      (irqAPICTimerHandler^[irqs] s).regs apicTmrInitCnt = s.regs apicTmrInitCnt := by
  induction irqs with
  | zero => exact ⟨rfl, rfl⟩
  | succ irqs ih =>
    rw [Function.iterate_succ_apply']
    exact ⟨ih.1, (lapicWriteReg_initCnt (by decide) _ _).trans ih.2⟩

/-- So does the rest of a sleep. -/
theorem apicNanosleep_spec (irqs : ℕ) (nanos : BitVec 64) (h0 : 0 < s.nanosecondsPerTick.toNat) :
    ∃ r, apicNanosleep irqs nanos s = some r ∧ r.nanosecondsPerTick = s.nanosecondsPerTick ∧
      (r.regs apicTmrInitCnt).toNat =
        max nanos.toNat s.nanosecondsPerTick.toNat / s.nanosecondsPerTick.toNat % 2 ^ 32 := by
  obtain ⟨r, hr, hn, hcount⟩ := apicTimerStart_spec irq0 nanos h0
  obtain ⟨hn', hcount'⟩ := irqAPICTimerHandler_iterate irqs r
  refine ⟨_, congrArg (Option.map _) hr, ?_, ?_⟩
  · dsimp only
    split_ifs
    · exact hn'.trans hn
    · exact hn'.trans hn
  · dsimp only
    split_ifs
    · rw [hcount', hcount]
    · rw [← hcount, ← hcount']
      exact congrArg BitVec.toNat (@lapicWriteReg_initCnt apicLvtTmr (by decide) apicLvtMask _)

/-- A count of ticks of `n` nanoseconds that was cut to 32 bits, for a request that was cut to 64.
-/
theorem count_iff (hn : 0 < n) (hlt : n < 2 ^ 32) :
    (1 ≤ max (t % 2 ^ 64) n / n % 2 ^ 32 ∧ max (t % 2 ^ 64) n / n % 2 ^ 32 * n ≤ max t n ∧
      max t n < (max (t % 2 ^ 64) n / n % 2 ^ 32 + 1) * n) ↔ t < 2 ^ 32 * n := by
  constructor
  · rintro ⟨-, -, hmax⟩
    have hmod := Nat.mod_lt (max (t % 2 ^ 64) n / n) (show 0 < 2 ^ 32 by decide)
    calc t ≤ max t n := le_max_left t n
      _ < (max (t % 2 ^ 64) n / n % 2 ^ 32 + 1) * n := hmax
      _ ≤ 2 ^ 32 * n := Nat.mul_le_mul_right n (by omega)
  · intro ht
    have hquot : max t n / n < 2 ^ 32 := by
      rw [Nat.div_lt_iff_lt_mul hn, max_lt_iff]
      exact ⟨ht, by omega⟩
    rw [Nat.mod_eq_of_lt (show t < 2 ^ 64 by omega), Nat.mod_eq_of_lt hquot]
    refine ⟨(Nat.one_le_div_iff hn).2 (le_max_right t n), Nat.div_mul_le_self _ _, ?_⟩
    rw [← Nat.div_lt_iff_lt_mul hn]
    omega

/-- **A request programs the right count** exactly when the count fits the register. -/
theorem programs_iff {o : Option ApicTimer} (hn : 0 < n) (hlt : n < 2 ^ 32)
    (h : ∃ r, o = some r ∧ r.nanosecondsPerTick.toNat = n ∧
      (r.regs apicTmrInitCnt).toNat = max (t % 2 ^ 64) n / n % 2 ^ 32) :
    Programs t o ↔ t < 2 ^ 32 * n := by
  obtain ⟨r, rfl, hr, hcount⟩ := h
  rw [← count_iff hn hlt, ← hcount, ← hr]
  constructor
  · rintro ⟨r', hr', hprog⟩
    obtain rfl := Option.some.inj hr'
    exact hprog
  · exact fun hprog => ⟨r, rfl, hprog⟩

/-- Every function programs the right count exactly when the count fits. -/
theorem requests_iff (time millis : BitVec 64) (hn : s.nanosecondsPerTick.toNat = n) (h0 : 0 < n)
    (hlt : n < 2 ^ 32) :
    (Programs time.toNat (apicTimerOneShot time s) ∧
      Programs time.toNat (apicTimerPeriodicStart time s) ∧
      ∀ irqs, Programs time.toNat (apicNanosleep irqs time s) ∧
        Programs (1000000 * millis.toNat) (apicMillisleep irqs millis s)) ↔
      time.toNat < 2 ^ 32 * n ∧ 1000000 * millis.toNat < 2 ^ 32 * n := by
  subst hn
  have hmod : time.toNat % 2 ^ 64 = time.toNat := Nat.mod_eq_of_lt time.isLt
  have hstart (lvt : BitVec 32) : Programs time.toNat (apicTimerStart lvt time s) ↔
      time.toNat < 2 ^ 32 * s.nanosecondsPerTick.toNat := by
    obtain ⟨r, hr, hn, hcount⟩ := apicTimerStart_spec lvt time h0
    refine programs_iff h0 hlt ⟨r, hr, congrArg _ hn, ?_⟩
    rw [hcount, hmod]
  have hsleep (irqs : ℕ) (nanos : BitVec 64) {t : ℕ} (ht : nanos.toNat = t % 2 ^ 64) :
      Programs t (apicNanosleep irqs nanos s) ↔ t < 2 ^ 32 * s.nanosecondsPerTick.toNat := by
    obtain ⟨r, hr, hn, hcount⟩ := apicNanosleep_spec irqs nanos h0
    refine programs_iff h0 hlt ⟨r, hr, congrArg _ hn, ?_⟩
    rw [hcount, ht]
  have hmillis : (millis * 1000000).toNat = 1000000 * millis.toNat % 2 ^ 64 := by
    rw [BitVec.toNat_mul, mul_comm]
    rfl
  rw [apicTimerOneShot, apicTimerPeriodicStart, hstart, hstart]
  simp only [apicMillisleep, hsleep _ _ hmod.symm, hsleep _ _ hmillis]
  exact ⟨fun h => ⟨h.1, (h.2.2 0).2⟩, fun h => ⟨h.1, h.1, fun _ => h⟩⟩

/-- **The timer arithmetic does not wrap** exactly when ten times the elapsed ticks fit 32 bits, and
what is asked for is shorter than `2 ^ 32` ticks. -/
theorem timer_exact_iff (h : curr ≠ 0xFFFFFFFF) (t m : BitVec 64) (s : ApicTimer) :
    TimerExact curr t m s ↔
      10 * elapsed curr < 2 ^ 32 ∧ t.toNat < 2 ^ 32 * (10 ^ 9 ⌈/⌉ (10 * elapsed curr)) ∧
        1000000 * m.toNat < 2 ^ 32 * (10 ^ 9 ⌈/⌉ (10 * elapsed curr)) := by
  have hcurr : 0 < elapsed curr ∧ elapsed curr < 2 ^ 32 := by
    have hlt := curr.isLt
    have hne : curr.toNat ≠ 2 ^ 32 - 1 := fun heq => h (BitVec.eq_of_toNat_eq heq)
    have helapsed : elapsed curr = 2 ^ 32 - 1 - curr.toNat := rfl
    omega
  have hsmall {n : ℕ} (hn : 0 < n) : 0 < 10 ^ 9 ⌈/⌉ n ∧ 10 ^ 9 ⌈/⌉ n < 2 ^ 32 := by
    constructor
    · by_contra hle
      have hmul := (ceilDiv_le_iff_le_mul (b := 10 ^ 9) (c := 0) hn).1 (by omega)
      omega
    · have hle : 10 ^ 9 ⌈/⌉ n ≤ 10 ^ 9 := (ceilDiv_le_iff_le_mul hn).2 (Nat.le_mul_of_pos_left _ hn)
      omega
  obtain ⟨h0, hnone⟩ | ⟨r, hr, hpos, htps, hns⟩ := initAPICTimer_spec curr s
  · constructor
    · rintro ⟨s₀, hs₀, -⟩
      rw [hnone] at hs₀
      cases hs₀
    · rintro ⟨hlt, -⟩
      rw [Nat.mod_eq_of_lt hlt] at h0
      exact absurd h0 (by omega)
  · have hreq (hfit : 10 * elapsed curr < 2 ^ 32) (s₁ : ApicTimer)
        (hs₁ : s₁.nanosecondsPerTick = r.nanosecondsPerTick) :
        (Programs t.toNat (apicTimerOneShot t s₁) ∧
          Programs t.toNat (apicTimerPeriodicStart t s₁) ∧
          ∀ irqs, Programs t.toNat (apicNanosleep irqs t s₁) ∧
            Programs (1000000 * m.toNat) (apicMillisleep irqs m s₁)) ↔
        t.toNat < 2 ^ 32 * (10 ^ 9 ⌈/⌉ (10 * elapsed curr)) ∧
          1000000 * m.toNat < 2 ^ 32 * (10 ^ 9 ⌈/⌉ (10 * elapsed curr)) := by
      have hn : s₁.nanosecondsPerTick.toNat = 10 ^ 9 ⌈/⌉ (10 * elapsed curr) := by
        rw [hs₁, hns, htps, Nat.mod_eq_of_lt hfit]
      obtain ⟨h0, hlt⟩ := hsmall (show 0 < 10 * elapsed curr by omega)
      exact requests_iff t m hn h0 hlt
    constructor
    · rintro ⟨s₀, hs₀, hcal, hprog⟩
      rw [hr, Option.some.injEq] at hs₀
      subst hs₀
      have hfit : 10 * elapsed curr < 2 ^ 32 := by
        have := hcal.ticksPerSecond
        have hmod := Nat.mod_lt (10 * elapsed curr) (show 0 < 2 ^ 32 by decide)
        omega
      exact ⟨hfit, (hreq hfit r rfl).1 (hprog r rfl)⟩
    · rintro ⟨hfit, hcount⟩
      rw [Nat.mod_eq_of_lt hfit] at htps
      refine ⟨r, hr, ⟨htps, hns, ?_⟩, fun s₁ hs₁ => (hreq hfit s₁ hs₁).2 hcount⟩
      rw [hns]
      exact (hsmall hpos).1

/-- A timer before the calibration. -/
def ApicTimer.zero : ApicTimer where
  ticksPerSecond := 0
  nanosecondsPerTick := 0
  timeCounter := 0
  regs := fun _ => 0

/-- A timer that runs at a gigahertz, asked for a millisecond. -/
theorem timer_exact_iff_gigahertz :
    TimerExact (0xFFFFFFFF - 100000000) 1000000 1 ApicTimer.zero :=
  (timer_exact_iff (by decide) 1000000 1 ApicTimer.zero).2 (by decide +kernel)

/-- **The calibration divides by zero** when the timer has counted `2 ^ 31` ticks. -/
theorem calibration_divides_by_zero : (0x7FFFFFFF : BitVec 32) ≠ 0xFFFFFFFF ∧
    ¬ ∀ t m s, TimerExact 0x7FFFFFFF t m s := by
  refine ⟨by decide, fun h => ?_⟩
  obtain ⟨s₀, hs₀, -⟩ := h 0 0 ApicTimer.zero
  cases hs₀

end

end AnglOS
