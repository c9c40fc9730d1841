import Mathlib.Tactic
import Mathlib.Data.BitVec

/-!
# PCI Capabilities

The configuration space of a PCI function, read through the address and the data port, and the
search of its list of capabilities. A capability is a byte that names it and a byte with the offset
of the next; the byte at `0x34` has the offset of the first.

## Main results

* `pciConfigReadByte_eq` — the bytes of the configuration space, through 32-bit reads;
* `capLoop_spec` — what the search from an offset that is not zero returns, and when it ends;
* `pciGetCapabilityOffset_iff` — the search ends with the right answer exactly when the chain has
  the capability or an end, and, where it is empty, what the search reads in its place has an end
  and not the capability.
-/

namespace AnglOS

/-! ### Configuration space -/

/-- What the host bridge answers on the data port for an address. -/
abbrev PciBus := BitVec 32 → BitVec 32

/-- The address that the functions write to `PCI_CONFIG_ADDR`. -/
def pciConfigAddr (bus device func offset : BitVec 8) : BitVec 32 :=
  bus.setWidth 32 <<< 16 ||| device.setWidth 32 <<< 11 ||| func.setWidth 32 <<< 8 |||
    (offset &&& 0xFC).setWidth 32 ||| 0x80000000

/-- `pciConfigReadByte`. -/
def pciConfigReadByte (P : PciBus) (bus device func offset : BitVec 8) : BitVec 8 :=
  ((P (pciConfigAddr bus device func offset) >>> ((offset &&& 3).toNat * 8)) &&& 0xFF).setWidth 8

/-- `pciGetCapPointer`. -/
def pciGetCapPointer (P : PciBus) (bus device func : BitVec 8) : BitVec 8 :=
  pciConfigReadByte P bus device func 0x34

/-- The loop of `pciGetCapabilityOffset` from `cap_base` on, over the byte at an offset. `none`
means that it goes on. -/
def capLoop (read : BitVec 8 → BitVec 8) (cap : BitVec 8) : ℕ → BitVec 8 → Option (BitVec 8)
  | 0, _ => none
  | fuel + 1, base =>
    let curr := read base
    let next := read (base + 1)
    if curr = cap then some base
    else if next = 0 then some 0
    else capLoop read cap fuel next

/-- `pciGetCapabilityOffset`. -/
def pciGetCapabilityOffset (P : PciBus) (bus device func cap : BitVec 8) (fuel : ℕ) :
    Option (BitVec 8) :=
  capLoop (pciConfigReadByte P bus device func) cap fuel (pciGetCapPointer P bus device func)

/-- The function has the configuration space `c`: a 32-bit read returns four bytes of it. -/
def HasConfig (P : PciBus) (bus device func : BitVec 8) (c : BitVec 8 → BitVec 8) : Prop :=
  ∀ o : BitVec 8, P (pciConfigAddr bus device func o) =
    c ((o &&& 0xFC) + 3) ++ c ((o &&& 0xFC) + 2) ++ c ((o &&& 0xFC) + 1) ++ c (o &&& 0xFC)

/-- An offset is its word and its place in the word. -/
theorem offset_split (o : BitVec 8) : (o &&& 0xFC) + (o &&& 3) = o := by
  revert o
  decide

theorem offset_place (o : BitVec 8) : (o &&& 3) = 0 ∨ (o &&& 3) = 1 ∨ (o &&& 3) = 2 ∨
    (o &&& 3) = 3 := by
  revert o
  decide

theorem setWidth_and_byte (w : BitVec 32) : (w &&& 0xFF).setWidth 8 = w.setWidth 8 := by
  apply BitVec.eq_of_getLsbD_eq
  intro i hi
  rw [BitVec.getLsbD_setWidth, BitVec.getLsbD_setWidth, BitVec.getLsbD_and]
  interval_cases i <;> simp

/-- The bits of a word of four bytes. -/
theorem getLsbD_append_bytes (a b d e : BitVec 8) {i : ℕ} (hi : i < 8) :
    (a ++ b ++ d ++ e).getLsbD i = e.getLsbD i ∧
      (a ++ b ++ d ++ e).getLsbD (8 + i) = d.getLsbD i ∧
      (a ++ b ++ d ++ e).getLsbD (16 + i) = b.getLsbD i ∧
      (a ++ b ++ d ++ e).getLsbD (24 + i) = a.getLsbD i := by
  simp only [BitVec.getLsbD_append]
  refine ⟨?_, ?_, ?_, ?_⟩ <;> grind

/-- **A byte read returns the byte at its offset.** -/
theorem pciConfigReadByte_eq {P : PciBus} {bus device func : BitVec 8} {c : BitVec 8 → BitVec 8}
    (h : HasConfig P bus device func c) (o : BitVec 8) :
    pciConfigReadByte P bus device func o = c o := by
  rw [pciConfigReadByte, setWidth_and_byte, h o]
  apply BitVec.eq_of_getLsbD_eq
  intro i hi
  obtain ⟨h0, h1, h2, h3⟩ := getLsbD_append_bytes (c ((o &&& 0xFC) + 3)) (c ((o &&& 0xFC) + 2))
    (c ((o &&& 0xFC) + 1)) (c (o &&& 0xFC)) hi
  rw [BitVec.getLsbD_setWidth, BitVec.getLsbD_ushiftRight, decide_eq_true hi, Bool.true_and]
  have hsplit := offset_split o
  rcases offset_place o with hplace | hplace | hplace | hplace <;> rw [hplace] at hsplit ⊢
  · rw [add_zero] at hsplit
    rw [hsplit] at h0 ⊢
    simpa using h0
  · rw [hsplit] at h1 ⊢
    exact h1
  · rw [hsplit] at h2 ⊢
    exact h2
  · rw [hsplit] at h3 ⊢
    exact h3

/-! ### The chain -/

/-- **The chain from `p`**: the offsets that are met along the links up to a zero link. -/
inductive Chain (c : BitVec 8 → BitVec 8) : BitVec 8 → BitVec 8 → Prop
  | head {p : BitVec 8} (hp : p ≠ 0) : Chain c p p
  | link {p o : BitVec 8} (hp : p ≠ 0) (h : Chain c (c (p + 1)) o) : Chain c p o

/-- An offset at which the search stops: it has the capability, or is the last one. -/
def Stops (c : BitVec 8 → BitVec 8) (cap o : BitVec 8) : Prop :=
  c o = cap ∨ c (o + 1) = 0

/-- **The right answer**: an offset on the chain that has the capability, or zero when none has it.
-/
def IsCapability (c : BitVec 8 → BitVec 8) (cap r : BitVec 8) : Prop :=
  (r ≠ 0 → Chain c (c 0x34) r ∧ c r = cap) ∧ (r = 0 → ∀ o, Chain c (c 0x34) o → c o ≠ cap)

section

variable {c : BitVec 8 → BitVec 8} {cap p r : BitVec 8}

theorem Chain.ne_zero {o : BitVec 8} (h : Chain c p o) : p ≠ 0 ∧ o ≠ 0 := by
  induction h with
  | head hp => exact ⟨hp, hp⟩
  | link hp _ ih => exact ⟨hp, ih.2⟩

/-- There is no chain from zero. -/
theorem not_chain_zero {o : BitVec 8} : ¬Chain c 0 o := fun h =>
  h.ne_zero.1 rfl

/-- **What the search returns** from an offset that is not zero is right for the chain from there,
and the chain has an offset at which the search stops. -/
theorem capLoop_spec {fuel : ℕ} (hp : p ≠ 0) (h : capLoop c cap fuel p = some r) :
    (r ≠ 0 → Chain c p r ∧ c r = cap) ∧ (r = 0 → ∀ o, Chain c p o → c o ≠ cap) ∧
      ∃ o, Chain c p o ∧ Stops c cap o := by
  induction fuel generalizing p with
  | zero => cases h
  | succ fuel ih =>
    rw [capLoop] at h
    by_cases hcap : c p = cap
    · -- the capability is here
      simp only [hcap, if_true, Option.some.injEq] at h
      subst h
      exact ⟨fun _ => ⟨.head hp, hcap⟩, fun h0 => absurd h0 hp, p, .head hp, Or.inl hcap⟩
    · by_cases hend : c (p + 1) = 0
      · simp only [if_neg hcap, if_pos hend, Option.some.injEq] at h
        refine ⟨fun h0 => absurd h.symm h0, fun _ o ho => ?_, p, .head hp, Or.inr hend⟩
        cases ho with
        | head => exact hcap
        | link _ ho => exact absurd (hend ▸ ho) not_chain_zero
      · simp only [if_neg hcap, if_neg hend] at h
        obtain ⟨h1, h2, o, h3, h4⟩ := ih hend h
        refine ⟨fun h0 => ⟨.link hp (h1 h0).1, (h1 h0).2⟩, fun h0 o ho => ?_, o, .link hp h3, h4⟩
        cases ho with
        | head => exact hcap
        | link _ ho => exact h2 h0 o ho

/-- **The search ends** when the chain has an offset at which it stops. -/
theorem exists_capLoop {o : BitVec 8} (ho : Chain c p o) (hstop : Stops c cap o) :
    ∃ fuel r, capLoop c cap fuel p = some r := by
  induction ho with
  | head =>
    refine ⟨1, ?_⟩
    rw [capLoop]
    split_ifs with h1 h2
    · exact ⟨_, rfl⟩
    · exact ⟨_, rfl⟩
    · exact (hstop.elim h1 h2).elim
  | @link p o _ _ ih =>
    obtain ⟨fuel, r, hr⟩ := ih hstop
    refine ⟨fuel + 1, ?_⟩
    rw [capLoop]
    split_ifs with h1 h2
    · exact ⟨_, rfl⟩
    · exact ⟨_, rfl⟩
    · exact ⟨r, hr⟩

/-- The search from zero reads the first two bytes of the configuration space like a capability. It
returns zero when they name the capability or have no link; else it goes on from the link. -/
theorem capLoop_zero (fuel : ℕ) : capLoop c cap (fuel + 1) 0 =
    if c 0 = cap ∨ c 1 = 0 then some 0 else capLoop c cap fuel (c 1) := by
  rw [capLoop, zero_add]
  by_cases h1 : c 0 = cap
  · rw [if_pos h1, if_pos (Or.inl h1)]
  · by_cases h2 : c 1 = 0
    · rw [if_neg h1, if_pos h2, if_pos (Or.inr h2)]
    · rw [if_neg h1, if_neg h2, if_neg (not_or.mpr ⟨h1, h2⟩)]

end

/-- **The capability search ends with the right answer** exactly when the chain has the capability
or a last offset, or, where it is empty, when the bytes at zero have the capability or no link, or
the chain from their link has no capability and a last offset. -/
theorem pciGetCapabilityOffset_iff {P : PciBus} {bus device func : BitVec 8}
    {c : BitVec 8 → BitVec 8} (h : HasConfig P bus device func c) (cap : BitVec 8) :
    (∃ fuel r, pciGetCapabilityOffset P bus device func cap fuel = some r ∧ IsCapability c cap r) ↔
      (∃ o, Chain c (c 0x34) o ∧ Stops c cap o) ∨
        (c 0x34 = 0 ∧ (Stops c cap 0 ∨
          ((∀ o, Chain c (c 1) o → c o ≠ cap) ∧ ∃ o, Chain c (c 1) o ∧ c (o + 1) = 0))) := by
  have hread : pciConfigReadByte P bus device func = c := funext (pciConfigReadByte_eq h)
  simp only [pciGetCapabilityOffset, pciGetCapPointer, hread]
  by_cases hp : c 0x34 = 0
  · -- the empty list: the search looks at the bytes at zero
    have hnone : ∀ o, ¬Chain c 0 o := fun o => not_chain_zero
    have hright : ∀ r, IsCapability c cap r ↔ r = 0 := fun r => by
      rw [IsCapability, hp]
      constructor
      · intro h
        by_contra hr
        exact hnone r (h.1 hr).1
      · rintro rfl
        exact ⟨fun h0 => absurd rfl h0, fun _ o ho => absurd ho (hnone o)⟩
    simp only [hp, hright, hnone, false_and, exists_false, false_or, true_and]
    constructor
    · rintro ⟨fuel, r, hrun, rfl⟩
      cases fuel with
      | zero => cases hrun
      | succ fuel =>
        rw [capLoop_zero] at hrun
        by_cases hstop : c 0 = cap ∨ c 1 = 0
        · exact Or.inl (by simpa [Stops] using hstop)
        · rw [if_neg hstop] at hrun
          obtain ⟨-, hno, o, ho, hcap | hlast⟩ := capLoop_spec (not_or.mp hstop).2 hrun
          · exact absurd hcap (hno rfl o ho)
          · exact Or.inr ⟨hno rfl, o, ho, hlast⟩
    · intro hcond
      by_cases hstop : c 0 = cap ∨ c 1 = 0
      · exact ⟨1, 0, by rw [capLoop_zero, if_pos hstop], rfl⟩
      · obtain ⟨hno, o, ho, hlast⟩ := hcond.resolve_left (by simpa [Stops] using hstop)
        obtain ⟨fuel, r, hrun⟩ := exists_capLoop ho (Or.inr hlast : Stops c cap o)
        refine ⟨fuel + 1, r, by rw [capLoop_zero, if_neg hstop, hrun], ?_⟩
        by_contra hr
        obtain ⟨hchain, hcap⟩ := (capLoop_spec (not_or.mp hstop).2 hrun).1 hr
        exact hno r hchain hcap
  · simp only [hp, false_and, or_false]
    constructor
    · rintro ⟨fuel, r, hrun, -⟩
      exact (capLoop_spec hp hrun).2.2
    · rintro ⟨o, ho, hstop⟩
      obtain ⟨fuel, r, hrun⟩ := exists_capLoop ho hstop
      have hspec := capLoop_spec hp hrun
      exact ⟨fuel, r, hrun, hspec.1, hspec.2.1⟩

/-- A function with one capability, `0x11` at `0x40`. -/
def oneCapability (o : BitVec 8) : BitVec 8 :=
  if o = 0x34 then 0x40 else if o = 0x40 then 0x11 else 0

/-- The bus on which every function has the configuration space `c`. -/
def busOf (c : BitVec 8 → BitVec 8) : PciBus := fun a =>
  let o := a.setWidth 8 &&& 0xFC
  c (o + 3) ++ c (o + 2) ++ c (o + 1) ++ c o

theorem busOf_hasConfig (c : BitVec 8 → BitVec 8) : HasConfig (busOf c) 0 0 0 c := by
  intro o
  have ho : (pciConfigAddr 0 0 0 o).setWidth 8 &&& 0xFC = o &&& 0xFC := by
    revert o
    decide
  simp only [busOf, ho]

/-- The search finds it. -/
theorem pciGetCapabilityOffset_iff_one : ∃ fuel r,
    pciGetCapabilityOffset (busOf oneCapability) 0 0 0 0x11 fuel = some r ∧
      IsCapability oneCapability 0x11 r :=
  (pciGetCapabilityOffset_iff (busOf_hasConfig oneCapability) 0x11).mpr
    (Or.inl ⟨0x40, .head (by decide), Or.inl (by decide)⟩)

/-- On an absent device, which reads all ones, the search for a capability never ends. -/
theorem pciGetCapabilityOffset_absent :
    HasConfig (busOf fun _ => 0xFF) 0 0 0 (fun _ => 0xFF) ∧
      ∀ fuel, pciGetCapabilityOffset (busOf fun _ => 0xFF) 0 0 0 0x11 fuel = none := by
  have hconfig := busOf_hasConfig fun _ => 0xFF
  refine ⟨hconfig, fun fuel => ?_⟩
  have hread : pciConfigReadByte (busOf fun _ => 0xFF) 0 0 0 = fun _ => 0xFF :=
    funext (pciConfigReadByte_eq hconfig)
  rw [pciGetCapabilityOffset, hread]
  generalize pciGetCapPointer (busOf fun _ => 0xFF) 0 0 0 = p
  induction fuel generalizing p with
  | zero => rfl
  | succ fuel ih => exact ih 0xFF

end AnglOS
