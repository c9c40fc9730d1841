import AnglOS.Memory

/-!
# The Interrupt Controllers

The walk over the ACPI table that describes the interrupt controllers (the loop of `initAPIC`), and
the redirection entries of the I/O APIC. Each read of the walk is recorded with its address and
its number of bytes.

## Main results

* `madtLoop_of_entries` — what the walk finds in a well-formed table: an address override is read at
  byte 8 of its entry, where the compiler puts a 64-bit field behind a 16-bit one;
* `madt_decoded_iff` — the walk ends inside the table exactly when every entry that it meets is long
  enough for what is read of it, and decodes it when besides the override it reads is the right one;
* `ioapicReadRedir_iff` — a redirection entry reads back as written exactly when its high half is
  zero and its low half is what two other registers make up.
-/

namespace AnglOS

/-- The little-endian 32-bit word at `a`. -/
def Mem.load32 (m : Mem) (a : ℕ) : BitVec 32 :=
  m (a + 3) ++ m (a + 2) ++ m (a + 1) ++ m a

/-! ### The multiple APIC description table -/

/-- `sizeof(madt_t)`: a header of 36 bytes and two words. -/
abbrev madtSize : ℕ := 44

/-- The two addresses that the walk sets, and the reads it has made. -/
structure MadtWalk where
  lapicAddr : BitVec 64
  ioapicAddr : BitVec 64
  reads : List (ℕ × ℕ)
  deriving DecidableEq

/-- One entry of the table. `ioapic_address` is at byte 4 of its struct, and `lapic_address` at byte
8 of its own. -/
def madtEntry (m : Mem) (ptr : ℕ) (s : MadtWalk) : MadtWalk :=
  let s := { s with reads := s.reads ++ [(ptr, 1)] }
  if m ptr = 1 then
    { s with
      ioapicAddr := (m.load32 (ptr + 4)).setWidth 64
      reads := s.reads ++ [(ptr + 4, 4)] }
  else if m ptr = 5 then
    { s with
      lapicAddr := m.load64 (ptr + 8)
      reads := s.reads ++ [(ptr + 8, 8)] }
  else s

/-- The loop of `initAPIC` from `ptr` to `ptr2`. `none` means that it goes on. -/
def madtLoop (m : Mem) (ptr2 : ℕ) : ℕ → ℕ → MadtWalk → Option MadtWalk
  | 0, _, _ => none
  | fuel + 1, ptr, s =>
    if ptr < ptr2 then
      let s := madtEntry m ptr s
      madtLoop m ptr2 fuel (ptr + (m (ptr + 1)).toNat) { s with reads := s.reads ++ [(ptr + 1, 1)] }
    else some s

/-- The addresses that `initAPIC` takes from the table at `t`, before it maps them. The I/O APIC's
is zero before. -/
def initAPIC (m : Mem) (t fuel : ℕ) : Option MadtWalk :=
  madtLoop m (t + (m.load32 (t + 4)).toNat) fuel (t + madtSize)
    ⟨(m.load32 (t + 36)).setWidth 64, 0, []⟩

/-- The offsets of the entries from `p` up to the end of the table at `e`: each entry is at least as
long as its type and length bytes, and those of types 1 and 5 have twelve bytes. -/
def MadtEntries (m : Mem) (e : ℕ) : ℕ → List ℕ → Prop
  | p, [] => p = e
  | p, q :: qs => q = p ∧ 2 ≤ (m (p + 1)).toNat ∧ (m p = 1 ∨ m p = 5 → (m (p + 1)).toNat = 12) ∧
      p + (m (p + 1)).toNat ≤ e ∧ MadtEntries m e (p + (m (p + 1)).toNat) qs

/-- The last entry of a type. -/
def lastOfType (m : Mem) (type : BitVec 8) (qs : List ℕ) : Option ℕ :=
  (qs.filter fun q => m q = type).getLast?

/-- **What the table says** by the format: the address at byte 4 of the last override, or the
header's, and the address at byte 4 of the last entry for an I/O APIC. -/
structure MadtSays (m : Mem) (t : ℕ) (qs : List ℕ) (s : MadtWalk) : Prop where
  lapic : s.lapicAddr = match lastOfType m 5 qs with
    | some q => m.load64 (q + 4)
    | none => (m.load32 (t + 36)).setWidth 64
  ioapic : ∀ q, lastOfType m 1 qs = some q → s.ioapicAddr = (m.load32 (q + 4)).setWidth 64

/-- **The table is decoded**: the walk ends and reads only bytes of the table, and if the table is
well formed it finds what the table says. -/
def MadtDecoded (m : Mem) (t : ℕ) : Prop :=
  ∃ fuel s, initAPIC m t fuel = some s ∧
    (∀ rd ∈ s.reads, t ≤ rd.1 ∧ rd.1 + rd.2 ≤ t + (m.load32 (t + 4)).toNat) ∧
    ∀ qs, MadtEntries m (t + (m.load32 (t + 4)).toNat) (t + madtSize) qs → MadtSays m t qs s

/-- **The entries that the walk meets** from `p` on. -/
inductive Met (m : Mem) (e : ℕ) : ℕ → ℕ → Prop
  | here {p : ℕ} (hp : p < e) : Met m e p p
  | next {p q : ℕ} (hp : p < e) (h : Met m e (p + (m (p + 1)).toNat) q) : Met m e p q

/-- An entry of which the walk reads only bytes of the table, and behind which it goes on. -/
structure EntryFits (m : Mem) (e q : ℕ) : Prop where
  length_pos : 0 < (m (q + 1)).toNat
  header : q + 2 ≤ e
  ioapic : m q = 1 → q + 8 ≤ e
  lapic : m q = 5 → q + 16 ≤ e

section

variable {m : Mem} {e p t : ℕ} {s r : MadtWalk}

/-- The reads of an entry. -/
theorem madtEntry_reads (m : Mem) (p : ℕ) (s : MadtWalk) :
    (madtEntry m p s).reads = s.reads ++ (p, 1) ::
      if m p = 1 then [(p + 4, 4)] else if m p = 5 then [(p + 8, 8)] else [] := by
  simp only [madtEntry]
  split_ifs <;> simp

/-- The walk keeps its record. -/
theorem madtLoop_reads {fuel : ℕ} (h : madtLoop m e fuel p s = some r) :
    ∀ rd ∈ s.reads, rd ∈ r.reads := by
  induction fuel generalizing p s with
  | zero => cases h
  | succ fuel ih =>
    rw [madtLoop] at h
    split_ifs at h with hp
    · intro rd hrd
      refine ih h rd ?_
      simp only [madtEntry_reads]
      simp [hrd]
    · obtain rfl := Option.some.inj h
      exact fun rd hrd => hrd

/-- Behind an entry without a length the walk does not go on. -/
theorem madtLoop_eq_none (hp : p < e) (hlen : (m (p + 1)).toNat = 0) (fuel : ℕ) :
    madtLoop m e fuel p s = none := by
  induction fuel generalizing s with
  | zero => rfl
  | succ fuel ih =>
    rw [madtLoop, if_pos hp, hlen]
    exact ih

/-- A walk that ends and reads only bytes between `t` and `e` meets only entries that fit. -/
theorem entryFits_of_madtLoop {fuel q : ℕ} (h : madtLoop m e fuel p s = some r)
    (hreads : ∀ rd ∈ r.reads, rd.1 + rd.2 ≤ e) (hmet : Met m e p q) : EntryFits m e q := by
  induction hmet generalizing fuel s with
  | @here p hp =>
    have hpos : 0 < (m (p + 1)).toNat := by
      by_contra hzero
      rw [madtLoop_eq_none hp (by omega)] at h
      cases h
    cases fuel with
    | zero => cases h
    | succ fuel =>
      rw [madtLoop, if_pos hp] at h
      have hkeep := madtLoop_reads h
      simp only [madtEntry_reads] at hkeep
      refine ⟨hpos, ?_, fun h1 => ?_, fun h5 => ?_⟩
      · exact hreads (p + 1, 1) (hkeep _ (by simp))
      · exact hreads (p + 4, 4) (hkeep _ (by simp [h1]))
      · exact hreads (p + 8, 8) (hkeep _ (by simp [h5]))
  | @next p q hp _ ih =>
    cases fuel with
    | zero => cases h
    | succ fuel =>
      rw [madtLoop, if_pos hp] at h
      exact ih h

/-- **The walk ends inside the table** when the entries it meets fit. -/
theorem exists_madtLoop (ht : t ≤ p) (hfits : ∀ q, Met m e p q → EntryFits m e q)
    (hs : ∀ rd ∈ s.reads, t ≤ rd.1 ∧ rd.1 + rd.2 ≤ e) :
    ∃ fuel r, madtLoop m e fuel p s = some r ∧ ∀ rd ∈ r.reads, t ≤ rd.1 ∧ rd.1 + rd.2 ≤ e := by
  induction hn : e - p using Nat.strongRecOn generalizing p s with
  | ind n ih =>
    by_cases hp : p < e
    · have hfit := hfits p (.here hp)
      obtain ⟨hpos, hheader, hioapic, hlapic⟩ := hfit
      obtain ⟨fuel, r, hrun, hreads⟩ := ih (e - (p + (m (p + 1)).toNat)) (by omega)
        (p := p + (m (p + 1)).toNat)
        (s := { madtEntry m p s with reads := (madtEntry m p s).reads ++ [(p + 1, 1)] }) (by omega)
        (fun q hq => hfits q (.next hp hq)) (fun rd hrd => by
          simp only [madtEntry_reads] at hrd
          split_ifs at hrd with h1 h5 <;>
            simp only [List.append_assoc, List.cons_append, List.nil_append, List.mem_append,
              List.mem_cons, List.not_mem_nil, or_false] at hrd
          · have := hioapic h1
            rcases hrd with hrd | rfl | rfl | rfl
            · exact hs rd hrd
            all_goals exact ⟨by simp; omega, by simp; omega⟩
          · have := hlapic h5
            rcases hrd with hrd | rfl | rfl | rfl
            · exact hs rd hrd
            all_goals exact ⟨by simp; omega, by simp; omega⟩
          · rcases hrd with hrd | rfl | rfl
            · exact hs rd hrd
            all_goals exact ⟨by simp; omega, by simp; omega⟩) rfl
      exact ⟨fuel + 1, r, by rw [madtLoop, if_pos hp]; exact hrun, hreads⟩
    · exact ⟨1, s, by rw [madtLoop, if_neg hp], hs⟩

/-- The last entry of a type, with one entry in front. -/
theorem lastOfType_cons (m : Mem) (type : BitVec 8) (q : ℕ) (qs : List ℕ) :
    lastOfType m type (q :: qs) =
      (lastOfType m type qs).or (if m q = type then some q else none) := by
  unfold lastOfType
  by_cases h : m q = type
  · rw [List.filter_cons_of_pos (by simpa using h), List.getLast?_cons, if_pos h]
    cases (qs.filter fun q => decide (m q = type)).getLast? <;> rfl
  · rw [List.filter_cons_of_neg (by simpa using h), if_neg h, Option.or_none]

/-- **What the walk finds** in a well-formed table. -/
theorem madtLoop_of_entries {qs : List ℕ} (h : MadtEntries m e p qs) {fuel : ℕ}
    (hrun : madtLoop m e fuel p s = some r) :
    r.lapicAddr = ((lastOfType m 5 qs).map fun q => m.load64 (q + 8)).getD s.lapicAddr ∧
      r.ioapicAddr =
        ((lastOfType m 1 qs).map fun q => (m.load32 (q + 4)).setWidth 64).getD s.ioapicAddr := by
  induction qs generalizing fuel p s with
  | nil =>
    obtain rfl : p = e := h
    cases fuel with
    | zero => cases hrun
    | succ fuel =>
      rw [madtLoop, if_neg (lt_irrefl _)] at hrun
      obtain rfl := Option.some.inj hrun
      exact ⟨rfl, rfl⟩
  | cons q qs ih =>
    obtain ⟨rfl, hlen, -, hle, hrest⟩ := h
    cases fuel with
    | zero => cases hrun
    | succ fuel =>
      rw [madtLoop, if_pos (by omega)] at hrun
      obtain ⟨hl, hi⟩ := ih hrest hrun
      rw [hl, hi, lastOfType_cons, lastOfType_cons]
      constructor
      · cases lastOfType m 5 qs with
        | some q' => rfl
        | none => by_cases h1 : m q = 1 <;> by_cases h5 : m q = 5 <;> simp_all [madtEntry]
      · cases lastOfType m 1 qs with
        | some q' => rfl
        | none => by_cases h1 : m q = 1 <;> by_cases h5 : m q = 5 <;> simp_all [madtEntry]

/-- A table has one division into entries. -/
theorem MadtEntries.unique {qs rs : List ℕ} (h : MadtEntries m e p qs) (h' : MadtEntries m e p rs) :
    qs = rs := by
  induction qs generalizing p rs with
  | nil =>
    cases rs with
    | nil => rfl
    | cons r rs =>
      obtain ⟨rfl, hlen, -, hle, -⟩ := h'
      have hp : r = e := h
      omega
  | cons q qs ih =>
    obtain ⟨rfl, hlen, -, hle, hrest⟩ := h
    cases rs with
    | nil =>
      have hp : q = e := h'
      omega
    | cons r rs => rw [h'.1, ih hrest h'.2.2.2.2]

end

/-- **The walk decodes the table** exactly when every entry that it meets has a length and holds
what is read of it, and, in a well-formed table, the eight bytes at byte 8 of the last override are
those at byte 4. -/
theorem madt_decoded_iff (m : Mem) (t : ℕ) :
    MadtDecoded m t ↔
      (∀ q, Met m (t + (m.load32 (t + 4)).toNat) (t + madtSize) q →
        EntryFits m (t + (m.load32 (t + 4)).toNat) q) ∧
      ∀ qs, MadtEntries m (t + (m.load32 (t + 4)).toNat) (t + madtSize) qs →
        ∀ q, lastOfType m 5 qs = some q → m.load64 (q + 8) = m.load64 (q + 4) := by
  constructor
  · rintro ⟨fuel, s, hrun, hreads, htells⟩
    refine ⟨fun q hq => entryFits_of_madtLoop hrun (fun rd hrd => (hreads rd hrd).2) hq,
      fun qs hqs q hq => ?_⟩
    have hfound := (madtLoop_of_entries hqs hrun).1
    have hsaid := (htells qs hqs).lapic
    rw [hq] at hfound hsaid
    exact hfound.symm.trans hsaid
  · rintro ⟨hfits, hover⟩
    obtain ⟨fuel, s, hrun, hreads⟩ := exists_madtLoop (t := t) (Nat.le_add_right t madtSize) hfits
      (s := ⟨(m.load32 (t + 36)).setWidth 64, 0, []⟩) (by simp)
    refine ⟨fuel, s, hrun, hreads, fun qs hqs => ⟨?_, fun q hq => ?_⟩⟩
    · rw [(madtLoop_of_entries hqs hrun).1]
      cases hlast : lastOfType m 5 qs with
      | none => rfl
      | some q => exact hover qs hqs q hlast
    · rw [(madtLoop_of_entries hqs hrun).2, hq]
      rfl

/-- A table with an override to `0x10` and a processor. -/
def overrideTable : Mem
  | 4 => 64
  | 44 => 5
  | 45 => 12
  | 48 => 0x10
  | 57 => 8
  | _ => 0

/-- The override is read four bytes too far, from the length byte of the processor's entry. -/
theorem madt_override_misread :
    MadtEntries overrideTable (0 + (overrideTable.load32 (0 + 4)).toNat) (0 + madtSize) [44, 56] ∧
      ¬MadtDecoded overrideTable 0 := by
  have hentries : MadtEntries overrideTable (0 + (overrideTable.load32 (0 + 4)).toNat)
      (0 + madtSize) [44, 56] := by
    refine ⟨rfl, by decide, fun _ => rfl, by decide, rfl, by decide, ?_, by decide, rfl⟩
    rintro (h | h) <;> exact absurd h (by decide)
  refine ⟨hentries, ?_⟩
  rintro ⟨fuel, s, hrun, -, htells⟩
  have hlast : lastOfType overrideTable 5 [44, 56] = some 44 := by decide
  have hfound := (madtLoop_of_entries hentries hrun).1
  have hsaid := (htells _ hentries).lapic
  rw [hlast] at hfound hsaid
  exact absurd (hfound.symm.trans hsaid) (by decide)

/-! ### The I/O APIC -/

/-- The I/O APIC: its index register, and the registers behind its window. -/
structure IoApic where
  select : BitVec 8
  regs : BitVec 8 → BitVec 32

/-- `ioapicReadReg`. -/
def ioapicReadReg (a : IoApic) (reg : ℕ) : BitVec 32 × IoApic :=
  let a := { a with select := BitVec.ofNat 8 reg }
  (a.regs a.select, a)

/-- `ioapicWriteReg`. -/
def ioapicWriteReg (a : IoApic) (reg : ℕ) (data : BitVec 32) : IoApic :=
  let a := { a with select := BitVec.ofNat 8 reg }
  { a with regs := Function.update a.regs a.select data }

/-- `ioapicReadRedir`. It shifts a 32-bit number by 32, which C leaves undefined: `shl` is what the
compiler makes of it. -/
def ioapicReadRedir (shl : BitVec 32 → BitVec 32) (a : IoApic) (irq : ℕ) : BitVec 64 × IoApic :=
  let low := ioapicReadReg a (0x10 + irq)
  let high := ioapicReadReg low.2 (0x10 + irq + 1)
  (low.1.setWidth 64 ||| (shl high.1).setWidth 64, high.2)

/-- `ioapicWriteRedir`. -/
def ioapicWriteRedir (a : IoApic) (irq : ℕ) (e : BitVec 64) : IoApic :=
  let a := ioapicWriteReg a (0x10 + irq * 2) (e.setWidth 32)
  ioapicWriteReg a (0x10 + irq * 2 + 1) ((e >>> 32).setWidth 32)

/-- The state after a sequence of writes. -/
def writeRedirs (a : IoApic) (ws : List (ℕ × BitVec 64)) : IoApic :=
  ws.foldl (fun a w => ioapicWriteRedir a w.1 w.2) a

/-- The last entry that was written for an interrupt. -/
def lastWritten (ws : List (ℕ × BitVec 64)) (irq : ℕ) : Option (BitVec 64) :=
  (ws.filter fun w => w.1 = irq).getLast?.map Prod.snd

/-- The words of the table of entries, two for each interrupt, after a sequence of writes: those
of the last entries written, and else those from before. -/
def redirWord (a : IoApic) (ws : List (ℕ × BitVec 64)) (n : ℕ) : BitVec 32 :=
  match lastWritten ws (n / 2) with
  | some e => if n % 2 = 0 then e.setWidth 32 else (e >>> 32).setWidth 32
  | none => a.regs (BitVec.ofNat 8 (0x10 + n))

section

variable {a : IoApic} {ws : List (ℕ × BitVec 64)} {irq n : ℕ} {e : BitVec 64}

/-- Registers below 256 are different registers. -/
theorem ofNat_inj {i j : ℕ} (hi : i < 256) (hj : j < 256) :
    BitVec.ofNat 8 i = BitVec.ofNat 8 j ↔ i = j := by
  rw [← BitVec.toNat_inj, BitVec.toNat_ofNat, BitVec.toNat_ofNat, Nat.mod_eq_of_lt hi,
    Nat.mod_eq_of_lt hj]

/-- The words after one write. -/
theorem ioapicWriteRedir_regs (hirq : irq < 24) (hn : n < 48) :
    (ioapicWriteRedir a irq e).regs (BitVec.ofNat 8 (0x10 + n)) =
      if n / 2 = irq then if n % 2 = 0 then e.setWidth 32 else (e >>> 32).setWidth 32
      else a.regs (BitVec.ofNat 8 (0x10 + n)) := by
  simp only [ioapicWriteRedir, ioapicWriteReg, Function.update_apply]
  have hhigh := ofNat_inj (i := 0x10 + n) (j := 0x10 + irq * 2 + 1) (by omega) (by omega)
  have hlow := ofNat_inj (i := 0x10 + n) (j := 0x10 + irq * 2) (by omega) (by omega)
  by_cases h1 : n = irq * 2 + 1
  · rw [if_pos (hhigh.mpr (by omega)), if_pos (by omega), if_neg (by omega)]
  · rw [if_neg fun h => h1 (by have := hhigh.mp h; omega)]
    by_cases h2 : n = irq * 2
    · rw [if_pos (hlow.mpr (by omega)), if_pos (by omega), if_pos (by omega)]
    · rw [if_neg fun h => h2 (by have := hlow.mp h; omega), if_neg (by omega)]

/-- The last entry written, with one write behind. -/
theorem lastWritten_concat (ws : List (ℕ × BitVec 64)) (irq' : ℕ) (e : BitVec 64) (irq : ℕ) :
    lastWritten (ws ++ [(irq', e)]) irq = if irq' = irq then some e else lastWritten ws irq := by
  unfold lastWritten
  rw [List.filter_append]
  by_cases h : irq' = irq
  · rw [List.filter_cons_of_pos (by simpa using h), if_pos h]
    simp
  · rw [List.filter_cons_of_neg (by simpa using h), if_neg h]
    simp

/-- **The registers after a sequence of writes** are the words of the table. -/
theorem writeRedirs_regs (hws : ∀ w ∈ ws, w.1 < 24) (hn : n < 48) :
    (writeRedirs a ws).regs (BitVec.ofNat 8 (0x10 + n)) = redirWord a ws n := by
  induction ws using List.reverseRecOn with
  | nil => rfl
  | append_singleton ws w ih =>
    obtain ⟨irq, e⟩ := w
    have hirq : irq < 24 := hws (irq, e) (by simp)
    rw [writeRedirs, List.foldl_concat, ← writeRedirs, ioapicWriteRedir_regs hirq hn,
      ih fun w hw => hws w (by simp [hw]), redirWord, redirWord, lastWritten_concat]
    by_cases h : n / 2 = irq
    · rw [if_pos h, if_pos h.symm]
    · rw [if_neg h, if_neg fun h' => h h'.symm]

/-- **What is read** for an interrupt: two words of the table, and never a high half. -/
theorem ioapicReadRedir_eq (shl : BitVec 32 → BitVec 32) (hws : ∀ w ∈ ws, w.1 < 24)
    (hirq : irq < 24) :
    (ioapicReadRedir shl (writeRedirs a ws) irq).1 =
      (redirWord a ws irq ||| shl (redirWord a ws (irq + 1))).setWidth 64 := by
  have h0 := writeRedirs_regs (a := a) (n := irq) hws (by omega)
  have h1 := writeRedirs_regs (a := a) (n := irq + 1) hws (by omega)
  simp only [ioapicReadRedir, ioapicReadReg]
  rw [h0, Nat.add_assoc, h1]
  apply BitVec.eq_of_getLsbD_eq
  intro i hi
  simp [hi]

/-- A 64-bit number is a widened 32-bit number exactly when its high half is zero. -/
theorem setWidth_eq_iff (w : BitVec 32) (e : BitVec 64) :
    w.setWidth 64 = e ↔ (e >>> 32).setWidth 32 = (0 : BitVec 32) ∧ e.setWidth 32 = w := by
  have hw := w.isLt
  have he := e.isLt
  have hzero : (0 : BitVec 32).toNat = 0 := rfl
  rw [← BitVec.toNat_inj, ← BitVec.toNat_inj, ← BitVec.toNat_inj, hzero]
  simp only [BitVec.toNat_setWidth, BitVec.toNat_ushiftRight, Nat.shiftRight_eq_div_pow]
  omega

end

/-- **An entry reads back as written**: after the writes, what is read for the interrupt is the last
entry written for it. -/
def ReadsBack (shl : BitVec 32 → BitVec 32) (a : IoApic) (ws : List (ℕ × BitVec 64)) (irq : ℕ) :
    Prop :=
  ∀ e, lastWritten ws irq = some e → (ioapicReadRedir shl (writeRedirs a ws) irq).1 = e

/-- **A redirection entry reads back as written**, after any sequence of writes, exactly when the
high half of the last one for its interrupt is zero and the low half is made up of the words at the
number of the interrupt and behind it. -/
theorem ioapicReadRedir_iff (shl : BitVec 32 → BitVec 32) (a : IoApic) {ws : List (ℕ × BitVec 64)}
    {irq : ℕ} (hws : ∀ w ∈ ws, w.1 < 24) (hirq : irq < 24) :
    ReadsBack shl a ws irq ↔ ∀ e, lastWritten ws irq = some e →
      (e >>> 32).setWidth 32 = (0 : BitVec 32) ∧
        e.setWidth 32 = redirWord a ws irq ||| shl (redirWord a ws (irq + 1)) := by
  refine forall₂_congr fun e _ => ?_
  rw [ioapicReadRedir_eq shl hws hirq, setWidth_eq_iff]

/-- The I/O APIC with all registers zero. -/
def zeroIoApic : IoApic :=
  ⟨0, fun _ => 0⟩

/-- For interrupt 0, an entry without a destination reads back if the undefined shift gives zero for
zero. -/
theorem ioapicReadRedir_iff_zero : ReadsBack (fun _ => 0) zeroIoApic [(0, 0x21)] 0 :=
  (@ioapicReadRedir_iff (fun _ => 0) zeroIoApic [(0, 0x21)] 0 (by simp) (by norm_num)).mpr
    (by rintro e ⟨⟩; decide)

/-- The destination of an entry is lost, whatever the undefined shift gives. -/
theorem ioapicReadRedir_drops_high : ¬∃ shl : BitVec 32 → BitVec 32,
    ReadsBack shl zeroIoApic [(1, 0x0100000000000021)] 1 := by
  rintro ⟨shl, h⟩
  have hread := h 0x0100000000000021 rfl
  rw [ioapicReadRedir_eq shl (by simp) (by norm_num), setWidth_eq_iff] at hread
  exact absurd hread.1 (by decide)

end AnglOS
