import AnglOS.Memory

/-!
# A Fragment of the x86-64 Instruction Set

The sixteen general registers, the data segment registers, the two bases of `gs`, the page-table
register, three flags and the interrupt flag, over a flat memory; and the instructions that entry
and exit code uses. Straight-line code runs instruction after instruction (`run`). A call pushes a
return address and runs its callee; where the callee does not come back to that address, there is
no state after the call.

Memory is the part of the address space that every page table translates alike, so a load or
store does not look at `cr3`.

## Main results

* `Flags.ge_iff` — `jge` after `cmp` compares signed numbers;
* `run_storeAll`, `run_loadAll` — a run of stores to a block, and of loads from it;
* `exec_push`, `exec_pop`, `call_eq_some` — the stack.
-/

namespace AnglOS

/-! ### The state -/

/-- The general registers. -/
inductive Reg
  | rax | rbx | rcx | rdx | rsi | rdi | rbp | rsp
  | r8 | r9 | r10 | r11 | r12 | r13 | r14 | r15
  deriving DecidableEq, Repr

/-- The flags that a conditional jump reads. -/
structure Flags where
  zero : Bool
  sign : Bool
  overflow : Bool
  deriving DecidableEq, Repr

/-- The state of the processor, with the memory. -/
structure Cpu where
  reg : Reg → BitVec 64
  flags : Flags
  ds : BitVec 16
  es : BitVec 16
  ss : BitVec 16
  gsBase : BitVec 64
  kernelGsBase : BitVec 64
  cr3 : BitVec 64
  interrupts : Bool
  mem : Mem

/-- The state with the value `v` in the register `r`. -/
def Cpu.set (s : Cpu) (r : Reg) (v : BitVec 64) : Cpu :=
  { s with reg := Function.update s.reg r v }

/-- The state with the word `v` at the address `a`. -/
def Cpu.store (s : Cpu) (a : ℕ) (v : BitVec 64) : Cpu :=
  { s with mem := s.mem.store64 a v }

/-- A memory operand: `[r + d]` or `[gs:d]`. -/
inductive Operand
  | base (r : Reg) (d : ℕ)
  | gs (d : ℕ)
  deriving DecidableEq, Repr

/-- The address of an operand. -/
def Cpu.address (s : Cpu) : Operand → ℕ
  | .base r d => (s.reg r + BitVec.ofNat 64 d).toNat
  | .gs d => (s.gsBase + BitVec.ofNat 64 d).toNat

/-- The data segment registers. -/
inductive Segment
  | ds | es | ss
  deriving DecidableEq, Repr

/-! ### Instructions -/

/-- The instructions. The names of the variants say what stands on the right-hand side. -/
inductive Instr
  | push (r : Reg)
  | pop (r : Reg)
  | mov (dst src : Reg)
  | movImm (dst : Reg) (v : BitVec 64)
  | movImm16 (dst : Reg) (v : BitVec 16)
  | load (dst : Reg) (a : Operand)
  | store (a : Operand) (src : Reg)
  | storeImm (a : Operand) (v : BitVec 64)
  | leaRel (dst : Reg) (label : BitVec 64)
  | leaScaled (dst base index : Reg) (scale : ℕ)
  | xor (dst src : Reg)
  | xor32 (dst src : Reg)
  | cmpImm (r : Reg) (v : BitVec 64)
  | movSegment (seg : Segment) (src : Reg)
  | movCr3 (src : Reg)
  | swapgs
  | sti
  deriving DecidableEq, Repr

/-- The flags after `cmp a, b`. -/
def Flags.ofCmp (a b : BitVec 64) : Flags where
  zero := a == b
  sign := (a - b).msb
  overflow := a.msb != b.msb && (a - b).msb != a.msb

/-- The flags after a bitwise operation. -/
def Flags.ofBits {w : ℕ} (v : BitVec w) : Flags where
  zero := v == 0#w
  sign := v.msb
  overflow := false

/-- The condition of `jge`. -/
def Flags.Ge (f : Flags) : Prop :=
  f.sign = f.overflow

instance (f : Flags) : Decidable f.Ge :=
  inferInstanceAs (Decidable (_ = _))

/-- A word on the stack. -/
def Cpu.push (s : Cpu) (v : BitVec 64) : Cpu :=
  let s := s.set .rsp (s.reg .rsp - 8#64)
  s.store (s.reg .rsp).toNat v

/-- One instruction. -/
def exec (s : Cpu) : Instr → Cpu
  | .push r => s.push (s.reg r)
  | .pop r => (s.set .rsp (s.reg .rsp + 8#64)).set r (s.mem.load64 (s.reg .rsp).toNat)
  | .mov dst src => s.set dst (s.reg src)
  | .movImm dst v => s.set dst v
  | .movImm16 dst v => s.set dst ((s.reg dst).extractLsb' 16 48 ++ v)
  | .load dst a => s.set dst (s.mem.load64 (s.address a))
  | .store a src => s.store (s.address a) (s.reg src)
  | .storeImm a v => s.store (s.address a) v
  | .leaRel dst label => s.set dst label
  | .leaScaled dst base index scale =>
    s.set dst (s.reg base + s.reg index * BitVec.ofNat 64 scale)
  | .xor dst src =>
    { s.set dst (s.reg dst ^^^ s.reg src) with flags := .ofBits (s.reg dst ^^^ s.reg src) }
  | .xor32 dst src =>
    let v := (s.reg dst ^^^ s.reg src).setWidth 32
    { s.set dst (v.setWidth 64) with flags := .ofBits v }
  | .cmpImm r v => { s with flags := .ofCmp (s.reg r) v }
  | .movSegment .ds src => { s with ds := (s.reg src).setWidth 16 }
  | .movSegment .es src => { s with es := (s.reg src).setWidth 16 }
  | .movSegment .ss src => { s with ss := (s.reg src).setWidth 16 }
  | .movCr3 src => { s with cr3 := s.reg src }
  | .swapgs => { s with gsBase := s.kernelGsBase, kernelGsBase := s.gsBase }
  | .sti => { s with interrupts := true }

/-- Straight-line code. -/
def run (code : List Instr) (s : Cpu) : Cpu :=
  code.foldl exec s

/-- A call that pushes the return address `ret` and runs `callee` up to its `ret` instruction. The
instruction pops the address to which the call returns. -/
def call (ret : BitVec 64) (callee : Cpu → Cpu) (s : Cpu) : Option Cpu :=
  let s := callee (s.push ret)
  if s.mem.load64 (s.reg .rsp).toNat = ret then some (s.set .rsp (s.reg .rsp + 8#64)) else none

/-- Stores of registers to the words of a block. -/
def storeAll (base : Reg) (slots : List (ℕ × Reg)) : List Instr :=
  slots.map fun p => .store (.base base p.1) p.2

/-- Loads of registers from the words of a block. -/
def loadAll (base : Reg) (slots : List (ℕ × Reg)) : List Instr :=
  slots.map fun p => .load p.2 (.base base p.1)

/-! ### Registers and memory -/

section

variable {s : Cpu} {r q : Reg} {v w : BitVec 64} {a : ℕ}

@[simp] theorem Cpu.set_reg_self : (s.set r v).reg r = v :=
  Function.update_self ..

theorem Cpu.set_reg_of_ne (h : q ≠ r) : (s.set r v).reg q = s.reg q :=
  Function.update_of_ne h ..

@[simp] theorem Cpu.set_mem : (s.set r v).mem = s.mem := rfl

@[simp] theorem Cpu.set_gsBase : (s.set r v).gsBase = s.gsBase := rfl

@[simp] theorem Cpu.store_reg : (s.store a v).reg = s.reg := rfl

@[simp] theorem Cpu.store_gsBase : (s.store a v).gsBase = s.gsBase := rfl

@[simp] theorem Cpu.store_mem : (s.store a v).mem = s.mem.store64 a v := rfl

theorem Cpu.set_reg (s : Cpu) (r q : Reg) (v : BitVec 64) :
    (s.set r v).reg q = if q = r then v else s.reg q :=
  Function.update_apply ..

@[simp] theorem run_cons (i : Instr) (c : List Instr) (s : Cpu) :
    run (i :: c) s = run c (exec s i) := rfl

@[simp] theorem run_nil (s : Cpu) : run [] s = s := rfl

/-- An address that does not wrap. -/
theorem toNat_add_ofNat {b : BitVec 64} {d : ℕ} (h : b.toNat + d < 2 ^ 64) :
    (b + BitVec.ofNat 64 d).toNat = b.toNat + d := by
  rw [BitVec.toNat_add, BitVec.toNat_ofNat, Nat.add_mod_mod, Nat.mod_eq_of_lt h]

theorem Cpu.address_gs {g d : ℕ} (h : s.gsBase.toNat = g) (hfit : g + d < 2 ^ 64) :
    s.address (.gs d) = g + d := by
  rw [Cpu.address, toNat_add_ofNat (by omega), h]

theorem Cpu.address_base {b d : ℕ} (h : (s.reg r).toNat = b) (hfit : b + d < 2 ^ 64) :
    s.address (.base r d) = b + d := by
  rw [Cpu.address, toNat_add_ofNat (by omega), h]

/-! ### Comparison -/

/-- **`jge` compares signed numbers.** -/
theorem Flags.ge_iff (a b : BitVec 64) : (Flags.ofCmp a b).Ge ↔ b.toInt ≤ a.toInt := by
  have ha := a.isLt
  have hb := b.isLt
  have hsub : (a - b).toNat = (2 ^ 64 - b.toNat + a.toNat) % 2 ^ 64 := BitVec.toNat_sub ..
  have hmsb : ∀ x : BitVec 64, x.msb = decide (2 ^ 63 ≤ x.toNat) := fun x => by
    simp [BitVec.msb_eq_decide]
  have hint : ∀ x : BitVec 64, x.toInt =
      if 2 ^ 63 ≤ x.toNat then (x.toNat : ℤ) - (2 : ℤ) ^ 64 else (x.toNat : ℤ) := fun x => by
    rw [BitVec.toInt_eq_toNat_cond]
    split_ifs <;> omega
  rw [Flags.Ge, Flags.ofCmp, hint, hint]
  simp only [hmsb, hsub]
  by_cases h1 : 2 ^ 63 ≤ a.toNat <;> by_cases h2 : 2 ^ 63 ≤ b.toNat <;>
    by_cases h3 : 2 ^ 63 ≤ (2 ^ 64 - b.toNat + a.toNat) % 2 ^ 64 <;>
    simp only [h1, h2, h3, if_true, if_false, decide_true, decide_false] <;> simp <;> omega

end

/-! ### Blocks -/

/-- The words of the slots do not overlap. -/
def SlotsApart (slots : List (ℕ × Reg)) : Prop :=
  slots.Pairwise fun p q => p.1 + 8 ≤ q.1 ∨ q.1 + 8 ≤ p.1

instance (slots : List (ℕ × Reg)) : Decidable (SlotsApart slots) :=
  inferInstanceAs (Decidable (List.Pairwise _ _))

section

variable {s : Cpu} {base : Reg} {slots : List (ℕ × Reg)}

/-- **Stores to a block**: each word holds its register, and every other byte is as before. -/
theorem run_storeAll (hfit : ∀ p ∈ slots, (s.reg base).toNat + p.1 < 2 ^ 64)
    (hapart : SlotsApart slots) :
    ∃ m, run (storeAll base slots) s = { s with mem := m } ∧
      (∀ p ∈ slots, m.load64 ((s.reg base).toNat + p.1) = s.reg p.2) ∧
      ∀ x, (∀ p ∈ slots, x < (s.reg base).toNat + p.1 ∨ (s.reg base).toNat + p.1 + 8 ≤ x) →
        m x = s.mem x := by
  induction slots generalizing s with
  | nil => exact ⟨s.mem, rfl, by simp, fun _ _ => rfl⟩
  | cons p slots ih =>
    obtain ⟨hp, hrest⟩ := List.pairwise_cons.mp hapart
    have haddr : s.address (.base base p.1) = (s.reg base).toNat + p.1 :=
      toNat_add_ofNat (hfit p List.mem_cons_self)
    obtain ⟨m, hrun, hload, hother⟩ := ih (s := s.store (s.address (.base base p.1)) (s.reg p.2))
      (fun q hq => hfit q (List.mem_cons_of_mem _ hq)) hrest
    simp only [Cpu.store_reg, Cpu.store_mem, haddr] at hload hother
    refine ⟨m, hrun, fun q hq => ?_, fun x hx => ?_⟩
    · rcases List.mem_cons.mp hq with rfl | hq
      · -- the later stores leave the first word alone
        have hkeep : m.load64 ((s.reg base).toNat + q.1) =
            (s.mem.store64 ((s.reg base).toNat + q.1) (s.reg q.2)).load64
              ((s.reg base).toNat + q.1) :=
          Mem.load64_congr fun x h1 h2 => hother x fun p' hp' => by
            have := hp p' hp'
            omega
        rw [hkeep, Mem.load64_store64_self]
      · exact hload q hq
    · rw [hother x fun q hq => hx q (List.mem_cons_of_mem _ hq)]
      have := hx p List.mem_cons_self
      exact Mem.store64_of_not_mem (by omega)

/-- **Loads from a block**: each register holds its word, and every other register is as
before. -/
theorem run_loadAll (hfit : ∀ p ∈ slots, (s.reg base).toNat + p.1 < 2 ^ 64)
    (hbase : base ∉ slots.map Prod.snd) (hdistinct : (slots.map Prod.snd).Nodup) :
    ∃ ρ, run (loadAll base slots) s = { s with reg := ρ } ∧
      (∀ p ∈ slots, ρ p.2 = s.mem.load64 ((s.reg base).toNat + p.1)) ∧
      ∀ r, r ∉ slots.map Prod.snd → ρ r = s.reg r := by
  induction slots generalizing s with
  | nil => exact ⟨s.reg, rfl, by simp, fun _ _ => rfl⟩
  | cons p slots ih =>
    rw [List.map_cons, List.mem_cons, not_or] at hbase
    obtain ⟨hp, hrest⟩ := List.nodup_cons.mp hdistinct
    have haddr : s.address (.base base p.1) = (s.reg base).toNat + p.1 :=
      toNat_add_ofNat (hfit p List.mem_cons_self)
    have hkeep : (s.set p.2 (s.mem.load64 (s.address (.base base p.1)))).reg base = s.reg base :=
      Cpu.set_reg_of_ne hbase.1
    obtain ⟨ρ, hrun, hload, hother⟩ := ih
      (s := s.set p.2 (s.mem.load64 (s.address (.base base p.1))))
      (fun q hq => by rw [hkeep]; exact hfit q (List.mem_cons_of_mem _ hq)) hbase.2 hrest
    rw [hkeep] at hload
    refine ⟨ρ, hrun, fun q hq => ?_, fun r hr => ?_⟩
    · rcases List.mem_cons.mp hq with rfl | hq
      · rw [hother _ hp, Cpu.set_reg_self, haddr]
      · exact hload q hq
    · rw [List.map_cons, List.mem_cons, not_or] at hr
      rw [hother r hr.2, Cpu.set_reg_of_ne hr.1]

/-! ### The stack -/

variable {v ret : BitVec 64} {r : Reg} {callee : Cpu → Cpu}

theorem toNat_sub_eight {a : BitVec 64} (h : 8 ≤ a.toNat) : (a - 8#64).toNat = a.toNat - 8 := by
  have := a.isLt
  rw [BitVec.toNat_sub]
  simp only [BitVec.toNat_ofNat]
  omega

/-- The stack pointer after a push, and that a pop undoes it. -/
theorem exists_pushed {a : BitVec 64} {n : ℕ} (ha : a.toNat = n) (h : 8 ≤ n) :
    ∃ b, a - 8#64 = b ∧ b.toNat = n - 8 ∧ b + 8#64 = a :=
  ⟨_, rfl, by rw [toNat_sub_eight (by omega), ha], BitVec.sub_add_cancel ..⟩

/-- A push: the word goes below the stack pointer. -/
theorem Cpu.push_eq (h : 8 ≤ (s.reg .rsp).toNat) :
    s.push v = (s.set .rsp (s.reg .rsp - 8#64)).store ((s.reg .rsp).toNat - 8) v := by
  rw [Cpu.push]
  simp only [Cpu.set_reg_self]
  rw [toNat_sub_eight h]

/-- **A call** of code that keeps the stack pointer and the return address comes back. -/
theorem call_eq_some (hrsp : (callee (s.push ret)).reg .rsp = s.reg .rsp - 8#64)
    (hret : (callee (s.push ret)).mem.load64 (s.reg .rsp - 8#64).toNat = ret) :
    call ret callee s = some ((callee (s.push ret)).set .rsp (s.reg .rsp)) := by
  rw [call, hrsp, if_pos hret, BitVec.sub_add_cancel]

end

/-! ### Stepping through code -/

/-- **What a state holds**: its registers, its memory, and the two bases of `gs`. -/
structure Cpu.Holds (s : Cpu) (ρ : Reg → BitVec 64) (m : Mem) (g g' : BitVec 64) : Prop where
  reg : s.reg = ρ
  mem : s.mem = m
  gsBase : s.gsBase = g
  kernelGsBase : s.kernelGsBase = g'

section

variable {s : Cpu} {ρ : Reg → BitVec 64} {m : Mem} {g g' : BitVec 64} {r q : Reg} {d a : ℕ}
  {v : BitVec 64} {i : Instr}

theorem Cpu.holds_self (s : Cpu) : s.Holds s.reg s.mem s.gsBase s.kernelGsBase :=
  ⟨rfl, rfl, rfl, rfl⟩

theorem Cpu.Holds.of_reg {τ : Reg → BitVec 64} (h : s.Holds ρ m g g') (hρ : ∀ q, ρ q = τ q) :
    s.Holds τ m g g' :=
  funext hρ ▸ h

theorem Cpu.Holds.set (h : s.Holds ρ m g g') (r : Reg) (v : BitVec 64) :
    (s.set r v).Holds (Function.update ρ r v) m g g' :=
  ⟨by rw [← h.reg]; rfl, h.mem, h.gsBase, h.kernelGsBase⟩

theorem Cpu.Holds.store (h : s.Holds ρ m g g') (a : ℕ) (v : BitVec 64) :
    (s.store a v).Holds ρ (m.store64 a v) g g' :=
  ⟨h.reg, by rw [← h.mem]; rfl, h.gsBase, h.kernelGsBase⟩

theorem Cpu.Holds.push (h : s.Holds ρ m g g') (v : BitVec 64) (ha : (ρ .rsp).toNat = a)
    (h8 : 8 ≤ a) :
    (s.push v).Holds (Function.update ρ .rsp (ρ .rsp - 8#64)) (m.store64 (a - 8) v) g g' := by
  rw [Cpu.push_eq (by rw [h.reg]; omega), h.reg, ha]
  exact (h.set _ _).store _ _

theorem Cpu.Holds.exec_push (h : s.Holds ρ m g g') (r : Reg) (ha : (ρ .rsp).toNat = a)
    (h8 : 8 ≤ a) : (exec s (.push r)).Holds (Function.update ρ .rsp (ρ .rsp - 8#64))
      (m.store64 (a - 8) (ρ r)) g g' := by
  rw [exec, h.reg]
  exact h.push _ ha h8

theorem Cpu.Holds.exec_pop (h : s.Holds ρ m g g') (r : Reg) (ha : (ρ .rsp).toNat = a) :
    (exec s (.pop r)).Holds (Function.update (Function.update ρ .rsp (ρ .rsp + 8#64)) r
      (m.load64 a)) m g g' := by
  rw [exec, h.mem, h.reg, ha]
  exact (h.set _ _).set _ _

theorem Cpu.Holds.exec_mov (h : s.Holds ρ m g g') (r q : Reg) :
    (exec s (.mov r q)).Holds (Function.update ρ r (ρ q)) m g g' := by
  rw [exec, h.reg]
  exact h.set _ _

theorem Cpu.Holds.exec_load_gs (h : s.Holds ρ m g g') (r : Reg) (d : ℕ)
    (hfit : g.toNat + d < 2 ^ 64) :
    (exec s (.load r (.gs d))).Holds (Function.update ρ r (m.load64 (g.toNat + d))) m g g' := by
  have haddr : s.address (.gs d) = g.toNat + d := Cpu.address_gs (by rw [h.gsBase]) hfit
  rw [exec, haddr, h.mem]
  exact h.set _ _

theorem Cpu.Holds.exec_load (h : s.Holds ρ m g g') (r q : Reg) (d : ℕ) (ha : (ρ q).toNat = a)
    (hfit : a + d < 2 ^ 64) :
    (exec s (.load r (.base q d))).Holds (Function.update ρ r (m.load64 (a + d))) m g g' := by
  have haddr : s.address (.base q d) = a + d := Cpu.address_base (by rw [h.reg, ha]) hfit
  rw [exec, haddr, h.mem]
  exact h.set _ _

theorem Cpu.Holds.exec_storeImm_gs (h : s.Holds ρ m g g') (d : ℕ) (v : BitVec 64)
    (hfit : g.toNat + d < 2 ^ 64) :
    (exec s (.storeImm (.gs d) v)).Holds ρ (m.store64 (g.toNat + d) v) g g' := by
  have haddr : s.address (.gs d) = g.toNat + d := Cpu.address_gs (by rw [h.gsBase]) hfit
  rw [exec, haddr]
  exact h.store _ _

theorem Cpu.Holds.exec_store (h : s.Holds ρ m g g') (r : Reg) (d : ℕ) (q : Reg)
    (ha : (ρ r).toNat = a) (hfit : a + d < 2 ^ 64) :
    (exec s (.store (.base r d) q)).Holds ρ (m.store64 (a + d) (ρ q)) g g' := by
  have haddr : s.address (.base r d) = a + d := Cpu.address_base (by rw [h.reg, ha]) hfit
  rw [exec, haddr, h.reg]
  exact h.store _ _

theorem Cpu.Holds.exec_swapgs (h : s.Holds ρ m g g') : (exec s .swapgs).Holds ρ m g' g :=
  ⟨h.reg, h.mem, h.kernelGsBase, h.gsBase⟩

theorem Cpu.Holds.exec_leaScaled (h : s.Holds ρ m g g') (r q q' : Reg) (n : ℕ) :
    (exec s (.leaScaled r q q' n)).Holds
      (Function.update ρ r (ρ q + ρ q' * BitVec.ofNat 64 n)) m g g' := by
  rw [exec, h.reg]
  exact h.set _ _

theorem Cpu.Holds.exec_xor (h : s.Holds ρ m g g') (r q : Reg) :
    (exec s (.xor r q)).Holds (Function.update ρ r (ρ r ^^^ ρ q)) m g g' := by
  rw [exec, h.reg]
  have hset := h.set r (ρ r ^^^ ρ q)
  exact ⟨hset.reg, hset.mem, hset.gsBase, hset.kernelGsBase⟩

theorem Cpu.Holds.exec_sti (h : s.Holds ρ m g g') : (exec s .sti).Holds ρ m g g' :=
  ⟨h.reg, h.mem, h.gsBase, h.kernelGsBase⟩

theorem Cpu.Holds.exec_movCr3 (h : s.Holds ρ m g g') (q : Reg) :
    (exec s (.movCr3 q)).Holds ρ m g g' :=
  ⟨h.reg, h.mem, h.gsBase, h.kernelGsBase⟩

/-- The scratch work on a register: after it, only the register has changed. -/
theorem Cpu.Holds.scratch (h : s.Holds ρ m g g') {t : Cpu} (hreg : ∀ q, q ≠ r → t.reg q = s.reg q)
    (hmem : t.mem = s.mem) (hgs : t.gsBase = s.gsBase)
    (hkgs : t.kernelGsBase = s.kernelGsBase) :
    t.Holds (Function.update ρ r (t.reg r)) m g g' := by
  refine ⟨?_, hmem.trans h.mem, hgs.trans h.gsBase, hkgs.trans h.kernelGsBase⟩
  funext q
  rw [Function.update_apply]
  split_ifs with hq
  · rw [hq]
  · rw [hreg q hq, h.reg]

/-- Stores of a block. -/
theorem Cpu.Holds.run_storeAll (h : s.Holds ρ m g g') (base : Reg) (slots : List (ℕ × Reg))
    (ha : (ρ base).toNat = a) (hfit : ∀ p ∈ slots, a + p.1 < 2 ^ 64) (hapart : SlotsApart slots) :
    ∃ m', (run (storeAll base slots) s).Holds ρ m' g g' ∧
      (∀ p ∈ slots, m'.load64 (a + p.1) = ρ p.2) ∧
      ∀ x, (∀ p ∈ slots, x < a + p.1 ∨ a + p.1 + 8 ≤ x) → m' x = m x := by
  have hbase : (s.reg base).toNat = a := by rw [h.reg, ha]
  obtain ⟨m', hrun, hload, hother⟩ := AnglOS.run_storeAll
    (fun p hp => (hbase ▸ hfit p hp : (s.reg base).toNat + p.1 < 2 ^ 64)) hapart
  rw [hbase, h.reg] at hload
  rw [hbase, h.mem] at hother
  exact ⟨m', hrun ▸ ⟨h.reg, rfl, h.gsBase, h.kernelGsBase⟩, hload, hother⟩

/-- Loads of a block. -/
theorem Cpu.Holds.run_loadAll (h : s.Holds ρ m g g') (base : Reg) (slots : List (ℕ × Reg))
    (ha : (ρ base).toNat = a) (hfit : ∀ p ∈ slots, a + p.1 < 2 ^ 64)
    (hbase : base ∉ slots.map Prod.snd) (hdistinct : (slots.map Prod.snd).Nodup) :
    ∃ ρ', (run (loadAll base slots) s).Holds ρ' m g g' ∧
      (∀ p ∈ slots, ρ' p.2 = m.load64 (a + p.1)) ∧ ∀ r, r ∉ slots.map Prod.snd → ρ' r = ρ r := by
  have hb : (s.reg base).toNat = a := by rw [h.reg, ha]
  obtain ⟨ρ', hrun, hload, hother⟩ := AnglOS.run_loadAll
    (fun p hp => (hb ▸ hfit p hp : (s.reg base).toNat + p.1 < 2 ^ 64)) hbase hdistinct
  rw [hb, h.mem] at hload
  rw [h.reg] at hother
  exact ⟨ρ', hrun ▸ ⟨rfl, h.mem, h.gsBase, h.kernelGsBase⟩, hload, hother⟩

/-- **A call** of code that keeps the stack pointer and the return address. -/
theorem Cpu.Holds.call (ret : BitVec 64) {callee : Cpu → Cpu} {ρ' : Reg → BitVec 64} {m' : Mem}
    (hs : s.reg .rsp = v) (h : (callee (s.push ret)).Holds ρ' m' g g')
    (hrsp : ρ' .rsp = v - 8#64) (hret : m'.load64 (v - 8#64).toNat = ret) :
    ∃ t, call ret callee s = some t ∧ t.Holds (Function.update ρ' .rsp v) m' g g' := by
  have hcall : AnglOS.call ret callee s = _ :=
    call_eq_some (by rw [h.reg, hrsp, hs]) (by rw [h.mem, hs, hret])
  exact ⟨_, hcall, hs ▸ h.set _ _⟩

end

end AnglOS
