import AnglOS.Syscall

/-!
# Context Blocks

The context routines of `interrupt.asm`, and `threadswitch.asm`, as code of the machine. Each of
them knows the layout of `ctx_t` by offsets of its own.

## Main results

* `saveContext_spec`, `restoreContext_spec`, `threadContextSwitch_spec` — what each routine stores
  and loads;
* `context_layout_iff` — a context gives back every register through either loader, from the field
  of its name, exactly when `rdi` and `rsi` are equal: `save_context` and `restore_context` use the
  fields of these two the other way round, and `threadContextSwitch` does not.
-/

namespace AnglOS

/-! ### The code -/


/-- The fields of `ctx_t` that are registers, with their offsets in the struct. -/
def ctxFields : List (ℕ × Reg) :=
  [(0x00, .rax), (0x08, .rbx), (0x10, .rcx), (0x18, .rdx), (0x20, .rdi), (0x28, .rsi), (0x30, .r8),
    (0x38, .r9), (0x40, .r10), (0x48, .r11), (0x50, .r12), (0x58, .r13), (0x60, .r14), (0x68, .r15)]

/-- `save_context`, up to its `ret`. -/
def saveContext : List Instr :=
  [.push .rbp, .mov .rbp .rsp,
    .push .rbx, .load .rbx (.gs 0x28), .store (.base .rbx 0x00) .rax, .pop .rbx,
    .push .rax, .load .rax (.gs 0x28)] ++
  storeAll .rax contextSlots ++
  [.pop .rax, .pop .rbp]

/-- `restore_context`, up to its `ret`. -/
def restoreContext : List Instr :=
  [.load .rax (.gs 0x28)] ++
  loadAll .rax contextSlots ++
  [.load .rax (.base .rax 0x00)]

/-- The words of the context block that `threadContextSwitch` loads before `rax`. -/
def switchSlots : List (ℕ × Reg) :=
  [(0x08, .rbx), (0x18, .rdx), (0x20, .rdi), (0x28, .rsi), (0x30, .r8), (0x38, .r9), (0x40, .r10),
    (0x50, .r12), (0x58, .r13), (0x60, .r14), (0x68, .r15)]

/-- `threadContextSwitch`, up to its `sysret`. The thread is in `rdi`. -/
def threadContextSwitch : List Instr :=
  [.load .rax (.base .rdi 0x58), .load .rsp (.base .rax 0x10), .load .rcx (.base .rax 0x18),
    .load .rax (.base .rax 0x28), .load .r15 (.base .rax 0x78), .movCr3 .r15] ++
  loadAll .rax switchSlots ++
  [.load .rax (.base .rax 0x00), .movImm .r11 0x202#64, .sti]

/-- The context block at `c` of `u` has the bytes of the memory `m`. -/
def SameContext (u : Cpu) (m : Mem) (c : ℕ) : Prop :=
  ∀ x, c ≤ x → x < c + 0x80 → u.mem x = m x

/-- **Contexts agree**: a context saved from `s` at `c` has each register in the field of its name,
and each loader, started in any state with this context, loads each register from the field of
its name and gets back its value. `threadContextSwitch` sets `rcx` and `r11` otherwise. -/
structure ContextsAgree (s : Cpu) (c : ℕ) : Prop where
  saved : ∀ p ∈ ctxFields, (run saveContext s).mem.load64 (c + p.1) = s.reg p.2
  restored : ∀ u g, u.gsBase.toNat = g → g + 0x48 ≤ 2 ^ 64 →
    (u.mem.load64 (g + 0x28)).toNat = c → SameContext u (run saveContext s).mem c →
      ∀ p ∈ ctxFields, (run restoreContext u).reg p.2 = u.mem.load64 (c + p.1) ∧
        (run restoreContext u).reg p.2 = s.reg p.2
  switched : ∀ u t g, (u.reg .rdi).toNat = t → t + 0x88 ≤ 2 ^ 64 →
    (u.mem.load64 (t + 0x58)).toNat = g → g + 0x48 ≤ 2 ^ 64 →
    (u.mem.load64 (g + 0x28)).toNat = c → SameContext u (run saveContext s).mem c →
      ∀ p ∈ ctxFields, p.2 ≠ .rcx → p.2 ≠ .r11 →
        (run threadContextSwitch u).reg p.2 = u.mem.load64 (c + p.1) ∧
          (run threadContextSwitch u).reg p.2 = s.reg p.2

section

variable {s : Cpu} {ρ : Reg → BitVec 64} {m : Mem} {G G' : BitVec 64} {c p t g : ℕ}

/-- **`save_context`**: all registers of the context go to the block, and none changes. -/
theorem saveContext_spec (h : s.Holds ρ m G G') (hroom : StackRoom G.toNat c p 16)
    (hctx : (m.load64 (G.toNat + 0x28)).toNat = c) (hp : (ρ .rsp).toNat = p) :
    ∃ m', (run saveContext s).Holds ρ m' G G' ∧ ContextHolds m' c ρ ∧ m'.load64 c = ρ .rax := by
  obtain ⟨hroom, hg, hc, hgc, hgp, hcp⟩ := hroom
  obtain ⟨P, hP, hPn, hPadd⟩ := exists_pushed hp (by omega)
  obtain ⟨Q, hQ, hQn, hQadd⟩ := exists_pushed hPn (by omega)
  have h1 := h.exec_push .rbp hp (by omega)
  rw [hP] at h1
  have h2 := (h1.exec_mov .rbp .rsp).of_reg (τ := Function.update (Function.update ρ .rsp P) .rbp P)
    fun q => by simp
  have h3 := (h2.exec_push .rbx (by simpa using hPn) (by omega)).of_reg
    (τ := Function.update (Function.update ρ .rsp Q) .rbp P) fun q => by cases q <;> simp [hQ]
  have h4 := h3.exec_load_gs .rbx 0x28 (by omega)
  rw [Mem.load64_store64_of_disjoint (by omega), Mem.load64_store64_of_disjoint (by omega)] at h4
  have h5 := h4.exec_store .rbx 0x00 .rax (a := c) (by simpa using hctx) (by omega)
  have h6 := h5.exec_pop .rbx (a := p - 8 - 8) (by simpa using hQn)
  rw [Mem.load64_store64_of_disjoint (by omega), Mem.load64_store64_self] at h6
  replace h6 := h6.of_reg (τ := Function.update (Function.update ρ .rsp P) .rbp P) fun q => by
    cases q <;> simp [hQadd]
  have h7 := (h6.exec_push .rax (by simpa using hPn) (by omega)).of_reg
    (τ := Function.update (Function.update ρ .rsp Q) .rbp P) fun q => by cases q <;> simp [hQ]
  have h8 := h7.exec_load_gs .rax 0x28 (by omega)
  rw [Mem.load64_store64_of_disjoint (by omega), Mem.load64_store64_of_disjoint (by omega),
    Mem.load64_store64_of_disjoint (by omega), Mem.load64_store64_of_disjoint (by omega)] at h8
  obtain ⟨m', h9, hsaved, hother⟩ := h8.run_storeAll .rax contextSlots (a := c)
    (by simpa using hctx) (fun q hq => by have := contextSlots_lt q hq; omega) contextSlots_apart
  -- the stores leave the first word of the block and the stack alone
  have hword : ∀ {a : ℕ}, (a + 8 ≤ c + 8 ∨ c + 0x70 ≤ a) → m'.load64 a = _ := fun ha =>
    Mem.load64_congr fun x _ _ => hother x fun q hq => by
      have := contextSlots_lt q hq
      omega
  have h10 := h9.exec_pop .rax (a := p - 8 - 8) (by simpa using hQn)
  have h11 := h10.exec_pop .rbp (a := p - 8) (by simpa [hQadd] using hPn)
  have hrax : m'.load64 (p - 8 - 8) = ρ .rax := by
    rw [hword (by omega), Mem.load64_store64_self]
    simp
  have hrbp : m'.load64 (p - 8) = ρ .rbp := by
    rw [hword (by omega), Mem.load64_store64_of_disjoint (by omega),
      Mem.load64_store64_of_disjoint (by omega), Mem.load64_store64_of_disjoint (by omega),
      Mem.load64_store64_self]
  refine ⟨m', h11.of_reg fun q => ?_, fun q hq => ?_, ?_⟩
  · cases q <;> simp [hrax, hrbp, hQadd, hPadd]
  · obtain ⟨h1, h2, h3⟩ := contextSlots_reg q hq
    rw [hsaved q hq]
    simp [h1, h2, h3]
  · rw [hword (by omega), Mem.load64_store64_of_disjoint (by omega), Nat.add_zero,
      Mem.load64_store64_self]
    simp

/-- **`restore_context`** loads the registers from the words at which `save_context` put them. -/
theorem restoreContext_spec (h : s.Holds ρ m G G') (hg : G.toNat + 0x48 ≤ 2 ^ 64)
    (hctx : (m.load64 (G.toNat + 0x28)).toNat = c) (hc : c + 0x80 ≤ 2 ^ 64) :
    ∃ ρ', (run restoreContext s).Holds ρ' m G G' ∧ ρ' .rax = m.load64 c ∧
      ∀ q ∈ contextSlots, ρ' q.2 = m.load64 (c + q.1) := by
  have h1 := h.exec_load_gs .rax 0x28 (by omega)
  obtain ⟨ρ', h2, hloaded, hkept⟩ := h1.run_loadAll .rax contextSlots (a := c)
    (by simpa using hctx) (fun q hq => by have := contextSlots_lt q hq; omega) (by decide)
    (by decide)
  have h3 := h2.exec_load .rax .rax 0x00 (a := c) (by rw [hkept _ (by decide)]; simpa using hctx)
    (by omega)
  refine ⟨_, h3, by simp, fun q hq => ?_⟩
  simp [(contextSlots_reg q hq).1, hloaded q hq]

theorem switchSlots_lt : ∀ q ∈ switchSlots, q.2 ≠ .rax ∧ q.2 ≠ .r11 ∧ 8 ≤ q.1 ∧ q.1 + 8 ≤ 0x70 := by
  decide

/-- **`threadContextSwitch`** loads the registers from the fields of their names. -/
theorem threadContextSwitch_spec (h : s.Holds ρ m G G') (hthread : (ρ .rdi).toNat = t)
    (ht : t + 0x88 ≤ 2 ^ 64) (hgs : (m.load64 (t + 0x58)).toNat = g) (hg : g + 0x48 ≤ 2 ^ 64)
    (hctx : (m.load64 (g + 0x28)).toNat = c) (hc : c + 0x80 ≤ 2 ^ 64) :
    ∃ ρ', (run threadContextSwitch s).Holds ρ' m G G' ∧ ρ' .rax = m.load64 c ∧
      ∀ q ∈ switchSlots, ρ' q.2 = m.load64 (c + q.1) := by
  have h1 := h.exec_load .rax .rdi 0x58 hthread (by omega)
  have h2 := h1.exec_load .rsp .rax 0x10 (a := g) (by simpa using hgs) (by omega)
  have h3 := h2.exec_load .rcx .rax 0x18 (a := g) (by simpa using hgs) (by omega)
  have h4 := h3.exec_load .rax .rax 0x28 (a := g) (by simpa using hgs) (by omega)
  have h5 := h4.exec_load .r15 .rax 0x78 (a := c) (by simpa using hctx) (by omega)
  obtain ⟨ρ', h6, hloaded, hkept⟩ := (h5.exec_movCr3 .r15).run_loadAll .rax
    switchSlots (a := c) (by simpa using hctx)
    (fun q hq => by have := switchSlots_lt q hq; omega) (by decide) (by decide)
  have h7 := h6.exec_load .rax .rax 0x00 (a := c) (by rw [hkept _ (by decide)]; simpa using hctx)
    (by omega)
  have h8 := (h7.set .r11 0x202#64).exec_sti
  refine ⟨_, h8, by simp, fun q hq => ?_⟩
  obtain ⟨h1, h2, -⟩ := switchSlots_lt q hq
  simp [h1, h2, hloaded q hq]

end

section

variable {s : Cpu} {c p : ℕ}

/-- The fields against the words of `save_context`: two registers are swapped. -/
theorem ctxFields_cases : ∀ p ∈ ctxFields, p = (0x00, .rax) ∨ p ∈ contextSlots ∨
    p = (0x20, .rdi) ∨ p = (0x28, .rsi) := by
  decide

theorem ctxFields_lt : ∀ p ∈ ctxFields, p.1 + 8 ≤ 0x70 := by
  decide

/-- `threadContextSwitch` reads the fields. -/
theorem ctxFields_switch : ∀ p ∈ ctxFields, p.2 ≠ .rcx → p.2 ≠ .r11 →
    p = (0x00, .rax) ∨ p ∈ switchSlots := by
  decide

/-- **Contexts agree exactly when `rdi` and `rsi` are equal**: `save_context` and `restore_context`
use the fields of these two registers the other way round. -/
theorem context_layout_iff (hroom : StackRoom s.gsBase.toNat c p 16)
    (hctx : (s.mem.load64 (s.gsBase.toNat + 0x28)).toNat = c) (hp : (s.reg .rsp).toNat = p) :
    ContextsAgree s c ↔ s.reg .rdi = s.reg .rsi := by
  obtain ⟨m', hsave, hsaved, hrax⟩ := saveContext_spec s.holds_self hroom hctx hp
  have hc := hroom.ctx_fits
  have hsi : m'.load64 (c + 0x20) = s.reg .rsi := hsaved (0x20, .rsi) (by decide)
  have hdi : m'.load64 (c + 0x28) = s.reg .rdi := hsaved (0x28, .rdi) (by decide)
  constructor
  · intro h
    have hfield := h.saved (0x20, .rdi) (by decide)
    rw [hsave.mem] at hfield
    exact hfield.symm.trans hsi
  · intro heq
    have hfields : ∀ p ∈ ctxFields, m'.load64 (c + p.1) = s.reg p.2 := by
      intro p hp
      rcases ctxFields_cases p hp with rfl | hslot | rfl | rfl
      · exact hrax
      · exact hsaved p hslot
      · exact hsi.trans heq.symm
      · exact hdi.trans heq
    have hsame : ∀ {u : Cpu} {d : ℕ}, SameContext u m' c → d + 8 ≤ 0x70 →
        u.mem.load64 (c + d) = m'.load64 (c + d) := fun hu hd =>
      Mem.load64_congr fun x _ _ => hu x (by omega) (by omega)
    refine ⟨fun p hp => by rw [hsave.mem]; exact hfields p hp, fun u g hg hfit hptr hu p hp => ?_,
      fun u t g ht htfit hg hfit hptr hu p hp hcx h11 => ?_⟩
    · rw [hsave.mem] at hu
      subst hg
      obtain ⟨ρ', hload, hax, hslots⟩ := restoreContext_spec u.holds_self hfit hptr hc
      have hword := (hsame hu (ctxFields_lt p hp)).trans (hfields p hp)
      have hreg : ρ' p.2 = s.reg p.2 := by
        rcases ctxFields_cases p hp with rfl | hslot | rfl | rfl
        · exact hax.trans hword
        · exact (hslots p hslot).trans hword
        · exact (hslots (0x28, .rdi) (by decide)).trans
            ((hsame hu (by norm_num)).trans hdi)
        · exact (hslots (0x20, .rsi) (by decide)).trans
            ((hsame hu (by norm_num)).trans hsi)
      rw [hload.reg]
      exact ⟨hreg.trans hword.symm, hreg⟩
    · rw [hsave.mem] at hu
      obtain ⟨ρ', hload, hax, hslots⟩ :=
        threadContextSwitch_spec u.holds_self ht htfit hg hfit hptr hc
      have hword := (hsame hu (ctxFields_lt p hp)).trans (hfields p hp)
      have hreg : ρ' p.2 = u.mem.load64 (c + p.1) := by
        rcases ctxFields_switch p hp hcx h11 with rfl | hslot
        · exact hax
        · exact hslots p hslot
      rw [hload.reg]
      exact ⟨hreg, hreg.trans hword⟩

end

/-- An interrupted thread: the base of `gs` is the kernel's, and the stack is at `0x4000`. -/
def interrupted (rdi rsi : BitVec 64) : Cpu :=
  { userThread 0#64 with
    reg := fun r => if r = .rsp then 0x4000#64 else if r = .rdi then rdi else
      if r = .rsi then rsi else 0#64
    gsBase := 0x1000#64 }

theorem interrupted_room (rdi rsi : BitVec 64) :
    StackRoom (interrupted rdi rsi).gsBase.toNat 0x2000 0x4000 16 := by
  constructor <;> norm_num [interrupted]

theorem interrupted_ctx (rdi rsi : BitVec 64) :
    ((interrupted rdi rsi).mem.load64 ((interrupted rdi rsi).gsBase.toNat + 0x28)).toNat = 0x2000 :=
  (userThread_blocks 0#64).ctx

/-- Equal values in both registers. -/
theorem context_layout_iff_equal : ContextsAgree (interrupted 7#64 7#64) 0x2000 :=
  (context_layout_iff (interrupted_room _ _) (interrupted_ctx _ _) rfl).mpr rfl

/-- Different values end up in each other's field. -/
theorem context_swaps_registers : ¬∀ (s : Cpu) (c p : ℕ), StackRoom s.gsBase.toNat c p 16 →
    (s.mem.load64 (s.gsBase.toNat + 0x28)).toNat = c → (s.reg .rsp).toNat = p →
      ContextsAgree s c := by
  intro h
  have hagree := h (interrupted 1#64 2#64) _ _ (interrupted_room _ _) (interrupted_ctx _ _) rfl
  obtain ⟨m', hsave, hsaved, -⟩ := saveContext_spec (interrupted 1#64 2#64).holds_self
    (interrupted_room _ _) (interrupted_ctx _ _) rfl
  have hfield := hagree.saved (0x20, .rdi) (by decide)
  rw [hsave.mem] at hfield
  exact absurd (hfield.symm.trans (hsaved (0x20, .rsi) (by decide))) (by decide)

end AnglOS
