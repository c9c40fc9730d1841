import AnglOS.Machine

/-!
# System Call Entry

`syscall_entry_point.asm` as code of the machine. A thread has a block `gs_base_t` to which the
kernel's base of `gs` points, a context block `ctx_t`, and a kernel stack. The C handlers are a
parameter: what the code at an address does from its call to its return.

## Main results

* `syscallUserToKernel_spec`, `syscallKernelToUser_spec` — what the two routines save and restore;
* `syscall_dispatch_iff` — the dispatch is confined to the table exactly when the number of the
  system call has its top bit clear, since the bound is compared as a signed number;
* `syscall_preserves_iff` — user registers survive exactly when the handler keeps `rdx`, since the
  exit path pops the handler's `rdx` over the saved one.
-/

namespace AnglOS

/-! ### The code -/

/-- What linking decides: the address of `syscall_table`, the addresses after the three calls of
`syscallEntryPoint`, and the code at an address, from a call to its return. -/
structure SyscallLink where
  table : BitVec 64
  afterSave : BitVec 64
  afterHandler : BitVec 64
  afterRestore : BitVec 64
  code : BitVec 64 → Cpu → Cpu

/-- `num_syscalls`. -/
def numSyscalls : BitVec 64 := 4#64

/-- The words of the context block that the assembly routines store and load after `rax`. -/
def contextSlots : List (ℕ × Reg) :=
  [(0x08, .rbx), (0x10, .rcx), (0x18, .rdx), (0x20, .rsi), (0x28, .rdi), (0x30, .r8), (0x38, .r9),
    (0x40, .r10), (0x48, .r11), (0x50, .r12), (0x58, .r13), (0x60, .r14), (0x68, .r15)]

/-- `syscall_user_to_kernel`, up to its `ret`. -/
def syscallUserToKernel : List Instr :=
  [.push .rbp, .mov .rbp .rsp,
    .load .rax (.gs 0x28), .store (.base .rax 0x00) .rax,
    .xor .rax .rax, .movImm16 .rax 0x30#16, .movSegment .ds .rax, .movSegment .es .rax,
    .load .rax (.gs 0x28)] ++
  storeAll .rax contextSlots ++
  [.pop .rbp]

/-- `syscall_kernel_to_user`, up to its `ret`. -/
def syscallKernelToUser : List Instr :=
  [.push .rbp, .mov .rbp .rsp,
    .push .rax, .push .rdx,
    .load .rax (.gs 0x28), .load .rax (.base .rax 0x78), .movCr3 .rax,
    .xor32 .rax .rax, .movImm16 .rax 0x3B#16, .movSegment .ds .rax, .movSegment .es .rax,
    .load .rax (.gs 0x28)] ++
  loadAll .rax contextSlots ++
  [.load .rax (.base .rax 0x00),
    .pop .rdx, .pop .rax,
    .pop .rbp]

/-- `syscallEntryPoint` up to its conditional jump. -/
def syscallEntry : List Instr :=
  [.swapgs, .storeImm (.gs 0x00) 1#64, .store (.gs 0x10) .rsp, .load .rsp (.gs 0x08),
    .push .rbp, .mov .rbp .rsp,
    .cmpImm .rax numSyscalls]

/-- `syscallEntryPoint` from the conditional jump to the address of the entry in the table, which
is in `r10` then. -/
def syscallIndex (L : SyscallLink) (s : Cpu) : Option Cpu := do
  let s ← call L.afterSave (run syscallUserToKernel) (exec s (.push .rax))
  return run [.pop .rax, .mov .rcx .r10, .leaRel .r10 L.table, .leaScaled .r10 .r10 .rax 8] s

/-- The load of the handler's address, which is in `rax` then. -/
def syscallTarget : List Instr :=
  [.load .rax (.base .r10 0), .xor .r10 .r10]

/-- `syscallEntryPoint` after the last call, up to its `sysret`. -/
def syscallExit : List Instr :=
  [.pop .rbp, .load .rsp (.gs 0x10), .storeImm (.gs 0x00) 0#64, .swapgs]

/-- The state at the call of the handler, when the conditional jump is not taken. -/
def syscallCalls (L : SyscallLink) (s : Cpu) : Option Cpu := do
  let s ← syscallIndex L (run syscallEntry s)
  return run syscallTarget s

/-- How `syscallEntryPoint` ends. -/
inductive SyscallEnd
  | undefinedSyscall (s : Cpu)
  | sysret (s : Cpu)

/-- `syscallEntryPoint`. -/
def syscallEntryPoint (L : SyscallLink) (s : Cpu) : Option SyscallEnd :=
  if (run syscallEntry s).flags.Ge then some (.undefinedSyscall (run syscallEntry s))
  else do
    let s ← syscallCalls L s
    let s ← call L.afterHandler (L.code (s.reg .rax)) s
    let s ← call L.afterRestore (run syscallKernelToUser) s
    return .sysret (run syscallExit s)

/-- The `syscall` instruction: the processor leaves the return address in `rcx` and the flags in
`r11`. -/
def syscallInstruction (s : Cpu) (ret flags : BitVec 64) : Cpu :=
  (s.set .rcx ret).set .r11 flags

/-! ### Where the blocks are -/

/-- **The blocks of a thread in user mode**: `gs_base_t` at `g`, to which the kernel's base of `gs`
points, `ctx_t` at `c`, and the kernel stack below `k`, with room for five words; they do not
overlap. -/
structure ThreadBlocks (s : Cpu) (g c k : ℕ) : Prop where
  gs : s.kernelGsBase.toNat = g
  ker_rsp : (s.mem.load64 (g + 0x08)).toNat = k
  ctx : (s.mem.load64 (g + 0x28)).toNat = c
  gs_fits : g + 0x48 ≤ 2 ^ 64
  ctx_fits : c + 0x80 ≤ 2 ^ 64
  stack_fits : 40 ≤ k
  gs_ctx : g + 0x48 ≤ c ∨ c + 0x80 ≤ g
  gs_stack : g + 0x48 ≤ k - 40 ∨ k ≤ g
  ctx_stack : c + 0x80 ≤ k - 40 ∨ k ≤ c

section

variable {L : SyscallLink} {s : Cpu} {g c k : ℕ}

/-- **Up to the conditional jump**: `rsp` is saved, the stack is the kernel's with `rbp` on top, and
the flags compare `rax`. -/
theorem run_syscallEntry (h : ThreadBlocks s g c k) :
    run syscallEntry s =
      { s with
        reg := Function.update (Function.update s.reg .rsp (s.mem.load64 (g + 0x08) - 8#64)) .rbp
          (s.mem.load64 (g + 0x08) - 8#64)
        flags := .ofCmp (s.reg .rax) numSyscalls
        gsBase := s.kernelGsBase
        kernelGsBase := s.gsBase
        mem := ((s.mem.store64 g 1#64).store64 (g + 0x10) (s.reg .rsp)).store64 (k - 8)
          (s.reg .rbp) } := by
  obtain ⟨hgs, hker, -, hfits, -, hstack, -, -, -⟩ := h
  have haddr : ∀ {s' : Cpu} {d : ℕ}, s'.gsBase = s.kernelGsBase → d < 0x48 →
      s'.address (.gs d) = g + d :=
    fun he hd => Cpu.address_gs (by rw [he, hgs]) (by omega)
  simp only [syscallEntry, run_cons, run_nil, exec]
  rw [haddr rfl (by norm_num), haddr rfl (by norm_num), haddr rfl (by norm_num), Nat.add_zero]
  simp (disch := omega) only [Cpu.store_mem, Mem.load64_store64_of_disjoint]
  rw [Cpu.push_eq (by simp only [Cpu.set_reg_self]; omega)]
  simp [Cpu.set, Cpu.store, hker]

/-- Room for `n` bytes below the stack pointer `p`, apart from both blocks. -/
structure StackRoom (g c p n : ℕ) : Prop where
  room : n ≤ p
  gs_fits : g + 0x48 ≤ 2 ^ 64
  ctx_fits : c + 0x80 ≤ 2 ^ 64
  gs_ctx : g + 0x48 ≤ c ∨ c + 0x80 ≤ g
  gs_stack : g + 0x48 ≤ p - n ∨ p ≤ g
  ctx_stack : c + 0x80 ≤ p - n ∨ p ≤ c

/-- The context block at `c` holds the registers `ρ`, `rax` apart. -/
def ContextHolds (m : Mem) (c : ℕ) (ρ : Reg → BitVec 64) : Prop :=
  ∀ q ∈ contextSlots, m.load64 (c + q.1) = ρ q.2

theorem contextSlots_lt : ∀ q ∈ contextSlots, 8 ≤ q.1 ∧ q.1 + 8 ≤ 0x70 := by
  decide

theorem contextSlots_reg : ∀ q ∈ contextSlots, q.2 ≠ .rax ∧ q.2 ≠ .rbp ∧ q.2 ≠ .rsp := by
  decide

theorem contextSlots_apart : SlotsApart contextSlots := by
  decide

variable {ρ : Reg → BitVec 64} {m : Mem} {G G' : BitVec 64} {p : ℕ}

/-- The segment registers are loaded through `ax`. -/
theorem Cpu.Holds.run_segments (h : s.Holds ρ m G G') {i : Instr}
    (hi : i = .xor .rax .rax ∨ i = .xor32 .rax .rax) (v : BitVec 16) :
    ∃ w, (run [i, .movImm16 .rax v, .movSegment .ds .rax, .movSegment .es .rax] s).Holds
      (Function.update ρ .rax w) m G G' := by
  refine ⟨_, h.scratch (r := .rax) (fun q hq => ?_) ?_ ?_ ?_⟩
  · rcases hi with rfl | rfl <;> simp [exec, Cpu.set_reg, hq]
  all_goals rcases hi with rfl | rfl <;> rfl

/-- **`syscall_user_to_kernel`**: the registers but `rax` go to the context block. -/
theorem syscallUserToKernel_spec (h : s.Holds ρ m G G') (hroom : StackRoom G.toNat c p 8)
    (hctx : (m.load64 (G.toNat + 0x28)).toNat = c) (hp : (ρ .rsp).toNat = p) :
    ∃ v m', (run syscallUserToKernel s).Holds (Function.update ρ .rax v) m' G G' ∧
      ContextHolds m' c ρ ∧
      ∀ x, (x < c ∨ c + 0x70 ≤ x) → (x < p - 8 ∨ p ≤ x) → m' x = m x := by
  obtain ⟨hroom, hg, hc, hgc, hgp, hcp⟩ := hroom
  obtain ⟨P, hP, hPn, hPadd⟩ := exists_pushed hp hroom
  have h1 := h.exec_push .rbp hp hroom
  rw [hP] at h1
  have h2 := h1.exec_mov .rbp .rsp
  have h3 := h2.exec_load_gs .rax 0x28 (by omega)
  rw [Mem.load64_store64_of_disjoint (by omega)] at h3
  have h4 := h3.exec_store .rax 0x00 .rax (a := c) (by simpa using hctx) (by omega)
  obtain ⟨w, h5⟩ := h4.run_segments (.inl rfl) 0x30#16
  have h6 := h5.exec_load_gs .rax 0x28 (by omega)
  rw [Mem.load64_store64_of_disjoint (by omega), Mem.load64_store64_of_disjoint (by omega)] at h6
  obtain ⟨m', h7, hsaved, hother⟩ := h6.run_storeAll .rax contextSlots (a := c)
    (by simpa using hctx) (fun q hq => by have := contextSlots_lt q hq; omega) contextSlots_apart
  have hframe : ∀ x, (x < c ∨ c + 0x70 ≤ x) → m' x = m.store64 (p - 8) (ρ .rbp) x := by
    intro x hx
    rw [hother x fun q hq => by have := contextSlots_lt q hq; omega]
    exact Mem.store64_of_not_mem (by omega)
  have h8 := h7.exec_pop .rbp (a := p - 8) (by simpa using hPn)
  have hrbp : m'.load64 (p - 8) = ρ .rbp := by
    rw [Mem.load64_congr fun x h1 h2 => hframe x (by omega), Mem.load64_store64_self]
  refine ⟨m.load64 (G.toNat + 0x28), m', h8.of_reg fun q => ?_, fun q hq => ?_, fun x hx hx' => ?_⟩
  · cases q <;> simp [hrbp, hPadd]
  · obtain ⟨h1, h2, h3⟩ := contextSlots_reg q hq
    rw [hsaved q hq]
    simp [h1, h2, h3]
  · rw [hframe x hx]
    exact Mem.store64_of_not_mem (by omega)

/-- **`syscall_kernel_to_user`**: the registers come back from the context block, but `rdx` and
`rax` from the stack. -/
theorem syscallKernelToUser_spec (h : s.Holds ρ m G G') (hroom : StackRoom G.toNat c p 24)
    (hctx : (m.load64 (G.toNat + 0x28)).toNat = c) (hp : (ρ .rsp).toNat = p) :
    ∃ ρ' m', (run syscallKernelToUser s).Holds ρ' m' G G' ∧
      (∀ r, r = .rax ∨ r = .rdx ∨ r = .rbp ∨ r = .rsp → ρ' r = ρ r) ∧
      (∀ q ∈ contextSlots, q.2 ≠ .rdx → ρ' q.2 = m.load64 (c + q.1)) ∧
      ∀ x, (x < p - 24 ∨ p ≤ x) → m' x = m x := by
  obtain ⟨hroom, hg, hc, hgc, hgp, hcp⟩ := hroom
  obtain ⟨P, hP, hPn, hPadd⟩ := exists_pushed hp (by omega)
  obtain ⟨Q, hQ, hQn, hQadd⟩ := exists_pushed hPn (by omega)
  obtain ⟨R, hR, hRn, hRadd⟩ := exists_pushed hQn (by omega)
  have h1 := h.exec_push .rbp hp (by omega)
  rw [hP] at h1
  have h2 := (h1.exec_mov .rbp .rsp).of_reg (τ := Function.update (Function.update ρ .rsp P) .rbp P)
    fun q => by simp
  have h3 := (h2.exec_push .rax (by simpa using hPn) (by omega)).of_reg
    (τ := Function.update (Function.update ρ .rsp Q) .rbp P) fun q => by cases q <;> simp [hQ]
  have h4 := (h3.exec_push .rdx (by simpa using hQn) (by omega)).of_reg
    (τ := Function.update (Function.update ρ .rsp R) .rbp P) fun q => by cases q <;> simp [hR]
  simp only [ne_eq, reduceCtorEq, not_false_eq_true, Function.update_of_ne] at h4
  obtain ⟨m₄, hm₄⟩ : ∃ m₄, m₄ = ((m.store64 (p - 8) (ρ .rbp)).store64 (p - 8 - 8) (ρ .rax)).store64
      (p - 8 - 8 - 8) (ρ .rdx) := ⟨_, rfl⟩
  rw [← hm₄] at h4
  have hframe : ∀ x, (x < p - 24 ∨ p ≤ x) → m₄ x = m x := by
    intro x hx
    rw [hm₄, Mem.store64_of_not_mem (by omega), Mem.store64_of_not_mem (by omega),
      Mem.store64_of_not_mem (by omega)]
  have hctx₄ : m₄.load64 (G.toNat + 0x28) = m.load64 (G.toNat + 0x28) :=
    Mem.load64_congr fun x hx hx' => hframe x (by omega)
  have h5 := h4.exec_load_gs .rax 0x28 (by omega)
  have h6 := h5.exec_load .rax .rax 0x78 (a := c) (by simpa [hctx₄] using hctx) (by omega)
  obtain ⟨w, h7⟩ := (h6.exec_movCr3 .rax).run_segments (.inr rfl) 0x3B#16
  have h8 := (h7.exec_load_gs .rax 0x28 (by omega)).of_reg
    (τ := Function.update (Function.update (Function.update ρ .rsp R) .rbp P) .rax
      (m₄.load64 (G.toNat + 0x28))) fun q => by simp
  obtain ⟨ρ', h9, hloaded, hkept⟩ := h8.run_loadAll .rax contextSlots (a := c)
    (by simpa [hctx₄] using hctx) (fun q hq => by have := contextSlots_lt q hq; omega)
    (by decide) (by decide)
  have hrax : ρ' .rax = m₄.load64 (G.toNat + 0x28) := by rw [hkept _ (by decide)]; simp
  have hrsp : ρ' .rsp = R := by rw [hkept _ (by decide)]; simp
  have h10 := h9.exec_load .rax .rax 0x00 (a := c) (by rw [hrax, hctx₄, hctx]) (by omega)
  have h11 := h10.exec_pop .rdx (a := p - 24) (by simp [hrsp, hRn]; omega)
  have h12 := h11.exec_pop .rax (a := p - 16) (by simp [hrsp, hRadd, hQn]; omega)
  have h13 := h12.exec_pop .rbp (a := p - 8) (by simp [hrsp, hRadd, hQadd, hPn])
  have hdx : m₄.load64 (p - 24) = ρ .rdx := by
    rw [hm₄, show p - 24 = p - 8 - 8 - 8 by omega, Mem.load64_store64_self]
  have hax : m₄.load64 (p - 16) = ρ .rax := by
    rw [hm₄, show p - 16 = p - 8 - 8 by omega, Mem.load64_store64_of_disjoint (by omega),
      Mem.load64_store64_self]
  have hbp : m₄.load64 (p - 8) = ρ .rbp := by
    rw [hm₄, Mem.load64_store64_of_disjoint (by omega), Mem.load64_store64_of_disjoint (by omega),
      Mem.load64_store64_self]
  refine ⟨_, m₄, h13, fun r hr => ?_, fun q hq hne => ?_, hframe⟩
  · rcases hr with rfl | rfl | rfl | rfl <;> simp [hdx, hax, hbp, hrsp, hRadd, hQadd, hPadd]
  · obtain ⟨h1, h2, h3⟩ := contextSlots_reg q hq
    have hlt := contextSlots_lt q hq
    have hword : m₄.load64 (c + q.1) = m.load64 (c + q.1) :=
      Mem.load64_congr fun x hx hx' => hframe x (by omega)
    simp [h1, h2, h3, hne, hloaded q hq, hword]

/-- **Up to the address in the table**: the context is saved, and `r10` is the address of the
entry. -/
theorem syscallIndex_spec (L : SyscallLink) (h : s.Holds ρ m G G')
    (hroom : StackRoom G.toNat c p 24) (hctx : (m.load64 (G.toNat + 0x28)).toNat = c)
    (hp : (ρ .rsp).toNat = p) :
    ∃ t ρ' m', syscallIndex L s = some t ∧ t.Holds ρ' m' G G' ∧
      ρ' .r10 = L.table + ρ .rax * 8#64 ∧ (∀ r, r ≠ .rcx → r ≠ .r10 → ρ' r = ρ r) ∧
      ContextHolds m' c ρ ∧
      ∀ x, (x < c ∨ c + 0x70 ≤ x) → (x < p - 24 ∨ p ≤ x) → m' x = m x := by
  obtain ⟨hroom, hg, hc, hgc, hgp, hcp⟩ := hroom
  obtain ⟨P, hP, hPn, hPadd⟩ := exists_pushed hp (by omega)
  obtain ⟨Q, hQ, hQn, hQadd⟩ := exists_pushed hPn (by omega)
  have h1 := h.exec_push .rax hp (by omega)
  rw [hP] at h1
  have h2 := (h1.push L.afterSave (by simpa using hPn) (by omega)).of_reg
    (τ := Function.update ρ .rsp Q) fun q => by simp [hQ]
  have hctx₂ : (((m.store64 (p - 8) (ρ .rax)).store64 (p - 8 - 8) L.afterSave).load64
      (G.toNat + 0x28)).toNat = c := by
    rw [Mem.load64_store64_of_disjoint (by omega), Mem.load64_store64_of_disjoint (by omega), hctx]
  obtain ⟨v, m', h3, hsaved, hframe⟩ := syscallUserToKernel_spec h2 (p := p - 8 - 8)
    ⟨by omega, hg, hc, hgc, by omega, by omega⟩ hctx₂ (by simpa using hQn)
  -- the call comes back: its return address is still on the stack
  obtain ⟨t, hcall, h4⟩ := Cpu.Holds.call (s := exec s (.push .rax)) (v := P) L.afterSave
    (by rw [h1.reg]; simp) h3 (by simp [hQ]) (by
      rw [hQ, hQn, Mem.load64_congr fun x hx hx' => hframe x (by omega) (by omega),
        Mem.load64_store64_self])
  have h5 := h4.exec_pop .rax (a := p - 8) (by simpa using hPn)
  have hrax : m'.load64 (p - 8) = ρ .rax := by
    rw [Mem.load64_congr fun x hx hx' => hframe x (by omega) (by omega),
      Mem.load64_store64_of_disjoint (by omega), Mem.load64_store64_self]
  have h6 := ((h5.exec_mov .rcx .r10).set .r10 L.table).exec_leaScaled .r10 .r10 .rax 8
  refine ⟨_, _, m', by rw [syscallIndex, hcall]; rfl, h6, by simp [hrax], fun r hr hr' => ?_,
    fun q hq => ?_, fun x hx hx' => ?_⟩
  · cases r <;> first | exact absurd rfl hr | exact absurd rfl hr' | simp [hrax, hPadd]
  · rw [hsaved q hq, Function.update_of_ne (contextSlots_reg q hq).2.2]
  · rw [hframe x hx (by omega), Mem.store64_of_not_mem (by omega),
      Mem.store64_of_not_mem (by omega)]

end

/-! ### The state of a system call -/

/-- **The user state `s` is saved**: `rsp` in the block of `gs`, `rbp` on the kernel stack, and the
other registers in the context block. -/
structure UserSaved (s : Cpu) (m : Mem) (g c k : ℕ) : Prop where
  usr_rsp : m.load64 (g + 0x10) = s.reg .rsp
  ctx : (m.load64 (g + 0x28)).toNat = c
  rbp : m.load64 (k - 8) = s.reg .rbp
  context : ContextHolds m c s.reg

section

variable {L : SyscallLink} {s u : Cpu} {g c k : ℕ} {ρ : Reg → BitVec 64} {m m' : Mem}
  {G G' : BitVec 64}

/-- Saved state stays saved while both blocks and the top of the kernel stack stay. -/
theorem UserSaved.of_eq (h : UserSaved s m g c k) (h8 : 8 ≤ k)
    (hgs : ∀ x, g ≤ x → x < g + 0x48 → m' x = m x) (hctx : ∀ x, c ≤ x → x < c + 0x80 → m' x = m x)
    (htop : ∀ x, k - 8 ≤ x → x < k → m' x = m x) : UserSaved s m' g c k where
  usr_rsp := (Mem.load64_congr fun x _ _ => hgs x (by omega) (by omega)).trans h.usr_rsp
  ctx := by
    rw [Mem.load64_congr fun x _ _ => hgs x (by omega) (by omega)]
    exact h.ctx
  rbp := (Mem.load64_congr fun x _ _ => htop x (by omega) (by omega)).trans h.rbp
  context q hq := by
    have hlt := contextSlots_lt q hq
    rw [Mem.load64_congr fun x _ _ => hctx x (by omega) (by omega)]
    exact h.context q hq

/-- **At the call of the handler** the user state is saved, and the other registers than `rax`,
`rcx`, `r10` and those of the stack are still the user's. -/
theorem syscallCalls_spec (L : SyscallLink) (h : ThreadBlocks s g c k) :
    ∃ t u ρ m, syscallIndex L (run syscallEntry s) = some t ∧
      t.reg .r10 = L.table + s.reg .rax * 8#64 ∧ syscallCalls L s = some u ∧
      u.Holds ρ m s.kernelGsBase s.gsBase ∧ (ρ .rsp).toNat = k - 8 ∧
      ρ .rax = m.load64 (t.reg .r10).toNat ∧
      (∀ r, r ≠ .rax → r ≠ .rcx → r ≠ .r10 → r ≠ .rsp → r ≠ .rbp → ρ r = s.reg r) ∧
      UserSaved s m g c k ∧
      ∀ x, (x < g ∨ g + 0x48 ≤ x) → (x < c ∨ c + 0x80 ≤ x) → (x < k - 40 ∨ k ≤ x) →
        m x = s.mem x := by
  obtain ⟨e, he⟩ : ∃ e, e = run syscallEntry s := ⟨_, rfl⟩
  have hentry := he.trans (run_syscallEntry h)
  obtain ⟨hgs, hker, hctx, hg, hc, hstack, hgc, hgp, hcp⟩ := h
  obtain ⟨K, hK, hKn, -⟩ := exists_pushed hker (by omega)
  rw [hK] at hentry
  obtain ⟨m₀, hm₀⟩ : ∃ m₀, m₀ = ((s.mem.store64 g 1#64).store64 (g + 0x10) (s.reg .rsp)).store64
      (k - 8) (s.reg .rbp) := ⟨_, rfl⟩
  rw [← hm₀] at hentry
  have h0 : e.Holds (Function.update (Function.update s.reg .rsp K) .rbp K) m₀ s.kernelGsBase
      s.gsBase := by
    rw [hentry]
    exact ⟨rfl, rfl, rfl, rfl⟩
  have hctx₀ : (m₀.load64 (s.kernelGsBase.toNat + 0x28)).toNat = c := by
    rw [hm₀, hgs, Mem.load64_store64_of_disjoint (by omega),
      Mem.load64_store64_of_disjoint (by omega), Mem.load64_store64_of_disjoint (by omega), hctx]
  obtain ⟨t, ρ, m, hindex, ht, hr10, hreg, hsaved, hframe⟩ := syscallIndex_spec L h0 (c := c)
    (p := k - 8) ⟨by omega, by omega, hc, by omega, by omega, by omega⟩ hctx₀ (by simpa using hKn)
  have hload := ht.exec_load .rax .r10 0 rfl (by have := (ρ .r10).isLt; omega)
  have hxor := hload.exec_xor .r10 .r10
  rw [Nat.add_zero] at hxor
  refine ⟨t, _, _, m, he ▸ hindex, ?_, ?_, hxor, ?_, ?_, fun r h1 h2 h3 h4 h5 => ?_, ?_,
    fun x h1 h2 h3 => ?_⟩
  · rw [ht.reg, hr10]
    simp
  · rw [syscallCalls, ← he, hindex]
    rfl
  · simp [hreg, hKn]
  · simp [ht.reg]
  · simp [h1, h2, h3, h4, h5, hreg]
  · refine ⟨?_, ?_, ?_, fun q hq => ?_⟩
    · rw [Mem.load64_congr fun x _ _ => hframe x (by omega) (by omega), hm₀,
        Mem.load64_store64_of_disjoint (by omega), Mem.load64_store64_self]
    · rw [Mem.load64_congr fun x _ _ => hframe x (by omega) (by omega), ← hgs]
      exact hctx₀
    · rw [Mem.load64_congr fun x _ _ => hframe x (by omega) (by omega), hm₀,
        Mem.load64_store64_self]
    · obtain ⟨-, h2, h3⟩ := contextSlots_reg q hq
      rw [hsaved q hq]
      simp [h2, h3]
  · rw [hframe x (by omega) (by omega), hm₀, Mem.store64_of_not_mem (by omega),
      Mem.store64_of_not_mem (by omega), Mem.store64_of_not_mem (by omega)]

end

/-! ### Dispatch -/

/-- `syscall_table`, four entries and a terminator, lies apart from the blocks of the thread. -/
structure TableApart (L : SyscallLink) (g c k : ℕ) : Prop where
  fits : L.table.toNat + 40 ≤ 2 ^ 64
  gs : L.table.toNat + 40 ≤ g ∨ g + 0x48 ≤ L.table.toNat
  ctx : L.table.toNat + 40 ≤ c ∨ c + 0x80 ≤ L.table.toNat
  stack : L.table.toNat + 40 ≤ k - 40 ∨ k ≤ L.table.toNat

/-- **Dispatch is confined to the table**: a number of four or more, and no other, ends in
`.undefined_syscall`, and any other number calls the address in its entry of the table. -/
structure SyscallConfined (L : SyscallLink) (s : Cpu) : Prop where
  undefined_iff : (∃ t, syscallEntryPoint L s = some (.undefinedSyscall t)) ↔
    numSyscalls.toNat ≤ (s.reg .rax).toNat
  called : ¬(run syscallEntry s).flags.Ge → ∃ t u, syscallIndex L (run syscallEntry s) = some t ∧
    syscallCalls L s = some u ∧ (s.reg .rax).toNat < numSyscalls.toNat ∧
    (t.reg .r10).toNat = L.table.toNat + 8 * (s.reg .rax).toNat ∧
    u.reg .rax = s.mem.load64 (L.table.toNat + 8 * (s.reg .rax).toNat)

section

variable {L : SyscallLink} {s : Cpu} {g c k : ℕ}

/-- What the conditional jump tests: the bound is compared as a signed number. -/
theorem syscallEntry_ge_iff (h : ThreadBlocks s g c k) :
    (run syscallEntry s).flags.Ge ↔ 4 ≤ (s.reg .rax).toNat ∧ (s.reg .rax).toNat < 2 ^ 63 := by
  have hlt := (s.reg .rax).isLt
  have hfour : numSyscalls.toInt = 4 := rfl
  rw [run_syscallEntry h]
  dsimp only
  rw [Flags.ge_iff, hfour, BitVec.toInt_eq_toNat_cond]
  split_ifs <;> omega

/-- Only the conditional jump leads to `.undefined_syscall`. -/
theorem undefinedSyscall_iff (L : SyscallLink) (s : Cpu) :
    (∃ t, syscallEntryPoint L s = some (.undefinedSyscall t)) ↔ (run syscallEntry s).flags.Ge := by
  rw [syscallEntryPoint]
  constructor
  · rintro ⟨t, ht⟩
    by_contra hge
    rw [if_neg hge] at ht
    simp only [Option.bind_eq_bind, Option.bind_eq_some_iff, Option.pure_def, Option.some.injEq,
      reduceCtorEq, and_false, exists_false] at ht
  · intro hge
    exact ⟨_, if_pos hge⟩

/-- A number with a clear top bit is dispatched through the table. -/
theorem syscall_confined_of_lt (h : ThreadBlocks s g c k) (htable : TableApart L g c k)
    (hsmall : (s.reg .rax).toNat < 2 ^ 63) : SyscallConfined L s := by
  have hge := syscallEntry_ge_iff h
  have hfour : numSyscalls.toNat = 4 := rfl
  refine ⟨by rw [undefinedSyscall_iff, hge]; omega, fun hnot => ?_⟩
  have hrax : (s.reg .rax).toNat < 4 := by
    rw [hge] at hnot
    omega
  obtain ⟨t, u, ρ, m, hindex, hr10, hcalls, hu, -, htarget, -, -, hframe⟩ := syscallCalls_spec L h
  obtain ⟨hfits, hg, hc, hstack⟩ := htable
  have hslot : (t.reg .r10).toNat = L.table.toNat + 8 * (s.reg .rax).toNat := by
    have hmul : (s.reg .rax * 8#64).toNat = 8 * (s.reg .rax).toNat := by
      rw [BitVec.toNat_mul, BitVec.toNat_ofNat]
      omega
    rw [hr10, BitVec.toNat_add, hmul]
    omega
  refine ⟨t, u, hindex, hcalls, by omega, hslot, ?_⟩
  rw [hu.reg, htarget, hslot]
  exact Mem.load64_congr fun x _ _ => hframe x (by omega) (by omega) (by omega)

/-- **Dispatch is confined to the table exactly when the number's top bit is clear.** -/
theorem syscall_dispatch_iff (h : ThreadBlocks s g c k) (htable : TableApart L g c k) :
    SyscallConfined L s ↔ (s.reg .rax).toNat < 2 ^ 63 := by
  refine ⟨fun hconf => ?_, syscall_confined_of_lt h htable⟩
  by_contra hbig
  have hfour : numSyscalls.toNat = 4 := rfl
  have hundef := hconf.undefined_iff.mpr (by omega)
  rw [undefinedSyscall_iff, syscallEntry_ge_iff h] at hundef
  omega

end

/-- A thread in user mode: `gs_base_t` at `0x1000`, `ctx_t` at `0x2000` and the kernel stack below
`0x4000`; the number of the system call is `rax`. -/
def userThread (rax : BitVec 64) : Cpu where
  reg r := if r = .rax then rax else 0#64
  flags := ⟨false, false, false⟩
  ds := 0x3B#16
  es := 0x3B#16
  ss := 0x3B#16
  gsBase := 0#64
  kernelGsBase := 0x1000#64
  cr3 := 0#64
  interrupts := true
  mem := (Mem.store64 (fun _ => 0#8) 0x1008 0x4000#64).store64 0x1028 0x2000#64

/-- Code linked with the table at `0x8000` and the handler `handler` at every address. -/
def linkedAt (handler : Cpu → Cpu) : SyscallLink where
  table := 0x8000#64
  afterSave := 0x9000#64
  afterHandler := 0x9010#64
  afterRestore := 0x9020#64
  code _ := handler

theorem userThread_blocks (rax : BitVec 64) :
    ThreadBlocks (userThread rax) 0x1000 0x2000 0x4000 where
  gs := rfl
  ker_rsp := by
    simp only [userThread]
    rw [Mem.load64_store64_of_disjoint (by norm_num), Mem.load64_store64_self]
    rfl
  ctx := by
    simp only [userThread]
    rw [Mem.load64_store64_self]
    rfl
  gs_fits := by norm_num
  ctx_fits := by norm_num
  stack_fits := by norm_num
  gs_ctx := by norm_num
  gs_stack := by norm_num
  ctx_stack := by norm_num

theorem linkedAt_apart (handler : Cpu → Cpu) :
    TableApart (linkedAt handler) 0x1000 0x2000 0x4000 where
  fits := by norm_num [linkedAt]
  gs := by norm_num [linkedAt]
  ctx := by norm_num [linkedAt]
  stack := by norm_num [linkedAt]

/-- The system call `getc`. -/
theorem syscall_dispatch_iff_getc : SyscallConfined (linkedAt id) (userThread 2#64) :=
  (syscall_dispatch_iff (userThread_blocks _) (linkedAt_apart _)).mpr (by norm_num [userThread])

/-- The number `-1` passes the check, and its entry lies below the table. -/
theorem syscall_dispatch_escapes : ¬∀ (L : SyscallLink) (s : Cpu) (g c k : ℕ),
    ThreadBlocks s g c k → TableApart L g c k → SyscallConfined L s := by
  intro h
  have hconf := h (linkedAt id) (userThread (-1#64)) _ _ _ (userThread_blocks _) (linkedAt_apart _)
  have hundef := hconf.undefined_iff.mpr (by decide)
  rw [undefinedSyscall_iff, syscallEntry_ge_iff (userThread_blocks _)] at hundef
  exact absurd hundef.2 (by decide)

/-! ### Registers across a system call -/

/-- The registers that a C function keeps. -/
def calleeSaved : List Reg :=
  [.rbx, .rbp, .rsp, .r12, .r13, .r14, .r15]

/-- **A C handler**: it keeps the registers of the calling convention, the frames of its callers up
to the top `k` of the kernel stack, and the blocks of the thread at `g` and `c`. All else is its
own. -/
structure Handler (handler : Cpu → Cpu) (g c k : ℕ) : Prop where
  reg : ∀ s, ∀ r ∈ calleeSaved, (handler s).reg r = s.reg r
  gsBase : ∀ s, (handler s).gsBase = s.gsBase
  kernelGsBase : ∀ s, (handler s).kernelGsBase = s.kernelGsBase
  frames : ∀ s x, (s.reg .rsp).toNat ≤ x → x < k → (handler s).mem x = s.mem x
  gs : ∀ s x, g ≤ x → x < g + 0x48 → (handler s).mem x = s.mem x
  ctx : ∀ s x, c ≤ x → x < c + 0x80 → (handler s).mem x = s.mem x

/-- **User registers survive**: at `sysret` every register but `rax`, `rcx` and `r11` is that of the
user state `s`, `rax` is the result, and `rcx` and `r11` are what the processor put there. -/
structure UserRegistersKept (s t : Cpu) (result ret flags : BitVec 64) : Prop where
  kept : ∀ r, r ≠ .rax → r ≠ .rcx → r ≠ .r11 → t.reg r = s.reg r
  rax : t.reg .rax = result
  rcx : t.reg .rcx = ret
  r11 : t.reg .r11 = flags

section

variable {L : SyscallLink} {s u : Cpu} {g c k : ℕ} {ρ : Reg → BitVec 64} {m : Mem}
  {G G' ret flags : BitVec 64}

/-- Every register but `rax` is in the context block or on the way through the stack. -/
theorem Reg.mem_contextSlots (r : Reg) (h1 : r ≠ .rax) (h2 : r ≠ .rbp) (h3 : r ≠ .rsp) :
    ∃ q ∈ contextSlots, q.2 = r := by
  cases r <;> simp_all [contextSlots]

/-- **From the call of the handler to `sysret`**: the saved state comes back, with the handler's
`rax` and `rdx`. -/
theorem syscall_returns (h : ThreadBlocks s g c k) (hu : u.Holds ρ m s.kernelGsBase s.gsBase)
    (hrsp : (ρ .rsp).toNat = k - 8) (hsaved : UserSaved s m g c k) {handler : Cpu → Cpu}
    (hhandler : Handler handler g c k) :
    ∃ v w, call L.afterHandler handler u = some v ∧
      call L.afterRestore (run syscallKernelToUser) v = some w ∧
      (run syscallExit w).reg .rax = (handler (u.push L.afterHandler)).reg .rax ∧
      (run syscallExit w).reg .rdx = (handler (u.push L.afterHandler)).reg .rdx ∧
      ∀ r, r ≠ .rax → r ≠ .rdx → (run syscallExit w).reg r = s.reg r := by
  obtain ⟨hgs, -, -, hg, hc, hstack, hgc, hgp, hcp⟩ := h
  obtain ⟨P, hP, hPn, hPadd⟩ := exists_pushed hrsp (by omega)
  have hpush := hu.push L.afterHandler hrsp (by omega)
  rw [hP] at hpush
  obtain ⟨e, he⟩ : ∃ e, e = u.push L.afterHandler := ⟨_, rfl⟩
  rw [← he] at hpush ⊢
  obtain ⟨ρ₁, m₁, hρ₁, hm₁⟩ : ∃ ρ₁ m₁, ρ₁ = (handler e).reg ∧ m₁ = (handler e).mem :=
    ⟨_, _, rfl, rfl⟩
  have h1 : (handler e).Holds ρ₁ m₁ s.kernelGsBase s.gsBase :=
    ⟨hρ₁.symm, hm₁.symm, (hhandler.gsBase e).trans hpush.gsBase,
      (hhandler.kernelGsBase e).trans hpush.kernelGsBase⟩
  have hersp : (e.reg .rsp).toNat = k - 8 - 8 := by
    rw [hpush.reg]
    simpa using hPn
  -- the handler keeps the frame of `syscallEntryPoint` and both blocks
  have hframes : ∀ x, k - 16 ≤ x → x < k → m₁ x = m.store64 (k - 8 - 8) L.afterHandler x :=
    fun x h1 h2 => by
      rw [hm₁, hhandler.frames e x (by omega) h2, hpush.mem]
  have hsaved₁ : UserSaved s m₁ g c k := by
    refine hsaved.of_eq (by omega) (fun x h1 h2 => ?_) (fun x h1 h2 => ?_) fun x h1 h2 => ?_
    · rw [hm₁, hhandler.gs e x h1 h2, hpush.mem, Mem.store64_of_not_mem (by omega)]
    · rw [hm₁, hhandler.ctx e x h1 h2, hpush.mem, Mem.store64_of_not_mem (by omega)]
    · rw [hframes x (by omega) h2, Mem.store64_of_not_mem (by omega)]
  have hρ₁rsp : ρ₁ .rsp = P := by
    rw [hρ₁, hhandler.reg e .rsp (by decide), hpush.reg]
    simp
  obtain ⟨v, hv, h2⟩ := Cpu.Holds.call (s := u) L.afterHandler
    (v := ρ .rsp) (by rw [hu.reg]) (he ▸ h1) (by rw [hρ₁rsp, hP]) (by
      rw [hP, hPn, Mem.load64_congr fun x h1 h2 => hframes x (by omega) (by omega),
        Mem.load64_store64_self])
  -- the same for the exit routine
  have hpush₂ := h2.push L.afterRestore (a := k - 8) (by simpa using hrsp) (by omega)
  obtain ⟨ρ₃, m₃, h3, hkept, hloaded, hframe⟩ := syscallKernelToUser_spec hpush₂ (c := c)
    (p := k - 8 - 8) ⟨by omega, by omega, hc, by omega, by omega, by omega⟩
    (by rw [hgs, Mem.load64_store64_of_disjoint (by omega)]; exact hsaved₁.ctx)
    (by simp [hP, hPn])
  obtain ⟨w, hw, h4⟩ := Cpu.Holds.call (s := v) L.afterRestore
    (v := ρ .rsp) (by rw [h2.reg]; simp) h3
    (by rw [hkept .rsp (by simp)]; simp) (by
      rw [hP, hPn, Mem.load64_congr fun x h1 h2 => hframe x (by omega), Mem.load64_store64_self])
  have hsaved₃ : UserSaved s m₃ g c k := by
    refine hsaved₁.of_eq (by omega) (fun x h1 h2 => ?_) (fun x h1 h2 => ?_) fun x h1 h2 => ?_ <;>
      rw [hframe x (by omega), Mem.store64_of_not_mem (by omega)]
  have h5 := h4.exec_pop .rbp (a := k - 8) (by simpa using hrsp)
  have h6 := h5.exec_load_gs .rsp 0x10 (by omega)
  have h7 := (h6.exec_storeImm_gs 0x00 0#64 (by omega)).exec_swapgs
  have hreg : (run syscallExit w).reg = _ := h7.reg
  refine ⟨v, w, hv, hw, ?_, ?_, fun r hr hr' => ?_⟩
  · rw [hreg, ← hρ₁]
    simp [hkept .rax (by simp)]
  · rw [hreg, ← hρ₁]
    simp [hkept .rdx (by simp)]
  · rw [hreg]
    by_cases hbp : r = .rbp
    · subst hbp
      simp [hsaved₃.rbp]
    by_cases hsp : r = .rsp
    · subst hsp
      simp [hgs, hsaved₃.usr_rsp]
    obtain ⟨q, hq, rfl⟩ := r.mem_contextSlots hr hbp hsp
    have hlt := contextSlots_lt q hq
    have hword : (m₁.store64 (k - 8 - 8) L.afterRestore).load64 (c + q.1) = m₁.load64 (c + q.1) :=
      Mem.load64_store64_of_disjoint (by omega)
    simp [hbp, hsp, hloaded q hq hr', hword, hsaved₁.context q hq]

/-- **A whole system call**: every register but `rax` and `rdx` is that of the state right after the
`syscall` instruction. -/
theorem syscall_spec (h : ThreadBlocks s g c k) (htable : TableApart L g c k)
    (hrax : (s.reg .rax).toNat < 4)
    (hhandler : ∀ i < 4, Handler (L.code (s.mem.load64 (L.table.toNat + 8 * i))) g c k) :
    ∃ u t, syscallCalls L s = some u ∧ u.reg .rdx = s.reg .rdx ∧
      syscallEntryPoint L s = some (.sysret t) ∧
      t.reg .rax = (L.code (u.reg .rax) (u.push L.afterHandler)).reg .rax ∧
      t.reg .rdx = (L.code (u.reg .rax) (u.push L.afterHandler)).reg .rdx ∧
      ∀ r, r ≠ .rax → r ≠ .rdx → t.reg r = s.reg r := by
  have hnot : ¬(run syscallEntry s).flags.Ge := by
    rw [syscallEntry_ge_iff h]
    omega
  obtain ⟨-, u, -, hu, -, -, htarget⟩ := (syscall_confined_of_lt h htable (by omega)).called hnot
  obtain ⟨-, u', ρ, m, -, -, hu', hholds, hrsp, -, hregs, hsaved, -⟩ := syscallCalls_spec L h
  obtain rfl : u = u' := Option.some.inj (hu.symm.trans hu')
  obtain ⟨v, w, hv, hw, hax, hdx, hother⟩ := syscall_returns (L := L) h hholds hrsp hsaved
    (show Handler (L.code (u.reg .rax)) g c k by rw [htarget]; exact hhandler _ hrax)
  refine ⟨u, run syscallExit w, hu, ?_, ?_, hax, hdx, hother⟩
  · rw [hholds.reg, hregs _ (by decide) (by decide) (by decide) (by decide) (by decide)]
  · rw [syscallEntryPoint, if_neg hnot, hu]
    simp only [Option.bind_eq_bind, Option.bind_some, hv, hw]
    rfl

/-- The state right after the `syscall` instruction. -/
theorem syscallInstruction_reg (s : Cpu) (ret flags : BitVec 64) :
    (syscallInstruction s ret flags).reg .rcx = ret ∧
      (syscallInstruction s ret flags).reg .r11 = flags ∧
      ∀ r, r ≠ .rcx → r ≠ .r11 → (syscallInstruction s ret flags).reg r = s.reg r := by
  refine ⟨rfl, rfl, fun r h1 h2 => ?_⟩
  rw [syscallInstruction, Cpu.set_reg_of_ne h2, Cpu.set_reg_of_ne h1]

theorem ThreadBlocks.syscallInstruction (h : ThreadBlocks s g c k) (ret flags : BitVec 64) :
    ThreadBlocks (syscallInstruction s ret flags) g c k :=
  ⟨h.gs, h.ker_rsp, h.ctx, h.gs_fits, h.ctx_fits, h.stack_fits, h.gs_ctx, h.gs_stack, h.ctx_stack⟩

/-- **User registers survive a system call exactly when the handler keeps `rdx`**: the exit routine
loads the saved `rdx` and then pops the handler's over it. -/
theorem syscall_preserves_iff (h : ThreadBlocks s g c k) (htable : TableApart L g c k)
    (hrax : (s.reg .rax).toNat < 4)
    (hhandler : ∀ i < 4, Handler (L.code (s.mem.load64 (L.table.toNat + 8 * i))) g c k)
    (ret flags : BitVec 64) :
    ∃ u, syscallCalls L (syscallInstruction s ret flags) = some u ∧
      ((∃ t, syscallEntryPoint L (syscallInstruction s ret flags) = some (.sysret t) ∧
          UserRegistersKept s t ((L.code (u.reg .rax) (u.push L.afterHandler)).reg .rax) ret
            flags) ↔
        (L.code (u.reg .rax) (u.push L.afterHandler)).reg .rdx = u.reg .rdx) := by
  obtain ⟨hrcx, hr11, hreg⟩ := syscallInstruction_reg s ret flags
  obtain ⟨u, t, hu, hudx, hend, hax, hdx, hother⟩ := syscall_spec
    (h.syscallInstruction ret flags) htable
    (by rw [hreg _ (by decide) (by decide)]; exact hrax) hhandler
  refine ⟨u, hu, ?_⟩
  rw [hend, hudx, hreg _ (by decide) (by decide), ← hdx]
  constructor
  · rintro ⟨t', ht', hkept⟩
    obtain rfl : t = t' := by simpa using ht'
    exact hkept.kept _ (by decide) (by decide) (by decide)
  · intro hsame
    refine ⟨t, rfl, fun r h1 h2 h3 => ?_, hax, ?_, ?_⟩
    · by_cases hr : r = .rdx
      · rw [hr, hsame]
      · rw [hother r h1 hr, hreg r h2 h3]
    · rw [hother _ (by decide) (by decide), hrcx]
    · rw [hother _ (by decide) (by decide), hr11]

end

/-- A handler that works on one scratch register. -/
theorem handler_set {r : Reg} (hr : r ∉ calleeSaved) (v : BitVec 64) (g c k : ℕ) :
    Handler (fun s => s.set r v) g c k where
  reg _ _ hq := Cpu.set_reg_of_ne fun h => hr (h ▸ hq)
  gsBase _ := rfl
  kernelGsBase _ := rfl
  frames _ _ _ _ := rfl
  gs _ _ _ _ := rfl
  ctx _ _ _ _ := rfl

/-- The system call `getc` with a handler that returns 65. -/
theorem syscall_preserves_iff_getc :
    ∃ t, syscallEntryPoint (linkedAt fun s => s.set .rax 65#64)
        (syscallInstruction (userThread 2#64) 0x400000#64 0x202#64) = some (.sysret t) ∧
      UserRegistersKept (userThread 2#64) t 65#64 0x400000#64 0x202#64 := by
  obtain ⟨u, -, hiff⟩ := syscall_preserves_iff (userThread_blocks 2#64)
    (linkedAt_apart fun s => s.set .rax 65#64) (by norm_num [userThread])
    (fun _ _ => handler_set (by decide) _ _ _ _) 0x400000#64 0x202#64
  obtain ⟨t, ht, hkept⟩ := hiff.mpr rfl
  exact ⟨t, ht, hkept⟩

/-- A handler that leaves a value of its own in `rdx`, as the convention allows. -/
theorem syscall_loses_rdx : ¬∀ (L : SyscallLink) (s : Cpu) (g c k : ℕ) (ret flags : BitVec 64),
    ThreadBlocks s g c k → TableApart L g c k → (s.reg .rax).toNat < 4 →
    (∀ i < 4, Handler (L.code (s.mem.load64 (L.table.toNat + 8 * i))) g c k) →
      ∃ u t, syscallCalls L (syscallInstruction s ret flags) = some u ∧
        syscallEntryPoint L (syscallInstruction s ret flags) = some (.sysret t) ∧
        UserRegistersKept s t ((L.code (u.reg .rax) (u.push L.afterHandler)).reg .rax) ret
          flags := by
  intro h
  obtain ⟨u₀, t, -, ht, hkept⟩ := h (linkedAt fun s => s.set .rdx 1#64) (userThread 2#64) _ _ _ 0#64
    0#64 (userThread_blocks _) (linkedAt_apart _) (by norm_num [userThread])
    fun _ _ => handler_set (by decide) _ _ _ _
  obtain ⟨u, t', -, -, hend, -, hdx, -⟩ := syscall_spec
    ((userThread_blocks 2#64).syscallInstruction 0#64 0#64)
    (linkedAt_apart fun s => s.set .rdx 1#64) (by decide)
    fun _ _ => handler_set (by decide) _ _ _ _
  obtain rfl : t = t' := by simpa using ht.symm.trans hend
  have hlost := hkept.kept .rdx (by decide) (by decide) (by decide)
  rw [hdx] at hlost
  exact absurd (Cpu.set_reg_self.symm.trans hlost) (by decide)

end AnglOS
