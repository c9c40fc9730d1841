import AnglOS.Context
import AnglOS.Loop

/-!
# Interrupts and the Base of `gs`

What interrupt entry does with the two bases of `gs`, wherever it happens. The state has the
position of the code that runs, the two bases, `ds`, the interrupt flag, and of memory what
`irq_stub` reads back: the system call flag and the interrupt stack pointer of each thread's
`gs_base_t`. Code is a list of operations on this state, one for each instruction; the system call
path leaves the interrupt flag as it is, since nothing programs the flag mask, and an interrupt gate
clears it.

`irq_stub` takes `ds = 0x30` to say that `gs` is the kernel's. The system call path changes `ds`
some instructions after its `swapgs` on the way in and before it on the way out, and
`threadContextSwitch` enters user code without changing `ds` at all.

## Main results

* `run_segOps` — the operations are what the instructions of the machine do;
* `interrupts_honest_of_run` — over every run in which interrupts find `ds` in agreement with the
  base of `gs`, the first access of `irq_stub` is to the current thread's block, and its exit path
  restores both bases and `ds`; and an interrupt elsewhere breaks this.
* `clear_of_run` — where interrupts always find such a state.
-/

namespace AnglOS

/-! ### Segment state -/

/-- The bases of `gs`, the data segment register and the interrupt flag. -/
structure Segments where
  gsBase : BitVec 64
  kernelGsBase : BitVec 64
  ds : BitVec 16
  interrupts : Bool
  deriving DecidableEq, Repr

/-- The segment state of the machine. -/
def Cpu.segments (s : Cpu) : Segments :=
  ⟨s.gsBase, s.kernelGsBase, s.ds, s.interrupts⟩

/-- What an instruction does to the segment state: nothing (`other`), nothing but an access through
`gs`, a store of the system call flag at `gs:0x00` (`mark`), or a change of one register. -/
inductive SegOp
  | other
  | access
  | mark (v : BitVec 64)
  | swapgs
  | loadDs (v : BitVec 16)
  | sti
  deriving DecidableEq, Repr

/-- The segment state after an operation. -/
def SegOp.exec (σ : Segments) : SegOp → Segments
  | .other | .access | .mark _ => σ
  | .swapgs => { σ with gsBase := σ.kernelGsBase, kernelGsBase := σ.gsBase }
  | .loadDs v => { σ with ds := v }
  | .sti => { σ with interrupts := true }

/-- The base of the first access through `gs`. -/
def firstAccess : List SegOp → Segments → Option (BitVec 64)
  | [], _ => none
  | .access :: _, σ | .mark _ :: _, σ => some σ.gsBase
  | op :: ops, σ => firstAccess ops (op.exec σ)

/-! ### The operations of straight-line code -/

/-- The register that an instruction writes, the stack pointer apart. -/
def Instr.target : Instr → Option Reg
  | .pop r | .mov r _ | .movImm r _ | .movImm16 r _ | .load r _ | .leaRel r _ | .leaScaled r _ _ _
  | .xor r _ | .xor32 r _ => some r
  | .push _ | .store .. | .storeImm .. | .cmpImm .. | .movSegment .. | .movCr3 _ | .swapgs
  | .sti => none

/-- What is known of `ax` after an instruction. -/
def Instr.ax (ax : Option (BitVec 16)) : Instr → Option (BitVec 16)
  | .movImm16 .rax v => some v
  | i => if i.target = some .rax then none else ax

/-- The operation of an instruction, where `ax` is known if `ds` is loaded from it. -/
def Instr.segOp (ax : Option (BitVec 16)) : Instr → Option SegOp
  | .swapgs => some .swapgs
  | .sti => some .sti
  | .movSegment .ds .rax => ax.map .loadDs
  | .movSegment .ds _ => none
  | .storeImm (.gs 0) v => some (.mark v)
  | .storeImm (.gs (_ + 1)) _ | .load _ (.gs _) | .store (.gs _) _ => some .access
  | .movSegment .es _ | .movSegment .ss _ | .storeImm (.base ..) _ | .load _ (.base ..)
  | .store (.base ..) _ | .push _ | .pop _ | .mov .. | .movImm .. | .movImm16 .. | .leaRel ..
  | .leaScaled .. | .xor .. | .xor32 .. | .cmpImm .. | .movCr3 _ => some .other

/-- The operations of straight-line code. -/
def segOps : Option (BitVec 16) → List Instr → Option (List SegOp)
  | _, [] => some []
  | ax, i :: c => do
    let op ← i.segOp ax
    let ops ← segOps (i.ax ax) c
    return op :: ops

section

variable {s : Cpu} {i : Instr} {ax : Option (BitVec 16)} {op : SegOp} {ops : List SegOp}
  {c : List Instr}

/-- `ax` is what is known of it. -/
def Cpu.Knows (s : Cpu) (ax : Option (BitVec 16)) : Prop :=
  ∀ v, ax = some v → (s.reg .rax).setWidth 16 = v

theorem Cpu.Knows.none (s : Cpu) : s.Knows none := by
  rintro v ⟨⟩

theorem exec_rax (h : i.target ≠ some .rax) : (exec s i).reg .rax = s.reg .rax := by
  cases i <;> simp_all [Instr.target, exec, Cpu.push, Cpu.set_reg, eq_comm]
  case movSegment seg src => cases seg <;> rfl

theorem setWidth_movImm16 (a : BitVec 64) (v : BitVec 16) :
    (a.extractLsb' 16 48 ++ v).setWidth 16 = v := by
  apply BitVec.eq_of_getLsbD_eq
  intro j hj
  rw [BitVec.getLsbD_setWidth, BitVec.getLsbD_append]
  simp [hj]

theorem Cpu.Knows.exec (h : s.Knows ax) (i : Instr) : (exec s i).Knows (i.ax ax) := by
  intro v hv
  unfold Instr.ax at hv
  split at hv
  case h_1 w =>
    obtain rfl : w = v := by simpa using hv
    simp [AnglOS.exec, setWidth_movImm16]
  case h_2 =>
    split_ifs at hv with htarget
    rw [exec_rax htarget]
    exact h v hv

/-- One instruction. -/
theorem exec_segOp (hop : i.segOp ax = some op) (h : s.Knows ax) :
    (exec s i).segments = op.exec s.segments := by
  unfold Instr.segOp at hop
  split at hop
  case h_3 =>
    -- the value of `ax` is known
    obtain ⟨v, hv, rfl⟩ := Option.map_eq_some_iff.mp hop
    simp [exec, Cpu.segments, SegOp.exec, h v hv]
  all_goals cases hop <;> rfl

/-- **The operations are what the code does** to the segment state. -/
theorem run_segOps (hops : segOps ax c = some ops) (h : s.Knows ax) :
    (run c s).segments = ops.foldl SegOp.exec s.segments := by
  induction c generalizing s ax ops with
  | nil => cases hops; rfl
  | cons i c ih =>
    simp only [segOps, Option.bind_eq_bind, Option.bind_eq_some_iff] at hops
    obtain ⟨op, hop, ops', hops', hpure⟩ := hops
    cases hpure
    rw [run_cons, List.foldl_cons, ih hops' (h.exec i), exec_segOp hop h]

end

/-! ### The code paths -/

/-- Instructions that do nothing to the segment state. -/
def others (n : ℕ) : List SegOp :=
  List.replicate n .other

/-- `syscallEntryPoint` up to its conditional jump. -/
def syscallEntryOps : List SegOp :=
  [.swapgs, .mark 1, .access, .access] ++ others 3

/-- `syscall_user_to_kernel`. -/
def syscallUserToKernelOps : List SegOp :=
  others 2 ++ [.access] ++ others 3 ++ [.loadDs 0x30, .other, .access] ++ others 13 ++ [.other]

/-- `syscall_kernel_to_user`. -/
def syscallKernelToUserOps : List SegOp :=
  others 4 ++ [.access] ++ others 4 ++ [.loadDs 0x3B, .other, .access] ++ others 13 ++ others 4

/-- `syscallEntryPoint` from its last call on, up to `sysret`. -/
def syscallExitOps : List SegOp :=
  [.other, .access, .mark 0, .swapgs]

/-- `threadContextSwitch` up to `sysret`. -/
def threadContextSwitchOps : List SegOp :=
  others 6 ++ others 11 ++ [.other, .other, .sti]

/-- `save_context`. -/
def saveContextOps : List SegOp :=
  others 3 ++ [.access] ++ others 3 ++ [.access] ++ others 13 ++ others 2

/-- `restore_context`. -/
def restoreContextOps : List SegOp :=
  [.access] ++ others 13 ++ [.other]

theorem segOps_syscallEntry : segOps none syscallEntry = some syscallEntryOps := rfl

theorem segOps_syscallUserToKernel :
    segOps none syscallUserToKernel = some syscallUserToKernelOps := rfl

theorem segOps_syscallKernelToUser :
    segOps none syscallKernelToUser = some syscallKernelToUserOps := rfl

theorem segOps_syscallExit : segOps none syscallExit = some syscallExitOps := rfl

theorem segOps_threadContextSwitch :
    segOps none threadContextSwitch = some threadContextSwitchOps := rfl

theorem segOps_saveContext : segOps none saveContext = some saveContextOps := rfl

theorem segOps_restoreContext : segOps none restoreContext = some restoreContextOps := rfl

/-- The system call path from the `syscall` instruction to the call of the handler: the conditional
jump, a push, the call of `syscall_user_to_kernel` with its `ret`, and the load of the handler's
address. -/
def syscallPath : List SegOp :=
  syscallEntryOps ++ [.other] ++ [.other, .other] ++ syscallUserToKernelOps ++ [.other] ++ others 6

/-- The system call path from the return of the handler to `sysret`. -/
def returnPath : List SegOp :=
  [.other] ++ syscallKernelToUserOps ++ [.other] ++ syscallExitOps

/-- The two ways through `irq_stub` while there is a current thread, `.in_user` and `.in_syscall`,
and back, `.exit_user` and `.exit_syscall`. -/
inductive Branch
  | user
  | syscall
  deriving DecidableEq, Repr

/-- The branch that `irq_stub` takes. -/
def irqBranch (ds : BitVec 16) : Branch :=
  if ds = 0x30 then .syscall else .user

/-- `irq_stub` from its branch to the call of the C handler. The pushes of the registers and of the
control registers are the second branch's. -/
def Branch.entryOps : Branch → List SegOp
  | .user => [.swapgs, .other] ++ saveContextOps ++ [.other] ++
      [.other, .loadDs 0x30, .other, .other, .access] ++ others 3
  | .syscall => others 14 ++ others 8 ++ [.access] ++ others 3

/-- Both branches from the handler's return to the comparison of the system call flag. -/
def irqBackOps : List SegOp :=
  [.access, .access, .other, .other, .access] ++ others 2

/-- `irq_stub` from an exit label to `iretq`. -/
def Branch.exitOps : Branch → List SegOp
  | .user => [.other, .loadDs 0x3B, .other, .other] ++ restoreContextOps ++
      [.other, .swapgs, .other]
  | .syscall => others 8 ++ others 14 ++ [.other]

/-- The exit that a branch takes: the one compares the system call flag with one, the other with
zero. -/
def Branch.exit (flag : BitVec 64) : Branch → Branch
  | .user => if flag = 1 then .syscall else .user
  | .syscall => if flag = 0 then .user else .syscall

/-! ### The state -/

/-- Where the processor is. An index counts the instructions of the path that are done; at its end
stands the `call` of the handler or the `sysret`. -/
inductive Position
  | boot
  | user
  | syscall (i : ℕ)
  | undefinedSyscall
  | handler
  | return (i : ℕ)
  | switch (i : ℕ)
  | irq (b : Branch)
  | lost
  deriving DecidableEq, Repr

/-- What lies on the interrupt stack above the saved stack pointer: whether the registers and the
control registers were pushed, and the position and the interrupt flag of the interrupted code. The
segment state that the interrupt found is no data of the code, but recorded for statements. -/
structure IrqFrame where
  branch : Branch
  pos : Position
  interrupts : Bool
  taken : Segments
  deriving DecidableEq, Repr

/-- What a run records: the first access of `irq_stub` through `gs` while a thread is current, and
the segment states when an interrupt was taken and after its exit path. The exit path is lost
when it pops something else than what was pushed. -/
inductive IrqEvent (τ : Type*)
  | access (t : τ) (base : Option (BitVec 64))
  | resumed (taken after : Segments)
  | lost
  deriving DecidableEq, Repr

/-- **The state**. Memory is the system call flag `gs:0x00` and the interrupt stack to which
`gs:0x38` points, for each base of `gs`. -/
structure EntryState (τ : Type*) where
  seg : Segments
  pos : Position
  current : Option τ
  isNew : τ → Bool
  syscallFlag : BitVec 64 → BitVec 64
  irqStack : BitVec 64 → Option IrqFrame
  log : List (IrqEvent τ)

/-- The blocks `gs_base_t` of the threads. -/
structure GsBlocks (τ : Type*) where
  gs : τ → BitVec 64
  injective : Function.Injective gs
  ne_zero : ∀ t, gs t ≠ 0

/-! ### Steps -/

variable {τ : Type*} [DecidableEq τ]

/-- One operation of a path. -/
def EntryState.exec (s : EntryState τ) (op : SegOp) (pos : Position) : EntryState τ :=
  { s with
    seg := op.exec s.seg
    pos := pos
    syscallFlag := match op with
      | .mark v => Function.update s.syscallFlag s.seg.gsBase v
      | _ => s.syscallFlag }

/-- `sysret`: user code goes on, and its flags come back, in which the interrupt flag is set. -/
def EntryState.sysret (s : EntryState τ) : EntryState τ :=
  { s with pos := .user, seg := { s.seg with interrupts := true } }

/-- The next instruction of a path of the kernel. -/
def EntryState.next (s : EntryState τ) : Option (EntryState τ) :=
  match s.pos with
  | .syscall i =>
    match syscallPath[i]? with
    | some op => some (s.exec op (.syscall (i + 1)))
    | none => some { s with pos := .handler }
  | .return i =>
    match returnPath[i]? with
    | some op => some (s.exec op (.return (i + 1)))
    | none => some s.sysret
  | .switch i =>
    match threadContextSwitchOps[i]? with
    | some op => some (s.exec op (.switch (i + 1)))
    | none => some s.sysret
  | _ => none

/-- The selectors that user code can load into `ds`: null, and those of the two descriptors of the
global table for ring 3. -/
def UserLoadable (v : BitVec 16) : Prop :=
  v &&& 4 = 0 ∧ (v >>> 3 = 0 ∨ v >>> 3 = 7 ∨ v >>> 3 = 8)

instance userLoadable_decidable (v : BitVec 16) : Decidable (UserLoadable v) :=
  inferInstanceAs (Decidable (_ ∧ _))

/-- `threadSelect`, with interrupts disabled, up to the call of `threadContextSwitch`. -/
def EntryState.threadSelect (B : GsBlocks τ) (s : EntryState τ) (t : τ) : EntryState τ :=
  { s with
    current := some t
    isNew := Function.update s.isNew t false
    seg := { s.seg with gsBase := 0, kernelGsBase := B.gs t, interrupts := false }
    pos := .switch 0 }

/-- The boundary after `sti`, where no interrupt is taken yet. -/
def Position.AfterSti : Position → Prop
  | .switch i => threadContextSwitchOps[i - 1]? = some .sti
  | _ => False

instance afterSti_decidable (p : Position) : Decidable p.AfterSti := by
  cases p <;> unfold Position.AfterSti <;> infer_instance

/-- An interrupt of the thread `t`: the processor clears the interrupt flag, and `irq_stub` runs to
the call of the C handler. -/
def EntryState.interrupt (s : EntryState τ) (t : τ) : EntryState τ :=
  let branch := irqBranch s.seg.ds
  let entered := { s.seg with interrupts := false }
  let seg := branch.entryOps.foldl SegOp.exec entered
  { s with
    seg := seg
    pos := .irq branch
    irqStack := Function.update s.irqStack seg.gsBase
      (some ⟨branch, s.pos, s.seg.interrupts, s.seg⟩)
    log := s.log ++ [.access t (firstAccess branch.entryOps entered)] }

/-- `iretq`. On the way to ring 3 the processor clears a `ds` of ring 0. -/
def iretq (pos : Position) (interrupts : Bool) (σ : Segments) : Segments :=
  { σ with interrupts := interrupts, ds := if pos = .user ∧ σ.ds = 0x30 then 0 else σ.ds }

/-- The rest of `irq_stub` after the return of the C handler that its branch called. -/
def EntryState.irqReturn (s : EntryState τ) (branch : Branch) : EntryState τ :=
  let exit := branch.exit (s.syscallFlag s.seg.gsBase)
  let lost := { s with pos := .lost, log := s.log ++ [.lost] }
  match s.irqStack s.seg.gsBase with
  | some f =>
    if f.branch = exit then
      let seg := iretq f.pos f.interrupts ((irqBackOps ++ exit.exitOps).foldl SegOp.exec s.seg)
      { s with seg := seg, pos := f.pos, log := s.log ++ [.resumed f.taken seg] }
    else lost
  | none => lost

/-- What can happen next. User code and handlers have further instructions, which leave the state
as it is. -/
inductive EntryAction (τ : Type*)
  | select (t : τ)
  | next
  | loadDs (v : BitVec 16)
  | syscall
  | undefinedSyscall
  | handlerReturns
  | interrupt
  | irqReturns
  | threadNext (t : τ)
  deriving DecidableEq

/-- One step. The timer's handler calls `threadNext` if it finds the two bases as a thread in the
kernel has them; whatever the choice of the next thread, one that has not run yet is selected. -/
def EntryState.step (B : GsBlocks τ) (s : EntryState τ) : EntryAction τ → Option (EntryState τ)
  | .select t => if s.pos = .boot then some (s.threadSelect B t) else none
  | .next => s.next
  | .loadDs v =>
    if s.pos = .user ∧ UserLoadable v then some { s with seg := { s.seg with ds := v } } else none
  | .syscall => if s.pos = .user then some { s with pos := .syscall 0 } else none
  | .undefinedSyscall =>
    if s.pos = .syscall syscallEntryOps.length then some { s with pos := .undefinedSyscall }
    else none
  | .handlerReturns => if s.pos = .handler then some { s with pos := .return 0 } else none
  | .interrupt => do
    let t ← s.current
    if s.seg.interrupts ∧ ¬s.pos.AfterSti then some (s.interrupt t) else none
  | .irqReturns =>
    match s.pos with
    | .irq branch => some (s.irqReturn branch)
    | _ => none
  | .threadNext t =>
    match s.pos with
    | .irq branch =>
      if s.seg.gsBase ≠ 0 ∧ s.seg.kernelGsBase = 0 then
        if s.isNew t then some (s.threadSelect B t)
        else some ({ s with
          current := some t
          seg := { s.seg with gsBase := B.gs t, kernelGsBase := 0 } }.irqReturn branch)
      else none
    | _ => none

/-- The state before any thread: both bases are zero, as `initSyscall` leaves them, and the threads
are as `threadCreate` leaves them. -/
structure EntryState.Booted (B : GsBlocks τ) (s : EntryState τ) : Prop where
  gsBase : s.seg.gsBase = 0
  kernelGsBase : s.seg.kernelGsBase = 0
  pos : s.pos = .boot
  current : s.current = none
  isNew : ∀ t, s.isNew t = true
  syscallFlag : ∀ t, s.syscallFlag (B.gs t) = 0
  log : s.log = []

/-- What an event has to be: the access is to the block of the current thread, and the exit path
restores what the interrupt found. -/
def IrqEvent.Honest (B : GsBlocks τ) : IrqEvent τ → Prop
  | .access t base => base = some (B.gs t)
  | .resumed taken after => after = taken
  | .lost => False

/-- All interrupts of the run so far ran on the right base. -/
def EntryState.Honest (B : GsBlocks τ) (s : EntryState τ) : Prop :=
  ∀ e ∈ s.log, e.Honest B

/-! ### The condition -/

/-- **`ds` agrees with the base of `gs`**: user code's selector while `gs` is the user's, and the
kernel's while `gs` is the kernel's and the system call flag is set. -/
def EntryState.Clear (s : EntryState τ) : Prop :=
  s.seg.gsBase = 0 ∧ s.seg.ds = 0x3B ∨
    s.seg.gsBase ≠ 0 ∧ s.syscallFlag s.seg.gsBase = 1 ∧ s.seg.ds = 0x30

instance clear_decidable (s : EntryState τ) : Decidable s.Clear :=
  inferInstanceAs (Decidable (_ ∨ _))

/-- A step in which an interrupt is taken only in a clear state. -/
def ClearStep (B : GsBlocks τ) (a : EntryAction τ) (s s' : EntryState τ) : Prop :=
  s.step B a = some s' ∧ (a = .interrupt → s.Clear)

/-! ### The invariant -/

/-- What the position of a thread says: whether `gs` is the kernel's, the system call flag, and `ds`
where the kernel has loaded it. -/
structure Side where
  kernel : Bool
  flag : BitVec 64
  ds : Option (BitVec 16)
  deriving DecidableEq, Repr

/-- An operation of the system call path. -/
def Side.exec (σ : Side) : SegOp → Side
  | .swapgs => { σ with kernel := !σ.kernel }
  | .mark v => { σ with flag := v }
  | .loadDs v => { σ with ds := some v }
  | .other | .access | .sti => σ

/-- Where a thread is in user code. -/
def userSide : Side :=
  ⟨false, 0, none⟩

/-- Where a thread is in a system call's handler. -/
def handlerSide : Side :=
  ⟨true, 1, some 0x30⟩

/-- The side of a position on a thread's own paths. -/
def Position.side : Position → Option Side
  | .user | .switch _ => some userSide
  | .syscall i => some ((syscallPath.take i).foldl Side.exec userSide)
  | .undefinedSyscall => some ⟨true, 1, none⟩
  | .handler => some handlerSide
  | .return i => some ((returnPath.take i).foldl Side.exec handlerSide)
  | .boot | .irq _ | .lost => none

/-- The state is what the side says. -/
structure Side.Tells (B : GsBlocks τ) (σ : Side) (t : τ) (seg : Segments) (flag : BitVec 64) :
    Prop where
  gsBase : seg.gsBase = if σ.kernel then B.gs t else 0
  kernelGsBase : seg.kernelGsBase = if σ.kernel then 0 else B.gs t
  flag : flag = σ.flag
  ds : ∀ v, σ.ds = some v → seg.ds = v

/-- **A saved thread**: the interrupt stack of `t` holds the frame of the branch that the system
call flag will choose, at a position whose side the segment state agrees with. -/
structure SavedFrame (B : GsBlocks τ) (t : τ) (flag : BitVec 64) (f : IrqFrame) : Prop where
  side : ∃ σ, f.pos.side = some σ ∧ σ.Tells B t f.taken flag
  interrupts : f.taken.interrupts = f.interrupts
  branch : f.branch = .user ∧ flag = 0 ∧ f.taken.gsBase = 0 ∧ f.taken.ds = 0x3B ∨
    f.branch = .syscall ∧ flag = 1 ∧ f.taken.gsBase ≠ 0 ∧ f.taken.ds = 0x30

/-- The current thread is where the position says, or in the handler of an interrupt. -/
def EntryState.Running (B : GsBlocks τ) (s : EntryState τ) (t : τ) : Prop :=
  (∃ σ, s.pos.side = some σ ∧ σ.Tells B t s.seg (s.syscallFlag (B.gs t))) ∨
    (∃ b, s.pos = .irq b) ∧ s.seg = ⟨B.gs t, 0, 0x30, false⟩ ∧
      ∃ f, s.irqStack (B.gs t) = some f ∧ SavedFrame B t (s.syscallFlag (B.gs t)) f

/-- **The invariant** of runs in which interrupts are taken in clear states only. -/
structure EntryState.Inv (B : GsBlocks τ) (s : EntryState τ) : Prop where
  isNew : ∀ t, s.isNew t = true → s.syscallFlag (B.gs t) = 0
  saved : ∀ t, s.isNew t = false → s.current ≠ some t →
    ∃ f, s.irqStack (B.gs t) = some f ∧ SavedFrame B t (s.syscallFlag (B.gs t)) f
  running : ∀ t, s.current = some t → s.isNew t = false ∧ s.Running B t
  boot : s.current = none → s.pos = .boot ∧ ∀ t, s.isNew t = true
  honest : s.Honest B

section

variable {B : GsBlocks τ} {s s' : EntryState τ} {t : τ} {σ : Side} {op : SegOp}

/-- The system call path starts in user code and ends at the handler. -/
theorem syscallPath_side : syscallPath.foldl Side.exec userSide = handlerSide := rfl

/-- The way back starts at the handler and ends in user code, with `ds` loaded. -/
theorem returnPath_side :
    returnPath.foldl Side.exec handlerSide = { userSide with ds := some 0x3B } := rfl

/-- An operation that stores the system call flag. -/
def SegOp.marks : SegOp → Bool
  | .mark _ => true
  | _ => false

/-- What holds of a side on a thread's own paths, before the operation that follows if there is one:
the flag is zero while `gs` is the user's, it is zero or one, and it is stored through the kernel's
`gs`. -/
def Side.Fine (σ : Side) (op : Option SegOp) : Prop :=
  (σ.kernel = false → σ.flag = 0) ∧ (σ.flag = 0 ∨ σ.flag = 1) ∧
    (op.any SegOp.marks = true → σ.kernel = true)

instance fine_decidable (σ : Side) (op : Option SegOp) : Decidable (σ.Fine op) :=
  inferInstanceAs (Decidable (_ ∧ _))

/-- All sides of a path are fine if the first ones are, and the last. -/
theorem fine_of_path {ops : List SegOp} (h : ∀ i < ops.length + 1,
    Side.Fine ((ops.take i).foldl Side.exec σ) ops[i]?) (i : ℕ) :
    Side.Fine ((ops.take i).foldl Side.exec σ) ops[i]? := by
  by_cases hi : i < ops.length + 1
  · exact h i hi
  · have hlast := h ops.length (Nat.lt_succ_self _)
    rw [List.take_length, List.getElem?_eq_none le_rfl] at hlast
    rw [List.take_of_length_le (by omega), List.getElem?_eq_none (by omega)]
    exact hlast

theorem syscallPath_fine (i : ℕ) :
    Side.Fine ((syscallPath.take i).foldl Side.exec userSide) syscallPath[i]? :=
  fine_of_path (by decide) i

theorem returnPath_fine (i : ℕ) :
    Side.Fine ((returnPath.take i).foldl Side.exec handlerSide) returnPath[i]? :=
  fine_of_path (by decide) i

/-- The side of a position is fine. -/
theorem Position.side_fine {p : Position} (h : p.side = some σ) : σ.Fine none := by
  have hnone {ops : Option SegOp} (hfine : σ.Fine ops) : σ.Fine none :=
    ⟨hfine.1, hfine.2.1, fun hany => absurd hany (by decide)⟩
  cases p with
  | syscall i =>
    obtain rfl := Option.some.inj h
    exact hnone (syscallPath_fine i)
  | «return» i =>
    obtain rfl := Option.some.inj h
    exact hnone (returnPath_fine i)
  | user | switch | undefinedSyscall | handler =>
    obtain rfl := Option.some.inj h
    decide
  | boot | irq | lost => cases h

omit [DecidableEq τ] in
/-- **One operation** of a thread's own path. -/
theorem EntryState.exec_tells (h : σ.Tells B t s.seg (s.syscallFlag (B.gs t)))
    (hop : op.marks = true → σ.kernel = true) (pos : Position) :
    (σ.exec op).Tells B t (s.exec op pos).seg ((s.exec op pos).syscallFlag (B.gs t)) ∧
      ∀ t' ≠ t, (s.exec op pos).syscallFlag (B.gs t') = s.syscallFlag (B.gs t') := by
  obtain ⟨hgs, hkgs, hflag, hds⟩ := h
  cases op with
  | other | access | sti => exact ⟨⟨hgs, hkgs, hflag, hds⟩, fun _ _ => rfl⟩
  | mark v =>
    have hbase : s.seg.gsBase = B.gs t := by rw [hgs, hop rfl, if_pos rfl]
    refine ⟨⟨hgs, hkgs, ?_, hds⟩, fun t' ht' => ?_⟩
    · simp only [EntryState.exec, Side.exec, hbase, Function.update_self]
    · simp only [EntryState.exec, hbase]
      exact Function.update_of_ne (B.injective.ne ht') _ _
  | swapgs =>
    obtain ⟨_ | _, flag, ds⟩ := σ
    · exact ⟨⟨hkgs, hgs, hflag, hds⟩, fun _ _ => rfl⟩
    · exact ⟨⟨hkgs, hgs, hflag, hds⟩, fun _ _ => rfl⟩
  | loadDs v => exact ⟨⟨hgs, hkgs, hflag, fun w hw => Option.some.inj hw⟩, fun _ _ => rfl⟩

omit [DecidableEq τ] in
/-- The current thread moves on along its own paths. -/
theorem EntryState.Inv.move (h : s.Inv B) (ht : s.current = some t)
    (hcurrent : s'.current = s.current) (hnew : s'.isNew = s.isNew)
    (hstack : s'.irqStack = s.irqStack) (hlog : s'.log = s.log)
    (hflag : ∀ t' ≠ t, s'.syscallFlag (B.gs t') = s.syscallFlag (B.gs t'))
    (hside : s'.pos.side = some σ) (htells : σ.Tells B t s'.seg (s'.syscallFlag (B.gs t))) :
    s'.Inv B where
  isNew t' ht' := by
    rw [hnew] at ht'
    have hne : t' ≠ t := by
      rintro rfl
      rw [(h.running t' ht).1] at ht'
      cases ht'
    rw [hflag t' hne]
    exact h.isNew t' ht'
  saved t' ht' hcur := by
    rw [hnew] at ht'
    rw [hcurrent] at hcur
    have hne : t' ≠ t := fun heq => hcur (heq ▸ ht)
    rw [hstack, hflag t' hne]
    exact h.saved t' ht' hcur
  running t' ht' := by
    rw [hcurrent, ht, Option.some.injEq] at ht'
    subst ht'
    rw [hnew]
    exact ⟨(h.running t ht).1, .inl ⟨σ, hside, htells⟩⟩
  boot hnone := by
    rw [hcurrent, ht] at hnone
    cases hnone
  honest := by
    rw [EntryState.Honest, hlog]
    exact h.honest

/-- The sides of a path, one operation on. -/
theorem foldl_take_succ {ops : List SegOp} {i : ℕ} (hop : ops[i]? = some op) (σ : Side) :
    (ops.take (i + 1)).foldl Side.exec σ = ((ops.take i).foldl Side.exec σ).exec op := by
  rw [List.take_add_one, hop, List.foldl_append]
  rfl

/-- The sides of a path at its end. -/
theorem foldl_take_end {ops : List SegOp} {i : ℕ} (hend : ops[i]? = none) (σ : Side) :
    (ops.take i).foldl Side.exec σ = ops.foldl Side.exec σ := by
  rw [List.take_of_length_le (List.getElem?_eq_none_iff.1 hend)]

omit [DecidableEq τ] in
/-- The operations of `threadContextSwitch` leave the side as it is. -/
theorem threadContextSwitch_side : ∀ op ∈ threadContextSwitchOps,
    userSide.exec op = userSide ∧ op.marks = false := by
  decide

omit [DecidableEq τ] in
/-- The current thread does an operation of a path. -/
theorem EntryState.Inv.exec (h : s.Inv B) (ht : s.current = some t)
    (htells : σ.Tells B t s.seg (s.syscallFlag (B.gs t))) (hop : op.marks = true → σ.kernel = true)
    {pos : Position} (hpos : pos.side = some (σ.exec op)) : (s.exec op pos).Inv B := by
  obtain ⟨htells', hother⟩ := EntryState.exec_tells htells hop pos
  exact h.move ht rfl rfl rfl rfl hother hpos htells'

omit [DecidableEq τ] in
/-- The current thread gets to user code. -/
theorem EntryState.Inv.sysret (h : s.Inv B) (ht : s.current = some t)
    (htells : userSide.Tells B t s.seg (s.syscallFlag (B.gs t))) : s.sysret.Inv B :=
  have htells' : userSide.Tells B t s.sysret.seg (s.sysret.syscallFlag (B.gs t)) :=
    ⟨htells.gsBase, htells.kernelGsBase, htells.flag, htells.ds⟩
  h.move ht rfl rfl rfl rfl (fun _ _ => rfl) rfl htells'

omit [DecidableEq τ] in
/-- A current thread is somewhere on its paths, or in the handler of an interrupt. -/
theorem EntryState.Inv.cases (h : s.Inv B) (hboot : s.pos ≠ .boot) :
    ∃ t, s.current = some t ∧ s.isNew t = false ∧ s.Running B t := by
  obtain ⟨t, ht⟩ : ∃ t, s.current = some t :=
    Option.ne_none_iff_exists'.1 fun hnone => hboot (h.boot hnone).1
  exact ⟨t, ht, h.running t ht⟩

omit [DecidableEq τ] in
/-- On the paths of a thread, the state is what the side says. -/
theorem EntryState.Inv.tells (h : s.Inv B) (hside : s.pos.side = some σ) :
    ∃ t, s.current = some t ∧ σ.Tells B t s.seg (s.syscallFlag (B.gs t)) := by
  have hboot : s.pos ≠ .boot := by
    intro hboot
    rw [hboot] at hside
    cases hside
  obtain ⟨t, ht, -, ⟨σ', hσ, htells⟩ | ⟨⟨b, hb⟩, -⟩⟩ := h.cases hboot
  · obtain rfl := Option.some.inj (hσ.symm.trans hside)
    exact ⟨t, ht, htells⟩
  · rw [hb] at hside
    cases hside

omit [DecidableEq τ] in
/-- In the handler of an interrupt, `gs` is the kernel's and the frame is on the interrupt stack. -/
theorem EntryState.Inv.frame (h : s.Inv B) {b : Branch} (hpos : s.pos = .irq b) :
    ∃ t, s.current = some t ∧ s.isNew t = false ∧ s.seg = ⟨B.gs t, 0, 0x30, false⟩ ∧
      ∃ f, s.irqStack (B.gs t) = some f ∧ SavedFrame B t (s.syscallFlag (B.gs t)) f := by
  have hboot : s.pos ≠ .boot := fun hboot => nomatch hpos.symm.trans hboot
  obtain ⟨t, ht, hnew, ⟨σ, hσ, -⟩ | ⟨-, hseg, hframe⟩⟩ := h.cases hboot
  · rw [hpos] at hσ
    cases hσ
  · exact ⟨t, ht, hnew, hseg, hframe⟩

omit [DecidableEq τ] in
/-- **The next instruction** of a path of the kernel. -/
theorem EntryState.Inv.next (h : s.Inv B) (hstep : s.next = some s') : s'.Inv B := by
  unfold EntryState.next at hstep
  split at hstep
  case h_1 i hi =>
    obtain ⟨t, ht, htells⟩ := h.tells (congrArg Position.side hi)
    split at hstep
    case h_1 op hop =>
      obtain rfl := Option.some.inj hstep
      have hfine := (syscallPath_fine i).2.2
      rw [hop] at hfine
      exact h.exec ht htells hfine (congrArg some (foldl_take_succ hop _))
    case h_2 hend =>
      obtain rfl := Option.some.inj hstep
      rw [foldl_take_end hend, syscallPath_side] at htells
      exact h.move ht rfl rfl rfl rfl (fun _ _ => rfl) rfl htells
  case h_2 i hi =>
    obtain ⟨t, ht, htells⟩ := h.tells (congrArg Position.side hi)
    split at hstep
    case h_1 op hop =>
      obtain rfl := Option.some.inj hstep
      have hfine := (returnPath_fine i).2.2
      rw [hop] at hfine
      exact h.exec ht htells hfine (congrArg some (foldl_take_succ hop _))
    case h_2 hend =>
      obtain rfl := Option.some.inj hstep
      rw [foldl_take_end hend, returnPath_side] at htells
      exact h.sysret ht ⟨htells.gsBase, htells.kernelGsBase, htells.flag, fun v hv => nomatch hv⟩
  case h_3 i hi =>
    obtain ⟨t, ht, htells⟩ := h.tells (congrArg Position.side hi)
    split at hstep
    case h_1 op hop =>
      obtain rfl := Option.some.inj hstep
      obtain ⟨hside, hmarks⟩ := threadContextSwitch_side op (List.mem_of_getElem? hop)
      refine h.exec ht htells (fun hm => ?_) (congrArg some hside.symm)
      rw [hmarks] at hm
      cases hm
    case h_2 =>
      obtain rfl := Option.some.inj hstep
      exact h.sysret ht htells
  case h_4 => cases hstep

/-- A thread that has not run yet is selected, when the current one is saved. -/
theorem EntryState.Inv.select (h : s.Inv B) (hnew : s.isNew t = true)
    (hsaved : ∀ t', s.current = some t' →
      ∃ f, s.irqStack (B.gs t') = some f ∧ SavedFrame B t' (s.syscallFlag (B.gs t')) f) :
    (s.threadSelect B t).Inv B where
  isNew t' ht' := by
    refine h.isNew t' ?_
    by_cases heq : t' = t
    · rw [heq]
      exact hnew
    · simp only [EntryState.threadSelect] at ht'
      rwa [Function.update_of_ne heq] at ht'
  saved t' ht' hcur := by
    have hne : t' ≠ t := fun heq => hcur (congrArg some heq.symm)
    simp only [EntryState.threadSelect] at ht'
    rw [Function.update_of_ne hne] at ht'
    by_cases hcur' : s.current = some t'
    · exact hsaved t' hcur'
    · exact h.saved t' ht' hcur'
  running t' ht' := by
    obtain rfl := Option.some.inj ht'
    exact ⟨Function.update_self _ _ _,
      .inl ⟨userSide, rfl, rfl, rfl, h.isNew t hnew, fun v hv => nomatch hv⟩⟩
  boot hnone := nomatch hnone
  honest := h.honest

/-! ### Interrupts -/

omit [DecidableEq τ] in
/-- **Interrupt entry in a clear state** takes the branch that leaves `gs` with the kernel's base.
-/
theorem EntryState.Clear.branch (hclear : s.Clear) (hside : s.pos.side = some σ)
    (htells : σ.Tells B t s.seg (s.syscallFlag (B.gs t))) :
    firstAccess (irqBranch s.seg.ds).entryOps { s.seg with interrupts := false } = some (B.gs t) ∧
      (irqBranch s.seg.ds).entryOps.foldl SegOp.exec { s.seg with interrupts := false } =
        ⟨B.gs t, 0, 0x30, false⟩ ∧
      SavedFrame B t (s.syscallFlag (B.gs t))
        ⟨irqBranch s.seg.ds, s.pos, s.seg.interrupts, s.seg⟩ := by
  have hfine := Position.side_fine hside
  obtain ⟨hgs, hds⟩ | ⟨hgs, hflag, hds⟩ := hclear
  · -- user code's side, which the flag agrees with
    have hkernel : σ.kernel = false := by
      by_contra hk
      rw [htells.gsBase, if_pos (by simpa using hk)] at hgs
      exact B.ne_zero t hgs
    have hkgs : s.seg.kernelGsBase = B.gs t := by
      rw [htells.kernelGsBase, hkernel]
      rfl
    rw [hds, show irqBranch 0x3B = .user from rfl]
    refine ⟨congrArg some hkgs, ?_, ⟨⟨σ, hside, htells⟩, rfl, .inl ⟨rfl, ?_, hgs, hds⟩⟩⟩
    · rw [← hkgs, ← hgs]
      rfl
    · rw [htells.flag, hfine.1 hkernel]
  · have hkernel : σ.kernel = true := by
      by_contra hk
      rw [htells.gsBase, if_neg hk] at hgs
      exact hgs rfl
    have hbase : s.seg.gsBase = B.gs t := by rw [htells.gsBase, if_pos hkernel]
    have hkgs : s.seg.kernelGsBase = 0 := by rw [htells.kernelGsBase, if_pos hkernel]
    rw [hbase] at hflag
    rw [hds, show irqBranch 0x30 = .syscall from rfl]
    refine ⟨congrArg some hbase, ?_, ⟨⟨σ, hside, htells⟩, rfl, .inr ⟨rfl, hflag, hgs, hds⟩⟩⟩
    rw [← hbase, ← hkgs, ← hds]
    rfl

omit [DecidableEq τ] in
/-- **An interrupt** in a clear state. -/
theorem EntryState.Inv.interrupt (h : s.Inv B) (ht : s.current = some t)
    (hside : s.pos.side = some σ) (htells : σ.Tells B t s.seg (s.syscallFlag (B.gs t)))
    (hclear : s.Clear) : (s.interrupt t).Inv B := by
  obtain ⟨haccess, hseg, hframe⟩ := hclear.branch hside htells
  exact
    { isNew := h.isNew
      saved := by
        intro t' ht' hcur
        have hne : t' ≠ t := fun heq => hcur (heq ▸ ht)
        simp only [EntryState.interrupt, hseg]
        rw [Function.update_of_ne (B.injective.ne hne)]
        exact h.saved t' ht' hcur
      running := by
        intro t' ht'
        obtain rfl := Option.some.inj (ht.symm.trans ht')
        refine ⟨(h.running t ht).1, .inr ⟨⟨_, rfl⟩, hseg, _, ?_, hframe⟩⟩
        simp only [EntryState.interrupt, hseg]
        exact Function.update_self _ _ _
      boot := fun hnone => nomatch ht.symm.trans hnone
      honest := by
        intro e he
        simp only [EntryState.interrupt, List.mem_append, List.mem_singleton] at he
        obtain he | rfl := he
        · exact h.honest e he
        · exact haccess }

omit [DecidableEq τ] in
/-- **The exit path** of the branch that saved a thread restores its segment state. -/
theorem SavedFrame.resume {f : IrqFrame} {flag : BitVec 64} (h : SavedFrame B t flag f)
    (b : Branch) : f.branch = b.exit flag ∧
      iretq f.pos f.interrupts
        ((irqBackOps ++ (b.exit flag).exitOps).foldl SegOp.exec ⟨B.gs t, 0, 0x30, false⟩) =
      f.taken := by
  obtain ⟨σ, hside, htells⟩ := h.side
  have htaken : f.taken = ⟨f.taken.gsBase, f.taken.kernelGsBase, f.taken.ds, f.interrupts⟩ := by
    rw [← h.interrupts]
  obtain ⟨hbranch, rfl, hgs, hds⟩ | ⟨hbranch, rfl, hgs, hds⟩ := h.branch
  · have hkernel : σ.kernel = false := by
      by_contra hk
      rw [htells.gsBase, if_pos (by simpa using hk)] at hgs
      exact B.ne_zero t hgs
    have hexit : b.exit 0 = .user := by cases b <;> rfl
    have hds' : ¬(0x3B : BitVec 16) = 0x30 := by decide
    have hfold : (irqBackOps ++ Branch.user.exitOps).foldl SegOp.exec ⟨B.gs t, 0, 0x30, false⟩ =
        ⟨0, B.gs t, 0x3B, false⟩ := rfl
    rw [htaken, hgs, hds, htells.kernelGsBase, hkernel, hexit, hfold, iretq,
      if_neg (fun hpos => hds' hpos.2)]
    exact ⟨hbranch, rfl⟩
  · have hkernel : σ.kernel = true := by
      by_contra hk
      rw [htells.gsBase, if_neg hk] at hgs
      exact hgs rfl
    have hexit : b.exit 1 = .syscall := by cases b <;> rfl
    have huser : f.pos ≠ .user := by
      intro hpos
      rw [hpos] at hside
      obtain rfl := Option.some.inj hside
      cases hkernel
    have hfold : (irqBackOps ++ Branch.syscall.exitOps).foldl SegOp.exec ⟨B.gs t, 0, 0x30, false⟩ =
        ⟨B.gs t, 0, 0x30, false⟩ := rfl
    rw [htaken, hds, htells.gsBase, htells.kernelGsBase, hkernel, hexit, hfold, iretq,
      if_neg (fun hpos => huser hpos.1)]
    exact ⟨hbranch, rfl⟩

omit [DecidableEq τ] in
/-- The exit path adds one event. -/
theorem EntryState.irqReturn_log (s : EntryState τ) (b : Branch) :
    ∃ e, (s.irqReturn b).log = s.log ++ [e] := by
  unfold EntryState.irqReturn
  dsimp only
  split
  · split_ifs
    · exact ⟨_, rfl⟩
    · exact ⟨_, rfl⟩
  · exact ⟨_, rfl⟩

omit [DecidableEq τ] in
/-- The access of interrupt entry stays in the record. -/
theorem EntryState.access_honest {b : Branch}
    (h : ((s.interrupt t).irqReturn b).Honest B) :
    firstAccess (irqBranch s.seg.ds).entryOps { s.seg with interrupts := false } =
      some (B.gs t) := by
  obtain ⟨e, he⟩ := (s.interrupt t).irqReturn_log b
  refine h (.access t _) ?_
  rw [he]
  simp [EntryState.interrupt]

omit [DecidableEq τ] in
/-- **An interrupt elsewhere** is on the wrong base, or its exit path does not restore what it
found. -/
theorem EntryState.clear_of_honest (hside : s.pos.side = some σ)
    (htells : σ.Tells B t s.seg (s.syscallFlag (B.gs t)))
    (h : ((s.interrupt t).irqReturn (irqBranch s.seg.ds)).Honest B) : s.Clear := by
  have haccess := EntryState.access_honest h
  have hfine := Position.side_fine hside
  by_cases hds : s.seg.ds = 0x30
  · -- the first access is through the base that the interrupt found
    rw [hds, show irqBranch 0x30 = .syscall from rfl] at haccess
    have hbase : s.seg.gsBase = B.gs t := Option.some.inj haccess
    have hkernel : σ.kernel = true := by
      by_contra hk
      rw [htells.gsBase, if_neg hk] at hbase
      exact B.ne_zero t hbase.symm
    have hflag : s.syscallFlag (B.gs t) = 1 := by
      refine htells.flag.trans (hfine.2.1.resolve_left fun h0 => ?_)
      have hflag : s.syscallFlag (B.gs t) = 0 := htells.flag.trans h0
      have hkgs : s.seg.kernelGsBase = 0 := by rw [htells.kernelGsBase, if_pos hkernel]
      have hfold : Branch.syscall.entryOps.foldl SegOp.exec { s.seg with interrupts := false } =
          ⟨B.gs t, 0, 0x30, false⟩ := by
        rw [← hbase, ← hkgs, ← hds]
        rfl
      have hlog : ((s.interrupt t).irqReturn .syscall).log = (s.interrupt t).log ++ [.lost] := by
        have hsyscall : irqBranch s.seg.ds = .syscall := if_pos hds
        simp only [EntryState.irqReturn, EntryState.interrupt, hsyscall, hfold,
          Function.update_self, hflag]
        rfl
      rw [hds, show irqBranch 0x30 = .syscall from rfl] at h
      exact h .lost (by rw [hlog]; simp)
    exact .inr ⟨by rw [hbase]; exact B.ne_zero t, by rw [hbase]; exact hflag, hds⟩
  · have huser : irqBranch s.seg.ds = .user := if_neg hds
    rw [huser] at haccess h
    have hkgs : s.seg.kernelGsBase = B.gs t := Option.some.inj haccess
    have hkernel : σ.kernel = false := by
      by_contra hk
      rw [htells.kernelGsBase, if_pos (by simpa using hk)] at hkgs
      exact B.ne_zero t hkgs.symm
    have hbase : s.seg.gsBase = 0 := by rw [htells.gsBase, hkernel]; rfl
    have hflag : s.syscallFlag (B.gs t) = 0 := htells.flag.trans (hfine.1 hkernel)
    have hfold : Branch.user.entryOps.foldl SegOp.exec { s.seg with interrupts := false } =
        ⟨B.gs t, 0, 0x30, false⟩ := by
      rw [← hkgs, ← hbase]
      rfl
    have hlog : ((s.interrupt t).irqReturn .user).log = (s.interrupt t).log ++
        [.resumed s.seg (iretq s.pos s.seg.interrupts ⟨0, B.gs t, 0x3B, false⟩)] := by
      simp only [EntryState.irqReturn, EntryState.interrupt, huser, hfold, Function.update_self,
        hflag]
      rfl
    have hsame : iretq s.pos s.seg.interrupts ⟨0, B.gs t, 0x3B, false⟩ = s.seg :=
      h (.resumed s.seg _) (by rw [hlog]; simp)
    refine .inl ⟨hbase, ?_⟩
    have hds' : ¬(0x3B : BitVec 16) = 0x30 := by decide
    rw [← hsame, iretq, if_neg (fun hpos => hds' hpos.2)]

omit [DecidableEq τ] in
/-- **A thread goes on** after an interrupt. -/
theorem EntryState.Inv.irqReturn (h : s.Inv B) {b : Branch} (hpos : s.pos = .irq b) :
    (s.irqReturn b).Inv B := by
  obtain ⟨t, ht, hnew, hseg, f, hf, hframe⟩ := h.frame hpos
  obtain ⟨hbranch, hresume⟩ := hframe.resume b
  have hreturn : s.irqReturn b = { s with
      seg := f.taken, pos := f.pos, log := s.log ++ [.resumed f.taken f.taken] } := by
    simp only [EntryState.irqReturn, hseg, hf, if_pos hbranch, hresume]
  obtain ⟨σ, hside, htells⟩ := hframe.side
  rw [hreturn]
  exact
    { isNew := h.isNew
      saved := h.saved
      running := by
        intro t' ht'
        obtain rfl := Option.some.inj (ht.symm.trans ht')
        exact ⟨hnew, .inl ⟨σ, hside, htells⟩⟩
      boot := fun hnone => nomatch ht.symm.trans hnone
      honest := by
        intro e he
        rw [List.mem_append, List.mem_singleton] at he
        obtain he | rfl := he
        · exact h.honest e he
        · rfl }

omit [DecidableEq τ] in
/-- `threadNext` makes another thread current that has run before. -/
theorem EntryState.Inv.switchTo (h : s.Inv B) {b : Branch} (hpos : s.pos = .irq b) {t' : τ}
    (hnew' : s.isNew t' = false) : EntryState.Inv B { s with
      current := some t'
      seg := { s.seg with gsBase := B.gs t', kernelGsBase := 0 } } := by
  obtain ⟨t, ht, -, hseg, hframe⟩ := h.frame hpos
  have hsaved (u : τ) (hu : s.isNew u = false) :
      ∃ f, s.irqStack (B.gs u) = some f ∧ SavedFrame B u (s.syscallFlag (B.gs u)) f := by
    by_cases hcur : s.current = some u
    · obtain rfl := Option.some.inj (ht.symm.trans hcur)
      exact hframe
    · exact h.saved u hu hcur
  exact
    { isNew := h.isNew
      saved := fun u hu _ => hsaved u hu
      running := by
        intro u hu
        obtain rfl := Option.some.inj hu
        refine ⟨hnew', .inr ⟨⟨b, hpos⟩, ?_, hsaved t' hnew'⟩⟩
        rw [hseg]
      boot := fun hnone => nomatch hnone
      honest := h.honest }

/-! ### Runs -/

/-- **One step**, with interrupts in clear states only. -/
theorem EntryState.Inv.step {a : EntryAction τ} (h : s.Inv B) (hstep : ClearStep B a s s') :
    s'.Inv B := by
  obtain ⟨hs', hclear⟩ := hstep
  cases a with
  | select t =>
    simp only [EntryState.step, Option.ite_none_right_eq_some, Option.some.injEq] at hs'
    obtain ⟨hpos, rfl⟩ := hs'
    have hnone : s.current = none := by
      by_contra hsome
      obtain ⟨t', ht'⟩ := Option.ne_none_iff_exists'.1 hsome
      obtain ⟨-, ⟨σ, hσ, -⟩ | ⟨⟨b, hb⟩, -⟩⟩ := h.running t' ht'
      · exact nomatch (hpos ▸ hσ)
      · exact nomatch hpos.symm.trans hb
    exact h.select ((h.boot hnone).2 t) fun t' ht' => nomatch hnone.symm.trans ht'
  | next => exact h.next hs'
  | loadDs v =>
    simp only [EntryState.step, Option.ite_none_right_eq_some, Option.some.injEq] at hs'
    obtain ⟨⟨hpos, -⟩, rfl⟩ := hs'
    have hside : s.pos.side = some userSide := congrArg Position.side hpos
    obtain ⟨t, ht, htells⟩ := h.tells hside
    exact h.move ht rfl rfl rfl rfl (fun _ _ => rfl) hside
      ⟨htells.gsBase, htells.kernelGsBase, htells.flag, fun v hv => nomatch hv⟩
  | syscall =>
    simp only [EntryState.step, Option.ite_none_right_eq_some, Option.some.injEq] at hs'
    obtain ⟨hpos, rfl⟩ := hs'
    obtain ⟨t, ht, htells⟩ := h.tells (congrArg Position.side hpos)
    exact h.move ht rfl rfl rfl rfl (fun _ _ => rfl) (σ := userSide) rfl htells
  | undefinedSyscall =>
    simp only [EntryState.step, Option.ite_none_right_eq_some, Option.some.injEq] at hs'
    obtain ⟨hpos, rfl⟩ := hs'
    obtain ⟨t, ht, htells⟩ := h.tells (congrArg Position.side hpos)
    exact h.move ht rfl rfl rfl rfl (fun _ _ => rfl) rfl htells
  | handlerReturns =>
    simp only [EntryState.step, Option.ite_none_right_eq_some, Option.some.injEq] at hs'
    obtain ⟨hpos, rfl⟩ := hs'
    obtain ⟨t, ht, htells⟩ := h.tells (congrArg Position.side hpos)
    exact h.move ht rfl rfl rfl rfl (fun _ _ => rfl) (σ := handlerSide) rfl htells
  | interrupt =>
    simp only [EntryState.step, Option.bind_eq_bind, Option.bind_eq_some_iff,
      Option.ite_none_right_eq_some, Option.some.injEq] at hs'
    obtain ⟨t, ht, ⟨hif, -⟩, rfl⟩ := hs'
    obtain ⟨-, ⟨σ, hσ, htells⟩ | ⟨-, hseg, -⟩⟩ := h.running t ht
    · exact h.interrupt ht hσ htells (hclear rfl)
    · rw [hseg] at hif
      cases hif
  | irqReturns =>
    simp only [EntryState.step] at hs'
    split at hs'
    case h_1 b hpos =>
      obtain rfl := Option.some.inj hs'
      exact h.irqReturn hpos
    case h_2 => cases hs'
  | threadNext t =>
    simp only [EntryState.step] at hs'
    split at hs'
    case h_1 b hpos =>
      split_ifs at hs' with hbases hnew
      · obtain rfl := Option.some.inj hs'
        obtain ⟨u, hu, -, -, hframe⟩ := h.frame hpos
        refine h.select hnew fun t' ht' => ?_
        rwa [← Option.some.inj (hu.symm.trans ht')]
      · obtain rfl := Option.some.inj hs'
        exact (h.switchTo hpos (by simpa using hnew)).irqReturn hpos
    case h_2 => cases hs'

omit [DecidableEq τ] in
/-- The state before any thread. -/
theorem EntryState.Booted.inv (h : s.Booted B) : s.Inv B where
  isNew t _ := h.syscallFlag t
  saved t ht := by
    rw [h.isNew t] at ht
    cases ht
  running t ht := nomatch h.current.symm.trans ht
  boot _ := ⟨h.pos, h.isNew⟩
  honest := by
    intro e he
    rw [h.log] at he
    cases he

/-- **The invariant of a run** in which interrupts are taken in clear states only. -/
theorem EntryState.inv_of_run {as : List (EntryAction τ)} (hs : s.Booted B)
    (h : Run (ClearStep B) s as s') : s'.Inv B :=
  h.invariant (P := EntryState.Inv B) (O := fun _ => True)
    (fun _ _ _ _ hinv hstep => hinv.step hstep) (fun _ _ => trivial) hs.inv

/-- **Interrupt entry runs on the right base, and its exit path restores it**, in every run in which
interrupts are taken in clear states only. After such a run this is so of one more interrupt, which
returns at once, exactly when its state is clear. -/
theorem interrupts_honest_of_run {as : List (EntryAction τ)} (hs : s.Booted B)
    (h : Run (ClearStep B) s as s') : s'.Honest B ∧ ∀ s₁ s₂, s'.step B .interrupt = some s₁ →
      s₁.step B .irqReturns = some s₂ → (s₂.Honest B ↔ s'.Clear) := by
  have hinv := EntryState.inv_of_run hs h
  refine ⟨hinv.honest, fun s₁ s₂ hs₁ hs₂ => ⟨fun hhonest => ?_, fun hclear => ?_⟩⟩
  · simp only [EntryState.step, Option.bind_eq_bind, Option.bind_eq_some_iff,
      Option.ite_none_right_eq_some, Option.some.injEq] at hs₁
    obtain ⟨t, ht, ⟨hif, -⟩, rfl⟩ := hs₁
    obtain rfl := Option.some.inj hs₂
    obtain ⟨-, ⟨σ, hσ, htells⟩ | ⟨-, hseg, -⟩⟩ := hinv.running t ht
    · exact EntryState.clear_of_honest hσ htells hhonest
    · rw [hseg] at hif
      cases hif
  · exact ((hinv.step ⟨hs₁, fun _ => hclear⟩).step ⟨hs₂, fun heq => nomatch heq⟩).honest

/-- **Where states are clear** in such runs: in the handlers, and on their paths where the system
call flag is set and `ds` is the kernel's, or where `gs` is the user's and `ds` was loaded for user
code. -/
theorem clear_of_run {as : List (EntryAction τ)} (hs : s.Booted B)
    (h : Run (ClearStep B) s as s')
    (hside : s'.pos.side = some handlerSide ∨
      s'.pos.side = some { userSide with ds := some 0x3B }) :
    s'.Clear := by
  have hinv := EntryState.inv_of_run hs h
  obtain hside | hside := hside
  · obtain ⟨t, -, htells⟩ := hinv.tells hside
    have hbase : s'.seg.gsBase = B.gs t := htells.gsBase
    refine .inr ⟨?_, ?_, htells.ds _ rfl⟩
    · rw [hbase]
      exact B.ne_zero t
    · rw [hbase]
      exact htells.flag
  · obtain ⟨t, -, htells⟩ := hinv.tells hside
    exact .inl ⟨htells.gsBase, htells.ds _ rfl⟩

end

/-! ### A run -/

/-- One thread, with its block at `0x1000`. -/
def oneGsBlock : GsBlocks Unit where
  gs _ := 0x1000
  injective _ _ _ := rfl
  ne_zero _ := by decide

/-- The state before the first thread. -/
def bootedState : EntryState Unit where
  seg := ⟨0, 0, 0x30, true⟩
  pos := .boot
  current := none
  isNew _ := true
  syscallFlag _ := 0
  irqStack _ := none
  log := []

theorem bootedState_booted : bootedState.Booted oneGsBlock :=
  ⟨rfl, rfl, rfl, rfl, fun _ => rfl, fun _ => rfl, rfl⟩

/-- The steps up to the first instruction of user code. -/
def enterUser : List (EntryAction Unit) :=
  .select () :: List.replicate (threadContextSwitchOps.length + 1) .next

/-- The state at the first instruction of user code. -/
def userEntered : EntryState Unit where
  seg := ⟨0, 0x1000, 0x30, true⟩
  pos := .user
  current := some ()
  isNew := Function.update (fun _ => true) () false
  syscallFlag _ := 0
  irqStack _ := none
  log := []

/-- The first thread gets to user code, with the kernel's `ds`. -/
theorem enterUser_run : Run (ClearStep oneGsBlock) bootedState enterUser userEntered := by
  refine Run.of_foldlM (f := fun s a => if a = .interrupt then none else s.step oneGsBlock a)
    (fun a s s' h => ?_) rfl
  rw [Option.ite_none_left_eq_some] at h
  exact ⟨h.2, fun heq => absurd heq h.1⟩

/-- User code loads its selector into `ds`. -/
def userLoaded : EntryState Unit :=
  { userEntered with seg := { userEntered.seg with ds := 0x3B } }

/-- It does so, and is interrupted. -/
theorem interrupts_honest_of_run_user :
    ((userLoaded.interrupt ()).irqReturn .user).Honest oneGsBlock ∧ ∀ s₁ s₂,
      ((userLoaded.interrupt ()).irqReturn .user).step oneGsBlock .interrupt = some s₁ →
      s₁.step oneGsBlock .irqReturns = some s₂ →
      (s₂.Honest oneGsBlock ↔ ((userLoaded.interrupt ()).irqReturn .user).Clear) :=
  interrupts_honest_of_run bootedState_booted
    (((enterUser_run.append_one (.loadDs 0x3B) ⟨rfl, fun h => nomatch h⟩).append_one .interrupt
      ⟨rfl, fun _ => .inl ⟨rfl, rfl⟩⟩).append_one .irqReturns ⟨rfl, fun h => nomatch h⟩)

/-- **The first interrupt of user code is on the wrong base**: it finds the `ds` of the kernel, and
does not load the base of `gs`. -/
theorem first_interrupt_dishonest : ¬ ∀ (s s' : EntryState Unit) as, s.Booted oneGsBlock →
    Run (fun a s s' => s.step oneGsBlock a = some s') s as s' → s'.Honest oneGsBlock := by
  intro h
  have hrun : Run (fun a s s' => s.step oneGsBlock a = some s') bootedState
      (enterUser ++ [.interrupt]) (userEntered.interrupt ()) :=
    (enterUser_run.mono fun _ _ _ hstep => hstep.1).append_one .interrupt rfl
  have haccess : some (0 : BitVec 64) = some 0x1000 :=
    h _ _ _ bootedState_booted hrun (.access () (some 0)) (List.mem_singleton.2 rfl)
  exact absurd haccess (by decide)

end AnglOS
