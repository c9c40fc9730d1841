import AnglOS.Isolation
import AnglOS.ThreadCreate

/-!
# Runs of Several Processes

The kernel creates processes, switches between them, maps pages into their user halves and changes
their flags; the processes read and write their memory. All of this works on page tables and
frames in one physical memory. `MemoryStep` says what it is for: every process has a memory of its
own, from user addresses to bytes, and a call concerns the memory of one process. The calls are
those on user halves; the kernel stacks that `threadCreate` maps at last are not among them. The
translation buffer and `pagingFlushTLB` are not modelled: an access goes where the tables say.

* `ProcessStep` — a call on the page tables, from `threadCreate`'s loading of a file on.
* `MemoryStep` — the same call on separate memories.
* `Processes.held` — the frames that are free or held by a process.

## Main results

* `processes_refine_memories` — each run on page tables is a run on separate memories;
* `process_reads_last_write` — a process reads what it wrote last, whatever happened in between;
* `kernel_kept_by_processes` — no run changes kernel memory or the translation of kernel addresses,
  and no frame ever belongs to two processes.
-/

namespace AnglOS

/-! ### Separate memories -/

/-- The calls, each with the top-level table of the process that it concerns, and a read with the
byte that it returns, if the page is mapped. -/
inductive ProcessCall where
  | load (root : ℕ) (file : FileBytes) (type : AddrspaceType)
  | setCR3 (root : ℕ)
  | vmallocCR3 (vptr pages : ℕ) (flags : BitVec 64) (root : ℕ)
  | vflagsCR3 (vptr pages : ℕ) (flags : BitVec 64) (root : ℕ)
  | read (v : ℕ) (b : Option (BitVec 8)) (root : ℕ)
  | write (v : ℕ) (b : BitVec 8) (root : ℕ)

/-- The address lies on one of the pages. -/
def OnPages (v n w : ℕ) : Prop := ∃ i < n, pageNumber w = pageNumber (add64 v (i * pageSize))

/-- The memories of the processes, by their top-level tables. -/
abbrev Memories := ℕ → ℕ → Option (BitVec 8)

/-- The memory holds the segments of the file. -/
def HoldsSegments (file : FileBytes) (m : ℕ → Option (BitVec 8)) : Prop :=
  ∀ i < (elfHeader file).programHeaderNumEntries, ∀ k < (elfProgram file i).sizeMem,
    m ((elfProgram file i).vaddr + k) = some (file (add64 (elfProgram file i).offset k))

/-- What a call does on separate memories. A file whose segments are laid out well is in the memory
of the new process unless a segment of several pages is at address 0; the bytes of newly mapped
pages are not determined. -/
inductive MemoryStep : ProcessCall → Memories → Memories → Prop
  | load {M : Memories} {r : ℕ} {file : FileBytes} {type : AddrspaceType}
      (m : ℕ → Option (BitVec 8)) (hnew : M r = fun _ => none)
      (hfile : ElfLayout file → (∀ i < (elfHeader file).programHeaderNumEntries,
        (elfProgram file i).vaddr = 0 → (elfProgram file i).sizeMem ≤ pageSize) →
        HoldsSegments file m) :
      MemoryStep (.load r file type) M (Function.update M r m)
  | setCR3 {M : Memories} {r : ℕ} : MemoryStep (.setCR3 r) M M
  | vmallocCR3 {M : Memories} {v n r : ℕ} {flags : BitVec 64} (m : ℕ → Option (BitVec 8))
      (hothers : ∀ w, ¬OnPages v n w → m w = M r w)
      (hmapped : (∀ i < n, add64 v (i * pageSize) ≠ 0) → ∀ w < 2 ^ 47, OnPages v n w → m w ≠ none) :
      MemoryStep (.vmallocCR3 v n flags r) M (Function.update M r m)
  | vflagsCR3 {M : Memories} {v n r : ℕ} {flags : BitVec 64} :
      MemoryStep (.vflagsCR3 v n flags r) M M
  | read {M : Memories} {v r : ℕ} : MemoryStep (.read v (M r v) r) M M
  | write {M : Memories} {v r : ℕ} {b : BitVec 8} (hv : M r v ≠ none) :
      MemoryStep (.write v b r) M (Function.update M r (Function.update (M r) v (some b)))

/-- The call may change the byte at `v` in the memory of `r`. -/
def ProcessCall.Sets (r v : ℕ) : ProcessCall → Prop
  | .load r' _ _ => r' = r
  | .vmallocCR3 v' n _ r' => r' = r ∧ OnPages v' n v
  | .write v' _ r' => r' = r ∧ v' = v
  | .setCR3 _ | .vflagsCR3 .. | .read .. => False

/-- A byte stays unless the call may change it. -/
theorem MemoryStep.eq_of_not_sets {c : ProcessCall} {M M' : Memories} (h : MemoryStep c M M')
    {r v : ℕ} (hc : ¬c.Sets r v) : M' r v = M r v := by
  cases h with
  | load m hnew hfile => rw [Function.update_of_ne (Ne.symm hc)]
  | setCR3 | vflagsCR3 | read => rfl
  | @vmallocCR3 _ v' n r' _ m hothers hmapped =>
    by_cases hr : r' = r
    · subst hr
      rw [Function.update_self, hothers v fun hon => hc ⟨rfl, hon⟩]
    · rw [Function.update_of_ne (Ne.symm hr)]
  | @write _ v' r' b hv =>
    by_cases hr : r' = r
    · subst hr
      rw [Function.update_self, Function.update_of_ne fun heq => hc ⟨rfl, heq.symm⟩]
    · rw [Function.update_of_ne (Ne.symm hr)]

/-- A read returns the byte. -/
theorem MemoryStep.read_eq {v r : ℕ} {b : Option (BitVec 8)} {M M' : Memories}
    (h : MemoryStep (.read v b r) M M') : b = M r v := by
  cases h
  rfl

/-- A write assigns the byte. -/
theorem MemoryStep.write_eq {v r : ℕ} {b : BitVec 8} {M M' : Memories}
    (h : MemoryStep (.write v b r) M M') : M' r v = some b := by
  cases h
  rw [Function.update_self, Function.update_self]

/-- Mapped pages have bytes. -/
theorem MemoryStep.vmallocCR3_ne_none {v n r w : ℕ} {flags : BitVec 64} {M M' : Memories}
    (h : MemoryStep (.vmallocCR3 v n flags r) M M') (hne : ∀ i < n, add64 v (i * pageSize) ≠ 0)
    (hw : w < 2 ^ 47) (hon : OnPages v n w) : M' r w ≠ none := by
  cases h with
  | vmallocCR3 m hothers hmapped =>
    rw [Function.update_self]
    exact hmapped hne w hw hon

/-- A new process had no memory. -/
theorem MemoryStep.load_none {r : ℕ} {file : FileBytes} {type : AddrspaceType} {M M' : Memories}
    (h : MemoryStep (.load r file type) M M') (v : ℕ) : M r v = none := by
  cases h with
  | load m hnew hfile => rw [hnew]

/-- A new process has its file in memory. -/
theorem MemoryStep.holdsSegments {r : ℕ} {file : FileBytes} {type : AddrspaceType}
    {M M' : Memories} (h : MemoryStep (.load r file type) M M') (hlayout : ElfLayout file)
    (hsize : ∀ i < (elfHeader file).programHeaderNumEntries,
      (elfProgram file i).vaddr = 0 → (elfProgram file i).sizeMem ≤ pageSize) :
    HoldsSegments file (M' r) := by
  cases h with
  | load m hnew hfile =>
    rw [Function.update_self]
    exact hfile hlayout hsize

/-- A byte stays in a run of calls that do not change it. -/
theorem memories_eq_of_not_sets {cs : List ProcessCall} {M M' : Memories}
    (h : Run MemoryStep M cs M') {r v : ℕ} (hcs : ∀ c ∈ cs, ¬c.Sets r v) : M' r v = M r v :=
  h.invariant (O := fun c => ¬c.Sets r v) (P := fun M' => M' r v = M r v)
    (fun _ _ _ hc hM hstep => (hstep.eq_of_not_sets hc).trans hM) hcs rfl

/-! ### Processes -/

/-- The paging layer and the top-level tables of the processes. -/
structure Processes where
  paging : Paging
  roots : List ℕ

/-- The call is made as the kernel and the processor make it: files are loaded into a new address
space, mapping and flags concern user pages of a process, with the flags of present pages that are
writable at first, and a process accesses user addresses under its own table. A read returns what
is there, and a write that faults is none. -/
def ProcessCall.Allowed (S : Processes) : ProcessCall → Prop
  | .load r file _ => r = (pagingCreateUser S.paging).1 ∧ UserFile file
  | .setCR3 r => r ∈ S.paging.bspCr3 :: S.roots
  | .vmallocCR3 v n flags r => r ∈ S.roots ∧
      (∀ i < n, (pageP4E (add64 v (i * pageSize))).val < 256) ∧ FlagBits flags ∧
      flags &&& 0x83 = 3
  | .vflagsCR3 v n flags r => r ∈ S.roots ∧
      (∀ i < n, (pageP4E (add64 v (i * pageSize))).val < 256) ∧
      (∀ i < n, S.paging.userByte r (add64 v (i * pageSize)) ≠ none) ∧ FlagBits flags ∧
      flags &&& 1 = 1
  | .read v b r => r ∈ S.roots ∧ S.paging.cr3 = r ∧ v < 2 ^ 47 ∧ b = S.paging.byteAt v
  | .write v _ r => r ∈ S.roots ∧ S.paging.cr3 = r ∧ v < 2 ^ 47 ∧ S.paging.writeAddress v ≠ none

/-- The paging layer after `threadCreate` made an address space and loaded a file into it. -/
def loadProcess (s : Paging) (file : FileBytes) (type : AddrspaceType) : Paging :=
  pagingSetCR3 (elfLoad (addressSpaceNew (pagingCreateUser s).1) (some file) type
    (elfStart s)).2.paging s.cr3

/-- What a call does. -/
def ProcessCall.exec (S : Processes) : ProcessCall → Processes
  | .load _ file type => ⟨loadProcess S.paging file type, (pagingCreateUser S.paging).1 :: S.roots⟩
  | .setCR3 r => { S with paging := pagingSetCR3 S.paging r }
  | .vmallocCR3 v n flags r => { S with paging := (AnglOS.vmallocCR3 S.paging v n flags r).2 }
  | .vflagsCR3 v n flags r => { S with paging := AnglOS.vflagsCR3 S.paging v n flags r }
  | .read .. => S
  | .write v b _ =>
      match S.paging.writeAddress v with
      | some a => { S with paging := S.paging.setByte a b }
      | none => S

/-- A step of the run: a call whose frames are there and blank. -/
structure ProcessStep (c : ProcessCall) (S S' : Processes) : Prop where
  allowed : c.Allowed S
  next : S' = c.exec S
  frames : ∀ e ∈ S'.paging.log, e.Good

/-- The memory that each process sees. -/
def Processes.memories (S : Processes) : Memories := fun r v =>
  if r ∈ S.roots ∧ v < 2 ^ 47 then S.paging.userByte r v else none

/-- The frames that are free or held by a process. -/
def Processes.held (S : Processes) : Set ℕ :=
  {f | f ∈ S.paging.unissued ∨ ∃ r ∈ S.roots, f ∈ S.paging.userFrames r}

/-- What the run keeps. -/
structure Processes.Ok (S : Processes) : Prop where
  supply : Supply S.paging
  bsp_mod : S.paging.bspCr3 % pageSize = 0
  /-- The kernel's top-level table is no frame of a process. -/
  bsp : S.paging.bspCr3 ∉ S.held
  /-- The user halves are in order. -/
  owns : ∀ r ∈ S.roots, OwnsHalf S.paging r
  /-- No frame belongs to two processes. -/
  apart : ∀ r ∈ S.roots, ∀ r' ∈ S.roots, r ≠ r' →
    ∀ f ∈ S.paging.userFrames r, f ∉ S.paging.userFrames r'
  /-- The processes share the kernel half. -/
  upper : ∀ r ∈ S.roots, ∀ i : Fin 512, 256 ≤ i.val →
    S.paging.entry r i = S.paging.entry S.paging.bspCr3 i

/-! ### A new process -/

/-- A state with a new process, made from free frames. -/
structure NewProcess (s s' : Paging) (r : ℕ) : Prop where
  fresh : r ∈ s.unissued
  supply : Supply s'
  owns : OwnsHalf s' r
  frames : s'.userFrames r ⊆ s.unissued
  unissued : s'.unissued ⊆ s.unissued
  mem : ∀ x, alignToPage x ∉ s.unissued → s'.mem x = s.mem x
  upper : ∀ i : Fin 512, 256 ≤ i.val → s'.entry r i = s.entry s.bspCr3 i
  pmm : s.pmm.Static s'.pmm
  bspCr3 : s'.bspCr3 = s.bspCr3

/-- A user half whose frames all were free in the same state is empty. -/
theorem UserSpace.entry_eq_zero {s : Paging} {r : ℕ} (h : UserSpace s s r) {i : Fin 512}
    (hi : i.val < 256) : s.entry r i = 0 := by
  by_contra hne
  have hent : (s.lower r).entry r i = s.entry r i := by
    rw [lower_entry h.tree.root_mod h.tree.root_mod, if_neg (by omega)]
  have htab : (s.lower r).tableAt r [i] = some (frameOf (s.entry r i)) := by
    rw [Paging.tableAt, tableAt, if_neg (by rwa [hent]), hent, tableAt]
  exact h.tree.issued [i] _ (by simp) htab (h.tables [i] _ (by simp) (by simp) htab)

/-- Entries of the upper half stay if the upper half of the table does. -/
theorem Paging.TopKept.entry {s s' : Paging} {r : ℕ} (h : s.TopKept s' r) {i : Fin 512}
    (hi : 256 ≤ i.val) : s'.entry r i = s.entry r i :=
  Mem.load64_congr fun x h1 h2 => h x (by omega) (by omega)

/-- The allocator served the new top-level table. -/
theorem refillOk_of_elfStart {s : Paging} (hgood : ∀ e ∈ (elfStart s).log, e.Good) :
    s.RefillOk := by
  obtain ⟨m, hm⟩ := pagingCreateUser_withMem s
  have hgood' : ∀ e ∈ (pagingAllocTable s).2.log, e.Good := by
    rw [elfStart, pagingSetCR3, hm] at hgood
    exact hgood
  exact refillOk_of_log fun e he => (hgood' e (List.mem_append_left _ he)).served

/-- A state with a new top-level table that shares the kernel half. -/
structure NewTable (s s' : Paging) (r : ℕ) : Prop where
  fresh : r ∈ s.unissued
  unissued : s'.unissued ⊆ s.unissued
  mem : ∀ x, alignToPage x ≠ r → s'.mem x = s.mem x
  upper : ∀ i : Fin 512, 256 ≤ i.val → s'.entry r i = s.entry s.bspCr3 i
  pmm : s.pmm.Static s'.pmm
  bspCr3 : s'.bspCr3 = s.bspCr3

theorem NewTable.setCR3 {s s' : Paging} {r : ℕ} (h : NewTable s s' r) (root : ℕ) :
    NewTable s (pagingSetCR3 s' root) r :=
  ⟨h.fresh, h.unissued, h.mem, h.upper, h.pmm, h.bspCr3⟩

/-- The state in which the loader starts. -/
theorem elfStart_newTable {s : Paging} (hs : Supply s) (hbsp : s.bspCr3 % pageSize = 0)
    (hbsp' : s.bspCr3 ∉ s.unissued) (hgood : ∀ e ∈ (elfStart s).log, e.Good) :
    NewTable s (elfStart s) (pagingCreateUser s).1 := by
  obtain ⟨hf, -, hsub, hent, hmem, hkept⟩ :=
    pagingCreateUser_spec hs (refillOk_of_elfStart hgood) hbsp hbsp'
  have hnew : NewTable s (pagingCreateUser s).2 (pagingCreateUser s).1 :=
    ⟨hf, fun f hf => (hsub hf).1, hmem,
      fun i hi => by rw [hent _ i (hs.aligned _ hf), if_pos rfl, if_pos hi], hkept.pmm,
      hkept.bspCr3⟩
  exact hnew.setCR3 _

/-- **Loading a file into a new address space** makes a process from free frames. -/
theorem loadProcess_spec {s : Paging} {file : FileBytes} {type : AddrspaceType} (hs : Supply s)
    (hbsp : s.bspCr3 % pageSize = 0) (hbsp' : s.bspCr3 ∉ s.unissued) (hfile : UserFile file)
    (hgood : ∀ e ∈ (loadProcess s file type).log, e.Good) :
    NewProcess s (loadProcess s file type) (pagingCreateUser s).1 ∧
      (ElfLayout file → (∀ i < (elfHeader file).programHeaderNumEntries,
        (elfProgram file i).vaddr = 0 → (elfProgram file i).sizeMem ≤ pageSize) →
        HoldsSegments file ((loadProcess s file type).userByte (pagingCreateUser s).1)) := by
  have hlog : (elfStart s).log <+: (loadProcess s file type).log := elfLoad_log_extends _ _ _ _
  have hstart := elfStart_userSpace hs hbsp hbsp' fun e he => hgood e (hlog.subset he)
  have hnew := elfStart_newTable hs hbsp hbsp' fun e he => hgood e (hlog.subset he)
  have hcr3 : (elfStart s).cr3 = (pagingCreateUser s).1 := rfl
  have hfmod := hs.aligned _ hnew.fresh
  rw [loadProcess, addressSpaceNew] at hgood ⊢
  generalize elfStart s = s₁ at hgood hstart hnew hcr3 ⊢
  generalize (pagingCreateUser s).1 = r at hgood hstart hnew hcr3 hfmod ⊢
  have hload := elfLoad_user hstart hcr3 hfile hgood
  have hloaded := fun hlayout => elfLoad_loaded hstart.supply hfmod hstart.root
    (fun i hi => hstart.entry_eq_zero hi) hcr3 hlayout hgood
  generalize (elfLoad ⟨r, []⟩ (some file) type s₁) = res at hload hloaded ⊢
  obtain ⟨hus, -⟩ := hload
  -- the switch back changes neither memory nor the supply
  have hloaded_owns : OwnsHalf res.2.paging r := ⟨s₁, hus⟩
  obtain ⟨howns, hframes, -, hbytes⟩ := hloaded_owns.keep (hus.supply.setCR3 s.cr3)
    (Pmm.Static.refl _) (subset_of_eq (pagingSetCR3_unissued _ _)) fun _ _ => rfl
  refine ⟨⟨hnew.fresh, hus.supply.setCR3 _, howns, ?_, hus.unissued.trans hnew.unissued,
    fun x hx => ?_, fun i hi => (hus.top.entry hi).trans (hnew.upper i hi),
    hnew.pmm.trans hus.kept.pmm, hus.kept.bspCr3.trans hnew.bspCr3⟩,
    fun hlayout hsize i hi k hk => ?_⟩
  · rw [hframes]
    intro f hf
    rcases hus.userFrames_subset hf with rfl | hf
    · exact hnew.fresh
    · exact hnew.unissued hf
  · have hxr : alignToPage x ≠ r := fun heq => hx (heq ▸ hnew.fresh)
    exact (hus.frame x (fun hf => hx (hnew.unissued hf)) hxr).trans (hnew.mem x hxr)
  · obtain ⟨-, hcases, hiff⟩ := hloaded hlayout
    obtain ⟨-, hl⟩ := hcases.resolve_right (hiff.mpr hsize)
    rw [hbytes]
    exact hl.bytes i hi k hk

/-! ### What a call keeps -/

/-- What every call keeps, seen from the state before it. -/
structure Processes.Moves (S S' : Processes) : Prop where
  ok : S'.Ok
  held : S'.held ⊆ S.held
  mem : ∀ x, alignToPage x ∉ S.held → S'.paging.mem x = S.paging.mem x
  bspCr3 : S'.paging.bspCr3 = S.paging.bspCr3

section

variable {S S' : Processes} {s' : Paging} {r : ℕ}

/-- A frame of a process is neither free nor that of another one. -/
theorem Processes.Ok.not_unissued (h : S.Ok) (hr : r ∈ S.roots) {f : ℕ}
    (hf : f ∈ S.paging.userFrames r) : f ∉ S.paging.unissued := by
  obtain ⟨s₀, hus⟩ := h.owns r hr
  exact hus.not_unissued hf

/-- Entries of an aligned table stay if its frame keeps its bytes. -/
theorem entry_eq_of_frame {s s' : Paging} {t : ℕ} (ht : t % pageSize = 0)
    (hmem : ∀ x, alignToPage x = t → s'.mem x = s.mem x) (i : Fin 512) :
    s'.entry t i = s.entry t i := entry_congr ht (fun x hx => hmem x hx) i

/-- **A call that is confined to one process** keeps the others as they are. -/
theorem Processes.Ok.confined (h : S.Ok) (hr : r ∈ S.roots) (hsup : Supply s')
    (howns : OwnsHalf s' r) (hconf : Confined S.paging s' r) :
    S.Moves { S with paging := s' } ∧
      ∀ r' ∈ S.roots, r' ≠ r → ∀ v, s'.userByte r' v = S.paging.userByte r' v := by
  have hmem : ∀ x, alignToPage x ∉ S.held → s'.mem x = S.paging.mem x := fun x hx =>
    hconf.mem x (fun hf => hx (Or.inr ⟨r, hr, hf⟩)) fun hf => hx (Or.inl hf)
  have hkeep : ∀ r' ∈ S.roots, r' ≠ r → OwnsHalf s' r' ∧
      s'.userFrames r' = S.paging.userFrames r' ∧
      (∀ v, (s'.lower r').leaf r' v = (S.paging.lower r').leaf r' v) ∧
      ∀ v, s'.userByte r' v = S.paging.userByte r' v := fun r' hr' hne =>
    (h.owns r' hr').keep hsup hconf.kept.pmm hconf.unissued fun x hx =>
      hconf.mem x (h.apart r' hr' r hr hne _ hx)
        (h.not_unissued hr' hx)
  -- the frames of a process: what it had, and what was free if it is the one that moved
  have hframes : ∀ r' ∈ S.roots, s'.userFrames r' ⊆
      S.paging.userFrames r' ∪ {f | r' = r ∧ f ∈ S.paging.unissued} := by
    intro r' hr' f hf
    by_cases hne : r' = r
    · subst hne
      exact (hconf.frames hf).imp_right fun hfree => ⟨rfl, hfree⟩
    · rw [(hkeep r' hr' hne).2.1] at hf
      exact Or.inl hf
  have hheld : Processes.held { S with paging := s' } ⊆ S.held := by
    rintro f (hf | ⟨r', hr', hf⟩)
    · exact Or.inl (hconf.unissued hf)
    · rcases hframes r' hr' hf with hf | ⟨-, hf⟩
      · exact Or.inr ⟨r', hr', hf⟩
      · exact Or.inl hf
  have hbsp : s'.bspCr3 = S.paging.bspCr3 := hconf.kept.bspCr3
  refine ⟨⟨⟨hsup, ?_, ?_, fun r' hr' => ?_, fun r₁ hr₁ r₂ hr₂ hne => ?_, fun r' hr' i hi => ?_⟩,
    hheld, hmem, hbsp⟩, fun r' hr' hne => (hkeep r' hr' hne).2.2.2⟩
  · rw [hbsp]
    exact h.bsp_mod
  · rw [hbsp]
    exact fun hf => h.bsp (hheld hf)
  · by_cases hne : r' = r
    · exact hne ▸ howns
    · exact (hkeep r' hr' hne).1
  · intro f hf₁ hf₂
    rcases hframes r₁ hr₁ hf₁ with hf₁ | ⟨rfl, hf₁⟩ <;>
      rcases hframes r₂ hr₂ hf₂ with hf₂ | ⟨heq, hf₂⟩
    · exact h.apart r₁ hr₁ r₂ hr₂ hne f hf₁ hf₂
    · exact h.not_unissued hr₁ hf₁ hf₂
    · exact h.not_unissued hr₂ hf₂ hf₁
    · exact hne heq.symm
  · have hbsp' : s'.entry S.paging.bspCr3 i = S.paging.entry S.paging.bspCr3 i :=
      entry_eq_of_frame h.bsp_mod (fun x hx => hmem x (hx ▸ h.bsp)) i
    rw [hbsp, hbsp', ← h.upper r' hr' i hi]
    by_cases hne : r' = r
    · exact hne ▸ hconf.top.entry hi
    · obtain ⟨s₀, hus⟩ := h.owns r' hr'
      refine entry_eq_of_frame hus.tree.root_mod (fun x hx => hconf.mem x ?_ ?_) i
      · rw [hx]
        exact h.apart r' hr' r hr hne r' (mem_userFrames_root S.paging r')
      · rw [hx]
        exact h.not_unissued hr' (mem_userFrames_root S.paging r')

/-- The memories after a call that is confined to one process. -/
theorem Processes.memories_confined
    (hbytes : ∀ r' ∈ S.roots, r' ≠ r → ∀ v, s'.userByte r' v = S.paging.userByte r' v) :
    Processes.memories { S with paging := s' } =
      Function.update S.memories r (Processes.memories { S with paging := s' } r) := by
  funext r' v
  by_cases hne : r' = r
  · rw [hne, Function.update_self]
  · rw [Function.update_of_ne hne]
    simp only [Processes.memories]
    by_cases hr' : r' ∈ S.roots ∧ v < 2 ^ 47
    · rw [if_pos hr', if_pos hr', hbytes r' hr'.1 hne]
    · rw [if_neg hr', if_neg hr']

theorem Processes.memories_eq (hr : r ∈ S.roots) {v : ℕ} (hv : v < 2 ^ 47) :
    S.memories r v = S.paging.userByte r v := if_pos ⟨hr, hv⟩

/-- A process that does not exist has no memory. -/
theorem Processes.memories_of_notMem (hr : r ∉ S.roots) : S.memories r = fun _ => none :=
  funext fun _ => if_neg fun h => hr h.1

/-! ### The calls one by one -/

/-- Switching to another address space. -/
theorem Processes.Ok.setCR3 (h : S.Ok) (r : ℕ) :
    S.Moves { S with paging := pagingSetCR3 S.paging r } := by
  have hkeep : ∀ r' ∈ S.roots, OwnsHalf (pagingSetCR3 S.paging r) r' := fun r' hr' =>
    ((h.owns r' hr').keep (h.supply.setCR3 r) (Pmm.Static.refl _) subset_rfl fun _ _ => rfl).1
  exact ⟨⟨h.supply.setCR3 r, h.bsp_mod, h.bsp, hkeep, h.apart, h.upper⟩, subset_rfl,
    fun _ _ => rfl, rfl⟩

/-- **Mapping pages** of a process. -/
theorem Processes.Ok.vmallocCR3 {v n : ℕ} {flags : BitVec 64} (h : S.Ok) (hr : r ∈ S.roots)
    (hv : ∀ i < n, (pageP4E (add64 v (i * pageSize))).val < 256) (hflags : FlagBits flags)
    (hbits : flags &&& 0x83 = 3) (hok : ∀ e ∈ (vmallocCR3 S.paging v n flags r).2.log, e.Good) :
    S.Moves { S with paging := (AnglOS.vmallocCR3 S.paging v n flags r).2 } ∧
      MemoryStep (.vmallocCR3 v n flags r) S.memories
        (Processes.memories { S with paging := (AnglOS.vmallocCR3 S.paging v n flags r).2 }) := by
  obtain ⟨s₀, hus⟩ := h.owns r hr
  have hconf := hus.vmallocCR3_confined hv hflags hbits hok
  obtain ⟨hus', hmaps⟩ := hus.vmallocCR3 hv hflags hbits hok
  generalize (AnglOS.vmallocCR3 S.paging v n flags r).2 = s' at hconf hus' hmaps ⊢
  obtain ⟨hmoves, hbytes⟩ := h.confined hr hus'.supply ⟨s₀, hus'⟩ hconf
  refine ⟨hmoves, ?_⟩
  rw [Processes.memories_confined hbytes]
  refine .vmallocCR3 _ (fun w hw => ?_) fun hnz w hw hon => ?_
  · simp only [Processes.memories]
    rw [(hmaps.others w fun i hi heq => hw ⟨i, hi, heq⟩).2]
  · obtain ⟨i, hi, heq⟩ := hon
    obtain ⟨f, hf, hlt, hleaf⟩ := hmaps.mapped i hi fun j hj => hnz j (hj.trans hi)
    rw [Processes.memories_eq (S := { S with paging := s' }) hr hw, userByte_ne_none,
      leaf_congr _ _ heq, hleaf]
    intro hz
    have hpres := and_of_mask (makeEntry_flags hf hlt hflags) (b := 1) (by decide)
    rw [hz, and_of_mask hbits (by decide)] at hpres
    exact absurd hpres (by decide)

/-- **Changing flags** of mapped pages of a process. -/
theorem Processes.Ok.vflagsCR3 {v n : ℕ} {flags : BitVec 64} (h : S.Ok) (hr : r ∈ S.roots)
    (hv : ∀ i < n, (pageP4E (add64 v (i * pageSize))).val < 256)
    (hmapped : ∀ i < n, S.paging.userByte r (add64 v (i * pageSize)) ≠ none)
    (hflags : FlagBits flags) (hpres : flags &&& 1 = 1) :
    S.Moves { S with paging := vflagsCR3 S.paging v n flags r } ∧
      Processes.memories { S with paging := AnglOS.vflagsCR3 S.paging v n flags r } =
        S.memories := by
  obtain ⟨s₀, hus⟩ := h.owns r hr
  have hleaf : ∀ i < n, (S.paging.lower r).leaf r (add64 v (i * pageSize)) ≠ 0 := fun i hi =>
    userByte_ne_none.mp (hmapped i hi)
  have hconf := hus.vflagsCR3_confined hv hleaf hflags hpres
  obtain ⟨hus', hsame, -⟩ := hus.vflagsCR3 hv hleaf hflags hpres
  obtain ⟨hmoves, hbytes⟩ := h.confined hr hus'.supply ⟨s₀, hus'⟩ hconf
  refine ⟨hmoves, ?_⟩
  rw [Processes.memories_confined hbytes]
  refine Function.update_eq_self_iff.mpr (funext fun w => ?_)
  simp only [Processes.memories, hsame]

/-- **A write** of a process to its memory. -/
theorem Processes.Ok.write {v a : ℕ} (h : S.Ok) (hr : r ∈ S.roots) (hcr3 : S.paging.cr3 = r)
    (hv : v < 2 ^ 47) (ha : S.paging.writeAddress v = some a) (b : BitVec 8) :
    S.Moves { S with paging := S.paging.setByte a b } ∧
      MemoryStep (.write v b r) S.memories
        (Processes.memories { S with paging := S.paging.setByte a b }) := by
  obtain ⟨s₀, hus⟩ := h.owns r hr
  obtain ⟨hleaf, rfl⟩ := hus.leaf_of_writeAddress hcr3 (pageP4E_lt hv) ha
  have hpage : alignToPage (frameOf ((S.paging.lower r).leaf r v) + v % pageSize)
      = frameOf ((S.paging.lower r).leaf r v) :=
    alignToPage_add (frameOf_mod _) (Nat.mod_lt _ (by decide))
  have hoff : (frameOf ((S.paging.lower r).leaf r v) + v % pageSize) % pageSize = v % pageSize := by
    rw [Nat.add_mod, frameOf_mod, Nat.zero_add, Nat.mod_mod, Nat.mod_mod]
  have hconf := hus.setByte_confined hleaf hpage b
  obtain ⟨hus', -, hset⟩ := hus.setByte hleaf hpage b
  obtain ⟨hmoves, hbytes⟩ := h.confined hr hus'.supply ⟨s₀, hus'⟩ hconf
  refine ⟨hmoves, ?_⟩
  rw [Processes.memories_confined hbytes]
  generalize S.paging.setByte (frameOf ((S.paging.lower r).leaf r v) + v % pageSize) b = s'
    at hset ⊢
  have hmem : Processes.memories { S with paging := s' } r =
      Function.update (S.memories r) v (some b) := by
    funext w
    by_cases hw : w < 2 ^ 47
    · rw [Processes.memories_eq (S := { S with paging := s' }) hr hw, hset w, hoff]
      by_cases heq : w = v
      · rw [if_pos ((eq_of_page hv hw).mpr heq), heq, Function.update_self]
      · rw [if_neg fun hp => heq ((eq_of_page hv hw).mp hp), Function.update_of_ne heq,
          Processes.memories_eq hr hw]
    · have hne : w ≠ v := by omega
      rw [Function.update_of_ne hne]
      simp only [Processes.memories, hw, and_false, if_false]
  rw [hmem]
  refine .write ?_
  rw [Processes.memories_eq hr hv]
  exact userByte_ne_none.mpr hleaf

/-- **A new process** keeps the others as they are. -/
theorem Processes.Ok.load {file : FileBytes} {type : AddrspaceType} (h : S.Ok)
    (hfile : UserFile file) (hgood : ∀ e ∈ (loadProcess S.paging file type).log, e.Good) :
    S.Moves ⟨loadProcess S.paging file type, (pagingCreateUser S.paging).1 :: S.roots⟩ ∧
      MemoryStep (.load (pagingCreateUser S.paging).1 file type) S.memories
        (Processes.memories
          ⟨loadProcess S.paging file type, (pagingCreateUser S.paging).1 :: S.roots⟩) := by
  obtain ⟨hnew, hsegments⟩ := loadProcess_spec h.supply h.bsp_mod
    (fun hf => h.bsp (Or.inl hf)) hfile hgood
  generalize (pagingCreateUser S.paging).1 = r at hnew hsegments ⊢
  generalize loadProcess S.paging file type = s' at hnew hsegments ⊢
  have hne : ∀ r' ∈ S.roots, r' ≠ r := fun r' hr' heq =>
    h.not_unissued hr' (mem_userFrames_root S.paging r') (heq ▸ hnew.fresh)
  have hkeep := fun r' hr' => (h.owns r' hr').keep hnew.supply hnew.pmm hnew.unissued fun x hx =>
    hnew.mem x (h.not_unissued hr' hx)
  have hmem : ∀ x, alignToPage x ∉ S.held → s'.mem x = S.paging.mem x := fun x hx =>
    hnew.mem x fun hf => hx (Or.inl hf)
  have hheld : Processes.held ⟨s', r :: S.roots⟩ ⊆ S.held := by
    rintro f (hf | ⟨r', hr', hf⟩)
    · exact Or.inl (hnew.unissued hf)
    · rcases List.mem_cons.mp hr' with rfl | hr'
      · exact Or.inl (hnew.frames hf)
      · rw [(hkeep r' hr').2.1] at hf
        exact Or.inr ⟨r', hr', hf⟩
  have hapart : ∀ r' ∈ S.roots, ∀ f ∈ s'.userFrames r, f ∉ s'.userFrames r' := by
    intro r' hr' f hf hf'
    rw [(hkeep r' hr').2.1] at hf'
    exact h.not_unissued hr' hf' (hnew.frames hf)
  have hbsp : ∀ i, s'.entry S.paging.bspCr3 i = S.paging.entry S.paging.bspCr3 i :=
    entry_eq_of_frame h.bsp_mod fun x hx => hmem x (hx ▸ h.bsp)
  refine ⟨⟨⟨hnew.supply, ?_, ?_, fun r' hr' => ?_, fun r₁ hr₁ r₂ hr₂ hne' => ?_,
    fun r' hr' i hi => ?_⟩, hheld, hmem, hnew.bspCr3⟩, ?_⟩
  · rw [hnew.bspCr3]
    exact h.bsp_mod
  · rw [hnew.bspCr3]
    exact fun hf => h.bsp (hheld hf)
  · rcases List.mem_cons.mp hr' with rfl | hr'
    · exact hnew.owns
    · exact (hkeep r' hr').1
  · rcases List.mem_cons.mp hr₁ with rfl | hold₁ <;> rcases List.mem_cons.mp hr₂ with rfl | hold₂
    · exact absurd rfl hne'
    · exact hapart r₂ hold₂
    · exact fun f hf hf' => hapart r₁ hold₁ f hf' hf
    · rw [(hkeep r₁ hold₁).2.1, (hkeep r₂ hold₂).2.1]
      exact h.apart r₁ hold₁ r₂ hold₂ hne'
  · rw [hnew.bspCr3, hbsp]
    rcases List.mem_cons.mp hr' with rfl | hr'
    · exact hnew.upper i hi
    · obtain ⟨s₀, hus⟩ := h.owns r' hr'
      rw [← h.upper r' hr' i hi]
      refine entry_eq_of_frame hus.tree.root_mod (fun x hx => hnew.mem x ?_) i
      rw [hx]
      exact h.not_unissued hr' (mem_userFrames_root S.paging r')
  · have hothers : Processes.memories ⟨s', r :: S.roots⟩ =
        Function.update S.memories r (Processes.memories ⟨s', r :: S.roots⟩ r) := by
      funext r' v
      by_cases hr : r' = r
      · rw [hr, Function.update_self]
      · rw [Function.update_of_ne hr]
        simp only [Processes.memories, List.mem_cons, hr, false_or]
        by_cases hr' : r' ∈ S.roots ∧ v < 2 ^ 47
        · rw [if_pos hr', if_pos hr', (hkeep r' hr'.1).2.2.2]
        · rw [if_neg hr', if_neg hr']
    rw [hothers]
    refine .load _ (Processes.memories_of_notMem fun hr => hne r hr rfl) fun hlayout hsize => ?_
    intro i hi k hk
    have hend := (hlayout.placed i hi).user
    rw [Processes.memories_eq (S := ⟨s', r :: S.roots⟩) (List.mem_cons_self ..) (by omega)]
    exact hsegments hlayout hsize i hi k hk

/-- A read of a process returns the byte of its memory. -/
theorem Processes.Ok.read {v : ℕ} (h : S.Ok) (hr : r ∈ S.roots) (hcr3 : S.paging.cr3 = r)
    (hv : v < 2 ^ 47) : S.paging.byteAt v = S.memories r v := by
  obtain ⟨s₀, hus⟩ := h.owns r hr
  rw [Processes.memories_eq hr hv, hus.byteAt hcr3 hv]

/-- **A step** keeps all user halves in order, and is a step on separate memories. -/
theorem ProcessStep.moves {c : ProcessCall} (hstep : ProcessStep c S S') (h : S.Ok) :
    S.Moves S' ∧ MemoryStep c S.memories S'.memories := by
  obtain ⟨hallowed, rfl, hgood⟩ := hstep
  cases c with
  | load r file type =>
    obtain ⟨rfl, hfile⟩ := hallowed
    exact h.load hfile hgood
  | setCR3 r => exact ⟨h.setCR3 r, .setCR3⟩
  | vmallocCR3 v n flags r =>
    obtain ⟨hr, hv, hflags, hbits⟩ := hallowed
    exact h.vmallocCR3 hr hv hflags hbits hgood
  | vflagsCR3 v n flags r =>
    obtain ⟨hr, hv, hmapped, hflags, hpres⟩ := hallowed
    obtain ⟨hmoves, hsame⟩ := h.vflagsCR3 hr hv hmapped hflags hpres
    refine ⟨hmoves, ?_⟩
    rw [ProcessCall.exec, hsame]
    exact .vflagsCR3
  | read v b r =>
    obtain ⟨hr, hcr3, hv, rfl⟩ := hallowed
    refine ⟨⟨h, subset_rfl, fun _ _ => rfl, rfl⟩, ?_⟩
    rw [h.read hr hcr3 hv]
    exact .read
  | write v b r =>
    obtain ⟨hr, hcr3, hv, hwrite⟩ := hallowed
    obtain ⟨a, ha⟩ := Option.ne_none_iff_exists'.mp hwrite
    have hexec : ProcessCall.exec S (.write v b r) = { S with paging := S.paging.setByte a b } := by
      simp only [ProcessCall.exec, ha]
    rw [hexec]
    exact h.write hr hcr3 hv ha b

/-! ### Runs -/

variable {S₀ : Processes} {cs ds : List ProcessCall}

/-- What a run keeps, seen from its start. -/
theorem Processes.Ok.run (h₀ : S₀.Ok) (h : Run ProcessStep S₀ cs S) : S₀.Moves S := by
  induction h with
  | nil => exact ⟨h₀, subset_rfl, fun _ _ => rfl, rfl⟩
  | snoc _ hc ih =>
    obtain ⟨hmoves, -⟩ := hc.moves ih.ok
    exact ⟨hmoves.ok, hmoves.held.trans ih.held, fun x hx =>
      (hmoves.mem x fun hf => hx (ih.held hf)).trans (ih.mem x hx),
      hmoves.bspCr3.trans ih.bspCr3⟩

/-- The steps on separate memories that a run makes. -/
theorem Processes.Ok.memories_run (h₀ : S₀.Ok) (h : Run ProcessStep S₀ cs S) :
    Run MemoryStep S₀.memories cs S.memories := by
  obtain ⟨M, hrun, -, rfl⟩ := h.simulate (R := fun S M => S.Ok ∧ M = S.memories)
    (fun c S S' M hSM hstep => by
      obtain ⟨hS, rfl⟩ := hSM
      obtain ⟨hmoves, hmem⟩ := hstep.moves hS
      exact ⟨_, hmem, hmoves.ok, rfl⟩) ⟨h₀, rfl⟩
  exact hrun

end

/-- The translation of an address depends on the top-level table by one entry. -/
theorem translation_congr_root {s : Paging} {r root v : ℕ}
    (h : s.entry r (pageP4E v) = s.entry root (pageP4E v)) :
    s.translation r v = s.translation root v := by
  have hindex : pageIndex 3 v = pageP4E v := rfl
  simp only [Paging.translation, Paging.translationFrom, hindex, h]

/-! ### Two processes -/

/-- Before there are processes. -/
theorem noProcess_ok : Processes.Ok ⟨filledWith 0, []⟩ where
  supply := filledWith_supply 0
  bsp_mod := filledWith_tree.root_mod
  bsp := by
    rintro (hf | ⟨r, hr, -⟩)
    · exact filledWith_root 0 hf
    · exact absurd hr List.not_mem_nil
  owns := fun r hr => absurd hr List.not_mem_nil
  apart := fun r hr => absurd hr List.not_mem_nil
  upper := fun r hr => absurd hr List.not_mem_nil

/-- The only page of a range of one page. -/
theorem add64_page_zero {v i : ℕ} (hv : v < 2 ^ 64) (hi : i < 1) :
    add64 v (i * pageSize) = v := by
  obtain rfl : i = 0 := by omega
  simp only [add64]
  omega

/-- A page of the active process whose flags were changed to writable takes writes. -/
theorem writeAddress_of_vflagsCR3 {S : Processes} {r v : ℕ} (h : S.Ok)
    (hr : r ∈ S.roots) (hcr3 : S.paging.cr3 = r) (hv : v < 2 ^ 47)
    (hmapped : S.paging.userByte r v ≠ none) :
    (vflagsCR3 S.paging v 1 7 r).cr3 = r ∧ (vflagsCR3 S.paging v 1 7 r).writeAddress v ≠ none := by
  obtain ⟨s₀, hus⟩ := h.owns r hr
  have hzero := fun i hi => add64_page_zero (i := i) (hv.trans (by decide)) hi
  have hhalf : ∀ i < 1, (pageP4E (add64 v (i * pageSize))).val < 256 := fun i hi => by
    rw [hzero i hi]
    exact pageP4E_lt hv
  have hflags : FlagBits 7 := by
    unfold FlagBits
    decide
  have hleaf := userByte_ne_none.mp hmapped
  obtain ⟨hus', hbytes, -⟩ := hus.vflagsCR3 hhalf (fun i hi => by rwa [hzero i hi]) hflags
    (by decide)
  have hset := hus.vflagsCR3_leaf 7 hhalf ⟨0, Nat.one_pos, by rw [hzero 0 Nat.one_pos]⟩ hleaf
  have hcr3' : (vflagsCR3 S.paging v 1 7 r).cr3 = r :=
    (hus'.kept.cr3.trans hus.kept.cr3.symm).trans hcr3
  refine ⟨hcr3', ?_⟩
  rw [hus'.writeAddress hcr3' hv (userByte_ne_none.mp (by rwa [hbytes])) ?_]
  · exact Option.some_ne_none _
  · rw [hset]
    intro hz
    have hbit := congrArg (fun e : BitVec 64 => e.getLsbD 1) hz
    simp at hbit

/-- A process becomes active, and one of its pages is made writable and written. -/
theorem Processes.Ok.exists_run_write {S : Processes} {r v : ℕ} (h : S.Ok) (hr : r ∈ S.roots)
    (hgood : ∀ e ∈ S.paging.log, e.Good) (hv : v < 2 ^ 47) (hmapped : S.paging.userByte r v ≠ none)
    (b : BitVec 8) : ∃ S₁ S₂, Run ProcessStep S [.setCR3 r, .vflagsCR3 v 1 7 r] S₁ ∧
      ProcessStep (.write v b r) S₁ S₂ ∧ S₂.roots = S.roots := by
  obtain ⟨s, roots⟩ := S
  have hset : ProcessStep (.setCR3 r) ⟨s, roots⟩ ⟨pagingSetCR3 s r, roots⟩ :=
    ⟨List.mem_cons_of_mem _ hr, rfl, hgood⟩
  have hok := (hset.moves h).1.ok
  obtain ⟨hcr3, hwrite⟩ := writeAddress_of_vflagsCR3 hok hr rfl hv hmapped
  have hlog := vflagsCR3_log (pagingSetCR3 s r) v 1 7 r
  have hzero := fun i hi => add64_page_zero (i := i) (hv.trans (by decide)) hi
  have hflags : ProcessStep (.vflagsCR3 v 1 7 r) ⟨pagingSetCR3 s r, roots⟩
      ⟨AnglOS.vflagsCR3 (pagingSetCR3 s r) v 1 7 r, roots⟩ := by
    refine ⟨⟨hr, fun i hi => ?_, fun i hi => ?_, ?_, by decide⟩, rfl, ?_⟩
    · rw [hzero i hi]
      exact pageP4E_lt hv
    · rw [hzero i hi]
      exact hmapped
    · unfold FlagBits
      decide
    · rw [hlog]
      exact hgood
  have hgood' : ∀ e ∈ (AnglOS.vflagsCR3 (pagingSetCR3 s r) v 1 7 r).log, e.Good := by
    rw [hlog]
    exact hgood
  refine ⟨_, _, ((Run.nil _).append_one _ hset).append_one _ hflags,
    ⟨⟨hr, hcr3, hv, hwrite⟩, rfl, ?_⟩, ?_⟩
  all_goals
    obtain ⟨a, ha⟩ := Option.ne_none_iff_exists'.mp hwrite
    simp only [ProcessCall.exec, ha]
  exact hgood'

/-- Loading a file, from the record of the loader. -/
theorem processStep_load {s : Paging} (roots : List ℕ) {file : FileBytes} {type : AddrspaceType}
    (hfile : UserFile file) (hgood : ∀ e ∈ (elfLoad ⟨(pagingCreateUser s).1, []⟩ (some file) type
      (elfStart s)).2.paging.log, e.Good) :
    ProcessStep (.load (pagingCreateUser s).1 file type) ⟨s, roots⟩
      ⟨loadProcess s file type, (pagingCreateUser s).1 :: roots⟩ :=
  ⟨⟨rfl, hfile⟩, rfl, hgood⟩

/-- A file without program headers. -/
def noSegmentFile : FileBytes := fun k => if k < 4 then elfMagic k else 0

/-- Nothing is loaded from it. -/
theorem elfLoad_noSegment (space : AddressSpace) (type : AddrspaceType) (s : Paging) :
    (elfLoad space (some noSegmentFile) type s).2 = ⟨s, space, false, [], []⟩ := by
  have hmagic : strncmp noSegmentFile elfMagic 4 = 0 := by decide +kernel
  have hnum : (elfHeader noSegmentFile).programHeaderNumEntries = 0 := by decide +kernel
  simp only [elfLoad, hmagic, ne_eq, not_true_eq_false, if_false, hnum, elfLoop]

/-- Two programs: one without segments that gets a page, and one with a page of its own at the same
address, which becomes active and makes it writable. -/
def twoPrograms (r r' : ℕ) : List ProcessCall :=
  [.load r noSegmentFile .code, .vmallocCR3 0x400000 1 3 r,
    .load r' (oneSegmentFile 0x400000 1) .code, .setCR3 r', .vflagsCR3 0x400000 1 7 r']

/-- The first one becomes active, and writes to its page. -/
def otherWrites (r r' : ℕ) : List ProcessCall :=
  [.setCR3 r, .vflagsCR3 0x400000 1 7 r, .write 0x400000 0x17 r, .setCR3 r']

/-- The kernel's table stays empty if it was, and the frames to come blank. -/
theorem Processes.Moves.ready_bsp {S : Processes} {r : ℕ}
    (h : Processes.Moves ⟨filledWith 0, []⟩ S) (hready : Ready S.paging r) :
    Ready S.paging S.paging.bspCr3 ∧ ∀ i, S.paging.entry S.paging.bspCr3 i = 0 := by
  have hzero : ∀ i, S.paging.entry S.paging.bspCr3 i = 0 := by
    intro i
    have hbsp := noProcess_ok.bsp
    rw [h.bspCr3, entry_eq_of_frame noProcess_ok.bsp_mod (fun x hx => h.mem x (hx ▸ hbsp)) i]
    exact filledWith_zero _ i
  exact ⟨⟨hready.supply, tree_of_empty h.ok.bsp_mod (fun hf => h.ok.bsp (Or.inl hf)) hzero,
    hready.blanks, hready.good⟩, hzero⟩

/-- A process without segments is made. -/
theorem exists_load_noSegment : ∃ r s, ProcessStep (.load r noSegmentFile .code)
    ⟨filledWith 0, []⟩ ⟨s, [r]⟩ ∧ Ready s r ∧ Serves s 62 := by
  obtain ⟨hready, hserves, -⟩ := elfStart_zeros
  have hload : ProcessStep (.load (pagingCreateUser (filledWith 0)).1 noSegmentFile .code)
      ⟨filledWith 0, []⟩ ⟨loadProcess (filledWith 0) noSegmentFile .code,
        [(pagingCreateUser (filledWith 0)).1]⟩ := by
    refine processStep_load [] (fun _ n hn _ _ => ?_) ?_
    · have hnum : (elfHeader noSegmentFile).programHeaderNumEntries = 0 := by decide +kernel
      omega
    · rw [elfLoad_noSegment]
      exact hready.good
  have hstate : loadProcess (filledWith 0) noSegmentFile .code
      = pagingSetCR3 (elfStart (filledWith 0)) (filledWith 0).cr3 := by
    rw [loadProcess, elfLoad_noSegment]
  rw [hstate] at hload
  exact ⟨_, _, hload, hready.setCR3 _, hserves.setCR3 _⟩

/-- A page of a process is mapped. -/
theorem exists_vmallocCR3 {s : Paging} {r : ℕ} (hready : Ready s r) (hserves : Serves s 62) :
    ∃ s', ProcessStep (.vmallocCR3 0x400000 1 3 r) ⟨s, [r]⟩ ⟨s', [r]⟩ ∧ Ready s' r ∧
      Serves s' 58 := by
  have hflags : FlagBits 3 := by
    unfold FlagBits
    decide
  have hnext : Serves (vmallocCR3 s 0x400000 1 3 r).2 58 :=
    Serves.vmallocCR3 (k := 58) (n := 1) hserves
  have hready' := hready.vmallocCR3 (v := 0x400000) (n := 1) hflags (by decide) hnext.served
  exact ⟨_, ⟨⟨List.mem_singleton_self r, by decide, hflags, by decide⟩, rfl, hready'.good⟩, hready',
    hnext⟩

/-- A process without segments gets a page. -/
theorem exists_run_firstProgram : ∃ r s, Run ProcessStep ⟨filledWith 0, []⟩
    [.load r noSegmentFile .code, .vmallocCR3 0x400000 1 3 r] ⟨s, [r]⟩ ∧
    Ready s r ∧ Serves s 58 ∧ s.userByte r 0x400000 ≠ none := by
  obtain ⟨r, s, hload, hready, hserves⟩ := exists_load_noSegment
  obtain ⟨s', hmap, hready', hserves'⟩ := exists_vmallocCR3 hready hserves
  obtain ⟨-, hmem⟩ := hmap.moves (hload.moves noProcess_ok).1.ok
  have hbyte := hmem.vmallocCR3_ne_none (w := 0x400000) (by decide) (by decide)
    ⟨0, Nat.one_pos, by decide⟩
  rw [Processes.memories_eq (List.mem_singleton_self r) (by decide)] at hbyte
  exact ⟨r, s', ((Run.nil _).append_one _ hload).append_one _ hmap, hready', hserves', hbyte⟩

/-- Two programs are loaded; the second one writes to its page, then the first one to the page at
the same address, and the second one reads. -/
theorem exists_run_twoProcesses : ∃ r r' S₁ S₂ S₃, r ≠ r' ∧
    Run ProcessStep ⟨filledWith 0, []⟩ (twoPrograms r r') S₁ ∧
    ProcessStep (.write 0x400000 0x2A r') S₁ S₂ ∧ Run ProcessStep S₂ (otherWrites r r') S₃ ∧
    S₃.roots = [r', r] ∧ ∃ b', ProcessStep (.read 0x400000 b' r') S₃ S₃ := by
  obtain ⟨r, s, hfirst, hready, hserves, hbyte⟩ := exists_run_firstProgram
  have hmoves := noProcess_ok.run hfirst
  obtain ⟨hbsp, hzero⟩ := hmoves.ready_bsp hready
  obtain ⟨hready', hserves', -⟩ := elfStart_ready hbsp hserves hzero
  have hone := hasOneSegment_oneSegmentFile 0x400000 (by simp) 1 (by omega)
  have hload := processStep_load [r]
    (fun _ n hn _ _ => (hone.layout.placed n hn).inUserHalf)
    (hone.good_of_ready hready' (hserves'.mono (by omega)) .code)
  obtain ⟨hmoves', hmem⟩ := hload.moves hmoves.ok
  generalize (pagingCreateUser s).1 = r' at hload hmoves' hmem
  generalize loadProcess s (oneSegmentFile 0x400000 1) .code = s' at hload hmoves' hmem
  have hold : Processes.memories ⟨s, [r]⟩ r 0x400000 ≠ none := by
    rwa [Processes.memories_eq (List.mem_singleton_self r) (by decide)]
  have hne : r ≠ r' := by
    rintro rfl
    exact hold (hmem.load_none _)
  have hbyte' : Processes.memories ⟨s', [r', r]⟩ r 0x400000 ≠ none := by
    rwa [hmem.eq_of_not_sets (fun heq => hne heq.symm)]
  have hsecond := hmem.holdsSegments hone.layout (fun i hi _ => by
    rw [hone.num] at hi
    obtain rfl : i = 0 := by omega
    rw [hone.sizeMem_eq]
    decide) 0 (by rw [hone.num]; decide) 0 (by rw [hone.sizeMem_eq]; decide)
  rw [hone.vaddr_eq, Processes.memories_eq (S := ⟨s', [r', r]⟩) (by simp) (by decide)] at hsecond
  obtain ⟨S₁, S₂, hactive, hwrite, hroots⟩ := hmoves'.ok.exists_run_write (r := r') (by simp)
    hload.frames (v := 0x400000) (by decide) (by rw [hsecond]; exact Option.some_ne_none _) 0x2A
  have hmoves₁ := hmoves'.ok.run hactive
  obtain ⟨hmoves₂, hmem₂⟩ := hwrite.moves hmoves₁.ok
  have hmem₁ : S₁.memories r 0x400000 = Processes.memories ⟨s', [r', r]⟩ r 0x400000 :=
    memories_eq_of_not_sets (hmoves'.ok.memories_run hactive) (by simp [ProcessCall.Sets])
  have hbyte₂ : S₂.memories r 0x400000 ≠ none := by
    rwa [hmem₂.eq_of_not_sets (fun hc => hne hc.1.symm), hmem₁]
  have hr : r ∈ S₂.roots := by simp [hroots]
  rw [Processes.memories_eq hr (by decide)] at hbyte₂
  obtain ⟨S₃, S₄, hother, hwrite', hroots'⟩ := hmoves₂.ok.exists_run_write hr hwrite.frames
    (by decide) hbyte₂ 0x17
  have hroots₄ : S₄.roots = [r', r] := hroots'.trans hroots
  have hback : ProcessStep (.setCR3 r') S₄ ⟨pagingSetCR3 S₄.paging r', S₄.roots⟩ :=
    ⟨List.mem_cons_of_mem _ (by simp [hroots₄]), rfl, hwrite'.frames⟩
  exact ⟨r, r', S₁, S₂, _, hne, (hfirst.append_one _ hload).append hactive, hwrite,
    (hother.append_one _ hwrite').append_one _ hback, hroots₄, _,
    ⟨⟨by simp [hroots₄], rfl, by decide, rfl⟩, rfl, hback.frames⟩⟩

/-- The frames of processes are apart from each other and from the free ones. -/
structure Processes.Apart (S : Processes) : Prop where
  processes : ∀ r ∈ S.roots, ∀ r' ∈ S.roots, r ≠ r' →
    ∀ f ∈ S.paging.userFrames r, f ∉ S.paging.userFrames r'
  free : ∀ r ∈ S.roots, ∀ f ∈ S.paging.userFrames r, f ∉ S.paging.unissued

section

variable {S₀ S S₁ S₂ S₃ S₄ : Processes} {cs ds : List ProcessCall}

/-- **Processes have separate memories**: each run of calls on page tables, with the bytes that its
reads return, is a run of the same calls on a memory for each process. -/
theorem processes_refine_memories (h₀ : S₀.Ok) (h : Run ProcessStep S₀ cs S) :
    Run MemoryStep S₀.memories cs S.memories := h₀.memories_run h

/-- Two programs are loaded, and both write to their page at one address. -/
theorem processes_refine_memories_two : ∃ r r' M, r ≠ r' ∧ Run MemoryStep (fun _ _ => none)
    (twoPrograms r r' ++ [.write 0x400000 0x2A r'] ++ otherWrites r r') M := by
  obtain ⟨r, r', S₁, S₂, S₃, hne, hrun, hwrite, hother, -⟩ := exists_run_twoProcesses
  have hmemories := processes_refine_memories noProcess_ok ((hrun.snoc hwrite).append hother)
  rw [(funext fun _ => Processes.memories_of_notMem List.not_mem_nil :
    Processes.memories ⟨filledWith 0, []⟩ = fun _ _ => none)] at hmemories
  exact ⟨r, r', _, hne, hmemories⟩

/-- **A process reads what it wrote last**, whatever the kernel and the other processes do in
between, as long as the page is not mapped again. -/
theorem process_reads_last_write {v r : ℕ} {b : BitVec 8} {b' : Option (BitVec 8)} (h₀ : S₀.Ok)
    (hbefore : Run ProcessStep S₀ cs S₁) (hwrite : ProcessStep (.write v b r) S₁ S₂)
    (hbetween : Run ProcessStep S₂ ds S₃) (hread : ProcessStep (.read v b' r) S₃ S₄)
    (hds : ∀ d ∈ ds, ¬d.Sets r v) : b' = some b := by
  have h₁ := (h₀.run hbefore).ok
  obtain ⟨hmoves₂, hmem₂⟩ := hwrite.moves h₁
  have h₃ := (hmoves₂.ok.run hbetween).ok
  have hkept := memories_eq_of_not_sets (hmoves₂.ok.memories_run hbetween) hds
  obtain ⟨-, hmem₄⟩ := hread.moves h₃
  rw [hmem₄.read_eq, hkept, hmem₂.write_eq]

/-- A process writes to a page, another one to the page at the same address, and the first one
reads. -/
theorem process_reads_last_write_two : ∃ r r' S₁ S₂ S₃ b', r ≠ r' ∧
    ProcessStep (.write 0x400000 0x2A r') S₁ S₂ ∧ Run ProcessStep S₂ (otherWrites r r') S₃ ∧
    ProcessStep (.read 0x400000 b' r') S₃ S₃ ∧ b' = some 0x2A := by
  obtain ⟨r, r', S₁, S₂, S₃, hne, hrun, hwrite, hother, -, b', hread⟩ := exists_run_twoProcesses
  exact ⟨r, r', S₁, S₂, S₃, b', hne, hwrite, hother, hread, process_reads_last_write noProcess_ok
    hrun hwrite hother hread (by simp [otherWrites, ProcessCall.Sets, hne])⟩

/-- **No run of processes touches the kernel**: memory that is neither free nor held by a process
keeps its bytes, every process translates kernel addresses as the boot processor did at the start
(where the tables on the way are no such memory), and no frame belongs to two processes or is free
while a process holds it. -/
theorem kernel_kept_by_processes (h₀ : S₀.Ok) (h : Run ProcessStep S₀ cs S) :
    (∀ x, alignToPage x ∉ S₀.held → S.paging.mem x = S₀.paging.mem x) ∧
      (∀ r ∈ S.roots, ∀ v, 256 ≤ (pageP4E v).val →
        (∀ l t, S₀.paging.Passes S₀.paging.bspCr3 v l t → t ∉ S₀.held) →
        S.paging.translation r v = S₀.paging.translation S₀.paging.bspCr3 v) ∧
      S.Apart := by
  have hmoves := h₀.run h
  refine ⟨hmoves.mem, fun r hr v hv hpass => ?_, hmoves.ok.apart, fun r hr f hf =>
    hmoves.ok.not_unissued hr hf⟩
  have hroot := hmoves.ok.upper r hr (pageP4E v) hv
  rw [translation_congr_root hroot, hmoves.bspCr3]
  refine translation_congr fun l t ht => ?_
  obtain ⟨p, -, htab⟩ := ht.tableAt
  refine entry_eq_of_frame (tableAt_mod h₀.bsp_mod htab) (fun x hx => hmoves.mem x ?_) _
  rw [hx]
  exact hpass l t ht

/-- Two processes are made, and write to their pages. -/
theorem kernel_kept_by_processes_two : ∃ r r' S, r ≠ r' ∧ Processes.roots S = [r', r] ∧
    (∀ x, alignToPage x ∉ Processes.held ⟨filledWith 0, []⟩ →
      S.paging.mem x = (filledWith 0).mem x) ∧ S.Apart := by
  obtain ⟨r, r', S₁, S₂, S₃, hne, hrun, hwrite, hother, hroots, -⟩ := exists_run_twoProcesses
  obtain ⟨hmem, -, hapart⟩ :=
    kernel_kept_by_processes noProcess_ok ((hrun.snoc hwrite).append hother)
  exact ⟨r, r', S₃, hne, hroots, hmem, hapart⟩

end

end AnglOS
