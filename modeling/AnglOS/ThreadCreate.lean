import AnglOS.ElfImage
import AnglOS.ThreadStacks

/-!
# Threads of Files That Do Not Load

`threadCreate` of `threads/thread.c` with the address space that it builds. The loader reports a
file that it rejects by its result alone: what it has recorded and mapped up to the offending
program header stays, and `threadCreate` takes the result as the address of the first instruction
without a look at it.

* `threadCreateElf` — the whole of `threadCreate`.
* `Accepted` — the files that the loader does not reject.

## Main results

* `elfLoad_undone_iff` — a failed load leaves the address space as it was exactly when it failed
  before the first segment;
* `failed_load_iff` — failed loads change nothing and start no thread exactly for the files for
  which the loader does not fail.
-/

namespace AnglOS

/-- The result `-1UL` of `elfLoad`. -/
abbrev elfFailed : ℕ := 2 ^ 64 - 1

/-- `addressSpaceNew`. The function has no return statement; its caller gets the new object if the
compiler leaves it in the result register. -/
def addressSpaceNew (cr3 : ℕ) : AddressSpace := ⟨cr3, []⟩

/-- What `threadCreate` leaves behind: the scheduler, the address space of the thread and the paging
layer, and the value of `gs->pc` and `ctx->rip`. -/
structure CreatedThread where
  sched : Sched
  space : AddressSpace
  paging : Paging
  pc : ℕ

/-- One of the stacks of a new thread. -/
def addStack (flags : BitVec 32) (top : ℕ) (r : AddressSpace × Paging) : AddressSpace × Paging :=
  addressSpaceAddEntry r.1 .stack flags stackSize (sub64 top stackSize) r.2

/-- `threadCreate`, with the address space. It is `none` if the loader does not return. -/
def threadCreateElf (S : Sched) (s : Paging) (elf : Option FileBytes) (type : AddrspaceType)
    (gs priority parent : ℕ) : Option CreatedThread :=
  let cr3 := (pagingCreateUser s).1
  let s := (pagingCreateUser s).2
  let space := addressSpaceNew cr3
  let oldcr3 := s.cr3
  let r := elfLoad space elf type (pagingSetCR3 s cr3)
  r.1.bind fun entry =>
    let s := pagingSetCR3 r.2.paging oldcr3
    (threadCreate S gs priority parent).map fun S' =>
      let thread := S'.thread S.created
      let kernel := addrspaceFlagReadable ||| addrspaceFlagWriteable
      let r := addStack (addrspaceFlagReadable ||| addrspaceFlagUser ||| addrspaceFlagWriteable)
        thread.usrStack (r.2.space, s)
      let r := addStack kernel thread.kerStack r
      let r := addStack kernel thread.irqStack r
      let r := addStack kernel thread.isrStack r
      ⟨S', r.1, r.2, entry⟩

/-! ### What the loader rejects -/

/-- A file that the loader does not reject, with an entry point that is not the failure value. -/
structure Accepts (file : FileBytes) : Prop where
  magic : strncmp file elfMagic 4 = 0
  load : ∀ i < (elfHeader file).programHeaderNumEntries, (elfProgram file i).type = elfSegmentLoad
  entry : (elfHeader file).programEntryPos ≠ elfFailed

/-- A file, not `NULL`, that the loader accepts. -/
def Accepted (file : Option FileBytes) : Prop := ∃ f, file = some f ∧ Accepts f

/-- The loader comes to its end before it has loaded a segment. -/
def LoadsNothing (file : Option FileBytes) : Prop :=
  ∀ f, file = some f → strncmp f elfMagic 4 = 0 →
    0 < (elfHeader f).programHeaderNumEntries → (elfProgram f 0).type ≠ elfSegmentLoad

/-- **A failed load is undone**: the address space has the entries and the translations it had. -/
def LoadUndone (space : AddressSpace) (s : Paging) (file : Option FileBytes)
    (type : AddrspaceType) : Prop :=
  (elfLoad space file type s).1 = some elfFailed →
    (elfLoad space file type s).2.space.entries.length = space.entries.length ∧
    (elfLoad space file type s).2.space.entries = space.entries ∧
    ∀ v, (elfLoad space file type s).2.paging.translation space.cr3 v = s.translation space.cr3 v

/-- **Only a thread that was loaded is started**: if `threadCreate` puts the new thread on both
lists, the loader has not failed. -/
def StartsLoaded (S : Sched) (s : Paging) (file : Option FileBytes) (type : AddrspaceType)
    (gs priority parent : ℕ) : Prop :=
  ∀ c, threadCreateElf S s file type gs priority parent = some c →
    c.sched.threadlist = S.threadlist.listPushBack (.elem S.created) →
    c.sched.ready = S.ready.listPushBack (.elem S.created) →
    (elfLoad (addressSpaceNew (pagingCreateUser s).1) file type (elfStart s)).1 ≠ some elfFailed

section

variable {space : AddressSpace} {s : Paging} {file : Option FileBytes} {type : AddrspaceType}

/-- The result for a file with the magic number. -/
theorem elfLoad_of_magic {f : FileBytes} (hmagic : strncmp f elfMagic 4 = 0) :
    elfLoad space (some f) type s =
      let r := elfLoop f type (elfHeader f).programHeaderNumEntries ⟨s, space, false, [], []⟩
      (if r.2.fault then none else if r.1 then some (elfHeader f).programEntryPos
        else some elfFailed, r.2) := by
  simp only [elfLoad, ne_eq, hmagic, not_true_eq_false, if_false]

/-- The result for a file without the magic number. -/
theorem elfLoad_of_not_magic {f : FileBytes} (hmagic : ¬strncmp f elfMagic 4 = 0) :
    elfLoad space (some f) type s = (some elfFailed, ⟨s, space, false, [], []⟩) := by
  simp only [elfLoad, ne_eq, hmagic, not_false_eq_true, if_true]

/-- **The result of the loader, if it returns**: it fails exactly for the files that it does not
accept. -/
theorem elfLoad_failed_iff (hret : (elfLoad space file type s).1 ≠ none) :
    (elfLoad space file type s).1 = some elfFailed ↔ ¬Accepted file := by
  cases file with
  | none =>
    refine iff_of_true rfl ?_
    rintro ⟨f, hf, -⟩
    cases hf
  | some f =>
    have haccept : Accepted (some f) ↔ Accepts f := by
      constructor
      · rintro ⟨g, hg, h⟩
        exact Option.some.inj hg ▸ h
      · exact fun h => ⟨f, rfl, h⟩
    rw [haccept]
    by_cases hmagic : strncmp f elfMagic 4 = 0
    · rw [elfLoad_of_magic hmagic] at hret ⊢
      have hfst :=
        elfLoop_fst f type (elfHeader f).programHeaderNumEntries ⟨s, space, false, [], []⟩
      rcases hr : elfLoop f type (elfHeader f).programHeaderNumEntries ⟨s, space, false, [], []⟩
        with ⟨ok, l⟩
      rw [hr] at hret hfst
      simp only at hret hfst ⊢
      cases hfault : l.fault with
      | true => exact absurd (by simp [hfault]) hret
      | false =>
        cases ok with
        | false =>
          refine iff_of_true (by simp) fun h => ?_
          exact absurd (hfst.mpr h.load) (by simp)
        | true =>
          simp only [Bool.false_eq_true, if_false, if_true, Option.some.injEq]
          constructor
          · exact fun heq h => h.entry heq
          · intro hno
            by_contra hne
            exact hno ⟨hmagic, hfst.mp rfl, hne⟩
    · rw [elfLoad_of_not_magic hmagic]
      exact iff_of_true rfl fun h => hmagic h.magic

/-- A round of the loop adds one entry. -/
theorem elfSegment_length {f : FileBytes} {i : ℕ} {segment : ElfProgram} {l : ElfLoader}
    (hf : l.fault = false) :
    (elfSegment f type i segment l).space.entries.length = l.space.entries.length + 1 := by
  have hfill : ((l.addEntry type segment).fill f i segment).space.entries.length
      = l.space.entries.length + 1 := by
    rw [(fill_rest f i segment _).1]
    simp [ElfLoader.addEntry, addressSpaceAddEntry]
  rw [elfSegment_steps hf]
  split_ifs
  · exact hfill
  · split
    · next space' paging heq =>
        obtain ⟨e, -, he⟩ := Option.map_eq_some_iff.mp heq
        obtain ⟨-, rfl, -⟩ : _ ∧ _ = space' ∧ _ := by simpa using he
        simpa using hfill
    · exact hfill

/-- The loop never removes an entry. -/
theorem elfLoop_length_le (f : FileBytes) (n : ℕ) (l : ElfLoader) :
    (elfLoop f type n l).2.space.entries.length
      ≤ (elfLoop f type (n + 1) l).2.space.entries.length := by
  rw [elfLoop_succ]
  split_ifs with hgo
  · by_cases hf : (elfLoop f type n l).2.fault = true
    · have hsame : elfSegment f type n (elfProgram f n) (elfLoop f type n l).2
          = (elfLoop f type n l).2 := if_pos hf
      simp only [hsame, le_refl]
    · simp only [elfSegment_length (by simpa using hf), Nat.le_succ]
  · exact le_rfl

/-- A file whose first program header is loaded adds to the address space. -/
theorem elfLoop_length_lt (type : AddrspaceType) {f : FileBytes} {n : ℕ} {l : ElfLoader}
    (hf : l.fault = false) (hn : 0 < n) (htype : (elfProgram f 0).type = elfSegmentLoad) :
    l.space.entries.length < (elfLoop f type n l).2.space.entries.length := by
  induction n with
  | zero => omega
  | succ n ih =>
    rcases Nat.eq_zero_or_pos n with rfl | hpos
    · have hzero : elfLoop f type 0 l = (true, l) := rfl
      rw [elfLoop_succ, hzero, if_pos ⟨rfl, htype⟩, elfSegment_length hf]
      exact Nat.lt_succ_self _
    · exact (ih hpos).trans_le (elfLoop_length_le f n l)

/-- A loop that does not load the first program header does nothing. -/
theorem elfLoop_of_first {f : FileBytes} {n : ℕ} {l : ElfLoader}
    (htype : 0 < n → (elfProgram f 0).type ≠ elfSegmentLoad) : (elfLoop f type n l).2 = l := by
  induction n with
  | zero => rfl
  | succ n ih =>
    have hstop : ¬((elfLoop f type n l).1 = true ∧ (elfProgram f n).type = elfSegmentLoad) := by
      rintro ⟨hgo, hlast⟩
      rcases Nat.eq_zero_or_pos n with rfl | hpos
      · exact htype (by omega) hlast
      · exact htype (by omega) ((elfLoop_fst f type n l).mp hgo 0 hpos)
    rw [elfLoop_succ, if_neg hstop]
    exact ih fun hpos => htype (by omega)

/-- **When a failed load is undone**: if it comes to its end before the first segment. -/
theorem elfLoad_undone_iff (hret : (elfLoad space file type s).1 ≠ none) :
    LoadUndone space s file type ↔ Accepted file ∨ LoadsNothing file := by
  have hfailed := elfLoad_failed_iff hret
  constructor
  · intro hundone
    by_contra hno
    push Not at hno
    obtain ⟨hlen, -⟩ := hundone (hfailed.mpr hno.1)
    refine hno.2 fun f hf hmagic hpos htype => ?_
    subst hf
    rw [elfLoad_of_magic hmagic] at hlen
    have hlt := elfLoop_length_lt type (l := ⟨s, space, false, [], []⟩) rfl hpos htype
    simp only at hlen hlt
    omega
  · rintro (hacc | hnothing) hres
    · exact absurd hacc (hfailed.mp hres)
    · have hsame : (elfLoad space file type s).2 = ⟨s, space, false, [], []⟩ := by
        cases file with
        | none => rfl
        | some f =>
          by_cases hmagic : strncmp f elfMagic 4 = 0
          · rw [elfLoad_of_magic hmagic]
            exact elfLoop_of_first (hnothing f rfl hmagic)
          · rw [elfLoad_of_not_magic hmagic]
      rw [hsame]
      exact ⟨rfl, rfl, fun _ => rfl⟩

/-- `threadCreate` starts every thread for which the loader returns. -/
theorem startsLoaded_iff {S : Sched} {gs priority parent : ℕ} (hsched : getMinRuntime S ≠ none)
    (hret : (elfLoad (addressSpaceNew (pagingCreateUser s).1) file type (elfStart s)).1 ≠ none) :
    StartsLoaded S s file type gs priority parent ↔ Accepted file := by
  have hfailed := elfLoad_failed_iff hret
  constructor
  · intro hstarts
    by_contra hno
    obtain ⟨m, hm⟩ := Option.ne_none_iff_exists'.mp hsched
    obtain ⟨entry, hentry⟩ := Option.ne_none_iff_exists'.mp hret
    have hcreate : ∃ c, threadCreateElf S s file type gs priority parent = some c ∧
        c.sched.threadlist = S.threadlist.listPushBack (.elem S.created) ∧
        c.sched.ready = S.ready.listPushBack (.elem S.created) := by
      rw [elfStart] at hentry
      simp only [threadCreateElf, hentry, Option.bind_some, threadCreate, hm, Option.map_some]
      exact ⟨_, rfl, rfl, rfl⟩
    obtain ⟨c, hc, hall, hready⟩ := hcreate
    exact hstarts c hc hall hready (hfailed.mpr hno)
  · intro hacc c _ _ _ hres
    exact hfailed.mp hres hacc

/-- **Failed loads change nothing and start no thread** exactly for the files for which the loader
does not fail. -/
theorem failed_load_iff {s₁ : Paging} {S : Sched} {gs priority parent : ℕ}
    (hsched : getMinRuntime S ≠ none)
    (hret : (elfLoad (addressSpaceNew (pagingCreateUser s).1) file type (elfStart s)).1 ≠ none) :
    LoadUndone space s₁ file type ∧ StartsLoaded S s file type gs priority parent ↔
      Accepted file := by
  rw [startsLoaded_iff hsched hret]
  refine and_iff_right_of_imp fun hacc hres => ?_
  have hret₁ : (elfLoad space file type s₁).1 ≠ none := by simp [hres]
  exact absurd hacc ((elfLoad_failed_iff hret₁).mp hres)

end

/-! ### A program and half of one -/

/-- A file whose second program header is not of type `LOAD`. -/
def twoHeaderFile : FileBytes := Function.update (oneSegmentFile 0x400000 1) 56 2

/-- What the file says of its two segments. -/
theorem twoHeaderFile_fields : strncmp twoHeaderFile elfMagic 4 = 0 ∧
    (elfHeader twoHeaderFile).programHeaderNumEntries = 2 ∧
    (elfProgram twoHeaderFile 0).type = elfSegmentLoad ∧
    ¬(elfProgram twoHeaderFile 1).type = elfSegmentLoad ∧
    (elfProgram twoHeaderFile 0).vaddr = 0x400000 ∧
    (elfProgram twoHeaderFile 0).sizeMem = 1 := by decide +kernel

/-- A program of one byte is accepted. -/
theorem failed_load_iff_one : LoadUndone ⟨(pagingCreateUser (filledWith 0)).1, []⟩
      (elfStart (filledWith 0)) (some (oneSegmentFile 0x400000 1)) .code ∧
    StartsLoaded (initThread Sched.zero) (filledWith 0) (some (oneSegmentFile 0x400000 1)) .code 1 0
      0 := by
  obtain ⟨hs, hr, hroot, hempty⟩ := elfStart_zeros_empty
  have hone := hasOneSegment_oneSegmentFile 0x400000 (by simp) 1 (by omega)
  have hret := (elfLoad_loaded hs hr hroot hempty rfl hone.layout
    (hone.good .code)).2.2.mpr fun i hi _ => by
      rw [hone.num] at hi
      obtain rfl : i = 0 := by omega
      rw [hone.sizeMem_eq]
      decide
  exact (failed_load_iff (by decide) hret).mpr
    ⟨_, rfl, hone.magic, hone.layout.load, by decide +kernel⟩

/-- **A file whose second program header is not of type `LOAD`**: the loader fails and leaves the
entry of its first segment, and the thread is started all the same. -/
theorem failed_load_leaves_segment : ¬LoadUndone ⟨(pagingCreateUser (filledWith 0)).1, []⟩
      (elfStart (filledWith 0)) (some twoHeaderFile) .code ∧
    ¬StartsLoaded (initThread Sched.zero) (filledWith 0) (some twoHeaderFile) .code 1 0 0 := by
  obtain ⟨hs, hr, hroot, hempty⟩ := elfStart_zeros_empty
  obtain ⟨hmagic, hnum, htype, htype', hvaddr, hsize⟩ := twoHeaderFile_fields
  have hcr3 : (elfStart (filledWith 0)).cr3 = (pagingCreateUser (filledWith 0)).1 := rfl
  have hgood := segment_good elfStart_zeros.1 (elfStart_zeros.2.1.mono (by omega)) twoHeaderFile
    .code hsize
  have hret : (elfLoad (addressSpaceNew (pagingCreateUser (filledWith 0)).1) (some twoHeaderFile)
      .code (elfStart (filledWith 0))).1 ≠ none := by
    rw [elfLoad_of_magic hmagic, hnum]
    generalize elfStart (filledWith 0) = s at hs hroot hempty hcr3 hgood ⊢
    generalize (pagingCreateUser (filledWith 0)).1 = r at hr hroot hempty hcr3 hgood ⊢
    have hplaced : (elfProgram twoHeaderFile 0).Placed :=
      ⟨by rw [hvaddr]; decide, by rw [hvaddr, hsize]; decide⟩
    have hfault := (elfSegment_fault_iff (i := 0) (l := ⟨s, ⟨r, []⟩, false, [], []⟩)
      (UserSpace.init hs hr hroot hempty) hcr3 rfl rfl hplaced hgood
      (fun w _ _ => lower_leaf_of_empty hr hempty w) rfl).mpr fun _ => by rw [hsize]; decide
    have hone : elfLoop twoHeaderFile .code 1 ⟨s, ⟨r, []⟩, false, [], []⟩ = (true, elfSegment
        twoHeaderFile .code 0 (elfProgram twoHeaderFile 0) ⟨s, ⟨r, []⟩, false, [], []⟩) := by
      have hzero : elfLoop twoHeaderFile .code 0 ⟨s, ⟨r, []⟩, false, [], []⟩
          = (true, ⟨s, ⟨r, []⟩, false, [], []⟩) := rfl
      rw [elfLoop_succ, hzero, if_pos ⟨rfl, htype⟩]
    have htwo : elfLoop twoHeaderFile .code 2 ⟨s, addressSpaceNew r, false, [], []⟩
        = (false, elfSegment twoHeaderFile .code 0 (elfProgram twoHeaderFile 0)
          ⟨s, ⟨r, []⟩, false, [], []⟩) := by
      rw [addressSpaceNew, elfLoop_succ, hone, if_neg fun h => htype' h.2]
    simp only [htwo, hfault]
    simp
  have hno : ¬Accepted (some twoHeaderFile) := by
    rintro ⟨f, hf, hacc⟩
    obtain rfl := Option.some.inj hf
    exact htype' (hacc.load 1 (by rw [hnum]; decide))
  refine ⟨fun h => ?_, fun h => hno ((startsLoaded_iff (by decide) hret).mp h)⟩
  rcases (elfLoad_undone_iff hret).mp h with hacc | hnothing
  · exact hno hacc
  · exact hnothing _ rfl hmagic (by rw [hnum]; decide) htype

end AnglOS
