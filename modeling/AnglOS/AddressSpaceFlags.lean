import AnglOS.PagingRights
import AnglOS.PagingFlags

/-!
# Recorded and Installed Permissions

An entry of an address space records the flags of its range, and the leaf entries of its pages
have them installed. Adding an entry installs them in new leaf entries. Changing them overwrites
the record, but the leaf entries are masked first, and the mask keeps the execute-disable bit.

## Main results

* `recorded_permissions_of_run` — record and leaf entries agree in every state of a run that never
  makes an entry executable that is not;
* `entry_covers_iff` — an entry covers all its bytes, before and after a change of its flags,
  exactly when its last byte is on one of the pages that its size alone asks for.
-/

namespace AnglOS

/-! ### Permissions of a leaf entry -/

/-- **A leaf entry has the permissions** that the flags of an address-space entry ask for. -/
structure LeafAgrees (flags : BitVec 32) (e : BitVec 64) : Prop where
  present : e &&& pageFlagPresent ≠ 0
  write : e &&& pageFlagReadwrite ≠ 0 ↔ flags &&& addrspaceFlagWriteable ≠ 0
  user : e &&& pageFlagUsersuper ≠ 0 ↔ flags &&& addrspaceFlagUser ≠ 0
  cachedble : e &&& pageFlagCachedble ≠ 0 ↔ flags &&& addrspaceFlagUncacheable ≠ 0
  execdble : e &&& pageFlagExecdble ≠ 0 ↔ flags &&& addrspaceFlagExecutable = 0

/-- The bits of a leaf entry that `convAddrSpaceFlagsToPaging` speaks about. -/
abbrev permissionMask : BitVec 64 := 0x8000000000000017

section

variable {flags old : BitVec 32} {e : BitVec 64}

/-- The paging flags of an entry have its permissions, and no other bits. -/
theorem convAddrSpaceFlagsToPaging_agrees (flags : BitVec 32) :
    LeafAgrees flags (convAddrSpaceFlagsToPaging flags) ∧
      convAddrSpaceFlagsToPaging flags &&& permissionMask = convAddrSpaceFlagsToPaging flags := by
  simp only [convAddrSpaceFlagsToPaging]
  split_ifs <;> refine ⟨⟨by decide, ?_, ?_, ?_, ?_⟩, by decide⟩ <;>
    first
      | exact iff_of_true (by decide) (by assumption)
      | exact iff_of_false (by decide) (by assumption)

/-- A leaf entry with the bits of the flags has their permissions. -/
theorem LeafAgrees.of_mask (h : e &&& permissionMask = convAddrSpaceFlagsToPaging flags) :
    LeafAgrees flags e := by
  have hbit : ∀ b, permissionMask &&& b = b →
      e &&& b = convAddrSpaceFlagsToPaging flags &&& b := by
    intro b hb
    rw [← h, BitVec.and_assoc, hb]
  obtain ⟨⟨hp, hw, hu, hc, hx⟩, -⟩ := convAddrSpaceFlagsToPaging_agrees flags
  rw [← hbit _ (by decide)] at hp hw hu hc hx
  exact ⟨hp, hw, hu, hc, hx⟩

/-- The execute-disable bit of a leaf entry survives a change of flags. -/
theorem vflags_execdble (e flags : BitVec 64) :
    ((e &&& vflagsMask) ||| flags) &&& pageFlagExecdble
      = (e &&& pageFlagExecdble) ||| (flags &&& pageFlagExecdble) := by
  have hmask : vflagsMask &&& pageFlagExecdble = pageFlagExecdble := by decide
  rw [BitVec.and_or_distrib_right, BitVec.and_assoc, hmask]

/-- The execute-disable bit of the paging flags of an entry. -/
theorem convAddrSpaceFlagsToPaging_execdble (flags : BitVec 32) :
    convAddrSpaceFlagsToPaging flags &&& pageFlagExecdble
      = if flags &&& addrspaceFlagExecutable = 0 then pageFlagExecdble else 0 := by
  simp only [convAddrSpaceFlagsToPaging]
  split_ifs <;> rfl

/-- **Changing flags installs them** in a leaf entry unless it makes the page executable that was
not. -/
theorem vflags_mask (h : e &&& permissionMask = convAddrSpaceFlagsToPaging old)
    (hexec : flags &&& addrspaceFlagExecutable ≠ 0 → old &&& addrspaceFlagExecutable ≠ 0) :
    ((e &&& vflagsMask) ||| convAddrSpaceFlagsToPaging flags) &&& permissionMask
      = convAddrSpaceFlagsToPaging flags := by
  have hsub := (convAddrSpaceFlagsToPaging_agrees flags).2
  have hmask : vflagsMask &&& permissionMask = permissionMask &&& pageFlagExecdble := by decide
  rw [BitVec.and_or_distrib_right, BitVec.and_assoc, hmask, hsub, ← BitVec.and_assoc, h,
    convAddrSpaceFlagsToPaging_execdble]
  split_ifs with hx
  · have hx' : flags &&& addrspaceFlagExecutable = 0 := by
      by_contra hne
      exact hexec hne hx
    have hbit := convAddrSpaceFlagsToPaging_execdble flags
    rw [if_pos hx'] at hbit
    rw [← hbit]
    ext i hi
    cases hb : (convAddrSpaceFlagsToPaging flags)[i] <;> simp [hb]
  · exact BitVec.zero_or

end

/-! ### Changing flags keeps the tables -/

section

variable {s : Paging} {root v n : ℕ} {flags : BitVec 64}

/-- What storing leaf entries keeps, `vflagsCR3` keeps. -/
theorem vflagsCR3_induction (P : Paging → Prop) (hlock : ∀ s b, P s → P { s with lock := b })
    (hset : ∀ s t v e, s.tableAt root (pagePath v) = some t → P s → P (s.setEntry t (pageP1E v) e))
    (hs : P s) : P (vflagsCR3 s v n flags root) := by
  refine hlock _ false (loop_invariant (fun _ => P) (hlock s true hs) ?_)
  intro j _ s' hs'
  rcases vflagsHelper_cases (add64 v (j * pageSize)) root flags s' with ⟨h, -⟩ | ⟨t, ht, h⟩
  · rw [h]
    exact hs'
  · rw [h]
    exact hset _ _ _ _ ht hs'

theorem Orderly.vflagsCR3 (h : Orderly s root) : Orderly (vflagsCR3 s v n flags root) root :=
  vflagsCR3_induction (fun s => Orderly s root) (fun _ b hs => hs.withLock b)
    (fun _ _ _ e ht hs => hs.setLeaf ht e) h

end

/-! ### Histories of an address space -/

/-- An address space with its page tables. -/
structure MappedSpace where
  space : AddressSpace
  paging : Paging

/-- An operation on an address space. -/
inductive SpaceEdit
  | addEntry (type : AddrspaceType) (flags : BitVec 32) (size start : ℕ)
  | changeFlags (entry : ℕ) (flags : BitVec 32)

/-- The page of `w` is one of the pages of the entry. -/
def AddressSpaceEntry.Holds (e : AddressSpaceEntry) (w : ℕ) : Prop :=
  InRange (alignToPage e.addrStart) (getNumPages e.size) w

namespace SpaceEdit

/-- The state after the operation. -/
def exec (S : MappedSpace) : SpaceEdit → Option MappedSpace
  | addEntry type flags size start =>
    let r := addressSpaceAddEntry S.space type flags size start S.paging
    some ⟨r.1, r.2⟩
  | changeFlags entry flags =>
    (addressSpaceChangeFlags S.space entry flags S.paging).map fun r => ⟨r.2.1, r.2.2⟩

/-- A step of a history: a new range shares no page with an entry, and the index of an entry is
below `num_entries`. -/
structure Step (c : SpaceEdit) (S S' : MappedSpace) : Prop where
  exec : c.exec S = some S'
  apart : match c with
    | addEntry _ _ size start => ∀ e ∈ S.space.entries, ∀ w,
        InRange (alignToPage start) (getNumPages size) w → ¬e.Holds w
    | changeFlags .. => True

/-- What makes a step install what it records: the frames that it takes are ready and no page but
the last is at address 0, and an entry is made executable only if it is. -/
def Sound (c : SpaceEdit) (S : MappedSpace) : Prop :=
  match c with
  | addEntry _ _ size start =>
      FramesReady S.paging (rangeUses S.paging S.space.cr3 (alignToPage start) (getNumPages size)
        [.data]) ∧
      ∀ i, i + 1 < getNumPages size → add64 (alignToPage start) (i * pageSize) ≠ 0
  | changeFlags entry flags => flags &&& addrspaceFlagExecutable ≠ 0 →
      ∀ e, S.space.entries[entry]? = some e → e.flags &&& addrspaceFlagExecutable ≠ 0

end SpaceEdit

/-- **Record and leaf entries agree** on every page of every entry. -/
def MappedSpace.Agrees (S : MappedSpace) : Prop :=
  ∀ e ∈ S.space.entries, ∀ w, e.Holds w → LeafAgrees e.flags (S.paging.leaf S.space.cr3 w)

/-- What every sound step keeps. -/
structure MappedSpace.Ok (S : MappedSpace) : Prop where
  orderly : Orderly S.paging S.space.cr3
  apart : ∀ (i j : ℕ) (e e' : AddressSpaceEntry), i ≠ j → S.space.entries[i]? = some e →
    S.space.entries[j]? = some e' → ∀ w, e.Holds w → ¬e'.Holds w
  leaves : ∀ (i : ℕ) (e : AddressSpaceEntry), S.space.entries[i]? = some e → ∀ w, e.Holds w →
    S.paging.leaf S.space.cr3 w &&& permissionMask = convAddrSpaceFlagsToPaging e.flags

section

variable {S : MappedSpace}

theorem MappedSpace.Ok.agrees (h : S.Ok) : S.Agrees := by
  intro e he w hw
  obtain ⟨i, hi⟩ := List.mem_iff_getElem?.mp he
  exact LeafAgrees.of_mask (h.leaves i e hi w hw)

/-- The pages of a new entry. -/
theorem vmallocCR3_mask {s : Paging} {root v n : ℕ} {flags : BitVec 32} (h : Orderly s root)
    (hgood : ∀ e ∈ (vmallocCR3 s v n (convAddrSpaceFlagsToPaging flags) root).2.log, e.Good)
    {w : ℕ} (hw : ∃ i, Reached (fun i => add64 v (i * pageSize)) n i ∧
      pageNumber w = pageNumber (add64 v (i * pageSize))) :
    (vmallocCR3 s v n (convAddrSpaceFlagsToPaging flags) root).2.leaf root w &&& permissionMask
      = convAddrSpaceFlagsToPaging flags := by
  obtain ⟨hflags, hpres⟩ := convAddrSpaceFlagsToPaging_bits flags
  have hentry := (vmallocCR3_leaf h.supply h.tree hflags hpres hgood w).1 hw
  rw [hentry.and (by rw [FlagBits]; decide)]
  exact (convAddrSpaceFlagsToPaging_agrees flags).2

/-- **Adding an entry.** -/
theorem MappedSpace.Ok.addEntry (h : S.Ok) {type : AddrspaceType} {flags : BitVec 32}
    {size start : ℕ}
    (hapart : ∀ e ∈ S.space.entries, ∀ w, InRange (alignToPage start) (getNumPages size) w →
      ¬e.Holds w)
    (hframes : FramesReady S.paging (rangeUses S.paging S.space.cr3 (alignToPage start)
      (getNumPages size) [.data]))
    (hnull : ∀ i, i + 1 < getNumPages size → add64 (alignToPage start) (i * pageSize) ≠ 0) :
    MappedSpace.Ok ⟨(addressSpaceAddEntry S.space type flags size start S.paging).1,
      (addressSpaceAddEntry S.space type flags size start S.paging).2⟩ := by
  obtain ⟨hflags, hpres⟩ := convAddrSpaceFlagsToPaging_bits flags
  have hgood := (vmallocCR3_good_iff h.orderly hflags hpres _ _).mpr hframes
  obtain ⟨hre, hsame⟩ := vmallocCR3_reshapes h.orderly.supply h.orderly.tree hflags hpres hgood
  have hcases : ∀ {i e}, (S.space.entries ++ [⟨type, flags, size, start⟩])[i]? = some e →
      S.space.entries[i]? = some e ∨
        i = S.space.entries.length ∧ e = ⟨type, flags, size, start⟩ := by
    intro i e hi
    rcases lt_trichotomy i S.space.entries.length with hlt | rfl | hgt
    · rw [List.getElem?_append_left hlt] at hi
      exact Or.inl hi
    · rw [List.getElem?_concat_length] at hi
      exact Or.inr ⟨rfl, (Option.some.inj hi).symm⟩
    · rw [List.getElem?_eq_none (by simp; omega)] at hi
      cases hi
  refine ⟨⟨hre.supply, hre.tree, hgood⟩, fun i j e e' hij hi hj w hw hw' => ?_,
    fun i e hi w hw => ?_⟩
  · rcases hcases hi with hi | ⟨rfl, rfl⟩ <;> rcases hcases hj with hj | ⟨rfl, rfl⟩
    · exact h.apart i j e e' hij hi hj w hw hw'
    · exact hapart e (List.mem_of_getElem? hi) w hw' hw
    · exact hapart e' (List.mem_of_getElem? hj) w hw hw'
    · exact hij rfl
  · rcases hcases hi with hi | ⟨-, rfl⟩
    · have hleaf := hsame w fun j hj hpage =>
        hapart e (List.mem_of_getElem? hi) w ⟨j, hj, hpage⟩ hw
      exact (congrArg (· &&& permissionMask) hleaf).trans (h.leaves i e hi w hw)
    · obtain ⟨j, hj, hpage⟩ : InRange (alignToPage start) (getNumPages size) w := hw
      exact vmallocCR3_mask h.orderly hgood ⟨j, ⟨hj, fun k hk => hnull k (by omega)⟩, hpage⟩

/-- A page with the permissions of an entry has its level-1 table. -/
theorem tableAt_of_mask {s : Paging} {root w : ℕ} {flags : BitVec 32}
    (h : s.leaf root w &&& permissionMask = convAddrSpaceFlagsToPaging flags) :
    s.tableAt root (pagePath w) ≠ none := by
  intro hnone
  have hpres := (convAddrSpaceFlagsToPaging_agrees flags).1.present
  rw [← h, leaf_eq_zero hnone] at hpres
  exact hpres (by decide)

/-- **A page keeps the execute-disable bit** when its flags are changed. -/
theorem vflags_not_executable {e : BitVec 64} {old new : BitVec 32}
    (h : e &&& permissionMask = convAddrSpaceFlagsToPaging old)
    (hold : old &&& addrspaceFlagExecutable = 0) (hnew : new &&& addrspaceFlagExecutable ≠ 0) :
    ¬LeafAgrees new ((e &&& vflagsMask) ||| convAddrSpaceFlagsToPaging new) := by
  intro hagrees
  have hbit : e &&& pageFlagExecdble = pageFlagExecdble := by
    have hmask : permissionMask &&& pageFlagExecdble = pageFlagExecdble := by decide
    have hconv := convAddrSpaceFlagsToPaging_execdble old
    rw [if_pos hold, ← h, BitVec.and_assoc, hmask] at hconv
    exact hconv
  refine hnew (hagrees.execdble.mp ?_)
  rw [vflags_execdble, hbit, convAddrSpaceFlagsToPaging_execdble, if_neg hnew]
  decide

/-- **Changing the flags of an entry.** -/
theorem MappedSpace.Ok.changeFlags (h : S.Ok) {entry : ℕ} {flags : BitVec 32}
    {e : AddressSpaceEntry} (he : S.space.entries[entry]? = some e)
    (hexec : flags &&& addrspaceFlagExecutable ≠ 0 → e.flags &&& addrspaceFlagExecutable ≠ 0) :
    MappedSpace.Ok ⟨{ S.space with entries := S.space.entries.set entry { e with flags := flags } },
      vflagsCR3 S.paging (alignToPage e.addrStart) (getNumPages e.size)
        (convAddrSpaceFlagsToPaging flags) S.space.cr3⟩ := by
  have hleaf := (vflagsCR3_leaf h.orderly.tree.root_mod h.orderly.tree.unshared
    (alignToPage e.addrStart) (getNumPages e.size) (convAddrSpaceFlagsToPaging flags)).2
  -- an entry after the change is an entry before it with the same pages
  have hcases : ∀ {i e'}, (S.space.entries.set entry { e with flags := flags })[i]? = some e' →
      (i ≠ entry ∧ S.space.entries[i]? = some e') ∨
        (i = entry ∧ e' = { e with flags := flags }) := by
    intro i e' hi
    by_cases hne : i = entry
    · subst hne
      rw [List.getElem?_set_self (List.getElem?_eq_some_iff.mp he).1] at hi
      exact Or.inr ⟨rfl, (Option.some.inj hi).symm⟩
    · rw [List.getElem?_set_ne (Ne.symm hne)] at hi
      exact Or.inl ⟨hne, hi⟩
  refine ⟨h.orderly.vflagsCR3, fun i j e₁ e₂ hij hi hj w hw hw' => ?_, fun i e' hi w hw => ?_⟩
  · rcases hcases hi with ⟨-, hi'⟩ | ⟨rfl, rfl⟩ <;> rcases hcases hj with ⟨-, hj'⟩ | ⟨rfl, rfl⟩
    · exact h.apart i j e₁ e₂ hij hi' hj' w hw hw'
    · exact h.apart i _ e₁ e hij hi' he w hw hw'
    · exact h.apart _ j e e₂ hij he hj' w hw hw'
    · exact hij rfl
  · rcases hcases hi with ⟨hne, hi⟩ | ⟨rfl, rfl⟩
    · have hout : ¬InRange (alignToPage e.addrStart) (getNumPages e.size) w :=
        h.apart i entry e' e hne hi he w hw
      exact (congrArg (· &&& permissionMask) ((hleaf w).trans (if_neg fun hin => hout hin.1))).trans
        (h.leaves i e' hi w hw)
    · have hold := h.leaves _ e he w hw
      have htab := tableAt_of_mask hold
      exact (congrArg (· &&& permissionMask) ((hleaf w).trans (if_pos ⟨hw, htab⟩))).trans
        (vflags_mask hold hexec)

/-- **One sound step.** -/
theorem MappedSpace.Ok.step {S' : MappedSpace} {c : SpaceEdit} (h : S.Ok) (hstep : c.Step S S')
    (hsound : c.Sound S) : S'.Ok := by
  cases c with
  | addEntry type flags size start =>
    obtain rfl := Option.some.inj hstep.exec
    exact h.addEntry hstep.apart hsound.1 hsound.2
  | changeFlags entry flags =>
    obtain ⟨r, hr, rfl⟩ := Option.map_eq_some_iff.mp hstep.exec
    obtain ⟨e, he, rfl⟩ := Option.map_eq_some_iff.mp hr
    exact h.changeFlags he fun hx => hsound hx e he

/-- **Recorded and installed permissions agree** in every state of a run of sound steps. -/
theorem recorded_permissions_of_run {S' : MappedSpace} {cs : List SpaceEdit}
    (hempty : S.space.entries = []) (horderly : Orderly S.paging S.space.cr3)
    (hrun : Run (fun c S S' => c.Step S S' ∧ c.Sound S) S cs S') : S'.Agrees := by
  have hinit : S.Ok := by
    refine ⟨horderly, fun i j e e' _ hi => ?_, fun i e hi => ?_⟩ <;> simp [hempty] at hi
  have hok : S'.Ok := hrun.invariant (O := fun _ => True)
    (fun c S S' _ hs hstep => hs.step hstep.1 hstep.2) (fun _ _ => trivial) hinit
  exact hok.agrees

end

/-- An address space without entries, in a memory full of zeros. -/
def emptySpace : MappedSpace := ⟨⟨0x1000, []⟩, filledWith 0⟩

/-- The address space with one entry of one page. -/
def onePageSpace (flags : BitVec 32) : MappedSpace :=
  ⟨(addressSpaceAddEntry emptySpace.space .data flags pageSize 0x400000 emptySpace.paging).1,
    (addressSpaceAddEntry emptySpace.space .data flags pageSize 0x400000 emptySpace.paging).2⟩

theorem emptySpace_step (flags : BitVec 32) :
    (SpaceEdit.addEntry .data flags pageSize 0x400000).Step emptySpace (onePageSpace flags) ∧
      (SpaceEdit.addEntry .data flags pageSize 0x400000).Sound emptySpace := by
  refine ⟨⟨rfl, fun e he => absurd he List.not_mem_nil⟩,
    filledWith_framesReady (by decide), fun i hi => ?_⟩
  exact absurd hi (by rw [show getNumPages pageSize = 1 from rfl]; omega)

/-- The state after a change of the flags of the entry. -/
def changedSpace (flags new : BitVec 32) : MappedSpace :=
  ⟨⟨0x1000, [⟨.data, new, pageSize, 0x400000⟩]⟩, vflagsCR3 (onePageSpace flags).paging
    (alignToPage 0x400000) (getNumPages pageSize) (convAddrSpaceFlagsToPaging new) 0x1000⟩

theorem onePageSpace_step (flags new : BitVec 32) :
    (SpaceEdit.changeFlags 0 new).Step (onePageSpace flags) (changedSpace flags new) :=
  ⟨rfl, trivial⟩

/-- A page of a program is written first and then made read-only. -/
theorem recorded_permissions_of_run_readonly :
    Run (fun c S S' => c.Step S S' ∧ c.Sound S) emptySpace
      [SpaceEdit.addEntry .data 3 pageSize 0x400000, .changeFlags 0 1] (changedSpace 3 1) ∧
    (changedSpace 3 1).Agrees := by
  have hrun : Run (fun (c : SpaceEdit) S S' => c.Step S S' ∧ c.Sound S) emptySpace
      [SpaceEdit.addEntry .data 3 pageSize 0x400000, .changeFlags 0 1] (changedSpace 3 1) := by
    refine ((Run.nil _).append_one _ (emptySpace_step 3)).append_one _ ⟨onePageSpace_step 3 1, ?_⟩
    intro _ e he
    obtain rfl := Option.some.inj he
    decide
  exact ⟨hrun, recorded_permissions_of_run rfl filledWith_ready.orderly hrun⟩

/-- **A page that is not executable stays so** when its flags are changed. -/
theorem execute_disable_stays : Run SpaceEdit.Step emptySpace
      [.addEntry .data 2 pageSize 0x400000, .changeFlags 0 3] (changedSpace 2 3) ∧
    ¬(changedSpace 2 3).Agrees := by
  have hok : (onePageSpace 2).Ok := by
    have hinit : emptySpace.Ok :=
      ⟨filledWith_ready.orderly, fun i j e e' _ hi => by simp [emptySpace] at hi,
        fun i e hi => by simp [emptySpace] at hi⟩
    exact hinit.step (emptySpace_step 2).1 (emptySpace_step 2).2
  refine ⟨((Run.nil _).append_one _ (emptySpace_step 2).1).append_one _ (onePageSpace_step 2 3),
    fun h => ?_⟩
  have hold : (onePageSpace 2).paging.leaf 0x1000 0x400000 &&& permissionMask
      = convAddrSpaceFlagsToPaging 2 := hok.leaves 0 _ rfl 0x400000 ⟨0, by decide, rfl⟩
  have hagrees := h ⟨.data, 3, pageSize, 0x400000⟩ List.mem_cons_self 0x400000 ⟨0, by decide, rfl⟩
  have hleaf := (vflagsCR3_leaf hok.orderly.tree.root_mod hok.orderly.tree.unshared
    (alignToPage 0x400000) (getNumPages pageSize) (convAddrSpaceFlagsToPaging 3)).2 0x400000
  have hnew := hleaf.trans (if_pos ⟨⟨0, by decide, rfl⟩, tableAt_of_mask hold⟩)
  exact vflags_not_executable hold (by decide) (by decide) (hnew ▸ hagrees)

/-! ### The bytes of an entry -/

/-- The loop over the pages of an entry gets to the page of the address. -/
def OnEntryPages (size start a : ℕ) : Prop :=
  ∃ i, Reached (fun i => add64 (alignToPage start) (i * pageSize)) (getNumPages size) i ∧
    pageNumber a = pageNumber (add64 (alignToPage start) (i * pageSize))

/-- **The size asks for enough pages**: its last byte is on one of them, although the start need not
be the start of a page, or they are all pages that there are; and the loop over them does not stop
after the page at address 0. -/
structure EnoughPages (size start : ℕ) : Prop where
  last : start % pageSize + size ≤ getNumPages size * pageSize ∨ 2 ^ 36 ≤ getNumPages size
  null : alignToPage start = 0 → getNumPages size ≤ 1

section

variable {size start : ℕ}

/-- The pages of an entry that does not wrap. -/
theorem entryPage_eq {i : ℕ} (hsize : size < 2 ^ 64) (hend : start + size ≤ 2 ^ 64)
    (hi : i < getNumPages size) :
    add64 (alignToPage start) (i * pageSize) = alignToPage start + i * pageSize := by
  apply add64_eq
  simp only [getNumPages, add64, alignToPage, pageSize] at hi ⊢
  omega

/-- **All bytes of an entry are on pages that its loop gets to** exactly when the size asks for
enough pages. -/
theorem onEntryPages_iff (hpos : 0 < size) (hsize : size < 2 ^ 64) (hend : start + size ≤ 2 ^ 64) :
    (∀ a, start ≤ a → a < start + size → OnEntryPages size start a) ↔ EnoughPages size start := by
  constructor
  · intro hall
    refine ⟨?_, fun hnull => ?_⟩
    · -- the first address that is not before the end of the last page
      by_contra hno
      push Not at hno
      obtain ⟨i, ⟨hi, -⟩, hpage⟩ := hall
        (max start (alignToPage start + getNumPages size * pageSize)) (le_max_left _ _)
        (by simp only [alignToPage, pageSize] at hno ⊢; omega)
      rw [entryPage_eq hsize hend hi] at hpage
      simp only [pageNumber, alignToPage, pageSize] at hno hpage
      omega
    · -- the second page
      by_contra hno
      obtain ⟨i, ⟨hi, hne⟩, hpage⟩ := hall pageSize
        (by simp only [alignToPage, pageSize] at hnull ⊢; omega)
        (by simp only [getNumPages, add64, pageSize] at hno ⊢; omega)
      have hzero : i = 0 := by
        by_contra hi'
        refine hne 0 (by omega) ?_
        simp [hnull, add64]
      subst hzero
      simp [hnull, add64, pageNumber, pageSize] at hpage
  · rintro ⟨hlast, hnull⟩ a ha ha'
    have hreach : ∀ i, i < getNumPages size → pageNumber a
        = pageNumber (alignToPage start + i * pageSize) → OnEntryPages size start a := by
      intro i hi hpage
      refine ⟨i, ⟨hi, fun j hj => ?_⟩, by rw [entryPage_eq hsize hend hi]; exact hpage⟩
      intro hz
      have hsum : alignToPage start + j * pageSize = 0 :=
        (entryPage_eq hsize hend (by omega)).symm.trans hz
      have hone := hnull (by omega)
      omega
    rcases hlast with hlast | hlast
    · refine hreach ((a - alignToPage start) / pageSize) ?_ ?_
      · simp only [alignToPage, pageSize] at hlast ⊢
        omega
      · simp only [pageNumber, alignToPage, pageSize]
        omega
    · refine hreach ((a / pageSize + (2 ^ 36 - start / pageSize % 2 ^ 36)) % 2 ^ 36) ?_ ?_
      · omega
      · simp only [pageNumber, alignToPage, pageSize]
        omega

end

/-- **An entry covers all its bytes**: after it was added every address of the range is translated
with the permissions of its flags, and after a change of its flags with those of the new ones. -/
structure CoversBytes (space : AddressSpace) (s : Paging) (type : AddrspaceType)
    (flags new : BitVec 32) (size start : ℕ) : Prop where
  added : ∀ a, start ≤ a → a < start + size →
    LeafAgrees flags ((addressSpaceAddEntry space type flags size start s).2.leaf space.cr3 a)
  changed : ∃ r, addressSpaceChangeFlags (addressSpaceAddEntry space type flags size start s).1
      space.entries.length new (addressSpaceAddEntry space type flags size start s).2 = some r ∧
    ∀ a, start ≤ a → a < start + size → LeafAgrees new (r.2.2.leaf space.cr3 a)

section

variable {space : AddressSpace} {s : Paging} {type : AddrspaceType} {flags new : BitVec 32}
  {size start : ℕ}

/-- The leaf entries of the pages of a new entry, before and after a change of its flags. -/
theorem addressSpaceAddEntry_leaf (type : AddrspaceType) (flags : BitVec 32) (start : ℕ)
    (horderly : Orderly s space.cr3)
    (hframes : FramesReady s
      (rangeUses s space.cr3 (alignToPage start) (getNumPages size) [.data])) {a : ℕ} :
    let s₁ := (addressSpaceAddEntry space type flags size start s).2
    Tree s₁ space.cr3 ∧
      (OnEntryPages size start a →
        s₁.leaf space.cr3 a &&& permissionMask = convAddrSpaceFlagsToPaging flags) ∧
      (¬OnEntryPages size start a → s₁.leaf space.cr3 a = s.leaf space.cr3 a) := by
  obtain ⟨hflags, hpres⟩ := convAddrSpaceFlagsToPaging_bits flags
  have hgood := (vmallocCR3_good_iff horderly hflags hpres _ _).mpr hframes
  have hre := (vmallocCR3_reshapes horderly.supply horderly.tree hflags hpres hgood).1
  refine ⟨hre.tree, vmallocCR3_mask horderly hgood, fun hno => ?_⟩
  exact (vmallocCR3_leaf horderly.supply horderly.tree hflags hpres hgood a).2
    fun i hi hpage => hno ⟨i, hi, hpage⟩

/-- The change of the flags of the entry that was added last. -/
theorem addressSpaceChangeFlags_last (space : AddressSpace) (s : Paging) (type : AddrspaceType)
    (flags new : BitVec 32) (size start : ℕ) :
    ∃ space', addressSpaceChangeFlags (addressSpaceAddEntry space type flags size start s).1
      space.entries.length new (addressSpaceAddEntry space type flags size start s).2
        = some (flags, space', vflagsCR3 (addressSpaceAddEntry space type flags size start s).2
          (alignToPage start) (getNumPages size) (convAddrSpaceFlagsToPaging new) space.cr3) := by
  have hlast : (addressSpaceAddEntry space type flags size start s).1.entries[space.entries.length]?
      = some ⟨type, flags, size, start⟩ := List.getElem?_concat_length
  exact ⟨_, by rw [addressSpaceChangeFlags, hlast, Option.map_some]; rfl⟩

/-- Where nothing was mapped, an address that is translated is on a page that the loop got to. -/
theorem onEntryPages_of_added (horderly : Orderly s space.cr3)
    (hframes : FramesReady s
      (rangeUses s space.cr3 (alignToPage start) (getNumPages size) [.data]))
    (hzero : ∀ a, start ≤ a → a < start + size → s.leaf space.cr3 a = 0)
    (hadded : ∀ a, start ≤ a → a < start + size →
      LeafAgrees flags ((addressSpaceAddEntry space type flags size start s).2.leaf space.cr3 a)) :
    ∀ a, start ≤ a → a < start + size → OnEntryPages size start a := by
  intro a ha ha'
  by_contra hno
  have hpres := (hadded a ha ha').present
  rw [(addressSpaceAddEntry_leaf type flags start horderly hframes).2.2 hno, hzero a ha ha']
    at hpres
  exact hpres (by decide)

/-- **When an entry covers all its bytes**: it does if the size asks for enough pages and the change
does not make it executable; and if nothing was mapped in the range before, only then. -/
theorem entry_covers_iff (horderly : Orderly s space.cr3)
    (hframes : FramesReady s
      (rangeUses s space.cr3 (alignToPage start) (getNumPages size) [.data]))
    (hpos : 0 < size) (hsize : size < 2 ^ 64) (hend : start + size ≤ 2 ^ 64) :
    (EnoughPages size start ∧
        (new &&& addrspaceFlagExecutable ≠ 0 → flags &&& addrspaceFlagExecutable ≠ 0) →
      CoversBytes space s type flags new size start) ∧
    ((∀ a, start ≤ a → a < start + size → s.leaf space.cr3 a = 0) →
      CoversBytes space s type flags new size start → EnoughPages size start ∧
        (new &&& addrspaceFlagExecutable ≠ 0 → flags &&& addrspaceFlagExecutable ≠ 0)) := by
  have hadd := fun a => addressSpaceAddEntry_leaf type flags start horderly hframes (a := a)
  have htree := (hadd start).1
  obtain ⟨space', hchange⟩ := addressSpaceChangeFlags_last space s type flags new size start
  -- the leaf entry of a page that the loop gets to, after the change
  have hleaf : ∀ a, OnEntryPages size start a → ∀ r,
      addressSpaceChangeFlags (addressSpaceAddEntry space type flags size start s).1
        space.entries.length new (addressSpaceAddEntry space type flags size start s).2 = some r →
      r.2.2.leaf space.cr3 a
        = ((addressSpaceAddEntry space type flags size start s).2.leaf space.cr3 a &&& vflagsMask)
          ||| convAddrSpaceFlagsToPaging new := by
    intro a ha r hr
    rw [hchange] at hr
    obtain rfl := Option.some.inj hr
    have hrange : InRange (alignToPage start) (getNumPages size) a := by
      obtain ⟨i, hi, hpage⟩ := ha
      exact ⟨i, hi.1, hpage⟩
    exact ((vflagsCR3_leaf htree.root_mod htree.unshared _ _ _).2 a).trans
      (if_pos ⟨hrange, tableAt_of_mask ((hadd a).2.1 ha)⟩)
  rw [← onEntryPages_iff hpos hsize hend]
  constructor
  · rintro ⟨hpages, hexec⟩
    refine ⟨fun a ha ha' => LeafAgrees.of_mask ((hadd a).2.1 (hpages a ha ha')), _, hchange,
      fun a ha ha' => ?_⟩
    rw [hleaf a (hpages a ha ha') _ hchange]
    exact LeafAgrees.of_mask (vflags_mask ((hadd a).2.1 (hpages a ha ha')) hexec)
  · rintro hzero ⟨hadded, r, hr, hchanged⟩
    have hpages := onEntryPages_of_added horderly hframes hzero hadded
    have hfirst := hpages start le_rfl (by omega)
    refine ⟨hpages, fun hnew hold => ?_⟩
    have hagrees := hchanged start le_rfl (by omega)
    rw [hleaf start hfirst r hr] at hagrees
    exact vflags_not_executable ((hadd start).2.1 hfirst) hold hnew hagrees

end

/-- A hundred bytes in the middle of a page, written first and then made read-only. -/
theorem entry_covers_iff_inside :
    CoversBytes emptySpace.space emptySpace.paging .data 3 1 100 0x400010 :=
  (entry_covers_iff filledWith_ready.orderly (filledWith_framesReady (by decide)) (by decide)
    (by decide) (by decide)).1
    ⟨⟨Or.inl (by decide), fun h => absurd h (by decide)⟩, fun _ => by decide⟩

/-- **Two bytes across the end of a page**: the page of the second one is not mapped. -/
theorem entry_misses_last_byte :
    ¬CoversBytes emptySpace.space emptySpace.paging .data 2 2 2 0x400FFF := by
  intro h
  have hzero : ∀ a, (filledWith 0).leaf 0x1000 a = 0 := fun a => filledWith_entryAt _ _
  have hpages := onEntryPages_of_added filledWith_ready.orderly
    (filledWith_framesReady (by decide)) (fun a _ _ => hzero a) h.added
  rcases ((onEntryPages_iff (by decide) (by decide) (by decide)).mp hpages).last with hlast | hlast
  · exact absurd hlast (by decide)
  · exact absurd hlast (by decide)

end AnglOS
