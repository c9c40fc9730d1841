import AnglOS.AddressSpaceFlags
import AnglOS.ElfLoad

/-!
# The Image of a Program

What the user half of a new address space holds after the segments of a file were loaded: one
entry for each program header, the bytes that the loader copied, and leaf entries with the
permissions of the headers. The loader copies `size_mem` bytes of the file, whatever `size_file`
says, and a segment of several pages at address 0 stops it.

* `ElfLayout` — files as the linker script lays them out.
* `Loaded` — the segments up to a given one are in memory.

## Main results

* `elf_segment_permissions` — after success every page of a segment has exactly the permissions of
  its header;
* `elf_image_iff` — the memory image is that of the file exactly if all segments have the same
  size in the file and in memory, and none of several pages is at address 0.
-/

namespace AnglOS

open ElfLoader

/-! ### The permissions of one segment -/

/-- Changing the flags of a page keeps the tree. -/
theorem Tree.vflagsHelper {s : Paging} {root : ℕ} (hs : Supply s) (h : Tree s root) (v : ℕ)
    (flags : BitVec 64) :
    Supply (vflagsHelper v root flags s) ∧ Tree (AnglOS.vflagsHelper v root flags s) root := by
  rcases vflagsHelper_cases v root flags s with ⟨heq, -⟩ | ⟨t, ht, heq⟩
  · rw [heq]
    exact ⟨hs, h⟩
  · rw [heq]
    have hmaps := h.setLeaf hs ht 0 ((s.leaf root v &&& vflagsMask) ||| flags)
    exact ⟨hmaps.supply, hmaps.tree⟩

/-- `vflagsCR3` of user pages does the same without the upper half. -/
theorem lower_vflagsCR3 {s : Paging} {r v n : ℕ} {flags : BitVec 64} (hs : Supply s)
    (h : Tree (s.lower r) r) (hv : ∀ i < n, (pageP4E (add64 v (i * pageSize))).val < 256) :
    vflagsCR3 (s.lower r) v n flags r = (vflagsCR3 s v n flags r).lower r := by
  have hloop := loop_invariant (n := n) (s := { s with lock := true })
    (f := fun i => vflagsHelper (add64 v (i * pageSize)) r flags)
    (fun j s' => Supply (s'.lower r) ∧ Tree (s'.lower r) r ∧
      loop (fun i => vflagsHelper (add64 v (i * pageSize)) r flags) j
        { s.lower r with lock := true } = s'.lower r)
    ⟨(hs.withLock true).lower r, ⟨h.1, h.2, h.3⟩, rfl⟩ ?_
  · obtain ⟨-, -, heq⟩ := hloop
    rw [vflagsCR3, vflagsCR3]
    simp only [heq]
    rfl
  · rintro j hj s' ⟨hs', ht', heq⟩
    obtain ⟨hcomm, -⟩ := lower_vflagsHelper ht' (hv j hj) flags
    have hnext := Tree.vflagsHelper hs' ht' (add64 v (j * pageSize)) flags
    rw [hcomm] at hnext
    refine ⟨hnext.1, hnext.2, ?_⟩
    rw [loop_succ, heq, hcomm]

/-- The leaf entries of user pages after `vflagsCR3`. -/
theorem UserSpace.vflagsCR3_leaf {s₀ s : Paging} {r v n : ℕ}
    (h : UserSpace s₀ s r) (flags : BitVec 64)
    (hv : ∀ i < n, (pageP4E (add64 v (i * pageSize))).val < 256) {w : ℕ} (hw : InRange v n w)
    (hleaf : (s.lower r).leaf r w ≠ 0) :
    ((AnglOS.vflagsCR3 s v n flags r).lower r).leaf r w
      = ((s.lower r).leaf r w &&& vflagsMask) ||| flags := by
  rw [← lower_vflagsCR3 h.supply h.tree hv]
  have htab : (s.lower r).tableAt r (pagePath w) ≠ none := fun hnone => hleaf (leaf_eq_zero hnone)
  exact ((AnglOS.vflagsCR3_leaf h.tree.root_mod h.tree.unshared v n flags).2 w).trans
    (if_pos ⟨hw, htab⟩)

/-- The pages of a segment are different pages. -/
theorem pageNumber_segment_ne {vaddr i j : ℕ} (h : vaddr + i * pageSize < 2 ^ 47) (hj : j < i) :
    pageNumber (add64 (alignToPage vaddr) (i * pageSize))
      ≠ pageNumber (add64 (alignToPage vaddr) (j * pageSize)) := by
  have hjlt : vaddr + j * pageSize < 2 ^ 47 :=
    (Nat.add_le_add_left (Nat.mul_le_mul_right _ hj.le) _).trans_lt h
  rw [pageNumber_segment h, pageNumber_segment hjlt]
  simp only [pageNumber, pageSize] at h ⊢
  omega

/-- **The flags of a segment that was loaded** on pages that were not mapped. -/
theorem elfSegment_leaf {s₀ : Paging} {r i : ℕ} {file : FileBytes} {type : AddrspaceType}
    {segment : ElfProgram} {l : ElfLoader} (h : UserSpace s₀ l.paging r) (hcr3 : s₀.cr3 = r)
    (hspace : l.space.cr3 = r) (hlen : l.fault = false → l.space.entries.length = i)
    (hsegment : segment.InUserHalf) (hvaddr : segment.vaddr < 2 ^ 64)
    (hsize : segment.sizeMem < 2 ^ 64)
    (hok : ∀ e ∈ (elfSegment file type i segment l).paging.log, e.Good)
    (hfree : ∀ w < 2 ^ 47, segment.Covers w → (l.paging.lower r).leaf r w = 0)
    (hfault : (elfSegment file type i segment l).fault = false) {w : ℕ} (hw : segment.Covers w) :
    ((elfSegment file type i segment l).paging.lower r).leaf r w &&& permissionMask
      = convAddrSpaceFlagsToPaging (elfFlags segment) := by
  have hseg := elfSegment_user file type h hcr3 hspace hlen hsegment hvaddr hsize hok
  have hf := hseg.fault hfault
  subst hspace
  rw [elfSegment_log hf (hlen hf)] at hok
  obtain ⟨hmaps, hset, hcpy⟩ := fill_user file i h hcr3 rfl hsegment hvaddr hok
  rw [elfSegment_eq hf (hlen hf)] at hfault ⊢
  by_cases hfill : ((l.addEntry type segment).fill file i segment).fault = true
  · rw [if_pos hfill] at hfault
    exact absurd hfill (by simp [hfault])
  rw [if_neg hfill]
  obtain ⟨hset', hpages, -⟩ := hcpy.done (by simpa using hfill)
  obtain ⟨a, ha, hpage⟩ := hw
  obtain ⟨hlt, hne⟩ := hpages _ (mul_lt_of_lt_getNumPages hsize ha)
  have hsame : ∀ w, (((l.addEntry type segment).fill file i segment).paging.lower
      l.space.cr3).leaf l.space.cr3 w
        = ((l.addEntry type segment).paging.lower l.space.cr3).leaf l.space.cr3 w :=
    fun w => (hcpy.leaf w).trans (hset.leaf w)
  rw [hset.leaf, ← leaf_congr _ _ (pageNumber_segment hlt)] at hne
  -- the page was mapped by this segment
  have hreached : ∀ j < a, add64 (alignToPage segment.vaddr) (j * pageSize) ≠ 0 := by
    by_contra hno
    push Not at hno
    have hold := hmaps.stopped a ha hno fun j hj => pageNumber_segment_ne hlt hj
    rw [hold, leaf_congr _ _ (pageNumber_segment hlt)] at hne
    exact hne (hfree _ hlt ⟨a, ha, (pageNumber_segment hlt).symm⟩)
  obtain ⟨f, -, hf52, hleaf⟩ := hmaps.mapped a ha hreached
  rw [← leaf_congr _ _ hpage, ← hsame] at hleaf
  rw [← leaf_congr _ _ hpage, ← hsame] at hne
  have hold : (((l.addEntry type segment).fill file i segment).paging.lower
      l.space.cr3).leaf l.space.cr3 w &&& permissionMask = convAddrSpaceFlagsToPaging
        (addrspaceFlagUser ||| addrspaceFlagWriteable ||| addrspaceFlagExecutable) := by
    rw [hleaf, makeEntry_and hf52 (by rw [FlagBits]; decide)]
    decide
  have hnew := hcpy.space.vflagsCR3_leaf (convAddrSpaceFlagsToPaging (elfFlags segment))
    hsegment.2 ⟨a, ha, hpage⟩ hne
  exact (congrArg (· &&& permissionMask) hnew).trans (vflags_mask hold fun _ => by decide)

/-! ### Segments that load -/

/-- A loop of writes to pages that are mapped and writable comes to its end. -/
theorem puts_no_fault {f : ℕ → ElfLoader → ElfLoader} {s₀ : Paging} {r vaddr n : ℕ}
    {byte : ℕ → BitVec 8} {l : ElfLoader} (hf : Puts f vaddr byte) (h : UserSpace s₀ l.paging r)
    (hcr3 : s₀.cr3 = r) (hend : vaddr + n ≤ 2 ^ 47) (hl : l.fault = false)
    (hleaf : ∀ k < n, (l.paging.lower r).leaf r (vaddr + k) &&& 2 ≠ 0) :
    (loop f n l).fault = false := by
  induction n with
  | zero => exact hl
  | succ n ih =>
    have hprev := ih (by omega) fun k hk => hleaf k (by omega)
    have hputs := puts_user (n := n) hf h hcr3 (by omega) fun _ => pageP4E_lt (by omega)
    obtain ⟨reads, hstep⟩ := hf n (loop f n l)
    have hbit := hleaf n (by omega)
    rw [← hputs.leaf] at hbit
    have hne : ((loop f n l).paging.lower r).leaf r (vaddr + n) ≠ 0 := by
      intro hz
      rw [hz] at hbit
      exact hbit (by decide)
    have haddr := hputs.space.writeAddress (hputs.space.kept.cr3.trans hcr3) (by omega) hne hbit
    rw [loop_succ, hstep, add64_eq (by omega), put, if_neg (by simp [hprev]), haddr]
    exact hprev

/-- A segment as the linker script lays it out. -/
structure ElfProgram.Placed (segment : ElfProgram) : Prop where
  aligned : segment.vaddr % pageSize = 0
  user : segment.vaddr + segment.sizeMem ≤ 2 ^ 47

section

variable {segment : ElfProgram} {k : ℕ}

/-- The page of a byte of a segment. -/
theorem ElfProgram.Placed.byte (h : segment.Placed) (hk : k < segment.sizeMem) :
    k / pageSize < getNumPages segment.sizeMem ∧ pageNumber (segment.vaddr + k)
      = pageNumber (add64 (alignToPage segment.vaddr) (k / pageSize * pageSize)) := by
  obtain ⟨haligned, huser⟩ := h
  have hadd : add64 (alignToPage segment.vaddr) (k / pageSize * pageSize)
      = alignToPage segment.vaddr + k / pageSize * pageSize := by
    apply add64_eq
    simp only [alignToPage, pageSize] at haligned ⊢
    omega
  rw [hadd]
  simp only [getNumPages, add64, pageNumber, alignToPage, pageSize] at haligned ⊢
  omega

/-- The bytes of a segment are on its pages. -/
theorem ElfProgram.Placed.covers (h : segment.Placed) (hk : k < segment.sizeMem) :
    segment.Covers (segment.vaddr + k) :=
  ⟨_, (h.byte hk).1, (h.byte hk).2⟩

theorem ElfProgram.Placed.inUserHalf (h : segment.Placed) : segment.InUserHalf := by
  obtain ⟨haligned, huser⟩ := h
  refine ⟨fun hpos => pageP4E_lt (by omega), fun i hi => pageP4E_lt ?_⟩
  have hlt := mul_lt_of_lt_getNumPages (by omega) hi
  have hle : alignToPage segment.vaddr ≤ segment.vaddr := Nat.div_mul_le_self _ _
  rw [add64_eq (by omega)]
  omega

end

/-- **Which segments load**: on pages that were not mapped, all but those of several pages at
address 0. -/
theorem elfSegment_fault_iff {s₀ : Paging} {r i : ℕ} {file : FileBytes} {type : AddrspaceType}
    {segment : ElfProgram} {l : ElfLoader} (h : UserSpace s₀ l.paging r) (hcr3 : s₀.cr3 = r)
    (hspace : l.space.cr3 = r) (hlen : l.space.entries.length = i) (hsegment : segment.Placed)
    (hok : ∀ e ∈ (elfSegment file type i segment l).paging.log, e.Good)
    (hfree : ∀ w < 2 ^ 47, segment.Covers w → (l.paging.lower r).leaf r w = 0)
    (hf : l.fault = false) :
    (elfSegment file type i segment l).fault = false ↔
      (segment.vaddr = 0 → segment.sizeMem ≤ pageSize) := by
  have hvaddr : segment.vaddr < 2 ^ 64 := by
    have := hsegment.user
    omega
  have hsize : segment.sizeMem < 2 ^ 64 := by
    have := hsegment.user
    omega
  constructor
  · intro hfault hzero
    by_contra hlong
    have hseg := elfSegment_user file type h hcr3 hspace (fun _ => hlen) hsegment.inUserHalf hvaddr
      hsize hok
    have hcovers := hsegment.covers (k := pageSize) (by omega)
    have hmapped := hseg.mapped hfault pageSize (by omega)
    rw [hzero, Nat.zero_add] at hcovers hmapped
    refine hmapped ?_ (hfree pageSize (by decide) hcovers)
    -- the first page of the segment is the one at address 0
    rintro ⟨i, -, hne, hpage⟩
    rw [hzero] at hne hpage
    rcases Nat.eq_zero_or_pos i with rfl | hi
    · exact absurd hpage (by decide)
    · exact hne 0 hi (by decide)
  · intro hnull
    subst hspace
    rw [elfSegment_log hf hlen] at hok
    obtain ⟨hus, hmaps⟩ := addEntry_user h rfl hsegment.inUserHalf hok
    obtain ⟨-, hset, -⟩ := fill_user file i h hcr3 rfl hsegment.inUserHalf hvaddr hok
    have hbits : ∀ k < segment.sizeMem, ((l.addEntry type segment).paging.lower l.space.cr3).leaf
        l.space.cr3 (segment.vaddr + k) &&& 2 ≠ 0 := by
      intro k hk
      obtain ⟨hpage, hnumber⟩ := hsegment.byte hk
      have hreached : ∀ j < k / pageSize,
          add64 (alignToPage segment.vaddr) (j * pageSize) ≠ 0 := fun j hj hz => by
        have hj' : j * pageSize < k := (Nat.mul_lt_mul_of_pos_right hj (by decide)).trans_le
          (Nat.div_mul_le_self k pageSize)
        have hle : alignToPage segment.vaddr = segment.vaddr :=
          Nat.div_mul_cancel (Nat.dvd_of_mod_eq_zero hsegment.aligned)
        have huser := hsegment.user
        rw [add64_eq (by omega)] at hz
        have hshort := hnull (by omega)
        have hpos : 0 < k / pageSize := by omega
        rw [Nat.div_pos_iff] at hpos
        omega
      obtain ⟨f, -, hf52, hleaf⟩ := hmaps.mapped _ hpage hreached
      rw [leaf_congr _ _ hnumber, hleaf, makeEntry_and hf52 (by rw [FlagBits]; decide)]
      decide
    have hcleared :
        ((l.addEntry type segment).memset segment.vaddr 0 segment.sizeMem).fault = false :=
      puts_no_fault (puts_memset segment.vaddr 0) hus hcr3 hsegment.user hf hbits
    have hfilled : ((l.addEntry type segment).fill file i segment).fault = false :=
      puts_no_fault (puts_memcpy file i segment.vaddr segment.offset) hset.space hcr3 hsegment.user
        hcleared fun k hk => by rw [hset.leaf]; exact hbits k hk
    rw [elfSegment_eq hf hlen, if_neg (by simp [hfilled])]
    exact hfilled

/-! ### All segments -/

/-- A file as the linker script lays it out: all program headers are of type `LOAD`, and the
segments start on a page and lie on different user pages. -/
structure ElfLayout (file : FileBytes) : Prop where
  magic : strncmp file elfMagic 4 = 0
  load : ∀ i < (elfHeader file).programHeaderNumEntries, (elfProgram file i).type = elfSegmentLoad
  placed : ∀ i < (elfHeader file).programHeaderNumEntries, (elfProgram file i).Placed
  apart : ∀ i < (elfHeader file).programHeaderNumEntries,
    ∀ j < (elfHeader file).programHeaderNumEntries, i ≠ j →
      ∀ w, (elfProgram file i).Covers w → ¬(elfProgram file j).Covers w

/-- The entry that describes a segment. -/
def ElfProgram.entry (type : AddrspaceType) (segment : ElfProgram) : AddressSpaceEntry :=
  ⟨type, elfFlags segment, segment.sizeMem, segment.vaddr⟩

/-- **The first `n` segments are loaded**, and nothing else. -/
structure Loaded (file : FileBytes) (type : AddrspaceType) (r n : ℕ) (l : ElfLoader) : Prop where
  entries : l.space.entries = (List.range n).map fun i => (elfProgram file i).entry type
  leaves : ∀ i < n, ∀ w < 2 ^ 47, (elfProgram file i).Covers w →
    (l.paging.lower r).leaf r w &&& permissionMask
      = convAddrSpaceFlagsToPaging (elfFlags (elfProgram file i))
  only : ∀ w < 2 ^ 47, (l.paging.lower r).leaf r w ≠ 0 → ∃ i < n, (elfProgram file i).Covers w
  bytes : ∀ i < n, ∀ k < (elfProgram file i).sizeMem,
    l.paging.userByte r ((elfProgram file i).vaddr + k)
      = some (file (add64 (elfProgram file i).offset k))
  reads : l.reads = (List.range n).flatMap fun i =>
    (List.range (elfProgram file i).sizeMem).map fun k => (i, add64 (elfProgram file i).offset k)

section

variable {s₀ : Paging} {r n : ℕ} {file : FileBytes} {type : AddrspaceType} {l : ElfLoader}

/-- The pages of the next segment are not mapped. -/
theorem Loaded.free (h : Loaded file type r n l) (hlayout : ElfLayout file)
    (hn : n < (elfHeader file).programHeaderNumEntries) :
    ∀ w < 2 ^ 47, (elfProgram file n).Covers w → (l.paging.lower r).leaf r w = 0 := by
  intro w hw hcovers
  by_contra hne
  obtain ⟨i, hi, hold⟩ := h.only w hw hne
  exact hlayout.apart i (by omega) n hn (by omega) w hold hcovers

/-- **One more segment.** -/
theorem Loaded.succ (h : Loaded file type r n l) (hlayout : ElfLayout file)
    (hn : n < (elfHeader file).programHeaderNumEntries) (hloop : LoopOk file l s₀ r n true)
    (hcr3 : s₀.cr3 = r)
    (hok : ∀ e ∈ (elfSegment file type n (elfProgram file n) l).paging.log, e.Good)
    (hfault : (elfSegment file type n (elfProgram file n) l).fault = false) :
    Loaded file type r (n + 1) (elfSegment file type n (elfProgram file n) l) := by
  have hplaced := hlayout.placed n hn
  obtain ⟨hvaddr, hsize, -⟩ := elfProgram_lt file n
  have hseg := elfSegment_user file type hloop.space hcr3 hloop.cr3 (hloop.length rfl)
    hplaced.inUserHalf hvaddr hsize hok
  have hf := hseg.fault hfault
  have hother : ∀ i < n, ∀ w, (elfProgram file i).Covers w → ¬(elfProgram file n).Covers w :=
    fun i hi => hlayout.apart i (by omega) n hn (by omega)
  refine ⟨?_, fun i hi w hw hcovers => ?_, fun w hw hne => ?_, fun i hi k hk => ?_, ?_⟩
  · have hlen := hloop.length rfl hf
    have hfilled : ¬((l.addEntry type (elfProgram file n)).fill file n
        (elfProgram file n)).fault = true := by
      intro hc
      rw [elfSegment_eq hf hlen, if_pos hc] at hfault
      exact absurd hc (by simp [hfault])
    rw [elfSegment_eq hf hlen, if_neg hfilled, List.range_succ, List.map_append, ← h.entries]
    simp only [ElfLoader.addEntry, addressSpaceAddEntry]
    rw [List.set_append_right _ _ hlen.le, hlen, Nat.sub_self]
    rfl
  · rcases Nat.lt_succ_iff_lt_or_eq.mp hi with hi | rfl
    · rw [(hseg.others hfault w hw (hother i hi w hcovers)).1]
      exact h.leaves i hi w hw hcovers
    · exact elfSegment_leaf hloop.space hcr3 hloop.cr3 (hloop.length rfl) hplaced.inUserHalf hvaddr
        hsize hok (h.free hlayout hn) hfault hcovers
  · by_cases hcovers : (elfProgram file n).Covers w
    · exact ⟨n, by omega, hcovers⟩
    · rw [(hseg.others hfault w hw hcovers).1] at hne
      obtain ⟨i, hi, hold⟩ := h.only w hw hne
      exact ⟨i, by omega, hold⟩
  · rcases Nat.lt_succ_iff_lt_or_eq.mp hi with hi | rfl
    · have hplaced' := hlayout.placed i (by omega)
      have hcovers := hother i hi _ (hplaced'.covers hk)
      have hlt : (elfProgram file i).vaddr + k < 2 ^ 47 := by
        have := hplaced'.user
        omega
      rw [(hseg.others hfault _ hlt hcovers).2]
      · exact h.bytes i hi k hk
      · rintro ⟨hle, hlt'⟩
        obtain ⟨m, hm⟩ := Nat.exists_eq_add_of_le hle
        rw [hm] at hcovers hlt'
        exact hcovers (hplaced.covers (by omega))
    · exact (hseg.bytes hfault k hk).2
  · rw [hseg.reads hfault, h.reads, List.range_succ, List.flatMap_append, List.flatMap_singleton]

/-- The next segment loads unless it has several pages at address 0. -/
theorem Loaded.fault_iff (h : Loaded file type r n l) (hlayout : ElfLayout file)
    (hn : n < (elfHeader file).programHeaderNumEntries) (hloop : LoopOk file l s₀ r n true)
    (hcr3 : s₀.cr3 = r)
    (hok : ∀ e ∈ (elfSegment file type n (elfProgram file n) l).paging.log, e.Good)
    (hf : l.fault = false) :
    (elfSegment file type n (elfProgram file n) l).fault = false ↔
      ((elfProgram file n).vaddr = 0 → (elfProgram file n).sizeMem ≤ pageSize) :=
  elfSegment_fault_iff hloop.space hcr3 hloop.cr3 (hloop.length rfl hf) (hlayout.placed n hn) hok
    (h.free hlayout hn) hf

/-- **The loop over the segments**: it comes to its end unless a segment of several pages is at
address 0, and then all segments are loaded. -/
theorem elfLoop_loaded (hstart : LoopOk file l s₀ r 0 true) (hfault : l.fault = false)
    (hempty : ∀ w, (l.paging.lower r).leaf r w = 0) (hreads : l.reads = []) (hcr3 : s₀.cr3 = r)
    (hlayout : ElfLayout file) (hn : n ≤ (elfHeader file).programHeaderNumEntries)
    (hok : ∀ e ∈ (elfLoop file type n l).2.paging.log, e.Good) :
    ((elfLoop file type n l).2.fault = false ↔
      ∀ i < n, (elfProgram file i).vaddr = 0 → (elfProgram file i).sizeMem ≤ pageSize) ∧
    ((elfLoop file type n l).2.fault = false → Loaded file type r n (elfLoop file type n l).2) := by
  induction n with
  | zero =>
    refine ⟨iff_of_true hfault fun i hi => absurd hi (Nat.not_lt_zero i), fun _ => ⟨?_, fun i hi =>
      absurd hi (Nat.not_lt_zero i), fun w _ hne => absurd (hempty w) hne, fun i hi =>
      absurd hi (Nat.not_lt_zero i), hreads⟩⟩
    exact List.eq_nil_of_length_eq_zero (hstart.length rfl hfault)
  | succ n ih =>
    have hok' : ∀ e ∈ (elfLoop file type n l).2.paging.log, e.Good := fun e he =>
      hok e ((elfLoop_log_extends file type n l).subset he)
    obtain ⟨hiff, hloaded⟩ := ih (by omega) hok'
    have hgo : (elfLoop file type n l).1 = true :=
      (elfLoop_fst file type n l).mpr fun m hm => hlayout.load m (by omega)
    have hloop := elfLoop_user hstart hcr3
      (fun m hm _ _ => (hlayout.placed m (by omega)).inUserHalf) hok'
    rw [elfLoop_succ, if_pos ⟨hgo, hlayout.load n (by omega)⟩] at hok ⊢
    rw [hgo] at hloop
    have hplaced := hlayout.placed n (by omega)
    obtain ⟨hvaddr, hsize, -⟩ := elfProgram_lt file n
    have hseg := elfSegment_user file type hloop.space hcr3 hloop.cr3 (hloop.length rfl)
      hplaced.inUserHalf hvaddr hsize hok
    generalize (elfLoop file type n l).2 = l' at hiff hloaded hloop hok hseg ⊢
    refine ⟨?_, fun hend => (hloaded (hseg.fault hend)).succ hlayout (by omega) hloop hcr3 hok hend⟩
    rw [Nat.forall_lt_succ_right, ← hiff]
    constructor
    · intro hend
      have hf := hseg.fault hend
      exact ⟨hf, ((hloaded hf).fault_iff hlayout (by omega) hloop hcr3 hok hf).mp hend⟩
    · rintro ⟨hf, hnull⟩
      exact ((hloaded hf).fault_iff hlayout (by omega) hloop hcr3 hok hf).mpr hnull

end

/-! ### The whole file -/

/-- The byte that a read of a virtual address returns, `none` for a fault. -/
def Paging.byteAt (s : Paging) (v : ℕ) : Option (BitVec 8) := (s.readAddress v).map s.mem

/-- A read of a user address returns the byte of the user half. -/
theorem UserSpace.byteAt {s₀ s : Paging} {r v : ℕ} (h : UserSpace s₀ s r) (hcr3 : s.cr3 = r)
    (hv : v < 2 ^ 47) : s.byteAt v = s.userByte r v := by
  by_cases hleaf : (s.lower r).leaf r v = 0
  · have htr := h.translation_user (pageP4E_lt hv)
    rw [if_pos (by rw [hleaf]; decide)] at htr
    rw [Paging.byteAt, Paging.readAddress, if_pos (show canonical v from Or.inl hv), hcr3, htr,
      Paging.userByte, if_pos hleaf]
    rfl
  · rw [Paging.byteAt, h.readAddress hcr3 hv hleaf, Paging.userByte, if_neg hleaf]
    rfl

section

variable {s : Paging} {r : ℕ} {file : FileBytes} {type : AddrspaceType}

/-- **Loading a file that is laid out well** into an empty address space: the loader returns unless
a segment of several pages is at address 0, and then all segments are loaded. -/
theorem elfLoad_loaded (hs : Supply s) (hr : r % pageSize = 0) (hroot : r ∉ s.unissued)
    (hempty : ∀ i : Fin 512, i.val < 256 → s.entry r i = 0) (hcr3 : s.cr3 = r)
    (hlayout : ElfLayout file)
    (hgood : ∀ e ∈ (elfLoad ⟨r, []⟩ (some file) type s).2.paging.log, e.Good) :
    UserSpace s (elfLoad ⟨r, []⟩ (some file) type s).2.paging r ∧
    ((elfLoad ⟨r, []⟩ (some file) type s).1 = some (elfHeader file).programEntryPos ∧
        Loaded file type r (elfHeader file).programHeaderNumEntries
          (elfLoad ⟨r, []⟩ (some file) type s).2 ∨
      (elfLoad ⟨r, []⟩ (some file) type s).1 = none) ∧
    ((elfLoad ⟨r, []⟩ (some file) type s).1 ≠ none ↔
      ∀ i < (elfHeader file).programHeaderNumEntries,
        (elfProgram file i).vaddr = 0 → (elfProgram file i).sizeMem ≤ pageSize) := by
  have hus : UserSpace s s r := UserSpace.init hs hr hroot hempty
  have hstart := LoopOk.start file hus
  have hmagic := hlayout.magic
  have hresult : elfLoad ⟨r, []⟩ (some file) type s
      = (if (elfLoop file type (elfHeader file).programHeaderNumEntries
          ⟨s, ⟨r, []⟩, false, [], []⟩).2.fault then none
        else some (elfHeader file).programEntryPos,
        (elfLoop file type (elfHeader file).programHeaderNumEntries
          ⟨s, ⟨r, []⟩, false, [], []⟩).2) := by
    have hgo := (elfLoop_fst file type (elfHeader file).programHeaderNumEntries
      ⟨s, ⟨r, []⟩, false, [], []⟩).mpr hlayout.load
    simp only [elfLoad, ne_eq, hmagic, not_true_eq_false, if_false, hgo, if_true]
  rw [hresult] at hgood ⊢
  have hloop := elfLoop_user hstart hcr3 (fun m hm _ _ => (hlayout.placed m hm).inUserHalf) hgood
  obtain ⟨hiff, hloaded⟩ := elfLoop_loaded hstart rfl (lower_leaf_of_empty hr hempty) rfl hcr3
    hlayout le_rfl hgood
  generalize (elfLoop file type (elfHeader file).programHeaderNumEntries
    ⟨s, ⟨r, []⟩, false, [], []⟩).2 = l at hloop hiff hloaded ⊢
  refine ⟨hloop.space, ?_, ?_⟩
  · cases hf : l.fault with
    | false => exact Or.inl ⟨rfl, hloaded hf⟩
    | true => exact Or.inr rfl
  · rw [← hiff]
    cases l.fault <;> simp

/-- **A page has the permissions of its program header.** -/
structure SegmentMapped (segment : ElfProgram) (e : BitVec 64) : Prop where
  present : e &&& pageFlagPresent ≠ 0
  user : e &&& pageFlagUsersuper ≠ 0
  write : e &&& pageFlagReadwrite ≠ 0 ↔ segment.flags &&& elfFlagWriteable ≠ 0
  execdble : e &&& pageFlagExecdble ≠ 0 ↔ segment.flags &&& elfFlagExecutable = 0

/-- The flags of a segment say what its header says. -/
theorem elfFlags_bits (segment : ElfProgram) :
    elfFlags segment &&& addrspaceFlagUser ≠ 0 ∧
      (elfFlags segment &&& addrspaceFlagWriteable ≠ 0 ↔
        segment.flags &&& elfFlagWriteable ≠ 0) ∧
      (elfFlags segment &&& addrspaceFlagExecutable = 0 ↔
        segment.flags &&& elfFlagExecutable = 0) := by
  simp only [elfFlags]
  split_ifs with hx hw hw
  · exact ⟨by decide, iff_of_true (by decide) hw, iff_of_false (by decide) hx⟩
  · exact ⟨by decide, iff_of_false (by decide) hw, iff_of_false (by decide) hx⟩
  · exact ⟨by decide, iff_of_true (by decide) hw, iff_of_true (by decide) (not_not.mp hx)⟩
  · exact ⟨by decide, iff_of_false (by decide) hw, iff_of_true (by decide) (not_not.mp hx)⟩

theorem LeafAgrees.segmentMapped {segment : ElfProgram} {e : BitVec 64}
    (h : LeafAgrees (elfFlags segment) e) : SegmentMapped segment e := by
  obtain ⟨huser, hwrite, hexec⟩ := elfFlags_bits segment
  exact ⟨h.present, h.user.mpr huser, h.write.trans hwrite, h.execdble.trans hexec⟩

/-- **Loaded segments have exactly the permissions of the file**: if the loader returns, and it does
unless a segment of several pages is at address 0, there is one entry for each program header, entry
`i` describes header `i`, and every page of segment `i` has the permissions of header `i`. -/
theorem elf_segment_permissions (hs : Supply s) (hr : r % pageSize = 0) (hroot : r ∉ s.unissued)
    (hempty : ∀ i : Fin 512, i.val < 256 → s.entry r i = 0) (hcr3 : s.cr3 = r)
    (hlayout : ElfLayout file)
    (hgood : ∀ e ∈ (elfLoad ⟨r, []⟩ (some file) type s).2.paging.log, e.Good) :
    let l := (elfLoad ⟨r, []⟩ (some file) type s).2
    let n := (elfHeader file).programHeaderNumEntries
    ((elfLoad ⟨r, []⟩ (some file) type s).1 ≠ none ↔
      ∀ i < n, (elfProgram file i).vaddr = 0 → (elfProgram file i).sizeMem ≤ pageSize) ∧
    ((elfLoad ⟨r, []⟩ (some file) type s).1 ≠ none → l.space.entries.length = n ∧ ∀ i < n,
      l.space.entries[i]? = some ((elfProgram file i).entry type) ∧
      ∀ a < getNumPages (elfProgram file i).sizeMem, SegmentMapped (elfProgram file i)
        (l.paging.leaf r (add64 (alignToPage (elfProgram file i).vaddr) (a * pageSize)))) := by
  obtain ⟨hus, hcases, hiff⟩ := elfLoad_loaded hs hr hroot hempty hcr3 hlayout hgood
  refine ⟨hiff, fun hres => ?_⟩
  obtain ⟨-, hloaded⟩ := hcases.resolve_right hres
  generalize (elfLoad ⟨r, []⟩ (some file) type s).2 = l at hus hloaded ⊢
  refine ⟨by rw [hloaded.entries]; simp, fun i hi => ⟨?_, fun a ha => ?_⟩⟩
  · rw [hloaded.entries, List.getElem?_map, List.getElem?_range hi]
    rfl
  · have hplaced := hlayout.placed i hi
    obtain ⟨-, hsize, -⟩ := elfProgram_lt file i
    have hlt := mul_lt_of_lt_getNumPages hsize ha
    have hend := hplaced.user
    have hle : alignToPage (elfProgram file i).vaddr ≤ (elfProgram file i).vaddr :=
      Nat.div_mul_le_self _ _
    have hpage : add64 (alignToPage (elfProgram file i).vaddr) (a * pageSize) < 2 ^ 47 := by
      rw [add64_eq (by omega)]
      omega
    rw [← (lower_tableAt hus.tree (hplaced.inUserHalf.2 a ha)).2]
    exact (LeafAgrees.of_mask (hloaded.leaves i hi _ hpage ⟨a, ha, rfl⟩)).segmentMapped

/-- **The memory image of a file**: the loader returns, the bytes of each segment are those of the
file up to `size_file` and zero after it, and no other bytes of the file are read for it. -/
structure ElfImage (file : FileBytes) (res : Option ℕ × ElfLoader) : Prop where
  returns : res.1 ≠ none
  bytes : ∀ i < (elfHeader file).programHeaderNumEntries, ∀ k < (elfProgram file i).sizeFile,
    res.2.paging.byteAt ((elfProgram file i).vaddr + k)
      = some (file (add64 (elfProgram file i).offset k))
  zeros : ∀ i < (elfHeader file).programHeaderNumEntries, ∀ k, (elfProgram file i).sizeFile ≤ k →
    k < (elfProgram file i).sizeMem → res.2.paging.byteAt ((elfProgram file i).vaddr + k) = some 0
  reads : ∀ i pos, (i, pos) ∈ res.2.reads →
    ∃ k < (elfProgram file i).sizeFile, pos = add64 (elfProgram file i).offset k

/-- Bytes of the file after a segment are read unless it has the same size in memory. -/
theorem ElfImage.size_eq {res : Option ℕ × ElfLoader} (h : ElfImage file res)
    (hloaded : Loaded file type r (elfHeader file).programHeaderNumEntries res.2) {i : ℕ}
    (hi : i < (elfHeader file).programHeaderNumEntries)
    (hle : (elfProgram file i).sizeFile ≤ (elfProgram file i).sizeMem) :
    (elfProgram file i).sizeFile = (elfProgram file i).sizeMem := by
  by_contra hne
  have hlt := lt_of_le_of_ne hle hne
  have hread :
      (i, add64 (elfProgram file i).offset (elfProgram file i).sizeFile) ∈ res.2.reads := by
    rw [hloaded.reads, List.mem_flatMap]
    exact ⟨i, List.mem_range.mpr hi, List.mem_map.mpr ⟨_, List.mem_range.mpr hlt, rfl⟩⟩
  obtain ⟨k, hk, hpos⟩ := h.reads i _ hread
  obtain ⟨-, -, hsize⟩ := elfProgram_lt file i
  simp only [add64] at hpos
  omega

/-- **The image in memory is that of the file** exactly when each segment has the same size in the
file and in memory, and no segment of several pages is at address 0. -/
theorem elf_image_iff (hs : Supply s) (hr : r % pageSize = 0) (hroot : r ∉ s.unissued)
    (hempty : ∀ i : Fin 512, i.val < 256 → s.entry r i = 0) (hcr3 : s.cr3 = r)
    (hlayout : ElfLayout file)
    (hsizes : ∀ i < (elfHeader file).programHeaderNumEntries,
      (elfProgram file i).sizeFile ≤ (elfProgram file i).sizeMem)
    (hgood : ∀ e ∈ (elfLoad ⟨r, []⟩ (some file) type s).2.paging.log, e.Good) :
    ElfImage file (elfLoad ⟨r, []⟩ (some file) type s) ↔
      ∀ i < (elfHeader file).programHeaderNumEntries,
        (elfProgram file i).sizeFile = (elfProgram file i).sizeMem ∧
          ((elfProgram file i).vaddr = 0 → (elfProgram file i).sizeMem ≤ pageSize) := by
  obtain ⟨hus, hcases, hiff⟩ := elfLoad_loaded hs hr hroot hempty hcr3 hlayout hgood
  constructor
  · intro himage i hi
    refine ⟨?_, hiff.mp himage.returns i hi⟩
    obtain ⟨-, hloaded⟩ := hcases.resolve_right himage.returns
    exact himage.size_eq hloaded hi (hsizes i hi)
  · intro hall
    have hres := hiff.mpr fun i hi => (hall i hi).2
    obtain ⟨-, hloaded⟩ := hcases.resolve_right hres
    refine ⟨hres, fun i hi k hk => ?_, fun i hi k hle hlt => ?_, fun i pos hread => ?_⟩
    · have hk' : k < (elfProgram file i).sizeMem := (hall i hi).1 ▸ hk
      have hend := (hlayout.placed i hi).user
      rw [hus.byteAt (hus.kept.cr3.trans hcr3) (by omega)]
      exact hloaded.bytes i hi k hk'
    · exact absurd hlt (by rw [← (hall i hi).1]; omega)
    · rw [hloaded.reads, List.mem_flatMap] at hread
      obtain ⟨j, hj, hmem⟩ := hread
      obtain ⟨k, hk, heq⟩ := List.mem_map.mp hmem
      obtain ⟨rfl, rfl⟩ := Prod.mk.inj heq
      rw [List.mem_range] at hj hk
      exact ⟨k, (hall j hj).1 ▸ hk, rfl⟩

end

/-! ### Programs of one segment -/

/-- A file with one segment of one byte at `0x400000` is laid out well. -/
theorem HasOneSegment.layout {file : FileBytes} {sizeFile : ℕ}
    (h : HasOneSegment file 0x400000 sizeFile) : ElfLayout file := by
  have hnum := h.num
  refine ⟨h.magic, fun i hi => ?_, fun i hi => ?_, fun i hi j hj hij => ?_⟩
  · obtain rfl : i = 0 := by omega
    exact h.load
  · obtain rfl : i = 0 := by omega
    exact ⟨by rw [h.vaddr_eq]; decide, by rw [h.vaddr_eq, h.sizeMem_eq]; decide⟩
  · omega

/-- A state with an empty address space that is active. -/
theorem elfStart_zeros_empty : Supply (elfStart (filledWith 0)) ∧
    (pagingCreateUser (filledWith 0)).1 % pageSize = 0 ∧
    (pagingCreateUser (filledWith 0)).1 ∉ (elfStart (filledWith 0)).unissued ∧
    ∀ i : Fin 512, i.val < 256 →
      (elfStart (filledWith 0)).entry (pagingCreateUser (filledWith 0)).1 i = 0 := by
  obtain ⟨hready, -, hzero⟩ := elfStart_zeros
  exact ⟨hready.supply, hready.tree.root_mod, hready.tree.issued [] _ (by simp) rfl,
    fun i _ => hzero i⟩

/-- A program of one byte: its page has the permissions of its header. -/
theorem elf_segment_permissions_one :
    SegmentMapped (elfProgram (oneSegmentFile 0x400000 1) 0)
      ((elfLoad ⟨(pagingCreateUser (filledWith 0)).1, []⟩ (some (oneSegmentFile 0x400000 1)) .code
        (elfStart (filledWith 0))).2.paging.leaf (pagingCreateUser (filledWith 0)).1 0x400000) := by
  obtain ⟨hs, hr, hroot, hempty⟩ := elfStart_zeros_empty
  have hone := hasOneSegment_oneSegmentFile 0x400000 (by simp) 1 (by omega)
  obtain ⟨hiff, hperm⟩ := elf_segment_permissions hs hr hroot hempty rfl
    hone.layout (hone.good .code)
  have hres := hiff.mpr fun i hi _ => by
    rw [hone.num] at hi
    obtain rfl : i = 0 := by omega
    rw [hone.sizeMem_eq]
    decide
  have hpage := ((hperm hres).2 0 (by rw [hone.num]; decide)).2 0 (by rw [hone.sizeMem_eq]; decide)
  rw [hone.vaddr_eq] at hpage
  exact hpage

/-- A program of one byte, which the file holds. -/
theorem elf_image_iff_one : ElfImage (oneSegmentFile 0x400000 1)
    (elfLoad ⟨(pagingCreateUser (filledWith 0)).1, []⟩ (some (oneSegmentFile 0x400000 1)) .code
      (elfStart (filledWith 0))) := by
  obtain ⟨hs, hr, hroot, hempty⟩ := elfStart_zeros_empty
  have hone := hasOneSegment_oneSegmentFile 0x400000 (by simp) 1 (by omega)
  have hzero : ∀ i < (elfHeader (oneSegmentFile 0x400000 1)).programHeaderNumEntries, i = 0 := by
    intro i hi
    rw [hone.num] at hi
    omega
  refine (elf_image_iff hs hr hroot hempty rfl hone.layout (fun i hi => ?_)
    (hone.good .code)).mpr fun i hi => ?_
  · obtain rfl := hzero i hi
    rw [hone.sizeFile_eq, hone.sizeMem_eq]
  · obtain rfl := hzero i hi
    rw [hone.sizeFile_eq, hone.sizeMem_eq]
    decide

/-- **A segment of one byte in memory and none in the file**: the loader copies the byte of the file
that follows it, where the image has a zero. -/
theorem elf_image_copies_past_end : ¬ElfImage (oneSegmentFile 0x400000 0)
    (elfLoad ⟨(pagingCreateUser (filledWith 0)).1, []⟩ (some (oneSegmentFile 0x400000 0)) .code
      (elfStart (filledWith 0))) := by
  obtain ⟨hs, hr, hroot, hempty⟩ := elfStart_zeros_empty
  have hone := hasOneSegment_oneSegmentFile 0x400000 (by simp) 0 (by omega)
  obtain ⟨-, hcases, -⟩ := elfLoad_loaded hs hr hroot hempty rfl
    hone.layout (hone.good .code)
  intro himage
  obtain ⟨-, hloaded⟩ := hcases.resolve_right himage.returns
  have heq := himage.size_eq hloaded (i := 0) (by rw [hone.num]; decide)
    (by rw [hone.sizeFile_eq]; decide)
  rw [hone.sizeFile_eq, hone.sizeMem_eq] at heq
  exact absurd heq (by decide)

end AnglOS
