import AnglOS.Elf
import AnglOS.KernelHalf
import AnglOS.UserHalf

/-!
# What Loading a Program Does

The loader writes through virtual addresses and maps pages at the addresses that the file names.
As long as these are user addresses it builds the user half of the new address space and touches
nothing else.

* `Puts` — a loop that writes one byte after the other; `memset` and `memcpy` are such loops.
* `ElfProgram.InUserHalf`, `UserFile` — the segments that lie in the user half.

## Main results

* `elfSegment_user` — what loading one segment does to the user half;
* `kernel_half_kept_of_elfLoad` — a file whose segments lie in the user half changes nothing of
  the kernel half.
-/

namespace AnglOS

open ElfLoader

/-! ### Writing one byte -/

/-- A write outside of the canonical addresses faults. -/
theorem put_not_canonical {l : ElfLoader} {v : ℕ} (hv : ¬ canonical v) (b : BitVec 8) :
    put v b l = { l with fault := true } := by
  unfold put
  split_ifs with hf
  · cases l
    simp_all
  · rw [Paging.writeAddress, if_neg hv]

/-- What a write to the user half does. -/
structure PutsByte (l l' : ElfLoader) (s₀ : Paging) (r v : ℕ) (b : BitVec 8) : Prop where
  space : UserSpace s₀ l'.paging r
  leaf : ∀ w, (l'.paging.lower r).leaf r w = (l.paging.lower r).leaf r w
  done : l'.fault = false → l.fault = false ∧ v < 2 ^ 47 ∧ (l.paging.lower r).leaf r v ≠ 0 ∧
    l'.writes = l.writes ++ [v] ∧ ∀ w < 2 ^ 47, l'.paging.userByte r w
      = if w = v then some b else l.paging.userByte r w
  fault : l'.fault = true → l'.writes = l.writes

/-- Two user addresses on the same page and with the same offset are equal. -/
theorem eq_of_page {v w : ℕ} (hv : v < 2 ^ 47) (hw : w < 2 ^ 47) :
    (pageNumber w = pageNumber v ∧ w % pageSize = v % pageSize) ↔ w = v := by
  simp only [pageNumber, pageSize]
  omega

/-- A canonical address of the lower half is a user address. -/
theorem lt_of_canonical {v : ℕ} (hcan : canonical v) (hv : (pageP4E v).val < 256) :
    v < 2 ^ 47 := by
  simp only [pageP4E, Fin.val_ofNat, Nat.shiftRight_eq_div_pow] at hv
  rcases hcan with h | h
  · exact h
  · omega

/-- **Writing one byte of the user half.** -/
theorem put_user {s₀ : Paging} {r v : ℕ} {l : ElfLoader} (h : UserSpace s₀ l.paging r)
    (hcr3 : s₀.cr3 = r) (hv : (pageP4E v).val < 256) (b : BitVec 8) :
    PutsByte l (put v b l) s₀ r v b := by
  unfold put
  split_ifs with hf
  · exact ⟨h, fun _ => rfl, fun hn => absurd hf (by simp [hn]), fun _ => rfl⟩
  · have hcr3' : l.paging.cr3 = r := h.kept.cr3.trans hcr3
    cases ha : l.paging.writeAddress v with
    | none => exact ⟨h, fun _ => rfl, fun hn => absurd hn (by simp), fun _ => rfl⟩
    | some a =>
        obtain ⟨hleaf, haddr⟩ := h.leaf_of_writeAddress hcr3' hv ha
        have hcan : canonical v := by
          by_contra hcan
          rw [Paging.writeAddress, if_neg hcan] at ha
          cases ha
        have hv47 := lt_of_canonical hcan hv
        have hpage : alignToPage a = frameOf ((l.paging.lower r).leaf r v) := by
          rw [haddr]
          exact alignToPage_add (frameOf_mod _) (Nat.mod_lt _ (by decide))
        have hoff : a % pageSize = v % pageSize := by
          rw [haddr, Nat.add_mod, frameOf_mod, Nat.zero_add, Nat.mod_mod, Nat.mod_mod]
        obtain ⟨hus, hleaves, hbytes⟩ := h.setByte hleaf hpage b
        refine ⟨hus, hleaves, fun _ => ⟨by simpa using hf, hv47, hleaf, rfl, fun w hw => ?_⟩,
          fun hn => absurd hn (by simpa using hf)⟩
        rw [hbytes w, hoff]
        exact if_congr (eq_of_page hv47 hw) rfl rfl

/-! ### Writing a range -/

/-- A loop that writes the bytes from `vaddr` on, one after the other. -/
def Puts (f : ℕ → ElfLoader → ElfLoader) (vaddr : ℕ) (byte : ℕ → BitVec 8) : Prop :=
  ∀ k l, ∃ reads, f k l = { put (add64 vaddr k) (byte k) l with reads := reads }

theorem puts_memset (vaddr : ℕ) (c : BitVec 8) :
    Puts (fun k => put (add64 vaddr k) c) vaddr fun _ => c :=
  fun k l => ⟨(put (add64 vaddr k) c l).reads, rfl⟩

theorem puts_memcpy (file : FileBytes) (i dest src : ℕ) :
    Puts (fun k l => put (add64 dest k) (file (add64 src k)) (ElfLoader.get i (add64 src k) l)) dest
      fun k => file (add64 src k) := by
  intro k l
  by_cases hf : l.fault = true
  · have hget : ElfLoader.get i (add64 src k) l = l := if_pos hf
    simp only [hget]
    exact ⟨_, rfl⟩
  · have hget : ElfLoader.get i (add64 src k) l
        = { l with reads := l.reads ++ [(i, add64 src k)] } := if_neg hf
    simp only [hget, put, if_neg hf]
    cases l.paging.writeAddress (add64 dest k) with
    | none => exact ⟨_, rfl⟩
    | some a => exact ⟨_, rfl⟩

/-- What a loop of writes to the user half does. -/
structure PutsRange (l l' : ElfLoader) (s₀ : Paging) (r vaddr n : ℕ) (byte : ℕ → BitVec 8) :
    Prop where
  space : UserSpace s₀ l'.paging r
  leaf : ∀ w, (l'.paging.lower r).leaf r w = (l.paging.lower r).leaf r w
  writes : ∃ ws, l'.writes = l.writes ++ ws ∧ ∀ v ∈ ws, v < 2 ^ 47
  done : l'.fault = false → l.fault = false ∧
    (∀ k < n, vaddr + k < 2 ^ 47 ∧ (l.paging.lower r).leaf r (vaddr + k) ≠ 0) ∧
    ∀ w < 2 ^ 47, l'.paging.userByte r w
      = if vaddr ≤ w ∧ w < vaddr + n then some (byte (w - vaddr)) else l.paging.userByte r w

/-- **Writing a range of the user half.** The addresses run upwards from a user address, and the
first address that is not one faults. -/
theorem puts_user {f : ℕ → ElfLoader → ElfLoader} {s₀ : Paging} {r vaddr : ℕ}
    {byte : ℕ → BitVec 8} {l : ElfLoader} (hf : Puts f vaddr byte) (h : UserSpace s₀ l.paging r)
    (hcr3 : s₀.cr3 = r) (hvaddr : vaddr < 2 ^ 64) {n : ℕ}
    (hp4 : 0 < n → (pageP4E vaddr).val < 256) : PutsRange l (loop f n l) s₀ r vaddr n byte := by
  refine loop_invariant (fun n l' => PutsRange l l' s₀ r vaddr n byte)
    ⟨h, fun _ => rfl, ⟨[], by simp, by simp⟩, fun hn => ⟨hn, fun k hk => absurd hk
      (Nat.not_lt_zero k), fun w _ => by rw [if_neg (by omega)]⟩⟩ ?_
  intro j hj l' hl'
  obtain ⟨reads, hstep⟩ := hf j l'
  by_cases hfault : l'.fault = true
  · -- nothing happens after a fault
    have hput : put (add64 vaddr j) (byte j) l' = l' := by
      unfold put
      rw [if_pos hfault]
    rw [hstep, hput]
    exact ⟨hl'.space, hl'.leaf, hl'.writes, fun hn => absurd hn (by simp [hfault])⟩
  · obtain ⟨hl, hbefore, hbytes⟩ := hl'.done (by simpa using hfault)
    by_cases hcan : canonical (add64 vaddr j)
    · have hadd : add64 vaddr j = vaddr + j ∧ (pageP4E (vaddr + j)).val < 256 := by
        cases j with
        | zero => exact ⟨add64_eq hvaddr, hp4 hj⟩
        | succ j =>
            have hprev := (hbefore j (by omega)).1
            have heq : add64 vaddr (j + 1) = vaddr + (j + 1) := add64_eq (by omega)
            rw [heq] at hcan
            refine ⟨heq, pageP4E_lt ?_⟩
            rcases hcan with h | h <;> omega
      rw [hstep, hadd.1]
      obtain ⟨hus, hleaf, hdone, hfaults⟩ := put_user (b := byte j) hl'.space hcr3 hadd.2
      refine ⟨hus, fun w => (hleaf w).trans (hl'.leaf w), ?_, fun hn => ?_⟩
      · obtain ⟨ws, hws, hlt⟩ := hl'.writes
        by_cases hn : (put (vaddr + j) (byte j) l').fault = true
        · exact ⟨ws, (hfaults hn).trans hws, hlt⟩
        · obtain ⟨-, hv47, -, hwrites, -⟩ := hdone (by simpa using hn)
          refine ⟨ws ++ [vaddr + j], by simp [hwrites, hws], fun v hv => ?_⟩
          rcases List.mem_append.mp hv with hv | hv
          · exact hlt v hv
          · rw [List.mem_singleton.mp hv]
            exact hv47
      · obtain ⟨-, hv47, hne, -, hbyte⟩ := hdone hn
        refine ⟨hl, fun k hk => ?_, fun w hw => ?_⟩
        · by_cases hkj : k < j
          · exact hbefore k hkj
          · obtain rfl : k = j := by omega
            exact ⟨hv47, by rw [← hl'.leaf]; exact hne⟩
        · rw [hbyte w hw, hbytes w hw]
          by_cases hwj : w = vaddr + j
          · rw [if_pos hwj, if_pos (by omega), hwj, Nat.add_sub_cancel_left]
          · rw [if_neg hwj]
            exact if_congr (by omega) rfl rfl
    · rw [hstep, put_not_canonical hcan]
      exact ⟨hl'.space, hl'.leaf, hl'.writes, fun hn => absurd hn (by simp)⟩

/-! ### The reads of the file -/

/-- What a write leaves alone. -/
theorem put_rest (v : ℕ) (b : BitVec 8) (l : ElfLoader) : (put v b l).reads = l.reads ∧
    (put v b l).space = l.space ∧ (put v b l).paging.log = l.paging.log := by
  unfold put
  split_ifs with hf
  · exact ⟨rfl, rfl, rfl⟩
  · cases l.paging.writeAddress v <;> exact ⟨rfl, rfl, rfl⟩

theorem fault_of_put {v : ℕ} {b : BitVec 8} {l : ElfLoader} (h : (put v b l).fault = false) :
    l.fault = false := by
  by_contra hf
  unfold put at h
  rw [if_pos (by simpa using hf)] at h
  exact hf h

theorem memset_reads (s : ℕ) (c : BitVec 8) (n : ℕ) (l : ElfLoader) :
    (l.memset s c n).reads = l.reads :=
  loop_invariant (fun _ (l' : ElfLoader) => l'.reads = l.reads) rfl
    fun _ _ _ hl' => (put_rest _ _ _).1.trans hl'

/-- A loop of writes leaves the address space and the record of the paging layer alone. -/
theorem puts_rest {f : ℕ → ElfLoader → ElfLoader} {vaddr : ℕ} {byte : ℕ → BitVec 8}
    (hf : Puts f vaddr byte) (n : ℕ) (l : ElfLoader) :
    (loop f n l).space = l.space ∧ (loop f n l).paging.log = l.paging.log := by
  refine loop_invariant (fun _ (l' : ElfLoader) => l'.space = l.space ∧
    l'.paging.log = l.paging.log) ⟨rfl, rfl⟩ fun j _ l' hl' => ?_
  obtain ⟨reads, hstep⟩ := hf j l'
  obtain ⟨-, hspace, hlog⟩ := put_rest (add64 vaddr j) (byte j) l'
  rw [hstep]
  exact ⟨hspace.trans hl'.1, hlog.trans hl'.2⟩

/-- **`memcpy` reads all its bytes** if it comes to its end. -/
theorem memcpy_reads {file : FileBytes} {i dest src n : ℕ} {l : ElfLoader}
    (h : (l.memcpy file i dest src n).fault = false) :
    (l.memcpy file i dest src n).reads
      = l.reads ++ (List.range n).map fun k => (i, add64 src k) := by
  refine loop_invariant (n := n) (s := l)
    (f := fun k l => put (add64 dest k) (file (add64 src k)) (ElfLoader.get i (add64 src k) l))
    (fun j l' => l'.fault = false →
      l'.reads = l.reads ++ (List.range j).map fun k => (i, add64 src k)) (by simp) ?_ h
  intro j _ l' hl' hn
  have hget := fault_of_put hn
  have hfault : l'.fault = false := by
    by_contra hf
    rw [ElfLoader.get, if_pos (by simpa using hf)] at hget
    exact hf hget
  rw [(put_rest _ _ _).1, ElfLoader.get, if_neg (by simp [hfault])]
  simp only
  rw [hl' hfault, List.range_succ, List.map_append, List.append_assoc]
  rfl

/-! ### One segment -/

theorem vflagsCR3_log (s : Paging) (v n : ℕ) (flags : BitVec 64) (root : ℕ) :
    (vflagsCR3 s v n flags root).log = s.log := by
  refine loop_invariant (f := fun i => vflagsHelper (add64 v (i * pageSize)) root flags)
    (s := { s with lock := true }) (fun _ s' => s'.log = s.log) rfl ?_
  intro j _ s' hs'
  rcases vflagsHelper_cases (add64 v (j * pageSize)) root flags s' with ⟨h, -⟩ | ⟨t, -, h⟩
  · rw [h, hs']
  · rw [h]
    exact hs'

/-- Every page of a range is touched by a byte of it. -/
theorem mul_lt_of_lt_getNumPages {i size : ℕ} (hsize : size < 2 ^ 64) (hi : i < getNumPages size) :
    i * pageSize < size := by
  simp only [getNumPages, add64, pageSize] at hi ⊢
  omega

/-- The segment lies in the user half: so does its address, and so do the pages that it maps. -/
def ElfProgram.InUserHalf (segment : ElfProgram) : Prop :=
  (0 < segment.sizeMem → (pageP4E segment.vaddr).val < 256) ∧
    ∀ i < getNumPages segment.sizeMem,
      (pageP4E (add64 (alignToPage segment.vaddr) (i * pageSize))).val < 256

/-- The address is on a page that the segment maps. -/
def ElfProgram.Covers (segment : ElfProgram) (w : ℕ) : Prop :=
  ∃ i < getNumPages segment.sizeMem,
    pageNumber w = pageNumber (add64 (alignToPage segment.vaddr) (i * pageSize))

/-- The address is on a page that the segment maps, unless it stops at address 0 before. -/
def ElfProgram.Maps (segment : ElfProgram) (w : ℕ) : Prop :=
  OnMapped (alignToPage segment.vaddr) (getNumPages segment.sizeMem) w

/-- What loading a segment of the user half does. -/
structure LoadsSegment (l l' : ElfLoader) (s₀ : Paging) (r i : ℕ) (file : FileBytes)
    (segment : ElfProgram) : Prop where
  space : UserSpace s₀ l'.paging r
  cr3 : l'.space.cr3 = r
  writes : ∃ ws, l'.writes = l.writes ++ ws ∧ ∀ v ∈ ws, v < 2 ^ 47
  length : l'.fault = false → l'.space.entries.length = i + 1
  fault : l'.fault = false → l.fault = false
  reads : l'.fault = false → l'.reads
    = l.reads ++ (List.range segment.sizeMem).map fun k => (i, add64 segment.offset k)
  bytes : l'.fault = false → ∀ k < segment.sizeMem, segment.vaddr + k < 2 ^ 47 ∧
    l'.paging.userByte r (segment.vaddr + k) = some (file (add64 segment.offset k))
  others : l'.fault = false → ∀ w < 2 ^ 47, ¬ segment.Covers w →
    (l'.paging.lower r).leaf r w = (l.paging.lower r).leaf r w ∧
      (¬ (segment.vaddr ≤ w ∧ w < segment.vaddr + segment.sizeMem) →
        l'.paging.userByte r w = l.paging.userByte r w)
  mapped : l'.fault = false → ∀ k < segment.sizeMem, ¬segment.Maps (segment.vaddr + k) →
    (l.paging.lower r).leaf r (segment.vaddr + k) ≠ 0

/-- The segment after its pages were mapped. -/
def ElfLoader.addEntry (type : AddrspaceType) (segment : ElfProgram) (l : ElfLoader) : ElfLoader :=
  let r := addressSpaceAddEntry l.space type
    (addrspaceFlagUser ||| addrspaceFlagWriteable ||| addrspaceFlagExecutable)
    segment.sizeMem segment.vaddr l.paging
  { l with space := r.1, paging := r.2 }

/-- The segment after its bytes were written. -/
def ElfLoader.fill (file : FileBytes) (i : ℕ) (segment : ElfProgram) (l : ElfLoader) : ElfLoader :=
  (l.memset segment.vaddr 0 segment.sizeMem).memcpy file i segment.vaddr segment.offset
    segment.sizeMem

theorem fill_rest (file : FileBytes) (i : ℕ) (segment : ElfProgram) (l : ElfLoader) :
    (l.fill file i segment).space = l.space ∧
      (l.fill file i segment).paging.log = l.paging.log := by
  obtain ⟨hspace, hlog⟩ := puts_rest (puts_memset segment.vaddr 0) segment.sizeMem l
  obtain ⟨hspace', hlog'⟩ := puts_rest (puts_memcpy file i segment.vaddr segment.offset)
    segment.sizeMem (l.memset segment.vaddr 0 segment.sizeMem)
  exact ⟨hspace'.trans hspace, hlog'.trans hlog⟩

/-- A round of the loop in its steps. -/
theorem elfSegment_steps {l : ElfLoader} (hf : l.fault = false) (file : FileBytes)
    (type : AddrspaceType) (i : ℕ) (segment : ElfProgram) :
    elfSegment file type i segment l =
      if ((l.addEntry type segment).fill file i segment).fault then
        (l.addEntry type segment).fill file i segment
      else
        match addressSpaceChangeFlags ((l.addEntry type segment).fill file i segment).space i
          (elfFlags segment) ((l.addEntry type segment).fill file i segment).paging with
        | some (_, space, paging) =>
            { (l.addEntry type segment).fill file i segment with space := space, paging := paging }
        | none => (l.addEntry type segment).fill file i segment := by
  unfold elfSegment
  rw [if_neg (by simp [hf])]
  rfl

/-- The flags that are changed are those of the entry that was added, if the address space had one
entry for each segment before. -/
theorem elfSegment_eq {file : FileBytes} {type : AddrspaceType} {i : ℕ} {segment : ElfProgram}
    {l : ElfLoader} (hf : l.fault = false) (hlen : l.space.entries.length = i) :
    elfSegment file type i segment l =
      if ((l.addEntry type segment).fill file i segment).fault then
        (l.addEntry type segment).fill file i segment
      else { (l.addEntry type segment).fill file i segment with
        space := ⟨l.space.cr3, (l.addEntry type segment).space.entries.set i
          ⟨type, elfFlags segment, segment.sizeMem, segment.vaddr⟩⟩
        paging := vflagsCR3 ((l.addEntry type segment).fill file i segment).paging
          (alignToPage segment.vaddr) (getNumPages segment.sizeMem)
          (convAddrSpaceFlagsToPaging (elfFlags segment)) l.space.cr3 } := by
  have hentry : (l.addEntry type segment).space.entries[i]? = some ⟨type,
      addrspaceFlagUser ||| addrspaceFlagWriteable ||| addrspaceFlagExecutable, segment.sizeMem,
      segment.vaddr⟩ := by
    simp [ElfLoader.addEntry, addressSpaceAddEntry, ← hlen]
  rw [elfSegment_steps hf, (fill_rest file i segment _).1, addressSpaceChangeFlags, hentry]
  rfl

/-- The record of the paging layer only grows. -/
theorem elfSegment_log_extends (file : FileBytes) (type : AddrspaceType) (i : ℕ)
    (segment : ElfProgram) (l : ElfLoader) :
    l.paging.log <+: (elfSegment file type i segment l).paging.log := by
  by_cases hf : l.fault = true
  · have hsame : elfSegment file type i segment l = l := if_pos hf
    rw [hsame]
  · have hlog : l.paging.log <+: ((l.addEntry type segment).fill file i segment).paging.log := by
      rw [(fill_rest file i segment _).2]
      exact vmallocCR3_log _ _ _ _ _
    rw [elfSegment_steps (by simpa using hf)]
    split_ifs
    · exact hlog
    · split
      · next space paging heq =>
          obtain ⟨e, -, he⟩ := Option.map_eq_some_iff.mp heq
          obtain ⟨-, -, rfl⟩ : _ ∧ _ ∧ _ = paging := by simpa using he
          exact hlog.trans (vflagsCR3_log _ _ _ _ _ ▸ List.prefix_rfl)
      · exact hlog

/-- The record of the paging layer after a segment is that after its pages were mapped. -/
theorem elfSegment_log {file : FileBytes} {type : AddrspaceType} {i : ℕ} {segment : ElfProgram}
    {l : ElfLoader} (hf : l.fault = false) (hlen : l.space.entries.length = i) :
    (elfSegment file type i segment l).paging.log = (l.addEntry type segment).paging.log := by
  rw [elfSegment_eq hf hlen]
  split_ifs
  · exact (fill_rest file i segment _).2
  · exact (vflagsCR3_log _ _ _ _ _).trans (fill_rest file i segment _).2

/-- The pages of a segment are those of its bytes. -/
theorem pageNumber_segment {vaddr i : ℕ} (h : vaddr + i * pageSize < 2 ^ 47) :
    pageNumber (add64 (alignToPage vaddr) (i * pageSize)) = pageNumber (vaddr + i * pageSize) := by
  have hadd : add64 (alignToPage vaddr) (i * pageSize) = alignToPage vaddr + i * pageSize := by
    refine add64_eq ?_
    simp only [alignToPage, pageSize] at h ⊢
    omega
  rw [hadd]
  simp only [pageNumber, alignToPage, pageSize]
  omega

/-- What mapping a segment of the user half does. -/
theorem addEntry_user {s₀ : Paging} {r : ℕ} {type : AddrspaceType} {segment : ElfProgram}
    {l : ElfLoader} (h : UserSpace s₀ l.paging r) (hspace : l.space.cr3 = r)
    (hsegment : segment.InUserHalf) (hok : ∀ e ∈ (l.addEntry type segment).paging.log, e.Good) :
    UserSpace s₀ (l.addEntry type segment).paging r ∧
      MapsUser l.paging (l.addEntry type segment).paging r (alignToPage segment.vaddr)
        (getNumPages segment.sizeMem) 7 := by
  have hflags : convAddrSpaceFlagsToPaging
      (addrspaceFlagUser ||| addrspaceFlagWriteable ||| addrspaceFlagExecutable) = 7 := by decide
  have hpaging : (l.addEntry type segment).paging = (vmallocCR3 l.paging
      (alignToPage segment.vaddr) (getNumPages segment.sizeMem) 7 r).2 := by
    rw [← hflags, ← hspace]
    rfl
  rw [hpaging] at hok
  obtain ⟨hus, hmaps⟩ := h.vmallocCR3 hsegment.2 (by unfold FlagBits; decide) (by decide) hok
  rw [← hpaging] at hus hmaps
  exact ⟨hus, hmaps⟩

/-- What mapping and filling a segment of the user half does. -/
theorem fill_user {s₀ : Paging} {r : ℕ} (file : FileBytes) (i : ℕ) {type : AddrspaceType}
    {segment : ElfProgram} {l : ElfLoader} (h : UserSpace s₀ l.paging r) (hcr3 : s₀.cr3 = r)
    (hspace : l.space.cr3 = r) (hsegment : segment.InUserHalf) (hvaddr : segment.vaddr < 2 ^ 64)
    (hok : ∀ e ∈ (l.addEntry type segment).paging.log, e.Good) :
    MapsUser l.paging (l.addEntry type segment).paging r (alignToPage segment.vaddr)
        (getNumPages segment.sizeMem) 7 ∧
      PutsRange (l.addEntry type segment)
        ((l.addEntry type segment).memset segment.vaddr 0 segment.sizeMem) s₀ r segment.vaddr
        segment.sizeMem (fun _ => 0) ∧
      PutsRange ((l.addEntry type segment).memset segment.vaddr 0 segment.sizeMem)
        ((l.addEntry type segment).fill file i segment) s₀ r segment.vaddr segment.sizeMem
        fun k => file (add64 segment.offset k) := by
  obtain ⟨hus, hmaps⟩ := addEntry_user h hspace hsegment hok
  have hset := puts_user (l := l.addEntry type segment) (puts_memset segment.vaddr 0) hus hcr3
    hvaddr hsegment.1
  exact ⟨hmaps, hset, puts_user (puts_memcpy file i segment.vaddr segment.offset) hset.space hcr3
    hvaddr hsegment.1⟩

/-- **Loading a segment of the user half.** -/
theorem elfSegment_user {s₀ : Paging} {r i : ℕ} (file : FileBytes) (type : AddrspaceType)
    {segment : ElfProgram} {l : ElfLoader} (h : UserSpace s₀ l.paging r) (hcr3 : s₀.cr3 = r)
    (hspace : l.space.cr3 = r) (hlen : l.fault = false → l.space.entries.length = i)
    (hsegment : segment.InUserHalf) (hvaddr : segment.vaddr < 2 ^ 64)
    (hsize : segment.sizeMem < 2 ^ 64)
    (hok : ∀ e ∈ (elfSegment file type i segment l).paging.log, e.Good) :
    LoadsSegment l (elfSegment file type i segment l) s₀ r i file segment := by
  subst hspace
  by_cases hf : l.fault = true
  · have hsame : elfSegment file type i segment l = l := if_pos hf
    have hnot : ∀ {P : Prop}, l.fault = false → P := fun hn => absurd hf (by simp [hn])
    rw [hsame]
    exact ⟨h, rfl, ⟨[], by simp, by simp⟩, hnot, hnot, hnot, hnot, hnot, hnot⟩
  have hf : l.fault = false := by simpa using hf
  rw [elfSegment_log hf (hlen hf)] at hok
  obtain ⟨hmaps, hset, hcpy⟩ := fill_user file i h hcr3 rfl hsegment hvaddr hok
  have hwrites : ∃ ws, ((l.addEntry type segment).fill file i segment).writes = l.writes ++ ws ∧
      ∀ v ∈ ws, v < 2 ^ 47 := by
    obtain ⟨ws, hws, hlt⟩ := hset.writes
    obtain ⟨ws', hws', hlt'⟩ := hcpy.writes
    refine ⟨ws ++ ws', by rw [hws', hws, List.append_assoc]; rfl, fun v hv => ?_⟩
    exact (List.mem_append.mp hv).elim (hlt v) (hlt' v)
  rw [elfSegment_eq hf (hlen hf)]
  by_cases hfault : ((l.addEntry type segment).fill file i segment).fault = true
  · have hnot : ∀ {P : Prop}, ((l.addEntry type segment).fill file i segment).fault = false → P :=
      fun hn => absurd hfault (by simp [hn])
    rw [if_pos hfault]
    refine ⟨hcpy.space, ?_, hwrites, hnot, hnot, hnot, hnot, hnot, hnot⟩
    rw [(fill_rest file i segment _).1]
    rfl
  rw [if_neg hfault]
  have hfault : ((l.addEntry type segment).fill file i segment).fault = false := by
    simpa using hfault
  obtain ⟨hset', hpages, hbytes⟩ := hcpy.done hfault
  obtain ⟨-, hpages', hbytes'⟩ := hset.done hset'
  have hleaf : ∀ a < getNumPages segment.sizeMem,
      (((l.addEntry type segment).fill file i segment).paging.lower l.space.cr3).leaf l.space.cr3
        (add64 (alignToPage segment.vaddr) (a * pageSize)) ≠ 0 := by
    intro a ha
    obtain ⟨hlt, hne⟩ := hpages _ (mul_lt_of_lt_getNumPages hsize ha)
    rw [leaf_congr _ _ (pageNumber_segment hlt), hcpy.leaf]
    exact hne
  obtain ⟨hflags, hpres⟩ := convAddrSpaceFlagsToPaging_bits (elfFlags segment)
  obtain ⟨hus, hsame, hothers⟩ := hcpy.space.vflagsCR3 hsegment.2 hleaf hflags hpres
  refine ⟨hus, rfl, hwrites, fun _ => ?_, fun _ => hf, fun _ => ?_, fun _ k hk => ?_,
    fun _ w hw hcover => ?_, fun _ k hk hmap => ?_⟩
  · simp [ElfLoader.addEntry, addressSpaceAddEntry, hlen hf]
  · rw [ElfLoader.fill, memcpy_reads hfault, memset_reads]
    rfl
  · obtain ⟨hlt, -⟩ := hpages k hk
    rw [hsame, hbytes _ hlt, if_pos (by omega), Nat.add_sub_cancel_left]
    exact ⟨hlt, rfl⟩
  · have hrange : ∀ a < getNumPages segment.sizeMem,
        pageNumber w ≠ pageNumber (add64 (alignToPage segment.vaddr) (a * pageSize)) :=
      fun a ha heq => hcover ⟨a, ha, heq⟩
    obtain ⟨hleaf₁, hbyte₁⟩ := hmaps.others w hrange
    refine ⟨?_, fun hout => ?_⟩
    · rw [hothers w hrange, hcpy.leaf, hset.leaf, hleaf₁]
    · rw [hsame, hbytes w hw, if_neg hout, hbytes' w hw, if_neg hout, hbyte₁]
  · obtain ⟨-, hne⟩ := hpages' k hk
    rwa [hmaps.leaf_of_not_onMapped hmap] at hne

/-! ### The loop over the segments -/

theorem FileBytes.number_lt (file : FileBytes) (pos n : ℕ) : file.number pos n < 256 ^ n := by
  induction n generalizing pos with
  | zero => exact Nat.one_pos
  | succ n ih =>
      have hbyte := (file (pos % 2 ^ 64)).isLt
      have hrest := ih (pos + 1)
      rw [FileBytes.number, pow_succ]
      omega

/-- The fields of a program header are 64-bit numbers. -/
theorem elfProgram_lt (file : FileBytes) (i : ℕ) :
    (elfProgram file i).vaddr < 2 ^ 64 ∧ (elfProgram file i).sizeMem < 2 ^ 64 ∧
      (elfProgram file i).sizeFile < 2 ^ 64 := by
  have hlt : ∀ pos, file.number pos 8 < 2 ^ 64 := fun pos =>
    (file.number_lt pos 8).trans_eq (by norm_num)
  unfold elfProgram
  exact ⟨hlt _, hlt _, hlt _⟩

/-- One more round of the loop. -/
theorem elfLoop_succ (file : FileBytes) (type : AddrspaceType) (n : ℕ) (l : ElfLoader) :
    elfLoop file type (n + 1) l =
      if (elfLoop file type n l).1 = true ∧ (elfProgram file n).type = elfSegmentLoad then
        (true, elfSegment file type n (elfProgram file n) (elfLoop file type n l).2)
      else (false, (elfLoop file type n l).2) := by
  rcases hr : elfLoop file type n l with ⟨_ | _, l'⟩
  · simp [elfLoop, hr]
  · simp [elfLoop, hr]

theorem elfLoop_log_extends (file : FileBytes) (type : AddrspaceType) (n : ℕ) (l : ElfLoader) :
    (elfLoop file type n l).2.paging.log <+: (elfLoop file type (n + 1) l).2.paging.log := by
  rw [elfLoop_succ]
  by_cases h : (elfLoop file type n l).1 = true ∧ (elfProgram file n).type = elfSegmentLoad
  · rw [if_pos h]
    exact elfSegment_log_extends file type n (elfProgram file n) (elfLoop file type n l).2
  · rw [if_neg h]

/-- The loop goes on as long as the program headers are of type `LOAD`. -/
theorem elfLoop_fst (file : FileBytes) (type : AddrspaceType) (n : ℕ) (l : ElfLoader) :
    (elfLoop file type n l).1 = true ↔ ∀ m < n, (elfProgram file m).type = elfSegmentLoad := by
  induction n with
  | zero => simp [elfLoop]
  | succ n ih =>
      rw [elfLoop_succ, Nat.forall_lt_succ_right, ← ih]
      split_ifs with h
      · simp [h]
      · simpa using h

/-- The loader faults at the segment: a byte of it is at no user address, or on a page that neither
the segment nor an earlier one maps. -/
def SegmentFaults (file : FileBytes) (n : ℕ) : Prop :=
  ∃ k < (elfProgram file n).sizeMem, 2 ^ 47 ≤ (elfProgram file n).vaddr + k ∨
    ∀ m ≤ n, ¬(elfProgram file m).Maps ((elfProgram file n).vaddr + k)

/-- All segments that the loader reaches lie in the user half. -/
def UserFile (file : FileBytes) : Prop :=
  strncmp file elfMagic 4 = 0 → ∀ n < (elfHeader file).programHeaderNumEntries,
    (∀ m ≤ n, (elfProgram file m).type = elfSegmentLoad) → (∀ m < n, ¬SegmentFaults file m) →
      (elfProgram file n).InUserHalf

/-- What the loop keeps if the segments lie in the user half. -/
structure LoopOk (file : FileBytes) (l : ElfLoader) (s₀ : Paging) (r n : ℕ) (ok : Bool) :
    Prop where
  space : UserSpace s₀ l.paging r
  cr3 : l.space.cr3 = r
  writes : ∀ v ∈ l.writes, v < 2 ^ 47
  length : ok = true → l.fault = false → l.space.entries.length = n
  unmapped : l.fault = false → ∀ w < 2 ^ 47, (∀ m < n, ¬(elfProgram file m).Maps w) →
    (l.paging.lower r).leaf r w = 0
  running : ok = true → l.fault = false → ∀ m < n, ¬SegmentFaults file m

/-- The loader before the first segment. -/
theorem LoopOk.start {s : Paging} {r : ℕ} (file : FileBytes) (h : UserSpace s s r) :
    LoopOk file ⟨s, ⟨r, []⟩, false, [], []⟩ s r 0 true := by
  refine ⟨h, rfl, fun v hv => absurd hv List.not_mem_nil, fun _ _ => rfl, fun _ w _ _ => ?_,
    fun _ _ m hm => absurd hm (Nat.not_lt_zero m)⟩
  by_contra hne
  obtain ⟨hfree, hissued, -⟩ := h.data w hne
  exact hissued hfree

/-- A segment that was loaded did not fault. -/
theorem LoadsSegment.not_faults {l l' : ElfLoader} {s₀ : Paging} {r n : ℕ} {file : FileBytes}
    (h : LoadsSegment l l' s₀ r n file (elfProgram file n))
    (hunmapped : ∀ w < 2 ^ 47, (∀ m < n, ¬(elfProgram file m).Maps w) →
      (l.paging.lower r).leaf r w = 0)
    (hfault : l'.fault = false) : ¬SegmentFaults file n := by
  rintro ⟨k, hk, hlt | hnone⟩
  · have := (h.bytes hfault k hk).1
    omega
  · exact h.mapped hfault k hk (hnone n le_rfl)
      (hunmapped _ (h.bytes hfault k hk).1 fun m hm => hnone m hm.le)

/-- The pages that no segment maps after one more. -/
theorem LoadsSegment.unmapped {l l' : ElfLoader} {s₀ : Paging} {r n : ℕ} {file : FileBytes}
    (h : LoadsSegment l l' s₀ r n file (elfProgram file n))
    (hunmapped : ∀ w < 2 ^ 47, (∀ m < n, ¬(elfProgram file m).Maps w) →
      (l.paging.lower r).leaf r w = 0)
    (hsize : (elfProgram file n).sizeMem < 2 ^ 64) (hfault : l'.fault = false) {w : ℕ}
    (hlt : w < 2 ^ 47) (hw : ∀ m < n + 1, ¬(elfProgram file m).Maps w) :
    (l'.paging.lower r).leaf r w = 0 := by
  have hold : (l.paging.lower r).leaf r w = 0 := hunmapped w hlt fun m hm => hw m (by omega)
  by_cases hcovers : (elfProgram file n).Covers w
  · -- a byte of the segment is on the page
    obtain ⟨i, hi, hwi⟩ := hcovers
    have hk := mul_lt_of_lt_getNumPages hsize hi
    have hpage := pageNumber_segment (h.bytes hfault _ hk).1
    refine absurd hold ?_
    rw [leaf_congr _ _ (hwi.trans hpage)]
    refine h.mapped hfault _ hk ?_
    rintro ⟨a, ha, hne, heq⟩
    exact hw n (Nat.lt_succ_self n) ⟨a, ha, hne, (hwi.trans hpage).trans heq⟩
  · rw [(h.others hfault w hlt hcovers).1, hold]

/-- **The loop over the segments of the user half.** -/
theorem elfLoop_user {s₀ : Paging} {r n : ℕ} {file : FileBytes} {type : AddrspaceType}
    {l : ElfLoader} (h : LoopOk file l s₀ r 0 true) (hcr3 : s₀.cr3 = r)
    (hfile : ∀ m < n, (∀ j ≤ m, (elfProgram file j).type = elfSegmentLoad) →
      (∀ j < m, ¬SegmentFaults file j) → (elfProgram file m).InUserHalf)
    (hok : ∀ e ∈ (elfLoop file type n l).2.paging.log, e.Good) :
    LoopOk file (elfLoop file type n l).2 s₀ r n (elfLoop file type n l).1 := by
  induction n with
  | zero => exact h
  | succ n ih =>
      have hrec := ih (fun m hm => hfile m (by omega)) fun e he =>
        hok e ((elfLoop_log_extends file type n l).subset he)
      rw [elfLoop_succ] at hok ⊢
      by_cases hgo : (elfLoop file type n l).1 = true ∧ (elfProgram file n).type = elfSegmentLoad
      swap
      · rw [if_neg hgo]
        exact ⟨hrec.space, hrec.cr3, hrec.writes, fun hn => absurd hn (by simp),
          fun hf w hlt hw => hrec.unmapped hf w hlt fun m hm => hw m (by omega),
          fun hn => absurd hn (by simp)⟩
      rw [if_pos hgo] at hok ⊢
      obtain ⟨htrue, htype⟩ := hgo
      by_cases hf : (elfLoop file type n l).2.fault = true
      · -- the loader has faulted before
        have hsame : elfSegment file type n (elfProgram file n) (elfLoop file type n l).2
            = (elfLoop file type n l).2 := if_pos hf
        have hnot : ∀ {P : Prop}, (elfLoop file type n l).2.fault = false → P := fun hn =>
          absurd hf (by simp [hn])
        rw [hsame]
        exact ⟨hrec.space, hrec.cr3, hrec.writes, fun _ => hnot, hnot, fun _ => hnot⟩
      have hf : (elfLoop file type n l).2.fault = false := by simpa using hf
      have hall := (elfLoop_fst file type n l).mp htrue
      have hsegment : (elfProgram file n).InUserHalf := hfile n (by omega)
        (fun j hj => by
          rcases Nat.lt_or_eq_of_le hj with hj | rfl
          · exact hall j hj
          · exact htype)
        (hrec.running htrue hf)
      obtain ⟨hvaddr, hsize, -⟩ := elfProgram_lt file n
      have hseg := elfSegment_user file type hrec.space hcr3 hrec.cr3
        (hrec.length htrue) hsegment hvaddr hsize hok
      obtain ⟨ws, hws, hlt⟩ := hseg.writes
      refine ⟨hseg.space, hseg.cr3, fun v hv => ?_, fun _ => hseg.length, fun hfault w hlt hw =>
        hseg.unmapped (hrec.unmapped hf) hsize hfault hlt hw, fun _ hfault m hm => ?_⟩
      · rw [hws] at hv
        exact (List.mem_append.mp hv).elim (hrec.writes v) (hlt v)
      · rcases Nat.lt_succ_iff_lt_or_eq.mp hm with hm | rfl
        · exact hrec.running htrue hf m hm
        · exact hseg.not_faults (hrec.unmapped hf) hfault

/-! ### The kernel half -/

/-- The record of the paging layer only grows. -/
theorem elfLoad_log_extends (space : AddressSpace) (file : FileBytes) (type : AddrspaceType)
    (s : Paging) : s.log <+: (elfLoad space (some file) type s).2.paging.log := by
  have hloop : ∀ n, s.log <+: (elfLoop file type n ⟨s, space, false, [], []⟩).2.paging.log := by
    intro n
    induction n with
    | zero => exact List.prefix_rfl
    | succ n ih => exact ih.trans (elfLoop_log_extends file type n _)
  unfold elfLoad
  by_cases hmagic : strncmp file elfMagic 4 = 0
  · simp only [ne_eq, hmagic, not_true_eq_false, if_false]
    exact hloop _
  · simp only [ne_eq, hmagic, not_false_eq_true, if_true]
    exact List.prefix_rfl

/-- Loading a file whose segments lie in the user half. -/
theorem elfLoad_user {s₀ : Paging} {r : ℕ} {file : FileBytes} {type : AddrspaceType}
    (h : UserSpace s₀ s₀ r) (hcr3 : s₀.cr3 = r) (hfile : UserFile file)
    (hgood : ∀ e ∈ (elfLoad ⟨r, []⟩ (some file) type s₀).2.paging.log, e.Good) :
    UserSpace s₀ (elfLoad ⟨r, []⟩ (some file) type s₀).2.paging r ∧
      ∀ v ∈ (elfLoad ⟨r, []⟩ (some file) type s₀).2.writes, v < 2 ^ 47 := by
  have hstart := LoopOk.start file h
  unfold elfLoad at hgood ⊢
  by_cases hmagic : strncmp file elfMagic 4 = 0
  · simp only [ne_eq, hmagic, not_true_eq_false, if_false] at hgood ⊢
    have hloop := elfLoop_user hstart hcr3 (fun m hm => hfile hmagic m hm) hgood
    exact ⟨hloop.space, hloop.writes⟩
  · simp only [ne_eq, hmagic, not_false_eq_true, if_true]
    exact ⟨h, hstart.writes⟩

/-- The state in which `threadCreate` calls the loader: a new address space, which is active. -/
def elfStart (s : Paging) : Paging := pagingSetCR3 (pagingCreateUser s).2 (pagingCreateUser s).1

/-- A new address space has an empty user half. -/
theorem elfStart_userSpace {s : Paging} (hs : Supply s) (hbsp : s.bspCr3 % pageSize = 0)
    (hbsp' : s.bspCr3 ∉ s.unissued) (hgood : ∀ e ∈ (elfStart s).log, e.Good) :
    UserSpace (elfStart s) (elfStart s) (pagingCreateUser s).1 := by
  obtain ⟨m, hm⟩ := pagingCreateUser_withMem s
  have hgood' : ∀ e ∈ (pagingAllocTable s).2.log, e.Good := by
    rw [elfStart, pagingSetCR3, hm] at hgood
    exact hgood
  have hok : s.RefillOk := refillOk_of_log fun e he =>
    (hgood' e (List.mem_append_left _ he)).served
  obtain ⟨hf, hsup, hsub, hent, -⟩ := pagingCreateUser_spec hs hok hbsp hbsp'
  have hfmod := hs.aligned _ hf
  refine UserSpace.init (hsup.setCR3 _) hfmod ?_ fun i hi => ?_
  · rw [elfStart, pagingSetCR3_unissued]
    exact fun hmem => (hsub hmem).2 rfl
  · rw [elfStart, pagingSetCR3_entry, hent _ i hfmod, if_pos rfl, if_neg (by omega)]
    split_ifs with h0
    · rfl
    · have hclean := pagingAllocTable_clean hgood' i
      obtain ⟨hf', -, -, hent', -⟩ := pagingAllocTable_spec hs hok
      rw [hent' _ i (hs.aligned _ hf'), if_neg fun hc => h0 hc.2] at hclean
      exact hclean

/-- Loading changes nothing of the kernel half: every page of it that is reached through tables
that are in use is translated as before, by every top-level table, and no byte is written
through a page of it. -/
structure KernelKept (s : Paging) (l : ElfLoader) (r : ℕ) : Prop where
  translation : ∀ root v, root % pageSize = 0 → 256 ≤ (pageP4E v).val →
    (∀ k t, s.Passes root v k t → t ∉ s.unissued ∧ (t = r → k = 3)) →
    l.paging.translation root v = s.translation root v
  writes : ∀ v ∈ l.writes, (pageP4E v).val < 256

/-- **Loading a file whose segments lie in the user half changes nothing of the kernel half.** -/
theorem kernel_half_kept_of_elfLoad {s : Paging} {file : FileBytes} {type : AddrspaceType}
    (hs : Supply s) (hbsp : s.bspCr3 % pageSize = 0) (hbsp' : s.bspCr3 ∉ s.unissued)
    (hgood : ∀ e ∈ (elfLoad ⟨(pagingCreateUser s).1, []⟩ (some file) type
      (elfStart s)).2.paging.log, e.Good)
    (hfile : UserFile file) :
    KernelKept (elfStart s)
      (elfLoad ⟨(pagingCreateUser s).1, []⟩ (some file) type (elfStart s)).2
      (pagingCreateUser s).1 := by
  have hcr3 : (elfStart s).cr3 = (pagingCreateUser s).1 := rfl
  have hlog : (elfStart s).log <+: (elfLoad ⟨(pagingCreateUser s).1, []⟩ (some file) type
      (elfStart s)).2.paging.log := elfLoad_log_extends _ _ _ _
  have hstart := elfStart_userSpace hs hbsp hbsp' fun e he => hgood e (hlog.subset he)
  generalize elfStart s = s₀ at hcr3 hgood hstart ⊢
  generalize (pagingCreateUser s).1 = r at hcr3 hgood hstart ⊢
  obtain ⟨hus, hwrites⟩ := elfLoad_user hstart hcr3 hfile hgood
  refine ⟨fun root v hroot hv hpass => hus.translation_kernel hroot fun k t ht => ?_, fun v hv =>
    pageP4E_lt (hwrites v hv)⟩
  obtain ⟨hissued, htop⟩ := hpass k t ht
  refine ⟨hissued, fun htr => ?_⟩
  rw [htop htr]
  exact hv

/-- A file with one segment of one byte in memory, at a given address. -/
def oneSegmentFile (vaddr sizeFile : ℕ) : FileBytes := fun k =>
  if k < 4 then elfMagic k
  else if k = 32 then 64
  else if k = 56 ∨ k = 64 ∨ k = 104 then 1
  else if 80 ≤ k ∧ k < 88 then BitVec.ofNat 8 (vaddr / 256 ^ (k - 80))
  else if k = 96 then BitVec.ofNat 8 sizeFile
  else 0

/-- The file has one program header, of a segment of one byte in memory. -/
structure HasOneSegment (file : FileBytes) (vaddr sizeFile : ℕ) : Prop where
  magic : strncmp file elfMagic 4 = 0
  num : (elfHeader file).programHeaderNumEntries = 1
  load : (elfProgram file 0).type = elfSegmentLoad
  vaddr_eq : (elfProgram file 0).vaddr = vaddr
  sizeMem_eq : (elfProgram file 0).sizeMem = 1
  sizeFile_eq : (elfProgram file 0).sizeFile = sizeFile

/-- The files with one segment say what they should. -/
theorem hasOneSegment_oneSegmentFile : ∀ v ∈ [0x400000, slotPage], ∀ n < 2,
    HasOneSegment (oneSegmentFile v n) v n := by
  have heval : ∀ v ∈ [0x400000, slotPage], ∀ n < 2,
      strncmp (oneSegmentFile v n) elfMagic 4 = 0 ∧
        (elfHeader (oneSegmentFile v n)).programHeaderNumEntries = 1 ∧
        (elfProgram (oneSegmentFile v n) 0).type = elfSegmentLoad ∧
        (elfProgram (oneSegmentFile v n) 0).vaddr = v ∧
        (elfProgram (oneSegmentFile v n) 0).sizeMem = 1 ∧
        (elfProgram (oneSegmentFile v n) 0).sizeFile = n := by decide +kernel
  intro v hv n hn
  obtain ⟨h1, h2, h3, h4, h5, h6⟩ := heval v hv n hn
  exact ⟨h1, h2, h3, h4, h5, h6⟩

/-- A file with one segment is loaded in one round. -/
theorem elfLoad_oneSegment {file : FileBytes} {type : AddrspaceType} {space : AddressSpace}
    {s : Paging} {vaddr sizeFile : ℕ} (h : HasOneSegment file vaddr sizeFile) :
    (elfLoad space (some file) type s).2
      = elfSegment file type 0 (elfProgram file 0) ⟨s, space, false, [], []⟩ := by
  have hzero : elfLoop file type 0 ⟨s, space, false, [], []⟩ = (true, ⟨s, space, false, [], []⟩) :=
    rfl
  have hloop : elfLoop file type 1 ⟨s, space, false, [], []⟩
      = (true, elfSegment file type 0 (elfProgram file 0) ⟨s, space, false, [], []⟩) := by
    rw [elfLoop_succ, hzero, if_pos ⟨rfl, h.load⟩]
  unfold elfLoad
  simp only [ne_eq, h.magic, not_true_eq_false, if_false, h.num, hloop]

/-- A new address space has no entries if the kernel's has none and the frames to come are
blank. -/
theorem elfStart_ready {s : Paging} {k : ℕ} (h : Ready s s.bspCr3) (hserves : Serves s (k + 1))
    (hbsp : ∀ i, s.entry s.bspCr3 i = 0) :
    Ready (elfStart s) (pagingCreateUser s).1 ∧ Serves (elfStart s) k ∧
      ∀ i, (elfStart s).entry (pagingCreateUser s).1 i = 0 := by
  have hnext : Serves (pagingCreateUser s).2 k := hserves.createUser
  have hready := h.createUser hnext.served
  have hok := hserves.available.refillOk
  obtain ⟨hf, -, hsub, hent, -⟩ := pagingCreateUser_spec h.supply hok h.tree.root_mod
    (h.tree.issued [] _ (Nat.zero_le 3) rfl)
  have hmod := h.supply.aligned _ hf
  have hfirst : (pagingCreateUser s).1 = (pmallocBulk s).1 := rfl
  have hzero : ∀ i, (pagingCreateUser s).2.entry (pagingCreateUser s).1 i = 0 := by
    intro i
    rw [hent _ i hmod, if_pos rfl]
    split_ifs with hi h0
    · exact hbsp i
    · rfl
    · rw [hfirst]
      exact h.blanks.head hok i h0
  have hissued : (pagingCreateUser s).1 ∉ (pagingCreateUser s).2.unissued := fun hf =>
    (hsub hf).2 rfl
  unfold elfStart
  generalize pagingCreateUser s = res at hnext hready hmod hzero hissued ⊢
  obtain ⟨r, s'⟩ := res
  have hsame : s'.SameSource (pagingSetCR3 s' r) := ⟨rfl, rfl, rfl⟩
  refine ⟨⟨hready.supply.setCR3 r, tree_of_empty hmod hissued hzero,
    hready.blanks.keep (hready.supply.setCR3 r) ?_ fun _ _ => rfl, hready.good⟩,
    hnext.keep hsame fun e he => Or.inl he, hzero⟩
  rw [hsame.issuable]

/-- The new address space of a memory full of zeros has no entries. -/
theorem elfStart_zeros : Ready (elfStart (filledWith 0)) (pagingCreateUser (filledWith 0)).1 ∧
    Serves (elfStart (filledWith 0)) 62 ∧
    ∀ i, (elfStart (filledWith 0)).entry (pagingCreateUser (filledWith 0)).1 i = 0 :=
  elfStart_ready filledWith_ready filledWith_serves (filledWith_zero _)

/-- Loading a segment of one byte with blank frames reports no failure. -/
theorem segment_good {s : Paging} {r : ℕ} (hready : Ready s r) (hserves : Serves s 4)
    (file : FileBytes) (type : AddrspaceType) {segment : ElfProgram}
    (hsize : segment.sizeMem = 1) :
    ∀ e ∈ (elfSegment file type 0 segment ⟨s, ⟨r, []⟩, false, [], []⟩).paging.log, e.Good := by
  have hpages : getNumPages 1 = 1 := by decide
  have hlog : (elfSegment file type 0 segment ⟨s, ⟨r, []⟩, false, [], []⟩).paging.log = _ :=
    elfSegment_log rfl rfl
  rw [hlog, ElfLoader.addEntry, addressSpaceAddEntry, hsize, hpages]
  obtain ⟨hflags, hpres⟩ := convAddrSpaceFlagsToPaging_bits
    (addrspaceFlagUser ||| addrspaceFlagWriteable ||| addrspaceFlagExecutable)
  exact (hready.vmallocCR3 hflags hpres (Serves.vmallocCR3 (k := 0) hserves).served).good

/-- Loading a file with one segment of one byte with blank frames reports no failure. -/
theorem HasOneSegment.good_of_ready {file : FileBytes} {vaddr sizeFile r : ℕ} {s : Paging}
    (h : HasOneSegment file vaddr sizeFile) (hready : Ready s r) (hserves : Serves s 4)
    (type : AddrspaceType) :
    ∀ e ∈ (elfLoad ⟨r, []⟩ (some file) type s).2.paging.log, e.Good := by
  rw [elfLoad_oneSegment h]
  exact segment_good hready hserves file type h.sizeMem_eq

/-- Loading such a file in a memory full of zeros. -/
theorem HasOneSegment.good {file : FileBytes} {vaddr sizeFile : ℕ}
    (h : HasOneSegment file vaddr sizeFile) (type : AddrspaceType) :
    ∀ e ∈ (elfLoad ⟨(pagingCreateUser (filledWith 0)).1, []⟩ (some file) type
      (elfStart (filledWith 0))).2.paging.log, e.Good :=
  h.good_of_ready elfStart_zeros.1 (elfStart_zeros.2.1.mono (by omega)) type

/-- A program at `0x400000`, loaded in a memory full of zeros. -/
theorem kernel_half_kept_of_elfLoad_user :
    UserFile (oneSegmentFile 0x400000 1) ∧
      KernelKept (elfStart (filledWith 0))
        (elfLoad ⟨(pagingCreateUser (filledWith 0)).1, []⟩ (some (oneSegmentFile 0x400000 1)) .code
          (elfStart (filledWith 0))).2 (pagingCreateUser (filledWith 0)).1 := by
  have hone := hasOneSegment_oneSegmentFile 0x400000 (by simp) 1 (by omega)
  have hfile : UserFile (oneSegmentFile 0x400000 1) := by
    intro _ n hn _ _
    rw [hone.num] at hn
    obtain rfl : n = 0 := by omega
    rw [ElfProgram.InUserHalf, hone.vaddr_eq, hone.sizeMem_eq]
    decide
  exact ⟨hfile, kernel_half_kept_of_elfLoad (filledWith_supply 0) rfl (filledWith_root 0)
    (hone.good _) hfile⟩

/-- Writes are recorded in order. -/
theorem put_writes_extends (v : ℕ) (b : BitVec 8) (l : ElfLoader) :
    l.writes <+: (put v b l).writes := by
  unfold put
  split_ifs with hf
  · exact List.prefix_rfl
  · cases l.paging.writeAddress v with
    | none => exact List.prefix_rfl
    | some a => exact List.prefix_append _ _

theorem puts_writes_extends {f : ℕ → ElfLoader → ElfLoader} {vaddr : ℕ} {byte : ℕ → BitVec 8}
    (hf : Puts f vaddr byte) (n : ℕ) (l : ElfLoader) : l.writes <+: (loop f n l).writes := by
  refine loop_invariant (fun _ (l' : ElfLoader) => l.writes <+: l'.writes) List.prefix_rfl ?_
  intro j _ l' hl'
  obtain ⟨reads, hstep⟩ := hf j l'
  rw [hstep]
  exact hl'.trans (put_writes_extends _ _ _)

/-- Mapping one page below an empty top-level table makes it writable. -/
theorem writeAddress_of_vmallocCR3 {s : Paging} {r v : ℕ} (h : Ready s r) (hserves : Serves s 4)
    (hempty : ∀ i, s.entry r i = 0) (hcr3 : s.cr3 = r) (hv : canonical v) (hv64 : v < 2 ^ 64) :
    ((vmallocCR3 s v 1 7 r).2.writeAddress v).isSome := by
  have hserved := (hserves.vmallocCR3 : Serves (vmallocCR3 s v 1 7 r).2 0).served
  have hready := h.vmallocCR3 (v := v) (n := 1) (by unfold FlagBits; decide : FlagBits 7)
    (by decide) hserved
  have hone : (vmallocCR3 s v 1 7 r).2
      = { (vmallocHelper v r 7 { s with lock := true }).2 with lock := false } := by
    have hadd : add64 v (0 * pageSize) = v := by
      rw [Nat.zero_mul]
      exact add64_eq hv64
    rw [vmallocCR3_snd]
    simp only [mapLoop, hadd]
  have hgood := hready.good
  rw [hone] at hgood ⊢
  obtain ⟨f, hf, hmaps, -⟩ := (h.tree.withLock true).vmallocHelper (v := v) (h.supply.withLock true)
    (by unfold FlagBits; decide : FlagBits 7) (by decide) hgood
  generalize (vmallocHelper v r 7 { s with lock := true }).2 = s' at hmaps ⊢
  have hold : ∀ p i, ({ s with lock := true } : Paging).entryAt r p i = 0 := by
    intro p i
    cases ht : s.tableAt r p with
    | none => exact entryAt_of_tableAt_none ht
    | some t =>
        obtain ⟨-, rfl⟩ := tableAt_of_empty hempty ht
        exact (entryAt_of_tableAt ht).trans (hempty i)
  have hentry : ∀ g ∈ s.unissued, makeEntry g 7 &&& ~~~frameMask = 7 := fun g hg =>
    makeEntry_flags (h.supply.aligned g hg) (h.supply.lt g hg) (by unfold FlagBits; decide)
  have hsmall : SmallPages s' r := by
    intro p i hp
    rcases hmaps.upper p i hp with heq | ⟨-, g, hg, heq⟩
    · exact Or.inl (heq.trans (hold p i))
    · rw [heq]
      exact Or.inr (and_of_mask (hentry g hg) (by decide))
  have hleaf : s'.leaf r v = makeEntry f 7 := by rw [hmaps.leaf v, if_pos rfl]
  have htr := translation_of_small hsmall v
  rw [hleaf, if_neg (by rw [and_of_mask (hentry f hf) (by decide)]; decide)] at htr
  obtain ⟨rights, htr, hrights⟩ := htr
  have hwrite : ¬ rights &&& pageFlagReadwrite = 0 := by
    rw [hrights, and_of_mask (hentry f hf) (by decide)]
    decide
  have haddr : s'.writeAddress v = some (Translation.address ⟨12, makeEntry f 7, rights⟩ v) := by
    rw [Paging.writeAddress, if_pos hv, hmaps.kept.cr3.trans hcr3, htr, Option.bind_some,
      if_neg hwrite]
  have hsame : ({ s' with lock := false } : Paging).writeAddress v = s'.writeAddress v := rfl
  rw [hsame, haddr]
  rfl

/-- **A program can write through a page of the kernel half**: a file with one segment at
`0xFFFF900000000000` makes the loader map that page in the new address space and write to it. -/
theorem elfLoad_writes_kernel_page : ¬ KernelKept (elfStart (filledWith 0))
    (elfLoad ⟨(pagingCreateUser (filledWith 0)).1, []⟩ (some (oneSegmentFile slotPage 1)) .code
      (elfStart (filledWith 0))).2 (pagingCreateUser (filledWith 0)).1 := by
  have hone := hasOneSegment_oneSegmentFile slotPage (by simp) 1 (by omega)
  have hvaddr := hone.vaddr_eq
  have hsize := hone.sizeMem_eq
  have hcr3 : (elfStart (filledWith 0)).cr3 = (pagingCreateUser (filledWith 0)).1 := rfl
  obtain ⟨hready, hserves, hempty⟩ := elfStart_zeros
  generalize elfStart (filledWith 0) = s at hready hserves hempty hcr3 ⊢
  generalize (pagingCreateUser (filledWith 0)).1 = r at hready hempty hcr3 ⊢
  rw [elfLoad_oneSegment hone]
  generalize elfProgram (oneSegmentFile slotPage 1) 0 = segment at hvaddr hsize ⊢
  generalize oneSegmentFile slotPage 1 = file
  generalize hl : (⟨s, ⟨r, []⟩, false, [], []⟩ : ElfLoader) = l
  have hsome := writeAddress_of_vmallocCR3 (v := slotPage) hready (hserves.mono (by omega)) hempty
    hcr3 (by decide) (by decide)
  have hpaging : (l.addEntry .code segment).paging = (vmallocCR3 s slotPage 1 7 r).2 := by
    subst hl
    simp only [ElfLoader.addEntry, addressSpaceAddEntry, hvaddr, hsize]
    rfl
  rw [← hpaging] at hsome
  obtain ⟨a, ha⟩ := Option.isSome_iff_exists.mp hsome
  have hfirst : slotPage ∈ ((l.addEntry .code segment).memset segment.vaddr 0
      segment.sizeMem).writes := by
    have hadd : add64 slotPage 0 = slotPage := by decide
    have hfault : ¬ (l.addEntry .code segment).fault = true := by
      rw [← hl]
      exact Bool.false_ne_true
    rw [hvaddr, hsize, ElfLoader.memset, loop_succ, loop_zero, hadd, put, if_neg hfault, ha]
    exact List.mem_append_right _ List.mem_cons_self
  have hfill := (puts_writes_extends (puts_memcpy file 0 segment.vaddr segment.offset)
    segment.sizeMem ((l.addEntry .code segment).memset segment.vaddr 0 segment.sizeMem)).subset
    hfirst
  have hlast : (elfSegment file .code 0 segment l).writes
      = ((l.addEntry .code segment).fill file 0 segment).writes := by
    rw [elfSegment_eq (by rw [← hl]) (by rw [← hl]; rfl)]
    split_ifs <;> rfl
  intro hkept
  have hlt := hkept.writes slotPage (by rw [hlast]; exact hfill)
  exact absurd hlt (by decide)

end AnglOS
