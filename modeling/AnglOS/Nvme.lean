import Mathlib.Tactic

/-!
# NVMe Queue Positions

The submission tails and completion heads that the driver keeps for the admin queue and for the I/O
queue, the phase it expects of a new completion, and the doorbells to which it writes them. A
controller inverts the phase of its completions each time it passes the end of the ring.

## Main results

* `NvmeQueue.ringCom_tracks_iff` — consuming completions keeps head and phase in step with the ring
  exactly when at least one is consumed from the first slot, and none from beyond the last slot;
* `ring_phase_iff` — over every sequence of calls, for both queues;
* `NvmeQueue.tracks_of_ones` — completions that are consumed one at a time.
-/

namespace AnglOS

/-! ### The queues -/

/-- What the driver keeps of a queue pair, and the doorbells of the two queues. -/
structure NvmeQueue where
  size : ℕ
  subTail : ℕ
  comHead : ℕ
  newPhase : BitVec 8
  subDoorbell : ℕ
  comDoorbell : ℕ
  deriving DecidableEq, Repr

/-- The static data of the driver, with the doorbells. -/
structure Nvme where
  admin : NvmeQueue
  io : NvmeQueue
  deriving DecidableEq, Repr

/-- The initial values. -/
def Nvme.start : Nvme where
  admin := {
    size := 8, subTail := 0, comHead := 0, newPhase := 1, subDoorbell := 0, comDoorbell := 0 }
  io := {
    size := 32, subTail := 0, comHead := 0, newPhase := 1, subDoorbell := 0, comDoorbell := 0 }

/-- The body of `ringAdminSub` and `ringIOSub`. The sum is one of 32-bit integers. -/
def NvmeQueue.ringSub (q : NvmeQueue) (num : ℕ) : NvmeQueue :=
  let tail := (q.subTail + num) % q.size
  { q with subTail := tail, subDoorbell := tail }

/-- The body of `ringAdminCom` and `ringIOCom`. -/
def NvmeQueue.ringCom (q : NvmeQueue) (num : ℕ) : NvmeQueue :=
  let head := (q.comHead + num) % q.size
  { q with
    comHead := head
    newPhase := if head = 0 then q.newPhase ^^^ 1 else q.newPhase
    comDoorbell := head }

/-- `ringAdminSub`. -/
def ringAdminSub (d : Nvme) (num : ℕ) : Nvme :=
  { d with admin := d.admin.ringSub num }

/-- `ringAdminCom`. -/
def ringAdminCom (d : Nvme) (num : ℕ) : Nvme :=
  { d with admin := d.admin.ringCom num }

/-- `ringIOSub`. -/
def ringIOSub (d : Nvme) (num : ℕ) : Nvme :=
  { d with io := d.io.ringSub num }

/-- `ringIOCom`. -/
def ringIOCom (d : Nvme) (num : ℕ) : Nvme :=
  { d with io := d.io.ringCom num }

/-! ### Head and phase -/

/-- **In step with the ring** after `total` completions: the head is where the ring goes on, and one
is expected exactly on every other pass, from the first on. -/
def NvmeQueue.Tracks (q : NvmeQueue) (total : ℕ) : Prop :=
  q.comHead = total % q.size ∧ (q.newPhase = 1 ↔ total / q.size % 2 = 0)

/-- The phase is a bit. -/
def NvmeQueue.PhaseIsBit (q : NvmeQueue) : Prop :=
  q.newPhase = 0 ∨ q.newPhase = 1

section

variable {q : NvmeQueue} {total n : ℕ}

@[simp] theorem NvmeQueue.ringCom_size : (q.ringCom n).size = q.size := rfl

/-- **A call keeps the phase a bit.** -/
theorem NvmeQueue.PhaseIsBit.ringCom (h : q.PhaseIsBit) : (q.ringCom n).PhaseIsBit := by
  simp only [NvmeQueue.PhaseIsBit, NvmeQueue.ringCom] at h ⊢
  split_ifs with h0
  · rcases h with h | h <;> rw [h] <;> decide
  · exact h

/-- Inverting a phase that is a bit. -/
theorem NvmeQueue.PhaseIsBit.xor_eq_one_iff (h : q.PhaseIsBit) :
    q.newPhase ^^^ 1 = 1 ↔ ¬q.newPhase = 1 := by
  rcases h with h | h <;> rw [h] <;> decide

/-- The quotient grows by one when the end of the ring is reached. -/
theorem div_add_of_le {t n size : ℕ} (hsize : 0 < size) (hn : n ≤ size) :
    (t + n) / size = t / size + if size ≤ t % size + n then 1 else 0 := by
  have hlt := Nat.mod_lt t hsize
  have hsum : t + n = size * (t / size) + (t % size + n) := by
    have := Nat.div_add_mod t size
    omega
  rw [hsum, Nat.mul_add_div hsize]
  congr 1
  split_ifs with hle
  · rw [Nat.div_eq_of_lt_le] <;> omega
  · exact Nat.div_eq_of_lt (by omega)

/-- **One call** keeps head and phase in step exactly when the head moves from the first slot, and
does not move past the first slot of the next pass. -/
theorem NvmeQueue.ringCom_tracks_iff (h : q.Tracks total) (hbit : q.PhaseIsBit)
    (hsize : 0 < q.size) (hn : n ≤ q.size) :
    (q.ringCom n).Tracks (total + n) ↔ 0 < total % q.size + n ∧ total % q.size + n ≤ q.size := by
  have hlt := Nat.mod_lt total hsize
  obtain ⟨hhead, hphase⟩ := h
  have hzero : (q.comHead + n) % q.size = 0 ↔
      total % q.size + n = 0 ∨ total % q.size + n = q.size := by
    rw [hhead]
    constructor
    · intro h0
      obtain ⟨c, hc⟩ := Nat.dvd_of_mod_eq_zero h0
      have hc2 : c < 2 := by
        by_contra hge
        have : q.size * 2 ≤ q.size * c := Nat.mul_le_mul_left _ (by omega)
        omega
      interval_cases c <;> omega
    · rintro (h0 | h0) <;> simp [h0]
  have hflip := hbit.xor_eq_one_iff
  have hmod : (q.comHead + n) % q.size = (total + n) % q.size := by rw [hhead, Nat.mod_add_mod]
  have hparity : (total / q.size + 1) % 2 = 0 ↔ ¬total / q.size % 2 = 0 := by omega
  simp only [NvmeQueue.Tracks, NvmeQueue.ringCom]
  rw [div_add_of_le hsize hn]
  by_cases h0 : (q.comHead + n) % q.size = 0 <;> by_cases hle : q.size ≤ total % q.size + n
  · -- the head lands on the first slot from the last pass: both flip
    rw [if_pos h0, if_pos hle]
    exact ⟨fun _ => by have := hzero.mp h0; omega, fun _ =>
      ⟨hmod, hflip.trans ((not_congr hphase).trans hparity.symm)⟩⟩
  · -- the head stays on the first slot: only the code's phase flips
    rw [if_pos h0, if_neg hle, hflip, Nat.add_zero, hphase]
    exact ⟨fun h => absurd h.2 not_iff_self, fun h => by have := hzero.mp h0; omega⟩
  · -- the head moves past the first slot: only the ring's phase flips
    rw [if_neg h0, if_pos hle, hparity, hphase]
    exact ⟨fun h => absurd h.2.symm not_iff_self, fun h => absurd (hzero.mpr (by omega)) h0⟩
  · rw [if_neg h0, if_neg hle, Nat.add_zero]
    exact ⟨fun _ => by have := hzero.not.mp h0; omega, fun _ => ⟨hmod, hphase⟩⟩

/-- The amounts `ns`, after `total` completions, consume from the first slot at least one and never
more than up to the end of the ring. -/
def NoSkip (size : ℕ) : ℕ → List ℕ → Prop
  | _, [] => True
  | total, n :: ns =>
    0 < total % size + n ∧ total % size + n ≤ size ∧ NoSkip size (total + n) ns

/-- **A sequence of calls** keeps head and phase in step after each of them exactly when none skips
the first slot or stays on it. -/
theorem NvmeQueue.foldl_tracks_iff {ns : List ℕ} (h : q.Tracks total) (hbit : q.PhaseIsBit)
    (hsize : 0 < q.size) (hns : ∀ n ∈ ns, n ≤ q.size) :
    (∀ ms, ms <+: ns → (ms.foldl NvmeQueue.ringCom q).Tracks (total + ms.sum)) ↔
      NoSkip q.size total ns := by
  induction ns generalizing q total with
  | nil => simpa [NoSkip] using h
  | cons n ns ih =>
    have hone := ringCom_tracks_iff h hbit hsize (hns n List.mem_cons_self)
    have hrest : ∀ m ∈ ns, m ≤ (q.ringCom n).size := fun m hm =>
      hns m (List.mem_cons_of_mem _ hm)
    constructor
    · intro hall
      have hfirst : (q.ringCom n).Tracks (total + n) := by
        simpa using hall [n] (List.prefix_append [n] ns)
      refine ⟨(hone.mp hfirst).1, (hone.mp hfirst).2, ?_⟩
      refine (ih hfirst hbit.ringCom hsize hrest).mp fun ms hms => ?_
      have hcons := hall (n :: ms) ((List.prefix_cons_inj n).mpr hms)
      rwa [List.foldl_cons, List.sum_cons, ← Nat.add_assoc] at hcons
    · rintro ⟨hpos, hle, hskip⟩ ms hms
      have hfirst := hone.mpr ⟨hpos, hle⟩
      rcases List.prefix_cons_iff.mp hms with rfl | ⟨ls, rfl, hls⟩
      · simpa using h
      · rw [List.foldl_cons, List.sum_cons, ← Nat.add_assoc]
        exact (ih hfirst hbit.ringCom hsize hrest).mpr hskip ls hls

/-- Completions that are consumed one at a time skip nothing. -/
theorem noSkip_of_ones {size : ℕ} (hsize : 0 < size) (total k : ℕ) :
    NoSkip size total (List.replicate k 1) := by
  induction k generalizing total with
  | zero => trivial
  | succ k ih =>
    have := Nat.mod_lt total hsize
    exact ⟨by omega, by omega, ih (total + 1)⟩

/-- **One at a time**, as the initialization consumes them, head and phase stay in step. -/
theorem NvmeQueue.tracks_of_ones (h : q.Tracks total) (hbit : q.PhaseIsBit) (hsize : 0 < q.size)
    (k : ℕ) :
    ((List.replicate k 1).foldl NvmeQueue.ringCom q).Tracks (total + k) := by
  have hns : ∀ n ∈ List.replicate k 1, n ≤ q.size := fun n hn => by
    rw [List.eq_of_mem_replicate hn]
    exact hsize
  simpa using (foldl_tracks_iff h hbit hsize hns).mpr (noSkip_of_ones hsize total k) _
    (List.prefix_refl _)

end

/-! ### The driver -/

section

variable (d : Nvme) (ns : List ℕ)

theorem foldl_ringAdminCom :
    ns.foldl ringAdminCom d = { d with admin := ns.foldl NvmeQueue.ringCom d.admin } := by
  induction ns generalizing d with
  | nil => rfl
  | cons n ns ih => rw [List.foldl_cons, ih]; rfl

theorem foldl_ringIOCom :
    ns.foldl ringIOCom d = { d with io := ns.foldl NvmeQueue.ringCom d.io } := by
  induction ns generalizing d with
  | nil => rfl
  | cons n ns ih => rw [List.foldl_cons, ih]; rfl

theorem start_tracks : Nvme.start.admin.Tracks 0 ∧ Nvme.start.io.Tracks 0 := by
  simp [NvmeQueue.Tracks, Nvme.start]

theorem start_phaseIsBit : Nvme.start.admin.PhaseIsBit ∧ Nvme.start.io.PhaseIsBit :=
  ⟨Or.inr rfl, Or.inr rfl⟩

end

/-- **The expected phase follows the ring**: in every sequence of calls of `ringIOCom`, and likewise
of `ringAdminCom`, with at most a ring's length each, head and phase are in step after every call
exactly when no call skips the first slot or stays on it. -/
theorem ring_phase_iff (ns : List ℕ) :
    ((∀ n ∈ ns, n ≤ Nvme.start.io.size) →
      ((∀ ms, ms <+: ns → (ms.foldl ringIOCom Nvme.start).io.Tracks ms.sum) ↔
        NoSkip Nvme.start.io.size 0 ns)) ∧
    ((∀ n ∈ ns, n ≤ Nvme.start.admin.size) →
      ((∀ ms, ms <+: ns → (ms.foldl ringAdminCom Nvme.start).admin.Tracks ms.sum) ↔
        NoSkip Nvme.start.admin.size 0 ns)) := by
  constructor
  · intro hns
    simpa [foldl_ringIOCom] using
      NvmeQueue.foldl_tracks_iff start_tracks.2 start_phaseIsBit.2 (by decide) hns
  · intro hns
    simpa [foldl_ringAdminCom] using
      NvmeQueue.foldl_tracks_iff start_tracks.1 start_phaseIsBit.1 (by decide) hns

/-- Two calls that take the head from the first slot to the second of the next pass, and the first
of these alone. -/
theorem ring_phase_iff_wrap :
    ¬(∀ ms, ms <+: [31, 2] → (ms.foldl ringIOCom Nvme.start).io.Tracks ms.sum) ∧
    (∀ ms, ms <+: [7] → (ms.foldl ringAdminCom Nvme.start).admin.Tracks ms.sum) := by
  constructor
  · rw [(ring_phase_iff [31, 2]).1 (by decide)]
    simp [NoSkip, Nvme.start]
  · rw [(ring_phase_iff [7]).2 (by decide)]
    simp [NoSkip, Nvme.start]

/-- A call that consumes past the end of the ring does not change the expected phase, and one that
consumes nothing does. -/
theorem ring_phase_skips :
    ¬(([31, 2] : List ℕ).foldl ringIOCom Nvme.start).io.Tracks 33 ∧
      ¬(([0] : List ℕ).foldl ringAdminCom Nvme.start).admin.Tracks 0 := by
  constructor <;> rintro ⟨-, hphase⟩ <;> revert hphase <;> decide

end AnglOS
