import Mathlib.Tactic

/-!
# Circular Buffers

A buffer of `n` slots with two positions, as interrupt-driven queues use it: the producer
writes at `head` and advances it, the consumer reads at `tail` and advances that, and one
slot always stays free so that `head = tail` means empty.

* `ringList buf n tail head` is the sequence the buffer holds, oldest element first.
* `ringList_push` and `ringList_pop` say what advancing either position does to it.
* `ringCount_lt` bounds its length by the slots less the free one, and `ringNext_eq_iff`
  says that the buffer is full exactly at this bound.
-/

namespace AnglOS

variable {α : Type*}

/-- The position after `pos` in a buffer of `n` slots. -/
def ringNext (n pos : ℕ) : ℕ := (pos + 1) % n

/-- The number of slots from `tail` up to `head`. -/
def ringCount (n tail head : ℕ) : ℕ :=
  if tail ≤ head then head - tail else head + n - tail

/-- The slots from `tail` up to `head`, in this order. -/
def ringList (buf : ℕ → α) (n tail head : ℕ) : List α :=
  (List.range (ringCount n tail head)).map fun k => buf ((tail + k) % n)

/-- The next position wraps after the last slot. -/
theorem ringNext_eq {n pos : ℕ} (h : pos < n) :
    ringNext n pos = if pos + 1 = n then 0 else pos + 1 := by
  unfold ringNext
  split_ifs with hlast
  · rw [hlast, Nat.mod_self]
  · exact Nat.mod_eq_of_lt (by omega)

/-- The next position is a slot again. -/
theorem ringNext_lt {n : ℕ} (h : 0 < n) (pos : ℕ) : ringNext n pos < n :=
  Nat.mod_lt _ h

@[simp] theorem ringList_length (buf : ℕ → α) (n tail head : ℕ) :
    (ringList buf n tail head).length = ringCount n tail head := by
  simp [ringList]

/-- An empty buffer holds nothing. -/
@[simp] theorem ringList_self (buf : ℕ → α) (n pos : ℕ) : ringList buf n pos pos = [] := by
  simp [ringList, ringCount]

/-- One slot always stays free. -/
theorem ringCount_lt {n tail head : ℕ} (ht : tail < n) (hh : head < n) :
    ringCount n tail head < n := by
  unfold ringCount
  split_ifs <;> omega

/-- The buffer is full exactly when all slots but one are in use. -/
theorem ringNext_eq_iff {n tail head : ℕ} (ht : tail < n) (hh : head < n) :
    ringNext n head = tail ↔ ringCount n tail head = n - 1 := by
  rw [ringNext_eq hh]
  unfold ringCount
  split_ifs <;> omega

/-- Advancing the head of a buffer that is not full adds one slot at the end. -/
theorem ringCount_push {n tail head : ℕ} (ht : tail < n) (hh : head < n)
    (hfull : ringNext n head ≠ tail) :
    ringCount n tail (ringNext n head) = ringCount n tail head + 1 := by
  rw [ringNext_eq hh] at hfull ⊢
  unfold ringCount
  split_ifs at hfull ⊢ <;> omega

/-- Advancing the tail of a buffer that is not empty drops one slot. -/
theorem ringCount_pop {n tail head : ℕ} (ht : tail < n) (hh : head < n)
    (hne : head ≠ tail) :
    ringCount n tail head = ringCount n (ringNext n tail) head + 1 := by
  rw [ringNext_eq ht]
  unfold ringCount
  split_ifs <;> omega

/-- The slot `count` places after the tail is the head's. -/
theorem tail_add_ringCount {n tail head : ℕ} (ht : tail < n) (hh : head < n) :
    (tail + ringCount n tail head) % n = head := by
  unfold ringCount
  split_ifs with hle
  · rw [show tail + (head - tail) = head by omega, Nat.mod_eq_of_lt hh]
  · rw [show tail + (head + n - tail) = head + n by omega, Nat.add_mod_right,
      Nat.mod_eq_of_lt hh]

/-- No slot in use is the head's. -/
theorem tail_add_ne_head {n tail head k : ℕ} (ht : tail < n) (hh : head < n)
    (hk : k < ringCount n tail head) : (tail + k) % n ≠ head := by
  intro heq
  have hkn : k < n := hk.trans (ringCount_lt ht hh)
  have hmod : (tail + k) % n = (tail + ringCount n tail head) % n := by
    rw [heq, tail_add_ringCount ht hh]
  have := Nat.ModEq.add_left_cancel' tail hmod
  rw [Nat.ModEq, Nat.mod_eq_of_lt hkn, Nat.mod_eq_of_lt (ringCount_lt ht hh)] at this
  omega

/-- **Push**: writing at the head and advancing it appends to the sequence. -/
theorem ringList_push (buf : ℕ → α) {n tail head : ℕ} (ht : tail < n) (hh : head < n)
    (hfull : ringNext n head ≠ tail) (c : α) :
    ringList (Function.update buf head c) n tail (ringNext n head)
      = ringList buf n tail head ++ [c] := by
  unfold ringList
  rw [ringCount_push ht hh hfull, List.range_succ, List.map_append]
  refine congrArg₂ _ (List.map_congr_left ?_) ?_
  · intro k hk
    exact Function.update_of_ne (tail_add_ne_head ht hh (List.mem_range.mp hk)) _ _
  · simp [tail_add_ringCount ht hh]

/-- **Pop**: the sequence of a buffer that is not empty is the slot at the tail followed by
the sequence from the next slot on. -/
theorem ringList_pop (buf : ℕ → α) {n tail head : ℕ} (ht : tail < n) (hh : head < n)
    (hne : head ≠ tail) :
    ringList buf n tail head = buf tail :: ringList buf n (ringNext n tail) head := by
  unfold ringList
  rw [ringCount_pop ht hh hne, List.range_succ_eq_map, List.map_cons, List.map_map]
  refine congrArg₂ _ ?_ (List.map_congr_left ?_)
  · rw [Nat.add_zero, Nat.mod_eq_of_lt ht]
  · intro k _
    have hidx : (tail + (k + 1)) % n = ((tail + 1) % n + k) % n := by
      rw [Nat.mod_add_mod, Nat.add_right_comm, Nat.add_assoc]
    simp [ringNext, hidx]

end AnglOS
