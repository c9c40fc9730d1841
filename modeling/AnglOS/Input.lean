import AnglOS.Loop
import AnglOS.Ring

/-!
# The Keyboard Input Queue

The queue of `device/input/iqueue.c` between the keyboard interrupt and the threads that
call `inputGetc`, with `irqKeyboardHandler` of `device/keyboard/keyboard.c` as its producer.
The interrupt handler takes no lock and runs as one step; a consumer holds the queue's
spinlock and is modelled one shared access at a time, so an interrupt may fall between any
two of its steps.

* `IQueue`, `iqueueFull`, `iqueuePutc` — the queue as the source has it. `iqueuePutc`
  answers `none` where the source enters its waiting loop.
* `Keyboard`, `irqKeyboardHandler` — the producer, from the scan code to the queued byte.
* `GetcAt`, `getcStep` — where a consumer stands inside `inputGetc`, and its next step.
* `Input`, `InputStep` — the whole system, with the logs of accepted, dropped and returned
  bytes that the results speak about.

## Main results

`fifo_of_run`: from `initIQueue` on, over every interleaving, both positions stay in range,
at most 31 bytes are queued, the accepted bytes are the returned ones followed by the queued
ones, a byte that the keyboard offers is accepted unless 31 are pending, and the handler never
waits.
-/

namespace AnglOS

/-! ### The queue -/

/-- `IQUEUE_BUFSIZE`. -/
abbrev iqueueBufsize : ℕ := 32

/-- `iqueue_t`: the spinlock, the buffer and the two positions. -/
structure IQueue where
  /-- The spinlock byte is set. -/
  lock : Bool
  /-- The slots; the positions below `iqueueBufsize` are the array. -/
  buf : ℕ → BitVec 8
  /-- Where the next byte is written. -/
  head : ℕ
  /-- Where the next byte is read. -/
  tail : ℕ

/-- `next`. -/
def IQueue.next (pos : ℕ) : ℕ := ringNext iqueueBufsize pos

/-- `initIQueue`; the buffer keeps what it held. -/
def initIQueue (q : IQueue) : IQueue := { q with lock := false, head := 0, tail := 0 }

/-- `iqueueEmpty`. -/
def iqueueEmpty (q : IQueue) : Bool := q.head = q.tail

/-- `iqueueFull`. -/
def iqueueFull (q : IQueue) : Bool := IQueue.next q.head = q.tail

/-- `iqueuePutc`, with `none` where the source enters its waiting loop. -/
def iqueuePutc (q : IQueue) (c : BitVec 8) : Option IQueue :=
  if iqueueFull q then none
  else some { q with buf := Function.update q.buf q.head c, head := IQueue.next q.head }

/-- The bytes the queue holds, oldest first. -/
def IQueue.queued (q : IQueue) : List (BitVec 8) :=
  ringList q.buf iqueueBufsize q.tail q.head

/-! ### The producer -/

/-- `BACKSPACE`. -/
abbrev keyBackspace : BitVec 8 := 0x80
/-- `ENTER`. -/
abbrev keyEnter : BitVec 8 := 0x82
/-- `LEFT_CONTROL`. -/
abbrev keyLeftControl : BitVec 8 := 0x83
/-- `LEFT_SHIFT`. -/
abbrev keyLeftShift : BitVec 8 := 0x84
/-- `LEFT_ALT`. -/
abbrev keyLeftAlt : BitVec 8 := 0x85
/-- `textCursorUp`. -/
abbrev keyCursorUp : BitVec 8 := 0x86
/-- `textCursorDown`. -/
abbrev keyCursorDown : BitVec 8 := 0x87
/-- `textCursorLeft`. -/
abbrev keyCursorLeft : BitVec 8 := 0x88
/-- `textCursorRight`. -/
abbrev keyCursorRight : BitVec 8 := 0x89
/-- `SCREEN_CLEAR`. -/
abbrev keyScreenClear : BitVec 8 := 0x90

/-- The bytes of the string literal `scan_code_1`. -/
def scanCode1 : List (BitVec 8) :=
  [0, 0, 0x31, 0x32, 0x33, 0x34, 0x35, 0x36, 0x37, 0x38, 0x39, 0x30, 0x2D, 0x3D, 0x80, 0x09,
    0x71, 0x77, 0x65, 0x72, 0x74, 0x79, 0x75, 0x69, 0x6F, 0x70, 0x5B, 0x5D, 0x82, 0x83,
    0x61, 0x73, 0x64, 0x66, 0x67, 0x68, 0x6A, 0x6B, 0x6C, 0x3B, 0x27, 0x60, 0x84, 0x5C,
    0x7A, 0x78, 0x63, 0x76, 0x62, 0x6E, 0x6D, 0x2C, 0x2E, 0x2F, 0x84, 0x2A, 0x85, 0x20, 0]

/-- The bytes of the string literal `scan_code_1_shift`. -/
def scanCode1Shift : List (BitVec 8) :=
  [0, 0, 0x21, 0x40, 0x23, 0x24, 0x25, 0x5E, 0x26, 0x2A, 0x28, 0x29, 0x5F, 0x2B, 0x80, 0x09,
    0x51, 0x57, 0x45, 0x52, 0x54, 0x59, 0x55, 0x49, 0x4F, 0x50, 0x7B, 0x7D, 0x82, 0x83,
    0x41, 0x53, 0x44, 0x46, 0x47, 0x48, 0x4A, 0x4B, 0x4C, 0x3A, 0x22, 0x7E, 0x84, 0x5C,
    0x5A, 0x58, 0x43, 0x56, 0x42, 0x4E, 0x4D, 0x3C, 0x3E, 0x3F, 0x84, 0x2A, 0x85, 0x20, 0]

/-- The bytes that the linker placed behind the two string literals. A scan code beyond the
end of a literal reads them. -/
structure Rodata where
  /-- Behind `scan_code_1`. -/
  after1 : ℕ → BitVec 8
  /-- Behind `scan_code_1_shift`. -/
  after1Shift : ℕ → BitVec 8

/-- `scan_code_1[i]`. -/
def Rodata.scan (d : Rodata) (i : ℕ) : BitVec 8 :=
  (scanCode1[i]?).getD (d.after1 (i - scanCode1.length))

/-- `scan_code_1_shift[i]`. -/
def Rodata.scanShift (d : Rodata) (i : ℕ) : BitVec 8 :=
  (scanCode1Shift[i]?).getD (d.after1Shift (i - scanCode1Shift.length))

/-- The static variables of `keyboard.c`. -/
structure Keyboard where
  /-- `shift_pressed`. -/
  shift : Bool
  /-- `ctrl_pressed`. -/
  ctrl : Bool
  /-- `alt_pressed`. -/
  alt : Bool
  /-- `prev_scan`. -/
  prevScan : BitVec 8

/-- The byte a key that is no modifier stands for: the middle of `irqKeyboardHandler`. -/
def keyboardChar (d : Rodata) (k : Keyboard) (scan : BitVec 8) : BitVec 8 :=
  let key := d.scan (scan &&& 0x7F).toNat
  if key = keyBackspace then 0x08
  else if key = keyEnter then 0x0A
  else if k.prevScan ≠ 0xE0 then
    if ¬ k.ctrl ∨ key ≠ 0x6C then
      if ¬ k.shift then key else d.scanShift (scan &&& 0x7F).toNat
    else keyScreenClear
  else if scan = 0x48 then keyCursorUp
  else if scan = 0x4B then keyCursorLeft
  else if scan = 0x4D then keyCursorRight
  else if scan = 0x50 then keyCursorDown
  else 0

/-- What one interrupt does to the keyboard, and the byte it then offers to the queue, if
any. -/
def keyboardScan (d : Rodata) (k : Keyboard) (scan : BitVec 8) :
    Keyboard × Option (BitVec 8) :=
  let released : Bool := scan &&& 0x80 ≠ 0
  let key := d.scan (scan &&& 0x7F).toNat
  if ¬ released then
    if key = keyLeftShift then ({ k with shift := true, prevScan := scan }, none)
    else if key = keyLeftControl then ({ k with ctrl := true, prevScan := scan }, none)
    else if key = keyLeftAlt then ({ k with alt := true, prevScan := scan }, none)
    else ({ k with prevScan := scan }, some (keyboardChar d k scan))
  else if key = keyLeftShift then ({ k with shift := false, prevScan := scan }, none)
  else if key = keyLeftControl then ({ k with ctrl := false, prevScan := scan }, none)
  else if key = keyLeftAlt then ({ k with alt := false, prevScan := scan }, none)
  else ({ k with prevScan := scan }, none)

/-! ### The consumers -/

/-- Where a thread stands in `inputGetc`. -/
inductive GetcAt
  /-- Outside of the call. -/
  | idle
  /-- At `iqueueLock`, spinning while the lock is taken. -/
  | lock
  /-- At the test of `iqueueEmpty`. -/
  | test
  /-- At `iqueueUnlock` in the waiting loop. -/
  | release
  /-- At `cpuHLT` in the waiting loop. -/
  | halt
  /-- At the read of `buf[tail]`. -/
  | read
  /-- At the store of `next(tail)`, with the byte just read. -/
  | store (c : BitVec 8)
  /-- At `inputUnlock`, after which the byte is returned. -/
  | unlock (c : BitVec 8)
  deriving DecidableEq

/-- The thread holds the queue's lock. -/
def GetcAt.holds : GetcAt → Bool
  | .test | .release | .read | .store _ | .unlock _ => true
  | .idle | .lock | .halt => false

/-- The next step of a thread in `inputGetc`: where it stands then, and the queue. -/
def getcStep (q : IQueue) : GetcAt → GetcAt × IQueue
  | .idle => (.lock, q)
  | .lock => if q.lock then (.lock, q) else (.test, { q with lock := true })
  | .test => if iqueueEmpty q then (.release, q) else (.read, q)
  | .release => (.halt, { q with lock := false })
  | .halt => (.lock, q)
  | .read => (.store (q.buf q.tail), q)
  | .store c => (.unlock c, { q with tail := IQueue.next q.tail })
  | .unlock _ => (.idle, { q with lock := false })

/-- The byte a thread returns with its next step. -/
def GetcAt.result : GetcAt → Option (BitVec 8)
  | .unlock c => some c
  | _ => none

/-! ### The system -/

/-- The queue, its producer and its consumers, with the logs of a run. -/
structure Input where
  /-- The static `buffer` of `input.c`. -/
  queue : IQueue
  /-- The keyboard's state. -/
  keyboard : Keyboard
  /-- Where each thread stands in `inputGetc`. -/
  getc : ℕ → GetcAt
  /-- The bytes `iqueuePutc` stored, in order. -/
  accepted : List (BitVec 8)
  /-- The bytes the handler gave up because the queue was full, in order. -/
  dropped : List (BitVec 8)
  /-- The bytes `inputGetc` returned, in order. -/
  returned : List (BitVec 8)

/-- `irqKeyboardHandler` on the scan code that the data port delivers, with `none` if
`iqueuePutc` enters its waiting loop. -/
def irqKeyboardHandler (d : Rodata) (scan : BitVec 8) (s : Input) : Option Input :=
  match keyboardScan d s.keyboard scan with
  | (k, none) => some { s with keyboard := k }
  | (k, some c) =>
      if iqueueFull s.queue then some { s with keyboard := k, dropped := s.dropped ++ [c] }
      else (iqueuePutc s.queue c).map fun q =>
        { s with keyboard := k, queue := q, accepted := s.accepted ++ [c] }

/-- The next step of thread `i`. -/
def Input.advance (s : Input) (i : ℕ) : Input :=
  { s with
    queue := (getcStep s.queue (s.getc i)).2
    getc := Function.update s.getc i (getcStep s.queue (s.getc i)).1
    returned := s.returned ++ (s.getc i).result.toList }

/-- What can happen next: a keyboard interrupt with any scan code, or a step of any thread. -/
inductive InputEvent
  | interrupt (scan : BitVec 8)
  | thread (i : ℕ)

/-- The effect of an event. -/
inductive InputStep (d : Rodata) : InputEvent → Input → Input → Prop
  | interrupt {scan : BitVec 8} {s s' : Input} :
      irqKeyboardHandler d scan s = some s' → InputStep d (.interrupt scan) s s'
  | thread (i : ℕ) (s : Input) : InputStep d (.thread i) s (s.advance i)

/-- The system after `initInputQueue`: no thread is inside `inputGetc` and nothing happened
yet. -/
def Input.start (q : IQueue) (k : Keyboard) : Input where
  queue := initIQueue q
  keyboard := k
  getc := fun _ => .idle
  accepted := []
  dropped := []
  returned := []

/-! ### The invariant -/

/-- What holds between any two steps of the system. -/
structure Input.Inv (s : Input) : Prop where
  /-- The head is a slot. -/
  head_lt : s.queue.head < iqueueBufsize
  /-- The tail is a slot. -/
  tail_lt : s.queue.tail < iqueueBufsize
  /-- Only the holder of the lock is between `iqueueLock` and `iqueueUnlock`. -/
  locked : ∀ i, (s.getc i).holds → s.queue.lock
  /-- No two threads hold the lock. -/
  exclusive : ∀ i j, (s.getc i).holds → (s.getc j).holds → i = j
  /-- Past the test the queue stays nonempty until the tail is stored. -/
  nonempty : ∀ i, s.getc i = .read → s.queue.head ≠ s.queue.tail
  /-- The byte read is the oldest one until the tail is stored. -/
  oldest : ∀ i c, s.getc i = .store c →
    s.queue.head ≠ s.queue.tail ∧ s.queue.buf s.queue.tail = c
  /-- The byte a thread is about to return stands between the returned and the queued ones. -/
  inFlight : ∀ i c, s.getc i = .unlock c → s.accepted = s.returned ++ c :: s.queue.queued
  /-- Otherwise the accepted bytes are the returned and the queued ones. -/
  settled : (∀ i c, s.getc i ≠ .unlock c) → s.accepted = s.returned ++ s.queue.queued

/-- The system starts with the invariant. -/
theorem Input.Inv.start (q : IQueue) (k : Keyboard) : (Input.start q k).Inv where
  head_lt := by simp [Input.start, initIQueue]
  tail_lt := by simp [Input.start, initIQueue]
  locked := by simp [Input.start, GetcAt.holds]
  exclusive := by simp [Input.start, GetcAt.holds]
  nonempty := by simp [Input.start]
  oldest := by simp [Input.start]
  inFlight := by simp [Input.start]
  settled := by simp [Input.start, initIQueue, IQueue.queued]

/-! ### The interrupt -/

/-- What one interrupt can do: nothing to the queue, give a byte up because the queue is
full, or store it. It never waits. -/
theorem irqKeyboardHandler_cases (d : Rodata) (scan : BitVec 8) (s : Input) :
    ∃ k : Keyboard,
      irqKeyboardHandler d scan s = some { s with keyboard := k } ∨
      (∃ c, iqueueFull s.queue = true ∧ irqKeyboardHandler d scan s
        = some { s with keyboard := k, dropped := s.dropped ++ [c] }) ∨
      (∃ c, iqueueFull s.queue = false ∧ irqKeyboardHandler d scan s
        = some { s with
          keyboard := k
          queue := { s.queue with
            buf := Function.update s.queue.buf s.queue.head c
            head := IQueue.next s.queue.head }
          accepted := s.accepted ++ [c] }) := by
  rcases hk : keyboardScan d s.keyboard scan with ⟨k, _ | c⟩
  · exact ⟨k, .inl (by simp only [irqKeyboardHandler, hk])⟩
  · cases hfull : iqueueFull s.queue with
    | true => exact ⟨k, .inr (.inl ⟨c, rfl, by simp [irqKeyboardHandler, hk, hfull]⟩)⟩
    | false =>
        refine ⟨k, .inr (.inr ⟨c, rfl, ?_⟩)⟩
        simp [irqKeyboardHandler, hk, hfull, iqueuePutc]

/-- The queue is full exactly when 31 bytes are pending. -/
theorem iqueueFull_iff {q : IQueue} (hh : q.head < iqueueBufsize) (ht : q.tail < iqueueBufsize) :
    iqueueFull q = true ↔ q.queued.length = 31 := by
  simp [iqueueFull, IQueue.next, IQueue.queued, ringNext_eq_iff ht hh]

/-- There is room exactly when the position after the head is not the tail. -/
theorem iqueueFull_eq_false {q : IQueue} :
    iqueueFull q = false ↔ IQueue.next q.head ≠ q.tail := by
  simp [iqueueFull]

/-- Storing a byte in a queue with room appends it. -/
theorem queued_putc {q : IQueue} (hh : q.head < iqueueBufsize) (ht : q.tail < iqueueBufsize)
    (hroom : iqueueFull q = false) (c : BitVec 8) :
    IQueue.queued { q with
      buf := Function.update q.buf q.head c, head := IQueue.next q.head }
      = q.queued ++ [c] :=
  ringList_push q.buf ht hh (iqueueFull_eq_false.mp hroom) c

/-- **The interrupt keeps the invariant**, wherever the consumers stand: it writes only the
head and the slot at the head, which is none of the queued ones. -/
theorem Input.Inv.interrupt {d : Rodata} {scan : BitVec 8} {s s' : Input} (hs : s.Inv)
    (h : irqKeyboardHandler d scan s = some s') : s'.Inv := by
  obtain ⟨k, hsame | ⟨c, hfull, hdrop⟩ | ⟨c, hroom, hput⟩⟩ :=
    irqKeyboardHandler_cases d scan s
  · obtain rfl := Option.some.inj (hsame.symm.trans h)
    exact ⟨hs.1, hs.2, hs.3, hs.4, hs.5, hs.6, hs.7, hs.8⟩
  · obtain rfl := Option.some.inj (hdrop.symm.trans h)
    exact ⟨hs.1, hs.2, hs.3, hs.4, hs.5, hs.6, hs.7, hs.8⟩
  · obtain rfl := Option.some.inj (hput.symm.trans h)
    have hne := iqueueFull_eq_false.mp hroom
    have hqueued := queued_putc hs.head_lt hs.tail_lt hroom c
    exact {
      head_lt := ringNext_lt (by decide) _
      tail_lt := hs.tail_lt
      locked := hs.locked
      exclusive := hs.exclusive
      nonempty := fun _ _ => hne
      oldest := fun i c' hi => by
        obtain ⟨hne', hbuf⟩ := hs.oldest i c' hi
        exact ⟨hne, (Function.update_of_ne hne'.symm _ _).trans hbuf⟩
      inFlight := fun i c' hi => by
        simp only [hqueued, hs.inFlight i c' hi, List.append_assoc, List.cons_append]
      settled := fun hnone => by
        simp only [hqueued, hs.settled hnone, List.append_assoc] }

/-! ### The consumers' steps -/

/-- A thread that moves on without touching the queue or the lock keeps the invariant, if
the place it moves to is one the invariant allows. -/
theorem Input.Inv.move {s : Input} (hs : s.Inv) {i : ℕ} {p : GetcAt}
    (hold : p.holds = (s.getc i).holds) (hfrom : ∀ c, s.getc i ≠ .unlock c)
    (hto : ∀ c, p ≠ .unlock c) (hread : p = .read → s.queue.head ≠ s.queue.tail)
    (hstore : ∀ c, p = .store c →
      s.queue.head ≠ s.queue.tail ∧ s.queue.buf s.queue.tail = c) :
    Input.Inv { s with getc := Function.update s.getc i p } := by
  have hholds : ∀ j, (Function.update s.getc i p j).holds = (s.getc j).holds := by
    intro j
    by_cases hj : j = i
    · rw [hj, Function.update_self, hold]
    · rw [Function.update_of_ne hj]
  exact {
    head_lt := hs.head_lt
    tail_lt := hs.tail_lt
    locked := fun j hj => hs.locked j (hholds j ▸ hj)
    exclusive := fun j k hj hk => hs.exclusive j k (hholds j ▸ hj) (hholds k ▸ hk)
    nonempty := fun j hj => by
      by_cases hji : j = i
      · exact hread (by simpa [hji] using hj)
      · exact hs.nonempty j (by simpa [hji] using hj)
    oldest := fun j c hj => by
      by_cases hji : j = i
      · exact hstore c (by simpa [hji] using hj)
      · exact hs.oldest j c (by simpa [hji] using hj)
    inFlight := fun j c hj => by
      by_cases hji : j = i
      · exact absurd (by simpa [hji] using hj) (hto c)
      · exact hs.inFlight j c (by simpa [hji] using hj)
    settled := fun hnone => hs.settled fun j c hj => by
      by_cases hji : j = i
      · exact hfrom c (hji ▸ hj)
      · exact hnone j c (by simpa [hji] using hj) }

/-- While a thread holds the lock, no other one does. -/
theorem Input.Inv.alone {s : Input} (hs : s.Inv) {i : ℕ} (hi : (s.getc i).holds = true)
    {j : ℕ} (hj : j ≠ i) : (s.getc j).holds = false :=
  Bool.eq_false_iff.mpr fun h => hj (hs.exclusive j i h hi)

/-- A thread that the invariant does not constrain. -/
theorem GetcAt.outside {p : GetcAt} (h : p.holds = false) :
    p ≠ .read ∧ (∀ c, p ≠ .store c) ∧ ∀ c, p ≠ .unlock c := by
  cases p <;> simp_all [GetcAt.holds]

/-- A thread may take the lock when it is free. -/
theorem Input.Inv.acquire {s : Input} (hs : s.Inv) (i : ℕ) (hfree : s.queue.lock = false) :
    Input.Inv { s with
      queue := { s.queue with lock := true }
      getc := Function.update s.getc i .test } := by
  have hout : ∀ j, (s.getc j).holds = false := fun j =>
    Bool.eq_false_iff.mpr fun h => by simpa [hfree] using hs.locked j h
  have hcases : ∀ j, Function.update s.getc i .test j ≠ .read ∧
      (∀ c, Function.update s.getc i .test j ≠ .store c) ∧
      ∀ c, Function.update s.getc i .test j ≠ .unlock c := by
    intro j
    by_cases hj : j = i
    · simp [hj]
    · rw [Function.update_of_ne hj]
      exact (GetcAt.outside (hout j))
  have honly : ∀ j, (Function.update s.getc i .test j).holds = true → j = i := by
    intro j h
    by_contra hj
    rw [Function.update_of_ne hj, hout j] at h
    exact Bool.false_ne_true h
  exact {
    head_lt := hs.head_lt
    tail_lt := hs.tail_lt
    locked := fun _ _ => rfl
    exclusive := fun j k hj hk => (honly j hj).trans (honly k hk).symm
    nonempty := fun j hj => absurd hj (hcases j).1
    oldest := fun j c hj => absurd hj ((hcases j).2.1 c)
    inFlight := fun j c hj => absurd hj ((hcases j).2.2 c)
    settled := fun _ => hs.settled fun j c hj => (GetcAt.outside (hout j)).2.2 c hj }

/-- The holder may free the lock and leave, once the bytes it returns are accounted for. -/
theorem Input.Inv.leave {s : Input} (hs : s.Inv) {i : ℕ} (hi : (s.getc i).holds = true)
    {p : GetcAt} (hp : p.holds = false) {l : List (BitVec 8)}
    (hacc : s.accepted = s.returned ++ l ++ s.queue.queued) :
    Input.Inv { s with
      queue := { s.queue with lock := false }
      getc := Function.update s.getc i p
      returned := s.returned ++ l } := by
  have hout : ∀ j, (Function.update s.getc i p j).holds = false := by
    intro j
    by_cases hj : j = i
    · rw [hj, Function.update_self, hp]
    · rw [Function.update_of_ne hj, hs.alone hi hj]
  exact {
    head_lt := hs.head_lt
    tail_lt := hs.tail_lt
    locked := fun j hj => by simp [hout j] at hj
    exclusive := fun j _ hj _ => by simp [hout j] at hj
    nonempty := fun j hj => absurd hj (GetcAt.outside (hout j)).1
    oldest := fun j c hj => absurd hj ((GetcAt.outside (hout j)).2.1 c)
    inFlight := fun j c hj => absurd hj ((GetcAt.outside (hout j)).2.2 c)
    settled := fun _ => hacc }

/-- While the holder is not about to return, no byte is in flight. -/
theorem Input.Inv.accepted_eq {s : Input} (hs : s.Inv) {i : ℕ}
    (hi : (s.getc i).holds = true) (hne : ∀ c, s.getc i ≠ .unlock c) :
    s.accepted = s.returned ++ s.queue.queued := by
  refine hs.settled fun j c hj => ?_
  by_cases hji : j = i
  · exact hne c (hji ▸ hj)
  · have := hs.alone hi hji
    simp [hj, GetcAt.holds] at this

/-- Storing the next tail takes the oldest byte out of the queue. -/
theorem Input.Inv.takeOldest {s : Input} (hs : s.Inv) {i : ℕ} {c : BitVec 8}
    (hi : s.getc i = .store c) :
    Input.Inv { s with
      queue := { s.queue with tail := IQueue.next s.queue.tail }
      getc := Function.update s.getc i (.unlock c) } := by
  have hholds : (s.getc i).holds = true := by simp [hi, GetcAt.holds]
  obtain ⟨hne, hbuf⟩ := hs.oldest i c hi
  have hpop := ringList_pop s.queue.buf hs.tail_lt hs.head_lt hne
  have hacc := hs.accepted_eq hholds (by simp [hi])
  have hother : ∀ j, j ≠ i → ∀ p, Function.update s.getc i (.unlock c) j = p →
      p.holds = false := by
    rintro j hj _ rfl
    rw [Function.update_of_ne hj]
    exact hs.alone hholds hj
  have hself : ∀ j p, Function.update s.getc i (.unlock c) j = p → p.holds = true →
      j = i := by
    intro j p hjp hp
    by_contra hj
    simp [hother j hj p hjp] at hp
  exact {
    head_lt := hs.head_lt
    tail_lt := ringNext_lt (by decide) _
    locked := fun _ _ => hs.locked i hholds
    exclusive := fun j k hj hk => (hself j _ rfl hj).trans (hself k _ rfl hk).symm
    nonempty := fun j hj => by
      obtain rfl := hself j _ hj rfl
      simp at hj
    oldest := fun j c' hj => by
      obtain rfl := hself j _ hj rfl
      simp at hj
    inFlight := fun j c' hj => by
      obtain rfl := hself j _ hj rfl
      obtain rfl : c = c' := by simpa using hj
      rw [hacc, IQueue.queued, hpop, hbuf]
      rfl
    settled := fun hnone => absurd (Function.update_self i _ _) (hnone i c) }

/-- **A consumer's step keeps the invariant**, one case for each place in `inputGetc`. -/
theorem Input.Inv.advance {s : Input} (hs : s.Inv) (i : ℕ) : (s.advance i).Inv := by
  have hplain : ∀ p : GetcAt, getcStep s.queue (s.getc i) = (p, s.queue) →
      (s.getc i).result = none →
      s.advance i = { s with getc := Function.update s.getc i p } := by
    intro p hstep hres
    simp [Input.advance, hstep, hres]
  cases hi : s.getc i with
  | idle =>
      rw [hplain .lock (by simp [hi, getcStep]) (by simp [hi, GetcAt.result])]
      exact hs.move (by simp [hi, GetcAt.holds]) (by simp [hi]) (by simp) (by simp) (by simp)
  | lock =>
      cases hl : s.queue.lock with
      | true =>
          rw [hplain .lock (by simp [hi, getcStep, hl]) (by simp [hi, GetcAt.result])]
          exact hs.move (by simp [hi]) (by simp [hi]) (by simp) (by simp) (by simp)
      | false => simpa [Input.advance, hi, getcStep, hl, GetcAt.result] using hs.acquire i hl
  | test =>
      cases he : iqueueEmpty s.queue with
      | true =>
          rw [hplain .release (by simp [hi, getcStep, he]) (by simp [hi, GetcAt.result])]
          exact hs.move (by simp [hi, GetcAt.holds]) (by simp [hi]) (by simp) (by simp)
            (by simp)
      | false =>
          rw [hplain .read (by simp [hi, getcStep, he]) (by simp [hi, GetcAt.result])]
          exact hs.move (by simp [hi, GetcAt.holds]) (by simp [hi]) (by simp)
            (fun _ => by simpa [iqueueEmpty] using he) (by simp)
  | release =>
      have hholds : (s.getc i).holds = true := by simp [hi, GetcAt.holds]
      have hleave := hs.leave hholds (p := .halt) (l := []) rfl
        (by simpa using hs.accepted_eq hholds (by simp [hi]))
      simpa [Input.advance, hi, getcStep, GetcAt.result] using hleave
  | halt =>
      rw [hplain .lock (by simp [hi, getcStep]) (by simp [hi, GetcAt.result])]
      exact hs.move (by simp [hi, GetcAt.holds]) (by simp [hi]) (by simp) (by simp) (by simp)
  | read =>
      rw [hplain (.store (s.queue.buf s.queue.tail)) (by simp [hi, getcStep])
        (by simp [hi, GetcAt.result])]
      exact hs.move (by simp [hi, GetcAt.holds]) (by simp [hi]) (by simp) (by simp)
        (fun c hc => ⟨hs.nonempty i hi, by simpa using hc⟩)
  | store c => simpa [Input.advance, hi, getcStep, GetcAt.result] using hs.takeOldest hi
  | unlock c =>
      have hleave := hs.leave (i := i) (p := .idle) (l := [c]) (by simp [hi, GetcAt.holds]) rfl
        (by simpa using hs.inFlight i c hi)
      simpa [Input.advance, hi, getcStep, GetcAt.result] using hleave

/-! ### Whole runs -/

/-- **The invariant over whole runs**, for every interleaving. -/
theorem Input.Inv.of_run {d : Rodata} {q : IQueue} {k : Keyboard} {s : Input}
    {es : List InputEvent} (h : Run (InputStep d) (Input.start q k) es s) : s.Inv := by
  refine Run.invariant (O := fun _ => True) (P := Input.Inv) ?_ h (fun _ _ => trivial)
    (Input.Inv.start q k)
  intro e s s' _ hs hstep
  cases hstep with
  | interrupt hirq => exact hs.interrupt hirq
  | thread i => exact hs.advance i

/-- What an interrupt does with the byte that the keyboard offers, if any: while fewer than 31 bytes
are queued it joins the queue and is accepted, and otherwise it is dropped. -/
structure Input.Takes (s s' : Input) (offered : Option (BitVec 8)) : Prop where
  nothing : offered = none →
    s'.queue = s.queue ∧ s'.accepted = s.accepted ∧ s'.dropped = s.dropped
  room : ∀ c, offered = some c → s.queue.queued.length < 31 →
    s'.queue.queued = s.queue.queued ++ [c] ∧ s'.accepted = s.accepted ++ [c] ∧
      s'.dropped = s.dropped
  full : ∀ c, offered = some c → s.queue.queued.length = 31 →
    s'.queue = s.queue ∧ s'.accepted = s.accepted ∧ s'.dropped = s.dropped ++ [c]

/-- **The handler returns without waiting**, and takes the byte that the scan code stands for. -/
theorem Input.Inv.takes {s : Input} (hs : s.Inv) (d : Rodata) (scan : BitVec 8) :
    ∃ s', irqKeyboardHandler d scan s = some s' ∧
      s.Takes s' (keyboardScan d s.keyboard scan).2 := by
  have hfull := iqueueFull_iff hs.head_lt hs.tail_lt
  rcases hk : keyboardScan d s.keyboard scan with ⟨k, _ | c⟩
  · refine ⟨{ s with keyboard := k }, by simp only [irqKeyboardHandler, hk], ?_⟩
    exact ⟨fun _ => ⟨rfl, rfl, rfl⟩, fun c hc => (nomatch hc), fun c hc => (nomatch hc)⟩
  · cases hq : iqueueFull s.queue with
    | true =>
        refine ⟨{ s with keyboard := k, dropped := s.dropped ++ [c] },
          by simp [irqKeyboardHandler, hk, hq], fun hc => (nomatch hc), fun c' hc hlt => ?_,
          fun c' hc _ => ?_⟩
        · have := hfull.mp hq
          omega
        · obtain rfl := Option.some.inj hc
          exact ⟨rfl, rfl, rfl⟩
    | false =>
        have hput := queued_putc hs.head_lt hs.tail_lt hq c
        refine ⟨_, by simp [irqKeyboardHandler, hk, hq, iqueuePutc]; rfl, fun hc => (nomatch hc),
          fun c' hc _ => ?_, fun c' hc hlen => ?_⟩
        · obtain rfl := Option.some.inj hc
          exact ⟨hput, rfl, rfl⟩
        · rw [hfull.mpr hlen] at hq
          cases hq

/-- **The input queue is a bounded FIFO.** From `initIQueue` on, after every interleaving of
keyboard interrupts with the steps of any number of threads in `inputGetc`: the positions are
slots; at most 31 bytes are queued; the accepted bytes are, in order, the returned ones, the
one a thread is just about to return, and the queued ones; and whatever scan code comes next,
the handler returns without waiting, and the byte that the keyboard then offers is accepted at the
end of the queue, or dropped if 31 are pending. -/
theorem fifo_of_run {d : Rodata} {q : IQueue} {k : Keyboard} {s : Input}
    {es : List InputEvent} (h : Run (InputStep d) (Input.start q k) es s) :
    s.queue.head < 32 ∧ s.queue.tail < 32 ∧ s.queue.queued.length ≤ 31 ∧
    (∀ i c, s.getc i = .unlock c → s.accepted = s.returned ++ [c] ++ s.queue.queued) ∧
    ((∀ i c, s.getc i ≠ .unlock c) → s.accepted = s.returned ++ s.queue.queued) ∧
    ∀ scan, ∃ s', irqKeyboardHandler d scan s = some s' ∧
      s.Takes s' (keyboardScan d s.keyboard scan).2 := by
  have hs := Input.Inv.of_run h
  have hlen : s.queue.queued.length < 32 := by
    rw [IQueue.queued, ringList_length]
    exact ringCount_lt hs.tail_lt hs.head_lt
  refine ⟨hs.head_lt, hs.tail_lt, by omega, fun i c hi => ?_, hs.settled, hs.takes d⟩
  simpa using hs.inFlight i c hi

/-- The key `a` is pressed and thread 0 reads it. -/
theorem fifo_of_run_press :
    ∃ es s, Run (InputStep ⟨fun _ => 0, fun _ => 0⟩)
      (Input.start ⟨false, fun _ => 0, 0, 0⟩ ⟨false, false, false, 0⟩) es s ∧
      s.accepted = [0x61] ∧ s.returned = [0x61] ∧ s.queue.queued.length ≤ 31 := by
  have hpress := Run.snoc (Run.nil (Input.start ⟨false, fun _ => 0, 0, 0⟩
    ⟨false, false, false, 0⟩)) (@InputStep.interrupt ⟨fun _ => 0, fun _ => 0⟩ 0x1E _ _ rfl)
  have hread := (((((hpress.snoc (.thread 0 _)).snoc (.thread 0 _)).snoc (.thread 0 _)).snoc
    (.thread 0 _)).snoc (.thread 0 _)).snoc (.thread 0 _)
  exact ⟨_, _, hread, by decide, by decide, (fifo_of_run hread).2.2.1⟩

end AnglOS
