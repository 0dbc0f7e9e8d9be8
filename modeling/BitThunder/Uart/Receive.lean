import BitThunder.Lib.Window

/-!
# The receive buffer of the UART

`uart_read` and the receive half of `uart_irq_handler` of `arch/arm/mach/zynq/uart.c`, in
`BT_UART_MODE_SIMPLE_BUFFERED`. The buffer is circular; `uRxEnd` is the slot last written and
`uRxBegin` the slot last taken. Each is written on one side only. The reader takes its steps one
by one here, an access to an index or to the buffer each, and a byte can be received between any
two of them. An interrupt that finds more bytes in the hardware is several such steps in a row.

* `RxState.Ok`, `Ok.step`: the buffer is a window on the bytes that were accepted;
* `Ok.accepts_iff`: a byte is accepted as long as there is room, also when `uRxBegin` is past the
  end of the buffer for a moment;
* `uart_receive_exact`: what is read is what was accepted.

Indices of the code are compared with positions in the stream of all bytes, modulo the size of the
buffer. `uRxBegin` is behind by one: the slot that was taken last is still kept free, and this is
why a byte that the reader has freed but not copied yet is safe from the handler. For a moment
`uRxBegin` is equal to the size, before it is wrapped; the handler's test compares slots, and the
comparison is still the right one then (`Ok.accepts_iff`).

`Place` says what the reader knows at each of its places. A byte that is received moves the end of
the window only, so that it changes nothing for the reader, and a step of the reader changes nothing
for the handler but the room that there is.
-/

namespace BitThunder

/-- Where `uart_read` is, named for what it does next. -/
inductive Reader : Type where
  /-- it is not in there -/
  | out
  /-- read `uRxBegin`, in the condition of the first loop -/
  | waitBegin
  /-- read `uRxEnd`, in that condition -/
  | waitEnd (begin : ℕ)
  /-- read `uRxBegin`, in the condition of the second loop -/
  | loopBegin
  /-- read `uRxEnd`, in that condition -/
  | loopEnd (begin : ℕ)
  /-- read `uRxBegin`, to increment it -/
  | load
  /-- write it back -/
  | advance (begin : ℕ)
  /-- `hUart->uRxBegin = 0` -/
  | wrap
  /-- read `uRxBegin`, as the index of the byte -/
  | index
  /-- read the byte -/
  | fetch (slot : ℕ)

/-- The receive half of a handle, and the call that reads from it. -/
structure RxState : Type where
  uRxBegin : ℕ
  uRxEnd : ℕ
  /-- the memory from the buffer on -/
  RxBuffer : ℕ → UInt8
  reader : Reader
  /-- `ulFlags & BT_FILE_NON_BLOCK`, of the call -/
  nonBlock : Bool
  /-- `ulSize`, what is left of it -/
  ulSize : ℕ
  /-- the bytes that the interrupt handler has accepted -/
  accepted : List UInt8
  /-- the bytes that were copied out, by all calls -/
  returned : List UInt8

/-- What can happen next. -/
inductive RxAction : Type where
  /-- the interrupt handler takes a byte out of the hardware -/
  | byte (ucData : UInt8)
  /-- a call of `uart_read` -/
  | call (nonBlock : Bool) (ulSize : ℕ)
  /-- the call does its next step -/
  | go

namespace RxState

/-- After `uart_enable`. -/
def init (RxBuffer : ℕ → UInt8) : RxState := ⟨0, 0, RxBuffer, .out, false, 0, [], []⟩

/-- The handler does not discard a byte. -/
def Accepts (uRxSize : ℕ) (s : RxState) : Prop :=
  s.uRxEnd + 1 ≠ s.uRxBegin ∧ ¬ (s.uRxEnd = uRxSize - 1 ∧ s.uRxBegin = 0)

instance (uRxSize : ℕ) (s : RxState) : Decidable (s.Accepts uRxSize) :=
  inferInstanceAs (Decidable (_ ∧ _))

/-- One byte of `uart_irq_handler` -/
def uartIrqHandler (uRxSize : ℕ) (s : RxState) (ucData : UInt8) : RxState :=
  if s.Accepts uRxSize then
    let uRxEnd := if uRxSize - 1 < s.uRxEnd + 1 then 0 else s.uRxEnd + 1
    { s with
      uRxEnd, RxBuffer := Function.update s.RxBuffer uRxEnd ucData,
      accepted := s.accepted ++ [ucData] }
  else s

/-- One step of `uart_read` -/
def uartRead (uRxSize : ℕ) (s : RxState) : RxState :=
  match s.reader with
  | .out => s
  | .waitBegin => { s with reader := .waitEnd s.uRxBegin }
  | .waitEnd begin =>
    { s with reader := if begin = s.uRxEnd then if s.nonBlock then .out else .waitBegin
      else .loopBegin }
  | .loopBegin => { s with reader := .loopEnd s.uRxBegin }
  | .loopEnd begin => { s with reader := if begin ≠ s.uRxEnd ∧ s.ulSize ≠ 0 then .load else .out }
  | .load => { s with reader := .advance s.uRxBegin }
  | .advance begin =>
    { s with uRxBegin := begin + 1, reader := if uRxSize - 1 < begin + 1 then .wrap else .index }
  | .wrap => { s with uRxBegin := 0, reader := .index }
  | .index => { s with reader := .fetch s.uRxBegin }
  | .fetch slot =>
    { s with
      returned := s.returned ++ [s.RxBuffer slot], ulSize := s.ulSize - 1, reader := .loopBegin }

/-- `uart_get_available`, what it reports as `pReceive`. It is one step here, when nothing is
received: a byte that comes between its test and its subtraction and wraps `uRxEnd` makes the
difference negative, and the word that is reported up to `2 ^ 32 - 1`. -/
def uartGetAvailable (uRxSize : ℕ) (s : RxState) : ℕ :=
  if s.uRxBegin ≤ s.uRxEnd then s.uRxEnd - s.uRxBegin else uRxSize - s.uRxBegin + s.uRxEnd

/-- One step. There is one reader. -/
def step (uRxSize : ℕ) (s : RxState) : RxAction → RxState
  | .byte ucData => s.uartIrqHandler uRxSize ucData
  | .call nonBlock ulSize =>
    match s.reader with
    | .out => { s with reader := .waitBegin, nonBlock, ulSize }
    | _ => s
  | .go => s.uartRead uRxSize

/-- The states of the runs. -/
inductive Run (uRxSize : ℕ) (RxBuffer : ℕ → UInt8) : RxState → Prop where
  | nil : Run uRxSize RxBuffer (init RxBuffer)
  | cons {s : RxState} (run : Run uRxSize RxBuffer s) (a : RxAction) : Run uRxSize RxBuffer
    (s.step uRxSize a)

/-- The reader has freed a slot that it has not copied. -/
def inHand (s : RxState) : ℕ :=
  match s.reader with
  | .wrap | .index | .fetch _ => 1
  | _ => 0

/-- How many bytes the reader has taken. -/
def taken (s : RxState) : ℕ := s.returned.length + s.inHand

/-- What the reader knows at its place. -/
def Place (uRxSize : ℕ) (s : RxState) : Prop :=
  match s.reader with
  | .waitEnd begin | .loopEnd begin => s.uRxBegin < uRxSize ∧ begin = s.uRxBegin
  | .load => s.uRxBegin < uRxSize ∧ s.taken < s.accepted.length
  | .advance begin => s.uRxBegin < uRxSize ∧ begin = s.uRxBegin ∧ s.taken < s.accepted.length
  | .wrap => s.uRxBegin = uRxSize
  | .fetch slot => s.uRxBegin < uRxSize ∧ slot = s.uRxBegin
  | _ => s.uRxBegin < uRxSize

/-- What holds after every step of a run. The window begins with the byte that was taken last, which
is why one that is in hand is safe; before the first one it is whatever the buffer holds. -/
structure Ok (uRxSize : ℕ) (RxBuffer : ℕ → UInt8) (s : RxState) : Prop where
  /-- the buffer holds what was accepted and not taken -/
  window : Window uRxSize s.RxBuffer (RxBuffer 0 :: s.accepted) s.taken
  /-- nothing is taken before it was accepted -/
  le : s.taken ≤ s.accepted.length
  /-- what was read is the beginning of what was accepted -/
  copied : s.returned = s.accepted.take s.returned.length
  /-- both ends are where the stream says -/
  last : s.uRxEnd = s.accepted.length % uRxSize
  first : s.uRxBegin % uRxSize = s.taken % uRxSize
  /-- and each place of the thread goes with what it knows -/
  place : s.Place uRxSize
  /-- nothing is written outside of the buffer -/
  outside : ∀ i, uRxSize ≤ i → s.RxBuffer i = RxBuffer i

variable {uRxSize : ℕ} {RxBuffer : ℕ → UInt8} {s : RxState}

/-- The reader's index is at most the size of the buffer. -/
theorem Place.le (place : s.Place uRxSize) : s.uRxBegin ≤ uRxSize := by
  unfold Place at place
  split at place <;> omega

/-- A byte that is accepted changes nothing for the reader. -/
theorem Place.accept {uRxEnd : ℕ} {buffer : ℕ → UInt8} (place : s.Place uRxSize) (ucData : UInt8) :
    Place uRxSize { s with uRxEnd, RxBuffer := buffer, accepted := s.accepted ++ [ucData] } := by
  have hlength : (s.accepted ++ [ucData]).length = s.accepted.length + 1 := List.length_append
  unfold Place at place ⊢
  dsimp only [taken, inHand] at place ⊢
  rw [hlength]
  split at place <;> omega

/-- The test of the handler is right wherever the reader is: the buffer is full if the slot after
the last one written is the one that was taken last. -/
theorem Ok.accepts_iff (hsize : 2 ≤ uRxSize) (ok : s.Ok uRxSize RxBuffer) :
    s.Accepts uRxSize ↔ s.accepted.length < s.taken + (uRxSize - 1) := by
  have hle := ok.le
  have hfits := ok.window.fits
  rw [List.length_cons] at hfits
  have hfull := mod_eq_iff_full (by omega : s.taken < s.accepted.length + 1) hfits
  have hnext := mod_succ_wrap (by omega : 0 < uRxSize) s.accepted.length
  have hlt := Nat.mod_lt s.accepted.length (by omega : 0 < uRxSize)
  have hfirst := ok.first
  unfold Accepts
  rw [ok.last]
  rcases Nat.lt_or_eq_of_le ok.place.le with hin | hpast
  · rw [Nat.mod_eq_of_lt hin] at hfirst
    rw [← hnext, ← hfirst] at hfull
    split_ifs at hfull <;> omega
  · rw [hpast, Nat.mod_self] at hfirst
    rw [← hnext, ← hfirst] at hfull
    split_ifs at hfull
    · have := hfull.mp rfl
      omega
    · have hne : s.accepted.length + 1 ≠ s.taken + uRxSize := hfull.mpr
      omega

theorem Ok.byte (hsize : 2 ≤ uRxSize) (ok : s.Ok uRxSize RxBuffer) (ucData : UInt8) :
    (s.uartIrqHandler uRxSize ucData).Ok uRxSize RxBuffer := by
  unfold uartIrqHandler
  by_cases haccepts : s.Accepts uRxSize
  · have hroom := (ok.accepts_iff hsize).mp haccepts
    have hlast : (if uRxSize - 1 < s.uRxEnd + 1 then 0 else s.uRxEnd + 1) =
        (s.accepted.length + 1) % uRxSize := by
      rw [ok.last]
      exact mod_succ_wrap (by omega) _
    have hlt := Nat.mod_lt (s.accepted.length + 1) (by omega : 0 < uRxSize)
    have hle : s.returned.length ≤ s.accepted.length := (Nat.le_add_right _ _).trans ok.le
    rw [if_pos haccepts, hlast]
    refine ⟨?_, ?_, ?_, ?_, ok.first, ?_, ?_⟩
    · exact ok.window.push (by rw [List.length_cons]; omega) ucData
    · change s.taken ≤ (s.accepted ++ [ucData]).length
      rw [List.length_append]
      exact ok.le.trans (Nat.le_add_right _ _)
    · rw [List.take_append_of_le_length hle]
      exact ok.copied
    · rw [List.length_append, List.length_singleton]
    · exact ok.place.accept ucData
    · intro i hi
      exact (Function.update_of_ne (by omega) _ _).trans (ok.outside i hi)
  · rw [if_neg haccepts]
    exact ok

/-- A step that only moves the reader. -/
theorem Ok.move {r : Reader} {nonBlock : Bool} {ulSize : ℕ} (ok : s.Ok uRxSize RxBuffer)
    (hhand : inHand { s with reader := r, nonBlock, ulSize } = s.inHand)
    (hplace : Place uRxSize { s with reader := r, nonBlock, ulSize }) :
    Ok uRxSize RxBuffer { s with reader := r, nonBlock, ulSize } := by
  have htaken : taken { s with reader := r, nonBlock, ulSize } = s.taken :=
    congrArg (s.returned.length + ·) hhand
  exact ⟨htaken ▸ ok.window, htaken ▸ ok.le, ok.copied, ok.last, htaken ▸ ok.first, hplace,
    ok.outside⟩

/-- The reader frees a slot by moving its index. -/
theorem Ok.take {r : Reader} (ok : s.Ok uRxSize RxBuffer) (hhand : s.inHand = 0)
    (hhand' : inHand { s with uRxBegin := s.uRxBegin + 1, reader := r } = 1)
    (hlt : s.taken < s.accepted.length)
    (hplace : Place uRxSize { s with uRxBegin := s.uRxBegin + 1, reader := r }) :
    Ok uRxSize RxBuffer { s with uRxBegin := s.uRxBegin + 1, reader := r } := by
  have htaken : taken { s with uRxBegin := s.uRxBegin + 1, reader := r } = s.taken + 1 := by
    rw [taken, hhand', taken, hhand]
  refine ⟨?_, ?_, ok.copied, ok.last, ?_, hplace, ok.outside⟩
  · rw [htaken]
    exact ok.window.pop (by rw [List.length_cons]; omega)
  · rw [htaken]
    exact hlt
  · rw [htaken]
    exact Nat.ModEq.add_right 1 ok.first

theorem Ok.go (hsize : 2 ≤ uRxSize) (ok : s.Ok uRxSize RxBuffer) :
    (s.uartRead uRxSize).Ok uRxSize RxBuffer := by
  have hplace := ok.place
  have hle := ok.le
  have hfirst := ok.first
  unfold Place at hplace
  unfold uartRead
  cases hreader : s.reader with
  | out => exact ok
  | waitBegin =>
    simp only [hreader] at hplace
    exact ok.move (by simp [inHand, hreader]) ⟨hplace, rfl⟩
  | waitEnd begin =>
    simp only [hreader] at hplace
    dsimp only
    split_ifs
    · exact ok.move (by simp [inHand, hreader]) hplace.1
    · exact ok.move (by simp [inHand, hreader]) hplace.1
    · exact ok.move (by simp [inHand, hreader]) hplace.1
  | loopBegin =>
    simp only [hreader] at hplace
    exact ok.move (by simp [inHand, hreader]) ⟨hplace, rfl⟩
  | loopEnd begin =>
    simp only [hreader] at hplace
    dsimp only
    split_ifs with hmore
    · have hlt : s.taken < s.accepted.length := by
        refine lt_of_le_of_ne hle fun heq => hmore.1 ?_
        rw [hplace.2, ok.last, ← heq, ← hfirst, Nat.mod_eq_of_lt hplace.1]
      have hhand : s.inHand = 0 := by simp [inHand, hreader]
      exact ok.move hhand.symm ⟨hplace.1, by rwa [taken, hhand] at hlt⟩
    · exact ok.move (by simp [inHand, hreader]) hplace.1
  | load =>
    simp only [hreader] at hplace
    have hhand : s.inHand = 0 := by simp [inHand, hreader]
    exact ok.move hhand.symm ⟨hplace.1, rfl, by rw [taken, hhand] at hplace; exact hplace.2⟩
  | advance begin =>
    simp only [hreader] at hplace
    obtain ⟨hin, rfl, hlt⟩ := hplace
    have hhand : s.inHand = 0 := by simp [inHand, hreader]
    dsimp only
    split_ifs with hlast
    · exact ok.take hhand rfl hlt (by change s.uRxBegin + 1 = uRxSize; omega)
    · exact ok.take hhand rfl hlt (by change s.uRxBegin + 1 < uRxSize; omega)
  | wrap =>
    simp only [hreader] at hplace
    have hhand : s.inHand = 1 := by simp [inHand, hreader]
    rw [hplace, Nat.mod_self, taken, hhand] at hfirst
    rw [taken, hhand] at hle
    have hwindow := ok.window
    rw [taken, hhand] at hwindow
    refine ⟨hwindow, hle, ok.copied, ok.last, ?_, ?_, ok.outside⟩
    · exact (Nat.zero_mod uRxSize).trans hfirst
    · exact (by omega : 0 < uRxSize)
  | index =>
    simp only [hreader] at hplace
    exact ok.move (by simp [inHand, hreader]) ⟨hplace, rfl⟩
  | fetch slot =>
    simp only [hreader] at hplace
    obtain ⟨hin, rfl⟩ := hplace
    have htaken : s.taken = s.returned.length + 1 := by simp [taken, inHand, hreader]
    have hwindow := ok.window
    rw [htaken] at hwindow hfirst hle
    have hfront := hwindow.front (by rw [List.length_cons]; omega)
    rw [List.getElem?_cons_succ, ← hfirst, Nat.mod_eq_of_lt hin] at hfront
    have htaken' : taken { s with returned := s.returned ++ [s.RxBuffer s.uRxBegin],
                                  ulSize := s.ulSize - 1, reader := .loopBegin } =
                                  s.returned.length + 1 := by
      simp [taken, inHand]
    refine ⟨htaken' ▸ hwindow, htaken' ▸ hle, ?_, ok.last, htaken' ▸ hfirst, hin, ok.outside⟩
    dsimp only
    rw [List.length_append, List.length_singleton, List.take_add_one, hfront, ← ok.copied]
    rfl

theorem Ok.step (hsize : 2 ≤ uRxSize) (ok : s.Ok uRxSize RxBuffer) (a : RxAction) :
    (s.step uRxSize a).Ok uRxSize RxBuffer := by
  cases a with
  | byte ucData => exact ok.byte hsize ucData
  | call nonBlock ulSize =>
    have hplace := ok.place
    unfold RxState.step
    dsimp only
    split
    next hreader =>
      simp only [Place, hreader] at hplace
      exact ok.move (by simp [inHand, hreader]) hplace
    next => exact ok
  | go => exact ok.go hsize

theorem Run.ok (hsize : 2 ≤ uRxSize) (run : Run uRxSize RxBuffer s) : s.Ok uRxSize RxBuffer := by
  induction run with
  | nil =>
    refine ⟨⟨Nat.zero_le
      _, by simp [init]; omega, ?_⟩, Nat.le_refl 0, rfl, ?_, rfl, ?_, fun _ _ => rfl⟩
    · intro j x _ hj
      cases j with
      | zero =>
        rw [Nat.zero_mod]
        exact Option.some.inj hj
      | succ j => simp [init] at hj
    · exact (Nat.zero_mod uRxSize).symm
    · exact (by omega : 0 < uRxSize)
  | cons run a ih => exact ih.step hsize a

/-- The steps of a list, one after the other. -/
theorem Run.foldl (run : Run uRxSize RxBuffer s) (as : List RxAction) :
    Run uRxSize RxBuffer (as.foldl (RxState.step uRxSize) s) := by
  induction as generalizing s with
  | nil => exact run
  | cons a as ih => exact ih (run.cons a)

/-- Between two calls the indices tell how many bytes there are. -/
theorem Ok.available (ok : s.Ok uRxSize RxBuffer) (hout : s.reader = .out) :
    s.uartGetAvailable uRxSize = s.accepted.length - s.returned.length := by
  have htaken : s.taken = s.returned.length := by simp [taken, inHand, hout]
  have hin : s.uRxBegin < uRxSize := by simpa [Place, hout] using ok.place
  have hfirst := ok.first
  have hfits := ok.window.fits
  obtain ⟨k, hk⟩ := Nat.exists_eq_add_of_le ok.le
  rw [Nat.mod_eq_of_lt hin] at hfirst
  rw [List.length_cons] at hfits
  have hlast := ok.last
  rw [hk, add_mod_wrap (by omega), ← hfirst] at hlast
  unfold uartGetAvailable
  split_ifs at hlast ⊢ <;> omega

end RxState

/-- **The receive buffer** loses nothing. What was read is the beginning of what was accepted, a
byte is discarded only if all but one of the slots hold bytes that have not been taken, nothing is
stored outside the buffer, and between two calls the number of bytes reported is exact. -/
theorem uart_receive_exact {uRxSize : ℕ} (hsize : 2 ≤ uRxSize) {RxBuffer : ℕ → UInt8} {s : RxState}
    (run : RxState.Run uRxSize RxBuffer s) :
    s.returned <+: s.accepted ∧
    (¬ s.Accepts uRxSize → s.accepted.length = s.taken + (uRxSize - 1)) ∧
    (∀ i, uRxSize ≤ i → s.RxBuffer i = RxBuffer i) ∧
    (s.reader = .out → s.uartGetAvailable uRxSize = s.accepted.length - s.returned.length) := by
  have ok := run.ok hsize
  refine ⟨?_, ?_, ok.outside, ok.available⟩
  · rw [ok.copied]
    exact List.take_prefix _ _
  · intro hfull
    rw [ok.accepts_iff hsize] at hfull
    have hfits := ok.window.fits
    rw [List.length_cons] at hfits
    omega

/-- Two bytes are received and one of them is read, the next call has `uRxBegin` past the end of the
buffer, and a third byte is received then. There is no room for a fourth. -/
theorem uart_receive_exact_past_end :
    let s :=
  ([.byte 65, .call true 1, .go, .go, .go, .go, .go, .go, .go, .go, .go, .go, .byte 66,
      .call true 1, .go,
      .go, .go, .go, .go, .go, .byte 67] : List RxAction).foldl (RxState.step 2)
      (RxState.init fun _ => 0)
    s.uRxBegin = 2 ∧ ¬ s.Accepts 2 ∧ s.accepted.length = s.taken + 1 :=
  ⟨by decide, by decide, (uart_receive_exact le_rfl (RxState.Run.nil.foldl _)).2.1 (by decide)⟩

end BitThunder
