import BitThunder.Lib.Window

/-!
# The transmit buffer of the UART

`uart_write` and the transmit half of `uart_irq_handler` of `arch/arm/mach/zynq/uart.c`, in
`BT_UART_MODE_SIMPLE_BUFFERED`. Here `uTxEnd` is the next slot to write and `uTxBegin` the next one
to send. The writer takes its steps one by one, an access to an index each, and the interrupt can
come between any two of them; the writer also sends a byte itself, but with the interrupt disabled.

The index of the writer is past the end of the buffer for a moment, and the interrupt then does not
find it: it goes on around the buffer for as long as the hardware takes bytes.

* `TxState.Ok`, `Ok.step`: the buffer is a window on the bytes that were accepted;
* `uart_transmit_exact`: what is sent is what was accepted, if no interrupt comes at that moment
  with more room than there are bytes, and no call writes a byte it was not given;
* `uart_transmit_repeats`: otherwise it is not.

The situation is that of the receive buffer with the sides exchanged, and now the index that is past
the end for a moment is the one the handler compares with. It looks for the end by equality. While
the index of the writer is in the buffer it meets it; while the index is equal to the size it does
not, and goes on around the buffer for as long as the hardware has room. So a careful run asks that
in this moment the handler has no more room than there are bytes to send.

The writer's byte is in the buffer before `uTxEnd` says so, and is counted in `ulWritten` still
later. `hidden` and `uncounted` are these two differences, and with them the bytes accepted so far
can be defined between any two steps.
-/

namespace BitThunder

/-- Where `uart_write` is, named for what it does next. -/
inductive Writer : Type where
  /-- it is not in there -/
  | out
  /-- read `uTxEnd`, in the first test for a full buffer -/
  | fullEnd
  /-- read `uTxBegin`, in that test -/
  | fullBegin (last : ℕ)
  /-- read `uTxEnd`, in the second test for a full buffer -/
  | lastEnd
  /-- read `uTxBegin`, in that test -/
  | lastBegin
  /-- read `uTxEnd`, as the index of the byte -/
  | index
  /-- write the byte -/
  | store (slot : ℕ)
  /-- read `uTxEnd`, to increment it -/
  | load
  /-- write it back -/
  | advance (last : ℕ)
  /-- `hUart->uTxEnd = 0` -/
  | wrap
  /-- read `SR` -/
  | status
  /-- from `BT_DisableInterrupt` to `BT_EnableInterrupt` -/
  | critical
  /-- `++ulWritten < ulSize` -/
  | next

/-- A call of `uart_write`. -/
structure TxCall : Type where
  /-- `ulFlags & BT_FILE_NON_BLOCK` -/
  nonBlock : Bool
  ulSize : ℕ
  pBuffer : ℕ → UInt8
  ulWritten : ℕ

/-- The bytes that a call has accepted. -/
def TxCall.bytes (c : TxCall) : List UInt8 := (List.range c.ulWritten).map c.pBuffer

/-- The transmit half of a handle, and the call that writes to it. -/
structure TxState : Type where
  uTxBegin : ℕ
  uTxEnd : ℕ
  TxBuffer : ℕ → UInt8
  writer : Writer
  call : TxCall
  /-- the calls that have returned -/
  returned : List TxCall
  /-- the bytes that were put into `FIFO` -/
  sent : List UInt8

/-- What can happen next. -/
inductive TxAction : Type where
  /-- the transmit interrupt; the hardware takes `room` bytes before `SR` says `TXFULL` -/
  | interrupt (room : ℕ)
  /-- a call of `uart_write` -/
  | write (nonBlock : Bool) (ulSize : ℕ) (pBuffer : ℕ → UInt8)
  /-- the call does its next step; if it reads `SR`, that says `TXEMPTY` or not -/
  | go (txEmpty : Bool)

namespace TxState

/-- After `uart_enable`. -/
def init (TxBuffer : ℕ → UInt8) : TxState :=
  ⟨0, 0, TxBuffer, .out, ⟨false, 0, fun _ => 0, 0⟩, [], []⟩

/-- Put the next byte into `FIFO`. -/
def send (uTxSize : ℕ) (s : TxState) : TxState :=
  { s with sent := s.sent ++ [s.TxBuffer s.uTxBegin]
           uTxBegin := if uTxSize - 1 < s.uTxBegin + 1 then 0 else s.uTxBegin + 1 }

/-- The transmit half of `uart_irq_handler` -/
def uartIrqHandler (uTxSize : ℕ) : ℕ → TxState → TxState
  | 0, s => s
  | room + 1, s => if s.uTxEnd ≠ s.uTxBegin then uartIrqHandler uTxSize room (s.send uTxSize) else s

/-- The call returns. -/
def finish (s : TxState) : TxState := { s with writer := .out, returned := s.returned ++ [s.call] }

/-- The buffer was found full. -/
def full (s : TxState) : TxState :=
  if s.call.nonBlock then s.finish else { s with writer := .fullEnd }

/-- One step of `uart_write` -/
def uartWrite (uTxSize : ℕ) (s : TxState) (txEmpty : Bool) : TxState :=
  match s.writer with
  | .out => s
  | .fullEnd => { s with writer := .fullBegin s.uTxEnd }
  | .fullBegin last => if last + 1 = s.uTxBegin then s.full else { s with writer := .lastEnd }
  | .lastEnd => { s with writer := if s.uTxEnd = uTxSize - 1 then .lastBegin else .index }
  | .lastBegin => if s.uTxBegin = 0 then s.full else { s with writer := .index }
  | .index => { s with writer := .store s.uTxEnd }
  | .store slot =>
    { s with
      TxBuffer := Function.update s.TxBuffer slot (s.call.pBuffer s.call.ulWritten)
      writer := .load }
  | .load => { s with writer := .advance s.uTxEnd }
  | .advance last => { s with uTxEnd := last + 1, writer := if uTxSize - 1 < last + 1 then .wrap
    else .status }
  | .wrap => { s with uTxEnd := 0, writer := .status }
  | .status => { s with writer := if txEmpty then .critical else .next }
  | .critical =>
    let s := if txEmpty = true ∧ s.uTxEnd ≠ s.uTxBegin then s.send uTxSize else s
    { s with writer := .next }
  | .next =>
    let s := { s with call := { s.call with ulWritten := s.call.ulWritten + 1 } }
    if s.call.ulWritten < s.call.ulSize then { s with writer := .fullEnd } else s.finish

/-- One step. There is one writer. -/
def step (uTxSize : ℕ) (s : TxState) : TxAction → TxState
  | .interrupt room => s.uartIrqHandler uTxSize room
  | .write nonBlock ulSize pBuffer =>
    match s.writer with
    | .out => { s with writer := .fullEnd, call := ⟨nonBlock, ulSize, pBuffer, 0⟩ }
    | _ => s
  | .go txEmpty => s.uartWrite uTxSize txEmpty

/-- The states of the runs whose steps all satisfy `ok`. -/
inductive Run (ok : TxState → TxAction → Prop) (uTxSize : ℕ) (TxBuffer : ℕ → UInt8) :
    TxState → Prop where
  | nil : Run ok uTxSize TxBuffer (init TxBuffer)
  | cons {s : TxState} (run : Run ok uTxSize TxBuffer s) {a : TxAction} (h : ok s a) :
      Run ok uTxSize TxBuffer (s.step uTxSize a)

/-- A byte of the call is in the buffer that `ulWritten` does not count yet. -/
def uncounted (s : TxState) : ℕ :=
  match s.writer with
  | .load | .advance _ | .wrap | .status | .critical | .next => 1
  | _ => 0

/-- The bytes that the call has accepted, if there is one. -/
def current (s : TxState) : List UInt8 :=
  match s.writer with
  | .out => []
  | _ => (List.range (s.call.ulWritten + s.uncounted)).map s.call.pBuffer

/-- The bytes that all calls have accepted. -/
def accepted (s : TxState) : List UInt8 := s.returned.flatMap TxCall.bytes ++ s.current

/-- What was sent is the beginning of what was accepted, and no call has returned more than it was
given. -/
structure Exact (s : TxState) : Prop where
  /-- what was sent is the beginning of what was accepted -/
  sent : s.sent <+: s.accepted
  /-- and no call has accepted more than it was given -/
  bounded : ∀ c ∈ s.returned, c.ulWritten ≤ c.ulSize

/-- While `uTxEnd` is past the end of the buffer no interrupt finds more room than there are bytes
to send, and no call stores a byte that it was not given. -/
def Careful (uTxSize : ℕ) (s : TxState) : TxAction → Prop
  | .interrupt room => s.writer = .wrap → room ≤ (uTxSize - s.uTxBegin) % uTxSize
  | .write _ _ _ => True
  | .go _ => ∀ slot, s.writer = .store slot → s.call.ulWritten < s.call.ulSize

/-! ## What holds between two steps

What has been sent is the beginning of what was accepted, and the buffer holds the rest. While a
call is under way, it is known what it has read and whether there is room. -/

/-- A byte is in the buffer that `uTxEnd` does not count yet. -/
def hidden (s : TxState) : ℕ :=
  match s.writer with
  | .load | .advance _ => 1
  | _ => 0

/-- There is room for a byte. -/
def Room (uTxSize : ℕ) (s : TxState) : Prop := s.accepted.length + 1 < s.sent.length + uTxSize

/-- What the writer knows at its place. -/
def Place (uTxSize : ℕ) (s : TxState) : Prop :=
  match s.writer with
  | .fullBegin last | .advance last => s.uTxEnd < uTxSize ∧ last = s.uTxEnd
  | .lastEnd => s.uTxEnd < uTxSize ∧ (s.uTxEnd = uTxSize - 1 ∨ s.Room uTxSize)
  | .lastBegin => s.uTxEnd < uTxSize ∧ s.uTxEnd = uTxSize - 1
  | .index => s.uTxEnd < uTxSize ∧ s.Room uTxSize
  | .store slot => s.uTxEnd < uTxSize ∧ slot = s.uTxEnd ∧ s.Room uTxSize
  | .wrap => s.uTxEnd = uTxSize
  | _ => s.uTxEnd < uTxSize

/-- What holds after every step of a run. -/
structure Ok (uTxSize : ℕ) (s : TxState) : Prop where
  /-- the buffer holds what was accepted and not sent -/
  window : Window uTxSize s.TxBuffer s.accepted s.sent.length
  /-- what was sent is the beginning of it -/
  sent : s.sent = s.accepted.take s.sent.length
  /-- what is hidden from the interrupt is not sent -/
  le : s.sent.length + s.hidden ≤ s.accepted.length
  /-- the buffer is never full -/
  room : s.accepted.length < s.sent.length + uTxSize
  /-- both ends are where the stream says, but for what is hidden -/
  first : s.uTxBegin = s.sent.length % uTxSize
  last : s.uTxEnd % uTxSize = (s.accepted.length - s.hidden) % uTxSize
  /-- and each place of the thread goes with what it knows -/
  place : s.Place uTxSize
  /-- no call has accepted more than it was given -/
  bounded : ∀ c ∈ s.returned, c.ulWritten ≤ c.ulSize
  /-- nor has the one that is under way -/
  counted : s.writer ≠ .out → s.call.ulWritten + s.uncounted ≤ s.call.ulSize

variable {uTxSize : ℕ} {s : TxState}

/-- But for one moment the index is in the buffer. -/
theorem Place.lt (place : s.Place uTxSize) (hwrap : s.writer ≠ .wrap) : s.uTxEnd < uTxSize := by
  unfold Place at place
  cases hw : s.writer <;> simp only [hw] at place
  case wrap => exact absurd hw hwrap
  all_goals omega

/-- A byte less in the buffer changes nothing for the writer. -/
theorem Place.send (place : s.Place uTxSize) : (s.send uTxSize).Place uTxSize := by
  have hroom : s.Room uTxSize → (s.send uTxSize).Room uTxSize := by
    intro hroom
    have hlength : (s.send uTxSize).sent.length = s.sent.length + 1 := List.length_append
    unfold Room at hroom ⊢
    change s.accepted.length + 1 < _
    omega
  have hwriter : (s.send uTxSize).writer = s.writer := rfl
  unfold Place at place ⊢
  rw [hwriter]
  cases hw : s.writer <;> simp only [hw] at place ⊢
  case lastEnd => exact ⟨place.1, place.2.imp_right hroom⟩
  case index => exact ⟨place.1, hroom place.2⟩
  case store slot => exact ⟨place.1, place.2.1, hroom place.2.2⟩
  all_goals exact place

/-- Sending a byte is the other end of the window. -/
theorem Ok.send (ok : s.Ok uTxSize) (hlt : s.sent.length + s.hidden < s.accepted.length) :
    (s.send uTxSize).Ok uTxSize := by
  have hroom := ok.room
  have hfront := ok.window.front (by omega)
  have hlength : (s.send uTxSize).sent.length = s.sent.length + 1 := List.length_append
  have hplace := ok.place
  refine ⟨?_, ?_, ?_, ?_, ?_, ok.last, ?_, ok.bounded, ok.counted⟩
  · rw [hlength]
    exact ok.window.pop (by omega)
  · change s.sent ++ [s.TxBuffer s.uTxBegin] = s.accepted.take
        (s.sent ++ [s.TxBuffer s.uTxBegin]).length
    rw [List.length_append, List.length_singleton, List.take_add_one, hfront, ← ok.sent, ← ok.first]
    rfl
  · rw [hlength]
    change s.sent.length + 1 + s.hidden ≤ s.accepted.length
    omega
  · rw [hlength]
    change s.accepted.length < s.sent.length + 1 + uTxSize
    omega
  · rw [hlength, ← mod_succ_wrap (by omega), ← ok.first]
    rfl
  · exact ok.place.send

/-- With the index of the writer in its place the handler stops in time. -/
theorem Ok.lt_of_ne (ok : s.Ok uTxSize) (hin : s.uTxEnd < uTxSize) (hne : s.uTxEnd ≠ s.uTxBegin) :
    s.sent.length + s.hidden < s.accepted.length := by
  refine lt_of_le_of_ne ok.le fun heq => hne ?_
  have hlast := ok.last
  rw [Nat.mod_eq_of_lt hin, ← heq, Nat.add_sub_cancel] at hlast
  rw [hlast, ok.first]

/-- How many bytes there are to send when the index of the writer is past the end. -/
theorem Ok.pending_eq (ok : s.Ok uTxSize) (hwrap : s.writer = .wrap) :
    s.sent.length + (uTxSize - s.uTxBegin) % uTxSize = s.accepted.length := by
  have hle := ok.le
  have hroom := ok.room
  have hlast := ok.last
  have hend : s.uTxEnd = uTxSize := by simpa only [Place, hwrap] using ok.place
  have hhidden : s.hidden = 0 := by simp only [hidden, hwrap]
  obtain ⟨k, hk⟩ := Nat.exists_eq_add_of_le ((Nat.le_add_right _ _).trans hle)
  rw [hend, Nat.mod_self, hhidden, Nat.sub_zero, hk, add_mod_wrap (by omega), ← ok.first] at hlast
  have hbegin : s.uTxBegin < uTxSize := ok.first ▸ Nat.mod_lt _ (by omega)
  rcases Nat.eq_zero_or_pos s.uTxBegin with hzero | hpos
  · rw [hzero, Nat.sub_zero, Nat.mod_self]
    split_ifs at hlast <;> omega
  · rw [Nat.mod_eq_of_lt (by omega)]
    split_ifs at hlast <;> omega

/-- The interrupt handler keeps the invariant, unless the writer is about to wrap its index. -/
theorem Ok.drain {room : ℕ} (ok : s.Ok uTxSize)
    (hroom : s.writer = .wrap → s.sent.length + room ≤ s.accepted.length) :
    (uartIrqHandler uTxSize room s).Ok uTxSize := by
  induction room generalizing s with
  | zero => exact ok
  | succ room ih =>
    unfold uartIrqHandler
    split_ifs with hne
    · have hlt : s.sent.length + s.hidden < s.accepted.length := by
        by_cases hwrap : s.writer = .wrap
        · have := hroom hwrap
          have hhidden : s.hidden = 0 := by simp only [hidden, hwrap]
          omega
        · exact ok.lt_of_ne (ok.place.lt hwrap) hne
      refine ih (ok.send hlt) fun hwrap => ?_
      have hlength : (s.send uTxSize).sent.length = s.sent.length + 1 := List.length_append
      have := hroom hwrap
      rw [hlength]
      change _ ≤ s.accepted.length
      omega
    · exact ok

/-- A call under way has written the beginning of its buffer. -/
theorem current_of_ne_out (h : s.writer ≠ .out) :
    s.current = (List.range (s.call.ulWritten + s.uncounted)).map s.call.pBuffer := by
  unfold current
  split
  next hout => exact absurd hout h
  next => rfl

/-- What is about the buffer only depends on the bytes accepted and how many of them are hidden. -/
theorem Ok.transfer {s' : TxState} (ok : s.Ok uTxSize) (hbuffer : s'.TxBuffer = s.TxBuffer)
    (hbegin : s'.uTxBegin = s.uTxBegin) (hend : s'.uTxEnd = s.uTxEnd) (hsent : s'.sent = s.sent)
    (haccepted : s'.accepted = s.accepted) (hhidden : s'.hidden = s.hidden)
    (hplace : s'.Place uTxSize)
    (hbounded : ∀ c ∈ s'.returned, c.ulWritten ≤ c.ulSize)
    (hcounted : s'.writer ≠ .out → s'.call.ulWritten + s'.uncounted ≤ s'.call.ulSize) :
    s'.Ok uTxSize where
  window := by
    rw [hbuffer, hsent, haccepted]
    exact ok.window
  sent := by
    rw [hsent, haccepted]
    exact ok.sent
  le := by
    rw [hsent, haccepted, hhidden]
    exact ok.le
  room := by
    rw [hsent, haccepted]
    exact ok.room
  first := by
    rw [hbegin, hsent]
    exact ok.first
  last := by
    rw [hend, haccepted, hhidden]
    exact ok.last
  place := hplace
  bounded := hbounded
  counted := hcounted

/-- A step that only moves the writer. -/
theorem Ok.move {w : Writer} (ok : s.Ok uTxSize) (hin : s.writer ≠ .out) (hin' : w ≠ .out)
    (huncounted : uncounted { s with writer := w } = s.uncounted)
    (hhidden : hidden { s with writer := w } = s.hidden)
    (hplace : accepted { s with writer := w } = s.accepted → Place uTxSize { s with writer := w }) :
    Ok uTxSize { s with writer := w } := by
  have haccepted : accepted { s with writer := w } = s.accepted := by
    unfold accepted
    rw [current_of_ne_out hin, current_of_ne_out (s := { s with writer := w }) hin', huncounted]
  refine ok.transfer rfl rfl rfl rfl haccepted hhidden (hplace haccepted) ok.bounded fun _ => ?_
  rw [huncounted]
  exact ok.counted hin

/-- The call returns what it has counted. -/
theorem Ok.finish (ok : s.Ok uTxSize) (hin : s.writer ≠ .out) (huncounted : s.uncounted = 0)
    (hhidden : s.hidden = 0) (hend : s.uTxEnd < uTxSize) : s.finish.Ok uTxSize := by
  have haccepted : s.finish.accepted = s.accepted := by
    change (s.returned ++ [s.call]).flatMap TxCall.bytes ++ [] =
        s.returned.flatMap TxCall.bytes ++ s.current
    rw [current_of_ne_out hin, huncounted, List.append_nil, List.flatMap_append,
      List.flatMap_singleton]
    rfl
  refine ok.transfer rfl rfl rfl rfl haccepted hhidden.symm hend ?_ fun h => absurd rfl h
  intro c hc
  rcases List.mem_append.mp hc with hold | hnew
  · exact ok.bounded c hold
  · obtain rfl := List.mem_singleton.mp hnew
    have := ok.counted hin
    omega

/-- A call that finds the buffer full returns, or it waits for room. -/
theorem Ok.full (ok : s.Ok uTxSize) (hin : s.writer ≠ .out) (huncounted : s.uncounted = 0)
    (hhidden : s.hidden = 0) (hend : s.uTxEnd < uTxSize) : s.full.Ok uTxSize := by
  unfold TxState.full
  split_ifs
  · exact ok.finish hin huncounted hhidden hend
  · exact ok.move hin nofun huncounted.symm hhidden.symm fun _ => hend

/-- Without room for a byte one of the two tests finds the buffer full. -/
theorem Ok.not_room (ok : s.Ok uTxSize) (hhidden : s.hidden = 0) (hend : s.uTxEnd < uTxSize)
    (hroom : ¬ s.Room uTxSize) :
    s.uTxEnd = uTxSize - 1 ∧ s.uTxBegin = 0 ∨ s.uTxEnd ≠ uTxSize - 1 ∧
      s.uTxEnd + 1 = s.uTxBegin := by
  have hle := ok.le
  have hlt := ok.room
  have hlast := ok.last
  rw [Nat.mod_eq_of_lt hend, hhidden, Nat.sub_zero] at hlast
  unfold Room at hroom
  have hfull := (mod_eq_iff_full (by omega : s.sent.length < s.accepted.length + 1) (by omega)).mpr
    (by omega : s.accepted.length + 1 = s.sent.length + uTxSize)
  rw [← mod_succ_wrap (by omega), ← hlast, ← ok.first] at hfull
  split_ifs at hfull
  · exact .inl ⟨by omega, hfull.symm⟩
  · exact .inr ⟨by omega, hfull⟩

/-- A byte is stored behind the others. -/
theorem Ok.store (ok : s.Ok uTxSize) (hwriter : s.writer = .store s.uTxEnd)
    (hend : s.uTxEnd < uTxSize) (hroom : s.Room uTxSize)
    (hgiven : s.call.ulWritten < s.call.ulSize) :
    Ok uTxSize { s with
      TxBuffer := Function.update s.TxBuffer s.uTxEnd (s.call.pBuffer s.call.ulWritten)
      writer := .load } := by
  have hhidden : s.hidden = 0 := by simp only [hidden, hwriter]
  have huncounted : s.uncounted = 0 := by simp only [uncounted, hwriter]
  have hcurrent := current_of_ne_out (s := s) (by simp [hwriter])
  rw [huncounted] at hcurrent
  have haccepted : accepted { s with
      TxBuffer := Function.update s.TxBuffer s.uTxEnd (s.call.pBuffer s.call.ulWritten)
      writer := .load } = s.accepted ++ [s.call.pBuffer s.call.ulWritten] := by
    unfold accepted
    rw [hcurrent, List.append_assoc]
    change s.returned.flatMap TxCall.bytes ++ (List.range (s.call.ulWritten + 1)).map s.call.pBuffer
        = _
    rw [List.range_succ, List.map_append]
    rfl
  have hlast := ok.last
  have hle := ok.le
  rw [hhidden, Nat.sub_zero, Nat.mod_eq_of_lt hend] at hlast
  unfold Room at hroom
  refine ⟨?_, ?_, ?_, ?_, ok.first, ?_, hend, ok.bounded, fun _ => hgiven⟩
  · rw [haccepted]
    dsimp only
    rw [hlast]
    exact ok.window.push ok.room _
  · rw [haccepted, List.take_append_of_le_length ((Nat.le_add_right _ _).trans hle)]
    exact ok.sent
  · rw [haccepted, List.length_append]
    change s.sent.length + 1 ≤ s.accepted.length + 1
    omega
  · rw [haccepted, List.length_append]
    exact hroom
  · rw [haccepted, List.length_append, List.length_singleton]
    change s.uTxEnd % uTxSize = (s.accepted.length + 1 - 1) % uTxSize
    rw [Nat.mod_eq_of_lt hend, Nat.add_sub_cancel]
    exact hlast

/-- The index of the writer moves, at the byte it has stored or from past the end to the beginning.
-/
theorem Ok.reindex {w : Writer} {uTxEnd : ℕ} (ok : s.Ok uTxSize) (huncounted : s.uncounted = 1)
    (huncounted' : uncounted { s with uTxEnd, writer := w } = 1)
    (hhidden' : hidden { s with uTxEnd, writer := w } = 0)
    (hlast : uTxEnd % uTxSize = s.accepted.length % uTxSize)
      (hplace : Place uTxSize { s with uTxEnd, writer := w }) :
    Ok uTxSize { s with uTxEnd, writer := w } := by
  have hin : s.writer ≠ .out := by
    intro hout
    simp [uncounted, hout] at huncounted
  have hin' : w ≠ .out := by
    rintro rfl
    simp [uncounted] at huncounted'
  have haccepted : accepted { s with uTxEnd, writer := w } = s.accepted := by
    unfold accepted
    rw [current_of_ne_out hin, current_of_ne_out (s := { s with uTxEnd, writer := w }) hin',
      huncounted, huncounted']
  have hcounted := ok.counted hin
  rw [huncounted] at hcounted
  refine ⟨?_, ?_, ?_, ?_, ok.first, ?_, hplace, ok.bounded, fun _ => ?_⟩
  · rw [haccepted]
    exact ok.window
  · rw [haccepted]
    exact ok.sent
  · rw [haccepted, hhidden']
    exact (Nat.le_add_right _ _).trans ok.le
  · rw [haccepted]
    exact ok.room
  · rw [haccepted, hhidden', Nat.sub_zero]
    exact hlast
  · rw [huncounted']
    exact hcounted

/-- The call counts the byte, and goes on or returns. -/
theorem Ok.next (ok : s.Ok uTxSize) (hwriter : s.writer = .next) (hend : s.uTxEnd < uTxSize) :
    let s' := { s with call := { s.call with ulWritten := s.call.ulWritten + 1 } }
    (if s'.call.ulWritten < s'.call.ulSize then { s' with writer := .fullEnd }
      else s'.finish).Ok uTxSize := by
  have hhidden : s.hidden = 0 := by simp [hidden, hwriter]
  have huncounted : s.uncounted = 1 := by simp [uncounted, hwriter]
  have hcounted := ok.counted (by simp [hwriter])
  have hcurrent := current_of_ne_out (s := s) (by simp [hwriter])
  rw [huncounted] at hcounted hcurrent
  intro s'
  split_ifs
  · refine ok.transfer rfl rfl rfl rfl ?_ hhidden.symm hend ok.bounded fun _ => hcounted
    unfold accepted
    rw [hcurrent]
    rfl
  · refine ok.transfer rfl rfl rfl rfl ?_ hhidden.symm hend ?_ fun h => absurd rfl h
    · unfold accepted
      rw [hcurrent]
      change (s.returned ++ [s'.call]).flatMap TxCall.bytes ++ [] = _
      rw [List.append_nil, List.flatMap_append, List.flatMap_singleton]
      rfl
    · intro c hc
      rcases List.mem_append.mp hc with hold | hnew
      · exact ok.bounded c hold
      · obtain rfl := List.mem_singleton.mp hnew
        exact hcounted

theorem Ok.go {txEmpty : Bool} (ok : s.Ok uTxSize) (careful : s.Careful uTxSize (.go txEmpty)) :
    (s.uartWrite uTxSize txEmpty).Ok uTxSize := by
  have hplace := ok.place
  have hle := ok.le
  have hroom := ok.room
  unfold Place at hplace
  unfold uartWrite
  cases hwriter : s.writer with
  | out => exact ok
  | fullEnd =>
    simp only [hwriter] at hplace
    exact ok.move
      (by simp [hwriter]) nofun (by simp [uncounted, hwriter]) (by simp [hidden, hwriter])
      fun _ => ⟨hplace, rfl⟩
  | fullBegin last =>
    simp only [hwriter] at hplace
    obtain ⟨hend, rfl⟩ := hplace
    have hhidden : s.hidden = 0 := by simp [hidden, hwriter]
    dsimp only
    split_ifs with hfull
    · exact ok.full (by simp [hwriter]) (by simp [uncounted, hwriter]) hhidden hend
    · refine ok.move
        (by simp [hwriter]) nofun (by simp [uncounted, hwriter]) hhidden.symm fun haccepted => ?_
      refine ⟨hend, or_iff_not_imp_right.mpr fun hroom => ?_⟩
      rw [Room, haccepted] at hroom
      rcases ok.not_room hhidden hend hroom with ⟨hlast, -⟩ | ⟨-, hnext⟩
      · exact hlast
      · exact absurd hnext hfull
  | lastEnd =>
    simp only [hwriter] at hplace
    dsimp only
    split_ifs with hlast
    · exact ok.move
        (by simp [hwriter]) nofun (by simp [uncounted, hwriter]) (by simp [hidden, hwriter])
        fun _ => ⟨hplace.1, hlast⟩
    · refine ok.move
        (by simp [hwriter]) nofun (by simp [uncounted, hwriter]) (by simp [hidden, hwriter])
        fun haccepted => ⟨hplace.1, ?_⟩
      rw [Room, haccepted]
      exact hplace.2.resolve_left hlast
  | lastBegin =>
    simp only [hwriter] at hplace
    have hhidden : s.hidden = 0 := by simp [hidden, hwriter]
    dsimp only
    split_ifs with hzero
    · exact ok.full (by simp [hwriter]) (by simp [uncounted, hwriter]) hhidden hplace.1
    · refine ok.move (by simp [hwriter]) nofun (by simp [uncounted, hwriter]) hhidden.symm
        fun haccepted => ⟨hplace.1, ?_⟩
      rw [Room, haccepted]
      by_contra hroom
      rcases ok.not_room hhidden hplace.1 hroom with ⟨-, hbegin⟩ | ⟨hlast, -⟩
      · exact hzero hbegin
      · exact hlast hplace.2
  | index =>
    simp only [hwriter] at hplace
    refine ok.move
      (by simp [hwriter]) nofun (by simp [uncounted, hwriter]) (by simp [hidden, hwriter])
      fun haccepted => ⟨hplace.1, rfl, ?_⟩
    rw [Room, haccepted]
    exact hplace.2
  | store slot =>
    simp only [hwriter] at hplace
    obtain ⟨hend, rfl, hroom⟩ := hplace
    exact ok.store hwriter hend hroom (careful _ hwriter)
  | load =>
    simp only [hwriter] at hplace
    exact ok.move (by simp [hwriter]) nofun (by simp [uncounted, hwriter])
      (by simp [hidden, hwriter])
      fun _ => ⟨hplace, rfl⟩
  | advance last =>
    simp only [hwriter] at hplace
    obtain ⟨hend, rfl⟩ := hplace
    have hlast : (s.uTxEnd + 1) % uTxSize = s.accepted.length % uTxSize := by
      have hmod := Nat.ModEq.add_right 1 ok.last
      have hhidden : s.hidden = 1 := by simp [hidden, hwriter]
      rwa [hhidden, Nat.sub_add_cancel (by omega)] at hmod
    dsimp only
    split_ifs with hwrap
    · exact ok.reindex
        (by simp [uncounted, hwriter]) rfl rfl hlast (by change s.uTxEnd + 1 = uTxSize; omega)
    · exact ok.reindex
        (by simp [uncounted, hwriter]) rfl rfl hlast (by change s.uTxEnd + 1 < uTxSize; omega)
  | wrap =>
    simp only [hwriter] at hplace
    have hlast := ok.last
    have hhidden : s.hidden = 0 := by simp [hidden, hwriter]
    rw [hplace, Nat.mod_self, hhidden, Nat.sub_zero] at hlast
    exact ok.reindex (by simp [uncounted, hwriter]) rfl rfl ((Nat.zero_mod uTxSize).trans hlast)
      (by change 0 < uTxSize; omega)
  | status =>
    simp only [hwriter] at hplace
    dsimp only
    split_ifs
    · exact ok.move
        (by simp [hwriter]) nofun (by simp [uncounted, hwriter])
        (by simp [hidden, hwriter]) fun _ => hplace
    · exact ok.move
        (by simp [hwriter]) nofun (by simp [uncounted, hwriter])
        (by simp [hidden, hwriter]) fun _ => hplace
  | critical =>
    simp only [hwriter] at hplace
    dsimp only
    by_cases hsend : txEmpty = true ∧ s.uTxEnd ≠ s.uTxBegin
    · rw [if_pos hsend]
      have hwriter' : (s.send uTxSize).writer = .critical := hwriter
      exact (ok.send (ok.lt_of_ne hplace hsend.2)).move
        (by simp [hwriter']) nofun (by simp [uncounted, hwriter'])
        (by simp [hidden, hwriter']) fun _ => hplace
    · rw [if_neg hsend]
      exact ok.move
        (by simp [hwriter]) nofun (by simp [uncounted, hwriter])
        (by simp [hidden, hwriter]) fun _ => hplace
  | next =>
    simp only [hwriter] at hplace
    exact ok.next hwriter hplace

theorem Ok.step {a : TxAction} (ok : s.Ok uTxSize) (careful : s.Careful uTxSize a) :
    (s.step uTxSize a).Ok uTxSize := by
  cases a with
  | interrupt room =>
    refine ok.drain fun hwrap => ?_
    have hpending := ok.pending_eq hwrap
    have := careful hwrap
    omega
  | write nonBlock ulSize pBuffer =>
    unfold TxState.step
    dsimp only
    split
    next hout =>
      have hplace := ok.place
      simp only [Place, hout] at hplace
      have hhidden : s.hidden = 0 := by simp [hidden, hout]
      refine ok.transfer rfl rfl rfl rfl ?_ hhidden.symm hplace ok.bounded fun _ => Nat.zero_le _
      simp [accepted, current, uncounted, hout]
    next => exact ok
  | go txEmpty => exact ok.go careful

theorem Run.ok {TxBuffer : ℕ → UInt8} (hsize : 2 ≤ uTxSize)
    (run : Run (Careful uTxSize) uTxSize TxBuffer s) :
    s.Ok uTxSize := by
  induction run with
  | nil =>
    refine ⟨⟨Nat.le_refl 0,
      Nat.zero_le _, by
      simp [init, accepted, current]⟩, rfl, Nat.le_refl 0, ?_, ?_, rfl, ?_, ?_, ?_⟩
    · exact (by omega : 0 < 0 + uTxSize)
    · exact (Nat.zero_mod uTxSize).symm
    · exact (by omega : 0 < uTxSize)
    · simp [init]
    · exact fun h => absurd rfl h
  | cons run careful ih => exact ih.step careful

/-- The steps of a list, one after the other. -/
theorem Run.foldl {TxBuffer : ℕ → UInt8} (run : Run (fun _ _ => True) uTxSize TxBuffer s)
    (as : List TxAction) :
    Run (fun _ _ => True) uTxSize TxBuffer (as.foldl (TxState.step uTxSize) s) := by
  induction as generalizing s with
  | nil => exact run
  | cons a as ih => exact ih (run.cons trivial)

end TxState

/-- **The transmit buffer** sends what was accepted, in a run in which no interrupt comes between
the increment and the wrap of `uTxEnd` and finds more room than there are bytes, and no call with
nothing to write gets to store a byte. -/
theorem uart_transmit_exact {uTxSize : ℕ} (hsize : 2 ≤ uTxSize) {TxBuffer : ℕ → UInt8} {s : TxState}
    (run : TxState.Run (TxState.Careful uTxSize) uTxSize TxBuffer s) : s.Exact := by
  have ok := run.ok hsize
  refine ⟨?_, ok.bounded⟩
  rw [ok.sent]
  exact List.take_prefix _ _

/-- A call stores its first byte, and the interrupt sends it before the call goes on. -/
theorem uart_transmit_exact_first :
    (([.write false 2 (fun i => if i = 0 then 65 else 66), .go false, .go false, .go false,
      .go false, .go false, .go false,
      .go false, .interrupt 3] : List TxAction).foldl (TxState.step 2)
      (TxState.init fun _ => 0)).Exact := by
  have h₀ : TxState.Run (TxState.Careful 2) 2 (fun _ => 0) (TxState.init fun _ => 0) := .nil
  have h₁ := h₀.cons (a := .write false 2 (fun i => if i = 0 then 65 else 66)) trivial
  have h₂ := h₁.cons (a := .go false) fun _ _ => by decide
  have h₃ := h₂.cons (a := .go false) fun _ _ => by decide
  have h₄ := h₃.cons (a := .go false) fun _ _ => by decide
  have h₅ := h₄.cons (a := .go false) fun _ _ => by decide
  have h₆ := h₅.cons (a := .go false) fun _ _ => by decide
  have h₇ := h₆.cons (a := .go false) fun _ _ => by decide
  have h₈ := h₇.cons (a := .go false) fun _ _ => by decide
  have h₉ := h₈.cons (a := .interrupt 3) nofun
  exact uart_transmit_exact le_rfl h₉

/-- With two slots, a byte is written and sent, the next one is written to the last slot, and the
interrupt comes before `uTxEnd` is wrapped. It sends the first byte again. -/
theorem uart_transmit_repeats :
    let s := [.write true 1 (fun _ => 65), .go false, .go false, .go false, .go false, .go false,
      .go false, .go false, .go false, .go false, .interrupt 1, .write true 1 (fun _ => 66),
      .go false,
      .go false, .go false, .go false, .go false, .go false, .go false, .go false,
      .interrupt 2].foldl
        (TxState.step 2) (TxState.init fun _ => 0)
    TxState.Run (fun _ _ => True) 2 (fun _ => 0) s ∧ ¬s.Exact := by
  intro s
  refine ⟨TxState.Run.nil.foldl _, fun hexact => ?_⟩
  exact absurd hexact.sent (by decide : ¬ ([65, 66, 65] : List UInt8) <+: [65, 66])

end BitThunder
