import BitThunder.Net.Gem

/-!
# The transmit path

`lwip_output` and the transmit part of `bt_lwip_process` in `os/src/net/bt_lwip.c`, on the transmit
side of `arch/arm/mach/zynq/gem.c`. A frame is copied piece by piece into the buffer of the
descriptor `tx_ci` and then handed to the hardware; if the descriptor is not free, or other frames
wait, it waits in a FIFO of 20. The stack does all of this under the mutex of `sys_arch_protect`,
`net_task` takes frames out of the FIFO under it and sends them without.

* `SendState.Intact`: the hardware holds the frames that were accepted, in order;
* `transmits_intact`: it does as long as frames fit into a buffer and one thread at a time sends;
* `transmits_past_buffer`: a frame of the size that the interface allows does not fit.

Frames are numbered in the order in which they were accepted. The first of them have been sent, the
next are in descriptors that the hardware has, then comes the frame under construction, and the rest
wait in the FIFO. The ring is a window on the bytes of the accepted frames, as the receive ring is,
and `Work` says what of the frame under construction is in the buffer of the next descriptor.

The critical section protects the decision whether to send at once, and taking a frame out of the
FIFO; the task sends what it has taken outside of it. So there may be two frames under construction,
in one buffer. The condition says that the stack does not begin while the task has a frame, and that
the descriptor which was free when the task asked still is. And a piece is copied wherever the count
of bytes has got to, which is why a frame has to fit into a buffer.
-/

namespace BitThunder

/-- `TX_BD_USED` -/
def txBdUsed : ℕ := 0x80000000

/-- `TX_BD_WRAP` -/
def txBdWrap : ℕ := 0x40000000

/-- `TX_BD_LAST` -/
def txBdLast : ℕ := 0x00008000

/-- `TX_BD_LENGTH` -/
def txBdLength : ℕ := 0x00003FFF

/-- `SEND_BD_CNT` -/
def sendBdCnt : ℕ := 256

/-- `TX_BUF_SIZE` -/
def txBufSize : ℕ := 1536

/-- What `bt_page_alloc_coherent` returns for the buffers. -/
structure TxBlock : Type where
  phys : ℕ
  fits : phys + txBufSize * sendBdCnt ≤ 2 ^ 32

/-- A chain of `struct pbuf`, as the payload of each -/
abbrev Pbuf : Type := List (List UInt8)

/-- The transmit side of the driver's handle, and what it points to -/
structure GemTx : Type where
  txbd : ℕ → GemBd
  /-- the buffers, from `txbufs` on -/
  txbufs : Memory
  txCi : ℕ
  txBytes : ℕ

namespace GemTx

/-- `descriptor_init` -/
def descriptorInit (block : TxBlock) : GemTx where
  txbd i := ⟨block.phys + txBufSize * i, txBdUsed ||| if i = sendBdCnt - 1 then txBdWrap else 0⟩
  txbufs _ := 0
  txCi := 0
  txBytes := 0

/-- `mac_getmtusize` -/
def macGetmtusize : ℕ := rxBufSize

/-- `mac_write` -/
def macWrite (tx : GemTx) (p : List UInt8) : GemTx :=
  { tx with
    txbufs := tx.txbufs.write (txBufSize * tx.txCi + tx.txBytes) p
    txBytes := wordAdd tx.txBytes p.length }

/-- `mac_tx_ready` -/
def macTxReady (tx : GemTx) : Bool × GemTx :=
  let cur := tx.txbd tx.txCi
  if cur.flags &&& txBdUsed ≠ 0 then
    (true, { tx with
      txbd := Function.update tx.txbd tx.txCi
        { cur with flags := cur.flags &&& (txBdUsed ||| txBdWrap) } })
  else (false, tx)

/-- `mac_sendframe` -/
def macSendframe (tx : GemTx) : GemTx :=
  let cur := tx.txbd tx.txCi
  let flags := cur.flags &&& (txBdUsed ||| txBdWrap)
  let flags := flags ||| txBdLast
  let flags := flags ||| (tx.txBytes &&& txBdLength)
  { tx with
    txBytes := 0
    txbd := Function.update tx.txbd tx.txCi { cur with flags := flags &&& wordNot txBdUsed }
    txCi := if tx.txCi + 1 = sendBdCnt then 0 else tx.txCi + 1 }

end GemTx

/-- The driver, the hardware and the FIFO. -/
structure SendFlow : Type where
  tx : GemTx
  /-- the descriptor that the hardware sends next -/
  hw : ℕ
  /-- `hTxFifo` -/
  fifo : List Pbuf
  /-- the frames that `lwip_output` has sent or put into the FIFO, in order -/
  accepted : List Pbuf
  /-- how many descriptors were handed to the hardware -/
  handed : ℕ
  /-- the frames that the hardware has sent, in order -/
  wire : List (List UInt8)

namespace SendFlow

def init (block : TxBlock) : SendFlow := ⟨.descriptorInit block, 0, [], [], 0, []⟩

/-- `pfnTxFifoReady` -/
def pfnTxFifoReady (f : SendFlow) : Bool × SendFlow :=
  (f.tx.macTxReady.1, { f with tx := f.tx.macTxReady.2 })

/-- `pfnWrite` -/
def pfnWrite (f : SendFlow) (payload : List UInt8) : SendFlow :=
  { f with tx := f.tx.macWrite payload }

/-- `pfnSendFrame` -/
def pfnSendFrame (f : SendFlow) : SendFlow :=
  { f with tx := f.tx.macSendframe, handed := f.handed + 1 }

/-- The hardware sends the frame of its next descriptor, if that was handed to it. -/
def transmit (block : TxBlock) (f : SendFlow) : SendFlow :=
  let cur := f.tx.txbd f.hw
  if cur.flags &&& txBdUsed = 0 then
    { f with
      wire := f.wire ++ [f.tx.txbufs.bytes (cur.address - block.phys) (cur.flags &&& txBdLength)]
      tx := { f.tx with
        txbd := Function.update f.tx.txbd f.hw { cur with flags := cur.flags ||| txBdUsed } }
      hw := if cur.flags &&& txBdWrap ≠ 0 then 0 else f.hw + 1 }
  else f

end SendFlow

/-- Who can hold the mutex of `sys_arch_protect` -/
inductive SendThread : Type where
  | stack
  | task
  deriving DecidableEq

/-- Where the stack is in `lwip_output`, named for what it does next. -/
inductive SendStack : Type where
  /-- not called -/
  | out
  /-- `SYS_ARCH_PROTECT` -/
  | protect (p : Pbuf)
  /-- `BT_FifoIsEmpty` and `pfnTxFifoReady` -/
  | ready (p : Pbuf)
  /-- `lwIPif_transmit`: `pfnWrite` for the rest of the chain, then `pfnSendFrame` -/
  | transmit (rest : Pbuf)
  /-- `write_packet` -/
  | queue (p : Pbuf)
  /-- `SYS_ARCH_UNPROTECT` -/
  | unprotect

/-- Where `net_task` is in `bt_lwip_process`; `last` after the loop. -/
inductive SendTask : Type where
  /-- not called -/
  | out
  /-- `lwip_receive` -/
  | receive
  /-- `pfnTxFifoReady` -/
  | ready (last : Bool)
  /-- `read_packet`: `SYS_ARCH_PROTECT` -/
  | protect (last : Bool)
  /-- the FIFO is read -/
  | read (last : Bool)
  /-- `SYS_ARCH_UNPROTECT` -/
  | unprotect (last : Bool) (p : Option Pbuf)
  /-- `lwIPif_transmit` -/
  | transmit (last : Bool) (rest : Pbuf)

/-- All of it -/
structure SendState : Type where
  flow : SendFlow
  stack : SendStack
  task : SendTask
  owner : Option SendThread

/-- What can happen next. -/
inductive SendAction : Type where
  /-- `lwip_output` is called -/
  | lwipOutput (p : Pbuf)
  /-- `bt_lwip_process` is called -/
  | process
  /-- the stack does its next step -/
  | stack
  /-- the task does; if it is to receive a frame, `found` is whether there is one -/
  | task (found : Bool)
  /-- the hardware does -/
  | transmit

namespace SendStack

/-- The part of a frame that is to be copied still -/
def frame : SendStack → Option Pbuf
  | .transmit rest => some rest
  | _ => none

/-- The frame that is to be sent or put into the FIFO -/
def asked : SendStack → Option Pbuf
  | .protect p => some p
  | .ready p => some p
  | .queue p => some p
  | _ => none

/-- Within the critical section -/
def locked : SendStack → Bool
  | .ready _ | .transmit _ | .queue _ | .unprotect => true
  | _ => false

end SendStack

namespace SendTask

/-- The part of a frame that is to be copied still -/
def frame : SendTask → Option Pbuf
  | .unprotect _ p => p
  | .transmit _ rest => some rest
  | _ => none

/-- Within the critical section -/
def locked : SendTask → Bool
  | .read _ | .unprotect _ _ => true
  | _ => false

/-- Once a frame is sent, or there is none to send -/
def after (last : Bool) : SendTask := if last then .out else .receive

end SendTask

namespace SendState

def init (block : TxBlock) : SendState := ⟨.init block, .out, .out, none⟩

/-- One step of `lwip_output` -/
def lwipOutput (s : SendState) : SendState :=
  match s.stack with
  | .out => s
  | .protect p => match s.owner with
    | none => { s with owner := some .stack, stack := .ready p }
    | some _ => s
  | .ready p =>
    if s.flow.fifo.isEmpty then
      if s.flow.pfnTxFifoReady.1 then
        { s with
          flow := { s.flow.pfnTxFifoReady.2 with accepted := s.flow.accepted ++ [p] }
          stack := .transmit p }
      else { s with flow := s.flow.pfnTxFifoReady.2, stack := .queue p }
    else { s with stack := .queue p }
  | .transmit (payload :: rest) =>
    { s with flow := s.flow.pfnWrite payload, stack := .transmit rest }
  | .transmit [] => { s with flow := s.flow.pfnSendFrame, stack := .unprotect }
  -- `BT_FifoWrite` blocks while the FIFO is full
  | .queue p =>
    if s.flow.fifo.length < 20 then
      { s with
        flow := { s.flow with fifo := s.flow.fifo ++ [p], accepted := s.flow.accepted ++ [p] }
        stack := .unprotect }
    else s
  | .unprotect => { s with owner := none, stack := .out }

/-- One step of `bt_lwip_process`. What it does with the frames it receives does not touch the
transmit side. -/
def btLwipProcess (s : SendState) (found : Bool) : SendState :=
  match s.task with
  | .out => s
  | .receive => { s with task := .ready !found }
  | .ready last =>
    if s.flow.pfnTxFifoReady.1
      then { s with flow := s.flow.pfnTxFifoReady.2, task := .protect last }
    else { s with flow := s.flow.pfnTxFifoReady.2, task := .after last }
  | .protect last => match s.owner with
    | none => { s with owner := some .task, task := .read last }
    | some _ => s
  | .read last => match s.flow.fifo with
    | [] => { s with task := .unprotect last none }
    | p :: fifo => { s with flow := { s.flow with fifo := fifo }, task := .unprotect last (some p) }
  | .unprotect last none => { s with owner := none, task := .after last }
  | .unprotect last (some p) => { s with owner := none, task := .transmit last p }
  | .transmit last (payload :: rest) =>
    { s with flow := s.flow.pfnWrite payload, task := .transmit last rest }
  | .transmit last [] => { s with flow := s.flow.pfnSendFrame, task := .after last }

/-- One step -/
def step (block : TxBlock) (s : SendState) : SendAction → SendState
  | .lwipOutput p => match s.stack with
    | .out => { s with stack := .protect p }
    | _ => s
  | .process => match s.task with
    | .out => { s with task := .receive }
    | _ => s
  | .stack => s.lwipOutput
  | .task found => s.btLwipProcess found
  | .transmit => { s with flow := s.flow.transmit block }

/-- The states of the runs whose steps all satisfy `ok`. -/
inductive Run (block : TxBlock) (ok : SendState → SendAction → Prop) : SendState → Prop where
  | nil : Run block ok (init block)
  | cons {s : SendState} (run : Run block ok s) {a : SendAction} (h : ok s a) : Run block ok
    (s.step block a)

/-- Frames are as large as the interface allows: its MTU and the header. -/
def Legal (_s : SendState) : SendAction → Prop
  | .lwipOutput p => p.flatten.length ≤ GemTx.macGetmtusize + 14
  | _ => True

/-- Frames fit into a buffer, the stack does not start to send a frame while the task has one, and
when the task takes one the descriptor is still free. -/
def Careful (s : SendState) : SendAction → Prop
  | .lwipOutput p => p.flatten.length ≤ txBufSize
  | .stack => ∀ p, s.stack = .ready p → s.flow.fifo = [] → s.flow.pfnTxFifoReady.1 = true →
    s.task.frame = none
  | .task _ => ∀ last, s.task = .read last → s.flow.fifo ≠ [] → s.flow.pfnTxFifoReady.1 = true
  | _ => True

end SendState

namespace SendFlow

/-- What a descriptor holds -/
def slot (f : SendFlow) (d : ℕ) : List UInt8 :=
  f.tx.txbufs.bytes (txBufSize * d) ((f.tx.txbd d).flags &&& txBdLength)

/-- The bytes of the frames that were accepted -/
def frames (f : SendFlow) : List (List UInt8) := f.accepted.map List.flatten

end SendFlow

/-- Frames are sent as they were accepted. -/
structure SendState.Intact (s : SendState) : Prop where
  /-- what is written next is written to the buffer of `tx_ci`, which is not the hardware's -/
  inside : ∀ payload rest, s.stack.frame = some (payload :: rest) ∨
    s.task.frame = some (payload :: rest) →
    s.flow.tx.txBytes + payload.length ≤ txBufSize ∧
    (s.flow.tx.txbd s.flow.tx.txCi).flags &&& txBdUsed ≠ 0
  /-- the frames that were sent are the first ones that were accepted -/
  sent : s.flow.wire = s.flow.frames.take s.flow.wire.length
  /-- no frame is handed on twice -/
  once : s.flow.handed ≤ s.flow.accepted.length
  /-- the hardware has the descriptors of the frames that were handed to it and not sent -/
  owned : ∀ d < sendBdCnt, (s.flow.tx.txbd d).flags &&& txBdUsed = 0 ↔
    ∃ j, s.flow.wire.length ≤ j ∧ j < s.flow.handed ∧ j % sendBdCnt = d
  /-- and these hold them, in the order they were accepted -/
  held : Window sendBdCnt s.flow.slot (s.flow.frames.take s.flow.handed) s.flow.wire.length

/-! ## Descriptors

Two bits of the control word matter, whose the descriptor is and whether it is the last; the rest of
it is the length. -/

section flags

variable {x n : ℕ}

/-- The top bit of the control word tells whose the descriptor is. -/
theorem land_used : x &&& txBdUsed ≠ 0 ↔ x.testBit 31 = true := by
  have h : x &&& txBdUsed = (x.testBit 31).toNat * 2 ^ 31 := Nat.and_two_pow x 31
  rw [h]
  cases x.testBit 31 <;> simp

theorem land_txWrap : x &&& txBdWrap ≠ 0 ↔ x.testBit 30 = true := by
  have h : x &&& txBdWrap = (x.testBit 30).toNat * 2 ^ 30 := Nat.and_two_pow x 30
  rw [h]
  cases x.testBit 30 <;> simp

/-- The descriptors are the driver's at first, and the last one ends the ring. -/
theorem used_init (last : Prop) [Decidable last] :
    (txBdUsed ||| if last then txBdWrap else 0).testBit 31 = true ∧
      (txBdUsed ||| if last then txBdWrap else 0).testBit 30 = decide last := by
  by_cases h : last
  · rw [if_pos h, decide_eq_true h]
    decide
  · rw [if_neg h, decide_eq_false h]
    decide

/-- `mac_tx_ready` leaves the flags that matter. -/
theorem flags_ready (x : ℕ) : (x &&& (txBdUsed ||| txBdWrap)).testBit 31 = x.testBit 31 ∧
    (x &&& (txBdUsed ||| txBdWrap)).testBit 30 = x.testBit 30 := by
  rw [Nat.testBit_and, Nat.testBit_and]
  exact ⟨Bool.and_true _, Bool.and_true _⟩

/-- The flags of a descriptor that is handed to the hardware -/
def sentFlags (x n : ℕ) : ℕ :=
  (x &&& (txBdUsed ||| txBdWrap) ||| txBdLast ||| (n &&& txBdLength)) &&& wordNot txBdUsed

theorem sentFlags_used (x n : ℕ) : (sentFlags x n).testBit 31 = false := by
  rw [sentFlags, Nat.testBit_and]
  exact Bool.and_false _

theorem sentFlags_wrap (x n : ℕ) : (sentFlags x n).testBit 30 = x.testBit 30 := by
  have hlast : txBdLast.testBit 30 = false := by decide
  have hlength : txBdLength.testBit 30 = false := by decide
  have hnot : (wordNot txBdUsed).testBit 30 = true := by decide
  rw [sentFlags, Nat.testBit_and, Nat.testBit_or, Nat.testBit_or, (flags_ready x).2,
    Nat.testBit_and, hlast, hlength, hnot, Bool.and_false, Bool.or_false, Bool.or_false,
    Bool.and_true]

theorem sentFlags_length (x : ℕ) (hn : n < 2 ^ 14) : sentFlags x n &&& txBdLength = n := by
  have hmask (y : ℕ) : y &&& txBdLength = y % 2 ^ 14 := Nat.and_two_pow_sub_one_eq_mod y 14
  have hhigh : (txBdUsed ||| txBdWrap) % 2 ^ 14 = 0 := by decide
  have hlast : txBdLast % 2 ^ 14 = 0 := by decide
  have hnot : wordNot txBdUsed % 2 ^ 14 = txBdLength := by decide
  rw [hmask, sentFlags, Nat.and_mod_two_pow, Nat.or_mod_two_pow, Nat.or_mod_two_pow,
    Nat.and_mod_two_pow, hhigh, hlast, hnot, hmask n, Nat.mod_mod, Nat.and_zero, Nat.zero_or,
    Nat.zero_or, hmask, Nat.mod_mod, Nat.mod_eq_of_lt hn]

/-- The hardware gives it back, and leaves the ring as it is. -/
theorem flags_done (x : ℕ) : (x ||| txBdUsed).testBit 31 = true ∧
    (x ||| txBdUsed).testBit 30 = x.testBit 30 := by
  rw [Nat.testBit_or, Nat.testBit_or]
  exact ⟨Bool.or_true _, Bool.or_false _⟩

end flags

/-! ## The driver and the hardware

The ring is followed through each operation, with a frame under construction or without. -/

namespace SendFlow

variable {block : TxBlock} {f : SendFlow} {payload : List UInt8} {p rest : Pbuf}
  {work : Option Pbuf}

/-- What holds of the frame under construction, of which `rest` is to be copied still. -/
def Work (f : SendFlow) : Option Pbuf → Prop
  | none => f.tx.txBytes = 0 ∧ f.fifo = f.accepted.drop f.handed
  | some rest => f.fifo = f.accepted.drop (f.handed + 1) ∧
  (f.tx.txbd f.tx.txCi).flags.testBit 31 = true ∧
      f.frames[f.handed]? = some (f.tx.txbufs.bytes (1536 * f.tx.txCi) f.tx.txBytes ++ rest.flatten)

/-- What holds between the steps. -/
structure Ok (block : TxBlock) (f : SendFlow) (work : Option Pbuf) : Prop where
  /-- a descriptor leads to its buffer -/
  base : ∀ d < 256, (f.tx.txbd d).address = block.phys + 1536 * d
  /-- and the last one says that it is -/
  wrap : ∀ d < 256, (f.tx.txbd d).flags.testBit 30 = decide (d = 255)
  /-- the descriptors of the frames that are still to be sent belong to the hardware -/
  owned : ∀ d < 256, (f.tx.txbd d).flags.testBit 31 = false ↔
    ∃ j, f.wire.length ≤ j ∧ j < f.handed ∧ j % 256 = d
  /-- their buffers hold these frames -/
  held : Window 256 f.slot (f.frames.take f.handed) f.wire.length
  /-- what was sent are the first of them, as they were accepted -/
  sent : f.wire = f.frames.take f.wire.length
  /-- no frame is longer than a buffer -/
  small : ∀ frame ∈ f.frames, frame.length ≤ 1536
  /-- no frame was handed over that was not accepted -/
  once : f.handed ≤ f.accepted.length
  /-- the hardware is at the descriptor behind what was sent -/
  next : f.hw = f.wire.length % 256
  /-- the driver at the one behind what was handed over -/
  ci : f.tx.txCi = f.handed % 256
  /-- what has been copied of a frame in hand is in its buffer -/
  work : f.Work work

/-- There is one frame for each that was accepted. -/
theorem length_frames (f : SendFlow) : f.frames.length = f.accepted.length := List.length_map ..

theorem Ok.init : Ok block (init block) none where
  base _ _ := rfl
  wrap d _ := (used_init _).2
  owned d _ := iff_of_false (by simp [SendFlow.init, GemTx.descriptorInit, (used_init _).1])
    fun ⟨_, _, hj, _⟩ => absurd hj (Nat.not_lt_zero _)
  held := ⟨Nat.le_refl _, Nat.zero_le _, fun _ _ _ hj => nomatch hj⟩
  sent := rfl
  small _ h := absurd h List.not_mem_nil
  once := Nat.le_refl _
  next := rfl
  ci := rfl
  work := ⟨rfl, rfl⟩

/-- The index of the next descriptor is one of the ring's. -/
theorem Ok.ci_lt (h : Ok block f work) : f.tx.txCi < 256 := by
  rw [h.ci]
  exact Nat.mod_lt _ (by decide)

/-- How many frames the ring holds -/
theorem Ok.length_taken (h : Ok block f work) : (f.frames.take f.handed).length = f.handed := by
  rw [List.length_take, length_frames]
  exact Nat.min_eq_left h.once

/-- A descriptor that holds a frame is not free. -/
theorem Ok.ne_of_held (h : Ok block f work) {d j : ℕ} (hd : d < 256)
    (hfree : (f.tx.txbd d).flags.testBit 31 = true)
    (hlo : f.wire.length ≤ j) (hhi : j < f.handed) : j % 256 ≠ d := by
  intro hj
  have hused := (h.owned d hd).mpr ⟨j, hlo, hhi, hj⟩
  rw [hfree] at hused
  exact absurd hused (by decide)

/-- A descriptor that holds a frame has its length. -/
theorem Ok.length_held (h : Ok block f work) {j : ℕ} (hlo : f.wire.length ≤ j)
    (hhi : j < f.handed) :
    (f.tx.txbd (j % 256)).flags &&& txBdLength ≤ 1536 := by
  have hlt : j < (f.frames.take f.handed).length := by
    rw [h.length_taken]
    exact hhi
  have hslot := h.held.slot j _ hlo (List.getElem?_eq_getElem hlt)
  have hlen : (f.slot (j % 256)).length = (f.tx.txbd (j % 256)).flags &&& txBdLength :=
    Memory.length_bytes _ _ _
  rw [← hlen, hslot]
  exact h.small _ (List.mem_of_mem_take (List.getElem_mem hlt))

/-- Only the descriptors that hold frames count. -/
theorem Ok.held_congr (h : Ok block f work) {f' : SendFlow}
    (haccepted : f'.frames.take f.handed = f.frames.take f.handed)
    (hslot : ∀ j, f.wire.length ≤ j → j < f.handed → f'.slot (j % 256) = f.slot (j % 256)) :
    Window 256 f'.slot (f'.frames.take f.handed) f.wire.length := by
  rw [haccepted]
  refine h.held.congr_held fun j hlo hj => hslot j hlo ?_
  rwa [h.length_taken] at hj

/-- `pfnTxFifoReady` tells whether the descriptor is free. -/
theorem Ok.ready (h : Ok block f work) :
    (f.pfnTxFifoReady.1 = true ↔ (f.tx.txbd f.tx.txCi).flags.testBit 31 = true) ∧
    Ok block f.pfnTxFifoReady.2 work := by
  have hci := h.ci_lt
  unfold pfnTxFifoReady GemTx.macTxReady
  by_cases hfree : (f.tx.txbd f.tx.txCi).flags &&& txBdUsed ≠ 0
  swap
  · simp only [if_neg hfree]
    exact ⟨iff_of_false (by simp) (mt land_used.mpr hfree), h⟩
  · simp only [if_pos hfree]
    have hused := land_used.mp hfree
    obtain ⟨h31, h30⟩ := flags_ready (f.tx.txbd f.tx.txCi).flags
    refine ⟨iff_of_true trivial hused, fun d hd => ?_, fun d hd => ?_, fun d hd => ?_, ?_, h.sent,
      h.small, h.once, h.next, h.ci, ?_⟩
    · change (Function.update f.tx.txbd f.tx.txCi _ d).address = _
      by_cases hdc : d = f.tx.txCi
      · rw [hdc, Function.update_self]
        exact h.base _ hci
      · rw [Function.update_of_ne hdc]
        exact h.base d hd
    · change (Function.update f.tx.txbd f.tx.txCi _ d).flags.testBit 30 = _
      by_cases hdc : d = f.tx.txCi
      · rw [hdc, Function.update_self]
        exact h30.trans (h.wrap _ hci)
      · rw [Function.update_of_ne hdc]
        exact h.wrap d hd
    · change (Function.update f.tx.txbd f.tx.txCi _ d).flags.testBit 31 = false ↔ _
      by_cases hdc : d = f.tx.txCi
      · rw [hdc, Function.update_self]
        simp only [h31]
        exact h.owned _ hci
      · rw [Function.update_of_ne hdc]
        exact h.owned d hd
    · refine h.held_congr rfl fun j hlo hhi => ?_
      have hne := h.ne_of_held hci hused hlo hhi
      simp only [slot, Function.update_of_ne hne]
    · cases work with
      | none => exact h.work
      | some rest =>
        obtain ⟨hfifo, -, hframe⟩ := h.work
        refine ⟨hfifo, ?_, hframe⟩
        simp only [Function.update_self, h31]
        exact hused

/-- A free descriptor stays free. -/
theorem ready_free (h : f.pfnTxFifoReady.1 = true) :
    (f.pfnTxFifoReady.2.tx.txbd f.pfnTxFifoReady.2.tx.txCi).flags.testBit 31 = true := by
  unfold pfnTxFifoReady GemTx.macTxReady at h ⊢
  by_cases hfree : (f.tx.txbd f.tx.txCi).flags &&& txBdUsed ≠ 0
  · simp only [if_pos hfree, Function.update_self, (flags_ready _).1]
    exact land_used.mp hfree
  · simp only [if_neg hfree] at h
    exact absurd h nofun

/-- A piece is copied. -/
theorem Ok.pfnWrite (h : Ok block f (some (payload :: rest))) :
    Ok block (f.pfnWrite payload) (some rest) := by
  obtain ⟨hfifo, hfree, hframe⟩ := h.work
  have hci := h.ci_lt
  have hsmall := h.small _ (List.mem_of_getElem? hframe)
  have hlen : (f.tx.txbufs.bytes (1536 * f.tx.txCi) f.tx.txBytes).length = f.tx.txBytes :=
    Memory.length_bytes _ _ _
  rw [List.flatten_cons, List.length_append, List.length_append, hlen] at hsmall
  have hbytes : wordAdd f.tx.txBytes payload.length = f.tx.txBytes + payload.length :=
    wordAdd_of_lt (by omega)
  refine ⟨h.base, h.wrap, h.owned, ?_, h.sent, h.small, h.once, h.next, h.ci, hfifo, hfree, ?_⟩
  · refine h.held_congr rfl fun j hlo hhi => ?_
    have hne := h.ne_of_held hci hfree hlo hhi
    have hheld := h.length_held hlo hhi
    refine Memory.bytes_write_of_out ?_
    simp only [SendFlow.pfnWrite, GemTx.macWrite, txBufSize]
    omega
  · change f.frames[f.handed]? = _
    rw [hframe, List.flatten_cons, ← List.append_assoc]
    change _ = some ((f.tx.txbufs.write (1536 * f.tx.txCi + f.tx.txBytes) payload).bytes
        (1536 * f.tx.txCi)
      (wordAdd f.tx.txBytes payload.length) ++ _)
    rw [hbytes, Memory.bytes_append, Memory.bytes_write_of_out (.inl (Nat.le_refl _)),
      Memory.bytes_write_self]

/-- The ring has room if the next descriptor is free. -/
theorem Ok.room (h : Ok block f work) (hfree : (f.tx.txbd f.tx.txCi).flags.testBit 31 = true) :
    f.handed < f.wire.length + 256 := by
  have hfits := h.held.fits
  have hle := h.held.le
  rw [h.length_taken] at hfits hle
  by_contra hfull
  refine h.ne_of_held h.ci_lt hfree (j := f.wire.length) (Nat.le_refl _) (by omega) ?_
  rw [h.ci, show f.handed = f.wire.length + 256 by omega, Nat.add_mod_right]

/-- The frame is handed to the hardware. -/
theorem Ok.pfnSendFrame (h : Ok block f (some [])) : Ok block f.pfnSendFrame none := by
  obtain ⟨hfifo, hfree, hframe⟩ := h.work
  have hci := h.ci_lt
  have hroom := h.room hfree
  rw [List.flatten_nil, List.append_nil] at hframe
  have hlt : f.handed < f.frames.length := (List.getElem?_eq_some_iff.mp hframe).1
  have hbytes : f.tx.txBytes ≤ 1536 := by
    have hlen := h.small _ (List.mem_of_getElem? hframe)
    rwa [Memory.length_bytes] at hlen
  have hflags : f.pfnSendFrame.tx.txbd = Function.update f.tx.txbd f.tx.txCi
      { f.tx.txbd f.tx.txCi with flags := sentFlags (f.tx.txbd f.tx.txCi).flags f.tx.txBytes } :=
        rfl
  refine ⟨fun d hd => ?_, fun d hd => ?_, fun d hd => ?_, ?_, h.sent, h.small, ?_, h.next, ?_, rfl,
    hfifo⟩
  · rw [hflags]
    by_cases hdc : d = f.tx.txCi
    · rw [hdc, Function.update_self]
      exact h.base _ hci
    · rw [Function.update_of_ne hdc]
      exact h.base d hd
  · rw [hflags]
    by_cases hdc : d = f.tx.txCi
    · rw [hdc, Function.update_self]
      exact (sentFlags_wrap _ _).trans (h.wrap _ hci)
    · rw [Function.update_of_ne hdc]
      exact h.wrap d hd
  · rw [hflags]
    change _ ↔ ∃ j, f.wire.length ≤ j ∧ j < f.handed + 1 ∧ j % 256 = d
    by_cases hdc : d = f.tx.txCi
    · rw [hdc, Function.update_self]
      have hle := h.held.le
      rw [h.length_taken] at hle
      exact iff_of_true (sentFlags_used _ _) ⟨f.handed, hle, Nat.lt_succ_self _, h.ci.symm⟩
    · rw [Function.update_of_ne hdc, h.owned d hd]
      constructor
      · rintro ⟨j, hlo, hhi, hj⟩
        exact ⟨j, hlo, Nat.lt_succ_of_lt hhi, hj⟩
      · rintro ⟨j, hlo, hhi, hj⟩
        rcases Nat.lt_succ_iff_lt_or_eq.mp hhi with hhi | rfl
        · exact ⟨j, hlo, hhi, hj⟩
        · exact absurd (hj.symm.trans h.ci.symm) hdc
  · have hpush :=
      h.held.push (by rwa [h.length_taken]) (f.tx.txbufs.bytes (1536 * f.tx.txCi) f.tx.txBytes)
    rw [h.length_taken, ← h.ci] at hpush
    change Window 256 _ (f.frames.take (f.handed + 1)) _
    rw [List.take_add_one, hframe]
    refine hpush.congr fun d hd => ?_
    by_cases hdc : d = f.tx.txCi
    · subst hdc
      rw [Function.update_self, slot, hflags, Function.update_self]
      simp only [sentFlags_length _ (show f.tx.txBytes < 2 ^ 14 by omega)]
      rfl
    · rw [Function.update_of_ne hdc, slot, hflags, Function.update_of_ne hdc]
      rfl
  · rw [length_frames] at hlt
    exact hlt
  · change (if f.tx.txCi + 1 = 256 then 0 else f.tx.txCi + 1) = (f.handed + 1) % 256
    have := h.ci
    split_ifs <;> omega

/-- The hardware sends the oldest frame. -/
theorem Ok.transmit (h : Ok block f work) : Ok block (f.transmit block) work := by
  have hhw : f.hw < 256 := by
    rw [h.next]
    exact Nat.mod_lt _ (by decide)
  unfold SendFlow.transmit
  by_cases hheld : (f.tx.txbd f.hw).flags &&& txBdUsed = 0
  swap
  · simp only [if_neg hheld]
    exact h
  · simp only [if_pos hheld]
    have hused : (f.tx.txbd f.hw).flags.testBit 31 = false := by
      have := mt land_used.mpr (not_not.mpr hheld)
      simpa using this
    obtain ⟨j, hlo, hhi, -⟩ := (h.owned f.hw hhw).mp hused
    have hlt : f.wire.length < f.handed := hlo.trans_lt hhi
    have hfront := h.held.front (by rwa [h.length_taken])
    rw [← h.next, List.getElem?_take_of_lt hlt] at hfront
    obtain ⟨h31, h30⟩ := flags_done (f.tx.txbd f.hw).flags
    have hslot : f.tx.txbufs.bytes ((f.tx.txbd f.hw).address - block.phys)
        ((f.tx.txbd f.hw).flags &&& txBdLength) =
        f.slot f.hw := by
      rw [h.base _ hhw, Nat.add_sub_cancel_left]
      rfl
    rw [hslot]
    refine ⟨fun d hd => ?_, fun d hd => ?_, fun d hd => ?_, ?_, ?_, h.small, h.once, ?_, h.ci, ?_⟩
    · change (Function.update f.tx.txbd f.hw _ d).address = _
      by_cases hdw : d = f.hw
      · rw [hdw, Function.update_self]
        exact h.base _ hhw
      · rw [Function.update_of_ne hdw]
        exact h.base d hd
    · change (Function.update f.tx.txbd f.hw _ d).flags.testBit 30 = _
      by_cases hdw : d = f.hw
      · rw [hdw, Function.update_self]
        exact h30.trans (h.wrap _ hhw)
      · rw [Function.update_of_ne hdw]
        exact h.wrap d hd
    · change (Function.update f.tx.txbd f.hw _ d).flags.testBit 31 = false ↔
        ∃ j, (f.wire ++ [f.slot f.hw]).length ≤ j ∧ j < f.handed ∧ j % 256 = d
      rw [List.length_append, List.length_singleton]
      by_cases hdw : d = f.hw
      · rw [hdw, Function.update_self]
        simp only [h31]
        refine iff_of_false (by decide) ?_
        rintro ⟨k, hlo, hhi, hk⟩
        have hfits := h.held.fits
        rw [h.length_taken] at hfits
        exact absurd (h.next.symm.trans hk.symm) (mod_ne_of_lt hlo (by omega))
      · rw [Function.update_of_ne hdw, h.owned d hd]
        constructor
        · rintro ⟨k, hlo, hhi, hk⟩
          rcases Nat.lt_or_eq_of_le hlo with hlo | rfl
          · exact ⟨k, hlo, hhi, hk⟩
          · exact absurd (hk.symm.trans h.next.symm) hdw
        · rintro ⟨k, hlo, hhi, hk⟩
          exact ⟨k, Nat.le_of_succ_le hlo, hhi, hk⟩
    · rw [List.length_append, List.length_singleton]
      refine (h.held.pop (by rwa [h.length_taken])).congr_held fun k hlo hk => ?_
      rw [h.length_taken] at hk
      have hfits := h.held.fits
      rw [h.length_taken] at hfits
      have hne : k % 256 ≠ f.hw := by
        rw [h.next]
        exact Ne.symm (mod_ne_of_lt hlo (by omega))
      simp only [slot, Function.update_of_ne hne]
    · change f.wire ++ [f.slot f.hw] = f.frames.take (f.wire ++ [f.slot f.hw]).length
      rw [List.length_append, List.length_singleton, List.take_add_one, hfront, ← h.sent]
      rfl
    · change (if _ then 0 else f.hw + 1) = (f.wire ++ [f.slot f.hw]).length % 256
      rw [List.length_append, List.length_singleton]
      have hwrap : (f.tx.txbd f.hw).flags &&& txBdWrap ≠ 0 ↔ f.hw = 255 := by
        rw [land_txWrap, h.wrap _ hhw, decide_eq_true_iff]
      have hnext := h.next
      by_cases hlast : f.hw = 255
      · rw [if_pos (hwrap.mpr hlast)]
        omega
      · rw [if_neg (mt hwrap.mp hlast)]
        omega
    · cases work with
      | none => exact h.work
      | some rest =>
        obtain ⟨hfifo, hfree, hframe⟩ := h.work
        refine ⟨hfifo, ?_, hframe⟩
        change (Function.update f.tx.txbd f.hw _ f.tx.txCi).flags.testBit 31 = true
        by_cases hcw : f.tx.txCi = f.hw
        · rw [hcw, Function.update_self]
          exact h31
        · rw [Function.update_of_ne hcw]
          exact hfree

/-! ## Frames that are accepted

A frame is accepted at the end of the stream, and is either begun at once or waits in the FIFO. -/

/-- One more frame is accepted. -/
theorem Ok.accept (h : Ok block f work) (hp : p.flatten.length ≤ 1536) {fifo : List Pbuf}
    {work' : Option Pbuf} (hwork : Work { f with fifo := fifo, accepted := f.accepted ++ [p] }
      work') :
    Ok block { f with fifo := fifo, accepted := f.accepted ++ [p] } work' := by
  have hframes : frames { f with fifo := fifo, accepted := f.accepted ++ [p] } =
    f.frames ++ [p.flatten] :=
    List.map_append
  have htake {n : ℕ} (hn : n ≤ f.accepted.length) : (f.frames ++ [p.flatten]).take n =
      f.frames.take n :=
    List.take_append_of_le_length (by rwa [length_frames])
  have hle := h.held.le
  rw [h.length_taken] at hle
  refine ⟨h.base, h.wrap, h.owned, ?_, ?_, ?_, ?_, h.next, h.ci, hwork⟩
  · exact h.held_congr (by rw [hframes, htake h.once]) fun _ _ _ => rfl
  · rw [hframes]
    change f.wire = (f.frames ++ [p.flatten]).take f.wire.length
    rw [htake (hle.trans h.once)]
    exact h.sent
  · rw [hframes]
    intro frame hframe
    rcases List.mem_append.mp hframe with hframe | hframe
    · exact h.small frame hframe
    · rw [List.mem_singleton.mp hframe]
      exact hp
  · rw [List.length_append]
    exact h.once.trans (Nat.le_add_right _ _)

/-- It is put into the FIFO. -/
theorem Ok.queue (h : Ok block f work) (hp : p.flatten.length ≤ 1536) :
    Ok block { f with fifo := f.fifo ++ [p], accepted := f.accepted ++ [p] } work := by
  refine h.accept hp ?_
  cases work with
  | none =>
    obtain ⟨hbytes, hfifo⟩ := h.work
    refine ⟨hbytes, ?_⟩
    change f.fifo ++ [p] = (f.accepted ++ [p]).drop f.handed
    rw [List.drop_append_of_le_length h.once, hfifo]
  | some rest =>
    obtain ⟨hfifo, hfree, hframe⟩ := h.work
    have hlt := (List.getElem?_eq_some_iff.mp hframe).1
    have hle : f.handed + 1 ≤ f.accepted.length := by rwa [length_frames] at hlt
    refine ⟨?_, hfree, ?_⟩
    · change f.fifo ++ [p] = (f.accepted ++ [p]).drop (f.handed + 1)
      rw [List.drop_append_of_le_length hle, hfifo]
    · change ((f.accepted ++ [p]).map List.flatten)[f.handed]? = _
      rw [List.map_append]
      exact (List.getElem?_append_left hlt).trans hframe

/-- It is sent at once. -/
theorem Ok.start (h : Ok block f none) (hp : p.flatten.length ≤ 1536) (hempty : f.fifo = [])
    (hfree : (f.tx.txbd f.tx.txCi).flags.testBit 31 = true) :
    Ok block { f with accepted := f.accepted ++ [p] } (some p) := by
  obtain ⟨hbytes, hfifo⟩ := h.work
  have hall : f.handed = f.accepted.length := by
    rw [hempty] at hfifo
    exact Nat.le_antisymm h.once (List.drop_eq_nil_iff.mp hfifo.symm)
  have hwork : Work { f with fifo := f.fifo, accepted := f.accepted ++ [p] } (some p) := by
    refine ⟨?_, hfree, ?_⟩
    · change f.fifo = (f.accepted ++ [p]).drop (f.handed + 1)
      rw [hempty, hall, List.drop_eq_nil_iff.mpr]
      rw [List.length_append, List.length_singleton]
    · change ((f.accepted ++ [p]).map List.flatten)[f.handed]? =
        some (f.tx.txbufs.bytes (1536 * f.tx.txCi) f.tx.txBytes ++ p.flatten)
      rw [hbytes, hall, List.map_append, List.getElem?_append_right
        (by rw [List.length_map]), List.length_map, Nat.sub_self]
      rfl
  exact h.accept hp hwork

/-- The oldest frame of the FIFO is taken out. -/
theorem Ok.pop (h : Ok block f none) {fifo : List Pbuf} (hcons : f.fifo = p :: fifo)
    (hfree : (f.tx.txbd f.tx.txCi).flags.testBit 31 = true) :
    Ok block { f with fifo := fifo } (some p) := by
  obtain ⟨hbytes, hfifo⟩ := h.work
  rw [hcons] at hfifo
  refine ⟨h.base, h.wrap, h.owned, h.held, h.sent, h.small, h.once, h.next, h.ci, ?_, hfree, ?_⟩
  · change fifo = f.accepted.drop (f.handed + 1)
    rw [← List.tail_drop, ← hfifo]
    rfl
  · change (f.accepted.map List.flatten)[f.handed]? =
      some (f.tx.txbufs.bytes (1536 * f.tx.txCi) f.tx.txBytes ++ p.flatten)
    have hhead : f.accepted[f.handed]? = some p := by
      rw [← List.head?_drop, ← hfifo]
      rfl
    rw [List.getElem?_map, hhead, hbytes]
    rfl

end SendFlow

/-! ## The threads

Two threads use the same operations. What each of them knows at a place in its code is in the
invariant, as far as the other one cannot change it. -/

namespace SendState

variable {block : TxBlock} {s : SendState}

/-- The frame under construction -/
def work (s : SendState) : Option Pbuf := s.stack.frame.or s.task.frame

/-- What holds between the steps. -/
structure Ok (block : TxBlock) (s : SendState) : Prop where
  /-- the descriptors are as they should be -/
  flow : s.flow.Ok block s.work
  /-- only one of the two has a frame in hand -/
  alone : s.stack.frame = none ∨ s.task.frame = none
  /-- the mutex belongs to the one that has taken it -/
  stack : s.owner = some .stack ↔ s.stack.locked = true
  task : s.owner = some .task ↔ s.task.locked = true
  /-- each frame fits into a buffer -/
  asked : ∀ p, s.stack.asked = some p → p.flatten.length ≤ 1536

theorem Ok.init : Ok block (init block) :=
  ⟨SendFlow.Ok.init, .inl rfl, iff_of_false nofun nofun, iff_of_false nofun nofun, nofun⟩

/-- At most one of the two sends: the task does. -/
theorem work_eq_task (h : s.stack.frame = none) : s.work = s.task.frame := by
  rw [work, h, Option.none_or]

theorem work_eq_stack (h : s.task.frame = none) : s.work = s.stack.frame := by
  rw [work, h, Option.or_none]

/-- While the task reads the FIFO, the stack does not send. -/
theorem Ok.frame_eq_none (h : Ok block s) (hlocked : s.task.locked = true) :
    s.stack.frame = none := by
  have hnot : s.stack.locked ≠ true := by
    intro hstack
    exact absurd ((h.stack.mpr hstack).symm.trans (h.task.mpr hlocked)) nofun
  cases hs : s.stack with
  | transmit rest =>
    rw [hs] at hnot
    exact absurd rfl hnot
  | _ => rfl

/-- A careful step of the stack keeps the invariant. -/
theorem Ok.lwipOutput (h : Ok block s) (hcare : s.Careful .stack) : Ok block s.lwipOutput := by
  have ok := h
  obtain ⟨hflow, halone, hstack, htask, hasked⟩ := h
  obtain ⟨flow, stack, task, owner⟩ := s
  cases stack with
  | out => exact ok
  | protect p =>
    cases owner with
    | some _ => exact ok
    | none => exact ⟨hflow, .inl rfl, iff_of_true rfl rfl, iff_of_false nofun (mt htask.mpr nofun),
      hasked⟩
  | ready p =>
    obtain ⟨hready, hflow'⟩ := hflow.ready
    simp only [SendState.lwipOutput]
    split_ifs with hempty hfree
    · have hnil := List.isEmpty_iff.mp hempty
      have hframe : task.frame = none := hcare p rfl hnil hfree
      have hnone : flow.pfnTxFifoReady.2.Ok block none := hframe ▸ hflow'
      have hstart := hnone.start (hasked p rfl) hnil (SendFlow.ready_free hfree)
      exact ⟨hstart, .inr hframe, hstack, htask, nofun⟩
    · exact ⟨hflow', .inl rfl, hstack, htask, hasked⟩
    · exact ⟨hflow, .inl rfl, hstack, htask, hasked⟩
  | transmit rest =>
    have hframe : task.frame = none := halone.resolve_left nofun
    cases rest with
    | nil =>
      refine ⟨?_, .inl rfl, hstack, htask, nofun⟩
      change flow.pfnSendFrame.Ok block task.frame
      rw [hframe]
      exact hflow.pfnSendFrame
    | cons payload rest => exact ⟨hflow.pfnWrite, .inr hframe, hstack, htask, nofun⟩
  | queue p =>
    simp only [SendState.lwipOutput]
    split_ifs
    · exact ⟨hflow.queue (hasked p rfl), .inl rfl, hstack, htask, nofun⟩
    · exact ok
  | unprotect =>
    obtain rfl := hstack.mpr rfl
    exact ⟨hflow, .inl rfl, iff_of_false nofun nofun, iff_of_false nofun (mt htask.mpr nofun),
      nofun⟩

theorem frame_after (last : Bool) : (SendTask.after last).frame = none := by
  cases last <;> rfl

theorem locked_after (last : Bool) : (SendTask.after last).locked = false := by
  cases last <;> rfl

/-- The task does not use the transmit path any more. -/
theorem Ok.after (h : Ok block s) {flow : SendFlow} (hflow : flow.Ok block s.stack.frame)
    {owner : Option SendThread} (hstack : owner = some .stack ↔ s.stack.locked = true)
    (htask : owner ≠ some .task)
    (last : Bool) : Ok block { s with flow := flow, owner := owner, task := .after last } := by
  refine ⟨?_, .inr (frame_after last), hstack, iff_of_false htask ?_, h.asked⟩
  · rw [work_eq_stack (frame_after last)]
    exact hflow
  · rw [locked_after]
    nofun

theorem Ok.btLwipProcess (h : Ok block s) {found : Bool} (hcare : s.Careful (.task found)) :
    Ok block (s.btLwipProcess found) := by
  have ok := h
  obtain ⟨hflow, halone, hstack, htask, hasked⟩ := h
  obtain ⟨flow, stack, task, owner⟩ := s
  cases task with
  | out => exact ok
  | receive => exact ⟨hflow, .inr rfl, hstack, htask, hasked⟩
  | ready last =>
    rw [work_eq_stack rfl] at hflow
    have hflow' := hflow.ready.2
    simp only [SendState.btLwipProcess]
    split_ifs
    · refine ⟨?_, .inr rfl, hstack, htask, hasked⟩
      rw [work_eq_stack rfl]
      exact hflow'
    · exact ok.after hflow' hstack (mt htask.mp nofun) last
  | protect last =>
    cases owner with
    | some _ => exact ok
    | none => exact ⟨hflow, .inr rfl, iff_of_false nofun (mt hstack.mpr nofun), iff_of_true rfl rfl,
      hasked⟩
  | read last =>
    have hframe : stack.frame = none := ok.frame_eq_none rfl
    have hnone : flow.Ok block none := by
      rw [work_eq_task hframe] at hflow
      exact hflow
    cases hfifo : flow.fifo with
    | nil =>
      simp only [SendState.btLwipProcess, hfifo]
      exact ⟨hflow, .inr rfl, hstack, htask, hasked⟩
    | cons p fifo =>
      have hfree := hcare last rfl (by simp [hfifo])
      have hpop := hnone.pop hfifo (hnone.ready.1.mp hfree)
      simp only [SendState.btLwipProcess, hfifo]
      refine ⟨?_, .inl hframe, hstack, htask, hasked⟩
      rw [work_eq_task hframe]
      exact hpop
  | unprotect last p =>
    have hframe : stack.frame = none := ok.frame_eq_none rfl
    obtain rfl := htask.mpr rfl
    have hstack' : none = some SendThread.stack ↔ stack.locked = true :=
      iff_of_false nofun (mt hstack.mpr nofun)
    rw [work_eq_task hframe] at hflow
    cases p with
    | none => exact ok.after (hframe ▸ hflow) hstack' nofun last
    | some p =>
      refine ⟨?_, .inl hframe, hstack', iff_of_false nofun nofun, hasked⟩
      rw [work_eq_task hframe]
      exact hflow
  | transmit last rest =>
    have hframe : stack.frame = none := halone.resolve_right nofun
    rw [work_eq_task hframe] at hflow
    cases rest with
    | nil =>
      have hsent : flow.pfnSendFrame.Ok block stack.frame := by
        rw [hframe]
        exact hflow.pfnSendFrame
      exact ok.after hsent hstack (mt htask.mp nofun) last
    | cons payload rest =>
      refine ⟨?_, .inl hframe, hstack, htask, hasked⟩
      rw [work_eq_task hframe]
      exact hflow.pfnWrite

/-! ## The results

The invariant says it with plain numbers, and what is promised says it with the flags of the
descriptors. -/

theorem Ok.step (h : Ok block s) {a : SendAction} (hcare : s.Careful a) :
    Ok block (s.step block a) := by
  cases a with
  | lwipOutput p =>
    have ok := h
    obtain ⟨hflow, halone, hstack, htask, hasked⟩ := h
    obtain ⟨flow, stack, task, owner⟩ := s
    cases stack with
    | out =>
      refine ⟨hflow, .inl rfl, hstack, htask, fun q hq => ?_⟩
      obtain rfl := Option.some.inj hq
      exact hcare
    | _ => exact ok
  | process =>
    have ok := h
    obtain ⟨hflow, halone, hstack, htask, hasked⟩ := h
    obtain ⟨flow, stack, task, owner⟩ := s
    cases task with
    | out => exact ⟨hflow, .inr rfl, hstack, htask, hasked⟩
    | _ => exact ok
  | stack => exact h.lwipOutput hcare
  | task found => exact h.btLwipProcess hcare
  | transmit => exact ⟨h.flow.transmit, h.alone, h.stack, h.task, h.asked⟩

/-- The invariant implies that nothing is lost, doubled or out of order, and nothing is written
outside its buffer. -/
theorem Ok.intact (h : Ok block s) : s.Intact where
  inside payload rest hframe := by
    have hwork : s.work = some (payload :: rest) := by
      rcases hframe with hframe | hframe
      · rw [work_eq_stack (h.alone.resolve_left (by rw [hframe]; nofun)), hframe]
      · rw [work_eq_task (h.alone.resolve_right (by rw [hframe]; nofun)), hframe]
    have hflow := h.flow
    rw [hwork] at hflow
    obtain ⟨-, hfree, hframe⟩ := hflow.work
    have hsmall := hflow.small _ (List.mem_of_getElem? hframe)
    rw [List.flatten_cons, List.length_append, List.length_append, Memory.length_bytes] at hsmall
    exact ⟨by unfold txBufSize; omega, land_used.mpr hfree⟩
  sent := h.flow.sent
  once := h.flow.once
  owned d hd := by
    rw [← not_ne_iff, land_used, Bool.not_eq_true]
    exact h.flow.owned d hd
  held := h.flow.held

/-- As long as every frame fits into a buffer, the stack does not start to send while the task has a
frame, and the task does not take one when the descriptor is no longer free, frames are sent as they
were accepted. -/
theorem transmits_intact (run : Run block Careful s) : s.Intact := by
  have ok : Ok block s := by
    induction run with
    | nil => exact Ok.init
    | cons _ hcare ih => exact ih.step hcare
  exact ok.intact

/-- Some buffers -/
def lowBlock : TxBlock := ⟨0x100000, by decide⟩

/-- One frame of two pieces is sent. -/
theorem transmits_intact_one :
    let s := [.lwipOutput [[1, 2], [3]], .stack, .stack, .stack, .stack, .stack, .transmit].foldl
      (step lowBlock) (init lowBlock)
    s.Intact ∧ s.flow.wire = [[1, 2, 3]] := by
  refine ⟨transmits_intact (?_ : Run lowBlock Careful _), by decide⟩
  refine .cons (a := .transmit) (.cons (a := .stack) (.cons (a := .stack) (.cons (a := .stack)
    (.cons (a := .stack) (.cons (a := .stack)
      (.cons (a := .lwipOutput [[1, 2], [3]]) .nil ?_) ?_) ?_) ?_) ?_) ?_) trivial
  · exact (by decide : 3 ≤ 1536)
  · exact nofun
  · exact fun _ _ _ _ => rfl
  · exact nofun
  · exact nofun
  · exact nofun

/-- A frame of the size that the interface allows does not fit into a buffer. -/
theorem transmits_past_buffer :
    let s := [.lwipOutput [List.replicate 1550 0], .stack, .stack].foldl (step lowBlock)
      (init lowBlock)
    Run lowBlock Legal s ∧ ¬s.Intact := by
  obtain ⟨payload, hpayload⟩ : ∃ payload : List UInt8, payload = List.replicate 1550 0 := ⟨_, rfl⟩
  have hlength : payload.length = 1550 := hpayload ▸ List.length_replicate
  rw [← hpayload]
  have hlegal : Legal (init lowBlock) (.lwipOutput [payload]) := by
    change [payload].flatten.length ≤ 1550
    rw [List.flatten_singleton, hlength]
  have run : Run lowBlock Legal
      (lwipOutput ⟨.init lowBlock, .ready [payload], .out, some .stack⟩) :=
    .cons (a := .stack) (.cons (a := .stack) (.cons (a := .lwipOutput [payload]) .nil hlegal)
    trivial) trivial
  refine ⟨run, fun hintact => ?_⟩
  change (lwipOutput ⟨.init lowBlock, .ready [payload], .out, some .stack⟩).Intact at hintact
  have hready : (SendFlow.init lowBlock).pfnTxFifoReady.1 = true := by decide
  have hstep : lwipOutput ⟨.init lowBlock, .ready [payload], .out, some .stack⟩ =
      ⟨{ (SendFlow.init lowBlock).pfnTxFifoReady.2 with accepted := [[payload]] },
        .transmit [payload], .out, some .stack⟩ := by
    simp only [lwipOutput, hready, if_true]
    rfl
  rw [hstep] at hintact
  have hinside := (hintact.inside payload [] (.inl rfl)).1
  have hbytes : (SendFlow.init lowBlock).pfnTxFifoReady.2.tx.txBytes = 0 := by decide
  simp only [hbytes, Nat.zero_add] at hinside
  rw [hlength] at hinside
  exact absurd hinside (by decide)

end SendState

end BitThunder
