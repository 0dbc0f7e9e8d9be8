import BitThunder.Collections.Fifo
import BitThunder.Mm.Defs

/-!
# FIFOs without waiting

The operations of `lib/src/collections/bt_fifo.c` that are not to wait: `BT_FifoWrite` and
`BT_FifoRead` with `BT_FIFO_NONBLOCKING`, and the variants for interrupts, which look at the flags
the FIFO was created with. Whether there is room is asked of the handle of the queue, which is not
that of a FIFO and so never full; what the queue says to an interrupt is not looked at.

`fifo_nonblocking_iff`: a read is right, the others are where there is enough room or enough
elements.

The loops ask the handle of the queue whether it is full, and it is the handle of a queue, not of a
FIFO, so that the answer is always no. A task is blocked then in the middle of a call that was not
to wait, and an interrupt counts elements that the queue has dropped. Where there is room for all
that is to be written, or as many elements as are to be read, the question does not matter; the rest
is about the result, a count that is returned as an `int`.
-/

namespace BitThunder

namespace Fifo

/-- `BT_QueueSendFromISR`: a message for which there is no room is dropped. -/
def queueSendFromISR (f : Fifo) (msg : List UInt8) : Fifo :=
  if f.messages.length < f.ulElements then { f with messages := f.messages ++ [msg] } else f

/-- `BT_QueueReceiveFromISR`: from an empty queue nothing is received. -/
def queueReceiveFromISR (f : Fifo) (buf : Memory) : Fifo × Memory :=
  match f.messages with
  | [] => (f, buf)
  | msg :: msgs => ({ f with messages := msgs },
    buf.overlay 0 f.ulElementWidth (Memory.ofMessage msg))

/-- The loop of `BT_FifoWriteFromISR`; `ulFlags` is whether the FIFO was created with
`BT_FIFO_NONBLOCKING`. -/
def writeLoopFromISR (ulFlags : Bool) (pData : Memory) : ℕ → ℕ → Fifo → ℕ × Fifo
  | 0, ulWritten, f => (ulWritten, f)
  | k + 1, ulWritten, f =>
    if ulFlags && f.btFifoIsFull .queue then (ulWritten, f)
    else writeLoopFromISR ulFlags pData k (ulWritten + 1)
    (f.queueSendFromISR (pData.slot f.ulElementWidth ulWritten))

/-- The loop of `BT_FifoReadFromISR` -/
def readLoopFromISR (ulFlags : Bool) : ℕ → ℕ → Fifo → Memory → ℕ × Fifo × Memory
  | 0, ulRead, f, pData => (ulRead, f, pData)
  | k + 1, ulRead, f, pData =>
    if f.btFifoIsEmpty .fifo && ulFlags then (ulRead, f, pData)
    else
      let r := f.queueReceiveFromISR pData
      readLoopFromISR ulFlags k (ulRead + 1) r.1 r.2

/-- `BT_FifoWriteFromISR` -/
def btFifoWriteFromISR (f : Fifo) (ulFlags : Bool) (ulElements : ℕ) (pData : Memory) : ℕ × Fifo :=
  writeLoopFromISR ulFlags pData ulElements 0 f

/-- `BT_FifoReadFromISR` -/
def btFifoReadFromISR (f : Fifo) (ulFlags : Bool) (ulElements : ℕ) (pData : Memory) :
    ℕ × Fifo × Memory :=
  readLoopFromISR ulFlags ulElements 0 f pData

/-- How many elements there is room for -/
def free (f : Fifo) : ℕ := f.ulElements - f.messages.length

/-! ## What is asked

Each of the four operations is asked to do what can be done at once and to tell how much that
was. -/

/-- `BT_FifoWrite` stores the elements there is room for, in order, and returns their number as a
`BT_s32`. -/
def WritesFree (f : Fifo) (n : UInt32) : Prop :=
  ∀ pData, ∃ r f', f.btFifoWrite n.toNat pData true = some (r, f') ∧ toS32 r = min n.toNat f.free ∧
    f'.messages = f.messages ++ (List.range (min n.toNat f.free)).map (pData.slot f.ulElementWidth)

/-- `BT_FifoRead` removes the elements that are there, and returns their number. -/
def ReadsFilled (f : Fifo) (n : UInt32) : Prop :=
  ∀ pData, ∃ r f' pData', f.btFifoRead n.toNat pData true = some (r, f', pData') ∧
    toS32 r = min n.toNat f.messages.length ∧ f'.messages =
    f.messages.drop (min n.toNat f.messages.length)

/-- `BT_FifoWriteFromISR` returns by how many elements there are more. -/
def WritesFromISR (f : Fifo) (ulFlags : Bool) (n : UInt32) : Prop :=
  ∀ pData, ∃ r f', f.btFifoWriteFromISR ulFlags n.toNat pData = (r, f') ∧
    toS32 r = f'.messages.length - f.messages.length

/-- `BT_FifoReadFromISR` returns by how many elements there are less. -/
def ReadsFromISR (f : Fifo) (ulFlags : Bool) (n : UInt32) : Prop :=
  ∀ pData, ∃ r f' pData', f.btFifoReadFromISR ulFlags n.toNat pData = (r, f', pData') ∧
    toS32 r = f.messages.length - f'.messages.length

/-! ## The loops

A full queue blocks a task and drops the message of an interrupt. The two cases are computed
apart. -/

variable {f : Fifo} {pData : Memory} {ulFlags : Bool} {n k i : ℕ}

/-- A word read as an `int` is the number it is meant to be exactly if its top bit is clear. -/
theorem toS32_eq_iff {r m : ℕ} (hr : r < 2 ^ 32) : toS32 r = m ↔ r = m ∧ m < 2 ^ 31 := by
  unfold toS32
  split
  · constructor
    · intro h
      have : r = m := by exact_mod_cast h
      omega
    · rintro ⟨rfl, -⟩
      rfl
  · constructor
    · intro h
      omega
    · rintro ⟨rfl, h⟩
      omega

/-- With room for all elements the write sends them, with less it is blocked. -/
theorem writeLoop_room (h : f.messages.length + k ≤ f.ulElements) :
    ∃ f', writeLoop true pData k i f = some (i + k, f') := by
  induction k generalizing i f with
  | zero => exact ⟨f, rfl⟩
  | succ k ih =>
    have hsend : f.queueSend (pData.slot f.ulElementWidth i) =
        some { f with messages := f.messages ++ [pData.slot f.ulElementWidth i] } :=
          if_pos (by omega)
    obtain ⟨f', hrest⟩ := ih (i := i + 1)
      (f := { f with messages := f.messages ++ [pData.slot f.ulElementWidth i] }) (by simp; omega)
    refine ⟨f', ?_⟩
    rw [writeLoop, show f.btFifoIsFull .queue = false from rfl, Bool.and_false,
      if_neg Bool.false_ne_true, hsend]
    refine hrest.trans ?_
    rw [Nat.add_assoc, Nat.add_comm 1]

/-- A task that writes more than there is room for is blocked in the middle of it. -/
theorem writeLoop_blocked (h : f.ulElements < f.messages.length + k) (hk : k ≠ 0) :
    writeLoop true pData k i f = none := by
  induction k generalizing i f with
  | zero => exact absurd rfl hk
  | succ k ih =>
    rw [writeLoop, show f.btFifoIsFull .queue = false from rfl, Bool.and_false,
      if_neg Bool.false_ne_true]
    by_cases hroom : f.messages.length < f.ulElements
    · rw [queueSend, if_pos hroom]
      exact ih (by simp; omega) (by omega)
    · rw [queueSend, if_neg hroom]
      rfl

/-- For an interrupt every element counts as written. -/
theorem writeLoopFromISR_eq (ulFlags : Bool) (pData : Memory) (k i : ℕ) (f : Fifo) :
    ∃ f', writeLoopFromISR ulFlags pData k i f = (i + k, f') ∧ f'.ulElements = f.ulElements ∧
    f'.messages.length = f.messages.length + min k f.free := by
  induction k generalizing i f with
  | zero => exact ⟨f, rfl, rfl, by simp⟩
  | succ k ih =>
    obtain ⟨f', hrest, hsize, hlen⟩ :=
      ih (i + 1) (f.queueSendFromISR (pData.slot f.ulElementWidth i))
    refine ⟨f', ?_, ?_, ?_⟩
    · rw [writeLoopFromISR, show f.btFifoIsFull .queue = false from rfl, Bool.and_false,
        if_neg Bool.false_ne_true, hrest, Nat.add_assoc, Nat.add_comm 1]
    · rw [hsize, queueSendFromISR]
      split <;> rfl
    · rw [hlen]
      unfold free queueSendFromISR
      split
      · simp only [List.length_append, List.length_singleton]
        omega
      · omega

/-- For an interrupt every element counts as read, unless the FIFO was created to be asked. -/
theorem readLoopFromISR_eq (ulFlags : Bool) (k i : ℕ) (f : Fifo) (pData : Memory) :
    ∃ f' pData', readLoopFromISR ulFlags k i f pData =
    (i + (if ulFlags then min k f.messages.length else k), f', pData') ∧
      f'.messages = f.messages.drop k := by
  induction k generalizing i f pData with
  | zero => exact ⟨f, pData, by cases ulFlags <;> simp [readLoopFromISR], rfl⟩
  | succ k ih =>
    cases hmsgs : f.messages with
    | nil =>
      have hempty : f.btFifoIsEmpty .fifo = true := by simp [btFifoIsEmpty, hmsgs]
      cases ulFlags with
      | true =>
        refine ⟨f, pData, ?_, hmsgs⟩
        rw [readLoopFromISR, hempty, if_pos (by decide)]
        simp
      | false =>
        obtain ⟨f', pData', hrest, hdrop⟩ := ih (i + 1) f pData
        refine ⟨f', pData', ?_, ?_⟩
        · rw [readLoopFromISR, hempty, if_neg (by decide), queueReceiveFromISR, hmsgs]
          refine hrest.trans ?_
          simp [Nat.add_assoc, Nat.add_comm 1]
        · rw [hdrop, hmsgs, List.drop_nil, List.drop_nil]
    | cons msg msgs =>
      have hempty : f.btFifoIsEmpty .fifo = false := by simp [btFifoIsEmpty, hmsgs]
      obtain ⟨f', pData', hrest, hdrop⟩ := ih (i + 1) { f with messages := msgs }
        (pData.overlay 0 f.ulElementWidth (Memory.ofMessage msg))
      refine ⟨f', pData', ?_, hdrop⟩
      rw [readLoopFromISR, hempty, Bool.false_and, if_neg Bool.false_ne_true, queueReceiveFromISR,
        hmsgs]
      refine hrest.trans ?_
      cases ulFlags with
      | true => simp only [if_true, List.length_cons]; congr 1; omega
      | false => simp [Nat.add_assoc, Nat.add_comm 1]

/-! ## When each of them is right

One equivalence for each operation, in the number of elements and the room at its beginning. -/

/-- Without room for all elements the write is blocked. -/
theorem writesFree_iff (f : Fifo) (n : UInt32) :
    f.WritesFree n ↔ n.toNat ≤ f.free ∧ n.toNat < 2 ^ 31 := by
  constructor
  · intro h
    obtain ⟨r, f', hrun, hret, -⟩ := h fun _ => 0
    have hroom : n.toNat ≤ f.free := by
      by_contra hfull
      unfold free at hfull
      have hnone : f.btFifoWrite n.toNat (fun _ => 0) true = none :=
        writeLoop_blocked (by omega) (by omega)
      exact nomatch hnone.symm.trans hrun
    refine ⟨hroom, ?_⟩
    obtain ⟨f'', hall⟩ : ∃ f'', f.btFifoWrite n.toNat (fun _ => 0) true =
        some (0 + n.toNat, f'') := by
      by_cases h0 : n.toNat = 0
      · exact ⟨f, by rw [h0]; rfl⟩
      · exact writeLoop_room (by unfold free at hroom; omega)
    obtain ⟨rfl, -⟩ := Prod.mk.inj (Option.some.inj (hall.symm.trans hrun))
    rw [min_eq_left hroom, Nat.zero_add] at hret
    exact ((toS32_eq_iff n.toNat_lt).mp hret).2
  · rintro ⟨hroom, hsmall⟩ pData
    obtain ⟨f', hrun⟩ : ∃ f', f.btFifoWrite n.toNat pData true = some (0 + n.toNat, f') := by
      by_cases h0 : n.toNat = 0
      · exact ⟨f, by rw [h0]; rfl⟩
      · exact writeLoop_room (by unfold free at hroom; omega)
    rw [Nat.zero_add] at hrun
    obtain ⟨-, hf'⟩ := writeLoop_eq hrun
    refine ⟨n.toNat, f', hrun, ?_, ?_⟩
    · rw [min_eq_left hroom]
      exact (toS32_eq_iff n.toNat_lt).mpr ⟨rfl, hsmall⟩
    · rw [hf', min_eq_left hroom]
      simp

theorem readsFilled_iff (f : Fifo) (n : UInt32) :
    f.ReadsFilled n ↔ min n.toNat f.messages.length < 2 ^ 31 := by
  have hrun (pData : Memory) : f.btFifoRead n.toNat pData true =
      some (0 + min n.toNat f.messages.length, _, _) :=
    readLoop_eq (.inl rfl)
  have hword : min n.toNat f.messages.length < 2 ^ 32 := lt_of_le_of_lt (min_le_left _ _) n.toNat_lt
  constructor
  · intro h
    obtain ⟨r, f', pData', hrun', hret, -⟩ := h fun _ => 0
    obtain ⟨rfl, -⟩ := Prod.mk.inj (Option.some.inj ((hrun fun _ => 0).symm.trans hrun'))
    rw [Nat.zero_add] at hret
    exact ((toS32_eq_iff hword).mp (by exact_mod_cast hret)).2
  · intro hsmall pData
    obtain ⟨-, hf', -⟩ := btFifoRead_eq (hrun pData)
    refine ⟨_, _, _, hrun pData, ?_, ?_⟩
    · rw [Nat.zero_add]
      exact_mod_cast (toS32_eq_iff hword).mpr ⟨rfl, hsmall⟩
    · rw [hf', Nat.zero_add]

theorem writesFromISR_iff (f : Fifo) (ulFlags : Bool) (n : UInt32) :
    f.WritesFromISR ulFlags n ↔ n.toNat ≤ f.free ∧ n.toNat < 2 ^ 31 := by
  have hret (f' : Fifo) (hlen : f'.messages.length = f.messages.length + min n.toNat f.free) :
      toS32 n.toNat = f'.messages.length - f.messages.length ↔
      n.toNat ≤ f.free ∧ n.toNat < 2 ^ 31 := by
    have hdiff : (f'.messages.length : ℤ) - f.messages.length = (min n.toNat f.free : ℕ) := by
      rw [hlen]
      push_cast
      ring
    rw [hdiff, toS32_eq_iff n.toNat_lt]
    omega
  constructor
  · intro h
    obtain ⟨r, f', hrun, hr⟩ := h fun _ => 0
    obtain ⟨f'', hrun', -, hlen⟩ := writeLoopFromISR_eq ulFlags (fun _ => 0) n.toNat 0 f
    obtain ⟨rfl, rfl⟩ := Prod.mk.inj (hrun'.symm.trans hrun)
    rw [Nat.zero_add] at hr
    exact (hret _ hlen).mp hr
  · intro h pData
    obtain ⟨f', hrun, -, hlen⟩ := writeLoopFromISR_eq ulFlags pData n.toNat 0 f
    refine ⟨_, f', hrun, ?_⟩
    rw [Nat.zero_add]
    exact (hret _ hlen).mpr h

theorem readsFromISR_iff (f : Fifo) (ulFlags : Bool) (n : UInt32) : f.ReadsFromISR ulFlags n ↔
    (ulFlags = true ∨ n.toNat ≤ f.messages.length) ∧ min n.toNat f.messages.length < 2 ^ 31 := by
  have hret (f' : Fifo) (hdrop : f'.messages = f.messages.drop n.toNat) :
      toS32 (0 + (if ulFlags then min n.toNat f.messages.length else n.toNat) : ℕ) =
        f.messages.length - f'.messages.length ↔
      (ulFlags = true ∨ n.toNat ≤ f.messages.length) ∧ min n.toNat f.messages.length < 2 ^ 31 := by
    have hdiff : (f.messages.length : ℤ) - f'.messages.length =
        (min n.toNat f.messages.length : ℕ) := by
      rw [hdrop, List.length_drop]
      omega
    have hword := n.toNat_lt
    rw [hdiff, Nat.zero_add, toS32_eq_iff (by split <;> omega)]
    cases ulFlags with
    | true => simp
    | false =>
      simp only [Bool.false_eq_true, if_false, false_or]
      omega
  constructor
  · intro h
    obtain ⟨r, f', pData', hrun, hr⟩ := h fun _ => 0
    obtain ⟨f'', pData'', hrun', hdrop⟩ := readLoopFromISR_eq ulFlags n.toNat 0 f fun _ => 0
    obtain ⟨rfl, hrest⟩ := Prod.mk.inj (hrun'.symm.trans hrun)
    obtain ⟨rfl, -⟩ := Prod.mk.inj hrest
    exact (hret _ hdrop).mp hr
  · intro h pData
    obtain ⟨f', pData', hrun, hdrop⟩ := readLoopFromISR_eq ulFlags n.toNat 0 f pData
    exact ⟨_, f', pData', hrun, (hret _ hdrop).mpr h⟩

/-- **When the operations that are not to wait are right**: a read at all times, a write and the
variants for interrupts where there is room, or where there are elements, for all that is asked; no
count is to be negative as a `BT_s32`. -/
theorem fifo_nonblocking_iff (f : Fifo) (ulFlags : Bool) (n : UInt32) :
    (f.WritesFree n ↔ n.toNat ≤ f.free ∧ n.toNat < 2 ^ 31) ∧
      (f.ReadsFilled n ↔ min n.toNat f.messages.length < 2 ^ 31) ∧
      (f.WritesFromISR ulFlags n ↔ n.toNat ≤ f.free ∧ n.toNat < 2 ^ 31) ∧
      (f.ReadsFromISR ulFlags n ↔
        (ulFlags = true ∨ n.toNat ≤ f.messages.length) ∧ min n.toNat f.messages.length < 2 ^ 31) :=
  ⟨f.writesFree_iff n, f.readsFilled_iff n, f.writesFromISR_iff ulFlags n,
  f.readsFromISR_iff ulFlags n⟩

/-- One element for a full FIFO: the task is blocked, and an interrupt is told that the element was
written. -/
theorem fifo_nonblocking_full : ¬WritesFree ⟨1, 1, [[0]]⟩ 1 := by
  intro h
  exact absurd ((writesFree_iff ⟨1, 1, [[0]]⟩ 1).mp h).1 (by decide)

end Fifo

end BitThunder
