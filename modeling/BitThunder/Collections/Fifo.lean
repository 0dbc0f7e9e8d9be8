import BitThunder.Lib.Memory

/-!
# FIFOs

`lib/src/collections/bt_fifo.c`. A FIFO is a queue of the kernel whose messages have the width
of an element. The queue is bounded and keeps the order of its messages; a task that sends to
a full queue, or receives from an empty one, is blocked.

* `readLoop_eq`, `writeLoop_eq`: what a call does;
* `ReadsRight`: the elements are in the buffer of the caller, one behind the other;
* `fifo_order_iff`: when a read is right, in every state that can be reached, and that nothing
  is lost as long as all are.

What callers have written and what they have read are kept beside the queue, so that nothing lost
and nothing reordered is an equation between lists: written is read and then what is still there. A
call of `BT_FifoRead` takes messages out one after the other and receives each of them at the start
of the buffer. The elements are gone from the queue and not in the buffer, but for the last one;
with at most one element there is no difference.
-/

namespace BitThunder

open Memory

/-- Element `i` of an array of elements of `w` bytes. -/
def Memory.slot (w : ℕ) (m : Memory) (i : ℕ) : List UInt8 :=
  (List.range w).map fun j => m (w * i + j)

/-- The bytes of a message. -/
def Memory.ofMessage (msg : List UInt8) : Memory := fun j => msg.getD j 0

/-- `BT_HANDLE_TYPE`, as far as it matters here -/
inductive HandleType : Type where
  | queue
  | fifo
  deriving DecidableEq

/-- The handle of a FIFO, and the messages in its queue, the oldest first. -/
structure Fifo : Type where
  ulElements : ℕ
  ulElementWidth : ℕ
  messages : List (List UInt8)

namespace Fifo

/-- `BT_FifoIsEmpty`; what is not a FIFO is not empty -/
def btFifoIsEmpty (type : HandleType) (f : Fifo) : Bool :=
  match type with
  | .fifo => f.messages.length == 0
  | .queue => false

/-- `BT_FifoIsFull`; what is not a FIFO is not full -/
def btFifoIsFull (type : HandleType) (f : Fifo) : Bool :=
  match type with
  | .fifo => f.ulElements == f.messages.length
  | .queue => false

/-- `BT_QueueSend`; `none` if the task is blocked -/
def queueSend (f : Fifo) (msg : List UInt8) : Option Fifo :=
  if f.messages.length < f.ulElements then some { f with messages := f.messages ++ [msg] } else none

/-- `BT_QueueReceive`, to the start of a buffer -/
def queueReceive (f : Fifo) (buf : Memory) : Option (Fifo × Memory) :=
  match f.messages with
  | [] => none
  | msg :: msgs => some ({ f with messages := msgs },
    buf.overlay 0 f.ulElementWidth (ofMessage msg))

/-- The loop of `BT_FifoWrite`, with `k` elements to go. Whether the FIFO is full is asked of
the handle of the queue. -/
def writeLoop (nonblocking : Bool) (pData : Memory) : ℕ → ℕ → Fifo → Option (ℕ × Fifo)
  | 0, ulWritten, f => some (ulWritten, f)
  | k + 1, ulWritten, f =>
    if nonblocking && f.btFifoIsFull .queue then some (ulWritten, f)
    else (f.queueSend (pData.slot f.ulElementWidth ulWritten)).bind fun f =>
      writeLoop nonblocking pData k (ulWritten + 1) f

/-- `BT_FifoWrite`; `none` if it does not return -/
def btFifoWrite (f : Fifo) (ulElements : ℕ) (pData : Memory) (nonblocking : Bool) :
    Option (ℕ × Fifo) :=
  writeLoop nonblocking pData ulElements 0 f

/-- The loop of `BT_FifoRead`. Every message is received at `pData`; `pSrc` is advanced, but
not used. -/
def readLoop (nonblocking : Bool) : ℕ → ℕ → Fifo → Memory → Option (ℕ × Fifo × Memory)
  | 0, ulRead, f, pData => some (ulRead, f, pData)
  | k + 1, ulRead, f, pData =>
    if f.btFifoIsEmpty .fifo && (nonblocking || ulRead != 0) then some (ulRead, f, pData)
    else (f.queueReceive pData).bind fun r => readLoop nonblocking k (ulRead + 1) r.1 r.2

/-- `BT_FifoRead`; `none` if it does not return -/
def btFifoRead (f : Fifo) (ulElements : ℕ) (pData : Memory) (nonblocking : Bool) :
    Option (ℕ × Fifo × Memory) :=
  readLoop nonblocking ulElements 0 f pData

/-! ## Runs

What was written and what was read are lists beside the FIFO. A read is recorded as it came out of
the caller's buffer, right or wrong. -/

/-- What the callers have given to `BT_FifoWrite`, and what they have found in their buffers
after `BT_FifoRead`, the first element first. A call that is blocked does not return. -/
inductive Reach (ok : Fifo → ℕ → Prop) : Fifo → List (List UInt8) → List (List UInt8) → Prop where
  /-- `BT_FifoCreate` -/
  | create (ulElements ulElementWidth : ℕ) : Reach ok ⟨ulElements, ulElementWidth, []⟩ [] []
  | write {f f' : Fifo} {written read : List (List UInt8)} {ulElements n : ℕ} {pData : Memory}
      {nonblocking : Bool} (h : Reach ok f written read)
      (run : f.btFifoWrite ulElements pData nonblocking = some (n, f')) :
      Reach ok f' (written ++ (List.range n).map (pData.slot f.ulElementWidth)) read
  | read {f f' : Fifo} {written read : List (List UInt8)} {ulElements n : ℕ} {pData pData' : Memory}
      {nonblocking : Bool} (h : Reach ok f written read) (hok : ok f ulElements)
      (run : f.btFifoRead ulElements pData nonblocking = some (n, f', pData')) :
      Reach ok f' written (read ++ (List.range n).map (pData'.slot f.ulElementWidth))

/-- Whatever was in the buffer, a call that returns `n` has put the `n` oldest elements there,
one behind the other, and has taken them out of the FIFO. -/
def ReadsRight (f : Fifo) (ulElements : ℕ) : Prop :=
  ∀ pData nonblocking n f' pData', f.btFifoRead ulElements pData nonblocking =
  some (n, f', pData') →
    n ≤ f.messages.length ∧ (List.range n).map (pData'.slot f.ulElementWidth) = f.messages.take n ∧
      f'.messages = f.messages.drop n

/-- At most one element is asked for, or at most one is there, or elements have no bytes. -/
def ReadsOne (f : Fifo) (ulElements : ℕ) : Prop :=
  ulElements ≤ 1 ∨ f.messages.length ≤ 1 ∨ f.ulElementWidth = 0

/-! ## The loops

Both loops are computed in closed form first, so that nothing after this section is about rounds. -/

/-- The buffer after these messages have been received into it: each one overwrites the one
before. -/
def received (w : ℕ) (buf : Memory) (msgs : List (List UInt8)) : Memory :=
  match msgs.getLast? with
  | none => buf
  | some msg => buf.overlay 0 w (ofMessage msg)

variable {f f' : Fifo} {written read : List (List UInt8)} {nonblocking : Bool}
  {pData pData' : Memory} {k i n ulElements : ℕ} {ok : Fifo → ℕ → Prop}

/-- The first message fills the first slot of the buffer, and the rest are received behind it. -/
theorem received_cons (w : ℕ) (buf : Memory) (msg : List UInt8) (msgs : List (List UInt8)) :
    received w (buf.overlay 0 w (ofMessage msg)) msgs = received w buf (msg :: msgs) := by
  unfold received
  rw [List.getLast?_cons]
  cases msgs.getLast? with
  | none => rfl
  | some last => exact overlay_same

/-- The read takes as many messages as there are, up to the number it is asked for, unless it
has to wait for the first one. -/
theorem readLoop_eq (h : nonblocking = true ∨ i ≠ 0 ∨ k = 0 ∨ f.messages ≠ []) :
    readLoop nonblocking k i f pData =
      some (i + min k f.messages.length, { f with messages := f.messages.drop k },
        received f.ulElementWidth pData (f.messages.take k)) := by
  induction k generalizing i f pData with
  | zero => simp [readLoop, received]
  | succ k ih =>
    cases hmsgs : f.messages with
    | nil =>
      have hstop : (nonblocking || i != 0) = true := by
        rw [hmsgs] at h
        simpa using h
      have hf : f = { f with messages := [] } := by rw [← hmsgs]
      rw [readLoop, btFifoIsEmpty, hmsgs, hstop]
      simpa [received] using hf
    | cons msg msgs =>
      have hempty : f.btFifoIsEmpty .fifo = false := by simp [btFifoIsEmpty, hmsgs]
      have hrest : readLoop nonblocking k (i + 1) { f with messages := msgs }
          (pData.overlay 0 f.ulElementWidth (ofMessage msg)) = _ :=
            ih (.inr (.inl (Nat.succ_ne_zero i)))
      rw [readLoop, hempty, Bool.false_and, if_neg Bool.false_ne_true, queueReceive, hmsgs]
      refine hrest.trans ?_
      rw [received_cons, List.length_cons, List.take_succ_cons, List.drop_succ_cons, Nat.add_assoc,
        Nat.add_comm 1, Nat.add_min_add_right]

/-- A task that still needs an element and finds none is blocked. -/
theorem readLoop_blocked (hi : k ≠ 0) (hmsgs : f.messages = []) :
    readLoop false k 0 f pData = none := by
  obtain ⟨k, rfl⟩ := Nat.exists_eq_succ_of_ne_zero hi
  simp [readLoop, btFifoIsEmpty, queueReceive, hmsgs]

/-- A read that returns has not been blocked. -/
theorem btFifoRead_eq (run : f.btFifoRead ulElements pData nonblocking = some (n, f', pData')) :
    n = min ulElements f.messages.length ∧ f' = { f with messages := f.messages.drop n } ∧
      pData' = received f.ulElementWidth pData (f.messages.take n) := by
  have hfree : nonblocking = true ∨ (0 : ℕ) ≠ 0 ∨ ulElements = 0 ∨ f.messages ≠ [] := by
    by_contra hb
    simp only [not_or, not_not, Bool.not_eq_true] at hb
    obtain ⟨rfl, -, hk, hmsgs⟩ := hb
    rw [btFifoRead, readLoop_blocked hk hmsgs] at run
    simp at run
  rw [btFifoRead, readLoop_eq hfree, Nat.zero_add] at run
  obtain ⟨rfl, rfl, rfl⟩ : _ = n ∧ _ = f' ∧ _ = pData' := by simpa using run
  have htake : f.messages.take (min ulElements f.messages.length) = f.messages.take ulElements := by
    rw [← List.take_take, List.take_length]
  have hdrop : f.messages.drop (min ulElements f.messages.length) = f.messages.drop ulElements := by
    obtain hle | hlt := le_total ulElements f.messages.length
    · rw [min_eq_left hle]
    · rw [min_eq_right hlt, List.drop_length, List.drop_eq_nil_of_le hlt]
  exact ⟨rfl, by rw [hdrop], by rw [htake]⟩

/-- A write that returns has sent as many elements as it says. -/
theorem writeLoop_eq (run : writeLoop nonblocking pData k i f = some (n, f')) :
    i ≤ n ∧ f' = { f with
      messages := f.messages ++
        (List.range (n - i)).map fun j => pData.slot f.ulElementWidth (i + j) } := by
  induction k generalizing i f with
  | zero =>
    obtain ⟨rfl, rfl⟩ : i = n ∧ f = f' := by simpa [writeLoop] using run
    simp
  | succ k ih =>
    -- the handle of the queue is never full
    have hfull : f.btFifoIsFull .queue = false := rfl
    rw [writeLoop, hfull, Bool.and_false, if_neg Bool.false_ne_true] at run
    obtain ⟨g, hsend, hrest⟩ := Option.bind_eq_some_iff.mp run
    unfold queueSend at hsend
    split_ifs at hsend
    obtain rfl := Option.some.inj hsend
    obtain ⟨hle, rfl⟩ := ih hrest
    refine ⟨by omega, ?_⟩
    have hn : n - i = n - (i + 1) + 1 := by omega
    rw [hn, List.range_succ_eq_map, List.map_cons, List.map_map]
    simp only [List.append_assoc, List.singleton_append, Nat.add_zero]
    congr 3
    refine List.map_congr_left fun j _ => ?_
    rw [Function.comp_apply, Nat.succ_eq_add_one, Nat.add_assoc, Nat.add_comm 1]

/-! ## When a read is right

The buffer after a read is compared with the messages that were taken, slot by slot. Two messages
with different contents show that the second slot has not been written. -/

theorem length_slot (w : ℕ) (m : Memory) (i : ℕ) : (m.slot w i).length = w := by
  unfold slot
  rw [List.length_map, List.length_range]

/-- The bytes of a slot are the buffer's, from the slot's offset on. -/
theorem getElem_slot (w : ℕ) (m : Memory) (i j : ℕ) (hj : j < (m.slot w i).length) :
    (m.slot w i)[j] = m (w * i + j) := by
  refine (List.getElem_map ..).trans ?_
  rw [List.getElem_range]

/-- The first slot holds the message that was received last. -/
theorem slot_zero_overlay (w : ℕ) (buf : Memory) {msg : List UInt8} (h : msg.length = w) :
    (buf.overlay 0 w (ofMessage msg)).slot w 0 = msg := by
  refine List.ext_getElem (by rw [length_slot, h]) fun j hj hj' => ?_
  have hin : buf.overlay 0 w (ofMessage msg) (0 + j) = ofMessage msg j := overlay_of_in (h ▸ hj')
  rw [getElem_slot, Nat.mul_zero, hin]
  change msg.getD j 0 = msg[j]
  simp [hj']

/-- The second one is as it was. -/
theorem slot_one_received (w : ℕ) (buf : Memory) (msgs : List (List UInt8)) :
    (received w buf msgs).slot w 1 = buf.slot w 1 := by
  unfold slot received
  refine List.map_congr_left fun j _ => ?_
  cases msgs.getLast? with
  | none => rfl
  | some msg => exact overlay_of_out (by omega)

/-- Every message has the width of an element. -/
def WellFormed (f : Fifo) : Prop := ∀ msg ∈ f.messages, msg.length = f.ulElementWidth

/-- One element, or elements without bytes, are read in order. -/
theorem readsRight_of_one (hf : f.WellFormed) (h : f.ReadsOne ulElements) :
    f.ReadsRight ulElements := by
  intro pData nonblocking n f' pData' run
  obtain ⟨rfl, rfl, rfl⟩ := btFifoRead_eq run
  refine ⟨min_le_right _ _, ?_, rfl⟩
  by_cases hw : f.ulElementWidth = 0
  · -- all elements are the same: nothing
    refine List.ext_getElem (by simp) fun j hj hj' => ?_
    have hmem : (f.messages.take (min ulElements f.messages.length))[j] ∈ f.messages :=
      List.mem_of_mem_take (List.getElem_mem hj')
    have hlen := hf _ hmem
    rw [hw] at hlen
    rw [List.getElem_map, List.eq_nil_of_length_eq_zero hlen]
    exact List.eq_nil_of_length_eq_zero (by rw [length_slot, hw])
  · have hn : min ulElements f.messages.length ≤ 1 := by
      obtain hle | hle | hzero := h
      · exact (min_le_left _ _).trans hle
      · exact (min_le_right _ _).trans hle
      · exact absurd hzero hw
    obtain hzero | hone := Nat.le_one_iff_eq_zero_or_eq_one.mp hn
    · rw [hzero]
      rfl
    · rw [hone]
      have hpos : 0 < f.messages.length := by
        have := min_le_right ulElements f.messages.length
        omega
      cases hmsgs : f.messages with
      | nil =>
        rw [hmsgs] at hpos
        simp at hpos
      | cons msg msgs =>
        have hlen : msg.length = f.ulElementWidth := hf msg (by simp [hmsgs])
        have hslot := slot_zero_overlay f.ulElementWidth pData hlen
        simpa [received] using hslot

/-- If more than one element is to be read, the second overwrites the first. -/
theorem one_of_readsRight (hf : f.WellFormed) (h : f.ReadsRight ulElements) :
    f.ReadsOne ulElements := by
  by_contra hone
  simp only [ReadsOne, not_or, not_le] at hone
  obtain ⟨hk, hlen, hw⟩ := hone
  have hget := List.getElem_mem (l := f.messages) (n := 1) hlen
  have hwidth := hf _ hget
  -- a buffer whose second element is not the one that should be read
  let pData : Memory := fun _ => f.messages[1].headD 0 + 1
  have hne : f.messages ≠ [] := List.ne_nil_of_length_pos (by omega)
  obtain ⟨hn, hslots, -⟩ := h pData true _ _ _ (readLoop_eq (.inr (.inr (.inr hne))))
  rw [Nat.zero_add] at hn hslots
  have hmin : 2 ≤ min ulElements f.messages.length := le_min hk hlen
  have hsecond := congrArg (fun l => l[1]?) hslots
  simp only [List.getElem?_map, List.getElem?_range
    (show 1 < min ulElements f.messages.length from hmin),
    Option.map_some, slot_one_received, List.getElem?_take_of_lt
    (show 1 < min ulElements f.messages.length from hmin),
    List.getElem?_eq_getElem hlen] at hsecond
  have hfirst : f.messages[1].headD 0 = pData 0 := by
    rw [← Option.some.inj hsecond]
    unfold slot
    obtain ⟨w, hw'⟩ := Nat.exists_eq_succ_of_ne_zero hw
    rw [hw', List.range_succ_eq_map]
    rfl
  have hplus : f.messages[1].headD 0 = f.messages[1].headD 0 + 1 := hfirst
  simp at hplus

/-- The messages of a FIFO have the width of an element, in every run. -/
theorem Reach.wellFormed (h : Reach ok f written read) : f.WellFormed := by
  induction h with
  | create ulElements ulElementWidth => exact nofun
  | @write f f' written read ulElements n pData nonblocking h run ih =>
    obtain ⟨-, rfl⟩ := writeLoop_eq run
    intro msg hmsg
    rcases List.mem_append.mp hmsg with hmsg | hmsg
    · exact ih msg hmsg
    · obtain ⟨j, -, rfl⟩ := List.mem_map.mp hmsg
      exact length_slot ..
  | @read f f' written read ulElements n pData pData' nonblocking h hok run ih =>
    obtain ⟨-, rfl, -⟩ := btFifoRead_eq run
    exact fun msg hmsg => ih msg (List.mem_of_mem_drop hmsg)

/-- If all reads are right, what has been written has been read or is still there, in the same
order. -/
theorem Reach.conserved (hok : ∀ f n, ok f n → f.ReadsOne n) (h : Reach ok f written read) :
    written = read ++ f.messages := by
  induction h with
  | create ulElements ulElementWidth => rfl
  | @write f f' written read ulElements n pData nonblocking h run ih =>
    obtain ⟨-, rfl⟩ := writeLoop_eq run
    rw [ih, List.append_assoc]
    simp
  | @read f f' written read ulElements n pData pData' nonblocking h hread run ih =>
    obtain ⟨-, hslots, hrest⟩ :=
      readsRight_of_one h.wellFormed (hok f ulElements hread) _ _ _ _ _ run
    rw [ih, hslots, hrest, List.append_assoc, List.take_append_drop]

/-- **When a FIFO keeps order and contents.** In every state that can be reached, a read is right
exactly if it takes at most one element; and if all reads of a run do, no element is lost,
doubled or out of order. -/
theorem fifo_order_iff (h : Reach ok f written read) :
    (∀ ulElements, f.ReadsRight ulElements ↔ f.ReadsOne ulElements) ∧
      ((∀ f n, ok f n → f.ReadsOne n) → written = read ++ f.messages) :=
  ⟨fun _ => ⟨one_of_readsRight h.wellFormed, readsRight_of_one h.wellFormed⟩,
  fun hok => h.conserved hok⟩

/-- The bytes `1, 2, 3, …`. -/
def counting : Memory := fun j => UInt8.ofNat (j + 1)

/-- Two elements of two bytes, in a FIFO of four. -/
def twoElements : Fifo := ⟨4, 2, [[1, 2], [3, 4]]⟩

/-- Two elements of two bytes were written, and nothing was read yet. -/
theorem twoElements_reach (ok : Fifo → ℕ → Prop) : Reach ok twoElements [[1, 2], [3, 4]] [] := by
  have hrun : (⟨4, 2, []⟩ : Fifo).btFifoWrite 2 counting false = some (2, twoElements) := rfl
  exact Reach.write (.create 4 2) hrun

theorem fifo_order_iff_two :
    (twoElements.ReadsRight 1 ↔ twoElements.ReadsOne 1) ∧
    [[1, 2], [3, 4]] = [] ++ twoElements.messages :=
  ⟨(fifo_order_iff (twoElements_reach ReadsOne)).1 1,
  (fifo_order_iff (twoElements_reach ReadsOne)).2 fun _ _ h => h⟩

/-- Two elements are written and read: the caller finds the second one in front, and nothing
behind it. -/
theorem fifo_loses_first :
    Reach (fun _ _ => True) twoElements [[1, 2], [3, 4]] [] ∧
    (∃ f' pData', twoElements.btFifoRead 2 (ofMessage []) false = some (2, f', pData') ∧
      (List.range 2).map (pData'.slot 2) = [[3, 4], [0, 0]]) ∧ ¬ twoElements.ReadsRight 2 := by
  have hread : ∃ f' pData', twoElements.btFifoRead 2 (ofMessage []) false = some (2, f', pData') ∧
      (List.range 2).map (pData'.slot 2) = [[3, 4], [0, 0]] := ⟨_, _, rfl, rfl⟩
  refine ⟨twoElements_reach _, hread, fun h => ?_⟩
  obtain ⟨f', pData', hrun, hslots⟩ := hread
  have htake := (h _ _ _ _ _ hrun).2.1
  have hwrong : [[3, 4], [0, 0]] = twoElements.messages.take 2 := hslots.symm.trans htake
  simp [twoElements] at hwrong

end Fifo

end BitThunder
