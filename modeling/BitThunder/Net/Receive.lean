import Mathlib.Logic.Function.Basic
import Mathlib.Data.List.Basic

/-!
# Receiving frames

`net_task` of `os/src/net/bt_net.c`, with `bt_lwip_process` and the Zynq's `gem_interrupt_handler`.
The MAC puts a frame into its ring and raises an interrupt; the interrupt sets a flag of the
interface and signals a mutex. The task waits for the mutex, goes over the interfaces, and empties
the ring of each one that has its flag set. It clears the flag after that.

* `NetState.Ok`, `Ok.step`: a frame that has been announced is seen in this pass over the
  interfaces or in the next one;
* `net_task_serves`: no frame is forgotten if none is announced between the last look at the ring
  and the clearing of the flag, and there is memory for each;
* `net_task_forgets`: otherwise one can be.

An interface with an announced frame has its flag set, and either the task is signalled or it has
not come to this interface in the present pass. That is the invariant, and it is kept by the
interrupts whenever they come. It can be broken by the task alone: when it clears the flag of an
interface after it has found the ring empty, and a frame was announced in between; or when it leaves
a frame in the ring because there is no memory.
-/

namespace BitThunder

/-- A frame, as its descriptor in the ring tells it: the length is in `RX_BD_LENGTH` and not zero.
-/
structure Frame : Type where
  length : ℕ
  pos : 0 < length
  le : length ≤ 0x1FFF

/-- Where `net_task` is, named for what it does next; `rest` are the interfaces after this one. -/
inductive NetTask (ι : Type) : Type where
  /-- `BT_PendMutex` -/
  | pend
  /-- test the flag of the first interface, if there is one -/
  | test (rest : List ι)
  /-- `lwip_receive`, in `bt_lwip_process` -/
  | receive (pIF : ι) (rest : List ι)
  /-- `pIF->base.ulFlags &= ~DATA_READY` -/
  | clear (pIF : ι) (rest : List ι)

/-- The interfaces and the task. -/
structure NetState (ι : Type) : Type where
  /-- the descriptors with `RX_BD_OWNERSHIP`, in the order of their frames -/
  ring : ι → List Frame
  /-- `GEM_INT_RX_COMPLETE` in `intr_status` -/
  rxComplete : ι → Bool
  /-- `DATA_READY` in `ulFlags` -/
  dataReady : ι → Bool
  /-- the binary semaphore behind `g_hMutex` -/
  signalled : Bool
  task : NetTask ι
  /-- how many frames of the ring, the first ones, have had their interrupt -/
  announced : ι → ℕ

/-- What can happen next. -/
inductive NetAction (ι : Type) : Type where
  /-- a frame arrives -/
  | arrive (pIF : ι) (frame : Frame)
  /-- the interrupt of the MAC -/
  | interrupt (pIF : ι)
  /-- the task does its next step; if it is to receive a frame, `pbuf_alloc` finds memory or not -/
  | go (memory : Bool)

/-- `mac_dataready` -/
def macDataready : List Frame → ℕ
  | [] => 0
  | frame :: _ => frame.length

/-- `mac_drop` -/
def macDrop (ring : List Frame) (_ulSize : ℕ) : List Frame := ring

/-- `lwip_receive`: what is left of the ring, and whether there is a packet. The reads into the
chain of buffers add up to the frame, and the last of them gives its descriptor back. -/
def lwipReceive (ring : List Frame) (memory : Bool) : List Frame × Bool :=
  let ullen := macDataready ring &&& 0xFFFF
  if ullen = 0 then (ring, false)
  else if memory then (ring.tail, true)
  else (macDrop ring (ullen - 4), false)

namespace NetState

variable {ι : Type} [DecidableEq ι]

/-- After `bt_net_manager_init`, which takes the mutex. -/
def init : NetState ι := ⟨fun _ => [], fun _ => false, fun _ => false, false, .pend, fun _ => 0⟩

/-- `net_event_handler`, for `BT_NET_IF_RX_READY` -/
def netEventHandler (s : NetState ι) (pIF : ι) : NetState ι :=
  { s with dataReady := Function.update s.dataReady pIF true, signalled := true }

/-- `gem_interrupt_handler` -/
def gemInterruptHandler (s : NetState ι) (pIF : ι) : NetState ι :=
  if s.rxComplete pIF then
    let s := { s with rxComplete := Function.update s.rxComplete pIF false
                      announced := Function.update s.announced pIF (s.ring pIF).length }
    s.netEventHandler pIF
  else s

/-- One step of `net_task` -/
def netTask (interfaces : List ι) (s : NetState ι) (memory : Bool) : NetState ι :=
  match s.task with
  | .pend => if s.signalled then { s with signalled := false, task := .test interfaces } else s
  | .test [] => { s with task := .pend }
  | .test (pIF :: rest) =>
    { s with task := if s.dataReady pIF then .receive pIF rest else .test rest }
  | .receive pIF rest =>
    let r := lwipReceive (s.ring pIF) memory
    let s := { s with ring := Function.update s.ring pIF r.1 }
    if r.2 then { s with announced := Function.update s.announced pIF (s.announced pIF - 1) }
    else { s with task := .clear pIF rest }
  | .clear pIF rest =>
    { s with dataReady := Function.update s.dataReady pIF false, task := .test rest }

/-- One step. Only registered interfaces have an interrupt handler. -/
def step (interfaces : List ι) (s : NetState ι) : NetAction ι → NetState ι
  | .arrive pIF frame =>
    { s with ring := Function.update s.ring pIF (s.ring pIF ++ [frame])
             rxComplete := Function.update s.rxComplete pIF true }
  | .interrupt pIF => if pIF ∈ interfaces then s.gemInterruptHandler pIF else s
  | .go memory => s.netTask interfaces memory

/-- The states of the runs whose steps all satisfy `ok`. -/
inductive Run (ok : NetState ι → NetAction ι → Prop) (interfaces : List ι) : NetState ι → Prop where
  | nil : Run ok interfaces init
  | cons {s : NetState ι} (run : Run ok interfaces s) {a : NetAction ι} (h : ok s a) :
      Run ok interfaces (s.step interfaces a)

/-- The task is blocked, and an interface holds a frame whose interrupt has been handled. -/
structure Forgets (s : NetState ι) (pIF : ι) : Prop where
  /-- the task waits -/
  blocked : s.task = .pend
  /-- nobody has woken it -/
  unsignalled : s.signalled = false
  /-- and the ring has a frame that was announced -/
  held : 0 < s.announced pIF

/-- No interrupt announces a frame of an interface between the last look at its ring and the
clearing of its flag, and `pbuf_alloc` finds memory for a frame that has been announced. -/
def Careful (s : NetState ι) : NetAction ι → Prop
  | .arrive _ _ => True
  | .interrupt pIF => ∀ rest, s.task = .clear pIF rest → s.ring pIF = []
  | .go memory => ∀ pIF rest, s.task = .receive pIF rest → 0 < s.announced pIF → memory = true

/-- The interfaces that the task looks at before it waits again. -/
def ahead (s : NetState ι) : List ι :=
  match s.task with
  | .pend => []
  | .test rest => rest
  | .receive pIF rest => pIF :: rest
  | .clear _ rest => rest

/-- What holds after every step of a run. -/
structure Ok (interfaces : List ι) (s : NetState ι) : Prop where
  /-- what was announced is in the ring -/
  held : ∀ i, s.announced i ≤ (s.ring i).length
  /-- before the flag is cleared nothing is announced -/
  emptied : ∀ i rest, s.task = .clear i rest → s.announced i = 0
  /-- the task will look at an interface with a frame, and see its flag -/
  seen : ∀ i, 0 < s.announced i → i ∈ interfaces ∧ s.dataReady i = true ∧
    (s.signalled = true ∨ i ∈ s.ahead)

end NetState

/-- There is a packet if there is a frame and memory for it. -/
theorem lwipReceive_eq (ring : List Frame) (memory : Bool) :
    lwipReceive ring memory = if ring ≠ [] ∧ memory = true then (ring.tail, true)
      else (ring, false) := by
  cases ring with
  | nil => simp [lwipReceive, macDataready]
  | cons frame ring =>
    have hlength : frame.length &&& 0xFFFF = frame.length := by
      rw [Nat.and_two_pow_sub_one_eq_mod _ 16]
      exact Nat.mod_eq_of_lt (Nat.lt_of_le_of_lt frame.le (by decide))
    have hne : frame.length ≠ 0 := Nat.pos_iff_ne_zero.mp frame.pos
    cases memory <;> simp [lwipReceive, macDataready, macDrop, hlength, hne]

namespace NetState

variable {ι : Type} [DecidableEq ι] {interfaces : List ι} {s : NetState ι} {a : NetAction ι}

/-- A frame that comes in is seen, or the interrupt for it is to come. -/
theorem Ok.arrive (ok : s.Ok interfaces) (pIF : ι) (frame : Frame) :
    (s.step interfaces (.arrive pIF frame)).Ok interfaces := by
  refine ⟨fun i => ?_, ok.emptied, ok.seen⟩
  have hheld := ok.held i
  by_cases hi : i = pIF
  · subst hi
    simp only [step, Function.update_self, List.length_append, List.length_singleton]
    omega
  · simpa only [step, Function.update_of_ne hi] using hheld

theorem Ok.interrupt {pIF : ι} (ok : s.Ok interfaces) (careful : s.Careful (.interrupt pIF)) :
    (s.step interfaces (.interrupt pIF)).Ok interfaces := by
  simp only [step, gemInterruptHandler, netEventHandler]
  split_ifs with hmem hrx
  · refine ⟨fun i => ?_, fun i rest htask => ?_, fun i hi => ?_⟩
    · by_cases hi : i = pIF
      · subst hi
        simp
      · simpa [Function.update_of_ne hi] using ok.held i
    · by_cases hi : i = pIF
      · subst hi
        simp [careful rest htask]
      · simpa [Function.update_of_ne hi] using ok.emptied i rest htask
    · by_cases heq : i = pIF
      · subst heq
        exact ⟨hmem, Function.update_self _ _ _, .inl rfl⟩
      · replace hi : 0 < s.announced i := by simpa only [Function.update_of_ne heq] using hi
        obtain ⟨hmem, hready, -⟩ := ok.seen i hi
        exact ⟨hmem, (Function.update_of_ne heq _ _).trans hready, .inl rfl⟩
  · exact ok
  · exact ok

/-- A pass over the interfaces leaves none with a frame behind. -/
theorem Ok.go {memory : Bool} (ok : s.Ok interfaces) (careful : s.Careful (.go memory)) :
    (s.netTask interfaces memory).Ok interfaces := by
  unfold netTask
  split
  next hpend =>
    split_ifs with hsig
    · refine ⟨ok.held, nofun, fun i hi => ?_⟩
      obtain ⟨hmem, hready, -⟩ := ok.seen i hi
      exact ⟨hmem, hready, .inr hmem⟩
    · exact ok
  next htest =>
    refine ⟨ok.held, nofun, fun i hi => ?_⟩
    obtain ⟨hmem, hready, hcoming⟩ := ok.seen i hi
    rw [ahead, htest] at hcoming
    exact ⟨hmem, hready, hcoming⟩
  next pIF rest htest =>
    refine ⟨ok.held, fun i rest' htask => ?_, fun i hi => ?_⟩
    · dsimp only at htask
      split_ifs at htask
    · obtain ⟨hmem, hready, hcoming⟩ := ok.seen i hi
      refine ⟨hmem, hready, hcoming.imp_right fun hahead => ?_⟩
      rw [ahead, htest] at hahead
      dsimp only [ahead]
      split_ifs with hflag
      · exact hahead
      · -- the flag of `i` is set, so this is another interface
        rcases List.mem_cons.mp hahead with rfl | hrest
        · exact absurd hready hflag
        · exact hrest
  next pIF rest hreceive =>
    rw [lwipReceive_eq]
    by_cases htaken : s.ring pIF ≠ [] ∧ memory = true
    · rw [if_pos htaken]
      dsimp only
      rw [if_pos rfl]
      refine ⟨fun i => ?_, ?_, fun i hi => ?_⟩
      · have hheld := ok.held i
        by_cases heq : i = pIF
        · subst heq
          simp only [Function.update_self, List.length_tail]
          omega
        · simpa only [Function.update_of_ne heq] using hheld
      · simp [hreceive]
      · dsimp only at hi
        have hold : 0 < s.announced i := by
          by_cases heq : i = pIF
          · subst heq
            rw [Function.update_self] at hi
            omega
          · rwa [Function.update_of_ne heq] at hi
        exact ok.seen i hold
    · -- the drain is over, and there is nothing left that was announced
      rw [if_neg htaken]
      dsimp only
      rw [if_neg Bool.false_ne_true, Function.update_eq_self]
      have hzero : s.announced pIF = 0 := by
        by_contra hne
        have hpos := Nat.pos_of_ne_zero hne
        refine htaken ⟨fun hnil => ?_, careful pIF rest hreceive hpos⟩
        have hheld := ok.held pIF
        rw [hnil, List.length_nil] at hheld
        omega
      refine ⟨ok.held, ?_, fun i hi => ?_⟩
      · rintro i rest' ⟨⟩
        exact hzero
      · obtain ⟨hmem, hready, hcoming⟩ := ok.seen i hi
        refine ⟨hmem, hready, hcoming.imp_right fun hahead => ?_⟩
        rw [ahead, hreceive] at hahead
        rcases List.mem_cons.mp hahead with rfl | hrest
        · exact absurd hi (by simp [hzero])
        · exact hrest
  next pIF rest hclear =>
    have hzero := ok.emptied pIF rest hclear
    refine ⟨ok.held, nofun, fun i hi => ?_⟩
    obtain ⟨hmem, hready, hcoming⟩ := ok.seen i hi
    have hne : i ≠ pIF := by
      rintro rfl
      exact absurd hi (by simp [hzero])
    rw [ahead, hclear] at hcoming
    exact ⟨hmem, (Function.update_of_ne hne _ _).trans hready, hcoming⟩

theorem Ok.step (ok : s.Ok interfaces) (careful : s.Careful a) :
    (s.step interfaces a).Ok interfaces := by
  cases a with
  | arrive pIF frame => exact ok.arrive pIF frame
  | interrupt pIF => exact ok.interrupt careful
  | go memory => exact ok.go careful

theorem Run.ok (run : Run Careful interfaces s) : s.Ok interfaces := by
  induction run with
  | nil => exact ⟨fun _ => Nat.le_refl 0, nofun, nofun⟩
  | cons run careful ih => exact ih.step careful

end NetState

/-- **No received frame is forgotten** in a run in which no interrupt announces a frame between the
last look at a ring and the clearing of the flag, and no frame is left for want of memory. -/
theorem net_task_serves {ι : Type} [DecidableEq ι] {interfaces : List ι} {s : NetState ι}
    (run : NetState.Run NetState.Careful interfaces s) (pIF : ι) : ¬ s.Forgets pIF := by
  rintro ⟨hblocked, hunsignalled, hheld⟩
  obtain ⟨-, -, hsig | hahead⟩ := run.ok.seen pIF hheld
  · simp [hunsignalled] at hsig
  · simp [NetState.ahead, hblocked] at hahead

/-- A frame arrives at one of two interfaces and is received. -/
theorem net_task_serves_one :
    ¬ (([.arrive false
      ⟨64, by decide, by decide⟩, .interrupt false, .go true, .go true, .go true, .go true,
      .go true,
      .go true, .go true, .go true].foldl (NetState.step [true, false]) NetState.init).Forgets
        false) := by
  have h₀ : NetState.Run NetState.Careful [true, false] NetState.init := .nil
  have h₁ := h₀.cons (a := .arrive false ⟨64, by decide, by decide⟩) trivial
  have h₂ := h₁.cons (a := .interrupt false) nofun
  have h₃ := h₂.cons (a := .go true) fun _ _ _ _ => rfl
  have h₄ := h₃.cons (a := .go true) fun _ _ _ _ => rfl
  have h₅ := h₄.cons (a := .go true) fun _ _ _ _ => rfl
  have h₆ := h₅.cons (a := .go true) fun _ _ _ _ => rfl
  have h₇ := h₆.cons (a := .go true) fun _ _ _ _ => rfl
  have h₈ := h₇.cons (a := .go true) fun _ _ _ _ => rfl
  have h₉ := h₈.cons (a := .go true) fun _ _ _ _ => rfl
  have h₁₀ := h₉.cons (a := .go true) fun _ _ _ _ => rfl
  exact net_task_serves h₁₀ false

/-- A second frame is announced when the task has found the ring empty and has not cleared the flag.
The signal makes it go over the interfaces once more, but the flag is not set. -/
theorem net_task_forgets :
    let s : NetState Unit :=
  [.arrive () ⟨64, by decide, by decide⟩, .interrupt (), .go true, .go true,
      .go true, .go true, .arrive () ⟨64, by decide, by decide⟩, .interrupt (), .go true, .go true,
      .go true, .go true, .go true].foldl (NetState.step [()]) NetState.init
    NetState.Run (fun _ _ => True) [()] s ∧ s.Forgets () := by
  have h₀ : NetState.Run (fun _ _ => True) [()] NetState.init := .nil
  have h₁ := h₀.cons (a := .arrive () ⟨64, by decide, by decide⟩) trivial
  have h₂ := h₁.cons (a := .interrupt ()) trivial
  have h₃ := h₂.cons (a := .go true) trivial
  have h₄ := h₃.cons (a := .go true) trivial
  have h₅ := h₄.cons (a := .go true) trivial
  have h₆ := h₅.cons (a := .go true) trivial
  have h₇ := h₆.cons (a := .arrive () ⟨64, by decide, by decide⟩) trivial
  have h₈ := h₇.cons (a := .interrupt ()) trivial
  have h₉ := h₈.cons (a := .go true) trivial
  have h₁₀ := h₉.cons (a := .go true) trivial
  have h₁₁ := h₁₀.cons (a := .go true) trivial
  have h₁₂ := h₁₁.cons (a := .go true) trivial
  have h₁₃ := h₁₂.cons (a := .go true) trivial
  exact ⟨h₁₃, rfl, rfl, by decide⟩

end BitThunder
