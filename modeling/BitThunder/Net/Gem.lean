import BitThunder.Lib.Memory
import BitThunder.Lib.Window
import BitThunder.Mm.Defs

/-!
# The receive ring of the GEM

The receive side of `arch/arm/mach/zynq/gem.c` and the receive loop of `os/src/net/bt_lwip.c`, on
descriptors and buffers. The hardware fills the descriptors of a ring in turn, as long as their
ownership bit is clear, and sets the bit; the driver reads the frame of the descriptor `rx_ci` in
pieces, one for each buffer of a chain, and clears the bit when it has counted down to the end of
the frame. If there is no chain, the frame should be dropped, but `mac_drop` does nothing.

* `GemState.InOrder`: the frames handed to the stack are the first ones that arrived, and the ring
  holds the others;
* `gem_receives_in_order`: this holds in every state of a run in which there is a chain for each
  frame, and none ends with an empty buffer;
* `gem_keeps_dropped_frame`: otherwise a frame can be handed on that should have been dropped.

The ring is a window on the stream of frames that the hardware has delivered: frame `j` is in
descriptor `j % 256` as long as it has not been consumed. The hardware is at one end and the driver
at the other, and the ownership bit says for each descriptor on which side of both it is. `Ok`
states this with plain numbers, so that the flags in the two words have to be taken apart in a few
lemmas only.

A frame is read in pieces of any sizes. The driver counts down to the end of the frame, and gives
the descriptor back when it has come to it; a chain that ends with an empty buffer makes it ask once
more, for the next frame. Without a chain the frame should be dropped, and as `mac_drop` does
nothing, it is there the next time.
-/

namespace BitThunder

/-- `RX_BD_ADDRESS` -/
def rxBdAddress : ℕ := 0xFFFFFFFC

/-- `RX_BD_WRAP` -/
def rxBdWrap : ℕ := 0x00000002

/-- `RX_BD_OWNERSHIP` -/
def rxBdOwnership : ℕ := 0x00000001

/-- `RX_BD_LENGTH` -/
def rxBdLength : ℕ := 0x00001FFF

/-- `RECV_BD_CNT` -/
def recvBdCnt : ℕ := 256

/-- `RX_BUF_SIZE` -/
def rxBufSize : ℕ := 1536

/-- `GEM_BD` -/
structure GemBd : Type where
  address : ℕ
  flags : ℕ

/-- What `bt_page_alloc_coherent` returns for the buffers: a block of pages. -/
structure RxBlock : Type where
  phys : ℕ
  aligned : phys % 4096 = 0
  fits : phys + rxBufSize * recvBdCnt ≤ 2 ^ 32

/-- The receive side of the driver's handle, and what it points to -/
structure GemRx : Type where
  rxbd : ℕ → GemBd
  /-- the buffers, from `rxbufs` on -/
  rxbufs : Memory
  rxCi : ℕ
  rxBytes : ℕ

namespace GemRx

/-- `descriptor_init` -/
def descriptorInit (block : RxBlock) : GemRx where
  rxbd i := ⟨block.phys + rxBufSize * i ||| if i = recvBdCnt - 1 then rxBdWrap else 0, 0⟩
  rxbufs _ := 0
  rxCi := 0
  rxBytes := 0

/-- `mac_dataready` -/
def macDataready (rx : GemRx) : ℕ × GemRx :=
  let cur := rx.rxbd rx.rxCi
  if cur.address &&& rxBdOwnership ≠ 0 then
    let rxBytes := cur.flags &&& rxBdLength
    (rxBytes, { rx with rxBytes := rxBytes })
  else (0, rx)

/-- The descriptor goes back to the hardware. -/
def release (rx : GemRx) : GemRx :=
  let cur := rx.rxbd rx.rxCi
  { rx with
    rxCi := if rx.rxCi + 1 = recvBdCnt then 0 else rx.rxCi + 1
    rxbd := Function.update rx.rxbd rx.rxCi
      { cur with address := cur.address &&& wordNot rxBdOwnership } }

/-- `mac_read`: the bytes that are copied -/
def macRead (rx : GemRx) (ulSize pos : ℕ) : List UInt8 × GemRx :=
  let bytes := rx.rxbufs.bytes (rxBufSize * rx.rxCi + pos) ulSize
  let rx := { rx with rxBytes := wordSub rx.rxBytes ulSize }
  (bytes, if rx.rxBytes = 0 then rx.release else rx)

/-- `mac_drop` -/
def macDrop (rx : GemRx) (_ulSize : ℕ) : GemRx := rx

/-- The hardware fills the descriptor `hw`; `status` are the bits of `flags` above the length. -/
def fill (block : RxBlock) (rx : GemRx) (hw : ℕ) (frame : List UInt8) (status : ℕ) : GemRx :=
  let cur := rx.rxbd hw
  { rx with
    rxbufs := rx.rxbufs.write ((cur.address &&& rxBdAddress) - block.phys) frame
    rxbd := Function.update rx.rxbd hw ⟨cur.address ||| rxBdOwnership,
      status * 2 ^ 13 + frame.length⟩ }

end GemRx

/-- A frame that the hardware can deliver -/
structure RxFrame : Type where
  bytes : List UInt8
  pos : 0 < bytes.length
  le : bytes.length ≤ rxBufSize

/-- Where `bt_lwip_process` is, named for what it does next. -/
inductive RxTask : Type where
  /-- not called -/
  | out
  /-- `lwip_receive`: `pfnDataReady` and `pbuf_alloc` -/
  | receive
  /-- `pfnRead` for the rest of the chain, at `pos`, with the bytes read so far -/
  | read (chain : List ℕ) (pos : ℕ) (p : List UInt8)
  /-- `tcpip_input` -/
  | input (p : List UInt8)

/-- The driver, the hardware and the task. -/
structure GemState : Type where
  rx : GemRx
  /-- the descriptor that the hardware fills next -/
  hw : ℕ
  task : RxTask
  /-- the frames that the hardware has put into the ring, in order -/
  delivered : List (List UInt8)
  /-- the packets that were passed to `tcpip_input`, in order -/
  handed : List (List UInt8)
  /-- how many descriptors were given back -/
  released : ℕ
  /-- for each frame that `lwip_receive` found, whether there was a chain for it -/
  available : List Bool

/-- What can happen next. -/
inductive GemAction : Type where
  /-- a frame arrives -/
  | deliver (frame : RxFrame) (status : ℕ)
  /-- `bt_lwip_process` is called -/
  | process
  /-- the task does its next step; if it is to receive a frame, `pbuf_alloc` returns a chain of
  these sizes or none -/
  | go (chain : Option (List ℕ))

namespace GemState

variable (block : RxBlock)

def init : GemState := ⟨.descriptorInit block, 0, .out, [], [], 0, []⟩

/-- The hardware puts a frame into the next descriptor, if that is free. -/
def deliver (s : GemState) (frame : List UInt8) (status : ℕ) : GemState :=
  let cur := s.rx.rxbd s.hw
  if cur.address &&& rxBdOwnership = 0 then
    { s with
      rx := s.rx.fill block s.hw frame status
      hw := if cur.address &&& rxBdWrap ≠ 0 then 0 else s.hw + 1
      delivered := s.delivered ++ [frame] }
  else s

/-- `ullen` of `lwip_receive` -/
def ullen (s : GemState) : ℕ := s.rx.macDataready.1 &&& 0xFFFF

/-- The start of `lwip_receive` -/
def lwipReceive (s : GemState) (chain : Option (List ℕ)) : GemState :=
  let rx := s.rx.macDataready.2
  if s.ullen = 0 then { s with rx := rx, task := .out }
  else
    let s' := { s with available := s.available ++ [chain.isSome] }
    match chain with
    | some sizes => { s' with rx := rx, task := .read sizes 0 [] }
    | none => { s' with rx := rx.macDrop (s.ullen - 4), task := .out }

/-- One call of `pfnRead` -/
def pfnRead (s : GemState) (len : ℕ) (rest : List ℕ) (pos : ℕ) (p : List UInt8) : GemState :=
  let r := s.rx.macRead len pos
  { s with
    rx := r.2
    released := s.released + if wordSub s.rx.rxBytes len = 0 then 1 else 0
    task := .read rest (pos + len) (p ++ r.1) }

/-- One step of `bt_lwip_process`. What it sends is left out here: it does not touch the receive
side. -/
def btLwipProcess (s : GemState) (chain : Option (List ℕ)) : GemState :=
  match s.task with
  | .out => s
  | .receive => s.lwipReceive chain
  | .read [] _ p => { s with task := .input p }
  | .read (len :: rest) pos p => s.pfnRead len rest pos p
  | .input p => { s with handed := s.handed ++ [p], task := .receive }

/-- One step -/
def step (s : GemState) : GemAction → GemState
  | .deliver frame status => s.deliver block frame.bytes status
  | .process => match s.task with
    | .out => { s with task := .receive }
    | _ => s
  | .go chain => s.btLwipProcess chain

/-- The states of the runs whose steps all satisfy `ok`. -/
inductive Run (ok : GemState → GemAction → Prop) : GemState → Prop where
  | nil : Run ok (init block)
  | cons {s : GemState} (run : Run ok s) {a : GemAction} (h : ok s a) : Run ok (s.step block a)

/-- A chain that `pbuf_alloc` returns has the size asked for. -/
def Legal (s : GemState) : GemAction → Prop
  | .go (some sizes) => s.task = .receive → s.ullen ≠ 0 → sizes.sum = s.ullen
  | _ => True

/-- For each frame there is a chain, and it does not end with an empty buffer. -/
def Careful (s : GemState) : GemAction → Prop
  | .go chain => s.task = .receive → s.ullen ≠ 0 →
      ∃ sizes, chain = some sizes ∧ sizes.sum = s.ullen ∧ sizes.getLast? ≠ some 0
  | _ => True

/-- What a descriptor holds -/
def slot (s : GemState) (d : ℕ) : List UInt8 :=
  s.rx.rxbufs.bytes (rxBufSize * d) ((s.rx.rxbd d).flags &&& rxBdLength)

/-- The packet that was read and has not been handed on -/
def inHand (s : GemState) : List (List UInt8) :=
  match s.task with
  | .read [] _ p => [p]
  | .input p => [p]
  | _ => []

/-- A frame is being read. -/
def reading (s : GemState) : ℕ :=
  match s.task with
  | .read (_ :: _) _ _ => 1
  | _ => 0

/-- Of some frames, those that there was a chain for -/
def kept (frames : List (List UInt8)) (available : List Bool) : List (List UInt8) :=
  ((frames.zip available).filter Prod.snd).map Prod.fst

/-- Every frame is consumed or discarded once, in order. -/
structure InOrder (s : GemState) : Prop where
  /-- what was handed on, and what is in hand, are those of the first frames that there was a chain
  for -/
  consumed : s.handed ++ s.inHand = kept (s.delivered.take s.released) s.available
  /-- the descriptor of each frame that was found was given back, once, unless it is being read -/
  given : s.released + s.reading = s.available.length
  /-- `rx_ci` is the descriptor of the first frame that was not consumed -/
  oldest : s.rx.rxCi = s.released % recvBdCnt
  /-- the descriptors that are not the hardware's are those of the frames that were not consumed,
  and hold them -/
  owned : ∀ d < recvBdCnt, (s.rx.rxbd d).address &&& rxBdOwnership ≠ 0 ↔
    ∃ j, s.released ≤ j ∧ j < s.delivered.length ∧ j % recvBdCnt = d
  held : Window recvBdCnt s.slot s.delivered s.released

end GemState

/-! ## Descriptors

The flags of the two words are taken apart here, so that the rest can speak of numbers. -/

section bits

variable {x : ℕ}

/-- The lowest bit of the address word tells whose the descriptor is. -/
theorem land_ownership : x &&& rxBdOwnership ≠ 0 ↔ x % 2 = 1 := by
  have h := land_two_pow_ne_zero (i := 0) (x := x)
  rwa [Nat.pow_zero, Nat.div_one] at h

theorem land_wrap : x &&& rxBdWrap ≠ 0 ↔ x / 2 % 2 = 1 := land_two_pow_ne_zero (i := 1)

/-- The length is the low bits of the status word. -/
theorem land_length (x : ℕ) : x &&& rxBdLength = x % 2 ^ 13 := Nat.and_two_pow_sub_one_eq_mod x 13

/-- The address is the word without the two flags. -/
theorem land_address (hx : x < 2 ^ 32) : x &&& rxBdAddress = x / 4 * 4 := by
  have h := land_highMask (w := 32) (k := 2) (by decide) x
  rwa [Nat.mod_eq_of_lt hx] at h

/-- A descriptor that is given back loses its lowest bit. -/
theorem land_not_ownership (hx : x < 2 ^ 32) : x &&& wordNot rxBdOwnership = x / 2 * 2 := by
  have h := land_highMask (w := 32) (k := 1) (by decide) x
  rwa [Nat.mod_eq_of_lt hx] at h

theorem lor_ownership (hx : x % 2 = 0) : x ||| rxBdOwnership = x + 1 :=
  lor_of_aligned (k := 1) hx (by decide)

end bits

namespace GemState

variable {block : RxBlock} {s : GemState}

/-- What holds of the task. -/
def TaskOk (s : GemState) : Prop :=
  match s.task with
  | .out | .receive => s.handed = s.delivered.take s.released ∧ s.available.length = s.released
  | .read chain pos p =>
    (∃ frame, s.delivered[s.released]? = some frame ∧ pos < frame.length ∧ p = frame.take pos ∧
      chain.sum = frame.length - pos ∧ s.rx.rxBytes = frame.length - pos ∧ chain.getLast? ≠ some 0 ∧
      s.handed = s.delivered.take s.released ∧ s.available.length = s.released + 1) ∨
    chain = [] ∧ s.handed ++ [p] = s.delivered.take s.released ∧ s.available.length = s.released
  | .input p => s.handed ++ [p] = s.delivered.take s.released ∧ s.available.length = s.released

/-- What holds between the steps. -/
structure Ok (block : RxBlock) (s : GemState) : Prop where
  /-- a descriptor leads to its buffer, and the last one says that it is -/
  base : ∀ d < 256, (s.rx.rxbd d).address / 2 * 2 = block.phys + 1536 * d + if d = 255 then 2 else 0
  /-- the descriptors of the frames that have not been given back belong to the driver -/
  owned : ∀ d < 256, (s.rx.rxbd d).address % 2 = 1 ↔ ∃ j, s.released ≤ j ∧ j < s.delivered.length ∧
    j % 256 = d
  /-- no frame is longer than a buffer -/
  small : ∀ d < 256, (s.rx.rxbd d).flags % 2 ^ 13 ≤ 1536
  /-- nor was one that arrived, or an empty one -/
  frames : ∀ f ∈ s.delivered, 0 < f.length ∧ f.length ≤ 1536
  /-- the buffers hold these frames -/
  held : Window 256 s.slot s.delivered s.released
  /-- the hardware is at the descriptor behind the last frame -/
  next : s.hw = s.delivered.length % 256
  /-- the driver at that of the first one it has not given back -/
  oldest : s.rx.rxCi = s.released % 256
  /-- every frame has found a `pbuf` -/
  found : ∀ b ∈ s.available, b = true
  /-- and each place of the task goes with what it knows -/
  task : s.TaskOk

theorem Ok.init : Ok block (init block) := by
  have hphys := block.aligned
  have hword : ∀ d < 256, ((GemRx.descriptorInit block).rxbd d).address =
      block.phys + 1536 * d + if d = 255 then 2 else 0 := by
    intro d hd
    change block.phys + 1536 * d ||| (if d = 255 then 2 else 0) = _
    refine lor_of_aligned (k := 2) (by omega) ?_
    split <;> decide
  refine ⟨fun d hd => ?_, fun d hd => ?_, fun d hd => by change 0 % 2 ^ 13 ≤ 1536; decide,
    fun f hf => absurd hf List.not_mem_nil,
    ⟨Nat.le_refl _, Nat.zero_le _, fun j x _ hj => nomatch hj⟩, rfl, rfl,
    fun b hb => absurd hb List.not_mem_nil, rfl, rfl⟩
  · change ((GemRx.descriptorInit block).rxbd d).address / 2 * 2 = _
    rw [hword d hd]
    split <;> omega
  · change ((GemRx.descriptorInit block).rxbd d).address % 2 = 1 ↔ _
    rw [hword d hd]
    refine iff_of_false (by split <;> omega) ?_
    rintro ⟨j, -, hj, -⟩
    exact absurd hj (Nat.not_lt_zero j)

/-- Addresses are words. -/
theorem Ok.address_lt (h : Ok block s) {d : ℕ} (hd : d < 256) : (s.rx.rxbd d).address < 2 ^ 32 := by
  have hbase := h.base d hd
  have hfits : block.phys + 1536 * 256 ≤ 2 ^ 32 := block.fits
  have haligned := block.aligned
  split_ifs at hbase <;> omega

/-- If there was a chain for each of them, all are kept. -/
theorem kept_eq_self : ∀ {frames : List (List UInt8)} {available : List Bool},
    (∀ b ∈ available, b = true) →
    frames.length ≤ available.length → kept frames available = frames
  | [], _, _, _ => rfl
  | frame :: frames, [], _, hle => absurd hle (Nat.not_succ_le_zero _)
  | frame :: frames, b :: available, hall, hle => by
    obtain rfl := hall b List.mem_cons_self
    have ih := kept_eq_self (fun b hb => hall b (List.mem_cons_of_mem _ hb))
      (Nat.le_of_succ_le_succ hle)
    unfold kept at ih ⊢
    rw [List.zip_cons_cons, List.filter_cons_of_pos rfl, List.map_cons, ih]

theorem Ok.inOrder (h : Ok block s) : s.InOrder := by
  have htask := h.task
  obtain ⟨hconsumed, hgiven⟩ : s.handed ++ s.inHand = s.delivered.take s.released ∧
      s.released + s.reading = s.available.length := by
    unfold TaskOk at htask
    unfold inHand reading
    cases hs : s.task with
    | out | receive =>
      rw [hs] at htask
      exact ⟨(List.append_nil _).trans htask.1, htask.2.symm⟩
    | read chain pos p =>
      rw [hs] at htask
      cases chain with
      | nil =>
        rcases htask with ⟨frame, -, hpos, -, hsum, -⟩ | ⟨-, hdone, hlen⟩
        · rw [List.sum_nil] at hsum
          omega
        · exact ⟨hdone, hlen.symm⟩
      | cons len rest =>
        rcases htask with ⟨frame, -, -, -, -, -, -, hhanded, hlen⟩ | ⟨hnil, -⟩
        · exact ⟨(List.append_nil _).trans hhanded, hlen.symm⟩
        · exact absurd hnil (List.cons_ne_nil _ _)
    | input p =>
      rw [hs] at htask
      exact ⟨htask.1, htask.2.symm⟩
  refine ⟨?_, hgiven, h.oldest, fun d hd => land_ownership.trans (h.owned d hd), h.held⟩
  rw [hconsumed, kept_eq_self h.found]
  rw [List.length_take]
  omega

/-- A frame that arrives changes nothing for the task. -/
theorem TaskOk.append {frame : List UInt8} {rx : GemRx} {hw : ℕ} (h : s.TaskOk)
    (hle : s.released ≤ s.delivered.length) (hrx : rx.rxBytes = s.rx.rxBytes) :
    TaskOk { s with rx := rx, hw := hw, delivered := s.delivered ++ [frame] } := by
  have htake : (s.delivered ++ [frame]).take s.released = s.delivered.take s.released :=
    List.take_append_of_le_length hle
  unfold TaskOk at h ⊢
  simp only [htake, hrx]
  cases hs : s.task with
  | out | receive | input p =>
    rw [hs] at h
    exact h
  | read chain pos p =>
    rw [hs] at h
    rcases h with ⟨f, hf, hrest⟩ | hdone
    · have hlt := (List.getElem?_eq_some_iff.mp hf).1
      exact .inl ⟨f, (List.getElem?_append_left hlt).trans hf, hrest⟩
    · exact .inr hdone

/-- What the hardware writes is in the descriptor it fills, and in no other. -/
theorem Ok.slot_fill (h : Ok block s) {d : ℕ} (hd : d < 256) {frame : List UInt8}
    (hle : frame.length ≤ 1536) (status : ℕ) {hw : ℕ} (hhw : hw < 256) :
    slot { s with rx := s.rx.fill block hw frame status } d =
      Function.update s.slot hw frame d := by
  have hoff : ((s.rx.rxbd hw).address &&& rxBdAddress) - block.phys = 1536 * hw := by
    rw [land_address (h.address_lt hhw)]
    have hbase := h.base hw hhw
    have haligned := block.aligned
    split_ifs at hbase <;> omega
  unfold slot GemRx.fill
  simp only [hoff, rxBufSize]
  by_cases hdw : d = hw
  · subst hdw
    have hflags : status * 2 ^ 13 + frame.length &&& rxBdLength = frame.length := by
      rw [land_length]
      omega
    rw [Function.update_self, Function.update_self]
    change (s.rx.rxbufs.write (1536 * d) frame).bytes (1536 * d) (_ &&& rxBdLength) = frame
    rw [hflags]
    exact Memory.bytes_write_self _ _ _
  · have hsmall := h.small d hd
    rw [Function.update_of_ne hdw, Function.update_of_ne hdw]
    refine Memory.bytes_write_of_out ?_
    rw [land_length]
    omega

/-- The hardware keeps it when a frame comes in. -/
theorem Ok.deliver (h : Ok block s) {frame : List UInt8} (hpos : 0 < frame.length)
    (hle : frame.length ≤ 1536) (status : ℕ) : Ok block (s.deliver block frame status) := by
  have hhw : s.hw < 256 := by
    rw [h.next]
    exact Nat.mod_lt _ (by decide)
  simp only [GemState.deliver]
  by_cases hfree : (s.rx.rxbd s.hw).address &&& rxBdOwnership = 0
  swap
  · rw [if_neg hfree]
    exact h
  · rw [if_pos hfree]
    have hclear : (s.rx.rxbd s.hw).address % 2 = 0 := by
      have := mt land_ownership.mpr (not_not.mpr hfree)
      omega
    have hnot : ¬∃ j, s.released ≤ j ∧ j < s.delivered.length ∧ j % 256 = s.hw := by
      rw [← h.owned s.hw hhw]
      omega
    -- a descriptor that is free is not that of a frame in the ring, so the ring is not full
    have hroom : s.delivered.length < s.released + 256 := by
      by_contra hfull
      refine hnot ⟨s.released, le_refl _, by omega, ?_⟩
      have hfits := h.held.fits
      rw [h.next, show s.delivered.length = s.released + 256 by omega, Nat.add_mod_right]
    have haddr : (s.rx.rxbd s.hw).address ||| rxBdOwnership = (s.rx.rxbd s.hw).address + 1 :=
      lor_ownership hclear
    have hbase := h.base s.hw hhw
    have haligned := block.aligned
    refine ⟨fun d hd => ?_, fun d hd => ?_, fun d hd => ?_, fun f hf => ?_, ?_, ?_, h.oldest,
      h.found, ?_⟩
    · change (Function.update s.rx.rxbd s.hw _ d).address / 2 * 2 = _
      by_cases hdw : d = s.hw
      · subst hdw
        rw [Function.update_self, ← hbase]
        simp only [haddr]
        omega
      · rw [Function.update_of_ne hdw]
        exact h.base d hd
    · change (Function.update s.rx.rxbd s.hw _ d).address % 2 = 1 ↔
        ∃ j, s.released ≤ j ∧ j < (s.delivered ++ [frame]).length ∧ j % 256 = d
      rw [List.length_append, List.length_singleton]
      by_cases hdw : d = s.hw
      · rw [hdw, Function.update_self]
        simp only [haddr]
        exact iff_of_true
          (by omega) ⟨s.delivered.length, h.held.le, Nat.lt_succ_self _, h.next.symm⟩
      · rw [Function.update_of_ne hdw, h.owned d hd]
        constructor
        · rintro ⟨j, hlo, hhi, hj⟩
          exact ⟨j, hlo, Nat.lt_succ_of_lt hhi, hj⟩
        · rintro ⟨j, hlo, hhi, hj⟩
          rcases Nat.lt_succ_iff_lt_or_eq.mp hhi with hhi | rfl
          · exact ⟨j, hlo, hhi, hj⟩
          · exact absurd (hj.symm.trans h.next.symm) hdw
    · change (Function.update s.rx.rxbd s.hw _ d).flags % 2 ^ 13 ≤ 1536
      by_cases hdw : d = s.hw
      · rw [hdw, Function.update_self]
        simp only
        omega
      · rw [Function.update_of_ne hdw]
        exact h.small d hd
    · rcases List.mem_append.mp hf with hf | hf
      · exact h.frames f hf
      · rw [List.mem_singleton.mp hf]
        exact ⟨hpos, hle⟩
    · have hpush := h.held.push hroom frame
      rw [← h.next] at hpush
      exact hpush.congr fun d hd => h.slot_fill hd hle status hhw
    · change (if _ then 0 else s.hw + 1) = (s.delivered ++ [frame]).length % 256
      rw [List.length_append, List.length_singleton]
      have hwrap : (s.rx.rxbd s.hw).address &&& rxBdWrap ≠ 0 ↔ s.hw = 255 := by
        rw [land_wrap]
        split_ifs at hbase <;> omega
      have hnext := h.next
      by_cases hlast : s.hw = 255
      · rw [if_pos (hwrap.mpr hlast)]
        omega
      · rw [if_neg (mt hwrap.mp hlast)]
        omega
    · exact h.task.append h.held.le rfl

/-- `mac_dataready` tells whether the ring holds a frame, and its length. -/
theorem Ok.dataready (h : Ok block s) :
    s.released = s.delivered.length ∧ s.ullen = 0 ∧ s.rx.macDataready = (0, s.rx) ∨
    ∃ frame, s.delivered[s.released]? = some frame ∧ s.slot s.rx.rxCi = frame ∧ 0 < frame.length ∧
      s.ullen = frame.length ∧ s.rx.macDataready =
      (frame.length, { s.rx with rxBytes := frame.length }) := by
  have hci : s.rx.rxCi < 256 := by
    rw [h.oldest]
    exact Nat.mod_lt _ (by decide)
  have howned := h.owned s.rx.rxCi hci
  by_cases hready : (s.rx.rxbd s.rx.rxCi).address &&& rxBdOwnership ≠ 0
  · right
    obtain ⟨j, hlo, hhi, -⟩ := howned.mp (land_ownership.mp hready)
    have hlt : s.released < s.delivered.length := hlo.trans_lt hhi
    have hfront := h.held.front hlt
    rw [← h.oldest] at hfront
    obtain ⟨hpos, hle⟩ := h.frames _ (List.mem_of_getElem? hfront)
    have hlen : (s.slot s.rx.rxCi).length = (s.rx.rxbd s.rx.rxCi).flags &&& rxBdLength :=
      Memory.length_bytes _ _ _
    have hcall : s.rx.macDataready = ((s.slot s.rx.rxCi).length,
        { s.rx with rxBytes := (s.slot s.rx.rxCi).length }) := by
      simp only [GemRx.macDataready, if_pos hready, hlen]
    refine ⟨_, hfront, rfl, hpos, ?_, hcall⟩
    rw [ullen, hcall]
    have hmask := Nat.and_two_pow_sub_one_eq_mod (s.slot s.rx.rxCi).length 16
    exact hmask.trans (Nat.mod_eq_of_lt (by omega))
  · left
    have hcall : s.rx.macDataready = (0, s.rx) := by simp only [GemRx.macDataready, if_neg hready]
    refine ⟨?_, by rw [ullen, hcall]; exact Nat.zero_and _, hcall⟩
    by_contra hne
    refine hready (land_ownership.mpr (howned.mpr ⟨s.released, le_refl _, ?_, h.oldest.symm⟩))
    exact lt_of_le_of_ne h.held.le hne

/-- A step that leaves the ring as it is -/
theorem Ok.of_task (h : Ok block s) {rxBytes : ℕ} {task : RxTask} {handed : List (List UInt8)}
    {available : List Bool} (hfound : ∀ b ∈ available, b = true)
    (ht : TaskOk { s with
      rx := { s.rx with rxBytes := rxBytes }
      task := task
      handed := handed
      available := available }) :
    Ok block { s with
      rx := { s.rx with rxBytes := rxBytes }
      task := task
      handed := handed
      available := available } :=
  ⟨h.base, h.owned, h.small, h.frames, h.held, h.next, h.oldest, hfound, ht⟩

/-- The task keeps it when it takes the next frame. -/
theorem Ok.lwipReceive (h : Ok block s) (hs : s.task = .receive) {chain : Option (List ℕ)}
    (hc : s.Careful (.go chain)) : Ok block (s.lwipReceive chain) := by
  have htask := h.task
  rw [TaskOk, hs] at htask
  unfold GemState.lwipReceive
  rcases h.dataready with ⟨-, hlen, hcall⟩ | ⟨frame, hframe, -, hpos, hlen, hcall⟩
  · rw [hcall, if_pos hlen]
    exact h.of_task h.found htask
  · obtain ⟨sizes, rfl, hsum, hlast⟩ := hc hs (hlen ▸ hpos.ne')
    rw [hcall, if_neg (hlen ▸ hpos.ne')]
    refine h.of_task (fun b hb => ?_)
      (.inl ⟨frame, hframe, hpos, rfl, hsum.trans hlen, rfl, hlast, htask.1, ?_⟩)
    · rcases List.mem_append.mp hb with hb | hb
      · exact h.found b hb
      · exact List.mem_singleton.mp hb
    · rw [List.length_append, htask.2]
      rfl

/-- Sizes that add up to nothing and do not end with an empty one are none at all. -/
theorem eq_nil_of_sum_eq_zero {sizes : List ℕ} (hsum : sizes.sum = 0)
    (hlast : sizes.getLast? ≠ some 0) : sizes = [] := by
  by_contra hne
  refine hlast ?_
  rw [List.getLast?_eq_some_getLast hne]
  exact congrArg some (List.sum_eq_zero_iff.mp hsum _ (List.getLast_mem hne))

/-- The descriptor of the first frame goes back. -/
theorem Ok.release (h : Ok block s) {frame : List UInt8} {rxBytes : ℕ}
    (hframe : s.delivered[s.released]? = some frame)
    (hhanded : s.handed = s.delivered.take s.released) (hlen : s.available.length = s.released + 1)
    (pos : ℕ) :
    Ok block { s with
      rx := GemRx.release { s.rx with rxBytes := rxBytes }
      released := s.released + 1
      task := .read [] pos frame } := by
  have hci : s.rx.rxCi < 256 := by
    rw [h.oldest]
    exact Nat.mod_lt _ (by decide)
  have hlt : s.released < s.delivered.length := (List.getElem?_eq_some_iff.mp hframe).1
  have haddr := land_not_ownership (h.address_lt hci)
  refine ⟨fun d hd => ?_, fun d hd => ?_, fun d hd => ?_, h.frames, ?_, h.next, ?_, h.found,
    .inr ⟨rfl, ?_, hlen⟩⟩
  · change (Function.update s.rx.rxbd s.rx.rxCi _ d).address / 2 * 2 = _
    by_cases hdc : d = s.rx.rxCi
    · rw [hdc, Function.update_self, ← h.base _ hci]
      simp only [haddr]
      omega
    · rw [Function.update_of_ne hdc]
      exact h.base d hd
  · change (Function.update s.rx.rxbd s.rx.rxCi _ d).address % 2 = 1 ↔
      ∃ j, s.released + 1 ≤ j ∧ j < s.delivered.length ∧ j % 256 = d
    by_cases hdc : d = s.rx.rxCi
    · rw [hdc, Function.update_self]
      simp only [haddr]
      refine iff_of_false (by omega) ?_
      rintro ⟨j, hlo, hhi, hj⟩
      have hfits := h.held.fits
      exact absurd (h.oldest.symm.trans hj.symm) (mod_ne_of_lt hlo (by omega))
    · rw [Function.update_of_ne hdc, h.owned d hd]
      constructor
      · rintro ⟨j, hlo, hhi, hj⟩
        rcases Nat.lt_or_eq_of_le hlo with hlo | rfl
        · exact ⟨j, hlo, hhi, hj⟩
        · exact absurd (hj.symm.trans h.oldest.symm) hdc
      · rintro ⟨j, hlo, hhi, hj⟩
        exact ⟨j, Nat.le_of_succ_le hlo, hhi, hj⟩
  · change (Function.update s.rx.rxbd s.rx.rxCi _ d).flags % 2 ^ 13 ≤ 1536
    by_cases hdc : d = s.rx.rxCi
    · rw [hdc, Function.update_self]
      exact h.small _ hci
    · rw [Function.update_of_ne hdc]
      exact h.small d hd
  · refine (h.held.pop hlt).congr fun d hd => ?_
    change s.rx.rxbufs.bytes (1536 * d) ((Function.update s.rx.rxbd s.rx.rxCi _ d).flags &&&
        rxBdLength) = s.slot d
    by_cases hdc : d = s.rx.rxCi
    · rw [hdc, Function.update_self]
      rfl
    · rw [Function.update_of_ne hdc]
      rfl
  · change (if s.rx.rxCi + 1 = 256 then 0 else s.rx.rxCi + 1) = (s.released + 1) % 256
    have hold := h.oldest
    split_ifs <;> omega
  · rw [List.take_add_one, hframe, hhanded]
    rfl

/-- It keeps it with every buffer that it copies to. -/
theorem Ok.pfnRead (h : Ok block s) {len pos : ℕ} {rest : List ℕ} {p : List UInt8}
    (hs : s.task = .read (len :: rest) pos p) : Ok block (s.pfnRead len rest pos p) := by
  have htask := h.task
  rw [TaskOk, hs] at htask
  rcases htask with ⟨frame, hframe, hpos, hp, hsum, hbytes, hlast, hhanded, hlen⟩ | ⟨hnil, -⟩
  swap
  · exact absurd hnil (List.cons_ne_nil _ _)
  have hlt : s.released < s.delivered.length := (List.getElem?_eq_some_iff.mp hframe).1
  have hslot : s.slot s.rx.rxCi = frame := by
    rw [h.oldest]
    exact h.held.slot _ _ (le_refl _) hframe
  have hle := (h.frames frame (List.mem_of_getElem? hframe)).2
  rw [List.sum_cons] at hsum
  -- the piece that is read is the next one of the frame
  have hpiece : p ++ s.rx.rxbufs.bytes (1536 * s.rx.rxCi + pos) len = frame.take (pos + len) := by
    have hall : frame = s.rx.rxbufs.bytes (1536 * s.rx.rxCi) (pos + len + rest.sum) := by
      have hflags : frame.length = (s.rx.rxbd s.rx.rxCi).flags &&& rxBdLength := by
        rw [← hslot]
        exact Memory.length_bytes _ _ _
      rw [show pos + len + rest.sum = frame.length by omega, hflags]
      exact hslot.symm
    have hfirst : frame.take pos = s.rx.rxbufs.bytes (1536 * s.rx.rxCi) pos := by
      rw [hall, Nat.add_assoc, Memory.bytes_append]
      exact List.take_left' (Memory.length_bytes _ _ _)
    have hboth : frame.take (pos + len) = s.rx.rxbufs.bytes (1536 * s.rx.rxCi) (pos + len) := by
      rw [hall, Memory.bytes_append]
      exact List.take_left' (Memory.length_bytes _ _ _)
    rw [hp, hfirst, hboth, Memory.bytes_append]
  have hcount : wordSub s.rx.rxBytes len = rest.sum := by
    rw [wordSub_of_le (by omega) (by omega)]
    omega
  simp only [GemState.pfnRead, GemRx.macRead, hcount, rxBufSize, hpiece]
  by_cases hzero : rest.sum = 0
  · -- the end of the frame
    have hrest : rest = [] := by
      cases rest with
      | nil => rfl
      | cons len' rest' =>
        rw [List.getLast?_cons_cons] at hlast
        exact eq_nil_of_sum_eq_zero hzero hlast
    rw [if_pos hzero, if_pos hzero, hrest, List.take_of_length_le (by omega)]
    exact h.release hframe hhanded hlen _
  · rw [if_neg hzero, if_neg hzero]
    refine h.of_task h.found (.inl ⟨frame, hframe, by omega, rfl, by omega, ?_, ?_, hhanded, hlen⟩)
    · change rest.sum = frame.length - (pos + len)
      omega
    · cases rest with
      | nil => exact absurd rfl hzero
      | cons len' rest' => rwa [List.getLast?_cons_cons] at hlast

theorem Ok.btLwipProcess (h : Ok block s) {chain : Option (List ℕ)} (hc : s.Careful (.go chain)) :
    Ok block (s.btLwipProcess chain) := by
  have htask := h.task
  unfold GemState.btLwipProcess
  cases hs : s.task with
  | out => exact h
  | receive => exact h.lwipReceive hs hc
  | read chain pos p =>
    cases chain with
    | nil =>
      rw [TaskOk, hs] at htask
      refine h.of_task h.found ?_
      rcases htask with ⟨frame, -, hpos, -, hsum, -⟩ | ⟨-, hdone⟩
      · rw [List.sum_nil] at hsum
        omega
      · exact hdone
    | cons len rest => exact h.pfnRead hs
  | input p =>
    rw [TaskOk, hs] at htask
    exact h.of_task h.found htask

theorem Ok.step (h : Ok block s) (a : GemAction) (hc : s.Careful a) :
    Ok block (s.step block a) := by
  cases a with
  | deliver frame status => exact h.deliver frame.pos frame.le status
  | process =>
    simp only [GemState.step]
    split
    · rename_i hs
      have htask := h.task
      rw [TaskOk, hs] at htask
      exact h.of_task h.found htask
    · exact h
  | go chain => exact h.btLwipProcess hc

theorem Run.ok (run : Run block Careful s) : Ok block s := by
  induction run with
  | nil => exact Ok.init
  | cons _ hc ih => exact ih.step _ hc

end GemState

open GemState

/-- **When every frame is consumed once, in order.** Frames of any sizes arrive whenever the ring
has room, at any time; the task reads each in pieces of any sizes. If `pbuf_alloc` returns a chain
for every frame, and none that ends with an empty buffer, then in every state the frames handed on
are the first ones that arrived, byte for byte and in order, the descriptor of each was given back
once, and `rx_ci` is the descriptor of the first of the others; and when the loop ends, there is no
other. -/
theorem gem_receives_in_order {block : RxBlock} {s : GemState} (run : Run block Careful s) :
    s.InOrder ∧ ∀ chain, s.task = .receive → (s.step block (.go chain)).task = .out →
      s.Careful (.go chain) →
      s.handed = s.delivered := by
  have h := run.ok
  refine ⟨h.inOrder, fun chain hs hout hc => ?_⟩
  have htask := h.task
  rw [TaskOk, hs] at htask
  simp only [step, btLwipProcess, hs] at hout
  rcases h.dataready with ⟨hall, -⟩ | ⟨frame, -, -, hpos, hlen, -⟩
  · rw [htask.1, hall, List.take_length]
  · obtain ⟨sizes, rfl, -⟩ := hc hs (hlen ▸ hpos.ne')
    rw [lwipReceive, if_neg (hlen ▸ hpos.ne')] at hout
    exact absurd hout (by simp)

/-- Where the buffers are in the two runs below -/
def lowBlock : RxBlock := ⟨0x100000, by decide, by decide⟩

/-- Two bytes arrive and are read into a chain of two buffers. -/
theorem gem_receives_in_order_one : ∃ s, Run lowBlock Careful s ∧ s.handed = [[1, 2]] ∧
    s.InOrder := by
  have h₁ : Run lowBlock Careful
      ((init lowBlock).step lowBlock (.deliver ⟨[1, 2], by decide, by decide⟩ 0)) :=
    Run.nil.cons trivial
  have h₂ := h₁.cons (a := .process) trivial
  have h₃ := h₂.cons (a := .go (some [1, 1])) fun _ _ => ⟨[1, 1], rfl, by decide, by decide⟩
  have h₄ := h₃.cons (a := .go none) fun hs => nomatch hs
  have h₅ := h₄.cons (a := .go none) fun hs => nomatch hs
  have h₆ := h₅.cons (a := .go none) fun hs => nomatch hs
  have h₇ := h₆.cons (a := .go none) fun hs => nomatch hs
  exact ⟨_, h₇, by decide, (gem_receives_in_order h₇).1⟩

/-- There is no chain for a frame, and it should be dropped: but its descriptor is not given back.
-/
theorem gem_keeps_dropped_frame :
    let s := [.deliver ⟨[1, 2], by decide, by decide⟩ 0, .process, .go none].foldl
      (step lowBlock) (init lowBlock)
    Run lowBlock Legal s ∧ ¬s.InOrder := by
  have h₁ : Run lowBlock Legal
      ((init lowBlock).step lowBlock
        (.deliver ⟨[1, 2], by decide, by decide⟩ 0)) := Run.nil.cons trivial
  have h₂ := (h₁.cons (a := .process) trivial).cons (a := .go none) trivial
  exact ⟨h₂, fun hordered => absurd hordered.given (by decide)⟩

end BitThunder
