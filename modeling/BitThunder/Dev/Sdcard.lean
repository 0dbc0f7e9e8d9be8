import BitThunder.Lib.Memory
import BitThunder.Lib.Traced
import BitThunder.Mm.Defs

/-!
# Transfers of an SD card

`sdcard_blockread` and `sdcard_blockwrite` of `drivers/mmc/sdcard.c`. Both select the card, send it
commands and move the data; a read tries four times. What the operations of the host answer is a
parameter, one set of answers for each round; what is asked of the host is the trace of the run.

* `sdcard_transfers_iff`: when a transfer deselects the card and is one of all blocks, or fails with
  an error;
* `sdcard_keeps_selected`: a card that is taken out stays selected.

The code is written in a monad with a trace. The host's answers are data, one set for each round,
and the trace says what was asked of it, so that a property of the calls is a property of the list
of events. `During` is the observation that all that happens between selecting and deselecting a
card is about one command; how often the card was selected can therefore be counted at the two ends.

Each part of a round has a lemma that says when it goes on, and that otherwise what it ends with is
an error or is passed over. The loop of a read is a recursion over at most four rounds, and the
condition (`ReadCompletes`) has the same recursion.
-/

namespace BitThunder

/-- `ulResponseType` -/
inductive SdResponseType : Type where
  | r1 | r1b | r2
  deriving DecidableEq

/-- `MMC_COMMAND`, without the response -/
structure MmcCommand : Type where
  opcode : ℕ
  arg : ℕ
  bCRC : Bool
  bIsData : Bool
  ulResponseType : SdResponseType
  ulBlocks : ℕ
  bReadNWrite : Bool
  deriving DecidableEq

/-- The calls of the host's operations -/
inductive SdEvent : Type where
  | select
  | deselect
  | request (oCommand : MmcCommand)
  | read (ulBlocks : ℕ)
  | write (ulBlocks : ℕ)
  deriving DecidableEq

/-- What `pfnRequest` returns, `BT_ERR_NONE` or an error with its sign, and `response[0]` after it
-/
structure SdAnswer : Type where
  error : ℤ
  response : ℕ
  error_le : error ≤ 0

/-- What the host answers in a round -/
structure SdRound : Type where
  /-- to `SEND_STATUS` -/
  status : SdAnswer
  /-- to the command that is to end a transfer, and the status behind it -/
  stop : SdAnswer
  again : SdAnswer
  /-- to the command for the transfer -/
  command : SdAnswer
  /-- what `pfnRead` or `pfnWrite` returns; `BT_s32` -/
  count : ℤ
  count_lt : count < 2 ^ 31
  /-- what the card sends -/
  data : Memory
  /-- how many blocks of it are in the buffer after an error -/
  moved : ℕ
  /-- to the command that ends the transfer -/
  finish : SdAnswer

/-- `MMC_HOST`: which operations there are, and what is known of the card -/
structure MmcHost : Type where
  /-- `BT_MMC_SPI_MODE` -/
  spiMode : Bool
  pfnSelect : Bool
  pfnDeselect : Bool
  rca : ℕ
  bSDHC : Bool

/-- How a round ends: with `return`, or with what `pfnRead` said -/
inductive SdEnd : Type where
  | returned (error : ℤ)
  | read (slRead : ℤ)

/-- `(ulStatus >> 9) & 0xF` -/
def sdState (ulStatus : ℕ) : ℕ := ulStatus >>> 9 &&& 0xF

/-- `BT_ERR_GENERIC` as `BT_s32` -/
def slErrGeneric : ℤ := toS32 errGeneric

namespace MmcHost

variable (h : MmcHost)

/-- `CMD13` -/
def sendStatus (oCommand : MmcCommand) : MmcCommand :=
  { oCommand with
    opcode := 13, arg := h.rca <<< 16 % 2 ^ 32, bCRC := true, bIsData := false
    ulResponseType := if h.spiMode then .r2 else .r1 }

/-- The first part of a round: the card is asked for its state, and a transfer that it is in is
ended. `early` is what an error of the status leads to. -/
def ready (a : SdRound) (early : ℤ → Option ℤ) (oCommand : MmcCommand) :
    Traced SdEvent (Option ℤ × MmcCommand) := do
  if h.spiMode then return (none, oCommand)
  else
    let oCommand := h.sendStatus oCommand
    Traced.emit (.request oCommand)
    match if a.status.error ≠ 0 then early a.status.error else none with
    | some e => return (some e, oCommand)
    | none =>
      if sdState a.status.response = 5 then
        let oCommand := { oCommand with
          opcode := 12, arg := 0, bCRC := true, ulResponseType := .r1b, bIsData := false }
        Traced.emit (.request oCommand)
        if a.stop.error ≠ 0 then return (some a.stop.error, oCommand)
        else
          let oCommand := h.sendStatus oCommand
          Traced.emit (.request oCommand)
          if a.again.error ≠ 0 then return (some a.again.error, oCommand)
          else return (none, oCommand)
      else return (none, oCommand)

/-- The response to the command for a transfer; in SPI mode one bit of it counts. -/
def response (a : SdRound) : ℕ := if h.spiMode ∧ a.command.response &&& 0x01 = 0 then 0x900
    else a.command.response

/-- The second part: the command for the transfer -/
def start (a : SdRound) (early : ℤ → Option ℤ) (oCommand : MmcCommand) :
    Traced SdEvent (Option ℤ) := do
  Traced.emit (.request oCommand)
  match if a.command.error ≠ 0 then early a.command.error else none with
  | some e => return some e
  | none => return if h.response a ≠ 0x900 then some slErrGeneric else none

/-- The address of a block on the card -/
def address (ulBlock : ℕ) : ℕ := if h.bSDHC then ulBlock else ulBlock * 512 % 2 ^ 32

/-- `CMD18`, or `CMD17` -/
def readCommand (ulBlock ulCount : ℕ) : MmcCommand where
  opcode := if h.spiMode ∧ ulCount = 1 then 17 else 18
  arg := h.address ulBlock
  bCRC := false
  bIsData := true
  ulResponseType := .r1
  ulBlocks := ulCount
  bReadNWrite := true

/-- `CMD25` -/
def writeCommand (ulBlock ulCount : ℕ) : MmcCommand where
  opcode := 25
  arg := h.address ulBlock
  bCRC := false
  bIsData := true
  ulResponseType := .r1
  ulBlocks := ulCount
  bReadNWrite := false

/-- An error in a read is passed over three times. -/
def readEarly (nlRetryCount : ℕ) (_ : ℤ) : Option ℤ :=
  if nlRetryCount ≥ 3 then some slErrGeneric else none

/-- The buffer after `pfnRead` -/
def fill (a : SdRound) (pBuffer : Memory) : Memory :=
  pBuffer.overlay 0 (512 * if 0 ≤ a.count then a.count.toNat else a.moved) a.data

/-- A round of the loop -/
def readRound (a : SdRound) (ulBlock ulCount nlRetryCount : ℕ) (oCommand : MmcCommand)
    (pBuffer : Memory) :
    Traced SdEvent (SdEnd × MmcCommand × Memory) := do
  match ← h.ready a (readEarly nlRetryCount) oCommand with
  | (some e, oCommand) => return (.returned e, oCommand, pBuffer)
  | (none, _) =>
    let oCommand := h.readCommand ulBlock ulCount
    match ← h.start a (readEarly nlRetryCount) oCommand with
    | some e => return (.returned e, oCommand, pBuffer)
    | none =>
      Traced.emit (.read ulCount)
      let pBuffer := fill a pBuffer
      if h.spiMode ∧ ulCount ≠ 1 then
        let oCommand := { oCommand with opcode := 12, bCRC := false, ulResponseType := .r1b }
        Traced.emit (.request oCommand)
        match if a.finish.error ≠ 0 then readEarly nlRetryCount a.finish.error else none with
        | some e => return (.returned e, oCommand, pBuffer)
        | none => return (.read a.count, oCommand, pBuffer)
      else return (.read a.count, oCommand, pBuffer)

/-- `slRead == ulCount || slRead < 0`, compared as `BT_u32` -/
def readEnds (slRead : ℤ) (ulCount : ℕ) : Prop := slRead % 2 ^ 32 = ulCount ∨ slRead < 0

instance (slRead : ℤ) (ulCount : ℕ) : Decidable (readEnds slRead ulCount) :=
  inferInstanceAs (Decidable (_ ∨ _))

/-- The loop -/
def readLoop (rounds : ℕ → SdRound) (ulBlock ulCount nlRetryCount : ℕ) (oCommand : MmcCommand)
    (pBuffer : Memory) :
    Traced SdEvent (SdEnd × Memory) := do
  match ← h.readRound (rounds nlRetryCount) ulBlock ulCount nlRetryCount oCommand pBuffer with
  | (.returned e, _, pBuffer) => return (.returned e, pBuffer)
  | (.read slRead, oCommand, pBuffer) =>
    if readEnds slRead ulCount then return (.read slRead, pBuffer)
    else if hretry : nlRetryCount ≥ 3 then return (.returned slErrGeneric, pBuffer)
    else readLoop rounds ulBlock ulCount (nlRetryCount + 1) oCommand pBuffer
termination_by 3 - nlRetryCount

/-- Is there no card? -/
def absent : Prop := h.rca = 0 ∧ h.spiMode = false

instance : Decidable h.absent := inferInstanceAs (Decidable (_ ∧ _))

/-- An operation that need not be there -/
def ifPresent (op : Bool) (e : SdEvent) : Traced SdEvent Unit :=
  if op then Traced.emit e else return ()

/-- `sdcard_blockread`: what it returns, and the buffer. `oCommand` is what is on the stack. -/
def sdcardBlockread (rounds : ℕ → SdRound) (ulBlock ulCount : ℕ) (oCommand : MmcCommand)
    (pBuffer : Memory) :
    Traced SdEvent (ℤ × Memory) := do
  if h.absent then return (slErrGeneric, pBuffer)
  else
    ifPresent h.pfnSelect .select
    match ← h.readLoop rounds ulBlock ulCount 0 oCommand pBuffer with
    | (.returned e, pBuffer) => return (e, pBuffer)
    | (.read slRead, pBuffer) =>
      ifPresent h.pfnDeselect .deselect
      return (slRead, pBuffer)

/-- `sdcard_blockwrite` -/
def sdcardBlockwrite (a : SdRound) (ulBlock ulCount : ℕ) (oCommand : MmcCommand) :
    Traced SdEvent ℤ := do
  if h.absent then return slErrGeneric
  else
    ifPresent h.pfnSelect .select
    match ← h.ready a some oCommand with
    | (some e, _) => return e
    | (none, _) =>
      match ← h.start a some (h.writeCommand ulBlock ulCount) with
      | some e => return e
      | none =>
        Traced.emit (.write ulCount)
        ifPresent h.pfnDeselect .deselect
        return a.count

end MmcHost

/-! ## What is asked of them

The events of a transfer are counted at both ends, and its result is compared with what the host has
moved. -/

/-- The card is deselected as often as it was selected. -/
def SdBalanced (events : List SdEvent) : Prop := events.count .select = events.count .deselect

/-- A read is balanced, and all blocks are there, from one transfer, or there is an error. -/
structure SdReadOk (rounds : ℕ → SdRound) (ulCount : ℕ) (run : Traced SdEvent (ℤ × Memory)) :
    Prop where
  /-- what was selected and enabled is given back -/
  balanced : SdBalanced run.events
  /-- an error, or all blocks, as one round has read them -/
  result : run.val.1 < 0 ∨ run.val.1 = ulCount ∧
    ∃ i, (rounds i).count = ulCount ∧ ∀ x < 512 * ulCount, run.val.2 x = (rounds i).data x

/-- A write is balanced, and all blocks were taken, or there is an error. -/
structure SdWriteOk (a : SdRound) (ulCount : ℕ) (run : Traced SdEvent ℤ) : Prop where
  /-- what was selected and enabled is given back -/
  balanced : SdBalanced run.events
  /-- an error, or all blocks -/
  result : run.val < 0 ∨ run.val = ulCount ∧ a.count = ulCount

/-! ## When they do that

The condition is one on the answers, round by round, and has the shape of the loop. -/

namespace MmcHost

variable (h : MmcHost)

/-- No answer in the round leads to an early `return`; `lenient` is whether an error to a command is
passed over. -/
structure RoundPasses (a : SdRound) (lenient : Prop) : Prop where
  /-- the status of the card was read, or it does not matter this time -/
  status : h.spiMode = false → a.status.error = 0 ∨ lenient
  /-- a card that was still sending has been stopped -/
  recovers : h.spiMode = false → sdState a.status.response = 5 →
    a.stop.error = 0 ∧ a.again.error = 0
  /-- the command was taken, or it does not matter this time -/
  command : a.command.error = 0 ∨ lenient
  /-- the card is ready for data -/
  response : h.response a = 0x900

/-- The same of a round of a read, which ends the transfer itself -/
structure ReadPasses (a : SdRound) (ulCount nlRetryCount : ℕ) : Prop where
  /-- the command comes through -/
  passes : h.RoundPasses a (nlRetryCount < 3)
  /-- the transfer of several blocks was stopped -/
  finish : h.spiMode = true → ulCount ≠ 1 → a.finish.error = 0 ∨ nlRetryCount < 3

/-- From round `i` on, the read comes to a round that moves all blocks or fails, and through the
ones before. -/
def ReadCompletes (rounds : ℕ → SdRound) (ulCount i : ℕ) : Prop :=
  ∃ k, i ≤ k ∧ k ≤ 3 ∧ readEnds (rounds k).count ulCount ∧
    ∀ j, i ≤ j → j ≤ k → h.ReadPasses (rounds j) ulCount j ∧
    (j < k → ¬readEnds (rounds j).count ulCount)

/-- The read comes to the end where the card is deselected and that is the counterpart of what was
done before, or the card was not selected. -/
def ReadFits (rounds : ℕ → SdRound) (ulCount : ℕ) : Prop :=
  h.absent ∨ (h.ReadCompletes rounds ulCount 0 ∧ h.pfnSelect = h.pfnDeselect) ∨
    (¬h.ReadCompletes rounds ulCount 0 ∧ h.pfnSelect = false)

/-- The same of a write, which takes a short count as it is -/
def WriteFits (a : SdRound) (ulCount : ℕ) : Prop :=
  h.absent ∨ (h.RoundPasses a False ∧ h.pfnSelect = h.pfnDeselect ∧
  (a.count = ulCount ∨ a.count < 0)) ∨
    (¬h.RoundPasses a False ∧ h.pfnSelect = false)

end MmcHost

/-! ## The parts of a round

Each part either goes on or ends the round. Which of the two it is can be told from the answers, and
nothing else is needed of it. -/

/-- The event is not about the selection. -/
def SdEvent.Quiet : SdEvent → Prop
  | select | deselect => False
  | _ => True

/-- The event comes between the selection and what ends it, in a transfer of `cmd`: a command asks
for the state, ends a transfer, or is `cmd`. -/
def SdEvent.During (cmd : MmcCommand) : SdEvent → Prop
  | select | deselect => False
  | request c => c.opcode = 12 ∨ c.opcode = 13 ∨ c = cmd
  | read _ | write _ => True

/-- During a command the card is neither selected nor deselected. -/
theorem SdEvent.During.quiet {cmd : MmcCommand} {e : SdEvent} (h : e.During cmd) : e.Quiet := by
  cases e with
  | select => exact h
  | deselect => exact h
  | request => exact trivial
  | read => exact trivial
  | write => exact trivial

/-- What an error leads to: it is passed over, or there is an error. -/
structure Tolerates (early : ℤ → Option ℤ) (lenient : Prop) : Prop where
  none_iff : ∀ e, early e = none ↔ lenient
  neg : ∀ e x, e < 0 → early e = some x → x < 0

theorem slErrGeneric_neg : slErrGeneric < 0 := by decide

theorem SdAnswer.error_neg {a : SdAnswer} (h : a.error ≠ 0) : a.error < 0 :=
  lt_of_le_of_ne a.error_le h

/-- A phase in which every error ends the command. -/
theorem tolerates_some : Tolerates some False where
  none_iff _ := iff_of_false nofun id
  neg _ _ he hx := Option.some.inj hx ▸ he

section Check

variable {early : ℤ → Option ℤ} {lenient : Prop}

/-- The value of a check for an error -/
theorem Tolerates.check (ht : Tolerates early lenient) (a : SdAnswer) :
    ((if a.error ≠ 0 then early a.error else none) = none ↔ a.error = 0 ∨ lenient) ∧
      ∀ x, (if a.error ≠ 0 then early a.error else none) = some x → x < 0 := by
  by_cases he : a.error = 0
  · rw [if_neg (not_not.mpr he)]
    exact ⟨iff_of_true rfl (.inl he), nofun⟩
  · rw [if_pos he]
    exact ⟨(ht.none_iff _).trans (or_iff_right he).symm,
      fun x => ht.neg _ x (SdAnswer.error_neg he)⟩

end Check

namespace MmcHost

variable {h : MmcHost} {a : SdRound} {rounds : ℕ → SdRound} {early : ℤ → Option ℤ} {lenient : Prop}
  {cmd oCommand : MmcCommand} {ulBlock ulCount n i : ℕ} {pBuffer : Memory}

/-- A read goes on after an error in its first three rounds. -/
theorem tolerates_readEarly : Tolerates (readEarly n) (n < 3) where
  none_iff e := by
    unfold readEarly
    split_ifs with hn
    · exact iff_of_false nofun (Nat.not_lt.mpr hn)
    · exact iff_of_true rfl (Nat.not_le.mp hn)
  neg e x _ hx := by
    unfold readEarly at hx
    split_ifs at hx with hn
    exact Option.some.inj hx ▸ slErrGeneric_neg

theorem ready_during : (h.ready a early oCommand).All (SdEvent.During cmd) := by
  have hstatus : ∀ o, SdEvent.During cmd (.request (h.sendStatus o)) := fun _ => .inr (.inl rfl)
  unfold ready
  split
  · exact Traced.all_pure
  · refine Traced.all_bind.mpr ⟨Traced.all_emit.mpr (hstatus _), ?_⟩
    split
    · exact Traced.all_pure
    · refine Traced.all_ite.mpr ⟨fun _ => Traced.all_bind.mpr ⟨Traced.all_emit.mpr (.inl rfl), ?_⟩,
        fun _ => Traced.all_pure⟩
      refine Traced.all_ite.mpr ⟨fun _ => Traced.all_pure,
        fun _ => Traced.all_bind.mpr ⟨Traced.all_emit.mpr (hstatus _), ?_⟩⟩
      exact Traced.all_ite.mpr ⟨fun _ => Traced.all_pure, fun _ => Traced.all_pure⟩

theorem start_during : (h.start a early cmd).All (SdEvent.During cmd) := by
  refine Traced.all_bind.mpr ⟨Traced.all_emit.mpr (.inr (.inr rfl)), ?_⟩
  split
  · exact Traced.all_pure
  · exact Traced.all_pure

/-- When the first part goes on, and that it ends with an error otherwise. -/
theorem ready_val (h : MmcHost) (a : SdRound) (oCommand : MmcCommand)
    (ht : Tolerates early lenient) :
    ((h.ready a early oCommand).val.1 = none ↔ (h.spiMode = false → a.status.error = 0 ∨ lenient) ∧
      (h.spiMode = false → sdState a.status.response = 5 → a.stop.error = 0 ∧ a.again.error = 0)) ∧
      ∀ x, (h.ready a early oCommand).val.1 = some x → x < 0 := by
  obtain ⟨hnone, hsome⟩ := ht.check a.status
  unfold ready
  by_cases hspi : h.spiMode = true
  · rw [if_pos hspi]
    exact ⟨iff_of_true rfl ⟨fun hf => absurd (hspi.symm.trans hf)
      (by decide), fun hf => absurd (hspi.symm.trans hf) (by decide)⟩, nofun⟩
  · have hspi' : h.spiMode = false := by simpa using hspi
    rw [if_neg hspi, Traced.val_bind]
    cases hcheck : (if a.status.error ≠ 0 then early a.status.error else none) with
    | some e =>
      refine ⟨iff_of_false nofun fun hall => ?_, fun x hx => ?_⟩
      · exact absurd (hcheck.symm.trans (hnone.mpr (hall.1 hspi'))) nofun
      · exact hsome x (hcheck.trans hx)
    | none =>
      have hstatus := hnone.mp hcheck
      simp only [Traced.val_ite, Traced.val_bind, Traced.val_pure, hspi', forall_const]
      by_cases hstate : sdState a.status.response = 5
      · by_cases hstop : a.stop.error = 0
        · by_cases hagain : a.again.error = 0
          · simp [hstate, hstop, hagain, hstatus]
          · have := SdAnswer.error_neg hagain
            simp [hstate, hstop, hagain, this]
        · have := SdAnswer.error_neg hstop
          simp [hstate, hstop, this]
      · simp [hstate, hstatus]

/-- A command has started exactly if the card answered it and is ready to transfer. -/
theorem start_val (h : MmcHost) (a : SdRound) (oCommand : MmcCommand)
    (ht : Tolerates early lenient) :
    ((h.start a early oCommand).val = none ↔ (a.command.error = 0 ∨ lenient) ∧ h.response a = 0x900)
      ∧
      ∀ x, (h.start a early oCommand).val = some x → x < 0 := by
  obtain ⟨hnone, hsome⟩ := ht.check a.command
  rw [start, Traced.val_bind]
  cases hcheck : (if a.command.error ≠ 0 then early a.command.error else none) with
  | some e =>
    refine ⟨iff_of_false nofun fun hall => ?_, fun x hx => hsome x (hcheck.trans hx)⟩
    exact absurd (hcheck.symm.trans (hnone.mpr hall.1)) nofun
  | none =>
    have hcommand := hnone.mp hcheck
    by_cases hresponse : h.response a = 0x900
    · simp [hresponse, hcommand]
    · have := slErrGeneric_neg
      simp [hresponse, this]

/-- One round of a read belongs to the command. -/
theorem readRound_during : (h.readRound a ulBlock ulCount n oCommand pBuffer).All
    (SdEvent.During (h.readCommand ulBlock ulCount)) := by
  refine Traced.all_bind.mpr ⟨ready_during, ?_⟩
  split
  · exact Traced.all_pure
  · refine Traced.all_bind.mpr ⟨start_during, ?_⟩
    split
    · exact Traced.all_pure
    · refine Traced.all_bind.mpr ⟨Traced.all_emit.mpr trivial,
        Traced.all_ite.mpr ⟨fun _ => ?_, fun _ => Traced.all_pure⟩⟩
      refine Traced.all_bind.mpr ⟨Traced.all_emit.mpr (.inl rfl), ?_⟩
      split
      · exact Traced.all_pure
      · exact Traced.all_pure

/-- How a round ends -/
theorem readRound_val (h : MmcHost) (a : SdRound) (ulBlock ulCount n : ℕ) (oCommand : MmcCommand)
    (pBuffer : Memory) :
    (h.ReadPasses a ulCount n ∧ (h.readRound a ulBlock ulCount n oCommand pBuffer).val.1 =
      .read a.count ∧
      (h.readRound a ulBlock ulCount n oCommand pBuffer).val.2.2 = fill a pBuffer) ∨
    (¬h.ReadPasses a ulCount n ∧ ∃ e < 0, (h.readRound a ulBlock ulCount n oCommand pBuffer).val.1 =
      .returned e) := by
  have ht := tolerates_readEarly (n := n)
  obtain ⟨hready, hreadyNeg⟩ := ready_val h a oCommand ht
  obtain ⟨hstart, hstartNeg⟩ := start_val h a (h.readCommand ulBlock ulCount) ht
  obtain ⟨hfinish, hfinishNeg⟩ := ht.check a.finish
  rw [readRound, Traced.val_bind]
  rcases hr : (h.ready a (readEarly n) oCommand).val with ⟨_ | e, oCommand'⟩
  case some =>
    rw [hr] at hready hreadyNeg
    refine .inr ⟨fun hp => ?_, e, hreadyNeg e rfl, rfl⟩
    exact absurd (hready.mpr ⟨hp.passes.status, hp.passes.recovers⟩) nofun
  case none =>
    rw [hr] at hready
    cases hs : (h.start a (readEarly n) (h.readCommand ulBlock ulCount)).val with
    | some e =>
      refine .inr ⟨fun hp => ?_, e, hstartNeg e hs, ?_⟩
      · exact absurd (hs.symm.trans (hstart.mpr ⟨hp.passes.command, hp.passes.response⟩)) nofun
      · simp only [Traced.val_bind, hs, Traced.val_pure]
    | none =>
      have hpasses : h.RoundPasses a (n < 3) :=
        ⟨(hready.mp rfl).1, (hready.mp rfl).2, (hstart.mp hs).1, (hstart.mp hs).2⟩
      simp only [Traced.val_bind, hs, Traced.val_ite]
      by_cases hspi : h.spiMode = true ∧ ulCount ≠ 1
      · rw [if_pos hspi]
        cases hf : (if a.finish.error ≠ 0 then readEarly n a.finish.error else none) with
        | some e =>
          refine .inr ⟨fun hp => ?_, e, hfinishNeg e hf, rfl⟩
          exact absurd (hf.symm.trans (hfinish.mpr (hp.finish hspi.1 hspi.2))) nofun
        | none => exact .inl ⟨⟨hpasses, fun _ _ => hfinish.mp hf⟩, rfl, rfl⟩
      · rw [if_neg hspi]
        exact .inl ⟨⟨hpasses, fun h₁ h₂ => absurd ⟨h₁, h₂⟩ hspi⟩, rfl, rfl⟩

/-! ## The loop

A read tries again after some of the ends of a round. The induction is on the rounds that are
left. -/

/-- A read completes in a round in which all goes well, if it is the last one needed or the next one
completes. -/
theorem readCompletes_succ (hn : n ≤ 3) : h.ReadCompletes rounds ulCount n ↔
    h.ReadPasses (rounds n) ulCount n ∧
      (readEnds (rounds n).count ulCount ∨ n < 3 ∧ h.ReadCompletes rounds ulCount (n + 1)) := by
  constructor
  · rintro ⟨k, hnk, hk, hends, hall⟩
    refine ⟨(hall n le_rfl hnk).1, ?_⟩
    rcases Nat.eq_or_lt_of_le hnk with rfl | hlt
    · exact .inl hends
    · exact .inr ⟨hlt.trans_le hk, k, hlt, hk, hends, fun j hj => hall j (Nat.le_of_succ_le hj)⟩
  · rintro ⟨hpass, hends | ⟨hn3, k, hnk, hk, hends, hall⟩⟩
    · refine ⟨n, le_rfl, hn, hends, fun j hj hj' => ?_⟩
      obtain rfl := Nat.le_antisymm hj hj'
      exact ⟨hpass, fun hlt => absurd hlt (Nat.lt_irrefl _)⟩
    · by_cases hnow : readEnds (rounds n).count ulCount
      · refine ⟨n, le_rfl, hn, hnow, fun j hj hj' => ?_⟩
        obtain rfl := Nat.le_antisymm hj hj'
        exact ⟨hpass, fun hlt => absurd hlt (Nat.lt_irrefl _)⟩
      · refine ⟨k, Nat.le_of_succ_le hnk, hk, hends, fun j hj hj' => ?_⟩
        rcases Nat.eq_or_lt_of_le hj with rfl | hlt
        · exact ⟨hpass, fun _ => hnow⟩
        · exact hall j hlt hj'

/-- All rounds of a read belong to the command. -/
theorem readLoop_during : (h.readLoop rounds ulBlock ulCount n oCommand pBuffer).All
    (SdEvent.During (h.readCommand ulBlock ulCount)) := by
  induction hm : 3 - n using Nat.strong_induction_on generalizing n oCommand pBuffer with
  | _ m ih =>
    rw [readLoop]
    refine Traced.all_bind.mpr ⟨readRound_during, ?_⟩
    split
    · exact Traced.all_pure
    · split_ifs with hends hretry
      · exact Traced.all_pure
      · exact Traced.all_pure
      · exact ih (3 - (n + 1)) (by omega) rfl

/-- How the loop ends -/
theorem readLoop_val (h : MmcHost) (rounds : ℕ → SdRound) (ulBlock ulCount n : ℕ) (hn : n ≤ 3)
    (oCommand : MmcCommand) (pBuffer : Memory) :
    (h.ReadCompletes rounds ulCount n ∧ ∃ k pBuffer', readEnds (rounds k).count ulCount ∧
      (h.readLoop rounds ulBlock ulCount n oCommand pBuffer).val =
      (.read (rounds k).count, fill (rounds k) pBuffer')) ∨
    (¬h.ReadCompletes rounds ulCount n ∧
      ∃ e < 0, (h.readLoop rounds ulBlock ulCount n oCommand pBuffer).val.1 = .returned e) := by
  induction hm : 3 - n using Nat.strong_induction_on generalizing n oCommand pBuffer with
  | _ m ih =>
    rw [readLoop, Traced.val_bind, readCompletes_succ hn]
    have hround := readRound_val h (rounds n) ulBlock ulCount n oCommand pBuffer
    rcases hr : (h.readRound (rounds n) ulBlock ulCount n oCommand pBuffer).val with
      ⟨e | slRead, oCommand', pBuffer'⟩
    case returned =>
      rw [hr] at hround
      rcases hround with ⟨-, hread, -⟩ | ⟨hfail, e', he', heq⟩
      · cases hread
      · obtain rfl := SdEnd.returned.inj heq
        exact .inr ⟨fun hc => hfail hc.1, e, he', rfl⟩
    case read =>
      rw [hr] at hround
      rcases hround with ⟨hpass, hread, hfill⟩ | ⟨-, e', -, heq⟩
      · obtain rfl := SdEnd.read.inj hread
        obtain rfl : pBuffer' = _ := hfill
        simp only
        by_cases hends : readEnds (rounds n).count ulCount
        · rw [if_pos hends]
          exact .inl ⟨⟨hpass, .inl hends⟩, n, pBuffer, hends, rfl⟩
        · rw [if_neg hends]
          by_cases hretry : n ≥ 3
          · rw [dif_pos hretry]
            refine .inr ⟨?_, slErrGeneric, slErrGeneric_neg, rfl⟩
            rintro ⟨-, hnow | ⟨hlt, -⟩⟩
            · exact hends hnow
            · exact absurd hlt (Nat.not_lt.mpr hretry)
          · rw [dif_neg hretry]
            have hlt : n < 3 := Nat.not_le.mp hretry
            rcases ih (3 - (n + 1))
              (by omega) (n + 1) hlt oCommand' (fill (rounds n) pBuffer) rfl with
              ⟨hcompletes, hval⟩ | ⟨hnot, hval⟩
            · exact .inl ⟨⟨hpass, .inr ⟨hlt, hcompletes⟩⟩, hval⟩
            · refine .inr ⟨?_, hval⟩
              rintro ⟨-, hnow | ⟨-, hc⟩⟩
              · exact hends hnow
              · exact hnot hc
      · cases heq

/-! ## The transfers

Selecting and deselecting is put around the loop. -/

theorem count_quiet {events : List SdEvent} (hq : ∀ e ∈ events, SdEvent.Quiet e) :
    events.count .select = 0 ∧ events.count .deselect = 0 := by
  constructor
  · exact List.count_eq_zero.mpr fun hmem => hq _ hmem
  · exact List.count_eq_zero.mpr fun hmem => hq _ hmem

/-- A run of quiet events between the selection and what ends it -/
theorem balanced_iff {events : List SdEvent} (hq : ∀ e ∈ events, SdEvent.Quiet e) (op op' : Bool) :
    SdBalanced ((ifPresent op .select).events ++ (events ++ (ifPresent op' .deselect).events)) ↔
      op = op' := by
  obtain ⟨hsel, hdes⟩ := count_quiet hq
  unfold SdBalanced
  rw [List.count_append, List.count_append, List.count_append, List.count_append, hsel, hdes]
  cases op
  all_goals cases op'
  all_goals decide

/-- A read that came to its end has the blocks, or an error. -/
theorem fill_result (hends : readEnds (rounds i).count ulCount) :
    (rounds i).count < 0 ∨ (rounds i).count = ulCount ∧
    ∃ k, (rounds k).count = ulCount ∧ ∀ x < 512 * ulCount,
      fill (rounds i) pBuffer x = (rounds k).data x := by
  have hlt := (rounds i).count_lt
  by_cases hneg : (rounds i).count < 0
  · exact .inl hneg
  · have hcount : (rounds i).count = ulCount := by
      rcases hends with h | h
      · omega
      · exact absurd h hneg
    refine .inr ⟨hcount, i, hcount, fun x hx => ?_⟩
    have hfill : pBuffer.overlay 0 (512 * ulCount) (rounds i).data (0 + x) = (rounds i).data x :=
      Memory.overlay_of_in hx
    rw [Nat.zero_add] at hfill
    rw [fill, if_pos (by omega), hcount, Int.toNat_natCast]
    exact hfill

/-- A read does right exactly if it comes to an end where deselecting is the counterpart of what was
done before. -/
theorem blockread_ok_iff (h : MmcHost) (rounds : ℕ → SdRound) (ulBlock ulCount : ℕ)
    (oCommand : MmcCommand) (pBuffer : Memory) :
    SdReadOk rounds ulCount (h.sdcardBlockread rounds ulBlock ulCount oCommand pBuffer) ↔
      h.ReadFits rounds ulCount := by
  unfold ReadFits sdcardBlockread
  by_cases habsent : h.absent
  · rw [if_pos habsent]
    exact iff_of_true ⟨rfl, .inl slErrGeneric_neg⟩ (.inl habsent)
  · rw [if_neg habsent, or_iff_right habsent]
    have hquiet : ∀ e ∈ (h.readLoop rounds ulBlock ulCount 0 oCommand pBuffer).events,
        SdEvent.Quiet e :=
      fun e he => (readLoop_during e he).quiet
    rcases readLoop_val h rounds ulBlock ulCount 0 (Nat.zero_le 3) oCommand pBuffer with
      ⟨hcompletes, k, pBuffer', hends, hval⟩ | ⟨hnot, e, he, hval⟩
    · rw [or_iff_left fun hn => hn.1 hcompletes, and_iff_right hcompletes,
        ← balanced_iff hquiet h.pfnSelect h.pfnDeselect]
      constructor
      · rintro ⟨hbalanced, -⟩
        simpa [hval] using hbalanced
      · intro hbalanced
        refine ⟨by simpa [hval] using hbalanced, ?_⟩
        rw [Traced.val_bind, Traced.val_bind, hval]
        exact fill_result hends
    · rw [or_iff_right fun hc => hnot hc.1, and_iff_right hnot,
        ← balanced_iff hquiet h.pfnSelect false]
      rcases hr : (h.readLoop rounds ulBlock ulCount 0 oCommand pBuffer).val with ⟨r, pBuffer'⟩
      rw [hr] at hval
      obtain rfl : r = .returned e := hval
      have hnone : (ifPresent false SdEvent.deselect).events = [] := rfl
      rw [hnone]
      constructor
      · rintro ⟨hbalanced, -⟩
        simpa [hr] using hbalanced
      · intro hbalanced
        refine ⟨by simpa [hr] using hbalanced, ?_⟩
        rw [Traced.val_bind, Traced.val_bind, hr]
        exact .inl he

theorem blockwrite_ok_iff (h : MmcHost) (a : SdRound) (ulBlock ulCount : ℕ)
    (oCommand : MmcCommand) :
    SdWriteOk a ulCount (h.sdcardBlockwrite a ulBlock ulCount oCommand) ↔
      h.WriteFits a ulCount := by
  unfold WriteFits sdcardBlockwrite
  by_cases habsent : h.absent
  · rw [if_pos habsent]
    exact iff_of_true ⟨rfl, .inl slErrGeneric_neg⟩ (.inl habsent)
  · rw [if_neg habsent, or_iff_right habsent]
    obtain ⟨hready, hreadyNeg⟩ := ready_val h a oCommand tolerates_some
    obtain ⟨hstart, hstartNeg⟩ := start_val h a (h.writeCommand ulBlock ulCount) tolerates_some
    have hquiet : ∀ e ∈ (h.ready a some oCommand).events, SdEvent.Quiet e := fun e he =>
      (show e.During (h.writeCommand ulBlock ulCount) from ready_during e he).quiet
    have hquiet' : ∀ e ∈ (h.start a some (h.writeCommand ulBlock ulCount)).events,
        SdEvent.Quiet e :=
      fun e he => (start_during e he).quiet
    have hnone : (ifPresent false SdEvent.deselect).events = [] := rfl
    rcases hr : (h.ready a some oCommand).val with ⟨_ | e, oCommand'⟩
    case some =>
      -- an error of the status
      rw [hr] at hready hreadyNeg
      have hfail : ¬h.RoundPasses a False :=
        fun hp => absurd (hready.mpr ⟨hp.status, hp.recovers⟩) nofun
      rw [or_iff_right fun hp => hfail hp.1, and_iff_right hfail,
        ← balanced_iff hquiet h.pfnSelect false, hnone]
      constructor
      · rintro ⟨hbalanced, -⟩
        simpa [hr] using hbalanced
      · intro hbalanced
        refine ⟨by simpa [hr] using hbalanced, .inl ?_⟩
        rw [Traced.val_bind, Traced.val_bind, hr]
        exact hreadyNeg e rfl
    case none =>
      rw [hr] at hready
      cases hs : (h.start a some (h.writeCommand ulBlock ulCount)).val with
      | some e =>
        -- an error of the command, or a response that is not the one to go on with
        have hfail : ¬h.RoundPasses a False :=
          fun hp => absurd (hs.symm.trans (hstart.mpr ⟨hp.command, hp.response⟩)) nofun
        have hboth := List.forall_mem_append.mpr ⟨hquiet, hquiet'⟩
        rw [or_iff_right fun hp => hfail hp.1, and_iff_right hfail,
          ← balanced_iff hboth h.pfnSelect false, hnone]
        constructor
        · rintro ⟨hbalanced, -⟩
          simpa [hr, hs] using hbalanced
        · intro hbalanced
          refine ⟨by simpa [hr, hs] using hbalanced, .inl ?_⟩
          simp only [Traced.val_bind, hr, hs, Traced.val_pure]
          exact hstartNeg e hs
      | none =>
        have hpass : h.RoundPasses a False :=
          ⟨(hready.mp rfl).1, (hready.mp rfl).2, (hstart.mp hs).1, (hstart.mp hs).2⟩
        have hwrite : ∀ e ∈ (Traced.emit (SdEvent.write ulCount)).events, SdEvent.Quiet e :=
          Traced.all_emit.mpr trivial
        have hall :=
          List.forall_mem_append.mpr ⟨hquiet, List.forall_mem_append.mpr ⟨hquiet', hwrite⟩⟩
        rw [or_iff_left fun hp => hp.1 hpass, and_iff_right hpass,
          ← balanced_iff hall h.pfnSelect h.pfnDeselect]
        constructor
        · rintro ⟨hbalanced, hresult⟩
          refine ⟨by simpa [hr, hs] using hbalanced, ?_⟩
          simp only [Traced.val_bind, hr, hs, Traced.val_pure] at hresult
          rcases hresult with hneg | ⟨hcount, -⟩
          · exact .inr hneg
          · exact .inl hcount
        · rintro ⟨hbalanced, hcount⟩
          refine ⟨by simpa [hr, hs] using hbalanced, ?_⟩
          simp only [Traced.val_bind, hr, hs, Traced.val_pure]
          rcases hcount with hcount | hneg
          · exact .inr ⟨hcount, hcount⟩
          · exact .inl hneg

end MmcHost

open MmcHost

/-- When a transfer of blocks leaves the card as it found it, and is one of all blocks or reports an
error. -/
theorem sdcard_transfers_iff (h : MmcHost) (rounds : ℕ → SdRound) (ulBlock ulCount : ℕ)
    (oCommand : MmcCommand) (pBuffer : Memory) :
    (SdReadOk rounds ulCount (h.sdcardBlockread rounds ulBlock ulCount oCommand pBuffer) ↔
      h.ReadFits rounds ulCount) ∧
    (SdWriteOk (rounds 0) ulCount (h.sdcardBlockwrite (rounds 0) ulBlock ulCount oCommand) ↔
      h.WriteFits (rounds 0) ulCount) :=
  ⟨blockread_ok_iff h rounds ulBlock ulCount oCommand pBuffer,
  blockwrite_ok_iff h (rounds 0) ulBlock ulCount oCommand⟩

/-- A card on an SPI bus that has been taken out: the line stays high, so that every response is
`0xFF`. -/
def gone : SdRound where
  status := ⟨0, 0xFF, le_rfl⟩
  stop := ⟨0, 0xFF, le_rfl⟩
  again := ⟨0, 0xFF, le_rfl⟩
  command := ⟨0, 0xFF, le_rfl⟩
  count := 0
  count_lt := by decide
  data _ := 0xFF
  moved := 0
  finish := ⟨0, 0xFF, le_rfl⟩

/-- The bus stays with the card that is gone. -/
theorem sdcard_keeps_selected :
    let h : MmcHost := ⟨true, true, true, 0, true⟩
    ¬SdReadOk (fun _ => gone) 1
      (h.sdcardBlockread (fun _ => gone) 0 1 ⟨0, 0, false, false, .r1, 0, false⟩ fun _ => 0) := by
  intro h hread
  have hnot : ¬h.ReadCompletes (fun _ => gone) 1 0 := fun hc =>
    absurd ((readCompletes_succ (Nat.zero_le 3)).mp hc).1.passes.response (by decide)
  rcases (blockread_ok_iff ..).mp hread with habsent | ⟨hc, -⟩ | ⟨-, hselect⟩
  · exact absurd habsent (by decide)
  · exact hnot hc
  · cases hselect

end BitThunder
