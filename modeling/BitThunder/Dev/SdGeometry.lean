import Mathlib.Order.Interval.Set.LinearOrder
import BitThunder.Dev.Sdcard

/-!
# The geometry of an SD card

`sd_manager_sm` of `drivers/mmc/sdcard.c` reads the CSD register through the packed structures of
`sdcard.h` and registers a block device with what it finds. The number of blocks leaves out the `+
1` of the register, and the commands address blocks of 512 bytes whatever the registered size is.

* `layout_reads_register`: the structures lie over the register as they should;
* `sd_capacity_short`: what is missing from the capacity;
* `sd_blocks_iff`: when the commands address the registered blocks;
* `sd_geometry_never`: no card is registered with the geometry it has.

The packed structures are given as lists of fields with widths, in the order of the source, so that
the offset of a field is a sum and can be computed. `layout_reads_register` says which bits of the
register a field lies over; the eight bits by which the two differ are the last byte, which a host
leaves out.

What is registered is then a calculation. The number of blocks is a product without the `+ 1` of the
register, so that the capacity is short by one step of `C_SIZE`, for every register of either
version; commands have byte addresses in steps of 512, which is the size of a registered block for
some registers and not for others.
-/

namespace BitThunder

/-! ## The register

The packed structures are lists of widths, and a field is found by adding the widths before it. -/

/-- The fields of `tCSD1_x` and `tCSD2_x`; a field without a name is `reserved`. -/
inductive CsdField : Type where
  | reserved | fileFormat | tmpWriteProtection | permWriteProtection | copy | fileFormatGRP
  | writeBLPartial | writeBLLen
  | r2WFactor | wpGRPEnable | wpGRPSize | sectorSize | eraseBLKEn | cSizeMult | vddWCurrMax
  | vddWCurrMin | vddRCurrMax
  | vddRCurrMin | cSize | dsrImp | readBLKMisAlign | writeBLKMisAlign | readBLPartial | readBLLen
  | ccc | tranSpeed
  | nsac | taac | csd
  deriving DecidableEq

/-- A packed structure: its fields from the lowest bit on, and their widths. -/
abbrev CsdLayout : Type := List (CsdField × ℕ)

open CsdField in
/-- `tCSD1_x` -/
def tCSD1 : CsdLayout :=
  [(reserved, 2), (fileFormat, 2), (tmpWriteProtection, 1), (permWriteProtection, 1), (copy, 1),
    (fileFormatGRP, 1), (reserved, 5), (writeBLPartial, 1), (writeBLLen, 4), (r2WFactor, 3),
    (reserved, 2), (wpGRPEnable, 1),
    (wpGRPSize, 7), (sectorSize, 7), (eraseBLKEn, 1), (cSizeMult, 3), (vddWCurrMax, 3),
    (vddWCurrMin, 3),
    (vddRCurrMax, 3), (vddRCurrMin, 3), (cSize, 12), (reserved, 2), (dsrImp, 1),
    (readBLKMisAlign, 1),
    (writeBLKMisAlign, 1), (readBLPartial, 1), (readBLLen, 4), (ccc, 12), (tranSpeed, 8), (nsac, 8),
    (taac, 8),
    (reserved, 6), (csd, 2)]

open CsdField in
/-- `tCSD2_x` -/
def tCSD2 : CsdLayout :=
  [(reserved, 2), (fileFormat, 2), (tmpWriteProtection, 1), (permWriteProtection, 1), (copy, 1),
    (fileFormatGRP, 1), (reserved, 5), (writeBLPartial, 1), (writeBLLen, 4), (r2WFactor, 3),
    (reserved, 2), (wpGRPEnable, 1),
    (wpGRPSize, 7), (sectorSize, 7), (eraseBLKEn, 1), (reserved, 1), (cSize, 22), (reserved, 6),
    (dsrImp, 1),
    (readBLKMisAlign, 1), (writeBLKMisAlign, 1), (readBLPartial, 1), (readBLLen, 4), (ccc, 12),
    (tranSpeed, 8),
    (nsac, 8), (taac, 8), (reserved, 6), (csd, 2)]

namespace CsdLayout

/-- Where a field begins -/
def offset (l : CsdLayout) (f : CsdField) : ℕ := ((l.takeWhile fun e => e.1 ≠ f).map Prod.snd).sum

/-- How many bits it has -/
def width (l : CsdLayout) (f : CsdField) : ℕ := ((l.find? fun e => e.1 = f).map Prod.snd).getD 0

/-- The value of a field -/
def read (l : CsdLayout) (f : CsdField) (bits : ℕ) : ℕ := bits >>> l.offset f % 2 ^ l.width f

end CsdLayout

/-- `response` as one number, as the packed structures see it -/
def responseBits (response : ℕ → ℕ) : ℕ :=
  response 0 + response 1 * 2 ^ 32 + response 2 * 2 ^ 64 + response 3 * 2 ^ 96

/-- What a host puts into `response` for the register: all of it but the last byte. -/
def csdResponse (csd i : ℕ) : ℕ := csd >>> (8 + 32 * i) % 2 ^ 32

/-- `ulBlockSize` and `ulBlocks`, which the block device is registered with -/
structure SdGeometry : Type where
  ulBlockSize : ℕ
  ulTotalBlocks : ℕ
  deriving DecidableEq

/-- The part of `sd_manager_sm` that reads the register -/
def sdGeometry (response : ℕ → ℕ) : SdGeometry :=
  let bits := responseBits response
  let csdversion := response 3 >>> 22 &&& 0x3
  if csdversion = 0 then
    { ulBlockSize := 1 <<< tCSD1.read .readBLLen bits
      ulTotalBlocks := tCSD1.read .cSize bits * 1 <<< (tCSD1.read .cSizeMult bits + 2) % 2 ^ 32 }
  else if csdversion = 1 then
    { ulBlockSize := 1 <<< tCSD2.read .readBLLen bits
      ulTotalBlocks := tCSD2.read .cSize bits * 1024 % 2 ^ 32 }
  else ⟨512, 0⟩

namespace MmcHost

variable (h : MmcHost)

/-- `CMD16`, which is sent to a card that is not of high capacity -/
def setBlockLength (oCommand : MmcCommand) : MmcCommand :=
  { oCommand with opcode := 16, arg := 512, bCRC := true, bIsData := false, ulResponseType := .r1 }

/-- The block length of the card: 512, or what `CMD16` says. -/
def blockLength (oCommand : MmcCommand) : ℕ := if h.bSDHC then 512
    else (setBlockLength oCommand).arg

/-- The bytes of the card that a command for a transfer is about. A card of high capacity takes its
argument for a block, another one for a byte. -/
def cardBytes (oCommand : MmcCommand) : Set ℕ :=
  let start := if h.bSDHC then oCommand.arg * 512 else oCommand.arg
  Set.Ico start (start + h.blockLength oCommand * oCommand.ulBlocks)

end MmcHost

/-! ## What is asked of it

The capacity is what the register stands for, and the blocks are to be where the commands look for
them. -/

/-- The bits `hi` to `lo` of the register -/
def csdBits (csd hi lo : ℕ) : ℕ := csd >>> lo % 2 ^ (hi + 1 - lo)

/-- `CSD_STRUCTURE`: 0 for version 1, 1 for version 2 -/
def csdStructure (csd : ℕ) : ℕ := csdBits csd 127 126

/-- The capacity in a register of version 1 or 2, in bytes -/
def csdCapacity (csd : ℕ) : ℕ :=
  if csdStructure csd = 0 then
    (csdBits csd 73 62 + 1) * 2 ^ (csdBits csd 49 47 + 2) * 2 ^ csdBits csd 83 80
  else (csdBits csd 69 48 + 1) * (512 * 1024)

/-- The bytes of block `n` of a geometry -/
def SdGeometry.block (g : SdGeometry) (n : ℕ) : Set ℕ :=
  Set.Ico (n * g.ulBlockSize) ((n + 1) * g.ulBlockSize)

/-- Reads and writes of a block move the bytes of that block. -/
structure BlocksAgree (h : MmcHost) (g : SdGeometry) : Prop where
  /-- a command to read a block addresses the bytes of that block -/
  read : ∀ n < g.ulTotalBlocks, h.cardBytes (h.readCommand n 1) = g.block n
  /-- so does one to write it -/
  write : ∀ n < g.ulTotalBlocks, h.cardBytes (h.writeCommand n 1) = g.block n

/-- The registered geometry is that of the card. -/
structure GeometryAgrees (h : MmcHost) (csd : ℕ) : Prop where
  /-- the blocks are as many bytes as the card has -/
  capacity : (sdGeometry (csdResponse csd)).ulBlockSize *
    (sdGeometry (csdResponse csd)).ulTotalBlocks = csdCapacity csd
  /-- and they are addressed as they should be -/
  blocks : BlocksAgree h (sdGeometry (csdResponse csd))

/-! ## The fields

All that is registered is computed from a few fields, each of which is narrow enough for nothing to
wrap. -/

section Fields

variable {csd : ℕ}

example : (tCSD1.map Prod.snd).sum = 120 ∧ (tCSD2.map Prod.snd).sum = 120 := by decide

theorem responseBits_csdResponse (hcsd : csd < 2 ^ 128) :
    responseBits (csdResponse csd) = csd >>> 8 := by
  simp only [responseBits, csdResponse, Nat.shiftRight_eq_div_pow]
  omega

/-- A field of a structure is the part of the register it lies over. -/
theorem layout_reads_register (l : CsdLayout) (f : CsdField) (csd hi lo : ℕ)
    (hlo : 8 + l.offset f = lo) (hhi : l.width f = hi + 1 - lo) :
    l.read f (csd >>> 8) = csdBits csd hi lo := by
  unfold CsdLayout.read csdBits
  rw [← Nat.shiftRight_add, hlo, hhi]

/-- The version of the register is in the top bits of the first word. -/
theorem csdResponse_version (hcsd : csd < 2 ^ 128) :
    csdResponse csd 3 >>> 22 &&& 0x3 = csdStructure csd := by
  have hmask : ∀ x : ℕ, x &&& 0x3 = x % 4 := fun x => Nat.and_two_pow_sub_one_eq_mod x 2
  rw [hmask]
  simp only [csdResponse, csdStructure, csdBits, Nat.shiftRight_eq_div_pow]
  omega

/-- A field of the register is no wider than its bits. -/
theorem csdBits_lt (csd hi lo : ℕ) : csdBits csd hi lo < 2 ^ (hi + 1 - lo) :=
  Nat.mod_lt _ (Nat.two_pow_pos _)

/-- Version 1: nothing wraps. -/
theorem sdGeometry_version1 (hcsd : csd < 2 ^ 128) (hv : csdStructure csd = 0) :
    sdGeometry (csdResponse csd) =
      ⟨2 ^ csdBits csd 83 80, csdBits csd 73 62 * 2 ^ (csdBits csd 49 47 + 2)⟩ := by
  have hsize := csdBits_lt csd 73 62
  have hmult : 2 ^ (csdBits csd 49 47 + 2) ≤ 2 ^ 9 :=
    Nat.pow_le_pow_right
    (by decide) (Nat.add_le_add_right (Nat.le_of_lt_succ (csdBits_lt csd 49 47)) 2)
  have hbound : csdBits csd 73 62 * 2 ^ (csdBits csd 49 47 + 2) < 2 ^ 32 :=
    calc csdBits csd 73 62 * 2 ^ (csdBits csd 49 47 + 2) ≤ 2 ^ 12 * 2 ^ 9 :=
      Nat.mul_le_mul hsize.le hmult
      _ < 2 ^ 32 := by decide
  unfold sdGeometry
  rw [csdResponse_version hcsd, responseBits_csdResponse hcsd]
  dsimp only
  rw [if_pos hv, layout_reads_register tCSD1 .readBLLen csd 83 80 (by decide) (by decide),
    layout_reads_register tCSD1 .cSize csd 73 62 (by decide) (by decide),
    layout_reads_register tCSD1 .cSizeMult csd 49 47 (by decide) (by decide),
    Nat.one_shiftLeft, Nat.one_shiftLeft, Nat.mod_eq_of_lt hbound]

/-- Version 2: nothing wraps either. -/
theorem sdGeometry_version2 (hcsd : csd < 2 ^ 128) (hv : csdStructure csd = 1) :
    sdGeometry (csdResponse csd) = ⟨2 ^ csdBits csd 83 80, csdBits csd 69 48 * 1024⟩ := by
  have hsize : csdBits csd 69 48 < 2 ^ 22 := csdBits_lt csd 69 48
  unfold sdGeometry
  rw [csdResponse_version hcsd, responseBits_csdResponse hcsd]
  dsimp only
  rw [if_neg (by omega), if_pos hv,
    layout_reads_register tCSD2 .readBLLen csd 83 80 (by decide) (by decide),
    layout_reads_register tCSD2 .cSize csd 69 48 (by decide) (by decide),
    Nat.one_shiftLeft, Nat.mod_eq_of_lt (by omega)]

/-- The registered capacity is too small, by the blocks of one step of `C_SIZE`. -/
theorem sd_capacity_short (hcsd : csd < 2 ^ 128) :
    (csdStructure csd = 0 →
      (sdGeometry (csdResponse csd)).ulBlockSize * (sdGeometry (csdResponse csd)).ulTotalBlocks +
        2 ^ (csdBits csd 49 47 + 2) * 2 ^ csdBits csd 83 80 = csdCapacity csd) ∧
    (csdStructure csd = 1 → csdBits csd 83 80 = 9 →
      (sdGeometry (csdResponse csd)).ulBlockSize * (sdGeometry (csdResponse csd)).ulTotalBlocks +
        512 * 1024 = csdCapacity csd) := by
  refine ⟨fun hv => ?_, fun hv hlen => ?_⟩
  · rw [sdGeometry_version1 hcsd hv, csdCapacity, if_pos hv]
    ring
  · rw [sdGeometry_version2 hcsd hv, csdCapacity, if_neg (by omega), hlen]
    ring

/-- Every register stands for a capacity of at least one block. -/
theorem csdCapacity_pos (csd : ℕ) : 0 < csdCapacity csd := by
  unfold csdCapacity
  split_ifs
  · positivity
  · positivity

end Fields

/-! ## The commands

Which commands a transfer can send is read off its trace, whatever the host answers. -/

/-- Of the commands of a transfer, only `cmd` moves data. -/
def SdEvent.TransfersBy (cmd : MmcCommand) : SdEvent → Prop
  | request c => c.opcode = 12 ∨ c.opcode = 13 ∨ c = cmd
  | _ => True

/-- What happens during a command transfers by that command. -/
theorem SdEvent.During.transfersBy {cmd : MmcCommand} {e : SdEvent} (h : e.During cmd) :
    e.TransfersBy cmd := by
  cases e with
  | request => exact h
  | select => exact trivial
  | deselect => exact trivial
  | read => exact trivial
  | write => exact trivial

namespace MmcHost

variable {h : MmcHost} {a : SdRound} {rounds : ℕ → SdRound} {cmd oCommand : MmcCommand}
  {ulBlock ulCount : ℕ} {pBuffer : Memory}

theorem ifPresent_commands {op : Bool} {e : SdEvent} (he : e.TransfersBy cmd) :
    (ifPresent op e).All (SdEvent.TransfersBy cmd) :=
  Traced.all_ite.mpr ⟨fun _ => Traced.all_emit.mpr he, fun _ => Traced.all_pure⟩

/-- A read sends no command for a transfer but `readCommand`. -/
theorem blockread_commands : (h.sdcardBlockread rounds ulBlock ulCount oCommand pBuffer).All
    (SdEvent.TransfersBy (h.readCommand ulBlock ulCount)) := by
  refine Traced.all_ite.mpr ⟨fun _ => Traced.all_pure, fun _ => ?_⟩
  refine Traced.all_bind.mpr ⟨ifPresent_commands trivial, Traced.all_bind.mpr
    ⟨fun e he => (readLoop_during e he).transfersBy, ?_⟩⟩
  split
  · exact Traced.all_pure
  · exact Traced.all_bind.mpr ⟨ifPresent_commands trivial, Traced.all_pure⟩

/-- A write sends no other than `writeCommand`. -/
theorem blockwrite_commands : (h.sdcardBlockwrite a ulBlock ulCount oCommand).All
    (SdEvent.TransfersBy (h.writeCommand ulBlock ulCount)) := by
  refine Traced.all_ite.mpr ⟨fun _ => Traced.all_pure, fun _ => ?_⟩
  refine Traced.all_bind.mpr ⟨ifPresent_commands trivial, Traced.all_bind.mpr
    ⟨fun e he => (ready_during e he).transfersBy, ?_⟩⟩
  split
  · exact Traced.all_pure
  · refine Traced.all_bind.mpr ⟨fun e he => (start_during e he).transfersBy, ?_⟩
    split
    · exact Traced.all_pure
    · exact Traced.all_bind.mpr ⟨Traced.all_emit.mpr trivial,
        Traced.all_bind.mpr ⟨ifPresent_commands trivial, Traced.all_pure⟩⟩

/-! ## The blocks

A command carries the number of a block, or its first byte on a card that is addressed by bytes,
which is a word. -/

/-- Where block `n` begins on the card -/
def cardStart (h : MmcHost) (n : ℕ) : ℕ := if h.bSDHC then n * 512 else n * 512 % 2 ^ 32

/-- One block that is read is 512 bytes from where the card starts. -/
theorem cardBytes_read (h : MmcHost) (n : ℕ) :
    h.cardBytes (h.readCommand n 1) = Set.Ico (h.cardStart n) (h.cardStart n + 512) := by
  unfold cardBytes cardStart blockLength readCommand address setBlockLength
  cases h.bSDHC
  · simp
  · simp

theorem cardBytes_write (h : MmcHost) (n : ℕ) :
    h.cardBytes (h.writeCommand n 1) = Set.Ico (h.cardStart n) (h.cardStart n + 512) := by
  unfold cardBytes cardStart blockLength writeCommand address setBlockLength
  cases h.bSDHC
  · simp
  · simp

/-- A byte address is the block's number times 512 unless that does not fit into a word. -/
theorem cardStart_exact_iff (h : MmcHost) (n : ℕ) :
    h.cardStart n = n * 512 ↔ h.bSDHC = true ∨ n < 2 ^ 23 := by
  unfold cardStart
  cases h.bSDHC
  · rw [if_neg (by decide)]
    simp only [Bool.false_eq_true, false_or]
    omega
  · simp

/-- The card transfers the block of the geometry for blocks of 512 bytes. -/
theorem cardStart_block_iff (h : MmcHost) (g : SdGeometry) (n : ℕ) :
    Set.Ico (h.cardStart n) (h.cardStart n + 512) = g.block n ↔
      g.ulBlockSize = 512 ∧ (h.bSDHC = true ∨ n < 2 ^ 23) := by
  unfold SdGeometry.block
  rw [Set.Ico_eq_Ico_iff (.inl (by omega)), ← cardStart_exact_iff, Nat.succ_mul]
  constructor
  · rintro ⟨hstart, hstop⟩
    obtain hsize : g.ulBlockSize = 512 := by omega
    exact ⟨hsize, hsize ▸ hstart⟩
  · rintro ⟨hsize, hstart⟩
    rw [hsize, hstart]
    exact ⟨rfl, rfl⟩

/-- The commands are about the registered blocks exactly if these have 512 bytes and, on a card that
is addressed by bytes, end below 4 GB, or there are none. -/
theorem sd_blocks_iff (h : MmcHost) (g : SdGeometry) :
    BlocksAgree h g ↔
      g.ulTotalBlocks = 0 ∨ g.ulBlockSize = 512 ∧ (h.bSDHC = true ∨ g.ulTotalBlocks ≤ 2 ^ 23) := by
  constructor
  · rintro ⟨hread, -⟩
    rcases Nat.eq_zero_or_pos g.ulTotalBlocks with hzero | hpos
    · exact .inl hzero
    · have hlast := hread (g.ulTotalBlocks - 1) (by omega)
      rw [cardBytes_read, cardStart_block_iff] at hlast
      exact .inr ⟨hlast.1, hlast.2.imp_right fun hlt => by omega⟩
  · intro hg
    have hall : ∀ n < g.ulTotalBlocks, Set.Ico (h.cardStart n) (h.cardStart n + 512) =
        g.block n := by
      intro n hn
      rw [cardStart_block_iff]
      obtain hzero | ⟨hsize, hfit⟩ := hg
      · omega
      · exact ⟨hsize, hfit.imp_right hn.trans_le⟩
    refine ⟨fun n hn => ?_, fun n hn => ?_⟩
    · rw [cardBytes_read]
      exact hall n hn
    · rw [cardBytes_write]
      exact hall n hn

end MmcHost

/-- No register of version 1 or 2 is registered as it is: where the blocks are addressed as they
should, they have 512 bytes, and then the capacity is one step of `C_SIZE` too small. -/
theorem sd_geometry_never (h : MmcHost) (csd : ℕ) (hcsd : csd < 2 ^ 128)
    (hv : csdStructure csd = 0 ∨ csdStructure csd = 1) : ¬GeometryAgrees h csd := by
  rintro ⟨hcapacity, hblocks⟩
  have hpos := csdCapacity_pos csd
  rw [← hcapacity] at hpos
  obtain hzero | ⟨hsize, -⟩ := (MmcHost.sd_blocks_iff h _).mp hblocks
  · rw [hzero] at hpos
    exact absurd hpos (lt_irrefl 0)
  · obtain ⟨hshort1, hshort2⟩ := sd_capacity_short hcsd
    obtain hv | hv := hv
    · have hstep := Nat.two_pow_pos (csdBits csd 49 47 + 2)
      have hlen := Nat.two_pow_pos (csdBits csd 83 80)
      have hmul := Nat.mul_pos hstep hlen
      have hshort := hshort1 hv
      omega
    · have hlen : csdBits csd 83 80 = 9 := by
        rw [sdGeometry_version2 hcsd hv] at hsize
        exact Nat.pow_right_injective (le_refl 2) hsize
      have hshort := hshort2 hv hlen
      omega

/-- The register of a card of 2 GB, whose blocks have 1024 bytes -/
def twoGigabytes : ℕ := 0x002e00325b5aa3d5ffffff8016800091

/-- A host for it -/
def byteHost : MmcHost := ⟨false, false, false, 1, false⟩

theorem sd_geometry_never_two_gigabytes :
    (twoGigabytes < 2 ^ 128 ∧ (csdStructure twoGigabytes = 0 ∨ csdStructure twoGigabytes = 1)) ∧
      ¬GeometryAgrees byteHost twoGigabytes :=
  ⟨by decide, sd_geometry_never byteHost twoGigabytes (by decide) (by decide)⟩

/-- 512 KB of it are left out, and its block 1 is looked for 512 bytes behind block 0. -/
theorem sd_block_misplaced :
    csdCapacity twoGigabytes = 2059403264 ∧ sdGeometry (csdResponse twoGigabytes) =
      ⟨1024, 2010624⟩ ∧
      byteHost.cardBytes (byteHost.readCommand 1 1) = Set.Ico 512 1024 ∧
      (sdGeometry (csdResponse twoGigabytes)).block 1 = Set.Ico 1024 2048 ∧
      ¬GeometryAgrees byteHost twoGigabytes := by
  have hcapacity : csdCapacity twoGigabytes = 2059403264 := by decide
  have hgeometry : sdGeometry (csdResponse twoGigabytes) = ⟨1024, 2010624⟩ := by decide
  refine ⟨hcapacity, hgeometry, MmcHost.cardBytes_read byteHost 1, hgeometry ▸ rfl,
    fun hagrees => ?_⟩
  have hsize := hagrees.capacity
  rw [hcapacity, hgeometry] at hsize
  exact absurd hsize (by decide)

end BitThunder
