import BitThunder.Dev.MtdSpec

/-!
# Errors of block requests to flash

`mtdblock_blockread` and `mtdblock_blockwrite` of `os/src/interfaces/bt_dev_if_mtd.c`. Positions and
lengths are products of 32 bits. The result of a read is divided by the block size as an unsigned
number, so that it is never an error. A write goes from sector to sector: one that runs out of
the device fails at the sector where it does, with the sectors before it written.

* `readRight_of_safe`, `writeRight_of_safe`: when a request is done, or refused as a whole;
* `blockwriteLoop_frame`, `blockwriteLoop_last`, `blockwriteLoop_keeps`: what the loop can not do;
* `block_requests_iff`: if the driver does not fail, it is so for these requests and no others.

Whether a request is done right is a question about all contents of flash and buffer and about the
driver. The condition is one on the request and the device. It is enough whatever the driver does,
since a failing operation ends the loop with its error; and for a driver that does not fail it is
necessary, which is shown by choosing contents and buffers that give each mistake away: a buffer of
one byte everywhere that differs from the flash shows that something was written, and one equal to
it that something was not.

Turns are the unit. A turn writes its bytes or fails, and fails before anything is written if its
sector is not wholly in the device. The position is a word; when it wraps before the last turn, the
loop goes on at the beginning of the device, and the last byte of the request is never written.
-/

namespace BitThunder

open Memory

section Requests

variable {σ : Type} (d : MtdDriver σ) (mtd : Mtd)

/-- `mtdblock_blockread`. The result of `BT_MTD_Read` becomes unsigned for the division. -/
def mtdblockBlockread (ulBlock ulCount : ℕ) (buf : Memory) (s : σ) : ℕ × Memory × σ :=
  let r := btMtdRead d mtd (mtdBlockSize * ulBlock % 2 ^ 32) (mtdBlockSize * ulCount % 2 ^ 32) buf s
  (r.1 / mtdBlockSize, r.2)

/-- Some part of the request lies outside the device. -/
def Mtd.Outside (ulBlock ulCount : ℕ) : Prop :=
  ulCount ≠ 0 ∧ mtd.size < ulBlock * mtdBlockSize + ulCount * mtdBlockSize

variable (contents : σ → Memory)

/-- The whole read is done or the result is negative, and it is negative outside the device. -/
def ReadRight (ulBlock ulCount : ℕ) (buf : Memory) (s : σ) : Prop :=
  let r := mtdblockBlockread d mtd ulBlock ulCount buf s
  (r.1 = ulCount ∧
      (∀ i < ulCount * mtdBlockSize, r.2.1 i = contents s (mtd.base + ulBlock * mtdBlockSize + i)) ∨
      2 ^ 31 ≤ r.1) ∧
    (mtd.Outside ulBlock ulCount → 2 ^ 31 ≤ r.1 ∧ contents r.2.2 = contents s)

/-- What a write returns and leaves is right: it is done or the result is negative, and outside the
device it is negative and nothing is written. -/
def WriteOutcome (mtd : Mtd) (contents : σ → Memory) (ulBlock ulCount : ℕ) (buf : Memory) (s : σ)
    (r : ℕ × σ) : Prop :=
  (r.1 = ulCount ∧
      contents r.2 = (contents s).overlay (mtd.base + ulBlock * mtdBlockSize)
      (ulCount * mtdBlockSize) buf ∨
      2 ^ 31 ≤ r.1) ∧
    (mtd.Outside ulBlock ulCount → 2 ^ 31 ≤ r.1 ∧ contents r.2 = contents s)

/-- The write has a result, which is right. -/
def WriteRight (ulBlock ulCount : ℕ) (buf : Memory) (cache : Option Memory) (s : σ) : Prop :=
  ∃ r, mtdblockBlockwrite d mtd ulBlock ulCount buf cache s = some r ∧
    WriteOutcome mtd contents ulBlock ulCount buf s r

end Requests

/-- Reading never changes the flash. -/
structure MtdLaw {σ : Type} (d : MtdDriver σ) (contents : σ → Memory) :
    Prop extends FlashLaw d contents where
  /-- reading changes nothing, also if it fails -/
  read_keeps : ∀ a n buf s, contents (d.read a n buf s).2.2 = contents s

namespace Mtd

variable (mtd : Mtd)

/-- The first sector of the position. -/
def sectStart (pos : ℕ) : ℕ := pos / mtd.eraseSize * mtd.eraseSize

/-- `size` of the first turn of the loop. -/
def firstSize (pos len : ℕ) : ℕ := chunkSize mtd (pos - mtd.sectStart pos) len

/-- One of the sectors the loop comes to is not wholly in the device. -/
def overruns (pos len : ℕ) : Bool :=
  if _h : len = 0 then false
  else mtd.size < mtd.sectStart pos + mtd.eraseSize ||
    overruns (wordAdd pos (mtd.firstSize pos len)) (len - mtd.firstSize pos len)
termination_by len
decreasing_by
  have := chunkSize_pos mtd (sectorOffset_lt mtd pos) _h
  simp only [firstSize, sectStart]
  omega

/-- The request is in the device, and position and length in blocks are not cut to 32 bits. An
empty one only has to begin in the device. -/
def ReadSafe (ulBlock ulCount : ℕ) : Prop :=
  if ulCount = 0 then ulBlock * mtdBlockSize % 2 ^ 32 ≤ mtd.size
  else ¬mtd.Outside ulBlock ulCount ∧ ulBlock * mtdBlockSize < 2 ^ 32 ∧
    ulCount * mtdBlockSize < 2 ^ 32

/-- The position stays below 4 GB up to the last turn of the loop. -/
def NoWrap (ulBlock ulCount : ℕ) : Prop :=
  ulBlock * mtdBlockSize < 2 ^ 32 ∧ ulCount * mtdBlockSize < 2 ^ 32 ∧
    mtd.sectStart (ulBlock * mtdBlockSize + ulCount * mtdBlockSize - 1) < 2 ^ 32

/-- The loop comes to a part of a sector that can be read, which takes the write cache. It gets past
a whole sector if that can be written. -/
def usesCache (pos len : ℕ) : Bool :=
  if _h : len = 0 then false
  else if mtd.firstSize pos len = mtd.eraseSize then
    mtd.flags &&& mtdWriteable != 0 && mtd.sectStart pos + mtd.eraseSize ≤ mtd.size &&
      usesCache (wordAdd pos (mtd.firstSize pos len)) (len - mtd.firstSize pos len)
  else !decide (mtd.RefusesRead (mtd.sectStart pos))
termination_by len
decreasing_by
  have := chunkSize_pos mtd (sectorOffset_lt mtd pos) _h
  simp only [firstSize, sectStart]
  omega

/-- The request is empty; or it is refused at its first sector; or it is in the device, and fails
somewhere or does not wrap around. A count from `2 ^ 31` on is negative itself. -/
def WriteFits (ulBlock ulCount : ℕ) : Prop :=
  let pos := ulBlock * mtdBlockSize % 2 ^ 32
  let len := ulCount * mtdBlockSize % 2 ^ 32
  ulCount = 0 ∨
    len ≠ 0 ∧ (mtd.flags &&& mtdWriteable = 0 ∨ mtd.size < mtd.sectStart pos + mtd.eraseSize) ∨
    ¬mtd.Outside ulBlock ulCount ∧ (mtd.overruns pos len = true ∨ mtd.NoWrap ulBlock ulCount ∨
    2 ^ 31 ≤ ulCount) ∨
    len = 0 ∧ 2 ^ 31 ≤ ulCount

/-- So is the request, and it does without the write cache if `BT_kMalloc` does not grant one. -/
def WriteSafe (granted : Bool) (ulBlock ulCount : ℕ) : Prop :=
  (granted = false →
    mtd.usesCache (ulBlock * mtdBlockSize % 2 ^ 32) (ulCount * mtdBlockSize % 2 ^ 32) = false) ∧
    mtd.WriteFits ulBlock ulCount

end Mtd

/-! ## Reads

The driver's result is divided by the block size as a word. So an error becomes a number of blocks,
and only a good read can be right. -/

section Read

variable {σ : Type} {d : MtdDriver σ} {mtd : Mtd} {contents : σ → Memory} {ulBlock ulCount : ℕ}
  {buf : Memory} {s : σ}

/-- A safe read is done, if the driver does not fail. -/
theorem readRight_of_safe (law : FlashLaw d contents) (hsafe : mtd.ReadSafe ulBlock ulCount)
    (hread : (d.read (mtd.base + ulBlock * mtdBlockSize) (ulCount * mtdBlockSize) buf s).1 =
      ulCount * mtdBlockSize) :
    ReadRight d mtd contents ulBlock ulCount buf s := by
  unfold Mtd.ReadSafe at hsafe
  by_cases hcount : ulCount = 0
  · subst hcount
    rw [if_pos rfl] at hsafe
    have hres : mtdblockBlockread d mtd ulBlock 0 buf s = (0, buf, s) := by
      rw [Nat.mul_comm] at hsafe
      have hrange : ¬(mtd.size < mtdBlockSize * ulBlock % 2 ^ 32 ∨
          mtd.size - mtdBlockSize * ulBlock % 2 ^ 32 < 0) := by
        omega
      unfold mtdblockBlockread btMtdRead
      rw [Nat.mul_zero, Nat.zero_mod, if_neg hrange, if_pos rfl]
      dsimp only
      rw [Nat.zero_div]
    refine ⟨.inl ?_, fun h => absurd rfl h.1⟩
    rw [hres]
    refine ⟨rfl, fun i hi => ?_⟩
    simp at hi
  · rw [if_neg hcount] at hsafe
    obtain ⟨hin, hpos, hlen⟩ := hsafe
    have hin' : ulBlock * mtdBlockSize + ulCount * mtdBlockSize ≤ mtd.size := by
      by_contra hout
      exact hin ⟨hcount, not_le.mp hout⟩
    have hblock : 0 < mtdBlockSize := by decide
    have hlen0 : ulCount * mtdBlockSize ≠ 0 := (Nat.mul_pos (Nat.pos_of_ne_zero hcount) hblock).ne'
    have hres : mtdblockBlockread d mtd ulBlock ulCount buf s =
        (ulCount, (d.read (mtd.base + ulBlock * mtdBlockSize)
        (ulCount * mtdBlockSize) buf s).2) := by
      unfold mtdblockBlockread btMtdRead
      rw [Nat.mul_comm mtdBlockSize ulBlock, Nat.mul_comm mtdBlockSize ulCount,
        Nat.mod_eq_of_lt hpos, Nat.mod_eq_of_lt hlen,
        if_neg (by omega), if_neg hlen0, mtd.driverAddr_eq (by omega)]
      dsimp only
      rw [hread, Nat.mul_div_cancel _ hblock]
    refine ⟨.inl ?_, fun h => absurd h hin⟩
    rw [hres]
    exact ⟨rfl, (law.read _ _ _ _ hread).2⟩

/-- The result is never negative: errors and lengths are words. -/
theorem mtdblockBlockread_lt (hd : d.Reliable) :
    (mtdblockBlockread d mtd ulBlock ulCount buf s).1 < 2 ^ 23 := by
  have hbound : (btMtdRead d mtd (mtdBlockSize * ulBlock % 2 ^ 32)
      (mtdBlockSize * ulCount % 2 ^ 32) buf s).1 < 2 ^ 32 := by
    unfold btMtdRead
    split_ifs
    · exact (by decide : errInvalidValue < 2 ^ 32)
    · exact Nat.two_pow_pos 32
    · rw [hd.read]
      exact Nat.mod_lt _ (Nat.two_pow_pos 32)
  simp only [mtdblockBlockread, mtdBlockSize] at hbound ⊢
  omega

/-- A read that is right, whatever the flash holds, is safe. -/
theorem readSafe_of_right (law : FlashLaw d contents) (hd : d.Reliable)
    (hfull : ∀ m, ∃ s, contents s = m) (hright : ∀ s buf,
      ReadRight d mtd contents ulBlock ulCount buf s) : mtd.ReadSafe ulBlock ulCount := by
  have hdone : ∀ s buf, (mtdblockBlockread d mtd ulBlock ulCount buf s).1 = ulCount ∧
      ∀ i < ulCount * mtdBlockSize, (mtdblockBlockread d mtd ulBlock ulCount buf s).2.1 i =
        contents s (mtd.base + ulBlock * mtdBlockSize + i) := by
    intro s buf
    have hlt : (mtdblockBlockread d mtd ulBlock ulCount buf s).1 < 2 ^ 23 := mtdblockBlockread_lt hd
    rcases (hright s buf).1 with h | h
    · exact h
    · omega
  have hin : ¬mtd.Outside ulBlock ulCount := by
    intro hout
    obtain ⟨s, -⟩ := hfull erased
    have hlt : (mtdblockBlockread d mtd ulBlock ulCount erased s).1 < 2 ^ 23 :=
      mtdblockBlockread_lt hd
    have hneg := ((hright s erased).2 hout).1
    omega
  obtain ⟨s, hs⟩ := hfull fun x => if x < mtd.base + ulBlock * mtdBlockSize then 0 else 1
  obtain ⟨hret, hbytes⟩ := hdone s erased
  unfold Mtd.ReadSafe
  by_cases hcount : ulCount = 0
  · subst hcount
    rw [if_pos rfl]
    by_contra hout
    rw [Nat.mul_comm] at hout
    have hbad : (mtdblockBlockread d mtd ulBlock 0 erased s).1 =
        errInvalidValue / mtdBlockSize := by
      simp only [mtdblockBlockread, btMtdRead, if_pos (Or.inl (not_le.mp hout))]
    rw [hret] at hbad
    exact absurd hbad (by decide)
  · rw [if_neg hcount]
    have hlt : (mtdblockBlockread d mtd ulBlock ulCount erased s).1 < 2 ^ 23 :=
      mtdblockBlockread_lt hd
    have hlen : ulCount * mtdBlockSize < 2 ^ 32 := by
      rw [hret] at hlt
      simp only [mtdBlockSize]
      omega
    refine ⟨hin, ?_, hlen⟩
    by_contra hwrap
    have hin' : ulBlock * mtdBlockSize + ulCount * mtdBlockSize ≤ mtd.size := by
      by_contra hout
      exact hin ⟨hcount, not_le.mp hout⟩
    have hblock : 0 < mtdBlockSize := by decide
    have hlen0 : 0 < ulCount * mtdBlockSize := Nat.mul_pos (Nat.pos_of_ne_zero hcount) hblock
    obtain ⟨pos, hpos⟩ : ∃ pos, pos = ulBlock * mtdBlockSize % 2 ^ 32 := ⟨_, rfl⟩
    have hposlt : pos < ulBlock * mtdBlockSize := by omega
    -- the bytes come from the cut position
    have hcut : (mtdblockBlockread d mtd ulBlock ulCount erased s).2.1 0 =
        contents s (mtd.base + pos) := by
      unfold mtdblockBlockread btMtdRead
      rw [Nat.mul_comm mtdBlockSize ulBlock, Nat.mul_comm mtdBlockSize ulCount, ← hpos,
        Nat.mod_eq_of_lt hlen, if_neg (by omega), if_neg hlen0.ne', mtd.driverAddr_eq (by omega)]
      exact (law.read _ _ _ _ (hd.read ..)).2 0 hlen0
    have hbyte := hbytes 0 hlen0
    rw [hcut, hs] at hbyte
    simp only [Nat.add_zero, lt_irrefl, if_false] at hbyte
    rw [if_pos (by omega)] at hbyte
    exact absurd hbyte (by decide)

end Read

/-! ## Writes

A request is followed turn by turn. It fits, it is refused at its first sector, or it comes to a
sector behind the end, with the sectors before it written. -/

section Turn

variable {σ : Type} (d : MtdDriver σ) (mtd : Mtd) (pos len : ℕ) (buf cache : Memory) (s : σ)

/-- One turn of the loop of `mtdblock_blockwrite`. -/
def blockwriteTurn : Option ℕ × Memory × σ :=
  if mtd.firstSize pos len = mtd.eraseSize then
    ((writeSector d mtd (mtd.sectStart pos) buf s).1, cache,
      (writeSector d mtd (mtd.sectStart pos) buf s).2)
  else modifySector d mtd (mtd.sectStart pos) (pos - mtd.sectStart pos)
    (mtd.firstSize pos len) buf cache s

variable {d mtd pos len buf cache s}

/-- The loop, turn by turn. -/
theorem blockwriteLoop_turn (hlen : len ≠ 0) :
    blockwriteLoop d mtd pos len buf cache s =
      match (blockwriteTurn d mtd pos len buf cache s).1 with
      | some ret => (some ret, (blockwriteTurn d mtd pos len buf cache s).2.2)
      | none =>
        blockwriteLoop d mtd (wordAdd pos (mtd.firstSize pos len)) (len - mtd.firstSize pos len)
          (buf.advance (mtd.firstSize pos len)) (blockwriteTurn d mtd pos len buf cache s).2.1
          (blockwriteTurn d mtd pos len buf cache s).2.2 := by
  rw [blockwriteLoop, dif_neg hlen]
  rfl

theorem firstSize_pos (hlen : len ≠ 0) : 0 < mtd.firstSize pos len :=
  chunkSize_pos mtd (sectorOffset_lt mtd pos) hlen

/-- The first piece is no longer than the request. -/
theorem firstSize_le : mtd.firstSize pos len ≤ len := chunkSize_le mtd _ len

theorem sectStart_le : mtd.sectStart pos ≤ pos := Nat.div_mul_le_self pos mtd.eraseSize

/-- If the request does not end with it, the first turn goes to the end of its sector. -/
theorem add_firstSize (h : mtd.firstSize pos len < len) :
    pos + mtd.firstSize pos len = mtd.sectStart pos + mtd.eraseSize := by
  have hlt : pos - mtd.sectStart pos < mtd.eraseSize := sectorOffset_lt mtd pos
  have hle : mtd.sectStart pos ≤ pos := sectStart_le
  unfold Mtd.firstSize chunkSize at h ⊢
  split_ifs at h ⊢ with hshort
  · omega
  · omega

/-- The sector a later byte is in does not begin before that. -/
theorem sectStart_add_le {x : ℕ} (h : mtd.sectStart pos + mtd.eraseSize ≤ x) :
    mtd.sectStart pos + mtd.eraseSize ≤ mtd.sectStart x := by
  have hdiv : pos / mtd.eraseSize + 1 ≤ x / mtd.eraseSize := by
    rw [Nat.le_div_iff_mul_le mtd.eraseSize_pos, Nat.succ_mul]
    exact h
  have hmul := Nat.mul_le_mul_right mtd.eraseSize hdiv
  rw [Nat.succ_mul] at hmul
  exact hmul

/-- A turn writes its bytes, or fails with an error. -/
theorem blockwriteTurn_spec {contents : σ → Memory} (law : FlashLaw d contents) :
    ((blockwriteTurn d mtd pos len buf cache s).1 = none →
      contents (blockwriteTurn d mtd pos len buf cache s).2.2 =
        (contents s).overlay (mtd.base + pos) (mtd.firstSize pos len) buf) ∧
    ∀ ret, (blockwriteTurn d mtd pos len buf cache s).1 = some ret → 2 ^ 31 ≤ ret :=
  chunk_spec law rfl rfl rfl rfl

/-- A turn in a sector that is not wholly in the device is refused, before the driver is asked. -/
theorem blockwriteTurn_of_overrun (h : mtd.size < mtd.sectStart pos + mtd.eraseSize) :
    (∃ ret, (blockwriteTurn d mtd pos len buf cache s).1 = some ret) ∧
      (blockwriteTurn d mtd pos len buf cache s).2.2 = s := by
  have hrange : mtd.size < mtd.sectStart pos ∨ mtd.size - mtd.sectStart pos < mtd.eraseSize := by
    omega
  unfold blockwriteTurn
  split_ifs
  · rw [writeSector_of_overrun h]
    exact ⟨⟨_, rfl⟩, rfl⟩
  · simp only [modifySector, btMtdRead, if_pos hrange]
    split_ifs
    · exact ⟨⟨_, rfl⟩, rfl⟩
    · rw [writeSector_of_overrun h]
      exact ⟨⟨_, rfl⟩, rfl⟩

/-- A device that is not writeable refuses the erase, and is left as it was. -/
theorem writeSector_of_readonly (h : mtd.flags &&& mtdWriteable = 0) (start : ℕ) (buf : Memory)
    (s : σ) :
    (∃ ret, (writeSector d mtd start buf s).1 = some ret) ∧
    (writeSector d mtd start buf s).2 = s := by
  have herase : (btMtdErase d mtd start mtd.eraseSize s).1 ≠ 0 ∧
      (btMtdErase d mtd start mtd.eraseSize s).2 = s := by
    unfold btMtdErase
    split_ifs
    · exact ⟨errInvalidValue_ne_zero, rfl⟩
    · exact ⟨errGeneric_ne_zero, rfl⟩
  simp only [writeSector, if_pos herase.1, herase.2]
  exact ⟨⟨_, rfl⟩, trivial⟩

/-- A sector that has been written is in the device, and the device can be written. -/
theorem writeSector_inside {start : ℕ} (h : (writeSector d mtd start buf s).1 = none) :
    mtd.flags &&& mtdWriteable ≠ 0 ∧ start + mtd.eraseSize ≤ mtd.size := by
  constructor
  · intro hreadonly
    obtain ⟨⟨ret, hret⟩, -⟩ := writeSector_of_readonly (d := d) hreadonly start buf s
    rw [h] at hret
    exact absurd hret (by simp)
  · by_contra hout
    rw [writeSector_of_overrun (not_le.mp hout)] at h
    exact absurd h (by simp)

/-- So is one in a device that can not be written. -/
theorem blockwriteTurn_of_readonly {contents : σ → Memory} (law : MtdLaw d contents)
    (h : mtd.flags &&& mtdWriteable = 0) :
    (∃ ret, (blockwriteTurn d mtd pos len buf cache s).1 = some ret) ∧
      contents (blockwriteTurn d mtd pos len buf cache s).2.2 = contents s := by
  have hread : ∀ start buf, contents (btMtdRead d mtd start mtd.eraseSize buf s).2.2 =
      contents s := by
    intro start buf
    unfold btMtdRead
    split_ifs
    · rfl
    · rfl
    · exact law.read_keeps ..
  unfold blockwriteTurn
  split_ifs
  · obtain ⟨hret, hs⟩ := writeSector_of_readonly (d := d) h (mtd.sectStart pos) buf s
    exact ⟨hret, congrArg contents hs⟩
  · simp only [modifySector]
    split_ifs
    · exact ⟨⟨_, rfl⟩, hread ..⟩
    · obtain ⟨hret, hs⟩ := writeSector_of_readonly (d := d) h (mtd.sectStart pos)
        ((btMtdRead d mtd (mtd.sectStart pos) mtd.eraseSize cache s).2.1.overlay
          (pos - mtd.sectStart pos)
          (mtd.firstSize pos len) buf)
            (btMtdRead d mtd (mtd.sectStart pos) mtd.eraseSize cache s).2.2
      refine ⟨hret, ?_⟩
      rw [hs]
      exact hread ..

/-! Turns without a write cache. -/

/-- Without a cache a whole sector is still written, and its error is returned. -/
theorem blockwriteNull_of_failed (hlen : len ≠ 0) (hfull : mtd.firstSize pos len = mtd.eraseSize)
    {ret : ℕ} (h : (writeSector d mtd (mtd.sectStart pos) buf s).1 = some ret) :
    blockwriteNull d mtd pos len buf s = some
    (some ret, (writeSector d mtd (mtd.sectStart pos) buf s).2) := by
  simp only [Mtd.firstSize, Mtd.sectStart] at hfull h ⊢
  rw [blockwriteNull, dif_neg hlen]
  dsimp only
  rw [if_pos hfull, h]

/-- After a whole sector the loop goes on behind it. -/
theorem blockwriteNull_of_written (hlen : len ≠ 0) (hfull : mtd.firstSize pos len = mtd.eraseSize)
    (h : (writeSector d mtd (mtd.sectStart pos) buf s).1 = none) :
    blockwriteNull d mtd pos len buf s =
      blockwriteNull d mtd (wordAdd pos (mtd.firstSize pos len)) (len - mtd.firstSize pos len)
        (buf.advance (mtd.firstSize pos len)) (writeSector d mtd (mtd.sectStart pos) buf s).2 := by
  simp only [Mtd.firstSize, Mtd.sectStart] at hfull h ⊢
  rw [blockwriteNull, dif_neg hlen]
  dsimp only
  rw [if_pos hfull, h]

/-- A part of a sector is read into the cache that there is not; only a refused read comes back from
that. -/
theorem blockwriteNull_of_part (hlen : len ≠ 0) (hpart : mtd.firstSize pos len ≠ mtd.eraseSize) :
    blockwriteNull d mtd pos len buf s =
      if mtd.RefusesRead (mtd.sectStart pos) then some (some errInvalidValue, s) else none := by
  simp only [Mtd.firstSize, Mtd.sectStart] at hpart ⊢
  rw [blockwriteNull, dif_neg hlen]
  exact (if_neg hpart).trans (if_congr Iff.rfl rfl rfl)

end Turn

section Loop

variable {σ : Type} {d : MtdDriver σ} {mtd : Mtd} {contents : σ → Memory} {pos len : ℕ}
  {buf cache : Memory} {s : σ}

/-- What one turn keeps or fails with holds for the loop. -/
theorem blockwriteLoop_error (law : FlashLaw d contents) {ret : ℕ}
    (h : (blockwriteLoop d mtd pos len buf cache s).1 = some ret) : 2 ^ 31 ≤ ret := by
  induction len using Nat.strong_induction_on generalizing pos buf cache s with
  | _ len ih =>
    by_cases hlen : len = 0
    · subst hlen
      rw [blockwriteLoop, dif_pos rfl] at h
      exact absurd h (by simp)
    · rw [blockwriteLoop_turn hlen] at h
      cases hturn : (blockwriteTurn d mtd pos len buf cache s).1 with
      | some ret' =>
        simp only [hturn, Option.some.injEq] at h
        subst h
        exact (blockwriteTurn_spec law).2 _ hturn
      | none =>
        simp only [hturn] at h
        have hpos : 0 < mtd.firstSize pos len := firstSize_pos hlen
        exact ih _ (by omega) h

/-- A loop that comes to a sector that is not wholly in the device fails. -/
theorem blockwriteLoop_of_overruns (h : mtd.overruns pos len = true) :
    ∃ ret, (blockwriteLoop d mtd pos len buf cache s).1 = some ret := by
  induction len using Nat.strong_induction_on generalizing pos buf cache s with
  | _ len ih =>
    by_cases hlen : len = 0
    · subst hlen
      rw [Mtd.overruns, dif_pos rfl] at h
      exact absurd h (by decide)
    · rw [Mtd.overruns, dif_neg hlen, Bool.or_eq_true, decide_eq_true_eq] at h
      rw [blockwriteLoop_turn hlen]
      cases hturn : (blockwriteTurn d mtd pos len buf cache s).1 with
      | some ret => exact ⟨ret, rfl⟩
      | none =>
        rcases h with hfirst | hlater
        · obtain ⟨ret, hret⟩ := (blockwriteTurn_of_overrun hfirst).1
          rw [hturn] at hret
          exact absurd hret (by simp)
        · have hpos : 0 < mtd.firstSize pos len := firstSize_pos hlen
          exact ih _ (by omega) hlater

/-- A request that is refused at its first sector leaves the flash as it is. -/
theorem blockwriteLoop_of_refused (law : MtdLaw d contents) (hlen : len ≠ 0)
    (h : mtd.flags &&& mtdWriteable = 0 ∨ mtd.size < mtd.sectStart pos + mtd.eraseSize) :
    (∃ ret, (blockwriteLoop d mtd pos len buf cache s).1 = some ret) ∧
      contents (blockwriteLoop d mtd pos len buf cache s).2 = contents s := by
  have hturn : (∃ ret, (blockwriteTurn d mtd pos len buf cache s).1 = some ret) ∧
      contents (blockwriteTurn d mtd pos len buf cache s).2.2 = contents s := by
    rcases h with hreadonly | hoverrun
    · exact blockwriteTurn_of_readonly law hreadonly
    · obtain ⟨hret, hs⟩ := blockwriteTurn_of_overrun hoverrun
      exact ⟨hret, congrArg contents hs⟩
  obtain ⟨⟨ret, hret⟩, hsame⟩ := hturn
  rw [blockwriteLoop_turn hlen, hret]
  exact ⟨⟨ret, rfl⟩, hsame⟩

/-- The whole loop, if the position does not wrap around before its last turn. -/
theorem blockwriteLoop_done (law : FlashLaw d contents)
    (hwrap : len ≠ 0 → mtd.sectStart (pos + len - 1) < 2 ^ 32)
    (h : (blockwriteLoop d mtd pos len buf cache s).1 = none) :
    contents (blockwriteLoop d mtd pos len buf cache s).2 = (contents s).overlay
    (mtd.base + pos) len buf := by
  induction len using Nat.strong_induction_on generalizing pos buf cache s with
  | _ len ih =>
    by_cases hlen : len = 0
    · subst hlen
      rw [blockwriteLoop, dif_pos rfl]
      exact overlay_zero.symm
    · rw [blockwriteLoop_turn hlen] at h ⊢
      cases hturn : (blockwriteTurn d mtd pos len buf cache s).1 with
      | some ret =>
        rw [hturn] at h
        exact absurd h (by simp)
      | none =>
        rw [hturn] at h
        simp only at h ⊢
        have hpos : 0 < mtd.firstSize pos len := firstSize_pos hlen
        have hle : mtd.firstSize pos len ≤ len := firstSize_le
        have hfirst := (blockwriteTurn_spec law).1 hturn
        by_cases hlast : len - mtd.firstSize pos len = 0
        · have hall : mtd.firstSize pos len = len := by omega
          rw [hlast, blockwriteLoop, dif_pos rfl, hfirst, hall]
        · have hnext := add_firstSize (show mtd.firstSize pos len < len by omega)
          have hin : mtd.sectStart pos + mtd.eraseSize ≤ pos + len - 1 := by omega
          have hsect := sectStart_add_le hin
          have hlt := hwrap hlen
          have hword : wordAdd pos (mtd.firstSize pos len) = pos + mtd.firstSize pos len :=
            wordAdd_of_lt (by omega)
          rw [hword] at h ⊢
          have hrest := ih (len - mtd.firstSize pos len) (by omega) (fun _ => ?_) h
          · rw [hrest, hfirst, ← Nat.add_assoc, overlay_overlay, Nat.add_sub_cancel' hle]
          · rw [show pos + mtd.firstSize pos len + (len - mtd.firstSize pos len) - 1 =
              pos + len - 1 by omega]
            exact hlt

end Loop

section Write

variable {σ : Type} {d : MtdDriver σ} {mtd : Mtd} {contents : σ → Memory} {ulBlock ulCount : ℕ}
  {buf cache : Memory} {s : σ}

/-- The result of `mtdblock_blockwrite` with a write cache. -/
def cachedWrite (d : MtdDriver σ) (mtd : Mtd) (ulBlock ulCount : ℕ) (buf cache : Memory) (s : σ) :
    ℕ × σ :=
  let r := blockwriteLoop d mtd (ulBlock * mtdBlockSize % 2 ^ 32)
    (ulCount * mtdBlockSize % 2 ^ 32) buf cache s
  (r.1.getD ulCount, r.2)

/-- With a cache the function is the loop over the sectors. -/
theorem writeRight_some : WriteRight d mtd contents ulBlock ulCount buf (some cache) s ↔
    WriteOutcome mtd contents ulBlock ulCount buf s
    (cachedWrite d mtd ulBlock ulCount buf cache s) := by
  constructor
  · rintro ⟨r, hr, hout⟩
    obtain rfl : cachedWrite d mtd ulBlock ulCount buf cache s = r := Option.some.inj hr
    exact hout
  · exact fun hout => ⟨_, rfl, hout⟩

/-- With a write cache a request that fits is done, or refused. -/
theorem writeOutcome_of_fits (law : MtdLaw d contents) (hsafe : mtd.WriteFits ulBlock ulCount) :
    WriteOutcome mtd contents ulBlock ulCount buf s
    (cachedWrite d mtd ulBlock ulCount buf cache s) := by
  unfold WriteOutcome cachedWrite
  dsimp only
  obtain ⟨pos, hpos⟩ : ∃ pos, pos = ulBlock * mtdBlockSize % 2 ^ 32 := ⟨_, rfl⟩
  obtain ⟨len, hlen⟩ : ∃ len, len = ulCount * mtdBlockSize % 2 ^ 32 := ⟨_, rfl⟩
  unfold Mtd.WriteFits at hsafe
  rw [← hpos, ← hlen] at hsafe ⊢
  rcases hsafe with rfl | ⟨hne, hrefused⟩ | ⟨hin, hcase⟩ | ⟨rfl, hneg⟩
  · obtain rfl : len = 0 := by rw [hlen, Nat.zero_mul, Nat.zero_mod]
    rw [blockwriteLoop, dif_pos rfl, Nat.zero_mul]
    exact ⟨.inl ⟨rfl, overlay_zero.symm⟩, fun h => absurd rfl h.1⟩
  · have hloop : (∃ ret, (blockwriteLoop d mtd pos len buf cache s).1 = some ret) ∧ _ :=
      blockwriteLoop_of_refused law hne hrefused
    obtain ⟨⟨ret, hret⟩, hsame⟩ := hloop
    have herror := blockwriteLoop_error law.toFlashLaw hret
    rw [hret]
    exact ⟨.inr herror, fun _ => ⟨herror, hsame⟩⟩
  · refine ⟨?_, fun hout => absurd hout hin⟩
    cases hret : (blockwriteLoop d mtd pos len buf cache s).1 with
    | some ret => exact .inr (blockwriteLoop_error law.toFlashLaw hret)
    | none =>
      rcases hcase with hoverruns | ⟨hT, hL, hlast⟩ | hneg
      · have hloop : ∃ ret, (blockwriteLoop d mtd pos len buf cache s).1 = some ret :=
          blockwriteLoop_of_overruns hoverruns
        obtain ⟨ret, hret'⟩ := hloop
        rw [hret] at hret'
        exact absurd hret' (by simp)
      · rw [Nat.mod_eq_of_lt hT] at hpos
        rw [Nat.mod_eq_of_lt hL] at hlen
        rw [← hpos, ← hlen] at hlast ⊢
        exact .inl ⟨rfl, blockwriteLoop_done law.toFlashLaw (fun _ => hlast) hret⟩
      · exact .inr hneg
  · rw [blockwriteLoop, dif_pos rfl]
    exact ⟨.inr hneg, fun _ => ⟨hneg, rfl⟩⟩

/-- A request that does not come to use the write cache has a result without one, the same. -/
theorem blockwriteNull_eq {pos len : ℕ} {buf : Memory} {s : σ} (h : mtd.usesCache pos len = false)
    (cache : Memory) :
    blockwriteNull d mtd pos len buf s = some (blockwriteLoop d mtd pos len buf cache s) := by
  obtain ⟨r, hr⟩ : ∃ r, blockwriteNull d mtd pos len buf s = some r := by
    induction len using Nat.strong_induction_on generalizing pos buf s with
    | _ len ih =>
      by_cases hlen : len = 0
      · rw [blockwriteNull, dif_pos hlen]
        exact ⟨_, rfl⟩
      · have hpos : 0 < mtd.firstSize pos len := firstSize_pos hlen
        rw [Mtd.usesCache, dif_neg hlen] at h
        split_ifs at h with hfull
        · cases hret : (writeSector d mtd (mtd.sectStart pos) buf s).1 with
          | some ret => exact ⟨_, blockwriteNull_of_failed hlen hfull hret⟩
          | none =>
            -- what has been written is in the device, which can be written
            obtain ⟨hw, hin⟩ := writeSector_inside hret
            have hrest : mtd.usesCache (wordAdd pos (mtd.firstSize pos len))
                (len - mtd.firstSize pos len) = false := by
              simpa [hin, hw] using h
            obtain ⟨r, hr⟩ := ih _ (by omega) hrest
            exact ⟨r, (blockwriteNull_of_written hlen hfull hret).trans hr⟩
        · rw [Bool.not_eq_false', decide_eq_true_eq] at h
          exact ⟨_, (blockwriteNull_of_part hlen hfull).trans (if_pos h)⟩
  rw [hr, blockwriteLoop_of_null hr cache]

/-- A safe write is done, or refused. -/
theorem writeRight_of_safe (law : MtdLaw d contents) {cache : Option Memory}
    (hsafe : mtd.WriteSafe cache.isSome ulBlock ulCount) :
    WriteRight d mtd contents ulBlock ulCount buf cache s := by
  obtain ⟨hcache, hfits⟩ := hsafe
  cases cache with
  | some cache => exact writeRight_some.mpr (writeOutcome_of_fits law hfits)
  | none =>
    refine ⟨cachedWrite d mtd ulBlock ulCount buf erased s, ?_, writeOutcome_of_fits law hfits⟩
    unfold mtdblockBlockwrite
    dsimp only
    rw [blockwriteNull_eq (hcache rfl) erased]
    rfl

end Write

/-! ## What the loop can not do

The other direction: for a driver that does not fail, contents and a buffer are chosen that show
what has been written and what has not. -/

section Reliable

variable {σ : Type} {d : MtdDriver σ} {mtd : Mtd} {contents : σ → Memory} {pos len : ℕ}
  {buf cache : Memory} {s : σ}

/-- On a reliable device one turn within the device succeeds. -/
theorem blockwriteTurn_none (hd : d.Reliable) (hw : mtd.flags &&& mtdWriteable ≠ 0)
    (hin : mtd.sectStart pos + mtd.eraseSize ≤ mtd.size) :
    (blockwriteTurn d mtd pos len buf cache s).1 = none := by
  unfold blockwriteTurn
  split_ifs
  · exact writeSector_none hd hin hw
  · exact modifySector_none hd hin hw

/-- A turn writes its bytes or nothing. -/
theorem blockwriteTurn_cases (law : MtdLaw d contents) (hd : d.Reliable) (buf cache : Memory)
    (s : σ) :
    (blockwriteTurn d mtd pos len buf cache s).1 = none ∧
        contents (blockwriteTurn d mtd pos len buf cache s).2.2 =
          (contents s).overlay (mtd.base + pos) (mtd.firstSize pos len) buf ∨
      (∃ ret, (blockwriteTurn d mtd pos len buf cache s).1 = some ret) ∧
        contents (blockwriteTurn d mtd pos len buf cache s).2.2 = contents s := by
  by_cases hw : mtd.flags &&& mtdWriteable = 0
  · exact .inr (blockwriteTurn_of_readonly law hw)
  by_cases hin : mtd.sectStart pos + mtd.eraseSize ≤ mtd.size
  · have hnone : (blockwriteTurn d mtd pos len buf cache s).1 = none :=
      blockwriteTurn_none hd hw hin
    exact .inl ⟨hnone, (blockwriteTurn_spec law.toFlashLaw).1 hnone⟩
  · obtain ⟨hret, hs⟩ := blockwriteTurn_of_overrun (not_le.mp hin)
    exact .inr ⟨hret, congrArg contents hs⟩

/-- On a reliable device all turns succeed if none of them reaches over the end. -/
theorem blockwriteLoop_not_overruns (hd : d.Reliable) (hw : mtd.flags &&& mtdWriteable ≠ 0)
    (h : mtd.overruns pos len = false) : (blockwriteLoop d mtd pos len buf cache s).1 = none := by
  induction len using Nat.strong_induction_on generalizing pos buf cache s with
  | _ len ih =>
    by_cases hlen : len = 0
    · subst hlen
      rw [blockwriteLoop, dif_pos rfl]
    · rw [Mtd.overruns, dif_neg hlen, Bool.or_eq_false_iff, decide_eq_false_iff_not, not_lt] at h
      have hpos : 0 < mtd.firstSize pos len := firstSize_pos hlen
      rw [blockwriteLoop_turn hlen, blockwriteTurn_none hd hw h.1]
      exact ih _ (by omega) h.2

/-- Nothing is written behind the end of the request. -/
theorem blockwriteLoop_frame (law : MtdLaw d contents) (hd : d.Reliable) {x : ℕ}
    (hx : pos + len ≤ x) :
    contents (blockwriteLoop d mtd pos len buf cache s).2 (mtd.base + x) = contents s
    (mtd.base + x) := by
  induction len using Nat.strong_induction_on generalizing pos buf cache s with
  | _ len ih =>
    by_cases hlen : len = 0
    · subst hlen
      rw [blockwriteLoop, dif_pos rfl]
    · have hpos : 0 < mtd.firstSize pos len := firstSize_pos hlen
      have hle : mtd.firstSize pos len ≤ len := firstSize_le
      rw [blockwriteLoop_turn hlen]
      rcases blockwriteTurn_cases law hd buf cache s with ⟨hnone, hwritten⟩ | ⟨⟨ret, hret⟩, hsame⟩
      · have hword : wordAdd pos (mtd.firstSize pos len) ≤ pos + mtd.firstSize pos len :=
          Nat.mod_le _ _
        rw [hnone]
        refine (ih _ (by omega) (by omega)).trans ?_
        rw [hwritten]
        exact overlay_of_out (by omega)
      · rw [hret]
        exact congrFun hsame _

/-- If the position wraps around before the last turn, the last byte is not written. -/
theorem blockwriteLoop_last (law : MtdLaw d contents) (hd : d.Reliable) (hpos32 : pos < 2 ^ 32)
    (hlen32 : len < 2 ^ 32) (hlen : len ≠ 0) (hwrap : 2 ^ 32 ≤ mtd.sectStart (pos + len - 1)) :
    contents (blockwriteLoop d mtd pos len buf cache s).2 (mtd.base + (pos + len - 1)) =
      contents s (mtd.base + (pos + len - 1)) := by
  induction len using Nat.strong_induction_on generalizing pos buf cache s with
  | _ len ih =>
    have hpos : 0 < mtd.firstSize pos len := firstSize_pos hlen
    have hle : mtd.firstSize pos len ≤ len := firstSize_le
    -- the first turn ends in another sector than the last byte is in
    have hmore : mtd.firstSize pos len < len := by
      by_contra hall
      have heq : pos + len - 1 < mtd.sectStart pos + mtd.eraseSize := by
        have hfits := chunkSize_fits (sectorOffset_lt mtd pos) len
        have hstart : mtd.sectStart pos ≤ pos := sectStart_le
        have hsize : chunkSize mtd (pos - pos / mtd.eraseSize * mtd.eraseSize) len =
            mtd.firstSize pos len := rfl
        have hsect : pos / mtd.eraseSize * mtd.eraseSize = mtd.sectStart pos := rfl
        omega
      have hlast : mtd.sectStart (pos + len - 1) = mtd.sectStart pos := by
        have hdiv : (pos + len - 1) / mtd.eraseSize = pos / mtd.eraseSize := by
          apply le_antisymm
          · rw [← Nat.lt_succ_iff, Nat.div_lt_iff_lt_mul mtd.eraseSize_pos, Nat.succ_mul]
            exact heq
          · exact Nat.div_le_div_right (by omega)
        rw [Mtd.sectStart, hdiv, Mtd.sectStart]
      have hstart : mtd.sectStart pos ≤ pos := sectStart_le
      omega
    have hnext := add_firstSize hmore
    rw [blockwriteLoop_turn hlen]
    rcases blockwriteTurn_cases law hd buf cache s with ⟨hnone, hwritten⟩ | ⟨⟨ret, hret⟩, hsame⟩
    · rw [hnone]
      have hkept : contents (blockwriteTurn d mtd pos len buf cache s).2.2
          (mtd.base + (pos + len - 1)) =
          contents s (mtd.base + (pos + len - 1)) := by
        rw [hwritten]
        exact overlay_of_out (by omega)
      refine Eq.trans ?_ hkept
      by_cases hword : pos + mtd.firstSize pos len < 2 ^ 32
      · have hend : pos + len - 1 = pos + mtd.firstSize pos len +
            (len - mtd.firstSize pos len) - 1 := by omega
        rw [hend] at hwrap ⊢
        rw [wordAdd_of_lt hword]
        exact ih _ (by omega) hword (by omega) (by omega) hwrap
      · have hwrapped : wordAdd pos (mtd.firstSize pos len) =
            pos + mtd.firstSize pos len - 2 ^ 32 := by
          unfold wordAdd
          omega
        apply blockwriteLoop_frame law hd
        omega
    · rw [hret]
      exact congrFun hsame _

/-- The same byte everywhere. -/
def Memory.filled (v : UInt8) : Memory := fun _ => v

/-- A byte that is the same as all bytes of the buffer stays as it is. -/
theorem blockwriteLoop_keeps (law : MtdLaw d contents) (hd : d.Reliable) {v : UInt8} {x : ℕ}
    (hx : contents s x = v) :
    contents (blockwriteLoop d mtd pos len (filled v) cache s).2 x = v := by
  induction len using Nat.strong_induction_on generalizing pos cache s with
  | _ len ih =>
    by_cases hlen : len = 0
    · subst hlen
      rw [blockwriteLoop, dif_pos rfl]
      exact hx
    · have hpos : 0 < mtd.firstSize pos len := firstSize_pos hlen
      rw [blockwriteLoop_turn hlen]
      rcases blockwriteTurn_cases law hd (filled v) cache s with
        ⟨hnone, hwritten⟩ | ⟨⟨ret, hret⟩, hsame⟩
      · rw [hnone]
        have hturn : contents (blockwriteTurn d mtd pos len (filled v) cache s).2.2 x = v := by
          rw [hwritten]
          unfold overlay
          split_ifs
          · rfl
          · exact hx
        exact ih _ (by omega) hturn
      · rw [hret]
        exact (congrFun hsame _).trans hx

/-- A write that gets past its first sector leaves a trace. -/
theorem blockwriteLoop_trace (law : MtdLaw d contents) (hd : d.Reliable)
    (hw : mtd.flags &&& mtdWriteable ≠ 0) (hin : mtd.sectStart pos + mtd.eraseSize ≤ mtd.size)
    (hlen : len ≠ 0) {v : UInt8} :
    contents (blockwriteLoop d mtd pos len (filled v) cache s).2 (mtd.base + pos) = v := by
  have hnone : (blockwriteTurn d mtd pos len (filled v) cache s).1 = none :=
    blockwriteTurn_none hd hw hin
  rw [blockwriteLoop_turn hlen, hnone]
  apply blockwriteLoop_keeps law hd
  rw [(blockwriteTurn_spec law.toFlashLaw).1 hnone]
  exact overlay_of_in (firstSize_pos hlen)

/-- If the driver does not fail, a loop that comes to use the write cache has no result without one.
-/
theorem blockwriteNull_none (hd : d.Reliable) {pos len : ℕ} {buf : Memory} {s : σ}
    (h : mtd.usesCache pos len = true) : blockwriteNull d mtd pos len buf s = none := by
  induction len using Nat.strong_induction_on generalizing pos buf s with
  | _ len ih =>
    by_cases hlen : len = 0
    · rw [Mtd.usesCache, dif_pos hlen] at h
      exact absurd h (by decide)
    · have hpos : 0 < mtd.firstSize pos len := firstSize_pos hlen
      rw [Mtd.usesCache, dif_neg hlen] at h
      split_ifs at h with hfull
      · simp only [Bool.and_eq_true, bne_iff_ne, decide_eq_true_eq] at h
        obtain ⟨⟨hw, hin⟩, hrest⟩ := h
        rw [blockwriteNull_of_written hlen hfull (writeSector_none hd hin hw)]
        exact ih _ (by omega) hrest
      · rw [Bool.not_eq_true', decide_eq_false_iff_not] at h
        exact (blockwriteNull_of_part hlen hfull).trans (if_neg h)

/-- With a write cache a request whose result is right, whatever is written and whatever was there,
fits. -/
theorem writeFits_of_outcome (law : MtdLaw d contents) (hd : d.Reliable) {ulBlock ulCount : ℕ}
    {s : σ} (hs : contents s = filled 0)
    (h : WriteOutcome mtd contents ulBlock ulCount (filled 1) s
      (cachedWrite d mtd ulBlock ulCount (filled 1) erased s)) :
    mtd.WriteFits ulBlock ulCount := by
  unfold WriteOutcome cachedWrite at h
  dsimp only at h
  unfold Mtd.WriteFits
  obtain ⟨pos, hpos⟩ : ∃ pos, pos = ulBlock * mtdBlockSize % 2 ^ 32 := ⟨_, rfl⟩
  obtain ⟨len, hlen⟩ : ∃ len, len = ulCount * mtdBlockSize % 2 ^ 32 := ⟨_, rfl⟩
  rw [← hpos, ← hlen] at h ⊢
  by_contra hunsafe
  simp only [not_or, not_and, not_le, not_lt, ne_eq] at hunsafe
  obtain ⟨hcount, hfirst, hinside, hzero⟩ := hunsafe
  have hzeroone : (0 : UInt8) ≠ 1 := by decide
  have hblock : 0 < mtdBlockSize := by decide
  have hL : 0 < ulCount * mtdBlockSize := Nat.mul_pos (Nat.pos_of_ne_zero hcount) hblock
  -- if the loop ends without an error, the last byte of the request has to be there
  have hdone : ulCount < 2 ^ 31 → (blockwriteLoop d mtd pos len (filled 1) erased s).1 = none →
      ¬mtd.Outside ulBlock ulCount ∧ contents (blockwriteLoop d mtd pos len (filled 1) erased s).2
        (mtd.base + (ulBlock * mtdBlockSize + ulCount * mtdBlockSize - 1)) = 1 := by
    intro hsmall hnone
    rw [hnone, Option.getD_none] at h
    refine ⟨fun hout => absurd (h.2 hout).1 (by omega), ?_⟩
    rcases h.1 with ⟨-, hall⟩ | hneg
    · rw [hall, show mtd.base + (ulBlock * mtdBlockSize + ulCount * mtdBlockSize - 1) =
        mtd.base + ulBlock * mtdBlockSize + (ulCount * mtdBlockSize - 1) by omega]
      exact overlay_of_in (by omega)
    · omega
  by_cases hlen0 : len = 0
  · have hloop : blockwriteLoop d mtd pos len (filled 1) erased s = (none, s) := by
      rw [blockwriteLoop, dif_pos hlen0]
    obtain ⟨-, hbyte⟩ := hdone (hzero hlen0) (by rw [hloop])
    rw [hloop, hs] at hbyte
    exact absurd hbyte hzeroone
  · obtain ⟨hw, hin⟩ := hfirst hlen0
    have htrace : contents (blockwriteLoop d mtd pos len (filled 1) erased s).2 (mtd.base + pos) =
        1 :=
      blockwriteLoop_trace law hd hw hin hlen0
    by_cases hout : mtd.Outside ulBlock ulCount
    · rw [(h.2 hout).2, hs] at htrace
      exact absurd htrace hzeroone
    · obtain ⟨hoverruns, hwrap, hsmall⟩ := hinside hout
      have hnone : (blockwriteLoop d mtd pos len (filled 1) erased s).1 = none :=
        blockwriteLoop_not_overruns hd hw (Bool.eq_false_iff.mpr hoverruns)
      obtain ⟨-, hbyte⟩ := hdone hsmall hnone
      have hkept : contents (blockwriteLoop d mtd pos len (filled 1) erased s).2
          (mtd.base + (ulBlock * mtdBlockSize + ulCount * mtdBlockSize - 1)) =
          contents s (mtd.base + (ulBlock * mtdBlockSize + ulCount * mtdBlockSize - 1)) := by
        by_cases hcut : pos + len < ulBlock * mtdBlockSize + ulCount * mtdBlockSize
        · exact blockwriteLoop_frame law hd (by omega)
        · have hposle : pos ≤ ulBlock * mtdBlockSize := hpos ▸ Nat.mod_le _ _
          have hlenle : len ≤ ulCount * mtdBlockSize := hlen ▸ Nat.mod_le _ _
          have hpos' : pos = ulBlock * mtdBlockSize := by omega
          have hlen' : len = ulCount * mtdBlockSize := by omega
          have hpos32 : pos < 2 ^ 32 := hpos ▸ Nat.mod_lt _ (Nat.two_pow_pos 32)
          have hlen32 : len < 2 ^ 32 := hlen ▸ Nat.mod_lt _ (Nat.two_pow_pos 32)
          rw [← hpos', ← hlen']
          apply blockwriteLoop_last law hd hpos32 hlen32 hlen0
          by_contra hno
          apply hwrap
          refine ⟨hpos' ▸ hpos32, hlen' ▸ hlen32, ?_⟩
          rw [← hpos', ← hlen']
          exact not_le.mp hno
      rw [hkept, hs] at hbyte
      exact absurd hbyte hzeroone

/-- A write that is right, whatever is written and whatever was there, is safe. -/
theorem writeSafe_of_right (law : MtdLaw d contents) (hd : d.Reliable)
    (hfull : ∀ m, ∃ s, contents s = m) {granted : Bool} {ulBlock ulCount : ℕ}
    (hright : ∀ s buf cache, cache.isSome = granted →
      WriteRight d mtd contents ulBlock ulCount buf cache s) :
    mtd.WriteSafe granted ulBlock ulCount := by
  obtain ⟨s, hs⟩ := hfull (filled 0)
  cases granted with
  | true =>
    refine ⟨fun h => absurd h (by decide), writeFits_of_outcome law hd hs ?_⟩
    exact writeRight_some.mp (hright s (filled 1) (some erased) rfl)
  | false =>
    obtain ⟨r, hr, hout⟩ := hright s (filled 1) none rfl
    obtain ⟨pair, hnull, hpair⟩ := Option.map_eq_some_iff.mp hr
    have huses : mtd.usesCache (ulBlock * mtdBlockSize % 2 ^ 32) (ulCount * mtdBlockSize % 2 ^ 32) =
        false := by
      by_contra huses
      rw [blockwriteNull_none hd (Bool.not_eq_false _ ▸ huses)] at hnull
      exact absurd hnull (by simp)
    refine ⟨fun _ => huses, writeFits_of_outcome law hd hs ?_⟩
    rw [← blockwriteLoop_of_null hnull erased] at hpair
    obtain rfl := hpair
    exact hout

end Reliable

/-- **When block requests are done or fail as they should.** A safe request is, whatever else the
driver does; of a driver that does not fail, no other request is, for all contents of the flash
and of the buffer. `granted` says whether `BT_kMalloc` gives the write cache. -/
theorem block_requests_iff {σ : Type} {d : MtdDriver σ} {contents : σ → Memory}
    (law : MtdLaw d contents) (mtd : Mtd) (granted : Bool) (ulBlock ulCount : ℕ) :
    (mtd.WriteSafe granted ulBlock ulCount → ∀ s buf cache, cache.isSome = granted →
        WriteRight d mtd contents ulBlock ulCount buf cache s) ∧
      (mtd.ReadSafe ulBlock ulCount → ∀ s buf,
        (d.read (mtd.base + ulBlock * mtdBlockSize) (ulCount * mtdBlockSize) buf s).1 =
          ulCount * mtdBlockSize →
        ReadRight d mtd contents ulBlock ulCount buf s) ∧
      (d.Reliable → (∀ m, ∃ s, contents s = m) →
        ((∀ s buf cache, cache.isSome = granted →
          WriteRight d mtd contents ulBlock ulCount buf cache s) ↔
          mtd.WriteSafe granted ulBlock ulCount) ∧
        ((∀ s buf, ReadRight d mtd contents ulBlock ulCount buf s) ↔
          mtd.ReadSafe ulBlock ulCount)) := by
  have hwrite : mtd.WriteSafe granted ulBlock ulCount → ∀ s buf cache, cache.isSome = granted →
      WriteRight d mtd contents ulBlock ulCount buf cache s := by
    intro hsafe s buf cache hcache
    exact writeRight_of_safe law (hcache ▸ hsafe)
  refine ⟨hwrite, fun hsafe s buf hread => readRight_of_safe law.toFlashLaw hsafe hread,
    fun hd hfull => ⟨⟨?_, hwrite⟩, ⟨?_, ?_⟩⟩⟩
  · exact fun hright => writeSafe_of_right law hd hfull hright
  · exact fun hright => readSafe_of_right law.toFlashLaw hd hfull hright
  · exact fun hsafe s buf => readRight_of_safe law.toFlashLaw hsafe (hd.read ..)

/-- The flash of the tests obeys what is asked of a driver. -/
theorem norFlash_mtdLaw : MtdLaw norFlash id where
  toFlashLaw := norFlash_law
  read_keeps _ _ _ _ := rfl

/-- A read and a write of the first two sectors. They are whole sectors, which can be written
without the cache. -/
theorem block_requests_iff_two :
    (∀ s buf, ReadRight norFlash fourSectors id 0 4 buf s) ∧
      ∀ s buf cache, WriteRight norFlash fourSectors id 0 4 buf cache s := by
  have hin : ¬fourSectors.Outside 0 4 := fun hout => absurd hout.2 (by decide)
  have hfits : fourSectors.WriteFits 0 4 := by
    refine .inr (.inr (.inl ⟨hin, .inr (.inl ?_)⟩))
    exact ⟨by decide, by decide, by decide⟩
  have hread : ∀ s buf, ReadRight norFlash fourSectors id 0 4 buf s := by
    obtain ⟨-, -, hiff⟩ := block_requests_iff norFlash_mtdLaw fourSectors true 0 4
    exact (hiff norFlash_reliable fun m => ⟨m, rfl⟩).2.mpr ⟨hin, by decide, by decide⟩
  refine ⟨hread, fun s buf cache => ?_⟩
  obtain ⟨-, -, hiff⟩ := block_requests_iff norFlash_mtdLaw fourSectors cache.isSome 0 4
  refine (hiff norFlash_reliable fun m => ⟨m, rfl⟩).1.mpr ⟨fun _ => ?_, hfits⟩ s buf cache rfl
  change fourSectors.usesCache 0 2048 = false
  simp [Mtd.usesCache, Mtd.firstSize, Mtd.sectStart, chunkSize, fourSectors, wordAdd]

/-- A read behind the end returns a number of blocks; a write over the end fails after it has
written the last sector; and a write of half a sector without a write cache has no result. -/
theorem outside_not_refused :
    (mtdblockBlockread norFlash fourSectors 8 1 erased erased).1 = 4194304 ∧
      ¬ReadRight norFlash fourSectors id 8 1 erased erased ∧
      ¬WriteRight norFlash fourSectors id 7 2 (filled 0) (some erased) erased ∧
      ¬WriteRight norFlash fourSectors id 0 1 (filled 0) none erased := by
  have hread : (mtdblockBlockread norFlash fourSectors 8 1 erased erased).1 = 4194304 := rfl
  refine ⟨hread, fun hright => ?_, fun hright => ?_, ?_⟩
  · have hneg := (hright.2 ⟨by decide, by decide⟩).1
    rw [hread] at hneg
    exact absurd hneg (by decide)
  · have hsame := ((writeRight_some.mp hright).2 ⟨by decide, by decide⟩).2
    have htrace : id (blockwriteLoop norFlash fourSectors 3584 1024 (filled 0) erased erased).2
        (fourSectors.base + 3584) = 0 :=
      blockwriteLoop_trace norFlash_mtdLaw norFlash_reliable (by decide) (by decide) (by decide)
    have hbyte : (0xFF : UInt8) = 0 := (congrFun hsame (fourSectors.base + 3584)).symm.trans htrace
    exact absurd hbyte (by decide)
  · rintro ⟨r, hr, -⟩
    have huses : fourSectors.usesCache 0 512 = true := by
      simp [Mtd.usesCache, Mtd.firstSize, Mtd.sectStart, chunkSize, fourSectors, Mtd.RefusesRead]
    have hnull : blockwriteNull norFlash fourSectors 0 512 (filled 0) erased = none :=
      blockwriteNull_none norFlash_reliable huses
    obtain ⟨pair, hpair, -⟩ := Option.map_eq_some_iff.mp hr
    exact absurd (hpair.symm.trans hnull) (by simp)

end BitThunder
