import BitThunder.Dev.Mtd

/-!
# Block writes to flash

`mtdblock_blockwrite` replaces the bytes of the blocks it is given and no others, whatever
the sector size: a sector that is only written in part is read first, and put back around
the new bytes.

* `writeSector_spec`, `modifySector_spec`: one sector;
* `blockwriteLoop_spec`: the loop;
* `blockwrite_done`: the request is done, if the driver does not fail;
* `blockwriteLoop_of_null`: what is done without a write cache;
* `blockwrite_replaces`: the whole request, for a device or a partition.

The driver obeys laws about the contents of the flash, with erased bytes in the middle: writing is
asked to store bytes only where everything is erased, which is what a NOR flash can do. A sector
that is written in part is read first, so that what is stored is the old contents with the new bytes
laid over them (`Memory.overlay_around`), and the whole sector is as if only the new bytes had been
written.

The loop lemma is an induction over the turns with the rest of the request: what one turn has
written and what remains compose to the range. If there is no write cache, the loop either does
without, or does not come back; what has been written by then is not looked at, since a call that
does not come back reports nothing.
-/

namespace BitThunder

open Memory

variable {σ : Type} {d : MtdDriver σ} {mtd : Mtd} {contents : σ → Memory}

/-- What erased flash holds. -/
def Memory.erased : Memory := fun _ => 0xFF

/-- What is asked of the driver: erasing sets a range to `0xFF`, writing to an erased range
stores the bytes, reading gives them back. Each returns the number of bytes (erasing: `0`)
if it is done, and a word with `BT_ERR_FLAG` otherwise. -/
structure FlashLaw (d : MtdDriver σ) (contents : σ → Memory) : Prop where
  /-- what was erased reads as ones -/
  erase : ∀ a n s, (d.erase a n s).1 = 0 →
    contents (d.erase a n s).2 = (contents s).overlay a n erased
  /-- an error is negative as a 32-bit int -/
  erase_error : ∀ a n s, (d.erase a n s).1 ≠ 0 → 2 ^ 31 ≤ (d.erase a n s).1
  /-- a read that returns its length has read the contents, and changes nothing -/
  read : ∀ a n buf s, (d.read a n buf s).1 = n →
    contents (d.read a n buf s).2.2 = contents s ∧ ∀ i < n,
    (d.read a n buf s).2.1 i = contents s (a + i)
  read_error : ∀ a n buf s, (d.read a n buf s).1 ≠ n → 2 ^ 31 ≤ (d.read a n buf s).1
  /-- erased bytes can be written -/
  write : ∀ a n buf s, (d.write a n buf s).1 = n → (∀ i < n, contents s (a + i) = 0xFF) →
    contents (d.write a n buf s).2 = (contents s).overlay a n buf
  write_error : ∀ a n buf s, (d.write a n buf s).1 ≠ n → 2 ^ 31 ≤ (d.write a n buf s).1

/-- Where the device starts in the flash. -/
def Mtd.base (mtd : Mtd) : ℕ := if mtd.isPartition then mtd.offset else 0

/-- Addresses up to the end of the device are moved by its base and do not wrap. -/
theorem Mtd.driverAddr_eq {a : ℕ} (h : a ≤ mtd.size) : mtd.driverAddr a = mtd.base + a := by
  have hlt := mtd.stop_lt
  unfold Mtd.driverAddr Mtd.base
  split_ifs
  · rw [Nat.mod_eq_of_lt (by omega), Nat.add_comm]
  · rw [Nat.zero_add]

/-! ## The three operations

Each of them checks the range, adds the base of the partition and asks the driver. What the laws say
of the driver is said of the operation here. -/

section Operations

variable {addr len : ℕ} {s : σ}

/-- What `BT_MTD_Erase` returns, and what it leaves on the flash. -/
theorem btMtdErase_spec (law : FlashLaw d contents) (mtd : Mtd) (addr : ℕ) (hlen : len ≠ 0)
    (s : σ) :
    ((btMtdErase d mtd addr len s).1 = 0 →
      addr + len ≤ mtd.size ∧ mtd.flags &&& mtdWriteable ≠ 0 ∧
      contents (btMtdErase d mtd addr len s).2 =
        (contents s).overlay (mtd.base + addr) len erased) ∧
    ((btMtdErase d mtd addr len s).1 ≠ 0 → 2 ^ 31 ≤ (btMtdErase d mtd addr len s).1) := by
  unfold btMtdErase
  by_cases h₁ : mtd.size < addr ∨ mtd.size - addr < len
  · rw [if_pos h₁]
    dsimp only [errInvalidValue]
    exact ⟨fun h => absurd h (by decide), fun _ => by decide⟩
  · rw [if_neg h₁]
    by_cases h₂ : mtd.flags &&& mtdWriteable = 0
    · rw [if_pos h₂]
      dsimp only [errGeneric]
      exact ⟨fun h => absurd h (by decide), fun _ => by decide⟩
    · rw [if_neg h₂, if_neg hlen, mtd.driverAddr_eq (by omega)]
      exact ⟨fun h => ⟨by omega, h₂, law.erase _ _ _ h⟩, law.erase_error _ _ _⟩

/-- A read outside the device can only be told from a good one by its range: a sector may be
as large as the error word. -/
theorem btMtdRead_spec (law : FlashLaw d contents) (mtd : Mtd) (addr : ℕ) (hlen : len ≠ 0)
    (buf : Memory) (s : σ) :
    ((btMtdRead d mtd addr len buf s).1 = len →
      contents (btMtdRead d mtd addr len buf s).2.2 = contents s ∧
      (addr + len ≤ mtd.size →
        ∀ i < len, (btMtdRead d mtd addr len buf s).2.1 i = contents s (mtd.base + addr + i))) ∧
    ((btMtdRead d mtd addr len buf s).1 ≠ len → 2 ^ 31 ≤ (btMtdRead d mtd addr len buf s).1) := by
  unfold btMtdRead
  by_cases h₁ : mtd.size < addr ∨ mtd.size - addr < len
  · rw [if_pos h₁]
    dsimp only [errInvalidValue]
    exact ⟨fun _ => ⟨rfl, fun h => by omega⟩, fun _ => by decide⟩
  · rw [if_neg h₁, if_neg hlen, mtd.driverAddr_eq (by omega)]
    exact ⟨fun h => ⟨(law.read _ _ _ _ h).1, fun _ => (law.read _ _ _ _ h).2⟩,
      law.read_error _ _ _ _⟩

theorem btMtdWrite_spec (law : FlashLaw d contents) (hlen : len ≠ 0) (hin : addr + len ≤ mtd.size)
    (hw : mtd.flags &&& mtdWriteable ≠ 0) (hff : ∀ i < len, contents s (mtd.base + addr + i) = 0xFF)
    (buf : Memory) :
    ((btMtdWrite d mtd addr len buf s).1 = len →
      contents (btMtdWrite d mtd addr len buf s).2 =
        (contents s).overlay (mtd.base + addr) len buf) ∧
    ((btMtdWrite d mtd addr len buf s).1 ≠ len → 2 ^ 31 ≤ (btMtdWrite d mtd addr len buf s).1) := by
  unfold btMtdWrite
  rw [if_neg (by omega), if_neg hw, if_neg hlen, mtd.driverAddr_eq (by omega)]
  exact ⟨fun h => law.write _ _ _ _ h hff, law.write_error _ _ _ _⟩

end Operations

/-! ## One sector

A sector is erased and written, or read, changed, erased and written. Either way the flash is what
it was with the new bytes laid over it. -/

section Sector

variable {start offset size : ℕ} {buf cache : Memory} {s : σ}

/-- A sector is erased and written whole, or the error is returned. -/
theorem writeSector_spec (law : FlashLaw d contents) (mtd : Mtd) (start : ℕ) (buf : Memory)
    (s : σ) :
    ((writeSector d mtd start buf s).1 = none →
      start + mtd.eraseSize ≤ mtd.size ∧
      contents (writeSector d mtd start buf s).2 =
        (contents s).overlay (mtd.base + start) mtd.eraseSize buf) ∧
    ∀ ret, (writeSector d mtd start buf s).1 = some ret → 2 ^ 31 ≤ ret := by
  have hpos : mtd.eraseSize ≠ 0 := mtd.eraseSize_pos.ne'
  obtain ⟨hok, herr⟩ := btMtdErase_spec law mtd start hpos s
  unfold writeSector
  dsimp only
  by_cases h₁ : (btMtdErase d mtd start mtd.eraseSize s).1 ≠ 0
  · rw [if_pos h₁]
    refine ⟨fun h => by simp at h, fun ret h => ?_⟩
    obtain rfl : _ = ret := by simpa using h
    exact herr h₁
  · obtain ⟨hin, hw, herased⟩ := hok (not_not.mp h₁)
    rw [if_neg h₁]
    have hff : ∀ i < mtd.eraseSize,
        contents (btMtdErase d mtd start mtd.eraseSize s).2 (mtd.base + start + i) = 0xFF := by
      intro i hi
      rw [herased, overlay_of_in hi]
      rfl
    obtain ⟨hok', herr'⟩ := btMtdWrite_spec law hpos hin hw hff buf
    by_cases h₂ : (btMtdWrite d mtd start mtd.eraseSize buf
        (btMtdErase d mtd start mtd.eraseSize s).2).1 ≠ mtd.eraseSize
    · rw [if_pos h₂]
      refine ⟨fun h => by simp at h, fun ret h => ?_⟩
      obtain rfl : _ = ret := by simpa using h
      exact herr' h₂
    · rw [if_neg h₂]
      refine ⟨fun _ => ⟨hin, ?_⟩, fun ret h => by simp at h⟩
      dsimp only
      rw [hok' (not_not.mp h₂), herased, overlay_same]

/-- A sector that is put back around the new bytes. -/
theorem Memory.overlay_around {m cache : Memory} {a n offset size : ℕ} {buf : Memory}
    (hle : offset + size ≤ n) (hcache : ∀ i < n, cache i = m (a + i)) :
    m.overlay a n (cache.overlay offset size buf) = m.overlay (a + offset) size buf := by
  funext x
  unfold overlay
  by_cases h₁ : a + offset ≤ x ∧ x < a + offset + size
  · rw [if_pos (by omega), if_pos (by omega), if_pos h₁]
    congr 1
    omega
  · rw [if_neg h₁]
    split_ifs
    · omega
    · rw [hcache _ (by omega)]
      congr 1
      omega
    · rfl

/-- A sector is read, changed in the cache, and written back. -/
theorem modifySector_spec (law : FlashLaw d contents) (hle : offset + size ≤ mtd.eraseSize) :
    ((modifySector d mtd start offset size buf cache s).1 = none →
      contents (modifySector d mtd start offset size buf cache s).2.2 =
        (contents s).overlay (mtd.base + start + offset) size buf) ∧
    ∀ ret, (modifySector d mtd start offset size buf cache s).1 = some ret → 2 ^ 31 ≤ ret := by
  obtain ⟨hok, herr⟩ := btMtdRead_spec law mtd start mtd.eraseSize_pos.ne' cache s
  unfold modifySector
  dsimp only
  by_cases h₁ : (btMtdRead d mtd start mtd.eraseSize cache s).1 ≠ mtd.eraseSize
  · rw [if_pos h₁]
    refine ⟨fun h => by simp at h, fun ret h => ?_⟩
    obtain rfl : _ = ret := by simpa using h
    exact herr h₁
  · rw [if_neg h₁]
    obtain ⟨hsame, hread⟩ := hok (not_not.mp h₁)
    dsimp only
    obtain ⟨hok', herr'⟩ := writeSector_spec law mtd start
      ((btMtdRead d mtd start mtd.eraseSize cache s).2.1.overlay offset size buf)
      (btMtdRead d mtd start mtd.eraseSize cache s).2.2
    refine ⟨fun h => ?_, herr'⟩
    obtain ⟨hin, hstored⟩ := hok' h
    rw [hstored, hsame]
    exact overlay_around hle (hread hin)

end Sector

/-! ## The loop

Each turn writes up to the end of a sector. What it has written and what is left are the range of
the request, cut in two. -/

/-- A piece is no longer than what is left. -/
theorem chunkSize_le (mtd : Mtd) (offset len : ℕ) : chunkSize mtd offset len ≤ len := by
  unfold chunkSize
  split_ifs
  · omega
  · omega

theorem chunkSize_fits {offset : ℕ} (h : offset < mtd.eraseSize) (len : ℕ) :
    offset + chunkSize mtd offset len ≤ mtd.eraseSize := by
  unfold chunkSize
  split_ifs
  · omega
  · omega

/-- One turn of the loop. -/
theorem chunk_spec (law : FlashLaw d contents) {pos len : ℕ} {buf cache : Memory} {s : σ}
    {start offset size : ℕ} (hstart : start = pos / mtd.eraseSize * mtd.eraseSize)
    (hoff : offset = pos - start) (hsize : size = chunkSize mtd offset len)
    {r : Option ℕ × Memory × σ}
    (hr : r = if size = mtd.eraseSize then
        ((writeSector d mtd start buf s).1, cache, (writeSector d mtd start buf s).2)
      else modifySector d mtd start offset size buf cache s) :
    (r.1 = none → contents r.2.2 = (contents s).overlay (mtd.base + pos) size buf) ∧
    ∀ ret, r.1 = some ret → 2 ^ 31 ≤ ret := by
  have hle : start ≤ pos := hstart ▸ Nat.div_mul_le_self pos mtd.eraseSize
  have hofflt : offset < mtd.eraseSize := by
    rw [hoff, hstart]
    exact sectorOffset_lt mtd pos
  have hfits := chunkSize_fits hofflt len
  rw [← hsize] at hfits
  by_cases hfull : size = mtd.eraseSize
  · rw [if_pos hfull] at hr
    have hpos : pos = start := by omega
    obtain ⟨hok, herr⟩ := writeSector_spec law mtd start buf s
    rw [hr, hpos, hfull]
    exact ⟨fun h => (hok h).2, herr⟩
  · rw [if_neg hfull] at hr
    have hpos : mtd.base + pos = mtd.base + start + offset := by omega
    rw [hr, hpos]
    exact modifySector_spec law hfits

/-- The whole loop: what is left of the request is written, or an error is returned. -/
theorem blockwriteLoop_spec (law : FlashLaw d contents) (mtd : Mtd) {pos len : ℕ}
    (hlt : pos + len < 2 ^ 32) (buf cache : Memory) (s : σ) :
    ((blockwriteLoop d mtd pos len buf cache s).1 = none →
      contents (blockwriteLoop d mtd pos len buf cache s).2 =
        (contents s).overlay (mtd.base + pos) len buf) ∧
    ∀ ret, (blockwriteLoop d mtd pos len buf cache s).1 = some ret → 2 ^ 31 ≤ ret := by
  induction len using Nat.strong_induction_on generalizing pos buf cache s with
  | _ len ih =>
    rw [blockwriteLoop]
    by_cases hzero : len = 0
    · subst hzero
      rw [dif_pos rfl]
      exact ⟨fun _ => overlay_zero.symm, fun ret h => by simp at h⟩
    · rw [dif_neg hzero]
      dsimp only
      generalize hstart : pos / mtd.eraseSize * mtd.eraseSize = start
      generalize hoff : pos - start = offset
      generalize hsize : chunkSize mtd offset len = size
      generalize hr : (if size = mtd.eraseSize then
          ((writeSector d mtd start buf s).1, cache, (writeSector d mtd start buf s).2)
        else modifySector d mtd start offset size buf cache s) = r
      obtain ⟨hok, herr⟩ := chunk_spec law hstart.symm hoff.symm hsize.symm hr.symm
      have hofflt : offset < mtd.eraseSize := by
        rw [← hoff, ← hstart]
        exact sectorOffset_lt mtd pos
      have hpos : 0 < size := hsize ▸ chunkSize_pos mtd hofflt hzero
      have hle : size ≤ len := hsize ▸ chunkSize_le mtd offset len
      cases hret : r.1 with
      | some ret =>
        refine ⟨fun h => by simp at h, fun ret' h => ?_⟩
        obtain rfl : ret = ret' := by simpa using h
        exact herr ret hret
      | none =>
        have hnext : wordAdd pos size = pos + size := Nat.mod_eq_of_lt (by omega)
        rw [hnext]
        obtain ⟨hok', herr'⟩ :=
          ih (len - size) (by omega) (show pos + size + (len - size) < 2 ^ 32 by omega)
          (buf.advance size) r.2.1 r.2.2
        refine ⟨fun h => ?_, herr'⟩
        rw [hok' h, hok hret, ← Nat.add_assoc, overlay_overlay, Nat.add_sub_cancel' hle]

/-! ## A driver that does not fail

Then each turn is done, if the device is made of whole sectors, and so is the request. -/

/-- Every operation does all it is asked. -/
structure MtdDriver.Reliable (d : MtdDriver σ) : Prop where
  /-- nothing that is asked for fails -/
  erase : ∀ a n s, (d.erase a n s).1 = 0
  read : ∀ a n buf s, (d.read a n buf s).1 = n
  write : ∀ a n buf s, (d.write a n buf s).1 = n

section Reliable

variable {start offset size : ℕ} {buf cache : Memory} {s : σ}

/-- A reliable driver writes every sector of a writeable device. -/
theorem writeSector_none (hd : d.Reliable) (hin : start + mtd.eraseSize ≤ mtd.size)
    (hw : mtd.flags &&& mtdWriteable ≠ 0) : (writeSector d mtd start buf s).1 = none := by
  have hpos := mtd.eraseSize_pos
  unfold writeSector btMtdErase btMtdWrite
  simp only [if_neg (show ¬ (mtd.size < start ∨ mtd.size - start < mtd.eraseSize) by omega),
    if_neg hw, if_neg hpos.ne', hd.erase, hd.write, ne_eq, not_true_eq_false, if_false]

/-- A reliable driver also modifies every one of them. -/
theorem modifySector_none (hd : d.Reliable) (hin : start + mtd.eraseSize ≤ mtd.size)
    (hw : mtd.flags &&& mtdWriteable ≠ 0) :
    (modifySector d mtd start offset size buf cache s).1 = none := by
  have hpos := mtd.eraseSize_pos
  unfold modifySector btMtdRead
  simp only [if_neg (show ¬ (mtd.size < start ∨ mtd.size - start < mtd.eraseSize) by omega),
    if_neg hpos.ne', hd.read, ne_eq, not_true_eq_false, if_false]
  exact writeSector_none hd hin hw

/-- If the device is made of sectors, the sector of a position inside it lies inside it. -/
theorem sector_inside {pos : ℕ} (hdvd : mtd.eraseSize ∣ mtd.size) (hpos : pos < mtd.size) :
    pos / mtd.eraseSize * mtd.eraseSize + mtd.eraseSize ≤ mtd.size := by
  obtain ⟨k, hk⟩ := hdvd
  have hlt : pos / mtd.eraseSize < k := Nat.div_lt_of_lt_mul (hk ▸ hpos)
  calc pos / mtd.eraseSize * mtd.eraseSize + mtd.eraseSize
      = (pos / mtd.eraseSize + 1) * mtd.eraseSize := (Nat.succ_mul _ _).symm
    _ ≤ k * mtd.eraseSize := Nat.mul_le_mul_right _ hlt
    _ = mtd.size := by rw [hk, Nat.mul_comm]

/-- A reliable driver writes every range of a device that is a whole number of sectors. -/
theorem blockwriteLoop_none (hd : d.Reliable) (hw : mtd.flags &&& mtdWriteable ≠ 0)
    (hdvd : mtd.eraseSize ∣ mtd.size) {pos len : ℕ} (hin : pos + len ≤ mtd.size)
    (hlt : pos + len < 2 ^ 32) :
    (blockwriteLoop d mtd pos len buf cache s).1 = none := by
  induction len using Nat.strong_induction_on generalizing pos buf cache s with
  | _ len ih =>
    rw [blockwriteLoop]
    by_cases hzero : len = 0
    · rw [dif_pos hzero]
    · rw [dif_neg hzero]
      dsimp only
      have hsect := sector_inside hdvd (show pos < mtd.size by omega)
      have hpos := chunkSize_pos mtd (sectorOffset_lt mtd pos) hzero
      have hle := chunkSize_le mtd (pos - pos / mtd.eraseSize * mtd.eraseSize) len
      generalize chunkSize mtd (pos - pos / mtd.eraseSize * mtd.eraseSize) len = size at hpos hle
      have hnext : wordAdd pos size = pos + size := Nat.mod_eq_of_lt (by omega)
      rw [hnext]
      split_ifs
      · rw [writeSector_none hd hsect hw]
        exact ih _ (by omega) (by omega) (by omega)
      · rw [modifySector_none hd hsect hw]
        exact ih _ (by omega) (by omega) (by omega)

/-- The request is done, if there is a write cache, the driver does not fail and the sectors fill
the device. -/
theorem blockwrite_done (hd : d.Reliable) (hw : mtd.flags &&& mtdWriteable ≠ 0)
    (hdvd : mtd.eraseSize ∣ mtd.size) {ulBlock ulCount : ℕ}
    (hin : ulBlock * mtdBlockSize + ulCount * mtdBlockSize ≤ mtd.size)
    (hlt : ulBlock * mtdBlockSize + ulCount * mtdBlockSize < 2 ^ 32) :
    ∃ s', mtdblockBlockwrite d mtd ulBlock ulCount buf (some cache) s = some (ulCount, s') := by
  unfold mtdblockBlockwrite
  dsimp only
  rw [Nat.mod_eq_of_lt (by omega), Nat.mod_eq_of_lt (by omega), Option.map_some,
    blockwriteLoop_none hd hw hdvd hin hlt]
  exact ⟨_, rfl⟩

end Reliable

/-! ## Without a write cache

As long as the loop writes whole sectors the cache is not used, and the two runs agree. At a part of
a sector the one without it does not come back. -/

section Null

variable {start pos len : ℕ} {buf : Memory} {s : σ}

/-- A sector that reaches over the end is refused before anything is erased. -/
theorem writeSector_of_overrun (h : mtd.size < start + mtd.eraseSize) :
    writeSector d mtd start buf s = (some errInvalidValue, s) := by
  have hrange : mtd.size < start ∨ mtd.size - start < mtd.eraseSize := by omega
  simp only [writeSector, btMtdErase, if_pos hrange, ne_eq, errInvalidValue_ne_zero,
    not_false_eq_true, if_true]

/-- As far as the loop gets without a cache, it does what it does with one. -/
theorem blockwriteLoop_of_null {r : Option ℕ × σ} (h : blockwriteNull d mtd pos len buf s = some r)
    (cache : Memory) : blockwriteLoop d mtd pos len buf cache s = r := by
  induction len using Nat.strong_induction_on generalizing pos buf s with
  | _ len ih =>
    rw [blockwriteNull] at h
    rw [blockwriteLoop]
    by_cases hzero : len = 0
    · rw [dif_pos hzero] at h ⊢
      exact Option.some.inj h
    · rw [dif_neg hzero] at h ⊢
      dsimp only at h ⊢
      have hsize := chunkSize_pos mtd (sectorOffset_lt mtd pos) hzero
      split_ifs at h ⊢ with hfull hrefused
      · cases hret : (writeSector d mtd (pos / mtd.eraseSize * mtd.eraseSize) buf s).1 with
        | some ret =>
          rw [hret] at h
          exact Option.some.inj h
        | none =>
          rw [hret] at h
          exact ih _ (by omega) h
      · -- the read is refused: nothing has come to the cache
        obtain ⟨hrange, herror⟩ := hrefused
        simp only [modifySector, btMtdRead, if_pos hrange, if_pos herror]
        exact Option.some.inj h

end Null

/-! ## The request

The loop starts at the first byte of the first block and is given all of the bytes. The rest is
about words. -/

/-- A block write that reports its blocks has replaced them and nothing else, with a write cache or
without. -/
theorem blockwrite_replaces (law : FlashLaw d contents) {ulBlock ulCount : ℕ} {buf : Memory}
    {cache : Option Memory} {s s' : σ}
    (hin : ulBlock * mtdBlockSize + ulCount * mtdBlockSize ≤ mtd.size)
    (hlt : ulBlock * mtdBlockSize + ulCount * mtdBlockSize < 2 ^ 32)
    (hret : mtdblockBlockwrite d mtd ulBlock ulCount buf cache s = some (ulCount, s')) :
    contents s' =
      (contents s).overlay (mtd.base + ulBlock * mtdBlockSize) (ulCount * mtdBlockSize) buf ∧
    ∀ x, x < mtd.base ∨ mtd.base + mtd.size ≤ x → contents s' x = contents s x := by
  unfold mtdblockBlockwrite at hret
  dsimp only at hret
  rw [Nat.mod_eq_of_lt (by omega), Nat.mod_eq_of_lt (by omega)] at hret
  obtain ⟨cache, hloop⟩ : ∃ cache, (blockwriteLoop d mtd (ulBlock * mtdBlockSize)
      (ulCount * mtdBlockSize) buf cache s).1.getD ulCount = ulCount ∧
      (blockwriteLoop d mtd (ulBlock * mtdBlockSize) (ulCount * mtdBlockSize) buf cache s).2 =
      s' := by
    cases cache with
    | some cache => exact ⟨cache, Prod.mk.inj (Option.some.inj hret)⟩
    | none =>
      obtain ⟨r, hnull, hr⟩ := Option.map_eq_some_iff.mp hret
      rw [← blockwriteLoop_of_null hnull erased] at hr
      exact ⟨erased, Prod.mk.inj hr⟩
  obtain ⟨hcount, hs'⟩ := hloop
  obtain ⟨hok, herr⟩ := blockwriteLoop_spec law mtd hlt buf cache s
  have hnone : (blockwriteLoop d mtd (ulBlock * mtdBlockSize)
      (ulCount * mtdBlockSize) buf cache s).1 =
      none := by
    cases h : (blockwriteLoop d mtd (ulBlock * mtdBlockSize)
      (ulCount * mtdBlockSize) buf cache s).1 with
    | none => rfl
    | some ret =>
      -- an error word is larger than any count of blocks below `2 ^ 32`
      rw [h, Option.getD_some] at hcount
      have := herr ret h
      unfold mtdBlockSize at hlt
      omega
  have hdone := hok hnone
  rw [hs'] at hdone
  refine ⟨hdone, fun x hx => ?_⟩
  rw [hdone]
  exact overlay_of_out (by omega)

/-- A flash whose writes can only clear bits. -/
def norFlash : MtdDriver Memory where
  erase a n s := (0, s.overlay a n erased)
  read a n buf s := (n, buf.overlay 0 n (s.advance a), s)
  write a n buf s := (n, s.overlay a n fun i => s (a + i) &&& buf i)

/-- The flash of the tests: erasing gives `0xFF`, and writing takes bits away. -/
theorem norFlash_law : FlashLaw norFlash id where
  erase _ _ _ _ := rfl
  erase_error _ _ _ h := absurd rfl h
  read a n buf s _ := by
    refine ⟨rfl, fun i hi => ?_⟩
    have hin : buf.overlay 0 n (s.advance a) (0 + i) = s (i + a) := overlay_of_in hi
    rw [Nat.zero_add] at hin
    rw [id, Nat.add_comm]
    exact hin
  read_error _ _ _ _ h := absurd rfl h
  write a n buf s _ hff := by
    funext x
    by_cases h : a ≤ x ∧ x < a + n
    · obtain ⟨i, rfl⟩ : ∃ i, x = a + i := ⟨x - a, by omega⟩
      have hi : i < n := by omega
      have hstore : s.overlay a n (fun i => s (a + i) &&& buf i) (a + i) = s (a + i) &&& buf i :=
        overlay_of_in hi
      have herased : s (a + i) = -1 := hff i hi
      rw [overlay_of_in hi]
      refine hstore.trans ?_
      rw [herased]
      exact UInt8.neg_one_and
    · have hout : x < a ∨ a + n ≤ x := by omega
      rw [overlay_of_out hout]
      have hkeep : s.overlay a n (fun i => s (a + i) &&& buf i) x = s x := overlay_of_out hout
      exact hkeep
  write_error _ _ _ _ h := absurd rfl h

theorem norFlash_reliable : norFlash.Reliable where
  erase _ _ _ := rfl
  read _ _ _ _ := rfl
  write _ _ _ _ := rfl

/-- A partition of four sectors, in the middle of its master. -/
def fourSectors : Mtd where
  size := 4096
  eraseSize := 1024
  flags := mtdWriteable
  isPartition := true
  offset := 8192
  eraseSize_pos := by decide
  stop_lt := by decide

/-- Two blocks that lie in two sectors. -/
theorem blockwrite_replaces_two :
    ∃ s', mtdblockBlockwrite norFlash fourSectors 3 2 (fun i => i.toUInt8)
    (some erased) erased = some (2, s') ∧
      s' = erased.overlay (8192 + 1536) 1024 fun i => i.toUInt8 := by
  obtain ⟨s', hret⟩ : ∃ s',
      mtdblockBlockwrite norFlash fourSectors 3 2 (fun i => i.toUInt8) (some erased) erased =
      some (2, s') :=
    blockwrite_done norFlash_reliable (by decide) (by decide) (by decide) (by decide)
  exact ⟨s', hret, (blockwrite_replaces norFlash_law (by decide) (by decide) hret).1⟩

end BitThunder
