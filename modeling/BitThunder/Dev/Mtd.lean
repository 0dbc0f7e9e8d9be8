import BitThunder.Lib.Memory
import BitThunder.Mm.Defs

/-!
# Flash devices as block devices

`os/src/interfaces/bt_dev_if_mtd.c`. A flash device (MTD) is erased by sectors and can
only be written where it has been erased. A partition of one is a device of its own
whose operations go to the driver of the master, at an offset.

The driver is a parameter. Its results are words: a number of bytes or an error.

Errors and lengths come back in the same word, so that a driver's error is a large number. For a
partition the address is moved by its place in the master, in 64 bits; the check that the range is
in the device is made before that. `write_cache` is allocated for each call and not checked, which
matters as soon as the loop comes to a part of a sector (`blockwriteNull`).
-/

namespace BitThunder

/-- `BT_DEV_IF_MTD`, on a state `σ` of the driver. -/
structure MtdDriver (σ : Type) : Type where
  /-- `pfnErase`: address and length -/
  erase : ℕ → ℕ → σ → ℕ × σ
  /-- `pfnRead`: address, length and the buffer -/
  read : ℕ → ℕ → Memory → σ → ℕ × Memory × σ
  /-- `pfnWrite`: address, length and the buffer -/
  write : ℕ → ℕ → Memory → σ → ℕ × σ

/-- `BT_MTD_INFO`, and the place of a partition in its master. -/
structure Mtd : Type where
  size : ℕ
  eraseSize : ℕ
  flags : ℕ
  isPartition : Bool
  /-- `offset` of `BT_MTD_PART` -/
  offset : ℕ
  eraseSize_pos : 0 < eraseSize
  /-- the device, or the partition in its master, has 64-bit addresses -/
  stop_lt : offset + size < 2 ^ 64

/-- `BT_MTD_WRITEABLE` -/
def mtdWriteable : ℕ := 0x400

/-- `oGeometry.ulBlockSize`, as `BT_MTD_RegisterDevice` sets it -/
def mtdBlockSize : ℕ := 512

variable {σ : Type} (d : MtdDriver σ) (mtd : Mtd)

/-- The address the driver is given. -/
def Mtd.driverAddr (a : ℕ) : ℕ := if mtd.isPartition then (a + mtd.offset) % 2 ^ 64 else a

/-- `BT_MTD_Erase` -/
def btMtdErase (addr len : ℕ) (s : σ) : ℕ × σ :=
  if mtd.size < addr ∨ mtd.size - addr < len then (errInvalidValue, s)
  else if mtd.flags &&& mtdWriteable = 0 then (errGeneric, s)
  else if len = 0 then (0, s)
  else d.erase (mtd.driverAddr addr) len s

/-- `BT_MTD_Read`. For a device that is no partition, a result of `0` is replaced by
`retlen`, which is `0` too. -/
def btMtdRead (src len : ℕ) (buf : Memory) (s : σ) : ℕ × Memory × σ :=
  if mtd.size < src ∨ mtd.size - src < len then (errInvalidValue, buf, s)
  else if len = 0 then (0, buf, s)
  else d.read (mtd.driverAddr src) len buf s

/-- `BT_MTD_Write` -/
def btMtdWrite (dst len : ℕ) (buf : Memory) (s : σ) : ℕ × σ :=
  if mtd.size < dst ∨ mtd.size - dst < len then (errInvalidValue, s)
  else if mtd.flags &&& mtdWriteable = 0 then (errGeneric, s)
  else if len = 0 then (0, s)
  else d.write (mtd.driverAddr dst) len buf s

/-! ## `mtdblock_blockwrite`

A turn of the loop is one sector: written as a whole, or read, changed and written back. A turn that
needs the cache and has none does not come back, unless the read is refused before the driver is
asked. -/

/-- A whole sector: erase and write. `some ret` is a jump to `mtd_blockwrite_fail`. -/
def writeSector (sectStart : ℕ) (buf : Memory) (s : σ) : Option ℕ × σ :=
  let e := btMtdErase d mtd sectStart mtd.eraseSize s
  if e.1 ≠ 0 then (some e.1, e.2)
  else
    let w := btMtdWrite d mtd sectStart mtd.eraseSize buf e.2
    if w.1 ≠ mtd.eraseSize then (some w.1, w.2) else (none, w.2)

/-- Part of a sector: read, modify, erase, write. -/
def modifySector (sectStart offset size : ℕ) (buf cache : Memory) (s : σ) : Option ℕ × Memory × σ :=
  let r := btMtdRead d mtd sectStart mtd.eraseSize cache s
  if r.1 ≠ mtd.eraseSize then (some r.1, r.2)
  else
    let cache := r.2.1.overlay offset size buf
    let w := writeSector d mtd sectStart cache r.2.2
    (w.1, cache, w.2)

/-- `size`: what is left of the sector behind `offset`, or of the request. -/
def chunkSize (offset len : ℕ) : ℕ :=
  if len < mtd.eraseSize - offset then len else mtd.eraseSize - offset

/-- The offset within a sector is below the sector's size. -/
theorem sectorOffset_lt (pos : ℕ) : pos - pos / mtd.eraseSize * mtd.eraseSize < mtd.eraseSize := by
  have h₁ := Nat.mod_lt pos mtd.eraseSize_pos
  have h₂ := Nat.div_add_mod' pos mtd.eraseSize
  omega

theorem chunkSize_pos {offset len : ℕ} (h : offset < mtd.eraseSize) (hlen : len ≠ 0) :
    0 < chunkSize mtd offset len := by
  unfold chunkSize
  split_ifs
  · omega
  · omega

/-- The loop of `mtdblock_blockwrite`. -/
def blockwriteLoop (pos len : ℕ) (buf cache : Memory) (s : σ) : Option ℕ × σ :=
  if _h : len = 0 then (none, s)
  else
    let sectStart := pos / mtd.eraseSize * mtd.eraseSize
    let offset := pos - sectStart
    let size := chunkSize mtd offset len
    let r :=
      if size = mtd.eraseSize then
        let w := writeSector d mtd sectStart buf s
        (w.1, cache, w.2)
      else modifySector d mtd sectStart offset size buf cache s
    match r.1 with
    | some ret => (some ret, r.2.2)
    | none => blockwriteLoop (wordAdd pos size) (len - size) (buf.advance size) r.2.1 r.2.2
termination_by len
decreasing_by
  have := chunkSize_pos mtd (sectorOffset_lt mtd pos) _h
  omega

/-- `BT_MTD_Read` gives an error for the sector without asking the driver. -/
abbrev Mtd.RefusesRead (sectStart : ℕ) : Prop :=
  (mtd.size < sectStart ∨ mtd.size - sectStart < mtd.eraseSize) ∧ errInvalidValue ≠ mtd.eraseSize

/-- The loop where `BT_kMalloc` has refused the write cache, which is not checked: `write_cache` is
`NULL`. Whole sectors do without it. For a part of one the driver reads into `NULL`, unless
`BT_MTD_Read` refuses the sector before it asks the driver: no result. -/
def blockwriteNull (pos len : ℕ) (buf : Memory) (s : σ) : Option (Option ℕ × σ) :=
  if _h : len = 0 then some (none, s)
  else
    let sectStart := pos / mtd.eraseSize * mtd.eraseSize
    let size := chunkSize mtd (pos - sectStart) len
    if size = mtd.eraseSize then
      let w := writeSector d mtd sectStart buf s
      match w.1 with
      | some ret => some (some ret, w.2)
      | none => blockwriteNull (wordAdd pos size) (len - size) (buf.advance size) w.2
    else if mtd.RefusesRead sectStart then some (some errInvalidValue, s)
    else none
termination_by len
decreasing_by
  have := chunkSize_pos mtd (sectorOffset_lt mtd pos) _h
  omega

/-- `mtdblock_blockwrite`, with the write cache `BT_kMalloc` gives, if it does. -/
def mtdblockBlockwrite (ulBlock ulCount : ℕ) (buf : Memory) (cache : Option Memory) (s : σ) :
    Option (ℕ × σ) :=
  let pos := ulBlock * mtdBlockSize % 2 ^ 32
  let len := ulCount * mtdBlockSize % 2 ^ 32
  let r :=
    match cache with
    | some cache => some (blockwriteLoop d mtd pos len buf cache s)
    | none => blockwriteNull d mtd pos len buf s
  r.map fun r => (r.1.getD ulCount, r.2)

end BitThunder
