import BitThunder.Lib.Memory
import BitThunder.Mm.Defs

/-!
# Volumes

`os/src/volumes/bt_volume.c` and the readers of `os/src/volumes/bt_partition.c`. A block
device has a volume for each entry of the partition table in its block 0, or one for the
whole disk. The volumes hang in the list `blk->volumes`, their nodes in the list of the
device filesystem.

A volume hangs in two lists. `BT_UnregisterVolume` takes it out of one of them, and nobody takes it
out of the other; nothing frees the volume itself, so that an address names one volume for ever.
That a node is unregistered a second time is recorded, since its name has been freed by then.

Each of the outcomes of a call, memory for the copy of block 0, the read, memory for each volume and
for each name, is part of `EnumWorld`. Without memory for a name the source writes through `NULL`,
and there is no state after that.
-/

namespace BitThunder

/-! ## The partition table

The readers take the fields from the block as they are. Nothing is compared with the size of the
device. -/

/-- `IBM_MBR_PTBL`, `OFS_PTABLE_PART_0` -/
def ibmMbrPtbl : ℕ := 0x1BE

/-- `IBM_MBR_SIGNATURE` -/
def ibmMbrSignature : ℕ := 0x1FE

/-- `IBM_MBR_PTBL_ID`, `OFS_PART_ID_NUMBER_8` -/
def ibmMbrPtblId : ℕ := 4

/-- `IBM_MBR_PTBL_LBA`, `OFS_PART_STARTING_LBA_32` -/
def ibmMbrPtblLba : ℕ := 8

/-- `IBM_MBR_PTBL_SECTORS`, `OFS_PART_LENGTH_32` -/
def ibmMbrPtblSectors : ℕ := 12

/-- Where an entry of the table starts. -/
def entryOffset (part : ℕ) : ℕ := ibmMbrPtbl + 16 * part

/-- An entry at which the count goes on: not
`active != 0x80 && (active != 0 || part_id == 0)`. -/
def entryUsed (block : Memory) (part : ℕ) : Bool :=
  ¬ (block (entryOffset part) ≠ 0x80 ∧
    (block (entryOffset part) ≠ 0 ∨ block (entryOffset part + ibmMbrPtblId) = 0))

/-- `_partitionCount`. The loop ends at the first entry that is not used. -/
def partitionCount (block : Memory) : ℕ :=
  if block ibmMbrSignature ≠ 0x55 ∧ block (ibmMbrSignature + 1) ≠ 0xAA then
    if block 0 = 0xEB ∧ block 2 = 0x90 ∧ block 21 &&& 0xF0 = 0xF0 then 1 else 0
  else ((List.range 4).takeWhile (entryUsed block)).length

/-- `BT_PartitionCount` of `bt_volume.c`, a copy of the other one -/
def btPartitionCount (block : Memory) : ℕ := partitionCount block

/-- `struct bt_part_t`, as `BT_PartitionInfo` fills it -/
structure PartInfo : Type where
  ulStartLBA : ℕ
  ulSectorCount : ℕ
  ucActive : UInt8
  deriving DecidableEq

/-- `BT_PartitionInfo` -/
def btPartitionInfo (block : Memory) (part : ℕ) : PartInfo where
  ulStartLBA := block.load (entryOffset part + ibmMbrPtblLba)
  ulSectorCount := block.load (entryOffset part + ibmMbrPtblSectors)
  ucActive := block (entryOffset part)

/-! ## The volumes

What a volume is made from is kept apart from its address, so that two volumes of the same partition
are still two. -/

/-- `BT_VOLUME_TYPE`, with what a `BT_PARTITION` has beside a volume -/
inductive VolumeType : Type where
  | normal
  | partition (ulBaseAddress ulPartitionNumber : ℕ)
  deriving DecidableEq

/-- What a volume is made from. -/
structure VolumeShape : Type where
  eType : VolumeType
  ulTotalBlocks : ℕ
  /-- the name of its node -/
  szpName : String
  deriving DecidableEq

/-- `BT_VOLUME_DESCRIPTOR`, by its address -/
structure Volume : Type where
  addr : ℕ
  shape : VolumeShape
  deriving DecidableEq

/-- The device: its name and `oGeometry.ulTotalBlocks`. -/
structure BlockDevice : Type where
  szpName : String
  ulTotalBlocks : ℕ
  deriving DecidableEq

/-- The volume for the whole disk. -/
def wholeDisk (dev : BlockDevice) : VolumeShape :=
  ⟨.normal, dev.ulTotalBlocks, dev.szpName ++ toString 0⟩

/-- The volume for an entry of the table. -/
def entryVolume (dev : BlockDevice) (block : Memory) (i : ℕ) : VolumeShape where
  eType := .partition (block.load (entryOffset i + ibmMbrPtblLba)) i
  ulTotalBlocks := block.load (entryOffset i + ibmMbrPtblSectors)
  szpName := dev.szpName ++ toString i

/-- The volumes of a block 0, in the order in which they are made. -/
def tableVolumes (dev : BlockDevice) (block : Memory) : List VolumeShape :=
  if btPartitionCount block = 0 then [wholeDisk dev]
  else (List.range (btPartitionCount block)).map (entryVolume dev block)

/-! ## `BT_EnumerateVolumes`

The nodes of the volumes that are there are unregistered, and then volumes are made from the
block. -/

/-- The two lists and what has become of the nodes. -/
structure VolumeState : Type where
  /-- the next address `BT_kMalloc` gives to a volume; no volume is ever freed -/
  next : ℕ
  /-- `blk->volumes` -/
  volumes : List Volume
  /-- `g_devfs_nodes`: the addresses of the volumes, and other nodes -/
  devfs : List ℕ
  /-- the nodes that have been unregistered -/
  unregistered : List ℕ
  deriving DecidableEq

/-- What a call finds. -/
structure EnumWorld : Type where
  /-- block 0 of the medium -/
  block : Memory
  /-- memory for a copy of it -/
  mbrMemory : Bool
  /-- `BT_BlockRead`, as a word -/
  read : ℕ
  /-- memory for each volume -/
  volumeMemory : ℕ → Bool
  /-- memory for its name -/
  nameMemory : ℕ → Bool

/-- `BT_UnregisterVolume`: `BT_DeviceUnregister` of its node. A node that is in no list has
had its name freed already. -/
def btUnregisterVolume (v : Volume) (s : VolumeState) : Option VolumeState :=
  if v.addr ∈ s.devfs then
    some { s with devfs := s.devfs.erase v.addr, unregistered := v.addr :: s.unregistered }
  else none

/-- The loop over `blk->volumes`. -/
def unregisterAll : List Volume → VolumeState → Option VolumeState
  | [], s => some s
  | v :: rest, s => (btUnregisterVolume v s).bind (unregisterAll rest)

/-- One volume: it is put at the head of both lists. -/
def addVolume (shape : VolumeShape) (s : VolumeState) : VolumeState :=
  { s with
    next := s.next + 1
    volumes := ⟨s.next, shape⟩ :: s.volumes
    devfs := s.next :: s.devfs }

/-- The volumes of the table, from the `i`-th on. Without memory for a volume the call
returns; without memory for a name it writes through `NULL`. -/
def addVolumes (w : EnumWorld) : ℕ → List VolumeShape → VolumeState → Option (ℕ × VolumeState)
  | _, [], s => some (0, s)
  | i, shape :: rest, s =>
    if ¬ w.volumeMemory i then some (errNoMemory, s)
    else if ¬ w.nameMemory i then none
    else addVolumes w (i + 1) rest (addVolume shape s)

/-- `BT_EnumerateVolumes` -/
def btEnumerateVolumes (dev : BlockDevice) (w : EnumWorld) (s : VolumeState) :
    Option (ℕ × VolumeState) :=
  (unregisterAll s.volumes s).bind fun s =>
    if ¬ w.mbrMemory then some (errNoMemory, s)
    else if w.read ≠ 1 then some (if 2 ^ 31 ≤ w.read then w.read else errGeneric, s)
    else addVolumes w 0 (tableVolumes dev w.block) s

/-- A sequence of calls, whatever they return. -/
def enumerateAll (dev : BlockDevice) : List EnumWorld → VolumeState → Option VolumeState
  | [], s => some s
  | w :: ws, s => (btEnumerateVolumes dev w s).bind fun r => enumerateAll dev ws r.2

end BitThunder
