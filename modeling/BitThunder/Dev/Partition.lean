import BitThunder.Dev.Volume

/-!
# Writing a partition table

`BT_Partition` of `os/src/volumes/bt_partition.c`, from an open block device on. The sizes
of at most four partitions are given in sectors, in percent or as quotas of what is
available; a table is written to block 0. Everything is computed in 32 bits, the products
for the sizes in 64.

The sizes go through two loops. The first looks at every slot, adds up what is not zero and counts
it; the second goes through as many slots as were counted, from the first one on. A request with a
hole is counted right and filled wrong. Nothing bounds the sums, and the check of the sizes compares
them after they have been cut to 32 bits.

The results of `BT_kMalloc` and of the `BT_BlockWrite` at the end are not looked at. They are
parameters here, so that what is said about the medium can depend on them.
-/

namespace BitThunder

/-- `BT_PARTITION_MAX` -/
def btPartitionMax : ℕ := 4

/-- `BT_PARTITION_SIZETYPE` -/
inductive SizeType : Type where
  | quota | percent | sectors
  deriving DecidableEq

/-- `BT_PARTITION_PARAMETERS`; `ulSizes` has the slots below `BT_PARTITION_MAX`. -/
structure PartitionParams : Type where
  ulHiddenSectors : ℕ
  ulInterSpace : ℕ
  ulSizes : ℕ → ℕ
  ulPrimaryCount : ℕ
  eSizeType : SizeType
  sizes_lt : ∀ i, ulSizes i < 2 ^ 32
  hidden_lt : ulHiddenSectors < 2 ^ 32

/-- `BT_BLOCK_GEOMETRY` -/
structure BlockGeometry : Type where
  ulBlockSize : ℕ
  ulTotalBlocks : ℕ
  blockSize_ge : 512 ≤ ulBlockSize
  total_lt : ulTotalBlocks < 2 ^ 32

/-- `struct bt_part_t` as the writer fills it; all zero before. -/
structure PartEntry : Type where
  ulStartLBA : ℕ
  ulSectorCount : ℕ
  ucActive : UInt8
  ucPartitionID : UInt8
  deriving DecidableEq

def PartEntry.zero : PartEntry := ⟨0, 0, 0, 0⟩

/-! ## The numbers -/

/-- The sizes that are not zero, in the order of their slots. -/
def requests (sizes : ℕ → ℕ) : List ℕ :=
  ((List.range btPartitionMax).map sizes).filter fun z => 0 < z

/-- `ulSummedSizes` after the first loop. -/
def summedSizes (sizes : ℕ → ℕ) : ℕ := (requests sizes).foldl wordAdd 0

/-- `ulSizes` once a default has been put into the first slot of an empty request. -/
def normalSizes (geom : BlockGeometry) (params : PartitionParams) (i : ℕ) : ℕ :=
  if requests params.ulSizes = [] ∧ i = 0 then
    if params.eSizeType = .sectors then geom.ulTotalBlocks else 100
  else params.ulSizes i

/-- `partCount` -/
def partCount (params : PartitionParams) : ℕ :=
  if requests params.ulSizes = [] then 1 else (requests params.ulSizes).length

/-- `ulSummedSizes`, with the default. -/
def partSum (geom : BlockGeometry) (params : PartitionParams) : ℕ :=
  if requests params.ulSizes = [] then normalSizes geom params 0 else summedSizes params.ulSizes

/-- `ulPrimaryCount` once it has been normalised. -/
def primaryCount (params : PartitionParams) : ℕ :=
  let most := if 4 < partCount params then 3 else partCount params
  if most < params.ulPrimaryCount then most else params.ulPrimaryCount

/-- `ulExtended` -/
def isExtended (params : PartitionParams) : Bool := primaryCount params < partCount params

/-- `ulHiddenSectors` once it has been normalised. -/
def hiddenSectors (params : PartitionParams) : ℕ :=
  if params.ulHiddenSectors < 4096 then 4096 else params.ulHiddenSectors

/-- `ulReservedSpace` -/
def reservedSpace (params : PartitionParams) : ℕ :=
  if isExtended params then
    (if params.ulInterSpace = 0 then 2048 else params.ulInterSpace) *
      (partCount params - primaryCount params) %
      2 ^ 32
  else 0

/-- `ulAvailable` -/
def availableBlocks (geom : BlockGeometry) (params : PartitionParams) : ℕ :=
  wordSub (wordSub geom.ulTotalBlocks (hiddenSectors params)) (reservedSpace params)

/-- The switch that checks the sizes. -/
def sizesValid (geom : BlockGeometry) (params : PartitionParams) : Bool :=
  match params.eSizeType with
  | .quota => true
  | .percent => partSum geom params ≤ 100
  | .sectors => partSum geom params ≤ availableBlocks geom params

/-- `ulSummedSizes` after the switch. -/
def divisor (geom : BlockGeometry) (params : PartitionParams) : ℕ :=
  if params.eSizeType = .percent then 100 else partSum geom params

/-- `ulSize`, before it is cut off at what remains. -/
def sizeOf (geom : BlockGeometry) (params : PartitionParams) (size : ℕ) : ℕ :=
  match params.eSizeType with
  | .sectors => size
  | _ => size * availableBlocks geom params / divisor geom params % 2 ^ 32

/-- The loop that fills `oParts`, from the slot `i` on for `n` slots. -/
def fillParts (geom : BlockGeometry) (params : PartitionParams) : ℕ → ℕ → ℕ → ℕ → List PartEntry
  | 0, _, _, _ => []
  | n + 1, i, remaining, lba =>
    let size := normalSizes geom params i
    if 0 < size then
      let ulSize := min (sizeOf geom params size) remaining
      ⟨lba, ulSize, 0x80, 0x0B⟩ :: fillParts geom params n (i + 1) (remaining - ulSize)
        (wordAdd lba ulSize)
    else PartEntry.zero :: fillParts geom params n (i + 1) remaining lba

/-- `oParts` -/
def oParts (geom : BlockGeometry) (params : PartitionParams) : List PartEntry :=
  fillParts geom params (partCount params) 0 (availableBlocks geom params) (hiddenSectors params)

/-! ## The block -/

/-- `BT_Put8` -/
def btPut8 (m : Memory) (a : ℕ) (b : UInt8) : Memory := m.overlay a 1 fun _ => b

/-- `BT_Put16LE`, of a value that is cut to 16 bits -/
def btPut16LE (m : Memory) (a v : ℕ) : Memory :=
  m.overlay a 2 fun i => UInt8.ofNat (v / 2 ^ (8 * i))

/-- An entry of the table. -/
def putEntry (m : Memory) (a : ℕ) (part : PartEntry) : Memory :=
  let m := btPut8 m a part.ucActive
  let m := btPut8 m (a + 1) 1
  let m := btPut8 m (a + 2) 1
  let m := btPut8 m (a + ibmMbrPtblId) part.ucPartitionID
  let m := btPut8 m (a + 5) 0xFE
  let m := btPut16LE m (a + 6) part.ulSectorCount
  let m := m.store (a + ibmMbrPtblLba) part.ulStartLBA
  m.store (a + ibmMbrPtblSectors) part.ulSectorCount

/-- The loop over the four entries. -/
def putEntries (parts : List PartEntry) : ℕ → ℕ → Memory → Memory
  | 0, _, m => m
  | n + 1, i, m =>
    putEntries parts n (i + 1) (putEntry m (entryOffset i) (parts.getD i PartEntry.zero))

/-- The bytes at the start of block 0. -/
def bootText : List UInt8 :=
  [0xEB, 0x00, 0x90, 0x42, 0x69, 0x74, 0x54, 0x68, 0x75, 0x6E, 0x64, 0x65, 0x72]

/-- `pvBlockBuffer` after `memset` and `memcpy`. -/
def bootBlock : Memory := Memory.overlay (fun _ => 0) 0 13 fun i => bootText.getD i 0

/-- `pvBlockBuffer` when it is written. -/
def tableBlock (parts : List PartEntry) : Memory :=
  btPut8 (btPut8 (putEntries parts 4 0 bootBlock) 510 0x55) 511 0xAA

/-- A size is divided by the sum of the sizes, which is zero in 32 bits. -/
def dividesByZero (geom : BlockGeometry) (params : PartitionParams) : Bool :=
  params.eSizeType ≠ .sectors ∧ divisor geom params = 0 ∧
    (List.range (partCount params)).any fun i => 0 < normalSizes geom params i

/-- What `BT_Partition` is given and does not look at: whether `BT_kMalloc` grants `pvBlockBuffer`,
and what is left on the medium if `BT_BlockWrite` fails. -/
structure PartitionServices : Type where
  granted : Bool
  failed : Option Memory

/-- `BT_Partition` on a block device: its error, and the medium. `none` is a division by zero, or
`memset` of a null pointer. -/
def btPartition (geom : BlockGeometry) (params : PartitionParams) (services : PartitionServices)
    (medium : Memory) : Option (ℕ × Memory) :=
  if ¬ sizesValid geom params then some (errInvalidValue, medium)
  else if dividesByZero geom params then none
  else if isExtended params then some (0, medium)
  else if services.granted = false then none
  else
    let written := medium.overlay 0 geom.ulBlockSize (tableBlock (oParts geom params))
    some (0, services.failed.getD written)

end BitThunder
