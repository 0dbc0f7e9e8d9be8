import BitThunder.Lib.Memory
import BitThunder.Mm.Defs

/-!
# The linear heap

`os/src/mm/bt_heap.c`, the other implementation of `BT_kMalloc`. The heap is one region;
every block in it starts with a header (`BT_HEAP_BLOCK`: the next free block and the
size, header included). The free list hangs off `pStart`, is sorted by address and ends
in `pEnd`.

* A list that goes round in a circle makes a search endless: the result is `none`.
* The critical sections are left out: every function runs inside one.

`BT_kMalloc` walks the list from `pStart` until a block is large enough or has no successor, and
only then asks whether it has come to `pEnd`. `BT_kFree` finds the last member of the list below the
block and merges twice, first with that member and then with the one behind, so that at most three
blocks become one.

`pEnd` is computed with a cast in the wrong place: the subtraction goes back by 64 bytes rather than
by 8, and the first free block is nevertheless given the size up to 8 bytes before the end of the
region. What follows from this is in the specifications.
-/

namespace BitThunder

/-- `sizeof(BT_HEAP_BLOCK)` -/
def heapBlockBytes : ℕ := 8

/-- Where the linker puts the heap and the list head. Nine headers fit into the
region. -/
structure HeapRegion : Type where
  /-- `&_heap_start` -/
  start : ℕ
  /-- `&_heap_end` -/
  stop : ℕ
  /-- `&pStart` -/
  head : ℕ
  start_pos : 0 < start
  start_aligned : start % 8 = 0
  stop_aligned : stop % 8 = 0
  stop_lt : stop < 2 ^ 32
  room : start + 72 ≤ stop
  head_end : head + 8 ≤ 2 ^ 32
  head_out : head + 8 ≤ start ∨ stop ≤ head

/-- The value `pEnd` is given. The pointer is cast before `sizeof(BT_HEAP_BLOCK)` is
subtracted, so this goes back by as many headers as a header has bytes. -/
def HeapRegion.endBlock (R : HeapRegion) : ℕ := wordSub R.stop (heapBlockBytes * heapBlockBytes)

/-- The size of the first free block. -/
def HeapRegion.firstSize (R : HeapRegion) : ℕ := wordSub (wordSub R.stop R.start) heapBlockBytes

/-- The memory, and the variables of `bt_heap.c` other than `pStart`. -/
structure Heap : Type where
  mem : Memory
  /-- `0` before the first allocation -/
  pEnd : ℕ
  /-- `g_ulBytesRemaining` -/
  bytesRemaining : ℕ

/-! ## Headers

A block has two words in front: the address of the next free block, and the size with the header. -/

/-- `pBlock->pNextBlock` -/
def nextBlock (m : Memory) (b : ℕ) : ℕ := m.load b

/-- `pBlock->ulSize` -/
def blockSize (m : Memory) (b : ℕ) : ℕ := m.load (wordAdd b 4)

/-- `pBlock->pNextBlock = v` -/
def setNextBlock (m : Memory) (b v : ℕ) : Memory := m.store b v

/-- `pBlock->ulSize = v` -/
def setBlockSize (m : Memory) (b v : ℕ) : Memory := m.store (wordAdd b 4) v

variable (R : HeapRegion)

/-- `BT_InitialiseHeap` -/
def btInitialiseHeap (h : Heap) : Heap :=
  let m := setNextBlock h.mem R.head R.start
  let m := setBlockSize m R.head 0
  let m := setNextBlock m R.endBlock 0
  let m := setBlockSize m R.endBlock 0
  let m := setNextBlock m R.start R.endBlock
  let m := setBlockSize m R.start R.firstSize
  ⟨m, R.endBlock, blockSize m R.start⟩

/-! ## `BT_kMalloc`

The first block on the list that is large enough is taken, and what is left of it is put back on the
list if it is not too small. -/

/-- The size of the block that is looked for: with its header, and rounded up to a
multiple of 8. -/
def heapRequest (ulSize : ℕ) : ℕ :=
  let size := wordAdd ulSize heapBlockBytes
  if size &&& 7 ≠ 0 then wordAdd size (8 - (size &&& 7)) else size

/-- The search loop of `BT_kMalloc`: the first block that is large enough, or the last
one, together with the one before. -/
def findBlock (m : Memory) (size : ℕ) : ℕ → ℕ → ℕ → Option (ℕ × ℕ)
  | 0, _, _ => none
  | fuel + 1, prev, blk =>
    if blockSize m blk < size ∧ nextBlock m blk ≠ 0 then
      findBlock m size fuel blk (nextBlock m blk)
    else some (prev, blk)

/-- The tail of a block becomes a free block in its place. -/
def splitBlock (m : Memory) (prev blk size : ℕ) : Memory :=
  let new := wordAdd blk size
  let m := setNextBlock m new (nextBlock m blk)
  let m := setBlockSize m new (wordSub (blockSize m blk) size)
  let m := setBlockSize m blk size
  let m := setNextBlock m blk 0
  setNextBlock m prev new

/-- A block is taken off the list, and its tail put back if that is worth it. -/
def takeBlock (m : Memory) (prev blk size : ℕ) : Memory :=
  let m := setNextBlock m prev (nextBlock m blk)
  if heapBlockBytes * 2 < wordSub (blockSize m blk) size then splitBlock m prev blk size else m

/-- `BT_kMalloc` of the linear heap -/
def heapMalloc (h : Heap) (ulSize : ℕ) : Option (ℕ × Heap) :=
  let h := if h.pEnd = 0 then btInitialiseHeap R h else h
  if ulSize = 0 then some (0, h)
  else
    let size := heapRequest ulSize
    if h.bytesRemaining < size then some (0, h)
    else
      match findBlock h.mem size cellBound R.head (nextBlock h.mem R.head) with
      | none => none
      | some (prev, blk) =>
        if blk = h.pEnd then some (0, h)
        else
          let p := wordAdd (nextBlock h.mem prev) heapBlockBytes
          let m := takeBlock h.mem prev blk size
          some (p, ⟨m, h.pEnd, wordSub h.bytesRemaining (blockSize m blk)⟩)

/-! ## `BT_kFree`

The list is sorted by address. The place of the block is found, and the block is merged with its
neighbours where they touch. -/

/-- The search loop of `BT_kFree`: the last list member below `blk`. -/
def findPlace (m : Memory) (blk : ℕ) : ℕ → ℕ → Option ℕ
  | 0, _ => none
  | fuel + 1, item =>
    if nextBlock m item < blk then findPlace m blk fuel (nextBlock m item) else some item

/-- Merge `blk` into the list member before it, if that ends where `blk` starts. Returns
the block that is free now. -/
def mergeBefore (m : Memory) (item blk : ℕ) : ℕ × Memory :=
  if wordAdd item (blockSize m item) = blk then
    (item, setBlockSize m item (wordAdd (blockSize m item) (blockSize m blk)))
  else (blk, m)

/-- Give `blk` its successor, merging the two if `blk` ends where that starts. -/
def mergeAfter (m : Memory) (pEnd item blk : ℕ) : Memory :=
  if wordAdd blk (blockSize m blk) = nextBlock m item then
    if nextBlock m item ≠ pEnd then
      let m := setBlockSize m blk (wordAdd (blockSize m blk) (blockSize m (nextBlock m item)))
      setNextBlock m blk (nextBlock m (nextBlock m item))
    else setNextBlock m blk pEnd
  else setNextBlock m blk (nextBlock m item)

/-- What `BT_kFree` does to the list, once it has found the place. -/
def putBlock (m : Memory) (pEnd item blk : ℕ) : Memory :=
  let r := mergeBefore m item blk
  let m := mergeAfter r.2 pEnd item r.1
  if item ≠ r.1 then setNextBlock m item r.1 else m

/-- `BT_kFree` of the linear heap -/
def heapFree (h : Heap) (p : ℕ) : Option Heap :=
  if p = 0 then some h
  else
    let blk := wordSub p heapBlockBytes
    let remaining := wordAdd h.bytesRemaining (blockSize h.mem blk)
    match findPlace h.mem blk cellBound R.head with
    | none => none
    | some item => some ⟨putBlock h.mem h.pEnd item blk, h.pEnd, remaining⟩

/-- `BT_kRealloc` of the linear heap -/
def heapRealloc (h : Heap) (p ulSize : ℕ) : Option (ℕ × Heap) :=
  if p ≠ 0 ∧ ulSize ≠ 0 then
    match heapMalloc R h ulSize with
    | none => none
    | some (n, h') =>
      if n = 0 then some (0, h')
      else
        let old := wordSub p heapBlockBytes
        let m := setBlockSize h'.mem old (wordSub (blockSize h'.mem old) heapBlockBytes)
        let len := if blockSize m old < ulSize then blockSize m old else ulSize
        some (n, { h' with mem := m.copy n p len })
  else if p ≠ 0 then (heapFree R h p).map fun h' => (0, h')
  else if ulSize ≠ 0 then heapMalloc R h ulSize
  else some (0, h)

end BitThunder
