import BitThunder.Lib.Ring
import BitThunder.Mm.Defs

/-!
# The page allocator

`os/src/mm/bt_page.c`, on the pointers it works on. A free block is a header
(`struct bt_page`: two list pointers and a size) at the start of the free memory
itself; the pool's list is circular, unsorted, and hangs off the pool structure.
Headers are addressed by the virtual address of the block, results and arguments
are physical addresses.

The page lock is left out here: every function runs between taking and releasing
it, and its other effects are those of a sequential call.

Three things in the source look like slips and are kept as they are. `bt_page_pool_free` walks the
list to find the place of the block, and then adds the block behind the head (`goesOnAbove` is
evaluated, its result is not used). The test of `bt_page_pool_alloc` that there is room behind the
unaligned head of a block adds in 32 bits. And every size goes through `btPageAlign` in 32 bits.

A search that does not come back to the head within `cellBound` cells goes round in a circle that
the head is not on; its result is `none`, which stands for a call that never returns.
-/

namespace BitThunder

/-- The link cells of one pool: the head inside `struct bt_page_pool`, and the
header at the start of a block. -/
inductive PageCell : Type where
  /-- `&pool->page_head` -/
  | poolHead : PageCell
  /-- `&page->list` of the block at a virtual address -/
  | page : ℕ → PageCell
  deriving DecidableEq

/-- `struct bt_page_pool` together with the headers its list runs through. -/
structure PagePool : Type where
  /-- the `list` fields -/
  list : Links PageCell
  /-- the `size` field of the header at a virtual address -/
  blkSize : ℕ → ℕ
  /-- `total_size` -/
  totalSize : ℕ
  /-- `used_size` -/
  usedSize : ℕ

namespace PagePool

/-- The block size a header is given. -/
def setSize (pool : PagePool) (va n : ℕ) : PagePool :=
  { pool with blkSize := Function.update pool.blkSize va n }

/-- The new value of `used_size`. -/
def setUsed (pool : PagePool) (n : ℕ) : PagePool := { pool with usedSize := n }

/-- `bt_list_add(&blk->list, c)` -/
def listAdd (pool : PagePool) (va : ℕ) (c : PageCell) : PagePool :=
  { pool with list := pool.list.insertAfter (.page va) c }

/-- `bt_list_del(&blk->list)` -/
def listDel (pool : PagePool) (va : ℕ) : PagePool :=
  { pool with list := pool.list.unlink (.page va) }

end PagePool

/-! ## Allocation

The first block that has room behind its alignment gap is taken. The gap is split off as a block,
and so is what is left behind. -/

/-- `align_mask`: `(BT_PAGE_SIZE << order) - 1` -/
def alignMask (order : ℕ) : ℕ := (btPageSize <<< order % 2 ^ 32 + 2 ^ 32 - 1) % 2 ^ 32

/-- `diff`: the bytes from a block to its first aligned address. -/
def alignDiff (order va : ℕ) : ℕ :=
  let aligned := (va + alignMask order) % 2 ^ 32 &&& wordNot (alignMask order)
  (aligned + 2 ^ 32 - va) % 2 ^ 32

/-- The test of the search loop: the block is large enough, also after its
unaligned head has been set aside. -/
def PagePool.fits (pool : PagePool) (size order : ℕ) : PageCell → Bool
  | .poolHead => false
  | .page va =>
    decide (size ≤ pool.blkSize va) &&
      (order == 0 || decide ((size + alignDiff order va) % 2 ^ 32 ≤ pool.blkSize va))

/-- Split off the unaligned part: the block keeps its first `diff` bytes, the
rest becomes a block of its own right behind it in the list. -/
def splitHead (pool : PagePool) (blk diff : ℕ) : PagePool :=
  let tmp := (blk + diff) % 2 ^ 32
  let pool := pool.setSize tmp ((pool.blkSize blk + 2 ^ 32 - diff) % 2 ^ 32)
  (pool.setSize blk diff).listAdd tmp (.page blk)

/-- Take `size` bytes off the front of a block and leave the tail, if any, in its
place in the list. -/
def takeFront (pool : PagePool) (blk size : ℕ) : PagePool :=
  if pool.blkSize blk = size then pool.listDel blk
  else
    let tmp := (blk + size) % 2 ^ 32
    let pool := pool.setSize tmp ((pool.blkSize blk + 2 ^ 32 - size) % 2 ^ 32)
    (pool.listAdd tmp (.page blk)).listDel blk

/-- `bt_page_pool_alloc`. `none` is a search that never ends; a returned address
of `0` is failure. -/
def btPagePoolAlloc (R : RamConfig) (pool : PagePool) (psize order : ℕ) :
    Option (ℕ × PagePool) :=
  if psize = 0 then some (0, pool) else
    let size := btPageAlign psize
    match pool.list.search (pool.fits size order) .poolHead cellBound with
    | none => none
    | some (some (.page blk)) =>
      -- a block at virtual address 0 is indistinguishable from `blk == NULL`
      if blk = 0 then some (0, pool) else
        let diff := if order = 0 then 0 else alignDiff order blk
        let pool := if diff = 0 then pool else splitHead pool blk diff
        let blk := (blk + diff) % 2 ^ 32
        let pool := takeFront pool blk size
        some (R.virtToPhys blk, pool.setUsed ((pool.usedSize + size) % 2 ^ 32))
    | some _ => some (0, pool)

/-! ## Freeing

The loop looks for the place of the block, but the block is put at the front of the list. Then it is
merged with its neighbours on the list, if they touch it. -/

/-- The test of the search loop of `bt_page_pool_free`, whose result is not used:
does the list go on at or above `blk`? -/
def PagePool.goesOnAbove (pool : PagePool) (blk : ℕ) (c : PageCell) : Bool :=
  match pool.list.next c with
  | .poolHead => false
  | .page va => decide (blk ≤ va)

/-- "Block can be merged with next block." -/
def mergeNext (pool : PagePool) (blk : ℕ) : PagePool :=
  match pool.list.next (.page blk) with
  | .poolHead => pool
  | .page next =>
    if (blk + pool.blkSize blk) % 2 ^ 32 = next then
      (pool.setSize blk ((pool.blkSize blk + pool.blkSize next) % 2 ^ 32)).listDel next
    else pool

/-- The merge with the previous block. -/
def mergePrev (pool : PagePool) (blk : ℕ) : PagePool :=
  match pool.list.prev (.page blk) with
  | .poolHead => pool
  | .page prev =>
    if (prev + pool.blkSize prev) % 2 ^ 32 = blk then
      (pool.setSize prev ((pool.blkSize prev + pool.blkSize blk) % 2 ^ 32)).listDel blk
    else pool

/-- `bt_page_pool_free`. The block goes to the front of the list, whatever the
search loop found. -/
def btPagePoolFree (R : RamConfig) (pool : PagePool) (paddr psize : ℕ) : Option PagePool :=
  if psize = 0 then some pool else
    let size := btPageAlign psize
    let blk := R.physToVirt paddr
    match pool.list.search (pool.goesOnAbove blk) .poolHead cellBound with
    | none => none
    | some _ =>
      let pool := (pool.setSize blk size).listAdd blk .poolHead
      let pool := mergeNext pool blk
      let pool := mergePrev pool blk
      some (pool.setUsed ((pool.usedSize + 2 ^ 32 - size) % 2 ^ 32))

/-- `bt_page_pool_attach` -/
def btPagePoolAttach (R : RamConfig) (pool : PagePool) (paddr size : ℕ) : Option PagePool :=
  btPagePoolFree R
    { pool with
      totalSize := (pool.totalSize + size) % 2 ^ 32
      usedSize := (pool.usedSize + size) % 2 ^ 32 } paddr size

/-- `bt_page_pool_init`: whatever the memory held before. -/
def btPagePoolInit (pool : PagePool) : PagePool :=
  { pool with list := pool.list.initHead .poolHead, totalSize := 0, usedSize := 0 }

end BitThunder
