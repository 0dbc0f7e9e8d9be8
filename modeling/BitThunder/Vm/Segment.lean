import BitThunder.Vm.Mmu

/-!
# Segments

The segment functions of `os/src/mm/bt_vm.c`. A map's segments hang off its list
head; a segment is found by walking the list, split by putting a new segment
behind it, and given back by merging it with free neighbours.

A walk is cut off after as many cells as there are blocks: a list that has not
come back to its head by then never will.

The walks are `Links.search` with a test on segments, so that what they find is said with
`List.find?` as soon as the list is known. Splitting is never undone by the code that fails later:
it is the caller that gives the piece back, and the merges of `bt_segment_free` that put it together
again.

Two computations are 32-bit sums that the source makes so: the end of the requested range in
`bt_segment_lookup`, and the size that a merge gives a segment. The end of a segment that is
compared with the former is a 64-bit sum. A range that ends with the address space therefore ends at
`0` for the lookup.
-/

namespace BitThunder

variable {σ : Type} (K : Kernel σ)

/-- A test on segments, on the cell a walk has arrived at. -/
def Machine.cellTest (s : Machine σ) (p : Segment → Bool) : Cell → Bool
  | .list i => p (s.seg i)
  | _ => false

/-- The first segment of a map's list that passes a test. -/
def findSegment (m : ℕ) (p : Segment → Bool) : Prog (Machine σ) (Option ℕ) := do
  match ← Prog.ofOption fun s => s.links.search (s.cellTest p) (.head m) s.fresh with
  | some (.list i) => pure (some i)
  | _ => pure none

/-- `bt_segment_create` -/
def btSegmentCreate (prev addr size : ℕ) : Prog (Machine σ) (Option ℕ) := do
  match ← kMalloc K segmentBytes with
  | none => pure none
  | some i =>
    putSeg i { addr := addr, phys := 0, size := size, flags := btSegFree }
    btListAdd (.list i) (.list prev)
    pure (some i)

/-- `oldseg->flags &= ~BT_SEG_SHARED` for the segment `bt_container_of` computes
from a pointer to a `shared_list`. Where the pointer was never set to one, the
word at the offset of `flags` is another field: `phys` of the segment whose `list`
it is, `map_mutex` of the map whose head it is. -/
def clearShared : Cell → Prog (Machine σ) Unit
  | .shared i => modifySeg i fun v => { v with flags := v.flags &&& wordNot btSegShared }
  | .list i => modifySeg i fun v => { v with phys := v.phys &&& wordNot btSegShared }
  | .head m => modifyMap m fun v => { v with mapMutex := v.mapMutex &&& wordNot btSegShared }

/-- What follows an unlink in `bt_segment_delete`, `bt_segment_free` and
`do_attribute`: a sharer that is left alone loses the flag. -/
def unshareLast (i : ℕ) : Prog (Machine σ) Unit := do
  let next ← Prog.read fun s => s.links.next (.shared i)
  let prev ← Prog.read fun s => s.links.prev (.shared i)
  Prog.when (next = prev) (clearShared prev)

/-- `bt_segment_delete`. The segment is never the list head itself. -/
def btSegmentDelete (i : ℕ) : Prog (Machine σ) Unit := do
  sharedLock
  let v ← Prog.read fun s => s.seg i
  Prog.when (v.has btSegShared) do
    btListDel (.shared i)
    unshareLast i
  sharedUnlock
  modifySeg i fun v => { v with flags := btSegFree }
  kFree K i

/-- The test of `bt_segment_lookup`: the end of the segment is a 64-bit sum, the
end of the range a 32-bit one. -/
def lookupTest (addr size : ℕ) (v : Segment) : Bool :=
  decide (v.addr ≤ addr) && decide (wordAdd addr size < v.addr + v.size)

/-- `bt_segment_lookup` -/
def btSegmentLookup (m addr size : ℕ) : Prog (Machine σ) (Option ℕ) :=
  findSegment m (lookupTest addr size)

/-- The test of `bt_segment_alloc`. -/
def allocTest (size : ℕ) (v : Segment) : Bool := v.has btSegFree && decide (size ≤ v.size)

/-- `bt_segment_alloc` -/
def btSegmentAlloc (m size : ℕ) : Prog (Machine σ) (Option ℕ) := do
  let size := btPageAlign size
  match ← findSegment m (allocTest size) with
  | none => pure none
  | some i =>
    let v ← Prog.read fun s => s.seg i
    if v.size ≠ size then
      match ← btSegmentCreate K i (wordAdd v.addr size) (wordSub v.size size) with
      | none =>
        mapUnlock m
        pure none
      | some _ =>
        modifySeg i fun v => { v with size := size }
        pure (some i)
    else pure (some i)

/-- "If next segment is free then merge." -/
def mergeNextSegment (m i : ℕ) : Prog (Machine σ) Unit := do
  match ← Prog.read fun s => s.links.next (.list i) with
  | .list next =>
    let v ← Prog.read fun s => s.seg next
    Prog.when (v.has btSegFree) do
      btListDel (.list next)
      modifySeg i fun w => { w with size := wordAdd w.size v.size }
      kFree K next
  | .head m' => if m' = m then pure () else Prog.stuck
  | .shared _ => Prog.stuck

/-- The merge with the previous segment. -/
def mergePrevSegment (m i : ℕ) : Prog (Machine σ) Unit := do
  match ← Prog.read fun s => s.links.prev (.list i) with
  | .list prev =>
    let v ← Prog.read fun s => s.seg prev
    Prog.when (v.has btSegFree) do
      btListDel (.list i)
      let w ← Prog.read fun s => s.seg i
      modifySeg prev fun v => { v with size := wordAdd v.size w.size }
      kFree K i
  | .head m' => if m' = m then pure () else Prog.stuck
  | .shared _ => Prog.stuck

/-- `bt_segment_free`. A shared segment is taken off the list of segments here,
not off the list of sharers. -/
def btSegmentFree (m i : ℕ) : Prog (Machine σ) Unit := do
  sharedLock
  let v ← Prog.read fun s => s.seg i
  Prog.when (v.has btSegShared) do
    btListDel (.list i)
    unshareLast i
  sharedUnlock
  modifySeg i fun v => { v with flags := btSegFree }
  mergeNextSegment K m i
  mergePrevSegment K m i

/-- `bt_segment_reserve`, after the lookup: cut `[addr, addr + size)` out of the
free segment `i`. -/
def reserveIn (m i addr size : ℕ) : Prog (Machine σ) (Option ℕ) := do
  let v ← Prog.read fun s => s.seg i
  if v.addr ≠ addr then
    let diff := wordSub addr v.addr
    match ← btSegmentCreate K i addr (wordSub v.size diff) with
    | none => pure none
    | some j =>
      modifySeg i fun v => { v with size := diff }
      reserveTail m j size true
  else reserveTail m i size false
where
  /-- Split off what lies behind the range; on failure undo the split in front. -/
  reserveTail (m i size : ℕ) (prev : Bool) : Prog (Machine σ) (Option ℕ) := do
    let v ← Prog.read fun s => s.seg i
    if v.size ≠ size then
      match ← btSegmentCreate K i (wordAdd v.addr size) (wordSub v.size size) with
      | none =>
        Prog.when prev (btSegmentFree K m i)
        pure none
      | some _ =>
        modifySeg i fun v => { v with size := size }
        modifySeg i fun v => { v with flags := 0 }
        pure (some i)
    else
      modifySeg i fun v => { v with flags := 0 }
      pure (some i)

/-- `bt_segment_reserve` -/
def btSegmentReserve (m addr size : ℕ) : Prog (Machine σ) (Option ℕ) := do
  let start := btPageTrunc addr
  let size := btPageAlign size
  match ← btSegmentLookup m start size with
  | none => pure none
  | some i =>
    let v ← Prog.read fun s => s.seg i
    if v.has btSegFree then reserveIn K m i addr size else pure none

end BitThunder
