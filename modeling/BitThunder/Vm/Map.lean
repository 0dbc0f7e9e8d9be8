import BitThunder.Vm.Segment

/-!
# Virtual memory maps

The functions of `os/src/mm/bt_vm.c` on a map: creating and destroying it, mapping
and allocating into it, and duplicating it.

`bt_vm_map_region` keeps its working segment in a `static` variable; it is part of
the machine, and is written and read where the source writes and reads it.

`allocateInto` and `mapBody` name stretches of the source between two lock operations or from a
common point to the end. They are used to say how calls of different tasks interleave, and where a
failing call joins the path that undoes it; the whole functions are given as in the source, with
equations that say they are the composition.

The result of `bt_mmu_map` is looked at by `do_allocate` and not by `bt_vm_map_region`, and neither
takes back the pages that were entered before a table could not be had. The duplication is the
longest function: a copying loop that creates segments in the new map and shares or copies their
pages, and a second loop that walks both maps to link the sharers.
-/

namespace BitThunder

variable {σ : Type} (K : Kernel σ)

/-! ## Life cycle -/

/-- The first part of `bt_vm_create`, on the block `m`. -/
def initMap (m : ℕ) : Prog (Machine σ) Unit := do
  modifyMap m fun v => { v with refcount := 1, size := 0 }
  let mutex ← kMutexCreate K
  modifyMap m fun v => { v with mapMutex := mutex }
  btListInitHead (.head m)

/-- `bt_vm_create` -/
def btVmCreate : Prog (Machine σ) (Option ℕ) := do
  match ← kMalloc K vmMapBytes with
  | none => pure none
  | some m =>
    initMap K m
    match ← kMalloc K segmentBytes with
    | none => pure none
    | some i =>
      putSeg i { addr := btPageSize, phys := 0, size := btMmUserLimit - btPageSize,
                 flags := btSegFree }
      btListAdd (.list i) (.head m)
      let pgd ← btMmuNewmap K
      modifyMap m fun v => { v with pgd := pgd }
      pure (some m)

/-- What `bt_vm_destroy` and `do_free` do with the pages of a segment. -/
def releasePages (m i : ℕ) : Prog (Machine σ) Unit := do
  let v ← Prog.read fun s => s.seg i
  let pgd ← Prog.read fun s => (s.map m).pgd
  let _ ← btMmuMap K pgd v.phys v.addr v.size btPageUnmap
  Prog.when (!v.has btSegShared && !v.has btSegMapped) (pageFree K .segment v.phys v.size)

/-- The loop of `bt_vm_destroy`, from the cell `c` on. -/
def destroyFrom (m : ℕ) : ℕ → Cell → Prog (Machine σ) Unit
  | 0, _ => Prog.stuck
  | n + 1, .list i => do
    let v ← Prog.read fun s => s.seg i
    Prog.when (v.flags ≠ btSegFree) (releasePages K m i)
    let next ← Prog.read fun s => s.links.next (.list i)
    btSegmentDelete K i
    destroyFrom m n next
  | _ + 1, .head m' => if m' = m then pure () else Prog.stuck
  | _ + 1, .shared _ => Prog.stuck

/-- `bt_vm_destroy` -/
def btVmDestroy (m : ℕ) : Prog (Machine σ) Unit := do
  modifyMap m fun v => { v with refcount := wordSub v.refcount 1 }
  let v ← Prog.read fun s => s.map m
  if 0 < v.refcount then pure ()
  else
    let first ← Prog.read fun s => s.links.next (.head m)
    let n ← Prog.read fun s => s.fresh + 1
    destroyFrom K m n first
    let task ← Prog.read fun s => s.task
    let kernelMap ← Prog.read fun s => s.map 0
    Prog.when (m = task) (btMmuSwitch K kernelMap.pgd)
    let v ← Prog.read fun s => s.map m
    btMmuTerminate K v.pgd
    kFree K m

/-! ## Mapping

A region is obtained at a fixed address or at any, and then entered. -/

/-- `type_to_segflags` -/
def typeToSegflags : ℕ → ℕ
  | 1 => btSegRead
  | 2 => btSegRead ||| btSegWrite
  | 3 => btSegRead ||| btSegWrite
  | 4 => btSegRead ||| btSegWrite ||| btSegIomapped
  | _ => 0

/-- `segflags_to_type` -/
def segflagsToType (flags : ℕ) : ℕ :=
  let type := if flags &&& btSegRead ≠ 0 then btPageRead else 0
  let type := if flags &&& btSegWrite ≠ 0 then btPageWrite else type
  if flags &&& btSegIomapped ≠ 0 then btPageIomem else type

/-- `bt_vm_map_region` up to the assignment of its static variable: the segment
the call obtains. -/
def obtainRegion (m va size : ℕ) : Prog (Machine σ) (Option ℕ) :=
  if va = 0 then btSegmentAlloc K m size else btSegmentReserve K m va size

/-- What `bt_vm_map_region` does with the segment in its static variable while it
holds the lock. `true` is the way on to `return seg->addr`. -/
def enterRegion (m pa type : ℕ) : Prog (Machine σ) Bool := do
  match ← Prog.read fun s => s.mapSeg with
  | none => pure false
  | some i =>
    modifySeg i fun v => { v with phys := pa }
    modifySeg i fun v => { v with flags := typeToSegflags type }
    let v ← Prog.read fun s => s.seg i
    if v.flags = 0 then
      btSegmentFree K m i
      pure false
    else
      modifySeg i fun v => { v with flags := v.flags ||| btSegMapped }
      let v ← Prog.read fun s => s.seg i
      let pgd ← Prog.read fun s => (s.map m).pgd
      let _ ← btMmuMap K pgd v.phys v.addr v.size type
      pure true

/-- `seg->addr` of the static variable. -/
def staticSegAddr : Prog (Machine σ) ℕ := do
  match ← Prog.read fun s => s.mapSeg with
  | none => Prog.stuck
  | some i => Prog.read fun s => (s.seg i).addr

/-- `bt_vm_map_region`. The result of `bt_mmu_map` is not looked at. -/
def btVmMapRegion (m pa va size type : ℕ) : Prog (Machine σ) ℕ := do
  mapLock m
  let r ← obtainRegion K m va size
  Prog.update fun s => s.setMapSeg r
  let ok ← enterRegion K m pa type
  mapUnlock m
  if ok then staticSegAddr else pure 0

/-- `bt_vm_map_region` between the two lock operations: the segment it obtains, and whether
it goes on to `return seg->addr`. -/
def mapBody (m pa va size type : ℕ) : Prog (Machine σ) (Option ℕ × Bool) := do
  let r ← obtainRegion K m va size
  Prog.update fun s => s.setMapSeg r
  let ok ← enterRegion K m pa type
  pure (r, ok)

/-- `bt_vm_map_region` after it has released the lock. -/
def mapReturn (ok : Bool) : Prog (Machine σ) ℕ := if ok then staticSegAddr else pure 0

/-- `bt_vm_map_region`, cut at its lock operations. -/
theorem btVmMapRegion_eq (m pa va size type : ℕ) :
    btVmMapRegion K m pa va size type =
      mapLock m >>= fun _ => mapBody K m pa va size type >>= fun r =>
        mapUnlock m >>= fun _ => mapReturn r.2 := by
  apply Prog.ext_ensures
  intro s Q
  simp only [btVmMapRegion, mapBody, mapReturn, Prog.ensures_bind, Prog.ensures_pure]

/-- `bt_vm_unmap_region` -/
def btVmUnmapRegion (m va : ℕ) : Prog (Machine σ) Unit := do
  mapLock m
  match ← btSegmentLookup m va 0 with
  | none => mapUnlock m
  | some i =>
    let v ← Prog.read fun s => s.seg i
    if v.has btSegMapped then
      let pgd ← Prog.read fun s => (s.map m).pgd
      let _ ← btMmuMap K pgd v.phys v.addr v.size btPageUnmap
      btSegmentFree K m i
      mapUnlock m
    else mapUnlock m

/-! ## Allocating

Allocation, freeing, and changing the protection of a segment that is there. -/

/-- The end of `do_allocate`, with the segment in hand: get pages, map them, or
give everything back. -/
def allocateInto (m i addr size : ℕ) : Prog (Machine σ) (BtError × ℕ) := do
  modifySeg i fun v => { v with flags := btSegRead ||| btSegWrite ||| btSegExec }
  let pa ← pageAlloc K .segment size
  if pa = 0 then
    btSegmentFree K m i
    mapUnlock m
    pure (.noMemory, addr)
  else
    let v ← Prog.read fun s => s.seg i
    let pgd ← Prog.read fun s => (s.map m).pgd
    let r ← btMmuMap K pgd pa v.addr size btPageSystem
    if r ≠ 0 then
      pageFree K .segment pa size
      btSegmentFree K m i
      mapUnlock m
      pure (.noMemory, addr)
    else
      modifySeg i fun v => { v with phys := pa }
      memclear (K.ram.physToVirt pa) v.size
      modifyMap m fun v => { v with size := wordAdd v.size size }
      mapUnlock m
      pure (.none, v.addr)

/-- `do_allocate`, that is `bt_vm_allocate` on the task's map. The result is the
error and the new value of `*addr`. -/
def doAllocate (m addr size flags : ℕ) : Prog (Machine σ) (BtError × ℕ) := do
  if size = 0 then pure (.generic, addr)
  else
    mapLock m
    if flags &&& btVmAllocAnywhere ≠ 0 then
      let size := btPageAlign size
      match ← btSegmentAlloc K m size with
      | none =>
        mapUnlock m
        pure (.noMemory, addr)
      | some i => allocateInto K m i addr size
    else
      let start := btPageTrunc addr
      let size := wordSub (btPageAlign (wordAdd start size)) start
      match ← btSegmentReserve K m start size with
      | none =>
        mapUnlock m
        pure (.noMemory, addr)
      | some i => allocateInto K m i addr size

/-- `do_free`, that is `bt_vm_free` on the task's map. -/
def doFree (m addr : ℕ) : Prog (Machine σ) BtError := do
  let va := btPageTrunc addr
  mapLock m
  match ← btSegmentLookup m va 0 with
  | none =>
    mapUnlock m
    pure .generic
  | some i =>
    let v ← Prog.read fun s => s.seg i
    if v.addr ≠ va ∨ v.has btSegFree then
      mapUnlock m
      pure .generic
    else
      releasePages K m i
      modifyMap m fun w => { w with size := wordSub w.size v.size }
      btSegmentFree K m i
      mapUnlock m
      pure .none

/-- The segment flags of a protection, in `do_attribute`. -/
def attrFlags (attr : ℕ) : ℕ :=
  (if attr &&& btProtRead ≠ 0 then btSegRead else 0) |||
    (if attr &&& btProtWrite ≠ 0 then btSegWrite ||| btSegRead else 0) |||
    (if attr &&& btProtExec ≠ 0 then btSegExec else 0)

/-- The branch of `do_attribute` for a shared segment: "we must duplicate it". -/
def attributeShared (m i mapType : ℕ) : Prog (Machine σ) BtError := do
  let v ← Prog.read fun s => s.seg i
  let pgd ← Prog.read fun s => (s.map m).pgd
  let newPa ← pageAlloc K .segment v.size
  if newPa = 0 then
    sharedUnlock
    pure .noMemory
  else
    memcpy (K.ram.physToVirt newPa) (K.ram.physToVirt v.phys) v.size
    let r ← btMmuMap K pgd newPa v.addr v.size mapType
    if r ≠ 0 then
      sharedUnlock
      pageFree K .segment newPa v.size
      pure .noMemory
    else
      modifySeg i fun v => { v with phys := newPa }
      btListDel (.shared i)
      unshareLast i
      sharedUnlock
      modifySeg i fun v => { v with flags := v.flags &&& wordNot btSegShared }
      btListInitHead (.shared i)
      pure .none

/-- The other branch: change the protection of the pages in place. -/
def attributePrivate (m i mapType : ℕ) : Prog (Machine σ) BtError := do
  sharedUnlock
  let v ← Prog.read fun s => s.seg i
  let pgd ← Prog.read fun s => (s.map m).pgd
  let r ← btMmuMap K pgd v.phys v.addr v.size mapType
  if r ≠ 0 then pure .noMemory else pure .none

/-- `do_attribute`, that is `bt_vm_attribute` on the task's map. -/
def doAttribute (m addr attr : ℕ) : Prog (Machine σ) BtError := do
  let va := btPageTrunc addr
  match ← btSegmentLookup m va 0 with
  | none => pure .generic
  | some i =>
    let v ← Prog.read fun s => s.seg i
    if v.addr ≠ va ∨ v.has btSegFree then pure .generic
    else if v.has btSegMapped then pure .generic
    else
      let newFlags := attrFlags attr
      if newFlags = v.flags &&& (btSegRead ||| btSegWrite ||| btSegExec) then pure .none
      else
        let mapType := if newFlags &&& btSegWrite ≠ 0 then btPageWrite else btPageRead
        sharedLock
        let e ← if v.has btSegShared then attributeShared K m i mapType
          else attributePrivate K m i mapType
        if e ≠ .none then pure e
        else
          modifySeg i fun v => { v with flags := newFlags }
          pure .none

/-! ## Duplicating

A loop that copies segments and one that links those that are shared. -/

/-- What `bt_vm_duplicate` does with one segment `src` of the original. `false`:
the new map has been destroyed. -/
def duplicateSegment (m src : ℕ) : Prog (Machine σ) Bool := do
  match ← kMalloc K segmentBytes with
  | none =>
    btVmDestroy K m
    pure false
  | some dest =>
    -- `*dest = *src` copies the list pointers too; `list` is linked anew
    Prog.update fun s => s.setLinks
      ((s.links.setNext (.shared dest) (s.links.next (.shared src))).setPrev (.shared dest)
        (s.links.prev (.shared src)))
    let v ← Prog.read fun s => s.seg src
    putSeg dest v
    btListAdd (.list dest) (.head m)
    if v.flags = btSegFree then pure true
    else
      Prog.when (!v.has btSegWrite && !v.has btSegMapped)
        (modifySeg dest fun w => { w with flags := w.flags ||| btSegShared })
      let w ← Prog.read fun s => s.seg dest
      let ok ← if !w.has btSegShared && !w.has btSegIomapped then copyPages dest v else pure true
      if !ok then
        btVmDestroy K m
        pure false
      else
        let w ← Prog.read fun s => s.seg dest
        let pgd ← Prog.read fun s => (s.map m).pgd
        let r ← btMmuMap K pgd w.phys w.addr w.size (segflagsToType w.flags)
        if r ≠ 0 then
          btVmDestroy K m
          pure false
        else pure true
where
  /-- "Allocate a new physical page" and copy the contents. -/
  copyPages (dest : ℕ) (v : Segment) : Prog (Machine σ) Bool := do
    let pa ← pageAlloc K .segment v.size
    modifySeg dest fun w => { w with phys := pa }
    if pa = 0 then pure false
    else
      memcpy (K.ram.physToVirt pa) (K.ram.physToVirt v.phys) v.size
      pure true

/-- The copying loop of `bt_vm_duplicate`, from the cell `c` of the original on. -/
def duplicateFrom (m orig : ℕ) : ℕ → Cell → Prog (Machine σ) Bool
  | 0, _ => Prog.stuck
  | n + 1, .list src => do
    if ← duplicateSegment K m src then
      let next ← Prog.read fun s => s.links.next (.list src)
      duplicateFrom m orig n next
    else pure false
  | _ + 1, .head m' => if m' = orig then pure true else Prog.stuck
  | _ + 1, .shared _ => Prog.stuck

/-- The linking loop of `bt_vm_duplicate`: from the cell `c` of the new map on,
with `src` the working segment of the original. -/
def linkShared (m : ℕ) : ℕ → Cell → Cell → Prog (Machine σ) Unit
  | 0, _, _ => Prog.stuck
  | n + 1, .list dest, src => do
    let w ← Prog.read fun s => s.seg dest
    if w.has btSegShared then
      match src with
      | .list i =>
        modifySeg i fun v => { v with flags := v.flags ||| btSegShared }
        btListAdd (.shared dest) (.shared i)
        let src' ← Prog.read fun s => s.links.next (.list i)
        let next ← Prog.read fun s => s.links.next (.list dest)
        linkShared m n next src'
      | _ => Prog.stuck
    else
      let next ← Prog.read fun s => s.links.next (.list dest)
      linkShared m n next src
  | _ + 1, .head m', _ => if m' = m then pure () else Prog.stuck
  | _ + 1, .shared _, _ => Prog.stuck

/-- `bt_vm_duplicate` -/
def btVmDuplicate (orig : ℕ) : Prog (Machine σ) (Option ℕ) := do
  match ← btVmCreate K with
  | none => pure none
  | some m =>
    let size ← Prog.read fun s => (s.map orig).size
    modifyMap m fun v => { v with size := size }
    let first ← Prog.read fun s => s.links.next (.head orig)
    let n ← Prog.read fun s => s.fresh + 1
    if ← duplicateFrom K m orig n first then
      sharedLock
      let src ← Prog.read fun s => s.links.next (.head orig)
      let first ← Prog.read fun s => s.links.next (.head m)
      let n ← Prog.read fun s => s.fresh + 1
      linkShared m n first src
      sharedUnlock
      pure (some m)
    else pure none

end BitThunder
