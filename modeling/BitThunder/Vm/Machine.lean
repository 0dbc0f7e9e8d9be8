import BitThunder.Lib.Prog
import BitThunder.Lib.Ring
import BitThunder.Mm.Defs

/-!
# The machine the virtual memory manager runs on

The state `os/src/mm/bt_vm.c` and `arch/arm/mm/v7-mmu.c` work on, and the kernel
services they call.

* A block from `BT_kMalloc` is named by the number of the allocation that made
  it, so that a block is never confused with an earlier one; its address is what
  the heap said. A block is used as a segment or as a map.
* List pointers are kept per link cell, as in memory: nothing initialises
  `shared_list`, so its pointers are whatever they were.
* First and second level tables are kept by base address.
* A `Kernel` is any behaviour of the services: a theorem for every kernel holds
  under every pattern of failures.
* `log` records the calls of the services and of the locks. No code reads it.

Segments and maps are named by numbers, not by where they are. A name is never used twice, so that a
pointer that is kept after its block was given back still names what was there; what the block's
address was is in `ptr`, and only the address is handed to the kernel.

The log records the calls in the order in which they were made. Locks appear in it, as do blocks of
the heap and runs of pages, so that balances can be read off the end of a call: what was taken and
not given back, and which locks are held.
-/

namespace BitThunder

/-! ## Constants of `bt_vm.h` -/

def btSegRead : ℕ := 0x00000001
def btSegWrite : ℕ := 0x00000002
def btSegExec : ℕ := 0x00000004
def btSegShared : ℕ := 0x00000008
def btSegMapped : ℕ := 0x00000010
def btSegIomapped : ℕ := 0x00000020
def btSegFree : ℕ := 0x80000000

def btPageUnmap : ℕ := 0
def btPageRead : ℕ := 1
def btPageWrite : ℕ := 2
def btPageSystem : ℕ := 3
def btPageIomem : ℕ := 4

def btProtRead : ℕ := 1
def btProtWrite : ℕ := 2
def btProtExec : ℕ := 4

def btVmAllocAnywhere : ℕ := 0x01

/-! ## Data -/

/-- The data fields of `struct bt_segment`. -/
structure Segment : Type where
  addr : ℕ
  phys : ℕ
  size : ℕ
  flags : ℕ
  deriving DecidableEq

/-- `flags & bits` -/
def Segment.has (v : Segment) (bits : ℕ) : Bool := v.flags &&& bits != 0

/-- `sizeof(struct bt_segment)` -/
def segmentBytes : ℕ := 32

/-- The data fields of `struct bt_vm_map`. -/
structure VmMap : Type where
  refcount : ℕ
  pgd : ℕ
  size : ℕ
  mapMutex : ℕ
  deriving DecidableEq

/-- `sizeof(struct bt_vm_map)` -/
def vmMapBytes : ℕ := 24

/-- The link cells. -/
inductive Cell : Type where
  /-- `&map->segments` -/
  | head : ℕ → Cell
  /-- `&seg->list` -/
  | list : ℕ → Cell
  /-- `&seg->shared_list` -/
  | shared : ℕ → Cell
  deriving DecidableEq

/-- The two mutexes of the layer. -/
inductive Mutex : Type where
  /-- `map->map_mutex` -/
  | map : ℕ → Mutex
  /-- `shared_mutex` -/
  | shared : Mutex
  deriving DecidableEq

/-- What a run of physical pages is asked for. -/
inductive Owner : Type where
  | segment | directory
  deriving DecidableEq

/-- The calls that are recorded. -/
inductive Event : Type where
  | lock : Mutex → Event
  | unlock : Mutex → Event
  /-- `BT_kMalloc` returned a block -/
  | malloc : ℕ → Event
  | mallocRefused : Event
  | kfree : ℕ → Event
  /-- `BT_kMutexCreate` returned this handle -/
  | mutexCreate : ℕ → Event
  /-- `bt_page_alloc` returned this run: address and size -/
  | pageAlloc : Owner → ℕ → ℕ → Event
  | pageRefused : Owner → ℕ → Event
  | pageFree : Owner → ℕ → ℕ → Event
  /-- `BT_CacheAlloc(&g_ptCache)` returned this table -/
  | ptAlloc : ℕ → Event
  /-- `BT_CacheAlloc(&g_ptCache)` returned `NULL`, at this page of the range -/
  | ptRefused : ℕ → Event
  | ptFree : ℕ → Event
  deriving DecidableEq

/-- The services: functions of the kernel's own state `σ`. A returned `0` is
failure. -/
structure Kernel (σ : Type) : Type where
  /-- where the RAM sits -/
  ram : RamConfig
  /-- the address of `g_MMUTable` -/
  mmuTable : ℕ
  /-- `BT_kMalloc` -/
  kMalloc : ℕ → σ → ℕ × σ
  /-- `BT_kFree` -/
  kFree : ℕ → σ → σ
  /-- `BT_kMutexCreate` -/
  kMutexCreate : σ → ℕ × σ
  /-- `bt_page_alloc` -/
  pageAlloc : ℕ → σ → ℕ × σ
  /-- `bt_page_free` -/
  pageFree : ℕ → ℕ → σ → σ
  /-- `BT_CacheAlloc(&g_ptCache)` -/
  cacheAlloc : σ → ℕ × σ
  /-- `BT_CacheFree(&g_ptCache, p)` -/
  cacheFree : ℕ → σ → σ

/-- The state. -/
structure Machine (σ : Type) : Type where
  /-- the state of the services -/
  env : σ
  /-- the number of blocks handed out by `BT_kMalloc` so far -/
  fresh : ℕ
  /-- the address of a block -/
  ptr : ℕ → ℕ
  /-- all list pointers -/
  links : Links Cell
  seg : ℕ → Segment
  /-- the maps; `0` is `kernel_map` -/
  map : ℕ → VmMap
  /-- the `static struct bt_segment *seg` of `bt_vm_map_region` -/
  mapSeg : Option ℕ
  /-- `g_asid` -/
  asid : ℕ
  /-- first level tables, by base address -/
  dir : ℕ → ℕ → ℕ
  /-- second level tables, by base address -/
  tbl : ℕ → ℕ → ℕ
  /-- memory contents, by virtual address -/
  ram : ℕ → ℕ
  /-- the map of the current process -/
  task : ℕ
  /-- the table base and address space id the hardware uses -/
  ttb : ℕ × ℕ
  log : List Event

variable {σ : Type}

namespace Machine

variable (s : Machine σ)

@[simps] def emit (e : Event) : Machine σ := { s with log := e :: s.log }

@[simps] def setEnv (e : σ) : Machine σ := { s with env := e }

@[simps] def setSeg (i : ℕ) (v : Segment) : Machine σ :=
  { s with seg := Function.update s.seg i v }

@[simps] def setMap (m : ℕ) (v : VmMap) : Machine σ := { s with map := Function.update s.map m v }

@[simps] def setLinks (L : Links Cell) : Machine σ := { s with links := L }

@[simps] def setMapSeg (r : Option ℕ) : Machine σ := { s with mapSeg := r }

@[simps] def setAsid (n : ℕ) : Machine σ := { s with asid := n }

@[simps] def setTtb (t : ℕ × ℕ) : Machine σ := { s with ttb := t }

/-- The whole first level table at `b`. -/
@[simps] def setDir (b : ℕ) (t : ℕ → ℕ) : Machine σ :=
  { s with dir := Function.update s.dir b t }

/-- The whole second level table at `b`. -/
@[simps] def setTbl (b : ℕ) (t : ℕ → ℕ) : Machine σ :=
  { s with tbl := Function.update s.tbl b t }

@[simps] def setRam (f : ℕ → ℕ) : Machine σ := { s with ram := f }

/-- Take the next block name for the address `p`. -/
@[simps] def newBlock (p : ℕ) : Machine σ :=
  { s with fresh := s.fresh + 1, ptr := Function.update s.ptr s.fresh p }

end Machine

/-! ## The services as programs -/

variable (K : Kernel σ)

/-- The state after a call of `BT_kMalloc`, and the block. -/
def Machine.kMalloc (s : Machine σ) (n : ℕ) : Option ℕ × Machine σ :=
  let r := K.kMalloc n s.env
  if r.1 = 0 then (none, (s.setEnv r.2).emit .mallocRefused)
  else (some s.fresh, ((s.setEnv r.2).newBlock r.1).emit (.malloc s.fresh))

theorem Machine.kMalloc_refused {s : Machine σ} {n : ℕ} (hz : (K.kMalloc n s.env).1 = 0) :
    s.kMalloc K n = (none, (s.setEnv (K.kMalloc n s.env).2).emit .mallocRefused) := by
  rw [Machine.kMalloc, if_pos hz]

theorem Machine.kMalloc_granted {s : Machine σ} {n : ℕ} (hz : (K.kMalloc n s.env).1 ≠ 0) :
    s.kMalloc K n = (some s.fresh, ((s.setEnv (K.kMalloc n s.env).2).newBlock
      (K.kMalloc n s.env).1).emit (.malloc s.fresh)) := by
  rw [Machine.kMalloc, if_neg hz]

/-- `BT_kMalloc(n)` -/
def kMalloc (n : ℕ) : Prog (Machine σ) (Option ℕ) := Prog.service fun s => s.kMalloc K n

/-- `BT_kFree` of a block -/
def kFree (i : ℕ) : Prog (Machine σ) Unit :=
  Prog.update fun s => (s.setEnv (K.kFree (s.ptr i) s.env)).emit (.kfree i)

/-- `BT_kMutexCreate()` -/
def kMutexCreate : Prog (Machine σ) ℕ := Prog.service fun s =>
  let r := K.kMutexCreate s.env
  (r.1, (s.setEnv r.2).emit (.mutexCreate r.1))

/-- The state after a call of `bt_page_alloc`. -/
@[simps!] def Machine.pageCall (s : Machine σ) (o : Owner) (size : ℕ) : Machine σ :=
  (s.setEnv (K.pageAlloc size s.env).2).emit
    (if (K.pageAlloc size s.env).1 = 0 then .pageRefused o size
      else .pageAlloc o (K.pageAlloc size s.env).1 size)

/-- The state after a call of `bt_page_free`. -/
@[simps!] def Machine.pageReturn (s : Machine σ) (o : Owner) (pa size : ℕ) : Machine σ :=
  (s.setEnv (K.pageFree pa size s.env)).emit (.pageFree o pa size)

/-- `bt_page_alloc(size)` -/
def pageAlloc (o : Owner) (size : ℕ) : Prog (Machine σ) ℕ := Prog.service fun s =>
  ((K.pageAlloc size s.env).1, s.pageCall K o size)

/-- `bt_page_free(pa, size)` -/
def pageFree (o : Owner) (pa size : ℕ) : Prog (Machine σ) Unit :=
  Prog.update fun s => s.pageReturn K o pa size

/-- `BT_CacheAlloc(&g_ptCache)` while page `k` of a range is entered -/
def cacheAlloc (k : ℕ) : Prog (Machine σ) ℕ := Prog.service fun s =>
  let r := K.cacheAlloc s.env
  (r.1, (s.setEnv r.2).emit (if r.1 = 0 then .ptRefused k else .ptAlloc r.1))

/-- `BT_CacheFree(&g_ptCache, p)` -/
def cacheFree (p : ℕ) : Prog (Machine σ) Unit :=
  Prog.update fun s => (s.setEnv (K.cacheFree p s.env)).emit (.ptFree p)

/-- `MAP_LOCK(map)` -/
def mapLock (m : ℕ) : Prog (Machine σ) Unit := Prog.update fun s => s.emit (.lock (.map m))

/-- `MAP_UNLOCK(map)` -/
def mapUnlock (m : ℕ) : Prog (Machine σ) Unit := Prog.update fun s => s.emit (.unlock (.map m))

/-- `SHARED_LOCK()` -/
def sharedLock : Prog (Machine σ) Unit := Prog.update fun s => s.emit (.lock .shared)

/-- `SHARED_UNLOCK()` -/
def sharedUnlock : Prog (Machine σ) Unit := Prog.update fun s => s.emit (.unlock .shared)

/-- `bt_list_add(new, c)` -/
def btListAdd (new c : Cell) : Prog (Machine σ) Unit :=
  Prog.update fun s => s.setLinks (s.links.insertAfter new c)

/-- `bt_list_del(c)` -/
def btListDel (c : Cell) : Prog (Machine σ) Unit :=
  Prog.update fun s => s.setLinks (s.links.unlink c)

/-- `BT_LIST_INIT_HEAD(c)` -/
def btListInitHead (c : Cell) : Prog (Machine σ) Unit :=
  Prog.update fun s => s.setLinks (s.links.initHead c)

/-- Store the data fields of a segment. -/
def putSeg (i : ℕ) (v : Segment) : Prog (Machine σ) Unit := Prog.update fun s => s.setSeg i v

/-- Change some data fields of a segment. -/
def modifySeg (i : ℕ) (f : Segment → Segment) : Prog (Machine σ) Unit :=
  Prog.update fun s => s.setSeg i (f (s.seg i))

/-- Change some data fields of a map. -/
def modifyMap (m : ℕ) (f : VmMap → VmMap) : Prog (Machine σ) Unit :=
  Prog.update fun s => s.setMap m (f (s.map m))

/-- `memset(va, 0, n)` -/
def memclear (va n : ℕ) : Prog (Machine σ) Unit := Prog.update fun s =>
  s.setRam fun x => if va ≤ x ∧ x < va + n then 0 else s.ram x

/-- `memcpy(dst, src, n)` -/
def memcpy (dst src n : ℕ) : Prog (Machine σ) Unit := Prog.update fun s =>
  s.setRam fun x => if dst ≤ x ∧ x < dst + n then s.ram (src + (x - dst)) else s.ram x

/-! ## A kernel with a limited stock

For concrete runs: every service hands out what it has, in order, until nothing is
left; nothing that is given back is handed out again. -/

/-- What is left of each resource. -/
structure Stock : Type where
  /-- heap blocks -/
  blocks : ℕ
  /-- mutexes -/
  mutexes : ℕ
  /-- the physical address of the next page -/
  page : ℕ
  /-- the end of physical memory -/
  pageEnd : ℕ
  /-- page tables -/
  tables : ℕ

/-- RAM at physical address `0x10000000`, mapped at `BT_MM_USERLIMIT`. -/
def stockRam : RamConfig where
  phys := 0x10000000
  virt := 0xC0000000
  phys_lt := by decide
  virt_lt := by decide
  phys_aligned := by decide
  virt_aligned := by decide

/-- The services over a limited stock. -/
def stockKernel : Kernel Stock where
  ram := stockRam
  mmuTable := 0xC0004000
  kMalloc _ e := if e.blocks = 0 then (0, e)
    else (0xD0000000 + 64 * e.blocks, { e with blocks := e.blocks - 1 })
  kFree _ e := e
  kMutexCreate e := if e.mutexes = 0 then (0, e)
    else (e.mutexes, { e with mutexes := e.mutexes - 1 })
  pageAlloc n e := if n = 0 ∨ e.pageEnd < e.page + btPageAlign n then (0, e)
    else (e.page, { e with page := e.page + btPageAlign n })
  pageFree _ _ e := e
  cacheAlloc e := if e.tables = 0 then (0, e)
    else (0xE0000000 + 1024 * e.tables, { e with tables := e.tables - 1 })
  cacheFree _ e := e

/-- A machine on which nothing has been created yet: block `0` is the kernel's map. -/
def bootMachine (e : σ) : Machine σ where
  env := e
  fresh := 1
  ptr _ := 0
  links := ⟨id, id⟩
  seg _ := ⟨0, 0, 0, 0⟩
  map _ := ⟨0, 0, 0, 0⟩
  mapSeg := none
  asid := 0
  dir _ _ := 0
  tbl _ _ := 0
  ram _ := 0
  task := 0
  ttb := (0, 0)
  log := []

end BitThunder
