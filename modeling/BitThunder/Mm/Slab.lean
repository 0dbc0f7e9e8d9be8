import BitThunder.Lib.Memory
import BitThunder.Mm.Defs

/-!
# The slab allocator

`os/src/mm/slab.c`. A cache hands out objects of one size; its free objects form a list
whose links are kept in the objects themselves. `BT_kMalloc` takes an object of one of
the default caches (16 bytes, 32 bytes, and so on), or whole pages, puts a tag in front
and a magic number behind, and returns what lies between.

* The memory is byte memory; the caches are kept by their address.
* The page allocator is a parameter.
* The cache mutexes are left out: every function runs between taking and releasing one.

The order of the assignments is that of the source, since the links of the free objects are in the
memory that is handed out. The loop of `init_attach_block` links the last object to an address
behind the block, and the link is put right afterwards; `init_cache` does not clear `available`, so
that a cache has to be zero before it is set up.

`BT_kMalloc` writes its tag into whatever it got, without looking at the size again. The size is
rounded to words, the tags are added, and the page allocator rounds once more, each time in 32 bits.
-/

namespace BitThunder

/-- The page allocator, on a state `σ` of its own. A returned `0` is failure. -/
structure Pages (σ : Type) : Type where
  /-- where the RAM sits -/
  ram : RamConfig
  /-- `bt_page_alloc` -/
  alloc : ℕ → σ → ℕ × σ
  /-- `bt_page_free` -/
  free : ℕ → ℕ → σ → σ

/-- `BT_CACHE` -/
structure Cache : Type where
  /-- `ulObjectSize` -/
  objectSize : ℕ
  /-- `free`, `0` for an empty list -/
  free : ℕ
  allocated : ℕ
  available : ℕ

/-- What a cache works on: the memory, and the page allocator's state. -/
structure Store (σ : Type) : Type where
  mem : Memory
  env : σ

variable {σ : Type} (P : Pages σ)

/-! ## Caches

A cache is a free list through objects of one size, with two counters. It is extended by a page, or
by the pages for a larger object. -/

/-- The loop of `init_attach_block`: `n` more objects from `free` on. It ends one object
too far. -/
def attachLoop (objectSize : ℕ) : ℕ → ℕ → Memory → ℕ × Memory
  | 0, free, m => (free, m)
  | n + 1, free, m =>
    attachLoop objectSize n (wordAdd free objectSize) (m.store free (wordAdd free objectSize))

/-- `init_attach_block`. The size field of `struct block` is at offset 8. -/
def initAttachBlock (c : Cache) (m : Memory) (blk size : ℕ) : Cache × Memory :=
  let total := size / c.objectSize
  let r := attachLoop c.objectSize total blk (m.store (wordAdd blk 8) size)
  -- "Reverse to correct the end of block."
  let last := wordSub r.1 c.objectSize
  ({ c with free := blk, available := wordAdd c.available total }, r.2.store last c.free)

/-- `extend_cache` -/
def extendCache (c : Cache) (s : Store σ) : BtError × Cache × Store σ :=
  let size := btPageAlign c.objectSize
  let r := P.alloc size s.env
  if r.1 = 0 then (.noMemory, c, { s with env := r.2 })
  else
    let b := initAttachBlock c s.mem (P.ram.physToVirt r.1) size
    (.none, b.1, ⟨b.2, r.2⟩)

/-- `init_cache`. It leaves `available` as it is. -/
def initCache (c : Cache) (objectSize : ℕ) (s : Store σ) : BtError × Cache × Store σ :=
  let r := extendCache P { c with objectSize := objectSize, free := 0, allocated := 0 } s
  (.none, r.2)

/-- `pop_free` -/
def popFree (c : Cache) (m : Memory) : ℕ × Cache :=
  if c.free ≠ 0 then
    (c.free, { c with free := m.load c.free, allocated := wordAdd c.allocated 1 })
  else (0, c)

/-- `push_free` -/
def pushFree (c : Cache) (m : Memory) (p : ℕ) : Cache × Memory :=
  ({ c with free := p, allocated := wordSub c.allocated 1 }, m.store p c.free)

/-- `BT_CacheAlloc` -/
def btCacheAlloc (c : Cache) (s : Store σ) : ℕ × Cache × Store σ :=
  let r := popFree c s.mem
  if r.1 = 0 then
    let x := extendCache P r.2 s
    let r' := popFree x.2.1 x.2.2.mem
    (r'.1, r'.2, x.2.2)
  else (r.1, r.2, s)

/-- `BT_CacheFree` -/
def btCacheFree (c : Cache) (s : Store σ) (p : ℕ) : BtError × Cache × Store σ :=
  let r := pushFree c s.mem p
  (.none, r.1, { s with mem := r.2 })

/-! ## The default caches

Their sizes are the powers of two from 16 on. A size that is larger than all of them has no
cache. -/

/-- The configuration of the slab allocator. -/
structure SlabConfig : Type where
  /-- `BT_SLAB_MAX_ORDER`, the number of default caches -/
  order : ℕ
  /-- the address of `g_oDefault` -/
  table : ℕ
  order_pos : 0 < order
  /-- `16 << (BT_SLAB_MAX_ORDER - 1)` is an `int` -/
  order_le : order ≤ 27
  table_pos : 0 < table
  table_end : table + 20 * order ≤ 2 ^ 32

/-- `BT_CACHE_GENERIC_MIN` -/
def cacheGenericMin : ℕ := 16

/-- `BT_CACHE_GENERIC_MAX` -/
def SlabConfig.cacheGenericMax (G : SlabConfig) : ℕ := 16 <<< (G.order - 1)

/-- `&g_oDefault[idx]` -/
def SlabConfig.cacheAt (G : SlabConfig) (idx : ℕ) : ℕ := G.table + 20 * idx

/-- `BT_CLZ` of a positive word. -/
def btClz (x : ℕ) : ℕ := 31 - Nat.log2 x

/-- `BT_GetSuitableCache`: the address of a cache, or `0`. -/
def SlabConfig.getSuitableCache (G : SlabConfig) (size : ℕ) : ℕ :=
  if size ≤ cacheGenericMin then G.cacheAt 0
  else if G.cacheGenericMax < size then 0
  else
    let highestBit := btClz size
    let highestBit :=
      if size &&& (0x80000000 >>> highestBit) - 1 ≠ 0 then highestBit - 1 else highestBit
    G.cacheAt (btClz cacheGenericMin - highestBit)

/-- The slab allocator: its caches by address, the memory and the page allocator. -/
structure Slab (σ : Type) : Type where
  cache : ℕ → Cache
  store : Store σ

namespace Slab

/-- A cache and what it works on after an operation on it. -/
def setCache (s : Slab σ) (a : ℕ) (c : Cache) (st : Store σ) : Slab σ :=
  ⟨Function.update s.cache a c, st⟩

/-- The memory after a write. -/
def setMem (s : Slab σ) (m : Memory) : Slab σ := { s with store := { s.store with mem := m } }

end Slab

variable (G : SlabConfig)

/-- The loop of `bt_initialise_slab`, for at most `fuel` rounds; `i` doubles in each. -/
def initialiseSlabLoop : ℕ → ℕ → Slab σ → Slab σ
  | 0, _, s => s
  | fuel + 1, i, s =>
    if i ≤ G.cacheGenericMax then
      let a := G.getSuitableCache i
      if a = 0 then s
      else
        let r := initCache P (s.cache a) i s.store
        initialiseSlabLoop fuel (i <<< 1 % 2 ^ 32) (s.setCache a r.2.1 r.2.2)
    else s

/-- `bt_initialise_slab`: a word that is shifted 32 times has left the loop. -/
def btInitialiseSlab (s : Slab σ) : Slab σ := initialiseSlabLoop P G 32 cacheGenericMin s

/-! ## `BT_kMalloc` and `BT_kFree`

The tag in front of the payload names the cache, or the number of pages if there is none. There are
magic numbers at both ends of the tag and one behind the payload. -/

def magic₀ : ℕ := 0xABAD1DEA
def magic₁ : ℕ := 0xA55AA55A

/-- `sizeof(struct MEM_TAG)` -/
def memTagBytes : ℕ := 24

/-- `sizeof(struct MAGIC_TAG)` -/
def magicTagBytes : ℕ := 8

/-- `set_magic` -/
def setMagic (m : Memory) (a : ℕ) : Memory := (m.store a magic₀).store (wordAdd a 4) magic₁

/-- `verify_tag` -/
def verifyTag (m : Memory) (a : ℕ) : Bool :=
  m.load a == magic₀ && m.load (wordAdd a 4) == magic₁

/-- `(ulSize + 3) & 0xFFFFFFFC` -/
def roundSize (size : ℕ) : ℕ := wordAdd size 3 &&& 0xFFFFFFFC

/-- What is written around the memory that is handed out: `tag_0` at offset 0, `pCache`
at 8, `size` at 12, `tag_1` at 16, and the magic number behind the payload. -/
def writeTag (m : Memory) (p cache size : ℕ) : Memory :=
  let m := m.store (wordAdd p 8) cache
  let m := m.store (wordAdd p 12) size
  let m := setMagic m p
  let m := setMagic m (wordAdd p 16)
  setMagic m (wordAdd (wordAdd p memTagBytes) size)

/-- The number of bytes asked of a cache or of the page allocator. -/
def requestSize (size : ℕ) : ℕ := wordAdd (wordAdd size memTagBytes) magicTagBytes

/-- Where `BT_kMalloc` gets its memory from: a cache, or the page allocator. -/
def takeMemory (s : Slab σ) (a request : ℕ) : ℕ × Slab σ :=
  if a ≠ 0 then
    let r := btCacheAlloc P (s.cache a) s.store
    (r.1, s.setCache a r.2.1 r.2.2)
  else
    let r := P.alloc request s.store.env
    let s := { s with store := { s.store with env := r.2 } }
    if r.1 = 0 then (0, s) else (P.ram.physToVirt r.1, s)

/-- `BT_kMalloc` of the slab allocator -/
def slabMalloc (s : Slab σ) (ulSize : ℕ) : ℕ × Slab σ :=
  if ulSize = 0 then (0, s)
  else
    let size := roundSize ulSize
    let a := G.getSuitableCache (requestSize size)
    let r := takeMemory P s a (requestSize size)
    if r.1 = 0 then (0, r.2)
    else (wordAdd r.1 memTagBytes, r.2.setMem (writeTag r.2.store.mem r.1 a size))

/-- `BT_kFree` of the slab allocator; `none` is "Kernel Panic - Corrupted FREE". -/
def slabFree (s : Slab σ) (p : ℕ) : Option (Slab σ) :=
  if p = 0 then some s
  else
    let m := s.store.mem
    let tag := wordSub p memTagBytes
    let size := m.load (wordAdd tag 12)
    if verifyTag m tag && verifyTag m (wordAdd tag 16) && verifyTag m (wordAdd p size) then
      let a := m.load (wordAdd tag 8)
      if a ≠ 0 then
        let r := btCacheFree (s.cache a) s.store tag
        some (s.setCache a r.2.1 r.2.2)
      else
        some { s with
          store := ⟨m, P.free (P.ram.virtToPhys tag) (requestSize size) s.store.env⟩ }
    else none

/-- `BT_kRealloc` of the slab allocator -/
def slabRealloc (s : Slab σ) (p ulSize : ℕ) : Option (ℕ × Slab σ) :=
  if p ≠ 0 ∧ ulSize ≠ 0 then
    let r := slabMalloc P G s ulSize
    if r.1 = 0 then some r
    else
      let m := r.2.store.mem
      let old := m.load (wordAdd (wordSub p memTagBytes) 12)
      let n := if old < ulSize then old else ulSize
      some (r.1, r.2.setMem (m.copy r.1 p n))
  else if p ≠ 0 then (slabFree P s p).map fun s' => (0, s')
  else if ulSize ≠ 0 then some (slabMalloc P G s ulSize)
  else some (0, s)

end BitThunder
