import BitThunder.Mm.HeapSpec
import BitThunder.Mm.SlabSpec

/-!
# `BT_kRealloc`

Both implementations allocate, copy and return; neither gives the old block back. What
`BT_kRealloc` is for is written down as a relation between the state before and the
outcome, and it is met exactly when there is no memory for the new block, so that nothing
happens at all.

* `slabReallocOk_iff`, `heapReallocOk_iff`: when that is, for each allocator;
* `realloc_ok_iff`: both together, over runs.

The argument is the same for both allocators, and it is one of counting. `BT_kMalloc` takes an
object, pages or a block, and nothing in `BT_kRealloc` gives the old one back. If the call returns a
pointer, what is counted as allocated has gone up by one, whereas it should be as many as before. If
the call returns no pointer, `BT_kMalloc` has refused, which leaves the state as it was.

So the condition names the states in which `BT_kMalloc` refuses, and it does so in terms of what
there is: the lists of free objects and the pages for one allocator, the sizes of the free blocks
for the other.
-/

namespace BitThunder

open Memory

/-! ## The slab allocator

What is counted as allocated is the same before and after only if `BT_kMalloc` has refused, and this
is the case if neither an object nor pages are there. -/

variable {σ : Type} {P : Pages σ} {G : SlabConfig} {taken : σ → ℕ → Prop}

/-- More that is asked of the page allocator: it hands out whole pages, a refused request
changes nothing, and no request gives pages back. -/
structure PagesExact (P : Pages σ) (taken : σ → ℕ → Prop) : Prop where
  /-- what is granted begins with a page -/
  aligned : ∀ n e, (P.alloc n e).1 % 4096 = 0
  /-- nothing happens if it is refused -/
  refused : ∀ n e, (P.alloc n e).1 = 0 → (P.alloc n e).2 = e
  /-- nobody loses a byte by it -/
  keep : ∀ n e x, taken e x → taken (P.alloc n e).2 x

/-- What `BT_kRealloc(x.ptr, n)` should do. If a pointer is returned, the bytes have been
copied, every cache counts the allocations there are now, and pages that the old
allocation had to itself are free; otherwise nothing has changed. -/
def SlabReallocOk (P : Pages σ) (G : SlabConfig) (taken : σ → ℕ → Prop) (s : Slab σ)
    (live : List Alloc) (x : Alloc) (n : ℕ) : Prop :=
  ∃ q s', slabRealloc P G s x.ptr n = some (q, s') ∧
    (q ≠ 0 → (∀ i < min x.asked n, s'.store.mem (q + i) = s.store.mem (x.ptr + i)) ∧
      (∀ i < G.order, (s'.cache (G.cacheAt i)).allocated =
      (objsOf G (⟨q, n⟩ :: live.erase x) i).length) ∧
      (x.cache G = 0 → ∀ y, (x.room G).Holds y → ¬ taken s'.store.env y)) ∧
    (q = 0 → s' = s)

/-- There is no memory for `n` bytes: the cache has no free object and gets no pages, or
there are no pages. -/
def SlabExhausted (P : Pages σ) (G : SlabConfig) (s : Slab σ) (n : ℕ) : Prop :=
  let request := requestSize (roundSize n)
  let a := G.getSuitableCache request
  if a ≠ 0 then
    (s.cache a).free = 0 ∧ (P.alloc (btPageAlign (s.cache a).objectSize) s.store.env).1 = 0
  else (P.alloc request s.store.env).1 = 0

section Slab

variable {s : Slab σ} {live : List Alloc} {runs : List (ℕ × ℕ)} {blocks fl : ℕ → List ℕ} {n : ℕ}

@[simp] theorem Slab.setMem_cache (s : Slab σ) (m : Memory) : (s.setMem m).cache = s.cache := rfl

@[simp] theorem Slab.setMem_env (s : Slab σ) (m : Memory) : (s.setMem m).store.env = s.store.env :=
  rfl

/-- A cache that is out of objects and gets no pages stays as it is. -/
theorem btCacheAlloc_exhausted (hx : PagesExact P taken) {c : Cache} {st : Store σ}
    (hfree : c.free = 0) (hno : (P.alloc (btPageAlign c.objectSize) st.env).1 = 0) :
    btCacheAlloc P c st = (0, c, st) := by
  have hpop : popFree c st.mem = (0, c) := by
    rw [popFree, if_neg (not_not.mpr hfree)]
  have hext : extendCache P c st = (.noMemory, c, st) := by
    rw [extendCache, if_pos hno, hx.refused _ _ hno]
  rw [btCacheAlloc, hpop, if_pos rfl, hext]
  dsimp only
  rw [hpop]

/-- The first object of the free list is given away. -/
theorem popFree_fst (c : Cache) (m : Memory) : (popFree c m).1 = c.free := by
  unfold popFree
  split_ifs with h
  · rfl
  · exact (not_not.mp h).symm

/-- A cache that was extended gives away the new page's first object. -/
theorem extendCache_free {c : Cache} {st : Store σ}
    (h : (P.alloc (btPageAlign c.objectSize) st.env).1 ≠ 0) :
    (extendCache P c st).2.1.free = P.ram.physToVirt
    (P.alloc (btPageAlign c.objectSize) st.env).1 := by
  unfold extendCache
  rw [if_neg h]
  rfl

/-- A cache hands out nothing only if it is exhausted. -/
theorem btCacheAlloc_ne_zero (law : PagesLaw P taken) {c : Cache} {st : Store σ}
    (h : ¬ (c.free = 0 ∧ (P.alloc (btPageAlign c.objectSize) st.env).1 = 0)) :
    (btCacheAlloc P c st).1 ≠ 0 := by
  unfold btCacheAlloc
  dsimp only
  rw [popFree_fst]
  by_cases hfree : c.free = 0
  · have hyes : (P.alloc (btPageAlign c.objectSize) st.env).1 ≠ 0 := fun hno => h ⟨hfree, hno⟩
    have hpop : (popFree c st.mem).2 = c := by
      rw [popFree, if_neg (not_not.mpr hfree)]
    rw [if_pos hfree, hpop, popFree_fst, extendCache_free hyes]
    have hpos : 0 < 4096 := by decide
    exact (lt_of_lt_of_le hpos (law.start _ _ hyes)).ne'
  · rw [if_neg hfree]
    exact hfree

/-- `BT_kMalloc` changes the caches and the page allocator as taking the memory does. -/
theorem slabMalloc_state (hn : n ≠ 0) :
    (slabMalloc P G s n).2.cache =
      (takeMemory P s (G.getSuitableCache (requestSize (roundSize n)))
      (requestSize (roundSize n))).2.cache ∧
    (slabMalloc P G s n).2.store.env =
    (takeMemory P s (G.getSuitableCache (requestSize (roundSize n)))
      (requestSize (roundSize n))).2.store.env := by
  rw [slabMalloc, if_neg hn]
  dsimp only
  split_ifs
  · exact ⟨rfl, rfl⟩
  · rw [Slab.setMem_cache, Slab.setMem_env]
    exact ⟨rfl, rfl⟩

/-- What an exhausted allocator does. -/
theorem slabMalloc_exhausted (hx : PagesExact P taken) (hn : n ≠ 0) (h : SlabExhausted P G s n) :
    slabMalloc P G s n = (0, s) := by
  have htake : takeMemory P s (G.getSuitableCache (requestSize (roundSize n)))
      (requestSize (roundSize n)) =
      (0, s) := by
    unfold SlabExhausted at h
    dsimp only at h
    by_cases ha : G.getSuitableCache (requestSize (roundSize n)) = 0
    · rw [if_neg (not_not.mpr ha)] at h
      rw [ha, SlabInv.takeMemory_refused h, hx.refused _ _ h]
    · rw [if_pos ha] at h
      rw [SlabInv.takeMemory_cached ha, btCacheAlloc_exhausted hx h.1 h.2, Slab.setCache]
      dsimp only
      rw [Function.update_eq_self]
  rw [slabMalloc, if_neg hn]
  dsimp only
  rw [htake, if_pos rfl]

/-- What any other does: memory is taken, the counter of its cache goes up, and nothing is
given back. -/
theorem takeMemory_counts (law : PagesLaw P taken) (hx : PagesExact P taken)
    (h : SlabInv P G taken s live runs blocks fl) (hno : ¬ SlabExhausted P G s n) :
    (takeMemory P s (G.getSuitableCache (requestSize (roundSize n))) (requestSize (roundSize n))).1
      ≠ 0 ∧
    (∀ j < G.order, ((takeMemory P s (G.getSuitableCache (requestSize (roundSize n)))
      (requestSize (roundSize n))).2.cache (G.cacheAt j)).allocated =
        (objsOf G live j).length +
          if G.getSuitableCache (requestSize (roundSize n)) = G.cacheAt j then 1 else 0) ∧
    ∀ y, taken s.store.env y →
      taken (takeMemory P s (G.getSuitableCache (requestSize (roundSize n)))
      (requestSize (roundSize n))).2.store.env y := by
  unfold SlabExhausted at hno
  dsimp only at hno
  by_cases ha : G.getSuitableCache (requestSize (roundSize n)) = 0
  · rw [if_neg (not_not.mpr ha)] at hno
    have hvirt := law.start _ _ hno
    rw [ha, SlabInv.takeMemory_paged hno]
    refine ⟨by dsimp only; omega, fun j hj => ?_, fun y hy => hx.keep _ _ _ hy⟩
    rw [if_neg (G.cacheAt_ne j).symm, Nat.add_zero]
    exact (h.caches.rep j hj).allocated
  · rw [if_pos ha] at hno
    have hle : requestSize (roundSize n) ≤ G.cacheGenericMax := by
      by_contra hgt
      exact ha (SlabConfig.getSuitableCache_of_gt (by omega))
    obtain ⟨i, hi, hci, -⟩ := SlabConfig.getSuitableCache_of_le hle
    rw [hci] at hno ⊢
    have hne := btCacheAlloc_ne_zero law hno
    have hrun : btCacheAlloc P (s.cache (G.cacheAt i)) s.store =
        ((btCacheAlloc P (s.cache (G.cacheAt i)) s.store).1,
        (btCacheAlloc P (s.cache (G.cacheAt i)) s.store).2.1,
          (btCacheAlloc P (s.cache (G.cacheAt i)) s.store).2.2) := rfl
    obtain ⟨blocks', fl', hinv, hkeep, -⟩ := h.caches.alloc law hi hrun
    rw [SlabInv.takeMemory_cached (G.cacheAt_ne i)]
    refine ⟨hne, fun j hj => ?_, fun y hy => (hkeep y hy).1⟩
    have halloc := (hinv.rep j hj).allocated
    rw [halloc, if_neg hne]
    by_cases hij : j = i
    · rw [hij, Function.update_self, if_pos rfl, List.length_cons]
    · rw [Function.update_of_ne hij, if_neg fun heq => hij (SlabConfig.cacheAt_inj heq).symm,
        Nat.add_zero]

/-- A request that is met is met behind the tag's front. -/
theorem slabMalloc_fst (hn : n ≠ 0)
    (hne : (takeMemory P s (G.getSuitableCache (requestSize (roundSize n)))
    (requestSize (roundSize n))).1 ≠ 0) :
    (slabMalloc P G s n).1 = wordAdd
    (takeMemory P s (G.getSuitableCache (requestSize (roundSize n)))
      (requestSize (roundSize n))).1 memTagBytes := by
  rw [slabMalloc, if_neg hn]
  dsimp only
  rw [if_neg hne]

/-- The tag in front of whole pages does not wrap around. -/
theorem takeMemory_wraps (hp : PagesExact P taken) {request : ℕ}
    (hne : (takeMemory P s (G.getSuitableCache request) request).1 ≠ 0)
    (hz : wordAdd (takeMemory P s (G.getSuitableCache request) request).1 memTagBytes = 0) :
    ∃ i < G.order, G.getSuitableCache request = G.cacheAt i := by
  by_cases hle : request ≤ G.cacheGenericMax
  · obtain ⟨i, hi, hci, -⟩ := SlabConfig.getSuitableCache_of_le hle
    exact ⟨i, hi, hci⟩
  · rw [SlabConfig.getSuitableCache_of_gt (Nat.lt_of_not_le hle)] at hne hz
    have hyes : (P.alloc request s.store.env).1 ≠ 0 := by
      intro hno
      rw [SlabInv.takeMemory_refused hno] at hne
      exact hne rfl
    rw [SlabInv.takeMemory_paged hyes] at hz
    have hmod := P.ram.physToVirt_mod (P.alloc request s.store.env).1
    rw [hp.aligned] at hmod
    unfold wordAdd memTagBytes at hz
    dsimp only at hz
    omega

/-- The objects of a cache after one allocation is replaced by another. -/
theorem objsOf_replace {x y : Alloc} {i : ℕ} (hx : x ∈ live) (hc : x.cache G = G.cacheAt i) :
    (objsOf G (y :: live.erase x) i).length + 1 =
      (objsOf G live i).length + if y.cache G = G.cacheAt i then 1 else 0 := by
  have hperm :=
    ((List.perm_cons_erase hx).filter fun z : Alloc => z.cache G = G.cacheAt i).length_eq
  rw [List.filter_cons_of_pos (by simpa using hc), List.length_cons] at hperm
  unfold objsOf
  rw [List.length_map, List.length_map, hperm]
  by_cases hy : y.cache G = G.cacheAt i
  · rw [if_pos hy, List.filter_cons_of_pos (by simpa using hy), List.length_cons]
  · rw [if_neg hy, List.filter_cons_of_neg (by simpa using hy)]

/-- The slab allocator's `BT_kRealloc` does what it should only when there is no memory. -/
theorem slabReallocOk_iff (law : PagesLaw P taken) (hp : PagesExact P taken)
    (h : SlabInv P G taken s live runs blocks fl) {x : Alloc} (hx : x ∈ live) (hn : n ≠ 0) :
    SlabReallocOk P G taken s live x n ↔ SlabExhausted P G s n := by
  have hptr : x.ptr ≠ 0 := by
    have := (h.ok x hx).ptr_eq
    omega
  constructor
  · rintro ⟨q, s', hrun, hmoved, hkept⟩
    by_contra hno
    obtain ⟨hne, hcounts, hkeep⟩ := takeMemory_counts law hp h hno
    obtain ⟨hcache, henv⟩ := slabMalloc_state (P := P) (G := G) (s := s) hn
    -- whatever is returned, the caches and the pages are as `BT_kMalloc` left them
    have hstate : q = (slabMalloc P G s n).1 ∧ s'.cache = (slabMalloc P G s n).2.cache ∧
        s'.store.env = (slabMalloc P G s n).2.store.env := by
      unfold slabRealloc at hrun
      rw [if_pos ⟨hptr, hn⟩] at hrun
      dsimp only at hrun
      by_cases hz : (slabMalloc P G s n).1 = 0
      · rw [if_pos hz] at hrun
        rw [Option.some.inj hrun]
        exact ⟨rfl, rfl, rfl⟩
      · rw [if_neg hz] at hrun
        obtain ⟨h₁, h₂⟩ := Prod.mk.inj (Option.some.inj hrun)
        rw [← h₁, ← h₂, Slab.setMem_cache, Slab.setMem_env]
        exact ⟨rfl, rfl, rfl⟩
    obtain ⟨hq, hc', he'⟩ := hstate
    rw [hcache] at hc'
    rw [henv] at he'
    by_cases hz : q = 0
    · -- a pointer that wraps around to `NULL` comes from a cache, whose counter has changed
      have hq' : wordAdd (takeMemory P s (G.getSuitableCache (requestSize (roundSize n)))
          (requestSize (roundSize n))).1 memTagBytes = 0 := by
        rw [← slabMalloc_fst hn hne, ← hq, hz]
      obtain ⟨i, hi, hci⟩ := takeMemory_wraps hp hne hq'
      have h₁ := hcounts i hi
      rw [← hc', hkept hz, (h.caches.rep i hi).allocated, if_pos hci] at h₁
      omega
    · obtain ⟨-, hcount, hpages⟩ := hmoved hz
      by_cases hcx : x.cache G = 0
      · -- the old pages are still taken
        have hok := h.ok x hx
        have hroom : (x.room G).Holds x.start := hok.holds_room (le_refl _) (by
          have := hok.sizes
          omega)
        refine hpages hcx x.start hroom ?_
        rw [he']
        exact hkeep _ (h.pages x hx hcx _ hroom).1
      · -- the old object is still counted
        obtain ⟨i, hi, hci, -⟩ := SlabInv.class_of_ne hcx
        have h₁ := hcount i hi
        have h₂ := hcounts i hi
        have h₃ := objsOf_replace (y := ⟨q, n⟩) hx hci
        rw [hc', h₂] at h₁
        change _ = _ + if G.getSuitableCache (requestSize (roundSize n)) = G.cacheAt i then 1
            else 0 at h₃
        omega
  · intro hex
    have hmalloc := slabMalloc_exhausted hp hn hex
    refine ⟨0, s, ?_, fun hq => absurd rfl hq, fun _ => rfl⟩
    unfold slabRealloc
    rw [if_pos ⟨hptr, hn⟩, hmalloc, if_pos rfl]

end Slab

/-! ## The linear heap

Here the sizes of the live blocks are compared, and the condition is that no free block is large
enough. -/

variable {R : HeapRegion}

/-- The bytes that remain and the blocks at the given addresses make up the heap. -/
def HeapAccounted (R : HeapRegion) (h : Heap) (blks : List ℕ) : Prop :=
  h.bytesRemaining + (blks.map (blockSize h.mem)).sum = R.firstSize

/-- What `BT_kRealloc` should do to the live block `x`, of which `old` bytes were asked
for. If a pointer is returned, there is room for `n` bytes, the bytes have been copied and
the blocks that are live now are accounted for; otherwise nothing has changed. -/
def HeapReallocOk (R : HeapRegion) (h : Heap) (live : List Extent) (x : Extent) (old n : ℕ) :
    Prop :=
  ∃ q h', heapRealloc R h (x.1 + 8) n = some (q, h') ∧
    (q ≠ 0 → n + 8 ≤ blockSize h'.mem (q - 8) ∧
      (∀ i < min old n, h'.mem (q + i) = h.mem (x.1 + 8 + i)) ∧
      HeapAccounted R h' ((q - 8) :: (live.erase x).map Prod.fst)) ∧
    (q = 0 → h' = h)

section Heap

variable {h : Heap} {free live : List Extent} {x : Extent} {n old : ℕ}

/-- The blocks add up to the heap. -/
theorem HeapShape.total (hs : HeapShape R free live) :
    totalSize free + totalSize live = R.firstSize := by
  have hroom := R.room
  have hfirst := R.firstSize_eq
  have hcover : ∀ y, cover (free ++ live) y = cover [(R.start, R.firstSize)] y := by
    intro y
    rw [hs.tiled, cover_cons, cover_nil, Nat.zero_add]
    rfl
  rw [← totalSize_append, totalSize_congr (N := R.stop) _ _ hcover, totalSize_cons, totalSize_nil,
    Nat.add_zero]
  · intro e he
    have := hs.bounds he
    omega
  · intro e he
    obtain rfl := List.mem_singleton.mp he
    dsimp only
    omega

theorem HeapShape.live_nodup (hs : HeapShape R free live) : live.Nodup := by
  have happ := (List.pairwise_append.mp (pairwise_apart_of_cover_le_one hs.cover_le_one)).2.1
  refine happ.imp_of_mem ?_
  rintro e f he - hef rfl
  have hpos := (hs.whole e (List.mem_append_right _ he)).pos
  exact hef e.1 ⟨⟨le_refl _, by omega⟩, le_refl _, by omega⟩

/-- Headers outside a copy are unchanged by it. -/
theorem blockSize_copy {m : Memory} {c dst src len : ℕ} (hc : R.IsCell c)
    (hout : c + 8 ≤ dst ∨ dst + len ≤ c) : blockSize (m.copy dst src len) c = blockSize m c := by
  rw [blockSize_eq hc, blockSize_eq hc]
  exact load_congr fun y h₁ h₂ => copy_of_out (by omega)

/-- The sizes after a block has been taken: its own is at most what it was, those of the
live blocks are as before. -/
theorem takeBlock_sizes {as bs : List Extent} {e : Extent} {size : ℕ}
    (hr : HeapRep R h (as ++ e :: bs) live) (hmod : size % 8 = 0) (hle : size ≤ e.2) :
    blockSize (takeBlock h.mem (lastCell R.head (as.map Prod.fst)) e.1 size) e.1 ≤ e.2 ∧
    ∀ y ∈ live, blockSize (takeBlock h.mem (lastCell R.head (as.map Prod.fst)) e.1 size) y.1 =
      y.2 := by
  obtain ⟨hprev, hprev'⟩ := HeapRep.prev_cell hr.toHeapShape
  have hmem : e ∈ as ++ e :: bs ++ live := by simp
  have hb := hr.bounds hmem
  have hroom := R.room
  have hcell := hr.isCell hmem
  have hsize := hr.sizes e hmem
  by_cases hsmall : e.2 ≤ size + 16
  · have heff := fun {c : ℕ} => takeBlock_whole (m := h.mem) (c := c) hprev hcell (hsize.symm ▸ hle)
      (hsize.symm ▸ hsmall)
    refine ⟨?_, fun y hy => ?_⟩
    · rw [(heff hcell).1, hsize]
    · have hy' := List.mem_append_right (as ++ e :: bs) hy
      rw [(heff (hr.isCell hy')).1, hr.sizes y hy']
  · obtain ⟨k, hk⟩ : ∃ k, e.2 = size + k := ⟨e.2 - size, by omega⟩
    have hstart := (hr.whole e hmem).start
    have hpos := (hr.whole e hmem).pos
    have hne := hprev' e.1 hcell (by omega) (by omega) (le_refl _)
    have heff := fun {c : ℕ} => takeBlock_split (m := h.mem) (c := c) hprev hcell
      (.inr ⟨by omega, by omega, by omega⟩) hne (hsize.trans hk) (by omega)
    refine ⟨?_, fun y hy => ?_⟩
    · rw [(heff hcell).1, if_pos rfl]
      exact hle
    · have hy' := List.mem_append_right (as ++ e :: bs) hy
      have hposy := (hr.whole y hy').pos
      have happ := hr.free_live (e := e) (by simp) hy
      rw [(heff (hr.isCell hy')).1, if_neg (by omega), if_neg (by omega), hr.sizes y hy']

theorem heapRequest_mod (n : ℕ) : heapRequest n % 8 = 0 := by
  have hmask : ∀ w, w &&& 7 = w % 8 := fun w => Nat.and_two_pow_sub_one_eq_mod w 3
  rw [heapRequest, hmask]
  split_ifs with h
  · unfold wordAdd
    omega
  · omega

/-- The heap's `BT_kRealloc` does what it should only when no free block is large
enough. -/
theorem heapReallocOk_iff (hr : HeapRep R h free live) (hx : x ∈ live) (hn : n ≠ 0) :
    HeapReallocOk R h live x old n ↔ ∀ e ∈ free, e.2 < heapRequest n := by
  have hptr : x.1 + 8 ≠ 0 := by omega
  constructor
  · rintro ⟨q, h', hrun, hmoved, -⟩
    rcases hr.heapMalloc_cases n with ⟨hall | hall, -⟩ | ⟨as, e, bs, rfl, -, hle, hyes⟩
    · exact absurd hall hn
    · exact hall
    · exfalso
      have hmem : e ∈ as ++ e :: bs ++ live := by simp
      have hcell := hr.isCell hmem
      have hb := hr.bounds hmem
      have hxl := List.mem_append_right (as ++ e :: bs) hx
      have hxc := hr.isCell hxl
      have hlt := R.stop_lt
      have hroom := R.room
      have hstart := R.start_pos
      have hbelow := hr.liveBelow x hx
      have hend := R.endBlock_eq
      have hsub : wordSub (x.1 + 8) heapBlockBytes = x.1 := by
        rw [wordSub_of_le (by unfold heapBlockBytes; omega) (by omega)]
        exact Nat.add_sub_cancel _ _
      obtain ⟨hz, hlive⟩ := takeBlock_sizes hr (heapRequest_mod n) hle
      rw [heapRealloc, if_pos ⟨hptr, hn⟩, hyes] at hrun
      dsimp only at hrun
      rw [if_neg (by omega), hsub] at hrun
      obtain ⟨hq, hh⟩ := Prod.mk.inj (Option.some.inj hrun)
      obtain ⟨hroom', -, hacc⟩ := hmoved (by omega)
      generalize htake : takeBlock h.mem (lastCell R.head (as.map Prod.fst)) e.1 (heapRequest n) =
        m' at *
      generalize hedit : setBlockSize m' x.1 (wordSub (blockSize m' x.1) heapBlockBytes) = m₁ at *
      generalize hlen : (if blockSize m₁ x.1 < n then blockSize m₁ x.1 else n) = len at *
      have hlen' : len ≤ n := by
        rw [← hlen]
        split_ifs with hc
        · exact hc.le
        · exact le_refl _
      -- the headers after the old one has been edited and the bytes have been copied
      have hsizes : ∀ c, R.IsCell c → c ≠ x.1 → c + 8 ≤ e.1 + 8 ∨ e.1 + 8 + len ≤ c →
          blockSize h'.mem c = blockSize m' c := by
        intro c hc hne hout
        rw [← hh, blockSize_copy hc hout, ← hedit, blockSize_setBlockSize hxc hc (wordSub_lt _ _),
          if_neg hne]
      have happx := hr.free_live (e := e) (by simp) hx
      have hpos := (hr.whole e hmem).pos
      have hposx := (hr.whole x hxl).pos
      have hown : blockSize h'.mem e.1 = blockSize m' e.1 :=
        hsizes e.1 hcell (by omega) (.inl (le_refl _))
      rw [← hq, Nat.add_sub_cancel, hown] at hroom'
      have hother : ∀ y ∈ live.erase x, blockSize h'.mem y.1 = y.2 := by
        intro y hy
        obtain ⟨hne, hyl⟩ := (hr.live_nodup.mem_erase_iff).mp hy
        have hyl' := List.mem_append_right (as ++ e :: bs) hyl
        have happ := hr.free_live (e := e) (by simp) hyl
        have hw := hr.whole y hyl'
        have hposy := hw.pos
        have hsizey := hw.size
        rw [hsizes y.1 (hr.isCell hyl') (fun heq => hne (hr.eq_of_start hyl' hxl heq))
          (by omega), hlive y hyl]
      have hsum : (((live.erase x).map Prod.fst).map (blockSize h'.mem)).sum =
          totalSize (live.erase x) := by
        rw [List.map_map, totalSize]
        exact congrArg List.sum (List.map_congr_left hother)
      unfold HeapAccounted at hacc
      rw [← hq, Nat.add_sub_cancel, List.map_cons, List.sum_cons, hown, hsum] at hacc
      have htotal := hr.total
      have hlive' := totalSize_erase hx
      have hrem : h'.bytesRemaining = totalSize (as ++ e :: bs) - blockSize m' e.1 := by
        have hlt' := hr.totalSize_lt
        rw [← hh, hr.remaining]
        simp only [totalSize_append, totalSize_cons] at hlt' ⊢
        exact wordSub_of_le (by omega) (by omega)
      simp only [totalSize_append, totalSize_cons] at hrem htotal
      omega
  · intro hall
    rcases hr.heapMalloc_cases n with ⟨-, hno⟩ | ⟨as, e, bs, rfl, -, hle, -⟩
    · refine ⟨0, h, ?_, fun hq => absurd rfl hq, fun _ => rfl⟩
      rw [heapRealloc, if_pos ⟨hptr, hn⟩, hno]
      dsimp only
      rw [if_pos rfl]
    · have := hall e (by simp)
      omega

end Heap

/-! ## Runs

Both conditions are exact in the states of the runs of the two allocators. -/

/-- **When `BT_kRealloc` does what it should**: in every state the two allocators reach,
exactly when there is no memory for the new block. -/
theorem realloc_ok_iff (n : ℕ) (hn : n ≠ 0) :
    (∀ (σ : Type) (P : Pages σ) (G : SlabConfig) (taken : σ → ℕ → Prop) (s : Slab σ)
      (live : List Alloc) (runs : List (ℕ × ℕ)), PagesLaw P taken → PagesExact P taken →
      SlabReach P G taken Fits s live runs → ∀ x ∈ live,
        (SlabReallocOk P G taken s live x n ↔ SlabExhausted P G s n)) ∧
    ∀ (R : HeapRegion) (h : Heap) (live : List Extent), HeapReach R Moderate (EndsBelow R) h live →
      ∃ free, HeapSound R h free live ∧ ∀ x ∈ live, ∀ old,
        (HeapReallocOk R h live x old n ↔ ∀ e ∈ free, e.2 < heapRequest n) := by
  constructor
  · intro σ P G taken s live runs law hp hreach x hx
    obtain ⟨blocks, fl, hinv⟩ := hreach.inv law
    exact slabReallocOk_iff law hp hinv hx hn
  · intro R h live hreach
    obtain ⟨free, hr⟩ := hreach.rep
    exact ⟨free, hr.sound, fun x hx old => heapReallocOk_iff hr hx hn⟩

theorem bumpPages_exact : PagesExact bumpPages belowNext where
  aligned n e := by
    by_cases h : (bumpPages.alloc n e).1 = 0
    · rw [h]
    · obtain ⟨halloc, hmod, -⟩ := bumpPages_alloc h
      rw [halloc]
      exact hmod
  refused _ _ := bumpPages_refused
  keep _ _ _ := bumpPages_keep

/-- The ten caches after one allocation of 20 bytes. -/
def twentySlab : Slab ℕ :=
  (slabMalloc bumpPages tenCaches (btInitialiseSlab bumpPages tenCaches clearSlab) 20).2

theorem twentySlab_reach : SlabReach bumpPages tenCaches belowNext Fits twentySlab [⟨0x102018, 20⟩]
    [] := by
  have hinit : SlabReach bumpPages tenCaches belowNext Fits
      (btInitialiseSlab bumpPages tenCaches clearSlab)
      [] [] := .init fun _ _ => rfl
  have hp : (slabMalloc bumpPages tenCaches (btInitialiseSlab bumpPages tenCaches clearSlab) 20).1 =
      0x102018 := by decide +kernel
  have hrun : tookRun bumpPages tenCaches (btInitialiseSlab bumpPages tenCaches clearSlab) 20
      0x102018 =
      [] := by decide +kernel
  have hreach := SlabReach.malloc hinit (by unfold Fits; omega) (Prod.ext hp rfl)
  rwa [if_neg (by decide), hrun, List.nil_append] at hreach

/-- The small heap after one allocation of 20 bytes. -/
theorem smallHeap_twenty :
    ∃ h, heapMalloc smallHeap (btInitialiseHeap smallHeap clearHeap) 20 = some (0x1008, h) ∧
    HeapReach smallHeap Moderate (EndsBelow smallHeap) h [(0x1000, 32)] := by
  have hinit : HeapReach smallHeap Moderate (EndsBelow smallHeap)
      (btInitialiseHeap smallHeap clearHeap) [] :=
    .init _
  have hrun : ((heapMalloc smallHeap (btInitialiseHeap smallHeap clearHeap) 20).map fun r =>
      (r.1, handedOut r.2 r.1)) = some (0x1008, (0x1000, 32)) := by decide +kernel
  obtain ⟨⟨p, h⟩, hmalloc, heq⟩ := Option.map_eq_some_iff.mp hrun
  obtain ⟨rfl, hblock⟩ := Prod.mk.inj heq
  have hreach := HeapReach.malloc hinit (by unfold Moderate; decide) hmalloc (fun _ => by
    rw [hblock]
    unfold EndsBelow
    decide)
  rw [if_neg (by decide), hblock] at hreach
  exact ⟨h, hmalloc, hreach⟩

/-- A kibibyte is too much for the small heap. -/
theorem realloc_ok_iff_kibibyte :
    (SlabReallocOk bumpPages tenCaches belowNext twentySlab [⟨0x102018, 20⟩] ⟨0x102018, 20⟩ 40 ↔
      SlabExhausted bumpPages tenCaches twentySlab 40) ∧
    ∃ h, HeapReach smallHeap Moderate (EndsBelow smallHeap) h [(0x1000, 32)] ∧
      HeapReallocOk smallHeap h [(0x1000, 32)] (0x1000, 32) 20 1024 := by
  refine ⟨(realloc_ok_iff 40
    (by decide)).1 ℕ _ _ _ _ _ _ bumpPages_law bumpPages_exact twentySlab_reach _
    List.mem_cons_self, ?_⟩
  obtain ⟨h, -, hreach⟩ := smallHeap_twenty
  obtain ⟨free, hsound, hiff⟩ := (realloc_ok_iff 1024 (by decide)).2 _ _ _ hreach
  refine ⟨h, hreach, (hiff _ List.mem_cons_self 20).mpr fun e he => ?_⟩
  -- every free block lies in the heap
  by_contra hle
  have hreq : heapRequest 1024 = 1032 := by decide
  have hin : ∀ y, e.Holds y → 0x1000 ≤ y ∧ y < 0x1000 + 248 := by
    intro y hy
    have hpos := cover_pos.mpr ⟨e, List.mem_append_left [(0x1000, 32)] he, hy⟩
    rw [hsound.tiled] at hpos
    by_contra hout
    rw [if_neg (by exact hout)] at hpos
    exact Nat.lt_irrefl _ hpos
  have h₁ := hin e.1 ⟨le_refl _, by omega⟩
  have h₂ := hin (e.1 + 1031) ⟨by omega, by omega⟩
  omega

/-- Neither allocator gives the old block back. -/
theorem realloc_keeps_old :
    ¬ SlabReallocOk bumpPages tenCaches belowNext twentySlab [⟨0x102018, 20⟩] ⟨0x102018, 20⟩ 40 ∧
    ∃ h, HeapReach smallHeap Moderate (EndsBelow smallHeap) h [(0x1000, 32)] ∧
      ¬ HeapReallocOk smallHeap h [(0x1000, 32)] (0x1000, 32) 20 40 := by
  constructor
  · rintro ⟨q, s', hrun, hmoved, -⟩
    have hval : ((slabRealloc bumpPages tenCaches twentySlab 0x102018 40).map fun r =>
        (r.1, (r.2.cache (tenCaches.cacheAt 2)).allocated)) =
          some (0x103018, 1) := by decide +kernel
    rw [hrun] at hval
    obtain ⟨hq, halloc⟩ := Prod.mk.inj (Option.some.inj hval)
    dsimp only at hq halloc
    have hcount := (hmoved (by rw [hq]; decide)).2.1 2 (by decide)
    rw [halloc, hq] at hcount
    revert hcount
    decide
  · have hval : ((heapMalloc smallHeap (btInitialiseHeap smallHeap clearHeap) 20).bind fun r =>
        (heapRealloc smallHeap r.2 0x1008 40).map fun r' =>
          (r'.1, r'.2.bytesRemaining, blockSize r'.2.mem 0x1020)) =
            some (0x1028, 168, 48) := by decide +kernel
    obtain ⟨h, hmalloc, hreach⟩ := smallHeap_twenty
    refine ⟨h, hreach, ?_⟩
    rintro ⟨q, h', hrun, hmoved, -⟩
    rw [hmalloc, Option.bind_some, show heapRealloc smallHeap h 0x1008 40 =
      some (q, h') from hrun] at hval
    obtain ⟨hq, hrest⟩ := Prod.mk.inj (Option.some.inj hval)
    obtain ⟨hrem, hsize⟩ := Prod.mk.inj hrest
    dsimp only at hq hrem hsize
    have hacc := (hmoved (by rw [hq]; decide)).2.2
    unfold HeapAccounted at hacc
    rw [hrem, hq] at hacc
    change 168 + (blockSize h'.mem 0x1020 + 0) = 248 at hacc
    omega

end BitThunder
