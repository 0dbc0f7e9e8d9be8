import BitThunder.Mm.PageRun
import BitThunder.Mm.SlabSpec
import BitThunder.Vm.Space

/-!
# Failed allocations

What is left of a `bt_vm_allocate` that returned an error. The pages come from the page
pool of `bt_page.c`; so do those the kernel heap and the cache of page tables work with,
and these two keep what they took: a slab that was filled for a segment stays a slab when
the segment is given back.

* `failed_allocate_shrinks_pool`: the page a slab was made of is missing from the pool;
* `failed_allocate_restores`: the segments, `map->size` and the caller's address are what
  they were, and no page has left the pool but for the heap and the page tables.

What is in the pool and what the kernel heap and the cache of page tables hold have to be counted
together. A refused allocation may have filled a slab for the segment that it split off, and that
slab stays although the segment is given back; so the pool alone is smaller afterwards, and pages
together with what these two hold are the same. `Trades` is the assumption about the two: they take
from the pool what they hold, and give it back, and touch nobody else's pages.

That the segments are as they were is the restoring property of layouts. It needs that a free
segment has no other flag, since giving a segment back writes `BT_SEG_FREE` over whatever there was.
-/

namespace BitThunder

variable {σ : Type} {K : Kernel σ} {s : Machine σ} {m : ℕ} {xs as bs : List Entry}

/-! ## Free pages

A page is free, or held by the heap or the page tables, or it is somebody else's. A call may move
pages between the first two only. -/

/-- The byte at this physical address is free in the pool. -/
def PagePool.FreeAt (R : RamConfig) (pool : PagePool) (x : ℕ) : Prop :=
  ∃ blks, PoolRep R pool blks ∧ 0 < cover (pool.exts R blks) x

/-- One of these runs of pages holds the byte. -/
def HeldAt (runs : List Extent) (x : ℕ) : Prop :=
  0 < cover (runs.map fun e => (e.1, btPageAlign e.2)) x

theorem not_heldAt_nil (x : ℕ) : ¬ HeldAt [] x := by simp [HeldAt]

/-- From `e` to `e'` pages only went from the pool to those that hold `own`, and back: what
others hold is not touched. -/
def Trades (R : RamConfig) (pool : σ → PagePool) (own : σ → List Extent) (e e' : σ) : Prop :=
  ∀ att others blks, PoolInv R ⟨pool e, att, own e ++ others⟩ blks →
    ∃ blks', PoolInv R ⟨pool e', att, own e' ++ others⟩ blks'

/-- `bt_page_alloc` and `bt_page_free` work on a page pool, and the kernel heap and the cache
of page tables get the pages they hold, `own`, from the same pool. `own` is known to the
proofs only. -/
structure PoolServices (K : Kernel σ) (pool : σ → PagePool) (own : σ → List Extent) : Prop where
  /-- pages come from the pool -/
  alloc : ∀ n e r, btPagePoolAlloc K.ram (pool e) n 0 = some r →
    (K.pageAlloc n e).1 = r.1 ∧ pool (K.pageAlloc n e).2 = r.2
  /-- and go back to it -/
  free : ∀ p n e q, btPagePoolFree K.ram (pool e) p n = some q → pool (K.pageFree p n e) = q
  /-- neither has anything to do with the pages of the heap and of the cache -/
  allocOwn : ∀ n e, own (K.pageAlloc n e).2 = own e
  freeOwn : ∀ p n e, own (K.pageFree p n e) = own e
  /-- these take pages from the pool, or give them back, and do no more -/
  malloc : ∀ n e, Trades K.ram pool own e (K.kMalloc n e).2
  kfree : ∀ p e, Trades K.ram pool own e (K.kFree p e)
  cache : ∀ e, Trades K.ram pool own e (K.cacheAlloc e).2

section Pool

variable {R : RamConfig} {pool : σ → PagePool} {own : σ → List Extent} {e e₁ e₂ : σ}

/-- Nothing is traded where neither the pool nor what is owned changes. -/
theorem Trades.of_eq (hp : pool e₁ = pool e) (ho : own e₁ = own e) : Trades R pool own e e₁ := by
  intro att others blks hi
  rw [hp, ho]
  exact ⟨blks, hi⟩

theorem Trades.trans (h : Trades R pool own e e₁) (h' : Trades R pool own e₁ e₂) :
    Trades R pool own e e₂ := by
  intro att others blks hi
  obtain ⟨blks₁, hi₁⟩ := h att others blks hi
  exact h' att others blks₁ hi₁

/-- What is free or in these hands is what is attached and in no other. -/
theorem PoolInv.free_or_held_iff {p : PagePool} {att runs others : List Extent} {blks : List ℕ}
    (hi : PoolInv R ⟨p, att, runs ++ others⟩ blks) (x : ℕ) :
    p.FreeAt R x ∨ HeldAt runs x ↔ 0 < cover att x ∧ ¬ HeldAt others x := by
  have hfree : p.FreeAt R x ↔ 0 < cover (p.exts R blks) x := by
    constructor
    · rintro ⟨blks', hr, hx⟩
      rwa [hr.unique hi.rep] at hx
    · exact fun hx => ⟨blks, hi.rep, hx⟩
  have htiled := hi.tiled x
  have honce := hi.once x
  simp only [PoolSys.liveExts, List.map_append, cover_append] at htiled honce
  rw [hfree, HeldAt, HeldAt]
  omega

theorem Trades.of_heap (law : PoolServices K pool own)
    (h : Relation.ReflTransGen K.HeapStep e e₁) : Trades K.ram pool own e e₁ := by
  induction h with
  | refl => exact .of_eq rfl rfl
  | tail _ hstep ih =>
    cases hstep with
    | malloc n => exact ih.trans (law.malloc n _)
    | free p => exact ih.trans (law.kfree p _)

theorem Trades.of_tables (law : PoolServices K pool own)
    (h : Relation.ReflTransGen (fun e e' => e' = (K.cacheAlloc e).2) e e₁) :
    Trades K.ram pool own e e₁ := by
  induction h with
  | refl => exact .of_eq rfl rfl
  | tail _ hstep ih =>
    subst hstep
    exact ih.trans (law.cache _)

/-- A refused request leaves the pool as it was, a granted one takes the run out of it. -/
theorem PoolServices.call (law : PoolServices K pool own) {att others : List Extent} {blks : List ℕ}
    {n : ℕ} (hn : n + 4095 < 2 ^ 32) (hi : PoolInv K.ram ⟨pool e, att, own e ++ others⟩ blks) :
    ∃ blks', PoolInv K.ram ⟨pool (K.pageAlloc n e).2, att, own (K.pageAlloc n e).2 ++
      (if (K.pageAlloc n e).1 = 0 then others else ((K.pageAlloc n e).1, n) :: others)⟩ blks' := by
  have hok : (PoolOp.alloc n 0).Ok K.ram ⟨pool e, att, own e ++ others⟩ := ⟨hn, fun _ _ => .inl rfl⟩
  obtain ⟨sys, blks', hstep, hi'⟩ := poolInv_alloc hi hok
  obtain ⟨r, hr, rfl⟩ := Option.map_eq_some_iff.mp hstep
  obtain ⟨hpa, hpool⟩ := law.alloc n e r hr
  refine ⟨blks', ?_⟩
  rw [hpool, law.allocOwn, hpa]
  refine hi'.perm ?_
  simp only
  split
  · exact List.Perm.refl _
  · exact List.perm_middle

/-- A run that is given back is in the pool again. -/
theorem PoolServices.giveBack (law : PoolServices K pool own) {att others : List Extent}
    {blks : List ℕ} {p n : ℕ} (hi : PoolInv K.ram ⟨pool e, att, own e ++ (p, n) :: others⟩ blks) :
    ∃ blks', PoolInv K.ram ⟨pool (K.pageFree p n e), att, own (K.pageFree p n e) ++ others⟩
      blks' := by
  have hi : PoolInv K.ram ⟨pool e, att, (p, n) :: (own e ++ others)⟩ blks :=
    hi.perm List.perm_middle.symm
  obtain ⟨sys, blks', hstep, hi'⟩ := poolInv_free hi (p := p) (n := n) List.mem_cons_self
  obtain ⟨q, hq, rfl⟩ := Option.map_eq_some_iff.mp hstep
  refine ⟨blks', ?_⟩
  rw [law.free p n e q hq, law.freeOwn]
  simpa using hi'

end Pool

/-! ## One page left

A pool with one free page, and a fresh map beside it. -/

/-- The page allocator on a pool. -/
def poolPages (R : RamConfig) : Pages PagePool where
  ram := R
  alloc n q := (btPagePoolAlloc R q n 0).getD (0, q)
  free a n q := (btPagePoolFree R q a n).getD q

/-- A pool without pages. -/
def emptyPool : PagePool := btPagePoolInit ⟨⟨id, id⟩, fun _ => 0, 0, 0⟩

/-- A pool with one page. -/
def onePage : PagePool :=
  (btPagePoolAttach stockRam emptyPool 0x10100000 0x1000).getD emptyPool

theorem onePage_inv : ∃ blks, PoolInv stockRam ⟨onePage, [(0x10100000, 0x1000)], []⟩ blks := by
  have hok : (PoolOp.attach 0x10100000 0x1000).Ok stockRam ⟨emptyPool, [], []⟩ :=
    ⟨by decide, by decide, by decide, by decide, fun e he => nomatch he⟩
  have hinit : PoolInv stockRam ⟨emptyPool, [], []⟩ [] := poolInv_init _
  obtain ⟨sys, blks, hstep, hi⟩ := poolInv_attach hinit hok
  rw [PoolOp.step] at hstep
  obtain ⟨q, hq, rfl⟩ := Option.map_eq_some_iff.mp hstep
  have hone : onePage = q := by
    rw [onePage, hq]
    rfl
  rw [hone]
  exact ⟨blks, hi⟩

theorem onePage_free : onePage.FreeAt stockRam 0x10100000 := by
  obtain ⟨blks, hi⟩ := onePage_inv
  have hi : PoolInv stockRam ⟨onePage, [(0x10100000, 0x1000)], [] ++ []⟩ blks := hi
  have hiff := (hi.free_or_held_iff 0x10100000).mpr ⟨by decide, not_heldAt_nil _⟩
  exact hiff.resolve_right (not_heldAt_nil _)

/-- Nothing is free in a pool whose list is empty. -/
theorem PagePool.not_freeAt {R : RamConfig} {q : PagePool} (h : q.list.next .poolHead = .poolHead)
    (x : ℕ) : ¬ q.FreeAt R x := by
  rintro ⟨blks, hr, hx⟩
  cases blks with
  | nil => exact absurd hx (by simp)
  | cons va blks =>
    have hfirst := hr.ring.fwd.first
    rw [h] at hfirst
    cases hfirst

/-- A machine with the map `1` as `bt_vm_create` leaves it, with the segment `2`. -/
def freshMap (e : σ) : Machine σ :=
  { bootMachine e with
    fresh := 3
    links := (Links.initHead ⟨id, id⟩ (.head 1)).insertAfter (.list 2) (.head 1)
    seg := fun _ => initialSegment
    map := fun _ => ⟨1, 0xC0008000, 0, 0⟩ }

theorem freshMap_shows (e : σ) : Shows (freshMap e) 1 [(2, initialSegment)] :=
  Shows.single rfl rfl rfl rfl (Nat.lt_succ_self 2)

/-! ## A slab that stays

The heap takes the page for a slab, and keeps it when the segment in it is given back. -/

/-- The slab allocator after its pages have changed. -/
def Slab.setPages (e : Slab σ) (q : σ) : Slab σ := { e with store := { e.store with env := q } }

/-- The address of `g_ptCache` -/
def ptCache : ℕ := 0xC0009000

/-- The slab allocator as the kernel heap and as the cache of page tables, over the page
pool. -/
def slabKernel : Kernel (Slab PagePool) where
  ram := stockRam
  mmuTable := 0xC0004000
  kMalloc n e := slabMalloc (poolPages stockRam) tenCaches e n
  kFree p e := (slabFree (poolPages stockRam) e p).getD e
  kMutexCreate e := (1, e)
  pageAlloc n e :=
    let r := (poolPages stockRam).alloc n e.store.env
    (r.1, e.setPages r.2)
  pageFree a n e := e.setPages ((poolPages stockRam).free a n e.store.env)
  cacheAlloc e :=
    let r := btCacheAlloc (poolPages stockRam) (e.cache ptCache) e.store
    (r.1, e.setCache ptCache r.2.1 r.2.2)
  cacheFree p e :=
    let r := btCacheFree (e.cache ptCache) e.store p
    e.setCache ptCache r.2.1 r.2.2

/-- The slab allocator without a free object, and one page in the pool. -/
def bareSlab : Slab PagePool :=
  (btInitialiseSlab (poolPages stockRam) tenCaches
    ⟨fun _ => ⟨0, 0, 0, 0⟩, ⟨fun _ => 0, emptyPool⟩⟩).setPages onePage

/-- The last page becomes a slab for the segment to split off; there is none left to
allocate, the split is undone, and the page stays a slab. -/
theorem failed_allocate_shrinks_pool : ∃ s',
    Shows (freshMap bareSlab) 1 [(2, initialSegment)] ∧
    SegmentsOk btPageSize btMmUserLimit [(2, initialSegment)] ∧
    doAllocate slabKernel 1 0 4096 btVmAllocAnywhere (freshMap bareSlab) = some
    ((.noMemory, 0), s') ∧
    ¬∀ x, s'.env.store.env.FreeAt stockRam x ↔
      (freshMap bareSlab).env.store.env.FreeAt stockRam x := by
  have heval : ((doAllocate slabKernel 1 0 4096 btVmAllocAnywhere (freshMap bareSlab)).map fun r =>
      (r.1, r.2.env.store.env.list.next .poolHead)) = some ((.noMemory, 0), .poolHead) := by
    decide +kernel
  obtain ⟨⟨r, s'⟩, hrun, hres⟩ := Option.map_eq_some_iff.mp heval
  obtain ⟨rfl, hlist⟩ := Prod.mk.inj hres
  refine ⟨s', freshMap_shows bareSlab, initialSegment_ok 2, hrun, fun hfree => ?_⟩
  exact PagePool.not_freeAt hlist _ ((hfree 0x10100000).mpr onePage_free)

/-! ## Every failure

Whatever is refused and wherever, the segments come back. For the pages the two are counted
together. -/

/-- The size of a request is a word, and can be rounded up. -/
theorem allocSize_bound {addr : ℕ} (ha : addr < 2 ^ 32) (size flags : ℕ) :
    allocSize addr size flags < 2 ^ 32 ∧ allocSize addr size flags + 4095 < 2 ^ 32 := by
  have hal := btPageAlign_allocSize ha size flags
  have hlt := btPageAlign_lt (allocSize addr size flags)
  have hmod := btPageAlign_mod (allocSize addr size flags)
  rw [hal] at hlt hmod
  omega

/-- Whatever goes wrong, and for whatever request: a `bt_vm_allocate` that returns an error
leaves the segments of the map, its size and the caller's address as they were, and every
page that was free, or in the hands of the kernel heap or of the page table cache, still is
one or the other; nobody else has lost or got a page. -/
theorem failed_allocate_restores {pool : σ → PagePool} {own : σ → List Extent}
    {att others : List Extent} {blks : List ℕ} {addr size flags : ℕ} (law : PoolServices K pool own)
    (h : Shows s m xs) (hap : xs.IsChain NotBothFree)
    (hfl : ∀ x ∈ xs, x.2.has btSegFree → x.2.flags = btSegFree)
    (hsz : ∀ x ∈ xs, x.2.size < 2 ^ 32) (ha : addr < 2 ^ 32)
    (hpool : PoolInv K.ram ⟨pool s.env, att, own s.env ++ others⟩ blks) :
    Prog.Ensures (doAllocate K m addr size flags) s fun r s' => r.1 ≠ .none →
      Shows s' m xs ∧ s'.map = s.map ∧ r.2 = addr ∧
      (∃ blks', PoolInv K.ram ⟨pool s'.env, att, own s'.env ++ others⟩ blks') ∧
      ∀ x, (pool s'.env).FreeAt K.ram x ∨ HeldAt (own s'.env) x ↔
        (pool s.env).FreeAt K.ram x ∨ HeldAt (own s.env) x := by
  obtain ⟨hlt, hbound⟩ := allocSize_bound ha size flags
  have hrest : ∀ {v : Segment} {a j p : ℕ} {as bs : List Entry},
      Obtained xs v a (allocSize addr size flags) as j p bs →
      freeAt as j ⟨a, p, allocSize addr size flags, segRwx⟩ bs = xs := by
    intro v a j p as bs hob
    obtain ⟨x, hx, rfl, hf⟩ := hob.carve.mem
    exact hob.carve.restore hap (hfl x hx hf) (hsz x hx) hlt
  -- once the pool is known to be in order again, the set of pages follows
  have finish : ∀ {s' : Machine σ}, Shows s' m xs → s'.map = s.map →
      (∃ blks', PoolInv K.ram ⟨pool s'.env, att, own s'.env ++ others⟩ blks') →
      Shows s' m xs ∧ s'.map = s.map ∧ addr = addr ∧
      (∃ blks', PoolInv K.ram ⟨pool s'.env, att, own s'.env ++ others⟩ blks') ∧
      ∀ x, (pool s'.env).FreeAt K.ram x ∨ HeldAt (own s'.env) x ↔
        (pool s.env).FreeAt K.ram x ∨ HeldAt (own s.env) x := by
    intro s' hsh hmap hinv
    refine ⟨hsh, hmap, rfl, hinv, fun x => ?_⟩
    obtain ⟨blks', hi⟩ := hinv
    rw [hi.free_or_held_iff, hpool.free_or_held_iff]
  refine doAllocate_rule h ha ?_ ?_ ?_ ?_ ?_
  · intro _ _
    exact finish h rfl ⟨blks, hpool⟩
  · intro xs' s' _ _ hu e _
    rw [hu.restored hap hfl hsz] at e
    exact finish e.shows e.frame.map (Trades.of_heap law e.frame.env att others blks hpool)
  · intro v a as j p bs s₁ _ _ hob _ e hz s' e' _
    rw [hrest hob] at e'
    refine finish e'.shows (e'.frame.map.trans e.frame.map) ?_
    obtain ⟨b₁, i₁⟩ := Trades.of_heap law e.frame.env att others blks hpool
    obtain ⟨b₂, i₂⟩ := law.call hbound i₁
    rw [if_pos hz] at i₂
    exact Trades.of_heap law e'.frame.env att others b₂ i₂
  · intro v a as j p bs s₁ _ _ hob _ e hz r t _ _ hframe s' e' _
    rw [hrest hob] at e'
    refine finish e'.shows (e'.frame.map.trans (hframe.map.trans e.frame.map)) ?_
    obtain ⟨b₁, i₁⟩ := Trades.of_heap law e.frame.env att others blks hpool
    obtain ⟨b₂, i₂⟩ := law.call hbound i₁
    rw [if_neg hz] at i₂
    -- while the tables are entered the run is among what others hold
    obtain ⟨b₃, i₃⟩ := Trades.of_tables law hframe.env att _ b₂ i₂
    obtain ⟨b₄, i₄⟩ := law.giveBack i₃
    exact Trades.of_heap law e'.frame.env att others b₄ i₄
  · intro v a as j p bs s₁ _ _ _ _ _ _ t _ _ hne
    exact absurd rfl hne

/-- The page pool, and a heap and page tables that are not made of its pages. -/
def poolKernel : Kernel (Stock × PagePool) where
  ram := stockRam
  mmuTable := stockKernel.mmuTable
  kMalloc n e := ((stockKernel.kMalloc n e.1).1, (stockKernel.kMalloc n e.1).2, e.2)
  kFree p e := (stockKernel.kFree p e.1, e.2)
  kMutexCreate e := ((stockKernel.kMutexCreate e.1).1, (stockKernel.kMutexCreate e.1).2, e.2)
  pageAlloc n e :=
    let r := (poolPages stockRam).alloc n e.2
    (r.1, e.1, r.2)
  pageFree a n e := (e.1, (poolPages stockRam).free a n e.2)
  cacheAlloc e := ((stockKernel.cacheAlloc e.1).1, (stockKernel.cacheAlloc e.1).2, e.2)
  cacheFree p e := (stockKernel.cacheFree p e.1, e.2)

theorem poolKernel_services : PoolServices poolKernel Prod.snd fun _ => [] where
  alloc n e r hr := by
    have hr : btPagePoolAlloc stockRam e.2 n 0 = some r := hr
    simp [poolKernel, poolPages, hr]
  free p n e q hq := by
    have hq : btPagePoolFree stockRam e.2 p n = some q := hq
    simp [poolKernel, poolPages, hq]
  allocOwn _ _ := rfl
  freeOwn _ _ _ := rfl
  malloc _ _ := .of_eq rfl rfl
  kfree _ _ := .of_eq rfl rfl
  cache _ := .of_eq rfl rfl

/-- Two pages where there is one: the segment is split and put together again. -/
theorem failed_allocate_restores_one_page : ∃ s',
    doAllocate poolKernel 1 0 0x2000 btVmAllocAnywhere (freshMap (⟨10, 10, 0, 0, 10⟩, onePage)) =
      some ((.noMemory, 0), s') ∧
    Shows s' 1 [(2, initialSegment)] ∧ (s'.map 1).size = 0 ∧
    s'.env.2.FreeAt stockRam 0x10100000 := by
  have heval : (doAllocate poolKernel 1 0 0x2000 btVmAllocAnywhere
      (freshMap (⟨10, 10, 0, 0, 10⟩, onePage))).map Prod.fst = some (.noMemory, 0) := by
    decide +kernel
  obtain ⟨blks, hpool⟩ := onePage_inv
  have hok := initialSegment_ok 2
  have hpool : PoolInv poolKernel.ram ⟨onePage, [(0x10100000, 0x1000)], [] ++ []⟩ blks := hpool
  have hend : Prog.Ensures (doAllocate poolKernel 1 0 0x2000 btVmAllocAnywhere)
      (freshMap (⟨10, 10, 0, 0, 10⟩, onePage)) _ :=
    failed_allocate_restores poolKernel_services (freshMap_shows _) hok.apart hok.flags
      (fun _ hx => (hok.fits user_bounds hx).2.2.2) (by decide) hpool
  obtain ⟨r, s', hrun, hpost⟩ := hend
  rw [hrun] at heval
  obtain rfl := Option.some.inj heval
  obtain ⟨hsh, hmap, -, -, hfree⟩ := hpost (by decide)
  refine ⟨s', hrun, hsh, by rw [hmap]; rfl, ?_⟩
  exact ((hfree 0x10100000).mpr (.inl onePage_free)).resolve_right (not_heldAt_nil _)

end BitThunder
