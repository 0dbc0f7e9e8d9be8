import BitThunder.Mm.PageSpec

/-!
# Runs of the page allocator

A pool together with what its history fixes: the regions attached so far and the
blocks handed out and not given back. A run attaches disjoint regions, allocates,
frees what was allocated, and lets the owners of live blocks overwrite their
memory; the free-block headers live in that same memory, so the invariant has to
keep them out of every live block.

* `poolInv_step`: one operation keeps the invariant and comes back;
* `page_pool_tiled`: in every reachable state free and live blocks tile the
  attached memory and the accounting is exact.

The invariant has two halves. `PoolTiled` is about bytes: each byte is attached exactly as often as
it is free or live, and no byte is attached twice, from which it follows that no two blocks overlap,
free or live, and that none is lost. `PoolInv` adds the two counters, which are sums over the same
lists of extents.

Attaching a region and freeing a live block are the same edit of the list, a block that no free
block meets being put in (`free_back`); they differ only in what is written into the history. A
store of an owner is an arbitrary new pool that agrees with the old one outside the live blocks. It
cannot touch a header, since headers are inside free blocks and these are apart from the live ones.
-/

namespace BitThunder

variable {R : RamConfig}

/-- A pool and its history. -/
structure PoolSys : Type where
  pool : PagePool
  /-- the regions attached -/
  attached : List Extent
  /-- the blocks handed out: address and size asked for -/
  live : List Extent

/-- The extents the live blocks occupy. -/
def PoolSys.liveExts (sys : PoolSys) : List Extent := sys.live.map fun e => (e.1, btPageAlign e.2)

/-- What can happen to a pool. -/
inductive PoolOp : Type where
  /-- `bt_page_pool_attach(pool, paddr, size)` -/
  | attach : ℕ → ℕ → PoolOp
  /-- `bt_page_pool_alloc(pool, psize, order)` -/
  | alloc : ℕ → ℕ → PoolOp
  /-- `bt_page_pool_free(pool, paddr, psize)` -/
  | free : ℕ → ℕ → PoolOp
  /-- the owners of live blocks store whatever they like in them -/
  | store : PagePool → PoolOp

/-- The header words inside the live blocks hold what their owners put there. -/
def PoolSys.stored (R : RamConfig) (sys : PoolSys) (junk : PagePool) : PagePool :=
  let owned (c : PageCell) : Bool := match c with
    | .poolHead => false
    | .page va => decide (0 < cover sys.liveExts (R.virtToPhys va))
  { sys.pool with
    list :=
      { next := fun c => if owned c then junk.list.next c else sys.pool.list.next c
        prev := fun c => if owned c then junk.list.prev c else sys.pool.list.prev c }
    blkSize := fun va => if owned (.page va) then junk.blkSize va else sys.pool.blkSize va }

/-- One operation. `none` is a call that never returns. -/
def PoolOp.step (R : RamConfig) (sys : PoolSys) : PoolOp → Option PoolSys
  | .attach p n => (btPagePoolAttach R sys.pool p n).map fun pool =>
      { sys with pool := pool, attached := (p, n) :: sys.attached }
  | .alloc n order => (btPagePoolAlloc R sys.pool n order).map fun r =>
      { sys with pool := r.2, live := if r.1 = 0 then sys.live else (r.1, n) :: sys.live }
  | .free p n => (btPagePoolFree R sys.pool p n).map fun pool =>
      { sys with pool := pool, live := sys.live.erase (p, n) }
  | .store junk => some { sys with pool := sys.stored R junk }

/-- What the callers owe: regions are page-aligned, disjoint from those attached
before, end by `2 ^ 32` and do not hold physical address `0`; rounding the size
and aligning the address do not wrap; only live blocks are freed, with the size
they were asked for. -/
def PoolOp.Ok (R : RamConfig) (sys : PoolSys) : PoolOp → Prop
  | .attach p n => p % 4096 = 0 ∧ n % 4096 = 0 ∧ p + n ≤ 2 ^ 32 ∧ ¬ Extent.Holds (p, n) 0 ∧
      ∀ e ∈ sys.attached, Extent.Apart (p, n) e
  | .alloc n order => n + 4095 < 2 ^ 32 ∧
      ∀ blks, PoolRep R sys.pool blks → AlignOk blks (btPageAlign n) order
  | .free p n => (p, n) ∈ sys.live
  | .store _ => True

/-- The states a pool can get into, from `bt_page_pool_init` on any memory. -/
inductive PoolReach (R : RamConfig) : PoolSys → Prop where
  | init (pool : PagePool) : PoolReach R ⟨btPagePoolInit pool, [], []⟩
  | step {sys sys' : PoolSys} {op : PoolOp} : PoolReach R sys → op.Ok R sys →
      op.step R sys = some sys' → PoolReach R sys'

/-! ## The invariant

Every address of the attached memory is in one block that is free or one that is live, and the
counters are the sums of their sizes. -/

/-- Free and live blocks tile the attached memory. -/
structure PoolTiled (R : RamConfig) (sys : PoolSys) (blks : List ℕ) : Prop where
  /-- the free list is well formed -/
  rep : PoolRep R sys.pool blks
  /-- each byte is attached as often as it is free or live -/
  tiled : ∀ x, cover (sys.pool.exts R blks) x + cover sys.liveExts x = cover sys.attached x
  /-- no byte was attached twice -/
  once : ∀ x, cover sys.attached x ≤ 1
  /-- the regions end within the physical memory -/
  inside : ∀ e ∈ sys.attached, e.1 + e.2 ≤ 2 ^ 32
  /-- and do not have address zero -/
  zero : cover sys.attached 0 = 0
  /-- an allocation is that of some pages -/
  live_ok : ∀ e ∈ sys.live, e.2 ≠ 0 ∧ e.2 + 4095 < 2 ^ 32 ∧ e.1 % 4096 = 0

/-- The invariant: the tiling, and the two counters. -/
structure PoolInv (R : RamConfig) (sys : PoolSys) (blks : List ℕ) : Prop
    extends PoolTiled R sys blks where
  /-- the pool has the size of its regions -/
  total : sys.pool.totalSize = totalSize sys.attached
  /-- and what is used is what is live -/
  used : sys.pool.usedSize = totalSize sys.liveExts

namespace PoolTiled

variable {sys : PoolSys} {blks : List ℕ}

theorem cover_lt {x : ℕ} (hi : PoolTiled R sys blks) (hx : 0 < cover sys.attached x) :
    x < 2 ^ 32 := by
  obtain ⟨e, he, -, hlt⟩ := cover_pos.mp hx
  have := hi.inside e he
  omega

theorem total_lt (hi : PoolTiled R sys blks) : totalSize sys.attached < 2 ^ 32 :=
  totalSize_lt (by decide) hi.inside hi.once hi.zero

/-- A live block lies inside the address space, off physical address `0`. -/
theorem live_block {e : Extent} (hi : PoolTiled R sys blks) (he : e ∈ sys.liveExts)
    (hpos : 0 < e.2) : 0 < e.1 ∧ e.1 + e.2 ≤ 2 ^ 32 := by
  refine ⟨?_, end_le_of_cover (fun x hx => hi.cover_lt (x := x) ?_) he hpos⟩
  · by_contra hz
    have hx : 0 < cover sys.liveExts 0 := cover_pos.mpr ⟨e, he, by omega, by omega⟩
    have := hi.tiled 0
    have := hi.zero
    omega
  · have := hi.tiled x
    omega

theorem liveExts_pos {e : Extent} (hi : PoolTiled R sys blks) (he : e ∈ sys.liveExts) :
    0 < e.2 := by
  obtain ⟨f, hf, rfl⟩ := List.mem_map.mp he
  obtain ⟨hne, hlt, -⟩ := hi.live_ok f hf
  have := (btPageAlign_of_lt hlt).2.1
  simp only
  omega

/-- The accounting: free bytes and live bytes add up to the attached ones. -/
theorem sum_eq (hi : PoolTiled R sys blks) :
    totalSize (sys.pool.exts R blks) + totalSize sys.liveExts = totalSize sys.attached := by
  rw [← totalSize_append]
  refine totalSize_congr (N := 2 ^ 32) ?_ hi.inside fun x => ?_
  · intro e he
    rcases List.mem_append.mp he with h | h
    · obtain ⟨va, hva, rfl⟩ := List.mem_map.mp h
      exact (hi.rep.block va hva).end_le
    · exact (hi.live_block h (hi.liveExts_pos h)).2
  · rw [cover_append]
    exact hi.tiled x

end PoolTiled

theorem poolInv_init (pool : PagePool) : PoolInv R ⟨btPagePoolInit pool, [], []⟩ [] where
  rep := ⟨Ring.initHead _ _, by simp, by simp⟩
  tiled x := by simp [PoolSys.liveExts]
  once x := by simp
  inside := by simp
  zero := by simp
  live_ok := by simp
  total := rfl
  used := rfl

/-- The order in which the live blocks are listed does not matter. -/
theorem PoolInv.perm {sys : PoolSys} {blks : List ℕ} {live : List Extent} (hi : PoolInv R sys blks)
    (hp : live.Perm sys.live) : PoolInv R { sys with live := live } blks := by
  have hexts : (PoolSys.liveExts { sys with live := live }).Perm sys.liveExts := hp.map _
  refine ⟨⟨hi.rep, fun x => ?_, hi.once, hi.inside, hi.zero,
    fun e he => hi.live_ok e (hp.mem_iff.mp he)⟩,
    hi.total, ?_⟩
  · rw [cover_perm hexts]
    exact hi.tiled x
  · exact hi.used.trans (hexts.symm.map Prod.snd).sum_eq

/-! ## One operation

Attaching and freeing are the same edit of the list; they differ in where the block comes from. -/

variable {sys : PoolSys} {blks : List ℕ}

/-- Giving back memory that no free block holds: the common part of freeing a
live block and attaching a region. -/
theorem free_back {pool : PagePool} {p n : ℕ} (hp : PoolRep R pool blks) (hpa : p % 4096 = 0)
    (hpos : 0 < p) (hn : n ≠ 0) (hend : p + btPageAlign n ≤ 2 ^ 32) (hbig : n ≤ btPageAlign n)
    (honce : ∀ x, cover ((p, btPageAlign n) :: pool.exts R blks) x ≤ 1) :
    ∃ pool' blks', btPagePoolFree R pool p n = some pool' ∧ PoolRep R pool' blks' ∧
      (∀ x, cover (pool'.exts R blks') x = cover ((p, btPageAlign n) :: pool.exts R blks) x) ∧
      (∀ va ∈ blks', (∃ w ∈ blks, pool'.stop R va = pool.stop R w) ∨
        pool'.stop R va = p + btPageAlign n ∧
          ∀ w ∈ blks.head?, R.virtToPhys w ≠ p + btPageAlign n) ∧
      pool'.totalSize = pool.totalSize ∧
      pool'.usedSize = (pool.usedSize + 2 ^ 32 - btPageAlign n) % 2 ^ 32 := by
  have hlt : p < 2 ^ 32 := by omega
  refine btPagePoolFree_spec hp hn hlt ⟨R.physToVirt_lt p, ?_, by omega, btPageAlign_mod n, ?_, ?_⟩
    honce
  · rw [R.physToVirt_mod]
    exact hpa
  · rw [R.virtToPhys_physToVirt hlt]
    exact hend
  · rw [R.virtToPhys_physToVirt hlt]
    exact hpos

theorem poolInv_attach {p n : ℕ} (hi : PoolInv R sys blks) (hok : (PoolOp.attach p n).Ok R sys) :
    ∃ sys' blks', (PoolOp.attach p n).step R sys = some sys' ∧ PoolInv R sys' blks' := by
  obtain ⟨hpa, hna, hend, hzero, hapart⟩ := hok
  have hcons : ∀ x, cover ((p, n) :: sys.attached) x ≤ 1 := fun x =>
    cover_le_one_of_pairwise_apart
      (List.pairwise_cons.mpr ⟨hapart, pairwise_apart_of_cover_le_one hi.once⟩)
  have hinside : ∀ e ∈ (p, n) :: sys.attached, e.1 + e.2 ≤ 2 ^ 32 := by
    intro e he
    rcases List.mem_cons.mp he with rfl | he
    · exact hend
    · exact hi.inside e he
  have hz : cover ((p, n) :: sys.attached) 0 = 0 := by
    rw [cover_cons, if_neg hzero, hi.zero]
  have hbound : n + totalSize sys.attached < 2 ^ 32 := totalSize_lt (by decide) hinside hcons hz
  have hused := hi.used
  have hsum := hi.sum_eq
  have htot := hi.total
  have hrep : PoolRep R { sys.pool with
      totalSize := (sys.pool.totalSize + n) % 2 ^ 32
      usedSize := (sys.pool.usedSize + n) % 2 ^ 32 } blks := hi.rep.congr rfl fun _ _ => rfl
  by_cases hn : n = 0
  · -- an empty region: `bt_page_pool_free` returns at once
    subst hn
    refine ⟨⟨_, (p, 0) :: sys.attached, sys.live⟩, blks, ?_,
      ⟨hrep, fun x => ?_, hcons, hinside, hz, hi.live_ok⟩, ?_, ?_⟩
    · simp only [PoolOp.step, btPagePoolAttach, btPagePoolFree, if_pos, Option.map_some]
    · rw [cover_empty]
      exact hi.tiled x
    · simp only [totalSize_cons]
      omega
    · change (sys.pool.usedSize + 0) % 2 ^ 32 = totalSize sys.liveExts
      omega
  · have hal : btPageAlign n = n := btPageAlign_of_aligned (by omega) hna
    have hppos : 0 < p := by
      by_contra hp0
      exact hzero (Extent.holds_mk.mpr ⟨by omega, by omega⟩)
    obtain ⟨pool', blks', hfree, hrep', hcov, -, htot', hused'⟩ :=
      free_back hrep hpa hppos hn (by omega) (by omega) fun x => by
        have h₁ := hi.tiled x
        have h₂ := hcons x
        rw [cover_cons] at h₂
        rw [hal, cover_cons]
        change cover (sys.pool.exts R blks) x + _ ≤ 1
        omega
    rw [hal] at hcov hused'
    refine ⟨⟨pool', (p, n) :: sys.attached, sys.live⟩, blks', ?_,
      ⟨hrep', fun x => ?_, hcons, hinside, hz, hi.live_ok⟩, ?_, ?_⟩
    · simp only [PoolOp.step, btPagePoolAttach, hfree, Option.map_some]
    · have h₁ := hi.tiled x
      simp only [hcov, cover_cons]
      change cover (sys.pool.exts R blks) x + _ + cover sys.liveExts x = _
      omega
    · simp only [htot', totalSize_cons]
      omega
    · simp only [hused']
      change _ = totalSize sys.liveExts
      omega

theorem poolInv_alloc {n order : ℕ} (hi : PoolInv R sys blks)
    (hok : (PoolOp.alloc n order).Ok R sys) :
    ∃ sys' blks', (PoolOp.alloc n order).step R sys = some sys' ∧ PoolInv R sys' blks' := by
  obtain ⟨hsz, hal⟩ := hok
  by_cases hn : n = 0
  · exact ⟨sys, blks, by simp [PoolOp.step, btPagePoolAlloc, hn], hi⟩
  · rcases btPagePoolAlloc_spec hi.rep hn hsz (hal blks hi.rep) with
      hfail | ⟨pa, pool', blks', halloc, hpa, hpal, hrep, hcov, -, htot, hused⟩
    · exact ⟨sys, blks, by simp [PoolOp.step, hfail], hi⟩
    · have hcov' : ∀ x, cover (pool'.exts R blks') x +
          cover ((pa, btPageAlign n) :: sys.liveExts) x = cover sys.attached x := by
        intro x
        have h₁ := hi.tiled x
        have h₂ := hcov x
        rw [cover_cons] at h₂ ⊢
        omega
      have htiled : PoolTiled R ⟨pool', sys.attached, (pa, n) :: sys.live⟩ blks' := by
        refine ⟨hrep, hcov', hi.once, hi.inside, hi.zero, fun e he => ?_⟩
        rcases List.mem_cons.mp he with rfl | he
        · exact ⟨hn, hsz, hpal⟩
        · exact hi.live_ok e he
      refine ⟨_, blks', ?_, htiled, htot.trans hi.total, ?_⟩
      · simp [PoolOp.step, halloc, hpa]
      · -- the live bytes stay below the attached ones, so the counter does not wrap
        have hsum : totalSize (pool'.exts R blks') + (btPageAlign n + totalSize sys.liveExts) =
          totalSize sys.attached := htiled.sum_eq
        have hlt := hi.total_lt
        have hu := hi.used
        change pool'.usedSize = btPageAlign n + totalSize sys.liveExts
        omega

/-- A live block can be given back: it is in order, and no free block meets it. -/
structure GivesBack (R : RamConfig) (pool : PagePool) (blks : List ℕ) (p n : ℕ) : Prop where
  /-- it is a run of whole pages -/
  aligned : p % 4096 = 0
  pos : 0 < p
  size : n ≠ 0
  /-- which ends within the physical memory -/
  stop : p + btPageAlign n ≤ 2 ^ 32
  /-- its size does not wrap when it is rounded up -/
  big : n ≤ btPageAlign n
  /-- and it holds nothing that is free -/
  once : ∀ x, cover ((p, btPageAlign n) :: pool.exts R blks) x ≤ 1

/-- The live blocks are one of them and the rest. -/
theorem liveExts_perm {p n : ℕ} (hmem : (p, n) ∈ sys.live) : sys.liveExts.Perm
    ((p, btPageAlign n) :: PoolSys.liveExts ⟨sys.pool, sys.attached, sys.live.erase (p, n)⟩) :=
  (List.perm_cons_erase hmem).map _

theorem PoolInv.givesBack {p n : ℕ} (hi : PoolInv R sys blks) (hmem : (p, n) ∈ sys.live) :
    GivesBack R sys.pool blks p n := by
  obtain ⟨hn, hsz, hpa⟩ : n ≠ 0 ∧ n + 4095 < 2 ^ 32 ∧ p % 4096 = 0 := hi.live_ok _ hmem
  obtain ⟨hppos, hend⟩ : 0 < p ∧ p + btPageAlign n ≤ 2 ^ 32 :=
    hi.live_block (List.mem_map_of_mem hmem) (hi.liveExts_pos (List.mem_map_of_mem hmem))
  refine ⟨hpa, hppos, hn, hend, (btPageAlign_of_lt hsz).2.1, fun x => ?_⟩
  have h₁ := hi.tiled x
  have h₂ := hi.once x
  rw [cover_perm (liveExts_perm hmem), cover_cons] at h₁
  rw [cover_cons]
  omega

theorem poolInv_free {p n : ℕ} (hi : PoolInv R sys blks) (hok : (PoolOp.free p n).Ok R sys) :
    ∃ sys' blks', (PoolOp.free p n).step R sys = some sys' ∧ PoolInv R sys' blks' := by
  have hmem : (p, n) ∈ sys.live := hok
  have hg := hi.givesBack hmem
  have hperm := liveExts_perm hmem
  have hlive : ∀ x, cover sys.liveExts x = cover ((p, btPageAlign n) ::
      PoolSys.liveExts ⟨sys.pool, sys.attached, sys.live.erase (p, n)⟩) x :=
    fun x => cover_perm hperm
  obtain ⟨pool', blks', hfree, hrep', hcov, -, htot', hused'⟩ :=
    free_back hi.rep hg.aligned hg.pos hg.size hg.stop hg.big hg.once
  refine ⟨⟨pool', sys.attached, sys.live.erase (p, n)⟩, blks', ?_,
    ⟨hrep', fun x => ?_, hi.once, hi.inside, hi.zero, fun e he => ?_⟩, htot'.trans hi.total, ?_⟩
  · simp only [PoolOp.step, hfree, Option.map_some]
  · have h₁ := hi.tiled x
    rw [hlive, cover_cons] at h₁
    simp only [hcov, cover_cons]
    change _ + cover (PoolSys.liveExts ⟨sys.pool, sys.attached, sys.live.erase (p, n)⟩) x = _
    omega
  · exact hi.live_ok e (List.mem_of_mem_erase he)
  · have hsum := hi.sum_eq
    have hu := hi.used
    have hlt := hi.total_lt
    have htl : totalSize sys.liveExts = btPageAlign n +
        totalSize (PoolSys.liveExts ⟨sys.pool, sys.attached, sys.live.erase (p, n)⟩) :=
      (hperm.map Prod.snd).sum_eq.trans (by simp [totalSize])
    change pool'.usedSize =
      totalSize (PoolSys.liveExts ⟨sys.pool, sys.attached, sys.live.erase (p, n)⟩)
    omega

/-- Whatever the owners store in their blocks, the headers of free blocks are
not among it. -/
theorem PoolInv.stored (hi : PoolInv R sys blks) (junk : PagePool) :
    PoolRep R (sys.stored R junk) blks ∧
      ∀ va ∈ blks, (sys.stored R junk).blkSize va = sys.pool.blkSize va := by
  have hfree : ∀ va ∈ blks, cover sys.liveExts (R.virtToPhys va) = 0 := by
    intro va hva
    have hin : 0 < cover (sys.pool.exts R blks) (R.virtToPhys va) :=
      cover_pos.mpr ⟨_, List.mem_map_of_mem hva,
        Extent.holds_mk.mpr ⟨le_refl _, by have := (hi.rep.block va hva).pos; omega⟩⟩
    have h₁ := hi.tiled (R.virtToPhys va)
    have h₂ := hi.once (R.virtToPhys va)
    omega
  have hsize : ∀ va ∈ blks, (sys.stored R junk).blkSize va = sys.pool.blkSize va := by
    intro va hva
    simp [PoolSys.stored, hfree va hva]
  refine ⟨⟨hi.rep.ring.congr ?_ ?_, fun va hva => ?_, fun x => ?_⟩, hsize⟩
  · intro c hc
    rcases List.mem_cons.mp hc with rfl | hc
    · simp [PoolSys.stored]
    · obtain ⟨va, hva, rfl⟩ := List.mem_map.mp hc
      simp [PoolSys.stored, hfree va hva]
  · intro c hc
    rcases List.mem_cons.mp hc with rfl | hc
    · simp [PoolSys.stored]
    · obtain ⟨va, hva, rfl⟩ := List.mem_map.mp hc
      simp [PoolSys.stored, hfree va hva]
  · rw [hsize va hva]
    exact hi.rep.block va hva
  · rw [PagePool.exts_congr hsize]
    exact hi.rep.once x

theorem poolInv_store (junk : PagePool) (hi : PoolInv R sys blks) :
    ∃ sys' blks', (PoolOp.store junk).step R sys = some sys' ∧ PoolInv R sys' blks' := by
  obtain ⟨hrep, hsize⟩ := hi.stored junk
  refine ⟨_, blks, rfl, ⟨hrep, fun x => ?_, hi.once, hi.inside, hi.zero, hi.live_ok⟩,
    hi.total, hi.used⟩
  rw [PagePool.exts_congr hsize]
  exact hi.tiled x

/-- One operation of a well-behaved caller comes back and keeps the invariant. -/
theorem poolInv_step (hi : PoolInv R sys blks) (op : PoolOp) (hok : op.Ok R sys) :
    ∃ sys' blks', op.step R sys = some sys' ∧ PoolInv R sys' blks' := by
  cases op with
  | attach p n => exact poolInv_attach hi hok
  | alloc n order => exact poolInv_alloc hi hok
  | free p n => exact poolInv_free hi hok
  | store junk => exact poolInv_store junk hi

/-- The invariant holds in every reachable state. -/
theorem poolInv_reach (h : PoolReach R sys) : ∃ blks, PoolInv R sys blks := by
  induction h with
  | init pool => exact ⟨[], poolInv_init pool⟩
  | step _ hok hs ih =>
    obtain ⟨blks, hi⟩ := ih
    obtain ⟨sys', blks', hs', hi'⟩ := poolInv_step hi _ hok
    obtain rfl := Option.some.inj (hs.symm.trans hs')
    exact ⟨blks', hi'⟩

/-- **No page is handed out twice or lost.** In every reachable state the free
list is a well-formed ring of page-aligned, non-empty, page-multiple blocks; free
blocks and live allocations are pairwise disjoint and hold exactly the attached
bytes; free bytes and `used_size` add up to `total_size`; and every further
operation of a well-behaved caller returns. -/
theorem page_pool_tiled (h : PoolReach R sys) :
    (∃ blks, Ring sys.pool.list .poolHead (blks.map .page) ∧
      (∀ va ∈ blks, va % 4096 = 0 ∧ R.virtToPhys va % 4096 = 0 ∧ 0 < sys.pool.blkSize va ∧
        sys.pool.blkSize va % 4096 = 0) ∧
      (sys.pool.exts R blks ++ sys.liveExts).Pairwise Extent.Apart ∧
      (∀ x, (∃ e ∈ sys.pool.exts R blks ++ sys.liveExts, e.Holds x) ↔
        ∃ e ∈ sys.attached, e.Holds x) ∧
      totalSize (sys.pool.exts R blks) + sys.pool.usedSize = sys.pool.totalSize) ∧
    ∀ op : PoolOp, op.Ok R sys → ∃ sys', op.step R sys = some sys' := by
  obtain ⟨blks, hi⟩ := poolInv_reach h
  have hcov : ∀ x, cover (sys.pool.exts R blks ++ sys.liveExts) x = cover sys.attached x := by
    intro x
    rw [cover_append]
    exact hi.tiled x
  refine ⟨⟨blks, hi.rep.ring, fun va hva => ?_, ?_, fun x => ?_, ?_⟩, fun op hok => ?_⟩
  · have hb := hi.rep.block va hva
    exact ⟨hb.aligned, hb.phys_aligned, hb.pos, hb.size_aligned⟩
  · exact pairwise_apart_of_cover_le_one fun x => (hcov x).trans_le (hi.once x)
  · rw [← cover_pos, ← cover_pos, hcov]
  · rw [hi.used, hi.total]
    exact hi.sum_eq
  · obtain ⟨sys', -, hs, -⟩ := poolInv_step hi op hok
    exact ⟨sys', hs⟩

/-- A run: four pages are attached, and two of them are handed out. -/
theorem page_pool_tiled_four_pages : ∃ sys, PoolReach identityRam sys ∧
    sys.attached = [(0x1000, 0x4000)] ∧ sys.live = [(0x1000, 5000)] ∧
    ∃ blks, Ring sys.pool.list .poolHead (blks.map .page) ∧
      (sys.pool.exts identityRam blks ++ sys.liveExts).Pairwise Extent.Apart ∧
      totalSize (sys.pool.exts identityRam blks) + sys.pool.usedSize = sys.pool.totalSize := by
  have heval : ((PoolOp.attach 0x1000 0x4000).step identityRam
      ⟨btPagePoolInit ⟨⟨id, id⟩, fun _ => 0, 0, 0⟩, [], []⟩).bind (fun s₁ =>
        ((PoolOp.alloc 5000 0).step identityRam s₁).map fun s₂ => (s₂.attached, s₂.live)) =
      some ([(0x1000, 0x4000)], [(0x1000, 5000)]) := by decide +kernel
  obtain ⟨s₁, hs₁, heval⟩ := Option.bind_eq_some_iff.mp heval
  obtain ⟨s₂, hs₂, hend⟩ := Option.map_eq_some_iff.mp heval
  obtain ⟨hatt, hlive⟩ := Prod.mk.inj hend
  have hattach : (PoolOp.attach 0x1000 0x4000).Ok identityRam
      ⟨btPagePoolInit ⟨⟨id, id⟩, fun _ => 0, 0, 0⟩, [], []⟩ :=
    ⟨by decide, by decide, by decide, by decide, fun e he => absurd he List.not_mem_nil⟩
  have halloc : (PoolOp.alloc 5000 0).Ok identityRam s₁ := ⟨by decide, fun _ _ => .inl rfl⟩
  have h₁ := (PoolReach.init (R := identityRam) ⟨⟨id, id⟩, fun _ => 0, 0, 0⟩).step hattach hs₁
  have h₂ := h₁.step halloc hs₂
  obtain ⟨blks, hring, -, hapart, -, hsum⟩ := (page_pool_tiled h₂).1
  exact ⟨s₂, h₂, hatt, hlive, blks, hring, hapart, hsum⟩

end BitThunder
