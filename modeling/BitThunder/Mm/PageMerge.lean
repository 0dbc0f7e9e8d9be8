import BitThunder.Mm.PageRun

/-!
# Fragmentation of the page pool

Whether the free list falls apart into pieces. `bt_page_pool_free` looks for the
place where the block belongs, and then puts it at the front of the list whatever
it found: the block can only ever be merged with the block that happened to be at
the front before.

* `coalesced_step`: what one operation does to a list without adjacent blocks;
* `page_pool_recovers`: as long as every block that is freed has no free neighbour
  below, and none above but the front of the list, no two free blocks are adjacent,
  and when everything has been freed the region is one block again.

When a block is put at the front of the list, the merge looks at one neighbour in the list only, and
that neighbour is the former front. If the block has a free neighbour in memory that is elsewhere in
the list, two adjacent free blocks stay apart from then on, since nothing ever sorts or sweeps the
list. Conversely, a block that has no free neighbour below, and none above but the front, is merged
with all that it can be merged with.

Allocation does no harm: the pieces that are left of a block have the allocated pages between them.
So the condition on the frees is all that is needed, and by induction no two free blocks are
adjacent. When everything is free, a tiling of one region without adjacent pieces has one piece.
-/

namespace BitThunder

variable {R : RamConfig} {pool : PagePool} {sys : PoolSys} {blks : List ℕ}

/-- No free block begins where another one ends. -/
def Coalesced (R : RamConfig) (pool : PagePool) (blks : List ℕ) : Prop :=
  ∀ va ∈ blks, ∀ w ∈ blks, pool.stop R va ≠ R.virtToPhys w

/-- A byte right behind an extent that is held by another extent is its first. -/
theorem start_of_holds {e : Extent} {es : List Extent} {a n : ℕ} (hn : 0 < n)
    (honce : ∀ x, cover ((a, n) :: es) x ≤ 1) (he : e ∈ es) (hx : e.Holds (a + n)) :
    e.1 = a + n := by
  by_contra hne
  have hlast : e.Holds (a + n - 1) := ⟨by have := hx.1; omega, by have := hx.2; omega⟩
  have h₁ : 0 < cover es (a + n - 1) := cover_pos.mpr ⟨e, he, hlast⟩
  have h₂ := honce (a + n - 1)
  rw [cover_cons, if_pos (Extent.holds_mk.mpr ⟨by omega, by omega⟩)] at h₂
  omega

/-- On a well-formed pool the two readings of "no two free blocks are adjacent"
agree. -/
theorem PoolRep.coalesced_iff (hp : PoolRep R pool blks) :
    Coalesced R pool blks ↔ ∀ va ∈ blks, cover (pool.exts R blks) (pool.stop R va) = 0 := by
  constructor
  · intro h va hva
    by_contra hne
    obtain ⟨e, he, hx⟩ := cover_pos.mp (Nat.pos_of_ne_zero hne)
    obtain ⟨as, bs, rfl⟩ := List.append_of_mem hva
    obtain ⟨-, hcov⟩ := hp.remove
    have hpos := (hp.block va hva).pos
    -- the byte behind a block is not in the block
    have he' : e ∈ pool.exts R (as ++ bs) := by
      rw [PagePool.exts_append, PagePool.exts_cons] at he
      rcases List.mem_cons.mp (List.perm_middle.mem_iff.mp he) with rfl | he'
      · have := hx.2
        simp only [PagePool.ext, PagePool.stop] at this
        omega
      · rw [PagePool.exts_append]
        exact he'
    have hstart : e.1 = pool.stop R va := start_of_holds hpos
      (fun x => (hcov x).symm.trans_le (hp.once x)) he' hx
    obtain ⟨w, hw, rfl⟩ := List.mem_map.mp he'
    exact h va hva w (List.perm_middle.mem_iff.mpr (List.mem_cons_of_mem _ hw)) hstart.symm
  · intro h va hva w hw heq
    have hpos := (hp.block w hw).pos
    have hin : 0 < cover (pool.exts R blks) (pool.stop R va) := by
      refine cover_pos.mpr ⟨pool.ext R w, List.mem_map_of_mem hw, ?_⟩
      rw [heq]
      exact Extent.holds_mk.mpr ⟨le_refl _, by omega⟩
    have := h va hva
    omega

/-- Allocating never makes two free blocks adjacent: what is left of the block it
comes from is kept apart by it. -/
theorem coalesced_alloc {pool' : PagePool} {blks' : List ℕ} {pa n : ℕ} (hp : PoolRep R pool blks)
    (hp' : PoolRep R pool' blks') (hc : Coalesced R pool blks) (hn : 0 < n)
    (hcov : ∀ x, cover ((pa, n) :: pool'.exts R blks') x = cover (pool.exts R blks) x)
    (hstop : ∀ va ∈ blks', pool'.stop R va = pa ∨ ∃ w ∈ blks, pool'.stop R va = pool.stop R w) :
    Coalesced R pool' blks' := by
  rw [hp.coalesced_iff] at hc
  rw [hp'.coalesced_iff]
  intro va hva
  rcases hstop va hva with heq | ⟨w, hw, heq⟩
  · have h₁ := hcov pa
    have h₂ := hp.once pa
    rw [cover_cons, if_pos (Extent.holds_mk.mpr ⟨le_refl _, by omega⟩)] at h₁
    rw [heq]
    omega
  · have h₁ := hcov (pool.stop R w)
    rw [hc w hw, cover_cons] at h₁
    rw [heq]
    omega

/-- Freeing makes no two blocks adjacent if the block has no free neighbour below,
and none above but the front of the list. -/
theorem coalesced_free {pool' : PagePool} {blks' : List ℕ} {p n : ℕ} (hp : PoolRep R pool blks)
    (hp' : PoolRep R pool' blks') (hc : Coalesced R pool blks) (hn : 0 < n)
    (honce : ∀ x, cover ((p, n) :: pool.exts R blks) x ≤ 1)
    (hcov : ∀ x, cover (pool'.exts R blks') x = cover ((p, n) :: pool.exts R blks) x)
    (hstop : ∀ va ∈ blks', (∃ w ∈ blks, pool'.stop R va = pool.stop R w) ∨
      pool'.stop R va = p + n ∧ ∀ w ∈ blks.head?, R.virtToPhys w ≠ p + n)
    (hbelow : ∀ w ∈ blks, pool.stop R w ≠ p) (habove : ∀ w ∈ blks.tail, R.virtToPhys w ≠ p + n) :
    Coalesced R pool' blks' := by
  rw [hp.coalesced_iff] at hc
  rw [hp'.coalesced_iff]
  intro va hva
  rcases hstop va hva with ⟨w, hw, heq⟩ | ⟨heq, hfront⟩
  · -- the end of an old block: only the block given back could begin there
    rw [heq, hcov, cover_cons, hc w hw, zero_add, if_neg]
    rintro ⟨hle, hlt⟩
    have hpos := (hp.block w hw).pos
    have hne := hbelow w hw
    have hle : p < pool.stop R w := lt_of_le_of_ne hle hne.symm
    have h₁ : 0 < cover (pool.exts R blks) (pool.stop R w - 1) := by
      refine cover_pos.mpr ⟨pool.ext R w, List.mem_map_of_mem hw, ?_⟩
      simp only [PagePool.ext, PagePool.stop, Extent.holds_mk]
      omega
    have h₂ := honce (pool.stop R w - 1)
    rw [cover_cons, if_pos (Extent.holds_mk.mpr ⟨by omega, by simp only at hlt; omega⟩)] at h₂
    omega
  · rw [heq, hcov, cover_cons, if_neg (by rw [Extent.holds_mk]; omega), Nat.add_zero]
    by_contra hne
    obtain ⟨e, he, hx⟩ := cover_pos.mp (Nat.pos_of_ne_zero hne)
    have hstart := start_of_holds hn honce he hx
    obtain ⟨w, hw, rfl⟩ := List.mem_map.mp he
    cases blks with
    | nil => simp at hw
    | cons b bs =>
      rcases List.mem_cons.mp hw with rfl | hw
      · exact hfront w (by simp) hstart
      · exact habove w hw hstart

/-! ## Runs on one region -/

/-- The block that is freed has no free neighbour below, and none above but the
front of the free list. -/
def FreesBehindFront (R : RamConfig) (sys : PoolSys) : PoolOp → Prop
  | .free p n => ∀ blks, PoolRep R sys.pool blks →
      (∀ w ∈ blks, sys.pool.stop R w ≠ p) ∧ ∀ w ∈ blks.tail, R.virtToPhys w ≠ p + btPageAlign n
  | _ => True

/-- A region, attached to an empty pool: page-aligned, not empty, below `2 ^ 32` and
without physical address `0`. -/
structure RegionOk (p n : ℕ) : Prop where
  /-- it begins with a page -/
  addr : p % 4096 = 0
  /-- it is made of pages -/
  size : n % 4096 = 0
  pos : 0 < n
  stop : p + n ≤ 2 ^ 32
  /-- and does not begin at address zero -/
  zero : 0 < p

/-- The states of a pool with one region, after allocations and frees that all
satisfy `ok`, and stores of the owners into their blocks. -/
inductive RegionReach (R : RamConfig) (p n : ℕ) (ok : PoolSys → PoolOp → Prop) :
    PoolSys → Prop where
  | attach {pool : PagePool} {sys : PoolSys} :
      (PoolOp.attach p n).step R ⟨btPagePoolInit pool, [], []⟩ = some sys →
      RegionReach R p n ok sys
  | alloc {sys sys' : PoolSys} {m order : ℕ} : RegionReach R p n ok sys →
      (PoolOp.alloc m order).Ok R sys → (PoolOp.alloc m order).step R sys = some sys' →
      RegionReach R p n ok sys'
  | free {sys sys' : PoolSys} {q m : ℕ} : RegionReach R p n ok sys → (q, m) ∈ sys.live →
      ok sys (.free q m) → (PoolOp.free q m).step R sys = some sys' → RegionReach R p n ok sys'
  | store {sys sys' : PoolSys} {junk : PagePool} : RegionReach R p n ok sys →
      (PoolOp.store junk).step R sys = some sys' → RegionReach R p n ok sys'

/-- The invariant of these runs. -/
structure RegionInv (R : RamConfig) (p n : ℕ) (sys : PoolSys) (blks : List ℕ) : Prop
    extends PoolInv R sys blks where
  /-- this is the only region -/
  region : sys.attached = [(p, n)]
  /-- no two free blocks touch -/
  coalesced : Coalesced R sys.pool blks

/-- A region within the RAM may be attached to an empty pool. -/
theorem RegionOk.attach_ok {p n : ℕ} (h : RegionOk p n) (pool : PagePool) :
    (PoolOp.attach p n).Ok R ⟨btPagePoolInit pool, [], []⟩ := by
  refine ⟨h.addr, h.size, h.stop, ?_, by simp⟩
  rw [Extent.holds_mk]
  have := h.zero
  omega

/-- Giving a block back, on the lists the pools run through. -/
theorem coalesced_of_free {pool' : PagePool} {blks' : List ℕ} {p n : ℕ} (hp : PoolRep R pool blks)
    (hg : GivesBack R pool blks p n) (hc : Coalesced R pool blks)
    (hbelow : ∀ w ∈ blks, pool.stop R w ≠ p)
    (habove : ∀ w ∈ blks.tail, R.virtToPhys w ≠ p + btPageAlign n)
    (hfree : btPagePoolFree R pool p n = some pool') (hp' : PoolRep R pool' blks') :
    Coalesced R pool' blks' := by
  obtain ⟨pool₁, blks₁, hfree₁, hp₁, hcov, hstop, -⟩ :=
    free_back hp hg.aligned hg.pos hg.size hg.stop hg.big hg.once
  obtain rfl := Option.some.inj (hfree.symm.trans hfree₁)
  obtain rfl := hp'.unique hp₁
  have hpos : 0 < btPageAlign n := lt_of_lt_of_le (Nat.pos_of_ne_zero hg.size) hg.big
  exact coalesced_free hp hp' hc hpos hg.once hcov hstop hbelow habove

theorem regionInv_attach {p n : ℕ} (h : RegionOk p n)
    (hs : (PoolOp.attach p n).step R ⟨btPagePoolInit pool, [], []⟩ = some sys) :
    ∃ blks, RegionInv R p n sys blks := by
  obtain ⟨sys', blks, hs', hi⟩ := poolInv_attach (poolInv_init pool) (h.attach_ok pool)
  obtain rfl := Option.some.inj (hs.symm.trans hs')
  simp only [PoolOp.step, Option.map_eq_some_iff] at hs
  obtain ⟨pool', hfree, rfl⟩ := hs
  refine ⟨blks, hi, rfl, ?_⟩
  have hal : btPageAlign n = n := by
    have := h.stop
    have := h.zero
    exact btPageAlign_of_aligned (by omega) h.size
  have hrep : PoolRep R { btPagePoolInit pool with
      totalSize := ((btPagePoolInit pool).totalSize + n) % 2 ^ 32
      usedSize := ((btPagePoolInit pool).usedSize + n) % 2 ^ 32 } [] :=
    (poolInv_init pool).rep.congr rfl fun _ _ => rfl
  refine coalesced_of_free hrep ⟨h.addr, h.zero, h.pos.ne', hal.symm ▸ h.stop, hal.ge, fun x => ?_⟩
    (by simp [Coalesced]) (by simp) (by simp) hfree hi.rep
  rw [PagePool.exts_nil, cover_cons, cover_nil]
  split <;> omega

/-- A block that is freed behind the front is merged with both neighbours. -/
theorem regionInv_free {p n q m : ℕ} {sys' : PoolSys} (hi : RegionInv R p n sys blks)
    (hmem : (q, m) ∈ sys.live) (hok : FreesBehindFront R sys (.free q m))
    (hs : (PoolOp.free q m).step R sys = some sys') : ∃ blks', RegionInv R p n sys' blks' := by
  obtain ⟨sys₁, blks', hs₁, hi'⟩ := poolInv_free hi.toPoolInv hmem
  obtain rfl := Option.some.inj (hs.symm.trans hs₁)
  simp only [PoolOp.step, Option.map_eq_some_iff] at hs
  obtain ⟨pool', hfree, rfl⟩ := hs
  obtain ⟨hbelow, habove⟩ := hok blks hi.rep
  exact ⟨blks', hi', hi.region, coalesced_of_free hi.rep (hi.givesBack hmem) hi.coalesced hbelow
    habove hfree hi'.rep⟩

theorem regionInv_alloc {p n m order : ℕ} {sys' : PoolSys} (hi : RegionInv R p n sys blks)
    (hok : (PoolOp.alloc m order).Ok R sys) (hs : (PoolOp.alloc m order).step R sys = some sys') :
    ∃ blks', RegionInv R p n sys' blks' := by
  obtain ⟨sys₁, blks', hs₁, hi'⟩ := poolInv_alloc hi.toPoolInv hok
  obtain rfl := Option.some.inj (hs.symm.trans hs₁)
  simp only [PoolOp.step, Option.map_eq_some_iff] at hs
  obtain ⟨⟨pa, pool'⟩, halloc, rfl⟩ := hs
  refine ⟨blks', hi', hi.region, ?_⟩
  -- a pool that is not touched keeps its list
  have hsame : pool' = sys.pool → Coalesced R pool' blks' := by
    intro he
    have hrep : PoolRep R sys.pool blks' := he ▸ hi'.rep
    rw [he, hrep.unique hi.rep]
    exact hi.coalesced
  by_cases hm : m = 0
  · rw [btPagePoolAlloc, if_pos hm] at halloc
    exact hsame (Prod.mk.inj (Option.some.inj halloc)).2.symm
  · obtain ⟨hsz, hal⟩ := hok
    rcases btPagePoolAlloc_spec hi.rep hm hsz (hal blks hi.rep) with
      hfail | ⟨pa', pool₁, blks₁, halloc₁, -, -, hrep, hcov, hstop, -⟩
    · exact hsame (Prod.mk.inj (Option.some.inj (halloc.symm.trans hfail))).2
    · obtain ⟨rfl, rfl⟩ := Prod.mk.inj (Option.some.inj (halloc.symm.trans halloc₁))
      obtain rfl : blks' = blks₁ := PoolRep.unique hi'.rep hrep
      have hpos : 0 < btPageAlign m := by
        have := (btPageAlign_of_lt hsz).2.1
        omega
      exact coalesced_alloc hi.rep hrep hi.coalesced hpos hcov hstop

theorem regionInv_store {p n : ℕ} {junk : PagePool} {sys' : PoolSys} (hi : RegionInv R p n sys blks)
    (hs : (PoolOp.store junk).step R sys = some sys') : ∃ blks', RegionInv R p n sys' blks' := by
  obtain ⟨sys₁, blks', hs₁, hi'⟩ := poolInv_store junk hi.toPoolInv
  obtain rfl := Option.some.inj (hs.symm.trans hs₁)
  obtain rfl := Option.some.inj hs
  obtain ⟨hrep, hsize⟩ := hi.stored junk
  obtain rfl : blks' = blks := PoolRep.unique hi'.rep hrep
  refine ⟨blks', hi', hi.region, fun va hva w hw => ?_⟩
  have hstop : PagePool.stop R (sys.stored R junk) va = sys.pool.stop R va := by
    rw [PagePool.stop, PagePool.stop, hsize va hva]
  change PagePool.stop R (sys.stored R junk) va ≠ _
  rw [hstop]
  exact hi.coalesced va hva w hw

theorem regionInv_reach {p n : ℕ} (hr : RegionOk p n)
    (h : RegionReach R p n (FreesBehindFront R) sys) : ∃ blks, RegionInv R p n sys blks := by
  induction h with
  | attach hs => exact regionInv_attach hr hs
  | alloc _ hok hs ih =>
    obtain ⟨blks, hi⟩ := ih
    exact regionInv_alloc hi hok hs
  | free _ hmem hok hs ih =>
    obtain ⟨blks, hi⟩ := ih
    exact regionInv_free hi hmem hok hs
  | store _ hs ih =>
    obtain ⟨blks, hi⟩ := ih
    exact regionInv_store hi hs

/-- A region that is all free and not in pieces is one block. -/
theorem RegionInv.whole {p n : ℕ} (hr : RegionOk p n) (hi : RegionInv R p n sys blks)
    (hlive : sys.live = []) : ∃ va, blks = [va] ∧ R.virtToPhys va = p ∧
      sys.pool.blkSize va = n := by
  have hcov : ∀ x, cover (sys.pool.exts R blks) x = cover [(p, n)] x := by
    intro x
    have h := hi.tiled x
    rw [PoolSys.liveExts, hlive, List.map_nil, cover_nil, Nat.add_zero, hi.region] at h
    exact h
  have hin : ∀ va ∈ blks, ∀ d < sys.pool.blkSize va,
      p ≤ R.virtToPhys va + d ∧ R.virtToPhys va + d < p + n := by
    intro va hva d hd
    have h₁ : 0 < cover (sys.pool.exts R blks) (R.virtToPhys va + d) :=
      cover_pos.mpr ⟨_, List.mem_map_of_mem hva, by
        simp only [PagePool.ext, Extent.holds_mk]
        omega⟩
    rw [hcov] at h₁
    obtain ⟨e, he, hx⟩ := cover_pos.mp h₁
    obtain rfl := List.mem_singleton.mp he
    exact hx
  have hheld : ∀ x, p ≤ x → x < p + n → ∃ va ∈ blks,
      R.virtToPhys va ≤ x ∧ x < R.virtToPhys va + sys.pool.blkSize va := by
    intro x h₁ h₂
    have hx : 0 < cover (sys.pool.exts R blks) x := by
      rw [hcov]
      exact cover_pos.mpr ⟨_, List.mem_singleton_self _, h₁, h₂⟩
    obtain ⟨e, he, hx⟩ := cover_pos.mp hx
    obtain ⟨va, hva, rfl⟩ := List.mem_map.mp he
    exact ⟨va, hva, hx⟩
  -- every block reaches to the end of the region, and so there is only one
  have hstop : ∀ va ∈ blks, R.virtToPhys va + sys.pool.blkSize va = p + n := by
    intro va hva
    have hpos := (hi.rep.block va hva).pos
    have hlast := hin va hva (sys.pool.blkSize va - 1) (by omega)
    by_contra hne
    obtain ⟨w, hw, hle, hlt⟩ := hheld (R.virtToPhys va + sys.pool.blkSize va) (by omega) (by omega)
    have hzero := hi.rep.coalesced_iff.mp hi.coalesced va hva
    have hone : 0 < cover (sys.pool.exts R blks) (sys.pool.stop R va) :=
      cover_pos.mpr ⟨_, List.mem_map_of_mem hw, hle, hlt⟩
    omega
  have hone : ∀ va ∈ blks, ∀ w ∈ blks, R.virtToPhys va ≤ R.virtToPhys w → va = w := by
    intro va hva w hw hle
    by_contra hne
    obtain ⟨as, bs, rfl⟩ := List.append_of_mem hva
    have hrest : w ∈ as ++ bs := by
      rcases List.mem_cons.mp (List.perm_middle.mem_iff.mp hw) with rfl | h
      · exact absurd rfl hne
      · exact h
    have h₁ := hstop va hva
    have h₂ := hstop w hw
    have hpos := (hi.rep.block w hw).pos
    have hz : cover (sys.pool.exts R (as ++ bs)) (R.virtToPhys w) = 0 :=
      hi.rep.cover_rest ⟨hle, by simp only [PagePool.ext]; omega⟩
    have hin' : 0 < cover (sys.pool.exts R (as ++ bs)) (R.virtToPhys w) :=
      cover_pos.mpr ⟨_, List.mem_map_of_mem hrest, Extent.holds_mk.mpr ⟨le_refl _, by omega⟩⟩
    omega
  obtain ⟨va, hva, hle, -⟩ := hheld p (le_refl _) (by have := hr.pos; omega)
  have hpos := (hi.rep.block va hva).pos
  have hge := (hin va hva 0 hpos).1
  have hend := hstop va hva
  refine ⟨va, ?_, by omega, by omega⟩
  have hsub : ∀ w ∈ blks, w = va := by
    intro w hw
    have hw₁ := (hin w hw 0 (hi.rep.block w hw).pos).1
    exact (hone va hva w hw (by omega)).symm
  cases blks with
  | nil => simp at hva
  | cons b bs =>
    obtain rfl := hsub b (by simp)
    cases bs with
    | nil => rfl
    | cons c cs =>
      have hc := hsub c (by simp)
      subst hc
      exact absurd hi.rep.nodup (by simp)

/-- The one block of a whole region is handed out for the whole region. -/
theorem RegionInv.alloc_whole {p n : ℕ} (hr : RegionOk p n) (hi : RegionInv R p n sys blks)
    (hlive : sys.live = []) (hnull : R.physToVirt p ≠ 0) :
    ∃ pool', btPagePoolAlloc R sys.pool n 0 = some (p, pool') := by
  obtain ⟨va, rfl, hphys, hsize⟩ := hi.whole hr hlive
  have hok := hi.rep.block va (by simp)
  have hva : va = R.physToVirt p := by
    refine R.virtToPhys_inj hok.va_lt (R.physToVirt_lt p) ?_
    rw [hphys, R.virtToPhys_physToVirt (by have := hr.stop; have := hr.pos; omega)]
  have hal : btPageAlign n = n := by
    have := hr.stop
    have := hr.zero
    exact btPageAlign_of_aligned (by omega) hr.size
  have hsearch := hi.rep.ring.search hi.rep.length_le (sys.pool.fits n 0)
  have hfind : ([va].map PageCell.page).find? (sys.pool.fits n 0) = some (.page va) := by
    simp [PagePool.fits, hsize]
  rw [hfind] at hsearch
  refine ⟨(takeFront sys.pool va n).setUsed ((sys.pool.usedSize + n) % 2 ^ 32), ?_⟩
  rw [btPagePoolAlloc, if_neg hr.pos.ne']
  simp only [hal, hsearch, if_true, if_neg (hva ▸ hnull), Nat.add_zero,
    Nat.mod_eq_of_lt hok.va_lt, hphys, takeFront_usedSize]

/-- **The page pool recovers from fragmentation, if blocks are freed behind the front
of its list.** Whatever was allocated from a region, with whatever alignment, and in
whatever order it is freed, stores of the owners included: if every block that is
freed has no free neighbour below and none above but the front of the free list, then
in every state no two free blocks are adjacent, and when everything is free the whole
region can be allocated at once. -/
theorem page_pool_recovers {p n : ℕ} (hr : RegionOk p n)
    (h : RegionReach R p n (FreesBehindFront R) sys) :
    (∃ blks, Ring sys.pool.list .poolHead (blks.map .page) ∧ Coalesced R sys.pool blks) ∧
    (sys.live = [] → R.physToVirt p ≠ 0 →
      ∃ pool', btPagePoolAlloc R sys.pool n 0 = some (p, pool')) := by
  obtain ⟨blks, hi⟩ := regionInv_reach hr h
  exact ⟨⟨blks, hi.rep.ring, hi.coalesced⟩, hi.alloc_whole hr⟩

/-- The blocks of the free list are those that its forward pointers visit. -/
theorem PoolRep.blks_eq {cs : List ℕ} (hp : PoolRep R pool blks)
    (h : Follows pool.list.next .poolHead (cs.map .page) .poolHead) : blks = cs := by
  have hno (ds : List ℕ) : PageCell.poolHead ∉ ds.map PageCell.page := by simp
  exact List.map_injective_iff.mpr (fun _ _ => PageCell.page.inj)
    (hp.ring.fwd.unique h (hno blks) (hno cs))

/-- A run: both pages of a region are allocated, and freed from above. Each block that is freed lies
below all that is free, and in the end the region can be allocated at once. -/
theorem page_pool_recovers_two_pages : ∃ sys,
    RegionReach identityRam 0x1000 0x2000 (FreesBehindFront identityRam) sys ∧ sys.live = [] ∧
      (∃ blks, Ring sys.pool.list .poolHead (blks.map .page) ∧ Coalesced identityRam sys.pool blks)
        ∧
      ∃ pool', btPagePoolAlloc identityRam sys.pool 0x2000 0 = some (0x1000, pool') := by
  have hr : RegionOk 0x1000 0x2000 := ⟨by decide, by decide, by decide, by decide, by decide⟩
  have heval : ((PoolOp.attach 0x1000 0x2000).step identityRam
      ⟨btPagePoolInit ⟨⟨id, id⟩, fun _ => 0, 0, 0⟩, [], []⟩).bind (fun s₁ =>
        ((PoolOp.alloc 4096 0).step identityRam s₁).bind fun s₂ =>
          ((PoolOp.alloc 4096 0).step identityRam s₂).bind fun s₃ =>
            ((PoolOp.free 0x2000 4096).step identityRam s₃).bind fun s₄ =>
              ((PoolOp.free 0x1000 4096).step identityRam s₄).map fun s₅ =>
                ([s₃.live, s₄.live, s₅.live], [s₃.pool.list.next .poolHead,
                  s₄.pool.list.next .poolHead, s₄.pool.list.next (.page 0x2000)],
                  s₄.pool.blkSize 0x2000)) =
      some ([[(0x2000, 4096), (0x1000, 4096)], [(0x1000, 4096)], []],
        [.poolHead, .page 0x2000, .poolHead], 4096) := by decide +kernel
  obtain ⟨s₁, hs₁, heval⟩ := Option.bind_eq_some_iff.mp heval
  obtain ⟨s₂, hs₂, heval⟩ := Option.bind_eq_some_iff.mp heval
  obtain ⟨s₃, hs₃, heval⟩ := Option.bind_eq_some_iff.mp heval
  obtain ⟨s₄, hs₄, heval⟩ := Option.bind_eq_some_iff.mp heval
  obtain ⟨s₅, hs₅, hend⟩ := Option.map_eq_some_iff.mp heval
  simp only [Prod.mk.injEq, List.cons.injEq, and_true] at hend
  obtain ⟨⟨hl₃, hl₄, hl₅⟩, ⟨hn₃, hn₄, hn₄'⟩, hb₄⟩ := hend
  have h₁ : RegionReach identityRam 0x1000 0x2000 (FreesBehindFront identityRam) s₁ := .attach hs₁
  have h₂ := h₁.alloc ⟨by decide, fun _ _ => .inl rfl⟩ hs₂
  have h₃ := h₂.alloc ⟨by decide, fun _ _ => .inl rfl⟩ hs₃
  -- nothing is free when the upper page is freed, and only that page when the lower one is
  have hok₃ : FreesBehindFront identityRam s₃ (.free 0x2000 4096) := fun blks hp => by
    obtain rfl : blks = [] := hp.blks_eq hn₃
    exact ⟨fun _ h => absurd h List.not_mem_nil, fun _ h => absurd h List.not_mem_nil⟩
  have h₄ := h₃.free (hl₃ ▸ by simp) hok₃ hs₄
  have hok₄ : FreesBehindFront identityRam s₄ (.free 0x1000 4096) := fun blks hp => by
    obtain rfl : blks = [0x2000] := hp.blks_eq ⟨hn₄, hn₄'⟩
    refine ⟨List.forall_mem_singleton.mpr ?_, fun _ h => absurd h List.not_mem_nil⟩
    rw [PagePool.stop, hb₄]
    decide
  have h₅ := h₄.free (hl₄ ▸ by simp) hok₄ hs₅
  obtain ⟨hlist, hwhole⟩ := page_pool_recovers hr h₅
  exact ⟨s₅, h₅, hl₅, hlist, hwhole hl₅ (by decide)⟩

/-- Two pages, allocated one by one and freed from below: the second block goes to the
front of the list, where the first is no longer a neighbour that is looked at. Both
are free, and a request for two pages fails. -/
theorem page_pool_stays_fragmented : ∃ sys,
    RegionReach identityRam 0x1000 0x2000 (fun _ _ => True) sys ∧ sys.live = [] ∧
      (btPagePoolAlloc identityRam sys.pool 0x2000 0).map Prod.fst = some 0 := by
  have heval : ((PoolOp.attach 0x1000 0x2000).step identityRam
      ⟨btPagePoolInit ⟨⟨id, id⟩, fun _ => 0, 0, 0⟩, [], []⟩).bind (fun s₁ =>
        ((PoolOp.alloc 4096 0).step identityRam s₁).bind fun s₂ =>
          ((PoolOp.alloc 4096 0).step identityRam s₂).bind fun s₃ =>
            ((PoolOp.free 0x1000 4096).step identityRam s₃).bind fun s₄ =>
              ((PoolOp.free 0x2000 4096).step identityRam s₄).bind fun s₅ =>
                (btPagePoolAlloc identityRam s₅.pool 0x2000 0).map fun r =>
                  (s₃.live, s₄.live, s₅.live, r.1)) =
      some ([(0x2000, 4096), (0x1000, 4096)], [(0x2000, 4096)], [], 0) := by decide +kernel
  obtain ⟨s₁, hs₁, heval⟩ := Option.bind_eq_some_iff.mp heval
  obtain ⟨s₂, hs₂, heval⟩ := Option.bind_eq_some_iff.mp heval
  obtain ⟨s₃, hs₃, heval⟩ := Option.bind_eq_some_iff.mp heval
  obtain ⟨s₄, hs₄, heval⟩ := Option.bind_eq_some_iff.mp heval
  obtain ⟨s₅, hs₅, heval⟩ := Option.bind_eq_some_iff.mp heval
  obtain ⟨r, hr, hend⟩ := Option.map_eq_some_iff.mp heval
  obtain ⟨hl₃, hl₄, hl₅, hr₀⟩ : s₃.live = _ ∧ s₄.live = _ ∧ s₅.live = _ ∧ r.1 = _ := by
    simpa only [Prod.mk.injEq] using hend
  have h₁ : RegionReach identityRam 0x1000 0x2000 (fun _ _ => True) s₁ := .attach hs₁
  have h₃ := (h₁.alloc ⟨by decide, fun _ _ => .inl rfl⟩ hs₂).alloc
    ⟨by decide, fun _ _ => .inl rfl⟩ hs₃
  have h₅ := (h₃.free (hl₃ ▸ by simp) trivial hs₄).free (hl₄ ▸ by simp) trivial hs₅
  refine ⟨s₅, h₅, hl₅, ?_⟩
  rw [hr]
  exact congrArg some hr₀

end BitThunder
