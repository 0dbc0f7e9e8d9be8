import BitThunder.Lib.Extent
import BitThunder.Mm.Page

/-!
# What the page allocator does to a well-formed pool

`PoolRep R pool blks` says that the pool's list runs through the blocks `blks`:
page-aligned virtual addresses with page-multiple sizes whose physical extents
lie below `2 ^ 32`, avoid physical address `0` and never overlap. Each function
then has one specification, stated on the count `cover` of the free extents:

* `btPagePoolAlloc_spec`: the block handed out was free and is all that is taken;
* `btPagePoolFree_spec`: the block given back is all that is added.

The count of free extents is what makes the three edits of the list composable. Cutting a block in
two, taking a block out and putting one in are equations between counts, and each of them also says
that the other blocks keep their sizes. Disjointness never has to be carried along as a fact about
pairs: it is the statement that no byte counts twice.

The list itself is unsorted, and nothing below needs an order: a ring of the blocks in whatever
order they come is enough for allocation and for freeing. `PoolRep.unique` says that the pool
determines the list, so that specifications may quantify over it.
-/

namespace BitThunder

variable {R : RamConfig} {pool : PagePool} {blks as bs : List ℕ} {blk : ℕ}

/-- The physical extent of the block at a virtual address. -/
def PagePool.ext (R : RamConfig) (pool : PagePool) (va : ℕ) : Extent :=
  (R.virtToPhys va, pool.blkSize va)

/-- The physical extents of a list of blocks. -/
def PagePool.exts (R : RamConfig) (pool : PagePool) (blks : List ℕ) : List Extent :=
  blks.map (pool.ext R)

/-- Where the block at a virtual address ends, physically. -/
def PagePool.stop (R : RamConfig) (pool : PagePool) (va : ℕ) : ℕ :=
  R.virtToPhys va + pool.blkSize va

/-- A block of `n` bytes at the virtual address `va` is in order: page-aligned,
of a page-multiple size, inside the physical address space and not at physical
address `0`. -/
structure BlockOk (R : RamConfig) (va n : ℕ) : Prop where
  va_lt : va < 2 ^ 32
  /-- it begins with a page -/
  aligned : va % 4096 = 0
  /-- it is not empty -/
  pos : 0 < n
  /-- it is made of pages -/
  size_aligned : n % 4096 = 0
  /-- it ends within the physical memory -/
  end_le : R.virtToPhys va + n ≤ 2 ^ 32
  /-- and does not have address zero -/
  phys_pos : 0 < R.virtToPhys va

/-- The free list of the pool is well formed and holds the blocks `blks`. -/
structure PoolRep (R : RamConfig) (pool : PagePool) (blks : List ℕ) : Prop where
  /-- the list runs through the headers of `blks` -/
  ring : Ring pool.list .poolHead (blks.map .page)
  /-- every block is in order -/
  block : ∀ va ∈ blks, BlockOk R va (pool.blkSize va)
  /-- no byte is in two blocks -/
  once : ∀ x, cover (pool.exts R blks) x ≤ 1

@[simp] theorem PagePool.exts_nil : pool.exts R [] = [] := rfl

@[simp] theorem PagePool.exts_cons : pool.exts R (blk :: bs) = pool.ext R blk :: pool.exts R bs :=
  rfl

@[simp] theorem PagePool.exts_append :
    pool.exts R (as ++ bs) = pool.exts R as ++ pool.exts R bs := by
  simp [PagePool.exts]

/-- Extents only depend on the sizes of the blocks listed. -/
theorem PagePool.exts_congr {pool' : PagePool}
    (h : ∀ va ∈ blks, pool'.blkSize va = pool.blkSize va) :
    pool'.exts R blks = pool.exts R blks :=
  List.map_congr_left fun va hva => by rw [PagePool.ext, PagePool.ext, h va hva]

@[simp] theorem PagePool.blkSize_setSize_self (va n : ℕ) : (pool.setSize va n).blkSize va = n :=
  Function.update_self ..

theorem PagePool.blkSize_setSize_ne {va w : ℕ} (n : ℕ) (h : w ≠ va) :
    (pool.setSize va n).blkSize w = pool.blkSize w :=
  Function.update_of_ne h ..

/-- To put a block into the list leaves its size. -/
@[simp] theorem PagePool.blkSize_listAdd (va : ℕ) (c : PageCell) :
    (pool.listAdd va c).blkSize = pool.blkSize := rfl

@[simp] theorem PagePool.blkSize_listDel (va : ℕ) : (pool.listDel va).blkSize = pool.blkSize := rfl

@[simp] theorem PagePool.exts_setUsed (n : ℕ) :
    (pool.setUsed n).exts R blks = pool.exts R blks := rfl

@[simp] theorem PagePool.exts_listAdd (va : ℕ) (c : PageCell) :
    (pool.listAdd va c).exts R blks = pool.exts R blks := rfl

@[simp] theorem PagePool.exts_listDel (va : ℕ) :
    (pool.listDel va).exts R blks = pool.exts R blks := rfl

namespace BlockOk

variable {va d n : ℕ}

/-- Inside a block, virtual and physical offsets agree. -/
theorem phys_add (hb : BlockOk R va n) (hd : d < n) :
    R.virtToPhys ((va + d) % 2 ^ 32) = R.virtToPhys va + d := by
  have := hb.end_le
  rw [R.virtToPhys_add]
  omega

/-- A block begins with a page in physical memory too. -/
theorem phys_aligned (hb : BlockOk R va n) : R.virtToPhys va % 4096 = 0 := by
  rw [R.virtToPhys_mod]
  exact hb.aligned

/-- The front part of a block. -/
theorem front (hb : BlockOk R va (d + n)) (hd : 0 < d) (ha : d % 4096 = 0) : BlockOk R va d where
  va_lt := hb.va_lt
  aligned := hb.aligned
  pos := hd
  size_aligned := ha
  end_le := by
    have := hb.end_le
    omega
  phys_pos := hb.phys_pos

/-- The back part of a block. -/
theorem back (hb : BlockOk R va (d + n)) (hn : 0 < n) (ha : d % 4096 = 0) :
    BlockOk R ((va + d) % 2 ^ 32) n := by
  have hphys := hb.phys_add (d := d) (by omega)
  have h₁ := hb.aligned
  have h₂ := hb.size_aligned
  have h₃ := hb.end_le
  have h₄ := hb.phys_pos
  refine ⟨Nat.mod_lt _ (by decide), by omega, hn, ?_, by omega, by omega⟩
  rw [Nat.add_mod, ha, Nat.zero_add, Nat.mod_mod] at h₂
  exact h₂

/-- Two neighbouring blocks are one. -/
theorem join {w m : ℕ} (hb : BlockOk R va n) (hw : BlockOk R w m)
    (hadj : (va + n) % 2 ^ 32 = w) : BlockOk R va (n + m) ∧
      R.virtToPhys w = R.virtToPhys va + n := by
  have hphys := R.virtToPhys_add va n
  rw [hadj] at hphys
  have h₁ := hb.end_le
  have h₂ := hw.end_le
  have h₃ := hw.phys_pos
  have h₄ := hb.size_aligned
  have h₅ := hw.size_aligned
  -- the sum is not `2 ^ 32` itself, or the second block would be at address 0
  have hlt : R.virtToPhys va + n < 2 ^ 32 := by
    by_contra hge
    have hz : (R.virtToPhys va + n) % 2 ^ 32 = 0 := by omega
    omega
  rw [Nat.mod_eq_of_lt hlt] at hphys
  exact ⟨⟨hb.va_lt, hb.aligned, by have := hb.pos; omega, by omega, by omega, hb.phys_pos⟩, hphys⟩

end BlockOk

namespace PoolRep

theorem nodup (hp : PoolRep R pool blks) : blks.Nodup :=
  List.Nodup.of_map _ (List.nodup_cons.mp hp.ring.nodup).2

/-- The list is no longer than the loops' bound. -/
theorem length_le (hp : PoolRep R pool blks) : (blks.map PageCell.page).length ≤ cellBound := by
  rw [List.length_map]
  have hsub : blks ⊆ List.range (2 ^ 32) := fun va hva =>
    List.mem_range.mpr (hp.block va hva).va_lt
  have := (List.subperm_of_subset hp.nodup hsub).length_le
  rwa [List.length_range] at this

/-- The list a pool's headers run through is determined by the pool. -/
theorem unique (ha : PoolRep R pool as) (hb : PoolRep R pool bs) :
    as = bs := by
  have h := ha.ring.fwd.unique hb.ring.fwd ha.ring.head_notMem hb.ring.head_notMem
  exact List.map_injective_iff.mpr (fun _ _ he => PageCell.page.inj he) h

/-- A pool with the same list and the same sizes of listed blocks. -/
theorem congr {pool' : PagePool} (hp : PoolRep R pool blks) (hl : pool'.list = pool.list)
    (hs : ∀ va ∈ blks, pool'.blkSize va = pool.blkSize va) : PoolRep R pool' blks where
  ring := hl ▸ hp.ring
  block va hva := by
    rw [hs va hva]
    exact hp.block va hva
  once x := by
    rw [PagePool.exts_congr hs]
    exact hp.once x

theorem setUsed (hp : PoolRep R pool blks) (n : ℕ) : PoolRep R (pool.setUsed n) blks :=
  hp.congr rfl fun _ _ => rfl

/-- A byte that one block holds is held by no other. -/
theorem cover_rest {x : ℕ} (hp : PoolRep R pool (as ++ blk :: bs))
    (hx : (pool.ext R blk).Holds x) : cover (pool.exts R (as ++ bs)) x = 0 := by
  have h := hp.once x
  rw [PagePool.exts_append, PagePool.exts_cons, cover_middle, cover_cons, if_pos hx] at h
  rw [PagePool.exts_append]
  omega

/-- An address inside a block is the start of no block. -/
theorem inside_notMem {d : ℕ} (hp : PoolRep R pool (as ++ blk :: bs)) (hd : 0 < d)
    (hlt : d < pool.blkSize blk) : (blk + d) % 2 ^ 32 ∉ as ++ blk :: bs := by
  intro hmem
  have hphys := (hp.block blk (by simp)).phys_add hlt
  have hpos := (hp.block _ hmem).pos
  have hrest : (blk + d) % 2 ^ 32 ∈ as ++ bs := by
    rcases List.mem_cons.mp (List.perm_middle.mem_iff.mp hmem) with he | h
    · rw [he] at hphys
      omega
    · exact h
  have hzero := hp.cover_rest (x := R.virtToPhys blk + d)
    (Extent.holds_mk.mpr ⟨by omega, by omega⟩)
  have hone : 0 < cover (pool.exts R (as ++ bs)) (R.virtToPhys blk + d) :=
    cover_pos.mpr ⟨_, List.mem_map_of_mem hrest, Extent.holds_mk.mpr ⟨by omega, by omega⟩⟩
  omega

/-- Taking a block out of the list. -/
theorem remove (hp : PoolRep R pool (as ++ blk :: bs)) :
    PoolRep R (pool.listDel blk) (as ++ bs) ∧
      ∀ x, cover (pool.exts R (as ++ blk :: bs)) x =
        cover (pool.ext R blk :: pool.exts R (as ++ bs)) x := by
  have hcov : ∀ x, cover (pool.exts R (as ++ blk :: bs)) x =
      cover (pool.ext R blk :: pool.exts R (as ++ bs)) x := by
    intro x
    rw [PagePool.exts_append, PagePool.exts_cons, cover_middle, PagePool.exts_append]
  refine ⟨⟨?_, fun va hva => ?_, fun x => ?_⟩, hcov⟩
  · have hr := hp.ring
    rw [List.map_append, List.map_cons] at hr
    rw [List.map_append]
    exact hr.unlink
  · exact hp.block va (List.perm_middle.mem_iff.mpr (List.mem_cons_of_mem _ hva))
  · have h := hp.once x
    rw [hcov, cover_cons] at h
    exact Nat.le_of_add_right_le h

/-- Putting a block into the list behind `as`. -/
theorem insert {n : ℕ} (hp : PoolRep R pool (as ++ bs)) (hb : BlockOk R blk n)
    (hnot : blk ∉ as ++ bs) {c : PageCell} (hc : c = (as.map PageCell.page).getLastD .poolHead)
    (honce : ∀ x, cover ((R.virtToPhys blk, n) :: pool.exts R (as ++ bs)) x ≤ 1) :
    PoolRep R ((pool.setSize blk n).listAdd blk c) (as ++ blk :: bs) ∧
      ∀ x, cover (((pool.setSize blk n).listAdd blk c).exts R (as ++ blk :: bs)) x =
        cover ((R.virtToPhys blk, n) :: pool.exts R (as ++ bs)) x := by
  have hother : ∀ va ∈ as ++ bs, (pool.setSize blk n).blkSize va = pool.blkSize va :=
    fun va hva => PagePool.blkSize_setSize_ne n fun e => hnot (e ▸ hva)
  have hcov : ∀ x, cover ((pool.setSize blk n).exts R (as ++ blk :: bs)) x =
      cover ((R.virtToPhys blk, n) :: pool.exts R (as ++ bs)) x := by
    intro x
    rw [PagePool.exts_append, PagePool.exts_cons, cover_middle, ← PagePool.exts_append,
      PagePool.exts_congr hother, PagePool.ext, PagePool.blkSize_setSize_self]
  refine ⟨⟨?_, fun va hva => ?_, fun x => ?_⟩, hcov⟩
  · have hr := hp.ring
    rw [List.map_append] at hr
    rw [List.map_append, List.map_cons, hc]
    refine hr.insertAfter ?_
    rw [← List.map_append]
    simpa using hnot
  · rcases List.mem_cons.mp (List.perm_middle.mem_iff.mp hva) with rfl | h
    · change BlockOk R va ((pool.setSize va n).blkSize va)
      rw [PagePool.blkSize_setSize_self]
      exact hb
    · change BlockOk R va ((pool.setSize blk n).blkSize va)
      rw [hother va h]
      exact hp.block va h
  · exact (hcov x).trans_le (honce x)

/-- Giving a listed block another size. -/
theorem resize {n : ℕ} (hp : PoolRep R pool (as ++ blk :: bs)) (hb : BlockOk R blk n)
    (honce : ∀ x, cover ((R.virtToPhys blk, n) :: pool.exts R (as ++ bs)) x ≤ 1) :
    PoolRep R (pool.setSize blk n) (as ++ blk :: bs) ∧
      ∀ x, cover ((pool.setSize blk n).exts R (as ++ blk :: bs)) x =
        cover ((R.virtToPhys blk, n) :: pool.exts R (as ++ bs)) x := by
  have hnot : blk ∉ as ++ bs := (List.nodup_cons.mp (List.nodup_middle.mp hp.nodup)).1
  have hother : ∀ va ∈ as ++ bs, (pool.setSize blk n).blkSize va = pool.blkSize va :=
    fun va hva => PagePool.blkSize_setSize_ne n fun e => hnot (e ▸ hva)
  have hcov : ∀ x, cover ((pool.setSize blk n).exts R (as ++ blk :: bs)) x =
      cover ((R.virtToPhys blk, n) :: pool.exts R (as ++ bs)) x := by
    intro x
    rw [PagePool.exts_append, PagePool.exts_cons, cover_middle, ← PagePool.exts_append,
      PagePool.exts_congr hother, PagePool.ext, PagePool.blkSize_setSize_self]
  refine ⟨⟨hp.ring, fun va hva => ?_, fun x => (hcov x).trans_le (honce x)⟩, hcov⟩
  rcases List.mem_cons.mp (List.perm_middle.mem_iff.mp hva) with rfl | h
  · rw [PagePool.blkSize_setSize_self]
    exact hb
  · rw [hother va h]
    exact hp.block va (List.perm_middle.mem_iff.mpr (List.mem_cons_of_mem _ h))

/-- Cutting a block in two: the front keeps its header, the back gets one of its
own right behind it in the list. -/
theorem cut {d n : ℕ} (hp : PoolRep R pool (as ++ blk :: bs)) (pool' : PagePool)
    (hsz : pool.blkSize blk = d + n) (hd : 0 < d) (hn : 0 < n) (hda : d % 4096 = 0)
    (hl : pool'.list = pool.list.insertAfter (.page ((blk + d) % 2 ^ 32)) (.page blk))
    (hfront : pool'.blkSize blk = d) (hback : pool'.blkSize ((blk + d) % 2 ^ 32) = n)
    (hother : ∀ va ∈ as ++ bs, pool'.blkSize va = pool.blkSize va) :
    PoolRep R pool' (as ++ blk :: (blk + d) % 2 ^ 32 :: bs) ∧
      (∀ x, cover (pool'.exts R (as ++ blk :: (blk + d) % 2 ^ 32 :: bs)) x =
        cover (pool.exts R (as ++ blk :: bs)) x) ∧
      ∀ va ∈ as ++ (blk + d) % 2 ^ 32 :: bs, ∃ w ∈ as ++ blk :: bs,
        pool'.stop R va = pool.stop R w := by
  have hok : BlockOk R blk (d + n) := hsz ▸ hp.block blk (by simp)
  have hphys : R.virtToPhys ((blk + d) % 2 ^ 32) = R.virtToPhys blk + d := hok.phys_add (by omega)
  have hnot := hp.inside_notMem hd (by omega)
  -- as one extent and as two, the block counts the same
  have hsplit : ∀ x, cover (pool.exts R (as ++ blk :: bs)) x =
      cover ((R.virtToPhys blk, d) :: (R.virtToPhys blk + d, n) :: pool.exts R (as ++ bs)) x := by
    intro x
    rw [← cover_split, ← hsz, hp.remove.2 x]
    rfl
  obtain ⟨hp₁, hc₁⟩ := hp.resize (hok.front hd hda) fun x => by
    have := hp.once x
    rw [hsplit, cover_cons, cover_cons] at this
    rw [cover_cons]
    omega
  have hcov₂ : ∀ x, cover ((R.virtToPhys ((blk + d) % 2 ^ 32), n) ::
      (pool.setSize blk d).exts R (as ++ [blk] ++ bs)) x =
        cover (pool.exts R (as ++ blk :: bs)) x := by
    intro x
    rw [hphys, hsplit, cover_cons, List.append_assoc, List.singleton_append, hc₁]
    simp only [cover_cons]
    omega
  rw [← List.singleton_append, ← List.append_assoc] at hp₁
  obtain ⟨hp₂, hc₂⟩ := hp₁.insert (hok.back hn hda)
    (by rwa [List.append_assoc, List.singleton_append]) (c := .page blk)
    (by simp) fun x => (hcov₂ x).trans_le (hp.once x)
  have hsame : ∀ va ∈ as ++ blk :: (blk + d) % 2 ^ 32 :: bs,
      pool'.blkSize va = ((pool.setSize blk d).setSize ((blk + d) % 2 ^ 32) n).blkSize va := by
    intro va hva
    by_cases h₁ : va = (blk + d) % 2 ^ 32
    · rw [h₁, PagePool.blkSize_setSize_self, hback]
    · rw [PagePool.blkSize_setSize_ne _ h₁]
      by_cases h₂ : va = blk
      · rw [h₂, PagePool.blkSize_setSize_self, hfront]
      · rw [PagePool.blkSize_setSize_ne _ h₂]
        rcases List.mem_append.mp hva with h | h
        · exact hother va (List.mem_append_left _ h)
        · rcases List.mem_cons.mp h with h | h
          · exact absurd h h₂
          · rcases List.mem_cons.mp h with h | h
            · exact absurd h h₁
            · exact hother va (List.mem_append_right _ h)
  rw [List.append_assoc, List.singleton_append] at hp₂
  refine ⟨hp₂.congr hl hsame, fun x => ?_, fun va hva => ?_⟩
  · rw [PagePool.exts_congr hsame, ← hcov₂ x, ← hc₂ x, List.append_assoc, List.singleton_append]
    rfl
  · rcases List.mem_cons.mp (List.perm_middle.mem_iff.mp hva) with rfl | h
    · -- the back part ends where the block ended
      refine ⟨blk, by simp, ?_⟩
      rw [PagePool.stop, PagePool.stop, hphys, hback, hsz]
      omega
    · refine ⟨va, List.perm_middle.mem_iff.mpr (List.mem_cons_of_mem _ h), ?_⟩
      rw [PagePool.stop, PagePool.stop, hother va h]

end PoolRep

/-! ## The edits of `bt_page_pool_alloc`

Splitting off the gap and taking the front of a block, each as a change of the list and of the
headers. -/

/-- A block is cut in two, and both parts are free. -/
theorem splitHead_spec {d n : ℕ} (hp : PoolRep R pool (as ++ blk :: bs))
    (hsz : pool.blkSize blk = d + n) (hd : 0 < d) (hn : 0 < n) (hda : d % 4096 = 0) :
    PoolRep R (splitHead pool blk d) (as ++ blk :: (blk + d) % 2 ^ 32 :: bs) ∧
      (∀ x, cover ((splitHead pool blk d).exts R (as ++ blk :: (blk + d) % 2 ^ 32 :: bs)) x =
        cover (pool.exts R (as ++ blk :: bs)) x) ∧
      (splitHead pool blk d).blkSize ((blk + d) % 2 ^ 32) = n ∧
      ∀ va ∈ as ++ blk :: (blk + d) % 2 ^ 32 :: bs,
        (splitHead pool blk d).stop R va = R.virtToPhys blk + d ∨
        ∃ w ∈ as ++ blk :: bs, (splitHead pool blk d).stop R va = pool.stop R w := by
  have hok := hp.block blk (by simp)
  have hnot := hp.inside_notMem hd (by omega)
  have hlt : n < 2 ^ 32 := by
    have := hok.end_le
    omega
  have hne : (blk + d) % 2 ^ 32 ≠ blk := fun e =>
    hnot (by rw [e]; exact List.mem_append_right _ (List.mem_cons_self ..))
  have hback : (splitHead pool blk d).blkSize ((blk + d) % 2 ^ 32) = n := by
    simp only [splitHead, PagePool.blkSize_listAdd]
    rw [PagePool.blkSize_setSize_ne _ hne, PagePool.blkSize_setSize_self, hsz]
    omega
  have hfront : (splitHead pool blk d).blkSize blk = d := PagePool.blkSize_setSize_self ..
  have hcut := hp.cut (splitHead pool blk d) hsz hd hn hda rfl hfront hback fun va hva => by
      have h₁ : va ≠ blk := by
        rintro rfl
        exact (List.nodup_cons.mp (List.nodup_middle.mp hp.nodup)).1 hva
      have h₂ : va ≠ (blk + d) % 2 ^ 32 := by
        rintro rfl
        exact hnot (List.perm_middle.mem_iff.mpr (List.mem_cons_of_mem _ hva))
      simp only [splitHead, PagePool.blkSize_listAdd]
      rw [PagePool.blkSize_setSize_ne _ h₁, PagePool.blkSize_setSize_ne _ h₂]
  refine ⟨hcut.1, hcut.2.1, hback, fun va hva => ?_⟩
  rcases List.mem_cons.mp (List.perm_middle.mem_iff.mp hva) with rfl | h
  · left
    rw [PagePool.stop, hfront]
  · exact .inr (hcut.2.2 va h)

/-- The first pages of a block leave the list. -/
theorem takeFront_spec {size : ℕ} (hp : PoolRep R pool (as ++ blk :: bs))
    (hle : size ≤ pool.blkSize blk) (hpos : 0 < size) (ha : size % 4096 = 0) :
    ∃ mid, PoolRep R (takeFront pool blk size) (as ++ (mid ++ bs)) ∧
      (∀ x, cover ((R.virtToPhys blk, size) ::
          (takeFront pool blk size).exts R (as ++ (mid ++ bs))) x =
        cover (pool.exts R (as ++ blk :: bs)) x) ∧
      ∀ va ∈ as ++ (mid ++ bs), ∃ w ∈ as ++ blk :: bs,
        (takeFront pool blk size).stop R va = pool.stop R w := by
  have hok := hp.block blk (by simp)
  by_cases heq : pool.blkSize blk = size
  · -- exact fit: the block leaves the list
    refine ⟨[], ?_, fun x => ?_, fun va hva => ⟨va, ?_, ?_⟩⟩
    · rw [takeFront, if_pos heq]
      exact hp.remove.1
    · rw [takeFront, if_pos heq, hp.remove.2 x, ← heq]
      rfl
    · exact List.perm_middle.mem_iff.mpr (List.mem_cons_of_mem _ hva)
    · rw [takeFront, if_pos heq]
      rfl
  · obtain ⟨n, hn⟩ : ∃ n, pool.blkSize blk = size + n := ⟨pool.blkSize blk - size, by omega⟩
    have hnot := hp.inside_notMem hpos (by omega)
    have hne : (blk + size) % 2 ^ 32 ≠ blk := fun e =>
      hnot (by rw [e]; exact List.mem_append_right _ (List.mem_cons_self ..))
    have hlt := hok.end_le
    -- cut the block after `size` bytes, then take the front part out
    obtain ⟨hp₁, hc₁, hs₁⟩ := hp.cut
      (((pool.setSize ((blk + size) % 2 ^ 32) n).setSize blk size).listAdd
        ((blk + size) % 2 ^ 32) (.page blk))
      hn hpos (by omega) ha rfl (PagePool.blkSize_setSize_self ..)
      ((PagePool.blkSize_setSize_ne _ hne).trans (PagePool.blkSize_setSize_self ..))
      fun va hva => by
        have h₁ : va ≠ blk := by
          rintro rfl
          exact (List.nodup_cons.mp (List.nodup_middle.mp hp.nodup)).1 hva
        have h₂ : va ≠ (blk + size) % 2 ^ 32 := by
          rintro rfl
          exact hnot (List.perm_middle.mem_iff.mpr (List.mem_cons_of_mem _ hva))
        exact (PagePool.blkSize_setSize_ne _ h₁).trans (PagePool.blkSize_setSize_ne _ h₂)
    obtain ⟨hp₂, hc₂⟩ := hp₁.remove
    -- the header of the front part keeps its old size, which nothing reads any more
    have hsame : ∀ va ∈ as ++ (blk + size) % 2 ^ 32 :: bs,
        (takeFront pool blk size).blkSize va =
          ((pool.setSize ((blk + size) % 2 ^ 32) n).setSize blk size).blkSize va := by
      intro va hva
      have h₁ : va ≠ blk := by
        rintro rfl
        exact (List.nodup_cons.mp (List.nodup_middle.mp hp₁.nodup)).1 hva
      have hsub : (pool.blkSize blk + 2 ^ 32 - size) % 2 ^ 32 = n := by
        rw [hn]
        omega
      rw [PagePool.blkSize_setSize_ne _ h₁, takeFront, if_neg heq, hsub,
        PagePool.blkSize_listDel, PagePool.blkSize_listAdd]
    refine ⟨[(blk + size) % 2 ^ 32], hp₂.congr ?_ hsame, fun x => ?_, fun va hva => ?_⟩
    · rw [takeFront, if_neg heq]
      simp only [PagePool.listDel, PagePool.listAdd, PagePool.setSize]
    · rw [← hc₁ x, hc₂ x, List.singleton_append, PagePool.exts_congr hsame, PagePool.ext,
        PagePool.exts_listAdd, PagePool.blkSize_listAdd, PagePool.blkSize_setSize_self]
    · obtain ⟨w, hw, he⟩ := hs₁ va hva
      refine ⟨w, hw, ?_⟩
      rw [← he, PagePool.stop, PagePool.stop, hsame va hva]
      rfl

/-! ## Allocation

A call that finds no block changes nothing. For one that does, the new list is given, and the block
that was taken. -/

/-- The alignment arithmetic of a request does not wrap: the alignment is a word,
and neither rounding a block's address up nor adding the gap to the size leaves
32 bits. -/
def AlignOk (blks : List ℕ) (size order : ℕ) : Prop :=
  order = 0 ∨ btPageSize * 2 ^ order < 2 ^ 32 ∧
    ∀ va ∈ blks, va + alignMask order < 2 ^ 32 ∧ size + alignDiff order va < 2 ^ 32

/-- The mask of an alignment that is a word. -/
theorem alignMask_eq {order : ℕ} (h : btPageSize * 2 ^ order < 2 ^ 32) :
    alignMask order = 2 ^ (12 + order) - 1 := by
  have hA : btPageSize <<< order = 2 ^ (12 + order) := by
    rw [Nat.shiftLeft_eq, pow_add]
    rfl
  rw [Nat.shiftLeft_eq] at hA
  have hpos : 0 < 2 ^ (12 + order) := by positivity
  rw [alignMask, Nat.shiftLeft_eq, hA]
  rw [hA] at h
  omega

/-- Without wrap-around the gap is what rounding up adds. -/
theorem alignDiff_eq {order va : ℕ} (h : btPageSize * 2 ^ order < 2 ^ 32)
    (hva : va + alignMask order < 2 ^ 32) :
    alignDiff order va = (va + alignMask order) / 2 ^ (12 + order) * 2 ^ (12 + order) - va := by
  have hmask := alignMask_eq h
  have hA : btPageSize * 2 ^ order = 2 ^ (12 + order) := by
    rw [pow_add]
    rfl
  have hpos : 0 < 2 ^ (12 + order) := by positivity
  have hle : 12 + order ≤ 32 := by
    by_contra hgt
    have : 2 ^ 32 ≤ 2 ^ (12 + order) := Nat.pow_le_pow_right (by decide) (by omega)
    omega
  -- masking is rounding down to a multiple
  have hround : (va + alignMask order) % 2 ^ 32 &&& wordNot (alignMask order) =
      (va + alignMask order) / 2 ^ (12 + order) * 2 ^ (12 + order) := by
    have hnot : wordNot (alignMask order) = 2 ^ 32 - 2 ^ (12 + order) := by
      rw [wordNot, hmask]
      omega
    rw [hnot, land_highMask hle, Nat.mod_mod, Nat.mod_eq_of_lt hva]
  have hdiv := Nat.div_add_mod (va + alignMask order) (2 ^ (12 + order))
  have hmod := Nat.mod_lt (va + alignMask order) hpos
  simp only [alignDiff, hround]
  rw [Nat.mul_comm] at hdiv
  generalize (va + alignMask order) / 2 ^ (12 + order) * 2 ^ (12 + order) = q at *
  omega

/-- The gap reaches the next multiple of the alignment. -/
theorem alignDiff_spec {order va : ℕ} (h : btPageSize * 2 ^ order < 2 ^ 32)
    (hva : va + alignMask order < 2 ^ 32) :
    (va + alignDiff order va) % 2 ^ (12 + order) = 0 ∧ va + alignDiff order va < 2 ^ 32 ∧
      alignDiff order va < 2 ^ (12 + order) := by
  have hmask := alignMask_eq h
  have hpos : 0 < 2 ^ (12 + order) := by positivity
  have hdiv := Nat.div_add_mod (va + alignMask order) (2 ^ (12 + order))
  have hmod := Nat.mod_lt (va + alignMask order) hpos
  have hmul := Nat.mul_mod_left ((va + alignMask order) / 2 ^ (12 + order)) (2 ^ (12 + order))
  rw [alignDiff_eq h hva]
  rw [Nat.mul_comm] at hdiv
  generalize (va + alignMask order) / 2 ^ (12 + order) * 2 ^ (12 + order) = q at *
  rw [show va + (q - va) = q by omega]
  exact ⟨hmul, by omega, by omega⟩

/-- On a page-aligned block the gap is a number of pages. -/
theorem alignDiff_mod {order va : ℕ} (h : btPageSize * 2 ^ order < 2 ^ 32)
    (hva : va + alignMask order < 2 ^ 32) (ha : va % 4096 = 0) :
    alignDiff order va % 4096 = 0 := by
  have hdvd : 4096 ∣ va + alignDiff order va :=
    (Dvd.intro (2 ^ order) (by rw [pow_add]; rfl)).trans
      (Nat.dvd_of_mod_eq_zero (alignDiff_spec h hva).1)
  omega

/-- Setting the unaligned head aside and taking the front of the rest. -/
theorem carve_spec {diff size : ℕ} (hp : PoolRep R pool (as ++ blk :: bs))
    (hle : diff + size ≤ pool.blkSize blk) (hda : diff % 4096 = 0) (hpos : 0 < size)
    (ha : size % 4096 = 0) :
    ∃ blks', PoolRep R (takeFront (if diff = 0 then pool else splitHead pool blk diff)
        ((blk + diff) % 2 ^ 32) size) blks' ∧
      (∀ x, cover ((R.virtToPhys blk + diff, size) ::
          (takeFront (if diff = 0 then pool else splitHead pool blk diff)
            ((blk + diff) % 2 ^ 32) size).exts R blks') x =
        cover (pool.exts R (as ++ blk :: bs)) x) ∧
      ∀ va ∈ blks', (takeFront (if diff = 0 then pool else splitHead pool blk diff)
          ((blk + diff) % 2 ^ 32) size).stop R va = R.virtToPhys blk + diff ∨
        ∃ w ∈ as ++ blk :: bs, (takeFront (if diff = 0 then pool else splitHead pool blk diff)
          ((blk + diff) % 2 ^ 32) size).stop R va = pool.stop R w := by
  have hok := hp.block blk (by simp)
  by_cases hd : diff = 0
  · subst hd
    rw [if_pos rfl, Nat.add_zero, Nat.add_zero, Nat.mod_eq_of_lt hok.va_lt]
    obtain ⟨mid, hp', hc', hs'⟩ := takeFront_spec hp (by omega) hpos ha
    exact ⟨_, hp', hc', fun va hva => .inr (hs' va hva)⟩
  · obtain ⟨n, hn⟩ : ∃ n, pool.blkSize blk = diff + n := ⟨pool.blkSize blk - diff, by omega⟩
    obtain ⟨hp₁, hc₁, hback, hs₁⟩ := splitHead_spec hp hn (by omega) (by omega) hda
    rw [if_neg hd, ← hok.phys_add (d := diff) (by omega)]
    rw [← List.singleton_append, ← List.append_assoc] at hp₁
    obtain ⟨mid, hp₂, hc₂, hs₂⟩ := takeFront_spec hp₁ (hback ▸ (by omega)) hpos ha
    refine ⟨_, hp₂, fun x => ?_, fun va hva => ?_⟩
    · rw [hc₂ x, List.append_assoc, List.singleton_append, hc₁ x]
    · obtain ⟨w, hw, he⟩ := hs₂ va hva
      rw [he, hok.phys_add (d := diff) (by omega)]
      refine hs₁ w ?_
      rwa [List.append_assoc, List.singleton_append] at hw

@[simp] theorem PagePool.totalSize_setUsed (n : ℕ) : (pool.setUsed n).totalSize = pool.totalSize :=
  rfl

@[simp] theorem PagePool.stop_setUsed (n va : ℕ) :
    (pool.setUsed n).stop R va = pool.stop R va := rfl

@[simp] theorem PagePool.usedSize_setUsed (n : ℕ) : (pool.setUsed n).usedSize = n := rfl

@[simp] theorem splitHead_totalSize {d : ℕ} :
    (splitHead pool blk d).totalSize = pool.totalSize := rfl

@[simp] theorem splitHead_usedSize {d : ℕ} : (splitHead pool blk d).usedSize = pool.usedSize := rfl

@[simp] theorem takeFront_totalSize (size : ℕ) :
    (takeFront pool blk size).totalSize = pool.totalSize := by
  unfold takeFront
  split <;> rfl

@[simp] theorem takeFront_usedSize (size : ℕ) :
    (takeFront pool blk size).usedSize = pool.usedSize := by
  unfold takeFront
  split <;> rfl

/-- `bt_page_pool_alloc` on a well-formed pool: it returns; failure leaves the
pool alone, and a block it returns is page-aligned, was free, and is exactly what
the free extents lose. -/
theorem btPagePoolAlloc_spec {psize order : ℕ} (hp : PoolRep R pool blks) (hpos : psize ≠ 0)
    (hsz : psize + 4095 < 2 ^ 32) (hal : AlignOk blks (btPageAlign psize) order) :
    btPagePoolAlloc R pool psize order = some (0, pool) ∨
      ∃ pa pool' blks', btPagePoolAlloc R pool psize order = some (pa, pool') ∧
        pa ≠ 0 ∧ pa % 4096 = 0 ∧ PoolRep R pool' blks' ∧
        (∀ x, cover ((pa, btPageAlign psize) :: pool'.exts R blks') x =
          cover (pool.exts R blks) x) ∧
        (∀ va ∈ blks', pool'.stop R va = pa ∨ ∃ w ∈ blks, pool'.stop R va = pool.stop R w) ∧
        pool'.totalSize = pool.totalSize ∧
        pool'.usedSize = (pool.usedSize + btPageAlign psize) % 2 ^ 32 := by
  obtain ⟨hsa, hsle, -⟩ := btPageAlign_of_lt hsz
  have hsearch := hp.ring.search hp.length_le (pool.fits (btPageAlign psize) order)
  rw [btPagePoolAlloc, if_neg hpos]
  simp only [hsearch]
  rcases hfind : (blks.map PageCell.page).find? (pool.fits (btPageAlign psize) order) with _ | c
  · exact Or.inl rfl
  · obtain ⟨blk, hblk, rfl⟩ := List.mem_map.mp (List.mem_of_find?_eq_some hfind)
    have hfits := List.find?_some hfind
    simp only [PagePool.fits, Bool.and_eq_true, decide_eq_true_eq, Bool.or_eq_true,
      beq_iff_eq] at hfits
    obtain ⟨hge, hroom⟩ := hfits
    by_cases hnull : blk = 0
    · exact Or.inl (by simp [hnull])
    · right
      simp only [if_neg hnull]
      obtain ⟨as, bs, rfl⟩ := List.append_of_mem hblk
      have hok := hp.block blk hblk
      -- the gap in front of the block, and room for it
      obtain ⟨diff, hdiff, hda, hle⟩ : ∃ diff,
          (if order = 0 then 0 else alignDiff order blk) = diff ∧ diff % 4096 = 0 ∧
            diff + btPageAlign psize ≤ pool.blkSize blk := by
        by_cases ho : order = 0
        · exact ⟨0, by simp [ho], rfl, by omega⟩
        · obtain hz | ⟨hword, hno⟩ := hal
          · exact absurd hz ho
          · obtain ⟨hva, hfit⟩ := hno blk hblk
            refine ⟨_, if_neg ho, alignDiff_mod hword hva hok.aligned, ?_⟩
            have hroom' := hroom.resolve_left ho
            rw [Nat.mod_eq_of_lt hfit] at hroom'
            omega
      rw [hdiff]
      obtain ⟨blks', hp', hc', hs'⟩ := carve_spec hp hle hda (by omega) hsa
      have hphys : R.virtToPhys ((blk + diff) % 2 ^ 32) = R.virtToPhys blk + diff :=
        hok.phys_add (by omega)
      have hpp := hok.phys_pos
      have hpa := hok.phys_aligned
      refine ⟨_, _, blks', rfl, by omega, by omega, hp'.setUsed _, ?_, ?_, ?_, ?_⟩
      · intro x
        rw [hphys, PagePool.exts_setUsed]
        exact hc' x
      · simp only [PagePool.stop_setUsed, hphys]
        exact hs'
      · rw [PagePool.totalSize_setUsed, takeFront_totalSize]
        split_ifs
        · rfl
        · exact splitHead_totalSize
      · rw [PagePool.usedSize_setUsed, takeFront_usedSize]
        split_ifs
        · rfl
        · rw [splitHead_usedSize]

/-! ## Freeing

A block is merged with the next one if it ends where this begins, and with the previous one under
the same test. -/

/-- Blocks that meet physically meet virtually. -/
theorem BlockOk.adjacent {va w n m : ℕ} (hw : BlockOk R w m)
    (h : R.virtToPhys va + n = R.virtToPhys w) : (va + n) % 2 ^ 32 = w := by
  refine R.virtToPhys_inj (Nat.mod_lt _ (by decide)) hw.va_lt ?_
  rw [R.virtToPhys_add, h, Nat.mod_eq_of_lt (R.virtToPhys_lt w)]

/-- The merge with the next block, on the first block of the list: one extent
where there were two, or no change, and then the two do not meet. -/
theorem mergeNext_spec (hp : PoolRep R pool (blk :: bs)) :
    ∃ bs', PoolRep R (mergeNext pool blk) (blk :: bs') ∧
      (∀ x, cover ((mergeNext pool blk).exts R (blk :: bs')) x =
        cover (pool.exts R (blk :: bs)) x) ∧
      ∀ va ∈ blk :: bs', (∃ w ∈ bs, (mergeNext pool blk).stop R va = pool.stop R w) ∨
        (mergeNext pool blk).stop R va = pool.stop R blk ∧
          ∀ w ∈ bs.head?, R.virtToPhys w ≠ pool.stop R blk := by
  have hnext := hp.ring.fwd.2.first
  have hkeep : ∀ va ∈ blk :: bs, (∀ w ∈ bs.head?, R.virtToPhys w ≠ pool.stop R blk) →
      (∃ w ∈ bs, pool.stop R va = pool.stop R w) ∨
        pool.stop R va = pool.stop R blk ∧ ∀ w ∈ bs.head?, R.virtToPhys w ≠ pool.stop R blk := by
    intro va hva hfar
    rcases List.mem_cons.mp hva with rfl | hva
    · exact .inr ⟨rfl, hfar⟩
    · exact .inl ⟨va, hva, rfl⟩
  cases bs with
  | nil =>
    have hid : mergeNext pool blk = pool := by
      simp only [List.map_nil, List.headD_nil] at hnext
      simp [mergeNext, hnext]
    refine ⟨[], by rw [hid]; exact hp, fun x => by rw [hid], fun va hva => ?_⟩
    rw [hid]
    exact hkeep va hva (by simp)
  | cons w bs =>
    simp only [List.map_cons, List.headD_cons] at hnext
    by_cases hadj : (blk + pool.blkSize blk) % 2 ^ 32 = w
    · have hok := hp.block blk (by simp)
      obtain ⟨hjoin, hphys⟩ := hok.join (hp.block w (by simp)) hadj
      have hmod : (pool.blkSize blk + pool.blkSize w) % 2 ^ 32 =
          pool.blkSize blk + pool.blkSize w := by
        have h₁ := hjoin.end_le
        have h₂ := hjoin.phys_pos
        omega
      -- take the neighbour out, then let the first block grow over it
      have hp₀ : PoolRep R pool ([blk] ++ w :: bs) := hp
      obtain ⟨hp₁, hc₁⟩ := hp₀.remove
      have hcov : ∀ x, cover ((R.virtToPhys blk, pool.blkSize blk + pool.blkSize w) ::
          pool.exts R bs) x = cover (pool.exts R (blk :: w :: bs)) x := by
        intro x
        rw [cover_split, ← hphys]
        rfl
      have hp₂ : PoolRep R (pool.listDel w) ([] ++ blk :: bs) := hp₁
      obtain ⟨hp₃, hc₃⟩ := hp₂.resize hjoin fun x => (hcov x).trans_le (hp.once x)
      have hid : mergeNext pool blk =
          (pool.listDel w).setSize blk (pool.blkSize blk + pool.blkSize w) := by
        simp only [mergeNext, hnext, if_pos hadj, hmod]
        rfl
      rw [hid]
      refine ⟨bs, hp₃, fun x => (hc₃ x).trans (hcov x), fun va hva => .inl ?_⟩
      have hnd : blk ∉ bs := fun h => (List.nodup_cons.mp hp.nodup).1 (List.mem_cons_of_mem _ h)
      rcases List.mem_cons.mp hva with rfl | hva
      · refine ⟨w, by simp, ?_⟩
        rw [PagePool.stop, PagePool.stop, PagePool.blkSize_setSize_self, hphys]
        omega
      · have hne : va ≠ blk := fun e => hnd (e ▸ hva)
        refine ⟨va, List.mem_cons_of_mem _ hva, ?_⟩
        rw [PagePool.stop, PagePool.stop, PagePool.blkSize_setSize_ne _ hne]
        rfl
    · have hid : mergeNext pool blk = pool := by simp only [mergeNext, hnext, if_neg hadj]
      refine ⟨w :: bs, by rw [hid]; exact hp, fun x => by rw [hid], fun va hva => ?_⟩
      rw [hid]
      refine hkeep va hva fun v hv he => hadj ?_
      obtain rfl : w = v := by simpa using hv
      exact (hp.block w (by simp)).adjacent he.symm

/-- The merge with the previous block never happens: the block just put at the
front of the list has no previous block. -/
theorem mergePrev_first (hp : PoolRep R pool (blk :: bs)) : mergePrev pool blk = pool := by
  have hprev : pool.list.prev (.page blk) = .poolHead := by
    have hr : Ring pool.list .poolHead ([] ++ PageCell.page blk :: bs.map PageCell.page) := hp.ring
    exact hr.prev_mem
  simp [mergePrev, hprev]

@[simp] theorem mergeNext_totalSize : (mergeNext pool blk).totalSize = pool.totalSize := by
  unfold mergeNext
  split
  · rfl
  · split <;> rfl

@[simp] theorem mergeNext_usedSize : (mergeNext pool blk).usedSize = pool.usedSize := by
  unfold mergeNext
  split
  · rfl
  · split <;> rfl

/-- The search loop of `bt_page_pool_free` comes back and decides nothing. -/
theorem btPagePoolFree_eq {psize : ℕ} (hp : PoolRep R pool blks) (hpos : psize ≠ 0) (paddr : ℕ) :
    btPagePoolFree R pool paddr psize =
      let blk := R.physToVirt paddr
      let pool₁ := mergePrev (mergeNext ((pool.setSize blk (btPageAlign psize)).listAdd blk
        .poolHead) blk) blk
      some (pool₁.setUsed ((pool₁.usedSize + 2 ^ 32 - btPageAlign psize) % 2 ^ 32)) := by
  have hsearch := hp.ring.search hp.length_le (pool.goesOnAbove (R.physToVirt paddr))
  rw [btPagePoolFree, if_neg hpos]
  simp only [hsearch]

/-- A block disjoint from the free extents is not on the list. -/
theorem PoolRep.notMem_of_once {va n : ℕ} (hp : PoolRep R pool blks) (hpos : 0 < n)
    (honce : ∀ x, cover ((R.virtToPhys va, n) :: pool.exts R blks) x ≤ 1) : va ∉ blks := by
  intro hmem
  have hposb := (hp.block _ hmem).pos
  have hone := honce (R.virtToPhys va)
  have hin : 0 < cover (pool.exts R blks) (R.virtToPhys va) :=
    cover_pos.mpr ⟨_, List.mem_map_of_mem hmem, Extent.holds_mk.mpr ⟨le_refl _, by omega⟩⟩
  rw [cover_cons, if_pos (Extent.holds_mk.mpr ⟨le_refl _, by omega⟩)] at hone
  omega

/-- `bt_page_pool_free` on a well-formed pool: it returns, and the free extents
gain exactly the block given back. -/
theorem btPagePoolFree_spec {paddr psize : ℕ} (hp : PoolRep R pool blks) (hpos : psize ≠ 0)
    (hlt : paddr < 2 ^ 32) (hb : BlockOk R (R.physToVirt paddr) (btPageAlign psize))
    (honce : ∀ x, cover ((paddr, btPageAlign psize) :: pool.exts R blks) x ≤ 1) :
    ∃ pool' blks', btPagePoolFree R pool paddr psize = some pool' ∧ PoolRep R pool' blks' ∧
      (∀ x, cover (pool'.exts R blks') x =
        cover ((paddr, btPageAlign psize) :: pool.exts R blks) x) ∧
      (∀ va ∈ blks', (∃ w ∈ blks, pool'.stop R va = pool.stop R w) ∨
        pool'.stop R va = paddr + btPageAlign psize ∧
          ∀ w ∈ blks.head?, R.virtToPhys w ≠ paddr + btPageAlign psize) ∧
      pool'.totalSize = pool.totalSize ∧
      pool'.usedSize = (pool.usedSize + 2 ^ 32 - btPageAlign psize) % 2 ^ 32 := by
  have hback : R.virtToPhys (R.physToVirt paddr) = paddr := R.virtToPhys_physToVirt hlt
  have honce' : ∀ x, cover ((R.virtToPhys (R.physToVirt paddr), btPageAlign psize) ::
      pool.exts R blks) x ≤ 1 := by
    rw [hback]
    exact honce
  have hnot := hp.notMem_of_once hb.pos honce'
  have hp₀ : PoolRep R pool ([] ++ blks) := hp
  obtain ⟨hp₁, hc₁⟩ := hp₀.insert hb hnot (c := .poolHead) rfl honce'
  obtain ⟨bs', hp₂, hc₂, hs₂⟩ := mergeNext_spec hp₁
  have heq := btPagePoolFree_eq hp hpos paddr
  simp only [mergePrev_first hp₂] at heq
  have hnew : ((pool.setSize (R.physToVirt paddr) (btPageAlign psize)).listAdd
      (R.physToVirt paddr) .poolHead).stop R (R.physToVirt paddr) = paddr + btPageAlign psize := by
    rw [PagePool.stop, PagePool.blkSize_listAdd, PagePool.blkSize_setSize_self, hback]
  have hold : ∀ w ∈ blks, ((pool.setSize (R.physToVirt paddr) (btPageAlign psize)).listAdd
      (R.physToVirt paddr) .poolHead).stop R w = pool.stop R w := by
    intro w hw
    have hne : w ≠ R.physToVirt paddr := fun e => hnot (e ▸ hw)
    rw [PagePool.stop, PagePool.stop, PagePool.blkSize_listAdd,
      PagePool.blkSize_setSize_ne _ hne]
  refine ⟨_, R.physToVirt paddr :: bs', heq, hp₂.setUsed _, fun x => ?_, fun va hva => ?_, ?_, ?_⟩
  · rw [PagePool.exts_setUsed, hc₂ x]
    have hc := hc₁ x
    rw [hback] at hc
    exact hc
  · rw [PagePool.stop_setUsed]
    rcases hs₂ va hva with ⟨w, hw, he⟩ | ⟨he, hfar⟩
    · exact .inl ⟨w, hw, he.trans (hold w hw)⟩
    · rw [hnew] at he hfar
      exact .inr ⟨he, hfar⟩
  · rw [PagePool.totalSize_setUsed, mergeNext_totalSize]
    rfl
  · rw [PagePool.usedSize_setUsed, mergeNext_usedSize]
    rfl

end BitThunder
