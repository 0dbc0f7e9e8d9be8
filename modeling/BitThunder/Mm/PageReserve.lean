import BitThunder.Mm.PageMerge

/-!
# Reserving pages

`bt_page_pool_reserve` of `os/src/mm/bt_page.c` takes a given physical range out of the free block
that holds it. The range is rounded to pages and translated to virtual addresses first, all in 32
bits. What is before the range in its block stays there; what is behind it should become a block of
its own, but the test for that is the wrong way round, and is never true for a block that was found.

* `ReserveExact`: what is asked of a call, in terms of free pages;
* `reserveExact_iff`: when a call does that, on a well-formed pool;
* `page_reserve_exact_iff`: the same in every state of a run;
* `page_reserve_drops_tail`: a call that does not.

A block that is found by the loop holds the range in virtual addresses, up to wrapping.
`takeRange_eq` is where this is used: the test for a tail compares the end of
the range with the end of the block the wrong way round, and a block for which it holds would not
have been found. So a range in the middle of a block takes everything behind it off the free list,
while `used_size` grows by the range alone.

For the direction from the outcome to the condition, the pages behind the range are the witnesses:
they were free, they are not part of the range, and they are gone afterwards.
-/

namespace BitThunder

variable {R : RamConfig} {pool : PagePool} {blks as bs : List ℕ} {blk : ℕ}

/-- The test of the search loop -/
def PagePool.holdsRange (pool : PagePool) (start stop : ℕ) : PageCell → Bool
  | .poolHead => false
  | .page va => decide (va ≤ start) && decide (stop ≤ wordAdd va (pool.blkSize va))

/-- "split it", at its end -/
def splitTail (pool : PagePool) (blk stop : ℕ) : PagePool :=
  let pool := pool.setSize stop (wordSub (wordAdd blk (pool.blkSize blk)) stop)
  let pool := pool.setSize blk (wordSub (pool.blkSize blk) (pool.blkSize stop))
  pool.listAdd stop (.page blk)

/-- Take a range out of the block that was found. -/
def takeRange (pool : PagePool) (blk start stop : ℕ) : PagePool :=
  if blk = start ∧ pool.blkSize blk = wordSub stop start then pool.listDel blk
  else
    let pool := if wordAdd blk (pool.blkSize blk) < stop then splitTail pool blk stop else pool
    if blk = start then pool.listDel blk else pool.setSize blk (wordSub start blk)

/-- `start` of a reservation -/
def reserveStart (R : RamConfig) (paddr : ℕ) : ℕ := btPageTrunc (R.physToVirt paddr)

/-- `end` of a reservation -/
def reserveStop (R : RamConfig) (paddr psize : ℕ) : ℕ :=
  btPageAlign (R.physToVirt (wordAdd paddr psize))

/-- `bt_page_pool_reserve`. `none` is a search that never ends. -/
def btPagePoolReserve (R : RamConfig) (pool : PagePool) (paddr psize : ℕ) : Option (ℕ × PagePool) :=
  if psize = 0 then some (0, pool) else
    let start := reserveStart R paddr
    let stop := reserveStop R paddr psize
    match pool.list.search (pool.holdsRange start stop) .poolHead cellBound with
    | none => none
    | some (some (.page blk)) =>
      if blk = 0 then some (errNoMemory, pool)
      else
        let pool := takeRange pool blk start stop
        some (0, pool.setUsed (wordAdd pool.usedSize (wordSub stop start)))
    | some _ => some (errNoMemory, pool)

/-! ## What is asked of it

The pages of the range become used and all others stay what they were; a range that is not free is
refused. -/

/-- The first page of a physical range -/
def rangeStart (paddr : ℕ) : ℕ := paddr / 4096 * 4096

/-- The end of the last page of a physical range -/
def rangeStop (paddr psize : ℕ) : ℕ := (paddr + psize + 4095) / 4096 * 4096

/-- The pages of a range lie in a block. -/
def PagePool.Contains (R : RamConfig) (pool : PagePool) (paddr psize va : ℕ) : Prop :=
  R.virtToPhys va ≤ rangeStart paddr ∧ rangeStop paddr psize ≤ pool.stop R va

instance (paddr psize : ℕ) : DecidablePred (pool.Contains R paddr psize) :=
  fun _ => inferInstanceAs (Decidable (_ ∧ _))

/-- Just the pages of the range are no longer free, and the counters are those for it. -/
structure Reserved (R : RamConfig) (pool pool' : PagePool) (blks : List ℕ) (paddr psize : ℕ) :
    Prop where
  /-- the free blocks hold what they held, without the range -/
  free : ∃ blks', PoolRep R pool' blks' ∧
    (∀ x, cover (pool'.exts R blks') x =
      if rangeStart paddr ≤ x ∧ x < rangeStop paddr psize then 0 else cover (pool.exts R blks) x) ∧
    totalSize (pool'.exts R blks') + pool'.usedSize = pool'.totalSize
  /-- its size has been added to the used bytes -/
  used : pool'.usedSize = pool.usedSize + (rangeStop paddr psize - rangeStart paddr)
  /-- and the size of the pool is the same -/
  total : pool'.totalSize = pool.totalSize

/-- A range that lies in a free block is reserved; any other one is refused. -/
def ReserveExact (R : RamConfig) (pool : PagePool) (blks : List ℕ) (paddr psize : ℕ) : Prop :=
  ∃ error pool', btPagePoolReserve R pool paddr psize = some (error, pool') ∧
    if ∃ va ∈ blks, pool.Contains R paddr psize va then error = 0 ∧
      Reserved R pool pool' blks paddr psize
    else error = errNoMemory ∧ pool' = pool

/-- The block that the loop finds, if there is one, holds the range and ends with it; if there is
none, no block holds the range. -/
def ReserveSafe (R : RamConfig) (pool : PagePool) (blks : List ℕ) (paddr psize : ℕ) : Prop :=
  match blks.find? fun va => pool.holdsRange (reserveStart R paddr) (reserveStop R paddr psize)
    (.page va) with
  | some blk =>
    if blk = 0 then ∀ va ∈ blks, ¬pool.Contains R paddr psize va
    else pool.Contains R paddr psize blk ∧ rangeStop paddr psize = pool.stop R blk
  | none => ∀ va ∈ blks, ¬pool.Contains R paddr psize va

instance (paddr psize : ℕ) : Decidable (ReserveSafe R pool blks paddr psize) := by
  unfold ReserveSafe
  split <;> infer_instance

/-! ## The translated range

Within a block the translation only shifts, so that a range can be compared with a block on either
side of it. -/

/-- An address behind the start of a block, seen from the block. -/
theorem BlockOk.physToVirt_eq {va n p : ℕ} (hb : BlockOk R va n) (hp : R.virtToPhys va ≤ p) :
    R.physToVirt p = (va + (p - R.virtToPhys va)) % 2 ^ 32 := by
  have h₁ := R.phys_lt
  have h₂ := R.virt_lt
  have h₃ := hb.va_lt
  unfold RamConfig.virtToPhys at *
  unfold RamConfig.physToVirt
  omega

/-- The first page of a range that starts in a block, seen from the block. -/
theorem BlockOk.reserveStart_eq {va n paddr : ℕ} (hb : BlockOk R va n)
    (hlo : R.virtToPhys va ≤ rangeStart paddr) :
    reserveStart R paddr = (va + (rangeStart paddr - R.virtToPhys va)) % 2 ^ 32 := by
  have hle : rangeStart paddr ≤ paddr := Nat.div_mul_le_self _ _
  rw [reserveStart, btPageTrunc_eq (R.physToVirt_lt _), hb.physToVirt_eq (hlo.trans hle)]
  have h₁ := hb.aligned
  have h₂ := hb.phys_aligned
  unfold rangeStart at *
  omega

/-- The end of the last page of a range that ends in a block, seen from the block. -/
theorem BlockOk.reserveStop_eq {va n paddr psize : ℕ} (hb : BlockOk R va n)
    (hlo : R.virtToPhys va ≤ rangeStart paddr) :
    reserveStop R paddr psize = (va + (rangeStop paddr psize - R.virtToPhys va)) % 2 ^ 32 := by
  have hle : rangeStart paddr ≤ paddr := Nat.div_mul_le_self _ _
  have hmod : R.physToVirt (wordAdd paddr psize) = R.physToVirt (paddr + psize) := by
    have h₁ := R.phys_lt
    unfold RamConfig.physToVirt wordAdd
    omega
  rw [reserveStop, btPageAlign_eq, hmod, hb.physToVirt_eq (by omega)]
  have h₁ := hb.aligned
  have h₂ := hb.phys_aligned
  unfold rangeStart rangeStop at *
  omega

/-! ## The edits of the list

What is left on the list is the part of the block before the range, and nothing of the part behind
it. -/

/-- No block that was found ends before the range does, so the tail is never split off. -/
theorem takeRange_eq {start stop : ℕ} (h : stop ≤ wordAdd blk (pool.blkSize blk)) :
    takeRange pool blk start stop =
      if blk = start then pool.listDel blk else pool.setSize blk (wordSub start blk) := by
  have hno : ¬wordAdd blk (pool.blkSize blk) < stop := Nat.not_lt.mpr h
  rw [takeRange, if_neg hno]
  split_ifs with hboth hstart hstart
  · rfl
  · exact absurd hboth.1 hstart
  · rfl
  · rfl

/-- The other blocks stay as they are. -/
theorem takeRange_keeps (start : ℕ) {stop : ℕ} (hp : PoolRep R pool (as ++ blk :: bs))
    (h : stop ≤ wordAdd blk (pool.blkSize blk)) :
    ∃ blks' : List ℕ, Ring (takeRange pool blk start stop).list .poolHead (blks'.map .page) ∧
      ∀ va ∈ as ++ bs, va ∈ blks' ∧ (takeRange pool blk start stop).blkSize va =
        pool.blkSize va := by
  have hnot : blk ∉ as ++ bs := (List.nodup_cons.mp (List.nodup_middle.mp hp.nodup)).1
  rw [takeRange_eq h]
  split_ifs with hstart
  · exact ⟨as ++ bs, hp.remove.1.ring, fun va hva => ⟨hva, rfl⟩⟩
  · refine ⟨as ++ blk :: bs, hp.ring, fun va hva => ⟨?_, ?_⟩⟩
    · exact List.perm_middle.mem_iff.mpr (List.mem_cons_of_mem _ hva)
    · exact PagePool.blkSize_setSize_ne _ fun e => hnot (e ▸ hva)

/-- A block that holds the range loses everything from the start of the range on. -/
theorem takeRange_contained {paddr psize : ℕ} (hp : PoolRep R pool (as ++ blk :: bs))
    (hc : pool.Contains R paddr psize blk) (hpos : rangeStart paddr < rangeStop paddr psize)
    (hle : blk ≤ reserveStart R paddr)
    (h : reserveStop R paddr psize ≤ wordAdd blk (pool.blkSize blk)) :
    ∃ blks', PoolRep R (takeRange pool blk (reserveStart R paddr) (reserveStop R paddr psize)) blks'
      ∧
      ∀ x, cover ((rangeStart paddr, pool.stop R blk - rangeStart paddr) ::
        (takeRange pool blk (reserveStart R paddr) (reserveStop R paddr psize)).exts R blks') x =
          cover (pool.exts R (as ++ blk :: bs)) x := by
  have hok := hp.block blk (by simp)
  obtain ⟨hlo, hhi⟩ := hc
  have hstart := hok.reserveStart_eq hlo
  have hlt := hok.va_lt
  have hend := hok.end_le
  unfold PagePool.stop at *
  obtain ⟨d, hd⟩ : ∃ d, rangeStart paddr = R.virtToPhys blk + d := ⟨_, (Nat.add_sub_of_le hlo).symm⟩
  obtain ⟨n, hn⟩ : ∃ n, pool.blkSize blk = d + n := ⟨pool.blkSize blk - d, by omega⟩
  have hda : d % 4096 = 0 := by
    have h₁ := hok.phys_aligned
    have h₂ : rangeStart paddr % 4096 = 0 := Nat.mul_mod_left ..
    omega
  -- the range starts in the block, so its start does not wrap
  rw [hd, Nat.add_sub_cancel_left] at hstart
  have hva : reserveStart R paddr = blk + d := by omega
  have hrest : R.virtToPhys blk + pool.blkSize blk - rangeStart paddr = n := by omega
  have hsplit : ∀ x, cover (pool.exts R (as ++ blk :: bs)) x =
      cover ((R.virtToPhys blk, d) :: (R.virtToPhys blk + d, n) :: pool.exts R (as ++ bs)) x := by
    intro x
    rw [← cover_split, ← hn, hp.remove.2 x]
    rfl
  rw [takeRange_eq h, hrest, hd, hva]
  split_ifs with hz
  · obtain rfl : d = 0 := by omega
    refine ⟨as ++ bs, hp.remove.1, fun x => ?_⟩
    rw [hsplit, cover_empty]
    rfl
  · have hsub : wordSub (blk + d) blk = d := by
      unfold wordSub
      omega
    rw [hsub]
    obtain ⟨hp', hcov⟩ := hp.resize ((hn ▸ hok).front (by omega) hda) fun x => by
      have := hp.once x
      rw [hsplit, cover_cons, cover_cons] at this
      rw [cover_cons]
      omega
    refine ⟨_, hp', fun x => ?_⟩
    rw [hsplit, cover_cons, hcov, cover_cons, cover_cons, cover_cons]
    omega

/-- A range taken out leaves the size of the pool. -/
@[simp] theorem takeRange_totalSize (start stop : ℕ) :
    (takeRange pool blk start stop).totalSize = pool.totalSize := by
  unfold takeRange splitTail
  split_ifs <;> rfl

@[simp] theorem takeRange_usedSize (start stop : ℕ) :
    (takeRange pool blk start stop).usedSize = pool.usedSize := by
  unfold takeRange splitTail
  split_ifs <;> rfl

/-! ## The whole call

The outcome of the search decides, in the words of the code. A range that is not found leaves the
pool as it was. -/

/-- The pool with the range taken out of a block -/
def PagePool.taken (R : RamConfig) (pool : PagePool) (paddr psize blk : ℕ) : PagePool :=
  (takeRange pool blk (reserveStart R paddr) (reserveStop R paddr psize)).setUsed
    (wordAdd pool.usedSize (wordSub (reserveStop R paddr psize) (reserveStart R paddr)))

/-- The call on a well-formed pool -/
theorem btPagePoolReserve_eq {paddr psize : ℕ} (hp : PoolRep R pool blks) (hpos : psize ≠ 0) :
    btPagePoolReserve R pool paddr psize =
      match blks.find? fun va => pool.holdsRange (reserveStart R paddr) (reserveStop R paddr psize)
      (.page va) with
      | none => some (errNoMemory, pool)
      | some blk => if blk = 0 then some (errNoMemory, pool)
        else some (0, pool.taken R paddr psize blk) := by
  have hsearch := hp.ring.search hp.length_le
    (pool.holdsRange (reserveStart R paddr) (reserveStop R paddr psize))
  rw [btPagePoolReserve, if_neg hpos]
  simp only [hsearch, List.find?_map]
  cases hfind : blks.find? (pool.holdsRange (reserveStart R paddr)
    (reserveStop R paddr psize) ∘ PageCell.page) with
  | none =>
    simp only [Function.comp_def] at hfind
    simp only [Option.map_none, hfind]
  | some blk =>
    simp only [Function.comp_def] at hfind
    simp only [Option.map_some, hfind, takeRange_usedSize, PagePool.taken]

/-- A range of at least one byte is at least one page. -/
theorem rangeStart_lt_rangeStop (paddr : ℕ) {psize : ℕ} (hpos : psize ≠ 0) :
    rangeStart paddr < rangeStop paddr psize := by
  unfold rangeStart rangeStop
  omega

/-- Taking the pages of a range out of the free ones takes their number off the free bytes. -/
theorem totalSize_reserved {pool' : PagePool} {blks' : List ℕ} {lo hi : ℕ}
    (hp : PoolRep R pool blks) (hp' : PoolRep R pool' blks') (hle : lo ≤ hi) (hbound : hi ≤ 2 ^ 32)
    (hcov : ∀ x, cover ((lo, hi - lo) :: pool'.exts R blks') x = cover (pool.exts R blks) x) :
    totalSize (pool'.exts R blks') + (hi - lo) = totalSize (pool.exts R blks) := by
  have hends : ∀ {q : PagePool} {cs : List ℕ}, PoolRep R q cs →
      ∀ e ∈ q.exts R cs, e.1 + e.2 ≤ 2 ^ 32 := by
    intro q cs hq e he
    obtain ⟨va, hva, rfl⟩ := List.mem_map.mp he
    exact (hq.block va hva).end_le
  have hsum := totalSize_congr (N := 2 ^ 32) (fun e he => ?_) (hends hp) hcov
  · rw [totalSize_cons] at hsum
    omega
  · rcases List.mem_cons.mp he with rfl | he
    · simp only
      omega
    · exact hends hp' e he

/-- What a block that was found passes -/
structure RangeFound (R : RamConfig) (pool : PagePool) (paddr psize blk : ℕ) : Prop where
  /-- the block begins at the range or before it -/
  start : blk ≤ reserveStart R paddr
  /-- and ends with it or behind it -/
  stop : reserveStop R paddr psize ≤ wordAdd blk (pool.blkSize blk)

@[simp] theorem PagePool.list_setUsed (n : ℕ) : (pool.setUsed n).list = pool.list := rfl

@[simp] theorem PagePool.ext_setUsed (n va : ℕ) : (pool.setUsed n).ext R va = pool.ext R va := rfl

section taken

variable {paddr psize : ℕ} (hp : PoolRep R pool (as ++ blk :: bs)) (hpos : psize ≠ 0)
include hp hpos

/-- The size that is added to `used_size` is that of the range. -/
theorem PoolRep.size_eq (hc : pool.Contains R paddr psize blk) :
    wordSub (reserveStop R paddr psize) (reserveStart R paddr) =
      rangeStop paddr psize - rangeStart paddr := by
  have hok := hp.block blk (by simp)
  obtain ⟨hlo, hhi⟩ := hc
  rw [hok.reserveStart_eq hlo, hok.reserveStop_eq hlo]
  have h₁ := rangeStart_lt_rangeStop paddr hpos
  have h₂ := hok.end_le
  have h₃ := hok.phys_pos
  unfold PagePool.stop at hhi
  unfold wordSub
  omega

variable (hf : RangeFound R pool paddr psize blk)
include hf

/-- A range at the end of its block is reserved. -/
theorem RangeFound.reserved (hc : pool.Contains R paddr psize blk)
    (hend : rangeStop paddr psize = pool.stop R blk)
    (hsum : totalSize (pool.exts R (as ++ blk :: bs)) + pool.usedSize = pool.totalSize)
    (htot : pool.totalSize < 2 ^ 32) :
    Reserved R pool (pool.taken R paddr psize blk) (as ++ blk :: bs) paddr psize := by
  have hlt := rangeStart_lt_rangeStop paddr hpos
  have hbound : rangeStop paddr psize ≤ 2 ^ 32 := hend.trans_le (hp.block blk (by simp)).end_le
  obtain ⟨blks', hp', hcov⟩ := takeRange_contained hp hc hlt hf.start hf.stop
  rw [← hend] at hcov
  have hbytes := totalSize_reserved hp hp' hlt.le hbound hcov
  have hused : (pool.taken R paddr psize blk).usedSize =
      pool.usedSize + (rangeStop paddr psize - rangeStart paddr) := by
    rw [PagePool.taken, PagePool.usedSize_setUsed, hp.size_eq hpos hc, wordAdd_of_lt]
    omega
  have htotal : (pool.taken R paddr psize blk).totalSize = pool.totalSize := by
    rw [PagePool.taken, PagePool.totalSize_setUsed, takeRange_totalSize]
  refine ⟨⟨blks', hp'.setUsed _, fun x => ?_, ?_⟩, hused, htotal⟩
  · have hone := hp.once x
    have hx := hcov x
    have hiff : Extent.Holds (rangeStart paddr, rangeStop paddr psize - rangeStart paddr) x ↔
        rangeStart paddr ≤ x ∧ x < rangeStop paddr psize := by
      rw [Extent.holds_mk, Nat.add_sub_of_le hlt.le]
    rw [cover_cons] at hx
    simp only [hiff] at hx
    rw [PagePool.taken, PagePool.exts_setUsed]
    split_ifs at hx ⊢
    · omega
    · exact hx
  · rw [hused, htotal, PagePool.taken, PagePool.exts_setUsed]
    omega

/-- If a range is reserved, it was in the block that was found. -/
theorem RangeFound.contains {va : ℕ} (hva : va ∈ as ++ blk :: bs)
    (hc : pool.Contains R paddr psize va)
    (hr : Reserved R pool (pool.taken R paddr psize blk) (as ++ blk :: bs) paddr psize) :
    pool.Contains R paddr psize blk := by
  rcases List.mem_cons.mp (List.perm_middle.mem_iff.mp hva) with rfl | hother
  · exact hc
  -- otherwise the block that holds the range is still there
  · exfalso
    obtain ⟨blks', hp', hcov, -⟩ := hr.free
    obtain ⟨blks₁, hring, hkeep⟩ := takeRange_keeps (reserveStart R paddr) hp hf.stop
    have hring' := hp'.ring
    rw [PagePool.taken, PagePool.list_setUsed] at hring'
    have hsame : blks' = blks₁ := by
      have h := hring'.fwd.unique hring.fwd hring'.head_notMem hring.head_notMem
      exact List.map_injective_iff.mpr (fun _ _ he => PageCell.page.inj he) h
    obtain ⟨hmem, hsize⟩ := hkeep va hother
    have hlt := rangeStart_lt_rangeStop paddr hpos
    have hzero := hcov (rangeStart paddr)
    rw [if_pos ⟨le_refl _, hlt⟩, PagePool.taken, PagePool.exts_setUsed, hsame] at hzero
    refine Nat.ne_of_gt (cover_pos.mpr ⟨_, List.mem_map_of_mem hmem, ?_⟩) hzero
    rw [PagePool.ext, hsize]
    exact ⟨hc.1, hlt.trans_le hc.2⟩

/-- If a range is reserved, it was the end of the block that was found. -/
theorem RangeFound.stop_eq (hc : pool.Contains R paddr psize blk)
    (hr : Reserved R pool (pool.taken R paddr psize blk) (as ++ blk :: bs) paddr psize) :
    rangeStop paddr psize = pool.stop R blk := by
  have hlt := rangeStart_lt_rangeStop paddr hpos
  obtain ⟨blks', hp', hcov, -⟩ := hr.free
  obtain ⟨blks₁, hp₁, hcov₁⟩ := takeRange_contained hp hc hlt hf.start hf.stop
  obtain rfl := hp'.unique (hp₁.setUsed _)
  refine hc.2.antisymm (Nat.le_of_not_lt fun hshort => ?_)
  -- the byte behind the range was free, and is lost
  have hx := hcov (rangeStop paddr psize)
  have hx₁ := hcov₁ (rangeStop paddr psize)
  rw [if_neg fun h => Nat.lt_irrefl _ h.2] at hx
  rw [cover_cons, if_pos (Extent.holds_mk.mpr ⟨hlt.le, by omega⟩)] at hx₁
  rw [PagePool.taken, PagePool.exts_setUsed] at hx
  omega

end taken

/-- When the call does what is asked of it -/
theorem reserveExact_iff {paddr psize : ℕ} (hp : PoolRep R pool blks) (hpos : psize ≠ 0)
    (hsum : totalSize (pool.exts R blks) + pool.usedSize = pool.totalSize)
    (htot : pool.totalSize < 2 ^ 32) :
    ReserveExact R pool blks paddr psize ↔ ReserveSafe R pool blks paddr psize := by
  have hrefused : ((∃ error pool', some (errNoMemory, pool) = some (error, pool') ∧
      if ∃ va ∈ blks, pool.Contains R paddr psize va then error = 0 ∧
        Reserved R pool pool' blks paddr psize
      else error = errNoMemory ∧ pool' = pool) ↔ ∀ va ∈ blks, ¬pool.Contains R paddr psize va) := by
    constructor
    · rintro ⟨error, pool', heq, h⟩ va hva hc
      rw [if_pos ⟨va, hva, hc⟩] at h
      simp only [Option.some.injEq, Prod.mk.injEq] at heq
      exact absurd (heq.1.trans h.1) (by decide)
    · intro h
      refine ⟨_, _, rfl, ?_⟩
      rw [if_neg fun ⟨va, hva, hc⟩ => h va hva hc]
      exact ⟨rfl, rfl⟩
  rw [ReserveExact, ReserveSafe, btPagePoolReserve_eq hp hpos]
  cases hfind : blks.find? fun va => pool.holdsRange (reserveStart R paddr)
    (reserveStop R paddr psize) (.page va) with
  | none =>
    simp only
    exact hrefused
  | some blk =>
    simp only
    by_cases hnull : blk = 0
    · simpa only [if_pos hnull] using hrefused
    · have hmem := List.mem_of_find?_eq_some hfind
      have hf : RangeFound R pool paddr psize blk := by
        have h := List.find?_some hfind
        simp only [PagePool.holdsRange, Bool.and_eq_true, decide_eq_true_eq] at h
        exact ⟨h.1, h.2⟩
      simp only [if_neg hnull]
      obtain ⟨as, bs, rfl⟩ := List.append_of_mem hmem
      constructor
      · rintro ⟨error, pool', heq, h⟩
        obtain ⟨rfl, rfl⟩ := Prod.mk.inj (Option.some.inj heq)
        by_cases hany : ∃ va ∈ as ++ blk :: bs, pool.Contains R paddr psize va
        · obtain ⟨va, hva, hc⟩ := hany
          rw [if_pos ⟨va, hva, hc⟩] at h
          have hcb := hf.contains hp hpos hva hc h.2
          exact ⟨hcb, hf.stop_eq hp hpos hcb h.2⟩
        · rw [if_neg hany] at h
          exact absurd h.1 (by decide)
      · rintro ⟨hc, hend⟩
        refine ⟨_, _, rfl, ?_⟩
        rw [if_pos ⟨blk, hmem, hc⟩]
        exact ⟨rfl, hf.reserved hp hpos hc hend hsum htot⟩

/-! ## The condition where nothing wraps

The same condition on numbers: the range is in no free block, or it ends where its block ends. -/

/-- Away from the ends of the virtual address space, the test of the loop is whether the block holds
the range. -/
theorem BlockOk.contains_iff {va paddr psize : ℕ} (hb : BlockOk R va (pool.blkSize va))
    (hva : va + pool.blkSize va < 2 ^ 32) (hend : paddr + psize ≤ 2 ^ 32) (hpos : psize ≠ 0)
    (hup : reserveStart R paddr < reserveStop R paddr psize) :
    pool.Contains R paddr psize va ↔
      pool.holdsRange (reserveStart R paddr) (reserveStop R paddr psize) (.page va) = true := by
  have hlt := rangeStart_lt_rangeStop paddr hpos
  simp only [PagePool.holdsRange, Bool.and_eq_true, decide_eq_true_eq, wordAdd_of_lt hva]
  constructor
  · rintro ⟨hlo, hhi⟩
    unfold PagePool.stop at hhi
    rw [hb.reserveStart_eq hlo, hb.reserveStop_eq hlo]
    omega
  · rintro ⟨hstart, hstop⟩
    have h₁ := hb.aligned
    have h₂ := hb.end_le
    have h₃ := R.phys_lt
    have h₄ := R.virt_lt
    have h₅ := R.phys_aligned
    have h₆ := R.virt_aligned
    have hlow : reserveStart R paddr = R.physToVirt paddr / 4096 * 4096 :=
      btPageTrunc_eq (R.physToVirt_lt _)
    have hhigh : reserveStop R paddr psize = (R.physToVirt (paddr + psize) + 4095) % 2 ^ 32 / 4096 *
        4096 := by
      rw [reserveStop, btPageAlign_eq]
      unfold RamConfig.physToVirt wordAdd
      omega
    rw [hlow] at hstart hup
    rw [hhigh] at hstop hup
    unfold PagePool.Contains PagePool.stop rangeStart rangeStop RamConfig.virtToPhys at *
    unfold RamConfig.physToVirt at *
    omega

/-- Only one block holds an address. -/
theorem PoolRep.eq_of_holds {va w x : ℕ} (hp : PoolRep R pool blks) (hva : va ∈ blks)
    (hw : w ∈ blks) (hx : (pool.ext R va).Holds x) (hx' : (pool.ext R w).Holds x) : w = va := by
  obtain ⟨as, bs, rfl⟩ := List.append_of_mem hva
  rcases List.mem_cons.mp (List.perm_middle.mem_iff.mp hw) with rfl | hother
  · rfl
  · have hin : 0 < cover (pool.exts R (as ++ bs)) x :=
      cover_pos.mpr ⟨_, List.mem_map_of_mem hother, hx'⟩
    exact absurd (hp.cover_rest hx) hin.ne'

/-- Away from the ends of the virtual address space, what is asked of a range is that it ends with
its block. -/
theorem reserveSafe_iff {paddr psize : ℕ} (hp : PoolRep R pool blks)
    (hva : ∀ va ∈ blks, va ≠ 0 ∧ va + pool.blkSize va < 2 ^ 32) (hend : paddr + psize ≤ 2 ^ 32)
    (hpos : psize ≠ 0)
    (hup : reserveStart R paddr < reserveStop R paddr psize) :
    ReserveSafe R pool blks paddr psize ↔
      ∀ va ∈ blks, pool.Contains R paddr psize va → rangeStop paddr psize = pool.stop R va := by
  have hiff : ∀ va ∈ blks, pool.Contains R paddr psize va ↔
      pool.holdsRange (reserveStart R paddr) (reserveStop R paddr psize) (.page va) = true :=
    fun va hmem => (hp.block va hmem).contains_iff (hva va hmem).2 hend hpos hup
  have hlt := rangeStart_lt_rangeStop paddr hpos
  rw [ReserveSafe]
  cases hfind : blks.find? fun va => pool.holdsRange (reserveStart R paddr)
    (reserveStop R paddr psize) (.page va) with
  | none =>
    have hnone : ∀ va ∈ blks, ¬pool.Contains R paddr psize va := fun va hmem hc =>
      List.find?_eq_none.mp hfind va hmem ((hiff va hmem).mp hc)
    exact ⟨fun _ va hmem hc => absurd hc (hnone va hmem), fun _ => hnone⟩
  | some blk =>
    have hmem := List.mem_of_find?_eq_some hfind
    have hpass := List.find?_some hfind
    have hc := (hiff blk hmem).mpr hpass
    simp only [if_neg (hva blk hmem).1]
    constructor
    · rintro ⟨-, hstop⟩ va hva hc'
      have hsame := hp.eq_of_holds hmem hva (x := rangeStart paddr) ⟨hc.1, hlt.trans_le hc.2⟩
        ⟨hc'.1, hlt.trans_le hc'.2⟩
      rw [hsame]
      exact hstop
    · intro h
      exact ⟨hc, h blk hmem hc⟩

/-! ## Runs

Every reservation of the run is careful, so that the invariant of the pool is there for the one that
is looked at. -/

/-- The states of a pool when ranges that satisfy `ok` are reserved too. A range that was reserved
belongs to who asked for it, like a block that was allocated. -/
inductive ReserveReach (R : RamConfig) (ok : PoolSys → ℕ → ℕ → Prop) : PoolSys → Prop where
  | init (pool : PagePool) : ReserveReach R ok ⟨btPagePoolInit pool, [], []⟩
  | step {sys sys' : PoolSys} {op : PoolOp} : ReserveReach R ok sys → op.Ok R sys →
      op.step R sys = some sys' → ReserveReach R ok sys'
  | reserve {sys : PoolSys} {paddr psize error : ℕ} {pool' : PagePool} : ReserveReach R ok sys →
    psize ≠ 0 →
      ok sys paddr psize → btPagePoolReserve R sys.pool paddr psize = some (error, pool') →
      ReserveReach R ok { sys with
        pool := pool'
        live := if error = 0 then (rangeStart paddr, rangeStop paddr psize - rangeStart paddr) ::
          sys.live else sys.live }

/-- The free list is as `ReserveSafe` asks. -/
def SafeReserve (R : RamConfig) (sys : PoolSys) (paddr psize : ℕ) : Prop :=
  ∀ blks, PoolRep R sys.pool blks → ReserveSafe R sys.pool blks paddr psize

variable {sys : PoolSys}

/-- What is free and what is used is all there is. -/
theorem PoolInv.accounts (hi : PoolInv R sys blks) :
    totalSize (sys.pool.exts R blks) + sys.pool.usedSize = sys.pool.totalSize ∧
      sys.pool.totalSize < 2 ^ 32 := by
  rw [hi.used, hi.total]
  exact ⟨hi.sum_eq, hi.total_lt⟩

/-- The pages of a range that was reserved are those of a live block. -/
theorem PoolInv.reserved {va paddr psize : ℕ} {pool' : PagePool} (hi : PoolInv R sys blks)
    (hpos : psize ≠ 0) (hva : va ∈ blks) (hc : sys.pool.Contains R paddr psize va)
    (hr : Reserved R sys.pool pool' blks paddr psize) :
    ∃ blks', PoolInv R { sys with
      pool := pool'
      live := (rangeStart paddr, rangeStop paddr psize - rangeStart paddr) :: sys.live } blks' := by
  have hlt := rangeStart_lt_rangeStop paddr hpos
  have hok := hi.rep.block va hva
  have hend := hc.2.trans hok.end_le
  have hstart : rangeStart paddr % 4096 = 0 := Nat.mul_mod_left ..
  have hstop : rangeStop paddr psize % 4096 = 0 := Nat.mul_mod_left ..
  have hlow : 4096 ≤ rangeStart paddr := by
    have h₁ := hok.phys_pos
    have h₂ := hc.1
    omega
  have hal : btPageAlign (rangeStop paddr psize - rangeStart paddr) =
      rangeStop paddr psize - rangeStart paddr :=
    btPageAlign_of_aligned (by omega) (by omega)
  obtain ⟨blks', hp', hcov, hsum⟩ := hr.free
  refine ⟨blks', ⟨hp', fun x => ?_, hi.once, hi.inside, hi.zero, ?_⟩, hr.total.trans hi.total, ?_⟩
  · have htile := hi.tiled x
    have hone := hi.once x
    simp only [PoolSys.liveExts, List.map_cons, cover_cons, hal, Extent.holds_mk,
      Nat.add_sub_of_le hlt.le, hcov]
    change (if _ then _ else _) + (cover sys.liveExts x + _) = cover sys.attached x
    split_ifs with hin
    · -- the byte was free
      have hfree : 0 < cover (sys.pool.exts R blks) x :=
        cover_pos.mpr ⟨_, List.mem_map_of_mem hva, hc.1.trans hin.1, hin.2.trans_le hc.2⟩
      omega
    · omega
  · rintro e he
    rcases List.mem_cons.mp he with rfl | he
    · exact ⟨by omega, by omega, hstart⟩
    · exact hi.live_ok e he
  · have hused := hi.used
    simp only [PoolSys.liveExts, List.map_cons, totalSize_cons, hal]
    change pool'.usedSize = _ + totalSize sys.liveExts
    rw [hr.used]
    omega

/-- The invariant holds with reservations too, if they are safe. -/
theorem poolInv_reserveReach (h : ReserveReach R (SafeReserve R) sys) :
    ∃ blks, PoolInv R sys blks := by
  induction h with
  | init pool => exact ⟨[], poolInv_init pool⟩
  | step _ hok hs ih =>
    obtain ⟨blks, hi⟩ := ih
    obtain ⟨sys', blks', hs', hi'⟩ := poolInv_step hi _ hok
    obtain rfl := Option.some.inj (hs.symm.trans hs')
    exact ⟨blks', hi'⟩
  | reserve _ hpos hok hs ih =>
    obtain ⟨blks, hi⟩ := ih
    obtain ⟨error, pool', heq, hdone⟩ :=
      (reserveExact_iff hi.rep hpos hi.accounts.1 hi.accounts.2).mpr (hok blks hi.rep)
    obtain ⟨rfl, rfl⟩ := Prod.mk.inj (Option.some.inj (hs.symm.trans heq))
    split at hdone
    · rename_i hany
      obtain ⟨rfl, hr⟩ := hdone
      obtain ⟨va, hva, hc⟩ := hany
      exact hi.reserved hpos hva hc hr
    · obtain ⟨rfl, rfl⟩ := hdone
      exact ⟨blks, hi⟩

/-- **When a reservation is exact.** In every state of a pool that attaching, allocating, freeing
and exact reservations lead to, and for every range that is not empty, a call does what is asked of
it if and only if the block that the loop finds holds the range and ends with it, or the loop finds
none and no block holds the range. -/
theorem page_reserve_exact_iff (paddr : ℕ) {psize : ℕ} (h : ReserveReach R (SafeReserve R) sys)
    (hpos : psize ≠ 0) :
    ∃ blks, PoolRep R sys.pool blks ∧
      totalSize (sys.pool.exts R blks) + sys.pool.usedSize = sys.pool.totalSize ∧
      (ReserveExact R sys.pool blks paddr psize ↔ ReserveSafe R sys.pool blks paddr psize) := by
  obtain ⟨blks, hi⟩ := poolInv_reserveReach h
  exact ⟨blks, hi.rep, hi.accounts.1, reserveExact_iff hi.rep hpos hi.accounts.1 hi.accounts.2⟩

/-- A pool with one block of four pages -/
theorem reserveReach_four_pages (ok : PoolSys → ℕ → ℕ → Prop) :
    ∃ sys, ReserveReach identityRam ok sys ∧
    PoolInv identityRam sys [0x1000] ∧ sys.pool.blkSize 0x1000 = 0x4000 := by
  have hr : RegionOk 0x1000 0x4000 := ⟨by decide, by decide, by decide, by decide, by decide⟩
  obtain ⟨sys, blks, hs, -⟩ := poolInv_attach (R := identityRam)
    (poolInv_init ⟨⟨id, id⟩, fun _ => 0, 0, 0⟩) (hr.attach_ok _)
  obtain ⟨blks, hi⟩ := regionInv_attach hr hs
  have hlive : sys.live = [] := by
    simp only [PoolOp.step, Option.map_eq_some_iff] at hs
    obtain ⟨pool, -, rfl⟩ := hs
    rfl
  obtain ⟨va, rfl, hphys, hsize⟩ := hi.whole hr hlive
  obtain rfl : va = 0x1000 :=
    identityRam.virtToPhys_inj (hi.rep.block va (by simp)).va_lt (by decide) hphys
  exact ⟨sys, .step (.init _) (hr.attach_ok _) hs, hi.toPoolInv, hsize⟩

/-- The last two pages of the four can be reserved. -/
theorem page_reserve_exact_iff_four_pages :
    ∃ sys, ReserveReach identityRam (SafeReserve identityRam) sys ∧
    ∃ blks, PoolRep identityRam sys.pool blks ∧
      ReserveExact identityRam sys.pool blks 0x3000 0x2000 := by
  obtain ⟨sys, h, hi, hsize⟩ := reserveReach_four_pages (SafeReserve identityRam)
  obtain ⟨blks, hp, -, hiff⟩ := page_reserve_exact_iff 0x3000 h (show 0x2000 ≠ 0 by decide)
  obtain rfl := hp.unique hi.rep
  refine ⟨sys, h, _, hp,
    hiff.mpr ((reserveSafe_iff hp ?_ (by decide) (by decide) (by decide)).mpr ?_)⟩
  · simp [hsize]
  · rintro va hva -
    obtain rfl := List.mem_singleton.mp hva
    rw [PagePool.stop, hsize]
    decide

/-- Reserving the first page of the four takes all of them out of the free list. -/
theorem page_reserve_drops_tail : ∃ sys blks, ReserveReach identityRam (fun _ _ _ => True) sys ∧
    PoolRep identityRam sys.pool blks ∧ ¬ReserveExact identityRam sys.pool blks 0x1000 0x1000 := by
  obtain ⟨sys, h, hi, hsize⟩ := reserveReach_four_pages fun _ _ _ => True
  refine ⟨sys, _, h, hi.rep, fun hexact => ?_⟩
  have hsafe := (reserveExact_iff hi.rep (by decide) hi.accounts.1 hi.accounts.2).mp hexact
  have hstop :=
    (reserveSafe_iff hi.rep (by simp [hsize]) (by decide) (by decide) (by decide)).mp hsafe
    0x1000 (by simp) ⟨by decide, by rw [PagePool.stop, hsize]; decide⟩
  rw [PagePool.stop, hsize] at hstop
  exact absurd hstop (by decide)

end BitThunder
