import BitThunder.Mm.PageSpec

/-!
# Which request gets which pages

What `bt_page_pool_alloc` finds for a size and an alignment, and whether that is enough.

* `btPagePoolAlloc_eq`: the call on a well-formed pool, as a search over its blocks;
* `gap_le`: the first aligned address of a block is the one the code computes;
* `page_alloc_aligned_exact`: an aligned request is refused only if no block has room for it;
* `page_alloc_any_size_iff`: for which requests of any size at all the call is sound.

For requests of whole pages the point is that the gap that the code computes is the distance to the
first physical address with the alignment, although it is computed on the virtual address. This
needs the two addresses of the RAM to differ by a multiple of the alignment. Where nothing wraps,
the test of the loop is then the same as having room for an aligned run.

Without these assumptions the call can still be right. `RoomFound` says of the block that the loop
finds whether what is taken was there. If it was not, the list is followed edit by edit: either it
no longer comes back to its head, or the block that was found is still on it, with the gap for its
size. That shows that the condition is exact.
-/

namespace BitThunder

variable {R : RamConfig} {pool : PagePool} {blks as bs : List ℕ} {blk size psize order : ℕ}

/-! ## The call as a search

On a well-formed list the loop is `find?` with the test of the code, and what it does to the block
that it finds is the rest of the call. -/

/-- The bytes in front of the first address of a block that is aligned -/
def gap (order va : ℕ) : ℕ := if order = 0 then 0 else alignDiff order va

/-- The pool after `size` bytes behind the gap of a block have been taken -/
def PagePool.carved (pool : PagePool) (size order blk : ℕ) : PagePool :=
  (takeFront (if gap order blk = 0 then pool else splitHead pool blk (gap order blk))
    ((blk + gap order blk) % 2 ^ 32) size).setUsed ((pool.usedSize + size) % 2 ^ 32)

/-- Taking a block apart does not count anything as used. -/
theorem carved_used (pool : PagePool) (blk size order : ℕ) :
    (takeFront (if gap order blk = 0 then pool else splitHead pool blk (gap order blk))
      ((blk + gap order blk) % 2 ^ 32) size).usedSize = pool.usedSize := by
  rw [takeFront_usedSize]
  split_ifs
  · rfl
  · exact splitHead_usedSize

/-- The call on a well-formed pool -/
theorem btPagePoolAlloc_eq (order : ℕ) (hp : PoolRep R pool blks) (hpos : psize ≠ 0) :
    btPagePoolAlloc R pool psize order =
      match blks.find? fun va => pool.fits (btPageAlign psize) order (.page va) with
      | none => some (0, pool)
      | some blk => if blk = 0 then some (0, pool) else
          some (R.virtToPhys ((blk + gap order blk) % 2 ^ 32),
            pool.carved (btPageAlign psize) order blk) := by
  have hsearch := hp.ring.search hp.length_le (pool.fits (btPageAlign psize) order)
  rw [btPagePoolAlloc, if_neg hpos]
  simp only [hsearch, List.find?_map]
  cases hfind : blks.find? (pool.fits (btPageAlign psize) order ∘ PageCell.page) with
  | none =>
    simp only [Function.comp_def] at hfind
    simp only [Option.map_none, hfind]
  | some blk =>
    simp only [Function.comp_def] at hfind
    have hused := carved_used pool blk (btPageAlign psize) order
    unfold gap at hused
    simp only [Option.map_some, hfind, PagePool.carved, gap, hused]
    rfl

/-! ## The gap

The code computes it with a mask on the virtual address. It is the distance to the next multiple of
the alignment. -/

/-- A gap is a number of pages, also where its arithmetic wraps. -/
theorem alignDiff_pages (order : ℕ) {va : ℕ} (ha : va % 4096 = 0) :
    alignDiff order va % 4096 = 0 := by
  have hmask : wordNot (alignMask order) = 2 ^ 32 - 2 ^ (12 + order) ∨
      wordNot (alignMask order) = 0 := by
    by_cases h : btPageSize * 2 ^ order < 2 ^ 32
    · refine .inl ?_
      have hpos : 0 < 2 ^ (12 + order) := by positivity
      rw [wordNot, alignMask_eq h]
      omega
    · -- the alignment does not fit into a word, and the shift leaves nothing of it
      refine .inr ?_
      have hdvd : 2 ^ 32 ∣ btPageSize <<< order := by
        have hA : btPageSize * 2 ^ order = 2 ^ (12 + order) := by
          rw [pow_add]
          rfl
        rw [Nat.shiftLeft_eq, hA]
        rw [hA] at h
        exact pow_dvd_pow 2 ((Nat.pow_le_pow_iff_right (by decide)).mp (Nat.le_of_not_lt h))
      rw [wordNot, alignMask, Nat.mod_eq_zero_of_dvd hdvd]
      rfl
  have haligned : ((va + alignMask order) % 2 ^ 32 &&& wordNot (alignMask order)) % 4096 = 0 := by
    rcases hmask with h | h
    · by_cases hle : 12 + order ≤ 32
      · rw [h, land_highMask hle]
        exact Nat.mod_eq_zero_of_dvd
          ((Dvd.intro (2 ^ order) (by rw [pow_add]; rfl)).trans (Nat.dvd_mul_left ..))
      · have hge : 2 ^ 32 ≤ 2 ^ (12 + order) := Nat.pow_le_pow_right (by decide) (by omega)
        rw [h, Nat.sub_eq_zero_of_le hge, Nat.and_zero]
    · rw [h, Nat.and_zero]
  simp only [alignDiff]
  omega

theorem gap_pages (order : ℕ) {va : ℕ} (ha : va % 4096 = 0) : gap order va % 4096 = 0 := by
  unfold gap
  split_ifs
  · rfl
  · exact alignDiff_pages order ha

theorem alignment_eq (order : ℕ) : btPageSize * 2 ^ order = 2 ^ (12 + order) := by
  rw [pow_add]
  rfl

/-- Behind the gap, a block is aligned. -/
theorem gap_aligned {va : ℕ} (hword : btPageSize * 2 ^ order < 2 ^ 32) (ha : va % 4096 = 0)
    (hva : order ≠ 0 → va + alignMask order < 2 ^ 32) :
    (va + gap order va) % (btPageSize * 2 ^ order) = 0 := by
  unfold gap
  split_ifs with h
  · subst h
    exact ha
  · rw [alignment_eq]
    exact (alignDiff_spec hword (hva h)).1

/-- No address before the end of the gap is aligned. -/
theorem gap_le {va k : ℕ} (hword : btPageSize * 2 ^ order < 2 ^ 32)
    (hva : order ≠ 0 → va + alignMask order < 2 ^ 32)
    (hk : (va + k) % (btPageSize * 2 ^ order) = 0) : gap order va ≤ k := by
  unfold gap
  split_ifs with h
  · exact Nat.zero_le k
  · rw [alignment_eq] at hk
    obtain ⟨hmod, -, hsmall⟩ := alignDiff_spec hword (hva h)
    by_contra hlt
    -- two multiples less than the alignment apart
    have hdvd : 2 ^ (12 + order) ∣ alignDiff order va - k := by
      have := Nat.dvd_sub (Nat.dvd_of_mod_eq_zero hmod) (Nat.dvd_of_mod_eq_zero hk)
      rwa [Nat.add_sub_add_left] at this
    have hge := Nat.le_of_dvd (by omega) hdvd
    omega

/-! ## Aligned requests

Where sizes are whole pages and the addresses of the RAM suit the alignment, the call gets what an
unbounded computation would. -/

/-- A run of `size` bytes of one free block, at a physical address that is a multiple of the
alignment -/
def PagePool.Span (R : RamConfig) (pool : PagePool) (blks : List ℕ) (size order q : ℕ) : Prop :=
  0 < size ∧ q % (btPageSize * 2 ^ order) = 0 ∧ ∃ va ∈ blks, R.virtToPhys va ≤ q ∧
  q + size ≤ pool.stop R va

/-- What a request for `size` bytes comes to -/
structure AllocExact (R : RamConfig) (pool : PagePool) (blks : List ℕ) (size order pa : ℕ)
    (pool' : PagePool) :
    Prop where
  /-- It gets such a run if there is one, and the other free bytes stay free. -/
  taken : (∃ q, pool.Span R blks size order q) → pa ≠ 0 ∧ pool.Span R blks size order pa ∧
    ∃ blks', PoolRep R pool' blks' ∧
      ∀ x, cover ((pa, size) :: pool'.exts R blks') x = cover (pool.exts R blks) x
  /-- nothing is granted, and nothing happens, where no block has such a run -/
  refused : pa = 0 ∧ pool' = pool ↔ ∀ q, ¬pool.Span R blks size order q

/-- Physical addresses are as aligned as virtual ones. -/
theorem virtToPhys_alignment (hword : btPageSize * 2 ^ order < 2 ^ 32)
    (hoff : ((btPageSize * 2 ^ order : ℕ) : ℤ) ∣ (R.phys : ℤ) - R.virt) (va : ℕ) :
    R.virtToPhys va % (btPageSize * 2 ^ order) = va % (btPageSize * 2 ^ order) := by
  have hdvd : btPageSize * 2 ^ order ∣ 2 ^ 32 := by
    rw [alignment_eq] at hword ⊢
    exact pow_dvd_pow 2 ((Nat.pow_lt_pow_iff_right (by decide)).mp hword).le
  have hvirt := R.virt_lt
  rw [RamConfig.virtToPhys, Nat.mod_mod_of_dvd _ hdvd]
  refine ((Nat.modEq_iff_dvd).mpr ?_ : va ≡ va + 2 ^ 32 - R.virt +
    R.phys [MOD btPageSize * 2 ^ order]).symm
  have hsum : ((va + 2 ^ 32 - R.virt + R.phys : ℕ) : ℤ) - va =
      2 ^ 32 + ((R.phys : ℤ) - R.virt) := by omega
  rw [hsum]
  exact dvd_add (by exact_mod_cast hdvd) hoff

section Aligned

variable (hword : btPageSize * 2 ^ order < 2 ^ 32) (hal : AlignOk blks size order)

include hal

/-- Under the condition neither the aligned address nor the size with the gap wraps. -/
theorem AlignOk.no_wrap {va : ℕ} (hva : va ∈ blks) (ho : order ≠ 0) :
    va + alignMask order < 2 ^ 32 ∧ size + alignDiff order va < 2 ^ 32 :=
  (hal.resolve_left ho).2 va hva

/-- Where nothing wraps, the test of the loop is whether the block has room behind its gap. -/
theorem fits_iff {va : ℕ} (hva : va ∈ blks) :
    pool.fits size order (.page va) = true ↔ gap order va + size ≤ pool.blkSize va := by
  simp only [PagePool.fits, Bool.and_eq_true, decide_eq_true_eq, Bool.or_eq_true, beq_iff_eq, gap]
  split_ifs with ho
  · simp [ho]
  · rw [Nat.mod_eq_of_lt (hal.no_wrap hva ho).2]
    omega

include hword

/-- A block has room behind its gap if and only if it has a run at an aligned address. -/
theorem room_iff {va : ℕ} (hoff : ((btPageSize * 2 ^ order : ℕ) : ℤ) ∣ (R.phys : ℤ) - R.virt)
    (hp : PoolRep R pool blks) (hva : va ∈ blks) :
    gap order va + size ≤ pool.blkSize va ↔
      ∃ q, q % (btPageSize * 2 ^ order) = 0 ∧ R.virtToPhys va ≤ q ∧ q + size ≤ pool.stop R va := by
  have haligned := (hp.block va hva).aligned
  have hmod : ∀ k, (R.virtToPhys va + k) % (btPageSize * 2 ^ order) =
      (va + k) % (btPageSize * 2 ^ order) := fun k => by
    rw [Nat.add_mod, virtToPhys_alignment hword hoff, ← Nat.add_mod]
  unfold PagePool.stop
  constructor
  · intro h
    refine ⟨R.virtToPhys va + gap order va, ?_, Nat.le_add_right .., by omega⟩
    rw [hmod]
    exact gap_aligned hword haligned fun ho => (hal.no_wrap hva ho).1
  · rintro ⟨q, hq, hlo, hhi⟩
    obtain ⟨k, rfl⟩ := Nat.exists_eq_add_of_le hlo
    rw [hmod] at hq
    have hle := gap_le hword (fun ho => (hal.no_wrap hva ho).1) hq
    omega

end Aligned

/-- **Aligned page allocation is exact.** In a well-formed pool without a block at virtual address
`0`, and where the alignment arithmetic does not wrap, a request for a number of pages gets a run of
them at the first aligned address of a free block, and is refused if and only if no free block has
such a run. -/
theorem page_alloc_aligned_exact (hp : PoolRep R pool blks) (hnull : 0 ∉ blks)
    (hword : btPageSize * 2 ^ order < 2 ^ 32)
    (hoff : ((btPageSize * 2 ^ order : ℕ) : ℤ) ∣ (R.phys : ℤ) - R.virt)
    (hsize : size < 2 ^ 32) (hpages : size % btPageSize = 0) (hal : AlignOk blks size order) :
    ∃ pa pool', btPagePoolAlloc R pool size order = some (pa, pool') ∧
      AllocExact R pool blks size order pa pool' := by
  by_cases hpos : size = 0
  · subst hpos
    refine ⟨0, pool, rfl, fun ⟨_, hq⟩ => absurd hq.1 (lt_irrefl 0),
      fun _ _ hq => absurd hq.1 (lt_irrefl 0), fun _ => ⟨rfl, rfl⟩⟩
  have halign : btPageAlign size = size := btPageAlign_of_aligned hsize hpages
  have hspan : (∃ q, pool.Span R blks size order q) ↔
      ∃ va ∈ blks, pool.fits size order (.page va) = true := by
    constructor
    · rintro ⟨q, -, hq, va, hva, hlo, hhi⟩
      exact ⟨va, hva, (fits_iff hal hva).mpr
        ((room_iff hword hal hoff hp hva).mpr ⟨q, hq, hlo, hhi⟩)⟩
    · rintro ⟨va, hva, hfit⟩
      obtain ⟨q, hq, hlo, hhi⟩ := (room_iff hword hal hoff hp hva).mp ((fits_iff hal hva).mp hfit)
      exact ⟨q, Nat.pos_of_ne_zero hpos, hq, va, hva, hlo, hhi⟩
  rw [btPagePoolAlloc_eq order hp hpos, halign]
  cases hfind : blks.find? fun va => pool.fits size order (.page va) with
  | none =>
    have hno : ¬∃ q, pool.Span R blks size order q := fun h => by
      obtain ⟨va, hva, hfit⟩ := hspan.mp h
      exact List.find?_eq_none.mp hfind va hva hfit
    exact ⟨0, pool, rfl, fun h => absurd h hno, fun _ q hq => hno ⟨q, hq⟩, fun _ => ⟨rfl, rfl⟩⟩
  | some blk =>
    have hmem := List.mem_of_find?_eq_some hfind
    have hok := hp.block blk hmem
    have hfit := (fits_iff hal hmem).mp (by simpa using List.find?_some hfind)
    have hpa : R.virtToPhys ((blk + gap order blk) % 2 ^ 32) = R.virtToPhys blk + gap order blk :=
      hok.phys_add (by omega)
    have hfound : pool.Span R blks size order (R.virtToPhys blk + gap order blk) := by
      refine ⟨Nat.pos_of_ne_zero hpos, ?_, blk, hmem,
        Nat.le_add_right .., by unfold PagePool.stop; omega⟩
      rw [Nat.add_mod, virtToPhys_alignment hword hoff, ← Nat.add_mod]
      exact gap_aligned hword hok.aligned fun ho => (hal.no_wrap hmem ho).1
    have hne : R.virtToPhys blk + gap order blk ≠ 0 := by
      have := hok.phys_pos
      omega
    refine ⟨_, _, if_neg fun h : blk = 0 => hnull (h ▸ hmem), ?_⟩
    rw [hpa]
    refine ⟨fun _ => ⟨hne, hfound, ?_⟩, fun h => absurd h.1 hne, fun h => absurd hfound (h _)⟩
    obtain ⟨as, bs, rfl⟩ := List.append_of_mem hmem
    obtain ⟨blks', hp', hcover, -⟩ :=
      carve_spec hp hfit (gap_pages order hok.aligned) (Nat.pos_of_ne_zero hpos) hpages
    exact ⟨blks', hp'.setUsed _, hcover⟩

/-- A pool with one free block -/
def oneBlock (va n : ℕ) : PagePool :=
  ((⟨(⟨id, id⟩ : Links PageCell).initHead .poolHead, fun _ => 0, n, 0⟩ : PagePool).setSize va
  n).listAdd va .poolHead

/-- The pool is well formed if the block is. -/
theorem oneBlock_rep {va n : ℕ} (hb : BlockOk R va n) : PoolRep R (oneBlock va n) [va] := by
  have hempty : PoolRep R ⟨(⟨id, id⟩ : Links PageCell).initHead .poolHead, fun _ => 0, n, 0⟩
      ([] ++ []) :=
    ⟨Ring.initHead _ _, fun _ h => absurd h List.not_mem_nil, fun _ => Nat.zero_le 1⟩
  refine (hempty.insert hb List.not_mem_nil rfl fun x => ?_).1
  rw [List.append_nil, PagePool.exts_nil, cover_cons, cover_nil]
  split_ifs <;> decide

theorem oneBlock_size (va n : ℕ) : (oneBlock va n).blkSize va = n :=
  PagePool.blkSize_setSize_self ..

/-- Two pages at a multiple of four, from eight pages that begin at an odd one -/
theorem page_alloc_aligned_exact_two :
    ∃ pa pool', btPagePoolAlloc identityRam (oneBlock 0x3000 0x8000) 0x2000 2 =
    some (pa, pool') ∧ AllocExact identityRam (oneBlock 0x3000 0x8000)
    [0x3000] 0x2000 2 pa pool' := by
  have hb : BlockOk identityRam 0x3000 0x8000 :=
    ⟨by decide, by decide, by decide, by decide, by decide, by decide⟩
  refine page_alloc_aligned_exact (oneBlock_rep hb)
    (by decide) (by decide) (by decide) (by decide) (by decide)
    (.inr ⟨by decide, fun va hva => ?_⟩)
  obtain rfl := List.mem_singleton.mp hva
  decide

/-- A free block at virtual address `0` is taken for none. -/
theorem page_alloc_misses_null : ∃ R : RamConfig, R.phys = 0 ∧ R.virt = 0xC0000000 ∧
    PoolRep R (oneBlock 0 0x1000) [0] ∧
    ¬∃ pa pool', btPagePoolAlloc R (oneBlock 0 0x1000) 0x1000 0 = some (pa, pool') ∧
      AllocExact R (oneBlock 0 0x1000) [0] 0x1000 0 pa pool' := by
  let R : RamConfig := ⟨0, 0xC0000000, by decide, by decide, by decide, by decide⟩
  have hb : BlockOk R 0 0x1000 := ⟨by decide, by decide, by decide, by decide, by decide, by decide⟩
  refine ⟨R, rfl, rfl, oneBlock_rep hb, ?_⟩
  rintro ⟨pa, pool', heq, h⟩
  have hfit : (oneBlock 0 0x1000).fits (btPageAlign 0x1000) 0 (.page 0) = true := by
    simp only [PagePool.fits, oneBlock_size]
    decide
  rw [btPagePoolAlloc_eq 0 (oneBlock_rep hb)
    (by decide), List.find?_cons_of_pos (by simpa using hfit)] at heq
  obtain ⟨rfl, -⟩ := Prod.mk.inj (Option.some.inj (heq.symm.trans (if_pos rfl)))
  refine (h.taken ⟨0x40000000, by decide, by decide, 0, by simp, by decide, ?_⟩).1 rfl
  rw [PagePool.stop, oneBlock_size]
  decide

/-! ## Requests of any size

A size may round up to nothing, and the sum with the gap may wrap. The block that is found is then
compared with what is taken off it. -/

/-- A call that fails leaves the pool as it was: its list, the sizes of its blocks, and the
counters. -/
structure PoolKept (pool : PagePool) (blks : List ℕ) (pool' : PagePool) : Prop where
  /-- the blocks are on the list as before -/
  ring : Ring pool'.list .poolHead (blks.map .page)
  /-- with the same sizes -/
  size : ∀ va ∈ blks, pool'.blkSize va = pool.blkSize va
  /-- the counter is a word -/
  used : pool'.usedSize % 2 ^ 32 = pool.usedSize % 2 ^ 32
  total : pool'.totalSize = pool.totalSize

/-- What any request comes to: it fails, or it gets `psize` bytes that were free; in both cases the
free list ends, and holds blocks that are not empty and not part of what was given away. -/
structure AllocSound (R : RamConfig) (pool : PagePool) (blks : List ℕ) (psize pa : ℕ)
    (pool' : PagePool) : Prop where
  /-- the pool is as it was, or the run was free -/
  outcome : pa = 0 ∧ PoolKept pool blks pool' ∨ pa ≠ 0 ∧ 0 < psize ∧
    ∀ x, pa ≤ x → x < pa + psize → 0 < cover (pool.exts R blks) x
  /-- in both cases the list ends, and has nothing of the run -/
  list : ∃ blks' : List ℕ, Ring pool'.list .poolHead (blks'.map .page) ∧
    ∀ va ∈ blks', 0 < pool'.blkSize va ∧ (pa ≠ 0 → Extent.Apart (pool'.ext R va) (pa, psize))

/-- The block that the loop finds has `psize` bytes behind its gap, if it finds one. The last case
is a request that rounds to no pages at all and comes upon a block that is gap to the end of the
address space. -/
def RoomFound (R : RamConfig) (pool : PagePool) (blks : List ℕ) (psize order : ℕ) : Prop :=
  psize = 0 ∨ ∀ blk, (blks.find? fun va => pool.fits (btPageAlign psize) order (.page va)) =
  some blk →
    blk = 0 ∨ gap order blk + psize ≤ pool.blkSize blk ∨
      btPageAlign psize = 0 ∧ gap order blk = pool.blkSize blk ∧ pool.stop R blk = 2 ^ 32

/-- Free bytes lie above the first page and below the end of the address space. -/
theorem PoolRep.free_range {pa n : ℕ} (hp : PoolRep R pool blks) (hn : 0 < n)
    (hfree : ∀ x, pa ≤ x → x < pa + n → 0 < cover (pool.exts R blks) x) :
    4096 ≤ pa ∧ pa + n ≤ 2 ^ 32 := by
  have hbyte : ∀ x, 0 < cover (pool.exts R blks) x → 4096 ≤ x ∧ x < 2 ^ 32 := by
    intro x hx
    obtain ⟨e, he, hlo, hhi⟩ := cover_pos.mp hx
    obtain ⟨va, hva, rfl⟩ := List.mem_map.mp he
    have hb := hp.block va hva
    have h₁ := hb.phys_pos
    have h₂ := hb.phys_aligned
    have h₃ := hb.end_le
    simp only [PagePool.ext] at hlo hhi
    omega
  have hfirst := hbyte pa (hfree pa le_rfl (by omega))
  have hlast := hbyte (pa + n - 1) (hfree _ (by omega) (by omega))
  omega

/-- A request that is not rounded to nothing is rounded up. -/
theorem btPageAlign_cases {n : ℕ} (hn : n < 2 ^ 32) :
    btPageAlign n = 0 ∧ 2 ^ 32 - 4096 < n ∨ n ≤ btPageAlign n ∧ btPageAlign n < n + 4096 ∨
      n = 0 := by
  rw [btPageAlign_eq]
  omega

namespace Links

variable {α : Type} [DecidableEq α] {L : Links α} {t u c : α}

/-- What `takeFront` does to the list behind `splitHead`: the remainder `u` takes the place of `t`
behind `c`. -/
theorem unlink_insertAfter_twice (htc : t ≠ c) (hut : u ≠ t) (hct : L.next c ≠ t) {x : α}
    (hx : x ≠ t) :
    (((L.insertAfter t c).insertAfter u t).unlink t).next x = (L.insertAfter u c).next x ∧
      (((L.insertAfter t c).insertAfter u t).unlink t).prev x = (L.insertAfter u c).prev x := by
  simp only [insertAfter, link, unlink, setNext, setPrev, Function.update_apply]
  constructor <;> grind

/-- If `t` was there already, the remainder is linked to itself. -/
theorem next_unlink_insertAfter_next (htc : t ≠ c) (hut : u ≠ t) (hct : L.next c = t) (x : α) :
    (((L.insertAfter t c).insertAfter u t).unlink t).next x = if x = u ∨ x = t then u
      else L.next x := by
  simp only [insertAfter, link, unlink, setNext, setPrev, Function.update_apply]
  grind

/-- If the remainder is the block itself, so is that one. -/
theorem next_unlink_insertAfter_self (htc : t ≠ c) (x : α) :
    (((L.insertAfter t c).insertAfter c t).unlink t).next x = if x = c ∨ x = t then c
      else L.next x := by
  simp only [insertAfter, link, unlink, setNext, setPrev, Function.update_apply]
  grind

end Links

/-- A cell that points to itself and that the list leads to is in no ring. -/
theorem Ring.not_of_self {α : Type} [DecidableEq α] {L L' : Links α} {h u x : α} {xs ys : List α}
    (hr : Ring L h xs) (hr' : Ring L' h ys) (hx : x ∈ xs) (hu : u ≠ h) (hxu : x = u ∨ L'.next x = u)
    (hself : L'.next u = u)
    (hn : ∀ c ∈ h :: xs, c ≠ x → L'.next c = L.next c ∨ L'.next c = x) : False := by
  have hmem := hr.mem_of_leads hr' hx hn
  have humem : u ∈ h :: ys := by
    rcases hxu with rfl | hxu
    · exact hmem
    · exact hxu ▸ hr'.next_mem_cells hmem
  exact hr'.next_ne_self ((List.mem_cons.mp humem).resolve_left hu) hself

/-- When the gap wraps around the address space, the block that was found is still on the list if
the list ends at all, with the gap for its size. -/
theorem wrapped_list {d : ℕ} {blks' : List ℕ} (hp : PoolRep R pool (as ++ blk :: bs))
    (hd : d < 2 ^ 32) (hsize : size ≤ pool.blkSize blk) (hwrap : 2 ^ 32 ≤ d + size)
    (hrest : d + size - 2 ^ 32 ≤ pool.blkSize blk)
    (hr : Ring (takeFront (splitHead pool blk d) ((blk + d) % 2 ^ 32) size).list .poolHead
    (blks'.map .page)) :
    2 ^ 32 < d + size ∧ blk ∈ blks' ∧
      (takeFront (splitHead pool blk d) ((blk + d) % 2 ^ 32) size).blkSize blk = d := by
  have hok := hp.block blk (by simp)
  have hend := hok.end_le
  have hphys := hok.phys_pos
  have hva := hok.va_lt
  have hne : (blk + d) % 2 ^ 32 ≠ blk := by omega
  have htc : PageCell.page ((blk + d) % 2 ^ 32) ≠ .page blk := fun h => hne (PageCell.page.inj h)
  have hcell : PageCell.page blk ∈ .poolHead :: (as ++ blk :: bs).map .page := by simp
  have hfront : (splitHead pool blk d).blkSize blk = d := PagePool.blkSize_setSize_self ..
  have hback : (splitHead pool blk d).blkSize ((blk + d) % 2 ^ 32) =
      (pool.blkSize blk + 2 ^ 32 - d) % 2 ^ 32 :=
    (PagePool.blkSize_setSize_ne _ hne).trans (PagePool.blkSize_setSize_self ..)
  have hmem : ∀ {cells : List PageCell}, blks'.map .page = cells → .page blk ∈ cells →
      blk ∈ blks' := by
    rintro _ rfl h
    obtain ⟨va, hva, he⟩ := List.mem_map.mp h
    exact PageCell.page.inj he ▸ hva
  by_cases hexact : (splitHead pool blk d).blkSize ((blk + d) % 2 ^ 32) = size
  · -- nothing remains of the block behind what was taken
    rw [takeFront, if_pos hexact] at hr ⊢
    rw [hback] at hexact
    refine ⟨by omega, ?_, hfront⟩
    have hlinks := fun (c : PageCell) (hc : c ≠ .page ((blk + d) % 2 ^ 32)) =>
      Links.unlink_insertAfter htc (hp.ring.prev_next hcell) hc
    exact hmem (hp.ring.eq_of_agree (t := .page ((blk + d) % 2 ^ 32)) hr
      (by simp) (fun c hc => (hlinks c hc).1)
      fun c hc => (hlinks c hc).2) (by simp)
  · have hlist : (takeFront (splitHead pool blk d) ((blk + d) % 2 ^ 32) size).list =
        (((pool.list.insertAfter (.page ((blk + d) % 2 ^ 32)) (.page blk)).insertAfter
          (.page (((blk + d) % 2 ^ 32 + size) % 2 ^ 32)) (.page ((blk + d) % 2 ^ 32))).unlink
            (.page ((blk + d) % 2 ^ 32))) := by
      rw [takeFront, if_neg hexact]
      rfl
    rw [hlist] at hr
    have hu : ((blk + d) % 2 ^ 32 + size) % 2 ^ 32 = (blk + (d + size - 2 ^ 32)) % 2 ^ 32 := by
      omega
    by_cases hzero : d + size = 2 ^ 32
    · -- the remainder is the block that was found
      have hself : ((blk + d) % 2 ^ 32 + size) % 2 ^ 32 = blk := by omega
      rw [hself] at hr
      have hnext := Links.next_unlink_insertAfter_self (L := pool.list) htc
      refine (hp.ring.not_of_self (x := .page blk) (u := .page blk) hr
        (by simp) (by simp) (.inl rfl)
        ((hnext _).trans (if_pos (.inl rfl))) fun c _ hc => ?_).elim
      by_cases ht : c = .page ((blk + d) % 2 ^ 32)
      · exact .inr ((hnext c).trans (if_pos (.inr ht)))
      · exact .inl ((hnext c).trans (if_neg (not_or.mpr ⟨hc, ht⟩)))
    · have hnot := hp.inside_notMem (d := d + size - 2 ^ 32) (by omega) (by omega)
      have hne' : (takeFront (splitHead pool blk d) ((blk + d) % 2 ^ 32) size).blkSize blk =
          ((splitHead pool blk d).setSize (((blk + d) % 2 ^ 32 + size) % 2 ^ 32)
            (((splitHead pool blk d).blkSize ((blk + d) % 2 ^ 32) + 2 ^ 32 - size) % 2 ^
              32)).blkSize blk := by
        rw [takeFront, if_neg hexact]
        rfl
      rw [hne']
      rw [← hu] at hnot
      generalize hrem : ((blk + d) % 2 ^ 32 + size) % 2 ^ 32 = u at *
      have hut : PageCell.page u ≠ .page ((blk + d) % 2 ^ 32) := fun h => by
        have := PageCell.page.inj h
        omega
      have hub : u ≠ blk := fun h => hnot (by simp [h])
      by_cases hct : pool.list.next (.page blk) = .page ((blk + d) % 2 ^ 32)
      · have hnext := Links.next_unlink_insertAfter_next (L := pool.list) htc hut hct
        have hafter : PageCell.page ((blk + d) % 2 ^ 32) ∈ (as ++ blk :: bs).map .page := by
          have h := hp.ring.next_mem_cells hcell
          rw [hct] at h
          exact (List.mem_cons.mp h).resolve_left (by simp)
        refine (hp.ring.not_of_self (u := .page u) hr hafter
          (by simp) (.inr ((hnext _).trans (if_pos (.inr rfl))))
          ((hnext _).trans (if_pos (.inl rfl))) fun c hc hne => .inl
            ((hnext c).trans (if_neg ?_))).elim
        rintro (rfl | h)
        · exact hnot (by simpa using hc)
        · exact hne h
      · refine ⟨by omega, ?_, (PagePool.blkSize_setSize_ne _ hub.symm).trans hfront⟩
        have hlinks := fun (c : PageCell) (hc : c ≠ .page ((blk + d) % 2 ^ 32)) =>
          Links.unlink_insertAfter_twice htc hut hct hc
        have hins : Ring (pool.list.insertAfter (.page u) (.page blk)) .poolHead
            (((as ++ [blk]).map .page) ++ .page u :: bs.map .page) := by
          have hring : Ring pool.list .poolHead (((as ++ [blk]).map .page) ++ bs.map .page) := by
            rw [← List.map_append, List.append_assoc, List.singleton_append]
            exact hp.ring
          have hnew := hring.insertAfter (n := .page u) (by
            rw [← List.map_append, List.append_assoc, List.singleton_append]
            simpa using hnot)
          simpa using hnew
        exact hmem (hins.eq_of_agree (t := .page ((blk + d) % 2 ^ 32)) hr
          (by simp) (fun c hc => (hlinks c hc).1)
          fun c hc => (hlinks c hc).2) (by simp)

theorem gap_lt (order va : ℕ) : gap order va < 2 ^ 32 := by
  unfold gap
  split_ifs
  · decide
  · exact Nat.mod_lt _ (by decide)

/-- What the test of the loop says about the block that was found -/
theorem fits_gap {va : ℕ} (h : pool.fits size order (.page va) = true) :
    size ≤ pool.blkSize va ∧ (order = 0 ∧ gap order va = 0 ∨
    (size + gap order va) % 2 ^ 32 ≤ pool.blkSize va) := by
  simp only [PagePool.fits, Bool.and_eq_true, decide_eq_true_eq, Bool.or_eq_true, beq_iff_eq] at h
  refine ⟨h.1, ?_⟩
  by_cases ho : order = 0
  · exact .inl ⟨ho, if_pos ho⟩
  · exact .inr (by rw [gap, if_neg ho]; exact h.2.resolve_left ho)

/-- With room behind the gap the call is sound. -/
theorem carved_sound (hp : PoolRep R pool (as ++ blk :: bs)) (hpos : 0 < psize)
    (hroom : gap order blk + psize ≤ pool.blkSize blk) :
    AllocSound R pool (as ++ blk :: bs) psize (R.virtToPhys ((blk + gap order blk) % 2 ^ 32))
      (pool.carved (btPageAlign psize) order blk) := by
  have hok := hp.block blk (by simp)
  have h₁ := hok.end_le
  have h₂ := hok.phys_pos
  have h₃ := hok.phys_aligned
  have h₄ := hok.size_aligned
  have hpages := gap_pages order hok.aligned
  obtain ⟨ha, hge, hlt⟩ := btPageAlign_of_lt (x := psize) (by omega)
  have hle : gap order blk + btPageAlign psize ≤ pool.blkSize blk := by omega
  obtain ⟨blks', hp', hcover, -⟩ := carve_spec hp hle hpages (by omega) ha
  replace hcover : ∀ x, cover ((R.virtToPhys blk + gap order blk, btPageAlign psize) ::
      (pool.carved (btPageAlign psize) order blk).exts R blks') x =
      cover (pool.exts R (as ++ blk :: bs)) x := hcover
  have hpa : R.virtToPhys ((blk + gap order blk) % 2 ^ 32) = R.virtToPhys blk + gap order blk :=
    hok.phys_add (by omega)
  rw [hpa]
  refine ⟨.inr ⟨by omega, hpos, fun x hlo hhi => ?_⟩, blks', hp'.ring,
    fun va hva => ⟨(hp'.block va hva).pos, ?_⟩⟩
  · rw [← hcover x, cover_cons, if_pos (Extent.holds_mk.mpr ⟨hlo, by omega⟩)]
    exact Nat.succ_pos _
  · rintro - x ⟨hx, hlo, hhi⟩
    have hone := (hcover x).trans_le (hp.once x)
    rw [cover_cons, if_pos (Extent.holds_mk.mpr ⟨hlo, by dsimp only at hhi; omega⟩)] at hone
    have hfree : 0 < cover ((pool.carved (btPageAlign psize) order blk).exts R blks') x :=
      cover_pos.mpr ⟨_, List.mem_map_of_mem hva, hx⟩
    omega

theorem carved_total (size order : ℕ) :
    (pool.carved size order blk).totalSize = pool.totalSize := by
  rw [PagePool.carved, PagePool.totalSize_setUsed, takeFront_totalSize]
  split_ifs
  · rfl
  · exact splitHead_totalSize

/-- A request rounded to nothing, at a block that is gap to the end of the address space -/
theorem carved_nothing (hp : PoolRep R pool (as ++ blk :: bs))
    (hgap : gap order blk = pool.blkSize blk) (hstop : pool.stop R blk = 2 ^ 32) :
    AllocSound R pool (as ++ blk :: bs) psize (R.virtToPhys ((blk + gap order blk) % 2 ^ 32))
      (pool.carved 0 order blk) := by
  have hok := hp.block blk (by simp)
  have hpos := hok.pos
  have hend := hok.end_le
  have hphys := hok.phys_pos
  have hva := hok.va_lt
  unfold PagePool.stop at hstop
  have hpa : R.virtToPhys ((blk + gap order blk) % 2 ^ 32) = 0 := by
    rw [R.virtToPhys_add]
    omega
  have hne : (blk + gap order blk) % 2 ^ 32 ≠ blk := by omega
  -- behind the end of the address space is no block
  have hout : ∀ va ∈ as ++ blk :: bs, va ≠ (blk + gap order blk) % 2 ^ 32 := fun va hmem h => by
    have := (hp.block va hmem).phys_pos
    rw [h, hpa] at this
    exact absurd this (lt_irrefl 0)
  have hback : (splitHead pool blk (gap order blk)).blkSize ((blk + gap order blk) % 2 ^ 32) =
      0 := by
    refine (PagePool.blkSize_setSize_ne _ hne).trans ((PagePool.blkSize_setSize_self ..).trans ?_)
    omega
  have hcarved : pool.carved 0 order blk =
      ((splitHead pool blk (gap order blk)).listDel ((blk + gap order blk) % 2 ^ 32)).setUsed
        ((pool.usedSize + 0) % 2 ^ 32) := by
    rw [PagePool.carved, if_neg (by omega), takeFront, if_pos hback]
  have hsize : ∀ va ∈ as ++ blk :: bs, (pool.carved 0 order blk).blkSize va = pool.blkSize va := by
    intro va hmem
    rw [hcarved]
    change ((pool.setSize _ _).setSize blk _).blkSize va = _
    by_cases hb : va = blk
    · rw [hb, PagePool.blkSize_setSize_self, hgap]
    · rw [PagePool.blkSize_setSize_ne _ hb, PagePool.blkSize_setSize_ne _ (hout va hmem)]
  have hring : Ring (pool.carved 0 order blk).list .poolHead ((as ++ blk :: bs).map .page) := by
    rw [hcarved]
    have hlinks := fun (c : PageCell) (hc : c ≠ .page ((blk + gap order blk) % 2 ^ 32)) =>
      Links.unlink_insertAfter (L := pool.list) (t := .page ((blk + gap order blk) % 2 ^ 32))
        (c := .page blk)
        (fun h => hne (PageCell.page.inj h)) (hp.ring.prev_next (by simp)) hc
    have hcells : ∀ c ∈ .poolHead :: (as ++ blk :: bs).map PageCell.page,
        c ≠ .page ((blk + gap order blk) % 2 ^ 32) := by
      rintro c hc rfl
      obtain ⟨va, hmem, he⟩ := List.mem_map.mp ((List.mem_cons.mp hc).resolve_left (by simp))
      exact hout va hmem (PageCell.page.inj he)
    exact hp.ring.congr (fun c hc => (hlinks c (hcells c hc)).1) fun c
      hc => (hlinks c (hcells c hc)).2
  rw [hpa]
  refine ⟨.inl ⟨rfl, hring, hsize, ?_, carved_total 0 order⟩, _, hring,
    fun va hmem => ⟨?_, fun h => absurd rfl h⟩⟩
  · rw [hcarved]
    exact Nat.mod_mod _ _
  · rw [hsize va hmem]
    exact (hp.block va hmem).pos

/-- Without room behind the gap the call is not sound. -/
theorem room_of_sound (hp : PoolRep R pool (as ++ blk :: bs)) (hpsize : psize < 2 ^ 32)
    (hpos : 0 < psize) (hfit : pool.fits (btPageAlign psize) order (.page blk) = true)
    (h : AllocSound R pool (as ++ blk :: bs) psize (R.virtToPhys ((blk + gap order blk) % 2 ^ 32))
      (pool.carved (btPageAlign psize) order blk)) :
    gap order blk + psize ≤ pool.blkSize blk ∨
      btPageAlign psize = 0 ∧ gap order blk = pool.blkSize blk ∧ pool.stop R blk = 2 ^ 32 := by
  have hok := hp.block blk (by simp)
  have h₁ := hok.end_le
  have h₂ := hok.phys_pos
  have h₃ := hok.phys_aligned
  have h₄ := hok.size_aligned
  have hpages := gap_pages order hok.aligned
  have hgap := gap_lt order blk
  obtain ⟨hsize, htest⟩ := fits_gap hfit
  have hmod := btPageAlign_mod psize
  have hpa := R.virtToPhys_add blk (gap order blk)
  rw [hpa] at h
  rcases btPageAlign_cases hpsize with ⟨hzero, hbig⟩ | ⟨hge, hlt⟩ | h0
  · -- the request was rounded to nothing, and so many bytes are never free
    rw [hzero] at htest
    rcases h.outcome with ⟨hnull, -⟩ | ⟨-, -, hfree⟩
    · unfold PagePool.stop
      omega
    · have := hp.free_range hpos hfree
      omega
  · by_contra hno
    have hwrap : 2 ^ 32 ≤ gap order blk + btPageAlign psize := by omega
    rcases h.outcome with ⟨-, hkept⟩ | ⟨hne, -, hfree⟩
    · -- the counter says that something was taken
      have hused := hkept.used
      simp only [PagePool.carved, PagePool.usedSize_setUsed] at hused
      omega
    · have hrange := hp.free_range hpos hfree
      obtain ⟨blks', hring, hblks⟩ := h.list
      have hcarved : pool.carved (btPageAlign psize) order blk =
          (takeFront (splitHead pool blk (gap order blk)) ((blk + gap order blk) % 2 ^ 32)
            (btPageAlign psize)).setUsed ((pool.usedSize + btPageAlign psize) % 2 ^ 32) := by
        rw [PagePool.carved, if_neg (by omega)]
      rw [hcarved] at hring hblks
      obtain ⟨hlt', hmem, hfront⟩ := wrapped_list hp hgap hsize hwrap (by omega) hring
      -- the block begins inside what was given away
      have hblk := hblks blk hmem
      refine hblk.2 hne (R.virtToPhys blk) ⟨⟨le_rfl, ?_⟩, ?_, ?_⟩
      · have := hblk.1
        simp only [PagePool.ext] at *
        omega
      · dsimp only
        omega
      · dsimp only
        omega
  · omega

/-- **Which requests are sound.** For every well-formed pool, every 32-bit size and every order, a
call either fails and leaves the pool as it was, or gets that many bytes that were free, with a free
list that ends and holds nothing of them, if and only if the request is empty or the block that the
loop finds has so many bytes behind its gap. -/
theorem page_alloc_any_size_iff (order : ℕ) (hp : PoolRep R pool blks) (hpsize : psize < 2 ^ 32) :
    (∃ pa pool', btPagePoolAlloc R pool psize order = some (pa, pool') ∧
      AllocSound R pool blks psize pa pool') ↔
      RoomFound R pool blks psize order := by
  have hfailed : AllocSound R pool blks psize 0 pool :=
    ⟨.inl ⟨rfl, hp.ring, fun _ _ => rfl, rfl, rfl⟩, blks, hp.ring, fun va hva =>
      ⟨(hp.block va hva).pos, fun h => absurd rfl h⟩⟩
  by_cases hpos : psize = 0
  · subst hpos
    exact iff_of_true ⟨0, pool, rfl, hfailed⟩ (.inl rfl)
  rw [btPagePoolAlloc_eq order hp hpos, RoomFound, or_iff_right hpos]
  cases hfind : blks.find? fun va => pool.fits (btPageAlign psize) order (.page va) with
  | none => exact iff_of_true ⟨0, pool, rfl, hfailed⟩ nofun
  | some blk =>
    obtain ⟨as, bs, rfl⟩ := List.append_of_mem (List.mem_of_find?_eq_some hfind)
    have hfit : pool.fits (btPageAlign psize) order (.page blk) = true := by
      simpa using List.find?_some hfind
    simp only [Option.some.injEq, forall_eq']
    by_cases hnull : blk = 0
    · simp only [if_pos hnull]
      exact iff_of_true ⟨0, pool, rfl, hfailed⟩ (.inl hnull)
    · simp only [if_neg hnull, or_iff_right hnull]
      constructor
      · rintro ⟨pa, pool', heq, h⟩
        obtain ⟨rfl, rfl⟩ := Prod.mk.inj (Option.some.inj heq)
        exact room_of_sound hp hpsize (Nat.pos_of_ne_zero hpos) hfit h
      · rintro (hroom | ⟨hzero, hgap, hstop⟩)
        · exact ⟨_, _, rfl, carved_sound hp (Nat.pos_of_ne_zero hpos) hroom⟩
        · rw [hzero]
          exact ⟨_, _, rfl, carved_nothing hp hgap hstop⟩

/-- One byte more than a page, from four pages. -/
theorem page_alloc_any_size_iff_two :
    (∃ pa pool', btPagePoolAlloc identityRam (oneBlock 0x1000 0x4000) 0x1001 0 =
    some (pa, pool') ∧ AllocSound identityRam (oneBlock 0x1000 0x4000) [0x1000] 0x1001 pa pool') ↔
      RoomFound identityRam (oneBlock 0x1000 0x4000) [0x1000] 0x1001 0 :=
  page_alloc_any_size_iff 0
  (oneBlock_rep ⟨by decide, by decide, by decide, by decide, by decide, by decide⟩) (by decide)

/-- Almost 4 GB are found in two pages. -/
theorem page_alloc_rounds_to_nothing : PoolRep identityRam (oneBlock 0x1000 0x2000) [0x1000] ∧
    ¬∃ pa pool', btPagePoolAlloc identityRam (oneBlock 0x1000 0x2000) 0xFFFFFFFF 0 = some
    (pa, pool') ∧
      AllocSound identityRam (oneBlock 0x1000 0x2000) [0x1000] 0xFFFFFFFF pa pool' := by
  have hb : BlockOk identityRam 0x1000 0x2000 :=
    ⟨by decide, by decide, by decide, by decide, by decide, by decide⟩
  have hp := oneBlock_rep hb
  refine ⟨hp, fun hsound => ?_⟩
  have hroom := (page_alloc_any_size_iff 0 hp (show 0xFFFFFFFF < 2 ^ 32 by decide)).mp hsound
  have hfit : (oneBlock 0x1000 0x2000).fits (btPageAlign 0xFFFFFFFF) 0 (.page 0x1000) = true := by
    simp only [PagePool.fits, oneBlock_size]
    decide
  rcases hroom with h | h
  · exact absurd h (by decide)
  · rcases h 0x1000 (List.find?_cons_of_pos (by simpa using hfit)) with h | h | ⟨-, h, -⟩
    · exact absurd h (by decide)
    · rw [oneBlock_size] at h
      exact absurd h (by decide)
    · rw [oneBlock_size] at h
      exact absurd h (by decide)

end BitThunder
