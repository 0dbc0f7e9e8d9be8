import BitThunder.Lib.Chain
import BitThunder.Lib.Extent
import BitThunder.Lib.Tiling
import BitThunder.Mm.Heap

/-!
# The linear heap, over whole runs

`HeapShape` is what the free and the live blocks look like as sets of addresses: they
tile the first block, and between two free ones there is always something live.
`HeapRep` ties them to the memory: the free list runs through the free blocks, in order,
and every header holds its block's size. Both are kept by `BT_kMalloc` and `BT_kFree` as
long as no block that is handed out reaches `pEnd`.

* `takeBlock_whole`, `takeBlock_split`, `putBlock_spec`: the list edits;
* `heap_coalesces`: the invariant over runs, and that freeing everything gives the first
  block back;
* `heap_leaves_region`: why blocks that reach `pEnd` have to be excluded.

The two levels are kept apart on purpose. What blocks become free or live is decided on extents:
`take`, `split` and `put` on `HeapShape` never mention a pointer. What is written is decided on
headers: `nextBlock` and `blockSize` are functions on addresses, and the edits are said as the list
there is afterwards (`Leads`). `HeapRep` joins them, and an operation is proved by giving the new
shape and the new list separately.

Freeing is done in two stages, like the code. `Front` is the list up to the block after it has been
merged with the one below, whether or not that happened, and `Back` is the list behind it after the
second merge. Each stage says how the counts of bytes change, and that there is a gap on its side;
together they put the block in with gaps on both sides. This is why the four combinations of merges
need not be told apart.

Blocks that reach `pEnd` have to be excluded, and not because the proof needs it: `pEnd` lies inside
the first free block in every region (`init_overlaps_end`), and a block handed out across it
overwrites the end of the list.
-/

namespace BitThunder

open Memory

variable {R : HeapRegion} {m : Memory}

/-! ## Headers

The two cells at the ends of the list are no blocks, but have links like blocks. A cell is anything
that can be on the list, and headers of different cells do not meet. -/

namespace HeapRegion

variable (R : HeapRegion)

/-- The end marker is put 64 bytes before the end of the region. -/
theorem endBlock_eq : R.endBlock = R.stop - 64 := by
  have h₁ := R.stop_lt
  have h₂ := R.room
  exact wordSub_of_le (by unfold heapBlockBytes; omega) h₁

theorem firstSize_eq : R.firstSize = R.stop - R.start - 8 := by
  have h₁ := R.stop_lt
  have h₂ := R.room
  rw [firstSize,
    wordSub_of_le (by omega) h₁, wordSub_of_le (by unfold heapBlockBytes; omega) (by omega)]
  rfl

/-- Where headers are: at the list head, and at aligned addresses of the region. -/
def IsCell (b : ℕ) : Prop := b = R.head ∨ R.start ≤ b ∧ b + 8 ≤ R.stop ∧ b % 8 = 0

variable {R}

/-- The header outside the region is a header of its own. -/
theorem isCell_head : R.IsCell R.head := .inl rfl

theorem isCell_endBlock : R.IsCell R.endBlock := by
  have h₁ := R.stop_aligned
  have h₂ := R.room
  rw [R.endBlock_eq]
  exact .inr ⟨by omega, by omega, by omega⟩

theorem IsCell.end_le {b : ℕ} (hb : R.IsCell b) : b + 8 ≤ 2 ^ 32 := by
  have h₁ := R.head_end
  have h₂ := R.stop_lt
  rcases hb with rfl | ⟨-, hb, -⟩
  · exact h₁
  · omega

/-- Two headers do not overlap. -/
theorem IsCell.apart {b c : ℕ} (hb : R.IsCell b) (hc : R.IsCell c) (hne : c ≠ b) :
    b + 8 ≤ c ∨ c + 8 ≤ b := by
  have h := R.head_out
  rcases hb with rfl | ⟨hb₁, hb₂, hb₃⟩
  · rcases hc with rfl | ⟨hc₁, hc₂, -⟩
    · exact absurd rfl hne
    · omega
  · rcases hc with rfl | ⟨hc₁, hc₂, hc₃⟩
    · omega
    · omega

end HeapRegion

section Headers

open HeapRegion

variable {b c v : ℕ}

theorem nextBlock_lt (m : Memory) (b : ℕ) : nextBlock m b < 2 ^ 32 := load_lt m b

theorem blockSize_lt (m : Memory) (b : ℕ) : blockSize m b < 2 ^ 32 := load_lt m _

/-- The size is the second word of a header. -/
theorem blockSize_eq (hb : R.IsCell b) : blockSize m b = m.load (b + 4) := by
  have h := hb.end_le
  rw [blockSize, wordAdd_of_lt (by omega)]

theorem setBlockSize_eq (hb : R.IsCell b) : setBlockSize m b v = m.store (b + 4) v := by
  have h := hb.end_le
  rw [setBlockSize, wordAdd_of_lt (by omega)]

/-- A link that is written is read back, and the others stay. -/
theorem nextBlock_setNextBlock (hb : R.IsCell b) (hc : R.IsCell c) (hv : v < 2 ^ 32) :
    nextBlock (setNextBlock m b v) c = if c = b then v else nextBlock m c := by
  split_ifs with h
  · rw [h]
    exact load_store hv
  · have happ := hb.apart hc h
    exact load_store_of_out (by omega)

theorem nextBlock_setBlockSize (hb : R.IsCell b) (hc : R.IsCell c) :
    nextBlock (setBlockSize m b v) c = nextBlock m c := by
  rw [setBlockSize_eq hb]
  by_cases h : c = b
  · exact load_store_of_out (by omega)
  · have happ := hb.apart hc h
    exact load_store_of_out (by omega)

theorem blockSize_setNextBlock (hb : R.IsCell b) (hc : R.IsCell c) :
    blockSize (setNextBlock m b v) c = blockSize m c := by
  rw [blockSize_eq hc, blockSize_eq hc]
  by_cases h : c = b
  · exact load_store_of_out (by omega)
  · have happ := hb.apart hc h
    exact load_store_of_out (by omega)

/-- A size that is written is read back, and the others stay. -/
theorem blockSize_setBlockSize (hb : R.IsCell b) (hc : R.IsCell c) (hv : v < 2 ^ 32) :
    blockSize (setBlockSize m b v) c = if c = b then v else blockSize m c := by
  rw [setBlockSize_eq hb, blockSize_eq hc, blockSize_eq hc]
  split_ifs with h
  · rw [h]
    exact load_store hv
  · have happ := hb.apart hc h
    exact load_store_of_out (by omega)

end Headers

/-! ## Free and live blocks

No pointers occur here. Extents tile the region, and two free ones never touch, which taking,
splitting and putting back preserve. -/

/-- Block addresses and sizes are multiples of a header. -/
structure WholeHeaders (e : Extent) : Prop where
  /-- both ends are multiples of the size of a header -/
  start : e.1 % 8 = 0
  size : e.2 % 8 = 0
  /-- and it is not empty -/
  pos : 0 < e.2

/-- What the free blocks, in order, and the live blocks look like. -/
structure HeapShape (R : HeapRegion) (free live : List Extent) : Prop where
  /-- the free blocks are in order, with something between any two of them -/
  gap : free.IsChain Extent.Gap
  /-- free and live blocks hold each byte of the region once -/
  tiled : ∀ x, cover (free ++ live) x = if R.start ≤ x ∧ x < R.start + R.firstSize then 1 else 0
  /-- blocks are made of whole headers -/
  whole : ∀ e ∈ free ++ live, WholeHeaders e
  /-- a free block begins below the end marker -/
  freeBelow : ∀ e ∈ free, e.1 < R.endBlock
  /-- and a live one ends below it -/
  liveBelow : ∀ e ∈ live, e.1 + e.2 < R.endBlock

namespace HeapShape

variable {free live as bs : List Extent} {e f : Extent}

theorem init (R : HeapRegion) : HeapShape R [(R.start, R.firstSize)] [] := by
  have h₁ := R.room
  have h₂ := R.start_aligned
  have h₃ := R.stop_aligned
  have hsize := R.firstSize_eq
  have hend := R.endBlock_eq
  refine ⟨.singleton _, fun x => ?_, ?_, ?_, nofun⟩
  · rw [List.append_nil, cover_cons, cover_nil, Nat.zero_add]
    rfl
  · intro e he
    obtain rfl := List.mem_singleton.mp he
    exact ⟨h₂, by dsimp only; omega, by dsimp only; omega⟩
  · intro e he
    obtain rfl := List.mem_singleton.mp he
    dsimp only
    omega

theorem bounds (h : HeapShape R free live) (he : e ∈ free ++ live) :
    R.start ≤ e.1 ∧ e.1 + e.2 ≤ R.stop - 8 := by
  have hpos := (h.whole e he).pos
  have hroom := R.room
  have hin : ∀ x, e.Holds x → R.start ≤ x ∧ x < R.start + R.firstSize := by
    intro x hx
    by_contra hout
    have hone := cover_pos.mpr ⟨e, he, hx⟩
    rw [h.tiled, if_neg hout] at hone
    exact Nat.lt_irrefl _ hone
  have h₁ := hin e.1 ⟨le_refl _, by omega⟩
  have h₂ := hin (e.1 + e.2 - 1) ⟨by omega, by omega⟩
  rw [R.firstSize_eq] at h₁ h₂
  omega

theorem isCell (h : HeapShape R free live) (he : e ∈ free ++ live) : R.IsCell e.1 := by
  have hb := h.bounds he
  have hw := h.whole e he
  have hsize := hw.size
  have hpos := hw.pos
  have hroom := R.room
  exact .inr ⟨hb.1, by omega, hw.start⟩

theorem ne_head (h : HeapShape R free live) (he : e ∈ free ++ live) : e.1 ≠ R.head := by
  have hb := h.bounds he
  have hpos := (h.whole e he).pos
  have hout := R.head_out
  have hroom := R.room
  omega

theorem cover_le_one (h : HeapShape R free live) (x : ℕ) : cover (free ++ live) x ≤ 1 := by
  rw [h.tiled]
  split_ifs
  · exact le_refl _
  · exact Nat.zero_le _

/-- A free block and a live one do not overlap. -/
theorem free_live (h : HeapShape R free live) (he : e ∈ free) (hf : f ∈ live) :
    e.1 + e.2 ≤ f.1 ∨ f.1 + f.2 ≤ e.1 := by
  have happ := (List.pairwise_append.mp (pairwise_apart_of_cover_le_one h.cover_le_one)).2.2 e he f
    hf
  exact happ.ends (h.whole e (List.mem_append_left _ he)).pos
    (h.whole f (List.mem_append_right _ hf)).pos

theorem pairwise (h : HeapShape R free live) : free.Pairwise Extent.Gap :=
  List.isChain_iff_pairwise.mp h.gap

/-- The free blocks before and behind one of them. -/
theorem around (h : HeapShape R (as ++ e :: bs) live) :
    (∀ f ∈ as, f.1 + f.2 < e.1) ∧ ∀ f ∈ bs, e.1 + e.2 < f.1 := by
  obtain ⟨-, hbs, has⟩ := List.pairwise_append.mp h.pairwise
  exact ⟨fun f hf => has f hf e List.mem_cons_self, (List.pairwise_cons.mp hbs).1⟩

/-- The cells of the list are distinct. -/
theorem nodup (h : HeapShape R free live) : (R.head :: free.map Prod.fst).Nodup := by
  refine List.nodup_cons.mpr ⟨?_, ?_⟩
  · intro hmem
    obtain ⟨e, he, heq⟩ := List.mem_map.mp hmem
    exact h.ne_head (List.mem_append_left _ he) heq
  · refine List.pairwise_map.mpr (h.pairwise.imp ?_)
    intro e f hgap heq
    unfold Extent.Gap at hgap
    omega

theorem length_lt (h : HeapShape R free live) : free.length < cellBound := by
  have hlt := R.stop_lt
  have hroom := R.room
  have hsub : (free.map Prod.fst).toFinset ⊆ Finset.range R.stop := by
    intro a ha
    obtain ⟨e, he, rfl⟩ := List.mem_map.mp (List.mem_toFinset.mp ha)
    have hb := h.bounds (List.mem_append_left _ he)
    exact Finset.mem_range.mpr (by omega)
  have hcard := Finset.card_le_card hsub
  rw [List.toFinset_card_of_nodup (List.nodup_cons.mp h.nodup).2, List.length_map,
    Finset.card_range] at hcard
  unfold cellBound
  omega

theorem totalSize_lt (h : HeapShape R free live) : totalSize (free ++ live) < 2 ^ 32 := by
  have hlt := R.stop_lt
  have hroom := R.room
  have hstart := R.start_pos
  refine lt_of_lt_of_le (BitThunder.totalSize_lt (N := R.stop)
    (by omega) ?_ h.cover_le_one ?_) hlt.le
  · intro e he
    have := h.bounds he
    omega
  · rw [h.tiled, if_neg (by omega)]

/-- A whole free block becomes live. -/
theorem take (h : HeapShape R (as ++ e :: bs) live) (hend : e.1 + e.2 < R.endBlock) :
    HeapShape R (as ++ bs) (e :: live) := by
  have hsub : (as ++ bs).Sublist (as ++ e :: bs) := (List.sublist_cons_self e bs).append_left as
  have hperm : (as ++ bs ++ e :: live).Perm (as ++ e :: bs ++ live) := by
    rw [List.append_assoc, List.append_assoc, List.cons_append]
    exact List.perm_middle.append_left as
  refine ⟨List.isChain_iff_pairwise.mpr (h.pairwise.sublist hsub), fun x => ?_, fun f hf => ?_, ?_,
    ?_⟩
  · rw [cover_perm hperm]
    exact h.tiled x
  · exact h.whole f (hperm.mem_iff.mp hf)
  · exact fun f hf => h.freeBelow f (hsub.subset hf)
  · intro f hf
    rcases List.mem_cons.mp hf with rfl | hf'
    · exact hend
    · exact h.liveBelow f hf'

/-- A free block can be counted as two. -/
theorem cover_cut {a n k x : ℕ} :
    cover (as ++ (a, n + k) :: bs ++ live) x = cover
    (as ++ (a + n, k) :: bs ++ (a, n) :: live) x := by
  simp only [cover_append, cover_cons, Extent.holds_mk]
  split_ifs
  all_goals omega

/-- The front of a free block becomes live. -/
theorem split {a n k : ℕ} (h : HeapShape R (as ++ (a, n + k) :: bs) live) (hn : n % 8 = 0)
    (hpos : 0 < n) (hk : 0 < k) (hend : a + n < R.endBlock) :
    HeapShape R (as ++ (a + n, k) :: bs) ((a, n) :: live) := by
  obtain ⟨hbefore, hbehind⟩ := h.around
  have hw := h.whole (a, n + k) (by simp)
  have h₁ : a % 8 = 0 := hw.start
  have h₂ : (n + k) % 8 = 0 := hw.size
  have hgap := chain_middle.mp h.gap
  refine ⟨chain_middle.mpr ⟨hgap.1, ?_, ?_, hgap.2.2.2⟩, fun x => ?_, ?_, ?_, ?_⟩
  · intro f hf
    have := hgap.2.1 f hf
    unfold Extent.Gap at *
    dsimp only at *
    omega
  · intro f hf
    have := hgap.2.2.1 f hf
    unfold Extent.Gap at *
    dsimp only at *
    omega
  · rw [← cover_cut]
    exact h.tiled x
  · intro f hf
    simp only [List.mem_append, List.mem_cons] at hf
    rcases hf with (hf | rfl | hf) | rfl | hf
    · exact h.whole f (by simp [hf])
    · exact ⟨by dsimp only; omega, by dsimp only; omega, hk⟩
    · exact h.whole f (by simp [hf])
    · exact ⟨h₁, hn, hpos⟩
    · exact h.whole f (by simp [hf])
  · intro f hf
    simp only [List.mem_append, List.mem_cons] at hf
    rcases hf with hf | rfl | hf
    · exact h.freeBelow f (by simp [hf])
    · exact hend
    · exact h.freeBelow f (by simp [hf])
  · intro f hf
    rcases List.mem_cons.mp hf with rfl | hf'
    · exact hend
    · exact h.liveBelow f hf'

/-- A live block becomes free, perhaps as part of a larger block `e`. -/
theorem put {x : Extent} (h : HeapShape R free live) (hx : x ∈ live)
    (hcover : ∀ y, cover (as ++ e :: bs) y = cover (x :: free) y)
    (hsub : ∀ f ∈ as ++ bs, f ∈ free) (hgap : (as ++ e :: bs).IsChain Extent.Gap)
    (hwhole : WholeHeaders e) (hbelow : e.1 < R.endBlock) :
    HeapShape R (as ++ e :: bs) (live.erase x) := by
  have hperm := List.perm_cons_erase hx
  have hmem : ∀ f ∈ as ++ e :: bs, f = e ∨ f ∈ free := by
    intro f hf
    rcases List.mem_cons.mp (List.perm_middle.mem_iff.mp hf) with rfl | hf'
    · exact .inl rfl
    · exact .inr (hsub f hf')
  refine ⟨hgap, fun y => ?_, ?_, ?_, fun f hf => h.liveBelow f (List.mem_of_mem_erase hf)⟩
  · have hc := h.tiled y
    rw [cover_append, cover_perm hperm, cover_cons] at hc
    rw [cover_append, hcover, cover_cons]
    omega
  · intro f hf
    rcases List.mem_append.mp hf with hf | hf
    · rcases hmem f hf with rfl | hf'
      · exact hwhole
      · exact h.whole f (List.mem_append_left _ hf')
    · exact h.whole f (List.mem_append_right _ (List.mem_of_mem_erase hf))
  · intro f hf
    rcases hmem f hf with rfl | hf'
    · exact hbelow
    · exact h.freeBelow f hf'

/-- When nothing is live, one free block is everything. -/
theorem all_free (h : HeapShape R free []) : free = [(R.start, R.firstSize)] := by
  have hroom := R.room
  refine eq_singleton_of_gaps ?_ (fun f hf => (h.whole f (List.mem_append_left _ hf)).pos)
    h.pairwise fun x => ?_
  · rw [R.firstSize_eq]
    omega
  · have := h.tiled x
    rwa [List.append_nil] at this

end HeapShape

/-! ## The memory

The shape and the list, and the sizes in the headers of all blocks, free or live. -/

/-- The free and live blocks of a heap. -/
structure HeapRep (R : HeapRegion) (h : Heap) (free live : List Extent) : Prop
    extends HeapShape R free live where
  /-- the end marker is that of the region -/
  pEnd : h.pEnd = R.endBlock
  /-- from the head the free list leads through the free blocks to the end marker -/
  list : Leads (nextBlock h.mem) R.endBlock R.head (free.map Prod.fst)
  /-- each block has its size in its header -/
  sizes : ∀ e ∈ free ++ live, blockSize h.mem e.1 = e.2
  /-- the head is a block of size zero -/
  headSize : blockSize h.mem R.head = 0
  /-- and the end marker is the last one, of size zero too -/
  endNext : nextBlock h.mem R.endBlock = 0
  endSize : blockSize h.mem R.endBlock = 0
  /-- the counter has the bytes that are free -/
  remaining : h.bytesRemaining = totalSize free

/-- The heap is well formed once it is initialised. -/
theorem heapRep_init (h : Heap) :
    HeapRep R (btInitialiseHeap R h) [(R.start, R.firstSize)] [] := by
  have hshape := HeapShape.init R
  have hs : R.IsCell R.start := hshape.isCell (e := (R.start, R.firstSize)) (by simp)
  have hne : R.start ≠ R.head := hshape.ne_head (e := (R.start, R.firstSize)) (by simp)
  have hh := R.isCell_head
  have he := R.isCell_endBlock
  have hstart := R.start_pos
  have hlt := R.stop_lt
  have hroom := R.room
  have hend := R.endBlock_eq
  have hout := R.head_out
  have hfirst : R.firstSize < 2 ^ 32 := wordSub_lt _ _
  have hend' : R.endBlock < 2 ^ 32 := wordSub_lt _ _
  have h₁ : R.start ≠ R.endBlock := by omega
  have h₂ : R.endBlock ≠ R.head := by omega
  have hzero : (0 : ℕ) < 2 ^ 32 := by decide
  have hstart' : R.start < 2 ^ 32 := by omega
  have hsize : blockSize (btInitialiseHeap R h).mem R.start = R.firstSize := by
    rw [btInitialiseHeap, blockSize_setBlockSize hs hs hfirst, if_pos rfl]
  refine ⟨hshape, rfl, ⟨?_, ?_⟩, ?_, ?_, ?_, ?_, ?_⟩
  · dsimp only [btInitialiseHeap]
    rw [nextBlock_setBlockSize hs hh, nextBlock_setNextBlock hs hh hend', if_neg hne.symm,
      nextBlock_setBlockSize he hh, nextBlock_setNextBlock he hh hzero, if_neg h₂.symm,
      nextBlock_setBlockSize hh hh, nextBlock_setNextBlock hh hh hstart', if_pos rfl]
  · change nextBlock (btInitialiseHeap R h).mem R.start = R.endBlock
    dsimp only [btInitialiseHeap]
    rw [nextBlock_setBlockSize hs hs, nextBlock_setNextBlock hs hs hend', if_pos rfl]
  · intro e he
    obtain rfl := List.mem_singleton.mp he
    exact hsize
  · dsimp only [btInitialiseHeap]
    rw [blockSize_setBlockSize hs hh hfirst, if_neg hne.symm, blockSize_setNextBlock hs hh,
      blockSize_setBlockSize he hh hzero, if_neg h₂.symm, blockSize_setNextBlock he hh,
      blockSize_setBlockSize hh hh hzero, if_pos rfl]
  · dsimp only [btInitialiseHeap]
    rw [nextBlock_setBlockSize hs he, nextBlock_setNextBlock hs he hend', if_neg h₁.symm,
      nextBlock_setBlockSize he he, nextBlock_setNextBlock he he hzero, if_pos rfl]
  · dsimp only [btInitialiseHeap]
    rw [blockSize_setBlockSize hs he hfirst, if_neg h₁.symm, blockSize_setNextBlock hs he,
      blockSize_setBlockSize he he hzero, if_pos rfl]
  · rw [totalSize_cons, totalSize_nil, Nat.add_zero]
    exact hsize

/-! ## The searches

Both loops go along the list and stop at the place that the proofs of the calls split it at. -/

section Search

variable {t size : ℕ} {es : List Extent}

/-- The search for a block stops at the first one that is large enough, or at the end of
the list. -/
theorem findBlock_spec (size : ℕ) {item fuel : ℕ}
    (hlist : Leads (nextBlock m) t item (es.map Prod.fst))
    (hsize : ∀ e ∈ es, blockSize m e.1 = e.2) (hpos : ∀ e ∈ es, e.1 ≠ 0) (ht : t ≠ 0)
    (htnext : nextBlock m t = 0) (hfuel : es.length < fuel) :
    (∃ as e bs, es = as ++ e :: bs ∧ size ≤ e.2 ∧
      findBlock m size fuel item (nextBlock m item) = some (lastCell item (as.map Prod.fst), e.1)) ∨
    (∀ e ∈ es, e.2 < size) ∧
      findBlock m size fuel item (nextBlock m item) = some
      (lastCell item (es.map Prod.fst), t) := by
  obtain ⟨fuel, rfl⟩ : ∃ k, fuel = k + 1 := ⟨fuel - 1, by omega⟩
  induction es generalizing item fuel with
  | nil =>
    have hnext : nextBlock m item = t := hlist
    refine .inr ⟨nofun, ?_⟩
    rw [findBlock, hnext, if_neg (by rw [htnext]; exact fun hc => hc.2 rfl)]
    rfl
  | cons e es ih =>
    obtain ⟨hnext, hrest⟩ := hlist
    have hsize' := hsize e List.mem_cons_self
    -- a block that is in the list is followed by another one or by the end
    have hgo : nextBlock m e.1 ≠ 0 := by
      cases es with
      | nil =>
        have heq : nextBlock m e.1 = t := hrest
        rw [heq]
        exact ht
      | cons f fs =>
        have heq : nextBlock m e.1 = f.1 := hrest.1
        rw [heq]
        exact hpos f (by simp)
    rw [findBlock, hnext, hsize']
    by_cases hlt : e.2 < size
    · rw [if_pos ⟨hlt, hgo⟩]
      have hlen : es.length < fuel := by
        rw [List.length_cons] at hfuel
        omega
      obtain ⟨k, rfl⟩ : ∃ k, fuel = k + 1 := ⟨fuel - 1, by omega⟩
      rcases ih hrest
        (fun f hf => hsize f (by simp [hf])) (fun f hf => hpos f (by simp [hf])) k hlen
        with ⟨as, f, bs, rfl, hle, hrun⟩ | ⟨hall, hrun⟩
      · exact .inl ⟨e :: as, f, bs, rfl, hle, hrun⟩
      · exact .inr ⟨List.forall_mem_cons.mpr ⟨hlt, hall⟩, hrun⟩
    · rw [if_neg fun hc => hlt hc.1]
      exact .inl ⟨[], e, es, rfl, by omega, rfl⟩

/-- The search for the place of a block stops behind the last one below it. -/
theorem findPlace_spec (blk : ℕ) {item fuel : ℕ}
    (hlist : Leads (nextBlock m) t item (es.map Prod.fst))
    (ht : blk ≤ t) (hfuel : es.length < fuel) :
    ∃ as bs, es = as ++ bs ∧ (∀ e ∈ as, e.1 < blk) ∧ (∀ f ∈ bs.head?, blk ≤ f.1) ∧
      findPlace m blk fuel item = some (lastCell item (as.map Prod.fst)) := by
  obtain ⟨fuel, rfl⟩ : ∃ k, fuel = k + 1 := ⟨fuel - 1, by omega⟩
  induction es generalizing item fuel with
  | nil =>
    have hnext : nextBlock m item = t := hlist
    refine ⟨[], [], rfl, nofun, nofun, ?_⟩
    rw [findPlace, hnext, if_neg (by omega)]
    rfl
  | cons e es ih =>
    obtain ⟨hnext, hrest⟩ := hlist
    rw [findPlace, hnext]
    by_cases hlt : e.1 < blk
    · rw [if_pos hlt]
      have hlen : es.length < fuel := by
        rw [List.length_cons] at hfuel
        omega
      obtain ⟨k, rfl⟩ : ∃ k, fuel = k + 1 := ⟨fuel - 1, by omega⟩
      obtain ⟨as, bs, rfl, has, hbs, hrun⟩ := ih hrest k hlen
      refine ⟨e :: as, bs, rfl, ?_, hbs, hrun⟩
      intro f hf
      rcases List.mem_cons.mp hf with rfl | hf'
      · exact hlt
      · exact has f hf'
    · rw [if_neg hlt]
      refine ⟨[], e :: es, rfl, nofun, ?_, rfl⟩
      intro f hf
      rw [List.head?_cons, Option.mem_some_iff] at hf
      rw [← hf]
      omega

end Search

/-! ## Taking a block

Either the block leaves the list as a whole, or what is left behind it takes its place there. -/

section Take

variable {prev blk size k c : ℕ}

/-- What is left behind is too small for a block of its own. -/
theorem takeBlock_whole (hprev : R.IsCell prev) (hblk : R.IsCell blk)
    (hle : size ≤ blockSize m blk) (hsmall : blockSize m blk ≤ size + 16) (hc : R.IsCell c) :
    blockSize (takeBlock m prev blk size) c = blockSize m c ∧
    nextBlock (takeBlock m prev blk size) c = if c = prev then nextBlock m blk
      else nextBlock m c := by
  have hlt := blockSize_lt m blk
  have hcond : ¬ heapBlockBytes * 2 < wordSub (blockSize m blk) size := by
    rw [wordSub_of_le hle hlt]
    unfold heapBlockBytes
    omega
  rw [takeBlock]
  rw [blockSize_setNextBlock hprev hblk, if_neg hcond]
  exact ⟨blockSize_setNextBlock hprev hc, nextBlock_setNextBlock hprev hc (nextBlock_lt _ _)⟩

/-- The tail becomes a block of its own. -/
theorem takeBlock_split (hprev : R.IsCell prev) (hblk : R.IsCell blk) (hnew : R.IsCell (blk + size))
    (hne : blk ≠ prev) (hsize : blockSize m blk = size + k) (hk : 16 < k) (hc : R.IsCell c) :
    blockSize (takeBlock m prev blk size) c =
      (if c = blk then size else if c = blk + size then k else blockSize m c) ∧
    nextBlock (takeBlock m prev blk size) c =
      if c = prev then blk + size else if c = blk then 0 else
        if c = blk + size then nextBlock m blk else nextBlock m c := by
  have hlt := blockSize_lt m blk
  have hsub : wordSub (size + k) size = k := by
    rw [wordSub_of_le (by omega) (by omega)]
    omega
  have hend := hnew.end_le
  have hadd : wordAdd blk size = blk + size := wordAdd_of_lt (by omega)
  have hnext := nextBlock_lt m blk
  have hz : (0 : ℕ) < 2 ^ 32 := by decide
  have hsize' : size < 2 ^ 32 := by omega
  have hk' : k < 2 ^ 32 := by omega
  have hnew' : blk + size < 2 ^ 32 := by omega
  rw [takeBlock]
  rw [blockSize_setNextBlock hprev hblk, hsize, hsub,
    if_pos (by unfold heapBlockBytes; omega), splitBlock]
  rw [hadd, nextBlock_setNextBlock hprev hblk hnext, if_neg hne, blockSize_setNextBlock hnew hblk,
    blockSize_setNextBlock hprev hblk, hsize, hsub]
  constructor
  · rw [blockSize_setNextBlock hprev hc, blockSize_setNextBlock hblk hc,
      blockSize_setBlockSize hblk hc hsize', blockSize_setBlockSize hnew hc hk',
        blockSize_setNextBlock hnew hc, blockSize_setNextBlock hprev hc]
  · rw [nextBlock_setNextBlock hprev hc hnew', nextBlock_setNextBlock hblk hc hz,
      nextBlock_setBlockSize hblk hc, nextBlock_setBlockSize hnew hc,
        nextBlock_setNextBlock hnew hc hnext,
      nextBlock_setNextBlock hprev hc hnext]
    by_cases h : c = prev
    · rw [if_pos h, if_pos h]
    · rw [if_neg h, if_neg h, if_neg h]

end Take

namespace HeapRep

variable {h : Heap} {free live as bs : List Extent} {e : Extent}

/-- The cells of the list up to some point are cells. -/
theorem list_cell {y : ℕ} (hr : HeapShape R (as ++ bs) live) (hy : y ∈ R.head :: as.map Prod.fst) :
    R.IsCell y := by
  rcases List.mem_cons.mp hy with rfl | hy'
  · exact R.isCell_head
  · obtain ⟨f, hf, rfl⟩ := List.mem_map.mp hy'
    exact hr.isCell (by simp [hf])

/-- No header comes twice on the way to a block. -/
theorem nodup_front (hr : HeapShape R (as ++ bs) live) : (R.head :: as.map Prod.fst).Nodup := by
  have hnodup := hr.nodup
  rw [List.map_append, ← List.cons_append] at hnodup
  exact (List.nodup_append.mp hnodup).1

/-- The list cell before a free block is not the block. -/
theorem prev_cell (hr : HeapShape R (as ++ e :: bs) live) :
    R.IsCell (lastCell R.head (as.map Prod.fst)) ∧ ∀ c, R.IsCell c → R.start ≤ c → c < R.stop →
      e.1 ≤ c → c ≠ lastCell R.head (as.map Prod.fst) := by
  have hout := R.head_out
  have hroom := R.room
  rcases List.mem_cons.mp (lastCell_mem R.head (as.map Prod.fst)) with heq | hmem
  · rw [heq]
    refine ⟨R.isCell_head, fun c hc h₁ h₂ _ => ?_⟩
    omega
  · obtain ⟨f, hf, heq⟩ := List.mem_map.mp hmem
    rw [← heq]
    refine ⟨hr.isCell (by simp [hf]), fun c _ _ _ h₃ => ?_⟩
    have := hr.around.1 f hf
    omega

end HeapRep

/-- The request is a multiple of 8, and has room for the header. -/
theorem heapRequest_spec {n : ℕ} (hn : n + 16 < 2 ^ 32) :
    heapRequest n % 8 = 0 ∧ n + 8 ≤ heapRequest n ∧ heapRequest n < 2 ^ 32 := by
  have hadd : wordAdd n heapBlockBytes = n + 8 := wordAdd_of_lt (by unfold heapBlockBytes; omega)
  have hmask : (n + 8) &&& 7 = (n + 8) % 8 := Nat.and_two_pow_sub_one_eq_mod (n + 8) 3
  rw [heapRequest, hadd, hmask]
  split_ifs with h
  · rw [wordAdd_of_lt (by omega)]
    omega
  · omega

namespace HeapRep

variable {h h' : Heap} {free live as bs : List Extent} {e : Extent} {n p : ℕ}

/-- The list ends with the marker, which is not null. -/
theorem pEnd_ne (hr : HeapRep R h free live) : h.pEnd ≠ 0 := by
  have h₁ := R.room
  rw [hr.pEnd, R.endBlock_eq]
  omega

/-- `BT_kMalloc` refuses, or takes the first block that is large enough. -/
theorem heapMalloc_cases (hr : HeapRep R h free live) (n : ℕ) :
    (n = 0 ∨ ∀ e ∈ free, e.2 < heapRequest n) ∧ heapMalloc R h n = some (0, h) ∨
    ∃ as e bs, free = as ++ e :: bs ∧ n ≠ 0 ∧ heapRequest n ≤ e.2 ∧
      heapMalloc R h n = some (e.1 + 8,
        ⟨takeBlock h.mem (lastCell R.head (as.map Prod.fst)) e.1 (heapRequest n), h.pEnd,
          wordSub h.bytesRemaining (blockSize
            (takeBlock h.mem (lastCell R.head (as.map Prod.fst)) e.1 (heapRequest n)) e.1)⟩) := by
  have hend : R.endBlock ≠ 0 := hr.pEnd ▸ hr.pEnd_ne
  have hpos : ∀ e ∈ free, e.1 ≠ 0 := by
    intro e he
    have h₁ := (hr.bounds (List.mem_append_left live he)).1
    have h₂ := R.start_pos
    omega
  have hsizes : ∀ e ∈ free, blockSize h.mem e.1 = e.2 :=
    fun e he => hr.sizes e (List.mem_append_left _ he)
  unfold heapMalloc
  rw [if_neg hr.pEnd_ne]
  dsimp only
  by_cases hn : n = 0
  · exact .inl ⟨.inl hn, if_pos hn⟩
  · rw [if_neg hn]
    by_cases hrem : h.bytesRemaining < heapRequest n
    · refine .inl ⟨.inr fun e he => ?_, if_pos hrem⟩
      have htotal := totalSize_erase he
      have heq := hr.remaining
      omega
    · rw [if_neg hrem]
      rcases findBlock_spec (heapRequest n) hr.list hsizes hpos hend hr.endNext hr.length_lt
        with ⟨as, e, bs, rfl, hle, hrun⟩ | ⟨hall, hrun⟩
      · refine .inr ⟨as, e, bs, rfl, hn, hle, ?_⟩
        have hbelow := hr.freeBelow e (by simp)
        have hb := hr.bounds (e := e) (by simp)
        have hlt := R.stop_lt
        have hlist := hr.list
        rw [List.map_append, List.map_cons] at hlist
        have hnext := (leads_cut.mp hlist).1.next_lastCell
        rw [hrun]
        dsimp only
        rw [hr.pEnd, if_neg (by omega), hnext, wordAdd_of_lt (by unfold heapBlockBytes; omega)]
        rfl
      · refine .inl ⟨.inr hall, ?_⟩
        rw [hrun]
        dsimp only
        rw [if_pos hr.pEnd.symm]

/-- The blocks and the end of the list are cells, and which of them are the same. -/
theorem cells (hr : HeapRep R h free live) (he : e ∈ free ++ live) :
    R.IsCell e.1 ∧ e.1 ≠ R.head ∧ e.1 ≠ R.endBlock := by
  refine ⟨hr.isCell he, hr.ne_head he, ?_⟩
  rcases List.mem_append.mp he with he | he
  · exact (hr.freeBelow e he).ne
  · have := hr.liveBelow e he
    omega

theorem endBlock_ne_head : R.endBlock ≠ R.head := by
  have h₁ := R.endBlock_eq
  have h₂ := R.head_out
  have h₃ := R.room
  omega

/-- The block that is taken leaves the list. -/
theorem take_whole {size : ℕ} (hr : HeapRep R h (as ++ e :: bs) live) (hle : size ≤ e.2)
    (hsmall : e.2 ≤ size + 16) (hend : e.1 + e.2 < R.endBlock) :
    HeapRep R ⟨takeBlock h.mem (lastCell R.head (as.map Prod.fst)) e.1 size, h.pEnd,
      wordSub h.bytesRemaining (blockSize
        (takeBlock h.mem (lastCell R.head (as.map Prod.fst)) e.1 size) e.1)⟩ (as ++ bs)
        (e :: live) := by
  have hshape := hr.toHeapShape.take hend
  have hsize := hr.sizes e (by simp)
  obtain ⟨hprev, hprev'⟩ := prev_cell hr.toHeapShape
  have heff := fun {c : ℕ} => takeBlock_whole (m := h.mem) (c := c) hprev
    (hr.cells (e := e) (by simp)).1
    (hsize.symm ▸ hle) (hsize.symm ▸ hsmall)
  have hroom := R.room
  have hlist := hr.list
  rw [List.map_append, List.map_cons] at hlist
  have hperm : (as ++ bs ++ e :: live).Perm (as ++ e :: bs ++ live) := by
    rw [List.append_assoc, List.append_assoc, List.cons_append]
    exact List.perm_middle.append_left as
  refine ⟨hshape, hr.pEnd, ?_, ?_, ?_, ?_, ?_, ?_⟩
  · rw [List.map_append]
    refine Leads.remove (nodup_front hr.toHeapShape) ?_ ?_ hlist ?_
    · intro y hy hne
      rw [(heff (list_cell hr.toHeapShape hy)).2, if_neg hne]
    · intro y hy
      obtain ⟨f, hf, rfl⟩ := List.mem_map.mp hy
      have hmem : f ∈ as ++ e :: bs ++ live := by simp [hf]
      have hb := hr.bounds hmem
      have hpos := (hr.whole f hmem).pos
      have hgap := hr.around.2 f hf
      rw [(heff (hr.isCell hmem)).2, if_neg]
      exact hprev' _ (hr.isCell hmem) hb.1 (by omega) (by omega)
    · rw [(heff hprev).2, if_pos rfl]
  · intro f hf
    have hmem := hperm.mem_iff.mp hf
    rw [(heff (hr.isCell hmem)).1]
    exact hr.sizes f hmem
  · rw [(heff R.isCell_head).1]
    exact hr.headSize
  · have hb := hr.bounds (e := e) (by simp)
    have hstop := R.endBlock_eq
    have hend' := hr.freeBelow e (by simp)
    rw [(heff R.isCell_endBlock).2, if_neg]
    · exact hr.endNext
    · exact hprev' _ R.isCell_endBlock (by omega) (by omega) (by omega)
  · rw [(heff R.isCell_endBlock).1]
    exact hr.endSize
  · have hlt := hr.totalSize_lt
    have hrem := hr.remaining
    dsimp only
    rw [(heff (hr.cells (e := e) (by simp)).1).1, hsize, hrem]
    simp only [totalSize_append, totalSize_cons] at hlt ⊢
    rw [wordSub_of_le (by omega) (by omega)]
    omega

/-- The tail of the block that is taken has its place in the list. -/
theorem take_split {a size k : ℕ} (hr : HeapRep R h (as ++ (a, size + k) :: bs) live)
    (hpos : 0 < size) (hmod : size % 8 = 0) (hk : 16 < k) (hend : a + size < R.endBlock) :
    HeapRep R ⟨takeBlock h.mem (lastCell R.head (as.map Prod.fst)) a size, h.pEnd,
      wordSub h.bytesRemaining (blockSize
        (takeBlock h.mem (lastCell R.head (as.map Prod.fst)) a size) a)⟩
      (as ++ (a + size, k) :: bs) ((a, size) :: live) := by
  have hshape := hr.toHeapShape.split hmod hpos (by omega) hend
  have hsize := hr.sizes (a, size + k) (by simp)
  obtain ⟨hprev, hprev'⟩ := prev_cell hr.toHeapShape
  obtain ⟨hbefore, hbehind⟩ := hr.around
  have hstop := R.endBlock_eq
  have hb := hr.bounds (e := (a, size + k)) (by simp)
  have hroom := R.room
  have hblk : R.IsCell a := (hr.cells (e := (a, size + k)) (by simp)).1
  have hnew : R.IsCell (a + size) := hshape.isCell (e := (a + size, k)) (by simp)
  dsimp only at hsize hb hbefore hbehind hprev'
  have hne : a ≠ lastCell R.head (as.map Prod.fst) :=
    hprev' a hblk (by omega) (by omega) (le_refl _)
  have heff := fun {c : ℕ} => takeBlock_split (m := h.mem) (c := c) hprev hblk hnew hne hsize hk
  have hlist := hr.list
  rw [List.map_append, List.map_cons] at hlist
  -- the other blocks keep their headers
  have hother : ∀ f ∈ as ++ (bs ++ live), f.1 ≠ a ∧ f.1 ≠ a + size := by
    intro f hf
    simp only [List.mem_append] at hf
    rcases hf with hf | hf | hf
    · have hposf := (hr.whole f (by simp [hf])).pos
      have := hbefore f hf
      omega
    · have := hbehind f hf
      omega
    · have hposf := (hr.whole f (by simp [hf])).pos
      have := hr.free_live (e := (a, size + k)) (by simp) hf
      dsimp only at this
      omega
  refine ⟨hshape, hr.pEnd, ?_, ?_, ?_, ?_, ?_, ?_⟩
  · rw [List.map_append, List.map_cons]
    refine Leads.replace (nodup_front hr.toHeapShape) ?_ ?_ hlist ?_ ?_
    · intro y hy hney
      have hcell := list_cell hr.toHeapShape hy
      have hney' : y ≠ a ∧ y ≠ a + size := by
        rcases List.mem_cons.mp hy with rfl | hy'
        · exact ⟨(hr.cells (e := (a, size + k)) (by simp)).2.1.symm,
            (hshape.ne_head (e := (a + size, k)) (by simp)).symm⟩
        · obtain ⟨f, hf, rfl⟩ := List.mem_map.mp hy'
          exact hother f (by simp [hf])
      rw [(heff hcell).2, if_neg hney, if_neg hney'.1, if_neg hney'.2]
    · intro y hy
      obtain ⟨f, hf, rfl⟩ := List.mem_map.mp hy
      have hmem : f ∈ as ++ (a, size + k) :: bs ++ live := by simp [hf]
      have hbf := hr.bounds hmem
      have hposf := (hr.whole f hmem).pos
      have hgap := hbehind f hf
      have hnef := hother f (by simp [hf])
      have hnep := hprev' _ (hr.isCell hmem) hbf.1 (by omega) (by omega)
      rw [(heff (hr.isCell hmem)).2, if_neg hnep, if_neg hnef.1, if_neg hnef.2]
    · rw [(heff hprev).2, if_pos rfl]
    · have hnep := hprev' _ hnew (by omega) (by omega) (by omega)
      rw [(heff hnew).2, if_neg hnep, if_neg (by omega), if_pos rfl]
  · intro f hf
    rw [(heff (hshape.isCell hf)).1]
    simp only [List.mem_append, List.mem_cons] at hf
    rcases hf with (hf | rfl | hf) | rfl | hf
    · have hnef := hother f (by simp [hf])
      rw [if_neg hnef.1, if_neg hnef.2]
      exact hr.sizes f (by simp [hf])
    · rw [if_neg (by dsimp only; omega), if_pos rfl]
    · have hnef := hother f (by simp [hf])
      rw [if_neg hnef.1, if_neg hnef.2]
      exact hr.sizes f (by simp [hf])
    · rw [if_pos rfl]
    · have hnef := hother f (by simp [hf])
      rw [if_neg hnef.1, if_neg hnef.2]
      exact hr.sizes f (by simp [hf])
  · rw [(heff R.isCell_head).1, if_neg (hr.cells (e := (a, size + k)) (by simp)).2.1.symm,
      if_neg (hshape.ne_head (e := (a + size, k)) (by simp)).symm]
    exact hr.headSize
  · have hnep := hprev' _ R.isCell_endBlock (by omega) (by omega) (by omega)
    rw [(heff R.isCell_endBlock).2, if_neg hnep, if_neg (by omega), if_neg (by omega)]
    exact hr.endNext
  · rw [(heff R.isCell_endBlock).1, if_neg (by omega), if_neg (by omega)]
    exact hr.endSize
  · have hlt := hr.totalSize_lt
    have hrem := hr.remaining
    dsimp only
    rw [(heff hblk).1, if_pos rfl, hrem]
    simp only [totalSize_append, totalSize_cons] at hlt ⊢
    rw [wordSub_of_le (by omega) (by omega)]
    omega

end HeapRep

/-! ## Putting a block back

The two stages of the code, first with the block below and then with the one above, each with the
case that nothing is merged. -/

section Put

variable {item blk pEnd a n₁ n t c : ℕ}

/-- The block that is free after the first merge starts at `a` and has `n₁` bytes. -/
def Merged (m : Memory) (item blk a n₁ : ℕ) : Prop :=
  (a = blk ∧ item + blockSize m item ≠ blk ∧ n₁ = blockSize m blk) ∨
  (a = item ∧ item + blockSize m item = blk ∧ n₁ = blockSize m item + blockSize m blk)

/-- The first merge: a block that is free right before the one given back takes it in. -/
theorem mergeBefore_spec (h : Merged m item blk a n₁) (hitem : R.IsCell item)
    (hend : item + blockSize m item < 2 ^ 32) (hn₁ : n₁ < 2 ^ 32) :
    (mergeBefore m item blk).1 = a ∧ ∀ c, R.IsCell c →
      blockSize (mergeBefore m item blk).2 c = (if c = a then n₁ else blockSize m c) ∧
      nextBlock (mergeBefore m item blk).2 c = nextBlock m c := by
  rw [mergeBefore, wordAdd_of_lt hend]
  rcases h with ⟨rfl, hne, rfl⟩ | ⟨rfl, heq, rfl⟩
  · rw [if_neg hne]
    refine ⟨rfl, fun c _ => ⟨?_, rfl⟩⟩
    split_ifs with hc
    · rw [hc]
    · rfl
  · rw [if_pos heq]
    refine ⟨rfl, fun c hc => ⟨?_, nextBlock_setBlockSize hitem hc⟩⟩
    dsimp only
    rw [wordAdd_of_lt hn₁, blockSize_setBlockSize hitem hc hn₁]

/-- After the second merge it has `n` bytes and `t` comes next. -/
def Joined (m : Memory) (pEnd item a n₁ n t : ℕ) : Prop :=
  (a + n₁ ≠ nextBlock m item ∧ n = n₁ ∧ t = nextBlock m item) ∨
  (a + n₁ = nextBlock m item ∧ nextBlock m item ≠ pEnd ∧ n = n₁ + blockSize m (nextBlock m item) ∧
    t = nextBlock m (nextBlock m item))

/-- The second one: what was given back takes in the free block right behind it. -/
theorem mergeAfter_spec (h : Joined m pEnd item a (blockSize m a) n t) (ha : R.IsCell a)
    (hnext : nextBlock m item ≠ pEnd → R.IsCell (nextBlock m item)) (hitem : R.IsCell item)
    (hend : a + blockSize m a < 2 ^ 32) (hn : n < 2 ^ 32) (c : ℕ) (hc : R.IsCell c) :
    blockSize (mergeAfter m pEnd item a) c = (if c = a then n else blockSize m c) ∧
    nextBlock (mergeAfter m pEnd item a) c = if c = a then t else nextBlock m c := by
  rw [mergeAfter, wordAdd_of_lt hend]
  rcases h with ⟨hne, rfl, rfl⟩ | ⟨heq, hne, rfl, rfl⟩
  · rw [if_neg hne, blockSize_setNextBlock ha hc, nextBlock_setNextBlock ha hc (nextBlock_lt _ _)]
    refine ⟨?_, rfl⟩
    split_ifs with hca
    · rw [hca]
    · rfl
  · rw [if_pos heq, if_pos hne]
    dsimp only
    rw [wordAdd_of_lt hn, nextBlock_setBlockSize ha hitem, nextBlock_setBlockSize ha (hnext hne),
      blockSize_setNextBlock ha hc, blockSize_setBlockSize ha hc hn,
      nextBlock_setNextBlock ha hc (nextBlock_lt _ _), nextBlock_setBlockSize ha hc]
    exact ⟨rfl, rfl⟩

/-- What `BT_kFree` does to the headers. -/
theorem putBlock_spec (hm : Merged m item blk a n₁) (hj : Joined m pEnd item a n₁ n t)
    (hitem : R.IsCell item) (ha : R.IsCell a) (hnext : nextBlock m item ≠ pEnd →
      R.IsCell (nextBlock m item))
    (hne : nextBlock m item ≠ a) (hend : item + blockSize m item < 2 ^ 32) (hend' : a + n₁ < 2 ^ 32)
    (hn : n < 2 ^ 32) (hc : R.IsCell c) :
    blockSize (putBlock m pEnd item blk) c = (if c = a then n else blockSize m c) ∧
    nextBlock (putBlock m pEnd item blk) c =
      if c = a then t else if c = item then a else nextBlock m c := by
  obtain ⟨hstart, h₁⟩ := mergeBefore_spec hm hitem hend (by omega)
  have hsize : blockSize (mergeBefore m item blk).2 a = n₁ := by
    rw [(h₁ a ha).1, if_pos rfl]
  have hj' : Joined (mergeBefore m item blk).2 pEnd item a
      (blockSize (mergeBefore m item blk).2 a) n t := by
    rw [hsize]
    unfold Joined
    rw [(h₁ item hitem).2]
    rcases hj with ⟨hapart, rfl, rfl⟩ | ⟨hadj, hlast, rfl, rfl⟩
    · exact .inl ⟨hapart, rfl, rfl⟩
    · refine .inr ⟨hadj, hlast, ?_, ?_⟩
      · rw [(h₁ _ (hnext hlast)).1, if_neg hne]
      · rw [(h₁ _ (hnext hlast)).2]
  have h₂ := mergeAfter_spec hj' ha (by rwa [(h₁ item hitem).2]) hitem (by rwa [hsize]) hn
  have halt : a < 2 ^ 32 := by omega
  rw [putBlock, hstart]
  by_cases hia : item = a
  · rw [if_neg (not_not.mpr hia), (h₂ c hc).1, (h₂ c hc).2, (h₁ c hc).1, (h₁ c hc).2]
    refine ⟨?_, ?_⟩
    · split_ifs
      · rfl
      · rfl
    · split_ifs with hca hci
      · rfl
      · exact absurd (hci.trans hia) hca
      · rfl
  · rw [if_pos hia, blockSize_setNextBlock hitem hc, nextBlock_setNextBlock hitem hc halt,
      (h₂ c hc).1, (h₂ c hc).2, (h₁ c hc).1, (h₁ c hc).2]
    refine ⟨?_, ?_⟩
    · split_ifs
      · rfl
      · rfl
    · split_ifs with hci hca hca
      · exact absurd (hci.symm.trans hca) hia
      · rfl
      · rfl
      · rfl

end Put

/-- Blocks are told apart by where they start. -/
theorem HeapShape.eq_of_start {free live : List Extent} {e f : Extent} (h : HeapShape R free live)
    (he : e ∈ free ++ live) (hf : f ∈ free ++ live) (heq : e.1 = f.1) : e = f := by
  by_contra hne
  have happ := pairwise_apart_of_cover_le_one h.cover_le_one
  have hpos := (h.whole e he).pos
  have hpos' := (h.whole f hf).pos
  refine happ.forall he hf hne e.1 ⟨⟨le_refl _, ?_⟩, ?_, ?_⟩
  · omega
  · omega
  · omega

namespace HeapRep

variable {h : Heap} {free live as bs as' bs' : List Extent} {x : Extent} {a n₁ n t : ℕ}

/-- Where the list is cut, the cell before the cut is a cell other than the end. -/
theorem item_cell (hr : HeapRep R h (as ++ bs) live) :
    R.IsCell (lastCell R.head (as.map Prod.fst)) ∧ R.endBlock ≠ lastCell R.head (as.map Prod.fst) ∧
    lastCell R.head (as.map Prod.fst) + blockSize h.mem (lastCell R.head (as.map Prod.fst)) <
      2 ^ 32 := by
  rcases List.mem_cons.mp (lastCell_mem R.head (as.map Prod.fst)) with heq | hmem
  · rw [heq, hr.headSize]
    have hend := R.head_end
    exact ⟨R.isCell_head, endBlock_ne_head, by omega⟩
  · obtain ⟨f, hf, heq⟩ := List.mem_map.mp hmem
    have hfree : f ∈ as ++ bs := by simp [hf]
    have hmem' := List.mem_append_left live hfree
    have hb := hr.bounds hmem'
    have hlt := R.stop_lt
    rw [← heq, hr.sizes f hmem']
    exact ⟨hr.isCell hmem', (hr.freeBelow f hfree).ne', by omega⟩

/-- A block that has been put into the list, merged with its neighbours or not. -/
theorem put (hr : HeapRep R h (as ++ bs) live) (hx : x ∈ live)
    (hshape : HeapShape R (as' ++ (a, n) :: bs') (live.erase x))
    (hsub : ∀ f ∈ as' ++ bs', f ∈ as ++ bs)
    (htotal : totalSize (as' ++ (a, n) :: bs') = totalSize (as ++ bs) + x.2)
    (heff : ∀ c, R.IsCell c →
      blockSize (putBlock h.mem h.pEnd (lastCell R.head (as.map Prod.fst)) x.1) c =
        (if c = a then n else blockSize h.mem c) ∧
      nextBlock (putBlock h.mem h.pEnd (lastCell R.head (as.map Prod.fst)) x.1) c =
        if c = a then t else if c = lastCell R.head (as.map Prod.fst) then a else nextBlock h.mem c)
    (hlist : Leads (nextBlock (putBlock h.mem h.pEnd (lastCell R.head (as.map Prod.fst)) x.1))
      R.endBlock R.head ((as' ++ (a, n) :: bs').map Prod.fst)) :
    HeapRep R ⟨putBlock h.mem h.pEnd (lastCell R.head (as.map Prod.fst)) x.1, h.pEnd,
      wordAdd h.bytesRemaining (blockSize h.mem x.1)⟩ (as' ++ (a, n) :: bs') (live.erase x) := by
  have hnew : (a, n) ∈ as' ++ (a, n) :: bs' := by simp
  have hhead : R.head ≠ a := (hshape.ne_head (List.mem_append_left _ hnew)).symm
  have hend : R.endBlock ≠ a := (hshape.freeBelow _ hnew).ne'
  refine ⟨hshape, hr.pEnd, hlist, ?_, ?_, ?_, ?_, ?_⟩
  · intro f hf
    rw [(heff _ (hshape.isCell hf)).1]
    split_ifs with hfa
    · have heq := hshape.eq_of_start hf (List.mem_append_left _ hnew) hfa
      rw [heq]
    · refine hr.sizes f ?_
      rcases List.mem_append.mp hf with hf' | hf'
      · rcases List.mem_cons.mp (List.perm_middle.mem_iff.mp hf') with rfl | hf''
        · exact absurd rfl hfa
        · exact List.mem_append_left _ (hsub f hf'')
      · exact List.mem_append_right _ (List.mem_of_mem_erase hf')
  · rw [(heff _ R.isCell_head).1, if_neg hhead]
    exact hr.headSize
  · rw [(heff _ R.isCell_endBlock).2, if_neg hend, if_neg hr.item_cell.2.1]
    exact hr.endNext
  · rw [(heff _ R.isCell_endBlock).1, if_neg hend]
    exact hr.endSize
  · have hlt := hr.totalSize_lt
    rw [totalSize_append, totalSize_erase hx] at hlt
    rw [htotal, hr.sizes x (List.mem_append_right _ hx), hr.remaining, wordAdd_of_lt]
    omega

end HeapRep

/-- The headers after a block has been put behind `item`, starting at `a`. -/
def PutLinks (R : HeapRegion) (next next' : ℕ → ℕ) (item a t : ℕ) : Prop :=
  ∀ c, R.IsCell c → next' c = if c = a then t else if c = item then a else next c

/-- The free blocks `as` below a block `x` that is freed, after the first merge. -/
structure Front (R : HeapRegion) (m : Memory) (as : List Extent) (x : Extent) (as' : List Extent)
    (a n₁ : ℕ) : Prop where
  /-- the block has been joined with the one before it, if they touch -/
  merged : Merged m (lastCell R.head (as.map Prod.fst)) x.1 a n₁
  /-- the blocks hold the same bytes -/
  cover : ∀ y, cover (as' ++ [(a, n₁)]) y = cover (as ++ [x]) y
  /-- and as many -/
  total : totalSize as' + n₁ = totalSize as + x.2
  /-- but for the one in front no block is new -/
  subset : ∀ f ∈ as', f ∈ as
  /-- the blocks before it are still in order -/
  chain : as'.IsChain Extent.Gap
  /-- and do not touch it any more -/
  gap : ∀ f ∈ as'.getLast?, f.1 + f.2 < a
  /-- it ends where the block that was given back does -/
  stop : a + n₁ = x.1 + x.2
  /-- it is made of whole headers -/
  whole : WholeHeaders (a, n₁)
  le : a ≤ x.1
  cell : R.IsCell a
  /-- when it has been put in, the list leads through the blocks up to it -/
  links : ∀ next' t, PutLinks R (nextBlock m) next' (lastCell R.head (as.map Prod.fst)) a t →
    Leads next' a R.head (as'.map Prod.fst)

/-- The part of the list before the block that is given back, after the first merge. -/
theorem HeapRep.front {h : Heap} {as bs live : List Extent} {x : Extent}
    (hr : HeapRep R h (as ++ bs) live) (hx : x ∈ live) (has : ∀ e ∈ as, e.1 + e.2 ≤ x.1) :
    ∃ as' a n₁, Front R h.mem as x as' a n₁ := by
  have hmem : x ∈ as ++ bs ++ live := List.mem_append_right _ hx
  have hsize := hr.sizes x hmem
  have hchain := (List.isChain_append.mp hr.gap).1
  have hleads := hr.list
  rw [List.map_append] at hleads
  have hfirst := (leads_append.mp hleads).1
  by_cases hadj : ∃ e ∈ as.getLast?, e.1 + e.2 = x.1
  · -- the last block below `x` ends where `x` starts
    obtain ⟨e, he, hend⟩ := hadj
    obtain ⟨as', rfl⟩ := List.getLast?_eq_some_iff.mp he
    have hmem' : e ∈ as' ++ [e] ++ bs ++ live := by simp
    have hlast : lastCell R.head ((as' ++ [e]).map Prod.fst) = e.1 := by simp
    have hsplit := chain_middle.mp hchain
    have hw := hr.whole e hmem'
    have hwx := hr.whole x hmem
    have hs := hw.size
    have hsx := hwx.size
    have hpos := hw.pos
    refine ⟨as', e.1, e.2 + x.2, ?_, ?_, ?_, ?_, hsplit.1, hsplit.2.1, by omega,
      ⟨hw.start, by dsimp only; omega, by dsimp only; omega⟩, by omega, hr.isCell hmem', ?_⟩
    · rw [hlast]
      exact .inr ⟨rfl, by rw [hr.sizes e hmem', hend], by rw [hr.sizes e hmem', hsize]⟩
    · intro y
      have hx' : x = (e.1 + e.2, x.2) := Prod.ext hend.symm rfl
      rw [List.append_assoc, cover_append, cover_append, cover_split, hx']
      rfl
    · rw [totalSize_append, totalSize_cons, totalSize_nil]
      omega
    · exact fun f hf => List.mem_append_left _ hf
    · intro next' t hlinks
      rw [hlast] at hlinks
      rw [List.map_append, List.map_cons, List.map_nil] at hfirst
      have hnodup := nodup_front hr.toHeapShape
      rw [List.map_append, List.map_cons, List.map_nil, ← List.cons_append] at hnodup
      have hne : ∀ c ∈ R.head :: as'.map Prod.fst, c ≠ e.1 := fun c hc =>
        (List.nodup_append.mp hnodup).2.2 c hc e.1 (List.mem_singleton_self _)
      have hkeep : ∀ c ∈ R.head :: as'.map Prod.fst, next' c = nextBlock h.mem c := by
        intro c hc
        have hshape : HeapShape R (as' ++ ([e] ++ bs)) live := by
          rw [← List.append_assoc]
          exact hr.toHeapShape
        have hcell : R.IsCell c := HeapRep.list_cell hshape hc
        rw [hlinks c hcell, if_neg (hne c hc), if_neg (hne c hc)]
      refine (leads_cut.mp hfirst).1.move (hkeep _ List.mem_cons_self) ?_
      exact fun c hc => hkeep c (List.mem_cons_of_mem _ hc)
  · have hgap : ∀ f ∈ as.getLast?, f.1 + f.2 < x.1 := by
      intro f hf
      refine lt_of_le_of_ne (has f (List.mem_of_getLast? hf)) fun heq => hadj ⟨f, hf, heq⟩
    have hxcell := hr.isCell hmem
    have hitem : lastCell R.head (as.map Prod.fst) + blockSize h.mem
        (lastCell R.head (as.map Prod.fst)) ≠ x.1 ∧
        ∀ c ∈ R.head :: as.map Prod.fst, c ≠ x.1 := by
      refine ⟨?_, ?_⟩
      · rcases as.eq_nil_or_concat with rfl | ⟨as₁, e, rfl⟩
        · change R.head + blockSize h.mem R.head ≠ x.1
          rw [hr.headSize]
          exact (hr.ne_head hmem).symm
        · rw [List.concat_eq_append, List.map_append, List.map_cons, List.map_nil,
            lastCell_append_singleton, hr.sizes e (by simp)]
          exact (hgap e (by simp)).ne
      · intro c hc
        rcases List.mem_cons.mp hc with rfl | hc'
        · exact (hr.ne_head hmem).symm
        · obtain ⟨f, hf, rfl⟩ := List.mem_map.mp hc'
          have hle := has f hf
          have hpos := (hr.whole f (by simp [hf])).pos
          omega
    refine ⟨as, x.1, x.2, .inl ⟨rfl, hitem.1, hsize.symm⟩, fun y => rfl, rfl, fun f hf => hf,
      hchain, hgap, rfl, hr.whole x hmem, le_refl _, hxcell, ?_⟩
    intro next' t hlinks
    refine hfirst.retarget (HeapRep.nodup_front hr.toHeapShape) ?_ ?_
    · rw [hlinks _ hr.item_cell.1, if_neg (hitem.2 _ (lastCell_mem _ _)), if_pos rfl]
    · intro c hc hne
      rw [hlinks c (HeapRep.list_cell hr.toHeapShape hc), if_neg (hitem.2 c hc), if_neg hne]

/-- The free blocks `bs` above a block `(a, n₁)` that is freed, after the second merge. -/
structure Back (R : HeapRegion) (m : Memory) (item a n₁ : ℕ) (bs bs' : List Extent) (n t : ℕ) :
    Prop where
  /-- the block has been joined with the one behind it, if they touch -/
  joined : Joined m R.endBlock item a n₁ n t
  /-- the blocks hold the same bytes -/
  cover : ∀ y, cover ((a, n) :: bs') y = cover ((a, n₁) :: bs) y
  /-- and as many -/
  total : n + totalSize bs' = n₁ + totalSize bs
  /-- no block behind it is new -/
  subset : ∀ f ∈ bs', f ∈ bs
  /-- they are still in order -/
  chain : bs'.IsChain Extent.Gap
  /-- and do not touch it any more -/
  gap : ∀ f ∈ bs'.head?, a + n < f.1
  /-- it is made of whole headers -/
  whole : WholeHeaders (a, n)
  lt : n < 2 ^ 32
  /-- when it has been put in, the list leads on from it through the others -/
  links : ∀ next', PutLinks R (nextBlock m) next' item a t →
    Leads next' R.endBlock a (bs'.map Prod.fst)

theorem HeapRep.back {h : Heap} {as bs live : List Extent} (a n₁ : ℕ)
    (hr : HeapRep R h (as ++ bs) live) (hbs : ∀ f ∈ bs, a + n₁ ≤ f.1) (hbelow : a + n₁ < R.endBlock)
    (hw : WholeHeaders (a, n₁)) (hcell : R.IsCell a) :
    ∃ bs' n t, Back R h.mem (lastCell R.head (as.map Prod.fst)) a n₁ bs bs' n t := by
  have hpos : 0 < n₁ := hw.pos
  have hchain := (List.isChain_append.mp hr.gap).2.1
  have hleads := hr.list
  rw [List.map_append] at hleads
  have hrest := (leads_append.mp hleads).2
  have hlt := R.stop_lt
  have hstop := R.endBlock_eq
  -- the blocks above keep their links
  have hkeep : ∀ next' t, PutLinks R (nextBlock h.mem) next'
      (lastCell R.head (as.map Prod.fst)) a t →
      ∀ f ∈ bs, next' f.1 = nextBlock h.mem f.1 := by
    intro next' t hlinks f hf
    have hle := hbs f hf
    have hmem : f ∈ as ++ bs ++ live := by simp [hf]
    have hne : f.1 ≠ lastCell R.head (as.map Prod.fst) := by
      have hnodup := hr.nodup
      rw [List.map_append, ← List.cons_append] at hnodup
      exact ((List.nodup_append.mp hnodup).2.2 _ (lastCell_mem _ _) f.1
        (List.mem_map_of_mem hf)).symm
    rw [hlinks _ (hr.isCell hmem), if_neg (by omega), if_neg hne]
  cases bs with
  | nil =>
    have hnext : nextBlock h.mem (lastCell R.head (as.map Prod.fst)) = R.endBlock := hrest
    refine ⟨[], n₁, R.endBlock, .inl ⟨by rw [hnext]; omega, rfl, hnext.symm⟩, fun _ => rfl, rfl,
      nofun, .nil, nofun, hw, by omega, fun next' hlinks => ?_⟩
    change next' a = R.endBlock
    rw [hlinks a hcell, if_pos rfl]
  | cons f bs =>
    have hnext : nextBlock h.mem (lastCell R.head (as.map Prod.fst)) = f.1 := hrest.1
    have hmem : f ∈ as ++ f :: bs ++ live := by simp
    have hfsize := hr.sizes f hmem
    have hfw := hr.whole f hmem
    have hb := hr.bounds hmem
    by_cases hadj : a + n₁ = f.1
    · have hs := hw.size
      have hsf := hfw.size
      obtain ⟨hgap, hchain'⟩ := List.isChain_cons.mp hchain
      refine ⟨bs, n₁ + f.2, nextBlock h.mem f.1,
        .inr ⟨by rw [hnext, hadj], ?_, by rw [hnext, hfsize], by rw [hnext]⟩,
        fun y => ?_, ?_, fun g hg => List.mem_cons_of_mem _ hg, hchain', fun g hg => ?_,
        ⟨hw.start, by dsimp only at *; omega, by dsimp only; omega⟩, by
        omega, fun next' hlinks => ?_⟩
      · rw [hnext]
        exact (hr.freeBelow f (by simp)).ne
      · have hf' : f = (a + n₁, f.2) := Prod.ext hadj.symm rfl
        rw [cover_split, ← hf']
      · rw [totalSize_cons]
        omega
      · have := hgap g hg
        unfold Extent.Gap at this
        omega
      · refine hrest.2.move ?_ ?_
        · rw [hlinks a hcell, if_pos rfl]
        · intro c hc
          obtain ⟨g, hg, rfl⟩ := List.mem_map.mp hc
          exact hkeep next' _ hlinks g (List.mem_cons_of_mem _ hg)
    · have hle := hbs f List.mem_cons_self
      refine ⟨f :: bs, n₁, f.1, .inl ⟨by rw [hnext]; exact hadj, rfl, hnext.symm⟩, fun _ => rfl,
        rfl, fun g hg => hg, hchain, ?_, hw, by omega, fun next' hlinks => ?_⟩
      · intro g hg
        rw [List.head?_cons, Option.mem_some_iff] at hg
        rw [← hg]
        omega
      · refine hrest.move ?_ ?_
        · rw [hlinks a hcell, if_pos rfl, hnext]
        · intro c hc
          obtain ⟨g, hg, rfl⟩ := List.mem_map.mp hc
          exact hkeep next' _ hlinks g hg

namespace HeapRep

variable {h h' : Heap} {free live as bs : List Extent} {x : Extent} {n p : ℕ}

/-- A live block is put back between the free blocks below and above it. -/
theorem put_back (hr : HeapRep R h (as ++ bs) live) (hx : x ∈ live)
    (has : ∀ e ∈ as, e.1 + e.2 ≤ x.1) (hbs : ∀ f ∈ bs, x.1 + x.2 ≤ f.1) :
    ∃ free', HeapRep R ⟨putBlock h.mem h.pEnd (lastCell R.head (as.map Prod.fst)) x.1, h.pEnd,
      wordAdd h.bytesRemaining (blockSize h.mem x.1)⟩ free' (live.erase x) := by
  obtain ⟨as', a, n₁, hf⟩ := hr.front hx has
  have hbelow := hr.liveBelow x hx
  have hstop := hf.stop
  have hpos : 0 < n₁ := hf.whole.pos
  obtain ⟨bs', n, t, hb⟩ := hr.back a n₁ (by rwa [hstop]) (by omega) hf.whole hf.cell
  have hlt := R.stop_lt
  have hend := R.endBlock_eq
  have hitem := hr.item_cell
  have hleads := hr.list
  rw [List.map_append] at hleads
  have hrest := (leads_append.mp hleads).2
  have hnext : nextBlock h.mem (lastCell R.head (as.map Prod.fst)) ≠ a ∧
      (nextBlock h.mem (lastCell R.head (as.map Prod.fst)) ≠ h.pEnd →
        R.IsCell (nextBlock h.mem (lastCell R.head (as.map Prod.fst)))) := by
    cases bs with
    | nil =>
      have heq : nextBlock h.mem (lastCell R.head (as.map Prod.fst)) = R.endBlock := hrest
      rw [heq]
      exact ⟨by omega, fun _ => R.isCell_endBlock⟩
    | cons f bs =>
      have heq : nextBlock h.mem (lastCell R.head (as.map Prod.fst)) = f.1 := hrest.1
      have hle := hbs f List.mem_cons_self
      rw [heq]
      exact ⟨by omega, fun _ => hr.isCell (by simp)⟩
  have heff := fun c (hc : R.IsCell c) => putBlock_spec hf.merged
    (hr.pEnd.symm ▸ hb.joined) hitem.1 hf.cell
    hnext.2 hnext.1 hitem.2.2 (by omega) hb.lt hc
  have hlinks : PutLinks R (nextBlock h.mem)
      (nextBlock (putBlock h.mem h.pEnd (lastCell R.head (as.map Prod.fst)) x.1))
      (lastCell R.head (as.map Prod.fst)) a t := fun c hc => (heff c hc).2
  have hsub : ∀ f ∈ as' ++ bs', f ∈ as ++ bs := by
    intro f hf'
    rcases List.mem_append.mp hf' with h₁ | h₁
    · exact List.mem_append_left _ (hf.subset f h₁)
    · exact List.mem_append_right _ (hb.subset f h₁)
  have hshape : HeapShape R (as' ++ (a, n) :: bs') (live.erase x) := by
    have hle := hf.le
    refine hr.toHeapShape.put hx (fun y => ?_) hsub ?_ hb.whole (by dsimp only; omega)
    · have h₁ := hf.cover y
      have h₂ := hb.cover y
      simp only [cover_append, cover_cons, cover_nil] at h₁ h₂ ⊢
      omega
    · exact chain_middle.mpr ⟨hf.chain, hf.gap, hb.gap, hb.chain⟩
  refine ⟨as' ++ (a, n) :: bs', hr.put hx hshape hsub ?_ heff ?_⟩
  · have h₁ := hf.total
    have h₂ := hb.total
    rw [totalSize_append, totalSize_append, totalSize_cons]
    omega
  · rw [List.map_append, List.map_cons]
    exact leads_cut.mpr ⟨hf.links _ t hlinks, hb.links _ hlinks⟩

/-- Freeing a live block. -/
theorem heapFree_live (hr : HeapRep R h free live) (hx : x ∈ live) :
    ∃ h', heapFree R h (x.1 + 8) = some h' ∧ ∃ free', HeapRep R h' free' (live.erase x) := by
  have hbelow := hr.liveBelow x hx
  have hlt := R.stop_lt
  have hend := R.endBlock_eq
  have hsub : wordSub (x.1 + 8) heapBlockBytes = x.1 := by
    rw [wordSub_of_le (by unfold heapBlockBytes; omega) (by omega)]
    exact Nat.add_sub_cancel _ _
  obtain ⟨as, bs, rfl, has, hbs, hrun⟩ := findPlace_spec x.1 hr.list (by omega) hr.length_lt
  have has' : ∀ e ∈ as, e.1 + e.2 ≤ x.1 := by
    intro e he
    have h₁ := has e he
    have h₂ := hr.free_live (e := e) (by simp [he]) hx
    omega
  have hbs' : ∀ f ∈ bs, x.1 + x.2 ≤ f.1 := by
    intro f hf
    have hpos := (hr.whole x (List.mem_append_right _ hx)).pos
    have hposf := (hr.whole f (by simp [hf])).pos
    have hle : x.1 ≤ f.1 := by
      cases bs with
      | nil => exact absurd hf List.not_mem_nil
      | cons g bs =>
        have hg := hbs g rfl
        rcases List.mem_cons.mp hf with rfl | hf'
        · exact hg
        · have := hr.around.2 f hf'
          omega
    have h₂ := hr.free_live (e := f) (by simp [hf]) hx
    omega
  refine ⟨_, ?_, hr.put_back hx has' hbs'⟩
  unfold heapFree
  rw [if_neg (by omega), hsub]
  dsimp only
  rw [hrun]

end HeapRep

/-! ## Runs

The runs are those whose sizes do not wrap and whose blocks do not reach the end of the list. -/

/-- The block `BT_kMalloc` has handed out with the pointer `p`. -/
def handedOut (h : Heap) (p : ℕ) : Extent :=
  (wordSub p heapBlockBytes, blockSize h.mem (wordSub p heapBlockBytes))

namespace HeapRep

variable {h h' : Heap} {free live as bs : List Extent} {x : Extent} {n p : ℕ}

/-- An allocation whose block does not reach the end of the list. -/
theorem malloc (hr : HeapRep R h free live) (hn : n + 16 < 2 ^ 32)
    (hrun : heapMalloc R h n = some (p, h')) (hblock : p ≠ 0 →
    (handedOut h' p).1 + (handedOut h' p).2 < R.endBlock) :
    ∃ free', HeapRep R h' free' (if p = 0 then live else handedOut h' p :: live) := by
  obtain ⟨hmod, hle, hreq⟩ := heapRequest_spec hn
  rcases hr.heapMalloc_cases n with ⟨-, hno⟩ | ⟨as, e, bs, rfl, -, hfit, hyes⟩
  · rw [hno, Option.some.injEq, Prod.mk.injEq] at hrun
    obtain ⟨rfl, rfl⟩ := hrun
    exact ⟨free, by rwa [if_pos rfl]⟩
  · rw [hyes, Option.some.injEq, Prod.mk.injEq] at hrun
    obtain ⟨rfl, rfl⟩ := hrun
    have hb := hr.bounds (e := e) (by simp)
    have hlt := R.stop_lt
    have hpos : e.1 + 8 ≠ 0 := by omega
    have hsub : wordSub (e.1 + 8) heapBlockBytes = e.1 := by
      rw [wordSub_of_le (by unfold heapBlockBytes; omega) (by omega)]
      exact Nat.add_sub_cancel _ _
    have hcell : R.IsCell e.1 := hr.isCell (by simp)
    have hsize := hr.sizes e (by simp)
    obtain ⟨hprev, hprev'⟩ := prev_cell hr.toHeapShape
    have hb' := hblock hpos
    rw [handedOut, hsub] at hb' ⊢
    dsimp only at hb' ⊢
    rw [if_neg hpos]
    by_cases hsmall : e.2 ≤ heapRequest n + 16
    · have heff := (takeBlock_whole hprev hcell (hsize.symm ▸ hfit) (hsize.symm ▸ hsmall) hcell).1
      rw [heff, hsize] at hb' ⊢
      have := hr.take_whole hfit hsmall hb'
      rw [heff, hsize] at this
      exact ⟨_, this⟩
    · obtain ⟨a, k⟩ := e
      dsimp only at *
      obtain ⟨k, rfl⟩ : ∃ k', k = heapRequest n + k' := ⟨k - heapRequest n, by omega⟩
      have hstart : a % 8 = 0 := (hr.whole (a, heapRequest n + k) (by simp)).start
      have hroom := R.room
      have hne := hprev' a hcell (by omega) (by omega) (le_refl _)
      have heff := (takeBlock_split hprev hcell (.inr ⟨by omega, by omega, by omega⟩) hne hsize
        (by omega) hcell).1
      rw [if_pos rfl] at heff
      rw [heff] at hb' ⊢
      have hrep := hr.take_split (by omega) hmod (by omega) hb'
      rw [heff] at hrep
      exact ⟨_, hrep⟩

/-- Clients may write into what they have been given. -/
theorem write {m : Memory} (hr : HeapRep R h free live)
    (hout : ∀ y, (∀ x ∈ live, ¬ Extent.Holds (x.1 + 8, x.2 - 8) y) → m y = h.mem y) :
    HeapRep R { h with mem := m } free live := by
  -- no payload overlaps the header of a block, the head or the end of the list
  have hclear : ∀ c, R.IsCell c → (∀ x ∈ live, c = x.1 ∨ c + 8 ≤ x.1 ∨ x.1 + x.2 ≤ c) →
      nextBlock m c = nextBlock h.mem c ∧ blockSize m c = blockSize h.mem c := by
    intro c hc hx
    have hbyte : ∀ y, c ≤ y → y < c + 8 → m y = h.mem y := by
      intro y h₁ h₂
      refine hout y fun x hxl => ?_
      rw [Extent.holds_mk]
      have := hx x hxl
      omega
    refine ⟨load_congr fun y h₁ h₂ => hbyte y h₁ (by omega), ?_⟩
    rw [blockSize_eq hc, blockSize_eq hc]
    exact load_congr fun y h₁ h₂ => hbyte y (by omega) (by omega)
  have hblock : ∀ e ∈ free ++ live, nextBlock m e.1 = nextBlock h.mem e.1 ∧
      blockSize m e.1 = blockSize h.mem e.1 := by
    intro e he
    refine hclear e.1 (hr.isCell he) fun x hx => ?_
    by_cases heq : e = x
    · exact .inl (congrArg Prod.fst heq)
    · refine .inr ?_
      have hw := hr.whole e he
      have hx' := List.mem_append_right free hx
      have happ := (pairwise_apart_of_cover_le_one hr.cover_le_one).forall he hx' heq
      have hends := happ.ends hw.pos (hr.whole x hx').pos
      have hsize := hw.size
      have hpos := hw.pos
      omega
  have hhead : nextBlock m R.head = nextBlock h.mem R.head ∧
      blockSize m R.head = blockSize h.mem R.head := by
    refine hclear _ R.isCell_head fun x hx => .inr ?_
    have hb := hr.bounds (List.mem_append_right free hx)
    have ho := R.head_out
    have hroom := R.room
    omega
  have hend : nextBlock m R.endBlock = nextBlock h.mem R.endBlock ∧
      blockSize m R.endBlock = blockSize h.mem R.endBlock := by
    refine hclear _ R.isCell_endBlock fun x hx => .inr (.inr ?_)
    exact (hr.liveBelow x hx).le
  refine ⟨hr.toHeapShape, hr.pEnd, ?_, ?_, ?_, ?_, ?_, hr.remaining⟩
  · refine hr.list.move hhead.1 fun c hc => ?_
    obtain ⟨e, he, rfl⟩ := List.mem_map.mp hc
    exact (hblock e (List.mem_append_left _ he)).1
  · intro e he
    rw [(hblock e he).2]
    exact hr.sizes e he
  · rw [hhead.2]
    exact hr.headSize
  · rw [hend.1]
    exact hr.endNext
  · rw [hend.2]
    exact hr.endSize

end HeapRep

/-- The states of the heap with the blocks that are live in them. `Size` says which
sizes are asked for, `Block` which blocks are handed out. -/
inductive HeapReach (R : HeapRegion) (Size : ℕ → Prop) (Block : Extent → Prop) :
    Heap → List Extent → Prop
  | init (h : Heap) : HeapReach R Size Block (btInitialiseHeap R h) []
  | malloc {h h' : Heap} {live : List Extent} {n p : ℕ} (reach : HeapReach R Size Block h live)
    (size : Size n) (run : heapMalloc R h n = some (p, h'))
    (block : p ≠ 0 → Block (handedOut h' p)) :
    HeapReach R Size Block h' (if p = 0 then live else handedOut h' p :: live)
  | free {h h' : Heap} {live : List Extent} {x : Extent} (reach : HeapReach R Size Block h live)
    (own : x ∈ live) (run : heapFree R h (x.1 + 8) = some h') :
    HeapReach R Size Block h' (live.erase x)
  | write {h : Heap} {live : List Extent} {m : Memory} (reach : HeapReach R Size Block h live)
    (out : ∀ y, (∀ x ∈ live, ¬ Extent.Holds (x.1 + 8, x.2 - 8) y) → m y = h.mem y) :
    HeapReach R Size Block { h with mem := m } live

/-- Sizes that do not wrap around when the header is added and the sum rounded up. -/
def Moderate (n : ℕ) : Prop := n + 16 < 2 ^ 32

/-- Blocks that end below `pEnd`. -/
def EndsBelow (R : HeapRegion) (e : Extent) : Prop := e.1 + e.2 < R.endBlock

/-- The heap is well formed in every state that is reached. -/
theorem HeapReach.rep {h : Heap} {live : List Extent}
    (hreach : HeapReach R Moderate (EndsBelow R) h live) :
    ∃ free, HeapRep R h free live := by
  induction hreach with
  | init h => exact ⟨_, heapRep_init h⟩
  | malloc _ size run block ih =>
    obtain ⟨free, hr⟩ := ih
    exact hr.malloc size run block
  | free _ own run ih =>
    obtain ⟨free, hr⟩ := ih
    obtain ⟨h₂, hrun, hr'⟩ := hr.heapFree_live own
    obtain rfl := Option.some.inj (run.symm.trans hrun)
    exact hr'
  | write _ out ih =>
    obtain ⟨free, hr⟩ := ih
    exact ⟨free, hr.write out⟩

/-- What holds of the free and the live blocks of a heap. -/
structure HeapSound (R : HeapRegion) (h : Heap) (free live : List Extent) : Prop where
  /-- the free list runs through the free blocks -/
  list : Leads (nextBlock h.mem) R.endBlock R.head (free.map Prod.fst)
  /-- every header holds its block's size -/
  sizes : ∀ e ∈ free ++ live, blockSize h.mem e.1 = e.2
  /-- the blocks tile the first block -/
  tiled : ∀ x, cover (free ++ live) x = if R.start ≤ x ∧ x < R.start + R.firstSize then 1 else 0
  /-- no two free blocks are adjacent -/
  apart : ∀ e ∈ free, ∀ f ∈ free, e.1 + e.2 ≠ f.1
  remaining : h.bytesRemaining = totalSize free
  /-- when everything has been freed, the heap is as it was -/
  recovered : live = [] → free = [(R.start, R.firstSize)] ∧ h.bytesRemaining = R.firstSize
  /-- the searches end -/
  returns : (∀ n, heapMalloc R h n ≠ none) ∧ ∀ x ∈ live, heapFree R h (x.1 + 8) ≠ none

/-- The invariant gives what the allocator is for. -/
theorem HeapRep.sound {h : Heap} {free live : List Extent} (hr : HeapRep R h free live) :
    HeapSound R h free live := by
  refine ⟨hr.list, hr.sizes, hr.tiled, ?_, hr.remaining, ?_, ?_, ?_⟩
  · intro e he f hf heq
    have hpos := (hr.whole e (List.mem_append_left _ he)).pos
    have hpos' := (hr.whole f (List.mem_append_left _ hf)).pos
    by_cases hef : e = f
    · rw [hef] at heq hpos
      omega
    · -- one of the two comes first, and leaves a gap
      obtain ⟨as, bs, rfl⟩ := List.append_of_mem he
      have hrest := List.mem_cons.mp (List.perm_middle.mem_iff.mp hf)
      rcases hrest with rfl | hf'
      · exact hef rfl
      · rcases List.mem_append.mp hf' with hf' | hf'
        · have := hr.around.1 f hf'
          omega
        · have := hr.around.2 f hf'
          omega
  · rintro rfl
    have hall := hr.all_free
    refine ⟨hall, ?_⟩
    rw [hr.remaining, hall, totalSize_cons, totalSize_nil, Nat.add_zero]
  · intro n hnone
    rcases hr.heapMalloc_cases n with ⟨-, hno⟩ | ⟨as, e, bs, -, -, -, hyes⟩
    · rw [hno] at hnone
      cases hnone
    · rw [hyes] at hnone
      cases hnone
  · intro x hx hnone
    obtain ⟨h', hrun, -⟩ := hr.heapFree_live hx
    rw [hrun] at hnone
    cases hnone

/-- **The linear heap coalesces** in every run in which no block that is handed out
reaches `pEnd`. -/
theorem heap_coalesces {h : Heap} {live : List Extent}
    (hreach : HeapReach R Moderate (EndsBelow R) h live) : ∃ free, HeapSound R h free live := by
  obtain ⟨free, hr⟩ := hreach.rep
  exact ⟨free, hr.sound⟩

/-- A heap of 256 bytes. -/
def smallHeap : HeapRegion where
  start := 0x1000
  stop := 0x1100
  head := 0x800
  start_pos := by decide
  start_aligned := by decide
  stop_aligned := by decide
  stop_lt := by decide
  room := by decide
  head_end := by decide
  head_out := by decide

/-- The small heap before the first allocation. -/
def clearHeap : Heap := ⟨fun _ => 0, 0, 0⟩

/-- 20 bytes are handed out and freed again. -/
theorem heap_coalesces_twenty : ∃ h h' : Heap,
    HeapReach smallHeap Moderate (EndsBelow smallHeap) h [(0x1000, 32)] ∧
    heapFree smallHeap h 0x1008 = some h' ∧ h'.bytesRemaining = 248 := by
  have hinit : HeapReach smallHeap Moderate (EndsBelow smallHeap)
      (btInitialiseHeap smallHeap clearHeap) [] :=
    .init _
  have hrun : ((heapMalloc smallHeap (btInitialiseHeap smallHeap clearHeap) 20).map fun r =>
      (r.1, handedOut r.2 r.1)) = some (0x1008, (0x1000, 32)) := by decide +kernel
  obtain ⟨⟨p, h⟩, hmalloc, heq⟩ := Option.map_eq_some_iff.mp hrun
  obtain ⟨rfl, hblock⟩ := Prod.mk.inj heq
  have hreach := HeapReach.malloc hinit (by unfold Moderate; decide) hmalloc (fun _ => by
    rw [hblock]
    unfold EndsBelow
    decide)
  rw [if_neg (by decide), hblock] at hreach
  obtain ⟨free, hr⟩ := hreach.rep
  obtain ⟨h', hfree, -⟩ := hr.heapFree_live List.mem_cons_self
  have hreach' := HeapReach.free hreach List.mem_cons_self hfree
  obtain ⟨free', hsound⟩ := heap_coalesces hreach'
  exact ⟨h, h', hreach, hfree, (hsound.recovered rfl).2⟩

/-! ## The end of the list

Without that last assumption the cell at the end of the list is overwritten by an owner, or handed
out to one. -/

/-- The list is in order and ends in `pEnd`, and no block overlaps `pEnd` or leaves the
region. -/
structure HeapInside (R : HeapRegion) (h : Heap) (free live : List Extent) : Prop where
  /-- the free list runs through the free blocks -/
  list : Leads (nextBlock h.mem) h.pEnd R.head (free.map Prod.fst)
  /-- which have their sizes in their headers -/
  sizes : ∀ e ∈ free, blockSize h.mem e.1 = e.2
  /-- and ends at `pEnd` -/
  last : nextBlock h.mem h.pEnd = 0
  /-- it is sorted by address -/
  sorted : (free.map Prod.fst ++ [h.pEnd]).Pairwise (· < ·)
  /-- no block reaches into the block at `pEnd` -/
  clear : ∀ e ∈ free ++ live, e.Apart (h.pEnd, heapBlockBytes)
  /-- and none out of the region -/
  inside : ∀ e ∈ free ++ live, e.1 + e.2 ≤ R.stop

/-- `pEnd` lies inside the first free block. -/
theorem init_overlaps_end (R : HeapRegion) (h : Heap) (free : List Extent) :
    ¬ HeapInside R (btInitialiseHeap R h) free [] := by
  intro hin
  have hr := heapRep_init (R := R) h
  have hnext : nextBlock (btInitialiseHeap R h).mem R.head = R.start := hr.list.1
  have hsize : blockSize (btInitialiseHeap R h).mem R.start = R.firstSize :=
    hr.sizes (R.start, R.firstSize) (by simp)
  have hlist := hin.list
  rw [hr.pEnd] at hlist
  have h₁ := R.room
  have h₂ := R.endBlock_eq
  have h₃ := R.firstSize_eq
  cases free with
  | nil =>
    have heq : nextBlock (btInitialiseHeap R h).mem R.head = R.endBlock := hlist
    omega
  | cons e es =>
    have heq : nextBlock (btInitialiseHeap R h).mem R.head = e.1 := hlist.1
    have he := hin.sizes e List.mem_cons_self
    rw [← heq, hnext, hsize] at he
    have hclear := hin.clear e (by simp)
    rw [hr.pEnd] at hclear
    refine hclear R.endBlock ⟨⟨?_, ?_⟩, ?_, ?_⟩
    · omega
    · omega
    · exact le_refl _
    · unfold heapBlockBytes
      dsimp only
      omega

/-- In no region do the blocks stay clear of `pEnd`, whatever is asked for. -/
theorem heap_leaves_region (R : HeapRegion) (Size : ℕ → Prop) (Block : Extent → Prop) :
    ¬ ∀ h live, HeapReach R Size Block h live → ∃ free, HeapInside R h free live := by
  intro hall
  obtain ⟨free, hin⟩ := hall _ _ (.init clearHeap)
  exact init_overlaps_end R clearHeap free hin

/-- 200 bytes of the small heap are handed out with `pEnd` among them. -/
theorem heap_hands_out_end : ∃ h, HeapReach smallHeap Moderate (fun _ => True) h [(0x1000, 208)] ∧
    ¬∃ free, HeapInside smallHeap h free [(0x1000, 208)] := by
  have hinit : HeapReach smallHeap Moderate (fun _ => True) (btInitialiseHeap smallHeap clearHeap)
      [] := .init _
  have hrun : ((heapMalloc smallHeap (btInitialiseHeap smallHeap clearHeap) 200).map fun r =>
      (r.1, handedOut r.2 r.1, r.2.pEnd)) = some (0x1008, (0x1000, 208),
        0x10C0) := by decide +kernel
  obtain ⟨⟨p, h⟩, hmalloc, heq⟩ := Option.map_eq_some_iff.mp hrun
  obtain ⟨rfl, heq'⟩ := Prod.mk.inj heq
  obtain ⟨hblock, hend⟩ := Prod.mk.inj heq'
  have hreach := HeapReach.malloc hinit (by unfold Moderate; decide) hmalloc fun _ => trivial
  rw [if_neg (by decide), hblock] at hreach
  refine ⟨h, hreach, ?_⟩
  rintro ⟨free, hin⟩
  have hclear := hin.clear (0x1000, 208) (by simp)
  rw [show h.pEnd = 0x10C0 from hend] at hclear
  exact hclear 0x10C0 ⟨by decide, by decide⟩

end BitThunder
