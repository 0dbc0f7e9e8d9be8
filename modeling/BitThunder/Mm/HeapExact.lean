import BitThunder.Mm.HeapSpec

/-!
# The linear heap, for every size

What `BT_kMalloc` of the linear heap does with each size that a word can hold. The header and the
alignment are added in 32 bits, so that the largest sizes come out as `0` or `8`.

* `heapRequest_of_fits`, `heapRequest_of_not_fits`: the sum;
* `HeapReach.rep_of_fits`: the states the heap gets into;
* `heap_malloc_exact_iff`: when a call does what it has to;
* `heap_malloc_wraps`: four gigabytes out of a heap of 256 bytes.

The states are those of runs in which every size fits and no block reaches the end of the list, so
that the invariant of the previous module is there. One more call with any size is made. If its size
fits, the sum that the code computes is the sum without wrapping, and the block has the room. If it
does not, the sum is `0` or `8`; something is free in every such state, and a block of no more than
a header is handed out for gigabytes.
-/

namespace BitThunder

variable {R : HeapRegion}

/-! ## The request

What a block has to have for a size, without wrapping, and what the code computes for it. -/

/-- The bytes of a block for `n` bytes: with the header, and rounded up to a multiple of 8, as
numbers that do not wrap -/
def neededBytes (n : ℕ) : ℕ := (n + heapBlockBytes + 7) / 8 * 8

/-- The bytes that are needed can be asked for. -/
def HeapFits (n : ℕ) : Prop := n + 16 ≤ 2 ^ 32

/-- For these sizes the code computes what is needed. -/
theorem heapRequest_of_fits {n : ℕ} (hn : HeapFits n) : heapRequest n = neededBytes n := by
  unfold HeapFits at hn
  have hadd : wordAdd n heapBlockBytes = n + 8 := wordAdd_of_lt (by unfold heapBlockBytes; omega)
  have hmask : (n + 8) &&& 7 = (n + 8) % 8 := Nat.and_two_pow_sub_one_eq_mod (n + 8) 3
  rw [heapRequest, hadd, hmask, neededBytes, heapBlockBytes]
  split_ifs with h
  · rw [wordAdd_of_lt (by omega)]
    omega
  · omega

/-- The largest sizes come out as no more than a header. -/
theorem heapRequest_of_not_fits {n : ℕ} (hn : n < 2 ^ 32) (hfits : ¬HeapFits n) :
    heapRequest n ≤ 8 := by
  unfold HeapFits at hfits
  have hmask : wordAdd n heapBlockBytes &&& 7 = wordAdd n heapBlockBytes % 8 :=
    Nat.and_two_pow_sub_one_eq_mod _ 3
  have hadd : wordAdd n heapBlockBytes = (n + 8) % 2 ^ 32 := rfl
  rw [heapRequest, hmask, hadd]
  split_ifs with h
  · change ((n + 8) % 2 ^ 32 + (8 - (n + 8) % 2 ^ 32 % 8)) % 2 ^ 32 ≤ 8
    omega
  · omega

/-! ## States

In a run in which every size fits the invariant of the previous module holds, and something is
always free. -/

namespace HeapRep

variable {h : Heap} {free live as bs : List Extent} {e : Extent} {n : ℕ}

/-- The size of no block comes near that of the address space. -/
theorem size_lt (hr : HeapRep R h free live) (he : e ∈ free) : e.2 + 16 < 2 ^ 32 := by
  have hb := hr.bounds (List.mem_append_left live he)
  have hlt := R.stop_lt
  have hroom := R.room
  have hpos := R.start_pos
  have hstart := R.start_aligned
  have hstop := R.stop_aligned
  omega

/-- The blocks that are live end below `pEnd`, so that something is free. -/
theorem free_ne_nil (hr : HeapRep R h free live) : free ≠ [] := by
  rintro rfl
  have hroom := R.room
  have hend := R.endBlock_eq
  have hsize := R.firstSize_eq
  have hcover := hr.tiled R.endBlock
  rw [if_pos ⟨by omega, by omega⟩, List.nil_append] at hcover
  obtain ⟨e, he, hin⟩ := cover_pos.mp (hcover ▸ Nat.one_pos)
  exact absurd hin.2 (not_lt.mpr (hr.liveBelow e he).le)

/-- For these sizes a call leaves the heap well formed. -/
theorem malloc_of_fits {h' : Heap} {p : ℕ} (hr : HeapRep R h free live) (hn : HeapFits n)
    (hrun : heapMalloc R h n = some (p, h')) (hblock : p ≠ 0 → EndsBelow R (handedOut h' p)) :
    ∃ free', HeapRep R h' free' (if p = 0 then live else handedOut h' p :: live) := by
  rcases Nat.lt_or_eq_of_le hn with hlt | heq
  · exact hr.malloc hlt hrun hblock
  · -- there is no block for the largest request
    rcases hr.heapMalloc_cases n with ⟨-, hno⟩ | ⟨as, e, bs, rfl, -, hfit, -⟩
    · rw [hno, Option.some.injEq, Prod.mk.injEq] at hrun
      obtain ⟨rfl, rfl⟩ := hrun
      exact ⟨free, by rwa [if_pos rfl]⟩
    · have hsize := hr.size_lt (e := e) (by simp)
      rw [heapRequest_of_fits hn, neededBytes, heapBlockBytes] at hfit
      omega

end HeapRep

/-- The heap is well formed in every state that such calls reach. -/
theorem HeapReach.rep_of_fits {h : Heap} {live : List Extent}
    (hreach : HeapReach R HeapFits (EndsBelow R) h live) :
    ∃ free, HeapRep R h free live := by
  induction hreach with
  | init h => exact ⟨_, heapRep_init h⟩
  | malloc _ size run block ih =>
    obtain ⟨free, hr⟩ := ih
    exact hr.malloc_of_fits size run block
  | free _ own run ih =>
    obtain ⟨free, hr⟩ := ih
    obtain ⟨h₂, hrun, hr'⟩ := hr.heapFree_live own
    obtain rfl := Option.some.inj (run.symm.trans hrun)
    exact hr'
  | write _ out ih =>
    obtain ⟨free, hr⟩ := ih
    exact ⟨free, hr.write out⟩

/-! ## What is handed out

If the size fits, the block has the room. If it does not, what was asked for is a header at most. -/

/-- What a call with the size `n` has to do, if `free` are the free blocks: `p` is what it returns.
-/
structure MallocExact (free : List Extent) (n p : ℕ) (h' : Heap) : Prop where
  /-- behind the header of a block that lies in a free one, with room for `n` bytes -/
  inside : p ≠ 0 → ∃ e ∈ free, p = e.1 + heapBlockBytes ∧ n + heapBlockBytes ≤ (handedOut h' p).2 ∧
    (handedOut h' p).2 ≤ e.2
  /-- the block begins at a multiple of eight -/
  aligned : p % 8 = 0
  /-- a request is refused if it is empty, or if no free block is large enough -/
  refused : p = 0 ↔ n = 0 ∨ ∀ e ∈ free, e.2 < neededBytes n

namespace HeapRep

variable {h h' : Heap} {free live as bs : List Extent} {e : Extent} {n p : ℕ}

/-- The block that is taken is a whole free block, or as large as was asked for. -/
theorem takeBlock_size (hr : HeapRep R h (as ++ e :: bs) live) {size : ℕ} (hmod : size % 8 = 0)
    (hfit : size ≤ e.2) :
    let taken := blockSize (takeBlock h.mem (lastCell R.head (as.map Prod.fst)) e.1 size) e.1
    size ≤ taken ∧ taken ≤ e.2 := by
  have hb := hr.bounds (e := e) (by simp)
  have hcell : R.IsCell e.1 := hr.isCell (by simp)
  have hsize := hr.sizes e (by simp)
  obtain ⟨hprev, hprev'⟩ := prev_cell hr.toHeapShape
  dsimp only
  by_cases hsmall : e.2 ≤ size + 16
  · rw [(takeBlock_whole hprev hcell (hsize.symm ▸ hfit) (hsize.symm ▸ hsmall) hcell).1, hsize]
    exact ⟨hfit, le_rfl⟩
  · have hroom := R.room
    have hstart := (hr.whole e (by simp)).start
    have hne := hprev' e.1 hcell (by omega) (by omega) le_rfl
    have hnew : R.IsCell (e.1 + size) := .inr ⟨by omega, by omega, by omega⟩
    have hsplit : blockSize h.mem e.1 = size + (e.2 - size) := by omega
    rw [(takeBlock_split hprev hcell hnew hne hsplit (by omega) hcell).1, if_pos rfl]
    exact ⟨le_rfl, hfit⟩

theorem exact_of_fits (hr : HeapRep R h free live) (hn : HeapFits n) :
    ∃ p h', heapMalloc R h n = some (p, h') ∧ MallocExact free n p h' := by
  have hreq := heapRequest_of_fits hn
  rcases hr.heapMalloc_cases n with ⟨hwhy, hno⟩ | ⟨as, e, bs, rfl, hpos, hfit, hyes⟩
  · rw [hreq] at hwhy
    exact ⟨0, h, hno, nofun, rfl, iff_of_true rfl hwhy⟩
  · refine ⟨_, _, hyes, ?_, ?_, ?_⟩
    · intro _
      have hb := hr.bounds (e := e) (by simp)
      have hlt := R.stop_lt
      have hroom := R.room
      have hsub : wordSub (e.1 + 8) heapBlockBytes = e.1 := by
        rw [wordSub_of_le (by unfold heapBlockBytes; omega) (by omega)]
        exact Nat.add_sub_cancel _ _
      have hmod : heapRequest n % 8 = 0 := by
        rw [hreq]
        exact Nat.mul_mod_left _ _
      obtain ⟨hlow, hhigh⟩ := hr.takeBlock_size hmod hfit
      refine ⟨e, by simp, rfl, ?_, ?_⟩
      · rw [handedOut, hsub]
        refine le_trans ?_ hlow
        rw [hreq, neededBytes]
        omega
      · rw [handedOut, hsub]
        exact hhigh
    · have hstart := (hr.whole e (by simp)).start
      omega
    · refine iff_of_false (by omega) ?_
      rintro (hzero | hall)
      · exact hpos hzero
      · have := hall e (by simp)
        omega

/-- A size that wraps is not refused. -/
theorem not_exact_of_not_fits (hr : HeapRep R h free live) (hn : n < 2 ^ 32) (hfits : ¬HeapFits n)
    (hrun : heapMalloc R h n = some (p, h')) : ¬MallocExact free n p h' := by
  intro hexact
  have hreq := heapRequest_of_not_fits hn hfits
  have hneeded : 2 ^ 32 ≤ neededBytes n := by
    unfold HeapFits at hfits
    rw [neededBytes, heapBlockBytes]
    omega
  have hzero : p = 0 := hexact.refused.mpr (.inr fun e he => by
    have := hr.size_lt he
    omega)
  rcases hr.heapMalloc_cases n with ⟨hwhy, -⟩ | ⟨as, e, bs, -, -, -, hyes⟩
  · -- each free block is large enough for what is asked for
    obtain ⟨e, he⟩ := List.exists_mem_of_ne_nil _ hr.free_ne_nil
    have hw := hr.whole e (List.mem_append_left _ he)
    have hpos := hw.pos
    have hsize := hw.size
    rcases hwhy with rfl | hall
    · exact hfits (by unfold HeapFits; decide)
    · have := hall e he
      omega
  · rw [hyes, Option.some.injEq, Prod.mk.injEq] at hrun
    omega

end HeapRep

/-- The first call initialises the heap. -/
theorem heapMalloc_first {h : Heap} (hfirst : h.pEnd = 0) (n : ℕ) :
    heapMalloc R h n = heapMalloc R (btInitialiseHeap R h) n := by
  have hne : (btInitialiseHeap R h).pEnd ≠ 0 := (heapRep_init h).pEnd_ne
  unfold heapMalloc
  rw [if_pos hfirst, if_neg hne]

/-- In every state of a run in which the sizes fit and no block reaches `pEnd`, a call does what it
has to if and only if its size fits. -/
theorem heap_malloc_exact_iff {h : Heap} {live : List Extent} {n : ℕ}
    (hreach : HeapReach R HeapFits (EndsBelow R) h live) (hn : n < 2 ^ 32) :
    ∃ free, HeapSound R h free live ∧
      ((∃ p h', heapMalloc R h n = some (p, h') ∧ MallocExact free n p h') ↔ HeapFits n) := by
  obtain ⟨free, hr⟩ := hreach.rep_of_fits
  refine ⟨free, hr.sound, fun hexact => ?_, hr.exact_of_fits⟩
  obtain ⟨p, h', hrun, hexact⟩ := hexact
  by_contra hfits
  exact hr.not_exact_of_not_fits hn hfits hrun hexact

/-- The first call, for 20 bytes -/
theorem heap_malloc_exact_iff_twenty :
    ∃ free, HeapSound smallHeap (btInitialiseHeap smallHeap clearHeap) free [] ∧
    ((∃ p h', heapMalloc smallHeap (btInitialiseHeap smallHeap clearHeap) 20 = some (p, h') ∧
      MallocExact free 20 p h') ↔ HeapFits 20) :=
  heap_malloc_exact_iff (.init _) (by decide)

/-- The first call, for all but one of the bytes of the address space: it returns the first byte
behind a header. -/
theorem heap_malloc_wraps :
    HeapReach smallHeap (fun _ => True) (EndsBelow smallHeap) (btInitialiseHeap smallHeap clearHeap)
    [] ∧
    ¬∃ free, HeapSound smallHeap (btInitialiseHeap smallHeap clearHeap) free [] ∧
      ∃ p h', heapMalloc smallHeap (btInitialiseHeap smallHeap clearHeap) (2 ^ 32 - 1) = some
      (p, h') ∧
        MallocExact free (2 ^ 32 - 1) p h' := by
  refine ⟨.init _, ?_⟩
  rintro ⟨free, hsound, p, h', hrun, hexact⟩
  have hfree := (hsound.recovered rfl).1
  have hp : (heapMalloc smallHeap (btInitialiseHeap smallHeap clearHeap) (2 ^ 32 - 1)).map Prod.fst
      = some 0x1008 := by
    decide +kernel
  rw [hrun] at hp
  obtain rfl : p = 0x1008 := Option.some.inj hp
  refine absurd (hexact.refused.mpr (.inr fun e he => ?_)) (by decide)
  rw [hfree] at he
  obtain rfl := List.mem_singleton.mp he
  decide

end BitThunder
