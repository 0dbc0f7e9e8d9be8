import BitThunder.Vm.Atomic

/-!
# Reserving a fixed range

`bt_segment_reserve` takes the segment `bt_segment_lookup` finds for the range, if it is
free. The lookup wants a segment that goes on behind the end of the range, and computes
that end in 32 bits.

* A range that ends where a gap ends is refused although it is free.
* For a range that ends with the address space the end is `0`: the lookup then finds
  the first segment of the map.

`reserve_exact_iff` says for which ranges the call does what it is for.

Memory is put aside first: with two blocks to be had, a range can be cut out of a free segment in
any way that is needed, so that the lookup decides. The lookup is a `List.find?` over a tiling, and
for a tiling the segment that it finds is the one that holds the start of the range, if any goes on
behind its end. The comparison is strict, which is the first of the two ways to fail; the other is
the end that has become `0`, for which the first segment of the map passes the test.

`LookupSuits` says for which ranges neither matters. It is stated with the free segment around the
range rather than with the lookup, so that it can be checked by looking at the map.
-/

namespace BitThunder

variable {σ : Type} {K : Kernel σ} {s : Machine σ} {m i lo hi addr size : ℕ} {v : Segment}
  {xs as bs : List Entry}

/-- The kernel heap grants the next two segments. -/
structure GrantsTwo (K : Kernel σ) (e : σ) : Prop where
  /-- there is memory for a segment -/
  first : (K.kMalloc segmentBytes e).1 ≠ 0
  /-- and for another one -/
  second : (K.kMalloc segmentBytes (K.kMalloc segmentBytes e).2).1 ≠ 0

/-! ## With memory to spare the lookup decides

Two blocks are enough to cut any range, so that nothing else can fail. -/

/-- A block that is granted costs one of the two at most. -/
theorem blockFor_some {e : σ} (hz : (K.kMalloc segmentBytes e).1 ≠ 0) (needed : Bool) :
    blockFor K needed e = some e ∨ blockFor K needed e = some (K.kMalloc segmentBytes e).2 := by
  unfold blockFor
  cases needed
  · exact .inl rfl
  · rw [if_pos rfl, if_neg hz]
    exact .inr rfl

theorem GrantsTwo.blockFor_bind {e : σ} (hg : GrantsTwo K e) (needed needed' : Bool) :
    ∃ e', (blockFor K needed e).bind (blockFor K needed') = some e' := by
  rcases blockFor_some hg.first needed with h | h
  · rw [h, Option.bind_some]
    exact (blockFor_some hg.first needed').elim (fun h' => ⟨_, h'⟩) fun h' => ⟨_, h'⟩
  · rw [h, Option.bind_some]
    exact (blockFor_some hg.second needed').elim (fun h' => ⟨_, h'⟩) fun h' => ⟨_, h'⟩

/-- With two segments to be had, the range can be cut out of a free segment. -/
theorem GrantsTwo.reserveTarget_isSome {e : σ} (hg : GrantsTwo K e) (xs : List Entry) (addr n : ℕ) :
    (∃ t, reserveTarget K e xs addr n = some t) ↔
      ∃ x, (xs.find? fun x => lookupTest (btPageTrunc addr) n x.2) = some x ∧
        x.2.has btSegFree := by
  unfold reserveTarget
  cases xs.find? fun x => lookupTest (btPageTrunc addr) n x.2 with
  | none => simp
  | some x =>
    simp only [Option.some.injEq, exists_eq_left']
    by_cases hfree : x.2.has btSegFree
    · obtain ⟨e', he⟩ := hg.blockFor_bind (x.2.addr ≠ addr) (restFrom x.2 addr ≠ n)
      rw [if_pos hfree, he]
      exact iff_of_true ⟨_, rfl⟩ hfree
    · rw [if_neg hfree]
      exact iff_of_false (by simp) hfree

/-! ## What the lookup finds

In a tiling the segment with the first address of the range is the only candidate, unless the end is
`0`. -/

/-- The range lies inside one free segment. -/
def InsideFree (xs : List Entry) (addr size : ℕ) : Prop :=
  ∃ x ∈ xs, x.2.has btSegFree ∧ x.2.addr ≤ addr ∧ addr + size ≤ x.2.addr + x.2.size

/-- A free segment starts at `addr` or before it and ends at `stop`. -/
def FreeUpTo (xs : List Entry) (addr stop : ℕ) : Prop :=
  ∃ x ∈ xs, x.2.has btSegFree ∧ x.2.addr ≤ addr ∧ x.2.addr + x.2.size = stop

/-- The segments tile an interval of 32-bit addresses. -/
abbrev TilesMap (lo : ℕ) (xs : List Entry) (hi : ℕ) : Prop :=
  Tiles (fun x : Entry => x.2.addr) (fun x => x.2.size) lo xs hi

/-- In front of the end of the address space the lookup finds the free segment around
the range, if that goes on behind the range. -/
theorem lookup_free_iff (ht : TilesMap lo xs hi) (hpos : 0 < size) (hend : addr + size < 2 ^ 32) :
    (∃ x, (xs.find? fun x => lookupTest addr size x.2) = some x ∧ x.2.has btSegFree) ↔
      InsideFree xs addr size ∧ ¬ FreeUpTo xs addr (addr + size) := by
  have htest (x : Entry) : lookupTest addr size x.2 = true ↔
      x.2.addr ≤ addr ∧ addr + size < x.2.addr + x.2.size := by
    rw [lookupTest, wordAdd_of_lt hend, Bool.and_eq_true, decide_eq_true_eq, decide_eq_true_eq]
  constructor
  · rintro ⟨x, hfind, hfree⟩
    have hx := List.mem_of_find?_eq_some hfind
    obtain ⟨hle, hlt⟩ := (htest x).mp
      (List.find?_some (p := fun x : Entry => lookupTest addr size x.2) hfind)
    refine ⟨⟨x, hx, hfree, hle, hlt.le⟩, ?_⟩
    rintro ⟨y, hy, -, hle', hstop⟩
    obtain rfl := ht.eq_of_mem (a := addr) hx hy ⟨hle, by omega⟩ ⟨hle', by omega⟩
    omega
  · rintro ⟨⟨x, hx, hfree, hle, hend'⟩, hno⟩
    have hne : x.2.addr + x.2.size ≠ addr + size := fun he => hno ⟨x, hx, hfree, hle, he⟩
    have hpass : lookupTest addr size x.2 = true := (htest x).mpr ⟨hle, by omega⟩
    cases hfind : xs.find? fun x => lookupTest addr size x.2 with
    | none => exact absurd hpass (List.find?_eq_none.mp hfind x hx)
    | some y =>
      have hy := List.mem_of_find?_eq_some hfind
      obtain ⟨hle', hlt'⟩ := (htest y).mp
        (List.find?_some (p := fun x : Entry => lookupTest addr size x.2) hfind)
      obtain rfl := ht.eq_of_mem (a := addr) hx hy ⟨hle, by omega⟩ ⟨hle', by omega⟩
      exact ⟨x, rfl, hfree⟩

/-- At the end of the address space the lookup finds the first segment of the map. -/
theorem lookup_last_iff (ht : TilesMap lo xs hi) (hend : addr + size = 2 ^ 32) :
    (∃ x, (xs.find? fun x => lookupTest addr size x.2) = some x ∧ x.2.has btSegFree) ↔
      ∃ x ∈ xs.head?, x.2.has btSegFree ∧ x.2.addr ≤ addr := by
  have hword : wordAdd addr size = 0 := by
    unfold wordAdd
    omega
  cases xs with
  | nil => simp
  | cons x xs =>
    have hpos : 0 < x.2.size := (tiles_cons.mp ht).2.1
    simp only [List.head?_cons, Option.mem_def, Option.some.injEq, exists_eq_left']
    by_cases hle : x.2.addr ≤ addr
    · have hpass : lookupTest addr size x.2 = true := by
        rw [lookupTest, hword, Bool.and_eq_true, decide_eq_true_eq, decide_eq_true_eq]
        exact ⟨hle, by omega⟩
      rw [List.find?_cons_of_pos (p := fun x : Entry => lookupTest addr size x.2) hpass]
      constructor
      · rintro ⟨y, hy, hfree⟩
        obtain rfl := Option.some.inj hy
        exact ⟨hfree, hle⟩
      · exact fun hx => ⟨x, rfl, hx.1⟩
    · -- every segment starts behind the range
      refine iff_of_false ?_ fun hx => hle hx.2
      rintro ⟨y, hfind, -⟩
      have htest := List.find?_some (p := fun x : Entry => lookupTest addr size x.2) hfind
      simp only [lookupTest, Bool.and_eq_true, decide_eq_true_eq] at htest
      have hlo : x.2.addr = lo := (tiles_cons.mp ht).1
      have : lo ≤ y.2.addr := (ht.bounds (List.mem_of_find?_eq_some hfind)).1
      omega

/-- A free segment around a range that ends with the address space ends there too. -/
theorem insideFree_last_iff (ht : TilesMap lo xs hi) (hhi : hi ≤ 2 ^ 32)
    (hend : addr + size = 2 ^ 32) : InsideFree xs addr size ↔ FreeUpTo xs addr (2 ^ 32) := by
  constructor
  · rintro ⟨x, hx, hfree, hle, hstop⟩
    have := (ht.bounds hx).2.2
    exact ⟨x, hx, hfree, hle, by omega⟩
  · rintro ⟨x, hx, hfree, hle, hstop⟩
    exact ⟨x, hx, hfree, hle, by omega⟩

/-! ## When the call does what it is for

Both directions, and a page at each end of an address space. -/

/-- `bt_segment_reserve` ends, and leaves a segment of the map with exactly this range
if and only if the range lies inside one free segment. -/
def ReservesExactly (K : Kernel σ) (m addr size : ℕ) (xs : List Entry) (s : Machine σ) : Prop :=
  Prog.Ensures (btSegmentReserve K m addr size) s fun r s' =>
    (∃ j v ys, r = some j ∧ Shows s' m ys ∧ (j, v) ∈ ys ∧ v.addr = addr ∧ v.size = size) ↔
      InsideFree xs addr size

/-- The ranges for which the test of the lookup is the right one. One that ends below
the end of the address space must not end where a gap ends that it lies in. For one that ends
there, the first segment of the map has to be free, and start at the range or below it,
if and only if the gap around the range is. -/
def LookupSuits (xs : List Entry) (addr size : ℕ) : Prop :=
  addr + size < 2 ^ 32 ∧ ¬ FreeUpTo xs addr (addr + size) ∨
    addr + size = 2 ^ 32 ∧
      ((∃ x ∈ xs.head?, x.2.has btSegFree ∧ x.2.addr ≤ addr) ↔ FreeUpTo xs addr (2 ^ 32))

/-- The segment the call returns has the range that was asked for. -/
theorem btSegmentReserve_range (h : Shows s m xs) (ha : addr % 4096 = 0) (hs : size % 4096 = 0)
    (halt : addr < 2 ^ 32) (hslt : size < 2 ^ 32) (hg : GrantsTwo K s.env) :
    Prog.Ensures (btSegmentReserve K m addr size) s fun r s' =>
      (∃ j v ys, r = some j ∧ Shows s' m ys ∧ (j, v) ∈ ys ∧ v.addr = addr ∧ v.size = size) ↔
        ∃ x, (xs.find? fun x => lookupTest addr size x.2) = some x ∧ x.2.has btSegFree := by
  have htarget := hg.reserveTarget_isSome xs addr (btPageAlign size)
  refine (btSegmentReserve_spec h addr size).mono fun r s' hr => ?_
  rw [btPageTrunc_of_aligned halt ha, btPageAlign_of_aligned hslt hs] at htarget
  rw [btPageAlign_of_aligned hslt hs] at hr
  rw [← htarget]
  rcases hr with ⟨rfl, hnone, -⟩ | ⟨v, as, j, p, bs, rfl, hsome, -, -, e⟩
  · rw [hnone]
    simp
  · exact iff_of_true ⟨j, _, _, rfl, e.shows, List.mem_append_right _ (List.mem_cons_self ..), rfl,
      rfl⟩
      ⟨_, hsome⟩

/-- **When a fixed address can be reserved.** For a page-aligned, non-empty range that does
not go past the end of the address space, on a map whose segments tile their interval,
with memory for two segments: the call succeeds exactly when it should if and only if the
lookup suits the range. -/
theorem reserve_exact_iff (h : Shows s m xs) (ht : TilesMap lo xs hi) (hhi : hi ≤ 2 ^ 32)
    (ha : addr % 4096 = 0) (hs : size % 4096 = 0) (halt : addr < 2 ^ 32) (hslt : size < 2 ^ 32)
    (hpos : 0 < size) (hend : addr + size ≤ 2 ^ 32) (hg : GrantsTwo K s.env) :
    ReservesExactly K m addr size xs s ↔ LookupSuits xs addr size := by
  have hiff : ReservesExactly K m addr size xs s ↔
      ((∃ x, (xs.find? fun x => lookupTest addr size x.2) = some x ∧ x.2.has btSegFree) ↔
        InsideFree xs addr size) :=
    Prog.Ensures.iff_of <| (btSegmentReserve_range h ha hs halt hslt hg).mono fun _ _ hr => by
    rw [hr]
  rw [hiff, LookupSuits]
  by_cases hlast : addr + size = 2 ^ 32
  · rw [lookup_last_iff ht hlast, insideFree_last_iff ht hhi hlast]
    constructor
    · exact fun hfound => .inr ⟨hlast, hfound⟩
    · rintro (⟨hlt, -⟩ | ⟨-, hfound⟩)
      · omega
      · exact hfound
  · have hlt : addr + size < 2 ^ 32 := by omega
    rw [lookup_free_iff ht hpos hlt]
    constructor
    · refine fun hfound => .inl ⟨hlt, fun hflush => ?_⟩
      obtain ⟨x, hx, hfree, hle, hstop⟩ := hflush
      exact (hfound.mpr ⟨x, hx, hfree, hle, hstop.ge⟩).2 ⟨x, hx, hfree, hle, hstop⟩
    · rintro (⟨-, hno⟩ | ⟨he, -⟩)
      · exact ⟨And.left, fun hin => ⟨hin, hno⟩⟩
      · omega

theorem stockKernel_grantsTwo (e : Stock) (h : 2 ≤ e.blocks) : GrantsTwo stockKernel e := by
  obtain ⟨b, mu, p, pe, t⟩ := e
  obtain ⟨k, rfl⟩ : ∃ k, b = k + 2 := ⟨b - 2, by simp only at h; omega⟩
  constructor
  · simp [stockKernel]
  · simp [stockKernel]

/-- The first page of a new map. -/
theorem reserve_exact_iff_first_page :
    ReservesExactly stockKernel 1 0x1000 0x1000 [(2, initialSegment)]
      (freshMap ⟨10, 10, 0, 0, 10⟩) := by
  refine (reserve_exact_iff (freshMap_shows _) (initialSegment_ok 2).tiles (by decide) (by decide)
    (by decide) (by decide) (by decide) (by decide) (by decide)
    (stockKernel_grantsTwo _ (by decide))).mpr (.inl ⟨by decide, ?_⟩)
  rintro ⟨x, hx, -, -, hstop⟩
  obtain rfl := List.mem_singleton.mp hx
  exact absurd hstop (by decide)

/-- **The last page of a gap cannot be reserved.** The map is a new one, whose only
segment is free, and the page is the last of user space. -/
theorem last_page_refused :
    let s : Machine Stock := freshMap ⟨10, 10, 0, 0, 10⟩
    Shows s 1 [(2, initialSegment)] ∧ SegmentsOk btPageSize btMmUserLimit [(2, initialSegment)] ∧
      GrantsTwo stockKernel s.env ∧
      ¬ReservesExactly stockKernel 1 0xBFFFF000 0x1000 [(2, initialSegment)] s := by
  refine ⟨freshMap_shows _, initialSegment_ok 2, stockKernel_grantsTwo _ (by decide), fun hex => ?_⟩
  have heval : (btSegmentReserve stockKernel 1 0xBFFFF000 0x1000
      (freshMap ⟨10, 10, 0, 0, 10⟩)).map Prod.fst = some none := by
    decide +kernel
  obtain ⟨r, s', hrun, hpost⟩ := hex
  rw [hrun] at heval
  obtain rfl := Option.some.inj heval
  obtain ⟨j, -, -, hj, -⟩ := hpost.mpr
    ⟨(2, initialSegment), List.mem_singleton_self _, initialSegment_free, by decide, by decide⟩
  cases hj

end BitThunder
