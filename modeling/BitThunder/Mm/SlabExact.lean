import BitThunder.Mm.Realloc

/-!
# The slab allocator, for every size

What `BT_kMalloc` of the slab allocator does with each size that a word can hold. The size is
rounded, the tags are added, and the page allocator rounds again, all in 32 bits.

* `mallocInside_of_fits`, `not_mallocInside`: whether header, payload and magic number are inside
  what was obtained;
* `SlabReach.firstFree`: the cache of 16 bytes is not used in a run of sizes that fit;
* `slab_malloc_inside_iff`: when a call does what it has to;
* `slab_malloc_wraps`: four gigabytes in an object of 32 bytes.

A size that does not fit is larger than any cache, if it has not wrapped to a small one. With the
tags it wraps to a few bytes, for which a small object is handed out; or the sum is still a word but
rounds up to no pages at all, so that the page allocator is asked for nothing. In each case payload
and tags are more than the room has bytes, computed without wrapping.

The last case is a call that has wrapped and finds its cache empty and no pages. It returns nothing,
and is as it should be. The smallest of the caches that such calls come to is that of 16 bytes;
sizes that fit never use it, so that its state is known in every run.
-/

namespace BitThunder

variable {σ : Type} {P : Pages σ} {G : SlabConfig} {taken : σ → ℕ → Prop}

/-- What a call gets its memory from: an object of a cache, or a run of pages -/
def roomFor (P : Pages σ) (G : SlabConfig) (s : Slab σ) (n : ℕ) : Extent :=
  let request := requestSize (roundSize n)
  let a := G.getSuitableCache request
  ((takeMemory P s a request).1, if a = 0 then btPageAlign request else (s.cache a).objectSize)

/-- The state `s'` with that given back: the object to its cache, or the run to the page allocator
-/
def givenBack (P : Pages σ) (G : SlabConfig) (s s' : Slab σ) (n : ℕ) : Slab σ :=
  let request := requestSize (roundSize n)
  let a := G.getSuitableCache request
  if a ≠ 0 then
    let r := btCacheFree (s'.cache a) s'.store (roomFor P G s n).1
    s'.setCache a r.2.1 r.2.2
  else { s' with store := ⟨s'.store.mem,
    P.free (P.alloc request s.store.env).1 request s'.store.env⟩ }

/-- What a call for `n` bytes that returns `p` has to have done -/
structure MallocInside (P : Pages σ) (G : SlabConfig) (s s' : Slab σ) (n p : ℕ) : Prop where
  /-- the pointer is behind the header -/
  header : p = (roomFor P G s n).1 + memTagBytes
  /-- there is room for what was asked for -/
  payload : n ≤ roundSize n
  /-- and for the magic numbers behind it -/
  magic : p + roundSize n + magicTagBytes ≤ (roomFor P G s n).1 + (roomFor P G s n).2
  /-- the block ends within the address space -/
  stop : (roomFor P G s n).1 + (roomFor P G s n).2 ≤ 2 ^ 32
  /-- it can be given back -/
  released : slabFree P s' p = some (givenBack P G s s' n)

section

variable {s s' : Slab σ} {live : List Alloc} {runs : List (ℕ × ℕ)} {blocks fl : ℕ → List ℕ}
  {n p : ℕ}

/-! ## Sizes that fit

The room is as large as tag, payload and magic number together, whichever way it was obtained. -/

/-- A request that is met is not empty, and there was memory for it. -/
theorem slabMalloc_ne_zero (h : (slabMalloc P G s n).1 ≠ 0) :
    n ≠ 0 ∧ (takeMemory P s (G.getSuitableCache (requestSize (roundSize n)))
    (requestSize (roundSize n))).1 ≠ 0 := by
  have hn : n ≠ 0 := by
    rintro rfl
    exact h rfl
  refine ⟨hn, fun hz => h ?_⟩
  rw [slabMalloc, if_neg hn]
  dsimp only
  rw [if_pos hz]

/-- Without a cache for it a request has its own pages. -/
theorem roomFor_paged (hc : G.getSuitableCache (requestSize (roundSize n)) = 0)
    (hne : (P.alloc (requestSize (roundSize n)) s.store.env).1 ≠ 0) :
    roomFor P G s n = (P.ram.physToVirt (P.alloc (requestSize (roundSize n)) s.store.env).1,
      btPageAlign (requestSize (roundSize n))) := by
  unfold roomFor
  dsimp only
  rw [hc, SlabInv.takeMemory_paged hne, if_pos rfl]

/-- With one it has an object of the cache. -/
theorem roomFor_cached {i : ℕ} (hc : G.getSuitableCache (requestSize (roundSize n)) = G.cacheAt i) :
    roomFor P G s n = ((btCacheAlloc P (s.cache (G.cacheAt i)) s.store).1,
    (s.cache (G.cacheAt i)).objectSize) := by
  unfold roomFor
  dsimp only
  rw [hc, SlabInv.takeMemory_cached (G.cacheAt_ne i), if_neg (G.cacheAt_ne i)]

/-- For these sizes both tags lie within the room. -/
theorem mallocInside_of_fits (law : PagesLaw P taken) (h : SlabInv P G taken s live runs blocks fl)
    (hfit : Fits n) (hne : (slabMalloc P G s n).1 ≠ 0) :
    MallocInside P G s (slabMalloc P G s n).2 n (slabMalloc P G s n).1 := by
  obtain ⟨hn, htake⟩ := slabMalloc_ne_zero hne
  obtain ⟨hle, hreq, hround⟩ := hfit.sizes
  have hfst := slabMalloc_fst hn htake
  obtain ⟨p, s', hrun⟩ : ∃ p s', slabMalloc P G s n = (p, s') := ⟨_, _, rfl⟩
  obtain ⟨blocks', fl', hinv⟩ := h.malloc law hfit hrun
  rw [hrun] at hne hfst ⊢
  dsimp only at hne hfst ⊢
  rw [if_neg hne] at hinv
  have hfree := hinv.slabFree_eq List.mem_cons_self
  by_cases hc : G.getSuitableCache (requestSize (roundSize n)) = 0
  · have halloc : (P.alloc (requestSize (roundSize n)) s.store.env).1 ≠ 0 := by
      intro hz
      rw [hc, SlabInv.takeMemory_refused hz] at htake
      exact htake rfl
    have hroom := roomFor_paged (P := P) (G := G) hc halloc
    rw [← hreq] at hround
    have hstop := law.stop _ _ hround halloc
    have hup := (btPageAlign_of_lt hround).2.1
    have hphys := P.ram.virtToPhys_physToVirt (law.lt (requestSize (roundSize n)) s.store.env)
    rw [hc, SlabInv.takeMemory_paged halloc] at hfst
    dsimp only at hfst
    rw [memTagBytes, wordAdd_of_lt (by omega)] at hfst
    have hstart : Alloc.start ⟨p, n⟩ = P.ram.physToVirt
        (P.alloc (requestSize (roundSize n)) s.store.env).1 := by
      rw [Alloc.start, hfst]
      exact Nat.add_sub_cancel ..
    refine ⟨by rw [hroom]; exact hfst, hle, ?_, ?_, ?_⟩
    · rw [hroom, hfst, magicTagBytes]
      dsimp only
      omega
    · rw [hroom]
      exact hstop
    · have hcache : Alloc.cache ⟨p, n⟩ G = 0 := hc
      rw [hfree, hcache, if_neg (not_not.mpr rfl), hstart, hphys, givenBack]
      dsimp only
      rw [hc, if_neg (not_not.mpr rfl)]
      rfl
  · obtain ⟨i, hi, hci, hlei, -⟩ := SlabInv.class_of_ne (x := ⟨p, n⟩) hc
    have hc' : G.getSuitableCache (requestSize (roundSize n)) = G.cacheAt i := hci
    have hroom := roomFor_cached (P := P) (s := s) hc'
    rw [hc', SlabInv.takeMemory_cached (G.cacheAt_ne i)] at hfst htake
    obtain ⟨o, c, st, halloc⟩ : ∃ o c st, btCacheAlloc P (s.cache (G.cacheAt i)) s.store =
        (o, c, st) := ⟨_, _, _, rfl⟩
    rw [halloc] at hfst htake hroom
    obtain ⟨hlt, -⟩ := (h.malloc_cached law hfit hi hc' hlei halloc).2 htake
    rw [memTagBytes, wordAdd_of_lt hlt] at hfst
    have hstart : Alloc.start ⟨p, n⟩ = o := by
      rw [Alloc.start, hfst]
      exact Nat.add_sub_cancel ..
    have hbounds := (hinv.caches.rep i hi).bounds
      (List.mem_append_right _ (mem_objsOf List.mem_cons_self hci))
    rw [hinv.caches.size i hi, hstart] at hbounds
    rw [h.caches.size i hi] at hroom
    have hlei : requestSize (roundSize n) ≤ classSize i := hlei
    refine ⟨by rw [hroom]; exact hfst, hle, ?_, ?_, ?_⟩
    · rw [hroom, hfst, magicTagBytes]
      dsimp only
      omega
    · rw [hroom]
      exact hbounds.2
    · rw [hfree, if_pos (by rw [hci]; exact G.cacheAt_ne i), hci, hstart, givenBack]
      dsimp only
      rw [hc', if_pos (G.cacheAt_ne i), hroom]

/-! ## Sizes that do not fit

What is larger than half the address space is larger than every cache. It does not fit into an
object, nor into pages if they round up to nothing. -/

/-- The largest class is no larger than half the address space. -/
theorem classSize_le {i : ℕ} (hi : i < G.order) : classSize i ≤ 2 ^ 30 := by
  have hle := G.order_le
  have hpow : 2 ^ i ≤ 2 ^ 26 := Nat.pow_le_pow_right (by decide) (by omega)
  unfold classSize
  omega

/-- Some part lies outside what was obtained, or something else was released. -/
theorem not_mallocInside (h : SlabInv P G taken s live runs blocks fl) (hn : n < 2 ^ 32)
    (hfit : ¬Fits n) :
    ¬MallocInside P G s s' n p := by
  rintro ⟨hheader, hpayload, hmagic, hstop, -⟩
  unfold Fits at hfit
  have hround := roundSize_eq n
  have hreq : requestSize (roundSize n) = (roundSize n + 32) % 2 ^ 32 := by
    unfold requestSize wordAdd memTagBytes magicTagBytes
    omega
  rw [hheader, memTagBytes, magicTagBytes] at hmagic
  have hlow : roundSize n + 32 ≤ (roomFor P G s n).2 := by omega
  have hmax := G.cacheGenericMax_eq
  by_cases hc : G.getSuitableCache (requestSize (roundSize n)) = 0
  · -- the pages that were asked for are fewer
    have hsize : (roomFor P G s n).2 = btPageAlign (requestSize (roundSize n)) := if_pos hc
    rw [hsize, hreq, btPageAlign_eq] at hlow
    omega
  · obtain ⟨i, hi, hci, hle, -⟩ := SlabInv.class_of_ne (x := ⟨p, n⟩) hc
    have hc' : G.getSuitableCache (requestSize (roundSize n)) = G.cacheAt i := hci
    have hsize : (roomFor P G s n).2 = classSize i := by
      rw [roomFor_cached hc', h.caches.size i hi]
    have hclass := classSize_le hi
    have hle : requestSize (roundSize n) ≤ classSize i := hle
    omega

/-! ## The cache of 16 bytes

No size that fits uses this cache, because tag and magic number are larger than what would be
left. -/

/-- A new cache has its first object at the start of a page. -/
theorem initCache_free (hp : PagesExact P taken) (c : Cache) (size : ℕ) (st : Store σ) :
    (initCache P c size st).2.1.free % 4096 = 0 := by
  unfold initCache
  generalize hd : { c with objectSize := size, free := 0, allocated := 0 } = d
  have hfree : d.free = 0 := by rw [← hd]
  by_cases hz : (P.alloc (btPageAlign d.objectSize) st.env).1 = 0
  · have hno : (extendCache P d st).2.1 = d := by rw [extendCache, if_pos hz]
    rw [hno, hfree]
  · rw [extendCache_free hz, P.ram.physToVirt_mod]
    exact hp.aligned _ _

theorem initialiseSlabLoop_free (hp : PagesExact P taken) (fuel i a : ℕ) (s : Slab σ)
    (hs : (s.cache a).free % 4096 = 0) :
    ((initialiseSlabLoop P G fuel i s).cache a).free % 4096 = 0 := by
  induction fuel generalizing i s with
  | zero => exact hs
  | succ fuel ih =>
    unfold initialiseSlabLoop
    dsimp only
    split_ifs
    · exact hs
    · refine ih _ _ ?_
      by_cases ha : a = G.getSuitableCache i
      · rw [ha, Slab.setCache]
        dsimp only
        rw [Function.update_self]
        exact initCache_free hp _ _ _
      · rw [Slab.setCache]
        dsimp only
        rw [Function.update_of_ne ha]
        exact hs
    · exact hs

/-- A request of a size that fits is too large for an object of 16 bytes. -/
theorem Fits.cache_ne (hfit : Fits n) :
    G.getSuitableCache (requestSize (roundSize n)) ≠ G.cacheAt 0 := by
  intro hc
  obtain ⟨-, hreq, -⟩ := hfit.sizes
  obtain ⟨i, -, hci, hle, -⟩ := SlabInv.class_of_ne (x := ⟨0, n⟩) (by exact hc ▸ G.cacheAt_ne 0)
  have hi : G.cacheAt i = G.cacheAt 0 := hci.symm.trans hc
  rw [SlabConfig.cacheAt_inj hi] at hle
  have hle : requestSize (roundSize n) ≤ classSize 0 := hle
  rw [classSize] at hle
  omega

theorem takeMemory_other {a b : ℕ} (request : ℕ) (hab : b ≠ a) :
    (takeMemory P s a request).2.cache b = s.cache b := by
  unfold takeMemory
  dsimp only
  split_ifs
  · exact Function.update_of_ne hab ..
  · rfl
  · rfl

/-- The list of its free objects begins as it was set up. -/
theorem SlabReach.firstFree (law : PagesLaw P taken) (hp : PagesExact P taken)
    (hreach : SlabReach P G taken Fits s live runs) : (s.cache (G.cacheAt 0)).free % 4096 = 0 := by
  induction hreach with
  | @init s clear =>
    have hmax : cacheGenericMin ≤ G.cacheGenericMax := by
      have hpos := G.order_pos
      rw [G.cacheGenericMax_eq, cacheGenericMin, show 16 = 2 ^ 4 from rfl]
      exact Nat.pow_le_pow_right (by decide) (by omega)
    have hfirst : G.getSuitableCache cacheGenericMin = G.cacheAt 0 := if_pos le_rfl
    unfold btInitialiseSlab initialiseSlabLoop
    rw [if_pos hmax]
    dsimp only
    rw [hfirst, if_neg (G.cacheAt_ne 0)]
    refine initialiseSlabLoop_free hp _ _ _ _ ?_
    rw [Slab.setCache]
    dsimp only
    rw [Function.update_self]
    exact initCache_free hp _ _ _
  | @malloc s s' live runs n p _ ok run ih =>
    have hs' : s' = (slabMalloc P G s n).2 := by rw [run]
    by_cases hn : n = 0
    · rw [hs', slabMalloc, if_pos hn]
      exact ih
    · rw [hs', (slabMalloc_state hn).1, takeMemory_other _ ok.cache_ne.symm]
      exact ih
  | @free s s' live runs x reach own run ih =>
    obtain ⟨blocks, fl, hinv⟩ := reach.inv law
    rw [hinv.slabFree_eq own] at run
    rw [← Option.some.inj run]
    split_ifs
    · rw [Slab.setCache]
      dsimp only
      have hne : G.cacheAt 0 ≠ x.cache G := ((hinv.ok x own).fits.cache_ne (G := G)).symm
      rw [Function.update_of_ne hne]
      exact ih
    · exact ih
  | write _ _ ih => exact ih
  | pages _ _ ih => exact ih

/-! ## Every size

The cases are put together for one call in any state of a run. -/

/-- Where there is memory, a pointer is returned. -/
theorem slabMalloc_returns (law : PagesLaw P taken) (hp : PagesExact P taken)
    (hreach : SlabReach P G taken Fits s live runs) (hn : n ≠ 0) (hno : ¬SlabExhausted P G s n) :
    (slabMalloc P G s n).1 ≠ 0 := by
  obtain ⟨blocks, fl, hinv⟩ := hreach.inv law
  have htake := (takeMemory_counts law hp hinv hno).1
  rw [slabMalloc_fst hn htake]
  intro hz
  obtain ⟨i, hi, hci⟩ := takeMemory_wraps hp htake hz
  rw [hci, SlabInv.takeMemory_cached (G.cacheAt_ne i)] at htake hz
  dsimp only at htake hz
  have hbounds : (btCacheAlloc P (s.cache (G.cacheAt i)) s.store).1 + classSize i ≤ 2 ^ 32 := by
    obtain ⟨o, c, st, halloc⟩ : ∃ o c st, btCacheAlloc P (s.cache (G.cacheAt i)) s.store =
        (o, c, st) := ⟨_, _, _, rfl⟩
    obtain ⟨blocks', fl', hcs, -⟩ := hinv.caches.alloc law hi halloc
    rw [halloc] at htake ⊢
    rw [if_neg htake] at hcs
    have hbounds := (hcs.rep i hi).bounds (o := o)
      (List.mem_append_right _ (by rw [Function.update_self]; exact List.mem_cons_self))
    rw [hcs.size i hi] at hbounds
    exact hbounds.2
  unfold wordAdd memTagBytes at hz
  rcases Nat.eq_zero_or_pos i with rfl | hpos
  · -- the first object of 16 bytes is at the beginning of a page
    have hfree := hreach.firstFree law hp
    have haligned : (btCacheAlloc P (s.cache (G.cacheAt 0)) s.store).1 % 4096 = 0 := by
      unfold btCacheAlloc
      dsimp only
      rw [popFree_fst]
      by_cases h0 : (s.cache (G.cacheAt 0)).free = 0
      · rw [if_pos h0, popFree_fst]
        have hpop : (popFree (s.cache (G.cacheAt 0)) s.store.mem).2 = s.cache (G.cacheAt 0) := by
          rw [popFree, if_neg (not_not.mpr h0)]
        rw [hpop]
        by_cases hmore : (P.alloc (btPageAlign (s.cache (G.cacheAt 0)).objectSize) s.store.env).1 =
          0
        · rw [extendCache, if_pos hmore]
          exact hfree
        · rw [extendCache_free hmore, P.ram.physToVirt_mod]
          exact hp.aligned _ _
      · rw [if_neg h0]
        exact hfree
    omega
  · have hclass : 32 ≤ classSize i := by
      have hpow : 2 ^ 1 ≤ 2 ^ i := Nat.pow_le_pow_right (by decide) hpos
      unfold classSize
      omega
    omega

theorem slabMalloc_refused (hex : SlabExhausted P G s n) : (slabMalloc P G s n).1 = 0 := by
  by_contra hne
  obtain ⟨-, htake⟩ := slabMalloc_ne_zero hne
  refine htake ?_
  unfold SlabExhausted at hex
  dsimp only at hex
  by_cases ha : G.getSuitableCache (requestSize (roundSize n)) = 0
  · rw [if_neg (not_not.mpr ha)] at hex
    rw [ha, SlabInv.takeMemory_refused hex]
  · rw [if_pos ha] at hex
    rw [SlabInv.takeMemory_cached ha]
    have hpop : (popFree (s.cache (G.getSuitableCache (requestSize (roundSize n)))) s.store.mem).2 =
        s.cache (G.getSuitableCache (requestSize (roundSize n))) := by
      rw [popFree, if_neg (not_not.mpr hex.1)]
    unfold btCacheAlloc
    dsimp only
    rw [popFree_fst, if_pos hex.1, popFree_fst, hpop, extendCache, if_pos hex.2]
    exact hex.1

end

/-- In every state of a run of sizes that fit, a call returns nothing that is not inside what it
obtained, and can be given back, if and only if its size fits or there is no memory. -/
theorem slab_malloc_inside_iff (law : PagesLaw P taken) (hp : PagesExact P taken) {s : Slab σ}
    {live : List Alloc} {runs : List (ℕ × ℕ)} (hreach : SlabReach P G taken Fits s live runs)
    {n : ℕ} (hn : n < 2 ^ 32) :
    ((slabMalloc P G s n).1 ≠ 0 → MallocInside P G s (slabMalloc P G s n).2 n
    (slabMalloc P G s n).1) ↔
      Fits n ∨ SlabExhausted P G s n := by
  obtain ⟨blocks, fl, hinv⟩ := hreach.inv law
  constructor
  · intro hinside
    by_contra hbad
    obtain ⟨hfit, hno⟩ := not_or.mp hbad
    have hpos : n ≠ 0 := by
      rintro rfl
      exact hfit (by unfold Fits; decide)
    exact not_mallocInside hinv hn hfit (hinside (slabMalloc_returns law hp hreach hpos hno))
  · rintro (hfit | hex)
    · exact mallocInside_of_fits law hinv hfit
    · exact fun hne => absurd (slabMalloc_refused hex) hne

/-- The first call, for 20 bytes -/
theorem slab_malloc_inside_iff_twenty :
    ((slabMalloc bumpPages tenCaches (btInitialiseSlab bumpPages tenCaches clearSlab) 20).1 ≠ 0 →
      MallocInside bumpPages tenCaches (btInitialiseSlab bumpPages tenCaches clearSlab)
        (slabMalloc bumpPages tenCaches (btInitialiseSlab bumpPages tenCaches clearSlab) 20).2 20
        (slabMalloc bumpPages tenCaches (btInitialiseSlab bumpPages tenCaches clearSlab) 20).1) ↔
      Fits 20 ∨ SlabExhausted bumpPages tenCaches
      (btInitialiseSlab bumpPages tenCaches clearSlab) 20 :=
  slab_malloc_inside_iff bumpPages_law bumpPages_exact (.init fun _ _ => rfl) (by decide)

/-- The first call, for all but one of the bytes of the address space, returns an object of 32
bytes. -/
theorem slab_malloc_wraps :
    let s := btInitialiseSlab bumpPages tenCaches clearSlab
    let r := slabMalloc bumpPages tenCaches s (2 ^ 32 - 1)
    SlabReach bumpPages tenCaches belowNext (fun _ => True) s [] [] ∧ r.1 ≠ 0 ∧
      ¬MallocInside bumpPages tenCaches s r.2 (2 ^ 32 - 1) r.1 := by
  intro s r
  have hne : (slabMalloc bumpPages tenCaches (btInitialiseSlab bumpPages tenCaches clearSlab)
      (2 ^ 32 - 1)).1 ≠ 0 := by
    decide +kernel
  exact ⟨.init fun _ _ => rfl, hne, fun hinside => absurd hinside.payload (by decide)⟩

end BitThunder
