import BitThunder.Mm.CacheSpec

/-!
# Slab-backed kernel malloc, over whole runs

The default caches share the memory with each other and with the runs of pages that
`BT_kMalloc` takes for what does not fit into them. `SlabInv` says which object or run each
live allocation has, that its tag is in place, and that everything is apart; every
operation keeps it.

* `getSuitableCache_spec`: the cache is the smallest that is large enough;
* `slab_sound`: the invariant over runs in which no request wraps around when it is
  rounded up to pages.

The rooms of live allocations are what keeps everything apart. A room is the object that an
allocation has, or its run of pages; tag, payload and magic number lie in it, one after the other.
Rooms are apart, every room is in use as far as the page allocator is concerned, and a room with its
own pages meets no block of a cache. From this follows what an owner may write to without hitting a
tag, a magic number or a link of a free list.

An operation on one cache is lifted to all of them by `setCache`: the other caches have other
blocks, and what an operation may write to is its own blocks and pages that were not in use.
`BT_kFree` finds its way back through the tag, so that the invariant says of every live allocation
what its tag holds.
-/

namespace BitThunder

open Memory

variable {σ : Type} {P : Pages σ} {taken : σ → ℕ → Prop} {G : SlabConfig}

/-! ## Size classes

The class is found by counting leading zeros, and it is the smallest power of two that is large
enough. -/

theorem SlabConfig.cacheGenericMax_eq (G : SlabConfig) : G.cacheGenericMax = 2 ^ (G.order + 3) := by
  have := G.order_pos
  rw [cacheGenericMax, Nat.shiftLeft_eq, show G.order + 3 = 4 + (G.order - 1) by omega, pow_add]
  norm_num

theorem SlabConfig.cacheAt_ne (G : SlabConfig) (i : ℕ) : G.cacheAt i ≠ 0 := by
  have := G.table_pos
  unfold cacheAt
  omega

theorem SlabConfig.cacheAt_inj {i j : ℕ} (h : G.cacheAt i = G.cacheAt j) : i = j := by
  unfold cacheAt at h
  omega

/-- The bits below the highest one. -/
theorem land_below_highest {size L : ℕ} (hlo : 2 ^ L ≤ size) (hhi : size < 2 ^ (L + 1))
    (hL : L ≤ 31) :
    size &&& (0x80000000 >>> (31 - L)) - 1 ≠ 0 ↔ size ≠ 2 ^ L := by
  have hshift : 0x80000000 >>> (31 - L) = 2 ^ L := by
    rw [Nat.shiftRight_eq_div_pow, show (0x80000000 : ℕ) = 2 ^ 31 by norm_num,
      Nat.pow_div (by omega) (by decide), show 31 - (31 - L) = L by omega]
  rw [hshift, Nat.and_two_pow_sub_one_eq_mod]
  have hmod : size % 2 ^ L = size - 2 ^ L := by
    rw [Nat.mod_eq_sub_mod hlo, Nat.mod_eq_of_lt]
    rw [pow_succ] at hhi
    omega
  rw [hmod]
  omega

/-- `BT_GetSuitableCache` of what fits into the largest cache: the smallest cache that
is large enough. -/
theorem SlabConfig.getSuitableCache_of_le {size : ℕ} (h : size ≤ G.cacheGenericMax) :
    ∃ i < G.order, G.getSuitableCache size = G.cacheAt i ∧ size ≤ 16 * 2 ^ i ∧
      ∀ j < i, 16 * 2 ^ j < size := by
  unfold getSuitableCache
  by_cases hmin : size ≤ cacheGenericMin
  · rw [if_pos hmin]
    exact ⟨0, G.order_pos, rfl, by unfold cacheGenericMin at hmin; omega, nofun⟩
  · rw [if_neg hmin, if_neg (by omega)]
    unfold cacheGenericMin at hmin
    have hpos : size ≠ 0 := by omega
    have hlo := Nat.log2_self_le hpos
    have hhi := Nat.lt_log2_self (n := size)
    have hle := G.order_le
    rw [G.cacheGenericMax_eq] at h
    set L := Nat.log2 size with hLdef
    have hL4 : 4 ≤ L := by
      by_contra hlt
      have : 2 ^ (L + 1) ≤ 2 ^ 4 := Nat.pow_le_pow_right (by decide) (by omega)
      omega
    have hLmax : L ≤ G.order + 3 := by
      by_contra hgt
      have : 2 ^ (G.order + 3 + 1) ≤ 2 ^ L := Nat.pow_le_pow_right (by decide) (by omega)
      rw [pow_succ] at this
      have := Nat.two_pow_pos (G.order + 3)
      omega
    have h16 : ∀ j, 16 * 2 ^ j = 2 ^ (j + 4) := fun j => by rw [pow_add]; ring
    have hclz : btClz cacheGenericMin = 27 := by decide
    have hbits := land_below_highest hlo hhi (by omega)
    dsimp only
    rw [hclz]
    unfold btClz
    rw [← hLdef]
    by_cases hpow : size = 2 ^ L
    · rw [if_neg (by rw [hbits]; exact fun hne => hne hpow)]
      refine ⟨L - 4, by omega, ?_, ?_, fun j hj => ?_⟩
      · congr 1
        omega
      · rw [h16, show L - 4 + 4 = L by omega, hpow]
      · rw [h16, hpow]
        exact Nat.pow_lt_pow_right (by decide) (by omega)
    · rw [if_pos (hbits.mpr hpow)]
      have hlt : L < G.order + 3 := by
        rcases Nat.lt_or_ge L (G.order + 3) with h' | h'
        · exact h'
        · have he : L = G.order + 3 := by omega
          rw [he] at hlo hpow
          omega
      refine ⟨L - 3, by omega, ?_, ?_, fun j hj => ?_⟩
      · congr 1
        omega
      · rw [h16, show L - 3 + 4 = L + 1 by omega]
        omega
      · rw [h16]
        have : 2 ^ (j + 4) ≤ 2 ^ L := Nat.pow_le_pow_right (by decide) (by omega)
        omega

theorem SlabConfig.getSuitableCache_of_gt {size : ℕ} (h : G.cacheGenericMax < size) :
    G.getSuitableCache size = 0 := by
  have hmax := G.cacheGenericMax_eq
  have hpow : 2 ^ 4 ≤ 2 ^ (G.order + 3) :=
    Nat.pow_le_pow_right (by decide) (by have := G.order_pos; omega)
  unfold getSuitableCache cacheGenericMin
  rw [if_neg (by omega), if_pos h]

/-- The object size of a cache is that cache's own request. -/
theorem SlabConfig.getSuitableCache_objectSize {i : ℕ} (hi : i < G.order) :
    G.getSuitableCache (16 * 2 ^ i) = G.cacheAt i := by
  have hle : 16 * 2 ^ i ≤ G.cacheGenericMax := by
    rw [G.cacheGenericMax_eq, show G.order + 3 = 4 + (G.order - 1) by omega, pow_add]
    exact Nat.mul_le_mul_left _ (Nat.pow_le_pow_right (by decide) (by omega))
  obtain ⟨j, -, hj, hfit, hleast⟩ := G.getSuitableCache_of_le hle
  have hij : i ≤ j := by
    have := Nat.le_of_mul_le_mul_left hfit (by decide)
    exact (Nat.pow_le_pow_iff_right (by decide)).mp this
  rcases Nat.eq_or_lt_of_le hij with rfl | hlt
  · exact hj
  · exact absurd (hleast i hlt) (lt_irrefl _)

/-! ## Several caches in one memory

One cache changes at a time, and the blocks of all caches are apart. -/

theorem Slab.setCache_self (s : Slab σ) (a : ℕ) (c : Cache) (st : Store σ) :
    (s.setCache a c st).cache a = c := Function.update_self ..

theorem Slab.setCache_of_ne (s : Slab σ) {i j : ℕ} (h : j ≠ i) (c : Cache) (st : Store σ) :
    (s.setCache (G.cacheAt i) c st).cache (G.cacheAt j) = s.cache (G.cacheAt j) :=
  Function.update_of_ne (fun he => h (SlabConfig.cacheAt_inj he)) ..

/-- The object size of the default cache `i`. -/
def classSize (i : ℕ) : ℕ := 16 * 2 ^ i

/-- The address lies in a block of cache `i`. -/
def InBlocks (blocks : ℕ → List ℕ) (i x : ℕ) : Prop :=
  ∃ b ∈ blocks i, b ≤ x ∧ x < b + btPageAlign (classSize i)

/-- The first `k` default caches are in order, and their blocks are apart. `objs` are their
live objects. -/
structure CachesInv (G : SlabConfig) (taken : σ → ℕ → Prop) (k : ℕ) (s : Slab σ)
    (blocks fl objs : ℕ → List ℕ) : Prop where
  /-- a cache has the objects of its class -/
  size : ∀ i < k, (s.cache (G.cacheAt i)).objectSize = classSize i
  /-- it is in order -/
  rep : ∀ i < k, CacheRep (s.cache (G.cacheAt i)) s.store.mem (blocks i) (fl i) (objs i)
  /-- its blocks belong to the allocator -/
  taken : ∀ i < k, ∀ x, InBlocks blocks i x → taken s.store.env x
  /-- no byte is in the blocks of two caches -/
  apart : ∀ i < k, ∀ j < k, i ≠ j → ∀ x, InBlocks blocks i x → ¬ InBlocks blocks j x

namespace CachesInv

variable {k : ℕ} {s : Slab σ} {blocks fl objs : ℕ → List ℕ}

/-- Every byte of an object lies in the blocks of its cache. -/
theorem inBlocks (h : CachesInv G taken k s blocks fl objs) {i o x : ℕ} (hi : i < k)
    (ho : o ∈ fl i ++ objs i) (hlo : o ≤ x) (hhi : x < o + classSize i) : InBlocks blocks i x := by
  obtain ⟨b, hb, hbo, hob⟩ := (h.rep i hi).inside o ho
  rw [h.size i hi] at hob
  exact ⟨b, hb, by omega, by omega⟩

/-- The blocks as `BT_CacheAlloc` wants them. -/
theorem blocksTaken (h : CachesInv G taken k s blocks fl objs) {i : ℕ} (hi : i < k) :
    BlocksTaken taken (btPageAlign (s.cache (G.cacheAt i)).objectSize) (blocks i) s.store.env := by
  intro b hb x hlo hhi
  rw [h.size i hi] at hhi
  exact h.taken i hi x ⟨b, hb, hlo, hhi⟩

/-- Writes that spare the free objects. -/
theorem write (h : CachesInv G taken k s blocks fl objs) {m : Memory}
    (hm : ∀ i < k, ∀ o ∈ fl i, ∀ x, o ≤ x → x < o + 4 → m x = s.store.mem x) :
    CachesInv G taken k (s.setMem m) blocks fl objs where
  size := h.size
  rep i hi := (h.rep i hi).congr (hm i hi)
  taken := h.taken
  apart := h.apart

/-- Pages taken or given back by others. -/
theorem setEnv (h : CachesInv G taken k s blocks fl objs) {e : σ}
    (he : ∀ i < k, ∀ x, InBlocks blocks i x → taken e x) :
    CachesInv G taken k { s with store := { s.store with env := e } } blocks fl objs where
  size := h.size
  rep := h.rep
  taken := he
  apart := h.apart

/-- The live objects in another order. -/
theorem perm (h : CachesInv G taken k s blocks fl objs) {objs' : ℕ → List ℕ}
    (hp : ∀ i < k, (objs i).Perm (objs' i)) : CachesInv G taken k s blocks fl objs' where
  size := h.size
  rep i hi :=
    { h.rep i hi with
      inside := fun o ho => (h.rep i hi).inside o (((hp i hi).append_left _).mem_iff.mpr ho)
      apart := CacheRep.apart_of_perm (h.rep i hi).apart ((hp i hi).append_left _)
      allocated := (h.rep i hi).allocated.trans (hp i hi).length_eq }
  taken := h.taken
  apart := h.apart

/-- An operation on cache `i` that may have extended it. The other caches are not
affected, wherever in the list of caches `i` comes: the caches before it, and itself. -/
theorem setCache (h : CachesInv G taken k s blocks fl objs) {i k' : ℕ}
    (hsub : ∀ j < k', j ≠ i → j < k) {c : Cache} {st : Store σ}
    {new fl' objs' : List ℕ} {old : List ℕ} (hold : i < k → old = blocks i)
    (hnone : ¬ i < k → old = []) (hsize : c.objectSize = classSize i)
    (hrep : CacheRep c st.mem (new ++ old) fl' objs')
    (hkeep : ∀ x, taken s.store.env x → taken st.env x)
    (hfresh : ∀ b ∈ new, ∀ x, b ≤ x → x < b + btPageAlign (classSize i) → ¬ taken s.store.env x)
    (htake : BlocksTaken taken (btPageAlign (classSize i)) new st.env)
    (hmem : ∀ j < k, j ≠ i → ∀ x, InBlocks blocks j x → st.mem x = s.store.mem x) :
    CachesInv G taken k' (s.setCache (G.cacheAt i) c st) (Function.update blocks i (new ++ old))
      (Function.update fl i fl') (Function.update objs i objs') := by
  -- where an address of the blocks can come from
  have hin : ∀ j x, InBlocks (Function.update blocks i (new ++ old)) j x →
      j ≠ i ∧ InBlocks blocks j x ∨ j = i ∧ (i < k ∧ InBlocks blocks i x ∨
        ∃ b ∈ new, b ≤ x ∧ x < b + btPageAlign (classSize i)) := by
    rintro j x ⟨b, hb, hbx⟩
    by_cases hj : j = i
    · subst hj
      rw [Function.update_self] at hb
      rcases List.mem_append.mp hb with hb | hb
      · exact .inr ⟨rfl, .inr ⟨b, hb, hbx⟩⟩
      · by_cases hjk : j < k
        · rw [hold hjk] at hb
          exact .inr ⟨rfl, .inl ⟨hjk, b, hb, hbx⟩⟩
        · rw [hnone hjk] at hb
          exact absurd hb List.not_mem_nil
    · rw [Function.update_of_ne hj] at hb
      exact .inl ⟨hj, b, hb, hbx⟩
  have hcross : ∀ j < k, j ≠ i → ∀ x, InBlocks blocks j x →
      ¬ InBlocks (Function.update blocks i (new ++ old)) i x := by
    intro j hj hji x hx hx'
    rcases hin i x hx' with ⟨hne, -⟩ | ⟨-, ⟨hi, hx''⟩ | ⟨b, hb, hlo, hhi⟩⟩
    · exact hne rfl
    · exact h.apart j hj i hi hji x hx hx''
    · exact hfresh b hb x hlo hhi (h.taken j hj x hx)
  constructor
  · intro j hj
    by_cases hji : j = i
    · subst hji
      rw [Slab.setCache_self]
      exact hsize
    · rw [Slab.setCache_of_ne s hji]
      exact h.size j (hsub j hj hji)
  · intro j hj
    by_cases hji : j = i
    · subst hji
      rw [Slab.setCache_self, Function.update_self, Function.update_self, Function.update_self]
      exact hrep
    · have hjk := hsub j hj hji
      rw [Slab.setCache_of_ne s hji, Function.update_of_ne hji, Function.update_of_ne hji,
        Function.update_of_ne hji]
      refine (h.rep j hjk).congr fun o ho x hlo hhi => hmem j hjk hji x ?_
      have hge := (h.rep j hjk).size_ge
      rw [h.size j hjk] at hge
      exact h.inBlocks hjk (List.mem_append_left _ ho) hlo (by omega)
  · intro j hj x hx
    rcases hin j x hx with ⟨hne, hx'⟩ | ⟨-, ⟨hi, hx'⟩ | ⟨b, hb, hlo, hhi⟩⟩
    · exact hkeep x (h.taken j (hsub j hj hne) x hx')
    · exact hkeep x (h.taken i hi x hx')
    · exact htake b hb x hlo hhi
  · intro j hj j' hj' hne x hx hx'
    by_cases hji : j = i
    · subst hji
      rcases hin j' x hx' with ⟨hj'i, hx''⟩ | ⟨he, -⟩
      · exact hcross j' (hsub j' hj' hj'i) hj'i x hx'' hx
      · exact hne he.symm
    · rcases hin j x hx with ⟨-, hx''⟩ | ⟨he, -⟩
      · by_cases hj'i : j' = i
        · subst hj'i
          exact hcross j (hsub j hj hji) hji x hx'' hx'
        · rcases hin j' x hx' with ⟨-, hx₃⟩ | ⟨he, -⟩
          · exact h.apart j (hsub j hj hji) j' (hsub j' hj' hj'i) hne x hx'' hx₃
          · exact hj'i he
      · exact hji he

/-- What was taken is not written to by an operation that may extend a cache. -/
theorem mem_of_taken {len : ℕ} {new : List ℕ} {st : Store σ}
    (h : Extends taken len new s.store st) {x : ℕ} (hx : taken s.store.env x) :
    st.mem x = s.store.mem x := by
  refine h.frame x fun b hb => ?_
  by_contra hin
  exact h.fresh b hb x (by omega) (by omega) hx

/-- `BT_CacheAlloc` on one of the caches. -/
theorem alloc (law : PagesLaw P taken) (h : CachesInv G taken k s blocks fl objs) {i : ℕ}
    (hi : i < k) {o : ℕ} {c : Cache} {st : Store σ}
    (run : btCacheAlloc P (s.cache (G.cacheAt i)) s.store = (o, c, st)) :
    ∃ blocks' fl', CachesInv G taken k (s.setCache (G.cacheAt i) c st) blocks' fl'
        (Function.update objs i (if o = 0 then objs i else o :: objs i)) ∧
      (∀ x, taken s.store.env x → taken st.env x ∧ st.mem x = s.store.mem x) ∧
      ∀ j < k, ∀ x, InBlocks blocks' j x → taken s.store.env x → InBlocks blocks j x := by
  obtain ⟨fl', hrep, hsize, hext⟩ := btCacheAlloc_spec law (h.rep i hi) (h.blocksTaken hi)
  rw [run] at hrep hsize hext
  rw [h.size i hi] at hsize hext
  refine ⟨_, _, h.setCache (fun j hj _ => hj) (fun _ => rfl) (fun hno => absurd hi hno) hsize hrep
    hext.keep hext.fresh hext.take fun j hj _ x hx => mem_of_taken hext (h.taken j hj x hx),
    fun x hx => ⟨hext.keep x hx, mem_of_taken hext hx⟩, ?_⟩
  rintro j hj x ⟨b, hb, hlo, hhi⟩ hx
  by_cases hji : j = i
  · subst hji
    rw [Function.update_self] at hb
    rcases List.mem_append.mp hb with hb | hb
    · exact absurd hx (hext.fresh b hb x hlo hhi)
    · exact ⟨b, hb, hlo, hhi⟩
  · rw [Function.update_of_ne hji] at hb
    exact ⟨b, hb, hlo, hhi⟩

/-- `BT_CacheFree` on one of the caches. -/
theorem free (h : CachesInv G taken k s blocks fl objs) {i o : ℕ} (hi : i < k) (ho : o ∈ objs i) :
    CachesInv G taken k
    (s.setCache (G.cacheAt i) (btCacheFree (s.cache (G.cacheAt i)) s.store o).2.1
        (btCacheFree (s.cache (G.cacheAt i)) s.store o).2.2) blocks
      (Function.update fl i (o :: fl i)) (Function.update objs i ((objs i).erase o)) := by
  obtain ⟨hsize, hrep, hframe⟩ := (h.rep i hi).pushFree ho
  have hge := (h.rep i hi).size_ge
  rw [h.size i hi] at hsize hge
  have hset : CachesInv G taken k
      (s.setCache (G.cacheAt i) (pushFree (s.cache (G.cacheAt i)) s.store.mem o).1
      ⟨(pushFree (s.cache (G.cacheAt i)) s.store.mem o).2, s.store.env⟩)
        (Function.update blocks i ([] ++ blocks i))
      (Function.update fl i (o :: fl i)) (Function.update objs i ((objs i).erase o)) := h.setCache
    (fun j hj _ => hj) (fun _ => rfl) (fun hno => absurd hi hno) hsize hrep
      (fun _ hx => hx) nofun nofun
    fun j hj hji x hx => hframe x ?_
  · rw [List.nil_append, Function.update_eq_self] at hset
    exact hset
  · -- the other caches' blocks are elsewhere
    by_contra hin
    exact h.apart j hj i hi hji x hx
      (h.inBlocks hi (List.mem_append_right _ ho) (by omega) (by omega))

/-- `init_cache` on the next one. -/
theorem init (law : PagesLaw P taken) (h : CachesInv G taken k s blocks fl objs) (hk : k < G.order)
    (hzero : (s.cache (G.cacheAt k)).available = 0) :
    ∃ blocks' fl', CachesInv G taken (k + 1)
      (s.setCache (G.cacheAt k) (initCache P (s.cache (G.cacheAt k)) (classSize k) s.store).2.1
        (initCache P (s.cache (G.cacheAt k)) (classSize k) s.store).2.2) blocks' fl'
      (Function.update objs k []) := by
  have hpow : 2 ^ k ≤ 2 ^ 26 := Nat.pow_le_pow_right (by decide) (by have := G.order_le; omega)
  have hpos := Nat.two_pow_pos k
  have h₀ : CacheRep { s.cache (G.cacheAt k) with
      objectSize := classSize k, free := 0, allocated := 0 }
      s.store.mem [] [] [] :=
    ⟨by unfold classSize; dsimp only; omega, by unfold classSize; dsimp only; omega,
      rfl, nofun, nofun, .nil, rfl, hzero⟩
  obtain ⟨new, hrep, -, -, hsize, hext⟩ := extendCache_spec law h₀ nofun
  refine ⟨_, _, h.setCache (fun j hj hji => by omega) (fun hlt => absurd hlt (lt_irrefl _))
    (fun _ => rfl) hsize hrep hext.keep hext.fresh hext.take fun j hj _ x hx => ?_⟩
  exact mem_of_taken hext (h.taken j hj x hx)

end CachesInv

/-- `bt_initialise_slab` sets all default caches up. -/
theorem initialiseSlabLoop_spec (law : PagesLaw P taken) (fuel : ℕ) {k : ℕ} {s : Slab σ}
    {blocks fl objs : ℕ → List ℕ} (h : CachesInv G taken k s blocks fl objs) (hk : k ≤ G.order)
    (hfuel : G.order < fuel + k) (hobjs : ∀ i < k, objs i = [])
    (hzero : ∀ i < G.order, k ≤ i → (s.cache (G.cacheAt i)).available = 0) :
    ∃ blocks' fl', CachesInv G taken G.order
    (initialiseSlabLoop P G fuel (classSize k) s) blocks' fl'
      fun _ => [] := by
  have hle := G.order_le
  induction fuel generalizing k s blocks fl objs with
  | zero => omega
  | succ fuel ih =>
    have h16 : classSize k = 2 ^ (k + 4) := by
      rw [classSize, pow_add]
      ring
    rw [initialiseSlabLoop]
    by_cases hlast : k = G.order
    · -- past the last cache: the loop ends
      subst hlast
      have hgt : ¬ classSize G.order ≤ G.cacheGenericMax := by
        rw [h16, G.cacheGenericMax_eq]
        exact Nat.not_le.mpr (Nat.pow_lt_pow_right (by decide) (by omega))
      rw [if_neg hgt]
      exact ⟨blocks, fl, h.perm fun i hi => by rw [hobjs i hi]⟩
    · have hlt : k < G.order := by omega
      have hmax : classSize k ≤ G.cacheGenericMax := by
        rw [h16, G.cacheGenericMax_eq]
        exact Nat.pow_le_pow_right (by decide) (by omega)
      have hcache : G.getSuitableCache (classSize k) = G.cacheAt k :=
        SlabConfig.getSuitableCache_objectSize hlt
      have hnext : classSize k <<< 1 % 2 ^ 32 = classSize (k + 1) := by
        have hsmall : 2 ^ (k + 1 + 4) < 2 ^ 32 := Nat.pow_lt_pow_right (by decide) (by omega)
        rw [Nat.shiftLeft_eq, h16, ← pow_succ, show k + 4 + 1 = k + 1 + 4 by omega,
          Nat.mod_eq_of_lt hsmall, classSize, pow_add]
        ring
      rw [if_pos hmax]
      dsimp only
      rw [hcache, if_neg (G.cacheAt_ne k), hnext]
      obtain ⟨blocks', fl', h'⟩ := h.init law hlt (hzero k hlt (le_refl _))
      refine ih h' (by omega) (by omega) (fun i hi => ?_) fun i hi hki => ?_
      · by_cases hik : i = k
        · rw [hik, Function.update_self]
        · rw [Function.update_of_ne hik]
          exact hobjs i (by omega)
      · rw [Slab.setCache_of_ne s (by omega)]
        exact hzero i hi (by omega)

/-! ## Tags

A tag is right if it holds the two magic numbers and the cache or the pages of its allocation. It
stays right under writes elsewhere. -/

/-- The tag in front of a payload at `o + 24` and the magic number behind it. -/
structure TagOk (m : Memory) (o a n : ℕ) : Prop where
  /-- the header has the magic numbers in front -/
  front₀ : m.load o = magic₀
  front₁ : m.load (o + 4) = magic₁
  /-- the cache, or none -/
  cache : m.load (o + 8) = a
  /-- the size -/
  size : m.load (o + 12) = n
  /-- the magic numbers again -/
  back₀ : m.load (o + 16) = magic₀
  back₁ : m.load (o + 20) = magic₁
  /-- and these are behind the payload as well -/
  post₀ : m.load (o + 24 + n) = magic₀
  post₁ : m.load (o + 24 + n + 4) = magic₁

section Tags

variable {m m' : Memory} {o a n : ℕ}

/-- A tag is intact as long as nobody writes to it. -/
theorem TagOk.congr (h : TagOk m o a n)
    (hm : ∀ x, o ≤ x → x < o + 24 ∨ o + 24 + n ≤ x → x < o + n + 32 → m' x = m x) :
    TagOk m' o a n where
  front₀ := (load_congr fun x _ _ => hm x (by omega) (by omega) (by omega)).trans h.front₀
  front₁ := (load_congr fun x _ _ => hm x (by omega) (by omega) (by omega)).trans h.front₁
  cache := (load_congr fun x _ _ => hm x (by omega) (by omega) (by omega)).trans h.cache
  size := (load_congr fun x _ _ => hm x (by omega) (by omega) (by omega)).trans h.size
  back₀ := (load_congr fun x _ _ => hm x (by omega) (by omega) (by omega)).trans h.back₀
  back₁ := (load_congr fun x _ _ => hm x (by omega) (by omega) (by omega)).trans h.back₁
  post₀ := (load_congr fun x _ _ => hm x (by omega) (by omega) (by omega)).trans h.post₀
  post₁ := (load_congr fun x _ _ => hm x (by omega) (by omega) (by omega)).trans h.post₁

/-- The words `BT_kMalloc` writes, without wrap-around. -/
theorem writeTag_eq (hend : o + n + 32 ≤ 2 ^ 32) : writeTag m o a n =
    (((((((m.store (o + 8) a).store (o + 12) n).store o magic₀).store (o + 4) magic₁).store
      (o + 16) magic₀).store (o + 20) magic₁).store (o + 24 + n) magic₀).store (o + 24 + n + 4)
        magic₁ := by
  have h (d : ℕ) (hd : d < n + 32) : wordAdd o d = o + d := wordAdd_of_lt (by omega)
  have h' (d : ℕ) (hd : d < n + 32) (e : ℕ) (he : d + e < n + 32) : wordAdd (o + d) e = o + d + e :=
    wordAdd_of_lt (by omega)
  unfold writeTag setMagic memTagBytes
  dsimp only
  rw [h 8 (by omega), h 12 (by omega), h 4 (by omega), h 16 (by omega), h 24 (by omega),
    h' 16 (by omega) 4 (by omega), h' 24 (by omega) n (by omega), Nat.add_assoc o 24 n,
    h' (24 + n) (by omega) 4 (by omega)]

theorem writeTag_spec (ha : a < 2 ^ 32) (hend : o + n + 32 ≤ 2 ^ 32) :
    TagOk (writeTag m o a n) o a n := by
  have h₀ : magic₀ < 2 ^ 32 := by decide
  have h₁ : magic₁ < 2 ^ 32 := by decide
  rw [writeTag_eq hend]
  constructor <;> simp (disch := omega) only [load_store_of_out, load_store]

/-- Only the tag and the magic number are written. -/
theorem writeTag_of_out (hend : o + n + 32 ≤ 2 ^ 32) {x : ℕ}
    (hx : x < o ∨ o + 24 ≤ x ∧ x < o + 24 + n ∨ o + n + 32 ≤ x) : writeTag m o a n x = m x := by
  rw [writeTag_eq hend]
  simp (disch := omega) only [store_of_out]

/-- The test of `BT_kFree` passes. -/
theorem TagOk.verify (h : TagOk m o a n) (hend : o + n + 32 ≤ 2 ^ 32) :
    (verifyTag m o && verifyTag m (wordAdd o 16) && verifyTag m (wordAdd (o + 24) n)) = true := by
  have h₁ : wordAdd o 16 = o + 16 := wordAdd_of_lt (by omega)
  have h₂ : wordAdd o 4 = o + 4 := wordAdd_of_lt (by omega)
  have h₃ : wordAdd (o + 16) 4 = o + 20 := wordAdd_of_lt (by omega)
  have h₄ : wordAdd (o + 24) n = o + 24 + n := wordAdd_of_lt (by omega)
  have h₅ : wordAdd (o + 24 + n) 4 = o + 24 + n + 4 := wordAdd_of_lt (by omega)
  unfold verifyTag
  rw [h₁, h₂, h₃, h₄, h₅, h.front₀, h.front₁, h.back₀, h.back₁, h.post₀, h.post₁]
  decide

end Tags

/-! ## Allocations

An allocation is an address with the size that was asked for. Where its room begins and how long it
is follows from these. -/

/-- The request does not wrap around, also when it is rounded up to pages. -/
def Fits (n : ℕ) : Prop := (n + 3) / 4 * 4 + 32 + 4095 < 2 ^ 32

theorem roundSize_eq (n : ℕ) : roundSize n = (n + 3) % 2 ^ 32 / 4 * 4 := by
  have h := land_highMask (w := 32) (k := 2) (by decide) ((n + 3) % 2 ^ 32)
  rw [Nat.mod_mod] at h
  exact h

/-- For these sizes nothing wraps when the tag is added and the pages are counted. -/
theorem Fits.sizes {n : ℕ} (h : Fits n) : n ≤ roundSize n ∧
    requestSize (roundSize n) = roundSize n + 32 ∧ roundSize n + 32 + 4095 < 2 ^ 32 := by
  unfold Fits at h
  rw [roundSize_eq]
  unfold requestSize wordAdd memTagBytes magicTagBytes
  omega

/-- A live allocation: the address and the size its owner knows. -/
structure Alloc : Type where
  ptr : ℕ
  asked : ℕ
  deriving DecidableEq

namespace Alloc

variable (x : Alloc)

/-- The size the allocator makes of it. -/
def size : ℕ := roundSize x.asked

/-- The size with the tags. -/
def request : ℕ := requestSize x.size

/-- Where the tag is. -/
def start : ℕ := x.ptr - 24

/-- The cache it belongs to, or `0`. -/
def cache (G : SlabConfig) : ℕ := G.getSuitableCache x.request

/-- What is its own: tag, payload and magic number, and the rest of its pages. -/
def room (G : SlabConfig) : Extent :=
  (x.start, if x.cache G = 0 then btPageAlign x.request else x.request)

/-- The bytes its owner may write to. -/
def payload : Extent := (x.ptr, x.asked)

/-- The tag. -/
def tag : Extent := (x.start, 24)

/-- The magic number behind the payload, where it is written. -/
def post : Extent := (wordAdd x.ptr x.size, 8)

/-- It is what a call with a size that fits returned. -/
structure Ok : Prop where
  /-- the pointer is behind the header -/
  ptr_eq : x.ptr = x.start + 24
  /-- the request did not wrap -/
  fits : Fits x.asked
  /-- the block ends within the address space -/
  stop : x.start + x.request ≤ 2 ^ 32

variable {x}

theorem Ok.sizes (h : x.Ok) : x.asked ≤ x.size ∧ x.request = x.size + 32 ∧
    x.request + 4095 < 2 ^ 32 := by
  obtain ⟨h₁, h₂, h₃⟩ := h.fits.sizes
  have h₂' : x.request = x.size + 32 := h₂
  refine ⟨h₁, h₂', ?_⟩
  rw [h₂']
  exact h₃

theorem Ok.request_le (h : x.Ok) : x.request ≤ btPageAlign x.request :=
  (btPageAlign_of_lt h.sizes.2.2).2.1

/-- The room is at least what was asked for with the tags. -/
theorem Ok.holds_room (h : x.Ok) {y : ℕ} (hlo : x.start ≤ y) (hhi : y < x.start + x.request) :
    (x.room G).Holds y := by
  have := h.request_le
  refine ⟨hlo, ?_⟩
  unfold room
  dsimp only
  split <;> omega

end Alloc

/-- The live objects of cache `i`. -/
def objsOf (G : SlabConfig) (live : List Alloc) (i : ℕ) : List ℕ :=
  (live.filter fun x => x.cache G = G.cacheAt i).map Alloc.start

/-- The allocations that have pages of their own. -/
def pagedOf (G : SlabConfig) (live : List Alloc) : List Alloc := live.filter fun x => x.cache G = 0

/-- What was handed out by a class is one of the class's objects. -/
theorem mem_objsOf {live : List Alloc} {x : Alloc} {i : ℕ} (hx : x ∈ live)
    (hc : x.cache G = G.cacheAt i) : x.start ∈ objsOf G live i :=
  List.mem_map.mpr ⟨x, List.mem_filter.mpr ⟨hx, by simpa using hc⟩, rfl⟩

/-- What holds of the slab allocator in every state. `runs` are the runs of pages, by
physical address and size, that were taken outside the caches and not given back. -/
structure SlabInv (P : Pages σ) (G : SlabConfig) (taken : σ → ℕ → Prop) (s : Slab σ)
    (live : List Alloc) (runs : List (ℕ × ℕ)) (blocks fl : ℕ → List ℕ) : Prop where
  /-- the caches are in order, with the live objects -/
  caches : CachesInv G taken G.order s blocks fl (objsOf G live)
  /-- each allocation is one -/
  ok : ∀ x ∈ live, x.Ok
  /-- with its header and its magic numbers -/
  tag : ∀ x ∈ live, TagOk s.store.mem x.start (x.cache G) x.size
  /-- one that has no cache has pages of its own, in no block of a cache -/
  pages : ∀ x ∈ live, x.cache G = 0 → ∀ y, (x.room G).Holds y →
    taken s.store.env y ∧ ∀ i < G.order, ¬ InBlocks blocks i y
  /-- allocations have no byte in common -/
  apart : live.Pairwise fun x y => (x.room G).Apart (y.room G)
  /-- the runs of pages are those of the allocations without a cache -/
  runs : runs.Perm ((pagedOf G live).map fun x => (P.ram.virtToPhys x.start, x.request))

namespace SlabInv

variable {s : Slab σ} {live : List Alloc} {runs : List (ℕ × ℕ)} {blocks fl : ℕ → List ℕ}

/-- The cache of an allocation that has no pages of its own. -/
theorem class_of_ne {x : Alloc} (hx : x.cache G ≠ 0) : ∃ i < G.order, x.cache G = G.cacheAt i ∧
    x.request ≤ classSize i ∧ ∀ j < i, classSize j < x.request := by
  by_cases hle : x.request ≤ G.cacheGenericMax
  · exact SlabConfig.getSuitableCache_of_le hle
  · exact absurd (SlabConfig.getSuitableCache_of_gt (by omega)) hx

/-- The room of an allocation from cache `i` is in its blocks. -/
theorem room_inBlocks (h : SlabInv P G taken s live runs blocks fl) {x : Alloc} (hx : x ∈ live)
    {i y : ℕ} (hi : i < G.order) (hc : x.cache G = G.cacheAt i) (hle : x.request ≤ classSize i)
    (hy : (x.room G).Holds y) : InBlocks blocks i y := by
  obtain ⟨hlo, hhi⟩ := hy
  have hne : x.cache G ≠ 0 := by
    rw [hc]
    exact G.cacheAt_ne i
  unfold Alloc.room at hlo hhi
  rw [if_neg hne] at hhi
  exact h.caches.inBlocks hi (List.mem_append_right _ (mem_objsOf hx hc)) hlo
    (by dsimp only at hhi; omega)

/-- The room of an allocation is in use. -/
theorem room_taken (h : SlabInv P G taken s live runs blocks fl) {x : Alloc} (hx : x ∈ live) {y : ℕ}
    (hy : (x.room G).Holds y) : taken s.store.env y := by
  by_cases hc : x.cache G = 0
  · exact (h.pages x hx hc y hy).1
  · obtain ⟨i, hi, hci, hle, -⟩ := class_of_ne hc
    exact h.caches.taken i hi y (h.room_inBlocks hx hi hci hle hy)

/-- Tags do not change if memory that is in use does not. -/
theorem tag_of_taken (h : SlabInv P G taken s live runs blocks fl) {m : Memory}
    (hm : ∀ y, taken s.store.env y → m y = s.store.mem y) {x : Alloc} (hx : x ∈ live) :
    TagOk m x.start (x.cache G) x.size := by
  have hok := h.ok x hx
  have hreq := hok.sizes.2.1
  refine (h.tag x hx).congr fun y hlo _ hhi => hm y (h.room_taken hx (hok.holds_room hlo ?_))
  omega

/-- A step that gives nothing out: memory in use is not written to and stays in use, and
caches are only extended by fresh blocks. -/
theorem keep (h : SlabInv P G taken s live runs blocks fl) {s' : Slab σ} {blocks' fl' : ℕ → List ℕ}
    (hc : CachesInv G taken G.order s' blocks' fl' (objsOf G live))
    (hkeep : ∀ y, taken s.store.env y → taken s'.store.env y ∧ s'.store.mem y = s.store.mem y)
    (hblocks : ∀ i < G.order, ∀ y, InBlocks blocks' i y → taken s.store.env y →
      InBlocks blocks i y) :
    SlabInv P G taken s' live runs blocks' fl' where
  caches := hc
  ok := h.ok
  tag x hx := h.tag_of_taken (fun y hy => (hkeep y hy).2) hx
  pages x hx hc y hy := by
    obtain ⟨ht, hno⟩ := h.pages x hx hc y hy
    exact ⟨(hkeep y ht).1, fun i hi hin => hno i hi (hblocks i hi y hin ht)⟩
  apart := h.apart
  runs := h.runs

/-- A new allocation: in the state `s₁` its room has been found, and the tag is written. -/
theorem add (h : SlabInv P G taken s live runs blocks fl) (s₁ : Slab σ) (blocks' fl' : ℕ → List ℕ)
    (runs' : List (ℕ × ℕ)) {x : Alloc} (hx : x.Ok)
    (hc : CachesInv G taken G.order s₁ blocks' fl' (objsOf G (x :: live)))
    (hkeep : ∀ y, taken s.store.env y → taken s₁.store.env y ∧ s₁.store.mem y = s.store.mem y)
    (hblocks : ∀ i < G.order, ∀ y, InBlocks blocks' i y → taken s.store.env y → InBlocks blocks i y)
    (hnew : ∀ y ∈ live, (x.room G).Apart (y.room G))
    (hfree : ∀ i < G.order, ∀ o ∈ fl' i, ∀ z, o ≤ z → z < o + 4 → ¬ (x.room G).Holds z)
    (hpage : x.cache G = 0 → ∀ y, (x.room G).Holds y →
      taken s₁.store.env y ∧ ∀ i < G.order, ¬ InBlocks blocks' i y)
    (hruns : runs'.Perm ((pagedOf G (x :: live)).map fun x => (P.ram.virtToPhys x.start,
      x.request))) :
    SlabInv P G taken (s₁.setMem (writeTag s₁.store.mem x.start (x.cache G) x.size)) (x :: live)
      runs' blocks' fl' := by
  have hreq := hx.sizes.2.1
  have hstop := hx.stop
  have hend : x.start + x.size + 32 ≤ 2 ^ 32 := by omega
  -- nothing outside the room is written
  have hout : ∀ z, ¬ (x.room G).Holds z →
      writeTag s₁.store.mem x.start (x.cache G) x.size z = s₁.store.mem z := by
    intro z hz
    refine writeTag_of_out hend ?_
    by_contra hin
    exact hz (hx.holds_room (by omega) (by omega))
  constructor
  · exact hc.write fun i hi o ho z hlo hhi => hout z (hfree i hi o ho z hlo hhi)
  · exact List.forall_mem_cons.mpr ⟨hx, h.ok⟩
  · refine List.forall_mem_cons.mpr ⟨writeTag_spec ?_ hend, fun y hy => ?_⟩
    · by_cases h0 : x.cache G = 0
      · rw [h0]
        decide
      · obtain ⟨i, hi, hci, -⟩ := class_of_ne h0
        have := G.table_end
        rw [hci, SlabConfig.cacheAt]
        omega
    · have hy' := h.ok y hy
      have hyreq := hy'.sizes.2.1
      refine (h.tag_of_taken (fun z hz => (hkeep z hz).2) hy).congr fun z hlo _ hhi => hout z ?_
      intro hz
      exact hnew y hy z ⟨hz, hy'.holds_room hlo (by omega)⟩
  · refine List.forall_mem_cons.mpr ⟨hpage, fun y hy h0 z hz => ?_⟩
    obtain ⟨ht, hno⟩ := h.pages y hy h0 z hz
    exact ⟨(hkeep z ht).1, fun i hi hin => hno i hi (hblocks i hi z hin ht)⟩
  · exact List.pairwise_cons.mpr ⟨hnew, h.apart⟩
  · exact hruns

end SlabInv

/-! ## `BT_kMalloc`

The two ways to obtain memory are treated apart, and each gives the invariant with one more
allocation. -/

/-- The run of pages a call of `BT_kMalloc` took outside the caches, if any. -/
def tookRun (P : Pages σ) (G : SlabConfig) (s : Slab σ) (n p : ℕ) : List (ℕ × ℕ) :=
  if p ≠ 0 ∧ G.getSuitableCache (requestSize (roundSize n)) = 0 then
    [((P.alloc (requestSize (roundSize n)) s.store.env).1, requestSize (roundSize n))]
  else []

namespace SlabInv

variable {s : Slab σ} {live : List Alloc} {runs : List (ℕ × ℕ)} {blocks fl : ℕ → List ℕ}

/-- An allocation from a class adds to its objects. -/
theorem objsOf_cons_self {x : Alloc} {i : ℕ} (hc : x.cache G = G.cacheAt i) :
    objsOf G (x :: live) i = x.start :: objsOf G live i := by
  rw [objsOf, List.filter_cons_of_pos (by simpa using hc), List.map_cons]
  rfl

theorem objsOf_cons_of_ne (live : List Alloc) {x : Alloc} {i : ℕ} (hc : x.cache G ≠ G.cacheAt i) :
    objsOf G (x :: live) i = objsOf G live i := by
  rw [objsOf, List.filter_cons_of_neg (by simpa using hc)]
  rfl

/-- An allocation with its own pages adds to those. -/
theorem pagedOf_cons_self {x : Alloc} (hc : x.cache G = 0) :
    pagedOf G (x :: live) = x :: pagedOf G live := by
  rw [pagedOf, List.filter_cons_of_pos (by simpa using hc)]
  rfl

theorem pagedOf_cons_of_ne (live : List Alloc) {x : Alloc} (hc : x.cache G ≠ 0) :
    pagedOf G (x :: live) = pagedOf G live := by
  rw [pagedOf, List.filter_cons_of_neg (by simpa using hc)]
  rfl

theorem takeMemory_cached {a : ℕ} (ha : a ≠ 0) (request : ℕ) : takeMemory P s a request =
    ((btCacheAlloc P (s.cache a) s.store).1,
      s.setCache a (btCacheAlloc P (s.cache a) s.store).2.1
        (btCacheAlloc P (s.cache a) s.store).2.2) := by
  rw [takeMemory, if_pos ha]

theorem takeMemory_refused {request : ℕ} (hz : (P.alloc request s.store.env).1 = 0) :
    takeMemory P s 0 request =
      (0, { s with store := { s.store with env := (P.alloc request s.store.env).2 } }) := by
  unfold takeMemory
  rw [if_neg (not_not.mpr rfl)]
  dsimp only
  rw [if_pos hz]

theorem takeMemory_paged {request : ℕ} (hz : (P.alloc request s.store.env).1 ≠ 0) :
    takeMemory P s 0 request = (P.ram.physToVirt (P.alloc request s.store.env).1,
      { s with store := { s.store with env := (P.alloc request s.store.env).2 } }) := by
  unfold takeMemory
  rw [if_neg (not_not.mpr rfl)]
  dsimp only
  rw [if_neg hz]

/-- `BT_kMalloc` out of cache `i`. -/
theorem malloc_cached (law : PagesLaw P taken) (h : SlabInv P G taken s live runs blocks fl)
    {n i : ℕ} (hfit : Fits n) (hi : i < G.order)
    (hc : G.getSuitableCache (requestSize (roundSize n)) = G.cacheAt i)
    (hle : requestSize (roundSize n) ≤ classSize i) {o : ℕ} {c : Cache} {st : Store σ}
    (run : btCacheAlloc P (s.cache (G.cacheAt i)) s.store = (o, c, st)) :
    (o = 0 → ∃ blocks' fl',
      SlabInv P G taken (s.setCache (G.cacheAt i) c st) live runs blocks' fl') ∧
    (o ≠ 0 → o + 24 < 2 ^ 32 ∧ ∃ blocks' fl', SlabInv P G taken
      ((s.setCache (G.cacheAt i) c st).setMem (writeTag st.mem o (G.cacheAt i) (roundSize n)))
      (⟨o + 24, n⟩ :: live) runs blocks' fl') := by
  obtain ⟨blocks', fl', hcs, hkeep, hblocks⟩ := h.caches.alloc law hi run
  constructor
  · rintro rfl
    rw [if_pos rfl, Function.update_eq_self] at hcs
    exact ⟨blocks', fl', h.keep hcs hkeep hblocks⟩
  · intro hne
    rw [if_neg hne] at hcs
    have hcache : Alloc.cache ⟨o + 24, n⟩ G = G.cacheAt i := hc
    have hstart : Alloc.start ⟨o + 24, n⟩ = o := Nat.add_sub_cancel ..
    have hobjs : CachesInv G taken G.order (s.setCache (G.cacheAt i) c st) blocks' fl'
        (objsOf G (⟨o + 24, n⟩ :: live)) := by
      refine hcs.perm fun j _ => ?_
      by_cases hji : j = i
      · subst hji
        rw [Function.update_self, objsOf_cons_self hcache, hstart]
      · rw [Function.update_of_ne hji, objsOf_cons_of_ne]
        rw [hcache]
        exact fun he => hji (SlabConfig.cacheAt_inj he).symm
    have hmem : o ∈ fl' i ++ objsOf G (⟨o + 24, n⟩ :: live) i := by
      rw [objsOf_cons_self hcache, hstart]
      exact List.mem_append_right _ List.mem_cons_self
    have hbounds := (hobjs.rep i hi).bounds hmem
    rw [hobjs.size i hi] at hbounds
    obtain ⟨-, hreq, -⟩ := hfit.sizes
    have hok : Alloc.Ok ⟨o + 24, n⟩ := by
      refine ⟨by rw [hstart], hfit, ?_⟩
      rw [hstart]
      change o + requestSize (roundSize n) ≤ 2 ^ 32
      omega
    have hroom : ∀ z, (Alloc.room ⟨o + 24, n⟩ G).Holds z → o ≤ z ∧ z < o + classSize i := by
      intro z hz
      unfold Alloc.room at hz
      rw [hcache, if_neg (G.cacheAt_ne i), hstart] at hz
      exact ⟨hz.1, lt_of_lt_of_le hz.2 (Nat.add_le_add_left hle o)⟩
    have hroomIn : ∀ z, (Alloc.room ⟨o + 24, n⟩ G).Holds z → InBlocks blocks' i z := by
      intro z hz
      obtain ⟨hlo, hhi⟩ := hroom z hz
      exact hobjs.inBlocks hi hmem hlo hhi
    have happart := (hobjs.rep i hi).apart
    rw [hobjs.size i hi, objsOf_cons_self hcache, hstart] at happart
    refine ⟨by omega, blocks', fl', ?_⟩
    have hadd := h.add _ blocks' fl' runs hok hobjs hkeep hblocks ?_ ?_ ?_ ?_
    · rw [hstart, hcache] at hadd
      exact hadd
    · -- another allocation is an object of this cache or another, or has pages
      intro y hy z hz
      obtain ⟨hzx, hzy⟩ := hz
      by_cases hy0 : y.cache G = 0
      · obtain ⟨ht, hno⟩ := h.pages y hy hy0 z hzy
        exact hno i hi (hblocks i hi z (hroomIn z hzx) ht)
      · obtain ⟨j, hj, hcj, hlej, -⟩ := class_of_ne hy0
        have hzy' : y.start ≤ z ∧ z < y.start + y.request := by
          unfold Alloc.room at hzy
          rw [if_neg hy0] at hzy
          exact hzy
        by_cases hji : j = i
        · subst hji
          have hya := (List.pairwise_append.mp happart).2.1
          have := (List.pairwise_cons.mp hya).1 y.start (mem_objsOf hy hcj)
          have := hroom z hzx
          unfold ObjApart at *
          omega
        · have hyo := List.mem_append_right (fl' j)
            (mem_objsOf (List.mem_cons_of_mem ⟨o + 24, n⟩ hy) hcj)
          exact hobjs.apart i hi j hj (Ne.symm hji) z (hroomIn z hzx)
            (hobjs.inBlocks hj hyo hzy'.1 (by omega))
    · intro j hj o' ho' z hlo hhi hz
      by_cases hji : j = i
      · subst hji
        have := (List.pairwise_append.mp happart).2.2 o' ho' o List.mem_cons_self
        have := hroom z hz
        have hge := (hobjs.rep j hj).size_ge
        rw [hobjs.size j hj] at hge
        unfold ObjApart at *
        omega
      · have hge := (hobjs.rep j hj).size_ge
        rw [hobjs.size j hj] at hge
        exact hobjs.apart i hi j hj (Ne.symm hji) z (hroomIn z hz)
          (hobjs.inBlocks hj (List.mem_append_left _ ho') hlo (by omega))
    · intro h0
      rw [hcache] at h0
      exact absurd h0 (G.cacheAt_ne i)
    · rw [pagedOf_cons_of_ne _ (by rw [hcache]; exact G.cacheAt_ne i)]
      exact h.runs

/-- `BT_kMalloc` out of the page allocator. -/
theorem malloc_paged (law : PagesLaw P taken) (h : SlabInv P G taken s live runs blocks fl)
    {n : ℕ} (hfit : Fits n) (hc : G.getSuitableCache (requestSize (roundSize n)) = 0)
    {ph : ℕ} {e : σ} (run : P.alloc (requestSize (roundSize n)) s.store.env = (ph, e)) :
    (ph = 0 → SlabInv P G taken { s with store := { s.store with env := e } } live runs blocks fl) ∧
    (ph ≠ 0 → P.ram.physToVirt ph ≠ 0 ∧ P.ram.physToVirt ph + 24 < 2 ^ 32 ∧ SlabInv P G taken
      (Slab.setMem { s with store := { s.store with env := e } }
        (writeTag s.store.mem (P.ram.physToVirt ph) 0 (roundSize n)))
      (⟨P.ram.physToVirt ph + 24, n⟩ :: live)
      ((ph, requestSize (roundSize n)) :: runs) blocks fl) := by
  obtain ⟨-, hreq, hround⟩ := hfit.sizes
  rw [← hreq] at hround
  have hkeep : ∀ y, taken s.store.env y → taken e y := by
    intro y hy
    have := law.keep (requestSize (roundSize n)) s.store.env y hround hy
    rwa [run] at this
  have hcs : CachesInv G taken G.order { s with store := { s.store with env := e } } blocks fl
      (objsOf G live) := h.caches.setEnv fun i hi x hx => hkeep x (h.caches.taken i hi x hx)
  refine ⟨fun _ => h.keep hcs (fun y hy => ⟨hkeep y hy, rfl⟩) fun i _ y hy _ => hy, fun hne => ?_⟩
  have hne' : (P.alloc (requestSize (roundSize n)) s.store.env).1 ≠ 0 := by rwa [run]
  have hstart' := law.start _ _ hne'
  have hstop := law.stop _ _ hround hne'
  have hlt := law.lt (requestSize (roundSize n)) s.store.env
  have hfresh := fun x => law.fresh _ _ x hround hne'
  have htake := fun x => law.take _ _ x hround hne'
  rw [run] at hstart' hstop hlt hfresh htake
  have hphys := P.ram.virtToPhys_physToVirt hlt
  dsimp only at hstart' hstop hfresh htake hphys
  set o := P.ram.physToVirt ph
  have hup := (btPageAlign_of_lt hround).2.1
  have hcache : Alloc.cache ⟨o + 24, n⟩ G = 0 := hc
  have hstart : Alloc.start ⟨o + 24, n⟩ = o := Nat.add_sub_cancel ..
  have hok : Alloc.Ok ⟨o + 24, n⟩ := by
    refine ⟨by rw [hstart], hfit, ?_⟩
    rw [hstart]
    change o + requestSize (roundSize n) ≤ 2 ^ 32
    omega
  have hroom : ∀ z, (Alloc.room ⟨o + 24, n⟩ G).Holds z →
      o ≤ z ∧ z < o + btPageAlign (requestSize (roundSize n)) := by
    intro z hz
    unfold Alloc.room at hz
    rw [hcache, if_pos rfl, hstart] at hz
    exact hz
  have hnew : ∀ z, (Alloc.room ⟨o + 24, n⟩ G).Holds z → ¬ taken s.store.env z :=
    fun z hz => hfresh z (hroom z hz).1 (hroom z hz).2
  refine ⟨by omega, by omega, ?_⟩
  have hadd := h.add { s with store := { s.store with env := e } } blocks fl
    ((ph, requestSize (roundSize n)) :: runs) hok ?_
    (fun y hy => ⟨hkeep y hy, rfl⟩) (fun i _ y hy _ => hy) ?_ ?_ ?_ ?_
  · rw [hstart, hcache] at hadd
    exact hadd
  · refine hcs.perm fun i _ => ?_
    rw [objsOf_cons_of_ne]
    rw [hcache]
    exact (G.cacheAt_ne i).symm
  · intro y hy z hz
    exact hnew z hz.1 (h.room_taken hy hz.2)
  · intro i hi o' ho' z hlo hhi hz
    have hge := (h.caches.rep i hi).size_ge
    rw [h.caches.size i hi] at hge
    refine hnew z hz (h.caches.taken i hi z ?_)
    exact h.caches.inBlocks hi (List.mem_append_left _ ho') hlo (by omega)
  · intro _ y hy
    refine ⟨htake y (hroom y hy).1 (hroom y hy).2, fun i hi hin => ?_⟩
    exact hnew y hy (h.caches.taken i hi y hin)
  · rw [pagedOf_cons_self hcache, List.map_cons, hstart, hphys]
    exact h.runs.cons _

/-- `BT_kMalloc` keeps the invariant. -/
theorem malloc (law : PagesLaw P taken) (h : SlabInv P G taken s live runs blocks fl) {n p : ℕ}
    {s' : Slab σ} (hfit : Fits n) (run : slabMalloc P G s n = (p, s')) :
    ∃ blocks' fl', SlabInv P G taken s' (if p = 0 then live else ⟨p, n⟩ :: live)
      (tookRun P G s n p ++ runs) blocks' fl' := by
  unfold slabMalloc at run
  by_cases hn : n = 0
  · rw [if_pos hn] at run
    cases run
    rw [if_pos rfl, tookRun, if_neg (by simp)]
    exact ⟨blocks, fl, h⟩
  · rw [if_neg hn] at run
    dsimp only at run
    by_cases hc : G.getSuitableCache (requestSize (roundSize n)) = 0
    · have halloc : P.alloc (requestSize (roundSize n)) s.store.env =
          ((P.alloc (requestSize (roundSize n)) s.store.env).1,
            (P.alloc (requestSize (roundSize n)) s.store.env).2) := rfl
      have hpaged := h.malloc_paged law hfit hc halloc
      rw [hc] at run
      by_cases hz : (P.alloc (requestSize (roundSize n)) s.store.env).1 = 0
      · rw [takeMemory_refused hz, if_pos rfl] at run
        cases run
        rw [if_pos rfl, tookRun, if_neg (by simp)]
        exact ⟨blocks, fl, hpaged.1 hz⟩
      · obtain ⟨hne, hlt, hinv⟩ := hpaged.2 hz
        rw [takeMemory_paged hz, if_neg hne, memTagBytes, wordAdd_of_lt hlt] at run
        cases run
        rw [if_neg (by omega), tookRun, if_pos ⟨by omega, hc⟩]
        exact ⟨blocks, fl, hinv⟩
    · obtain ⟨i, hi, hci, hle, -⟩ := class_of_ne (x := ⟨0, n⟩) hc
      have hci : G.getSuitableCache (requestSize (roundSize n)) = G.cacheAt i := hci
      have halloc : btCacheAlloc P (s.cache (G.cacheAt i)) s.store =
          ((btCacheAlloc P (s.cache (G.cacheAt i)) s.store).1,
          (btCacheAlloc P (s.cache (G.cacheAt i)) s.store).2.1,
            (btCacheAlloc P (s.cache (G.cacheAt i)) s.store).2.2) := rfl
      have hcached := h.malloc_cached law hfit hi hci hle halloc
      have htook : ∀ p, tookRun P G s n p = [] := fun p => by
        rw [tookRun, if_neg (fun hcon => hc hcon.2)]
      rw [hci, takeMemory_cached (G.cacheAt_ne i)] at run
      rw [htook, List.nil_append]
      by_cases hz : (btCacheAlloc P (s.cache (G.cacheAt i)) s.store).1 = 0
      · rw [if_pos hz] at run
        cases run
        rw [if_pos rfl]
        exact hcached.1 hz
      · obtain ⟨hlt, hinv⟩ := hcached.2 hz
        rw [if_neg hz, memTagBytes, wordAdd_of_lt hlt] at run
        cases run
        rw [if_neg (by omega)]
        exact hinv

/-! ## `BT_kFree`

The tag says what to give back. What is given back is the room of the allocation and of no other. -/

/-- `BT_kFree` of a live allocation finds its tags and gives it back to its cache, or to
the page allocator with the address and size it was taken with. -/
theorem slabFree_eq (h : SlabInv P G taken s live runs blocks fl) {x : Alloc} (hx : x ∈ live) :
    slabFree P s x.ptr = some (if x.cache G ≠ 0 then
        s.setCache (x.cache G) (btCacheFree (s.cache (x.cache G)) s.store x.start).2.1
          (btCacheFree (s.cache (x.cache G)) s.store x.start).2.2
      else { s with
        store := ⟨s.store.mem, P.free (P.ram.virtToPhys x.start) x.request s.store.env⟩ }) := by
  have hok := h.ok x hx
  have htag := h.tag x hx
  have hptr := hok.ptr_eq
  have hreq := hok.sizes.2.1
  have hstop := hok.stop
  have hstart : wordSub x.ptr memTagBytes = x.start := by
    unfold wordSub memTagBytes
    omega
  have h12 : wordAdd x.start 12 = x.start + 12 := wordAdd_of_lt (by omega)
  have h8 : wordAdd x.start 8 = x.start + 8 := wordAdd_of_lt (by omega)
  have hver := htag.verify (by omega)
  rw [← hptr] at hver
  unfold slabFree
  rw [if_neg (by omega)]
  dsimp only
  rw [hstart, h12, htag.size, hver, if_pos rfl, h8, htag.cache]
  split <;> rfl

/-- The other allocations are elsewhere. -/
theorem apart_erase (h : SlabInv P G taken s live runs blocks fl) {x : Alloc} (hx : x ∈ live) :
    (∀ y ∈ live.erase x, (x.room G).Apart (y.room G)) ∧
      (live.erase x).Pairwise fun x y => (x.room G).Apart (y.room G) := by
  have hsymm : ∀ {x y : Alloc}, (x.room G).Apart (y.room G) → (y.room G).Apart (x.room G) :=
    fun hxy z hz => hxy z hz.symm
  exact List.pairwise_cons.mp (((List.perm_cons_erase hx).pairwise_iff hsymm).mp h.apart)

/-- `BT_kFree` of an object. -/
theorem free_cached (h : SlabInv P G taken s live runs blocks fl) {x : Alloc} (hx : x ∈ live)
    (hc : x.cache G ≠ 0) : ∃ fl', SlabInv P G taken
      (s.setCache (x.cache G) (btCacheFree (s.cache (x.cache G)) s.store x.start).2.1
        (btCacheFree (s.cache (x.cache G)) s.store x.start).2.2)
        (live.erase x) runs blocks fl' := by
  obtain ⟨i, hi, hci, hle, -⟩ := class_of_ne hc
  obtain ⟨hother, hpair⟩ := h.apart_erase hx
  have hperm := List.perm_cons_erase hx
  have hfree := h.caches.free hi (mem_objsOf hx hci)
  rw [hci]
  refine ⟨_, ⟨hfree.perm fun j hj => ?_, fun y hy => h.ok y (List.mem_of_mem_erase hy),
    fun y hy => ?_, fun y hy => h.pages y (List.mem_of_mem_erase hy), hpair, ?_⟩⟩
  · -- the live objects of each cache
    by_cases hji : j = i
    · subst hji
      rw [Function.update_self]
      have : (objsOf G live j).Perm (x.start :: objsOf G (live.erase x) j) := by
        rw [← objsOf_cons_self hci]
        exact (hperm.filter _).map _
      exact (this.erase x.start).trans (by rw [List.erase_cons_head])
    · rw [Function.update_of_ne hji]
      have hne : x.cache G ≠ G.cacheAt j := by
        rw [hci]
        exact fun he => hji (SlabConfig.cacheAt_inj he).symm
      rw [← objsOf_cons_of_ne (live.erase x) hne]
      exact (hperm.filter _).map _
  · -- only the first word of the freed object is written
    have hy' := h.ok y (List.mem_of_mem_erase hy)
    have hxok := h.ok x hx
    have hyreq := hy'.sizes.2.1
    have hxreq := hxok.sizes.2.1
    refine (h.tag y (List.mem_of_mem_erase hy)).congr fun z hlo _ hhi => store_of_out ?_
    by_contra hin
    exact hother y hy z ⟨hxok.holds_room (by omega) (by omega), hy'.holds_room hlo (by omega)⟩
  · rw [← pagedOf_cons_of_ne (live.erase x) hc]
    exact h.runs.trans ((hperm.filter _).map _)

/-- `BT_kFree` of pages. -/
theorem free_paged (law : PagesLaw P taken) (h : SlabInv P G taken s live runs blocks fl)
    {x : Alloc} (hx : x ∈ live) (hc : x.cache G = 0) : SlabInv P G taken
      { s with store := ⟨s.store.mem, P.free (P.ram.virtToPhys x.start) x.request s.store.env⟩ }
      (live.erase x) (runs.erase (P.ram.virtToPhys x.start, x.request)) blocks fl := by
  obtain ⟨hother, hpair⟩ := h.apart_erase hx
  have hperm := List.perm_cons_erase hx
  have hok := h.ok x hx
  have hstop := hok.stop
  have hreq := hok.sizes.2.1
  have hvirt : P.ram.physToVirt (P.ram.virtToPhys x.start) = x.start :=
    P.ram.physToVirt_virtToPhys (by omega)
  have hroom : ∀ y, (x.room G).Holds y ↔ x.start ≤ y ∧ y < x.start + btPageAlign x.request := by
    intro y
    unfold Alloc.room
    rw [if_pos hc]
    exact Iff.rfl
  -- what is not in its pages stays in use
  have hkeep : ∀ y, taken s.store.env y → ¬ (x.room G).Holds y →
      taken (P.free (P.ram.virtToPhys x.start) x.request s.store.env) y := by
    intro y hy hout
    refine law.free _ _ _ y hok.sizes.2.2 ?_ hy ?_
    · rw [hvirt]
      intro z hlo hhi
      exact (h.pages x hx hc z ((hroom z).mpr ⟨hlo, hhi⟩)).1
    · rw [hvirt]
      by_contra hin
      exact hout ((hroom y).mpr (by omega))
  have hin : ∀ i < G.order, ∀ y, InBlocks blocks i y → ¬ (x.room G).Holds y :=
    fun i hi y hy hxy => (h.pages x hx hc y hxy).2 i hi hy
  refine ⟨(h.caches.setEnv fun i hi y hy =>
      hkeep y (h.caches.taken i hi y hy) (hin i hi y hy)).perm fun i _ => ?_,
    fun y hy => h.ok y (List.mem_of_mem_erase hy), fun y hy => h.tag y (List.mem_of_mem_erase hy),
    fun y hy hy0 z hz => ?_, hpair, ?_⟩
  · have hne : x.cache G ≠ G.cacheAt i := by
      rw [hc]
      exact (G.cacheAt_ne i).symm
    rw [← objsOf_cons_of_ne (live.erase x) hne]
    exact (hperm.filter _).map _
  · obtain ⟨ht, hno⟩ := h.pages y (List.mem_of_mem_erase hy) hy0 z hz
    exact ⟨hkeep z ht fun hxz => hother y hy z ⟨hxz, hz⟩, hno⟩
  · have : runs.Perm ((P.ram.virtToPhys x.start, x.request) ::
        (pagedOf G (live.erase x)).map fun x => (P.ram.virtToPhys x.start, x.request)) := by
      have hcons := h.runs.trans ((hperm.filter _).map _)
      rw [show (x :: live.erase x).filter (fun x => x.cache G = 0) =
        x :: pagedOf G (live.erase x) from
        pagedOf_cons_self hc, List.map_cons] at hcons
      exact hcons
    exact (this.erase _).trans (by rw [List.erase_cons_head])

/-! ## Writes

An owner may write to its payload. Nothing that the invariant speaks of lies there. -/

/-- The parts of an allocation are in its room, one after the other. -/
theorem parts (h : SlabInv P G taken s live runs blocks fl) {x : Alloc} (hx : x ∈ live) {z : ℕ} :
    (x.payload.Holds z → (x.room G).Holds z ∧ x.start + 24 ≤ z ∧ z < x.start + 24 + x.size) ∧
    (x.tag.Holds z → (x.room G).Holds z ∧ z < x.start + 24) ∧
    (x.post.Holds z → (x.room G).Holds z ∧ x.start + 24 + x.size ≤ z) := by
  have hok := h.ok x hx
  obtain ⟨hle, hreq, -⟩ := hok.sizes
  have hptr := hok.ptr_eq
  have hstop := hok.stop
  have hpost : wordAdd x.ptr x.size = x.ptr + x.size := wordAdd_of_lt (by omega)
  refine ⟨fun hz => ?_, fun hz => ?_, fun hz => ?_⟩
  · obtain ⟨hlo, hhi⟩ : x.ptr ≤ z ∧ z < x.ptr + x.asked := hz
    exact ⟨hok.holds_room (by omega) (by omega), by omega, by omega⟩
  · obtain ⟨hlo, hhi⟩ : x.start ≤ z ∧ z < x.start + 24 := hz
    exact ⟨hok.holds_room (by omega) (by omega), by omega⟩
  · obtain ⟨hlo, hhi⟩ : wordAdd x.ptr x.size ≤ z ∧ z < wordAdd x.ptr x.size + 8 := hz
    exact ⟨hok.holds_room (by omega) (by omega), by omega⟩

/-- A free object is in no room. -/
theorem link_notMem_room (h : SlabInv P G taken s live runs blocks fl) {x : Alloc} (hx : x ∈ live)
    {i o z : ℕ} (hi : i < G.order) (ho : o ∈ fl i) (hlo : o ≤ z) (hhi : z < o + 4) :
    ¬ (x.room G).Holds z := by
  intro hroom
  have hge := (h.caches.rep i hi).size_ge
  have hsize := h.caches.size i hi
  rw [hsize] at hge
  have hzin := h.caches.inBlocks hi (List.mem_append_left _ ho) hlo (by omega)
  by_cases hc : x.cache G = 0
  · exact (h.pages x hx hc z hroom).2 i hi hzin
  · obtain ⟨j, hj, hcj, hle, -⟩ := class_of_ne hc
    by_cases hji : j = i
    · subst hji
      have happ := (List.pairwise_append.mp (h.caches.rep j hj).apart).2.2 o ho x.start
        (mem_objsOf hx hcj)
      rw [hsize] at happ
      unfold Alloc.room at hroom
      rw [if_neg hc] at hroom
      obtain ⟨hr₁, hr₂⟩ := hroom
      dsimp only at hr₁ hr₂
      unfold ObjApart at happ
      omega
    · exact h.caches.apart j hj i hi hji z (h.room_inBlocks hx hj hcj hle hroom) hzin

/-- Owners write to their payloads. -/
theorem write (h : SlabInv P G taken s live runs blocks fl) {m : Memory}
    (hm : ∀ y, (∀ x ∈ live, ¬ x.payload.Holds y) → m y = s.store.mem y) :
    SlabInv P G taken (s.setMem m) live runs blocks fl := by
  refine ⟨h.caches.write fun i hi o ho z hlo hhi => hm z fun x hx hz => ?_, h.ok, fun x hx => ?_,
    h.pages, h.apart, h.runs⟩
  · exact h.link_notMem_room hx hi ho hlo hhi ((h.parts hx).1 hz).1
  · -- a byte of the tag is in no payload, neither its own nor another's
    have hok := h.ok x hx
    have hreq := hok.sizes.2.1
    refine (h.tag x hx).congr fun z hlo hmid hhi => hm z fun y hy hz => ?_
    obtain ⟨hroom, h₁, h₂⟩ := (h.parts hy).1 hz
    by_cases hxy : x = y
    · subst hxy
      omega
    · have hy' : y ∈ live.erase x := (List.mem_erase_of_ne (Ne.symm hxy)).mpr hy
      exact (h.apart_erase hx).1 y hy' z ⟨hok.holds_room hlo (by omega), hroom⟩

end SlabInv

/-! ## Runs

Requests do not wrap around in these runs. That this is needed is shown by a request that does. -/

/-- The states `bt_initialise_slab`, `BT_kMalloc` with sizes that are `Ok`, `BT_kFree` of live
pointers, writes of the owners and other users of the page allocator lead to, with the
live allocations and the runs of pages outside the caches. A run is off the list when
its address and size are passed to `bt_page_free`. -/
inductive SlabReach (P : Pages σ) (G : SlabConfig) (taken : σ → ℕ → Prop) (Ok : ℕ → Prop) :
    Slab σ → List Alloc → List (ℕ × ℕ) → Prop
  | init {s : Slab σ} (clear : ∀ i < G.order, (s.cache (G.cacheAt i)).available = 0) :
    SlabReach P G taken Ok (btInitialiseSlab P G s) [] []
  | malloc {s s' : Slab σ} {live : List Alloc} {runs : List (ℕ × ℕ)} {n p : ℕ}
    (reach : SlabReach P G taken Ok s live runs) (ok : Ok n) (run : slabMalloc P G s n = (p, s')) :
    SlabReach P G taken Ok s' (if p = 0 then live else ⟨p, n⟩ :: live) (tookRun P G s n p ++ runs)
  | free {s s' : Slab σ} {live : List Alloc} {runs : List (ℕ × ℕ)} {x : Alloc}
    (reach : SlabReach P G taken Ok s live runs) (own : x ∈ live)
    (run : slabFree P s x.ptr = some s') :
    SlabReach P G taken Ok s' (live.erase x)
      (if s.store.mem.load (x.ptr - 16) = 0 then
        runs.erase (P.ram.virtToPhys (x.ptr - 24), requestSize (s.store.mem.load (x.ptr - 12)))
      else runs)
  | write {s : Slab σ} {live : List Alloc} {runs : List (ℕ × ℕ)} {m : Memory}
    (reach : SlabReach P G taken Ok s live runs)
    (out : ∀ y, (∀ x ∈ live, ¬ x.payload.Holds y) → m y = s.store.mem y) :
    SlabReach P G taken Ok (s.setMem m) live runs
  | pages {s : Slab σ} {live : List Alloc} {runs : List (ℕ × ℕ)} {e : σ}
    (reach : SlabReach P G taken Ok s live runs) (keep : ∀ x, taken s.store.env x → taken e x) :
    SlabReach P G taken Ok { s with store := { s.store with env := e } } live runs

/-- The invariant holds in every state. -/
theorem SlabReach.inv (law : PagesLaw P taken) {s : Slab σ} {live : List Alloc}
    {runs : List (ℕ × ℕ)} (h : SlabReach P G taken Fits s live runs) :
    ∃ blocks fl, SlabInv P G taken s live runs blocks fl := by
  induction h with
  | @init s clear =>
    have h₀ : CachesInv G taken 0 s (fun _ => []) (fun _ => []) (fun _ => []) :=
      ⟨nofun, nofun, nofun, nofun⟩
    have hle := G.order_le
    obtain ⟨blocks, fl, hc⟩ := initialiseSlabLoop_spec law 32 h₀ (Nat.zero_le _) (by omega) nofun
      fun i hi _ => clear i hi
    exact ⟨blocks, fl, hc, nofun, nofun, nofun, .nil, .refl _⟩
  | malloc _ ok run ih =>
    obtain ⟨blocks, fl, hi⟩ := ih
    exact hi.malloc law ok run
  | @free s s' live runs x _ own run ih =>
    obtain ⟨blocks, fl, hi⟩ := ih
    have hok := hi.ok x own
    have hptr := hok.ptr_eq
    have htag := hi.tag x own
    have h₁ : s.store.mem.load (x.ptr - 16) = x.cache G := by
      rw [show x.ptr - 16 = x.start + 8 by omega]
      exact htag.cache
    have h₂ : s.store.mem.load (x.ptr - 12) = x.size := by
      rw [show x.ptr - 12 = x.start + 12 by omega]
      exact htag.size
    rw [hi.slabFree_eq own] at run
    rw [h₁, h₂]
    by_cases hc : x.cache G = 0
    · rw [if_neg (not_not.mpr hc)] at run
      rw [if_pos hc]
      cases run
      exact ⟨blocks, fl, hi.free_paged law own hc⟩
    · rw [if_pos hc] at run
      rw [if_neg hc]
      cases run
      obtain ⟨fl', hi'⟩ := hi.free_cached own hc
      exact ⟨blocks, fl', hi'⟩
  | write _ out ih =>
    obtain ⟨blocks, fl, hi⟩ := ih
    exact ⟨blocks, fl, hi.write out⟩
  | pages _ keep ih =>
    obtain ⟨blocks, fl, hi⟩ := ih
    refine ⟨blocks, fl,
      hi.keep (hi.caches.setEnv fun i hi' x hx => keep x (hi.caches.taken i hi' x hx))
      (fun y hy => ⟨keep y hy, rfl⟩) fun i _ y hy _ => hy⟩

/-- What the slab allocator is for. -/
structure SlabSound (P : Pages σ) (G : SlabConfig) (s : Slab σ) (live : List Alloc)
    (runs : List (ℕ × ℕ)) (blocks fl : ℕ → List ℕ) : Prop where
  /-- each default cache has its live and its free objects -/
  caches : ∀ i < G.order, (s.cache (G.cacheAt i)).objectSize = classSize i ∧
    CacheRep (s.cache (G.cacheAt i)) s.store.mem (blocks i) (fl i) (objsOf G live i)
  /-- payloads are apart from one another -/
  payloads : live.Pairwise fun x y => x.payload.Apart y.payload
  /-- from every tag and every magic number -/
  tags : ∀ x ∈ live, ∀ y ∈ live, x.payload.Apart y.tag ∧ x.payload.Apart y.post
  /-- and from every link of a free list -/
  links : ∀ x ∈ live, ∀ i < G.order, ∀ o ∈ fl i, x.payload.Apart (o, 4)
  /-- an allocation is in the smallest cache that holds it, or has its own pages -/
  place : ∀ x ∈ live, x.request = (x.asked + 3) / 4 * 4 + 32 ∧
    ((∃ i < G.order, x.start ∈ objsOf G live i ∧ x.request ≤ classSize i ∧
      ∀ j < i, classSize j < x.request) ∨
    (∀ i < G.order, classSize i < x.request) ∧ (P.ram.virtToPhys x.start, x.request) ∈ runs)
  /-- it goes back to its cache or to its pages, without a panic -/
  free : ∀ x ∈ live, ∃ s', slabFree P s x.ptr = some s' ∧
    ((∃ i < G.order, x.start ∈ objsOf G live i ∧
      s' = s.setCache (G.cacheAt i) (btCacheFree (s.cache (G.cacheAt i)) s.store x.start).2.1
        (btCacheFree (s.cache (G.cacheAt i)) s.store x.start).2.2) ∨
    (P.ram.virtToPhys x.start, x.request) ∈ runs ∧
      s' = { s with
        store := ⟨s.store.mem, P.free (P.ram.virtToPhys x.start) x.request s.store.env⟩ })
  /-- when everything is freed, nothing is out -/
  empty : live = [] → (∀ i < G.order, (s.cache (G.cacheAt i)).allocated = 0) ∧ runs = []

namespace SlabInv

variable {s : Slab σ} {live : List Alloc} {runs : List (ℕ × ℕ)} {blocks fl : ℕ → List ℕ}

/-- The pages of what was handed out without a cache are accounted for. -/
theorem mem_runs (h : SlabInv P G taken s live runs blocks fl) {x : Alloc} (hx : x ∈ live)
    (hc : x.cache G = 0) : (P.ram.virtToPhys x.start, x.request) ∈ runs :=
  h.runs.mem_iff.mpr (List.mem_map.mpr ⟨x, List.mem_filter.mpr ⟨hx, by simpa using hc⟩, rfl⟩)

/-- The invariant gives what the allocator is for. -/
theorem sound (h : SlabInv P G taken s live runs blocks fl) :
    SlabSound P G s live runs blocks fl := by
  have hother : ∀ x ∈ live, ∀ y ∈ live, x ≠ y → (x.room G).Apart (y.room G) := by
    intro x hx y hy hxy
    exact (h.apart_erase hx).1 y ((List.mem_erase_of_ne (Ne.symm hxy)).mpr hy)
  constructor
  · exact fun i hi => ⟨h.caches.size i hi, h.caches.rep i hi⟩
  · refine h.apart.imp_of_mem fun hx hy hxy z hz => ?_
    exact hxy z ⟨((h.parts hx).1 hz.1).1, ((h.parts hy).1 hz.2).1⟩
  · intro x hx y hy
    by_cases hxy : x = y
    · subst hxy
      constructor
      · intro z hz
        have h₁ := (h.parts hx).1 hz.1
        have h₂ := (h.parts hx).2.1 hz.2
        omega
      · intro z hz
        have h₁ := (h.parts hx).1 hz.1
        have h₂ := (h.parts hx).2.2 hz.2
        omega
    · have happ := hother x hx y hy hxy
      exact ⟨fun z hz => happ z ⟨((h.parts hx).1 hz.1).1, ((h.parts hy).2.1 hz.2).1⟩,
        fun z hz => happ z ⟨((h.parts hx).1 hz.1).1, ((h.parts hy).2.2 hz.2).1⟩⟩
  · intro x hx i hi o ho z hz
    exact h.link_notMem_room hx hi ho hz.2.1 hz.2.2 ((h.parts hx).1 hz.1).1
  · intro x hx
    have hfits := (h.ok x hx).fits
    refine ⟨?_, ?_⟩
    · rw [(h.ok x hx).sizes.2.1, Alloc.size, roundSize_eq]
      unfold Fits at hfits
      omega
    · by_cases hc : x.cache G = 0
      · refine .inr ⟨fun i hi => ?_, h.mem_runs hx hc⟩
        -- a request that fits into a cache gets one
        by_contra hle
        have hmax : x.request ≤ G.cacheGenericMax := by
          refine le_trans (Nat.not_lt.mp hle) ?_
          rw [G.cacheGenericMax_eq, classSize, show 16 * 2 ^ i = 2 ^ (i + 4) by rw [pow_add]; ring]
          exact Nat.pow_le_pow_right (by decide) (by omega)
        obtain ⟨j, -, hj, -⟩ := SlabConfig.getSuitableCache_of_le hmax
        exact G.cacheAt_ne j (hj.symm.trans hc)
      · obtain ⟨i, hi, hci, hle, hleast⟩ := class_of_ne hc
        exact .inl ⟨i, hi, mem_objsOf hx hci, hle, hleast⟩
  · intro x hx
    refine ⟨_, h.slabFree_eq hx, ?_⟩
    by_cases hc : x.cache G = 0
    · rw [if_neg (not_not.mpr hc)]
      exact .inr ⟨h.mem_runs hx hc, rfl⟩
    · obtain ⟨i, hi, hci, -⟩ := class_of_ne hc
      rw [if_pos hc, hci]
      exact .inl ⟨i, hi, mem_objsOf hx hci, rfl⟩
  · rintro rfl
    exact ⟨fun i hi => (h.caches.rep i hi).allocated, h.runs.eq_nil⟩

end SlabInv

/-- **The slab-backed `BT_kMalloc` is sound** in every run in which no request wraps
around when it is rounded up to pages. -/
theorem slab_sound (law : PagesLaw P taken) {s : Slab σ} {live : List Alloc} {runs : List (ℕ × ℕ)}
    (h : SlabReach P G taken Fits s live runs) :
    ∃ blocks fl, SlabSound P G s live runs blocks fl := by
  obtain ⟨blocks, fl, hi⟩ := h.inv law
  exact ⟨blocks, fl, hi.sound⟩

/-- Ten default caches. -/
def tenCaches : SlabConfig where
  order := 10
  table := 0x8000
  order_pos := by decide
  order_le := by decide
  table_pos := by decide
  table_end := by decide

/-- Clear memory, with pages from `0x100000` on. -/
def clearSlab : Slab ℕ := ⟨fun _ => ⟨0, 0, 0, 0⟩, ⟨fun _ => 0, 0x100000⟩⟩

/-- 20 bytes and their tags are an object of 64 bytes. -/
theorem slab_sound_twenty : ∃ (s : Slab ℕ) (x : Alloc),
    SlabReach bumpPages tenCaches belowNext Fits s [x] [] ∧
    ∃ i < 10, x.request ≤ classSize i ∧ ∀ j < i, classSize j < x.request := by
  have hinit : SlabReach bumpPages tenCaches belowNext Fits
      (btInitialiseSlab bumpPages tenCaches clearSlab)
      [] [] := .init fun _ _ => rfl
  have hfit : Fits 20 := by
    unfold Fits
    omega
  have hp : (slabMalloc bumpPages tenCaches (btInitialiseSlab bumpPages tenCaches clearSlab) 20).1 =
      0x102018 := by decide +kernel
  have hrun : tookRun bumpPages tenCaches (btInitialiseSlab bumpPages tenCaches clearSlab) 20
      0x102018 =
      [] := by decide +kernel
  have hreach := SlabReach.malloc hinit hfit (Prod.ext hp rfl)
  rw [if_neg (by decide), hrun, List.nil_append] at hreach
  obtain ⟨blocks, fl, hsound⟩ := slab_sound bumpPages_law hreach
  refine ⟨_, _, hreach, ?_⟩
  rcases (hsound.place ⟨0x102018, 20⟩ List.mem_cons_self).2 with ⟨i, hi, -, hle⟩ | ⟨-, hmem⟩
  · exact ⟨i, hi, hle⟩
  · exact absurd hmem List.not_mem_nil

/-- One default cache. -/
def oneCache : SlabConfig where
  order := 1
  table := 0x8000
  order_pos := by decide
  order_le := by decide
  table_pos := by decide
  table_end := by decide

/-- A request that wraps around when it is rounded up to pages gets no page, and its
magic number is written into another's payload. -/
theorem slab_request_wraps : ∃ s runs,
    SlabReach bumpPages oneCache belowNext (fun n => n + 3 + 32 < 2 ^ 32) s
      [⟨0x102018, 0xFFFFF000⟩, ⟨0x101018, 8⟩] runs ∧
    ¬∃ blocks fl, SlabSound bumpPages oneCache s
    [⟨0x102018, 0xFFFFF000⟩, ⟨0x101018, 8⟩] runs blocks fl := by
  have hinit : SlabReach bumpPages oneCache belowNext (fun n => n + 3 + 32 < 2 ^ 32)
      (btInitialiseSlab bumpPages oneCache clearSlab) [] [] := .init fun _ _ => rfl
  have hp₁ : (slabMalloc bumpPages oneCache (btInitialiseSlab bumpPages oneCache clearSlab) 8).1 =
      0x101018 := by decide +kernel
  have hp₂ : (slabMalloc bumpPages oneCache
      (slabMalloc bumpPages oneCache (btInitialiseSlab bumpPages oneCache clearSlab) 8).2
        0xFFFFF000).1 = 0x102018 := by decide +kernel
  have hreach₁ := SlabReach.malloc hinit (by decide) (Prod.ext hp₁ rfl)
  have hreach₂ := SlabReach.malloc hreach₁ (by decide) (Prod.ext hp₂ rfl)
  rw [if_neg (by decide), if_neg (by decide)] at hreach₂
  refine ⟨_, _, hreach₂, ?_⟩
  rintro ⟨blocks, fl, hsound⟩
  have happ := (hsound.tags ⟨0x101018, 8⟩ (List.mem_cons_of_mem _ List.mem_cons_self)
    ⟨0x102018, 0xFFFFF000⟩ List.mem_cons_self).2
  refine happ 0x101018 ⟨by decide, ?_⟩
  decide

end BitThunder
