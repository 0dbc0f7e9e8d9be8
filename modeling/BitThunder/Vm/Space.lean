import BitThunder.Vm.LifeSpec

/-!
# Runs on one address space

Any sequence of operations on a map that `bt_vm_create` made, on any kernel: which
of its allocations fail, and when, is up to the kernel.

* `space_step`: one operation returns and keeps the layout of the segments;
* `address_space_tiled`: in every state reached, the segments tile the user
  addresses.

`Laid` says that the map shows a list that satisfies `SegmentsOk`, and one operation keeps it, by
the rule for the operation and a lemma about lists for each ending. Which resources the kernel has
does not matter, and no ending needs to be excluded. What has to be asked of the caller is that
addresses are page-aligned and that nothing wraps (`VmOp.Ok`), which the code does not check for
itself.

In the end the list is taken away again: `address_space_tiled` speaks of the cells that the forward
pointers visit from the map's head on, and of what is stored under them.
-/

namespace BitThunder

variable {σ : Type} {K : Kernel σ} {s : Machine σ} {m : ℕ} {xs as bs : List Entry}

/-- The operations on a map. -/
inductive VmOp : Type where
  /-- `bt_vm_map_region(map, pa, va, size, type)` -/
  | mapRegion : ℕ → ℕ → ℕ → ℕ → VmOp
  /-- `bt_vm_unmap_region(map, va)` -/
  | unmapRegion : ℕ → VmOp
  /-- `bt_vm_allocate(task, &addr, size, flags)` -/
  | allocate : ℕ → ℕ → ℕ → VmOp
  /-- `bt_vm_free(task, addr)` -/
  | free : ℕ → VmOp
  /-- `bt_vm_attribute(task, addr, attr)` -/
  | changeAttribute : ℕ → ℕ → VmOp

/-- The call, and what it returns: an error code and an address. -/
def VmOp.run (K : Kernel σ) (m : ℕ) : VmOp → Prog (Machine σ) (BtError × ℕ)
  | .mapRegion pa va size type => do
    let a ← btVmMapRegion K m pa va size type
    pure (.none, a)
  | .unmapRegion va => do
    btVmUnmapRegion K m va
    pure (.none, 0)
  | .allocate addr size flags => doAllocate K m addr size flags
  | .free addr => do
    let e ← doFree K m addr
    pure (e, 0)
  | .changeAttribute addr attr => do
    let e ← doAttribute K m addr attr
    pure (e, 0)

/-- A range of at least one byte from a page-aligned address, whose end, rounded up
to a page, is a 32-bit address. -/
def RangeOk (a size : ℕ) : Prop :=
  a % 4096 = 0 ∧ 1 ≤ size ∧ size + 4095 < 2 ^ 32 ∧ a + btPageAlign size < 2 ^ 32

/-- Requests with page-aligned addresses, sizes of at least one and no wrap-around.
An address that the call ignores may be any word. -/
def VmOp.Ok : VmOp → Prop
  | .mapRegion pa va size _ => pa % 4096 = 0 ∧ pa < 2 ^ 32 ∧ RangeOk va size
  | .unmapRegion va => va % 4096 = 0 ∧ va < 2 ^ 32
  | .allocate addr size flags => addr < 2 ^ 32 ∧
      RangeOk (if flags &&& btVmAllocAnywhere ≠ 0 then 0 else addr) size
  | .free addr => addr % 4096 = 0 ∧ addr < 2 ^ 32
  | .changeAttribute addr _ => addr % 4096 = 0 ∧ addr < 2 ^ 32

/-- The states a map made by `bt_vm_create` can get into. -/
inductive VmReach (K : Kernel σ) (m : ℕ) : Machine σ → Prop where
  | create {s₀ s : Machine σ} : btVmCreate K s₀ = some (some m, s) → VmReach K m s
  | step {s s' : Machine σ} {op : VmOp} {r : BtError × ℕ} : VmReach K m s → op.Ok →
      op.run K m s = some (r, s') → VmReach K m s'

/-! ## Requests

What a caller has to observe: addresses of whole pages, and ranges that do not wrap. -/

/-- A range that can be rounded up stays within the words. -/
theorem RangeOk.align {a size : ℕ} (h : RangeOk a size) :
    0 < btPageAlign size ∧ btPageAlign size % 4096 = 0 ∧ a + btPageAlign size < 2 ^ 32 := by
  obtain ⟨-, hs, hlt, hend⟩ := h
  obtain ⟨h₁, h₂, -⟩ := btPageAlign_of_lt hlt
  exact ⟨by omega, h₁, hend⟩

/-- For a request that makes sense, the size `do_allocate` works with is the size
asked for, rounded up. -/
theorem allocSize_of_ok {addr size flags : ℕ} (h : (VmOp.allocate addr size flags).Ok) :
    allocSize addr size flags = btPageAlign size := by
  obtain ⟨ha, hr⟩ := h
  unfold allocSize
  split
  · rfl
  · rename_i hc
    rw [if_neg hc] at hr
    obtain ⟨haa, hs, hlt, hend⟩ := hr
    obtain ⟨h₁, h₂, h₃⟩ := btPageAlign_of_lt hlt
    have hsum : wordAdd addr size = addr + size := wordAdd_of_lt (by omega)
    have hal : btPageAlign (addr + size) = addr + btPageAlign size := by
      obtain ⟨g₁, g₂, g₃⟩ := btPageAlign_of_lt (x := addr + size) (by omega)
      omega
    rw [btPageTrunc_of_aligned ha haa, hsum, hal, wordSub_of_le (by omega) hend]
    omega

/-- The segment an allocation obtains fits into the layout. -/
theorem alloc_fits {lo hi addr size flags a j p : ℕ} {v : Segment}
    (hop : (VmOp.allocate addr size flags).Ok) (hb : Bounds lo hi) (hok : SegmentsOk lo hi xs)
    (hob : Obtained xs v a (allocSize addr size flags) as j p bs)
    (hat : AllocAt addr size flags v a) :
    SegmentsOk lo hi (as ++ (j, ⟨a, p, allocSize addr size flags, 0⟩) :: bs) := by
  have hsz := allocSize_of_ok hop
  obtain ⟨ha, hr⟩ := hop
  obtain ⟨hpos, hmod, hend⟩ := hr.align
  unfold AllocAt at hat
  rw [hsz] at hob hat ⊢
  by_cases hc : flags &&& btVmAllocAnywhere ≠ 0
  · rw [if_pos hc] at hat
    obtain ⟨x, hx, rfl, -⟩ := hob.carve.mem
    obtain ⟨rfl, ht⟩ := hat
    exact hob.ok hb hok hpos hmod (hok.aligned x hx).1 (.inr ⟨rfl, ht⟩)
  · rw [if_neg hc] at hat hr hend
    have haa : addr % 4096 = 0 := hr.1
    rw [btPageTrunc_of_aligned ha haa] at hat
    subst hat
    exact hob.ok hb hok hpos hmod haa (.inl hend)

/-- The segment a mapping obtains fits into the layout. -/
theorem region_fits {lo hi pa va size type a j p : ℕ} {v : Segment}
    (hop : (VmOp.mapRegion pa va size type).Ok) (hb : Bounds lo hi) (hok : SegmentsOk lo hi xs)
    (hob : Obtained xs v a (btPageAlign size) as j p bs)
    (hat : if va = 0 then a = v.addr ∧ allocTest (btPageAlign size) v else a = va) :
    SegmentsOk lo hi (as ++ (j, ⟨a, p, btPageAlign size, 0⟩) :: bs) := by
  obtain ⟨-, -, hr⟩ := hop
  obtain ⟨hpos, hmod, hend⟩ := hr.align
  by_cases hva : va = 0
  · rw [if_pos hva] at hat
    obtain ⟨x, hx, rfl, -⟩ := hob.carve.mem
    obtain ⟨rfl, ht⟩ := hat
    exact hob.ok hb hok hpos hmod (hok.aligned x hx).1 (.inr ⟨rfl, ht⟩)
  · rw [if_neg hva] at hat
    subst hat
    exact hob.ok hb hok hpos hmod hr.1 (.inl hend)

/-! ## The layout is kept

One lemma for each operation, from the rule for it and the lemmas about lists. -/

/-- The map shows a well-formed list. -/
def Laid (lo hi m : ℕ) (s : Machine σ) : Prop := ∃ xs, Shows s m xs ∧ SegmentsOk lo hi xs

variable {lo hi : ℕ}

theorem not_has_free_rwx {a p n : ℕ} : ¬ Segment.has ⟨a, p, n, segRwx⟩ btSegFree := by
  change ¬ (segRwx &&& btSegFree != 0) = true
  decide

theorem not_has_free_type {a p n type : ℕ} :
    ¬ Segment.has ⟨a, p, n, typeToSegflags type ||| btSegMapped⟩ btSegFree := by
  unfold typeToSegflags
  split <;> simp only [Segment.has] <;> decide

/-- Giving a segment in use back keeps the layout. -/
theorem SegmentsOk.freed {i : ℕ} {v : Segment} (hb : Bounds lo hi)
    (hok : SegmentsOk lo hi (as ++ (i, v) :: bs)) :
    SegmentsOk lo hi (BitThunder.freeAt as i v bs) :=
  (hok.hold (j := i) (w := ⟨v.addr, v.phys, v.size, 0⟩) rfl rfl not_has_free_zero
    not_has_shared_zero).freeAt (f := v.flags) hb

theorem allocate_laid {addr size flags : ℕ} (hb : Bounds lo hi) (h : Shows s m xs)
    (hok : SegmentsOk lo hi xs) (hop : (VmOp.allocate addr size flags).Ok) :
    Prog.Ensures (doAllocate K m addr size flags) s fun _ s' => Laid lo hi m s' := by
  refine doAllocate_rule h hop.1 ?_ ?_ ?_ ?_ ?_
  · intro _
    exact ⟨xs, h, hok⟩
  · intro xs' s' _ _ hu e
    rw [hu.eq hok hb] at e
    exact ⟨xs, e.shows, hok⟩
  · intro v a as j p bs s₁ _ _ hob hat e hz s' e'
    exact ⟨_, e'.shows, (alloc_fits hop hb hok hob hat).freeAt hb⟩
  · intro v a as j p bs s₁ _ _ hob hat e hz e' t hrun he hframe s' e''
    exact ⟨_, e''.shows, (alloc_fits hop hb hok hob hat).freeAt hb⟩
  · intro v a as j p bs s₁ _ _ hob hat e hz t hrun hframe
    have ht : Shows t m (as ++ (j, ⟨a, p, allocSize addr size flags, segRwx⟩) :: bs) :=
      hframe.shows (e.shows.congr rfl (fun _ _ => rfl) (le_refl _))
    refine ⟨_, (ht.setSeg ⟨a, (K.pageAlloc (allocSize addr size flags) s₁.env).1, _, segRwx⟩).congr
      rfl (fun _ _ => rfl) (le_refl _), ?_⟩
    exact (alloc_fits hop hb hok hob hat).hold rfl rfl not_has_free_rwx not_has_shared_rwx

theorem free_laid {addr : ℕ} (hb : Bounds lo hi) (h : Shows s m xs) (hok : SegmentsOk lo hi xs) :
    Prog.Ensures (doFree K m addr) s fun _ s' => Laid lo hi m s' := by
  refine doFree_rule h hok.unshared ?_ ?_
  · intro s' e
    exact ⟨xs, e.shows, hok⟩
  · intro as i v bs s₁ e t hxs _ hf _ hrun hframe s' e'
    subst hxs
    exact ⟨_, e'.shows, hok.freed hb⟩

theorem unmap_laid {va : ℕ} (hb : Bounds lo hi) (h : Shows s m xs) (hok : SegmentsOk lo hi xs) :
    Prog.Ensures (btVmUnmapRegion K m va) s fun _ s' => Laid lo hi m s' := by
  refine btVmUnmapRegion_rule h hok.unshared ?_ ?_
  · intro s' _ e
    exact ⟨xs, e.shows, hok⟩
  · intro as i v bs s₁ e t hxs _ _ _ hrun hframe s' e'
    subst hxs
    exact ⟨_, e'.shows, hok.freed hb⟩

theorem map_laid {pa va size type : ℕ} (hb : Bounds lo hi) (h : Shows s m xs)
    (hok : SegmentsOk lo hi xs) (hop : (VmOp.mapRegion pa va size type).Ok) :
    Prog.Ensures (btVmMapRegion K m pa va size type) s fun _ s' => Laid lo hi m s' := by
  refine btVmMapRegion_rule h ?_ ?_ ?_
  · intro xs' s₁ hu _ _ s' e
    rw [hu.eq hok hb] at e
    exact ⟨xs, e.shows, hok⟩
  · intro v a as j p bs f s₁ hob hat e _ s' e'
    have hfit := region_fits hop hb hok hob hat
    have hpa : SegmentsOk lo hi (as ++ (j, ⟨a, pa, btPageAlign size, 0⟩) :: bs) :=
      hfit.hold rfl rfl not_has_free_zero not_has_shared_zero
    exact ⟨_, e'.shows, hpa.freeAt hb⟩
  · intro v a as j p bs f s₁ hob hat e _ s₂ e' t _ e₂ hrun hframe
    have hfit := region_fits hop hb hok hob hat
    exact ⟨_, (hframe.shows e₂.shows).congr rfl (fun _ _ => rfl) (le_refl _),
      hfit.hold rfl rfl not_has_free_type not_has_shared_type.2⟩

theorem attribute_laid {addr attr : ℕ} (h : Shows s m xs) (hok : SegmentsOk lo hi xs) :
    Prog.Ensures (doAttribute K m addr attr) s fun _ s' => Laid lo hi m s' := by
  refine doAttribute_rule h hok.unshared ?_ ?_ ?_
  · intro _
    exact ⟨xs, h, hok⟩
  · intro as i v bs type s₁ e t _ _ _ _ e₁ hrun _ hframe
    exact ⟨xs, hframe.shows e₁.shows, hok⟩
  · intro as i v bs type s₁ t hxs _ _ _ e₁ hrun hframe
    subst hxs
    obtain ⟨h₁, h₂, -⟩ := not_has_of_lt_eight (attrFlags_lt attr) (a := v.addr) (p := v.phys)
      (n := v.size)
    exact ⟨_, (hframe.shows e₁.shows).setSeg _, hok.hold rfl rfl h₁ h₂⟩

/-- One operation returns and keeps the layout. -/
theorem space_step (hb : Bounds lo hi) (hl : Laid lo hi m s) (op : VmOp) (hop : op.Ok) :
    Prog.Ensures (op.run K m) s fun _ s' => Laid lo hi m s' := by
  obtain ⟨xs, h, hok⟩ := hl
  cases op with
  | mapRegion pa va size type =>
    rw [VmOp.run, Prog.ensures_bind]
    exact (map_laid hb h hok hop).mono fun _ _ hl => Prog.ensures_pure.mpr hl
  | unmapRegion va =>
    rw [VmOp.run, Prog.ensures_bind]
    exact (unmap_laid hb h hok).mono fun _ _ hl => Prog.ensures_pure.mpr hl
  | allocate addr size flags => exact allocate_laid hb h hok hop
  | free addr =>
    rw [VmOp.run, Prog.ensures_bind]
    exact (free_laid hb h hok).mono fun _ _ hl => Prog.ensures_pure.mpr hl
  | changeAttribute addr attr =>
    rw [VmOp.run, Prog.ensures_bind]
    exact (attribute_laid h hok).mono fun _ _ hl => Prog.ensures_pure.mpr hl

/-- A new map shows one free segment, and nothing is allocated in it. -/
theorem create_shows {r : Option ℕ} {s' : Machine σ} (h : btVmCreate K s = some (r, s')) :
    ∀ m, r = some m → m = s.fresh ∧ Shows s' m [(m + 1, initialSegment)] ∧
      (s'.map m).size = 0 ∧ (s'.map m).refcount = 1 := by
  have hc : Prog.Ensures (btVmCreate K) s fun r s' =>
      ∀ m, r = some m → m = s.fresh ∧ Shows s' m [(m + 1, initialSegment)] ∧
        (s'.map m).size = 0 ∧ (s'.map m).refcount = 1 := by
    refine btVmCreate_rule ?_ ?_ ?_
    · intro _ m hm
      cases hm
    · intro _ _ s' _ _ m hm
      cases hm
    · intro _ _ s₁ _ hbegun _ hsh
      have hnew : ∀ pgd s₂, DirFrame s₁ s₂ → ∀ m, some s.fresh = some m →
          m = s.fresh ∧ Shows (s₂.setMap s.fresh { s₂.map s.fresh with pgd := pgd }) m
            [(m + 1, initialSegment)] ∧
          ((s₂.setMap s.fresh { s₂.map s.fresh with pgd := pgd }).map m).size = 0 ∧
          ((s₂.setMap s.fresh { s₂.map s.fresh with pgd := pgd }).map m).refcount = 1 := by
        intro pgd s₂ hf m hm
        cases hm
        refine ⟨rfl, (hf.shows hsh).congr rfl (fun _ _ => rfl) (le_refl _), ?_, ?_⟩
        · simp [hf.map, hbegun.map]
        · simp [hf.map, hbegun.map]
      exact btMmuNewmap_rule (fun _ s₂ hf _ _ => hnew 0 s₂ hf) (fun _ _ s₂ hf _ _ => hnew 0 s₂ hf)
        fun pg _ _ _ s₂ hf _ _ _ => hnew _ s₂ hf
  exact hc.yields r s' h

/-- Every state reached has its segments laid out. -/
theorem laid_reach (h : VmReach K m s) : Laid btPageSize btMmUserLimit m s := by
  induction h with
  | create hc => exact ⟨_, (create_shows hc m rfl).2.1, initialSegment_ok _⟩
  | step _ hop hrun ih => exact (space_step user_bounds ih _ hop).yields _ _ hrun

/-! ## The tiling, read off the list pointers

The list that a map shows is determined by the pointers, so that the result can be told without
it. -/

/-- What a map shows is what is stored under the names of its list. -/
theorem Shows.eq_map (h : Shows s m xs) : xs = (xs.map Prod.fst).map fun i => (i, s.seg i) := by
  rw [List.map_map]
  conv_lhs => rw [← List.map_id xs]
  refine List.map_congr_left fun x hx => ?_
  simp [h.seg x hx]

/-- A map shows one list only. -/
theorem Shows.unique {ys : List Entry} (h : Shows s m xs) (h' : Shows s m ys) : xs = ys := by
  have hcells : (xs.map fun x => Cell.list x.1) = ys.map fun y => Cell.list y.1 :=
    h.ring.fwd.unique h'.ring.fwd (by simp) (by simp)
  have hnames : xs.map Prod.fst = ys.map Prod.fst := by
    apply List.map_injective_iff.mpr fun _ _ h => Cell.list.inj h
    rw [List.map_map, List.map_map]
    exact hcells
  rw [h.eq_map, h'.eq_map, hnames]

/-- A ring of one segment. -/
theorem Shows.single {i : ℕ} (hn : s.links.next (.head m) = .list i)
    (hn' : s.links.next (.list i) = .head m) (hp : s.links.prev (.head m) = .list i)
    (hp' : s.links.prev (.list i) = .head m) (hi : i < s.fresh) : Shows s m [(i, s.seg i)] where
  ring := ⟨⟨hn, hn'⟩, ⟨hp, hp'⟩, by simp⟩
  seg x hx := by
    obtain rfl := List.mem_singleton.mp hx
    rfl
  lt x hx := by
    obtain rfl := List.mem_singleton.mp hx
    exact hi

/-- **The segments of a map tile the user addresses.** In every state reached from
`bt_vm_create` by any sequence of operations, whatever allocations failed, the
segment list is a well-formed ring whose segments are sorted by address, follow one
another without gaps from `BT_PAGE_SIZE` to `BT_MM_USERLIMIT`, have non-zero
page-multiple sizes, and no two neighbours are free; and every further operation
returns. -/
theorem address_space_tiled (h : VmReach K m s) :
    (∃ ids, Ring s.links (.head m) (ids.map .list) ∧
      ids.Pairwise (fun i j => (s.seg i).addr < (s.seg j).addr) ∧
      Tiles (fun i => (s.seg i).addr) (fun i => (s.seg i).size) btPageSize ids btMmUserLimit ∧
      (∀ i ∈ ids, 0 < (s.seg i).size ∧ (s.seg i).size % btPageSize = 0) ∧
      ids.IsChain fun i j => ¬ ((s.seg i).has btSegFree ∧ (s.seg j).has btSegFree)) ∧
    ∀ op : VmOp, op.Ok → ∃ r s', op.run K m s = some (r, s') := by
  obtain ⟨xs, hsh, hok⟩ := laid_reach h
  refine ⟨⟨xs.map Prod.fst, ?_, ?_, ?_, ?_, ?_⟩, fun op hop => ?_⟩
  · rw [List.map_map]
    exact hsh.ring
  · have ht := hok.tiles
    rw [hsh.eq_map, tiles_map] at ht
    refine ht.pairwise.imp_of_mem fun {i j} hi hj hij => ?_
    have := (ht.bounds hi).2.1
    simp only [Function.comp_apply] at hij this
    omega
  · have ht := hok.tiles
    rw [hsh.eq_map, tiles_map] at ht
    exact ht
  · intro i hi
    obtain ⟨x, hx, rfl⟩ := List.mem_map.mp hi
    rw [hsh.seg x hx]
    exact ⟨(hok.tiles.bounds hx).2.1, (hok.aligned x hx).2⟩
  · have hc := hok.apart
    rw [hsh.eq_map, List.isChain_map] at hc
    exact hc
  · obtain ⟨r, s', hrun, -⟩ := space_step (K := K) user_bounds ⟨xs, hsh, hok⟩ op hop
    exact ⟨r, s', hrun⟩

/-- A run: a map is created and two pages are allocated anywhere in it, which are its first two. -/
theorem address_space_tiled_two_pages : ∃ s₁ s, VmReach stockKernel 1 s₁ ∧
    (VmOp.allocate 0 5000 btVmAllocAnywhere).run stockKernel 1 s₁ = some ((.none, 0x1000), s) ∧
    ∃ ids, Ring s.links (.head 1) (ids.map .list) ∧
      Tiles (fun i => (s.seg i).addr) (fun i => (s.seg i).size) btPageSize ids btMmUserLimit := by
  have heval : ((do
      let c ← btVmCreate stockKernel
      let r ← (VmOp.allocate 0 5000 btVmAllocAnywhere).run stockKernel 1
      pure (c, r)) (bootMachine ⟨10, 10, 0x10000000, 0x10100000, 10⟩)).map Prod.fst =
      some (some 1, .none, 0x1000) := by decide +kernel
  obtain ⟨⟨_, s⟩, hrun, rfl⟩ := Option.map_eq_some_iff.mp heval
  obtain ⟨c, s₁, hc, hrun⟩ := Prog.bind_eq_some hrun
  obtain ⟨r, s₂, halloc, hend⟩ := Prog.bind_eq_some hrun
  cases hend
  have h₁ := VmReach.create hc
  have hop : (VmOp.allocate 0 5000 btVmAllocAnywhere).Ok := by
    unfold VmOp.Ok RangeOk
    decide
  obtain ⟨ids, hring, -, htiles, -⟩ := (address_space_tiled (VmReach.step h₁ hop halloc)).1
  exact ⟨s₁, _, h₁, halloc, ids, hring, htiles⟩

end BitThunder
