import BitThunder.Lib.Extent
import BitThunder.Vm.Space

/-!
# The size of a map

`map->size` is documented as the total size of the map's allocations. A ledger of
the allocations that were granted and not yet freed says what it should be.
`bt_vm_free` takes the size of whatever segment starts at the address off the
counter, also that of a segment `bt_vm_map_region` made, whose size was never
added.

* `map_size_wraps`: one mapping, freed, and the counter has wrapped;
* `map_size_accounted`: as long as `bt_vm_free` is not used on mapped regions, the
  counter is the sum of the ledger.

The ledger is kept by the results of calls alone and does not look at the map. `Accounted` joins it
to the list: the ledger is a permutation of the segments that hold memory of their own, and
`map->size` is the sum of their sizes. A carved segment does not hold memory yet, so that the
counter changes at one point of an allocation only, and cutting a list into pieces cuts the sum.

A segment that starts where a successful `bt_vm_free` was asked to free is the one that is freed,
because ranges of a layout do not share an address. If it was mapped rather than allocated, its size
goes off a counter to which it was never added.
-/

namespace BitThunder

variable {σ : Type} {K : Kernel σ} {s : Machine σ} {m lo hi : ℕ} {xs as bs : List Entry}
  {led : List Extent}

/-- The ledger after an operation with this result: granted allocations are added,
a successful free removes what starts at its address. -/
def VmOp.ledger (r : BtError × ℕ) (led : List Extent) : VmOp → List Extent
  | .allocate _ size _ => if r.1 = .none then (r.2, btPageAlign size) :: led else led
  | .free addr => if r.1 = .none then led.filter (fun e => e.1 ≠ btPageTrunc addr) else led
  | _ => led

/-- The runs of operations that pass a check, with their ledgers. -/
inductive LedgerReach (K : Kernel σ) (m : ℕ) (ok : Machine σ → VmOp → Prop) :
    Machine σ → List Extent → Prop where
  | create {s₀ s : Machine σ} : btVmCreate K s₀ = some (some m, s) → LedgerReach K m ok s []
  | step {s s' : Machine σ} {led : List Extent} {op : VmOp} {r : BtError × ℕ} :
      LedgerReach K m ok s led → ok s op → op.run K m s = some (r, s') →
      LedgerReach K m ok s' (op.ledger r led)

/-- A well-formed request that is not a `bt_vm_free` of a mapped region: no segment
that starts at the address to be freed carries `BT_SEG_MAPPED`. -/
def FreesAllocated (m : ℕ) (s : Machine σ) (op : VmOp) : Prop :=
  op.Ok ∧ ∀ addr, op = .free addr → ∀ xs, Shows s m xs → ∀ x ∈ xs,
    x.2.addr = btPageTrunc addr → ¬ x.2.has btSegMapped

/-- A segment that holds memory of its own. -/
def holdsMemory (x : Entry) : Bool := !x.2.has btSegFree && !x.2.has btSegMapped

/-- The ranges of the segments that hold memory of their own. -/
def allocatedOf (xs : List Entry) : List Extent :=
  (xs.filter holdsMemory).map fun x => (x.2.addr, x.2.size)

theorem holdsMemory_of_free (x : Entry) (h : x.2.has btSegFree) : holdsMemory x = false := by
  simp [holdsMemory, h]

/-- What is allocated in a list is allocated in its parts. -/
theorem allocatedOf_append : allocatedOf (as ++ bs) = allocatedOf as ++ allocatedOf bs := by
  simp [allocatedOf]

theorem allocatedOf_cons_of_holds {x : Entry} (h : holdsMemory x) :
    allocatedOf (x :: xs) = (x.2.addr, x.2.size) :: allocatedOf xs := by
  simp [allocatedOf, h]

theorem allocatedOf_cons_of_not {x : Entry} (h : holdsMemory x = false) :
    allocatedOf (x :: xs) = allocatedOf xs := by
  simp [allocatedOf, h]

/-- What a piece in the middle adds. -/
theorem allocatedOf_middle {x : Entry} (h : holdsMemory x) :
    (allocatedOf (as ++ x :: bs)).Perm ((x.2.addr, x.2.size) :: allocatedOf (as ++ bs)) := by
  rw [allocatedOf_append, allocatedOf_cons_of_holds h, allocatedOf_append]
  exact List.perm_middle

theorem allocatedOf_middle_of_not {x : Entry} (h : holdsMemory x = false) :
    allocatedOf (as ++ x :: bs) = allocatedOf (as ++ bs) := by
  rw [allocatedOf_append, allocatedOf_cons_of_not h, ← allocatedOf_append]

/-- To carve a segment out of a free one allocates nothing yet. -/
theorem Carve.allocatedOf {v : Segment} {a n j p : ℕ} (hc : Carve xs v a n as j p bs) :
    allocatedOf (as ++ bs) = allocatedOf xs := by
  simp only [BitThunder.allocatedOf, hc.filter holdsMemory_of_free]

/-- A segment that is freed takes its memory out of the sum, and nothing else. -/
theorem allocatedOf_freeAt {i : ℕ} {v : Segment} :
    allocatedOf (freeAt as i v bs) = allocatedOf (as ++ bs) := by
  simp only [allocatedOf, filter_freeAt holdsMemory_of_free]

/-- A layout has no room for more than the interval. -/
theorem SegmentsOk.totalSize_allocatedOf (hb : Bounds lo hi) (hok : SegmentsOk lo hi xs) :
    totalSize (allocatedOf xs) < 2 ^ 32 := by
  have hsum : ∀ {lo : ℕ} {xs : List Entry}, Tiles (fun x : Entry => x.2.addr) (fun x => x.2.size)
      lo xs hi → lo + totalSize (allocatedOf xs) ≤ hi := by
    intro lo xs ht
    induction xs generalizing lo with
    | nil =>
      rw [tiles_nil] at ht
      simp [allocatedOf, totalSize, ht]
    | cons x xs ih =>
      have := ih ht.2.2
      by_cases hx : holdsMemory x
      · rw [allocatedOf_cons_of_holds hx, totalSize_cons]
        simp only at this ⊢
        omega
      · rw [allocatedOf_cons_of_not (by simpa using hx)]
        omega
  have h₁ := hsum hok.tiles
  have h₂ := hb.pos
  have h₃ := hb.le
  omega

/-! ## The invariant -/

/-- The counter is the sum of the ledger, and the ledger lists the segments that
hold memory of their own. -/
def Accounted (lo hi m : ℕ) (s : Machine σ) (led : List Extent) : Prop :=
  ∃ xs, Shows s m xs ∧ SegmentsOk lo hi xs ∧ led.Perm (allocatedOf xs) ∧
    (s.map m).size = totalSize led

theorem totalSize_perm {es fs : List Extent} (h : es.Perm fs) : totalSize es = totalSize fs :=
  (h.map Prod.snd).sum_eq

theorem holdsMemory_rwx {j a p n : ℕ} : holdsMemory (j, ⟨a, p, n, segRwx⟩) := by
  simp only [holdsMemory, Segment.has]
  decide

/-- An allocation adds its bytes to the map, if it succeeds. -/
theorem allocate_accounted {addr size flags : ℕ} (hb : Bounds lo hi)
    (hacc : Accounted lo hi m s led) (hop : (VmOp.allocate addr size flags).Ok) :
    Prog.Ensures (doAllocate K m addr size flags) s fun r s' =>
      Accounted lo hi m s' ((VmOp.allocate addr size flags).ledger r led) := by
  obtain ⟨xs, h, hok, hperm, hsz⟩ := hacc
  have hrest : ∀ {v : Segment} {a j p : ℕ} {as bs : List Entry},
      Obtained xs v a (allocSize addr size flags) as j p bs →
      freeAt as j ⟨a, p, allocSize addr size flags, segRwx⟩ bs = xs := by
    intro v a j p as bs hob
    obtain ⟨x, hx, rfl, hf⟩ := hob.carve.mem
    refine hob.carve.restore hok.apart (hok.flags x hx hf) (hok.fits hb hx).2.2.2 ?_
    rw [allocSize_of_ok hop]
    exact btPageAlign_lt size
  refine doAllocate_rule h hop.1 ?_ ?_ ?_ ?_ ?_
  · intro _
    exact ⟨xs, h, hok, hperm, hsz⟩
  · intro xs' s' _ _ hu e
    rw [hu.eq hok hb] at e
    exact ⟨xs, e.shows, hok, hperm, by rw [e.frame.map]; exact hsz⟩
  · intro v a as j p bs s₁ _ _ hob hat e hz s' e'
    rw [hrest hob] at e'
    refine ⟨xs, e'.shows, hok, hperm, ?_⟩
    rw [e'.frame.map, Machine.pageCall_map, e.frame.map]
    exact hsz
  · intro v a as j p bs s₁ _ _ hob hat e hz e' t hrun he hframe s' e''
    rw [hrest hob] at e''
    refine ⟨xs, e''.shows, hok, hperm, ?_⟩
    rw [e''.frame.map, Machine.pageReturn_map, hframe.map, Machine.pageCall_map, e.frame.map]
    exact hsz
  · intro v a as j p bs s₁ _ _ hob hat e hz t hrun hframe
    have hsize : (t.map m).size = totalSize led := by
      rw [hframe.map, Machine.pageCall_map, e.frame.map]
      exact hsz
    have ht : Shows t m (as ++ (j, ⟨a, p, allocSize addr size flags, segRwx⟩) :: bs) :=
      hframe.shows (e.shows.congr rfl (fun _ _ => rfl) (le_refl _))
    have hfit := alloc_fits hop hb hok hob hat
    have hok' := hfit.hold (j := j)
      (w := ⟨a, (K.pageAlloc (allocSize addr size flags) s₁.env).1, allocSize addr size flags,
        segRwx⟩)
      rfl rfl not_has_free_rwx not_has_shared_rwx
    have hnew : ((a, btPageAlign size) :: led).Perm (allocatedOf (as ++ (j, ⟨a,
        (K.pageAlloc (allocSize addr size flags) s₁.env).1, allocSize addr size flags, segRwx⟩) ::
        bs)) := by
      rw [← hob.carve.allocatedOf] at hperm
      rw [← allocSize_of_ok hop]
      exact (hperm.cons _).trans (allocatedOf_middle holdsMemory_rwx).symm
    refine ⟨_, (ht.setSeg ⟨a, (K.pageAlloc (allocSize addr size flags) s₁.env).1, _, segRwx⟩).congr
      rfl (fun _ _ => rfl) (le_refl _), hok', hnew, ?_⟩
    have hlt := hok'.totalSize_allocatedOf hb
    rw [← totalSize_perm hnew, totalSize_cons] at hlt
    have hsum : wordAdd (totalSize led) (btPageAlign size) = totalSize led + btPageAlign size :=
      wordAdd_of_lt (by simp only at hlt; omega)
    simp only [VmOp.ledger, if_true, Machine.allocated_map, Function.update_self, totalSize_cons,
      hsize, allocSize_of_ok hop, hsum]
    exact Nat.add_comm _ _

/-- Ranges of a layout that start at the same address are the same. -/
theorem SegmentsOk.not_mem_addr {i : ℕ} {v : Segment} (hok : SegmentsOk lo hi (as ++ (i, v) :: bs))
    {e : Extent} (he : e ∈ allocatedOf (as ++ bs)) : e.1 ≠ v.addr := by
  obtain ⟨x, hx, rfl⟩ := List.mem_map.mp he
  have hx := (List.mem_filter.mp hx).1
  have hp := hok.tiles.pairwise
  rw [List.pairwise_append] at hp
  obtain ⟨-, hp₂, hp₃⟩ := hp
  have hpos : 0 < v.size := hok.mem_middle.2.2.1
  simp only
  rcases List.mem_append.mp hx with hx | hx
  · have h₁ := hp₃ x hx (i, v) (List.mem_cons_self ..)
    have h₂ := (hok.tiles.bounds (List.mem_append_left _ hx)).2.1
    simp only at h₁ h₂
    omega
  · have h₁ := (List.pairwise_cons.mp hp₂).1 x hx
    simp only at h₁
    omega

/-- A segment that was allocated takes its bytes with it. -/
theorem free_accounted {addr : ℕ} (hb : Bounds lo hi) (hacc : Accounted lo hi m s led)
    (hop : FreesAllocated m s (.free addr)) :
    Prog.Ensures (doFree K m addr) s fun e s' =>
      Accounted lo hi m s' ((VmOp.free addr).ledger (e, 0) led) := by
  obtain ⟨xs, h, hok, hperm, hsz⟩ := hacc
  refine doFree_rule h hok.unshared ?_ ?_
  · intro s' e
    exact ⟨xs, e.shows, hok, hperm, by rw [e.frame.map]; exact hsz⟩
  · intro as i v bs s₁ e t hxs hva hf e₁ hrun hframe s' e'
    subst hxs
    have hm : ¬ v.has btSegMapped := hop.2 addr rfl _ h (i, v) (by simp) hva
    have hhold : holdsMemory (i, v) := by simp [holdsMemory, hf, hm]
    -- the ledger is the freed range and the ranges of the other segments
    have hled : led.Perm ((v.addr, v.size) :: allocatedOf (as ++ bs)) :=
      hperm.trans (allocatedOf_middle hhold)
    have hleft : (led.filter fun e => e.1 ≠ btPageTrunc addr).Perm (allocatedOf (as ++ bs)) := by
      refine (hled.filter _).trans (List.Perm.of_eq ?_)
      rw [List.filter_cons_of_neg (by simp [hva]), List.filter_eq_self]
      intro e he
      simpa [hva] using hok.not_mem_addr he
    have hlt := hok.totalSize_allocatedOf hb
    have hsum : totalSize led = v.size + totalSize (allocatedOf (as ++ bs)) := by
      rw [totalSize_perm hled, totalSize_cons]
    rw [← totalSize_perm hperm] at hlt
    refine ⟨_, e'.shows, hok.freed hb, ?_, ?_⟩
    · rw [allocatedOf_freeAt]
      exact hleft
    · rw [e'.frame.map]
      simp only [VmOp.ledger, if_true, Machine.setMap_map, Function.update_self]
      rw [totalSize_perm hleft, hsz, wordSub_of_le (by omega) hlt]
      omega

theorem unmap_accounted {va : ℕ} (hb : Bounds lo hi) (hacc : Accounted lo hi m s led) :
    Prog.Ensures (btVmUnmapRegion K m va) s fun _ s' => Accounted lo hi m s' led := by
  obtain ⟨xs, h, hok, hperm, hsz⟩ := hacc
  refine btVmUnmapRegion_rule h hok.unshared ?_ ?_
  · intro s' _ e
    exact ⟨xs, e.shows, hok, hperm, by rw [e.frame.map]; exact hsz⟩
  · intro as i v bs s₁ e t hxs _ hm e₁ hrun hframe s' e'
    subst hxs
    refine ⟨_, e'.shows, hok.freed hb, ?_, ?_⟩
    · rw [allocatedOf_freeAt, ← allocatedOf_middle_of_not (x := (i, v)) (by simp [holdsMemory, hm])]
      exact hperm
    · rw [e'.frame.map, hframe.map, e₁.frame.map]
      exact hsz

theorem has_mapped_type {a p n type : ℕ} :
    Segment.has ⟨a, p, n, typeToSegflags type ||| btSegMapped⟩ btSegMapped := by
  unfold typeToSegflags
  split <;> simp only [Segment.has] <;> decide

theorem map_accounted {pa va size type : ℕ} (hb : Bounds lo hi) (hacc : Accounted lo hi m s led)
    (hop : (VmOp.mapRegion pa va size type).Ok) :
    Prog.Ensures (btVmMapRegion K m pa va size type) s fun _ s' => Accounted lo hi m s' led := by
  obtain ⟨xs, h, hok, hperm, hsz⟩ := hacc
  refine btVmMapRegion_rule h ?_ ?_ ?_
  · intro xs' s₁ hu _ e s' e'
    rw [hu.eq hok hb] at e e'
    refine ⟨xs, e'.shows, hok, hperm, ?_⟩
    rw [e'.frame.map, Machine.setMapSeg_map, e.frame.map]
    exact hsz
  · intro v a as j p bs f s₁ hob hat e _ s' e'
    have hpa : SegmentsOk lo hi (as ++ (j, ⟨a, pa, btPageAlign size, 0⟩) :: bs) :=
      (region_fits hop hb hok hob hat).hold rfl rfl not_has_free_zero not_has_shared_zero
    refine ⟨_, e'.shows, hpa.freeAt hb, ?_, ?_⟩
    · rw [allocatedOf_freeAt, hob.carve.allocatedOf]
      exact hperm
    · rw [e'.frame.map, Machine.setMapSeg_map, e.frame.map]
      exact hsz
  · intro v a as j p bs f s₁ hob hat e _ s₂ e' t _ e₂ hrun hframe
    refine ⟨_, (hframe.shows e₂.shows).congr rfl (fun _ _ => rfl) (le_refl _),
      (region_fits hop hb hok hob hat).hold rfl rfl not_has_free_type not_has_shared_type.2, ?_, ?_⟩
    · rw [allocatedOf_middle_of_not (by simp [holdsMemory, has_mapped_type]),
        hob.carve.allocatedOf]
      exact hperm
    · rw [Machine.emit_map, hframe.map, e₂.frame.map, Machine.setMapSeg_map, e.frame.map]
      exact hsz

theorem attribute_accounted {addr attr : ℕ} (hacc : Accounted lo hi m s led) :
    Prog.Ensures (doAttribute K m addr attr) s fun _ s' => Accounted lo hi m s' led := by
  obtain ⟨xs, h, hok, hperm, hsz⟩ := hacc
  refine doAttribute_rule h hok.unshared ?_ ?_ ?_
  · intro _
    exact ⟨xs, h, hok, hperm, hsz⟩
  · intro as i v bs type s₁ e t _ _ _ _ e₁ hrun _ hframe
    refine ⟨xs, hframe.shows e₁.shows, hok, hperm, ?_⟩
    rw [hframe.map, e₁.frame.map]
    exact hsz
  · intro as i v bs type s₁ t hxs hf hm _ e₁ hrun hframe
    subst hxs
    obtain ⟨h₁, h₂, h₃⟩ := not_has_of_lt_eight (attrFlags_lt attr) (a := v.addr) (p := v.phys)
      (n := v.size)
    refine ⟨_, (hframe.shows e₁.shows).setSeg _, hok.hold rfl rfl h₁ h₂, ?_, ?_⟩
    · have hold : holdsMemory (i, v) := by simp [holdsMemory, hf, hm]
      have hnew : holdsMemory (i, { v with flags := attrFlags attr }) := by
        simp [holdsMemory, h₁, h₃]
      exact hperm.trans ((allocatedOf_middle hold).trans (allocatedOf_middle hnew).symm)
    · rw [Machine.setSeg_map, hframe.map, e₁.frame.map]
      exact hsz

/-- One operation keeps the account. -/
theorem account_step (hb : Bounds lo hi) (hacc : Accounted lo hi m s led) (op : VmOp)
    (hop : FreesAllocated m s op) :
    Prog.Ensures (op.run K m) s fun r s' => Accounted lo hi m s' (op.ledger r led) := by
  cases op with
  | mapRegion pa va size type =>
    rw [VmOp.run, Prog.ensures_bind]
    exact (map_accounted hb hacc hop.1).mono fun _ _ h => Prog.ensures_pure.mpr h
  | unmapRegion va =>
    rw [VmOp.run, Prog.ensures_bind]
    exact (unmap_accounted hb hacc).mono fun _ _ h => Prog.ensures_pure.mpr h
  | allocate addr size flags => exact allocate_accounted hb hacc hop.1
  | free addr =>
    rw [VmOp.run, Prog.ensures_bind]
    exact (free_accounted hb hacc hop).mono fun _ _ h => Prog.ensures_pure.mpr h
  | changeAttribute addr attr =>
    rw [VmOp.run, Prog.ensures_bind]
    exact (attribute_accounted hacc).mono fun _ _ h => Prog.ensures_pure.mpr h

/-- The ledger is right in every state that is reached. -/
theorem accounted_reach (h : LedgerReach K m (FreesAllocated m) s led) :
    Accounted btPageSize btMmUserLimit m s led := by
  induction h with
  | create hc =>
    obtain ⟨-, hsh, hsz, -⟩ := create_shows hc m rfl
    refine ⟨_, hsh, initialSegment_ok _, ?_, hsz⟩
    rw [allocatedOf_cons_of_not (holdsMemory_of_free _ initialSegment_free)]
    exact List.Perm.refl _
  | step _ hop hrun ih => exact (account_step user_bounds ih _ hop).yields _ _ hrun

/-- **The size of a map is the sum of its allocations**, in every state of every run
in which `bt_vm_free` is not used on a mapped region: the ledger lists the segments
that hold memory of their own, `map->size` is its sum, there is no wrap-around, and
the next operation returns. -/
theorem map_size_accounted (h : LedgerReach K m (FreesAllocated m) s led) :
    (s.map m).size = totalSize led ∧ totalSize led < 2 ^ 32 ∧
      (∃ xs, Shows s m xs ∧ led.Perm (allocatedOf xs)) ∧
      (∀ e ∈ led, e.2 ≤ (s.map m).size) ∧
      ∀ op, FreesAllocated m s op → ∃ r s', op.run K m s = some (r, s') := by
  have hacc := accounted_reach h
  obtain ⟨xs, hsh, hok, hperm, hsz⟩ := hacc
  have hlt := hok.totalSize_allocatedOf user_bounds
  rw [← totalSize_perm hperm] at hlt
  refine ⟨hsz, hlt, ⟨xs, hsh, hperm⟩, fun e he => ?_, fun op hop => ?_⟩
  · rw [hsz]
    exact List.single_le_sum (fun _ _ => Nat.zero_le _) _ (List.mem_map_of_mem he)
  · obtain ⟨r, s', hrun, -⟩ := account_step (K := K) user_bounds ⟨xs, hsh, hok, hperm, hsz⟩ op hop
    exact ⟨r, s', hrun⟩

/-- What the ledger names may be freed. -/
theorem LedgerReach.frees {a n : ℕ} (h : LedgerReach K m (FreesAllocated m) s led)
    (hmem : (a, n) ∈ led) (hpage : btPageTrunc a = a) (hop : (VmOp.free a).Ok) :
    FreesAllocated m s (.free a) := by
  obtain ⟨xs, hsh, hok, hperm, -⟩ := accounted_reach h
  refine ⟨hop, fun addr haddr xs' hsh' x hx hxa hmapped => ?_⟩
  obtain rfl := hsh.unique hsh'
  obtain rfl := VmOp.free.inj haddr
  obtain ⟨x', hx', hrange⟩ := List.mem_map.mp (hperm.mem_iff.mp hmem)
  obtain ⟨hx', hholds⟩ := List.mem_filter.mp hx'
  have hbase : x'.2.addr = a := congrArg Prod.fst hrange
  have hpos (y : Entry) (hy : y ∈ xs) : y.2.addr < y.2.addr + y.2.size :=
    Nat.lt_add_of_pos_right (hok.tiles.bounds hy).2.1
  have hsame : x = x' := by
    refine hok.tiles.eq_of_mem hx hx' ⟨le_refl _, hpos x hx⟩ ⟨?_, ?_⟩
    · rw [hxa, hpage, hbase]
    · rw [hxa, hpage, ← hbase]
      exact hpos x' hx'
  subst hsame
  simp [holdsMemory, hmapped] at hholds

/-- A run: a map is created, two pages and then another one are allocated anywhere in it, and the
last one is freed. -/
theorem map_size_accounted_two_pages : ∃ s s' : Machine Stock,
    LedgerReach stockKernel 1 (FreesAllocated 1) s [(0x3000, 0x1000), (0x1000, 0x2000)] ∧
    (VmOp.free 0x3000).run stockKernel 1 s = some ((.none, 0), s') ∧
    LedgerReach stockKernel 1 (FreesAllocated 1) s' [(0x1000, 0x2000)] ∧
    (s'.map 1).size = totalSize [(0x1000, 0x2000)] := by
  have heval : ((do
      let c ← btVmCreate stockKernel
      let r ← (VmOp.allocate 0 5000 btVmAllocAnywhere).run stockKernel 1
      let q ← (VmOp.allocate 0 4096 btVmAllocAnywhere).run stockKernel 1
      let e ← (VmOp.free 0x3000).run stockKernel 1
      pure (c, r, q, e)) (bootMachine ⟨10, 10, 0x10000000, 0x10100000, 10⟩)).map Prod.fst =
      some (some 1, (.none, 0x1000), (.none, 0x3000), .none, 0) := by decide +kernel
  obtain ⟨⟨_, s⟩, hrun, rfl⟩ := Option.map_eq_some_iff.mp heval
  obtain ⟨c, s₁, hc, hrun⟩ := Prog.bind_eq_some hrun
  obtain ⟨r, s₂, hfirst, hrun⟩ := Prog.bind_eq_some hrun
  obtain ⟨q, s₃, hsecond, hrun⟩ := Prog.bind_eq_some hrun
  obtain ⟨e, s₄, hfree, hend⟩ := Prog.bind_eq_some hrun
  cases hend
  have hop (size : ℕ) (hsize : size = 5000 ∨ size = 4096) (t : Machine Stock) :
      FreesAllocated 1 t (.allocate 0 size btVmAllocAnywhere) := by
    refine ⟨?_, fun _ h => by cases h⟩
    unfold VmOp.Ok RangeOk
    rcases hsize with rfl | rfl <;> decide
  have h₁ : LedgerReach stockKernel 1 (FreesAllocated 1) s₁ [] := .create hc
  have h₂ := h₁.step (hop 5000 (.inl rfl) s₁) hfirst
  have h₃ := h₂.step (hop 4096 (.inr rfl) s₂) hsecond
  have hfrees := h₃.frees List.mem_cons_self (by decide) (by unfold VmOp.Ok; decide)
  have h₄ := h₃.step hfrees hfree
  exact ⟨s₃, _, h₃, hfree, h₄, (map_size_accounted h₄).1⟩

/-- One page is mapped and then freed with `bt_vm_free`: nothing was ever allocated,
and `map->size` is `2 ^ 32 - 4096`. -/
theorem map_size_wraps : ∃ s, LedgerReach stockKernel 1 (fun _ op => op.Ok) s [] ∧
    (s.map 1).size = 2 ^ 32 - 4096 := by
  have heval : (((do
      let r ← btVmCreate stockKernel
      let _ ← (VmOp.mapRegion 0x20000000 0 4096 btPageRead).run stockKernel 1
      let _ ← (VmOp.free 4096).run stockKernel 1
      Prog.read fun s => (r, (s.map 1).size)) : Prog (Machine Stock) (Option ℕ × ℕ))
      (bootMachine ⟨10, 10, 0x10000000, 0x10100000, 10⟩)).map Prod.fst =
      some (some 1, 2 ^ 32 - 4096) := by decide +kernel
  obtain ⟨⟨_, s⟩, hrun, rfl⟩ := Option.map_eq_some_iff.mp heval
  obtain ⟨r, s₁, hc, hrun⟩ := Prog.bind_eq_some hrun
  obtain ⟨r₂, s₂, hmap, hrun⟩ := Prog.bind_eq_some hrun
  obtain ⟨r₃, s₃, hfree, hrun⟩ := Prog.bind_eq_some hrun
  have hres : (r, (s₃.map 1).size) = (some 1, 2 ^ 32 - 4096) :=
    congrArg Prod.fst (Option.some.inj hrun)
  obtain ⟨rfl, hsize⟩ := Prod.mk.inj hres
  have hok : (VmOp.mapRegion 0x20000000 0 4096 btPageRead).Ok := by
    unfold VmOp.Ok RangeOk
    decide
  have hokFree : (VmOp.free 4096).Ok := by
    unfold VmOp.Ok
    decide
  have h₁ : LedgerReach stockKernel 1 (fun _ op => op.Ok) s₁ [] := .create hc
  have h₂ := LedgerReach.step h₁ hok hmap
  have h₃ := LedgerReach.step h₂ hokFree hfree
  have hled : (VmOp.free 4096).ledger r₃
      ((VmOp.mapRegion 0x20000000 0 4096 btPageRead).ledger r₂ []) =
      [] := by
    simp only [VmOp.ledger]
    split <;> rfl
  rw [hled] at h₃
  exact ⟨s₃, h₃, hsize⟩

end BitThunder
