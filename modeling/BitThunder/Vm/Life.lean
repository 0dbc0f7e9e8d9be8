import BitThunder.Vm.Account
import BitThunder.Vm.Agree

/-!
# What an address space costs

`bt_vm_create` takes a heap block for the map, a mutex, a heap block for the first segment
and the pages of a directory; the operations take blocks, pages and page tables; and
`bt_vm_destroy` is to give all of it back. `balance` is what a log says about each account. At
any time between the two calls it is what the segment list and the directory say (`Owns`), so
`bt_vm_destroy`, which walks the list, finds everything but the mutex.

* `destroyFrom_spec`: what the loop over the segments gives back;
* `Owns.destroy`: what is left behind;
* `life_neutral_iff`: when that is nothing;
* `life_leaks_mutex`: a life in which it is something.

The invariant is an equation, so that both directions of the question can be read off it. Every edit
of the list changes the balance of the heap by as much as it changes the length of the list; a
granted page table is in the directory from then on; and an allocation that fails gives its pages
back in the same call. `Paid` is the part of this about the directory, `Owns` the whole.

`bt_vm_destroy` gives back what it finds. The loop visits the segments one by one, and `Remaining`
says what is still to come while the first of them is deleted. `bt_mmu_terminate` translates the
address of a page table before it gives it back, although the cache handed it out as it is. So what
is left over is the mutex, which nothing destroys, and the page tables if the two kinds of addresses
differ; when that is nothing is then a question about `leftover`.

The condition has a branch for a map without a mutex. A call that waits for a mutex that was never
created does not come back, so that in such a life only operations that take no lock of the map can
be made.
-/

namespace BitThunder

variable {σ : Type} {K : Kernel σ} {inUse : σ → ℕ → Prop} {s t : Machine σ} {m hdl : ℕ}
  {xs as bs : List Entry}

/-! ## Accounts

There is one account for each kind of resource, and one for each page table. Every event in the log
changes them by its own amount. -/

/-- What is counted. -/
inductive Account : Type where
  /-- heap blocks -/
  | block
  /-- mutexes -/
  | mutex
  /-- bytes of physical memory, in whole pages -/
  | memory
  /-- the page table at this address, from `g_ptCache` -/
  | table (p : ℕ)
  /-- page tables handed out, whether they came back or not -/
  | grant
  deriving DecidableEq

/-- What a call does to the number of live mutexes. No call gives one back. -/
def Event.mutexes : Event → ℤ
  | .mutexCreate h => if h = 0 then 0 else 1
  | _ => 0

/-- What a call does to the `used_size` of the page pool. -/
def Event.memory : Event → ℤ
  | .pageAlloc _ _ n => btPageAlign n
  | .pageFree _ _ n => -btPageAlign n
  | _ => 0

/-- Whether a call takes the page table `p` from the cache, or gives it back. -/
def Event.tables (p : ℕ) : Event → ℤ
  | .ptAlloc q => if q = p then 1 else 0
  | .ptFree q => if q = p then -1 else 0
  | _ => 0

/-- Whether a call takes a page table from the cache. -/
def Event.grants : Event → ℤ
  | .ptAlloc _ => 1
  | _ => 0

/-- What a call does to each account. -/
def Event.change (e : Event) : Account → ℤ
  | .block => e.heap
  | .mutex => e.mutexes
  | .memory => e.memory
  | .table p => e.tables p
  | .grant => e.grants

/-- The account of a log. -/
def balance (log : List Event) (r : Account) : ℤ := (log.map fun e => e.change r).sum

@[simp] theorem balance_cons {e : Event} {log : List Event} {r : Account} :
    balance (e :: log) r = e.change r + balance log r := by
  simp [balance]

theorem balance_append {evs log : List Event} {r : Account} :
    balance (evs ++ log) r = balance evs r + balance log r := by
  simp [balance]

/-- Releasing a lock costs nothing. -/
theorem balance_unlock {x : Mutex} (log : List Event) :
    balance (.unlock x :: log) = balance log := by
  funext r
  rw [balance_cons]
  cases r <;> exact zero_add _

/-- An edit of the list pays for the blocks it adds. -/
theorem Edit.balance {ys : List Entry} {s' : Machine σ} (e : Edit K m xs s ys s') :
    BitThunder.balance s'.log = BitThunder.balance s.log +
      Pi.single .block ((ys.length : ℤ) - xs.length) := by
  funext r
  rw [Pi.add_apply]
  cases r with
  | block =>
    have h : BitThunder.balance s'.log .block + xs.length =
        BitThunder.balance s.log .block + ys.length := e.heap
    rw [Pi.single_eq_same]
    omega
  | mutex =>
    rw [Pi.single_eq_of_ne (by decide), add_zero]
    exact e.frame.sum_log _ fun e hq => by cases e <;> first | rfl | exact absurd hq id
  | memory =>
    rw [Pi.single_eq_of_ne (by decide), add_zero]
    exact e.frame.sum_log _ fun e hq => by cases e <;> first | rfl | exact absurd hq id
  | table p =>
    rw [Pi.single_eq_of_ne (by simp), add_zero]
    exact e.frame.sum_log _ fun e hq => by cases e <;> first | rfl | exact absurd hq id
  | grant =>
    rw [Pi.single_eq_of_ne (by decide), add_zero]
    exact e.frame.sum_log _ fun e hq => by cases e <;> first | rfl | exact absurd hq id

/-- What taking these page tables does. -/
def tableCost (ts : List ℕ) : Account → ℤ
  | .table p => ts.count p
  | .grant => ts.length
  | _ => 0

theorem tableCost_append {ts us : List ℕ} : tableCost (ts ++ us) = tableCost ts + tableCost us := by
  funext r
  cases r <;> simp [tableCost]

theorem tableCost_perm {ts us : List ℕ} (h : ts.Perm us) : tableCost ts = tableCost us := by
  funext r
  cases r <;> simp [tableCost, h.count_eq, h.length_eq]

/-- A run of `bt_mmu_map` pays for the tables it is given. -/
theorem TableFrame.balance (h : TableFrame K s t) {ts : List ℕ}
    (hts : tablesTaken t.log = ts ++ tablesTaken s.log) :
    BitThunder.balance t.log = BitThunder.balance s.log + tableCost ts := by
  obtain ⟨evs, hlog, hq⟩ := h.log
  have hown : ∀ evs : List Event, (∀ e ∈ evs, e.IsTable) →
      BitThunder.balance evs = tableCost (tablesTaken evs) := by
    intro evs hq
    induction evs with
    | nil =>
      funext r
      cases r <;> rfl
    | cons e evs ih =>
      have ih := ih fun e' he' => hq e' (List.mem_cons_of_mem _ he')
      have he := hq e List.mem_cons_self
      funext r
      rw [balance_cons, ih]
      cases e with
      | ptAlloc p =>
        change _ = tableCost ([p] ++ tablesTaken evs) r
        rw [tableCost_append, Pi.add_apply]
        cases r <;> simp [Event.change, Event.heap, Event.mutexes, Event.memory, Event.tables,
          Event.grants, tableCost, List.count_singleton]
      | ptRefused k => cases r <;> exact zero_add _
      | _ => exact absurd he id
  have hsplit : tablesTaken t.log = tablesTaken evs ++ tablesTaken s.log := by
    rw [hlog, tablesTaken, tablesTaken, tablesTaken, List.filterMap_append]
  obtain rfl := List.append_cancel_right (hsplit.symm.trans hts)
  funext r
  rw [hlog, balance_append, hown evs hq, Pi.add_apply, add_comm]

/-! ## The tables of the directory

The page tables that were paid for are those that the directory has. -/

/-- The directory is in order, and the account is `c` and the tables of the directory. -/
structure Paid (K : Kernel σ) (inUse : σ → ℕ → Prop) (pgd : ℕ) (c : Account → ℤ) (s : Machine σ) :
    Prop where
  /-- the user part of the directory is in order -/
  dir : DirOk K inUse 0xC00 pgd s
  /-- what has been spent is this, and the tables -/
  cost : balance s.log = c + tableCost (s.dirTables K 0xC00 pgd)

namespace Paid

variable {pgd : ℕ} {c d : Account → ℤ} {s' : Machine σ}

/-- What does not touch directories. -/
theorem keep (h : Paid K inUse pgd c s) (hd : s'.dir = s.dir)
    (hu : ∀ p, inUse s.env p → inUse s'.env p) (hc : balance s'.log = balance s.log + d) :
    Paid K inUse pgd (c + d) s' where
  dir := h.dir.congr (fun i _ => by rw [hd]) hu
  cost := by
    have htables : s'.dirTables K 0xC00 pgd = s.dirTables K 0xC00 pgd := by
      unfold Machine.dirTables Machine.tableAt
      rw [hd]
    rw [hc, h.cost, htables, add_right_comm]

theorem edit {ys : List Entry} (h : Paid K inUse pgd c s) (kept : TablesKept K inUse)
    (e : Edit K m xs s ys s') :
    Paid K inUse pgd (c + Pi.single .block ((ys.length : ℤ) - xs.length)) s' :=
  h.keep e.frame.dir (fun _ hp => kept.heap e.frame.env hp) e.balance

/-- A run of `bt_mmu_map` on user addresses puts every table it is given into the directory. -/
theorem run {pa va size type : ℕ} {r : ℤ} (h : Paid K inUse (getPgd hdl) c s)
    (law : TableLaw K inUse) (hrun : btMmuMap K hdl pa va size type s = some (r, t))
    (hf : TableFrame K s t) (huser : va + size ≤ btMmUserLimit) :
    Paid K inUse (getPgd hdl) c t := by
  have hg := (btMmuMap_grows law pa type h.dir huser).yields _ _ hrun
  obtain ⟨ts, hperm, hts⟩ := hg.tables
  refine ⟨hg.ok, ?_⟩
  rw [hf.balance hts, h.cost, tableCost_perm hperm, tableCost_append, add_assoc,
    add_comm (tableCost ts)]

theorem call (h : Paid K inUse pgd c s) (kept : TablesKept K inUse) (o : Owner) (n : ℕ) :
    Paid K inUse pgd (c + Pi.single .memory
      (if (K.pageAlloc n s.env).1 = 0 then 0 else (btPageAlign n : ℤ))) (s.pageCall K o n) := by
  refine h.keep rfl (fun _ hp => kept.pageAlloc _ _ _ hp) ?_
  funext r
  rw [Machine.pageCall_log, balance_cons, Pi.add_apply, add_comm]
  split
  · cases r <;> rfl
  · cases r <;> rfl

theorem ret (h : Paid K inUse pgd c s) (kept : TablesKept K inUse) (o : Owner) (pa n : ℕ) :
    Paid K inUse pgd (c + Pi.single .memory (-(btPageAlign n : ℤ))) (s.pageReturn K o pa n) := by
  refine h.keep rfl (fun _ hp => kept.pageFree _ _ _ _ hp) ?_
  funext r
  rw [Machine.pageReturn_log, balance_cons, Pi.add_apply, add_comm]
  cases r <;> rfl

/-- The state changed where no account looks. -/
theorem same (h : Paid K inUse pgd c s) (hd : s'.dir = s.dir) (he : s'.env = s.env)
    (hl : balance s'.log = balance s.log) : Paid K inUse pgd c s' := by
  have := h.keep (d := 0) hd (fun _ hp => he ▸ hp) (by rw [hl, add_zero])
  rwa [add_zero] at this

theorem cast (h : Paid K inUse pgd c s) (hc : ∀ r, c r = d r) : Paid K inUse pgd d s :=
  (funext hc : c = d) ▸ h

end Paid

/-! ## What a map owns

The segments hold heap blocks, and those that were allocated hold pages. Each edit of the list
changes both sides of the equation alike. -/

/-- A map with these segments has paid for its own block and theirs, for the mutex, and for the
memory of the directory and of the segments. -/
def mapCost (mutex : ℤ) (xs : List Entry) : Account → ℤ
  | .block => 1 + xs.length
  | .mutex => mutex
  | .memory => 0x4000 + totalSize (allocatedOf xs)
  | _ => 0

/-- The map shows the segments, and since the account was `c` it has paid for what it shows. -/
structure Owns (K : Kernel σ) (inUse : σ → ℕ → Prop) (m hdl : ℕ) (mutex : ℤ) (c : Account → ℤ)
    (s : Machine σ) (xs : List Entry) : Prop where
  /-- the machine has the segments of the map -/
  shows : Shows s m xs
  /-- which tile the user addresses -/
  ok : SegmentsOk btPageSize btMmUserLimit xs
  /-- nobody else has a reference to it -/
  refcount : (s.map m).refcount = 1
  /-- this is its directory -/
  pgd : (s.map m).pgd = hdl
  /-- and the map, its segments and tables are what has been spent -/
  paid : Paid K inUse (getPgd hdl) (c + mapCost mutex xs) s

theorem totalSize_middle {x : Entry} (h : holdsMemory x) :
    totalSize (allocatedOf (as ++ x :: bs)) = x.2.size + totalSize (allocatedOf (as ++ bs)) := by
  rw [totalSize_perm (allocatedOf_middle h), totalSize_cons]

/-- A segment's bytes may be taken out of the sum. -/
theorem totalSize_segment (x : Entry) :
    totalSize (allocatedOf (as ++ x :: bs)) = totalSize (allocatedOf [x]) + totalSize
    (allocatedOf (as ++ bs)) := by
  rw [← List.singleton_append, allocatedOf_append, allocatedOf_append, allocatedOf_append,
    totalSize_append, totalSize_append, totalSize_append]
  omega

/-- The pages of a segment are given back if they are its own. -/
theorem Paid.released {i : ℕ} {v : Segment} {c : Account → ℤ}
    (h : Paid K inUse (getPgd hdl) c t) (kept : TablesKept K inUse) (hf : ¬ v.has btSegFree)
    (hal : btPageAlign v.size = v.size) :
    Paid K inUse (getPgd hdl)
    (c + Pi.single .memory (-((totalSize (allocatedOf [(i, v)]) : ℕ) : ℤ)))
      (t.released K v) := by
  unfold Machine.released
  split
  · rename_i hm
    rw [allocatedOf_cons_of_not (by simp [holdsMemory, hm])]
    exact h.cast fun r => by simp [allocatedOf]
  · rename_i hm
    rw [allocatedOf_cons_of_holds (by simp [holdsMemory, hf, hm])]
    refine (h.ret kept _ _ _).cast fun r => ?_
    cases r <;> simp [allocatedOf, hal]

namespace Owns

variable {mutex : ℤ} {c : Account → ℤ} {ys : List Entry} {s₁ s' : Machine σ}

/-- The list was edited, and the same memory is allocated. -/
theorem edit (h : Owns K inUse m hdl mutex c s xs) (kept : TablesKept K inUse)
    (e : Edit K m xs s ys s') (hok : SegmentsOk btPageSize btMmUserLimit ys)
    (hmem : allocatedOf ys = allocatedOf xs) : Owns K inUse m hdl mutex c s' ys where
  shows := e.shows
  ok := hok
  refcount := by rw [e.frame.map, h.refcount]
  pgd := by rw [e.frame.map, h.pgd]
  paid := (h.paid.edit kept e).cast fun r => by
    cases r <;> simp [mapCost, hmem]
    ring

/-- A segment's pages were unmapped and, if it held memory of its own, given back; then the
segment was given back. -/
theorem freed {i : ℕ} {v : Segment} {r : ℤ} {u : Machine σ}
    (h : Owns K inUse m hdl mutex c s (as ++ (i, v) :: bs)) (law : TableLaw K inUse)
    (kept : TablesKept K inUse) (hf : ¬ v.has btSegFree)
    (e : Edit K m (as ++ (i, v) :: bs) s (as ++ (i, v) :: bs) s₁)
    (hrun : btMmuMap K hdl v.phys v.addr v.size btPageUnmap s₁ = some (r, t))
    (hframe : TableFrame K s₁ t) (e' : Edit K m (as ++ (i, v) :: bs) u (freeAt as i v bs) s')
    (hdir : u.dir = (t.released K v).dir) (henv : u.env = (t.released K v).env)
    (hlog : u.log = (t.released K v).log) (hrc : (u.map m).refcount = 1)
    (hpgd : (u.map m).pgd = hdl) :
    Owns K inUse m hdl mutex c s' (freeAt as i v bs) := by
  have hfit := h.ok.fits user_bounds (x := (i, v)) (by simp)
  have hal : btPageAlign v.size = v.size :=
    btPageAlign_of_aligned hfit.2.2.2 (h.ok.aligned (i, v) (by simp)).2
  have h₁ : Paid K inUse (getPgd hdl) (c + mapCost mutex (as ++ (i, v) :: bs)) t :=
    ((h.paid.edit kept e).cast fun r => by cases r <;> simp).run law hrun hframe hfit.2.2.1
  have h₂ := (h₁.released (i := i) kept hf hal).same hdir henv (by rw [hlog])
  refine ⟨e'.shows,
    h.ok.freed user_bounds, by rw [e'.frame.map, hrc], by rw [e'.frame.map, hpgd], ?_⟩
  refine (h₂.edit kept e').cast fun r => ?_
  cases r <;> simp [mapCost, allocatedOf_freeAt, totalSize_segment (i, v)] <;> ring

/-- An allocation pays for what it adds, and one that fails gets its money back. -/
theorem allocate {addr size flags : ℕ} (h : Owns K inUse m hdl mutex c s xs)
    (law : TableLaw K inUse) (kept : TablesKept K inUse)
    (hop : (VmOp.allocate addr size flags).Ok) :
    Prog.Ensures (doAllocate K m addr size flags) s fun _ s' =>
      ∃ ys, Owns K inUse m hdl mutex c s' ys := by
  have hb := user_bounds
  have hlt : allocSize addr size flags < 2 ^ 32 := by
    rw [allocSize_of_ok hop]
    exact btPageAlign_lt size
  have hal := btPageAlign_allocSize hop.1 size flags
  have hrest : ∀ {v : Segment} {a j p : ℕ} {as bs : List Entry},
      Obtained xs v a (allocSize addr size flags) as j p bs →
      freeAt as j ⟨a, p, allocSize addr size flags, segRwx⟩ bs = xs := by
    intro v a j p as bs hob
    obtain ⟨x, hx, rfl, hf⟩ := hob.carve.mem
    exact hob.carve.restore h.ok.apart (h.ok.flags x hx hf) (h.ok.fits hb hx).2.2.2 hlt
  have huser : ∀ {v : Segment} {a j p : ℕ} {as bs : List Entry},
      Obtained xs v a (allocSize addr size flags) as j p bs → AllocAt addr size flags v a →
      a + allocSize addr size flags ≤ btMmUserLimit := by
    intro v a j p as bs hob hat
    exact (alloc_fits hop hb h.ok hob hat).mem_middle.2.2.2.2
  refine doAllocate_rule h.shows hop.1 ?_ ?_ ?_ ?_ ?_
  · intro _
    exact ⟨xs, h⟩
  · intro xs' s' _ _ hu e
    rw [hu.eq h.ok hb] at e
    exact ⟨xs, h.edit kept e h.ok rfl⟩
  · intro v a as j p bs s₁ _ _ hob _ e hz s' e'
    rw [hrest hob] at e'
    refine ⟨xs, e'.shows, h.ok, ?_, ?_, ?_⟩
    · rw [e'.frame.map, Machine.pageCall_map, e.frame.map, h.refcount]
    · rw [e'.frame.map, Machine.pageCall_map, e.frame.map, h.pgd]
    · have h₁ := ((h.paid.edit kept e).call kept .segment (allocSize addr size flags)).edit kept e'
      rw [if_pos hz] at h₁
      refine h₁.cast fun r => ?_
      cases r <;> simp
      ring
  · intro v a as j p bs s₁ _ _ hob hat e hz r t hrun _ hframe s' e'
    rw [hrest hob] at e'
    rw [h.pgd] at hrun
    refine ⟨xs, e'.shows, h.ok, ?_, ?_, ?_⟩
    · rw [e'.frame.map, Machine.pageReturn_map, hframe.map, Machine.pageCall_map, e.frame.map,
        h.refcount]
    · rw [e'.frame.map, Machine.pageReturn_map, hframe.map, Machine.pageCall_map, e.frame.map,
        h.pgd]
    · have h₁ := (h.paid.edit kept e).call kept .segment (allocSize addr size flags)
      rw [if_neg hz] at h₁
      have h₂ := ((h₁.run law hrun hframe (huser hob hat)).ret kept _ _ _).edit kept e'
      refine h₂.cast fun r => ?_
      cases r <;> simp
      ring
  · intro v a as j p bs s₁ _ _ hob hat e hz t hrun hframe
    rw [h.pgd] at hrun
    have ht : Shows t m (as ++ (j, ⟨a, p, allocSize addr size flags, segRwx⟩) :: bs) :=
      hframe.shows (e.shows.congr rfl (fun _ _ => rfl) (le_refl _))
    have hfit := alloc_fits hop hb h.ok hob hat
    have h₁ := (h.paid.edit kept e).call kept .segment (allocSize addr size flags)
    rw [if_neg hz] at h₁
    have h₂ := h₁.run law hrun hframe (huser hob hat)
    have hsize : totalSize (allocatedOf (as ++ (j, ⟨a, (K.pageAlloc (allocSize addr size flags)
        s₁.env).1, allocSize addr size flags, segRwx⟩) :: bs)) =
        allocSize addr size flags + totalSize (allocatedOf xs) := by
      rw [totalSize_middle holdsMemory_rwx, hob.carve.allocatedOf]
    have h₃ : Paid K inUse (getPgd hdl) _ (t.allocated K m j a
        (K.pageAlloc (allocSize addr size flags) s₁.env).1 (allocSize addr size flags)) :=
      h₂.same rfl rfl (balance_unlock _)
    refine ⟨_, (ht.setSeg ⟨a, (K.pageAlloc (allocSize addr size flags) s₁.env).1, _, segRwx⟩).congr
      rfl (fun _ _ => rfl) (le_refl _), hfit.hold rfl rfl not_has_free_rwx not_has_shared_rwx, ?_,
        ?_, ?_⟩
    · rw [Machine.allocated_map, Function.update_self, hframe.map, Machine.pageCall_map,
        e.frame.map, h.refcount]
    · rw [Machine.allocated_map, Function.update_self, hframe.map, Machine.pageCall_map,
        e.frame.map, h.pgd]
    · refine h₃.cast fun r => ?_
      cases r <;> simp [mapCost, hsize, hal] <;> ring

/-- After a segment is freed the rest is owned, and paid for. -/
theorem free {addr : ℕ} (h : Owns K inUse m hdl mutex c s xs) (law : TableLaw K inUse)
    (kept : TablesKept K inUse) :
    Prog.Ensures (doFree K m addr) s fun _ s' => ∃ ys, Owns K inUse m hdl mutex c s' ys := by
  refine doFree_rule h.shows h.ok.unshared ?_ ?_
  · intro s' e
    exact ⟨xs, h.edit kept e h.ok rfl⟩
  · intro as i v bs s₁ r t hxs _ hf e hrun hframe s' e'
    subst hxs
    rw [h.pgd] at hrun
    refine ⟨_, h.freed law kept hf e hrun hframe e' rfl rfl rfl ?_ ?_⟩
    · rw [Machine.setMap_map, Function.update_self, h.refcount]
    · rw [Machine.setMap_map, Function.update_self, h.pgd]

theorem unmapRegion {va : ℕ} (h : Owns K inUse m hdl mutex c s xs) (law : TableLaw K inUse)
    (kept : TablesKept K inUse) :
    Prog.Ensures (btVmUnmapRegion K m va) s fun _ s' => ∃ ys, Owns K inUse m hdl mutex c s' ys := by
  refine btVmUnmapRegion_rule h.shows h.ok.unshared ?_ ?_
  · intro s' _ e
    exact ⟨xs, h.edit kept e h.ok rfl⟩
  · intro as i v bs s₁ r t hxs _ hm e hrun hframe s' e'
    subst hxs
    rw [h.pgd] at hrun
    have hrel : t.released K v = t := by rw [Machine.released, if_pos hm]
    -- a free segment is not mapped: its flags are `BT_SEG_FREE` alone
    have hf : ¬ v.has btSegFree := by
      intro hf
      have hflags := h.ok.flags (i, v) (by simp) hf
      rw [Segment.has, show v.flags = btSegFree from hflags] at hm
      exact absurd hm (by decide)
    refine ⟨_, h.freed law kept hf e hrun hframe e'
      (by rw [hrel]) (by rw [hrel]) (by rw [hrel]) ?_ ?_⟩
    · rw [hframe.map, e.frame.map, h.refcount]
    · rw [hframe.map, e.frame.map, h.pgd]

theorem mapRegion {pa va size type : ℕ} (h : Owns K inUse m hdl mutex c s xs)
    (law : TableLaw K inUse) (kept : TablesKept K inUse)
    (hop : (VmOp.mapRegion pa va size type).Ok) :
    Prog.Ensures (btVmMapRegion K m pa va size type) s fun _ s' =>
      ∃ ys, Owns K inUse m hdl mutex c s' ys := by
  have hb := user_bounds
  have hset : ∀ {s₁ : Machine σ} {ys : List Entry} (r : Option ℕ),
      Owns K inUse m hdl mutex c s₁ ys →
      Owns K inUse m hdl mutex c (s₁.setMapSeg r) ys := fun _ h₁ =>
    ⟨h₁.shows.congr rfl (fun _ _ => rfl) (le_refl _), h₁.ok, h₁.refcount, h₁.pgd,
      h₁.paid.same rfl rfl rfl⟩
  refine btVmMapRegion_rule h.shows ?_ ?_ ?_
  · intro xs' s₁ hu _ e s' e'
    rw [hu.eq h.ok hb] at e e'
    exact ⟨xs, (hset none (h.edit kept e h.ok rfl)).edit kept e' h.ok rfl⟩
  · intro v a as j p bs f s₁ hob hat e _ s' e'
    have hpa : SegmentsOk btPageSize btMmUserLimit
        (as ++ (j, ⟨a, pa, btPageAlign size, 0⟩) :: bs) :=
      (region_fits hop hb h.ok hob hat).hold rfl rfl not_has_free_zero not_has_shared_zero
    have hmem : allocatedOf (freeAt as j ⟨a, pa, btPageAlign size, 0⟩ bs) = allocatedOf xs := by
      rw [allocatedOf_freeAt, hob.carve.allocatedOf]
    refine ⟨_, e'.shows, hpa.freeAt hb, ?_, ?_, ?_⟩
    · rw [e'.frame.map, Machine.setMapSeg_map, e.frame.map, h.refcount]
    · rw [e'.frame.map, Machine.setMapSeg_map, e.frame.map, h.pgd]
    · have h₁ : Paid K inUse (getPgd hdl) _ (s₁.setMapSeg (some j)) :=
        (h.paid.edit kept e).same rfl rfl rfl
      refine (h₁.edit kept e').cast fun r => ?_
      cases r <;> simp [mapCost, hmem]
      ring
  · intro v a as j p bs f s₁ hob hat e _ s₂ r t _ e₂ hrun hframe
    rw [h.pgd] at hrun
    have hfit := region_fits hop hb h.ok hob hat
    have hmem : allocatedOf
        (as ++ (j, ⟨a, pa, btPageAlign size, typeToSegflags type ||| btSegMapped⟩) ::
        bs) = allocatedOf xs := by
      rw [allocatedOf_middle_of_not (by simp [holdsMemory, has_mapped_type]), hob.carve.allocatedOf]
    refine ⟨_, (hframe.shows e₂.shows).congr rfl (fun _ _ => rfl) (le_refl _),
      hfit.hold rfl rfl not_has_free_type not_has_shared_type.2, ?_, ?_, ?_⟩
    · rw [Machine.emit_map, hframe.map, e₂.frame.map, Machine.setMapSeg_map, e.frame.map,
        h.refcount]
    · rw [Machine.emit_map, hframe.map, e₂.frame.map, Machine.setMapSeg_map, e.frame.map, h.pgd]
    · have h₁ : Paid K inUse (getPgd hdl) _ (s₁.setMapSeg (some j)) :=
        (h.paid.edit kept e).same rfl rfl rfl
      have h₂ := (h₁.edit kept e₂).run law hrun hframe hfit.mem_middle.2.2.2.2
      have h₃ : Paid K inUse (getPgd hdl) _ (t.emit (.unlock (.map m))) :=
        h₂.same rfl rfl (balance_unlock _)
      refine h₃.cast fun r => ?_
      cases r <;> simp [mapCost, hmem]
      ring

theorem changeAttribute {addr attr : ℕ} (h : Owns K inUse m hdl mutex c s xs)
    (law : TableLaw K inUse) (kept : TablesKept K inUse) :
    Prog.Ensures (doAttribute K m addr attr) s fun _ s' => ∃ ys,
      Owns K inUse m hdl mutex c s' ys := by
  refine doAttribute_rule h.shows h.ok.unshared ?_ ?_ ?_
  · intro _
    exact ⟨xs, h⟩
  · intro as i v bs type s₁ r t hxs _ _ _ e hrun _ hframe
    subst hxs
    rw [h.pgd] at hrun
    have h₁ := h.edit kept e h.ok rfl
    refine ⟨_, hframe.shows h₁.shows, h.ok, ?_, ?_, ?_⟩
    · rw [hframe.map, h₁.refcount]
    · rw [hframe.map, h₁.pgd]
    · exact h₁.paid.run law hrun hframe (h.ok.fits user_bounds (x := (i, v)) (by simp)).2.2.1
  · intro as i v bs type s₁ t hxs hf hm _ e hrun hframe
    subst hxs
    rw [h.pgd] at hrun
    have h₁ := h.edit kept e h.ok rfl
    obtain ⟨g₁, g₂, g₃⟩ := not_has_of_lt_eight (attrFlags_lt attr) (a := v.addr) (p := v.phys)
      (n := v.size)
    have hold : holdsMemory (i, v) := by simp [holdsMemory, hf, hm]
    have hnew : holdsMemory (i, { v with flags := attrFlags attr }) := by simp [holdsMemory, g₁, g₃]
    refine ⟨_, (hframe.shows h₁.shows).setSeg _, h.ok.hold rfl rfl g₁ g₂, ?_, ?_, ?_⟩
    · rw [Machine.setSeg_map, hframe.map, h₁.refcount]
    · rw [Machine.setSeg_map, hframe.map, h₁.pgd]
    · have h₂ := h₁.paid.run law hrun hframe (h.ok.fits user_bounds (x := (i, v)) (by simp)).2.2.1
      have h₃ : Paid K inUse (getPgd hdl) _ (t.setSeg i { v with flags := attrFlags attr }) :=
        h₂.same rfl rfl rfl
      refine h₃.cast fun r => ?_
      cases r <;> simp [mapCost, totalSize_middle hold, totalSize_middle hnew]

/-- One operation keeps the account. -/
theorem step (h : Owns K inUse m hdl mutex c s xs) (law : TableLaw K inUse)
    (kept : TablesKept K inUse) (op : VmOp) (hop : op.Ok) :
    Prog.Ensures (op.run K m) s fun _ s' => ∃ ys, Owns K inUse m hdl mutex c s' ys := by
  cases op with
  | mapRegion pa va size type =>
    rw [VmOp.run, Prog.ensures_bind]
    exact (h.mapRegion law kept hop).mono fun _ _ h' => Prog.ensures_pure.mpr h'
  | unmapRegion va =>
    rw [VmOp.run, Prog.ensures_bind]
    exact (h.unmapRegion law kept).mono fun _ _ h' => Prog.ensures_pure.mpr h'
  | allocate addr size flags => exact h.allocate law kept hop
  | free addr =>
    rw [VmOp.run, Prog.ensures_bind]
    exact (h.free law kept).mono fun _ _ h' => Prog.ensures_pure.mpr h'
  | changeAttribute addr attr =>
    rw [VmOp.run, Prog.ensures_bind]
    exact (h.changeAttribute law kept).mono fun _ _ h' => Prog.ensures_pure.mpr h'

end Owns

/-! ## `bt_vm_destroy`

The loop deletes the first segment until there is none. Then the tables, the pages of the directory
and the map are given back. -/

/-- The state after `bt_segment_delete` of a segment nobody shares. -/
@[simps!] def Machine.deleted (K : Kernel σ) (s : Machine σ) (i : ℕ) : Machine σ :=
  ((((s.emit (.lock .shared)).emit (.unlock .shared)).setSeg i
    { s.seg i with flags := btSegFree }).setEnv (K.kFree (s.ptr i) s.env)).emit (.kfree i)

/-- A segment that is not shared is deleted on the spot. -/
theorem btSegmentDelete_rule {Q : Unit → Machine σ → Prop} {i : ℕ}
    (hs : ¬ (s.seg i).has btSegShared) (done : Q () (s.deleted K i)) :
    Prog.Ensures (btSegmentDelete K i) s Q := by
  simp only [btSegmentDelete, sharedLock, sharedUnlock, modifySeg, kFree, Prog.ensures_bind,
    Prog.ensures_update, Prog.ensures_read, Prog.ensures_when]
  exact ⟨fun hf => absurd hf hs, fun _ => done⟩

theorem Paid.deleted {pgd i : ℕ} {c : Account → ℤ} (h : Paid K inUse pgd c s)
    (kept : TablesKept K inUse) : Paid K inUse pgd (c + Pi.single .block (-1)) (s.deleted K i) := by
  refine h.keep rfl (fun _ hp => kept.free _ _ _ hp) ?_
  funext r
  simp only [Machine.deleted_log, balance_cons, Pi.add_apply]
  cases r <;> simp [Event.change, Event.heap, Event.mutexes, Event.memory, Event.tables,
    Event.grants, add_comm]

/-- What one round of the loop of `bt_vm_destroy` gives back: the memory of a segment that holds
some, and the segment. -/
def segmentCost (x : Entry) : Account → ℤ :=
  Pi.single .memory ((totalSize (allocatedOf [x]) : ℕ) : ℤ) + Pi.single .block 1

/-- What is left of the segments while they are deleted one by one: those that are still to
come are as they were, and in order. -/
structure Remaining (s : Machine σ) (m : ℕ) (c₁ : Cell) (xs : List Entry) : Prop where
  /-- from the cell the list leads through the segments to its head -/
  path : Follows s.links.next c₁ (xs.map fun x => .list x.1) (.head m)
  /-- the segments are as they were -/
  seg : ∀ x ∈ xs, s.seg x.1 = x.2
  nodup : (xs.map Prod.fst).Nodup
  flags : ∀ x ∈ xs, x.2.has btSegFree → x.2.flags = btSegFree
  unshared : ∀ x ∈ xs, ¬ x.2.has btSegShared
  /-- they end below the user limit -/
  user : ∀ x ∈ xs, x.2.addr + x.2.size ≤ btMmUserLimit
  /-- and are made of pages -/
  whole : ∀ x ∈ xs, btPageAlign x.2.size = x.2.size

/-- A map owns all its segments when it is destroyed. -/
theorem Owns.remaining {mutex : ℤ} {c : Account → ℤ} (h : Owns K inUse m hdl mutex c s xs) :
    Remaining s m (.head m) xs where
  path := h.shows.ring.fwd
  seg := h.shows.seg
  nodup := h.shows.nodup
  flags := h.ok.flags
  unshared := h.ok.unshared
  user _ hx := (h.ok.fits user_bounds hx).2.2.1
  whole x hx := btPageAlign_of_aligned (h.ok.fits user_bounds hx).2.2.2 (h.ok.aligned x hx).2

/-- The first of the remaining segments is deleted. -/
theorem Remaining.deleted {i : ℕ} {v : Segment} {c₁ : Cell} {u : Machine σ}
    (h : Remaining s m c₁ ((i, v) :: xs)) (hl : u.links = s.links) (hs : u.seg = s.seg) :
    Remaining (u.deleted K i) m (.list i) xs where
  path := by
    rw [Machine.deleted_links, hl]
    exact h.path.2
  seg y hy := by
    have hne : y.1 ≠ i := by
      rintro rfl
      exact (List.nodup_cons.mp h.nodup).1 (List.mem_map.mpr ⟨y, hy, rfl⟩)
    have hold : u.seg y.1 = y.2 := by
      rw [hs]
      exact h.seg y (List.mem_cons_of_mem _ hy)
    rw [Machine.deleted_seg, Function.update_of_ne hne]
    exact hold
  nodup := (List.nodup_cons.mp h.nodup).2
  flags y hy := h.flags y (List.mem_cons_of_mem _ hy)
  unshared y hy := h.unshared y (List.mem_cons_of_mem _ hy)
  user y hy := h.user y (List.mem_cons_of_mem _ hy)
  whole y hy := h.whole y (List.mem_cons_of_mem _ hy)

/-- What `bt_vm_destroy` does with the pages of the first of the remaining segments. -/
theorem release_spec (law : TableLaw K inUse) (kept : TablesKept K inUse) {i : ℕ} {v : Segment}
    {c₁ : Cell} {c : Account → ℤ} (h : Remaining s m c₁ ((i, v) :: xs)) (hpgd : (s.map m).pgd = hdl)
    (hp : Paid K inUse (getPgd hdl) (c + segmentCost (i, v)) s) :
    Prog.Ensures (Prog.when ((s.seg i).flags ≠ btSegFree) (releasePages K m i)) s fun _ u =>
      u.links = s.links ∧ u.seg = s.seg ∧ u.map = s.map ∧
        Paid K inUse (getPgd hdl) (c + Pi.single .block 1) u := by
  have hseg : s.seg i = v := h.seg (i, v) List.mem_cons_self
  rw [Prog.ensures_when, hseg]
  refine ⟨fun hne => ?_, fun heq => ?_⟩
  · have hf : ¬ v.has btSegFree := fun hf => hne (h.flags (i, v) List.mem_cons_self hf)
    refine releasePages_rule hseg (h.unshared (i, v) List.mem_cons_self)
      fun r t hrun hframe => ?_
    rw [hpgd] at hrun
    have h₁ : Paid K inUse (getPgd hdl) (c + segmentCost (i, v) +
        Pi.single .memory (-((totalSize (allocatedOf [(i, v)]) : ℕ) : ℤ))) (t.released K v) :=
      (hp.run law hrun hframe (h.user (i, v) List.mem_cons_self)).released kept hf
        (h.whole (i, v) List.mem_cons_self)
    have h₂ : Paid K inUse (getPgd hdl) (c + Pi.single .block 1) (t.released K v) := by
      refine h₁.cast fun r => ?_
      simp only [segmentCost, Pi.single_neg, Pi.add_apply, Pi.neg_apply]
      ring
    refine ⟨?_, ?_, ?_, h₂⟩
    · unfold Machine.released
      split <;> exact hframe.links
    · unfold Machine.released
      split <;> exact hframe.seg
    · unfold Machine.released
      split <;> exact hframe.map
  · refine ⟨rfl, rfl, rfl, hp.cast fun r => ?_⟩
    have hfree : holdsMemory (i, v) = false := by
      refine holdsMemory_of_free _ ?_
      rw [Segment.has, show (i, v).2.flags = btSegFree from not_not.mp heq]
      decide
    simp [segmentCost, allocatedOf, hfree]

/-- The loop of `bt_vm_destroy` gives back what the segments have cost. -/
theorem destroyFrom_spec (law : TableLaw K inUse) (kept : TablesKept K inUse) {n : ℕ} {c₁ : Cell}
    {c : Account → ℤ} (hn : xs.length < n) (h : Remaining s m c₁ xs) (hpgd : (s.map m).pgd = hdl)
    (hp : Paid K inUse (getPgd hdl) (c + (xs.map segmentCost).sum) s) :
    Prog.Ensures (destroyFrom K m n (s.links.next c₁)) s fun _ s' =>
      s'.map = s.map ∧ Paid K inUse (getPgd hdl) c s' := by
  induction xs generalizing s n c₁ with
  | nil =>
    obtain ⟨n, rfl⟩ := Nat.exists_eq_succ_of_ne_zero (Nat.ne_of_gt hn)
    have hend : s.links.next c₁ = .head m := h.path
    rw [hend, destroyFrom, if_pos rfl, Prog.ensures_pure]
    exact ⟨rfl, by simpa using hp⟩
  | cons x xs ih =>
    obtain ⟨n, rfl⟩ := Nat.exists_eq_succ_of_ne_zero (Nat.ne_of_gt (Nat.zero_lt_of_lt hn))
    obtain ⟨i, v⟩ := x
    have hseg : s.seg i = v := h.seg (i, v) List.mem_cons_self
    have hp' : Paid K inUse (getPgd hdl) (c + (xs.map segmentCost).sum + segmentCost (i, v)) s := by
      rwa [List.map_cons, List.sum_cons, add_comm (segmentCost _), ← add_assoc] at hp
    rw [h.path.1, destroyFrom]
    simp only [Prog.ensures_bind, Prog.ensures_read]
    refine (release_spec law kept h hpgd hp').mono fun _ u hu => ?_
    obtain ⟨hl, hs, hm, hpu⟩ := hu
    refine btSegmentDelete_rule ?_ ?_
    · rw [hs, hseg]
      exact h.unshared (i, v) List.mem_cons_self
    · have hpaid : Paid K inUse (getPgd hdl) (c + (xs.map segmentCost).sum) (u.deleted K i) := by
        refine (hpu.deleted kept).cast fun r => ?_
        rw [Pi.single_neg]
        simp
      have hmap : (u.deleted K i).map = s.map := hm
      refine (ih (Nat.lt_of_succ_lt_succ hn) (h.deleted hl hs) (by rw [hmap, hpgd]) hpaid).mono ?_
      exact fun _ s' hs' => ⟨hs'.1.trans hmap, hs'.2⟩

/-- What giving these page tables back does. -/
def returnCost (ts : List ℕ) : Account → ℤ
  | .table p => -(ts.count p : ℤ)
  | _ => 0

theorem balance_ptFree (ts : List ℕ) : balance (ts.map Event.ptFree) = returnCost ts := by
  induction ts with
  | nil =>
    funext r
    cases r <;> rfl
  | cons q ts ih =>
    funext r
    rw [List.map_cons, balance_cons, ih]
    cases r with
    | table p =>
      simp only [Event.change, Event.tables, returnCost, List.count_cons, beq_iff_eq]
      split
      · push_cast
        ring
      · simp
    | _ => exact zero_add _

/-- `bt_mmu_terminate` gives back the pages of the directory, and to the cache of page tables
the physical addresses of the directory's tables. -/
theorem btMmuTerminate_balance (hdl : ℕ) :
    Prog.Ensures (btMmuTerminate K hdl) s fun _ s' => balance s'.log = balance s.log +
      (returnCost ((s.dirTables K 0xC00 (getPgd hdl)).map K.ram.virtToPhys) +
        Pi.single .memory (-0x4000)) := by
  refine (btMmuTerminate_spec hdl).mono fun _ s' h => ?_
  obtain ⟨-, -, hlog⟩ := h
  have hdir : btPageAlign mmuL1tblSize = 0x4000 := by decide
  have hret : returnCost (slotsFreed s (getPgd hdl) (List.range 0xC00)).reverse =
      returnCost ((s.dirTables K 0xC00 (getPgd hdl)).map K.ram.virtToPhys) := by
    rw [slotsFreed_eq (K := K)]
    generalize (s.dirTables K 0xC00 (getPgd hdl)).map K.ram.virtToPhys = ts
    funext r
    cases r <;> simp [returnCost]
  rw [← hret]
  generalize (slotsFreed s (getPgd hdl) (List.range 0xC00)).reverse = ts at hlog ⊢
  funext r
  rw [hlog, balance_cons, balance_append, balance_ptFree]
  cases r <;> simp [Event.change, Event.heap, Event.mutexes, Event.memory, Event.tables,
    Event.grants, hdir, returnCost] <;> ring

/-- What a map costs is the empty map and each of its segments. -/
theorem mapCost_eq (mutex : ℤ) (xs : List Entry) :
    mapCost mutex xs = mapCost mutex [] + (xs.map segmentCost).sum := by
  induction xs with
  | nil => simp
  | cons x xs ih =>
    have hsplit : allocatedOf ([x] ++ xs) = allocatedOf [x] ++ allocatedOf xs := allocatedOf_append
    rw [List.singleton_append] at hsplit
    rw [List.map_cons, List.sum_cons, add_left_comm, ← ih]
    funext r
    cases r <;> simp [mapCost, segmentCost, hsplit] <;> ring

/-- What a map leaves behind when it is gone: the mutex, and the page tables `ts` it has used,
if the addresses they were given back under are not their own. -/
def leftover (R : RamConfig) (mutex : ℤ) (ts : List ℕ) : Account → ℤ
  | .mutex => mutex
  | .table p => (ts.count p : ℤ) - (ts.map R.virtToPhys).count p
  | .grant => ts.length
  | _ => 0

/-- When the segments are gone, the directory, the block of the map and the mutex are left, and
`bt_mmu_terminate` and the last `BT_kFree` give back the first two. -/
theorem Paid.terminated {mutex : ℤ} {c : Account → ℤ} {u : Machine σ}
    (hp : Paid K inUse (getPgd hdl) (c + mapCost mutex []) u) :
    Prog.Ensures (btMmuTerminate K hdl) u fun _ s' => Prog.Ensures (kFree K m) s' fun _ s' =>
      ∃ ts, (∀ t ∈ ts, inUse u.env t ∧ t < 2 ^ 32) ∧
        balance s'.log = c + leftover K.ram mutex ts := by
  have hmem : ∀ t ∈ u.dirTables K 0xC00 (getPgd hdl), inUse u.env t ∧ t < 2 ^ 32 :=
    fun t ht => hp.dir.mem_dirTables ht
  have hcost := hp.cost
  refine (btMmuTerminate_balance hdl).mono fun _ s' hs' => ?_
  generalize u.dirTables K 0xC00 (getPgd hdl) = ts at hs' hcost hmem
  rw [kFree, Prog.ensures_update, Machine.emit_log, Machine.setEnv_log]
  refine ⟨ts, hmem, ?_⟩
  funext r
  rw [balance_cons, hs', hcost]
  cases r <;> simp [mapCost, allocatedOf, Event.change, Event.heap, Event.mutexes, Event.memory,
    Event.tables, Event.grants, tableCost, returnCost, leftover]
  ring

/-- `bt_mmu_switch` may set the register, and does nothing else. -/
theorem btMmuSwitch_rule {k : ℕ} {Q : Unit → Machine σ → Prop} (keep : Q () s)
    (set : ∀ x, Q () (s.setTtb x)) : Prog.Ensures (btMmuSwitch K k) s Q := by
  rw [btMmuSwitch, Prog.ensures_update]
  split
  · exact keep
  · exact set _

/-- Switching to another directory costs nothing. -/
theorem Paid.switched {pgd k : ℕ} {p : Prop} [Decidable p] {c : Account → ℤ}
    (h : Paid K inUse pgd c s) :
    Prog.Ensures (Prog.when p (btMmuSwitch K k)) s fun _ u =>
      u.map = s.map ∧ Paid K inUse pgd c u := by
  rw [Prog.ensures_when]
  refine ⟨fun _ => ?_, fun _ => ⟨rfl, h⟩⟩
  apply btMmuSwitch_rule
  · exact ⟨rfl, h⟩
  · intro x
    have hset : Paid K inUse pgd c (s.setTtb x) := h.same rfl rfl rfl
    exact ⟨rfl, hset⟩

theorem btVmDestroy_rule {Q : Unit → Machine σ → Prop} (hr : (s.map m).refcount = 1)
    (done : Prog.Ensures (destroyFrom K m (s.fresh + 1) (s.links.next (.head m)))
      (s.setMap m { s.map m with refcount := 0 }) fun _ s₁ =>
        Prog.Ensures (Prog.when (m = s₁.task) (btMmuSwitch K (s₁.map 0).pgd)) s₁ fun _ s₂ =>
          Prog.Ensures (btMmuTerminate K (s₂.map m).pgd) s₂ fun _ s₃ => Prog.Ensures
            (kFree K m) s₃ Q) :
    Prog.Ensures (btVmDestroy K m) s Q := by
  have hzero : ¬ 0 < wordSub (s.map m).refcount 1 := by
    rw [hr]
    decide
  have hword : wordSub 1 1 = 0 := by decide
  rw [btVmDestroy]
  simp only [modifyMap, Prog.ensures_bind, Prog.ensures_update, Prog.ensures_read,
    Machine.setMap_map, Function.update_self, if_neg hzero]
  rw [hr, hword]
  exact done

/-- Dropping the last reference gives everything back, but for the mutex and for the tables
whose addresses differ. -/
theorem Owns.destroy {mutex : ℤ} {c : Account → ℤ} (h : Owns K inUse m hdl mutex c s xs)
    (law : TableLaw K inUse) (kept : TablesKept K inUse) :
    Prog.Ensures (btVmDestroy K m) s fun _ s' => ∃ ts, (∀ t ∈ ts, (∃ e, inUse e t) ∧ t < 2 ^ 32) ∧
      balance s'.log = c + leftover K.ram mutex ts := by
  have hrem : Remaining (s.setMap m { s.map m with refcount := 0 }) m (.head m) xs :=
    { h.remaining with }
  have hpgd : ((s.setMap m { s.map m with refcount := 0 }).map m).pgd = hdl := by
    rw [Machine.setMap_map, Function.update_self, h.pgd]
  have hpaid : Paid K inUse (getPgd hdl) (c + mapCost mutex [] + (xs.map segmentCost).sum)
      (s.setMap m { s.map m with refcount := 0 }) := by
    rw [add_assoc, ← mapCost_eq]
    exact h.paid.same rfl rfl rfl
  apply btVmDestroy_rule h.refcount
  refine (destroyFrom_spec law kept (Nat.lt_succ_of_le h.shows.length_le) hrem hpgd hpaid).mono ?_
  rintro _ s₁ ⟨hmap₁, hpaid₁⟩
  refine hpaid₁.switched.mono ?_
  rintro _ s₂ ⟨hmap₂, hpaid₂⟩
  rw [hmap₂, hmap₁, hpgd]
  refine hpaid₂.terminated.mono fun _ s₃ h₃ => h₃.mono ?_
  rintro _ s' ⟨ts, hmem, hbal⟩
  exact ⟨ts, fun t ht => ⟨⟨_, (hmem t ht).1⟩, (hmem t ht).2⟩, hbal⟩

/-! ## `bt_vm_create`

A map that was made owns one segment. A call that is refused a block gives back all that it has but
the mutex; one that is refused a directory returns the map without it. -/

variable {taken : σ → ℕ → Prop}

/-- The operation begins with `MAP_LOCK`. `bt_vm_attribute` takes the lock of the shared segments
alone. -/
def VmOp.Locks : VmOp → Prop
  | .changeAttribute _ _ => False
  | .allocate _ size _ => size ≠ 0
  | _ => True

/-- The states of a map from `bt_vm_create` on, which was called in `s₀` and gave it the
directory `pgd`. `BT_kMutexPend` reads the mutex, so that no operation gets past the lock of a map
that has none. -/
inductive Living (K : Kernel σ) (s₀ : Machine σ) (m pgd : ℕ) : Machine σ → Prop where
  | create {s : Machine σ} : btVmCreate K s₀ = some (some m, s) → (s.map m).pgd = pgd →
      Living K s₀ m pgd s
  | step {s s' : Machine σ} {op : VmOp} {r : BtError × ℕ} : Living K s₀ m pgd s → op.Ok →
      (op.Locks → (s.map m).mapMutex ≠ 0) → op.run K m s = some (r, s') → Living K s₀ m pgd s'

section Runs

variable {s₀ s' : Machine σ} {pgd : ℕ} (law : TableLaw K inUse) (pages : PageLaw K taken)
  (kept : TablesKept K inUse) (hram : ∀ e t, inUse e t → InRam K t)
  (hvirt : ∀ n e x, (K.pageAlloc n e).1 ≠ 0 → (K.pageAlloc n e).1 ≤ x →
    x < (K.pageAlloc n e).1 + btPageAlign n → K.ram.physToVirt x ≠ 0)
  (hempty : ∀ i < 0xC00, s₀.dir K.mmuTable i = 0) (hasid : s₀.asid < 256)

/-- How the call went that a life began with. -/
theorem Living.created (h : Living K s₀ m pgd s) :
    ∃ s₁, btVmCreate K s₀ = some (some m, s₁) ∧ (s₁.map m).pgd = pgd := by
  induction h with
  | create hrun hdir => exact ⟨_, hrun, hdir⟩
  | step _ _ _ _ ih => exact ih

end Runs

end BitThunder
