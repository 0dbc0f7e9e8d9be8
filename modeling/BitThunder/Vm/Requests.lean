import BitThunder.Vm.Ioremap
import BitThunder.Vm.SharedFree

/-!
# Requests with any address and any size

`bt_vm_map_region`, `bt_vm_allocate` and `bt_vm_free` round addresses and sizes, each in its
own way, and none of them looks at the result.

* `bt_vm_map_region` truncates a fixed address for the lookup and then cuts at the address
  itself. A size within a page of `2 ^ 32` is rounded up to `0`, and so is `0`: the
  segment is then empty.
* `bt_vm_allocate` truncates the address and rounds up the end of as many bytes from there:
  what the truncation took off in front is missing behind.
* `bt_segment_lookup` adds address and size in 32 bits.
* `bt_segment_free` takes a shared segment off the wrong list.

`vm_request_iff` says which requests are served as they should be.

Nothing is assumed of addresses and sizes but that they are words. Whether a request is served is
therefore a question about the range that the call cuts, computed as the call computes it, against
the range that was asked for. The tiling in whole pages is kept exactly by cutting whole pages
(`Carve.paged_iff`), and the new segment has the bytes asked for exactly if the rounded range
contains them.

A request that fails has to leave the segments as they were. Here a physical address that a failed
call has left in a free segment does not count, since nobody looks at it (`Entry.seen`).
-/

namespace BitThunder

variable {σ : Type} {K : Kernel σ} {s s' : Machine σ} {m lo hi a n j p q f : ℕ} {v : Segment}
  {xs as bs : List Entry}

/-! ## What a request is for

The range that is asked for, in numbers that do not wrap, and what has to be there afterwards. -/

/-- A segment as others see it: the physical address of a free one says nothing. -/
def Entry.seen (x : Entry) : Entry :=
  if x.2.has btSegFree then (x.1, { x.2 with phys := 0 }) else x

/-- The map's list has the same segments as before. -/
def Unchanged (m : ℕ) (xs : List Entry) (s' : Machine σ) : Prop :=
  ∃ ys, Shows s' m ys ∧ ys.map Entry.seen = xs.map Entry.seen

/-- The map shows a tiling in whole pages, in which a segment in use at `r` that was not
there before has all of `[b, b + size)`. No segment has bytes on both sides of the end of the
address space, so a range that goes past it is in none. -/
def Served (lo hi m : ℕ) (xs : List Entry) (r b size : ℕ) (s' : Machine σ) : Prop :=
  ∃ ys, Shows s' m ys ∧ Paged lo hi ys ∧ ∃ x ∈ ys, x ∉ xs ∧ ¬ x.2.has btSegFree ∧ x.2.addr = r ∧
    x.2.addr ≤ b ∧ b + size ≤ x.2.addr + x.2.size

/-- The requests. -/
inductive VmRequest : Type where
  /-- `bt_vm_map_region(map, pa, va, size, type)` -/
  | mapRegion : ℕ → ℕ → ℕ → ℕ → VmRequest
  /-- `bt_vm_allocate(task, &addr, size, flags)` -/
  | allocate : ℕ → ℕ → ℕ → VmRequest
  /-- `bt_vm_free(task, addr)` -/
  | free : ℕ → VmRequest

/-- Addresses and sizes are words. -/
def VmRequest.Words : VmRequest → Prop
  | .mapRegion _ va size _ => va < 2 ^ 32 ∧ size < 2 ^ 32
  | .allocate addr size _ => addr < 2 ^ 32 ∧ size < 2 ^ 32
  | .free addr => addr < 2 ^ 32

/-- The call ends. It has failed and left the segments as they were, or they tile the same
addresses, and a new one has the bytes that were asked for. -/
def VmRequest.Handled (K : Kernel σ) (lo hi m : ℕ) (xs : List Entry) (s : Machine σ) :
    VmRequest → Prop
  | .mapRegion pa va size type => Prog.Ensures (btVmMapRegion K m pa va size type) s fun r s' =>
      r = 0 ∧ Unchanged m xs s' ∨ Served lo hi m xs r (if va = 0 then r else va) size s'
  | .allocate addr size flags => Prog.Ensures (doAllocate K m addr size flags) s fun r s' =>
      r.1 ≠ .none ∧ Unchanged m xs s' ∨ r.1 = .none ∧
        Served lo hi m xs r.2 (if flags &&& btVmAllocAnywhere ≠ 0 then r.2 else addr) size s'
  | .free addr => Prog.Ensures (doFree K m addr) s fun e s' =>
      e ≠ .none ∧ Unchanged m xs s' ∨ ∃ ys, Shows s' m ys ∧ Paged lo hi ys

/-! ## When it is handled

The range that the call computes, and whether it is what the request is for. -/

/-- `[a, a + n)` is a range of whole pages, at least one, inside the segment. -/
def CutsPages (v : Segment) (a n : ℕ) : Prop :=
  a % 4096 = 0 ∧ 0 < n ∧ a + n ≤ v.addr + v.size

instance : Decidable (CutsPages v a n) := inferInstanceAs (Decidable (_ ∧ _ ∧ _))

/-- Where `do_allocate` cuts, out of the segment `v`. -/
def allocStart (v : Segment) (addr flags : ℕ) : ℕ :=
  if flags &&& btVmAllocAnywhere ≠ 0 then v.addr else btPageTrunc addr

/-- There are no pages for `n` bytes at `a`, or no tables to enter them in. -/
def PagesRefused (K : Kernel σ) (s : Machine σ) (m a n : ℕ) (e : σ) : Prop :=
  (K.pageAlloc n e).1 = 0 ∨
    ¬ tablesFor K (s.hasTable (getPgd (s.map m).pgd)) (n / btPageSize) a (K.pageAlloc n e).2

/-- The requests that are handled. Those that find no segment, or no memory, or make no sense, fail.
The others cut a number of bytes, rounded in their own way, at an address, truncated or not, out of
a free segment, and it depends on these three. For a fixed address the pages of an allocation have
to reach the last byte. A shared segment can be given back if the segment in front of it is free and
the one behind it is not. -/
def VmRequest.Fits (K : Kernel σ) (m : ℕ) (xs : List Entry) (s : Machine σ) : VmRequest → Prop
  | .mapRegion _ va size type => ∀ v e,
      obtainTarget K s.env xs (va = 0) va (btPageAlign size) = some (v, e) →
      typeToSegflags type = 0 ∨ CutsPages v (if va = 0 then v.addr else va) (btPageAlign size)
  | .allocate addr size flags => ∀ v e, size ≠ 0 →
      obtainTarget K s.env xs (flags &&& btVmAllocAnywhere ≠ 0) (btPageTrunc addr)
        (allocSize addr size flags) = some (v, e) →
      PagesRefused K s m (allocStart v addr flags) (allocSize addr size flags) e ∨
        CutsPages v (allocStart v addr flags) (allocSize addr size flags) ∧
          (flags &&& btVmAllocAnywhere = 0 → addr + size ≤ btPageTrunc addr +
            allocSize addr size flags)
  | .free addr => ∀ as i v bs, xs = as ++ (i, v) :: bs → v.addr = btPageTrunc addr →
      ¬ v.has btSegFree → v.has btSegShared →
      (∃ x ∈ as.getLast?, x.2.has btSegFree) ∧ ∀ y ∈ bs.head?, ¬ y.2.has btSegFree

/-! ## The new segment

It is the middle piece of what was cut, so that its bytes are those of the range. -/

/-- What the calls have checked about the segment they cut from. -/
theorem Obtained.inside (h : Obtained xs v a n as j p bs) (ha : a < 2 ^ 32) :
    v.addr ≤ a ∧ (a % 4096 = 0 → a + n < 2 ^ 32 → a + n ≤ v.addr + v.size) := by
  cases h with
  | anywhere ht _ =>
    simp only [allocTest, Bool.and_eq_true, decide_eq_true_eq] at ht
    exact ⟨le_refl _, fun _ _ => by omega⟩
  | fixed ht _ =>
    simp only [lookupTest, Bool.and_eq_true, decide_eq_true_eq] at ht
    rw [btPageTrunc_eq ha] at ht
    refine ⟨by omega, fun haa hend => ?_⟩
    rw [wordAdd_of_lt (by omega)] at ht
    omega

/-- Whether the new segment is what it should be. -/
theorem served_iff (b size : ℕ) (hb : Bounds lo hi) (ht : Tiled lo hi xs)
    (hc : Carve xs v a n as j p bs) (ha : v.addr ≤ a) (hn : n % 4096 = 0)
    (hin : a % 4096 = 0 → a + n < 2 ^ 32 → a + n ≤ v.addr + v.size)
    (hf : ¬ Segment.has ⟨a, q, n, f⟩ btSegFree) (hs : Shows s' m (as ++ (j, ⟨a, q, n, f⟩) :: bs)) :
    Served lo hi m xs a b size s' ↔ CutsPages v a n ∧ a ≤ b ∧ b + size ≤ a + n := by
  have hiff := hc.paged_iff (q := q) (f := f) hb ht.toPaged ha hn hin
  constructor
  · rintro ⟨ys, hys, hp, x, hx, -, -, hxa, hle, hend⟩
    obtain rfl := hs.unique hys
    have hcut := hiff.mp hp
    have hxp := (hp.tiles.bounds hx).2.1
    obtain rfl := hp.tiles.eq_of_mem (a := a) (y := (j, ⟨a, q, n, f⟩)) hx
      (by simp) ⟨hxa.le, by omega⟩
      ⟨le_refl _, by have := hcut.2.1; simp only; omega⟩
    exact ⟨hcut, hle, hend⟩
  · rintro ⟨hcut, hle, hend⟩
    refine ⟨_, hs, hiff.mpr hcut, (j, ⟨a, q, n, f⟩), by simp, fun hold => hf ?_, hf, rfl, hle, hend⟩
    -- at its address there was a free segment
    obtain ⟨x, hx, rfl, hxf⟩ := hc.mem
    obtain ⟨-, hpos, hstop⟩ := hcut
    obtain rfl := ht.tiles.eq_of_mem (a := a) hx hold
      ⟨ha, by omega⟩ ⟨le_refl _, by simp only; omega⟩
    exact hxf

/-! ## Mapping

Both directions for `bt_vm_map_region`, for a fixed address and for any. -/

theorem Shows.unchanged (h : Shows s m xs) : Unchanged m xs s := ⟨xs, h, rfl⟩

/-- Once it is free, a segment's physical address is not seen any more. -/
theorem seen_freeAt : (freeAt as j ⟨a, q, n, f⟩ bs).map Entry.seen =
    (freeAt as j ⟨a, p, n, f⟩ bs).map Entry.seen := by
  have hahead : ∀ r, mergeAhead ⟨a, r, n, btSegFree⟩ bs =
      (⟨a, r, (mergeAhead ⟨a, 0, n, btSegFree⟩ bs).1.size, btSegFree⟩,
        (mergeAhead ⟨a, 0, n, btSegFree⟩ bs).2) := by
    intro r
    cases bs with
    | nil => rfl
    | cons y bs =>
      rw [mergeAhead, mergeAhead]
      split <;> rfl
  have hfree : ∀ r k, Entry.seen (j, ⟨a, r, k, btSegFree⟩) = (j, ⟨a, 0, k, btSegFree⟩) := fun r k =>
    if_pos has_free_self
  simp only [freeAt]
  rw [hahead q, hahead p]
  cases as using List.reverseRecOn with
  | nil => simp only [mergeBehind_nil, List.map_cons, hfree]
  | append_singleton as x =>
    rw [mergeBehind_concat, mergeBehind_concat]
    split
    · rfl
    · simp only [List.map_append, List.map_cons, hfree]

/-- Unless it is rounded to nothing, a size is rounded up. -/
theorem le_btPageAlign {size : ℕ} (hs : size < 2 ^ 32) (hpos : 0 < btPageAlign size) :
    size ≤ btPageAlign size := by
  rw [btPageAlign_eq] at hpos ⊢
  omega

/-- A mapping is handled right exactly under its condition. -/
theorem map_handled_iff {pa va size type : ℕ} (hb : Bounds lo hi) (h : Shows s m xs)
    (ht : Tiled lo hi xs) (hva : va < 2 ^ 32) (hsize : size < 2 ^ 32) :
    (VmRequest.mapRegion pa va size type).Handled K lo hi m xs s ↔
      (VmRequest.mapRegion pa va size type).Fits K m xs s := by
  have hsz : ∀ x ∈ xs, x.2.size < 2 ^ 32 := fun x hx => (ht.fits hb hx).2.2.2
  refine Prog.Ensures.iff_of (btVmMapRegion_rule h ?_ ?_ ?_)
  · intro xs' s₁ hu hnone _ s' e'
    obtain rfl := hu.restored ht.apart ht.flags hsz
    exact iff_of_true (.inl ⟨rfl, e'.shows.unchanged⟩) fun v e hsome =>
      absurd (hnone.symm.trans hsome) nofun
  · intro v a as j p bs f s₁ hob _ _ hz s' e'
    obtain ⟨x, hx, rfl, hxf⟩ := hob.carve.mem
    have hback : freeAt as j ⟨a, p, btPageAlign size, 0⟩ bs = xs :=
      hob.carve.restore ht.apart (ht.flags x hx hxf) (hsz x hx) (btPageAlign_lt size)
    -- the physical address that was entered stays behind in the free segment
    exact iff_of_true
      (.inl ⟨rfl, _, e'.shows, by rw [seen_freeAt (p := p), hback]⟩) fun _ _ _ => .inl hz
  · intro v a as j p bs f s₁ hob hat e₁ hz s₂ e t hsome e₂ hrun hframe
    obtain ⟨x, hx, rfl, -⟩ := hob.carve.mem
    have hlo := hb.pos
    have hhi := hb.le
    obtain ⟨hxl, hxp, hxh, -⟩ := ht.fits hb hx
    have haddr : a = if va = 0 then x.2.addr else va := by
      split at hat <;> rename_i hc
      · rw [if_pos hc]
        exact hat.1
      · rw [if_neg hc]
        exact hat
    have ha : a < 2 ^ 32 ∧ a ≠ 0 := by
      split at haddr <;> omega
    have hbase : (if va = 0 then a else va) = a := by
      split at haddr <;> simp_all
    obtain ⟨hle, hin⟩ := hob.inside ha.1
    have hsh : Shows (t.emit (.unlock (.map m))) m
        (as ++ (j, ⟨a, pa, btPageAlign size, typeToSegflags type ||| btSegMapped⟩) :: bs) :=
      (hframe.shows e₂.shows).congr rfl (fun _ _ => rfl) (le_refl _)
    have hserved := served_iff a size hb ht hob.carve hle (btPageAlign_mod size) hin
      not_has_free_type hsh
    rw [hbase, hserved]
    constructor
    · rintro (⟨hz', -⟩ | ⟨hcut, -, -⟩) v e hv
      · exact absurd hz' ha.2
      · obtain ⟨rfl, -⟩ := Prod.mk.inj (Option.some.inj (hsome.symm.trans hv))
        exact .inr (haddr ▸ hcut)
    · intro hfit
      have hcut := (hfit _ _ hsome).resolve_left hz
      rw [← haddr] at hcut
      have := le_btPageAlign hsize hcut.2.1
      exact .inr ⟨hcut, le_refl _, by omega⟩

/-! ## Allocating

The same for `bt_vm_allocate`, with its other way of rounding. -/

/-- `bt_mmu_map` of pages succeeds if the cache grants the tables. -/
theorem btMmuMap_system_iff {h pa : ℕ} {e : ℤ} {t : Machine σ} (ha : a < 2 ^ 32)
    (haa : a % 4096 = 0) (hn : n < 2 ^ 32) (hna : n % 4096 = 0)
    (hrun : btMmuMap K h pa a n btPageSystem s = some (e, t)) :
    e = 0 ↔ tablesFor K (s.hasTable (getPgd h)) (n / btPageSize) a s.env = true := by
  have hloop := mmuMapLoop_granted (K := K) (getPgd h)
    (mmuPtePresent ||| mmuPteWbuf ||| mmuPteCache ||| mmuPteSystem |||
      if wordAdd a n < btMmUserLimit then mmuPteNg else 0) (btPageAlign n / btPageSize) 0
        (btPageTrunc pa)
    (btPageTrunc a) s
  have hres := (hloop.yields e t hrun).1
  rwa [btPageAlign_of_aligned hn hna, btPageTrunc_of_aligned ha haa] at hres

theorem allocate_handled_iff {addr size flags : ℕ} (hb : Bounds lo hi) (h : Shows s m xs)
    (ht : Tiled lo hi xs) (haddr : addr < 2 ^ 32) (hsize : size < 2 ^ 32) :
    (VmRequest.allocate addr size flags).Handled K lo hi m xs s ↔
      (VmRequest.allocate addr size flags).Fits K m xs s := by
  have hsz : ∀ x ∈ xs, x.2.size < 2 ^ 32 := fun x hx => (ht.fits hb hx).2.2.2
  obtain ⟨hnlt, -⟩ := allocSize_bound haddr size flags
  have hnmod : allocSize addr size flags % 4096 = 0 := by
    rw [← btPageAlign_allocSize haddr size flags]
    exact btPageAlign_mod _
  -- a call that fails gives back what it had cut out
  have hrest : ∀ {v : Segment} {a j p : ℕ} {as bs : List Entry},
      Obtained xs v a (allocSize addr size flags) as j p bs →
      freeAt as j ⟨a, p, allocSize addr size flags, segRwx⟩ bs = xs := by
    intro v a j p as bs hob
    obtain ⟨x, hx, rfl, hf⟩ := hob.carve.mem
    exact hob.carve.restore ht.apart (ht.flags x hx hf) (hsz x hx) hnlt
  -- where the range is
  have hstart : ∀ {v : Segment} {a j p : ℕ} {as bs : List Entry},
      Obtained xs v a (allocSize addr size flags) as j p bs → AllocAt addr size flags v a →
      a = allocStart v addr flags ∧ a < 2 ^ 32 ∧ a % 4096 = 0 := by
    intro v a j p as bs hob hat
    obtain ⟨x, hx, rfl, -⟩ := hob.carve.mem
    have hfit := ht.fits hb hx
    have hhi := hb.le
    unfold AllocAt at hat
    unfold allocStart
    split at hat <;> rename_i hc
    · obtain ⟨rfl, -⟩ := hat
      exact ⟨(if_pos hc).symm, by omega, (ht.aligned x hx).1⟩
    · subst hat
      refine ⟨(if_neg hc).symm, ?_, btPageTrunc_mod haddr⟩
      rw [btPageTrunc_eq haddr]
      omega
  -- whether the pages could be entered
  have htables : ∀ {a : ℕ} {r : ℤ} {ys : List Entry} {s₁ t : Machine σ}, a < 2 ^ 32 → a % 4096 = 0 →
      Edit K m xs s ys s₁ → btMmuMap K (s.map m).pgd
      (K.pageAlloc (allocSize addr size flags) s₁.env).1 a
        (allocSize addr size flags) btPageSystem
        (s₁.pageCall K .segment (allocSize addr size flags)) = some (r, t) →
      (r = 0 ↔ tablesFor K (s.hasTable (getPgd (s.map m).pgd))
      (allocSize addr size flags / btPageSize) a
        (K.pageAlloc (allocSize addr size flags) s₁.env).2 = true) := by
    intro a r ys s₁ t ha haa e hrun
    have hdir : (s₁.pageCall K .segment (allocSize addr size flags)).hasTable = s.hasTable := by
      funext pgd i
      rw [Machine.hasTable, Machine.pageCall_dir, e.frame.dir, ← Machine.hasTable]
    rw [btMmuMap_system_iff ha haa hnlt hnmod hrun, hdir, Machine.pageCall_env]
  refine Prog.Ensures.iff_of (doAllocate_rule h haddr ?_ ?_ ?_ ?_ ?_)
  · exact fun hz => iff_of_true (.inl ⟨by simp, h.unchanged⟩) fun _ _ hne => absurd hz hne
  · intro xs' s' _ hnone hu e
    obtain rfl := hu.restored ht.apart ht.flags hsz
    exact iff_of_true (.inl ⟨by simp, e.shows.unchanged⟩) fun _ _ _ hsome =>
      absurd (hnone.symm.trans hsome) (by simp)
  · intro v a as j p bs s₁ _ hsome hob hat e hz s' e'
    rw [hrest hob] at e'
    refine iff_of_true (.inl ⟨by simp, e'.shows.unchanged⟩) fun v' e'' _ hv => .inl (.inl ?_)
    obtain ⟨rfl, rfl⟩ := Prod.mk.inj (Option.some.inj (hsome.symm.trans hv))
    exact hz
  · intro v a as j p bs s₁ _ hsome hob hat e hz r t hrun hr hframe s' e'
    obtain ⟨hat, halt, haa⟩ := hstart hob hat
    rw [hrest hob] at e'
    refine iff_of_true (.inl ⟨by simp, e'.shows.unchanged⟩) fun v' e'' _ hv => .inl (.inr ?_)
    obtain ⟨rfl, rfl⟩ := Prod.mk.inj (Option.some.inj (hsome.symm.trans hv))
    rw [← hat]
    exact fun hgrant => hr ((htables halt haa e hrun).mpr hgrant)
  · intro v a as j p bs s₁ hne hsome hob hat e hz t hrun hframe
    obtain ⟨hat, halt, haa⟩ := hstart hob hat
    have hgranted : ¬ PagesRefused K s m a (allocSize addr size flags) s₁.env := by
      rintro (hz' | hno)
      · exact hz hz'
      · exact hno ((htables halt haa e hrun).mp rfl)
    obtain ⟨hle, hin⟩ := hob.inside halt
    have hsh : Shows (t.allocated K m j a (K.pageAlloc (allocSize addr size flags) s₁.env).1
        (allocSize addr size flags)) m
          (as ++ (j, ⟨a, (K.pageAlloc (allocSize addr size flags) s₁.env).1,
          allocSize addr size flags, segRwx⟩) :: bs) := by
      have hst : Shows t m (as ++ (j, ⟨a, p, allocSize addr size flags, segRwx⟩) :: bs) :=
        hframe.shows (e.shows.congr rfl (fun _ _ => rfl) (le_refl _))
      exact (hst.setSeg _).congr rfl (fun _ _ => rfl) (le_refl _)
    have hserved := served_iff (if flags &&& btVmAllocAnywhere ≠ 0 then a
      else addr) size hb ht hob.carve hle
      hnmod hin not_has_free_rwx hsh
    have hreach : CutsPages v a (allocSize addr size flags) →
        (a ≤ (if flags &&& btVmAllocAnywhere ≠ 0 then a else addr) ∧
          (if flags &&& btVmAllocAnywhere ≠ 0 then a else addr) + size ≤
          a + allocSize addr size flags ↔
        (flags &&& btVmAllocAnywhere = 0 → addr + size ≤ btPageTrunc addr +
        allocSize addr size flags)) := by
      intro hcut
      have hpos := hcut.2.1
      unfold allocSize at hpos ⊢
      by_cases hc : flags &&& btVmAllocAnywhere ≠ 0
      · rw [if_pos hc] at hpos
        rw [if_pos hc, if_pos hc]
        have := le_btPageAlign hsize hpos
        exact iff_of_true ⟨le_refl _, by omega⟩ fun hc' => absurd hc' hc
      · rw [allocStart, if_neg hc] at hat
        have htr := btPageTrunc_eq haddr
        rw [if_neg hc, if_neg hc, hat]
        exact ⟨fun hr _ => hr.2, fun hr => ⟨by omega, hr (not_not.mp hc)⟩⟩
    constructor
    · rintro (⟨hno, -⟩ | ⟨-, hnew⟩) v' e'' _ hv
      · exact absurd rfl hno
      · obtain ⟨rfl, rfl⟩ := Prod.mk.inj (Option.some.inj (hsome.symm.trans hv))
        obtain ⟨hcut, hr⟩ := hserved.mp hnew
        rw [← hat]
        exact .inr ⟨hcut, (hreach hcut).mp hr⟩
    · intro hfit
      have hfit := hfit v s₁.env hne hsome
      rw [← hat] at hfit
      obtain ⟨hcut, hr⟩ := hfit.resolve_left hgranted
      exact .inr ⟨rfl, hserved.mpr ⟨hcut, (hreach hcut).mpr hr⟩⟩

/-! ## Freeing

The segment that starts at the address is freed as a whole. What can go wrong is that it is
shared. -/

/-- At one address there is one segment, in one place of the list. -/
theorem Paged.split_unique {as' bs' : List Entry} {i : ℕ} {w : Segment}
    (h : Shows s m (as ++ (i, v) :: bs)) (hp : Paged lo hi (as ++ (i, v) :: bs))
    (he : as ++ (i, v) :: bs = as' ++ (j, w) :: bs')
    (ha : w.addr = v.addr) : as' = as ∧ w = v ∧ bs' = bs := by
  have hw : (j, w) ∈ as ++ (i, v) :: bs := by simp [he]
  have hpos := (hp.tiles.bounds (x := (i, v)) (by simp)).2.1
  have hpos' := (hp.tiles.bounds hw).2.1
  have heq : (i, v) = (j, w) := hp.tiles.eq_of_mem (a := v.addr) (by simp) hw
    ⟨le_refl _, by simp only at hpos ⊢; omega⟩ ⟨ha.le, by simp only at hpos' ⊢; omega⟩
  obtain ⟨rfl, rfl⟩ := Prod.mk.inj heq
  obtain ⟨rfl, rfl⟩ := eq_of_split h.nodup.of_map he
  exact ⟨rfl, rfl, rfl⟩

theorem free_handled_iff {addr : ℕ} (hb : Bounds lo hi) (h : Shows s m xs) (ht : Tiled lo hi xs)
    (haddr : addr < 2 ^ 32) :
    (VmRequest.free addr).Handled K lo hi m xs s ↔ (VmRequest.free addr).Fits K m xs s := by
  have htrunc := btPageTrunc_eq haddr
  refine Prog.Ensures.iff_of (doFree_found h ?_ ?_)
  · intro hno s' hsh
    refine iff_of_true (.inl ⟨nofun, hsh.unchanged⟩) fun as i v bs hxs hv hvf _ => absurd ?_ hvf
    -- the lookup finds the segment at the address, if there is one
    subst hxs
    have hpos := (ht.tiles.bounds (x := (i, v)) (by simp)).2.1
    have hword : wordAdd (btPageTrunc addr) 0 = btPageTrunc addr := wordAdd_of_lt (by omega)
    have hpass : lookupTest (btPageTrunc addr) 0 v = true := by
      rw [lookupTest, hword, Bool.and_eq_true, decide_eq_true_eq, decide_eq_true_eq]
      simp only at hpos
      omega
    cases hfind : (as ++ (i, v) :: bs).find? fun x => lookupTest (btPageTrunc addr) 0 x.2 with
    | none => exact absurd hpass (List.find?_eq_none.mp hfind (i, v) (by simp))
    | some y =>
      have hy := List.mem_of_find?_eq_some hfind
      have htest := List.find?_some (p := fun x : Entry => lookupTest (btPageTrunc addr) 0 x.2)
        hfind
      rw [lookupTest, hword, Bool.and_eq_true, decide_eq_true_eq, decide_eq_true_eq] at htest
      obtain rfl : (i, v) = y := ht.tiles.eq_of_mem (a := btPageTrunc addr) (by simp) hy
        ⟨hv.le, by simp only at hpos ⊢; omega⟩ htest
      exact hno _ hfind hv
  · intro as i v bs t hxs hv hvf hsh
    subst hxs
    by_cases hs : v.has btSegShared
    · refine (btSegmentFree_shared hb hsh ht.toPaged hs).mono fun _ s' hiff => ?_
      constructor
      · rintro (⟨hno, -⟩ | ⟨ys, hys, hp⟩) as' i' w bs' hxs hw _ _
        · exact absurd rfl hno
        · obtain ⟨rfl, rfl, rfl⟩ := Paged.split_unique h ht.toPaged hxs (hw.trans hv.symm)
          exact hiff.mp ⟨ys, hys.congr rfl (fun _ _ => rfl) (le_refl _), hp⟩
      · intro hfit
        obtain ⟨ys, hys, hp⟩ := hiff.mpr (hfit as i v bs rfl hv hvf hs)
        exact .inr ⟨ys, hys.congr rfl (fun _ _ => rfl) (le_refl _), hp⟩
    · refine (btSegmentFree_spec hsh hs).mono fun _ s' e => ?_
      refine iff_of_true (.inr ⟨_, e.shows.congr rfl (fun _ _ => rfl) (le_refl _),
        ht.toPaged.freeAt hb⟩) ?_
      intro as' i' w bs' hxs hw _ hws
      obtain ⟨-, rfl, -⟩ := Paged.split_unique h ht.toPaged hxs (hw.trans hv.symm)
      exact absurd hws hs

/-! ## All requests

The three kinds are put together. -/

/-- **Which requests are handled.** On a map whose segments tile their interval in whole
pages, coalesced, for any addresses and sizes and whatever fails: the call leaves the
segments as they were, or a tiling with the bytes that were asked for in a new segment, if and
only if the request fits. -/
theorem vm_request_iff {req : VmRequest} (hb : Bounds lo hi) (h : Shows s m xs)
    (ht : Tiled lo hi xs) (hw : req.Words) : req.Handled K lo hi m xs s ↔ req.Fits K m xs s := by
  cases req with
  | mapRegion pa va size type => exact map_handled_iff hb h ht hw.1 hw.2
  | allocate addr size flags => exact allocate_handled_iff hb h ht hw.1 hw.2
  | free addr => exact free_handled_iff hb h ht hw

/-- A page anywhere, on a new map. -/
theorem vm_request_iff_anywhere :
    (VmRequest.allocate 0 0x1000 btVmAllocAnywhere).Handled stockKernel btPageSize btMmUserLimit 1
      [(2, initialSegment)] (freshMap ⟨10, 10, 0x10000000, 0x10100000, 10⟩) := by
  have hwords : (VmRequest.allocate 0 0x1000 btVmAllocAnywhere).Words := ⟨by decide, by decide⟩
  refine (vm_request_iff user_bounds (freshMap_shows _) (initialSegment_ok 2).tiled
    hwords).mpr fun v e _ hv => ?_
  have htarget : obtainTarget stockKernel ⟨10, 10, 0x10000000, 0x10100000, 10⟩ [(2, initialSegment)]
      (btVmAllocAnywhere &&& btVmAllocAnywhere ≠ 0) (btPageTrunc 0)
      (allocSize 0 0x1000 btVmAllocAnywhere) =
      some (initialSegment, ⟨9, 10, 0x10000000, 0x10100000, 10⟩) := rfl
  obtain ⟨rfl, -⟩ := Prod.mk.inj (Option.some.inj (htarget.symm.trans hv))
  exact .inr ⟨by decide, fun hc => absurd hc (by decide)⟩

/-- A page at an address in the middle of one, on a new map: what is mapped is the page the address
is in, and the second half of the request is not. -/
theorem allocate_misses_end :
    let s : Machine Stock := freshMap ⟨10, 10, 0x10000000, 0x10100000, 10⟩
    Shows s 1 [(2, initialSegment)] ∧ SegmentsOk btPageSize btMmUserLimit [(2, initialSegment)] ∧
      ¬(VmRequest.allocate 0x1800 0x1000 0).Handled stockKernel btPageSize btMmUserLimit 1
        [(2, initialSegment)] s := by
  have hok := initialSegment_ok 2
  refine ⟨freshMap_shows _, hok, fun hhandled => ?_⟩
  have hfits := (allocate_handled_iff user_bounds (freshMap_shows _) hok.tiled (by decide)
    (by decide)).mp hhandled
  rcases hfits initialSegment ⟨9, 10, 0x10000000, 0x10100000, 10⟩
    (by decide) rfl with hno | ⟨-, hreach⟩
  · rcases hno with hno | hno
    · exact absurd hno (by decide)
    · exact absurd (by decide) hno
  · exact absurd (hreach rfl) (by decide)

end BitThunder
