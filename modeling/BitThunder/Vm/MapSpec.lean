import BitThunder.Vm.Map
import BitThunder.Vm.MmuSpec
import BitThunder.Vm.Layout

/-!
# One rule for each operation on a map

For an operation started in a state where the map shows a list of segments, its
rule lists the ways it can end: to show a postcondition, show it for each of them.
What happened to the segments is told as edits of the list, what happened to the
page tables as a run of `bt_mmu_map`. The properties of the address space below are
all proved through these rules.

The rules that give segments back ask for unshared segments; none asks for a tiling,
nor for arguments that make sense.

A rule has the form of a case distinction over endings, each with the state it ends in written as an
edit of the list, a run of `bt_mmu_map` and field updates on the map. Nothing is said about whether
the ending is a good one. A property of the address space is proved by giving a postcondition and
showing it for every ending, and the same rule serves for the layout of the segments, for the
accounting of `map->size` and for the locks.

What decides between the endings are the kernel's services, through `allocTarget` and
`obtainTarget`: the free segment that a request is cut from together with the state of the services
after the blocks for it were had. These are functions of the state before the call, so that a
theorem about failure can be stated without running the code.
-/

namespace BitThunder

variable {σ : Type} {K : Kernel σ} {s : Machine σ} {m : ℕ} {xs as bs : List Entry}

/-- A segment was obtained: cut off the front of the first free segment that is
large enough, or cut out of the free segment that holds the range. -/
inductive Obtained (xs : List Entry) : Segment → ℕ → ℕ → List Entry → ℕ → ℕ → List Entry →
    Prop where
  | anywhere {v : Segment} {as bs : List Entry} {n j p : ℕ} : allocTest n v →
      Carve xs v v.addr n as j p bs → Obtained xs v v.addr n as j p bs
  | fixed {v : Segment} {as bs : List Entry} {a n j p : ℕ} : lookupTest (btPageTrunc a) n v →
      Carve xs v a n as j p bs → Obtained xs v a n as j p bs

/-- A segment that was obtained was carved out of a free one. -/
theorem Obtained.carve {v : Segment} {a n j p : ℕ} (h : Obtained xs v a n as j p bs) :
    Carve xs v a n as j p bs := by
  cases h with
  | anywhere _ hc => exact hc
  | fixed _ hc => exact hc

/-- An obtained segment fits into the layout, if the request made sense. -/
theorem Obtained.ok {lo hi : ℕ} {v : Segment} {a n j p : ℕ} (h : Obtained xs v a n as j p bs)
    (hb : Bounds lo hi) (hok : SegmentsOk lo hi xs) (hpos : 0 < n) (hn : n % 4096 = 0)
    (haa : a % 4096 = 0) (hend : a + n < 2 ^ 32 ∨ a = v.addr ∧ allocTest n v) :
    SegmentsOk lo hi (as ++ (j, ⟨a, p, n, 0⟩) :: bs) := by
  have hcase : v.addr ≤ a ∧ a + n ≤ v.addr + v.size := by
    cases h with
    | anywhere ht _ =>
      simp only [allocTest, Bool.and_eq_true, decide_eq_true_eq] at ht
      omega
    | fixed ht _ =>
      rcases hend with hend | ⟨rfl, ha⟩
      · rw [btPageTrunc_of_aligned (by omega) haa] at ht
        simp only [lookupTest, Bool.and_eq_true, decide_eq_true_eq] at ht
        rw [wordAdd_of_lt hend] at ht
        omega
      · simp only [allocTest, Bool.and_eq_true, decide_eq_true_eq] at ha
        omega
  exact hok.carve hb h.carve hcase.1 hcase.2 hpos hn haa

/-- The free segment that a request for `n` bytes is cut from, anywhere or at `a`, and the
state of the services after that. -/
def obtainTarget (K : Kernel σ) (e : σ) (xs : List Entry) (anywhere : Prop) [Decidable anywhere]
    (a n : ℕ) : Option (Segment × σ) :=
  if anywhere then allocTarget K e xs n else reserveTarget K e xs a n

/-- The segment a fixed-address or an anywhere request obtains. -/
theorem obtain_spec (h : Shows s m xs) (c : Prop) [Decidable c] (va size : ℕ) :
    Prog.Ensures (if c then btSegmentAlloc K m size else btSegmentReserve K m va size) s
      fun r s' =>
        (r = none ∧ obtainTarget K s.env xs c va (btPageAlign size) = none ∧
          ∃ xs', Undone xs xs' ∧ Edit K m xs s xs' s') ∨
        ∃ v a as j p bs f, r = some j ∧
          obtainTarget K s.env xs c va (btPageAlign size) = some (v, s'.env) ∧
          Obtained xs v a (btPageAlign size) as j p bs ∧
          (if c then a = v.addr ∧ allocTest (btPageAlign size) v else a = va) ∧
          Edit K m xs s (as ++ (j, ⟨a, p, btPageAlign size, f⟩) :: bs) s' := by
  rw [Prog.ensures_ite, obtainTarget]
  refine ⟨fun hc => ?_, fun hc => ?_⟩
  · rw [if_pos hc]
    refine (btSegmentAlloc_spec h size).mono fun r s' hr => ?_
    rcases hr with ⟨rfl, hnone, e⟩ | ⟨v, as, j, p, bs, rfl, hsome, ht, hcv, e⟩
    · exact .inl ⟨rfl, hnone, xs, .same, e⟩
    · refine .inr ⟨v, v.addr, as, j, p, bs, v.flags, rfl, hsome, .anywhere ht hcv, ?_, e⟩
      rw [if_pos hc]
      exact ⟨rfl, ht⟩
  · rw [if_neg hc]
    refine (btSegmentReserve_spec h va size).mono fun r s' hr => ?_
    rcases hr with ⟨rfl, hnone, xs', hu, e⟩ | ⟨v, as, j, p, bs, rfl, hsome, ht, hcv, e⟩
    · exact .inl ⟨rfl, hnone, xs', hu, e⟩
    · refine .inr ⟨v, va, as, j, p, bs, 0, rfl, hsome, .fixed ht hcv, ?_, e⟩
      rw [if_neg hc]

/-! ## Allocating

Besides success the endings are an empty request, a refused segment, refused pages and a refused
page table. -/

/-- The flags of an allocated segment. -/
def segRwx : ℕ := btSegRead ||| btSegWrite ||| btSegExec

theorem not_has_shared_rwx {a p n : ℕ} : ¬ Segment.has ⟨a, p, n, segRwx⟩ btSegShared := by
  change ¬ (segRwx &&& btSegShared != 0) = true
  decide

/-- The state in which a successful allocation of `[a, a + n)` in the segment `j`
ends: `t` is the state after `bt_mmu_map`. -/
@[simps!] def Machine.allocated (K : Kernel σ) (t : Machine σ) (m j a pa n : ℕ) : Machine σ :=
  (((t.setSeg j ⟨a, pa, n, segRwx⟩).setRam fun x =>
    if K.ram.physToVirt pa ≤ x ∧ x < K.ram.physToVirt pa + n then 0 else t.ram x).setMap m
      { t.map m with size := wordAdd (t.map m).size n }).emit (.unlock (.map m))

/-- How `do_allocate` ends once it has its segment. -/
theorem allocateInto_rule {Q : BtError × ℕ → Machine σ → Prop} {j a p n f addr : ℕ}
    (h : Shows s m (as ++ (j, ⟨a, p, n, f⟩) :: bs))
    (noPages : ∀ s₁, s₁.env = s.env → Edit K m (as ++ (j, ⟨a, p, n, f⟩) :: bs) s
        (as ++ (j, ⟨a, p, n, segRwx⟩) :: bs) s₁ → (K.pageAlloc n s₁.env).1 = 0 →
      ∀ s', Edit K m (as ++ (j, ⟨a, p, n, segRwx⟩) :: bs) (s₁.pageCall K .segment n)
        (freeAt as j ⟨a, p, n, segRwx⟩ bs) s' → Q (.noMemory, addr) s')
    (noTables : ∀ s₁, s₁.env = s.env → Edit K m (as ++ (j, ⟨a, p, n, f⟩) :: bs) s
        (as ++ (j, ⟨a, p, n, segRwx⟩) :: bs) s₁ → (K.pageAlloc n s₁.env).1 ≠ 0 →
      ∀ e t, btMmuMap K (s.map m).pgd (K.pageAlloc n s₁.env).1 a n btPageSystem
        (s₁.pageCall K .segment n) = some (e, t) → e ≠ 0 →
      TableFrame K (s₁.pageCall K .segment n) t →
      ∀ s', Edit K m (as ++ (j, ⟨a, p, n, segRwx⟩) :: bs)
        (t.pageReturn K .segment (K.pageAlloc n s₁.env).1 n)
        (freeAt as j ⟨a, p, n, segRwx⟩ bs) s' → Q (.noMemory, addr) s')
    (done : ∀ s₁, s₁.env = s.env → Edit K m (as ++ (j, ⟨a, p, n, f⟩) :: bs) s
        (as ++ (j, ⟨a, p, n, segRwx⟩) :: bs) s₁ → (K.pageAlloc n s₁.env).1 ≠ 0 →
      ∀ t, btMmuMap K (s.map m).pgd (K.pageAlloc n s₁.env).1 a n btPageSystem
        (s₁.pageCall K .segment n) = some (0, t) →
      TableFrame K (s₁.pageCall K .segment n) t →
      Q (.none, a) (t.allocated K m j a (K.pageAlloc n s₁.env).1 n)) :
    Prog.Ensures (allocateInto K m j addr n) s Q := by
  have e₁ : Edit K m (as ++ (j, ⟨a, p, n, f⟩) :: bs) s (as ++ (j, ⟨a, p, n, segRwx⟩) :: bs)
      (s.setSeg j ⟨a, p, n, segRwx⟩) := Edit.setSeg h _
  have hs : s.seg j = ⟨a, p, n, f⟩ := h.seg_at
  have hcall : Shows ((s.setSeg j ⟨a, p, n, segRwx⟩).pageCall K .segment n) m
      (as ++ (j, ⟨a, p, n, segRwx⟩) :: bs) := e₁.shows.congr rfl (fun _ _ => rfl) (le_refl _)
  unfold allocateInto
  simp only [modifySeg, Prog.ensures_bind, Prog.ensures_update, hs]
  change Prog.Ensures (pageAlloc K .segment n) (s.setSeg j ⟨a, p, n, segRwx⟩) _
  unfold pageAlloc
  rw [Prog.ensures_service, Prog.ensures_ite]
  refine ⟨fun hz => ?_, fun hz => ?_⟩
  · simp only [Prog.ensures_bind]
    refine (btSegmentFree_spec hcall not_has_shared_rwx).mono fun _ s₂ e₂ => ?_
    simp only [mapUnlock, Prog.ensures_update, Prog.ensures_pure]
    exact noPages (s.setSeg j _) rfl e₁ hz _ (e₂.trans (.emit e₂.shows trivial rfl))
  · simp only [Prog.ensures_bind, Prog.ensures_read, hcall.seg_at]
    obtain ⟨e, t, hrun, hframe⟩ := btMmuMap_frame (K := K)
      (s := (s.setSeg j ⟨a, p, n, segRwx⟩).pageCall K .segment n) (s.map m).pgd
      (K.pageAlloc n s.env).1 a n btPageSystem
    refine ⟨e, t, hrun, ?_⟩
    have ht : Shows t m (as ++ (j, ⟨a, p, n, segRwx⟩) :: bs) := hframe.shows hcall
    simp only [Prog.ensures_ite]
    refine ⟨fun he => ?_, fun he => ?_⟩
    · have hret : Shows (t.pageReturn K .segment (K.pageAlloc n s.env).1 n) m
          (as ++ (j, ⟨a, p, n, segRwx⟩) :: bs) := ht.congr rfl (fun _ _ => rfl) (le_refl _)
      simp only [pageFree, Prog.ensures_bind, Prog.ensures_update]
      refine (btSegmentFree_spec hret not_has_shared_rwx).mono fun _ s₂ e₂ => ?_
      simp only [mapUnlock, Prog.ensures_update, Prog.ensures_pure]
      exact noTables (s.setSeg j _) rfl e₁ hz e t hrun he
        hframe _ (e₂.trans (.emit e₂.shows trivial rfl))
    · have he : e = 0 := not_not.mp he
      subst he
      simp only [modifyMap, memclear, mapUnlock, Prog.ensures_bind, Prog.ensures_update,
        Prog.ensures_pure, ht.seg_at]
      exact done (s.setSeg j _) rfl e₁ hz t hrun hframe

/-- The size `do_allocate` works with. -/
def allocSize (addr size flags : ℕ) : ℕ :=
  if flags &&& btVmAllocAnywhere ≠ 0 then btPageAlign size
  else wordSub (btPageAlign (wordAdd (btPageTrunc addr) size)) (btPageTrunc addr)

theorem btPageAlign_allocSize {addr : ℕ} (ha : addr < 2 ^ 32) (size flags : ℕ) :
    btPageAlign (allocSize addr size flags) = allocSize addr size flags := by
  unfold allocSize
  split
  · exact btPageAlign_btPageAlign size
  · exact btPageAlign_of_aligned (wordSub_lt _ _)
      (wordSub_mod (btPageAlign_mod _) (btPageTrunc_mod ha))

/-- The address an allocation may end up at. -/
def AllocAt (addr size flags : ℕ) (v : Segment) (a : ℕ) : Prop :=
  if flags &&& btVmAllocAnywhere ≠ 0 then a = v.addr ∧ allocTest (allocSize addr size flags) v
  else a = btPageTrunc addr

/-- The rest of `do_allocate`, when it has asked for a segment -/
def allocateWith (K : Kernel σ) (m addr n : ℕ) : Option ℕ → Prog (Machine σ) (BtError × ℕ)
  | none => do
    mapUnlock m
    pure (.noMemory, addr)
  | some i => allocateInto K m i addr n

/-- How `do_allocate` ends. -/
theorem doAllocate_rule {Q : BtError × ℕ → Machine σ → Prop} {addr size flags : ℕ}
    (h : Shows s m xs) (ha : addr < 2 ^ 32)
    (zero : size = 0 → Q (.generic, addr) s)
    (refused : ∀ xs' s', size ≠ 0 → obtainTarget K s.env xs (flags &&& btVmAllocAnywhere ≠ 0)
        (btPageTrunc addr) (allocSize addr size flags) = none →
      Undone xs xs' → Edit K m xs s xs' s' → Q (.noMemory, addr) s')
    (noPages : ∀ v a as j p bs s₁, size ≠ 0 →
      obtainTarget K s.env xs (flags &&& btVmAllocAnywhere ≠ 0) (btPageTrunc addr)
        (allocSize addr size flags) = some (v, s₁.env) →
      Obtained xs v a (allocSize addr size flags) as j p bs → AllocAt addr size flags v a →
      Edit K m xs s (as ++ (j, ⟨a, p, allocSize addr size flags, segRwx⟩) :: bs) s₁ →
      (K.pageAlloc (allocSize addr size flags) s₁.env).1 = 0 →
      ∀ s', Edit K m (as ++ (j, ⟨a, p, allocSize addr size flags, segRwx⟩) :: bs)
        (s₁.pageCall K .segment (allocSize addr size flags))
        (freeAt as j ⟨a, p, allocSize addr size flags, segRwx⟩ bs) s' → Q (.noMemory, addr) s')
    (noTables : ∀ v a as j p bs s₁, size ≠ 0 →
      obtainTarget K s.env xs (flags &&& btVmAllocAnywhere ≠ 0) (btPageTrunc addr)
        (allocSize addr size flags) = some (v, s₁.env) →
      Obtained xs v a (allocSize addr size flags) as j p bs → AllocAt addr size flags v a →
      Edit K m xs s (as ++ (j, ⟨a, p, allocSize addr size flags, segRwx⟩) :: bs) s₁ →
      (K.pageAlloc (allocSize addr size flags) s₁.env).1 ≠ 0 →
      ∀ e t, btMmuMap K (s.map m).pgd (K.pageAlloc (allocSize addr size flags) s₁.env).1 a
        (allocSize addr size flags) btPageSystem
        (s₁.pageCall K .segment (allocSize addr size flags)) = some (e, t) → e ≠ 0 →
      TableFrame K (s₁.pageCall K .segment (allocSize addr size flags)) t →
      ∀ s', Edit K m (as ++ (j, ⟨a, p, allocSize addr size flags, segRwx⟩) :: bs)
        (t.pageReturn K .segment (K.pageAlloc (allocSize addr size flags) s₁.env).1
          (allocSize addr size flags))
        (freeAt as j ⟨a, p, allocSize addr size flags, segRwx⟩ bs) s' → Q (.noMemory, addr) s')
    (done : ∀ v a as j p bs s₁, size ≠ 0 →
      obtainTarget K s.env xs (flags &&& btVmAllocAnywhere ≠ 0) (btPageTrunc addr)
        (allocSize addr size flags) = some (v, s₁.env) →
      Obtained xs v a (allocSize addr size flags) as j p bs → AllocAt addr size flags v a →
      Edit K m xs s (as ++ (j, ⟨a, p, allocSize addr size flags, segRwx⟩) :: bs) s₁ →
      (K.pageAlloc (allocSize addr size flags) s₁.env).1 ≠ 0 →
      ∀ t, btMmuMap K (s.map m).pgd (K.pageAlloc (allocSize addr size flags) s₁.env).1 a
        (allocSize addr size flags) btPageSystem
        (s₁.pageCall K .segment (allocSize addr size flags)) = some (0, t) →
      TableFrame K (s₁.pageCall K .segment (allocSize addr size flags)) t →
      Q (.none, a) (t.allocated K m j a (K.pageAlloc (allocSize addr size flags) s₁.env).1
        (allocSize addr size flags))) :
    Prog.Ensures (doAllocate K m addr size flags) s Q := by
  have e₀ : Edit K m xs s xs (s.emit (.lock (.map m))) := .emit h trivial rfl
  -- whichever way the segment is obtained, the rest is the same
  have key : ∀ n, n = allocSize addr size flags → size ≠ 0 →
      Prog.Ensures ((if flags &&& btVmAllocAnywhere ≠ 0 then btSegmentAlloc K m n
        else btSegmentReserve K m (btPageTrunc addr) n) >>= allocateWith K m addr n)
          (s.emit (.lock (.map m))) Q := by
    intro n hn hsz
    have hal : btPageAlign n = n := by
      rw [hn]
      exact btPageAlign_allocSize ha size flags
    rw [Prog.ensures_bind]
    refine (obtain_spec e₀.shows (flags &&& btVmAllocAnywhere ≠ 0) (btPageTrunc addr) n).mono
      fun r s₁ hr => ?_
    rw [hal] at hr
    rcases hr with ⟨rfl, hnone, xs', hu, e⟩ | ⟨v, a, as, j, p, bs, f, rfl, hsome, hob, hat, e⟩
    · simp only [allocateWith, mapUnlock, Prog.ensures_bind, Prog.ensures_update, Prog.ensures_pure]
      exact refused xs' _ hsz
        (by rw [← hn]; exact hnone) hu ((e₀.trans e).trans (.emit e.shows trivial rfl))
    · have hmap : s₁.map = s.map := (e₀.trans e).frame.map
      subst hn
      have hat' : AllocAt addr size flags v a := hat
      refine allocateInto_rule e.shows ?_ ?_ ?_
      · intro s₂ henv e₂ hz s' e'
        exact noPages v a as j p bs s₂ hsz (henv ▸ hsome) hob hat' ((e₀.trans e).trans e₂) hz s' e'
      · intro s₂ henv e₂ hz e' t hrun he hframe s' e''
        rw [hmap] at hrun
        exact noTables v a as j p bs s₂ hsz (henv ▸ hsome) hob hat'
          ((e₀.trans e).trans e₂) hz e' t hrun
          he hframe s' e''
      · intro s₂ henv e₂ hz t hrun hframe
        rw [hmap] at hrun
        exact done v a as j p bs s₂ hsz (henv ▸ hsome) hob hat' ((e₀.trans e).trans e₂) hz t hrun
          hframe
  unfold doAllocate
  rw [Prog.ensures_ite]
  refine ⟨fun hz => Prog.ensures_pure.mpr (zero hz), fun hsz => ?_⟩
  simp only [mapLock]
  rw [Prog.ensures_bind, Prog.ensures_update, Prog.ensures_ite]
  refine ⟨fun hc => ?_, fun hc => ?_⟩
  · have := key (btPageAlign size) (by rw [allocSize, if_pos hc]) hsz
    rw [if_pos hc] at this
    exact this
  · have := key (wordSub (btPageAlign (wordAdd (btPageTrunc addr) size)) (btPageTrunc addr))
      (by rw [allocSize, if_neg hc]) hsz
    rw [if_neg hc] at this
    exact this

/-! ## Freeing

The segment that starts at the address is given back, or there is none and the list stays as it
is. -/

/-- The state after the pages of the segment `v` were unmapped (`t`) and, if they
came from `bt_page_alloc`, given back. -/
def Machine.released (K : Kernel σ) (t : Machine σ) (v : Segment) : Machine σ :=
  if v.has btSegMapped then t else t.pageReturn K .segment v.phys v.size

/-- What `do_free` and `bt_vm_destroy` do with the pages of a segment nobody
shares. -/
theorem releasePages_rule {Q : Unit → Machine σ → Prop} {i : ℕ} {v : Segment}
    (hv : s.seg i = v) (hs : ¬ v.has btSegShared)
    (done : ∀ e t, btMmuMap K (s.map m).pgd v.phys v.addr v.size btPageUnmap s = some (e, t) →
      TableFrame K s t → Q () (t.released K v)) :
    Prog.Ensures (releasePages K m i) s Q := by
  subst hv
  unfold releasePages
  simp only [Prog.ensures_bind, Prog.ensures_read]
  obtain ⟨e, t, hrun, hframe⟩ := btMmuMap_frame (K := K) (s := s) (s.map m).pgd (s.seg i).phys
    (s.seg i).addr (s.seg i).size btPageUnmap
  refine ⟨e, t, hrun, ?_⟩
  have hq := done e t hrun hframe
  unfold Machine.released at hq
  simp only [pageFree, Prog.ensures_when, Prog.ensures_update, Bool.and_eq_true, Bool.not_eq_true',
    Bool.not_eq_true] at hs ⊢
  by_cases hm : (s.seg i).has btSegMapped
  · rw [if_pos hm] at hq
    exact ⟨fun h => by simp [hm] at h, fun _ => hq⟩
  · rw [if_neg hm] at hq
    exact ⟨fun _ => hq, fun h => absurd ⟨hs, by simpa using hm⟩ h⟩

theorem Machine.released_shows {t : Machine σ} {v : Segment} (h : Shows t m xs) :
    Shows (t.released K v) m xs := by
  unfold Machine.released
  split
  · exact h
  · exact h.congr rfl (fun _ _ => rfl) (le_refl _)

/-- How `do_free` ends. -/
theorem doFree_rule {Q : BtError → Machine σ → Prop} {addr : ℕ} (h : Shows s m xs)
    (hns : ∀ x ∈ xs, ¬ x.2.has btSegShared)
    (bad : ∀ s', Edit K m xs s xs s' → Q .generic s')
    (done : ∀ as i v bs s₁ e t, xs = as ++ (i, v) :: bs → v.addr = btPageTrunc addr →
      ¬ v.has btSegFree → Edit K m xs s xs s₁ →
      btMmuMap K (s.map m).pgd v.phys v.addr v.size btPageUnmap s₁ = some (e, t) →
      TableFrame K s₁ t →
      ∀ s', Edit K m xs ((t.released K v).setMap m
        { s.map m with size := wordSub (s.map m).size v.size }) (freeAt as i v bs) s' →
      Q .none s') :
    Prog.Ensures (doFree K m addr) s Q := by
  have e₀ : Edit K m xs s xs (s.emit (.lock (.map m))) := .emit h trivial rfl
  have hgen : Q .generic ((s.emit (.lock (.map m))).emit (.unlock (.map m))) :=
    bad _ (e₀.trans (.emit e₀.shows trivial rfl))
  unfold doFree btSegmentLookup
  simp only [mapLock]
  rw [Prog.ensures_bind, Prog.ensures_update, Prog.ensures_bind, e₀.shows.ensures_find]
  cases hfind : xs.find? fun x => lookupTest (btPageTrunc addr) 0 x.2 with
  | none =>
    simp only [Option.map_none, mapUnlock, Prog.ensures_bind, Prog.ensures_update,
      Prog.ensures_pure]
    exact hgen
  | some x =>
    obtain ⟨i, v⟩ := x
    obtain ⟨-, as, bs, rfl, -⟩ := List.find?_eq_some_iff_append.mp hfind
    have hs : ¬ v.has btSegShared := hns (i, v) (by simp)
    simp only [Option.map_some, Prog.ensures_bind, Prog.ensures_read, e₀.shows.seg_at]
    rw [Prog.ensures_ite]
    refine ⟨fun _ => ?_, fun hok => ?_⟩
    · simp only [mapUnlock, Prog.ensures_bind, Prog.ensures_update, Prog.ensures_pure]
      exact hgen
    · have hok : v.addr = btPageTrunc addr ∧ ¬ v.has btSegFree := by
        simpa [not_or] using hok
      rw [Prog.ensures_bind]
      refine releasePages_rule e₀.shows.seg_at hs fun e t hrun hframe => ?_
      have hmap : (t.released K v).map = s.map := by
        unfold Machine.released
        split
        · exact hframe.map
        · exact hframe.map
      simp only [modifyMap, mapUnlock, Prog.ensures_bind, Prog.ensures_update, hmap]
      have hsh : Shows ((t.released K v).setMap m
          { s.map m with size := wordSub (s.map m).size v.size }) m (as ++ (i, v) :: bs) :=
        (Machine.released_shows (hframe.shows e₀.shows)).congr rfl (fun _ _ => rfl) (le_refl _)
      refine (btSegmentFree_spec hsh hs).mono fun _ s₁ e₁ => ?_
      rw [Prog.ensures_pure]
      exact done as i v bs _ e t rfl hok.1 hok.2 e₀ hrun hframe _
        (e₁.trans (.emit e₁.shows trivial rfl))

/-! ## Mapping

A mapping has no ending for a refused page table, since the result of `bt_mmu_map` is not looked
at. -/

/-- How `bt_vm_unmap_region` ends. -/
theorem btVmUnmapRegion_rule {Q : Unit → Machine σ → Prop} {va : ℕ} (h : Shows s m xs)
    (hns : ∀ x ∈ xs, ¬ x.2.has btSegShared)
    (bad : ∀ s', (∀ x, (xs.find? fun x => lookupTest va 0 x.2) = some x → ¬ x.2.has btSegMapped) →
      Edit K m xs s xs s' → Q () s')
    (done : ∀ as i v bs s₁ e t, xs = as ++ (i, v) :: bs → lookupTest va 0 v → v.has btSegMapped →
      Edit K m xs s xs s₁ →
      btMmuMap K (s.map m).pgd v.phys v.addr v.size btPageUnmap s₁ = some (e, t) →
      TableFrame K s₁ t → ∀ s', Edit K m xs t (freeAt as i v bs) s' → Q () s') :
    Prog.Ensures (btVmUnmapRegion K m va) s Q := by
  have e₀ : Edit K m xs s xs (s.emit (.lock (.map m))) := .emit h trivial rfl
  have hbad (hnot : ∀ x, (xs.find? fun x => lookupTest va 0 x.2) = some x → ¬ x.2.has btSegMapped) :
      Q () ((s.emit (.lock (.map m))).emit (.unlock (.map m))) :=
    bad _ hnot (e₀.trans (.emit e₀.shows trivial rfl))
  unfold btVmUnmapRegion btSegmentLookup
  simp only [mapLock]
  rw [Prog.ensures_bind, Prog.ensures_update, Prog.ensures_bind, e₀.shows.ensures_find]
  cases hfind : xs.find? fun x => lookupTest va 0 x.2 with
  | none =>
    simp only [Option.map_none, mapUnlock, Prog.ensures_update]
    exact hbad fun x hx => absurd (hfind.symm.trans hx) nofun
  | some x =>
    obtain ⟨i, v⟩ := x
    obtain ⟨hlook, as, bs, rfl, -⟩ := List.find?_eq_some_iff_append.mp hfind
    have hs : ¬ v.has btSegShared := hns (i, v) (by simp)
    simp only [Option.map_some, Prog.ensures_bind, Prog.ensures_read, e₀.shows.seg_at]
    rw [Prog.ensures_ite]
    refine ⟨fun hm => ?_, fun hm => ?_⟩
    · obtain ⟨e, t, hrun, hframe⟩ := btMmuMap_frame (K := K) (s := s.emit (.lock (.map m)))
        (s.map m).pgd v.phys v.addr v.size btPageUnmap
      simp only [Prog.ensures_bind, Prog.ensures_read]
      refine ⟨e, t, hrun, ?_⟩
      refine (btSegmentFree_spec (hframe.shows e₀.shows) hs).mono fun _ s₁ e₁ => ?_
      simp only [mapUnlock, Prog.ensures_update]
      exact done as i v bs _ e t rfl hlook hm e₀ hrun
        hframe _ (e₁.trans (.emit e₁.shows trivial rfl))
    · simp only [mapUnlock, Prog.ensures_update]
      exact hbad fun x hx => Option.some.inj (hfind.symm.trans hx) ▸ hm

theorem not_has_shared_type {a p n type : ℕ} :
    ¬ Segment.has ⟨a, p, n, typeToSegflags type⟩ btSegShared ∧
      ¬ Segment.has ⟨a, p, n, typeToSegflags type ||| btSegMapped⟩ btSegShared := by
  unfold typeToSegflags
  split <;> constructor <;> simp only [Segment.has] <;> decide

/-- How `bt_vm_map_region` ends its work under the lock. The working segment is the static
one, which this call has just set. -/
theorem mapBody_rule {Q : Option ℕ × Bool → Machine σ → Prop} {pa va size type : ℕ}
    (h : Shows s m xs)
    (refused : ∀ xs' s₁, Undone xs xs' → obtainTarget K s.env xs (va = 0) va (btPageAlign size) =
      none →
      Edit K m xs s xs' s₁ → Q (none, false) (s₁.setMapSeg none))
    (badType : ∀ v a as j p bs f s₁, Obtained xs v a (btPageAlign size) as j p bs →
      (if va = 0 then a = v.addr ∧ allocTest (btPageAlign size) v else a = va) →
      Edit K m xs s (as ++ (j, ⟨a, p, btPageAlign size, f⟩) :: bs) s₁ → typeToSegflags type = 0 →
      ∀ s', Edit K m (as ++ (j, ⟨a, p, btPageAlign size, f⟩) :: bs) (s₁.setMapSeg (some j))
        (freeAt as j ⟨a, pa, btPageAlign size, 0⟩ bs) s' → Q (some j, false) s')
    (done : ∀ v a as j p bs f s₁, Obtained xs v a (btPageAlign size) as j p bs →
      (if va = 0 then a = v.addr ∧ allocTest (btPageAlign size) v else a = va) →
      Edit K m xs s (as ++ (j, ⟨a, p, btPageAlign size, f⟩) :: bs) s₁ → typeToSegflags type ≠ 0 →
      ∀ s₂ e t, obtainTarget K s.env xs (va = 0) va (btPageAlign size) = some (v, s₂.env) →
      Edit K m (as ++ (j, ⟨a, p, btPageAlign size, f⟩) :: bs) (s₁.setMapSeg (some j))
        (as ++ (j, ⟨a, pa, btPageAlign size, typeToSegflags type ||| btSegMapped⟩) :: bs) s₂ →
      btMmuMap K (s.map m).pgd pa a (btPageAlign size) type s₂ = some (e, t) →
      TableFrame K s₂ t → Q (some j, true) t) :
    Prog.Ensures (mapBody K m pa va size type) s Q := by
  unfold mapBody obtainRegion
  rw [Prog.ensures_bind]
  refine (obtain_spec h (va = 0) va size).mono fun r s₁ hr => ?_
  rw [Prog.ensures_bind, Prog.ensures_update, Prog.ensures_bind]
  rcases hr with ⟨rfl, hnone, xs', hu, e⟩ | ⟨v, a, as, j, p, bs, f, rfl, hsome, hob, hat, e⟩
  · simp only [enterRegion, Prog.ensures_bind, Prog.ensures_read, Machine.setMapSeg_mapSeg,
      Prog.ensures_pure]
    exact refused xs' s₁ hu hnone e
  · have hsh : Shows (s₁.setMapSeg (some j)) m (as ++ (j, ⟨a, p, btPageAlign size, f⟩) :: bs) :=
      e.shows.congr rfl (fun _ _ => rfl) (le_refl _)
    have e₁ := Edit.setSeg (K := K) hsh ⟨a, pa, btPageAlign size, f⟩
    have e₂ := e₁.trans (Edit.setSeg (K := K) e₁.shows
      ⟨a, pa, btPageAlign size, typeToSegflags type⟩)
    simp only [enterRegion, modifySeg, Prog.ensures_bind, Prog.ensures_read, Prog.ensures_update,
      Machine.setMapSeg_mapSeg, hsh.seg_at, e₁.shows.seg_at, e₂.shows.seg_at]
    rw [Prog.ensures_ite]
    refine ⟨fun hz => ?_, fun hz => ?_⟩
    · rw [Prog.ensures_bind]
      refine (btSegmentFree_spec e₂.shows not_has_shared_type.1).mono fun _ s₂ e₃ => ?_
      simp only [Prog.ensures_pure]
      have e₄ := e₂.trans e₃
      have hfree : freeAt as j ⟨a, pa, btPageAlign size, typeToSegflags type⟩ bs =
          freeAt as j ⟨a, pa, btPageAlign size, 0⟩ bs := rfl
      rw [hfree] at e₄
      exact badType v a as j p bs f s₁ hob hat e hz _ e₄
    · have e₃ := e₂.trans (Edit.setSeg (K := K) e₂.shows
        ⟨a, pa, btPageAlign size, typeToSegflags type ||| btSegMapped⟩)
      have hmap : s₁.map = s.map := e.frame.map
      simp only [Prog.ensures_bind, Prog.ensures_update, Prog.ensures_read, e₂.shows.seg_at,
        e₃.shows.seg_at, Machine.setSeg_map, Machine.setMapSeg_map, hmap]
      obtain ⟨e', t, hrun, hframe⟩ := btMmuMap_frame (K := K)
        (s := (((s₁.setMapSeg (some j)).setSeg j ⟨a, pa, btPageAlign size, f⟩).setSeg j
          ⟨a, pa, btPageAlign size, typeToSegflags type⟩).setSeg j
          ⟨a, pa, btPageAlign size, typeToSegflags type ||| btSegMapped⟩)
        (s.map m).pgd pa a (btPageAlign size) type
      refine ⟨e', t, hrun, ?_⟩
      simp only [Prog.ensures_pure]
      refine done v a as j p bs f s₁ hob hat e hz _ e' t ?_ e₃ hrun hframe
      exact hsome

/-- How `bt_vm_map_region` ends. -/
theorem btVmMapRegion_rule {Q : ℕ → Machine σ → Prop} {pa va size type : ℕ} (h : Shows s m xs)
    (refused : ∀ xs' s₁, Undone xs xs' → obtainTarget K s.env xs (va = 0) va (btPageAlign size) =
      none →
      Edit K m xs s xs' s₁ → ∀ s', Edit K m xs' (s₁.setMapSeg none) xs' s' → Q 0 s')
    (badType : ∀ v a as j p bs f s₁, Obtained xs v a (btPageAlign size) as j p bs →
      (if va = 0 then a = v.addr ∧ allocTest (btPageAlign size) v else a = va) →
      Edit K m xs s (as ++ (j, ⟨a, p, btPageAlign size, f⟩) :: bs) s₁ → typeToSegflags type = 0 →
      ∀ s', Edit K m (as ++ (j, ⟨a, p, btPageAlign size, f⟩) :: bs) (s₁.setMapSeg (some j))
        (freeAt as j ⟨a, pa, btPageAlign size, 0⟩ bs) s' → Q 0 s')
    (done : ∀ v a as j p bs f s₁, Obtained xs v a (btPageAlign size) as j p bs →
      (if va = 0 then a = v.addr ∧ allocTest (btPageAlign size) v else a = va) →
      Edit K m xs s (as ++ (j, ⟨a, p, btPageAlign size, f⟩) :: bs) s₁ → typeToSegflags type ≠ 0 →
      ∀ s₂ e t, obtainTarget K s.env xs (va = 0) va (btPageAlign size) = some (v, s₂.env) →
      Edit K m (as ++ (j, ⟨a, p, btPageAlign size, f⟩) :: bs) (s₁.setMapSeg (some j))
        (as ++ (j, ⟨a, pa, btPageAlign size, typeToSegflags type ||| btSegMapped⟩) :: bs) s₂ →
      btMmuMap K (s.map m).pgd pa a (btPageAlign size) type s₂ = some (e, t) →
      TableFrame K s₂ t → Q a (t.emit (.unlock (.map m)))) :
    Prog.Ensures (btVmMapRegion K m pa va size type) s Q := by
  have e₀ : Edit K m xs s xs (s.emit (.lock (.map m))) := .emit h trivial rfl
  rw [btVmMapRegion_eq]
  simp only [mapLock, mapUnlock, Prog.ensures_bind, Prog.ensures_update]
  refine mapBody_rule e₀.shows ?_ ?_ ?_
  · intro xs' s₁ hu hnone e
    have hsh : Shows (s₁.setMapSeg none) m xs' := e.shows.congr rfl (fun _ _ => rfl) (le_refl _)
    exact Prog.ensures_pure.mpr (refused xs' s₁ hu hnone (e₀.trans e) _ (.emit hsh trivial rfl))
  · intro v a as j p bs f s₁ hob hat e hz s' e'
    exact Prog.ensures_pure.mpr
      (badType v a as j p bs f s₁ hob hat (e₀.trans e) hz _ (e'.trans (.emit e'.shows trivial rfl)))
  · intro v a as j p bs f s₁ hob hat e hz s₂ e' t hsome e₃ hrun hframe
    have hseg : t.mapSeg = some j := hframe.mapSeg.trans e₃.frame.mapSeg
    have hst := hframe.shows e₃.shows
    simp only [mapReturn, if_true, staticSegAddr, Prog.ensures_bind, Prog.ensures_read,
      Machine.emit_mapSeg, Machine.emit_seg, hseg, hst.seg_at]
    exact done v a as j p bs f s₁ hob hat (e₀.trans e) hz s₂ e' t hsome e₃ hrun hframe

/-! ## Changing the protection

The segment keeps its range and gets other flags. -/

/-- The flags of a protection are among read, write and execute. -/
theorem attrFlags_lt (attr : ℕ) : attrFlags attr < 8 := by
  unfold attrFlags
  split <;> split <;> split <;> decide

theorem not_has_of_lt_eight {a p n f : ℕ} (hf : f < 8) :
    ¬ Segment.has ⟨a, p, n, f⟩ btSegFree ∧ ¬ Segment.has ⟨a, p, n, f⟩ btSegShared ∧
      ¬ Segment.has ⟨a, p, n, f⟩ btSegMapped := by
  simp only [Segment.has]
  interval_cases f <;> decide

/-- How `do_attribute` ends. -/
theorem doAttribute_rule {Q : BtError → Machine σ → Prop} {addr attr : ℕ} (h : Shows s m xs)
    (hns : ∀ x ∈ xs, ¬ x.2.has btSegShared)
    (same : ∀ r, Q r s)
    (noTables : ∀ as i v bs type s₁ e t, xs = as ++ (i, v) :: bs → ¬ v.has btSegFree →
      ¬ v.has btSegMapped → type = btPageRead ∨ type = btPageWrite → Edit K m xs s xs s₁ →
      btMmuMap K (s.map m).pgd v.phys v.addr v.size type s₁ = some (e, t) → e ≠ 0 →
      TableFrame K s₁ t → Q .noMemory t)
    (done : ∀ as i v bs type s₁ t, xs = as ++ (i, v) :: bs → ¬ v.has btSegFree →
      ¬ v.has btSegMapped → type = btPageRead ∨ type = btPageWrite → Edit K m xs s xs s₁ →
      btMmuMap K (s.map m).pgd v.phys v.addr v.size type s₁ = some (0, t) →
      TableFrame K s₁ t → Q .none (t.setSeg i { v with flags := attrFlags attr })) :
    Prog.Ensures (doAttribute K m addr attr) s Q := by
  unfold doAttribute btSegmentLookup
  rw [Prog.ensures_bind, h.ensures_find]
  cases hfind : xs.find? fun x => lookupTest (btPageTrunc addr) 0 x.2 with
  | none =>
    simp only [Option.map_none, Prog.ensures_pure]
    exact same _
  | some x =>
    obtain ⟨i, v⟩ := x
    obtain ⟨-, as, bs, rfl, -⟩ := List.find?_eq_some_iff_append.mp hfind
    have hs : ¬ v.has btSegShared := hns (i, v) (by simp)
    simp only [Option.map_some, Prog.ensures_bind, Prog.ensures_read, h.seg_at]
    rw [Prog.ensures_ite]
    refine ⟨fun _ => Prog.ensures_pure.mpr (same _), fun hok => ?_⟩
    rw [Prog.ensures_ite]
    refine ⟨fun _ => Prog.ensures_pure.mpr (same _), fun hm => ?_⟩
    rw [Prog.ensures_ite]
    refine ⟨fun _ => Prog.ensures_pure.mpr (same _), fun _ => ?_⟩
    have hf : ¬ v.has btSegFree := fun hf => hok (.inr hf)
    have e₁ : Edit K m (as ++ (i, v) :: bs) s (as ++ (i, v) :: bs) (s.emit (.lock .shared)) :=
      .emit h trivial rfl
    have e₂ := e₁.trans (Edit.emit (K := K) (e := .unlock .shared) e₁.shows trivial rfl)
    have htype : (if attrFlags attr &&& btSegWrite ≠ 0 then btPageWrite else btPageRead) =
        btPageRead ∨ (if attrFlags attr &&& btSegWrite ≠ 0 then btPageWrite else btPageRead) =
        btPageWrite := by
      split
      · exact .inr rfl
      · exact .inl rfl
    generalize (if attrFlags attr &&& btSegWrite ≠ 0 then btPageWrite else btPageRead) = type
      at htype ⊢
    rw [if_neg hs]
    simp only [sharedLock, sharedUnlock, attributePrivate, Prog.ensures_bind, Prog.ensures_update,
      Prog.ensures_read, e₂.shows.seg_at]
    obtain ⟨e, t, hrun, hframe⟩ := btMmuMap_frame (K := K)
      (s := (s.emit (.lock .shared)).emit (.unlock .shared)) (s.map m).pgd v.phys v.addr v.size type
    refine ⟨e, t, hrun, ?_⟩
    beta_reduce
    rw [Prog.ensures_ite]
    refine ⟨fun he => ?_, fun he => ?_⟩
    · rw [Prog.ensures_pure, if_pos (by decide), Prog.ensures_pure]
      exact noTables as i v bs type _ e t rfl hf hm htype e₂ hrun he hframe
    · have he : e = 0 := not_not.mp he
      subst he
      have ht : t.seg i = v := (hframe.shows e₂.shows).seg_at
      rw [Prog.ensures_pure, if_neg (by decide)]
      simp only [modifySeg, Prog.ensures_bind, Prog.ensures_update, Prog.ensures_pure, ht]
      exact done as i v bs type _ t rfl hf hm htype e₂ hrun hframe

end BitThunder
