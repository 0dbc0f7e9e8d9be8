import BitThunder.Loader.Load
import BitThunder.Vm.Agree

/-!
# The memory of a process and its map

`do_allocate` on a map does what `ProcessMemory.allocate` does, as far as the process sees it: the
kernel is free to refuse memory, and to take it from where it likes.

`MapHolds` relates the two levels: the regions of the process are the segments in use, and the
memory of the process is the memory of the machine behind the pages of each segment. The room that
`bt_segment_reserve` looks for is found in the free segments of a tiling. It has to end strictly
behind the range, since the lookup compares so, and therefore no region begins right behind what was
allocated.

This is what connects the loader to the address space: the outcome of an allocation is the kernel's
choice, and for each outcome there is a step of the process's memory that the map follows.
-/

namespace BitThunder

variable {σ : Type} {K : Kernel σ} {taken : σ → ℕ → Prop} {s s' t : Machine σ} {m : ℕ}
  {xs ys as bs : List Entry} {P : ProcessMemory}

/-- The regions are the segments in use, what is in them is in the memory behind their pages, and
the pages are taken. -/
structure MapHolds (K : Kernel σ) (taken : σ → ℕ → Prop) (m : ℕ) (s : Machine σ) (xs : List Entry)
    (P : ProcessMemory) :
    Prop where
  /-- the machine has the segments of the map -/
  shows : Shows s m xs
  /-- which tile the user addresses -/
  ok : SegmentsOk btPageSize btMmUserLimit xs
  /-- those that hold memory are the regions of the process -/
  regions : ∀ r, r ∈ P.regions ↔ ∃ x ∈ held xs, (x.2.addr, x.2.size) = r
  /-- the bytes of a region are in the pages behind it -/
  bytes : ∀ x ∈ held xs, ∀ o < x.2.size, s.ram (K.ram.physToVirt x.2.phys + o) =
    (P.mem (x.2.addr + o)).toNat
  /-- these pages end within the physical memory -/
  phys : ∀ x ∈ held xs, x.2.phys + x.2.size ≤ 2 ^ 32
  /-- and are not free -/
  taken : ∀ x ∈ held xs, ∀ o < x.2.size, taken s.env (x.2.phys + o)

/-- Pages that are taken stay taken while the kernel heap works. -/
def HeapKeeps (K : Kernel σ) (taken : σ → ℕ → Prop) : Prop :=
  ∀ e e' x, K.HeapStep e e' → taken e x → taken e' x

/-- An edit of the segments takes nothing away that was taken. -/
theorem HeapKeeps.edit (h : HeapKeeps K taken) (e : Edit K m xs s ys s') {x : ℕ}
    (hx : taken s.env x) :
    taken s'.env x := by
  have henv := e.frame.env
  generalize s'.env = e' at henv ⊢
  induction henv with
  | refl => exact hx
  | tail _ hstep ih => exact h _ _ _ hstep ih

theorem PageLaw.tables (law : PageLaw K taken) (hframe : TableFrame K s t) {x : ℕ}
    (hx : taken s.env x) :
    taken t.env x := by
  have henv := hframe.env
  generalize t.env = e' at henv ⊢
  induction henv with
  | refl => exact hx
  | tail _ hstep ih =>
    subst hstep
    exact law.cacheAlloc _ _ ih

/-- Pages that are apart are apart where the kernel sees them. -/
theorem physToVirt_apart {p q n k o : ℕ} (hp : p + n ≤ 2 ^ 32) (hq : q + k ≤ 2 ^ 32)
    (hapart : ∀ x, p ≤ x → x < p + n → ¬(q ≤ x ∧ x < q + k)) (ho : o < k) :
    ¬(K.ram.physToVirt p ≤ K.ram.physToVirt q + o ∧
      K.ram.physToVirt q + o < K.ram.physToVirt p + n) := by
  rintro ⟨hlo, hhi⟩
  obtain ⟨o', ho'⟩ := Nat.exists_eq_add_of_le hlo
  have hphys := K.ram.phys_lt
  have hvirt := K.ram.virt_lt
  have hmod : (p + o') % 2 ^ 32 = (q + o) % 2 ^ 32 := by
    unfold RamConfig.physToVirt at ho'
    omega
  rw [Nat.mod_eq_of_lt (by omega), Nat.mod_eq_of_lt (by omega)] at hmod
  exact hapart (p + o') (by omega) (by omega) ⟨by omega, by omega⟩

/-- The segments in use are the same, and so is what is in them. -/
theorem MapHolds.keep (h : MapHolds K taken m s xs P) (hshows : Shows s' m ys)
    (hok : SegmentsOk btPageSize btMmUserLimit ys) (hheld : held ys = held xs)
    (hram : s'.ram = s.ram)
    (htaken : ∀ x ∈ held xs, ∀ o < x.2.size, taken s'.env (x.2.phys + o)) :
    MapHolds K taken m s' ys P where
  shows := hshows
  ok := hok
  regions r := by rw [hheld]; exact h.regions r
  bytes x hx o ho := by rw [hram]; exact h.bytes x (hheld ▸ hx) o ho
  phys x hx := h.phys x (hheld ▸ hx)
  taken x hx := htaken x (hheld ▸ hx)

/-- A range that `bt_segment_lookup` has found is followed by the rest of the free segment. -/
theorem Carve.behind {v : Segment} {a n j p : ℕ} (hc : Carve xs v a n as j p bs)
    (hok : SegmentsOk btPageSize btMmUserLimit xs) (ht : lookupTest a n v) (hend : a + n < 2 ^ 32) :
    ∃ k w cs, bs = (k, w) :: cs ∧ w.has btSegFree := by
  simp only [lookupTest, Bool.and_eq_true, decide_eq_true_eq] at ht
  rw [wordAdd_of_lt hend] at ht
  cases hc with
  | @front _ cs _ k _ hxs hfree =>
    refine ⟨k, ⟨wordAdd v.addr n, 0, wordSub v.size n, btSegFree⟩, cs, ?_, has_free_self⟩
    rw [tailOf, if_neg (by omega)]
    rfl
  | @inner as' cs i _ k _ _ hxs hfree hne =>
    have hv :=
      (hxs ▸ hok.tiles).bounds (List.mem_append_right as' (List.mem_cons_self (a := (i, v))))
    have hlimit : btMmUserLimit < 2 ^ 32 := by decide
    dsimp only at hv
    have hdiff : wordSub a v.addr = a - v.addr := wordSub_of_le ht.1 (by omega)
    have hrest : wordSub v.size (wordSub a v.addr) = v.size - (a - v.addr) := by
      rw [hdiff]
      exact wordSub_of_le (by omega) (by omega)
    refine ⟨k, ⟨wordAdd a n, 0, wordSub (v.size - (a - v.addr)) n, btSegFree⟩, cs, ?_,
      has_free_self⟩
    rw [tailOf, hrest, if_neg (by dsimp only; omega)]
    rfl

/-- The segment that a range was cut out of passed the test of `bt_segment_lookup`. -/
theorem reserveTarget_lookup {e e' : σ} {v : Segment} {a n : ℕ}
    (h : reserveTarget K e xs a n = some (v, e')) :
    lookupTest (btPageTrunc a) n v := by
  rw [reserveTarget] at h
  cases hfind : xs.find? fun x => lookupTest (btPageTrunc a) n x.2 with
  | none =>
    rw [hfind] at h
    cases h
  | some x =>
    rw [hfind] at h
    dsimp only at h
    split_ifs at h
    obtain ⟨e'', -, h⟩ := Option.map_eq_some_iff.mp h
    obtain rfl : x.2 = v := (Prod.mk.inj h).1
    exact List.find?_some (p := fun x : Entry => lookupTest (btPageTrunc a) n x.2) hfind

/-- The range that was obtained is free of the regions, and does not end where one begins. -/
theorem MapHolds.room (h : MapHolds K taken m s xs P) {i a n p : ℕ}
    (hfit : SegmentsOk btPageSize btMmUserLimit (as ++ (i, ⟨a, p, n, 0⟩) :: bs))
    (hheld : held (as ++ bs) = held xs)
    (hbehind : ∃ k w cs, bs = (k, w) :: cs ∧ w.has btSegFree) : HasRoom P.regions a n := by
  obtain ⟨k, w, cs, rfl, hfree⟩ := hbehind
  obtain ⟨t₁, -, t₂⟩ := tiles_cut.mp hfit.tiles
  obtain ⟨hlo, -, -⟩ := hfit.tiles.bounds (List.mem_append_right as List.mem_cons_self)
  obtain ⟨haddr, hpos, t₃⟩ := tiles_cons.mp t₂
  refine ⟨hlo, (Nat.lt_add_of_pos_right hpos).trans_le t₃.le, fun r hr => ?_⟩
  obtain ⟨x, hx, rfl⟩ := (h.regions r).mp hr
  rw [← hheld] at hx
  rcases List.mem_append.mp hx.1 with hx' | hx'
  · exact .inr (t₁.bounds hx').2.2
  · rcases List.mem_cons.mp hx' with rfl | hx'
    · exact absurd hfree hx.2
    · exact .inl ((Nat.lt_add_of_pos_right hpos).trans_le (t₃.bounds hx').1)

/-- The state after an allocation -/
theorem MapHolds.allocated (h : MapHolds K taken m s xs P) {j a p n pa : ℕ}
    (hfit : SegmentsOk btPageSize btMmUserLimit (as ++ (j, ⟨a, p, n, 0⟩) :: bs))
    (hheld : held (as ++ bs) = held xs)
    (hroom : HasRoom P.regions a n) (ht : Shows t m (as ++ (j, ⟨a, p, n, segRwx⟩) :: bs))
    (hram : t.ram = s.ram) (hphys : pa + n ≤ 2 ^ 32)
    (hkept : ∀ x ∈ held xs, ∀ o < x.2.size, taken t.env (x.2.phys + o))
    (htaken : ∀ o < n, taken t.env (pa + o))
    (hapart : ∀ x ∈ held xs, ∀ y, pa ≤ y → y < pa + n → ¬(x.2.phys ≤ y ∧ y < x.2.phys + x.2.size)) :
    MapHolds K taken m (t.allocated K m j a pa n) (as ++ (j, ⟨a, pa, n, segRwx⟩) :: bs)
      ⟨(a, n) :: P.regions, P.mem.overlay a n zeroMemory⟩ := by
  have hnew : held (as ++ (j, ⟨a, pa, n, segRwx⟩) :: bs) =
      insert (j, ⟨a, pa, n, segRwx⟩) (held xs) := by
    rw [held_middle not_has_free_rwx, hheld]
  refine ⟨(ht.setSeg ⟨a, pa, n, segRwx⟩).congr rfl (fun _ _ => rfl) (le_refl _),
    hfit.hold rfl rfl not_has_free_rwx not_has_shared_rwx, fun r => ?_, ?_, ?_, ?_⟩
  · rw [hnew, List.mem_cons, h.regions]
    simp only [Set.mem_insert_iff, exists_eq_or_imp]
    rw [eq_comm]
  · rw [hnew]
    rintro x (rfl | hx) o ho
    · dsimp only at ho ⊢
      rw [Machine.allocated_ram, if_pos ⟨Nat.le_add_right _ _, by omega⟩, Memory.overlay_of_in ho]
      rfl
    · have hr : (x.2.addr, x.2.size) ∈ P.regions := (h.regions _).mpr ⟨x, hx, rfl⟩
      have hout : x.2.addr + o < a ∨ a + n ≤ x.2.addr + o := by
        have := hroom.2.2 _ hr
        dsimp only at this
        omega
      have hmem := h.bytes x hx o ho
      rw [Machine.allocated_ram, if_neg (physToVirt_apart hphys (h.phys x hx) (hapart x hx) ho),
        hram, hmem]
      exact congrArg UInt8.toNat (Memory.overlay_of_out hout).symm
  · rw [hnew]
    rintro x (rfl | hx)
    · exact hphys
    · exact h.phys x hx
  · rw [hnew]
    rintro x (rfl | hx)
    · exact htaken
    · exact hkept x hx

/-- `do_allocate` at a fixed address below the user limit -/
theorem allocate_holds (law : PageLaw K taken) (heap : HeapKeeps K taken)
    (h : MapHolds K taken m s xs P) {addr size : ℕ} (hlimit : addr + size ≤ btMmUserLimit) :
    Prog.Ensures (doAllocate K m addr size 0) s fun r s' => ∃ granted ys,
      r = (P.allocate granted addr size).1 ∧
      MapHolds K taken m s' ys (P.allocate granted addr size).2 := by
  have ha : addr < 2 ^ 32 := by
    unfold btMmUserLimit at hlimit
    omega
  have hb := user_bounds
  obtain ⟨seg, hseg⟩ : ∃ seg : LoaderSegment, seg = ⟨addr, 0, 0, size, 0⟩ := ⟨_, rfl⟩
  have haddr : seg.vAddr = addr := by rw [hseg]
  have hsize : seg.size = size := by rw [hseg]
  have hbelow : seg.vAddr + seg.size ≤ btMmUserLimit := by rwa [haddr, hsize]
  obtain ⟨-, -, hmod, hpages, hend⟩ := LoaderSegment.pages_spec hbelow
  have hn : allocSize addr size 0 = seg.pages := by
    rw [hseg]
    exact if_neg (by decide)
  have hlt : seg.start + seg.pages < 2 ^ 32 := hend.trans_lt (by decide)
  have hpagesMod : seg.pages % 4096 = 0 :=
    wordSub_mod (btPageAlign_mod _) (by rw [LoaderSegment.start, haddr]; exact btPageTrunc_mod ha)
  -- a segment of the right place and size
  have hfit {v a as j p bs} (h0 : size ≠ 0)
      (hob : Obtained xs v a (allocSize addr size 0) as j p bs)
      (hat : AllocAt addr size 0 v a) :
      a = seg.start ∧ SegmentsOk btPageSize btMmUserLimit
      (as ++ (j, ⟨a, p, seg.pages, 0⟩) :: bs) := by
    have hstart : a = seg.start := by
      rw [LoaderSegment.start, haddr]
      exact (if_neg (by decide) : AllocAt addr size 0 v a = _) ▸ hat
    rw [hn] at hob
    exact ⟨hstart, hob.ok hb h.ok (by omega) hpagesMod (hstart ▸ hmod) (.inl (hstart ▸ hlt))⟩
  -- nothing has changed
  have hsame {s' : Machine σ} {ys : List Entry} (h0 : size ≠ 0) (h' : MapHolds K taken m s' ys P) :
      ∃ granted ys, ((.noMemory, addr) : BtError × ℕ) = (P.allocate granted addr size).1 ∧
        MapHolds K taken m s' ys (P.allocate granted addr size).2 := by
    refine ⟨false, ys, ?_⟩
    have hno : P.allocate false seg.vAddr seg.size = ((.noMemory, seg.vAddr), P) :=
      allocate_refused (by rwa [hsize]) (by simp)
    rw [haddr, hsize] at hno
    rw [hno]
    exact ⟨rfl, h'⟩
  refine doAllocate_rule h.shows ha ?_ ?_ ?_ ?_ ?_
  · intro h0
    refine ⟨true, xs, ?_⟩
    rw [ProcessMemory.allocate, if_pos h0]
    exact ⟨rfl, h⟩
  · intro xs' s' h0 _ hu e
    rw [hu.eq h.ok hb] at e
    exact hsame h0 (h.keep e.shows h.ok rfl e.frame.ram fun x hx o ho => heap.edit e
      (h.taken x hx o ho))
  · intro v a as j p bs s₁ h0 _ hob hat e hz s' e'
    obtain ⟨-, hok⟩ := hfit h0 hob hat
    rw [hn] at e e' hob
    refine hsame h0 (h.keep e'.shows (hok.freeAt hb) (held_freeAt.trans (held_carve hob.carve))
      ((e'.frame.ram : s'.ram = s₁.ram).trans e.frame.ram) fun x hx o ho => ?_)
    exact heap.edit e' (law.keep _ _ _ (heap.edit e (h.taken x hx o ho)))
  · intro v a as j p bs s₁ h0 _ hob hat e hz e' t hrun he hframe s' e''
    obtain ⟨-, hok⟩ := hfit h0 hob hat
    rw [hn] at e e'' hob hz hframe hrun
    refine hsame h0 (h.keep e''.shows (hok.freeAt hb) (held_freeAt.trans (held_carve hob.carve))
      ((e''.frame.ram : s'.ram = t.ram).trans
        ((hframe.ram : t.ram = s₁.ram).trans e.frame.ram)) fun x hx o ho => ?_)
    have htaken := heap.edit e (h.taken x hx o ho)
    refine heap.edit e'' (law.free _ _ _ _ (law.tables hframe (law.keep _ _ _ htaken)) ?_)
    by_contra hin
    exact law.fresh _ _ _ hz (by omega) (by omega) htaken
  · intro v a as j p bs s₁ h0 htarget hob hat e hz t hrun hframe
    obtain ⟨rfl, hok⟩ := hfit h0 hob hat
    rw [hn] at e hob hz hframe hrun ⊢
    have htest : lookupTest seg.start seg.pages v := by
      have :=
        reserveTarget_lookup
          ((if_neg (by decide) : obtainTarget K s.env xs _ _ _ = _).symm.trans htarget)
      rwa [hn, ← haddr, ← LoaderSegment.start, btPageTrunc_of_aligned (by omega) hmod] at this
    have hroom := h.room hok (held_carve hob.carve) (hob.carve.behind h.ok htest hlt)
    have hheld := held_carve hob.carve
    have halign : btPageAlign seg.pages = seg.pages := hn ▸ btPageAlign_allocSize ha size 0
    have hfits := law.fits _ _ hz
    rw [halign] at hfits
    have ht : Shows t m (as ++ (j, ⟨seg.start, p, seg.pages, segRwx⟩) :: bs) :=
      hframe.shows (e.shows.congr rfl (fun _ _ => rfl) (le_refl _))
    refine ⟨true, as ++ (j, ⟨seg.start, (K.pageAlloc seg.pages s₁.env).1, seg.pages, segRwx⟩) :: bs,
      ?_⟩
    have hyes : P.allocate true seg.vAddr seg.size = ((.none, seg.start),
        ⟨(seg.start, seg.pages) :: P.regions, P.mem.overlay seg.start seg.pages zeroMemory⟩) :=
      allocate_done (by rwa [hsize]) ⟨rfl, hroom⟩
    rw [haddr, hsize] at hyes
    rw [hyes]
    refine ⟨rfl, h.allocated hok hheld hroom ht ((hframe.ram : t.ram = s₁.ram).trans e.frame.ram)
      hfits ?_ ?_ ?_⟩
    · exact fun x hx o ho => law.tables hframe (law.keep _ _ _ (heap.edit e (h.taken x hx o ho)))
    · exact fun o ho => law.tables hframe (law.take _ _ _ hz (by omega) (by omega))
    · rintro x hx y hlo hhi ⟨hlo', hhi'⟩
      obtain ⟨o, rfl⟩ := Nat.exists_eq_add_of_le hlo'
      exact law.fresh _ _ _ hz hlo (by omega) (heap.edit e (h.taken x hx o (by omega)))

end BitThunder
