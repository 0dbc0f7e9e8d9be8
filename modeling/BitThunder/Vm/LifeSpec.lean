import BitThunder.Vm.MapSpec

/-!
# Creating a map

What `bt_mmu_newmap` and `bt_vm_create` leave behind: a map with one free segment,
a first level table whose user part is that of the kernel's, and the account of
what was taken from the kernel.

The rule for `bt_vm_create` has an ending for each of the resources that may be refused, and in each
of them says what was taken before. The intermediate state `MapBegun` is shared: whatever happens to
the directory, the map's fields and its empty list were set up as it says.

`create_pgd` gets twice the size of a table from the page allocator, so that an aligned table lies
within, and gives the parts before and behind back. The balance counts bytes, so that it comes out
at one table whatever the address was.
-/

namespace BitThunder

variable {σ : Type} {K : Kernel σ} {s : Machine σ}

/-- What a call does to the number of bytes taken from the page allocator. -/
def Event.pages : Event → ℤ
  | .pageAlloc _ _ n => n
  | .pageFree _ _ n => -n
  | _ => 0

/-- The bytes of physical memory a log accounts for. -/
def pageBalance (log : List Event) : ℤ := (log.map Event.pages).sum

@[simp] theorem pageBalance_cons {e : Event} {log : List Event} :
    pageBalance (e :: log) = e.pages + pageBalance log := by
  simp [pageBalance]

/-- A call of the page allocator for a directory. -/
def Event.IsDirectory : Event → Prop
  | .pageAlloc .directory _ _ | .pageRefused .directory _ | .pageFree .directory _ _ => True
  | _ => False

/-- Between the two states only first level tables and the page allocator were
touched. -/
structure DirFrame (s s' : Machine σ) : Prop where
  fresh : s'.fresh = s.fresh
  ptr : s'.ptr = s.ptr
  links : s'.links = s.links
  seg : s'.seg = s.seg
  map : s'.map = s.map
  mapSeg : s'.mapSeg = s.mapSeg
  tbl : s'.tbl = s.tbl
  ram : s'.ram = s.ram
  task : s'.task = s.task
  /-- what has happened is about the pages of directories -/
  log : ∃ evs, s'.log = evs ++ s.log ∧ ∀ e ∈ evs, e.IsDirectory

theorem DirFrame.refl (s : Machine σ) : DirFrame s s where
  fresh := rfl
  ptr := rfl
  links := rfl
  seg := rfl
  map := rfl
  mapSeg := rfl
  tbl := rfl
  ram := rfl
  task := rfl
  log := ⟨[], rfl, by simp⟩

/-- Steps that leave the maps may follow each other. -/
theorem DirFrame.trans {s₁ s₂ : Machine σ} (h : DirFrame s s₁) (h' : DirFrame s₁ s₂) :
    DirFrame s s₂ where
  fresh := h'.fresh.trans h.fresh
  ptr := h'.ptr.trans h.ptr
  links := h'.links.trans h.links
  seg := h'.seg.trans h.seg
  map := h'.map.trans h.map
  mapSeg := h'.mapSeg.trans h.mapSeg
  tbl := h'.tbl.trans h.tbl
  ram := h'.ram.trans h.ram
  task := h'.task.trans h.task
  log := by
    obtain ⟨evs, he, hq⟩ := h.log
    obtain ⟨evs', he', hq'⟩ := h'.log
    refine ⟨evs' ++ evs, by rw [he', he, List.append_assoc], fun e hmem => ?_⟩
    rcases List.mem_append.mp hmem with hm | hm
    · exact hq' e hm
    · exact hq e hm

theorem DirFrame.call (n : ℕ) : DirFrame s (s.pageCall K .directory n) :=
  { DirFrame.refl s with log := ⟨[_], rfl, by split <;> simp [Event.IsDirectory]⟩ }

theorem DirFrame.ret (pa n : ℕ) : DirFrame s (s.pageReturn K .directory pa n) :=
  { DirFrame.refl s with log := ⟨[_], rfl, by simp [Event.IsDirectory]⟩ }

theorem DirFrame.setAsid (n : ℕ) : DirFrame s (s.setAsid n) := { DirFrame.refl s with }

theorem DirFrame.setDir (b : ℕ) (f : ℕ → ℕ) : DirFrame s (s.setDir b f) :=
  { DirFrame.refl s with }

/-- The segments of a map are seen as before. -/
theorem DirFrame.shows {s' : Machine σ} {m : ℕ} {xs : List Entry} (h : DirFrame s s')
    (hs : Shows s m xs) : Shows s' m xs :=
  hs.congr h.links (fun _ _ => by rw [h.seg]) h.fresh.ge

/-- The unaligned part of the run `create_pgd` gets is smaller than a table. -/
theorem pgdAlign_gap (pg : ℕ) : wordSub (pgdAlign pg) pg < mmuL1tblSize := by
  have hmask : pgdAlign pg = (pg + 16383) % 2 ^ 32 / 16384 * 16384 := by
    have h := land_highMask (w := 32) (k := 14) (by decide) ((pg + 16383) % 2 ^ 32)
    rw [Nat.mod_mod] at h
    exact h
  rw [hmask]
  unfold wordSub mmuL1tblSize
  omega

/-- How `create_pgd` ends: it keeps one table out of a run of twice the size. -/
theorem createPgd_rule {Q : ℕ → Machine σ → Prop}
    (refused : (K.pageAlloc (mmuL1tblSize * 2) s.env).1 = 0 → ∀ s', DirFrame s s' →
      s'.dir = s.dir → pageBalance s'.log = pageBalance s.log → Q 0 s')
    (done : (K.pageAlloc (mmuL1tblSize * 2) s.env).1 ≠ 0 → ∀ s', DirFrame s s' →
      s'.dir = s.dir → pageBalance s'.log = pageBalance s.log + mmuL1tblSize →
      Q (pgdAlign (K.pageAlloc (mmuL1tblSize * 2) s.env).1 ||| s.asid) s') :
    Prog.Ensures (createPgd K) s Q := by
  unfold createPgd pageAlloc
  rw [Prog.ensures_bind, Prog.ensures_service, Prog.ensures_ite]
  have f₁ : DirFrame s (s.pageCall K .directory (mmuL1tblSize * 2)) := .call _
  refine ⟨fun hz => ?_, fun hz => ?_⟩
  · have hz : (K.pageAlloc (mmuL1tblSize * 2) s.env).1 = 0 := hz
    rw [Prog.ensures_pure]
    refine refused hz _ f₁ rfl ?_
    simp [hz, Event.pages]
  · have hz : (K.pageAlloc (mmuL1tblSize * 2) s.env).1 ≠ 0 := hz
    have hd := done hz
    have hgap := pgdAlign_gap (K.pageAlloc (mmuL1tblSize * 2) s.env).1
    have hrest := wordSub_of_le hgap.le (by decide : mmuL1tblSize < 2 ^ 32)
    have hcast := Nat.cast_sub (R := ℤ) hgap.le
    simp only [pageFree, Prog.ensures_bind, Prog.ensures_when, Prog.ensures_update,
      Prog.ensures_read, Prog.ensures_pure, Machine.pageReturn_asid, Machine.pageCall_asid]
    refine ⟨fun hg => ?_, fun hg => ?_⟩
    · refine hd _ (((f₁.trans (.ret _ _)).trans (.ret _ _)).trans (.setAsid _)) rfl ?_
      simp only [Machine.setAsid_log, Machine.pageReturn_log, Machine.pageCall_log,
        pageBalance_cons, Event.pages, if_neg hz, hrest, hcast]
      push_cast
      ring
    · have hg : wordSub (pgdAlign (K.pageAlloc (mmuL1tblSize * 2) s.env).1)
          (K.pageAlloc (mmuL1tblSize * 2) s.env).1 = 0 := not_not.mp hg
      refine hd _ ((f₁.trans (.ret _ _)).trans (.setAsid _)) rfl ?_
      rw [hg] at hrest hcast
      simp only [Machine.setAsid_log, Machine.pageReturn_log, Machine.pageCall_log,
        pageBalance_cons, Event.pages, if_neg hz, hg, hrest, hcast]
      push_cast
      ring

/-- How `bt_mmu_newmap` ends. With a directory, its entries are those of the
kernel's table; the result is its base with the address space id. -/
theorem btMmuNewmap_rule {Q : ℕ → Machine σ → Prop}
    (refused : (K.pageAlloc (mmuL1tblSize * 2) s.env).1 = 0 → ∀ s', DirFrame s s' →
      s'.dir = s.dir → pageBalance s'.log = pageBalance s.log → Q 0 s')
    (nowhere : (K.pageAlloc (mmuL1tblSize * 2) s.env).1 ≠ 0 →
      pgdAlign (K.pageAlloc (mmuL1tblSize * 2) s.env).1 ||| s.asid = 0 → ∀ s', DirFrame s s' →
      s'.dir = s.dir → pageBalance s'.log = pageBalance s.log + mmuL1tblSize → Q 0 s')
    (done : ∀ pg, (K.pageAlloc (mmuL1tblSize * 2) s.env).1 ≠ 0 →
      pg = pgdAlign (K.pageAlloc (mmuL1tblSize * 2) s.env).1 ||| s.asid → pg ≠ 0 →
      ∀ s', DirFrame s s' →
      (∀ b, b ≠ K.ram.physToVirt (getPgd pg) → s'.dir b = s.dir b) →
      (∀ i, s.dir K.mmuTable i = 0 → s'.dir (K.ram.physToVirt (getPgd pg)) i = 0) →
      pageBalance s'.log = pageBalance s.log + mmuL1tblSize →
      Q (K.ram.physToVirt (getPgd pg) ||| getAsid pg) s') :
    Prog.Ensures (btMmuNewmap K) s Q := by
  unfold btMmuNewmap
  rw [Prog.ensures_bind]
  refine createPgd_rule (fun hz s' hf hdir hbal => ?_) fun hz s' hf hdir hbal => ?_
  · simp only [if_true, Prog.ensures_pure]
    exact refused hz s' hf hdir hbal
  · rw [Prog.ensures_ite]
    refine ⟨fun h0 => ?_, fun h0 => ?_⟩
    · rw [Prog.ensures_pure]
      exact nowhere hz h0 s' hf hdir hbal
    · simp only [Prog.ensures_bind, Prog.ensures_update, Prog.ensures_pure]
      refine done _ hz rfl h0 _ ((hf.trans (.setDir _ _)).trans (.setDir _ _)) (fun b hb => ?_)
        (fun i hi => ?_) hbal
      · funext i
        simp [Function.update_of_ne hb, hdir]
      · by_cases hk : K.mmuTable =
            K.ram.physToVirt (getPgd (pgdAlign (K.pageAlloc (mmuL1tblSize * 2) s.env).1 ||| s.asid))
        · simp [hk]
        · simp [Function.update_of_ne hk, hdir, hi]

/-! ## `bt_vm_create` -/

/-- The segment a new map starts with: all user addresses but the first page. -/
def initialSegment : Segment := ⟨btPageSize, 0, btMmUserLimit - btPageSize, btSegFree⟩

theorem initialSegment_free : initialSegment.has btSegFree := by decide

theorem initialSegment_ok (i : ℕ) : SegmentsOk btPageSize btMmUserLimit [(i, initialSegment)] := by
  have hfit : 0 < initialSegment.size ∧ btPageSize + initialSegment.size = btMmUserLimit ∧
      initialSegment.addr % 4096 = 0 ∧ initialSegment.size % 4096 = 0 ∧
      ¬ initialSegment.has btSegShared := by decide
  obtain ⟨hpos, hend, ha, hs, hns⟩ := hfit
  refine ⟨⟨rfl, hpos, hend⟩, ?_, by simp, ?_, ?_⟩
  · intro x hx
    obtain rfl := List.mem_singleton.mp hx
    exact ⟨ha, hs⟩
  · intro x hx _
    obtain rfl := List.mem_singleton.mp hx
    rfl
  · intro x hx
    obtain rfl := List.mem_singleton.mp hx
    exact hns

/-- The mutex `bt_vm_create` gets, and the services' state after that. -/
def Kernel.createMutex (K : Kernel σ) (e : σ) : ℕ × σ := K.kMutexCreate (K.kMalloc vmMapBytes e).2

/-- The map `s.fresh` was set up as far as its segment list: what a `bt_vm_create`
that got `n` blocks leaves behind before it turns to the page directory. -/
structure MapBegun (K : Kernel σ) (s s' : Machine σ) (evs : List Event) : Prop where
  /-- the map has one reference, no pages and its mutex -/
  map : s'.map = Function.update s.map s.fresh { s.map s.fresh with
    refcount := 1, size := 0, mapMutex := (K.createMutex s.env).1 }
  /-- other lists are as they were -/
  ring : ∀ h ys, Ring s.links h ys → .head s.fresh ∉ h :: ys → .list (s.fresh + 1) ∉ h :: ys →
    Ring s'.links h ys
  seg : ∀ i, i ≠ s.fresh + 1 → s'.seg i = s.seg i
  mapSeg : s'.mapSeg = s.mapSeg
  asid : s'.asid = s.asid
  dir : s'.dir = s.dir
  tbl : s'.tbl = s.tbl
  ram : s'.ram = s.ram
  task : s'.task = s.task
  /-- one block and one mutex have been taken, and then this has happened -/
  log : s'.log = evs ++ .mutexCreate (K.createMutex s.env).1 :: .malloc s.fresh :: s.log

/-- Making an unrelated cell a list head leaves a ring alone. -/
theorem initHead_frame {α : Type} [DecidableEq α] {L : Links α} {h c : α} {ys : List α}
    (hr : Ring L h ys) (hc : c ∉ h :: ys) : Ring (L.initHead c) h ys := by
  refine hr.congr (fun x hx => ?_) fun x hx => ?_
  · have hne : x ≠ c := fun e => hc (e ▸ hx)
    simp [Links.initHead, Links.setNext, Links.setPrev, Function.update_of_ne hne]
  · have hne : x ≠ c := fun e => hc (e ▸ hx)
    simp [Links.initHead, Links.setNext, Links.setPrev, Function.update_of_ne hne]

/-- The fields of a new map. -/
structure MapInit (K : Kernel σ) (m : ℕ) (s s' : Machine σ) : Prop where
  env : s'.env = (K.kMutexCreate s.env).2
  fresh : s'.fresh = s.fresh
  /-- its list is empty -/
  links : s'.links = s.links.initHead (.head m)
  seg : s'.seg = s.seg
  /-- it has one reference, no pages and its mutex -/
  map : s'.map = Function.update s.map m { s.map m with
    refcount := 1, size := 0, mapMutex := (K.kMutexCreate s.env).1 }
  mapSeg : s'.mapSeg = s.mapSeg
  asid : s'.asid = s.asid
  dir : s'.dir = s.dir
  tbl : s'.tbl = s.tbl
  ram : s'.ram = s.ram
  task : s'.task = s.task
  log : s'.log = .mutexCreate (K.kMutexCreate s.env).1 :: s.log

theorem initMap_spec (m : ℕ) : Prog.Ensures (initMap K m) s fun _ s' => MapInit K m s s' := by
  unfold initMap modifyMap kMutexCreate btListInitHead
  simp only [Prog.ensures_bind, Prog.ensures_update, Prog.ensures_service]
  exact ⟨rfl, rfl, rfl,
    rfl, by funext i; by_cases hi : i = m <;> simp [hi], rfl, rfl, rfl, rfl, rfl,
    rfl, rfl⟩

/-- How `bt_vm_create` ends. -/
theorem btVmCreate_rule {Q : Option ℕ → Machine σ → Prop}
    (noMap : (K.kMalloc vmMapBytes s.env).1 = 0 → Q none (s.kMalloc K vmMapBytes).2)
    (noSegment : (K.kMalloc vmMapBytes s.env).1 ≠ 0 →
      (K.kMalloc segmentBytes (K.createMutex s.env).2).1 = 0 →
      ∀ s', s'.fresh = s.fresh + 1 → MapBegun K s s' [.mallocRefused] → Q none s')
    (done : (K.kMalloc vmMapBytes s.env).1 ≠ 0 →
      (K.kMalloc segmentBytes (K.createMutex s.env).2).1 ≠ 0 →
      ∀ s₁, s₁.fresh = s.fresh + 2 → MapBegun K s s₁ [.malloc (s.fresh + 1)] →
      s₁.env = (K.kMalloc segmentBytes (K.createMutex s.env).2).2 →
      Shows s₁ s.fresh [(s.fresh + 1, initialSegment)] →
      Prog.Ensures (btMmuNewmap K) s₁ fun pgd s₂ =>
        Q (some s.fresh) (s₂.setMap s.fresh { s₂.map s.fresh with pgd := pgd })) :
    Prog.Ensures (btVmCreate K) s Q := by
  unfold btVmCreate kMalloc
  rw [Prog.ensures_bind, Prog.ensures_service]
  by_cases hm : (K.kMalloc vmMapBytes s.env).1 = 0
  · have h₁ : (s.kMalloc K vmMapBytes).1 = none := by rw [Machine.kMalloc, if_pos hm]
    rw [h₁, Prog.ensures_pure]
    exact noMap hm
  · have h₁ : s.kMalloc K vmMapBytes = (some s.fresh,
        ((s.setEnv (K.kMalloc vmMapBytes s.env).2).newBlock (K.kMalloc vmMapBytes s.env).1).emit
          (.malloc s.fresh)) := by rw [Machine.kMalloc, if_neg hm]
    rw [h₁]
    simp only [Prog.ensures_bind]
    refine (initMap_spec s.fresh).mono fun _ t ht => ?_
    have henv : t.env = (K.createMutex s.env).2 := ht.env
    have hfresh : t.fresh = s.fresh + 1 := ht.fresh
    rw [Prog.ensures_service]
    have hring : ∀ h ys, Ring s.links h ys → Cell.head s.fresh ∉ h :: ys → Ring t.links h ys := by
      intro h ys hr hc
      rw [ht.links]
      exact initHead_frame hr hc
    by_cases hz : (K.kMalloc segmentBytes (K.createMutex s.env).2).1 = 0
    · have h₂ : t.kMalloc K segmentBytes = (none, (t.setEnv (K.kMalloc segmentBytes t.env).2).emit
          .mallocRefused) := by rw [Machine.kMalloc, henv, if_pos hz]
      rw [h₂]
      simp only [Prog.ensures_pure]
      exact noSegment hm hz _ hfresh ⟨ht.map, fun h ys hr hc _ => hring h ys hr hc,
        fun i _ => by rw [Machine.emit_seg, Machine.setEnv_seg, ht.seg]; rfl, ht.mapSeg, ht.asid,
        ht.dir, ht.tbl, ht.ram, ht.task, by simp [ht.log, Kernel.createMutex]⟩
    · have h₂ : t.kMalloc K segmentBytes = (some (s.fresh + 1),
          ((t.setEnv (K.kMalloc segmentBytes t.env).2).newBlock
            (K.kMalloc segmentBytes t.env).1).emit (.malloc (s.fresh + 1))) := by
        rw [Machine.kMalloc, henv, if_neg hz, hfresh]
      have hempty : Ring t.links (.head s.fresh) [] := by
        rw [ht.links]
        exact Ring.initHead _ _
      rw [h₂]
      simp only [putSeg, btListAdd, modifyMap, Prog.ensures_bind, Prog.ensures_update,
        Prog.ensures_pure]
      refine done hm hz _ ?_ ⟨ht.map, ?_, ?_, ht.mapSeg, ht.asid, ht.dir, ht.tbl, ht.ram, ht.task,
        ?_⟩ ?_ ⟨?_, ?_, ?_⟩
      · simp [hfresh]
      · intro h ys hr hc hl
        have hdis : ∀ x ∈ ([.head s.fresh] : List Cell), x ∉ h :: ys := by
          intro x hx
          obtain rfl := List.mem_singleton.mp hx
          exact hc
        exact Ring.insertAfter_frame hempty (by simp) (hring h ys hr hc) hdis hl
      · intro i hi
        simp [Function.update_of_ne hi, ht.seg]
      · simp [ht.log, Kernel.createMutex]
      · simp [henv]
      · have hsplit : Ring t.links (.head s.fresh) ([] ++ []) := hempty
        exact hsplit.insertAfter (by simp)
      · intro x hx
        obtain rfl := List.mem_singleton.mp hx
        simp [initialSegment]
      · intro x hx
        obtain rfl := List.mem_singleton.mp hx
        simp [hfresh]

end BitThunder
