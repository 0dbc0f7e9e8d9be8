import BitThunder.Vm.Agree

/-!
# I/O mappings

`bt_ioremap` and `bt_iounmap` of `os/src/mm/bt_map.c`: mappings of device registers in the map of
the kernel, with the offset in the page added to what `bt_vm_map_region` returns.

* `btIoremap_rule`: what the list of segments is afterwards, and what `bt_mmu_map` was called with;
* `IoMapped.walk_granted`, `IoMapped.walk_refused`: what the hardware finds then;
* `IoRun.outstanding`: in a run of such calls, what is in use besides what was is what was mapped
  and not unmapped;
* `ioremap_iff`: when a call does what is asked of it;
* `ioremap_offset_of_null`: the offset is added to a failure too.

`IoMapping` asks for three things: that a failure is one that could not be helped, that a mapping is
found by the hardware and noted in the list, and that undoing it restores the layout whatever other
mappings come and go in between. The last one is about runs. `Outstanding` says what is in use after
some calls: what was in use before, and one segment for each result not yet undone; a segment is
found again by the address of its first page, and results of different calls lie in different
segments.

Whether the page tables are granted is computed from the slots that have no table and the services'
state (`tablesFor`), so that success can be foretold. `Mappable` is said of segments and tables
without reference to the search, which takes the first free segment that is large enough: another
one may have tables for its pages already when the first has not.
-/

namespace BitThunder

variable {σ : Type} (K : Kernel σ)

/-- `bt_ioremap` -/
def btIoremap (phys size : ℕ) : Prog (Machine σ) ℕ := do
  let diff := wordSub phys (btPageTrunc phys)
  let mapping ← btVmMapRegion K 0 (btPageTrunc phys) 0 (wordAdd size diff) btPageIomem
  pure (wordAdd mapping diff)

/-- `bt_iounmap` -/
def btIounmap (iomem : ℕ) : Prog (Machine σ) Unit := btVmUnmapRegion K 0 iomem

/-! ## What is asked of it

The three parts of what a caller may expect, and the condition, which is about segments and tables
before the call. -/

/-- An address is that of a byte of a device. -/
def MapsTo (xs : List Entry) (w pa : ℕ) : Prop :=
  ∃ x ∈ xs, x.2.Covers w ∧ wordAdd x.2.phys (w - x.2.addr) = pa ∧ x.2.has btSegMapped ∧
  x.2.has btSegIomapped

/-- The same segments; where nothing is mapped they only agree in their ranges. -/
def SameLayout (xs ys : List Entry) : Prop :=
  List.Forall₂ (fun x y => x = y ∨
    x.2.has btSegFree = true ∧ y.2.has btSegFree = true ∧ x.2.addr = y.2.addr ∧ x.2.size = y.2.size)
    xs ys

/-- Some calls, and the results that are not unmapped yet, before them and after them. Each call
asks for at least one byte and for no more than the addresses go. A result in the first page is that
of a call that failed. -/
inductive IoRun (s : Machine σ) (live₀ : List ℕ) : List ℕ → Machine σ → Prop where
  | nil : IoRun s live₀ live₀ s
  | ioremap {live : List ℕ} {s₁ s₂ : Machine σ} {phys size r : ℕ} (run : IoRun s live₀ live s₁)
      (hphys : phys < 2 ^ 32) (hsize : 0 < size)
        (hfits : size + phys % btPageSize + (btPageSize - 1) < 2 ^ 32)
      (h : btIoremap K phys size s₁ = some (r, s₂)) :
      IoRun s live₀ (if r < btPageSize then live else r :: live) s₂
  | iounmap {live : List ℕ} {s₁ s₂ : Machine σ} {r : ℕ} (run : IoRun s live₀ live s₁)
      (hr : r ∈ live ∨ r < btPageSize) (h : btIounmap K r s₁ = some ((), s₂)) :
      IoRun s live₀ (live.erase r) s₂

/-- The attributes of I/O memory, but for the non-global bit -/
def ioAttributes : ℕ := mmuPtePresent ||| mmuPteSystem

/-- Every byte is mapped through the result. -/
structure Remapped (s' : Machine σ) (phys size r : ℕ) : Prop where
  /-- the result has the offset of the physical address -/
  offset : r % btPageSize = phys % btPageSize
  /-- a segment of the map says so -/
  listed : ∃ ys, Shows s' 0 ys ∧ ∀ k < size, MapsTo ys (r + k) (wordAdd phys k)
  /-- and the hardware finds it in the page tables -/
  mapped : ∃ ng, (ng = 0 ∨ ng = mmuPteNg) ∧ ∀ k < size,
    s'.walk K (getPgd (s'.map 0).pgd) (r + k) =
    some (btPageTrunc (wordAdd phys k), ioAttributes ||| ng)

/-- How many bytes of address space a call asks for -/
def ioBytes (phys size : ℕ) : ℕ := btPageAlign (wordAdd size (phys % btPageSize))

/-- Whether a slot of a directory has a table -/
def Machine.hasTable (s : Machine σ) (pgd i : ℕ) : Bool := s.dir pgd i &&& mmuPdePresent != 0

/-- The cache grants the tables that the next `n` pages lack: `there` says which slots have one. -/
def tablesFor : (ℕ → Bool) → ℕ → ℕ → σ → Bool
  | _, 0, _, _ => true
  | there, n + 1, va, e =>
    if there (pageDir va) then tablesFor there n (wordAdd va btPageSize) e
    else if (K.cacheAlloc e).1 = 0 then false
    else tablesFor (Function.update there (pageDir va) true) n (wordAdd va btPageSize)
    (K.cacheAlloc e).2

/-- The bytes of the pages that a range of physical addresses lies in -/
def ioPages (phys size : ℕ) : ℕ :=
  (size + phys % btPageSize + (btPageSize - 1)) / btPageSize * btPageSize

/-- A mapping could be made at some free segment: it has the pages, with a block for what is left of
it if there is something left, and the tables would be granted. -/
def Mappable (s : Machine σ) (xs : List Entry) (phys size : ℕ) : Prop :=
  ∃ x ∈ xs, x.2.has btSegFree = true ∧ ∃ e,
    (x.2.size = ioPages phys size ∧ e = s.env ∨
      ioPages phys size < x.2.size ∧ (K.kMalloc segmentBytes s.env).1 ≠ 0 ∧
        e = (K.kMalloc segmentBytes s.env).2) ∧
    tablesFor K (s.hasTable (getPgd (s.map 0).pgd)) (ioPages phys size / btPageSize) x.2.addr e =
    true

/-- What is asked of `bt_ioremap`, in a state in which the kernel's map shows `xs`: a mapping, or
`NULL` if none could be made; and whatever other calls are made before the mapping is undone and
after that, once all of them are undone the list of segments is what it would be without it. -/
structure IoMapping (s : Machine σ) (xs : List Entry) (phys size r : ℕ) (s' : Machine σ) :
    Prop where
  /-- there is only no result if no mapping could be made -/
  failed : r = 0 → Shows s' 0 xs ∧ ¬Mappable K s xs phys size
  /-- a result leads to all bytes of the range -/
  remapped : r ≠ 0 → Remapped K s' phys size r
  /-- and when it has been given back, and all others too, the list is as without it -/
  restored : r ≠ 0 → ∀ live s₁ s₂, IoRun K s' [] live s₁ → IoRun K s [] [] s₂ →
    Prog.Ensures (btIounmap K r) s₁ fun _ s₃ => ∀ s₄, IoRun K s₃ live [] s₄ →
      ∃ ys zs, Shows s₄ 0 ys ∧ Shows s₂ 0 zs ∧ SameLayout zs ys ∧ SameLayout xs ys

/-- The search finds a segment, the bytes asked for do not wrap around, and the tables are granted;
or it finds none, there is no offset to add, and no mapping could be made at another segment. -/
def Remappable (s : Machine σ) (xs : List Entry) (phys size : ℕ) : Prop :=
  match allocTarget K s.env xs (ioBytes phys size) with
  | none => phys % btPageSize = 0 ∧ ¬Mappable K s xs phys size
  | some (v, e) => size + phys % btPageSize + (btPageSize - 1) < 2 ^ 32 ∧
      tablesFor K (s.hasTable (getPgd (s.map 0).pgd)) (ioBytes phys size / btPageSize) v.addr e =
      true

variable {K} {s s' t : Machine σ} {xs as bs : List Entry} {phys size lo hi : ℕ}

/-! ## Tables

Whether a table is granted depends on the slot and on the state of the cache, and can be told in
advance. -/

/-- The slot of a page is that of its address, also beyond the last one. -/
theorem Machine.ptePresent_next (pgd va j : ℕ) :
    s.ptePresent pgd (wordAdd va btPageSize + j * btPageSize) = s.ptePresent pgd
    (va + (j + 1) * btPageSize) := by
  have hslot : pageDir (wordAdd va btPageSize + j * btPageSize) =
      pageDir (va + (j + 1) * btPageSize) := by
    rw [pageDir_eq, pageDir_eq]
    unfold wordAdd btPageSize
    omega
  unfold Machine.ptePresent
  rw [hslot]

/-- A new table stands in its slot. -/
theorem Machine.newTable_hasTable (pgd va k : ℕ) :
    (s.newTable K pgd va k).hasTable pgd = Function.update (s.hasTable pgd) (pageDir va) true := by
  funext i
  unfold Machine.hasTable
  by_cases hi : i = pageDir va
  · subst hi
    rw [Machine.newTable_dir_self, Function.update_self, pdePresent_iff]
    have hbit : (K.ram.virtToPhys (K.cacheAlloc s.env).1 ||| mmuPdePresent).testBit 0 = true := by
      rw [Nat.testBit_or]
      exact Bool.or_true _
    exact Nat.mod_two_eq_one_iff_testBit_zero.mpr hbit
  · rw [Machine.newTable_dir_of_ne hi, Function.update_of_ne hi]

/-- The loop succeeds if the cache grants the tables that are not there; otherwise one of the pages
has none. -/
theorem mmuMapLoop_granted (pgd flag n k pa va : ℕ) (s : Machine σ) :
    Prog.Ensures (mmuMapLoop K pgd flag n k pa va) s fun r s' =>
      (r = 0 ↔ tablesFor K (s.hasTable pgd) n va s.env = true) ∧
        (r ≠ 0 → ∃ j < n, ¬s'.ptePresent pgd (va + j * btPageSize)) := by
  induction n generalizing s k pa va with
  | zero => exact Prog.ensures_pure.mpr ⟨iff_of_true rfl rfl, fun h => absurd rfl h⟩
  | succ n ih =>
    have hnext : ∀ s', (∃ j < n, ¬s'.ptePresent pgd (wordAdd va btPageSize + j * btPageSize)) →
        ∃ j < n + 1, ¬(s' : Machine σ).ptePresent pgd (va + j * btPageSize) := by
      rintro s' ⟨j, hj, hno⟩
      exact ⟨j + 1, Nat.succ_lt_succ hj, s'.ptePresent_next pgd va j ▸ hno⟩
    rw [mmuMapLoop, Prog.ensures_bind]
    refine tableFor_rule ?_ ?_ ?_
    · intro hp
      have hthere : s.hasTable pgd (pageDir va) = true := hp
      simp only [Prog.ensures_bind, Prog.ensures_update]
      refine (ih (k + 1) (wordAdd pa btPageSize) (wordAdd va btPageSize) _).mono fun _ s' hs' => ?_
      rw [tablesFor, if_pos hthere]
      exact ⟨hs'.1, fun hr => hnext s' (hs'.2 hr)⟩
    · intro hp hz
      have hthere : ¬s.hasTable pgd (pageDir va) = true := hp
      rw [tablesFor, if_neg hthere, if_pos hz]
      refine Prog.ensures_pure.mpr
        ⟨iff_of_false (by decide) Bool.false_ne_true, fun _ => ⟨0, Nat.succ_pos n, ?_⟩⟩
      rw [Nat.zero_mul, Nat.add_zero]
      exact hp
    · intro hp hz
      have hthere : ¬s.hasTable pgd (pageDir va) = true := hp
      simp only [Prog.ensures_bind, Prog.ensures_update]
      refine (ih (k + 1) (wordAdd pa btPageSize) (wordAdd va btPageSize) _).mono fun _ s' hs' => ?_
      rw [tablesFor, if_neg hthere, if_neg hz, ← Machine.newTable_hasTable pgd va k]
      exact ⟨hs'.1, fun hr => hnext s' (hs'.2 hr)⟩

/-! ## One call

The rule for `bt_vm_map_region` at the arguments that are passed here, with what was logged. -/

theorem wordSub_trunc (hphys : phys < 2 ^ 32) :
    wordSub phys (btPageTrunc phys) = phys % btPageSize := by
  unfold wordSub btPageSize
  rw [btPageTrunc_eq hphys]
  omega

/-- The segment of a mapping -/
def ioSegment (a phys size : ℕ) : Segment :=
  ⟨a, btPageTrunc phys, ioBytes phys size, typeToSegflags btPageIomem ||| btSegMapped⟩

/-- What `bt_mmu_map` is called with for a mapping at `a`, when the services are in the state `e`,
and that its tables are those of `s'`. -/
def IoMapped (K : Kernel σ) (s : Machine σ) (e : σ) (phys size a : ℕ) (s' : Machine σ) : Prop :=
  ∃ s₂ t ret, btMmuMap K (s.map 0).pgd (btPageTrunc phys) a (ioBytes phys size) btPageIomem s₂ =
  some (ret, t) ∧
    s₂.dir = s.dir ∧ s₂.env = e ∧ Relation.ReflTransGen K.HeapStep s.env e ∧
    s'.dir = t.dir ∧ s'.tbl = t.tbl ∧ (s'.map 0).pgd = (s.map 0).pgd

/-- How `bt_ioremap` ends. -/
theorem btIoremap_rule {Q : ℕ → Machine σ → Prop} (hb : Bounds lo hi) (h : Shows s 0 xs)
    (hok : SegmentsOk lo hi xs) (hphys : phys < 2 ^ 32)
    (refused : allocTarget K s.env xs (ioBytes phys size) = none → ∀ s', Shows s' 0 xs →
      Q (phys % btPageSize) s')
    (done : ∀ v e as j p bs s', allocTarget K s.env xs (ioBytes phys size) = some (v, e) →
      allocTest (ioBytes phys size) v → Carve xs v v.addr (ioBytes phys size) as j p bs →
      Shows s' 0 (as ++ (j, ioSegment v.addr phys size) :: bs) →
      IoMapped K s e phys size v.addr s' → Q (wordAdd v.addr (phys % btPageSize)) s') :
    Prog.Ensures (btIoremap K phys size) s Q := by
  simp only [btIoremap, Prog.ensures_bind, Prog.ensures_pure, wordSub_trunc hphys]
  refine btVmMapRegion_rule h ?_ ?_ ?_
  · intro xs' s₁ hu hnone _ s' e'
    obtain rfl := hu.eq hok hb
    rw [wordAdd_of_lt (by unfold btPageSize; omega), Nat.zero_add]
    exact refused hnone s' e'.shows
  · intro v a as j p bs f s₁ _ _ _ hz
    exact absurd hz (by decide)
  · intro v a as j p bs f s₁ hob hat e₁ _ s₂ e t hsome e₂ hrun hframe
    obtain ⟨rfl, ht⟩ : a = v.addr ∧ allocTest (ioBytes phys size) v := hat
    obtain ⟨x, hx, rfl, -⟩ := hob.carve.mem
    have hfit := hok.fits hb hx
    refine done x.2 s₂.env as j p bs _ hsome ht hob.carve
      ((hframe.shows e₂.shows).congr rfl (fun _ _ => rfl) (le_refl _)) ?_
    refine ⟨s₂, t, e, hrun, ?_, rfl, ?_, rfl, rfl, ?_⟩
    · rw [e₂.frame.dir]
      exact e₁.frame.dir
    · exact e₁.frame.env.trans e₂.frame.env
    · rw [Machine.emit_map, hframe.map, e₂.frame.map]
      exact congrArg (fun f => (f 0).pgd) e₁.frame.map

/-! ## The page tables

A mapping whose tables are all granted is found by the hardware page by page; otherwise some page is
not. -/

section Walk

variable {inUse : σ → ℕ → Prop} {a : ℕ} {e : σ}

/-- What the loop was called with is rounded already. -/
theorem btMmuMap_loop {hdl pa n : ℕ} {r : ℤ} (hn : n % 4096 = 0) (hlt : n < 2 ^ 32)
    (ha : a % 4096 = 0) (halt : a < 2 ^ 32)
    (hrun : btMmuMap K hdl pa a n btPageIomem s = some (r, t)) :
    (r = 0 ↔ tablesFor K (s.hasTable (getPgd hdl)) (n / btPageSize) a s.env = true) ∧
      (r ≠ 0 → ∃ j < n / btPageSize, ¬t.ptePresent (getPgd hdl) (a + j * btPageSize)) := by
  have hloop := mmuMapLoop_granted (K := K) (getPgd hdl)
    ((mmuPtePresent ||| mmuPteSystem) ||| if wordAdd a n < btMmUserLimit then mmuPteNg else 0)
    (btPageAlign n / btPageSize) 0 (btPageTrunc pa) (btPageTrunc a) s
  have hfacts := hloop.yields r t hrun
  rw [btPageAlign_of_aligned hlt hn, btPageTrunc_of_aligned halt ha] at hfacts
  exact hfacts

/-- If the tables are granted, the hardware finds every byte. -/
theorem IoMapped.walk_granted (h : IoMapped K s e phys size a s') (law : TableLaw K inUse)
    (kept : TablesKept K inUse) (hd : DirOk K inUse 4096 (getPgd (s.map 0).pgd) s)
    (hphys : phys < 2 ^ 32) (ha : a % 4096 = 0)
    (hbytes : ioBytes phys size % 4096 = 0) (hend : a + ioBytes phys size ≤ 2 ^ 32)
    (hlt : ioBytes phys size < 2 ^ 32)
    (halt : a < 2 ^ 32)
    (hgrant : tablesFor K (s.hasTable (getPgd (s.map 0).pgd)) (ioBytes phys size / btPageSize) a e =
      true) :
    ∃ ng, (ng = 0 ∨ ng = mmuPteNg) ∧ ∀ w, a ≤ w → w < a + ioBytes phys size →
      s'.walk K (getPgd (s'.map 0).pgd) w =
        some (wordAdd (btPageTrunc phys) ((w / 4096 - a / 4096) * 4096), ioAttributes ||| ng) := by
  obtain ⟨s₂, t, ret, hrun, hdir, rfl, hheap, hdir', htbl', hpgd⟩ := h
  have hd₂ : DirOk K inUse 4096 (getPgd (s.map 0).pgd) s₂ :=
    hd.congr (fun i _ => by rw [hdir]) fun p hp => kept.heap hheap hp
  have hhas : s₂.hasTable = s.hasTable := by
    funext pgd i
    rw [Machine.hasTable, hdir, ← Machine.hasTable]
  obtain rfl : ret = 0 := (btMmuMap_loop hbytes hlt ha halt hrun).1.mpr (hhas ▸ hgrant)
  have htrunc : btPageTrunc phys % 4096 = 0 ∧ btPageTrunc phys < 2 ^ 32 := by
    rw [btPageTrunc_eq hphys]
    omega
  have hwords := btMmuMap_words law (le_refl 4096) btPageIomem hd₂ ha htrunc.1 hbytes halt htrunc.2
    hlt hend
  rcases hwords.yields 0 t hrun with ⟨hno, -⟩ | ⟨flag, hflag, hg, j, -, hj, hent⟩
  · exact absurd hno (by decide)
  · obtain rfl : ioAttributes = flag := Option.some.inj hflag
    obtain rfl : j = ioBytes phys size / 4096 := by
      rcases hj with ⟨-, hj⟩ | ⟨hbad, -⟩
      · exact hj
      · exact absurd hbad (by decide)
    have hf := typeToPteFlags_lt hflag a (ioBytes phys size)
    have hpresent := (typeToPteFlags_present hflag a (ioBytes phys size)).mpr (by decide)
    refine ⟨nonGlobal a (ioBytes phys size), ?_, fun w hlo hhi => ?_⟩
    · unfold nonGlobal
      split_ifs
      · exact .inr rfl
      · exact .inl rfl
    · have hslot : pageDir w < 4096 := by
        rw [pageDir_eq]
        exact Nat.mod_lt _ (by decide)
      have hsame : s'.walk K (getPgd (s'.map 0).pgd) w = t.walk K (getPgd (s.map 0).pgd) w := by
        unfold Machine.walk Machine.tableAt
        rw [hpgd, hdir', htbl']
      have hal : wordAdd (btPageTrunc phys) ((w / 4096 - a / 4096) * 4096) % 4096 = 0 := by
        unfold wordAdd
        omega
      rw [hsame, hg.ok.walk_eq hslot,
        hent w (by omega), enteredWord, if_pos (by omega), decodePte_entry hal hf,
        if_pos hpresent]

/-- If they are not, it does not find one of the pages. -/
theorem IoMapped.walk_refused (h : IoMapped K s e phys size a s') (ha : a % 4096 = 0)
    (hbytes : ioBytes phys size % 4096 = 0) (hlt : ioBytes phys size < 2 ^ 32) (halt : a < 2 ^ 32)
    (hrefused : ¬tablesFor K (s.hasTable (getPgd (s.map 0).pgd))
    (ioBytes phys size / btPageSize) a e = true) :
    ∃ j < ioBytes phys size / btPageSize, ∀ w, w / 4096 = a / 4096 + j →
      s'.walk K (getPgd (s'.map 0).pgd) w = none := by
  obtain ⟨s₂, t, ret, hrun, hdir, rfl, -, hdir', -, hpgd⟩ := h
  have hhas : s₂.hasTable = s.hasTable := by
    funext pgd i
    rw [Machine.hasTable, hdir, ← Machine.hasTable]
  obtain ⟨hiff, hsome⟩ := btMmuMap_loop hbytes hlt ha halt hrun
  obtain ⟨j, hj, hno⟩ := hsome fun hret => hrefused (hhas ▸ hiff.mp hret)
  refine ⟨j, hj, fun w hw => ?_⟩
  have hslot : pageDir (a + j * btPageSize) = pageDir w := by
    rw [pageDir_eq, pageDir_eq]
    unfold btPageSize
    omega
  unfold Machine.ptePresent at hno
  rw [pdePresent_iff, hslot, ← hdir', ← hpgd] at hno
  unfold Machine.walk
  rw [if_neg (by omega)]

end Walk

/-! ## What is in use

What is in use is compared as a list of ranges. Unmapping takes one of them away and merges what is
free around it. -/

/-- The segments in use, in order -/
def inUseOf (xs : List Entry) : List Entry := xs.filter fun x => !x.2.has btSegFree

/-- To carve out a segment leaves those in use as they were. -/
theorem inUseOf_carve {v : Segment} {a n j p : ℕ} (hc : Carve xs v a n as j p bs) :
    inUseOf (as ++ bs) = inUseOf xs :=
  hc.filter fun x hx => by rw [hx]; rfl

theorem inUseOf_freeAt {i : ℕ} {v : Segment} : inUseOf (freeAt as i v bs) = inUseOf (as ++ bs) :=
  filter_freeAt fun x hx => by rw [hx]; rfl

/-- A segment that is not free is one in use. -/
theorem inUseOf_middle {i : ℕ} {v : Segment} (hv : ¬v.has btSegFree) :
    (inUseOf (as ++ (i, v) :: bs)).Perm ((i, v) :: inUseOf (as ++ bs)) := by
  unfold inUseOf
  rw [List.filter_append, List.filter_append, List.filter_cons_of_pos (by simpa using hv)]
  exact List.perm_middle

/-- The segment of a device's registers is mapped, and neither free nor shared. -/
theorem ioSegment_flags (a phys size : ℕ) : ¬(ioSegment a phys size).has btSegFree ∧
    ¬(ioSegment a phys size).has btSegShared ∧ (ioSegment a phys size).has btSegMapped ∧
    (ioSegment a phys size).has btSegIomapped := by
  simp only [Segment.has, ioSegment]
  decide

/-- The tiling has one list for each choice of what is in use. -/
theorem SegmentsOk.sameLayout {ys : List Entry} (hx : SegmentsOk lo hi xs)
    (hy : SegmentsOk lo hi ys) (hperm : (inUseOf xs).Perm (inUseOf ys)) : SameLayout xs ys := by
  have hsorted : ∀ zs, SegmentsOk lo hi zs → (inUseOf zs).Pairwise fun x y => x.2.addr + x.2.size ≤
      y.2.addr :=
    fun zs hz => hz.tiles.pairwise.sublist List.filter_sublist
  have hpos : ∀ x ∈ inUseOf xs, 0 < x.2.size :=
    fun x h => (hx.tiles.bounds (List.mem_of_mem_filter h)).2.1
  refine hx.tiles.unique hy.tiles hx.apart hy.apart ?_
  refine List.Perm.eq_of_pairwise (fun x y hmx hmy h₁ h₂ => ?_) (hsorted xs hx)
    (hsorted ys hy) hperm
  have := hpos x hmx
  omega

theorem Bounds.page_le (hb : Bounds lo hi) : btPageSize ≤ lo := by
  have := hb.pos
  have := hb.aligned
  unfold btPageSize
  omega

/-- Without wrap-around a call asks for all its bytes. -/
theorem ioBytes_of_fits (hsize : 0 < size)
    (hfits : size + phys % btPageSize + (btPageSize - 1) < 2 ^ 32) :
    0 < ioBytes phys size ∧ ioBytes phys size % 4096 = 0 ∧
      size + phys % btPageSize ≤ ioBytes phys size := by
  unfold ioBytes btPageSize at *
  rw [wordAdd_of_lt (by omega)]
  obtain ⟨h₁, h₂, -⟩ := btPageAlign_of_lt hfits
  exact ⟨by omega, h₁, h₂⟩

/-- The segment of a mapping fits into the layout. -/
theorem SegmentsOk.ioremap {v : Segment} {j p : ℕ} (hb : Bounds lo hi) (hok : SegmentsOk lo hi xs)
    (hsize : 0 < size) (hfits : size + phys % btPageSize + (btPageSize - 1) < 2 ^ 32)
    (ht : allocTest (ioBytes phys size) v)
    (hc : Carve xs v v.addr (ioBytes phys size) as j p bs) :
    SegmentsOk lo hi (as ++ (j, ioSegment v.addr phys size) :: bs) := by
  obtain ⟨hpos, hmod, -⟩ := ioBytes_of_fits hsize hfits
  obtain ⟨hfree, hshared, -⟩ := ioSegment_flags v.addr phys size
  obtain ⟨x, hx, rfl, -⟩ := hc.mem
  simp only [allocTest, Bool.and_eq_true, decide_eq_true_eq] at ht
  have hcarve := hok.carve hb hc le_rfl (by omega) hpos hmod (hok.aligned x hx).1
  exact hcarve.hold rfl rfl hfree hshared

/-- What is in use: `U`, and for each result that is not unmapped yet the segment it lies in. -/
def Outstanding (lo hi : ℕ) (U : List Entry) (live : List ℕ) (s : Machine σ) : Prop :=
  ∃ (zs : List Entry) (ps : List (ℕ × Entry)), Shows s 0 zs ∧ SegmentsOk lo hi zs ∧
    (inUseOf zs).Perm (ps.map Prod.snd ++ U) ∧ (ps.map Prod.fst).Perm live ∧
    ∀ p ∈ ps, p.2.2.Covers p.1 ∧ p.2.2.has btSegMapped

namespace Outstanding

variable {U : List Entry} {live : List ℕ} {r : ℕ}

/-- One of the segments of `U` may be counted as a result. -/
theorem claim {x : Entry} {U' : List Entry} (h : Outstanding lo hi U' live s)
    (hU : U'.Perm (x :: U)) (hx : x.2.Covers r) (hm : x.2.has btSegMapped) :
    Outstanding lo hi U (r :: live) s := by
  obtain ⟨zs, ps, hshow, hok, hperm, hlive, hps⟩ := h
  refine ⟨zs, (r, x) :: ps, hshow, hok, ?_, hlive.cons r, ?_⟩
  · rw [List.map_cons, List.cons_append]
    exact hperm.trans ((hU.append_left _).trans List.perm_middle)
  · exact List.forall_mem_cons.mpr ⟨⟨hx, hm⟩, hps⟩

/-- Results lie beyond the first page. -/
theorem not_mem (h : Outstanding lo hi U live s) (hb : Bounds lo hi) (hr : r < btPageSize) :
    r ∉ live := by
  obtain ⟨zs, ps, hshow, hok, hperm, hlive, hps⟩ := h
  intro hmem
  obtain ⟨p, hp, rfl⟩ := List.mem_map.mp (hlive.mem_iff.mpr hmem)
  have hin : p.2 ∈ inUseOf zs := hperm.mem_iff.mpr (List.mem_append_left _ (List.mem_map_of_mem hp))
  have hge := (hok.fits hb (List.mem_of_mem_filter hin)).1
  have hcov := (hps p hp).1.1
  have := hb.pos
  have := hb.aligned
  unfold btPageSize at hr
  omega

/-- A call that returns an address has added its segment. -/
theorem ioremap (h : Outstanding lo hi U live s) (hb : Bounds lo hi) (hphys : phys < 2 ^ 32)
    (hsize : 0 < size) (hfits : size + phys % btPageSize + (btPageSize - 1) < 2 ^ 32) :
    Prog.Ensures (btIoremap K phys size) s fun r s' =>
      Outstanding lo hi U (if r < btPageSize then live else r :: live) s' := by
  obtain ⟨zs, ps, hshow, hok, hperm, hlive, hps⟩ := h
  refine btIoremap_rule hb hshow hok hphys ?_ ?_
  · intro _ s' hshow'
    rw [if_pos (Nat.mod_lt _ (by decide))]
    exact ⟨zs, ps, hshow', hok, hperm, hlive, hps⟩
  · intro v e as j p bs s' _ ht hc hshow' _
    have hok' := hok.ioremap hb hsize hfits ht hc
    obtain ⟨hfree, -, hmapped, -⟩ := ioSegment_flags v.addr phys size
    obtain ⟨-, -, hle⟩ := ioBytes_of_fits hsize hfits
    obtain ⟨-, -, -, hlo, hend⟩ := hok'.mem_middle
    have hend : v.addr + ioBytes phys size ≤ hi := hend
    have hpage : btPageSize ≤ v.addr := hb.page_le.trans hlo
    have hhi := hb.le
    have hr : wordAdd v.addr (phys % btPageSize) = v.addr + phys % btPageSize :=
      wordAdd_of_lt (by omega)
    rw [hr, if_neg (by omega)]
    refine claim (?_ : Outstanding lo hi ((j, ioSegment v.addr phys size) :: U) live _) (.refl _)
      ⟨Nat.le_add_right .., ?_⟩ hmapped
    · refine ⟨_, ps, hshow', hok', ?_, hlive, hps⟩
      refine (inUseOf_middle hfree).trans (.trans ?_ List.perm_middle.symm)
      exact .cons _ ((inUseOf_carve hc).symm ▸ hperm)
    · change v.addr + phys % btPageSize < v.addr + ioBytes phys size
      omega

/-- A result that is not unmapped yet finds its segment. -/
theorem iounmap (h : Outstanding lo hi U live s) (hb : Bounds lo hi) (hr : r ∈ live) :
    Prog.Ensures (btIounmap K r) s fun _ s' => Outstanding lo hi U (live.erase r) s' := by
  obtain ⟨zs, ps, hshow, hok, hperm, hlive, hps⟩ := h
  obtain ⟨p, hp, rfl⟩ := List.mem_map.mp (hlive.mem_iff.mpr hr)
  obtain ⟨hcov, hmapped⟩ := hps p hp
  have hin : p.2 ∈ inUseOf zs := hperm.mem_iff.mpr (List.mem_append_left _ (List.mem_map_of_mem hp))
  obtain ⟨hmem, hused⟩ := List.mem_filter.mp hin
  have hlt : p.1 < 2 ^ 32 := by
    have := (hok.fits hb hmem).2.2.1
    have := hcov.2
    have := hb.le
    omega
  have hlook : lookupTest p.1 0 p.2.2 = true := by
    simp only [lookupTest, Bool.and_eq_true, decide_eq_true_eq]
    rw [wordAdd_of_lt (by omega), Nat.add_zero]
    exact hcov
  -- the lookup finds that segment and no other
  have honly : ∀ as i v bs, zs = as ++ (i, v) :: bs → lookupTest p.1 0 v → p.2 = (i, v) := by
    rintro as i v bs rfl hv
    simp only [lookupTest, Bool.and_eq_true, decide_eq_true_eq] at hv
    rw [wordAdd_of_lt (by omega), Nat.add_zero] at hv
    by_contra hne
    refine hok.covers_apart (y := p.2) ⟨?_, by simpa using hused⟩ hcov hv
    simp only [List.mem_append, List.mem_cons] at hmem ⊢
    tauto
  refine btVmUnmapRegion_rule hshow hok.unshared ?_ ?_
  · intro s' hbad e
    cases hfind : zs.find? fun x => lookupTest p.1 0 x.2 with
    | none => exact absurd hlook (by simpa using List.find?_eq_none.mp hfind p.2 hmem)
    | some x =>
      obtain ⟨hx, as, bs, heq, -⟩ := List.find?_eq_some_iff_append.mp hfind
      have hpx : p.2 = x := honly as x.1 x.2 bs heq hx
      exact absurd (hpx ▸ hmapped) (hbad _ hfind)
  · intro as i v bs s₁ e t heq hv _ _ _ _ s' e'
    have hpv := honly as i v bs heq hv
    have hv' : ¬v.has btSegFree := by
      rw [hpv] at hused
      simpa using hused
    subst heq
    obtain ⟨ps₁, ps₂, rfl⟩ := List.append_of_mem hp
    refine ⟨_, ps₁ ++ ps₂, e'.shows, hok.freed hb, ?_, ?_, fun q hq => hps q ?_⟩
    · rw [inUseOf_freeAt]
      refine List.Perm.cons_inv (a := (i, v)) ((inUseOf_middle hv').symm.trans (hperm.trans ?_))
      rw [List.map_append, List.map_cons, hpv, List.map_append, List.append_assoc,
        List.append_assoc, List.cons_append]
      exact List.perm_middle
    · have hlive' := hlive.erase p.1
      refine .trans ?_ hlive'
      rw [List.map_append, List.map_append, List.map_cons]
      exact (List.Perm.cons_inv (a := p.1)
        ((List.perm_cons_erase (by simp)).symm.trans List.perm_middle)).symm
    · simp only [List.mem_append, List.mem_cons] at hq ⊢
      tauto

/-- A failure has nothing to unmap. -/
theorem iounmap_failed (h : Outstanding lo hi U live s) (hb : Bounds lo hi) (hr : r < btPageSize) :
    Prog.Ensures (btIounmap K r) s fun _ s' => Outstanding lo hi U (live.erase r) s' := by
  rw [List.erase_of_not_mem (h.not_mem hb hr)]
  obtain ⟨zs, ps, hshow, hok, hperm, hlive, hps⟩ := h
  refine btVmUnmapRegion_rule hshow hok.unshared ?_ ?_
  · intro s' _ e
    exact ⟨zs, ps, e.shows, hok, hperm, hlive, hps⟩
  · intro as i v bs s₁ e t heq hv
    have hlo : lo ≤ v.addr := (hok.fits hb (x := (i, v)) (by rw [heq]; simp)).1
    have hpage := hb.page_le
    simp only [lookupTest, Bool.and_eq_true, decide_eq_true_eq] at hv
    exact absurd hv.1 (by omega)

end Outstanding

/-- What is in use after some calls. -/
theorem IoRun.outstanding {U : List Entry} {live₀ live : List ℕ} (run : IoRun K s live₀ live s')
    (hb : Bounds lo hi) (h : Outstanding lo hi U live₀ s) : Outstanding lo hi U live s' := by
  induction run with
  | nil => exact h
  | ioremap _ hphys hsize hfits hrun ih => exact (ih.ioremap hb hphys hsize hfits).yields _ _ hrun
  | iounmap _ hr hrun ih =>
    rcases hr with hr | hr
    · exact (ih.iounmap hb hr).yields _ _ hrun
    · exact (ih.iounmap_failed hb hr).yields _ _ hrun

theorem Outstanding.init (h : Shows s 0 xs) (hok : SegmentsOk lo hi xs) :
    Outstanding lo hi (inUseOf xs) [] s :=
  ⟨xs, [], h, hok, .refl _, .refl _, fun _ hp => absurd hp List.not_mem_nil⟩

/-- When all was unmapped the segments are those that there were. -/
theorem Outstanding.done {U : List Entry} (h : Outstanding lo hi U [] s) :
    ∃ zs, Shows s 0 zs ∧ SegmentsOk lo hi zs ∧ (inUseOf zs).Perm U := by
  obtain ⟨zs, ps, hshow, hok, hperm, hlive, -⟩ := h
  obtain rfl : ps = [] := List.map_eq_nil_iff.mp hlive.eq_nil
  exact ⟨zs, hshow, hok, hperm⟩

/-- One segment more comes and goes without trace. -/
theorem IoRun.restored {ys : List Entry} {x : Entry} {r : ℕ} {live : List ℕ} {s₁ s₂ : Machine σ}
    (hb : Bounds lo hi) (h : Shows s 0 xs) (hok : SegmentsOk lo hi xs) (h' : Shows s' 0 ys)
    (hok' : SegmentsOk lo hi ys)
    (hperm : (inUseOf ys).Perm (x :: inUseOf xs)) (hr : x.2.Covers r) (hm : x.2.has btSegMapped)
    (run₁ : IoRun K s' [] live s₁) (run₂ : IoRun K s [] [] s₂) :
    Prog.Ensures (btIounmap K r) s₁ fun _ s₃ => ∀ s₄, IoRun K s₃ live [] s₄ →
      ∃ ys zs, Shows s₄ 0 ys ∧ Shows s₂ 0 zs ∧ SameLayout zs ys ∧ SameLayout xs ys := by
  have o₁ := run₁.outstanding hb (.init h' hok')
  obtain ⟨zs, hzs, hokz, hpermz⟩ := (run₂.outstanding hb (.init h hok)).done
  refine ((o₁.claim hperm hr hm).iounmap hb List.mem_cons_self).mono fun _ s₃ o₃ s₄ run₃ => ?_
  rw [List.erase_cons_head] at o₃
  obtain ⟨ws, hws, hokw, hpermw⟩ := (run₃.outstanding hb o₃).done
  exact ⟨ws, zs, hws, hzs, hokz.sameLayout hokw (hpermz.trans hpermw.symm),
    hok.sameLayout hokw hpermw.symm⟩

/-! ## When it works

The cases of the condition are those of the rule, with a missing segment and a missing table told
apart. -/

/-- However much is cut off, no segment ends beyond the last address. -/
theorem Carve.end_le {v : Segment} {n j p b : ℕ} (hc : Carve xs v v.addr n as j p bs)
    (hn : n ≤ v.size) (hle : ∀ x ∈ xs, x.2.addr + x.2.size ≤ b) (hb : b ≤ 2 ^ 32) :
    v.addr + n ≤ b ∧ ∀ x ∈ as ++ bs, x.2.addr + x.2.size ≤ b := by
  obtain ⟨y, hy, rfl, -⟩ := hc.mem
  have hv := hle y hy
  generalize hya : y.2.addr = a at hc
  cases hc with
  | inner _ _ hne => exact absurd hya hne
  | @front as bs i k _ hxs _ =>
    refine ⟨by omega, fun x hx => ?_⟩
    have hold : x ∈ as ∨ x ∈ bs → x.2.addr + x.2.size ≤ b := by
      intro hx
      refine hle x ?_
      rw [hxs]
      simp only [List.mem_append, List.mem_cons]
      tauto
    rcases List.mem_append.mp hx with hx | hx
    · exact hold (.inl hx)
    rcases List.mem_append.mp hx with hx | hx
    · unfold tailOf at hx
      split at hx
      · exact absurd hx List.not_mem_nil
      · obtain rfl := List.mem_singleton.mp hx
        unfold wordAdd wordSub
        simp only
        omega
    · exact hold (.inr hx)

/-- Where no segment is found the call returns null, which is right for the address of a page that
cannot be mapped. -/
theorem remappable_none (h : allocTarget K s.env xs (ioBytes phys size) = none) :
    Remappable K s xs phys size ↔ phys % btPageSize = 0 ∧ ¬Mappable K s xs phys size := by
  rw [Remappable, h]

/-- Where one is found the call is right as long as the size with its offset can be rounded up, and
there are tables for its pages. -/
theorem remappable_some {v : Segment} {e : σ}
    (h : allocTarget K s.env xs (ioBytes phys size) = some (v, e)) :
    Remappable K s xs phys size ↔ size + phys % btPageSize + (btPageSize - 1) < 2 ^ 32 ∧
      tablesFor K (s.hasTable (getPgd (s.map 0).pgd)) (ioBytes phys size / btPageSize) v.addr e =
        true := by
  rw [Remappable, h]

/-- The bytes of a mapping -/
theorem ioSegment_mapsTo {a j k : ℕ} (hphys : phys < 2 ^ 32) (hsize : 0 < size) (hk : k < size)
    (hfits : size + phys % btPageSize + (btPageSize - 1) < 2 ^ 32) :
    MapsTo (as ++ (j, ioSegment a phys size) :: bs) (a + phys % btPageSize + k)
    (wordAdd phys k) := by
  obtain ⟨-, -, hle⟩ := ioBytes_of_fits hsize hfits
  obtain ⟨-, -, hmapped, hio⟩ := ioSegment_flags a phys size
  refine ⟨(j, ioSegment a phys size), by simp, ⟨?_, ?_⟩, ?_, hmapped, hio⟩
  · change a ≤ a + phys % btPageSize + k
    omega
  · change a + phys % btPageSize + k < a + ioBytes phys size
    omega
  · change wordAdd (btPageTrunc phys) (a + phys % btPageSize + k - a) = wordAdd phys k
    unfold wordAdd btPageSize
    rw [btPageTrunc_eq hphys]
    congr 1
    omega

/-- The last byte of a call that wraps around has no address. -/
theorem not_mapsTo_of_wrap {v : Segment} {j p : ℕ} (hb : Bounds lo hi) (hok : SegmentsOk lo hi xs)
    (hn : ioBytes phys size ≤ v.size) (hc : Carve xs v v.addr (ioBytes phys size) as j p bs)
    {w pa : ℕ}
    (hw : 2 ^ 32 ≤ w) : ¬MapsTo (as ++ (j, ioSegment v.addr phys size) :: bs) w pa := by
  have hhi := hb.le
  obtain ⟨hmid, hothers⟩ := hc.end_le (b := hi) hn (fun x hx => (hok.fits hb hx).2.2.1) hhi
  rintro ⟨x, hx, hcov, -⟩
  have hend := hcov.2
  have hle : x.2.addr + x.2.size ≤ hi := by
    rcases List.mem_append.mp hx with hx | hx
    · exact hothers x (List.mem_append_left _ hx)
    rcases List.mem_cons.mp hx with rfl | hx
    · exact hmid
    · exact hothers x (List.mem_append_right _ hx)
  omega

section Verdict

variable {inUse : σ → ℕ → Prop} {a : ℕ} {e : σ}

/-- The page of a byte -/
theorem trunc_byte {k : ℕ} (hphys : phys < 2 ^ 32) :
    wordAdd (btPageTrunc phys) (((a * 4096 + phys % btPageSize + k) / 4096 - a) * 4096) =
      btPageTrunc (wordAdd phys k) := by
  have hlt : wordAdd phys k < 2 ^ 32 := Nat.mod_lt _ (Nat.two_pow_pos 32)
  rw [btPageTrunc_eq hphys, btPageTrunc_eq hlt]
  unfold wordAdd btPageSize
  omega

/-- Every page of a mapping has one of its bytes. -/
theorem exists_byte {b off i n : ℕ} (hsize : 0 < size) (hoff : off < 4096) (hi : i < n / 4096)
    (hround : n < size + off + 4096) :
    ∃ k < size, (b * 4096 + off + k) / 4096 = b + i :=
  ⟨i * 4096 - off, by omega, by omega⟩

/-- Without wrap-around the bytes are all found exactly if the tables are granted. -/
theorem remapped_iff {j : ℕ} (h : IoMapped K s e phys size a s') (law : TableLaw K inUse)
    (kept : TablesKept K inUse) (hd : DirOk K inUse 4096 (getPgd (s.map 0).pgd) s)
    (hphys : phys < 2 ^ 32) (hsize : 0 < size) (ha : a % 4096 = 0)
    (hfits : size + phys % btPageSize + (btPageSize - 1) < 2 ^ 32)
    (hend : a + ioBytes phys size ≤ 2 ^ 32)
    (halt : a < 2 ^ 32) (hshow : Shows s' 0 (as ++ (j, ioSegment a phys size) :: bs)) :
    Remapped K s' phys size (a + phys % btPageSize) ↔
      tablesFor K (s.hasTable (getPgd (s.map 0).pgd)) (ioBytes phys size / btPageSize) a e =
        true := by
  obtain ⟨hpos, hbytes, hle⟩ := ioBytes_of_fits hsize hfits
  obtain ⟨b, rfl⟩ : ∃ b, a = b * 4096 := ⟨a / 4096, by omega⟩
  have hb : b * 4096 / 4096 = b := by omega
  have hlt : ioBytes phys size < 2 ^ 32 := by
    unfold ioBytes
    exact btPageAlign_lt _
  constructor
  · intro hm
    by_contra hrefused
    obtain ⟨i, hi, hnone⟩ := h.walk_refused ha hbytes hlt halt hrefused
    obtain ⟨ng, -, hwalk⟩ := hm.mapped
    -- some byte lies in the page that is not found
    have hbyte : ∃ k < size, (b * 4096 + phys % btPageSize + k) / 4096 = b + i := by
      have hround : ioBytes phys size < size + phys % btPageSize + 4096 := by
        have hword : wordAdd size (phys % btPageSize) = size + phys % btPageSize :=
          wordAdd_of_lt (lt_of_le_of_lt (Nat.le_add_right ..) hfits)
        unfold ioBytes
        rw [hword]
        exact (btPageAlign_of_lt hfits).2.2
      exact exists_byte hsize (Nat.mod_lt _ (by decide)) hi hround
    obtain ⟨k, hk, hpage⟩ := hbyte
    have hfound := hwalk k hk
    rw [hnone _ (by rw [hpage, hb])] at hfound
    exact absurd hfound (by simp)
  · intro hgrant
    obtain ⟨ng, hng, hwalk⟩ := h.walk_granted law kept hd hphys ha hbytes hend hlt halt hgrant
    refine ⟨?_, ⟨_, hshow, fun k hk => ioSegment_mapsTo hphys hsize hk hfits⟩, ng, hng,
      fun k hk => ?_⟩
    · exact (Nat.mul_add_mod_self_right ..).trans (Nat.mod_mod ..)
    · have hlo : b * 4096 ≤ b * 4096 + phys % btPageSize + k :=
        (Nat.le_add_right ..).trans (Nat.le_add_right ..)
      have hhi : b * 4096 + phys % btPageSize + k < b * 4096 + ioBytes phys size := by
        rw [Nat.add_assoc]
        exact Nat.add_lt_add_left (by omega) _
      rw [hwalk _ hlo hhi, hb, trunc_byte hphys]

/-- A call returns, and its result is what was asked for exactly in these cases. -/
theorem btIoremap_verdict (law : TableLaw K inUse) (kept : TablesKept K inUse) (hb : Bounds lo hi)
    (h : Shows s 0 xs) (hok : SegmentsOk lo hi xs)
    (hd : DirOk K inUse 4096 (getPgd (s.map 0).pgd) s) (hphys : phys < 2 ^ 32)
    (hsize : 0 < size) : Prog.Ensures (btIoremap K phys size) s fun r s' =>
      IoMapping K s xs phys size r s' ↔ Remappable K s xs phys size := by
  have hpage := hb.page_le
  have hhi := hb.le
  refine btIoremap_rule hb h hok hphys ?_ ?_
  · intro hnone s' hshow
    rw [remappable_none hnone]
    constructor
    · intro hm
      have h0 : phys % btPageSize = 0 := by
        by_contra hne
        obtain ⟨ys, hys, hmap⟩ := (hm.remapped hne).listed
        obtain rfl := hys.unique hshow
        obtain ⟨x, hx, hcov, -⟩ := hmap 0 hsize
        have hlo := (hok.fits hb hx).1.trans hcov.1
        have hlt : phys % btPageSize < btPageSize := Nat.mod_lt _ (by decide)
        omega
      exact ⟨h0, (hm.failed h0).2⟩
    · rintro ⟨h0, hno⟩
      exact ⟨fun _ => ⟨hshow, hno⟩, fun hne => absurd h0 hne, fun hne => absurd h0 hne⟩
  · intro v e as j p bs s' hsome ht hc hshow hmapped
    rw [remappable_some hsome]
    have hn : ioBytes phys size ≤ v.size := by
      simp only [allocTest, Bool.and_eq_true, decide_eq_true_eq] at ht
      exact ht.2
    obtain ⟨x, hx, rfl, -⟩ := hc.mem
    obtain ⟨hlo, -, hend, -⟩ := hok.fits hb hx
    have hal := (hok.aligned x hx).1
    have hlt : phys % btPageSize < btPageSize := Nat.mod_lt _ (by decide)
    have hpos := (hok.fits hb hx).2.1
    have hr : wordAdd x.2.addr (phys % btPageSize) = x.2.addr + phys % btPageSize := by
      have := (hok.aligned x hx).2
      unfold btPageSize at *
      exact wordAdd_of_lt (by omega)
    rw [hr]
    have hne : x.2.addr + phys % btPageSize ≠ 0 := by
      have : 0 < btPageSize := by decide
      omega
    by_cases hfits : size + phys % btPageSize + (btPageSize - 1) < 2 ^ 32
    · have hremapped := remapped_iff hmapped law kept hd hphys hsize hal hfits
        (by omega) (by omega) hshow
      rw [and_iff_right hfits, ← hremapped]
      refine ⟨fun hm => hm.remapped hne,
        fun hm => ⟨fun h0 => absurd h0 hne, fun _ => hm, fun _ => ?_⟩⟩
      intro live s₁ s₂ run₁ run₂
      obtain ⟨hfree, -, hmapped, -⟩ := ioSegment_flags x.2.addr phys size
      obtain ⟨-, -, hle⟩ := ioBytes_of_fits hsize hfits
      refine IoRun.restored (x := (j, ioSegment x.2.addr phys size)) hb h hok hshow
        (hok.ioremap hb hsize hfits ht hc) ?_ ⟨Nat.le_add_right .., ?_⟩ hmapped run₁ run₂
      · rw [← inUseOf_carve hc]
        exact inUseOf_middle hfree
      · change x.2.addr + phys % btPageSize < x.2.addr + ioBytes phys size
        omega
    · refine iff_of_false (fun hm => ?_) fun hand => hfits hand.1
      obtain ⟨ys, hys, hmap⟩ := (hm.remapped hne).listed
      obtain rfl := hys.unique hshow
      refine not_mapsTo_of_wrap hb hok hn hc ?_ (hmap (size - 1) (by omega))
      omega

/-- **When I/O memory is mapped as it should be.** The kernel's map shows a tiling and its directory
is in order, each slot empty or with a page table of its own, as `bt_mmu_init` leaves it. A call
then does what is asked of it exactly if the search finds a segment, nothing wraps around and the
tables are granted, or it finds none, there is no offset, and no other segment would have done. -/
theorem ioremap_iff (law : TableLaw K inUse) (kept : TablesKept K inUse) (hb : Bounds lo hi)
    (h : Shows s 0 xs) (hok : SegmentsOk lo hi xs)
    (hd : DirOk K inUse 4096 (getPgd (s.map 0).pgd) s) (hphys : phys < 2 ^ 32)
    (hsize : 0 < size) :
    Prog.Ensures (btIoremap K phys size) s (IoMapping K s xs phys size) ↔
      Remappable K s xs phys size := by
  obtain ⟨r, s', hrun, hiff⟩ := btIoremap_verdict law kept hb h hok hd hphys hsize
  exact ⟨fun hE => hiff.mp (hE.yields r s' hrun), fun hR => ⟨r, s', hrun, hiff.mpr hR⟩⟩

end Verdict

/-! ## The map of the kernel

The addresses from `0xC0000000` on, as one free segment. -/

/-- The segment `bt_vm_init` makes -/
def kernelSegment : Segment := ⟨btMmUserLimit, stockRam.phys, 0x40000000, btSegFree⟩

/-- A machine whose kernel has a map with that segment -/
def kernelMachine (e : Stock) : Machine Stock :=
  { bootMachine e with
    fresh := 2
    links := (Links.initHead ⟨id, id⟩ (.head 0)).insertAfter (.list 1) (.head 0)
    seg := fun _ => kernelSegment
    map := fun _ => ⟨1, 0xC0004000, 0, 0⟩ }

theorem kernelMachine_shows (e : Stock) : Shows (kernelMachine e) 0 [(1, kernelSegment)] :=
  Shows.single rfl rfl rfl rfl (Nat.lt_succ_self 1)

theorem kernel_bounds : Bounds btMmUserLimit (2 ^ 32) := ⟨by decide, by decide, le_rfl⟩

theorem kernelSegment_ok : SegmentsOk btMmUserLimit (2 ^ 32) [(1, kernelSegment)] where
  tiles := ⟨rfl, by decide, tiles_nil.mpr (by decide)⟩
  aligned x hx := by
    obtain rfl := List.mem_singleton.mp hx
    decide
  apart := List.isChain_singleton _
  flags x hx _ := by
    obtain rfl := List.mem_singleton.mp hx
    rfl
  unshared x hx := by
    obtain rfl := List.mem_singleton.mp hx
    exact not_has_shared_of_free

/-- A page of a UART, with a heap block and a page table to spare. -/
theorem ioremap_iff_uart : Prog.Ensures (btIoremap ramKernel 0xE0001000 0x1000)
    (kernelMachine ⟨1, 0, 0, 0, 1⟩)
    (IoMapping ramKernel (kernelMachine ⟨1, 0, 0, 0, 1⟩)
    [(1, kernelSegment)] 0xE0001000 0x1000) := by
  refine (ioremap_iff ramKernel_tables ramKernel_kept kernel_bounds
    (kernelMachine_shows _) kernelSegment_ok
    (DirOk.of_empty fun _ _ => rfl) (by decide) (by decide)).mpr ?_
  have hsome : allocTarget ramKernel ⟨1, 0, 0, 0, 1⟩ [(1, kernelSegment)]
      (ioBytes 0xE0001000 0x1000) =
      some (kernelSegment, ⟨0, 0, 0, 0, 1⟩) := rfl
  exact (remappable_some hsome).mpr ⟨by decide, by decide +kernel⟩

/-- Without a heap block, a register in the middle of a page is said to be mapped at its offset. -/
theorem ioremap_offset_of_null :
    ∃ s', btIoremap ramKernel 0xE0001010 4 (kernelMachine ⟨0, 0, 0, 0, 1⟩) = some (0x10, s') ∧
    ¬IoMapping ramKernel (kernelMachine ⟨0, 0, 0, 0, 1⟩)
    [(1, kernelSegment)] 0xE0001010 4 0x10 s' := by
  obtain ⟨r, s', hrun, hiff⟩ := btIoremap_verdict ramKernel_tables ramKernel_kept kernel_bounds
    (kernelMachine_shows ⟨0, 0, 0, 0, 1⟩) kernelSegment_ok (DirOk.of_empty fun _ _ => rfl)
    (show 0xE0001010 < 2 ^ 32 by decide) (show 0 < 4 by decide)
  have hres : (btIoremap ramKernel 0xE0001010 4 (kernelMachine ⟨0, 0, 0, 0, 1⟩)).map Prod.fst =
      some 0x10 := by
    decide +kernel
  obtain rfl : r = 0x10 := by
    rw [hrun] at hres
    exact Option.some.inj hres
  have hnone : allocTarget ramKernel ⟨0, 0, 0, 0, 1⟩ [(1, kernelSegment)] (ioBytes 0xE0001010 4) =
      none := by
    decide +kernel
  refine ⟨s', hrun, fun hm => ?_⟩
  exact absurd ((remappable_none hnone).mp (hiff.mp hm)).1 (by decide)

end BitThunder
