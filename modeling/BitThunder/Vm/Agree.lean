import BitThunder.Vm.Directory
import BitThunder.Vm.Space

/-!
# Segments and page tables

The segment list says which addresses of a map are in use, and the page tables are to
say the same. They are written by different functions: the list first, the tables by
`bt_mmu_map`, which can stop in the middle of a range when the cache of page tables is
empty. Nobody takes back the entries it has made until then: `bt_vm_map_region` does
not look at its result, and `do_allocate` gives the pages and the segment back and
leaves the entries.

* `TablesShow`: the entries of the user part of a directory are those of a set of
  segments;
* `segments_agree`: as long as no page table is refused, except to an allocation at its
  first page, the tables show the segments in use;
* `entries_outlive_pages`: a refused table at the second page leaves an entry for pages
  that went back to the pool.

`TablesShow` is stated of a set of segments rather than of a list, because the two sides are not
updated together: between cutting a segment out and entering its pages the list is ahead of the
tables, and the set is what the tables have got to. A run of `bt_mmu_map` that is not refused adds
one segment to the set or takes one out; the edit of the list then makes the set of segments in use
the same again.

A run that is refused in the middle has entered some pages, and they stay. Where this is excluded,
failing calls leave the tables alone: an allocation that is refused its first table has entered
nothing. The agreement is then an invariant, and what the hardware finds for an address is a
function of the segments in use.
-/

namespace BitThunder

variable {σ : Type} {K : Kernel σ} {inUse : σ → ℕ → Prop} {s s' t : Machine σ} {m hdl : ℕ}
  {xs as bs : List Entry}

/-! ## Entries

What the tables of a directory say about the user part, as a set of segments; and which changes of
the machine keep that. -/

/-- The address lies in the segment. -/
def Segment.Covers (v : Segment) (w : ℕ) : Prop := v.addr ≤ w ∧ w < v.addr + v.size

/-- A range of whole pages in the user part. -/
structure UserRange (a n : ℕ) : Prop where
  /-- the range is made of pages -/
  addr : a % 4096 = 0
  size : n % 4096 = 0
  /-- which are user pages -/
  lo : btPageSize ≤ a
  hi : a + n ≤ btMmUserLimit

/-- What the second level entry of an address says. -/
def Machine.entryAt (K : Kernel σ) (s : Machine σ) (hdl w : ℕ) : Option (ℕ × ℕ) :=
  decodePte (s.pteAt K (getPgd hdl) w)

/-- The user part of the directory is in order and its entries are those of the segments
in `U`, page by page. -/
structure TablesShow (K : Kernel σ) (inUse : σ → ℕ → Prop) (hdl : ℕ) (s : Machine σ)
    (U : Set Entry) : Prop where
  /-- the user part of the directory is in order -/
  dir : DirOk K inUse 0xC00 (getPgd hdl) s
  /-- a page of a segment that holds memory is mapped to the memory of the segment -/
  used : ∀ x ∈ U, ∀ w, x.2.Covers w → ∃ attr,
    s.entryAt K hdl w = some (x.2.phys + (w - x.2.addr) / 4096 * 4096, attr)
  /-- and no other page is mapped -/
  rest : ∀ w < btMmUserLimit, (∀ x ∈ U, ¬ x.2.Covers w) → s.entryAt K hdl w = none

/-- Calls other than those of the cache of page tables keep the tables in use. -/
structure TablesKept (K : Kernel σ) (inUse : σ → ℕ → Prop) : Prop where
  /-- the heap takes no table away -/
  malloc : ∀ n e p, inUse e p → inUse (K.kMalloc n e).2 p
  free : ∀ q e p, inUse e p → inUse (K.kFree q e) p
  /-- nor does the page allocator -/
  pageAlloc : ∀ n e p, inUse e p → inUse (K.pageAlloc n e).2 p
  pageFree : ∀ q n e p, inUse e p → inUse (K.pageFree q n e) p

theorem TablesKept.heap (kept : TablesKept K inUse) {e e' : σ}
    (h : Relation.ReflTransGen K.HeapStep e e') {p : ℕ} (hp : inUse e p) : inUse e' p := by
  induction h with
  | refl => exact hp
  | tail _ hstep ih =>
    cases hstep with
    | malloc n => exact kept.malloc n _ p ih
    | free q => exact kept.free q _ p ih

/-- An entry is read off the directory and its table. -/
theorem Machine.entryAt_congr (hd : s'.dir = s.dir) (ht : s'.tbl = s.tbl) (w : ℕ) :
    s'.entryAt K hdl w = s.entryAt K hdl w := by
  unfold Machine.entryAt Machine.pteAt Machine.ptePresent Machine.virtToPte
  rw [hd, ht]

namespace TablesShow

variable {U : Set Entry}

/-- What does not touch tables keeps what they show. -/
theorem keep (h : TablesShow K inUse hdl s U) (hd : s'.dir = s.dir) (ht : s'.tbl = s.tbl)
    (hu : ∀ p, inUse s.env p → inUse s'.env p) : TablesShow K inUse hdl s' U where
  dir := h.dir.congr (fun i _ => by rw [hd]) hu
  used x hx w hw := by
    rw [Machine.entryAt_congr hd ht]
    exact h.used x hx w hw
  rest w hw hno := by
    rw [Machine.entryAt_congr hd ht]
    exact h.rest w hw hno

theorem edit (h : TablesShow K inUse hdl s U) (kept : TablesKept K inUse)
    (e : Edit K m xs s as s') : TablesShow K inUse hdl s' U :=
  h.keep e.frame.dir e.frame.tbl fun _ hp => kept.heap e.frame.env hp

end TablesShow

/-! ## `bt_mmu_map`

A run that is not refused enters one segment or removes one. A run that is refused has stopped
somewhere. -/

/-- A table that is refused is noted in the log. -/
theorem tableFor_log (pgd va k : ℕ) : Prog.Ensures (tableFor K pgd va k) s fun r s' =>
    ∃ evs, s'.log = evs ++ s.log ∧ (r = none → evs = [.ptRefused k]) := by
  refine tableFor_rule (fun _ => ⟨[], rfl, nofun⟩) (fun _ hz => ⟨[_], rfl, fun _ => ?_⟩)
    fun _ _ => ⟨[_], rfl, nofun⟩
  rw [if_pos hz]

/-- A run of the loop that ends early was refused a table. -/
theorem mmuMapLoop_refused (pgd flag n k pa va : ℕ) :
    Prog.Yields (mmuMapLoop K pgd flag n k pa va) s fun r s' =>
      r ≠ 0 → ∃ j evs, s'.log = .ptRefused j :: evs ++ s.log := by
  induction n generalizing s k pa va with
  | zero => exact Prog.yields_pure.mpr fun h => absurd rfl h
  | succ n ih =>
    rw [mmuMapLoop, Prog.yields_bind]
    refine (tableFor_log pgd va k).yields.mono fun r s₁ hlog => ?_
    obtain ⟨evs, hlog, hnone⟩ := hlog
    cases r with
    | none =>
      rw [hnone rfl] at hlog
      exact Prog.yields_pure.mpr fun _ => ⟨k, [], hlog⟩
    | some pte =>
      rw [Prog.yields_bind, Prog.yields_update]
      refine (ih _ _ _).mono fun r s₂ hrec hr => ?_
      obtain ⟨j, evs', hl⟩ := hrec hr
      refine ⟨j, evs' ++ evs, ?_⟩
      rw [hl, Machine.setPte, Machine.setTbl_log, hlog]
      simp

theorem btMmuMap_refused (pa va size type : ℕ) :
    Prog.Yields (btMmuMap K hdl pa va size type) s fun r s' => typeToPteFlags type ≠ none →
      r ≠ 0 → ∃ j evs, s'.log = .ptRefused j :: evs ++ s.log := by
  unfold btMmuMap
  cases typeToPteFlags type with
  | none => exact Prog.yields_pure.mpr fun h => absurd rfl h
  | some flag =>
    exact Prog.Yields.mono (mmuMapLoop_refused _ _ _ _ _ _) fun _ _ h _ => h

namespace TablesShow

variable {U : Set Entry} {a n pa type flag : ℕ} {r : ℤ}

/-- What a run of `bt_mmu_map` does to the entries: `j` pages were entered. -/
theorem run (h : TablesShow K inUse hdl s U) (law : TableLaw K inUse) (hr : UserRange a n)
    (hpa : pa % 4096 = 0) (hpend : pa + n ≤ 2 ^ 32) (hpos : 0 < n)
    (hflag : typeToPteFlags type = some flag)
    (hrun : btMmuMap K hdl pa a n type s = some (r, t)) :
    DirOk K inUse 0xC00 (getPgd hdl) t ∧ ∃ j ≤ n / 4096,
      (r = 0 ∧ j = n / 4096 ∨ r ≠ 0 ∧ ∃ evs, t.log = .ptRefused j :: evs ++ s.log) ∧
      ∀ w < btMmUserLimit, t.entryAt K hdl w = if a ≤ w ∧ w < a + j * 4096 then
        (if type = btPageUnmap then none else
          some (pa + (w - a) / 4096 * 4096, flag ||| nonGlobal a n))
        else s.entryAt K hdl w := by
  obtain ⟨haa, hna, -, hhi⟩ := hr
  unfold btMmUserLimit at hhi
  have hspec := btMmuMap_spec law (by decide : 0xC00 ≤ 4096) type h.dir haa hpa hna (by omega)
    (by omega) (by omega) (by omega) hpend
  rcases hspec.yields r t hrun with ⟨hno, -, -⟩ | ⟨flag', hflag', hg, j, hj, hend, hent⟩
  · rw [hflag] at hno
    cases hno
  · rw [hflag] at hflag'
    cases hflag'
    refine ⟨hg.ok, j, hj, ?_, fun w hw => ?_⟩
    · rcases hend with he | ⟨he, l, hl⟩
      · exact .inl he
      · have hne : r ≠ 0 := by omega
        obtain ⟨j', evs, hl'⟩ := btMmuMap_refused pa a n type _ _ hrun (by simp [hflag]) hne
        obtain ⟨rfl, -⟩ : j = j' ∧ l = evs ++ s.log := by
          rw [hl] at hl'
          simpa using hl'
        exact .inr ⟨hne, evs, hl'⟩
    · unfold btMmUserLimit at hw
      unfold Machine.entryAt
      rw [hent w (by omega), enteredPte]
      by_cases hin : a ≤ w ∧ w < a + j * 4096
      · rw [if_pos (by omega), if_pos hin, decodePte_entry (by omega) (typeToPteFlags_lt hflag a n),
          show w / 4096 - a / 4096 = (w - a) / 4096 by omega]
        by_cases htype : type = btPageUnmap
        · rw [if_pos htype, if_neg fun hb => (typeToPteFlags_present hflag a n).mp hb htype]
        · rw [if_neg htype, if_pos ((typeToPteFlags_present hflag a n).mpr htype)]
      · rw [if_neg (by omega), if_neg hin]

/-- A range was entered as a whole: the tables show one segment more. -/
theorem map {i f : ℕ} (h : TablesShow K inUse hdl s U) (hd : DirOk K inUse 0xC00 (getPgd hdl) t)
    (hr : UserRange a n) (hout : ∀ y ∈ U, ∀ w, y.2.Covers w → ¬ (a ≤ w ∧ w < a + n))
    (hlim : ∀ y ∈ U, y.2.addr + y.2.size ≤ btMmUserLimit)
    (hent : ∀ w < btMmUserLimit, t.entryAt K hdl w = if a ≤ w ∧ w < a + n then
      some (pa + (w - a) / 4096 * 4096, flag) else s.entryAt K hdl w) :
    TablesShow K inUse hdl t (insert (i, ⟨a, pa, n, f⟩) U) where
  dir := hd
  used x hx w hw := by
    rcases hx with rfl | hx
    · have hlt : w < btMmUserLimit := lt_of_lt_of_le hw.2 hr.hi
      have hin : a ≤ w ∧ w < a + n := hw
      exact ⟨flag, by rw [hent w hlt, if_pos hin]⟩
    · have hlt : w < btMmUserLimit := lt_of_lt_of_le hw.2 (hlim x hx)
      rw [hent w hlt, if_neg (hout x hx w hw)]
      exact h.used x hx w hw
  rest w hw hno := by
    have hin : ¬ (a ≤ w ∧ w < a + n) := hno _ (Set.mem_insert _ _)
    rw [hent w hw, if_neg hin]
    exact h.rest w hw fun y hy => hno y (Set.mem_insert_of_mem _ hy)

/-- A range was taken out as a whole: the tables show one segment less. -/
theorem unmap {x : Entry} (h : TablesShow K inUse hdl s (insert x U))
    (hd : DirOk K inUse 0xC00 (getPgd hdl) t)
    (hout : ∀ y ∈ U, ∀ w, y.2.Covers w → ¬ x.2.Covers w)
    (hlim : ∀ y ∈ U, y.2.addr + y.2.size ≤ btMmUserLimit)
    (hent : ∀ w < btMmUserLimit, t.entryAt K hdl w =
      if x.2.addr ≤ w ∧ w < x.2.addr + x.2.size then none else s.entryAt K hdl w) :
    TablesShow K inUse hdl t U where
  dir := hd
  used y hy w hw := by
    have hin : ¬ (x.2.addr ≤ w ∧ w < x.2.addr + x.2.size) := hout y hy w hw
    rw [hent w (lt_of_lt_of_le hw.2 (hlim y hy)), if_neg hin]
    exact h.used y (Set.mem_insert_of_mem _ hy) w hw
  rest w hw hno := by
    rw [hent w hw]
    split
    · rfl
    · rename_i hx
      refine h.rest w hw fun y hy => ?_
      rcases hy with rfl | hy
      · exact hx
      · exact hno y hy

/-- No entry has changed. -/
theorem same (h : TablesShow K inUse hdl s U) (hd : DirOk K inUse 0xC00 (getPgd hdl) t)
    (hlim : ∀ y ∈ U, y.2.addr + y.2.size ≤ btMmUserLimit)
    (hent : ∀ w < btMmUserLimit, t.entryAt K hdl w = s.entryAt K hdl w) :
    TablesShow K inUse hdl t U where
  dir := hd
  used y hy w hw := by
    rw [hent w (lt_of_lt_of_le hw.2 (hlim y hy))]
    exact h.used y hy w hw
  rest w hw hno := by
    rw [hent w hw]
    exact h.rest w hw hno

end TablesShow

/-! ## The segments in use -/

/-- The segments of a list that are not free. -/
def held (xs : List Entry) : Set Entry := {x | x ∈ xs ∧ ¬ x.2.has btSegFree}

/-- The segments in use are those that are not free. -/
theorem mem_held_filter {x : Entry} :
    x ∈ held xs ↔ x ∈ xs.filter fun x : Entry => !x.2.has btSegFree := by
  simp [held]

theorem held_eq_of_filter {ys : List Entry}
    (h : (xs.filter fun x : Entry => !x.2.has btSegFree) =
      ys.filter fun x : Entry => !x.2.has btSegFree) : held xs = held ys := by
  ext x
  rw [mem_held_filter, mem_held_filter, h]

/-- To carve out a segment leaves those in use as they were. -/
theorem held_carve {v : Segment} {a n j p : ℕ} (hc : Carve xs v a n as j p bs) :
    held (as ++ bs) = held xs :=
  held_eq_of_filter (hc.filter fun x hx => by simp [hx])

theorem held_freeAt {i : ℕ} {v : Segment} : held (freeAt as i v bs) = held (as ++ bs) :=
  held_eq_of_filter (filter_freeAt fun x hx => by simp [hx])

/-- A segment in the list that is not free is one in use. -/
theorem held_middle {i : ℕ} {v : Segment} (hv : ¬ v.has btSegFree) :
    held (as ++ (i, v) :: bs) = insert (i, v) (held (as ++ bs)) := by
  ext x
  simp only [held, Set.mem_ofPred_eq, Set.mem_insert_iff, List.mem_append, List.mem_cons]
  constructor
  · rintro ⟨hx | rfl | hx, hf⟩
    · exact .inr ⟨.inl hx, hf⟩
    · exact .inl rfl
    · exact .inr ⟨.inr hx, hf⟩
  · rintro (rfl | ⟨hx | hx, hf⟩)
    · exact ⟨.inr (.inl rfl), hv⟩
    · exact ⟨.inl hx, hf⟩
    · exact ⟨.inr (.inr hx), hf⟩

/-- The other segments lie elsewhere. -/
theorem SegmentsOk.covers_apart {lo hi i : ℕ} {v : Segment} {y : Entry}
    (h : SegmentsOk lo hi (as ++ (i, v) :: bs)) (hy : y ∈ held (as ++ bs)) {w : ℕ}
    (hw : y.2.Covers w) : ¬ v.Covers w := by
  obtain ⟨t₁, -, t₂⟩ := tiles_cut.mp h.tiles
  rintro ⟨hlo, hhi⟩
  obtain ⟨hylo, hyhi⟩ := hw
  rcases List.mem_append.mp hy.1 with hy | hy
  · have := (t₁.bounds hy).2.2
    simp only at this
    omega
  · have := (t₂.bounds hy).1
    simp only at this
    omega

theorem SegmentsOk.userRange {x : Entry} (h : SegmentsOk btPageSize btMmUserLimit xs)
    (hx : x ∈ xs) : UserRange x.2.addr x.2.size := by
  obtain ⟨h₁, -, h₂⟩ := h.tiles.bounds hx
  exact ⟨(h.aligned x hx).1, (h.aligned x hx).2, h₁, h₂⟩

/-- The list of the map and its page tables agree. -/
structure Agrees (K : Kernel σ) (inUse : σ → ℕ → Prop) (m hdl : ℕ) (s : Machine σ)
    (xs : List Entry) : Prop where
  /-- the machine has the segments of the map -/
  shows : Shows s m xs
  /-- which tile the user addresses -/
  ok : SegmentsOk btPageSize btMmUserLimit xs
  /-- this is the directory of the map -/
  pgd : (s.map m).pgd = hdl
  /-- it shows the segments -/
  tables : TablesShow K inUse hdl s (held xs)
  /-- whose memory is made of whole pages -/
  phys : ∀ x ∈ held xs, x.2.phys % 4096 = 0 ∧ x.2.phys + x.2.size ≤ 2 ^ 32

/-- No page table was refused between the two states; at most, if `first`, for the first page
of a range. -/
def TablesGranted (first : Prop) (s s' : Machine σ) : Prop :=
  ∀ evs, s'.log = evs ++ s.log → ∀ k, .ptRefused k ∈ evs → k = 0 ∧ first

/-- A refusal on the way from `s` to `s'`. -/
theorem TablesGranted.refused {first : Prop} {s₁ : Machine σ} {j : ℕ} {evs : List Event}
    (h : TablesGranted first s s') (h₁ : s.log <:+ s₁.log)
    (ht : t.log = .ptRefused j :: evs ++ s₁.log) (h₂ : t.log <:+ s'.log) : j = 0 ∧ first := by
  obtain ⟨evs₁, h₁⟩ := h₁
  obtain ⟨evs₂, h₂⟩ := h₂
  refine h (evs₂ ++ .ptRefused j :: evs ++ evs₁) ?_ j (by simp)
  rw [← h₂, ht, ← h₁]
  simp

theorem HeapFrame.suffix (h : HeapFrame K s s') : s.log <:+ s'.log := by
  obtain ⟨evs, hl, -⟩ := h.log
  exact ⟨evs, hl.symm⟩

section Steps

variable {taken : σ → ℕ → Prop}

namespace Agrees

theorem limit {y : Entry} (h : SegmentsOk btPageSize btMmUserLimit xs) (hy : y ∈ held xs) :
    y.2.addr + y.2.size ≤ btMmUserLimit := (h.tiles.bounds hy.1).2.2

/-- The list was edited, and the segments in use are the same. -/
theorem edit {ys : List Entry} (h : Agrees K inUse m hdl s xs) (kept : TablesKept K inUse)
    (e : Edit K m xs s ys s') (hok : SegmentsOk btPageSize btMmUserLimit ys)
    (hheld : held ys = held xs) : Agrees K inUse m hdl s' ys where
  shows := e.shows
  ok := hok
  pgd := by
    rw [e.frame.map]
    exact h.pgd
  tables := by
    rw [hheld]
    exact h.tables.edit kept e
  phys := by
    rw [hheld]
    exact h.phys

/-- The pages of a segment in use were taken out of the tables. -/
theorem unmapped {s₁ : Machine σ} {i : ℕ} {v : Segment} {r : ℤ}
    (h : Agrees K inUse m hdl s (as ++ (i, v) :: bs)) (law : TableLaw K inUse)
    (kept : TablesKept K inUse) (hv : ¬ v.has btSegFree)
    (e : Edit K m (as ++ (i, v) :: bs) s (as ++ (i, v) :: bs) s₁)
    (hrun : btMmuMap K hdl v.phys v.addr v.size btPageUnmap s₁ = some (r, t))
    (hno : ∀ j evs, t.log ≠ .ptRefused j :: evs ++ s₁.log) :
    TablesShow K inUse hdl t (held (as ++ bs)) := by
  have hx : (i, v) ∈ held (as ++ (i, v) :: bs) := ⟨by simp, hv⟩
  obtain ⟨hpa, hpend⟩ := h.phys _ hx
  have h₁ := h.tables.edit kept e
  have hpos : 0 < v.size := h.ok.mem_middle.2.2.1
  obtain ⟨hd, j, -, hend, hent⟩ := h₁.run law (h.ok.userRange hx.1) hpa hpend hpos rfl hrun
  rcases hend with ⟨-, rfl⟩ | ⟨-, evs, hlog⟩
  · have hmul : v.size / 4096 * 4096 = v.size := by
      have := h.ok.mem_middle.2.1
      omega
    rw [held_middle hv] at h₁
    refine h₁.unmap hd (fun y hy w hw => h.ok.covers_apart hy hw) (fun y hy => ?_) fun w hw => ?_
    · refine limit h.ok ?_
      rw [held_middle hv]
      exact Set.mem_insert_of_mem _ hy
    · rw [hent w hw, if_pos rfl]
      simp only [hmul]
  · exact absurd hlog (hno j evs)

/-- A range was entered for a segment that has just been obtained. -/
theorem mapped {U : Set Entry} {a n p pa j f type flag : ℕ} {r : ℤ}
    (hok : SegmentsOk btPageSize btMmUserLimit (as ++ (j, ⟨a, p, n, 0⟩) :: bs))
    (h : TablesShow K inUse hdl s U) (law : TableLaw K inUse) (hU : U = held (as ++ bs))
    (hpa : pa % 4096 = 0) (hpend : pa + n ≤ 2 ^ 32) (hflag : typeToPteFlags type = some flag)
    (htype : type ≠ btPageUnmap) (hrun : btMmuMap K hdl pa a n type s = some (r, t)) :
    r = 0 ∧ TablesShow K inUse hdl t (insert (j, ⟨a, pa, n, f⟩) U) ∨ r ≠ 0 ∧ ∃ k evs,
      t.log = .ptRefused k :: evs ++ s.log ∧ (k = 0 → TablesShow K inUse hdl t U) := by
  obtain ⟨-, hn, hpos, -, -⟩ := hok.mem_middle
  have hr : UserRange a n := hok.userRange (x := (j, ⟨a, p, n, 0⟩)) (by simp)
  have hlim : ∀ y ∈ U, y.2.addr + y.2.size ≤ btMmUserLimit := by
    intro y hy
    refine limit hok ?_
    rw [held_middle not_has_free_zero]
    exact Set.mem_insert_of_mem _ (hU ▸ hy)
  obtain ⟨hd, k, -, hend, hent⟩ := h.run law hr hpa hpend hpos hflag hrun
  rcases hend with ⟨hz, rfl⟩ | ⟨hne, evs, hlog⟩
  · have hmul : n / 4096 * 4096 = n := by
      simp only at hn
      omega
    have hall : ∀ w < btMmUserLimit, t.entryAt K hdl w = if a ≤ w ∧ w < a + n then
        some (pa + (w - a) / 4096 * 4096, flag ||| nonGlobal a n) else s.entryAt K hdl w := by
      intro w hw
      rw [hent w hw, hmul, if_neg htype]
    exact .inl ⟨hz, h.map hd hr (fun y hy w hw => hok.covers_apart (hU ▸ hy) hw) hlim hall⟩
  · refine .inr ⟨hne, k, evs, hlog, ?_⟩
    rintro rfl
    refine h.same hd hlim fun w hw => ?_
    rw [hent w hw, if_neg (by omega)]

/-- An allocation keeps the agreement. -/
theorem allocate {addr size flags : ℕ} (h : Agrees K inUse m hdl s xs) (law : TableLaw K inUse)
    (pages : PageLaw K taken) (kept : TablesKept K inUse)
    (hop : (VmOp.allocate addr size flags).Ok) :
    Prog.Ensures (doAllocate K m addr size flags) s fun r s' => TablesGranted True s s' →
      ∃ ys, Agrees K inUse m hdl s' ys ∧ (r.1 ≠ .none → held ys = held xs) := by
  have hb := user_bounds
  have hpages : ∀ {e : σ}, (K.pageAlloc (allocSize addr size flags) e).1 ≠ 0 →
      (K.pageAlloc (allocSize addr size flags) e).1 + allocSize addr size flags ≤ 2 ^ 32 := by
    intro e hz
    have hfit := pages.fits _ _ hz
    rwa [btPageAlign_allocSize hop.1] at hfit
  refine doAllocate_rule h.shows hop.1 ?_ ?_ ?_ ?_ ?_
  · intro _ _
    exact ⟨xs, h, fun _ => rfl⟩
  · intro xs' s' _ _ hu e _
    rw [hu.eq h.ok hb] at e
    exact ⟨xs, h.edit kept e h.ok rfl, fun _ => rfl⟩
  · intro v a as j p bs s₁ _ _ hob hat e hz s' e' _
    have hheld : held (freeAt as j ⟨a, p, allocSize addr size flags, segRwx⟩ bs) = held xs :=
      held_freeAt.trans (held_carve hob.carve)
    refine ⟨_, ⟨e'.shows, (alloc_fits hop hb h.ok hob hat).freeAt hb, ?_, ?_, ?_⟩, fun _ => hheld⟩
    · rw [e'.frame.map, Machine.pageCall_map, e.frame.map]
      exact h.pgd
    · rw [hheld]
      have h₁ : TablesShow K inUse hdl (s₁.pageCall K .segment (allocSize addr size flags))
          (held xs) := (h.tables.edit kept e).keep rfl rfl fun q hq => kept.pageAlloc _ _ q hq
      exact h₁.edit kept e'
    · rw [hheld]
      exact h.phys
  · intro v a as j p bs s₁ _ _ hob hat e hz e' t hrun he hframe s' e'' hgrant
    have hheld : held (freeAt as j ⟨a, p, allocSize addr size flags, segRwx⟩ bs) = held xs :=
      held_freeAt.trans (held_carve hob.carve)
    have h₁ : TablesShow K inUse hdl (s₁.pageCall K .segment (allocSize addr size flags))
        (held xs) := (h.tables.edit kept e).keep rfl rfl fun q hq => kept.pageAlloc _ _ q hq
    rw [h.pgd] at hrun
    have hfit := alloc_fits hop hb h.ok hob hat
    rcases mapped (f := segRwx) hfit h₁ law (held_carve hob.carve).symm (pages.aligned _ _)
      (hpages hz) rfl (by decide) hrun with ⟨h0, -⟩ | ⟨-, k, evs, hlog, hsame⟩
    · exact absurd h0 he
    · -- the refusal was for the first page, so there is nothing to take back
      obtain ⟨hk, -⟩ := hgrant.refused (e.frame.suffix.trans (List.suffix_cons _ _)) hlog
        ((List.suffix_cons _ _).trans e''.frame.suffix)
      have h₂ : TablesShow K inUse hdl (t.pageReturn K .segment
          (K.pageAlloc (allocSize addr size flags) s₁.env).1 (allocSize addr size flags))
          (held xs) := (hsame hk).keep rfl rfl fun q hq => kept.pageFree _ _ _ q hq
      refine ⟨_, ⟨e''.shows, hfit.freeAt hb, ?_, ?_, ?_⟩, fun _ => hheld⟩
      · rw [e''.frame.map, Machine.pageReturn_map, hframe.map, Machine.pageCall_map, e.frame.map]
        exact h.pgd
      · rw [hheld]
        exact h₂.edit kept e''
      · rw [hheld]
        exact h.phys
  · intro v a as j p bs s₁ _ _ hob hat e hz t hrun hframe hgrant
    rw [h.pgd] at hrun
    have h₁ : TablesShow K inUse hdl (s₁.pageCall K .segment (allocSize addr size flags))
        (held xs) := (h.tables.edit kept e).keep rfl rfl fun q hq => kept.pageAlloc _ _ q hq
    have hfit := alloc_fits hop hb h.ok hob hat
    have ht : Shows t m (as ++ (j, ⟨a, p, allocSize addr size flags, segRwx⟩) :: bs) :=
      hframe.shows (e.shows.congr rfl (fun _ _ => rfl) (le_refl _))
    have hheld : held (as ++ (j, ⟨a, (K.pageAlloc (allocSize addr size flags) s₁.env).1,
        allocSize addr size flags, segRwx⟩) :: bs) = insert (j, ⟨a,
          (K.pageAlloc (allocSize addr size flags) s₁.env).1, allocSize addr size flags, segRwx⟩)
        (held xs) := by
      rw [held_middle not_has_free_rwx, held_carve hob.carve]
    rcases mapped (f := segRwx) hfit h₁ law (held_carve hob.carve).symm (pages.aligned _ _)
      (hpages hz) rfl (by decide) hrun with ⟨-, hmap⟩ | ⟨h0, -⟩
    · refine ⟨_, ⟨(ht.setSeg ⟨a, (K.pageAlloc (allocSize addr size flags) s₁.env).1, _,
        segRwx⟩).congr rfl (fun _ _ => rfl) (le_refl _), hfit.hold rfl rfl not_has_free_rwx
        not_has_shared_rwx, ?_, ?_, ?_⟩, fun hne => absurd rfl hne⟩
      · rw [Machine.allocated_map, Function.update_self, hframe.map, Machine.pageCall_map,
          e.frame.map]
        exact h.pgd
      · rw [hheld]
        exact hmap.keep rfl rfl fun _ hq => hq
      · rw [hheld]
        rintro x (rfl | hx)
        · exact ⟨pages.aligned _ _, hpages hz⟩
        · exact h.phys x hx
    · exact absurd rfl h0

/-- Giving the pages of a segment back does not touch the tables. -/
theorem released {U : Set Entry} {v : Segment} (h : TablesShow K inUse hdl t U)
    (kept : TablesKept K inUse) : TablesShow K inUse hdl (t.released K v) U := by
  unfold Machine.released
  split
  · exact h
  · exact h.keep rfl rfl fun q hq => kept.pageFree _ _ _ q hq

/-- The log grows also when pages are given back. -/
theorem suffix_released {v : Segment} : t.log <:+ (t.released K v).log := by
  unfold Machine.released
  split
  · exact List.suffix_rfl
  · exact List.suffix_cons _ _

/-- A segment in use was taken out of the tables and given back: `u` is the state before the
list was edited. -/
theorem freed {u : Machine σ} {i : ℕ} {v : Segment}
    (h : Agrees K inUse m hdl s (as ++ (i, v) :: bs))
    (kept : TablesKept K inUse) (hv : ¬ v.has btSegFree)
    (hu : TablesShow K inUse hdl u (held (as ++ bs))) (hmap : (u.map m).pgd = hdl)
    (e : Edit K m (as ++ (i, v) :: bs) u (freeAt as i v bs) s') :
    Agrees K inUse m hdl s' (freeAt as i v bs) where
  shows := e.shows
  ok := h.ok.freed user_bounds
  pgd := by
    rw [e.frame.map]
    exact hmap
  tables := by
    rw [held_freeAt]
    exact hu.edit kept e
  phys x hx := by
    rw [held_freeAt] at hx
    refine h.phys x ?_
    rw [held_middle hv]
    exact Set.mem_insert_of_mem _ hx

/-- A free keeps the agreement. -/
theorem free {addr : ℕ} (h : Agrees K inUse m hdl s xs) (law : TableLaw K inUse)
    (kept : TablesKept K inUse) :
    Prog.Ensures (doFree K m addr) s fun r s' => TablesGranted False s s' →
      ∃ ys, Agrees K inUse m hdl s' ys ∧ (r ≠ .none → held ys = held xs) := by
  refine doFree_rule h.shows h.ok.unshared ?_ ?_
  · intro s' e _
    exact ⟨xs, h.edit kept e h.ok rfl, fun _ => rfl⟩
  · intro as i v bs s₁ r t hxs _ hf e₁ hrun hframe s' e' hgrant
    subst hxs
    rw [h.pgd] at hrun
    have hno : ∀ j evs, t.log ≠ .ptRefused j :: evs ++ s₁.log := by
      intro j evs hlog
      have hsuf : t.log <:+ s'.log := (suffix_released (K := K) (v := v)).trans e'.frame.suffix
      exact (hgrant.refused e₁.frame.suffix hlog hsuf).2
    have ht := released (v := v) (h.unmapped law kept hf e₁ hrun hno) kept
    have hu : TablesShow K inUse hdl ((t.released K v).setMap m
        { s.map m with size := wordSub (s.map m).size v.size }) (held (as ++ bs)) :=
      ht.keep rfl rfl fun _ hq => hq
    refine ⟨_, h.freed kept hf hu ?_ e', fun hne => absurd rfl hne⟩
    rw [Machine.setMap_map, Function.update_self]
    exact h.pgd

/-- Unmapping a region keeps the agreement. -/
theorem unmapRegion {va : ℕ} (h : Agrees K inUse m hdl s xs) (law : TableLaw K inUse)
    (kept : TablesKept K inUse) :
    Prog.Ensures (btVmUnmapRegion K m va) s fun _ s' => TablesGranted False s s' →
      ∃ ys, Agrees K inUse m hdl s' ys := by
  refine btVmUnmapRegion_rule h.shows h.ok.unshared ?_ ?_
  · intro s' _ e _
    exact ⟨xs, h.edit kept e h.ok rfl⟩
  · intro as i v bs s₁ r t hxs _ hm e₁ hrun hframe s' e' hgrant
    subst hxs
    rw [h.pgd] at hrun
    have hf : ¬ v.has btSegFree := by
      intro hf
      have hflags := h.ok.flags (i, v) (by simp) hf
      simp only [Segment.has] at hm hflags
      rw [hflags] at hm
      exact absurd hm (by decide)
    have hno : ∀ j evs, t.log ≠ .ptRefused j :: evs ++ s₁.log := by
      intro j evs hlog
      exact (hgrant.refused e₁.frame.suffix hlog e'.frame.suffix).2
    have ht := h.unmapped law kept hf e₁ hrun hno
    refine ⟨_, h.freed kept hf ht ?_ e'⟩
    rw [hframe.map, e₁.frame.map]
    exact h.pgd

/-- A type with segment flags is one that can be entered. -/
theorem typeToPteFlags_of_segflags {type : ℕ} (h : typeToSegflags type ≠ 0) :
    ∃ flag, typeToPteFlags type = some flag ∧ type ≠ btPageUnmap := by
  unfold typeToSegflags at h
  split at h
  · exact ⟨_, rfl, by decide⟩
  · exact ⟨_, rfl, by decide⟩
  · exact ⟨_, rfl, by decide⟩
  · exact ⟨_, rfl, by decide⟩
  · exact absurd rfl h

/-- Mapping a region keeps the agreement, and the region is mapped. -/
theorem mapRegion {pa va size type : ℕ} (h : Agrees K inUse m hdl s xs) (law : TableLaw K inUse)
    (kept : TablesKept K inUse) (hop : (VmOp.mapRegion pa va size type).Ok)
    (hpend : pa + btPageAlign size ≤ 2 ^ 32) :
    Prog.Ensures (btVmMapRegion K m pa va size type) s fun r s' => TablesGranted False s s' →
      ∃ ys, Agrees K inUse m hdl s' ys ∧ (r = 0 → held ys = held xs) ∧
        (r ≠ 0 → ∃ j f, (j, ⟨r, pa, btPageAlign size, f⟩) ∈ held ys) := by
  have hb := user_bounds
  have hstatic : ∀ {u : Machine σ} {r : Option ℕ} {U : Set Entry}, TablesShow K inUse hdl u U →
      TablesShow K inUse hdl (u.setMapSeg r) U := fun hu => hu.keep rfl rfl fun _ hq => hq
  refine btVmMapRegion_rule h.shows ?_ ?_ ?_
  · intro xs' s₁ hu _ e s' e' _
    rw [hu.eq h.ok hb] at e e'
    have h₁ := h.edit kept e h.ok rfl
    have h₂ : Agrees K inUse m hdl (s₁.setMapSeg none) xs :=
      ⟨h₁.shows.congr rfl (fun _ _ => rfl) (le_refl _), h.ok, h₁.pgd, hstatic h₁.tables, h.phys⟩
    exact ⟨xs, h₂.edit kept e' h.ok rfl, fun _ => rfl, fun h0 => absurd rfl h0⟩
  · intro v a as j p bs f s₁ hob hat e _ s' e' _
    have hheld : held (freeAt as j ⟨a, pa, btPageAlign size, 0⟩ bs) = held xs :=
      held_freeAt.trans (held_carve hob.carve)
    have hfit := region_fits hop hb h.ok hob hat
    have hpa : SegmentsOk btPageSize btMmUserLimit
        (as ++ (j, ⟨a, pa, btPageAlign size, 0⟩) :: bs) :=
      hfit.hold rfl rfl not_has_free_zero not_has_shared_zero
    refine ⟨_, ⟨e'.shows, hpa.freeAt hb, ?_, ?_, ?_⟩, fun _ => hheld, fun h0 => absurd rfl h0⟩
    · rw [e'.frame.map, Machine.setMapSeg_map, e.frame.map]
      exact h.pgd
    · rw [hheld]
      exact (hstatic (h.tables.edit kept e)).edit kept e'
    · rw [hheld]
      exact h.phys
  · intro v a as j p bs f s₁ hob hat e hseg s₂ r t _ e₂ hrun hframe hgrant
    rw [h.pgd] at hrun
    obtain ⟨flag, hflag, htype⟩ := typeToPteFlags_of_segflags hseg
    have hfit := region_fits hop hb h.ok hob hat
    have h₂ : TablesShow K inUse hdl s₂ (held xs) :=
      (hstatic (h.tables.edit kept e)).edit kept e₂
    have hheld : held (as ++ (j, ⟨a, pa, btPageAlign size, typeToSegflags type ||| btSegMapped⟩)
        :: bs) = insert (j, ⟨a, pa, btPageAlign size, typeToSegflags type ||| btSegMapped⟩)
        (held xs) := by
      rw [held_middle not_has_free_type, held_carve hob.carve]
    rcases mapped (f := typeToSegflags type ||| btSegMapped) hfit h₂ law (held_carve hob.carve).symm
      hop.1 hpend hflag htype hrun with ⟨-, hmap⟩ | ⟨-, k, evs, hlog, -⟩
    · refine ⟨_, ⟨(hframe.shows e₂.shows).congr rfl (fun _ _ => rfl) (le_refl _),
        hfit.hold rfl rfl not_has_free_type not_has_shared_type.2, ?_, ?_, ?_⟩, ?_, fun _ => ?_⟩
      · rw [Machine.emit_map, hframe.map, e₂.frame.map, Machine.setMapSeg_map, e.frame.map]
        exact h.pgd
      · rw [hheld]
        exact hmap.keep rfl rfl fun _ hq => hq
      · rw [hheld]
        rintro x (rfl | hx)
        · exact ⟨hop.1, hpend⟩
        · exact h.phys x hx
      · rintro rfl
        have hlo : btPageSize ≤ 0 :=
          (hfit.userRange (x := (j, ⟨0, p, btPageAlign size, 0⟩)) (by simp)).lo
        exact absurd hlo (by decide)
      · exact ⟨j, _, by rw [hheld]; exact Set.mem_insert _ _⟩
    · have hsuf : s.log <:+ s₂.log := e.frame.suffix.trans e₂.frame.suffix
      exact absurd (hgrant.refused hsuf hlog (List.suffix_cons _ _)).2 not_false

end Agrees

end Steps

/-! ## Runs -/

/-- `bt_vm_map_region`, `bt_vm_unmap_region`, `bt_vm_allocate` and `bt_vm_free`, with physical
ranges that do not wrap around. -/
def VmOp.Paged : VmOp → Prop
  | .mapRegion pa _ size _ => pa + btPageAlign size ≤ 2 ^ 32
  | .changeAttribute _ _ => False
  | _ => True

/-- The call gave nothing. -/
def VmOp.Failed (r : BtError × ℕ) : VmOp → Prop
  | .mapRegion _ _ _ _ => r.2 = 0
  | _ => r.1 ≠ .none

def VmOp.IsAllocate : VmOp → Prop
  | .allocate _ _ _ => True
  | _ => False

/-- The states a map with a page directory can get into by steps that pass a check. Nothing is
mapped below `BT_MM_USERLIMIT` in the kernel's own table. -/
inductive TableReach (K : Kernel σ) (m : ℕ) (may : VmOp → Machine σ → Machine σ → Prop) :
    Machine σ → Prop where
  | create {s₀ s : Machine σ} : (∀ i < 0xC00, s₀.dir K.mmuTable i = 0) →
      btVmCreate K s₀ = some (some m, s) → (s.map m).pgd ≠ 0 → TableReach K m may s
  | step {s s' : Machine σ} {op : VmOp} {r : BtError × ℕ} : TableReach K m may s → op.Ok →
      op.Paged → op.run K m s = some (r, s') → may op s s' → TableReach K m may s'

/-- No page table is refused, except to `bt_vm_allocate` for the first page of its range. -/
def RefusedFirst (op : VmOp) (s s' : Machine σ) : Prop := TablesGranted op.IsAllocate s s'

/-- A page of the user range has a present entry exactly if it lies in a segment that is not
free, and the entry leads to the page's place in the memory of the segment. -/
def SegmentsAgree (K : Kernel σ) (m : ℕ) (s : Machine σ) : Prop :=
  ∃ xs, Shows s m xs ∧ ∀ va, btPageSize ≤ va → va < btMmUserLimit → va % 4096 = 0 →
    ((s.walk K (getPgd (s.map m).pgd) va).isSome ↔
      ∃ x ∈ xs, ¬ x.2.has btSegFree ∧ x.2.Covers va) ∧
    ∀ x ∈ xs, ¬ x.2.has btSegFree → x.2.Covers va → ∃ attr,
      s.walk K (getPgd (s.map m).pgd) va = some (x.2.phys + (va - x.2.addr), attr)

/-- Below the limit a walk ends at the entry. -/
theorem TablesShow.walk_eq {U : Set Entry} (h : TablesShow K inUse hdl s U) {va : ℕ}
    (hva : va < btMmUserLimit) : s.walk K (getPgd hdl) va = s.entryAt K hdl va := by
  refine h.dir.walk_eq ?_
  rw [pageDir_eq]
  unfold btMmUserLimit at hva
  omega

/-- Tables that show the same segments translate alike. -/
theorem TablesShow.walk_map_fst {U : Set Entry} (h : TablesShow K inUse hdl s U)
    (h' : TablesShow K inUse hdl s' U) {va : ℕ} (hva : va < btMmUserLimit) :
    (s'.walk K (getPgd hdl) va).map Prod.fst = (s.walk K (getPgd hdl) va).map Prod.fst := by
  rw [h.walk_eq hva, h'.walk_eq hva]
  by_cases hin : ∃ x ∈ U, x.2.Covers va
  · obtain ⟨x, hx, hc⟩ := hin
    obtain ⟨attr, he⟩ := h.used x hx va hc
    obtain ⟨attr', he'⟩ := h'.used x hx va hc
    rw [he, he']
    rfl
  · have hno : ∀ x ∈ U, ¬ x.2.Covers va := fun x hx hc => hin ⟨x, hx, hc⟩
    rw [h.rest va hva hno, h'.rest va hva hno]

/-- The entry of a page of a segment in use. -/
theorem Agrees.walk {x : Entry} {va : ℕ} (h : Agrees K inUse m hdl s xs) (hx : x ∈ held xs)
    (hc : x.2.Covers va) (hmod : va % 4096 = 0) :
    ∃ attr, s.walk K (getPgd hdl) va = some (x.2.phys + (va - x.2.addr), attr) := by
  obtain ⟨attr, he⟩ := h.tables.used x hx va hc
  refine ⟨attr, ?_⟩
  have haa := (h.ok.aligned x hx.1).1
  have hlo := hc.1
  rw [h.tables.walk_eq (lt_of_lt_of_le hc.2 (Agrees.limit h.ok hx)), he]
  congr 3
  omega

theorem Agrees.segmentsAgree (h : Agrees K inUse m hdl s xs) : SegmentsAgree K m s := by
  refine ⟨xs, h.shows, fun va _ hhi hmod => ⟨⟨fun hsome => ?_, ?_⟩, fun x hx hf hc => ?_⟩⟩
  · by_contra hno
    have hrest : s.walk K (getPgd hdl) va = none := by
      rw [h.tables.walk_eq hhi]
      exact h.tables.rest va hhi fun x hx hc => hno ⟨x, hx.1, hx.2, hc⟩
    rw [h.pgd, hrest] at hsome
    cases hsome
  · rintro ⟨x, hx, hf, hc⟩
    obtain ⟨attr, he⟩ := h.walk ⟨hx, hf⟩ hc hmod
    rw [h.pgd, he]
    rfl
  · rw [h.pgd]
    exact h.walk ⟨hx, hf⟩ hc hmod

/-- The directory of a new map has nothing in its user part. -/
theorem create_empty (hempty : ∀ i < 0xC00, s.dir K.mmuTable i = 0)
    (hrun : btVmCreate K s = some (some m, s')) (hpgd : (s'.map m).pgd ≠ 0) :
    ∀ i < 0xC00, s'.dir (getPgd (s'.map m).pgd) i = 0 := by
  have hdir : Prog.Ensures (btVmCreate K) s fun r s' => ∀ m, r = some m → (s'.map m).pgd ≠ 0 →
      ∀ i < 0xC00, s'.dir (getPgd (s'.map m).pgd) i = 0 := by
    refine btVmCreate_rule ?_ ?_ ?_
    · intro _ m hm
      cases hm
    · intro _ _ s' _ _ m hm
      cases hm
    · intro _ _ s₁ _ hbegun _ _
      have hempty₁ : ∀ i < 0xC00, s₁.dir K.mmuTable i = 0 := by
        rw [hbegun.dir]
        exact hempty
      refine (btMmuNewmap_empty hempty₁).mono fun pgd s₂ hz m hm => ?_
      cases hm
      simpa using hz
  exact hdir.yields _ _ hrun m rfl hpgd

/-- A new map with a page directory: nothing is in use, and nothing is entered. -/
theorem create_agrees (hempty : ∀ i < 0xC00, s.dir K.mmuTable i = 0)
    (hrun : btVmCreate K s = some (some m, s')) (hpgd : (s'.map m).pgd ≠ 0) :
    Agrees K inUse m (s'.map m).pgd s' [(m + 1, initialSegment)] := by
  obtain ⟨-, hsh, -, -⟩ := create_shows hrun m rfl
  have hz := create_empty hempty hrun hpgd
  have hheld : held [(m + 1, initialSegment)] = ∅ := by
    ext x
    constructor
    · rintro ⟨hx, hf⟩
      obtain rfl := List.mem_singleton.mp hx
      exact absurd initialSegment_free hf
    · exact fun hx => absurd hx (Set.notMem_empty x)
  refine ⟨hsh, initialSegment_ok _, rfl, ?_, ?_⟩
  · rw [hheld]
    refine ⟨.of_empty hz, fun x hx => absurd hx (Set.notMem_empty x), fun w hw _ => ?_⟩
    have hslot : s'.dir (getPgd (s'.map m).pgd) (pageDir w) = 0 := by
      refine hz _ ?_
      rw [pageDir_eq]
      unfold btMmUserLimit at hw
      omega
    have hno : s'.ptePresent (getPgd (s'.map m).pgd) w = false := by
      rw [Machine.ptePresent, hslot]
      rfl
    rw [Machine.entryAt, Machine.pteAt, hno]
    exact decodePte_zero
  · rw [hheld]
    exact fun x hx => absurd hx (Set.notMem_empty x)

section Runs

variable {taken : σ → ℕ → Prop}

/-- One operation keeps the agreement; one that failed has not changed a translation; and a
region that was mapped is mapped. -/
theorem Agrees.step {op : VmOp} {r : BtError × ℕ} (h : Agrees K inUse m hdl s xs)
    (law : TableLaw K inUse) (pages : PageLaw K taken) (kept : TablesKept K inUse) (hop : op.Ok)
    (hpaged : op.Paged) (hrun : op.run K m s = some (r, s')) (hmay : RefusedFirst op s s') :
    ∃ ys, Agrees K inUse m hdl s' ys ∧ (op.Failed r → held ys = held xs) ∧
      ∀ pa va size type, op = .mapRegion pa va size type → r.2 ≠ 0 →
        ∃ j f, (j, ⟨r.2, pa, btPageAlign size, f⟩) ∈ held ys := by
  cases op with
  | mapRegion pa va size type =>
    obtain ⟨a, s₁, hmap, hret⟩ := Prog.bind_eq_some hrun
    cases hret
    obtain ⟨ys, hA, hfail, hin⟩ := (h.mapRegion law kept hop hpaged).yields _ _ hmap hmay
    refine ⟨ys, hA, hfail, ?_⟩
    rintro pa' va' size' type' he hne
    cases he
    exact hin hne
  | unmapRegion va =>
    obtain ⟨_, s₁, hunmap, hret⟩ := Prog.bind_eq_some hrun
    cases hret
    obtain ⟨ys, hA⟩ := (h.unmapRegion law kept).yields _ _ hunmap hmay
    exact ⟨ys, hA, fun hf => absurd rfl hf, fun _ _ _ _ he => nomatch he⟩
  | allocate addr size flags =>
    obtain ⟨ys, hA, hfail⟩ := (h.allocate law pages kept hop).yields _ _ hrun hmay
    exact ⟨ys, hA, hfail, fun _ _ _ _ he => nomatch he⟩
  | free addr =>
    obtain ⟨e, s₁, hfree, hret⟩ := Prog.bind_eq_some hrun
    cases hret
    obtain ⟨ys, hA, hfail⟩ := (h.free law kept).yields _ _ hfree hmay
    exact ⟨ys, hA, hfail, fun _ _ _ _ he => nomatch he⟩
  | changeAttribute addr attr => exact absurd hpaged id

/-- They do in every state that is reached, if a call that fails is refused its first table. -/
theorem TableReach.agrees (law : TableLaw K inUse) (pages : PageLaw K taken)
    (kept : TablesKept K inUse) (h : TableReach K m RefusedFirst s) :
    ∃ hdl xs, Agrees K inUse m hdl s xs := by
  induction h with
  | create hempty hrun hpgd => exact ⟨_, _, create_agrees hempty hrun hpgd⟩
  | step _ hop hpaged hrun hmay ih =>
    obtain ⟨hdl, xs, hA⟩ := ih
    obtain ⟨ys, hA', -, -⟩ := hA.step law pages kept hop hpaged hrun hmay
    exact ⟨hdl, ys, hA'⟩

/-- **Segments and page tables agree** in every state reached by steps that are refused no page
table, except an allocation the one for its first page. A further such step that fails changes
no translation, and a mapping that returns an address has mapped every page. -/
theorem segments_agree (law : TableLaw K inUse) (pages : PageLaw K taken)
    (kept : TablesKept K inUse) (h : TableReach K m RefusedFirst s) :
    SegmentsAgree K m s ∧ ∀ (op : VmOp) (r : BtError × ℕ) (s' : Machine σ), op.Ok → op.Paged →
      op.run K m s = some (r, s') → RefusedFirst op s s' →
      (op.Failed r → ∀ va < btMmUserLimit,
        (s'.walk K (getPgd (s'.map m).pgd) va).map Prod.fst =
          (s.walk K (getPgd (s.map m).pgd) va).map Prod.fst) ∧
      ∀ pa va size type, op = .mapRegion pa va size type → r.2 ≠ 0 →
        ∀ d < btPageAlign size, d % 4096 = 0 → ∃ attr,
          s'.walk K (getPgd (s'.map m).pgd) (r.2 + d) = some (pa + d, attr) := by
  obtain ⟨hdl, xs, hA⟩ := h.agrees law pages kept
  refine ⟨hA.segmentsAgree, fun op r s' hop hpaged hrun hmay => ?_⟩
  obtain ⟨ys, hA', hfail, hin⟩ := hA.step law pages kept hop hpaged hrun hmay
  rw [hA.pgd, hA'.pgd]
  refine ⟨fun hf va hva => ?_, fun pa va size type hopeq hne d hd hmod => ?_⟩
  · have ht' := hA'.tables
    rw [hfail hf] at ht'
    exact hA.tables.walk_map_fst ht' hva
  · obtain ⟨j, f, hmem⟩ := hin pa va size type hopeq hne
    have hal : r.2 % 4096 = 0 := (hA'.ok.aligned _ hmem.1).1
    have hc : Segment.Covers ⟨r.2, pa, btPageAlign size, f⟩ (r.2 + d) :=
      ⟨Nat.le_add_right _ _, Nat.add_lt_add_left hd _⟩
    obtain ⟨attr, hw⟩ := hA'.walk hmem hc (by omega)
    refine ⟨attr, ?_⟩
    rw [hw]
    simp

end Runs

/-! ## One page table -/

theorem ramKernel_kept : TablesKept ramKernel ramTables where
  malloc n e p h := by
    change ramTables (if e.blocks = 0 then _ else _ : ℕ × Stock).2 p
    split <;> exact h
  free _ _ _ h := h
  pageAlloc n e p h := by
    unfold ramKernel
    dsimp only
    split <;> exact h
  pageFree _ _ _ _ h := h

/-- Two pages on both sides of a megabyte boundary are allocated in a new map, by a kernel with
this many page tables: the map, its page directory, and the result. -/
def acrossMegabyte (tables : ℕ) : Option ((Option ℕ × ℕ × BtError × ℕ) × Machine Stock) :=
  ((do
    let c ← btVmCreate ramKernel
    let pgd ← Prog.read fun s => (s.map 1).pgd
    let r ← (VmOp.allocate 0xFF000 8192 0).run ramKernel 1
    pure (c, pgd, r)) : Prog (Machine Stock) (Option ℕ × ℕ × BtError × ℕ))
      (bootMachine ⟨10, 10, 0x10000000, 0x10100000, tables⟩)

/-- The run passes through the two calls. -/
theorem acrossMegabyte_reach {tables pgd : ℕ} {r : BtError × ℕ} {s : Machine Stock}
    {may : VmOp → Machine Stock → Machine Stock → Prop}
    (h : acrossMegabyte tables = some ((some 1, pgd, r), s)) (hpgd : pgd ≠ 0)
    (hmay : ∀ s₁, may (.allocate 0xFF000 8192 0) s₁ s) : TableReach ramKernel 1 may s := by
  obtain ⟨c, s₁, hc, hrun⟩ := Prog.bind_eq_some h
  obtain ⟨pgd', s₁', hp, hrun⟩ := Prog.bind_eq_some hrun
  obtain ⟨r', s₂, hr, hret⟩ := Prog.bind_eq_some hrun
  cases hp
  cases hret
  have hok : (VmOp.allocate 0xFF000 8192 0).Ok := by
    unfold VmOp.Ok RangeOk
    decide
  exact .step (.create (fun _ _ => rfl) hc hpgd) hok trivial hr (hmay s₁)

/-- There is one page table and two are needed: the entry of the first page stays, and its page
has gone back to the pool. -/
theorem entries_outlive_pages : ∃ x s, acrossMegabyte 1 = some (x, s) ∧
    TableReach ramKernel 1 (fun _ _ _ => True) s ∧ ¬SegmentsAgree ramKernel 1 s := by
  have hres : (acrossMegabyte 1).map Prod.fst =
      some (some 1, 0xC0000000, .noMemory, 0xFF000) := by decide +kernel
  have hlist : (acrossMegabyte 1).map (fun x => (x.2.links.next (.head 1),
      x.2.links.next (.list 2), x.2.links.prev (.head 1), x.2.links.prev (.list 2))) =
      some (.list 2, .head 1, .list 2, .head 1) := by decide +kernel
  have hseg : (acrossMegabyte 1).map (fun x => (x.2.seg 2, x.2.fresh,
      (x.2.walk ramKernel (getPgd (x.2.map 1).pgd) 0xFF000).isSome)) =
      some (initialSegment, 5, true) := by decide +kernel
  obtain ⟨⟨_, s⟩, hrun, rfl⟩ := Option.map_eq_some_iff.mp hres
  rw [hrun, Option.map_some, Option.some.injEq] at hlist hseg
  simp only [Prod.mk.injEq] at hlist hseg
  obtain ⟨hn, hn', hp, hp'⟩ := hlist
  obtain ⟨hs, hfresh, hwalk⟩ := hseg
  refine ⟨_, s, hrun, acrossMegabyte_reach hrun (by decide) fun _ => trivial, ?_⟩
  rintro ⟨xs, hx, hagree⟩
  have hone : Shows s 1 [(2, s.seg 2)] := .single hn hn' hp hp' (by omega)
  obtain rfl := hx.unique hone
  obtain ⟨x, hmem, hfree, -⟩ := (hagree 0xFF000 (by decide) (by decide) (by decide)).1.mp hwalk
  obtain rfl := List.mem_singleton.mp hmem
  refine hfree ?_
  change (s.seg 2).has btSegFree
  rw [hs]
  exact initialSegment_free

/-- With enough page tables, both pages are mapped. -/
theorem segments_agree_two_pages : ∃ s, TableReach ramKernel 1 RefusedFirst s ∧
    s.walk ramKernel (getPgd (s.map 1).pgd) 0x100000 = some (0x10009000, 0x81E) ∧
    SegmentsAgree ramKernel 1 s := by
  have hres : (acrossMegabyte 10).map (fun x => (x.1,
      x.2.walk ramKernel (getPgd (x.2.map 1).pgd) 0x100000)) =
      some ((some 1, 0xC0000000, .none, 0xFF000), some (0x10009000, 0x81E)) := by decide +kernel
  have hlog : (acrossMegabyte 10).map (fun x => x.2.log.all fun e => match e with
      | .ptRefused _ => false
      | _ => true) = some true := by decide +kernel
  obtain ⟨⟨y, s⟩, hrun, hy⟩ := Option.map_eq_some_iff.mp hres
  obtain ⟨hy, hwalk⟩ := Prod.mk.inj hy
  obtain rfl : y = (some 1, 0xC0000000, .none, 0xFF000) := hy
  rw [hrun, Option.map_some, Option.some.injEq, List.all_eq_true] at hlog
  have hreach : TableReach ramKernel 1 RefusedFirst s := by
    refine acrossMegabyte_reach hrun (by decide) ?_
    intro s₁ evs hevs k hk
    have hin : Event.ptRefused k ∈ s.log := by
      rw [hevs]
      exact List.mem_append_left _ hk
    cases hlog _ hin
  exact ⟨s, hreach, hwalk,
    (segments_agree ramKernel_tables ramKernel_pages ramKernel_kept hreach).1⟩

end BitThunder
