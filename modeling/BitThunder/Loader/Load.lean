import BitThunder.Loader.Elf

/-!
# Loading an ELF image

`bt_image_load` with the callback `executor_load_segment` of `os/src/loader/bt_loader.c`, in a
process whose map has just been made. Of the map there are the regions that are allocated, and the
memory as the process sees it; which of the calls of `bt_vm_allocate` get their pages is a sequence
of answers.

* `loadSegments_mem`: what is in memory when every segment has got its pages;
* `image_load_iff`: for which images, and which answers, the segments are where they belong;
* `image_load_misplaced`: an image whose segment begins inside of a page.

The memory of the process is what the callback writes to, page by page as `do_allocate` rounds
addresses and sizes. The callback does not look at the error of the allocation. It copies to the
address that `do_allocate` stores, which is that of the first page; without pages the address is
what it was before, so that the data goes to where the segment should be, in memory that was never
obtained.

The order of the segments matters: memory is cleared when it is allocated, and a later segment may
be copied over an earlier one, or clear pages in which an earlier one has put its data.
`loadSegments_mem` says what is in memory in the end, inside of the pages of each segment and
outside of all, and the condition compares this with what the headers ask for. Segments whose data
is all zeros may begin anywhere, which makes the condition exact.
-/

namespace BitThunder

/-! ## The memory of a process

Only what a process sees is kept: which addresses are there, and what is at them. Where the pages
come from is the kernel's business. -/

/-- Memory that was cleared -/
def zeroMemory : Memory := fun _ => 0

/-- The allocated regions, each an address and a size, and what is at each address -/
structure ProcessMemory : Type where
  regions : List (ℕ × ℕ)
  mem : Memory

/-- `bt_segment_reserve` finds the range in a free segment. `bt_segment_lookup` wants the segment to
end behind the range, not with it. -/
def HasRoom (regions : List (ℕ × ℕ)) (start size : ℕ) : Prop :=
  btPageSize ≤ start ∧ start + size < btMmUserLimit ∧
    ∀ r ∈ regions, start + size < r.1 ∨ r.1 + r.2 ≤ start

instance (regions : List (ℕ × ℕ)) (start size : ℕ) : Decidable (HasRoom regions start size) :=
  inferInstanceAs (Decidable (_ ∧ _ ∧ _))

/-- `do_allocate` at a fixed address; `granted` is whether the kernel has memory for it. The result
is the error and the new value of `*addr`. -/
def ProcessMemory.allocate (P : ProcessMemory) (granted : Bool) (addr size : ℕ) :
    (BtError × ℕ) × ProcessMemory :=
  if size = 0 then ((.generic, addr), P)
  else
    let start := btPageTrunc addr
    let n := wordSub (btPageAlign (wordAdd start size)) start
    if granted = true ∧ HasRoom P.regions start n then
      ((.none, start), ⟨(start, n) :: P.regions, P.mem.overlay start n zeroMemory⟩)
    else ((.noMemory, addr), P)

/-! ## The loader

The callback is called once for each segment, and what it does depends on the kernel's answer and on
the memory so far. -/

/-- What became of a segment: the error that is not looked at, and the address its data was copied
to -/
structure SegmentLoad : Type where
  segment : LoaderSegment
  error : BtError
  addr : ℕ

section Code

variable (image : Memory) (grants : ℕ → Bool)

/-- The data of a segment -/
def LoaderSegment.byte (seg : LoaderSegment) : Memory := fun j => image ((seg.data + j) % 2 ^ 32)

/-- `executor_load_segment` -/
def executorLoadSegment (granted : Bool) (seg : LoaderSegment) (P : ProcessMemory) :
    SegmentLoad × ProcessMemory :=
  let r := P.allocate granted seg.vAddr seg.size
  (⟨seg, r.1.1, r.1.2⟩, { r.2 with mem := r.2.mem.overlay r.1.2 seg.dataLen (seg.byte image) })

/-- The segments one after another; `i` is the number of the next. -/
def loadSegments : ℕ → List LoaderSegment → ProcessMemory → List SegmentLoad × ProcessMemory
  | _, [], P => ([], P)
  | i, seg :: segs, P =>
    let r := executorLoadSegment image (grants i) seg P
    let rs := loadSegments (i + 1) segs r.2
    (r.1 :: rs.1, rs.2)

/-- The segments a run of the decoder hands to the callback -/
def ElfEvent.segment? : ElfEvent → Option LoaderSegment
  | load seg => some seg
  | _ => none

/-- The segments of an image, in order -/
def imageSegments : List LoaderSegment :=
  (btImageLoad image .none [oElfLoader]).events.filterMap ElfEvent.segment?

/-- What `bt_image_load` returned, what is in `*pError`, what became of the segments, and the memory
-/
structure ImageLoad : Type where
  entry : ℕ
  error : BtError
  loads : List SegmentLoad
  memory : ProcessMemory

/-- `bt_image_load` as `exec_loader_thread` calls it -/
def executorLoad : ImageLoad :=
  let r := btImageLoad image .none [oElfLoader]
  let rs := loadSegments image grants 0 (r.events.filterMap ElfEvent.segment?) ⟨[], zeroMemory⟩
  ⟨r.val.1, r.val.2, rs.1, rs.2⟩

end Code

/-! ## What is asked of it

Success and failure are asked of the whole, in terms of the segments and of the memory in the
end. -/

namespace LoaderSegment

/-- The address is one of the segment's. -/
def Holds (seg : LoaderSegment) (x : ℕ) : Prop := seg.vAddr ≤ x ∧ x < seg.vAddr + seg.size

/-- What is to be in the segment: the bytes of the file, and zeros -/
def wanted (image : Memory) (seg : LoaderSegment) (j : ℕ) : UInt8 :=
  if j < seg.dataLen then seg.byte image j else 0

end LoaderSegment

/-- The address was copied to. -/
def SegmentLoad.Copies (l : SegmentLoad) (x : ℕ) : Prop :=
  l.addr ≤ x ∧ x < l.addr + l.segment.dataLen

/-- Nothing was copied into the other's segment. -/
def SegmentLoad.Spares (l l' : SegmentLoad) : Prop := ∀ x, l.Copies x → ¬l'.segment.Holds x

/-- The address is in an allocated region. -/
def ProcessMemory.Mapped (P : ProcessMemory) (x : ℕ) : Prop :=
  ∃ r ∈ P.regions, r.1 ≤ x ∧ x < r.1 + r.2

/-- The segment could not be allocated. -/
def SegmentLoad.Refused (l : SegmentLoad) : Prop := l.error ≠ .none ∧ l.segment.size ≠ 0

/-- `bt_image_load` reports success: an entry point, and no error. -/
def ImageLoad.Succeeds (R : ImageLoad) : Prop := R.entry ≠ 0 ∧ R.error = .none

/-- The segments are in memory, and none was written over by another. -/
structure ImageLoad.Loaded (image : Memory) (R : ImageLoad) : Prop where
  /-- all bytes of a segment are mapped -/
  mapped : ∀ l ∈ R.loads, ∀ x, l.segment.Holds x → R.memory.Mapped x
  /-- they are those of the file, and zeros behind these -/
  holds : ∀ l ∈ R.loads, ∀ j < l.segment.size, R.memory.mem (l.segment.vAddr + j) =
    l.segment.wanted image j
  /-- no segment is written to for another one -/
  spared : R.loads.Pairwise fun l l' => l.Spares l' ∧ l'.Spares l

/-- Success means that the segments are loaded; a segment that cannot be allocated is not written,
and is reported. -/
structure ImageLoad.Correct (image : Memory) (R : ImageLoad) : Prop where
  /-- what is reported as loaded has been -/
  success : R.Succeeds → R.Loaded image
  /-- for a segment without pages nothing is copied, and there is no success -/
  failure : ∀ l ∈ R.loads, l.Refused → (∀ x, ¬l.Copies x) ∧ ¬R.Succeeds

/-- Segments that can be loaded: the file is not longer than the memory, which is below the user
limit and not shared. -/
structure Loadable (segs : List LoaderSegment) : Prop where
  /-- a segment is at least as long as its data -/
  file : ∀ seg ∈ segs, seg.dataLen ≤ seg.size
  /-- it ends below the user limit -/
  limit : ∀ seg ∈ segs, seg.vAddr + seg.size ≤ btMmUserLimit
  /-- two segments have no byte in common -/
  apart : segs.Pairwise fun a b => a.vAddr + a.size ≤ b.vAddr ∨ b.vAddr + b.size ≤ a.vAddr

/-! ## When it does that

The condition speaks of the segments and of the kernel's answers, and of nothing that happens on the
way. -/

namespace LoaderSegment

/-- The first byte of the segment's first page -/
def start (seg : LoaderSegment) : ℕ := btPageTrunc seg.vAddr

/-- The size of its pages, as `do_allocate` rounds it -/
def pages (seg : LoaderSegment) : ℕ := wordSub (btPageAlign (wordAdd seg.start seg.size)) seg.start

/-- The address is in the pages that are allocated for the segment. -/
def Paged (seg : LoaderSegment) (x : ℕ) : Prop :=
  seg.size ≠ 0 ∧ seg.start ≤ x ∧ x < seg.start + seg.pages

/-- The address is in the page where the segment begins, or behind it, within the length of the
file. -/
def Written (seg : LoaderSegment) (x : ℕ) : Prop := seg.start ≤ x ∧ x < seg.start + seg.dataLen

/-- Nothing is written into the other. -/
def WritesApart (a b : LoaderSegment) : Prop := ∀ x, a.Written x → ¬b.Holds x

end LoaderSegment

/-- The segments that get no pages -/
def refused (grants : ℕ → Bool) : ℕ → List LoaderSegment → List (ℕ × ℕ) → List LoaderSegment
  | _, [], _ => []
  | i, seg :: segs, regions =>
    if seg.size = 0 then refused grants (i + 1) segs regions
    else if grants i = true ∧ HasRoom regions seg.start seg.pages then
      refused grants (i + 1) segs ((seg.start, seg.pages) :: regions)
    else seg :: refused grants (i + 1) segs regions

/-- Every segment begins with a page, or has nothing but zeros in the file; its bytes are in the
pages of some segment, and no other segment is copied there. -/
structure Placed (image : Memory) (segs : List LoaderSegment) : Prop where
  /-- the data goes to the beginning of a page, or is zero -/
  aligned : ∀ seg ∈ segs, seg.vAddr % 4096 = 0 ∨ ∀ j < seg.dataLen, seg.byte image j = 0
  /-- each byte lies in pages that are asked for by some segment -/
  covered : ∀ seg ∈ segs, ∀ x, seg.Holds x → ∃ seg' ∈ segs, seg'.Paged x
  /-- what is written for one segment is not in another -/
  apart : segs.Pairwise fun a b => a.WritesApart b ∧ b.WritesApart a

/-- Every segment that is not empty gets pages: the kernel has memory, the segment is neither in the
first page nor in the last one below the limit, no page is asked for twice, and no segment ends
where an earlier one begins. -/
structure Allotted (grants : ℕ → Bool) (segs : List LoaderSegment) : Prop where
  /-- the kernel has the memory -/
  granted : ∀ i seg, segs[i]? = some seg → seg.size ≠ 0 → grants i = true
  /-- the segment does not begin in the first page -/
  above : ∀ seg ∈ segs, seg.size ≠ 0 → btPageSize ≤ seg.vAddr
  /-- the rounded range ends below the limit -/
  below : ∀ seg ∈ segs, seg.size ≠ 0 → seg.start + seg.pages < btMmUserLimit
  /-- the ranges are apart, and a later one does not end where an earlier one begins -/
  apart : segs.Pairwise fun a b => a.size ≠ 0 → b.size ≠ 0 →
    a.start + a.pages ≤ b.start ∨ b.start + b.pages < a.start

/-- Symbol `k` is the first `_start` of the symbol table that section `i` describes. -/
def StartAt (image : Memory) (i k : ℕ) : Prop :=
  elfWord image (elfShdr image i + 4) = shtSymtab ∧ k < shSize image (elfShdr image i) / 16 ∧
    IsStart image (elfShdr image i) k ∧ ∀ j < k, ¬IsStart image (elfShdr image i) j

/-- The last symbol table with a `_start` gives it an address. -/
def NamesEntry (image : Memory) : Prop :=
  ∃ i < eShnum image, (∃ k, StartAt image i k ∧
  elfWord image (elfSym image (elfShdr image i) k + 4) ≠ 0) ∧
    ∀ i' < eShnum image, i < i' → ∀ k, ¬StartAt image i' k

section Proofs

variable {image : Memory} {grants : ℕ → Bool} {i x : ℕ} {seg : LoaderSegment}
  {segs : List LoaderSegment} {P : ProcessMemory} {regions : List (ℕ × ℕ)}

/-! ### Pages

A segment gets the pages from that of its first byte on, as many as its size takes, wherever in a
page it begins. -/

/-- The pages of a segment below the user limit -/
theorem LoaderSegment.pages_spec (h : seg.vAddr + seg.size ≤ btMmUserLimit) :
    seg.start ≤ seg.vAddr ∧ seg.vAddr < seg.start + 4096 ∧ seg.start % 4096 = 0 ∧
      seg.size ≤ seg.pages ∧
      seg.start + seg.pages ≤ btMmUserLimit := by
  have hlimit : btMmUserLimit = 0xC0000000 := rfl
  have hstart : seg.start = seg.vAddr / 4096 * 4096 := btPageTrunc_eq (by omega)
  have hadd : wordAdd seg.start seg.size = seg.start + seg.size := wordAdd_of_lt (by omega)
  have halign : btPageAlign (seg.start + seg.size) = (seg.start + seg.size + 4095) % 2 ^ 32 / 4096 *
      4096 :=
    btPageAlign_eq _
  have hpages : seg.pages = btPageAlign (seg.start + seg.size) - seg.start := by
    rw [LoaderSegment.pages, hadd, wordSub_of_le (by omega) (btPageAlign_lt _)]
  omega

/-- A segment at the start of a page begins there. -/
theorem LoaderSegment.start_of_aligned (h : seg.vAddr + seg.size ≤ btMmUserLimit)
    (ha : seg.vAddr % 4096 = 0) :
    seg.start = seg.vAddr :=
  btPageTrunc_of_aligned (by unfold btMmUserLimit at h; omega) ha

/-! ### Segments without pages

What is refused is copied all the same, unless there is nothing to copy. -/

/-- Nothing is asked for: that is refused as it is by `BT_kMalloc`. -/
theorem allocate_empty (granted : Bool) (h0 : seg.size = 0) :
    P.allocate granted seg.vAddr seg.size = ((.generic, seg.vAddr), P) := if_pos h0

theorem allocate_done {granted : Bool} (h0 : seg.size ≠ 0)
    (hroom : granted = true ∧ HasRoom P.regions seg.start seg.pages) :
    P.allocate granted seg.vAddr seg.size = ((.none, seg.start),
      ⟨(seg.start, seg.pages) :: P.regions, P.mem.overlay seg.start seg.pages zeroMemory⟩) :=
  (if_neg h0).trans (if_pos hroom)

theorem allocate_refused {granted : Bool} (h0 : seg.size ≠ 0)
    (hroom : ¬(granted = true ∧ HasRoom P.regions seg.start seg.pages)) :
    P.allocate granted seg.vAddr seg.size = ((.noMemory, seg.vAddr), P) :=
  (if_neg h0).trans (if_neg hroom)

/-- An empty segment is still copied to, at the address that it has. -/
theorem executorLoadSegment_empty (granted : Bool) (h0 : seg.size = 0) :
    executorLoadSegment image granted seg P =
      (⟨seg, .generic, seg.vAddr⟩,
      { P with mem := P.mem.overlay seg.vAddr seg.dataLen (seg.byte image) }) := by
  rw [executorLoadSegment, allocate_empty _ h0]

/-- A segment with room is copied to its pages. -/
theorem executorLoadSegment_done {granted : Bool} (h0 : seg.size ≠ 0)
    (hroom : granted = true ∧ HasRoom P.regions seg.start seg.pages) :
    executorLoadSegment image granted seg P =
      (⟨seg, .none, seg.start⟩, ⟨(seg.start, seg.pages) :: P.regions,
        (P.mem.overlay seg.start seg.pages zeroMemory).overlay seg.start seg.dataLen
        (seg.byte image)⟩) := by
  rw [executorLoadSegment, allocate_done h0 hroom]

/-- A segment without room is copied all the same, to memory that the process does not have. -/
theorem executorLoadSegment_refused {granted : Bool} (h0 : seg.size ≠ 0)
    (hroom : ¬(granted = true ∧ HasRoom P.regions seg.start seg.pages)) :
    executorLoadSegment image granted seg P =
      (⟨seg, .noMemory, seg.vAddr⟩,
      { P with mem := P.mem.overlay seg.vAddr seg.dataLen (seg.byte image) }) := by
  rw [executorLoadSegment, allocate_refused h0 hroom]

/-- The segments that are refused are those whose load says so. -/
theorem mem_refused : seg ∈ refused grants i segs P.regions ↔
    ∃ l ∈ (loadSegments image grants i segs P).1, l.Refused ∧ l.segment = seg := by
  induction segs generalizing i P with
  | nil => simp [refused, loadSegments]
  | cons a segs ih =>
    rw [refused, loadSegments]
    dsimp only
    rw [List.exists_mem_cons_iff]
    by_cases h0 : a.size = 0
    · rw [if_pos h0, executorLoadSegment_empty _ h0, ← ih]
      simp [SegmentLoad.Refused, h0]
    · rw [if_neg h0]
      by_cases hroom : grants i = true ∧ HasRoom P.regions a.start a.pages
      · rw [if_pos hroom, executorLoadSegment_done h0 hroom, ← ih]
        simp [SegmentLoad.Refused]
      · rw [if_neg hroom, executorLoadSegment_refused h0 hroom, ← ih, List.mem_cons]
        simp [SegmentLoad.Refused, h0, eq_comm]

/-! ### Segments that all have pages

The segments are loaded one after the other, and what is in memory afterwards is given for each
address by the last segment that wrote there. -/

/-- What becomes of a segment that is not refused -/
def LoaderSegment.loaded (seg : LoaderSegment) : SegmentLoad :=
  if seg.size = 0 then ⟨seg, .generic, seg.vAddr⟩ else ⟨seg, .none, seg.start⟩

@[simp] theorem LoaderSegment.loaded_segment (seg : LoaderSegment) : seg.loaded.segment = seg := by
  unfold LoaderSegment.loaded
  split_ifs <;> rfl

/-- If none is refused each segment is loaded where it asked to be. -/
theorem loadSegments_loads (h : refused grants i segs P.regions = []) :
    (loadSegments image grants i segs P).1 = segs.map LoaderSegment.loaded := by
  induction segs generalizing i P with
  | nil => rfl
  | cons a segs ih =>
    rw [refused] at h
    rw [loadSegments, List.map_cons, LoaderSegment.loaded]
    split_ifs at h ⊢ with h0 hroom
    · rw [executorLoadSegment_empty _ h0]
      exact congrArg (List.cons _) (ih (P := ⟨_, _⟩) h)
    · rw [executorLoadSegment_done h0 hroom]
      exact congrArg (List.cons _) (ih (P := ⟨_, _⟩) h)

/-- The process has then the pages of the segments that are not empty. -/
theorem loadSegments_regions (h : refused grants i segs P.regions = []) (r : ℕ × ℕ) :
    r ∈ (loadSegments image grants i segs P).2.regions ↔
      r ∈ P.regions ∨ ∃ seg ∈ segs, seg.size ≠ 0 ∧ (seg.start, seg.pages) = r := by
  induction segs generalizing i P with
  | nil => simp [loadSegments]
  | cons a segs ih =>
    rw [refused] at h
    rw [loadSegments, List.exists_mem_cons_iff]
    dsimp only
    split_ifs at h with h0 hroom
    · rw [executorLoadSegment_empty _ h0]
      refine (ih (P := ⟨_, P.mem.overlay a.vAddr a.dataLen (a.byte image)⟩) h).trans ?_
      simp [h0]
    · rw [executorLoadSegment_done h0 hroom]
      refine (ih (P := ⟨_, _⟩) h).trans ?_
      rw [List.mem_cons]
      simp only [ne_eq, h0, not_false_eq_true, true_and]
      rw [or_assoc, or_left_comm, eq_comm]

/-- A segment that gets its pages gets them outside of the regions. -/
theorem refused_apart (h : refused grants i segs regions = []) (hseg : seg ∈ segs)
    (h0 : seg.size ≠ 0) :
    ∀ r ∈ regions, seg.start + seg.pages < r.1 ∨ r.1 + r.2 ≤ seg.start := by
  induction segs generalizing i regions with
  | nil => cases hseg
  | cons a segs ih =>
    rw [refused] at h
    intro r hr
    rcases List.mem_cons.mp hseg with rfl | hseg
    · rw [if_neg h0] at h
      split_ifs at h with hroom
      exact hroom.2.2.2 r hr
    · split_ifs at h with ha hroom
      · exact ih h hseg r hr
      · exact ih h hseg r (List.mem_cons_of_mem _ hr)

/-- What a segment leaves in its pages: the data from the start of the first one on, and zeros -/
def LoaderSegment.left (image : Memory) (seg : LoaderSegment) (x : ℕ) : UInt8 :=
  if x < seg.start + seg.dataLen then seg.byte image (x - seg.start) else 0

/-- What is in memory, inside of the pages of a segment and outside of all -/
theorem loadSegments_mem (hok : Loadable segs) (h : refused grants i segs P.regions = []) :
    (∀ seg ∈ segs, seg.Paged x → (loadSegments image grants i segs P).2.mem x = seg.left image x) ∧
      ((∀ seg ∈ segs, ¬seg.Paged x) → (loadSegments image grants i segs P).2.mem x = P.mem x) := by
  induction segs generalizing i P with
  | nil => exact ⟨fun _ h => absurd h List.not_mem_nil, fun _ => rfl⟩
  | cons a segs ih =>
    have hrest : Loadable segs :=
      ⟨fun s hs => hok.file s (List.mem_cons_of_mem _ hs),
      fun s hs => hok.limit s (List.mem_cons_of_mem _ hs),
        (List.pairwise_cons.mp hok.apart).2⟩
    have hfile := hok.file a List.mem_cons_self
    obtain ⟨-, -, -, hpages, -⟩ := LoaderSegment.pages_spec (hok.limit a List.mem_cons_self)
    rw [refused] at h
    rw [loadSegments]
    dsimp only
    split_ifs at h with h0 hroom
    · have hsame : P.mem.overlay a.vAddr a.dataLen (a.byte image) = P.mem := by
        rw [show a.dataLen = 0 by omega, Memory.overlay_zero]
      rw [executorLoadSegment_empty _ h0, hsame]
      obtain ⟨hin, hout⟩ := ih hrest h
      refine ⟨fun s hs hx => ?_, fun hx => hout fun s hs => hx s (List.mem_cons_of_mem _ hs)⟩
      rcases List.mem_cons.mp hs with rfl | hs
      · exact absurd h0 hx.1
      · exact hin s hs hx
    · rw [executorLoadSegment_done h0 hroom]
      obtain ⟨hin, hout⟩ :=
        ih (P := ⟨_, (P.mem.overlay a.start a.pages zeroMemory).overlay a.start a.dataLen
        (a.byte image)⟩) hrest h
      refine ⟨fun s hs hx => ?_, fun hx => ?_⟩
      · rcases List.mem_cons.mp hs with rfl | hs
        · have hothers : ∀ s' ∈ segs, ¬s'.Paged x := fun s' hs' hx' => by
            have hapart := refused_apart h hs' hx'.1 _ List.mem_cons_self
            obtain ⟨-, hlo, hhi⟩ := hx
            obtain ⟨-, hlo', hhi'⟩ := hx'
            omega
          rw [hout hothers]
          obtain ⟨-, hlo, hhi⟩ := hx
          obtain ⟨d, rfl⟩ := Nat.exists_eq_add_of_le hlo
          unfold LoaderSegment.left
          dsimp only
          by_cases hd : d < s.dataLen
          · rw [if_pos (by omega), Nat.add_sub_cancel_left, Memory.overlay_of_in hd]
          · rw [if_neg
              (by omega), Memory.overlay_of_out (.inr (by omega)), Memory.overlay_of_in (by omega)]
            rfl
        · exact hin s hs hx
      · have ha := hx a List.mem_cons_self
        rw [hout fun s hs => hx s (List.mem_cons_of_mem _ hs)]
        have hout' : x < a.start ∨ a.start + a.pages ≤ x := by
          unfold LoaderSegment.Paged at ha
          omega
        dsimp only
        rw [Memory.overlay_of_out (by omega), Memory.overlay_of_out hout']

theorem refused_eq_nil_from (hlimit : ∀ seg ∈ segs, seg.vAddr + seg.size ≤ btMmUserLimit) :
    refused grants i segs regions = [] ↔
      (∀ seg ∈ segs, seg.size ≠ 0 → ∀ r ∈ regions, seg.start + seg.pages < r.1 ∨
        r.1 + r.2 ≤ seg.start) ∧
        Allotted (fun j => grants (i + j)) segs := by
  induction segs generalizing i regions with
  | nil =>
    refine iff_of_true rfl ⟨fun _ h => absurd h List.not_mem_nil, ?_,
      fun _ h => absurd h List.not_mem_nil, fun _ h => absurd h List.not_mem_nil, .nil⟩
    intro j seg h
    simp at h
  | cons a segs ih =>
    have ha := hlimit a List.mem_cons_self
    have hrest := fun seg hseg => hlimit seg (List.mem_cons_of_mem a hseg)
    have hshift : (fun j => grants (i + 1 + j)) = fun j => grants (i + (j + 1)) := by
      funext j
      congr 1
      omega
    obtain ⟨hlo, hhi, hmod, -, -⟩ := LoaderSegment.pages_spec ha
    have habove : btPageSize ≤ a.start ↔ btPageSize ≤ a.vAddr := by
      unfold btPageSize
      omega
    rw [refused]
    split_ifs with h0 hroom
    · rw [ih hrest, hshift]
      constructor
      · rintro ⟨hregions, hgranted, hab, hbe, hap⟩
        refine ⟨List.forall_mem_cons.mpr ⟨fun h => absurd h0 h, hregions⟩, ?_,
          List.forall_mem_cons.mpr ⟨fun h => absurd h0 h, hab⟩,
          List.forall_mem_cons.mpr ⟨fun h => absurd h0 h, hbe⟩, hap.cons fun b _ h => absurd h0 h⟩
        rintro (_ | j) seg hseg hne
        · obtain rfl : a = seg := Option.some.inj hseg
          exact absurd h0 hne
        · exact hgranted j seg hseg hne
      · rintro ⟨hregions, hgranted, hab, hbe, hap⟩
        exact ⟨(List.forall_mem_cons.mp hregions).2, fun j seg hseg => hgranted (j + 1) seg hseg,
          (List.forall_mem_cons.mp hab).2, (List.forall_mem_cons.mp hbe).2,
          (List.pairwise_cons.mp hap).2⟩
    · obtain ⟨hgrant, hpage, hend, hfree⟩ := hroom
      rw [ih hrest, hshift]
      constructor
      · rintro ⟨hregions, hgranted, hab, hbe, hap⟩
        refine ⟨List.forall_mem_cons.mpr ⟨fun _ => hfree, fun seg hseg hne =>
          (List.forall_mem_cons.mp (hregions seg hseg hne)).2⟩, ?_,
          List.forall_mem_cons.mpr ⟨fun _ => habove.mp hpage, hab⟩,
          List.forall_mem_cons.mpr ⟨fun _ => hend, hbe⟩, hap.cons fun b hb _ hne =>
          ((List.forall_mem_cons.mp (hregions b hb hne)).1).symm⟩
        rintro (_ | j) seg hseg hne
        · exact hgrant
        · exact hgranted j seg hseg hne
      · rintro ⟨hregions, hgranted, hab, hbe, hap⟩
        refine ⟨fun seg hseg hne => List.forall_mem_cons.mpr
          ⟨?_, (List.forall_mem_cons.mp hregions).2 seg hseg hne⟩,
          fun j seg hseg => hgranted (j + 1) seg hseg, (List.forall_mem_cons.mp hab).2,
          (List.forall_mem_cons.mp hbe).2, (List.pairwise_cons.mp hap).2⟩
        exact ((List.pairwise_cons.mp hap).1 seg hseg h0 hne).symm
    · refine iff_of_false not_false ?_
      rintro ⟨hregions, hgranted, hab, hbe, -⟩
      exact hroom ⟨hgranted 0 a rfl h0, habove.mpr (hab a List.mem_cons_self h0),
        hbe a List.mem_cons_self h0, hregions a List.mem_cons_self h0⟩

/-- For a new process that is a condition on the segments alone. -/
theorem refused_eq_nil (hlimit : ∀ seg ∈ segs, seg.vAddr + seg.size ≤ btMmUserLimit) :
    refused grants 0 segs [] = [] ↔ Allotted grants segs := by
  rw [refused_eq_nil_from hlimit]
  simp

/-! ### Where the segments are

What is there is compared with what is wanted. They agree at a segment that begins with a page, or
is all zeros, and that no other is copied over. -/

/-- The start of the first page differs from the address unless that is where a page begins. -/
theorem LoaderSegment.left_add (h : seg.start ≤ seg.vAddr) (j : ℕ) :
    seg.left image (seg.vAddr + j) = seg.wanted image (seg.vAddr - seg.start + j) := by
  unfold LoaderSegment.left LoaderSegment.wanted
  have hsub : seg.vAddr + j - seg.start = seg.vAddr - seg.start + j := by omega
  rw [hsub]
  split_ifs with h₁ h₂ h₂
  · rfl
  · omega
  · omega
  · rfl

/-- Data that is moved is where it belongs only if it is all zeros. -/
theorem LoaderSegment.moved_iff (hfile : seg.dataLen ≤ seg.size) {d : ℕ} (hd : 0 < d) :
    (∀ j < seg.size, seg.wanted image (d + j) = seg.wanted image j) ↔
      ∀ j < seg.dataLen, seg.byte image j = 0 := by
  constructor
  · intro h
    -- from the end of the data on
    have key : ∀ n j, j + n = seg.dataLen → seg.wanted image j = 0 := by
      intro n
      induction n using Nat.strong_induction_on with
      | _ n ih =>
        intro j hj
        by_cases hn : n = 0
        · exact if_neg (by omega)
        · rw [← h j (by omega)]
          by_cases hdn : d ≤ n
          · exact ih (n - d) (by omega) (d + j) (by omega)
          · exact if_neg (by omega)
    intro j hj
    have hwanted := key (seg.dataLen - j) j (by omega)
    rwa [LoaderSegment.wanted, if_pos hj] at hwanted
  · intro h j _
    have hzero : ∀ k, seg.wanted image k = 0 := by
      intro k
      unfold LoaderSegment.wanted
      split_ifs with hk
      · exact h k hk
      · rfl
    rw [hzero, hzero]

/-- An address is mapped exactly if it is on a page of some segment. -/
theorem mapped_iff (hnone : refused grants 0 segs [] = []) :
    (loadSegments image grants 0 segs ⟨[], zeroMemory⟩).2.Mapped x ↔ ∃ seg ∈ segs, seg.Paged x := by
  have hregions (r : ℕ × ℕ) : r ∈ (loadSegments image grants 0 segs ⟨[], zeroMemory⟩).2.regions ↔
      r ∈ [] ∨ ∃ seg ∈ segs, seg.size ≠ 0 ∧ (seg.start, seg.pages) = r :=
      loadSegments_regions hnone r
  constructor
  · rintro ⟨r, hr, hx⟩
    obtain ⟨seg, hseg, h0, rfl⟩ := ((hregions r).mp hr).resolve_left List.not_mem_nil
    exact ⟨seg, hseg, h0, hx⟩
  · rintro ⟨seg, hseg, h0, hx⟩
    exact ⟨_, (hregions _).mpr (.inr ⟨seg, hseg, h0, rfl⟩), hx⟩

/-- What is copied is the segment's bytes and the zeros behind them. -/
theorem LoaderSegment.loaded_copies (hfile : seg.dataLen ≤ seg.size) :
    seg.loaded.Copies x ↔ seg.Written x := by
  unfold SegmentLoad.Copies LoaderSegment.Written LoaderSegment.loaded
  split_ifs with h0
  · dsimp only
    omega
  · rfl

/-- Loads that spare each other are segments that are written apart. -/
theorem spares_iff (hok : Loadable segs) :
    (segs.map LoaderSegment.loaded).Pairwise (fun l l' => l.Spares l' ∧ l'.Spares l) ↔
    segs.Pairwise fun a b => a.WritesApart b ∧ b.WritesApart a := by
  rw [List.pairwise_map]
  refine List.Pairwise.iff_of_mem fun {a b} ha hb => ?_
  unfold SegmentLoad.Spares LoaderSegment.WritesApart
  simp only [LoaderSegment.loaded_copies (hok.file a ha),
    LoaderSegment.loaded_copies (hok.file b hb), LoaderSegment.loaded_segment]

/-- In a segment that lies in pages, and that no other is copied to, there is what was left in its
own pages, and zeros behind them. -/
theorem mem_of_held (hok : Loadable segs) (hnone : refused grants 0 segs [] = [])
    (hapart : segs.Pairwise fun a b => a.WritesApart b ∧ b.WritesApart a) (hseg : seg ∈ segs)
    (hx : seg.Holds x)
    (hcovered : ∃ seg' ∈ segs, seg'.Paged x) :
    (loadSegments image grants 0 segs ⟨[], zeroMemory⟩).2.mem x = seg.left image x := by
  have hin : ∀ s ∈ segs, s.Paged x → (loadSegments image grants 0 segs ⟨[], zeroMemory⟩).2.mem x =
      s.left image x :=
    (loadSegments_mem hok hnone).1
  obtain ⟨hstart, -, -, hpages, -⟩ := LoaderSegment.pages_spec (hok.limit seg hseg)
  have hfile := hok.file seg hseg
  obtain ⟨hlo, hhi⟩ := hx
  by_cases hwritten : x < seg.start + seg.dataLen
  · exact hin seg hseg ⟨by omega, by omega, by omega⟩
  · obtain ⟨seg', hseg', hpaged⟩ := hcovered
    rw [hin seg' hseg' hpaged, LoaderSegment.left, LoaderSegment.left, if_neg hwritten]
    refine if_neg fun hwritten' => ?_
    have hne : seg' ≠ seg := by
      rintro rfl
      exact hwritten hwritten'
    have : Std.Symm fun a b : LoaderSegment => a.WritesApart b ∧ b.WritesApart a :=
      ⟨fun _ _ h => ⟨h.2, h.1⟩⟩
    exact (hapart.forall hseg' hseg hne).1 x ⟨hpaged.2.1, hwritten'⟩ ⟨hlo, hhi⟩

/-- Where every segment has pages, they are loaded if and only if they are placed well. -/
theorem loaded_iff (hok : Loadable segs) (hnone : refused grants 0 segs [] = []) {entry : ℕ}
    {error : BtError} :
    ImageLoad.Loaded image ⟨entry, error, (loadSegments image grants 0 segs ⟨[], zeroMemory⟩).1,
      (loadSegments image grants 0 segs ⟨[], zeroMemory⟩).2⟩ ↔ Placed image segs := by
  have hloads : (loadSegments image grants 0 segs ⟨[], zeroMemory⟩).1 =
      segs.map LoaderSegment.loaded :=
    loadSegments_loads hnone
  -- what a segment has in it
  have hholds (hcovered : ∀ seg ∈ segs, ∀ x, seg.Holds x → ∃ seg' ∈ segs, seg'.Paged x)
      (hapart : segs.Pairwise fun a b => a.WritesApart b ∧ b.WritesApart a) (seg : LoaderSegment)
        (hseg : seg ∈ segs) :
      (∀ j < seg.size, (loadSegments image grants 0 segs ⟨[], zeroMemory⟩).2.mem (seg.vAddr + j) =
      seg.wanted image j) ↔
        seg.vAddr % 4096 = 0 ∨ ∀ j < seg.dataLen, seg.byte image j = 0 := by
    obtain ⟨hstart, hnear, hmod, -, -⟩ := LoaderSegment.pages_spec (hok.limit seg hseg)
    have hmem : ∀ j < seg.size, (loadSegments image grants 0 segs ⟨[], zeroMemory⟩).2.mem
        (seg.vAddr + j) =
        seg.wanted image (seg.vAddr - seg.start + j) := fun j hj => by
      have hx : seg.Holds (seg.vAddr + j) := ⟨by omega, by omega⟩
      rw [mem_of_held hok hnone hapart hseg hx (hcovered seg hseg _ hx),
        LoaderSegment.left_add hstart]
    rw [show (∀ j < seg.size, _ = seg.wanted image j) ↔ _ from
      forall₂_congr fun j hj => by rw [hmem j hj]]
    by_cases ha : seg.vAddr % 4096 = 0
    · refine iff_of_true (fun j _ => ?_) (.inl ha)
      rw [LoaderSegment.start_of_aligned (hok.limit seg hseg) ha, Nat.sub_self, Nat.zero_add]
    · rw [LoaderSegment.moved_iff (hok.file seg hseg) (by omega), or_iff_right ha]
  constructor
  · rintro ⟨hmapped, hmem, hspared⟩
    simp only [hloads, List.forall_mem_map, LoaderSegment.loaded_segment,
      mapped_iff hnone] at hmapped hmem
    rw [hloads, spares_iff hok] at hspared
    exact ⟨fun seg hseg => (hholds hmapped hspared seg hseg).mp (hmem seg hseg), hmapped, hspared⟩
  · rintro ⟨haligned, hcovered, hapart⟩
    refine ⟨?_, ?_, ?_⟩
    · simp only [hloads, List.forall_mem_map, LoaderSegment.loaded_segment, mapped_iff hnone]
      exact hcovered
    · simp only [hloads, List.forall_mem_map, LoaderSegment.loaded_segment]
      exact fun seg hseg => (hholds hcovered hapart seg hseg).mpr (haligned seg hseg)
    · rw [hloads, spares_iff hok]
      exact hapart

/-! ### The entry point

Success is decided by the entry point, which the loop over the sections finds last. -/

/-- The section with the start symbol gives the entry point. -/
theorem elfSection_of_start {k entry : ℕ} (h : StartAt image i k) :
    (elfSection image i entry).val = elfWord image (elfSym image (elfShdr image i) k + 4) := by
  have hfind := findSym_eq_some.mpr h.2
  simp only [elfSection, Traced.val_bind, if_pos h.1, hfind]
  rfl

theorem elfSection_of_no_start {entry : ℕ} (h : ∀ k, ¬StartAt image i k) :
    (elfSection image i entry).val = entry := by
  simp only [elfSection, Traced.val_bind, Traced.val_ite]
  split_ifs with htype
  · cases hfind : (btElfFindSym image (elfShdr image i) (shLink image (elfShdr image i))).val with
    | none => rfl
    | some k => exact absurd ⟨htype, findSym_eq_some.mp hfind⟩ (h k)
  · rfl

/-- The loop over the sections ends with an entry point if the last `_start` it comes to has one. -/
theorem loop_section_ne_zero (n entry : ℕ) :
    (Traced.loopFrom (elfSection image) i n entry).val ≠ 0 ↔
    (∃ j, i ≤ j ∧ j < i + n ∧ (∃ k, StartAt image j k ∧
      elfWord image (elfSym image (elfShdr image j) k + 4) ≠ 0) ∧
      ∀ j' < i + n, j < j' → ∀ k, ¬StartAt image j' k) ∨
    entry ≠ 0 ∧ ∀ j' < i + n, i ≤ j' → ∀ k, ¬StartAt image j' k := by
  induction n generalizing i entry with
  | zero =>
    constructor
    · exact fun h => .inr ⟨h, fun j' hlt hle => by omega⟩
    · rintro (⟨j, hle, hlt, -⟩ | ⟨h, -⟩)
      · omega
      · exact h
  | succ n ih =>
    have hend : i + 1 + n = i + (n + 1) := by omega
    rw [Traced.loopFrom, Traced.val_bind, ih, hend]
    by_cases hstart : ∃ k, StartAt image i k
    · obtain ⟨k, hk⟩ := hstart
      rw [elfSection_of_start hk]
      constructor
      · rintro (⟨j, hle, hlt, hj⟩ | ⟨hentry, hlater⟩)
        · exact .inl ⟨j, by omega, hlt, hj⟩
        · exact .inl
            ⟨i, le_rfl, by omega, ⟨k, hk, hentry⟩, fun j' hlt hlt' => hlater j' hlt (by omega)⟩
      · rintro (⟨j, hle, hlt, ⟨k', hk', hentry⟩, hlater⟩ | ⟨-, hnever⟩)
        · rcases hle.eq_or_lt with rfl | hlt'
          · -- there is only one first `_start`
            obtain rfl : k = k' := by
              rcases lt_trichotomy k k' with h | h | h
              · exact absurd hk.2.2.1 (hk'.2.2.2 k h)
              · exact h
              · exact absurd hk'.2.2.1 (hk.2.2.2 k' h)
            exact .inr ⟨hentry, fun j' hlt hle => hlater j' hlt (by omega)⟩
          · exact .inl ⟨j, hlt', hlt, ⟨k', hk', hentry⟩, hlater⟩
        · exact absurd hk (hnever i (by omega) le_rfl k)
    · have hnone : ∀ k, ¬StartAt image i k := fun k hk => hstart ⟨k, hk⟩
      rw [elfSection_of_no_start hnone]
      constructor
      · rintro (⟨j, hle, hlt, hj⟩ | ⟨hentry, hlater⟩)
        · exact .inl ⟨j, by omega, hlt, hj⟩
        · refine .inr ⟨hentry, fun j' hlt hle => ?_⟩
          rcases hle.eq_or_lt with rfl | hlt'
          · exact hnone
          · exact hlater j' hlt hlt'
      · rintro (⟨j, hle, hlt, ⟨k, hk, hentry⟩, hlater⟩ | ⟨hentry, hnever⟩)
        · rcases hle.eq_or_lt with rfl | hlt'
          · exact absurd hk (hnone k)
          · exact .inl ⟨j, hlt', hlt, ⟨k, hk, hentry⟩, hlater⟩
        · exact .inr ⟨hentry, fun j' hlt hle => hnever j' hlt (by omega)⟩

/-- What `bt_image_load` returns of an ELF image -/
theorem btImageLoad_succeeds (hmagic : ∀ i < 4, image i = elfMag.getD i 0) :
    ((btImageLoad image .none [oElfLoader]).val.1 ≠ 0 ∧
    (btImageLoad image .none [oElfLoader]).val.2 = .none) ↔
      NamesEntry image := by
  have hvalid : (btElfHdrValid image).val = true := btElfHdrValid_eq.mpr hmagic
  have hval : (btImageLoad image .none [oElfLoader]).val =
      ((Traced.loop (eShnum image) (elfSection image) 0).val, .none) := by
    have hcan : (oElfLoader.pfnCanDecode image).val = true := hvalid
    simp only [btImageLoad, Traced.val_bind, if_pos hcan]
    simp only [oElfLoader, btElfImageLoad, Traced.val_bind, if_pos hvalid]
    rfl
  rw [hval]
  dsimp only
  rw [and_iff_left rfl, Traced.loop, loop_section_ne_zero]
  simp [NamesEntry]

/-! ### `bt_image_load`

The two directions are put together for images with an entry point and for those without. -/

/-- Loading an image is loading its segments, and finding its entry point. -/
theorem executorLoad_eq (h : imageSegments image = segs) : executorLoad image grants =
    { entry := (btImageLoad image .none [oElfLoader]).val.1
      error := (btImageLoad image .none [oElfLoader]).val.2
      loads := (loadSegments image grants 0 segs ⟨[], zeroMemory⟩).1
      memory := (loadSegments image grants 0 segs ⟨[], zeroMemory⟩).2 } := by
  subst h
  rfl

/-- `bt_image_load` succeeds only with the segments of an ELF image loaded, and writes only those
that have been allocated, if and only if an image with an entry point gets pages for all of its
segments and these are placed well, and any other gets pages for all that have data. -/
theorem image_load_iff (hmagic : ∀ i < 4, image i = elfMag.getD i 0)
    (hok : Loadable (imageSegments image)) :
    (executorLoad image grants).Correct image ↔
      (NamesEntry image → Allotted grants (imageSegments image) ∧
        Placed image (imageSegments image)) ∧
        (¬NamesEntry image → ∀ seg ∈ refused grants 0 (imageSegments image) [],
          seg.dataLen = 0) := by
  have hsucceeds : (executorLoad image grants).Succeeds ↔ NamesEntry image :=
    btImageLoad_succeeds hmagic
  have hwrites (l : SegmentLoad) : (∀ x, ¬l.Copies x) ↔ l.segment.dataLen = 0 := by
    constructor
    · intro h
      have := h l.addr
      unfold SegmentLoad.Copies at this
      omega
    · intro h x hx
      unfold SegmentLoad.Copies at hx
      omega
  have hmem (seg : LoaderSegment) : seg ∈ refused grants 0 (imageSegments image) [] ↔
      ∃ l ∈ (executorLoad image grants).loads, l.Refused ∧ l.segment = seg :=
    mem_refused (P := ⟨[], zeroMemory⟩)
  by_cases hentry : NamesEntry image
  · rw [and_iff_left (fun h => absurd hentry h), ← refused_eq_nil hok.limit]
    constructor
    · rintro ⟨hsuccess, hfailure⟩ -
      have hnone : refused grants 0 (imageSegments image) [] = [] := by
        refine List.eq_nil_iff_forall_not_mem.mpr fun seg hseg => ?_
        obtain ⟨l, hl, hrefused, -⟩ := (hmem seg).mp hseg
        exact (hfailure l hl hrefused).2 (hsucceeds.mpr hentry)
      exact ⟨hnone, (loaded_iff hok hnone).mp (hsuccess (hsucceeds.mpr hentry))⟩
    · intro h
      obtain ⟨hnone, hplaced⟩ := h hentry
      refine ⟨fun _ => (loaded_iff hok hnone).mpr hplaced, fun l hl hrefused => ?_⟩
      have := (hmem l.segment).mpr ⟨l, hl, hrefused, rfl⟩
      rw [hnone] at this
      exact absurd this List.not_mem_nil
  · rw [and_iff_right (fun h => absurd h hentry)]
    constructor
    · rintro ⟨-, hfailure⟩ - seg hseg
      obtain ⟨l, hl, hrefused, rfl⟩ := (hmem seg).mp hseg
      exact (hwrites l).mp (hfailure l hl hrefused).1
    · intro h
      refine ⟨fun hs => absurd (hsucceeds.mp hs) hentry, fun l hl hrefused => ?_⟩
      exact ⟨(hwrites l).mpr (h hentry _ ((hmem _).mpr ⟨l, hl, hrefused, rfl⟩)),
        fun hs => hentry (hsucceeds.mp hs)⟩

/-! ### An image with one segment -/

/-- Four bytes of a word -/
def fourBytes (w : ℕ) : List UInt8 :=
  [.ofNat w, .ofNat (w / 2 ^ 8), .ofNat (w / 2 ^ 16), .ofNat (w / 2 ^ 24)]

/-- An image with one segment, of one byte, the first of the image, and `_start` there -/
def singleSegment (vAddr : ℕ) : List UInt8 :=
  -- the header: tables of one program header and of two sections
  elfMag ++ List.replicate 24 0 ++ fourBytes 52 ++ fourBytes 84 ++ List.replicate 8 0 ++
    fourBytes 1 ++ fourBytes 2 ++
  -- `PT_LOAD`
  fourBytes 1 ++ fourBytes 0 ++ fourBytes vAddr ++ fourBytes 0 ++ fourBytes 1 ++ fourBytes 1 ++
    fourBytes 0 ++ fourBytes 0 ++
  -- a symbol table with its texts in the other section
  fourBytes 0 ++ fourBytes 2 ++ List.replicate 8 0 ++ fourBytes 164 ++ fourBytes 16 ++
    fourBytes 1 ++ List.replicate 12 0 ++
  fourBytes 0 ++ fourBytes 3 ++ List.replicate 8 0 ++ fourBytes 180 ++ fourBytes 7 ++
  List.replicate 16 0 ++
  -- the symbol, and its name
  fourBytes 0 ++ fourBytes vAddr ++ fourBytes 0 ++ fourBytes 0 ++ elfStart

/-- A list as an image -/
def imageOf (bytes : List UInt8) : Memory := fun i => bytes.getD i 0

theorem loadable_single {v : ℕ} (h : v < 0x20000) : Loadable [⟨v, 0, 1, 1, 0⟩] where
  file := by simp
  limit := by
    simp only [List.forall_mem_singleton, btMmUserLimit]
    omega
  apart := List.pairwise_singleton ..

/-- The segment begins with a page. -/
theorem image_load_single : (executorLoad (imageOf (singleSegment 0x10000)) fun _ => true).Correct
    (imageOf (singleSegment 0x10000)) := by
  have hsegs : imageSegments (imageOf (singleSegment 0x10000)) = [⟨0x10000, 0, 1, 1, 0⟩] := by
    decide
  refine (image_load_iff
    (btElfHdrValid_eq.mp
    (by decide)) (by rw [hsegs]; exact loadable_single (by decide))).mpr ⟨fun _ => ?_, fun _ => ?_⟩
  · rw [hsegs]
    refine ⟨⟨fun _ _ _ _ => rfl, by decide, by decide, List.pairwise_singleton ..⟩, ?_, ?_,
      List.pairwise_singleton ..⟩
    · exact List.forall_mem_singleton.mpr (.inl rfl)
    · refine List.forall_mem_singleton.mpr fun x hx => ⟨_, List.mem_singleton_self _, by decide, ?_⟩
      obtain ⟨hlo, hhi⟩ := hx
      have hstart : LoaderSegment.start ⟨0x10000, 0, 1, 1, 0⟩ = 0x10000 := by decide
      have hpages : LoaderSegment.pages ⟨0x10000, 0, 1, 1, 0⟩ = 0x1000 := by decide
      rw [hstart, hpages]
      dsimp only at hlo hhi
      omega
  · rw [hsegs]
    decide

/-- It begins inside of a page: if there are pages its byte is copied to the start of the page, and
if there are none to where it belongs, and success is reported. -/
theorem image_load_misplaced : Loadable (imageSegments (imageOf (singleSegment 0x10010))) ∧
    ¬(executorLoad (imageOf (singleSegment 0x10010)) fun _ => true).Correct
    (imageOf (singleSegment 0x10010)) ∧
    ¬(executorLoad (imageOf (singleSegment 0x10010)) fun _ => false).Correct
    (imageOf (singleSegment 0x10010)) := by
  have hsegs : imageSegments (imageOf (singleSegment 0x10010)) = [⟨0x10010, 0, 1, 1, 0⟩] := by
    decide
  have hsucceeds (grants : ℕ → Bool) :
      (executorLoad (imageOf (singleSegment 0x10010)) grants).Succeeds := by
    have hval : (btImageLoad (imageOf (singleSegment 0x10010)) .none [oElfLoader]).val =
        (0x10010, .none) := by decide
    show (btImageLoad (imageOf (singleSegment 0x10010)) .none [oElfLoader]).val.1 ≠ 0 ∧ _ = _
    rw [hval]
    exact ⟨by decide, rfl⟩
  refine ⟨by rw [hsegs]; exact loadable_single (by decide), fun h => ?_, fun h => ?_⟩
  · have hbyte := (h.success (hsucceeds _)).holds
    rw [executorLoad_eq hsegs] at hbyte
    exact absurd (hbyte _ List.mem_cons_self 0 (by decide)) (by decide)
  · have hrefused := h.failure
    rw [executorLoad_eq hsegs] at hrefused
    exact (hrefused _ List.mem_cons_self
      ⟨by decide, by decide⟩).2 (executorLoad_eq hsegs ▸ hsucceeds _)

end Proofs

end BitThunder
