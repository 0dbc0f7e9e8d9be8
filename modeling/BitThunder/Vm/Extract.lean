import BitThunder.Vm.Walk

/-!
# Reading a translation back

`bt_mmu_extract` looks the physical address of a range up in the page tables that
`bt_mmu_map` has written. `MapReach` runs any number of calls of `bt_mmu_map` and keeps
a record of what they entered; `mmu_extract_iff` says for which ranges
`bt_mmu_extract` agrees with the record.

The reader takes the address of a page to be all but the lowest ten bits of its entry,
and the writer uses bit eleven for the non-global flag. The loop ends when its 32-bit
counter is above the last page, which it never is if that is the last page of all.

Three things decide whether `bt_mmu_extract` says what was entered, and they are independent. The
loop over the pages ends unless the last page is that of the address space, when its counter goes
back to zero for ever. The address is read off the entry with a mask that leaves bits that are not
part of it, which only matters if the writer has set one of them. And the range asked about is
rounded in 32 bits.

The record of what was installed is kept as `MapReach` goes, page by page, with what the directory
translated at the beginning counting as installed. That record and table agree is the invariant,
from the exactness of `bt_mmu_map`.
-/

namespace BitThunder

variable {σ : Type} {K : Kernel σ} {inUse : σ → ℕ → Prop} {B pgd : ℕ} {s : Machine σ}

/-! ## The loop

It asks of every page whether its entry is present, and goes on for ever if the last page is that of
the address space. -/

/-- The test of the loop: is the page mapped? -/
theorem Machine.present_iff_decode (va : ℕ) :
    (s.ptePresent pgd va && s.pagePresent (s.virtToPte K pgd va) va) = true ↔
      (decodePte (s.pteAt K pgd va)).isSome := by
  unfold Machine.pteAt Machine.pagePresent
  cases h : s.ptePresent pgd va
  · simp [decodePte_zero]
  · simp only [Bool.true_and, if_true, decodePte, bne_iff_ne]
    split
    · simp [*]
    · simp [*]

/-- The same, as the hardware finds it. -/
theorem DirOk.present_iff_walk (h : DirOk K inUse 4096 pgd s) {va : ℕ} :
    (s.ptePresent pgd va && s.pagePresent (s.virtToPte K pgd va) va) = true ↔
      (s.walk K pgd va).isSome := by
  have hva : pageDir va < 4096 := by
    rw [pageDir_eq]
    omega
  rw [Machine.present_iff_decode, h.walk_eq hva]

/-- The loop stops at the first page that is not mapped. -/
theorem DirOk.pagesExistLoop_false (h : DirOk K inUse 4096 pgd s) {stop fuel pg : ℕ} {d : ℕ}
    (hpg : pg + d * 4096 ≤ stop) (hstop : stop < 2 ^ 32) (hd : d < fuel)
    (hno : s.walk K pgd (pg + d * 4096) = none) :
    s.pagesExistLoop K pgd stop fuel pg = some false := by
  induction d generalizing fuel pg with
  | zero =>
    obtain ⟨fuel, rfl⟩ : ∃ f, fuel = f + 1 := ⟨fuel - 1, by omega⟩
    have hc : ¬ (s.ptePresent pgd pg && s.pagePresent (s.virtToPte K pgd pg) pg) = true := by
      rw [h.present_iff_walk]
      rw [Nat.zero_mul, Nat.add_zero] at hno
      simp [hno]
    rw [Machine.pagesExistLoop, if_pos (by omega), if_neg hc]
  | succ d ih =>
    obtain ⟨fuel, rfl⟩ : ∃ f, fuel = f + 1 := ⟨fuel - 1, by omega⟩
    rw [Machine.pagesExistLoop, if_pos (by omega)]
    split
    · have hnext : wordAdd pg btPageSize = pg + 4096 := wordAdd_of_lt (by unfold btPageSize; omega)
      rw [show pg + (d + 1) * 4096 = pg + 4096 + d * 4096 by ring] at hpg hno
      rw [hnext]
      exact ih hpg (by omega) hno
    · rfl

/-- All pages are mapped, and the last one is not the last of the address space. -/
theorem DirOk.pagesExistLoop_true (h : DirOk K inUse 4096 pgd s) {stop fuel pg : ℕ} {d : ℕ}
    (hpg : pg + d * 4096 = stop) (hstop : stop + 4096 < 2 ^ 32) (hd : d + 1 < fuel)
    (hall : ∀ i ≤ d, (s.walk K pgd (pg + i * 4096)).isSome) :
    s.pagesExistLoop K pgd stop fuel pg = some true := by
  induction d generalizing fuel pg with
  | zero =>
    obtain ⟨fuel, rfl⟩ : ∃ f, fuel = f + 2 := ⟨fuel - 2, by omega⟩
    have hc := h.present_iff_walk.mpr (hall 0 (le_refl _))
    rw [Nat.zero_mul, Nat.add_zero] at hc
    have hnext : wordAdd pg btPageSize = pg + 4096 := wordAdd_of_lt (by unfold btPageSize; omega)
    rw [Machine.pagesExistLoop, if_pos (by omega), if_pos hc, hnext, Machine.pagesExistLoop,
      if_neg (by omega)]
  | succ d ih =>
    obtain ⟨fuel, rfl⟩ : ∃ f, fuel = f + 1 := ⟨fuel - 1, by omega⟩
    have hc := h.present_iff_walk.mpr (hall 0 (Nat.zero_le _))
    rw [Nat.zero_mul, Nat.add_zero] at hc
    have hnext : wordAdd pg btPageSize = pg + 4096 := wordAdd_of_lt (by unfold btPageSize; omega)
    rw [Machine.pagesExistLoop, if_pos (by omega), if_pos hc, hnext]
    refine ih (by omega) (by omega) fun i hi => ?_
    have := hall (i + 1) (by omega)
    rwa [show pg + (i + 1) * 4096 = pg + 4096 + i * 4096 by ring] at this

/-- With the last page of the address space as its last page, the loop never finds that
it has come to its end. -/
theorem Machine.pagesExistLoop_top {fuel pg : ℕ} (hpg : pg % 4096 = 0) (hlt : pg < 2 ^ 32) :
    s.pagesExistLoop K pgd 0xFFFFF000 fuel pg ≠ some true := by
  induction fuel generalizing pg with
  | zero => exact nofun
  | succ fuel ih =>
    rw [Machine.pagesExistLoop, if_pos (by omega)]
    split
    · exact ih (by unfold wordAdd btPageSize; omega) (wordAdd_lt ..)
    · exact nofun

/-! ## Runs

The record has a physical address for each page that was entered. -/

/-- What `bt_mmu_map` has entered, as far as it got: all its pages, or those before the
one it got no table for. -/
def pagesEntered (size type : ℕ) (r : ℤ) (log : List Event) : ℕ :=
  if typeToPteFlags type = none then 0
  else if r = 0 then size / 4096
  else match log with
    | .ptRefused j :: _ => j
    | _ => 0

/-- The record after `j` pages of a range were entered. -/
def record (inst : ℕ → Option (ℕ × ℕ)) (pa va size type j w : ℕ) : Option (ℕ × ℕ) :=
  if va / 4096 ≤ w / 4096 ∧ w / 4096 < va / 4096 + j then
    if type = btPageUnmap then none
    else (typeToPteFlags type).map fun flag =>
      (pa + (w / 4096 - va / 4096) * 4096, flag ||| nonGlobal va size)
  else inst w

/-- A range as `bt_mmu_map` is given one: page-aligned, and it does not wrap around. -/
structure AlignedRange (pa va size : ℕ) : Prop where
  /-- all is made of pages -/
  va_aligned : va % 4096 = 0
  pa_aligned : pa % 4096 = 0
  size_aligned : size % 4096 = 0
  /-- all are words -/
  va_lt : va < 2 ^ 32
  pa_lt : pa < 2 ^ 32
  size_lt : size < 2 ^ 32
  /-- and neither range wraps -/
  va_end : va + size ≤ 2 ^ 32
  pa_end : pa + size ≤ 2 ^ 32

/-- The states calls of `bt_mmu_map` on one directory lead to, with the physical page
and the attributes that were last installed for each address. What the directory
translated at the start counts as installed. -/
inductive MapReach (K : Kernel σ) (inUse : σ → ℕ → Prop) (hdl : ℕ) :
    Machine σ → (ℕ → Option (ℕ × ℕ)) → Prop
  | start {s : Machine σ} (ok : DirOk K inUse 4096 (getPgd hdl) s)
  (words : ∀ t j, s.tbl t j < 2 ^ 32) :
    MapReach K inUse hdl s (s.walk K (getPgd hdl))
  | map {s s' : Machine σ} {inst : ℕ → Option (ℕ × ℕ)} {r : ℤ} (pa va size type : ℕ)
    (reach : MapReach K inUse hdl s inst) (range : AlignedRange pa va size)
    (run : btMmuMap K hdl pa va size type s = some (r, s')) :
    MapReach K inUse hdl s' (record inst pa va size type (pagesEntered size type r s'.log))

/-- In every state of a run the directory is in order, its entries are words, and the
hardware finds what the record says. -/
theorem MapReach.inv (law : TableLaw K inUse) {hdl : ℕ} {inst : ℕ → Option (ℕ × ℕ)}
    (h : MapReach K inUse hdl s inst) : DirOk K inUse 4096 (getPgd hdl) s ∧
      (∀ w < 2 ^ 32, s.pteAt K (getPgd hdl) w < 2 ^ 32) ∧
      ∀ w < 2 ^ 32, decodePte (s.pteAt K (getPgd hdl) w) = inst w := by
  have hdir : ∀ w < 2 ^ 32, pageDir w < 4096 := by
    intro w hw
    rw [pageDir_eq]
    omega
  induction h with
  | start ok words =>
    refine ⟨ok, fun w _ => ?_, fun w hw => (ok.walk_eq (hdir w hw)).symm⟩
    unfold Machine.pteAt
    split
    · exact words _ _
    · decide
  | @map s s' inst r pa va size type _ range run ih =>
    obtain ⟨ok, hwords, hinst⟩ := ih
    have hspec := btMmuMap_spec law (le_refl 4096) type ok range.va_aligned range.pa_aligned
      range.size_aligned range.va_lt range.pa_lt range.size_lt range.va_end range.pa_end
    rcases hspec.yields r s' run with ⟨hflag, -, rfl⟩ | ⟨flag, hflag, hg, j, hj, hres, hent⟩
    · refine ⟨ok, hwords, fun w hw => ?_⟩
      have hzero : pagesEntered size type r s'.log = 0 := by
        unfold pagesEntered
        rw [if_pos hflag]
      rw [hinst w hw, record, hzero, if_neg (by omega)]
    · have hcount : pagesEntered size type r s'.log = j := by
        unfold pagesEntered
        rw [if_neg (by simp [hflag])]
        rcases hres with ⟨rfl, rfl⟩ | ⟨rfl, l, hl⟩
        · rw [if_pos rfl]
        · rw [if_neg (by decide)]
          simp only [hl]
      have hlt := typeToPteFlags_lt hflag va size
      have hrange := range.pa_end
      have haligned := range.pa_aligned
      refine ⟨hg.ok, fun w hw => ?_, fun w hw => ?_⟩
      · rw [hent w hw, enteredPte]
        split
        · rw [lor_of_aligned (k := 12) (by omega) hlt]
          omega
        · exact hwords w hw
      · rw [hent w hw, hcount, enteredPte, record]
        split
        · rw [decodePte_entry (by omega) hlt, hflag]
          by_cases htype : type = btPageUnmap
          · rw [if_pos htype, if_neg fun hb => (typeToPteFlags_present hflag va size).mp hb htype]
          · rw [if_neg htype, if_pos ((typeToPteFlags_present hflag va size).mpr htype)]
            rfl
        · exact hinst w hw

/-! ## `bt_mmu_extract`

A range agrees with the record if it is refused where a page is missing, and translated by the
record otherwise. -/

/-- What `bt_mmu_extract` is for: it returns `0` exactly if some page of the range has
nothing installed, and otherwise the physical page of the first page plus the offset;
and it changes nothing. -/
def ExtractAgrees (K : Kernel σ) (hdl v n : ℕ) (inst : ℕ → Option (ℕ × ℕ)) (s : Machine σ) : Prop :=
  Prog.Ensures (btMmuExtract K hdl v n) s fun r s' => s' = s ∧
    (r = 0 ↔ ∃ w, v ≤ w ∧ w < v + n ∧ inst w = none) ∧
    ∀ pa attr, (∀ w, v ≤ w → w < v + n → inst w ≠ none) → inst v = some (pa, attr) →
      r = pa + v % 4096

/-- When it does what it is for. -/
def Extractable (v n : ℕ) (inst : ℕ → Option (ℕ × ℕ)) : Prop :=
  (∃ w, v ≤ w ∧ w < v + n ∧ inst w = none) ∨
  v + n ≤ 2 ^ 32 - 4096 ∧ ∃ pa attr, inst v = some (pa, attr) ∧ attr &&& 0xC00 = 0 ∧
    pa + v % 4096 ≠ 0

/-- An address is translated like its page. -/
theorem Machine.pteAt_page {v w : ℕ} (hv : v < 2 ^ 32) (hw : w < 2 ^ 32) (h : w / 4096 = v / 4096) :
    s.pteAt K pgd w = s.pteAt K pgd v := by
  obtain ⟨hd, ht⟩ := (same_page_iff hv hw).mpr h
  unfold Machine.pteAt Machine.ptePresent Machine.virtToPte
  rw [hd, ht]

/-- What `bt_mmu_extract` returns, by the outcome of its loop. -/
theorem ensures_extract {hdl v n : ℕ} {Q : ℕ → Machine σ → Prop} :
    Prog.Ensures (btMmuExtract K hdl v n) s Q ↔
      ∃ b, s.pagesExist K (getPgd hdl) (btPageTrunc v) (btPageTrunc (wordSub (wordAdd v n) 1)) =
        some b ∧
        Q (if b then wordAdd
          (s.pteToPhys (s.virtToPte K (getPgd hdl) (btPageTrunc v)) (btPageTrunc v))
          (wordSub v (btPageTrunc v)) else 0) s := by
  unfold btMmuExtract
  simp only [Prog.ensures_bind, Prog.ensures_ofOption, Prog.ensures_ite, Prog.ensures_read,
    Prog.ensures_pure]
  refine exists_congr fun b => and_congr_right fun _ => ?_
  cases b with
  | false => simp
  | true => simp

/-- The address `bt_mmu_extract` makes of an entry is right if the entry has no bits
between the attributes and the page. -/
theorem extracted_eq_iff {e v pa attr : ℕ} (he : e < 2 ^ 32) (hd : decodePte e = some (pa, attr)) :
    wordAdd (e &&& mmuPteAddress) (v % 4096) = pa + v % 4096 ↔ attr &&& 0xC00 = 0 := by
  unfold decodePte at hd
  split at hd
  · obtain ⟨rfl, rfl⟩ := Prod.mk.inj (Option.some.inj hd)
    have h₁ : e &&& mmuPteAddress = e / 1024 * 1024 := by
      have := land_highMask (w := 32) (k := 10) (by decide) e
      rwa [Nat.mod_eq_of_lt he] at this
    have h₂ : e % 4096 &&& 0xC00 = e % 4096 / 1024 * 1024 := by
      have := land_highMask (w := 12) (k := 10) (by decide) (e % 4096)
      rwa [Nat.mod_eq_of_lt (show e % 4096 < 2 ^ 12 by omega)] at this
    rw [h₁, h₂]
    unfold wordAdd
    omega
  · cases hd

/-- **When `bt_mmu_extract` agrees with what `bt_mmu_map` installed**, in every state
that calls of `bt_mmu_map` lead to: if some page of the range is not mapped, or the
range ends before the last page of the address space, the entry of its first page has
bits ten and eleven clear, and the address is not `0`. -/
theorem mmu_extract_iff {hdl v n : ℕ} {inst : ℕ → Option (ℕ × ℕ)} (law : TableLaw K inUse)
    (h : MapReach K inUse hdl s inst) (hn : 0 < n) (hend : v + n ≤ 2 ^ 32) (hn' : n < 2 ^ 32) :
    ExtractAgrees K hdl v n inst s ↔ Extractable v n inst := by
  obtain ⟨ok, hwords, hinst⟩ := h.inv law
  have hwalk : ∀ w < 2 ^ 32, ∀ u, v ≤ u → u / 4096 = w / 4096 → u < 2 ^ 32 →
      s.walk K (getPgd hdl) w = inst u := by
    intro w hw u _ hpage hu
    rw [ok.walk_eq (by rw [pageDir_eq]; omega), ← hinst u hu,
      Machine.pteAt_page hu hw (by omega)]
  have hstart : btPageTrunc v = v / 4096 * 4096 := btPageTrunc_eq (by omega)
  have hlast : wordSub (wordAdd v n) 1 = v + n - 1 := by
    unfold wordSub wordAdd
    omega
  have hstop : btPageTrunc (v + n - 1) = (v + n - 1) / 4096 * 4096 := btPageTrunc_eq (by omega)
  have hoff : wordSub v (v / 4096 * 4096) = v % 4096 := by
    unfold wordSub
    omega
  unfold ExtractAgrees
  rw [ensures_extract, hlast, hstop, hstart, hoff, Machine.pagesExist]
  by_cases hno : ∃ w, v ≤ w ∧ w < v + n ∧ inst w = none
  · -- some page is not mapped: the loop gets there
    obtain ⟨w, hvw, hwn, hw⟩ := hno
    have hpage : v / 4096 * 4096 + (w / 4096 - v / 4096) * 4096 = w / 4096 * 4096 := by omega
    have hloop : s.pagesExistLoop K (getPgd hdl) ((v + n - 1) / 4096 * 4096) (2 ^ 20 + 1)
        (v / 4096 * 4096) =
        some false := ok.pagesExistLoop_false (d := w / 4096 - v / 4096)
          (by omega) (by omega) (by omega)
      (by rw [hpage, hwalk _ (by omega) w hvw (by omega) (by omega), hw])
    refine iff_of_true ⟨false, hloop, rfl, iff_of_true rfl ⟨w, hvw, hwn, hw⟩, ?_⟩
      (.inl ⟨w, hvw, hwn, hw⟩)
    exact fun pa attr hall => absurd hw (hall w hvw hwn)
  · have hall : ∀ w, v ≤ w → w < v + n → inst w ≠ none := fun w hvw hwn hw => hno ⟨w, hvw, hwn, hw⟩
    obtain ⟨⟨pa, attr⟩, hv⟩ := Option.ne_none_iff_exists'.mp (hall v (le_refl _) (by omega))
    by_cases htop : v + n ≤ 2 ^ 32 - 4096
    · -- all pages are mapped, and the loop comes to its end
      have hloop : s.pagesExistLoop K (getPgd hdl) ((v + n - 1) / 4096 * 4096) (2 ^ 20 + 1)
          (v / 4096 * 4096) =
          some true := ok.pagesExistLoop_true (d := (v + n - 1) / 4096 - v / 4096) (by omega)
        (by omega) (by omega) fun i hi => by
          refine Option.isSome_iff_ne_none.mpr ?_
          rw [hwalk _ (by omega) (max v (v / 4096 * 4096 + i * 4096)) (by omega) (by omega)
            (by omega)]
          exact hall _ (by omega) (by omega)
      have hentry : s.pteToPhys (s.virtToPte K (getPgd hdl) (v / 4096 * 4096)) (v / 4096 * 4096) =
          s.pteAt K (getPgd hdl) v &&& mmuPteAddress := by
        have hp : _ ↔ (decodePte (s.pteAt K (getPgd hdl) (v / 4096 * 4096))).isSome :=
          Machine.present_iff_decode _
        rw [Machine.pteAt_page (v := v) (by omega) (by omega) (by omega), hinst v (by omega), hv,
          Bool.and_eq_true] at hp
        rw [← Machine.pteAt_page (w := v / 4096 * 4096) (by omega) (by omega) (by omega),
          Machine.pteAt, if_pos (hp.mpr rfl).1]
        rfl
      have hiff := extracted_eq_iff (v := v) (hwords v (by omega))
        ((hinst v (by omega)).trans hv)
      rw [hloop, hentry]
      constructor
      · rintro ⟨b, hb, -, hzero, hval⟩
        cases hb
        have hr := hval pa attr hall hv
        refine .inr ⟨htop, pa, attr, hv, hiff.mp hr, fun h0 => hno ?_⟩
        exact hzero.mp (hr.trans h0)
      · rintro (hex | ⟨-, pa', attr', hv', hbits, hne⟩)
        · exact absurd hex hno
        · obtain ⟨rfl, rfl⟩ := Prod.mk.inj (Option.some.inj (hv.symm.trans hv'))
          have hr := hiff.mpr hbits
          refine ⟨true, rfl, rfl, iff_of_false (fun h0 => hne (hr.symm.trans h0)) hno, ?_⟩
          intro pa' attr' _ hv'
          obtain ⟨rfl, rfl⟩ := Prod.mk.inj (Option.some.inj (hv.symm.trans hv'))
          exact hr
    · rw [show (v + n - 1) / 4096 * 4096 = 0xFFFFF000 by omega]
      have htrue : s.pagesExistLoop K (getPgd hdl) 0xFFFFF000 (2 ^ 20 + 1) (v / 4096 * 4096) ≠
          some true :=
        Machine.pagesExistLoop_top (by omega) (by omega)
      refine iff_of_false ?_ ?_
      · rintro ⟨b, hb, -, hzero, -⟩
        cases b with
        | true => exact htrue hb
        | false => exact hno (hzero.mp rfl)
      · rintro (hex | ⟨hle, -⟩)
        · exact hno hex
        · exact htop hle

/-- A run of one call, on a directory that was empty. -/
theorem mapReach_boot {pa va type : ℕ} {r : ℤ} {s' : Machine Stock}
    (range : AlignedRange pa va 4096) (run : btMmuMap ramKernel 0xC0008000 pa va 4096 type
      (bootMachine ⟨10, 10, 0x10000000, 0x10100000, 10⟩) = some (r, s')) :
    MapReach ramKernel ramTables 0xC0008000 s'
      (record ((bootMachine ⟨10, 10, 0x10000000, 0x10100000, 10⟩).walk ramKernel 0xC0008000) pa va
        4096 type (pagesEntered 4096 type r s'.log)) :=
  .map pa va 4096 type (.start (DirOk.of_empty fun _ _ => rfl) fun _ _ => Nat.two_pow_pos 32) range
  run

/-- A page of the kernel's is found. -/
theorem mmu_extract_iff_kernel_page : ∃ (s : Machine Stock) (inst : ℕ → Option (ℕ × ℕ)),
    MapReach ramKernel ramTables 0xC0008000 s inst ∧
    ExtractAgrees ramKernel 0xC0008000 0xD0000010 8 inst s := by
  have hok : ((btMmuMap ramKernel 0xC0008000 0x10000000 0xD0000000 4096 btPageSystem)
      (bootMachine ⟨10, 10, 0x10000000, 0x10100000, 10⟩)).map Prod.fst = some 0 := by
    decide +kernel
  obtain ⟨⟨r, s'⟩, hrun, rfl⟩ := Option.map_eq_some_iff.mp hok
  have hreach := mapReach_boot (by constructor <;> decide) hrun
  have hone : pagesEntered 4096 btPageSystem 0 s'.log = 1 := rfl
  rw [hone] at hreach
  refine ⟨s', _, hreach, (mmu_extract_iff ramKernel_tables hreach (by decide) (by decide)
    (by decide)).mpr (.inr ⟨by decide, 0x10000000, 0x1E, ?_, by decide, by decide⟩)⟩
  decide

/-- The address of a page of a user's is found with the non-global bit in it. -/
theorem mmu_extract_leaks_flag : ∃ r s inst,
    btMmuMap ramKernel 0xC0008000 0x10000000 0x1000 4096 btPageWrite
      (bootMachine ⟨10, 10, 0x10000000, 0x10100000, 10⟩) = some (r, s) ∧
    MapReach ramKernel ramTables 0xC0008000 s inst ∧
    ¬ExtractAgrees ramKernel 0xC0008000 0x1000 4 inst s := by
  have hok : ((do
      let r ← btMmuMap ramKernel 0xC0008000 0x10000000 0x1000 4096 btPageWrite
      let p ← btMmuExtract ramKernel 0xC0008000 0x1000 4
      pure (r, p))
      (bootMachine ⟨10, 10, 0x10000000, 0x10100000, 10⟩)).map Prod.fst = some (0, 0x10000800) := by
    decide +kernel
  obtain ⟨⟨p, s₃⟩, hrun, rfl⟩ := Option.map_eq_some_iff.mp hok
  obtain ⟨r, s₁, hmap, hrun₁⟩ := Prog.bind_eq_some hrun
  obtain ⟨p, s₂, hext, hret⟩ := Prog.bind_eq_some hrun₁
  cases hret
  have hreach := mapReach_boot (by constructor <;> decide) hmap
  have hone : pagesEntered 4096 btPageWrite 0 s₁.log = 1 := rfl
  rw [hone] at hreach
  refine ⟨_, s₁, _, hmap, hreach, fun hagrees => ?_⟩
  obtain ⟨p, s', hp, -, -, hval⟩ := hagrees
  cases hext.symm.trans hp
  have hin : ∀ w, 0x1000 ≤ w → w < 0x1000 + 4 → record ((bootMachine
      ⟨10, 10, 0x10000000, 0x10100000, 10⟩).walk ramKernel 0xC0008000) 0x10000000 0x1000 4096
        btPageWrite 1 w = some (0x10000000, 0x83E) := by
    intro w hlo hhi
    rw [record, if_pos (by omega), show w / 4096 - 0x1000 / 4096 = 0 by omega]
    decide
  have := hval 0x10000000 0x83E (fun w hlo hhi => by rw [hin w hlo hhi]; exact nofun)
    (hin 0x1000 (le_refl _) (by decide))
  exact absurd this (by decide)

end BitThunder
