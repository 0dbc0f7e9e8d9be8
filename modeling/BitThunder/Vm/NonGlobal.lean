import BitThunder.Vm.Walk

/-!
# Whose translations are tagged

`bt_mmu_map` decides once for a whole range whether its entries carry `MMU_PTE_NG`, the
attribute of a translation that belongs to one address space id: it does so when `va + size`,
a sum of 32 bits, is below `0xC0000000`. That is the address after the last page.

* `mmuMapLoop_entryHas`: every page of the range gets the attributes of the call;
* `non_global_iff`: when these are the ones the pages should have.

Nothing is asked of the directory but that the tables it points to are in use, so that
the cache does not hand one of them out again: slots may share a table, and may hold
entries of other kinds.

The attribute is the same for every page of a call, so that it is right for all of them only if the
range does not straddle the boundary, and the sum tells its side unless it wraps or the range ends
exactly at the limit. The loop lemma is about low bits only. Pages entered by earlier rounds keep
theirs even where two slots share a table, because every round writes the same attributes; this is
why less is asked of the directory here than where single translations matter.
-/

namespace BitThunder

variable {σ : Type} {K : Kernel σ} {inUse : σ → ℕ → Prop} {pgd : ℕ} {s : Machine σ}

/-- The tables the directory points to are in use. -/
def TablesUsed (K : Kernel σ) (inUse : σ → ℕ → Prop) (pgd : ℕ) (s : Machine σ) : Prop :=
  ∀ va, s.ptePresent pgd va → inUse s.env (s.virtToPte K pgd va)

theorem TablesUsed.of_empty (h : ∀ i, s.dir pgd i = 0) : TablesUsed K inUse pgd s := by
  intro va hp
  rw [Machine.ptePresent, h] at hp
  exact absurd hp (by decide)

/-- The page of `va` has an entry, and its low bits are `flag`. -/
def Machine.EntryHas (K : Kernel σ) (s : Machine σ) (pgd flag va : ℕ) : Prop :=
  s.ptePresent pgd va ∧ s.tbl (s.virtToPte K pgd va) (pageTable va) % 4096 = flag

/-- The flags of an entry are its low bits. -/
theorem Machine.EntryHas.pteAt {flag va : ℕ} (h : s.EntryHas K pgd flag va) :
    s.pteAt K pgd va % 4096 = flag := by
  rw [Machine.pteAt, if_pos h.1]
  exact h.2

/-! ## One page

After a round its page has the attributes of the call, and so have the pages that had them
before. -/

section NewTable

variable {va k : ℕ}

theorem Machine.newTable_ptePresent (law : TableLaw K inUse) :
    (s.newTable K pgd va k).ptePresent pgd va := by
  rw [Machine.ptePresent, pdePresent_iff, Machine.newTable_dir_self]
  have := (pde_of_table K.ram (law.aligned s.env) (law.lt s.env)).1
  omega

/-- A slot that was present is not the one the new table went into. -/
theorem Machine.pageDir_ne_of_present {w : ℕ} (hno : ¬ s.ptePresent pgd va)
    (hw : s.ptePresent pgd w) : pageDir w ≠ pageDir va := by
  intro he
  rw [Machine.ptePresent, he] at hw
  exact hno hw

theorem TablesUsed.newTable (h : TablesUsed K inUse pgd s) (law : TableLaw K inUse)
    (ht : (K.cacheAlloc s.env).1 ≠ 0) : TablesUsed K inUse pgd (s.newTable K pgd va k) := by
  intro w hw
  rw [Machine.newTable_env, Machine.virtToPte_eq]
  by_cases hs : pageDir w = pageDir va
  · rw [hs, Machine.newTable_tableAt_self law]
    exact law.use _ ht
  · rw [Machine.ptePresent, Machine.newTable_dir_of_ne hs] at hw
    rw [Machine.newTable_tableAt_of_ne hs]
    exact law.keep _ _ (h w hw)

/-- The entries there were are not in the table that was cleared. -/
theorem Machine.EntryHas.newTable {flag w : ℕ} (hw : s.EntryHas K pgd flag w)
    (h : TablesUsed K inUse pgd s) (law : TableLaw K inUse) (hno : ¬ s.ptePresent pgd va)
    (ht : (K.cacheAlloc s.env).1 ≠ 0) : (s.newTable K pgd va k).EntryHas K pgd flag w := by
  have hs : pageDir w ≠ pageDir va := Machine.pageDir_ne_of_present hno hw.1
  have hne : s.tableAt K pgd (pageDir w) ≠ (K.cacheAlloc s.env).1 := by
    intro he
    exact law.fresh _ ht (he ▸ h w hw.1)
  refine ⟨?_, ?_⟩
  · rw [Machine.ptePresent, Machine.newTable_dir_of_ne hs]
    exact hw.1
  · rw [Machine.virtToPte_eq, Machine.newTable_tableAt_of_ne hs, Machine.newTable_tbl_of_ne hne]
    exact hw.2

end NewTable

/-- The table for a page: there is one now, and no entry was lost; or the cache refused. -/
theorem tableFor_entryHas (law : TableLaw K inUse) (h : TablesUsed K inUse pgd s) (va k : ℕ) :
    Prog.Ensures (tableFor K pgd va k) s fun r s' => TablesUsed K inUse pgd s' ∧
      (∀ flag w, s.EntryHas K pgd flag w → s'.EntryHas K pgd flag w) ∧
      ∀ t, r = some t → s'.ptePresent pgd va ∧ s'.virtToPte K pgd va = t := by
  refine tableFor_rule (fun hp => ?_) (fun hno hz => ?_) fun hno hz => ?_
  · refine ⟨h, fun _ _ hw => hw, ?_⟩
    rintro t he
    cases he
    exact ⟨hp, rfl⟩
  · exact ⟨fun w hw => law.keep _ _ (h w hw), fun _ _ hw => hw, nofun⟩
  · change TablesUsed K inUse pgd (s.newTable K pgd va k) ∧
      (∀ flag w, _ → (s.newTable K pgd va k).EntryHas K pgd flag w) ∧
      ∀ t, _ → (s.newTable K pgd va k).ptePresent pgd va ∧
        (s.newTable K pgd va k).virtToPte K pgd va = t
    refine ⟨h.newTable law hz, fun flag w hw => hw.newTable h law hno hz, ?_⟩
    rintro t he
    cases he
    exact ⟨Machine.newTable_ptePresent law, Machine.newTable_tableAt_self law⟩

section SetPte

variable {va e flag : ℕ}

/-- The entry that is set. -/
theorem Machine.setPte_entryHas (hp : s.ptePresent pgd va) (he : e % 4096 = flag) :
    (s.setPte (s.virtToPte K pgd va) va e).EntryHas K pgd flag va := by
  refine ⟨hp, ?_⟩
  change (s.setPte (s.virtToPte K pgd va) va e).tbl (s.virtToPte K pgd va) (pageTable va) % 4096 =
    flag
  simp [Machine.setPte, he]

/-- Setting an entry to the same attributes keeps the attributes of every other. -/
theorem Machine.EntryHas.setPte {t w : ℕ} (hw : s.EntryHas K pgd flag w) (he : e % 4096 = flag) :
    (s.setPte t va e).EntryHas K pgd flag w := by
  refine ⟨hw.1, ?_⟩
  change (s.setPte t va e).tbl (s.virtToPte K pgd w) (pageTable w) % 4096 = flag
  by_cases ht : s.virtToPte K pgd w = t
  · by_cases hi : pageTable w = pageTable va
    · rw [ht, hi]
      simp [Machine.setPte, he]
    · have := hw.2
      rw [ht] at this ⊢
      simpa [Machine.setPte, Function.update_of_ne hi] using this
  · simpa [Machine.setPte, Function.update_of_ne ht] using hw.2

end SetPte

/-! ## The range

By induction on the pages, every one of them has the attributes of the call. -/

theorem wordAdd_aligned {pa : ℕ} (h : pa % 4096 = 0) : wordAdd pa btPageSize % 4096 = 0 := by
  unfold wordAdd btPageSize
  omega

/-- **The loop** gives all the pages it enters the same attributes, and leaves those of
the entries that had them already. -/
theorem mmuMapLoop_entryHas (law : TableLaw K inUse) {flag : ℕ} (hflag : flag < 4096)
    (n k pa va : ℕ) (h : TablesUsed K inUse pgd s) (hpa : pa % 4096 = 0) :
    Prog.Ensures (mmuMapLoop K pgd flag n k pa va) s fun r s' =>
      (∀ w, s.EntryHas K pgd flag w → s'.EntryHas K pgd flag w) ∧
      (r = 0 → ∀ i < n, s'.EntryHas K pgd flag ((va + i * 4096) % 2 ^ 32)) := by
  induction n generalizing s k pa va with
  | zero =>
    rw [mmuMapLoop, Prog.ensures_pure]
    exact ⟨fun _ hw => hw, fun _ i hi => absurd hi (Nat.not_lt_zero i)⟩
  | succ n ih =>
    rw [mmuMapLoop, Prog.ensures_bind]
    refine (tableFor_entryHas law h va k).mono fun r s₁ h₁ => ?_
    obtain ⟨hused, hkeep, hsome⟩ := h₁
    cases r with
    | none =>
      rw [Prog.ensures_pure]
      exact ⟨fun w hw => hkeep flag w hw, by omega⟩
    | some t =>
      obtain ⟨hpres, rfl⟩ := hsome t rfl
      simp only [Prog.ensures_bind, Prog.ensures_update]
      have he : (pa ||| flag) % 4096 = flag := by
        rw [lor_of_aligned (k := 12) hpa hflag]
        omega
      have hused₂ : TablesUsed K inUse pgd
          (s₁.setPte (s₁.virtToPte K pgd va) va (pa ||| flag)) := hused
      refine (ih (k + 1) (wordAdd pa btPageSize) (wordAdd va btPageSize) hused₂
        (wordAdd_aligned hpa)).mono fun r s₂ h₂ => ?_
      obtain ⟨hkeep₂, hrest⟩ := h₂
      refine ⟨fun w hw => hkeep₂ w ((hkeep flag w hw).setPte he), fun hr i hi => ?_⟩
      cases i with
      | zero =>
        -- this page; the rest of the range may only write the same attributes over it
        refine hkeep₂ _ ?_
        have hset := Machine.setPte_entryHas (K := K) (e := pa ||| flag) hpres he
        have hdir : pageDir ((va + 0 * 4096) % 2 ^ 32) = pageDir va := by
          rw [pageDir_eq, pageDir_eq]
          omega
        have htbl : pageTable ((va + 0 * 4096) % 2 ^ 32) = pageTable va := by
          rw [pageTable_eq, pageTable_eq]
          omega
        unfold Machine.EntryHas Machine.ptePresent Machine.virtToPte
        rw [hdir, htbl]
        exact hset
      | succ i =>
        have := hrest hr i (by omega)
        rwa [show (wordAdd va btPageSize + i * 4096) % 2 ^ 32 = (va + (i + 1) * 4096) % 2 ^ 32 by
          unfold wordAdd btPageSize
          omega] at this

/-- A call of `bt_mmu_map` that succeeds gives every page of its range the attributes of
the type and the non-global bit of the range. -/
theorem btMmuMap_entryHas (law : TableLaw K inUse) {hdl pa va size type : ℕ}
    (h : TablesUsed K inUse (getPgd hdl) s) (hpa : pa < 2 ^ 32) (hva : va % 4096 = 0)
    (hsz : size % 4096 = 0) (hpos : 0 < size) (hlt : size < 2 ^ 32) (hvend : va + size ≤ 2 ^ 32) :
    Prog.Ensures (btMmuMap K hdl pa va size type) s fun r s' =>
      r = 0 → ∃ flag, typeToPteFlags type = some flag ∧ ∀ i < size / 4096,
        s'.EntryHas K (getPgd hdl) (flag ||| nonGlobal va size) (va + i * 4096) := by
  unfold btMmuMap
  cases htype : typeToPteFlags type with
  | none => exact Prog.ensures_pure.mpr (by omega)
  | some flag =>
    have hn : btPageAlign size / btPageSize = size / 4096 := by
      rw [btPageAlign_of_aligned hlt hsz]
      rfl
    simp only [hn, btPageTrunc_of_aligned (show va < 2 ^ 32 by omega) hva]
    refine (mmuMapLoop_entryHas law (typeToPteFlags_lt htype va size) (size / 4096) 0
      (btPageTrunc pa) va h (btPageTrunc_mod hpa)).mono fun r s' hr h0 => ?_
    refine ⟨flag, rfl, fun i hi => ?_⟩
    have := hr.2 h0 i hi
    rwa [Nat.mod_eq_of_lt (by omega)] at this

/-! ## The boundary

The test on the sum is compared with the side on which each page lies. -/

/-- Each page of the range carries the non-global attribute if and only if it is a page
of user space. -/
def UserPagesTagged (K : Kernel σ) (s : Machine σ) (pgd va size : ℕ) : Prop :=
  ∀ i < size / 4096, s.pteAt K pgd (va + i * 4096) &&& mmuPteNg ≠ 0 ↔
    va + i * 4096 < btMmUserLimit

/-- The attributes of a type do not include the non-global one. -/
theorem typeToPteFlags_ng {type flag : ℕ} (h : typeToPteFlags type = some flag) (va size : ℕ) :
    (flag ||| nonGlobal va size) / 2 ^ 11 % 2 = 1 ↔ wordAdd va size < btMmUserLimit := by
  unfold typeToPteFlags at h
  unfold nonGlobal
  by_cases hlt : wordAdd va size < btMmUserLimit
  · rw [if_pos hlt]
    split at h <;> cases h <;> exact iff_of_true (by decide) hlt
  · rw [if_neg hlt]
    split at h <;> cases h <;> exact iff_of_false (by decide) hlt

theorem land_mmuPteNg (e : ℕ) : e &&& mmuPteNg ≠ 0 ↔ e % 4096 / 2 ^ 11 % 2 = 1 := by
  have h : e &&& mmuPteNg ≠ 0 ↔ e / 2 ^ 11 % 2 = 1 := land_two_pow_ne_zero (i := 11)
  rw [h]
  omega

/-- **When user pages are the ones that are tagged.** After a call of `bt_mmu_map` that
succeeded, on any directory: if and only if the range ends below `0xC0000000`, or starts
there or above and ends below the end of the address space. -/
theorem non_global_iff {hdl pa va size type : ℕ} {s s' : Machine σ} (law : TableLaw K inUse)
    (hd : TablesUsed K inUse (getPgd hdl) s) (hpa : pa < 2 ^ 32) (hva : va % 4096 = 0)
    (hsz : size % 4096 = 0) (hpos : 0 < size) (hlt : size < 2 ^ 32) (hvend : va + size ≤ 2 ^ 32)
    (hrun : btMmuMap K hdl pa va size type s = some (0, s')) :
    UserPagesTagged K s' (getPgd hdl) va size ↔
      va + size < btMmUserLimit ∨ btMmUserLimit ≤ va ∧ va + size < 2 ^ 32 := by
  obtain ⟨flag, hflag, hent⟩ :=
    (btMmuMap_entryHas law hd hpa hva hsz hpos hlt hvend).yields 0 s' hrun rfl
  have hbit : ∀ i < size / 4096, s'.pteAt K (getPgd hdl) (va + i * 4096) &&& mmuPteNg ≠ 0 ↔
      wordAdd va size < btMmUserLimit := by
    intro i hi
    rw [land_mmuPteNg, (hent i hi).pteAt]
    exact typeToPteFlags_ng hflag va size
  have hword : wordAdd va size = if va + size = 2 ^ 32 then 0 else va + size := by
    unfold wordAdd
    split <;> omega
  unfold UserPagesTagged
  constructor
  · intro h
    -- the first page and the last decide
    have hfirst := (hbit 0 (by omega)).symm.trans (h 0 (by omega))
    have hlast := (hbit (size / 4096 - 1) (by omega)).symm.trans (h (size / 4096 - 1) (by omega))
    rw [hword] at hfirst hlast
    unfold btMmUserLimit at *
    by_cases hend : va + size = 2 ^ 32
    · rw [if_pos hend] at hlast
      omega
    · rw [if_neg hend] at hfirst hlast
      omega
  · intro h i hi
    rw [hbit i hi, hword]
    unfold btMmUserLimit at *
    by_cases hend : va + size = 2 ^ 32
    · omega
    · rw [if_neg hend]
      omega

/-- A page in the middle of user space. -/
theorem non_global_iff_user_page : ∃ s' : Machine Stock,
    btMmuMap ramKernel 0xC0008000 0x10000000 0x10000 4096 btPageWrite
      (bootMachine ⟨10, 10, 0x10000000, 0x10100000, 10⟩) = some (0, s') ∧
    UserPagesTagged ramKernel s' (getPgd 0xC0008000) 0x10000 4096 := by
  have hok : ((btMmuMap ramKernel 0xC0008000 0x10000000 0x10000 4096 btPageWrite)
      (bootMachine ⟨10, 10, 0x10000000, 0x10100000, 10⟩)).map Prod.fst = some 0 := by
    decide +kernel
  obtain ⟨⟨r, s'⟩, hrun, rfl⟩ := Option.map_eq_some_iff.mp hok
  exact ⟨s', hrun, (non_global_iff ramKernel_tables (.of_empty fun _ => rfl) (by decide)
    (by decide) (by decide) (by decide) (by decide) (by decide) hrun).mpr (.inl (by decide))⟩

/-- **The last page of user space is global.** -/
theorem last_user_page_global : ∃ s',
    TablesUsed ramKernel ramTables (getPgd 0xC0008000)
      (bootMachine ⟨10, 10, 0x10000000, 0x10100000, 10⟩) ∧
    btMmuMap ramKernel 0xC0008000 0x10000000 0xBFFFF000 4096 btPageWrite
      (bootMachine ⟨10, 10, 0x10000000, 0x10100000, 10⟩) = some (0, s') ∧
    ¬UserPagesTagged ramKernel s' (getPgd 0xC0008000) 0xBFFFF000 4096 := by
  have hok : ((btMmuMap ramKernel 0xC0008000 0x10000000 0xBFFFF000 4096 btPageWrite)
      (bootMachine ⟨10, 10, 0x10000000, 0x10100000, 10⟩)).map
        (fun r => (r.1, r.2.pteAt ramKernel 0xC0008000 0xBFFFF000)) =
      some (0, 0x1000003E) := by
    decide +kernel
  obtain ⟨⟨r, s'⟩, hrun, he⟩ := Option.map_eq_some_iff.mp hok
  obtain ⟨rfl, hw⟩ := Prod.mk.inj he
  have hself : getPgd 0xC0008000 = 0xC0008000 := by decide
  refine ⟨s', .of_empty fun _ => rfl, hrun, fun hall => ?_⟩
  have htagged := hall 0 (by decide)
  rw [hself, Nat.zero_mul, Nat.add_zero, hw] at htagged
  exact absurd (htagged.mpr (by decide)) (by decide)

end BitThunder
