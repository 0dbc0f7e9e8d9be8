import BitThunder.Vm.MmuSpec

/-!
# The page tables, entry by entry

What `bt_mmu_map` does to the translation of every single page. `pteAt` is the second
level entry of a page (`0` where there is no second level table); a directory is in
order (`DirOk`) if each of its slots is empty or points to a table, and no table is
pointed to twice. The cache the tables come from is a parameter: `TableLaw` says what
is asked of it.

* `enterPage_spec`: one round of the loop sets one entry and no other;
* `mmuMapLoop_spec`: the loop sets the entries of the pages it got to;
* `mmu_map_exact`: what the hardware then finds.

A directory is seen through `pteAt`, a function from addresses to second level entries. For one
round of the loop it has to be shown that setting one entry changes the function at one page. The
two ways in which it could change elsewhere are that another slot has the same table, which
`DirOk.inj` excludes, and that the table just handed out is one that is in use, which `TableLaw`
excludes. A new table is cleared before it is entered, so that it translates what nothing translated
before: to nothing.

The loop then enters the pages it gets to, whether or not it finishes, and the entries after `j`
pages are written down as a function (`enteredPte`). The walk of the hardware reads the same entries
with its own masks. All this is for directories whose tables do not lie in the directory itself:
there, an entry of a table would be a slot.
-/

namespace BitThunder

variable {σ : Type}

/-! ## Indices

Two pages have the same entry if they have the same slot and the same index in its table. -/

theorem pageDir_eq (va : ℕ) : pageDir va = va / 2 ^ 20 % 4096 := by
  unfold pageDir
  rw [Nat.shiftRight_eq_div_pow]
  exact Nat.and_two_pow_sub_one_eq_mod _ 12

theorem pageTable_eq (va : ℕ) : pageTable va = va / 4096 % 256 := by
  unfold pageTable
  rw [Nat.shiftRight_eq_div_pow]
  exact Nat.and_two_pow_sub_one_eq_mod _ 8

/-- The two indices of an address determine its page. -/
theorem same_page_iff {v w : ℕ} (hv : v < 2 ^ 32) (hw : w < 2 ^ 32) :
    pageDir w = pageDir v ∧ pageTable w = pageTable v ↔ w / 4096 = v / 4096 := by
  rw [pageDir_eq, pageDir_eq, pageTable_eq, pageTable_eq]
  omega

/-- The table's address in an entry of the directory. -/
theorem pdeAddress_eq (e : ℕ) : e &&& mmuPdeAddress = e % 2 ^ 32 / 1024 * 1024 :=
  land_highMask (w := 32) (k := 10) (by decide) e

/-- The lowest bit tells whether there is a table. -/
theorem pdePresent_iff (e : ℕ) : (e &&& mmuPdePresent != 0) = true ↔ e % 2 = 1 := by
  have h := land_two_pow_ne_zero (i := 0) (x := e)
  rw [pow_zero, Nat.div_one] at h
  rw [bne_iff_ne]
  exact h

/-- The directory entry of a table leads back to the table. -/
theorem pde_of_table (R : RamConfig) {t : ℕ} (ha : t % 1024 = 0) (ht : t < 2 ^ 32) :
    (R.virtToPhys t ||| mmuPdePresent) % 4 = 1 ∧
      R.physToVirt ((R.virtToPhys t ||| mmuPdePresent) &&& mmuPdeAddress) = t := by
  have hlt := R.virtToPhys_lt t
  have hal : R.virtToPhys t % 1024 = 0 := by
    have := R.virtToPhys_mod t
    omega
  have hor : R.virtToPhys t ||| mmuPdePresent = R.virtToPhys t + 1 :=
    lor_of_aligned (k := 10) hal (by decide)
  rw [hor, pdeAddress_eq]
  refine ⟨by omega, ?_⟩
  rw [show (R.virtToPhys t + 1) % 2 ^ 32 / 1024 * 1024 = R.virtToPhys t by omega]
  exact R.physToVirt_virtToPhys ht

/-! ## Directories

A directory in order has a table for each slot in use, and different ones for different slots. -/

/-- What is asked of the cache of page tables: it hands out 1 KB-aligned tables that
are not in use. `inUse` is known to the proofs only. -/
structure TableLaw (K : Kernel σ) (inUse : σ → ℕ → Prop) : Prop where
  /-- a table that is handed out is not in use -/
  fresh : ∀ e, (K.cacheAlloc e).1 ≠ 0 → ¬ inUse e (K.cacheAlloc e).1
  /-- it is aligned as the hardware wants it -/
  aligned : ∀ e, (K.cacheAlloc e).1 % 1024 = 0
  lt : ∀ e, (K.cacheAlloc e).1 < 2 ^ 32
  /-- it is in use afterwards -/
  use : ∀ e, (K.cacheAlloc e).1 ≠ 0 → inUse (K.cacheAlloc e).2 (K.cacheAlloc e).1
  /-- and so are those that were -/
  keep : ∀ e t, inUse e t → inUse (K.cacheAlloc e).2 t

/-- The table a directory slot points to. -/
def Machine.tableAt (K : Kernel σ) (s : Machine σ) (pgd i : ℕ) : ℕ :=
  K.ram.physToVirt (s.dir pgd i &&& mmuPdeAddress)

/-- The first `B` slots of the directory are in order: empty or a page table entry, the
tables are in use, and no two slots share one. -/
structure DirOk (K : Kernel σ) (inUse : σ → ℕ → Prop) (B pgd : ℕ) (s : Machine σ) : Prop where
  /-- a slot is empty or has a page table -/
  entry : ∀ i < B, s.dir pgd i = 0 ∨ s.dir pgd i % 4 = 1
  /-- which is in use -/
  used : ∀ i < B, s.dir pgd i ≠ 0 → inUse s.env (s.tableAt K pgd i)
  /-- and in no other slot -/
  inj : ∀ i < B, ∀ j < B, s.dir pgd i ≠ 0 → s.dir pgd j ≠ 0 →
    s.tableAt K pgd i = s.tableAt K pgd j → i = j

/-- The second level entry of the page of `va`. -/
def Machine.pteAt (K : Kernel σ) (s : Machine σ) (pgd va : ℕ) : ℕ :=
  if s.ptePresent pgd va then s.tbl (s.virtToPte K pgd va) (pageTable va) else 0

variable {K : Kernel σ} {inUse : σ → ℕ → Prop} {B pgd : ℕ} {s : Machine σ}

/-- The table of an address is the one in its entry. -/
theorem Machine.virtToPte_eq (va : ℕ) : s.virtToPte K pgd va = s.tableAt K pgd (pageDir va) := rfl

/-- An entry of a directory is present exactly if it is not `0`. -/
theorem DirOk.present_iff (h : DirOk K inUse B pgd s) {va : ℕ} (hva : pageDir va < B) :
    s.ptePresent pgd va ↔ s.dir pgd (pageDir va) ≠ 0 := by
  unfold Machine.ptePresent
  rw [pdePresent_iff]
  rcases h.entry _ hva with h0 | h1 <;> omega

/-- A directory only depends on its entries and on which tables are in use. -/
theorem DirOk.congr {s' : Machine σ} (h : DirOk K inUse B pgd s)
    (hd : ∀ i < B, s'.dir pgd i = s.dir pgd i) (hu : ∀ t, inUse s.env t → inUse s'.env t) :
    DirOk K inUse B pgd s' where
  entry i hi := by
    rw [hd i hi]
    exact h.entry i hi
  used i hi hne := by
    rw [Machine.tableAt, hd i hi]
    rw [hd i hi] at hne
    exact hu _ (h.used i hi hne)
  inj i hi j hj hi0 hj0 he := by
    rw [hd i hi] at hi0
    rw [hd j hj] at hj0
    rw [Machine.tableAt, Machine.tableAt, hd i hi, hd j hj] at he
    exact h.inj i hi j hj hi0 hj0 he

/-! ## The tables of a directory

The tables as a list, for those who count them. -/

/-- The tables the first `B` slots point to. -/
def Machine.dirTables (K : Kernel σ) (s : Machine σ) (B pgd : ℕ) : List ℕ :=
  ((List.range B).filter fun i => s.dir pgd i ≠ 0).map (s.tableAt K pgd)

/-- The tables a log says were handed out. -/
def tablesTaken (log : List Event) : List ℕ := log.filterMap fun
  | .ptAlloc t => some t
  | _ => none

/-- One more index passes the test. -/
theorem filter_range_insert {p q : ℕ → Bool} {n i : ℕ} (hi : i < n) (hp : p i = false)
    (hq : q i = true) (h : ∀ j, j ≠ i → q j = p j) :
    ((List.range n).filter q).Perm (i :: (List.range n).filter p) := by
  refine (List.perm_ext_iff_of_nodup (List.nodup_range.filter _) ?_).mpr fun j => ?_
  · refine List.nodup_cons.mpr ⟨?_, List.nodup_range.filter _⟩
    simp [hp]
  · by_cases hj : j = i
    · subst hj
      simp [hi, hq]
    · simp [hj, h j hj]

/-! ## One page

Getting the table for a slot, which may be new, and writing one entry to it. -/

/-- The state after a call of the cache at page `k` of a range. -/
def Machine.tableCall (K : Kernel σ) (s : Machine σ) (k : ℕ) : Machine σ :=
  (s.setEnv (K.cacheAlloc s.env).2).emit
    (if (K.cacheAlloc s.env).1 = 0 then .ptRefused k else .ptAlloc (K.cacheAlloc s.env).1)

/-- How `bt_mmu_map` gets the table for a page. -/
theorem tableFor_rule {Q : Option ℕ → Machine σ → Prop} {va k : ℕ}
    (there : s.ptePresent pgd va → Q (some (s.virtToPte K pgd va)) s)
    (refused : ¬ s.ptePresent pgd va → (K.cacheAlloc s.env).1 = 0 → Q none (s.tableCall K k))
    (new : ¬ s.ptePresent pgd va → (K.cacheAlloc s.env).1 ≠ 0 →
      Q (some (K.cacheAlloc s.env).1) (((s.tableCall K k).setTbl (K.cacheAlloc s.env).1
        fun _ => 0).setPde pgd va (K.ram.virtToPhys (K.cacheAlloc s.env).1 ||| mmuPdePresent))) :
    Prog.Ensures (tableFor K pgd va k) s Q := by
  unfold tableFor cacheAlloc
  simp only [Prog.ensures_bind, Prog.ensures_read, Prog.ensures_ite, Prog.ensures_pure,
    Prog.ensures_service, Prog.ensures_update]
  exact ⟨there, fun hp => ⟨refused hp, new hp⟩⟩

/-- The state after a new table was put into an empty slot. -/
def Machine.newTable (K : Kernel σ) (s : Machine σ) (pgd va k : ℕ) : Machine σ :=
  ((s.tableCall K k).setTbl (K.cacheAlloc s.env).1 fun _ => 0).setPde pgd va
    (K.ram.virtToPhys (K.cacheAlloc s.env).1 ||| mmuPdePresent)

section NewTable

variable {va k : ℕ}

theorem Machine.newTable_dir_self : (s.newTable K pgd va k).dir pgd (pageDir va) =
    (K.ram.virtToPhys (K.cacheAlloc s.env).1 ||| mmuPdePresent) := by
  simp [Machine.newTable, Machine.setPde, Machine.tableCall]

theorem Machine.newTable_dir_of_ne {i : ℕ} (h : i ≠ pageDir va) :
    (s.newTable K pgd va k).dir pgd i = s.dir pgd i := by
  simp [Machine.newTable, Machine.setPde, Machine.tableCall, Function.update_of_ne h]

theorem Machine.newTable_dir_other {b : ℕ} (h : b ≠ pgd) :
    (s.newTable K pgd va k).dir b = s.dir b := by
  funext i
  simp [Machine.newTable, Machine.setPde, Machine.tableCall, Function.update_of_ne h]

theorem Machine.newTable_tbl_self (j : ℕ) :
    (s.newTable K pgd va k).tbl (K.cacheAlloc s.env).1 j = 0 := by
  simp [Machine.newTable, Machine.setPde, Machine.tableCall]

theorem Machine.newTable_tbl_of_ne {b : ℕ} (h : b ≠ (K.cacheAlloc s.env).1) (j : ℕ) :
    (s.newTable K pgd va k).tbl b j = s.tbl b j := by
  simp [Machine.newTable, Machine.setPde, Machine.tableCall, Function.update_of_ne h]

theorem Machine.newTable_env : (s.newTable K pgd va k).env = (K.cacheAlloc s.env).2 := rfl

theorem Machine.newTable_log (ht : (K.cacheAlloc s.env).1 ≠ 0) :
    (s.newTable K pgd va k).log = .ptAlloc (K.cacheAlloc s.env).1 :: s.log := by
  change (if (K.cacheAlloc s.env).1 = 0 then _ else _) :: s.log = _
  rw [if_neg ht]

theorem Machine.newTable_tableAt_self (law : TableLaw K inUse) :
    (s.newTable K pgd va k).tableAt K pgd (pageDir va) = (K.cacheAlloc s.env).1 := by
  rw [Machine.tableAt, Machine.newTable_dir_self]
  exact (pde_of_table K.ram (law.aligned _) (law.lt _)).2

theorem Machine.newTable_tableAt_of_ne {i : ℕ} (h : i ≠ pageDir va) :
    (s.newTable K pgd va k).tableAt K pgd i = s.tableAt K pgd i := by
  rw [Machine.tableAt, Machine.newTable_dir_of_ne h]
  rfl

/-- A table from the cache is none of the directory's. -/
theorem DirOk.fresh (h : DirOk K inUse B pgd s) (law : TableLaw K inUse)
    (ht : (K.cacheAlloc s.env).1 ≠ 0) {i : ℕ} (hi : i < B) (hne : s.dir pgd i ≠ 0) :
    s.tableAt K pgd i ≠ (K.cacheAlloc s.env).1 := by
  intro he
  exact law.fresh _ ht (he ▸ h.used i hi hne)

theorem DirOk.newTable (h : DirOk K inUse B pgd s) (law : TableLaw K inUse)
    (ht : (K.cacheAlloc s.env).1 ≠ 0) : DirOk K inUse B pgd (s.newTable K pgd va k) where
  entry i hi := by
    by_cases hs : i = pageDir va
    · rw [hs, Machine.newTable_dir_self]
      exact .inr (pde_of_table K.ram (law.aligned _) (law.lt _)).1
    · rw [Machine.newTable_dir_of_ne hs]
      exact h.entry i hi
  used i hi hne := by
    rw [Machine.newTable_env]
    by_cases hs : i = pageDir va
    · rw [hs, Machine.newTable_tableAt_self law]
      exact law.use _ ht
    · rw [Machine.newTable_dir_of_ne hs] at hne
      rw [Machine.newTable_tableAt_of_ne hs]
      exact law.keep _ _ (h.used i hi hne)
  inj i hi j hj hi0 hj0 he := by
    by_cases hs : i = pageDir va
    · by_cases hs' : j = pageDir va
      · rw [hs, hs']
      · rw [hs, Machine.newTable_tableAt_self law, Machine.newTable_tableAt_of_ne hs'] at he
        rw [Machine.newTable_dir_of_ne hs'] at hj0
        exact absurd he.symm (h.fresh law ht hj hj0)
    · rw [Machine.newTable_dir_of_ne hs] at hi0
      by_cases hs' : j = pageDir va
      · rw [hs', Machine.newTable_tableAt_self law, Machine.newTable_tableAt_of_ne hs] at he
        exact absurd he (h.fresh law ht hi hi0)
      · rw [Machine.newTable_dir_of_ne hs'] at hj0
        rw [Machine.newTable_tableAt_of_ne hs, Machine.newTable_tableAt_of_ne hs'] at he
        exact h.inj i hi j hj hi0 hj0 he

/-- An empty table translates what no table translated: nothing. -/
theorem DirOk.newTable_pteAt (h : DirOk K inUse B pgd s) (law : TableLaw K inUse)
    (hva : pageDir va < B) (hno : ¬ s.ptePresent pgd va) (ht : (K.cacheAlloc s.env).1 ≠ 0) {w : ℕ}
    (hw : pageDir w < B) : (s.newTable K pgd va k).pteAt K pgd w = s.pteAt K pgd w := by
  have hN : DirOk K inUse B pgd (s.newTable K pgd va k) := h.newTable law ht
  by_cases hs : pageDir w = pageDir va
  · have hzero : s.dir pgd (pageDir w) = 0 := by
      rw [hs]
      exact not_not.mp fun hne => hno ((h.present_iff hva).mpr hne)
    have hold : ¬ s.ptePresent pgd w := fun hp => (h.present_iff hw).mp hp hzero
    rw [Machine.pteAt, Machine.pteAt, if_neg hold]
    split
    · rw [Machine.virtToPte_eq, hs, Machine.newTable_tableAt_self law, Machine.newTable_tbl_self]
    · rfl
  · have hd : (s.newTable K pgd va k).dir pgd (pageDir w) = s.dir pgd (pageDir w) :=
      Machine.newTable_dir_of_ne hs
    have hiff : (s.newTable K pgd va k).ptePresent pgd w = s.ptePresent pgd w := by
      rw [Machine.ptePresent, hd]
      rfl
    rw [Machine.pteAt, Machine.pteAt, hiff]
    split
    · rename_i hp
      rw [Machine.virtToPte_eq, Machine.newTable_tableAt_of_ne hs, Machine.newTable_tbl_of_ne]
      · rfl
      · exact h.fresh law ht hw ((h.present_iff hw).mp hp)
    · rfl

/-- The new table joins the directory's tables. -/
theorem DirOk.newTable_dirTables (h : DirOk K inUse B pgd s) (law : TableLaw K inUse)
    (hva : pageDir va < B) (hno : ¬ s.ptePresent pgd va) :
    ((s.newTable K pgd va k).dirTables K B pgd).Perm
      ((K.cacheAlloc s.env).1 :: s.dirTables K B pgd) := by
  have hzero : s.dir pgd (pageDir va) = 0 := not_not.mp fun hne => hno ((h.present_iff hva).mpr hne)
  have hself : (s.newTable K pgd va k).dir pgd (pageDir va) ≠ 0 := by
    rw [Machine.newTable_dir_self]
    have := (pde_of_table K.ram (law.aligned s.env) (law.lt s.env)).1
    omega
  have hperm := filter_range_insert (p := fun i => decide (s.dir pgd i ≠ 0))
    (q := fun i => decide ((s.newTable K pgd va k).dir pgd i ≠ 0)) hva (by simp [hzero])
    (by simpa using hself) fun j hj => by rw [Machine.newTable_dir_of_ne hj]
  have hmap : ((List.range B).filter fun i => decide (s.dir pgd i ≠ 0)).map
      ((s.newTable K pgd va k).tableAt K pgd) = s.dirTables K B pgd := by
    refine List.map_congr_left fun i hi => Machine.newTable_tableAt_of_ne ?_
    rintro rfl
    simp [hzero] at hi
  have := hperm.map ((s.newTable K pgd va k).tableAt K pgd)
  rw [List.map_cons, Machine.newTable_tableAt_self law, hmap] at this
  exact this

end NewTable

/-- Writing the entry of the page of `va`. -/
theorem DirOk.setPte_pteAt (h : DirOk K inUse B pgd s) {va w e : ℕ} (hva : va < 2 ^ 32)
    (hw : w < 2 ^ 32) (hdv : pageDir va < B) (hdw : pageDir w < B) (hp : s.ptePresent pgd va) :
    (s.setPte (s.virtToPte K pgd va) va e).pteAt K pgd w =
      if w / 4096 = va / 4096 then e else s.pteAt K pgd w := by
  have hpres : (s.setPte (s.virtToPte K pgd va) va e).ptePresent pgd w = s.ptePresent pgd w := rfl
  have hpte : (s.setPte (s.virtToPte K pgd va) va e).virtToPte K pgd w = s.virtToPte K pgd w := rfl
  rw [Machine.pteAt, Machine.pteAt, hpres, hpte]
  by_cases hsame : w / 4096 = va / 4096
  · obtain ⟨hd, ht⟩ := (same_page_iff hva hw).mpr hsame
    have hpw : s.ptePresent pgd w := by
      rw [Machine.ptePresent, hd]
      exact hp
    have hvw : s.virtToPte K pgd w = s.virtToPte K pgd va := by
      rw [Machine.virtToPte, hd]
      rfl
    rw [if_pos hpw, if_pos hsame, hvw, ht]
    simp [Machine.setPte]
  · rw [if_neg hsame]
    split
    · rename_i hpw
      by_cases hv : s.virtToPte K pgd w = s.virtToPte K pgd va
      · -- the same table, and so another entry of it
        have hd : pageDir w = pageDir va := h.inj _ hdw _ hdv ((h.present_iff hdw).mp hpw)
          ((h.present_iff hdv).mp hp) hv
        have hne : pageTable w ≠ pageTable va := fun ht =>
          hsame ((same_page_iff hva hw).mp ⟨hd, ht⟩)
        rw [hv]
        simp [Machine.setPte, Function.update_of_ne hne]
      · simp [Machine.setPte, Function.update_of_ne hv]
    · rfl

/-- Between the two states the directory got the tables the log says were handed out,
and stayed in order. -/
structure DirGrows (K : Kernel σ) (inUse : σ → ℕ → Prop) (B pgd : ℕ) (s s' : Machine σ) :
    Prop where
  /-- the directory is still in order -/
  ok : DirOk K inUse B pgd s'
  /-- it has its tables, and those that were handed out meanwhile -/
  tables : ∃ ts, (s'.dirTables K B pgd).Perm (ts ++ s.dirTables K B pgd) ∧
    tablesTaken s'.log = ts ++ tablesTaken s.log
  /-- other directories are as they were -/
  other : ∀ b, b ≠ pgd → s'.dir b = s.dir b
  /-- and so are the slots above -/
  high : ∀ i, B ≤ i → s'.dir pgd i = s.dir pgd i

namespace DirGrows

variable {s₁ s₂ : Machine σ}

/-- Nothing happened to the directory. -/
theorem of_eq (h : DirOk K inUse B pgd s) (hd : s₁.dir = s.dir)
    (hu : ∀ t, inUse s.env t → inUse s₁.env t)
    (hl : tablesTaken s₁.log = tablesTaken s.log) : DirGrows K inUse B pgd s s₁ where
  ok := h.congr (fun i _ => by rw [hd]) hu
  tables := by
    have ht : s₁.tableAt K pgd = s.tableAt K pgd := by
      funext i
      simp [Machine.tableAt, hd]
    exact ⟨[], by simp [Machine.dirTables, hd, ht], by simpa using hl⟩
  other b _ := by rw [hd]
  high i _ := by rw [hd]

/-- Steps that only add tables may follow each other. -/
theorem trans (h : DirGrows K inUse B pgd s s₁) (h' : DirGrows K inUse B pgd s₁ s₂) :
    DirGrows K inUse B pgd s s₂ where
  ok := h'.ok
  tables := by
    obtain ⟨ts, hp, hl⟩ := h.tables
    obtain ⟨ts', hp', hl'⟩ := h'.tables
    refine ⟨ts' ++ ts, ?_, by rw [hl', hl, List.append_assoc]⟩
    rw [List.append_assoc]
    exact hp'.trans (hp.append_left ts')
  other b hb := (h'.other b hb).trans (h.other b hb)
  high i hi := (h'.high i hi).trans (h.high i hi)

end DirGrows

/-- The table for a page: there is one now, and no translation has changed; or the
cache refused. -/
theorem tableFor_spec (law : TableLaw K inUse) (h : DirOk K inUse B pgd s) {va : ℕ} (k : ℕ)
    (hva : pageDir va < B) :
    Prog.Ensures (tableFor K pgd va k) s fun r s' => DirGrows K inUse B pgd s s' ∧
      (∀ w, pageDir w < B → s'.pteAt K pgd w = s.pteAt K pgd w) ∧
      (r = none → s'.log = .ptRefused k :: s.log) ∧
      ∀ t, r = some t → s'.ptePresent pgd va ∧ s'.virtToPte K pgd va = t := by
  refine tableFor_rule (fun hp => ?_) (fun hno hz => ?_) fun hno hz => ?_
  · refine ⟨.of_eq h rfl (fun _ ht => ht) rfl, fun _ _ => rfl, nofun, ?_⟩
    rintro t he
    cases he
    exact ⟨hp, rfl⟩
  · have hlog : (s.tableCall K k).log = .ptRefused k :: s.log := by
      change (if (K.cacheAlloc s.env).1 = 0 then _ else _) :: s.log = _
      rw [if_pos hz]
    refine ⟨.of_eq h rfl (fun t ht => law.keep _ _ ht) ?_, fun _ _ => rfl, fun _ => hlog, nofun⟩
    rw [hlog]
    rfl
  · change DirGrows K inUse B pgd s (s.newTable K pgd va k) ∧
      (∀ w, pageDir w < B → (s.newTable K pgd va k).pteAt K pgd w = s.pteAt K pgd w) ∧
      (_ → _) ∧ ∀ t, _ → (s.newTable K pgd va k).ptePresent pgd va ∧
        (s.newTable K pgd va k).virtToPte K pgd va = t
    have hN : DirOk K inUse B pgd (s.newTable K pgd va k) := h.newTable law hz
    refine ⟨⟨hN, ⟨[(K.cacheAlloc s.env).1], h.newTable_dirTables law hva hno, ?_⟩, ?_, ?_⟩,
      fun w hw => h.newTable_pteAt law hva hno hz hw, nofun, ?_⟩
    · rw [Machine.newTable_log hz]
      rfl
    · exact fun b hb => Machine.newTable_dir_other hb
    · exact fun i hi => Machine.newTable_dir_of_ne (by omega)
    · rintro t he
      cases he
      refine ⟨(hN.present_iff hva).mpr ?_, Machine.newTable_tableAt_self law⟩
      rw [Machine.newTable_dir_self]
      have := (pde_of_table K.ram (law.aligned s.env) (law.lt s.env)).1
      omega

/-! ## The loop

After `j` pages the entries of these are the ones to be entered, and all others are what they
were. -/

/-- The entries after `j` pages from `va` on were entered. -/
def enteredPte (K : Kernel σ) (s : Machine σ) (pgd flag pa va j w : ℕ) : ℕ :=
  if va / 4096 ≤ w / 4096 ∧ w / 4096 < va / 4096 + j then
    (pa + (w / 4096 - va / 4096) * 4096) ||| flag
  else s.pteAt K pgd w

/-- The same, where the physical addresses may go on at `0`. -/
def enteredWord (K : Kernel σ) (s : Machine σ) (pgd flag pa va j w : ℕ) : ℕ :=
  if va / 4096 ≤ w / 4096 ∧ w / 4096 < va / 4096 + j then
    wordAdd pa ((w / 4096 - va / 4096) * 4096) ||| flag
  else s.pteAt K pgd w

theorem enteredWord_eq {flag pa va j w : ℕ} (hpend : pa + j * 4096 ≤ 2 ^ 32) :
    enteredWord K s pgd flag pa va j w = enteredPte K s pgd flag pa va j w := by
  unfold enteredWord enteredPte
  split_ifs with hin
  · rw [wordAdd_of_lt (by omega)]
  · rfl

/-- How the loop of `bt_mmu_map` ends: with all its pages entered, or where the cache
refused a table. -/
theorem mmuMapLoop_spec (law : TableLaw K inUse) (hB : B ≤ 4096) (flag n k pa va : ℕ)
    (h : DirOk K inUse B pgd s) (hva : va % 4096 = 0) (hvend : va + n * 4096 ≤ B * 2 ^ 20)
    (hpa : pa < 2 ^ 32) :
    Prog.Ensures (mmuMapLoop K pgd flag n k pa va) s fun r s' => DirGrows K inUse B pgd s s' ∧
      ∃ j ≤ n, (r = 0 ∧ j = n ∨ r = -1 ∧ ∃ l, s'.log = .ptRefused (k + j) :: l) ∧
        ∀ w < B * 2 ^ 20, s'.pteAt K pgd w = enteredWord K s pgd flag pa va j w := by
  have hdir : ∀ w < B * 2 ^ 20, pageDir w < B := by
    intro w hw
    rw [pageDir_eq]
    omega
  induction n generalizing s k pa va with
  | zero =>
    rw [mmuMapLoop, Prog.ensures_pure]
    refine ⟨.of_eq h rfl (fun _ ht => ht) rfl, 0, le_refl _, .inl ⟨rfl, rfl⟩, fun w _ => ?_⟩
    rw [enteredWord, if_neg (by omega)]
  | succ n ih =>
    have hlt : va < B * 2 ^ 20 := by omega
    rw [mmuMapLoop, Prog.ensures_bind]
    refine (tableFor_spec law h k (hdir va hlt)).mono fun r s₁ h₁ => ?_
    obtain ⟨hg, hpte, hnone, hsome⟩ := h₁
    cases r with
    | none =>
      rw [Prog.ensures_pure]
      refine ⟨hg, 0, Nat.zero_le _, .inr ⟨rfl, _, hnone rfl⟩, fun w hw => ?_⟩
      rw [hpte w (hdir w hw), enteredWord, if_neg (by omega)]
    | some t =>
      obtain ⟨hpres, rfl⟩ := hsome t rfl
      simp only [Prog.ensures_bind, Prog.ensures_update]
      -- the entry of this page is set, then the rest of the range
      have hok₂ : DirGrows K inUse B pgd s₁
          (s₁.setPte (s₁.virtToPte K pgd va) va (pa ||| flag)) :=
        .of_eq hg.ok rfl (fun _ ht => ht) rfl
      have hset : ∀ w < B * 2 ^ 20,
          (s₁.setPte (s₁.virtToPte K pgd va) va (pa ||| flag)).pteAt K pgd w =
            if w / 4096 = va / 4096 then pa ||| flag else s.pteAt K pgd w := by
        intro w hw
        rw [hg.ok.setPte_pteAt (by omega) (by omega) (hdir va hlt) (hdir w hw) hpres,
          hpte w (hdir w hw)]
      have hva' : wordAdd va btPageSize % 4096 = 0 ∧
          wordAdd va btPageSize + n * 4096 ≤ B * 2 ^ 20 ∧
          (0 < n → wordAdd va btPageSize = va + 4096) := by
        unfold wordAdd btPageSize
        omega
      have hpa' : wordAdd pa btPageSize < 2 ^ 32 := Nat.mod_lt _ (Nat.two_pow_pos 32)
      have hpnext : ∀ i, wordAdd (wordAdd pa btPageSize) (i * 4096) =
          wordAdd pa ((i + 1) * 4096) := by
        intro i
        unfold wordAdd btPageSize
        omega
      have hpself : wordAdd pa 0 = pa := wordAdd_of_lt hpa
      refine (ih (k + 1) (wordAdd pa btPageSize) (wordAdd va btPageSize) hok₂.ok hva'.1 hva'.2.1
        hpa').mono fun r s₂ h₂ => ?_
      obtain ⟨hg₂, j, hj, hr, hent⟩ := h₂
      refine ⟨(hg.trans hok₂).trans hg₂, j + 1, by omega, ?_, fun w hw => ?_⟩
      · rcases hr with ⟨rfl, rfl⟩ | ⟨rfl, l, hl⟩
        · exact .inl ⟨rfl, rfl⟩
        · exact .inr ⟨rfl, l, by rw [hl]; congr 2; omega⟩
      · rw [hent w hw, enteredWord, enteredWord, hset w hw]
        by_cases hz : n = 0
        · obtain rfl : j = 0 := by omega
          rw [if_neg (by omega)]
          by_cases hw' : w / 4096 = va / 4096
          · rw [if_pos hw', if_pos (by omega), hw', Nat.sub_self, Nat.zero_mul, hpself]
          · rw [if_neg hw', if_neg (by omega)]
        · rw [hva'.2.2 (by omega)]
          by_cases hw' : w / 4096 = va / 4096
          · rw [if_neg
              (by omega), if_pos hw', if_pos (by omega), hw', Nat.sub_self, Nat.zero_mul, hpself]
          · rw [if_neg hw']
            by_cases hin : (va + 4096) / 4096 ≤ w / 4096 ∧ w / 4096 < (va + 4096) / 4096 + j
            · rw [if_pos hin, if_pos (by omega), hpnext]
              congr 3
              omega
            · rw [if_neg hin, if_neg (by omega)]

/-! ## `bt_mmu_map`

The words that it computes from its arguments, and the loop at these. -/

/-- The non-global bit `bt_mmu_map` gives to a range. -/
def nonGlobal (va size : ℕ) : ℕ := if wordAdd va size < btMmUserLimit then mmuPteNg else 0

theorem typeToPteFlags_lt {type flag : ℕ} (h : typeToPteFlags type = some flag) (va size : ℕ) :
    flag ||| nonGlobal va size < 4096 := by
  unfold typeToPteFlags at h
  unfold nonGlobal
  split at h <;> cases h <;> split <;> decide

/-- How `bt_mmu_map` ends, on a page-aligned range below slot `B`. -/
theorem btMmuMap_words (law : TableLaw K inUse) (hB : B ≤ 4096) {hdl pa va size : ℕ} (type : ℕ)
    (h : DirOk K inUse B (getPgd hdl) s) (hva : va % 4096 = 0) (hpa : pa % 4096 = 0)
    (hsz : size % 4096 = 0) (hvlt : va < 2 ^ 32) (hplt : pa < 2 ^ 32) (hslt : size < 2 ^ 32)
    (hvend : va + size ≤ B * 2 ^ 20) :
    Prog.Ensures (btMmuMap K hdl pa va size type) s fun r s' =>
      typeToPteFlags type = none ∧ r = -1 ∧ s' = s ∨
      ∃ flag, typeToPteFlags type = some flag ∧ DirGrows K inUse B (getPgd hdl) s s' ∧
        ∃ j ≤ size / 4096,
          (r = 0 ∧ j = size / 4096 ∨ r = -1 ∧ ∃ l, s'.log = .ptRefused j :: l) ∧
          ∀ w < B * 2 ^ 20, s'.pteAt K (getPgd hdl) w =
            enteredWord K s (getPgd hdl) (flag ||| nonGlobal va size) pa va j w := by
  unfold btMmuMap
  cases htype : typeToPteFlags type with
  | none => exact Prog.ensures_pure.mpr (.inl ⟨rfl, rfl, rfl⟩)
  | some flag =>
    have hn : btPageAlign size / btPageSize = size / 4096 := by
      rw [btPageAlign_of_aligned hslt hsz]
      rfl
    simp only [hn, btPageTrunc_of_aligned hvlt hva, btPageTrunc_of_aligned hplt hpa]
    refine (mmuMapLoop_spec law hB (flag ||| nonGlobal va size) (size / 4096) 0 pa va h hva
      (by omega) hplt).mono fun r s' hr => ?_
    obtain ⟨hg, j, hj, hres, hent⟩ := hr
    rw [Nat.zero_add] at hres
    exact .inr ⟨flag, rfl, hg, j, hj, hres, hent⟩

/-- The same, for a physical range that ends in the address space. -/
theorem btMmuMap_spec (law : TableLaw K inUse) (hB : B ≤ 4096) {hdl pa va size : ℕ} (type : ℕ)
    (h : DirOk K inUse B (getPgd hdl) s) (hva : va % 4096 = 0) (hpa : pa % 4096 = 0)
    (hsz : size % 4096 = 0) (hvlt : va < 2 ^ 32) (hplt : pa < 2 ^ 32) (hslt : size < 2 ^ 32)
    (hvend : va + size ≤ B * 2 ^ 20) (hpend : pa + size ≤ 2 ^ 32) :
    Prog.Ensures (btMmuMap K hdl pa va size type) s fun r s' =>
      typeToPteFlags type = none ∧ r = -1 ∧ s' = s ∨
      ∃ flag, typeToPteFlags type = some flag ∧ DirGrows K inUse B (getPgd hdl) s s' ∧
        ∃ j ≤ size / 4096,
          (r = 0 ∧ j = size / 4096 ∨ r = -1 ∧ ∃ l, s'.log = .ptRefused j :: l) ∧
          ∀ w < B * 2 ^ 20, s'.pteAt K (getPgd hdl) w =
            enteredPte K s (getPgd hdl) (flag ||| nonGlobal va size) pa va j w := by
  refine (btMmuMap_words law hB type h hva hpa hsz hvlt hplt hslt hvend).mono fun r s' hr => ?_
  rcases hr with hno | ⟨flag, hflag, hg, j, hj, hres, hent⟩
  · exact .inl hno
  · refine .inr ⟨flag, hflag, hg, j, hj, hres, fun w hw => ?_⟩
    rw [hent w hw, enteredWord_eq (by omega)]

/-! ## The walk of the hardware

It reads the entry that the loop has written, with the attributes that the type stands for. -/

/-- What a second level entry says: the page's physical address and its attributes, or
nothing. -/
def decodePte (e : ℕ) : Option (ℕ × ℕ) :=
  if e &&& mmuPtePresent ≠ 0 then some (e / 4096 * 4096, e % 4096) else none

/-- The translation of an address: the directory entry, if it is a page table entry,
then the entry of the second level table. -/
def Machine.walk (K : Kernel σ) (s : Machine σ) (pgd va : ℕ) : Option (ℕ × ℕ) :=
  if s.dir pgd (pageDir va) % 4 = 1 then
    decodePte (s.tbl (s.tableAt K pgd (pageDir va)) (pageTable va))
  else none

theorem decodePte_zero : decodePte 0 = none := by decide

/-- A walk ends at the entry of the table. -/
theorem DirOk.walk_eq (h : DirOk K inUse B pgd s) {va : ℕ} (hva : pageDir va < B) :
    s.walk K pgd va = decodePte (s.pteAt K pgd va) := by
  have hp := h.present_iff hva
  unfold Machine.walk Machine.pteAt
  rcases h.entry _ hva with h0 | h1
  · have hno : ¬ s.ptePresent pgd va := fun hyes => hp.mp hyes h0
    rw [if_neg hno, if_neg (by omega), decodePte_zero]
  · rw [if_pos h1, if_pos (hp.mpr (by omega))]
    rfl

/-- What the entry of a page with the given flags says. -/
theorem decodePte_entry {pa flag : ℕ} (hpa : pa % 4096 = 0) (hf : flag < 4096) :
    decodePte (pa ||| flag) = if flag / 2 % 2 = 1 then some (pa, flag) else none := by
  have hor : pa ||| flag = pa + flag := lor_of_aligned (k := 12) hpa hf
  have hbit : pa + flag &&& mmuPtePresent ≠ 0 ↔ (pa + flag) / 2 % 2 = 1 :=
    land_two_pow_ne_zero (i := 1)
  unfold decodePte
  rw [hor]
  by_cases hb : flag / 2 % 2 = 1
  · rw [if_pos hb, if_pos (hbit.mpr (by omega))]
    congr 2 <;> omega
  · rw [if_neg hb, if_neg (fun h => hb (by have := hbit.mp h; omega))]

/-- The present bit is set unless the page is unmapped. -/
theorem typeToPteFlags_present {type flag : ℕ} (h : typeToPteFlags type = some flag)
    (va size : ℕ) : (flag ||| nonGlobal va size) / 2 % 2 = 1 ↔ type ≠ btPageUnmap := by
  unfold typeToPteFlags at h
  unfold nonGlobal
  split at h <;> cases h <;> split <;> decide

/-! ## A kernel in which the laws hold

The cache hands out one table after the other, from fresh memory. -/

/-- The services over a limited stock, with RAM that ends at `0x30000000`. -/
def ramKernel : Kernel Stock :=
  { stockKernel with
    pageAlloc := fun n e =>
      if n = 0 ∨ e.page = 0 ∨ e.page % 4096 ≠ 0 ∨ 0x30000000 < e.page + btPageAlign n then (0, e)
      else (e.page, { e with page := e.page + btPageAlign n })
    cacheAlloc := fun e =>
      if e.tables = 0 ∨ 2 ^ 16 < e.tables then (0, e)
      else (0xC8000000 + 1024 * e.tables, { e with tables := e.tables - 1 }) }

/-- The tables `ramKernel` has handed out: those above the next one. -/
def ramTables (e : Stock) (t : ℕ) : Prop :=
  0xC8000000 + 1024 * e.tables < t ∧ t ≤ 0xC8000000 + 1024 * 2 ^ 16

/-- Tables are given upwards, empty, and stay where they are. -/
theorem ramKernel_tables : TableLaw ramKernel ramTables where
  fresh e h := by
    unfold ramKernel ramTables at *
    dsimp only at *
    split at h
    · exact absurd rfl h
    · rw [if_neg ‹_›]
      omega
  aligned e := by
    unfold ramKernel
    dsimp only
    split
    · rfl
    · dsimp only
      omega
  lt e := by
    unfold ramKernel
    dsimp only
    split
    · change 0 < 2 ^ 32
      decide
    · dsimp only
      omega
  use e h := by
    unfold ramKernel ramTables at *
    dsimp only at *
    split at h
    · exact absurd rfl h
    · rw [if_neg ‹_›]
      dsimp only
      omega
  keep e t h := by
    unfold ramKernel ramTables at *
    dsimp only at *
    split
    · exact h
    · dsimp only
      omega

/-- An empty directory is in order. -/
theorem DirOk.of_empty (h : ∀ i < B, s.dir pgd i = 0) : DirOk K inUse B pgd s where
  entry i hi := .inl (h i hi)
  used i hi hne := absurd (h i hi) hne
  inj i hi _ _ hne := absurd (h i hi) hne

end BitThunder
