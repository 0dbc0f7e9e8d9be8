import BitThunder.Vm.Walk

/-!
# The life of a page directory

`bt_mmu_newmap` makes a directory out of 32 KB of fresh pages and gives it the next
address space id; `bt_mmu_terminate` gives its page tables and its pages back.

* `asids_distinct`: as long as the id fits into its eight bits, every handle leads to
  its own table and no two live handles have the same id;
* `terminate_returns_iff`: when what goes back to the cache of page tables is what came
  from it.

The page allocator is a parameter: `PageLaw` says what is asked of it.

Two kinds of runs are looked at. In the first, directories are made, used and terminated in any
order, and what is kept is that their tables lie in pages that nobody else has, and that ids below
the counter are spent. An id is or-ed into the low byte of a handle: as long as it fits there, both
can be read back (`handle_parts`); the 257th does not fit and changes the address.

In the second kind one directory is filled and terminated, with a record of which page tables the
cache handed out. What goes back is the physical address of each table, computed once more from an
address that is physical already. A list that is moved by a distance and is still the same list up
to order was not moved or is empty (`eq_of_perm_translate`), and this is the whole condition.
-/

namespace BitThunder

variable {σ : Type} {K : Kernel σ} {inUse : σ → ℕ → Prop} {B pgd : ℕ} {s : Machine σ}

/-! ## Handles

The two parts of a handle can be read back if the id fits into the low byte. -/

/-- The directory's address is the handle without its low byte. -/
theorem getPgd_eq (h : ℕ) : getPgd h = h % 2 ^ 32 / 256 * 256 :=
  land_highMask (w := 32) (k := 8) (by decide) h

theorem getAsid_eq (h : ℕ) : getAsid h = h % 256 := Nat.and_two_pow_sub_one_eq_mod h 8

theorem pgdAlign_eq (x : ℕ) : pgdAlign x = (x + 0x3FFF) % 2 ^ 32 / 0x4000 * 0x4000 := by
  have h := land_highMask (w := 32) (k := 14) (by decide) ((x + 0x3FFF) % 2 ^ 32)
  rw [Nat.mod_mod] at h
  exact h

/-- A base and an id below it make a handle that both can be read from. -/
theorem handle_parts {b a : ℕ} (hb : b % 256 = 0) (hlt : b < 2 ^ 32) (ha : a < 256) :
    getPgd (b ||| a) = b ∧ getAsid (b ||| a) = a := by
  rw [lor_of_aligned (k := 8) hb ha, getPgd_eq, getAsid_eq]
  omega

/-! ## `bt_mmu_newmap`

It asks for pages once and gives back what is in front of the aligned table and behind it. -/

section Newmap

variable (K s)

/-- The pages `create_pgd` is given. -/
def newPages : ℕ := (K.pageAlloc (mmuL1tblSize * 2) s.env).1

/-- The physical address of the table it makes of them. -/
def newTable : ℕ := pgdAlign (newPages K s)

/-- What lies before the table. -/
def newGap : ℕ := wordSub (newTable K s) (newPages K s)

/-- The state when `create_pgd` has given back what lies before and after the table. -/
def afterCreate : Machine σ :=
  let s₁ := s.pageCall K .directory (mmuL1tblSize * 2)
  let s₂ := if newGap K s ≠ 0 then s₁.pageReturn K .directory (newPages K s) (newGap K s) else s₁
  (s₂.pageReturn K .directory (wordAdd (newTable K s) mmuL1tblSize)
    (wordSub mmuL1tblSize (newGap K s))).setAsid (wordAdd s.asid 1)

variable {K s}

theorem afterCreate_asid : (afterCreate K s).asid = wordAdd s.asid 1 := rfl

theorem afterCreate_dir : (afterCreate K s).dir = s.dir := by
  unfold afterCreate
  dsimp only
  split <;> rfl

/-- How `create_pgd` ends. -/
theorem createPgd_cases {Q : ℕ → Machine σ → Prop}
    (refused : newPages K s = 0 → Q 0 (s.pageCall K .directory (mmuL1tblSize * 2)))
    (made : newPages K s ≠ 0 → Q (newTable K s ||| s.asid) (afterCreate K s)) :
    Prog.Ensures (createPgd K) s Q := by
  unfold createPgd pageAlloc pageFree
  simp only [Prog.ensures_bind, Prog.ensures_service, Prog.ensures_ite, Prog.ensures_pure,
    Prog.ensures_when, Prog.ensures_update, Prog.ensures_read]
  refine ⟨refused, fun hp => ⟨fun hgap => ?_, fun hgap => ?_⟩⟩
  · have hgap' : newGap K s ≠ 0 := hgap
    have := made hp
    rw [afterCreate, if_pos hgap'] at this
    exact this
  · have hgap' : ¬ newGap K s ≠ 0 := hgap
    have := made hp
    rw [afterCreate, if_neg hgap'] at this
    exact this

/-- Where the first level table of the new directory is, as the kernel sees it. -/
def newBase (K : Kernel σ) (s : Machine σ) : ℕ :=
  K.ram.physToVirt (getPgd (newTable K s ||| s.asid))

/-- How `bt_mmu_newmap` ends. -/
theorem btMmuNewmap_cases {Q : ℕ → Machine σ → Prop}
    (refused : newPages K s = 0 → Q 0 (s.pageCall K .directory (mmuL1tblSize * 2)))
    (zero : newPages K s ≠ 0 → (newTable K s ||| s.asid) = 0 → Q 0 (afterCreate K s))
    (made : newPages K s ≠ 0 → (newTable K s ||| s.asid) ≠ 0 → ∀ t,
      (∀ i, t i = 0 ∨ t i = s.dir K.mmuTable i) →
      Q (newBase K s ||| getAsid (newTable K s ||| s.asid))
        (((afterCreate K s).setDir (newBase K s) fun _ => 0).setDir (newBase K s) t)) :
    Prog.Ensures (btMmuNewmap K) s Q := by
  unfold btMmuNewmap
  rw [Prog.ensures_bind]
  refine createPgd_cases (fun hp => ?_) fun hp => ?_
  · simp only [if_pos, Prog.ensures_pure]
    exact refused hp
  · simp only [Prog.ensures_bind, Prog.ensures_ite, Prog.ensures_pure, Prog.ensures_update]
    refine ⟨zero hp, fun hne => made hp hne _ fun i => ?_⟩
    by_cases hb : K.mmuTable = newBase K s
    · left
      change (Function.update _ (newBase K s) _ : ℕ → ℕ → ℕ) K.mmuTable i = 0
      rw [hb, Function.update_self]
    · right
      change (Function.update _ (newBase K s) _ : ℕ → ℕ → ℕ) K.mmuTable i = _
      rw [Function.update_of_ne hb, afterCreate_dir]

end Newmap

/-! ## What is asked of the page allocator

What it hands out is aligned, does not wrap around and was not in use. Nothing goes out of use but
what is given back. -/

/-- The pages handed out were free, are whole and do not wrap around; what is taken
stays taken until it is given back. `taken` is known to the proofs only: it says which
physical addresses lie in pages that are in use. -/
structure PageLaw (K : Kernel σ) (taken : σ → ℕ → Prop) : Prop where
  /-- what is granted begins with a page -/
  aligned : ∀ n e, (K.pageAlloc n e).1 % 4096 = 0
  /-- and ends within the address space -/
  fits : ∀ n e, (K.pageAlloc n e).1 ≠ 0 → (K.pageAlloc n e).1 + btPageAlign n ≤ 2 ^ 32
  /-- it is nobody's -/
  fresh : ∀ n e x, (K.pageAlloc n e).1 ≠ 0 → (K.pageAlloc n e).1 ≤ x →
    x < (K.pageAlloc n e).1 + btPageAlign n → ¬ taken e x
  /-- afterwards it is somebody's -/
  take : ∀ n e x, (K.pageAlloc n e).1 ≠ 0 → (K.pageAlloc n e).1 ≤ x →
    x < (K.pageAlloc n e).1 + btPageAlign n → taken (K.pageAlloc n e).2 x
  /-- nobody loses a byte by it -/
  keep : ∀ n e x, taken e x → taken (K.pageAlloc n e).2 x
  /-- a free takes away no other bytes than those it is given -/
  free : ∀ p n e x, taken e x → x < p ∨ p + btPageAlign n ≤ x → taken (K.pageFree p n e) x
  /-- and the cache of page tables takes none -/
  cacheAlloc : ∀ e x, taken e x → taken (K.cacheAlloc e).2 x
  cacheFree : ∀ p e x, taken e x → taken (K.cacheFree p e) x

variable {taken : σ → ℕ → Prop}

/-- The table is inside the pages it was made of, and what is given back is not. -/
theorem PageLaw.newTable_spec (law : PageLaw K taken) (hp : newPages K s ≠ 0) :
    newTable K s % 0x4000 = 0 ∧ newPages K s ≤ newTable K s ∧
      newTable K s + 0x4000 ≤ newPages K s + 0x8000 ∧ newPages K s + 0x8000 ≤ 2 ^ 32 ∧
      newGap K s = newTable K s - newPages K s ∧ newGap K s % 4096 = 0 ∧ newGap K s < 0x4000 := by
  have ha : newPages K s % 4096 = 0 := law.aligned _ _
  have hf : newPages K s + 0x8000 ≤ 2 ^ 32 := law.fits _ _ hp
  have ht := pgdAlign_eq (newPages K s)
  unfold newGap wordSub newTable at *
  omega

/-- Everything that was taken is still taken, and so is the new table. -/
theorem PageLaw.afterCreate_taken (law : PageLaw K taken) (hp : newPages K s ≠ 0) {x : ℕ}
    (h : taken s.env x ∨ newTable K s ≤ x ∧ x < newTable K s + 0x4000) :
    taken (afterCreate K s).env x := by
  obtain ⟨-, hle, hend, hfit, hgap, hmod, hlt⟩ := law.newTable_spec hp
  have hsize : btPageAlign (mmuL1tblSize * 2) = 0x8000 := by decide
  -- outside what is given back
  have hcall : taken (K.pageAlloc (mmuL1tblSize * 2) s.env).2 x ∧
      (x < newPages K s ∨ newPages K s + 0x8000 ≤ x ∨
        newTable K s ≤ x ∧ x < newTable K s + 0x4000) := by
    rcases h with h | ⟨hlo, hhi⟩
    · refine ⟨law.keep _ _ _ h, ?_⟩
      by_contra hin
      exact law.fresh _ _ x hp (by unfold newPages at *; omega)
        (by rw [hsize]; unfold newPages at *; omega) h
    · refine ⟨law.take _ _ _ hp ?_ ?_, .inr (.inr ⟨hlo, hhi⟩)⟩
      · exact le_trans hle hlo
      · rw [hsize]
        exact lt_of_lt_of_le hhi hend
  have hrest : wordAdd (newTable K s) mmuL1tblSize = newTable K s + 0x4000 := by
    unfold wordAdd mmuL1tblSize
    omega
  have hsub : wordSub mmuL1tblSize (newGap K s) = 0x4000 - newGap K s := by
    unfold wordSub mmuL1tblSize
    omega
  have hlen : btPageAlign (0x4000 - newGap K s) = 0x4000 - newGap K s :=
    btPageAlign_of_aligned (by omega) (by omega)
  have hlen' : btPageAlign (newGap K s) = newGap K s := btPageAlign_of_aligned (by omega) hmod
  obtain ⟨ht, hx⟩ := hcall
  unfold afterCreate
  rw [hrest, hsub]
  change taken (K.pageFree (newTable K s + 0x4000) (0x4000 - newGap K s)
      (Machine.env (if _ then _ else _))) x
  refine law.free _ _ _ _ ?_ (by rw [hlen]; omega)
  split
  · exact law.free _ _ _ _ ht (by rw [hlen']; omega)
  · exact ht

/-! ## Runs

Each address space has its table in pages of its own. -/

/-- A live directory: its handle, and the pages it was made of. -/
structure Space : Type where
  hdl : ℕ
  pages : ℕ

/-- The physical address of its first level table. -/
def Space.table (K : Kernel σ) (d : Space) : ℕ := K.ram.virtToPhys (getPgd d.hdl)

/-- The handle leads to a 16 KB-aligned table inside its own pages. -/
structure Space.Ok (K : Kernel σ) (d : Space) : Prop where
  /-- the table is aligned as the hardware wants it -/
  aligned : d.table K % 0x4000 = 0
  /-- and lies in the pages that were allocated for it -/
  start : d.pages ≤ d.table K
  stop : d.table K + 0x4000 ≤ d.pages + 0x8000

/-- The two directories have tables that do not overlap, and different ids. -/
def Space.Apart (K : Kernel σ) (d d' : Space) : Prop :=
  (d.table K + 0x4000 ≤ d'.table K ∨ d'.table K + 0x4000 ≤ d.table K) ∧
    getAsid d.hdl ≠ getAsid d'.hdl

/-- The states directories being made, used and terminated lead to, with the live ones.
`Room` is asked of the state each time one is made. -/
inductive DirReach (K : Kernel σ) (Room : Machine σ → Prop) : Machine σ → List Space → Prop
  | boot {s : Machine σ} (none : s.asid = 0) : DirReach K Room s []
  | refused {s s' : Machine σ} {live : List Space} (reach : DirReach K Room s live)
    (room : Room s) (run : btMmuNewmap K s = some (0, s')) : DirReach K Room s' live
  | newmap {s s' : Machine σ} {live : List Space} {hdl : ℕ} (reach : DirReach K Room s live)
    (room : Room s) (run : btMmuNewmap K s = some (hdl, s')) (ok : hdl ≠ 0) :
    DirReach K Room s' (⟨hdl, newPages K s⟩ :: live)
  | map {s s' : Machine σ} {live : List Space} {d : Space} {r : ℤ} (pa va size type : ℕ)
    (reach : DirReach K Room s live) (own : d ∈ live)
    (run : btMmuMap K d.hdl pa va size type s = some (r, s')) : DirReach K Room s' live
  | terminate {s s' : Machine σ} {before after : List Space} {d : Space}
    (reach : DirReach K Room s (before ++ d :: after))
    (run : btMmuTerminate K d.hdl s = some ((), s')) : DirReach K Room s' (before ++ after)

/-- What holds of the live directories in every state. -/
structure DirInv (K : Kernel σ) (taken : σ → ℕ → Prop) (s : Machine σ) (live : List Space) :
    Prop where
  /-- every table is aligned, and in its pages -/
  ok : ∀ d ∈ live, d.Ok K
  /-- two live ones do not overlap, and have different ids -/
  apart : live.Pairwise (Space.Apart K)
  /-- the bytes of the tables are not free -/
  taken : ∀ d ∈ live, ∀ x, d.table K ≤ x → x < d.table K + 0x4000 → taken s.env x
  /-- and their ids have been given out -/
  below : ∀ d ∈ live, getAsid d.hdl < s.asid

/-- Another state in which at least the same pages are taken and ids used. -/
theorem DirInv.keep {s' : Machine σ} {live : List Space} (h : DirInv K taken s live)
    (ht : ∀ x, taken s.env x → taken s'.env x) (ha : s.asid ≤ s'.asid) :
    DirInv K taken s' live where
  ok := h.ok
  apart := h.apart
  taken d hd x hlo hhi := ht x (h.taken d hd x hlo hhi)
  below d hd := lt_of_lt_of_le (h.below d hd) ha

/-- How `bt_mmu_newmap` ends while there is an id left. -/
theorem PageLaw.newmap_spec (law : PageLaw K taken) (room : newPages K s ≠ 0 → s.asid < 256) :
    Prog.Ensures (btMmuNewmap K) s fun hdl s' => (∀ x, taken s.env x → taken s'.env x) ∧
      s.asid ≤ s'.asid ∧ (hdl ≠ 0 → Space.Ok K ⟨hdl, newPages K s⟩ ∧
        (∀ x, Space.table K ⟨hdl, newPages K s⟩ ≤ x →
          x < Space.table K ⟨hdl, newPages K s⟩ + 0x4000 → ¬ taken s.env x ∧ taken s'.env x) ∧
        getAsid hdl = s.asid ∧ s'.asid = s.asid + 1) := by
  have hnext : newPages K s ≠ 0 → wordAdd s.asid 1 = s.asid + 1 := by
    intro hp
    have := room hp
    exact wordAdd_of_lt (by omega)
  refine btMmuNewmap_cases (fun hp => ?_) (fun hp _ => ?_) fun hp _ t _ => ?_
  · exact ⟨fun x hx => law.keep _ _ _ hx, le_refl _, fun h => absurd rfl h⟩
  · refine ⟨fun x hx => law.afterCreate_taken hp (.inl hx), ?_, fun h => absurd rfl h⟩
    rw [afterCreate_asid, hnext hp]
    omega
  · obtain ⟨hal, hle, hend, hfit, -⟩ := law.newTable_spec hp
    -- the id fits below the table, and both can be read back
    obtain ⟨hbase, hid⟩ := handle_parts (b := newTable K s) (by omega) (by omega) (room hp)
    have hb : newBase K s = K.ram.physToVirt (newTable K s) := by
      rw [newBase, hbase]
    have hmod : newBase K s % 256 = 0 := by
      have := K.ram.physToVirt_mod (newTable K s)
      rw [hb]
      omega
    have hlt : newBase K s < 2 ^ 32 := K.ram.physToVirt_lt _
    rw [hid]
    obtain ⟨hpgd, hasid⟩ := handle_parts hmod hlt (room hp)
    have htable : Space.table K ⟨newBase K s ||| s.asid, newPages K s⟩ = newTable K s := by
      rw [Space.table, hpgd, hb]
      exact K.ram.virtToPhys_physToVirt (by omega)
    refine ⟨fun x hx => law.afterCreate_taken hp (.inl hx), ?_, fun _ => ⟨?_, ?_, hasid, hnext hp⟩⟩
    · change s.asid ≤ wordAdd s.asid 1
      rw [hnext hp]
      omega
    · constructor
      · rw [htable]
        exact hal
      · rw [htable]
        exact hle
      · rw [htable]
        exact hend
    · rw [htable]
      intro x hlo hhi
      have hsize : btPageAlign (mmuL1tblSize * 2) = 0x8000 := by decide
      refine ⟨law.fresh _ _ x hp (le_trans hle hlo) ?_, law.afterCreate_taken hp (.inr ⟨hlo, hhi⟩)⟩
      rw [hsize]
      exact lt_of_lt_of_le hhi hend

/-! ## `bt_mmu_terminate`

The loop gives back one page table for each slot of the user part that has one, under the address
that it computes. -/

/-- The tables a log says were given back. -/
def tablesFreed (log : List Event) : List ℕ := log.filterMap fun
  | .ptFree t => some t
  | _ => none

/-- What is given back for the slots `is`. -/
def slotsFreed (s : Machine σ) (pgd : ℕ) (is : List ℕ) : List ℕ :=
  (is.filter fun i => s.dir pgd i ≠ 0).map fun i => s.dir pgd i &&& mmuPteAddress

/-- How the loop of `bt_mmu_terminate` ends. -/
theorem freeTables_spec (is : List ℕ) :
    Prog.Ensures (freeTables K pgd is) s fun _ s' => s'.dir = s.dir ∧ s'.asid = s.asid ∧
      Relation.ReflTransGen (fun e e' => ∃ p, e' = K.cacheFree p e) s.env s'.env ∧
      s'.log = (slotsFreed s pgd is).reverse.map .ptFree ++ s.log := by
  induction is generalizing s with
  | nil => exact Prog.ensures_pure.mpr ⟨rfl, rfl, .refl, rfl⟩
  | cons i is ih =>
    unfold freeTables cacheFree
    simp only [Prog.ensures_bind, Prog.ensures_read, Prog.ensures_when, Prog.ensures_update]
    refine ⟨fun hne => ih.mono fun _ s' h => ?_, fun hz => ih.mono fun _ s' h => ?_⟩
    · obtain ⟨hd, ha, he, hl⟩ := h
      refine ⟨hd, ha, .head ⟨_, rfl⟩ he, ?_⟩
      have hcons : slotsFreed s pgd (i :: is) =
          (s.dir pgd i &&& mmuPteAddress) :: slotsFreed s pgd is := by
        rw [slotsFreed, List.filter_cons_of_pos (by simpa using hne), List.map_cons]
        rfl
      rw [hl, hcons, List.reverse_cons, List.map_append, List.append_assoc]
      rfl
    · obtain ⟨hd, ha, he, hl⟩ := h
      refine ⟨hd, ha, he, ?_⟩
      rw [hl, slotsFreed, slotsFreed, List.filter_cons_of_neg (by simpa using hz)]

/-- How `bt_mmu_terminate` ends. -/
theorem btMmuTerminate_spec (hdl : ℕ) :
    Prog.Ensures (btMmuTerminate K hdl) s fun _ s' => s'.asid = s.asid ∧
      (∃ e, Relation.ReflTransGen (fun e e' => ∃ p, e' = K.cacheFree p e) s.env e ∧
        s'.env = K.pageFree (K.ram.virtToPhys (getPgd hdl)) mmuL1tblSize e) ∧
      s'.log = .pageFree .directory (K.ram.virtToPhys (getPgd hdl)) mmuL1tblSize ::
        ((slotsFreed s (getPgd hdl) (List.range 0xC00)).reverse.map .ptFree ++ s.log) := by
  unfold btMmuTerminate pageFree
  simp only [Prog.ensures_bind, Prog.ensures_update]
  refine (freeTables_spec _).mono fun _ s₁ h => ?_
  obtain ⟨-, ha, he, hl⟩ := h
  refine ⟨ha, ⟨s₁.env, he, rfl⟩, ?_⟩
  rw [Machine.pageReturn_log, hl]
  rfl

/-- The tables `bt_mmu_terminate` gives back. -/
theorem btMmuTerminate_freed (hdl : ℕ) :
    Prog.Ensures (btMmuTerminate K hdl) s fun _ s' =>
      tablesFreed s'.log = (slotsFreed s (getPgd hdl) (List.range 0xC00)).reverse ++
        tablesFreed s.log := by
  refine (btMmuTerminate_spec hdl).mono fun _ s' h => ?_
  obtain ⟨-, -, hlog⟩ := h
  generalize (slotsFreed s (getPgd hdl) (List.range 0xC00)).reverse = ts at hlog ⊢
  rw [hlog, tablesFreed, tablesFreed, List.filterMap_cons_none rfl, List.filterMap_append,
    List.filterMap_map]
  congr 1
  exact List.filterMap_some

/-- What giving tables back does not change. -/
theorem PageLaw.keep_cacheFree (law : PageLaw K taken) {e e' : σ}
    (h : Relation.ReflTransGen (fun e e' => ∃ p, e' = K.cacheFree p e) e e') {x : ℕ}
    (hx : taken e x) : taken e' x := by
  induction h with
  | refl => exact hx
  | tail _ hstep ih =>
    obtain ⟨p, rfl⟩ := hstep
    exact law.cacheFree _ _ _ ih

/-- What getting tables does not change. -/
theorem PageLaw.keep_cacheAlloc (law : PageLaw K taken) {e e' : σ}
    (h : Relation.ReflTransGen (fun e e' => e' = (K.cacheAlloc e).2) e e') {x : ℕ}
    (hx : taken e x) : taken e' x := by
  induction h with
  | refl => exact hx
  | tail _ hstep ih =>
    subst hstep
    exact law.cacheAlloc _ _ ih

/-! ## What a mapping writes to

A mapping writes to the slots of its own directory, so that other address spaces keep theirs. -/

/-- Only the directory `pgd` was written to, and only inside its 16 KB. -/
def OnlyDir (pgd : ℕ) (s s' : Machine σ) : Prop :=
  ∀ b i, s'.dir b i ≠ s.dir b i → b = pgd ∧ i < 4096

/-- Two steps that touch one directory touch only that one. -/
theorem OnlyDir.trans {s₁ s₂ : Machine σ} (h : OnlyDir pgd s s₁) (h' : OnlyDir pgd s₁ s₂) :
    OnlyDir pgd s s₂ := by
  intro b i hne
  by_cases hmid : s₁.dir b i = s.dir b i
  · exact h' b i (by rwa [hmid])
  · exact h b i hmid

/-- A new table is entered into its directory only. -/
theorem tableFor_onlyDir (va k : ℕ) :
    Prog.Ensures (tableFor K pgd va k) s fun _ s' => OnlyDir pgd s s' := by
  refine tableFor_rule (fun _ b i hne => absurd rfl hne) (fun _ _ b i hne => absurd rfl hne)
    fun _ _ b i hne => ?_
  change (s.newTable K pgd va k).dir b i ≠ _ at hne
  by_cases hb : b = pgd
  · subst hb
    by_cases hi : i = pageDir va
    · subst hi
      exact ⟨rfl, by rw [pageDir_eq]; omega⟩
    · exact absurd (Machine.newTable_dir_of_ne hi) hne
  · exact absurd (congrFun (Machine.newTable_dir_other hb) i) hne

theorem mmuMapLoop_onlyDir (flag n k pa va : ℕ) :
    Prog.Ensures (mmuMapLoop K pgd flag n k pa va) s fun _ s' => OnlyDir pgd s s' := by
  induction n generalizing s k pa va with
  | zero => exact Prog.ensures_pure.mpr fun b i hne => absurd rfl hne
  | succ n ih =>
    rw [mmuMapLoop, Prog.ensures_bind]
    refine (tableFor_onlyDir va k).mono fun r s₁ h₁ => ?_
    cases r with
    | none => exact Prog.ensures_pure.mpr h₁
    | some pte =>
      simp only [Prog.ensures_bind, Prog.ensures_update]
      exact (ih _ _ _).mono fun _ s₂ h₂ => h₁.trans h₂

/-- A call of `bt_mmu_map` changes the directory that it is given, and no other. -/
theorem btMmuMap_onlyDir (hdl pa va size type : ℕ) :
    Prog.Ensures (btMmuMap K hdl pa va size type) s fun _ s' => OnlyDir (getPgd hdl) s s' := by
  unfold btMmuMap
  cases typeToPteFlags type with
  | none => exact Prog.ensures_pure.mpr fun b i hne => absurd rfl hne
  | some flag => exact mmuMapLoop_onlyDir ..

/-! ## The address space ids

The counter only grows, so that ids are different until they no longer fit. -/

/-- There is an id left for a directory that gets its pages. -/
def AsidLeft (K : Kernel σ) (s : Machine σ) : Prop := newPages K s ≠ 0 → s.asid < 256

theorem Space.Apart.symm {d d' : Space} (h : d.Apart K d') : d'.Apart K d :=
  ⟨h.1.symm, h.2.symm⟩

/-- The invariant holds in every state of a run. -/
theorem DirReach.inv (law : PageLaw K taken) {live : List Space}
    (h : DirReach K (AsidLeft K) s live) :
    DirInv K taken s live := by
  induction h with
  | boot _ => exact ⟨nofun, .nil, nofun, nofun⟩
  | refused _ room run ih =>
    obtain ⟨ht, ha, -⟩ := (law.newmap_spec room).yields _ _ run
    exact ih.keep ht ha
  | @newmap s s' live hdl _ room run hne ih =>
    obtain ⟨ht, ha, hmade⟩ := (law.newmap_spec room).yields _ _ run
    obtain ⟨hok, hnew, hasid, hnext⟩ := hmade hne
    have hkept := ih.keep ht ha
    refine ⟨List.forall_mem_cons.mpr ⟨hok, ih.ok⟩, List.pairwise_cons.mpr ⟨?_, ih.apart⟩,
      List.forall_mem_cons.mpr ⟨fun x hlo hhi => (hnew x hlo hhi).2, hkept.taken⟩,
      List.forall_mem_cons.mpr ⟨by rw [hasid, hnext]; omega, hkept.below⟩⟩
    intro d hd
    have hbelow := ih.below d hd
    refine ⟨?_, ?_⟩
    · -- if the tables overlapped, the first address of the overlap would be taken and free
      by_contra hover
      refine (hnew (max (Space.table K ⟨hdl, newPages K s⟩) (d.table K)) (by omega) (by omega)).1 ?_
      exact ih.taken d hd _ (by omega) (by omega)
    · change getAsid hdl ≠ _
      omega
  | map pa va size type _ _ run ih =>
    have hframe := (btMmuMap_frame ..).yields _ _ run
    exact ih.keep (fun x hx => law.keep_cacheAlloc hframe.env hx) hframe.asid.ge
  | @terminate s s' before after d _ run ih =>
    obtain ⟨ha, ⟨e, he, henv⟩, -⟩ := (btMmuTerminate_spec _).yields _ _ run
    have hsub : (before ++ after).Sublist (before ++ d :: after) :=
      List.Sublist.append_left (List.sublist_cons_self _ _) _
    have hapart : ∀ d' ∈ before ++ after, d'.Apart K d := by
      have hpair := List.pairwise_append.mp ih.apart
      intro d' hd'
      rcases List.mem_append.mp hd' with hb | hb
      · exact hpair.2.2 d' hb d (List.mem_cons_self ..)
      · exact ((List.pairwise_cons.mp hpair.2.1).1 d' hb).symm
    refine ⟨fun d' hd' => ih.ok d' (hsub.subset hd'), ih.apart.sublist hsub,
      fun d' hd' x hlo hhi => ?_, fun d' hd' => by rw [ha]; exact ih.below d' (hsub.subset hd')⟩
    have hx := law.keep_cacheFree he (ih.taken d' (hsub.subset hd') x hlo hhi)
    have hsep := (hapart d' hd').1
    have hlen : btPageAlign mmuL1tblSize = 0x4000 := by decide
    rw [henv]
    refine law.free _ _ _ _ hx ?_
    rw [hlen]
    change x < d.table K ∨ d.table K + 0x4000 ≤ x
    omega

/-- **Address space ids do not collide** in any run in which there is an id left each
time a directory is made. Every live handle leads to its own 16 KB-aligned table inside
the pages allocated for it; the tables do not overlap and the ids differ; and mapping
through a handle writes to no other table. -/
theorem asids_distinct (law : PageLaw K taken) {live : List Space}
    (h : DirReach K (AsidLeft K) s live) :
    (∀ d ∈ live, d.Ok K ∧
      (K.ram.virt % 0x4000 = K.ram.phys % 0x4000 → getPgd d.hdl % 0x4000 = 0)) ∧
    live.Pairwise (Space.Apart K) ∧
    ∀ d ∈ live, ∀ pa va size type r s', btMmuMap K d.hdl pa va size type s = some (r, s') →
      OnlyDir (getPgd d.hdl) s s' := by
  have hinv := h.inv law
  refine ⟨fun d hd => ⟨hinv.ok d hd, fun hram => ?_⟩, hinv.apart,
    fun d _ pa va size type r s' run => ?_⟩
  · have hal := (hinv.ok d hd).aligned
    have hlt := K.ram.virt_lt
    have hpgd := getPgd_eq d.hdl
    unfold Space.table RamConfig.virtToPhys at hal
    omega
  · exact (btMmuMap_onlyDir ..).yields _ _ run

/-- The pages `ramKernel` has handed out: those below the next one. -/
def ramPages (e : Stock) (x : ℕ) : Prop := x < e.page

/-- Pages are given upwards, and stay where they are. -/
theorem ramKernel_pages : PageLaw ramKernel ramPages where
  aligned n e := by
    unfold ramKernel
    dsimp only
    split
    · rfl
    · dsimp only
      omega
  fits n e h := by
    unfold ramKernel at *
    dsimp only at *
    split at h
    · exact absurd rfl h
    · rw [if_neg ‹_›]
      dsimp only
      omega
  fresh n e x h hlo hhi := by
    unfold ramKernel ramPages at *
    dsimp only at *
    split at h
    · exact absurd rfl h
    · rw [if_neg ‹_›] at hlo
      dsimp only at hlo
      omega
  take n e x h hlo hhi := by
    unfold ramKernel ramPages at *
    dsimp only at *
    split at h
    · exact absurd rfl h
    · rw [if_neg ‹_›] at hhi ⊢
      exact hhi
  keep n e x h := by
    unfold ramKernel ramPages at *
    dsimp only at *
    split
    · exact h
    · dsimp only
      omega
  free p n e x h _ := h
  cacheAlloc e x h := by
    unfold ramKernel ramPages at *
    dsimp only at *
    split
    · exact h
    · exact h
  cacheFree p e x h := h

/-- `ramKernel` takes no pages back. -/
theorem ramKernel_afterCreate (s : Machine Stock) :
    (afterCreate ramKernel s).env = (ramKernel.pageAlloc (mmuL1tblSize * 2) s.env).2 := by
  have hfree : ∀ p n e, ramKernel.pageFree p n e = e := fun _ _ _ => rfl
  unfold afterCreate
  simp only [Machine.setAsid_env, Machine.pageReturn_env, hfree]
  split
  · rw [Machine.pageReturn_env, hfree, Machine.pageCall_env]
  · rw [Machine.pageCall_env]

/-- What `ramKernel` makes of the next directory. -/
theorem ramKernel_newmap {s : Machine Stock} {k : ℕ} (hk : k ≤ 256) (hasid : s.asid = k)
    (hpage : s.env.page = 0x10000000 + k * 0x8000) :
    Prog.Ensures (btMmuNewmap ramKernel) s fun hdl s' => hdl = 0xC0000000 + k * 0x8000 + k ∧
      s'.asid = k + 1 ∧ s'.env.page = 0x10000000 + (k + 1) * 0x8000 := by
  have hround : (0x10000000 + k * 0x8000 + 0x3FFF) % 2 ^ 32 / 0x4000 * 0x4000 =
      0x10000000 + k * 0x8000 := by omega
  have hal : (0x10000000 + k * 0x8000) % 2 ^ 14 = 0 := by omega
  have hmove : ((0x10000000 + k * 0x8000 + k) % 2 ^ 32 / 256 * 256 + 2 ^ 32 - 0x10000000 +
      0xC0000000) % 2 ^ 32 = 0xC0000000 + k * 0x8000 + k / 256 * 256 := by
    have h₁ : (0x10000000 + k * 0x8000 + k) % 2 ^ 32 = 0x10000000 + k * 0x8000 + k := by omega
    have h₂ : (0x10000000 + k * 0x8000 + k) / 256 = 0x100000 + k * 128 + k / 256 := by omega
    rw [h₁, h₂]
    omega
  have hid : (0x10000000 + k * 0x8000 + k) % 256 = k % 256 := by omega
  have hal' : (0xC0000000 + k * 0x8000 + k / 256 * 256) % 2 ^ 8 = 0 := by omega
  have hsum : 0xC0000000 + k * 0x8000 + k / 256 * 256 + k % 256 = 0xC0000000 + k * 0x8000 + k := by
    omega
  have hlow : k % 256 < 256 := Nat.mod_lt _ (by decide)
  have hnext : 0x10000000 + k * 0x8000 + 0x8000 = 0x10000000 + (k + 1) * 0x8000 := by ring
  have hne : 0x10000000 + k * 0x8000 ≠ 0 := by omega
  have hne' : 0x10000000 + k * 0x8000 + k ≠ 0 := by omega
  have hsize : btPageAlign (mmuL1tblSize * 2) = 0x8000 := by decide
  have hcall : (ramKernel.pageAlloc (mmuL1tblSize * 2) s.env).1 = s.env.page ∧
      (ramKernel.pageAlloc (mmuL1tblSize * 2) s.env).2.page = s.env.page + 0x8000 := by
    have hroom : ¬ (mmuL1tblSize * 2 = 0 ∨ s.env.page = 0 ∨ s.env.page % 4096 ≠ 0 ∨
        0x30000000 < s.env.page + btPageAlign (mmuL1tblSize * 2)) := by
      have : mmuL1tblSize * 2 ≠ 0 := by decide
      omega
    unfold ramKernel
    dsimp only
    rw [if_neg hroom, hsize]
    exact ⟨rfl, rfl⟩
  have hp : newPages ramKernel s = 0x10000000 + k * 0x8000 := by
    rw [newPages, hcall.1, hpage]
  have ht : newTable ramKernel s = 0x10000000 + k * 0x8000 := by
    rw [newTable, hp, pgdAlign_eq, hround]
  have hor : newTable ramKernel s ||| s.asid = 0x10000000 + k * 0x8000 + k := by
    rw [ht, hasid, lor_of_aligned (k := 14) hal (by omega)]
  have hbase : newBase ramKernel s = 0xC0000000 + k * 0x8000 + k / 256 * 256 := by
    have hphys : ramKernel.ram.phys = 0x10000000 := rfl
    have hvirt : ramKernel.ram.virt = 0xC0000000 := rfl
    rw [newBase, hor, getPgd_eq, RamConfig.physToVirt, hphys, hvirt, hmove]
  have hhdl : newBase ramKernel s ||| getAsid (newTable ramKernel s ||| s.asid) =
      0xC0000000 + k * 0x8000 + k := by
    rw [hor, hbase, getAsid_eq, hid, lor_of_aligned (k := 8) hal' hlow, hsum]
  have henv : (afterCreate ramKernel s).env.page = 0x10000000 + (k + 1) * 0x8000 := by
    rw [ramKernel_afterCreate, hcall.2, hpage, hnext]
  refine btMmuNewmap_cases (fun h0 => absurd (hp.symm.trans h0) hne)
    (fun _ h0 => absurd (hor.symm.trans h0) hne') fun _ _ t _ => ⟨hhdl, ?_, ?_⟩
  · rw [Machine.setDir_asid, Machine.setDir_asid, afterCreate_asid, hasid]
    exact wordAdd_of_lt (by omega)
  · rw [Machine.setDir_env, Machine.setDir_env]
    exact henv

/-- Two directories, one after the other. -/
theorem asids_distinct_two : ∃ (s : Machine Stock) (d d' : Space),
    DirReach ramKernel (AsidLeft ramKernel) s [d', d] ∧ d'.Apart ramKernel d := by
  obtain ⟨h₁, s₁, hrun₁, rfl, ha₁, hp₁⟩ := ramKernel_newmap (k := 0)
    (s := bootMachine ⟨10, 10, 0x10000000, 0x10100000, 10⟩) (by decide) rfl rfl
  obtain ⟨h₂, s₂, hrun₂, rfl, ha₂, hp₂⟩ := ramKernel_newmap (by decide) ha₁ hp₁
  have hroom₁ : AsidLeft ramKernel (bootMachine ⟨10, 10, 0x10000000, 0x10100000, 10⟩) := by
    intro _
    change 0 < 256
    decide
  have hroom₂ : AsidLeft ramKernel s₁ := by
    intro _
    rw [ha₁]
    decide
  have hreach := DirReach.newmap (.newmap (.boot rfl) hroom₁ hrun₁ (by decide)) hroom₂ hrun₂
    (by decide)
  have happ := (asids_distinct ramKernel_pages hreach).2.1
  exact ⟨s₂, _, _, hreach, (List.pairwise_cons.mp happ).1 _ (List.mem_singleton_self _)⟩

/-- Every number of directories up to 256 can be made. -/
theorem ramKernel_reach {k : ℕ} (hk : k ≤ 256) : ∃ (s : Machine Stock) (live : List Space),
    DirReach ramKernel (fun _ => True) s live ∧ live.length = k ∧ s.asid = k ∧
      s.env.page = 0x10000000 + k * 0x8000 := by
  induction k with
  | zero => exact ⟨bootMachine ⟨10, 10, 0x10000000, 0x10100000, 10⟩, [], .boot rfl, rfl, rfl, rfl⟩
  | succ k ih =>
    obtain ⟨s, live, hreach, hlength, ha, hp⟩ := ih (by omega)
    obtain ⟨hdl, s', hrun, rfl, ha', hp'⟩ := ramKernel_newmap (by omega) ha hp
    exact ⟨s', _, .newmap hreach trivial hrun (by omega), congrArg Nat.succ hlength, ha', hp'⟩

/-- The 257th directory: its id is in the way of its table's address. -/
theorem asids_collide : ∃ s live d, DirReach ramKernel (fun _ => True) s (d :: live) ∧
    live.length = 256 ∧ ¬d.Ok ramKernel := by
  obtain ⟨s, live, hreach, hlength, ha, hp⟩ := ramKernel_reach (le_refl 256)
  obtain ⟨hdl, s', hrun, rfl, -, -⟩ := ramKernel_newmap (le_refl 256) ha hp
  have hreach' := DirReach.newmap hreach trivial hrun (by decide)
  refine ⟨s', live, _, hreach', hlength, fun hok => ?_⟩
  have htable : ramKernel.ram.virtToPhys (getPgd (0xC0000000 + 256 * 0x8000 + 256)) =
      0x10800100 := by
    decide +kernel
  have hal := hok.aligned
  rw [Space.table, htable] at hal
  omega

/-! ## The page tables of a directory

What is given back is compared with what was handed out, up to order. -/

/-- The tables the loop of `bt_mmu_map` gets are the directory's, wherever its pages
lead to. -/
theorem mmuMapLoop_grows (law : TableLaw K inUse) (hB : B ≤ 4096) (flag n k pa va : ℕ)
    (h : DirOk K inUse B pgd s) (hvend : va + n * 4096 ≤ B * 2 ^ 20) :
    Prog.Ensures (mmuMapLoop K pgd flag n k pa va) s fun _ s' => DirGrows K inUse B pgd s s' := by
  induction n generalizing s k pa va with
  | zero => exact Prog.ensures_pure.mpr (.of_eq h rfl (fun _ ht => ht) rfl)
  | succ n ih =>
    have hdir : pageDir va < B := by
      rw [pageDir_eq]
      omega
    have hnext : wordAdd va btPageSize + n * 4096 ≤ B * 2 ^ 20 := by
      unfold wordAdd btPageSize
      omega
    rw [mmuMapLoop, Prog.ensures_bind]
    refine (tableFor_spec law h k hdir).mono fun r s₁ h₁ => ?_
    cases r with
    | none => exact Prog.ensures_pure.mpr h₁.1
    | some pte =>
      simp only [Prog.ensures_bind, Prog.ensures_update]
      have hset : DirGrows K inUse B pgd s₁ (s₁.setPte pte va (pa ||| flag)) :=
        .of_eq h₁.1.ok rfl (fun _ ht => ht) rfl
      exact (ih _ _ _ hset.ok hnext).mono fun _ s₂ h₂ => (h₁.1.trans hset).trans h₂

/-- The same for `bt_mmu_map` on a range of user addresses, aligned or not. -/
theorem btMmuMap_grows (law : TableLaw K inUse) {hdl va size : ℕ} (pa type : ℕ)
    (h : DirOk K inUse 0xC00 (getPgd hdl) s) (huser : va + size ≤ btMmUserLimit) :
    Prog.Ensures (btMmuMap K hdl pa va size type) s fun _ s' =>
      DirGrows K inUse 0xC00 (getPgd hdl) s s' := by
  have hlim : btMmUserLimit = 0xC0000000 := rfl
  have hend : btPageTrunc va + btPageAlign size / btPageSize * 4096 ≤ 0xC00 * 2 ^ 20 := by
    rw [btPageTrunc_eq (by omega), btPageAlign_eq, btPageSize]
    omega
  unfold btMmuMap
  cases typeToPteFlags type with
  | none => exact Prog.ensures_pure.mpr (.of_eq h rfl (fun _ ht => ht) rfl)
  | some flag => exact mmuMapLoop_grows law (by decide) _ _ _ _ _ h hend

/-- The states calls of `bt_mmu_map` for user addresses of a new directory lead to, with
the tables that were handed out for it. -/
inductive UserReach (K : Kernel σ) (hdl : ℕ) : Machine σ → List ℕ → Prop
  | newmap {s s' : Machine σ} (empty : ∀ i < 0xC00, s.dir K.mmuTable i = 0)
    (run : btMmuNewmap K s = some (hdl, s')) (ok : hdl ≠ 0) : UserReach K hdl s' []
  | map {s s' : Machine σ} {ts new : List ℕ} {r : ℤ} (pa va size type : ℕ)
    (reach : UserReach K hdl s ts) (user : va + size ≤ btMmUserLimit)
    (run : btMmuMap K hdl pa va size type s = some (r, s'))
    (log : tablesTaken s'.log = new ++ tablesTaken s.log) : UserReach K hdl s' (new ++ ts)

/-- A new directory has nothing in its user part if the kernel's has nothing there. -/
theorem btMmuNewmap_empty (hempty : ∀ i < 0xC00, s.dir K.mmuTable i = 0) :
    Prog.Ensures (btMmuNewmap K) s fun hdl s' =>
      hdl ≠ 0 → ∀ i < 0xC00, s'.dir (getPgd hdl) i = 0 := by
  refine btMmuNewmap_cases (fun _ h => absurd rfl h) (fun _ _ h => absurd rfl h)
    fun _ _ t ht _ i hi => ?_
  have hmod : newBase K s % 256 = 0 := by
    have h₁ := K.ram.physToVirt_mod (getPgd (newTable K s ||| s.asid))
    rw [getPgd_eq] at h₁
    rw [newBase, getPgd_eq]
    omega
  have hid : getAsid (newTable K s ||| s.asid) < 256 := by
    rw [getAsid_eq]
    exact Nat.mod_lt _ (by decide)
  rw [(handle_parts hmod (K.ram.physToVirt_lt _) hid).1, Machine.setDir_dir, Function.update_self]
  rcases ht i with h0 | hk
  · exact h0
  · rw [hk, hempty i hi]

/-- In every state the directory is in order, and its tables are those handed out. -/
theorem UserReach.inv (law : TableLaw K inUse) {hdl : ℕ} {ts : List ℕ} (h : UserReach K hdl s ts) :
    DirOk K inUse 0xC00 (getPgd hdl) s ∧ (s.dirTables K 0xC00 (getPgd hdl)).Perm ts := by
  induction h with
  | newmap empty run ok =>
    have hz := (btMmuNewmap_empty empty).yields _ _ run ok
    refine ⟨.of_empty hz, ?_⟩
    rw [Machine.dirTables, List.filter_eq_nil_iff.mpr fun i
      hi => by simp [hz i (List.mem_range.mp hi)]]
    exact .refl _
  | map pa va size type _ user run log ih =>
    have hg := (btMmuMap_grows law pa type ih.1 user).yields _ _ run
    obtain ⟨new, hp, hl⟩ := hg.tables
    obtain rfl := List.append_cancel_right (hl.symm.trans log)
    exact ⟨hg.ok, hp.trans (ih.2.append_left _)⟩

/-- The address lies in the RAM, from `BT_CONFIG_RAM_VIRT` on. -/
def InRam (K : Kernel σ) (t : ℕ) : Prop :=
  K.ram.virt ≤ t ∧ t - K.ram.virt + K.ram.phys < 2 ^ 32

/-- `bt_mmu_terminate` gives back to the cache exactly the given tables, each once. -/
def TerminateReturns (K : Kernel σ) (hdl : ℕ) (ts : List ℕ) (s : Machine σ) : Prop :=
  Prog.Ensures (btMmuTerminate K hdl) s fun _ s' => ∃ freed,
    tablesFreed s'.log = freed ++ tablesFreed s.log ∧ freed.Perm ts ∧ freed.Nodup

/-- What is given back are the physical addresses of the directory's tables. -/
theorem slotsFreed_eq : slotsFreed s pgd (List.range B) =
    (s.dirTables K B pgd).map K.ram.virtToPhys := by
  rw [slotsFreed, Machine.dirTables, List.map_map]
  refine List.map_congr_left fun i _ => ?_
  rw [Function.comp, Machine.tableAt, K.ram.virtToPhys_physToVirt]
  · rfl
  · exact lt_of_le_of_lt Nat.and_le_right (by decide)

/-- No two slots have the same table. -/
theorem DirOk.nodup_dirTables (h : DirOk K inUse B pgd s) : (s.dirTables K B pgd).Nodup := by
  refine List.Nodup.map_on (fun i hi j hj he => ?_) (List.nodup_range.filter _)
  simp only [List.mem_filter, List.mem_range, decide_eq_true_eq] at hi hj
  exact h.inj i hi.1 j hj.1 hi.2 hj.2 he

theorem DirOk.mem_dirTables (h : DirOk K inUse B pgd s) {t : ℕ} (ht : t ∈ s.dirTables K B pgd) :
    inUse s.env t ∧ t < 2 ^ 32 := by
  obtain ⟨i, hi, rfl⟩ := List.mem_map.mp ht
  simp only [List.mem_filter, List.mem_range, decide_eq_true_eq] at hi
  exact ⟨h.used i hi.1 hi.2, K.ram.physToVirt_lt _⟩

/-- Moving all members of a list by the same distance, without wrap-around, and getting
the same members: the distance is `0`, or there are none. -/
theorem eq_of_perm_translate {a b : ℕ} {ts : List ℕ} {f : ℕ → ℕ}
    (hf : ∀ t ∈ ts, b ≤ t ∧ f t = t - b + a) (hp : (ts.map f).Perm ts) : a = b ∨ ts = [] := by
  have hsum : ∀ us : List ℕ, (∀ t ∈ us, b ≤ t ∧ f t = t - b + a) →
      (us.map f).sum + us.length * b = us.sum + us.length * a := by
    intro us hus
    induction us with
    | nil => simp
    | cons t us ih =>
      obtain ⟨ht, hus⟩ := List.forall_mem_cons.mp hus
      have := ih hus
      simp only [List.map_cons, List.sum_cons, List.length_cons, Nat.succ_mul]
      omega
  have h := hsum ts hf
  rw [hp.sum_eq] at h
  have hmul : ts.length * b = ts.length * a := Nat.add_left_cancel h
  rcases Nat.eq_zero_or_pos ts.length with h0 | hpos
  · exact .inr (List.length_eq_zero_iff.mp h0)
  · exact .inl (Nat.eq_of_mul_eq_mul_left hpos hmul).symm

/-- Tables in the RAM are their own physical addresses, in some order, exactly if addresses are
not translated, or if there are none. -/
theorem physTables_perm_iff {ts : List ℕ} (h : ∀ t ∈ ts, InRam K t ∧ t < 2 ^ 32) :
    (ts.map K.ram.virtToPhys).Perm ts ↔ K.ram.phys = K.ram.virt ∨ ts = [] := by
  constructor
  · refine eq_of_perm_translate (f := K.ram.virtToPhys) fun t ht => ?_
    obtain ⟨⟨hlo, hhi⟩, -⟩ := h t ht
    refine ⟨hlo, ?_⟩
    unfold RamConfig.virtToPhys
    omega
  · rintro (he | rfl)
    · have hsame : ts.map K.ram.virtToPhys = ts := by
        refine (List.map_congr_left fun t ht => ?_).trans (List.map_id ts)
        obtain ⟨-, hlt⟩ := h t ht
        have := K.ram.virt_lt
        rw [RamConfig.virtToPhys, he, id]
        omega
      rw [hsame]
    · exact .refl _

/-- **When `bt_mmu_terminate` returns what `bt_mmu_map` took.** After any calls of
`bt_mmu_map` for user addresses of a new directory, the tables that were handed out for
it go back to the cache exactly if physical and virtual addresses are the same, or
there are none. -/
theorem terminate_returns_iff (law : TableLaw K inUse) (hram : ∀ e t, inUse e t → InRam K t)
    {hdl : ℕ} {ts : List ℕ} (h : UserReach K hdl s ts) :
    TerminateReturns K hdl ts s ↔ K.ram.phys = K.ram.virt ∨ ts = [] := by
  obtain ⟨ok, hperm⟩ := h.inv law
  have hmem : ∀ t ∈ ts, InRam K t ∧ t < 2 ^ 32 := by
    intro t ht
    obtain ⟨hu, hlt⟩ := ok.mem_dirTables (hperm.mem_iff.mpr ht)
    exact ⟨hram _ _ hu, hlt⟩
  -- what is given back, up to the order
  have hfreed : (slotsFreed s (getPgd hdl) (List.range 0xC00)).reverse.Perm
      (ts.map K.ram.virtToPhys) := by
    rw [slotsFreed_eq (K := K)]
    exact (List.reverse_perm _).trans (hperm.map _)
  rw [← physTables_perm_iff hmem]
  constructor
  · intro hret
    obtain ⟨u, s', hrun, freed, hlog, hp, -⟩ := hret
    have hlog' := (btMmuTerminate_freed hdl).yields _ _ hrun
    obtain rfl := List.append_cancel_right (hlog'.symm.trans hlog)
    exact hfreed.symm.trans hp
  · intro hsame
    have hback := hfreed.trans hsame
    refine (btMmuTerminate_freed hdl).mono fun _ s' hs => ⟨_, hs, hback, ?_⟩
    exact hback.nodup_iff.mpr (hperm.nodup_iff.mp ok.nodup_dirTables)

/-- `ramKernel` where virtual addresses are physical addresses. -/
def flatKernel : Kernel Stock := { ramKernel with ram := identityRam }

theorem flatKernel_tables : TableLaw flatKernel ramTables :=
  ⟨ramKernel_tables.fresh, ramKernel_tables.aligned, ramKernel_tables.lt, ramKernel_tables.use,
    ramKernel_tables.keep⟩

theorem flatKernel_ram (e : Stock) (t : ℕ) (ht : ramTables e t) : InRam flatKernel t := by
  refine ⟨Nat.zero_le _, ?_⟩
  change t - 0 + 0 < 2 ^ 32
  have := ht.2
  omega

/-- One directory with one mapped page, from its creation to its end: the handle, and the
tables that were handed out and given back. -/
def oneTable (K : Kernel Stock) : Prog (Machine Stock) (ℕ × List ℕ × List ℕ × List ℕ × List ℕ) := do
  let hdl ← btMmuNewmap K
  let old ← Prog.read fun s => tablesTaken s.log
  let _ ← btMmuMap K hdl 0x10000000 0x1000 4096 btPageWrite
  let took ← Prog.read fun s => tablesTaken s.log
  let before ← Prog.read fun s => tablesFreed s.log
  btMmuTerminate K hdl
  let gave ← Prog.read fun s => tablesFreed s.log
  pure (hdl, old, took, before, gave)

/-- The state before `bt_mmu_terminate` in such a run. -/
theorem oneTable_run {K : Kernel Stock} {e : Stock} {hdl : ℕ} {took gave : List ℕ}
    (hok : ((oneTable K) (bootMachine e)).map Prod.fst = some (hdl, [], took, [], gave))
    (hne : hdl ≠ 0) : ∃ s s', UserReach K hdl s took ∧ tablesFreed s.log = [] ∧
      btMmuTerminate K hdl s = some ((), s') ∧ tablesFreed s'.log = gave := by
  obtain ⟨⟨res, s₆⟩, hrun, rfl⟩ := Option.map_eq_some_iff.mp hok
  obtain ⟨h, s₁, hnew, hrun₁⟩ := Prog.bind_eq_some hrun
  obtain ⟨old, s₁', hold, hrun₂⟩ := Prog.bind_eq_some hrun₁
  obtain ⟨r, s₂, hmap, hrun₃⟩ := Prog.bind_eq_some hrun₂
  obtain ⟨took', s₂', htook, hrun₄⟩ := Prog.bind_eq_some hrun₃
  obtain ⟨before, s₂'', hbefore, hrun₅⟩ := Prog.bind_eq_some hrun₄
  obtain ⟨u, s₃, hterm, hrun₆⟩ := Prog.bind_eq_some hrun₅
  obtain ⟨gave', s₃', hgave, hret⟩ := Prog.bind_eq_some hrun₆
  have hout := (Prod.mk.inj (Option.some.inj hret)).1
  simp only [Prod.mk.injEq] at hout
  obtain ⟨rfl, rfl, rfl, rfl, rfl⟩ := hout
  obtain ⟨hnone, rfl⟩ := Prod.mk.inj (Option.some.inj hold)
  obtain ⟨rfl, rfl⟩ := Prod.mk.inj (Option.some.inj htook)
  obtain ⟨hzero, rfl⟩ := Prod.mk.inj (Option.some.inj hbefore)
  refine ⟨s₂, s₃, ?_, hzero, hterm, (Prod.mk.inj (Option.some.inj hgave)).1⟩
  have hnone : tablesTaken s₁.log = [] := hnone
  have hreach := UserReach.map 0x10000000 0x1000 4096 btPageWrite
    (.newmap (fun _ _ => rfl) hnew hne) (by decide) hmap
    (by rw [hnone, List.append_nil] : tablesTaken s₂.log = tablesTaken s₂.log ++ tablesTaken s₁.log)
  rwa [List.append_nil] at hreach

/-- On a board where addresses are not translated, the one table goes back. -/
theorem terminate_returns_flat : ∃ (s : Machine Stock) (hdl : ℕ),
    UserReach flatKernel hdl s [0xC8002800] ∧ TerminateReturns flatKernel hdl [0xC8002800] s := by
  have hok : ((oneTable flatKernel) (bootMachine ⟨10, 10, 0x10000000, 0x10100000, 10⟩)).map Prod.fst
      =
      some (0x10000000, [], [0xC8002800], [], [0xC8002800]) := by
    decide +kernel
  obtain ⟨s, s', hreach, -⟩ := oneTable_run hok (by decide)
  exact ⟨s, _, hreach, (terminate_returns_iff flatKernel_tables flatKernel_ram hreach).mpr
    (.inl rfl)⟩

/-- On a board where they are, something else does. -/
theorem terminate_returns_foreign : ∃ s, UserReach ramKernel 0xC0000000 s [0xC8002800] ∧
    ¬TerminateReturns ramKernel 0xC0000000 [0xC8002800] s := by
  have hok : ((oneTable ramKernel) (bootMachine ⟨10, 10, 0x10000000, 0x10100000, 10⟩)).map Prod.fst
      =
      some (0xC0000000, [], [0xC8002800], [], [0x18002800]) := by
    decide +kernel
  obtain ⟨s, s', hreach, hbefore, hterm, hgave⟩ := oneTable_run hok (by decide)
  refine ⟨s, hreach, fun hreturns => ?_⟩
  obtain ⟨u, s'', hrun, freed, hlog, hperm, -⟩ := hreturns
  obtain ⟨-, rfl⟩ := Prod.mk.inj (Option.some.inj (hterm.symm.trans hrun))
  rw [hgave, hbefore, List.append_nil] at hlog
  subst hlog
  exact absurd (List.perm_singleton.mp hperm) (by decide)

end BitThunder
