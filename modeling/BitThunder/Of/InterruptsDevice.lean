import BitThunder.Of.InterruptsRun

/-!
# The interrupts that a device gets

`bt_of_irq_map_one` and `bt_of_irq_count`. The loop that is to copy the specifier of an interrupt
returns after its first cell, so that only specifiers of one cell come out; a controller whose
interrupts have no cells is not seen to be one; and an interrupt whose number is `0` is taken for
none.

* `mapsRight_iff`: when a device gets an interrupt;
* `countsRight_iff`: when its interrupts are counted;
* `irq_interrupts_iff`: both.

The result is put together from both ends. From the device it is seen where the loop of
`bt_of_irq_map_raw` begins, and that the cells it is given are those of the interrupt; from there
`Of.InterruptsRun` has what the loop comes to. What is left is the array that the cells are to be
written to. The loop over it returns in its first round, so that an interrupt of one cell comes out
as it is, and of any other the cells behind the first are what was in the array before.

Counting goes through the same function, one index after the other, and stops at the first number
that is `0`. So the count is the place of the first such interrupt if there is one, and the exact
condition says that there is none.
-/

namespace BitThunder

/-- `out_irq` has the controller and all cells of the specifier. -/
structure BtOfIrq.Holds {n : ℕ} (o : BtOfIrq n) (r : Fin n × List UInt32) : Prop where
  /-- the controller is the right one -/
  controller : o.controller = r.1
  /-- it is said how many cells there are -/
  size : o.size.toNat = r.2.length
  /-- and these are there, as far as the array goes -/
  specifier : ∀ (i : ℕ) (c : UInt32), r.2[i]? = some c → ∃ h : i < 4, o.specifier ⟨i, h⟩ = c

namespace IrqTree

variable {n : ℕ} (tree : IrqTree n)

/-- `BT_ERR_NONE` is returned exactly with what the interrupt stands for, and nothing is read behind
a property. -/
def Right (device : Fin n) (index : UInt32) : IrqResult n → Prop
  | .fault => False
  | .errGeneric => ∀ r, ¬tree.Standard device index r
  | .errNone o => ∃ r, tree.Standard device index r ∧ o.Holds r

/-- `bt_of_irq_map_one` is right, whatever was in `out_irq`. -/
def MapsRight (device : Fin n) (index : UInt32) : Prop :=
  ∀ out, ∃ k r, tree.btOfIrqMapOne true k device index out = some r ∧ tree.Right device index r

/-- `bt_of_irq_count` counts the specifiers of a device whose interrupts all resolve. -/
def CountsRight (device : Fin n) (count : ℕ) : Prop :=
  (∀ index : UInt32, index.toNat < count → ∃ r, tree.Standard device index r) →
    ∀ oirq, ∃ k, tree.btOfIrqCount true k device oirq = some (some (UInt32.ofNat count))

/-- The links that are followed for an interrupt end. -/
structure LinksEnd (device : Fin n) (index : UInt32) : Prop where
  /-- the search for the interrupt parent of the device ends -/
  parent : ¬LeadsBack tree.Climbs device
  /-- so does that of every node on the way -/
  climbs : ∀ x₀ x, tree.DeviceInterrupt device index x₀ → Relation.ReflTransGen tree.Leads x₀ x →
    ¬LeadsBack tree.Climbs x.node
  /-- and the way from node to node -/
  leads : ∀ x₀, tree.DeviceInterrupt device index x₀ → Acc (fun y x => tree.Leads x y) x₀

/-- The specifiers up to this one are counted in a word, and the maps on the way can be searched. -/
structure PlainAt (device : Fin n) (index : UInt32) : Prop where
  /-- where the specifier ends can be said in a word -/
  word : ∀ p intsize, tree.Has device .interrupts → tree.InterruptParent device p →
    tree.number p .interruptCells = some intsize → (index.toNat + 1) * intsize.toNat < 2 ^ 32
  /-- the maps on the way can be searched -/
  plain : ∀ x₀, tree.DeviceInterrupt device index x₀ → tree.Plain x₀

/-- If the interrupt comes to a controller it has one cell there. -/
def OneCell (device : Fin n) (index : UInt32) : Prop :=
  ∀ r, tree.Standard device index r → r.2.length = 1

/-! ## Reads that are not checked

A function that reads with checks either faults or reads the same cells. So each function of the
code has a lemma: where the checked one has a result, so has the unchecked one, and it is the
same. -/

section Unchecked

variable {tree}

/-- A cell that is there is the same if reads are not checked. -/
theorem read_unchecked {p : CellPointer n} {i c : UInt32} (h : tree.read true p i = some c) :
    tree.read false p i = some c := by
  unfold read at h ⊢
  dsimp only at h ⊢
  cases hprop : tree.btOfGetProperty p.node p.name with
  | none =>
    rw [hprop] at h
    exact nomatch h
  | some prop =>
    rw [hprop] at h
    dsimp only at h ⊢
    rw [if_neg fun hc => Bool.false_ne_true hc.1]
    split_ifs at h with hout
    exact h

theorem maskCell_unchecked {ipar : Fin n} {i c : UInt32} (h : tree.maskCell true ipar i = some c) :
    tree.maskCell false ipar i = some c := by
  unfold maskCell at h ⊢
  split_ifs at h ⊢
  · exact read_unchecked h
  · exact h

theorem cellMatches_unchecked {ipar : Fin n} {imap j i : UInt32} {p : CellPointer n} {b : Bool}
    (h : tree.cellMatches true ipar imap p j i = some b) :
    tree.cellMatches false ipar imap p j i = some b := by
  unfold cellMatches at h ⊢
  simp only [Option.bind_eq_bind, Option.bind_eq_some_iff] at h ⊢
  obtain ⟨mask, hmask, c, hc, m, hm, hb⟩ := h
  exact ⟨mask, maskCell_unchecked hmask, c, read_unchecked hc, m, read_unchecked hm, hb⟩

theorem matchLoop_unchecked {f g : UInt32 → Option Bool} (hfg : ∀ i b, f i = some b → g i = some b)
    {k : ℕ} {i : UInt32} {b : Bool} (h : matchLoop f k i = some b) : matchLoop g k i = some b := by
  induction k generalizing i with
  | zero => exact h
  | succ k ih =>
    rw [matchLoop] at h ⊢
    rcases hi : f i with _ | _ | _
    · rw [hi] at h
      cases h
    · rw [hi] at h
      rw [hfg i _ hi]
      exact h
    · rw [hi] at h
      rw [hfg i _ hi]
      exact ih h

theorem entryMatches_unchecked {x : IrqPosition n} {imap : UInt32} {b : Bool}
    (h : tree.entryMatches true x imap = some b) : tree.entryMatches false x imap = some b := by
  have hunit : ∀ i b, tree.unitMatches true x imap i = some b →
      tree.unitMatches false x imap i = some b := by
    intro i b hb
    unfold unitMatches at hb ⊢
    cases haddr : x.addr with
    | none =>
      rw [haddr] at hb
      exact hb
    | some addr =>
      rw [haddr] at hb
      exact cellMatches_unchecked hb
  unfold entryMatches at h ⊢
  rcases hloop : matchLoop (tree.unitMatches true x imap) x.addrsize.toNat 0 with _ | _ | _
  · rw [hloop] at h
    exact nomatch h
  · rw [hloop] at h
    rw [matchLoop_unchecked hunit hloop]
    exact h
  · rw [hloop] at h
    rw [matchLoop_unchecked hunit hloop]
    exact matchLoop_unchecked (fun i b => cellMatches_unchecked) h

theorem readEntry_unchecked {x : IrqPosition n} {imap imaplen : UInt32} {r : Option (MapEntry n)}
    (h : tree.readEntry true x imap imaplen = some r) :
    tree.readEntry false x imap imaplen = some r := by
  unfold readEntry at h ⊢
  dsimp only at h ⊢
  cases hread : tree.read true ⟨x.ipar, .interruptMap, imap + (x.addrsize + x.intsize)⟩ 0 with
  | none =>
    rw [hread] at h
    exact nomatch h
  | some phandle =>
    rw [hread] at h
    rw [read_unchecked hread]
    exact h

/-- A round of the search that faults nowhere is the same. -/
theorem mapRound_unchecked {x : IrqPosition n} {e : UInt32 × UInt32}
    {r : MapEnd n ⊕ (UInt32 × UInt32)} (h : tree.mapRound true x e = r) (hr : r ≠ .inl .fault) :
    tree.mapRound false x e = r := by
  unfold mapRound at h ⊢
  split_ifs at h ⊢
  · cases hmatch : tree.entryMatches true x e.1 with
    | none =>
      rw [hmatch] at h
      exact absurd h.symm hr
    | some matched =>
      cases hread : tree.readEntry true x e.1 e.2 with
      | none =>
        rw [hmatch, hread] at h
        cases matched <;> exact absurd h.symm hr
      | some entry =>
        rw [hmatch, hread] at h
        rw [entryMatches_unchecked hmatch, readEntry_unchecked hread]
        exact h
  · exact h

theorem mapRawRound_unchecked {out : BtOfIrq n} {k : ℕ} {x : IrqPosition n}
    {r : IrqResult n ⊕ IrqPosition n} (h : tree.mapRawRound true out k x = some r)
    (hr : r ≠ .inl .fault) :
    tree.mapRawRound false out k x = some r := by
  unfold mapRawRound at h ⊢
  split_ifs at h ⊢
  · cases hread : tree.read true x.intspec 0 with
    | none =>
      rw [hread] at h
      exact absurd (Option.some.inj h).symm hr
    | some cell =>
      rw [hread] at h
      rw [read_unchecked hread]
      exact h
  · exact h
  · cases hscan : rounds (fun e => some (tree.mapRound true x e)) k (tree.mapStart x.ipar) with
    | none =>
      rw [hscan] at h
      exact nomatch h
    | some found =>
      rw [hscan] at h
      have hfound : found ≠ .fault := by
        rintro rfl
        exact hr (Option.some.inj h).symm
      have hstep : ∀ e r, some (tree.mapRound true x e) = some r → r ≠ .inl .fault →
          some (tree.mapRound false x e) = some r :=
        fun e r he hne => congrArg some (mapRound_unchecked (Option.some.inj he) hne)
      rw [rounds_of_ne hstep hfound hscan]
      exact h
  · exact h

/-- Without a fault the reads need not be checked: the code itself comes to the same result. -/
theorem btOfIrqMapOne_unchecked {device : Fin n} {index : UInt32} {out : BtOfIrq n} {k : ℕ}
    {res : IrqResult n} (h : tree.btOfIrqMapOne true k device index out = some res)
    (hres : res ≠ .fault) :
    tree.btOfIrqMapOne false k device index out = some res := by
  cases hint : tree.btOfGetProperty device .interrupts with
  | none =>
    unfold btOfIrqMapOne at h ⊢
    rw [hint] at h ⊢
    exact h
  | some interrupts =>
    rcases hfind : tree.btOfIrqFindParent k device with _ | _ | p
    · unfold btOfIrqMapOne at h
      rw [hint, hfind] at h
      exact nomatch h
    · unfold btOfIrqMapOne at h ⊢
      rw [hint, hfind] at h ⊢
      exact h
    · obtain ⟨d, -, -, hp⟩ := findParent_found_iff.mp ⟨k, hfind⟩
      obtain ⟨intsize, hcells⟩ := has_iff.mp hp
      rw [btOfIrqMapOne_loop hint hfind hcells] at h ⊢
      split_ifs at h ⊢
      · exact rounds_of_ne (fun _ _ => mapRawRound_unchecked) hres h
      · exact h

/-- What is right with checked reads is right as it is. -/
theorem MapsRight.unchecked {device : Fin n} {index : UInt32} (h : tree.MapsRight device index)
    (out : BtOfIrq n) :
    ∃ k r, tree.btOfIrqMapOne false k device index out = some r ∧ tree.Right device index r := by
  obtain ⟨k, r, hk, hr⟩ := h out
  refine ⟨k, r, btOfIrqMapOne_unchecked hk ?_, hr⟩
  rintro rfl
  exact hr

end Unchecked

section Device

variable {tree} {device : Fin n} {index : UInt32} {out : BtOfIrq n} {r : Fin n × List UInt32}

theorem btOfIrqMapOne_mono {k l : ℕ} (hkl : k ≤ l) {res : IrqResult n}
    (h : tree.btOfIrqMapOne true k device index out = some res) :
    tree.btOfIrqMapOne true l device index out = some res := by
  cases hint : tree.btOfGetProperty device .interrupts with
  | none =>
    unfold btOfIrqMapOne at h ⊢
    rw [hint] at h ⊢
    exact h
  | some interrupts =>
    have hfound : ∃ found, tree.btOfIrqFindParent k device = some found := by
      unfold btOfIrqMapOne at h
      rw [hint] at h
      cases hfind : tree.btOfIrqFindParent k device with
      | none =>
        rw [hfind] at h
        exact nomatch h
      | some found => exact ⟨found, rfl⟩
    obtain ⟨found, hfind⟩ := hfound
    have hfind' := findParent_mono hkl hfind
    cases found with
    | none =>
      unfold btOfIrqMapOne at h ⊢
      rw [hint, hfind] at h
      rw [hint, hfind']
      exact h
    | some p =>
      obtain ⟨d, -, -, hp⟩ := findParent_found_iff.mp ⟨k, hfind⟩
      obtain ⟨intsize, hcells⟩ := has_iff.mp hp
      rw [btOfIrqMapOne_loop hint hfind hcells] at h
      rw [btOfIrqMapOne_loop hint hfind' hcells]
      split_ifs at h ⊢ with hlen
      · exact rounds_mono (fun _ _ => mapRawRound_mono hkl) hkl h
      · exact h

/-- There is one result, however many rounds are given. -/
theorem btOfIrqMapOne_unique {k l : ℕ} {res res' : IrqResult n}
    (h : tree.btOfIrqMapOne true k device index out = some res)
    (h' : tree.btOfIrqMapOne true l device index out = some res') : res = res' :=
  Option.some.inj ((btOfIrqMapOne_mono (Nat.le_max_left k l) h).symm.trans
  (btOfIrqMapOne_mono (Nat.le_max_right k l) h'))

/-! ## The beginning

The specifier of an interrupt is found by its index. The product of the index and the number of
cells is a word, which is why the condition speaks of it. -/

/-- The place of a specifier, in words -/
theorem toNat_index {intsize : UInt32} (h : (index.toNat + 1) * intsize.toNat < 2 ^ 32) :
    ((index + 1) * intsize).toNat = (index.toNat + 1) * intsize.toNat ∧
      (index * intsize).toNat = index.toNat * intsize.toNat := by
  have hle : index.toNat * intsize.toNat ≤ (index.toNat + 1) * intsize.toNat :=
    Nat.mul_le_mul_right _ (Nat.le_succ _)
  constructor
  · rw [UInt32.toNat_mul, UInt32.toNat_add, UInt32.toNat_one, Nat.mod_mul_mod]
    exact Nat.mod_eq_of_lt h
  · rw [UInt32.toNat_mul]
    exact Nat.mod_eq_of_lt (hle.trans_lt h)

/-- Without a complete specifier, or a node that it is for, there is an error. -/
theorem mapOne_noInterrupt (hends : ¬LeadsBack tree.Climbs device)
    (hword : ∀ p intsize, tree.Has device .interrupts → tree.InterruptParent device p →
      tree.number p .interruptCells = some intsize → (index.toNat + 1) * intsize.toNat < 2 ^ 32)
    (h : ∀ x, ¬tree.DeviceInterrupt device index x) :
    ∃ k, tree.btOfIrqMapOne true k device index out = some .errGeneric := by
  cases hint : tree.btOfGetProperty device .interrupts with
  | none =>
    refine ⟨0, ?_⟩
    unfold btOfIrqMapOne
    rw [hint]
  | some interrupts =>
    obtain ⟨k, found, hfind⟩ := findParent_ends_iff.mpr hends
    cases found with
    | none =>
      refine ⟨k, ?_⟩
      unfold btOfIrqMapOne
      rw [hint, hfind]
    | some p =>
      have hparent := findParent_found_iff.mp ⟨k, hfind⟩
      obtain ⟨intsize, hcells⟩ := has_iff.mp (hparent.choose_spec.2.2)
      have hnat := hword p intsize (has_of_property hint) hparent hcells
      refine ⟨k, ?_⟩
      rw [btOfIrqMapOne_loop hint hfind hcells, if_neg]
      rw [UInt32.le_iff_toNat_le, (toNat_index hnat).1, toNat_len]
      exact fun hle => h _ ⟨interrupts, p, intsize, hint, hparent, hcells, hle, rfl⟩

/-- The cells at the beginning are those of the interrupt. -/
theorem shows_device {interrupts : IrqProperty} {p : Fin n} {intsize : UInt32}
    (hint : tree.btOfGetProperty device .interrupts = some interrupts)
    (hnat : (index.toNat + 1) * intsize.toNat < 2 ^ 32)
    (hlen : (index.toNat + 1) * intsize.toNat ≤ interrupts.cells.length) :
    Shows tree ⟨p, tree.addrCells p, intsize, ⟨device, .interrupts, index * intsize⟩,
      tree.regPointer device⟩
      ⟨p, (tree.addrCells p).toNat, (tree.btOfGetProperty device .reg).map IrqProperty.cells,
        (interrupts.cells.drop (index.toNat * intsize.toNat)).take intsize.toNat⟩ := by
  rw [Nat.succ_mul] at hlen
  refine ⟨rfl, rfl, ?_, ?_, ?_, ?_⟩
  · dsimp only
    rw [List.length_take, List.length_drop]
    omega
  · dsimp only
    rw [Option.map_eq_none_iff]
    unfold regPointer
    split
    · rename_i hreg
      exact iff_of_false (Option.some_ne_none _) (Option.isSome_iff_ne_none.mp hreg)
    · rename_i hreg
      exact iff_of_true rfl (Option.not_isSome_iff_eq_none.mp hreg)
  · intro q hq i _
    dsimp only at hq ⊢
    unfold regPointer at hq
    split at hq
    · rename_i hreg
      obtain ⟨reg, hreg⟩ := Option.isSome_iff_exists.mp hreg
      obtain rfl := Option.some.inj hq
      rw [read_property hreg, UInt32.zero_add, hreg]
      rfl
    · exact nomatch hq
  · intro i hi
    have hless := UInt32.lt_iff_toNat_lt.mp hi
    dsimp only at hless ⊢
    have hword := interrupts.word
    rw [read_property hint, toNat_add_small
      (by rw [(toNat_index hnat).2]; omega), (toNat_index hnat).2,
      List.getElem?_take_of_lt hless, List.getElem?_drop]

/-- The loop begins where the cells are those of the interrupt. -/
theorem mapOne_begins {x : IrqSource n} (hplain : tree.PlainAt device index)
    (hx : tree.DeviceInterrupt device index x) :
    ∃ y k₀, Shows tree y x ∧ ∀ k, k₀ ≤ k →
      tree.btOfIrqMapOne true k device index out = rounds (tree.mapRawRound true out k) k y := by
  obtain ⟨interrupts, p, intsize, hint, hparent, hcells, hlen, rfl⟩ := hx
  have hnat := hplain.word p intsize (has_of_property hint) hparent hcells
  obtain ⟨k₀, hfind⟩ := findParent_found_iff.mpr hparent
  refine ⟨_, k₀, shows_device hint hnat hlen, fun k hk => ?_⟩
  rw [btOfIrqMapOne_loop hint (findParent_mono hk hfind) hcells, if_pos]
  rw [UInt32.le_iff_toNat_le, (toNat_index hnat).1, toNat_len]
  exact hlen

/-! ## What comes out

An interrupt that resolves with no cell is one that the code takes for unresolved, and one with
several cells comes out with the first. Between them is the one case that is right. -/

/-- An interrupt that stands for nothing -/
theorem mapOne_fails (hends : tree.LinksEnd device index) (hplain : tree.PlainAt device index)
    (h : ∀ r, ¬tree.Standard device index r) :
    ∃ k, tree.btOfIrqMapOne true k device index out = some .errGeneric := by
  by_cases hno : ∀ x, ¬tree.DeviceInterrupt device index x
  · exact mapOne_noInterrupt hends.parent hplain.word hno
  · obtain ⟨x, hx⟩ := not_forall_not.mp hno
    obtain ⟨y, k₀, hshows, hloop⟩ := @mapOne_begins n tree device index out x hplain hx
    obtain ⟨k, hk⟩ := @mapRaw_fails n tree x y out hshows (hplain.plain x hx) (hends.leads x hx)
      (hends.climbs x · hx)
      fun r hr => h r ⟨x, hx, hr⟩
    refine ⟨max k₀ k, ?_⟩
    rw [hloop _ (Nat.le_max_left k₀ k)]
    exact rounds_mono (fun _ _ => mapRawRound_mono (Nat.le_max_right k₀ k))
      (Nat.le_max_right k₀ k) hk

/-- An interrupt with a specifier that has cells -/
theorem mapOne_resolves (hplain : tree.PlainAt device index) (h : tree.Standard device index r)
    {c : UInt32} {cs : List UInt32} (hspec : r.2 = c :: cs) :
    ∃ k o, tree.btOfIrqMapOne true k device index out = some (.errNone o) ∧ o.controller = r.1 ∧
      o.size.toNat = r.2.length ∧ o.specifier = Function.update out.specifier 0 c := by
  obtain ⟨x, hx, z, hz, hc, rfl⟩ := h
  obtain ⟨y, k₀, hshows, hloop⟩ := @mapOne_begins n tree device index out x hplain hx
  obtain ⟨k, o, hk, ho⟩ := @mapRaw_resolves n tree x z y out hshows
    (hplain.plain x hx) hz hc c cs hspec
  refine ⟨max k₀ k, o, ?_, ho⟩
  rw [hloop _ (Nat.le_max_left k₀ k)]
  exact rounds_mono (fun _ _ => mapRawRound_mono (Nat.le_max_right k₀ k)) (Nat.le_max_right k₀ k) hk

/-- Success is never without a cell. -/
theorem mapOne_size (hplain : tree.PlainAt device index) (h : tree.Standard device index r) {k : ℕ}
    {o : BtOfIrq n} (hk : tree.btOfIrqMapOne true k device index out = some (.errNone o)) :
    0 < o.size := by
  obtain ⟨x, hx, -⟩ := h
  obtain ⟨y, k₀, -, hloop⟩ := @mapOne_begins n tree device index out x hplain hx
  have hmax := btOfIrqMapOne_mono (Nat.le_max_right k₀ k) hk
  rw [hloop _ (Nat.le_max_left k₀ k)] at hmax
  exact mapRaw_size hmax

/-- An interrupt is right if it has one cell in the end, and else the other cells are missing. -/
theorem mapsRight_iff (hends : tree.LinksEnd device index) (hplain : tree.PlainAt device index) :
    tree.MapsRight device index ↔ tree.OneCell device index := by
  constructor
  · intro hright r hr
    rcases hspec : r.2 with _ | ⟨c, _ | ⟨d, cs⟩⟩
    · -- there is an error, or a result with cells
      exfalso
      obtain ⟨k, res, hk, hres⟩ := hright ⟨device, 0, fun _ => 0⟩
      cases res with
      | fault => exact hres
      | errGeneric => exact hres r hr
      | errNone o =>
        obtain ⟨r', hr', hholds⟩ := hres
        obtain rfl := hr.unique hr'
        have hsize := UInt32.lt_iff_toNat_lt.mp (mapOne_size hplain hr hk)
        rw [hholds.size, hspec] at hsize
        exact absurd hsize (Nat.lt_irrefl 0)
    · rfl
    · -- the second cell is what it was
      exfalso
      obtain ⟨k, o, hk, -, -, hcells⟩ :=
        @mapOne_resolves n tree device index ⟨device, 0, fun _ => d + 1⟩ r hplain hr c _ hspec
      obtain ⟨l, res, hl, hres⟩ := hright ⟨device, 0, fun _ => d + 1⟩
      obtain rfl := btOfIrqMapOne_unique hk hl
      obtain ⟨r', hr', hholds⟩ := hres
      obtain rfl := hr.unique hr'
      obtain ⟨_, hsecond⟩ := hholds.specifier 1 d (by rw [hspec]; rfl)
      rw [hcells, Function.update_of_ne fun h => Nat.one_ne_zero (Fin.val_eq_of_eq h)] at hsecond
      have hne : d + 1 ≠ d := by grind
      exact hne hsecond
  · intro hone out
    by_cases hno : ∀ r, ¬tree.Standard device index r
    · obtain ⟨k, hk⟩ := @mapOne_fails n tree device index out hends hplain hno
      exact ⟨k, _, hk, hno⟩
    · obtain ⟨r, hr⟩ := not_forall_not.mp hno
      obtain ⟨c, hspec⟩ := List.length_eq_one_iff.mp (hone r hr)
      obtain ⟨k, o, hk, hctrl, hsize, hcells⟩ :=
        @mapOne_resolves n tree device index out r hplain hr c [] hspec
      refine ⟨k, _, hk, r, hr, hctrl, hsize, fun i d hd => ?_⟩
      rw [hspec] at hd
      obtain ⟨hi, hd⟩ := List.getElem?_eq_some_iff.mp hd
      obtain rfl : i = 0 := Nat.lt_one_iff.mp hi
      refine ⟨by decide, ?_⟩
      rw [hcells, ← hd]
      exact Function.update_self ..

/-! ## Counting

The loop goes up from index zero. It is right if it passes all specifiers that are there and stops
at the first that is not, and for this none of the numbers on its way may be zero. -/

variable {oirq : BtOfIrq n} {count : ℕ}

theorem parseAndMap_mono {k l : ℕ} (hkl : k ≤ l) {irq : Option UInt32}
    (h : tree.btOfIrqParseAndMap true k device index oirq = some irq) :
    tree.btOfIrqParseAndMap true l device index oirq = some irq := by
  obtain ⟨res, hres, rfl⟩ := Option.map_eq_some_iff.mp h
  exact Option.map_eq_some_iff.mpr ⟨res, btOfIrqMapOne_mono hkl hres, rfl⟩

theorem parseAndMap_unique {k l : ℕ} {irq irq' : Option UInt32}
    (h : tree.btOfIrqParseAndMap true k device index oirq = some irq)
    (h' : tree.btOfIrqParseAndMap true l device index oirq = some irq') : irq = irq' :=
  Option.some.inj ((parseAndMap_mono (Nat.le_max_left k l) h).symm.trans
  (parseAndMap_mono (Nat.le_max_right k l) h'))

/-- The number of an interrupt is the first cell. -/
theorem parseAndMap_resolves (hplain : tree.PlainAt device index) (h : tree.Standard device index r)
    {c : UInt32} {cs : List UInt32} (hspec : r.2 = c :: cs) :
    ∃ k, tree.btOfIrqParseAndMap true k device index oirq = some (some c) := by
  obtain ⟨k, o, hk, -, -, hcells⟩ := @mapOne_resolves n tree device index oirq r hplain h c cs hspec
  refine ⟨k, Option.map_eq_some_iff.mpr ⟨_, hk, ?_⟩⟩
  dsimp only
  rw [hcells, Function.update_self]

theorem parseAndMap_fails (hends : tree.LinksEnd device index) (hplain : tree.PlainAt device index)
    (h : ∀ r, ¬tree.Standard device index r) :
    ∃ k, tree.btOfIrqParseAndMap true k device index oirq = some (some 0) := by
  obtain ⟨k, hk⟩ := @mapOne_fails n tree device index oirq hends hplain h
  exact ⟨k, Option.map_eq_some_iff.mpr ⟨_, hk, rfl⟩⟩

/-- More rounds within give the same round of the count. -/
theorem countRound_le (k l : ℕ) (nr : UInt32) (res : Option UInt32 ⊕ UInt32) (hkl : k ≤ l)
    (h : tree.countRound true device oirq k nr = some res) :
    tree.countRound true device oirq l nr = some res := by
  obtain ⟨irq, hirq, rfl⟩ := Option.map_eq_some_iff.mp h
  exact Option.map_eq_some_iff.mpr ⟨irq, parseAndMap_mono hkl hirq, rfl⟩

/-- The count goes on as long as there are interrupts that are not `0`. -/
theorem countRound_goes {nr nr' : UInt32} : Goes (tree.countRound true device oirq) nr nr' ↔
    nr' = nr + 1 ∧ ∃ k irq, tree.btOfIrqParseAndMap true k device nr oirq = some (some irq) ∧
      irq ≠ 0 := by
  constructor
  · rintro ⟨k, h⟩
    obtain ⟨_ | irq, hirq, hres⟩ := Option.map_eq_some_iff.mp h
    · exact nomatch hres
    · dsimp only at hres
      split at hres
      · rename_i hne
        exact ⟨(Sum.inr.inj hres).symm, k, irq, hirq, hne⟩
      · exact nomatch hres
  · rintro ⟨rfl, k, irq, hirq, hne⟩
    exact ⟨k, Option.map_eq_some_iff.mpr ⟨_, hirq, if_pos hne⟩⟩

/-- All numbers up to where the count has come are not `0`. -/
theorem count_passed {nr : UInt32}
    (h : Relation.ReflTransGen (Goes (tree.countRound true device oirq)) 0 nr) :
    ∀ i : UInt32, i.toNat < nr.toNat →
      ∃ k irq, tree.btOfIrqParseAndMap true k device i oirq = some (some irq) ∧ irq ≠ 0 := by
  induction h with
  | refl =>
    intro i hi
    exact absurd hi (Nat.not_lt_zero _)
  | @tail m m' _ hgo ih =>
    obtain ⟨rfl, hm⟩ := countRound_goes.mp hgo
    intro i hi
    have hle : (m + 1).toNat ≤ m.toNat + 1 := by
      rw [UInt32.toNat_add, UInt32.toNat_one]
      exact Nat.mod_le _ _
    rcases Nat.lt_or_ge i.toNat m.toNat with hlt | hge
    · exact ih i hlt
    · have heq : i = m := UInt32.toNat_inj.mp (by omega)
      exact heq ▸ hm

theorem HasSpecifiers.lt (h : tree.HasSpecifiers device count) : count < 2 ^ 32 := by
  cases h with
  | noInterrupts _ => exact Nat.two_pow_pos 32
  | noParent _ => exact Nat.two_pow_pos 32
  | @specifiers interrupts p intsize _ _ _ _ =>
    have hword := interrupts.word
    have hdiv := Nat.div_le_self interrupts.cells.length intsize.toNat
    omega

/-- Behind the last complete specifier there is no interrupt. -/
theorem HasSpecifiers.noStandard (h : tree.HasSpecifiers device index.toNat) :
    ¬tree.Standard device index r := by
  rintro ⟨x, ⟨interrupts, p, intsize, hint, hparent, hcells, hlen, rfl⟩, -⟩
  generalize hcount : index.toNat = count at h hlen
  cases h with
  | noInterrupts hno => exact hno (has_of_property hint)
  | noParent hno => exact hno p hparent
  | specifiers hint' hparent' hcells' hpos =>
    obtain rfl := Option.some.inj (hint.symm.trans hint')
    obtain rfl := hparent.unique hparent'
    obtain rfl := Option.some.inj (hcells.symm.trans hcells')
    exact absurd hlen (not_le.mpr (Nat.lt_mul_of_div_lt (Nat.lt_succ_self _) hpos))

/-- The interrupts of a device are counted rightly if none of their numbers is `0`. -/
theorem countsRight_iff (hcount : tree.HasSpecifiers device count)
    (h : ∀ index : UInt32, index.toNat ≤ count →
      tree.LinksEnd device index ∧ tree.PlainAt device index ∧ tree.OneCell device index) :
    tree.CountsRight device count ↔
      ((∀ index : UInt32, index.toNat < count → ∃ r, tree.Standard device index r) →
        ∀ (index : UInt32) (q : Fin n), index.toNat < count →
          ¬tree.Standard device index (q, [0])) := by
  have hnat : (UInt32.ofNat count).toNat = count := UInt32.toNat_ofNat_of_lt hcount.lt
  refine forall_congr' fun hall => ?_
  constructor
  · intro hright index q hindex hzero
    obtain ⟨nr, hreach, k, hk⟩ :=
      (rounds_result_iff countRound_le 0 _).mp (hright ⟨device, 0, fun _ => 0⟩)
    obtain ⟨_ | irq, -, hres⟩ := Option.map_eq_some_iff.mp hk
    · exact nomatch hres
    · dsimp only at hres
      split at hres
      · exact nomatch hres
      · obtain rfl := Option.some.inj (Sum.inl.inj hres)
        obtain ⟨l, irq, hl, hne⟩ := count_passed hreach index (hnat.symm ▸ hindex)
        obtain ⟨m, hm⟩ := @parseAndMap_resolves n tree device index _ ⟨device, 0, fun _ => 0⟩
          (h index hindex.le).2.1 hzero 0 [] rfl
        exact hne (Option.some.inj (parseAndMap_unique hl hm))
  · intro hne oirq
    have hreach : ∀ m, m ≤ count →
        Relation.ReflTransGen (Goes (tree.countRound true device oirq)) 0 (UInt32.ofNat m) := by
      intro m hm
      induction m with
      | zero => exact .refl
      | succ m ih =>
        have hmnat : (UInt32.ofNat m).toNat = m :=
          UInt32.toNat_ofNat_of_lt (show m < 2 ^ 32 by have := hcount.lt; omega)
        obtain ⟨r, hr⟩ := hall (UInt32.ofNat m) (by omega)
        obtain ⟨-, hplain, hone⟩ := h (UInt32.ofNat m) (by omega)
        obtain ⟨c, hspec⟩ := List.length_eq_one_iff.mp (hone r hr)
        obtain ⟨k, hk⟩ := @parseAndMap_resolves n tree device _ r oirq hplain hr c [] hspec
        refine (ih (by omega)).tail (countRound_goes.mpr ⟨UInt32.ofNat_add m 1, k, c, hk, ?_⟩)
        rintro rfl
        refine hne (UInt32.ofNat m) r.1 (by omega) ?_
        rw [← hspec]
        exact hr
    obtain ⟨hends, hplain, -⟩ := h (UInt32.ofNat count) hnat.le
    obtain ⟨k, hk⟩ := @parseAndMap_fails n tree device _ oirq hends hplain fun r =>
      HasSpecifiers.noStandard (hnat.symm ▸ hcount)
    exact (rounds_result_iff countRound_le 0 _).mpr
      ⟨_, hreach count le_rfl, k, Option.map_eq_some_iff.mpr ⟨_, hk, if_neg (not_not.mpr rfl)⟩⟩

end Device

/-- **When a device gets its interrupts**, as far as the links end and the maps on the way can be
searched: an interrupt is to have one cell where it comes to, and the interrupts are counted if none
of these cells is `0`. -/
theorem irq_interrupts_iff (device : Fin n) :
    (∀ index, tree.LinksEnd device index → tree.PlainAt device index →
      (tree.MapsRight device index ↔ tree.OneCell device index)) ∧
      ∀ count, tree.HasSpecifiers device count →
        (∀ index : UInt32, index.toNat ≤ count →
          tree.LinksEnd device index ∧ tree.PlainAt device index ∧ tree.OneCell device index) →
        (tree.CountsRight device count ↔
          ((∀ index : UInt32, index.toNat < count → ∃ r, tree.Standard device index r) →
            ∀ (index : UInt32) (q : Fin n), index.toNat < count →
              ¬tree.Standard device index (q, [0]))) :=
  ⟨fun _ => mapsRight_iff, fun _ => countsRight_iff⟩

end IrqTree

/-! ## A controller and a device -/

theorem word_nil : 4 * ([] : List UInt32).length + (⟨0, no_tail⟩ : Fin 4) < 2 ^ 32 := by decide

theorem word_singleton (c : UInt32) : 4 * [c].length + (⟨0, no_tail⟩ : Fin 4) < 2 ^ 32 := by simp

/-- A root that is an interrupt controller for so many cells, and a device with these interrupts. -/
def controllerTree (cells : UInt32) (interrupts : List UInt32)
    (word : 4 * interrupts.length + (⟨0, no_tail⟩ : Fin 4) < 2 ^ 32) : IrqTree 2 where
  node := fun i =>
    if i = 0 then ⟨none, 1, [("interrupt-controller", ⟨[], ⟨0, no_tail⟩, fun _ => 0, word_nil⟩),
      ("#interrupt-cells", ⟨[cells], ⟨0, no_tail⟩, fun _ => 0, word_singleton cells⟩)]⟩
    else ⟨some 0, 0, [("interrupts", ⟨interrupts, ⟨0, no_tail⟩, fun _ => 0, word⟩)]⟩
  allNodes := [1, 0]
  parent_lt := by
    intro i p h
    split at h
    · cases h
    · rename_i hi
      obtain rfl := Option.some.inj h
      exact Fin.pos_of_ne_zero hi

section Controller

variable {cells index : UInt32} {interrupts : List UInt32}
  {word : 4 * interrupts.length + (0 : Fin 4) < 2 ^ 32}

theorem controllerTree_root : (controllerTree cells interrupts word).parentLink 0 = none := rfl

theorem controllerTree_device : (controllerTree cells interrupts word).parentLink 1 = some 0 := rfl

theorem controllerTree_cells :
    (controllerTree cells interrupts word).number 0 .interruptCells = some cells := rfl

theorem controllerTree_controller :
    (controllerTree cells interrupts word).Has 0 .interruptController := rfl

theorem controllerTree_interrupts :
    (controllerTree cells interrupts word).btOfGetProperty 1 .interrupts =
      some ⟨interrupts, ⟨0, no_tail⟩, fun _ => 0, word⟩ := rfl

/-- The device's link leads to the root, which has `#interrupt-cells`, and the root has none. -/
theorem controllerTree_not_climbs (c p : Fin 2) :
    ¬(controllerTree cells interrupts word).Climbs c p := by
  rintro ⟨hlink, hno⟩
  obtain rfl | rfl : c = 0 ∨ c = 1 := by omega
  · exact absurd (controllerTree_root.symm.trans hlink) (by simp)
  · obtain rfl := Option.some.inj (controllerTree_device.symm.trans hlink)
    exact hno (IrqTree.has_iff.mpr ⟨_, controllerTree_cells⟩)

/-- No search for an interrupt parent goes on for ever. -/
theorem controllerTree_not_leadsBack (c : Fin 2) :
    ¬LeadsBack (controllerTree cells interrupts word).Climbs c := by
  rintro ⟨d, -, hback⟩
  obtain ⟨e, he, -⟩ := Relation.TransGen.head'_iff.mp hback
  exact controllerTree_not_climbs d e he

theorem controllerTree_parent {p : Fin 2} :
    (controllerTree cells interrupts word).InterruptParent 1 p ↔ p = 0 := by
  constructor
  · rintro ⟨d, hd, hlink, -⟩
    rcases hd.cases_head with rfl | ⟨e, he, -⟩
    · exact (Option.some.inj (controllerTree_device.symm.trans hlink)).symm
    · exact absurd he (controllerTree_not_climbs _ _)
  · rintro rfl
    exact ⟨1, .refl, controllerTree_device, IrqTree.has_iff.mpr ⟨_, controllerTree_cells⟩⟩

/-- They are the specifiers of the property, as far as these are complete. -/
theorem controllerTree_node {x : IrqSource 2}
    (h : (controllerTree cells interrupts word).DeviceInterrupt 1 index x) :
    x.node = 0 ∧ (index.toNat + 1) * cells.toNat ≤ interrupts.length ∧
      x.spec = (interrupts.drop (index.toNat * cells.toNat)).take cells.toNat := by
  obtain ⟨property, p, intsize, hint, hparent, hcells, hlen, rfl⟩ := h
  obtain rfl := Option.some.inj (controllerTree_interrupts.symm.trans hint)
  obtain rfl := controllerTree_parent.mp hparent
  obtain rfl := Option.some.inj (controllerTree_cells.symm.trans hcells)
  exact ⟨rfl, hlen, rfl⟩

theorem controllerTree_not_leads {x y : IrqSource 2} (h : x.node = 0) :
    ¬(controllerTree cells interrupts word).Leads x y := by
  intro hlead
  have hno := hlead.noController
  rw [h] at hno
  exact hno controllerTree_controller

theorem controllerTree_ends : (controllerTree cells interrupts word).LinksEnd 1 index where
  parent := controllerTree_not_leadsBack 1
  climbs := fun _ _ _ _ => controllerTree_not_leadsBack _
  leads := fun _ hx₀ => .intro _ fun _ hy => absurd hy
    (controllerTree_not_leads (controllerTree_node hx₀).1)

theorem controllerTree_plain (h : (index.toNat + 1) * cells.toNat < 2 ^ 32) :
    (controllerTree cells interrupts word).PlainAt 1 index where
  word := by
    intro p intsize _ hparent hcells
    obtain rfl := controllerTree_parent.mp hparent
    obtain rfl := Option.some.inj (controllerTree_cells.symm.trans hcells)
    exact h
  plain := by
    intro x₀ hx₀ x imap hreach hsearch
    have hnode := (controllerTree_node hx₀).1
    rcases hreach.cases_head with rfl | ⟨y, hy, -⟩
    · have hno := hsearch.noController
      rw [hnode] at hno
      exact absurd controllerTree_controller hno
    · exact absurd hy (controllerTree_not_leads hnode)

/-- An interrupt stands for its specifier at the root. -/
theorem controllerTree_standard {r : Fin 2 × List UInt32} :
    (controllerTree cells interrupts word).Standard 1 index r ↔
    (index.toNat + 1) * cells.toNat ≤ interrupts.length ∧
      r = (0, (interrupts.drop (index.toNat * cells.toNat)).take cells.toNat) := by
  constructor
  · rintro ⟨x, hx, y, hy, -, rfl⟩
    obtain ⟨hnode, hlen, hspec⟩ := controllerTree_node hx
    rcases hy.cases_head with rfl | ⟨z, hz, -⟩
    · rw [hnode, hspec]
      exact ⟨hlen, rfl⟩
    · exact absurd hz (controllerTree_not_leads hnode)
  · rintro ⟨hlen, rfl⟩
    exact ⟨_, ⟨_, 0, _, controllerTree_interrupts, controllerTree_parent.mpr rfl,
      controllerTree_cells, hlen, rfl⟩, _, .refl, controllerTree_controller, rfl⟩

end Controller

/-! ## A bridge between them -/

theorem word_entries :
    4 * [(4 : UInt32), 1, 28, 5, 1, 29].length + (⟨0, no_tail⟩ : Fin 4) < 2 ^ 32 := by
  decide

/-- A root that is an interrupt controller, a bridge whose map has two entries for it, and a device
behind the bridge with the interrupt of the second entry. -/
def bridgeTree : IrqTree 3 where
  node := fun i =>
    if i = 0 then ⟨none, 1, [("interrupt-controller", ⟨[], ⟨0, no_tail⟩, fun _ => 0, word_nil⟩),
      ("#interrupt-cells", ⟨[1], ⟨0, no_tail⟩, fun _ => 0, word_singleton 1⟩)]⟩
    else if i = 1
      then ⟨some 0, 2, [("#address-cells", ⟨[0], ⟨0, no_tail⟩, fun _ => 0, word_singleton 0⟩),
      ("#interrupt-cells", ⟨[1], ⟨0, no_tail⟩, fun _ => 0, word_singleton 1⟩),
      ("interrupt-map", ⟨[4, 1, 28, 5, 1, 29], ⟨0, no_tail⟩, fun _ => 0, word_entries⟩)]⟩
    else ⟨some 1, 0, [("interrupts", ⟨[5], ⟨0, no_tail⟩, fun _ => 0, word_singleton 5⟩)]⟩
  allNodes := [2, 1, 0]
  parent_lt := by
    intro i p h
    split at h
    · cases h
    · split at h
      · rename_i hi
        obtain rfl := Option.some.inj h
        exact hi ▸ Fin.zero_lt_one
      · obtain rfl := Option.some.inj h
        omega

namespace BridgeTree

/-- The interrupt of the device, at the bridge -/
def asked : IrqSource 3 := ⟨1, 0, none, [5]⟩

/-- What the second entry makes of it, at the root -/
def given : IrqSource 3 := ⟨0, 0, some [], [29]⟩

theorem root_link : bridgeTree.parentLink 0 = none := rfl

theorem bridge_link : bridgeTree.parentLink 1 = some 0 := rfl

theorem device_link : bridgeTree.parentLink 2 = some 1 := rfl

theorem root_cells : bridgeTree.number 0 .interruptCells = some 1 := rfl

theorem bridge_cells : bridgeTree.number 1 .interruptCells = some 1 := rfl

theorem root_controller : bridgeTree.Has 0 .interruptController := rfl

theorem bridge_not_controller : ¬bridgeTree.Has 1 .interruptController := by decide

theorem bridge_map : bridgeTree.btOfGetProperty 1 .interruptMap =
    some ⟨[4, 1, 28, 5, 1, 29], ⟨0, no_tail⟩, fun _ => 0, word_entries⟩ := rfl

theorem device_interrupts : bridgeTree.btOfGetProperty 2 .interrupts =
    some ⟨[5], ⟨0, no_tail⟩, fun _ => 0, word_singleton 5⟩ := rfl

/-- Every node that a link leads to has `#interrupt-cells`. -/
theorem not_climbs (c p : Fin 3) : ¬bridgeTree.Climbs c p := by
  rintro ⟨hlink, hno⟩
  obtain rfl | rfl | rfl : c = 0 ∨ c = 1 ∨ c = 2 := by omega
  · exact absurd (root_link.symm.trans hlink) (by simp)
  · obtain rfl := Option.some.inj (bridge_link.symm.trans hlink)
    exact hno (IrqTree.has_iff.mpr ⟨_, root_cells⟩)
  · obtain rfl := Option.some.inj (device_link.symm.trans hlink)
    exact hno (IrqTree.has_iff.mpr ⟨_, bridge_cells⟩)

/-- No search for an interrupt parent goes on for ever. -/
theorem not_leadsBack (c : Fin 3) : ¬LeadsBack bridgeTree.Climbs c := by
  rintro ⟨d, -, hback⟩
  obtain ⟨e, he, -⟩ := Relation.TransGen.head'_iff.mp hback
  exact not_climbs d e he

/-- The device's interrupts go to the bridge. -/
theorem parent {p : Fin 3} : bridgeTree.InterruptParent 2 p ↔ p = 1 := by
  constructor
  · rintro ⟨d, hd, hlink, -⟩
    rcases hd.cases_head with rfl | ⟨e, he, -⟩
    · exact (Option.some.inj (device_link.symm.trans hlink)).symm
    · exact absurd he (not_climbs _ _)
  · rintro rfl
    exact ⟨2, .refl, device_link, IrqTree.has_iff.mpr ⟨_, bridge_cells⟩⟩

/-- The device has one interrupt. -/
theorem deviceInterrupt {index : UInt32} {x : IrqSource 3}
    (h : bridgeTree.DeviceInterrupt 2 index x) :
    index.toNat = 0 ∧ x = asked := by
  obtain ⟨property, p, intsize, hint, hparent, hcells, hlen, rfl⟩ := h
  obtain rfl := Option.some.inj (device_interrupts.symm.trans hint)
  obtain rfl := parent.mp hparent
  obtain rfl := Option.some.inj (bridge_cells.symm.trans hcells)
  change (index.toNat + 1) * 1 ≤ 1 at hlen
  have hzero : index.toNat = 0 := by omega
  refine ⟨hzero, ?_⟩
  rw [hzero]
  rfl

/-- The first entry is for another interrupt. -/
theorem mismatch : bridgeTree.Mismatches asked [4, 1, 28, 5, 1, 29] :=
  ⟨0, Nat.zero_lt_one, fun j hj => absurd hj (Nat.not_lt_zero j), rfl⟩

/-- The second one is for this. -/
theorem hit : bridgeTree.Matches asked [5, 1, 29] := by
  intro i hi
  obtain rfl : i = 0 := Nat.lt_one_iff.mp hi
  rfl

theorem not_hit : ¬bridgeTree.Matches asked [4, 1, 28, 5, 1, 29] := by
  intro h
  obtain ⟨i, hi, -, hfalse⟩ := mismatch
  exact absurd ((h i hi).symm.trans hfalse) (by simp)

/-- The bridge hands the interrupt to the root, which keeps it. -/
theorem leads : bridgeTree.Leads asked given :=
  .map bridge_not_controller bridge_map (.later rfl not_hit (.here rfl hit))

theorem not_leads (y : IrqSource 3) : ¬bridgeTree.Leads given y :=
  fun h => h.noController root_controller

/-- The way of the interrupt -/
theorem reached {x : IrqSource 3} (h : Relation.ReflTransGen bridgeTree.Leads asked x) :
    x = asked ∨ x = given := by
  rcases h.cases_head with rfl | ⟨y, hy, h⟩
  · exact .inl rfl
  · obtain rfl := leads.unique hy
    rcases h.cases_head with rfl | ⟨z, hz, -⟩
    · exact .inr rfl
    · exact absurd hz (not_leads z)

theorem ends {index : UInt32} : bridgeTree.LinksEnd 2 index where
  parent := not_leadsBack 2
  climbs := fun _ _ _ _ => not_leadsBack _
  leads := by
    intro x₀ hx₀
    rw [(deviceInterrupt hx₀).2]
    refine .intro _ fun y hy => ?_
    rw [← leads.unique hy]
    exact .intro _ fun z hz => absurd hz (not_leads z)

/-- The map can be searched: its first entry differs, and its second one is there. -/
theorem searchable : bridgeTree.Searchable asked [4, 1, 28, 5, 1, 29] := by
  have hword : ∀ phandle newpar a s, some 1 = some phandle →
      bridgeTree.mapTarget phandle = some (newpar, a, s) → a.toNat + s.toNat < 2 ^ 32 := by
    intro phandle newpar a s hphandle htarget
    obtain rfl := Option.some.inj hphandle
    have hroot : bridgeTree.mapTarget 1 = some (0, 0, 1) := rfl
    obtain ⟨-, rfl, rfl⟩ : 0 = newpar ∧ 0 = a ∧ 1 = s := by simpa using hroot.symm.trans htarget
    decide
  refine .entry (by decide) (.inr mismatch) hword fun y rest hparsed _ => ?_
  obtain ⟨-, rfl⟩ : (⟨0, 0, some [], [28]⟩ : IrqSource 3) = y ∧ [5, 1, 29] = rest :=
    Prod.mk.inj (Option.some.inj hparsed)
  exact .entry (by decide) (.inl hit) hword fun _ _ _ hno => absurd hit hno

/-- All maps on the way can be searched: there is one. -/
theorem plain {index : UInt32} (h : index.toNat ≤ 1) : bridgeTree.PlainAt 2 index where
  word := by
    intro p intsize _ hparent hcells
    obtain rfl := parent.mp hparent
    obtain rfl := Option.some.inj (bridge_cells.symm.trans hcells)
    change (index.toNat + 1) * 1 < 2 ^ 32
    omega
  plain := by
    intro x₀ hx₀ x imap hreach hsearch
    rw [(deviceInterrupt hx₀).2] at hreach
    rcases reached hreach with rfl | rfl
    · obtain rfl := Option.some.inj (bridge_map.symm.trans hsearch.map)
      exact searchable
    · exact absurd root_controller hsearch.noController

/-- The device's interrupt is number 29 of the root. -/
theorem standard {index : UInt32} {r : Fin 3 × List UInt32} (h : bridgeTree.Standard 2 index r) :
    r = (0, [29]) := by
  obtain ⟨x, hx, y, hy, hcontroller, rfl⟩ := h
  rw [(deviceInterrupt hx).2] at hy
  rcases reached hy with rfl | rfl
  · exact absurd hcontroller bridge_not_controller
  · rfl

end BridgeTree

/-- A device with one interrupt of one cell gets it, and has it counted, also where a map leads to
the controller. -/
theorem irq_interrupts_iff_one : ((controllerTree 1 [29] (by decide)).MapsRight 1 0 ∧
      (controllerTree 1 [29] (by decide)).CountsRight 1 1) ∧
    bridgeTree.MapsRight 2 0 ∧ bridgeTree.CountsRight 2 1 := by
  constructor
  · obtain ⟨hmaps, hcounts⟩ := (controllerTree 1 [29] (by decide)).irq_interrupts_iff 1
    have hone : ∀ index, (controllerTree 1 [29] (by decide)).OneCell 1 index := by
      intro index r hr
      obtain ⟨hlen, rfl⟩ := controllerTree_standard.mp hr
      have hzero : index.toNat = 0 := by
        change (index.toNat + 1) * 1 ≤ 1 at hlen
        omega
      rw [hzero]
      rfl
    have hplain : ∀ index : UInt32, index.toNat ≤ 1 →
        (controllerTree 1 [29] (by decide)).PlainAt 1 index := by
      intro index hindex
      refine controllerTree_plain ?_
      change (index.toNat + 1) * 1 < 2 ^ 32
      omega
    refine ⟨(hmaps 0 controllerTree_ends (hplain 0 (by decide))).mpr (hone 0), ?_⟩
    have hcount : (controllerTree 1 [29] (by decide)).HasSpecifiers 1 1 :=
      .specifiers controllerTree_interrupts (controllerTree_parent.mpr rfl) controllerTree_cells
        (by decide)
    refine (hcounts 1 hcount fun index hindex => ⟨controllerTree_ends, hplain index hindex,
      hone index⟩).mpr ?_
    intro _ index q hindex hzero
    obtain ⟨-, hr⟩ := controllerTree_standard.mp hzero
    rw [Nat.lt_one_iff.mp hindex] at hr
    exact absurd (Prod.mk.inj hr).2 (by decide)
  · obtain ⟨hmaps, hcounts⟩ := bridgeTree.irq_interrupts_iff 2
    have hone : ∀ index, bridgeTree.OneCell 2 index := by
      intro index r hr
      rw [BridgeTree.standard hr]
      rfl
    have hcount : bridgeTree.HasSpecifiers 2 1 :=
      .specifiers BridgeTree.device_interrupts (BridgeTree.parent.mpr rfl) BridgeTree.bridge_cells
        (by decide)
    refine ⟨(hmaps 0 BridgeTree.ends (BridgeTree.plain (by decide))).mpr (hone 0),
      (hcounts 1 hcount fun index hindex => ⟨BridgeTree.ends, BridgeTree.plain hindex,
      hone index⟩).mpr ?_⟩
    intro _ index q _ hzero
    exact absurd (Prod.mk.inj (BridgeTree.standard hzero)).2 (by decide)

/-- An interrupt of three cells: the second and the third are not written. -/
theorem irq_interrupts_wrong :
    (∀ index, (controllerTree 3 [0, 29, 4] (by decide)).LinksEnd 1 index) ∧
      ¬(controllerTree 3 [0, 29, 4] (by decide)).MapsRight 1 0 := by
  refine ⟨fun _ => controllerTree_ends, fun hmaps => ?_⟩
  have hone :=
    (IrqTree.mapsRight_iff controllerTree_ends (controllerTree_plain (by decide))).mp hmaps
  exact absurd (hone _ (controllerTree_standard.mpr ⟨by decide, rfl⟩)) (by decide)

end BitThunder
