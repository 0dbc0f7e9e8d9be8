import BitThunder.Of.InterruptsStandard

/-!
# The way of an interrupt

`bt_of_irq_map_raw` against what an interrupt stands for, as far as the maps on the way can be
searched. The code has pointers to cells where the interrupt has lists of them, and counts in words.

* `entryMatches_hit`, `entryMatches_miss`, `readEntry_spec`: one entry;
* `scan_spec`: the search of a map finds the first entry that matches;
* `round_leads`, `round_controller`, `round_fails`: one node;
* `mapRaw_resolves`, `mapRaw_fails`: the whole way.

`Shows` is the simulation: the pointer and the counts of the code on one side, the unit address and
the specifier as lists of cells on the other. A round of the loop takes a step of `Leads` and keeps
it. Within a round the entries of a map are lists that get shorter from the front while the code
moves `imap` and counts `imaplen` down, which is what `ScanAt` says.

An entry is compared cell by cell, and where it fails it matters which cell is the first that
differs: behind that one the code reads nothing, so that a short entry at the end of a map does no
harm if it has been told apart before.
-/

namespace BitThunder

namespace IrqTree

variable {n : ℕ} {tree : IrqTree n}

/-! ## Reading cells

`Shows` says of a position in the loop that it has the cells of an interrupt, without saying in
which property they are: they may be the device's or those of a map's entry. -/

/-- The cells at a position are those of an interrupt. -/
structure Shows (tree : IrqTree n) (y : IrqPosition n) (x : IrqSource n) : Prop where
  /-- the loop is at the node -/
  ipar : y.ipar = x.node
  /-- it has counted the cells as they are -/
  addrsize : y.addrsize.toNat = x.addrCells
  intsize : y.intsize.toNat = x.spec.length
  /-- it has a unit address if there is one -/
  addr : y.addr = none ↔ x.unit = none
  /-- whose cells it reads -/
  unit : ∀ p ∈ y.addr, ∀ i : UInt32, i < y.addrsize → tree.read true p i = x.unit.bind (·[i.toNat]?)
  /-- and it reads the cells of the specifier -/
  spec : ∀ i : UInt32, i < y.intsize → tree.read true y.intspec i = x.spec[i.toNat]?

/-- What is left of a map, at `imap` and `imaplen` -/
structure ScanAt (cells : List UInt32) (e : UInt32 × UInt32) (entry : List UInt32) : Prop where
  /-- `entry` is what is left of the map -/
  left : entry = cells.drop e.1.toNat
  /-- the pointer is where it begins -/
  imap : e.1.toNat + entry.length = cells.length
  /-- and the counter says how long it is -/
  imaplen : e.2.toNat = entry.length

/-- A checked read is the cell of the property, if it is there. -/
theorem read_property {node : Fin n} {name : IrqName} {p : IrqProperty}
    (h : tree.btOfGetProperty node name = some p)
    (offset i : UInt32) : tree.read true ⟨node, name, offset⟩ i = p.cells[(offset + i).toNat]? := by
  unfold read
  rw [h]
  dsimp only
  by_cases hlen : p.cells.length ≤ (offset + i).toNat
  · rw [if_pos ⟨rfl, hlen⟩, List.getElem?_eq_none hlen]
  · rw [if_neg fun h => hlen h.2, IrqProperty.cell, List.getD_eq_getElem?_getD,
      List.getElem?_eq_getElem (not_le.mp hlen), Option.getD_some]

/-- The cell of the mask, as the standard has it. -/
theorem maskCell_eq (node : Fin n) (i : UInt32) :
    tree.maskCell true node i = tree.mask node i.toNat := by
  unfold maskCell mask
  cases hmask : tree.btOfGetProperty node .interruptMapMask with
  | none =>
    rw [if_neg]
    unfold Has
    rw [hmask]
    exact Bool.false_ne_true
  | some p => rw [if_pos (has_of_property hmask), read_property hmask, UInt32.zero_add]

/-- The number of cells fits in a word. -/
theorem toNat_len (p : IrqProperty) : p.len.toNat = p.cells.length := by
  have hword := p.word
  have hdiv : (4 * p.cells.length + p.tail) / 4 = p.cells.length := by omega
  unfold IrqProperty.len
  rw [hdiv]
  exact UInt32.toNat_ofNat_of_lt (show p.cells.length < 2 ^ 32 by omega)

theorem toNat_add_small {a b : UInt32} (h : a.toNat + b.toNat < 2 ^ 32) :
    (a + b).toNat = a.toNat + b.toNat := by
  rw [UInt32.toNat_add]
  exact Nat.mod_eq_of_lt h

section Map

variable {x : IrqSource n} {y : IrqPosition n} {p : IrqProperty} {e : UInt32 × UInt32}
  {entry : List UInt32}

/-- A cell of an entry is read from the map. -/
theorem ScanAt.read (hat : ScanAt p.cells e entry)
    (hmap : tree.btOfGetProperty x.node .interruptMap = some p)
    (i : UInt32) (hi : i.toNat ≤ entry.length) :
    tree.read true ⟨x.node, .interruptMap, e.1⟩ i = entry[i.toNat]? := by
  have hword := p.word
  have hlen := hat.imap
  rw [read_property hmap, toNat_add_small (by omega), hat.left, List.getElem?_drop]

/-! ## Comparing cells

The loop over the cells of an entry stops at the first that differs. To say what it comes to, it is
enough to know either that all are equal, or of one that differs and that those before it are
equal. -/

/-- A cell of the unit address is compared as it should be. -/
theorem cellMatches_unit (hshows : Shows tree y x)
    (hmap : tree.btOfGetProperty x.node .interruptMap = some p)
    (hat : ScanAt p.cells e entry) {addr : CellPointer n} (haddr : y.addr = some addr) {i : UInt32}
    (hi : i.toNat < x.addrCells) (hlen : i.toNat ≤ entry.length) :
    tree.cellMatches true y.ipar e.1 addr i i = tree.compareCell x entry i.toNat := by
  have hless : i < y.addrsize := UInt32.lt_iff_toNat_lt.mpr (hshows.addrsize ▸ hi)
  unfold cellMatches compareCell
  rw [hshows.ipar, maskCell_eq, hshows.unit addr haddr i hless, hat.read hmap i hlen,
    IrqSource.cell, if_pos hi]

theorem cellMatches_spec (hshows : Shows tree y x)
    (hmap : tree.btOfGetProperty x.node .interruptMap = some p)
    (hat : ScanAt p.cells e entry) {i : UInt32} (hi : x.addrCells ≤ i.toNat)
    (hwidth : i.toNat < x.width)
    (hlen : i.toNat ≤ entry.length) :
    tree.cellMatches true y.ipar e.1 y.intspec (i - y.addrsize) i =
      tree.compareCell x entry i.toNat := by
  have hsub : (i - y.addrsize).toNat = i.toNat - x.addrCells := by
    rw [UInt32.toNat_sub_of_le _ _ (UInt32.le_iff_toNat_le.mpr (hshows.addrsize ▸ hi)),
      hshows.addrsize]
  have hless : i - y.addrsize < y.intsize := by
    rw [UInt32.lt_iff_toNat_lt, hsub, hshows.intsize]
    unfold IrqSource.width at hwidth
    omega
  unfold cellMatches compareCell
  rw [hshows.ipar, maskCell_eq, hshows.spec _ hless, hsub, hat.read hmap i hlen, IrqSource.cell,
    if_neg (not_lt.mpr hi)]

/-- The loop finds a match if every cell matches. -/
theorem matchLoop_true {f : UInt32 → Option Bool} {k : ℕ} {i : UInt32} (hk : i.toNat + k < 2 ^ 32)
    (h : ∀ j : UInt32, i.toNat ≤ j.toNat → j.toNat < i.toNat + k → f j = some true) :
    matchLoop f k i = some true := by
  induction k generalizing i with
  | zero => rfl
  | succ k ih =>
    have hone : (i + 1).toNat = i.toNat + 1 :=
      toNat_add_small (by rw [show (1 : UInt32).toNat = 1 from rfl]; omega)
    rw [matchLoop, h i le_rfl (by omega)]
    exact ih (by omega) fun j hj hjk => h j (by omega) (by omega)

/-- It finds none if one cell differs and all before it match. -/
theorem matchLoop_false {f : UInt32 → Option Bool} {k : ℕ} {i m : UInt32}
    (hk : i.toNat + k < 2 ^ 32) (him : i.toNat ≤ m.toNat) (hmk : m.toNat < i.toNat + k)
    (hm : f m = some false)
    (h : ∀ j : UInt32, i.toNat ≤ j.toNat → j.toNat < m.toNat → f j = some true) :
    matchLoop f k i = some false := by
  induction k generalizing i with
  | zero => omega
  | succ k ih =>
    have hone : (i + 1).toNat = i.toNat + 1 :=
      toNat_add_small (by rw [show (1 : UInt32).toNat = 1 from rfl]; omega)
    rw [matchLoop]
    rcases Nat.eq_or_lt_of_le him with heq | hlt
    · rw [UInt32.toNat_inj.mp heq, hm]
    · rw [h i le_rfl hlt]
      exact ih (by omega) (by omega) (by omega) fun j hj hjm => h j (by omega) hjm

/-- The sum of the sizes, as a word -/
theorem Shows.width (hshows : Shows tree y x) (hword : x.width < 2 ^ 32) :
    (y.addrsize + y.intsize).toNat = x.width := by
  unfold IrqSource.width at hword ⊢
  rw [toNat_add_small
    (by rw [hshows.addrsize, hshows.intsize]; exact hword), hshows.addrsize, hshows.intsize]

/-- The cells of the unit address, where there is one or none is needed. -/
theorem unitMatches_eq (hshows : Shows tree y x)
    (hmap : tree.btOfGetProperty x.node .interruptMap = some p)
    (hat : ScanAt p.cells e entry) (hunit : ¬(x.unit = none ∧ x.addrCells ≠ 0)) {i : UInt32}
    (hi : i.toNat < x.addrCells)
    (hlen : i.toNat ≤ entry.length) :
    tree.unitMatches true y e.1 i = tree.compareCell x entry i.toNat := by
  unfold unitMatches
  cases haddr : y.addr with
  | none => exact absurd ⟨hshows.addr.mp haddr, by omega⟩ hunit
  | some addr => exact cellMatches_unit hshows hmap hat haddr hi hlen

/-- An entry matches for the code. -/
theorem entryMatches_hit (hshows : Shows tree y x)
    (hmap : tree.btOfGetProperty x.node .interruptMap = some p)
    (hat : ScanAt p.cells e entry) (hunit : ¬(x.unit = none ∧ x.addrCells ≠ 0))
    (hlong : x.width + 1 < entry.length)
    (hhit : tree.Matches x entry) : tree.entryMatches true y e.1 = some true := by
  have hword := p.word
  have hlen := hat.imap
  have haddr := hshows.addrsize
  have hsum := hshows.width (by omega)
  have hw : x.addrCells ≤ x.width := Nat.le_add_right _ _
  have hunits : matchLoop (tree.unitMatches true y e.1) y.addrsize.toNat 0 = some true := by
    refine matchLoop_true (by rw [UInt32.toNat_zero]; omega) fun j _ hj => ?_
    rw [UInt32.toNat_zero] at hj
    rw [unitMatches_eq hshows hmap hat hunit (by omega) (by omega)]
    exact hhit _ (by omega)
  unfold entryMatches
  rw [hunits]
  dsimp only
  rw [hsum]
  refine matchLoop_true (by omega) fun j hj hjk => ?_
  rw [cellMatches_spec hshows hmap hat (by omega) (by omega) (by omega)]
  exact hhit _ (by omega)

/-- An entry does not match for the code. -/
theorem entryMatches_miss (hshows : Shows tree y x)
    (hmap : tree.btOfGetProperty x.node .interruptMap = some p)
    (hat : ScanAt p.cells e entry) (hunit : ¬(x.unit = none ∧ x.addrCells ≠ 0))
    (hlong : x.width + 1 < entry.length)
    (hmiss : tree.Mismatches x entry) : tree.entryMatches true y e.1 = some false := by
  obtain ⟨m, hm, hbefore, hdiffers⟩ := hmiss
  have hword := p.word
  have hlen := hat.imap
  have haddr := hshows.addrsize
  have hsum := hshows.width (by omega)
  have hw : x.addrCells ≤ x.width := Nat.le_add_right _ _
  have hnat : (UInt32.ofNat m).toNat = m := UInt32.toNat_ofNat_of_lt (show m < 2 ^ 32 by omega)
  unfold entryMatches
  by_cases hfirst : m < x.addrCells
  · have hunits : matchLoop (tree.unitMatches true y e.1) y.addrsize.toNat 0 = some false := by
      refine @matchLoop_false _ _ _ (UInt32.ofNat m)
        (by rw [UInt32.toNat_zero]; omega) (by rw [UInt32.toNat_zero]; omega)
        (by rw [UInt32.toNat_zero]; omega) ?_ fun j _ hj => ?_
      · rw [unitMatches_eq hshows hmap hat hunit (by omega) (by omega), hnat]
        exact hdiffers
      · rw [unitMatches_eq hshows hmap hat hunit (by omega) (by omega)]
        exact hbefore _ (by omega)
    rw [hunits]
  · have hunits : matchLoop (tree.unitMatches true y e.1) y.addrsize.toNat 0 = some true := by
      refine matchLoop_true (by rw [UInt32.toNat_zero]; omega) fun j _ hj => ?_
      rw [UInt32.toNat_zero] at hj
      rw [unitMatches_eq hshows hmap hat hunit (by omega) (by omega)]
      exact hbefore _ (by omega)
    rw [hunits]
    dsimp only
    rw [hsum]
    refine @matchLoop_false _ _ _ (UInt32.ofNat m)
      (by omega) (by omega) (by omega) ?_ fun j hj hjm => ?_
    · rw [cellMatches_spec hshows hmap hat (by omega) (by omega) (by omega), hnat]
      exact hdiffers
    · rw [cellMatches_spec hshows hmap hat (by omega) (by omega) (by omega)]
      exact hbefore _ (by omega)

/-- What an entry leads to, as the code looks it up. -/
theorem mapTarget_eq_some {phandle a s : UInt32} {newpar : Fin n} :
    tree.mapTarget phandle = some (newpar, a, s) ↔
      tree.btOfFindNodeByPhandle phandle = some newpar ∧
      tree.number newpar .interruptCells = some s ∧ (tree.number newpar .addressCells).getD 0 =
        a := by
  unfold mapTarget
  simp only [Option.bind_eq_some_iff, Option.map_eq_some_iff, Prod.mk.injEq]
  constructor
  · rintro ⟨q, hq, t, ht, rfl, ha, rfl⟩
    exact ⟨hq, ht, ha⟩
  · rintro ⟨hq, hs, ha⟩
    exact ⟨newpar, hq, s, hs, rfl, ha, rfl⟩

/-- The cells behind an entry are those of the interrupt that it makes. -/
theorem shows_behind (hshows : Shows tree y x)
    (hmap : tree.btOfGetProperty x.node .interruptMap = some p)
    {me : MapEntry n} {first : ℕ} {rest : List UInt32} (hrest : rest = p.cells.drop first)
    (hfits : me.newaddrsize.toNat + me.newintsize.toNat ≤ rest.length)
    (himap : me.imap.toNat = first + (me.newaddrsize.toNat + me.newintsize.toNat)) :
    Shows tree (behind y me) ⟨me.newpar, me.newaddrsize.toNat,
      some (rest.take me.newaddrsize.toNat),
      (rest.drop me.newaddrsize.toNat).take me.newintsize.toNat⟩ := by
  have hword := p.word
  have hlen : rest.length = p.cells.length - first := by rw [hrest, List.length_drop]
  have hspec : (me.imap - me.newintsize).toNat = first + me.newaddrsize.toNat := by
    rw [UInt32.toNat_sub_of_le _ _ (UInt32.le_iff_toNat_le.mpr (by omega))]
    omega
  have haddr : (me.imap - me.newintsize - me.newaddrsize).toNat = first := by
    rw [UInt32.toNat_sub_of_le _ _ (UInt32.le_iff_toNat_le.mpr (by omega))]
    omega
  refine ⟨rfl, rfl, ?_, ?_, ?_, ?_⟩
  · change me.newintsize.toNat = ((rest.drop me.newaddrsize.toNat).take me.newintsize.toNat).length
    rw [List.length_take, List.length_drop]
    omega
  · exact iff_of_false (Option.some_ne_none _) (Option.some_ne_none _)
  · intro q hq i hi
    obtain rfl := Option.some.inj hq
    have hless := UInt32.lt_iff_toNat_lt.mp hi
    change i.toNat < me.newaddrsize.toNat at hless
    change tree.read true ⟨y.ipar, .interruptMap, me.imap - me.newintsize - me.newaddrsize⟩ i = _
    rw [hshows.ipar, read_property hmap, toNat_add_small (by omega), haddr]
    dsimp only [Option.bind_some]
    rw [List.getElem?_take_of_lt hless, hrest, List.getElem?_drop]
  · intro i hi
    have hless := UInt32.lt_iff_toNat_lt.mp hi
    change i.toNat < me.newintsize.toNat at hless
    change tree.read true ⟨y.ipar, .interruptMap, me.imap - me.newintsize⟩ i = _
    rw [hshows.ipar, read_property hmap, toNat_add_small (by omega), hspec]
    dsimp only
    rw [List.getElem?_take_of_lt hless, List.getElem?_drop, hrest, List.getElem?_drop,
      Nat.add_assoc]

/-- The code reads what an entry leads to, and comes to the one behind it. -/
theorem readEntry_spec (hshows : Shows tree y x)
    (hmap : tree.btOfGetProperty x.node .interruptMap = some p)
    (hat : ScanAt p.cells e entry) (hlong : x.width + 1 < entry.length)
    (hword : ∀ phandle newpar a s, entry[x.width]? = some phandle →
      tree.mapTarget phandle = some (newpar, a, s) →
      a.toNat + s.toNat < 2 ^ 32) :
    (tree.parseEntry x entry = none → tree.readEntry true y e.1 e.2 = some none) ∧
      ∀ z rest, tree.parseEntry x entry = some (z, rest) →
        ∃ me, tree.readEntry true y e.1 e.2 = some (some me) ∧
        ScanAt p.cells (me.imap, me.imaplen) rest ∧ Shows tree (behind y me) z := by
  have hp := p.word
  have hlen := hat.imap
  have hsum := hshows.width (by omega)
  obtain ⟨phandle, hphandle⟩ : ∃ phandle, entry[x.width]? = some phandle :=
    ⟨_, List.getElem?_eq_getElem (by omega)⟩
  have hdrop : entry.drop x.width = phandle :: entry.drop (x.width + 1) := by
    obtain ⟨hlt, rfl⟩ := List.getElem?_eq_some_iff.mp hphandle
    exact List.drop_eq_getElem_cons hlt
  have himap : (e.1 + (y.addrsize + y.intsize)).toNat = e.1.toNat + x.width := by
    rw [toNat_add_small (by omega), hsum]
  have himap' : (e.1 + (y.addrsize + y.intsize) + 1).toNat = e.1.toNat + x.width + 1 := by
    rw [toNat_add_small (by rw [himap, UInt32.toNat_one]; omega), himap, UInt32.toNat_one]
  have himaplen : (e.2 - (y.addrsize + y.intsize) - 1).toNat = entry.length - x.width - 1 := by
    have hle : y.addrsize + y.intsize ≤ e.2 :=
      UInt32.le_iff_toNat_le.mpr (by rw [hsum, hat.imaplen]; omega)
    have hfirst : (e.2 - (y.addrsize + y.intsize)).toNat = entry.length - x.width := by
      rw [UInt32.toNat_sub_of_le _ _ hle, hsum, hat.imaplen]
    rw [UInt32.toNat_sub_of_le _ _ (UInt32.le_iff_toNat_le.mpr
      (by rw [hfirst, UInt32.toNat_one]; omega)), hfirst,
      UInt32.toNat_one]
  have hread : tree.read true ⟨y.ipar, .interruptMap, e.1 + (y.addrsize + y.intsize)⟩ 0 =
      some phandle := by
    rw [hshows.ipar, read_property hmap, UInt32.add_zero, himap, ← hphandle, hat.left,
      List.getElem?_drop]
  have hrest : (entry.drop (x.width + 1)).length = entry.length - x.width - 1 := by
    rw [List.length_drop, Nat.sub_sub]
  unfold readEntry parseEntry
  dsimp only
  rw [hread, hdrop]
  dsimp only
  cases htarget : tree.mapTarget phandle with
  | none =>
    refine ⟨fun _ => ?_, fun z rest h => nomatch h⟩
    unfold mapTarget at htarget
    cases hfind : tree.btOfFindNodeByPhandle phandle with
    | none => rfl
    | some newpar =>
      rw [hfind, Option.bind_some, Option.map_eq_none_iff] at htarget
      dsimp only
      rw [htarget]
  | some target =>
    obtain ⟨newpar, a, s⟩ := target
    have hts := hword phandle newpar a s hphandle htarget
    have hsizes : (a + s).toNat = a.toNat + s.toNat := toNat_add_small hts
    obtain ⟨hfind, hcells, ha⟩ := mapTarget_eq_some.mp htarget
    rw [hfind]
    dsimp only
    rw [hcells]
    dsimp only
    rw [ha]
    by_cases hfits : a.toNat + s.toNat ≤ entry.length - x.width - 1
    · have hle : ¬e.2 - (y.addrsize + y.intsize) - 1 < a + s := by
        rw [UInt32.lt_iff_toNat_lt, himaplen, hsizes]
        omega
      rw [if_pos (hrest ▸ hfits), if_neg hle]
      refine ⟨nofun, fun z rest h => ?_⟩
      obtain ⟨rfl, rfl⟩ := Prod.mk.inj (Option.some.inj h)
      have hend : (e.1 + (y.addrsize + y.intsize) + 1 + (a + s)).toNat =
          e.1.toNat + x.width + 1 + (a.toNat + s.toNat) := by
        rw [toNat_add_small (by rw [himap', hsizes]; omega), himap', hsizes]
      have hcellsRest : entry.drop (x.width + 1) = p.cells.drop (e.1.toNat + x.width + 1) := by
        rw [hat.left, List.drop_drop, Nat.add_assoc]
      refine ⟨_, rfl, ⟨?_, ?_, ?_⟩, shows_behind hshows hmap hcellsRest (hrest ▸ hfits) hend⟩
      · dsimp only
        rw [hend, hcellsRest, List.drop_drop]
      · dsimp only
        rw [hend, List.length_drop, hrest]
        omega
      · dsimp only
        rw [UInt32.toNat_sub_of_le _ _ (UInt32.not_lt.mp hle), himaplen, hsizes, List.length_drop,
          hrest]
    · have hgt : e.2 - (y.addrsize + y.intsize) - 1 < a + s := by
        rw [UInt32.lt_iff_toNat_lt, himaplen, hsizes]
        omega
      rw [if_neg (hrest ▸ hfits), if_pos hgt]
      exact ⟨fun _ => rfl, nofun⟩

/-- An entry takes the cells that are compared and a phandle. -/
theorem parseEntry_length {z : IrqSource n} {rest : List UInt32}
    (h : tree.parseEntry x entry = some (z, rest)) :
    rest.length + (x.width + 1) ≤ entry.length := by
  have hlen := List.length_drop (i := x.width) (l := entry)
  unfold parseEntry at h
  split at h
  · exact nomatch h
  · rename_i phandle cells hdrop
    rw [hdrop, List.length_cons] at hlen
    split at h
    · exact nomatch h
    · dsimp only at h
      split at h
      · obtain ⟨-, rfl⟩ := Prod.mk.inj (Option.some.inj h)
        rw [List.length_drop]
        omega
      · exact nomatch h

/-- An entry that was found has its cells and a phandle. -/
theorem FirstEntry.length {z : IrqSource n} (h : tree.FirstEntry x entry z) :
    x.width + 1 ≤ entry.length := by
  cases h with
  | here hparsed _ => exact (Nat.le_add_left _ _).trans (parseEntry_length hparsed)
  | later hparsed _ _ => exact (Nat.le_add_left _ _).trans (parseEntry_length hparsed)

/-- The search of a map finds the first entry that matches, and fails without one. -/
theorem scan_spec (hshows : Shows tree y x)
    (hmap : tree.btOfGetProperty x.node .interruptMap = some p)
    (hunit : ¬(x.unit = none ∧ x.addrCells ≠ 0)) (hat : ScanAt p.cells e entry)
    (hentry : tree.Searchable x entry) :
    (∀ z, tree.FirstEntry x entry z → ∃ k me, rounds (fun e => some (tree.mapRound true y e)) k e =
      some (.found me) ∧
      Shows tree (behind y me) z) ∧
      ((∀ z, ¬tree.FirstEntry x entry z) →
        ∃ k, rounds (fun e => some (tree.mapRound true y e)) k e = some .fail) := by
  have hp := p.word
  induction hentry generalizing e with
  | @last entry hshort hword hno =>
    -- the loop is not entered
    have hfail : tree.mapRound true y e = .inl .fail := by
      unfold mapRound
      rw [if_neg]
      rw [gt_iff_lt, UInt32.lt_iff_toNat_lt, hat.imaplen, toNat_add_small,
        hshows.width (by omega), UInt32.toNat_one]
      · omega
      · rw [hshows.width (by omega), UInt32.toNat_one]
        exact hword
    refine ⟨fun z hz => ?_, fun _ => ⟨1, rounds_of_result (congrArg some hfail) 0⟩⟩
    -- an entry as long as this is the last one
    cases hz with
    | here hparsed hhit => exact absurd hhit (hno _ _ hparsed)
    | later hparsed _ hnext =>
      have hrest := parseEntry_length hparsed
      have hmore := hnext.length
      omega
  | @entry entry hlong hcompared hword _ ih =>
    have hlen := hat.imap
    have henter : e.2 > y.addrsize + y.intsize + 1 := by
      rw [gt_iff_lt, UInt32.lt_iff_toNat_lt, hat.imaplen, toNat_add_small,
        hshows.width (by omega), UInt32.toNat_one]
      · exact hlong
      · rw [hshows.width (by omega), UInt32.toNat_one]
        omega
    obtain ⟨hnone, hsome⟩ := readEntry_spec hshows hmap hat hlong hword
    obtain ⟨matched, hmatched, hhit⟩ : ∃ matched, tree.entryMatches true y e.1 = some matched ∧
        (matched = true ↔ tree.Matches x entry) := by
      rcases hcompared with hhit | hmiss
      · exact ⟨true, entryMatches_hit hshows hmap hat hunit hlong hhit, iff_of_true rfl hhit⟩
      · refine ⟨false, entryMatches_miss hshows hmap hat hunit hlong hmiss,
          iff_of_false Bool.false_ne_true fun hhit => ?_⟩
        obtain ⟨i, hi, -, hdiffers⟩ := hmiss
        exact absurd ((hhit i hi).symm.trans hdiffers) (by decide)
    cases hparsed : tree.parseEntry x entry with
    | none =>
      have hfail : tree.mapRound true y e = .inl .fail := by
        simp only [mapRound, if_pos henter, hmatched, hnone hparsed]
      refine ⟨fun z hz => ?_, fun _ => ⟨1, rounds_of_result (congrArg some hfail) 0⟩⟩
      cases hz with
      | here hparsed' _ => exact absurd (hparsed.symm.trans hparsed') (by simp)
      | later hparsed' _ _ => exact absurd (hparsed.symm.trans hparsed') (by simp)
    | some parsed =>
      obtain ⟨z, rest⟩ := parsed
      obtain ⟨me, hread, hat', hbehind⟩ := hsome z rest hparsed
      cases matched with
      | true =>
        have hfound : tree.mapRound true y e = .inl (.found me) := by
          simp only [mapRound, if_pos henter, hmatched, hread]
        have hz := FirstEntry.here hparsed (hhit.mp rfl)
        refine ⟨fun w hw => ⟨1, me, rounds_of_result (congrArg some hfound) 0, ?_⟩,
          fun hno => absurd hz (hno z)⟩
        exact hz.unique hw ▸ hbehind
      | false =>
        have hmiss : ¬tree.Matches x entry := fun h => Bool.false_ne_true (hhit.mpr h)
        have hnext : tree.mapRound true y e = .inr (me.imap, me.imaplen) := by
          simp only [mapRound, if_pos henter, hmatched, hread]
        obtain ⟨hfinds, hfails⟩ := ih z rest hparsed hmiss hat'
        refine ⟨fun w hw => ?_, fun hno => ?_⟩
        · cases hw with
          | here _ hhit' => exact absurd hhit' hmiss
          | later hparsed' _ hrest =>
            obtain ⟨-, rfl⟩ := Prod.mk.inj (Option.some.inj (hparsed.symm.trans hparsed'))
            obtain ⟨k, me', hk, hbehind'⟩ := hfinds w hrest
            exact ⟨k + 1, me', (rounds_of_next (congrArg some hnext) k).trans hk, hbehind'⟩
        · obtain ⟨k, hk⟩ := hfails fun w hw => hno w (.later hparsed hmiss hw)
          exact ⟨k + 1, (rounds_of_next (congrArg some hnext) k).trans hk⟩

end Map

/-! ## One round

A round is taken apart by what the node is: without a map, with one, or a controller. In each case
it is compared with the step that the standard takes there. -/

section Round

variable {x x' : IrqSource n} {y : IrqPosition n} {out : BtOfIrq n}

/-- Going to the parent leaves what is asked for as it is. -/
theorem Shows.up (hshows : Shows tree y x) (q : Fin n) :
    Shows tree { y with ipar := q } { x with node := q } :=
  ⟨rfl, hshows.addrsize, hshows.intsize, hshows.addr, hshows.unit, hshows.spec⟩

/-- An entry can only match if there is a unit address. -/
theorem FirstEntry.unit {entry : List UInt32} (h : tree.FirstEntry x entry x') :
    ¬(x.unit = none ∧ x.addrCells ≠ 0) := by
  rintro ⟨hnone, hcells⟩
  induction h with
  | here _ hhit =>
    have hpos : 0 < x.addrCells := Nat.pos_of_ne_zero hcells
    have hfirst := hhit 0 (hpos.trans_le (Nat.le_add_right _ _))
    have hcell : x.cell 0 = none := by
      unfold IrqSource.cell
      rw [if_pos hpos, hnone, Option.bind_none]
    unfold compareCell at hfirst
    rw [hcell] at hfirst
    cases hmask : tree.mask x.node 0 with
    | none =>
      rw [hmask] at hfirst
      exact nomatch hfirst
    | some mask =>
      rw [hmask] at hfirst
      exact nomatch hfirst
  | later _ _ _ ih => exact ih

theorem scanAt_start {node : Fin n} {p : IrqProperty}
    (h : tree.btOfGetProperty node .interruptMap = some p) :
    ScanAt p.cells (tree.mapStart node) p.cells := by
  unfold mapStart
  rw [h]
  exact ⟨rfl, Nat.zero_add _, toNat_len p⟩

/-- A round without a controller -/
theorem Shows.passes (hshows : Shows tree y x) (h : ¬tree.Has x.node .interruptController) :
    tree.Passes y := by
  rw [← hshows.ipar] at h
  exact fun hc => h hc.1

/-- There is a unit address if one is needed. -/
theorem Shows.noAddr (hshows : Shows tree y x) (h : ¬(x.unit = none ∧ x.addrCells ≠ 0)) :
    ¬(y.addr = none ∧ y.addrsize ≠ 0) := by
  rintro ⟨haddr, hsize⟩
  refine h ⟨hshows.addr.mp haddr, fun hzero => hsize ?_⟩
  rw [← hshows.addrsize] at hzero
  exact UInt32.toNat_inj.mp hzero

/-- Where the interrupt is handed on, the code goes on. -/
theorem round_leads (hshows : Shows tree y x) (hplain : ∀ imap, tree.ToSearch x imap →
    tree.Searchable x imap.cells)
    (h : tree.Leads x x') : ∃ y', Goes (tree.mapRawRound true out) y y' ∧ Shows tree y' x' := by
  cases h with
  | @up q hno hmap hparent =>
    rw [← hshows.ipar] at hparent hmap
    exact ⟨_, goes_iff_hops.mpr (.up (hshows.passes hno) hmap hparent), hshows.up q⟩
  | @map _ imap hno hmap hfirst =>
    have hsearch : tree.ToSearch x imap := ⟨hno, hmap, hfirst.unit⟩
    obtain ⟨hfinds, -⟩ := scan_spec hshows hmap hfirst.unit (scanAt_start hmap)
      (hplain imap hsearch)
    obtain ⟨k, me, hk, hbehind⟩ := hfinds x' hfirst
    refine ⟨behind y me, goes_iff_hops.mpr
      (.map ⟨hshows.passes hno, ?_, hshows.noAddr hfirst.unit⟩ ?_), hbehind⟩
    · rw [hshows.ipar]
      exact has_of_property hmap
    · rw [← hshows.ipar] at hk
      exact scan_found_iff.mp ⟨k, hk⟩

/-- At a controller the first cell of the specifier is written, if there is one. -/
theorem round_controller (hshows : Shows tree y x) (h : tree.Has x.node .interruptController)
    {c : UInt32} {cs : List UInt32} (hspec : x.spec = c :: cs) (k : ℕ) :
    tree.mapRawRound true out k y = some (.inl (.errNone (writeIrq out y c))) := by
  have hpos : 0 < y.intsize := by
    rw [UInt32.lt_iff_toNat_lt, hshows.intsize, hspec]
    exact Nat.succ_pos _
  have hread := hshows.spec 0 hpos
  rw [hspec] at hread
  unfold mapRawRound
  rw [if_pos ⟨hshows.ipar ▸ h, hpos⟩, hread]
  rfl

/-- Where the interrupt is not handed on, the code fails. -/
theorem round_fails (hshows : Shows tree y x) (hplain : ∀ imap, tree.ToSearch x imap →
    tree.Searchable x imap.cells)
    (hends : ¬LeadsBack tree.Climbs x.node) (hno : ¬tree.Has x.node .interruptController)
    (h : ∀ x', ¬tree.Leads x x') :
    ∃ k, tree.mapRawRound true out k y = some (.inl .errGeneric) := by
  cases hmap : tree.btOfGetProperty x.node .interruptMap with
  | none =>
    have hnoMap : ¬tree.Has x.node .interruptMap := by
      unfold Has
      rw [hmap]
      exact Bool.false_ne_true
    obtain ⟨k, found, hfind⟩ := findParent_ends_iff.mpr hends
    cases found with
    | some q =>
      exact absurd (.up hno hnoMap (findParent_found_iff.mp ⟨k, hfind⟩)) (h { x with node := q })
    | none =>
      refine ⟨k, ?_⟩
      rw [mapRawRound_climb (hshows.passes hno) (hshows.ipar ▸ hnoMap), hshows.ipar, hfind]
      rfl
  | some imap =>
    have hhas : tree.Has y.ipar .interruptMap := hshows.ipar ▸ has_of_property hmap
    by_cases hunit : x.unit = none ∧ x.addrCells ≠ 0
    · refine ⟨0, ?_⟩
      unfold mapRawRound
      rw [if_neg (hshows.passes hno), if_neg (not_not.mpr hhas), if_pos]
      refine ⟨hshows.addr.mpr hunit.1, fun hzero => hunit.2 ?_⟩
      rw [← hshows.addrsize, hzero]
      rfl
    · obtain ⟨-, hfails⟩ := scan_spec hshows hmap hunit (scanAt_start hmap)
        (hplain imap ⟨hno, hmap, hunit⟩)
      obtain ⟨k, hk⟩ := hfails fun z hz => h z (.map hno hmap hz)
      refine ⟨k, ?_⟩
      rw [mapRawRound_search ⟨hshows.passes hno, hhas, hshows.noAddr hunit⟩, hshows.ipar, hk]
      rfl

end Round

/-! ## The whole way

The rounds follow the steps of the interrupt one by one. Where these end the code's last round is at
the same node, and where they do not the loop does not end either. -/

section Run

variable {x z : IrqSource n} {y : IrqPosition n} {out : BtOfIrq n}

/-- Wherever the interrupt comes the map can be searched. -/
theorem Plain.at (h : tree.Plain x) (hz : Relation.ReflTransGen tree.Leads x z) (imap : IrqProperty)
    (hsearch : tree.ToSearch z imap) : tree.Searchable z imap.cells := h z imap hz hsearch

/-- The code goes where the interrupt is handed to. -/
theorem mapRaw_reaches (hshows : Shows tree y x) (hplain : tree.Plain x)
    (hz : Relation.ReflTransGen tree.Leads x z) :
    ∃ y', Relation.ReflTransGen (Goes (tree.mapRawRound true out)) y y' ∧ Shows tree y' z := by
  induction hz with
  | refl => exact ⟨y, .refl, hshows⟩
  | tail hreach hlead ih =>
    obtain ⟨y', hy', hshows'⟩ := ih
    obtain ⟨y'', hgo, hshows''⟩ := round_leads hshows' (fun imap => hplain.at hreach imap) hlead
    exact ⟨y'', hy'.tail hgo, hshows''⟩

theorem mapRawRound_le (k l : ℕ) (y : IrqPosition n) (r : IrqResult n ⊕ IrqPosition n) (hkl : k ≤ l)
    (h : tree.mapRawRound true out k y = some r) : tree.mapRawRound true out l y = some r :=
  mapRawRound_mono hkl h

/-- A controller is reached with a specifier that has cells. -/
theorem mapRaw_resolves (hshows : Shows tree y x) (hplain : tree.Plain x)
    (hz : Relation.ReflTransGen tree.Leads x z) (hc : tree.Has z.node .interruptController)
    {c : UInt32} {cs : List UInt32} (hspec : z.spec = c :: cs) :
    ∃ k o, rounds (tree.mapRawRound true out k) k y = some (.errNone o) ∧ o.controller = z.node ∧
      o.size.toNat = z.spec.length ∧ o.specifier = Function.update out.specifier 0 c := by
  obtain ⟨y', hy', hshows'⟩ := @mapRaw_reaches n tree x z y out hshows hplain hz
  obtain ⟨k, hk⟩ := (rounds_result_iff mapRawRound_le y _).mpr
    ⟨y', hy', 0, round_controller hshows' hc hspec 0⟩
  exact ⟨k, _, hk, hshows'.ipar, hshows'.intsize, rfl⟩

/-- An endless chain apart, an interrupt comes somewhere from where it is not handed on. -/
theorem leads_stops (h : Acc (fun b a => tree.Leads a b) x) :
    ∃ z, Relation.ReflTransGen tree.Leads x z ∧ ∀ z', ¬tree.Leads z z' := by
  induction h with
  | intro x _ ih =>
    by_cases hstop : ∀ z', ¬tree.Leads x z'
    · exact ⟨x, .refl, hstop⟩
    · obtain ⟨z', hz'⟩ := not_forall_not.mp hstop
      obtain ⟨z, hreach, hz⟩ := ih z' hz'
      exact ⟨z, .head hz' hreach, hz⟩

/-- No controller is reached. -/
theorem mapRaw_fails (hshows : Shows tree y x) (hplain : tree.Plain x)
    (hacc : Acc (fun b a => tree.Leads a b) x) (hends : ∀ z, Relation.ReflTransGen tree.Leads x z →
      ¬LeadsBack tree.Climbs z.node)
    (h : ∀ r, ¬tree.Resolves x r) :
    ∃ k, rounds (tree.mapRawRound true out k) k y = some .errGeneric := by
  obtain ⟨z, hz, hstop⟩ := leads_stops hacc
  obtain ⟨y', hy', hshows'⟩ := @mapRaw_reaches n tree x z y out hshows hplain hz
  have hno : ¬tree.Has z.node .interruptController := fun hc => h _ ⟨z, hz, hc, rfl⟩
  obtain ⟨k, hk⟩ := @round_fails n tree z y' out hshows' (fun imap => hplain.at hz imap)
    (hends z hz) hno hstop
  exact (rounds_result_iff mapRawRound_le y _).mpr ⟨y', hy', k, hk⟩

/-- What is returned with success has at least one cell. -/
theorem mapRaw_size {k : ℕ} {o : BtOfIrq n}
    (h : rounds (tree.mapRawRound true out k) k y = some (.errNone o)) :
    0 < o.size := by
  obtain ⟨y', -, l, hl⟩ := (rounds_result_iff mapRawRound_le y _).mp ⟨k, h⟩
  unfold mapRawRound at hl
  split_ifs at hl with hc hmap haddr
  · split at hl
    · exact nomatch hl
    · obtain rfl := IrqResult.errNone.inj (Sum.inl.inj (Option.some.inj hl))
      exact hc.2
  · exact nomatch hl
  · split at hl <;> exact nomatch hl
  · split at hl <;> exact nomatch hl

end Run

end IrqTree

end BitThunder
