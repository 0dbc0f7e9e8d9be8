import BitThunder.Of.InterruptsEnd

/-!
# What an interrupt of a device stands for

An interrupt is handed from node to node, with a unit address and a specifier, which are lists of
cells. A controller keeps it, a map hands it to the node of its first entry that matches, and
without a map it goes to the interrupt parent.

* `IrqTree.Resolves`, `IrqTree.Standard`: the controller that an interrupt comes to, and the
  specifier there;
* `IrqTree.Resolves.unique`, `IrqTree.Standard.unique`: there is at most one;
* `IrqTree.Searchable`, `IrqTree.Plain`: the maps on the way can be searched without reading behind
  a property, in words of 32 bits, and without the last entry of a map if that has no cells for its
  parent.

The definitions here are relations, and nothing in them counts rounds. An interrupt that goes in a
circle comes to no controller, and so stands for nothing; that the code does not return then is a
matter of its own.

`Searchable` is what the code needs and a tree does not promise. It is about the entries before the
first match only, and about that one. A map that was written for its specification is one, but for a
last entry whose parent has no unit address: there the code takes the entry for cut off.
-/

namespace BitThunder

/-- An interrupt at a node: its unit address, with the number of cells that this is to have, and its
specifier. -/
structure IrqSource (n : ℕ) : Type where
  node : Fin n
  addrCells : ℕ
  unit : Option (List UInt32)
  spec : List UInt32

/-- The number of cells that are compared with those of an entry -/
def IrqSource.width {n : ℕ} (x : IrqSource n) : ℕ := x.addrCells + x.spec.length

/-- A cell that is compared: one of the unit address, and behind these one of the specifier -/
def IrqSource.cell {n : ℕ} (x : IrqSource n) (i : ℕ) : Option UInt32 :=
  if i < x.addrCells then x.unit.bind (·[i]?) else x.spec[i - x.addrCells]?

namespace IrqTree

variable {n : ℕ} (tree : IrqTree n)

/-! ## The maps

An entry is parsed from the beginning of a list of cells, and what is behind it is the rest of the
list. How long it is depends on the node that it leads to, which has to be looked up in the middle
of it. -/

/-- A cell of the mask. Without the property all bits are compared. -/
def mask (node : Fin n) (i : ℕ) : Option UInt32 :=
  match tree.btOfGetProperty node .interruptMapMask with
  | none => some 0xffffffff
  | some p => p.cells[i]?

/-- Whether cell `i` of an entry is the one that is asked for, if all of these cells are there -/
def compareCell (x : IrqSource n) (entry : List UInt32) (i : ℕ) : Option Bool := do
  let mask ← tree.mask x.node i
  let c ← x.cell i
  let m ← entry[i]?
  return (c ^^^ m) &&& mask == 0

/-- The entry at the beginning of the cells matches. -/
def Matches (x : IrqSource n) (entry : List UInt32) : Prop :=
  ∀ i < x.width, tree.compareCell x entry i = some true

/-- A cell differs before any is missing. -/
def Mismatches (x : IrqSource n) (entry : List UInt32) : Prop :=
  ∃ i < x.width, (∀ j < i, tree.compareCell x entry j = some true) ∧
  tree.compareCell x entry i = some false

/-- The node that a phandle in a map stands for, and how many cells of a unit address and of a
specifier it has -/
def mapTarget (phandle : UInt32) : Option (Fin n × UInt32 × UInt32) :=
  (tree.btOfFindNodeByPhandle phandle).bind fun newpar =>
    (tree.number newpar .interruptCells).map fun newintsize =>
      (newpar, (tree.number newpar .addressCells).getD 0, newintsize)

/-- The entry at the beginning of the cells: the interrupt that it makes of this one, and the cells
behind it -/
def parseEntry (x : IrqSource n) (entry : List UInt32) : Option (IrqSource n × List UInt32) :=
  match entry.drop x.width with
  | [] => none
  | phandle :: rest =>
    match tree.mapTarget phandle with
    | none => none
    | some (newpar, newaddrsize, newintsize) =>
      let a := newaddrsize.toNat
      let s := newintsize.toNat
      if a + s ≤ rest.length then
        some (⟨newpar, a, some (rest.take a), (rest.drop a).take s⟩, rest.drop (a + s))
      else none

/-- The first entry of a map that matches makes `y` of the interrupt. -/
inductive FirstEntry (x : IrqSource n) : List UInt32 → IrqSource n → Prop
  | here {entry : List UInt32} {y : IrqSource n} {rest : List UInt32}
  (parsed : tree.parseEntry x entry = some (y, rest))
      (hit : tree.Matches x entry) : FirstEntry x entry y
  | later {entry : List UInt32} {y z : IrqSource n} {rest : List UInt32}
      (parsed : tree.parseEntry x entry = some (z, rest)) (miss : ¬tree.Matches x entry)
      (next : FirstEntry x rest y) :
      FirstEntry x entry y

/-! ## From node to node

The steps of an interrupt are a relation. It has at most one step from each node, which is shown
below and makes the controller that is reached the only one. -/

/-- Where the interrupt is handed to next -/
inductive Leads : IrqSource n → IrqSource n → Prop
  | up {x : IrqSource n} {q : Fin n} (noController : ¬tree.Has x.node .interruptController)
      (noMap : ¬tree.Has x.node .interruptMap) (parent : tree.InterruptParent x.node q) :
      Leads x { x with node := q }
  | map {x y : IrqSource n} {imap : IrqProperty}
    (noController : ¬tree.Has x.node .interruptController)
      (hasMap : tree.btOfGetProperty x.node .interruptMap = some imap)
        (first : tree.FirstEntry x imap.cells y) : Leads x y

/-- The interrupt comes to this controller, with this specifier. -/
def Resolves (x : IrqSource n) (r : Fin n × List UInt32) : Prop :=
  ∃ y, Relation.ReflTransGen tree.Leads x y ∧ tree.Has y.node .interruptController ∧
  r = (y.node, y.spec)

/-- The interrupt `index` of a device, at its interrupt parent. The specifier is complete. -/
def DeviceInterrupt (device : Fin n) (index : UInt32) (x : IrqSource n) : Prop :=
  ∃ interrupts p intsize, tree.btOfGetProperty device .interrupts = some interrupts ∧
  tree.InterruptParent device p ∧
    tree.number p .interruptCells = some intsize ∧
    (index.toNat + 1) * intsize.toNat ≤ interrupts.cells.length ∧
    x = ⟨p, (tree.addrCells p).toNat, (tree.btOfGetProperty device .reg).map IrqProperty.cells,
      (interrupts.cells.drop (index.toNat * intsize.toNat)).take intsize.toNat⟩

/-- What an interrupt of a device stands for -/
def Standard (device : Fin n) (index : UInt32) (r : Fin n × List UInt32) : Prop :=
  ∃ x, tree.DeviceInterrupt device index x ∧ tree.Resolves x r

/-- The number of complete specifiers of a device -/
inductive HasSpecifiers (device : Fin n) : ℕ → Prop
  | noInterrupts (h : ¬tree.Has device .interrupts) : HasSpecifiers device 0
  | noParent (h : ∀ p, ¬tree.InterruptParent device p) : HasSpecifiers device 0
  | specifiers {interrupts : IrqProperty} {p : Fin n} {intsize : UInt32}
      (property : tree.btOfGetProperty device .interrupts = some interrupts)
      (parent : tree.InterruptParent device p)
      (cells : tree.number p .interruptCells = some intsize) (pos : 0 < intsize.toNat) :
      HasSpecifiers device (interrupts.cells.length / intsize.toNat)

/-! ## What the search of a map relies on

The search has to read an entry to find the next one, also if it does not match. So the entries
before the match have to be whole, or at least to differ before they end. -/

/-- The entries of a map can be read up to the one that matches: the cells are there, or differ
before one is missing; the sizes are words; and where the last entry has no cells for its parent it
does not match. -/
inductive Searchable (x : IrqSource n) : List UInt32 → Prop
  | last {entry : List UInt32} (short : entry.length ≤ x.width + 1) (word : x.width + 1 < 2 ^ 32)
      (noHit : ∀ y rest, tree.parseEntry x entry = some (y, rest) → ¬tree.Matches x entry) :
      Searchable x entry
  | entry {entry : List UInt32} (long : x.width + 1 < entry.length)
      (compared : tree.Matches x entry ∨ tree.Mismatches x entry)
      (word : ∀ phandle newpar a s, entry[x.width]? = some phandle →
        tree.mapTarget phandle = some (newpar, a, s) →
        a.toNat + s.toNat < 2 ^ 32)
      (next : ∀ y rest, tree.parseEntry x entry = some (y, rest) → ¬tree.Matches x entry →
        Searchable x rest) :
      Searchable x entry

/-- The map of the node is to be searched. -/
structure ToSearch (x : IrqSource n) (imap : IrqProperty) : Prop where
  /-- the node is no controller -/
  noController : ¬tree.Has x.node .interruptController
  /-- it has a map -/
  map : tree.btOfGetProperty x.node .interruptMap = some imap
  /-- and the interrupt a unit address, if one is needed -/
  unit : ¬(x.unit = none ∧ x.addrCells ≠ 0)

/-- All maps on the way can be searched. -/
def Plain (x₀ : IrqSource n) : Prop :=
  ∀ x imap, Relation.ReflTransGen tree.Leads x₀ x → tree.ToSearch x imap →
  tree.Searchable x imap.cells

/-! ## There is one result at most -/

section Unique

variable {tree} {c p q : Fin n} {x y z : IrqSource n} {entry : List UInt32}

theorem InterruptParent.unique (hp : tree.InterruptParent c p) (hq : tree.InterruptParent c q) :
    p = q := by
  obtain ⟨k, hk⟩ := findParent_found_iff.mpr hp
  obtain ⟨l, hl⟩ := findParent_found_iff.mpr hq
  exact Option.some.inj (findParent_unique hk hl)

theorem FirstEntry.unique (hy : tree.FirstEntry x entry y) (hz : tree.FirstEntry x entry z) :
    y = z := by
  induction hy with
  | here hparsed hhit =>
    cases hz with
    | here hparsed' _ => exact (Prod.mk.inj (Option.some.inj (hparsed.symm.trans hparsed'))).1
    | later _ hmiss _ => exact absurd hhit hmiss
  | later hparsed hmiss _ ih =>
    cases hz with
    | here _ hhit => exact absurd hhit hmiss
    | later hparsed' _ hnext =>
      obtain ⟨-, rfl⟩ := Prod.mk.inj (Option.some.inj (hparsed.symm.trans hparsed'))
      exact ih hnext

theorem has_of_property {np : Fin n} {name : IrqName} {p : IrqProperty}
    (h : tree.btOfGetProperty np name = some p) :
    tree.Has np name := by
  unfold Has
  rw [h]
  rfl

theorem Leads.unique (hy : tree.Leads x y) (hz : tree.Leads x z) : y = z := by
  cases hy with
  | up _ hno hparent =>
    cases hz with
    | up _ _ hparent' => rw [hparent.unique hparent']
    | map _ hmap _ => exact absurd (has_of_property hmap) hno
  | map _ hmap hfirst =>
    cases hz with
    | up _ hno _ => exact absurd (has_of_property hmap) hno
    | map _ hmap' hfirst' =>
      obtain rfl := Option.some.inj (hmap.symm.trans hmap')
      exact hfirst.unique hfirst'

theorem Leads.noController (h : tree.Leads x y) : ¬tree.Has x.node .interruptController := by
  cases h with
  | up hno _ _ => exact hno
  | map hno _ _ => exact hno

theorem Resolves.unique {r s : Fin n × List UInt32} (hr : tree.Resolves x r)
    (hs : tree.Resolves x s) : r = s := by
  obtain ⟨y, hxy, hy, rfl⟩ := hr
  induction hxy using Relation.ReflTransGen.head_induction_on with
  | refl =>
    obtain ⟨z, hyz, -, rfl⟩ := hs
    rcases hyz.cases_head with rfl | ⟨w, hw, -⟩
    · rfl
    · exact absurd hy hw.noController
  | head hstep _ ih =>
    obtain ⟨z, hxz, hz, rfl⟩ := hs
    have hdet : ∀ x y z, tree.Leads x y → tree.Leads x z → y = z := fun _ _ _ => Leads.unique
    rcases reaches_cases hdet hstep hxz with rfl | hxz
    · exact absurd hz hstep.noController
    · exact ih ⟨z, hxz, hz, rfl⟩

theorem DeviceInterrupt.unique {device : Fin n} {index : UInt32}
    (hx : tree.DeviceInterrupt device index x) (hy : tree.DeviceInterrupt device index y) :
    x = y := by
  obtain ⟨interrupts, p, intsize, hint, hparent, hcells, -, rfl⟩ := hx
  obtain ⟨interrupts', p', intsize', hint', hparent', hcells', -, rfl⟩ := hy
  obtain rfl := Option.some.inj (hint.symm.trans hint')
  obtain rfl := hparent.unique hparent'
  obtain rfl := Option.some.inj (hcells.symm.trans hcells')
  rfl

theorem Standard.unique {device : Fin n} {index : UInt32} {r s : Fin n × List UInt32}
    (hr : tree.Standard device index r) (hs : tree.Standard device index s) : r = s := by
  obtain ⟨x, hx, hr⟩ := hr
  obtain ⟨y, hy, hs⟩ := hs
  obtain rfl := hx.unique hy
  exact hr.unique hs

end Unique

end IrqTree

end BitThunder
