import BitThunder.Lib.Rounds
import Mathlib.Tactic

/-!
# Resolving the interrupts of a device

`os/src/of/irq.c`. An interrupt is a number of cells, and how many there are is a property of the
node that it goes to: the next node above, or where an `interrupt-parent` leads, that has
`#interrupt-cells`. From there an `interrupt-map` leads on to another node, with other cells, until
an interrupt controller is reached.

Each loop is given a number of rounds, and there is nothing where it has not ended then. A cell is
read through a pointer into a property; what is read behind its end is some number, or a fault if
reads are checked.

All that the code reads are cells behind a pointer, so that a property is given with what is behind
it. With unchecked reads the functions are those of the source; with checked ones they fault where
the source leaves a property. What is proved is proved with checked reads, and a result without a
fault is the same without the check.
-/

namespace BitThunder

/-! ## The tree

Nodes are numbers below `n`, and a parent has a lower number than its child. So everything is
finite, and going up comes to an end, while a phandle can lead to any node. -/

/-- The properties that `irq.c` looks for -/
inductive IrqName : Type where
  | interruptParent
  | interruptCells
  | addressCells
  | interruptController
  | interruptMap
  | interruptMapMask
  | interrupts
  | reg
  deriving DecidableEq

def IrqName.text : IrqName → String
  | .interruptParent => "interrupt-parent"
  | .interruptCells => "#interrupt-cells"
  | .addressCells => "#address-cells"
  | .interruptController => "interrupt-controller"
  | .interruptMap => "interrupt-map"
  | .interruptMapMask => "interrupt-map-mask"
  | .interrupts => "interrupts"
  | .reg => "reg"

/-- `struct bt_device_property`: cells and up to three more bytes, and what is read behind the
cells. The length is a word. -/
structure IrqProperty : Type where
  cells : List UInt32
  /-- the bytes that make no cell -/
  tail : Fin 4
  /-- what is read behind the cells -/
  behind : ℕ → UInt32
  /-- the length is a word -/
  word : 4 * cells.length + tail < 2 ^ 32

theorem no_tail : 0 < 4 := by decide

/-- A cell counted from the beginning of the value, big-endian -/
def IrqProperty.cell (p : IrqProperty) (i : ℕ) : UInt32 := p.cells.getD i (p.behind i)

/-- `p->length / sizeof(BT_u32)` -/
def IrqProperty.len (p : IrqProperty) : UInt32 := UInt32.ofNat ((4 * p.cells.length + p.tail) / 4)

/-- `struct bt_device_node` -/
structure IrqNode (n : ℕ) : Type where
  parent : Option (Fin n)
  phandle : UInt32
  properties : List (String × IrqProperty)

/-- The nodes, in the order in which they were unflattened, each after its parent, and the list of
them. -/
structure IrqTree (n : ℕ) : Type where
  node : Fin n → IrqNode n
  allNodes : List (Fin n)
  parent_lt : ∀ i p, (node i).parent = some p → p < i

/-- A pointer to cells of a property -/
@[ext] structure CellPointer (n : ℕ) : Type where
  node : Fin n
  name : IrqName
  offset : UInt32

/-- `struct bt_of_irq` -/
structure BtOfIrq (n : ℕ) : Type where
  controller : Fin n
  size : UInt32
  specifier : Fin 4 → UInt32

namespace IrqTree

variable {n : ℕ} (tree : IrqTree n)

/-- `bt_of_get_property` -/
def btOfGetProperty (np : Fin n) (name : IrqName) : Option IrqProperty :=
  ((tree.node np).properties.find? fun p => p.1 = name.text).map Prod.snd

/-- `bt_of_find_node_by_phandle` -/
def btOfFindNodeByPhandle (phandle : UInt32) : Option (Fin n) :=
  tree.allNodes.find? fun i => (tree.node i).phandle = phandle

/-- `bt_be32_to_cpu` of what a property begins with -/
def number (np : Fin n) (name : IrqName) : Option UInt32 :=
  (tree.btOfGetProperty np name).map fun p => p.cell 0

/-- Whether a node has a property -/
def Has (np : Fin n) (name : IrqName) : Prop := (tree.btOfGetProperty np name).isSome

instance (np : Fin n) (name : IrqName) : Decidable (tree.Has np name) :=
  inferInstanceAs (Decidable (_ = true))

/-- The cell `i` behind a pointer. If reads are `checked` there is nothing behind the end of a
property. -/
def read (checked : Bool) (p : CellPointer n) (i : UInt32) : Option UInt32 :=
  let i := (p.offset + i).toNat
  match tree.btOfGetProperty p.node p.name with
  | none => if checked then none else some 0
  | some prop => if checked ∧ prop.cells.length ≤ i then none else some (prop.cell i)

/-! ## The interrupt parent

The link of a node is its `interrupt-parent`, and its parent in the tree without one. The loop goes
on from a node that has no `#interrupt-cells`. -/

/-- Where the interrupts of a node go, one step -/
def parentLink (child : Fin n) : Option (Fin n) :=
  match tree.number child .interruptParent with
  | none => (tree.node child).parent
  | some phandle => tree.btOfFindNodeByPhandle phandle

/-- A round of the loop of `bt_of_irq_find_parent` -/
def findParentRound (child : Fin n) : Option (Fin n) ⊕ Fin n :=
  match tree.parentLink child with
  | none => .inl none
  | some p => if tree.Has p .interruptCells then .inl (some p) else .inr p

/-- `bt_of_irq_find_parent` of a node, in at most `k` rounds -/
def btOfIrqFindParent (k : ℕ) (child : Fin n) : Option (Option (Fin n)) :=
  rounds (fun c => some (tree.findParentRound c)) k child

end IrqTree

/-! ## The map of a node

An entry is compared with what is asked for, cell by cell under the mask, and what is behind these
cells says where it leads. The pointer and the count of the cells are moved on by each entry that
does not match. -/

/-- Where the loop of `bt_of_irq_map_raw` is: the node, the cells for it, and the unit address if
there is one. -/
@[ext] structure IrqPosition (n : ℕ) : Type where
  ipar : Fin n
  addrsize : UInt32
  intsize : UInt32
  intspec : CellPointer n
  addr : Option (CellPointer n)

/-- What is found in an entry of a map: the node that it leads to, how many cells this has, and what
is behind it. -/
structure MapEntry (n : ℕ) : Type where
  newpar : Fin n
  newaddrsize : UInt32
  newintsize : UInt32
  imap : UInt32
  imaplen : UInt32

/-- How the search of a map ends. -/
inductive MapEnd (n : ℕ) : Type where
  | fault
  | fail
  | found (e : MapEntry n)

/-- The loops over the cells of an entry: whether they match, for so many rounds from `i` on -/
def matchLoop (cellMatches : UInt32 → Option Bool) : ℕ → UInt32 → Option Bool
  | 0, _ => some true
  | k + 1, i =>
    match cellMatches i with
    | none => none
    | some false => some false
    | some true => matchLoop cellMatches k (i + 1)

namespace IrqTree

variable {n : ℕ} (tree : IrqTree n) (checked : Bool)

/-- `imask ? imask[i] : bt_cpu_to_be32(0xffffffffu)` -/
def maskCell (ipar : Fin n) (i : UInt32) : Option UInt32 :=
  if tree.Has ipar .interruptMapMask then tree.read checked ⟨ipar, .interruptMapMask, 0⟩ i
    else some 0xffffffff

/-- `((p[j] ^ imap[i]) & mask) == 0` -/
def cellMatches (ipar : Fin n) (imap : UInt32) (p : CellPointer n) (j i : UInt32) :
    Option Bool := do
  let mask ← tree.maskCell checked ipar i
  let c ← tree.read checked p j
  let m ← tree.read checked ⟨ipar, .interruptMap, imap⟩ i
  return (c ^^^ m) &&& mask == 0

/-- Whether a cell of the unit address matches. Without one there are no cells for it. -/
def unitMatches (x : IrqPosition n) (imap i : UInt32) : Option Bool :=
  match x.addr with
  | none => none
  | some addr => tree.cellMatches checked x.ipar imap addr i i

/-- Whether the entry at `imap` matches -/
def entryMatches (x : IrqPosition n) (imap : UInt32) : Option Bool :=
  match matchLoop (tree.unitMatches checked x imap) x.addrsize.toNat 0 with
  | some true =>
    matchLoop (fun i => tree.cellMatches checked x.ipar imap x.intspec (i - x.addrsize) i)
      ((x.addrsize + x.intsize).toNat - x.addrsize.toNat) x.addrsize
  | r => r

/-- What the entry at `imap` leads to. There is nothing inside if this fails. -/
def readEntry (x : IrqPosition n) (imap imaplen : UInt32) : Option (Option (MapEntry n)) :=
  let imap := imap + (x.addrsize + x.intsize)
  let imaplen := imaplen - (x.addrsize + x.intsize)
  match tree.read checked ⟨x.ipar, .interruptMap, imap⟩ 0 with
  | none => none
  | some phandle =>
    let imap := imap + 1
    let imaplen := imaplen - 1
    match tree.btOfFindNodeByPhandle phandle with
    | none => some none
    | some newpar =>
      match tree.number newpar .interruptCells with
      | none => some none
      | some newintsize =>
        let newaddrsize := (tree.number newpar .addressCells).getD 0
        if imaplen < newaddrsize + newintsize then some none
        else
          some (some ⟨newpar, newaddrsize, newintsize, imap + (newaddrsize + newintsize),
            imaplen - (newaddrsize + newintsize)⟩)

/-- A round of the loop over the entries, with `imap` and `imaplen` -/
def mapRound (x : IrqPosition n) (e : UInt32 × UInt32) : MapEnd n ⊕ (UInt32 × UInt32) :=
  if e.2 > x.addrsize + x.intsize + 1 then
    match tree.entryMatches checked x e.1, tree.readEntry checked x e.1 e.2 with
    | some _, some none => .inl .fail
    | some true, some (some entry) => .inl (.found entry)
    | some false, some (some entry) => .inr (entry.imap, entry.imaplen)
    | none, _ => .inl .fault
    | _, none => .inl .fault
  else .inl .fail

/-- Where the entries of a map begin -/
def mapStart (ipar : Fin n) : UInt32 × UInt32 :=
  (0, ((tree.btOfGetProperty ipar .interruptMap).map IrqProperty.len).getD 0)

/-- The position that a matching entry leads to -/
def behind (x : IrqPosition n) (e : MapEntry n) : IrqPosition n :=
  { ipar := e.newpar
    addrsize := e.newaddrsize
    intsize := e.newintsize
    intspec := ⟨x.ipar, .interruptMap, e.imap - e.newintsize⟩
    addr := some ⟨x.ipar, .interruptMap, e.imap - e.newintsize - e.newaddrsize⟩ }

end IrqTree

/-! ## The resolution

The loops are put together here, each with its own number of rounds. Of a specifier only the first
cell is copied, as the source does it. -/

/-- How `bt_of_irq_map_raw` ends: with a read behind a property, `BT_ERR_GENERIC`, or `BT_ERR_NONE`
and `out_irq`. -/
inductive IrqResult (n : ℕ) : Type where
  | fault
  | errGeneric
  | errNone (out : BtOfIrq n)

namespace IrqTree

variable {n : ℕ} (tree : IrqTree n) (checked : Bool)

/-- The loop over the cells of the specifier returns after the first one. -/
def writeIrq (out : BtOfIrq n) (x : IrqPosition n) (cell : UInt32) : BtOfIrq n :=
  { controller := x.ipar
    size := x.intsize
    specifier := Function.update out.specifier 0 cell }

/-- A round of the loop of `bt_of_irq_map_raw`, with at most `k` rounds of those within -/
def mapRawRound (out : BtOfIrq n) (k : ℕ) (x : IrqPosition n) :
    Option (IrqResult n ⊕ IrqPosition n) :=
  if tree.Has x.ipar .interruptController ∧ 0 < x.intsize then
    match tree.read checked x.intspec 0 with
    | none => some (.inl .fault)
    | some cell => some (.inl (.errNone (writeIrq out x cell)))
  else if ¬tree.Has x.ipar .interruptMap then
    match tree.btOfIrqFindParent k x.ipar with
    | none => none
    | some none => some (.inl .errGeneric)
    | some (some newpar) => some (.inr { x with ipar := newpar })
  else if x.addr = none ∧ x.addrsize ≠ 0 then some (.inl .errGeneric)
  else
    match rounds (fun e => some (tree.mapRound checked x e)) k (tree.mapStart x.ipar) with
    | none => none
    | some .fault => some (.inl .fault)
    | some .fail => some (.inl .errGeneric)
    | some (.found e) => some (.inr (behind x e))

/-- The first loop of `bt_of_irq_map_raw`: the nearest node with `#interrupt-cells`, from `parent`
on. Where it is not `parent`, `bt_of_irq_find_parent` has it. -/
def firstParent (k : ℕ) (parent : Fin n) : Option (Option (Fin n)) :=
  if tree.Has parent .interruptCells then some (some parent) else tree.btOfIrqFindParent k parent

/-- The second loop: `#address-cells` of the next node that has it, which is one of so many. -/
def nearestAddressCells : ℕ → Fin n → Option UInt32
  | 0, _ => none
  | k + 1, old =>
    match tree.number old .addressCells with
    | some cells => some cells
    | none =>
      match (tree.node old).parent with
      | none => none
      | some parent => nearestAddressCells k parent

/-- `addrsize` for a node, which has no more nodes above it than there are before it. -/
def addrCells (ipar : Fin n) : UInt32 := (tree.nearestAddressCells (ipar + 1) ipar).getD 2

/-- `bt_of_irq_map_raw` -/
def btOfIrqMapRaw (k : ℕ) (parent : Fin n) (intspec : CellPointer n) (ointsize : UInt32)
    (addr : Option (CellPointer n)) (out : BtOfIrq n) : Option (IrqResult n) :=
  match tree.firstParent k parent with
  | none => none
  | some none => some .errGeneric
  | some (some ipar) =>
    let intsize := (tree.number ipar .interruptCells).getD 1
    if ointsize ≠ intsize then some .errGeneric
    else rounds (tree.mapRawRound checked out k) k ⟨ipar, tree.addrCells ipar, intsize, intspec,
      addr⟩

/-- `reg` -/
def regPointer (device : Fin n) : Option (CellPointer n) :=
  if tree.Has device .reg then some ⟨device, .reg, 0⟩ else none

/-- `bt_of_irq_map_one` -/
def btOfIrqMapOne (k : ℕ) (device : Fin n) (index : UInt32) (out : BtOfIrq n) :
    Option (IrqResult n) :=
  match tree.btOfGetProperty device .interrupts with
  | none => some .errGeneric
  | some interrupts =>
    match tree.btOfIrqFindParent k device with
    | none => none
    | some none => some .errGeneric
    | some (some p) =>
      match tree.number p .interruptCells with
      | none => some .errGeneric
      | some intsize =>
        if (index + 1) * intsize > interrupts.len then some .errGeneric
        else
          tree.btOfIrqMapRaw checked k p ⟨device, .interrupts, index * intsize⟩ intsize
            (tree.regPointer device) out

/-- `bt_of_irq_parse_and_map`, with what is on the stack where `oirq` is. There is nothing inside
after a fault. -/
def btOfIrqParseAndMap (k : ℕ) (device : Fin n) (index : UInt32) (oirq : BtOfIrq n) :
    Option (Option UInt32) :=
  (tree.btOfIrqMapOne checked k device index oirq).map fun retval =>
    match retval with
    | .fault => none
    | .errGeneric => some 0
    | .errNone oirq => some (oirq.specifier 0)

/-- A round of the loop of `bt_of_irq_count`; `bt_of_irq_to_resource` without a resource is
`bt_of_irq_parse_and_map`. -/
def countRound (device : Fin n) (oirq : BtOfIrq n) (k : ℕ) (nr : UInt32) :
    Option (Option UInt32 ⊕ UInt32) :=
  (tree.btOfIrqParseAndMap checked k device nr oirq).map fun irq =>
    match irq with
    | none => .inl none
    | some irq => if irq ≠ 0 then .inr (nr + 1) else .inl (some nr)

/-- `bt_of_irq_count` -/
def btOfIrqCount (k : ℕ) (device : Fin n) (oirq : BtOfIrq n) : Option (Option UInt32) :=
  rounds (tree.countRound checked device oirq k) k 0

end IrqTree

/-! ## There are finitely many positions -/

instance : Finite IrqName :=
  Finite.of_surjective
    (fun i : Fin 8 => [IrqName.interruptParent, .interruptCells, .addressCells,
      .interruptController, .interruptMap, .interruptMapMask, .interrupts, .reg].get i)
      fun name => by
    cases name
    exacts [⟨0, rfl⟩, ⟨1, rfl⟩, ⟨2, rfl⟩, ⟨3, rfl⟩, ⟨4, rfl⟩, ⟨5, rfl⟩, ⟨6, rfl⟩, ⟨7, rfl⟩]

instance finite_uint32 : Finite UInt32 :=
  Finite.of_injective UInt32.toFin fun _ _ h => UInt32.toFin_inj.mp h

instance (n : ℕ) : Finite (CellPointer n) :=
  Finite.of_injective (fun p => (p.node, p.name, p.offset)) fun p q h => by
    obtain ⟨hnode, hname, hoffset⟩ : p.node = q.node ∧ p.name = q.name ∧ p.offset = q.offset := by
      simpa using h
    exact CellPointer.ext hnode hname hoffset

instance (n : ℕ) : Finite (IrqPosition n) :=
  Finite.of_injective (fun x => (x.ipar, x.addrsize, x.intsize, x.intspec, x.addr)) fun x y h => by
    obtain ⟨hipar, haddrsize, hintsize, hintspec, haddr⟩ : x.ipar = y.ipar ∧
        x.addrsize = y.addrsize ∧
        x.intsize = y.intsize ∧ x.intspec = y.intspec ∧ x.addr = y.addr := by simpa using h
    exact IrqPosition.ext hipar haddrsize hintsize hintspec haddr

end BitThunder
