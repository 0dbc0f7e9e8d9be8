import Mathlib.Data.List.Basic
import Mathlib.Tactic

/-!
# Translating the address of a device

`bt_of_translate_address` of `os/src/of/address.c`. The address of a device is a number of cells, of
32 bits each; how many there are is a property of the bus. The code goes up the tree from bus to bus
and translates the address in place, in a buffer of four cells, by the `ranges` of each one.

* `btOfReadNumber_eq`, `defaultMap_eq`, `rangesLoop_eq`, `defaultTranslate_take`: each function of
  the code, against the reference;
* `btOfTranslateOne_eq`: one bus;
* `translate_address_iff`: the whole walk. The number of cells of an entry is computed in 32 bits,
  and the code is right as long as this does not wrap and the counts it reads are there.

The reference is the specification's own way of saying it: a `ranges` is a list of entries, an
address is a number, and it is looked up in the first entry that contains it. The code never has the
list. It moves an offset by the length of an entry, which it computes as four times a sum in 32
bits, and this product is the one place where the two can part. A length that does not wrap is
right. One that wraps does no harm if it is still more than there is, since the loop looks at no
entry then; otherwise there is less than one entry to look at, and the first look leaves the
property.

What carries the walk is `HoldsAddress`. The buffer has four cells and the bus says how many of them
count, so that the address is what the buffer begins with, and what is behind it does not matter.
One bus preserves this or ends the walk.
-/

namespace BitThunder

/-! ## The tree

A node is known with its properties and with all that is above it, since nothing on the way to the
root looks at a child. The root is a constructor of its own: it has no bus. -/

/-- `struct bt_device_property`: its value is a number of cells and up to three more bytes. The
length is a word. -/
structure DeviceProperty : Type where
  name : String
  cells : List UInt32
  /-- the bytes that make no cell -/
  tail : Fin 4
  /-- the length is a word -/
  word : 4 * cells.length + tail < 2 ^ 32

/-- `property->length`, in bytes -/
def DeviceProperty.length (p : DeviceProperty) : ℕ := 4 * p.cells.length + p.tail

/-- `*((BT_u32 *) prop)`. There is no number if the property has no cell. -/
def DeviceProperty.firstCell (p : DeviceProperty) : Option ℕ := p.cells.head?.map UInt32.toNat

/-- `struct bt_device_node`, as far as it can be seen from below: its properties and its parent. -/
inductive DeviceNode : Type where
  | root (properties : List DeviceProperty)
  | child (properties : List DeviceProperty) (parent : DeviceNode)

namespace DeviceNode

def properties : DeviceNode → List DeviceProperty
  | .root properties => properties
  | .child properties _ => properties

/-- `bt_of_get_property` -/
def btOfGetProperty (np : DeviceNode) (name : String) : Option DeviceProperty :=
  np.properties.find? fun p => p.name = name

/-- `bt_of_n_addr_cells` and `bt_of_n_size_cells`, which differ in the property and the default -/
def nCells (name : String) (default : ℕ) : DeviceNode → Option ℕ
  | .root properties =>
    match properties.find? fun p => p.name = name with
    | some p => p.firstCell
    | none => some default
  | .child _ np =>
    match np.btOfGetProperty name with
    | some p => p.firstCell
    | none =>
      match np with
      | .root _ => some default
      | .child _ _ => nCells name default np

/-- `bt_of_n_addr_cells` -/
def btOfNAddrCells : DeviceNode → Option ℕ := nCells "#address-cells" 1

/-- `bt_of_n_size_cells` -/
def btOfNSizeCells : DeviceNode → Option ℕ := nCells "#size-cells" 1

end DeviceNode

/-! ## The code

Buffers are lists of cells, in the order in which the code reads them. A read past the end of a list
has no result, so that a result is one for which the code has stayed inside of the properties. -/

/-- A cell behind a number. -/
def appendCell (r : ℕ) (c : UInt32) : ℕ := r * 2 ^ 32 + c.toNat

/-- `r = (r << 32) | bt_be32_to_cpu(*(cell++))` -/
def shiftIn (r : ℕ) (c : UInt32) : ℕ := appendCell r c % 2 ^ 64

/-- `bt_of_read_number`. There is no number if the cells end before it does. -/
def btOfReadNumber (cell : List UInt32) (size : ℕ) : Option ℕ :=
  if size ≤ cell.length then some ((cell.take size).foldl shiftIn 0) else none

/-- `BT_OF_CHECK_COUNTS` -/
def btOfCheckCounts (na ns : ℕ) : Bool := 0 < na ∧ na ≤ 4 ∧ 0 < ns

/-- `(BT_u64) -1` -/
def minusOne : ℕ := 2 ^ 64 - 1

/-- `default_map` -/
def defaultMap (addr range : List UInt32) (na ns pna : ℕ) : Option ℕ := do
  let cp ← btOfReadNumber range na
  let s ← btOfReadNumber (range.drop (na + pna)) ns
  let da ← btOfReadNumber addr na
  if 2 < na ∧ range.take na ≠ addr.take na then return minusOne
  if da < cp ∨ (cp + s) % 2 ^ 64 ≤ da then return minusOne
  return da - cp

/-- `memcpy` of cells to the beginning of a buffer -/
def memcpyCells (addr cells : List UInt32) : List UInt32 := cells ++ addr.drop cells.length

/-- `default_translate` -/
def defaultTranslate (addr : List UInt32) (offset na : ℕ) : Option (List UInt32) := do
  let a ← btOfReadNumber addr na
  let addr := memcpyCells addr (List.replicate na 0)
  let a := (a + offset) % 2 ^ 64
  let addr := if 1 < na then addr.set (na - 2) (UInt32.ofNat (a / 2 ^ 32)) else addr
  return addr.set (na - 1) (UInt32.ofNat (a % 2 ^ 32))

/-- The loop of `bt_of_translate_one` over the entries: the offset and what is left of the ranges
from the entry on, if there is one. It never comes to an end if `rone` is zero and there is none;
with another `rone` it makes at most `rlen` rounds. -/
def rangesLoop (addr : List UInt32) (na ns pna rone : ℕ) :
    ℕ → List UInt32 → ℕ → Option (Option (ℕ × List UInt32))
  | 0, _, _ => none
  | rounds + 1, ranges, rlen =>
    if rone ≤ rlen then do
      let offset ← defaultMap addr ranges na ns pna
      if offset ≠ minusOne then return some (offset, ranges)
      rangesLoop addr na ns pna rone rounds (ranges.drop rone) (rlen - rone)
    else some none

/-- `bt_of_translate_one`: the buffer, if the address could be translated -/
def btOfTranslateOne (parent : DeviceNode) (addr : List UInt32) (na ns pna : ℕ) :
    Option (Option (List UInt32)) :=
  let identity := do
    let offset ← btOfReadNumber addr na
    let addr ← defaultTranslate (memcpyCells addr (List.replicate pna 0)) offset pna
    return some addr
  match parent.btOfGetProperty "ranges" with
  | none => identity
  | some ranges =>
    if ranges.length = 0 then identity
    else do
      let rlen := ranges.length / 4
      let rone := (na + pna + ns) % 2 ^ 32
      match ← rangesLoop addr na ns pna rone (rlen + 1) ranges.cells rlen with
      | none => return none
      | some (offset, ranges) =>
        let addr ← defaultTranslate (memcpyCells addr ((ranges.drop na).take pna)) offset pna
        return some addr

/-- The loop of `bt_of_translate_address`, with `dev` the bus that `addr` is an address of -/
def translateLoop (addr : List UInt32) (na ns : ℕ) : DeviceNode → Option ℕ
  | .root _ => btOfReadNumber addr na
  | .child properties parent =>
    let dev := DeviceNode.child properties parent
    dev.btOfNAddrCells.bind fun pna => dev.btOfNSizeCells.bind fun pns =>
      if btOfCheckCounts pna pns then do
        match ← btOfTranslateOne dev addr na ns pna with
        | none => return minusOne
        | some addr => translateLoop addr pna pns parent
      else some (minusOne)

/-- `bt_of_translate_address`, with `addr` what is in the buffer before. There is no result if a
cell is read past the end of a property, or the loop over the ranges does not end. -/
def btOfTranslateAddress (addr : List UInt32) (dev : DeviceNode) (inAddr : ℕ → UInt32) : Option ℕ :=
  match dev with
  | .root _ => some (minusOne)
  | .child _ parent =>
    dev.btOfNAddrCells.bind fun na => dev.btOfNSizeCells.bind fun ns =>
      if btOfCheckCounts na ns then
        translateLoop (memcpyCells addr ((List.range na).map inAddr)) na ns parent
      else some (minusOne)

/-! ## The reference

Nothing here wraps and nothing is read past an end. Where the tree does not say what a reference
needs, an address does not exist, and the code is to return `-1`. -/

/-- The number that cells make, in 64 bits. -/
def number (cells : List UInt32) : ℕ := cells.foldl appendCell 0 % 2 ^ 64

/-- The lowest `n` cells of a number. -/
def cellsOf (n v : ℕ) : List UInt32 :=
  (List.range n).map fun i => UInt32.ofNat (v / 2 ^ (32 * (n - 1 - i)))

/-- An entry of `ranges`: the base on this bus, the base on the bus above, and the size. -/
structure RangeEntry : Type where
  child : List UInt32
  parent : List UInt32
  size : List UInt32

/-- The entries of `ranges`, one after the other. -/
def rangeEntries (na pna ns : ℕ) (cells : List UInt32) : List RangeEntry :=
  if _h : 0 < na + pna + ns ∧ na + pna + ns ≤ cells.length then
    ⟨cells.take na, (cells.drop na).take pna, (cells.drop (na + pna)).take ns⟩ ::
      rangeEntries na pna ns (cells.drop (na + pna + ns))
  else []
termination_by cells.length
decreasing_by
  rw [List.length_drop]
  omega

/-- The entry contains the address. One of more than two cells has to be the base itself. -/
def RangeEntry.Contains (e : RangeEntry) (a : List UInt32) : Prop :=
  (2 < a.length → a = e.child) ∧ number e.child ≤ number a ∧
  number a < number e.child + number e.size

instance (e : RangeEntry) (a : List UInt32) : Decidable (e.Contains a) :=
  inferInstanceAs (Decidable ((_ → _) ∧ _ ∧ _))

/-- The length of an entry is a word, or what it wraps to is more than there is. -/
def StrideOk (na pna ns : ℕ) (cells : List UInt32) : Prop :=
  na + pna + ns < 2 ^ 32 ∨ cells.length < (na + pna + ns) % 2 ^ 32

namespace DeviceNode

def ancestors : DeviceNode → List DeviceNode
  | .root _ => []
  | .child _ parent => parent :: parent.ancestors

/-- The property of the nearest node above that has it, if one does, has a cell. -/
def Counts (name : String) (dev : DeviceNode) : Prop :=
  ∀ p, dev.ancestors.findSome? (fun np => np.btOfGetProperty name) = some p → p.cells ≠ []

/-- The number of cells, from the nearest node above that defines it; none if the property is empty.
-/
def cellCount (name : String) (dev : DeviceNode) : ℕ :=
  match dev.ancestors.findSome? fun np => np.btOfGetProperty name with
  | some p => (p.cells.headD 0).toNat
  | none => 1

/-- The cells of an address on the bus that the node is on. -/
def addressCells (dev : DeviceNode) : ℕ := dev.cellCount "#address-cells"

/-- The cells of a size on the bus that the node is on. -/
def sizeCells (dev : DeviceNode) : ℕ := dev.cellCount "#size-cells"

/-- The cell counts make sense. -/
def ValidCounts (dev : DeviceNode) : Prop :=
  1 ≤ dev.addressCells ∧ dev.addressCells ≤ 4 ∧ 1 ≤ dev.sizeCells

instance (dev : DeviceNode) : Decidable dev.ValidCounts := inferInstanceAs (Decidable (_ ∧ _ ∧ _))

/-- The address on the bus above, for one on the bus `bus` with sizes of `ns` cells. -/
def translateRanges (bus : DeviceNode) (ns : ℕ) (a : List UInt32) : Option (List UInt32) :=
  match bus.btOfGetProperty "ranges" with
  | none => some (cellsOf bus.addressCells (number a))
  | some ranges =>
    if ranges.length = 0 then some (cellsOf bus.addressCells (number a))
    else
      ((rangeEntries a.length bus.addressCells ns ranges.cells).find? fun e => e.Contains a).map
        fun e =>
        cellsOf bus.addressCells ((number e.parent + (number a - number e.child)) % 2 ^ 64)

/-- The address at the root. -/
def walk (ns : ℕ) (a : List UInt32) : DeviceNode → Option ℕ
  | .root _ => some (number a)
  | .child properties parent =>
    let bus := DeviceNode.child properties parent
    if bus.ValidCounts then (bus.translateRanges ns a).bind fun a => walk bus.sizeCells a parent
    else none

/-- The address of a device, if it has one. -/
def translateAddress (dev : DeviceNode) (inAddr : ℕ → UInt32) : Option ℕ :=
  match dev with
  | .root _ => none
  | .child _ bus =>
    if dev.ValidCounts then bus.walk dev.sizeCells ((List.range dev.addressCells).map inAddr)
      else none

/-- No entry of `ranges` reaches the end of the address space, on any bus from here on. -/
def RangesBounded (na ns : ℕ) : DeviceNode → Prop
  | .root _ => True
  | .child properties parent =>
    let bus := DeviceNode.child properties parent
    (∀ ranges, bus.btOfGetProperty "ranges" = some ranges →
      ∀ e ∈ rangeEntries na bus.addressCells ns ranges.cells,
      number e.child + number e.size < 2 ^ 64) ∧
    parent.RangesBounded bus.addressCells bus.sizeCells

/-- Both counts can be read. -/
def Counted (dev : DeviceNode) : Prop := dev.Counts "#address-cells" ∧ dev.Counts "#size-cells"

/-- On each bus that the walk gets to from here the counts can be read, and the length of an entry
is right if there are `ranges`. -/
def Strides (ns : ℕ) (a : List UInt32) : DeviceNode → Prop
  | .root _ => True
  | .child properties parent =>
    let bus := DeviceNode.child properties parent
    bus.Counted ∧ (bus.ValidCounts →
      (∀ ranges, bus.btOfGetProperty "ranges" = some ranges → ranges.length ≠ 0 →
        StrideOk a.length bus.addressCells ns ranges.cells) ∧
      ∀ a', bus.translateRanges ns a = some a' → parent.Strides bus.sizeCells a')

/-- No entry of `ranges` reaches the end of the address space, on any bus above the device. -/
def Bounded : DeviceNode → Prop
  | .root _ => True
  | .child properties bus =>
    let dev := DeviceNode.child properties bus
    bus.RangesBounded dev.addressCells dev.sizeCells

/-- On each bus that the walk gets to the counts can be read, and the length of an entry is right if
there are `ranges`. -/
def Strided (inAddr : ℕ → UInt32) : DeviceNode → Prop
  | .root _ => True
  | .child properties bus =>
    let dev := DeviceNode.child properties bus
    dev.Counted ∧
      (dev.ValidCounts → bus.Strides dev.sizeCells ((List.range dev.addressCells).map inAddr))

end DeviceNode

/-! ## Numbers

A number is read cell by cell and cut off to 64 bits at each step. Cutting off can be put off to the
end, and with it the loop is a number in base `2 ^ 32`. -/

/-- It makes no difference when the number is cut off. -/
theorem foldl_mod (M : ℕ) (cells : List UInt32) (v : ℕ) :
    cells.foldl appendCell (v % M) % M = cells.foldl appendCell v % M := by
  induction cells generalizing v with
  | nil => exact Nat.mod_mod v M
  | cons c cells ih =>
    have hstep : appendCell (v % M) c % M = appendCell v c % M := by
      unfold appendCell
      rw [Nat.add_mod, Nat.mod_mul_mod, ← Nat.add_mod]
    rw [List.foldl_cons, List.foldl_cons, ← ih, hstep, ih]

/-- Each step of the loop cuts the number off, the reference does it once. -/
theorem foldl_shiftIn (cells : List UInt32) (v : ℕ) (hv : v < 2 ^ 64) :
    cells.foldl shiftIn v = cells.foldl appendCell v % 2 ^ 64 := by
  induction cells generalizing v with
  | nil => exact (Nat.mod_eq_of_lt hv).symm
  | cons c cells ih =>
    have hlt : shiftIn v c < 2 ^ 64 := by
      unfold shiftIn
      exact Nat.mod_lt _ (Nat.two_pow_pos 64)
    rw [List.foldl_cons, List.foldl_cons, ih _ hlt]
    unfold shiftIn
    rw [foldl_mod]

/-- The cells that are there are read as one number. -/
theorem btOfReadNumber_eq {cell : List UInt32} {size : ℕ} (h : size ≤ cell.length) :
    btOfReadNumber cell size = some (number (cell.take size)) := by
  rw [btOfReadNumber, if_pos h, foldl_shiftIn _ 0 (Nat.two_pow_pos 64)]
  rfl

/-- Past the end there is nothing to read. -/
theorem btOfReadNumber_none {cell : List UInt32} {size : ℕ} (h : cell.length < size) :
    btOfReadNumber cell size = none := if_neg (not_le.mpr h)

theorem number_lt (cells : List UInt32) : number cells < 2 ^ 64 := by
  unfold number
  exact Nat.mod_lt _ (Nat.two_pow_pos 64)

/-- A number is written to as many cells as it is read from. -/
theorem length_cellsOf (n v : ℕ) : (cellsOf n v).length = n := by simp [cellsOf]

/-- A number of 64 bits has no more than two cells. -/
theorem cellsOf_eq {n v : ℕ} (hn : 1 ≤ n ∧ n ≤ 4) (hv : v < 2 ^ 64) :
    cellsOf n v =
      ((if 1 < n then (List.replicate n 0).set (n - 2) (UInt32.ofNat (v / 2 ^ 32))
        else List.replicate n 0).set (n - 1)
        (UInt32.ofNat (v % 2 ^ 32))) := by
  have hhigh : UInt32.ofNat (v / 2 ^ 64) = 0 := by rw [Nat.div_eq_of_lt hv]; rfl
  have hhigher : UInt32.ofNat (v / 2 ^ 96) = 0 := by
    rw [Nat.div_eq_of_lt (hv.trans (Nat.pow_lt_pow_right (by decide) (by decide)))]
    rfl
  obtain ⟨hpos, hle⟩ := hn
  rw [UInt32.ofNat_mod_size]
  unfold cellsOf
  interval_cases n
  · simp [List.range_succ]
  · simp [List.range_succ]
  · simp [List.range_succ, List.replicate_succ]
    exact hhigh
  · simp [List.range_succ, List.replicate_succ]
    exact ⟨hhigher, hhigh⟩

theorem memcpyCells_length {addr cells : List UInt32} (h : cells.length ≤ addr.length) :
    (memcpyCells addr cells).length = addr.length := by
  rw [memcpyCells, List.length_append, List.length_drop]
  omega

theorem memcpyCells_take (addr cells : List UInt32) :
    (memcpyCells addr cells).take cells.length = cells :=
  List.take_left' rfl

/-- The buffer after the translation begins with the cells of the sum. -/
theorem defaultTranslate_eq {addr : List UInt32} {na : ℕ} (haddr : addr.length = 4)
    (hna : 1 ≤ na ∧ na ≤ 4) (offset : ℕ) :
    ∃ addr', defaultTranslate addr offset na = some addr' ∧ addr'.length = 4 ∧
      addr'.take na = cellsOf na ((number (addr.take na) + offset) % 2 ^ 64) := by
  unfold defaultTranslate
  rw [btOfReadNumber_eq (by omega)]
  generalize hv : (number (addr.take na) + offset) % 2 ^ 64 = v
  have hlt : v < 2 ^ 64 := by
    rw [← hv]
    exact Nat.mod_lt _ (Nat.two_pow_pos 64)
  have hbuffer :
      ((if 1 < na then (memcpyCells addr (List.replicate na 0)).set (na - 2)
      (UInt32.ofNat (v / 2 ^ 32))
      else memcpyCells addr (List.replicate na 0)).set (na - 1) (UInt32.ofNat (v % 2 ^ 32))) =
      cellsOf na v ++ addr.drop na := by
    rw [cellsOf_eq hna hlt, memcpyCells, List.length_replicate]
    split_ifs
    · rw [List.set_append_left _ _ (by rw [List.length_replicate]; omega),
        List.set_append_left _ _ (by rw [List.length_set, List.length_replicate]; omega)]
    · rw [List.set_append_left _ _ (by rw [List.length_replicate]; omega)]
  refine ⟨cellsOf na v ++ addr.drop na, ?_, ?_, List.take_left' (length_cellsOf na v)⟩
  · rw [← hbuffer, ← hv]
    rfl
  · rw [List.length_append, length_cellsOf, List.length_drop]
    omega

/-! ## One bus

The entry at the pointer is the first of what is left, so that the loop and `find?` go through the
same list. What is to be shown of each entry is that the code finds an offset in it if and only if
it contains the address. -/

/-- An entry contains the address if the code finds an offset in it, and that is the offset. -/
theorem defaultMap_eq {addr range : List UInt32} {na ns pna : ℕ} (haddr : na ≤ addr.length)
    (hrange : na + pna + ns ≤ range.length)
    (hbound : number (range.take na) + number ((range.drop (na + pna)).take ns) < 2 ^ 64) :
    defaultMap addr range na ns pna = some
      (if
      (RangeEntry.mk (range.take na) ((range.drop na).take pna)
      ((range.drop (na + pna)).take ns)).Contains (addr.take na)
        then number (addr.take na) - number (range.take na) else minusOne) := by
  unfold defaultMap
  rw [btOfReadNumber_eq
    (by omega), btOfReadNumber_eq (by rw [List.length_drop]; omega), btOfReadNumber_eq haddr]
  have hlength : (addr.take na).length = na := List.length_take_of_le haddr
  simp only [Option.bind_eq_bind, Option.bind_some, RangeEntry.Contains, hlength,
    Nat.mod_eq_of_lt hbound]
  generalize number (range.take na) = cp
  generalize number ((range.drop (na + pna)).take ns) = size
  generalize number (addr.take na) = da
  by_cases hbase : 2 < na ∧ range.take na ≠ addr.take na
  · rw [if_pos hbase, if_neg fun h => hbase.2 (h.1 hbase.1).symm]
    rfl
  · have hbase' : 2 < na → addr.take na = range.take na := by
      intro hlt
      by_contra hne
      exact hbase ⟨hlt, fun heq => hne heq.symm⟩
    rw [if_neg hbase]
    by_cases hin : cp ≤ da ∧ da < cp + size
    · rw [if_neg (by omega), if_pos ⟨hbase', hin⟩]
      rfl
    · rw [if_pos (by omega), if_neg fun h => hin h.2]
      rfl

/-- An entry that is longer than the property cannot be read. -/
theorem defaultMap_none {addr range : List UInt32} {na ns pna : ℕ} (hrange : range.length < ns) :
    defaultMap addr range na ns pna = none := by
  unfold defaultMap
  rw [btOfReadNumber_none (by rw [List.length_drop]; omega : (range.drop (na + pna)).length < ns)]
  cases btOfReadNumber range na <;> rfl

/-- What the loop over the entries is to find, in the buffer as it is left. -/
def FoundEntry (na pna : ℕ) (a : List UInt32) (r : Option (ℕ × List UInt32)) :
    Option RangeEntry → Prop
  | none => r = none
  | some e => ∃ rest, r = some (number a - number e.child, rest) ∧
  (rest.drop na).take pna = e.parent ∧ e.parent.length = pna

/-- The loop over the entries finds the first that contains the address. -/
theorem rangesLoop_eq {addr : List UInt32} {na ns pna : ℕ} (haddr : na ≤ addr.length)
    (hpos : 0 < na + pna + ns) {rounds : ℕ} {ranges : List UInt32}
    (hrounds : ranges.length < rounds)
    (hbound : ∀ e ∈ rangeEntries na pna ns ranges, number e.child + number e.size < 2 ^ 64) :
    ∃ r, rangesLoop addr na ns pna (na + pna + ns) rounds ranges ranges.length = some r ∧
      FoundEntry na pna (addr.take na) r
      ((rangeEntries na pna ns ranges).find? fun e => e.Contains (addr.take na)) := by
  induction rounds generalizing ranges with
  | zero => exact absurd hrounds (Nat.not_lt_zero _)
  | succ rounds ih =>
    rw [rangesLoop]
    by_cases hmore : na + pna + ns ≤ ranges.length
    · have hentries : rangeEntries na pna ns ranges = ⟨ranges.take na, (ranges.drop na).take pna,
          (ranges.drop (na + pna)).take ns⟩ :: rangeEntries na pna ns
            (ranges.drop (na + pna + ns)) := by
        rw [rangeEntries, dif_pos ⟨hpos, hmore⟩]
      rw [hentries] at hbound ⊢
      have hfirst := hbound _ List.mem_cons_self
      rw [if_pos hmore, defaultMap_eq haddr hmore hfirst, List.find?_cons]
      by_cases hcontains : (RangeEntry.mk (ranges.take na) ((ranges.drop na).take pna)
          ((ranges.drop (na + pna)).take ns)).Contains (addr.take na)
      · have hoffset : number (addr.take na) - number (ranges.take na) ≠ minusOne := by
          have hlt := hcontains.2.2
          unfold minusOne
          dsimp only at hlt hfirst
          omega
        rw [if_pos hcontains, decide_eq_true hcontains]
        refine ⟨some (_, ranges), ?_, ranges, rfl, rfl, ?_⟩
        · rw [Option.bind_eq_bind, Option.bind_some, if_pos hoffset]
          rfl
        · rw [List.length_take, List.length_drop]
          omega
      · rw [if_neg hcontains, decide_eq_false hcontains, Option.bind_eq_bind, Option.bind_some,
          if_neg (not_not.mpr rfl), ← List.length_drop]
        exact ih (by rw [List.length_drop]; omega) fun e he => hbound e (List.mem_cons_of_mem _ he)
    · rw [if_neg hmore]
      have hentries : rangeEntries na pna ns ranges = [] := by
        rw [rangeEntries, dif_neg fun h => hmore h.2]
      rw [hentries]
      exact ⟨none, rfl, rfl⟩

/-- The buffer begins with the address, if there is one. -/
def HoldsAddress (r : Option (List UInt32)) : Option (List UInt32) → Prop
  | none => r = none
  | some a => ∃ addr, r = some addr ∧ addr.length = 4 ∧ addr.take a.length = a

/-- The length of a property is four times its cells, and at most three more bytes. -/
theorem DeviceProperty.length_div (p : DeviceProperty) : p.length / 4 = p.cells.length := by
  have := p.tail.isLt
  unfold DeviceProperty.length
  omega

/-- Translating writes the cells of the sum to the buffer. -/
theorem translate_holds {addr cells : List UInt32} {pna : ℕ} (haddr : addr.length = 4)
    (hpna : 1 ≤ pna ∧ pna ≤ 4) (hcells : cells.length = pna) (offset : ℕ) :
    ∃ addr', defaultTranslate (memcpyCells addr cells) offset pna = some addr' ∧
      HoldsAddress (some addr') (some (cellsOf pna ((number cells + offset) % 2 ^ 64))) := by
  have hlength : (memcpyCells addr cells).length = 4 := (memcpyCells_length (by omega)).trans haddr
  obtain ⟨addr', htranslate, hlength', htake⟩ := defaultTranslate_eq hlength hpna offset
  have hcopied : (memcpyCells addr cells).take pna = cells := by
    rw [← hcells]
    exact memcpyCells_take addr cells
  rw [hcopied] at htake
  refine ⟨addr', htranslate, addr', rfl, hlength', ?_⟩
  rw [length_cellsOf]
  exact htake

section Bus

variable {bus : DeviceNode} {addr a : List UInt32} {ns : ℕ} (haddr : addr.length = 4)
  (ha : addr.take a.length = a) (hna : 1 ≤ a.length ∧ a.length ≤ 4)
  (hpna : 1 ≤ bus.addressCells ∧ bus.addressCells ≤ 4)

include haddr ha hna hpna

/-- On a bus without `ranges` an address stays what it is. -/
theorem identity_holds :
    ∃ r, (do
        let offset ← btOfReadNumber addr a.length
        let addr ← defaultTranslate (memcpyCells addr (List.replicate bus.addressCells 0)) offset
          bus.addressCells
        return some addr : Option (Option (List UInt32))) = some r ∧
      HoldsAddress r (some (cellsOf bus.addressCells (number a))) := by
  obtain ⟨addr', htranslate, hholds⟩ :=
    translate_holds haddr hpna (List.length_replicate (a := (0 : UInt32))) (number a)
  have hzero : number (List.replicate bus.addressCells 0) = 0 := by
    obtain ⟨hpos, hle⟩ := hpna
    generalize bus.addressCells = n at hpos hle
    interval_cases n <;> rfl
  rw [hzero, Nat.zero_add, Nat.mod_eq_of_lt (number_lt a)] at hholds
  refine ⟨some addr', ?_, hholds⟩
  rw [btOfReadNumber_eq (by omega), ha, Option.bind_eq_bind, Option.bind_some, htranslate]
  rfl

/-- One bus, if the length of an entry of its `ranges` is right. -/
theorem btOfTranslateOne_holds
    (hstride : ∀ ranges, bus.btOfGetProperty "ranges" = some ranges → ranges.length ≠ 0 →
      StrideOk a.length bus.addressCells ns ranges.cells)
    (hbound : ∀ ranges, bus.btOfGetProperty "ranges" = some ranges →
      ∀ e ∈ rangeEntries a.length bus.addressCells ns ranges.cells,
        number e.child + number e.size < 2 ^ 64) :
    ∃ r, btOfTranslateOne bus addr a.length ns bus.addressCells = some r ∧
      HoldsAddress r (bus.translateRanges ns a) := by
  unfold btOfTranslateOne DeviceNode.translateRanges
  cases hranges : bus.btOfGetProperty "ranges" with
  | none => exact identity_holds haddr ha hna hpna
  | some ranges =>
    dsimp only
    by_cases hempty : ranges.length = 0
    · rw [if_pos hempty, if_pos hempty]
      exact identity_holds haddr ha hna hpna
    rw [if_neg hempty, if_neg hempty, ranges.length_div]
    rcases hstride ranges hranges hempty with hword | hwrapped
    · -- the stride does not wrap, and the loop finds what the reference finds
      rw [Nat.mod_eq_of_lt hword]
      have hle : a.length ≤ addr.length := by omega
      obtain ⟨r, hloop, hfound⟩ :=
        rangesLoop_eq hle (by omega) (Nat.lt_succ_self _) (hbound ranges hranges)
      rw [hloop]
      rw [ha] at hfound
      cases hentry : (rangeEntries a.length bus.addressCells ns ranges.cells).find?
        fun e => e.Contains a with
      | none =>
        rw [hentry] at hfound
        obtain rfl : r = none := hfound
        exact ⟨none, rfl, rfl⟩
      | some e =>
        rw [hentry] at hfound
        obtain ⟨rest, rfl, hparent, hlength⟩ := hfound
        obtain ⟨addr', htranslate, hholds⟩ :=
          translate_holds haddr hpna hlength (number a - number e.child)
        refine ⟨some addr', ?_, hholds⟩
        rw [Option.bind_eq_bind, Option.bind_some]
        dsimp only
        rw [hparent, htranslate]
        rfl
    · -- there are no entries, and the loop finds none
      have hcells := ranges.word
      have hentries : rangeEntries a.length bus.addressCells ns ranges.cells = [] := by
        rw [rangeEntries, dif_neg]
        intro h
        have := Nat.mod_lt (a.length + bus.addressCells + ns) (Nat.two_pow_pos 32)
        omega
      rw [rangesLoop, if_neg (not_le.mpr hwrapped), hentries]
      exact ⟨none, rfl, rfl⟩

omit haddr ha in
/-- If the length wraps to what there is, the code reads past the end. -/
theorem btOfTranslateOne_none {ranges : DeviceProperty}
    (hranges : bus.btOfGetProperty "ranges" = some ranges)
    (hempty : ranges.length ≠ 0) (hstride : ¬ StrideOk a.length bus.addressCells ns ranges.cells) :
    btOfTranslateOne bus addr a.length ns bus.addressCells = none := by
  have hcells := ranges.word
  unfold StrideOk at hstride
  unfold btOfTranslateOne
  rw [hranges]
  dsimp only
  rw [if_neg hempty, ranges.length_div, rangesLoop, if_pos (by omega), defaultMap_none (by omega)]
  rfl

end Bus

/-! ## The walk

Code and reference look for the counts on the same nodes. They part where a bus says nothing that
can be read, and the code then leaves the property while the reference gives no address. -/

/-- The cell counts are those of the nearest node above that has them. -/
theorem nCells_eq (name : String) (properties : List DeviceProperty) (np : DeviceNode) :
    (DeviceNode.child properties np).nCells name 1 =
      (((DeviceNode.child properties np).ancestors.findSome? fun np => np.btOfGetProperty name).map
        DeviceProperty.firstCell).getD (some 1) := by
  induction np generalizing properties with
  | root own =>
    unfold DeviceNode.nCells
    simp only [DeviceNode.ancestors, List.findSome?_cons, List.findSome?_nil]
    cases (DeviceNode.root own).btOfGetProperty name <;> rfl
  | child own parent ih =>
    unfold DeviceNode.nCells
    rw [DeviceNode.ancestors, List.findSome?_cons]
    cases (DeviceNode.child own parent).btOfGetProperty name with
    | some p => rfl
    | none => exact ih own

/-- A node with the property gives the number in it. -/
theorem nCells_of_counts {name : String} {properties : List DeviceProperty} {np : DeviceNode}
    (h : (DeviceNode.child properties np).Counts name) :
    (DeviceNode.child properties np).nCells name 1 = some
    ((DeviceNode.child properties np).cellCount name) := by
  rw [nCells_eq]
  unfold DeviceNode.Counts at h
  unfold DeviceNode.cellCount
  cases hfind : (DeviceNode.child properties np).ancestors.findSome? fun np => np.btOfGetProperty
    name with
  | none => rfl
  | some p =>
    obtain ⟨c, cs, hcells⟩ := List.exists_cons_of_ne_nil (h p hfind)
    simp [DeviceProperty.firstCell, hcells]

/-- The code reads past the end of a property that has no cell. -/
theorem nCells_of_not_counts {name : String} {properties : List DeviceProperty} {np : DeviceNode}
    (h : ¬(DeviceNode.child properties np).Counts name) :
    (DeviceNode.child properties np).nCells name 1 = none := by
  unfold DeviceNode.Counts at h
  push Not at h
  obtain ⟨p, hfind, hcells⟩ := h
  rw [nCells_eq, hfind]
  simp [DeviceProperty.firstCell, hcells]

/-- What comes after the counts have been read. -/
theorem counts_bind {properties : List DeviceProperty} {np : DeviceNode} {f : ℕ → ℕ → Option ℕ}
    {v : ℕ} {P : Prop} (h : f (DeviceNode.child properties np).addressCells
    (DeviceNode.child properties np).sizeCells = some v ↔ P) :
    ((DeviceNode.child properties np).btOfNAddrCells.bind fun na =>
      (DeviceNode.child properties np).btOfNSizeCells.bind fun ns => f na ns) = some v ↔
        (DeviceNode.child properties np).Counted ∧ P := by
  unfold DeviceNode.btOfNAddrCells DeviceNode.btOfNSizeCells DeviceNode.Counted
  by_cases haddress : (DeviceNode.child properties np).Counts "#address-cells"
  · rw [nCells_of_counts haddress, Option.bind_some]
    by_cases hsize : (DeviceNode.child properties np).Counts "#size-cells"
    · rw [nCells_of_counts hsize, Option.bind_some, and_iff_right ⟨haddress, hsize⟩]
      exact h
    · rw [nCells_of_not_counts hsize]
      exact iff_of_false (by simp) fun hc => hsize hc.1.2
  · rw [nCells_of_not_counts haddress]
    exact iff_of_false (by simp) fun hc => haddress hc.1.1

/-- The check of the code is that of the model. -/
theorem btOfCheckCounts_iff (dev : DeviceNode) :
    btOfCheckCounts dev.addressCells dev.sizeCells = true ↔ dev.ValidCounts := by
  unfold btOfCheckCounts DeviceNode.ValidCounts
  rw [decide_eq_true_eq]
  exact Iff.rfl

/-- A translated address has as many cells as the parent's addresses. -/
theorem length_translateRanges {bus : DeviceNode} {ns : ℕ} {a a' : List UInt32}
    (h : bus.translateRanges ns a = some a') :
    a'.length = bus.addressCells := by
  unfold DeviceNode.translateRanges at h
  split at h
  next =>
    obtain rfl := Option.some.inj h
    exact length_cellsOf _ _
  next ranges hranges =>
    split_ifs at h
    · obtain rfl := Option.some.inj h
      exact length_cellsOf _ _
    · obtain ⟨e, -, rfl⟩ := Option.map_eq_some_iff.mp h
      exact length_cellsOf _ _

/-- The code and the reference take the same steps, as long as the code takes any. -/
theorem translateLoop_iff {addr a : List UInt32} {ns : ℕ} (bus : DeviceNode)
    (haddr : addr.length = 4) (ha : addr.take a.length = a) (hna : 1 ≤ a.length ∧ a.length ≤ 4)
    (hbound : bus.RangesBounded a.length ns) :
    translateLoop addr a.length ns bus = some ((bus.walk ns a).getD minusOne) ↔
      bus.Strides ns a := by
  induction bus generalizing addr a ns with
  | root properties =>
    rw [translateLoop, btOfReadNumber_eq (by omega), ha]
    exact iff_of_true rfl trivial
  | child properties parent ih =>
    obtain ⟨hbus, hbound⟩ := hbound
    rw [translateLoop, DeviceNode.walk, DeviceNode.Strides]
    refine counts_bind ?_
    generalize DeviceNode.child properties parent = bus at hbus hbound
    by_cases hvalid : bus.ValidCounts
    · rw [if_pos ((btOfCheckCounts_iff _).mpr hvalid), if_pos hvalid, forall_prop_of_true hvalid]
      have hpna : 1 ≤ bus.addressCells ∧ bus.addressCells ≤ 4 := ⟨hvalid.1, hvalid.2.1⟩
      by_cases hstride : ∀ ranges, bus.btOfGetProperty "ranges" = some ranges → ranges.length ≠ 0 →
          StrideOk a.length bus.addressCells ns ranges.cells
      · obtain ⟨r, hone, hholds⟩ := btOfTranslateOne_holds haddr ha hna hpna hstride hbus
        rw [hone, and_iff_right hstride]
        cases htranslate : bus.translateRanges ns a with
        | none =>
          rw [htranslate] at hholds
          obtain rfl : r = none := hholds
          exact iff_of_true rfl nofun
        | some a' =>
          rw [htranslate] at hholds
          obtain ⟨addr', rfl, haddr', ha'⟩ := hholds
          have hlength := length_translateRanges htranslate
          rw [← hlength] at hpna hbound
          rw [Option.bind_eq_bind, Option.bind_some, Option.bind_some]
          dsimp only
          rw [← hlength, ih haddr' ha' hpna hbound]
          refine ⟨?_, fun h => h a' rfl⟩
          rintro h _ ⟨⟩
          exact h
      · push Not at hstride
        obtain ⟨ranges, hranges, hempty, hbad⟩ := hstride
        rw [btOfTranslateOne_none hna hpna hranges hempty hbad]
        exact iff_of_false nofun fun h => hbad (h.1 ranges hranges hempty)
    · rw [if_neg (mt (btOfCheckCounts_iff _).mp hvalid), if_neg hvalid]
      exact iff_of_true rfl fun h => absurd h hvalid

/-- **The address of a device** is what the reference says, or -1 if that says nothing, if and only
if the counts can be read and the length of an entry does not wrap, on every bus the walk gets to.
-/
theorem translate_address_iff {addr : List UInt32} (haddr : addr.length = 4) (dev : DeviceNode)
    (inAddr : ℕ → UInt32) (hbounded : dev.Bounded) :
    btOfTranslateAddress addr dev inAddr = some ((dev.translateAddress inAddr).getD minusOne) ↔
      dev.Strided inAddr := by
  cases dev with
  | root properties => exact iff_of_true rfl trivial
  | child properties bus =>
    simp only [btOfTranslateAddress, DeviceNode.translateAddress, DeviceNode.Strided]
    refine counts_bind ?_
    simp only [DeviceNode.Bounded] at hbounded
    generalize DeviceNode.child properties bus = dev at hbounded
    by_cases hvalid : dev.ValidCounts
    · rw [if_pos ((btOfCheckCounts_iff _).mpr hvalid), if_pos hvalid, forall_prop_of_true hvalid]
      generalize hcells : (List.range dev.addressCells).map inAddr = a
      have hlength : a.length = dev.addressCells := by
        rw [← hcells, List.length_map, List.length_range]
      rw [← hlength] at hbounded ⊢
      have hna : 1 ≤ a.length ∧ a.length ≤ 4 := hlength ▸ ⟨hvalid.1, hvalid.2.1⟩
      exact translateLoop_iff bus
        ((memcpyCells_length (by omega)).trans haddr) (memcpyCells_take addr a) hna hbounded
    · rw [if_neg (mt (btOfCheckCounts_iff _).mp hvalid), if_neg hvalid]
      exact iff_of_true rfl fun h => absurd h hvalid

/-- A device on a bus that is on the root, with these properties of the bus. -/
def deviceOn (properties : List DeviceProperty) : DeviceNode :=
  .child [] (.child properties (.root []))

/-- A device at 0x10 on a bus with addresses of two cells, which the root has at 0xE0000000. -/
theorem translate_address_two_cells :
    let dev := deviceOn [⟨"#address-cells", [2], 0, by decide⟩,
      ⟨"ranges", [0, 0, 0xE0000000, 0x1000], 0, by decide⟩]
    let inAddr : ℕ → UInt32 := fun i => if i = 1 then 0x10 else 0
    btOfTranslateAddress [0, 0, 0, 0] dev inAddr = some 0xE0000010 ∧
      (dev.translateAddress inAddr).getD minusOne = 0xE0000010 := by
  intro dev inAddr
  have hentries : rangeEntries 2 1 1 [0, 0, 0xE0000000, 0x1000] =
      [⟨[0, 0], [0xE0000000], [0x1000]⟩] := by
    rw [rangeEntries, dif_pos (by decide), rangeEntries, dif_neg (by decide)]
    rfl
  have hbounded : dev.Bounded := by
    refine ⟨?_, trivial⟩
    rintro _ ⟨⟩ e he
    replace he : e ∈ rangeEntries 2 1 1 [0, 0, 0xE0000000, 0x1000] := he
    rw [hentries, List.mem_singleton] at he
    subst he
    decide
  have hstrided : dev.Strided inAddr := by
    have hdev : dev.Counted := by
      constructor
      · rintro _ ⟨⟩
        exact List.cons_ne_nil 2 []
      · rintro _ ⟨⟩
    have hbus : (DeviceNode.child [⟨"#address-cells", [2], 0, by decide⟩,
        ⟨"ranges", [0, 0, 0xE0000000, 0x1000], 0, by decide⟩] (.root [])).Counted := by
      constructor
      · rintro _ ⟨⟩
      · rintro _ ⟨⟩
    refine ⟨hdev, fun _ => ⟨hbus, fun _ => ⟨?_, fun _ _ => trivial⟩⟩⟩
    rintro _ ⟨⟩ -
    exact .inl (by decide)
  have hcode : btOfTranslateAddress [0, 0, 0, 0] dev inAddr = some 0xE0000010 := by decide
  exact ⟨hcode, Option.some.inj
    (((translate_address_iff rfl dev inAddr hbounded).mpr hstrided).symm.trans hcode)⟩

/-- A bus with sizes of 2^32 - 2 cells: the length of an entry wraps to zero. The code reads past
the end of `ranges`, where the reference finds no entry. -/
theorem translate_address_wraps :
    let dev := deviceOn [⟨"#size-cells", [0xFFFFFFFE], 0, by decide⟩,
      ⟨"ranges", [0, 0xE0000000, 0x1000], 0, by decide⟩]
    dev.Bounded ∧ (dev.translateAddress fun _ => 0x10) = none ∧
      btOfTranslateAddress [0, 0, 0, 0] dev (fun _ => 0x10) = none := by
  intro dev
  have hentries : rangeEntries 1 1 0xFFFFFFFE [0, 0xE0000000, 0x1000] = [] := by
    rw [rangeEntries, dif_neg (by decide)]
  refine ⟨⟨?_, trivial⟩, ?_, by decide⟩
  · rintro _ ⟨⟩ e he
    replace he : e ∈ rangeEntries 1 1 0xFFFFFFFE [0, 0xE0000000, 0x1000] := he
    rw [hentries] at he
    exact absurd he List.not_mem_nil
  · have hnone : ((rangeEntries 1 1 0xFFFFFFFE [0, 0xE0000000, 0x1000]).find? fun e => e.Contains
        [0x10]) = none := by
      rw [hentries]
      rfl
    have hbus : (DeviceNode.child [⟨"#size-cells", [0xFFFFFFFE], 0, by decide⟩,
        ⟨"ranges", [0, 0xE0000000, 0x1000],
        0, by decide⟩] (.root [])).translateRanges 0xFFFFFFFE [0x10] = none := by
      exact congrArg (Option.map _) hnone
    have hvalid : dev.ValidCounts := by decide
    have hvalid' : (DeviceNode.child [⟨"#size-cells", [0xFFFFFFFE], 0, by decide⟩,
        ⟨"ranges", [0, 0xE0000000, 0x1000], 0, by decide⟩] (.root [])).ValidCounts := by decide
    have hwalk : (DeviceNode.child [⟨"#size-cells", [0xFFFFFFFE], 0, by decide⟩,
        ⟨"ranges", [0, 0xE0000000, 0x1000],
        0, by decide⟩] (.root [])).walk 0xFFFFFFFE [0x10] = none := by
      rw [DeviceNode.walk, if_pos hvalid', hbus]
      rfl
    change (if dev.ValidCounts then _ else none) = none
    rw [if_pos hvalid]
    exact hwalk

end BitThunder
