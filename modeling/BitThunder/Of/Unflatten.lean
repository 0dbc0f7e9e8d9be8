import Mathlib.Data.List.Basic
import Mathlib.Data.List.Nodup
import Mathlib.Logic.Function.Basic
import Mathlib.Tactic

/-!
# Unflattening the device tree

`bt_of_unflatten_device_tree` of `os/src/of/bt_of.c`. The blob is walked from the root on, and each
of its nodes becomes a structure in memory, with a pointer to its parent and lists of its children
and properties. The full name of a node is kept right behind its structure; the memory for it is
asked for before it is built, and how much it is comes from the sizes of the names above.

* `btOfUnflattenDtNode_child`, `btOfUnflattenDtNode_root`: one node, whose full name fits;
* `Unflattened`, `subnodes_spec`: the loop over the subnodes;
* `device_tree_unflattened`: the tree in memory is the one in the blob.

The size of the memory behind a node is handed down the recursion, as the length of the parent's
full name with the separator, and the name is written from the parent's memory later. That both come
to the same is what has to be kept: `Above` says it for one node and its subnodes, and the
terminator of each name then falls on the last byte that was asked for. The root is an exception
with two bytes, whatever its name is in the blob.

The loop over the subnodes makes a node, then all nodes below it, and hangs it at the end of its
parent's list only after that. So the parent is written to while its children are unflattened, and a
node is found unchanged only up to its list of children; `Grown` has this as its frame.
-/

namespace BitThunder

/-! ## The blob

A node with its subnodes and what comes after it is one inductive type, so that one induction goes
through the whole tree in the order in which it is walked. -/

/-- A property in the blob; its value is a number of bytes. -/
structure FdtProperty : Type where
  name : List Char
  value : List Char

/-- The nodes of the blob as `libfdt` enumerates them: a node, its subnodes, and those after it. -/
inductive FdtNodes : Type where
  | nil
  | node (name : List Char) (phandle : ℕ) (properties : List FdtProperty) (sub next : FdtNodes)

/-- Names are strings without a slash, and no two properties of a node have the same name. -/
def FdtNodes.Ok : FdtNodes → Prop
  | .nil => True
  | .node name _ properties sub next =>
    ('/' ∉ name ∧ '\x00' ∉ name ∧ (properties.map FdtProperty.name).Nodup) ∧ sub.Ok ∧ next.Ok

/-! ## The structures in memory

Nodes are kept by their addresses and refer to each other by them. What is behind a node in its
block is a list of characters, whose length is that of the block. -/

/-- `struct bt_device_property` -/
structure OfProperty : Type where
  name : List Char
  length : ℕ
  value : List Char

/-- `struct bt_device_node`, with what was allocated behind it -/
structure OfNode : Type where
  parent : Option ℕ
  children : List ℕ
  properties : List OfProperty
  /-- the memory at `full_name` -/
  fullName : List Char
  name : List Char
  type : List Char
  phandle : ℕ

/-- The nodes that were allocated, by their addresses, and the two lists. -/
structure OfState : Type where
  nodes : ℕ → OfNode
  /-- where the next node will be -/
  fresh : ℕ
  devices : List ℕ
  allitems : List ℕ

/-- `bt_of_get_property`: the value and the length -/
def OfNode.btOfGetProperty (np : OfNode) (name : List Char) : Option (List Char × ℕ) :=
  (np.properties.find? fun p => p.name = name).map fun p => (p.value, p.length)

/-! ## The code

A write behind the end of a block has no result. So a node that has one has a full name that fits,
which is a part of what is proved of it. -/

/-- `"name"` -/
def szName : List Char := ['n', 'a', 'm', 'e']

/-- `"<NULL>"` -/
def szNull : List Char := ['<', 'N', 'U', 'L', 'L', '>']

/-- The names of a property that is a phandle. -/
def phandleNames : List (List Char) := ["phandle".toList, "linux,phandle".toList]

/-- The string at the beginning of some memory. -/
def cString (memory : List Char) : List Char := memory.takeWhile (· ≠ '\x00')

/-- Write to memory, if that is where it is to go. -/
def writeAt (memory : List Char) (i : ℕ) (data : List Char) : Option (List Char) :=
  if i + data.length ≤ memory.length
    then some (memory.take i ++ data ++ memory.drop (i + data.length)) else none

/-- The scan for the name of a node in its full name: where it ends, where the name begins, and
where the last unit address does. -/
def scanName : List Char → ℕ → ℕ → Option ℕ → ℕ × ℕ × Option ℕ
  | [], p1, ps, pa => (p1, ps, pa)
  | c :: cs, p1, ps, pa =>
    scanName cs (p1 + 1) (if c = '/' then p1 + 1 else ps) (if c = '@' then some p1 else pa)

/-- The property that a node without a name gets. -/
def nameProperty (fullName : List Char) : OfProperty :=
  let r := scanName fullName 0 0 none
  let ps := r.2.1
  -- `if(pa < ps) pa = p1`
  let pa := match r.2.2 with
    | some pa => if pa < ps then r.1 else pa
    | none => r.1
  let sz := pa - ps + 1
  ⟨szName, sz, (fullName.drop ps).take (sz - 1) ++ ['\x00']⟩

/-- `bt_be32_to_cpu` of the beginning of a value -/
def firstCell (value : List Char) : ℕ := (value.take 4).foldl (fun r c => 256 * r + c.toNat) 0

/-- What the loop over the properties has come to. -/
structure PropertyScan : Type where
  hasName : Bool
  phandle : ℕ
  properties : List OfProperty

/-- The `struct bt_device_property` for a property of the blob. -/
def FdtProperty.unflatten (prop : FdtProperty) : OfProperty :=
  ⟨prop.name, prop.value.length, prop.value⟩

/-- One round of the loop over the properties -/
def scanProperty (r : PropertyScan) (prop : FdtProperty) : PropertyScan :=
  { hasName := r.hasName || prop.name = szName
    phandle :=
      if prop.name ∈ phandleNames ∧ r.phandle = 0 then firstCell prop.value else r.phandle
    properties := prop.unflatten :: r.properties }

/-- The sizes that `bt_of_unflatten_dt_node` begins with. -/
structure NameSizes : Type where
  newFormat : Bool
  pathp : List Char
  l : ℕ
  allocl : ℕ
  fpsize : ℕ

def nameSizes (name : List Char) (fpsize : ℕ) : NameSizes :=
  let l := name.length + 1
  if name.head? ≠ some '/' then
    -- the root, whose name in the blob is cut to nothing
    if fpsize = 0 then ⟨true, ['\x00'], 1, 2, 1⟩
    else ⟨true, name ++ ['\x00'], l, fpsize + l, fpsize + l⟩
  else ⟨false, name ++ ['\x00'], l, l, fpsize⟩

/-- Begin the full name of a node with that of its parent, unless this is the root. -/
def copyName (s : OfState) (memory : List Char) : Option ℕ → Option (List Char)
  | some dad =>
    if (s.nodes dad).parent ≠ none then writeAt memory 0
    (cString (s.nodes dad).fullName ++ ['\x00']) else some memory
  | none => some memory

/-- Build the full name behind a new node. There is none if it is written past what was allocated.
-/
def buildName (s : OfState) (sizes : NameSizes) (dad : Option ℕ) : Option (List Char) :=
  let memory := List.replicate sizes.allocl '\x00'
  if sizes.newFormat then do
    let memory ← copyName s memory dad
    let fn := (cString memory).length
    let memory ← writeAt memory fn ['/']
    writeAt memory (fn + 1) (sizes.pathp.take sizes.l)
  else writeAt memory 0 (sizes.pathp.take sizes.l)

/-- The next node to be allocated. -/
def OfState.alloc (s : OfState) (node : OfNode) : OfState :=
  { s with nodes := Function.update s.nodes s.fresh node, fresh := s.fresh + 1 }

/-- `bt_of_unflatten_dt_node` up to the loop over the subnodes: the new node, the size for those
below it, and the state -/
def btOfUnflattenDtNode (s : OfState) (name : List Char) (phandle : ℕ)
    (properties : List FdtProperty) (dad : Option ℕ) (fpsize : ℕ) : Option (ℕ × ℕ × OfState) := do
  let sizes := nameSizes name fpsize
  let fullName ← buildName s sizes dad
  let r := properties.foldl scanProperty ⟨false, phandle, []⟩
  let list := if r.hasName then r.properties else nameProperty (cString fullName) :: r.properties
  let node : OfNode := ⟨dad, [], list, fullName, [], [], r.phandle⟩
  let node : OfNode :=
    { node with
      name := ((node.btOfGetProperty szName).map Prod.fst).getD szNull
      type := ((node.btOfGetProperty "device_type".toList).map Prod.fst).getD szNull }
  return (s.fresh, sizes.fpsize, s.alloc node)

/-- Add a child to its parent and to the list of all nodes, behind the others. -/
def OfState.addTail (s : OfState) (dad child : ℕ) : OfState :=
  { s with
    nodes :=
      Function.update s.nodes dad { s.nodes dad with children := (s.nodes dad).children ++ [child] }
    allitems := s.allitems ++ [child] }

/-- The loop of `bt_of_unflatten_dt_node` over the subnodes -/
def subnodes : FdtNodes → ℕ → ℕ → OfState → Option OfState
  | .nil, _, _, s => some s
  | .node name phandle properties sub next, dad, fpsize, s => do
    let (child, size, s) ← btOfUnflattenDtNode s name phandle properties (some dad) fpsize
    let s ← subnodes sub child size s
    subnodes next dad fpsize (s.addTail dad child)

/-- `bt_of_unflatten_device_tree`, for a blob with this root -/
def btOfUnflattenDeviceTree (s : OfState) (name : List Char) (phandle : ℕ)
    (properties : List FdtProperty) (sub : FdtNodes) : Option OfState := do
  let (dev, size, s) ← btOfUnflattenDtNode s name phandle properties none 0
  let s ← subnodes sub dev size s
  return { s with devices := dev :: s.devices, allitems := dev :: s.allitems }

/-! ## The tree in memory

`Represents` says what one structure is, and `Unflattened` goes through the tree with it. Paths grow
from the root on, by a separator and a component for each level. -/

/-- The name `u` is the component `c` of a path, cut before its last `@`. -/
def IsUnitName (c u : List Char) : Prop :=
  (∃ address, c = u ++ '@' :: address ∧ '@' ∉ address) ∨ ('@' ∉ c ∧ u = c)

/-- The structure is that of a node with these properties, at this path with this last component. -/
structure OfNode.Represents (np : OfNode) (parent : Option ℕ) (path component : List Char)
    (properties : List FdtProperty) : Prop where
  /-- it leads to the node above -/
  parent : np.parent = parent
  /-- its full name is its path -/
  fullName : cString np.fullName = path
  /-- there is a terminator behind it -/
  fits : path.length < np.fullName.length
  /-- the properties can be found by their names -/
  property : ∀ p ∈ properties, np.btOfGetProperty p.name = some (p.value, p.value.length)
  /-- and if no property is a name, one was made up -/
  unitName : (∀ p ∈ properties, p.name ≠ szName) →
    ∃ u, IsUnitName component u ∧ np.btOfGetProperty szName = some (u ++ ['\x00'], u.length + 1)

/-- The nodes are in memory, with `children` the list of them at their parent `dad` and `all` the
list of these and all below. Before their names in a path stands `above`. -/
def Unflattened (s : OfState) : FdtNodes → ℕ → List Char → List ℕ → List ℕ → Prop
  | .nil, _, _, children, all => children = [] ∧ all = []
  | .node name _ properties sub next, dad, above, children, all => ∃ c rest low high,
    children = c :: rest ∧ all = low ++ c :: high ∧
    (s.nodes c).Represents (some dad) (above ++ '/' :: name) name properties ∧
    Unflattened s sub c (above ++ '/' :: name) (s.nodes c).children low ∧
    Unflattened s next dad above rest high

/-! ## The name of a node

The unit name is what is between the last separator and the last `@`, and the scan looks for both in
one go. A component may have an `@` in it or none. -/

/-- A path is scanned from its beginning on, and the scan may be stopped in between. -/
theorem scanName_append (xs ys : List Char) (p1 ps : ℕ) (pa : Option ℕ) :
    scanName (xs ++ ys) p1 ps pa =
      scanName ys (scanName xs p1 ps pa).1 (scanName xs p1 ps pa).2.1
      (scanName xs p1 ps pa).2.2 := by
  induction xs generalizing p1 ps pa with
  | nil => rfl
  | cons c xs ih => exact ih _ _ _

/-- The scan comes to the end of the path. -/
theorem scanName_end (xs : List Char) (p1 ps : ℕ) (pa : Option ℕ) :
    (scanName xs p1 ps pa).1 = p1 + xs.length := by
  induction xs generalizing p1 ps pa with
  | nil => rfl
  | cons c xs ih =>
    rw [scanName, ih, List.length_cons]
    omega

/-- Without a slash the name begins where it did. -/
theorem scanName_start {xs : List Char} (h : '/' ∉ xs) (p1 ps : ℕ) (pa : Option ℕ) :
    (scanName xs p1 ps pa).2.1 = ps := by
  induction xs generalizing p1 ps pa with
  | nil => rfl
  | cons c xs ih =>
    rw [List.mem_cons, not_or] at h
    rw [scanName, ih h.2, if_neg (Ne.symm h.1)]

/-- Without an `@` the unit address is where it was. -/
theorem scanName_no_at {xs : List Char} (h : '@' ∉ xs) (p1 ps : ℕ) (pa : Option ℕ) :
    (scanName xs p1 ps pa).2.2 = pa := by
  induction xs generalizing p1 ps pa with
  | nil => rfl
  | cons c xs ih =>
    rw [List.mem_cons, not_or] at h
    rw [scanName, ih h.2, if_neg (Ne.symm h.1)]

/-- A unit address lies in what was scanned. -/
theorem scanName_at_lt (xs : List Char) (p1 ps : ℕ) {pa : Option ℕ}
    (h : ∀ i, pa = some i → i < p1) :
    ∀ i, (scanName xs p1 ps pa).2.2 = some i → i < p1 + xs.length := by
  induction xs generalizing p1 ps pa with
  | nil => exact h
  | cons c xs ih =>
    intro i hi
    rw [scanName] at hi
    have hlt := ih (p1 + 1) _ (fun j hj => ?_) i hi
    · rw [List.length_cons]
      omega
    · split_ifs at hj
      · obtain rfl := Option.some.inj hj
        omega
      · have := h j hj
        omega

/-- The scan of a path leaves the unit address of its last component, or one before it. -/
theorem scanName_path {component : List Char} (h : '/' ∉ component) (above : List Char) :
    let r := scanName (above ++ '/' :: component) 0 0 none
    r.1 = above.length + 1 + component.length ∧ r.2.1 = above.length + 1 ∧
      (∀ u address, component = u ++ '@' :: address → '@' ∉ address →
      r.2.2 = some (above.length + 1 + u.length)) ∧
      ('@' ∉ component → ∀ i, r.2.2 = some i → i < above.length + 1) := by
  intro r
  have hpos : (scanName above 0 0 none).1 = above.length :=
    (scanName_end above 0 0 none).trans (Nat.zero_add _)
  have hr : r = scanName component (above.length + 1) (above.length + 1)
      (scanName above 0 0 none).2.2 := by
    change scanName (above ++ '/' :: component) 0 0 none = _
    rw [scanName_append, scanName, hpos, if_pos rfl, if_neg (by decide)]
  rw [hr]
  refine ⟨scanName_end _ _ _ _, scanName_start h _ _ _, ?_, ?_⟩
  · rintro u address rfl haddress
    rw [scanName_append, scanName_end, scanName, if_pos rfl, scanName_no_at haddress]
  · intro hat i hi
    have hbefore : ∀ j, (none : Option ℕ) = some j → j < 0 := nofun
    rw [scanName_no_at hat] at hi
    have := scanName_at_lt above 0 0 hbefore i hi
    omega

/-- A component has a unit address behind its last `@`, or no `@`. -/
theorem exists_unitName (component : List Char) :
    (∃ u address, component = u ++ '@' :: address ∧ '@' ∉ address) ∨ '@' ∉ component := by
  by_cases hat : '@' ∈ component
  · obtain ⟨address, u, hrev, hfirst⟩ := List.eq_append_cons_of_mem (List.mem_reverse.mpr hat)
    refine .inl ⟨u.reverse, address.reverse, ?_, by simpa using hfirst⟩
    rw [← List.reverse_reverse component, hrev]
    simp
  · exact .inr hat

/-- The property that is made up for a node is its unit name. -/
theorem nameProperty_eq {component : List Char} (h : '/' ∉ component) (above : List Char) :
    ∃ u, IsUnitName component u ∧
      nameProperty (above ++ '/' :: component) = ⟨szName, u.length + 1, u ++ ['\x00']⟩ := by
  obtain ⟨hend, hstart, hsome, hnone⟩ := scanName_path h above
  have hdrop : (above ++ '/' :: component).drop (above.length + 1) = component := by
    rw [← List.drop_drop, List.drop_left]
    rfl
  unfold nameProperty
  dsimp only
  rw [hend, hstart, hdrop]
  rcases exists_unitName component with ⟨u, address, rfl, haddress⟩ | hat
  · refine ⟨u, .inl ⟨address, rfl, haddress⟩, ?_⟩
    rw [hsome u address rfl haddress]
    dsimp only
    rw [if_neg (by omega), Nat.add_sub_cancel_left, Nat.add_sub_cancel, List.take_left' rfl]
  · refine ⟨component, .inr ⟨hat, rfl⟩, ?_⟩
    have hpa : (match (scanName (above ++ '/' :: component) 0 0 none).2.2 with
        | some pa => if pa < above.length + 1 then above.length + 1 + component.length else pa
        | none => above.length + 1 + component.length) = above.length + 1 + component.length := by
      cases hr : (scanName (above ++ '/' :: component) 0 0 none).2.2 with
      | none => rfl
      | some i => exact if_pos (hnone hat i hr)
    rw [hpa, Nat.add_sub_cancel_left, Nat.add_sub_cancel, List.take_length]

/-! ## The full name

The size of the block was computed from the sizes of names, and the name is built from the memory of
the parent. The two are compared here, for a child and for the root. -/

theorem cString_append {xs : List Char} (h : '\x00' ∉ xs) (ys : List Char) :
    cString (xs ++ '\x00' :: ys) = xs := by
  unfold cString
  rw [List.takeWhile_append_of_pos, List.takeWhile_cons_of_neg (by decide), List.append_nil]
  intro c hc
  simp only [decide_eq_true_eq]
  rintro rfl
  exact h hc

/-- Writing where some memory ends. -/
theorem writeAt_append (xs ys data : List Char) (h : data.length ≤ ys.length) :
    writeAt (xs ++ ys) xs.length data = some (xs ++ data ++ ys.drop data.length) := by
  unfold writeAt
  rw [if_pos
    (by rw [List.length_append]; omega), List.take_left' rfl, ← List.drop_drop, List.drop_left' rfl]

/-- What the names of subnodes begin with: the full name of the node, or nothing at the root. -/
def Above (np : OfNode) (above : List Char) : Prop :=
  if np.parent = none then above = [] else cString np.fullName = above

/-- The memory for a subnode when the name of its parent is in it. -/
theorem copyName_child {s : OfState} {dad : ℕ} {above : List Char}
    (habove : Above (s.nodes dad) above) (l : ℕ) :
    copyName s (List.replicate (above.length + (l + 1)) '\x00') (some dad) =
      some (above ++ '\x00' :: List.replicate l '\x00') := by
  unfold Above at habove
  unfold copyName
  dsimp only
  split_ifs with hroot
  · rw [if_neg hroot] at habove
    rw [habove]
    refine (writeAt_append [] (List.replicate (above.length + (l + 1)) '\x00') _ ?_).trans ?_
    · rw [List.length_append, List.length_replicate, List.length_singleton]
      omega
    · rw [List.drop_replicate, List.length_append, List.length_singleton, List.nil_append,
        List.append_assoc,
        show above.length + (l + 1) - (above.length + 1) = l by omega]
      rfl
  · rw [if_pos (not_not.mp hroot)] at habove
    subst habove
    rw [List.length_nil, Nat.zero_add]
    rfl

/-- The full name of a subnode takes up all that was allocated for it. -/
theorem buildName_child {s : OfState} {dad : ℕ} {above name : List Char}
    (habove : Above (s.nodes dad) above) (hnul : '\x00' ∉ above) (hslash : '/' ∉ name) :
    buildName s (nameSizes name (above.length + 1)) (some dad) = some
    (above ++ '/' :: name ++ ['\x00']) ∧
      (nameSizes name (above.length + 1)).fpsize = (above ++ '/' :: name).length + 1 := by
  have hhead : name.head? ≠ some '/' := by
    intro h
    exact hslash (List.mem_of_head? h)
  have hsizes : nameSizes name (above.length + 1) = ⟨true, name ++ ['\x00'], name.length + 1,
      above.length + (name.length + 1 + 1), above.length + (name.length + 1 + 1)⟩ := by
    unfold nameSizes
    rw [if_pos hhead, if_neg (Nat.succ_ne_zero _)]
    simp only [NameSizes.mk.injEq, true_and]
    omega
  have hfirst := writeAt_append above ('\x00' :: List.replicate (name.length + 1) '\x00') ['/']
    (by simp)
  have hrest := writeAt_append (above ++ ['/']) (List.replicate (name.length + 1) '\x00')
    (name ++ ['\x00'])
    (by simp)
  rw [List.length_append, List.length_singleton] at hrest
  rw [hsizes]
  refine ⟨?_, by simp only [List.length_append, List.length_cons]; omega⟩
  unfold buildName
  dsimp only
  rw [if_pos rfl, copyName_child habove, Option.bind_eq_bind, Option.bind_some, cString_append hnul,
    hfirst, Option.bind_some, List.take_of_length_le (by simp)]
  refine hrest.trans ?_
  simp

/-- The full name of the root takes up both bytes for it, whatever its name is in the blob. -/
theorem buildName_root (s : OfState) {name : List Char} (hslash : '/' ∉ name) :
    buildName s (nameSizes name 0) none = some ([] ++ '/' :: [] ++ ['\x00']) ∧
    (nameSizes name 0).fpsize = 1 := by
  have hhead : name.head? ≠ some '/' := by
    intro h
    exact hslash (List.mem_of_head? h)
  have hsizes : nameSizes name 0 = ⟨true, ['\x00'], 1, 2, 1⟩ := by
    unfold nameSizes
    rw [if_pos hhead, if_pos rfl]
  rw [hsizes]
  exact ⟨rfl, rfl⟩

/-! ## The properties

Properties are put in front of the list one by one. Since no two have the same name, the order does
not matter to a search. -/

/-- The properties are put in front of those before them. -/
theorem scanProperties_properties (properties : List FdtProperty) (r : PropertyScan) :
    (properties.foldl scanProperty r).properties = (properties.map FdtProperty.unflatten).reverse ++
      r.properties := by
  induction properties generalizing r with
  | nil => rfl
  | cons prop properties ih =>
    rw [List.foldl_cons, ih, List.map_cons, List.reverse_cons, List.append_assoc]
    rfl

/-- The scan tells whether there was one with the name. -/
theorem scanProperties_hasName (properties : List FdtProperty) (r : PropertyScan) :
    (properties.foldl scanProperty r).hasName ↔ r.hasName ∨ ∃ p ∈ properties, p.name = szName := by
  induction properties generalizing r with
  | nil => simp
  | cons prop properties ih =>
    rw [List.foldl_cons, ih]
    simp [scanProperty, or_assoc]

/-- A property is found if no other has its name. -/
theorem find_of_nodup {list : List OfProperty} (h : (list.map OfProperty.name).Nodup)
    {p : OfProperty} (hp : p ∈ list) :
    list.find? (fun q => q.name = p.name) = some p := by
  induction list with
  | nil => cases hp
  | cons q list ih =>
    rw [List.map_cons, List.nodup_cons] at h
    rcases List.mem_cons.mp hp with rfl | hp
    · rw [List.find?_cons_of_pos (by simp)]
    · have hne : q.name ≠ p.name := by
        intro he
        exact h.1 (he ▸ List.mem_map_of_mem hp)
      rw [List.find?_cons_of_neg (by simpa using hne), ih h.2 hp]

/-- The properties of a new node, as `bt_of_unflatten_dt_node` leaves them. -/
def propertyList (properties : List FdtProperty) (phandle : ℕ) (path : List Char) :
    List OfProperty :=
  let r := properties.foldl scanProperty ⟨false, phandle, []⟩
  if r.hasName then r.properties else nameProperty path :: r.properties

/-- A node with a name property keeps its properties. -/
theorem propertyList_of_name {properties : List FdtProperty} (h : ∃ p ∈ properties, p.name = szName)
    (phandle : ℕ) (path : List Char) :
    propertyList properties phandle path = (properties.map FdtProperty.unflatten).reverse := by
  unfold propertyList
  dsimp only
  rw [if_pos ((scanProperties_hasName _ _).mpr (.inr h)), scanProperties_properties,
    List.append_nil]

theorem propertyList_of_no_name {properties : List FdtProperty}
    (h : ∀ p ∈ properties, p.name ≠ szName) (phandle : ℕ)
    (path : List Char) :
    propertyList properties phandle path = nameProperty path ::
    (properties.map FdtProperty.unflatten).reverse := by
  have hno : ¬(properties.foldl scanProperty ⟨false, phandle, []⟩).hasName := by
    rw [scanProperties_hasName]
    rintro (hfalse | ⟨p, hp, hname⟩)
    · cases hfalse
    · exact h p hp hname
  unfold propertyList
  dsimp only
  rw [if_neg hno, scanProperties_properties, List.append_nil]

/-- No two properties of a new node have the same name. -/
theorem propertyList_nodup {properties : List FdtProperty}
    (h : (properties.map FdtProperty.name).Nodup) (phandle : ℕ)
    (path : List Char) : ((propertyList properties phandle path).map OfProperty.name).Nodup := by
  have hnames : (properties.map FdtProperty.unflatten).reverse.map OfProperty.name =
      (properties.map FdtProperty.name).reverse := by
    rw [List.map_reverse, List.map_map]
    rfl
  by_cases hname : ∃ p ∈ properties, p.name = szName
  · rw [propertyList_of_name hname, hnames]
    exact List.nodup_reverse.mpr h
  · have hno : ∀ p ∈ properties, p.name ≠ szName := fun p hp he => hname ⟨p, hp, he⟩
    rw [propertyList_of_no_name hno, List.map_cons, hnames, List.nodup_cons]
    refine ⟨?_, List.nodup_reverse.mpr h⟩
    intro hmem
    obtain ⟨p, hp, he⟩ := List.mem_map.mp (List.mem_reverse.mp hmem)
    exact hno p hp he

theorem mem_propertyList {properties : List FdtProperty} {p : FdtProperty} (hp : p ∈ properties)
    (phandle : ℕ) (path : List Char) : p.unflatten ∈ propertyList properties phandle path := by
  have hmem : p.unflatten ∈ (properties.map FdtProperty.unflatten).reverse :=
    List.mem_reverse.mpr (List.mem_map_of_mem hp)
  by_cases hname : ∃ p ∈ properties, p.name = szName
  · rw [propertyList_of_name hname]
    exact hmem
  · rw [propertyList_of_no_name fun p hp he => hname ⟨p, hp, he⟩]
    exact List.mem_cons_of_mem _ hmem

/-! ## One node

The pieces are put together: the block is large enough, the name is in it, and the properties are
found. -/

/-- A node with its properties and its full name is what the blob has there. -/
theorem represents_of_properties {np : OfNode} {above component : List Char}
    {properties : List FdtProperty} (phandle : ℕ)
    (hpath : cString np.fullName = above ++ '/' :: component)
    (hfits : (above ++ '/' :: component).length < np.fullName.length) (hslash : '/' ∉ component)
    (hnodup : (properties.map FdtProperty.name).Nodup)
    (hlist : np.properties = propertyList properties phandle (cString np.fullName)) :
    np.Represents np.parent (above ++ '/' :: component) component properties := by
  have hdistinct : (np.properties.map OfProperty.name).Nodup :=
    hlist ▸ propertyList_nodup hnodup _ _
  have hget : ∀ q ∈ np.properties, np.btOfGetProperty q.name = some (q.value, q.length) := by
    intro q hq
    unfold OfNode.btOfGetProperty
    rw [find_of_nodup hdistinct hq]
    rfl
  refine ⟨rfl, hpath, hfits, ?_, ?_⟩
  · intro p hp
    exact hget p.unflatten (hlist ▸ mem_propertyList hp _ _)
  · intro hno
    obtain ⟨u, hu, hname⟩ := nameProperty_eq hslash above
    rw [propertyList_of_no_name hno, hpath, hname] at hlist
    exact ⟨u, hu, hget ⟨szName, u.length + 1, u ++ ['\x00']⟩ (hlist ▸ List.mem_cons_self)⟩

/-- One node is allocated, and is what the blob has there. -/
theorem btOfUnflattenDtNode_spec {s : OfState} {name : List Char} (phandle : ℕ)
    {properties : List FdtProperty} {dad : Option ℕ} {fpsize : ℕ} {above component : List Char}
    (hbuild : buildName s (nameSizes name fpsize) dad =
      some (above ++ '/' :: component ++ ['\x00']))
    (hnul : '\x00' ∉ above ++ '/' :: component) (hslash : '/' ∉ component)
    (hnodup : (properties.map FdtProperty.name).Nodup) :
    ∃ node, btOfUnflattenDtNode s name phandle properties dad fpsize = some
    (s.fresh, (nameSizes name fpsize).fpsize, s.alloc node) ∧
      node.Represents dad (above ++ '/' :: component) component properties ∧
        node.children = [] := by
  unfold btOfUnflattenDtNode
  dsimp only
  rw [hbuild]
  refine ⟨_, rfl, ?_, rfl⟩
  refine represents_of_properties phandle (cString_append hnul []) ?_ hslash hnodup rfl
  change _ < (above ++ '/' :: component ++ ['\x00']).length
  simp

/-! ## The tree

An induction over the forest. The children of a node are all below it, and what they do to the state
does not touch a node outside, except for the list of children that they are added to. -/

/-- Only the nodes of the list matter. -/
theorem Unflattened.congr {s s' : OfState} {forest : FdtNodes} {dad : ℕ} {above : List Char}
    {children all : List ℕ} (h : Unflattened s forest dad above children all)
    (hnodes : ∀ c ∈ all, s'.nodes c = s.nodes c) :
    Unflattened s' forest dad above children all := by
  induction forest generalizing dad above children all with
  | nil => exact h
  | node name phandle properties sub next ihsub ihnext =>
    obtain ⟨c, rest, low, high, rfl, rfl, hc, hsub, hnext⟩ := h
    have hcnodes : s'.nodes c = s.nodes c := hnodes c (by simp)
    refine ⟨c, rest, low, high, rfl, rfl, hcnodes ▸ hc, ?_, ?_⟩
    · rw [hcnodes]
      exact ihsub hsub fun d hd => hnodes d (by simp [hd])
    · exact ihnext hnext fun d hd => hnodes d (by simp [hd])

/-- The children of a node are among all nodes. -/
theorem Unflattened.subset {s : OfState} {forest : FdtNodes} {dad : ℕ} {above : List Char}
    {children all : List ℕ} (h : Unflattened s forest dad above children all) : children ⊆ all := by
  induction forest generalizing dad above children all with
  | nil =>
    obtain ⟨rfl, rfl⟩ := h
    exact List.Subset.refl _
  | node name phandle properties sub next ihsub ihnext =>
    obtain ⟨c, rest, low, high, rfl, rfl, hc, hsub, hnext⟩ := h
    intro d hd
    rcases List.mem_cons.mp hd with rfl | hd
    · simp
    · simp [ihnext hnext hd]

/-- Each node is once in the list of its parent. -/
theorem Unflattened.once {s : OfState} {forest : FdtNodes} {dad : ℕ} {above : List Char}
    {children all : List ℕ} (h : Unflattened s forest dad above children all) (hnodup : all.Nodup) :
    ∀ c ∈ all, ((s.nodes c).parent = some dad ∧ children.count c = 1) ∨
      ∃ d ∈ all, (s.nodes c).parent = some d ∧ (s.nodes d).children.count c = 1 := by
  induction forest generalizing dad above children all with
  | nil =>
    obtain ⟨rfl, rfl⟩ := h
    simp
  | node name phandle properties sub next ihsub ihnext =>
    obtain ⟨c, rest, low, high, rfl, rfl, hc, hsub, hnext⟩ := h
    obtain ⟨hlow, hhigh, hdisjoint⟩ := List.nodup_append.mp hnodup
    obtain ⟨hchigh, hhigh⟩ := List.nodup_cons.mp hhigh
    intro x hx
    rcases List.mem_append.mp hx with hx | hx
    · rcases ihsub hsub hlow x hx with hup | ⟨d, hd, hup⟩
      · exact .inr ⟨c, by simp, hup⟩
      · exact .inr ⟨d, by simp [hd], hup⟩
    · rcases List.mem_cons.mp hx with rfl | hx
      · refine .inl ⟨hc.parent, ?_⟩
        rw [List.count_cons_self, List.count_eq_zero_of_not_mem fun hin => hchigh
          (hnext.subset hin)]
      · rcases ihnext hnext hhigh x hx with hup | ⟨d, hd, hup⟩
        · refine .inl ⟨hup.1, ?_⟩
          have hne : c ≠ x := by
            rintro rfl
            exact hchigh hx
          rw [List.count_cons_of_ne hne]
          exact hup.2
        · exact .inr ⟨d, by simp [hd], hup⟩

/-- What the loop over some subnodes of `dad` does to the state. -/
structure Grown (s s' : OfState) (forest : FdtNodes) (dad : ℕ) (above : List Char)
    (children all : List ℕ) : Prop where
  /-- the nodes of the forest are in memory -/
  unflattened : Unflattened s' forest dad above children all
  /-- the node above has got the children -/
  parent : s'.nodes dad = { s.nodes dad with children := (s.nodes dad).children ++ children }
  /-- and nothing else has happened to the nodes that were there -/
  frame : ∀ i < s.fresh, i ≠ dad → s'.nodes i = s.nodes i
  fresh : s.fresh ≤ s'.fresh
  /-- nor to the list of devices -/
  devices : s'.devices = s.devices
  /-- the nodes are at the end of the list of all nodes -/
  allitems : s'.allitems = s.allitems ++ all
  /-- they are new -/
  range : ∀ c ∈ all, s.fresh ≤ c ∧ c < s'.fresh
  /-- and different -/
  nodup : all.Nodup

theorem OfState.alloc_self (s : OfState) (node : OfNode) : (s.alloc node).nodes s.fresh = node :=
  Function.update_self _ _ _

theorem OfState.alloc_of_lt (s : OfState) (node : OfNode) {i : ℕ} (h : i < s.fresh) :
    (s.alloc node).nodes i = s.nodes i :=
  Function.update_of_ne h.ne _ _

theorem OfState.addTail_self (s : OfState) (dad child : ℕ) :
    (s.addTail dad child).nodes dad =
    { s.nodes dad with children := (s.nodes dad).children ++ [child] } :=
  Function.update_self _ _ _

theorem OfState.addTail_of_ne (s : OfState) {dad i : ℕ} (h : i ≠ dad) (child : ℕ) :
    (s.addTail dad child).nodes i = s.nodes i :=
  Function.update_of_ne h _ _

/-- What a node represents does not depend on its children. -/
theorem OfNode.Represents.children {np : OfNode} {parent : Option ℕ} {path component : List Char}
    {properties : List FdtProperty} (h : np.Represents parent path component properties)
    (children : List ℕ) :
    { np with children := children }.Represents parent path component properties :=
  ⟨h.parent, h.fullName, h.fits, h.property, h.unitName⟩

/-- A child and all below it, then the child is added to its parent, and then those after it. -/
theorem Grown.node {s s₂ s₄ : OfState} {name : List Char} {phandle : ℕ}
    {properties : List FdtProperty} {sub next : FdtNodes} {dad : ℕ} (hdad : dad < s.fresh)
    {above : List Char} {kids low rest high : List ℕ} {node : OfNode}
    (hrep : node.Represents (some dad) (above ++ '/' :: name) name properties)
    (hnone : node.children = [])
    (hsub : Grown (s.alloc node) s₂ sub s.fresh (above ++ '/' :: name) kids low)
    (hnext : Grown (s₂.addTail dad s.fresh) s₄ next dad above rest high) :
    Grown s s₄ (.node name phandle properties sub next) dad above (s.fresh :: rest)
    (low ++ s.fresh :: high) := by
  have hfresh₂ : s.fresh < s₂.fresh := hsub.fresh
  have hfresh₄ : s₂.fresh ≤ s₄.fresh := hnext.fresh
  have hlow : ∀ c ∈ low, s.fresh < c ∧ c < s₂.fresh := hsub.range
  have hhigh : ∀ c ∈ high, s₂.fresh ≤ c ∧ c < s₄.fresh := hnext.range
  have hdad₂ : s₂.nodes dad = s.nodes dad := by
    rw [hsub.frame dad (Nat.lt_succ_of_lt hdad) hdad.ne, s.alloc_of_lt node hdad]
  -- nothing below the next nodes is touched once it is there
  have hkeep : ∀ c < s₂.fresh, c ≠ dad → s₄.nodes c = s₂.nodes c := by
    intro c hc hne
    rw [hnext.frame c hc hne, s₂.addTail_of_ne hne]
  have hchild : s₄.nodes s.fresh = { node with children := kids } := by
    rw [hkeep s.fresh hfresh₂ hdad.ne', hsub.parent, s.alloc_self node, hnone, List.nil_append]
  refine ⟨⟨s.fresh, rest, low, high, rfl, rfl, ?_, ?_, hnext.unflattened⟩, ?_, ?_, ?_, ?_, ?_, ?_,
    ?_⟩
  · rw [hchild]
    exact hrep.children kids
  · rw [hchild]
    refine hsub.unflattened.congr fun c hc => hkeep c (hlow c hc).2 ?_
    have := (hlow c hc).1
    omega
  · rw [hnext.parent, s₂.addTail_self, hdad₂]
    dsimp only
    rw [List.append_assoc]
    rfl
  · intro i hi hne
    rw [hkeep i (by omega) hne, hsub.frame i (Nat.lt_succ_of_lt hi) hi.ne, s.alloc_of_lt node hi]
  · omega
  · rw [hnext.devices]
    exact hsub.devices
  · rw [hnext.allitems]
    unfold OfState.addTail
    dsimp only
    rw [hsub.allitems, List.append_assoc, List.append_assoc]
    rfl
  · intro c hc
    rcases List.mem_append.mp hc with hc | hc
    · have := hlow c hc
      omega
    · rcases List.mem_cons.mp hc with rfl | hc
      · omega
      · have := hhigh c hc
        omega
  · rw [List.nodup_append, List.nodup_cons]
    refine ⟨hsub.nodup, ⟨?_, hnext.nodup⟩, ?_⟩
    · intro hc
      have := hhigh _ hc
      omega
    · intro c hc d hd
      have := hlow c hc
      rcases List.mem_cons.mp hd with rfl | hd
      · omega
      · have := hhigh d hd
        omega

/-- The nodes of a forest are unflattened below their parent, one after the other. -/
theorem subnodes_spec (forest : FdtNodes) (hok : forest.Ok) {s : OfState} {dad : ℕ}
    (hdad : dad < s.fresh) {above : List Char} (habove : Above (s.nodes dad) above)
    (hnul : '\x00' ∉ above) :
    ∃ s' children all, subnodes forest dad (above.length + 1) s = some s' ∧
      Grown s s' forest dad above children all := by
  induction forest generalizing s dad above with
  | nil =>
    refine ⟨s, [], [], rfl, ⟨rfl, rfl⟩, ?_, fun _ _ _ => rfl, le_refl _, rfl, ?_, nofun,
      List.nodup_nil⟩
    · rw [List.append_nil]
    · rw [List.append_nil]
  | node name phandle properties sub next ihsub ihnext =>
    obtain ⟨⟨hslash, hnulname, hnames⟩, hsub, hnext⟩ := hok
    have hnulpath : '\x00' ∉ above ++ '/' :: name := by
      simp [hnul, hnulname]
    obtain ⟨hbuild, hsize⟩ := buildName_child habove hnul hslash
    obtain ⟨node, hnode, hrep, hnone⟩ :=
      btOfUnflattenDtNode_spec phandle hbuild hnulpath hslash hnames
    rw [hsize] at hnode
    have haboveChild : Above ((s.alloc node).nodes s.fresh) (above ++ '/' :: name) := by
      unfold Above
      rw [s.alloc_self node, hrep.parent, if_neg (Option.some_ne_none _)]
      exact hrep.fullName
    obtain ⟨s₂, kids, low, hlow, hgrown⟩ :=
      ihsub hsub (s := s.alloc node) (Nat.lt_succ_self s.fresh) haboveChild hnulpath
    have hdad₂ : s₂.nodes dad = s.nodes dad := by
      rw [hgrown.frame dad (Nat.lt_succ_of_lt hdad) hdad.ne, s.alloc_of_lt node hdad]
    have haboveDad : Above ((s₂.addTail dad s.fresh).nodes dad) above := by
      rw [s₂.addTail_self, hdad₂]
      exact habove
    have hfresh : dad < s₂.fresh := (hdad.trans (Nat.lt_succ_self _)).trans_le hgrown.fresh
    obtain ⟨s₄, rest, high, hhigh, hgrown'⟩ :=
      ihnext hnext (s := s₂.addTail dad s.fresh) hfresh haboveDad hnul
    refine ⟨s₄, s.fresh :: rest, low ++ s.fresh :: high, ?_, .node hdad hrep hnone hgrown hgrown'⟩
    rw [subnodes, hnode]
    change (subnodes sub s.fresh _ _).bind _ = _
    rw [hlow]
    exact hhigh

/-- The tree in memory is the one in the blob. Each node is made, its full name is its path and
fits, and its properties are found, also the name that was made up; it has the right parent, and is
once in the list of this one, in the order of the blob, and once in the list of all nodes. -/
theorem device_tree_unflattened {name : List Char} (phandle : ℕ) {properties : List FdtProperty}
    {sub : FdtNodes} (hslash : '/' ∉ name) (hnames : (properties.map FdtProperty.name).Nodup)
    (hok : sub.Ok)
    (nodes : ℕ → OfNode) (fresh : ℕ) :
    ∃ s root all, btOfUnflattenDeviceTree ⟨nodes, fresh, [], []⟩ name phandle properties sub =
      some s ∧
      s.devices = [root] ∧ s.allitems = root :: all ∧ (root :: all).Nodup ∧
      (s.nodes root).Represents none ['/'] [] properties ∧
      Unflattened s sub root [] (s.nodes root).children all ∧
      ∀ c ∈ all, ∃ d ∈ root :: all, (s.nodes c).parent = some d ∧
      (s.nodes d).children.count c = 1 := by
  have hbuild := buildName_root ⟨nodes, fresh, [], []⟩ hslash
  obtain ⟨node, hnode, hrep, hnone⟩ :=
    btOfUnflattenDtNode_spec phandle hbuild.1 (by decide) List.not_mem_nil hnames
  set s₁ : OfState := OfState.alloc ⟨nodes, fresh, [], []⟩ node
  rw [hbuild.2] at hnode
  have hroot : s₁.nodes fresh = node := OfState.alloc_self _ node
  have habove : Above (s₁.nodes fresh) [] := by
    unfold Above
    rw [hroot, hrep.parent, if_pos rfl]
  obtain ⟨s, children, all, hs, hgrown⟩ :=
    subnodes_spec sub hok (s := s₁) (Nat.lt_succ_self fresh) habove List.not_mem_nil
  have hparent : s.nodes fresh = { node with children := children } := by
    rw [hgrown.parent, hroot, hnone, List.nil_append]
  have hnodup : (fresh :: all).Nodup := by
    refine List.nodup_cons.mpr ⟨?_, hgrown.nodup⟩
    intro hmem
    exact absurd (hgrown.range fresh hmem).1 (Nat.not_succ_le_self fresh)
  refine ⟨{ s with devices := fresh :: s.devices, allitems := fresh :: s.allitems }, fresh, all, ?_,
    ?_, ?_, hnodup, ?_, ?_, ?_⟩
  · unfold btOfUnflattenDeviceTree
    rw [hnode]
    change (subnodes sub fresh _ _).bind _ = _
    rw [show 1 = ([] : List Char).length + 1 from rfl, hs]
    rfl
  · exact congrArg (fresh :: ·) hgrown.devices
  · exact congrArg (fresh :: ·) hgrown.allitems
  · dsimp only
    rw [hparent]
    exact hrep.children children
  · dsimp only
    rw [hparent]
    exact hgrown.unflattened.congr fun c hc => rfl
  · intro c hc
    rcases hgrown.unflattened.once hgrown.nodup c hc with hup | ⟨d, hd, hup⟩
    · refine ⟨fresh, List.mem_cons_self, hup.1, ?_⟩
      dsimp only
      rw [hparent]
      exact hup.2
    · exact ⟨d, List.mem_cons_of_mem _ hd, hup⟩

/-- A processor with a cache, and a memory. -/
def smallTree : FdtNodes :=
  .node "cpu@0".toList 1 [⟨"reg".toList, ['\x00', '\x00', '\x00', '\x00']⟩]
  (.node "cache".toList 0 [] .nil .nil)
    (.node "memory".toList 0 [⟨szName, ['m', '\x00']⟩] .nil .nil)

theorem small_tree_unflattened :
    smallTree.Ok ∧ ∃ s root all,
      btOfUnflattenDeviceTree ⟨fun _ => ⟨none, [], [], [], [], [], 0⟩, 0, [], []⟩ [] 0
      [] smallTree = some s ∧
      s.devices = [root] ∧ s.allitems = root :: all ∧ (root :: all).Nodup ∧
      (s.nodes root).Represents none ['/'] [] [] ∧
      Unflattened s smallTree root [] (s.nodes root).children all ∧
      ∀ c ∈ all, ∃ d ∈ root :: all, (s.nodes c).parent = some d ∧
      (s.nodes d).children.count c = 1 := by
  have hok : smallTree.Ok := by
    simp [smallTree, FdtNodes.Ok]
  have hnames : (([] : List FdtProperty).map FdtProperty.name).Nodup := List.nodup_nil
  exact ⟨hok, device_tree_unflattened 0 List.not_mem_nil hnames hok _ 0⟩

end BitThunder
