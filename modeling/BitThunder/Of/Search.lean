import BitThunder.Of.Unflatten

/-!
# Searching the device tree

`bt_of_find_node_by_path`, `bt_of_find_node_by_phandle` and `bt_of_is_compatible` of
`os/src/of/base.c`. The first keeps the node that it looks at in the variable that it returns, so
that it returns the last node where none has the path. The last compares only as many characters as
the string has that is asked for, and goes on behind a property that has no zero at its end.

`device_tree_searches_iff`: these are the only ways to go wrong.

A search by a phandle compares a number with every node and gives back the first that has it or
nothing, so that it is always right. A search by a path does the same with strings, but gives back
the variable it has walked the list with. That is nothing only if the list is empty.

A property is a run of bytes, and its strings are what stands between the zeros. The comparison is
by the length of the string that is asked for, so that a string that begins with it is taken for it.
At the end of a property without a zero the code goes on behind it; this is only harmless if the
answer has been given by then.
-/

namespace BitThunder

/-! ## The code

A comparison runs along a property and stops at a zero or at a difference. Where neither comes the
model has no result, and the code reads on in whatever is behind the property. -/

/-- A string of C -/
structure OfString : Type where
  chars : List Char
  noNul : '\x00' ∉ chars

/-- The loop of `bt_of_find_node_by_path`, with `node`. Every node that was allocated has a
`full_name`. -/
def findPathLoop (nodes : ℕ → OfNode) (path : List Char) : List ℕ → Option ℕ → Option ℕ
  | [], node => node
  | pos :: rest, _ => if cString (nodes pos).fullName = path then some pos
    else findPathLoop nodes path rest (some pos)

def OfState.btOfFindNodeByPath (params : OfState) (path : OfString) : Option ℕ :=
  findPathLoop params.nodes path.chars params.allitems none

def OfState.btOfFindNodeByPhandle (params : OfState) (phandle : ℕ) : Option ℕ :=
  params.allitems.find? fun pos => (params.nodes pos).phandle = phandle

/-- `!strncmp(cp, compat, compatlen)`. There is nothing if it reads behind the property. -/
def strncmpCompat : List Char → List Char → Option Bool
  | _, [] => some true
  | [], _ :: _ => none
  | c :: cp, d :: compat =>
    if c ≠ d then some false else if c = '\x00' then some true else strncmpCompat cp compat

/-- `strlen(cp)`. There is nothing if it reads behind the property. -/
def strlenCompat (cp : List Char) : Option ℕ := cp.findIdx? (· = '\x00')

/-- The length of a string is below that of the property it is in. -/
theorem lt_of_strlenCompat {cp : List Char} {n : ℕ} (h : strlenCompat cp = some n) :
    n < cp.length := by
  obtain ⟨hlt, -⟩ := List.findIdx?_eq_some_iff_getElem.mp h
  exact hlt

/-- The loop of `bt_of_is_compatible`: `cp` is what is left of the property. -/
def isCompatibleLoop (compat cp : List Char) (cplen : ℕ) : Option Bool :=
  if cplen = 0 then some false
  else match strncmpCompat cp compat with
    | none => none
    | some true => some true
    | some false =>
      match h : strlenCompat cp with
      | none => none
      | some n =>
        let l := n + 1
        -- `cplen -= l`, for words
        isCompatibleLoop compat (cp.drop l) (if l ≤ cplen then cplen - l else cplen + 2 ^ 32 - l)
termination_by cp.length
decreasing_by
  have := lt_of_strlenCompat h
  rw [List.length_drop]
  omega

def szCompatible : List Char := "compatible".toList

/-- `bt_of_is_compatible`. There is nothing if it reads behind the property. -/
def OfNode.btOfIsCompatible (device : OfNode) (compat : OfString) : Option Bool :=
  match device.btOfGetProperty szCompatible with
  | none => some false
  | some (cp, cplen) => isCompatibleLoop compat.chars cp cplen

/-! ## What is asked for

The strings of a property are what is between zeros, and the last may be without one. Each search is
asked for what its name says. -/

/-- The strings of a property, when `word` has been read: zeros stand between them, and one behind
the last if it is ended. -/
def stringsBehind (word : List Char) : List Char → List (List Char)
  | [] => if word = [] then [] else [word]
  | c :: cs => if c = '\x00' then word :: stringsBehind [] cs else stringsBehind (word ++ [c]) cs

/-- The contents of the `compatible` property -/
def OfNode.compatible (device : OfNode) : List Char :=
  ((device.btOfGetProperty szCompatible).map Prod.fst).getD []

def OfNode.compatibleStrings (device : OfNode) : List (List Char) :=
  stringsBehind [] device.compatible

/-- The last string is ended. -/
def EndsInNul (value : List Char) : Prop := ∀ c ∈ value.getLast?, c = '\x00'

namespace OfState

variable (params : OfState)

/-- The node with the path is found. -/
def FindsPath (path : OfString) : Prop :=
  match params.btOfFindNodeByPath path with
  | some node => node ∈ params.allitems ∧ cString (params.nodes node).fullName = path.chars
  | none => ∀ node ∈ params.allitems, cString (params.nodes node).fullName ≠ path.chars

/-- A node with the phandle is found. -/
def FindsPhandle (phandle : ℕ) : Prop :=
  match params.btOfFindNodeByPhandle phandle with
  | some node => node ∈ params.allitems ∧ (params.nodes node).phandle = phandle
  | none => ∀ node ∈ params.allitems, (params.nodes node).phandle ≠ phandle

end OfState

theorem lawful_chars : LawfulBEq (List Char) := inferInstance

/-- It is said that a device is compatible if the string is in its list, and nothing is read behind
this. -/
def OfNode.TellsCompatible (device : OfNode) (compat : OfString) : Prop :=
  haveI := lawful_chars
  device.btOfIsCompatible compat = some (decide (compat.chars ∈ device.compatibleStrings))

/-- The length of each property is that of its value. -/
def OfNode.Sized (np : OfNode) : Prop := ∀ p ∈ np.properties, p.length = p.value.length

/-! ## The nodes that were unflattened

A node in memory comes from a blob, and the length that is noted with a property is that of its
value. This is a fact about the code that builds the nodes and not an assumption on them. -/

/-- The property that is made for a name has the length of its value. -/
theorem nameProperty_sized (fullName : List Char) :
    (nameProperty fullName).length = (nameProperty fullName).value.length := by
  have hend := scanName_end fullName 0 0 none
  have hat := @scanName_at_lt fullName 0 0 none nofun
  unfold nameProperty
  dsimp only
  generalize scanName fullName 0 0 none = r at *
  obtain ⟨p1, ps, pa⟩ := r
  dsimp only at hend hat ⊢
  cases pa with
  | none =>
    simp only [List.length_append, List.length_take, List.length_drop, List.length_singleton]
    omega
  | some pa =>
    have := hat pa rfl
    dsimp only
    split
    all_goals
      simp only [List.length_append, List.length_take, List.length_drop, List.length_singleton]
      omega

/-- A node is unflattened with the lengths of its properties. -/
theorem btOfUnflattenDtNode_sized {s s' : OfState} {name : List Char} {phandle : ℕ}
    {properties : List FdtProperty} {dad : Option ℕ} {fpsize node size : ℕ}
    (h : btOfUnflattenDtNode s name phandle properties dad fpsize = some (node, size, s')) :
    (s'.nodes node).Sized := by
  unfold btOfUnflattenDtNode at h
  dsimp only at h
  obtain ⟨fullName, -, h⟩ := Option.bind_eq_some_iff.mp h
  simp only [Option.pure_def, Option.some.injEq, Prod.mk.injEq] at h
  obtain ⟨rfl, -, rfl⟩ := h
  rw [OfState.alloc_self]
  intro p hp
  have hblob : ∀ q ∈ (properties.map FdtProperty.unflatten).reverse, q.length = q.value.length := by
    intro q hq
    obtain ⟨r, -, rfl⟩ := List.mem_map.mp (List.mem_reverse.mp hq)
    rfl
  change p ∈ propertyList properties phandle (cString fullName) at hp
  by_cases hname : ∃ p ∈ properties, p.name = szName
  · rw [propertyList_of_name hname] at hp
    exact hblob p hp
  · rw [propertyList_of_no_name fun p hp he => hname ⟨p, hp, he⟩] at hp
    rcases List.mem_cons.mp hp with rfl | hp
    · exact nameProperty_sized _
    · exact hblob p hp

/-! ## The list of all nodes

The loop keeps the node it has looked at last. That is the one that was found if there is one, and
the last of the list if there is none. -/

/-- The loop gives the node that was found, or else the last one that it looked at. -/
theorem findPathLoop_eq (nodes : ℕ → OfNode) (path : List Char) (l : List ℕ) (node : Option ℕ) :
    findPathLoop nodes path l node =
      (l.find? fun pos => cString (nodes pos).fullName = path).or (l.getLast?.or node) := by
  induction l generalizing node with
  | nil => rfl
  | cons pos rest ih =>
    unfold findPathLoop
    by_cases h : cString (nodes pos).fullName = path
    · rw [if_pos h, List.find?_cons_of_pos (by simpa using h)]
      rfl
    · rw [if_neg h, List.find?_cons_of_neg (by simpa using h), ih, List.getLast?_cons]
      cases rest.getLast? <;> rfl

/-- A search for a path is right exactly if there is such a node, or none at all. -/
theorem findsPath_iff (params : OfState) (path : OfString) : params.FindsPath path ↔
    params.allitems = [] ∨ ∃ node ∈ params.allitems, cString
    (params.nodes node).fullName = path.chars := by
  unfold OfState.FindsPath OfState.btOfFindNodeByPath
  rw [findPathLoop_eq, Option.or_none]
  cases hfind : params.allitems.find? fun pos => cString (params.nodes pos).fullName =
    path.chars with
  | some node =>
    have hmem := List.mem_of_find?_eq_some hfind
    have hname : cString (params.nodes node).fullName = path.chars := by
      simpa using List.find?_some hfind
    exact iff_of_true ⟨hmem, hname⟩ (.inr ⟨node, hmem, hname⟩)
  | none =>
    have hno : ∀ node ∈ params.allitems, cString (params.nodes node).fullName ≠ path.chars := by
      simpa using List.find?_eq_none.mp hfind
    rw [Option.none_or]
    cases hlast : params.allitems.getLast? with
    | none => exact iff_of_true hno (.inl (List.getLast?_eq_none_iff.mp hlast))
    | some node =>
      have hmem := List.mem_of_getLast? hlast
      refine iff_of_false (fun h => hno node hmem h.2) ?_
      rintro (hnil | ⟨c, hc, hname⟩)
      · rw [hnil] at hmem
        exact List.not_mem_nil hmem
      · exact hno c hc hname

theorem findsPhandle (params : OfState) (phandle : ℕ) : params.FindsPhandle phandle := by
  unfold OfState.FindsPhandle OfState.btOfFindNodeByPhandle
  cases hfind : params.allitems.find? fun pos => (params.nodes pos).phandle = phandle with
  | some node => exact ⟨List.mem_of_find?_eq_some hfind, by simpa using List.find?_some hfind⟩
  | none => simpa using List.find?_eq_none.mp hfind

/-! ## The strings of a property

The property is taken apart at its first zero, if it has one, and the loop goes on behind it. The
induction is on its length. -/

section Strings

variable {s cp compat : List Char}

/-- Characters that are no terminator belong to the string before them. -/
theorem stringsBehind_append (h : '\x00' ∉ s) (word rest : List Char) :
    stringsBehind word (s ++ rest) = stringsBehind (word ++ s) rest := by
  induction s generalizing word with
  | nil => rw [List.nil_append, List.append_nil]
  | cons c s ih =>
    obtain ⟨hc, hs⟩ := not_or.mp (mt List.mem_cons.mpr h)
    rw [List.cons_append, stringsBehind, if_neg (Ne.symm hc), ih hs, List.append_assoc]
    rfl

theorem stringsBehind_ended (h : '\x00' ∉ s) (rest : List Char) :
    stringsBehind [] (s ++ '\x00' :: rest) = s :: stringsBehind [] rest := by
  rw [stringsBehind_append h, List.nil_append, stringsBehind, if_pos rfl]

theorem stringsBehind_unended (h : '\x00' ∉ s) : stringsBehind [] s = if s = [] then []
    else [s] := by
  have happend := stringsBehind_append h [] []
  rw [List.append_nil, List.nil_append] at happend
  rw [happend, stringsBehind]

/-- A comparison that comes to a zero -/
theorem strncmpCompat_ended (hs : '\x00' ∉ s) (hcompat : '\x00' ∉ compat) (rest : List Char) :
    strncmpCompat (s ++ '\x00' :: rest) compat = some (decide (compat <+: s)) := by
  induction compat generalizing s with
  | nil => cases s <;> simp [strncmpCompat]
  | cons d compat ih =>
    obtain ⟨hd, hrest⟩ := not_or.mp (mt List.mem_cons.mpr hcompat)
    cases s with
    | nil => simp [strncmpCompat, hd]
    | cons c s =>
      obtain ⟨hc, hs⟩ := not_or.mp (mt List.mem_cons.mpr hs)
      rw [List.cons_append, strncmpCompat]
      by_cases hcd : c = d
      · subst hcd
        rw [if_neg (not_not.mpr rfl), if_neg (Ne.symm hc), ih hs hrest]
        simp [List.cons_prefix_cons]
      · rw [if_pos hcd]
        simp [List.cons_prefix_cons, Ne.symm hcd]

/-- A comparison without a zero says yes where the string begins with what is asked for, and never
else. -/
theorem strncmpCompat_unended (hs : '\x00' ∉ s) :
    strncmpCompat s compat = some true ↔ compat <+: s := by
  induction compat generalizing s with
  | nil => cases s <;> simp [strncmpCompat]
  | cons d compat ih =>
    cases s with
    | nil => simp [strncmpCompat]
    | cons c s =>
      obtain ⟨hc, hs⟩ := not_or.mp (mt List.mem_cons.mpr hs)
      rw [strncmpCompat]
      by_cases hcd : c = d
      · subst hcd
        rw [if_neg (not_not.mpr rfl), if_neg (Ne.symm hc), ih hs]
        simp [List.cons_prefix_cons]
      · rw [if_pos hcd]
        simp [List.cons_prefix_cons, Ne.symm hcd]

theorem strlenCompat_ended (h : '\x00' ∉ s) (rest : List Char) :
    strlenCompat (s ++ '\x00' :: rest) = some s.length := by
  unfold strlenCompat
  rw [List.findIdx?_append, List.findIdx?_eq_none_iff.mpr ?_]
  · simp [List.findIdx?_cons]
  · intro c hc
    exact decide_eq_false fun he => h (he ▸ hc)

theorem strlenCompat_unended (h : '\x00' ∉ s) : strlenCompat s = none :=
  List.findIdx?_eq_none_iff.mpr fun _ hc => decide_eq_false fun he => h (he ▸ hc)

/-- Whether a property ends in a terminator can be seen behind any of its strings. -/
theorem endsInNul_append (rest : List Char) : EndsInNul (s ++ '\x00' :: rest) ↔ EndsInNul rest := by
  unfold EndsInNul
  rw [List.getLast?_append, List.getLast?_cons]
  cases rest.getLast? <;> simp

/-- Without a terminator it is so only of the empty property. -/
theorem endsInNul_iff_nil (h : '\x00' ∉ s) : EndsInNul s ↔ s = [] := by
  constructor
  · intro hend
    by_contra hne
    have hlast := List.getLast?_eq_getLast_of_ne_nil hne
    exact h (hend _ hlast ▸ List.getLast_mem hne)
  · rintro rfl
    exact nofun

/-- A string has no zero, or a first one. -/
theorem nul_cases (value : List Char) :
    '\x00' ∉ value ∨ ∃ s rest, value = s ++ '\x00' :: rest ∧ '\x00' ∉ s := by
  by_cases h : '\x00' ∈ value
  · exact .inr (List.eq_append_cons_of_mem h)
  · exact .inl h

/-- One round of the loop, at a string that does not begin with what is asked for -/
theorem isCompatibleLoop_next {cplen : ℕ} (hcplen : cplen ≠ 0)
    (hcmp : strncmpCompat cp compat = some false) :
    isCompatibleLoop compat cp cplen = (strlenCompat cp).bind fun n =>
      isCompatibleLoop compat (cp.drop (n + 1)) (if n + 1 ≤ cplen then cplen - (n + 1)
        else cplen + 2 ^ 32 - (n + 1)) := by
  rw [isCompatibleLoop, if_neg hcplen, hcmp]
  dsimp only
  split
  · next hlen => rw [hlen]; rfl
  · next n hlen => rw [hlen]; rfl

/-- The loop says yes where one of the strings begins with what is asked for, and no where none does
and the last is ended. -/
theorem isCompatibleLoop_eq (hcompat : '\x00' ∉ compat) (value : List Char) :
    (isCompatibleLoop compat value value.length = some true ↔
      ∃ s ∈ stringsBehind [] value, compat <+: s) ∧
      (isCompatibleLoop compat value value.length = some false ↔
        (∀ s ∈ stringsBehind [] value, ¬compat <+: s) ∧ EndsInNul value) := by
  induction hn : value.length using Nat.strongRecOn generalizing value with
  | ind n ih =>
    subst hn
    rcases nul_cases value with hnul | ⟨s, rest, rfl, hnul⟩
    · rw [stringsBehind_unended hnul, endsInNul_iff_nil hnul]
      by_cases hnil : value = []
      · subst hnil
        rw [isCompatibleLoop]
        simp
      · have hcplen : value.length ≠ 0 := by simpa using hnil
        have hyes := @strncmpCompat_unended value compat hnul
        rw [if_neg hnil]
        rcases hcmp : strncmpCompat value compat with _ | _ | _
        · rw [hcmp] at hyes
          rw [isCompatibleLoop, if_neg hcplen, hcmp]
          simp [hnil, ← hyes]
        · -- there is no zero to go on from
          rw [hcmp] at hyes
          rw [isCompatibleLoop_next hcplen hcmp, strlenCompat_unended hnul]
          simp [hnil, ← hyes]
        · rw [hcmp] at hyes
          rw [isCompatibleLoop, if_neg hcplen, hcmp]
          simp [hnil, ← hyes]
    · have hcplen : (s ++ '\x00' :: rest).length ≠ 0 := by simp
      have hcmp := strncmpCompat_ended hnul hcompat rest
      rw [stringsBehind_ended hnul, endsInNul_append]
      by_cases hbegins : compat <+: s
      · rw [decide_eq_true hbegins] at hcmp
        rw [isCompatibleLoop, if_neg hcplen, hcmp]
        simp [hbegins]
      · have hdrop : (s ++ '\x00' :: rest).drop (s.length + 1) = rest := by
          rw [← List.drop_drop, List.drop_left]
          rfl
        have hlen : (s ++ '\x00' :: rest).length = rest.length + (s.length + 1) := by
          simp only [List.length_append, List.length_cons]
          omega
        rw [decide_eq_false hbegins] at hcmp
        rw [isCompatibleLoop_next hcplen hcmp, strlenCompat_ended hnul, Option.bind_some, hdrop,
          hlen, if_pos (Nat.le_add_left _ _), Nat.add_sub_cancel]
        simpa [hbegins] using ih rest.length (by omega) rest rfl

end Strings

/-- `bt_of_is_compatible` is right where the string is in the list, and where the list is ended and
none of its strings begins with the string. -/
theorem tellsCompatible_iff (device : OfNode) (hsized : device.Sized) (compat : OfString) :
    device.TellsCompatible compat ↔ compat.chars ∈ device.compatibleStrings ∨
      (EndsInNul device.compatible ∧ ∀ s ∈ device.compatibleStrings, ¬compat.chars <+: s) := by
  have hloop : device.btOfIsCompatible compat =
      isCompatibleLoop compat.chars device.compatible device.compatible.length := by
    unfold OfNode.btOfIsCompatible OfNode.compatible
    cases hget : device.btOfGetProperty szCompatible with
    | none =>
      rw [Option.map_none, Option.getD_none, isCompatibleLoop]
      rfl
    | some found =>
      obtain ⟨p, hp, rfl⟩ := Option.map_eq_some_iff.mp hget
      rw [Option.map_some, Option.getD_some, ← hsized p (List.mem_of_find?_eq_some hp)]
  obtain ⟨hyes, hno⟩ := isCompatibleLoop_eq compat.noNul device.compatible
  unfold OfNode.TellsCompatible
  rw [hloop]
  by_cases hin : compat.chars ∈ device.compatibleStrings
  · rw [decide_eq_true hin]
    exact iff_of_true (hyes.mpr ⟨_, hin, List.prefix_rfl⟩) (.inl hin)
  · rw [decide_eq_false hin, hno, and_comm]
    exact (or_iff_right hin).symm

/-- **When the searches of the device tree are right**: a path is that of a node, or there are no
nodes at all; a phandle is always found rightly; a string is in the `compatible` list, or none of
this begins with it and the list is ended. -/
theorem device_tree_searches_iff (params : OfState) (path : OfString) (phandle : ℕ)
    (device : OfNode) (hsized : device.Sized) (compat : OfString) :
    (params.FindsPath path ∧ params.FindsPhandle phandle ∧ device.TellsCompatible compat) ↔
      (params.allitems = [] ∨ ∃ node ∈ params.allitems, cString (params.nodes node).fullName =
        path.chars) ∧
        (compat.chars ∈ device.compatibleStrings ∨
          (EndsInNul device.compatible ∧ ∀ s ∈ device.compatibleStrings, ¬compat.chars <+: s)) := by
  rw [findsPath_iff, tellsCompatible_iff device hsized]
  exact and_congr_right fun _ => and_iff_right (findsPhandle params phandle)

/-- A root that is compatible with `"ab"`. -/
def abRoot : OfNode := ⟨none, [], [⟨szCompatible, 3, ['a', 'b', '\x00']⟩], ['/', '\x00'], [], [], 0⟩

/-- The length of the root's property is that of its value. -/
theorem abRoot_sized : abRoot.Sized := by
  intro p hp
  rw [List.mem_singleton.mp hp]
  rfl

/-- The root is found, and is compatible with `"ab"`. -/
theorem device_tree_searches_iff_root :
    (OfState.FindsPath ⟨fun _ => abRoot, 1, [0], [0]⟩ ⟨['/'], by decide⟩ ∧
      OfState.FindsPhandle ⟨fun _ => abRoot, 1, [0], [0]⟩ 1 ∧
        abRoot.TellsCompatible ⟨['a', 'b'], by decide⟩) :=
  (device_tree_searches_iff _ _ 1 abRoot abRoot_sized _).mpr
    ⟨.inr ⟨0, List.mem_singleton_self 0, by decide⟩, .inl (by decide)⟩

/-- The root is returned for a path that there is not, and is said to be compatible with `"a"`. -/
theorem device_tree_searches_wrong : abRoot.Sized ∧
    ¬OfState.FindsPath ⟨fun _ => abRoot, 1, [0], [0]⟩ ⟨['/', 'x'], by decide⟩ ∧
    ¬abRoot.TellsCompatible ⟨['a'], by decide⟩ := by
  refine ⟨abRoot_sized, ?_, ?_⟩
  · rintro ⟨-, hname⟩
    exact absurd hname (by decide)
  · intro htells
    rcases (tellsCompatible_iff abRoot abRoot_sized _).mp htells with hin | ⟨-, hno⟩
    · exact absurd hin (by decide)
    · exact hno ['a', 'b'] (by decide) (by decide)

end BitThunder
