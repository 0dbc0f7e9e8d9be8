import Mathlib.Data.List.Nodup
import Mathlib.Data.List.TakeWhile
import Mathlib.Logic.Function.Basic
import Mathlib.Tactic

/-!
# Lists of items

A list of the kernel is a ring of items through an end marker, with an index that walks along it. An
item is in one list at most, knows in which one, and has a value by which it can be sorted in. Here
the rings are lists; `Sched.ListPointers` has the pointers.

* `ItemList`: one list, with what its index has gone past and what is still ahead;
* `ItemLists`: all lists that share the items, where no item is in two places;
* `ItemLists.insertEnd_eq_some`, `ItemLists.insert_eq_some`, `ItemLists.remove_eq_some`: what the
  operations do;
* `ItemList.sorted_insert`: a sorted list stays sorted.

The lists share their items, so that the right object is all of them together. The invariant of
`ItemLists` is a field of the structure: an item is in a list if and only if it says so, and it is
there once. Every operation builds a new structure and so has to prove it, and an operation that
would break it, putting an item into a second list or taking it out of none, has no result.

The index only matters to the round robin among equals. It is kept as the place where the list is
cut, so that the order of the items and the position of the index can be spoken of apart.
-/

namespace BitThunder

/-- `portMAX_DELAY`, the value of the end marker -/
def portMaxDelay : BitVec 32 := 0xffffffff

/-- `List_t`. The index is at the first item of `passed`, or at the end marker if there is none. -/
structure ItemList (T : Type) : Type where
  /-- the items up to the index, backwards -/
  passed : List T
  /-- the items behind the index -/
  ahead : List T

namespace ItemList

variable {T : Type} (l : ItemList T) (t : T)

/-- `vListInitialise` -/
def empty : ItemList T := ⟨[], []⟩

/-- The items from the end marker on -/
def items : List T := l.passed.reverse ++ l.ahead

/-- `vListInsertEnd`: in front of the index -/
def insertEnd : ItemList T :=
  match l.passed with
  | [] => ⟨[], l.ahead ++ [t]⟩
  | i :: rest => ⟨i :: t :: rest, l.ahead⟩

/-- Put an item behind those in front whose values are not above its own. -/
def sortIn (value : T → BitVec 32) (xs : List T) : List T :=
  xs.takeWhile (fun x => value x ≤ value t) ++ t :: xs.dropWhile (fun x => value x ≤ value t)

/-- `vListInsert` -/
def insert (value : T → BitVec 32) : ItemList T :=
  if l.passed.all (fun x => value x ≤ value t) then ⟨l.passed, sortIn t value l.ahead⟩
  else ⟨(sortIn t value l.passed.reverse).reverse, l.ahead⟩

/-- `listGET_OWNER_OF_NEXT_ENTRY`. There is no owner if the list is empty. -/
def next : Option (T × ItemList T) :=
  match l.ahead with
  | x :: rest => some (x, ⟨x :: l.passed, rest⟩)
  | [] =>
    match l.passed.reverse with
    | x :: rest => some (x, ⟨[x], rest⟩)
    | [] => none

variable {l t}

@[simp] theorem items_empty : (empty : ItemList T).items = [] := rfl

/-- `vListInsertEnd` puts the item before the index: only the order of the items depends on where
that is. -/
theorem items_insertEnd : (l.insertEnd t).items.Perm (t :: l.items) := by
  rcases l with ⟨_ | ⟨i, rest⟩, ahead⟩
  · simp [insertEnd, items]
  · have hfront : (i :: t :: rest).reverse.Perm (t :: (i :: rest).reverse) :=
      (List.reverse_perm _).trans ((List.Perm.swap t i rest).trans
        ((List.reverse_perm _).symm.cons t))
    exact hfront.append_right ahead

theorem sortIn_perm (value : T → BitVec 32) (xs : List T) : (sortIn t value xs).Perm (t :: xs) := by
  have hsplit := List.takeWhile_append_dropWhile (p := fun x => decide (value x ≤ value t))
    (l := xs)
  have hmid : (sortIn t value xs).Perm
      (t :: (xs.takeWhile (fun x => value x ≤ value t) ++ xs.dropWhile
        (fun x => value x ≤ value t))) := List.perm_middle
  rwa [hsplit] at hmid

theorem sortIn_append_of_all {value : T → BitVec 32} {xs ys : List T}
    (h : ∀ x ∈ xs, value x ≤ value t) :
    sortIn t value (xs ++ ys) = xs ++ sortIn t value ys := by
  have htake : ∀ x ∈ xs, decide (value x ≤ value t) = true := fun x hx => decide_eq_true (h x hx)
  rw [sortIn, List.takeWhile_append_of_pos htake, List.dropWhile_append_of_pos htake,
    List.append_assoc]
  rfl

/-- The search stops at the first item with a greater value. -/
theorem sortIn_append_of_not {value : T → BitVec 32} {xs ys : List T}
    (h : ¬∀ x ∈ xs, value x ≤ value t) :
    sortIn t value (xs ++ ys) = sortIn t value xs ++ ys := by
  induction xs with
  | nil => exact absurd (fun x hx => absurd hx List.not_mem_nil) h
  | cons x xs ih =>
    by_cases hx : value x ≤ value t
    · have hrest : ¬∀ y ∈ xs, value y ≤ value t :=
        fun hall => h (List.forall_mem_cons.mpr ⟨hx, hall⟩)
      have hfirst : ∀ y ∈ [x], value y ≤ value t := fun y hy => List.mem_singleton.mp hy ▸ hx
      have hcons : ∀ zs, sortIn t value (x :: zs) = x :: sortIn t value zs :=
        fun zs => sortIn_append_of_all hfirst
      rw [List.cons_append, hcons, hcons, ih hrest, List.cons_append]
    · have hcons : ∀ zs, sortIn t value (x :: zs) = t :: x :: zs := fun zs => by
        rw [sortIn, List.takeWhile_cons_of_neg
          (by simpa using hx), List.dropWhile_cons_of_neg (by simpa using hx)]
        rfl
      rw [List.cons_append, hcons, hcons]
      rfl

/-- Where the index stands does not matter for the place of an item that is sorted in. -/
theorem items_insert (value : T → BitVec 32) :
    (l.insert t value).items = sortIn t value l.items := by
  unfold insert
  split_ifs with hall
  · have hpassed : ∀ x ∈ l.passed.reverse, value x ≤ value t := by
      intro x hx
      exact of_decide_eq_true (List.all_eq_true.mp hall x (List.mem_reverse.mp hx))
    exact (sortIn_append_of_all hpassed).symm
  · have hpassed : ¬∀ x ∈ l.passed.reverse, value x ≤ value t := by
      intro h
      exact hall (List.all_eq_true.mpr fun x hx => decide_eq_true (h x (List.mem_reverse.mpr hx)))
    have hsort : sortIn t value (l.passed.reverse ++ l.ahead) =
        sortIn t value l.passed.reverse ++ l.ahead :=
      sortIn_append_of_not hpassed
    rw [items, List.reverse_reverse]
    exact hsort.symm

/-- The index stays on the list, at the owner that it gives. -/
theorem items_next {l' : ItemList T} (h : l.next = some (t, l')) : l'.items = l.items := by
  rcases l with ⟨passed, _ | ⟨x, rest⟩⟩
  · rw [next] at h
    cases hrev : passed.reverse with
    | nil =>
      simp only [hrev] at h
      cases h
    | cons x rest =>
      simp only [hrev] at h
      obtain ⟨-, rfl⟩ := Prod.mk.inj (Option.some.inj h)
      simp [items, hrev]
  · obtain ⟨-, rfl⟩ := Prod.mk.inj (Option.some.inj h)
    simp [items]

/-- What the index comes to is an item of the list, not its end marker. -/
theorem next_mem {l' : ItemList T} (h : l.next = some (t, l')) : t ∈ l.items := by
  rw [← items_next h]
  rcases l with ⟨passed, _ | ⟨x, rest⟩⟩
  · rw [next] at h
    cases hrev : passed.reverse with
    | nil =>
      simp only [hrev] at h
      cases h
    | cons x rest =>
      simp only [hrev] at h
      obtain ⟨rfl, rfl⟩ := Prod.mk.inj (Option.some.inj h)
      simp [items]
  · obtain ⟨rfl, rfl⟩ := Prod.mk.inj (Option.some.inj h)
    simp [items]

/-- There is an owner unless the list is empty. -/
theorem next_isSome (h : l.items ≠ []) : ∃ r, l.next = some r := by
  rcases l with ⟨passed, _ | ⟨x, rest⟩⟩
  · rw [items, List.append_nil] at h
    obtain ⟨x, rest, hrev⟩ := List.exists_cons_of_ne_nil h
    exact ⟨(x, ⟨[x], rest⟩), by simp only [next, hrev]⟩
  · exact ⟨_, rfl⟩

/-- A sorted list -/
def Sorted (value : T → BitVec 32) (xs : List T) : Prop := xs.Pairwise fun x y => value x ≤ value y

/-- A sorted list stays sorted. -/
theorem sorted_sortIn {value : T → BitVec 32} {xs : List T} (h : Sorted value xs) :
    Sorted value (sortIn t value xs) := by
  induction xs with
  | nil => exact List.pairwise_singleton _ t
  | cons x xs ih =>
    obtain ⟨hx, hxs⟩ := List.pairwise_cons.mp h
    by_cases hle : value x ≤ value t
    · have hfirst : ∀ y ∈ [x], value y ≤ value t := fun y hy => List.mem_singleton.mp hy ▸ hle
      have hcons : sortIn t value (x :: xs) = x :: sortIn t value xs := sortIn_append_of_all hfirst
      rw [hcons]
      refine List.pairwise_cons.mpr ⟨fun y hy => ?_, ih hxs⟩
      rcases List.mem_cons.mp ((sortIn_perm value xs).mem_iff.mp hy) with rfl | hmem
      · exact hle
      · exact hx y hmem
    · have hcons : sortIn t value (x :: xs) = t :: x :: xs := by
        rw [sortIn, List.takeWhile_cons_of_neg
          (by simpa using hle), List.dropWhile_cons_of_neg (by simpa using hle)]
        rfl
      have hlt : value t ≤ value x := Nat.le_of_not_le hle
      rw [hcons]
      refine List.pairwise_cons.mpr ⟨fun y hy => ?_, h⟩
      rcases List.mem_cons.mp hy with rfl | hmem
      · exact hlt
      · exact BitVec.le_trans hlt (hx y hmem)

variable [DecidableEq T]

variable (l t) in
/-- `uxListRemove`. An index at the item goes back by one. -/
def remove : ItemList T := ⟨l.passed.erase t, l.ahead.erase t⟩

/-- `uxListRemove` takes the item out and keeps the order of the others. -/
theorem items_remove (hnd : l.items.Nodup) : (l.remove t).items = l.items.erase t := by
  have hdis : t ∈ l.passed.reverse → t ∉ l.ahead := fun hp ha =>
    (List.disjoint_of_nodup_append hnd) hp ha
  rw [items, items, remove]
  by_cases hp : t ∈ l.passed.reverse
  · have hrev : (l.passed.erase t).reverse = l.passed.reverse.erase t := by
      have hnd' : l.passed.reverse.Nodup := (List.nodup_append.mp hnd).1
      rw [(List.nodup_reverse.mp hnd').erase_eq_filter, hnd'.erase_eq_filter, List.filter_reverse]
    rw [List.erase_append_left _ hp, List.erase_of_not_mem (hdis hp), hrev]
  · have hp' : t ∉ l.passed := fun h => hp (List.mem_reverse.mpr h)
    rw [List.erase_append_right _ hp, List.erase_of_not_mem hp']

end ItemList

/-! ## All lists

An item tells in which list it is, and the lists tell it too. That the two agree is a field of the
structure, so that no list can be taken for having an item that does not know of it. -/

/-- The lists that share the items of one kind: `xGenericListItem` or `xEventListItem` of every
task. -/
structure ItemLists (L T : Type) : Type where
  list : L → ItemList T
  /-- `pvContainer` -/
  container : T → Option L
  /-- `xItemValue` -/
  value : T → BitVec 32
  nodup : ∀ l, (list l).items.Nodup
  mem : ∀ l t, t ∈ (list l).items ↔ container t = some l

namespace ItemLists

theorem nodup_empty {T : Type} : (ItemList.empty : ItemList T).items.Nodup := List.nodup_nil

theorem mem_empty {L T : Type} (l : L) (t : T) :
    t ∈ (ItemList.empty : ItemList T).items ↔ none = some l :=
  iff_of_false List.not_mem_nil (Option.some_ne_none l).symm

/-- No list has an item. -/
def empty (L T : Type) : ItemLists L T where
  list := fun _ => ItemList.empty
  container := fun _ => none
  value := fun _ => 0
  nodup := fun _ => nodup_empty
  mem := mem_empty

variable {L T : Type} (s : ItemLists L T) (l : L) (t : T)

theorem insert_perm : ((s.list l).insert t s.value).items.Perm (t :: (s.list l).items) := by
  rw [ItemList.items_insert]
  exact ItemList.sortIn_perm s.value _

variable [DecidableEq L]

/-- A list may be read through its index without any item changing its place. -/
theorem mem_walk {xs : ItemList T} (hsame : xs.items = (s.list l).items) (m : L) (u : T) :
    u ∈ (Function.update s.list l xs m).items ↔ s.container u = some m := by
  by_cases hm : m = l
  · subst hm
    rw [Function.update_self, hsame, s.mem]
  · rw [Function.update_of_ne hm, s.mem]

theorem nodup_walk {xs : ItemList T} (hsame : xs.items = (s.list l).items) (m : L) :
    (Function.update s.list l xs m).items.Nodup := by
  by_cases hm : m = l
  · subst hm
    rw [Function.update_self, hsame]
    exact s.nodup m
  · rw [Function.update_of_ne hm]
    exact s.nodup m

/-- A list with its index at another place -/
def walk (xs : ItemList T) (hsame : xs.items = (s.list l).items) : ItemLists L T where
  list := Function.update s.list l xs
  container := s.container
  value := s.value
  nodup := s.nodup_walk l hsame
  mem := s.mem_walk l hsame

/-- `listGET_OWNER_OF_NEXT_ENTRY` -/
def next : Option (T × ItemLists L T) :=
  match h : (s.list l).next with
  | none => none
  | some (t, xs) => some (t, s.walk l xs (ItemList.items_next h))

section Walk

variable {s l t}

/-- Walking replaces a list by one with the same items. -/
@[simp] theorem walk_list {xs : ItemList T} (hsame : xs.items = (s.list l).items) :
    (s.walk l xs hsame).list = Function.update s.list l xs := rfl

@[simp] theorem walk_container {xs : ItemList T} (hsame : xs.items = (s.list l).items) :
    (s.walk l xs hsame).container = s.container := rfl

@[simp] theorem walk_value {xs : ItemList T} (hsame : xs.items = (s.list l).items) :
    (s.walk l xs hsame).value = s.value := rfl

theorem next_eq_some {xs : ItemList T} (h : (s.list l).next = some (t, xs)) :
    s.next l = some (t, s.walk l xs (ItemList.items_next h)) := by
  unfold next
  split
  · rename_i hnone
    rw [h] at hnone
    cases hnone
  · rename_i u ys hu
    obtain ⟨rfl, rfl⟩ := Prod.mk.inj (Option.some.inj (h.symm.trans hu))
    rfl

/-- If `listGET_OWNER_OF_NEXT_ENTRY` gives a task, the index of that list moved, and nothing else.
-/
theorem next_inv {s' : ItemLists L T} (h : s.next l = some (t, s')) :
    ∃ xs, ∃ hnext : (s.list l).next = some (t, xs), s' = s.walk l xs
    (ItemList.items_next hnext) := by
  obtain ⟨r, hnext⟩ : ∃ r, (s.list l).next = r := ⟨_, rfl⟩
  cases r with
  | none =>
    unfold next at h
    split at h
    · cases h
    · rename_i hsome
      rw [hnext] at hsome
      cases hsome
  | some r =>
    rw [next_eq_some hnext] at h
    obtain ⟨rfl, rfl⟩ := Prod.mk.inj (Option.some.inj h)
    exact ⟨r.2, hnext, rfl⟩

end Walk

/-- An item that is in no list can be put into any of them. -/
theorem nodup_place {xs : ItemList T} (hfree : s.container t = none)
    (hperm : xs.items.Perm (t :: (s.list l).items))
    (m : L) : (Function.update s.list l xs m).items.Nodup := by
  by_cases hm : m = l
  · subst hm
    rw [Function.update_self, hperm.nodup_iff]
    refine List.nodup_cons.mpr ⟨fun hmem => ?_, s.nodup m⟩
    rw [s.mem, hfree] at hmem
    cases hmem
  · rw [Function.update_of_ne hm]
    exact s.nodup m

variable [DecidableEq T]

/-- Afterwards its container is the list it was put to. -/
theorem mem_place {xs : ItemList T} (hfree : s.container t = none)
    (hperm : xs.items.Perm (t :: (s.list l).items))
    (m : L) (u : T) : u ∈ (Function.update s.list l xs m).items ↔
      Function.update s.container t (some l) u = some m := by
  by_cases hm : m = l
  · subst hm
    rw [Function.update_self, hperm.mem_iff, List.mem_cons, s.mem]
    by_cases hu : u = t
    · simp [hu]
    · simp [hu]
  · rw [Function.update_of_ne hm, s.mem]
    by_cases hu : u = t
    · simp [hu, hfree, Ne.symm hm]
    · simp [hu]

/-- A list with a new item in it -/
def place (xs : ItemList T) (hfree : s.container t = none)
    (hperm : xs.items.Perm (t :: (s.list l).items)) :
    ItemLists L T where
  list := Function.update s.list l xs
  container := Function.update s.container t (some l)
  value := s.value
  nodup := s.nodup_place l t hfree hperm
  mem := s.mem_place l t hfree hperm

/-- `vListInsertEnd`. An item that is in a list already would take that list apart. -/
def insertEnd : Option (ItemLists L T) :=
  if h : s.container t = none
    then some (s.place l t ((s.list l).insertEnd t) h ItemList.items_insertEnd) else none

/-- `vListInsert` -/
def insert : Option (ItemLists L T) :=
  if h : s.container t = none
    then some (s.place l t ((s.list l).insert t s.value) h (s.insert_perm l t)) else none

theorem nodup_remove (m : L) : (Function.update s.list l ((s.list l).remove t) m).items.Nodup := by
  by_cases hm : m = l
  · subst hm
    rw [Function.update_self, ItemList.items_remove (s.nodup m)]
    exact (s.nodup m).erase t
  · rw [Function.update_of_ne hm]
    exact s.nodup m

theorem mem_remove (hin : s.container t = some l) (m : L) (u : T) :
    u ∈ (Function.update s.list l ((s.list l).remove t) m).items ↔
      Function.update s.container t none u = some m := by
  by_cases hm : m = l
  · subst hm
    rw [Function.update_self, ItemList.items_remove (s.nodup m), (s.nodup m).mem_erase_iff, s.mem]
    by_cases hu : u = t
    · simp [hu]
    · simp [hu]
  · rw [Function.update_of_ne hm, s.mem]
    by_cases hu : u = t
    · simp [hu, hin, Ne.symm hm]
    · simp [hu]

/-- A list without an item of it -/
def drop (hin : s.container t = some l) : ItemLists L T where
  list := Function.update s.list l ((s.list l).remove t)
  container := Function.update s.container t none
  value := s.value
  nodup := s.nodup_remove l t
  mem := s.mem_remove l t hin

/-- `uxListRemove`. The item has to be in a list. -/
def remove : Option (ItemLists L T) :=
  match h : s.container t with
  | none => none
  | some l => some (s.drop l t h)

/-- `listSET_LIST_ITEM_VALUE` -/
def setValue (v : BitVec 32) : ItemLists L T := { s with value := Function.update s.value t v }

variable {s l t}

@[simp] theorem place_list {xs : ItemList T} (hfree : s.container t = none)
    (hperm : xs.items.Perm (t :: (s.list l).items)) :
    (s.place l t xs hfree hperm).list = Function.update s.list l xs := rfl

@[simp] theorem place_container {xs : ItemList T} (hfree : s.container t = none)
    (hperm : xs.items.Perm (t :: (s.list l).items)) :
    (s.place l t xs hfree hperm).container = Function.update s.container t (some l) := rfl

@[simp] theorem place_value {xs : ItemList T} (hfree : s.container t = none)
    (hperm : xs.items.Perm (t :: (s.list l).items)) :
    (s.place l t xs hfree hperm).value = s.value := rfl

@[simp] theorem drop_list (hin : s.container t = some l) :
    (s.drop l t hin).list = Function.update s.list l ((s.list l).remove t) := rfl

@[simp] theorem drop_container (hin : s.container t = some l) :
    (s.drop l t hin).container = Function.update s.container t none := rfl

@[simp] theorem drop_value (hin : s.container t = some l) : (s.drop l t hin).value = s.value := rfl

/-! ### What the operations do

Where an operation has a result the lists are given, in terms of the lists before. -/

/-- A free item can be put to the end of a list. -/
theorem insertEnd_eq_some (hfree : s.container t = none) :
    s.insertEnd l t = some (s.place l t ((s.list l).insertEnd t) hfree ItemList.items_insertEnd) :=
  dif_pos hfree

/-- A free item can be sorted into a list. -/
theorem insert_eq_some (hfree : s.container t = none) :
    s.insert l t = some (s.place l t ((s.list l).insert t s.value) hfree (s.insert_perm l t)) :=
  dif_pos hfree

/-- An item that is in a list can be removed. -/
theorem remove_eq_some (hin : s.container t = some l) : s.remove t = some (s.drop l t hin) := by
  unfold remove
  split
  · rename_i hnone
    rw [hin] at hnone
    cases hnone
  · rename_i m hm
    obtain rfl := Option.some.inj (hin.symm.trans hm)
    rfl

/-! ### When they have a result

And the other way round: from a result it follows that the item was free, or was in the list, as the
operation needs it. -/

/-- `vListInsertEnd` is only right for an item that is in no list; what it does then. -/
theorem insertEnd_inv {s' : ItemLists L T} (h : s.insertEnd l t = some s') :
    ∃ hfree, s' = s.place l t ((s.list l).insertEnd t) hfree ItemList.items_insertEnd := by
  unfold insertEnd at h
  split_ifs at h with hfree
  exact ⟨hfree, (Option.some.inj h).symm⟩

theorem insert_inv {s' : ItemLists L T} (h : s.insert l t = some s') :
    ∃ hfree, s' = s.place l t ((s.list l).insert t s.value) hfree (s.insert_perm l t) := by
  unfold insert at h
  split_ifs at h with hfree
  exact ⟨hfree, (Option.some.inj h).symm⟩

/-- `uxListRemove` is only right for an item that is in a list, and removes it from that one. -/
theorem remove_inv {s' : ItemLists L T} (h : s.remove t = some s') :
    ∃ l hin, s' = s.drop l t hin := by
  obtain ⟨c, hin⟩ : ∃ c, s.container t = c := ⟨_, rfl⟩
  cases c with
  | none =>
    unfold remove at h
    split at h
    · cases h
    · rename_i l hl
      rw [hin] at hl
      cases hl
  | some l =>
    rw [remove_eq_some hin] at h
    exact ⟨l, hin, (Option.some.inj h).symm⟩

end ItemLists

end BitThunder
