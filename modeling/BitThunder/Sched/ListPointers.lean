import BitThunder.Sched.ItemLists
import BitThunder.Lib.Ring

/-!
# The pointers of the kernel lists

`kernel/FreeRTOS/Source/list.c`. The lists are rings through their end markers; an item knows its
list, a list its index and the number of its items. The walk of `vListInsert` ends at the marker,
whose value is the largest one, and an item with that value is put in front of the marker without a
walk.

* `ListMemory.Shows`: the memory holds these lists;
* `Shows.insertEnd`, `Shows.insert`, `Shows.remove`, `Shows.next`: one operation;
* `pointers_refine_lists`: every run.

The rings of `Lib.Rings` are instantiated with markers and items as cells. An operation writes to
the neighbours of one cell, so that the other rings have to be shown not to have it: a cell is in at
most one list, because an item knows its list.

The walk of `vListInsert` is a loop over the pointers and is given a number of rounds. One for each
item and one more is enough, since the marker has the largest value and no item is above it. An item
that has the largest value itself is the reason for the special case in the source: it would walk
past the marker.
-/

namespace BitThunder

variable {L T : Type}

/-- The fields of the lists and of the items. The cells are the end markers and the items. -/
structure ListMemory (L T : Type) : Type where
  /-- `pxNext` and `pxPrevious` -/
  links : Links (L ⊕ T)
  xItemValue : L ⊕ T → BitVec 32
  pvContainer : T → Option L
  pxIndex : L → L ⊕ T
  uxNumberOfItems : L → BitVec 32

namespace ListMemory

variable [DecidableEq L] [DecidableEq T] (m : ListMemory L T) (l : L) (t : T)

/-- `vListInitialise` -/
def vListInitialise : ListMemory L T :=
  { m with
    pxIndex := Function.update m.pxIndex l (.inl l)
    xItemValue := Function.update m.xItemValue (.inl l) portMaxDelay
    links := (m.links.setNext (.inl l) (.inl l)).setPrev (.inl l) (.inl l)
    uxNumberOfItems := Function.update m.uxNumberOfItems l 0 }

/-- `vListInsertEnd` -/
def vListInsertEnd : ListMemory L T :=
  let pxIndex := m.pxIndex l
  let links := m.links.setNext (.inr t) pxIndex
  let links := links.setPrev (.inr t) (links.prev pxIndex)
  let links := links.setNext (links.prev pxIndex) (.inr t)
  let links := links.setPrev pxIndex (.inr t)
  { m with
    links := links
    pvContainer := Function.update m.pvContainer t (some l)
    uxNumberOfItems := Function.update m.uxNumberOfItems l (m.uxNumberOfItems l + 1) }

/-- The walk of `vListInsert`, for at most so many rounds -/
def insertionPoint (value : BitVec 32) : ℕ → L ⊕ T → Option (L ⊕ T)
  | 0, _ => none
  | n + 1, pxIterator =>
    if m.xItemValue (m.links.next pxIterator) ≤ value
      then insertionPoint value n (m.links.next pxIterator)
    else some pxIterator

/-- `vListInsert`, with at most so many rounds of its walk -/
def vListInsert (rounds : ℕ) : Option (ListMemory L T) :=
  let value := m.xItemValue (.inr t)
  let pxIterator :=
    if value = portMaxDelay then some (m.links.prev (.inl l))
      else m.insertionPoint value rounds (.inl l)
  match pxIterator with
  | none => none
  | some pxIterator =>
    let links := m.links.setNext (.inr t) (m.links.next pxIterator)
    let links := links.setPrev (links.next (.inr t)) (.inr t)
    let links := links.setPrev (.inr t) pxIterator
    let links := links.setNext pxIterator (.inr t)
    some
      { m with
        links := links
        pvContainer := Function.update m.pvContainer t (some l)
        uxNumberOfItems := Function.update m.uxNumberOfItems l (m.uxNumberOfItems l + 1) }

/-- `uxListRemove`. There is no result if the item is in no list. -/
def uxListRemove : Option (ListMemory L T) :=
  match m.pvContainer t with
  | none => none
  | some pxList =>
    let links := m.links.setPrev (m.links.next (.inr t)) (m.links.prev (.inr t))
    let links := links.setNext (links.prev (.inr t)) (links.next (.inr t))
    some
      { m with
        links := links
        pxIndex :=
          if m.pxIndex pxList = .inr t then Function.update m.pxIndex pxList (links.prev (.inr t))
            else m.pxIndex
        pvContainer := Function.update m.pvContainer t none
        uxNumberOfItems := Function.update m.uxNumberOfItems pxList (m.uxNumberOfItems pxList - 1) }

/-- `listGET_OWNER_OF_NEXT_ENTRY`. The end marker has no owner. -/
def nextEntry : Option (T × ListMemory L T) :=
  let index := m.links.next (m.pxIndex l)
  let index := if index = .inl l then m.links.next index else index
  match index with
  | .inl _ => none
  | .inr t => some (t, { m with pxIndex := Function.update m.pxIndex l index })

/-- `listSET_LIST_ITEM_VALUE` -/
def setItemValue (v : BitVec 32) : ListMemory L T :=
  { m with xItemValue := Function.update m.xItemValue (.inr t) v }

/-- The memory holds these lists. -/
structure Shows (m : ListMemory L T) (s : ItemLists L T) : Prop where
  /-- the items of a list are a ring through its marker -/
  ring : ∀ l, Ring m.links (.inl l) ((s.list l).items.map .inr)
  /-- the index is at the last item that it has gone past, or at the marker -/
  index : ∀ l, m.pxIndex l = ((s.list l).passed.map .inr).headD (.inl l)
  /-- an item knows its list -/
  container : m.pvContainer = s.container
  /-- and has its value -/
  value : ∀ t, m.xItemValue (.inr t) = s.value t
  /-- the marker has the largest one -/
  marker : ∀ l, m.xItemValue (.inl l) = portMaxDelay
  /-- and a list knows its length -/
  count : ∀ l, m.uxNumberOfItems l = BitVec.ofNat 32 (s.list l).items.length

end ListMemory

/-! ## One operation

Each of them is a few writes around one cell. The ring of that list is edited by the library's
lemmas, and the other rings are not touched, since no cell is in two. -/

namespace Links

variable {α : Type} [DecidableEq α] {k : Links α} {new i e : α}

/-- The order of the writes in `vListInsertEnd` does not matter. -/
theorem insertAfter_prev (hnew : new ≠ i) (hback : k.next (k.prev i) = i) :
    (((k.setNext new i).setPrev new (k.prev i)).setNext (k.prev i) new).setPrev i new =
      k.insertAfter new (k.prev i) := by
  simp only [insertAfter, link, setNext, setPrev, hback, Links.mk.injEq, true_and]
  exact Function.update_comm hnew _ _ _

end Links

namespace ListMemory.Shows

variable {m : ListMemory L T} {s : ItemLists L T} {l : L} {t : T}

/-- A cell of a list is its marker or an item that knows the list. -/
theorem mem_cells {c : L ⊕ T} : c ∈ Sum.inl l :: (s.list l).items.map Sum.inr ↔
    c = .inl l ∨ ∃ u, c = .inr u ∧ s.container u = some l := by
  simp only [List.mem_cons, List.mem_map, s.mem]
  exact or_congr_right ⟨fun ⟨u, hu, hc⟩ => ⟨u, hc.symm, hu⟩, fun ⟨u, hc, hu⟩ => ⟨u, hu, hc.symm⟩⟩

/-- No cell is in two lists. -/
theorem cells_disjoint {l' : L} (hne : l' ≠ l) : ∀ c ∈ Sum.inl l :: (s.list l).items.map Sum.inr,
    c ∉ Sum.inl l' :: (s.list l').items.map (Sum.inr : T → L ⊕ T) := by
  intro c hc hc'
  rw [mem_cells] at hc hc'
  rcases hc with rfl | ⟨u, rfl, hu⟩
  · rcases hc' with he | ⟨u, he, -⟩
    · exact hne (Sum.inl.inj he).symm
    · cases he
  · rcases hc' with he | ⟨v, he, hv⟩
    · cases he
    · obtain rfl := Sum.inr.inj he
      exact hne (Option.some.inj (hv.symm.trans hu))

/-- An item that is in no list is not a cell of one. -/
theorem free_notMem (hfree : s.container t = none) (l' : L) :
    (Sum.inr t : L ⊕ T) ∉ Sum.inl l' :: (s.list l').items.map Sum.inr := by
  rw [mem_cells]
  rintro (he | ⟨u, he, hu⟩)
  · cases he
  · obtain rfl := Sum.inr.inj he
    rw [hfree] at hu
    cases hu

/-- The marker has the largest value. -/
theorem le_portMaxDelay (value : BitVec 32) : value ≤ portMaxDelay := by
  have hlt := value.isLt
  change value.toNat ≤ 0xffffffff
  omega

theorem eq_portMaxDelay {value : BitVec 32} (hle : portMaxDelay ≤ value) :
    value = portMaxDelay := by
  have hlt := value.isLt
  have hmax : 0xffffffff ≤ value.toNat := hle
  apply BitVec.eq_of_toNat_eq
  change value.toNat = 0xffffffff
  omega

/-- The walk stops behind the items that are not above the value. -/
theorem insertionPoint_eq (h : m.Shows s) {value : BitVec 32} (hvalue : value ≠ portMaxDelay)
    {as bs : List T} (hitems : (s.list l).items = as ++ bs) (has : ∀ x ∈ as, s.value x ≤ value)
    (hbs : ∀ x ∈ bs.head?, ¬s.value x ≤ value) {rounds : ℕ} (hrounds : as.length < rounds) :
    m.insertionPoint value rounds (.inl l) = some ((as.map .inr).getLastD (.inl l)) := by
  have hring := h.ring l
  rw [hitems, List.map_append] at hring
  -- the part of the ring that is still to be walked
  have hwalk : ∀ ys xs, xs ++ ys = as → ∀ n, ys.length < n →
      m.insertionPoint value n ((xs.map .inr).getLastD (.inl l)) =
      some ((as.map .inr).getLastD (.inl l)) := by
    intro ys
    induction ys with
    | nil =>
      rintro xs rfl n hn
      rw [List.append_nil] at hring ⊢
      obtain ⟨n, rfl⟩ := Nat.exists_eq_succ_of_ne_zero (Nat.ne_of_gt hn)
      have hstop : ¬m.xItemValue (m.links.next ((xs.map Sum.inr).getLastD (.inl l))) ≤ value := by
        rw [hring.next_at]
        cases bs with
        | nil =>
          rw [List.map_nil, List.headD_nil, h.marker]
          exact fun hle => hvalue (eq_portMaxDelay hle)
        | cons y ys =>
          rw [List.map_cons, List.headD_cons, h.value]
          exact hbs y rfl
      rw [insertionPoint, if_neg hstop]
    | cons y ys ih =>
      intro xs hxs n hn
      obtain ⟨n, rfl⟩ := Nat.exists_eq_succ_of_ne_zero (Nat.ne_of_gt (Nat.zero_lt_of_lt hn))
      have hnext : m.links.next ((xs.map Sum.inr).getLastD (.inl l)) = .inr y := by
        rw [← hxs, List.map_append, List.append_assoc] at hring
        rw [hring.next_at]
        rfl
      have hle : m.xItemValue (.inr y) ≤ value := by
        rw [h.value]
        exact has y (hxs ▸ List.mem_append_right _ List.mem_cons_self)
      have hstep :=
        ih (xs ++ [y]) (by rw [← hxs, List.append_assoc]; rfl) n (Nat.lt_of_succ_lt_succ hn)
      rw [List.map_append, List.map_singleton, List.getLastD_concat] at hstep
      rw [insertionPoint, hnext, if_pos hle, hstep]
  exact hwalk as [] rfl rounds hrounds

variable [DecidableEq L] [DecidableEq T]

/-- A new item behind any cell of a list -/
theorem insertAt (h : m.Shows s) (hfree : s.container t = none) {as bs : List T}
    (hitems : (s.list l).items = as ++ bs) {xs : ItemList T} (hxs : xs.items = as ++ t :: bs)
    (hpassed : m.pxIndex l = (xs.passed.map .inr).headD (.inl l))
    (hperm : xs.items.Perm (t :: (s.list l).items)) :
    ({ m with
        links := m.links.insertAfter (.inr t) ((as.map .inr).getLastD (.inl l))
        pvContainer := Function.update m.pvContainer t (some l)
        uxNumberOfItems := Function.update m.uxNumberOfItems l (m.uxNumberOfItems l + 1) } :
          ListMemory L T).Shows
      (s.place l t xs hfree hperm) := by
  have hring := h.ring l
  rw [hitems, List.map_append] at hring
  have hnew := free_notMem hfree l
  rw [hitems, List.map_append] at hnew
  have hat : (as.map Sum.inr).getLastD (Sum.inl l) ∈ Sum.inl l ::
      (as.map Sum.inr ++ bs.map Sum.inr : List (L ⊕ T)) := by
    rw [← List.cons_append]
    exact List.mem_append_left _ List.getLastD_mem_cons
  refine ⟨fun l' => ?_, fun l' => ?_, ?_, h.value, h.marker, fun l' => ?_⟩
  · rw [ItemLists.place_list]
    by_cases hl : l' = l
    · subst hl
      rw [Function.update_self, hxs, List.map_append, List.map_cons]
      exact hring.insertAfter hnew
    · rw [Function.update_of_ne hl]
      refine hring.insertAfter_frame hat (h.ring l') ?_ (free_notMem hfree l')
      rw [← List.map_append, ← hitems]
      exact cells_disjoint hl
  · rw [ItemLists.place_list]
    by_cases hl : l' = l
    · subst hl
      rw [Function.update_self]
      exact hpassed
    · rw [Function.update_of_ne hl]
      exact h.index l'
  · rw [ItemLists.place_container, h.container]
  · change Function.update m.uxNumberOfItems l _ l' = _
    rw [ItemLists.place_list]
    by_cases hl : l' = l
    · subst hl
      rw [Function.update_self, Function.update_self, hperm.length_eq, List.length_cons, h.count,
        BitVec.ofNat_add]
      rfl
    · rw [Function.update_of_ne hl, Function.update_of_ne hl]
      exact h.count l'

/-- `vListInsertEnd` -/
theorem insertEnd (h : m.Shows s) (hfree : s.container t = none) :
    ∃ s', s.insertEnd l t = some s' ∧ (m.vListInsertEnd l t).Shows s' := by
  -- the items on both sides of the new one
  obtain ⟨as, bs, hitems, hnew, hidx, hpassed⟩ : ∃ as bs, (s.list l).items = as ++ bs ∧
      ((s.list l).insertEnd t).items = as ++ t :: bs ∧ m.pxIndex l = (bs.map .inr).headD (.inl l) ∧
      m.pxIndex l = (((s.list l).insertEnd t).passed.map .inr).headD (.inl l) := by
    have hidx := h.index l
    rcases hl : s.list l with ⟨_ | ⟨i, rest⟩, ahead⟩
    · rw [hl] at hidx
      refine ⟨ahead, [], ?_, ?_, hidx, hidx⟩
      · simp [ItemList.items]
      · simp [ItemList.items, ItemList.insertEnd]
    · rw [hl] at hidx
      refine ⟨rest.reverse, i :: ahead, ?_, ?_, hidx, hidx⟩
      · simp [ItemList.items]
      · simp [ItemList.items, ItemList.insertEnd]
  have hring := h.ring l
  rw [hitems, List.map_append] at hring
  have hprev : m.links.prev (m.pxIndex l) = (as.map .inr).getLastD (.inl l) := by
    rw [hidx]
    exact hring.prev_at
  have hback : m.links.next (m.links.prev (m.pxIndex l)) = m.pxIndex l := by
    rw [hprev, hidx]
    exact hring.next_at
  have hne : (Sum.inr t : L ⊕ T) ≠ m.pxIndex l := by
    intro he
    refine free_notMem hfree l ?_
    rw [hitems, he, hidx, List.map_append]
    cases bs <;> simp
  have hnep : (Sum.inr t : L ⊕ T) ≠ m.links.prev (m.pxIndex l) := by
    intro he
    refine free_notMem hfree l ?_
    rw [hitems, he, hprev, List.map_append, ← List.cons_append]
    exact List.mem_append_left _ List.getLastD_mem_cons
  refine ⟨_, ItemLists.insertEnd_eq_some hfree, ?_⟩
  have hlinks : (m.vListInsertEnd l t).links = m.links.insertAfter (.inr t)
      ((as.map .inr).getLastD (.inl l)) := by
    rw [← hprev, ← Links.insertAfter_prev hne hback]
    -- the back pointer of the index is read again after that of the new item is written
    have hread : Function.update m.links.prev (Sum.inr t) (m.links.prev (m.pxIndex l))
        (m.pxIndex l) =
        m.links.prev (m.pxIndex l) := Function.update_of_ne hne.symm _ _
    simp only [vListInsertEnd, Links.setNext, Links.setPrev, hread]
  have hshows := h.insertAt hfree hitems hnew hpassed ItemList.items_insertEnd
  rw [← hlinks] at hshows
  exact hshows

/-- `vListInsert`, with a round for each item and one more -/
theorem insert (h : m.Shows s) (hfree : s.container t = none) {rounds : ℕ}
    (hrounds : (s.list l).items.length < rounds) :
    ∃ s' m', s.insert l t = some s' ∧ m.vListInsert l t rounds = some m' ∧ m'.Shows s' := by
  obtain ⟨as, has⟩ : ∃ as, as = (s.list l).items.takeWhile fun x => s.value x ≤ s.value t :=
    ⟨_, rfl⟩
  obtain ⟨bs, hbs⟩ : ∃ bs, bs = (s.list l).items.dropWhile fun x => s.value x ≤ s.value t :=
    ⟨_, rfl⟩
  have hitems : (s.list l).items = as ++ bs := by
    rw [has, hbs, List.takeWhile_append_dropWhile]
  have hnew : ((s.list l).insert t s.value).items = as ++ t :: bs := by
    rw [ItemList.items_insert, ItemList.sortIn, ← has, ← hbs]
  have hbelow : ∀ x ∈ as, s.value x ≤ s.value t := by
    intro x hx
    rw [has] at hx
    exact of_decide_eq_true (List.all_eq_true.mp List.all_takeWhile x hx)
  have habove : ∀ x ∈ bs.head?, ¬s.value x ≤ s.value t := by
    intro x hx
    rw [hbs] at hx
    have hnot := List.head?_dropWhile_not (fun x => decide (s.value x ≤ s.value t)) (s.list l).items
    rw [Option.mem_def.mp hx] at hnot
    simpa using hnot
  have hring := h.ring l
  rw [hitems, List.map_append] at hring
  -- an item with the value of the marker goes behind all others
  have hpoint : (if m.xItemValue (.inr t) = portMaxDelay then some (m.links.prev (.inl l))
      else m.insertionPoint (m.xItemValue (.inr t)) rounds (.inl l)) =
        some ((as.map .inr).getLastD (.inl l)) := by
    rw [h.value]
    split_ifs with hmax
    · have hnone : bs = [] := by
        cases bs with
        | nil => rfl
        | cons x bs =>
          refine absurd ?_ (habove x rfl)
          rw [hmax]
          exact le_portMaxDelay (s.value x)
      rw [hnone] at hring
      exact congrArg some hring.prev_at
    · refine h.insertionPoint_eq hmax hitems hbelow habove (lt_of_le_of_lt ?_ hrounds)
      rw [hitems, List.length_append]
      exact Nat.le_add_right _ _
  have hpassed : m.pxIndex l = (((s.list l).insert t s.value).passed.map .inr).headD (.inl l) := by
    rw [h.index, ItemList.insert]
    split_ifs with hall
    · rfl
    · -- the last item that the index went past stays where it is
      obtain ⟨x, rest, hrest⟩ : ∃ x rest, (s.list l).passed.reverse.dropWhile
          (fun x => s.value x ≤ s.value t) =
          x :: rest := by
        refine List.exists_cons_of_ne_nil fun hnil => hall (List.all_eq_true.mpr fun x hx => ?_)
        exact List.dropWhile_eq_nil_iff.mp hnil x (List.mem_reverse.mpr hx)
      obtain ⟨y, ys, hy⟩ :=
        List.exists_cons_of_ne_nil (List.reverse_ne_nil_iff.mpr (List.cons_ne_nil x rest))
      have hold : (s.list l).passed = y :: ys ++
          ((s.list l).passed.reverse.takeWhile fun x => s.value x ≤ s.value t).reverse := by
        rw [← hy, ← List.reverse_append, ← hrest, List.takeWhile_append_dropWhile,
          List.reverse_reverse]
      have hsorted : (ItemList.sortIn t s.value (s.list l).passed.reverse).reverse = y :: ys ++ t ::
          ((s.list l).passed.reverse.takeWhile fun x => s.value x ≤ s.value t).reverse := by
        rw [ItemList.sortIn, hrest, List.reverse_append, List.reverse_cons, hy, List.append_assoc]
        rfl
      rw [hsorted, hold]
      rfl
  have hshows := h.insertAt hfree hitems hnew hpassed (s.insert_perm l t)
  refine ⟨_, _, ItemLists.insert_eq_some hfree, ?_, hshows⟩
  rw [vListInsert, hpoint]
  simp only [Links.setNext, Links.setPrev, Function.update_self, Links.insertAfter, Links.link]

/-- An index at the item that is removed goes to the one before. -/
theorem index_remove (h : m.Shows s) (l : L) (t : T) (hself : m.links.next (.inr t) ≠ .inr t) :
    (if m.pxIndex l = .inr t then Function.update m.pxIndex l
        (((m.links.setPrev (m.links.next (.inr t)) (m.links.prev (.inr t))).setNext
          ((m.links.setPrev (m.links.next (.inr t)) (m.links.prev (.inr t))).prev (.inr t))
          ((m.links.setPrev (m.links.next (.inr t)) (m.links.prev (.inr t))).next (.inr t))).prev
          (.inr t))
      else m.pxIndex) l = ((((s.list l).remove t).passed.map .inr).headD (.inl l) : L ⊕ T) := by
  have hidx := h.index l
  have hring := h.ring l
  rcases hl : s.list l with ⟨_ | ⟨i, rest⟩, ahead⟩
  · rw [hl] at hidx
    change m.pxIndex l = .inl l at hidx
    rw [hidx, if_neg Sum.inl_ne_inr]
    exact hidx
  · rw [hl] at hidx
    change m.pxIndex l = .inr i at hidx
    by_cases hi : i = t
    · subst hi
      rw [hl, ItemList.items, List.reverse_cons, List.append_assoc, List.singleton_append,
        List.map_append, List.map_cons] at hring
      have hprev := hring.prev_mem
      rw [if_pos hidx, Function.update_self]
      change Function.update m.links.prev _ _ (Sum.inr i) = _
      rw [Function.update_of_ne hself.symm, hprev, ItemList.remove, List.erase_cons_head]
      cases rest <;> simp
    · have hne : m.pxIndex l ≠ .inr t := by
        rw [hidx]
        exact fun he => hi (Sum.inr.inj he)
      rw [if_neg hne, hidx, ItemList.remove, List.erase_cons_tail (by simpa using hi)]
      rfl

/-- `uxListRemove` -/
theorem remove (h : m.Shows s) (hin : s.container t = some l) :
    ∃ s' m', s.remove t = some s' ∧ m.uxListRemove t = some m' ∧ m'.Shows s' := by
  obtain ⟨as, bs, hitems⟩ := List.append_of_mem ((s.mem l t).mpr hin)
  have hrest : ((s.list l).remove t).items = as ++ bs := by
    have hnd := s.nodup l
    rw [ItemList.items_remove hnd, hitems]
    rw [hitems] at hnd
    have hout : t ∉ as := fun hmem => (List.nodup_append.mp hnd).2.2 t hmem t List.mem_cons_self rfl
    rw [List.erase_append_right _ hout, List.erase_cons_head]
  have hring := h.ring l
  rw [hitems, List.map_append, List.map_cons] at hring
  have hcell : (Sum.inr t : L ⊕ T) ∈ Sum.inl l ::
      (as.map Sum.inr ++ Sum.inr t :: bs.map Sum.inr) := by simp
  have hself : m.links.next (.inr t) ≠ .inr t := hring.next_ne_self (by simp)
  have hlinks : ((m.links.setPrev (m.links.next (.inr t)) (m.links.prev (.inr t))).setNext
      ((m.links.setPrev (m.links.next (.inr t)) (m.links.prev (.inr t))).prev (.inr t))
      ((m.links.setPrev (m.links.next (.inr t)) (m.links.prev (.inr t))).next (.inr t))) =
        m.links.unlink (.inr t) := by
    simp only [Links.unlink, Links.setNext, Links.setPrev, Function.update_of_ne hself.symm]
  have hprev : m.links.prev (.inr t) = (as.map .inr).getLastD (.inl l) := hring.prev_mem
  have hcontainer : m.pvContainer t = some l := by
    rw [h.container, hin]
  refine ⟨_, _, ItemLists.remove_eq_some hin, by rw [uxListRemove, hcontainer], ?_⟩
  refine ⟨fun l' => ?_, fun l' => ?_, ?_, h.value, h.marker, fun l' => ?_⟩
  · rw [ItemLists.drop_list, hlinks]
    by_cases hl : l' = l
    · subst hl
      rw [Function.update_self, hrest, List.map_append]
      exact hring.unlink
    · rw [Function.update_of_ne hl]
      refine hring.unlink_frame hcell (h.ring l') ?_
      have hdis := cells_disjoint (s := s) hl
      rwa [hitems, List.map_append, List.map_cons] at hdis
  · rw [ItemLists.drop_list]
    by_cases hl : l' = l
    · subst hl
      rw [Function.update_self]
      exact h.index_remove l' t hself
    · rw [Function.update_of_ne hl, ← h.index l']
      split_ifs
      · exact Function.update_of_ne hl _ _
      · rfl
  · rw [ItemLists.drop_container, h.container]
  · change Function.update m.uxNumberOfItems l _ l' = _
    rw [ItemLists.drop_list]
    by_cases hl : l' = l
    · subst hl
      rw [Function.update_self, Function.update_self, hrest, h.count, hitems, List.length_append,
        List.length_append, List.length_cons, ← Nat.add_assoc, BitVec.ofNat_add]
      exact BitVec.add_sub_cancel _ _
    · rw [Function.update_of_ne hl, Function.update_of_ne hl]
      exact h.count l'

/-- `listGET_OWNER_OF_NEXT_ENTRY` -/
theorem next (h : m.Shows s) (hne : (s.list l).items ≠ []) :
    ∃ t s' m', s.next l = some (t, s') ∧ m.nextEntry l = some (t, m') ∧ m'.Shows s' := by
  -- the item behind the index, or the first one if the marker is next
  obtain ⟨t, xs, hnext, hat, hpassed⟩ : ∃ t xs, (s.list l).next = some (t, xs) ∧
      (if m.links.next (m.pxIndex l) = .inl l then m.links.next (m.links.next (m.pxIndex l))
        else m.links.next (m.pxIndex l)) = .inr t ∧ (.inr t : L ⊕ T) =
          (xs.passed.map .inr).headD (.inl l) := by
    have hring := h.ring l
    have hidx := h.index l
    rcases hl : s.list l with ⟨passed, ahead⟩
    rw [hl] at hring hidx hne
    have hlast : (passed.reverse.map Sum.inr).getLastD (.inl l : L ⊕ T) =
        (passed.map Sum.inr).headD (.inl l) := by
      cases passed <;> simp
    rw [ItemList.items, List.map_append] at hring
    have hnextof : m.links.next (m.pxIndex l) = (ahead.map .inr).headD (.inl l) := by
      rw [hidx, ← hlast]
      exact hring.next_at
    cases ahead with
    | cons x rest =>
      refine ⟨x, ⟨x :: passed, rest⟩, rfl, ?_, rfl⟩
      rw [hnextof, List.map_cons, List.headD_cons, if_neg Sum.inr_ne_inl]
    | nil =>
      rw [ItemList.items, List.append_nil] at hne
      obtain ⟨x, rest, hrev⟩ := List.exists_cons_of_ne_nil hne
      refine ⟨x, ⟨[x], rest⟩, ?_, ?_, rfl⟩
      · simp only [ItemList.next, hrev]
      · rw [hnextof, List.map_nil, List.headD_nil, if_pos rfl]
        rw [List.map_nil, List.append_nil, hrev] at hring
        exact hring.fwd.first
  refine ⟨t, _, { m with pxIndex := Function.update m.pxIndex l (.inr t) },
    ItemLists.next_eq_some hnext, ?_, ?_⟩
  · simp only [nextEntry, hat]
  · refine ⟨fun l' => ?_, fun l' => ?_, h.container, h.value, h.marker, fun l' => ?_⟩
    · rw [ItemLists.walk_list]
      by_cases hl : l' = l
      · subst hl
        rw [Function.update_self, ItemList.items_next hnext]
        exact h.ring l'
      · rw [Function.update_of_ne hl]
        exact h.ring l'
    · change Function.update m.pxIndex l _ l' = _
      rw [ItemLists.walk_list]
      by_cases hl : l' = l
      · subst hl
        rw [Function.update_self, Function.update_self]
        exact hpassed
      · rw [Function.update_of_ne hl, Function.update_of_ne hl]
        exact h.index l'
    · rw [ItemLists.walk_list]
      by_cases hl : l' = l
      · subst hl
        rw [Function.update_self, ItemList.items_next hnext]
        exact h.count l'
      · rw [Function.update_of_ne hl]
        exact h.count l'

/-- `listSET_LIST_ITEM_VALUE` -/
theorem setValue (h : m.Shows s) (v : BitVec 32) : (m.setItemValue t v).Shows (s.setValue t v) := by
  refine ⟨h.ring, h.index, h.container, fun u => ?_, fun l => ?_, h.count⟩
  · change Function.update m.xItemValue (.inr t) v (.inr u) = Function.update s.value t v u
    by_cases hu : u = t
    · rw [hu, Function.update_self, Function.update_self]
    · rw [Function.update_of_ne hu, Function.update_of_ne fun he => hu (Sum.inr.inj he)]
      exact h.value u
  · change Function.update m.xItemValue (.inr t) v (.inl l) = _
    rw [Function.update_of_ne Sum.inl_ne_inr]
    exact h.marker l

end ListMemory.Shows

/-! ## Runs

The walk of an insertion has a number of rounds, and so the lists must not get longer than that. In
a run this is bounded by the number of its calls. -/

/-- A call of one of the operations -/
inductive ListCall (L T : Type) : Type where
  | insertEnd (l : L) (t : T)
  | insert (l : L) (t : T)
  | remove (t : T)
  | next (l : L)
  | setValue (t : T) (v : BitVec 32)

section Runs

variable [DecidableEq L] [DecidableEq T]

/-- One call, with the owner that it returns -/
def ItemLists.call (s : ItemLists L T) : ListCall L T → Option (Option T × ItemLists L T)
  | .insertEnd l t => (s.insertEnd l t).map fun s' => (none, s')
  | .insert l t => (s.insert l t).map fun s' => (none, s')
  | .remove t => (s.remove t).map fun s' => (none, s')
  | .next l => (s.next l).map fun r => (some r.1, r.2)
  | .setValue t v => some (none, s.setValue t v)

/-- Calls one after the other, with all that they return -/
def ItemLists.calls : ItemLists L T → List (ListCall L T) → Option (List (Option T) × ItemLists L T)
  | s, [] => some ([], s)
  | s, c :: cs => do
    let (r, s) ← s.call c
    let (rs, s) ← s.calls cs
    return (r :: rs, s)

/-- One call on the pointers -/
def ListMemory.call (rounds : ℕ) (m : ListMemory L T) :
    ListCall L T → Option (Option T × ListMemory L T)
  | .insertEnd l t => some (none, m.vListInsertEnd l t)
  | .insert l t => (m.vListInsert l t rounds).map fun m' => (none, m')
  | .remove t => (m.uxListRemove t).map fun m' => (none, m')
  | .next l => (m.nextEntry l).map fun r => (some r.1, r.2)
  | .setValue t v => some (none, m.setItemValue t v)

/-- Calls one after the other on the pointers -/
def ListMemory.calls (rounds : ℕ) : ListMemory L T → List (ListCall L T) →
    Option (List (Option T) × ListMemory L T)
  | m, [] => some ([], m)
  | m, c :: cs => do
    let (r, m) ← m.call rounds c
    let (rs, m) ← m.calls rounds cs
    return (r :: rs, m)

/-- No item is in a list. -/
def ItemLists.init (value : T → BitVec 32) : ItemLists L T where
  list := fun _ => .empty
  container := fun _ => none
  value := value
  nodup := fun _ => List.nodup_nil
  mem := fun _ _ => iff_of_false List.not_mem_nil (Option.some_ne_none _).symm

variable {m : ListMemory L T} {s s' : ItemLists L T} {c : ListCall L T} {r : Option T}

/-- No call makes a list longer by more than one item. -/
theorem ItemLists.call_length (h : s.call c = some (r, s')) (l : L) :
    (s'.list l).items.length ≤ (s.list l).items.length + 1 := by
  have hupdate : ∀ {l' : L} {xs : ItemList T}, xs.items.length ≤ (s.list l').items.length + 1 →
      (Function.update s.list l' xs l).items.length ≤ (s.list l).items.length + 1 := by
    intro l' xs hxs
    by_cases hl : l = l'
    · subst hl
      rwa [Function.update_self]
    · rw [Function.update_of_ne hl]
      exact Nat.le_succ _
  cases c with
  | insertEnd l' t =>
    obtain ⟨s₁, hs, he⟩ := Option.map_eq_some_iff.mp h
    obtain ⟨-, rfl⟩ := Prod.mk.inj he
    obtain ⟨hfree, rfl⟩ := insertEnd_inv hs
    exact hupdate ItemList.items_insertEnd.length_eq.le
  | insert l' t =>
    obtain ⟨s₁, hs, he⟩ := Option.map_eq_some_iff.mp h
    obtain ⟨-, rfl⟩ := Prod.mk.inj he
    obtain ⟨hfree, rfl⟩ := insert_inv hs
    exact hupdate (s.insert_perm l' t).length_eq.le
  | remove t =>
    obtain ⟨s₁, hs, he⟩ := Option.map_eq_some_iff.mp h
    obtain ⟨-, rfl⟩ := Prod.mk.inj he
    obtain ⟨l', hin, rfl⟩ := remove_inv hs
    refine hupdate ?_
    rw [ItemList.items_remove (s.nodup l')]
    exact List.length_erase_le.trans (Nat.le_succ _)
  | next l' =>
    obtain ⟨⟨t, s₁⟩, hs, he⟩ := Option.map_eq_some_iff.mp h
    obtain ⟨-, rfl⟩ := Prod.mk.inj he
    obtain ⟨xs, hnext, rfl⟩ := next_inv hs
    refine hupdate ?_
    rw [ItemList.items_next hnext]
    exact Nat.le_succ _
  | setValue t v =>
    obtain ⟨-, rfl⟩ := Prod.mk.inj (Option.some.inj h)
    exact Nat.le_succ _

/-- One call on the pointers does what the lists say. -/
theorem ListMemory.Shows.call (h : m.Shows s) {rounds : ℕ}
    (hrounds : ∀ l, (s.list l).items.length < rounds)
    (hc : s.call c = some (r, s')) : ∃ m', m.call rounds c = some (r, m') ∧ m'.Shows s' := by
  cases c with
  | insertEnd l t =>
    obtain ⟨s₁, hs, he⟩ := Option.map_eq_some_iff.mp hc
    obtain ⟨rfl, rfl⟩ := Prod.mk.inj he
    obtain ⟨hfree, -⟩ := ItemLists.insertEnd_inv hs
    obtain ⟨s₂, hs₂, hshows⟩ := h.insertEnd (l := l) hfree
    obtain rfl := Option.some.inj (hs₂.symm.trans hs)
    exact ⟨_, rfl, hshows⟩
  | insert l t =>
    obtain ⟨s₁, hs, he⟩ := Option.map_eq_some_iff.mp hc
    obtain ⟨rfl, rfl⟩ := Prod.mk.inj he
    obtain ⟨hfree, -⟩ := ItemLists.insert_inv hs
    obtain ⟨s₂, m', hs₂, hm, hshows⟩ := h.insert hfree (hrounds l)
    obtain rfl := Option.some.inj (hs₂.symm.trans hs)
    exact ⟨m', by rw [ListMemory.call, hm]; rfl, hshows⟩
  | remove t =>
    obtain ⟨s₁, hs, he⟩ := Option.map_eq_some_iff.mp hc
    obtain ⟨rfl, rfl⟩ := Prod.mk.inj he
    obtain ⟨l, hin, -⟩ := ItemLists.remove_inv hs
    obtain ⟨s₂, m', hs₂, hm, hshows⟩ := h.remove hin
    obtain rfl := Option.some.inj (hs₂.symm.trans hs)
    exact ⟨m', by rw [ListMemory.call, hm]; rfl, hshows⟩
  | next l =>
    obtain ⟨⟨t, s₁⟩, hs, he⟩ := Option.map_eq_some_iff.mp hc
    obtain ⟨rfl, rfl⟩ := Prod.mk.inj he
    obtain ⟨xs, hnext, -⟩ := ItemLists.next_inv hs
    have hne : (s.list l).items ≠ [] := by
      intro hnil
      obtain ⟨hpassed, hahead⟩ := List.append_eq_nil_iff.mp hnil
      rw [ItemList.next, hahead] at hnext
      simp only [hpassed] at hnext
      cases hnext
    obtain ⟨t₂, s₂, m', hs₂, hm, hshows⟩ := h.next hne
    obtain ⟨rfl, rfl⟩ := Prod.mk.inj (Option.some.inj (hs₂.symm.trans hs))
    exact ⟨m', by rw [ListMemory.call, hm]; rfl, hshows⟩
  | setValue t v =>
    obtain ⟨rfl, rfl⟩ := Prod.mk.inj (Option.some.inj hc)
    exact ⟨_, rfl, h.setValue v⟩

/-- Calls on the pointers do what the lists say, as long as no list gets longer than the walk may
be. -/
theorem ListMemory.Shows.calls {cs : List (ListCall L T)} {rs : List (Option T)} (h : m.Shows s)
    {rounds : ℕ} (hrounds : ∀ l, (s.list l).items.length + cs.length ≤ rounds)
    (hcs : s.calls cs = some (rs, s')) :
    ∃ m', m.calls rounds cs = some (rs, m') ∧ m'.Shows s' := by
  induction cs generalizing m s rs with
  | nil =>
    obtain ⟨rfl, rfl⟩ := Prod.mk.inj (Option.some.inj hcs)
    exact ⟨m, rfl, h⟩
  | cons c cs ih =>
    obtain ⟨⟨r, s₁⟩, hfirst, hrest⟩ := Option.bind_eq_some_iff.mp hcs
    obtain ⟨⟨rs', s₂⟩, hothers, hret⟩ := Option.bind_eq_some_iff.mp hrest
    obtain ⟨rfl, rfl⟩ := Prod.mk.inj (Option.some.inj hret)
    obtain ⟨m₁, hm₁, hshows⟩ :=
      h.call (fun l => Nat.lt_of_lt_of_le (Nat.lt_add_of_pos_right Nat.succ_pos') (hrounds l))
      hfirst
    have hlength : ∀ l, (s₁.list l).items.length + cs.length ≤ rounds := by
      intro l
      have hone := ItemLists.call_length hfirst l
      have hall := hrounds l
      rw [List.length_cons] at hall
      omega
    obtain ⟨m₂, hm₂, hshows₂⟩ := ih hshows hlength hothers
    refine ⟨m₂, ?_, hshows₂⟩
    rw [ListMemory.calls, hm₁]
    change (m₁.calls rounds cs >>= _) = _
    rw [hm₂]
    rfl

/-- A list that was initialised -/
structure ListMemory.Initial (m : ListMemory L T) (l : L) : Prop where
  /-- the list is empty -/
  ring : Ring m.links (.inl l) []
  /-- its index is at the marker -/
  index : m.pxIndex l = .inl l
  /-- which has the largest value -/
  marker : m.xItemValue (.inl l) = portMaxDelay
  count : m.uxNumberOfItems l = 0

/-- A list is empty after `vListInitialise`, and its index is on the marker. -/
theorem ListMemory.initial_vListInitialise (m : ListMemory L T) (l : L) :
    (m.vListInitialise l).Initial l where
  ring := by
    refine (Ring.initHead m.links (.inl l)).congr (fun c _ => rfl) fun c _ => rfl
  index := Function.update_self ..
  marker := Function.update_self ..
  count := Function.update_self ..

/-- The others stay as they are. -/
theorem ListMemory.Initial.vListInitialise {l : L} (h : m.Initial l) {l' : L} (hne : l ≠ l') :
    (m.vListInitialise l').Initial l := by
  have hcell : (Sum.inl l : L ⊕ T) ≠ .inl l' := fun he => hne (Sum.inl.inj he)
  refine ⟨h.ring.congr (fun c hc => ?_) fun c hc => ?_, ?_, ?_, ?_⟩
  · obtain rfl := List.mem_singleton.mp hc
    exact Function.update_of_ne hcell _ _
  · obtain rfl := List.mem_singleton.mp hc
    exact Function.update_of_ne hcell _ _
  · exact (Function.update_of_ne hne _ _).trans h.index
  · exact (Function.update_of_ne hcell _ _).trans h.marker
  · exact (Function.update_of_ne hne _ _).trans h.count

theorem ListMemory.initial_foldl (ls : List L) {l : L} (h : l ∈ ls ∨ m.Initial l) :
    (ls.foldl ListMemory.vListInitialise m).Initial l := by
  induction ls generalizing m with
  | nil => exact h.resolve_left List.not_mem_nil
  | cons l' ls ih =>
    refine ih ?_
    by_cases hl : l = l'
    · subst hl
      exact .inr (m.initial_vListInitialise l)
    · exact h.imp (fun hmem => (List.mem_cons.mp hmem).resolve_left hl) fun hi => hi.vListInitialise
        hl

/-- No item is written to when the lists are initialised. -/
theorem ListMemory.items_foldl (m : ListMemory L T) (ls : List L) :
    (ls.foldl ListMemory.vListInitialise m).pvContainer = m.pvContainer ∧
      ∀ t, (ls.foldl ListMemory.vListInitialise m).xItemValue (.inr t) = m.xItemValue (.inr t) := by
  induction ls generalizing m with
  | nil => exact ⟨rfl, fun _ => rfl⟩
  | cons l ls ih =>
    obtain ⟨hcontainer, hvalue⟩ := ih (m.vListInitialise l)
    refine ⟨hcontainer, fun t => (hvalue t).trans ?_⟩
    exact Function.update_of_ne (Sum.inr_ne_inl : (Sum.inr t : L ⊕ T) ≠ .inl l) portMaxDelay
      m.xItemValue

/-- Lists that were initialised, and items that are in none -/
theorem ListMemory.shows_init (m : ListMemory L T) (ls : List L) (hall : ∀ l, l ∈ ls)
    (hfree : ∀ t, m.pvContainer t = none) :
    (ls.foldl ListMemory.vListInitialise m).Shows (.init fun t => m.xItemValue (.inr t)) := by
  have hinit := fun l => initial_foldl (m := m) ls (.inl (hall l))
  obtain ⟨hcontainer, hvalue⟩ := m.items_foldl ls
  exact ⟨fun l => (hinit l).ring, fun l => (hinit l).index, hcontainer.trans (funext hfree), hvalue,
    fun l => (hinit l).marker, fun l => (hinit l).count⟩

/-- **The pointers are the lists.** In every run of calls on lists that were initialised in which no
item is put into a list while it is in one, none is taken out that is in none, and no owner is asked
of an empty list, the rings hold what the lists hold and the calls return the same; a walk takes no
more rounds than there were calls. -/
theorem pointers_refine_lists (m : ListMemory L T) (ls : List L) (hall : ∀ l, l ∈ ls)
    (hfree : ∀ t, m.pvContainer t = none) (cs : List (ListCall L T)) (rs : List (Option T))
    (s : ItemLists L T)
    (hrun : (ItemLists.init fun t => m.xItemValue (.inr t)).calls cs = some (rs, s)) :
    ∃ m', (ls.foldl ListMemory.vListInitialise m).calls cs.length cs = some (rs, m') ∧
      m'.Shows s := by
  refine (m.shows_init ls hall hfree).calls (fun l => ?_) hrun
  exact (Nat.zero_add _).le

end Runs

/-- One list and two items, before anything was initialised -/
def blankLists : ListMemory Unit Bool :=
  ⟨⟨fun _ => .inl (), fun _ => .inr true⟩, fun _ => 0, fun _ => none, fun _ => .inr false,
  fun _ => 7⟩

/-- Two items sorted into the list, the later one in front, and the index that goes to it -/
theorem pointers_refine_lists_two :
    ∃ m', (blankLists.vListInitialise ()).calls 4
    [.setValue true 9, .insert () true, .insert () false, .next ()] =
      some ([none, none, none, some false], m') := by
  obtain ⟨m', hrun, -⟩ := pointers_refine_lists blankLists [()] (fun _ => List.mem_singleton_self _)
    (fun _ => rfl)
    [.setValue true 9, .insert () true, .insert () false, .next ()]
      [none, none, none, some false] _ rfl
  exact ⟨m', hrun⟩

end BitThunder
