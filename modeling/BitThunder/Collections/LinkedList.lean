import BitThunder.Lib.Chain
import BitThunder.Mm.Defs

/-!
# Linked lists

`lib/src/collections/bt_linked_list.c`. An item has the link to the next one in it, and a list has a
pointer to the first item and counts its items. The loop of `BT_ListRemoveItem` looks at one item
over and over, so that only the first and the second item are found, and what is removed is still
counted.

`list_operations_iff`: a removal is right only where there is nothing to remove and nothing to go
through.

The loop of `BT_ListRemoveItem` does not advance the item that it looks at. It finds the first item
of a list, and the second; where there is a second item and it is not the one, the same link is
looked at for ever. And `ulItems` is not counted down in either case. So a removal is right only if
nothing is to be removed and the loop ends, and this is what the condition says.
-/

namespace BitThunder

/-- A pointer to a `BT_LIST_ITEM`: one of the `2 ^ 32 - 1` addresses other than `NULL` -/
abbrev ListItem : Type := Fin 4294967295

/-- The lists, known by a number, and the items -/
structure ListHeap : Type where
  pStart : ℕ → Option ListItem
  ulItems : ℕ → ℕ
  pNext : ListItem → Option ListItem
  pList : ListItem → Option ℕ

namespace ListHeap

/-- The loop of `BT_ListAddItem`: the last item -/
def lastItem (h : ListHeap) : ℕ → ListItem → Option ListItem
  | 0, _ => none
  | n + 1, pItem =>
    match h.pNext pItem with
    | none => some pItem
    | some next => lastItem h n next

/-- `BT_ListAddItem`; `none` if it does not return -/
def btListAddItem (h : ListHeap) (pL : ℕ) (p : ListItem) : Option (BtError × ListHeap) :=
  let link (pStart : ℕ → Option ListItem) (pNext : ListItem →
      Option ListItem) : BtError × ListHeap :=
    (.none, { pStart, pNext, ulItems := Function.update h.ulItems pL (wordAdd (h.ulItems pL) 1)
              pList := Function.update h.pList p (some pL) })
  match h.pStart pL with
  | none => some (link (Function.update h.pStart pL (some p)) (Function.update h.pNext p none))
  | some first => (h.lastItem cellBound first).map fun pItem =>
      link h.pStart (Function.update (Function.update h.pNext p none) pItem (some p))

/-- The loop of `BT_ListRemoveItem`; `pItem` stays what it is. -/
def removeLoop (h : ListHeap) (p : ListItem) : ℕ → Option ListItem → Option (BtError × ListHeap)
  | 0, _ => none
  | _ + 1, none => some (.generic, h)
  | n + 1, some pItem =>
    match h.pNext pItem with
    | none => some (.generic, h)
    | some next =>
      if next = p then some (.none, { h with pNext := Function.update h.pNext pItem (h.pNext p) })
      else removeLoop h p n (some pItem)

/-- `BT_ListRemoveItem`; `none` if it does not return -/
def btListRemoveItem (h : ListHeap) (pL : ℕ) (p : ListItem) : Option (BtError × ListHeap) :=
  if h.pStart pL = some p
    then some (.none, { h with pStart := Function.update h.pStart pL (h.pNext p) })
  else h.removeLoop p cellBound (h.pStart pL)

end ListHeap

/-! ## What the lists hold

The lists are held together, because an item may be on one of them only: adding an item to a list
that is on another one would change both. -/

/-- The lists hold these items in this order, an item is on one of them at most, and they are
counted. -/
structure HoldsItems (h : ListHeap) (items : ℕ → List ListItem) : Prop where
  /-- each list runs through its items and ends in a null pointer -/
  chained : ∀ pL, Chained h.pNext (h.pStart pL) (items pL)
  /-- it counts them -/
  ulItems : ∀ pL, h.ulItems pL = (items pL).length
  /-- no item is twice in a list -/
  nodup : ∀ pL, (items pL).Nodup
  /-- and none is in two -/
  apart : ∀ pL pM, pL ≠ pM → ∀ p ∈ items pL, p ∉ items pM

/-- `BT_ListAddItem` appends the item. -/
def AddsRight (h : ListHeap) (items : ℕ → List ListItem) (pL : ℕ) (p : ListItem) : Prop :=
  ∃ h', h.btListAddItem pL p = some (.none, h') ∧
  HoldsItems h' (Function.update items pL (items pL ++ [p]))

/-- `BT_ListRemoveItem` returns; it takes out the item, or returns an error and leaves everything as
it is. -/
def RemovesRight (h : ListHeap) (items : ℕ → List ListItem) (pL : ℕ) (p : ListItem) : Prop :=
  ∃ e h', h.btListRemoveItem pL p = some (e, h') ∧
    (p ∈ items pL → e = .none ∧ HoldsItems h' (Function.update items pL ((items pL).erase p))) ∧
    (p ∉ items pL → e = .generic ∧ h' = h)

/-- The item is not on the list, and the list has one item at most. -/
def SuitsRemove (items : ℕ → List ListItem) (pL : ℕ) (p : ListItem) : Prop :=
  p ∉ items pL ∧ (items pL).length ≤ 1

/-- The lists after some calls, and what they are to hold: items are added while they are on no
list, and removed where `ok` says so. -/
inductive ListRun (ok : (ℕ → List ListItem) → ℕ → ListItem → Prop) :
    ListHeap → (ℕ → List ListItem) → Prop where
  /-- `BT_ListInit` -/
  | init {h : ListHeap} (empty : ∀ pL, h.pStart pL = none ∧ h.ulItems pL = 0) : ListRun ok h
    fun _ => []
  | add {h h' : ListHeap} {items : ℕ → List ListItem} {pL : ℕ} {p : ListItem} {e : BtError}
    (run : ListRun ok h items)
      (free : ∀ pM, p ∉ items pM) (call : h.btListAddItem pL p = some (e, h')) :
      ListRun ok h' (Function.update items pL (items pL ++ [p]))
  | remove {h h' : ListHeap} {items : ℕ → List ListItem} {pL : ℕ} {p : ListItem} {e : BtError}
    (run : ListRun ok h items)
      (hok : ok items pL p) (call : h.btListRemoveItem pL p = some (e, h')) :
      ListRun ok h' (Function.update items pL ((items pL).erase p))

/-! ## One call

Adding goes to the last item and links the new one behind it. Removing is followed for an item that
is the first, the second, any other, or none. -/

/-- The items are words, so that a list without repetitions has fewer than `2 ^ 32` of them. -/
theorem length_items {xs : List ListItem} (h : xs.Nodup) : xs.length < 2 ^ 32 := by
  have hcard := h.length_le_card
  rw [Fintype.card_fin] at hcard
  omega

namespace HoldsItems

variable {h h' : ListHeap} {items : ℕ → List ListItem} {pL : ℕ} {p : ListItem}

theorem lastItem {xs : List ListItem} {a : ListItem} {n : ℕ} (hchain : Chained h.pNext (some a) xs)
    (hn : xs.length ≤ n) :
    ∃ ys b, xs = ys ++ [b] ∧ h.lastItem n a = some b := by
  induction xs generalizing a n with
  | nil => exact nomatch hchain
  | cons x xs ih =>
    obtain ⟨hx, hrest⟩ := hchain
    obtain rfl := Option.some.inj hx
    obtain ⟨n, rfl⟩ := Nat.exists_eq_succ_of_ne_zero
      (Nat.ne_of_gt (Nat.lt_of_lt_of_le (Nat.succ_pos _) hn))
    cases hnext : h.pNext a with
    | none =>
      rw [hnext] at hrest
      refine ⟨[], a, ?_, ?_⟩
      · rw [hrest.eq_nil]
        rfl
      · rw [ListHeap.lastItem, hnext]
    | some b =>
      rw [hnext] at hrest
      obtain ⟨ys, c, rfl, hlast⟩ := ih hrest (Nat.le_of_succ_le_succ hn)
      refine ⟨a :: ys, c, rfl, ?_⟩
      rw [ListHeap.lastItem, hnext]
      exact hlast

/-- The items after one was appended are on one list each. -/
theorem append_distinct (hh : HoldsItems h items) (hfree : ∀ pM, p ∉ items pM) (pL : ℕ) :
    (∀ pM, (Function.update items pL (items pL ++ [p]) pM).Nodup) ∧ ∀ pM pN, pM ≠ pN →
      ∀ q ∈ Function.update items pL (items pL ++ [p]) pM, q ∉ Function.update items pL
      (items pL ++ [p]) pN := by
  have hmem (pM : ℕ) (q : ListItem) (hq : q ∈ Function.update items pL (items pL ++ [p]) pM) :
      q ∈ items pM ∨ q = p ∧ pM = pL := by
    by_cases hM : pM = pL
    · subst hM
      rw [Function.update_self] at hq
      rcases List.mem_append.mp hq with hq | hq
      · exact .inl hq
      · exact .inr ⟨List.mem_singleton.mp hq, rfl⟩
    · rw [Function.update_of_ne hM] at hq
      exact .inl hq
  constructor
  · intro pM
    by_cases hM : pM = pL
    · subst hM
      rw [Function.update_self]
      exact List.nodup_append.mpr ⟨hh.nodup pM, List.nodup_singleton p, fun a ha b hb hab =>
        hfree pM (List.mem_singleton.mp hb ▸ hab ▸ ha)⟩
    · rw [Function.update_of_ne hM]
      exact hh.nodup pM
  · intro pM pN hne q hq hq'
    rcases hmem pM q hq with hM | ⟨hqp, hM⟩
    · rcases hmem pN q hq' with hN | ⟨hqp, -⟩
      · exact hh.apart pM pN hne q hM hN
      · exact hfree pM (hqp ▸ hM)
    · rcases hmem pN q hq' with hN | ⟨-, hN⟩
      · exact hfree pN (hqp ▸ hN)
      · exact hne (hM.trans hN.symm)

/-- A call of `BT_ListAddItem` for an item that is on no list -/
theorem addsRight (hh : HoldsItems h items) (hfree : ∀ pM, p ∉ items pM) (pL : ℕ) :
    AddsRight h items pL p := by
  have hword : wordAdd (h.ulItems pL) 1 = (items pL ++ [p]).length := by
    have hlen :=
      length_items (List.nodup_append.mpr ⟨hh.nodup pL, List.nodup_singleton p, fun a ha b hb hab =>
      hfree pL (List.mem_singleton.mp hb ▸ hab ▸ ha)⟩)
    rw [List.length_append, List.length_singleton] at hlen ⊢
    rw [hh.ulItems, wordAdd_of_lt hlen]
  have hcount (pM : ℕ) : Function.update h.ulItems pL (wordAdd (h.ulItems pL) 1) pM =
      (Function.update items pL (items pL ++ [p]) pM).length := by
    by_cases hM : pM = pL
    · rw [hM, Function.update_self, Function.update_self, hword]
    · rw [Function.update_of_ne hM, Function.update_of_ne hM, hh.ulItems]
  obtain ⟨hnodup, hapart⟩ := hh.append_distinct hfree pL
  have hchain := hh.chained pL
  cases hstart : h.pStart pL with
  | none =>
    rw [hstart] at hchain
    refine ⟨_, by rw [ListHeap.btListAddItem, hstart], fun pM => ?_, hcount, hnodup, hapart⟩
    by_cases hM : pM = pL
    · subst hM
      simp only [Function.update_self, hchain.eq_nil, List.nil_append]
      exact ⟨rfl, Function.update_self ..⟩
    · simp only [Function.update_of_ne hM]
      exact (hh.chained pM).update (hfree pM)
  | some a =>
    rw [hstart] at hchain
    obtain ⟨ys, b, hsplit, hlast⟩ :=
      lastItem hchain (n := cellBound) (length_items (hh.nodup pL)).le
    have hb : b ∈ items pL := by simp [hsplit]
    have hbp : b ≠ p := fun heq => hfree pL (heq ▸ hb)
    have hcall := congrArg (Option.map fun pItem => (BtError.none, ({
      pStart := h.pStart
      pNext := Function.update (Function.update h.pNext p none) pItem (some p)
      ulItems := Function.update h.ulItems pL (wordAdd (h.ulItems pL) 1)
      pList := Function.update h.pList p (some pL) } : ListHeap))) hlast
    refine ⟨_, by rw [ListHeap.btListAddItem, hstart]; exact hcall, fun pM => ?_, hcount, hnodup,
      hapart⟩
    by_cases hM : pM = pL
    · subst hM
      have hys : b ∉ ys := by
        have := hh.nodup pM
        rw [hsplit] at this
        exact fun hmem => (List.nodup_append.mp this).2.2 b hmem b List.mem_cons_self rfl
      simp only [Function.update_self, hstart, hsplit]
      rw [hsplit] at hchain
      refine hchain.snoc (fun x hx => ?_) (Function.update_self ..) ?_
      · have hxb : x ≠ b := by
          rintro rfl
          exact hys hx
        have hxp : x ≠ p := by
          rintro rfl
          exact hfree pM (by simp [hsplit, hx])
        rw [Function.update_of_ne hxb, Function.update_of_ne hxp]
      · rw [Function.update_of_ne hbp.symm, Function.update_self]
    · simp only [Function.update_of_ne hM]
      exact ((hh.chained pM).update (hfree pM)).update fun hmem => hh.apart pM pL hM b hmem hb

/-- What the loop of `BT_ListRemoveItem` does behind the first item -/
theorem removeLoop_stuck {a b : ListItem} (hnext : h.pNext a = some b) (hne : b ≠ p) (n : ℕ) :
    h.removeLoop p n (some a) = none := by
  induction n with
  | zero => rfl
  | succ n ih =>
    rw [ListHeap.removeLoop, hnext]
    dsimp only
    rw [if_neg hne, ih]

/-- A removal leaves the number of items as it is. -/
theorem remove_ulItems {e : BtError} (hcall : h.btListRemoveItem pL p = some (e, h')) :
    h'.ulItems = h.ulItems := by
  have hloop : ∀ n q, h.removeLoop p n q = some (e, h') → h'.ulItems = h.ulItems := by
    intro n
    induction n with
    | zero => exact fun q hq => nomatch hq
    | succ n ih =>
      intro q hq
      cases q with
      | none =>
        rw [ListHeap.removeLoop] at hq
        obtain ⟨-, rfl⟩ := Prod.mk.inj (Option.some.inj hq)
        rfl
      | some a =>
        rw [ListHeap.removeLoop] at hq
        split at hq
        · obtain ⟨-, rfl⟩ := Prod.mk.inj (Option.some.inj hq)
          rfl
        · split at hq
          · obtain ⟨-, rfl⟩ := Prod.mk.inj (Option.some.inj hq)
            rfl
          · exact ih _ hq
  rw [ListHeap.btListRemoveItem] at hcall
  split at hcall
  · obtain ⟨-, rfl⟩ := Prod.mk.inj (Option.some.inj hcall)
    rfl
  · exact hloop _ _ hcall

/-- **When a removal is right** -/
theorem removesRight_iff (hh : HoldsItems h items) (pL : ℕ) (p : ListItem) :
    RemovesRight h items pL p ↔ SuitsRemove items pL p := by
  have hchain := hh.chained pL
  constructor
  · rintro ⟨e, h', hcall, hmem, hnot⟩
    have hfree : p ∉ items pL := by
      intro hp
      have hcount := (hmem hp).2.ulItems pL
      rw [remove_ulItems hcall, hh.ulItems, Function.update_self,
        List.length_erase_of_mem hp] at hcount
      have := List.length_pos_of_mem hp
      omega
    refine ⟨hfree, ?_⟩
    by_contra hlong
    match hitems : items pL with
    | [] => simp [hitems] at hlong
    | [a] => simp [hitems] at hlong
    | a :: b :: xs =>
      rw [hitems] at hchain hfree
      obtain ⟨hstart, hnext, -⟩ := hchain
      have hloop := removeLoop_stuck (p := p) hnext (fun heq => hfree (by simp [heq])) cellBound
      rw [ListHeap.btListRemoveItem, hstart, hloop,
        if_neg fun heq => hfree (by simp [Option.some.inj heq])] at hcall
      cases hcall
  · rintro ⟨hfree, hshort⟩
    refine ⟨.generic, h, ?_, fun hp => absurd hp hfree, fun _ => ⟨rfl, rfl⟩⟩
    obtain ⟨n, hn⟩ : ∃ n, cellBound = n + 1 := ⟨cellBound - 1, rfl⟩
    match hitems : items pL with
    | [] =>
      rw [hitems] at hchain
      rw [ListHeap.btListRemoveItem, show h.pStart pL = none from hchain, if_neg nofun, hn,
        ListHeap.removeLoop]
    | [a] =>
      rw [hitems] at hchain hfree
      obtain ⟨hstart, hnext⟩ := hchain
      rw [ListHeap.btListRemoveItem, hstart, if_neg fun heq => hfree
        (by simp [Option.some.inj heq]), hn, ListHeap.removeLoop, show h.pNext a = none from hnext]
    | a :: b :: xs => simp [hitems] at hshort

end HoldsItems

/-! ## Runs

A run has no removal that takes anything out, as the condition allows none, so that the lists only
grow. -/

/-- In a run whose removals suit, the lists hold what they are to hold. -/
theorem ListRun.holdsItems {h : ListHeap} {items : ℕ → List ListItem}
    (run : ListRun SuitsRemove h items) :
    HoldsItems h items := by
  induction run with
  | @init h empty =>
    refine ⟨fun pL => (empty pL).1, fun pL => (empty pL).2, fun _ => List.nodup_nil,
      fun _ _ _ p hp => ?_⟩
    exact absurd hp List.not_mem_nil
  | @add h h' items pL p e run free call ih =>
    obtain ⟨h'', hcall, hh⟩ := ih.addsRight free pL
    obtain ⟨-, rfl⟩ := Prod.mk.inj (Option.some.inj (call.symm.trans hcall))
    exact hh
  | @remove h h' items pL p e run hok call ih =>
    obtain ⟨e', h'', hcall, -, hnot⟩ := (ih.removesRight_iff pL p).mpr hok
    obtain ⟨-, rfl⟩ := Prod.mk.inj (Option.some.inj (call.symm.trans hcall))
    rw [(hnot hok.1).2, List.erase_of_not_mem hok.1, Function.update_eq_self]
    exact ih

/-- What is asked of the lists after some calls: they hold their items, and the next call is right.
-/
structure ListsRight (h : ListHeap) (items : ℕ → List ListItem) : Prop where
  /-- the heap has the lists -/
  holds : HoldsItems h items
  /-- an item that is in no list can be added to any of them -/
  add : ∀ pL p, (∀ pM, p ∉ items pM) → AddsRight h items pL p
  /-- an item can be removed from any of them -/
  remove : ∀ pL p, RemovesRight h items pL p

/-- **As long as nothing is removed, and removing is tried at a list of one item at most, the lists
are right**, and any other removal is wrong. -/
theorem list_operations_iff {h : ListHeap} {items : ℕ → List ListItem}
    (run : ListRun SuitsRemove h items) :
    HoldsItems h items ∧ (∀ pL p, (∀ pM, p ∉ items pM) → AddsRight h items pL p) ∧
      ∀ pL p, RemovesRight h items pL p ↔ SuitsRemove items pL p :=
  ⟨run.holdsItems, fun pL _ hfree => run.holdsItems.addsRight hfree pL,
  run.holdsItems.removesRight_iff⟩

/-- No lists yet -/
def noItems : ListHeap where
  pStart _ := none
  ulItems _ := 0
  pNext _ := none
  pList _ := none

/-- Items that have been put on the first list, one after the other -/
theorem listRun_add (ok : (ℕ → List ListItem) → ℕ → ListItem → Prop) (xs : List ListItem)
    (hxs : xs.Nodup) :
    ∃ h, ListRun ok h (Function.update (fun _ => []) 0 xs) ∧
      HoldsItems h (Function.update (fun _ => []) 0 xs) := by
  induction xs using List.reverseRecOn with
  | nil =>
    rw [Function.update_eq_self]
    have hempty : ListRun SuitsRemove noItems fun _ => [] := .init fun _ => ⟨rfl, rfl⟩
    exact ⟨noItems, .init fun _ => ⟨rfl, rfl⟩, hempty.holdsItems⟩
  | append_singleton xs p ih =>
    obtain ⟨hnd, -, hp⟩ := List.nodup_append.mp hxs
    obtain ⟨h, run, hh⟩ := ih hnd
    have hfree : ∀ pM, p ∉ Function.update (fun _ => ([] : List ListItem)) 0 xs pM := by
      intro pM hmem
      by_cases hM : pM = 0
      · rw [hM, Function.update_self] at hmem
        exact hp p hmem p List.mem_cons_self rfl
      · rw [Function.update_of_ne hM] at hmem
        exact absurd hmem List.not_mem_nil
    obtain ⟨h', hcall, hh'⟩ := hh.addsRight hfree 0
    rw [Function.update_self, Function.update_idem] at hh'
    have run' := ListRun.add run hfree hcall
    rw [Function.update_self, Function.update_idem] at run'
    exact ⟨h', run', hh'⟩

/-- One item on the list, and another one to be removed -/
theorem list_operations_iff_one : ∃ h, ListRun SuitsRemove h (Function.update (fun _ => []) 0 [0]) ∧
    RemovesRight h (Function.update (fun _ => []) 0 [0]) 0 1 := by
  obtain ⟨h, run, -⟩ := listRun_add SuitsRemove [0] (List.nodup_singleton 0)
  exact ⟨h, run, ((list_operations_iff run).2.2 0 1).mpr ⟨by simp, by simp⟩⟩

/-- Three items on the list: the last one is not come to. -/
theorem list_remove_third_hangs : ∃ h : ListHeap,
    ListRun (fun _ _ _ => True) h (Function.update (fun _ => []) 0 [0, 1, 2]) ∧
      ¬ListsRight h (Function.update (fun _ => []) 0 [0, 1, 2]) := by
  obtain ⟨h, run, hh⟩ := listRun_add (fun _ _ _ => True) [0, 1, 2] (by decide)
  exact ⟨h, run, fun hright => absurd ((hh.removesRight_iff 0 2).mp (hright.remove 0 2)).2
    (by simp)⟩

end BitThunder
