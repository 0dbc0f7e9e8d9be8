import Mathlib.Data.List.Chain
import Mathlib.Tactic

/-!
# Ordered tilings

A list of pieces, each with a base and a length, that lie one behind the other and
fill an interval. `Tiles base len lo xs hi` is the recursion over the list; it cuts
at any piece (`tiles_cut`), so splitting a piece and joining two neighbours are
local steps.

* `Tiles.pairwise`: the pieces are sorted and disjoint;
* `Tiles.add_sum`: their lengths add up to that of the interval;
* `chain_middle`: a relation between neighbours, seen from one piece;
* `Tiles.unique`: a coalesced tiling is determined by its pieces in use.

An induction from the left is all that is needed, since a piece begins where the one before it ends.
Where a piece is changed in the middle the list is cut there, and both sides stay as they are.
-/

namespace BitThunder

universe u

variable {α : Type u} {base len : α → ℕ} {lo hi : ℕ} {xs ys : List α} {x y : α}

/-- The pieces `xs` follow one another without gaps from `lo` to `hi`, none of them
empty. -/
def Tiles (base len : α → ℕ) : ℕ → List α → ℕ → Prop
  | lo, [], hi => lo = hi
  | lo, x :: xs, hi => base x = lo ∧ 0 < len x ∧ Tiles base len (lo + len x) xs hi

@[simp] theorem tiles_nil : Tiles base len lo [] hi ↔ lo = hi := Iff.rfl

/-- A tiling is its first tile and a tiling of what lies behind it. -/
theorem tiles_cons : Tiles base len lo (x :: xs) hi ↔
    base x = lo ∧ 0 < len x ∧ Tiles base len (lo + len x) xs hi := Iff.rfl

/-- A tiling cuts at any of its pieces. -/
theorem tiles_cut : Tiles base len lo (xs ++ x :: ys) hi ↔
    Tiles base len lo xs (base x) ∧ 0 < len x ∧ Tiles base len (base x + len x) ys hi := by
  induction xs generalizing lo with
  | nil =>
    rw [List.nil_append, tiles_cons, tiles_nil]
    constructor
    · rintro ⟨rfl, hpos, hrest⟩
      exact ⟨rfl, hpos, hrest⟩
    · rintro ⟨rfl, hpos, hrest⟩
      exact ⟨rfl, hpos, hrest⟩
  | cons z zs ih => simp only [List.cons_append, tiles_cons, ih, and_assoc]

theorem Tiles.le (h : Tiles base len lo xs hi) : lo ≤ hi := by
  induction xs generalizing lo with
  | nil => exact h.le
  | cons x xs ih => exact (Nat.le_add_right _ _).trans (ih h.2.2)

/-- The lengths add up to that of the interval. -/
theorem Tiles.add_sum (h : Tiles base len lo xs hi) : lo + (xs.map len).sum = hi := by
  induction xs generalizing lo with
  | nil => exact h
  | cons x xs ih =>
    rw [List.map_cons, List.sum_cons, ← Nat.add_assoc]
    exact ih h.2.2

/-- Every piece lies in the interval. -/
theorem Tiles.bounds (h : Tiles base len lo xs hi) (hx : x ∈ xs) :
    lo ≤ base x ∧ 0 < len x ∧ base x + len x ≤ hi := by
  obtain ⟨as, bs, rfl⟩ := List.append_of_mem hx
  obtain ⟨h₁, hpos, h₂⟩ := tiles_cut.mp h
  exact ⟨h₁.le, hpos, h₂.le⟩

/-- The pieces are sorted, and each ends before the next begins. -/
theorem Tiles.pairwise (h : Tiles base len lo xs hi) :
    xs.Pairwise fun x y => base x + len x ≤ base y := by
  induction xs generalizing lo with
  | nil => exact List.Pairwise.nil
  | cons x xs ih =>
    obtain ⟨rfl, -, hrest⟩ := h
    exact List.pairwise_cons.mpr ⟨fun y hy => (hrest.bounds hy).1, ih hrest⟩

/-- A point lies in one piece at most. -/
theorem Tiles.eq_of_mem {a : ℕ} (h : Tiles base len lo xs hi) (hx : x ∈ xs) (hy : y ∈ xs)
    (hax : base x ≤ a ∧ a < base x + len x) (hay : base y ≤ a ∧ a < base y + len y) : x = y := by
  obtain ⟨as, bs, rfl⟩ := List.append_of_mem hx
  obtain ⟨has, -, hbs⟩ := tiles_cut.mp h
  simp only [List.mem_append, List.mem_cons] at hy
  rcases hy with hm | rfl | hm
  · have := (has.bounds hm).2.2
    omega
  · rfl
  · have := (hbs.bounds hm).1
    omega

/-- A tiling by images is a tiling by the originals. -/
theorem tiles_map {β : Type u} {f : β → α} {ys : List β} :
    Tiles base len lo (ys.map f) hi ↔ Tiles (base ∘ f) (len ∘ f) lo ys hi := by
  induction ys generalizing lo with
  | nil => exact Iff.rfl
  | cons y ys ih => simp only [List.map_cons, tiles_cons, Function.comp_apply, ih]

/-! ## Neighbours -/

variable {R : α → α → Prop}

/-- A chain, seen from one of its members: the two sides, and the two neighbours. -/
theorem chain_middle : (xs ++ x :: ys).IsChain R ↔
    xs.IsChain R ∧ (∀ y ∈ xs.getLast?, R y x) ∧ (∀ y ∈ ys.head?, R x y) ∧ ys.IsChain R := by
  rw [List.isChain_append]
  cases ys with
  | nil => simp
  | cons y ys => simp [List.isChain_cons_cons, and_assoc, and_comm, and_left_comm]

/-! ## Coalesced tilings

Some pieces are free, and no two free ones are neighbours. Then the pieces in use say where the free
ones are. -/

section Coalesced

variable {free : α → Bool}

/-- Where the first piece in use begins, if no free one comes before it. -/
theorem Tiles.lo_eq (h : Tiles base len lo xs hi) (hused : ∀ x ∈ xs.head?, free x = false) :
    lo = (((xs.filter fun x => !free x).head?.map base).getD hi) := by
  cases xs with
  | nil => exact h
  | cons x xs =>
    have hx : free x = false := hused x rfl
    rw [List.filter_cons_of_pos (by rw [hx]; rfl)]
    exact h.1.symm

/-- The pieces are the same ones, except that free ones only agree in base and length. -/
theorem Tiles.unique (hx : Tiles base len lo xs hi) (hy : Tiles base len lo ys hi)
    (cx : xs.IsChain fun x y => ¬(free x = true ∧ free y = true))
    (cy : ys.IsChain fun x y => ¬(free x = true ∧ free y = true))
    (hused : (xs.filter fun x => !free x) = ys.filter fun x => !free x) :
    List.Forall₂ (fun x y => x = y ∨ free x = true ∧ free y = true ∧ base x = base y ∧
      len x = len y) xs ys := by
  induction xs generalizing lo ys with
  | nil =>
    obtain rfl : lo = hi := hx
    cases ys with
    | nil => exact .nil
    | cons y ys =>
      have hle := hy.2.2.le
      have hpos := hy.2.1
      omega
  | cons x xs ih =>
    obtain ⟨hbx, hpx, hxs⟩ := hx
    cases ys with
    | nil =>
      obtain rfl : lo = hi := hy
      have hle := hxs.le
      omega
    | cons y ys =>
      obtain ⟨hby, hpy, hys⟩ := hy
      -- a piece in use at the start of one tiling would be among the later ones of the other
      have hlater {z w : α} {zs ws : List α} (hzs : Tiles base len (lo + len z) zs hi)
          (hz : 0 < len z)
          (hw : base w = lo) (heq : (zs.filter fun x => !free x) = w :: ws) : False := by
        have hmem : w ∈ zs := List.mem_of_mem_filter (heq ▸ List.mem_cons_self)
        have hge := (hzs.bounds hmem).1
        omega
      cases hfx : free x <;> cases hfy : free y
      · rw [List.filter_cons_of_pos
          (by rw [hfx]; rfl), List.filter_cons_of_pos (by rw [hfy]; rfl)] at hused
        obtain ⟨rfl, hrest⟩ := List.cons.inj hused
        exact .cons (.inl rfl) (ih hxs hys cx.tail cy.tail hrest)
      · rw [List.filter_cons_of_pos
          (by rw [hfx]; rfl), List.filter_cons_of_neg (by rw [hfy]; decide)] at hused
        exact (hlater hys hpy hbx hused.symm).elim
      · rw [List.filter_cons_of_neg
          (by rw [hfx]; decide), List.filter_cons_of_pos (by rw [hfy]; rfl)] at hused
        exact (hlater hxs hpx hby hused).elim
      · rw [List.filter_cons_of_neg
          (by rw [hfx]; decide), List.filter_cons_of_neg (by rw [hfy]; decide)] at hused
        have hnext {z : α} {zs : List α} (hz : free z = true)
            (cz : (z :: zs).IsChain fun x y => ¬(free x = true ∧ free y = true)) : ∀ w ∈ zs.head?,
              free w = false := by
          intro w hw
          cases zs with
          | nil => exact absurd hw nofun
          | cons v zs =>
            obtain rfl : v = w := Option.some.inj hw
            have hnot := (List.isChain_cons_cons.mp cz).1
            simpa [hz] using hnot
        have hlen : len x = len y := by
          have hx' := hxs.lo_eq (hnext hfx cx)
          have hy' := hys.lo_eq (hnext hfy cy)
          rw [hused] at hx'
          omega
        rw [hlen] at hxs
        exact .cons (.inr ⟨hfx, hfy, hbx.trans hby.symm, hlen⟩) (ih hxs hys cx.tail cy.tail hused)

end Coalesced

end BitThunder
