import Mathlib.Algebra.BigOperators.Group.Finset.Basic
import Mathlib.Algebra.BigOperators.Intervals
import Mathlib.Algebra.Order.BigOperators.Group.Finset
import Mathlib.Tactic

/-!
# Lists of extents as tilings

An extent is a base and a length. Instead of carrying disjointness and coverage
of a list of extents as two facts, `cover es x` counts how many extents of the
list hold the address `x`. Counting is additive, so splitting an extent, joining
two neighbours and moving an extent from one list to another are equations, and
"pairwise disjoint and covering `A`" is "the count is the indicator of `A`".

* `cover_split`: an extent counts as its two halves;
* `pairwise_apart_of_cover_le_one`: counts of at most one mean disjointness;
* `totalSize_lt`: extents that never overlap, avoid `0` and end by `N` have
  total length below `N`.

The count may be anything in between two operations, and an address that is held twice shows as a
two. This is what makes it fit for proving that an operation keeps the extents apart: it is computed
by adding and taking away, with no look at which extent lies where.
-/

namespace BitThunder

/-- A base address and a length. -/
abbrev Extent : Type := ℕ × ℕ

namespace Extent

/-- The addresses an extent holds. -/
def Holds (e : Extent) (x : ℕ) : Prop := e.1 ≤ x ∧ x < e.1 + e.2

instance (e : Extent) (x : ℕ) : Decidable (e.Holds x) :=
  inferInstanceAs (Decidable (_ ∧ _))

theorem holds_mk {a n x : ℕ} : Holds (a, n) x ↔ a ≤ x ∧ x < a + n := Iff.rfl

/-- Two extents with no common address. -/
def Apart (e f : Extent) : Prop := ∀ x, ¬ (e.Holds x ∧ f.Holds x)

/-- The second extent starts behind the first, with something in between. -/
def Gap (e f : Extent) : Prop := e.1 + e.2 < f.1

/-- Of two extents with nothing in common one ends before the other begins. -/
theorem Apart.ends {e f : Extent} (h : e.Apart f) (he : 0 < e.2) (hf : 0 < f.2) :
    e.1 + e.2 ≤ f.1 ∨ f.1 + f.2 ≤ e.1 := by
  by_contra hne
  refine h (max e.1 f.1) ⟨?_, ?_⟩
  · unfold Holds
    omega
  · unfold Holds
    omega

instance : Std.Symm Apart := ⟨fun _ _ h x hx => h x hx.symm⟩

instance : IsTrans Extent Gap := ⟨fun e f g hef hfg => by
  unfold Gap at *
  omega⟩

end Extent

/-- How many extents of the list hold `x`. -/
def cover (es : List Extent) (x : ℕ) : ℕ := es.countP fun e => decide (e.Holds x)

/-- The sum of the lengths. -/
def totalSize (es : List Extent) : ℕ := (es.map Prod.snd).sum

variable {e f : Extent} {es fs : List Extent} {x : ℕ}

@[simp] theorem cover_nil : cover [] x = 0 := rfl

theorem cover_cons : cover (e :: es) x = cover es x + if e.Holds x then 1 else 0 := by
  simp [cover, List.countP_cons]

/-- Two lists of extents cover together what each covers. -/
@[simp] theorem cover_append : cover (es ++ fs) x = cover es x + cover fs x := by
  simp [cover]

theorem cover_perm (h : es.Perm fs) : cover es x = cover fs x := h.countP_eq _

theorem cover_middle : cover (es ++ e :: fs) x = cover (e :: (es ++ fs)) x :=
  cover_perm List.perm_middle

/-- Being held by a list is being held by one of its extents. -/
theorem cover_pos : 0 < cover es x ↔ ∃ e ∈ es, e.Holds x := by
  simp [cover, List.countP_pos_iff]

/-- An extent counts as its two halves. -/
theorem cover_split (a m n : ℕ) :
    cover ((a, m + n) :: es) x = cover ((a, m) :: (a + m, n) :: es) x := by
  simp only [cover_cons]
  rcases Nat.lt_or_ge x (a + m) with hx | hx
  · have hr : ¬ Extent.Holds (a + m, n) x := by rw [Extent.holds_mk]; omega
    have hiff : Extent.Holds (a, m + n) x ↔ Extent.Holds (a, m) x := by
      simp only [Extent.holds_mk]; omega
    simp [hr, hiff]
  · have hl : ¬ Extent.Holds (a, m) x := by rw [Extent.holds_mk]; omega
    have hiff : Extent.Holds (a, m + n) x ↔ Extent.Holds (a + m, n) x := by
      simp only [Extent.holds_mk]; omega
    simp [hl, hiff]

/-- An empty extent counts for nothing. -/
theorem cover_empty (a : ℕ) : cover ((a, 0) :: es) x = cover es x := by
  have h : ¬ Extent.Holds (a, 0) x := by rw [Extent.holds_mk]; omega
  simp [cover_cons, h]

@[simp] theorem totalSize_nil : totalSize [] = 0 := rfl

@[simp] theorem totalSize_cons : totalSize (e :: es) = e.2 + totalSize es := by
  simp [totalSize]

@[simp] theorem totalSize_append : totalSize (es ++ fs) = totalSize es + totalSize fs := by
  simp [totalSize]

/-- One extent of a list, and the rest. -/
theorem totalSize_erase (h : e ∈ es) : totalSize es = e.2 + totalSize (es.erase e) := by
  rw [← totalSize_cons]
  exact ((List.perm_cons_erase h).map Prod.snd).sum_eq

/-- A list whose counts are at most one has pairwise disjoint extents. -/
theorem pairwise_apart_of_cover_le_one (h : ∀ x, cover es x ≤ 1) :
    es.Pairwise Extent.Apart := by
  induction es with
  | nil => exact List.Pairwise.nil
  | cons e es ih =>
    refine List.pairwise_cons.mpr ⟨?_, ih fun x => ?_⟩
    · rintro f hf x ⟨hex, hfx⟩
      have hpos : 0 < cover es x := cover_pos.mpr ⟨f, hf, hfx⟩
      have hx := h x
      rw [cover_cons, if_pos hex] at hx
      omega
    · have hx := h x
      rw [cover_cons] at hx
      omega

/-- Conversely, disjoint extents never count twice. -/
theorem cover_le_one_of_pairwise_apart (h : es.Pairwise Extent.Apart) : cover es x ≤ 1 := by
  induction es with
  | nil => simp
  | cons e es ih =>
    obtain ⟨he, hes⟩ := List.pairwise_cons.mp h
    rw [cover_cons]
    split_ifs with hex
    · have hzero : cover es x = 0 := by
        by_contra hne
        obtain ⟨f, hf, hfx⟩ := cover_pos.mp (Nat.pos_of_ne_zero hne)
        exact he f hf x ⟨hex, hfx⟩
      omega
    · have := ih hes
      omega

/-- Extents with gaps between them that hold exactly an interval are that interval. -/
theorem eq_singleton_of_gaps {a n : ℕ} (hn : 0 < n) (hpos : ∀ f ∈ es, 0 < f.2)
    (hgap : es.Pairwise Extent.Gap)
    (h : ∀ x, cover es x = if a ≤ x ∧ x < a + n then 1 else 0) : es = [(a, n)] := by
  have hin : ∀ f ∈ es, ∀ x, f.Holds x → a ≤ x ∧ x < a + n := by
    intro f hf x hx
    by_contra hout
    have hone := cover_pos.mpr ⟨f, hf, hx⟩
    rw [h, if_neg hout] at hone
    exact Nat.lt_irrefl _ hone
  have hheld : ∀ x, a ≤ x → x < a + n → ∃ f ∈ es, f.Holds x := by
    intro x h₁ h₂
    refine cover_pos.mp ?_
    rw [h, if_pos ⟨h₁, h₂⟩]
    exact Nat.one_pos
  cases es with
  | nil =>
    obtain ⟨f, hf, -⟩ := hheld a (le_refl _) (by omega)
    exact absurd hf List.not_mem_nil
  | cons e es =>
    have hafter : ∀ f ∈ es, e.1 + e.2 < f.1 := (List.pairwise_cons.mp hgap).1
    have he := hpos e List.mem_cons_self
    have hfirst := hin e List.mem_cons_self e.1 ⟨le_refl _, by omega⟩
    have hlast := hin e List.mem_cons_self (e.1 + e.2 - 1) ⟨by omega, by omega⟩
    have hstart : e.1 = a := by
      obtain ⟨f, hf, hlow, -⟩ := hheld a (le_refl _) (by omega)
      rcases List.mem_cons.mp hf with rfl | hf'
      · omega
      · have := hafter f hf'
        omega
    -- what follows the first extent is in a gap, so there is nothing to follow
    have hend : e.2 = n := by
      by_contra hne
      obtain ⟨f, hf, hlow, hhigh⟩ := hheld (e.1 + e.2) (by omega) (by omega)
      rcases List.mem_cons.mp hf with rfl | hf'
      · omega
      · have := hafter f hf'
        omega
    have hnil : es = [] := by
      refine List.eq_nil_iff_forall_not_mem.mpr fun f hf => ?_
      have hlt := hafter f hf
      have hf₂ := hpos f (List.mem_cons_of_mem _ hf)
      have := hin f (List.mem_cons_of_mem _ hf) f.1 ⟨le_refl _, by omega⟩
      omega
    rw [hnil, ← hstart, ← hend]

/-- Counting address by address adds up to the total length. -/
theorem totalSize_eq_sum_cover {N : ℕ} (h : ∀ e ∈ es, e.1 + e.2 ≤ N) :
    totalSize es = ∑ x ∈ Finset.range N, cover es x := by
  induction es with
  | nil => simp
  | cons e es ih =>
    have he := h e (List.mem_cons_self ..)
    have hes := ih fun f hf => h f (List.mem_cons_of_mem _ hf)
    have hone : ∑ x ∈ Finset.range N, (if e.Holds x then 1 else 0) = e.2 := by
      rw [← Finset.sum_filter, Finset.sum_const, smul_eq_mul, mul_one]
      have : (Finset.range N).filter (fun x => e.Holds x) = Finset.Ico e.1 (e.1 + e.2) := by
        ext x
        rw [Finset.mem_filter, Finset.mem_range, Finset.mem_Ico, Extent.Holds]
        omega
      rw [this, Nat.card_Ico]
      omega
    simp only [cover_cons, totalSize_cons, Finset.sum_add_distrib, hone, ← hes]
    omega

/-- A list that holds no address from `N` on has all its non-empty extents end by
`N`. -/
theorem end_le_of_cover {N : ℕ} (h : ∀ x, 0 < cover es x → x < N) (he : e ∈ es)
    (hpos : 0 < e.2) : e.1 + e.2 ≤ N := by
  have hlast : e.Holds (e.1 + e.2 - 1) := ⟨by omega, by omega⟩
  have := h _ (cover_pos.mpr ⟨e, he, hlast⟩)
  omega

/-- Lists with the same counts have the same total length. -/
theorem totalSize_congr {N : ℕ} (hes : ∀ e ∈ es, e.1 + e.2 ≤ N) (hfs : ∀ e ∈ fs, e.1 + e.2 ≤ N)
    (h : ∀ x, cover es x = cover fs x) : totalSize es = totalSize fs := by
  rw [totalSize_eq_sum_cover hes, totalSize_eq_sum_cover hfs]
  exact Finset.sum_congr rfl fun x _ => h x

/-- Extents that never overlap, avoid `0` and end by `N` are shorter than `N`
together. -/
theorem totalSize_lt {N : ℕ} (hN : 0 < N) (h : ∀ e ∈ es, e.1 + e.2 ≤ N)
    (hone : ∀ x, cover es x ≤ 1) (hzero : cover es 0 = 0) : totalSize es < N := by
  obtain ⟨M, rfl⟩ : ∃ M, N = M + 1 := ⟨N - 1, by omega⟩
  rw [totalSize_eq_sum_cover h, Finset.sum_range_succ', hzero]
  have hle : ∑ x ∈ Finset.range M, cover es (x + 1) ≤ ∑ _x ∈ Finset.range M, 1 :=
    Finset.sum_le_sum fun x _ => hone (x + 1)
  simp only [Finset.sum_const, Finset.card_range, smul_eq_mul, mul_one] at hle
  omega

end BitThunder
