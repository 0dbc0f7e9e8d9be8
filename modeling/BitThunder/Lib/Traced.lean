import Mathlib.Data.List.Basic
import Mathlib.Tactic

/-!
# Computations that leave a trace

A `Traced ε α` has a value and the events on the way to it. What is asked of every event is asked of
the parts of a computation one by one: `All` has a rule for each way of building one.

* `all_bind`: one after the other;
* `all_loop`: a loop that always runs to its end;
* `all_find`: a loop that ends where it finds something.

The events are those that have happened, in their order, also in a loop that stops early: what it
would have done in later turns is not among them. So a condition on all events is weaker than one on
all indices, and the bound in `all_findFrom` says by how much.
-/

namespace BitThunder

universe u v

/-- A value, and the events on the way -/
structure Traced (ε : Type u) (α : Type v) : Type (max u v) where
  val : α
  events : List ε

namespace Traced

variable {ε : Type} {α β : Type}

instance : Monad (Traced ε) where
  pure a := ⟨a, []⟩
  bind x f := ⟨(f x.val).val, x.events ++ (f x.val).events⟩

/-- One event -/
def emit (e : ε) : Traced ε Unit := ⟨(), [e]⟩

/-- `for (i = start; i < start + n; ++i) a = f(i, a);` -/
def loopFrom (f : ℕ → α → Traced ε α) : ℕ → ℕ → α → Traced ε α
  | _, 0, a => pure a
  | i, n + 1, a => do
    let a ← f i a
    loopFrom f (i + 1) n a

/-- `for (i = 0; i < n; ++i) a = f(i, a);` -/
def loop (n : ℕ) (f : ℕ → α → Traced ε α) (a : α) : Traced ε α := loopFrom f 0 n a

/-- `for (i = start; i < start + n; ++i) if (p(i)) return i;` -/
def findFrom (p : ℕ → Traced ε Bool) : ℕ → ℕ → Traced ε (Option ℕ)
  | _, 0 => pure none
  | i, n + 1 => do
    if ← p i then return some i
    findFrom p (i + 1) n

/-- `for (i = 0; i < n; ++i) if (p(i)) return i;` -/
def find (n : ℕ) (p : ℕ → Traced ε Bool) : Traced ε (Option ℕ) := findFrom p 0 n

/-- Every event is as asked. -/
def All (x : Traced ε α) (P : ε → Prop) : Prop := ∀ e ∈ x.events, P e

variable {x : Traced ε α} {P : ε → Prop} {Q : ℕ → Prop}

@[simp] theorem val_pure {a : α} : (pure a : Traced ε α).val = a := rfl

@[simp] theorem val_bind {f : α → Traced ε β} : (x >>= f).val = (f x.val).val := rfl

@[simp] theorem events_pure {a : α} : (pure a : Traced ε α).events = [] := rfl

/-- The events of a sequence are those of both parts. -/
@[simp] theorem events_bind {f : α → Traced ε β} :
    (x >>= f).events = x.events ++ (f x.val).events := rfl

@[simp] theorem all_pure {a : α} : (pure a : Traced ε α).All P :=
  fun _ h => absurd h List.not_mem_nil

@[simp] theorem all_emit {e : ε} : (emit e).All P ↔ P e := List.forall_mem_singleton

/-- All events of a sequence are as asked if those of both parts are. -/
@[simp] theorem all_bind {f : α → Traced ε β} : (x >>= f).All P ↔ x.All P ∧ (f x.val).All P :=
  List.forall_mem_append

@[simp] theorem all_ite {c : Prop} [Decidable c] {y : Traced ε α} :
    (if c then x else y).All P ↔ (c → x.All P) ∧ (¬c → y.All P) := by
  by_cases hc : c <;> simp [hc]

@[simp] theorem val_ite {c : Prop} [Decidable c] {y : Traced ε α} :
    (if c then x else y).val = if c then x.val else y.val :=
  apply_ite Traced.val c x y

/-- A loop is as asked if each of its turns is. -/
theorem all_loopFrom {f : ℕ → α → Traced ε α} (h : ∀ i a, (f i a).All P ↔ Q i) (i n : ℕ) (a : α) :
    (loopFrom f i n a).All P ↔ ∀ k < n, Q (i + k) := by
  induction n generalizing i a with
  | zero => exact iff_of_true all_pure fun k hk => absurd hk (Nat.not_lt_zero k)
  | succ n ih =>
    have hshift : ∀ k, i + 1 + k = i + (k + 1) := fun k => by omega
    simp only [loopFrom, all_bind, h, ih, hshift]
    constructor
    · rintro ⟨hfirst, hrest⟩ k hk
      cases k with
      | zero => exact hfirst
      | succ k => exact hrest k (Nat.lt_of_succ_lt_succ hk)
    · intro hall
      exact ⟨hall 0 (Nat.succ_pos n), fun k hk => hall (k + 1) (Nat.succ_lt_succ hk)⟩

/-- The events of a loop that runs to its end -/
theorem all_loop {f : ℕ → α → Traced ε α} (h : ∀ i a, (f i a).All P ↔ Q i) (n : ℕ) (a : α) :
    (loop n f a).All P ↔ ∀ i < n, Q i := by
  have := all_loopFrom h 0 n a
  simp only [Nat.zero_add] at this
  exact this

/-- A search is as asked if it is up to where it finds something. -/
theorem all_findFrom {p : ℕ → Traced ε Bool} (i n : ℕ) :
    (findFrom p i n).All P ↔ ∀ k < n, (∀ j < k, (p (i + j)).val = false) → (p (i + k)).All P := by
  induction n generalizing i with
  | zero => exact iff_of_true all_pure fun k hk => absurd hk (Nat.not_lt_zero k)
  | succ n ih =>
    have hshift : ∀ k, i + 1 + k = i + (k + 1) := fun k => by omega
    simp only [findFrom, all_bind, all_ite, all_pure, ih, hshift]
    constructor
    · rintro ⟨hfirst, -, hrest⟩ k hk hnone
      cases k with
      | zero => exact hfirst
      | succ k =>
        have h₀ : (p i).val = false := hnone 0 (Nat.succ_pos k)
        exact hrest
          (by simp [h₀]) k (Nat.lt_of_succ_lt_succ hk) fun j hj => hnone (j + 1)
          (Nat.succ_lt_succ hj)
    · intro hall
      refine ⟨hall 0 (Nat.succ_pos n) fun j hj => absurd hj (Nat.not_lt_zero j), fun _ => trivial,
        fun h₀ k hk hnone => ?_⟩
      refine hall (k + 1) (Nat.succ_lt_succ hk) fun j hj => ?_
      cases j with
      | zero => simpa using h₀
      | succ j => exact hnone j (Nat.lt_of_succ_lt_succ hj)

/-- The events of a loop that ends where it finds something -/
theorem all_find {p : ℕ → Traced ε Bool} (n : ℕ) :
    (find n p).All P ↔ ∀ k < n, (∀ j < k, (p j).val = false) → (p k).All P := by
  have := all_findFrom (P := P) (p := p) 0 n
  simp only [Nat.zero_add] at this
  exact this

theorem findFrom_eq_some {p : ℕ → Traced ε Bool} {i n r : ℕ} : (findFrom p i n).val = some r ↔
    ∃ k < n, r = i + k ∧ (p (i + k)).val = true ∧ ∀ j < k, (p (i + j)).val = false := by
  induction n generalizing i with
  | zero => exact iff_of_false nofun fun ⟨k, hk, _⟩ => absurd hk (Nat.not_lt_zero k)
  | succ n ih =>
    have hshift : ∀ k, i + 1 + k = i + (k + 1) := fun k => by omega
    simp only [findFrom, val_bind, val_ite, val_pure]
    by_cases h₀ : (p i).val = true
    · rw [if_pos h₀]
      constructor
      · intro h
        exact ⟨0, Nat.succ_pos n, (Option.some.inj h).symm, h₀,
          fun j hj => absurd hj (Nat.not_lt_zero j)⟩
      · rintro ⟨k, hk, rfl, -, hnone⟩
        cases k with
        | zero => rfl
        | succ k => exact absurd (h₀.symm.trans (hnone 0 (Nat.succ_pos k))) (by decide)
    · rw [if_neg h₀, ih]
      simp only [hshift]
      constructor
      · rintro ⟨k, hk, rfl, htrue, hnone⟩
        refine ⟨k + 1, Nat.succ_lt_succ hk, rfl, htrue, fun j hj => ?_⟩
        cases j with
        | zero => simpa using h₀
        | succ j => exact hnone j (Nat.lt_of_succ_lt_succ hj)
      · rintro ⟨k, hk, rfl, htrue, hnone⟩
        cases k with
        | zero => exact absurd htrue h₀
        | succ k =>
          exact ⟨k, Nat.lt_of_succ_lt_succ hk, rfl, htrue,
            fun j hj => hnone (j + 1) (Nat.succ_lt_succ hj)⟩

/-- The first one that the loop finds -/
theorem find_eq_some {p : ℕ → Traced ε Bool} {n r : ℕ} :
    (find n p).val = some r ↔ r < n ∧ (p r).val = true ∧ ∀ j < r, (p j).val = false := by
  rw [find, findFrom_eq_some]
  simp only [Nat.zero_add]
  constructor
  · rintro ⟨k, hk, rfl, h⟩
    exact ⟨hk, h⟩
  · rintro ⟨hr, h⟩
    exact ⟨r, hr, rfl, h⟩

/-- The loop finds nothing. -/
theorem find_eq_none {p : ℕ → Traced ε Bool} {n : ℕ} :
    (find n p).val = none ↔ ∀ k < n, (p k).val = false := by
  have hfrom : ∀ i, (findFrom p i n).val = none ↔ ∀ k < n, (p (i + k)).val = false := by
    induction n with
    | zero => exact fun i => iff_of_true rfl fun k hk => absurd hk (Nat.not_lt_zero k)
    | succ n ih =>
      intro i
      have hshift : ∀ k, i + 1 + k = i + (k + 1) := fun k => by omega
      simp only [findFrom, val_bind, val_ite, val_pure]
      by_cases h₀ : (p i).val = true
      · rw [if_pos h₀]
        exact iff_of_false nofun fun h => absurd (h₀.symm.trans (h 0 (Nat.succ_pos n))) (by decide)
      · rw [if_neg h₀, ih]
        simp only [hshift]
        constructor
        · intro h k hk
          cases k with
          | zero => simpa using h₀
          | succ k => exact h k (Nat.lt_of_succ_lt_succ hk)
        · exact fun h k hk => h (k + 1) (Nat.succ_lt_succ hk)
  have := hfrom 0
  simp only [Nat.zero_add] at this
  exact this

end Traced

end BitThunder
