import Mathlib.Data.List.Basic
import Mathlib.Tactic

/-!
# Lists in groups

A list that arrives in pieces and is passed on in groups of `k`: `mapGroups k f n` maps the first
`n` groups, `whole k f` all the groups that are there, and `left k` is the rest that has to wait for
the next piece.

* `whole_append`, `left_append`: what has waited goes in front of the next piece.
-/

namespace BitThunder

variable {α : Type} {k : ℕ} {f : List α → List α}

/-- Map the first `n` groups of `k` entries. -/
def mapGroups (k : ℕ) (f : List α → List α) : ℕ → List α → List α
  | 0, _ => []
  | n + 1, xs => f (xs.take k) ++ mapGroups k f n (xs.drop k)

/-- Map all groups of `k` entries, without those at the end that do not make a group. -/
def whole (k : ℕ) (f : List α → List α) (xs : List α) : List α := mapGroups k f (xs.length / k) xs

/-- The entries at the end that do not make a group. -/
def left (k : ℕ) (xs : List α) : List α := xs.drop (xs.length / k * k)

/-- Groups are mapped one after the other, so that a list may be cut between two of them. -/
theorem mapGroups_append (f : List α → List α) (n : ℕ) (ys : List α) :
    ∀ (m : ℕ) (xs : List α), xs.length = m * k →
      mapGroups k f (m + n) (xs ++ ys) = mapGroups k f m xs ++ mapGroups k f n ys
  | 0, xs, h => by
    obtain rfl := List.eq_nil_of_length_eq_zero (h.trans (Nat.zero_mul k))
    rw [Nat.zero_add]
    rfl
  | m + 1, xs, h => by
    have hk : k ≤ xs.length := h.symm ▸ Nat.le_mul_of_pos_left k (Nat.succ_pos m)
    have hdrop : (xs.drop k).length = m * k := by
      rw [List.length_drop, h, Nat.succ_mul, Nat.add_sub_cancel]
    rw [Nat.succ_add, mapGroups, mapGroups, List.take_append_of_le_length hk,
      List.drop_append_of_le_length hk, mapGroups_append f n ys m _ hdrop, List.append_assoc]

/-- Groups that are left as they are -/
theorem mapGroups_id : ∀ (n : ℕ) (xs : List α), mapGroups k id n xs = xs.take (n * k)
  | 0, xs => by
    rw [Nat.zero_mul]
    rfl
  | n + 1, xs => by
    rw [mapGroups, mapGroups_id n, id, Nat.succ_mul, Nat.add_comm, List.take_add]

/-- The groups do not look behind themselves. -/
theorem mapGroups_take (f : List α → List α) :
    ∀ (n : ℕ) (xs : List α) (m : ℕ), n * k ≤ m → mapGroups k f n (xs.take m) = mapGroups k f n xs
  | 0, _, _, _ => rfl
  | n + 1, xs, m, h => by
    rw [Nat.succ_mul] at h
    have hk : min k m = k := Nat.min_eq_left (by omega)
    rw [mapGroups, mapGroups, List.take_take, hk, List.drop_take, mapGroups_take f n _ _ (by omega)]

/-- If groups keep their length, so do all of them together. -/
theorem length_mapGroups (hf : ∀ g, (f g).length = g.length) :
    ∀ (n : ℕ) (xs : List α), n * k ≤ xs.length → (mapGroups k f n xs).length = n * k
  | 0, _, _ => (Nat.zero_mul k).symm
  | n + 1, xs, h => by
    rw [Nat.succ_mul] at h ⊢
    have hdrop : n * k ≤ (xs.drop k).length := by
      rw [List.length_drop]
      omega
    rw [mapGroups, List.length_append, hf, length_mapGroups hf n _ hdrop, List.length_take]
    omega

/-- The whole groups are as long as they were. -/
theorem length_whole (hf : ∀ g, (f g).length = g.length) (xs : List α) :
    (whole k f xs).length = xs.length / k * k :=
  length_mapGroups hf _ xs (Nat.div_mul_le_self _ _)

theorem length_left (xs : List α) : (left k xs).length = xs.length % k := by
  rw [left, List.length_drop]
  have := Nat.div_add_mod' xs.length k
  omega

/-- The whole groups and what is left are the list. -/
theorem take_append_left (k : ℕ) (xs : List α) : xs.take (xs.length / k * k) ++ left k xs = xs :=
  List.take_append_drop _ _

/-- The groups of a list that goes on: those that were there, and those of what has waited and what
is new. -/
theorem whole_append (hk : 0 < k) (f : List α → List α) (xs ys : List α) :
    whole k f (xs ++ ys) = whole k f xs ++ whole k f (left k xs ++ ys) := by
  have hlen : (xs.take (xs.length / k * k)).length = xs.length / k * k := by
    rw [List.length_take]
    exact Nat.min_eq_left (Nat.div_mul_le_self _ _)
  have hcount : (xs ++ ys).length / k = xs.length / k + (left k xs ++ ys).length / k := by
    have hxs := Nat.div_add_mod' xs.length k
    rw [List.length_append, List.length_append, length_left, ← Nat.mul_add_div hk, Nat.mul_comm,
      ← Nat.add_assoc, hxs]
  have hsplit : xs ++ ys = xs.take (xs.length / k * k) ++ (left k xs ++ ys) := by
    rw [← List.append_assoc, take_append_left]
  rw [whole, hcount, hsplit, mapGroups_append f _ _ _ _ hlen,
    mapGroups_take f _ _ _ (Nat.le_refl _)]
  rfl

/-- What is left of the first list may be taken along to the next. -/
theorem left_append (hk : 0 < k) (xs ys : List α) :
    left k (xs ++ ys) = left k (left k xs ++ ys) := by
  have hxs := Nat.div_add_mod' xs.length k
  have hcount : (xs ++ ys).length / k * k = xs.length / k * k + (left k xs ++ ys).length / k *
      k := by
    rw [← Nat.add_mul, List.length_append, List.length_append, length_left, ← Nat.mul_add_div hk,
      Nat.mul_comm k, ← Nat.add_assoc, hxs]
  have hlen : (xs.take (xs.length / k * k)).length = xs.length / k * k := by
    rw [List.length_take]
    exact Nat.min_eq_left (Nat.div_mul_le_self _ _)
  have hsplit : xs ++ ys = xs.take (xs.length / k * k) ++ (left k xs ++ ys) := by
    rw [← List.append_assoc, take_append_left]
  rw [left, hcount, hsplit, ← List.drop_drop]
  nth_rewrite 1 [← hlen]
  rw [List.drop_left]
  rfl

end BitThunder
