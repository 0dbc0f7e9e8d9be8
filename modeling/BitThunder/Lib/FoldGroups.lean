import BitThunder.Lib.Groups

/-!
# Folding a list in groups

A state that takes in a list in groups of `k` entries: `foldWhole k f s xs` is the state after all
the groups that are there, and `left k xs` is what waits for more.

* `foldWhole_append`: what has waited goes in front of what is new;
* `foldWhole_short`, `foldWhole_group`: nothing happens up to a whole group, and then one step.
-/

namespace BitThunder

variable {α σ : Type} {k : ℕ} {f : σ → List α → σ}

/-- Take in the first `n` groups of `k` entries. -/
def foldGroups (k : ℕ) (f : σ → List α → σ) : ℕ → σ → List α → σ
  | 0, s, _ => s
  | n + 1, s, xs => foldGroups k f n (f s (xs.take k)) (xs.drop k)

/-- Take in all groups of `k` entries, without those at the end that do not make a group. -/
def foldWhole (k : ℕ) (f : σ → List α → σ) (s : σ) (xs : List α) : σ :=
  foldGroups k f (xs.length / k) s xs

/-- Nothing happens before a group is complete. -/
theorem foldWhole_short {xs : List α} (h : xs.length < k) (s : σ) : foldWhole k f s xs = s := by
  rw [foldWhole, Nat.div_eq_of_lt h]
  rfl

/-- The first group, and then the others -/
theorem foldWhole_group (hk : 0 < k) {xs : List α} (h : k ≤ xs.length) (s : σ) :
    foldWhole k f s xs = foldWhole k f (f s (xs.take k)) (xs.drop k) := by
  have hcount : xs.length / k = (xs.drop k).length / k + 1 := by
    rw [List.length_drop, Nat.div_eq_sub_div hk h]
  rw [foldWhole, hcount]
  rfl

/-- A list that is one group -/
theorem foldWhole_one (hk : 0 < k) {xs : List α} (h : xs.length = k) (s : σ) :
    foldWhole k f s xs = f s xs := by
  rw [foldWhole_group hk h.ge, List.take_of_length_le h.le, List.drop_of_length_le h.le,
    foldWhole_short hk]

/-- What is left of a list that is not a whole group -/
theorem left_short {xs : List α} (h : xs.length < k) : left k xs = xs := by
  rw [left, Nat.div_eq_of_lt h, Nat.zero_mul]
  rfl

/-- The first group does not change what is left. -/
theorem left_group (hk : 0 < k) {xs : List α} (h : k ≤ xs.length) :
    left k xs = left k (xs.drop k) := by
  have hmul : xs.length / k * k = k + (xs.length - k) / k * k := by
    rw [Nat.div_eq_sub_div hk h, Nat.succ_mul, Nat.add_comm]
  rw [left, left, List.length_drop, List.drop_drop, hmul]

/-- The groups of a list that goes on: those that were there, and those of what has waited and what
is new. -/
theorem foldWhole_append (hk : 0 < k) (xs ys : List α) (s : σ) :
    foldWhole k f s (xs ++ ys) = foldWhole k f (foldWhole k f s xs) (left k xs ++ ys) := by
  induction hlen : xs.length using Nat.strong_induction_on generalizing xs s with
  | _ n ih =>
    by_cases hshort : xs.length < k
    · rw [foldWhole_short hshort, left_short hshort]
    · have hgroup : k ≤ xs.length := not_lt.mp hshort
      have hdrop : (xs.drop k).length < n := by
        rw [List.length_drop]
        omega
      have hall : k ≤ (xs ++ ys).length := by
        rw [List.length_append]
        omega
      rw [foldWhole_group hk hall, List.take_append_of_le_length hgroup,
        List.drop_append_of_le_length hgroup, ih _ hdrop _ _ rfl, ← foldWhole_group hk hgroup,
        ← left_group hk hgroup]

end BitThunder
