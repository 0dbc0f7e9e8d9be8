import Mathlib.Data.List.Basic
import Mathlib.Logic.Function.Basic
import Mathlib.Tactic

/-!
# A window on a stream

A circular buffer of `size` slots, seen as a window on the stream of all that was ever put into it.
The entry at position `j` of the stream has the slot `j % size`; the entries from `lo` on are still
there. Two positions less than `size` apart have different slots, so a new entry spares the window
as long as it is not full.

* `Window.push`, `Window.pop`: the two ends;
* `mod_succ_wrap`, `add_mod_wrap`: the slots that follow, as code computes them;
* `mod_eq_iff_full`: when the slot that follows the last one is the first.

The stream is not bounded and only grows, and neither are its positions, while the slots are used
again and again. A position says which entry is meant and the slot only where it is; two entries are
in each other's way if their positions differ by a multiple of the size, and the window is never
long enough for that.
-/

namespace BitThunder

universe u

variable {α : Type u} {size : ℕ}

/-- The entries of the stream `xs` from `lo` on are in the slots of `buffer`. -/
structure Window (size : ℕ) (buffer : ℕ → α) (xs : List α) (lo : ℕ) : Prop where
  /-- what has been taken out was put in before -/
  le : lo ≤ xs.length
  /-- the window is no longer than the buffer -/
  fits : xs.length ≤ lo + size
  /-- each entry of the window is in its slot -/
  slot : ∀ j x, lo ≤ j → xs[j]? = some x → buffer (j % size) = x

/-- Positions in the same slot are the same or at least `size` apart. -/
theorem mod_ne_of_lt {i j : ℕ} (hlt : i < j) (hnear : j < i + size) : i % size ≠ j % size := by
  intro heq
  obtain ⟨k, hk⟩ := (Nat.modEq_iff_dvd' hlt.le).mp heq
  have hpos : k ≠ 0 := by
    rintro rfl
    omega
  have hle : size ≤ size * k := Nat.le_mul_of_pos_right size (Nat.pos_of_ne_zero hpos)
  omega

/-- The next slot, with the wrap at the end of the buffer. -/
theorem mod_succ_wrap (hsize : 0 < size) (n : ℕ) :
    (if size - 1 < n % size + 1 then 0 else n % size + 1) = (n + 1) % size := by
  have hlt := Nat.mod_lt n hsize
  split_ifs with hlast
  · have hdvd : n + 1 = size * (n / size + 1) := by
      rw [Nat.mul_add, Nat.mul_one]
      have := Nat.div_add_mod n size
      omega
    rw [hdvd, Nat.mul_mod_right]
  · rw [← Nat.mod_eq_of_lt (by omega : n % size + 1 < size), Nat.mod_add_mod]

/-- The slot of a position that is less than a round away. -/
theorem add_mod_wrap {k : ℕ} (hk : k < size) (n : ℕ) :
    (n + k) % size = if n % size + k < size then n % size + k else n % size + k - size := by
  have hlt := Nat.mod_lt n (by omega : 0 < size)
  rw [← Nat.mod_add_mod]
  split_ifs with hin
  · exact Nat.mod_eq_of_lt hin
  · rw [Nat.mod_eq_sub_mod (not_lt.mp hin), Nat.mod_eq_of_lt (by omega)]

/-- The next slot is free unless the window takes up the buffer. -/
theorem mod_eq_iff_full {lo hi : ℕ} (hlt : lo < hi) (hle : hi ≤ lo + size) :
    hi % size = lo % size ↔ hi = lo + size := by
  constructor
  · intro heq
    by_contra hne
    exact mod_ne_of_lt hlt (by omega) heq.symm
  · rintro rfl
    exact Nat.add_mod_right lo size

namespace Window

variable {buffer : ℕ → α} {xs : List α} {lo : ℕ}

/-- A value goes to the slot behind the last one, if there is room. -/
theorem push (w : Window size buffer xs lo) (hroom : xs.length < lo + size) (x : α) :
    Window size (Function.update buffer (xs.length % size) x) (xs ++ [x]) lo := by
  refine ⟨?_, ?_, ?_⟩
  · rw [List.length_append]
    exact w.le.trans (Nat.le_add_right _ _)
  · rw [List.length_append, List.length_singleton]
    omega
  · intro j y hlo hj
    by_cases hlast : j = xs.length
    · subst hlast
      rw [List.getElem?_concat_length, Option.some.injEq] at hj
      rw [Function.update_self, hj]
    · have hlt : j < xs.length := by
        have := (List.getElem?_eq_some_iff.mp hj).1
        rw [List.length_append, List.length_singleton] at this
        omega
      rw [List.getElem?_append_left hlt] at hj
      rw [Function.update_of_ne (mod_ne_of_lt hlt (by omega)), w.slot j y hlo hj]

/-- Only the slots of the entries count. -/
theorem congr_held {buffer' : ℕ → α} (w : Window size buffer xs lo)
    (h : ∀ j, lo ≤ j → j < xs.length → buffer' (j % size) = buffer (j % size)) :
    Window size buffer' xs lo := by
  refine ⟨w.le, w.fits, fun j x hlo hj => ?_⟩
  rw [h j hlo (List.getElem?_eq_some_iff.mp hj).1]
  exact w.slot j x hlo hj

/-- Only the slots count. -/
theorem congr {buffer' : ℕ → α} (w : Window size buffer xs lo)
    (h : ∀ d < size, buffer' d = buffer d) :
    Window size buffer' xs lo := by
  refine w.congr_held fun j hlo hj => h _ (Nat.mod_lt j ?_)
  have := w.fits
  omega

theorem pop (w : Window size buffer xs lo) (hlt : lo < xs.length) :
    Window size buffer xs (lo + 1) :=
  ⟨hlt, w.fits.trans (by omega), fun j x hlo => w.slot j x (by omega)⟩

/-- The first entry of the window. -/
theorem front (w : Window size buffer xs lo) (hlt : lo < xs.length) :
    xs[lo]? = some (buffer (lo % size)) := by
  rw [List.getElem?_eq_getElem hlt, w.slot lo _ le_rfl (List.getElem?_eq_getElem hlt)]

end Window

end BitThunder
