import Mathlib.Data.List.GetD
import Mathlib.Tactic

/-!
# Byte memory

A memory is a byte for every address. 32-bit words are stored with the least
significant byte first, at any address: two words only interfere if their bytes
overlap. On top of it, lists that run through the memory: the word at each member is
the address of the next one, and `0` ends the list.

Addresses are natural numbers and do not come to an end; a program whose addresses are words has to
say where it stays below theirs. Two rules are enough for most of what is proved: a load of what was
stored, and a load beside it.
-/

namespace BitThunder

/-- A byte for every address. -/
def Memory : Type := ℕ → UInt8

namespace Memory

/-- The word at `a`. -/
def load (m : Memory) (a : ℕ) : ℕ :=
  (m a).toNat + 2 ^ 8 * (m (a + 1)).toNat + 2 ^ 16 * (m (a + 2)).toNat +
    2 ^ 24 * (m (a + 3)).toNat

/-- Write the word `w` at `a`. -/
def store (m : Memory) (a w : ℕ) : Memory := fun x =>
  if a ≤ x ∧ x < a + 4 then UInt8.ofNat (w / 2 ^ (8 * (x - a))) else m x

/-- Copy `n` bytes, as they were before, from `src` to `dst`. -/
def copy (m : Memory) (dst src n : ℕ) : Memory := fun x =>
  if dst ≤ x ∧ x < dst + n then m (src + (x - dst)) else m x

/-- Write the first `n` bytes of `src` at `a`. -/
def overlay (m : Memory) (a n : ℕ) (src : Memory) : Memory := fun x =>
  if a ≤ x ∧ x < a + n then src (x - a) else m x

/-- The bytes from the address `n` on. -/
def advance (m : Memory) (n : ℕ) : Memory := fun x => m (x + n)

variable {m m' : Memory} {a b n w x : ℕ}

theorem load_lt (m : Memory) (a : ℕ) : m.load a < 2 ^ 32 := by
  have h₀ := (m a).toNat_lt
  have h₁ := (m (a + 1)).toNat_lt
  have h₂ := (m (a + 2)).toNat_lt
  have h₃ := (m (a + 3)).toNat_lt
  unfold load
  omega

/-- A word depends on its four bytes. -/
theorem load_congr (h : ∀ x, a ≤ x → x < a + 4 → m' x = m x) : m'.load a = m.load a := by
  unfold load
  rw [h a (le_refl _) (by omega), h (a + 1) (by omega) (by omega), h (a + 2) (by omega) (by omega),
    h (a + 3) (by omega) (by omega)]

theorem store_of_out (h : x < a ∨ a + 4 ≤ x) : m.store a w x = m x := by
  rw [store, if_neg (by omega)]

/-- The bytes of a word are stored from the lowest on. -/
theorem store_byte (i : ℕ) (hi : i < 4) :
    (m.store a w (a + i)).toNat = w / 2 ^ (8 * i) % 2 ^ 8 := by
  rw [store, if_pos (by omega), Nat.add_sub_cancel_left]
  exact UInt8.toNat_ofNat'

/-- What was stored is there. -/
theorem load_store (hw : w < 2 ^ 32) : (m.store a w).load a = w := by
  have h₀ := store_byte (m := m) (a := a) (w := w) 0 (by decide)
  have h₁ := store_byte (m := m) (a := a) (w := w) 1 (by decide)
  have h₂ := store_byte (m := m) (a := a) (w := w) 2 (by decide)
  have h₃ := store_byte (m := m) (a := a) (w := w) 3 (by decide)
  rw [Nat.add_zero] at h₀
  rw [load, h₀, h₁, h₂, h₃]
  norm_num
  omega

/-- Storing a word leaves words beside it alone. -/
theorem load_store_of_out (h : b + 4 ≤ a ∨ a + 4 ≤ b) : (m.store a w).load b = m.load b :=
  load_congr fun _ _ _ => store_of_out (by omega)

theorem copy_of_out {dst src : ℕ} (h : x < dst ∨ dst + n ≤ x) : m.copy dst src n x = m x := by
  rw [copy, if_neg (by omega)]

theorem overlay_of_out {src : Memory} (h : x < a ∨ a + n ≤ x) : m.overlay a n src x = m x := by
  rw [overlay, if_neg (by omega)]

/-- The part that is laid over is the source's. -/
theorem overlay_of_in {src : Memory} (h : x < n) : m.overlay a n src (a + x) = src x := by
  rw [overlay, if_pos (by omega), Nat.add_sub_cancel_left]

theorem overlay_zero {src : Memory} : m.overlay a 0 src = m := by
  funext x
  exact overlay_of_out (by omega)

/-- A write to the same place leaves no trace of the one before. -/
theorem overlay_same {f g : Memory} : (m.overlay a n f).overlay a n g = m.overlay a n g := by
  funext x
  unfold overlay
  split_ifs
  · rfl
  · rfl

/-- Two writes in a row are one. -/
theorem overlay_overlay {src : Memory} {k : ℕ} :
    (m.overlay a n src).overlay (a + n) k (src.advance n) = m.overlay a (n + k) src := by
  funext x
  unfold overlay advance
  by_cases h₁ : a + n ≤ x ∧ x < a + n + k
  · rw [if_pos h₁, if_pos (by omega)]
    congr 1
    omega
  · rw [if_neg h₁]
    by_cases h₂ : a ≤ x ∧ x < a + n
    · rw [if_pos h₂, if_pos (by omega)]
    · rw [if_neg h₂, if_neg (by omega)]

/-! ## Lists of bytes -/

/-- The `n` bytes at `a`. -/
def bytes (m : Memory) (a n : ℕ) : List UInt8 := (List.range n).map fun i => m (a + i)

/-- Write some bytes at `a`. -/
def write (m : Memory) (a : ℕ) (bs : List UInt8) : Memory :=
  m.overlay a bs.length fun i => bs.getD i 0

theorem length_bytes (m : Memory) (a n : ℕ) : (m.bytes a n).length = n := by
  rw [bytes, List.length_map, List.length_range]

/-- Bytes are read off the memory they lie in. -/
theorem bytes_congr (h : ∀ i < n, m' (a + i) = m (a + i)) : m'.bytes a n = m.bytes a n :=
  List.map_congr_left fun i hi => h i (List.mem_range.mp hi)

/-- Some bytes and those behind them -/
theorem bytes_append (m : Memory) (a k n : ℕ) :
    m.bytes a (k + n) = m.bytes a k ++ m.bytes (a + k) n := by
  rw [bytes, List.range_add, List.map_append, List.map_map]
  congr 1
  refine List.map_congr_left fun i _ => ?_
  rw [Function.comp_apply, Nat.add_assoc]

theorem bytes_write_self (m : Memory) (a : ℕ) (bs : List UInt8) :
    (m.write a bs).bytes a bs.length = bs := by
  refine List.ext_getElem (length_bytes ..) fun i hi _ => ?_
  rw [length_bytes] at hi
  simp only [bytes, List.getElem_map, List.getElem_range]
  exact (overlay_of_in hi).trans (List.getD_eq_getElem _ _ hi)

/-- Bytes that lie apart from what was written are the same as before. -/
theorem bytes_write_of_out {bs : List UInt8} (h : b + n ≤ a ∨ a + bs.length ≤ b) :
    (m.write a bs).bytes b n = m.bytes b n :=
  bytes_congr fun _ _ => overlay_of_out (by omega)

/-! ## Lists that run through the memory -/

/-- From `p`, the list runs through the given addresses and ends. -/
def Threads (m : Memory) : ℕ → List ℕ → Prop
  | p, [] => p = 0
  | p, x :: xs => p = x ∧ x ≠ 0 ∧ Threads m (m.load x) xs

variable {p : ℕ} {xs ys : List ℕ}

/-- A chain of words is still there if its links are not written to. -/
theorem Threads.congr (h : m.Threads p xs) (hm : ∀ x ∈ xs, m'.load x = m.load x) :
    m'.Threads p xs := by
  induction xs generalizing p with
  | nil => exact h
  | cons x xs ih =>
    obtain ⟨hp, hx, ht⟩ := h
    refine ⟨hp, hx, ?_⟩
    rw [hm x List.mem_cons_self]
    exact ih ht fun y hy => hm y (List.mem_cons_of_mem _ hy)

end Memory

end BitThunder
