import BitThunder.Lib.Memory

/-!
# Strings in memory

A string in memory is the bytes up to the first zero. The functions of `<string.h>` work on the
memory from a pointer on; what they do is said of the text that it holds.

* `strlen_of_holds`: the length is that of the text;
* `strncmp_iff`: two memories that begin with texts of the same length compare equal if the texts
  are the same;
* `strncpy_holds`: what was copied is held.

A text is a list of bytes without a zero, and a memory is more than that: behind the zero there can
be anything, and what is there must not matter. So every statement is about texts that memories
hold, and no function on memories is compared with one on lists directly. The bound on the length
keeps the few bytes that a program adds to a text within a word.
-/

namespace BitThunder

/-- A text that a program can have in a memory of `2 ^ 32` bytes, together with a few bytes more -/
@[ext] structure CString : Type where
  chars : List UInt8
  noNul : 0 ∉ chars
  short : chars.length + 4 < 2 ^ 32
  deriving DecidableEq

namespace Memory

/-- The memory from a pointer to the text on -/
def ofText (l : List UInt8) : Memory := fun i => l.getD i 0

/-- `strlen`. In a memory of `2 ^ 32` bytes the search ends somewhere. -/
def strlenFrom : ℕ → Memory → ℕ
  | 0, _ => 0
  | fuel + 1, m => if m 0 = 0 then 0 else strlenFrom fuel (m.advance 1) + 1

@[inherit_doc strlenFrom] def strlen (m : Memory) : ℕ := strlenFrom (2 ^ 32) m

/-- Whether `strncmp` finds no difference. -/
def strncmp : ℕ → Memory → Memory → Bool
  | 0, _, _ => true
  | n + 1, a, b => if a 0 ≠ b 0 then false else if a 0 = 0 then true
    else strncmp n (a.advance 1) (b.advance 1)

/-- `strncpy` fills up with zeros. -/
def strncpy (dst src : Memory) (n : ℕ) : Memory := fun i =>
  if i < n then if (List.range i).any fun j => src j = 0 then 0 else src i else dst i

/-- The memory begins with the text. -/
def Begins (m : Memory) (l : List UInt8) : Prop := ∀ i (h : i < l.length), m i = l[i]

/-- The memory holds the text and the zero behind it. -/
def HoldsText (m : Memory) (l : List UInt8) : Prop := m.Begins l ∧ m l.length = 0

variable {m m' : Memory} {l l' : List UInt8} {c : UInt8} {n : ℕ}

theorem begins_cons : m.Begins (c :: l) ↔ m 0 = c ∧ (m.advance 1).Begins l := by
  constructor
  · intro h
    exact ⟨h 0 (Nat.succ_pos _), fun i hi => h (i + 1) (Nat.succ_lt_succ hi)⟩
  · rintro ⟨h₀, h⟩ i hi
    cases i with
    | zero => exact h₀
    | succ i => exact h i (Nat.lt_of_succ_lt_succ hi)

theorem holdsText_nil : m.HoldsText [] ↔ m 0 = 0 :=
  ⟨fun h => h.2, fun h => ⟨fun _ hi => absurd hi (Nat.not_lt_zero _), h⟩⟩

theorem holdsText_cons : m.HoldsText (c :: l) ↔ m 0 = c ∧ (m.advance 1).HoldsText l := by
  unfold HoldsText
  rw [begins_cons, and_assoc]
  rfl

/-- The search for the terminator comes to it if it may look that far. -/
theorem strlenFrom_of_holds {fuel : ℕ} (hnul : 0 ∉ l) (hlt : l.length < fuel) (h : m.HoldsText l) :
    m.strlenFrom fuel = l.length := by
  induction l generalizing m fuel with
  | nil =>
    obtain ⟨fuel, rfl⟩ := Nat.exists_eq_succ_of_ne_zero (Nat.ne_of_gt hlt)
    rw [strlenFrom, if_pos (holdsText_nil.mp h)]
    rfl
  | cons c l ih =>
    obtain ⟨fuel, rfl⟩ := Nat.exists_eq_succ_of_ne_zero (Nat.ne_of_gt (Nat.zero_lt_of_lt hlt))
    obtain ⟨h₀, hrest⟩ := holdsText_cons.mp h
    have hc : m 0 ≠ 0 := fun h => hnul (by rw [← h₀, h]; exact List.mem_cons_self)
    rw [strlenFrom, if_neg hc, ih (fun h => hnul (List.mem_cons_of_mem _ h))
      (by simpa using hlt) hrest]
    rfl

theorem strlen_of_holds (hnul : 0 ∉ l) (hlt : l.length < 2 ^ 32) (h : m.HoldsText l) :
    m.strlen = l.length :=
  strlenFrom_of_holds hnul hlt h

/-- A memory holds one text. -/
theorem holdsText_unique (hnul : 0 ∉ l) (hnul' : 0 ∉ l') (h : m.HoldsText l) (h' : m.HoldsText l') :
    l = l' := by
  induction l generalizing m l' with
  | nil =>
    cases l' with
    | nil => rfl
    | cons c' l' =>
      have hc' : c' = 0 := (holdsText_cons.mp h').1.symm.trans (holdsText_nil.mp h)
      exact absurd (hc' ▸ List.mem_cons_self) hnul'
  | cons c l ih =>
    obtain ⟨h₀, hrest⟩ := holdsText_cons.mp h
    cases l' with
    | nil =>
      have hc : c = 0 := h₀.symm.trans (holdsText_nil.mp h')
      exact absurd (hc ▸ List.mem_cons_self) hnul
    | cons c' l' =>
      obtain ⟨h₀', hrest'⟩ := holdsText_cons.mp h'
      rw [ih (fun hm => hnul (List.mem_cons_of_mem _ hm))
        (fun hm => hnul' (List.mem_cons_of_mem _ hm)) hrest hrest',
        ← h₀, ← h₀']

/-- Texts of the same length compare equal only if they are the same. -/
theorem strncmp_iff (hnul : 0 ∉ l) (hlen : l.length = l'.length) (h : m.Begins l)
    (h' : m'.Begins l') :
    strncmp l.length m m' = true ↔ l = l' := by
  induction l generalizing m m' l' with
  | nil =>
    obtain rfl := List.eq_nil_of_length_eq_zero hlen.symm
    exact iff_of_true rfl rfl
  | cons c l ih =>
    cases l' with
    | nil => exact absurd hlen (by simp)
    | cons c' l' =>
      obtain ⟨h₀, hrest⟩ := begins_cons.mp h
      obtain ⟨h₀', hrest'⟩ := begins_cons.mp h'
      have hc : c ≠ 0 := fun h => hnul (h ▸ List.mem_cons_self)
      have hih := ih (fun h => hnul (List.mem_cons_of_mem _ h)) (Nat.succ.inj hlen) hrest hrest'
      rw [List.length_cons, strncmp, h₀, h₀', List.cons.injEq]
      by_cases heq : c = c'
      · rw [if_neg (not_not.mpr heq), if_neg hc, hih, and_iff_right heq]
      · rw [if_pos heq]
        exact iff_of_false Bool.false_ne_true fun h => heq h.1

/-- A text that is shorter than the bound is copied with its terminator. -/
theorem strncpy_holds {dst src : Memory} (hnul : 0 ∉ l) (hlt : l.length < n) (h : src.HoldsText l) :
    (strncpy dst src n).HoldsText l := by
  have hnone : ∀ i ≤ l.length, ((List.range i).any fun j => src j = 0) = false := by
    intro i hi
    refine List.any_eq_false.mpr fun j hj hzero => ?_
    have hjl : j < l.length := (List.mem_range.mp hj).trans_le hi
    rw [decide_eq_true_eq, h.1 j hjl] at hzero
    exact hnul (hzero ▸ List.getElem_mem hjl)
  constructor
  · intro i hi
    rw [strncpy, if_pos (hi.trans hlt), hnone i hi.le]
    exact h.1 i hi
  · rw [strncpy, if_pos hlt, hnone _ le_rfl]
    exact h.2

theorem ofText_holds (l : List UInt8) : (ofText l).HoldsText l := by
  constructor
  · intro i hi
    exact List.getD_eq_getElem _ _ hi
  · exact List.getD_eq_default _ _ le_rfl

end Memory

end BitThunder
