import Mathlib.Tactic

/-!
# Programs on a state

`Prog S α` is a sequential program that works on a state of type `S` and either
returns a value of type `α` or does not come back. Two judgments:

* `Ensures x s Q`: started in `s`, the program **returns**, and what it returns
  satisfies `Q` (total correctness);
* `Yields x s Q`: **if** it returns, the result satisfies `Q` (partial
  correctness).

Each has one rule for each way of building a program. Loops are recursive
definitions, so their rule is the induction principle of their own recursion.

A run that does not come back may go on for ever, wait for ever, or have come to an end that the
program has no word for. It gives no state back, so that nothing is said of what the state was
meanwhile; what is to be said of it has to be put into the state or into `α`.
-/

namespace BitThunder

variable {S α β : Type}

/-- A program on the state type `S`; `none` is a run that does not come back. -/
def Prog (S α : Type) : Type := S → Option (α × S)

namespace Prog

/-- Return a value, leave the state alone. -/
protected def pure (a : α) : Prog S α := fun s => some (a, s)

/-- Run `x`, then the program it selects, on the state `x` left behind. -/
protected def bind (x : Prog S α) (f : α → Prog S β) : Prog S β :=
  fun s => match x s with
    | none => none
    | some (a, s') => f a s'

instance : Monad (Prog S) where
  pure := Prog.pure
  bind := Prog.bind

/-- Look at the state. -/
def read (f : S → α) : Prog S α := fun s => some (f s, s)

/-- Change the state. -/
def update (f : S → S) : Prog S Unit := fun s => some ((), f s)

/-- Look at the state and change it in one go, as a call of a service does. -/
def service (f : S → α × S) : Prog S α := fun s => some (f s)

/-- A run that does not come back. -/
def stuck : Prog S α := fun _ => none

/-- `if (c) x;` -/
def when (c : Prop) [Decidable c] (x : Prog S Unit) : Prog S Unit := if c then x else pure ()

/-- A value another computation has already delivered, if it came back. -/
def ofOption (o : S → Option α) : Prog S α := fun s => (o s).map fun a => (a, s)

/-! ## Total correctness -/

/-- Started in `s`, the program returns and its result satisfies `Q`. -/
def Ensures (x : Prog S α) (s : S) (Q : α → S → Prop) : Prop :=
  ∃ a s', x s = some (a, s') ∧ Q a s'

variable {x : Prog S α} {s : S} {Q Q' : α → S → Prop} {R : β → S → Prop}

theorem Ensures.mono (h : Ensures x s Q) (hq : ∀ a s', Q a s' → Q' a s') : Ensures x s Q' := by
  obtain ⟨a, s', hx, hQ⟩ := h
  exact ⟨a, s', hx, hq a s' hQ⟩

/-- A program that returns meets its postcondition under the condition under which its result
does. -/
theorem Ensures.iff_of {c : Prop} (h : Ensures x s fun a s' => Q a s' ↔ c) : Ensures x s Q ↔ c := by
  obtain ⟨a, s', hx, hiff⟩ := h
  constructor
  · rintro ⟨b, t, hx', hQ⟩
    obtain ⟨rfl, rfl⟩ := Prod.mk.inj (Option.some.inj (hx.symm.trans hx'))
    exact hiff.mp hQ
  · exact fun hc => ⟨a, s', hx, hiff.mpr hc⟩

@[simp] theorem ensures_pure {a : α} : Ensures (pure a : Prog S α) s Q ↔ Q a s := by
  constructor
  · rintro ⟨a', s', h, hQ⟩
    cases h
    exact hQ
  · intro hQ
    exact ⟨a, s, rfl, hQ⟩

/-- What a sequence ensures is what its first part has to ensure for the rest. -/
@[simp] theorem ensures_bind {f : α → Prog S β} :
    Ensures (x >>= f) s R ↔ Ensures x s fun a s' => Ensures (f a) s' R := by
  constructor
  · rintro ⟨b, s₂, h, hR⟩
    change Prog.bind x f s = _ at h
    unfold Prog.bind at h
    split at h
    · cases h
    · rename_i a s₁ hx
      exact ⟨a, s₁, hx, b, s₂, h, hR⟩
  · rintro ⟨a, s₁, hx, b, s₂, hf, hR⟩
    refine ⟨b, s₂, ?_, hR⟩
    change Prog.bind x f s = _
    rw [Prog.bind, hx]
    exact hf

@[simp] theorem ensures_read {f : S → α} : Ensures (read f) s Q ↔ Q (f s) s := by
  simp [Ensures, read]

@[simp] theorem ensures_update {f : S → S} {Q : Unit → S → Prop} :
    Ensures (update f) s Q ↔ Q () (f s) := by
  constructor
  · rintro ⟨a, s', h, hQ⟩
    cases h
    exact hQ
  · intro hQ
    exact ⟨(), _, rfl, hQ⟩

/-- A service outside the program returns a result and changes the state. -/
@[simp] theorem ensures_service {f : S → α × S} :
    Ensures (service f) s Q ↔ Q (f s).1 (f s).2 := by
  constructor
  · rintro ⟨a, s', h, hQ⟩
    have he := Option.some.inj h
    rw [he]
    exact hQ
  · intro hQ
    exact ⟨_, _, rfl, hQ⟩

/-- A program that does not come back ensures nothing. -/
@[simp] theorem ensures_stuck : ¬ Ensures (stuck : Prog S α) s Q := by
  rintro ⟨a, s', h, -⟩
  cases h

theorem ensures_ofOption {o : S → Option α} :
    Ensures (ofOption o) s Q ↔ ∃ a, o s = some a ∧ Q a s := by
  cases h : o s <;> simp [Ensures, ofOption, h]

/-- A branch ensures what each side does under its condition. -/
@[simp] theorem ensures_ite {c : Prop} [Decidable c] {y : Prog S α} :
    Ensures (if c then x else y) s Q ↔ (c → Ensures x s Q) ∧ (¬ c → Ensures y s Q) := by
  by_cases hc : c <;> simp [hc]

@[simp] theorem ensures_when {c : Prop} [Decidable c] {x : Prog S Unit} {Q : Unit → S → Prop} :
    Ensures (when c x) s Q ↔ (c → Ensures x s Q) ∧ (¬ c → Q () s) := by
  simp [when]

/-- A run of `x` and then `f` splits. -/
theorem bind_eq_some {f : α → Prog S β} {b : β} {s'' : S} (h : (x >>= f) s = some (b, s'')) :
    ∃ a s', x s = some (a, s') ∧ f a s' = some (b, s'') := by
  have he : Ensures (x >>= f) s fun b' t => b' = b ∧ t = s'' := ⟨b, s'', h, rfl, rfl⟩
  obtain ⟨a, s', hx, c, t, hf, rfl, rfl⟩ := ensures_bind.mp he
  exact ⟨a, s', hx, hf⟩

/-- Programs that ensure the same are the same. -/
theorem ext_ensures {y : Prog S α} (h : ∀ s Q, Ensures x s Q ↔ Ensures y s Q) : x = y := by
  funext s
  cases hx : x s with
  | none =>
    cases hy : y s with
    | none => rfl
    | some r =>
      obtain ⟨a, s', hx', -⟩ := (h s fun _ _ => True).mpr ⟨r.1, r.2, hy, trivial⟩
      rw [hx] at hx'
      cases hx'
  | some r =>
    obtain ⟨a, s', hy, heq⟩ := (h s fun a s' => (a, s') = r).mp ⟨r.1, r.2, hx, rfl⟩
    rw [hy, heq]

/-! ## Partial correctness -/

/-- If the program, started in `s`, returns, then its result satisfies `Q`. -/
def Yields (x : Prog S α) (s : S) (Q : α → S → Prop) : Prop :=
  ∀ a s', x s = some (a, s') → Q a s'

theorem Yields.mono (h : Yields x s Q) (hq : ∀ a s', Q a s' → Q' a s') : Yields x s Q' :=
  fun a s' hx => hq a s' (h a s' hx)

/-- A program has one result, so what is ensured of it is what it yields. -/
theorem Ensures.yields (h : Ensures x s Q) : Yields x s Q := by
  obtain ⟨a, s', hx, hQ⟩ := h
  intro a' s'' hx'
  rw [hx] at hx'
  cases hx'
  exact hQ

@[simp] theorem yields_pure {a : α} : Yields (pure a : Prog S α) s Q ↔ Q a s := by
  constructor
  · intro h
    exact h a s rfl
  · intro hQ a' s' h
    cases h
    exact hQ

/-- The rule for a sequence is that of `Ensures`. -/
@[simp] theorem yields_bind {f : α → Prog S β} :
    Yields (x >>= f) s R ↔ Yields x s fun a s' => Yields (f a) s' R := by
  constructor
  · intro h a s₁ hx b s₂ hf
    refine h b s₂ ?_
    change Prog.bind x f s = _
    rw [Prog.bind, hx]
    exact hf
  · intro h b s₂ hxf
    change Prog.bind x f s = _ at hxf
    unfold Prog.bind at hxf
    split at hxf
    · cases hxf
    · rename_i a s₁ hx
      exact h a s₁ hx b s₂ hxf

@[simp] theorem yields_read {f : S → α} : Yields (read f) s Q ↔ Q (f s) s := by
  simp [Yields, read]

@[simp] theorem yields_update {f : S → S} {Q : Unit → S → Prop} :
    Yields (update f) s Q ↔ Q () (f s) := by
  constructor
  · intro h
    exact h () _ rfl
  · intro hQ a s' h
    cases h
    exact hQ

@[simp] theorem yields_service {f : S → α × S} :
    Yields (service f) s Q ↔ Q (f s).1 (f s).2 := by
  constructor
  · intro h
    exact h _ _ rfl
  · intro hQ a s' h
    have he := Option.some.inj h
    rw [he] at hQ
    exact hQ

/-- A program that does not come back yields everything. -/
@[simp] theorem yields_stuck : Yields (stuck : Prog S α) s Q := by
  intro a s' h
  cases h

theorem yields_ofOption {o : S → Option α} :
    Yields (ofOption o) s Q ↔ ∀ a, o s = some a → Q a s := by
  cases h : o s <;> simp [Yields, ofOption, h]

@[simp] theorem yields_ite {c : Prop} [Decidable c] {y : Prog S α} :
    Yields (if c then x else y) s Q ↔ (c → Yields x s Q) ∧ (¬ c → Yields y s Q) := by
  by_cases hc : c <;> simp [hc]

@[simp] theorem yields_when {c : Prop} [Decidable c] {x : Prog S Unit} {Q : Unit → S → Prop} :
    Yields (when c x) s Q ↔ (c → Yields x s Q) ∧ (¬ c → Q () s) := by
  simp [when]

end Prog

end BitThunder
