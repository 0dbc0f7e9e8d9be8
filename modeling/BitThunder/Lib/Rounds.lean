import Mathlib.Data.Fintype.EquivFin
import Mathlib.Logic.Relation

/-!
# Loops that need not end

A loop over an arbitrary type of states. A round ends the loop with a result or goes on at another
state; it may contain loops itself, so that it is given a number of rounds for these, and there is
nothing where they are not enough.

* `rounds_mono`: with more rounds the result stays;
* `LeadsBack`: a relation leads back to where it has been;
* `rounds_result_iff`: what a loop ends with;
* `rounds_ends_iff`: with finitely many states a loop ends exactly if all rounds do and it does not
  come back to a state.

A number of rounds is a way to write a loop down as a function, and should not be seen in what is
said of the loop. The lemmas lead from the one to the other: more rounds never change a result, so
that "with enough rounds" is a property of the loop alone, and on finitely many states it is one of
the relation between a state and the next.
-/

namespace BitThunder

universe u v

variable {α : Type u} {β : Type v}

/-- At most so many rounds of a loop -/
def rounds (step : α → Option (β ⊕ α)) : ℕ → α → Option β
  | 0, _ => none
  | k + 1, x =>
    match step x with
    | none => none
    | some (.inl b) => some b
    | some (.inr y) => rounds step k y

/-- A round that has the result is the last one. -/
theorem rounds_of_result {step : α → Option (β ⊕ α)} {x : α} {b : β} (h : step x = some (.inl b))
    (k : ℕ) :
    rounds step (k + 1) x = some b := by
  rw [rounds, h]

/-- A round that goes on is followed by the next. -/
theorem rounds_of_next {step : α → Option (β ⊕ α)} {x y : α} (h : step x = some (.inr y)) (k : ℕ) :
    rounds step (k + 1) x = rounds step k y := by
  rw [rounds, h]

/-- More rounds, also for the loops within. -/
theorem rounds_mono {step step' : α → Option (β ⊕ α)} (hstep : ∀ x r, step x = some r →
    step' x = some r) {k l : ℕ}
    (hkl : k ≤ l) {x : α} {b : β} (h : rounds step k x = some b) : rounds step' l x = some b := by
  induction k generalizing l x with
  | zero => exact nomatch h
  | succ k ih =>
    obtain ⟨l, rfl⟩ := Nat.exists_eq_add_of_le' (Nat.one_le_of_lt hkl)
    rw [rounds] at h
    cases hx : step x with
    | none =>
      rw [hx] at h
      exact nomatch h
    | some r =>
      rw [hx] at h
      cases r with
      | inl c =>
        obtain rfl := Option.some.inj h
        exact rounds_of_result (hstep x _ hx) l
      | inr y =>
        rw [rounds_of_next (hstep x _ hx)]
        exact ih (Nat.le_of_succ_le_succ hkl) h

/-- Rounds that are as they were but for one result -/
theorem rounds_of_ne {step step' : α → Option (β ⊕ α)} {bad : β}
    (hstep : ∀ x r, step x = some r → r ≠ .inl bad → step' x = some r) {k : ℕ} {x : α} {b : β}
    (hb : b ≠ bad)
    (h : rounds step k x = some b) : rounds step' k x = some b := by
  induction k generalizing x with
  | zero => exact nomatch h
  | succ k ih =>
    rw [rounds] at h
    rcases hx : step x with _ | c | y
    · rw [hx] at h
      exact nomatch h
    · rw [hx] at h
      obtain rfl := Option.some.inj h
      exact rounds_of_result (hstep x _ hx fun he => hb (Sum.inl.inj he)) k
    · rw [hx] at h
      rw [rounds_of_next (hstep x _ hx nofun)]
      exact ih h

/-! ## Coming back -/

/-- From `x` the relation leads somewhere from where it leads back. -/
def LeadsBack (r : α → α → Prop) (x : α) : Prop :=
  ∃ y, Relation.ReflTransGen r x y ∧ Relation.TransGen r y y

/-- What is reached by a function is reached through its value. -/
theorem reaches_cases {r : α → α → Prop} (hr : ∀ x y z, r x y → r x z → y = z) {x y z : α}
    (h : r x y) (hz : Relation.ReflTransGen r x z) : z = x ∨ Relation.ReflTransGen r y z := by
  rcases hz.cases_head with rfl | ⟨w, hw, hwz⟩
  · exact .inl rfl
  · exact .inr (hr x w y hw h ▸ hwz)

/-- On a function's graph whoever comes after a state that leads back leads back too. -/
theorem LeadsBack.tail {r : α → α → Prop} (hr : ∀ x y z, r x y → r x z → y = z) {x y : α}
    (h : r x y) (hx : LeadsBack r x) : LeadsBack r y := by
  obtain ⟨z, hreach, hback⟩ := hx
  rcases reaches_cases hr h hreach with rfl | hreach
  · obtain ⟨w, hw, hwz⟩ := Relation.TransGen.head'_iff.mp hback
    obtain rfl := hr z w y hw h
    exact ⟨w, .refl, .tail' hwz hw⟩
  · exact ⟨z, hreach, hback⟩

/-- A property that holds where it holds next, as long as the relation does not lead back: finitely
many states. -/
theorem induction_of_not_leadsBack [Finite α] {r : α → α → Prop} {p : α → Prop} {x : α}
    (hx : ¬LeadsBack r x) (hp : ∀ y, Relation.ReflTransGen r x y → (∀ z, r y z → p z) → p y) :
    p x := by
  let S := { y // Relation.ReflTransGen r x y }
  let down (a b : S) : Prop := Relation.TransGen r b.1 a.1
  have : IsTrans S down := ⟨fun a b c hab hbc => hbc.trans hab⟩
  have : Std.Irrefl down := ⟨fun a ha => hx ⟨a.1, a.2, ha⟩⟩
  have hwf : WellFounded down := Finite.wellFounded_of_trans_of_irrefl down
  refine hwf.induction (C := fun a : S => p a.1) ⟨x, .refl⟩ fun a ih => hp a.1 a.2 fun z hz => ?_
  exact ih ⟨z, a.2.tail hz⟩ (.single hz)

/-! ## Whether a loop ends -/

section Ends

variable {step : ℕ → α → Option (β ⊕ α)}

/-- A round goes on. -/
def Goes (step : ℕ → α → Option (β ⊕ α)) (x y : α) : Prop := ∃ k, step k x = some (.inr y)

/-- The loop ends, if enough rounds are made. -/
def Ends (step : ℕ → α → Option (β ⊕ α)) (x : α) : Prop := ∃ k b, rounds (step k) k x = some b

/-- Steps that agree with more fuel have one result. -/
theorem step_unique (hmono : ∀ k l x r, k ≤ l → step k x = some r → step l x = some r) {k l : ℕ}
    {x : α} {r s : β ⊕ α} (hr : step k x = some r) (hs : step l x = some s) : r = s :=
  Option.some.inj ((hmono k _ x r (Nat.le_max_left k l) hr).symm.trans
  (hmono l _ x s (Nat.le_max_right k l) hs))

theorem Goes.unique (hmono : ∀ k l x r, k ≤ l → step k x = some r → step l x = some r) (x y z : α)
    (hy : Goes step x y) (hz : Goes step x z) : y = z := by
  obtain ⟨k, hk⟩ := hy
  obtain ⟨l, hl⟩ := hz
  exact Sum.inr.inj (step_unique hmono hk hl)

/-- All rounds of a loop that has ended have done so, and it did not come back. -/
theorem settled_of_rounds (hmono : ∀ k l x r, k ≤ l → step k x = some r → step l x = some r)
    {k l : ℕ} {x : α} {b : β} (h : rounds (step k) l x = some b) :
    (∀ y, Relation.ReflTransGen (Goes step) x y → ∃ k r, step k y = some r) ∧
      ¬LeadsBack (Goes step) x := by
  induction l generalizing x with
  | zero => exact nomatch h
  | succ l ih =>
    rw [rounds] at h
    cases hx : step k x with
    | none =>
      rw [hx] at h
      exact nomatch h
    | some r =>
      rw [hx] at h
      cases r with
      | inl c =>
        have hstop : ∀ y, ¬Goes step x y := fun y ⟨m, hm⟩ => nomatch step_unique hmono hx hm
        constructor
        · intro y hy
          rcases hy.cases_head with rfl | ⟨z, hz, -⟩
          · exact ⟨k, _, hx⟩
          · exact absurd hz (hstop z)
        · rintro ⟨y, hy, hback⟩
          rcases hy.cases_head with rfl | ⟨z, hz, -⟩
          · obtain ⟨z, hz, -⟩ := Relation.TransGen.head'_iff.mp hback
            exact hstop z hz
          · exact hstop z hz
      | inr y =>
        obtain ⟨hall, hno⟩ := ih h
        have hgo : Goes step x y := ⟨k, hx⟩
        refine ⟨fun z hz => ?_, fun hback => hno (hback.tail (Goes.unique hmono) hgo)⟩
        rcases reaches_cases (Goes.unique hmono) hgo hz with rfl | hz
        · exact ⟨k, _, hx⟩
        · exact hall z hz

/-- **A loop over finitely many states ends exactly if** each of its rounds ends and it does not
come back to a state. -/
theorem rounds_ends_iff [Finite α] (hmono : ∀ k l x r, k ≤ l → step k x = some r →
    step l x = some r) (x : α) :
    Ends step x ↔ (∀ y, Relation.ReflTransGen (Goes step) x y → ∃ k r, step k y = some r) ∧
      ¬LeadsBack (Goes step) x := by
  constructor
  · rintro ⟨k, b, h⟩
    exact settled_of_rounds hmono h
  · rintro ⟨hall, hno⟩
    refine induction_of_not_leadsBack hno fun y hy ih => ?_
    obtain ⟨k, r, hr⟩ := hall y hy
    cases r with
    | inl b =>
      exact ⟨k + 1, b, rounds_of_result (hmono k _ y _ (Nat.le_succ k) hr) k⟩
    | inr z =>
      obtain ⟨l, b, hl⟩ := ih z ⟨k, hr⟩
      refine ⟨max k l + 1, b, ?_⟩
      rw [rounds_of_next (hmono k _ y _ (by omega) hr)]
      exact rounds_mono (fun x r => hmono l _ x r (by omega)) (Nat.le_max_right k l) hl

/-- A loop ends with what the round does that it comes to. -/
theorem rounds_result_iff (hmono : ∀ k l x r, k ≤ l → step k x = some r → step l x = some r) (x : α)
    (b : β) :
    (∃ k, rounds (step k) k x = some b) ↔ ∃ y, Relation.ReflTransGen (Goes step) x y ∧
      ∃ k, step k y = some (.inl b) := by
  constructor
  · rintro ⟨k, h⟩
    suffices ∀ l x, rounds (step k) l x = some b →
        ∃ y, Relation.ReflTransGen (Goes step) x y ∧ ∃ k, step k y = some (.inl b) from this k x h
    clear h
    intro l x h
    induction l generalizing x with
    | zero => exact nomatch h
    | succ l ih =>
      rw [rounds] at h
      rcases hx : step k x with _ | c | y
      · rw [hx] at h
        exact nomatch h
      · rw [hx] at h
        obtain rfl := Option.some.inj h
        exact ⟨x, .refl, k, hx⟩
      · rw [hx] at h
        obtain ⟨z, hz, hend⟩ := ih y h
        exact ⟨z, .head ⟨k, hx⟩ hz, hend⟩
  · rintro ⟨y, hy, k, hk⟩
    induction hy using Relation.ReflTransGen.head_induction_on with
    | refl => exact ⟨k + 1, rounds_of_result (hmono k _ y _ (Nat.le_succ k) hk) k⟩
    | head hgo _ ih =>
      obtain ⟨l, hl⟩ := hgo
      obtain ⟨m, hm⟩ := ih
      refine ⟨max l m + 1, ?_⟩
      rw [rounds_of_next (hmono l _ _ _ (by omega) hl)]
      exact rounds_mono (fun x r => hmono m _ x r (by omega)) (Nat.le_max_right l m) hm

end Ends

/-! ## Loops with no loop in a round -/

section Plain

variable {round : α → β ⊕ α} {x : α}

/-- A round without fuel of its own goes where it says. -/
theorem goes_plain : Goes (fun _ x => some (round x)) = fun x y => round x = .inr y := by
  funext x y
  exact propext ⟨fun ⟨_, h⟩ => Option.some.inj h, fun h => ⟨0, congrArg some h⟩⟩

/-- Over finitely many states the rounds end exactly if no state comes again. -/
theorem rounds_ends_plain [Finite α] :
    (∃ k b, rounds (fun x => some (round x)) k x = some b) ↔
      ¬LeadsBack (fun x y => round x = .inr y) x := by
  rw [← goes_plain]
  have hends := @rounds_ends_iff α β (fun _ x => some (round x)) _ (fun _ _ _ _ _ h => h) x
  exact hends.trans (and_iff_right fun y _ => ⟨0, _, rfl⟩)

/-- The result is that of the first round that has one. -/
theorem rounds_result_plain {b : β} : (∃ k, rounds (fun x => some (round x)) k x = some b) ↔
    ∃ y, Relation.ReflTransGen (fun x y => round x = .inr y) x y ∧ round y = .inl b := by
  rw [← goes_plain]
  refine (@rounds_result_iff α β (fun _ x => some (round x)) (fun _ _ _ _ _ h => h) x b).trans ?_
  simp only [Option.some.injEq, exists_const]

end Plain

end BitThunder
