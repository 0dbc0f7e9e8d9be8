import BitThunder.Time.Calendar

/-!
# Clock dividers

`BT_CalculateClockDivider` of `os/src/helpers/bt_clkdiv.c`. For every first stage it takes the
second one that is next to the quotient, if the quotient without rounding is in the range, and keeps
the pair that comes closest. It returns no error, whether there is a pair or not.

`btCalculateClockDivider_iff`: the result is the best pair of all where the best one is of that
kind, and no pair that rounding has brought out of the range comes before it.

The loop keeps the first of the pairs that come closest, among those that it tries. The invariant
says this of the stages up to the current one. What is asked is the best of all pairs, so that the
condition has to say that a best pair is among those that are tried, and that no pair that rounding
has brought out of the range is kept instead of it. For a first stage the second one next to the
quotient is the best, which is the reason why trying one is enough.
-/

namespace BitThunder

/-- The ranges in `BT_DIVIDER_PARAMS` -/
structure DividerRange : Type where
  divaMin : UInt32
  divaMax : UInt32
  divbMin : UInt32
  divbMax : UInt32

/-- The results in `BT_DIVIDER_PARAMS` -/
structure Divider : Type where
  divaVal : ℕ
  divbVal : ℕ
  clkOut : ℕ
  deriving DecidableEq

/-- How far a frequency is off -/
def calcError (clkout calcClkout : ℕ) : ℕ :=
  if clkout > calcClkout then clkout - calcClkout else calcClkout - clkout

section Code

variable (clkin clkout : UInt32) (range : DividerRange)

/-- The loop body, with `best_error` and what has been found so far; `none` is a division by zero.
-/
def dividerStep (a : ℕ) (s : ℕ × Divider) : Option (ℕ × Divider) :=
  let product := wordMul clkout.toNat (wordAdd a 1)
  if product = 0 then none
  else
    let b := clkin.toNat / product
    if b > range.divbMax.toNat ∨ b < range.divbMin.toNat then some s
    else
      let b := if clkin.toNat % product > product / 2 then wordAdd b 1 else b
      let stages := wordMul b (wordAdd a 1)
      if stages = 0 then none
      else
        let calcClkout := clkin.toNat / stages
        let error := calcError clkout.toNat calcClkout
        if s.1 > error then some (error, ⟨wordAdd a 1, b, calcClkout⟩) else some s

/-- The loop, `n` times from `a` on -/
def dividerLoop : ℕ → ℕ → ℕ × Divider → Option (ℕ × Divider)
  | 0, _, s => some s
  | n + 1, a, s => (dividerStep clkin clkout range a s).bind (dividerLoop n (a + 1))

/-- `BT_CalculateClockDivider`, with what was in `pDiv` before -/
def btCalculateClockDivider (pDiv : Divider) : Option (BtError × Divider) :=
  (dividerLoop clkin clkout range (range.divaMax.toNat - range.divaMin.toNat) range.divaMin.toNat
    (0xFFFFFFFF, pDiv)).map fun s => (.none, s.2)

end Code

/-! ## What is asked

How far off a pair is can be told without running the code. The result is compared with every pair
of the two ranges, whether the code tries it or not. -/

/-- The pairs to choose from -/
def DividerRange.Pair (range : DividerRange) (a b : ℕ) : Prop :=
  (range.divaMin.toNat < a ∧ a ≤ range.divaMax.toNat) ∧ max 1 range.divbMin.toNat ≤ b ∧
  b ≤ range.divbMax.toNat

/-- How far off a pair is -/
def pairError (clkin clkout : UInt32) (a b : ℕ) : ℕ :=
  calcError clkout.toNat (clkin.toNat / (a * b))

/-- The quotient without rounding is in the range. -/
def Tried (clkin clkout : UInt32) (range : DividerRange) (a : ℕ) : Prop :=
  range.divbMin.toNat ≤ clkin.toNat / (clkout.toNat * a) ∧
  clkin.toNat / (clkout.toNat * a) ≤ range.divbMax.toNat

/-- The second stage that is next to the quotient -/
def nearest (clkin clkout : UInt32) (a : ℕ) : ℕ :=
  let product := clkout.toNat * a
  if clkin.toNat % product > product / 2 then clkin.toNat / product + 1 else clkin.toNat / product

/-- It divides by no zero, no product wraps, and it finds the best pair; if there is none, it
returns an error. -/
structure DividesBest (clkin clkout : UInt32) (range : DividerRange) (pDiv : Divider) : Prop where
  /-- no product wraps -/
  products : ∀ a, range.divaMin.toNat < a → a ≤ range.divaMax.toNat → clkout.toNat * a < 2 ^ 32 ∧
    (Tried clkin clkout range a → nearest clkin clkout a * a < 2 ^ 32)
  /-- a best pair is found if there are pairs, and otherwise an error -/
  returns : ∃ e out, btCalculateClockDivider clkin clkout range pDiv = some (e, out) ∧
    ((∃ a b, range.Pair a b) → e = .none ∧ range.Pair out.divaVal out.divbVal ∧
      out.clkOut = clkin.toNat / (out.divaVal * out.divbVal) ∧
      ∀ a b, range.Pair a b → calcError clkout.toNat out.clkOut ≤ pairError clkin clkout a b) ∧
    ((¬∃ a b, range.Pair a b) → e ≠ .none)

/-- The ranges and frequencies it is made for -/
structure SuitsDivider (clkin clkout : UInt32) (range : DividerRange) : Prop where
  /-- there are pairs -/
  stages : range.divaMin.toNat < range.divaMax.toNat ∧
    max 1 range.divbMin.toNat ≤ range.divbMax.toNat
  /-- no product with the output clock wraps -/
  product : clkout.toNat * range.divaMax.toNat < 2 ^ 32
  /-- a quotient that is rounded to `0` is not in the range, and the next one is not too large -/
  rounded : ∀ a, range.divaMin.toNat < a → a ≤ range.divaMax.toNat → Tried clkin clkout range a →
    0 < nearest clkin clkout a ∧ nearest clkin clkout a * a < 2 ^ 32
  /-- the best pair is one of those that are tried, and none that is out of the range comes before
  it -/
  best : ∃ a, Tried clkin clkout range a ∧ range.Pair a (nearest clkin clkout a) ∧
    (∀ x y, range.Pair x y → pairError clkin clkout a (nearest clkin clkout a) ≤
    pairError clkin clkout x y) ∧
    ∀ x, range.divaMin.toNat < x → x ≤ range.divaMax.toNat → Tried clkin clkout range x →
      range.divbMax.toNat < nearest clkin clkout x →
      pairError clkin clkout a (nearest clkin clkout a) <
      pairError clkin clkout x (nearest clkin clkout x) ∨
        pairError clkin clkout a (nearest clkin clkout a) =
        pairError clkin clkout x (nearest clkin clkout x) ∧ a < x

/-! ## One step

A step tries one second stage for one first stage. -/

section Steps

variable {clkin clkout : UInt32} {range : DividerRange} {a : ℕ} {s : ℕ × Divider}

/-- A step where the first product does not wrap -/
theorem dividerStep_eq (hout : 0 < clkout.toNat) (ha : clkout.toNat * (a + 1) < 2 ^ 32) :
    (¬Tried clkin clkout range (a + 1) → dividerStep clkin clkout range a s = some s) ∧
    (Tried clkin clkout range (a + 1) → nearest clkin clkout (a + 1) * (a + 1) < 2 ^ 32 →
      dividerStep clkin clkout range a s =
        if nearest clkin clkout (a + 1) = 0 then none
        else if s.1 > pairError clkin clkout (a + 1) (nearest clkin clkout (a + 1)) then
          some (pairError clkin clkout (a + 1) (nearest clkin clkout (a + 1)),
            ⟨a + 1, nearest clkin clkout (a + 1), clkin.toNat /
            ((a + 1) * nearest clkin clkout (a + 1))⟩)
        else some s) := by
  have hle : a + 1 ≤ clkout.toNat * (a + 1) := Nat.le_mul_of_pos_left _ hout
  have hstage : wordAdd a 1 = a + 1 := wordAdd_of_lt (by omega)
  have hproduct : wordMul clkout.toNat (a + 1) = clkout.toNat * (a + 1) := Nat.mod_eq_of_lt ha
  have hne : clkout.toNat * (a + 1) ≠ 0 := by omega
  constructor
  · intro h
    have hrange : clkin.toNat / (clkout.toNat * (a + 1)) > range.divbMax.toNat ∨
        clkin.toNat / (clkout.toNat * (a + 1)) < range.divbMin.toNat := by
      unfold Tried at h
      omega
    simp only [dividerStep, hstage, hproduct, if_neg hne, if_pos hrange]
  · intro h hsmall
    have hrange : ¬(clkin.toNat / (clkout.toNat * (a + 1)) > range.divbMax.toNat ∨
        clkin.toNat / (clkout.toNat * (a + 1)) < range.divbMin.toNat) := by
      obtain ⟨h₁, h₂⟩ := h
      omega
    have hb : (if clkin.toNat % (clkout.toNat * (a + 1)) > clkout.toNat * (a + 1) / 2 then
        wordAdd (clkin.toNat / (clkout.toNat * (a + 1))) 1 else clkin.toNat /
          (clkout.toNat * (a + 1))) =
        nearest clkin clkout (a + 1) := by
      unfold nearest
      dsimp only
      split
      · rename_i hround
        refine wordAdd_of_lt ?_
        have hdiv : clkin.toNat / (clkout.toNat * (a + 1)) * (clkout.toNat * (a + 1)) +
            clkin.toNat % (clkout.toNat * (a + 1)) = clkin.toNat := Nat.div_add_mod' ..
        have hquot : clkin.toNat / (clkout.toNat * (a + 1)) ≤
            clkin.toNat / (clkout.toNat * (a + 1)) * (clkout.toNat * (a + 1)) :=
              Nat.le_mul_of_pos_right _ (by omega)
        have := clkin.toNat_lt
        omega
      · rfl
    have hstages : wordMul (nearest clkin clkout (a + 1)) (a + 1) =
        nearest clkin clkout (a + 1) * (a + 1) :=
      Nat.mod_eq_of_lt hsmall
    have hzero : nearest clkin clkout (a + 1) * (a + 1) = 0 ↔ nearest clkin clkout (a + 1) = 0 := by
      rw [Nat.mul_eq_zero]
      simp
    simp only [dividerStep, hstage, hproduct, if_neg hne, if_neg hrange, hb, hstages, hzero,
      pairError, Nat.mul_comm (a + 1)]

/-- A pair is never off by as much as `best_error` is at first. -/
theorem pairError_lt (hout : 0 < clkout.toNat) (ha : clkout.toNat * (a + 1) < 2 ^ 32)
    (hb : 0 < nearest clkin clkout (a + 1)) :
    pairError clkin clkout (a + 1) (nearest clkin clkout (a + 1)) < 0xFFFFFFFF := by
  have hin := clkin.toNat_lt
  have hclk := clkout.toNat_lt
  have hle : clkin.toNat / ((a + 1) * nearest clkin clkout (a + 1)) ≤ clkin.toNat :=
    Nat.div_le_self ..
  have hpos : clkout.toNat = 0xFFFFFFFF →
      0 < clkin.toNat / ((a + 1) * nearest clkin clkout (a + 1)) := by
    intro hmax
    -- there is only one first stage
    have hone : a = 0 := by
      by_contra hne
      have : clkout.toNat * 2 ≤ clkout.toNat * (a + 1) := Nat.mul_le_mul_left _ (by omega)
      omega
    subst hone
    have hfirst : nearest clkin clkout (0 + 1) ≤ clkin.toNat := by
      unfold nearest at hb ⊢
      rw [hmax] at hb ⊢
      dsimp only at hb ⊢
      split at hb <;> split <;> omega
    exact Nat.div_pos (by omega) (by omega)
  unfold pairError calcError
  generalize clkin.toNat / ((a + 1) * nearest clkin clkout (a + 1)) = calcClkout at hle hpos ⊢
  split <;> omega

end Steps

/-! ## The loop

The invariant is about the stages up to the current one. -/

section Loop

variable {clkin clkout : UInt32} {range : DividerRange} {pDiv : Divider}

/-- The pair of a first stage -/
def pairOf (clkin clkout : UInt32) (a : ℕ) : Divider :=
  ⟨a, nearest clkin clkout a, clkin.toNat / (a * nearest clkin clkout a)⟩

/-- `best_error` and `pDiv` when the first stages up to `k` have been tried: the first of those that
come closest -/
def BestUpTo (clkin clkout : UInt32) (range : DividerRange) (pDiv : Divider) (k : ℕ)
    (s : ℕ × Divider) : Prop :=
  (s = (0xFFFFFFFF, pDiv) ∧ ∀ x, range.divaMin.toNat < x → x ≤ k → ¬Tried clkin clkout range x) ∨
    ∃ a, range.divaMin.toNat < a ∧ a ≤ k ∧ Tried clkin clkout range a ∧
      s = (pairError clkin clkout a (nearest clkin clkout a), pairOf clkin clkout a) ∧
      ∀ x, range.divaMin.toNat < x → x ≤ k → Tried clkin clkout range x →
        pairError clkin clkout a (nearest clkin clkout a) ≤
        pairError clkin clkout x (nearest clkin clkout x) ∧
        (x < a → pairError clkin clkout a (nearest clkin clkout a) <
        pairError clkin clkout x (nearest clkin clkout x))

/-- One more first stage has been tried. -/
theorem BestUpTo.step {k : ℕ} {s : ℕ × Divider} (h : BestUpTo clkin clkout range pDiv k s)
    (hout : 0 < clkout.toNat) (hk : range.divaMin.toNat ≤ k)
    (hproduct : clkout.toNat * (k + 1) < 2 ^ 32)
    (hround : Tried clkin clkout range (k + 1) →
      0 < nearest clkin clkout (k + 1) ∧ nearest clkin clkout (k + 1) * (k + 1) < 2 ^ 32) :
    ∃ s', dividerStep clkin clkout range k s = some s' ∧
      BestUpTo clkin clkout range pDiv (k + 1) s' := by
  obtain ⟨hskip, htry⟩ := @dividerStep_eq clkin clkout range k s hout hproduct
  by_cases htried : Tried clkin clkout range (k + 1)
  · obtain ⟨hpos, hsmall⟩ := hround htried
    have hstep := htry htried hsmall
    rw [if_neg (Nat.ne_of_gt hpos)] at hstep
    have herror := pairError_lt hout hproduct hpos
    rcases h with ⟨rfl, hnone⟩ | ⟨a, hmin, hle, ha, rfl, hbest⟩
    · rw [if_pos herror] at hstep
      refine ⟨_, hstep, .inr ⟨k + 1, by omega, le_rfl, htried, rfl, fun x hx hxk hxt => ?_⟩⟩
      rcases Nat.lt_or_ge x (k + 1) with hlt | hge
      · exact absurd hxt (hnone x hx (Nat.le_of_lt_succ hlt))
      · obtain rfl : x = k + 1 := Nat.le_antisymm hxk hge
        exact ⟨le_rfl, fun h => absurd h (lt_irrefl _)⟩
    · by_cases hbetter : pairError clkin clkout a (nearest clkin clkout a) >
          pairError clkin clkout (k + 1) (nearest clkin clkout (k + 1))
      · rw [if_pos hbetter] at hstep
        refine ⟨_, hstep, .inr ⟨k + 1, by omega, le_rfl, htried, rfl, fun x hx hxk hxt => ?_⟩⟩
        rcases Nat.lt_or_ge x (k + 1) with hlt | hge
        · have := (hbest x hx (Nat.le_of_lt_succ hlt) hxt).1
          exact ⟨by omega, fun _ => by omega⟩
        · obtain rfl : x = k + 1 := Nat.le_antisymm hxk hge
          exact ⟨le_rfl, fun h => absurd h (lt_irrefl _)⟩
      · rw [if_neg hbetter] at hstep
        refine ⟨_, hstep, .inr ⟨a, hmin, Nat.le_succ_of_le hle, ha, rfl, fun x hx hxk hxt => ?_⟩⟩
        rcases Nat.lt_or_ge x (k + 1) with hlt | hge
        · exact hbest x hx (Nat.le_of_lt_succ hlt) hxt
        · obtain rfl : x = k + 1 := Nat.le_antisymm hxk hge
          exact ⟨Nat.le_of_not_gt hbetter, fun h => by omega⟩
  · refine ⟨s, hskip htried, ?_⟩
    rcases h with ⟨rfl, hnone⟩ | ⟨a, hmin, hle, ha, rfl, hbest⟩
    · refine .inl ⟨rfl, fun x hx hxk => ?_⟩
      rcases Nat.lt_or_ge x (k + 1) with hlt | hge
      · exact hnone x hx (Nat.le_of_lt_succ hlt)
      · obtain rfl : x = k + 1 := Nat.le_antisymm hxk hge
        exact htried
    · refine .inr ⟨a, hmin, Nat.le_succ_of_le hle, ha, rfl, fun x hx hxk hxt => ?_⟩
      rcases Nat.lt_or_ge x (k + 1) with hlt | hge
      · exact hbest x hx (Nat.le_of_lt_succ hlt) hxt
      · obtain rfl : x = k + 1 := Nat.le_antisymm hxk hge
        exact absurd hxt htried

/-- All first stages have been tried. -/
theorem BestUpTo.loop {n k : ℕ} {s : ℕ × Divider} (h : BestUpTo clkin clkout range pDiv k s)
    (hout : 0 < clkout.toNat) (hk : range.divaMin.toNat ≤ k)
    (hproduct : clkout.toNat * (k + n) < 2 ^ 32)
    (hround : ∀ a, k < a → a ≤ k + n → Tried clkin clkout range a →
      0 < nearest clkin clkout a ∧ nearest clkin clkout a * a < 2 ^ 32) :
    ∃ s', dividerLoop clkin clkout range n k s = some s' ∧
      BestUpTo clkin clkout range pDiv (k + n) s' := by
  induction n generalizing k s with
  | zero => exact ⟨s, rfl, h⟩
  | succ n ih =>
    have hfirst : clkout.toNat * (k + 1) < 2 ^ 32 :=
      lt_of_le_of_lt (Nat.mul_le_mul_left _ (by omega)) hproduct
    obtain ⟨s', hstep, h'⟩ := h.step hout hk hfirst (hround (k + 1) (Nat.lt_succ_self k) (by omega))
    have hsum : k + (n + 1) = k + 1 + n := by omega
    rw [hsum] at hproduct hround ⊢
    obtain ⟨s'', hloop, h''⟩ := ih h' (by omega) hproduct fun a ha => hround a (by omega)
    refine ⟨s'', ?_, h''⟩
    rw [dividerLoop, hstep]
    exact hloop

/-- A loop that comes to its end has not divided by zero. -/
theorem nearest_pos_of_loop {n k : ℕ} {s s' : ℕ × Divider}
    (hloop : dividerLoop clkin clkout range n k s = some s')
    (hout : 0 < clkout.toNat) (hproduct : ∀ a, k < a → a ≤ k + n → clkout.toNat * a < 2 ^ 32 ∧
      (Tried clkin clkout range a → nearest clkin clkout a * a < 2 ^ 32)) {a : ℕ} (ha :
      k < a) (hle : a ≤ k + n)
    (htried : Tried clkin clkout range a) : 0 < nearest clkin clkout a := by
  induction n generalizing k s with
  | zero => omega
  | succ n ih =>
    rw [dividerLoop] at hloop
    obtain ⟨t, hstep, hrest⟩ := Option.bind_eq_some_iff.mp hloop
    rcases Nat.lt_or_ge (k + 1) a with hlt | hge
    · exact ih hrest (fun x hx hxn => hproduct x (by omega) (by omega)) hlt (by omega)
    · obtain rfl : a = k + 1 := by omega
      obtain ⟨hfirst, hsecond⟩ := hproduct (k + 1) ha hle
      rw [(dividerStep_eq hout hfirst).2 htried (hsecond htried)] at hstep
      by_contra hzero
      rw [if_pos (by omega)] at hstep
      cases hstep

end Loop

/-! ## The result

A best pair that is tried is kept, unless a pair that is out of the range is closer, or is as close
and comes first. -/

variable {clkin clkout : UInt32} {range : DividerRange}

/-- There is a pair of stages to try exactly if neither range is empty. -/
theorem pair_exists : (∃ a b, range.Pair a b) ↔
    range.divaMin.toNat < range.divaMax.toNat ∧ max 1 range.divbMin.toNat ≤
      range.divbMax.toNat := by
  constructor
  · rintro ⟨a, b, ⟨h₁, h₂⟩, h₃, h₄⟩
    exact ⟨by omega, h₃.trans h₄⟩
  · rintro ⟨ha, hb⟩
    exact ⟨range.divaMax.toNat, range.divbMax.toNat, ⟨ha, le_rfl⟩, hb, le_rfl⟩

/-- What is found at the end -/
theorem SuitsDivider.found (h : SuitsDivider clkin clkout range) (hout : 0 < clkout.toNat)
    (pDiv : Divider) :
    ∃ a, btCalculateClockDivider clkin clkout range pDiv = some (.none, pairOf clkin clkout a) ∧
      range.Pair a (nearest clkin clkout a) ∧ ∀ x y, range.Pair x y →
        pairError clkin clkout a (nearest clkin clkout a) ≤ pairError clkin clkout x y := by
  have hsum : range.divaMin.toNat + (range.divaMax.toNat - range.divaMin.toNat) =
      range.divaMax.toNat := by
    have := h.stages.1
    omega
  have hinit : BestUpTo clkin clkout range pDiv range.divaMin.toNat (0xFFFFFFFF, pDiv) :=
    .inl ⟨rfl, fun x hx hxk => absurd hx (Nat.not_lt.mpr hxk)⟩
  obtain ⟨s, hloop, hbest⟩ :=
    hinit.loop hout le_rfl (n := range.divaMax.toNat - range.divaMin.toNat)
    (by rw [hsum]; exact h.product) (by rw [hsum]; exact h.rounded)
  rw [hsum] at hbest
  obtain ⟨b, hb, ⟨⟨hbmin, hbmax⟩, -, hbhigh⟩, hmin, hfirst⟩ := h.best
  rcases hbest with ⟨-, hnone⟩ | ⟨a, hamin, hamax, ha, rfl, habest⟩
  · exact absurd hb (hnone b hbmin hbmax)
  · obtain ⟨hle, hlt⟩ := habest b hbmin hbmax hb
    refine ⟨a, ?_, ⟨⟨hamin, hamax⟩, ?_, ?_⟩, fun x y hxy => hle.trans (hmin x y hxy)⟩
    · rw [btCalculateClockDivider, hloop]
      rfl
    · refine max_le (h.rounded a hamin hamax ha).1 (ha.1.trans ?_)
      unfold nearest
      dsimp only
      split <;> omega
    · by_contra hhigh
      rcases hfirst a hamin hamax ha (by omega) with hless | ⟨heq, hba⟩
      · omega
      · have := hlt hba
        omega

/-- **`BT_CalculateClockDivider` finds the best pair exactly if** there are pairs, no product wraps,
no quotient in the range is rounded to `0`, and a best pair is one that is next to a quotient in the
range, with none before it that is not in the range itself. -/
theorem btCalculateClockDivider_iff (clkin clkout : UInt32) (range : DividerRange)
    (hout : 0 < clkout.toNat) :
    (∀ pDiv, DividesBest clkin clkout range pDiv) ↔ SuitsDivider clkin clkout range := by
  constructor
  · intro h
    obtain ⟨e, out, hrun, hsome, hnone⟩ := (h ⟨0, 0, 0⟩).returns
    obtain ⟨s, hloop, hs⟩ := Option.map_eq_some_iff.mp hrun
    obtain ⟨he, hout'⟩ := Prod.mk.inj hs
    have hpairs : ∃ a b, range.Pair a b := by
      by_contra hno
      exact hnone hno he.symm
    have hstages := pair_exists.mp hpairs
    have hsum : range.divaMin.toNat + (range.divaMax.toNat - range.divaMin.toNat) =
        range.divaMax.toNat := by
      omega
    have hproducts := (h ⟨0, 0, 0⟩).products
    have hproduct := (hproducts _ hstages.1 le_rfl).1
    have hround : ∀ a, range.divaMin.toNat < a → a ≤ range.divaMax.toNat →
        Tried clkin clkout range a →
        0 < nearest clkin clkout a ∧ nearest clkin clkout a * a < 2 ^ 32 := by
      intro a ha hle htried
      refine ⟨nearest_pos_of_loop hloop hout ?_ ha
        (by rw [hsum]; exact hle) htried, (hproducts a ha hle).2 htried⟩
      rw [hsum]
      exact hproducts
    refine ⟨hstages, hproduct, hround, ?_⟩
    have hinit : BestUpTo clkin clkout range ⟨0, 0, 0⟩ range.divaMin.toNat
        (0xFFFFFFFF, ⟨0, 0, 0⟩) :=
      .inl ⟨rfl, fun x hx hxk => absurd hx (Nat.not_lt.mpr hxk)⟩
    obtain ⟨s', hloop', hbest⟩ :=
      hinit.loop hout le_rfl (n := range.divaMax.toNat - range.divaMin.toNat)
      (by rw [hsum]; exact hproduct) (by rw [hsum]; exact hround)
    obtain rfl := Option.some.inj (hloop.symm.trans hloop')
    rw [hsum] at hbest
    obtain ⟨-, hpair, hclk, hmin⟩ := hsome hpairs
    rcases hbest with ⟨rfl, -⟩ | ⟨a, hamin, hamax, ha, rfl, habest⟩
    · rw [← hout'] at hpair
      exact absurd hpair.1.1 (Nat.not_lt_zero _)
    · rw [← hout'] at hpair hmin
      refine ⟨a, ha, hpair, hmin, fun x hx hxmax hxt hhigh => ?_⟩
      obtain ⟨hle, hlt⟩ := habest x hx hxmax hxt
      rcases Nat.lt_trichotomy x a with hxa | rfl | hxa
      · exact .inl (hlt hxa)
      · exact absurd hpair.2.2 (Nat.not_le.mpr hhigh)
      · rcases Nat.lt_or_eq_of_le hle with hless | heq
        · exact .inl hless
        · exact .inr ⟨heq, hxa⟩
  · intro h pDiv
    obtain ⟨a, hrun, hpair, hmin⟩ := h.found hout pDiv
    refine ⟨fun x hx hxmax => ⟨?_, fun hxt => (h.rounded x hx hxmax hxt).2⟩, .none, _, hrun,
      fun _ => ⟨rfl, hpair, rfl, hmin⟩, fun hno => absurd (pair_exists.mpr h.stages) hno⟩
    exact lt_of_le_of_lt (Nat.mul_le_mul_left _ hxmax) h.product

/-- 1 GHz to 25 MHz, with the ranges of the Ethernet clock: 2 and 20 are found. -/
theorem btCalculateClockDivider_iff_gem :
    DividesBest 1000000000 25000000 ⟨1, 64, 1, 64⟩ ⟨0, 0, 0⟩ := by
  have hall : ∀ a < 65, 1 < a → 0 < nearest 1000000000 25000000 a ∧
      nearest 1000000000 25000000 a * a < 2 ^ 32 ∧ nearest 1000000000 25000000 a ≤ 64 ∨
      1000000000 / (25000000 * a) < 1 := by decide +kernel
  have htried {a : ℕ} (hlow : 1 < a) (hhigh : a ≤ 64)
      (h : Tried 1000000000 25000000 ⟨1, 64, 1, 64⟩ a) : 0 < nearest 1000000000 25000000 a ∧
        nearest 1000000000 25000000 a * a < 2 ^ 32 ∧ nearest 1000000000 25000000 a ≤ 64 :=
    (hall a (by omega) hlow).resolve_right (Nat.not_lt.mpr h.1)
  refine (btCalculateClockDivider_iff 1000000000 25000000 ⟨1, 64, 1, 64⟩ (by decide)).mpr ?_ _
  exact {
    stages := by decide
    product := by decide
    rounded := fun a hlow hhigh h => ⟨(htried hlow hhigh h).1, (htried hlow hhigh h).2.1⟩
    best := by
      have hexact : pairError 1000000000 25000000 2 (nearest 1000000000 25000000 2) = 0 := by decide
      refine ⟨2, ⟨by decide, by decide⟩, ⟨⟨by decide, by decide⟩, by decide, by decide⟩, ?_, ?_⟩
      · intro x y _
        rw [hexact]
        exact Nat.zero_le _
      · intro x hlow hhigh h hfar
        exact absurd hfar (Nat.not_lt.mpr (htried hlow hhigh h).2.2) }

/-- 10 Hz to 100 Hz, with the ranges of the I²C clock: the second stage is `0`, and is divided by.
-/
theorem btCalculateClockDivider_divides_by_zero : ¬DividesBest 10 100 ⟨0, 4, 0, 64⟩ ⟨0, 0, 0⟩ := by
  intro h
  obtain ⟨e, out, hrun, -⟩ := h.returns
  have hnone : btCalculateClockDivider 10 100 ⟨0, 4, 0, 64⟩ ⟨0, 0, 0⟩ = none := by decide
  exact nomatch hnone.symm.trans hrun

end BitThunder
