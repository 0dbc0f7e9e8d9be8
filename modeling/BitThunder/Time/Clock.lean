import BitThunder.Mm.Defs

/-!
# Time of day

`bt_settimeofday` and `bt_gettimeofday` of `os/src/time/time.c`. Setting the time notes the kernel
tick, of a millisecond, and the microseconds since then; reading it adds what has passed. The
microseconds may be more than a tick, when the tick interrupt is late: both calls normalise them
first, then a borrow and a carry take care of the rest.

* `normalise_eq`: the loop that both calls begin with;
* `btGettimeofday_eq`: the time read, as a carry of the time set and the time passed;
* `time_advances_iff`: when it is exact.

The only computations that could go wrong are a borrow between ticks and microseconds, and a carry
from microseconds to seconds. The borrow is right for every pair of readings, because the loop
normalises both. The carry compares with a million the wrong way round at one value: exactly a
million microseconds stay where they are.
-/

namespace BitThunder

/-- `struct bt_timeval` -/
structure Timeval : Type where
  tvSec : ℕ
  tvUsec : ℕ
  deriving DecidableEq

/-- `struct _bt_systime`, what there is of the time -/
structure Systime : Type where
  sysTime : Timeval
  sysTicks : ℕ
  sysTicksUs : ℕ

/-- `while(usecs >= 1000)` -/
def normalise (oTicks usecs : ℕ) : ℕ × ℕ :=
  if 1000 ≤ usecs then normalise (wordAdd oTicks 1) (usecs - 1000) else (oTicks, usecs)
termination_by usecs

/-- `bt_settimeofday`, at this tick and this offset -/
def btSettimeofday (tv : Timeval) (oTicks usecs : ℕ) : Systime :=
  let r := normalise oTicks usecs
  ⟨tv, r.1, r.2⟩

/-- `bt_gettimeofday`, at this tick and this offset -/
def btGettimeofday (g : Systime) (oTicks usecs : ℕ) : Timeval :=
  let r := normalise oTicks usecs
  let oTicks := wordSub r.1 g.sysTicks
  let usecs := r.2
  let r :=
    if g.sysTicksUs ≤ usecs then (oTicks, usecs - g.sysTicksUs)
    else if oTicks ≠ 0 then (wordSub oTicks 1, 1000 - (g.sysTicksUs - usecs))
    else (oTicks, 0)
  let seconds := r.1 / 1000
  let usecs := r.1 % 1000 * 1000 + r.2
  let tvSec := wordAdd g.sysTime.tvSec seconds
  let tvUsec := wordAdd g.sysTime.tvUsec usecs
  if 1000000 < tvUsec then ⟨wordAdd tvSec 1, tvUsec - 1000000⟩ else ⟨tvSec, tvUsec⟩

/-- The time in microseconds. -/
def Timeval.micros (tv : Timeval) : ℕ := 1000000 * tv.tvSec + tv.tvUsec

/-- The time `r` is normalised, and `e` microseconds after the time `tv`. -/
structure Timeval.Advanced (tv r : Timeval) (e : ℕ) : Prop where
  /-- the time is the old one and what has elapsed -/
  exact : r.micros = tv.micros + e
  /-- with less than a second of microseconds -/
  normalised : r.tvUsec < 1000000

/-- The microseconds from one tick and offset to another. -/
def elapsed (k₀ o₀ k₁ o₁ : ℕ) : ℕ := 1000 * k₁ + o₁ - (1000 * k₀ + o₀)

theorem normalise_eq (oTicks usecs : ℕ) (hk : oTicks < 2 ^ 32) :
    normalise oTicks usecs = (wordAdd oTicks (usecs / 1000), usecs % 1000) := by
  induction usecs using Nat.strong_induction_on generalizing oTicks with
  | _ usecs ih =>
    rw [normalise]
    split
    · rename_i h
      rw [ih (usecs - 1000) (by omega) _ (wordAdd_lt _ _)]
      rw [Prod.mk.injEq, wordAdd, wordAdd, wordAdd]
      omega
    · rename_i h
      rw [Prod.mk.injEq, wordAdd]
      omega

section Elapsed

variable {tv : Timeval} {k₀ o₀ k₁ o₁ : ℕ} (hk₀ : k₀ < 2 ^ 32) (hk₁ : k₁ < 2 ^ 32)
  (hlater : 1000 * k₀ + o₀ ≤ 1000 * k₁ + o₁)
  (hwrap : k₁ + o₁ / 1000 < k₀ + o₀ / 1000 + 2 ^ 32)

include hlater hwrap

/-- The ticks and microseconds that have passed, after the borrow. -/
theorem elapsed_eq : let e := elapsed k₀ o₀ k₁ o₁
    let oTicks := wordSub (wordAdd k₁ (o₁ / 1000)) (wordAdd k₀ (o₀ / 1000))
    (if o₀ % 1000 ≤ o₁ % 1000 then (oTicks, o₁ % 1000 - o₀ % 1000)
      else if oTicks ≠ 0 then (wordSub oTicks 1, 1000 - (o₀ % 1000 - o₁ % 1000))
      else (oTicks, 0)) = (e / 1000, e % 1000) := by
  intro e oTicks
  have hticks : oTicks = k₁ + o₁ / 1000 - (k₀ + o₀ / 1000) := by
    simp only [oTicks, wordSub, wordAdd]
    omega
  have he : e = 1000 * k₁ + o₁ - (1000 * k₀ + o₀) := rfl
  split_ifs with hborrow hzero
  · rw [Prod.mk.injEq]
    omega
  · have hsub : wordSub oTicks 1 = oTicks - 1 := wordSub_of_le (by omega) (by omega)
    rw [hsub, Prod.mk.injEq]
    omega
  · omega

include hk₀ hk₁

/-- The time read: the seconds are added, the microseconds are added, and more than a million of
them are a second. -/
theorem btGettimeofday_eq (htv : tv.tvUsec < 1000000) :
    let e := elapsed k₀ o₀ k₁ o₁
    btGettimeofday (btSettimeofday tv k₀ o₀) k₁ o₁ =
      if 1000000 < tv.tvUsec + e % 1000000 then
        ⟨wordAdd (wordAdd tv.tvSec (e / 1000000)) 1, tv.tvUsec + e % 1000000 - 1000000⟩
      else ⟨wordAdd tv.tvSec (e / 1000000), tv.tvUsec + e % 1000000⟩ := by
  intro e
  have hsec : e / 1000 / 1000 = e / 1000000 := Nat.div_div_eq_div_mul e 1000 1000
  have husec : e / 1000 % 1000 * 1000 + e % 1000 = e % 1000000 := by omega
  have hword : wordAdd tv.tvUsec (e % 1000000) = tv.tvUsec + e % 1000000 :=
    wordAdd_of_lt (by omega)
  have helapsed := elapsed_eq hlater hwrap
  simp only [btGettimeofday, btSettimeofday, normalise_eq _ _ hk₀, normalise_eq _ _ hk₁]
  simp only at helapsed
  rw [helapsed, hsec, husec, hword]

/-- **Time of day advances by elapsed time** exactly if the seconds still fit into a word and the
microseconds do not add up to a whole second. -/
theorem time_advances_iff (hsec : tv.tvSec < 2 ^ 32) (htv : tv.tvUsec < 1000000) :
    tv.Advanced (btGettimeofday (btSettimeofday tv k₀ o₀) k₁ o₁) (elapsed k₀ o₀ k₁ o₁) ↔
      tv.tvSec + (tv.tvUsec + elapsed k₀ o₀ k₁ o₁) / 1000000 < 2 ^ 32 ∧
        tv.tvUsec + elapsed k₀ o₀ k₁ o₁ % 1000000 ≠ 1000000 := by
  rw [btGettimeofday_eq hk₀ hk₁ hlater hwrap htv]
  generalize elapsed k₀ o₀ k₁ o₁ = e
  split_ifs with hcarry
  · have hsum : wordAdd (wordAdd tv.tvSec (e / 1000000)) 1 =
        (tv.tvSec + (tv.tvUsec + e) / 1000000) % 2 ^ 32 := by
      unfold wordAdd
      omega
    rw [hsum]
    constructor
    · rintro ⟨hexact, -⟩
      simp only [Timeval.micros] at hexact
      omega
    · rintro ⟨hfit, -⟩
      refine ⟨?_, ?_⟩
      · simp only [Timeval.micros]
        omega
      · change tv.tvUsec + e % 1000000 - 1000000 < 1000000
        omega
  · have hsum : wordAdd tv.tvSec (e / 1000000) = (tv.tvSec + e / 1000000) % 2 ^ 32 := rfl
    rw [hsum]
    constructor
    · rintro ⟨hexact, hnorm⟩
      simp only [Timeval.micros] at hexact hnorm
      omega
    · rintro ⟨hfit, hne⟩
      refine ⟨?_, ?_⟩
      · simp only [Timeval.micros]
        omega
      · change tv.tvUsec + e % 1000000 < 1000000
        omega

end Elapsed

/-- A quarter of a second before the next one, and then half a second; the ticks are late in both
calls. -/
theorem time_advances_half_second :
    Timeval.Advanced ⟨5, 750000⟩ (btGettimeofday (btSettimeofday ⟨5, 750000⟩ 100 2500) 599 3500)
      (elapsed 100 2500 599 3500) :=
  (time_advances_iff (by decide) (by decide) (by decide) (by decide) (by decide) (by decide)).mpr
    ⟨by decide, by decide⟩

/-- Half a second before the next one, and then half a second: there are a million microseconds. -/
theorem time_not_normalised :
    ¬ Timeval.Advanced ⟨5, 500000⟩ (btGettimeofday (btSettimeofday ⟨5, 500000⟩ 100 0) 600 0)
    (elapsed 100 0 600 0) := by
  rw [btGettimeofday_eq (by decide) (by decide) (by decide) (by decide) (by decide)]
  rintro ⟨-, hnorm⟩
  exact absurd hnorm (by decide)

end BitThunder
