import Mathlib.Algebra.Order.Ring.Pow
import Mathlib.Algebra.Order.Floor.Semiring
import Mathlib.Algebra.Order.Field.Basic
import Mathlib.Tactic.Linarith
import Mathlib.Tactic.Ring

set_option autoImplicit false

/-! # Exponential moving averages

An average `e` that takes in samples `s` with weight `a`. Under a constant sample its distance
from the sample shrinks by `1 - a` with each step (`iterate_sub`), so it comes and stays within
any `δ > 0` of the sample after `settle a δ` steps, from any start at most `1` away
(`abs_iterate_sub_lt`). It never crosses a bound that both it and the samples respect.
-/

namespace Ema

variable {K : Type*} [Field K] [LinearOrder K] [IsStrictOrderedRing K]

/-- The average after the sample `s`. -/
def step (a s e : K) : K := e * (1 - a) + s * a

omit [LinearOrder K] [IsStrictOrderedRing K] in
theorem step_sub (a s e : K) : step a s e - s = (1 - a) * (e - s) := by
  unfold step
  ring

/-- The average stays below what bounds it and the sample. -/
theorem step_le {a s e b : K} (ha : 0 ≤ a) (ha' : a ≤ 1) (he : e ≤ b) (hs : s ≤ b) :
    step a s e ≤ b := by
  calc step a s e ≤ b * (1 - a) + b * a :=
        add_le_add (mul_le_mul_of_nonneg_right he (sub_nonneg.mpr ha'))
          (mul_le_mul_of_nonneg_right hs ha)
    _ = b := by ring

/-- A sample strictly below the bound keeps the average strictly below it. -/
theorem step_lt {a s e b : K} (ha : 0 < a) (ha' : a ≤ 1) (he : e ≤ b) (hs : s < b) :
    step a s e < b := by
  calc step a s e < b * (1 - a) + b * a :=
        add_lt_add_of_le_of_lt (mul_le_mul_of_nonneg_right he (sub_nonneg.mpr ha'))
          (mul_lt_mul_of_pos_right hs ha)
    _ = b := by ring

theorem le_step {a s e b : K} (ha : 0 ≤ a) (ha' : a ≤ 1) (he : b ≤ e) (hs : b ≤ s) :
    b ≤ step a s e := by
  calc b = b * (1 - a) + b * a := by ring
    _ ≤ step a s e :=
        add_le_add (mul_le_mul_of_nonneg_right he (sub_nonneg.mpr ha'))
          (mul_le_mul_of_nonneg_right hs ha)

omit [LinearOrder K] [IsStrictOrderedRing K] in
/-- The average moves by its weight times the distance of the sample. -/
theorem step_sub_self (a s e : K) : step a s e - e = a * (s - e) := by
  unfold step
  ring

/-- With average and sample less than `1` apart it moves by less than its weight. -/
theorem abs_step_sub_self_lt {a s e : K} (ha : 0 < a) (h : |s - e| < 1) :
    |step a s e - e| < a := by
  rw [step_sub_self, abs_mul, abs_of_pos ha]
  calc a * |s - e| < a * 1 := mul_lt_mul_of_pos_left h ha
    _ = a := mul_one a

/-! ## A constant sample -/

omit [LinearOrder K] [IsStrictOrderedRing K] in
theorem iterate_sub (a s e : K) (n : Nat) : (step a s)^[n] e - s = (1 - a) ^ n * (e - s) := by
  induction n with
  | zero => simp
  | succ n ih =>
      rw [Function.iterate_succ_apply', step_sub, ih, pow_succ]
      ring

/-- Bernoulli's inequality bounds the powers of `1 - a` from above as well. -/
theorem pow_mul_le_one {a : K} (ha : 0 ≤ a) (ha' : a ≤ 1) (n : Nat) :
    (1 - a) ^ n * (1 + n * a) ≤ 1 := by
  induction n with
  | zero => simp
  | succ n ih =>
      have hpow : 0 ≤ (1 - a) ^ n := pow_nonneg (sub_nonneg.mpr ha') n
      have hstep : (1 - a) * (1 + (n + 1 : K) * a) ≤ 1 + n * a := by
        have hsq : 0 ≤ (n + 1 : K) * (a * a) := by positivity
        linarith
      calc (1 - a) ^ (n + 1) * (1 + (n + 1 : Nat) * a)
          = (1 - a) ^ n * ((1 - a) * (1 + (n + 1 : K) * a)) := by
            push_cast
            ring
        _ ≤ (1 - a) ^ n * (1 + n * a) := mul_le_mul_of_nonneg_left hstep hpow
        _ ≤ 1 := ih

section

variable [FloorSemiring K]

/-- Steps after which the average is within `δ` of a constant sample. -/
def settle (a δ : K) : Nat := ⌈1 / (a * δ)⌉₊

theorem pow_lt_of_settle_le {a δ : K} (ha : 0 < a) (ha' : a ≤ 1) (hδ : 0 < δ) {n : Nat}
    (hn : settle a δ ≤ n) : (1 - a) ^ n < δ := by
  have haδ : 0 < a * δ := mul_pos ha hδ
  have hone : 1 ≤ n * (a * δ) := by
    have hceil : 1 / (a * δ) ≤ n := (Nat.le_ceil _).trans (Nat.cast_le.mpr hn)
    exact (div_le_iff₀ haδ).mp hceil
  by_contra hle
  have hpos : 0 < 1 + n * a := by positivity
  -- `δ * (1 + n * a)` would be at most one
  have hlt : 1 < δ * (1 + n * a) := by linarith
  exact absurd ((mul_le_mul_of_nonneg_right (not_lt.mp hle) hpos.le).trans
    (pow_mul_le_one ha.le ha' n)) (not_le.mpr hlt)

/-- **The average settles.** -/
theorem abs_iterate_sub_lt {a δ s e : K} (ha : 0 < a) (ha' : a ≤ 1) (hδ : 0 < δ)
    (he : |e - s| ≤ 1) {n : Nat} (hn : settle a δ ≤ n) : |(step a s)^[n] e - s| < δ := by
  have hpow : 0 ≤ (1 - a) ^ n := pow_nonneg (sub_nonneg.mpr ha') n
  calc |(step a s)^[n] e - s| = (1 - a) ^ n * |e - s| := by
        rw [iterate_sub, abs_mul, abs_of_nonneg hpow]
    _ ≤ (1 - a) ^ n := mul_le_of_le_one_right hpow he
    _ < δ := pow_lt_of_settle_le ha ha' hδ hn

end

end Ema
